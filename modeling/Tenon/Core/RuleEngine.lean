import Tenon.Core.Payload
import Tenon.Core.RuleEval
import Tenon.Core.TopicCache
import Tenon.Core.TopicTrie
import Tenon.Reasoning.Transition

/-!
# RuleEngine — the rule engine and its runs

Rules keep their slot for the life of the engine; removal empties the slot.  Evaluation looks the
topic up in the cached trie, decodes the payload once for all matched rules (once for each schema
under protobuf) and evaluates every matched rule on it.  The order in which hash sets and maps are
iterated is an input of each evaluation.
-/

open Reasoning Reasoning.Transition

namespace Tenon.Core

structure RuleEvaluation where
  ruleIndex : Nat
  message : Message
  deriving DecidableEq

structure RuleMetadata where
  ruleIndex : Nat
  destinations : List String
  deriving DecidableEq

/-- One rule evaluated on one decoded payload. -/
structure EvalAttempt where
  -- the slot that was evaluated, which the source does not keep
  ruleIndex : Nat
  evaluation : Option RuleEvaluation
  error : Option EvalError

structure ProtobufSchemaRuleGroup where
  schema : String
  ruleIndexes : List Nat

structure EvalMetrics where
  evalCount : Nat
  evalErrorCount : Nat
  evalTypeErrorCount : Nat
  payloadSchemaErrorCount : Nat
  payloadDecodeErrorCount : Nat
  payloadBuildErrorCount : Nat

namespace EvalMetrics

def new : EvalMetrics := ⟨0, 0, 0, 0, 0, 0⟩

def recordEvalSuccess (metrics : EvalMetrics) : EvalMetrics :=
  { metrics with evalCount := metrics.evalCount + 1 }

def recordEvalError (metrics : EvalMetrics) (isTypeError : Bool) : EvalMetrics :=
  { metrics with
    evalCount := metrics.evalCount + 1
    evalErrorCount := metrics.evalErrorCount + 1
    evalTypeErrorCount := metrics.evalTypeErrorCount + if isTypeError then 1 else 0 }

def recordPayloadError (metrics : EvalMetrics) (kind : PayloadErrorKind) : EvalMetrics :=
  match kind with
  | .schema => { metrics with payloadSchemaErrorCount := metrics.payloadSchemaErrorCount + 1 }
  | .decode => { metrics with payloadDecodeErrorCount := metrics.payloadDecodeErrorCount + 1 }
  | .build => { metrics with payloadBuildErrorCount := metrics.payloadBuildErrorCount + 1 }

def recordAttempt (metrics : EvalMetrics) (attempt : EvalAttempt) : EvalMetrics :=
  match attempt.error with
  | some error => metrics.recordEvalError error.isTypeError
  | none => metrics.recordEvalSuccess

end EvalMetrics

/-- The order in which one call sees the elements of hash sets and hash maps. -/
structure HashOrder where
  indexes : Finset Nat → List Nat
  groups : StringMap (List Nat) → List (String × List Nat)
  hindexes : ∀ s, (indexes s).Nodup ∧ ∀ i, i ∈ indexes s ↔ i ∈ s
  hgroups : ∀ m, (groups m).Perm (m.entries.map fun e ↦ (e.1, e.2))

inductive PayloadRuntime where
  | json (cache : TopicMatchCache (List Nat))
  | protobuf (pool : Option DescriptorPool)
      (cache : TopicMatchCache (List ProtobufSchemaRuleGroup))

namespace PayloadRuntime

def decoder : PayloadRuntime → PayloadDecoder
  | .json _ => .json
  | .protobuf pool _ => .protobuf pool

def requiresSchema : PayloadRuntime → Bool
  | .json _ => false
  | .protobuf .. => true

def clearCache : PayloadRuntime → PayloadRuntime
  | .json cache => .json cache.clear
  | .protobuf pool cache => .protobuf pool cache.clear

@[simp]
theorem decoder_clearCache (runtime : PayloadRuntime) :
    runtime.clearCache.decoder = runtime.decoder := by
  cases runtime <;> rfl

end PayloadRuntime

structure RuleEngine where
  rules : List (Option CompiledRule)
  ruleIndexById : StringMap Nat
  matcher : TopicTrie
  metrics : EvalMetrics
  payloadRuntime : PayloadRuntime

-- `rules.get(index).and_then(Option::as_ref)`
def liveRule (rules : List (Option CompiledRule)) (index : Nat) : Option CompiledRule :=
  (rules[index]?).join

/-! ## Evaluating the matched rules -/

section Evaluate

variable (C : Crates) (rules : List (Option CompiledRule)) (message : Message)

def evaluateSingleRule (ir : MsgIr) (topicParts : List String) (ruleIndex : Nat) :
    Option EvalAttempt :=
  (liveRule rules ruleIndex).map fun rule ↦
    match evaluateRuleWithPayloadAndTopicParts C rule message ir topicParts with
    | .ok (some evaluated) => ⟨ruleIndex, some ⟨ruleIndex, evaluated⟩, none⟩
    | .ok none => ⟨ruleIndex, none, none⟩
    | .error error => ⟨ruleIndex, none, some error⟩

-- the required fields of the live matched rules, without repetition
def collectRequiredFields (matched : List Nat) : List CompiledPayloadField :=
  matched.foldl (fun fields ruleIndex ↦
    match liveRule rules ruleIndex with
    | some rule => rule.requiredPayloadFields.foldl pushUnseen fields
    | none => fields) []

def matchedRulesRequireTopicParts (matched : List Nat) : Bool :=
  matched.any fun ruleIndex ↦
    ((liveRule rules ruleIndex).map CompiledRule.requiresTopicParts).getD false

-- the parallel path collects the same attempts in the same order
def evaluateMatchedRulesWithDecodedPayload (ir : MsgIr) (matched : List Nat) : List EvalAttempt :=
  let topicParts := if matchedRulesRequireTopicParts rules matched then levels message.topic else []
  matched.filterMap (evaluateSingleRule C rules message ir topicParts)

def decodePlan (matched : List Nat) : PayloadDecodePlan :=
  let requiredFields := collectRequiredFields rules matched
  if requiredFields.isEmpty then .none else .sparse requiredFields

/-- What one call of `evaluate` did: the rules it evaluated, in order, and the decodes that failed. -/
structure EvalOutcome where
  attempts : List EvalAttempt
  payloadErrors : List PayloadErrorKind

def EvalOutcome.results (outcome : EvalOutcome) : List RuleEvaluation :=
  outcome.attempts.filterMap EvalAttempt.evaluation

def EvalOutcome.append (outcome more : EvalOutcome) : EvalOutcome :=
  ⟨outcome.attempts ++ more.attempts, outcome.payloadErrors ++ more.payloadErrors⟩

-- decodes once for the matched rules, and drops them all when that fails
def evaluateGroup (decoder : PayloadDecoder) (schema : String) (matched : List Nat) : EvalOutcome :=
  match decodePayloadIr C message.payload decoder (decodePlan rules matched) schema with
  | .ok ir => ⟨evaluateMatchedRulesWithDecodedPayload C rules message ir matched, []⟩
  | .error err => ⟨[], [err.kind]⟩

def evaluateProtobufRuleGroups (decoder : PayloadDecoder) :
    List ProtobufSchemaRuleGroup → EvalOutcome
  | [] => ⟨[], []⟩
  | group :: groups =>
      (evaluateGroup C rules message decoder group.schema group.ruleIndexes).append
        (evaluateProtobufRuleGroups decoder groups)

end Evaluate

-- the schema of a live protobuf rule
def schemaOf (rules : List (Option CompiledRule)) (ruleIndex : Nat) : Option String :=
  match liveRule rules ruleIndex with
  | none => none
  | some rule =>
      match rule.payloadBinding with
      | .protobuf schema => some schema
      | .json => none

-- the map from schemas to the matched rules bound to them
def groupBySchema (rules : List (Option CompiledRule)) (matched : List Nat) :
    StringMap (List Nat) :=
  matched.foldl (fun groups ruleIndex ↦
    match schemaOf rules ruleIndex with
    | some schema => groups.insert schema ((groups.lookup schema).getD [] ++ [ruleIndex])
    | none => groups) ∅

def buildProtobufSchemaRuleGroups (order : HashOrder) (rules : List (Option CompiledRule))
    (matched : List Nat) : List ProtobufSchemaRuleGroup :=
  (order.groups (groupBySchema rules matched)).map fun e ↦ ⟨e.1, e.2⟩

namespace RuleEngine

def newWithCacheCapacity (decoder : PayloadDecoder) (topicCacheCapacity : Nat) : RuleEngine where
  rules := []
  ruleIndexById := ∅
  matcher := TopicTrie.default
  metrics := EvalMetrics.new
  payloadRuntime :=
    match decoder with
    | .json => .json (TopicMatchCache.new topicCacheCapacity)
    | .protobuf pool => .protobuf pool (TopicMatchCache.new topicCacheCapacity)

def recordOutcome (metrics : EvalMetrics) (outcome : EvalOutcome) : EvalMetrics :=
  outcome.payloadErrors.foldl EvalMetrics.recordPayloadError
    (outcome.attempts.foldl EvalMetrics.recordAttempt metrics)

/-- `evaluate`: the engine after the call and what the call did. -/
def evaluate (C : Crates) (order : HashOrder) (engine : RuleEngine) (message : Message) :
    RuleEngine × EvalOutcome :=
  match engine.payloadRuntime with
  | .json cache =>
      let (matched, cache) := cache.getOrInsertWith message.topic fun _ ↦
        order.indexes (engine.matcher.matchTopicIndexes message.topic)
      -- with no rule matched the payload is not looked at
      let outcome := if matched.isEmpty then ⟨[], []⟩
        else evaluateGroup C engine.rules message .json "" matched
      ({ engine with
          payloadRuntime := .json cache
          metrics := recordOutcome engine.metrics outcome }, outcome)
  | .protobuf pool cache =>
      let (groups, cache) := cache.getOrInsertWith message.topic fun _ ↦
        buildProtobufSchemaRuleGroups order engine.rules
          (order.indexes (engine.matcher.matchTopicIndexes message.topic))
      let outcome := evaluateProtobufRuleGroups C engine.rules message (.protobuf pool) groups
      ({ engine with
          payloadRuntime := .protobuf pool cache
          metrics := recordOutcome engine.metrics outcome }, outcome)

/-! ## Adding and removing rules -/

-- the slot after the last one
def pushRule (engine : RuleEngine) (compiled : CompiledRule) : RuleEngine where
  rules := engine.rules ++ [some compiled]
  ruleIndexById := engine.ruleIndexById.insert compiled.id engine.rules.length
  matcher := engine.matcher.insert compiled.topicFilter engine.rules.length
  metrics := engine.metrics
  payloadRuntime := engine.payloadRuntime.clearCache

def addRule (C : Crates) (engine : RuleEngine) (rule : RuleDefinition) :
    RuleEngine × Except RuleError String :=
  match engine.payloadRuntime.requiresSchema, rule.schema with
  | false, some _ => (engine, .error .unexpectedSchemaName)
  | true, none => (engine, .error .missingSchemaName)
  | _, _ =>
      match compileRule C rule with
      | .error err => (engine, .error err)
      | .ok compiled => (engine.pushRule compiled, .ok compiled.id)

-- empties the slot
def dropSlot (engine : RuleEngine) (ruleId : String) (index : Nat) : RuleEngine where
  rules := engine.rules.set index none
  ruleIndexById := engine.ruleIndexById.erase ruleId
  matcher :=
    match liveRule engine.rules index with
    | some rule => engine.matcher.remove rule.topicFilter index
    | none => engine.matcher
  metrics := engine.metrics
  payloadRuntime := engine.payloadRuntime.clearCache

def removeRule (engine : RuleEngine) (ruleId : String) : RuleEngine × Bool :=
  match engine.ruleIndexById.lookup ruleId with
  | none => (engine, false)
  | some index => (engine.dropSlot ruleId index, true)

-- the loop over the rules of a file: it stops at the first rule that fails
def addRules (C : Crates) (engine : RuleEngine) (count : Nat) :
    List RuleDefinition → RuleEngine × Except RuleError Nat
  | [] => (engine, .ok count)
  | rule :: rest =>
      match engine.addRule C rule with
      | (engine, .error err) => (engine, .error err)
      | (engine, .ok _) => addRules C engine (count + 1) rest

def loadRulesFromJsonBytes (C : Crates) (engine : RuleEngine) (bytes : List UInt8) :
    RuleEngine × Except RuleError Nat :=
  match C.ruleFileFromSlice bytes with
  | .error err => (engine, .error (.sqlParse err))
  | .ok parsed => engine.addRules C 0 parsed

def topicFilters (engine : RuleEngine) : List String :=
  engine.rules.filterMap fun rule ↦ rule.map CompiledRule.topicFilter

def ruleMetadata (engine : RuleEngine) : List RuleMetadata :=
  engine.rules.zipIdx.filterMap fun e ↦ e.1.map fun rule ↦ ⟨e.2, rule.destinations⟩

end RuleEngine

/-! ## Runs of an engine -/

inductive EngineOp where
  | addRule (rule : RuleDefinition)
  | removeRule (ruleId : String)
  | loadRules (bytes : List UInt8)
  | evaluate (order : HashOrder) (message : Message)

def EngineOp.apply (C : Crates) (engine : RuleEngine) : EngineOp → RuleEngine
  | .addRule rule => (engine.addRule C rule).1
  | .removeRule ruleId => (engine.removeRule ruleId).1
  | .loadRules bytes => (engine.loadRulesFromJsonBytes C bytes).1
  | .evaluate order message => (engine.evaluate C order message).1

/-- The runs of an engine: every operation is possible in every state. -/
def engineSystem (C : Crates) (decoder : PayloadDecoder) (topicCacheCapacity : Nat) :
    System RuleEngine EngineOp where
  init := RuleEngine.newWithCacheCapacity decoder topicCacheCapacity
  step engine op := some (op.apply C engine)

/-! ## What an operation can do -/

/-- The engine takes the definition: its schema fits the decoder and it compiles. -/
def Accepts (C : Crates) (engine : RuleEngine) (rule : RuleDefinition) (compiled : CompiledRule) :
    Prop :=
  engine.payloadRuntime.requiresSchema = rule.schema.isSome ∧ compileRule C rule = .ok compiled

theorem addRule_cases (C : Crates) (engine : RuleEngine) (rule : RuleDefinition) :
    (∃ err, engine.addRule C rule = (engine, .error err) ∧
        ∀ compiled, ¬ Accepts C engine rule compiled) ∨
      ∃ compiled, Accepts C engine rule compiled ∧
        engine.addRule C rule = (engine.pushRule compiled, .ok compiled.id) := by
  unfold RuleEngine.addRule Accepts
  cases hschema : rule.schema with
  | none =>
      cases hrequires : engine.payloadRuntime.requiresSchema with
      | true => exact Or.inl ⟨_, rfl, fun _ h ↦ by simp at h⟩
      | false =>
          cases hcompile : compileRule C rule with
          | error err => exact Or.inl ⟨err, rfl, fun _ h ↦ by simp at h⟩
          | ok compiled => exact Or.inr ⟨compiled, ⟨rfl, rfl⟩, rfl⟩
  | some schema =>
      cases hrequires : engine.payloadRuntime.requiresSchema with
      | false => exact Or.inl ⟨_, rfl, fun _ h ↦ by simp at h⟩
      | true =>
          cases hcompile : compileRule C rule with
          | error err => exact Or.inl ⟨err, rfl, fun _ h ↦ by simp at h⟩
          | ok compiled => exact Or.inr ⟨compiled, ⟨rfl, rfl⟩, rfl⟩

theorem removeRule_cases (engine : RuleEngine) (ruleId : String) :
    (engine.ruleIndexById.lookup ruleId = none ∧ engine.removeRule ruleId = (engine, false)) ∨
      ∃ index, engine.ruleIndexById.lookup ruleId = some index ∧
        engine.removeRule ruleId = (engine.dropSlot ruleId index, true) := by
  unfold RuleEngine.removeRule
  cases h : engine.ruleIndexById.lookup ruleId with
  | none => exact Or.inl ⟨rfl, rfl⟩
  | some index => exact Or.inr ⟨index, rfl, rfl⟩

section Induction

variable {C : Crates} {P : RuleEngine → Prop}

theorem addRules_induction
    (hpush : ∀ engine rule compiled, P engine → Accepts C engine rule compiled →
      P (engine.pushRule compiled))
    {engine : RuleEngine} (h : P engine) (count : Nat) (defs : List RuleDefinition) :
    P (engine.addRules C count defs).1 := by
  induction defs generalizing engine count with
  | nil => exact h
  | cons rule rest ih =>
      rw [RuleEngine.addRules]
      rcases addRule_cases C engine rule with ⟨err, hadd, -⟩ | ⟨compiled, haccepts, hadd⟩
      · rw [hadd]
        exact h
      · rw [hadd]
        exact ih (hpush engine rule compiled h haccepts) (count + 1)

/-- What pushing an accepted rule, emptying the slot of an id and evaluating a message preserve, every
operation preserves. -/
theorem EngineOp.apply_induction
    (hpush : ∀ engine rule compiled, P engine → Accepts C engine rule compiled →
      P (engine.pushRule compiled))
    (hdrop : ∀ engine ruleId index, P engine → engine.ruleIndexById.lookup ruleId = some index →
      P (engine.dropSlot ruleId index))
    (heval : ∀ engine order message, P engine → P (engine.evaluate C order message).1)
    {engine : RuleEngine} (h : P engine) (op : EngineOp) : P (op.apply C engine) := by
  cases op with
  | addRule rule =>
      rw [EngineOp.apply]
      rcases addRule_cases C engine rule with ⟨err, hadd, -⟩ | ⟨compiled, haccepts, hadd⟩
      · rw [hadd]
        exact h
      · rw [hadd]
        exact hpush engine rule compiled h haccepts
  | removeRule ruleId =>
      rw [EngineOp.apply]
      rcases removeRule_cases engine ruleId with ⟨-, hremove⟩ | ⟨index, hlookup, hremove⟩
      · rw [hremove]
        exact h
      · rw [hremove]
        exact hdrop engine ruleId index h hlookup
  | loadRules bytes =>
      rw [EngineOp.apply, RuleEngine.loadRulesFromJsonBytes]
      cases C.ruleFileFromSlice bytes with
      | error err => exact h
      | ok parsed => exact addRules_induction hpush h 0 parsed
  | evaluate order message => exact heval engine order message h

/-- What holds of the new engine and is preserved by the three updates holds along every run. -/
theorem engine_invariant {decoder : PayloadDecoder} {capacity : Nat}
    (hinit : P (RuleEngine.newWithCacheCapacity decoder capacity))
    (hpush : ∀ engine rule compiled, P engine → Accepts C engine rule compiled →
      P (engine.pushRule compiled))
    (hdrop : ∀ engine ruleId index, P engine → engine.ruleIndexById.lookup ruleId = some index →
      P (engine.dropSlot ruleId index))
    (heval : ∀ engine order message, P engine → P (engine.evaluate C order message).1)
    {engine : RuleEngine} (h : (engineSystem C decoder capacity).Reachable engine) : P engine := by
  apply h.invariant hinit
  intro s op t hs hstep
  cases hstep
  exact EngineOp.apply_induction hpush hdrop heval hs op

end Induction

/-! ## Live slots -/

theorem liveRule_append (rules : List (Option CompiledRule)) (compiled : CompiledRule) (i : Nat) :
    liveRule (rules ++ [some compiled]) i =
      if i = rules.length then some compiled else liveRule rules i := by
  unfold liveRule
  rcases Nat.lt_trichotomy i rules.length with hlt | rfl | hgt
  · rw [List.getElem?_append_left hlt, if_neg (Nat.ne_of_lt hlt)]
  · simp
  · have hnone : (rules ++ [some compiled])[i]? = none := by
      rw [List.getElem?_eq_none_iff, List.length_append, List.length_singleton]
      omega
    have hnone' : rules[i]? = none := List.getElem?_eq_none_iff.mpr (Nat.le_of_lt hgt)
    rw [hnone, hnone', if_neg (Nat.ne_of_gt hgt)]

theorem liveRule_set_none (rules : List (Option CompiledRule)) (index i : Nat) :
    liveRule (rules.set index none) i = if i = index then none else liveRule rules i := by
  unfold liveRule
  by_cases h : i = index
  · subst h
    rw [if_pos rfl]
    by_cases hlt : i < rules.length
    · rw [List.getElem?_set_self hlt]
      rfl
    · rw [List.getElem?_eq_none_iff.mpr (by rw [List.length_set]; omega)]
      rfl
  · rw [if_neg h, List.getElem?_set_ne (Ne.symm h)]

theorem liveRule_pushRule (engine : RuleEngine) (compiled : CompiledRule) (i : Nat) :
    liveRule (engine.pushRule compiled).rules i =
      if i = engine.rules.length then some compiled else liveRule engine.rules i :=
  liveRule_append engine.rules compiled i

theorem liveRule_dropSlot (engine : RuleEngine) (ruleId : String) (index i : Nat) :
    liveRule (engine.dropSlot ruleId index).rules i =
      if i = index then none else liveRule engine.rules i :=
  liveRule_set_none engine.rules index i

theorem lt_of_liveRule {rules : List (Option CompiledRule)} {i : Nat} {rule : CompiledRule}
    (h : liveRule rules i = some rule) : i < rules.length := by
  by_contra hge
  rw [liveRule, List.getElem?_eq_none_iff.mpr (Nat.le_of_not_lt hge)] at h
  cases h

end Tenon.Core
