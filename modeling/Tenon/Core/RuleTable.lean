import Tenon.Core.EngineIds
import Tenon.Core.EvalCounters
import Tenon.Reasoning.Machine

/-!
# RuleTable — what the rule engine is for

The abstract engine is a table of rules: slots, the slot each id stands for, and counters.  It matches a
topic by asking every live rule in turn, and evaluates each matched rule on the payload as decoded for
the matched rules of its schema.  It has no trie, no cache, no hash map and no order of iteration.  The
engine refines it: over every run each call has the result the table gives.
-/

open Reasoning Reasoning.Transition

namespace Tenon.Core

/-! ## The failures of a message -/

section Failures

variable (C : Crates) {decoder : PayloadDecoder} {rules : List (Option CompiledRule)}
  {message : Message} {schema : String}

def failureKind (decoded : Except PayloadError MsgIr) : Option PayloadErrorKind :=
  match decoded with
  | .ok _ => none
  | .error err => some err.kind

-- plans that both ask for fields, or both ask for none, fail in the same way
theorem failureKind_json (payload : List UInt8) {fields fields' : List CompiledPayloadField}
    (hne : fields ≠ []) (hne' : fields' ≠ []) :
    failureKind (decodeJsonIr C payload (.sparse fields)) =
      failureKind (decodeJsonIr C payload (.sparse fields')) := by
  unfold decodeJsonIr
  cases C.valueFromSlice payload with
  | error err => rfl
  | ok parsed =>
      simp only [Except.mapError, bind, Except.bind]
      cases parsed.1.asObject with
      | none => rfl
      | some object =>
          obtain ⟨ir, hir, -⟩ := exists_sparse object hne
          obtain ⟨ir', hir', -⟩ := exists_sparse object hne'
          simp only [hir, hir', failureKind]

theorem failureKind_protobuf (pool : Option DescriptorPool) (payload : List UInt8) (schema : String)
    {plan plan' : PayloadDecodePlan}
    (hplan : ∀ decoded, ∃ ir, MsgIr.fromProtobufMessageWithDecodePlan decoded plan = .ok ir)
    (hplan' : ∀ decoded, ∃ ir, MsgIr.fromProtobufMessageWithDecodePlan decoded plan' = .ok ir) :
    failureKind (decodePayloadIr C payload (.protobuf pool) plan schema) =
      failureKind (decodePayloadIr C payload (.protobuf pool) plan' schema) := by
  cases pool with
  | none => rfl
  | some pool =>
      simp only [decodePayloadIr, decodeDynamicProtobuf]
      cases pool.decodeMessage schema with
      | none => rfl
      | some decode =>
          dsimp only
          cases decode payload with
          | error err => rfl
          | ok decoded =>
              obtain ⟨ir, hir⟩ := hplan decoded
              obtain ⟨ir', hir'⟩ := hplan' decoded
              simp only [Except.mapError, bind, Except.bind, hir, hir', failureKind]

theorem exists_decode_decodePlan (rules : List (Option CompiledRule)) (indexes : List Nat)
    (decoded : DynamicMessage) :
    ∃ ir, MsgIr.fromProtobufMessageWithDecodePlan decoded (decodePlan rules indexes) = .ok ir := by
  unfold decodePlan
  cases hfields : collectRequiredFields rules indexes with
  | nil => exact ⟨MsgIr.new, rfl⟩
  | cons field rest =>
      obtain ⟨ir, hir, -⟩ := exists_sparse_protobuf decoded (List.cons_ne_nil field rest)
      exact ⟨ir, hir⟩

/-- The kind of error the matched rules of a schema end in, if their payload does not decode. -/
def groupFailure (decoder : PayloadDecoder) (rules : List (Option CompiledRule)) (message : Message)
    (schema : String) : Option PayloadErrorKind :=
  failureKind (groupPayload C decoder rules message schema)

theorem groupFailure_eq_none (hok : (groupPayload C decoder rules message schema).toOption.isNone = false) :
    groupFailure C decoder rules message schema = none := by
  unfold groupFailure
  cases hpayload : groupPayload C decoder rules message schema with
  | ok ir => rfl
  | error err =>
      rw [hpayload] at hok
      cases hok

theorem Lists.failureKind {indexes : List Nat} (h : Lists decoder rules message schema indexes) :
    failureKind (decodePayloadIr C message.payload decoder (decodePlan rules indexes) schema) =
      groupFailure C decoder rules message schema := by
  unfold groupFailure groupPayload
  cases decoder with
  | protobuf pool =>
      exact failureKind_protobuf C pool message.payload schema
        (exists_decode_decodePlan rules indexes) (exists_decode_decodePlan rules _)
  | json =>
      have hmem := h.mem_requiredFields
      unfold decodePlan
      generalize collectRequiredFields rules indexes = fields at hmem ⊢
      generalize collectRequiredFields rules (schemaSlots .json rules message schema) = fields' at hmem ⊢
      -- both lists of fields are empty, or neither is
      cases fields with
      | nil =>
          have hnil : fields' = [] :=
            List.eq_nil_iff_forall_not_mem.mpr fun f hf ↦ List.not_mem_nil ((hmem f).mpr hf)
          rw [hnil]
      | cons field rest =>
          have hfield : field ∈ fields' := (hmem field).mp List.mem_cons_self
          cases fields' with
          | nil => cases hfield
          | cons field' rest' =>
              exact failureKind_json C message.payload (List.cons_ne_nil field rest)
                (List.cons_ne_nil field' rest')

theorem Lists.payloadErrors {indexes : List Nat} (h : Lists decoder rules message schema indexes) :
    (Core.evaluateGroup C rules message decoder schema indexes).payloadErrors =
      (groupFailure C decoder rules message schema).toList := by
  rw [← h.failureKind C]
  unfold Core.evaluateGroup
  cases decodePayloadIr C message.payload decoder (decodePlan rules indexes) schema <;> rfl

/-- The failures of an evaluation, one for each schema that does not decode. -/
def failures (decoder : PayloadDecoder) (rules : List (Option CompiledRule)) (message : Message) :
    List PayloadErrorKind :=
  (failedSchemas C decoder rules message).filterMap (groupFailure C decoder rules message)

theorem Grouping.payloadErrors {groups : List ProtobufSchemaRuleGroup}
    (h : Grouping C decoder rules message groups) :
    (evaluateProtobufRuleGroups C rules message decoder groups).payloadErrors.Perm
      (failures C decoder rules message) := by
  have hschemas : (evaluateProtobufRuleGroups C rules message decoder groups).payloadErrors =
      (groups.map ProtobufSchemaRuleGroup.schema).filterMap
        (groupFailure C decoder rules message) := by
    have hlists := h.lists
    clear h
    induction groups with
    | nil => rfl
    | cons group rest ih =>
        rw [evaluateProtobufRuleGroups, EvalOutcome.append,
          (hlists group List.mem_cons_self).payloadErrors C,
          ih fun g hg ↦ hlists g (List.mem_cons_of_mem _ hg), List.map_cons, List.filterMap_cons]
        cases groupFailure C decoder rules message group.schema <;> rfl
  -- the groups that decode have no failure
  have hfilter : (groups.map ProtobufSchemaRuleGroup.schema).filterMap
      (groupFailure C decoder rules message) =
      ((groups.map ProtobufSchemaRuleGroup.schema).filter fun schema ↦
        (groupPayload C decoder rules message schema).toOption.isNone).filterMap
          (groupFailure C decoder rules message) := by
    rw [List.filterMap_filter]
    apply List.filterMap_congr
    intro schema _
    cases hnone : (groupPayload C decoder rules message schema).toOption.isNone with
    | true => rfl
    | false => exact groupFailure_eq_none C hnone
  rw [hschemas, hfilter]
  exact h.perm_failedSchemas.filterMap _

end Failures

/-! ## The table -/

structure RuleTable where
  slots : List (Option CompiledRule)
  -- the slot an id stands for: the last one stored under it, until it is removed
  handle : String → Option Nat
  counters : EvalMetrics

namespace RuleTable

def empty : RuleTable := ⟨[], fun _ ↦ none, EvalMetrics.new⟩

/-- The compiled rule of a definition that the table takes. -/
def vet (C : Crates) (decoder : PayloadDecoder) (rule : RuleDefinition) :
    Except RuleError CompiledRule :=
  match decoder, rule.schema with
  | .json, some _ => .error .unexpectedSchemaName
  | .protobuf _, none => .error .missingSchemaName
  | _, _ => compileRule C rule

def store (table : RuleTable) (compiled : CompiledRule) : RuleTable where
  slots := table.slots ++ [some compiled]
  handle := Function.update table.handle compiled.id (some table.slots.length)
  counters := table.counters

def discard (table : RuleTable) (ruleId : String) (slot : Nat) : RuleTable where
  slots := table.slots.set slot none
  handle := Function.update table.handle ruleId none
  counters := table.counters

def add (C : Crates) (decoder : PayloadDecoder) (table : RuleTable) (rule : RuleDefinition) :
    RuleTable × Except RuleError String :=
  match vet C decoder rule with
  | .error err => (table, .error err)
  | .ok compiled => (table.store compiled, .ok compiled.id)

def remove (table : RuleTable) (ruleId : String) : RuleTable × Bool :=
  match table.handle ruleId with
  | none => (table, false)
  | some slot => (table.discard ruleId slot, true)

-- stores the definitions in order, up to the first that is not taken
def addAll (C : Crates) (decoder : PayloadDecoder) (table : RuleTable) (count : Nat) :
    List RuleDefinition → RuleTable × Except RuleError Nat
  | [] => (table, .ok count)
  | rule :: rest =>
      match vet C decoder rule with
      | .error err => (table, .error err)
      | .ok compiled => addAll C decoder (table.store compiled) (count + 1) rest

def load (C : Crates) (decoder : PayloadDecoder) (table : RuleTable) (bytes : List UInt8) :
    RuleTable × Except RuleError Nat :=
  match C.ruleFileFromSlice bytes with
  | .error err => (table, .error (.sqlParse err))
  | .ok parsed => table.addAll C decoder 0 parsed

def outcome (C : Crates) (decoder : PayloadDecoder) (table : RuleTable) (message : Message) :
    EvalOutcome where
  attempts := (matchedSlots table.slots message).filterMap
    (slotAttempt C decoder table.slots message)
  payloadErrors := failures C decoder table.slots message

def evaluate (C : Crates) (decoder : PayloadDecoder) (table : RuleTable) (message : Message) :
    RuleTable × Multiset RuleEvaluation :=
  ({ table with
      counters := RuleEngine.recordOutcome table.counters (table.outcome C decoder message) },
    (table.outcome C decoder message).results)

end RuleTable

/-! ## Requests and answers -/

inductive TableOp where
  | addRule (rule : RuleDefinition)
  | removeRule (ruleId : String)
  | loadRules (bytes : List UInt8)
  | evaluate (message : Message)

inductive EngineAnswer where
  | added (result : Except RuleError String)
  | removed (found : Bool)
  | loaded (result : Except RuleError Nat)
  -- in no order
  | evaluated (results : Multiset RuleEvaluation)

/-- What the caller sees after a call: its result, and what the accessors return. -/
structure EngineObservation where
  answer : EngineAnswer
  topicFilters : List String
  ruleMetadata : List RuleMetadata
  metrics : EvalMetrics

namespace RuleTable

def topicFilters (table : RuleTable) : List String :=
  table.slots.reduceOption.map CompiledRule.topicFilter

def ruleMetadata (table : RuleTable) : List RuleMetadata :=
  (List.range table.slots.length).filterMap fun slot ↦
    (liveRule table.slots slot).map fun rule ↦ ⟨slot, rule.destinations⟩

def observe (table : RuleTable) (answer : EngineAnswer) : EngineObservation :=
  ⟨answer, table.topicFilters, table.ruleMetadata, table.counters⟩

def apply (C : Crates) (decoder : PayloadDecoder) (table : RuleTable) :
    TableOp → RuleTable × EngineAnswer
  | .addRule rule => (table.add C decoder rule).map id .added
  | .removeRule ruleId => (table.remove ruleId).map id .removed
  | .loadRules bytes => (table.load C decoder bytes).map id .loaded
  | .evaluate message => (table.evaluate C decoder message).map id .evaluated

def machine (C : Crates) (decoder : PayloadDecoder) : Machine RuleTable TableOp EngineObservation where
  init := empty
  next table op := ((table.apply C decoder op).1,
    (table.apply C decoder op).1.observe (table.apply C decoder op).2)

end RuleTable

namespace EngineOp

def toTableOp : EngineOp → TableOp
  | .addRule rule => .addRule rule
  | .removeRule ruleId => .removeRule ruleId
  | .loadRules bytes => .loadRules bytes
  | .evaluate _ message => .evaluate message

-- the result of the call
def answer (C : Crates) (engine : RuleEngine) : EngineOp → EngineAnswer
  | .addRule rule => .added (engine.addRule C rule).2
  | .removeRule ruleId => .removed (engine.removeRule ruleId).2
  | .loadRules bytes => .loaded (engine.loadRulesFromJsonBytes C bytes).2
  | .evaluate order message => .evaluated (engine.evaluate C order message).2.results

end EngineOp

def RuleEngine.observe (engine : RuleEngine) (answer : EngineAnswer) : EngineObservation :=
  ⟨answer, engine.topicFilters, engine.ruleMetadata, engine.metrics⟩

def engineMachine (C : Crates) (decoder : PayloadDecoder) (topicCacheCapacity : Nat) :
    Machine RuleEngine EngineOp EngineObservation where
  init := RuleEngine.newWithCacheCapacity decoder topicCacheCapacity
  next engine op := (op.apply C engine, (op.apply C engine).observe (op.answer C engine))

/-! ## The engine refines the table -/

/-- The engine represents the table. -/
structure Tables (decoder : PayloadDecoder) (engine : RuleEngine) (table : RuleTable) : Prop where
  wellFormed : WellFormed decoder engine
  once : CachedOnce engine
  slots : table.slots = engine.rules
  handle : ∀ ruleId, table.handle ruleId = engine.ruleIndexById.lookup ruleId
  counters : table.counters = engine.metrics

section Refinement

variable {C : Crates} {decoder : PayloadDecoder} {engine : RuleEngine} {table : RuleTable}

theorem map_slots_zipIdx (rules : List (Option CompiledRule)) (f : CompiledRule → Nat → RuleMetadata) :
    (rules.zipIdx.filterMap fun e ↦ e.1.map fun rule ↦ f rule e.2) =
      (List.range rules.length).filterMap fun slot ↦ (liveRule rules slot).map fun rule ↦ f rule slot := by
  induction rules using List.reverseRecOn with
  | nil => rfl
  | append_singleton rules last ih =>
      have hinit : (List.range rules.length).filterMap (fun slot ↦
          (liveRule (rules ++ [last]) slot).map fun rule ↦ f rule slot) =
          (List.range rules.length).filterMap fun slot ↦
            (liveRule rules slot).map fun rule ↦ f rule slot := by
        apply List.filterMap_congr
        intro slot hslot
        rw [liveRule, List.getElem?_append_left (List.mem_range.mp hslot)]
        rfl
      have hlast : liveRule (rules ++ [last]) rules.length = last := by
        rw [liveRule, List.getElem?_concat_length]
        rfl
      rw [List.zipIdx_append, List.filterMap_append, ih, List.length_append, List.length_singleton,
        List.range_succ, List.filterMap_append, hinit]
      simp only [List.zipIdx_singleton, Nat.zero_add, List.filterMap_cons, List.filterMap_nil, hlast]

theorem Tables.observe (h : Tables decoder engine table) (answer : EngineAnswer) :
    engine.observe answer = table.observe answer := by
  have hfilters : engine.topicFilters = table.topicFilters := by
    unfold RuleEngine.topicFilters RuleTable.topicFilters
    rw [h.slots]
    change _ = (engine.rules.filterMap id).map CompiledRule.topicFilter
    rw [List.map_filterMap]
    rfl
  have hmetadata : engine.ruleMetadata = table.ruleMetadata := by
    unfold RuleEngine.ruleMetadata RuleTable.ruleMetadata
    rw [h.slots]
    exact map_slots_zipIdx engine.rules fun rule slot ↦ ⟨slot, rule.destinations⟩
  rw [RuleEngine.observe, RuleTable.observe, hfilters, hmetadata, h.counters]

theorem Tables.pushRule (h : Tables decoder engine table) {rule : RuleDefinition}
    {compiled : CompiledRule} (haccepts : Accepts C engine rule compiled) :
    Tables decoder (engine.pushRule compiled) (table.store compiled) where
  wellFormed := h.wellFormed.pushRule haccepts
  once := cachedOnce_clear rfl
  slots := by
    change table.slots ++ [some compiled] = engine.rules ++ [some compiled]
    rw [h.slots]
  handle ruleId := by
    rw [lookup_pushRule, ← h.handle, ← h.slots]
    exact Function.update_apply table.handle compiled.id _ ruleId
  counters := h.counters

theorem Tables.dropSlot (h : Tables decoder engine table) (ruleId : String) (index : Nat) :
    Tables decoder (engine.dropSlot ruleId index) (table.discard ruleId index) where
  wellFormed := h.wellFormed.dropSlot ruleId index
  once := cachedOnce_clear rfl
  slots := by
    change table.slots.set index none = engine.rules.set index none
    rw [h.slots]
  handle other := by
    rw [lookup_dropSlot, ← h.handle]
    exact Function.update_apply table.handle ruleId _ other
  counters := h.counters

theorem accepts_of_vet (h : WellFormed decoder engine) {rule : RuleDefinition}
    {compiled : CompiledRule} (hvet : RuleTable.vet C decoder rule = .ok compiled) :
    Accepts C engine rule compiled := by
  have hdecodes := h.decodes
  unfold RuleTable.vet at hvet
  unfold Accepts
  cases hruntime : engine.payloadRuntime with
  | json cache =>
      rw [hruntime] at hdecodes
      subst hdecodes
      cases hrule : rule.schema with
      | some schema =>
          rw [hrule] at hvet
          cases hvet
      | none =>
          rw [hrule] at hvet
          exact ⟨rfl, hvet⟩
  | protobuf pool cache =>
      rw [hruntime] at hdecodes
      subst hdecodes
      cases hrule : rule.schema with
      | none =>
          rw [hrule] at hvet
          cases hvet
      | some schema =>
          rw [hrule] at hvet
          exact ⟨rfl, hvet⟩

/-- The engine takes the definitions the table takes, with the same result. -/
theorem addRule_eq_vet (h : WellFormed decoder engine) (rule : RuleDefinition) :
    engine.addRule C rule =
      match RuleTable.vet C decoder rule with
      | .error err => (engine, .error err)
      | .ok compiled => (engine.pushRule compiled, .ok compiled.id) := by
  have hdecodes := h.decodes
  unfold RuleEngine.addRule RuleTable.vet
  cases hruntime : engine.payloadRuntime with
  | json cache =>
      rw [hruntime] at hdecodes
      subst hdecodes
      cases rule.schema <;> rfl
  | protobuf pool cache =>
      rw [hruntime] at hdecodes
      subst hdecodes
      cases rule.schema <;> rfl

theorem Tables.addRule (h : Tables decoder engine table) (rule : RuleDefinition) :
    Tables decoder (engine.addRule C rule).1 (table.add C decoder rule).1 ∧
      (engine.addRule C rule).2 = (table.add C decoder rule).2 := by
  rw [addRule_eq_vet h.wellFormed, RuleTable.add]
  cases hvet : RuleTable.vet C decoder rule with
  | error err => exact ⟨h, rfl⟩
  | ok compiled => exact ⟨h.pushRule (accepts_of_vet h.wellFormed hvet), rfl⟩

theorem Tables.addRules (h : Tables decoder engine table) (count : Nat) (defs : List RuleDefinition) :
    Tables decoder (engine.addRules C count defs).1 (table.addAll C decoder count defs).1 ∧
      (engine.addRules C count defs).2 = (table.addAll C decoder count defs).2 := by
  induction defs generalizing engine table count with
  | nil => exact ⟨h, rfl⟩
  | cons rule rest ih =>
      obtain ⟨htables, hresult⟩ := h.addRule (C := C) rule
      rw [RuleEngine.addRules, RuleTable.addAll]
      unfold RuleTable.add at htables hresult
      generalize engine.addRule C rule = added at htables hresult ⊢
      obtain ⟨engine', result⟩ := added
      cases hvet : RuleTable.vet C decoder rule with
      | error err =>
          rw [hvet] at htables hresult
          cases hresult
          exact ⟨htables, rfl⟩
      | ok compiled =>
          rw [hvet] at htables hresult
          cases hresult
          exact ih htables (count + 1)

theorem Tables.removeRule (h : Tables decoder engine table) (ruleId : String) :
    Tables decoder (engine.removeRule ruleId).1 (table.remove ruleId).1 ∧
      (engine.removeRule ruleId).2 = (table.remove ruleId).2 := by
  unfold RuleTable.remove
  rw [h.handle]
  rcases removeRule_cases engine ruleId with ⟨hnone, hcase⟩ | ⟨index, hindex, hcase⟩
  · rw [hcase, hnone]
    exact ⟨h, rfl⟩
  · rw [hcase, hindex]
    exact ⟨h.dropSlot ruleId index, rfl⟩

/-! ## Evaluation -/

theorem recordAttempt_comm (metrics : EvalMetrics) (attempt attempt' : EvalAttempt) :
    (metrics.recordAttempt attempt).recordAttempt attempt' =
      (metrics.recordAttempt attempt').recordAttempt attempt := by
  unfold EvalMetrics.recordAttempt
  cases attempt.error <;> cases attempt'.error <;>
    simp only [EvalMetrics.recordEvalError, EvalMetrics.recordEvalSuccess, EvalMetrics.mk.injEq,
      true_and, and_true]
  omega

theorem recordPayloadError_comm (metrics : EvalMetrics) (kind kind' : PayloadErrorKind) :
    (metrics.recordPayloadError kind).recordPayloadError kind' =
      (metrics.recordPayloadError kind').recordPayloadError kind := by
  cases kind <;> cases kind' <;> rfl

-- the counters do not depend on the order of the attempts and failures
theorem recordOutcome_perm (metrics : EvalMetrics) {outcome outcome' : EvalOutcome}
    (hattempts : outcome.attempts.Perm outcome'.attempts)
    (hfailures : outcome.payloadErrors.Perm outcome'.payloadErrors) :
    RuleEngine.recordOutcome metrics outcome = RuleEngine.recordOutcome metrics outcome' := by
  unfold RuleEngine.recordOutcome
  have hfold : outcome.attempts.foldl EvalMetrics.recordAttempt metrics =
      outcome'.attempts.foldl EvalMetrics.recordAttempt metrics :=
    hattempts.foldl_eq' (fun attempt _ attempt' _ metrics ↦ recordAttempt_comm metrics attempt attempt')
      metrics
  rw [hfold]
  exact hfailures.foldl_eq' (fun kind _ kind' _ metrics ↦ recordPayloadError_comm metrics kind kind') _

theorem WellFormed.payloadErrors (h : WellFormed decoder engine) (honce : CachedOnce engine)
    (order : HashOrder) (message : Message) :
    (engine.evaluate C order message).2.payloadErrors.Perm
      (failures C decoder engine.rules message) := by
  cases decoder with
  | json =>
      obtain ⟨groups, hgrouping, houtcome⟩ := h.exists_grouping_json (C := C) order message
      rw [houtcome]
      exact hgrouping.payloadErrors
  | protobuf pool =>
      obtain ⟨groups, hgrouping, houtcome⟩ :=
        h.exists_grouping_protobuf (C := C) honce order message
      rw [houtcome]
      exact hgrouping.payloadErrors

theorem Tables.evaluate (h : Tables decoder engine table) (order : HashOrder) (message : Message) :
    Tables decoder (engine.evaluate C order message).1 (table.evaluate C decoder message).1 ∧
      ((engine.evaluate C order message).2.results : Multiset RuleEvaluation) =
        (table.evaluate C decoder message).2 := by
  obtain ⟨hattempts, -⟩ := h.wellFormed.outcome (C := C) h.once order message
  have hfailures := h.wellFormed.payloadErrors (C := C) h.once order message
  rw [← h.slots] at hattempts hfailures
  refine ⟨⟨h.wellFormed.evaluate order message, cachedOnce_evaluate h.once order message, ?_, ?_, ?_⟩, ?_⟩
  · rw [RuleEngine.evaluate_rules]
    exact h.slots
  · intro ruleId
    rw [RuleEngine.evaluate_ruleIndexById]
    exact h.handle ruleId
  · rw [metrics_evaluate, ← h.counters]
    exact (recordOutcome_perm table.counters hattempts hfailures).symm
  · exact Multiset.coe_eq_coe.mpr (hattempts.filterMap _)

/-! ## The refinement -/

theorem tables_new (decoder : PayloadDecoder) (topicCacheCapacity : Nat) :
    Tables decoder (RuleEngine.newWithCacheCapacity decoder topicCacheCapacity) RuleTable.empty where
  wellFormed := wellFormed_new decoder topicCacheCapacity
  once := by
    cases decoder with
    | json => trivial
    | protobuf pool => exact fun topic groups hlookup ↦ by cases hlookup
  slots := rfl
  handle _ := rfl
  counters := rfl

theorem Tables.apply (h : Tables decoder engine table) (op : EngineOp) :
    Tables decoder (op.apply C engine) (table.apply C decoder op.toTableOp).1 ∧
      op.answer C engine = (table.apply C decoder op.toTableOp).2 := by
  cases op with
  | addRule rule =>
      obtain ⟨htables, hresult⟩ := h.addRule (C := C) rule
      exact ⟨htables, congrArg EngineAnswer.added hresult⟩
  | removeRule ruleId =>
      obtain ⟨htables, hresult⟩ := h.removeRule ruleId
      exact ⟨htables, congrArg EngineAnswer.removed hresult⟩
  | loadRules bytes =>
      obtain ⟨htables, hresult⟩ : Tables decoder (engine.loadRulesFromJsonBytes C bytes).1
          (table.load C decoder bytes).1 ∧
          (engine.loadRulesFromJsonBytes C bytes).2 = (table.load C decoder bytes).2 := by
        unfold RuleEngine.loadRulesFromJsonBytes RuleTable.load
        cases C.ruleFileFromSlice bytes with
        | error err => exact ⟨h, rfl⟩
        | ok parsed => exact h.addRules 0 parsed
      exact ⟨htables, congrArg EngineAnswer.loaded hresult⟩
  | evaluate order message =>
      obtain ⟨htables, hresult⟩ := h.evaluate (C := C) order message
      exact ⟨htables, congrArg EngineAnswer.evaluated hresult⟩

theorem engineMachine_refines (C : Crates) (decoder : PayloadDecoder) (topicCacheCapacity : Nat) :
    (engineMachine C decoder topicCacheCapacity).Refines (RuleTable.machine C decoder)
      EngineOp.toTableOp (Tables decoder) where
  init := tables_new decoder topicCacheCapacity
  next _ _ op h := (h.apply op).1
  answer _ _ op h := by
    obtain ⟨htables, hanswer⟩ := h.apply (C := C) op
    change (op.apply C _).observe (op.answer C _) = _
    rw [htables.observe, hanswer]
    rfl

end Refinement

/-- The engine answers every run as the table does: what each call returns and what the accessors show
after it depend on neither the cache capacity nor the order in which hash sets are iterated. -/
theorem engine_answers_as_table (C : Crates) (decoder : PayloadDecoder) (topicCacheCapacity : Nat)
    (ops : List EngineOp) :
    (engineMachine C decoder topicCacheCapacity).answers
        (RuleEngine.newWithCacheCapacity decoder topicCacheCapacity) ops =
      (RuleTable.machine C decoder).answers RuleTable.empty (ops.map EngineOp.toTableOp) :=
  (engineMachine_refines C decoder topicCacheCapacity).answers ops

/-- Engines with other cache capacities and other hash orders cannot be told apart. -/
theorem answers_eq_of_toTableOp (C : Crates) (decoder : PayloadDecoder) (capacity capacity' : Nat)
    {ops ops' : List EngineOp} (h : ops.map EngineOp.toTableOp = ops'.map EngineOp.toTableOp) :
    (engineMachine C decoder capacity).answers
        (RuleEngine.newWithCacheCapacity decoder capacity) ops =
      (engineMachine C decoder capacity').answers
        (RuleEngine.newWithCacheCapacity decoder capacity') ops' :=
  (engineMachine_refines C decoder capacity).answers_eq (engineMachine_refines C decoder capacity') h

end Tenon.Core
