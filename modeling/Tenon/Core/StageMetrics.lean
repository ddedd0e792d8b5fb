import Mathlib.Algebra.Group.Pi.Basic
import Tenon.Core.ConstantFolding
import Tenon.Core.EvalCounters
import Tenon.Core.LatencyMetrics

/-!
# StageMetrics — which stages of an evaluation are timed

Five stages are timed when detailed latency metrics are on: a stage that ends in an error is left before
its timer is read.  Every function that times a stage is modelled a second time with the stages that
finish in it; its result is the one of the plain model.  Along the runs of an engine the numbers of
finished stages are tied to the counters of the evaluations.
-/

open Reasoning Reasoning.Transition

namespace Tenon.Core

inductive LatencyStage where
  | topicMatch
  | payloadDecode
  | msgIrBuild
  | predicate
  | projection
  deriving DecidableEq

/-- A result, and the stages that finish on the way to it, in order. -/
structure Staged (α : Type) where
  finished : List LatencyStage
  result : α

namespace Staged

variable {α β : Type}

-- further stages finish before
def after (stages : List LatencyStage) (staged : Staged α) : Staged α :=
  ⟨stages ++ staged.finished, staged.result⟩

def map (f : α → β) (staged : Staged α) : Staged β := ⟨staged.finished, f staged.result⟩

@[simp]
theorem result_after (stages : List LatencyStage) (staged : Staged α) :
    (staged.after stages).result = staged.result := rfl

end Staged

/-! ## The stages of a decode -/

section Decoding

variable (C : Crates)

def decodeJsonIrStaged (payload : List UInt8) (plan : PayloadDecodePlan) :
    Staged (Except PayloadError MsgIr) :=
  match plan with
  | .none => ⟨[], .ok MsgIr.new⟩
  | plan =>
      match C.valueFromSlice payload with
      | .error err => ⟨[], .error (.decode err)⟩
      | .ok parsed =>
          match parsed.1.asObject with
          | none => ⟨[.payloadDecode], .error (.build "payload must be a JSON object")⟩
          | some object =>
              match MsgIr.fromJsonObjectWithDecodePlan object plan with
              | .error err => ⟨[.payloadDecode], .error (.build err)⟩
              | .ok ir => ⟨[.payloadDecode, .msgIrBuild], .ok ir⟩

def decodeDynamicProtobufStaged (pool : DescriptorPool) (payload : List UInt8)
    (plan : PayloadDecodePlan) (schemaName : String) : Staged (Except PayloadError MsgIr) :=
  match pool.decodeMessage schemaName with
  | none => ⟨[], .error (.schema ("protobuf message not found in descriptor set: " ++ schemaName))⟩
  | some decode =>
      match decode payload with
      | .error err => ⟨[], .error (.decode err)⟩
      | .ok message =>
          match MsgIr.fromProtobufMessageWithDecodePlan message plan with
          | .error err => ⟨[.payloadDecode], .error (.build err)⟩
          | .ok ir => ⟨[.payloadDecode, .msgIrBuild], .ok ir⟩

def decodePayloadIrStaged (payload : List UInt8) (decoder : PayloadDecoder)
    (plan : PayloadDecodePlan) (schemaName : String) : Staged (Except PayloadError MsgIr) :=
  match decoder with
  | .json => decodeJsonIrStaged C payload plan
  | .protobuf (some pool) => decodeDynamicProtobufStaged pool payload plan schemaName
  | .protobuf none =>
      ⟨[], .error (.schema "protobuf payload decoding requires a descriptor-set file")⟩

theorem decodeJsonIrStaged_result (payload : List UInt8) (plan : PayloadDecodePlan) :
    (decodeJsonIrStaged C payload plan).result = decodeJsonIr C payload plan := by
  cases plan
  case none => rfl
  all_goals
    unfold decodeJsonIrStaged decodeJsonIr
    dsimp only [bind, Except.bind]
    cases C.valueFromSlice payload with
    | error err => rfl
    | ok parsed =>
        dsimp only [Except.mapError]
        cases parsed.1.asObject with
        | none => rfl
        | some object =>
            dsimp only
            cases MsgIr.fromJsonObjectWithDecodePlan object _ <;> rfl

theorem decodePayloadIrStaged_result (payload : List UInt8) (decoder : PayloadDecoder)
    (plan : PayloadDecodePlan) (schemaName : String) :
    (decodePayloadIrStaged C payload decoder plan schemaName).result =
      decodePayloadIr C payload decoder plan schemaName := by
  unfold decodePayloadIrStaged decodePayloadIr
  match decoder with
  | .json => exact decodeJsonIrStaged_result C payload plan
  | .protobuf none => rfl
  | .protobuf (some pool) =>
      dsimp only
      unfold decodeDynamicProtobufStaged decodeDynamicProtobuf
      cases pool.decodeMessage schemaName with
      | none => rfl
      | some decode =>
          dsimp only [bind, Except.bind]
          cases decode payload with
          | error err => rfl
          | ok message =>
              dsimp only [Except.mapError]
              cases MsgIr.fromProtobufMessageWithDecodePlan message plan <;> rfl

/-- What the stages of a decode say about its end. -/
inductive DecodeEnd : Staged (Except PayloadError MsgIr) → Prop where
  | skipped (ir : MsgIr) : DecodeEnd ⟨[], .ok ir⟩
  | built (ir : MsgIr) : DecodeEnd ⟨[.payloadDecode, .msgIrBuild], .ok ir⟩
  | unbuilt (text : String) : DecodeEnd ⟨[.payloadDecode], .error (.build text)⟩
  | undecoded (err : PayloadError) (hkind : err.kind ≠ .build) : DecodeEnd ⟨[], .error err⟩

theorem decodeEnd (payload : List UInt8) (decoder : PayloadDecoder) (plan : PayloadDecodePlan)
    (schemaName : String) : DecodeEnd (decodePayloadIrStaged C payload decoder plan schemaName) := by
  unfold decodePayloadIrStaged
  match decoder with
  | .protobuf none => exact .undecoded _ nofun
  | .protobuf (some pool) =>
      dsimp only
      unfold decodeDynamicProtobufStaged
      cases pool.decodeMessage schemaName with
      | none => exact .undecoded _ nofun
      | some decode =>
          dsimp only
          cases decode payload with
          | error err => exact .undecoded _ nofun
          | ok message =>
              dsimp only
              cases MsgIr.fromProtobufMessageWithDecodePlan message plan with
              | error err => exact .unbuilt err
              | ok ir => exact .built ir
  | .json =>
      dsimp only
      cases plan
      case none => exact .skipped MsgIr.new
      all_goals
        unfold decodeJsonIrStaged
        dsimp only
        cases C.valueFromSlice payload with
        | error err => exact .undecoded _ nofun
        | ok parsed =>
            dsimp only
            cases parsed.1.asObject with
            | none => exact .unbuilt _
            | some object =>
                dsimp only
                cases MsgIr.fromJsonObjectWithDecodePlan object _ with
                | error err => exact .unbuilt err
                | ok ir => exact .built ir

end Decoding

/-! ## The stages of a rule -/

section Rules

variable (C : Crates) (rules : List (Option CompiledRule)) (message : Message)

-- the part behind the WHERE clause
def evaluateSelectStaged (rule : CompiledRule) (context : EvalContext) :
    Staged (Except EvalError (Option Message)) :=
  match rule.selectPlan with
  | .all => ⟨[], .ok (some context.message)⟩
  | .columns columns =>
      match evaluateSelect C (.columns columns) context with
      | .error err => ⟨[], .error err⟩
      | .ok output => ⟨[.projection], .ok (some output)⟩

def evaluateRuleStaged (rule : CompiledRule) (payloadObj : MsgIr) (topicParts : List String) :
    Staged (Except EvalError (Option Message)) :=
  let context : EvalContext := ⟨message, payloadObj, topicParts⟩
  match rule.wherePlan with
  | none => evaluateSelectStaged C rule context
  | some plan =>
      match evaluatePlanBool plan context with
      | .error err => ⟨[], .error err⟩
      | .ok false => ⟨[.predicate], .ok none⟩
      | .ok true => (evaluateSelectStaged C rule context).after [.predicate]

theorem evaluateSelectStaged_result (rule : CompiledRule) (context : EvalContext) :
    (evaluateSelectStaged C rule context).result =
      (evaluateSelect C rule.selectPlan context).map some := by
  unfold evaluateSelectStaged
  cases rule.selectPlan with
  | all => rfl
  | columns columns =>
      dsimp only
      cases evaluateSelect C (.columns columns) context <;> rfl

theorem evaluateRuleStaged_result (rule : CompiledRule) (payloadObj : MsgIr)
    (topicParts : List String) : (evaluateRuleStaged C message rule payloadObj topicParts).result =
      evaluateRuleWithPayloadAndTopicParts C rule message payloadObj topicParts := by
  unfold evaluateRuleStaged evaluateRuleWithPayloadAndTopicParts evaluatePredicate
  cases rule.wherePlan with
  | none => exact evaluateSelectStaged_result C rule _
  | some plan =>
      dsimp only [bind, Except.bind]
      cases evaluatePlanBool plan ⟨message, payloadObj, topicParts⟩ with
      | error err => rfl
      | ok accepted =>
          cases accepted with
          | false => rfl
          | true => exact evaluateSelectStaged_result C rule _

-- the attempt that a rule result makes
def toAttempt (ruleIndex : Nat) : Except EvalError (Option Message) → EvalAttempt
  | .ok (some evaluated) => ⟨ruleIndex, some ⟨ruleIndex, evaluated⟩, none⟩
  | .ok none => ⟨ruleIndex, none, none⟩
  | .error error => ⟨ruleIndex, none, some error⟩

def evaluateSingleRuleStaged (ir : MsgIr) (topicParts : List String) (ruleIndex : Nat) :
    Staged (Option EvalAttempt) :=
  match liveRule rules ruleIndex with
  | none => ⟨[], none⟩
  | some rule => (evaluateRuleStaged C message rule ir topicParts).map fun r ↦ some (toAttempt ruleIndex r)

theorem evaluateSingleRule_eq (ir : MsgIr) (topicParts : List String) (ruleIndex : Nat) :
    evaluateSingleRule C rules message ir topicParts ruleIndex =
      (liveRule rules ruleIndex).map fun rule ↦ toAttempt ruleIndex
        (evaluateRuleWithPayloadAndTopicParts C rule message ir topicParts) := rfl

theorem evaluateSingleRuleStaged_result (ir : MsgIr) (topicParts : List String) (ruleIndex : Nat) :
    (evaluateSingleRuleStaged C rules message ir topicParts ruleIndex).result =
      evaluateSingleRule C rules message ir topicParts ruleIndex := by
  rw [evaluateSingleRule_eq]
  unfold evaluateSingleRuleStaged
  cases liveRule rules ruleIndex with
  | none => rfl
  | some rule =>
      rw [Option.map_some, ← evaluateRuleStaged_result]
      rfl

def evaluateMatchedStaged (ir : MsgIr) (topicParts : List String) (matched : List Nat) :
    Staged (List EvalAttempt) where
  finished := matched.flatMap fun i ↦
    (evaluateSingleRuleStaged C rules message ir topicParts i).finished
  result := matched.filterMap fun i ↦
    (evaluateSingleRuleStaged C rules message ir topicParts i).result

def evaluateGroupStaged (decoder : PayloadDecoder) (schema : String) (matched : List Nat) :
    Staged EvalOutcome :=
  match decodePayloadIrStaged C message.payload decoder (decodePlan rules matched) schema with
  | ⟨finished, .ok ir⟩ =>
      ((evaluateMatchedStaged C rules message ir (sharedTopicParts rules message matched)
        matched).map (⟨·, []⟩)).after finished
  | ⟨finished, .error err⟩ => ⟨finished, ⟨[], [err.kind]⟩⟩

def evaluateProtobufRuleGroupsStaged (decoder : PayloadDecoder) :
    List ProtobufSchemaRuleGroup → Staged EvalOutcome
  | [] => ⟨[], ⟨[], []⟩⟩
  | group :: groups =>
      let staged := evaluateGroupStaged C rules message decoder group.schema group.ruleIndexes
      ((evaluateProtobufRuleGroupsStaged decoder groups).map staged.result.append).after
        staged.finished

theorem evaluateGroupStaged_result (decoder : PayloadDecoder) (schema : String)
    (matched : List Nat) : (evaluateGroupStaged C rules message decoder schema matched).result =
      evaluateGroup C rules message decoder schema matched := by
  unfold evaluateGroupStaged evaluateGroup
  rw [← decodePayloadIrStaged_result]
  rcases decodePayloadIrStaged C message.payload decoder (decodePlan rules matched) schema with
    ⟨finished, (err | ir)⟩
  · rfl
  · change EvalOutcome.mk (matched.filterMap _) [] = EvalOutcome.mk (matched.filterMap _) []
    congr 2
    funext i
    exact evaluateSingleRuleStaged_result C rules message ir _ i

theorem evaluateProtobufRuleGroupsStaged_result (decoder : PayloadDecoder)
    (groups : List ProtobufSchemaRuleGroup) :
    (evaluateProtobufRuleGroupsStaged C rules message decoder groups).result =
      evaluateProtobufRuleGroups C rules message decoder groups := by
  induction groups with
  | nil => rfl
  | cons group rest ih =>
      rw [evaluateProtobufRuleGroups, ← ih, ← evaluateGroupStaged_result]
      rfl

end Rules

/-! ## The stages of an evaluation -/

def RuleEngine.evaluateStaged (C : Crates) (order : HashOrder) (engine : RuleEngine)
    (message : Message) : Staged (RuleEngine × EvalOutcome) :=
  match engine.payloadRuntime with
  | .json cache =>
      let (matched, cache) := cache.getOrInsertWith message.topic fun _ ↦
        order.indexes (engine.matcher.matchTopicIndexes message.topic)
      let outcome := if matched.isEmpty then ⟨[], ⟨[], []⟩⟩
        else evaluateGroupStaged C engine.rules message .json "" matched
      (outcome.map fun outcome ↦ ({ engine with
          payloadRuntime := .json cache
          metrics := recordOutcome engine.metrics outcome }, outcome)).after [.topicMatch]
  | .protobuf pool cache =>
      let (groups, cache) := cache.getOrInsertWith message.topic fun _ ↦
        buildProtobufSchemaRuleGroups order engine.rules
          (order.indexes (engine.matcher.matchTopicIndexes message.topic))
      let outcome :=
        evaluateProtobufRuleGroupsStaged C engine.rules message (.protobuf pool) groups
      (outcome.map fun outcome ↦ ({ engine with
          payloadRuntime := .protobuf pool cache
          metrics := recordOutcome engine.metrics outcome }, outcome)).after [.topicMatch]

theorem RuleEngine.evaluateStaged_result (C : Crates) (order : HashOrder) (engine : RuleEngine)
    (message : Message) :
    (engine.evaluateStaged C order message).result = engine.evaluate C order message := by
  unfold evaluateStaged evaluate
  cases engine.payloadRuntime with
  | json cache =>
      dsimp only
      split
      · rfl
      · rw [Staged.result_after, Staged.map, evaluateGroupStaged_result]
  | protobuf pool cache =>
      dsimp only
      rw [Staged.result_after, Staged.map, evaluateProtobufRuleGroupsStaged_result]

/-- How the stages of a call add up with the attempts and failures of its outcome. -/
structure StagesFit (finished : List LatencyStage) (outcome : EvalOutcome) : Prop where
  -- a payload that decodes either builds its fields or is reported
  builds : finished.count .payloadDecode =
    finished.count .msgIrBuild + outcome.payloadErrors.count .build
  predicates : finished.count .predicate ≤ outcome.attempts.length
  -- a projection that fails is not finished
  projections : finished.count .projection + outcome.attempts.countP (·.error.isSome) ≤
    outcome.attempts.length

namespace StagesFit

theorem nil : StagesFit [] ⟨[], []⟩ := ⟨rfl, Nat.le_refl 0, Nat.le_refl 0⟩

theorem append {finished finished' : List LatencyStage} {outcome outcome' : EvalOutcome}
    (h : StagesFit finished outcome) (h' : StagesFit finished' outcome') :
    StagesFit (finished ++ finished') (outcome.append outcome') where
  builds := by
    rw [EvalOutcome.append, List.count_append, List.count_append, List.count_append, h.builds,
      h'.builds]
    omega
  predicates := by
    rw [EvalOutcome.append, List.count_append, List.length_append]
    exact Nat.add_le_add h.predicates h'.predicates
  projections := by
    rw [EvalOutcome.append, List.count_append, List.length_append, List.countP_append]
    have hleft := h.projections
    have hright := h'.projections
    omega

theorem topicMatch {finished : List LatencyStage} {outcome : EvalOutcome}
    (h : StagesFit finished outcome) : StagesFit (.topicMatch :: finished) outcome where
  builds := h.builds
  predicates := h.predicates
  projections := h.projections

end StagesFit

section Fit

variable (C : Crates) (rules : List (Option CompiledRule)) (message : Message)

/-- What the stages of a rule say about its end. -/
inductive RuleEnd : Staged (Except EvalError (Option Message)) → Prop where
  | rejected : RuleEnd ⟨[.predicate], .ok none⟩
  | failed (err : EvalError) (hasWhere : Bool) :
      RuleEnd ⟨if hasWhere then [.predicate] else [], .error err⟩
  | whole (hasWhere : Bool) (output : Message) :
      RuleEnd ⟨if hasWhere then [.predicate] else [], .ok (some output)⟩
  | projected (hasWhere : Bool) (output : Message) :
      RuleEnd ⟨(if hasWhere then [.predicate] else []) ++ [.projection], .ok (some output)⟩

theorem ruleEnd_select (rule : CompiledRule) (context : EvalContext) (hasWhere : Bool) :
    RuleEnd ((evaluateSelectStaged C rule context).after (if hasWhere then [.predicate] else [])) := by
  unfold evaluateSelectStaged Staged.after
  cases rule.selectPlan with
  | all =>
      rw [List.append_nil]
      exact .whole hasWhere context.message
  | columns columns =>
      dsimp only
      cases evaluateSelect C (.columns columns) context with
      | error err =>
          rw [List.append_nil]
          exact .failed err hasWhere
      | ok output => exact .projected hasWhere output

theorem ruleEnd (rule : CompiledRule) (ir : MsgIr) (topicParts : List String) :
    RuleEnd (evaluateRuleStaged C message rule ir topicParts) := by
  unfold evaluateRuleStaged
  cases rule.wherePlan with
  | none => exact ruleEnd_select C rule _ false
  | some plan =>
      dsimp only
      cases evaluatePlanBool plan ⟨message, ir, topicParts⟩ with
      | error err => exact .failed err false
      | ok accepted =>
          cases accepted with
          | false => exact .rejected
          | true => exact ruleEnd_select C rule _ true

theorem RuleEnd.fit {staged : Staged (Except EvalError (Option Message))} (h : RuleEnd staged)
    (ruleIndex : Nat) :
    StagesFit staged.finished ⟨[toAttempt ruleIndex staged.result], []⟩ := by
  cases h with
  | rejected => exact ⟨rfl, Nat.le_refl 1, Nat.zero_le 1⟩
  | failed err hasWhere =>
      cases hasWhere
      · exact ⟨rfl, Nat.zero_le 1, Nat.le_refl 1⟩
      · exact ⟨rfl, Nat.le_refl 1, Nat.le_refl 1⟩
  | whole hasWhere output =>
      cases hasWhere
      · exact ⟨rfl, Nat.zero_le 1, Nat.zero_le 1⟩
      · exact ⟨rfl, Nat.le_refl 1, Nat.zero_le 1⟩
  | projected hasWhere output =>
      cases hasWhere
      · exact ⟨rfl, Nat.zero_le 1, Nat.le_refl 1⟩
      · exact ⟨rfl, Nat.le_refl 1, Nat.le_refl 1⟩

theorem stagesFit_matched (ir : MsgIr) (topicParts : List String) (matched : List Nat) :
    StagesFit (evaluateMatchedStaged C rules message ir topicParts matched).finished
      ⟨(evaluateMatchedStaged C rules message ir topicParts matched).result, []⟩ := by
  induction matched with
  | nil => exact .nil
  | cons i rest ih =>
      have hslot : StagesFit (evaluateSingleRuleStaged C rules message ir topicParts i).finished
          ⟨(evaluateSingleRuleStaged C rules message ir topicParts i).result.toList, []⟩ := by
        unfold evaluateSingleRuleStaged
        cases liveRule rules i with
        | none => exact .nil
        | some rule => exact (ruleEnd C message rule ir topicParts).fit i
      have hfit := hslot.append ih
      unfold evaluateMatchedStaged
      rw [List.flatMap_cons, List.filterMap_cons]
      cases hresult : (evaluateSingleRuleStaged C rules message ir topicParts i).result with
      | none =>
          rw [hresult] at hfit
          exact hfit
      | some attempt =>
          rw [hresult] at hfit
          exact hfit

theorem stagesFit_group (decoder : PayloadDecoder) (schema : String) (matched : List Nat) :
    StagesFit (evaluateGroupStaged C rules message decoder schema matched).finished
      (evaluateGroupStaged C rules message decoder schema matched).result := by
  unfold evaluateGroupStaged
  have hdecode := decodeEnd C message.payload decoder (decodePlan rules matched) schema
  generalize decodePayloadIrStaged C message.payload decoder (decodePlan rules matched) schema = decoded
    at hdecode
  cases hdecode with
  | skipped ir => exact stagesFit_matched C rules message ir _ matched
  | built ir =>
      have hbuilt : StagesFit [.payloadDecode, .msgIrBuild] ⟨[], []⟩ :=
        ⟨rfl, Nat.le_refl 0, Nat.le_refl 0⟩
      exact hbuilt.append (stagesFit_matched C rules message ir _ matched)
  | unbuilt text => exact ⟨rfl, Nat.le_refl 0, Nat.le_refl 0⟩
  | undecoded err hkind =>
      have hcount : [err.kind].count .build = 0 := List.count_eq_zero.mpr (by simpa using Ne.symm hkind)
      have hfit : StagesFit [] ⟨[], [err.kind]⟩ :=
        ⟨by rw [hcount]; rfl, Nat.le_refl 0, Nat.le_refl 0⟩
      exact hfit

theorem stagesFit_groups (decoder : PayloadDecoder) (groups : List ProtobufSchemaRuleGroup) :
    StagesFit (evaluateProtobufRuleGroupsStaged C rules message decoder groups).finished
      (evaluateProtobufRuleGroupsStaged C rules message decoder groups).result := by
  induction groups with
  | nil => exact .nil
  | cons group rest ih =>
      exact (stagesFit_group C rules message decoder group.schema group.ruleIndexes).append ih

theorem stagesFit_evaluate (order : HashOrder) (engine : RuleEngine) :
    StagesFit (engine.evaluateStaged C order message).finished
      (engine.evaluateStaged C order message).result.2 := by
  unfold RuleEngine.evaluateStaged
  cases engine.payloadRuntime with
  | json cache =>
      dsimp only
      apply StagesFit.topicMatch
      split
      · exact .nil
      · exact stagesFit_group C engine.rules message .json "" _
  | protobuf pool cache =>
      exact (stagesFit_groups C engine.rules message (.protobuf pool) _).topicMatch

end Fit

/-! ## An engine with stage metrics -/

structure MeteredEngine where
  engine : RuleEngine
  detailedLatencyEnabled : Bool
  stages : LatencyStage → LatencyMetrics
  -- what was recorded since the metrics were made, which the source does not keep
  recorded : List (LatencyStage × UInt64)

inductive MeteredOp where
  -- the clock gives the duration of each stage that the call finishes
  | call (op : EngineOp) (clock : Nat → UInt64)
  | setDetailedLatencyMetrics (enabled : Bool)

namespace MeteredEngine

def new (decoder : PayloadDecoder) (topicCacheCapacity : Nat) : MeteredEngine where
  engine := RuleEngine.newWithCacheCapacity decoder topicCacheCapacity
  detailedLatencyEnabled := false
  stages := 0
  recorded := []

-- one record with no other under way
def finishStage (metered : MeteredEngine) (stage : LatencyStage) (durationNanos : UInt64) :
    MeteredEngine :=
  if metered.detailedLatencyEnabled then
    { metered with
      stages := metered.stages + Pi.single stage (LatencyMetrics.single durationNanos)
      recorded := metered.recorded ++ [(stage, durationNanos)] }
  else metered

def finishStages (metered : MeteredEngine) (records : List (LatencyStage × UInt64)) : MeteredEngine :=
  records.foldl (fun metered record ↦ metered.finishStage record.1 record.2) metered

def setDetailedLatencyMetrics (metered : MeteredEngine) (enabled : Bool) : MeteredEngine :=
  if metered.detailedLatencyEnabled = enabled then metered
  else
    { engine := { metered.engine with metrics := EvalMetrics.new }
      detailedLatencyEnabled := enabled
      stages := 0
      recorded := [] }

def apply (C : Crates) (metered : MeteredEngine) : MeteredOp → MeteredEngine
  | .setDetailedLatencyMetrics enabled => metered.setDetailedLatencyMetrics enabled
  | .call (.evaluate order message) clock =>
      let staged := metered.engine.evaluateStaged C order message
      { metered with engine := staged.result.1 }.finishStages
        (staged.finished.mapIdx fun n stage ↦ (stage, clock n))
  | .call op _ => { metered with engine := op.apply C metered.engine }

end MeteredEngine

def meteredSystem (C : Crates) (decoder : PayloadDecoder) (topicCacheCapacity : Nat) :
    System MeteredEngine MeteredOp where
  init := MeteredEngine.new decoder topicCacheCapacity
  step metered op := some (metered.apply C op)

/-- The durations recorded for a stage, in order. -/
def durationsOf (recorded : List (LatencyStage × UInt64)) (stage : LatencyStage) : List UInt64 :=
  (recorded.filter (·.1 = stage)).map Prod.snd

/-- The stage metrics are those of the records made, and the records fit the counters. -/
structure MetersFit (metered : MeteredEngine) : Prop where
  stages : ∀ stage, metered.stages stage =
    ((durationsOf metered.recorded stage).map LatencyMetrics.single).sum
  disabled : metered.detailedLatencyEnabled = false → metered.recorded = []
  builds : metered.detailedLatencyEnabled = true →
    (durationsOf metered.recorded .payloadDecode).length =
      (durationsOf metered.recorded .msgIrBuild).length + metered.engine.metrics.payloadBuildErrorCount
  predicates : (durationsOf metered.recorded .predicate).length ≤ metered.engine.metrics.evalCount
  projections : (durationsOf metered.recorded .projection).length +
    metered.engine.metrics.evalErrorCount ≤ metered.engine.metrics.evalCount

namespace MeteredEngine

@[simp]
theorem finishStage_engine (metered : MeteredEngine) (stage : LatencyStage) (durationNanos : UInt64) :
    (metered.finishStage stage durationNanos).engine = metered.engine := by
  unfold finishStage
  split <;> rfl

@[simp]
theorem finishStage_detailed (metered : MeteredEngine) (stage : LatencyStage) (durationNanos : UInt64) :
    (metered.finishStage stage durationNanos).detailedLatencyEnabled =
      metered.detailedLatencyEnabled := by
  unfold finishStage
  split <;> rfl

theorem finishStages_cons (metered : MeteredEngine) (record : LatencyStage × UInt64)
    (records : List (LatencyStage × UInt64)) :
    metered.finishStages (record :: records) =
      (metered.finishStage record.1 record.2).finishStages records := rfl

@[simp]
theorem finishStages_engine (metered : MeteredEngine) (records : List (LatencyStage × UInt64)) :
    (metered.finishStages records).engine = metered.engine := by
  induction records generalizing metered with
  | nil => rfl
  | cons record rest ih => rw [finishStages_cons, ih, finishStage_engine]

@[simp]
theorem finishStages_detailed (metered : MeteredEngine) (records : List (LatencyStage × UInt64)) :
    (metered.finishStages records).detailedLatencyEnabled = metered.detailedLatencyEnabled := by
  induction records generalizing metered with
  | nil => rfl
  | cons record rest ih => rw [finishStages_cons, ih, finishStage_detailed]

theorem finishStages_recorded (metered : MeteredEngine) (records : List (LatencyStage × UInt64)) :
    (metered.finishStages records).recorded =
      if metered.detailedLatencyEnabled then metered.recorded ++ records else metered.recorded := by
  induction records generalizing metered with
  | nil =>
      rw [List.append_nil, ite_self]
      rfl
  | cons record rest ih =>
      rw [finishStages_cons, ih, finishStage_detailed, finishStage]
      split
      · rw [List.append_assoc]
        rfl
      · rfl

end MeteredEngine

theorem durationsOf_append (recorded records : List (LatencyStage × UInt64)) (stage : LatencyStage) :
    durationsOf (recorded ++ records) stage =
      durationsOf recorded stage ++ durationsOf records stage := by
  rw [durationsOf, List.filter_append, List.map_append]
  rfl

theorem length_durationsOf (recorded : List (LatencyStage × UInt64)) (stage : LatencyStage) :
    (durationsOf recorded stage).length = (recorded.map Prod.fst).count stage := by
  rw [durationsOf, List.length_map, List.count_eq_countP, List.countP_map,
    List.countP_eq_length_filter]
  rfl

/-! ## Runs -/

namespace MeteredEngine

theorem finishStages_stages (metered : MeteredEngine) (records : List (LatencyStage × UInt64))
    (h : ∀ stage, metered.stages stage =
      ((durationsOf metered.recorded stage).map LatencyMetrics.single).sum) (stage : LatencyStage) :
    (metered.finishStages records).stages stage =
      ((durationsOf (metered.finishStages records).recorded stage).map LatencyMetrics.single).sum := by
  induction records generalizing metered with
  | nil => exact h stage
  | cons record rest ih =>
      rw [finishStages_cons]
      apply ih
      intro stage
      unfold finishStage
      split
      · dsimp only
        rw [Pi.add_apply, h, durationsOf_append, List.map_append, List.sum_append]
        congr 1
        by_cases hstage : record.1 = stage
        · subst hstage
          simp [durationsOf]
        · simp [durationsOf, hstage]
      · exact h stage

end MeteredEngine

theorem payloadBuildErrorCount_recordOutcome (metrics : EvalMetrics) (outcome : EvalOutcome) :
    (RuleEngine.recordOutcome metrics outcome).payloadBuildErrorCount =
      metrics.payloadBuildErrorCount + outcome.payloadErrors.count .build := by
  have hattempts (attempts : List EvalAttempt) (metrics : EvalMetrics) :
      (attempts.foldl EvalMetrics.recordAttempt metrics).payloadBuildErrorCount =
        metrics.payloadBuildErrorCount := by
    induction attempts generalizing metrics with
    | nil => rfl
    | cons attempt rest ih =>
        rw [List.foldl_cons, ih]
        unfold EvalMetrics.recordAttempt
        cases attempt.error <;> rfl
  have herrors (kinds : List PayloadErrorKind) (metrics : EvalMetrics) :
      (kinds.foldl EvalMetrics.recordPayloadError metrics).payloadBuildErrorCount =
        metrics.payloadBuildErrorCount + kinds.count .build := by
    induction kinds generalizing metrics with
    | nil => rfl
    | cons kind rest ih =>
        rw [List.foldl_cons, ih]
        cases kind with
        | build =>
            rw [List.count_cons_self, Nat.add_comm (rest.count _) 1, ← Nat.add_assoc]
            rfl
        | schema =>
            rw [List.count_cons_of_ne (by decide)]
            rfl
        | decode =>
            rw [List.count_cons_of_ne (by decide)]
            rfl
  rw [RuleEngine.recordOutcome, herrors, hattempts]

section Balance

variable {C : Crates} {metered : MeteredEngine}

theorem metersFit_new (decoder : PayloadDecoder) (topicCacheCapacity : Nat) :
    MetersFit (MeteredEngine.new decoder topicCacheCapacity) where
  stages _ := rfl
  disabled _ := rfl
  builds henabled := by cases henabled
  predicates := Nat.le_refl 0
  projections := Nat.le_refl 0

theorem MetersFit.setDetailedLatencyMetrics (h : MetersFit metered) (enabled : Bool) :
    MetersFit (metered.setDetailedLatencyMetrics enabled) := by
  unfold MeteredEngine.setDetailedLatencyMetrics
  split
  · exact h
  · exact ⟨fun _ ↦ rfl, fun _ ↦ rfl, fun _ ↦ rfl, Nat.le_refl 0, Nat.le_refl 0⟩

theorem map_fst_mapIdx (finished : List LatencyStage) (clock : Nat → UInt64) :
    (finished.mapIdx fun n stage ↦ (stage, clock n)).map Prod.fst = finished := by
  apply List.ext_getElem?
  intro n
  rw [List.getElem?_map, List.getElem?_mapIdx]
  cases finished[n]? <;> rfl

/-- A call whose stages fit its outcome keeps the balance. -/
theorem MetersFit.finish (h : MetersFit metered) {engine : RuleEngine} {outcome : EvalOutcome}
    {records : List (LatencyStage × UInt64)} (hfit : StagesFit (records.map Prod.fst) outcome)
    (hmetrics : engine.metrics = RuleEngine.recordOutcome metered.engine.metrics outcome) :
    MetersFit ({ metered with engine := engine }.finishStages records) := by
  have hadds := EvalMetrics.adds_recordOutcome metered.engine.metrics outcome
  have hbuild := payloadBuildErrorCount_recordOutcome metered.engine.metrics outcome
  rw [← hmetrics] at hadds hbuild
  have hcount := hadds.evalCount
  have herror := hadds.evalErrorCount
  have hle : outcome.attempts.countP (·.error.isSome) ≤ outcome.attempts.length := List.countP_le_length
  have hpredicates := h.predicates
  have hprojections := h.projections
  refine ⟨MeteredEngine.finishStages_stages _ _ h.stages, ?_, ?_, ?_, ?_⟩
  all_goals simp only [MeteredEngine.finishStages_recorded, MeteredEngine.finishStages_engine,
    MeteredEngine.finishStages_detailed]
  · intro hdisabled
    rw [hdisabled]
    exact h.disabled hdisabled
  · intro henabled
    have hbuilds := h.builds henabled
    have hfitted := hfit.builds
    rw [if_pos henabled, durationsOf_append, durationsOf_append, List.length_append,
      List.length_append, length_durationsOf records, length_durationsOf records, hbuilds, hbuild,
      hfitted]
    omega
  · have hfitted := hfit.predicates
    rw [hcount]
    split
    · rw [durationsOf_append, List.length_append, length_durationsOf records]
      omega
    · exact Nat.le_add_right_of_le hpredicates
  · have hfitted := hfit.projections
    rw [hcount, herror]
    split
    · rw [durationsOf_append, List.length_append, length_durationsOf records]
      omega
    · omega

theorem MetersFit.evaluate (h : MetersFit metered) (order : HashOrder) (message : Message)
    (clock : Nat → UInt64) : MetersFit (metered.apply C (.call (.evaluate order message) clock)) := by
  have hfit := stagesFit_evaluate C message order metered.engine
  have hmetrics : (metered.engine.evaluate C order message).1.metrics = RuleEngine.recordOutcome
      metered.engine.metrics (metered.engine.evaluate C order message).2 :=
    metrics_evaluate order message
  rw [← RuleEngine.evaluateStaged_result] at hmetrics
  rw [← map_fst_mapIdx (metered.engine.evaluateStaged C order message).finished clock] at hfit
  exact h.finish hfit hmetrics

theorem MetersFit.apply (h : MetersFit metered) (op : MeteredOp) : MetersFit (metered.apply C op) := by
  cases op with
  | setDetailedLatencyMetrics enabled => exact h.setDetailedLatencyMetrics enabled
  | call op clock =>
      by_cases hop : ∃ order message, op = .evaluate order message
      · obtain ⟨order, message, rfl⟩ := hop
        exact h.evaluate order message clock
      · have hother : ∀ order message, op ≠ .evaluate order message :=
          fun order message heq ↦ hop ⟨order, message, heq⟩
        have hmetrics : (op.apply C metered.engine).metrics = metered.engine.metrics :=
          metrics_apply op hother
        have happly : metered.apply C (.call op clock) =
            { metered with engine := op.apply C metered.engine } := by
          cases op with
          | evaluate order message => exact absurd rfl (hother order message)
          | _ => rfl
        rw [happly]
        refine ⟨h.stages, h.disabled, ?_, ?_, ?_⟩
        all_goals dsimp only; rw [hmetrics]
        · exact h.builds
        · exact h.predicates
        · exact h.projections

/-- Along every run, with the detailed metrics switched on and off at any time, the metrics of each stage
are those of the records made since they were last reset, and the numbers of records fit the
counters: what was decoded was built or reported, no rule finishes a stage twice, and no failed
attempt finishes its projection. -/
theorem stages_fit {decoder : PayloadDecoder} {topicCacheCapacity : Nat}
    (h : (meteredSystem C decoder topicCacheCapacity).Reachable metered) : MetersFit metered := by
  apply h.invariant (metersFit_new decoder topicCacheCapacity)
  intro s op t hs hstep
  cases hstep
  exact hs.apply op

end Balance

def hotText : String := "select temp from \"t\" where temp = 'hot'"

-- what the text stands for
def hotQuery : Query :=
  { demoQuery [] "t" with
    body := .select
      { distinct := none
        top := none
        projection := [.unnamedExpr (.identifier ⟨"temp", none⟩)]
        fromTables := [{ relation := .table [⟨"t", some '"'⟩] none [], joins := [] }]
        selection := some (.binaryOp (.identifier ⟨"temp", none⟩) .eq (.value (.singleQuotedString "hot")))
        groupBy := .expressions []
        having := none
        others := [] } }

-- an object whose one member `temp` is the text `hot`
def hotPayload : List UInt8 :=
  [0x7b, 0x22, 0x74, 0x65, 0x6d, 0x70, 0x22, 0x3a, 0x22, 0x68, 0x6f, 0x74, 0x22, 0x7d]

theorem sorted_hot : (JsonValue.object [("temp", .string "hot")]).Sorted := by
  apply JsonValue.Sorted.object (List.pairwise_singleton _ _)
  intro e he
  rw [List.mem_singleton.mp he]
  exact .string "hot"

def hotCrates : Crates :=
  { demoCrates with
    parseSql := fun _ ↦ .ok [.query hotQuery]
    valueFromSlice := fun bytes ↦
      if bytes = hotPayload then .ok ⟨.object [("temp", .string "hot")], sorted_hot⟩
      else .error "expected value"
    valueToVec := fun _ ↦ .ok hotPayload }

def hotEngine : RuleEngine :=
  ((RuleEngine.newWithCacheCapacity .json 1).addRule hotCrates ⟨hotText, [], none⟩).1

theorem finished_of_hot {rule : CompiledRule} {ir : MsgIr} (message : Message) (parts : List String)
    (hwhere : rule.wherePlan =
      some (.binary (.payloadField (.fromKey "temp")) .eq (.const (.string "hot"))))
    (hselect : rule.selectPlan = .columns [⟨.payloadField (.fromKey "temp"), "temp"⟩])
    (hfield : ir.getField (.fromKey "temp") = some (.string "hot")) :
    (evaluateRuleStaged hotCrates message rule ir parts).finished = [.predicate, .projection] := by
  have hpredicate : evaluatePlanBool (.binary (.payloadField (.fromKey "temp")) .eq
      (.const (.string "hot"))) ⟨message, ir, parts⟩ = .ok true := by
    rw [evaluatePlanBool_comparison rfl, evaluatePlanCompareBool, evaluatePlanRuntimeValue,
      evaluatePlanRuntimeValue, payloadValueByPath, hfield]
    rfl
  have hcolumn : evaluatePlanValue (.payloadField (.fromKey "temp")) ⟨message, ir, parts⟩ =
      .ok (.string "hot") := by
    rw [evaluatePlanValue, payloadValueByPath, hfield]
    rfl
  simp only [evaluateRuleStaged, evaluateSelectStaged, hwhere, hselect, hpredicate,
    evaluateSelect_columns, projectColumns, hcolumn]
  rfl

-- the payload is decoded and built, the clause is true and the column is written
theorem finished_hotEngine :
    (hotEngine.evaluateStaged hotCrates .increasing (Message.new "t" hotPayload)).finished =
      [.topicMatch, .payloadDecode, .msgIrBuild, .predicate, .projection] := by
  have hfinished : ∃ rule ir parts,
      (hotEngine.evaluateStaged hotCrates .increasing (Message.new "t" hotPayload)).finished =
        [.topicMatch, .payloadDecode, .msgIrBuild] ++
          ((evaluateRuleStaged hotCrates (Message.new "t" hotPayload) rule ir parts).finished ++ []) ∧
      rule.wherePlan = some (.binary (.payloadField (.fromKey "temp")) .eq (.const (.string "hot"))) ∧
      rule.selectPlan = .columns [⟨.payloadField (.fromKey "temp"), "temp"⟩] ∧
      ir.getField (.fromKey "temp") = some (.string "hot") := ⟨_, _, _, rfl, rfl, rfl, rfl⟩
  obtain ⟨rule, ir, parts, hfinished, hwhere, hselect, hfield⟩ := hfinished
  rw [hfinished, finished_of_hot _ _ hwhere hselect hfield]
  rfl

-- a rule is added, the detailed metrics are switched on, and a message is evaluated
def demoMetered : List MeteredOp :=
  [.call (.addRule ⟨hotText, [], none⟩) fun _ ↦ 0, .setDetailedLatencyMetrics true,
    .call (.evaluate .increasing (Message.new "t" hotPayload)) fun _ ↦ 7]

theorem stages_fit_demo :
    ∃ metered, (meteredSystem hotCrates .json 1).exec (.new .json 1) demoMetered = some metered ∧
      metered.recorded = [(.topicMatch, 7), (.payloadDecode, 7), (.msgIrBuild, 7), (.predicate, 7),
        (.projection, 7)] ∧ MetersFit metered := by
  refine ⟨_, rfl, ?_, stages_fit ⟨demoMetered, rfl⟩⟩
  show (MeteredEngine.finishStages _ ((hotEngine.evaluateStaged hotCrates .increasing
    (Message.new "t" hotPayload)).finished.mapIdx fun _ stage ↦ (stage, 7))).recorded = _
  rw [finished_hotEngine]
  rfl

end Tenon.Core
