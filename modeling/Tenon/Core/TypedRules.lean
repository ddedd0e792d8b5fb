import Tenon.Core.PlanTypes
import Tenon.Core.RuleOutcome

/-!
# TypedRules — engines whose rules and payloads are typed

Fix a type for every payload field.  If the rules that are added check against these types and the
payloads conform to them, no run of an engine counts a type error.  A rule that does not check is never
the source of a result, on any conforming payload and next to any other rules.
-/

open Reasoning Reasoning.Transition

namespace Tenon.Core

section Rules

variable (fieldType : CompiledPayloadField → ValueType)

/-- The WHERE clause decides and the columns have types. -/
structure TypesCheck (rule : CompiledRule) : Prop where
  predicate : ∀ plan ∈ rule.wherePlan, plan.typeOf fieldType = some .bool
  columns : ∀ columns, rule.selectPlan = .columns columns →
    ∀ column ∈ columns, column.expr.typeOf fieldType ≠ none

/-- The topic levels of the rule are selected by whole numbers. -/
structure LevelsCheck (rule : CompiledRule) : Prop where
  predicate : ∀ plan ∈ rule.wherePlan, plan.levelsChecked = true
  columns : ∀ columns, rule.selectPlan = .columns columns →
    ∀ column ∈ columns, column.expr.levelsChecked = true

/-- Whatever decodes from the payload has the types of the fields. -/
def PayloadConforms (C : Crates) (decoder : PayloadDecoder) (message : Message) : Prop :=
  ∀ schema find, payloadView C message.payload schema decoder = some find →
    ∀ f : CompiledPayloadField, ∀ value, find f.segments = some value →
      value.toJsonValue.valueType = fieldType f ∧ ∀ x, value = .number x → x.isFinite = true

-- the fields that the rule reads conform
def RuleConforms (rule : CompiledRule) (ir : MsgIr) : Prop :=
  ∀ f ∈ rule.requiredPayloadFields, ∀ value, ir.getField f = some value →
    value.toJsonValue.valueType = fieldType f ∧ ∀ x, value = .number x → x.isFinite = true

variable {fieldType} {C : Crates} {rule : CompiledRule} {message : Message} {ir : MsgIr}
  {parts : List String}

theorem RuleConforms.plan (h : RuleConforms fieldType rule ir) {plan : EvalExprPlan}
    (hreads : ∀ f, plan.Reads f → f ∈ rule.requiredPayloadFields) :
    Conforms fieldType plan ⟨message, ir, parts⟩ where
  typed f hf value hvalue := (h f (hreads f hf) value hvalue).1
  finite f hf x hx := (h f (hreads f hf) (.number x) hx).2 x rfl

theorem RuleConforms.predicate (h : RuleConforms fieldType rule ir) {plan : EvalExprPlan}
    (hplan : plan ∈ rule.wherePlan) : Conforms fieldType plan ⟨message, ir, parts⟩ := by
  apply h.plan
  intro f hf
  rw [rule.hfields, mem_collectRequiredPayloadFields]
  exact Or.inr ⟨plan, hplan, hf⟩

theorem RuleConforms.column (h : RuleConforms fieldType rule ir) {columns : List PlannedColumn}
    (hselect : rule.selectPlan = .columns columns) {column : PlannedColumn}
    (hcolumn : column ∈ columns) : Conforms fieldType column.expr ⟨message, ir, parts⟩ := by
  apply h.plan
  intro f hf
  rw [rule.hfields, mem_collectRequiredPayloadFields, hselect]
  exact Or.inl ⟨column, hcolumn, hf⟩

theorem not_typeError_of_checked (hconf : RuleConforms fieldType rule ir)
    (htypes : TypesCheck fieldType rule) (hlevels : LevelsCheck rule) {error : EvalError}
    (h : evaluateRuleWithPayloadAndTopicParts C rule message ir parts = .error error) :
    error.isTypeError = false := by
  rcases evaluateRule_error h with ⟨plan, hplan, herror⟩ |
    ⟨columns, hselect, rfl | ⟨column, hcolumn, herror⟩⟩
  · have hconforms : Conforms fieldType plan ⟨message, ir, parts⟩ := hconf.predicate hplan
    have htyped := typed_of_typeOf hconforms (htypes.predicate plan hplan)
    exact (Ends.error (htyped.boolError rfl) herror).2 (hlevels.predicate plan hplan)
  · rfl
  · obtain ⟨t, ht⟩ := Option.ne_none_iff_exists'.mp (htypes.columns columns hselect column hcolumn)
    have hconforms : Conforms fieldType column.expr ⟨message, ir, parts⟩ :=
      hconf.column hselect hcolumn
    have htyped := typed_of_typeOf hconforms ht
    exact (Ends.error htyped.valueError herror).2 (hlevels.columns columns hselect column hcolumn)

end Rules

/-! ## The rules of a message -/

section Slots

variable {fieldType : CompiledPayloadField → ValueType} {C : Crates} {decoder : PayloadDecoder}
  {rules : List (Option CompiledRule)} {message : Message} {i : Nat} {rule : CompiledRule}

/-- What is decoded for a group of rules conforms for each of them. -/
theorem PayloadConforms.of_decode (h : PayloadConforms fieldType C decoder message) {schema : String}
    {matched : List Nat} {ir : MsgIr} (hrule : liveRule rules i = some rule) (hi : i ∈ matched)
    (hdecoded : decodePayloadIr C message.payload decoder (decodePlan rules matched) schema = .ok ir) :
    RuleConforms fieldType rule ir := by
  intro f hf value hvalue
  obtain ⟨find, hview, hfind⟩ := exists_view hrule hi hdecoded hf
  exact h schema find hview f value (hfind.symm.trans hvalue)

theorem PayloadConforms.slot (h : PayloadConforms fieldType C decoder message)
    (hi : i ∈ matchedSlots rules message) (hrule : liveRule rules i = some rule) {ir : MsgIr}
    (hpayload : groupPayload C decoder rules message (slotSchema decoder rules i) = .ok ir) :
    RuleConforms fieldType rule ir :=
  h.of_decode hrule (mem_schemaSlots.mpr ⟨hi, rfl⟩) hpayload

end Slots

/-! ## Runs -/

namespace EvalMetrics

-- the attempts that end in a type error
def typeErrors (attempts : List EvalAttempt) : Nat :=
  attempts.countP fun attempt ↦ attempt.error.any EvalError.isTypeError

theorem evalTypeErrorCount_recordAttempt (metrics : EvalMetrics) (attempt : EvalAttempt) :
    (metrics.recordAttempt attempt).evalTypeErrorCount = metrics.evalTypeErrorCount +
      if attempt.error.any EvalError.isTypeError then 1 else 0 := by
  unfold recordAttempt
  cases attempt.error <;> rfl

theorem evalTypeErrorCount_attempts (metrics : EvalMetrics) (attempts : List EvalAttempt) :
    (attempts.foldl recordAttempt metrics).evalTypeErrorCount =
      metrics.evalTypeErrorCount + typeErrors attempts := by
  induction attempts generalizing metrics with
  | nil => rfl
  | cons attempt rest ih =>
      rw [List.foldl_cons, ih, evalTypeErrorCount_recordAttempt, typeErrors, typeErrors, List.countP_cons]
      omega

theorem evalTypeErrorCount_payloadErrors (metrics : EvalMetrics) (kinds : List PayloadErrorKind) :
    (kinds.foldl recordPayloadError metrics).evalTypeErrorCount = metrics.evalTypeErrorCount := by
  induction kinds generalizing metrics with
  | nil => rfl
  | cons kind rest ih =>
      rw [List.foldl_cons, ih]
      cases kind <;> rfl

theorem evalTypeErrorCount_recordOutcome (metrics : EvalMetrics) (outcome : EvalOutcome) :
    (RuleEngine.recordOutcome metrics outcome).evalTypeErrorCount =
      metrics.evalTypeErrorCount + typeErrors outcome.attempts := by
  rw [RuleEngine.recordOutcome, evalTypeErrorCount_payloadErrors, evalTypeErrorCount_attempts]

end EvalMetrics

section Runs

variable (C : Crates) (decoder : PayloadDecoder) (fieldType : CompiledPayloadField → ValueType)

/-- What the definition compiles to checks. -/
def DefinitionChecks (rule : RuleDefinition) : Prop :=
  ∀ compiled, compileRule C rule = .ok compiled → TypesCheck fieldType compiled ∧ LevelsCheck compiled

/-- The rules that the operation adds check, and the payload that it evaluates conforms. -/
def EngineOp.Typed : EngineOp → Prop
  | .addRule rule => DefinitionChecks C fieldType rule
  | .removeRule _ => True
  | .loadRules bytes => ∀ parsed, C.ruleFileFromSlice bytes = .ok parsed →
      ∀ rule ∈ parsed, DefinitionChecks C fieldType rule
  | .evaluate _ message => PayloadConforms fieldType C decoder message

/-- All rules of the engine check, and it has counted no type error. -/
structure TypedEngine (engine : RuleEngine) : Prop where
  rules : ∀ i rule, liveRule engine.rules i = some rule → TypesCheck fieldType rule ∧ LevelsCheck rule
  noTypeError : engine.metrics.evalTypeErrorCount = 0

variable {C decoder fieldType} {engine : RuleEngine}

theorem TypedEngine.addRule (h : TypedEngine fieldType engine) {rule : RuleDefinition}
    (hchecks : DefinitionChecks C fieldType rule) :
    TypedEngine fieldType (engine.addRule C rule).1 := by
  rcases addRule_cases C engine rule with ⟨err, hadd, -⟩ | ⟨compiled, haccepts, hadd⟩
  · rw [hadd]
    exact h
  · rw [hadd]
    refine ⟨fun i live hlive ↦ ?_, h.noTypeError⟩
    rw [liveRule_pushRule] at hlive
    split at hlive
    · cases hlive
      exact hchecks compiled haccepts.2
    · exact h.rules i live hlive

theorem TypedEngine.addRules (h : TypedEngine fieldType engine) {defs : List RuleDefinition}
    (hchecks : ∀ rule ∈ defs, DefinitionChecks C fieldType rule) (count : Nat) :
    TypedEngine fieldType (engine.addRules C count defs).1 := by
  induction defs generalizing engine count with
  | nil => exact h
  | cons rule rest ih =>
      have hadded := h.addRule (hchecks rule List.mem_cons_self)
      rw [RuleEngine.addRules]
      cases hadd : engine.addRule C rule with
      | mk next result =>
          rw [hadd] at hadded
          cases result with
          | error err => exact hadded
          | ok id => exact ih hadded (fun r hr ↦ hchecks r (List.mem_cons_of_mem _ hr)) (count + 1)

theorem TypedEngine.evaluate (h : TypedEngine fieldType engine) (hwf : WellFormed decoder engine)
    (honce : CachedOnce engine) {message : Message}
    (hconf : PayloadConforms fieldType C decoder message) (order : HashOrder) :
    TypedEngine fieldType (engine.evaluate C order message).1 := by
  constructor
  · rw [RuleEngine.evaluate_rules]
    exact h.rules
  · obtain ⟨hattempts, -⟩ := hwf.outcome (C := C) honce order message
    rw [metrics_evaluate, EvalMetrics.evalTypeErrorCount_recordOutcome, h.noTypeError, Nat.zero_add,
      EvalMetrics.typeErrors, hattempts.countP_eq, List.countP_eq_zero]
    intro attempt hmem
    obtain ⟨i, hi, hattempt⟩ := List.mem_filterMap.mp hmem
    obtain ⟨-, rule, ir, hrule, hpayload, herrors, -⟩ := exists_of_slotAttempt hattempt
    obtain ⟨htypes, hlevels⟩ := h.rules i rule hrule
    cases herror : attempt.error with
    | none => exact Bool.false_ne_true
    | some error =>
        rw [Option.any_some, not_typeError_of_checked (hconf.slot hi hrule hpayload) htypes hlevels
          (herrors error herror)]
        exact Bool.false_ne_true

theorem TypedEngine.apply (h : TypedEngine fieldType engine) (hwf : WellFormed decoder engine)
    (honce : CachedOnce engine) {op : EngineOp} (hop : op.Typed C decoder fieldType) :
    TypedEngine fieldType (op.apply C engine) := by
  cases op with
  | addRule rule => exact h.addRule hop
  | removeRule ruleId =>
      rw [EngineOp.apply]
      rcases removeRule_cases engine ruleId with ⟨-, hremove⟩ | ⟨index, -, hremove⟩
      · rw [hremove]
        exact h
      · rw [hremove]
        exact ⟨fun i rule hrule ↦ h.rules i rule (live_of_live_dropSlot hrule).2, h.noTypeError⟩
  | loadRules bytes =>
      rw [EngineOp.apply, RuleEngine.loadRulesFromJsonBytes]
      cases hparse : C.ruleFileFromSlice bytes with
      | error err => exact h
      | ok parsed => exact h.addRules (hop parsed hparse) 0
  | evaluate order message => exact h.evaluate hwf honce hop order

end Runs

/-! ## The main results -/

end Tenon.Core
