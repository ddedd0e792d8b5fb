import Tenon.Core.RuleOutcome
import Tenon.Core.TopicLevels
import Tenon.Reasoning.Ends

/-!
# Diagnostics — what results and errors say about a message

Evaluation is strict: every part of a plan is evaluated, also behind an AND that is already false.  So a
result needs everything that its rule mentions to be there, and an error that calls something missing
names something that the rule mentions and the message lacks.
-/

open Reasoning Reasoning.Transition

namespace Tenon.Core

/-- The part occurs in the plan. -/
def EvalExprPlan.Mentions (plan part : EvalExprPlan) : Prop :=
  part = plan ∨ match plan with
    | .binary left _ right => left.Mentions part ∨ right.Mentions part
    | .topicLevel level => level.Mentions part
    | .propertiesKey key => key.Mentions part
    | _ => False

/-- What a part stands for is there. -/
def EvalExprPlan.Present (ctx : EvalContext) : EvalExprPlan → Prop
  | .payloadField path => (ctx.payload.getField path).isSome
  | .metaClientId => ctx.message.clientId.isSome
  | .metaUsername => ctx.message.username.isSome
  | .propertiesKey key => ∃ name, evaluatePlanValue key ctx = .ok (.string name) ∧
      (ctx.message.properties.lookup name).isSome
  | .unknown _ => False
  | _ => True

def EvalExprPlan.Supplied (ctx : EvalContext) (plan : EvalExprPlan) : Prop :=
  ∀ part, plan.Mentions part → part.Present ctx

/-- The part has the number `n` as its value. -/
def EvalExprPlan.Selects (ctx : EvalContext) (level : EvalExprPlan) (n : Nat) : Prop :=
  ∃ v, evaluatePlanValue level ctx = .ok v ∧ valueToNonNegativeU64 v "topic_level" = .ok n

/-- What the error calls missing is mentioned in the plan and is not there. -/
def EvalError.TrueOf (ctx : EvalContext) (plan : EvalExprPlan) : EvalError → Prop
  | .missingPayloadField key => ∃ f, plan.Mentions (.payloadField f) ∧ f.key = key ∧
      ctx.payload.getField f = none
  | .missingProperty key => ∃ part, plan.Mentions (.propertiesKey part) ∧
      evaluatePlanValue part ctx = .ok (.string key) ∧ ctx.message.properties.lookup key = none
  | .missingMetadata name =>
      name = "clientId" ∧ plan.Mentions .metaClientId ∧ ctx.message.clientId = none ∨
        name = "username" ∧ plan.Mentions .metaUsername ∧ ctx.message.username = none ∨
        name = "topic level" ∧ ∃ level n, plan.Mentions (.topicLevel level) ∧
          level.Selects ctx n ∧ ctx.topicParts[levelIndex n]? = none
  | _ => True

section Plans

variable {ctx : EvalContext} {plan part left right : EvalExprPlan} {op : BinaryOperator}

theorem EvalError.TrueOf.mono {error : EvalError} (h : error.TrueOf ctx part)
    (hsub : ∀ p, part.Mentions p → plan.Mentions p) : error.TrueOf ctx plan := by
  cases error with
  | missingPayloadField key =>
      obtain ⟨f, hf, hkey, hnone⟩ := h
      exact ⟨f, hsub _ hf, hkey, hnone⟩
  | missingProperty key =>
      obtain ⟨key', hmention, hnone⟩ := h
      exact ⟨key', hsub _ hmention, hnone⟩
  | missingMetadata name =>
      rcases h with ⟨hname, hmention, hnone⟩ | ⟨hname, hmention, hnone⟩ |
        ⟨hname, level, n, hmention, hnone⟩
      · exact Or.inl ⟨hname, hsub _ hmention, hnone⟩
      · exact Or.inr (Or.inl ⟨hname, hsub _ hmention, hnone⟩)
      · exact Or.inr (Or.inr ⟨hname, level, n, hsub _ hmention, hnone⟩)
  | _ => exact h

-- the errors of operands of the wrong kind call nothing missing
theorem trueOf_expectBool (v : JsonValue) :
    Ends (fun _ ↦ True) (EvalError.TrueOf ctx plan) (expectBool v) := by
  cases v <;> trivial

theorem trueOf_numericOperands (v w : JsonValue) (op : BinaryOperator) (context : String) :
    Ends (fun _ ↦ True) (EvalError.TrueOf ctx plan) (numericOperands v w op context) := by
  unfold numericOperands
  split <;> trivial

theorem trueOf_arithmetic (v w : JsonValue) (op : BinaryOperator) (context : String) :
    Ends (fun _ ↦ True) (EvalError.TrueOf ctx plan) (evaluateArithmeticRuntime v w op context) := by
  refine (trueOf_numericOperands v w op context).bind fun operands _ _ ↦ ?_
  dsimp only
  split <;> trivial

theorem trueOf_compareValues (v w : JsonValue) (op : BinaryOperator) (context : String) :
    Ends (fun _ ↦ True) (EvalError.TrueOf ctx plan) (compareValuesRuntime v w op context) := by
  unfold compareValuesRuntime
  split
  · refine (trueOf_numericOperands _ _ op context).bind fun operands _ _ ↦ ?_
    cases op <;> trivial
  · cases op <;> trivial
  · cases op <;> trivial
  · trivial

theorem trueOf_compareRuntime (l r : RuntimeValue) (op : BinaryOperator) (context : String) :
    Ends (fun _ ↦ True) (EvalError.TrueOf ctx plan) (compareRuntimeRuntime l r op context) := by
  cases l <;> cases r <;> cases op <;> trivial

theorem trueOf_payloadField (path : CompiledPayloadField) :
    Ends (fun _ ↦ (ctx.payload.getField path).isSome) (EvalError.TrueOf ctx (.payloadField path))
      (payloadValueByPath ctx.payload path) := by
  unfold payloadValueByPath
  cases hvalue : ctx.payload.getField path with
  | some value => rfl
  | none => exact ⟨path, Or.inl rfl, rfl, hvalue⟩

theorem trueOf_clientId : Ends (fun _ ↦ ctx.message.clientId.isSome)
    (EvalError.TrueOf ctx .metaClientId) (metadataText ctx.message.clientId "clientId") := by
  cases hvalue : ctx.message.clientId with
  | some text => rfl
  | none => exact Or.inl ⟨rfl, Or.inl rfl, hvalue⟩

theorem trueOf_username : Ends (fun _ ↦ ctx.message.username.isSome)
    (EvalError.TrueOf ctx .metaUsername) (metadataText ctx.message.username "username") := by
  cases hvalue : ctx.message.username with
  | some text => rfl
  | none => exact Or.inr (Or.inl ⟨rfl, Or.inl rfl, hvalue⟩)

theorem trueOf_topicLevel {v : JsonValue} {level : EvalExprPlan}
    (hv : evaluatePlanValue level ctx = .ok v) :
    Ends (fun _ ↦ True) (EvalError.TrueOf ctx (.topicLevel level)) (topicLevelOf v ctx) := by
  have hlevel : Ends (fun _ ↦ True) (EvalError.TrueOf ctx (.topicLevel level))
      (valueToNonNegativeU64 v "topic_level") := by
    unfold valueToNonNegativeU64
    split
    · trivial
    · split
      · trivial
      · split <;> trivial
  rw [topicLevelOf_eq]
  refine hlevel.bind fun n hn _ ↦ ?_
  cases hpart : ctx.topicParts[levelIndex n]? with
  | some part => trivial
  | none => exact Or.inr (Or.inr ⟨rfl, level, n, Or.inl rfl, ⟨v, hv, hn⟩, hpart⟩)

theorem trueOf_property {v : JsonValue} {key : EvalExprPlan}
    (hv : evaluatePlanValue key ctx = .ok v) :
    Ends (fun _ ↦ ∃ name, v = .string name ∧ (ctx.message.properties.lookup name).isSome)
      (EvalError.TrueOf ctx (.propertiesKey key)) (propertyOf v ctx) := by
  unfold propertyOf
  cases v with
  | string name =>
      dsimp only [JsonValue.asStr]
      cases hvalue : ctx.message.properties.lookup name with
      | some value => exact ⟨name, rfl, by rw [hvalue]; rfl⟩
      | none => exact ⟨key, Or.inl rfl, hv, hvalue⟩
  | _ => trivial

/-! ## Every plan -/

/-- How the three evaluators end: a value needs all that the plan mentions, and errors are true. -/
structure Judged (ctx : EvalContext) (plan : EvalExprPlan) : Prop where
  value : Ends (fun _ ↦ plan.Supplied ctx) (EvalError.TrueOf ctx plan) (evaluatePlanValue plan ctx)
  runtime : Ends (fun r ↦ r.isSome → plan.Supplied ctx) (EvalError.TrueOf ctx plan)
    (evaluatePlanRuntimeValue plan ctx)
  bool : Ends (fun _ ↦ plan.Supplied ctx) (EvalError.TrueOf ctx plan) (evaluatePlanBool plan ctx)

theorem supplied_leaf (hleaf : ∀ part, plan.Mentions part → part = plan ∨ False)
    (h : plan.Present ctx) : plan.Supplied ctx := by
  intro part hpart
  rw [(hleaf part hpart).resolve_right id]
  exact h

namespace Judged

theorem ofValue (hvalue : Ends (fun _ ↦ plan.Supplied ctx) (EvalError.TrueOf ctx plan)
      (evaluatePlanValue plan ctx))
    (hruntime : Ends (fun r ↦ r.isSome → plan.Supplied ctx) (EvalError.TrueOf ctx plan)
      (evaluatePlanRuntimeValue plan ctx))
    (hbool : evaluatePlanBool plan ctx = (evaluatePlanValue plan ctx).bind expectBool) :
    Judged ctx plan := by
  refine ⟨hvalue, hruntime, ?_⟩
  rw [hbool]
  refine hvalue.bind fun v _ hsupplied ↦ ?_
  exact (trueOf_expectBool v).mono (fun _ _ ↦ hsupplied) fun _ h ↦ h

-- errors of an operand are errors of the operation
theorem ofLeft {α : Type} {post : α → Prop} {x : Except EvalError α}
    (h : Ends post (EvalError.TrueOf ctx left) x) :
    Ends post (EvalError.TrueOf ctx (.binary left op right)) x :=
  h.mono (fun _ ha ↦ ha) fun _ he ↦ he.mono fun _ hp ↦ Or.inr (Or.inl hp)

theorem ofRight {α : Type} {post : α → Prop} {x : Except EvalError α}
    (h : Ends post (EvalError.TrueOf ctx right) x) :
    Ends post (EvalError.TrueOf ctx (.binary left op right)) x :=
  h.mono (fun _ ha ↦ ha) fun _ he ↦ he.mono fun _ hp ↦ Or.inr (Or.inr hp)

theorem supplied_binary (hleft : left.Supplied ctx) (hright : right.Supplied ctx) :
    (EvalExprPlan.binary left op right).Supplied ctx := by
  intro part hpart
  rcases hpart with rfl | hpart | hpart
  · trivial
  · exact hleft part hpart
  · exact hright part hpart

theorem logical (hl : Judged ctx left) (hr : Judged ctx right) (hop : op.isLogical = true) :
    Ends (fun _ ↦ (EvalExprPlan.binary left op right).Supplied ctx)
      (EvalError.TrueOf ctx (.binary left op right)) (evaluatePlanBool (.binary left op right) ctx) := by
  rw [evaluatePlanBool, if_pos hop]
  refine (ofLeft hl.bool).bind fun a _ hleft ↦ (ofRight hr.bool).bind fun b _ hright ↦ ?_
  cases op <;> exact supplied_binary hleft hright

theorem slowCompare (hl : Judged ctx left) (hr : Judged ctx right) :
    Ends (fun _ ↦ (EvalExprPlan.binary left op right).Supplied ctx)
      (EvalError.TrueOf ctx (.binary left op right)) (slowCompare left op right ctx) := by
  refine (ofLeft hl.value).bind fun v _ hleft ↦ (ofRight hr.value).bind fun w _ hright ↦ ?_
  exact (trueOf_compareValues v w op _).mono (fun _ _ ↦ supplied_binary hleft hright) fun _ h ↦ h

theorem compareBool (hl : Judged ctx left) (hr : Judged ctx right) :
    Ends (fun decided ↦ decided.isSome → (EvalExprPlan.binary left op right).Supplied ctx)
      (EvalError.TrueOf ctx (.binary left op right)) (evaluatePlanCompareBool left op right ctx) := by
  rw [evaluatePlanCompareBool]
  refine (ofLeft hl.runtime).bind fun l _ hleft ↦ ?_
  cases l with
  | none => exact fun h ↦ absurd h Bool.false_ne_true
  | some l =>
      refine (ofRight hr.runtime).bind fun r _ hright ↦ ?_
      cases r with
      | none => exact fun h ↦ absurd h Bool.false_ne_true
      | some r =>
          exact (trueOf_compareRuntime l r op "predicate").map
            fun b _ _ _ ↦ supplied_binary (hleft rfl) (hright rfl)

theorem valueBinary (hl : Judged ctx left) (hr : Judged ctx right) :
    Ends (fun _ ↦ (EvalExprPlan.binary left op right).Supplied ctx)
      (EvalError.TrueOf ctx (.binary left op right)) (evaluatePlanValue (.binary left op right) ctx) := by
  rw [evaluatePlanValue]
  split
  · rename_i hlogical
    exact (hl.logical hr hlogical).map fun _ _ h ↦ h
  · refine (ofLeft hl.value).bind fun v _ hleft ↦ (ofRight hr.value).bind fun w _ hright ↦ ?_
    have hsupplied : (EvalExprPlan.binary left op right).Supplied ctx := supplied_binary hleft hright
    split
    · exact (trueOf_arithmetic v w op _).mono (fun _ _ ↦ hsupplied) fun _ h ↦ h
    · split
      · exact (trueOf_compareValues v w op _).map fun _ _ _ ↦ hsupplied
      · trivial

theorem binary (hl : Judged ctx left) (hr : Judged ctx right) :
    Judged ctx (.binary left op right) := by
  have hvalue : Ends (fun _ ↦ (EvalExprPlan.binary left op right).Supplied ctx)
      (EvalError.TrueOf ctx (.binary left op right))
      (evaluatePlanValue (.binary left op right) ctx) := hl.valueBinary hr
  refine ⟨hvalue, ?_, ?_⟩
  · rw [evaluatePlanRuntimeValue]
    exact fun h ↦ absurd h Bool.false_ne_true
  · by_cases hlogical : op.isLogical = true
    · exact hl.logical hr hlogical
    · by_cases hcomp : op.isComparison = true
      · rw [evaluatePlanBool_comparison hcomp]
        refine (hl.compareBool hr).bind fun decided _ hdecided ↦ ?_
        cases decided with
        | some b => exact hdecided rfl
        | none => exact hl.slowCompare hr
      · rw [evaluatePlanBool, if_neg hlogical, if_neg hcomp]
        refine hvalue.bind fun v _ hsupplied ↦ ?_
        exact (trueOf_expectBool v).mono (fun _ _ ↦ hsupplied) fun _ h ↦ h

theorem topicLevel {level : EvalExprPlan} (hl : Judged ctx level) :
    Judged ctx (.topicLevel level) := by
  have hlift : Ends (fun _ ↦ level.Supplied ctx) (EvalError.TrueOf ctx (.topicLevel level))
      (evaluatePlanValue level ctx) :=
    hl.value.mono (fun _ h ↦ h) fun _ he ↦ he.mono fun _ hp ↦ Or.inr hp
  have hsupplied (h : level.Supplied ctx) : (EvalExprPlan.topicLevel level).Supplied ctx := by
    intro part hpart
    rcases hpart with rfl | hpart
    · trivial
    · exact h part hpart
  refine .ofValue ?_ ?_ (by rw [evaluatePlanBool]; rfl)
  · rw [evaluatePlanValue]
    exact hlift.bind fun v hv h ↦ (trueOf_topicLevel hv).map fun _ _ _ ↦ hsupplied h
  · rw [evaluatePlanRuntimeValue]
    exact hlift.bind fun v hv h ↦ (trueOf_topicLevel hv).map fun _ _ _ _ ↦ hsupplied h

theorem propertiesKey {key : EvalExprPlan} (hk : Judged ctx key) :
    Judged ctx (.propertiesKey key) := by
  have hlift : Ends (fun _ ↦ key.Supplied ctx) (EvalError.TrueOf ctx (.propertiesKey key))
      (evaluatePlanValue key ctx) :=
    hk.value.mono (fun _ h ↦ h) fun _ he ↦ he.mono fun _ hp ↦ Or.inr hp
  have hsupplied (v : JsonValue) (hv : evaluatePlanValue key ctx = .ok v) (h : key.Supplied ctx)
      (hname : ∃ name, v = .string name ∧ (ctx.message.properties.lookup name).isSome) :
      (EvalExprPlan.propertiesKey key).Supplied ctx := by
    intro part hpart
    rcases hpart with rfl | hpart
    · obtain ⟨name, rfl, hsome⟩ := hname
      exact ⟨name, hv, hsome⟩
    · exact h part hpart
  refine .ofValue ?_ ?_ (by rw [evaluatePlanBool]; rfl)
  · rw [evaluatePlanValue]
    exact hlift.bind fun v hv h ↦ (trueOf_property hv).map fun _ _ hname ↦ hsupplied v hv h hname
  · rw [evaluatePlanRuntimeValue]
    exact hlift.bind fun v hv h ↦
      (trueOf_property hv).map fun _ _ hname _ ↦ hsupplied v hv h hname

end Judged

theorem judged (ctx : EvalContext) (plan : EvalExprPlan) : Judged ctx plan := by
  induction plan with
  | const value =>
      have hsupplied : (EvalExprPlan.const value).Supplied ctx := supplied_leaf (fun _ h ↦ h) trivial
      refine .ofValue ?_ ?_ (by rw [evaluatePlanBool]; rfl)
      · rw [evaluatePlanValue]
        exact hsupplied
      · cases value <;> simp only [evaluatePlanRuntimeValue] <;> exact fun _ ↦ hsupplied
  | payloadField path =>
      have hsupplied (h : (ctx.payload.getField path).isSome) :
          (EvalExprPlan.payloadField path).Supplied ctx := supplied_leaf (fun _ hp ↦ hp) h
      refine .ofValue ?_ ?_ (by rw [evaluatePlanBool]; rfl)
      · rw [evaluatePlanValue]
        exact (trueOf_payloadField path).map fun _ _ h ↦ hsupplied h
      · rw [evaluatePlanRuntimeValue]
        refine (trueOf_payloadField path).bind fun value _ h ↦ ?_
        cases value <;> first | exact fun _ ↦ hsupplied h | trivial
  | metaQos | metaRetain | metaDup | metaTimestamp =>
      refine .ofValue ?_ ?_ (by rw [evaluatePlanBool]; rfl)
      · rw [evaluatePlanValue]
        exact supplied_leaf (fun _ hp ↦ hp) trivial
      · rw [evaluatePlanRuntimeValue]
        exact fun _ ↦ supplied_leaf (fun _ hp ↦ hp) trivial
  | metaClientId =>
      have hsupplied (h : ctx.message.clientId.isSome) : EvalExprPlan.metaClientId.Supplied ctx :=
        supplied_leaf (fun _ hp ↦ hp) h
      refine .ofValue ?_ ?_ (by rw [evaluatePlanBool]; rfl)
      · rw [evaluatePlanValue]
        exact trueOf_clientId.map fun _ _ h ↦ hsupplied h
      · rw [evaluatePlanRuntimeValue]
        exact trueOf_clientId.map fun _ _ h _ ↦ hsupplied h
  | metaUsername =>
      have hsupplied (h : ctx.message.username.isSome) : EvalExprPlan.metaUsername.Supplied ctx :=
        supplied_leaf (fun _ hp ↦ hp) h
      refine .ofValue ?_ ?_ (by rw [evaluatePlanBool]; rfl)
      · rw [evaluatePlanValue]
        exact trueOf_username.map fun _ _ h ↦ hsupplied h
      · rw [evaluatePlanRuntimeValue]
        exact trueOf_username.map fun _ _ h _ ↦ hsupplied h
  | binary left op right ihl ihr => exact ihl.binary ihr
  | topicLevel level ih => exact ih.topicLevel
  | propertiesKey key ih => exact ih.propertiesKey
  | unknown expr =>
      refine .ofValue ?_ ?_ (by rw [evaluatePlanBool]; rfl)
      · rw [evaluatePlanValue]
        trivial
      · rw [evaluatePlanRuntimeValue]
        exact fun h ↦ absurd h Bool.false_ne_true

end Plans

/-! ## Rules of an engine -/

/-- The part occurs in the WHERE clause or in a column of the rule. -/
def CompiledRule.Mentions (rule : CompiledRule) (part : EvalExprPlan) : Prop :=
  (∃ plan ∈ rule.wherePlan, plan.Mentions part) ∨
    ∃ columns, rule.selectPlan = .columns columns ∧ ∃ column ∈ columns, column.expr.Mentions part

/-- The message has what the rule mentions, and its payload the required fields. -/
structure SuppliedBy (C : Crates) (decoder : PayloadDecoder) (message : Message) (rule : CompiledRule) :
    Prop where
  field : ∀ f ∈ rule.requiredPayloadFields, ∃ find,
    payloadView C message.payload (payloadSchema decoder rule) decoder = some find ∧
      (find f.segments).isSome
  property : ∀ key, rule.Mentions (.propertiesKey (.const (.string key))) →
    (message.properties.lookup key).isSome
  clientId : rule.Mentions .metaClientId → message.clientId.isSome
  username : rule.Mentions .metaUsername → message.username.isSome

/-- The context in which the rule is evaluated: the fields it requires are those of the payload. -/
structure EvalContext.Of (C : Crates) (decoder : PayloadDecoder) (message : Message)
    (rule : CompiledRule) (ctx : EvalContext) : Prop where
  message_eq : ctx.message = message
  topicParts_eq : ctx.topicParts = levels message.topic
  payload_eq : ∀ f ∈ rule.requiredPayloadFields, ∃ find,
    payloadView C message.payload (payloadSchema decoder rule) decoder = some find ∧
      ctx.payload.getField f = find f.segments

/-- What the error calls missing is mentioned in the rule, and the message does not have it. -/
def EvalError.TrueOfRule (C : Crates) (decoder : PayloadDecoder) (message : Message)
    (rule : CompiledRule) : EvalError → Prop
  | .missingPayloadField key => ∃ f ∈ rule.requiredPayloadFields, f.key = key ∧ ∃ find,
      payloadView C message.payload (payloadSchema decoder rule) decoder = some find ∧
        find f.segments = none
  | .missingProperty key => ∃ part ctx, rule.Mentions (.propertiesKey part) ∧
      ctx.Of C decoder message rule ∧ evaluatePlanValue part ctx = .ok (.string key) ∧
      message.properties.lookup key = none
  | .missingMetadata name =>
      name = "clientId" ∧ rule.Mentions .metaClientId ∧ message.clientId = none ∨
        name = "username" ∧ rule.Mentions .metaUsername ∧ message.username = none ∨
        name = "topic level" ∧ ∃ level ctx n, rule.Mentions (.topicLevel level) ∧
          ctx.Of C decoder message rule ∧ level.Selects ctx n ∧ (levels message.topic).length < n
  | _ => True

section Rules

variable {C : Crates} {decoder : PayloadDecoder} {rule : CompiledRule} {message : Message} {ir : MsgIr}
  {parts : List String}

theorem reads_iff_mentions {plan : EvalExprPlan} {f : CompiledPayloadField} :
    plan.Reads f ↔ plan.Mentions (.payloadField f) := by
  induction plan with
  | payloadField path => simp [EvalExprPlan.Reads, EvalExprPlan.Mentions]
  | binary left op right ihl ihr => simp [EvalExprPlan.Reads, EvalExprPlan.Mentions, ihl, ihr]
  | topicLevel level ih => simp [EvalExprPlan.Reads, EvalExprPlan.Mentions, ih]
  | propertiesKey key ih => simp [EvalExprPlan.Reads, EvalExprPlan.Mentions, ih]
  | _ => simp [EvalExprPlan.Reads, EvalExprPlan.Mentions]

theorem mem_requiredFields_iff {f : CompiledPayloadField} :
    f ∈ rule.requiredPayloadFields ↔ rule.Mentions (.payloadField f) := by
  rw [rule.hfields, mem_collectRequiredPayloadFields, CompiledRule.Mentions, or_comm]
  apply or_congr
  · simp only [reads_iff_mentions]
  · cases rule.selectPlan <;> simp [SelectPlan.Reads, reads_iff_mentions]

/-- What is true of a part of the rule is true of the rule. -/
theorem EvalError.TrueOf.ofRule {error : EvalError} {ctx : EvalContext} {plan : EvalExprPlan}
    (h : error.TrueOf ctx plan) (hsub : ∀ part, plan.Mentions part → rule.Mentions part)
    (hcontext : ctx.Of C decoder message rule) : error.TrueOfRule C decoder message rule := by
  cases error with
  | missingPayloadField key =>
      obtain ⟨f, hf, hkey, hnone⟩ := h
      have hrequired : f ∈ rule.requiredPayloadFields := mem_requiredFields_iff.mpr (hsub _ hf)
      obtain ⟨find, hfind, hvalue⟩ := hcontext.payload_eq f hrequired
      exact ⟨f, hrequired, hkey, find, hfind, hvalue.symm.trans hnone⟩
  | missingProperty key =>
      obtain ⟨part, hmention, hvalue, hnone⟩ := h
      rw [hcontext.message_eq] at hnone
      exact ⟨part, ctx, hsub _ hmention, hcontext, hvalue, hnone⟩
  | missingMetadata name =>
      rcases h with ⟨hname, hm, hnone⟩ | ⟨hname, hm, hnone⟩ | ⟨hname, level, n, hm, hselects, hnone⟩
      · rw [hcontext.message_eq] at hnone
        exact Or.inl ⟨hname, hsub _ hm, hnone⟩
      · rw [hcontext.message_eq] at hnone
        exact Or.inr (Or.inl ⟨hname, hsub _ hm, hnone⟩)
      · rw [hcontext.topicParts_eq, List.getElem?_eq_none_iff] at hnone
        -- a topic has a first level, so the number is not that of the first level
        have hpos : 0 < (levels message.topic).length := length_levels_pos message.topic
        refine Or.inr (Or.inr ⟨hname, level, ctx, n, hsub _ hm, hcontext, hselects, ?_⟩)
        unfold levelIndex at hnone
        split at hnone <;> omega
  | _ => exact h

/-- Every part of the rule is there when it has a result. -/
theorem present_of_result {output : Message}
    (h : evaluateRuleWithPayloadAndTopicParts C rule message ir parts = .ok (some output))
    {part : EvalExprPlan} (hpart : rule.Mentions part) : part.Present ⟨message, ir, parts⟩ := by
  obtain ⟨hpredicate, hcolumns⟩ := evaluateRule_some h
  rcases hpart with ⟨plan, hplan, hpart⟩ | ⟨columns, hselect, column, hcolumn, hpart⟩
  · exact (judged _ plan).bool.value (hpredicate plan hplan) part hpart
  · obtain ⟨v, hv⟩ := hcolumns columns hselect column hcolumn
    exact (judged _ column.expr).value.value hv part hpart

/-- An error of the rule is true of its WHERE clause or of a column. -/
theorem trueOf_of_error {error : EvalError}
    (h : evaluateRuleWithPayloadAndTopicParts C rule message ir parts = .error error) :
    error = .projectionSerialization ∨ ∃ plan, (∀ part, plan.Mentions part → rule.Mentions part) ∧
      error.TrueOf ⟨message, ir, parts⟩ plan := by
  rcases evaluateRule_error h with ⟨plan, hplan, herror⟩ |
    ⟨columns, hselect, rfl | ⟨column, hcolumn, herror⟩⟩
  · exact Or.inr ⟨plan, fun part hpart ↦ Or.inl ⟨plan, hplan, hpart⟩, (judged _ plan).bool.error herror⟩
  · exact Or.inl rfl
  · exact Or.inr ⟨column.expr, fun part hpart ↦ Or.inr ⟨columns, hselect, column, hcolumn, hpart⟩,
      (judged _ column.expr).value.error herror⟩

end Rules

/-- What one attempt says of its rule and the message. -/
structure Explained (C : Crates) (decoder : PayloadDecoder) (message : Message) (rule : CompiledRule)
    (attempt : EvalAttempt) : Prop where
  matched : matchTopic rule.topicFilter message.topic = true
  supplied : attempt.evaluation ≠ none → SuppliedBy C decoder message rule
  truthful : ∀ error, attempt.error = some error → error.TrueOfRule C decoder message rule
  result : ∀ result, attempt.evaluation = some result →
    result.ruleIndex = attempt.ruleIndex ∧ result.message.topic = message.topic

section Engine

variable {C : Crates} {decoder : PayloadDecoder} {rules : List (Option CompiledRule)}
  {message : Message} {i : Nat}

theorem exists_explained (hi : i ∈ matchedSlots rules message) {attempt : EvalAttempt}
    (hattempt : slotAttempt C decoder rules message i = some attempt) :
    ∃ rule, liveRule rules attempt.ruleIndex = some rule ∧
      Explained C decoder message rule attempt := by
  obtain ⟨rfl, rule, ir, hrule, hpayload, herrors, hresults⟩ := exists_of_slotAttempt hattempt
  have hcontext : EvalContext.Of C decoder message rule ⟨message, ir, levels message.topic⟩ := by
    refine ⟨rfl, rfl, fun f hf ↦ ?_⟩
    rw [← slotSchema_eq hrule]
    exact exists_view hrule (mem_schemaSlots.mpr ⟨hi, rfl⟩) hpayload hf
  obtain ⟨rule', hrule', hmatch⟩ := mem_matchedSlots.mp hi
  obtain rfl : rule' = rule := Option.some.inj (hrule'.symm.trans hrule)
  refine ⟨rule', hrule, hmatch, fun hresult ↦ ?_, fun error herror ↦ ?_, fun result hresult ↦ ?_⟩
  · obtain ⟨result, hresult⟩ := Option.ne_none_iff_exists'.mp hresult
    obtain ⟨-, houtput⟩ := hresults result hresult
    constructor
    · intro f hf
      obtain ⟨find, hfind, hvalue⟩ := hcontext.payload_eq f hf
      have hpresent := present_of_result houtput (mem_requiredFields_iff.mp hf)
      exact ⟨find, hfind, hvalue ▸ hpresent⟩
    · intro key hmentions
      obtain ⟨name, hname, hsome⟩ := present_of_result houtput hmentions
      rw [evaluatePlanValue] at hname
      cases hname
      exact hsome
    · exact fun hmentions ↦ present_of_result houtput hmentions
    · exact fun hmentions ↦ present_of_result houtput hmentions
  · rcases trueOf_of_error (herrors error herror) with rfl | ⟨plan, hsub, htrue⟩
    · trivial
    · exact htrue.ofRule hsub hcontext
  · obtain ⟨hindex, houtput⟩ := hresults result hresult
    exact ⟨hindex, topic_of_result houtput⟩

variable {capacity : Nat} {engine : RuleEngine}

theorem explained (h : (engineSystem C decoder capacity).Reachable engine) (order : HashOrder)
    (message : Message) {attempt : EvalAttempt}
    (hmem : attempt ∈ (engine.evaluate C order message).2.attempts) :
    ∃ rule, liveRule engine.rules attempt.ruleIndex = some rule ∧
      Explained C decoder message rule attempt := by
  obtain ⟨hattempts, -⟩ := (wellFormed h).outcome (C := C) (cachedOnce h) order message
  obtain ⟨i, hi, hattempt⟩ := List.mem_filterMap.mp (hattempts.mem_iff.mp hmem)
  exact exists_explained hi hattempt

end Engine

/-- In every engine of a run, a rule has a result only where the message has all that the rule mentions,
and what an error calls missing is mentioned in the rule and missing from the message. -/
theorem outcomes_explained {C : Crates} {decoder : PayloadDecoder} {capacity : Nat}
    {engine : RuleEngine} (h : (engineSystem C decoder capacity).Reachable engine) (order : HashOrder)
    (message : Message) :
    ∀ attempt ∈ (engine.evaluate C order message).2.attempts,
      ∃ rule, liveRule engine.rules attempt.ruleIndex = some rule ∧
        (attempt.evaluation ≠ none → SuppliedBy C decoder message rule) ∧
        ∀ error, attempt.error = some error → error.TrueOfRule C decoder message rule := by
  intro attempt hmem
  obtain ⟨rule, hrule, hexplained⟩ := explained h order message hmem
  exact ⟨rule, hrule, hexplained.supplied, hexplained.truthful⟩

-- one of the two rules matches, and has a result
theorem outcomes_explained_demo :
    ((demoEngine [selectAll "t", selectTemp "u"]).evaluate demoCrates .increasing
        (Message.new "t" [])).2.results.length = 1 ∧
      ∀ attempt ∈ ((demoEngine [selectAll "t", selectTemp "u"]).evaluate demoCrates .increasing
        (Message.new "t" [])).2.attempts,
      ∃ rule, liveRule (demoEngine [selectAll "t", selectTemp "u"]).rules attempt.ruleIndex = some rule ∧
        (attempt.evaluation ≠ none → SuppliedBy demoCrates .json (Message.new "t" []) rule) ∧
        ∀ error, attempt.error = some error →
          error.TrueOfRule demoCrates .json (Message.new "t" []) rule :=
  ⟨rfl, outcomes_explained (reachable_demoEngine _) .increasing (Message.new "t" [])⟩

end Tenon.Core
