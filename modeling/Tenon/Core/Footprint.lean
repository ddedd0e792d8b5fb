import Tenon.Core.RuleEval

/-!
# Footprint — a rule reads only what it declares

Two contexts with one message agree on a plan when they have the same value for every payload field
of the plan, and the same topic levels if the plan asks for any.  All three evaluators return the
same on contexts that agree, so a rule depends on its required fields and topic levels alone.
-/

namespace Tenon.Core

-- the same message with other bytes
def Message.withPayload (message : Message) (payload : List UInt8) : Message :=
  { message with payload := payload }

/-- Contexts that show a plan the same: the bytes of the message are not looked at. -/
structure ReadsAlike (plan : EvalExprPlan) (ctx ctx' : EvalContext) : Prop where
  message : ∃ payload, ctx'.message = ctx.message.withPayload payload
  fields : ∀ f, plan.Reads f → ctx.payload.getField f = ctx'.payload.getField f
  parts : planRequiresTopicParts plan = true → ctx.topicParts = ctx'.topicParts

namespace ReadsAlike

variable {ctx ctx' : EvalContext} {l r p : EvalExprPlan} {op : BinaryOperator}

theorem left (h : ReadsAlike (.binary l op r) ctx ctx') : ReadsAlike l ctx ctx' where
  message := h.message
  fields f hf := h.fields f (Or.inl hf)
  parts hp := h.parts (by simp [planRequiresTopicParts, hp])

theorem right (h : ReadsAlike (.binary l op r) ctx ctx') : ReadsAlike r ctx ctx' where
  message := h.message
  fields f hf := h.fields f (Or.inr hf)
  parts hp := h.parts (by simp [planRequiresTopicParts, hp])

theorem level (h : ReadsAlike (.topicLevel p) ctx ctx') : ReadsAlike p ctx ctx' where
  message := h.message
  fields f hf := h.fields f hf
  -- the detection stops at a topic level, which needs the parts in any case
  parts _ := h.parts rfl

theorem key (h : ReadsAlike (.propertiesKey p) ctx ctx') : ReadsAlike p ctx ctx' where
  message := h.message
  fields f hf := h.fields f hf
  parts hp := h.parts hp

end ReadsAlike

/-- All three evaluators return the same on contexts that show the plan the same. -/
theorem evaluatePlan_of_readsAlike {plan : EvalExprPlan} {ctx ctx' : EvalContext}
    (h : ReadsAlike plan ctx ctx') :
    evaluatePlanValue plan ctx = evaluatePlanValue plan ctx' ∧
      evaluatePlanRuntimeValue plan ctx = evaluatePlanRuntimeValue plan ctx' ∧
      evaluatePlanBool plan ctx = evaluatePlanBool plan ctx' := by
  obtain ⟨payload, hmsg⟩ := h.message
  induction plan with
  | const value =>
      cases value <;> simp only [evaluatePlanValue, evaluatePlanRuntimeValue, evaluatePlanBool,
        and_self]
  | payloadField path =>
      have hpath : payloadValueByPath ctx.payload path = payloadValueByPath ctx'.payload path := by
        rw [payloadValueByPath, payloadValueByPath, h.fields path rfl]
      simp only [evaluatePlanValue, evaluatePlanRuntimeValue, evaluatePlanBool, hpath, and_self]
  | binary left op right ihl ihr =>
      rcases ihl h.left with ⟨hlv, hlr, hlb⟩
      rcases ihr h.right with ⟨hrv, hrr, hrb⟩
      have hcmp : evaluatePlanCompareBool left op right ctx =
          evaluatePlanCompareBool left op right ctx' := by
        simp only [evaluatePlanCompareBool, hlr, hrr]
      have hrun : evaluatePlanRuntimeValue (.binary left op right) ctx =
          evaluatePlanRuntimeValue (.binary left op right) ctx' := by
        simp only [evaluatePlanRuntimeValue]
      by_cases hop : op.isLogical = true
      · -- the value of a logical operation goes through its truth value
        have hbool : evaluatePlanBool (.binary left op right) ctx =
            evaluatePlanBool (.binary left op right) ctx' := by
          simp only [evaluatePlanBool, hop, if_true, hlb, hrb]
        have hvalue : evaluatePlanValue (.binary left op right) ctx =
            evaluatePlanValue (.binary left op right) ctx' := by
          simp only [evaluatePlanValue, hop, if_true, hbool]
        exact ⟨hvalue, hrun, hbool⟩
      · -- the truth value of any other operation falls back on its value
        have hvalue : evaluatePlanValue (.binary left op right) ctx =
            evaluatePlanValue (.binary left op right) ctx' := by
          simp only [evaluatePlanValue, hop, hlv, hrv]
          rfl
        have hbool : evaluatePlanBool (.binary left op right) ctx =
            evaluatePlanBool (.binary left op right) ctx' := by
          simp only [evaluatePlanBool, hop, hcmp, hlv, hrv, hvalue]
          rfl
        exact ⟨hvalue, hrun, hbool⟩
  | topicLevel level ih =>
      rcases ih h.level with ⟨hv, -, -⟩
      have hlevel (v : JsonValue) : topicLevelOf v ctx = topicLevelOf v ctx' := by
        rw [topicLevelOf, topicLevelOf, h.parts rfl]
      simp only [evaluatePlanValue, evaluatePlanRuntimeValue, evaluatePlanBool, hv, hlevel,
        and_self]
  | propertiesKey key ih =>
      rcases ih h.key with ⟨hv, -, -⟩
      have hkey (v : JsonValue) : propertyOf v ctx = propertyOf v ctx' := by
        rw [propertyOf, propertyOf, hmsg]
        rfl
      simp only [evaluatePlanValue, evaluatePlanRuntimeValue, evaluatePlanBool, hv, hkey, and_self]
  | _ => simp only [evaluatePlanValue, evaluatePlanRuntimeValue, evaluatePlanBool, hmsg,
      Message.withPayload, and_self]

theorem evaluatePlan_withPayload (plan : EvalExprPlan) (message : Message) (ir : MsgIr)
    (parts : List String) (payload : List UInt8) :
    evaluatePlanValue plan ⟨message, ir, parts⟩ =
        evaluatePlanValue plan ⟨message.withPayload payload, ir, parts⟩ ∧
      evaluatePlanBool plan ⟨message, ir, parts⟩ =
        evaluatePlanBool plan ⟨message.withPayload payload, ir, parts⟩ := by
  have halike : ReadsAlike plan ⟨message, ir, parts⟩ ⟨message.withPayload payload, ir, parts⟩ :=
    ⟨⟨payload, rfl⟩, fun _ _ ↦ rfl, fun _ ↦ rfl⟩
  obtain ⟨hvalue, -, hbool⟩ := evaluatePlan_of_readsAlike halike
  exact ⟨hvalue, hbool⟩

structure AgreeOn (plan : EvalExprPlan) (ctx ctx' : EvalContext) : Prop where
  message : ctx.message = ctx'.message
  fields : ∀ f, plan.Reads f → ctx.payload.getField f = ctx'.payload.getField f
  parts : planRequiresTopicParts plan = true → ctx.topicParts = ctx'.topicParts

theorem AgreeOn.readsAlike {plan : EvalExprPlan} {ctx ctx' : EvalContext}
    (h : AgreeOn plan ctx ctx') : ReadsAlike plan ctx ctx' :=
  ⟨⟨ctx.message.payload, h.message.symm⟩, h.fields, h.parts⟩

/-- All three evaluators agree with themselves on contexts that agree on the plan. -/
theorem evaluatePlan_congr {plan : EvalExprPlan} {ctx ctx' : EvalContext}
    (h : AgreeOn plan ctx ctx') :
    evaluatePlanValue plan ctx = evaluatePlanValue plan ctx' ∧
      evaluatePlanRuntimeValue plan ctx = evaluatePlanRuntimeValue plan ctx' ∧
      evaluatePlanBool plan ctx = evaluatePlanBool plan ctx' :=
  evaluatePlan_of_readsAlike h.readsAlike

theorem projectColumns_congr {ctx ctx' : EvalContext} {columns : List PlannedColumn}
    (h : ∀ column ∈ columns, AgreeOn column.expr ctx ctx') (output : JsonMap) :
    projectColumns ctx output columns = projectColumns ctx' output columns := by
  induction columns generalizing output with
  | nil => rfl
  | cons column rest ih =>
      obtain ⟨hvalue, -, -⟩ := evaluatePlan_congr (h column List.mem_cons_self)
      rw [projectColumns, projectColumns, hvalue]
      congr 1
      funext value
      exact ih (fun c hc ↦ h c (List.mem_cons_of_mem _ hc)) _

theorem evaluatePredicate_congr {wherePlan : Option EvalExprPlan} {ctx ctx' : EvalContext}
    (h : ∀ plan ∈ wherePlan, AgreeOn plan ctx ctx') :
    evaluatePredicate wherePlan ctx = evaluatePredicate wherePlan ctx' := by
  cases wherePlan with
  | none => rfl
  | some plan => exact (evaluatePlan_congr (h plan rfl)).2.2

theorem evaluateSelect_congr (C : Crates) {selectPlan : SelectPlan} {ctx ctx' : EvalContext}
    (hmsg : ctx.message = ctx'.message)
    (h : ∀ columns, selectPlan = .columns columns →
      ∀ column ∈ columns, AgreeOn column.expr ctx ctx') :
    evaluateSelect C selectPlan ctx = evaluateSelect C selectPlan ctx' := by
  cases selectPlan with
  | all => rw [evaluateSelect, evaluateSelect, hmsg]
  | columns columns => simp only [evaluateSelect, projectColumns_congr (h columns rfl), hmsg]

/-- The outcome of a rule is determined by the message, its required fields and, if it asks for
them, the topic levels. -/
theorem evaluateRule_congr (C : Crates) (rule : CompiledRule) (message : Message)
    {ir ir' : MsgIr} {parts parts' : List String}
    (hfields : ∀ f ∈ rule.requiredPayloadFields, ir.getField f = ir'.getField f)
    (hparts : rule.requiresTopicParts = true → parts = parts') :
    evaluateRuleWithPayloadAndTopicParts C rule message ir parts =
      evaluateRuleWithPayloadAndTopicParts C rule message ir' parts' := by
  have hwhere : ∀ plan ∈ rule.wherePlan,
      AgreeOn plan ⟨message, ir, parts⟩ ⟨message, ir', parts'⟩ := by
    intro plan hplan
    have hsome : rule.wherePlan = some plan := hplan
    have hrequired : ∀ f, plan.Reads f → f ∈ rule.requiredPayloadFields := by
      intro f hf
      rw [rule.hfields, mem_collectRequiredPayloadFields]
      exact Or.inr ⟨plan, hplan, hf⟩
    have hneeds : planRequiresTopicParts plan = true → rule.requiresTopicParts = true := by
      intro hp
      simp [rule.hparts, hsome, hp]
    exact ⟨rfl, fun f hf ↦ hfields f (hrequired f hf), fun hp ↦ hparts (hneeds hp)⟩
  have hselect : ∀ columns, rule.selectPlan = .columns columns → ∀ column ∈ columns,
      AgreeOn column.expr ⟨message, ir, parts⟩ ⟨message, ir', parts'⟩ := by
    intro columns hplan column hcolumn
    have hrequired : ∀ f, column.expr.Reads f → f ∈ rule.requiredPayloadFields := by
      intro f hf
      rw [rule.hfields, mem_collectRequiredPayloadFields, hplan]
      exact Or.inl ⟨column, hcolumn, hf⟩
    have hneeds : planRequiresTopicParts column.expr = true → rule.requiresTopicParts = true := by
      intro hp
      have hany : selectPlanRequiresTopicParts rule.selectPlan = true := by
        rw [hplan]
        exact List.any_eq_true.mpr ⟨column, hcolumn, hp⟩
      simp [rule.hparts, hany]
    exact ⟨rfl, fun f hf ↦ hfields f (hrequired f hf), fun hp ↦ hparts (hneeds hp)⟩
  have hout : evaluateSelect C rule.selectPlan ⟨message, ir, parts⟩ =
      evaluateSelect C rule.selectPlan ⟨message, ir', parts'⟩ := evaluateSelect_congr C rfl hselect
  simp only [evaluateRuleWithPayloadAndTopicParts, evaluatePredicate_congr hwhere, hout]

end Tenon.Core
