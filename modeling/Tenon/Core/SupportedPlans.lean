import Tenon.Core.AcceptedQueries

/-!
# SupportedPlans — which accepted rules the evaluators can run

The compiler refuses expressions it does not understand but takes any binary operator; the evaluators
implement twelve.  A rule whose operators are among the twelve fails as unsupported only where
arithmetic leaves the finite numbers.
-/

open Reasoning.Binary64

namespace Tenon.Core

/-- One of the twelve operators of the evaluators. -/
def BinaryOperator.isImplemented (op : BinaryOperator) : Bool :=
  op.isLogical || op.isComparison || op.isArithmetic

/-- The operator occurs in the plan. -/
def EvalExprPlan.Operates (op : BinaryOperator) : EvalExprPlan → Prop
  | .binary left o right => o = op ∨ left.Operates op ∨ right.Operates op
  | .topicLevel level => level.Operates op
  | .propertiesKey key => key.Operates op
  | _ => False

/-- The operator occurs in a part of the expression that is compiled. -/
inductive Expr.Operates (nameToString : ObjectName → String) (op : BinaryOperator) : Expr → Prop where
  | here (left right : Expr) : Operates nameToString op (.binaryOp left op right)
  | left {l : Expr} (o : BinaryOperator) (r : Expr) (h : Operates nameToString op l) :
      Operates nameToString op (.binaryOp l o r)
  | right {r : Expr} (l : Expr) (o : BinaryOperator) (h : Operates nameToString op r) :
      Operates nameToString op (.binaryOp l o r)
  | nested {inner : Expr} (h : Operates nameToString op inner) :
      Operates nameToString op (.nested inner)
  | topicLevel {name : ObjectName} {level : Expr} (first : FunctionArg Expr)
      (clauses : List Expr) (hname : (nameToString name).toLower = "topic_level")
      (h : Operates nameToString op level) :
      Operates nameToString op (.function name (.list [first, .unnamedExpr level]) clauses)
  | mapKey {ident : Ident} {key : Expr} (others : List Expr) (hident : ident.value = "properties")
      (h : Operates nameToString op key) :
      Operates nameToString op (.mapAccess (.identifier ident) (key :: others))
  | index {ident : Ident} {key : Expr} (others : List Expr) (hident : ident.value = "properties")
      (h : Operates nameToString op key) :
      Operates nameToString op (.arrayIndex (.identifier ident) (key :: others))

/-! ## Operators through compilation -/

-- folding only removes operators that are implemented
theorem operates_foldBinaryPlan {left right : EvalExprPlan} {op o : BinaryOperator}
    (h : (foldBinaryPlan left o right).Operates op) :
    o = op ∨ left.Operates op ∨ right.Operates op := by
  unfold foldBinaryPlan at h
  split at h
  · exact h.elim
  · exact h

theorem operates_of_foldBinaryPlan {left right : EvalExprPlan} {op o : BinaryOperator}
    (hop : op.isImplemented = false) (h : o = op ∨ left.Operates op ∨ right.Operates op) :
    (foldBinaryPlan left o right).Operates op := by
  unfold foldBinaryPlan
  split
  · rename_i v hfold
    cases left with
    | const a =>
        cases right with
        | const b =>
            rcases h with rfl | h | h
            · rcases fold_cases hfold with ⟨harith, -⟩ | ⟨hcomp, -⟩ | ⟨l, r, -, -, hlogical⟩
              · rw [BinaryOperator.isImplemented, harith, Bool.or_true] at hop
                cases hop
              · rw [BinaryOperator.isImplemented, hcomp, Bool.or_true] at hop
                cases hop
              · rcases hlogical with ⟨rfl, -⟩ | ⟨rfl, -⟩ <;> cases hop
            · exact h
            · exact h
        | _ => cases hfold
    | _ => cases hfold
  · exact h

theorem not_operates_compileIdent (value : String) (op : BinaryOperator) :
    ¬ (compileIdent value).Operates op := by
  unfold compileIdent
  split <;> exact id

theorem not_operates_compileValue (v : SqlValue) (op : BinaryOperator) :
    ¬ (compileValue v).Operates op := by
  unfold compileValue
  split
  · split <;> exact id
  · exact id
  · exact id
  · exact id

/-- The operators of a plan are operators of its expression. -/
theorem operates_of_plan {nameToString : ObjectName → String} {expr : Expr} {op : BinaryOperator}
    (h : (compileExprPlan nameToString expr).Operates op) : expr.Operates nameToString op := by
  unfold compileExprPlan at h
  fun_induction compileExprPlanWith nameToString foldBinaryPlan expr with
  | case1 ident => exact absurd h (not_operates_compileIdent ident.value op)
  | case2 idents => exact h.elim
  | case3 v => exact absurd h (not_operates_compileValue v op)
  | case4 left o right ihl ihr =>
      rcases operates_foldBinaryPlan h with rfl | h | h
      · exact .here left right
      · exact .left o right (ihl h)
      · exact .right left o (ihr h)
  | case5 inner ih => exact .nested (ih h)
  | case6 name clauses hname first levelExpr ih => exact .topicLevel first clauses hname (ih h)
  | case9 ident firstKey others hident ih => exact .mapKey others hident (ih h)
  | case12 ident firstIndex others hident ih => exact .index others hident (ih h)
  | _ => exact h.elim

/-- An operator that is not implemented is still there after compilation. -/
theorem operates_of_expr {nameToString : ObjectName → String} {expr : Expr} {op : BinaryOperator}
    (hop : op.isImplemented = false) (h : expr.Operates nameToString op) :
    (compileExprPlan nameToString expr).Operates op := by
  unfold compileExprPlan
  induction h with
  | here left right =>
      rw [compileExprPlanWith]
      exact operates_of_foldBinaryPlan hop (Or.inl rfl)
  | left o r _ ih =>
      rw [compileExprPlanWith]
      exact operates_of_foldBinaryPlan hop (Or.inr (Or.inl ih))
  | right l o _ ih =>
      rw [compileExprPlanWith]
      exact operates_of_foldBinaryPlan hop (Or.inr (Or.inr ih))
  | nested _ ih =>
      rw [compileExprPlanWith]
      exact ih
  | topicLevel first clauses hname _ ih =>
      rw [compileExprPlanWith, if_pos hname]
      exact ih
  | mapKey others hident _ ih =>
      simp only [compileExprPlanWith, if_pos hident]
      exact ih
  | index others hident _ ih =>
      simp only [compileExprPlanWith, if_pos hident]
      exact ih

/-! ## Unsupported evaluations -/

def Unsupported {α : Type} (x : Except EvalError α) : Prop :=
  ∃ context, x = .error (.unsupportedExpression context)

namespace Unsupported

variable {α β : Type}

theorem bind {x : Except EvalError α} {f : α → Except EvalError β} (h : Unsupported (x.bind f)) :
    Unsupported x ∨ ∃ a, x = .ok a ∧ Unsupported (f a) := by
  rcases h with ⟨context, h⟩
  cases x with
  | error e => exact Or.inl ⟨context, by cases h; rfl⟩
  | ok a => exact Or.inr ⟨a, rfl, context, h⟩

theorem of_map {x : Except EvalError α} {f : α → β} (h : Unsupported (x.map f)) : Unsupported x := by
  rcases h with ⟨context, h⟩
  cases x with
  | error e => exact ⟨context, by cases h; rfl⟩
  | ok a => cases h

end Unsupported

theorem not_unsupported_ok {α : Type} {a : α} : ¬ Unsupported (.ok a : Except EvalError α) :=
  fun h ↦ nomatch h.choose_spec

theorem not_unsupported_metadataText (value : Option String) (name : String) :
    ¬ Unsupported (metadataText value name) := by
  cases value <;> exact fun h ↦ nomatch h.choose_spec

theorem not_unsupported_payloadValueByPath (payload : MsgIr) (path : CompiledPayloadField) :
    ¬ Unsupported (payloadValueByPath payload path) := by
  unfold payloadValueByPath
  split <;> exact fun h ↦ nomatch h.choose_spec

theorem not_unsupported_payloadRuntimeValue (value : PayloadValue) :
    ¬ Unsupported (payloadRuntimeValue value) := by
  cases value <;> exact fun h ↦ nomatch h.choose_spec

theorem not_unsupported_expectBool (value : JsonValue) : ¬ Unsupported (expectBool value) := by
  cases value <;> exact fun h ↦ nomatch h.choose_spec

theorem not_unsupported_propertyOf (keyValue : JsonValue) (ctx : EvalContext) :
    ¬ Unsupported (propertyOf keyValue ctx) := by
  unfold propertyOf
  split
  · exact fun h ↦ nomatch h.choose_spec
  · split <;> exact fun h ↦ nomatch h.choose_spec

theorem not_unsupported_topicLevelOf (levelValue : JsonValue) (ctx : EvalContext) :
    ¬ Unsupported (topicLevelOf levelValue ctx) := by
  intro h
  rcases h.bind with h | ⟨level, -, h⟩
  · unfold valueToNonNegativeU64 at h
    split at h
    · exact not_unsupported_ok h
    · split at h
      · exact nomatch h.choose_spec
      · split at h <;> exact nomatch h.choose_spec
  · dsimp only at h
    generalize (if level = 0 then 0 else level - 1) = index at h
    split at h <;> exact nomatch h.choose_spec

theorem not_unsupported_compareRuntimeRuntime {op : BinaryOperator} (hop : op.isComparison = true)
    (l r : RuntimeValue) (context : String) :
    ¬ Unsupported (compareRuntimeRuntime l r op context) := by
  intro h
  rcases h with ⟨c, h⟩
  cases l <;> cases r <;> cases op <;> cases hop <;> cases h

theorem not_unsupported_numericOperands (v w : JsonValue) (op : BinaryOperator) (context : String) :
    ¬ Unsupported (numericOperands v w op context) := by
  unfold numericOperands
  split <;> exact fun h ↦ nomatch h.choose_spec

theorem not_unsupported_compareValuesRuntime {op : BinaryOperator} (hop : op.isComparison = true)
    (v w : JsonValue) (context : String) :
    ¬ Unsupported (compareValuesRuntime v w op context) := by
  intro h
  unfold compareValuesRuntime at h
  split at h
  · rcases h.bind with h | ⟨operands, -, c, h⟩
    · exact not_unsupported_numericOperands _ _ op context h
    · cases op <;> cases hop <;> cases h
  · rcases h with ⟨c, h⟩
    cases op <;> cases hop <;> cases h
  · rcases h with ⟨c, h⟩
    cases op <;> cases hop <;> cases h
  · exact nomatch h.choose_spec

/-! ## Arithmetic that leaves the finite numbers -/

/-- An arithmetic operation on two numbers whose result is infinite or not a number. -/
def NonFiniteResult (op : BinaryOperator) (v w : JsonValue) : Prop :=
  ∃ x y z, v.asF64 = some x ∧ w.asF64 = some y ∧ applyArithmetic op x y = some z ∧
    z.isFinite = false

/-- Some operation of the plan has two numbers for operands and a result that is not finite. -/
def EvalExprPlan.NonFiniteArithmetic (ctx : EvalContext) : EvalExprPlan → Prop
  | .binary left op right =>
      (∃ v w, evaluatePlanValue left ctx = .ok v ∧ evaluatePlanValue right ctx = .ok w ∧
        NonFiniteResult op v w) ∨
      left.NonFiniteArithmetic ctx ∨ right.NonFiniteArithmetic ctx
  | .topicLevel level => level.NonFiniteArithmetic ctx
  | .propertiesKey key => key.NonFiniteArithmetic ctx
  | _ => False

theorem nonFiniteResult_of_unsupported {op : BinaryOperator} (hop : op.isArithmetic = true)
    {v w : JsonValue} {context : String}
    (h : Unsupported (evaluateArithmeticRuntime v w op context)) : NonFiniteResult op v w := by
  rcases h.bind with h | ⟨⟨x, y⟩, hoperands, h⟩
  · exact absurd h (not_unsupported_numericOperands v w op context)
  · have hxy : v.asF64 = some x ∧ w.asF64 = some y := by
      unfold numericOperands at hoperands
      split at hoperands
      · rename_i l r hl hr
        cases hoperands
        exact ⟨hl, hr⟩
      · cases hoperands
    obtain ⟨z, hz⟩ : ∃ z, applyArithmetic op x y = some z := by
      cases op <;> first | exact ⟨_, rfl⟩ | cases hop
    have hnot : z.isFinite = false := by
      by_contra hfinite
      rw [Bool.not_eq_false] at hfinite
      dsimp only at h
      rw [hz, Option.bind_some, Number.fromF64, dif_pos hfinite] at h
      exact not_unsupported_ok h
    exact ⟨x, y, z, hxy.1, hxy.2, hz, hnot⟩

/-- How a plan can fail as unsupported in each of the three evaluators: only by arithmetic. -/
structure SafePlan (plan : EvalExprPlan) (ctx : EvalContext) : Prop where
  value : Unsupported (evaluatePlanValue plan ctx) → plan.NonFiniteArithmetic ctx
  runtime : Unsupported (evaluatePlanRuntimeValue plan ctx) → plan.NonFiniteArithmetic ctx
  bool : Unsupported (evaluatePlanBool plan ctx) → plan.NonFiniteArithmetic ctx

namespace SafePlan

variable {ctx : EvalContext} {left right plan : EvalExprPlan} {op : BinaryOperator}

-- the truth value of most plans is read off the value
theorem bool_of_value (hbool : evaluatePlanBool plan ctx = (evaluatePlanValue plan ctx).bind expectBool)
    (hvalue : Unsupported (evaluatePlanValue plan ctx) → plan.NonFiniteArithmetic ctx)
    (h : Unsupported (evaluatePlanBool plan ctx)) : plan.NonFiniteArithmetic ctx := by
  rw [hbool] at h
  rcases h.bind with h | ⟨v, -, h⟩
  · exact hvalue h
  · exact absurd h (not_unsupported_expectBool v)

theorem compareBool (hl : SafePlan left ctx) (hr : SafePlan right ctx) (hop : op.isComparison = true)
    (h : Unsupported (evaluatePlanCompareBool left op right ctx)) :
    left.NonFiniteArithmetic ctx ∨ right.NonFiniteArithmetic ctx := by
  rw [evaluatePlanCompareBool] at h
  rcases h.bind with h | ⟨l, -, h⟩
  · exact Or.inl (hl.runtime h)
  · cases l with
    | none => exact absurd h not_unsupported_ok
    | some l =>
        rcases h.bind with h | ⟨r, -, h⟩
        · exact Or.inr (hr.runtime h)
        · cases r with
          | none => exact absurd h not_unsupported_ok
          | some r => exact absurd h.of_map (not_unsupported_compareRuntimeRuntime hop l r _)

theorem slowCompare (hl : SafePlan left ctx) (hr : SafePlan right ctx) (hop : op.isComparison = true)
    (h : Unsupported (slowCompare left op right ctx)) :
    left.NonFiniteArithmetic ctx ∨ right.NonFiniteArithmetic ctx := by
  rcases h.bind with h | ⟨v, -, h⟩
  · exact Or.inl (hl.value h)
  · rcases h.bind with h | ⟨w, -, h⟩
    · exact Or.inr (hr.value h)
    · exact absurd h (not_unsupported_compareValuesRuntime hop v w _)

theorem logical (hl : SafePlan left ctx) (hr : SafePlan right ctx) (hop : op.isLogical = true)
    (h : Unsupported (evaluatePlanBool (.binary left op right) ctx)) :
    left.NonFiniteArithmetic ctx ∨ right.NonFiniteArithmetic ctx := by
  rw [evaluatePlanBool, if_pos hop] at h
  rcases h.bind with h | ⟨a, -, h⟩
  · exact Or.inl (hl.bool h)
  · rcases h.bind with h | ⟨b, -, h⟩
    · exact Or.inr (hr.bool h)
    · cases op <;> exact absurd h not_unsupported_ok

theorem valueBinary (hl : SafePlan left ctx) (hr : SafePlan right ctx)
    (hop : op.isImplemented = true)
    (h : Unsupported (evaluatePlanValue (.binary left op right) ctx)) :
    (EvalExprPlan.binary left op right).NonFiniteArithmetic ctx := by
  by_cases hlogical : op.isLogical = true
  · rw [evaluatePlanValue, if_pos hlogical] at h
    exact Or.inr (hl.logical hr hlogical h.of_map)
  · rw [evaluatePlanValue, if_neg hlogical] at h
    rcases h.bind with h | ⟨v, hv, h⟩
    · exact Or.inr (Or.inl (hl.value h))
    · rcases h.bind with h | ⟨w, hw, h⟩
      · exact Or.inr (Or.inr (hr.value h))
      · by_cases harith : op.isArithmetic = true
        · rw [if_pos harith] at h
          exact Or.inl ⟨v, w, hv, hw, nonFiniteResult_of_unsupported harith h⟩
        · have hcomp : op.isComparison = true := by
            simpa [BinaryOperator.isImplemented, hlogical, harith] using hop
          rw [if_neg harith, if_pos hcomp] at h
          exact absurd h.of_map (not_unsupported_compareValuesRuntime hcomp v w _)

theorem binary (hl : SafePlan left ctx) (hr : SafePlan right ctx) (hop : op.isImplemented = true) :
    SafePlan (.binary left op right) ctx where
  value := hl.valueBinary hr hop
  runtime h := by
    rw [evaluatePlanRuntimeValue] at h
    exact absurd h not_unsupported_ok
  bool h := by
    by_cases hlogical : op.isLogical = true
    · exact Or.inr (hl.logical hr hlogical h)
    · by_cases hcomp : op.isComparison = true
      · rw [evaluatePlanBool_comparison hcomp] at h
        rcases h.bind with h | ⟨result, -, h⟩
        · exact Or.inr (hl.compareBool hr hcomp h)
        · cases result with
          | some b => exact absurd h not_unsupported_ok
          | none => exact Or.inr (hl.slowCompare hr hcomp h)
      · apply bool_of_value _ (hl.valueBinary hr hop) h
        rw [evaluatePlanBool, if_neg hlogical, if_neg hcomp]
        rfl

-- a text read off the value of a plan inside
theorem text {inner : EvalExprPlan} {read : JsonValue → Except EvalError String}
    (hread : ∀ v, ¬ Unsupported (read v)) (hinner : SafePlan inner ctx)
    (hnon : inner.NonFiniteArithmetic ctx → plan.NonFiniteArithmetic ctx)
    (hvalue : evaluatePlanValue plan ctx =
      (evaluatePlanValue inner ctx).bind fun v ↦ (read v).map .string)
    (hrun : evaluatePlanRuntimeValue plan ctx =
      (evaluatePlanValue inner ctx).bind fun v ↦ (read v).map fun t ↦ some (.string t))
    (hbool : evaluatePlanBool plan ctx = (evaluatePlanValue plan ctx).bind expectBool) :
    SafePlan plan ctx := by
  have hsafe : Unsupported (evaluatePlanValue plan ctx) → plan.NonFiniteArithmetic ctx := by
    intro h
    rw [hvalue] at h
    rcases h.bind with h | ⟨v, -, h⟩
    · exact hnon (hinner.value h)
    · exact absurd h.of_map (hread v)
  apply SafePlan.mk hsafe _ (bool_of_value hbool hsafe)
  intro h
  rw [hrun] at h
  rcases h.bind with h | ⟨v, -, h⟩
  · exact hnon (hinner.value h)
  · exact absurd h.of_map (hread v)

-- a plan whose own values are never unsupported
theorem leaf (hvalue : ¬ Unsupported (evaluatePlanValue plan ctx))
    (hrun : ¬ Unsupported (evaluatePlanRuntimeValue plan ctx))
    (hbool : evaluatePlanBool plan ctx = (evaluatePlanValue plan ctx).bind expectBool) :
    SafePlan plan ctx :=
  ⟨fun h ↦ absurd h hvalue, fun h ↦ absurd h hrun, bool_of_value hbool fun h ↦ absurd h hvalue⟩

end SafePlan

/-- A plan without unknown parts and foreign operators is unsupported only where arithmetic leaves the
finite numbers. -/
theorem safePlan {plan : EvalExprPlan} (ctx : EvalContext) (hknown : planHasUnknown plan = false)
    (hops : ∀ op, plan.Operates op → op.isImplemented = true) : SafePlan plan ctx := by
  induction plan with
  | const value =>
      apply SafePlan.leaf
      · rw [evaluatePlanValue]
        exact not_unsupported_ok
      · cases value with
        | _ => simp only [evaluatePlanRuntimeValue, not_unsupported_ok, not_false_iff]
      · rw [evaluatePlanBool]
        rfl
  | payloadField path =>
      apply SafePlan.leaf
      · rw [evaluatePlanValue]
        exact fun h ↦ not_unsupported_payloadValueByPath _ _ h.of_map
      · rw [evaluatePlanRuntimeValue]
        intro h
        rcases h.bind with h | ⟨value, -, h⟩
        · exact not_unsupported_payloadValueByPath _ _ h
        · exact not_unsupported_payloadRuntimeValue value h.of_map
      · rw [evaluatePlanBool]
        rfl
  | binary left op right ihl ihr =>
      rw [planHasUnknown, Bool.or_eq_false_iff] at hknown
      have hleft := ihl hknown.1 fun o ho ↦ hops o (Or.inr (Or.inl ho))
      have hright := ihr hknown.2 fun o ho ↦ hops o (Or.inr (Or.inr ho))
      exact hleft.binary hright (hops op (Or.inl rfl))
  | topicLevel level ih =>
      have hnon : level.NonFiniteArithmetic ctx →
          (EvalExprPlan.topicLevel level).NonFiniteArithmetic ctx := id
      apply SafePlan.text (fun v ↦ not_unsupported_topicLevelOf v ctx) (ih hknown hops) hnon
      · rw [evaluatePlanValue]
        rfl
      · rw [evaluatePlanRuntimeValue]
        rfl
      · rw [evaluatePlanBool]
        rfl
  | propertiesKey key ih =>
      have hnon : key.NonFiniteArithmetic ctx →
          (EvalExprPlan.propertiesKey key).NonFiniteArithmetic ctx := id
      apply SafePlan.text (fun v ↦ not_unsupported_propertyOf v ctx) (ih hknown hops) hnon
      · rw [evaluatePlanValue]
        rfl
      · rw [evaluatePlanRuntimeValue]
        rfl
      · rw [evaluatePlanBool]
        rfl
  | metaClientId | metaUsername =>
      apply SafePlan.leaf
      · rw [evaluatePlanValue]
        exact fun h ↦ not_unsupported_metadataText _ _ h.of_map
      · rw [evaluatePlanRuntimeValue]
        exact fun h ↦ not_unsupported_metadataText _ _ h.of_map
      · rw [evaluatePlanBool]
        rfl
  | metaQos | metaRetain | metaDup | metaTimestamp =>
      apply SafePlan.leaf
      · rw [evaluatePlanValue]
        exact not_unsupported_ok
      · rw [evaluatePlanRuntimeValue]
        exact not_unsupported_ok
      · rw [evaluatePlanBool]
        rfl
  | unknown expr => cases hknown

/-! ## Rules -/

theorem unsupported_projectColumns {ctx : EvalContext} {columns : List PlannedColumn}
    {output : JsonMap} (h : Unsupported (projectColumns ctx output columns)) :
    ∃ column ∈ columns, Unsupported (evaluatePlanValue column.expr ctx) := by
  induction columns generalizing output with
  | nil => exact absurd h not_unsupported_ok
  | cons first rest ih =>
      rw [projectColumns] at h
      rcases h.bind with h | ⟨v, -, h⟩
      · exact ⟨first, List.mem_cons_self, h⟩
      · obtain ⟨column, hcolumn, hunsupported⟩ := ih h
        exact ⟨column, List.mem_cons_of_mem _ hcolumn, hunsupported⟩

theorem unsupported_evaluateSelect {C : Crates} {selectPlan : SelectPlan} {ctx : EvalContext}
    (h : Unsupported (evaluateSelect C selectPlan ctx)) :
    ∃ plan ∈ selectPlan.exprs, Unsupported (evaluatePlanValue plan ctx) := by
  cases selectPlan with
  | all => exact absurd h not_unsupported_ok
  | columns cols =>
      rcases h.bind with h | ⟨output, -, h⟩
      · obtain ⟨column, hcolumn, hunsupported⟩ := unsupported_projectColumns h
        exact ⟨column.expr, List.mem_map_of_mem hcolumn, hunsupported⟩
      · split at h <;> exact nomatch h.choose_spec

/-- A rule that is unsupported has a plan that is: a column, or the WHERE clause. -/
theorem unsupported_evaluateRule {C : Crates} {rule : CompiledRule} {message : Message} {ir : MsgIr}
    {topicParts : List String}
    (h : Unsupported (evaluateRuleWithPayloadAndTopicParts C rule message ir topicParts)) :
    ∃ plan ∈ rule.plans, Unsupported (evaluatePlanValue plan ⟨message, ir, topicParts⟩) ∨
      Unsupported (evaluatePlanBool plan ⟨message, ir, topicParts⟩) := by
  rcases h.bind with h | ⟨accepted, -, h⟩
  · unfold evaluatePredicate at h
    split at h
    · rename_i plan hplan
      exact ⟨plan, List.mem_append_right _ (by rw [hplan]; exact List.mem_singleton.mpr rfl),
        Or.inr h⟩
    · exact absurd h not_unsupported_ok
  · split at h
    · obtain ⟨plan, hplan, hunsupported⟩ := unsupported_evaluateSelect h.of_map
      exact ⟨plan, List.mem_append_left _ hplan, Or.inl hunsupported⟩
    · exact absurd h not_unsupported_ok

/-- The evaluators can run the rule: they never fail as unsupported but for arithmetic whose result is
not finite, and implement every operator of its plans. -/
structure Runnable (C : Crates) (rule : CompiledRule) : Prop where
  evaluates : ∀ message ir topicParts context,
    evaluateRuleWithPayloadAndTopicParts C rule message ir topicParts =
        .error (.unsupportedExpression context) →
      ∃ plan ∈ rule.plans, plan.NonFiniteArithmetic ⟨message, ir, topicParts⟩
  operators : ∀ plan ∈ rule.plans, ∀ op, plan.Operates op → op.isImplemented = true

theorem runnable_of_operators {C : Crates} {rule : CompiledRule}
    (hops : ∀ plan ∈ rule.plans, ∀ op, plan.Operates op → op.isImplemented = true) :
    Runnable C rule where
  evaluates message ir topicParts context h := by
    have hknown := (hasUnknown_eq_false_iff rule.selectPlan rule.wherePlan).mp rule.hknown
    obtain ⟨plan, hplan, hunsupported⟩ := unsupported_evaluateRule ⟨context, h⟩
    have hsafe := safePlan ⟨message, ir, topicParts⟩ (hknown plan hplan) (hops plan hplan)
    exact ⟨plan, hplan, hunsupported.elim hsafe.value hsafe.bool⟩
  operators := hops

/-- The evaluators can run a compiled rule exactly when every operator in a compiled part of its query is
one of the twelve. -/
theorem runnable_iff {C : Crates} {definition : RuleDefinition} {query : Query} {rule : CompiledRule}
    (hparse : C.parseSql (normalizeRuleSql C.isWord definition.expression) = .ok [.query query])
    (h : compileRule C definition = .ok rule) :
    Runnable C rule ↔ ∀ expr ∈ query.keptExprs, ∀ op, expr.Operates C.nameToString op →
      op.isImplemented = true := by
  obtain ⟨-, hplans⟩ := plans_compileRule hparse h
  constructor
  · intro hrunnable expr hexpr op hop
    by_contra hnot
    have hkept := operates_of_expr (Bool.eq_false_iff.mpr hnot) hop
    have hmem : compileExprPlan C.nameToString expr ∈ rule.plans := by
      rw [hplans]
      exact List.mem_map_of_mem hexpr
    exact hnot (hrunnable.operators _ hmem op hkept)
  · intro hops
    apply runnable_of_operators
    intro plan hplan op hop
    rw [hplans] at hplan
    obtain ⟨expr, hexpr, rfl⟩ := List.mem_map.mp hplan
    exact hops expr hexpr op (operates_of_plan hop)

-- parses every text as a select of one expression from the topic `t`
def selectCrates (expr : Expr) : Crates :=
  { demoCrates with parseSql := fun _ ↦ .ok [.query (demoQuery [.unnamedExpr expr] "t")] }

-- `temp <op> temp`
def tempOpTemp (op : BinaryOperator) : Expr :=
  .binaryOp (.identifier ⟨"temp", none⟩) op (.identifier ⟨"temp", none⟩)

theorem runnable_iff_plus :
    ∃ rule, compileRule (selectCrates (tempOpTemp .plus)) ⟨"select temp + temp from t", [], none⟩ =
        .ok rule ∧
      (Runnable (selectCrates (tempOpTemp .plus)) rule ↔
        ∀ expr ∈ (demoQuery [.unnamedExpr (tempOpTemp .plus)] "t").keptExprs,
          ∀ op, expr.Operates (selectCrates (tempOpTemp .plus)).nameToString op →
            op.isImplemented = true) :=
  ⟨_, rfl, runnable_iff rfl rfl⟩

-- a number modulo itself
theorem evaluatePlanValue_modulo (op : String) {ctx : EvalContext} {path : CompiledPayloadField}
    {x : F64} (h : ctx.payload.getField path = some (.number x)) :
    evaluatePlanValue (.binary (.payloadField path) (.other op) (.payloadField path)) ctx =
      .error (.unsupportedExpression "projection") := by
  have hpath : payloadValueByPath ctx.payload path = .ok (.number x) := by
    rw [payloadValueByPath, h]
  rw [evaluatePlanValue, evaluatePlanValue, hpath]
  rfl

theorem evaluateRule_of_column {C : Crates} {rule : CompiledRule} {message : Message} {ir : MsgIr}
    {topicParts : List String} {column : PlannedColumn} {err : EvalError}
    (hwhere : rule.wherePlan = none) (hselect : rule.selectPlan = .columns [column])
    (h : evaluatePlanValue column.expr ⟨message, ir, topicParts⟩ = .error err) :
    evaluateRuleWithPayloadAndTopicParts C rule message ir topicParts = .error err := by
  rw [evaluateRuleWithPayloadAndTopicParts, hwhere, hselect]
  change (evaluateSelect C (.columns [column]) ⟨message, ir, topicParts⟩).map some = .error err
  rw [evaluateSelect, projectColumns, h]
  rfl

/-- The modulo operator is accepted, and a message with a number in the field is dropped. -/
theorem not_runnable_modulo :
    ∃ rule, compileRule (selectCrates (tempOpTemp (.other "%")))
        ⟨"select temp % temp from t", [], none⟩ = .ok rule ∧
      evaluateRuleWithPayloadAndTopicParts (selectCrates (tempOpTemp (.other "%"))) rule
          (Message.new "t" []) (MsgIr.new.insert "temp" (.number F64.zero)) [] =
        .error (.unsupportedExpression "projection") ∧
      ¬ Runnable (selectCrates (tempOpTemp (.other "%"))) rule := by
  have hfield : (MsgIr.new.insert "temp" (.number F64.zero)).getField (.fromKey "temp") =
      some (.number F64.zero) := by
    rw [MsgIr.getField, MsgIr.getKey_insert]
    rfl
  refine ⟨_, rfl, ?_, fun hrunnable ↦ ?_⟩
  · exact evaluateRule_of_column rfl rfl (evaluatePlanValue_modulo "%" hfield)
  · have hop := hrunnable.operators _ (List.mem_singleton.mpr rfl) (.other "%") (Or.inl rfl)
    cases hop

end Tenon.Core
