import Tenon.Core.ConstantFolding

/-!
# PredicateValue — the truth value of a plan against its JSON value

A WHERE clause evaluates a plan to a truth value and a select list to a JSON value.  A comparison is
the one plan that the two evaluate differently, and its answers part only when the runtime values of
both operands are numbers and a payload field holds one that JSON cannot.
-/

open Reasoning Reasoning.Binary64

namespace Tenon.Core

/-- The number that an operand of a comparison stands for as it is, before any JSON value is built. -/
def operandNumber (plan : EvalExprPlan) (ctx : EvalContext) : Option F64 :=
  match plan with
  | .const value => value.asF64
  | .payloadField path =>
      match ctx.payload.getField path with
      | some (.number x) => some x
      | _ => none
  | .metaQos => some (F64.ofNat ctx.message.qos.toNat)
  | .metaTimestamp => some (F64.ofNat ctx.message.timestampMillis.toNat)
  | _ => none

/-- A comparison of two numbers, one of them a payload field that is infinite or not a number. -/
def NonFiniteComparison (plan : EvalExprPlan) (ctx : EvalContext) : Prop :=
  ∃ left op right, plan = .binary left op right ∧ op.isComparison = true ∧
    ((NonFiniteField left ctx ∧ (operandNumber right ctx).isSome) ∨
      (NonFiniteField right ctx ∧ (operandNumber left ctx).isSome))

/-! ## Runtime values that are numbers -/

-- a text is no number
theorem text_ne_number {t : Except EvalError String} {x : F64} :
    (t.map fun s ↦ some (RuntimeValue.string s)) ≠ .ok (some (.number x)) := by
  cases t <;> simp [Except.map]

/-- The runtime value of an operand is a number exactly when the operand stands for one. -/
theorem operandNumber_eq_some_iff (plan : EvalExprPlan) (ctx : EvalContext) (x : F64) :
    operandNumber plan ctx = some x ↔
      evaluatePlanRuntimeValue plan ctx = .ok (some (.number x)) := by
  cases plan with
  | const value =>
      cases value with
      | number n =>
          rw [evaluatePlanRuntimeValue, operandNumber, JsonValue.asF64]
          cases n.asF64 <;> simp
      | _ => simp [operandNumber, JsonValue.asF64, evaluatePlanRuntimeValue]
  | payloadField path =>
      rw [evaluatePlanRuntimeValue, payloadValueByPath, operandNumber]
      cases ctx.payload.getField path with
      | none => exact iff_of_false (Option.some_ne_none x).symm error_ne_ok
      | some value =>
          change _ ↔ (payloadRuntimeValue value).map some = .ok (some (.number x))
          rw [map_eq_ok]
          cases value <;> simp [payloadRuntimeValue]
  | metaQos => simp [operandNumber, evaluatePlanRuntimeValue]
  | metaTimestamp => simp [operandNumber, evaluatePlanRuntimeValue]
  | metaRetain => simp [operandNumber, evaluatePlanRuntimeValue]
  | metaDup => simp [operandNumber, evaluatePlanRuntimeValue]
  | metaClientId =>
      rw [evaluatePlanRuntimeValue]
      exact iff_of_false (Option.some_ne_none x).symm text_ne_number
  | metaUsername =>
      rw [evaluatePlanRuntimeValue]
      exact iff_of_false (Option.some_ne_none x).symm text_ne_number
  | binary left op right => simp [operandNumber, evaluatePlanRuntimeValue]
  | unknown expr => simp [operandNumber, evaluatePlanRuntimeValue]
  | topicLevel level =>
      rw [evaluatePlanRuntimeValue]
      cases evaluatePlanValue level ctx with
      | error e => exact iff_of_false (Option.some_ne_none x).symm error_ne_ok
      | ok v => exact iff_of_false (Option.some_ne_none x).symm text_ne_number
  | propertiesKey key =>
      rw [evaluatePlanRuntimeValue]
      cases evaluatePlanValue key ctx with
      | error e => exact iff_of_false (Option.some_ne_none x).symm error_ne_ok
      | ok v => exact iff_of_false (Option.some_ne_none x).symm text_ne_number

/-! ## Comparisons -/

-- the two contexts differ in the texts of errors only
theorem compareValuesRuntime_ok_context (v w : JsonValue) (op : BinaryOperator)
    (context context' : String) (b : Bool) :
    compareValuesRuntime v w op context = .ok b ↔ compareValuesRuntime v w op context' = .ok b := by
  cases v with
  | number n =>
      cases w with
      | number m =>
          have hsome (k : Number) : ∃ x, k.asF64 = some x := by cases k <;> exact ⟨_, rfl⟩
          obtain ⟨x, hx⟩ := hsome n
          obtain ⟨y, hy⟩ := hsome m
          have hoperands (c : String) :
              numericOperands (.number n) (.number m) op c = .ok (x, y) := by
            simp only [numericOperands, JsonValue.asF64, hx, hy]
          simp only [compareValuesRuntime, hoperands]
          cases op <;> first | exact Iff.rfl | exact iff_of_false error_ne_ok error_ne_ok
      | _ => exact iff_of_false error_ne_ok error_ne_ok
  | string s =>
      cases w with
      | string t => cases op <;> first | exact Iff.rfl | exact iff_of_false error_ne_ok error_ne_ok
      | _ => exact iff_of_false error_ne_ok error_ne_ok
  | bool s =>
      cases w with
      | bool t => cases op <;> first | exact Iff.rfl | exact iff_of_false error_ne_ok error_ne_ok
      | _ => exact iff_of_false error_ne_ok error_ne_ok
  | _ => exact iff_of_false error_ne_ok error_ne_ok

theorem map_bool_eq_ok_iff {x : Except EvalError Bool} {b : Bool} :
    x.map JsonValue.bool = .ok (.bool b) ↔ x = .ok b := by
  rw [map_eq_ok]
  simp

theorem bind_expectBool_eq_ok_iff {x : Except EvalError JsonValue} {b : Bool} :
    x.bind expectBool = .ok b ↔ x = .ok (.bool b) := by
  rw [bind_eq_ok]
  constructor
  · intro h
    rcases h with ⟨v, hx, hv⟩
    cases v <;> cases hv
    exact hx
  · intro hx
    exact ⟨.bool b, hx, rfl⟩

/-- A comparison in a select list is the comparison on JSON values. -/
theorem evaluatePlanValue_comparison_iff {op : BinaryOperator} (hop : op.isComparison = true)
    (left right : EvalExprPlan) (ctx : EvalContext) (b : Bool) :
    evaluatePlanValue (.binary left op right) ctx = .ok (.bool b) ↔
      slowCompare left op right ctx = .ok b := by
  have hlogical : op.isLogical = false := by cases op <;> first | rfl | cases hop
  have harith : op.isArithmetic = false := by cases op <;> first | rfl | cases hop
  rw [evaluatePlanValue, slowCompare, hlogical, harith, hop]
  cases evaluatePlanValue left ctx with
  | error e => exact iff_of_false error_ne_ok error_ne_ok
  | ok v =>
      cases evaluatePlanValue right ctx with
      | error e => exact iff_of_false error_ne_ok error_ne_ok
      | ok w =>
          change (compareValuesRuntime v w op "projection").map JsonValue.bool = .ok (.bool b) ↔
            compareValuesRuntime v w op "predicate" = .ok b
          rw [map_bool_eq_ok_iff]
          exact compareValuesRuntime_ok_context v w op _ _ b

-- a field that is not finite is a number at run time and null as a JSON value
theorem nonFiniteField_values {plan : EvalExprPlan} {ctx : EvalContext}
    (h : NonFiniteField plan ctx) :
    (∃ x, evaluatePlanRuntimeValue plan ctx = .ok (some (.number x))) ∧
      evaluatePlanValue plan ctx = .ok .null := by
  rcases h with ⟨path, x, rfl, hvalue, hx⟩
  have hnumber : operandNumber (.payloadField path) ctx = some x := by
    rw [operandNumber, hvalue]
  have hnull : (PayloadValue.number x).toJsonValue = .null := by
    rw [PayloadValue.toJsonValue, Number.fromF64, dif_neg (by simp [hx])]
    simp [hx]
  have hjson : evaluatePlanValue (.payloadField path) ctx = .ok .null := by
    rw [evaluatePlanValue, payloadValueByPath, hvalue, ← hnull]
    rfl
  exact ⟨⟨x, (operandNumber_eq_some_iff _ ctx x).mp hnumber⟩, hjson⟩

theorem compareRuntimeRuntime_numbers {op : BinaryOperator} (hop : op.isComparison = true)
    (x y : F64) (context : String) :
    ∃ b, compareRuntimeRuntime (.number x) (.number y) op context = .ok b := by
  cases op <;> first | exact ⟨_, rfl⟩ | cases hop

theorem slowCompare_ne_ok {left right : EvalExprPlan} {ctx : EvalContext}
    (h : (∀ v, evaluatePlanValue left ctx = .ok v → ¬ Scalar v) ∨
      ∀ w, evaluatePlanValue right ctx = .ok w → ¬ Scalar w) (op : BinaryOperator) (b : Bool) :
    slowCompare left op right ctx ≠ .ok b := by
  intro hslow
  obtain ⟨v, hv, hslow⟩ := bind_eq_ok.mp hslow
  obtain ⟨w, hw, hslow⟩ := bind_eq_ok.mp hslow
  rcases h with h | h
  · obtain ⟨e, he, -⟩ := compareValuesRuntime_left (h v hv) w op "predicate"
    exact error_ne_ok (he.symm.trans hslow)
  · obtain ⟨e, he, -⟩ := compareValuesRuntime_right v (h w hw) op "predicate"
    exact error_ne_ok (he.symm.trans hslow)

section Comparison

variable {left right : EvalExprPlan} {op : BinaryOperator} {ctx : EvalContext}

/-- With operands that are both read the same way, the two comparisons have the same answers. -/
theorem evaluatePlanBool_comparison_of_finite (hop : op.isComparison = true)
    (hleft : ¬ NonFiniteField left ctx) (hright : ¬ NonFiniteField right ctx) (b : Bool) :
    evaluatePlanBool (.binary left op right) ctx = .ok b ↔ slowCompare left op right ctx = .ok b := by
  rw [evaluatePlanBool_comparison hop, evaluatePlanCompareBool]
  cases represents left hleft with
  | absent hl =>
      rw [hl]
      exact Iff.rfl
  | failed hl hlv =>
      rw [hl, slowCompare, hlv]
      exact iff_of_false error_ne_ok error_ne_ok
  | rejected hl he hlv hnot =>
      rw [hl]
      have hslow : slowCompare left op right ctx ≠ .ok b :=
        slowCompare_ne_ok (Or.inl fun v hv ↦ by cases hlv.symm.trans hv; exact hnot) op b
      exact iff_of_false error_ne_ok hslow
  | present hl hlv hcorr =>
      rename_i rl v
      rw [hl]
      cases represents right hright with
      | absent hr =>
          rw [hr]
          exact Iff.rfl
      | failed hr hrv =>
          rw [hr, slowCompare, hlv, hrv]
          exact iff_of_false error_ne_ok error_ne_ok
      | rejected hr he hrv hnot =>
          rw [hr]
          have hslow : slowCompare left op right ctx ≠ .ok b :=
            slowCompare_ne_ok (Or.inr fun w hw ↦ by cases hrv.symm.trans hw; exact hnot) op b
          exact iff_of_false error_ne_ok hslow
      | present hr hrv hcorr' =>
          rename_i rr w
          rw [hr, slowCompare, hlv, hrv]
          change ((compareRuntimeRuntime rl rr op "predicate").map some).bind _ = .ok b ↔
            compareValuesRuntime v w op "predicate" = .ok b
          rw [compareRuntimeRuntime_eq hcorr hcorr']
          cases compareValuesRuntime v w op "predicate" <;> exact Iff.rfl

-- a number meets no number: whichever way it is read, the comparison fails
theorem evaluatePlanBool_nonFinite_left (hop : op.isComparison = true)
    (hleft : NonFiniteField left ctx) (hright : operandNumber right ctx = none) (b : Bool) :
    evaluatePlanBool (.binary left op right) ctx = .ok b ↔ slowCompare left op right ctx = .ok b := by
  obtain ⟨⟨x, hx⟩, hnull⟩ := nonFiniteField_values hleft
  have hslow : slowCompare left op right ctx ≠ .ok b :=
    slowCompare_ne_ok (Or.inl fun v hv ↦ by cases hnull.symm.trans hv; exact id) op b
  rw [evaluatePlanBool_comparison hop, evaluatePlanCompareBool, hx]
  cases hr : evaluatePlanRuntimeValue right ctx with
  | error e => exact iff_of_false error_ne_ok hslow
  | ok r =>
      cases r with
      | none => exact Iff.rfl
      | some r =>
          cases r with
          | number y =>
              have hnumber := (operandNumber_eq_some_iff right ctx y).mpr hr
              rw [hright] at hnumber
              cases hnumber
          | _ => exact iff_of_false error_ne_ok hslow

theorem evaluatePlanBool_nonFinite_right (hop : op.isComparison = true)
    (hright : NonFiniteField right ctx) (hleft : operandNumber left ctx = none) (b : Bool) :
    evaluatePlanBool (.binary left op right) ctx = .ok b ↔ slowCompare left op right ctx = .ok b := by
  obtain ⟨⟨y, hy⟩, hnull⟩ := nonFiniteField_values hright
  have hslow : slowCompare left op right ctx ≠ .ok b :=
    slowCompare_ne_ok (Or.inr fun w hw ↦ by cases hnull.symm.trans hw; exact id) op b
  rw [evaluatePlanBool_comparison hop, evaluatePlanCompareBool]
  cases hl : evaluatePlanRuntimeValue left ctx with
  | error e => exact iff_of_false error_ne_ok hslow
  | ok r =>
      cases r with
      | none => exact Iff.rfl
      | some r =>
          cases r with
          | number x =>
              have hnumber := (operandNumber_eq_some_iff left ctx x).mpr hl
              rw [hleft] at hnumber
              cases hnumber
          | _ =>
              rw [hy]
              exact iff_of_false error_ne_ok hslow

/-- Unless a field that is not finite meets another number, a comparison in a WHERE clause has the
answers of the comparison on JSON values. -/
theorem evaluatePlanBool_comparison_iff (hop : op.isComparison = true)
    (h : ¬ NonFiniteComparison (.binary left op right) ctx) (b : Bool) :
    evaluatePlanBool (.binary left op right) ctx = .ok b ↔ slowCompare left op right ctx = .ok b := by
  by_cases hleft : NonFiniteField left ctx
  · have hother : operandNumber right ctx = none := by
      rw [Option.eq_none_iff_forall_ne_some]
      intro y hy
      exact h ⟨left, op, right, rfl, hop, Or.inl ⟨hleft, by rw [hy]; rfl⟩⟩
    exact evaluatePlanBool_nonFinite_left hop hleft hother b
  · by_cases hright : NonFiniteField right ctx
    · have hother : operandNumber left ctx = none := by
        rw [Option.eq_none_iff_forall_ne_some]
        intro x hx
        exact h ⟨left, op, right, rfl, hop, Or.inr ⟨hright, by rw [hx]; rfl⟩⟩
      exact evaluatePlanBool_nonFinite_right hop hright hother b
    · exact evaluatePlanBool_comparison_of_finite hop hleft hright b

end Comparison

/-- Where a field that is not finite meets another number, the WHERE clause decides and the select
list fails. -/
theorem nonFiniteComparison_disagrees {plan : EvalExprPlan} {ctx : EvalContext}
    (h : NonFiniteComparison plan ctx) :
    ∃ b, evaluatePlanBool plan ctx = .ok b ∧ evaluatePlanValue plan ctx ≠ .ok (.bool b) := by
  rcases h with ⟨left, op, right, rfl, hop, hoperands⟩
  have hnumbers : ∃ x y, evaluatePlanRuntimeValue left ctx = .ok (some (.number x)) ∧
      evaluatePlanRuntimeValue right ctx = .ok (some (.number y)) := by
    rcases hoperands with ⟨hfield, hother⟩ | ⟨hfield, hother⟩
    · obtain ⟨⟨x, hx⟩, -⟩ := nonFiniteField_values hfield
      obtain ⟨y, hy⟩ := Option.isSome_iff_exists.mp hother
      exact ⟨x, y, hx, (operandNumber_eq_some_iff right ctx y).mp hy⟩
    · obtain ⟨⟨y, hy⟩, -⟩ := nonFiniteField_values hfield
      obtain ⟨x, hx⟩ := Option.isSome_iff_exists.mp hother
      exact ⟨x, y, (operandNumber_eq_some_iff left ctx x).mp hx, hy⟩
  rcases hnumbers with ⟨x, y, hx, hy⟩
  obtain ⟨b, hb⟩ := compareRuntimeRuntime_numbers hop x y "predicate"
  have hbool : evaluatePlanBool (.binary left op right) ctx = .ok b := by
    rw [evaluatePlanBool_comparison hop, evaluatePlanCompareBool, hx, hy]
    change ((compareRuntimeRuntime (.number x) (.number y) op "predicate").map some).bind _ = .ok b
    rw [hb]
    rfl
  have hslow : slowCompare left op right ctx ≠ .ok b := by
    apply slowCompare_ne_ok
    rcases hoperands with ⟨hfield, -⟩ | ⟨hfield, -⟩
    · obtain ⟨-, hnull⟩ := nonFiniteField_values hfield
      exact Or.inl fun v hv ↦ by cases hnull.symm.trans hv; exact id
    · obtain ⟨-, hnull⟩ := nonFiniteField_values hfield
      exact Or.inr fun w hw ↦ by cases hnull.symm.trans hw; exact id
  exact ⟨b, hbool, fun hvalue ↦
    hslow ((evaluatePlanValue_comparison_iff hop left right ctx b).mp hvalue)⟩

/-! ## Every plan -/

/-- A plan has the same truth value in a WHERE clause and in a select list, and has one in both or in
neither. -/
def BoolAgrees (plan : EvalExprPlan) (ctx : EvalContext) : Prop :=
  ∀ b, evaluatePlanBool plan ctx = .ok b ↔ evaluatePlanValue plan ctx = .ok (.bool b)

theorem boolAgrees_binary {left right : EvalExprPlan} {op : BinaryOperator} {ctx : EvalContext}
    (h : ¬ NonFiniteComparison (.binary left op right) ctx) :
    BoolAgrees (.binary left op right) ctx := by
  intro b
  by_cases hcomp : op.isComparison = true
  · rw [evaluatePlanValue_comparison_iff hcomp]
    exact evaluatePlanBool_comparison_iff hcomp h b
  · by_cases hlogical : op.isLogical = true
    · rw [evaluatePlanValue, if_pos hlogical, map_bool_eq_ok_iff]
    · rw [evaluatePlanBool, if_neg hlogical, if_neg hcomp]
      exact bind_expectBool_eq_ok_iff

/-- WHERE and SELECT agree on a plan exactly when it does not compare a payload field that is infinite
or not a number with another number. -/
theorem boolAgrees_iff (plan : EvalExprPlan) (ctx : EvalContext) :
    BoolAgrees plan ctx ↔ ¬ NonFiniteComparison plan ctx := by
  constructor
  · intro hagrees hcomparison
    obtain ⟨b, hbool, hvalue⟩ := nonFiniteComparison_disagrees hcomparison
    exact hvalue ((hagrees b).mp hbool)
  · intro h
    cases plan with
    | binary left op right => exact boolAgrees_binary h
    | _ =>
        intro b
        rw [evaluatePlanBool]
        exact bind_expectBool_eq_ok_iff

-- a payload with the field `temp` at infinity
def hotContext : EvalContext where
  message := Message.new "t" []
  payload := MsgIr.new.insert "temp" (.number (.inf false))
  topicParts := []

-- `temp > 25`
def hotPlan : EvalExprPlan :=
  .binary (.payloadField (.fromKey "temp")) .gt (.const (.number (.posInt 25)))

/-- The comparison is true in a WHERE clause and a type mismatch in a select list. -/
theorem not_boolAgrees_infinite : ¬ BoolAgrees hotPlan hotContext := by
  have hfield : hotContext.payload.getField (.fromKey "temp") = some (.number (.inf false)) := by
    rw [MsgIr.getField, hotContext, MsgIr.getKey_insert]
    rfl
  have hcomparison : NonFiniteComparison hotPlan hotContext :=
    ⟨_, .gt, _, rfl, rfl, Or.inl ⟨⟨_, _, rfl, hfield, rfl⟩, rfl⟩⟩
  obtain ⟨b, hbool, hvalue⟩ := nonFiniteComparison_disagrees hcomparison
  exact fun hagrees ↦ hvalue ((hagrees b).mp hbool)

end Tenon.Core
