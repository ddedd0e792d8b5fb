import Tenon.Core.RuleEval

/-!
# FastPath — runtime values against JSON values

A comparison in a predicate is decided on runtime values when both operands have one and on JSON
values otherwise.  On a payload whose numbers are finite the two representations of an operand
correspond, and comparing corresponding operands gives the same answer and the same error.
-/

open Reasoning.Binary64

namespace Tenon.Core

/-- The numbers of the payload are finite, as a JSON payload's are. -/
def FiniteNumbers (ir : MsgIr) : Prop :=
  ∀ key x, ir.getKey key = some (.number x) → x.isFinite = true

inductive Corresponds : RuntimeValue → JsonValue → Prop where
  -- a number may lose the sign of a zero on its way to a JSON integer
  | number {x y : F64} {n : Number} (hy : n.asF64 = some y) (h : x.canon = y.canon) :
      Corresponds (.number x) (.number n)
  | string (s : String) : Corresponds (.string s) (.string s)
  | bool (b : Bool) : Corresponds (.bool b) (.bool b)

/-- The JSON values a runtime value can stand for. -/
def Scalar : JsonValue → Prop
  | .number _ | .string _ | .bool _ => True
  | _ => False

-- comparisons do not see the sign of a zero
theorem sub_abs_of_canon {x y x' y' : F64} (hx : x.canon = x'.canon) (hy : y.canon = y'.canon) :
    (x.sub y).abs = (x'.sub y').abs := by
  rw [← F64.abs_sub_canon x y, hx, hy, F64.abs_sub_canon]

theorem lt_of_canon {x y x' y' : F64} (hx : x.canon = x'.canon) (hy : y.canon = y'.canon) :
    x.lt y = x'.lt y' := by
  rw [← F64.lt_canon x y, hx, hy, F64.lt_canon]

theorem le_of_canon {x y x' y' : F64} (hx : x.canon = x'.canon) (hy : y.canon = y'.canon) :
    x.le y = x'.le y' := by
  rw [← F64.le_canon x y, hx, hy, F64.le_canon]

/-- Comparing corresponding operands gives the same answer, or the same error. -/
theorem compareRuntimeRuntime_eq {l r : RuntimeValue} {v w : JsonValue} (hl : Corresponds l v)
    (hr : Corresponds r w) (op : BinaryOperator) (context : String) :
    compareRuntimeRuntime l r op context = compareValuesRuntime v w op context := by
  cases hl with
  | number hx hxy =>
      cases hr with
      | number hx' hxy' =>
          have hoperands (n m : Number) (x y : F64) (hn : n.asF64 = some x) (hm : m.asF64 = some y) :
              numericOperands (.number n) (.number m) op context = .ok (x, y) := by
            simp only [numericOperands, JsonValue.asF64, hn, hm]
          simp only [compareRuntimeRuntime, compareValuesRuntime, hoperands _ _ _ _ hx hx',
            sub_abs_of_canon hxy hxy', lt_of_canon hxy hxy', lt_of_canon hxy' hxy,
            le_of_canon hxy hxy', le_of_canon hxy' hxy]
          rfl
      | string s => rfl
      | bool b => rfl
  | string s => cases hr <;> rfl
  | bool b => cases hr <;> rfl

/-! ## Both representations of one operand -/

theorem corresponds_fromU64 {x : F64} (hfract : F64.fractIsZero x = true)
    (hlo : F64.zero.le x = true) (hhi : x.le (F64.ofNat (2 ^ 64 - 1)) = true) :
    Corresponds (.number x) (.number (.fromU64 (UInt64.ofNat x.toU64))) := by
  have hlt : x.toU64 < 2 ^ 64 := F64.toU64_lt x
  have hcast : (UInt64.ofNat x.toU64).toNat = x.toU64 := by
    rw [UInt64.toNat_ofNat']
    exact Nat.mod_eq_of_lt hlt
  have hcanon : x.canon = (F64.ofNat (UInt64.ofNat x.toU64).toNat).canon := by
    rw [hcast]
    exact (F64.canon_ofNat_toU64 hfract hlo hhi).symm
  exact .number rfl hcanon

theorem corresponds_fromI64 {x : F64} (hfract : F64.fractIsZero x = true)
    (hneg : F64.zero.le x = false) (hlo : (F64.ofInt (-2 ^ 63)).le x = true) :
    Corresponds (.number x) (.number (.fromI64 (Int64.ofInt x.toI64))) := by
  have hcast : (Int64.ofInt x.toI64).toInt = x.toI64 := by
    obtain ⟨hge, hlt⟩ := x.toI64_bounds
    exact Int64.toInt_ofInt_of_le hge hlt
  have hlt : (Int64.ofInt x.toI64).toInt < 0 := by
    obtain ⟨m, -, hpos, -, -, htoI64⟩ := F64.exists_toI64 hfract hneg hlo
    rw [hcast, htoI64]
    omega
  have hcanon : x.canon = (F64.ofInt (Int64.ofInt x.toI64).toInt).canon := by
    rw [hcast, F64.ofInt_toI64 hfract hneg hlo]
  rw [Number.fromI64, dif_pos hlt]
  exact .number rfl hcanon

theorem corresponds_toJsonValue {x : F64} (h : x.isFinite = true) :
    Corresponds (.number x) (PayloadValue.number x).toJsonValue := by
  rcases PayloadValue.toJsonValue_number h with
    ⟨hfract, hlo, hhi, hu⟩ | ⟨hfract, hneg, hlo, hi⟩ | ⟨-, hf⟩
  · rw [hu]
    exact corresponds_fromU64 hfract hlo hhi
  · rw [hi]
    exact corresponds_fromI64 hfract hneg hlo
  · rw [hf]
    exact .number rfl rfl

/-- What the runtime value of a plan says about its JSON value: they correspond, or both fail alike,
or the plan is a payload field that no comparison accepts. -/
inductive Represents (plan : EvalExprPlan) (ctx : EvalContext) : Prop where
  -- no runtime value: comparisons use the JSON value
  | absent (h : evaluatePlanRuntimeValue plan ctx = .ok none)
  | present {r : RuntimeValue} {v : JsonValue} (h : evaluatePlanRuntimeValue plan ctx = .ok (some r))
      (hv : evaluatePlanValue plan ctx = .ok v) (hrv : Corresponds r v)
  | failed {e : EvalError} (h : evaluatePlanRuntimeValue plan ctx = .error e)
      (hv : evaluatePlanValue plan ctx = .error e)
  | rejected {e : EvalError} {v : JsonValue} (h : evaluatePlanRuntimeValue plan ctx = .error e)
      (he : e.isTypeError = true) (hv : evaluatePlanValue plan ctx = .ok v) (hnot : ¬ Scalar v)

-- a text that both evaluators read the same way
theorem Represents.ofText {plan : EvalExprPlan} {ctx : EvalContext} {t : Except EvalError String}
    (h : evaluatePlanRuntimeValue plan ctx = t.map fun s ↦ some (.string s))
    (hv : evaluatePlanValue plan ctx = t.map .string) : Represents plan ctx := by
  cases t with
  | error e => exact .failed h hv
  | ok s => exact .present h hv (.string s)

/-- The plan is a payload field whose number is infinite or not a number. -/
def NonFiniteField (plan : EvalExprPlan) (ctx : EvalContext) : Prop :=
  ∃ path x, plan = .payloadField path ∧ ctx.payload.getField path = some (.number x) ∧
    x.isFinite = false

theorem FiniteNumbers.field {ctx : EvalContext} (h : FiniteNumbers ctx.payload)
    (plan : EvalExprPlan) : ¬ NonFiniteField plan ctx := by
  intro hfield
  rcases hfield with ⟨path, x, -, hvalue, hx⟩
  rw [h path.key x hvalue] at hx
  cases hx

theorem represents_payloadField (path : CompiledPayloadField) {ctx : EvalContext}
    (hfin : ¬ NonFiniteField (.payloadField path) ctx) : Represents (.payloadField path) ctx := by
  cases hvalue : ctx.payload.getField path with
  | none =>
      have hpath : payloadValueByPath ctx.payload path = .error (.missingPayloadField path.key) := by
        rw [payloadValueByPath, hvalue]
      have hr : evaluatePlanRuntimeValue (.payloadField path) ctx =
          .error (.missingPayloadField path.key) := by
        rw [evaluatePlanRuntimeValue, hpath]
        rfl
      have hv : evaluatePlanValue (.payloadField path) ctx =
          .error (.missingPayloadField path.key) := by
        rw [evaluatePlanValue, hpath]
        rfl
      exact .failed hr hv
  | some value =>
      have hpath : payloadValueByPath ctx.payload path = .ok value := by
        rw [payloadValueByPath, hvalue]
      have hv : evaluatePlanValue (.payloadField path) ctx = .ok value.toJsonValue := by
        rw [evaluatePlanValue, hpath]
        rfl
      have hr : evaluatePlanRuntimeValue (.payloadField path) ctx =
          (payloadRuntimeValue value).map some := by
        rw [evaluatePlanRuntimeValue, hpath]
        rfl
      cases value with
      | number x =>
          have hx : x.isFinite = true := by
            by_contra hnot
            exact hfin ⟨path, x, rfl, hvalue, by simpa using hnot⟩
          exact .present hr hv (corresponds_toJsonValue hx)
      | string text => exact .present hr hv (.string text)
      | bool flag => exact .present hr hv (.bool flag)
      | null => exact .rejected hr rfl hv id
      | array values => exact .rejected hr rfl hv id
      | object entries => exact .rejected hr rfl hv id

theorem represents_const (value : JsonValue) (ctx : EvalContext) :
    Represents (.const value) ctx := by
  have hv : evaluatePlanValue (.const value) ctx = .ok value := by rw [evaluatePlanValue]
  cases value with
  | number n =>
      obtain ⟨y, hy⟩ : ∃ y, n.asF64 = some y := by cases n <;> exact ⟨_, rfl⟩
      have hr : evaluatePlanRuntimeValue (.const (.number n)) ctx = .ok (some (.number y)) := by
        rw [evaluatePlanRuntimeValue, hy]
        rfl
      exact .present hr hv (.number hy rfl)
  | string s => exact .present (r := .string s) (by rw [evaluatePlanRuntimeValue]) hv (.string s)
  | bool b => exact .present (r := .bool b) (by rw [evaluatePlanRuntimeValue]) hv (.bool b)
  | _ => exact .absent (by simp only [evaluatePlanRuntimeValue])

/-- Every plan but a field that is not finite is represented. -/
theorem represents (plan : EvalExprPlan) {ctx : EvalContext} (hfin : ¬ NonFiniteField plan ctx) :
    Represents plan ctx := by
  cases plan with
  | const value => exact represents_const value ctx
  | payloadField path => exact represents_payloadField path hfin
  | metaQos =>
      have hr : evaluatePlanRuntimeValue .metaQos ctx =
          .ok (some (.number (F64.ofNat ctx.message.qos.toNat))) := by rw [evaluatePlanRuntimeValue]
      have hv : evaluatePlanValue .metaQos ctx =
          .ok (.number (.fromU64 ctx.message.qos.toUInt64)) := by rw [evaluatePlanValue]
      have hcanon : (F64.ofNat ctx.message.qos.toNat).canon =
          (F64.ofNat ctx.message.qos.toUInt64.toNat).canon := by rw [UInt8.toNat_toUInt64]
      exact .present hr hv (.number rfl hcanon)
  | metaRetain =>
      have hr : evaluatePlanRuntimeValue .metaRetain ctx =
          .ok (some (.bool ctx.message.retain)) := by rw [evaluatePlanRuntimeValue]
      have hv : evaluatePlanValue .metaRetain ctx = .ok (.bool ctx.message.retain) := by
        rw [evaluatePlanValue]
      exact .present hr hv (.bool _)
  | metaDup =>
      have hr : evaluatePlanRuntimeValue .metaDup ctx =
          .ok (some (.bool ctx.message.dup)) := by rw [evaluatePlanRuntimeValue]
      have hv : evaluatePlanValue .metaDup ctx = .ok (.bool ctx.message.dup) := by
        rw [evaluatePlanValue]
      exact .present hr hv (.bool _)
  | metaTimestamp =>
      have hr : evaluatePlanRuntimeValue .metaTimestamp ctx =
          .ok (some (.number (F64.ofNat ctx.message.timestampMillis.toNat))) := by
        rw [evaluatePlanRuntimeValue]
      have hv : evaluatePlanValue .metaTimestamp ctx =
          .ok (.number (.fromU64 ctx.message.timestampMillis)) := by rw [evaluatePlanValue]
      exact .present hr hv (.number rfl rfl)
  | metaClientId =>
      apply Represents.ofText (t := metadataText ctx.message.clientId "clientId")
      · rw [evaluatePlanRuntimeValue]
      · rw [evaluatePlanValue]
  | metaUsername =>
      apply Represents.ofText (t := metadataText ctx.message.username "username")
      · rw [evaluatePlanRuntimeValue]
      · rw [evaluatePlanValue]
  | binary left op right => exact .absent (by rw [evaluatePlanRuntimeValue])
  | topicLevel level =>
      cases hlevel : evaluatePlanValue level ctx with
      | error e =>
          have hr : evaluatePlanRuntimeValue (.topicLevel level) ctx = .error e := by
            rw [evaluatePlanRuntimeValue, hlevel]
            rfl
          have hv : evaluatePlanValue (.topicLevel level) ctx = .error e := by
            rw [evaluatePlanValue, hlevel]
            rfl
          exact .failed hr hv
      | ok v =>
          apply Represents.ofText (t := topicLevelOf v ctx)
          · rw [evaluatePlanRuntimeValue, hlevel]
            rfl
          · rw [evaluatePlanValue, hlevel]
            rfl
  | propertiesKey key =>
      cases hkey : evaluatePlanValue key ctx with
      | error e =>
          have hr : evaluatePlanRuntimeValue (.propertiesKey key) ctx = .error e := by
            rw [evaluatePlanRuntimeValue, hkey]
            rfl
          have hv : evaluatePlanValue (.propertiesKey key) ctx = .error e := by
            rw [evaluatePlanValue, hkey]
            rfl
          exact .failed hr hv
      | ok v =>
          apply Represents.ofText (t := propertyOf v ctx)
          · rw [evaluatePlanRuntimeValue, hkey]
            rfl
          · rw [evaluatePlanValue, hkey]
            rfl
  | unknown expr => exact .absent (by rw [evaluatePlanRuntimeValue])

end Tenon.Core
