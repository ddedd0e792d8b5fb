import Tenon.Core.PredicateValue
import Tenon.Reasoning.Ends

/-!
# PlanTypes — static types of plans

A plan has a type, given the types of the payload fields it reads.  A typed plan never fails for the
types of its operands and yields values of its type; a plan without a type never yields a value at all,
since every part of a plan is evaluated, also behind an AND that is already false.  What typing leaves
open is whether the number that selects a topic level is a whole one.
-/

open Reasoning Reasoning.Binary64

namespace Tenon.Core

inductive ValueType where
  | number
  | string
  | bool
  -- null, arrays and objects
  | other
  deriving DecidableEq

def JsonValue.valueType : JsonValue → ValueType
  | .number _ => .number
  | .string _ => .string
  | .bool _ => .bool
  | _ => .other

/-- The type of an operation on operands of two types. -/
def BinaryOperator.typeOf (op : BinaryOperator) (left right : ValueType) : Option ValueType :=
  match op with
  | .plus | .minus | .multiply | .divide =>
      if left = .number ∧ right = .number then some .number else none
  | .gt | .gtEq | .lt | .ltEq => if left = .number ∧ right = .number then some .bool else none
  | .eq | .notEq => if left = right ∧ left ≠ .other then some .bool else none
  | .and | .or => if left = .bool ∧ right = .bool then some .bool else none
  | .other _ => none

namespace EvalExprPlan

/-- The type of a plan over typed payload fields. -/
def typeOf (fieldType : CompiledPayloadField → ValueType) : EvalExprPlan → Option ValueType
  | .const value => some value.valueType
  | .payloadField path => some (fieldType path)
  | .metaQos | .metaTimestamp => some .number
  | .metaRetain | .metaDup => some .bool
  | .metaClientId | .metaUsername => some .string
  | .binary left op right =>
      (left.typeOf fieldType).bind fun l ↦ (right.typeOf fieldType).bind fun r ↦ op.typeOf l r
  | .topicLevel level => if level.typeOf fieldType = some .number then some .string else none
  | .propertiesKey key => if key.typeOf fieldType = some .string then some .string else none
  | .unknown _ => none

-- a number that is known to be whole and not negative
def isWholeNumber : EvalExprPlan → Bool
  | .const value => (valueToNonNegativeU64 value "topic_level").toBool
  | .metaQos | .metaTimestamp => true
  | _ => false

/-- Every topic level of the plan is selected by such a number. -/
def levelsChecked : EvalExprPlan → Bool
  | .binary left _ right => left.levelsChecked && right.levelsChecked
  | .topicLevel level => level.isWholeNumber
  | .propertiesKey key => key.levelsChecked
  | _ => true

end EvalExprPlan

/-- The fields that a plan reads have their types where they are present, with finite numbers. -/
structure Conforms (fieldType : CompiledPayloadField → ValueType) (plan : EvalExprPlan)
    (ctx : EvalContext) : Prop where
  typed : ∀ f, plan.Reads f → ∀ value, ctx.payload.getField f = some value →
    value.toJsonValue.valueType = fieldType f
  finite : ∀ f, plan.Reads f → ∀ x, ctx.payload.getField f = some (.number x) → x.isFinite = true

/-! ## Errors that typing rules out -/

-- operands of types that an operation does not take
def EvalError.isMismatch : EvalError → Bool
  | .typeMismatch .. | .binaryTypeMismatch .. => true
  | _ => false

/-- An error that a typed plan may end in. -/
def EvalError.Untyped (checked : Bool) (error : EvalError) : Prop :=
  error.isMismatch = false ∧ (checked = true → error.isTypeError = false)

/-- The result is no error that typing rules out. -/
def WellTyped {α : Type} (checked : Bool) (x : Except EvalError α) : Prop :=
  Ends (fun _ ↦ True) (EvalError.Untyped checked) x

namespace WellTyped

variable {α β : Type} {checked : Bool} {x : Except EvalError α}

theorem ok (a : α) : WellTyped checked (.ok a) := trivial

theorem of_not_typeError {error : EvalError} (h : error.isTypeError = false) :
    WellTyped (α := α) checked (.error error) := by
  refine ⟨?_, fun _ ↦ h⟩
  cases error <;> first | rfl | cases h

theorem mono {checked' : Bool} (h : WellTyped checked x) (himp : checked' = true → checked = true) :
    WellTyped checked' x :=
  Ends.mono h (fun _ _ ↦ trivial) fun _ he ↦ ⟨he.1, fun hchecked ↦ he.2 (himp hchecked)⟩

theorem bind {f : α → Except EvalError β} (h : WellTyped checked x)
    (hf : ∀ a, x = .ok a → WellTyped checked (f a)) : WellTyped checked (x.bind f) :=
  Ends.bind h fun a ha _ ↦ hf a ha

theorem map {f : α → β} (h : WellTyped checked x) : WellTyped checked (x.map f) :=
  Ends.map h fun _ _ _ ↦ trivial

end WellTyped

/-! ## Operations on typed values -/

theorem numericOperands_of_number {v w : JsonValue} (hv : v.valueType = .number)
    (hw : w.valueType = .number) (op : BinaryOperator) (context : String) :
    ∃ x y, numericOperands v w op context = .ok (x, y) := by
  have hsome (n : Number) : ∃ x, n.asF64 = some x := by cases n <;> exact ⟨_, rfl⟩
  cases v with
  | number n =>
      cases w with
      | number m =>
          obtain ⟨x, hx⟩ := hsome n
          obtain ⟨y, hy⟩ := hsome m
          exact ⟨x, y, by simp only [numericOperands, JsonValue.asF64, hx, hy]⟩
      | _ => cases hw
  | _ => cases hv

theorem wellTyped_arithmetic {v w : JsonValue} (hv : v.valueType = .number)
    (hw : w.valueType = .number) (op : BinaryOperator) (context : String) (checked : Bool) :
    WellTyped checked (evaluateArithmeticRuntime v w op context) := by
  obtain ⟨x, y, hoperands⟩ := numericOperands_of_number hv hw op context
  rw [evaluateArithmeticRuntime, hoperands]
  dsimp only [bind, Except.bind]
  split
  · exact .ok _
  · exact .of_not_typeError rfl

theorem valueType_arithmetic {v w u : JsonValue} {op : BinaryOperator} {context : String}
    (h : evaluateArithmeticRuntime v w op context = .ok u) :
    v.valueType = .number ∧ w.valueType = .number ∧ u.valueType = .number := by
  have hnumber (v : JsonValue) (x : F64) (hx : v.asF64 = some x) : v.valueType = .number := by
    cases v <;> first | rfl | cases hx
  obtain ⟨⟨x, y⟩, hoperands, hresult⟩ := bind_eq_ok.mp h
  unfold numericOperands at hoperands
  split at hoperands
  · rename_i l r hl hr
    refine ⟨hnumber v l hl, hnumber w r hr, ?_⟩
    dsimp only at hresult
    split at hresult
    · cases hresult
      rfl
    · cases hresult
  · cases hoperands

theorem wellTyped_comparison {v w : JsonValue} {op : BinaryOperator} {t : ValueType}
    (hop : op.isComparison = true) (h : op.typeOf v.valueType w.valueType = some t)
    (context : String) (checked : Bool) :
    WellTyped checked (compareValuesRuntime v w op context) := by
  cases v with
  | number n =>
      cases w with
      | number m =>
          obtain ⟨x, y, hoperands⟩ :=
            numericOperands_of_number (v := .number n) (w := .number m) rfl rfl op context
          simp only [compareValuesRuntime, hoperands]
          cases op <;> first | exact .ok _ | contradiction
      | _ => cases op <;> contradiction
  | string s =>
      cases w with
      | string t => cases op <;> first | exact .ok _ | contradiction
      | _ => cases op <;> contradiction
  | bool s =>
      cases w with
      | bool t => cases op <;> first | exact .ok _ | contradiction
      | _ => cases op <;> contradiction
  | _ => cases w <;> cases op <;> contradiction

theorem typeOf_comparison {v w : JsonValue} {op : BinaryOperator} {b : Bool} {context : String}
    (hop : op.isComparison = true) (h : compareValuesRuntime v w op context = .ok b) :
    op.typeOf v.valueType w.valueType = some .bool := by
  cases v with
  | number n => cases w <;> cases op <;> first | rfl | contradiction
  | string s => cases w <;> cases op <;> first | rfl | contradiction
  | bool s => cases w <;> cases op <;> first | rfl | contradiction
  | _ => contradiction

theorem wellTyped_expectBool {v : JsonValue} (h : v.valueType = .bool) (checked : Bool) :
    WellTyped checked (expectBool v) := by
  cases v <;> first | exact .ok _ | contradiction

theorem wellTyped_metadataText (value : Option String) (name : String) (checked : Bool) :
    WellTyped checked (metadataText value name) := by
  cases value with
  | none => exact .of_not_typeError rfl
  | some text => exact .ok text

theorem wellTyped_propertyOf {v : JsonValue} (h : v.valueType = .string) (ctx : EvalContext)
    (checked : Bool) : WellTyped checked (propertyOf v ctx) := by
  cases v with
  | string key =>
      unfold propertyOf
      dsimp only [JsonValue.asStr]
      cases ctx.message.properties.lookup key with
      | some value => exact .ok _
      | none => exact .of_not_typeError rfl
  | _ => contradiction

-- a level that is not known to be whole may turn out not to be
theorem wellTyped_topicLevelOf (v : JsonValue) (ctx : EvalContext) {checked : Bool}
    (h : checked = true → ∃ n, valueToNonNegativeU64 v "topic_level" = .ok n) :
    WellTyped checked (topicLevelOf v ctx) := by
  have hlevel : WellTyped checked (valueToNonNegativeU64 v "topic_level") := by
    refine .of_forall (fun _ _ ↦ trivial) fun error herror ↦ ?_
    have hunchecked : ¬ checked = true := by
      intro hchecked
      obtain ⟨n, hn⟩ := h hchecked
      rw [hn] at herror
      contradiction
    refine ⟨?_, fun hchecked ↦ absurd hchecked hunchecked⟩
    unfold valueToNonNegativeU64 at herror
    split at herror
    · contradiction
    · split at herror
      · cases herror
        rfl
      · split at herror
        · cases herror
          rfl
        · contradiction
  refine hlevel.bind fun level _ ↦ ?_
  dsimp only
  generalize (if level = 0 then 0 else level - 1) = index
  split
  · exact .ok _
  · exact .of_not_typeError rfl

/-! ## Typed plans -/

/-- What evaluating a plan of a type can give. -/
structure Typed (t : ValueType) (plan : EvalExprPlan) (ctx : EvalContext) : Prop where
  value : ∀ v, evaluatePlanValue plan ctx = .ok v → v.valueType = t
  valueError : WellTyped plan.levelsChecked (evaluatePlanValue plan ctx)
  boolError : t = .bool → WellTyped plan.levelsChecked (evaluatePlanBool plan ctx)

section Plans

variable {fieldType : CompiledPayloadField → ValueType} {ctx : EvalContext}
  {left right plan : EvalExprPlan} {op : BinaryOperator} {l r t : ValueType}

theorem Conforms.leftOperand (h : Conforms fieldType (.binary left op right) ctx) :
    Conforms fieldType left ctx :=
  ⟨fun f hf ↦ h.typed f (Or.inl hf), fun f hf ↦ h.finite f (Or.inl hf)⟩

theorem Conforms.rightOperand (h : Conforms fieldType (.binary left op right) ctx) :
    Conforms fieldType right ctx :=
  ⟨fun f hf ↦ h.typed f (Or.inr hf), fun f hf ↦ h.finite f (Or.inr hf)⟩

theorem Conforms.finiteField (h : Conforms fieldType plan ctx) : ¬ NonFiniteField plan ctx := by
  intro hfield
  rcases hfield with ⟨path, x, rfl, hvalue, hx⟩
  rw [h.finite path rfl x hvalue] at hx
  contradiction

namespace Typed

-- the truth value of most plans is read off the value
theorem ofValue (hbool : evaluatePlanBool plan ctx = (evaluatePlanValue plan ctx).bind expectBool)
    (hvalue : ∀ v, evaluatePlanValue plan ctx = .ok v → v.valueType = t)
    (herror : WellTyped plan.levelsChecked (evaluatePlanValue plan ctx)) : Typed t plan ctx where
  value := hvalue
  valueError := herror
  boolError ht := by
    rw [hbool]
    exact herror.bind fun v hv ↦ wellTyped_expectBool ((hvalue v hv).trans ht) _

theorem ofOk {v : JsonValue} (hbool : evaluatePlanBool plan ctx =
    (evaluatePlanValue plan ctx).bind expectBool) (hvalue : evaluatePlanValue plan ctx = .ok v)
    (htype : v.valueType = t) : Typed t plan ctx := by
  refine ofValue hbool (fun w hw ↦ ?_) ?_
  · cases hvalue.symm.trans hw
    exact htype
  · rw [hvalue]
    exact .ok v

-- a text
theorem ofText {text : Except EvalError String} (hbool : evaluatePlanBool plan ctx =
    (evaluatePlanValue plan ctx).bind expectBool)
    (hvalue : evaluatePlanValue plan ctx = text.map .string)
    (htext : WellTyped plan.levelsChecked text) : Typed .string plan ctx := by
  refine ofValue hbool (fun v hv ↦ ?_) ?_
  · obtain ⟨s, -, rfl⟩ := map_eq_ok.mp (hvalue.symm.trans hv)
    rfl
  · rw [hvalue]
    exact htext.map

theorem payloadField {path : CompiledPayloadField} (h : Conforms fieldType (.payloadField path) ctx) :
    Typed (fieldType path) (.payloadField path) ctx := by
  have hbool : evaluatePlanBool (.payloadField path) ctx =
      (evaluatePlanValue (.payloadField path) ctx).bind expectBool := by
    rw [evaluatePlanBool]
    rfl
  cases hfield : ctx.payload.getField path with
  | none =>
      have hvalue : evaluatePlanValue (.payloadField path) ctx =
          .error (.missingPayloadField path.key) := by
        rw [evaluatePlanValue, payloadValueByPath, hfield]
        rfl
      refine ofValue hbool (fun v hv ↦ ?_) ?_
      · rw [hvalue] at hv
        contradiction
      · rw [hvalue]
        exact .of_not_typeError rfl
  | some value =>
      have hvalue : evaluatePlanValue (.payloadField path) ctx = .ok value.toJsonValue := by
        rw [evaluatePlanValue, payloadValueByPath, hfield]
        rfl
      exact ofOk hbool hvalue (h.typed path rfl value hfield)

theorem topicLevel (h : Typed .number plan ctx) : Typed .string (.topicLevel plan) ctx := by
  have hbool : evaluatePlanBool (.topicLevel plan) ctx =
      (evaluatePlanValue (.topicLevel plan) ctx).bind expectBool := by
    rw [evaluatePlanBool]
    rfl
  have hvalue : evaluatePlanValue (.topicLevel plan) ctx =
      ((evaluatePlanValue plan ctx).bind (topicLevelOf · ctx)).map .string := by
    rw [evaluatePlanValue]
    cases evaluatePlanValue plan ctx <;> rfl
  -- such a plan selects no topic level itself
  have hchecked : plan.isWholeNumber = true → plan.levelsChecked = true := by
    cases plan <;> first | exact fun _ ↦ rfl | exact fun h ↦ absurd h Bool.false_ne_true
  refine ofText hbool hvalue ((h.valueError.mono hchecked).bind fun v hv ↦ ?_)
  refine wellTyped_topicLevelOf v ctx fun hwhole ↦ ?_
  have hwhole : plan.isWholeNumber = true := hwhole
  have hfromU64 (n : UInt64) : valueToNonNegativeU64 (.number (.fromU64 n)) "topic_level" =
      .ok n.toNat := by
    rfl
  cases plan with
  | const value =>
      rw [evaluatePlanValue] at hv
      cases hv
      rw [EvalExprPlan.isWholeNumber] at hwhole
      cases hlevel : valueToNonNegativeU64 v "topic_level" with
      | error e =>
          rw [hlevel] at hwhole
          exact absurd hwhole Bool.false_ne_true
      | ok n => exact ⟨n, rfl⟩
  | metaQos =>
      rw [evaluatePlanValue] at hv
      cases hv
      exact ⟨_, hfromU64 _⟩
  | metaTimestamp =>
      rw [evaluatePlanValue] at hv
      cases hv
      exact ⟨_, hfromU64 _⟩
  | _ => exact absurd hwhole Bool.false_ne_true

theorem propertiesKey (h : Typed .string plan ctx) : Typed .string (.propertiesKey plan) ctx := by
  have hbool : evaluatePlanBool (.propertiesKey plan) ctx =
      (evaluatePlanValue (.propertiesKey plan) ctx).bind expectBool := by
    rw [evaluatePlanBool]
    rfl
  have hvalue : evaluatePlanValue (.propertiesKey plan) ctx =
      ((evaluatePlanValue plan ctx).bind (propertyOf · ctx)).map .string := by
    rw [evaluatePlanValue]
    cases evaluatePlanValue plan ctx <;> rfl
  exact ofText hbool hvalue (h.valueError.bind fun v hv ↦ wellTyped_propertyOf (h.value v hv) ctx _)

/-! ## Typed operations -/

theorem leftError (h : Typed l left ctx) : WellTyped
    (EvalExprPlan.binary left op right).levelsChecked (evaluatePlanValue left ctx) :=
  h.valueError.mono fun hchecked ↦ (Bool.and_eq_true_iff.mp hchecked).1

theorem rightError (h : Typed r right ctx) : WellTyped
    (EvalExprPlan.binary left op right).levelsChecked (evaluatePlanValue right ctx) :=
  h.valueError.mono fun hchecked ↦ (Bool.and_eq_true_iff.mp hchecked).2

theorem logical (hop : op.isLogical = true) (hl : Typed l left ctx) (hr : Typed r right ctx)
    (htype : op.typeOf l r = some t) : Typed t (.binary left op right) ctx := by
  obtain ⟨rfl, rfl, rfl⟩ : l = .bool ∧ r = .bool ∧ t = .bool := by
    cases op with
    | and | or =>
        rw [BinaryOperator.typeOf] at htype
        split at htype
        · rename_i hboth
          exact ⟨hboth.1, hboth.2, (Option.some.inj htype).symm⟩
        · contradiction
    | _ => contradiction
  have hbool : WellTyped (EvalExprPlan.binary left op right).levelsChecked
      (evaluatePlanBool (.binary left op right) ctx) := by
    rw [evaluatePlanBool, if_pos hop]
    have hleft : WellTyped (EvalExprPlan.binary left op right).levelsChecked
        (evaluatePlanBool left ctx) :=
      (hl.boolError rfl).mono fun hchecked ↦ (Bool.and_eq_true_iff.mp hchecked).1
    have hright : WellTyped (EvalExprPlan.binary left op right).levelsChecked
        (evaluatePlanBool right ctx) :=
      (hr.boolError rfl).mono fun hchecked ↦ (Bool.and_eq_true_iff.mp hchecked).2
    refine hleft.bind fun a _ ↦ hright.bind fun b _ ↦ ?_
    cases op <;> exact .ok _
  have hvalue : evaluatePlanValue (.binary left op right) ctx =
      (evaluatePlanBool (.binary left op right) ctx).map .bool := by
    rw [evaluatePlanValue, if_pos hop]
  refine ⟨fun v hv ↦ ?_, hvalue ▸ hbool.map, fun _ ↦ hbool⟩
  obtain ⟨b, -, rfl⟩ := map_eq_ok.mp (hvalue.symm.trans hv)
  rfl

theorem slowCompare (hop : op.isComparison = true) (hl : Typed l left ctx) (hr : Typed r right ctx)
    (htype : op.typeOf l r = some t) :
    WellTyped (EvalExprPlan.binary left op right).levelsChecked (slowCompare left op right ctx) := by
  refine hl.leftError.bind fun v hv ↦ hr.rightError.bind fun w hw ↦ ?_
  rw [← hl.value v hv, ← hr.value w hw] at htype
  exact wellTyped_comparison hop htype _ _

theorem scalar (h : Typed t plan ctx) (ht : t ≠ .other) {v : JsonValue}
    (hv : evaluatePlanValue plan ctx = .ok v) : Scalar v := by
  have htype := h.value v hv
  cases v <;> first | trivial | exact absurd htype.symm ht

theorem compareBool (hop : op.isComparison = true) (hl : Typed l left ctx) (hr : Typed r right ctx)
    (hfinl : ¬ NonFiniteField left ctx) (hfinr : ¬ NonFiniteField right ctx)
    (htype : op.typeOf l r = some t) : WellTyped
      (EvalExprPlan.binary left op right).levelsChecked (evaluatePlanCompareBool left op right ctx) := by
  have hscalar : l ≠ .other ∧ r ≠ .other := by
    constructor
    · rintro rfl
      cases op <;> cases r <;> contradiction
    · rintro rfl
      cases op <;> cases l <;> contradiction
  rw [evaluatePlanCompareBool]
  -- an operand that has a runtime value has the corresponding JSON value
  cases represents left hfinl with
  | absent h =>
      rw [h]
      exact .ok none
  | failed h hv =>
      rw [h]
      exact Ends.error hl.leftError hv
  | rejected h he hv hnot => exact absurd (hl.scalar hscalar.1 hv) hnot
  | present h hv hcorr =>
      rename_i rl v
      rw [h]
      cases represents right hfinr with
      | absent h' =>
          rw [h']
          exact .ok none
      | failed h' hw =>
          rw [h']
          exact Ends.error hr.rightError hw
      | rejected h' he hw hnot => exact absurd (hr.scalar hscalar.2 hw) hnot
      | present h' hw hcorr' =>
          rename_i rr w
          rw [h']
          change WellTyped _ ((compareRuntimeRuntime rl rr op "predicate").map some)
          rw [compareRuntimeRuntime_eq hcorr hcorr']
          rw [← hl.value v hv, ← hr.value w hw] at htype
          exact (wellTyped_comparison hop htype _ _).map

theorem comparison (hop : op.isComparison = true) (hl : Typed l left ctx) (hr : Typed r right ctx)
    (hfinl : ¬ NonFiniteField left ctx) (hfinr : ¬ NonFiniteField right ctx)
    (htype : op.typeOf l r = some t) : Typed t (.binary left op right) ctx := by
  have hlogical : op.isLogical = false := by cases op <;> first | rfl | contradiction
  have harith : op.isArithmetic = false := by cases op <;> first | rfl | contradiction
  have ht : t = .bool := by
    cases op with
    | gt | gtEq | lt | ltEq | eq | notEq =>
        rw [BinaryOperator.typeOf] at htype
        split at htype
        · exact (Option.some.inj htype).symm
        · contradiction
    | _ => contradiction
  have hvalue : evaluatePlanValue (.binary left op right) ctx =
      ((evaluatePlanValue left ctx).bind fun v ↦ (evaluatePlanValue right ctx).bind fun w ↦
        compareValuesRuntime v w op "projection").map .bool := by
    rw [evaluatePlanValue, hlogical, harith, hop]
    cases evaluatePlanValue left ctx with
    | error e => rfl
    | ok v => cases evaluatePlanValue right ctx <;> rfl
  refine ⟨fun v hv ↦ ?_, ?_, fun _ ↦ ?_⟩
  · obtain ⟨b, -, rfl⟩ := map_eq_ok.mp (hvalue.symm.trans hv)
    exact ht.symm
  · rw [hvalue]
    refine (hl.leftError.bind fun v hv ↦ hr.rightError.bind fun w hw ↦ ?_).map
    rw [← hl.value v hv, ← hr.value w hw] at htype
    exact wellTyped_comparison hop htype _ _
  · rw [evaluatePlanBool_comparison hop]
    refine (hl.compareBool hop hr hfinl hfinr htype).bind fun decided _ ↦ ?_
    cases decided with
    | some b => exact .ok b
    | none => exact hl.slowCompare hop hr htype

theorem arithmetic (hop : op.isArithmetic = true) (hl : Typed l left ctx) (hr : Typed r right ctx)
    (htype : op.typeOf l r = some t) : Typed t (.binary left op right) ctx := by
  have hlogical : op.isLogical = false := by cases op <;> first | rfl | contradiction
  have hcomp : op.isComparison = false := by cases op <;> first | rfl | contradiction
  obtain ⟨rfl, rfl, rfl⟩ : l = .number ∧ r = .number ∧ t = .number := by
    cases op with
    | plus | minus | multiply | divide =>
        rw [BinaryOperator.typeOf] at htype
        split at htype
        · rename_i hboth
          exact ⟨hboth.1, hboth.2, (Option.some.inj htype).symm⟩
        · contradiction
    | _ => contradiction
  have hvalue : evaluatePlanValue (.binary left op right) ctx =
      (evaluatePlanValue left ctx).bind fun v ↦ (evaluatePlanValue right ctx).bind fun w ↦
        evaluateArithmeticRuntime v w op "projection" := by
    rw [evaluatePlanValue, hlogical, hop]
    cases evaluatePlanValue left ctx with
    | error e => rfl
    | ok v => cases evaluatePlanValue right ctx <;> rfl
  have hbool : evaluatePlanBool (.binary left op right) ctx =
      (evaluatePlanValue (.binary left op right) ctx).bind expectBool := by
    rw [evaluatePlanBool, hlogical, hcomp]
    rfl
  refine ofValue hbool (fun v hv ↦ ?_) ?_
  · obtain ⟨a, -, hrest⟩ := bind_eq_ok.mp (hvalue.symm.trans hv)
    obtain ⟨b, -, hresult⟩ := bind_eq_ok.mp hrest
    exact (valueType_arithmetic hresult).2.2
  · rw [hvalue]
    exact hl.leftError.bind fun v hv ↦ hr.rightError.bind fun w hw ↦
      wellTyped_arithmetic (hl.value v hv) (hr.value w hw) op _ _

theorem binary (hl : Typed l left ctx) (hr : Typed r right ctx) (hfinl : ¬ NonFiniteField left ctx)
    (hfinr : ¬ NonFiniteField right ctx) (htype : op.typeOf l r = some t) :
    Typed t (.binary left op right) ctx := by
  by_cases hlogical : op.isLogical = true
  · exact hl.logical hlogical hr htype
  · by_cases hcomp : op.isComparison = true
    · exact hl.comparison hcomp hr hfinl hfinr htype
    · have harith : op.isArithmetic = true := by
        cases op <;> first | rfl | contradiction
      exact hl.arithmetic harith hr htype

end Typed

/-- A plan with a type gives what its type says. -/
theorem typed_of_typeOf (h : Conforms fieldType plan ctx) (htype : plan.typeOf fieldType = some t) :
    Typed t plan ctx := by
  induction plan generalizing t with
  | const value =>
      cases htype
      exact .ofOk (v := value) (by rw [evaluatePlanBool]; rfl) (by rw [evaluatePlanValue]) rfl
  | payloadField path =>
      cases htype
      exact .payloadField h
  | metaQos | metaRetain | metaDup | metaTimestamp =>
      cases htype
      refine .ofOk ?_ (by rw [evaluatePlanValue]) rfl
      rw [evaluatePlanBool]
      rfl
  | metaClientId =>
      cases htype
      refine .ofText ?_ (by rw [evaluatePlanValue]) (wellTyped_metadataText _ _ _)
      rw [evaluatePlanBool]
      rfl
  | metaUsername =>
      cases htype
      refine .ofText ?_ (by rw [evaluatePlanValue]) (wellTyped_metadataText _ _ _)
      rw [evaluatePlanBool]
      rfl
  | binary left op right ihl ihr =>
      obtain ⟨l, hl, hrest⟩ := Option.bind_eq_some_iff.mp htype
      obtain ⟨r, hr, hop⟩ := Option.bind_eq_some_iff.mp hrest
      exact (ihl h.leftOperand hl).binary (ihr h.rightOperand hr) h.leftOperand.finiteField
        h.rightOperand.finiteField hop
  | topicLevel level ih =>
      rw [EvalExprPlan.typeOf] at htype
      split at htype
      · rename_i hlevel
        cases htype
        exact .topicLevel (ih ⟨h.typed, h.finite⟩ hlevel)
      · contradiction
  | propertiesKey key ih =>
      rw [EvalExprPlan.typeOf] at htype
      split at htype
      · rename_i hkey
        cases htype
        exact .propertiesKey (ih ⟨h.typed, h.finite⟩ hkey)
      · contradiction
  | unknown expr => contradiction

/-! ## Plans without a type -/

theorem value_of_bool (h : Conforms fieldType plan ctx) {b : Bool}
    (hbool : evaluatePlanBool plan ctx = .ok b) : evaluatePlanValue plan ctx = .ok (.bool b) := by
  cases plan with
  | binary left op right =>
      have hcomparison : ¬ NonFiniteComparison (.binary left op right) ctx := by
        intro hnot
        rcases hnot with ⟨l, o, r, heq, -, ⟨hfield, -⟩ | ⟨hfield, -⟩⟩
        · cases heq
          exact h.leftOperand.finiteField hfield
        · cases heq
          exact h.rightOperand.finiteField hfield
      exact (boolAgrees_binary hcomparison b).mp hbool
  | _ =>
      rw [evaluatePlanBool] at hbool
      exact bind_expectBool_eq_ok_iff.mp hbool

/-- An operation that yields a value has a type on the types of its operands. -/
theorem typeOf_operands (h : Conforms fieldType (.binary left op right) ctx) {u : JsonValue}
    (hu : evaluatePlanValue (.binary left op right) ctx = .ok u) :
    ∃ v w, evaluatePlanValue left ctx = .ok v ∧ evaluatePlanValue right ctx = .ok w ∧
      (op.typeOf v.valueType w.valueType).isSome := by
  rw [evaluatePlanValue] at hu
  split at hu
  · rename_i hlogical
    obtain ⟨b, hb, -⟩ := map_eq_ok.mp hu
    rw [evaluatePlanBool, if_pos hlogical] at hb
    obtain ⟨x, hx, hrest⟩ := bind_eq_ok.mp hb
    obtain ⟨y, hy, -⟩ := bind_eq_ok.mp hrest
    refine ⟨_, _, value_of_bool h.leftOperand hx, value_of_bool h.rightOperand hy, ?_⟩
    cases op <;> first | rfl | contradiction
  · obtain ⟨v, hv, hrest⟩ := bind_eq_ok.mp hu
    obtain ⟨w, hw, hresult⟩ := bind_eq_ok.mp hrest
    refine ⟨v, w, hv, hw, ?_⟩
    split at hresult
    · rename_i harith
      obtain ⟨hvt, hwt, -⟩ := valueType_arithmetic hresult
      rw [hvt, hwt]
      cases op <;> first | rfl | contradiction
    · split at hresult
      · rename_i hcomp
        obtain ⟨b, hb, -⟩ := map_eq_ok.mp hresult
        rw [typeOf_comparison hcomp hb]
        rfl
      · contradiction

theorem string_of_propertyOf {v : JsonValue} {text : String} (h : propertyOf v ctx = .ok text) :
    v.valueType = .string := by
  cases v <;> first | rfl | contradiction

theorem number_of_topicLevelOf {v : JsonValue} {text : String} (h : topicLevelOf v ctx = .ok text) :
    v.valueType = .number := by
  obtain ⟨level, hlevel, -⟩ := bind_eq_ok.mp h
  cases v <;> first | rfl | contradiction

/-- A plan that yields a value has a type. -/
theorem exists_typeOf (h : Conforms fieldType plan ctx) {u : JsonValue}
    (hu : evaluatePlanValue plan ctx = .ok u) : plan.typeOf fieldType = some u.valueType := by
  have htyped : ∃ t, plan.typeOf fieldType = some t := by
    induction plan generalizing u with
    | binary left op right ihl ihr =>
        obtain ⟨v, w, hv, hw, hop⟩ := typeOf_operands h hu
        obtain ⟨l, hl⟩ := ihl h.leftOperand hv
        obtain ⟨r, hr⟩ := ihr h.rightOperand hw
        rw [(typed_of_typeOf h.leftOperand hl).value v hv,
          (typed_of_typeOf h.rightOperand hr).value w hw] at hop
        obtain ⟨t, ht⟩ := Option.isSome_iff_exists.mp hop
        refine ⟨t, ?_⟩
        rw [EvalExprPlan.typeOf, hl, hr]
        exact ht
    | topicLevel level ih =>
        rw [evaluatePlanValue] at hu
        obtain ⟨v, hv, hrest⟩ := bind_eq_ok.mp hu
        obtain ⟨text, htext, -⟩ := map_eq_ok.mp hrest
        have hlevel : Conforms fieldType level ctx := ⟨h.typed, h.finite⟩
        obtain ⟨t, ht⟩ := ih hlevel hv
        have hnumber := ((typed_of_typeOf hlevel ht).value v hv).symm.trans (number_of_topicLevelOf htext)
        exact ⟨.string, by rw [EvalExprPlan.typeOf, ht, hnumber, if_pos rfl]⟩
    | propertiesKey key ih =>
        rw [evaluatePlanValue] at hu
        obtain ⟨v, hv, hrest⟩ := bind_eq_ok.mp hu
        obtain ⟨text, htext, -⟩ := map_eq_ok.mp hrest
        have hkey : Conforms fieldType key ctx := ⟨h.typed, h.finite⟩
        obtain ⟨t, ht⟩ := ih hkey hv
        have hstring := ((typed_of_typeOf hkey ht).value v hv).symm.trans (string_of_propertyOf htext)
        exact ⟨.string, by rw [EvalExprPlan.typeOf, ht, hstring, if_pos rfl]⟩
    | unknown expr =>
        rw [evaluatePlanValue] at hu
        contradiction
    | _ => exact ⟨_, rfl⟩
  obtain ⟨t, ht⟩ := htyped
  rw [ht, (typed_of_typeOf h ht).value u hu]

end Plans

/-- On payloads whose fields have their types, a plan with a type yields values of that type only, and
its errors are never about the types of operands, nor any type errors once its topic levels are known to
be whole; a WHERE clause of type bool fails in the same cases.  A plan without a type yields no value,
and only plans of type bool decide. -/
theorem plan_types (fieldType : CompiledPayloadField → ValueType) (plan : EvalExprPlan)
    (ctx : EvalContext) (h : Conforms fieldType plan ctx) :
    (∀ v, evaluatePlanValue plan ctx = .ok v → plan.typeOf fieldType = some v.valueType) ∧
      (∀ b, evaluatePlanBool plan ctx = .ok b → plan.typeOf fieldType = some .bool) ∧
      (∀ error, plan.typeOf fieldType ≠ none → evaluatePlanValue plan ctx = .error error →
        error.Untyped plan.levelsChecked) ∧
      (∀ error, plan.typeOf fieldType = some .bool → evaluatePlanBool plan ctx = .error error →
        error.Untyped plan.levelsChecked) := by
  refine ⟨fun v hv ↦ exists_typeOf h hv, fun b hb ↦ exists_typeOf h (value_of_bool h hb), ?_, ?_⟩
  · intro error htype herror
    obtain ⟨t, ht⟩ := Option.ne_none_iff_exists'.mp htype
    exact Ends.error (typed_of_typeOf h ht).valueError herror
  · intro error htype herror
    exact Ends.error ((typed_of_typeOf h htype).boolError rfl) herror

/-- `temp = "hot"` on a payload whose `temp` is a string. -/
theorem plan_types_demo :
    let payload := MsgIr.new.insert "temp" (.string "hot")
    let ctx : EvalContext := ⟨Message.new "t" [], payload, ["t"]⟩
    let plan : EvalExprPlan := .binary (.payloadField (.fromKey "temp")) .eq (.const (.string "hot"))
    (∀ v, evaluatePlanValue plan ctx = .ok v → plan.typeOf (fun _ ↦ .string) = some v.valueType) ∧
      (∀ b, evaluatePlanBool plan ctx = .ok b → plan.typeOf (fun _ ↦ .string) = some .bool) ∧
      (∀ error, plan.typeOf (fun _ ↦ .string) ≠ none → evaluatePlanValue plan ctx = .error error →
        error.Untyped plan.levelsChecked) ∧
      (∀ error, plan.typeOf (fun _ ↦ .string) = some .bool → evaluatePlanBool plan ctx = .error error →
        error.Untyped plan.levelsChecked) := by
  apply plan_types (fun _ ↦ .string)
  have hget (f : CompiledPayloadField) (value : PayloadValue)
      (h : (MsgIr.new.insert "temp" (.string "hot")).getField f = some value) :
      value = .string "hot" := by
    rw [MsgIr.getField, MsgIr.getKey_insert] at h
    split at h
    · exact (Option.some.inj h).symm
    · contradiction
  constructor
  · intro f _ value hvalue
    rw [hget f value hvalue]
    rfl
  · intro f _ x hx
    cases hget f (.number x) hx

end Tenon.Core
