import Tenon.Core.PredicateValue

/-!
# ComparisonLaws — the six comparison operators on one pair of operands

Three functions compare: one folds constants, one compares JSON values and one runtime values.  They
agree wherever one of them answers.  Orderings of numbers are exact and equality has a tolerance, so
the operators obey the laws of an order exactly on the numbers that are equal or a tolerance apart.
-/

open Reasoning Reasoning.Binary64

namespace Tenon.Core

/-- Exactly one of `<`, `=` and `>` is true, and `<=` and `>=` follow from them. -/
structure OrderLaws (answer : BinaryOperator → Option Bool) : Prop where
  one :
    (answer .lt = some true ∧ answer .eq = some false ∧ answer .gt = some false) ∨
    (answer .lt = some false ∧ answer .eq = some true ∧ answer .gt = some false) ∨
    (answer .lt = some false ∧ answer .eq = some false ∧ answer .gt = some true)
  ltEq : answer .ltEq = some true ↔ answer .lt = some true ∨ answer .eq = some true
  gtEq : answer .gtEq = some true ↔ answer .gt = some true ∨ answer .eq = some true

/-- The numbers are equal, or their difference reaches the tolerance. -/
def Apart (x y : F64) : Prop := x.eq y = true ∨ F64.epsilon.le (x.sub y).abs = true

/-- The answers of one of the three comparison functions on operands that stand for two numbers. -/
inductive ComparesNumbers (x y : F64) : (BinaryOperator → Option Bool) → Prop where
  | folding {l r : Number} (hl : l.asF64 = some x) (hr : r.asF64 = some y) :
      ComparesNumbers x y (compareValues (.number l) (.number r))
  | values {l r : Number} (hl : l.asF64 = some x) (hr : r.asF64 = some y) (context : String) :
      ComparesNumbers x y fun op ↦
        (compareValuesRuntime (.number l) (.number r) op context).toOption
  | runtime (context : String) :
      ComparesNumbers x y fun op ↦
        (compareRuntimeRuntime (.number x) (.number y) op context).toOption

/-- What the operators say of two finite numbers. -/
structure NumberLaws (x y : F64) (answer : BinaryOperator → Option Bool) : Prop where
  answers : ∀ op, op.isComparison = true → (answer op).isSome
  notEq : answer .notEq = (answer .eq).map (!·)
  order_iff : OrderLaws answer ↔ Apart x y
  -- too close for the tolerance: equal, and still ordered
  close : ¬ Apart x y → answer .eq = some true ∧
    ((answer .lt = some true ∧ answer .gt = some false) ∨
      (answer .lt = some false ∧ answer .gt = some true))
  -- the exact difference, in units of 2^-1074, reaches 2^-52
  exact : 2 ^ 1022 ≤ (x.scaled - y.scaled).natAbs → Apart x y

/-! ## One table of answers -/

def numberAnswer (l r : F64) (op : BinaryOperator) : Option Bool :=
  match op with
  | .gt => some (r.lt l)
  | .gtEq => some (r.le l)
  | .lt => some (l.lt r)
  | .ltEq => some (l.le r)
  | .eq => some ((l.sub r).abs.lt F64.epsilon)
  | .notEq => some (F64.epsilon.le (l.sub r).abs)
  | _ => none

theorem ComparesNumbers.answer_eq {x y : F64} {answer : BinaryOperator → Option Bool}
    (h : ComparesNumbers x y answer) : answer = numberAnswer x y := by
  funext op
  cases h with
  | folding hl hr =>
      simp only [compareValues, hl, hr]
      cases op <;> rfl
  | @values l r hl hr context =>
      have hoperands : numericOperands (.number l) (.number r) op context = .ok (x, y) := by
        simp only [numericOperands, JsonValue.asF64, hl, hr]
      simp only [compareValuesRuntime, hoperands]
      cases op <;> rfl
  | runtime context =>
      simp only [compareRuntimeRuntime]
      cases op <;> rfl

section Finite

variable {x y : F64}

theorem apart_of_scaled_eq (hx : x.isFinite = true) (hy : y.isFinite = true)
    (h : x.scaled = y.scaled) : Apart x y :=
  Or.inl ((F64.eq_iff_scaled hx hy).mpr h)

/-- Distinct numbers are apart when the rounded difference reaches the tolerance. -/
theorem apart_iff_of_scaled_ne (hx : x.isFinite = true) (hy : y.isFinite = true)
    (h : x.scaled ≠ y.scaled) : Apart x y ↔ F64.epsilon.le (x.sub y).abs = true := by
  unfold Apart
  rw [F64.eq_iff_scaled hx hy]
  exact or_iff_right h

-- how two numbers are ordered decides the four orderings
theorem orderings_eq (hx : x.isFinite = true) (hy : y.isFinite = true) :
    x.lt y = decide (x.scaled < y.scaled) ∧ y.lt x = decide (y.scaled < x.scaled) ∧
      x.le y = decide (x.scaled ≤ y.scaled) ∧ y.le x = decide (y.scaled ≤ x.scaled) := by
  refine ⟨?_, ?_, ?_, ?_⟩
  · rw [Bool.eq_iff_iff, F64.lt_iff_scaled hx hy, decide_eq_true_iff]
  · rw [Bool.eq_iff_iff, F64.lt_iff_scaled hy hx, decide_eq_true_iff]
  · rw [Bool.eq_iff_iff, F64.le_iff_scaled hx hy, decide_eq_true_iff]
  · rw [Bool.eq_iff_iff, F64.le_iff_scaled hy hx, decide_eq_true_iff]

/-- Equal numbers obey the laws: their difference is zero. -/
theorem orderLaws_of_scaled_eq (hx : x.isFinite = true) (hy : y.isFinite = true)
    (h : x.scaled = y.scaled) : OrderLaws (numberAnswer x y) := by
  have heq : (x.sub y).abs.lt F64.epsilon = true := by
    rw [F64.lt_epsilon_eq hx hy, F64.not_epsilon_le_of_scaled_eq hx hy h]
    rfl
  obtain ⟨hlt, hgt, hle, hge⟩ := orderings_eq hx hy
  constructor <;> simp [numberAnswer, hlt, hgt, hle, hge, heq, h]

/-- Distinct numbers obey the laws when the tolerance tells them apart. -/
theorem orderLaws_iff_of_scaled_ne (hx : x.isFinite = true) (hy : y.isFinite = true)
    (h : x.scaled ≠ y.scaled) :
    OrderLaws (numberAnswer x y) ↔ F64.epsilon.le (x.sub y).abs = true := by
  have heq := F64.lt_epsilon_eq hx hy
  obtain ⟨hlt, hgt, hle, hge⟩ := orderings_eq hx hy
  constructor
  · intro hlaws
    by_contra hclose
    rw [Bool.not_eq_true] at hclose
    rw [hclose] at heq
    have hone := hlaws.one
    simp only [numberAnswer, heq, hlt, hgt, Option.some.injEq, decide_eq_true_eq,
      decide_eq_false_iff_not] at hone
    rcases hone with ⟨-, hfalse, -⟩ | ⟨hnlt, -, hngt⟩ | ⟨-, hfalse, -⟩
    · cases hfalse
    · omega
    · cases hfalse
  · intro hapart
    rw [hapart] at heq
    have hone : (x.scaled < y.scaled ∧ ¬ y.scaled < x.scaled) ∨
        (¬ x.scaled < y.scaled ∧ y.scaled < x.scaled) := by omega
    constructor
    · simp only [numberAnswer, heq, hlt, hgt, Option.some.injEq, decide_eq_true_eq,
        decide_eq_false_iff_not]
      rcases hone with ⟨hless, hnot⟩ | ⟨hnot, hmore⟩
      · exact Or.inl ⟨hless, rfl, hnot⟩
      · exact Or.inr (Or.inr ⟨hnot, rfl, hmore⟩)
    · simp only [numberAnswer, heq, hlt, hle, Option.some.injEq, decide_eq_true_eq, Bool.not_true,
        Bool.false_eq_true, or_false]
      omega
    · simp only [numberAnswer, heq, hgt, hge, Option.some.injEq, decide_eq_true_eq, Bool.not_true,
        Bool.false_eq_true, or_false]
      omega

theorem orderLaws_iff (hx : x.isFinite = true) (hy : y.isFinite = true) :
    OrderLaws (numberAnswer x y) ↔ Apart x y := by
  by_cases h : x.scaled = y.scaled
  · exact iff_of_true (orderLaws_of_scaled_eq hx hy h) (apart_of_scaled_eq hx hy h)
  · rw [orderLaws_iff_of_scaled_ne hx hy h, apart_iff_of_scaled_ne hx hy h]

theorem numberLaws (hx : x.isFinite = true) (hy : y.isFinite = true) :
    NumberLaws x y (numberAnswer x y) where
  answers op hop := by cases op <;> first | rfl | cases hop
  notEq := by
    simp only [numberAnswer, F64.lt_epsilon_eq hx hy, Option.map_some, Bool.not_not]
  order_iff := orderLaws_iff hx hy
  close hclose := by
    have hne : x.scaled ≠ y.scaled := fun h ↦ hclose (apart_of_scaled_eq hx hy h)
    have hbelow : F64.epsilon.le (x.sub y).abs = false := by
      rw [apart_iff_of_scaled_ne hx hy hne, Bool.not_eq_true] at hclose
      exact hclose
    obtain ⟨hlt, hgt, -, -⟩ := orderings_eq hx hy
    simp only [numberAnswer, F64.lt_epsilon_eq hx hy, hbelow, hlt, hgt, Option.some.injEq,
      decide_eq_true_eq, decide_eq_false_iff_not]
    exact ⟨rfl, by omega⟩
  exact hexact := Or.inr (F64.epsilon_le_abs_sub hx hy hexact)

end Finite

/-! ## The three functions agree -/

-- a comparison that is not folded fails
theorem compareValuesRuntime_of_no_fold {v w : JsonValue} {op : BinaryOperator}
    (h : compareValues v w op = none) (context : String) (b : Bool) :
    compareValuesRuntime v w op context ≠ .ok b := by
  cases v with
  | number n =>
      cases w with
      | number m =>
          have hsome (k : Number) : ∃ x, k.asF64 = some x := by cases k <;> exact ⟨_, rfl⟩
          obtain ⟨x, hx⟩ := hsome n
          obtain ⟨y, hy⟩ := hsome m
          have hoperands : numericOperands (.number n) (.number m) op context = .ok (x, y) := by
            simp only [numericOperands, JsonValue.asF64, hx, hy]
          simp only [compareValues, hx, hy] at h
          simp only [compareValuesRuntime, hoperands]
          intro hok
          obtain ⟨p, hp, hok⟩ := bind_eq_ok.mp hok
          cases hp
          cases op <;> first | exact absurd h (Option.some_ne_none _) | cases hok
      | _ => exact error_ne_ok
  | string s =>
      cases w with
      | string t => cases op <;> first | exact absurd h (Option.some_ne_none _) | exact error_ne_ok
      | _ => exact error_ne_ok
  | bool s =>
      cases w with
      | bool t => cases op <;> first | exact absurd h (Option.some_ne_none _) | exact error_ne_ok
      | _ => exact error_ne_ok
  | _ => exact error_ne_ok

/-- Folding answers exactly where comparing the JSON values does, and the same. -/
theorem compareValues_eq_some_iff (v w : JsonValue) (op : BinaryOperator) (context : String)
    (b : Bool) :
    compareValues v w op = some b ↔ compareValuesRuntime v w op context = .ok b := by
  constructor
  · intro h
    exact compareValuesRuntime_of_fold h context
  · intro h
    cases hfold : compareValues v w op with
    | none => exact absurd h (compareValuesRuntime_of_no_fold hfold context b)
    | some c =>
        rw [compareValuesRuntime_of_fold hfold context] at h
        exact congrArg some (Except.ok.inj h)

/-- On finite numbers all operators answer, `!=` negates `=`, and the laws of an order hold exactly
for numbers that are equal or a tolerance apart; the three functions agree on every operand. -/
theorem comparison_laws :
    (∀ x y answer, x.isFinite = true → y.isFinite = true → ComparesNumbers x y answer →
      NumberLaws x y answer) ∧
    (∀ v w op context b,
      compareValues v w op = some b ↔ compareValuesRuntime v w op context = .ok b) ∧
    (∀ l r v w, Corresponds l v → Corresponds r w → ∀ op context b,
      compareRuntimeRuntime l r op context = .ok b ↔ compareValues v w op = some b) := by
  refine ⟨?_, compareValues_eq_some_iff, ?_⟩
  · intro x y answer hx hy h
    rw [h.answer_eq]
    exact numberLaws hx hy
  · intro l r v w hl hr op context b
    rw [compareRuntimeRuntime_eq hl hr, compareValues_eq_some_iff v w op context]

-- 2^-53
def halfTolerance : F64 := .finite false (2 ^ 1021) (by decide +kernel)

theorem comparison_laws_halfTolerance :
    NumberLaws F64.zero halfTolerance fun op ↦
      (compareRuntimeRuntime (.number F64.zero) (.number halfTolerance) op "predicate").toOption :=
  comparison_laws.1 F64.zero halfTolerance _ rfl rfl (.runtime "predicate")

/-- Zero and half the tolerance are equal, and one is less than the other. -/
theorem not_orderLaws_halfTolerance :
    ¬ OrderLaws (compareValues (.number (.posInt 0)) (.number (.float halfTolerance rfl))) := by
  intro h
  have hlt : compareValues (.number (.posInt 0)) (.number (.float halfTolerance rfl)) .lt =
      some true := by decide +kernel
  have heq : compareValues (.number (.posInt 0)) (.number (.float halfTolerance rfl)) .eq =
      some true := by decide +kernel
  have hone := h.one
  rw [hlt, heq] at hone
  rcases hone with ⟨-, hfalse, -⟩ | ⟨hfalse, -, -⟩ | ⟨hfalse, -, -⟩ <;> cases hfalse

end Tenon.Core
