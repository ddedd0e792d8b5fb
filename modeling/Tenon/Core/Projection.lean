import Tenon.Core.JsonPaths
import Tenon.Core.RuleEval

/-!
# Projection — a payload value on its way through the doubles and back

Decoding turns every number of a JSON value into a double and projecting turns doubles back into
integers where it can.  A value keeps its meaning exactly when each of its numbers does: an integer
must be a double itself, and the double `2^64` must not occur, because the range test before the cast
lets it through and the cast saturates one below.
-/

open Reasoning.Binary64

namespace Tenon.Core

namespace Number

/-- The mathematical value, in units of `2^-1074`. -/
def numericValue : Number → Int
  | .posInt n => n.toNat * unit
  | .negInt i _ => i.toInt * unit
  | .float x _ => x.scaled

/-- The number is a double, or the largest unsigned integer, and is not `2^64` in float form. -/
def Survives : Number → Prop
  | .posInt n => Representable (n.toNat * unit) ∨ n.toNat = 2 ^ 64 - 1
  | .negInt i _ => Representable (i.toInt.natAbs * unit)
  | .float x _ => x.scaled ≠ 2 ^ 64 * unit

end Number

namespace JsonValue

mutual

/-- Equal up to the form of numbers, which are compared by their mathematical value. -/
def SameValue : JsonValue → JsonValue → Prop
  | .null, .null => True
  | .bool a, .bool b => a = b
  | .number m, .number n => m.numericValue = n.numericValue
  | .string s, .string t => s = t
  | .array vs, .array ws => SameValues vs ws
  | .object es, .object fs => SameEntries es fs
  | _, _ => False

def SameValues : List JsonValue → List JsonValue → Prop
  | [], [] => True
  | v :: vs, w :: ws => SameValue v w ∧ SameValues vs ws
  | _, _ => False

def SameEntries : List (String × JsonValue) → List (String × JsonValue) → Prop
  | [], [] => True
  | (key, v) :: es, (key', w) :: fs => key = key' ∧ SameValue v w ∧ SameEntries es fs
  | _, _ => False

end

mutual

/-- The numbers that occur in a value, at any depth. -/
def numbers : JsonValue → List Number
  | .number n => [n]
  | .array values => numbersOfValues values
  | .object entries => numbersOfEntries entries
  | _ => []

def numbersOfValues : List JsonValue → List Number
  | [] => []
  | v :: vs => numbers v ++ numbersOfValues vs

def numbersOfEntries : List (String × JsonValue) → List Number
  | [] => []
  | (_, v) :: es => numbers v ++ numbersOfEntries es

end

theorem Sorted.element {values : List JsonValue} (h : Sorted (.array values)) {v : JsonValue}
    (hv : v ∈ values) : Sorted v := by
  cases h with
  | array hall => exact hall v hv

end JsonValue

open JsonValue PayloadValue

namespace JsonMap

theorem insert_last {map : JsonMap} {key : String} (h : ∀ e ∈ map, e.1 < key) (v : JsonValue) :
    map.insert key v = map ++ [(key, v)] := by
  induction map with
  | nil => rfl
  | cons e rest ih =>
      have hlt : e.1 < key := h e List.mem_cons_self
      have hrest : ∀ e' ∈ rest, e'.1 < key := fun e' he' ↦ h e' (List.mem_cons_of_mem _ he')
      rw [insert, if_neg (lt_asymm hlt), if_neg hlt.ne', ih hrest]
      rfl

/-- Collecting entries in key order keeps them as they are. -/
theorem collect_eq {entries : JsonMap} (h : entries.Pairwise fun a b ↦ a.1 < b.1) :
    collect entries = entries := by
  -- what is inserted so far stands before what is left
  have hfold (map rest : JsonMap) (h : (map ++ rest).Pairwise fun a b ↦ a.1 < b.1) :
      rest.foldl (fun map e ↦ map.insert e.1 e.2) map = map ++ rest := by
    induction rest generalizing map with
    | nil => simp
    | cons e rest ih =>
        have hlast : ∀ e' ∈ map, e'.1 < e.1 := fun e' he' ↦
          (List.pairwise_append.mp h).2.2 e' he' e List.mem_cons_self
        rw [List.foldl_cons, insert_last hlast, ih]
        · simp
        · simpa using h
  exact hfold [] entries h

end JsonMap

/-! ## What is projected for a number -/

/-- The value a finite double of value `z` is projected with: the cast saturates at `2^64`. -/
def projectedValue (z : Int) : Int :=
  if z = 2 ^ 64 * unit then (2 ^ 64 - 1) * unit else z

theorem numericValue_fromU64 {x : F64} (hfract : x.fractIsZero = true)
    (hlo : F64.zero.le x = true) (hhi : x.le (F64.ofNat (2 ^ 64 - 1)) = true) :
    (Number.fromU64 (UInt64.ofNat x.toU64)).numericValue =
      projectedValue x.scaled := by
  obtain ⟨m, h, hm, hcanon, hcast⟩ := F64.exists_toU64 hfract hlo hhi
  have hscaled : x.scaled = m * unit := by
    rw [← F64.scaled_canon, hcanon]
    simp [F64.scaled, F64.signed]
  have hnat : (UInt64.ofNat x.toU64).toNat = min m (2 ^ 64 - 1) := by
    rw [UInt64.toNat_ofNat', hcast]
    omega
  have hunit : (unit : Int) ≠ 0 := by exact_mod_cast unit_pos.ne'
  have hiff : x.scaled = 2 ^ 64 * unit ↔ m = 2 ^ 64 := by
    rw [hscaled, Int.mul_eq_mul_right_iff hunit]
    omega
  rw [Number.fromU64, Number.numericValue, hnat, projectedValue]
  by_cases htop : m = 2 ^ 64
  · rw [if_pos (hiff.mpr htop), htop, Nat.min_eq_right (by omega)]
    rfl
  · rw [if_neg (mt hiff.mp htop), hscaled, Nat.min_eq_left (by omega)]

theorem numericValue_fromI64 {x : F64} (hfract : x.fractIsZero = true)
    (hneg : F64.zero.le x = false) (hlo : (F64.ofInt (-2 ^ 63)).le x = true) :
    (Number.fromI64 (Int64.ofInt x.toI64)).numericValue =
      projectedValue x.scaled := by
  obtain ⟨m, h, hpos, hm, rfl, hcast⟩ := F64.exists_toI64 hfract hneg hlo
  have hint : (Int64.ofInt (F64.toI64 (.finite true (m * unit) h))).toInt = -(m : Int) := by
    rw [hcast]
    exact Int64.toInt_ofInt_of_le (by omega) (by omega)
  have hscaled : F64.scaled (.finite true (m * unit) h) = -(m : Int) * unit := by
    simp [F64.scaled, F64.signed]
  have hbelow : -(m : Int) * unit ≠ 2 ^ 64 * unit := by
    intro heq
    have hunit : (unit : Int) ≠ 0 := by exact_mod_cast unit_pos.ne'
    rw [Int.mul_eq_mul_right_iff hunit] at heq
    omega
  rw [Number.fromI64, dif_pos (by omega), Number.numericValue, hint, projectedValue, hscaled,
    if_neg hbelow]

/-- A finite double is projected as a number of the same value, `2^64` as the integer below it. -/
theorem numericValue_toJsonValue {x : F64} (h : x.isFinite = true) :
    ∃ n, (PayloadValue.number x).toJsonValue = .number n ∧
      n.numericValue = projectedValue x.scaled := by
  rcases toJsonValue_number h with ⟨hfract, hlo, hhi, hu⟩ | ⟨hfract, hneg, hlo, hi⟩ | ⟨hnot, hf⟩
  · exact ⟨_, hu, numericValue_fromU64 hfract hlo hhi⟩
  · exact ⟨_, hi, numericValue_fromI64 hfract hneg hlo⟩
  · -- `2^64` itself passes the range test of the unsigned integers
    have hbelow : x.scaled ≠ 2 ^ 64 * unit := by
      intro htop
      exact hnot (F64.u64Range_of_scaled (m := 2 ^ 64) h le_rfl (by exact_mod_cast htop))
    have hvalue : (Number.float x h).numericValue = projectedValue x.scaled := by
      rw [Number.numericValue, projectedValue, if_neg hbelow]
    exact ⟨_, hf, hvalue⟩

theorem unit_ne_zero : (unit : Int) ≠ 0 := by
  exact_mod_cast unit_pos.ne'

theorem posInt_survives_iff (n : UInt64) :
    (Number.posInt n).numericValue = projectedValue (F64.ofNat n.toNat).scaled ↔
      (Number.posInt n).Survives := by
  have hlt : n.toNat < 2 ^ 64 := n.toNat_lt
  obtain ⟨hr, hof⟩ := F64.ofRatio_natCast false hlt.le
  have hscaled : (F64.ofNat n.toNat).scaled = roundMag (n.toNat * unit) 1 := by
    rw [F64.ofNat, hof]
    simp [F64.scaled, F64.signed]
  have hself := F64.roundMag_eq_self_iff hlt.le
  simp only [Number.numericValue, Number.Survives, hscaled, projectedValue]
  constructor
  · intro hsame
    split at hsame
    · right
      have hmul := Int.eq_of_mul_eq_mul_right unit_ne_zero hsame
      omega
    · left
      apply hself.mp
      exact_mod_cast hsame.symm
  · intro hsurvives
    rcases hsurvives with hrep | hmax
    · have hne : (n.toNat * unit : Int) ≠ 2 ^ 64 * unit := by
        intro heq
        have hmul := Int.eq_of_mul_eq_mul_right unit_ne_zero heq
        omega
      rw [hself.mpr hrep, Int.natCast_mul, if_neg hne]
    · -- the conversion rounds up to `2^64` and the cast saturates back
      have htop : (roundMag (n.toNat * unit) 1 : Int) = 2 ^ 64 * unit := by
        rw [← hscaled, hmax, F64.ofNat_u64Max]
        simp [F64.scaled, F64.signed]
      rw [if_pos htop, hmax]
      rfl

theorem negInt_survives_iff (i : Int64) (h : i.toInt < 0) :
    (Number.negInt i h).numericValue = projectedValue (F64.ofInt i.toInt).scaled ↔
      (Number.negInt i h).Survives := by
  have hge : -2 ^ 63 ≤ i.toInt := i.le_toInt
  have hle : i.toInt.natAbs ≤ 2 ^ 64 := by omega
  obtain ⟨hr, hof⟩ := F64.ofRatio_natCast true hle
  have hscaled : (F64.ofInt i.toInt).scaled = -(roundMag (i.toInt.natAbs * unit) 1 : Int) := by
    rw [F64.ofInt, decide_eq_true h, hof]
    simp [F64.scaled, F64.signed]
  have hneg : -(roundMag (i.toInt.natAbs * unit) 1 : Int) ≠ 2 ^ 64 * unit := by
    have hpos := unit_pos
    omega
  have hvalue : (i.toInt * unit : Int) = -((i.toInt.natAbs * unit : Nat) : Int) := by
    rw [Int.natCast_mul, ← Int.neg_mul]
    congr 1
    omega
  simp only [Number.numericValue, Number.Survives, hscaled, projectedValue, if_neg hneg, hvalue,
    neg_inj, Int.natCast_inj]
  exact eq_comm.trans (F64.roundMag_eq_self_iff hle)

theorem float_survives_iff (x : F64) (h : x.isFinite = true) :
    (Number.float x h).numericValue = projectedValue x.scaled ↔ (Number.float x h).Survives := by
  simp only [Number.numericValue, Number.Survives, projectedValue]
  split
  · rename_i htop
    have hne : (2 ^ 64 * unit : Int) ≠ (2 ^ 64 - 1) * unit := by
      intro heq
      have hmul := Int.eq_of_mul_eq_mul_right unit_ne_zero heq
      omega
    rw [htop]
    exact iff_of_false hne (not_not_intro rfl)
  · rename_i hbelow
    exact iff_of_true rfl hbelow

/-- Every number is decoded as a finite double, and is projected unchanged exactly when it
survives. -/
theorem exists_asF64 (n : Number) : ∃ x, n.asF64 = some x ∧ x.isFinite = true ∧
    (n.numericValue = projectedValue x.scaled ↔ n.Survives) := by
  cases n with
  | posInt n =>
      obtain ⟨hr, hof⟩ := F64.ofRatio_natCast false n.toNat_lt.le
      exact ⟨F64.ofNat n.toNat, rfl, by rw [F64.ofNat, hof]; rfl, posInt_survives_iff n⟩
  | negInt i h =>
      have hge : -2 ^ 63 ≤ i.toInt := i.le_toInt
      obtain ⟨hr, hof⟩ := F64.ofRatio_natCast (decide (i.toInt < 0))
        (show i.toInt.natAbs ≤ 2 ^ 64 by omega)
      exact ⟨F64.ofInt i.toInt, rfl, by rw [F64.ofInt, hof]; rfl, negInt_survives_iff i h⟩
  | float x h => exact ⟨x, rfl, h, float_survives_iff x h⟩

/-! ## What is projected for a value -/

@[simp]
theorem keys_toJsonEntries (entries : JsonMap) :
    (toJsonEntries (ofJsonEntries entries)).map Prod.fst = entries.map Prod.fst := by
  induction entries with
  | nil => rfl
  | cons e rest ih => simp [ofJsonEntries, toJsonEntries, ih]

theorem collect_toJsonEntries {entries : JsonMap} (h : entries.Pairwise fun a b ↦ a.1 < b.1) :
    JsonMap.collect (toJsonEntries (ofJsonEntries entries)) =
      toJsonEntries (ofJsonEntries entries) := by
  apply JsonMap.collect_eq
  rw [← List.pairwise_map (R := fun a b : String ↦ a < b), keys_toJsonEntries]
  exact List.pairwise_map.mpr h

theorem sameValue_number_iff (n : Number) :
    SameValue (.number n) (ofJson (.number n)).toJsonValue ↔ n.Survives := by
  obtain ⟨x, hx, hfinite, hiff⟩ := exists_asF64 n
  obtain ⟨m, hm, hvalue⟩ := numericValue_toJsonValue hfinite
  rw [ofJson, hx]
  change SameValue (.number n) (PayloadValue.number x).toJsonValue ↔ n.Survives
  rw [hm, SameValue, hvalue]
  exact hiff

mutual

/-- A value is projected unchanged exactly when each of its numbers is. -/
theorem sameValue_iff (v : JsonValue) (h : v.Sorted) :
    SameValue v (ofJson v).toJsonValue ↔ ∀ n ∈ v.numbers, n.Survives := by
  cases v with
  | null => simp [ofJson, toJsonValue, SameValue, numbers]
  | bool b => simp [ofJson, toJsonValue, SameValue, numbers]
  | string s => simp [ofJson, toJsonValue, SameValue, numbers]
  | number n =>
      rw [sameValue_number_iff, numbers]
      simp
  | array values =>
      rw [ofJson, toJsonValue, SameValue, numbers]
      exact sameValues_iff values fun v hv ↦ h.element hv
  | object entries =>
      rw [ofJson, toJsonValue, collect_toJsonEntries h.keys, SameValue, numbers]
      exact sameEntries_iff entries fun e he ↦ h.value he

theorem sameValues_iff (vs : List JsonValue) (h : ∀ v ∈ vs, v.Sorted) :
    SameValues vs (toJsonValues (ofJsonValues vs)) ↔ ∀ n ∈ numbersOfValues vs, n.Survives := by
  cases vs with
  | nil => simp [ofJsonValues, toJsonValues, SameValues, numbersOfValues]
  | cons v vs =>
      have hv := sameValue_iff v (h v List.mem_cons_self)
      have hvs := sameValues_iff vs fun w hw ↦ h w (List.mem_cons_of_mem _ hw)
      rw [ofJsonValues, toJsonValues, SameValues, numbersOfValues, hv, hvs]
      exact (List.forall_mem_append).symm

theorem sameEntries_iff (es : JsonMap) (h : ∀ e ∈ es, e.2.Sorted) :
    SameEntries es (toJsonEntries (ofJsonEntries es)) ↔
      ∀ n ∈ numbersOfEntries es, n.Survives := by
  cases es with
  | nil => simp [ofJsonEntries, toJsonEntries, SameEntries, numbersOfEntries]
  | cons e es =>
      have he := sameValue_iff e.2 (h e List.mem_cons_self)
      have hes := sameEntries_iff es fun e' he' ↦ h e' (List.mem_cons_of_mem _ he')
      rw [ofJsonEntries, toJsonEntries, SameEntries, numbersOfEntries, he, hes]
      simp only [true_and]
      exact (List.forall_mem_append).symm

end

/-- Decoding `v` and projecting the payload value gives the same value again. -/
def RoundTrips (v : JsonValue) : Prop :=
  ∃ p, tryFromJsonRef v = .ok p ∧ SameValue v p.toJsonValue

theorem RoundTrips.sameValue {v : JsonValue} (h : RoundTrips v) :
    SameValue v (ofJson v).toJsonValue := by
  rcases h with ⟨p, hp, hsame⟩
  rw [tryFromJsonRef_eq] at hp
  cases hp
  exact hsame

/-- A rule that selects a field under which a payload object holds `v` writes the same value. -/
def SelectKeeps (v : JsonValue) : Prop :=
  ∀ (o : JsonObject) (field : CompiledPayloadField) (aliasName : String) (message : Message)
    (topicParts : List String), lookupJsonPath o.1 field.segments = some v →
      ∃ ir w, MsgIr.fromJsonObjectWithDecodePlan o.1 (.sparse [field]) = .ok ir ∧
        projectColumns { message := message, payload := ir, topicParts := topicParts } []
          [{ expr := .payloadField field, aliasName := aliasName }] = .ok [(aliasName, w)] ∧
        SameValue v w

/-- Neither the two conversions nor a rule that selects the value change it. -/
def Lossless (v : JsonValue) : Prop := RoundTrips v ∧ SelectKeeps v

/-- The projection of a value is lossless exactly when every number in it is a double (or the
largest unsigned integer) other than `2^64` in float form. -/
theorem lossless_iff (v : JsonDocument) : Lossless v.1 ↔ ∀ n ∈ v.1.numbers, n.Survives := by
  rw [← sameValue_iff v.1 v.2]
  constructor
  · intro h
    exact h.1.sameValue
  · intro hsame
    apply And.intro ⟨ofJson v.1, tryFromJsonRef_eq v.1, hsame⟩
    intro o field aliasName message topicParts hv
    obtain ⟨ir, hir, hget⟩ := exists_sparse o.1 (List.cons_ne_nil field [])
    have hfield : ir.getField field = some (ofJson v.1) := by
      rw [hget field List.mem_cons_self, nestedValue, ← field.hsegments, hv]
      rfl
    have hproject : projectColumns { message := message, payload := ir, topicParts := topicParts }
        [] [{ expr := .payloadField field, aliasName := aliasName }] =
          .ok [(aliasName, (ofJson v.1).toJsonValue)] := by
      rw [projectColumns, evaluatePlanValue, payloadValueByPath, hfield]
      rfl
    exact ⟨ir, _, hir, hproject, hsame⟩

theorem survives_of_lossless {n : Number} (h : Lossless (.number n)) : n.Survives :=
  (sameValue_number_iff n).mp h.1.sameValue

-- the double `2^64`, which a parser gives for `18446744073709551616`
def twoPow64 : Number := .float (.finite false (2 ^ 64 * unit) F64.representable_two_pow_64) rfl

/-- Projecting changes the integer `2^53 + 1`, which no double holds, and the double `2^64`. -/
theorem not_lossless_twoPow :
    ¬ Lossless (.number (.posInt 9007199254740993)) ∧ ¬ Lossless (.number twoPow64) := by
  constructor
  · intro h
    have hnot : ¬ (Representable ((9007199254740993 : UInt64).toNat * unit) ∨
        (9007199254740993 : UInt64).toNat = 2 ^ 64 - 1) := by decide +kernel
    exact hnot (survives_of_lossless h)
  · intro h
    exact survives_of_lossless h rfl

end Tenon.Core
