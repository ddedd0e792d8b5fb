import Mathlib.Data.Nat.Log
import Mathlib.Tactic.Positivity
import Mathlib.Tactic.Ring

/-!
# Binary64 — the IEEE 754 double format, computably

Every finite double is an integer multiple of `2^-1074`, so a finite value is a sign and a magnitude
counted in that unit.  The magnitudes that occur are the multiples whose significand fits 53 bits
(`Representable`); the constructor asks for the proof, so no other finite value can be built.  The
arithmetic rounds the exact result once, to nearest with ties to even, and overflows to infinity.
-/

namespace Reasoning.Binary64

/-- The number one, counted in units of `2^-1074`. -/
@[irreducible] def unit : Nat := 2 ^ 1074

/-- The first power of two above the finite range (`2^1024`), counted in units. -/
@[irreducible] def limit : Nat := 2 ^ 2098

/-- `k` units are a finite double: below the range's end, with a significand of at most 53 bits. -/
def Representable (k : Nat) : Prop := k < limit ∧ 2 ^ (Nat.log2 k - 52) ∣ k

instance (k : Nat) : Decidable (Representable k) := inferInstanceAs (Decidable (_ ∧ _))

inductive F64 where
  | nan
  | inf (neg : Bool)
  | finite (neg : Bool) (mag : Nat) (h : Representable mag)
  deriving DecidableEq

theorem unit_pos : 0 < unit := by
  unfold unit
  positivity

/-! ## Rounding -/

/-- The integer nearest `n / d`, the even one on a tie. -/
def rne (n d : Nat) : Nat :=
  if 2 * (n % d) < d then n / d
  else if d < 2 * (n % d) then n / d + 1
  else if n / d % 2 = 0 then n / d else n / d + 1

/-- `n / d` rounded to 53 significant bits. -/
def roundMag (n d : Nat) : Nat :=
  let shift := Nat.log2 (n / d) - 52
  rne n (d * 2 ^ shift) * 2 ^ shift

theorem rne_le (n d : Nat) : rne n d ≤ n / d + 1 := by
  unfold rne
  split
  · omega
  · split
    · omega
    · split <;> omega

theorem div_le_rne (n d : Nat) : n / d ≤ rne n d := by
  unfold rne
  split
  · exact Nat.le_refl _
  · split
    · exact Nat.le_succ _
    · split
      · exact Nat.le_refl _
      · exact Nat.le_succ _

theorem rne_mul_self (m : Nat) {d : Nat} (hd : 0 < d) : rne (m * d) d = m := by
  unfold rne
  rw [Nat.mul_mod_left, Nat.mul_div_cancel m hd, Nat.mul_zero, if_pos hd]

theorem roundMag_dvd (n d : Nat) :
    2 ^ (Nat.log2 (roundMag n d) - 52) ∣ roundMag n d := by
  unfold roundMag
  generalize hs : Nat.log2 (n / d) - 52 = shift
  dsimp only
  generalize hr : rne n (d * 2 ^ shift) = r
  have hquot : n / (d * 2 ^ shift) < 2 ^ 53 := by
    rw [← Nat.div_div_eq_div_mul]
    apply Nat.div_lt_of_lt_mul
    rw [← pow_add]
    exact lt_of_lt_of_le Nat.lt_log2_self (Nat.pow_le_pow_right (by decide) (by omega))
  have hle : r ≤ 2 ^ 53 := by
    have hrne := rne_le n (d * 2 ^ shift)
    omega
  rcases Nat.lt_or_ge r (2 ^ 53) with hlt | hge
  · rcases Nat.eq_zero_or_pos r with hzero | hpos
    · simp [hzero]
    · have hlog : Nat.log2 (r * 2 ^ shift) < 53 + shift := by
        rw [Nat.log2_lt (by positivity), pow_add]
        exact Nat.mul_lt_mul_of_pos_right hlt (Nat.two_pow_pos shift)
      have hexp : Nat.log2 (r * 2 ^ shift) - 52 ≤ shift := by omega
      exact dvd_trans (pow_dvd_pow 2 hexp) (Dvd.intro_left r rfl)
  · have heq : r = 2 ^ 53 := le_antisymm hle hge
    rw [heq, ← pow_add, Nat.log2_two_pow]
    exact pow_dvd_pow 2 (by omega)

theorem roundMag_mul_self {k : Nat} (h : Representable k) {d : Nat} (hd : 0 < d) :
    roundMag (k * d) d = k := by
  unfold roundMag
  rw [Nat.mul_div_cancel k hd]
  rcases h.2 with ⟨m, hm⟩
  generalize Nat.log2 k - 52 = shift at hm
  dsimp only
  rw [show k * d = m * (d * 2 ^ shift) by rw [hm]; ring,
    rne_mul_self m (Nat.mul_pos hd (Nat.two_pow_pos shift)), hm]
  ring

namespace F64

/-- The double nearest `± n / d` units. -/
def ofRatio (neg : Bool) (n d : Nat) : F64 :=
  if h : roundMag n d < limit then finite neg (roundMag n d) ⟨h, roundMag_dvd n d⟩ else inf neg

theorem ofRatio_mul_self (neg : Bool) {k : Nat} (h : Representable k) {d : Nat} (hd : 0 < d) :
    ofRatio neg (k * d) d = finite neg k h := by
  simp only [ofRatio, roundMag_mul_self h hd, dif_pos h.1]

theorem ofRatio_one (neg : Bool) {k : Nat} (h : Representable k) :
    ofRatio neg k 1 = finite neg k h := by
  have hexact := ofRatio_mul_self neg h one_pos
  rwa [Nat.mul_one] at hexact

def signed (neg : Bool) (mag : Nat) : Int := if neg then -mag else mag

theorem representable_zero : Representable 0 :=
  ⟨by unfold limit; positivity, dvd_zero _⟩

def zero : F64 := finite false 0 representable_zero

/-! ## Arithmetic -/

def isFinite : F64 → Bool
  | finite .. => true
  | _ => false

def neg : F64 → F64
  | nan => nan
  | inf s => inf (!s)
  | finite s k h => finite (!s) k h

def abs : F64 → F64
  | nan => nan
  | inf _ => inf false
  | finite _ k h => finite false k h

def add : F64 → F64 → F64
  | nan, _ | _, nan => nan
  | inf s, inf t => if s = t then inf s else nan
  | inf s, finite .. => inf s
  | finite .., inf t => inf t
  | finite s k _, finite t l _ =>
      let sum := signed s k + signed t l
      -- an exact zero is negative only as the sum of two negative zeros
      if sum = 0 then finite (s && t) 0 representable_zero
      else ofRatio (decide (sum < 0)) sum.natAbs 1

def sub (x y : F64) : F64 := add x (neg y)

def mul : F64 → F64 → F64
  | nan, _ | _, nan => nan
  | inf s, inf t => inf (s ^^ t)
  | inf s, finite t l _ => if l = 0 then nan else inf (s ^^ t)
  | finite s k _, inf t => if k = 0 then nan else inf (s ^^ t)
  | finite s k _, finite t l _ => ofRatio (s ^^ t) (k * l) unit

def div : F64 → F64 → F64
  | nan, _ | _, nan => nan
  | inf _, inf _ => nan
  | inf s, finite t _ _ => inf (s ^^ t)
  | finite s _ _, inf t => finite (s ^^ t) 0 representable_zero
  | finite s k _, finite t l _ =>
      if l = 0 then (if k = 0 then nan else inf (s ^^ t))
      else ofRatio (s ^^ t) (k * unit) l

/-! ## Comparison -/

def lt : F64 → F64 → Bool
  | nan, _ | _, nan => false
  | inf s, inf t => s && !t
  | inf s, finite .. => s
  | finite .., inf t => !t
  | finite s k _, finite t l _ => decide (signed s k < signed t l)

def eq : F64 → F64 → Bool
  | inf s, inf t => s == t
  | finite s k _, finite t l _ => decide (signed s k = signed t l)
  | _, _ => false

def le (x y : F64) : Bool := lt x y || eq x y

-- 2^-52, the distance from one to the next double
def epsilon : F64 := ofRatio false (2 ^ 1022) 1

/-! ## Conversions from and to integers -/

def ofNat (n : Nat) : F64 := ofRatio false (n * unit) 1

def ofInt (i : Int) : F64 := ofRatio (decide (i < 0)) (i.natAbs * unit) 1

/-- The fractional part is zero; infinities and NaN have a NaN fractional part. -/
def fractIsZero : F64 → Bool
  | finite _ k _ => k % unit == 0
  | _ => false

/-- Truncation to an unsigned 64-bit integer, saturating, NaN to zero. -/
def toU64 : F64 → Nat
  | nan => 0
  | inf s => if s then 0 else 2 ^ 64 - 1
  | finite s k _ => if s then 0 else min (k / unit) (2 ^ 64 - 1)

/-- Truncation to a signed 64-bit integer, saturating, NaN to zero. -/
def toI64 : F64 → Int
  | nan => 0
  | inf s => if s then -2 ^ 63 else 2 ^ 63 - 1
  | finite s k _ => if s then max (-(k / unit : Nat)) (-2 ^ 63) else min (k / unit : Nat) (2 ^ 63 - 1)

theorem toU64_lt (x : F64) : toU64 x < 2 ^ 64 := by
  cases x with
  | nan => simp [toU64]
  | inf s => cases s <;> simp [toU64]
  | finite s k h => cases s <;> simp only [toU64, if_true, Bool.false_eq_true, if_false] <;> omega

theorem toI64_bounds (x : F64) : -2 ^ 63 ≤ toI64 x ∧ toI64 x < 2 ^ 63 := by
  cases x with
  | nan => simp [toI64]
  | inf s => cases s <;> simp [toI64]
  | finite s k h =>
      simp only [toI64]
      generalize k / unit = q
      cases s <;> simp only [if_true, Bool.false_eq_true, if_false] <;> omega

/-! ## The sign of zero -/

/-- Forgets the sign of a zero, the one distinction comparisons do not see. -/
def canon : F64 → F64
  | finite s k h => finite (s && k != 0) k h
  | x => x

@[simp]
theorem signed_canon (s : Bool) (k : Nat) : signed (s && k != 0) k = signed s k := by
  cases s <;> by_cases hk : k = 0 <;> simp [signed, hk]

@[simp]
theorem lt_canon (x y : F64) : lt x.canon y.canon = lt x y := by
  cases x <;> cases y <;> simp [canon, lt]

@[simp]
theorem eq_canon (x y : F64) : eq x.canon y.canon = eq x y := by
  cases x <;> cases y <;> simp [canon, eq]

@[simp]
theorem le_canon (x y : F64) : le x.canon y.canon = le x y := by
  simp [le]

theorem signed_not (s : Bool) (k : Nat) : signed (!s) k = -signed s k := by
  cases s <;> simp [signed]

theorem abs_ofRatio (s t : Bool) (n d : Nat) : abs (ofRatio s n d) = abs (ofRatio t n d) := by
  unfold ofRatio
  split <;> rfl

theorem abs_sub_finite (s t : Bool) (k l : Nat) (hk : Representable k) (hl : Representable l) :
    abs (sub (finite s k hk) (finite t l hl)) =
      abs (ofRatio false (signed s k - signed t l).natAbs 1) := by
  simp only [sub, neg, add, signed_not, ← sub_eq_add_neg]
  split
  · rename_i hzero
    rw [hzero, Int.natAbs_zero, ofRatio_one false representable_zero]
    rfl
  · exact abs_ofRatio _ _ _ _

@[simp]
theorem abs_sub_canon (x y : F64) : abs (sub x.canon y.canon) = abs (sub x y) := by
  cases x with
  | finite s k hk =>
      cases y with
      | finite t l hl => simp only [canon, abs_sub_finite, signed_canon]
      | nan => rfl
      | inf t => rfl
  | nan => rfl
  | inf s => cases y <;> rfl

/-! ## Integers that survive the conversion -/

theorem representable_two_pow_64 : Representable (2 ^ 64 * unit) := by decide +kernel

theorem ofNat_eq_finite {n : Nat} (h : Representable (n * unit)) :
    ofNat n = finite false (n * unit) h :=
  ofRatio_one false h

-- the largest unsigned 64-bit integer has no 53-bit significand: the conversion rounds up to 2^64
theorem ofNat_u64Max : ofNat (2 ^ 64 - 1) = finite false (2 ^ 64 * unit) representable_two_pow_64 := by
  decide +kernel

theorem ofInt_i64Min : ofInt (-2 ^ 63) = finite true (2 ^ 63 * unit) (by decide +kernel) := by
  decide +kernel

theorem exists_mul_unit {s : Bool} {k : Nat} {h : Representable k}
    (hfract : fractIsZero (finite s k h) = true) : ∃ m, k = m * unit :=
  ⟨k / unit, (Nat.div_mul_cancel (Nat.dvd_of_mod_eq_zero (by simpa [fractIsZero] using hfract))).symm⟩

theorem le_finite {s t : Bool} {k l : Nat} {hk : Representable k} {hl : Representable l} :
    le (finite s k hk) (finite t l hl) = true ↔ signed s k ≤ signed t l := by
  simp [le, lt, eq, le_iff_lt_or_eq]

/-- An integral value between zero and `u64::MAX` rounded is a whole number up to `2^64`; the cast to
an unsigned integer keeps it below `2^64` and saturates there. -/
theorem exists_toU64 {x : F64} (hfract : fractIsZero x = true) (hlo : le zero x = true)
    (hhi : le x (ofNat (2 ^ 64 - 1)) = true) :
    ∃ m h, m ≤ 2 ^ 64 ∧ canon x = finite false (m * unit) h ∧ toU64 x = min m (2 ^ 64 - 1) := by
  cases x with
  | nan => simp [fractIsZero] at hfract
  | inf s => simp [fractIsZero] at hfract
  | finite s k hk =>
      obtain ⟨m, rfl⟩ := exists_mul_unit hfract
      rw [ofNat_u64Max, le_finite] at hhi
      rw [zero, le_finite] at hlo
      cases s with
      | true =>
          have hm : m = 0 := by
            have hle : m * unit ≤ 0 := by
              simp only [signed, if_true, Bool.false_eq_true, if_false] at hlo
              omega
            exact (Nat.mul_eq_zero.mp (Nat.le_zero.mp hle)).resolve_right unit_pos.ne'
          subst hm
          exact ⟨0, hk, Nat.zero_le _, by simp [canon], rfl⟩
      | false =>
          have hm : m ≤ 2 ^ 64 := by
            have hle : m * unit ≤ 2 ^ 64 * unit := by
              simp only [signed, Bool.false_eq_true, if_false] at hhi
              exact Int.ofNat_le.mp hhi
            exact Nat.le_of_mul_le_mul_right hle unit_pos
          have hcast : toU64 (finite false (m * unit) hk) = min m (2 ^ 64 - 1) := by
            simp only [toU64, Bool.false_eq_true, if_false, Nat.mul_div_cancel m unit_pos]
          exact ⟨m, hk, hm, rfl, hcast⟩

/-- Such a value survives the cast and the conversion back, up to the sign of zero: at `2^64` the
cast saturates and the conversion back rounds up again. -/
theorem canon_ofNat_toU64 {x : F64} (hfract : fractIsZero x = true) (hlo : le zero x = true)
    (hhi : le x (ofNat (2 ^ 64 - 1)) = true) : canon (ofNat (toU64 x)) = canon x := by
  obtain ⟨m, h, hm, hcanon, hcast⟩ := exists_toU64 hfract hlo hhi
  rcases Nat.lt_or_ge m (2 ^ 64) with hlt | hge
  · have hmin : min m (2 ^ 64 - 1) = m := by omega
    rw [hcanon, hcast, hmin, ofNat_eq_finite h]
    rfl
  · have hm : m = 2 ^ 64 := le_antisymm hm hge
    subst hm
    rw [hcanon, hcast, Nat.min_eq_right (by omega), ofNat_u64Max]
    rfl

theorem le_trans {x y z : F64} (hxy : le x y = true) (hyz : le y z = true) : le x z = true := by
  cases x with
  | finite s k hk =>
      cases y with
      | finite t l hl =>
          cases z with
          | finite u m hm =>
              rw [le_finite] at hxy hyz ⊢
              exact hxy.trans hyz
          | _ => simp_all [le, lt, eq]
      | _ => cases z <;> simp_all [le, lt, eq]
  | inf s =>
      cases y with
      | inf t => cases z <;> cases s <;> cases t <;> simp_all [le, lt, eq]
      | _ => cases z <;> simp_all [le, lt, eq]
  | nan => simp [le, lt, eq] at hxy

theorem i64Max_le_u64Max : le (ofInt (2 ^ 63 - 1)) (ofNat (2 ^ 64 - 1)) = true := by decide +kernel

/-- A negative integral value from `i64::MIN` on is minus a whole number up to `2^63`, which the cast
to a signed integer keeps. -/
theorem exists_toI64 {x : F64} (hfract : fractIsZero x = true) (hneg : le zero x = false)
    (hlo : le (ofInt (-2 ^ 63)) x = true) :
    ∃ m h, 0 < m ∧ m ≤ 2 ^ 63 ∧ x = finite true (m * unit) h ∧ toI64 x = -(m : Int) := by
  cases x with
  | nan => simp [fractIsZero] at hfract
  | inf s => simp [fractIsZero] at hfract
  | finite s k hk =>
      obtain ⟨m, rfl⟩ := exists_mul_unit hfract
      rw [ofInt_i64Min, le_finite] at hlo
      rw [zero, ← Bool.not_eq_true, le_finite, not_le] at hneg
      cases s with
      | false =>
          simp only [signed, Bool.false_eq_true, if_false] at hneg
          omega
      | true =>
          have hm : m ≤ 2 ^ 63 := by
            have hle : m * unit ≤ 2 ^ 63 * unit := by
              simp only [signed, if_true, neg_le_neg_iff] at hlo
              exact_mod_cast hlo
            exact Nat.le_of_mul_le_mul_right hle unit_pos
          have hpos : 0 < m := by
            rcases Nat.eq_zero_or_pos m with rfl | hpos
            · simp [signed] at hneg
            · exact hpos
          have hcast : toI64 (finite true (m * unit) hk) = -(m : Int) := by
            simp only [toI64, if_true, Nat.mul_div_cancel m unit_pos]
            omega
          exact ⟨m, hk, hpos, hm, rfl, hcast⟩

/-- Such a value survives the cast and the conversion back. -/
theorem ofInt_toI64 {x : F64} (hfract : fractIsZero x = true) (hneg : le zero x = false)
    (hlo : le (ofInt (-2 ^ 63)) x = true) : ofInt (toI64 x) = x := by
  obtain ⟨m, h, hpos, -, rfl, hcast⟩ := exists_toI64 hfract hneg hlo
  rw [hcast, ofInt, Int.natAbs_neg, Int.natAbs_natCast,
    show decide (-(m : Int) < 0) = true by simpa using hpos, ofRatio_one true h]

/-! ## The exact value of a double -/

/-- The value counted in units; infinities and NaN have none and get zero. -/
def scaled : F64 → Int
  | finite s k _ => signed s k
  | _ => 0

@[simp]
theorem scaled_canon (x : F64) : scaled (canon x) = scaled x := by
  cases x <;> simp [canon, scaled]

/-- A whole number up to `2^64` passes the range test against `u64::MAX`, which is rounded up to
`2^64`. -/
theorem u64Range_of_scaled {x : F64} {m : Nat} (h : isFinite x = true) (hm : m ≤ 2 ^ 64)
    (hvalue : scaled x = m * unit) :
    fractIsZero x = true ∧ le zero x = true ∧ le x (ofNat (2 ^ 64 - 1)) = true := by
  cases x with
  | nan => simp [isFinite] at h
  | inf s => simp [isFinite] at h
  | finite s k hk =>
      have hmag : signed s k = (m * unit : Nat) := by simpa [scaled] using hvalue
      have hk : k = m * unit := by
        cases s <;> simp only [signed, if_true, Bool.false_eq_true, if_false] at hmag <;> omega
      have htop : m * unit ≤ 2 ^ 64 * unit := Nat.mul_le_mul_right unit hm
      rw [ofNat_u64Max, zero, le_finite, le_finite, hmag]
      simp only [fractIsZero, hk, signed, Bool.false_eq_true, if_false, Nat.mul_mod_left]
      exact ⟨rfl, Int.natCast_nonneg _, Int.ofNat_le.mpr htop⟩

theorem roundMag_one_le (n : Nat) : roundMag n 1 ≤ 2 * n := by
  unfold roundMag
  dsimp only
  rw [Nat.div_one, Nat.one_mul]
  rcases Nat.eq_zero_or_pos n with rfl | hpos
  · simp [rne]
  · have hshift : 2 ^ (Nat.log2 n - 52) ≤ n :=
      (Nat.pow_le_pow_right (by decide) (Nat.sub_le _ _)).trans (Nat.log2_self_le hpos.ne')
    generalize 2 ^ (Nat.log2 n - 52) = p at hshift
    calc rne n p * p ≤ (n / p + 1) * p := Nat.mul_le_mul_right p (rne_le n p)
      _ = n / p * p + p := by ring
      _ ≤ n + n := Nat.add_le_add (Nat.div_mul_le_self n p) hshift
      _ = 2 * n := (Nat.two_mul n).symm

theorem two_mul_lt_limit {n : Nat} (h : n ≤ 2 ^ 64) : 2 * (n * unit) < limit := by
  have hlimit : 2 * (2 ^ 64 * unit) < limit := by
    have hpow {e e' : Nat} (h : e + 65 < e') : 2 * (2 ^ 64 * 2 ^ e) < 2 ^ e' := by
      calc 2 * (2 ^ 64 * 2 ^ e) = 2 ^ (e + 65) := by ring
        _ < 2 ^ e' := Nat.pow_lt_pow_right one_lt_two h
    unfold unit limit
    exact hpow (by decide)
  exact (Nat.mul_le_mul_left 2 (Nat.mul_le_mul_right unit h)).trans_lt hlimit

theorem roundMag_lt_limit {n : Nat} (h : n ≤ 2 ^ 64) : roundMag (n * unit) 1 < limit :=
  (roundMag_one_le _).trans_lt (two_mul_lt_limit h)

/-- An integer up to `2^64` in size converts to the finite double nearest to it. -/
theorem ofRatio_natCast (neg : Bool) {n : Nat} (h : n ≤ 2 ^ 64) :
    ∃ hr, ofRatio neg (n * unit) 1 = finite neg (roundMag (n * unit) 1) hr :=
  ⟨⟨roundMag_lt_limit h, roundMag_dvd _ _⟩, dif_pos (roundMag_lt_limit h)⟩

-- an integer is its own nearest double exactly when it is a double
theorem roundMag_eq_self_iff {n : Nat} (h : n ≤ 2 ^ 64) :
    roundMag (n * unit) 1 = n * unit ↔ Representable (n * unit) := by
  constructor
  · intro hself
    have hdvd := roundMag_dvd (n * unit) 1
    have hlt := roundMag_lt_limit h
    rw [hself] at hdvd hlt
    exact ⟨hlt, hdvd⟩
  · intro hr
    have hexact := roundMag_mul_self hr one_pos
    rwa [Nat.mul_one] at hexact

/-! ## Comparisons of finite doubles -/

theorem exists_finite {x : F64} (h : isFinite x = true) : ∃ s k hk, x = finite s k hk := by
  cases x with
  | nan => simp [isFinite] at h
  | inf s => simp [isFinite] at h
  | finite s k hk => exact ⟨s, k, hk, rfl⟩

theorem lt_iff_scaled {x y : F64} (hx : isFinite x = true) (hy : isFinite y = true) :
    lt x y = true ↔ scaled x < scaled y := by
  obtain ⟨s, k, hk, rfl⟩ := exists_finite hx
  obtain ⟨t, l, hl, rfl⟩ := exists_finite hy
  simp [lt, scaled]

theorem eq_iff_scaled {x y : F64} (hx : isFinite x = true) (hy : isFinite y = true) :
    eq x y = true ↔ scaled x = scaled y := by
  obtain ⟨s, k, hk, rfl⟩ := exists_finite hx
  obtain ⟨t, l, hl, rfl⟩ := exists_finite hy
  simp [eq, scaled]

theorem le_iff_scaled {x y : F64} (hx : isFinite x = true) (hy : isFinite y = true) :
    le x y = true ↔ scaled x ≤ scaled y := by
  rw [le, Bool.or_eq_true, lt_iff_scaled hx hy, eq_iff_scaled hx hy, le_iff_lt_or_eq]

-- only NaN is ordered neither way
theorem lt_eq_not_le {x y : F64} (hx : x ≠ nan) (hy : y ≠ nan) : lt x y = !le y x := by
  cases x with
  | nan => exact absurd rfl hx
  | inf s => cases y <;> cases s <;> simp_all [lt, le, eq]
  | finite s k hk =>
      cases y with
      | nan => exact absurd rfl hy
      | inf t => cases t <;> rfl
      | finite t l hl =>
          rw [Bool.eq_iff_iff, lt_iff_scaled rfl rfl, Bool.not_eq_true', ← Bool.not_eq_true,
            le_iff_scaled rfl rfl, not_le]

/-! ## Differences against the tolerance -/

theorem epsilon_eq : ∃ e h, e = 1022 ∧ epsilon = finite false (2 ^ e) h :=
  ⟨1022, by decide +kernel, rfl, ofRatio_one false _⟩

theorem abs_sub_ne_nan {x y : F64} (hx : isFinite x = true) (hy : isFinite y = true) :
    abs (sub x y) ≠ nan := by
  obtain ⟨s, k, hk, rfl⟩ := exists_finite hx
  obtain ⟨t, l, hl, rfl⟩ := exists_finite hy
  rw [abs_sub_finite, ofRatio]
  split <;> simp [abs]

/-- A finite difference is below the tolerance or not; no third case arises. -/
theorem lt_epsilon_eq {x y : F64} (hx : isFinite x = true) (hy : isFinite y = true) :
    lt (abs (sub x y)) epsilon = !le epsilon (abs (sub x y)) := by
  obtain ⟨e, h, -, hepsilon⟩ := epsilon_eq
  exact lt_eq_not_le (abs_sub_ne_nan hx hy) (by rw [hepsilon]; simp)

-- the difference of equal numbers is zero
theorem not_epsilon_le_of_scaled_eq {x y : F64} (hx : isFinite x = true) (hy : isFinite y = true)
    (h : scaled x = scaled y) : le epsilon (abs (sub x y)) = false := by
  obtain ⟨s, k, hk, rfl⟩ := exists_finite hx
  obtain ⟨t, l, hl, rfl⟩ := exists_finite hy
  have hzero : signed s k - signed t l = 0 := Int.sub_eq_zero.mpr h
  obtain ⟨e, hr, -, hepsilon⟩ := epsilon_eq
  have hpos := Nat.two_pow_pos e
  rw [abs_sub_finite, hzero, Int.natAbs_zero, ofRatio_one false representable_zero, hepsilon,
    ← Bool.not_eq_true, abs, le_finite]
  simp only [signed, Bool.false_eq_true, if_false]
  omega

theorem two_pow_le_roundMag {n e : Nat} (h : 2 ^ e ≤ n) : 2 ^ e ≤ roundMag n 1 := by
  have hpos : 0 < n := (Nat.two_pow_pos e).trans_le h
  have hlog : e ≤ Nat.log2 n := (Nat.le_log2 hpos.ne').mpr h
  unfold roundMag
  dsimp only
  rw [Nat.div_one, Nat.one_mul]
  have hshift : 2 ^ (Nat.log2 n - 52) * 2 ^ (Nat.log2 n - (Nat.log2 n - 52)) = 2 ^ Nat.log2 n := by
    rw [← Nat.pow_add]
    congr 1
    omega
  -- rounding down already keeps the leading bit
  have hrne : 2 ^ (Nat.log2 n - (Nat.log2 n - 52)) ≤ rne n (2 ^ (Nat.log2 n - 52)) := by
    have hdiv : 2 ^ (Nat.log2 n - (Nat.log2 n - 52)) ≤ n / 2 ^ (Nat.log2 n - 52) := by
      rw [Nat.le_div_iff_mul_le (Nat.two_pow_pos _), Nat.mul_comm, hshift]
      exact Nat.log2_self_le hpos.ne'
    exact hdiv.trans (div_le_rne n _)
  calc 2 ^ e ≤ 2 ^ Nat.log2 n := Nat.pow_le_pow_right Nat.two_pos hlog
    _ = 2 ^ (Nat.log2 n - (Nat.log2 n - 52)) * 2 ^ (Nat.log2 n - 52) := by rw [← hshift, Nat.mul_comm]
    _ ≤ _ := Nat.mul_le_mul_right _ hrne

-- integers of up to 53 bits are doubles
theorem representable_natCast {n : Nat} (h : n ≤ 2 ^ 53) : Representable (n * unit) := by
  have hpow {e : Nat} : 2 ^ (Nat.log2 (n * 2 ^ e) - 52) ∣ n * 2 ^ e := by
    rcases Nat.lt_or_eq_of_le h with hlt | rfl
    · have hexp : Nat.log2 (n * 2 ^ e) < 53 + e ∨ n = 0 := by
        rcases Nat.eq_zero_or_pos n with hzero | hpos
        · exact Or.inr hzero
        · refine Or.inl ((Nat.log2_lt (by positivity)).mpr ?_)
          rw [Nat.pow_add]
          exact Nat.mul_lt_mul_of_pos_right hlt (Nat.two_pow_pos e)
      rcases hexp with hexp | rfl
      · exact (pow_dvd_pow 2 (by omega)).trans (Nat.dvd_mul_left _ n)
      · rw [Nat.zero_mul]
        exact dvd_zero _
    · rw [← Nat.pow_add, Nat.log2_two_pow]
      exact pow_dvd_pow 2 (Nat.sub_le _ _)
  refine ⟨?_, ?_⟩
  · have hlimit : 2 * (n * unit) < limit := two_mul_lt_limit (h.trans (by decide))
    omega
  · unfold unit
    exact hpow

/-- Numbers that are exactly the tolerance apart, or more, differ by as much after rounding. -/
theorem epsilon_le_abs_sub {x y : F64} (hx : isFinite x = true) (hy : isFinite y = true)
    (h : 2 ^ 1022 ≤ (scaled x - scaled y).natAbs) : le epsilon (abs (sub x y)) = true := by
  obtain ⟨s, k, hk, rfl⟩ := exists_finite hx
  obtain ⟨t, l, hl, rfl⟩ := exists_finite hy
  obtain ⟨e, hr, he, hepsilon⟩ := epsilon_eq
  rw [← he] at h
  have hround := two_pow_le_roundMag h
  rw [abs_sub_finite, hepsilon]
  by_cases hlt : roundMag (signed s k - signed t l).natAbs 1 < limit
  · rw [ofRatio, dif_pos hlt]
    apply le_finite.mpr
    exact Int.ofNat_le.mpr hround
  · rw [ofRatio, dif_neg hlt]
    rfl

/-! ## Decimal literals -/

def natOfDigits (ds : List Char) : Nat :=
  ds.foldl (fun n c ↦ 10 * n + (c.toNat - '0'.toNat)) 0

-- ± m * 10^e, rounded once
def ofDecimal (neg : Bool) (m : Nat) (e : Int) : F64 :=
  if 0 ≤ e then ofRatio neg (m * 10 ^ e.toNat * unit) 1
  else ofRatio neg (m * unit) (10 ^ (-e).toNat)

def parseExponent : List Char → Option Int
  | [] => some 0
  | c :: cs =>
      let (negative, digits) := match cs with
        | '-' :: ds => (true, ds)
        | '+' :: ds => (false, ds)
        | ds => (false, ds)
      if (c = 'e' ∨ c = 'E') ∧ digits ≠ [] ∧ digits.all Char.isDigit then
        some (if negative then -natOfDigits digits else natOfDigits digits)
      else none

/-- An unsigned literal: `inf`, `infinity` and `nan` in any case, or digits around an optional point
(at least one digit) and an optional exponent. -/
def parseMagnitude (neg : Bool) (cs : List Char) : Option F64 :=
  let lower := cs.map Char.toLower
  if lower = "inf".toList ∨ lower = "infinity".toList then some (inf neg)
  else if lower = "nan".toList then some nan
  else
    let whole := cs.takeWhile Char.isDigit
    let (frac, rest) := match cs.dropWhile Char.isDigit with
      | '.' :: more => (more.takeWhile Char.isDigit, more.dropWhile Char.isDigit)
      | more => ([], more)
    if whole.isEmpty && frac.isEmpty then none
    else (parseExponent rest).map fun e ↦ ofDecimal neg (natOfDigits (whole ++ frac)) (e - frac.length)

def parse (s : String) : Option F64 :=
  match s.toList with
  | '-' :: cs => parseMagnitude true cs
  | '+' :: cs => parseMagnitude false cs
  | cs => parseMagnitude false cs

example : parse "2.5e1" = some (ofNat 25) ∧ parse "28." = some (add (ofNat 25) (ofNat 3)) ∧
    parse "." = none ∧ parse "1e400" = some (inf false) := by decide +kernel

end F64

end Reasoning.Binary64
