import Mathlib.Data.Fintype.Card
import Mathlib.Data.UInt
import Mathlib.Dynamics.PeriodicPts.Lemmas
import Mathlib.Tactic.NormNum.Prime

/-!
# XorLinear — words under a map that respects exclusive or

A polynomial over the field of two elements, given by the bits of a number, acts on 64-bit words through
such a map.  When a polynomial of degree 64 annihilates the map, the powers of the map are those of the
indeterminate in the residues, which can be computed; when these have the order `2^64 - 1`, the map leads
from every non-zero word to every other one.
-/

namespace Reasoning

/-! ## Maps that respect exclusive or -/

def XorLinear (f : UInt64 → UInt64) : Prop :=
  ∀ x y, f (x ^^^ y) = f x ^^^ f y

section Linear

variable {f g : UInt64 → UInt64}

theorem XorLinear.map_zero (hf : XorLinear f) : f 0 = 0 := by
  have h := hf 0 0
  rwa [UInt64.xor_self, UInt64.xor_self] at h

theorem XorLinear.comp (hf : XorLinear f) (hg : XorLinear g) : XorLinear (f ∘ g) := by
  intro x y
  rw [Function.comp_apply, hg, hf]
  rfl

theorem XorLinear.xor (hf : XorLinear f) (hg : XorLinear g) : XorLinear fun x ↦ f x ^^^ g x := by
  intro x y
  simp only [hf x y, hg x y]
  ac_rfl

theorem XorLinear.iterate (hf : XorLinear f) (n : Nat) : XorLinear f^[n] := by
  induction n with
  | zero => exact fun x y ↦ rfl
  | succ n ih => exact ih.comp hf

theorem xorLinear_id : XorLinear id := fun _ _ ↦ rfl

theorem xorLinear_shiftRight (k : UInt64) : XorLinear (· >>> k) := fun _ _ ↦ UInt64.shiftRight_xor

theorem xorLinear_shiftLeft (k : UInt64) : XorLinear (· <<< k) := fun _ _ ↦ UInt64.shiftLeft_xor

end Linear


theorem xor_lt_two_pow_of_div {a b n : Nat} (h : a / 2 ^ n = b / 2 ^ n) : a ^^^ b < 2 ^ n := by
  have hdiv : (a ^^^ b) / 2 ^ n = 0 := by rw [Nat.xor_div_two_pow, h, Nat.xor_self]
  exact (Nat.div_eq_zero_iff_lt (Nat.two_pow_pos n)).mp hdiv

/-- A map that respects exclusive or is zero if it is zero on the powers of two. -/
theorem XorLinear.eq_zero_of_basis {f : UInt64 → UInt64} (hf : XorLinear f)
    (hbasis : ∀ i < 64, f (UInt64.ofNat (2 ^ i)) = 0) (x : UInt64) : f x = 0 := by
  have hbelow : ∀ n ≤ 64, ∀ x : UInt64, x.toNat < 2 ^ n → f x = 0 := by
    intro n
    induction n with
    | zero =>
        intro _ x hx
        have hzero : x = 0 := by
          rw [← UInt64.toNat_inj, UInt64.toNat_zero]
          omega
        rw [hzero, hf.map_zero]
    | succ n ih =>
        intro hn x hx
        rcases Nat.lt_or_ge x.toNat (2 ^ n) with hlt | hge
        · exact ih (by omega) x hlt
        · -- without its highest bit the word is below the power
          have hpow : (2 : Nat) ^ n < 2 ^ 64 := Nat.pow_lt_pow_right (by decide) hn
          have hbit : (UInt64.ofNat (2 ^ n)).toNat = 2 ^ n := UInt64.toNat_ofNat_of_lt' hpow
          have hrest : f (x ^^^ UInt64.ofNat (2 ^ n)) = 0 := by
            apply ih (by omega)
            rw [UInt64.toNat_xor, hbit]
            apply xor_lt_two_pow_of_div
            rw [Nat.div_self (Nat.two_pow_pos n)]
            exact Nat.div_eq_of_lt_le (by omega) (by rw [Nat.pow_succ] at hx; omega)
          rw [hf, hbasis n (by omega), UInt64.xor_zero] at hrest
          exact hrest
  exact hbelow 64 (Nat.le_refl 64) x x.toNat_lt

/-! ## Polynomials -/

/-- The polynomial whose coefficients are the lowest `n` bits of `p`, in the map `f`. -/
def act {α : Type} [XorOp α] [OfNat α 0] (f : α → α) : Nat → Nat → α → α
  | 0, _, _ => 0
  | n + 1, p, x => (if p % 2 = 1 then x else 0) ^^^ f (act f n (p / 2) x)

section Act

variable {f : UInt64 → UInt64} (hf : XorLinear f)

include hf

theorem act_xor (n p q : Nat) (x : UInt64) :
    act f n (p ^^^ q) x = act f n p x ^^^ act f n q x := by
  induction n generalizing p q with
  | zero => exact UInt64.xor_self.symm
  | succ n ih =>
      rw [act, act, act, Nat.xor_div_two, ih, hf]
      have hbit : (if (p ^^^ q) % 2 = 1 then x else 0) =
          (if p % 2 = 1 then x else 0) ^^^ (if q % 2 = 1 then x else 0) := by
        have hodd : (p ^^^ q) % 2 = 1 ↔ ¬ (p % 2 = 1 ↔ q % 2 = 1) := Nat.xor_mod_two_eq_one
        by_cases hp : p % 2 = 1 <;> by_cases hq : q % 2 = 1
        · rw [if_neg fun h ↦ hodd.mp h (iff_of_true hp hq), if_pos hp, if_pos hq, UInt64.xor_self]
        · rw [if_pos (hodd.mpr fun h ↦ hq (h.mp hp)), if_pos hp, if_neg hq, UInt64.xor_zero]
        · rw [if_pos (hodd.mpr fun h ↦ hp (h.mpr hq)), if_neg hp, if_pos hq, UInt64.zero_xor]
        · rw [if_neg fun h ↦ hodd.mp h (iff_of_false hp hq), if_neg hp, if_neg hq, UInt64.xor_zero]
      rw [hbit]
      ac_rfl

theorem xorLinear_act (n p : Nat) : XorLinear (act f n p) := by
  induction n generalizing p with
  | zero => exact fun x y ↦ UInt64.xor_self.symm
  | succ n ih =>
      intro x y
      rw [act, act, act, ih, hf]
      split
      · ac_rfl
      · simp only [UInt64.zero_xor]

theorem act_zero (n : Nat) (x : UInt64) : act f n 0 x = 0 := by
  induction n with
  | zero => rfl
  | succ n ih => rw [act, Nat.zero_div, ih, hf.map_zero, UInt64.xor_zero, if_neg (by decide)]

theorem act_one (n : Nat) (x : UInt64) : act f (n + 1) 1 x = x := by
  rw [act, if_pos rfl, show 1 / 2 = 0 from rfl, act_zero hf, hf.map_zero, UInt64.xor_zero]

theorem act_succ_of_lt {n p : Nat} (h : p < 2 ^ n) (x : UInt64) : act f (n + 1) p x = act f n p x := by
  induction n generalizing p with
  | zero =>
      have hp : p = 0 := by omega
      rw [hp, act_zero hf, act_zero hf]
  | succ n ih =>
      have hhalf : p / 2 < 2 ^ n := by
        rw [Nat.pow_succ] at h
        omega
      rw [act, ih hhalf]
      rfl

-- one more factor of the indeterminate
theorem act_double {n p : Nat} (h : p < 2 ^ n) (x : UInt64) :
    act f (n + 1) (2 * p) x = f (act f (n + 1) p x) := by
  have hbit : ¬ 2 * p % 2 = 1 := by omega
  have hhalf : 2 * p / 2 = p := by omega
  rw [act, if_neg hbit, hhalf, UInt64.zero_xor, act_succ_of_lt hf h]

end Act

/-! ## Residues -/

/-- A polynomial of degree 64 that sends the map to zero. -/
structure Annihilates (poly : Nat) (f : UInt64 → UInt64) : Prop where
  degree : poly / 2 ^ 64 = 1
  zero : ∀ x, act f 65 poly x = 0

-- the indeterminate times a residue
def timesX (poly p : Nat) : Nat :=
  if 2 * p / 2 ^ 64 = 1 then (2 * p) ^^^ poly else 2 * p

/-- The indeterminate to the power of `e`, of which the lowest `n` bits count. -/
def powX (poly : Nat) : Nat → Nat → Nat
  | 0, _ => 1
  | n + 1, e =>
      let half := powX poly n (e / 2)
      let square := act (timesX poly) 64 half half
      if e % 2 = 1 then timesX poly square else square

section Residues

variable {poly : Nat} {f : UInt64 → UInt64}

theorem timesX_lt (hpoly : poly / 2 ^ 64 = 1) {p : Nat} (hp : p < 2 ^ 64) :
    timesX poly p < 2 ^ 64 := by
  unfold timesX
  split
  · rename_i hhigh
    exact xor_lt_two_pow_of_div (hhigh.trans hpoly.symm)
  · omega

theorem act_timesX_lt (hpoly : poly / 2 ^ 64 = 1) {p : Nat} (hp : p < 2 ^ 64) (n q : Nat) :
    act (timesX poly) n q p < 2 ^ 64 := by
  induction n generalizing q with
  | zero => exact Nat.two_pow_pos 64
  | succ n ih =>
      rw [act]
      apply Nat.xor_lt_two_pow
      · split
        · exact hp
        · exact Nat.two_pow_pos 64
      · exact timesX_lt hpoly (ih (q / 2))

theorem powX_lt (hpoly : poly / 2 ^ 64 = 1) (n e : Nat) : powX poly n e < 2 ^ 64 := by
  induction n generalizing e with
  | zero => exact Nat.one_lt_two_pow (by decide)
  | succ n ih =>
      rw [powX]
      have hsquare := act_timesX_lt hpoly (ih (e / 2)) 64 (powX poly n (e / 2))
      split
      · exact timesX_lt hpoly hsquare
      · exact hsquare

variable (hf : XorLinear f) (h : Annihilates poly f)

include hf h

theorem act_timesX {p : Nat} (hp : p < 2 ^ 64) (x : UInt64) :
    act f 65 (timesX poly p) x = f (act f 65 p x) := by
  unfold timesX
  split
  · rw [act_xor hf, h.zero, UInt64.xor_zero, act_double hf hp]
  · exact act_double hf hp x

/-- The product of two residues acts as one after the other. -/
theorem act_act {p : Nat} (hp : p < 2 ^ 64) (n q : Nat) (x : UInt64) :
    act f 65 (act (timesX poly) n q p) x = act f n q (act f 65 p x) := by
  induction n generalizing q with
  | zero => exact act_zero hf 65 x
  | succ n ih =>
      have hrest := act_timesX_lt h.degree hp n (q / 2)
      have hunfold : act (timesX poly) (n + 1) q p =
          (if q % 2 = 1 then p else 0) ^^^ timesX poly (act (timesX poly) n (q / 2) p) := rfl
      have hfold : act f (n + 1) q (act f 65 p x) = (if q % 2 = 1 then act f 65 p x else 0) ^^^
          f (act f n (q / 2) (act f 65 p x)) := rfl
      rw [hunfold, act_xor hf, act_timesX hf h hrest, ih, hfold]
      split
      · rfl
      · rw [act_zero hf]

theorem act_powX {n e : Nat} (he : e < 2 ^ n) (x : UInt64) :
    act f 65 (powX poly n e) x = f^[e] x := by
  induction n generalizing e x with
  | zero =>
      have hzero : e = 0 := by omega
      rw [hzero]
      exact act_one hf 64 x
  | succ n ih =>
      have hhalf := powX_lt h.degree n (e / 2)
      have hsquare := act_timesX_lt h.degree hhalf 64 (powX poly n (e / 2))
      have hlt : e / 2 < 2 ^ n := by rw [Nat.pow_succ] at he; omega
      have htwice : act f 65 (act (timesX poly) 64 (powX poly n (e / 2)) (powX poly n (e / 2))) x =
          f^[e / 2 + e / 2] x := by
        rw [act_act hf h hhalf, ← act_succ_of_lt hf hhalf, ih hlt, ih hlt,
          Function.iterate_add_apply]
      rw [powX]
      split
      · rename_i hodd
        rw [act_timesX hf h hsquare, htwice, ← Function.iterate_succ_apply' f]
        congr 1
        omega
      · rename_i heven
        rw [htwice]
        congr 1
        omega

end Residues

/-! ## The cycle of the non-zero words -/

/-- The indeterminate has the order `2^64 - 1`: this power is one, and for each prime factor of it the
power with the factor left out is one plus a unit. -/
structure FullOrder (poly : Nat) : Prop where
  power : powX poly 64 (2 ^ 64 - 1) = 1
  units : ∀ q ∈ [3, 5, 17, 257, 641, 65537, 6700417], ∃ inverse,
    act (timesX poly) 64 inverse (powX poly 64 ((2 ^ 64 - 1) / q) ^^^ 1) = 1

theorem mem_of_prime_dvd {q : Nat} (hq : q.Prime) (hdvd : q ∣ 2 ^ 64 - 1) :
    q ∈ [3, 5, 17, 257, 641, 65537, 6700417] := by
  have hfactors : 2 ^ 64 - 1 = 3 * (5 * (17 * (257 * (641 * (65537 * 6700417))))) := rfl
  rw [hfactors] at hdvd
  simp only [hq.dvd_mul] at hdvd
  have h3 : Nat.Prime 3 := by norm_num
  have h5 : Nat.Prime 5 := by norm_num
  have h17 : Nat.Prime 17 := by norm_num
  have h257 : Nat.Prime 257 := by norm_num
  have h641 : Nat.Prime 641 := by norm_num
  have h65537 : Nat.Prime 65537 := by norm_num
  have h6700417 : Nat.Prime 6700417 := by norm_num
  simpa only [Nat.prime_dvd_prime_iff_eq hq, h3, h5, h17, h257, h641, h65537, h6700417, List.mem_cons,
    List.not_mem_nil, or_false] using hdvd

section Cycle

variable {poly : Nat} {f : UInt64 → UInt64} (hf : XorLinear f) (h : Annihilates poly f)
  (horder : FullOrder poly)

include hf h horder

theorem iterate_order (x : UInt64) : f^[2 ^ 64 - 1] x = x := by
  rw [← act_powX hf h (n := 64) (by decide), horder.power]
  exact act_one hf 64 x

-- no step count that leaves out a prime factor leads back
theorem eq_zero_of_iterate_div {q : Nat} (hq : q ∈ [3, 5, 17, 257, 641, 65537, 6700417]) {x : UInt64}
    (hx : f^[(2 ^ 64 - 1) / q] x = x) : x = 0 := by
  obtain ⟨inverse, hinverse⟩ := horder.units q hq
  have hlt : powX poly 64 ((2 ^ 64 - 1) / q) ^^^ 1 < 2 ^ 64 :=
    Nat.xor_lt_two_pow (powX_lt h.degree 64 _) (by decide)
  have hexp : (2 ^ 64 - 1) / q < 2 ^ 64 := Nat.lt_of_le_of_lt (Nat.div_le_self _ _) (by decide)
  calc x = act f 65 1 x := (act_one hf 64 x).symm
    _ = act f 64 inverse (act f 65 (powX poly 64 ((2 ^ 64 - 1) / q) ^^^ 1) x) := by
      rw [← act_act hf h hlt, hinverse]
    _ = act f 64 inverse (f^[(2 ^ 64 - 1) / q] x ^^^ x) := by
      rw [act_xor hf, act_powX hf h hexp, act_one hf]
    _ = 0 := by rw [hx, UInt64.xor_self, (xorLinear_act hf 64 inverse).map_zero]

theorem minimalPeriod_eq {x : UInt64} (hx : x ≠ 0) : Function.minimalPeriod f x = 2 ^ 64 - 1 := by
  have hperiodic : Function.IsPeriodicPt f (2 ^ 64 - 1) x := iterate_order hf h horder x
  have hdvd := hperiodic.minimalPeriod_dvd
  by_contra hne
  obtain ⟨k, hk⟩ := hdvd
  have hk1 : k ≠ 1 := by
    rintro rfl
    exact hne (by omega)
  obtain ⟨q, hq, hqk⟩ := Nat.exists_prime_and_dvd hk1
  apply hx
  apply eq_zero_of_iterate_div hf h horder (mem_of_prime_dvd hq (hk ▸ Dvd.dvd.mul_left hqk _))
  have hperiod : Function.minimalPeriod f x ∣ (2 ^ 64 - 1) / q := by
    obtain ⟨m, rfl⟩ := hqk
    rw [hk, Nat.mul_left_comm, Nat.mul_div_cancel_left _ hq.pos]
    exact Nat.dvd_mul_right _ _
  exact (Function.isPeriodicPt_minimalPeriod f x).trans_dvd hperiod

theorem iterate_ne_zero {x : UInt64} (hx : x ≠ 0) (n : Nat) : f^[n] x ≠ 0 := by
  intro hzero
  apply hx
  -- from zero no step leads away, so the way around would end there
  have hround : f^[(2 ^ 64 - 1) * n] x = x := by
    have hperiodic : Function.IsPeriodicPt f (2 ^ 64 - 1) x := iterate_order hf h horder x
    exact hperiodic.mul_const n
  have hsplit : (2 ^ 64 - 1) * n = (2 ^ 64 - 1 - 1) * n + n := by omega
  rw [hsplit, Function.iterate_add_apply, hzero, (hf.iterate _).map_zero] at hround
  exact hround.symm

/-- Every non-zero word is reached from every other one. -/
theorem exists_iterate_eq {x y : UInt64} (hx : x ≠ 0) (hy : y ≠ 0) : ∃ n, f^[n] x = y := by
  have hinj : Set.InjOn (fun n ↦ (f^[n] x).toNat) (Finset.range (2 ^ 64 - 1)) := by
    intro m hm n hn heq
    rw [Finset.coe_range, ← minimalPeriod_eq hf h horder hx] at hm hn
    exact Function.iterate_injOn_Iio_minimalPeriod hm hn (UInt64.toNat_inj.mp heq)
  have hsubset : (Finset.range (2 ^ 64 - 1)).image (fun n ↦ (f^[n] x).toNat) ⊆
      Finset.Ico 1 (2 ^ 64) := by
    intro m hm
    obtain ⟨n, -, rfl⟩ := Finset.mem_image.mp hm
    have hne := iterate_ne_zero hf h horder hx n
    rw [ne_eq, ← UInt64.toNat_inj, UInt64.toNat_zero] at hne
    exact Finset.mem_Ico.mpr ⟨Nat.pos_of_ne_zero hne, UInt64.toNat_lt _⟩
  have hcard : (Finset.Ico 1 (2 ^ 64)).card ≤
      ((Finset.range (2 ^ 64 - 1)).image fun n ↦ (f^[n] x).toNat).card := by
    rw [Finset.card_image_of_injOn hinj, Finset.card_range, Nat.card_Ico]
  have heq := Finset.eq_of_subset_of_card_le hsubset hcard
  have hmem : y.toNat ∈ (Finset.range (2 ^ 64 - 1)).image fun n ↦ (f^[n] x).toNat := by
    rw [heq]
    rw [ne_eq, ← UInt64.toNat_inj, UInt64.toNat_zero] at hy
    exact Finset.mem_Ico.mpr ⟨Nat.pos_of_ne_zero hy, y.toNat_lt⟩
  obtain ⟨n, -, hn⟩ := Finset.mem_image.mp hmem
  exact ⟨n, UInt64.toNat_inj.mp hn⟩

end Cycle

end Reasoning
