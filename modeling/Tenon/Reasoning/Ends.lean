import Mathlib.Tactic.Common

/-!
# Ends — how a fallible computation ends

When an `Except` succeeds, and a judgement on it: the value of the computation meets one condition, or
its error meets another.  The rules follow the monad, so that a computation is judged by its parts.
-/

namespace Reasoning

universe u v w

variable {ε : Type u} {α : Type v} {β : Type w}

/-! ## Success -/

section Success

variable {x : Except ε α} {b : β}

theorem error_ne_ok {e : ε} {a : α} : (Except.error e : Except ε α) ≠ .ok a := by
  intro h
  cases h

theorem bind_eq_ok {f : α → Except ε β} : x.bind f = .ok b ↔ ∃ a, x = .ok a ∧ f a = .ok b := by
  cases x with
  | error e =>
      constructor
      · intro h
        cases h
      · intro h
        obtain ⟨a, h, -⟩ := h
        cases h
  | ok a =>
      constructor
      · intro h
        exact ⟨a, rfl, h⟩
      · intro h
        obtain ⟨a', h, h'⟩ := h
        cases h
        exact h'

theorem map_eq_ok {f : α → β} : x.map f = .ok b ↔ ∃ a, x = .ok a ∧ f a = b := by
  cases x with
  | error e => simp [Except.map]
  | ok a => simp [Except.map]

end Success

/-! ## The judgement -/

/-- The computation ends in a value that meets `post`, or in an error that meets `fails`. -/
def Ends (post : α → Prop) (fails : ε → Prop) : Except ε α → Prop
  | .ok a => post a
  | .error e => fails e

namespace Ends

variable {post : α → Prop} {fails : ε → Prop} {x : Except ε α}

theorem of_forall (hvalue : ∀ a, x = .ok a → post a) (herror : ∀ e, x = .error e → fails e) :
    Ends post fails x := by
  cases x with
  | ok a => exact hvalue a rfl
  | error e => exact herror e rfl

theorem value (h : Ends post fails x) {a : α} (hx : x = .ok a) : post a := by
  rw [hx] at h
  exact h

theorem error (h : Ends post fails x) {e : ε} (hx : x = .error e) : fails e := by
  rw [hx] at h
  exact h

theorem mono {post' : α → Prop} {fails' : ε → Prop} (h : Ends post fails x)
    (hpost : ∀ a, post a → post' a) (hfails : ∀ e, fails e → fails' e) : Ends post' fails' x := by
  cases x with
  | ok a => exact hpost a h
  | error e => exact hfails e h

/-- The second computation is judged on the value of the first. -/
theorem bind {post' : β → Prop} {f : α → Except ε β} (h : Ends post fails x)
    (hf : ∀ a, x = .ok a → post a → Ends post' fails (f a)) : Ends post' fails (x.bind f) := by
  cases x with
  | ok a => exact hf a rfl h
  | error e => exact h

theorem map {post' : β → Prop} {f : α → β} (h : Ends post fails x)
    (hf : ∀ a, x = .ok a → post a → post' (f a)) : Ends post' fails (x.map f) := by
  cases x with
  | ok a => exact hf a rfl h
  | error e => exact h

end Ends

end Reasoning
