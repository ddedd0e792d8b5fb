import Mathlib.Data.List.Basic
import Mathlib.Tactic.Common

/-!
# Channel — bounded first-in first-out channels

A channel never holds more than its capacity.  Sending is possible while there is room and appends;
receiving takes the oldest message.
-/

namespace Reasoning

structure Channel (α : Type) (capacity : Nat) where
  items : List α
  hlength : items.length ≤ capacity
  deriving DecidableEq

namespace Channel

variable {α : Type} {capacity : Nat}

def empty : Channel α capacity := ⟨[], Nat.zero_le _⟩

-- `none` when the channel is full
def trySend (channel : Channel α capacity) (a : α) : Option (Channel α capacity) :=
  if h : channel.items.length < capacity then
    some ⟨channel.items ++ [a], by
      rw [List.length_append, List.length_singleton]
      exact h⟩
  else none

-- `none` when the channel is empty
def tryRecv (channel : Channel α capacity) : Option (α × Channel α capacity) :=
  match channel with
  | ⟨[], _⟩ => none
  | ⟨a :: rest, h⟩ => some (a, ⟨rest, Nat.le_of_succ_le h⟩)

@[ext]
theorem ext {c d : Channel α capacity} (h : c.items = d.items) : c = d := by
  cases c
  cases d
  cases h
  rfl

@[simp]
theorem items_empty : (empty : Channel α capacity).items = [] := rfl

theorem trySend_eq_some {c d : Channel α capacity} {a : α} :
    c.trySend a = some d ↔ d.items = c.items ++ [a] := by
  unfold trySend
  constructor
  · intro h
    split at h
    · cases h
      rfl
    · cases h
  · intro h
    have hroom : c.items.length < capacity := by
      have hle := d.hlength
      rw [h, List.length_append, List.length_singleton] at hle
      omega
    rw [dif_pos hroom, Option.some_inj]
    exact ext h.symm

theorem trySend_eq_none {c : Channel α capacity} {a : α} :
    c.trySend a = none ↔ c.items.length = capacity := by
  unfold trySend
  have hle := c.hlength
  split
  · constructor
    · exact nofun
    · omega
  · exact iff_of_true rfl (by omega)

theorem exists_trySend {c : Channel α capacity} (h : c.items.length < capacity) (a : α) :
    ∃ d, c.trySend a = some d ∧ d.items = c.items ++ [a] := by
  cases hsend : c.trySend a with
  | none =>
      have hfull := trySend_eq_none.mp hsend
      omega
  | some d => exact ⟨d, rfl, trySend_eq_some.mp hsend⟩

theorem tryRecv_eq_some {c d : Channel α capacity} {a : α} :
    c.tryRecv = some (a, d) ↔ c.items = a :: d.items := by
  rcases c with ⟨items, hlength⟩
  cases items with
  | nil => exact iff_of_false nofun nofun
  | cons b rest =>
      show some (b, _) = some (a, d) ↔ b :: rest = a :: d.items
      constructor
      · intro h
        cases h
        rfl
      · intro h
        cases h
        rfl

end Channel

end Reasoning
