import Mathlib.Data.Option.Basic
import Mathlib.Tactic.Common

/-!
# RetryLoop — updating a cell by compare-exchange until it succeeds

The loop loads the cell, computes the new value from what it has seen and tries to exchange the two; a
failed exchange yields the value of the cell at that moment, and the loop goes on with it.  It ends
early when there is nothing to update.  However other parties write to the cell between its steps, the
loop leaves the cell alone until its last step, which applies the update to the value of the cell then.
-/

namespace Reasoning.RetryLoop

universe u

variable {α : Type u}

/-- Where the loop is: a retry knows the value it has last seen and the new value it computed from it. -/
inductive Loop (update : α → Option α) where
  | load
  | retry (current new : α) (hnew : update current = some new)
  | done

namespace Loop

variable {update : α → Option α}

/-- The condition of the loop, on the value just seen. -/
def check (update : α → Option α) (current : α) : Loop update :=
  match h : update current with
  | some new => .retry current new h
  | none => .done

theorem check_cases (update : α → Option α) (current : α) :
    (∃ new h, check update current = .retry current new h) ∨
      update current = none ∧ check update current = .done := by
  unfold check
  split
  case h_1 new h => exact .inl ⟨new, h, rfl⟩
  case h_2 h => exact .inr ⟨h, rfl⟩

/-- Seeing a value takes the loop to a retry, or to its end if that value is not to be updated. -/
theorem check_spec (update : α → Option α) (cell : α) :
    check update cell ≠ .done ∨ check update cell = .done ∧ cell = (update cell).getD cell := by
  rcases check_cases update cell with ⟨new, h, heq⟩ | ⟨hnone, heq⟩
  · exact .inl (heq ▸ nofun)
  · exact .inr ⟨heq, by rw [hnone, Option.getD_none]⟩

end Loop

variable [DecidableEq α]

/-- The cell afterwards and the outcome, which carries the value seen.  The weak form may fail although the
cell holds what was expected. -/
def compareExchangeWeak (cell current new : α) (spurious : Bool) : α × Except α α :=
  if cell = current ∧ spurious = false then (new, .ok cell) else (cell, .error cell)

namespace Loop

variable {update : α → Option α}

def afterExchange (update : α → Option α) : α × Except α α → α × Loop update
  | (cell, .ok _) => (cell, .done)
  | (cell, .error next) => (cell, check update next)

/-- One access to the cell and what follows from it, `none` behind the loop. -/
def advance (cell : α) (spurious : Bool) : Loop update → Option (α × Loop update)
  | .load => some (cell, check update cell)
  | .retry current new _ =>
      some (afterExchange update (compareExchangeWeak cell current new spurious))
  | .done => none

/-- A step of the loop that is not the last leaves the cell as it is; the last one applies the update to
the value which the cell has then. -/
theorem advance_cases {cell : α} {spurious : Bool} {loop : Loop update} {r : α × Loop update}
    (h : advance cell spurious loop = some r) : loop ≠ .done ∧
      (r.1 = cell ∧ r.2 ≠ .done ∨ r.1 = (update cell).getD cell ∧ r.2 = .done) := by
  have hseen : cell = cell ∧ check update cell ≠ .done ∨
      cell = (update cell).getD cell ∧ check update cell = .done := by
    rcases check_spec update cell with hnext | ⟨hdone, hcell⟩
    · exact .inl ⟨rfl, hnext⟩
    · exact .inr ⟨hcell, hdone⟩
  cases loop with
  | load =>
      cases h
      exact ⟨nofun, hseen⟩
  | retry current new hnew =>
      cases h
      refine ⟨nofun, ?_⟩
      unfold compareExchangeWeak
      split
      case isTrue hsame =>
        rw [hsame.1, hnew]
        exact .inr ⟨rfl, rfl⟩
      case isFalse => exact hseen
  | done => contradiction

/-! ## The loop without interference -/

/-- How many more steps the loop takes at most while the cell stays as it is and no exchange fails
spuriously. -/
def rank (cell : α) : Loop update → Nat
  | .load => 2
  | .retry current _ _ => if current = cell then 1 else 2
  | .done => 0

theorem rank_check (cell : α) : rank cell (check update cell) ≤ 1 := by
  rcases check_cases update cell with ⟨new, h, heq⟩ | ⟨-, heq⟩
  · have hfresh : rank cell (check update cell) = 1 := by rw [heq, rank, if_pos rfl]
    exact Nat.le_of_eq hfresh
  · have hdone : rank cell (check update cell) = 0 := by rw [heq, rank]
    exact hdone ▸ Nat.zero_le 1

theorem advance_rank {loop : Loop update} (h : loop ≠ .done) (cell : α) :
    ∃ r, advance cell false loop = some r ∧ rank r.1 r.2 < rank cell loop := by
  cases loop with
  | load => exact ⟨_, rfl, Nat.lt_succ_of_le (rank_check cell)⟩
  | retry current new hnew =>
      refine ⟨_, rfl, ?_⟩
      by_cases hsame : cell = current
      · rw [compareExchangeWeak, if_pos ⟨hsame, rfl⟩, rank, if_pos hsame.symm]
        exact Nat.one_pos
      · rw [compareExchangeWeak, if_neg fun hand ↦ hsame hand.1, rank, if_neg (Ne.symm hsame)]
        exact Nat.lt_succ_of_le (rank_check cell)
  | done => contradiction

end Loop

end Reasoning.RetryLoop
