import Mathlib.Data.List.Basic
import Mathlib.Tactic.Common

/-!
# Formula — conditions combined with AND and OR

A formula can be evaluated against truth values, or decided with atoms that may fail, where every atom is
decided and a failure anywhere is a failure of the whole.  A decision that succeeds is the evaluation
against the decisions of the atoms, so replacing a formula by one that has the same truth values and no
further atoms keeps every decision.
-/

namespace Reasoning

inductive Formula (α : Type) where
  | atom (a : α)
  | and (left right : Formula α)
  | or (left right : Formula α)

namespace Formula

variable {α ε : Type}

def atoms : Formula α → List α
  | .atom a => [a]
  | .and left right => left.atoms ++ right.atoms
  | .or left right => left.atoms ++ right.atoms

def holds (v : α → Bool) : Formula α → Bool
  | .atom a => v a
  | .and left right => left.holds v && right.holds v
  | .or left right => left.holds v || right.holds v

-- both sides are decided, whatever the first one comes to
def decideWith (d : α → Except ε Bool) : Formula α → Except ε Bool
  | .atom a => d a
  | .and left right => do
      let l ← left.decideWith d
      let r ← right.decideWith d
      return l && r
  | .or left right => do
      let l ← left.decideWith d
      let r ← right.decideWith d
      return l || r

-- the truth value of a decision, `false` for a failure
def decision (d : α → Except ε Bool) (a : α) : Bool :=
  match d a with
  | .ok b => b
  | .error _ => false

variable {d : α → Except ε Bool}

theorem decision_of_ok {a : α} {b : Bool} (h : d a = .ok b) : decision d a = b := by
  rw [decision, h]

-- two operands and what combines them
theorem bind_both_eq_ok {x y : Except ε Bool} {op : Bool → Bool → Bool} {b : Bool} :
    (do
      let l ← x
      let r ← y
      return op l r) = .ok b ↔ ∃ l r, x = .ok l ∧ y = .ok r ∧ op l r = b := by
  cases x with
  | error err => exact ⟨nofun, nofun⟩
  | ok l =>
      cases y with
      | error err => exact ⟨nofun, nofun⟩
      | ok r =>
          constructor
          · intro h
            exact ⟨l, r, rfl, rfl, Except.ok.inj h⟩
          · intro h
            rcases h with ⟨_, _, hl, hr, hb⟩
            cases hl
            cases hr
            exact congrArg Except.ok hb

/-- A formula is decided exactly if all its atoms are, and then by their truth values. -/
theorem decideWith_eq_ok_iff {f : Formula α} {b : Bool} :
    f.decideWith d = .ok b ↔ (∀ a ∈ f.atoms, ∃ c, d a = .ok c) ∧ f.holds (decision d) = b := by
  induction f generalizing b with
  | atom a =>
      constructor
      · intro h
        refine ⟨fun a' ha' ↦ ?_, decision_of_ok h⟩
        rw [List.mem_singleton.mp ha']
        exact ⟨b, h⟩
      · intro h
        obtain ⟨c, hc⟩ := h.1 a List.mem_cons_self
        rw [← h.2, holds, decision_of_ok hc]
        exact hc
  | and left right ihl ihr | or left right ihl ihr =>
      rw [decideWith, bind_both_eq_ok, atoms, List.forall_mem_append]
      constructor
      · intro h
        rcases h with ⟨l, r, hl, hr, rfl⟩
        obtain ⟨hleft, rfl⟩ := ihl.mp hl
        obtain ⟨hright, rfl⟩ := ihr.mp hr
        exact ⟨⟨hleft, hright⟩, rfl⟩
      · intro h
        rcases h with ⟨⟨hleft, hright⟩, rfl⟩
        exact ⟨_, _, ihl.mpr ⟨hleft, rfl⟩, ihr.mpr ⟨hright, rfl⟩, rfl⟩

/-- `g` has the truth values of `f` and no further atoms. -/
structure Simplifies (f g : Formula α) : Prop where
  atoms : ∀ a ∈ g.atoms, a ∈ f.atoms
  holds : ∀ v, g.holds v = f.holds v

theorem Simplifies.decideWith {f g : Formula α} (h : Simplifies f g) {b : Bool}
    (hf : f.decideWith d = .ok b) : g.decideWith d = .ok b := by
  obtain ⟨hall, hholds⟩ := decideWith_eq_ok_iff.mp hf
  exact decideWith_eq_ok_iff.mpr ⟨fun a ha ↦ hall a (h.atoms a ha), (h.holds _).trans hholds⟩

end Formula

end Reasoning
