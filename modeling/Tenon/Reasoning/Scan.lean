import Mathlib.Order.Basic
import Mathlib.Tactic.Common

/-!
# Scan — reading cells that others raise

A reader reads cells one after the other while others raise them.  Each value it has read lies between
what its cell held when the reader started and what the cell holds now.
-/

namespace Reasoning

/-- The cells read so far with what they held, and the cells still to read.  No read looks at `start`,
which is what the cells held at the start. -/
structure Scan (ι κ : Type) where
  start : ι → κ
  taken : List (ι × κ)
  rest : List ι

namespace Scan

variable {ι κ : Type}

def begin (cells : ι → κ) (order : List ι) : Scan ι κ := ⟨cells, [], order⟩

def read (scan : Scan ι κ) (cells : ι → κ) : Option (Scan ι κ) :=
  match scan.rest with
  | [] => none
  | cell :: rest => some ⟨scan.start, scan.taken ++ [(cell, cells cell)], rest⟩

def order (scan : Scan ι κ) : List ι := scan.taken.map Prod.fst ++ scan.rest

theorem read_eq_some {scan next : Scan ι κ} {cells : ι → κ} (h : scan.read cells = some next) :
    ∃ cell rest, scan.rest = cell :: rest ∧
      next = ⟨scan.start, scan.taken ++ [(cell, cells cell)], rest⟩ := by
  unfold read at h
  split at h
  · cases h
  · rename_i cell rest hrest
    exact ⟨cell, rest, hrest, (Option.some.inj h).symm⟩

theorem order_read {scan next : Scan ι κ} {cells : ι → κ} (h : scan.read cells = some next) :
    next.order = scan.order := by
  obtain ⟨cell, rest, hrest, rfl⟩ := read_eq_some h
  rw [order, order, hrest, List.map_append, List.append_assoc]
  rfl

theorem start_read {scan next : Scan ι κ} {cells : ι → κ} (h : scan.read cells = some next) :
    next.start = scan.start := by
  obtain ⟨cell, rest, -, rfl⟩ := read_eq_some h
  rfl

variable [Preorder κ]

structure Between (scan : Scan ι κ) (now : ι → κ) : Prop where
  started : ∀ cell, scan.start cell ≤ now cell
  lower : ∀ e ∈ scan.taken, scan.start e.1 ≤ e.2
  upper : ∀ e ∈ scan.taken, e.2 ≤ now e.1

theorem between_begin (cells : ι → κ) (order : List ι) : (begin cells order).Between cells :=
  ⟨fun _ ↦ le_refl _, nofun, nofun⟩

theorem Between.raise {scan : Scan ι κ} {now later : ι → κ} (h : scan.Between now)
    (hle : ∀ cell, now cell ≤ later cell) : scan.Between later :=
  ⟨fun cell ↦ (h.started cell).trans (hle cell), h.lower, fun e he ↦ (h.upper e he).trans (hle e.1)⟩

theorem Between.read {scan next : Scan ι κ} {now : ι → κ} (h : scan.Between now)
    (hread : scan.read now = some next) : next.Between now := by
  obtain ⟨cell, rest, -, rfl⟩ := read_eq_some hread
  refine ⟨h.started, fun e he ↦ ?_, fun e he ↦ ?_⟩
  · rcases List.mem_append.mp he with hold | hnew
    · exact h.lower e hold
    · rw [List.mem_singleton.mp hnew]
      exact h.started cell
  · rcases List.mem_append.mp he with hold | hnew
    · exact h.upper e hold
    · rw [List.mem_singleton.mp hnew]

end Scan

end Reasoning
