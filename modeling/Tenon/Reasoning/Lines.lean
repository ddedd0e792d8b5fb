import Mathlib.Tactic.Common
import Tenon.Reasoning.Segments

/-!
# Lines — a list of entries kept as the lines of a text

Writing puts a separator after each entry.  Reading splits at the separator, strips the blank ends of
each line and drops the lines that are blank, so exactly the lists of tight entries are read back as
they were written, and every list that is read is one of them.
-/

namespace Reasoning.Lines

variable {α : Type} [DecidableEq α]

/-- The list without its blank ends. -/
def strip (blank : α → Bool) (cs : List α) : List α :=
  ((cs.dropWhile blank).reverse.dropWhile blank).reverse

/-- Not empty, and blank at neither end. -/
def Tight (blank : α → Bool) (cs : List α) : Prop :=
  ∃ first last, cs.head? = some first ∧ cs.getLast? = some last ∧
    blank first = false ∧ blank last = false

def write (sep : α) (entries : List (List α)) : List α :=
  [sep].intercalate entries ++ [sep]

def read (sep : α) (blank : α → Bool) (text : List α) : List (List α) :=
  ((text.splitOn sep).map (strip blank)).filter (· ≠ [])

section Strip

variable {blank : α → Bool}

omit [DecidableEq α]

theorem dropWhile_eq_self_of_head? {cs : List α} {first : α} (h : cs.head? = some first)
    (hfirst : blank first = false) : cs.dropWhile blank = cs := by
  cases cs with
  | nil => cases h
  | cons c cs =>
      cases h
      rw [List.dropWhile_cons, if_neg (by rw [hfirst]; exact Bool.false_ne_true)]

theorem strip_of_tight {cs : List α} (h : Tight blank cs) : strip blank cs = cs := by
  rcases h with ⟨first, last, hhead, hlast, hfirst, hblank⟩
  have hreverse : cs.reverse.head? = some last := by rw [List.head?_reverse, hlast]
  rw [strip, dropWhile_eq_self_of_head? hhead hfirst, dropWhile_eq_self_of_head? hreverse hblank,
    List.reverse_reverse]

theorem head?_dropWhile_false {cs : List α} (h : cs.dropWhile blank ≠ []) :
    ∃ first, (cs.dropWhile blank).head? = some first ∧ blank first = false := by
  obtain ⟨first, rest, hcons⟩ := List.exists_cons_of_ne_nil h
  have hfirst := List.head_dropWhile_not blank h
  refine ⟨first, by rw [hcons]; rfl, ?_⟩
  simpa [hcons] using hfirst

/-- What is left of a list that is not blank is tight. -/
theorem tight_strip {cs : List α} (h : strip blank cs ≠ []) : Tight blank (strip blank cs) := by
  have hinner : (cs.dropWhile blank).reverse.dropWhile blank ≠ [] := by
    intro hnil
    exact h (by rw [strip, hnil]; rfl)
  have hleft : cs.dropWhile blank ≠ [] := by
    intro hnil
    exact hinner (by rw [hnil]; rfl)
  obtain ⟨last, hlast, hlastBlank⟩ := head?_dropWhile_false hinner
  obtain ⟨first, hfirst, hfirstBlank⟩ := head?_dropWhile_false hleft
  -- stripping the right end keeps the first element
  have hprefix : strip blank cs <+: cs.dropWhile blank := by
    have hsuffix := List.dropWhile_suffix blank (l := (cs.dropWhile blank).reverse)
    rw [← List.reverse_prefix, List.reverse_reverse] at hsuffix
    exact hsuffix
  obtain ⟨c, rest, hcons⟩ := List.exists_cons_of_ne_nil h
  refine ⟨first, last, ?_, ?_, hfirstBlank, hlastBlank⟩
  · obtain ⟨tail, htail⟩ := hprefix
    rw [hcons] at htail ⊢
    rw [← htail] at hfirst
    exact hfirst
  · rw [strip, List.getLast?_reverse]
    exact hlast

theorem ne_nil_of_tight {cs : List α} (h : Tight blank cs) : cs ≠ [] := by
  rintro rfl
  rcases h with ⟨first, last, hhead, -⟩
  cases hhead

theorem strip_concat_blank (cs : List α) {c : α} (h : blank c = true) :
    strip blank (cs ++ [c]) = strip blank cs := by
  have hlast : [c].dropWhile blank = [] := by rw [List.dropWhile_cons, if_pos h, List.dropWhile_nil]
  rw [strip, strip, List.dropWhile_append]
  by_cases hnil : cs.dropWhile blank = []
  · rw [hnil, List.isEmpty_nil, if_pos rfl, hlast]
  · rw [if_neg (by simpa using hnil), List.reverse_append, List.reverse_singleton,
      List.singleton_append, List.dropWhile_cons, if_pos h]

theorem mem_of_mem_strip {cs : List α} {c : α} (h : c ∈ strip blank cs) : c ∈ cs := by
  rw [strip, List.mem_reverse] at h
  have hinner := (List.dropWhile_suffix blank).subset h
  rw [List.mem_reverse] at hinner
  exact (List.dropWhile_suffix blank).subset hinner

end Strip

theorem splitOn_write {sep : α} {entries : List (List α)} (hne : entries ≠ [])
    (hfree : ∀ e ∈ entries, sep ∉ e) : (write sep entries).splitOn sep = entries ++ [[]] := by
  have hwrite : write sep entries = [sep].intercalate (entries ++ [[]]) := by
    induction entries with
    | nil => exact absurd rfl hne
    | cons e rest ih =>
        cases rest with
        | nil => simp [write, List.intercalate]
        | cons e' rest =>
            have htail := ih (List.cons_ne_nil e' rest) fun e he ↦ hfree e (List.mem_cons_of_mem _ he)
            simp only [write, List.intercalate, List.intersperse_cons_cons, List.cons_append,
              List.flatten_cons, List.append_assoc] at htail ⊢
            rw [htail]
  rw [hwrite, List.splitOn_intercalate]
  · intro e he
    rcases List.mem_append.mp he with hmem | hmem
    · exact hfree e hmem
    · rw [List.mem_singleton.mp hmem]
      exact List.not_mem_nil
  · simp

/-- The entries that survive the round trip. -/
def Writable (sep : α) (blank : α → Bool) (e : List α) : Prop := Tight blank e ∧ sep ∉ e

/-- Every entry that is read is writable. -/
theorem writable_of_mem_read {sep : α} {blank : α → Bool} {text e : List α}
    (h : e ∈ read sep blank text) : Writable sep blank e := by
  obtain ⟨hmem, hne⟩ := List.mem_filter.mp h
  obtain ⟨line, hline, rfl⟩ := List.mem_map.mp hmem
  have hfree : sep ∉ line := Segments.not_mem_of_mem_splitOn hline
  exact ⟨tight_strip (of_decide_eq_true hne), fun hsep ↦ hfree (mem_of_mem_strip hsep)⟩

/-- A list of entries is read back as it was written exactly when each entry is writable. -/
theorem read_write_iff {sep : α} {blank : α → Bool} {entries : List (List α)} (hne : entries ≠ []) :
    read sep blank (write sep entries) = entries ↔ ∀ e ∈ entries, Writable sep blank e := by
  constructor
  · intro h e he
    rw [← h] at he
    exact writable_of_mem_read he
  · intro h
    have hstrip : entries.map (strip blank) = entries := by
      conv_rhs => rw [← List.map_id entries]
      exact List.map_congr_left fun e he ↦ strip_of_tight (h e he).1
    have hkeep : entries.filter (· ≠ []) = entries :=
      List.filter_eq_self.mpr fun e he ↦ decide_eq_true (ne_nil_of_tight (h e he).1)
    rw [read, splitOn_write hne fun e he ↦ (h e he).2, List.map_append, hstrip, List.filter_append,
      hkeep]
    simp [strip]

end Reasoning.Lines
