import Mathlib.Data.List.Lex
import Mathlib.Data.String.Basic
import Mathlib.Tactic.Common

/-!
# Segments — splitting a text at a separator and joining it back

`split` follows the usual string-library convention: the empty text has one (empty) segment, and
leading, trailing and repeated separators give empty segments.  Joining undoes splitting; a
separator-free list of segments is the only one `split` returns, and among all lists of segments
that join to one text it is the lexicographically least.
-/

namespace Reasoning.Segments

/-- The segments of `s` between occurrences of `sep`. -/
def split (sep : Char) (s : String) : List String :=
  (s.toList.splitOn sep).map String.ofList

/-- The segments with `sep` between them. -/
def join (sep : Char) (segs : List String) : String :=
  String.ofList ([sep].intercalate (segs.map String.toList))

theorem split_ne_nil (sep : Char) (s : String) : split sep s ≠ [] := by
  simp [split, List.splitOn_ne_nil]

theorem toList_join (sep : Char) (segs : List String) :
    (join sep segs).toList = [sep].intercalate (segs.map String.toList) := by
  simp [join]

theorem map_toList_split (sep : Char) (s : String) :
    (split sep s).map String.toList = s.toList.splitOn sep := by
  simp [split, Function.comp_def]

@[simp]
theorem join_split (sep : Char) (s : String) : join sep (split sep s) = s := by
  rw [← String.toList_inj, toList_join, map_toList_split, List.intercalate_splitOn]

theorem split_join (sep : Char) {segs : List String} (hfree : ∀ g ∈ segs, sep ∉ g.toList)
    (hne : segs ≠ []) : split sep (join sep segs) = segs := by
  unfold split
  rw [toList_join, List.splitOn_intercalate]
  · simp [Function.comp_def]
  · intro l hl
    obtain ⟨g, hg, rfl⟩ := List.mem_map.mp hl
    exact hfree g hg
  · simpa using hne

theorem not_mem_of_mem_splitOn {α : Type} [DecidableEq α] {sep : α} {cs g : List α}
    (h : g ∈ cs.splitOn sep) : sep ∉ g := by
  induction cs generalizing g with
  | nil =>
      have hg : g = [] := by simpa using h
      simp [hg]
  | cons c cs ih =>
      rw [List.splitOn_eq_splitOnP, List.splitOnP_cons_eq_if_modifyHead,
        ← List.splitOn_eq_splitOnP] at h
      split at h
      · rcases List.mem_cons.mp h with rfl | hrest
        · exact List.not_mem_nil
        · exact ih hrest
      · -- the character joins the first chunk, which holds no separator either
        rename_i hc
        obtain ⟨g', rest, hsplit⟩ := List.exists_cons_of_ne_nil (List.splitOn_ne_nil sep cs)
        rw [hsplit, List.modifyHead_cons] at h
        have hhead : g' ∈ cs.splitOn sep := hsplit ▸ List.mem_cons_self
        rcases List.mem_cons.mp h with rfl | hrest
        · have hne : sep ≠ c := fun heq ↦ hc (beq_iff_eq.mpr heq.symm)
          simp [hne, ih hhead]
        · exact ih (hsplit ▸ List.mem_cons_of_mem g' hrest)

theorem length_splitOn_le {α : Type} [DecidableEq α] (sep : α) (cs : List α) :
    (cs.splitOn sep).length ≤ cs.length + 1 := by
  induction cs with
  | nil => simp
  | cons c cs ih =>
      rw [List.splitOn_eq_splitOnP, List.splitOnP_cons_eq_if_modifyHead, ← List.splitOn_eq_splitOnP]
      split
      · simpa using ih
      · rw [List.length_modifyHead, List.length_cons]
        omega

theorem not_mem_of_mem_split {sep : Char} {s g : String} (h : g ∈ split sep s) :
    sep ∉ g.toList := by
  obtain ⟨cs, hcs, rfl⟩ := List.mem_map.mp h
  simpa using not_mem_of_mem_splitOn hcs

@[simp]
theorem join_singleton (sep : Char) (s : String) : join sep [s] = s := by
  simp [join, List.intercalate]

theorem join_cons (sep : Char) (s : String) {segs : List String} (hne : segs ≠ []) :
    join sep (s :: segs) = s ++ String.singleton sep ++ join sep segs := by
  rw [← String.toList_inj]
  obtain ⟨t, rest, rfl⟩ := List.exists_cons_of_ne_nil hne
  simp [toList_join, List.intercalate]

theorem split_join_cons (sep : Char) {s : String} (hfree : sep ∉ s.toList) {segs : List String}
    (hne : segs ≠ []) : split sep (join sep (s :: segs)) = s :: split sep (join sep segs) := by
  have hchars : (join sep (s :: segs)).toList = s.toList ++ sep :: (join sep segs).toList := by
    rw [join_cons sep s hne]
    simp
  unfold split
  rw [hchars, List.splitOn_append_cons_self, List.splitOn_eq_singleton hfree]
  simp

theorem join_concat (sep : Char) {segs : List String} (s : String) (hne : segs ≠ []) :
    join sep (segs ++ [s]) = join sep segs ++ String.singleton sep ++ s := by
  induction segs with
  | nil => exact absurd rfl hne
  | cons t rest ih =>
      by_cases hrest : rest = []
      · subst hrest
        rw [List.singleton_append, join_cons sep t (by simp), join_singleton, join_singleton]
      · rw [List.cons_append, join_cons sep t (by simp), ih hrest, join_cons sep t hrest]
        simp only [String.append_assoc]

-- texts are ordered as their lists of characters
theorem lt_of_map_toList_lt {xs ys : List String}
    (h : xs.map String.toList < ys.map String.toList) : xs < ys := by
  induction xs generalizing ys with
  | nil =>
      cases ys with
      | nil => exact absurd h (List.not_lt_nil _)
      | cons y ys => exact List.nil_lt_cons y ys
  | cons x xs ih =>
      cases ys with
      | nil => exact absurd h (List.not_lt_nil _)
      | cons y ys =>
          rw [List.map_cons, List.map_cons, List.cons_lt_cons_iff] at h
          rcases h with hlt | ⟨heq, hrest⟩
          · exact List.Lex.rel (String.lt_iff_toList_lt.mpr hlt)
          · rw [String.toList_inj] at heq
            exact heq ▸ List.Lex.cons (ih hrest)

/-! ## The separator-free spelling is the least one -/

-- when xs holds a separator, the first chunk of xs ++ ys is a proper prefix of xs
theorem splitOn_append_lt {sep : Char} {xs : List Char} (ys : List Char) (h : sep ∈ xs) :
    ∃ g rest, (xs ++ ys).splitOn sep = g :: rest ∧ g < xs := by
  obtain ⟨pre, post, rfl, hpre⟩ := List.eq_append_cons_of_mem h
  have hsplit : (pre ++ sep :: post ++ ys).splitOn sep = pre :: (post ++ ys).splitOn sep := by
    rw [List.append_assoc, List.cons_append, List.splitOn_append_cons_self,
      List.splitOn_eq_singleton hpre, List.singleton_append]
  have hlt : pre ++ [] < pre ++ sep :: post := List.append_left_lt (List.nil_lt_cons sep post)
  rw [List.append_nil] at hlt
  exact ⟨pre, (post ++ ys).splitOn sep, hsplit, hlt⟩

theorem splitOn_intercalate_le {sep : Char} {ys : List (List Char)} (hne : ys ≠ [])
    (hdiff : ys ≠ ([sep].intercalate ys).splitOn sep) :
    ([sep].intercalate ys).splitOn sep < ys := by
  induction ys with
  | nil => exact absurd rfl hne
  | cons y rest ih =>
      by_cases hy : sep ∈ y
      · -- the first chunk is cut at its own separator, which decides the comparison at once
        have hjoin : ∃ tail, [sep].intercalate (y :: rest) = y ++ tail := by
          cases rest with
          | nil => exact ⟨[], by simp [List.intercalate]⟩
          | cons z zs => exact ⟨sep :: [sep].intercalate (z :: zs), by simp [List.intercalate]⟩
        rcases hjoin with ⟨tail, htail⟩
        obtain ⟨g, more, hsplit, hlt⟩ := splitOn_append_lt tail hy
        rw [htail, hsplit]
        exact List.Lex.rel hlt
      · cases rest with
        | nil =>
            have hsame : [y] = ([sep].intercalate [y]).splitOn sep := by
              simp [List.intercalate, List.splitOn_eq_singleton hy]
            exact absurd hsame hdiff
        | cons z zs =>
            have hsplit : ([sep].intercalate (y :: z :: zs)).splitOn sep =
                y :: ([sep].intercalate (z :: zs)).splitOn sep := by
              have hcons : [sep].intercalate (y :: z :: zs) =
                  y ++ sep :: [sep].intercalate (z :: zs) := by
                simp [List.intercalate]
              rw [hcons, List.splitOn_append_cons_self, List.splitOn_eq_singleton hy,
                List.singleton_append]
            rw [hsplit] at hdiff ⊢
            exact List.Lex.cons (ih (by simp) fun h ↦ hdiff (by rw [← h]))

/-- Among the lists of segments that join to `s`, the one `split` returns comes first. -/
theorem split_lt_of_join_eq {sep : Char} {s : String} {segs : List String} (hne : segs ≠ [])
    (hjoin : join sep segs = s) (hdiff : segs ≠ split sep s) : split sep s < segs := by
  subst hjoin
  have hchars : ([sep].intercalate (segs.map String.toList)).splitOn sep <
      segs.map String.toList := by
    apply splitOn_intercalate_le (by simpa using hne)
    intro h
    rw [← toList_join, ← map_toList_split] at h
    have hinj : Function.Injective (List.map String.toList) :=
      List.map_injective_iff.mpr fun _ _ heq ↦ String.toList_inj.mp heq
    exact hdiff (hinj h)
  rw [← toList_join, ← map_toList_split] at hchars
  exact lt_of_map_toList_lt hchars

end Reasoning.Segments
