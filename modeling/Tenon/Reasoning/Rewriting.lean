import Mathlib.Data.Nat.Find
import Mathlib.Tactic.Common

/-!
# Rewriting — replacing the leftmost match in a text

A pattern is asked at every point of a text, with what stands before the point and what comes after.
The leftmost point where it matches is where the rest of the text is replaced.
-/

namespace Reasoning.Rewriting

variable {α β : Type}

/-- What a match at a point captures, if there is one. -/
abbrev Pattern (α β : Type) := List α → List α → Option β

/-- The pattern matches between `before` and `after`. -/
structure MatchAt (pattern : Pattern α β) (text before after : List α) (captured : β) : Prop where
  text_eq : text = before ++ after
  found : pattern before after = some captured

structure FirstMatch (pattern : Pattern α β) (text before after : List α) (captured : β) : Prop
    extends MatchAt pattern text before after captured where
  least : ∀ before' after' captured', MatchAt pattern text before' after' captured' →
    before.length ≤ before'.length

def Unmatched (pattern : Pattern α β) (text : List α) : Prop :=
  ∀ before after captured, ¬ MatchAt pattern text before after captured

section Rewrite

variable (pattern : Pattern α β) (replace : β → List α)

/-- Replaces all that follows the leftmost match in `text`, which comes after `seen`. -/
def rewriteAfter (seen : List α) : List α → List α
  | [] => ((pattern seen []).map replace).getD []
  | a :: rest =>
      match pattern seen (a :: rest) with
      | some captured => replace captured
      | none => a :: rewriteAfter (seen ++ [a]) rest

def rewriteFirst (text : List α) : List α := rewriteAfter pattern replace [] text

variable {pattern}

theorem rewriteAfter_of_found {seen text : List α} {captured : β}
    (h : pattern seen text = some captured) :
    rewriteAfter pattern replace seen text = replace captured := by
  cases text with
  | nil => rw [rewriteAfter, h]; rfl
  | cons a rest => rw [rewriteAfter, h]

theorem rewriteAfter_of_unmatched {seen text : List α}
    (h : ∀ before after, text = before ++ after → pattern (seen ++ before) after = none) :
    rewriteAfter pattern replace seen text = text := by
  induction text generalizing seen with
  | nil =>
      have hnone := h [] [] rfl
      rw [List.append_nil] at hnone
      rw [rewriteAfter, hnone]
      rfl
  | cons a rest ih =>
      have hnone := h [] (a :: rest) rfl
      rw [List.append_nil] at hnone
      have hrest : rewriteAfter pattern replace (seen ++ [a]) rest = rest := by
        apply ih
        intro before after htext
        have hnone := h (a :: before) after (by rw [htext]; rfl)
        rwa [List.append_cons] at hnone
      rw [rewriteAfter, hnone, hrest]

theorem rewriteAfter_of_first {seen before after : List α} {captured : β}
    (hfound : pattern (seen ++ before) after = some captured)
    (hfree : ∀ before' after', before'.length < before.length → before ++ after = before' ++ after' →
      pattern (seen ++ before') after' = none) :
    rewriteAfter pattern replace seen (before ++ after) = before ++ replace captured := by
  induction before generalizing seen with
  | nil =>
      rw [List.append_nil] at hfound
      exact rewriteAfter_of_found replace hfound
  | cons a rest ih =>
      have hnone := hfree [] (a :: rest ++ after) (Nat.succ_pos _) rfl
      rw [List.append_nil] at hnone
      have hrest : rewriteAfter pattern replace (seen ++ [a]) (rest ++ after) =
          rest ++ replace captured := by
        apply ih
        · rwa [← List.append_cons]
        · intro before' after' hlength htext
          have hnone := hfree (a :: before') after' (Nat.succ_lt_succ hlength)
            (by rw [List.cons_append, htext]; rfl)
          rwa [List.append_cons] at hnone
      rw [List.cons_append] at hnone
      rw [List.cons_append, rewriteAfter, hnone, hrest]
      rfl

variable {text before after : List α} {captured : β}

theorem rewriteFirst_of_unmatched (h : Unmatched pattern text) :
    rewriteFirst pattern replace text = text := by
  apply rewriteAfter_of_unmatched
  intro before after htext
  cases hfound : pattern ([] ++ before) after with
  | none => rfl
  | some captured => exact absurd ⟨htext, hfound⟩ (h before after captured)

theorem FirstMatch.rewriteFirst (h : FirstMatch pattern text before after captured) :
    rewriteFirst pattern replace text = before ++ replace captured := by
  rw [h.text_eq]
  apply rewriteAfter_of_first replace h.found
  intro before' after' hlength htext
  cases hfound : pattern ([] ++ before') after' with
  | none => rfl
  | some captured' =>
      have hle := h.least before' after' captured' ⟨h.text_eq.trans htext, hfound⟩
      exact absurd hlength (Nat.not_lt.mpr hle)

end Rewrite

section First

variable {pattern : Pattern α β} {text before after : List α} {captured : β}

/-- A text with a match has a leftmost one. -/
theorem MatchAt.exists_first (h : MatchAt pattern text before after captured) :
    ∃ before' after' captured', FirstMatch pattern text before' after' captured' ∧
      before'.length ≤ before.length := by
  classical
  have hmatch : ∃ n before' after' captured', MatchAt pattern text before' after' captured' ∧
      before'.length = n := ⟨before.length, before, after, captured, h, rfl⟩
  obtain ⟨before', after', captured', hmatch', hlength⟩ := Nat.find_spec hmatch
  have hleast : ∀ b a c, MatchAt pattern text b a c → before'.length ≤ b.length := by
    intro b a c hb
    rw [hlength]
    exact Nat.find_min' hmatch ⟨b, a, c, hb, rfl⟩
  exact ⟨before', after', captured', ⟨hmatch', hleast⟩, hleast before after captured h⟩

theorem unmatched_or_first (pattern : Pattern α β) (text : List α) :
    Unmatched pattern text ∨
      ∃ before after captured, FirstMatch pattern text before after captured := by
  by_cases h : Unmatched pattern text
  · exact Or.inl h
  · unfold Unmatched at h
    push Not at h
    rcases h with ⟨before, after, captured, hmatch⟩
    obtain ⟨before', after', captured', hfirst, -⟩ := hmatch.exists_first
    exact Or.inr ⟨before', after', captured', hfirst⟩

/-- Two matches equally far from the start are one. -/
theorem MatchAt.eq_of_length_eq {before' after' : List α} {captured' : β}
    (h : MatchAt pattern text before after captured)
    (h' : MatchAt pattern text before' after' captured') (hlength : before.length = before'.length) :
    before = before' ∧ after = after' ∧ captured = captured' := by
  obtain ⟨rfl, rfl⟩ := List.append_inj (h.text_eq.symm.trans h'.text_eq) hlength
  exact ⟨rfl, rfl, Option.some.inj (h.found.symm.trans h'.found)⟩

-- a point farther along a text is not at most as far
theorem not_length_append_le {p : List α} (hp : p ≠ []) (pre : List α) :
    ¬ (pre ++ p).length ≤ pre.length := by
  have hpos := List.length_pos_iff.mpr hp
  rw [List.length_append]
  omega

/-- A match in a text of two parts starts in the first, between them, or in the second. -/
theorem MatchAt.position {pre post : List α}
    (h : MatchAt pattern (pre ++ post) before after captured) :
    (∃ p, p ≠ [] ∧ pre = before ++ p ∧ after = p ++ post) ∨ (before = pre ∧ after = post) ∨
      ∃ b, b ≠ [] ∧ before = pre ++ b ∧ post = b ++ after := by
  rcases List.append_eq_append_iff.mp h.text_eq with ⟨b, hbefore, hafter⟩ | ⟨p, hpre, hafter⟩
  · by_cases hb : b = []
    · subst hb
      exact Or.inr (Or.inl ⟨by simpa using hbefore, by simpa using hafter.symm⟩)
    · exact Or.inr (Or.inr ⟨b, hb, hbefore, hafter⟩)
  · by_cases hp : p = []
    · subst hp
      exact Or.inr (Or.inl ⟨by simpa using hpre.symm, by simpa using hafter⟩)
    · exact Or.inl ⟨p, hp, hpre, hafter⟩

end First

end Reasoning.Rewriting
