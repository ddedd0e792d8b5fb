import Tenon.Core.RuleTexts

/-!
# NormalizedSql — what normalising does to the text of a rule

Only the filter of the FROM clause gets its quotes exactly when nothing else matches the first
replacement and the second one, which looks at the leftmost `from` alone, finds nothing to quote before
the clause and does not run the filter together with what comes after it.
-/

open Reasoning.Rewriting

namespace Tenon.Core

/-! ## When only the filter is quoted -/

section Normalized

variable (isWord : Char → Bool)

/-- What the rule text is after normalising it has the filter bare or in double quotes and all else as
it was, and stays so. -/
def OnlyFilterQuoted (r : RuleText) : Prop :=
  (normalizeRuleSql isWord r.text = String.ofList (r.withToken r.filter) ∨
    normalizeRuleSql isWord r.text = String.ofList (r.withToken (r.quotedBy '"'))) ∧
  normalizeRuleSql isWord (normalizeRuleSql isWord r.text) = normalizeRuleSql isWord r.text

/-- The first replacement matches at no point but the clause, and there only a filter in quotes; the
leftmost match of the second one is left alone, or captures the filter of the clause and no more. -/
structure Undisturbed (r : RuleText) : Prop where
  quoted : ∀ before after captured,
    MatchAt (quotedPattern isWord) (r.withToken r.token) before after captured →
      r.quoted = true ∧ before = r.beforeFrom
  bare : ∀ before after captured,
    FirstMatch (barePattern isWord) (r.withToken r.token) before after captured →
      LeftAlone captured.token ∨ before = r.beforeFrom ∧ captured.token = r.filter

-- the two replacements on lists of characters
def normalized (text : List Char) : List Char :=
  rewriteFirst (barePattern isWord) replaceBare
    (rewriteFirst (quotedPattern isWord) replaceQuoted text)

theorem normalizeRuleSql_ofList (text : List Char) :
    normalizeRuleSql isWord (String.ofList text) = String.ofList (normalized isWord text) := by
  rw [normalizeRuleSql_eq, String.toList_ofList]
  rfl

theorem onlyFilterQuoted_iff (r : RuleText) :
    OnlyFilterQuoted isWord r ↔
      (normalized isWord (r.withToken r.token) = r.withToken r.filter ∨
        normalized isWord (r.withToken r.token) = r.withToken (r.quotedBy '"')) ∧
      normalized isWord (normalized isWord (r.withToken r.token)) =
        normalized isWord (r.withToken r.token) := by
  unfold OnlyFilterQuoted RuleText.text
  simp only [normalizeRuleSql_ofList, String.ofList_inj]

variable {isWord}

theorem normalized_quotedBy {r : RuleText}
    (hnone : Unmatched (quotedPattern isWord) (r.withToken (r.quotedBy '"')))
    (hbare : rewriteFirst (barePattern isWord) replaceBare (r.withToken (r.quotedBy '"')) =
      r.withToken (r.quotedBy '"')) :
    normalized isWord (r.withToken (r.quotedBy '"')) = r.withToken (r.quotedBy '"') := by
  rw [normalized, rewriteFirst_of_unmatched replaceQuoted hnone, hbare]

theorem ne_of_before {r : RuleText} {before p : List Char} (hp : p ≠ [])
    (hpre : r.beforeFrom = before ++ p) : before ≠ r.beforeFrom := by
  intro heq
  rw [heq, List.self_eq_append_right] at hpre
  exact hp hpre

/-- A text that keeps its single quotes holds nothing for the first replacement. -/
theorem unmatched_of_count {text : List Char}
    (h : (normalized isWord text).count '\'' = text.count '\'') :
    Unmatched (quotedPattern isWord) text := by
  rcases unmatched_or_first (quotedPattern isWord) text with hnone | ⟨before, after, captured, hfirst⟩
  · exact hnone
  · exfalso
    obtain ⟨-, hcount⟩ := count_rewriteQuoted hfirst
    rw [normalized, count_single_rewriteBare] at h
    omega

theorem normalized_of_unmatched {text : List Char} (h : Unmatched (quotedPattern isWord) text) :
    normalized isWord text = rewriteFirst (barePattern isWord) replaceBare text := by
  rw [normalized, rewriteFirst_of_unmatched replaceQuoted h]

theorem rewriteQuoted_clause {r : RuleText}
    (h : FirstMatch (quotedPattern isWord) (r.withToken (r.quotedBy '\'')) r.beforeFrom
      ("from ".toList ++ (r.quotedBy '\'' ++ r.rest)) (r.filter, r.rest)) :
    rewriteFirst (quotedPattern isWord) replaceQuoted (r.withToken (r.quotedBy '\'')) =
      r.withToken (r.quotedBy '"') := by
  rw [h.rewriteFirst, replaceQuoted, r.withToken_quotedBy]

/-- The filter and no more is quoted where it is all that the leftmost match captures. -/
theorem rewriteBare_clause (hspace : isWord ' ' = false) {r : RuleText} {after : List Char}
    {captured : BareCapture}
    (h : FirstMatch (barePattern isWord) (r.withToken r.filter) r.beforeFrom after captured)
    (halone : ¬ LeftAlone captured.token) (hfilter : captured.token = r.filter) :
    rewriteFirst (barePattern isWord) replaceBare (r.withToken r.filter) =
      r.withToken (r.quotedBy '"') := by
  obtain ⟨p, hp, hpre, -⟩ | ⟨-, hcaptured⟩ :=
    RuleText.firstMatch_bare hspace r r.startsToken_filter h
  · exact absurd rfl (ne_of_before hp hpre)
  · have hrest : captured.after = r.rest := by
      have htake : (r.filter ++ r.rest).takeWhile isToken = r.filter := by
        rw [hcaptured] at hfilter
        exact hfilter
      have hsplit := List.takeWhile_append_dropWhile (p := isToken) (l := r.filter ++ r.rest)
      rw [htake] at hsplit
      rw [hcaptured]
      exact List.append_cancel_left hsplit
    rw [h.rewriteFirst, replaceBare, if_neg halone, hfilter, hrest]
    exact r.withToken_quotedBy.symm

/-- With quotes around the filter neither replacement finds more than without. -/
theorem normalized_quotedBy_of_bare (hspace : isWord ' ' = false) {r : RuleText} {after : List Char}
    {captured : BareCapture} (hnone : Unmatched (quotedPattern isWord) (r.withToken r.filter))
    (h : FirstMatch (barePattern isWord) (r.withToken r.filter) r.beforeFrom after captured) :
    normalized isWord (r.withToken (r.quotedBy '"')) = r.withToken (r.quotedBy '"') := by
  apply normalized_quotedBy
  · apply RuleText.unmatched_quotedBy hspace r (y := r.filter ++ r.rest)
      (List.mem_append_right r.filter)
    · intro before p hp hpre
      apply Option.eq_none_iff_forall_ne_some.mpr
      intro captured hfound
      exact hnone _ _ _ (r.matchAt_before hpre hfound)
    · intro b after hb hsplit
      apply Option.eq_none_iff_forall_ne_some.mpr
      intro captured hfound
      exact hnone _ _ _ (r.matchAt_rest r.filter hb hsplit hfound)
  · apply RuleText.rewriteBare_quotedBy hspace r
    intro before after captured p hp hpre hfirst
    -- a match before the clause would come first in the text as it was, too
    obtain ⟨_, _, hfirst', -⟩ :=
      RuleText.firstMatch_bare_before hspace r r.startsToken_filter hp hpre hfirst
    have hle := h.least _ _ _ hfirst'.toMatchAt
    rw [hpre] at hle
    exact absurd hle (not_length_append_le hp _)

/-- A bare filter. -/
theorem normalized_bare (hspace : isWord ' ' = false) {r : RuleText} (hquoted : r.quoted = false)
    (h : Undisturbed isWord r) :
    (normalized isWord (r.withToken r.filter) = r.withToken r.filter ∨
      normalized isWord (r.withToken r.filter) = r.withToken (r.quotedBy '"')) ∧
    normalized isWord (normalized isWord (r.withToken r.filter)) =
      normalized isWord (r.withToken r.filter) := by
  have htoken := r.token_bare hquoted
  obtain ⟨hmatches, hfirsts⟩ := h
  rw [htoken] at hmatches hfirsts
  have hnone : Unmatched (quotedPattern isWord) (r.withToken r.filter) := by
    intro before after captured hmatch
    obtain ⟨htrue, -⟩ := hmatches before after captured hmatch
    rw [hquoted] at htrue
    cases htrue
  obtain ⟨before, after, captured, hfirst, -⟩ :=
    (RuleText.barePattern_clause hspace r r.startsToken_filter).exists_first
  have hnormalized := normalized_of_unmatched hnone
  by_cases halone : LeftAlone captured.token
  · have hsame : normalized isWord (r.withToken r.filter) = r.withToken r.filter := by
      rw [hnormalized, rewriteBare_of_leftAlone hfirst halone]
    exact ⟨Or.inl hsame, by rw [hsame, hsame]⟩
  · obtain ⟨rfl, hfilter⟩ := (hfirsts before after captured hfirst).resolve_left halone
    have hchanged : normalized isWord (r.withToken r.filter) = r.withToken (r.quotedBy '"') := by
      rw [hnormalized, rewriteBare_clause hspace hfirst halone hfilter]
    have hstays := normalized_quotedBy_of_bare hspace hnone hfirst
    exact ⟨Or.inr hchanged, by rw [hchanged, hstays]⟩

/-- A filter in quotes. -/
theorem normalized_quoted (hspace : isWord ' ' = false) {r : RuleText} (hquoted : r.quoted = true)
    (h : Undisturbed isWord r) :
    normalized isWord (r.withToken (r.quotedBy '\'')) = r.withToken (r.quotedBy '"') ∧
      normalized isWord (r.withToken (r.quotedBy '"')) = r.withToken (r.quotedBy '"') := by
  have htoken := r.token_quoted hquoted
  obtain ⟨hmatches, hfirsts⟩ := h
  rw [htoken] at hmatches hfirsts
  have hstarts := r.startsToken_quotedBy (z := '\'') (by decide)
  have hfirst : FirstMatch (quotedPattern isWord) (r.withToken (r.quotedBy '\'')) r.beforeFrom
      ("from ".toList ++ (r.quotedBy '\'' ++ r.rest)) (r.filter, r.rest) := by
    refine ⟨RuleText.quotedPattern_clause hspace r, ?_⟩
    intro before after captured hmatch
    obtain ⟨-, rfl⟩ := hmatches before after captured hmatch
    exact Nat.le_refl _
  have hbare : rewriteFirst (barePattern isWord) replaceBare (r.withToken (r.quotedBy '"')) =
      r.withToken (r.quotedBy '"') := by
    apply RuleText.rewriteBare_quotedBy hspace r
    intro before after captured p hp hpre hfirst
    obtain ⟨_, _, hfirst', htokens⟩ :=
      RuleText.firstMatch_bare_before hspace r hstarts hp hpre hfirst
    rcases hfirsts _ _ _ hfirst' with halone | ⟨hclause, -⟩
    · rwa [htokens] at halone
    · exact absurd hclause (ne_of_before hp hpre)
  have hnone : Unmatched (quotedPattern isWord) (r.withToken (r.quotedBy '"')) := by
    apply RuleText.unmatched_quotedBy hspace r (y := r.quotedBy '\'' ++ r.rest)
      fun _ ↦ List.mem_cons_self
    · intro before p hp hpre
      apply Option.eq_none_iff_forall_ne_some.mpr
      intro captured hfound
      obtain ⟨-, hclause⟩ := hmatches _ _ _ (r.matchAt_before hpre hfound)
      exact absurd hclause (ne_of_before hp hpre)
    · intro b after hb hsplit
      apply Option.eq_none_iff_forall_ne_some.mpr
      intro captured hfound
      obtain ⟨-, hclause⟩ := hmatches _ _ _ (r.matchAt_rest (r.quotedBy '\'') hb hsplit hfound)
      rw [List.append_assoc, List.append_right_eq_self, List.append_eq_nil_iff] at hclause
      exact hb hclause.2
  refine ⟨?_, normalized_quotedBy hnone hbare⟩
  rw [normalized, rewriteQuoted_clause hfirst, hbare]

-- a result with more double quotes than the text has the filter in double quotes
theorem eq_quotedBy_of_count {r : RuleText} {result : List Char}
    (hresult : result = r.withToken r.filter ∨ result = r.withToken (r.quotedBy '"'))
    (hcount : (r.withToken r.filter).count '"' + 2 ≤ result.count '"') :
    result = r.withToken (r.quotedBy '"') := by
  rcases hresult with rfl | h
  · omega
  · exact h

-- what matches before the clause is not rewritten to what stood there
theorem ne_requoted {r : RuleText} {before p tail : List Char} (hp : p ≠ [])
    (hpre : r.beforeFrom = before ++ p)
    (h : before ++ ("from \"".toList ++ tail) = r.withToken (r.quotedBy '"')) :
    ∃ rest, matchFrom (p ++ "from ".toList) = some ("from ".toList, '"' :: rest) := by
  rw [r.withToken_of_before hpre] at h
  exact RuleText.matchFrom_requoted hp (List.append_cancel_left h).symm

theorem leftAlone_of_requoted {before p y : List Char} {captured : BareCapture}
    (hp : p ≠ [])
    (hfound : barePattern isWord before (p ++ ("from ".toList ++ y)) = some captured)
    (h : ∃ rest, matchFrom (p ++ "from ".toList) = some ("from ".toList, '"' :: rest)) :
    LeftAlone captured.token := by
  obtain ⟨rest, hrest⟩ := h
  obtain ⟨keyword, tail, hmatch, hcapture⟩ := matchFrom_of_fromPattern hfound
  rw [matchFrom_opening hp, hrest] at hmatch
  cases hmatch
  obtain ⟨-, rfl⟩ := captureBare_eq_some hcapture
  left
  dsimp only
  rw [List.cons_append, List.takeWhile_cons_of_pos (by decide)]
  rfl

theorem captured_filter {r : RuleText} (h : (r.filter ++ r.rest).takeWhile isToken ++
      '"' :: (r.filter ++ r.rest).dropWhile isToken = r.filter ++ '"' :: r.rest) :
    (r.filter ++ r.rest).takeWhile isToken = r.filter := by
  have hall : ∀ c ∈ r.filter, isToken c = true := fun c hc ↦ isToken_of_isFilterChar (r.hchars c hc)
  rw [List.takeWhile_append_of_pos hall, List.dropWhile_append_of_pos hall, List.append_assoc] at h
  have hrest := List.append_cancel_left h
  rw [List.takeWhile_append_of_pos hall]
  -- the rest does not start with a double quote
  cases htake : r.rest.takeWhile isToken with
  | nil => rw [List.append_nil]
  | cons c cs =>
      exfalso
      rw [htake, List.cons_append] at hrest
      have hc : c = '"' := (List.cons.inj hrest).1
      have hsplit := List.takeWhile_append_dropWhile (p := isToken) (l := r.rest)
      rw [htake, List.cons_append] at hsplit
      rcases r.hrest c (by rw [← hsplit]; rfl) with hspace | hsemicolon
      · rw [hc] at hspace
        exact absurd hspace (by decide)
      · rw [hc] at hsemicolon
        exact absurd hsemicolon (by decide)

/-- A bare filter, the other way round. -/
theorem undisturbed_bare (hspace : isWord ' ' = false) {r : RuleText} (hquoted : r.quoted = false)
    (hresult : normalized isWord (r.withToken r.filter) = r.withToken r.filter ∨
      normalized isWord (r.withToken r.filter) = r.withToken (r.quotedBy '"')) :
    Undisturbed isWord r := by
  have htoken := r.token_bare hquoted
  have hkept : (normalized isWord (r.withToken r.filter)).count '\'' =
      (r.withToken r.filter).count '\'' := by
    rcases hresult with h | h
    · rw [h]
    · rw [h, r.count_single_quotedBy]
  have hnone := unmatched_of_count hkept
  have hnormalized := normalized_of_unmatched hnone
  constructor
  · rw [htoken]
    intro before after captured hmatch
    exact absurd hmatch (hnone before after captured)
  · rw [htoken]
    intro before after captured hfirst
    by_cases halone : LeftAlone captured.token
    · exact Or.inl halone
    · right
      -- the filter has got the quotes, so what was replaced is the filter
      obtain ⟨hcount, -⟩ := count_rewriteBare hfirst halone
      rw [← hnormalized] at hcount
      have hquotes := eq_quotedBy_of_count hresult hcount.ge
      rw [hnormalized, hfirst.rewriteFirst, replaceBare, if_neg halone] at hquotes
      unfold quoteFilter at hquotes
      simp only [List.append_assoc] at hquotes
      rcases RuleText.firstMatch_bare hspace r r.startsToken_filter hfirst with
        ⟨p, hp, hpre, rfl⟩ | ⟨rfl, rfl⟩
      · exact absurd (leftAlone_of_requoted hp hfirst.found (ne_requoted hp hpre hquotes)) halone
      · refine ⟨rfl, captured_filter ?_⟩
        rw [r.withToken_quotedBy] at hquotes
        unfold quoteFilter at hquotes
        simp only [List.append_assoc] at hquotes
        exact List.append_cancel_left (List.append_cancel_left hquotes)

/-- If the filter gets its double quotes, the first replacement matched at the clause. -/
theorem firstMatch_quoted (hspace : isWord ' ' = false) {r : RuleText}
    (hresult : normalized isWord (r.withToken (r.quotedBy '\'')) = r.withToken r.filter ∨
      normalized isWord (r.withToken (r.quotedBy '\'')) = r.withToken (r.quotedBy '"')) :
    FirstMatch (quotedPattern isWord) (r.withToken (r.quotedBy '\'')) r.beforeFrom
      ("from ".toList ++ (r.quotedBy '\'' ++ r.rest)) (r.filter, r.rest) := by
  have hclause := RuleText.quotedPattern_clause hspace r
  obtain ⟨before, after, captured, hfirst, hle⟩ := hclause.exists_first
  rcases hfirst.position with ⟨p, hp, hpre, rfl⟩ | ⟨rfl, -⟩ | ⟨b, hb, rfl, -⟩
  · exfalso
    obtain ⟨hcount, -⟩ := count_rewriteQuoted hfirst
    rw [r.count_double_single] at hcount
    -- two double quotes are there, so the second replacement adds no more
    have hquotes : rewriteFirst (quotedPattern isWord) replaceQuoted (r.withToken (r.quotedBy '\'')) =
        r.withToken (r.quotedBy '"') := by
      rcases rewriteBare_or isWord (rewriteFirst (quotedPattern isWord) replaceQuoted
        (r.withToken (r.quotedBy '\''))) with hsame | ⟨hmore, -⟩
      · rw [normalized, hsame] at hresult
        exact eq_quotedBy_of_count hresult hcount.ge
      · have hcounts := r.count_double_quotedBy
        rw [normalized] at hresult
        rcases hresult with h | h <;> rw [h] at hmore <;> omega
    rw [hfirst.rewriteFirst, replaceQuoted] at hquotes
    unfold quoteFilter at hquotes
    simp only [List.append_assoc] at hquotes
    obtain ⟨rest, hrest⟩ := ne_requoted hp hpre hquotes
    obtain ⟨keyword, tail, hmatch, hcapture⟩ := matchFrom_of_fromPattern hfirst.found
    rw [matchFrom_opening hp, hrest] at hmatch
    cases hmatch
    rw [captureQuoted, List.cons_append, matchQuoted_of_ne (by decide)] at hcapture
    cases hcapture
  · obtain ⟨-, rfl, rfl⟩ := hfirst.eq_of_length_eq hclause rfl
    exact hfirst
  · exact absurd hle (not_length_append_le hb _)

/-- A filter in quotes, the other way round. -/
theorem undisturbed_quoted (hspace : isWord ' ' = false) {r : RuleText} (hquoted : r.quoted = true)
    (hresult : normalized isWord (r.withToken (r.quotedBy '\'')) = r.withToken r.filter ∨
      normalized isWord (r.withToken (r.quotedBy '\'')) = r.withToken (r.quotedBy '"'))
    (hfixed : normalized isWord (normalized isWord (r.withToken (r.quotedBy '\''))) =
      normalized isWord (r.withToken (r.quotedBy '\''))) :
    Undisturbed isWord r := by
  have htoken := r.token_quoted hquoted
  have hfirst := firstMatch_quoted hspace hresult
  have hcounts := r.count_double_quotedBy
  have hrewritten := rewriteQuoted_clause hfirst
  have hbare : rewriteFirst (barePattern isWord) replaceBare (r.withToken (r.quotedBy '"')) =
      r.withToken (r.quotedBy '"') := by
    rcases rewriteBare_or isWord (r.withToken (r.quotedBy '"')) with hsame | ⟨hmore, -⟩
    · exact hsame
    · rw [normalized, hrewritten] at hresult
      rcases hresult with h | h <;> rw [h] at hmore <;> omega
  have hnormalized : normalized isWord (r.withToken (r.quotedBy '\'')) =
      r.withToken (r.quotedBy '"') := by rw [normalized, hrewritten, hbare]
  rw [hnormalized] at hfixed
  have hnone := unmatched_of_count (congrArg (List.count '\'') hfixed)
  constructor
  · rw [htoken]
    intro before after captured hmatch
    refine ⟨hquoted, ?_⟩
    rcases hmatch.position with ⟨p, hp, hpre, rfl⟩ | ⟨hclause, -⟩ | ⟨b, hb, rfl, hsplit⟩
    · have hle := hfirst.least _ _ _ hmatch
      rw [hpre] at hle
      exact absurd hle (not_length_append_le hp _)
    · exact hclause
    · exfalso
      obtain ⟨keyword, tail, hfrom, -⟩ := matchFrom_of_fromPattern hmatch.found
      obtain ⟨b', hb', rfl, hsplit'⟩ := r.match_in_rest (Or.inl rfl) hb hsplit (by rw [hfrom]; simp)
      have hfound := hmatch.found
      rw [← List.append_assoc, quotedPattern, fromPattern_append hb'] at hfound
      exact hnone _ _ _ (r.matchAt_rest (r.quotedBy '"') hb' hsplit' hfound)
  · rw [htoken]
    intro before after captured hfirst
    left
    have hsingle := r.startsToken_quotedBy (z := '\'') (by decide)
    have hdouble := r.startsToken_quotedBy (z := '"') (by decide)
    rcases RuleText.firstMatch_bare hspace r hsingle hfirst with
      ⟨p, hp, hpre, -⟩ | ⟨-, rfl⟩
    · by_contra halone
      obtain ⟨_, captured', hfirst', htokens⟩ :=
        RuleText.firstMatch_bare_before hspace r hdouble hp hpre hfirst
      rw [← htokens] at halone
      obtain ⟨hcount, -⟩ := count_rewriteBare hfirst' halone
      rw [hbare] at hcount
      omega
    · exact r.leftAlone_quotedBy (Or.inl rfl)

/-- Normalising quotes nothing but the filter, once and for all, exactly when the text is undisturbed. -/
theorem onlyFilterQuoted_iff_undisturbed (hspace : isWord ' ' = false) (r : RuleText) :
    OnlyFilterQuoted isWord r ↔ Undisturbed isWord r := by
  rw [onlyFilterQuoted_iff]
  cases hquoted : r.quoted with
  | false =>
      have htoken := r.token_bare hquoted
      rw [htoken]
      constructor
      · rintro ⟨hresult, -⟩
        exact undisturbed_bare hspace hquoted hresult
      · exact normalized_bare hspace hquoted
  | true =>
      have htoken := r.token_quoted hquoted
      rw [htoken]
      constructor
      · rintro ⟨hresult, hfixed⟩
        exact undisturbed_quoted hspace hquoted hresult hfixed
      · intro h
        obtain ⟨hresult, hfixed⟩ := normalized_quoted hspace hquoted h
        exact ⟨Or.inr hresult, by rw [hresult, hfixed]⟩

end Normalized

-- `select * from 'a/b' where c = 1`
def quotedFilterRule : RuleText where
  items := ['*']
  filter := ['a', '/', 'b']
  quoted := true
  rest := ' ' :: "where c = 1".toList
  hfilter := List.cons_ne_nil _ _
  hchars := List.all_eq_true.mp rfl
  hrest := by
    intro c hc
    cases hc
    exact Or.inl rfl

theorem undisturbed_quotedFilterRule : Undisturbed Char.isAlphanum quotedFilterRule := by
  apply (onlyFilterQuoted_iff_undisturbed (by decide) quotedFilterRule).mp
  unfold OnlyFilterQuoted
  decide +kernel

-- `select * from a/b;`
def semicolonRule : RuleText where
  items := ['*']
  filter := ['a', '/', 'b']
  quoted := false
  rest := [';']
  hfilter := List.cons_ne_nil _ _
  hchars := List.all_eq_true.mp rfl
  hrest := by
    intro c hc
    cases hc
    exact Or.inr rfl

/-- The quotes close behind the semicolon, which becomes a part of the filter. -/
theorem not_onlyFilterQuoted_semicolonRule :
    (semicolonRule.items ++ semicolonRule.rest).count '\'' = 0 ∧
      normalizeRuleSql Char.isAlphanum semicolonRule.text = "select * from \"a/b;\"" ∧
      ¬ OnlyFilterQuoted Char.isAlphanum semicolonRule := by
  unfold OnlyFilterQuoted
  decide +kernel

end Tenon.Core
