import Tenon.Core.FromPatterns

/-!
# RuleTexts — where the replacements match in the text of a rule

A rule text names its filter behind `from`, bare or in quotes.  Past the clause's keyword a match lies
in the rest of the text, and before the clause it does not depend on how the filter is written.  Each
replacement changes the number of quotes in its own way.
-/

open Reasoning.Rewriting

namespace Tenon.Core

/-! ## The texts of rules -/

def isFilterChar (c : Char) : Bool :=
  !(isWhitespace c || c == '\'' || c == '"' || c == ',' || c == '(' || c == ')' || c == ';')

/-- `select <items> from F <rest>`, with the filter bare or in quotes.  The quotes of the other two
parts need not be balanced. -/
structure RuleText where
  items : List Char
  filter : List Char
  quoted : Bool
  rest : List Char
  hfilter : filter ≠ []
  hchars : ∀ c ∈ filter, isFilterChar c = true
  hrest : ∀ c, rest.head? = some c → isWhitespace c = true ∨ c = ';'

namespace RuleText

variable (r : RuleText)

def beforeFrom : List Char := "select ".toList ++ r.items ++ [' ']

-- the text with something else for the filter
def withToken (token : List Char) : List Char :=
  r.beforeFrom ++ ("from ".toList ++ (token ++ r.rest))

def quotedBy (quote : Char) : List Char := quote :: (r.filter ++ [quote])

def token : List Char := if r.quoted then r.quotedBy '\'' else r.filter

def text : String := String.ofList (r.withToken r.token)

end RuleText

theorem isWhitespace_of_isFilterChar {c : Char} (h : isFilterChar c = true) :
    isWhitespace c = false := by
  simp only [isFilterChar, Bool.not_eq_true', Bool.or_eq_false_iff] at h
  exact h.1.1.1.1.1.1

theorem isToken_of_isFilterChar {c : Char} (h : isFilterChar c = true) : isToken c = true := by
  simp only [isFilterChar, Bool.not_eq_true', Bool.or_eq_false_iff] at h
  simp [isToken, h]

theorem ne_quotes_of_isFilterChar {c : Char} (h : isFilterChar c = true) : c ≠ '\'' ∧ c ≠ '"' := by
  simp only [isFilterChar, Bool.not_eq_true', Bool.or_eq_false_iff, beq_eq_false_iff_ne] at h
  exact ⟨h.1.1.1.1.1.2, h.1.1.1.1.2⟩

/-! ## Where a match can start -/

theorem RuleText.matchFrom_rest (r : RuleText) : matchFrom r.rest = none := by
  match hrest : r.rest with
  | [] => rfl
  | c :: cs =>
      apply matchFrom_of_head
      intro hlower
      have hletter := isLetter_of_toLower hlower (by decide)
      rcases r.hrest c (by rw [hrest]; rfl) with hspace | rfl
      · exact Bool.false_ne_true ((not_isWhitespace_of_letter hletter).symm.trans hspace)
      · exact absurd hlower (by decide)

-- the quotes of a filter are neither letters nor white space
theorem quote_facts {z : Char} (hz : z = '\'' ∨ z = '"') : ¬ IsLetter z ∧ isWhitespace z = false := by
  unfold IsLetter
  rcases hz with rfl | rfl <;> decide

/-- In a filter with its quotes no keyword starts. -/
theorem RuleText.matchFrom_quoted (r : RuleText) {z : Char} (hz : z = '\'' ∨ z = '"')
    {b tail : List Char} (htail : tail ≠ []) (hsplit : r.quotedBy z = b ++ tail)
    (rest : List Char) : matchFrom (tail ++ rest) = none := by
  obtain ⟨word, last, rfl⟩ := List.eq_nil_or_concat' tail |>.resolve_left htail
  obtain ⟨hnotLetter, hspace⟩ := quote_facts hz
  rw [RuleText.quotedBy, ← List.cons_append, ← List.append_assoc] at hsplit
  obtain ⟨hword, hlast⟩ := List.append_inj' hsplit rfl
  cases hlast
  have hfree : ∀ c ∈ word, isWhitespace c = false := by
    intro c hc
    have hmem : c ∈ z :: r.filter := by
      rw [hword]
      exact List.mem_append_right _ hc
    rcases List.mem_cons.mp hmem with rfl | hmem
    · exact hspace
    · exact isWhitespace_of_isFilterChar (r.hchars c hmem)
  rw [List.append_assoc]
  exact matchFrom_of_closed rest hfree hnotLetter hspace

/-- Behind the start of a FROM clause whose filter stands in quotes nothing matches before the rest. -/
theorem RuleText.match_in_rest (r : RuleText) {z : Char} (hz : z = '\'' ∨ z = '"') {b after : List Char}
    (hb : b ≠ []) (hsplit : "from ".toList ++ (r.quotedBy z ++ r.rest) = b ++ after)
    (hmatch : matchFrom after ≠ none) :
    ∃ b', b' ≠ [] ∧ b = "from ".toList ++ r.quotedBy z ++ b' ∧ r.rest = b' ++ after := by
  rw [← List.append_assoc] at hsplit
  rcases List.append_eq_append_iff.mp hsplit with ⟨b', hb', hrest⟩ | ⟨tail, hclause, hafter⟩
  · refine ⟨b', ?_, hb', hrest⟩
    rintro rfl
    rw [List.nil_append] at hrest
    exact hmatch (hrest ▸ r.matchFrom_rest)
  · by_cases htail : tail = []
    · subst htail
      exact absurd (hafter ▸ r.matchFrom_rest) hmatch
    · exfalso
      apply hmatch
      have hfrom : "from ".toList = ['f', 'r', 'o', 'm', ' '] := rfl
      rw [hfrom] at hclause
      rw [hafter]
      -- the clause is cut in its keyword or in the filter
      match b with
      | [_] | [_, _] | [_, _, _] | [_, _, _, _] =>
          simp only [List.cons_append, List.nil_append, List.cons.injEq] at hclause
          simp only [← hclause, List.cons_append]
          exact matchFrom_of_head (by decide) _
      | _ :: _ :: _ :: _ :: _ :: b' =>
          simp only [List.cons_append, List.nil_append, List.cons.injEq] at hclause
          exact r.matchFrom_quoted hz htail hclause.2.2.2.2.2 r.rest

/-! ## What a replacement does to the quotes -/

section Counts

variable {isWord : Char → Bool} {text before after : List Char}

theorem count_keyword {keyword : List Char} (h : IsKeyword keyword) {z : Char}
    (hz : z = '\'' ∨ z = '"') : keyword.count z = 0 := by
  obtain ⟨hnotLetter, hspace⟩ := quote_facts hz
  exact List.count_eq_zero.mpr (h.not_mem hnotLetter hspace)

theorem quoteFilter_eq (filter : List Char) :
    quoteFilter filter = ['f', 'r', 'o', 'm', ' ', '"'] ++ filter ++ ['"'] := rfl

/-- The first replacement trades two single quotes for two double ones. -/
theorem count_rewriteQuoted {captured : List Char × List Char}
    (h : FirstMatch (quotedPattern isWord) text before after captured) :
    (rewriteFirst (quotedPattern isWord) replaceQuoted text).count '"' = text.count '"' + 2 ∧
      (rewriteFirst (quotedPattern isWord) replaceQuoted text).count '\'' + 2 = text.count '\'' := by
  obtain ⟨keyword, rest, hfrom, hcapture⟩ := matchFrom_of_fromPattern h.found
  obtain ⟨hkeyword, hafter⟩ := matchFrom_eq_some hfrom
  obtain ⟨hrest, -, -⟩ := matchQuoted_eq_some hcapture
  have hsingle := count_keyword hkeyword (Or.inl rfl)
  have hdouble := count_keyword hkeyword (Or.inr rfl)
  rw [h.rewriteFirst, h.text_eq, hafter, hrest, replaceQuoted, quoteFilter_eq]
  simp only [List.count_append, List.count_cons, List.count_nil, hsingle, hdouble]
  constructor <;> simp <;> omega

/-- The text behind the point where the second replacement matches. -/
theorem after_of_bare {captured : BareCapture}
    (h : MatchAt (barePattern isWord) text before after captured) :
    IsKeyword captured.keyword ∧ after = captured.keyword ++ captured.token ++ captured.after := by
  obtain ⟨keyword, rest, hfrom, hcapture⟩ := matchFrom_of_fromPattern h.found
  obtain ⟨hkeyword, hafter⟩ := matchFrom_eq_some hfrom
  obtain ⟨-, rfl⟩ := captureBare_eq_some hcapture
  refine ⟨hkeyword, ?_⟩
  rw [hafter, List.append_assoc, List.takeWhile_append_dropWhile]

theorem rewriteBare_of_leftAlone {captured : BareCapture}
    (h : FirstMatch (barePattern isWord) text before after captured)
    (halone : LeftAlone captured.token) :
    rewriteFirst (barePattern isWord) replaceBare text = text := by
  obtain ⟨-, hafter⟩ := after_of_bare h.toMatchAt
  rw [h.rewriteFirst, replaceBare, if_pos halone, ← hafter, ← h.text_eq]

/-- The second replacement, where it changes the text, adds two double quotes. -/
theorem count_rewriteBare {captured : BareCapture}
    (h : FirstMatch (barePattern isWord) text before after captured)
    (halone : ¬ LeftAlone captured.token) :
    (rewriteFirst (barePattern isWord) replaceBare text).count '"' = text.count '"' + 2 ∧
      (rewriteFirst (barePattern isWord) replaceBare text).count '\'' = text.count '\'' := by
  obtain ⟨hkeyword, hafter⟩ := after_of_bare h.toMatchAt
  have hsingle := count_keyword hkeyword (Or.inl rfl)
  have hdouble := count_keyword hkeyword (Or.inr rfl)
  rw [h.rewriteFirst, h.text_eq, hafter, replaceBare, if_neg halone, quoteFilter_eq]
  simp only [List.count_append, List.count_cons, List.count_nil, hsingle, hdouble]
  constructor
  · simp
    omega
  · simp

variable (isWord) in
/-- The second replacement never touches a single quote, and never takes a double one away. -/
theorem rewriteBare_or (text : List Char) :
    rewriteFirst (barePattern isWord) replaceBare text = text ∨
      (rewriteFirst (barePattern isWord) replaceBare text).count '"' = text.count '"' + 2 ∧
        (rewriteFirst (barePattern isWord) replaceBare text).count '\'' = text.count '\'' := by
  rcases unmatched_or_first (barePattern isWord) text with hnone | ⟨before, after, captured, hfirst⟩
  · exact Or.inl (rewriteFirst_of_unmatched replaceBare hnone)
  · by_cases halone : LeftAlone captured.token
    · exact Or.inl (rewriteBare_of_leftAlone hfirst halone)
    · exact Or.inr (count_rewriteBare hfirst halone)

variable (isWord) in
theorem count_single_rewriteBare (text : List Char) :
    (rewriteFirst (barePattern isWord) replaceBare text).count '\'' = text.count '\'' := by
  rcases rewriteBare_or isWord text with heq | ⟨-, hsingle⟩
  · rw [heq]
  · exact hsingle

end Counts

/-! ## The filter of the clause -/

namespace RuleText

variable {isWord : Char → Bool} (hspace : isWord ' ' = false) (r : RuleText)

include hspace in
/-- At the clause a pattern sees what follows the keyword. -/
theorem fromPattern_clause {β : Type} (capture : List Char → List Char → Option β) {z : Char}
    (hz : isWhitespace z = false) (tail : List Char) :
    fromPattern isWord capture r.beforeFrom ("from ".toList ++ z :: tail) =
      capture "from ".toList (z :: tail) := by
  have hword : followsWord isWord r.beforeFrom = false := by
    unfold beforeFrom
    rw [followsWord_concat]
    exact hspace
  unfold fromPattern
  rw [hword, matchFrom_from hz, if_neg Bool.false_ne_true, Option.bind_some]

theorem quotedBy_append (z : Char) (tail : List Char) :
    r.quotedBy z ++ tail = z :: (r.filter ++ z :: tail) := by
  simp [quotedBy]

theorem token_bare (h : r.quoted = false) : r.token = r.filter := by
  rw [token, h]
  rfl

theorem token_quoted (h : r.quoted = true) : r.token = r.quotedBy '\'' := by
  rw [token, h]
  rfl

-- the text cut before the FROM clause
theorem withToken_of_before {before p : List Char} (h : r.beforeFrom = before ++ p)
    (token : List Char) :
    r.withToken token = before ++ (p ++ ("from ".toList ++ (token ++ r.rest))) := by
  unfold withToken
  rw [h, List.append_assoc]

theorem not_mem_filter : '\'' ∉ r.filter ∧ '"' ∉ r.filter := by
  constructor
  · intro hmem
    exact (ne_quotes_of_isFilterChar (r.hchars _ hmem)).1 rfl
  · intro hmem
    exact (ne_quotes_of_isFilterChar (r.hchars _ hmem)).2 rfl

theorem count_withToken (z : Char) (token : List Char) :
    (r.withToken token).count z =
      r.beforeFrom.count z + (token.count z + r.rest.count z) + "from ".toList.count z := by
  simp only [withToken, List.count_append]
  omega

include hspace in
/-- The first replacement matches at a filter in single quotes. -/
theorem quotedPattern_clause :
    MatchAt (quotedPattern isWord) (r.withToken (r.quotedBy '\'')) r.beforeFrom
      ("from ".toList ++ (r.quotedBy '\'' ++ r.rest)) (r.filter, r.rest) where
  text_eq := rfl
  found := by
    obtain ⟨hsingle, -⟩ := r.not_mem_filter
    rw [quotedBy_append, quotedPattern, fromPattern_clause hspace r _ (by decide)]
    exact matchQuoted_literal hsingle r.hfilter r.rest

-- a text whose first character can start a token
def StartsToken (token : List Char) : Prop := ∃ z tail, token = z :: tail ∧ isToken z = true

theorem startsToken_quotedBy {z : Char} (hz : isToken z = true) : StartsToken (r.quotedBy z) :=
  ⟨z, _, rfl, hz⟩

theorem startsToken_filter : StartsToken r.filter := by
  obtain ⟨c, cs, hfilter⟩ := List.exists_cons_of_ne_nil r.hfilter
  have hc := r.hchars c (by rw [hfilter]; exact List.mem_cons_self)
  exact ⟨c, cs, hfilter, isToken_of_isFilterChar hc⟩

theorem leftAlone_quotedBy {z : Char} (hz : z = '\'' ∨ z = '"') :
    LeftAlone ((r.quotedBy z ++ r.rest).takeWhile isToken) := by
  rw [quotedBy_append]
  rcases hz with rfl | rfl
  · rw [List.takeWhile_cons_of_pos (by decide)]
    exact Or.inr (Or.inl rfl)
  · rw [List.takeWhile_cons_of_pos (by decide)]
    exact Or.inl rfl

include hspace in
/-- The second replacement matches at any filter. -/
theorem barePattern_clause {token : List Char} (htoken : StartsToken token) :
    MatchAt (barePattern isWord) (r.withToken token) r.beforeFrom
      ("from ".toList ++ (token ++ r.rest)) ⟨"from ".toList, (token ++ r.rest).takeWhile isToken,
        (token ++ r.rest).dropWhile isToken⟩ where
  text_eq := rfl
  found := by
    obtain ⟨z, tail, rfl, hz⟩ := htoken
    have hwhite : isWhitespace z = false := by
      simp only [isToken, Bool.not_eq_true', Bool.or_eq_false_iff] at hz
      exact hz.1.1.1
    have hne : (z :: tail ++ r.rest).takeWhile isToken ≠ [] := by
      rw [List.cons_append, List.takeWhile_cons_of_pos hz]
      exact List.cons_ne_nil _ _
    rw [List.cons_append] at hne ⊢
    rw [barePattern, fromPattern_clause hspace r _ hwhite, captureBare, if_neg hne]

include hspace in
/-- The leftmost match of the second replacement starts before the clause or is that at the filter. -/
theorem firstMatch_bare {token before after : List Char} {captured : BareCapture}
    (htoken : StartsToken token)
    (h : FirstMatch (barePattern isWord) (r.withToken token) before after captured) :
    (∃ p, p ≠ [] ∧ r.beforeFrom = before ++ p ∧ after = p ++ ("from ".toList ++ (token ++ r.rest))) ∨
      before = r.beforeFrom ∧ captured = ⟨"from ".toList, (token ++ r.rest).takeWhile isToken,
        (token ++ r.rest).dropWhile isToken⟩ := by
  have hclause := barePattern_clause hspace r htoken
  rcases h.position with hbefore | ⟨rfl, -⟩ | ⟨b, hb, rfl, -⟩
  · exact Or.inl hbefore
  · obtain ⟨-, -, hcaptured⟩ := h.eq_of_length_eq hclause rfl
    exact Or.inr ⟨rfl, hcaptured⟩
  · have hle := h.least _ _ _ hclause
    exact absurd hle (not_length_append_le hb _)

theorem barePattern_before {before p y : List Char} (hp : p ≠ []) {captured : BareCapture}
    (h : barePattern isWord before (p ++ ("from ".toList ++ y)) = some captured) (y' : List Char) :
    ∃ captured', barePattern isWord before (p ++ ("from ".toList ++ y')) = some captured' ∧
      captured'.token = captured.token := by
  rw [barePattern_opening isWord hp] at h ⊢
  obtain ⟨opening, hopening, rfl⟩ := Option.map_eq_some_iff.mp h
  rw [hopening]
  exact ⟨_, rfl, rfl⟩

include hspace in
/-- Before the clause the second replacement finds the same whatever the filter is. -/
theorem firstMatch_bare_before {token token' before after p : List Char} {captured : BareCapture}
    (htoken' : StartsToken token') (hp : p ≠ []) (hpre : r.beforeFrom = before ++ p)
    (h : FirstMatch (barePattern isWord) (r.withToken token) before after captured) :
    ∃ after' captured', FirstMatch (barePattern isWord) (r.withToken token') before after' captured' ∧
      captured'.token = captured.token := by
  have hcut := r.withToken_of_before hpre
  have hafter := List.append_cancel_left (h.text_eq.symm.trans (hcut token))
  have hfound := h.found
  rw [hafter] at hfound
  obtain ⟨captured', hfound', htokens⟩ := barePattern_before hp hfound (token' ++ r.rest)
  obtain ⟨b, a, c, hfirst, hle⟩ := (MatchAt.mk (hcut token') hfound').exists_first
  -- a match farther left would be one in the first text too
  rcases firstMatch_bare hspace r htoken' hfirst with ⟨p', hp', hpre', rfl⟩ | ⟨rfl, -⟩
  · obtain ⟨c', hc', -⟩ := barePattern_before hp' hfirst.found (token ++ r.rest)
    have hge := h.least _ _ _ ⟨r.withToken_of_before hpre' token, hc'⟩
    obtain ⟨rfl, -, rfl⟩ := hfirst.eq_of_length_eq ⟨hcut token', hfound'⟩ (Nat.le_antisymm hle hge)
    exact ⟨_, _, hfirst, htokens⟩
  · rw [hpre] at hle
    exact absurd hle (not_length_append_le hp _)

theorem matchAt_before {β : Type} {pattern : Pattern Char β} {token before p : List Char} {captured : β}
    (hpre : r.beforeFrom = before ++ p)
    (h : pattern before (p ++ ("from ".toList ++ (token ++ r.rest))) = some captured) :
    MatchAt pattern (r.withToken token) before (p ++ ("from ".toList ++ (token ++ r.rest))) captured where
  text_eq := r.withToken_of_before hpre token
  found := h

theorem matchAt_rest {β : Type} {capture : List Char → List Char → Option β} (token : List Char)
    {b after : List Char} {captured : β} (hb : b ≠ []) (hsplit : r.rest = b ++ after)
    (h : fromPattern isWord capture b after = some captured) :
    MatchAt (fromPattern isWord capture) (r.withToken token)
      (r.beforeFrom ++ ("from ".toList ++ token) ++ b) after captured where
  text_eq := by
    unfold withToken
    rw [hsplit]
    simp only [List.append_assoc]
  found := by rw [fromPattern_append hb, h]

/-! ## The text with the filter in double quotes -/

theorem withToken_quotedBy :
    r.withToken (r.quotedBy '"') = r.beforeFrom ++ (quoteFilter r.filter ++ r.rest) := by
  have hquote : "from \"".toList = "from ".toList ++ ['"'] := rfl
  unfold withToken quotedBy quoteFilter
  rw [hquote]
  simp only [List.append_assoc, List.cons_append, List.nil_append]

theorem not_mem_quotedBy : '\'' ∉ r.quotedBy '"' := by
  obtain ⟨hsingle, -⟩ := r.not_mem_filter
  simp [quotedBy, hsingle]

include hspace in
/-- Nothing more is quoted when nothing before the clause or behind the filter matches. -/
theorem unmatched_quotedBy {y : List Char} (hy : '\'' ∈ r.rest → '\'' ∈ y)
    (hbefore : ∀ before p, p ≠ [] → r.beforeFrom = before ++ p →
      quotedPattern isWord before (p ++ ("from ".toList ++ y)) = none)
    (hrest : ∀ b after, b ≠ [] → r.rest = b ++ after → quotedPattern isWord b after = none) :
    Unmatched (quotedPattern isWord) (r.withToken (r.quotedBy '"')) := by
  intro before after captured h
  rcases h.position with ⟨p, hp, hpre, rfl⟩ | ⟨rfl, rfl⟩ | ⟨b, hb, rfl, hsplit⟩
  · have hquote : '\'' ∈ r.quotedBy '"' ++ r.rest → '\'' ∈ y := by
      intro hmem
      rcases List.mem_append.mp hmem with hmem | hmem
      · exact absurd hmem r.not_mem_quotedBy
      · exact hy hmem
    have hsome := quotedPattern_opening isWord hp hquote (Option.isSome_of_eq_some h.found)
    rw [hbefore before p hp hpre] at hsome
    cases hsome
  · have hfound := h.found
    rw [quotedBy_append, quotedPattern, fromPattern_clause hspace r _ (by decide), captureQuoted,
      matchQuoted_of_ne (by decide)] at hfound
    cases hfound
  · obtain ⟨keyword, tail, hmatch, -⟩ := matchFrom_of_fromPattern h.found
    obtain ⟨b', hb', rfl, hsplit'⟩ := r.match_in_rest (Or.inr rfl) hb hsplit (by rw [hmatch]; simp)
    have hfound := h.found
    rw [← List.append_assoc, quotedPattern, fromPattern_append hb'] at hfound
    cases hfound.symm.trans (hrest b' after hb' hsplit')

include hspace in
/-- The second replacement leaves the filter in its quotes, and all else if it finds nothing before. -/
theorem rewriteBare_quotedBy
    (h : ∀ before after captured p, p ≠ [] → r.beforeFrom = before ++ p →
      FirstMatch (barePattern isWord) (r.withToken (r.quotedBy '"')) before after captured →
      LeftAlone captured.token) :
    rewriteFirst (barePattern isWord) replaceBare (r.withToken (r.quotedBy '"')) =
      r.withToken (r.quotedBy '"') := by
  have htoken := r.startsToken_quotedBy (z := '"') (by decide)
  obtain ⟨before, after, captured, hfirst, -⟩ := (barePattern_clause hspace r htoken).exists_first
  apply rewriteBare_of_leftAlone hfirst
  rcases firstMatch_bare hspace r htoken hfirst with ⟨p, hp, hpre, -⟩ | ⟨-, rfl⟩
  · exact h before after captured p hp hpre hfirst
  · exact r.leftAlone_quotedBy (Or.inr rfl)

/-- A text that gets its filter quoted instead of what a match before the clause captured would have
had a double quote behind the keyword of that match. -/
theorem matchFrom_requoted {p y tail : List Char} (hp : p ≠ [])
    (h : p ++ ("from ".toList ++ y) = "from \"".toList ++ tail) :
    ∃ rest, matchFrom (p ++ "from ".toList) = some ("from ".toList, '"' :: rest) := by
  have hlength : "from \"".toList.length ≤ (p ++ "from ".toList).length := by
    have hpos := List.length_pos_iff.mpr hp
    rw [List.length_append]
    change 6 ≤ p.length + 5
    omega
  rw [← List.append_assoc] at h
  have hprefix : "from \"".toList <+: p ++ "from ".toList :=
    List.prefix_of_prefix_length_le ⟨tail, h.symm⟩ (List.prefix_append _ _) hlength
  obtain ⟨rest, hrest⟩ := hprefix
  refine ⟨rest, ?_⟩
  rw [← hrest]
  exact matchFrom_from (by decide) rest

/-! ## Counting quotes -/

theorem count_filter : r.filter.count '\'' = 0 ∧ r.filter.count '"' = 0 := by
  obtain ⟨hsingle, hdouble⟩ := r.not_mem_filter
  exact ⟨List.count_eq_zero.mpr hsingle, List.count_eq_zero.mpr hdouble⟩

theorem count_double_quotedBy :
    (r.withToken (r.quotedBy '"')).count '"' = (r.withToken r.filter).count '"' + 2 := by
  obtain ⟨-, hdouble⟩ := r.count_filter
  rw [count_withToken, count_withToken, quotedBy]
  simp [List.count_append, hdouble]
  omega

theorem count_single_quotedBy :
    (r.withToken (r.quotedBy '"')).count '\'' = (r.withToken r.filter).count '\'' := by
  obtain ⟨hsingle, -⟩ := r.count_filter
  rw [count_withToken, count_withToken, quotedBy]
  simp [List.count_append, hsingle]

theorem count_double_single :
    (r.withToken (r.quotedBy '\'')).count '"' = (r.withToken r.filter).count '"' := by
  obtain ⟨-, hdouble⟩ := r.count_filter
  rw [count_withToken, count_withToken, quotedBy]
  simp [List.count_append, hdouble]

end RuleText

end Tenon.Core
