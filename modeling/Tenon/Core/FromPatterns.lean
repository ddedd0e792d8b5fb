import Mathlib.Data.List.TakeWhile
import Tenon.Core.RuleCompile
import Tenon.Reasoning.Rewriting

/-!
# FromPatterns — what the two replacements of a rule text look for

Both look for the leftmost `from` with something to quote behind it: a literal that is closed and not
empty, or a token.  A match that starts before a FROM clause sees no more of the clause than its keyword,
but for the closing quote of a literal.
-/

open Reasoning.Rewriting

namespace Tenon.Core

/-! ## The replacements as patterns -/

structure BareCapture where
  keyword : List Char
  token : List Char
  after : List Char

def isToken (c : Char) : Bool := !(isWhitespace c || c == ',' || c == '(' || c == ')')

/-- The second replacement leaves a text that matches with the token as it stands. -/
def LeftAlone (token : List Char) : Prop :=
  token.head? = some '"' ∨ token.head? = some '\'' ∨ ¬('/' ∈ token ∨ '+' ∈ token ∨ '#' ∈ token)

instance (token : List Char) : Decidable (LeftAlone token) :=
  inferInstanceAs (Decidable (token.head? = some '"' ∨ token.head? = some '\'' ∨
    ¬('/' ∈ token ∨ '+' ∈ token ∨ '#' ∈ token)))

def captureQuoted (_ rest : List Char) : Option (List Char × List Char) := matchQuoted rest

def captureBare (keyword rest : List Char) : Option BareCapture :=
  if rest.takeWhile isToken = [] then none
  else some ⟨keyword, rest.takeWhile isToken, rest.dropWhile isToken⟩

def replaceQuoted (captured : List Char × List Char) : List Char :=
  quoteFilter captured.1 ++ captured.2

def replaceBare (captured : BareCapture) : List Char :=
  if LeftAlone captured.token then captured.keyword ++ captured.token ++ captured.after
  else quoteFilter captured.token ++ captured.after

section Patterns

variable (isWord : Char → Bool)

def followsWord (before : List Char) : Bool := (before.getLast?.map isWord).getD false

-- `\bfrom\s+` and what is captured behind it
def fromPattern {β : Type} (capture : List Char → List Char → Option β) : Pattern Char β :=
  fun before after ↦
    if followsWord isWord before then none else (matchFrom after).bind fun m ↦ capture m.1 m.2

/-- `\bfrom\s+'([^']+)'` -/
def quotedPattern : Pattern Char (List Char × List Char) := fromPattern isWord captureQuoted

/-- `\bfrom\s+([^\s,()]+)` -/
def barePattern : Pattern Char BareCapture := fromPattern isWord captureBare

theorem followsWord_concat (before : List Char) (c : Char) :
    followsWord isWord (before ++ [c]) = isWord c := by
  rw [followsWord, List.getLast?_concat]
  rfl

theorem replaceFirst_eq {β : Type} (capture : List Char → List Char → Option β)
    (replace : β → List Char) (seen text : List Char) :
    replaceFirst isWord (fun keyword rest ↦ (capture keyword rest).map replace)
        (followsWord isWord seen) text =
      rewriteAfter (fromPattern isWord capture) replace seen text := by
  induction text generalizing seen with
  | nil =>
      have hnil : fromPattern isWord capture seen [] = none := by
        rw [fromPattern]
        cases followsWord isWord seen <;> rfl
      rw [replaceFirst, rewriteAfter, hnil]
      rfl
  | cons c cs ih =>
      have ih := ih (seen ++ [c])
      rw [followsWord_concat] at ih
      rw [replaceFirst, rewriteAfter, fromPattern, ih]
      cases followsWord isWord seen with
      | true => rfl
      | false =>
          simp only [Bool.false_eq_true, if_false]
          cases matchFrom (c :: cs) with
          | none => rfl
          | some m =>
              simp only [Option.bind_some]
              cases capture m.1 m.2 <;> rfl

theorem map_captureBare (keyword rest : List Char) :
    (captureBare keyword rest).map replaceBare =
      if rest.takeWhile isToken = [] then none
      else if LeftAlone (rest.takeWhile isToken) then
        some (keyword ++ rest.takeWhile isToken ++ rest.dropWhile isToken)
      else some (quoteFilter (rest.takeWhile isToken) ++ rest.dropWhile isToken) := by
  unfold captureBare
  split
  · rfl
  · rw [Option.map_some, replaceBare]
    split <;> rfl

theorem captureBare_eq_some {keyword rest : List Char} {captured : BareCapture}
    (h : captureBare keyword rest = some captured) :
    rest.takeWhile isToken ≠ [] ∧
      captured = ⟨keyword, rest.takeWhile isToken, rest.dropWhile isToken⟩ := by
  unfold captureBare at h
  split at h
  · cases h
  · next hne => exact ⟨hne, (Option.some.inj h).symm⟩

/-- Normalising is one replacement after the other. -/
theorem normalizeRuleSql_eq (sql : String) :
    normalizeRuleSql isWord sql = String.ofList (rewriteFirst (barePattern isWord) replaceBare
      (rewriteFirst (quotedPattern isWord) replaceQuoted sql.toList)) := by
  have hquoted := replaceFirst_eq isWord captureQuoted replaceQuoted []
  have hbare := replaceFirst_eq isWord captureBare replaceBare []
  unfold rewriteFirst quotedPattern barePattern
  rw [← hquoted, ← hbare]
  simp only [map_captureBare]
  rfl

variable {isWord} {β : Type} {capture : List Char → List Char → Option β}

theorem matchFrom_of_fromPattern {before after : List Char} {captured : β}
    (h : fromPattern isWord capture before after = some captured) :
    ∃ keyword rest, matchFrom after = some (keyword, rest) ∧ capture keyword rest = some captured := by
  unfold fromPattern at h
  split at h
  · cases h
  · obtain ⟨⟨keyword, rest⟩, hmatch, hcapture⟩ := Option.bind_eq_some_iff.mp h
    exact ⟨keyword, rest, hmatch, hcapture⟩

-- past its first character a text does not show what stands before it
theorem fromPattern_append {before : List Char} (hne : before ≠ []) (pre after : List Char) :
    fromPattern isWord capture (pre ++ before) after = fromPattern isWord capture before after := by
  unfold fromPattern followsWord
  rw [List.getLast?_append_of_ne_nil _ hne]

end Patterns

/-! ## The keyword -/

def IsLetter (c : Char) : Prop := 65 ≤ c.toNat ∧ c.toNat ≤ 122

theorem isLetter_of_toLower {c x : Char} (h : c.toLower = x) (hx : 97 ≤ x.toNat ∧ x.toNat ≤ 122) :
    IsLetter c := by
  subst h
  unfold Char.toLower at hx
  unfold IsLetter
  split at hx
  · next hupper =>
    have hlo : 65 ≤ c.toNat := hupper.1
    have hhi : c.toNat ≤ 90 := hupper.2
    omega
  · omega

theorem not_isWhitespace_of_letter {c : Char} (h : IsLetter c) : isWhitespace c = false := by
  unfold IsLetter at h
  unfold isWhitespace
  simp only [Bool.or_eq_false_iff, Bool.and_eq_false_iff, decide_eq_false_iff_not]
  omega

/-- What `from\s+` matches. -/
structure IsKeyword (keyword : List Char) : Prop where
  spelled : ∃ f r o m spaces, keyword = f :: r :: o :: m :: spaces ∧ (IsLetter f ∧ IsLetter r ∧
    IsLetter o ∧ IsLetter m) ∧ spaces ≠ [] ∧ ∀ c ∈ spaces, isWhitespace c = true

theorem matchFrom_eq_some {text keyword rest : List Char} (h : matchFrom text = some (keyword, rest)) :
    IsKeyword keyword ∧ text = keyword ++ rest := by
  match text with
  | [] | [_] | [_, _] | [_, _, _] => cases h
  | f :: r :: o :: m :: tail =>
      rw [matchFrom] at h
      split at h
      · next hspelled =>
        obtain ⟨hf, hr, ho, hm, hspaces⟩ := hspelled
        cases h
        refine ⟨⟨f, r, o, m, _, rfl, ⟨isLetter_of_toLower hf (by decide),
          isLetter_of_toLower hr (by decide), isLetter_of_toLower ho (by decide),
          isLetter_of_toLower hm (by decide)⟩, hspaces, fun c hc ↦ List.mem_takeWhile_imp hc⟩, ?_⟩
        simp [List.takeWhile_append_dropWhile]
      · cases h

theorem IsKeyword.not_mem {keyword : List Char} (h : IsKeyword keyword) {c : Char} (hc : ¬ IsLetter c)
    (hspace : isWhitespace c = false) : c ∉ keyword := by
  obtain ⟨f, r, o, m, spaces, rfl, ⟨hf, hr, ho, hm⟩, -, hspaces⟩ := h.spelled
  intro hmem
  simp only [List.mem_cons] at hmem
  rcases hmem with rfl | rfl | rfl | rfl | hmem
  · exact hc hf
  · exact hc hr
  · exact hc ho
  · exact hc hm
  · exact Bool.false_ne_true (hspace.symm.trans (hspaces c hmem))

theorem matchFrom_of_head {c : Char} (h : c.toLower ≠ 'f') (cs : List Char) :
    matchFrom (c :: cs) = none := by
  match cs with
  | [] | [_] | [_, _] => rfl
  | r :: o :: m :: tail => rw [matchFrom, if_neg fun hspelled ↦ h hspelled.1]

/-- The keyword needs white space behind its letters. -/
theorem matchFrom_of_closed {word : List Char} {z : Char} (rest : List Char)
    (hword : ∀ c ∈ word, isWhitespace c = false) (hz : ¬ IsLetter z) (hspace : isWhitespace z = false) :
    matchFrom (word ++ z :: rest) = none := by
  cases hmatch : matchFrom (word ++ z :: rest) with
  | none => rfl
  | some found =>
      obtain ⟨hkeyword, htext⟩ := matchFrom_eq_some hmatch
      obtain ⟨f, r, o, m, spaces, hspelled, ⟨hf, hr, ho, hm⟩, hne, hspaces⟩ := hkeyword.spelled
      obtain ⟨s, spaces, rfl⟩ := List.exists_cons_of_ne_nil hne
      have hs := hspaces s List.mem_cons_self
      rw [hspelled] at htext
      match word with
      | [] =>
          cases htext
          exact absurd hf hz
      | [_] =>
          cases htext
          exact absurd hr hz
      | [_, _] =>
          cases htext
          exact absurd ho hz
      | [_, _, _] =>
          cases htext
          exact absurd hm hz
      | [_, _, _, _] =>
          cases htext
          exact absurd (hspace.symm.trans hs) Bool.false_ne_true
      | _ :: _ :: _ :: _ :: s' :: _ =>
          -- the first character behind the letters is one of the word
          have hhead := congrArg (fun cs ↦ cs[4]?) htext
          have hs' := hword s' (by simp)
          cases Option.some.inj hhead
          exact absurd (hs'.symm.trans hs) Bool.false_ne_true

theorem matchFrom_from {z : Char} (hz : isWhitespace z = false) (rest : List Char) :
    matchFrom ("from ".toList ++ z :: rest) = some ("from ".toList, z :: rest) := by
  have hspace : isWhitespace ' ' = true := by decide
  have hfrom : "from ".toList = ['f', 'r', 'o', 'm', ' '] := rfl
  rw [hfrom]
  simp [matchFrom, hspace, hz]

/-! ## The quoted text -/

theorem matchQuoted_cons (rest : List Char) :
    matchQuoted ('\'' :: rest) =
      match rest.dropWhile (· ≠ '\'') with
      | '\'' :: after =>
          if rest.takeWhile (· ≠ '\'') ≠ [] then some (rest.takeWhile (· ≠ '\''), after) else none
      | _ => none := rfl

theorem matchQuoted_of_ne {c : Char} (hc : c ≠ '\'') (cs : List Char) :
    matchQuoted (c :: cs) = none := by
  unfold matchQuoted
  split
  · next heq =>
    cases heq
    exact absurd rfl hc
  · rfl

theorem matchQuoted_literal {inner : List Char} (hinner : '\'' ∉ inner) (hne : inner ≠ [])
    (after : List Char) : matchQuoted ('\'' :: (inner ++ '\'' :: after)) = some (inner, after) := by
  have hall : ∀ c ∈ inner, decide (c ≠ '\'') = true := by
    intro c hc
    exact decide_eq_true fun heq ↦ hinner (heq ▸ hc)
  have htake : (inner ++ '\'' :: after).takeWhile (· ≠ '\'') = inner := by
    rw [List.takeWhile_append_of_pos hall]
    simp
  have hdrop : (inner ++ '\'' :: after).dropWhile (· ≠ '\'') = '\'' :: after := by
    rw [List.dropWhile_append_of_pos hall]
    simp
  rw [matchQuoted_cons, hdrop, htake]
  exact if_pos hne

theorem matchQuoted_eq_some {text inner after : List Char} (h : matchQuoted text = some (inner, after)) :
    text = '\'' :: (inner ++ '\'' :: after) ∧ '\'' ∉ inner ∧ inner ≠ [] := by
  match text with
  | [] => cases h
  | c :: rest =>
      by_cases hc : c = '\''
      · subst hc
        rw [matchQuoted_cons] at h
        split at h
        · next after' hdrop =>
          split at h
          · next hne =>
            cases h
            have hinner : '\'' ∉ rest.takeWhile (· ≠ '\'') := by
              intro hmem
              simpa using List.mem_takeWhile_imp hmem
            refine ⟨?_, hinner, hne⟩
            rw [← hdrop, List.takeWhile_append_dropWhile]
          · cases h
        · cases h
      · rw [matchQuoted_of_ne hc] at h
        cases h

/-- A literal that is not empty and is closed. -/
theorem isSome_matchQuoted {text : List Char} :
    (matchQuoted text).isSome = true ↔
      ∃ c tail, text = '\'' :: c :: tail ∧ c ≠ '\'' ∧ '\'' ∈ tail := by
  constructor
  · intro h
    obtain ⟨⟨inner, after⟩, hfound⟩ := Option.isSome_iff_exists.mp h
    obtain ⟨rfl, hinner, hne⟩ := matchQuoted_eq_some hfound
    obtain ⟨c, inner, rfl⟩ := List.exists_cons_of_ne_nil hne
    exact ⟨c, inner ++ '\'' :: after, rfl, fun hc ↦ hinner (hc ▸ List.mem_cons_self),
      List.mem_append_right _ List.mem_cons_self⟩
  · rintro ⟨c, tail, rfl, hc, htail⟩
    obtain ⟨inner, after, rfl, hinner⟩ := List.eq_append_cons_of_mem htail
    have hfree : '\'' ∉ c :: inner := by
      intro hmem
      rcases List.mem_cons.mp hmem with heq | hmem
      · exact hc heq.symm
      · exact hinner hmem
    have hliteral := matchQuoted_literal hfree (List.cons_ne_nil c inner) after
    rw [List.cons_append] at hliteral
    rw [hliteral]
    rfl

/-! ## Matches that start before a FROM clause -/

theorem takeWhile_append_of_stop {p : Char → Bool} {xs : List Char} {c : Char} (hc : c ∈ xs)
    (hstop : p c = false) (ys : List Char) :
    (xs ++ ys).takeWhile p = xs.takeWhile p ∧ (xs ++ ys).dropWhile p = xs.dropWhile p ++ ys := by
  have hne : xs.takeWhile p ≠ xs := by
    intro heq
    exact Bool.false_ne_true (hstop.symm.trans (List.takeWhile_eq_self_iff.mp heq c hc))
  have hlength : (xs.takeWhile p).length ≠ xs.length := by
    intro hlength
    exact hne ((List.takeWhile_prefix p).eq_of_length hlength)
  have hdrop : (xs.dropWhile p).isEmpty = false := by
    rw [List.isEmpty_eq_false_iff]
    intro hnil
    have happend := List.takeWhile_append_dropWhile (p := p) (l := xs)
    rw [hnil, List.append_nil] at happend
    exact hne happend
  rw [List.takeWhile_append, List.dropWhile_append, if_neg hlength, hdrop]
  exact ⟨rfl, rfl⟩

theorem matchFrom_append {s : List Char} {c : Char} (hc : c ∈ s.drop 4) (hspace : isWhitespace c = false)
    (y : List Char) : matchFrom (s ++ y) = (matchFrom s).map fun m ↦ (m.1, m.2 ++ y) := by
  match s with
  | [] | [_] | [_, _] | [_, _, _] => cases hc
  | f :: r :: o :: m :: tail =>
      have htail : c ∈ tail := hc
      obtain ⟨htake, hdrop⟩ := takeWhile_append_of_stop htail hspace y
      simp only [List.cons_append, matchFrom, htake, hdrop]
      split <;> rfl

section Opening

variable {p : List Char}

theorem mem_drop_opening (hp : p ≠ []) : 'm' ∈ (p ++ "from ".toList).drop 4 := by
  have hfrom : "from ".toList = ['f', 'r', 'o', 'm', ' '] := rfl
  rw [hfrom]
  match p with
  | [_] | [_, _] | [_, _, _] | _ :: _ :: _ :: _ :: _ => simp

theorem matchFrom_opening (hp : p ≠ []) (y : List Char) :
    matchFrom (p ++ ("from ".toList ++ y)) =
      (matchFrom (p ++ "from ".toList)).map fun m ↦ (m.1, m.2 ++ y) := by
  rw [← List.append_assoc]
  exact matchFrom_append (mem_drop_opening hp) (by decide) y

-- what is left of the opening after a keyword ends with the space behind the next keyword
theorem getLast?_of_opening (hp : p ≠ []) {keyword rest : List Char}
    (h : matchFrom (p ++ "from ".toList) = some (keyword, rest)) : rest.getLast? = some ' ' := by
  obtain ⟨hkeyword, htext⟩ := matchFrom_eq_some h
  obtain ⟨f, r, o, m, spaces, rfl, -, -, hspaces⟩ := hkeyword.spelled
  have hm : 'm' ∈ spaces ++ rest := by
    have hm := mem_drop_opening hp
    rwa [htext] at hm
  have hrest : rest ≠ [] := by
    intro hnil
    rw [hnil, List.append_nil] at hm
    exact absurd (hspaces 'm' hm) (by decide)
  have hlast := congrArg List.getLast? htext
  rw [List.getLast?_append_of_ne_nil _ hrest, List.getLast?_append_of_ne_nil _ (by decide)] at hlast
  exact hlast.symm

variable (isWord : Char → Bool)

theorem barePattern_opening (hp : p ≠ []) (before y : List Char) :
    barePattern isWord before (p ++ ("from ".toList ++ y)) =
      (barePattern isWord before (p ++ "from ".toList)).map fun m ↦ { m with after := m.after ++ y } := by
  unfold barePattern fromPattern
  rw [matchFrom_opening hp]
  split
  · rfl
  · cases hmatch : matchFrom (p ++ "from ".toList) with
    | none => rfl
    | some found =>
        have hstop := List.mem_of_getLast? (getLast?_of_opening hp hmatch)
        obtain ⟨htake, hdrop⟩ := takeWhile_append_of_stop hstop
          (show isToken ' ' = false by decide) y
        simp only [Option.map_some, Option.bind_some, captureBare, htake, hdrop]
        split <;> rfl

theorem quotedPattern_opening (hp : p ≠ []) {before y y' : List Char} (hy : '\'' ∈ y → '\'' ∈ y')
    (h : (quotedPattern isWord before (p ++ ("from ".toList ++ y))).isSome = true) :
    (quotedPattern isWord before (p ++ ("from ".toList ++ y'))).isSome = true := by
  unfold quotedPattern fromPattern at h ⊢
  rw [matchFrom_opening hp] at h ⊢
  split at h
  · cases h
  · next hword =>
    rw [if_neg hword]
    cases hmatch : matchFrom (p ++ "from ".toList) with
    | none =>
        rw [hmatch] at h
        cases h
    | some found =>
        have hlast := getLast?_of_opening hp hmatch
        simp only [hmatch, Option.map_some, Option.bind_some, captureQuoted] at h ⊢
        obtain ⟨c, tail, htext, hc, htail⟩ := isSome_matchQuoted.mp h
        apply isSome_matchQuoted.mpr
        match hrest : found.2 with
        | [] =>
            rw [hrest] at hlast
            cases hlast
        | [d] =>
            rw [hrest] at hlast htext
            cases hlast
            cases htext
        | d :: e :: rest =>
            rw [hrest] at htext
            cases htext
            refine ⟨_, _, rfl, hc, ?_⟩
            rcases List.mem_append.mp htail with hmem | hmem
            · exact List.mem_append_left _ hmem
            · exact List.mem_append_right _ (hy hmem)

end Opening

end Tenon.Core
