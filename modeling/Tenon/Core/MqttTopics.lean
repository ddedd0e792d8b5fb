import Tenon.Core.EngineMatching

/-!
# MqttTopics — topic matching against the rules of MQTT

The rules for wildcards are stated on the levels of a filter and a topic.  The naive match and the
trie both follow them, except that neither sets topics apart whose first level begins with `$`.
-/

open Reasoning

namespace Tenon.Core

/-! ## The rules -/

/-- A wildcard stands for a whole level, and `#` for the last one only. -/
structure TopicFilter where
  text : String
  hplus : ∀ l ∈ levels text, '+' ∈ l.toList → l = "+"
  hhash : ∀ l ∈ levels text, '#' ∈ l.toList → l = "#"
  hlast : "#" ∉ (levels text).dropLast

/-- A topic name is not empty and has no wildcard characters. -/
structure TopicName where
  text : String
  hne : text ≠ ""
  hplus : '+' ∉ text.toList
  hhash : '#' ∉ text.toList

/-- The levels of a filter match the levels of a topic. -/
inductive LevelsMatch : List String → List String → Prop where
  | done : LevelsMatch [] []
  | literal {fs ts : List String} (l : String) (hplus : l ≠ "+") (hhash : l ≠ "#")
      (h : LevelsMatch fs ts) : LevelsMatch (l :: fs) (l :: ts)
  -- exactly one level, which may be empty
  | plus {fs ts : List String} (t : String) (h : LevelsMatch fs ts) : LevelsMatch ("+" :: fs) (t :: ts)
  -- the parent level and everything below it
  | hash (ts : List String) : LevelsMatch ["#"] ts

/-- A wildcard is the first level of the filter, and `$` the first character of the topic's. -/
def Reserved (filter : TopicFilter) (topic : TopicName) : Prop :=
  (∃ l, (levels filter.text).head? = some l ∧ (l = "+" ∨ l = "#")) ∧
    ∃ l, (levels topic.text).head? = some l ∧ l.toList.head? = some '$'

/-- The filter matches the topic by all the rules of MQTT. -/
def MqttMatches (filter : TopicFilter) (topic : TopicName) : Prop :=
  LevelsMatch (levels filter.text) (levels topic.text) ∧ ¬ Reserved filter topic

/-! ## Both algorithms -/

theorem LevelsMatch.eq_hash {f : String} {fs : List String} (h : LevelsMatch (f :: fs) []) :
    f = "#" := by
  cases h
  rfl

theorem LevelsMatch.tail {f t : String} {fs ts : List String} (h : LevelsMatch (f :: fs) (t :: ts))
    (hhash : f ≠ "#") : (f = "+" ∨ f = t) ∧ LevelsMatch fs ts := by
  cases h with
  | literal _ _ _ h => exact ⟨Or.inr rfl, h⟩
  | plus _ h => exact ⟨Or.inl rfl, h⟩
  | hash _ => exact absurd rfl hhash

theorem covers_iff_levelsMatch {fs : List String} (hlast : "#" ∉ fs.dropLast) (ts : List String) :
    Covers (filterPath fs) ts ↔ LevelsMatch fs ts := by
  induction fs generalizing ts with
  | nil =>
      constructor
      · intro h
        cases (h : ts = [])
        exact .done
      · intro h
        cases h
        rfl
  | cons f rest ih =>
      have hrest : "#" ∉ rest.dropLast := by
        cases rest with
        | nil => exact List.not_mem_nil
        | cons g more =>
            rw [List.dropLast_cons_cons] at hlast
            exact fun h ↦ hlast (List.mem_cons_of_mem _ h)
      by_cases hhash : f = "#"
      · -- nothing follows a `#`
        subst hhash
        have hnil : rest = [] := by
          cases rest with
          | nil => rfl
          | cons g more =>
              rw [List.dropLast_cons_cons] at hlast
              exact absurd List.mem_cons_self hlast
        subst hnil
        exact iff_of_true trivial (.hash ts)
      · by_cases hplus : f = "+"
        · rw [filterPath, if_pos hplus]
          cases ts with
          | nil => exact iff_of_false id fun h ↦ hhash h.eq_hash
          | cons t more =>
              change Covers (filterPath rest) more ↔ _
              rw [ih hrest]
              constructor
              · intro h
                rw [hplus]
                exact .plus t h
              · intro h
                exact (h.tail hhash).2
        · rw [filterPath, if_neg hplus, if_neg hhash]
          cases ts with
          | nil => exact iff_of_false id fun h ↦ hhash h.eq_hash
          | cons t more =>
              change f = t ∧ Covers (filterPath rest) more ↔ _
              rw [ih hrest]
              constructor
              · intro h
                rcases h with ⟨rfl, h⟩
                exact .literal f hplus hhash h
              · intro h
                obtain ⟨hlevel, htail⟩ := h.tail hhash
                exact ⟨hlevel.resolve_left hplus, htail⟩

-- an index that was stored nowhere is stored under the path of its filter only
theorem mem_matchTopicIndexes_insert {trie : TopicTrie} {i : Nat}
    (hfresh : ∀ path, i ∉ storedAt trie.root path) (filter topic : String) :
    i ∈ (trie.insert filter i).matchTopicIndexes topic ↔
      Covers (filterPath (levels filter)) (levels topic) := by
  rw [TopicTrie.matchTopicIndexes, mem_matchNode]
  have hstored (path : List Edge) :
      i ∈ storedAt (trie.insert filter i).root path ↔ path = filterPath (levels filter) := by
    change i ∈ storedAt (insertLevels trie.root i (levels filter)) path ↔ _
    rw [storedAt_insertLevels]
    split
    · rename_i hpath
      exact iff_of_true (Finset.mem_insert_self i _) hpath
    · rename_i hpath
      exact iff_of_false (hfresh path) hpath
  constructor
  · intro h
    rcases h with ⟨path, hpath, hcovers⟩
    rwa [← (hstored path).mp hpath]
  · intro h
    exact ⟨_, (hstored _).mpr rfl, h⟩

/-- The naive match, a trie the filter is inserted into, and the trie of an engine with a live rule for
the filter all answer `P`. -/
structure DecidesAs (filter : TopicFilter) (topic : TopicName) (P : Prop) : Prop where
  matchTopic : matchTopic filter.text topic.text = true ↔ P
  inserted : ∀ (trie : TopicTrie) (i : Nat), (∀ path, i ∉ storedAt trie.root path) →
    (i ∈ (trie.insert filter.text i).matchTopicIndexes topic.text ↔ P)
  engine : ∀ (C : Crates) (decoder : PayloadDecoder) (capacity : Nat) (engine : RuleEngine),
    (engineSystem C decoder capacity).Reachable engine → ∀ (i : Nat) (rule : CompiledRule),
      liveRule engine.rules i = some rule → rule.topicFilter = filter.text →
        (i ∈ engine.matcher.matchTopicIndexes topic.text ↔ P)

/-- Both algorithms follow the rules for wildcards, for all topics alike. -/
theorem decidesAs_levelsMatch (filter : TopicFilter) (topic : TopicName) :
    DecidesAs filter topic (LevelsMatch (levels filter.text) (levels topic.text)) := by
  have hcovers := covers_iff_levelsMatch filter.hlast (levels topic.text)
  apply DecidesAs.mk
  · rw [matchTopic_iff, hcovers]
  · intro trie i hfresh
    rw [mem_matchTopicIndexes_insert hfresh, hcovers]
  · intro C decoder capacity engine hreach i rule hrule hfilter
    rw [(wellFormed hreach).mem_match hrule, matchTopic_iff, hfilter, hcovers]

def hashFilter : TopicFilter := ⟨"#", by decide, by decide, by decide⟩

def systemTopic : TopicName := ⟨"$SYS/load", by decide, by decide, by decide⟩

/-- The filter `#` matches the topics that begin with `$`, which the rules reserve. -/
theorem not_decidesAs_mqttMatches :
    ¬ DecidesAs hashFilter systemTopic (MqttMatches hashFilter systemTopic) := by
  intro h
  have hmatched : matchTopic hashFilter.text systemTopic.text = true := by decide
  have hreserved : Reserved hashFilter systemTopic :=
    ⟨⟨"#", by decide, Or.inr rfl⟩, "$SYS", by decide, by decide⟩
  exact (h.matchTopic.mp hmatched).2 hreserved

end Tenon.Core
