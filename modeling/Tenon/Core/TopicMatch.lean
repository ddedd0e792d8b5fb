import Tenon.Reasoning.Segments

/-!
# TopicMatch — topic filters and the naive match

A filter is read as a path of levels, where `+` stands for any one level and `#` for the rest of the
topic.  The index loop of `match_topic` decides whether the path covers the levels of the topic.
-/

open Reasoning

namespace Tenon.Core

def levels (topic : String) : List String := Segments.split '/' topic

-- the loop over the index `i` common to both lists
def matchLevels : List String → List String → Bool
  | [], topicLevels => topicLevels.isEmpty
  | f :: filterLevels, topicLevels =>
      if f = "#" then true
      else
        match topicLevels with
        | [] => false
        | t :: topicLevels =>
            if f ≠ "+" ∧ f ≠ t then false else matchLevels filterLevels topicLevels

def matchTopic (filter topic : String) : Bool :=
  if filter = "#" then true else matchLevels (levels filter) (levels topic)

/-! ## Filters as paths -/

/-- The three kinds of edge out of a trie node. -/
inductive Edge where
  | level (s : String)
  | plus
  | hash
  deriving DecidableEq

/-- The path a filter stands for: nothing after a `#` counts. -/
def filterPath : List String → List Edge
  | [] => []
  | l :: ls =>
      if l = "+" then .plus :: filterPath ls
      else if l = "#" then [.hash]
      else .level l :: filterPath ls

def Covers : List Edge → List String → Prop
  | [], ts => ts = []
  | [.hash], _ => True
  | .level s :: es, t :: ts => s = t ∧ Covers es ts
  | .plus :: es, _ :: ts => Covers es ts
  | _, _ => False

theorem matchLevels_iff (fs ts : List String) :
    matchLevels fs ts = true ↔ Covers (filterPath fs) ts := by
  induction fs generalizing ts with
  | nil => simp [matchLevels, filterPath, Covers]
  | cons f fs ih =>
      by_cases hhash : f = "#"
      · subst hhash
        simp [matchLevels, filterPath, Covers]
      · by_cases hplus : f = "+"
        · subst hplus
          cases ts with
          | nil => simp [matchLevels, filterPath, Covers]
          | cons t ts => simp [matchLevels, filterPath, Covers, ih]
        · cases ts with
          | nil => simp [matchLevels, filterPath, Covers, hhash, hplus]
          | cons t ts =>
              by_cases heq : f = t
              · subst heq
                simp [matchLevels, filterPath, Covers, hhash, hplus, ih]
              · simp [matchLevels, filterPath, Covers, hhash, hplus, heq]

/-- The naive match decides whether the path of the filter covers the topic. -/
theorem matchTopic_iff (filter topic : String) :
    matchTopic filter topic = true ↔ Covers (filterPath (levels filter)) (levels topic) := by
  unfold matchTopic
  split
  · rename_i hfilter
    -- the early return agrees with the loop, which stops at the first level
    have hpath : filterPath (levels filter) = [.hash] := by rw [hfilter]; decide
    simp [hpath, Covers]
  · exact matchLevels_iff _ _

example : matchTopic "a/+/#" "a/b" = true ∧ matchTopic "a/+" "a" = false := by decide

end Tenon.Core
