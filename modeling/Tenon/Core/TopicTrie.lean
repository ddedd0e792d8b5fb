import Mathlib.Data.Finset.Basic
import Tenon.Core.TopicMatch

/-!
# TopicTrie — the topic filter trie

A node has a child for each literal level, one for `+` and one for `#`, and holds the indexes of the
rules whose filter ends there.  What a trie stores is read off as the set of indexes at each path;
insertion and removal change that set at one path only, and matching collects the paths that cover
the topic.
-/

namespace Tenon.Core

inductive TrieNode where
  | mk (children : List (String × TrieNode)) (plusChild hashChild : Option TrieNode)
      (ruleIndexes : Finset Nat)

namespace TrieNode

def default : TrieNode := .mk [] none none ∅

def children : TrieNode → List (String × TrieNode)
  | .mk children _ _ _ => children

def plusChild : TrieNode → Option TrieNode
  | .mk _ plusChild _ _ => plusChild

def hashChild : TrieNode → Option TrieNode
  | .mk _ _ hashChild _ => hashChild

def ruleIndexes : TrieNode → Finset Nat
  | .mk _ _ _ ruleIndexes => ruleIndexes

def isEmpty (node : TrieNode) : Bool :=
  node.children.isEmpty && node.plusChild.isNone && node.hashChild.isNone &&
    decide (node.ruleIndexes = ∅)

-- the child at a level is replaced, or a new one added
def setChild (children : List (String × TrieNode)) (level : String) (child : TrieNode) :
    List (String × TrieNode) :=
  match children with
  | [] => [(level, child)]
  | (k, c) :: rest => if k = level then (k, child) :: rest else (k, c) :: setChild rest level child

def removeChild (children : List (String × TrieNode)) (level : String) :
    List (String × TrieNode) :=
  children.filter fun e ↦ e.1 ≠ level

theorem lookup_cons_eq (k : String) (c : TrieNode) (rest : List (String × TrieNode)) (s : String) :
    ((k, c) :: rest).lookup s = if s = k then some c else rest.lookup s := by
  rw [List.lookup_cons]
  by_cases h : s = k
  · rw [if_pos h, beq_iff_eq.mpr h]
  · rw [if_neg h, beq_eq_false_iff_ne.mpr h]

theorem lookup_setChild (children : List (String × TrieNode)) (level : String) (child : TrieNode)
    (s : String) :
    (setChild children level child).lookup s =
      if s = level then some child else children.lookup s := by
  induction children with
  | nil => rw [setChild, lookup_cons_eq]
  | cons e rest ih =>
      rcases e with ⟨k, c⟩
      by_cases hk : k = level
      · subst hk
        rw [setChild, if_pos rfl, lookup_cons_eq, lookup_cons_eq]
        split <;> rfl
      · rw [setChild, if_neg hk, lookup_cons_eq, lookup_cons_eq, ih]
        by_cases h : s = k
        · rw [if_pos h, if_pos h, if_neg (h ▸ hk)]
        · rw [if_neg h, if_neg h]

theorem lookup_removeChild (children : List (String × TrieNode)) (level s : String) :
    (removeChild children level).lookup s = if s = level then none else children.lookup s := by
  unfold removeChild
  induction children with
  | nil => simp
  | cons e rest ih =>
      rcases e with ⟨k, c⟩
      by_cases hk : k = level
      · subst hk
        rw [List.filter_cons_of_neg (by simp), ih, lookup_cons_eq]
        split <;> rfl
      · rw [List.filter_cons_of_pos (by simpa using hk), lookup_cons_eq, lookup_cons_eq, ih]
        by_cases h : s = k
        · rw [if_pos h, if_pos h, if_neg (h ▸ hk)]
        · rw [if_neg h, if_neg h]

def insertIndex (node : TrieNode) (ruleIndex : Nat) : TrieNode :=
  .mk node.children node.plusChild node.hashChild (insert ruleIndex node.ruleIndexes)

def eraseIndex (node : TrieNode) (ruleIndex : Nat) : TrieNode :=
  .mk node.children node.plusChild node.hashChild (node.ruleIndexes.erase ruleIndex)

end TrieNode

open TrieNode

/-! ## The operations -/

-- the loop of `insert` from a node on
def insertLevels (node : TrieNode) (ruleIndex : Nat) : List String → TrieNode
  | [] => node.insertIndex ruleIndex
  | l :: ls =>
      if l = "+" then
        let child := insertLevels (node.plusChild.getD default) ruleIndex ls
        .mk node.children (some child) node.hashChild node.ruleIndexes
      else if l = "#" then
        -- the loop breaks here: further levels of the filter are not looked at
        let child := (node.hashChild.getD default).insertIndex ruleIndex
        .mk node.children node.plusChild (some child) node.ruleIndexes
      else
        let child := insertLevels ((node.children.lookup l).getD default) ruleIndex ls
        .mk (setChild node.children l child) node.plusChild node.hashChild node.ruleIndexes

-- the node after the removal, and whether it is empty then
def removeFromNode (node : TrieNode) (ruleIndex : Nat) : List String → TrieNode × Bool
  | [] =>
      let node := node.eraseIndex ruleIndex
      (node, node.isEmpty)
  | l :: ls =>
      let node :=
        if l = "+" then
          match node.plusChild with
          | none => node
          | some child =>
              let (child, childEmpty) := removeFromNode child ruleIndex ls
              .mk node.children (if childEmpty then none else some child) node.hashChild
                node.ruleIndexes
        else if l = "#" then
          match node.hashChild with
          | none => node
          | some child =>
              let (child, childEmpty) := removeFromNode child ruleIndex ls
              .mk node.children node.plusChild (if childEmpty then none else some child)
                node.ruleIndexes
        else
          match node.children.lookup l with
          | none => node
          | some child =>
              let (child, childEmpty) := removeFromNode child ruleIndex ls
              .mk (if childEmpty then removeChild node.children l
                else setChild node.children l child) node.plusChild node.hashChild node.ruleIndexes
      (node, node.isEmpty)

def hashIndexes (node : TrieNode) : Finset Nat :=
  (node.hashChild.map ruleIndexes).getD ∅

def matchNode (node : TrieNode) : List String → Finset Nat
  | [] => hashIndexes node ∪ node.ruleIndexes
  | t :: ts =>
      let below := match node.children.lookup t with
        | some child => matchNode child ts
        | none => ∅
      let belowPlus := match node.plusChild with
        | some child => matchNode child ts
        | none => ∅
      hashIndexes node ∪ below ∪ belowPlus

structure TopicTrie where
  root : TrieNode

namespace TopicTrie

def default : TopicTrie := { root := TrieNode.default }

def insert (trie : TopicTrie) (filter : String) (ruleIndex : Nat) : TopicTrie :=
  { root := insertLevels trie.root ruleIndex (levels filter) }

def remove (trie : TopicTrie) (filter : String) (ruleIndex : Nat) : TopicTrie :=
  { root := (removeFromNode trie.root ruleIndex (levels filter)).1 }

-- the set that is collected; the order its elements come out in is not fixed
def matchTopicIndexes (trie : TopicTrie) (topic : String) : Finset Nat :=
  matchNode trie.root (levels topic)

end TopicTrie

/-! ## Both operations replace one child -/

-- the child along an edge
def TrieNode.child (node : TrieNode) : Edge → Option TrieNode
  | .level s => node.children.lookup s
  | .plus => node.plusChild
  | .hash => node.hashChild

def TrieNode.setEdge (node : TrieNode) (edge : Edge) (child : Option TrieNode) : TrieNode :=
  match edge with
  | .level s =>
      match child with
      | some child =>
          .mk (setChild node.children s child) node.plusChild node.hashChild node.ruleIndexes
      | none => .mk (removeChild node.children s) node.plusChild node.hashChild node.ruleIndexes
  | .plus => .mk node.children child node.hashChild node.ruleIndexes
  | .hash => .mk node.children node.plusChild child node.ruleIndexes

theorem TrieNode.child_setEdge (node : TrieNode) (edge : Edge) (child : Option TrieNode)
    (edge' : Edge) :
    (node.setEdge edge child).child edge' = if edge' = edge then child else node.child edge' := by
  cases edge with
  | level s =>
      cases edge' with
      | level s' =>
          simp only [Edge.level.injEq]
          cases child with
          | some child => exact lookup_setChild node.children s child s'
          | none => exact lookup_removeChild node.children s s'
      | _ => cases child <;> rfl
  | _ => cases edge' <;> rfl

@[simp]
theorem TrieNode.ruleIndexes_setEdge (node : TrieNode) (edge : Edge) (child : Option TrieNode) :
    (node.setEdge edge child).ruleIndexes = node.ruleIndexes := by
  cases edge with
  | level s => cases child <;> rfl
  | _ => rfl

def edgeOf (l : String) : Edge :=
  if l = "+" then .plus else if l = "#" then .hash else .level l

theorem insertLevels_cons (node : TrieNode) (ruleIndex : Nat) (l : String) (ls : List String) :
    insertLevels node ruleIndex (l :: ls) = node.setEdge (edgeOf l)
      (some (insertLevels ((node.child (edgeOf l)).getD default) ruleIndex
        (if l = "#" then [] else ls))) := by
  by_cases hplus : l = "+"
  · subst hplus
    rfl
  · by_cases hhash : l = "#"
    · subst hhash
      rfl
    · simp [insertLevels, edgeOf, hplus, hhash, TrieNode.setEdge, TrieNode.child]

theorem removeFromNode_cons (node : TrieNode) (ruleIndex : Nat) (l : String) (ls : List String) :
    (removeFromNode node ruleIndex (l :: ls)).1 =
      match node.child (edgeOf l) with
      | none => node
      | some child => node.setEdge (edgeOf l)
          (if (removeFromNode child ruleIndex ls).2 then none
            else some (removeFromNode child ruleIndex ls).1) := by
  by_cases hplus : l = "+"
  · subst hplus
    cases hchild : node.plusChild <;> simp [removeFromNode, edgeOf, TrieNode.child, hchild,
      TrieNode.setEdge]
  · by_cases hhash : l = "#"
    · subst hhash
      cases hchild : node.hashChild <;> simp [removeFromNode, edgeOf, TrieNode.child, hchild,
        TrieNode.setEdge]
    · cases hchild : node.children.lookup l with
      | none => simp [removeFromNode, edgeOf, TrieNode.child, hplus, hhash, hchild]
      | some child =>
          simp only [removeFromNode, edgeOf, TrieNode.child, hplus, hhash, hchild,
            TrieNode.setEdge, if_false]
          cases (removeFromNode child ruleIndex ls).2 <;> rfl

-- the flag a removal returns is the emptiness of the node it leaves
theorem removeFromNode_snd (node : TrieNode) (ruleIndex : Nat) (filterLevels : List String) :
    (removeFromNode node ruleIndex filterLevels).2 =
      (removeFromNode node ruleIndex filterLevels).1.isEmpty := by
  cases filterLevels <;> rfl

/-! ## What a trie stores -/

/-- The rule indexes stored under a path. -/
def storedAt (node : TrieNode) : List Edge → Finset Nat
  | [] => node.ruleIndexes
  | e :: es =>
      match node.child e with
      | some child => storedAt child es
      | none => ∅

theorem storedAt_default (path : List Edge) : storedAt default path = ∅ := by
  cases path with
  | nil => rfl
  | cons e es => cases e <;> rfl

theorem storedAt_cons (node : TrieNode) (e : Edge) (es : List Edge) :
    storedAt node (e :: es) = storedAt ((node.child e).getD default) es := by
  rw [storedAt]
  cases node.child e with
  | none => exact (storedAt_default es).symm
  | some child => rfl

-- a node with nothing in it stores nothing below it either
theorem storedAt_of_isEmpty {node : TrieNode} (h : node.isEmpty = true) (path : List Edge) :
    storedAt node path = ∅ := by
  rcases node with ⟨children, plus, hash, indexes⟩
  simp only [TrieNode.isEmpty, Bool.and_eq_true, List.isEmpty_iff, Option.isNone_iff_eq_none,
    decide_eq_true_iff] at h
  rcases h with ⟨⟨⟨hc, hp⟩, hh⟩, hi⟩
  cases hc
  cases hp
  cases hh
  cases hi
  exact storedAt_default path

theorem storedAt_setEdge_nil (node : TrieNode) (edge : Edge) (child : Option TrieNode) :
    storedAt (node.setEdge edge child) [] = storedAt node [] :=
  node.ruleIndexes_setEdge edge child

theorem storedAt_setEdge_cons (node : TrieNode) (edge : Edge) (child : Option TrieNode) (e : Edge)
    (es : List Edge) :
    storedAt (node.setEdge edge child) (e :: es) =
      if e = edge then storedAt (child.getD default) es else storedAt node (e :: es) := by
  rw [storedAt_cons, node.child_setEdge, storedAt_cons node]
  by_cases h : e = edge
  · rw [if_pos h, if_pos h]
  · rw [if_neg h, if_neg h]

theorem filterPath_cons (l : String) (ls : List String) :
    filterPath (l :: ls) = edgeOf l :: filterPath (if l = "#" then [] else ls) := by
  by_cases hplus : l = "+"
  · subst hplus
    rfl
  · by_cases hhash : l = "#"
    · subst hhash
      rfl
    · simp [filterPath, edgeOf, hplus, hhash]

theorem storedAt_insertIndex (node : TrieNode) (ruleIndex : Nat) (path : List Edge) :
    storedAt (node.insertIndex ruleIndex) path =
      if path = [] then insert ruleIndex (storedAt node path) else storedAt node path := by
  cases path with
  | nil => rfl
  | cons e es => cases e <;> rfl

theorem storedAt_eraseIndex (node : TrieNode) (ruleIndex : Nat) (path : List Edge) :
    storedAt (node.eraseIndex ruleIndex) path =
      if path = [] then (storedAt node path).erase ruleIndex else storedAt node path := by
  cases path with
  | nil => rfl
  | cons e es => cases e <;> rfl

/-- Insertion adds the index at the path of the filter and nowhere else. -/
theorem storedAt_insertLevels (node : TrieNode) (ruleIndex : Nat) (filterLevels : List String)
    (path : List Edge) :
    storedAt (insertLevels node ruleIndex filterLevels) path =
      if path = filterPath filterLevels then insert ruleIndex (storedAt node path)
      else storedAt node path := by
  induction filterLevels generalizing node path with
  | nil => exact storedAt_insertIndex node ruleIndex path
  | cons l ls ih =>
      -- below the child the insertion goes on with the levels that still count
      have hchild (child : TrieNode) (es : List Edge) :
          storedAt (insertLevels child ruleIndex (if l = "#" then [] else ls)) es =
            if es = filterPath (if l = "#" then [] else ls) then
              insert ruleIndex (storedAt child es)
            else storedAt child es := by
        by_cases hhash : l = "#"
        · rw [if_pos hhash]
          exact storedAt_insertIndex child ruleIndex es
        · rw [if_neg hhash]
          exact ih child es
      rw [insertLevels_cons, filterPath_cons]
      cases path with
      | nil =>
          rw [storedAt_setEdge_nil]
          rfl
      | cons e es =>
          rw [storedAt_setEdge_cons, Option.getD_some, hchild]
          by_cases he : e = edgeOf l
          · subst he
            rw [if_pos rfl, storedAt_cons node]
            simp only [List.cons.injEq, true_and]
          · rw [if_neg he, if_neg fun h ↦ he (List.cons.inj h).1]

/-- The path a removal walks: it goes on after a `#`. -/
def removalPath (filterLevels : List String) : List Edge := filterLevels.map edgeOf

/-- Removal erases the index at its path and nowhere else: what is pruned stored nothing. -/
theorem storedAt_removeFromNode (node : TrieNode) (ruleIndex : Nat) (filterLevels : List String)
    (path : List Edge) :
    storedAt (removeFromNode node ruleIndex filterLevels).1 path =
      if path = removalPath filterLevels then (storedAt node path).erase ruleIndex
      else storedAt node path := by
  induction filterLevels generalizing node path with
  | nil => exact storedAt_eraseIndex node ruleIndex path
  | cons l ls ih =>
      have hcons : removalPath (l :: ls) = edgeOf l :: removalPath ls := rfl
      rw [removeFromNode_cons, hcons]
      cases hchild : node.child (edgeOf l) with
      | none =>
          -- nothing is stored below a missing child
          by_cases hpath : path = edgeOf l :: removalPath ls
          · have hnone : storedAt node path = ∅ := by rw [hpath, storedAt, hchild]
            rw [if_pos hpath, hnone, Finset.erase_empty]
          · rw [if_neg hpath]
      | some child =>
          have hkept (es : List Edge) : storedAt ((if (removeFromNode child ruleIndex ls).2 = true
              then none else some (removeFromNode child ruleIndex ls).1).getD default) es =
              storedAt (removeFromNode child ruleIndex ls).1 es := by
            by_cases hempty : (removeFromNode child ruleIndex ls).2 = true
            · rw [if_pos hempty, Option.getD_none, storedAt_default]
              rw [removeFromNode_snd] at hempty
              exact (storedAt_of_isEmpty hempty es).symm
            · rw [if_neg hempty, Option.getD_some]
          cases path with
          | nil =>
              rw [storedAt_setEdge_nil, if_neg (List.cons_ne_nil _ _).symm]
          | cons e es =>
              rw [storedAt_setEdge_cons, hkept, ih]
              by_cases he : e = edgeOf l
              · subst he
                rw [if_pos rfl, storedAt_cons node, hchild, Option.getD_some]
                by_cases hes : es = removalPath ls
                · rw [if_pos hes, if_pos (congrArg (List.cons (edgeOf l)) hes)]
                · rw [if_neg hes, if_neg fun h ↦ hes (List.cons.inj h).2]
              · rw [if_neg he, if_neg fun h ↦ he (List.cons.inj h).1]

/-! ## Matching collects the covering paths -/

theorem mem_hashIndexes (node : TrieNode) (i : Nat) :
    i ∈ hashIndexes node ↔ i ∈ storedAt node [.hash] := by
  unfold hashIndexes
  cases hchild : node.hashChild with
  | none => simp [storedAt, TrieNode.child, hchild]
  | some child => simp [storedAt, TrieNode.child, hchild]

theorem mem_below (node : TrieNode) (edge : Edge) {ts : List String} {i : Nat}
    (ih : ∀ child, i ∈ matchNode child ts ↔ ∃ path, i ∈ storedAt child path ∧ Covers path ts) :
    (i ∈ match node.child edge with
      | some child => matchNode child ts
      | none => ∅) ↔ ∃ path, i ∈ storedAt node (edge :: path) ∧ Covers path ts := by
  cases hchild : node.child edge with
  | none => simp [storedAt, hchild]
  | some child =>
      simp only [storedAt, hchild]
      exact ih child

/-- Matching returns the indexes stored under the paths that cover the topic. -/
theorem mem_matchNode (node : TrieNode) (topicLevels : List String) (i : Nat) :
    i ∈ matchNode node topicLevels ↔
      ∃ path, i ∈ storedAt node path ∧ Covers path topicLevels := by
  induction topicLevels generalizing node with
  | nil =>
      rw [matchNode, Finset.mem_union, mem_hashIndexes]
      constructor
      · intro h
        rcases h with hhash | hown
        · exact ⟨[.hash], hhash, trivial⟩
        · exact ⟨[], hown, rfl⟩
      · intro h
        rcases h with ⟨path, hstored, hcovers⟩
        match path, hcovers with
        | [], _ => exact Or.inr hstored
        | [.hash], _ => exact Or.inl hstored
  | cons t ts ih =>
      have hlevel := mem_below node (.level t) ih
      have hplus := mem_below node .plus ih
      rw [matchNode, Finset.mem_union, Finset.mem_union, mem_hashIndexes]
      constructor
      · intro h
        rcases h with (hhash | hbelow) | hbelow
        · exact ⟨[.hash], hhash, trivial⟩
        · obtain ⟨path, hstored, hcovers⟩ := hlevel.mp hbelow
          exact ⟨.level t :: path, hstored, rfl, hcovers⟩
        · obtain ⟨path, hstored, hcovers⟩ := hplus.mp hbelow
          exact ⟨.plus :: path, hstored, hcovers⟩
      · intro h
        rcases h with ⟨path, hstored, hcovers⟩
        match path, hcovers with
        | [.hash], _ => exact Or.inl (Or.inl hstored)
        | .level s :: path, ⟨hs, hbelow⟩ =>
            subst hs
            exact Or.inl (Or.inr (hlevel.mpr ⟨path, hstored, hbelow⟩))
        | .plus :: path, hcovers => exact Or.inr (hplus.mpr ⟨path, hstored, hcovers⟩)

end Tenon.Core
