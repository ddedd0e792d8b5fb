import Tenon.Core.TopicTrie

/-!
# TrieRemoval — what a run of insertions and removals leaves in the trie

Two tries without empty nodes are the same tree as soon as they store the same indexes at every path.
Insertion and removal keep the trie so; a removal undoes its insertion unless the filter has levels
after a `#`, which insertion ignores and removal follows.
-/

namespace Tenon.Core

open TrieNode

/-! ## Tries as trees -/

def nodeAt (node : TrieNode) : List Edge → Option TrieNode
  | [] => some node
  | e :: es => (node.child e).bind fun child ↦ nodeAt child es

/-- The same nodes with the same rule indexes; the order of a child map does not count. -/
def SameTree (a b : TrieNode) : Prop :=
  ∀ path, (nodeAt a path).map ruleIndexes = (nodeAt b path).map ruleIndexes

/-- The same indexes here, the same edges out, and the same tree below each of them. -/
theorem sameTree_iff (a b : TrieNode) :
    SameTree a b ↔
      a.ruleIndexes = b.ruleIndexes ∧ ∀ e, Option.Rel SameTree (a.child e) (b.child e) := by
  constructor
  · intro h
    refine ⟨Option.some.inj (h []), fun e ↦ ?_⟩
    have hbelow (path : List Edge) := h (e :: path)
    simp only [nodeAt] at hbelow
    cases ha : a.child e with
    | none =>
        cases hb : b.child e with
        | none => exact .none
        | some d =>
            have hroot := hbelow []
            rw [ha, hb] at hroot
            cases hroot
    | some c =>
        cases hb : b.child e with
        | none =>
            have hroot := hbelow []
            rw [ha, hb] at hroot
            cases hroot
        | some d =>
            rw [ha, hb] at hbelow
            exact .some hbelow
  · intro h path
    rcases h with ⟨hindexes, hchildren⟩
    cases path with
    | nil => exact congrArg some hindexes
    | cons e es =>
        simp only [nodeAt]
        have hrel := hchildren e
        generalize a.child e = c at hrel ⊢
        generalize b.child e = d at hrel ⊢
        cases hrel with
        | none => rfl
        | some hsame => exact hsame es

/-- No node below this one is empty. -/
def Canonical (node : TrieNode) : Prop :=
  ∀ path n, path ≠ [] → nodeAt node path = some n → n.isEmpty = false

theorem sizeOf_lookup {children : List (String × TrieNode)} {s : String} {child : TrieNode}
    (h : children.lookup s = some child) : sizeOf child < sizeOf children := by
  induction children with
  | nil => cases h
  | cons e rest ih =>
      rcases e with ⟨k, c⟩
      rw [lookup_cons_eq] at h
      split at h
      · cases h
        simp
        omega
      · have hrest := ih h
        simp
        omega

theorem sizeOf_child {node child : TrieNode} {e : Edge} (h : node.child e = some child) :
    sizeOf child < sizeOf node := by
  rcases node with ⟨children, plus, hash, indexes⟩
  cases e with
  | level s =>
      have hlt : sizeOf child < sizeOf children := sizeOf_lookup h
      simp
      omega
  | plus =>
      have hplus : plus = some child := h
      subst hplus
      simp
      omega
  | hash =>
      have hhash : hash = some child := h
      subst hhash
      simp
      omega

theorem isEmpty_iff (node : TrieNode) :
    node.isEmpty = true ↔ node.ruleIndexes = ∅ ∧ ∀ e, node.child e = none := by
  rcases node with ⟨children, plus, hash, indexes⟩
  simp only [isEmpty, Bool.and_eq_true, List.isEmpty_iff, Option.isNone_iff_eq_none,
    decide_eq_true_iff]
  constructor
  · intro h
    rcases h with ⟨⟨⟨hc, hp⟩, hh⟩, hi⟩
    refine ⟨hi, fun e ↦ ?_⟩
    cases e with
    | level s =>
        rw [child, hc]
        rfl
    | plus => exact hp
    | hash => exact hh
  · intro h
    rcases h with ⟨hi, hnone⟩
    refine ⟨⟨⟨?_, hnone .plus⟩, hnone .hash⟩, hi⟩
    cases children with
    | nil => rfl
    | cons e rest =>
        -- the first child is found under its own level
        rcases e with ⟨k, c⟩
        have hfirst : ((k, c) :: rest).lookup k = none := hnone (.level k)
        rw [lookup_cons_eq, if_pos rfl] at hfirst
        cases hfirst

theorem canonical_iff (node : TrieNode) :
    Canonical node ↔
      ∀ e child, node.child e = some child → child.isEmpty = false ∧ Canonical child := by
  constructor
  · intro h e child hchild
    have hstep (path : List Edge) : nodeAt node (e :: path) = nodeAt child path := by
      rw [nodeAt, hchild, Option.bind_some]
    refine ⟨h [e] child (List.cons_ne_nil e []) (hstep []), fun path n _ hn ↦ ?_⟩
    exact h (e :: path) n (List.cons_ne_nil e path) ((hstep path).trans hn)
  · intro h path n hne hn
    cases path with
    | nil => exact absurd rfl hne
    | cons e es =>
        obtain ⟨child, hchild, hbelow⟩ := Option.bind_eq_some_iff.mp hn
        obtain ⟨hnonempty, hcanonical⟩ := h e child hchild
        cases es with
        | nil =>
            cases hbelow
            exact hnonempty
        | cons e' es' => exact hcanonical (e' :: es') n (List.cons_ne_nil e' es') hbelow

theorem canonical_default : Canonical default := by
  rw [canonical_iff]
  intro e child h
  cases e <;> cases h

theorem storedAt_append (node : TrieNode) (path more : List Edge) :
    storedAt node (path ++ more) =
      match nodeAt node path with
      | some n => storedAt n more
      | none => ∅ := by
  induction path generalizing node with
  | nil => rfl
  | cons e es ih =>
      rw [List.cons_append, storedAt, nodeAt]
      cases node.child e with
      | none => rfl
      | some child => exact ih child

/-- Below a canonical node that is not empty some index is stored. -/
theorem Canonical.exists_stored (node : TrieNode) (h : Canonical node)
    (hne : node.isEmpty = false) : ∃ path i, i ∈ storedAt node path := by
  by_cases hindexes : node.ruleIndexes = ∅
  · have hchild : ∃ e child, node.child e = some child := by
      by_contra hnone
      push Not at hnone
      have hempty := (isEmpty_iff node).mpr
        ⟨hindexes, fun e ↦ Option.eq_none_iff_forall_ne_some.mpr (hnone e)⟩
      rw [hempty] at hne
      cases hne
    rcases hchild with ⟨e, child, hchild⟩
    obtain ⟨hnonempty, hcanonical⟩ := (canonical_iff node).mp h e child hchild
    have hsize := sizeOf_child hchild
    obtain ⟨path, i, hi⟩ := Canonical.exists_stored child hcanonical hnonempty
    refine ⟨e :: path, i, ?_⟩
    rw [storedAt, hchild]
    exact hi
  · obtain ⟨i, hi⟩ := Finset.nonempty_iff_ne_empty.mpr hindexes
    exact ⟨[], i, hi⟩
termination_by sizeOf node

theorem Canonical.nodeAt {node n : TrieNode} {path : List Edge} (h : Canonical node)
    (hn : nodeAt node path = some n) : Canonical n := by
  intro more m hne hm
  apply h (path ++ more) m (by simp [hne])
  have happend (p q : List Edge) (a : TrieNode) :
      Core.nodeAt a (p ++ q) = (Core.nodeAt a p).bind fun b ↦ Core.nodeAt b q := by
    induction p generalizing a with
    | nil => rfl
    | cons e es ih =>
        rw [List.cons_append, Core.nodeAt, Core.nodeAt]
        cases a.child e with
        | none => rfl
        | some child => exact ih child
  rw [happend, hn, Option.bind_some, hm]

-- a canonical trie has a node exactly on the way to a stored index
theorem Canonical.isSome_nodeAt {node : TrieNode} (h : Canonical node) (path : List Edge) :
    (Core.nodeAt node path).isSome = true ↔
      path = [] ∨ ∃ more i, i ∈ storedAt node (path ++ more) := by
  constructor
  · intro hsome
    obtain ⟨n, hn⟩ := Option.isSome_iff_exists.mp hsome
    by_cases hpath : path = []
    · exact Or.inl hpath
    · obtain ⟨more, i, hi⟩ := Canonical.exists_stored n (h.nodeAt hn) (h path n hpath hn)
      refine Or.inr ⟨more, i, ?_⟩
      rw [storedAt_append, hn]
      exact hi
  · intro hon
    rcases hon with rfl | ⟨more, i, hi⟩
    · rfl
    · rw [storedAt_append] at hi
      cases hn : Core.nodeAt node path with
      | some n => rfl
      | none =>
          rw [hn] at hi
          exact absurd hi (Finset.notMem_empty i)

theorem map_ruleIndexes_nodeAt (node : TrieNode) (path : List Edge) :
    (nodeAt node path).map ruleIndexes =
      if (nodeAt node path).isSome then some (storedAt node path) else none := by
  have hstored := storedAt_append node path []
  rw [List.append_nil] at hstored
  rw [hstored]
  cases nodeAt node path <;> rfl

/-- Canonical tries that store the same indexes everywhere are the same tree. -/
theorem sameTree_of_storedAt {a b : TrieNode} (ha : Canonical a) (hb : Canonical b)
    (h : ∀ path, storedAt a path = storedAt b path) : SameTree a b := by
  intro path
  have hnodes : (nodeAt a path).isSome = (nodeAt b path).isSome := by
    rw [Bool.eq_iff_iff, ha.isSome_nodeAt, hb.isSome_nodeAt]
    simp only [h]
  rw [map_ruleIndexes_nodeAt, map_ruleIndexes_nodeAt, hnodes, h]

theorem SameTree.storedAt {a b : TrieNode} (h : SameTree a b) (path : List Edge) :
    storedAt a path = storedAt b path := by
  have hread (node : TrieNode) :
      Core.storedAt node path = ((nodeAt node path).map ruleIndexes).getD ∅ := by
    have hstored := storedAt_append node path []
    rw [List.append_nil] at hstored
    rw [hstored]
    cases nodeAt node path <;> rfl
  rw [hread, hread, h path]

/-! ## Both operations keep the trie canonical -/

theorem Canonical.setEdge {node : TrieNode} (h : Canonical node) (edge : Edge)
    {child : Option TrieNode}
    (hchild : ∀ c, child = some c → c.isEmpty = false ∧ Canonical c) :
    Canonical (node.setEdge edge child) := by
  rw [canonical_iff]
  intro e c hc
  rw [child_setEdge] at hc
  split at hc
  · exact hchild c hc
  · exact (canonical_iff node).mp h e c hc

theorem Canonical.getD {node : TrieNode} (h : Canonical node) (edge : Edge) :
    Canonical ((node.child edge).getD default) := by
  cases hchild : node.child edge with
  | none => exact canonical_default
  | some child => exact ((canonical_iff node).mp h edge child hchild).2

theorem isEmpty_insertLevels (node : TrieNode) (ruleIndex : Nat) (filterLevels : List String) :
    (insertLevels node ruleIndex filterLevels).isEmpty = false := by
  have hstored : ruleIndex ∈
      storedAt (insertLevels node ruleIndex filterLevels) (filterPath filterLevels) := by
    rw [storedAt_insertLevels, if_pos rfl]
    exact Finset.mem_insert_self ruleIndex _
  by_contra hempty
  rw [Bool.not_eq_false] at hempty
  rw [storedAt_of_isEmpty hempty] at hstored
  exact absurd hstored (Finset.notMem_empty ruleIndex)

theorem Canonical.insertLevels {node : TrieNode} (h : Canonical node) (ruleIndex : Nat)
    (filterLevels : List String) : Canonical (insertLevels node ruleIndex filterLevels) := by
  induction filterLevels generalizing node with
  | nil =>
      rw [canonical_iff]
      intro e child hchild
      exact (canonical_iff node).mp h e child (by cases e <;> exact hchild)
  | cons l ls ih =>
      rw [insertLevels_cons]
      apply h.setEdge
      intro c hc
      cases hc
      refine ⟨isEmpty_insertLevels _ _ _, ?_⟩
      by_cases hhash : l = "#"
      · rw [if_pos hhash]
        have hbelow := h.getD (edgeOf l)
        rw [canonical_iff] at hbelow ⊢
        intro e child hchild
        exact hbelow e child (by cases e <;> exact hchild)
      · rw [if_neg hhash]
        exact ih (h.getD (edgeOf l))

theorem Canonical.removeFromNode {node : TrieNode} (h : Canonical node) (ruleIndex : Nat)
    (filterLevels : List String) : Canonical (removeFromNode node ruleIndex filterLevels).1 := by
  induction filterLevels generalizing node with
  | nil =>
      rw [canonical_iff]
      intro e child hchild
      exact (canonical_iff node).mp h e child (by cases e <;> exact hchild)
  | cons l ls ih =>
      rw [removeFromNode_cons]
      cases hchild : node.child (edgeOf l) with
      | none => exact h
      | some child =>
          apply h.setEdge
          intro c hc
          split at hc
          · cases hc
          · rename_i hkept
            cases hc
            rw [removeFromNode_snd, Bool.not_eq_true] at hkept
            exact ⟨hkept, ih ((canonical_iff node).mp h _ child hchild).2⟩

/-! ## Runs -/

inductive TrieOp where
  | insert (filter : String) (ruleIndex : Nat)
  | remove (filter : String) (ruleIndex : Nat)
  deriving DecidableEq

namespace TrieOp

def pair : TrieOp → String × Nat
  | .insert filter ruleIndex => (filter, ruleIndex)
  | .remove filter ruleIndex => (filter, ruleIndex)

def apply (trie : TopicTrie) : TrieOp → TopicTrie
  | .insert filter ruleIndex => trie.insert filter ruleIndex
  | .remove filter ruleIndex => trie.remove filter ruleIndex

end TrieOp

-- the pairs inserted and not removed since
def trackPairs (pairs : Finset (String × Nat)) : TrieOp → Finset (String × Nat)
  | .insert filter ruleIndex => insert (filter, ruleIndex) pairs
  | .remove filter ruleIndex => pairs.erase (filter, ruleIndex)

def runTrie (ops : List TrieOp) : TopicTrie := ops.foldl TrieOp.apply TopicTrie.default

def survivors (ops : List TrieOp) : Finset (String × Nat) := ops.foldl trackPairs ∅

def insertAll (pairs : List (String × Nat)) : TopicTrie :=
  runTrie (pairs.map fun p ↦ .insert p.1 p.2)

/-- All operations on a rule index carry one filter. -/
def OneFilter (ops : List TrieOp) : Prop :=
  ∀ a ∈ ops, ∀ b ∈ ops, a.pair.2 = b.pair.2 → a.pair.1 = b.pair.1

/-- What the removals leave is the trie of the surviving pairs alone, inserted in any order. -/
structure RemovalUndoesInsertion (ops : List TrieOp) : Prop where
  same : ∀ pairs, (∀ p, p ∈ pairs ↔ p ∈ survivors ops) →
    SameTree (runTrie ops).root (insertAll pairs).root
  canonical : Canonical (runTrie ops).root
  gone : ∀ i, (∀ filter, (filter, i) ∉ survivors ops) →
    ∀ path, i ∉ storedAt (runTrie ops).root path
  emptied : survivors ops = ∅ → SameTree (runTrie ops).root TopicTrie.default.root

/-- A `#` is the last level of the filter. -/
def HashLast (filter : String) : Prop := "#" ∉ (levels filter).dropLast

instance (filter : String) : Decidable (HashLast filter) := inferInstanceAs (Decidable (_ ∉ _))

/-! ## The two walks of a filter -/

theorem edgeOf_eq_hash {l : String} : edgeOf l = .hash ↔ l = "#" := by
  unfold edgeOf
  split
  · rename_i hplus
    subst hplus
    decide
  · split
    · rename_i hhash
      exact iff_of_true rfl hhash
    · rename_i hhash
      exact iff_of_false (fun h ↦ by cases h) hhash

theorem removalPath_eq_filterPath {fs : List String} (h : "#" ∉ fs.dropLast) :
    removalPath fs = filterPath fs := by
  induction fs with
  | nil => rfl
  | cons l ls ih =>
      rw [filterPath_cons]
      change edgeOf l :: removalPath ls = _
      cases ls with
      | nil =>
          rw [ite_self]
          rfl
      | cons m ms =>
          rw [List.dropLast_cons_cons, List.mem_cons, not_or] at h
          rw [if_neg (Ne.symm h.1), ih h.2]

theorem hash_notMem_filterPath (fs : List String) : Edge.hash ∉ (filterPath fs).dropLast := by
  induction fs with
  | nil => exact List.not_mem_nil
  | cons l ls ih =>
      rw [filterPath_cons]
      by_cases hhash : l = "#"
      · rw [if_pos hhash]
        exact List.not_mem_nil
      · rw [if_neg hhash]
        cases hpath : filterPath ls with
        | nil => exact List.not_mem_nil
        | cons e es =>
            rw [hpath] at ih
            rw [List.dropLast_cons_cons, List.mem_cons, not_or]
            exact ⟨fun h ↦ hhash (edgeOf_eq_hash.mp h.symm), ih⟩

/-- A removal that goes on after a `#` walks no path an insertion can have made. -/
theorem removalPath_ne_filterPath {fs : List String} (h : "#" ∈ fs.dropLast) (gs : List String) :
    removalPath fs ≠ filterPath gs := by
  intro heq
  apply hash_notMem_filterPath gs
  rw [← heq, removalPath, ← List.map_dropLast]
  exact List.mem_map.mpr ⟨"#", h, rfl⟩

/-! ## What a run stores -/

theorem runTrie_concat (ops : List TrieOp) (op : TrieOp) :
    runTrie (ops ++ [op]) = op.apply (runTrie ops) :=
  List.foldl_concat ..

theorem survivors_concat (ops : List TrieOp) (op : TrieOp) :
    survivors (ops ++ [op]) = trackPairs (survivors ops) op :=
  List.foldl_concat ..

theorem OneFilter.of_concat {ops : List TrieOp} {op : TrieOp} (h : OneFilter (ops ++ [op])) :
    OneFilter ops := by
  intro a ha b hb
  exact h a (List.mem_append_left [op] ha) b (List.mem_append_left [op] hb)

theorem canonical_runTrie (ops : List TrieOp) : Canonical (runTrie ops).root := by
  induction ops using List.reverseRecOn with
  | nil => exact canonical_default
  | append_singleton ops op ih =>
      rw [runTrie_concat]
      cases op with
      | insert filter ruleIndex => exact ih.insertLevels ruleIndex (levels filter)
      | remove filter ruleIndex => exact ih.removeFromNode ruleIndex (levels filter)

theorem inserted_of_survives {ops : List TrieOp} {p : String × Nat} (h : p ∈ survivors ops) :
    .insert p.1 p.2 ∈ ops := by
  induction ops using List.reverseRecOn with
  | nil => exact absurd h (Finset.notMem_empty p)
  | append_singleton ops op ih =>
      rw [survivors_concat] at h
      rw [List.mem_append, List.mem_singleton]
      cases op with
      | insert filter ruleIndex =>
          rcases Finset.mem_insert.mp h with rfl | hold
          · exact Or.inr rfl
          · exact Or.inl (ih hold)
      | remove filter ruleIndex => exact Or.inl (ih (Finset.mem_of_mem_erase h))

/-- The pair survives, or its removal misses it. -/
def Stays (ops : List TrieOp) (filter : String) (i : Nat) : Prop :=
  (filter, i) ∈ survivors ops ∨ (.insert filter i ∈ ops ∧ ¬ HashLast filter)

theorem stays_insert (ops : List TrieOp) (filter : String) (ruleIndex : Nat) (g : String) (i : Nat) :
    Stays (ops ++ [.insert filter ruleIndex]) g i ↔
      (g = filter ∧ i = ruleIndex) ∨ Stays ops g i := by
  unfold Stays
  rw [survivors_concat, trackPairs, Finset.mem_insert, Prod.mk.injEq, List.mem_append,
    List.mem_singleton, TrieOp.insert.injEq]
  constructor
  · intro h
    rcases h with (hnew | hold) | ⟨hold | hnew, hhash⟩
    · exact Or.inl hnew
    · exact Or.inr (Or.inl hold)
    · exact Or.inr (Or.inr ⟨hold, hhash⟩)
    · exact Or.inl hnew
  · intro h
    rcases h with hnew | hold | ⟨hold, hhash⟩
    · exact Or.inl (Or.inl hnew)
    · exact Or.inl (Or.inr hold)
    · exact Or.inr ⟨Or.inl hold, hhash⟩

theorem stays_remove (ops : List TrieOp) (filter : String) (ruleIndex : Nat) (g : String) (i : Nat) :
    Stays (ops ++ [.remove filter ruleIndex]) g i ↔
      Stays ops g i ∧ ¬ ((g = filter ∧ i = ruleIndex) ∧ HashLast filter) := by
  unfold Stays
  have hkept : TrieOp.insert g i ∈ ops ++ [.remove filter ruleIndex] ↔ .insert g i ∈ ops := by simp
  rw [survivors_concat, trackPairs, Finset.mem_erase, ne_eq, Prod.mk.injEq, hkept]
  constructor
  · intro h
    rcases h with ⟨hne, hold⟩ | ⟨hold, hhash⟩
    · exact ⟨Or.inl hold, fun h ↦ hne h.1⟩
    · refine ⟨Or.inr ⟨hold, hhash⟩, fun h ↦ hhash ?_⟩
      rw [h.1.1]
      exact h.2
  · intro h
    rcases h with ⟨hold | hold, hne⟩
    · by_cases heq : g = filter ∧ i = ruleIndex
      · -- the removed pair was inserted, and its filter goes on after a `#`
        refine Or.inr ⟨inserted_of_survives hold, fun hhash ↦ hne ⟨heq, ?_⟩⟩
        rwa [← heq.1]
      · exact Or.inl ⟨heq, hold⟩
    · exact Or.inr hold

theorem Stays.inserted {ops : List TrieOp} {filter : String} {i : Nat} (h : Stays ops filter i) :
    .insert filter i ∈ ops := by
  rcases h with h | h
  · exact inserted_of_survives h
  · exact h.1

/-- A run stores an index exactly at the paths of the filters it stays with. -/
theorem mem_storedAt_runTrie {ops : List TrieOp} (hone : OneFilter ops) (path : List Edge)
    (i : Nat) :
    i ∈ storedAt (runTrie ops).root path ↔
      ∃ filter, filterPath (levels filter) = path ∧ Stays ops filter i := by
  induction ops using List.reverseRecOn with
  | nil =>
      have hnone : storedAt (runTrie []).root path = ∅ := storedAt_default path
      rw [hnone]
      constructor
      · intro h
        exact absurd h (Finset.notMem_empty i)
      · intro h
        rcases h with ⟨filter, -, h⟩
        exact absurd h.inserted List.not_mem_nil
  | append_singleton ops op ih =>
      specialize ih hone.of_concat
      rw [runTrie_concat]
      cases op with
      | insert filter ruleIndex =>
          have hstored : i ∈ storedAt (TrieOp.apply (runTrie ops) (.insert filter ruleIndex)).root
              path ↔ (filterPath (levels filter) = path ∧ i = ruleIndex) ∨
                i ∈ storedAt (runTrie ops).root path := by
            change i ∈ storedAt (insertLevels (runTrie ops).root ruleIndex (levels filter)) path ↔ _
            rw [storedAt_insertLevels]
            split
            · rename_i hpath
              simp [hpath]
            · rename_i hpath
              simp [Ne.symm hpath]
          rw [hstored, ih]
          simp only [stays_insert]
          constructor
          · intro h
            rcases h with ⟨hpath, hi⟩ | ⟨g, hpath, hstays⟩
            · exact ⟨filter, hpath, Or.inl ⟨rfl, hi⟩⟩
            · exact ⟨g, hpath, Or.inr hstays⟩
          · intro h
            rcases h with ⟨g, hpath, ⟨rfl, hi⟩ | hstays⟩
            · exact Or.inl ⟨hpath, hi⟩
            · exact Or.inr ⟨g, hpath, hstays⟩
      | remove filter ruleIndex =>
          have hstored : i ∈ storedAt (TrieOp.apply (runTrie ops) (.remove filter ruleIndex)).root
              path ↔ i ∈ storedAt (runTrie ops).root path ∧
                ¬ (path = removalPath (levels filter) ∧ i = ruleIndex) := by
            change i ∈ storedAt (removeFromNode (runTrie ops).root ruleIndex (levels filter)).1 path
              ↔ _
            rw [storedAt_removeFromNode]
            split
            · rename_i hpath
              rw [Finset.mem_erase]
              simp [hpath, and_comm]
            · rename_i hpath
              simp [hpath]
          rw [hstored, ih]
          simp only [stays_remove]
          constructor
          · intro h
            rcases h with ⟨⟨g, hpath, hstays⟩, hne⟩
            refine ⟨g, hpath, hstays, fun hremoved ↦ hne ⟨?_, hremoved.1.2⟩⟩
            rw [← hpath, hremoved.1.1, removalPath_eq_filterPath hremoved.2]
          · intro h
            rcases h with ⟨g, hpath, hstays, hne⟩
            refine ⟨⟨g, hpath, hstays⟩, fun hremoved ↦ hne ⟨⟨?_, hremoved.2⟩, ?_⟩⟩
            · -- both operations are about the same index, so they carry the same filter
              exact hone (.insert g i) (List.mem_append_left _ hstays.inserted)
                (.remove filter ruleIndex) (List.mem_append_right _ List.mem_cons_self) hremoved.2
            · by_contra hhash
              rw [HashLast, not_not] at hhash
              exact removalPath_ne_filterPath hhash (levels g) (by rw [hpath, hremoved.1])

/-! ## The claim of the removals -/

theorem storedAt_insertAll (pairs : List (String × Nat)) (path : List Edge) (i : Nat) :
    i ∈ storedAt (insertAll pairs).root path ↔
      ∃ filter, filterPath (levels filter) = path ∧ (filter, i) ∈ pairs := by
  unfold insertAll
  induction pairs using List.reverseRecOn with
  | nil =>
      have hnone : storedAt (runTrie []).root path = ∅ := storedAt_default path
      rw [List.map_nil, hnone]
      simp
  | append_singleton pairs p ih =>
      rw [List.map_append, List.map_singleton, runTrie_concat]
      change i ∈ storedAt (insertLevels _ p.2 (levels p.1)) path ↔ _
      rw [storedAt_insertLevels]
      have hmem (filter : String) : (filter, i) ∈ pairs ++ [p] ↔
          (filter, i) ∈ pairs ∨ (filter = p.1 ∧ i = p.2) := by
        rw [List.mem_append, List.mem_singleton, Prod.ext_iff]
      simp only [hmem]
      split
      · rename_i hpath
        rw [Finset.mem_insert, ih]
        constructor
        · intro h
          rcases h with hi | ⟨filter, hfilter, hold⟩
          · exact ⟨p.1, hpath.symm, Or.inr ⟨rfl, hi⟩⟩
          · exact ⟨filter, hfilter, Or.inl hold⟩
        · intro h
          rcases h with ⟨filter, hfilter, hold | ⟨-, hi⟩⟩
          · exact Or.inr ⟨filter, hfilter, hold⟩
          · exact Or.inl hi
      · rename_i hpath
        rw [ih]
        constructor
        · intro h
          rcases h with ⟨filter, hfilter, hold⟩
          exact ⟨filter, hfilter, Or.inl hold⟩
        · intro h
          rcases h with ⟨filter, hfilter, hold | ⟨rfl, -⟩⟩
          · exact ⟨filter, hfilter, hold⟩
          · exact absurd hfilter.symm hpath

/-- Removals undo their insertions exactly when every pair that was removed for good has a filter
with nothing after a `#`. -/
theorem removalUndoesInsertion_iff {ops : List TrieOp} (hone : OneFilter ops) :
    RemovalUndoesInsertion ops ↔
      ∀ filter i, .insert filter i ∈ ops → (filter, i) ∉ survivors ops → HashLast filter := by
  constructor
  · intro h filter i hinserted hremoved
    by_contra hhash
    have hstored : i ∈ storedAt (runTrie ops).root (filterPath (levels filter)) :=
      (mem_storedAt_runTrie hone _ i).mpr ⟨filter, rfl, Or.inr ⟨hinserted, hhash⟩⟩
    have hsame := h.same (survivors ops).toList fun p ↦ Finset.mem_toList
    rw [hsame.storedAt, storedAt_insertAll] at hstored
    obtain ⟨g, -, hg⟩ := hstored
    rw [Finset.mem_toList] at hg
    -- the index survives under another filter, which no operation gave it
    have hfilter : g = filter :=
      hone _ (inserted_of_survives hg) (.insert filter i) hinserted rfl
    exact hremoved (hfilter ▸ hg)
  · intro hcond
    have hstays (filter : String) (i : Nat) : Stays ops filter i ↔ (filter, i) ∈ survivors ops := by
      constructor
      · intro h
        by_contra hremoved
        rcases h with hsurvives | ⟨hinserted, hhash⟩
        · exact hremoved hsurvives
        · exact hhash (hcond filter i hinserted hremoved)
      · exact Or.inl
    have hstored (path : List Edge) (i : Nat) : i ∈ storedAt (runTrie ops).root path ↔
        ∃ filter, filterPath (levels filter) = path ∧ (filter, i) ∈ survivors ops := by
      rw [mem_storedAt_runTrie hone]
      simp only [hstays]
    apply RemovalUndoesInsertion.mk
    · intro pairs hpairs
      apply sameTree_of_storedAt (canonical_runTrie ops) (canonical_runTrie _)
      intro path
      ext i
      rw [hstored]
      change _ ↔ i ∈ storedAt (insertAll pairs).root path
      rw [storedAt_insertAll]
      simp only [hpairs]
    · exact canonical_runTrie ops
    · intro i hgone path hi
      obtain ⟨filter, -, hsurvives⟩ := (hstored path i).mp hi
      exact hgone filter hsurvives
    · intro hempty
      apply sameTree_of_storedAt (canonical_runTrie ops) canonical_default
      intro path
      rw [storedAt_default]
      ext i
      rw [hstored, hempty]
      simp

theorem removalUndoesInsertion_demo :
    OneFilter [.insert "a/#" 0, .insert "a/#/b" 1, .remove "a/#" 0] ∧
      RemovalUndoesInsertion [.insert "a/#" 0, .insert "a/#/b" 1, .remove "a/#" 0] := by
  have hone : OneFilter [.insert "a/#" 0, .insert "a/#/b" 1, .remove "a/#" 0] := by
    unfold OneFilter
    decide
  refine ⟨hone, (removalUndoesInsertion_iff hone).mpr ?_⟩
  intro filter i hinserted hremoved
  rcases List.mem_cons.mp hinserted with h | h
  · cases h
    decide
  · rcases List.mem_cons.mp h with h | h
    · cases h
      exact absurd (by decide +kernel) hremoved
    · simp at h

/-- The removal of `a/#/b` looks for a node below the `#` and leaves the index where it was. -/
theorem not_removalUndoesInsertion_belowHash :
    OneFilter [.insert "a/#/b" 0, .remove "a/#/b" 0] ∧
      ¬ RemovalUndoesInsertion [.insert "a/#/b" 0, .remove "a/#/b" 0] := by
  constructor
  · unfold OneFilter
    decide
  · intro h
    have hnone : survivors [.insert "a/#/b" 0, .remove "a/#/b" 0] = ∅ := by decide +kernel
    apply h.gone 0 _ [.level "a", .hash]
    · decide +kernel
    · intro filter hsurvives
      rw [hnone] at hsurvives
      exact Finset.notMem_empty _ hsurvives

end Tenon.Core
