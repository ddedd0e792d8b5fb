import Mathlib.Data.List.Perm.Basic
import Tenon.Core.RuleEngine
import Tenon.Reasoning.XorLinear

/-!
# CacheRuns — the representation of the topic cache along its runs

The list of keys and the map of entries hold the same topics, within the capacity, and the random
state is never zero, from where the generator goes through all the others.  A lookup that inserts at
capacity evicts one entry and leaves the others as they are.
-/

open Reasoning Reasoning.Transition

namespace Tenon.Core

namespace TopicMatchCache

variable {T : Type}

/-! ## The generator -/

-- the state after a draw
def nextState (x : UInt64) : UInt64 :=
  let x := x ^^^ (x >>> 12)
  let x := x ^^^ (x <<< 25)
  x ^^^ (x >>> 27)

theorem nextRandomU64_eq (cache : TopicMatchCache T) :
    cache.nextRandomU64 = (nextState cache.randomState * 0x2545f4914f6cdd1d,
      { cache with randomState := nextState cache.randomState }) :=
  rfl

theorem xorLinear_nextState : XorLinear nextState := by
  have hright (k : UInt64) : XorLinear fun x ↦ x ^^^ (x >>> k) :=
    xorLinear_id.xor (xorLinear_shiftRight k)
  have hleft (k : UInt64) : XorLinear fun x ↦ x ^^^ (x <<< k) :=
    xorLinear_id.xor (xorLinear_shiftLeft k)
  exact (hright 27).comp ((hleft 25).comp (hright 12))

-- the characteristic polynomial of the step
def statePoly : Nat := 0x10018b73aa7cc9b71

theorem annihilates_nextState : Annihilates statePoly nextState where
  degree := rfl
  zero := by
    apply (xorLinear_act xorLinear_nextState 65 statePoly).eq_zero_of_basis
    decide +kernel

theorem fullOrder_statePoly : FullOrder statePoly where
  power := by decide +kernel
  units q hq := by
    simp only [List.mem_cons, List.not_mem_nil, or_false] at hq
    rcases hq with rfl | rfl | rfl | rfl | rfl | rfl | rfl
    · exact ⟨0x60e71579575698b8, by decide +kernel⟩
    · exact ⟨0x2dfd563d8df4dacb, by decide +kernel⟩
    · exact ⟨0x0e1abb9b6d5614b7, by decide +kernel⟩
    · exact ⟨0x1934106f6e3c47a3, by decide +kernel⟩
    · exact ⟨0x52d7e7e1fc2212ef, by decide +kernel⟩
    · exact ⟨0x6e23c80b59c2baa2, by decide +kernel⟩
    · exact ⟨0x77bd2fdf157c6fc9, by decide +kernel⟩

theorem iterate_nextState_ne_zero {x : UInt64} (hx : x ≠ 0) (n : Nat) : nextState^[n] x ≠ 0 :=
  iterate_ne_zero xorLinear_nextState annihilates_nextState fullOrder_statePoly hx n

theorem randomState_nextRandomU64 {cache : TopicMatchCache T} (h : cache.randomState ≠ 0) :
    cache.nextRandomU64.2.randomState ≠ 0 :=
  iterate_nextState_ne_zero h 1

theorem nextState_ne_self {x : UInt64} (hx : x ≠ 0) : nextState x ≠ x := by
  intro hfixed
  have hperiod := minimalPeriod_eq xorLinear_nextState annihilates_nextState fullOrder_statePoly hx
  rw [Function.minimalPeriod_eq_one_iff_isFixedPt.mpr hfixed] at hperiod
  exact absurd hperiod (by decide)

theorem nextState_injective : Function.Injective nextState := by
  intro x y heq
  -- a difference that the step takes to zero is zero
  have hdiff : nextState (x ^^^ y) = 0 := by
    rw [xorLinear_nextState, heq, UInt64.xor_self]
  by_contra hne
  exact iterate_nextState_ne_zero (mt UInt64.xor_eq_zero_iff.mp hne) 1 hdiff

-- the multiplier is odd
theorem mul_multiplier (x : UInt64) : x * 0x2545f4914f6cdd1d * 0x59071d96d81ecd35 = x := by
  have hinverse : (0x2545f4914f6cdd1d * 0x59071d96d81ecd35 : UInt64) = 1 := by decide +kernel
  rw [UInt64.mul_assoc, hinverse, UInt64.mul_one]

theorem multiplier_mul (x : UInt64) : x * 0x59071d96d81ecd35 * 0x2545f4914f6cdd1d = x := by
  rw [UInt64.mul_assoc, UInt64.mul_comm 0x59071d96d81ecd35, ← UInt64.mul_assoc, mul_multiplier]

def afterDraws (cache : TopicMatchCache T) : Nat → TopicMatchCache T
  | 0 => cache
  | n + 1 => (afterDraws cache n).nextRandomU64.2

/-- The number drawn after `n` others. -/
def drawn (cache : TopicMatchCache T) (n : Nat) : UInt64 :=
  (afterDraws cache n).nextRandomU64.1

theorem drawn_eq (cache : TopicMatchCache T) (n : Nat) :
    cache.drawn n = nextState^[n + 1] cache.randomState * 0x2545f4914f6cdd1d := by
  have hstate : (afterDraws cache n).randomState = nextState^[n] cache.randomState := by
    induction n with
    | zero => rfl
    | succ n ih =>
        rw [Function.iterate_succ_apply', ← ih]
        rfl
  rw [drawn, nextRandomU64_eq, hstate, Function.iterate_succ_apply']

-- every number but zero is drawn
theorem exists_drawn {cache : TopicMatchCache T} (h : cache.randomState ≠ 0) {x : UInt64}
    (hx : x ≠ 0) : ∃ n, cache.drawn n = x := by
  have htarget : x * 0x59071d96d81ecd35 ≠ 0 := by
    intro hzero
    apply hx
    rw [← multiplier_mul x, hzero, UInt64.zero_mul]
  have hnext : nextState cache.randomState ≠ 0 := iterate_nextState_ne_zero h 1
  obtain ⟨n, hn⟩ := exists_iterate_eq xorLinear_nextState annihilates_nextState fullOrder_statePoly
    hnext htarget
  exists n
  rw [drawn_eq, Function.iterate_succ_apply, hn, multiplier_mul]

/-- What a draw does: the state moves and stays away from zero, the number drawn follows the state, and
whatever the number of keys, each index comes up sooner or later. -/
structure DrawSpec (cache : TopicMatchCache T) : Prop where
  state : cache.nextRandomU64.2.randomState ≠ 0
  moves : cache.nextRandomU64.2.randomState ≠ cache.randomState
  follows : ∀ other : TopicMatchCache T, other.randomState ≠ cache.randomState →
    other.nextRandomU64.1 ≠ cache.nextRandomU64.1
  anyIndex : ∀ length index, index < length → length < 2 ^ 64 →
    ∃ n, (cache.drawn n).toNat % length = index

theorem drawSpec {cache : TopicMatchCache T} (h : cache.randomState ≠ 0) : DrawSpec cache where
  state := randomState_nextRandomU64 h
  moves := nextState_ne_self h
  follows other hother := by
    intro heq
    apply hother
    apply nextState_injective
    rw [← mul_multiplier (nextState other.randomState), ← mul_multiplier (nextState cache.randomState)]
    exact congrArg (· * 0x59071d96d81ecd35) heq
  anyIndex length index hindex hlength := by
    -- index zero is that of the number of keys itself
    obtain ⟨m, hpos, hlt, hmod⟩ : ∃ m, 0 < m ∧ m < 2 ^ 64 ∧ m % length = index := by
      rcases Nat.eq_zero_or_pos index with rfl | hpos
      · exact ⟨length, hindex, hlength, Nat.mod_self length⟩
      · exact ⟨index, hpos, by omega, Nat.mod_eq_of_lt hindex⟩
    have hnat : (UInt64.ofNat m).toNat = m := UInt64.toNat_ofNat_of_lt' hlt
    have hne : UInt64.ofNat m ≠ 0 := by
      intro hzero
      rw [hzero, UInt64.toNat_zero] at hnat
      omega
    obtain ⟨n, hn⟩ := exists_drawn h hne
    exact ⟨n, by rw [hn, hnat, hmod]⟩

/-! ## Taking out one key -/

/-- An index in range takes out the key there and keeps the others. -/
theorem exists_swapRemove {keys : List String} {index : Nat} (h : index < keys.length) :
    ∃ key rest, keys[index]? = some key ∧ swapRemove keys index = some (key, rest) ∧
      (key :: rest).Perm keys := by
  have hlast : keys.getLast? = some (keys.getLast (List.ne_nil_of_length_pos (by omega))) :=
    List.getLast?_eq_some_getLast _
  unfold swapRemove
  rw [List.getElem?_eq_getElem h, hlast]
  refine ⟨_, _, rfl, rfl, ?_⟩
  generalize hl : keys.getLast _ = last
  have hkeys : keys.dropLast ++ [last] = keys := by rw [← hl, List.dropLast_append_getLast]
  have hlen := congrArg List.length hkeys
  rw [List.length_append, List.length_singleton] at hlen
  generalize keys.dropLast = front at hkeys hlen
  subst hkeys
  rcases Nat.lt_or_ge index front.length with hlt | hge
  · -- the last key moves to the index
    rw [List.getElem_append_left hlt, List.set_append_left index _ hlt, List.dropLast_concat]
    have hset := List.set_perm_cons_eraseIdx hlt last
    have hget := List.getElem_cons_eraseIdx_perm hlt
    calc (front[index] :: front.set index last).Perm (front[index] :: last :: front.eraseIdx index) :=
          hset.cons _
      _ |>.Perm (last :: front[index] :: front.eraseIdx index) := List.Perm.swap ..
      _ |>.Perm (last :: front) := hget.cons _
      _ |>.Perm (front ++ [last]) := (List.perm_append_singleton last front).symm
  · -- the key is the last one itself
    have hindex : index = front.length := by omega
    subst hindex
    simp only [List.getElem_append_right (Nat.le_refl _), Nat.sub_self, List.getElem_singleton,
      List.set_append_right _ _ (Nat.le_refl _), List.set_cons_zero, List.dropLast_concat]
    exact (List.perm_append_singleton last front).symm

/-! ## The representation -/

/-- The keys list the topics of the entries once each, within the capacity. -/
structure Represents (capacity : Nat) (cache : TopicMatchCache T) : Prop where
  hcapacity : cache.capacity = capacity
  nodup : cache.keys.Nodup
  mem_keys : ∀ topic, topic ∈ cache.keys ↔ topic ∈ cache.entries
  bounded : cache.entries.keys.length ≤ capacity
  state : cache.randomState ≠ 0

theorem represents_new (capacity : Nat) : Represents capacity (new (T := T) capacity) where
  hcapacity := rfl
  nodup := List.nodup_nil
  mem_keys topic := by simp [new]
  bounded := Nat.zero_le capacity
  state := by simp [new, initialState]

theorem Represents.clear {capacity : Nat} {cache : TopicMatchCache T}
    (h : Represents capacity cache) : Represents capacity cache.clear where
  hcapacity := h.hcapacity
  nodup := List.nodup_nil
  mem_keys topic := by simp [TopicMatchCache.clear]
  bounded := Nat.zero_le capacity
  state := by simp [TopicMatchCache.clear, initialState]

theorem Represents.length_keys {capacity : Nat} {cache : TopicMatchCache T}
    (h : Represents capacity cache) : cache.keys.length = cache.entries.keys.length := by
  apply List.Perm.length_eq
  exact (List.perm_ext_iff_of_nodup h.nodup cache.entries.keys_nodup).mpr h.mem_keys

/-- A cache that is full and has room at all holds a key. -/
theorem Represents.keys_ne_nil {capacity : Nat} {cache : TopicMatchCache T}
    (h : Represents capacity cache) (hpos : 0 < cache.capacity)
    (hfull : cache.capacity ≤ cache.entries.keys.length) : cache.keys ≠ [] := by
  apply List.ne_nil_of_length_pos
  rw [h.length_keys]
  exact hpos.trans_le hfull

/-- Eviction takes one of the entries out, at an index within the keys. -/
theorem Represents.evictRandom {capacity : Nat} {cache : TopicMatchCache T}
    (h : Represents capacity cache) (hne : cache.keys ≠ []) :
    ∃ key, cache.keys[cache.nextRandomU64.1.toNat % cache.keys.length]? = some key ∧
      key ∈ cache.entries ∧ cache.evictRandom.entries = cache.entries.erase key ∧
      cache.evictRandom.entries.keys.length + 1 = cache.entries.keys.length ∧
      cache.evictRandom.randomState = cache.nextRandomU64.2.randomState ∧
      Represents capacity cache.evictRandom := by
  have hrange : cache.nextRandomU64.1.toNat % cache.keys.length < cache.keys.length :=
    Nat.mod_lt _ (List.length_pos_iff.mpr hne)
  obtain ⟨key, rest, hkey, hswap, hperm⟩ := exists_swapRemove hrange
  have hevict : cache.evictRandom =
      { cache.nextRandomU64.2 with keys := rest, entries := cache.entries.erase key } := by
    -- drawing a number changes the state of the generator alone
    have hkeys : cache.nextRandomU64.2.keys = cache.keys := rfl
    rw [TopicMatchCache.evictRandom, if_neg hne]
    dsimp only
    rw [hkeys, hswap]
    rfl
  have hentry : key ∈ cache.entries := (h.mem_keys key).mp (hperm.subset List.mem_cons_self)
  have hnodup := hperm.nodup_iff.mpr h.nodup
  rw [List.nodup_cons] at hnodup
  have hlen : (cache.entries.erase key).keys.length + 1 = cache.entries.keys.length := by
    have hpos : 0 < cache.entries.keys.length := List.length_pos_of_mem hentry
    rw [AList.keys_erase, List.length_erase_of_mem hentry]
    omega
  refine ⟨key, hkey, hentry, by rw [hevict], by rw [hevict]; exact hlen, by rw [hevict], ?_⟩
  rw [hevict]
  constructor
  · exact h.hcapacity
  · exact hnodup.2
  · intro topic
    rw [AList.mem_erase, ← h.mem_keys topic, ← hperm.mem_iff, List.mem_cons]
    constructor
    · intro hrest
      exact ⟨fun heq ↦ hnodup.1 (heq ▸ hrest), Or.inr hrest⟩
    · intro hkept
      exact hkept.2.resolve_left hkept.1
  · have hbound := h.bounded
    change (cache.entries.erase key).keys.length ≤ capacity
    omega
  · exact randomState_nextRandomU64 h.state

-- a new topic goes after the last key
theorem Represents.push {capacity : Nat} {cache : TopicMatchCache T} (h : Represents capacity cache)
    {topic : String} (hnew : topic ∉ cache.entries) (hroom : cache.entries.keys.length < capacity)
    (matched : T) :
    Represents capacity
      { cache with keys := cache.keys ++ [topic], entries := cache.entries.insert topic matched } where
  hcapacity := h.hcapacity
  nodup := by
    rw [← List.concat_eq_append, List.nodup_concat]
    exact ⟨fun hold ↦ hnew ((h.mem_keys topic).mp hold), h.nodup⟩
  mem_keys t := by
    rw [List.mem_append, List.mem_singleton, AList.mem_insert, h.mem_keys t, or_comm]
  bounded := by
    change ((cache.entries.insert topic matched).keys).length ≤ capacity
    rw [AList.keys_insert, List.length_cons, List.erase_of_not_mem hnew]
    omega
  state := h.state

/-! ## Lookups -/

/-- What a lookup returns, what it keeps and what it evicts. -/
structure LookupSpec (cache : TopicMatchCache T) (topic : String) (build : Unit → T) : Prop where
  value : (cache.getOrInsertWith topic build).1 = (cache.entries.lookup topic).getD (build ())
  hit : topic ∈ cache.entries → (cache.getOrInsertWith topic build).2 = cache
  present : 0 < cache.capacity → (cache.getOrInsertWith topic build).2.entries.lookup topic =
    some (cache.getOrInsertWith topic build).1
  room : cache.entries.keys.length < cache.capacity → ∀ t, t ≠ topic →
    (cache.getOrInsertWith topic build).2.entries.lookup t = cache.entries.lookup t
  evicts : topic ∉ cache.entries → 0 < cache.capacity →
    cache.entries.keys.length = cache.capacity →
      ∃ key, cache.keys[cache.nextRandomU64.1.toNat % cache.keys.length]? = some key ∧
        key ∈ cache.entries ∧ ∀ t, t ≠ topic →
          (cache.getOrInsertWith topic build).2.entries.lookup t =
            if t = key then none else cache.entries.lookup t
  draws : (cache.getOrInsertWith topic build).2.randomState =
    if topic ∉ cache.entries ∧ 0 < cache.capacity ∧ cache.entries.keys.length = cache.capacity then
      cache.nextRandomU64.2.randomState
    else cache.randomState

/-- A lookup hits, finds a cache of capacity zero, adds the topic where there is room, or evicts an
entry first. -/
theorem getOrInsertWith_cases (cache : TopicMatchCache T) (topic : String) (build : Unit → T) :
    (∃ v, cache.entries.lookup topic = some v ∧
        cache.getOrInsertWith topic build = (v, cache)) ∨
      (topic ∉ cache.entries ∧ cache.capacity = 0 ∧
        cache.getOrInsertWith topic build = (build (), cache)) ∨
      (topic ∉ cache.entries ∧ cache.entries.keys.length < cache.capacity ∧
        cache.getOrInsertWith topic build = (build (), { cache with
          keys := cache.keys ++ [topic], entries := cache.entries.insert topic (build ()) })) ∨
      (topic ∉ cache.entries ∧ 0 < cache.capacity ∧ cache.capacity ≤ cache.entries.keys.length ∧
        cache.getOrInsertWith topic build = (build (), { cache.evictRandom with
          keys := cache.evictRandom.keys ++ [topic],
          entries := cache.evictRandom.entries.insert topic (build ()) })) := by
  cases hlookup : cache.entries.lookup topic with
  | some v =>
      refine Or.inl ⟨v, rfl, ?_⟩
      rw [getOrInsertWith, hlookup]
  | none =>
      have hnew : topic ∉ cache.entries := AList.lookup_eq_none.mp hlookup
      right
      rcases Nat.eq_zero_or_pos cache.capacity with hzero | hpos
      · refine Or.inl ⟨hnew, hzero, ?_⟩
        rw [getOrInsertWith, hlookup]
        dsimp only
        rw [insert, if_pos hzero]
      · right
        have hne : cache.capacity ≠ 0 := Nat.pos_iff_ne_zero.mp hpos
        rcases Nat.lt_or_ge cache.entries.keys.length cache.capacity with hfree | hfull
        · refine Or.inl ⟨hnew, hfree, ?_⟩
          rw [getOrInsertWith, hlookup]
          dsimp only
          rw [insert, if_neg hne, hlookup, if_neg (Nat.not_le.mpr hfree)]
          rfl
        · refine Or.inr ⟨hnew, hpos, hfull, ?_⟩
          rw [getOrInsertWith, hlookup]
          dsimp only
          rw [insert, if_neg hne, hlookup, if_pos hfull]
          rfl

theorem Represents.getOrInsertWith {capacity : Nat} {cache : TopicMatchCache T}
    (h : Represents capacity cache) (topic : String) (build : Unit → T) :
    Represents capacity (cache.getOrInsertWith topic build).2 := by
  have hcapacity := h.hcapacity
  have hbound := h.bounded
  rcases getOrInsertWith_cases cache topic build with
    ⟨v, -, hget⟩ | ⟨-, -, hget⟩ | ⟨hnew, hfree, hget⟩ | ⟨hnew, hpos, hfull, hget⟩
  · rw [hget]
    exact h
  · rw [hget]
    exact h
  · rw [hget]
    exact h.push hnew (by omega) (build ())
  · rw [hget]
    obtain ⟨key, -, -, hentries, hlen, -, hrep⟩ := h.evictRandom (h.keys_ne_nil hpos hfull)
    apply hrep.push
    · rw [hentries, AList.mem_erase]
      exact fun hold ↦ hnew hold.2
    · omega

theorem Represents.lookupSpec {capacity : Nat} {cache : TopicMatchCache T}
    (h : Represents capacity cache) (topic : String) (build : Unit → T) :
    LookupSpec cache topic build := by
  have hcapacity := h.hcapacity
  have hbound := h.bounded
  rcases getOrInsertWith_cases cache topic build with
    ⟨v, hv, hget⟩ | ⟨hnew, hzero, hget⟩ | ⟨hnew, hfree, hget⟩ | ⟨hnew, hpos, hfull, hget⟩
  · have hmem : topic ∈ cache.entries := by
      rw [← AList.lookup_isSome, hv]
      rfl
    constructor
    · rw [hget, hv]
      rfl
    · intro _
      rw [hget]
    · intro _
      rw [hget, hv]
    · intro _ t _
      rw [hget]
    · intro hnew
      exact absurd hmem hnew
    · rw [hget, if_neg fun hevicts ↦ hevicts.1 hmem]
  · constructor
    · rw [hget, AList.lookup_eq_none.mpr hnew]
      rfl
    · intro hmem
      exact absurd hmem hnew
    · intro hpos
      omega
    · intro _ t _
      rw [hget]
    · intro _ hpos
      omega
    · rw [hget, if_neg fun hevicts ↦ by omega]
  · constructor
    · rw [hget, AList.lookup_eq_none.mpr hnew]
      rfl
    · intro hmem
      exact absurd hmem hnew
    · intro _
      rw [hget]
      exact AList.lookup_insert _
    · intro _ t ht
      rw [hget]
      exact AList.lookup_insert_ne ht
    · intro _ _ hfull
      omega
    · rw [hget, if_neg fun hevicts ↦ by omega]
  · obtain ⟨key, hkey, hentry, hentries, -, hstate, -⟩ := h.evictRandom (h.keys_ne_nil hpos hfull)
    constructor
    · rw [hget, AList.lookup_eq_none.mpr hnew]
      rfl
    · intro hmem
      exact absurd hmem hnew
    · intro _
      rw [hget]
      exact AList.lookup_insert _
    · intro hfree
      omega
    · intro _ _ _
      refine ⟨key, hkey, hentry, fun t ht ↦ ?_⟩
      rw [hget]
      change (cache.evictRandom.entries.insert topic (build ())).lookup t = _
      rw [AList.lookup_insert_ne ht, hentries]
      by_cases heq : t = key
      · rw [if_pos heq, heq, AList.lookup_erase]
      · rw [if_neg heq, AList.lookup_erase_ne heq]
    · rw [hget, if_pos ⟨hnew, hpos, by omega⟩]
      exact hstate

/-! ## Runs -/

inductive CacheOp (T : Type) where
  | getOrInsertWith (topic : String) (build : Unit → T)
  | clear

def CacheOp.apply (cache : TopicMatchCache T) : CacheOp T → TopicMatchCache T
  | .getOrInsertWith topic build => (cache.getOrInsertWith topic build).2
  | .clear => cache.clear

def cacheSystem (T : Type) (capacity : Nat) : System (TopicMatchCache T) (CacheOp T) where
  init := new capacity
  step cache op := some (op.apply cache)

theorem represents_reachable {capacity : Nat} {cache : TopicMatchCache T}
    (h : (cacheSystem T capacity).Reachable cache) : Represents capacity cache := by
  apply h.invariant (represents_new capacity)
  intro s op t hs hstep
  cases hstep
  cases op with
  | getOrInsertWith topic build => exact hs.getOrInsertWith topic build
  | clear => exact hs.clear

/-- Along every run the keys and the entries agree within the capacity and the random state is not
zero, and every lookup does what it should; from every state but zero the generator goes on as it
should. -/
theorem cache_representation {capacity : Nat} {cache : TopicMatchCache T}
    (h : (cacheSystem T capacity).Reachable cache) :
    Represents capacity cache ∧ (∀ topic build, LookupSpec cache topic build) ∧
      ∀ other : TopicMatchCache T, other.randomState ≠ 0 → DrawSpec other :=
  ⟨represents_reachable h, fun topic build ↦ (represents_reachable h).lookupSpec topic build,
    fun _ ↦ drawSpec⟩

theorem cache_representation_demo :
    LookupSpec ((new (T := Nat) 1).getOrInsertWith "a" fun _ ↦ 1).2 "b" (fun _ ↦ 2) :=
  (@cache_representation Nat 1 _ ⟨[.getOrInsertWith "a" fun _ ↦ 1], rfl⟩).2.1 "b" (fun _ ↦ 2)

end TopicMatchCache

/-! ## The cache of an engine -/

def PayloadRuntime.Represents (capacity : Nat) : PayloadRuntime → Prop
  | .json cache => cache.Represents capacity
  | .protobuf _ cache => cache.Represents capacity

theorem PayloadRuntime.Represents.clearCache {capacity : Nat} {runtime : PayloadRuntime}
    (h : runtime.Represents capacity) : runtime.clearCache.Represents capacity := by
  cases runtime with
  | json cache => exact TopicMatchCache.Represents.clear h
  | protobuf pool cache => exact TopicMatchCache.Represents.clear h

/-- The topic cache of an engine keeps its representation along every run. -/
theorem engine_cache_represents {C : Crates} {decoder : PayloadDecoder} {capacity : Nat}
    {engine : RuleEngine} (h : (engineSystem C decoder capacity).Reachable engine) :
    engine.payloadRuntime.Represents capacity := by
  apply engine_invariant (P := fun engine ↦ engine.payloadRuntime.Represents capacity) _ _ _ _ h
  · cases decoder with
    | json => exact TopicMatchCache.represents_new capacity
    | protobuf pool => exact TopicMatchCache.represents_new capacity
  · intro engine rule compiled hrep _
    exact hrep.clearCache
  · intro engine ruleId index hrep _
    exact hrep.clearCache
  · intro engine order message hrep
    unfold RuleEngine.evaluate
    cases hruntime : engine.payloadRuntime with
    | json cache =>
        rw [hruntime] at hrep
        exact TopicMatchCache.Represents.getOrInsertWith hrep message.topic _
    | protobuf pool cache =>
        rw [hruntime] at hrep
        exact TopicMatchCache.Represents.getOrInsertWith hrep message.topic _

end Tenon.Core
