import Tenon.Core.Message

/-!
# TopicCache — the bounded cache of topic matches

The cache evicts a key drawn by a 64-bit xor-shift generator.  Whatever it evicts, an entry present
after a lookup was there before or is the one just built.
-/

namespace Tenon.Core

structure TopicMatchCache (T : Type) where
  capacity : Nat
  randomState : UInt64
  entries : StringMap T
  keys : List String

namespace TopicMatchCache

variable {T : Type}

def initialState : UInt64 := 0x9e3779b97f4a7c15

def new (capacity : Nat) : TopicMatchCache T :=
  { capacity := capacity, randomState := initialState, entries := ∅, keys := [] }

def clear (cache : TopicMatchCache T) : TopicMatchCache T :=
  { cache with entries := ∅, keys := [], randomState := initialState }

def nextRandomU64 (cache : TopicMatchCache T) : UInt64 × TopicMatchCache T :=
  let x := cache.randomState
  let x := x ^^^ (x >>> 12)
  let x := x ^^^ (x <<< 25)
  let x := x ^^^ (x >>> 27)
  (x * 0x2545f4914f6cdd1d, { cache with randomState := x })

-- the last element takes the place of the one removed
def swapRemove (keys : List String) (index : Nat) : Option (String × List String) :=
  match keys[index]?, keys.getLast? with
  | some key, some last => some (key, (keys.set index last).dropLast)
  | _, _ => none

def evictRandom (cache : TopicMatchCache T) : TopicMatchCache T :=
  if cache.keys = [] then cache
  else
    let (random, cache) := cache.nextRandomU64
    match swapRemove cache.keys (random.toNat % cache.keys.length) with
    | some (evictKey, keys) => { cache with keys := keys, entries := cache.entries.erase evictKey }
    -- an index out of range panics in the source; the remainder is always in range
    | none => cache

def insert (cache : TopicMatchCache T) (topic : String) (matched : T) : TopicMatchCache T :=
  if cache.capacity = 0 then cache
  else if (cache.entries.lookup topic).isSome then
    { cache with entries := cache.entries.insert topic matched }
  else
    let cache := if cache.capacity ≤ cache.entries.keys.length then cache.evictRandom else cache
    { cache with keys := cache.keys ++ [topic], entries := cache.entries.insert topic matched }

def getOrInsertWith (cache : TopicMatchCache T) (topic : String) (build : Unit → T) :
    T × TopicMatchCache T :=
  match cache.entries.lookup topic with
  | some cached => (cached, cache)
  | none =>
      let matched := build ()
      (matched, cache.insert topic matched)

/-! ## Entries come from the cache or from the lookup -/

theorem lookup_evictRandom {cache : TopicMatchCache T} {topic : String} {v : T}
    (h : cache.evictRandom.entries.lookup topic = some v) :
    cache.entries.lookup topic = some v := by
  unfold evictRandom at h
  split at h
  · exact h
  · dsimp only at h
    split at h
    · rename_i evictKey keys _
      by_cases heq : topic = evictKey
      · subst heq
        simp at h
      · rwa [AList.lookup_erase_ne heq] at h
    · exact h

theorem lookup_insert {cache : TopicMatchCache T} {topic : String} {matched : T} {t : String}
    {v : T} (h : (cache.insert topic matched).entries.lookup t = some v) :
    cache.entries.lookup t = some v ∨ (t = topic ∧ v = matched) := by
  -- the new entry first, then whatever the eviction left
  have hentry {entries : StringMap T}
      (hold : entries.lookup t = some v → cache.entries.lookup t = some v)
      (h : (entries.insert topic matched).lookup t = some v) :
      cache.entries.lookup t = some v ∨ (t = topic ∧ v = matched) := by
    by_cases heq : t = topic
    · subst heq
      rw [AList.lookup_insert] at h
      exact Or.inr ⟨rfl, (Option.some.inj h).symm⟩
    · rw [AList.lookup_insert_ne heq] at h
      exact Or.inl (hold h)
  unfold insert at h
  split at h
  · exact Or.inl h
  · split at h
    · exact hentry id h
    · dsimp only at h
      apply hentry _ h
      split
      · exact lookup_evictRandom
      · exact id

/-- A lookup returns the cached value or the built one, and leaves no entry of another origin. -/
theorem getOrInsertWith_spec (cache : TopicMatchCache T) (topic : String) (build : Unit → T) :
    (cache.getOrInsertWith topic build).1 = (cache.entries.lookup topic).getD (build ()) ∧
      ∀ t v, (cache.getOrInsertWith topic build).2.entries.lookup t = some v →
        cache.entries.lookup t = some v ∨
          (t = topic ∧ v = (cache.getOrInsertWith topic build).1) := by
  unfold getOrInsertWith
  cases hcached : cache.entries.lookup topic with
  | some cached => exact ⟨rfl, fun t v h ↦ Or.inl h⟩
  | none => exact ⟨rfl, fun t v h ↦ lookup_insert h⟩

end TopicMatchCache

end Tenon.Core
