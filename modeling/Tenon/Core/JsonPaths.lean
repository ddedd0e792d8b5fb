import Mathlib.Data.List.Sort
import Tenon.Core.MsgIr

/-!
# JsonPaths — both JSON decode plans in terms of the nested paths of an object

The full plan enters every nested value under its keys joined with dots, the later entry winning; a
sparse plan looks a field up along its own segments.  Both are read off one list here, the nested
paths of the object in iteration order.  Keys holding a dot make several paths spell one field: the
path along the field's segments is then the first of them and the full plan keeps the last.
-/

open Reasoning

namespace Tenon.Core

/-- An object as the parser builds it. -/
abbrev JsonObject := { map : JsonMap // (JsonValue.object map).Sorted }

namespace PayloadValue

mutual

/-- The payload value of a JSON value; the fallible conversion always returns it. -/
def ofJson : JsonValue → PayloadValue
  | .null => .null
  | .bool b => .bool b
  | .number n => (n.asF64.map .number).getD .null
  | .string s => .string s
  | .array values => .array (ofJsonValues values)
  | .object entries => .object (ofJsonEntries entries)

def ofJsonValues : List JsonValue → List PayloadValue
  | [] => []
  | v :: vs => ofJson v :: ofJsonValues vs

def ofJsonEntries : List (String × JsonValue) → List (String × PayloadValue)
  | [] => []
  | (key, v) :: es => (key, ofJson v) :: ofJsonEntries es

end

mutual

@[simp]
theorem tryFromJsonRef_eq (v : JsonValue) : tryFromJsonRef v = .ok (ofJson v) := by
  cases v with
  | number n => cases n <;> rfl
  | array values =>
      rw [tryFromJsonRef, tryFromJsonValues_eq values]
      rfl
  | object entries =>
      rw [tryFromJsonRef, tryFromJsonEntries_eq entries]
      rfl
  | _ => rfl

theorem tryFromJsonValues_eq (vs : List JsonValue) :
    tryFromJsonValues vs = .ok (ofJsonValues vs) := by
  cases vs with
  | nil => rfl
  | cons v vs =>
      rw [tryFromJsonValues, tryFromJsonRef_eq v, tryFromJsonValues_eq vs]
      rfl

theorem tryFromJsonEntries_eq (es : List (String × JsonValue)) :
    tryFromJsonEntries es = .ok (ofJsonEntries es) := by
  cases es with
  | nil => rfl
  | cons e es =>
      rw [tryFromJsonEntries, tryFromJsonRef_eq e.2, tryFromJsonEntries_eq es]
      rfl

end

mutual

/-- The values nested in a payload value, itself first, each with the keys that lead to it. -/
def nestedPaths : PayloadValue → List (List String × PayloadValue)
  | .object entries => ([], .object entries) :: entryPaths entries
  | v => [([], v)]

def entryPaths : List (String × PayloadValue) → List (List String × PayloadValue)
  | [] => []
  | (key, child) :: rest =>
      (nestedPaths child).map (fun p ↦ (key :: p.1, p.2)) ++ entryPaths rest

end

theorem ne_nil_of_mem_entryPaths {entries : List (String × PayloadValue)}
    {p : List String × PayloadValue} (h : p ∈ entryPaths entries) : p.1 ≠ [] := by
  induction entries with
  | nil => simp [entryPaths] at h
  | cons e rest ih =>
      rw [entryPaths, List.mem_append] at h
      rcases h with hhead | hrest
      · obtain ⟨q, -, rfl⟩ := List.mem_map.mp hhead
        exact List.cons_ne_nil _ _
      · exact ih hrest

end PayloadValue

open PayloadValue

/-! ## Flattening enters the nested paths in order -/

-- enters values under the key path `pfx` extended by their own
def enterPaths (pfx : List String) (ir : MsgIr) (paths : List (List String × PayloadValue)) :
    MsgIr :=
  paths.foldl (fun ir p ↦ ir.insert (Segments.join '.' (pfx ++ p.1)) p.2) ir

theorem enterPaths_cons_map (pfx : List String) (key : String) (ir : MsgIr)
    (paths : List (List String × PayloadValue)) :
    enterPaths pfx ir (paths.map fun p ↦ (key :: p.1, p.2)) = enterPaths (pfx ++ [key]) ir paths := by
  simp [enterPaths, List.foldl_map, List.append_assoc]

theorem enterPaths_append (pfx : List String) (ir : MsgIr)
    (paths more : List (List String × PayloadValue)) :
    enterPaths pfx ir (paths ++ more) = enterPaths pfx (enterPaths pfx ir paths) more :=
  List.foldl_append

mutual

theorem flattenPayloadValueIntoIr_eq (ir : MsgIr) {pfx : List String} (hpfx : pfx ≠ [])
    (v : PayloadValue) :
    flattenPayloadValueIntoIr ir (Segments.join '.' pfx) v = enterPaths pfx ir (nestedPaths v) := by
  cases v with
  | object entries =>
      rw [flattenPayloadValueIntoIr, nestedPaths,
        flattenEntriesIntoIr_eq (ir.insert (Segments.join '.' pfx) (.object entries)) hpfx entries]
      simp [enterPaths]
  | _ => simp [flattenPayloadValueIntoIr, nestedPaths, enterPaths]

theorem flattenEntriesIntoIr_eq (ir : MsgIr) {pfx : List String} (hpfx : pfx ≠ [])
    (entries : List (String × PayloadValue)) :
    flattenEntriesIntoIr ir (Segments.join '.' pfx) entries =
      enterPaths pfx ir (entryPaths entries) := by
  cases entries with
  | nil => rfl
  | cons e rest =>
      have hpath : Segments.join '.' pfx ++ "." ++ e.1 = Segments.join '.' (pfx ++ [e.1]) :=
        (Segments.join_concat '.' e.1 hpfx).symm
      rw [flattenEntriesIntoIr, hpath, flattenPayloadValueIntoIr_eq ir (by simp) e.2,
        flattenEntriesIntoIr_eq _ hpfx rest, entryPaths, enterPaths_append, enterPaths_cons_map]

end

theorem flattenJsonValueIntoIr_eq (ir : MsgIr) (key : String) (v : JsonValue) :
    flattenJsonValueIntoIr ir key v = .ok (enterPaths [key] ir (nestedPaths (ofJson v))) := by
  have hflat := flattenPayloadValueIntoIr_eq ir (List.cons_ne_nil key []) (ofJson v)
  rw [Segments.join_singleton] at hflat
  rw [← hflat, flattenJsonValueIntoIr, tryFromJsonRef_eq]
  cases ofJson v <;> rfl

/-- The full plan enters the nested paths of the object, in order, into an empty map. -/
theorem fromJsonObjectRef_eq (map : JsonMap) :
    MsgIr.fromJsonObjectRef map =
      .ok (enterPaths [] MsgIr.new (entryPaths (ofJsonEntries map))) := by
  have hloop (ir : MsgIr) : map.foldlM (fun ir e ↦ flattenJsonValueIntoIr ir e.1 e.2) ir =
      .ok (enterPaths [] ir (entryPaths (ofJsonEntries map))) := by
    induction map generalizing ir with
    | nil => rfl
    | cons e rest ih =>
        rw [List.foldlM_cons, flattenJsonValueIntoIr_eq, ofJsonEntries, entryPaths,
          enterPaths_append, enterPaths_cons_map]
        exact ih _
  exact hloop MsgIr.new

-- the value entered last under a key wins
def lastSpelling (paths : List (List String × PayloadValue)) (key : String) :
    Option (List String × PayloadValue) :=
  (paths.filter fun p ↦ Segments.join '.' p.1 = key).getLast?

theorem mem_of_lastSpelling {paths : List (List String × PayloadValue)} {key : String}
    {q : List String × PayloadValue} (h : lastSpelling paths key = some q) :
    q ∈ paths ∧ Segments.join '.' q.1 = key := by
  have hmem := List.mem_filter.mp (List.mem_of_getLast? h)
  exact ⟨hmem.1, by simpa using hmem.2⟩

theorem lastSpelling_eq_none {paths : List (List String × PayloadValue)} {key : String}
    (h : lastSpelling paths key = none) {q : List String × PayloadValue} (hq : q ∈ paths) :
    Segments.join '.' q.1 ≠ key := by
  intro hkey
  have hmem : q ∈ paths.filter fun p ↦ Segments.join '.' p.1 = key :=
    List.mem_filter.mpr ⟨hq, by simpa using hkey⟩
  rw [List.getLast?_eq_none_iff.mp h] at hmem
  exact List.not_mem_nil hmem

theorem getKey_enterPaths (ir : MsgIr) (paths : List (List String × PayloadValue)) (key : String) :
    (enterPaths [] ir paths).getKey key =
      ((lastSpelling paths key).map Prod.snd).or (ir.getKey key) := by
  induction paths generalizing ir with
  | nil => rfl
  | cons p rest ih =>
      have hstep : enterPaths [] ir (p :: rest) =
          enterPaths [] (ir.insert (Segments.join '.' p.1) p.2) rest := rfl
      rw [hstep, ih, MsgIr.getKey_insert, lastSpelling, lastSpelling]
      by_cases hkey : Segments.join '.' p.1 = key
      · rw [List.filter_cons_of_pos (by simpa using hkey), List.getLast?_cons, if_pos hkey.symm]
        cases (rest.filter fun p ↦ Segments.join '.' p.1 = key).getLast? <;> rfl
      · rw [List.filter_cons_of_neg (by simpa using hkey), if_neg fun h ↦ hkey h.symm]

/-! ## The nested paths are the successful lookups, listed in order -/

theorem mem_entryPaths_cons {key : String} {segs : List String} {p : PayloadValue}
    {entries : List (String × PayloadValue)} :
    (key :: segs, p) ∈ entryPaths entries ↔
      ∃ child, (key, child) ∈ entries ∧ (segs, p) ∈ nestedPaths child := by
  induction entries with
  | nil => simp [entryPaths]
  | cons e rest ih =>
      rcases e with ⟨k, child⟩
      rw [entryPaths, List.mem_append, ih]
      constructor
      · intro h
        rcases h with hhead | ⟨w, hw, hp⟩
        · obtain ⟨q, hq, heq⟩ := List.mem_map.mp hhead
          obtain ⟨⟨rfl, rfl⟩, rfl⟩ := by simpa using heq
          exact ⟨child, List.mem_cons_self, hq⟩
        · exact ⟨w, List.mem_cons_of_mem _ hw, hp⟩
      · intro h
        rcases h with ⟨w, hw, hp⟩
        rcases List.mem_cons.mp hw with heq | hrest
        · obtain ⟨rfl, rfl⟩ := Prod.mk.inj heq
          exact Or.inl (List.mem_map.mpr ⟨(segs, p), hp, rfl⟩)
        · exact Or.inr ⟨w, hrest, hp⟩

theorem mem_ofJsonEntries {key : String} {p : PayloadValue} {entries : JsonMap} :
    (key, p) ∈ ofJsonEntries entries ↔ ∃ v, (key, v) ∈ entries ∧ ofJson v = p := by
  induction entries with
  | nil => simp [ofJsonEntries]
  | cons e rest ih =>
      rw [ofJsonEntries, List.mem_cons, ih, Prod.mk.injEq]
      constructor
      · intro h
        rcases h with ⟨rfl, rfl⟩ | ⟨v, hv, hp⟩
        · exact ⟨e.2, List.mem_cons_self, rfl⟩
        · exact ⟨v, List.mem_cons_of_mem _ hv, hp⟩
      · intro h
        rcases h with ⟨v, hv, hp⟩
        rcases List.mem_cons.mp hv with rfl | hrest
        · exact Or.inl ⟨rfl, hp.symm⟩
        · exact Or.inr ⟨v, hrest, hp⟩

-- the head of every nested path of an object is one of its keys
theorem exists_key_of_mem_entryPaths {q : List String × PayloadValue}
    {entries : List (String × JsonValue)} (h : q ∈ entryPaths (ofJsonEntries entries)) :
    ∃ e ∈ entries, ∃ segs, q.1 = e.1 :: segs := by
  rcases q with ⟨path, p⟩
  cases path with
  | nil => exact absurd rfl (ne_nil_of_mem_entryPaths h)
  | cons key segs =>
      obtain ⟨child, hchild, -⟩ := mem_entryPaths_cons.mp h
      obtain ⟨v, hv, -⟩ := mem_ofJsonEntries.mp hchild
      exact ⟨(key, v), hv, segs, rfl⟩

theorem pairwise_entryPaths {entries : List (String × JsonValue)}
    (hkeys : entries.Pairwise fun a b ↦ a.1 < b.1)
    (hvals : ∀ e ∈ entries, (nestedPaths (ofJson e.2)).Pairwise fun a b ↦ a.1 < b.1) :
    (entryPaths (ofJsonEntries entries)).Pairwise fun a b ↦ a.1 < b.1 := by
  induction entries with
  | nil => exact List.Pairwise.nil
  | cons e rest ih =>
      obtain ⟨hlt, hrest⟩ := List.pairwise_cons.mp hkeys
      rw [ofJsonEntries, entryPaths, List.pairwise_append]
      have hhead : ((nestedPaths (ofJson e.2)).map fun p ↦ (e.1 :: p.1, p.2)).Pairwise
          fun a b ↦ a.1 < b.1 := by
        apply (hvals e List.mem_cons_self).map
        intro a b hab
        exact List.Lex.cons hab
      have htail := ih hrest fun e' he' ↦ hvals e' (List.mem_cons_of_mem _ he')
      apply And.intro hhead
      apply And.intro htail
      -- all paths through this entry come before the paths through a later one
      intro a ha b hb
      obtain ⟨q, -, rfl⟩ := List.mem_map.mp ha
      obtain ⟨e', he', segs, hsegs⟩ := exists_key_of_mem_entryPaths hb
      rw [hsegs]
      exact List.Lex.rel (hlt e' he')

theorem pairwise_nestedPaths {v : JsonValue} (h : v.Sorted) :
    (nestedPaths (ofJson v)).Pairwise fun a b ↦ a.1 < b.1 := by
  induction h with
  | object hkeys _ ih =>
      rename_i entries _
      rw [ofJson, nestedPaths, List.pairwise_cons]
      have hfirst : ∀ q ∈ entryPaths (ofJsonEntries entries), [] < q.1 := by
        intro q hq
        obtain ⟨e, -, segs, hsegs⟩ := exists_key_of_mem_entryPaths hq
        rw [hsegs]
        exact List.nil_lt_cons e.1 segs
      exact ⟨hfirst, pairwise_entryPaths hkeys ih⟩
  | number n => cases n <;> exact List.pairwise_singleton _ _
  | _ => exact List.pairwise_singleton _ _

theorem lookup_eq_some_iff {α : Type} {entries : List (String × α)}
    (hkeys : entries.Pairwise fun a b ↦ a.1 ≠ b.1) {key : String} {v : α} :
    entries.lookup key = some v ↔ (key, v) ∈ entries := by
  induction entries with
  | nil => simp
  | cons e rest ih =>
      rcases e with ⟨k, w⟩
      obtain ⟨hne, hrest⟩ := List.pairwise_cons.mp hkeys
      by_cases heq : key = k
      · subst heq
        have hnot : (key, v) ∉ rest := fun hmem ↦ hne _ hmem rfl
        simp [hnot, eq_comm]
      · have hbeq : (key == k) = false := beq_eq_false_iff_ne.mpr heq
        rw [List.lookup_cons, hbeq, List.mem_cons]
        simp only [Prod.mk.injEq, heq, false_and, false_or]
        exact ih hrest

theorem nestedPaths_nil (p : PayloadValue) (v : PayloadValue) :
    ([], p) ∈ nestedPaths v ↔ v = p := by
  cases v with
  | object entries =>
      have hnot : ([], p) ∉ entryPaths entries := fun h ↦ ne_nil_of_mem_entryPaths h rfl
      rw [nestedPaths, List.mem_cons, or_iff_left hnot]
      simp [eq_comm]
  | _ => simp [nestedPaths, eq_comm]

/-- A value is nested in another under `segs` exactly when the walk along `segs` finds it. -/
theorem mem_nestedPaths_iff {v : JsonValue} (h : v.Sorted) (segs : List String) (p : PayloadValue) :
    (segs, p) ∈ nestedPaths (ofJson v) ↔
      (segs.foldlM JsonValue.get v).map ofJson = some p := by
  induction segs generalizing v with
  | nil => rw [nestedPaths_nil, List.foldlM_nil, Option.pure_def, Option.map_some, Option.some_inj]
  | cons key rest ih =>
      cases h with
      | object hkeys hvals =>
          rename_i entries
          have hmem : (key :: rest, p) ∈ nestedPaths (ofJson (.object entries)) ↔
              (key :: rest, p) ∈ entryPaths (ofJsonEntries entries) := by
            simp [ofJson, nestedPaths]
          have hget : JsonValue.get (.object entries) key = entries.lookup key := rfl
          have hdistinct : entries.Pairwise fun a b ↦ a.1 ≠ b.1 := hkeys.imp fun hlt ↦ hlt.ne
          rw [hmem, mem_entryPaths_cons, List.foldlM_cons, hget]
          constructor
          · intro h
            rcases h with ⟨child, hchild, hp⟩
            obtain ⟨w, hw, rfl⟩ := mem_ofJsonEntries.mp hchild
            rw [(lookup_eq_some_iff hdistinct).mpr hw]
            exact (ih (hvals _ hw)).mp hp
          · intro hp
            cases hlookup : entries.lookup key with
            | none => simp [hlookup] at hp
            | some w =>
                rw [hlookup] at hp
                have hw := (lookup_eq_some_iff hdistinct).mp hlookup
                exact ⟨ofJson w, mem_ofJsonEntries.mpr ⟨w, hw, rfl⟩, (ih (hvals _ hw)).mpr hp⟩
      | number n => cases n <;> simp [ofJson, nestedPaths, Number.asF64, JsonValue.get]
      | _ => simp [ofJson, nestedPaths, JsonValue.get]

/-! ## Spellings of a field -/

/-- The values of the object under key paths that join to `key` although one of their keys holds a
dot itself, in iteration order. -/
def dottedSpellings (map : JsonMap) (key : String) : List PayloadValue :=
  ((entryPaths (ofJsonEntries map)).filter fun p ↦
    Segments.join '.' p.1 = key ∧ ∃ k ∈ p.1, '.' ∈ k.toList).map Prod.snd

/-- The value of the object under the segments of `key`. -/
def nestedValue (map : JsonMap) (key : String) : Option PayloadValue :=
  (lookupJsonPath map (Segments.split '.' key)).map ofJson

theorem lookupJsonPath_eq (map : JsonMap) {segs : List String} (hne : segs ≠ []) :
    lookupJsonPath map segs = segs.foldlM JsonValue.get (.object map) := by
  obtain ⟨first, rest, rfl⟩ := List.exists_cons_of_ne_nil hne
  rfl

theorem nestedValue_eq_some_iff (o : JsonObject) (key : String) (p : PayloadValue) :
    nestedValue o.1 key = some p ↔
      (Segments.split '.' key, p) ∈ entryPaths (ofJsonEntries o.1) := by
  have hne := Segments.split_ne_nil '.' key
  rw [nestedValue, lookupJsonPath_eq o.1 hne, ← mem_nestedPaths_iff o.2, ofJson, nestedPaths,
    List.mem_cons]
  simp [hne]

-- a path spells its field with a dotted key exactly when it is not the split of the field
theorem dotted_iff {segs : List String} (hne : segs ≠ []) {key : String}
    (hjoin : Segments.join '.' segs = key) :
    (∃ k ∈ segs, '.' ∈ k.toList) ↔ segs ≠ Segments.split '.' key := by
  constructor
  · intro hdotted hsplit
    rcases hdotted with ⟨k, hk, hdot⟩
    rw [hsplit] at hk
    exact Segments.not_mem_of_mem_split hk hdot
  · intro hdiff
    by_contra hnone
    have hfree : ∀ g ∈ segs, '.' ∉ g.toList := fun g hg hdot ↦ hnone ⟨g, hg, hdot⟩
    have hsplit := Segments.split_join '.' hfree hne
    rw [hjoin] at hsplit
    exact hdiff hsplit.symm

theorem dottedSpellings_eq (map : JsonMap) (key : String) :
    dottedSpellings map key = (((entryPaths (ofJsonEntries map)).filter fun p ↦
      Segments.join '.' p.1 = key).filter fun p ↦ p.1 ≠ Segments.split '.' key).map Prod.snd := by
  unfold dottedSpellings
  rw [List.filter_filter]
  congr 1
  apply List.filter_congr
  intro p hp
  by_cases hjoin : Segments.join '.' p.1 = key
  · have hdot := dotted_iff (ne_nil_of_mem_entryPaths hp) hjoin
    simp [hjoin, hdot]
  · simp [hjoin]

-- in a list sorted by key, an entry at a least key comes before all the others
theorem getLast_of_least {spellings : List (List String × PayloadValue)} {least : List String}
    {v : Option PayloadValue} (hsorted : spellings.Pairwise fun a b ↦ a.1 < b.1)
    (hleast : ∀ q ∈ spellings, q.1 ≠ least → least < q.1)
    (hv : ∀ p, v = some p ↔ (least, p) ∈ spellings) :
    spellings.getLast?.map Prod.snd =
      ((spellings.filter fun p ↦ p.1 ≠ least).map Prod.snd).getLast?.or v := by
  cases spellings with
  | nil =>
      have hnone : v = none := by
        rw [Option.eq_none_iff_forall_ne_some]
        intro p hp
        simpa using (hv p).mp hp
      simp [hnone]
  | cons q rest =>
      obtain ⟨hlt, -⟩ := List.pairwise_cons.mp hsorted
      by_cases heq : q.1 = least
      · have hrest : rest.filter (fun p ↦ p.1 ≠ least) = rest := by
          apply List.filter_eq_self.mpr
          intro r hr
          have hqr : least < r.1 := heq ▸ hlt r hr
          simpa using ne_of_gt hqr
        have hvalue : v = some q.2 := (hv q.2).mpr (heq ▸ List.mem_cons_self)
        rw [List.filter_cons_of_neg (by simpa using heq), hrest, hvalue, List.getLast?_cons,
          List.getLast?_map]
        cases rest.getLast? <;> rfl
      · -- the least key is absent: nothing is as small
        have hall : (q :: rest).filter (fun p ↦ p.1 ≠ least) = q :: rest := by
          apply List.filter_eq_self.mpr
          intro r hr
          rcases List.mem_cons.mp hr with rfl | hr'
          · simpa using heq
          · have hq := hleast q List.mem_cons_self heq
            have hqr : least < r.1 := hq.trans (hlt r hr')
            simpa using ne_of_gt hqr
        rw [hall, List.getLast?_map, List.getLast?_cons]
        rfl

/-- The value the full plan keeps for a key: the last dotted spelling, else the nested value. -/
theorem lastSpelling_eq (o : JsonObject) (key : String) :
    (lastSpelling (entryPaths (ofJsonEntries o.1)) key).map Prod.snd =
      (dottedSpellings o.1 key).getLast?.or (nestedValue o.1 key) := by
  have hsorted : (entryPaths (ofJsonEntries o.1)).Pairwise fun a b ↦ a.1 < b.1 :=
    pairwise_entryPaths o.2.keys fun e he ↦ pairwise_nestedPaths (o.2.value he)
  rw [dottedSpellings_eq]
  apply getLast_of_least (hsorted.filter _)
  · intro q hq hne
    obtain ⟨hmem, hjoin⟩ := List.mem_filter.mp hq
    exact Segments.split_lt_of_join_eq (ne_nil_of_mem_entryPaths hmem) (by simpa using hjoin) hne
  · intro p
    rw [nestedValue_eq_some_iff, List.mem_filter]
    simp

/-! ## What each plan returns for a field -/

theorem insertJsonFields_eq (map : JsonMap) (ir : MsgIr) (fields : List CompiledPayloadField) :
    MsgIr.insertJsonFields map ir fields =
      .ok (ir.fillSparse (fun segs ↦ (lookupJsonPath map segs).map ofJson) fields) := by
  induction fields generalizing ir with
  | nil => rfl
  | cons field rest ih =>
      rw [MsgIr.insertJsonFields, MsgIr.fillSparse]
      cases lookupJsonPath map field.segments with
      | none => exact ih ir
      | some v =>
          simp only [tryFromJsonRef_eq]
          exact ih (ir.insertSparse field (ofJson v))

/-- A sparse plan decodes every object, and returns for a required field its nested value. -/
theorem exists_sparse (map : JsonMap) {fields : List CompiledPayloadField} (hne : fields ≠ []) :
    ∃ ir, MsgIr.fromJsonObjectWithDecodePlan map (.sparse fields) = .ok ir ∧
      ∀ f ∈ fields, ir.getField f = nestedValue map f.key := by
  have hdecode : MsgIr.fromJsonObjectWithDecodePlan map (.sparse fields) =
      .ok ((MsgIr.withSparseLayout fields).fillSparse
        (fun segs ↦ (lookupJsonPath map segs).map ofJson) fields) := by
    rw [MsgIr.fromJsonObjectWithDecodePlan, if_pos hne]
    exact insertJsonFields_eq map _ fields
  apply Exists.intro
  apply And.intro hdecode
  intro f hf
  rw [MsgIr.getField_fillSparse _ hf, nestedValue, f.hsegments]

/-- The full plan decodes every object, and returns for a field the last spelling of its key. -/
theorem exists_full (o : JsonObject) :
    ∃ ir, MsgIr.fromJsonObjectWithDecodePlan o.1 .full = .ok ir ∧
      ∀ f, ir.getField f = (dottedSpellings o.1 f.key).getLast?.or (nestedValue o.1 f.key) := by
  apply Exists.intro
  apply And.intro (fromJsonObjectRef_eq o.1)
  intro f
  rw [MsgIr.getField, getKey_enterPaths, lastSpelling_eq, MsgIr.getKey_new, Option.or_none]

end Tenon.Core
