import Tenon.Core.JsonPaths
import Tenon.Core.Protobuf

/-!
# ProtobufPlans — when the sparse and the full protobuf plan agree

The full plan converts messages and maps alike to objects and enters every value under its joined
keys.  The sparse plan descends through messages only, so it never finds what lies behind an entry of
a map.  Declared names hold no dot, hence no other field has two spellings.
-/

open Reasoning Reasoning.Binary64

namespace Tenon.Core

open PayloadValue

namespace ProtobufValue

/-- The field of a message that is declared under `key` and present. -/
def get (v : ProtobufValue) (key : String) : Option ProtobufValue :=
  match v with
  | .message fields => (fields.lookup key).join
  | _ => none

def isComposite : ProtobufValue → Bool
  | .message _ | .list _ | .map _ => true
  | _ => false

/-- The names a message declares are distinct and hold no dot, at every depth. -/
inductive WellFormed : ProtobufValue → Prop where
  | message {fields : DynamicMessage} (hnames : fields.Pairwise fun a b ↦ a.1 ≠ b.1)
      (hdots : ∀ e ∈ fields, '.' ∉ e.1.toList)
      (h : ∀ name v, (name, some v) ∈ fields → WellFormed v) : WellFormed (.message fields)
  | list {values : List ProtobufValue} (h : ∀ v ∈ values, WellFormed v) : WellFormed (.list values)
  | map {entries : List (ProtobufMapKey × ProtobufValue)} (h : ∀ e ∈ entries, WellFormed e.2) :
      WellFormed (.map entries)
  | scalar {v : ProtobufValue} (h : v.isComposite = false) : WellFormed v

/-- The keys that lead from a value to one nested in it, through messages and maps. -/
inductive KeyPath : ProtobufValue → List String → Prop where
  | here (v : ProtobufValue) : KeyPath v []
  | field {fields : DynamicMessage} {name : String} {v : ProtobufValue} {segs : List String}
      (hv : (name, some v) ∈ fields) (h : KeyPath v segs) : KeyPath (.message fields) (name :: segs)
  | entry {entries : List (ProtobufMapKey × ProtobufValue)} {key : ProtobufMapKey}
      {v : ProtobufValue} {segs : List String} (hv : (key, v) ∈ entries) (h : KeyPath v segs) :
      KeyPath (.map entries) (protobufMapKeyToString key :: segs)

/-- A key path that passes an entry of a map. -/
inductive MapPath : ProtobufValue → List String → Prop where
  | entry {entries : List (ProtobufMapKey × ProtobufValue)} {key : ProtobufMapKey}
      {v : ProtobufValue} {segs : List String} (hv : (key, v) ∈ entries) (h : KeyPath v segs) :
      MapPath (.map entries) (protobufMapKeyToString key :: segs)
  | field {fields : DynamicMessage} {name : String} {v : ProtobufValue} {segs : List String}
      (hv : (name, some v) ∈ fields) (h : MapPath v segs) : MapPath (.message fields) (name :: segs)

theorem MapPath.keyPath {v : ProtobufValue} {segs : List String} (h : MapPath v segs) :
    KeyPath v segs := by
  induction h with
  | entry hv h => exact .entry hv h
  | field hv _ ih => exact .field hv ih

theorem MapPath.ne_nil {v : ProtobufValue} {segs : List String} (h : MapPath v segs) :
    segs ≠ [] := by
  cases h <;> exact List.cons_ne_nil _ _

end ProtobufValue

/-- A message as its descriptor declares it. -/
abbrev DeclaredMessage := { message : DynamicMessage // (ProtobufValue.message message).WellFormed }

open ProtobufValue

/-! ## The nested paths of a converted value -/

theorem mem_ofProtobufFields {name : String} {p : PayloadValue} {fields : DynamicMessage} :
    (name, p) ∈ ofProtobufFields fields ↔ ∃ v, (name, some v) ∈ fields ∧ ofProtobuf v = p := by
  induction fields with
  | nil => simp [ofProtobufFields]
  | cons e rest ih =>
      rcases e with ⟨name', none | w⟩
      · rw [ofProtobufFields, ih]
        simp
      · rw [ofProtobufFields, List.mem_cons, ih, Prod.mk.injEq]
        constructor
        · intro h
          rcases h with ⟨rfl, rfl⟩ | ⟨v, hv, hp⟩
          · exact ⟨w, List.mem_cons_self, rfl⟩
          · exact ⟨v, List.mem_cons_of_mem _ hv, hp⟩
        · intro h
          rcases h with ⟨v, hv, hp⟩
          rcases List.mem_cons.mp hv with heq | hrest
          · obtain ⟨rfl, hw⟩ := Prod.mk.inj heq
            cases hw
            exact Or.inl ⟨rfl, hp.symm⟩
          · exact Or.inr ⟨v, hrest, hp⟩

theorem mem_ofProtobufEntries {text : String} {p : PayloadValue}
    {entries : List (ProtobufMapKey × ProtobufValue)} :
    (text, p) ∈ ofProtobufEntries entries ↔
      ∃ key v, (key, v) ∈ entries ∧ protobufMapKeyToString key = text ∧ ofProtobuf v = p := by
  induction entries with
  | nil => simp [ofProtobufEntries]
  | cons e rest ih =>
      rcases e with ⟨key', w⟩
      rw [ofProtobufEntries, List.mem_cons, ih, Prod.mk.injEq]
      constructor
      · intro h
        rcases h with ⟨rfl, rfl⟩ | ⟨key, v, hv, hkey, hp⟩
        · exact ⟨key', w, List.mem_cons_self, rfl, rfl⟩
        · exact ⟨key, v, List.mem_cons_of_mem _ hv, hkey, hp⟩
      · intro h
        rcases h with ⟨key, v, hv, hkey, hp⟩
        rcases List.mem_cons.mp hv with heq | hrest
        · obtain ⟨rfl, rfl⟩ := Prod.mk.inj heq
          exact Or.inl ⟨hkey.symm, hp.symm⟩
        · exact Or.inr ⟨key, v, hrest, hkey, hp⟩

theorem nestedPaths_message {segs : List String} (hne : segs ≠ []) {p : PayloadValue}
    {fields : DynamicMessage} : (segs, p) ∈ nestedPaths (ofProtobuf (.message fields)) ↔
      (segs, p) ∈ entryPaths (ofProtobufFields fields) := by
  simp [ofProtobuf, nestedPaths, hne]

theorem nestedPaths_map {segs : List String} (hne : segs ≠ []) {p : PayloadValue}
    {entries : List (ProtobufMapKey × ProtobufValue)} :
    (segs, p) ∈ nestedPaths (ofProtobuf (.map entries)) ↔
      (segs, p) ∈ entryPaths (ofProtobufEntries entries) := by
  simp [ofProtobuf, nestedPaths, hne]

/-- The key paths of a value are those under which its conversion nests a value. -/
theorem keyPath_iff (v : ProtobufValue) (segs : List String) :
    KeyPath v segs ↔ ∃ p, (segs, p) ∈ nestedPaths (ofProtobuf v) := by
  constructor
  · intro h
    induction h with
    | here v => exact ⟨ofProtobuf v, (nestedPaths_nil _ _).mpr rfl⟩
    | field hv _ ih =>
        rcases ih with ⟨p, hp⟩
        have hchild := mem_ofProtobufFields.mpr ⟨_, hv, rfl⟩
        exact ⟨p, (nestedPaths_message (List.cons_ne_nil _ _)).mpr
          (mem_entryPaths_cons.mpr ⟨_, hchild, hp⟩)⟩
    | entry hv _ ih =>
        rcases ih with ⟨p, hp⟩
        have hchild := mem_ofProtobufEntries.mpr ⟨_, _, hv, rfl, rfl⟩
        exact ⟨p, (nestedPaths_map (List.cons_ne_nil _ _)).mpr
          (mem_entryPaths_cons.mpr ⟨_, hchild, hp⟩)⟩
  · intro h
    rcases h with ⟨p, hp⟩
    induction segs generalizing v with
    | nil => exact .here v
    | cons key rest ih =>
        cases v with
        | message fields =>
            rw [nestedPaths_message (List.cons_ne_nil _ _)] at hp
            obtain ⟨child, hchild, hrest⟩ := mem_entryPaths_cons.mp hp
            obtain ⟨w, hw, rfl⟩ := mem_ofProtobufFields.mp hchild
            exact .field hw (ih w hrest)
        | map entries =>
            rw [nestedPaths_map (List.cons_ne_nil _ _)] at hp
            obtain ⟨child, hchild, hrest⟩ := mem_entryPaths_cons.mp hp
            obtain ⟨mapKey, w, hw, rfl, rfl⟩ := mem_ofProtobufEntries.mp hchild
            exact .entry hw (ih w hrest)
        | _ => simp [ofProtobuf, nestedPaths] at hp

/-! ## The walk through nested messages -/

theorem get_message {fields : DynamicMessage} (h : (ProtobufValue.message fields).WellFormed)
    {name : String} {v : ProtobufValue} :
    get (.message fields) name = some v ↔ (name, some v) ∈ fields := by
  cases h with
  | message hnames _ _ =>
      rw [← lookup_eq_some_iff hnames, ProtobufValue.get, Option.join_eq_some_iff]
  | scalar h => cases h

/-- What the walk finds is nested under the same keys. -/
theorem mem_nestedPaths_of_walk {v : ProtobufValue} (h : v.WellFormed) {segs : List String}
    {w : ProtobufValue} (hw : segs.foldlM get v = some w) :
    (segs, ofProtobuf w) ∈ nestedPaths (ofProtobuf v) := by
  induction segs generalizing v with
  | nil =>
      rw [List.foldlM_nil, Option.pure_def, Option.some_inj] at hw
      exact (nestedPaths_nil _ _).mpr (congrArg ofProtobuf hw)
  | cons key rest ih =>
      rw [List.foldlM_cons, Option.bind_eq_bind, Option.bind_eq_some_iff] at hw
      rcases hw with ⟨u, hu, hrest⟩
      cases v with
      | message fields =>
          have hmem := (get_message h).mp hu
          have hchild := mem_ofProtobufFields.mpr ⟨u, hmem, rfl⟩
          rw [nestedPaths_message (List.cons_ne_nil _ _)]
          cases h with
          | message _ _ hvals =>
              exact mem_entryPaths_cons.mpr ⟨_, hchild, ih (hvals key u hmem) hrest⟩
          | scalar h => cases h
      | _ => cases hu

/-- A nested value lies behind an entry of a map, or the walk finds it under keys without dots. -/
theorem mapPath_or_walk {v : ProtobufValue} (h : v.WellFormed) {segs : List String}
    {p : PayloadValue} (hp : (segs, p) ∈ nestedPaths (ofProtobuf v)) :
    MapPath v segs ∨
      (∀ g ∈ segs, '.' ∉ g.toList) ∧ (segs.foldlM get v).map ofProtobuf = some p := by
  induction segs generalizing v with
  | nil =>
      right
      rw [nestedPaths_nil] at hp
      simp [hp]
  | cons key rest ih =>
      cases v with
      | message fields =>
          rw [nestedPaths_message (List.cons_ne_nil _ _)] at hp
          obtain ⟨child, hchild, hrest⟩ := mem_entryPaths_cons.mp hp
          obtain ⟨w, hw, rfl⟩ := mem_ofProtobufFields.mp hchild
          have hget := (get_message h).mpr hw
          cases h with
          | message hnames hdots hvals =>
              rcases ih (hvals key w hw) hrest with hmap | ⟨hfree, hwalk⟩
              · exact Or.inl (.field hw hmap)
              · right
                rw [List.foldlM_cons, hget]
                exact ⟨List.forall_mem_cons.mpr ⟨hdots _ hw, hfree⟩, hwalk⟩
          | scalar h => cases h
      | map entries =>
          rw [nestedPaths_map (List.cons_ne_nil _ _)] at hp
          obtain ⟨child, hchild, hrest⟩ := mem_entryPaths_cons.mp hp
          obtain ⟨mapKey, w, hw, rfl, rfl⟩ := mem_ofProtobufEntries.mp hchild
          exact Or.inl (.entry hw ((keyPath_iff w rest).mpr ⟨p, hrest⟩))
      | _ => simp [ofProtobuf, nestedPaths] at hp

/-- The segments of a path through a map lead the walk to that map, where it ends. -/
theorem walk_mapPath {v : ProtobufValue} (h : v.WellFormed) {path : List String}
    (hmap : MapPath v path) :
    (Segments.split '.' (Segments.join '.' path)).foldlM get v = none := by
  induction hmap with
  | entry hv _ =>
      obtain ⟨first, rest, hsplit⟩ := List.exists_cons_of_ne_nil (Segments.split_ne_nil '.' _)
      rw [hsplit]
      rfl
  | field hv hmap ih =>
      have hget := (get_message h).mpr hv
      cases h with
      | message hnames hdots hvals =>
          rw [Segments.split_join_cons '.' (hdots _ hv) hmap.ne_nil, List.foldlM_cons, hget]
          exact ih (hvals _ _ hv)
      | scalar h => cases h

/-! ## What each plan returns for a field -/

theorem extractFromSegments_eq (message : DynamicMessage) {segs : List String} (hne : segs ≠ []) :
    extractProtobufPayloadValueFromSegments message segs =
      .ok ((segs.foldlM get (.message message)).map ofProtobuf) := by
  induction segs generalizing message with
  | nil => exact absurd rfl hne
  | cons segment rest ih =>
      have hget : get (.message message) segment = (message.lookup segment).join := rfl
      rw [extractProtobufPayloadValueFromSegments, List.foldlM_cons, hget]
      cases message.lookup segment with
      | none => rfl
      | some field =>
          cases field with
          | none => rfl
          | some value =>
              change (if rest = [] then (tryFromProtobufRef value).map some else _) =
                .ok ((rest.foldlM get value).map ofProtobuf)
              by_cases hrest : rest = []
              · rw [if_pos hrest, hrest, tryFromProtobufRef_eq]
                rfl
              · obtain ⟨next, more, rfl⟩ := List.exists_cons_of_ne_nil hrest
                rw [if_neg hrest]
                cases value with
                | message nextMessage => exact ih nextMessage hrest
                | _ => rfl

theorem extractedValue_eq (message : DynamicMessage) {segs : List String} (hne : segs ≠ []) :
    extractedValue message segs = (segs.foldlM get (.message message)).map ofProtobuf := by
  rw [extractedValue, extractProtobufPayloadValue, if_neg hne, extractFromSegments_eq message hne]
  rfl

theorem flattenDynamicMessageIntoIr_eq (ir : MsgIr) (message : DynamicMessage) :
    flattenDynamicMessageIntoIr ir message none =
      .ok (enterPaths [] ir (entryPaths (ofProtobufFields message))) := by
  induction message generalizing ir with
  | nil => rfl
  | cons e rest ih =>
      rcases e with ⟨name, none | v⟩
      · rw [flattenDynamicMessageIntoIr, ofProtobufFields]
        exact ih ir
      · have hflat := flattenPayloadValueIntoIr_eq ir (List.cons_ne_nil name []) (ofProtobuf v)
        rw [Segments.join_singleton] at hflat
        rw [flattenDynamicMessageIntoIr, tryFromProtobufRef_eq, ofProtobufFields, entryPaths,
          enterPaths_append, enterPaths_cons_map, List.nil_append, ← hflat]
        cases ofProtobuf v <;> exact ih _

/-- The full plan decodes every message, and returns for a field the last spelling of its key. -/
theorem exists_full_protobuf (message : DynamicMessage) :
    ∃ ir, MsgIr.fromProtobufMessageWithDecodePlan message .full = .ok ir ∧ ∀ f, ir.getField f =
      (lastSpelling (entryPaths (ofProtobufFields message)) f.key).map Prod.snd := by
  apply Exists.intro
  apply And.intro (flattenDynamicMessageIntoIr_eq MsgIr.new message)
  intro f
  rw [MsgIr.getField, getKey_enterPaths, MsgIr.getKey_new, Option.or_none]

/-- The full plan returns what the walk returns when no path through a map spells the key. -/
theorem lastSpelling_protobuf (message : DeclaredMessage) {key : String}
    (h : ∀ path, MapPath (.message message.1) path → Segments.join '.' path ≠ key) :
    (lastSpelling (entryPaths (ofProtobufFields message.1)) key).map Prod.snd =
      extractedValue message.1 (Segments.split '.' key) := by
  have hne := Segments.split_ne_nil '.' key
  rw [extractedValue_eq message.1 hne]
  cases hlast : lastSpelling (entryPaths (ofProtobufFields message.1)) key with
  | some q =>
      obtain ⟨hmem, hkey⟩ := mem_of_lastSpelling hlast
      have hpath := ne_nil_of_mem_entryPaths hmem
      rcases mapPath_or_walk message.2 ((nestedPaths_message hpath).mpr hmem) with
        hmap | ⟨hfree, hwalk⟩
      · exact absurd hkey (h q.1 hmap)
      · rw [← hkey, Segments.split_join '.' hfree hpath, hwalk]
        rfl
  | none =>
      symm
      rw [Option.map_none, Option.map_eq_none_iff, Option.eq_none_iff_forall_ne_some]
      intro w hw
      have hmem := (nestedPaths_message hne).mp (mem_nestedPaths_of_walk message.2 hw)
      exact lastSpelling_eq_none hlast hmem (Segments.join_split '.' key)

/-- Both plans decode the message and return the same for every required field. -/
def ProtobufPlansAgree (message : DynamicMessage) (fields : List CompiledPayloadField) : Prop :=
  ∃ sparse full, MsgIr.fromProtobufMessageWithDecodePlan message (.sparse fields) = .ok sparse ∧
    MsgIr.fromProtobufMessageWithDecodePlan message .full = .ok full ∧
    ∀ f ∈ fields, sparse.getField f = full.getField f

/-- The plans agree exactly when no required field spells a path through an entry of a map. -/
theorem protobufPlansAgree_iff (message : DeclaredMessage) {fields : List CompiledPayloadField}
    (hne : fields ≠ []) : ProtobufPlansAgree message.1 fields ↔
      ∀ f ∈ fields, ∀ path, MapPath (.message message.1) path →
        Segments.join '.' path ≠ f.key := by
  obtain ⟨sparse, hsparse, hget⟩ := exists_sparse_protobuf message.1 hne
  obtain ⟨full, hfull, hgetFull⟩ := exists_full_protobuf message.1
  constructor
  · intro hplans f hf path hmap hkey
    rcases hplans with ⟨sparse', full', hsparse', hfull', hagree⟩
    cases hsparse.symm.trans hsparse'
    cases hfull.symm.trans hfull'
    -- the walk ends at the map, yet the path itself spells the field
    have hnone : extractedValue message.1 f.segments = none := by
      rw [f.hsegments, ← hkey, extractedValue_eq message.1 (Segments.split_ne_nil '.' _),
        walk_mapPath message.2 hmap]
      rfl
    obtain ⟨p, hp⟩ := (keyPath_iff _ path).mp hmap.keyPath
    rw [nestedPaths_message hmap.ne_nil] at hp
    have hfield := hagree f hf
    rw [hget f hf, hnone, hgetFull f, eq_comm, Option.map_eq_none_iff] at hfield
    exact lastSpelling_eq_none hfield hp hkey
  · intro h
    have hagree : ∀ f ∈ fields, sparse.getField f = full.getField f := by
      intro f hf
      rw [hget f hf, hgetFull f, lastSpelling_protobuf message (h f hf), f.hsegments]
    exact ⟨sparse, full, hsparse, hfull, hagree⟩

-- a number and a map with one entry
def labelledReading : DeclaredMessage :=
  ⟨[("temp", some (.f64 F64.zero)), ("labels", some (.map [(.string "room", .bool true)]))], by
    apply WellFormed.message (by decide) (by decide)
    intro name v hv
    rcases List.mem_cons.mp hv with heq | hv
    · cases heq
      exact .scalar rfl
    · cases List.mem_singleton.mp hv
      apply WellFormed.map
      intro e he
      cases List.mem_singleton.mp he
      exact .scalar rfl⟩

theorem protobufPlansAgree_temp : ProtobufPlansAgree labelledReading.1 [.fromKey "temp"] := by
  apply (protobufPlansAgree_iff labelledReading (List.cons_ne_nil _ [])).mpr
  intro f hf path hmap hkey
  cases List.mem_singleton.mp hf
  -- a path through the map has the name of the map before a dot
  cases hmap with
  | field hv hmap =>
      rcases List.mem_cons.mp hv with heq | hv
      · cases heq
        cases hmap
      · cases List.mem_singleton.mp hv
        rw [Segments.join_cons '.' "labels" hmap.ne_nil] at hkey
        have hchars := congrArg (fun s ↦ s.toList.head?) hkey
        simp [CompiledPayloadField.fromKey] at hchars

/-- The full plan finds an entry of a map under its key; the sparse plan does not descend to it. -/
theorem not_protobufPlansAgree_map :
    ¬ ProtobufPlansAgree labelledReading.1 [.fromKey "labels.room"] := by
  intro h
  rcases h with ⟨sparse, full, hsparse, hfull, hagree⟩
  obtain ⟨sparse', hsparse', hget⟩ := exists_sparse_protobuf labelledReading.1
    (List.cons_ne_nil (CompiledPayloadField.fromKey "labels.room") [])
  obtain ⟨full', hfull', hgetFull⟩ := exists_full_protobuf labelledReading.1
  cases hsparse.symm.trans hsparse'
  cases hfull.symm.trans hfull'
  have hfield := hagree (.fromKey "labels.room") List.mem_cons_self
  rw [hget _ List.mem_cons_self, hgetFull] at hfield
  have hnone : (extractedValue labelledReading.1
      (CompiledPayloadField.fromKey "labels.room").segments).isSome = false := by decide
  have hsome : (lastSpelling (entryPaths (ofProtobufFields labelledReading.1))
      (CompiledPayloadField.fromKey "labels.room").key).isSome = true := by decide
  have hisSome := congrArg Option.isSome hfield
  rw [Option.isSome_map, hnone, hsome] at hisSome
  cases hisSome

end Tenon.Core
