import Mathlib.Data.String.Basic
import Tenon.Core.Json
import Tenon.Core.Message
import Tenon.Reasoning.Segments

/-!
# MsgIr — decoded payloads and the JSON decode plans

A payload is decoded into a flat map from dotted field paths to values.  Under the full plan every
value of the object, at every depth, is entered under its path; under a sparse plan only the required
fields are, each found by walking the object along the segments of its key.
-/

open Reasoning Reasoning.Binary64

namespace Tenon.Core

/-- A payload field of a rule: its key and the key's segments between dots. -/
structure CompiledPayloadField where
  key : String
  segments : List String
  hsegments : segments = Segments.split '.' key
  deriving DecidableEq

namespace CompiledPayloadField

def fromKey (key : String) : CompiledPayloadField :=
  { key := key, segments := Segments.split '.' key, hsegments := rfl }

end CompiledPayloadField

inductive PayloadValue where
  | null
  | bool (b : Bool)
  | number (x : F64)
  | string (s : String)
  | array (values : List PayloadValue)
  | object (entries : List (String × PayloadValue))

namespace PayloadValue

mutual

def toJsonValue : PayloadValue → JsonValue
  | .null => .null
  | .bool b => .bool b
  | .number x =>
      if x.isFinite && x.fractIsZero && F64.zero.le x && x.le (F64.ofNat (2 ^ 64 - 1)) then
        .number (.fromU64 (.ofNat x.toU64))
      else if x.isFinite && x.fractIsZero && (F64.ofInt (-2 ^ 63)).le x &&
          x.le (F64.ofInt (2 ^ 63 - 1)) then
        .number (.fromI64 (.ofInt x.toI64))
      else ((Number.fromF64 x).map .number).getD .null
  | .string s => .string s
  | .array values => .array (toJsonValues values)
  | .object entries => .object (JsonMap.collect (toJsonEntries entries))

def toJsonValues : List PayloadValue → List JsonValue
  | [] => []
  | v :: vs => v.toJsonValue :: toJsonValues vs

def toJsonEntries : List (String × PayloadValue) → List (String × JsonValue)
  | [] => []
  | (key, v) :: es => (key, v.toJsonValue) :: toJsonEntries es

end

/-- A finite double becomes an unsigned integer, a signed one when it is negative, or stays a double;
in the last case it failed the range test of the unsigned integers. -/
theorem toJsonValue_number {x : F64} (h : x.isFinite = true) :
    (x.fractIsZero = true ∧ F64.zero.le x = true ∧ x.le (F64.ofNat (2 ^ 64 - 1)) = true ∧
      toJsonValue (.number x) = .number (.fromU64 (.ofNat x.toU64))) ∨
    (x.fractIsZero = true ∧ F64.zero.le x = false ∧ (F64.ofInt (-2 ^ 63)).le x = true ∧
      toJsonValue (.number x) = .number (.fromI64 (.ofInt x.toI64))) ∨
    (¬ (x.fractIsZero = true ∧ F64.zero.le x = true ∧ x.le (F64.ofNat (2 ^ 64 - 1)) = true) ∧
      toJsonValue (.number x) = .number (.float x h)) := by
  rw [toJsonValue]
  split
  · rename_i hu
    simp only [Bool.and_eq_true] at hu
    rcases hu with ⟨⟨⟨-, hfract⟩, hlo⟩, hhi⟩
    exact Or.inl ⟨hfract, hlo, hhi, rfl⟩
  · rename_i hu
    have hnot : ¬ (x.fractIsZero = true ∧ F64.zero.le x = true ∧
        x.le (F64.ofNat (2 ^ 64 - 1)) = true) := by
      rintro ⟨hfract, hlo, hhi⟩
      apply hu
      rw [h, hfract, hlo, hhi]
      rfl
    right
    split
    · rename_i hi
      simp only [Bool.and_eq_true] at hi
      rcases hi with ⟨⟨⟨-, hfract⟩, hlo⟩, hhi⟩
      -- a value in the signed range that failed the unsigned test is negative
      have hneg : F64.zero.le x = false := by
        by_contra hpos
        rw [Bool.not_eq_false] at hpos
        exact hnot ⟨hfract, hpos, F64.le_trans hhi F64.i64Max_le_u64Max⟩
      exact Or.inl ⟨hfract, hneg, hlo, rfl⟩
    · have hsome : Number.fromF64 x = some (.float x h) := Number.fromF64_eq_some.mpr ⟨h, rfl⟩
      rw [hsome]
      exact Or.inr ⟨hnot, rfl⟩

mutual

def tryFromJsonRef : JsonValue → Except String PayloadValue
  | .null => .ok .null
  | .bool b => .ok (.bool b)
  | .number n =>
      match n.asF64 with
      | some x => .ok (.number x)
      | none => .error "unsupported non-f64 JSON number"
  | .string s => .ok (.string s)
  | .array values => (tryFromJsonValues values).map .array
  | .object entries => (tryFromJsonEntries entries).map .object

def tryFromJsonValues : List JsonValue → Except String (List PayloadValue)
  | [] => .ok []
  | v :: vs => do
      let v ← tryFromJsonRef v
      let vs ← tryFromJsonValues vs
      return v :: vs

def tryFromJsonEntries : List (String × JsonValue) → Except String (List (String × PayloadValue))
  | [] => .ok []
  | (key, v) :: es => do
      let v ← tryFromJsonRef v
      let es ← tryFromJsonEntries es
      return (key, v) :: es

end

end PayloadValue

/-- The decoded payload: a slot for each key and the value in each slot.  Every slot lies in
`values`, and no two keys share one. -/
structure MsgIr where
  slotByKey : StringMap Nat
  values : List (Option PayloadValue)
  hslots : ∀ key slot, slotByKey.lookup key = some slot → slot < values.length
  hinj : ∀ key key' slot, slotByKey.lookup key = some slot → slotByKey.lookup key' = some slot →
    key = key'

namespace MsgIr

def new : MsgIr where
  slotByKey := ∅
  values := []
  hslots := by simp
  hinj := by simp

-- `self.values[slot] = Some(value)`
def setSlot (ir : MsgIr) (slot : Nat) (value : PayloadValue) : MsgIr where
  slotByKey := ir.slotByKey
  values := ir.values.set slot (some value)
  hslots key slot' h := by
    rw [List.length_set]
    exact ir.hslots key slot' h
  hinj := ir.hinj

-- the slot after the last one
def pushSlot (ir : MsgIr) (key : String) (value : PayloadValue) : MsgIr where
  slotByKey := ir.slotByKey.insert key ir.values.length
  values := ir.values ++ [some value]
  hslots key' slot h := by
    rw [List.length_append, List.length_singleton]
    by_cases heq : key' = key
    · rw [heq, AList.lookup_insert] at h
      have hlast := Option.some.inj h
      omega
    · rw [AList.lookup_insert_ne heq] at h
      have hlt := ir.hslots key' slot h
      omega
  hinj a b slot ha hb := by
    by_cases hak : a = key <;> by_cases hbk : b = key
    · rw [hak, hbk]
    · -- an old key cannot have the slot after the last
      rw [hak, AList.lookup_insert] at ha
      rw [AList.lookup_insert_ne hbk] at hb
      have hlt := ir.hslots b slot hb
      have hlast := Option.some.inj ha
      omega
    · rw [hbk, AList.lookup_insert] at hb
      rw [AList.lookup_insert_ne hak] at ha
      have hlt := ir.hslots a slot ha
      have hlast := Option.some.inj hb
      omega
    · rw [AList.lookup_insert_ne hak] at ha
      rw [AList.lookup_insert_ne hbk] at hb
      exact ir.hinj a b slot ha hb

def insert (ir : MsgIr) (path : String) (value : PayloadValue) : MsgIr :=
  match ir.slotByKey.lookup path with
  | some slot => ir.setSlot slot value
  | none => ir.pushSlot path value

def getKey (ir : MsgIr) (key : String) : Option PayloadValue :=
  (ir.slotByKey.lookup key).bind fun slot ↦ (ir.values[slot]?).join

def getField (ir : MsgIr) (field : CompiledPayloadField) : Option PayloadValue :=
  ir.getKey field.key

-- `slot_by_key` of the sparse layout: the last slot of each key wins
def sparseSlots (fields : List (CompiledPayloadField × Nat)) (slots : StringMap Nat) :
    StringMap Nat :=
  fields.foldl (fun slots e ↦ slots.insert e.1.key e.2) slots

theorem mem_of_lookup_sparseSlots {fields all : List (CompiledPayloadField × Nat)}
    {slots : StringMap Nat} (hsub : ∀ e ∈ fields, e ∈ all)
    (hslots : ∀ key slot, slots.lookup key = some slot → ∃ f, (f, slot) ∈ all ∧ f.key = key)
    {key : String} {slot : Nat} (h : (sparseSlots fields slots).lookup key = some slot) :
    ∃ f, (f, slot) ∈ all ∧ f.key = key := by
  induction fields generalizing slots with
  | nil => exact hslots key slot h
  | cons e rest ih =>
      have hrest : ∀ e' ∈ rest, e' ∈ all := fun e' he' ↦ hsub e' (List.mem_cons_of_mem _ he')
      apply ih hrest _ h
      intro key' slot' h'
      by_cases heq : key' = e.1.key
      · rw [heq, AList.lookup_insert] at h'
        cases Option.some.inj h'
        exact ⟨e.1, hsub e List.mem_cons_self, heq.symm⟩
      · rw [AList.lookup_insert_ne heq] at h'
        exact hslots key' slot' h'

theorem isSome_lookup_sparseSlots {fields : List (CompiledPayloadField × Nat)}
    {slots : StringMap Nat} {key : String}
    (h : (∃ e ∈ fields, e.1.key = key) ∨ (slots.lookup key).isSome) :
    ((sparseSlots fields slots).lookup key).isSome := by
  induction fields generalizing slots with
  | nil => exact h.resolve_left (by simp)
  | cons e rest ih =>
      apply ih
      by_cases heq : key = e.1.key
      · right
        rw [heq, AList.lookup_insert]
        rfl
      · rcases h with ⟨e', he', hkey⟩ | hsome
        · rcases List.mem_cons.mp he' with rfl | hrest
          · exact absurd hkey.symm heq
          · exact Or.inl ⟨e', hrest, hkey⟩
        · right
          rwa [AList.lookup_insert_ne heq]

theorem lookup_sparseLayout {fields : List CompiledPayloadField} {key : String} {slot : Nat}
    (h : (sparseSlots fields.zipIdx ∅).lookup key = some slot) :
    ∃ f, fields[slot]? = some f ∧ f.key = key := by
  have hfield : ∃ f, (f, slot) ∈ fields.zipIdx ∧ f.key = key :=
    mem_of_lookup_sparseSlots (fun _ he ↦ he) (by simp) h
  rcases hfield with ⟨f, hmem, hkey⟩
  exact ⟨f, List.mem_zipIdx_iff_getElem?.mp hmem, hkey⟩

def withSparseLayout (fields : List CompiledPayloadField) : MsgIr where
  slotByKey := sparseSlots fields.zipIdx ∅
  values := List.replicate fields.length none
  hslots key slot h := by
    obtain ⟨f, hf, -⟩ := lookup_sparseLayout h
    rw [List.length_replicate]
    exact (List.getElem?_eq_some_iff.mp hf).1
  hinj a b slot ha hb := by
    obtain ⟨f, hf, rfl⟩ := lookup_sparseLayout ha
    obtain ⟨g, hg, rfl⟩ := lookup_sparseLayout hb
    rw [Option.some.inj (hf.symm.trans hg)]

def insertSparse (ir : MsgIr) (field : CompiledPayloadField) (value : PayloadValue) : MsgIr :=
  match ir.slotByKey.lookup field.key with
  | some slot => ir.setSlot slot value
  -- a debug assertion in the source: the layout has every required field
  | none => ir

/-! ## What a lookup returns after each update -/

@[simp]
theorem getKey_new (key : String) : new.getKey key = none := by
  simp [getKey, new]

theorem getKey_setSlot (ir : MsgIr) {key : String} {slot : Nat} (value : PayloadValue)
    (h : ir.slotByKey.lookup key = some slot) (key' : String) :
    (ir.setSlot slot value).getKey key' = if key' = key then some value else ir.getKey key' := by
  by_cases heq : key' = key
  · subst heq
    have hlt := ir.hslots key' slot h
    simp [getKey, setSlot, h, hlt]
  · rw [if_neg heq]
    change (ir.slotByKey.lookup key').bind _ = (ir.slotByKey.lookup key').bind _
    cases hkey' : ir.slotByKey.lookup key' with
    | none => rfl
    | some slot' =>
        -- two keys never share a slot, so the write is elsewhere
        have hne : slot ≠ slot' := by
          intro hsame
          subst hsame
          exact heq (ir.hinj key' key slot hkey' h)
        change ((ir.values.set slot (some value))[slot']?).join = (ir.values[slot']?).join
        rw [List.getElem?_set_ne hne]

theorem getKey_pushSlot (ir : MsgIr) {key : String} (value : PayloadValue) (key' : String) :
    (ir.pushSlot key value).getKey key' = if key' = key then some value else ir.getKey key' := by
  by_cases heq : key' = key
  · subst heq
    simp [getKey, pushSlot]
  · rw [if_neg heq]
    change (AList.lookup key' (ir.slotByKey.insert key ir.values.length)).bind _ =
      (ir.slotByKey.lookup key').bind _
    rw [AList.lookup_insert_ne heq]
    cases hkey' : ir.slotByKey.lookup key' with
    | none => rfl
    | some slot' =>
        change ((ir.values ++ [some value])[slot']?).join = (ir.values[slot']?).join
        rw [List.getElem?_append_left (ir.hslots key' slot' hkey')]

@[simp]
theorem getKey_insert (ir : MsgIr) (path : String) (value : PayloadValue) (key : String) :
    (ir.insert path value).getKey key = if key = path then some value else ir.getKey key := by
  unfold insert
  split
  · exact getKey_setSlot ir value ‹_› key
  · exact getKey_pushSlot ir value key

@[simp]
theorem getKey_withSparseLayout (fields : List CompiledPayloadField) (key : String) :
    (withSparseLayout fields).getKey key = none := by
  change (AList.lookup key (sparseSlots fields.zipIdx ∅)).bind _ = none
  cases AList.lookup key (sparseSlots fields.zipIdx ∅) with
  | none => rfl
  | some slot =>
      change ((List.replicate fields.length none)[slot]?).join = none
      rw [List.getElem?_replicate]
      split <;> rfl

-- the keys a sparse layout has a slot for
def HasSlot (ir : MsgIr) (key : String) : Prop := (ir.slotByKey.lookup key).isSome

theorem hasSlot_withSparseLayout {fields : List CompiledPayloadField} {f : CompiledPayloadField}
    (h : f ∈ fields) : (withSparseLayout fields).HasSlot f.key := by
  obtain ⟨i, hi⟩ := List.mem_iff_getElem?.mp h
  exact isSome_lookup_sparseSlots (Or.inl ⟨(f, i), List.mem_zipIdx_iff_getElem?.mpr hi, rfl⟩)

theorem HasSlot.insertSparse {ir : MsgIr} {key : String} (h : ir.HasSlot key)
    (field : CompiledPayloadField) (value : PayloadValue) :
    (ir.insertSparse field value).HasSlot key := by
  unfold MsgIr.insertSparse
  split <;> exact h

theorem getKey_insertSparse {ir : MsgIr} {field : CompiledPayloadField} (h : ir.HasSlot field.key)
    (value : PayloadValue) (key : String) :
    (ir.insertSparse field value).getKey key =
      if key = field.key then some value else ir.getKey key := by
  obtain ⟨slot, hslot⟩ := Option.isSome_iff_exists.mp h
  unfold MsgIr.insertSparse
  rw [hslot]
  exact getKey_setSlot ir value hslot key

/-! ## Filling a sparse layout -/

-- every field that is found goes to its slot
def fillSparse (find : List String → Option PayloadValue) (ir : MsgIr)
    (fields : List CompiledPayloadField) : MsgIr :=
  match fields with
  | [] => ir
  | field :: rest =>
      match find field.segments with
      | some value => fillSparse find (ir.insertSparse field value) rest
      | none => fillSparse find ir rest

theorem getKey_fillSparse (find : List String → Option PayloadValue) {ir : MsgIr}
    {fields : List CompiledPayloadField} (hslots : ∀ f ∈ fields, ir.HasSlot f.key) (key : String) :
    (fillSparse find ir fields).getKey key =
      if (∃ f ∈ fields, f.key = key) then (find (Segments.split '.' key)).or (ir.getKey key)
      else ir.getKey key := by
  induction fields generalizing ir with
  | nil => simp [fillSparse]
  | cons field rest ih =>
      have hrest : ∀ f ∈ rest, ir.HasSlot f.key := fun f hf ↦ hslots f (List.mem_cons_of_mem _ hf)
      rw [fillSparse, field.hsegments]
      cases hfind : find (Segments.split '.' field.key) with
      | none =>
          change (fillSparse find ir rest).getKey key = _
          rw [ih hrest]
          by_cases hkey : field.key = key
          · -- an absent field leaves its slot as it was
            subst hkey
            simp [hfind]
          · simp [hkey]
      | some value =>
          change (fillSparse find (ir.insertSparse field value) rest).getKey key = _
          rw [ih fun f hf ↦ (hrest f hf).insertSparse field value,
            getKey_insertSparse (hslots field List.mem_cons_self)]
          by_cases hkey : key = field.key
          · subst hkey
            simp [hfind]
          · simp [hkey, Ne.symm hkey]

/-- A filled sparse layout returns for a required field what was found for it. -/
theorem getField_fillSparse (find : List String → Option PayloadValue)
    {fields : List CompiledPayloadField} {f : CompiledPayloadField} (hf : f ∈ fields) :
    (fillSparse find (withSparseLayout fields) fields).getField f = find f.segments := by
  rw [getField, getKey_fillSparse find fun f hf ↦ hasSlot_withSparseLayout hf,
    if_pos ⟨f, hf, rfl⟩, getKey_withSparseLayout, Option.or_none, f.hsegments]

end MsgIr

/-! ## JSON decoding -/

/-- Which fields of a payload to decode. -/
inductive PayloadDecodePlan where
  | none
  | sparse (fields : List CompiledPayloadField)
  | full

def lookupJsonPath (map : JsonMap) (segments : List String) : Option JsonValue :=
  match segments with
  | [] => none
  | first :: rest => (map.lookup first).bind fun value ↦ rest.foldlM JsonValue.get value

mutual

def flattenPayloadValueIntoIr (ir : MsgIr) (path : String) : PayloadValue → MsgIr
  | .object entries => flattenEntriesIntoIr (ir.insert path (.object entries)) path entries
  | value => ir.insert path value

-- the loop over the entries of an object at `path`
def flattenEntriesIntoIr (ir : MsgIr) (path : String) : List (String × PayloadValue) → MsgIr
  | [] => ir
  | (key, child) :: rest =>
      flattenEntriesIntoIr (flattenPayloadValueIntoIr ir (path ++ "." ++ key) child) path rest

end

def flattenJsonValueIntoIr (ir : MsgIr) (path : String) (value : JsonValue) :
    Except String MsgIr := do
  let payload ← PayloadValue.tryFromJsonRef value
  let ir := ir.insert path payload
  match payload with
  | .object entries => return flattenEntriesIntoIr ir path entries
  | _ => return ir

namespace MsgIr

def fromJsonObjectRef (map : JsonMap) : Except String MsgIr :=
  map.foldlM (fun ir e ↦ flattenJsonValueIntoIr ir e.1 e.2) new

-- the loop over the required fields of a sparse plan
def insertJsonFields (map : JsonMap) (ir : MsgIr) : List CompiledPayloadField → Except String MsgIr
  | [] => .ok ir
  | field :: rest =>
      match lookupJsonPath map field.segments with
      | some value => do
          let payload ← PayloadValue.tryFromJsonRef value
          insertJsonFields map (ir.insertSparse field payload) rest
      | none => insertJsonFields map ir rest

def fromJsonObjectWithDecodePlan (map : JsonMap) : PayloadDecodePlan → Except String MsgIr
  | .none => .ok new
  | .sparse fields =>
      if fields ≠ [] then insertJsonFields map (withSparseLayout fields) fields
      else fromJsonObjectRef map
  | .full => fromJsonObjectRef map

end MsgIr

end Tenon.Core
