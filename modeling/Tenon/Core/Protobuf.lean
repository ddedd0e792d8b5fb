import Tenon.Core.MsgIr

/-!
# Protobuf — dynamic messages and their decode plans

A dynamic message lists the fields its descriptor declares with the value of each field that is
present.  Conversion to payload values never fails: every kind of protobuf value has an image.
-/

open Reasoning.Binary64

namespace Tenon.Core

inductive ProtobufMapKey where
  | bool (b : Bool)
  | i32 (n : Int32)
  | i64 (n : Int64)
  | u32 (n : UInt32)
  | u64 (n : UInt64)
  | string (s : String)

/-- `prost_reflect::Value`.  A message carries its declared fields in descriptor order, absent ones
without a value; a map carries its entries in the order it iterates them. -/
inductive ProtobufValue where
  | bool (b : Bool)
  | i32 (n : Int32)
  | i64 (n : Int64)
  | u32 (n : UInt32)
  | u64 (n : UInt64)
  -- a single-precision number, already widened
  | f32 (x : F64)
  | f64 (x : F64)
  | string (s : String)
  | bytes (bs : List UInt8)
  | enumNumber (n : Int32)
  | message (fields : List (String × Option ProtobufValue))
  | list (values : List ProtobufValue)
  | map (entries : List (ProtobufMapKey × ProtobufValue))

abbrev DynamicMessage := List (String × Option ProtobufValue)

def protobufMapKeyToString : ProtobufMapKey → String
  | .bool b => if b then "true" else "false"
  | .i32 n => toString n.toInt
  | .i64 n => toString n.toInt
  | .u32 n => toString n.toNat
  | .u64 n => toString n.toNat
  | .string s => s

mutual

def PayloadValue.tryFromProtobufRef : ProtobufValue → Except String PayloadValue
  | .bool b => .ok (.bool b)
  | .i32 n => .ok (.number (F64.ofInt n.toInt))
  | .i64 n => .ok (.number (F64.ofInt n.toInt))
  | .u32 n => .ok (.number (F64.ofNat n.toNat))
  | .u64 n => .ok (.number (F64.ofNat n.toNat))
  | .f32 x => .ok (.number x)
  | .f64 x => .ok (.number x)
  | .string s => .ok (.string s)
  | .bytes bs => .ok (.array (bs.map fun b ↦ .number (F64.ofNat b.toNat)))
  | .enumNumber n => .ok (.number (F64.ofInt n.toInt))
  -- `message_to_payload_value`
  | .message fields => (tryFromProtobufFields fields).map .object
  | .list values => (tryFromProtobufValues values).map .array
  | .map entries => (tryFromProtobufEntries entries).map .object

def tryFromProtobufValues : List ProtobufValue → Except String (List PayloadValue)
  | [] => .ok []
  | v :: vs => do
      let v ← PayloadValue.tryFromProtobufRef v
      let vs ← tryFromProtobufValues vs
      return v :: vs

-- `fields()` yields the present fields only
def tryFromProtobufFields :
    List (String × Option ProtobufValue) → Except String (List (String × PayloadValue))
  | [] => .ok []
  | (_, none) :: fields => tryFromProtobufFields fields
  | (name, some v) :: fields => do
      let v ← PayloadValue.tryFromProtobufRef v
      let fields ← tryFromProtobufFields fields
      return (name, v) :: fields

def tryFromProtobufEntries :
    List (ProtobufMapKey × ProtobufValue) → Except String (List (String × PayloadValue))
  | [] => .ok []
  | (key, v) :: entries => do
      let v ← PayloadValue.tryFromProtobufRef v
      let entries ← tryFromProtobufEntries entries
      return (protobufMapKeyToString key, v) :: entries

end

def messageToPayloadValue (message : DynamicMessage) : Except String PayloadValue :=
  (tryFromProtobufFields message).map .object

@[simp]
theorem tryFromProtobufRef_message (message : DynamicMessage) :
    PayloadValue.tryFromProtobufRef (.message message) = messageToPayloadValue message := rfl

def extractProtobufPayloadValueFromSegments (message : DynamicMessage) :
    List String → Except String (Option PayloadValue)
  | [] => .ok none
  | segment :: rest =>
      match message.lookup segment with
      -- not declared, or declared and absent
      | none | some none => .ok none
      | some (some value) =>
          if rest = [] then (PayloadValue.tryFromProtobufRef value).map some
          else
            match value with
            | .message nextMessage => extractProtobufPayloadValueFromSegments nextMessage rest
            | _ => .ok none

def extractProtobufPayloadValue (message : DynamicMessage) (segments : List String) :
    Except String (Option PayloadValue) :=
  if segments = [] then .ok none
  else extractProtobufPayloadValueFromSegments message segments

def flattenDynamicMessageIntoIr (ir : MsgIr) (message : DynamicMessage) (pfx : Option String) :
    Except String MsgIr :=
  match message with
  | [] => .ok ir
  | (_, none) :: fields => flattenDynamicMessageIntoIr ir fields pfx
  | (name, some value) :: fields => do
      let path := match pfx with
        | some pfx => pfx ++ "." ++ name
        | none => name
      let payload ← PayloadValue.tryFromProtobufRef value
      let ir := ir.insert path payload
      let ir := match payload with
        | .object entries => flattenEntriesIntoIr ir path entries
        | _ => ir
      flattenDynamicMessageIntoIr ir fields pfx

namespace MsgIr

-- the loop over the required fields of a sparse plan
def insertProtobufFields (message : DynamicMessage) (ir : MsgIr) :
    List CompiledPayloadField → Except String MsgIr
  | [] => .ok ir
  | field :: rest => do
      match ← extractProtobufPayloadValue message field.segments with
      | some value => insertProtobufFields message (ir.insertSparse field value) rest
      | none => insertProtobufFields message ir rest

def fromProtobufMessageWithDecodePlan (message : DynamicMessage) :
    PayloadDecodePlan → Except String MsgIr
  | .none => .ok new
  | .sparse fields =>
      if fields ≠ [] then insertProtobufFields message (withSparseLayout fields) fields
      else flattenDynamicMessageIntoIr new message none
  | .full => flattenDynamicMessageIntoIr new message none

end MsgIr

/-! ## Conversion is total -/

namespace PayloadValue

mutual

/-- The payload value of a protobuf value; the fallible conversion always returns it. -/
def ofProtobuf : ProtobufValue → PayloadValue
  | .bool b => .bool b
  | .i32 n => .number (F64.ofInt n.toInt)
  | .i64 n => .number (F64.ofInt n.toInt)
  | .u32 n => .number (F64.ofNat n.toNat)
  | .u64 n => .number (F64.ofNat n.toNat)
  | .f32 x => .number x
  | .f64 x => .number x
  | .string s => .string s
  | .bytes bs => .array (bs.map fun b ↦ .number (F64.ofNat b.toNat))
  | .enumNumber n => .number (F64.ofInt n.toInt)
  | .message fields => .object (ofProtobufFields fields)
  | .list values => .array (ofProtobufValues values)
  | .map entries => .object (ofProtobufEntries entries)

def ofProtobufValues : List ProtobufValue → List PayloadValue
  | [] => []
  | v :: vs => ofProtobuf v :: ofProtobufValues vs

def ofProtobufFields : List (String × Option ProtobufValue) → List (String × PayloadValue)
  | [] => []
  | (_, none) :: fields => ofProtobufFields fields
  | (name, some v) :: fields => (name, ofProtobuf v) :: ofProtobufFields fields

def ofProtobufEntries :
    List (ProtobufMapKey × ProtobufValue) → List (String × PayloadValue)
  | [] => []
  | (key, v) :: entries =>
      (protobufMapKeyToString key, ofProtobuf v) :: ofProtobufEntries entries

end

end PayloadValue

open PayloadValue

mutual

@[simp]
theorem tryFromProtobufRef_eq (v : ProtobufValue) : tryFromProtobufRef v = .ok (ofProtobuf v) := by
  cases v with
  | message fields =>
      rw [tryFromProtobufRef, tryFromProtobufFields_eq fields]
      rfl
  | list values =>
      rw [tryFromProtobufRef, tryFromProtobufValues_eq values]
      rfl
  | map entries =>
      rw [tryFromProtobufRef, tryFromProtobufEntries_eq entries]
      rfl
  | _ => rfl

theorem tryFromProtobufValues_eq (vs : List ProtobufValue) :
    tryFromProtobufValues vs = .ok (ofProtobufValues vs) := by
  cases vs with
  | nil => rfl
  | cons v vs =>
      rw [tryFromProtobufValues, tryFromProtobufRef_eq v, tryFromProtobufValues_eq vs]
      rfl

theorem tryFromProtobufFields_eq (fields : List (String × Option ProtobufValue)) :
    tryFromProtobufFields fields = .ok (ofProtobufFields fields) := by
  match fields with
  | [] => rfl
  | (_, none) :: fields =>
      rw [tryFromProtobufFields, tryFromProtobufFields_eq fields]
      rfl
  | (_, some v) :: fields =>
      rw [tryFromProtobufFields, tryFromProtobufRef_eq v, tryFromProtobufFields_eq fields]
      rfl

theorem tryFromProtobufEntries_eq (entries : List (ProtobufMapKey × ProtobufValue)) :
    tryFromProtobufEntries entries = .ok (ofProtobufEntries entries) := by
  match entries with
  | [] => rfl
  | (_, v) :: entries =>
      rw [tryFromProtobufEntries, tryFromProtobufRef_eq v, tryFromProtobufEntries_eq entries]
      rfl

end

theorem exists_extractProtobufPayloadValue (message : DynamicMessage) (segments : List String) :
    ∃ value, extractProtobufPayloadValue message segments = .ok value := by
  unfold extractProtobufPayloadValue
  split
  · exact ⟨none, rfl⟩
  · fun_induction extractProtobufPayloadValueFromSegments message segments with
    | case1 => exact ⟨none, rfl⟩
    | case2 => exact ⟨none, rfl⟩
    | case3 => exact ⟨none, rfl⟩
    | case4 _ _ value => exact ⟨some (ofProtobuf value), by rw [tryFromProtobufRef_eq]; rfl⟩
    | case5 _ _ _ _ _ _ ih => exact ih ‹_›
    | case6 => exact ⟨none, rfl⟩

-- the value along the segments, for a message whose extraction is known not to fail
def extractedValue (message : DynamicMessage) (segments : List String) : Option PayloadValue :=
  ((extractProtobufPayloadValue message segments).toOption).join

theorem extractProtobufPayloadValue_eq (message : DynamicMessage) (segments : List String) :
    extractProtobufPayloadValue message segments = .ok (extractedValue message segments) := by
  obtain ⟨value, hvalue⟩ := exists_extractProtobufPayloadValue message segments
  rw [extractedValue, hvalue]
  rfl

theorem insertProtobufFields_eq (message : DynamicMessage) (ir : MsgIr)
    (fields : List CompiledPayloadField) :
    MsgIr.insertProtobufFields message ir fields =
      .ok (ir.fillSparse (extractedValue message) fields) := by
  induction fields generalizing ir with
  | nil => rfl
  | cons field rest ih =>
      rw [MsgIr.insertProtobufFields, MsgIr.fillSparse, extractProtobufPayloadValue_eq]
      cases extractedValue message field.segments with
      | none => exact ih ir
      | some value => exact ih (ir.insertSparse field value)

/-- A sparse plan decodes every message, and returns for a required field the value along its
segments. -/
theorem exists_sparse_protobuf (message : DynamicMessage) {fields : List CompiledPayloadField}
    (hne : fields ≠ []) :
    ∃ ir, MsgIr.fromProtobufMessageWithDecodePlan message (.sparse fields) = .ok ir ∧
      ∀ f ∈ fields, ir.getField f = extractedValue message f.segments := by
  have hdecode : MsgIr.fromProtobufMessageWithDecodePlan message (.sparse fields) =
      .ok ((MsgIr.withSparseLayout fields).fillSparse (extractedValue message) fields) := by
    rw [MsgIr.fromProtobufMessageWithDecodePlan, if_pos hne]
    exact insertProtobufFields_eq message _ fields
  exact ⟨_, hdecode, fun f hf ↦ MsgIr.getField_fillSparse _ hf⟩

end Tenon.Core
