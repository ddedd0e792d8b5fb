import Tenon.Reasoning.Binary64

/-!
# Json — the JSON values of `serde_json`

Numbers keep the three forms of `serde_json::Number`; the signed form holds negative values only
and the float form finite ones, which the constructors ask for.  An object is the list of its
entries in the order its `BTreeMap` iterates them, by increasing key.
-/

open Reasoning.Binary64

namespace Tenon.Core

inductive Number where
  | posInt (n : UInt64)
  | negInt (i : Int64) (h : i.toInt < 0)
  | float (x : F64) (h : x.isFinite = true)
  deriving DecidableEq

inductive JsonValue where
  | null
  | bool (b : Bool)
  | number (n : Number)
  | string (s : String)
  | array (values : List JsonValue)
  | object (entries : List (String × JsonValue))

/-- `serde_json::Map<String, Value>`. -/
abbrev JsonMap := List (String × JsonValue)

namespace Number

/-- `Number::from(u64)`. -/
def fromU64 (n : UInt64) : Number := .posInt n

/-- `Number::from(i64)`. -/
def fromI64 (i : Int64) : Number :=
  if h : i.toInt < 0 then .negInt i h else .posInt i.toUInt64

/-- `Number::from_f64`: non-finite values have no JSON number. -/
def fromF64 (x : F64) : Option Number :=
  if h : x.isFinite = true then some (.float x h) else none

def asF64 : Number → Option F64
  | .posInt n => some (F64.ofNat n.toNat)
  | .negInt i _ => some (F64.ofInt i.toInt)
  | .float x _ => some x

def asU64 : Number → Option UInt64
  | .posInt n => some n
  | _ => none

@[simp]
theorem fromF64_eq_some {x : F64} {n : Number} :
    fromF64 x = some n ↔ ∃ h : x.isFinite = true, n = .float x h := by
  unfold fromF64
  split
  · simp [*, eq_comm]
  · simp [*]

end Number

namespace JsonMap

/-- `Map::insert`: the entry at `key` is replaced, or a new one goes to its place in key order. -/
def insert (map : JsonMap) (key : String) (value : JsonValue) : JsonMap :=
  match map with
  | [] => [(key, value)]
  | (k, v) :: rest =>
      if key < k then (key, value) :: (k, v) :: rest
      else if key = k then (key, value) :: rest
      else (k, v) :: insert rest key value

-- collecting an iterator of pairs inserts them one by one
def collect (entries : List (String × JsonValue)) : JsonMap :=
  entries.foldl (fun map e ↦ map.insert e.1 e.2) []

end JsonMap

namespace JsonValue

def asF64 : JsonValue → Option F64
  | .number n => n.asF64
  | _ => none

def asU64 : JsonValue → Option UInt64
  | .number n => n.asU64
  | _ => none

def asStr : JsonValue → Option String
  | .string s => some s
  | _ => none

def asBool : JsonValue → Option Bool
  | .bool b => some b
  | _ => none

def asObject : JsonValue → Option JsonMap
  | .object entries => some entries
  | _ => none

/-- `Value::get` with a text index: only objects have members. -/
def get (v : JsonValue) (key : String) : Option JsonValue :=
  match v with
  | .object entries => entries.lookup key
  | _ => none

/-- Objects list their entries by increasing key, at every depth, as a `BTreeMap` does. -/
inductive Sorted : JsonValue → Prop where
  | null : Sorted .null
  | bool (b : Bool) : Sorted (.bool b)
  | number (n : Number) : Sorted (.number n)
  | string (s : String) : Sorted (.string s)
  | array {values : List JsonValue} (h : ∀ v ∈ values, Sorted v) : Sorted (.array values)
  | object {entries : JsonMap} (hkeys : entries.Pairwise fun a b ↦ a.1 < b.1)
      (h : ∀ e ∈ entries, Sorted e.2) : Sorted (.object entries)

theorem Sorted.keys {entries : JsonMap} (h : Sorted (.object entries)) :
    entries.Pairwise fun a b ↦ a.1 < b.1 := by
  cases h with
  | object hkeys _ => exact hkeys

theorem Sorted.value {entries : JsonMap} (h : Sorted (.object entries)) {e : String × JsonValue}
    (he : e ∈ entries) : Sorted e.2 := by
  cases h with
  | object _ hall => exact hall e he

end JsonValue

/-- A parsed document: a JSON value whose objects are in `BTreeMap` order. -/
abbrev JsonDocument := { v : JsonValue // v.Sorted }

end Tenon.Core
