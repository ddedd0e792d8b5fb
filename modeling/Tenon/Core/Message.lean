import Mathlib.Data.List.AList

/-!
# Message — the MQTT message a rule is evaluated on
-/

namespace Tenon.Core

/-- A `HashMap<String, V>`: at most one value for each key.  The order of `entries` carries no
meaning; code that iterates a map is given its iteration order separately. -/
abbrev StringMap (V : Type) := AList fun _ : String ↦ V

structure Message where
  packetId : UInt16
  topic : String
  payload : List UInt8
  qos : UInt8
  retain : Bool
  dup : Bool
  timestampMillis : UInt64
  clientId : Option String
  username : Option String
  properties : StringMap String
  deriving DecidableEq

/-- `Message::new`: a message with every metadata field at its default. -/
def Message.new (topic : String) (payload : List UInt8) : Message :=
  { packetId := 0, topic := topic, payload := payload, qos := 0, retain := false, dup := false,
    timestampMillis := 0, clientId := none, username := none, properties := ∅ }

end Tenon.Core
