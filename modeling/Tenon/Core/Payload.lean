import Tenon.Core.Protobuf
import Tenon.Core.RuleCompile

/-!
# Payload — decoding the bytes of a message

JSON bytes are parsed only when the plan asks for a field.  Protobuf bytes are decoded under every
plan, with the message type that the schema names in the descriptor set.
-/

namespace Tenon.Core

inductive PayloadErrorKind where
  | schema
  | decode
  | build
  deriving DecidableEq

inductive PayloadError where
  | schema (text : String)
  | decode (text : String)
  | build (text : String)
  deriving DecidableEq

def PayloadError.kind : PayloadError → PayloadErrorKind
  | .schema _ => .schema
  | .decode _ => .decode
  | .build _ => .build

/-- A parsed descriptor set: the message types it names and how each decodes bytes. -/
structure DescriptorPool where
  decodeMessage : String → Option (List UInt8 → Except String DynamicMessage)

inductive PayloadDecoder where
  | json
  -- without a descriptor set every payload is refused
  | protobuf (pool : Option DescriptorPool)

def decodeJsonIr (C : Crates) (payload : List UInt8) (plan : PayloadDecodePlan) :
    Except PayloadError MsgIr :=
  match plan with
  | .none => .ok MsgIr.new
  | plan => do
      let parsed ← (C.valueFromSlice payload).mapError .decode
      match parsed.1.asObject with
      | none => .error (.build "payload must be a JSON object")
      | some object => (MsgIr.fromJsonObjectWithDecodePlan object plan).mapError .build

def decodeDynamicProtobuf (pool : DescriptorPool) (payload : List UInt8) (plan : PayloadDecodePlan)
    (schemaName : String) : Except PayloadError MsgIr :=
  match pool.decodeMessage schemaName with
  | none => .error (.schema ("protobuf message not found in descriptor set: " ++ schemaName))
  | some decode => do
      let message ← (decode payload).mapError .decode
      (MsgIr.fromProtobufMessageWithDecodePlan message plan).mapError .build

def decodePayloadIr (C : Crates) (payload : List UInt8) (decoder : PayloadDecoder)
    (plan : PayloadDecodePlan) (schemaName : String) : Except PayloadError MsgIr :=
  match decoder with
  | .json => decodeJsonIr C payload plan
  | .protobuf (some pool) => decodeDynamicProtobuf pool payload plan schemaName
  | .protobuf none =>
      .error (.schema "protobuf payload decoding requires a descriptor-set file")

end Tenon.Core
