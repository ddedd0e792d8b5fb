import Tenon.Core.Message

/-!
# MqttMessage — the message of a published packet

An event loop turns each packet into a message.  Its properties are the content type and the user
properties, of which a later one replaces an earlier one of the same name.
-/

namespace Tenon.Core

inductive QoS where
  | atMostOnce
  | atLeastOnce
  | exactlyOnce

def QoS.toUInt8 : QoS → UInt8
  | .atMostOnce => 0
  | .atLeastOnce => 1
  | .exactlyOnce => 2

structure PublishProperties where
  contentType : Option String
  userProperties : List (String × String)

structure Publish where
  dup : Bool
  qos : QoS
  retain : Bool
  topic : List UInt8
  pkid : UInt16
  payload : List UInt8
  properties : Option PublishProperties

-- the loop over the user properties
def insertUserProperties (properties : StringMap String) : List (String × String) → StringMap String
  | [] => properties
  | (key, value) :: rest => insertUserProperties (properties.insert key value) rest

def PublishProperties.toMap (properties : PublishProperties) : StringMap String :=
  let named : StringMap String :=
    match properties.contentType with
    | some contentType => (∅ : StringMap String).insert "content-type" contentType
    | none => ∅
  insertUserProperties named properties.userProperties

/-- What the event loop does before it calls the handler: `fromUtf8Lossy` is `String::from_utf8_lossy`
and `nowMillis` the time since the epoch, or 0 before it. -/
def Publish.toMessage (fromUtf8Lossy : List UInt8 → String) (nowMillis : UInt64) (publish : Publish) :
    Message :=
  { Message.new (fromUtf8Lossy publish.topic) publish.payload with
    qos := publish.qos.toUInt8
    packetId := publish.pkid
    retain := publish.retain
    dup := publish.dup
    timestampMillis := nowMillis
    properties :=
      match publish.properties with
      | some properties => properties.toMap
      | none => ∅ }

/-! ## The properties of the message -/

/-- The last user property of the name, or else what was there before. -/
theorem lookup_insertUserProperties (properties : StringMap String) (entries : List (String × String))
    (key : String) :
    (insertUserProperties properties entries).lookup key =
      ((entries.reverse.find? fun e ↦ e.1 = key).map Prod.snd).or (properties.lookup key) := by
  induction entries generalizing properties with
  | nil => rfl
  | cons e rest ih =>
      obtain ⟨name, value⟩ := e
      rw [insertUserProperties, ih, List.reverse_cons, List.find?_append]
      cases hrest : rest.reverse.find? fun e ↦ e.1 = key with
      | some entry => rfl
      | none =>
          by_cases hname : name = key
          · subst hname
            simp
          · simp [hname, AList.lookup_insert_ne (Ne.symm hname)]

/-- A property of the message is a user property of the packet, or its content type. -/
theorem property_of_toMessage {fromUtf8Lossy : List UInt8 → String} {nowMillis : UInt64}
    {publish : Publish} {key : String}
    (h : ((publish.toMessage fromUtf8Lossy nowMillis).properties.lookup key).isSome) :
    ∃ properties, publish.properties = some properties ∧
      ((∃ value, (key, value) ∈ properties.userProperties) ∨
        key = "content-type" ∧ properties.contentType.isSome) := by
  cases hproperties : publish.properties with
  | none =>
      simp [Publish.toMessage, hproperties] at h
  | some properties =>
      refine ⟨properties, rfl, ?_⟩
      have hlookup : (publish.toMessage fromUtf8Lossy nowMillis).properties = properties.toMap := by
        simp [Publish.toMessage, hproperties]
      rw [hlookup, PublishProperties.toMap, lookup_insertUserProperties] at h
      cases hfind : properties.userProperties.reverse.find? fun e ↦ e.1 = key with
      | some entry =>
          have hmem := List.mem_reverse.mp (List.mem_of_find?_eq_some hfind)
          have hkey : entry.1 = key := by simpa using List.find?_some hfind
          exact Or.inl ⟨entry.2, hkey ▸ hmem⟩
      | none =>
          rw [hfind] at h
          right
          cases htype : properties.contentType with
          | none => simp [htype] at h
          | some contentType =>
              by_cases hname : key = "content-type"
              · exact ⟨hname, rfl⟩
              · simp only [htype, Option.map_none, Option.none_or] at h
                rw [AList.lookup_insert_ne hname] at h
                cases h

end Tenon.Core
