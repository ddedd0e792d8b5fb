import Tenon.Coordinator.ClientIds
import Tenon.Core.MqttStartup

/-!
# ClientCount — the resolved client ids as MQTT clients

The ids of the file are taken as they are, however many the configuration asks for, and the client
count follows from them.  Ids made from a node id are as many as configured and distinct.
-/

open Reasoning Tenon.Core Tenon.Coordinator

namespace Tenon.Oss

/-- The configuration that `run` starts the adapter with: `client_ids.len().max(1) as u16`. -/
def mqttConfig (clientIds : List String) (groupName : String) (ordered : Bool)
    (orderedPrefix : String) : MqttConfig where
  clientCount := (UInt16.ofNat (max clientIds.length 1)).toNat
  clientIds := clientIds
  groupName := groupName
  ordered := ordered
  orderedPrefix := orderedPrefix

/-- The ids of a start. -/
def resolvedClientIds (file : Option ByteArray) (start : Start) : List String :=
  (start.run file).1

/-! ## Ids made from a node id -/

theorem clientId_injective (nodeId : String) : Function.Injective (clientId nodeId) := by
  intro i j h
  rw [clientId, clientId, String.append_right_inj] at h
  -- the decimal text determines the index
  have hread (n : Nat) : Nat.ofDigitChars 10 (toString n).toList 0 = n := by
    rw [Nat.toString_eq_repr, Nat.toList_repr, Nat.ofDigitChars_ten_toDigits]
  rw [← hread i, h, hread]

theorem clientId_ne_empty (nodeId : String) (index : Nat) : clientId nodeId index ≠ "" := by
  intro h
  have hchars := congrArg String.toList h
  simp [clientId] at hchars

theorem max_one_toNat (clientCount : UInt16) :
    normalizeClientCount (max clientCount 1) = max clientCount.toNat 1 := by
  have hmax : (max clientCount 1).toNat = max clientCount.toNat 1 := by
    change (if clientCount ≤ 1 then 1 else clientCount).toNat = _
    split
    · rename_i hle
      exact (max_eq_right (UInt16.le_iff_toNat_le.mp hle)).symm
    · rename_i hlt
      rw [UInt16.le_iff_toNat_le, not_le] at hlt
      exact (max_eq_left hlt.le).symm
  rw [normalizeClientCount, hmax]
  omega

/-! ## The count of the adapter -/

section Count

variable {clientIds : List String} {groupName : String} {ordered : Bool} {orderedPrefix : String}

-- the count is 16 bits wide
theorem clientCount_mqttConfig (hne : clientIds ≠ []) :
    (mqttConfig clientIds groupName ordered orderedPrefix).clientCount = clientIds.length % 2 ^ 16 := by
  have hpos : 0 < clientIds.length := List.length_pos_of_ne_nil hne
  show (UInt16.ofNat (max clientIds.length 1)).toNat = _
  rw [max_eq_left (Nat.succ_le_of_lt hpos)]
  rfl

theorem startMqtt_iff {R : Rumqttc} (hne : clientIds ≠ []) {topics : List String} :
    (∃ adapter, startMqtt R (mqttConfig clientIds groupName ordered orderedPrefix) topics =
      .ok adapter) ↔ clientIds.length < 2 ^ 16 := by
  have hpos : 0 < clientIds.length := List.length_pos_of_ne_nil hne
  have hlt : clientIds.length % 2 ^ 16 < 2 ^ 16 := Nat.mod_lt _ (by decide)
  unfold startMqtt
  show (∃ adapter, (if clientIds.length ≠ _ then _ else _) = Except.ok adapter) ↔ _
  rw [clientCount, clientCount_mqttConfig hne]
  constructor
  · intro h
    obtain ⟨adapter, h⟩ := h
    split at h
    · cases h
    · rename_i hlength
      omega
  · intro hlength
    rw [if_neg (by rw [Nat.mod_eq_of_lt hlength]; omega)]
    exact ⟨_, rfl⟩

end Count

/-! ## What the adapter is started with -/

/-- The ids of a start are the lines of its file, or as many generated ids as configured. -/
structure UsableIds (file : Option ByteArray) (start : Start) : Prop where
  fromFile : ∀ bytes content, file = some bytes → String.fromUTF8? bytes = some content →
    ((lines content.toList).map trim).filter (· ≠ []) ≠ [] →
      (resolvedClientIds file start).map String.toList =
        ((lines content.toList).map trim).filter (· ≠ [])
  generated : loadClientIds file = none →
    (resolvedClientIds file start).length = max start.clientCount.toNat 1 ∧
      (resolvedClientIds file start).Nodup
  nonempty : resolvedClientIds file start ≠ [] ∧ ∀ id ∈ resolvedClientIds file start, id ≠ ""
  distinct : (resolvedClientIds file start).Nodup ↔
    ∀ values, loadClientIds file = some values → values.Nodup
  accepted : (resolvedClientIds file start).length < 2 ^ 16 →
    ∀ (R : Rumqttc) (groupName : String) (ordered : Bool) (orderedPrefix : String)
      (topics : List String),
      (mqttConfig (resolvedClientIds file start) groupName ordered orderedPrefix).clientCount =
          (resolvedClientIds file start).length ∧
        ∃ S, startMqtt R (mqttConfig (resolvedClientIds file start) groupName ordered orderedPrefix)
          topics = .ok S

theorem resolvedClientIds_of_load {file : Option ByteArray} {values : List String}
    (h : loadClientIds file = some values) (start : Start) :
    resolvedClientIds file start = values :=
  (run_of_load h start).1

theorem resolvedClientIds_of_none {file : Option ByteArray} (h : loadClientIds file = none)
    (start : Start) :
    resolvedClientIds file start =
      (List.range (max start.clientCount.toNat 1)).map (clientId start.nodeId) := by
  rw [resolvedClientIds, Start.run, resolveClientIds, h]
  simp only [max_one_toNat]

theorem loadClientIds_of_content {bytes : ByteArray} {content : String}
    (hcontent : String.fromUTF8? bytes = some content)
    (hne : ((lines content.toList).map trim).filter (· ≠ []) ≠ []) :
    loadClientIds (some bytes) =
      some ((((lines content.toList).map trim).filter (· ≠ [])).map String.ofList) := by
  change parseClientIds bytes = _
  rw [parseClientIds, hcontent]
  simp only
  rw [if_neg (by simpa [List.isEmpty_iff] using hne)]

theorem usableIds (file : Option ByteArray) (start : Start) : UsableIds file start where
  fromFile bytes content hfile hcontent hne := by
    subst hfile
    rw [resolvedClientIds_of_load (loadClientIds_of_content hcontent hne), List.map_map]
    simp [Function.comp_def]
  generated h := by
    rw [resolvedClientIds_of_none h]
    exact ⟨by simp, List.nodup_range.map (clientId_injective start.nodeId)⟩
  nonempty := by
    refine ⟨resolveClientIds_ne_nil _ _ _, fun id hid ↦ ?_⟩
    cases hload : loadClientIds file with
    | some values =>
        rw [resolvedClientIds_of_load hload] at hid
        rintro rfl
        exact Lines.ne_nil_of_tight ((writable_of_load hload).2 _ hid).1 rfl
    | none =>
        rw [resolvedClientIds_of_none hload] at hid
        obtain ⟨index, -, rfl⟩ := List.mem_map.mp hid
        exact clientId_ne_empty start.nodeId index
  distinct := by
    cases hload : loadClientIds file with
    | some values => simp [resolvedClientIds_of_load hload]
    | none =>
        rw [resolvedClientIds_of_none hload]
        exact iff_of_true (List.nodup_range.map (clientId_injective start.nodeId))
          fun _ h ↦ by cases h
  accepted hlen R groupName ordered orderedPrefix topics := by
    have hne : resolvedClientIds file start ≠ [] := resolveClientIds_ne_nil _ _ _
    exact ⟨(clientCount_mqttConfig hne).trans (Nat.mod_eq_of_lt hlen), (startMqtt_iff hne).mpr hlen⟩

/-- The ids of a longer list are counted modulo `2^16`, and the adapter refuses them. -/
theorem not_startMqtt_of_many {file : Option ByteArray} {start : Start}
    (hmany : 2 ^ 16 ≤ (resolvedClientIds file start).length) (R : Rumqttc) (groupName : String)
    (ordered : Bool) (orderedPrefix : String) (topics : List String) :
    (mqttConfig (resolvedClientIds file start) groupName ordered orderedPrefix).clientCount =
        (resolvedClientIds file start).length % 2 ^ 16 ∧
      ¬ ∃ S, startMqtt R (mqttConfig (resolvedClientIds file start) groupName ordered orderedPrefix)
        topics = .ok S := by
  have hne : resolvedClientIds file start ≠ [] := resolveClientIds_ne_nil _ _ _
  refine ⟨clientCount_mqttConfig hne, fun hstarted ↦ ?_⟩
  exact absurd ((startMqtt_iff hne).mp hstarted) (Nat.not_lt.mpr hmany)

-- the lines `a` and `a`
def twiceFile : Option ByteArray := some "a\na\n".toUTF8

/-- A file that holds one id twice gives two equal ids to one configured client. -/
theorem not_distinct_twiceFile :
    ¬ ((resolvedClientIds twiceFile ⟨"n", 1⟩).length = max 1 1 ∧
      (resolvedClientIds twiceFile ⟨"n", 1⟩).Nodup) := by
  have hload : loadClientIds twiceFile = some ["a", "a"] :=
    (parseClientIds_eq_some_iff "a\na\n" ["a", "a"]).mpr ⟨by decide, by decide +kernel⟩
  rw [resolvedClientIds_of_load hload]
  simp

end Tenon.Oss
