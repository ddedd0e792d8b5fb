import Tenon.Core.Diagnostics
import Tenon.Core.MqttMessage
import Tenon.Oss.Daemon
import Tenon.Oss.DeliveryAccount

/-!
# Provenance — where the dispatched messages come from

Everything the worker dispatches is the result of a live rule on an accepted delivery: the filter of the
rule matches the topic of the delivery, which the result keeps, and the delivery has all that the rule
mentions.  Packets from the broker bring neither a client id nor a user name, so a rule that mentions one
of them never has a result dispatched.
-/

open Tenon.Core Reasoning Reasoning.Transition

namespace Tenon.Oss

section Pipeline

variable {C : Crates} {decoder : PayloadDecoder} {cacheCapacity capacity : Nat} {engine : RuleEngine}
  {s : Pipeline capacity}

/-- The message is the result of a rule on one of the deliveries. -/
def ComesFrom (C : Crates) (decoder : PayloadDecoder) (engine : RuleEngine)
    (deliveries : List IncomingDelivery) (ruleIndex : Nat) (output : Message) : Prop :=
  ∃ delivery ∈ deliveries, ∃ rule, liveRule engine.rules ruleIndex = some rule ∧
    matchTopic rule.topicFilter delivery.message.topic = true ∧
    output.topic = delivery.message.topic ∧ SuppliedBy C decoder delivery.message rule

/-- The results logged for a delivery are those of an evaluation by an engine of the same rules. -/
structure EvaluatedBy (C : Crates) (decoder : PayloadDecoder) (cacheCapacity : Nat) (engine : RuleEngine)
    (s : Pipeline capacity) : Prop where
  reachable : (engineSystem C decoder cacheCapacity).Reachable s.engine
  rules : s.engine.rules = engine.rules
  logged : ∀ delivery results, .evaluated delivery results ∈ s.log →
    ∃ (current : RuleEngine) (order : HashOrder),
      (engineSystem C decoder cacheCapacity).Reachable current ∧ current.rules = engine.rules ∧
        (current.evaluate C order delivery.message).2.results = results

/-- An engine that has evaluated messages has the rules it had, and is reachable if it was. -/
theorem evaluateAll_reachable (hengine : (engineSystem C decoder cacheCapacity).Reachable engine)
    (messages : List (HashOrder × Message)) :
    (engineSystem C decoder cacheCapacity).Reachable (evaluateAll C engine messages) ∧
      (evaluateAll C engine messages).rules = engine.rules := by
  induction messages using List.reverseRecOn with
  | nil => exact ⟨hengine, rfl⟩
  | append_singleton earlier last ih =>
      obtain ⟨order, message⟩ := last
      rw [evaluateAll_concat, RuleEngine.evaluate_rules]
      exact ⟨ih.1.step (a := .evaluate order message) rfl, ih.2⟩

theorem evaluatedBy (hengine : (engineSystem C decoder cacheCapacity).Reachable engine)
    (h : (pipelineSystem C engine capacity).Reachable s) :
    EvaluatedBy C decoder cacheCapacity engine s := by
  obtain ⟨run, hexec⟩ := h
  have hreturned : ResultsReturned C engine s := resultsReturned hexec
  obtain ⟨earlier, hearlier⟩ := hreturned.running
  obtain ⟨hreach, hrules⟩ := evaluateAll_reachable hengine earlier
  refine ⟨hearlier ▸ hreach, hearlier ▸ hrules, fun delivery results hmem ↦ ?_⟩
  obtain ⟨before, order, hresults⟩ := hreturned.logged delivery results hmem
  obtain ⟨hreach, hrules⟩ := evaluateAll_reachable hengine before
  exact ⟨evaluateAll C engine before, order, hreach, hrules, hresults⟩

-- what is dispatched in the events of a delivery is among its results
theorem mem_of_dispatched {delivery : IncomingDelivery} {all results : List RuleEvaluation}
    {ruleIndex : Nat} {output : Message} (h : .dispatched ruleIndex output ∈
      .evaluated delivery all :: .acked delivery :: results.map dispatchedEvent) :
    ⟨ruleIndex, output⟩ ∈ results := by
  rcases List.mem_cons.mp h with heq | h
  · cases heq
  · rcases List.mem_cons.mp h with heq | h
    · cases heq
    · obtain ⟨result, hresult, heq⟩ := List.mem_map.mp h
      cases heq
      exact hresult

/-- A dispatched message is one of the results logged for an accepted delivery. -/
theorem exists_evaluated (h : (pipelineSystem C engine capacity).Reachable s) {ruleIndex : Nat}
    {output : Message} (hlogged : .dispatched ruleIndex output ∈ s.log) :
    ∃ delivery ∈ s.accepted, ∃ results, .evaluated delivery results ∈ s.log ∧
      ⟨ruleIndex, output⟩ ∈ results := by
  obtain ⟨completed, part, haccounted⟩ := exists_accounted h
  rw [haccounted.log, List.mem_append, List.mem_flatMap] at hlogged
  rcases hlogged with ⟨done, hdone, hblock⟩ | hpart
  · refine ⟨done.1, ?_, done.2, ?_, mem_of_dispatched hblock⟩
    · rw [haccounted.accepted]
      simp only [List.mem_append, List.mem_map]
      exact Or.inl (Or.inl ⟨done, hdone, rfl⟩)
    · rw [haccounted.log]
      exact List.mem_append_left _ (List.mem_flatMap.mpr ⟨done, hdone, List.mem_cons_self⟩)
  · obtain ⟨worker, hworker⟩ : ∃ worker, s.worker = worker := ⟨_, rfl⟩
    have hprogress := haccounted.part
    rw [hworker] at hprogress
    cases hprogress with
    | idle _ => cases hpart
    | evaluated delivery results => cases List.mem_singleton.mp hpart
    | dispatching delivery done rest =>
        refine ⟨delivery, ?_, done ++ rest, ?_, List.mem_append_left _ (mem_of_dispatched hpart)⟩
        · rw [haccounted.accepted, hworker]
          simp [WorkerPhase.held]
        · rw [haccounted.log]
          exact List.mem_append_right _ List.mem_cons_self

theorem comesFrom (hengine : (engineSystem C decoder cacheCapacity).Reachable engine)
    (h : (pipelineSystem C engine capacity).Reachable s) {ruleIndex : Nat} {output : Message}
    (hlogged : .dispatched ruleIndex output ∈ s.log) :
    ComesFrom C decoder engine s.accepted ruleIndex output := by
  obtain ⟨delivery, haccepted, results, hresults, hmem⟩ := exists_evaluated h hlogged
  obtain ⟨current, order, hreach, hrules, rfl⟩ :=
    (evaluatedBy hengine h).logged delivery results hresults
  obtain ⟨attempt, hattempt, hevaluation⟩ := List.mem_filterMap.mp hmem
  obtain ⟨rule, hrule, hexplained⟩ := explained hreach order delivery.message hattempt
  obtain ⟨hindex, htopic⟩ := hexplained.result _ hevaluation
  have hsupplied := hexplained.supplied (by rw [hevaluation]; exact Option.some_ne_none _)
  rw [← hindex, hrules] at hrule
  exact ⟨delivery, haccepted, rule, hrule, hexplained.matched, htopic, hsupplied⟩

end Pipeline

/-! ## The main result -/

/-- The message was made from a packet. -/
def FromPacket (fromUtf8Lossy : List UInt8 → String) (message : Message) : Prop :=
  ∃ (publish : Publish) (nowMillis : UInt64), message = publish.toMessage fromUtf8Lossy nowMillis

/-- What the rule of a dispatched message asks for is in the packet. -/
structure PacketSupplies (C : Crates) (decoder : PayloadDecoder) (fromUtf8Lossy : List UInt8 → String)
    (publish : Publish) (rule : CompiledRule) (output : Message) : Prop where
  topic : output.topic = fromUtf8Lossy publish.topic
  matched : matchTopic rule.topicFilter output.topic = true
  -- packets bring neither of the two
  clientId : ¬ rule.Mentions .metaClientId
  username : ¬ rule.Mentions .metaUsername
  field : ∀ f ∈ rule.requiredPayloadFields, ∃ find,
    payloadView C publish.payload (payloadSchema decoder rule) decoder = some find ∧
      (find f.segments).isSome
  property : ∀ key, rule.Mentions (.propertiesKey (.const (.string key))) → ∃ properties,
    publish.properties = some properties ∧
      ((∃ value, (key, value) ∈ properties.userProperties) ∨
        key = "content-type" ∧ properties.contentType.isSome)

/-- In every run of the daemon on packets, each dispatched message goes back to the packet of an accepted
delivery, which has its topic and what its live rule asks for. -/
theorem dispatched_from_packet {C : Crates} {decoder : PayloadDecoder} {cacheCapacity capacity : Nat}
    {engine : RuleEngine} (hengine : (engineSystem C decoder cacheCapacity).Reachable engine)
    {requests : List Requests} {s : Daemon capacity}
    (h : (daemonSystem C engine capacity requests).Reachable s) (fromUtf8Lossy : List UInt8 → String)
    (hpackets : ∀ delivery ∈ s.pipeline.accepted, FromPacket fromUtf8Lossy delivery.message)
    {ruleIndex : Nat} {output : Message} (hlogged : .dispatched ruleIndex output ∈ s.pipeline.log) :
    ∃ delivery ∈ s.pipeline.accepted, ∃ publish nowMillis rule,
      delivery.message = Publish.toMessage fromUtf8Lossy nowMillis publish ∧
      liveRule engine.rules ruleIndex = some rule ∧
      PacketSupplies C decoder fromUtf8Lossy publish rule output := by
  obtain ⟨delivery, haccepted, rule, hrule, hmatch, htopic, hsupplied⟩ :=
    comesFrom hengine (reachable_pipeline h) hlogged
  obtain ⟨publish, nowMillis, hmessage⟩ := hpackets delivery haccepted
  refine ⟨delivery, haccepted, publish, nowMillis, rule, hmessage, hrule, ?_⟩
  rw [hmessage] at hsupplied htopic hmatch
  constructor
  · exact htopic
  · rw [htopic]
    exact hmatch
  · intro hmention
    exact absurd (hsupplied.clientId hmention) Bool.false_ne_true
  · intro hmention
    exact absurd (hsupplied.username hmention) Bool.false_ne_true
  · exact hsupplied.field
  · intro key hmention
    exact property_of_toMessage (hsupplied.property key hmention)

-- one packet, of topic "t", goes all the way to its dispatch
def demoPacket : Publish :=
  { dup := false, qos := .atMostOnce, retain := false, topic := [116], pkid := 0, payload := [],
    properties := none }

def demoDelivery : List DaemonAction :=
  [.client 0 (.publish (demoPacket.toMessage (fun _ ↦ "t") 0)), .client 0 .record, .worker .recv,
    .worker .check, .worker .recordDequeued, .worker (.evaluate .increasing), .ack 0 0, .worker .dispatch]

def demoDispatched : Daemon 1 :=
  ((daemonSystem demoCrates (demoEngine [selectAll "t"]) 1 [.empty]).exec
    (.init (demoEngine [selectAll "t"]) [.empty]) demoDelivery).getD
      (.init (demoEngine [selectAll "t"]) [.empty])

theorem dispatched_from_packet_demo :
    ∃ delivery ∈ demoDispatched.pipeline.accepted, ∃ publish nowMillis rule,
      delivery.message = Publish.toMessage (fun _ ↦ "t") nowMillis publish ∧
      liveRule (demoEngine [selectAll "t"]).rules 0 = some rule ∧
      PacketSupplies demoCrates .json (fun _ ↦ "t") publish rule (Message.new "t" []) := by
  have haccepted : demoDispatched.pipeline.accepted =
      [⟨demoPacket.toMessage (fun _ ↦ "t") 0, 0⟩] := rfl
  have hlog : demoDispatched.pipeline.log =
      [.evaluated ⟨Message.new "t" [], 0⟩ [⟨0, Message.new "t" []⟩], .acked ⟨Message.new "t" [], 0⟩,
        .dispatched 0 (Message.new "t" [])] := rfl
  have hreach : (daemonSystem demoCrates (demoEngine [selectAll "t"]) 1 [.empty]).Reachable
      demoDispatched := ⟨demoDelivery, rfl⟩
  have hlogged : .dispatched 0 (Message.new "t" []) ∈ demoDispatched.pipeline.log := by
    rw [hlog]
    simp
  apply dispatched_from_packet (reachable_demoEngine [selectAll "t"]) hreach (fun _ ↦ "t") _ hlogged
  intro delivery hdelivery
  rw [haccepted, List.mem_singleton] at hdelivery
  exact ⟨demoPacket, 0, congrArg IncomingDelivery.message hdelivery⟩

end Tenon.Oss
