import Tenon.Core.EngineIsolation
import Tenon.Core.MqttStartup

/-!
# MqttDelivery — how often a rule fires for one publish

The adapter subscribes the filter of every live rule, and the broker delivers one copy of a publish for
each distinct subscription that matches it.  Every copy is evaluated against all rules, so a rule fires
once for each copy and not once for each publish: filters that overlap are not reconciled.
-/

namespace Tenon.Core

/-- Which topics a shared subscription covers. -/
structure Broker where
  covers : String → String → Bool

section Delivery

variable (B : Broker) (config : MqttConfig) (topic : String)

-- the distinct subscriptions of an engine that cover a topic
def matchingSubscriptions (engine : RuleEngine) : List String :=
  ((engine.topicFilters.map config.sharedSubscription).dedup).filter (B.covers · topic)

/-- The copies of one publish: one for each distinct matching subscription, all with its topic and
payload. -/
structure Delivered (engine : RuleEngine) (payload : List UInt8) (copies : List Message) : Prop where
  hcount : copies.length = (matchingSubscriptions B config topic engine).length
  htopic : ∀ copy ∈ copies, copy.topic = topic
  hpayload : ∀ copy ∈ copies, copy.payload = payload

end Delivery

/-- The engine after the copies and all results, in order. -/
def evaluateCopies (C : Crates) (engine : RuleEngine) :
    List (HashOrder × Message) → RuleEngine × List RuleEvaluation
  | [] => (engine, [])
  | (order, copy) :: rest =>
      let evaluated := engine.evaluate C order copy
      let more := evaluateCopies C evaluated.1 rest
      (more.1, evaluated.2.results ++ more.2)

section Counting

variable {C : Crates} {decoder : PayloadDecoder} {engine : RuleEngine} {i : Nat} {rule : CompiledRule}

/-- The rule in the slot fires on the message. -/
def Fires (C : Crates) (engine : RuleEngine) (i : Nat) (order : HashOrder) (message : Message) : Bool :=
  !((engine.evaluate C order message).2.messagesOf i).isEmpty

theorem length_messagesOf (h : WellFormed decoder engine) (order : HashOrder) (message : Message)
    (hrule : liveRule engine.rules i = some rule) :
    ((engine.evaluate C order message).2.messagesOf i).length =
      (Fires C engine i order message).toNat := by
  obtain ⟨output, houtput⟩ := h.exists_output (C := C) message hrule
  rw [Fires, houtput engine order h rfl]
  cases output <;> rfl

-- an evaluation leaves what later messages give a rule as it was
theorem fires_evaluate (h : WellFormed decoder engine) (order : HashOrder) (message : Message)
    (hrule : liveRule engine.rules i = some rule) (order' : HashOrder) (copy : Message) :
    Fires C (engine.evaluate C order message).1 i order' copy = Fires C engine i order' copy := by
  obtain ⟨output, houtput⟩ := h.exists_output (C := C) copy hrule
  rw [Fires, Fires, houtput engine order' h rfl,
    houtput _ order' (h.evaluate order message) (RuleEngine.evaluate_rules C order engine message)]

/-- The results of a slot over the copies are as many as the copies it fires on. -/
theorem count_evaluateCopies (h : WellFormed decoder engine)
    (hrule : liveRule engine.rules i = some rule) (copies : List (HashOrder × Message)) :
    ((evaluateCopies C engine copies).2.countP fun result ↦ result.ruleIndex = i) =
      copies.countP fun copy ↦ Fires C engine i copy.1 copy.2 := by
  induction copies generalizing engine with
  | nil => rfl
  | cons copy rest ih =>
      rcases copy with ⟨order, message⟩
      have hrule' : liveRule (engine.evaluate C order message).1.rules i = some rule := by
        rwa [RuleEngine.evaluate_rules]
      rw [evaluateCopies, List.countP_append, ih (h.evaluate order message) hrule', List.countP_cons]
      have hone : ((engine.evaluate C order message).2.results.countP
          fun result ↦ result.ruleIndex = i) = (Fires C engine i order message).toNat := by
        rw [← length_messagesOf h order message hrule, EvalOutcome.messagesOf, List.length_map,
          List.countP_eq_length_filter]
      simp only [fires_evaluate h order message hrule]
      rw [hone]
      cases Fires C engine i order message <;> simp [Nat.add_comm]

end Counting

/-! ## The main result -/

/-- Over the copies of a publish a rule fires once for each copy it fires on by itself, so at most once
for each distinct matching subscription. -/
theorem count_delivered {C : Crates} {decoder : PayloadDecoder} {capacity : Nat} {engine : RuleEngine}
    (h : (engineSystem C decoder capacity).Reachable engine) {B : Broker} {config : MqttConfig}
    {topic : String} {payload : List UInt8} {copies : List (HashOrder × Message)}
    (hdelivered : Delivered B config topic engine payload (copies.map Prod.snd)) {i : Nat}
    {rule : CompiledRule} (hrule : liveRule engine.rules i = some rule) :
    ((evaluateCopies C engine copies).2.countP fun result ↦ result.ruleIndex = i) =
        (copies.countP fun copy ↦ Fires C engine i copy.1 copy.2) ∧
      ((evaluateCopies C engine copies).2.countP fun result ↦ result.ruleIndex = i) ≤
        (matchingSubscriptions B config topic engine).length := by
  have hcount := count_evaluateCopies (wellFormed h) (C := C) hrule copies
  apply And.intro hcount
  rw [hcount, ← hdelivered.hcount, List.length_map]
  exact List.countP_le_length

-- matches the filter after `$share/<group>/`
def demoBroker : Broker where
  covers subscription topic :=
    matchTopic (Reasoning.Segments.join '/' ((levels subscription).drop 2)) topic

theorem count_delivered_demo :
    ((evaluateCopies demoCrates (demoEngine [selectAll "a/+", selectAll "b"])
          [(.increasing, Message.new "a/b" [])]).2.countP fun result ↦ result.ruleIndex = 0) =
        ([(HashOrder.increasing, Message.new "a/b" [])].countP fun copy ↦
          Fires demoCrates (demoEngine [selectAll "a/+", selectAll "b"]) 0 copy.1 copy.2) ∧
      ((evaluateCopies demoCrates (demoEngine [selectAll "a/+", selectAll "b"])
          [(.increasing, Message.new "a/b" [])]).2.countP fun result ↦ result.ruleIndex = 0) ≤
        (matchingSubscriptions demoBroker demoConfig "a/b"
          (demoEngine [selectAll "a/+", selectAll "b"])).length := by
  have hdelivered : Delivered demoBroker demoConfig "a/b"
      (demoEngine [selectAll "a/+", selectAll "b"]) [] [Message.new "a/b" []] :=
    ⟨by decide, by decide, by decide⟩
  exact count_delivered (reachable_demoEngine _) hdelivered rfl

/-- Two filters that overlap: one publish is delivered twice, and both rules fire on both copies. -/
theorem count_delivered_overlap :
    Delivered demoBroker demoConfig "a/b" (demoEngine [selectAll "a/#", selectAll "a/b"]) []
        [Message.new "a/b" [], Message.new "a/b" []] ∧
      matchTopic "a/#" "a/b" = true ∧
      ((evaluateCopies demoCrates (demoEngine [selectAll "a/#", selectAll "a/b"])
          [(.increasing, Message.new "a/b" []), (.increasing, Message.new "a/b" [])]).2.countP
        fun result ↦ result.ruleIndex = 0) = 2 := by
  exact ⟨⟨by decide, by decide, by decide⟩, by decide, by decide +kernel⟩

end Tenon.Core
