import Tenon.Oss.Dispatcher

/-!
# SinkMetrics — what the sinks do with the dispatched results, and what they count

Each result the worker dispatches is handed to the sink of each destination of its rule.  A Kafka sink
offers a record to its producer, which may refuse it, and the metrics tell the outcomes apart; the other
sinks count or log the result.
-/

open Tenon.Core Reasoning Reasoning.Transition

namespace Tenon.Oss

/-! ## The sinks at work -/

/-- How `producer.send` ends. -/
inductive ProduceOutcome where
  | enqueued
  -- `RDKafkaErrorCode::QueueFull`
  | queueFull
  | failed
  deriving DecidableEq

-- `BaseRecord`
structure KafkaRecord where
  topic : String
  key : String
  payload : List UInt8
  deriving DecidableEq

structure OfferedRecord where
  destination : String
  record : KafkaRecord
  outcome : ProduceOutcome
  deriving DecidableEq

-- the line of the log sink, before it is formatted
structure ResultLine where
  destination : String
  ruleIndex : Nat
  destinations : List String
  topic : String
  payload : String
  deriving DecidableEq

structure SinkMetrics where
  kafkaEnqueue : Nat
  kafkaQueueFull : Nat
  kafkaEnqueueErrors : Nat
  noopSinkMessages : Nat
  sinkUnsupportedDestinations : Nat
  deriving DecidableEq

structure Sinks where
  metrics : SinkMetrics
  -- what the log sinks wrote and the producers were offered, which no step reads
  lines : List ResultLine
  records : List OfferedRecord

def Sinks.init : Sinks := ⟨⟨0, 0, 0, 0, 0⟩, [], []⟩

section Send

variable {K : Rdkafka} (fromUtf8Lossy : List UInt8 → String)

def KafkaSink.send (sink : KafkaSink K) (message : Message) (outcome : ProduceOutcome) (s : Sinks) :
    Sinks :=
  { s with
    metrics := match outcome with
      | .enqueued => { s.metrics with kafkaEnqueue := s.metrics.kafkaEnqueue + 1 }
      | .queueFull => { s.metrics with kafkaQueueFull := s.metrics.kafkaQueueFull + 1 }
      | .failed => { s.metrics with kafkaEnqueueErrors := s.metrics.kafkaEnqueueErrors + 1 }
    records := s.records ++
      [⟨sink.destination, ⟨sink.topic, message.topic, message.payload⟩, outcome⟩] }

def BuiltInSink.send (destination : String) (ruleIndex : Nat) (message : Message)
    (metadata : RuleMetadata) (outcome : ProduceOutcome) (s : Sinks) : BuiltInSink K → Sinks
  | .noop =>
      { s with metrics := { s.metrics with noopSinkMessages := s.metrics.noopSinkMessages + 1 } }
  | .log =>
      { s with
        lines := s.lines ++ [⟨destination, ruleIndex, metadata.destinations, message.topic,
          fromUtf8Lossy message.payload⟩] }
  | .kafka sink => sink.send message outcome s

def DispatchEvent.perform (outcome : ProduceOutcome) (s : Sinks) : DispatchEvent K → Sinks
  | .sent sink destination ruleIndex message metadata =>
      sink.send fromUtf8Lossy destination ruleIndex message metadata outcome s
  | .unknownRuleIndex _ => s
  | .unsupportedDestination _ _ =>
      { s with
        metrics := { s.metrics with
          sinkUnsupportedDestinations := s.metrics.sinkUnsupportedDestinations + 1 } }

-- one call of `dispatch`; `outcomes` answers the sends in order
def performAll (outcomes : Nat → ProduceOutcome) (s : Sinks) : List (DispatchEvent K) → Sinks
  | [] => s
  | event :: rest =>
      performAll (fun n ↦ outcomes (n + 1)) (event.perform fromUtf8Lossy (outcomes 0) s) rest

end Send

/-! ## The pipeline with its sinks -/

structure SinkPipeline (capacity : Nat) where
  pipeline : Pipeline capacity
  sinks : Sinks

structure SinkAction where
  action : PipelineAction
  outcomes : Nat → ProduceOutcome

-- the result the action dispatches
def Pipeline.dispatching {capacity : Nat} (s : Pipeline capacity) : PipelineAction → List RuleEvaluation
  | .worker .dispatch =>
      match s.worker with
      | .dispatching _ (result :: _) => [result]
      | _ => []
  | _ => []

/-- The pipeline whose worker dispatches to the sinks; the producers answer as they like. -/
def sinkSystem (C : Crates) {K : Rdkafka} (fromUtf8Lossy : List UInt8 → String)
    (dispatcher : Dispatcher K) (engine : RuleEngine) (capacity : Nat) :
    System (SinkPipeline capacity) SinkAction where
  init := ⟨.init engine, .init⟩
  step s a := (s.pipeline.step C a.action).map fun pipeline ↦
    { pipeline := pipeline
      sinks := performAll fromUtf8Lossy a.outcomes s.sinks
        ((s.pipeline.dispatching a.action).flatMap fun result ↦
          dispatcher.dispatch result.ruleIndex result.message) }

/-! ## What the configuration asks of the sinks -/

section Account

def dispatchedResult : WorkerEvent → Option RuleEvaluation
  | .dispatched ruleIndex message => some ⟨ruleIndex, message⟩
  | _ => none

def destinationsOf (engine : RuleEngine) (ruleIndex : Nat) : List String :=
  ((liveRule engine.rules ruleIndex).map CompiledRule.destinations).getD []

-- each dispatched result with each destination of its rule
def handed (engine : RuleEngine) (log : List WorkerEvent) : List (RuleEvaluation × String) :=
  (log.filterMap dispatchedResult).flatMap fun result ↦
    (destinationsOf engine result.ruleIndex).map fun destination ↦ (result, destination)

def isNoop (sinks : SinkConfig) (destination : String) : Bool :=
  match sinks.lookup destination with
  | some .noop => true
  | _ => false

def lineFor (fromUtf8Lossy : List UInt8 → String) (sinks : SinkConfig) (engine : RuleEngine)
    (pair : RuleEvaluation × String) : Option ResultLine :=
  match sinks.lookup pair.2 with
  | some .log => some ⟨pair.2, pair.1.ruleIndex, destinationsOf engine pair.1.ruleIndex,
      pair.1.message.topic, fromUtf8Lossy pair.1.message.payload⟩
  | _ => none

def recordFor (sinks : SinkConfig) (pair : RuleEvaluation × String) : Option (String × KafkaRecord) :=
  match sinks.lookup pair.2 with
  | some (.kafka _ topic _) => some (pair.2, ⟨topic, pair.1.message.topic, pair.1.message.payload⟩)
  | _ => none

variable {K : Rdkafka} {fromUtf8Lossy : List UInt8 → String} {sinks : SinkConfig}
  {engine : RuleEngine} {pairs : List (RuleEvaluation × String)} {s : Sinks}

/-- The sinks did what the configuration asks for the results handed to them, in order, and the metrics
count it. -/
structure SinksAccounted (fromUtf8Lossy : List UInt8 → String) (sinks : SinkConfig)
    (engine : RuleEngine) (pairs : List (RuleEvaluation × String)) (s : Sinks) : Prop where
  noop : s.metrics.noopSinkMessages = pairs.countP fun pair ↦ isNoop sinks pair.2
  lines : s.lines = pairs.filterMap (lineFor fromUtf8Lossy sinks engine)
  records : (s.records.map fun offered ↦ (offered.destination, offered.record)) =
    pairs.filterMap (recordFor sinks)
  enqueued : s.metrics.kafkaEnqueue = s.records.countP fun offered ↦ offered.outcome = .enqueued
  queueFull : s.metrics.kafkaQueueFull = s.records.countP fun offered ↦ offered.outcome = .queueFull
  failed : s.metrics.kafkaEnqueueErrors = s.records.countP fun offered ↦ offered.outcome = .failed
  supported : s.metrics.sinkUnsupportedDestinations = 0

theorem kafkaSink_of_new {destination : String} {bootstrapServers : List String} {topic : String}
    {properties : StringMap String} {sink : KafkaSink K}
    (h : KafkaSink.new K destination bootstrapServers topic properties = .ok sink) :
    sink.destination = destination ∧ sink.topic = topic := by
  unfold KafkaSink.new at h
  split at h
  · cases h
  · split at h
    · cases h
    · simp only at h
      split at h
      · cases h
        exact ⟨rfl, rfl⟩
      · cases h

-- one more record, whatever the producer answers
theorem SinksAccounted.kafkaSend (h : SinksAccounted fromUtf8Lossy sinks engine pairs s)
    {sink : KafkaSink K} {message : Message} {pair : RuleEvaluation × String}
    (hnoop : isNoop sinks pair.2 = false) (hline : lineFor fromUtf8Lossy sinks engine pair = none)
    (hrecord : recordFor sinks pair =
      some (sink.destination, ⟨sink.topic, message.topic, message.payload⟩))
    (outcome : ProduceOutcome) :
    SinksAccounted fromUtf8Lossy sinks engine (pairs ++ [pair]) (sink.send message outcome s) := by
  have hcounts (other : ProduceOutcome) :
      ((sink.send message outcome s).records.countP fun offered ↦ offered.outcome = other) =
        (s.records.countP fun offered ↦ offered.outcome = other) +
          if outcome = other then 1 else 0 := by
    simp [KafkaSink.send, List.countP_append, List.countP_singleton]
  have hnoop' : (sink.send message outcome s).metrics.noopSinkMessages =
      s.metrics.noopSinkMessages := by
    cases outcome <;> rfl
  have hsupported : (sink.send message outcome s).metrics.sinkUnsupportedDestinations =
      s.metrics.sinkUnsupportedDestinations := by
    cases outcome <;> rfl
  constructor
  · rw [hnoop', h.noop]
    simp [hnoop]
  · simp [KafkaSink.send, hline, h.lines]
  · simp [KafkaSink.send, hrecord, h.records]
  · rw [hcounts, ← h.enqueued]
    cases outcome <;> rfl
  · rw [hcounts, ← h.queueFull]
    cases outcome <;> rfl
  · rw [hcounts, ← h.failed]
    cases outcome <;> rfl
  · exact hsupported.trans h.supported

theorem SinksAccounted.send (h : SinksAccounted fromUtf8Lossy sinks engine pairs s)
    (result : RuleEvaluation) {destination : String} {definition : SinkDefinition}
    {sink : BuiltInSink K} (hdefinition : sinks.lookup destination = some definition)
    (hnew : BuiltInSink.new K destination definition = .ok sink) (outcome : ProduceOutcome) :
    SinksAccounted fromUtf8Lossy sinks engine (pairs ++ [(result, destination)])
      (sink.send fromUtf8Lossy destination result.ruleIndex result.message
        ⟨result.ruleIndex, destinationsOf engine result.ruleIndex⟩ outcome s) := by
  cases definition with
  | noop =>
      cases hnew
      constructor
      · simp [BuiltInSink.send, isNoop, hdefinition, h.noop]
      · simp [BuiltInSink.send, lineFor, hdefinition, h.lines]
      · simp [BuiltInSink.send, recordFor, hdefinition, h.records]
      · exact h.enqueued
      · exact h.queueFull
      · exact h.failed
      · exact h.supported
  | log =>
      cases hnew
      constructor
      · simp [BuiltInSink.send, isNoop, hdefinition, h.noop]
      · simp [BuiltInSink.send, lineFor, hdefinition, h.lines]
      · simp [BuiltInSink.send, recordFor, hdefinition, h.records]
      · exact h.enqueued
      · exact h.queueFull
      · exact h.failed
      · exact h.supported
  | kafka bootstrapServers topic properties =>
      change (KafkaSink.new K destination bootstrapServers topic properties).map .kafka = .ok sink at hnew
      cases hkafka : KafkaSink.new K destination bootstrapServers topic properties with
      | error err =>
          rw [hkafka] at hnew
          cases hnew
      | ok kafka =>
          rw [hkafka] at hnew
          cases hnew
          obtain ⟨hdestination, htopic⟩ := kafkaSink_of_new hkafka
          apply h.kafkaSend
          · simp [isNoop, hdefinition]
          · simp [lineFor, hdefinition]
          · simp [recordFor, hdefinition, hdestination, htopic]

-- one dispatch, whose events are the sends to the destinations of the rule
theorem SinksAccounted.performAll (h : SinksAccounted fromUtf8Lossy sinks engine pairs s)
    {result : RuleEvaluation} {destinations : List String} {events : List (DispatchEvent K)}
    (hevents : List.Forall₂ (fun destination event ↦ ∃ definition sink,
      sinks.lookup destination = some definition ∧
      BuiltInSink.new K destination definition = .ok sink ∧
      event = .sent sink destination result.ruleIndex result.message
        ⟨result.ruleIndex, destinationsOf engine result.ruleIndex⟩) destinations events)
    (outcomes : Nat → ProduceOutcome) :
    SinksAccounted fromUtf8Lossy sinks engine
      (pairs ++ destinations.map fun destination ↦ (result, destination))
      (performAll fromUtf8Lossy outcomes s events) := by
  induction hevents generalizing pairs s outcomes with
  | nil =>
      rw [List.map_nil, List.append_nil]
      exact h
  | cons hfirst _ ih =>
      obtain ⟨definition, sink, hdefinition, hnew, rfl⟩ := hfirst
      have hsent := h.send result hdefinition hnew (outcomes 0)
      have hrest := ih hsent fun n ↦ outcomes (n + 1)
      rw [List.append_assoc] at hrest
      exact hrest

end Account

/-! ## Runs -/

section Runs

variable {C : Crates} {K : Rdkafka} {fromUtf8Lossy : List UInt8 → String} {order : DispatchOrder}
  {sinks : SinkConfig} {engine : RuleEngine} {dispatcher : Dispatcher K} {capacity : Nat}

theorem handed_append (log more : List WorkerEvent) :
    handed engine (log ++ more) = handed engine log ++ handed engine more := by
  rw [handed, List.filterMap_append, List.flatMap_append]
  rfl

-- the log grows by what the action dispatches
theorem handed_step {s t : Pipeline capacity} {action : PipelineAction} (h : s.step C action = some t) :
    handed engine t.log = handed engine s.log ++ (s.dispatching action).flatMap fun result ↦
      (destinationsOf engine result.ruleIndex).map fun destination ↦ (result, destination) := by
  cases action with
  | handler action =>
      have hhandler : s.handlerStep action = some t := h
      cases handlerStep_cases hhandler <;> exact (List.append_nil _).symm
  | forceShutdown =>
      cases h
      exact (List.append_nil _).symm
  | worker action =>
      have hworked : s.workerStep C action = some t := h
      cases workerStep_cases hworked with
      | evaluate order delivery hworker engine results hengine hresults => exact handed_append _ _
      | ack delivery results hworker => exact handed_append _ _
      | dispatch delivery result rest hworker =>
          have hdispatching : s.dispatching (.worker .dispatch) = [result] := by
            simp only [Pipeline.dispatching, hworker]
          rw [hdispatching]
          exact handed_append _ _
      | _ => exact (List.append_nil _).symm

theorem liveResults_step {s t : Pipeline capacity} {action : PipelineAction}
    (hs : LiveResults engine s) (hstep : s.step C action = some t) : LiveResults engine t := by
  cases action with
  | handler action =>
      have hhandler : s.handlerStep action = some t := hstep
      cases handlerStep_cases hhandler <;> exact ⟨hs.rules, hs.pending, hs.dispatched⟩
  | worker action => exact hs.workerStep hstep
  | forceShutdown =>
      cases hstep
      exact ⟨hs.rules, hs.pending, hs.dispatched⟩

theorem dispatching_cases (s : Pipeline capacity) (action : PipelineAction) :
    s.dispatching action = [] ∨
      ∃ result ∈ s.worker.pending, s.dispatching action = [result] := by
  unfold Pipeline.dispatching
  split
  · cases hworker : s.worker with
    | dispatching delivery results =>
        cases results with
        | nil => exact Or.inl rfl
        | cons result rest => exact Or.inr ⟨result, List.mem_cons_self, rfl⟩
    | _ => exact Or.inl rfl
  · exact Or.inl rfl

-- the step: what the worker dispatches goes to the destinations of its rule
theorem SinksAccounted.step (hnew : Dispatcher.new K order sinks engine.ruleMetadata = .ok dispatcher)
    {s t : SinkPipeline capacity} (hlive : LiveResults engine s.pipeline)
    (hs : SinksAccounted fromUtf8Lossy sinks engine (handed engine s.pipeline.log) s.sinks)
    {a : SinkAction} (hstep : (sinkSystem C fromUtf8Lossy dispatcher engine capacity).step s a = some t) :
    SinksAccounted fromUtf8Lossy sinks engine (handed engine t.pipeline.log) t.sinks := by
  obtain ⟨pipeline, hpipeline, rfl⟩ := Option.map_eq_some_iff.mp hstep
  show SinksAccounted fromUtf8Lossy sinks engine (handed engine pipeline.log) _
  rw [handed_step hpipeline]
  rcases dispatching_cases s.pipeline a.action with hnone | ⟨result, hpending, hone⟩
  · simp only [hnone, List.flatMap_nil, List.append_nil]
    exact hs
  · simp only [hone, List.flatMap_cons, List.flatMap_nil, List.append_nil]
    obtain ⟨rule, hrule⟩ := hlive.pending result hpending
    have hdestinations : destinationsOf engine result.ruleIndex = rule.destinations := by
      rw [destinationsOf, hrule]
      rfl
    have hreaches := reachesAll_dispatch hnew hrule result.message
    rw [← hdestinations] at hreaches
    exact hs.performAll hreaches a.outcomes

theorem liveResults_and_accounted
    (hnew : Dispatcher.new K order sinks engine.ruleMetadata = .ok dispatcher)
    {s : SinkPipeline capacity}
    (h : (sinkSystem C fromUtf8Lossy dispatcher engine capacity).Reachable s) :
    LiveResults engine s.pipeline ∧
      SinksAccounted fromUtf8Lossy sinks engine (handed engine s.pipeline.log) s.sinks := by
  have hinit : LiveResults engine (.init engine : Pipeline capacity) ∧
      SinksAccounted fromUtf8Lossy sinks engine [] .init :=
    ⟨⟨rfl, nofun, nofun⟩, ⟨rfl, rfl, rfl, rfl, rfl, rfl, rfl⟩⟩
  apply h.invariant hinit
  intro s a t hs hstep
  have haccounted := hs.2.step hnew hs.1 hstep
  obtain ⟨pipeline, hpipeline, rfl⟩ := Option.map_eq_some_iff.mp hstep
  exact ⟨liveResults_step hs.1 hpipeline, haccounted⟩

/-- In every run of the pipeline, whatever the producers answer, the sinks do what the configuration asks
for the dispatched results, in the order of the dispatches: each destination of the rule of a result is
served once, nothing is unsupported, and the metrics count all of it. -/
theorem sinksAccounted (C : Crates) {K : Rdkafka} (fromUtf8Lossy : List UInt8 → String)
    {order : DispatchOrder} {sinks : SinkConfig} {engine : RuleEngine} {dispatcher : Dispatcher K}
    {capacity : Nat} (hnew : Dispatcher.new K order sinks engine.ruleMetadata = .ok dispatcher)
    {s : SinkPipeline capacity}
    (h : (sinkSystem C fromUtf8Lossy dispatcher engine capacity).Reachable s) :
    SinksAccounted fromUtf8Lossy sinks engine (handed engine s.pipeline.log) s.sinks :=
  (liveResults_and_accounted hnew h).2

-- one result for a log sink and a Kafka sink, whose producer refuses the record
def demoSinkRun : List SinkAction :=
  ([.handler (.submit ⟨Message.new "t" [], 0⟩), .worker .recv, .worker .check, .worker .recordDequeued,
    .worker (.evaluate .increasing), .worker .ack, .worker .dispatch] : List PipelineAction).map
      fun action ↦ ⟨action, fun _ ↦ .queueFull⟩

theorem exists_demoDispatcher : ∃ dispatcher, Dispatcher.new demoRdkafka .increasing demoSinks
    demoSinkEngine.ruleMetadata = .ok dispatcher := by
  apply exists_new
  intro destination hd
  have hused : destination ∈ ["audit", "raw", "audit"] := List.mem_toFinset.mp hd
  simp only [List.mem_cons, List.not_mem_nil, or_false] at hused
  rcases hused with rfl | rfl | rfl
  · exact ⟨.log, .log, rfl, rfl⟩
  · exact ⟨.kafka ["localhost:9092"] "out" ∅, _, rfl, rfl⟩
  · exact ⟨.log, .log, rfl, rfl⟩

theorem sinksAccounted_demo :
    ∃ (dispatcher : Dispatcher demoRdkafka) (s : SinkPipeline 1),
      Dispatcher.new demoRdkafka .increasing demoSinks demoSinkEngine.ruleMetadata = .ok dispatcher ∧
      (sinkSystem demoCrates (fun _ ↦ "") dispatcher demoSinkEngine 1).exec
        ⟨.init demoSinkEngine, .init⟩ demoSinkRun = some s ∧
      (handed demoSinkEngine s.pipeline.log).length = 3 ∧
      SinksAccounted (fun _ ↦ "") demoSinks demoSinkEngine (handed demoSinkEngine s.pipeline.log)
        s.sinks := by
  obtain ⟨dispatcher, hnew⟩ := exists_demoDispatcher
  have hexec : ∃ s, (sinkSystem demoCrates (fun _ ↦ "") dispatcher demoSinkEngine 1).exec
      ⟨.init demoSinkEngine, .init⟩ demoSinkRun = some s ∧
      (handed demoSinkEngine s.pipeline.log).length = 3 := ⟨_, rfl, rfl⟩
  obtain ⟨s, hexec, hlength⟩ := hexec
  exact ⟨dispatcher, s, hnew, hexec, hlength,
    sinksAccounted demoCrates (fun _ ↦ "") hnew ⟨demoSinkRun, hexec⟩⟩

end Runs

end Tenon.Oss
