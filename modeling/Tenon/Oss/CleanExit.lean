import Tenon.Oss.Provenance
import Tenon.Oss.Shutdown
import Tenon.Oss.SinkMetrics
import Tenon.Reasoning.Simulation

/-!
# CleanExit — from the broker to the sinks, once the daemon has left

The whole daemon, its clients, its worker, its main thread and its sinks.  Every run of it is a run of the
pipeline with its sinks, and a run of the daemon; so a daemon that leaves without a forced stop has handed
each result of each accepted delivery to each destination of its rule, and the metrics count all of it.
-/

open Tenon.Core Reasoning Reasoning.Transition

namespace Tenon.Oss

structure SinkDaemon (capacity : Nat) where
  daemon : Daemon capacity
  sinks : Sinks

structure SinkDaemonAction where
  action : DaemonAction
  outcomes : Nat → ProduceOutcome

-- only the worker dispatches
def Daemon.dispatching {capacity : Nat} (s : Daemon capacity) : DaemonAction → List RuleEvaluation
  | .worker action => s.pipeline.dispatching (.worker action)
  | _ => []

/-- The daemon whose worker dispatches to the sinks; the producers answer as they like. -/
def sinkDaemonSystem (C : Crates) {K : Rdkafka} (fromUtf8Lossy : List UInt8 → String)
    (dispatcher : Dispatcher K) (engine : RuleEngine) (capacity : Nat) (requests : List Requests) :
    System (SinkDaemon capacity) SinkDaemonAction where
  init := ⟨.init engine requests, .init⟩
  step s a := (s.daemon.step C a.action).map fun daemon ↦
    { daemon := daemon
      sinks := performAll fromUtf8Lossy a.outcomes s.sinks
        ((s.daemon.dispatching a.action).flatMap fun result ↦
          dispatcher.dispatch result.ruleIndex result.message) }

section Runs

variable {C : Crates} {K : Rdkafka} {fromUtf8Lossy : List UInt8 → String} {order : DispatchOrder}
  {sinks : SinkConfig} {engine : RuleEngine} {dispatcher : Dispatcher K} {capacity : Nat}
  {requests : List Requests}

/-- A step of the daemon is one of its pipeline, with the same dispatch, or leaves the pipeline as it is and
dispatches nothing. -/
theorem daemonStep_dispatching {s t : Daemon capacity} {action : DaemonAction}
    (h : s.step C action = some t) :
    (t.pipeline = s.pipeline ∧ s.dispatching action = []) ∨
      ∃ pipelineAction, s.pipeline.step C pipelineAction = some t.pipeline ∧
        s.pipeline.dispatching pipelineAction = s.dispatching action := by
  obtain ⟨-, hstep⟩ := daemonStep_cases h
  cases hstep with
  | client k client next pipeline action hclient hstep =>
      rcases clientStep_pipeline hstep with hsame | ⟨handler, hhandler⟩
      · exact Or.inl ⟨hsame, rfl⟩
      · exact Or.inr ⟨.handler handler, hhandler, rfl⟩
  | worker action pipeline hack hstep => exact Or.inr ⟨.worker action, hstep, rfl⟩
  | ack delivery results client pipeline hworker hclient hstep =>
      exact Or.inr ⟨.worker .ack, hstep, rfl⟩
  | main action t hstep =>
      cases hstep with
      | signal hmain => exact Or.inl ⟨rfl, rfl⟩
      | adapterStopped pipeline hmain hended hdrop =>
          exact Or.inr ⟨.handler .dropHandlers, hdrop, rfl⟩
      | drainTimeout hmain => exact Or.inr ⟨.forceShutdown, rfl, rfl⟩
      | forceTimeout hmain => exact Or.inl ⟨rfl, rfl⟩
      | workerJoined hended => exact Or.inl ⟨rfl, rfl⟩

theorem reachable_daemon {d : SinkDaemon capacity}
    (h : (sinkDaemonSystem C fromUtf8Lossy dispatcher engine capacity requests).Reachable d) :
    (daemonSystem C engine capacity requests).Reachable d.daemon := by
  refine h.image (daemonSystem C engine capacity requests) SinkDaemon.daemon rfl fun s a t hstep ↦ ?_
  obtain ⟨daemon, hdaemon, rfl⟩ := Option.map_eq_some_iff.mp hstep
  exact Or.inr ⟨a.action, hdaemon⟩

theorem reachable_sinkPipeline {d : SinkDaemon capacity}
    (h : (sinkDaemonSystem C fromUtf8Lossy dispatcher engine capacity requests).Reachable d) :
    (sinkSystem C fromUtf8Lossy dispatcher engine capacity).Reachable ⟨d.daemon.pipeline, d.sinks⟩ := by
  refine h.image (sinkSystem C fromUtf8Lossy dispatcher engine capacity)
    (fun d ↦ ⟨d.daemon.pipeline, d.sinks⟩) rfl fun s a t hstep ↦ ?_
  obtain ⟨daemon, hdaemon, rfl⟩ := Option.map_eq_some_iff.mp hstep
  rcases daemonStep_dispatching hdaemon with ⟨hsame, hnone⟩ | ⟨action, hpipeline, hdispatching⟩
  · refine Or.inl ?_
    show (⟨daemon.pipeline, _⟩ : SinkPipeline capacity) = ⟨s.daemon.pipeline, s.sinks⟩
    rw [hsame, hnone]
    rfl
  · refine Or.inr ⟨⟨action, a.outcomes⟩, ?_⟩
    rw [← hdispatching]
    exact Option.map_eq_some_iff.mpr ⟨daemon.pipeline, hpipeline, rfl⟩

theorem filterMap_block (done : IncomingDelivery × List RuleEvaluation) :
    (block done).filterMap dispatchedResult = done.2 := by
  show (done.2.map dispatchedEvent).filterMap dispatchedResult = done.2
  rw [List.filterMap_map]
  exact List.filterMap_some

-- what the log of completed deliveries hands to the sinks
theorem handed_blocks (completed : List (IncomingDelivery × List RuleEvaluation)) :
    handed engine (completed.flatMap block) = completed.flatMap fun done ↦
      done.2.flatMap fun result ↦
        (destinationsOf engine result.ruleIndex).map fun destination ↦ (result, destination) := by
  rw [handed, List.filterMap_flatMap]
  simp only [filterMap_block]
  rw [List.flatMap_assoc]

end Runs

/-- A clean exit leaves nothing behind.  In every run of the daemon, whatever the broker, the producers and
the timing do, if it has left without a forced stop, then each accepted delivery was evaluated by an engine
of its rules, and the sinks did what the configuration asks for all the results of all of them, in order,
with metrics that count it. -/
theorem clean_exit_served {C : Crates} {decoder : PayloadDecoder} {cacheCapacity capacity : Nat}
    {engine : RuleEngine} (hengine : (engineSystem C decoder cacheCapacity).Reachable engine) {K : Rdkafka}
    {order : DispatchOrder} {sinks : SinkConfig} {dispatcher : Dispatcher K}
    (hnew : Dispatcher.new K order sinks engine.ruleMetadata = .ok dispatcher)
    (fromUtf8Lossy : List UInt8 → String) {requests : List Requests} {d : SinkDaemon capacity}
    (h : (sinkDaemonSystem C fromUtf8Lossy dispatcher engine capacity requests).Reachable d)
    (hexited : d.daemon.main = .exited) (hunforced : d.daemon.pipeline.forceShutdown = false) :
    ∃ completed : List (IncomingDelivery × List RuleEvaluation),
      d.daemon.pipeline.accepted = completed.map Prod.fst ∧
      (∀ done ∈ completed, ∃ (current : RuleEngine) (order : HashOrder),
        (engineSystem C decoder cacheCapacity).Reachable current ∧ current.rules = engine.rules ∧
          (current.evaluate C order done.1.message).2.results = done.2) ∧
      SinksAccounted fromUtf8Lossy sinks engine
        (completed.flatMap fun done ↦ done.2.flatMap fun result ↦
          (destinationsOf engine result.ruleIndex).map fun destination ↦ (result, destination))
        d.sinks := by
  have hdaemon := reachable_daemon h
  obtain ⟨completed, haccepted, hlog⟩ := allCompleted_of_exited hdaemon hexited hunforced
  have haccounted := (liveResults_and_accounted hnew (reachable_sinkPipeline h)).2
  rw [hlog, handed_blocks] at haccounted
  refine ⟨completed, haccepted, fun done hdone ↦ ?_, haccounted⟩
  apply (evaluatedBy hengine (reachable_pipeline hdaemon)).logged
  rw [hlog]
  exact List.mem_flatMap.mpr ⟨done, hdone, List.mem_cons_self⟩

-- one delivery, three destinations, and a producer that refuses the record
def demoSinkExit : List SinkDaemonAction :=
  (demoJoin ++ demoDrain).map fun action ↦ ⟨action, fun _ ↦ .queueFull⟩

theorem clean_exit_served_demo :
    ∃ (dispatcher : Dispatcher demoRdkafka) (d : SinkDaemon 1),
      (sinkDaemonSystem demoCrates (fun _ ↦ "") dispatcher demoSinkEngine 1 [.empty]).exec
        ⟨.init demoSinkEngine [.empty], .init⟩ demoSinkExit = some d ∧
      d.daemon.pipeline.accepted.length = 1 ∧
      ∃ completed : List (IncomingDelivery × List RuleEvaluation),
        d.daemon.pipeline.accepted = completed.map Prod.fst ∧
        (∀ done ∈ completed, ∃ (current : RuleEngine) (order : HashOrder),
          (engineSystem demoCrates .json 1).Reachable current ∧ current.rules = demoSinkEngine.rules ∧
            (current.evaluate demoCrates order done.1.message).2.results = done.2) ∧
        SinksAccounted (fun _ ↦ "") demoSinks demoSinkEngine
          (completed.flatMap fun done ↦ done.2.flatMap fun result ↦
            (destinationsOf demoSinkEngine result.ruleIndex).map fun destination ↦
              (result, destination)) d.sinks := by
  have hengine : (engineSystem demoCrates .json 1).Reachable demoSinkEngine :=
    (engineSystem demoCrates .json 1).reachable_init.step (a := .addRule _) rfl
  obtain ⟨dispatcher, hnew⟩ := exists_demoDispatcher
  have hexec : ∃ d, (sinkDaemonSystem demoCrates (fun _ ↦ "") dispatcher demoSinkEngine 1 [.empty]).exec
      ⟨.init demoSinkEngine [.empty], .init⟩ demoSinkExit = some d ∧
      d.daemon.pipeline.accepted.length = 1 ∧ d.daemon.main = .exited ∧
      d.daemon.pipeline.forceShutdown = false := ⟨_, rfl, rfl, rfl, rfl⟩
  obtain ⟨d, hexec, hlength, hexited, hunforced⟩ := hexec
  exact ⟨dispatcher, d, hexec, hlength,
    clean_exit_served hengine hnew (fun _ ↦ "") ⟨demoSinkExit, hexec⟩ hexited hunforced⟩

end Tenon.Oss
