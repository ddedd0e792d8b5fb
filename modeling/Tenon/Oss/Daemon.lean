import Tenon.Core.MqttStartup
import Tenon.Oss.EvalPipeline

/-!
# Daemon — the running daemon and its shutdown

The event loops of the MQTT clients call the handler and drain their request channels, the worker of the
eval pipeline acknowledges through those channels, and the main thread stops the adapter, waits for the
worker, forces it to stop and leaves.  Every run of the daemon is a run of the pipeline.
-/

open Tenon.Core Reasoning Reasoning.Transition

namespace Tenon.Oss

inductive LoopPhase where
  | polling
  -- in the handler, with the outcome of `try_send` still to record
  | recording (sent : Bool)
  | ended
  deriving DecidableEq

structure Client where
  requests : Requests
  loop : LoopPhase
  deriving DecidableEq

/-- `IncomingDelivery::ack`: the client after the call, and whether `try_ack` succeeded.  A publish of
QoS 0 asks for no ack: nothing is sent, and the call succeeds. -/
def Client.tryAck (client : Client) (message : Message) : Client × Bool :=
  if message.qos = 0 then (client, true)
  else match client.loop with
    | .ended => (client, false)
    | _ =>
        match client.requests.trySend (.ack message.packetId.toNat) with
        | some requests => ({ client with requests := requests }, true)
        | none => (client, false)

inductive RunPhase where
  | running
  -- in `adapter.stop()`
  | stopping
  -- waiting for the worker, at most the drain timeout
  | draining
  -- waiting for the worker, at most the force-stop timeout
  | forcing
  | exited
  deriving DecidableEq

structure Daemon (capacity : Nat) where
  pipeline : Pipeline capacity
  clients : List Client
  main : RunPhase
  -- the calls of `ack` so far and whether they succeeded, which no step reads
  acks : List (IncomingDelivery × Bool)

inductive ClientAction where
  | poll
  | publish (message : Message)
  | record
  | endLoop

inductive RunAction where
  | signal
  | adapterStopped
  | drainTimeout
  | forceTimeout
  | workerJoined

inductive DaemonAction where
  | client (k : Nat) (action : ClientAction)
  -- every step of the worker but the ack
  | worker (action : WorkerAction)
  -- the ack of a delivery of client `k` and of this QoS
  | ack (k : Nat) (qos : UInt8)
  | main (action : RunAction)

namespace Daemon

variable {capacity : Nat}

def init (engine : RuleEngine) (requests : List Requests) : Daemon capacity where
  pipeline := .init engine
  clients := requests.map fun channel ↦ ⟨channel, .polling⟩
  main := .running
  acks := []

-- the event loop of a client: the client and the pipeline after the action
def clientStep (pipeline : Pipeline capacity) (k : Nat) (client : Client) :
    ClientAction → Option (Client × Pipeline capacity)
  | .poll =>
      match client.loop with
      | .polling =>
          client.requests.tryRecv.map fun taken ↦ ({ client with requests := taken.2 }, pipeline)
      | _ => none
  | .publish message =>
      match client.loop with
      | .polling =>
          let sent := (pipeline.trySubmit ⟨message, k⟩).isSome
          (pipeline.handlerStep (.submit ⟨message, k⟩)).map fun pipeline ↦
            ({ client with loop := .recording sent }, pipeline)
      | _ => none
  | .record =>
      match client.loop with
      | .recording sent =>
          (pipeline.handlerStep (if sent then .recordEnqueued else .recordDrop)).map fun pipeline ↦
            ({ client with loop := .polling }, pipeline)
      | _ => none
  -- after an error, or when the shutdown is seen
  | .endLoop =>
      match client.loop with
      | .polling => some ({ client with loop := .ended }, pipeline)
      | _ => none

def workerStep (C : Crates) (s : Daemon capacity) : WorkerAction → Option (Daemon capacity)
  | .ack => none
  | action => (s.pipeline.workerStep C action).map fun pipeline ↦ { s with pipeline := pipeline }

-- the worker acknowledges through the channel of the delivery's client
def ackStep (C : Crates) (s : Daemon capacity) (k : Nat) (qos : UInt8) : Option (Daemon capacity) :=
  match s.pipeline.worker with
  | .evaluated delivery _ =>
      if delivery.client = k ∧ delivery.message.qos = qos then
        (s.clients[k]?).bind fun client ↦
          (s.pipeline.workerStep C .ack).map fun pipeline ↦
            let tried := client.tryAck delivery.message
            { s with
              pipeline := pipeline
              clients := s.clients.set k tried.1
              acks := s.acks ++ [(delivery, tried.2)] }
      else none
  | _ => none

def mainStep (s : Daemon capacity) : RunAction → Option (Daemon capacity)
  | .signal =>
      match s.main with
      | .running => some { s with main := .stopping }
      | _ => none
  -- `stop` has joined the runtime thread, and with it every event loop
  | .adapterStopped =>
      match s.main with
      | .stopping =>
          if s.clients.all fun client ↦ client.loop = .ended then
            (s.pipeline.handlerStep .dropHandlers).map fun pipeline ↦
              { s with pipeline := pipeline, main := .draining }
          else none
      | _ => none
  | .drainTimeout =>
      match s.main with
      | .draining =>
          some { s with pipeline := { s.pipeline with forceShutdown := true }, main := .forcing }
      | _ => none
  | .forceTimeout =>
      match s.main with
      | .forcing => some { s with main := .exited }
      | _ => none
  | .workerJoined =>
      match s.main with
      | .draining | .forcing =>
          if s.pipeline.worker.hasEnded then some { s with main := .exited } else none
      | _ => none

-- no thread outlives the process
def step (C : Crates) (s : Daemon capacity) (action : DaemonAction) : Option (Daemon capacity) :=
  if s.main = .exited then none
  else match action with
    | .client k action =>
        (s.clients[k]?).bind fun client ↦
          (clientStep s.pipeline k client action).map fun next ↦
            { s with clients := s.clients.set k next.1, pipeline := next.2 }
    | .worker action => s.workerStep C action
    | .ack k qos => s.ackStep C k qos
    | .main action => s.mainStep action

end Daemon

/-- `run`, from the started adapter on; the channels of the clients may still hold subscriptions. -/
def daemonSystem (C : Crates) (engine : RuleEngine) (capacity : Nat) (requests : List Requests) :
    System (Daemon capacity) DaemonAction where
  init := .init engine requests
  step := Daemon.step C

/-! ## What each step does -/

section StepCases

variable {capacity : Nat}

inductive ClientStep (pipeline : Pipeline capacity) (k : Nat) (client : Client) :
    ClientAction → Client → Pipeline capacity → Prop
  | poll (request : Request) (requests : Requests) (hloop : client.loop = .polling)
      (hitems : client.requests.items = request :: requests.items) :
      ClientStep pipeline k client .poll { client with requests := requests } pipeline
  | publish (message : Message) (pipeline' : Pipeline capacity) (hloop : client.loop = .polling)
      (sent : Bool) (hsubmit : pipeline.handlerStep (.submit ⟨message, k⟩) = some pipeline') :
      ClientStep pipeline k client (.publish message) { client with loop := .recording sent } pipeline'
  | record (sent : Bool) (pipeline' : Pipeline capacity) (hloop : client.loop = .recording sent)
      (hrecord : pipeline.handlerStep (if sent then .recordEnqueued else .recordDrop) =
        some pipeline') :
      ClientStep pipeline k client .record { client with loop := .polling } pipeline'
  | endLoop (hloop : client.loop = .polling) :
      ClientStep pipeline k client .endLoop { client with loop := .ended } pipeline

inductive MainStep (s : Daemon capacity) : RunAction → Daemon capacity → Prop
  | signal (hmain : s.main = .running) : MainStep s .signal { s with main := .stopping }
  | adapterStopped (pipeline : Pipeline capacity) (hmain : s.main = .stopping)
      (hended : ∀ client ∈ s.clients, client.loop = .ended)
      (hdrop : s.pipeline.handlerStep .dropHandlers = some pipeline) :
      MainStep s .adapterStopped { s with pipeline := pipeline, main := .draining }
  | drainTimeout (hmain : s.main = .draining) :
      MainStep s .drainTimeout
        { s with pipeline := { s.pipeline with forceShutdown := true }, main := .forcing }
  | forceTimeout (hmain : s.main = .forcing) : MainStep s .forceTimeout { s with main := .exited }
  | workerJoined (hended : s.pipeline.worker.hasEnded = true) :
      MainStep s .workerJoined { s with main := .exited }

inductive DaemonStep (C : Crates) (s : Daemon capacity) : DaemonAction → Daemon capacity → Prop
  | client (k : Nat) (client next : Client) (pipeline : Pipeline capacity) (action : ClientAction)
      (hclient : s.clients[k]? = some client)
      (hstep : ClientStep s.pipeline k client action next pipeline) :
      DaemonStep C s (.client k action)
        { s with clients := s.clients.set k next, pipeline := pipeline }
  | worker (action : WorkerAction) (pipeline : Pipeline capacity) (hack : action ≠ .ack)
      (hstep : s.pipeline.workerStep C action = some pipeline) :
      DaemonStep C s (.worker action) { s with pipeline := pipeline }
  | ack (delivery : IncomingDelivery) (results : List RuleEvaluation) (client : Client)
      (pipeline : Pipeline capacity) (hworker : s.pipeline.worker = .evaluated delivery results)
      (hclient : s.clients[delivery.client]? = some client)
      (hstep : s.pipeline.workerStep C .ack = some pipeline) :
      DaemonStep C s (.ack delivery.client delivery.message.qos)
        { s with
          pipeline := pipeline
          clients := s.clients.set delivery.client (client.tryAck delivery.message).1
          acks := s.acks ++ [(delivery, (client.tryAck delivery.message).2)] }
  | main (action : RunAction) (t : Daemon capacity) (hstep : MainStep s action t) :
      DaemonStep C s (.main action) t

variable {C : Crates} {s t : Daemon capacity}

theorem clientStep_cases {pipeline pipeline' : Pipeline capacity} {k : Nat} {client next : Client}
    {action : ClientAction}
    (h : Daemon.clientStep pipeline k client action = some (next, pipeline')) :
    ClientStep pipeline k client action next pipeline' := by
  cases action with
  | poll =>
      simp only [Daemon.clientStep] at h
      split at h
      · rename_i hloop
        obtain ⟨⟨request, requests⟩, hrecv, hnext⟩ := Option.map_eq_some_iff.mp h
        cases hnext
        exact .poll request requests hloop (Channel.tryRecv_eq_some.mp hrecv)
      · cases h
  | publish message =>
      simp only [Daemon.clientStep] at h
      split at h
      · rename_i hloop
        obtain ⟨submitted, hsubmit, hnext⟩ := Option.map_eq_some_iff.mp h
        cases hnext
        exact .publish message pipeline' hloop _ hsubmit
      · cases h
  | record =>
      simp only [Daemon.clientStep] at h
      split at h
      · rename_i sent hloop
        obtain ⟨recorded, hrecord, hnext⟩ := Option.map_eq_some_iff.mp h
        cases hnext
        exact .record sent pipeline' hloop hrecord
      · cases h
  | endLoop =>
      simp only [Daemon.clientStep] at h
      split at h
      · rename_i hloop
        cases h
        exact .endLoop hloop
      · cases h

theorem mainStep_cases {action : RunAction} (h : s.mainStep action = some t) :
    MainStep s action t := by
  cases action with
  | signal =>
      simp only [Daemon.mainStep] at h
      split at h
      · rename_i hmain
        cases h
        exact .signal hmain
      · cases h
  | adapterStopped =>
      simp only [Daemon.mainStep] at h
      split at h
      · rename_i hmain
        split at h
        · rename_i hended
          obtain ⟨pipeline, hdrop, rfl⟩ := Option.map_eq_some_iff.mp h
          exact .adapterStopped pipeline hmain (by simpa using hended) hdrop
        · cases h
      · cases h
  | drainTimeout =>
      simp only [Daemon.mainStep] at h
      split at h
      · rename_i hmain
        cases h
        exact .drainTimeout hmain
      · cases h
  | forceTimeout =>
      simp only [Daemon.mainStep] at h
      split at h
      · rename_i hmain
        cases h
        exact .forceTimeout hmain
      · cases h
  | workerJoined =>
      simp only [Daemon.mainStep] at h
      split at h
      · split at h
        · rename_i hended
          cases h
          exact .workerJoined hended
        · cases h
      · split at h
        · rename_i hended
          cases h
          exact .workerJoined hended
        · cases h
      · cases h

theorem daemonStep_cases {action : DaemonAction} (h : s.step C action = some t) :
    s.main ≠ .exited ∧ DaemonStep C s action t := by
  unfold Daemon.step at h
  split at h
  · cases h
  · rename_i hmain
    apply And.intro hmain
    cases action with
    | client k action =>
        obtain ⟨client, hclient, hmap⟩ := Option.bind_eq_some_iff.mp h
        obtain ⟨⟨next, pipeline⟩, hstep, rfl⟩ := Option.map_eq_some_iff.mp hmap
        exact .client k client next pipeline action hclient (clientStep_cases hstep)
    | worker action =>
        by_cases hack : action = .ack
        · subst hack
          cases h
        · have hworker : s.workerStep C action =
              (s.pipeline.workerStep C action).map fun pipeline ↦ { s with pipeline := pipeline } := by
            cases action <;> first | rfl | exact absurd rfl hack
          change s.workerStep C action = some t at h
          rw [hworker] at h
          obtain ⟨pipeline, hstep, rfl⟩ := Option.map_eq_some_iff.mp h
          exact .worker action pipeline hack hstep
    | ack k qos =>
        simp only [Daemon.ackStep] at h
        split at h
        · rename_i delivery results hworker
          split at h
          · rename_i hlabel
            rcases hlabel with ⟨rfl, rfl⟩
            obtain ⟨client, hclient, hmap⟩ := Option.bind_eq_some_iff.mp h
            obtain ⟨pipeline, hstep, rfl⟩ := Option.map_eq_some_iff.mp hmap
            exact .ack delivery results client pipeline hworker hclient hstep
          · cases h
        · cases h
    | main action => exact .main action t (mainStep_cases h)

end StepCases

/-! ## Every run of the daemon is a run of the pipeline -/

section Refinement

variable {capacity : Nat} {C : Crates}

theorem clientStep_pipeline {pipeline pipeline' : Pipeline capacity} {k : Nat} {client next : Client}
    {action : ClientAction} (h : ClientStep pipeline k client action next pipeline') :
    pipeline' = pipeline ∨ ∃ action, pipeline.handlerStep action = some pipeline' := by
  cases h with
  | poll request requests hloop hitems => exact Or.inl rfl
  | publish message _ hloop sent hsubmit => exact Or.inr ⟨_, hsubmit⟩
  | record sent _ hloop hrecord => exact Or.inr ⟨_, hrecord⟩
  | endLoop hloop => exact Or.inl rfl

theorem daemonStep_pipeline {s t : Daemon capacity} {action : DaemonAction}
    (h : s.step C action = some t) :
    t.pipeline = s.pipeline ∨ ∃ action, s.pipeline.step C action = some t.pipeline := by
  obtain ⟨-, hstep⟩ := daemonStep_cases h
  cases hstep with
  | client k client next pipeline action hclient hstep =>
      rcases clientStep_pipeline hstep with hsame | ⟨handler, hhandler⟩
      · exact Or.inl hsame
      · exact Or.inr ⟨.handler handler, hhandler⟩
  | worker action pipeline hack hstep => exact Or.inr ⟨.worker action, hstep⟩
  | ack delivery results client pipeline hworker hclient hstep =>
      exact Or.inr ⟨.worker .ack, hstep⟩
  | main action t hstep =>
      cases hstep with
      | signal hmain => exact Or.inl rfl
      | adapterStopped pipeline hmain hended hdrop => exact Or.inr ⟨.handler .dropHandlers, hdrop⟩
      | drainTimeout hmain => exact Or.inr ⟨.forceShutdown, rfl⟩
      | forceTimeout hmain => exact Or.inl rfl
      | workerJoined hended => exact Or.inl rfl

theorem reachable_pipeline {engine : RuleEngine} {requests : List Requests} {s : Daemon capacity}
    (h : (daemonSystem C engine capacity requests).Reachable s) :
    (pipelineSystem C engine capacity).Reachable s.pipeline := by
  have hinit : (pipelineSystem C engine capacity).Reachable
      (Daemon.init engine requests : Daemon capacity).pipeline :=
    (pipelineSystem C engine capacity).reachable_init
  apply h.invariant hinit
  intro s action t hs hstep
  rcases daemonStep_pipeline hstep with hsame | ⟨pipelineAction, hpipeline⟩
  · rwa [hsame]
  · exact hs.step hpipeline

end Refinement

/-! ## Acknowledged deliveries and their sinks -/

/-- In every reachable state, also after the exit, an acknowledged delivery was evaluated just before,
and all its results were dispatched in order or it is the one whose rest the worker is dispatching. -/
theorem acked_dispatched {C : Crates} {engine : RuleEngine} {capacity : Nat} {requests : List Requests}
    {s : Daemon capacity} (h : (daemonSystem C engine capacity requests).Reachable s) :
    AckThenDispatch s.pipeline := by
  obtain ⟨completed, part, haccounted⟩ := exists_accounted (reachable_pipeline h)
  exact haccounted.ackThenDispatch

-- every result of an acknowledged delivery was dispatched
def AllDispatched {capacity : Nat} (s : Pipeline capacity) : Prop :=
  ∀ before delivery after, s.log = before ++ .acked delivery :: after →
    ∃ earlier results later, before = earlier ++ [.evaluated delivery results] ∧
      after = results.map dispatchedEvent ++ later

-- a message with QoS 1
def demoMessage : Message := { Message.new "t" [] with qos := 1 }

-- one client and one rule; the process leaves while the worker is between the ack and the dispatch
def demoForcedExit : List DaemonAction :=
  [.client 0 (.publish demoMessage), .client 0 .record, .worker .recv, .worker .check,
    .worker .recordDequeued, .worker (.evaluate .increasing), .ack 0 1, .main .signal,
    .client 0 .endLoop, .main .adapterStopped, .main .drainTimeout, .main .forceTimeout]

def demoExited : Daemon 1 :=
  ((daemonSystem demoCrates (demoEngine [selectAll "t"]) 1 [.empty]).exec
    (.init (demoEngine [selectAll "t"]) [.empty]) demoForcedExit).getD
      (.init (demoEngine [selectAll "t"]) [.empty])

theorem acked_dispatched_demo : AckThenDispatch demoExited.pipeline :=
  @acked_dispatched demoCrates (demoEngine [selectAll "t"]) 1 [.empty] _ ⟨demoForcedExit, rfl⟩

/-- The exit can cut off the dispatch of an acknowledged delivery. -/
theorem not_allDispatched_at_exit :
    (daemonSystem demoCrates (demoEngine [selectAll "t"]) 1 [.empty]).Reachable demoExited ∧
      demoExited.main = .exited ∧ ¬ AllDispatched demoExited.pipeline := by
  have hlog : demoExited.pipeline.log =
      [.evaluated ⟨demoMessage, 0⟩ [⟨0, demoMessage⟩]] ++ .acked ⟨demoMessage, 0⟩ :: [] := rfl
  have hcut : ¬ AllDispatched demoExited.pipeline := by
    intro hall
    rcases hall _ _ _ hlog with ⟨earlier, results, later, hbefore, hafter⟩
    cases earlier with
    | nil =>
        cases hbefore
        exact absurd hafter (by simp)
    | cons event rest =>
        have hrest := (List.cons.inj hbefore).2
        exact absurd hrest (by simp)
  exact ⟨⟨demoForcedExit, rfl⟩, rfl, hcut⟩

end Tenon.Oss
