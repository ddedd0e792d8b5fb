import Tenon.Oss.Shutdown
import Tenon.Reasoning.Simulation

/-!
# Threads — the threads of the daemon and the channels they wait on

The main thread asks the runtime thread to stop, which tells the event loops, awaits them and ends; a
helper thread then joins the worker and reports to the main thread, which waits for it with a timeout.
What the runs show without the steps on these channels are the runs of the daemon.
-/

open Tenon.Core Reasoning Reasoning.Transition

namespace Tenon.Oss

inductive MainThread where
  | running
  -- the signal has come
  | stopping
  -- in `stop`, which has asked the runtime thread to stop and joins it
  | joining
  -- waiting for the worker, at most the drain timeout
  | draining
  | timedOut
  -- waiting for the worker, at most the force-stop timeout
  | forcing
  | exited
  deriving DecidableEq

inductive RuntimeThread where
  -- awaiting the stop
  | serving
  -- awaiting the event loops
  | joining
  | finished
  deriving DecidableEq

-- the thread of a `JoinWaiter`
inductive HelperThread where
  -- in `worker.join()`
  | joining
  | sending
  | ended
  deriving DecidableEq

structure Threads (capacity : Nat) where
  pipeline : Pipeline capacity
  clients : List Client
  acks : List (IncomingDelivery × Bool)
  main : MainThread
  runtime : RuntimeThread
  helper : Option HelperThread
  stop : Bool
  shutdown : Bool
  done : Channel Unit 1

inductive RuntimeThreadAction where
  | observeStop
  | joinTasks

inductive HelperAction where
  | join
  | send

/-- How `recv_timeout` ends. -/
inductive WaitOutcome where
  | received
  | timeout
  | disconnected
  deriving DecidableEq

inductive MainThreadAction where
  | signal
  | requestStop
  | joinRuntime
  | drainWait (outcome : WaitOutcome)
  | forceShutdown
  | forceWait (outcome : WaitOutcome)

inductive ThreadAction where
  -- here an event loop ends after an error
  | client (k : Nat) (action : ClientAction)
  | seeShutdown (k : Nat)
  | worker (action : WorkerAction)
  | ack (k : Nat) (qos : UInt8)
  | runtime (action : RuntimeThreadAction)
  | helper (action : HelperAction)
  | main (action : MainThreadAction)

-- the daemon is draining as soon as the runtime thread has dropped the handlers
def daemonPhase : MainThread → RuntimeThread → RunPhase
  | .running, _ => .running
  | .stopping, _ => .stopping
  | .joining, .finished => .draining
  | .joining, _ => .stopping
  | .draining, _ => .draining
  | .timedOut, _ => .draining
  | .forcing, _ => .forcing
  | .exited, _ => .exited

namespace Threads

variable {capacity : Nat}

def init (engine : RuleEngine) (requests : List Requests) : Threads capacity where
  pipeline := .init engine
  clients := requests.map fun channel ↦ ⟨channel, .polling⟩
  acks := []
  main := .running
  runtime := .serving
  helper := none
  stop := false
  shutdown := false
  done := .empty

/-- What the daemon without the channels shows of the state. -/
def daemon (s : Threads capacity) : Daemon capacity :=
  ⟨s.pipeline, s.clients, daemonPhase s.main s.runtime, s.acks⟩

-- the event loops and the worker are those of the daemon
def resume (s : Threads capacity) (d : Daemon capacity) : Threads capacity :=
  { s with pipeline := d.pipeline, clients := d.clients, acks := d.acks }

def runtimeStep (s : Threads capacity) : RuntimeThreadAction → Option (Threads capacity)
  | .observeStop =>
      match s.runtime with
      | .serving => if s.stop then some { s with shutdown := true, runtime := .joining } else none
      | _ => none
  -- the handlers are dropped with the tasks and the future that awaits them
  | .joinTasks =>
      match s.runtime with
      | .joining =>
          if s.clients.all fun client ↦ client.loop = .ended then
            (s.pipeline.handlerStep .dropHandlers).map fun pipeline ↦
              { s with pipeline := pipeline, runtime := .finished }
          else none
      | _ => none

def helperStep (s : Threads capacity) : HelperAction → Option (Threads capacity)
  | .join =>
      match s.helper with
      | some .joining =>
          if s.pipeline.worker.hasEnded then some { s with helper := some .sending } else none
      | _ => none
  | .send =>
      match s.helper with
      | some .sending => (s.done.trySend ()).map fun done ↦ { s with done := done, helper := some .ended }
      | _ => none

-- `JoinWaiter::wait`: what is there is received first; the channel is disconnected when the helper has
-- ended and nothing is there
def wait (s : Threads capacity) : WaitOutcome → Option (Channel Unit 1)
  | .received => s.done.tryRecv.map Prod.snd
  | .timeout => if s.done.items = [] then some s.done else none
  | .disconnected => if s.done.items = [] ∧ s.helper = some .ended then some s.done else none

def mainStep (s : Threads capacity) : MainThreadAction → Option (Threads capacity)
  | .signal =>
      match s.main with
      | .running => some { s with main := .stopping }
      | _ => none
  | .requestStop =>
      match s.main with
      | .stopping => some { s with stop := true, main := .joining }
      | _ => none
  -- behind it the `JoinWaiter` is made
  | .joinRuntime =>
      match s.main with
      | .joining =>
          if s.runtime = .finished then some { s with main := .draining, helper := some .joining }
          else none
      | _ => none
  -- a disconnected channel counts as a timeout
  | .drainWait outcome =>
      match s.main with
      | .draining => (s.wait outcome).map fun done ↦
          { s with done := done, main := if outcome = .received then .exited else .timedOut }
      | _ => none
  | .forceShutdown =>
      match s.main with
      | .timedOut =>
          some { s with pipeline := { s.pipeline with forceShutdown := true }, main := .forcing }
      | _ => none
  | .forceWait outcome =>
      match s.main with
      | .forcing => (s.wait outcome).map fun done ↦ { s with done := done, main := .exited }
      | _ => none

def step (C : Crates) (s : Threads capacity) (action : ThreadAction) : Option (Threads capacity) :=
  if s.main = .exited then none
  else match action with
    | .client k action => (s.daemon.step C (.client k action)).map s.resume
    | .seeShutdown k =>
        if s.shutdown then (s.daemon.step C (.client k .endLoop)).map s.resume else none
    | .worker action => (s.daemon.step C (.worker action)).map s.resume
    | .ack k qos => (s.daemon.step C (.ack k qos)).map s.resume
    | .runtime action => s.runtimeStep action
    | .helper action => s.helperStep action
    | .main action => s.mainStep action

end Threads

/-- `run` from the started adapter on, with the channels its threads wait on. -/
def threadSystem (C : Crates) (engine : RuleEngine) (capacity : Nat) (requests : List Requests) :
    System (Threads capacity) ThreadAction where
  init := .init engine requests
  step := Threads.step C

/-- The step of the daemon that the action shows as. -/
def ThreadAction.shown : ThreadAction → Option DaemonAction
  | .client k action => some (.client k action)
  | .seeShutdown k => some (.client k .endLoop)
  | .worker action => some (.worker action)
  | .ack k qos => some (.ack k qos)
  | .runtime .observeStop => none
  | .runtime .joinTasks => some (.main .adapterStopped)
  | .helper _ => none
  | .main .signal => some (.main .signal)
  | .main .requestStop => none
  | .main .joinRuntime => none
  | .main (.drainWait .received) => some (.main .workerJoined)
  | .main (.drainWait _) => none
  | .main .forceShutdown => some (.main .drainTimeout)
  | .main (.forceWait .received) => some (.main .workerJoined)
  | .main (.forceWait _) => some (.main .forceTimeout)

/-! ## What each step does -/

section StepCases

variable {capacity : Nat}

inductive ThreadStep (C : Crates) (s : Threads capacity) : ThreadAction → Threads capacity → Prop
  | daemon (action : ThreadAction) (shown : DaemonAction) (d : Daemon capacity)
      (hshown : action.shown = some shown) (hmain : d.main = s.daemon.main)
      (hended : s.pipeline.worker.hasEnded = true → d.pipeline.worker.hasEnded = true)
      (hstep : s.daemon.step C shown = some d) : ThreadStep C s action (s.resume d)
  | observeStop (hruntime : s.runtime = .serving) (hstop : s.stop = true) :
      ThreadStep C s (.runtime .observeStop) { s with shutdown := true, runtime := .joining }
  | joinTasks (pipeline : Pipeline capacity) (hruntime : s.runtime = .joining)
      (hended : (s.clients.all fun client ↦ client.loop = .ended) = true)
      (hdrop : s.pipeline.handlerStep .dropHandlers = some pipeline) :
      ThreadStep C s (.runtime .joinTasks) { s with pipeline := pipeline, runtime := .finished }
  | join (hhelper : s.helper = some .joining) (hended : s.pipeline.worker.hasEnded = true) :
      ThreadStep C s (.helper .join) { s with helper := some .sending }
  | send (done : Channel Unit 1) (hhelper : s.helper = some .sending)
      (hdone : done.items = s.done.items ++ [()]) :
      ThreadStep C s (.helper .send) { s with done := done, helper := some .ended }
  | signal (hmain : s.main = .running) : ThreadStep C s (.main .signal) { s with main := .stopping }
  | requestStop (hmain : s.main = .stopping) :
      ThreadStep C s (.main .requestStop) { s with stop := true, main := .joining }
  | joinRuntime (hmain : s.main = .joining) (hruntime : s.runtime = .finished) :
      ThreadStep C s (.main .joinRuntime) { s with main := .draining, helper := some .joining }
  | drained (done : Channel Unit 1) (hmain : s.main = .draining)
      (hdone : s.done.items = () :: done.items) :
      ThreadStep C s (.main (.drainWait .received)) { s with done := done, main := .exited }
  | drainTimeout (outcome : WaitOutcome) (hmain : s.main = .draining) (hempty : s.done.items = [])
      (houtcome : outcome ≠ .received) :
      ThreadStep C s (.main (.drainWait outcome)) { s with main := .timedOut }
  | forceShutdown (hmain : s.main = .timedOut) :
      ThreadStep C s (.main .forceShutdown)
        { s with pipeline := { s.pipeline with forceShutdown := true }, main := .forcing }
  | forced (done : Channel Unit 1) (hmain : s.main = .forcing)
      (hdone : s.done.items = () :: done.items) :
      ThreadStep C s (.main (.forceWait .received)) { s with done := done, main := .exited }
  | forceTimeout (outcome : WaitOutcome) (hmain : s.main = .forcing) (hempty : s.done.items = [])
      (houtcome : outcome ≠ .received) :
      ThreadStep C s (.main (.forceWait outcome)) { s with main := .exited }

variable {C : Crates} {s t : Threads capacity}

-- the event loops and the worker leave the main thread where it is, and no one restarts the worker
theorem daemonFrame {s d : Daemon capacity} {action : DaemonAction} (h : s.step C action = some d)
    (hmain : ∀ a, action ≠ .main a) :
    d.main = s.main ∧ (s.pipeline.worker.hasEnded = true → d.pipeline.worker.hasEnded = true) := by
  obtain ⟨-, hcases⟩ := daemonStep_cases h
  cases hcases with
  | client k client next pipeline action hclient hstep =>
      refine ⟨rfl, fun hended ↦ ?_⟩
      obtain ⟨client', next', pipeline', -, hclientStep, heq⟩ := clientStep_of_step h
      have hpipeline : pipeline = pipeline' := congrArg Daemon.pipeline heq
      subst hpipeline
      show pipeline.worker.hasEnded = true
      rw [(loopFrame_of_clientStep hclientStep).worker]
      exact hended
  | worker action pipeline hack hstep =>
      refine ⟨rfl, fun hended ↦ ?_⟩
      have hrunning := (workerFrame_of_workerStep hstep).running
      exact absurd (hrunning.symm.trans hended) Bool.false_ne_true
  | ack delivery results client pipeline hworker hclient hstep =>
      refine ⟨rfl, fun hended ↦ ?_⟩
      have hrunning := (workerFrame_of_workerStep hstep).running
      exact absurd (hrunning.symm.trans hended) Bool.false_ne_true
  | main action t hstep => exact absurd rfl (hmain action)

theorem threadStep_daemon {action : ThreadAction} {shown : DaemonAction}
    (hshown : action.shown = some shown) (hmain : ∀ a, shown ≠ .main a)
    (h : (s.daemon.step C shown).map s.resume = some t) : ThreadStep C s action t := by
  obtain ⟨d, hstep, rfl⟩ := Option.map_eq_some_iff.mp h
  obtain ⟨hphase, hended⟩ := daemonFrame hstep hmain
  exact .daemon action shown d hshown hphase hended hstep

theorem runtimeStep_cases {action : RuntimeThreadAction} (h : s.runtimeStep action = some t) :
    ThreadStep C s (.runtime action) t := by
  cases action with
  | observeStop =>
      simp only [Threads.runtimeStep] at h
      split at h
      · rename_i hruntime
        split at h
        · rename_i hstop
          cases h
          exact .observeStop hruntime hstop
        · cases h
      · cases h
  | joinTasks =>
      simp only [Threads.runtimeStep] at h
      split at h
      · rename_i hruntime
        split at h
        · rename_i hended
          obtain ⟨pipeline, hdrop, rfl⟩ := Option.map_eq_some_iff.mp h
          exact .joinTasks pipeline hruntime hended hdrop
        · cases h
      · cases h

theorem helperStep_cases {action : HelperAction} (h : s.helperStep action = some t) :
    ThreadStep C s (.helper action) t := by
  cases action with
  | join =>
      simp only [Threads.helperStep] at h
      split at h
      · rename_i hhelper
        split at h
        · rename_i hended
          cases h
          exact .join hhelper hended
        · cases h
      · cases h
  | send =>
      simp only [Threads.helperStep] at h
      split at h
      · rename_i hhelper
        obtain ⟨done, hsend, rfl⟩ := Option.map_eq_some_iff.mp h
        exact .send done hhelper (Channel.trySend_eq_some.mp hsend)
      · cases h

theorem wait_received {done : Channel Unit 1} (h : s.wait .received = some done) :
    s.done.items = () :: done.items := by
  obtain ⟨⟨_, rest⟩, hrecv, rfl⟩ := Option.map_eq_some_iff.mp h
  exact Channel.tryRecv_eq_some.mp hrecv

theorem wait_missed {outcome : WaitOutcome} (houtcome : outcome ≠ .received) {done : Channel Unit 1}
    (h : s.wait outcome = some done) : s.done.items = [] ∧ done = s.done := by
  cases outcome with
  | received => exact absurd rfl houtcome
  | timeout =>
      simp only [Threads.wait] at h
      split at h
      · rename_i hempty
        cases h
        exact ⟨hempty, rfl⟩
      · cases h
  | disconnected =>
      simp only [Threads.wait] at h
      split at h
      · rename_i hempty
        cases h
        exact ⟨hempty.1, rfl⟩
      · cases h

theorem threadMainStep_cases {action : MainThreadAction} (h : s.mainStep action = some t) :
    ThreadStep C s (.main action) t := by
  cases action with
  | signal =>
      simp only [Threads.mainStep] at h
      split at h
      · rename_i hmain
        cases h
        exact .signal hmain
      · cases h
  | requestStop =>
      simp only [Threads.mainStep] at h
      split at h
      · rename_i hmain
        cases h
        exact .requestStop hmain
      · cases h
  | joinRuntime =>
      simp only [Threads.mainStep] at h
      split at h
      · rename_i hmain
        split at h
        · rename_i hruntime
          cases h
          exact .joinRuntime hmain hruntime
        · cases h
      · cases h
  | drainWait outcome =>
      simp only [Threads.mainStep] at h
      split at h
      · rename_i hmain
        obtain ⟨done, hwait, rfl⟩ := Option.map_eq_some_iff.mp h
        by_cases houtcome : outcome = .received
        · subst houtcome
          exact .drained done hmain (wait_received hwait)
        · obtain ⟨hempty, rfl⟩ := wait_missed houtcome hwait
          rw [if_neg houtcome]
          exact .drainTimeout outcome hmain hempty houtcome
      · cases h
  | forceShutdown =>
      simp only [Threads.mainStep] at h
      split at h
      · rename_i hmain
        cases h
        exact .forceShutdown hmain
      · cases h
  | forceWait outcome =>
      simp only [Threads.mainStep] at h
      split at h
      · rename_i hmain
        obtain ⟨done, hwait, rfl⟩ := Option.map_eq_some_iff.mp h
        by_cases houtcome : outcome = .received
        · subst houtcome
          exact .forced done hmain (wait_received hwait)
        · obtain ⟨hempty, rfl⟩ := wait_missed houtcome hwait
          exact .forceTimeout outcome hmain hempty houtcome
      · cases h

theorem threadStep_cases {action : ThreadAction} (h : s.step C action = some t) :
    s.main ≠ .exited ∧ ThreadStep C s action t := by
  unfold Threads.step at h
  split at h
  · cases h
  · rename_i hmain
    refine ⟨hmain, ?_⟩
    cases action with
    | client k action => exact threadStep_daemon rfl nofun h
    | seeShutdown k =>
        dsimp only at h
        split at h
        · exact threadStep_daemon rfl nofun h
        · cases h
    | worker action => exact threadStep_daemon rfl nofun h
    | ack k qos => exact threadStep_daemon rfl nofun h
    | runtime action => exact runtimeStep_cases h
    | helper action => exact helperStep_cases h
    | main action => exact threadMainStep_cases h

end StepCases

/-! ## The order of the threads -/

section Order

variable {capacity : Nat} {C : Crates} {s t : Threads capacity}

-- the `JoinWaiter` is made
def MainThread.waits : MainThread → Bool
  | .running | .stopping | .joining => false
  | .draining | .timedOut | .forcing | .exited => true

/-- What the threads have waited for. -/
structure Ordered (s : Threads capacity) : Prop where
  asked : s.stop = false ↔ s.main = .running ∨ s.main = .stopping
  serving : s.stop = false → s.runtime = .serving
  shutdown : s.shutdown = true → s.runtime ≠ .serving
  finished : s.helper ≠ none → s.runtime = .finished
  helper : s.helper = none ↔ s.main.waits = false
  joined : s.helper ≠ none → s.helper ≠ some .joining → s.pipeline.worker.hasEnded = true
  sent : s.done.items ≠ [] → s.helper = some .ended
  unsent : s.done.items = [] → s.helper = some .ended → s.main = .exited

theorem ordered_init (engine : RuleEngine) (requests : List Requests) :
    Ordered (Threads.init engine requests : Threads capacity) :=
  ⟨iff_of_true rfl (Or.inl rfl), fun _ ↦ rfl, nofun, fun h ↦ absurd rfl h,
    iff_of_true rfl rfl, fun h ↦ absurd rfl h, fun h ↦ absurd rfl h, nofun⟩

theorem Ordered.stop_of_not (h : Ordered s) (hrunning : s.main ≠ .running)
    (hstopping : s.main ≠ .stopping) : s.stop = true := by
  by_contra hstop
  rcases h.asked.mp (Bool.not_eq_true _ ▸ hstop) with hmain | hmain
  · exact hrunning hmain
  · exact hstopping hmain

theorem Ordered.helper_ne_none (h : Ordered s) (hwaits : s.main.waits = true) : s.helper ≠ none := by
  intro hnone
  rw [h.helper.mp hnone] at hwaits
  cases hwaits

-- while the main thread waits, and when it is done with a wait
theorem Ordered.goOn (h : Ordered s) (hwaits : s.main.waits = true) (main : MainThread)
    (hmain : main.waits = true) {pipeline : Pipeline capacity}
    (hworker : pipeline.worker = s.pipeline.worker) {done : Channel Unit 1}
    (hsent : done.items ≠ [] → s.helper = some .ended)
    (hunsent : done.items = [] → s.helper = some .ended → main = .exited) :
    Ordered { s with pipeline := pipeline, main := main, done := done } := by
  have hstop : s.stop = true := by
    apply h.stop_of_not
    · intro heq
      rw [heq] at hwaits
      cases hwaits
    · intro heq
      rw [heq] at hwaits
      cases hwaits
  constructor
  · rw [hstop]
    refine iff_of_false (by decide) ?_
    rintro (rfl | rfl) <;> cases hmain
  · exact h.serving
  · exact h.shutdown
  · exact h.finished
  · refine iff_of_false (h.helper_ne_none hwaits) ?_
    rw [hmain]
    decide
  · rw [hworker]
    exact h.joined
  · exact hsent
  · exact hunsent

theorem Ordered.step (h : Ordered s) {action : ThreadAction} (hstep : s.step C action = some t) :
    Ordered t := by
  obtain ⟨-, hcases⟩ := threadStep_cases hstep
  cases hcases with
  | daemon action shown d hshown hphase hended hstep =>
      exact ⟨h.asked, h.serving, h.shutdown, h.finished, h.helper,
        fun hsome hnot ↦ hended (h.joined hsome hnot), h.sent, h.unsent⟩
  | observeStop hruntime hstop =>
      have hnone : s.helper = none := by
        by_contra hsome
        cases hruntime.symm.trans (h.finished hsome)
      exact ⟨h.asked, fun hfalse ↦ absurd (hstop.symm.trans hfalse) (by decide), fun _ ↦ nofun,
        fun hsome ↦ absurd hnone hsome, h.helper, h.joined, h.sent, h.unsent⟩
  | joinTasks pipeline hruntime hended hdrop =>
      have hnone : s.helper = none := by
        by_contra hsome
        cases hruntime.symm.trans (h.finished hsome)
      exact ⟨h.asked, fun hfalse ↦ absurd (hruntime.symm.trans (h.serving hfalse)) (by decide),
        fun _ ↦ nofun, fun _ ↦ rfl, h.helper, fun hsome ↦ absurd hnone hsome, h.sent, h.unsent⟩
  | join hhelper hended =>
      have hsome : s.helper ≠ none := by
        rw [hhelper]
        decide
      refine ⟨h.asked, h.serving, h.shutdown, fun _ ↦ h.finished hsome, ?_, fun _ _ ↦ hended, ?_, nofun⟩
      · exact iff_of_false nofun fun hwaits ↦ hsome (h.helper.mpr hwaits)
      · intro hdone
        cases hhelper.symm.trans (h.sent hdone)
  | send done hhelper hdone =>
      have hsome : s.helper ≠ none := by
        rw [hhelper]
        decide
      refine ⟨h.asked, h.serving, h.shutdown, fun _ ↦ h.finished hsome, ?_, fun _ _ ↦ ?_, fun _ ↦ rfl, ?_⟩
      · exact iff_of_false nofun fun hwaits ↦ hsome (h.helper.mpr hwaits)
      · apply h.joined hsome
        rw [hhelper]
        decide
      · intro hempty
        rw [hdone] at hempty
        exact absurd hempty (List.append_ne_nil_of_right_ne_nil _ (List.cons_ne_nil _ _))
  | signal hmain =>
      have hstop : s.stop = false := h.asked.mpr (Or.inl hmain)
      have hnone : s.helper = none := h.helper.mpr (by rw [hmain]; rfl)
      exact ⟨iff_of_true hstop (Or.inr rfl), h.serving, h.shutdown, h.finished, iff_of_true hnone rfl,
        h.joined, h.sent, fun _ hended ↦ by cases hnone.symm.trans hended⟩
  | requestStop hmain =>
      have hnone : s.helper = none := h.helper.mpr (by rw [hmain]; rfl)
      exact ⟨iff_of_false nofun (by simp), nofun, h.shutdown, h.finished, iff_of_true hnone rfl,
        h.joined, h.sent, fun _ hended ↦ by cases hnone.symm.trans hended⟩
  | joinRuntime hmain hruntime =>
      have hnone : s.helper = none := h.helper.mpr (by rw [hmain]; rfl)
      have hstop : s.stop = true := by
        apply h.stop_of_not <;> rw [hmain] <;> decide
      refine ⟨?_, h.serving, h.shutdown, fun _ ↦ hruntime, iff_of_false nofun nofun,
        fun _ hnot ↦ absurd rfl hnot, fun hdone ↦ ?_, nofun⟩
      · rw [hstop]
        exact iff_of_false nofun (by simp)
      · cases hnone.symm.trans (h.sent hdone)
  | drained done hmain hdone =>
      have hended : s.helper = some .ended := h.sent (by rw [hdone]; exact List.cons_ne_nil _ _)
      exact h.goOn (by rw [hmain]; rfl) .exited rfl rfl (fun _ ↦ hended) fun _ _ ↦ rfl
  | drainTimeout outcome hmain hempty houtcome =>
      refine h.goOn (by rw [hmain]; rfl) .timedOut rfl rfl h.sent fun _ hended ↦ ?_
      cases hmain.symm.trans (h.unsent hempty hended)
  | forceShutdown hmain =>
      have hworker : ({ s.pipeline with forceShutdown := true } : Pipeline capacity).worker =
        s.pipeline.worker := rfl
      refine h.goOn (by rw [hmain]; rfl) .forcing rfl hworker h.sent fun hempty hended ↦ ?_
      cases hmain.symm.trans (h.unsent hempty hended)
  | forced done hmain hdone =>
      have hended : s.helper = some .ended := h.sent (by rw [hdone]; exact List.cons_ne_nil _ _)
      exact h.goOn (by rw [hmain]; rfl) .exited rfl rfl (fun _ ↦ hended) fun _ _ ↦ rfl
  | forceTimeout outcome hmain hempty houtcome =>
      exact h.goOn (by rw [hmain]; rfl) .exited rfl rfl h.sent fun _ _ ↦ rfl

theorem ordered {engine : RuleEngine} {requests : List Requests}
    (h : (threadSystem C engine capacity requests).Reachable s) : Ordered s := by
  apply h.invariant (ordered_init engine requests)
  exact fun _ _ _ hs hstep ↦ hs.step hstep

end Order

/-! ## The daemon in the threads -/

section Daemon

variable {capacity : Nat} {C : Crates} {engine : RuleEngine} {requests : List Requests}
  {s t : Threads capacity}

theorem daemon_main_ne (hmain : s.main ≠ .exited) : s.daemon.main ≠ .exited := by
  show daemonPhase s.main s.runtime ≠ .exited
  cases hphase : s.main with
  | exited => exact absurd hphase hmain
  | joining => cases s.runtime <;> exact nofun
  | _ => exact nofun

-- between the stop and the end of the runtime thread
theorem Ordered.main_of_joining (h : Ordered s) (hruntime : s.runtime = .joining) :
    s.main = .joining := by
  have hnone : s.helper = none := by
    by_contra hsome
    cases hruntime.symm.trans (h.finished hsome)
  have hstop : ¬ s.stop = false := by
    intro hfalse
    cases hruntime.symm.trans (h.serving hfalse)
  have hearly := h.helper.mp hnone
  cases hmain : s.main with
  | running => exact absurd (h.asked.mpr (Or.inl hmain)) hstop
  | stopping => exact absurd (h.asked.mpr (Or.inr hmain)) hstop
  | joining => rfl
  | _ =>
      rw [hmain] at hearly
      cases hearly

theorem Ordered.hasEnded (h : Ordered s) {done : Channel Unit 1}
    (hdone : s.done.items = () :: done.items) : s.pipeline.worker.hasEnded = true := by
  have hended : s.helper = some .ended := h.sent (by rw [hdone]; exact List.cons_ne_nil _ _)
  apply h.joined <;> rw [hended] <;> exact nofun

/-- Each step of the threads is, as it shows, one of the daemon. -/
theorem Ordered.shows (h : Ordered s) {action : ThreadAction} (hthread : s.step C action = some t) :
    (daemonSystem C engine capacity requests).Shows s.daemon t.daemon action.shown := by
  obtain ⟨hnot, hcases⟩ := threadStep_cases hthread
  have hmainStep {action : RunAction} (hd : s.daemon.mainStep action = some t.daemon) :
      s.daemon.step C (.main action) = some t.daemon := (if_neg (daemon_main_ne hnot)).trans hd
  cases hcases with
  | daemon action shown d hshown hphase hended hstep =>
      rw [hshown]
      have hresume : (s.resume d).daemon = d := by
        show (⟨d.pipeline, d.clients, s.daemon.main, d.acks⟩ : Daemon capacity) = d
        rw [← hphase]
      show s.daemon.step C shown = some (s.resume d).daemon
      rw [hresume]
      exact hstep
  | observeStop hruntime hstop =>
      show (⟨s.pipeline, s.clients, daemonPhase s.main .joining, s.acks⟩ : Daemon capacity) =
        ⟨s.pipeline, s.clients, daemonPhase s.main s.runtime, s.acks⟩
      rw [hruntime]
      cases s.main <;> rfl
  | joinTasks pipeline hruntime hended hdrop =>
      apply hmainStep
      simp [Daemon.mainStep, Threads.daemon, h.main_of_joining hruntime, hruntime, daemonPhase, hended,
        hdrop]
  | join hhelper hended => exact rfl
  | send done hhelper hdone => exact rfl
  | signal hmain =>
      apply hmainStep
      simp [Daemon.mainStep, Threads.daemon, hmain, daemonPhase]
  | requestStop hmain =>
      have hserving := h.serving (h.asked.mpr (Or.inr hmain))
      show (⟨s.pipeline, s.clients, daemonPhase .joining s.runtime, s.acks⟩ : Daemon capacity) =
        ⟨s.pipeline, s.clients, daemonPhase s.main s.runtime, s.acks⟩
      rw [hmain, hserving]
      rfl
  | joinRuntime hmain hruntime =>
      show (⟨s.pipeline, s.clients, .draining, s.acks⟩ : Daemon capacity) =
        ⟨s.pipeline, s.clients, daemonPhase s.main s.runtime, s.acks⟩
      rw [hmain, hruntime]
      rfl
  | drained done hmain hdone =>
      apply hmainStep
      simp [Daemon.mainStep, Threads.daemon, hmain, daemonPhase, h.hasEnded hdone]
  | drainTimeout outcome hmain hempty houtcome =>
      have hhidden : ThreadAction.shown (.main (.drainWait outcome)) = none := by
        cases outcome with
        | received => exact absurd rfl houtcome
        | timeout => rfl
        | disconnected => rfl
      rw [hhidden]
      show (⟨s.pipeline, s.clients, .draining, s.acks⟩ : Daemon capacity) =
        ⟨s.pipeline, s.clients, daemonPhase s.main s.runtime, s.acks⟩
      rw [hmain]
      rfl
  | forceShutdown hmain =>
      apply hmainStep
      simp [Daemon.mainStep, Threads.daemon, hmain, daemonPhase]
  | forced done hmain hdone =>
      apply hmainStep
      simp [Daemon.mainStep, Threads.daemon, hmain, daemonPhase, h.hasEnded hdone]
  | forceTimeout outcome hmain hempty houtcome =>
      have hshown : ThreadAction.shown (.main (.forceWait outcome)) = some (.main .forceTimeout) := by
        cases outcome with
        | received => exact absurd rfl houtcome
        | timeout => rfl
        | disconnected => rfl
      rw [hshown]
      apply hmainStep
      simp [Daemon.mainStep, Threads.daemon, hmain, daemonPhase]

theorem threads_simulate : (threadSystem C engine capacity requests).Simulates
    (daemonSystem C engine capacity requests) Threads.daemon ThreadAction.shown :=
  ⟨rfl, fun _ _ _ hs hstep ↦ (ordered hs).shows hstep⟩

/-! ## The threads for a step of the daemon -/

/-- The states in which the threads can still do what the daemon can: no timeout is about to force the
stop, and the helper has not reported yet. -/
structure Ready (s : Threads capacity) : Prop where
  inTime : s.main ≠ .timedOut
  unsent : s.done.items = []

-- the runs that show just `action` and end in `u`
def OffersTo (C : Crates) (engine : RuleEngine) (requests : List Requests) (s : Threads capacity)
    (action : DaemonAction) (u : Daemon capacity) : Prop :=
  (threadSystem C engine capacity requests).Offers ThreadAction.shown
    (fun t ↦ t.daemon = u ∧ Ready t) s action

section Offers

variable {u : Daemon capacity} {action : ThreadAction} {shown : DaemonAction}

theorem offers_step (hstep : s.step C action = some t) (hshown : action.shown = some shown)
    (hu : t.daemon = u) (hready : Ready t) : OffersTo C engine requests s shown u :=
  System.offers_of_step (S := threadSystem C engine capacity requests) hstep hshown ⟨hu, hready⟩

theorem OffersTo.after (h : OffersTo C engine requests t shown u) (hstep : s.step C action = some t)
    (hhidden : action.shown = none) : OffersTo C engine requests s shown u :=
  System.Offers.after (S := threadSystem C engine capacity requests) h hstep hhidden

end Offers

theorem offers_own {u : Daemon capacity} (hready : Ready s) (action : ThreadAction)
    {shown : DaemonAction} (hshown : action.shown = some shown) (hmain : ∀ a, shown ≠ .main a)
    (hstep : s.step C action = (s.daemon.step C shown).map s.resume)
    (hu : s.daemon.step C shown = some u) : OffersTo C engine requests s shown u := by
  have hframe := (daemonFrame hu hmain).1
  have hresume : (s.resume u).daemon = u := by
    show (⟨u.pipeline, u.clients, s.daemon.main, u.acks⟩ : Daemon capacity) = u
    rw [← hframe]
  rw [hu] at hstep
  exact offers_step hstep hshown hresume ⟨hready.inTime, hready.unsent⟩

theorem offers_adapterStopped {pipeline : Pipeline capacity} (hmain : s.main = .joining)
    (hstop : s.stop = true) (hruntime : s.runtime ≠ .finished) (hunsent : s.done.items = [])
    (hended : (s.clients.all fun client ↦ client.loop = .ended) = true)
    (hdrop : s.pipeline.handlerStep .dropHandlers = some pipeline) :
    OffersTo C engine requests s (.main .adapterStopped)
      ⟨pipeline, s.clients, .draining, s.acks⟩ := by
  have hlast (r : Threads capacity) (hr : r = { s with shutdown := r.shutdown, runtime := .joining }) :
      OffersTo C engine requests r (.main .adapterStopped)
        ⟨pipeline, s.clients, .draining, s.acks⟩ := by
    have hstep : r.step C (.runtime .joinTasks) =
        some { r with pipeline := pipeline, runtime := .finished } := by
      rw [hr]
      simp [Threads.step, Threads.runtimeStep, hmain, hended, hdrop]
    refine offers_step hstep rfl ?_ ⟨?_, ?_⟩
    · rw [hr]
      simp [Threads.daemon, hmain, daemonPhase]
    · rw [hr]
      simp [hmain]
    · rw [hr]
      exact hunsent
  cases hphase : s.runtime with
  | serving =>
      have hstep : s.step C (.runtime .observeStop) =
          some { s with shutdown := true, runtime := .joining } := by
        simp [Threads.step, Threads.runtimeStep, hmain, hphase, hstop]
      exact (hlast { s with shutdown := true, runtime := .joining } rfl).after hstep rfl
  | joining =>
      apply hlast
      rw [← hphase]
  | finished => exact absurd hphase hruntime

theorem offers_drainTimeout (hmain : s.main = .draining) (hunsent : s.done.items = []) :
    OffersTo C engine requests s (.main .drainTimeout)
      ⟨{ s.pipeline with forceShutdown := true }, s.clients, .forcing, s.acks⟩ := by
  have hwait : s.step C (.main (.drainWait .timeout)) = some { s with main := .timedOut } := by
    simp [Threads.step, Threads.mainStep, Threads.wait, hmain, hunsent]
  have hforce : ({ s with main := .timedOut } : Threads capacity).step C (.main .forceShutdown) =
      some { s with pipeline := { s.pipeline with forceShutdown := true }, main := .forcing } := by
    simp [Threads.step, Threads.mainStep]
  exact (offers_step hforce rfl rfl ⟨nofun, hunsent⟩).after hwait rfl

-- the report of the helper is on its way
theorem offers_received (hmain : s.main = .draining ∨ s.main = .forcing)
    (hdone : s.done.items = [()]) :
    OffersTo C engine requests s (.main .workerJoined) ⟨s.pipeline, s.clients, .exited, s.acks⟩ := by
  have hrecv : s.done.tryRecv = some ((), .empty) := Channel.tryRecv_eq_some.mpr hdone
  rcases hmain with hmain | hmain
  · have hstep : s.step C (.main (.drainWait .received)) =
        some { s with done := .empty, main := .exited } := by
      simp [Threads.step, Threads.mainStep, Threads.wait, hmain, hrecv]
    exact offers_step hstep rfl rfl ⟨nofun, rfl⟩
  · have hstep : s.step C (.main (.forceWait .received)) =
        some { s with done := .empty, main := .exited } := by
      simp [Threads.step, Threads.mainStep, Threads.wait, hmain, hrecv]
    exact offers_step hstep rfl rfl ⟨nofun, rfl⟩

theorem offers_workerJoined (hordered : Ordered s) (hmain : s.main = .draining ∨ s.main = .forcing)
    (hunsent : s.done.items = []) (hended : s.pipeline.worker.hasEnded = true) :
    OffersTo C engine requests s (.main .workerJoined) ⟨s.pipeline, s.clients, .exited, s.acks⟩ := by
  have hnot : s.main ≠ .exited := by
    rcases hmain with hmain | hmain <;> rw [hmain] <;> exact nofun
  have hsend (r : Threads capacity) (hr : r = { s with helper := some .sending }) :
      OffersTo C engine requests r (.main .workerJoined) ⟨s.pipeline, s.clients, .exited, s.acks⟩ := by
    obtain ⟨done, hsent, hitems⟩ := Channel.exists_trySend (c := s.done) (by rw [hunsent]; decide) ()
    have hstep : r.step C (.helper .send) = some { s with done := done, helper := some .ended } := by
      rw [hr]
      simp [Threads.step, Threads.helperStep, hnot, hsent]
    rw [hunsent] at hitems
    exact (offers_received (s := { s with done := done, helper := some .ended }) hmain hitems).after
      hstep rfl
  cases hhelper : s.helper with
  | none =>
      have hwaits := hordered.helper.mp hhelper
      rcases hmain with hmain | hmain <;> rw [hmain] at hwaits <;> cases hwaits
  | some helper =>
      cases helper with
      | joining =>
          have hstep : s.step C (.helper .join) = some { s with helper := some .sending } := by
            simp [Threads.step, Threads.helperStep, hnot, hhelper, hended]
          exact (hsend _ rfl).after hstep rfl
      | sending =>
          apply hsend
          rw [← hhelper]
      | ended => exact absurd (hordered.unsent hunsent hhelper) hnot

section Phases

variable {main : MainThread} {runtime : RuntimeThread}

theorem of_phase_running (h : daemonPhase main runtime = .running) : main = .running := by
  cases main with
  | running => rfl
  | joining => cases runtime <;> cases h
  | _ => cases h

theorem of_phase_stopping (h : daemonPhase main runtime = .stopping) :
    main = .stopping ∨ main = .joining ∧ runtime ≠ .finished := by
  cases main with
  | stopping => exact Or.inl rfl
  | joining =>
      cases runtime with
      | finished => cases h
      | _ => exact Or.inr ⟨rfl, by decide⟩
  | _ => cases h

theorem of_phase_draining (h : daemonPhase main runtime = .draining) :
    main = .joining ∧ runtime = .finished ∨ main = .draining ∨ main = .timedOut := by
  cases main with
  | joining =>
      cases runtime with
      | finished => exact Or.inl ⟨rfl, rfl⟩
      | _ => cases h
  | draining => exact Or.inr (Or.inl rfl)
  | timedOut => exact Or.inr (Or.inr rfl)
  | _ => cases h

theorem of_phase_forcing (h : daemonPhase main runtime = .forcing) : main = .forcing := by
  cases main with
  | forcing => rfl
  | joining => cases runtime <;> cases h
  | _ => cases h

end Phases

-- once the runtime thread has finished the main thread comes to its wait
theorem offers_joined {action : DaemonAction} {u : Daemon capacity} (hordered : Ordered s)
    (hready : Ready s) (hphase : s.daemon.main = .draining)
    (hgo : ∀ r : Threads capacity, Ordered r → r.main = .draining → r.done = s.done →
      r.pipeline = s.pipeline → r.clients = s.clients → r.acks = s.acks →
        OffersTo C engine requests r action u) : OffersTo C engine requests s action u := by
  rcases of_phase_draining hphase with ⟨hmain, hruntime⟩ | hmain | hmain
  · have hstep : s.step C (.main .joinRuntime) =
        some { s with main := .draining, helper := some .joining } := by
      simp [Threads.step, Threads.mainStep, hmain, hruntime]
    exact (hgo _ (hordered.step hstep) rfl rfl rfl rfl rfl).after hstep rfl
  · exact hgo s hordered hmain rfl rfl rfl rfl
  · exact absurd hmain hready.inTime

/-- The threads can make every step of the daemon. -/
theorem offers (hordered : Ordered s) (hready : Ready s) {action : DaemonAction}
    {u : Daemon capacity} (hu : s.daemon.step C action = some u) :
    OffersTo C engine requests s action u := by
  have hnot : s.main ≠ .exited := by
    intro hmain
    apply (daemonStep_cases hu).1
    show daemonPhase s.main s.runtime = .exited
    rw [hmain]
    rfl
  cases action with
  | client k action => exact offers_own hready (.client k action) rfl nofun (if_neg hnot) hu
  | worker action => exact offers_own hready (.worker action) rfl nofun (if_neg hnot) hu
  | ack k qos => exact offers_own hready (.ack k qos) rfl nofun (if_neg hnot) hu
  | main action =>
      have hmainStep := mainStep_of_step hu
      cases mainStep_cases hmainStep with
      | signal hphase =>
          have hmain := of_phase_running hphase
          have hstep : s.step C (.main .signal) = some { s with main := .stopping } := by
            simp [Threads.step, Threads.mainStep, hmain]
          exact offers_step hstep rfl rfl ⟨nofun, hready.unsent⟩
      | adapterStopped pipeline hphase hended hdrop =>
          have hall : (s.clients.all fun client ↦ client.loop = .ended) = true :=
            List.all_eq_true.mpr fun client hclient ↦ decide_eq_true (hended client hclient)
          rcases of_phase_stopping hphase with hmain | ⟨hmain, hruntime⟩
          · have hstep : s.step C (.main .requestStop) =
                some { s with stop := true, main := .joining } := by
              simp [Threads.step, Threads.mainStep, hmain]
            have hserving := hordered.serving (hordered.asked.mpr (Or.inr hmain))
            have hruntime : s.runtime ≠ .finished := by
              rw [hserving]
              decide
            exact (offers_adapterStopped (s := { s with stop := true, main := .joining }) rfl rfl
              hruntime hready.unsent hall hdrop).after hstep rfl
          · have hstop : s.stop = true := by
              apply hordered.stop_of_not <;> rw [hmain] <;> decide
            exact offers_adapterStopped hmain hstop hruntime hready.unsent hall hdrop
      | drainTimeout hphase =>
          refine offers_joined hordered hready hphase fun r hr hmain hdone hpipeline hclients hacks ↦ ?_
          have hforced : OffersTo C engine requests r _ _ :=
            offers_drainTimeout hmain (by rw [hdone]; exact hready.unsent)
          rw [hpipeline, hclients, hacks] at hforced
          exact hforced
      | forceTimeout hphase =>
          have hmain := of_phase_forcing hphase
          have hstep : s.step C (.main (.forceWait .timeout)) = some { s with main := .exited } := by
            simp [Threads.step, Threads.mainStep, Threads.wait, hmain, hready.unsent]
          exact offers_step hstep rfl rfl ⟨nofun, hready.unsent⟩
      | workerJoined hended =>
          have hjoined := joined_of_workerJoined hmainStep
          cases hphase : s.daemon.main with
          | draining =>
              refine offers_joined hordered hready hphase fun r hr hmain hdone hpipeline hclients hacks ↦ ?_
              have hexit : OffersTo C engine requests r _ _ := offers_workerJoined hr (Or.inl hmain)
                (by rw [hdone]; exact hready.unsent) (by rw [hpipeline]; exact hended)
              rw [hpipeline, hclients, hacks] at hexit
              exact hexit
          | forcing =>
              exact offers_workerJoined hordered (Or.inr (of_phase_forcing hphase)) hready.unsent hended
          | exited => exact absurd hphase (daemonStep_cases hu).1
          | running =>
              rw [hphase] at hjoined
              cases hjoined
          | stopping =>
              rw [hphase] at hjoined
              cases hjoined

theorem threads_cover : (threadSystem C engine capacity requests).Covers
    (daemonSystem C engine capacity requests) Threads.daemon ThreadAction.shown Ready :=
  ⟨⟨nofun, rfl⟩, fun _ _ _ hs hready hu ↦ offers (ordered hs) hready hu⟩

/-- What the runs of the threads show are the runs of the daemon. -/
theorem threads_run_daemon (C : Crates) (engine : RuleEngine) (capacity : Nat)
    (requests : List Requests) (run : List DaemonAction) (d : Daemon capacity) :
    (daemonSystem C engine capacity requests).exec (.init engine requests) run = some d ↔
      ∃ (steps : List ThreadAction) (s : Threads capacity),
        (threadSystem C engine capacity requests).exec (.init engine requests) steps = some s ∧
          steps.filterMap ThreadAction.shown = run ∧ s.daemon = d :=
  System.exec_iff_of_covers threads_simulate threads_cover

end Daemon

/-! ## No thread waits in vain -/

section Progress

variable {capacity : Nat} {C : Crates} {decoder : PayloadDecoder} {cacheCapacity : Nat}
  {engine : RuleEngine} {requests : List Requests} {s t : Threads capacity}

-- a wait of the main thread that ends without the report of the helper
def ThreadAction.isTimeout : ThreadAction → Bool
  | .main (.drainWait .timeout) | .main (.drainWait .disconnected) => true
  | .main (.forceWait .timeout) | .main (.forceWait .disconnected) => true
  | _ => false

theorem exists_own_step {action : DaemonAction} {d : Daemon capacity} (hmain : s.main ≠ .exited)
    (hown : ∀ a, action ≠ .main a) (h : s.daemon.step C action = some d) :
    ∃ action t, ThreadAction.isTimeout action = false ∧ s.step C action = some t := by
  have hgo (b : ThreadAction) (hb : s.step C b = (s.daemon.step C action).map s.resume)
      (htimeout : b.isTimeout = false) :
      ∃ action t, ThreadAction.isTimeout action = false ∧ s.step C action = some t := by
    rw [h] at hb
    exact ⟨b, _, htimeout, hb⟩
  cases action with
  | client k action => exact hgo (.client k action) (if_neg hmain) rfl
  | worker action => exact hgo (.worker action) (if_neg hmain) rfl
  | ack k qos => exact hgo (.ack k qos) (if_neg hmain) rfl
  | main action => exact absurd rfl (hown action)

-- a step of the main thread never leaves it where it is
theorem main_ne_of_mainStep {d e : Daemon capacity} {action : RunAction}
    (h : d.mainStep action = some e) (hmain : d.main ≠ .exited) : e.main ≠ d.main := by
  cases mainStep_cases h with
  | signal hphase => simp [hphase]
  | adapterStopped pipeline hphase hended hdrop => simp [hphase]
  | drainTimeout hphase => simp [hphase]
  | forceTimeout hphase => simp [hphase]
  | workerJoined hended => exact hmain.symm

-- while the runtime thread awaits the event loops
theorem exists_step_joining (hordered : Ordered s) (hupright : Upright s.daemon)
    (hruntime : s.runtime = .joining) :
    ∃ action t, ThreadAction.isTimeout action = false ∧ s.step C action = some t := by
  have hmain := hordered.main_of_joining hruntime
  have hnot : s.main ≠ .exited := by
    rw [hmain]
    decide
  by_cases hended : ∀ client ∈ s.clients, client.loop = .ended
  · have hall : (s.clients.all fun client ↦ client.loop = .ended) = true :=
      List.all_eq_true.mpr fun client hclient ↦ decide_eq_true (hended client hclient)
    have hdrop : s.pipeline.handlerStep .dropHandlers = some { s.pipeline with handlersDropped := true } :=
      hupright.dropHandlers hended
    have hstep : s.step C (.runtime .joinTasks) = some
        { s with pipeline := { s.pipeline with handlersDropped := true }, runtime := .finished } := by
      simp [Threads.step, Threads.runtimeStep, hmain, hruntime, hall, hdrop]
    exact ⟨.runtime .joinTasks, _, rfl, hstep⟩
  · obtain ⟨client, hclient⟩ := not_forall.mp hended
    obtain ⟨hmem, hloop⟩ := Classical.not_imp.mp hclient
    obtain ⟨k, hk⟩ := List.mem_iff_getElem?.mp hmem
    obtain ⟨action, next, pipeline, hstep, -⟩ := hupright.exists_clientStep hk hloop 0
    have htaken := step_client (C := C) (daemon_main_ne hnot) hk hstep
    refine exists_own_step hnot ?_ htaken
    intro a heq
    cases heq

-- while the main thread waits for the report of the helper
theorem exists_step_waiting (hordered : Ordered s) (hupright : Upright s.daemon)
    (hmain : s.main = .draining ∨ s.main = .forcing) :
    ∃ action t, ThreadAction.isTimeout action = false ∧ s.step C action = some t := by
  have hnot : s.main ≠ .exited := by
    rcases hmain with hmain | hmain <;> rw [hmain] <;> decide
  have hwaits : s.main.waits = true := by
    rcases hmain with hmain | hmain <;> rw [hmain] <;> rfl
  cases hhelper : s.helper with
  | none => exact absurd hhelper (hordered.helper_ne_none hwaits)
  | some helper =>
      cases helper with
      | joining =>
          by_cases hended : s.pipeline.worker.hasEnded = true
          · have hstep : s.step C (.helper .join) = some { s with helper := some .sending } := by
              simp [Threads.step, Threads.helperStep, hnot, hhelper, hended]
            exact ⟨.helper .join, _, rfl, hstep⟩
          · have hjoined : s.daemon.main.joined = true := by
              show (daemonPhase s.main s.runtime).joined = true
              rcases hmain with hmain | hmain <;> rw [hmain] <;> rfl
            have hrunning : s.daemon.pipeline.worker.hasEnded = false := Bool.eq_false_iff.mpr hended
            obtain ⟨action, d, -, hstep, hsame, -⟩ := hupright.exists_step (C := C)
              (daemon_main_ne hnot) hrunning (hupright.dropped hjoined)
            refine exists_own_step hnot ?_ hstep
            rintro a rfl
            exact main_ne_of_mainStep (mainStep_of_step hstep) (daemon_main_ne hnot) hsame
      | sending =>
          have hempty : s.done.items = [] := by
            by_contra hdone
            cases hhelper.symm.trans (hordered.sent hdone)
          obtain ⟨done, hsent, -⟩ := Channel.exists_trySend (c := s.done) (by rw [hempty]; decide) ()
          have hstep : s.step C (.helper .send) =
              some { s with done := done, helper := some .ended } := by
            simp [Threads.step, Threads.helperStep, hnot, hhelper, hsent]
          exact ⟨.helper .send, _, rfl, hstep⟩
      | ended =>
          obtain ⟨⟨⟩, rest, hdone⟩ := List.exists_cons_of_ne_nil fun hempty ↦
            hnot (hordered.unsent hempty hhelper)
          have hroom := s.done.hlength
          rw [hdone, List.length_cons] at hroom
          have hrecv : s.done.tryRecv = some ((), ⟨rest, Nat.le_of_succ_le hroom⟩) :=
            Channel.tryRecv_eq_some.mpr hdone
          rcases hmain with hmain | hmain
          · have hstep : s.step C (.main (.drainWait .received)) =
                some { s with done := ⟨rest, Nat.le_of_succ_le hroom⟩, main := .exited } := by
              simp [Threads.step, Threads.mainStep, Threads.wait, hmain, hrecv]
            exact ⟨_, _, rfl, hstep⟩
          · have hstep : s.step C (.main (.forceWait .received)) =
                some { s with done := ⟨rest, Nat.le_of_succ_le hroom⟩, main := .exited } := by
              simp [Threads.step, Threads.mainStep, Threads.wait, hmain, hrecv]
            exact ⟨_, _, rfl, hstep⟩

theorem Ordered.exists_step (hordered : Ordered s) (hupright : Upright s.daemon)
    (hmain : s.main ≠ .exited) :
    ∃ action t, ThreadAction.isTimeout action = false ∧ s.step C action = some t := by
  cases hphase : s.main with
  | running =>
      exact ⟨.main .signal, { s with main := .stopping }, rfl, by
        simp [Threads.step, Threads.mainStep, hphase]⟩
  | stopping =>
      exact ⟨.main .requestStop, { s with stop := true, main := .joining }, rfl, by
        simp [Threads.step, Threads.mainStep, hphase]⟩
  | joining =>
      cases hruntime : s.runtime with
      | serving =>
          have hstop : s.stop = true := by
            apply hordered.stop_of_not <;> rw [hphase] <;> decide
          exact ⟨.runtime .observeStop, { s with shutdown := true, runtime := .joining }, rfl, by
            simp [Threads.step, Threads.runtimeStep, hphase, hruntime, hstop]⟩
      | joining => exact exists_step_joining hordered hupright hruntime
      | finished =>
          exact ⟨.main .joinRuntime, { s with main := .draining, helper := some .joining }, rfl, by
            simp [Threads.step, Threads.mainStep, hphase, hruntime]⟩
  | draining => exact exists_step_waiting hordered hupright (Or.inl hphase)
  | timedOut =>
      exact ⟨.main .forceShutdown, _, rfl, by
        simp only [Threads.step, Threads.mainStep, hphase]
        exact if_neg nofun⟩
  | forcing => exact exists_step_waiting hordered hupright (Or.inr hphase)
  | exited => exact absurd hphase hmain

end Progress

end Tenon.Oss
