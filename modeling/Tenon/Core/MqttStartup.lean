import Tenon.Reasoning.Channel
import Tenon.Reasoning.Transition

/-!
# MqttStartup — starting and stopping the MQTT adapter

The runtime thread subscribes the topics client by client and spawns the event loop of a client only
after its last subscription.  Until then nothing takes a request off the client's channel, so the
subscriptions that the client accepts must fit in it.
-/

open Reasoning Reasoning.Transition

namespace Tenon.Core

structure MqttConfig where
  clientCount : Nat
  clientIds : List String
  groupName : String
  ordered : Bool
  orderedPrefix : String

def MqttConfig.sharedSubscription (config : MqttConfig) (topicFilter : String) : String :=
  if config.ordered then config.orderedPrefix ++ "/" ++ config.groupName ++ "/" ++ topicFilter
  else "$share/" ++ config.groupName ++ "/" ++ topicFilter

inductive MqttError where
  | disabled
  | startFailed (text : String)
  deriving DecidableEq

/-- The capacity given to `AsyncClient::new`. -/
def requestCapacity : Nat := 10

-- what clients put on their request channel
inductive Request where
  | subscribe (filter : String)
  | ack (packetId : Nat)
  deriving DecidableEq

abbrev Requests := Channel Request requestCapacity

/-- `subscribe` refuses a filter that is not valid at once, without sending a request. -/
structure Rumqttc where
  validFilter : String → Bool

structure EventLoop where
  requests : Requests
  running : Bool
  deriving DecidableEq

inductive RuntimePhase where
  | building
  -- at the head of the loop over the clients
  | opening (index : Nat)
  | subscribing (index : Nat) (requests : Requests) (rest : List String)
  -- awaiting the stop signal
  | serving
  -- awaiting the event loops
  | joining
  | finished
  deriving DecidableEq

inductive MainPhase where
  -- `recv_timeout` on the ready channel
  | waiting
  | started
  -- joining the runtime thread, to report the error or for `stop`
  | joining (failure : Option MqttError)
  | returned (failure : Option MqttError)
  deriving DecidableEq

structure Startup where
  phase : RuntimePhase
  loops : List EventLoop
  ready : Option (Except String Unit)
  main : MainPhase
  stop : Bool
  shutdown : Bool

inductive RuntimeAction where
  | build
  | fail (err : String)
  | openClient
  | subscribe
  | spawnLoop
  | announce
  | observeStop
  | joinTasks

inductive LoopAction where
  | poll
  | error
  | shutdown

inductive MainAction where
  | receiveReady
  | timeOut
  | requestStop
  | joinRuntime

inductive StartAction where
  | runtime (action : RuntimeAction)
  | eventLoop (client : Nat) (action : LoopAction)
  | main (action : MainAction)

def clientCount (config : MqttConfig) : Nat := max config.clientCount 1

namespace Startup

def init : Startup where
  phase := .building
  loops := []
  ready := none
  main := .waiting
  stop := false
  shutdown := false

section Steps

variable (R : Rumqttc) (config : MqttConfig) (topics : List String)

def runtimeStep (s : Startup) : RuntimeAction → Option Startup
  | .build =>
      match s.phase with
      | .building => some { s with phase := .opening 0 }
      | _ => none
  | .fail err =>
      match s.phase with
      | .building =>
          some { s with
            phase := .finished
            ready := some (.error ("failed to create runtime: " ++ err)) }
      | _ => none
  | .openClient =>
      match s.phase with
      | .opening index =>
          if index < clientCount config then
            some { s with phase := .subscribing index .empty topics }
          else none
      | _ => none
  | .subscribe =>
      match s.phase with
      | .subscribing index requests (topic :: rest) =>
          let shared := config.sharedSubscription topic
          if R.validFilter shared then
            -- waits for room
            (requests.trySend (.subscribe shared)).map fun requests ↦
              { s with phase := .subscribing index requests rest }
          -- the client is given up
          else some { s with phase := .opening (index + 1) }
      | _ => none
  | .spawnLoop =>
      match s.phase with
      | .subscribing index requests [] =>
          some { s with phase := .opening (index + 1), loops := s.loops ++ [⟨requests, true⟩] }
      | _ => none
  | .announce =>
      match s.phase with
      | .opening index =>
          if index = clientCount config then
            some { s with
              phase := .serving
              ready := some (if s.loops.isEmpty then .error "no MQTT clients subscribed"
                else .ok ()) }
          else none
      | _ => none
  | .observeStop =>
      match s.phase, s.stop with
      | .serving, true => some { s with phase := .joining, shutdown := true }
      | _, _ => none
  | .joinTasks =>
      match s.phase with
      | .joining =>
          if s.loops.all fun eventLoop ↦ !eventLoop.running then some { s with phase := .finished }
          else none
      | _ => none

-- the event loop of a client after the action
def loopStep (shutdown : Bool) (eventLoop : EventLoop) : LoopAction → Option EventLoop
  | .poll =>
      if eventLoop.running then
        eventLoop.requests.tryRecv.map fun taken ↦ { eventLoop with requests := taken.2 }
      else none
  | .error => if eventLoop.running then some { eventLoop with running := false } else none
  | .shutdown =>
      if eventLoop.running && shutdown then some { eventLoop with running := false } else none

-- the thread that calls `start_mqtt` and later `stop`
def mainStep (s : Startup) : MainAction → Option Startup
  | .receiveReady =>
      match s.main, s.ready with
      | .waiting, some (.ok ()) => some { s with main := .started }
      | .waiting, some (.error err) =>
          some { s with main := .joining (some (.startFailed err)), stop := true }
      | _, _ => none
  | .timeOut =>
      match s.main, s.ready with
      | .waiting, none =>
          some { s with
            main := .joining (some (.startFailed "timeout waiting MQTT startup readiness"))
            stop := true }
      | _, _ => none
  | .requestStop =>
      match s.main with
      | .started => some { s with main := .joining none, stop := true }
      | _ => none
  | .joinRuntime =>
      match s.main, s.phase with
      | .joining failure, .finished => some { s with main := .returned failure }
      | _, _ => none

def step (s : Startup) : StartAction → Option Startup
  | .runtime action => s.runtimeStep R config topics action
  | .eventLoop client action =>
      (s.loops[client]?).bind fun eventLoop ↦
        (loopStep s.shutdown eventLoop action).map fun eventLoop ↦
          { s with loops := s.loops.set client eventLoop }
  | .main action => s.mainStep action

end Steps

end Startup

/-- `start_mqtt`: refused at once when the client ids do not fit the client count, else the runs of
its threads. -/
def startMqtt (R : Rumqttc) (config : MqttConfig) (topics : List String) :
    Except MqttError (System Startup StartAction) :=
  if config.clientIds.length ≠ clientCount config then
    .error (.startFailed ("invalid client_ids length: expected " ++ toString (clientCount config) ++
      ", got " ++ toString config.clientIds.length))
  else .ok ⟨.init, Startup.step R config topics⟩

theorem startMqtt_eq_ok {R : Rumqttc} {config : MqttConfig} {topics : List String}
    {S : System Startup StartAction} (h : startMqtt R config topics = .ok S) :
    S = ⟨.init, Startup.step R config topics⟩ := by
  unfold startMqtt at h
  split at h
  · cases h
  · exact (Except.ok.inj h).symm

/-! ## What each step of the runtime thread does -/

section StepCases

variable (R : Rumqttc) (config : MqttConfig) (topics : List String)

inductive RuntimeStep (s : Startup) : RuntimeAction → Startup → Prop
  | build (hphase : s.phase = .building) : RuntimeStep s .build { s with phase := .opening 0 }
  | fail (err : String) (hphase : s.phase = .building) :
      RuntimeStep s (.fail err)
        { s with
          phase := .finished
          ready := some (.error ("failed to create runtime: " ++ err)) }
  | openClient (index : Nat) (hphase : s.phase = .opening index)
      (hindex : index < clientCount config) :
      RuntimeStep s .openClient { s with phase := .subscribing index .empty topics }
  | subscribe (index : Nat) (requests requests' : Requests) (topic : String) (rest : List String)
      (hphase : s.phase = .subscribing index requests (topic :: rest))
      (hvalid : R.validFilter (config.sharedSubscription topic) = true)
      (hitems : requests'.items =
        requests.items ++ [.subscribe (config.sharedSubscription topic)]) :
      RuntimeStep s .subscribe { s with phase := .subscribing index requests' rest }
  | giveUp (index : Nat) (requests : Requests) (topic : String) (rest : List String)
      (hphase : s.phase = .subscribing index requests (topic :: rest)) :
      RuntimeStep s .subscribe { s with phase := .opening (index + 1) }
  | spawnLoop (index : Nat) (requests : Requests) (hphase : s.phase = .subscribing index requests []) :
      RuntimeStep s .spawnLoop
        { s with phase := .opening (index + 1), loops := s.loops ++ [⟨requests, true⟩] }
  | announce (index : Nat) (message : Except String Unit) (hphase : s.phase = .opening index) :
      RuntimeStep s .announce { s with phase := .serving, ready := some message }
  | observeStop (hphase : s.phase = .serving) :
      RuntimeStep s .observeStop { s with phase := .joining, shutdown := true }
  | joinTasks (hphase : s.phase = .joining) : RuntimeStep s .joinTasks { s with phase := .finished }

variable {R config topics}

theorem Startup.runtimeStep_cases {s t : Startup} {action : RuntimeAction}
    (h : s.runtimeStep R config topics action = some t) :
    RuntimeStep R config topics s action t := by
  cases action with
  | build =>
      simp only [Startup.runtimeStep] at h
      split at h
      · rename_i hphase
        cases h
        exact .build hphase
      · cases h
  | fail err =>
      simp only [Startup.runtimeStep] at h
      split at h
      · rename_i hphase
        cases h
        exact .fail err hphase
      · cases h
  | openClient =>
      simp only [Startup.runtimeStep] at h
      split at h
      · rename_i index hphase
        split at h
        · rename_i hindex
          cases h
          exact .openClient index hphase hindex
        · cases h
      · cases h
  | subscribe =>
      simp only [Startup.runtimeStep] at h
      split at h
      · rename_i index requests topic rest hphase
        split at h
        · rename_i hvalid
          obtain ⟨requests', hsend, rfl⟩ := Option.map_eq_some_iff.mp h
          have hitems := Channel.trySend_eq_some.mp hsend
          exact .subscribe index requests requests' topic rest hphase hvalid hitems
        · cases h
          exact .giveUp index requests topic rest hphase
      · cases h
  | spawnLoop =>
      simp only [Startup.runtimeStep] at h
      split at h
      · rename_i index requests hphase
        cases h
        exact .spawnLoop index requests hphase
      · cases h
  | announce =>
      simp only [Startup.runtimeStep] at h
      split at h
      · rename_i index hphase
        split at h
        · cases h
          exact .announce index _ hphase
        · cases h
      · cases h
  | observeStop =>
      simp only [Startup.runtimeStep] at h
      split at h
      · rename_i hphase hstop
        cases h
        exact .observeStop hphase
      · cases h
  | joinTasks =>
      simp only [Startup.runtimeStep] at h
      split at h
      · rename_i hphase
        split at h
        · cases h
          exact .joinTasks hphase
        · cases h
      · cases h

end StepCases

/-! ## Steps the threads can always take -/

section Progress

variable (R : Rumqttc) (config : MqttConfig) (topics : List String)

-- the subscriptions of the topics that reach the channel of a client
def accepted (rest : List String) : List String :=
  (rest.map config.sharedSubscription).takeWhile R.validFilter

theorem accepted_cons_of_valid {topic : String} {rest : List String}
    (h : R.validFilter (config.sharedSubscription topic) = true) :
    accepted R config (topic :: rest) = config.sharedSubscription topic :: accepted R config rest := by
  unfold accepted
  rw [List.map_cons, List.takeWhile_cons_of_pos h]

theorem exists_valid_of_accepted {rest : List String} (h : 0 < (accepted R config rest).length) :
    ∃ topic later, rest = topic :: later ∧
      R.validFilter (config.sharedSubscription topic) = true := by
  cases rest with
  | nil => cases h
  | cons topic later =>
      have hvalid : R.validFilter (config.sharedSubscription topic) = true := by
        by_contra hinvalid
        unfold accepted at h
        rw [List.map_cons, List.takeWhile_cons_of_neg hinvalid] at h
        cases h
      exact ⟨topic, later, rfl, hvalid⟩

def RuntimePhase.Fits : RuntimePhase → Prop
  | .opening index => index ≤ clientCount config
  | .subscribing index requests rest =>
      index < clientCount config ∧
        requests.items.length + (accepted R config rest).length ≤ requestCapacity
  | _ => True

-- the phases before the ready message
def RuntimePhase.isStarting : RuntimePhase → Bool
  | .building | .opening _ | .subscribing _ _ _ => true
  | .serving | .joining | .finished => false

structure Startup.Ordered (s : Startup) : Prop where
  fits : s.phase.Fits R config
  announced : s.phase.isStarting = false → s.ready ≠ none
  shutdown : s.phase = .joining → s.shutdown = true

variable {R config topics}

theorem Startup.ordered_init : Startup.init.Ordered R config where
  fits := trivial
  announced h := by cases h
  shutdown h := by cases h

theorem Startup.Ordered.runtimeStep {s t : Startup} {action : RuntimeAction}
    (hfit : (accepted R config topics).length ≤ requestCapacity) (h : s.Ordered R config)
    (hstep : s.runtimeStep R config topics action = some t) : t.Ordered R config := by
  have hfits := h.fits
  cases Startup.runtimeStep_cases hstep with
  | build hphase => exact ⟨Nat.zero_le _, nofun, nofun⟩
  | fail err hphase => exact ⟨trivial, fun _ ↦ Option.some_ne_none _, nofun⟩
  | openClient index hphase hindex =>
      have hroom : 0 + (accepted R config topics).length ≤ requestCapacity := by omega
      exact ⟨⟨hindex, hroom⟩, nofun, nofun⟩
  | subscribe index requests requests' topic rest hphase hvalid hitems =>
      rw [hphase] at hfits
      rcases hfits with ⟨hindex, hroom⟩
      -- the request moves from the topics that are left to the channel
      have hroom' :
          requests'.items.length + (accepted R config rest).length ≤ requestCapacity := by
        rw [accepted_cons_of_valid R config hvalid, List.length_cons] at hroom
        rw [hitems, List.length_append, List.length_singleton]
        omega
      exact ⟨⟨hindex, hroom'⟩, nofun, nofun⟩
  | giveUp index requests topic rest hphase =>
      rw [hphase] at hfits
      have hindex : index + 1 ≤ clientCount config := hfits.1
      exact ⟨hindex, nofun, nofun⟩
  | spawnLoop index requests hphase =>
      rw [hphase] at hfits
      have hindex : index + 1 ≤ clientCount config := hfits.1
      exact ⟨hindex, nofun, nofun⟩
  | announce index message hphase => exact ⟨trivial, fun _ ↦ Option.some_ne_none _, nofun⟩
  | observeStop hphase =>
      have hready : s.ready ≠ none := h.announced (by rw [hphase]; rfl)
      exact ⟨trivial, fun _ ↦ hready, fun _ ↦ rfl⟩
  | joinTasks hphase =>
      have hready : s.ready ≠ none := h.announced (by rw [hphase]; rfl)
      exact ⟨trivial, fun _ ↦ hready, nofun⟩

theorem Startup.mainStep_frame {s t : Startup} {action : MainAction}
    (hstep : s.mainStep action = some t) :
    t.phase = s.phase ∧ t.loops = s.loops ∧ t.ready = s.ready ∧ t.shutdown = s.shutdown := by
  cases action <;> simp only [Startup.mainStep] at hstep <;> split at hstep <;> cases hstep <;>
    exact ⟨rfl, rfl, rfl, rfl⟩

theorem Startup.Ordered.step {s t : Startup} {action : StartAction}
    (hfit : (accepted R config topics).length ≤ requestCapacity) (h : s.Ordered R config)
    (hstep : s.step R config topics action = some t) : t.Ordered R config := by
  cases action with
  | runtime action => exact h.runtimeStep hfit hstep
  | eventLoop client action =>
      obtain ⟨eventLoop, -, hmap⟩ := Option.bind_eq_some_iff.mp hstep
      obtain ⟨eventLoop', -, rfl⟩ := Option.map_eq_some_iff.mp hmap
      exact ⟨h.fits, h.announced, h.shutdown⟩
  | main action =>
      obtain ⟨hphase, -, hready, hshutdown⟩ := Startup.mainStep_frame hstep
      have hfits : t.phase.Fits R config := by
        rw [hphase]
        exact h.fits
      have hannounced : t.phase.isStarting = false → t.ready ≠ none := by
        rw [hphase, hready]
        exact h.announced
      have hjoining : t.phase = .joining → t.shutdown = true := by
        rw [hphase, hshutdown]
        exact h.shutdown
      exact ⟨hfits, hannounced, hjoining⟩

theorem Startup.ordered (hfit : (accepted R config topics).length ≤ requestCapacity) {s : Startup}
    (h : (System.mk .init (Startup.step R config topics)).Reachable s) : s.Ordered R config :=
  h.invariant Startup.ordered_init fun _ _ _ hs hstep ↦ hs.step hfit hstep

-- while the runtime thread starts, it is never blocked
theorem Startup.Ordered.exists_runtimeStep {s : Startup} (h : s.Ordered R config)
    (topics : List String) (hstarting : s.phase.isStarting = true) :
    ∃ action t, s.runtimeStep R config topics action = some t := by
  have hfits := h.fits
  cases hphase : s.phase with
  | building => exact ⟨.build, _, by rw [Startup.runtimeStep, hphase]⟩
  | opening index =>
      rw [hphase] at hfits
      rcases Nat.lt_or_eq_of_le hfits with hlt | heq
      · exact ⟨.openClient, _, by simp only [Startup.runtimeStep, hphase, if_pos hlt]; rfl⟩
      · exact ⟨.announce, _, by simp only [Startup.runtimeStep, hphase, if_pos heq]; rfl⟩
  | subscribing index requests rest =>
      rw [hphase] at hfits
      cases rest with
      | nil => exact ⟨.spawnLoop, _, by simp only [Startup.runtimeStep, hphase]; rfl⟩
      | cons topic rest =>
          exists .subscribe
          simp only [Startup.runtimeStep, hphase]
          by_cases hvalid : R.validFilter (config.sharedSubscription topic) = true
          · -- the request is one of those that fit
            have hroom := hfits.2
            rw [accepted_cons_of_valid R config hvalid, List.length_cons] at hroom
            have hlt : requests.items.length < requestCapacity := by omega
            obtain ⟨requests', hsend, -⟩ :=
              Channel.exists_trySend hlt (.subscribe (config.sharedSubscription topic))
            exact ⟨_, by rw [if_pos hvalid, hsend]; rfl⟩
          · exact ⟨_, if_neg hvalid⟩
  | serving =>
      rw [hphase] at hstarting
      cases hstarting
  | joining =>
      rw [hphase] at hstarting
      cases hstarting
  | finished =>
      rw [hphase] at hstarting
      cases hstarting

-- once stopped, some thread goes on until the runtime thread has finished
theorem Startup.Ordered.exists_step_of_stop {s : Startup} (h : s.Ordered R config)
    (topics : List String) (hstop : s.stop = true) (hphase : s.phase ≠ .finished) :
    ∃ action t, s.step R config topics action = some t := by
  cases hp : s.phase with
  | serving =>
      exact ⟨.runtime .observeStop, _, by simp only [Startup.step, Startup.runtimeStep, hp, hstop]; rfl⟩
  | joining =>
      by_cases hall : (s.loops.all fun eventLoop ↦ !eventLoop.running) = true
      · exact ⟨.runtime .joinTasks, _, by
          simp only [Startup.step, Startup.runtimeStep, hp, if_pos hall]; rfl⟩
      · -- a loop that still runs sees the shutdown
        simp only [List.all_eq_true, not_forall] at hall
        rcases hall with ⟨eventLoop, hmem, hrunning⟩
        obtain ⟨client, hclient⟩ := List.mem_iff_getElem?.mp hmem
        have hon : eventLoop.running = true := by simpa using hrunning
        have hloop : Startup.loopStep s.shutdown eventLoop .shutdown =
            some { eventLoop with running := false } := by
          simp [Startup.loopStep, hon, h.shutdown hp]
        exact ⟨.eventLoop client .shutdown, _, by
          rw [Startup.step, hclient, Option.bind_some, hloop, Option.map_some]⟩
  | finished => exact absurd hp hphase
  | _ =>
      obtain ⟨action, t, ht⟩ := h.exists_runtimeStep topics (by rw [hp]; rfl)
      exact ⟨.runtime action, t, ht⟩

end Progress

/-! ## Every run is finite -/

section Termination

variable {R : Rumqttc} {config : MqttConfig} {topics : List String}

-- the steps a client can still cost
def clientCost (topics : List String) : Nat := 2 * topics.length + 4

def RuntimePhase.work (config : MqttConfig) (topics : List String) : RuntimePhase → Nat
  | .building => clientCount config * clientCost topics + 5
  | .opening index => (clientCount config - index) * clientCost topics + 4
  | .subscribing index requests rest =>
      (clientCount config - (index + 1)) * clientCost topics + requests.items.length +
        2 * rest.length + 6
  | .serving => 3
  | .joining => 2
  | .finished => 1

def EventLoop.work (eventLoop : EventLoop) : Nat :=
  eventLoop.requests.items.length + eventLoop.running.toNat

def MainPhase.work : MainPhase → Nat
  | .waiting => 3
  | .started => 2
  | .joining _ => 1
  | .returned _ => 0

def loopsWork : List EventLoop → Nat
  | [] => 0
  | eventLoop :: loops => eventLoop.work + loopsWork loops

/-- A bound on the steps that are left. -/
def Startup.work (config : MqttConfig) (topics : List String) (s : Startup) : Nat :=
  s.phase.work config topics + loopsWork s.loops + s.main.work

theorem loopsWork_concat (loops : List EventLoop) (eventLoop : EventLoop) :
    loopsWork (loops ++ [eventLoop]) = loopsWork loops + eventLoop.work := by
  induction loops with
  | nil => exact Nat.add_comm _ _
  | cons first rest ih =>
      rw [List.cons_append, loopsWork, loopsWork, ih]
      omega

theorem loopsWork_set {loops : List EventLoop} {client : Nat} {eventLoop : EventLoop}
    (h : loops[client]? = some eventLoop) (next : EventLoop) :
    loopsWork (loops.set client next) + eventLoop.work = loopsWork loops + next.work := by
  induction loops generalizing client with
  | nil => cases h
  | cons first rest ih =>
      cases client with
      | zero =>
          cases h
          rw [List.set_cons_zero, loopsWork, loopsWork]
          omega
      | succ client =>
          have hrest := ih h
          rw [List.set_cons_succ, loopsWork, loopsWork]
          omega

theorem Startup.loopStep_work {shutdown : Bool} {eventLoop next : EventLoop} {action : LoopAction}
    (hstep : Startup.loopStep shutdown eventLoop action = some next) :
    next.work < eventLoop.work := by
  cases action with
  | poll =>
      simp only [Startup.loopStep] at hstep
      split at hstep
      · obtain ⟨⟨request, requests⟩, hrecv, rfl⟩ := Option.map_eq_some_iff.mp hstep
        have hitems := Channel.tryRecv_eq_some.mp hrecv
        simp only [EventLoop.work, hitems, List.length_cons]
        omega
      · cases hstep
  | error =>
      simp only [Startup.loopStep] at hstep
      split at hstep
      · rename_i hrunning
        cases hstep
        simp [EventLoop.work, hrunning]
      · cases hstep
  | shutdown =>
      simp only [Startup.loopStep] at hstep
      split at hstep
      · rename_i hrunning
        rw [Bool.and_eq_true] at hrunning
        cases hstep
        simp [EventLoop.work, hrunning.1]
      · cases hstep

theorem Startup.mainStep_work {s t : Startup} {action : MainAction}
    (hstep : s.mainStep action = some t) : t.main.work < s.main.work := by
  cases action <;> simp only [Startup.mainStep] at hstep <;> split at hstep <;> cases hstep <;>
    simp_all [MainPhase.work]

-- a client that was opened costs one share of the whole
theorem clientCost_succ {index : Nat} (h : index < clientCount config) :
    (clientCount config - index) * clientCost topics =
      (clientCount config - (index + 1)) * clientCost topics + clientCost topics := by
  obtain ⟨k, hk⟩ := Nat.exists_eq_add_of_lt h
  have hleft : clientCount config - index = k + 1 := by omega
  have hright : clientCount config - (index + 1) = k := by omega
  rw [hleft, hright, Nat.succ_mul]

theorem Startup.runtimeStep_work {s t : Startup} {action : RuntimeAction}
    (hstep : s.runtimeStep R config topics action = some t) :
    t.work config topics < s.work config topics := by
  cases Startup.runtimeStep_cases hstep with
  | build hphase =>
      simp only [Startup.work, hphase, RuntimePhase.work, Nat.sub_zero]
      omega
  | fail err hphase =>
      simp only [Startup.work, hphase, RuntimePhase.work]
      omega
  | openClient index hphase hindex =>
      simp only [Startup.work, hphase, RuntimePhase.work, Channel.items_empty, List.length_nil]
      rw [clientCost_succ hindex]
      simp only [clientCost]
      omega
  | subscribe index requests requests' topic rest hphase hvalid hitems =>
      simp only [Startup.work, hphase, RuntimePhase.work, hitems, List.length_append,
        List.length_cons, List.length_nil]
      omega
  | giveUp index requests topic rest hphase =>
      simp only [Startup.work, hphase, RuntimePhase.work, List.length_cons]
      omega
  | spawnLoop index requests hphase =>
      simp only [Startup.work, hphase, RuntimePhase.work, loopsWork_concat, EventLoop.work,
        Bool.toNat_true, List.length_nil]
      omega
  | announce index message hphase =>
      simp only [Startup.work, hphase, RuntimePhase.work]
      omega
  | observeStop hphase =>
      simp only [Startup.work, hphase, RuntimePhase.work]
      omega
  | joinTasks hphase =>
      simp only [Startup.work, hphase, RuntimePhase.work]
      omega

theorem Startup.step_work {s t : Startup} {action : StartAction}
    (hstep : s.step R config topics action = some t) :
    t.work config topics < s.work config topics := by
  cases action with
  | runtime action => exact Startup.runtimeStep_work hstep
  | eventLoop client action =>
      obtain ⟨eventLoop, hclient, hmap⟩ := Option.bind_eq_some_iff.mp hstep
      obtain ⟨next, hnext, rfl⟩ := Option.map_eq_some_iff.mp hmap
      have hless := Startup.loopStep_work hnext
      have hsum := loopsWork_set hclient next
      simp only [Startup.work]
      omega
  | main action =>
      obtain ⟨hphase, hloops, -, -⟩ := Startup.mainStep_frame hstep
      have hless := Startup.mainStep_work hstep
      simp only [Startup.work, hphase, hloops]
      omega

end Termination

/-! ## The main result -/

/-- No thread can take a step, and the ready message was not sent or the runtime thread was stopped
and has not finished. -/
structure Deadlocked (S : System Startup StartAction) (s : Startup) : Prop where
  stuck : S.Stuck s
  unfinished : s.ready = none ∨ (s.stop = true ∧ s.phase ≠ .finished)

section Deadlock

variable (R : Rumqttc) (config : MqttConfig) (topics : List String)

-- as long as there is room, subscriptions go through one after the other
theorem subscribe_run {n index : Nat} {requests : Requests} {rest : List String} {s : Startup}
    (hphase : s.phase = .subscribing index requests rest)
    (hroom : requests.items.length + n ≤ requestCapacity)
    (hrest : n ≤ (accepted R config rest).length) :
    ∃ requests' rest', requests'.items.length = requests.items.length + n ∧
      (accepted R config rest').length = (accepted R config rest).length - n ∧
      (System.mk .init (Startup.step R config topics)).exec s
          (List.replicate n (.runtime .subscribe)) =
        some { s with phase := .subscribing index requests' rest' } := by
  induction n generalizing s requests rest with
  | zero => exact ⟨requests, rest, rfl, rfl, by rw [← hphase]; rfl⟩
  | succ n ih =>
      have hmore : 0 < (accepted R config rest).length := by omega
      obtain ⟨topic, later, rfl, hvalid⟩ := exists_valid_of_accepted R config hmore
      rw [accepted_cons_of_valid R config hvalid, List.length_cons] at hrest ⊢
      have hlt : requests.items.length < requestCapacity := by omega
      obtain ⟨next, hsend, hitems⟩ :=
        Channel.exists_trySend hlt (.subscribe (config.sharedSubscription topic))
      have hlength : next.items.length = requests.items.length + 1 := by
        rw [hitems, List.length_append, List.length_singleton]
      have hstep : s.step R config topics (.runtime .subscribe) =
          some { s with phase := .subscribing index next later } := by
        simp only [Startup.step, Startup.runtimeStep, hphase, if_pos hvalid, hsend,
          Option.map_some]
      obtain ⟨requests', rest', hlength', haccepted', hexec⟩ :=
        ih (s := { s with phase := .subscribing index next later }) rfl (by omega) (by omega)
      have hrun : (System.mk .init (Startup.step R config topics)).exec s
          (List.replicate (n + 1) (.runtime .subscribe)) =
            some { s with phase := .subscribing index requests' rest' } := by
        rw [List.replicate_succ, System.exec_cons]
        change (s.step R config topics (.runtime .subscribe)).bind _ = _
        rw [hstep]
        exact hexec
      exact ⟨requests', rest', by omega, by omega, hrun⟩

/-- With more subscriptions than the channel takes, the first client fills it and waits forever; the
caller times out and waits for the runtime thread. -/
theorem exists_deadlocked (hover : requestCapacity < (accepted R config topics).length) :
    ∃ s, (System.mk .init (Startup.step R config topics)).Reachable s ∧
      Deadlocked (System.mk .init (Startup.step R config topics)) s := by
  have hcount : 0 < clientCount config := Nat.lt_of_lt_of_le Nat.one_pos (Nat.le_max_right _ 1)
  let opened : Startup := { Startup.init with phase := .subscribing 0 .empty topics }
  have hopen : (System.mk .init (Startup.step R config topics)).exec Startup.init
      [.runtime .build, .runtime .openClient] = some opened := by
    simp only [System.exec, Startup.step, Startup.runtimeStep, Startup.init, Option.bind_some,
      if_pos hcount]
    rfl
  obtain ⟨requests, rest, hlength, haccepted, hfill⟩ :=
    subscribe_run R config topics (n := requestCapacity) (s := opened) rfl (by simp)
      (Nat.le_of_lt hover)
  let blocked : Startup :=
    { opened with
      phase := .subscribing 0 requests rest
      main := .joining (some (.startFailed "timeout waiting MQTT startup readiness"))
      stop := true }
  -- the next subscription is one the client accepts, and the channel is full
  have hmore : 0 < (accepted R config rest).length := by omega
  obtain ⟨topic, later, hrest, hvalid⟩ := exists_valid_of_accepted R config hmore
  have hfull (request : Request) : requests.trySend request = none :=
    Channel.trySend_eq_none.mpr (by simpa using hlength)
  have hrun : (System.mk .init (Startup.step R config topics)).exec Startup.init
      ([.runtime .build, .runtime .openClient] ++
        (List.replicate requestCapacity (.runtime .subscribe) ++ [.main .timeOut])) =
          some blocked := by
    rw [System.exec_append, hopen, Option.bind_some, System.exec_append, hfill]
    rfl
  have hstuck : (System.mk .init (Startup.step R config topics)).Stuck blocked := by
    intro action
    change blocked.step R config topics action = none
    cases action with
    | runtime action =>
        cases action with
        | subscribe =>
            simp only [Startup.step, Startup.runtimeStep, blocked, hrest, if_pos hvalid, hfull,
              Option.map_none]
        | _ =>
            simp only [Startup.step, Startup.runtimeStep, blocked, hrest]
    | eventLoop client action => rfl
    | main action => cases action <;> rfl
  exact ⟨blocked, ⟨_, hrun⟩, hstuck, Or.inl rfl⟩

end Deadlock

/-- If the subscriptions fit, no thread is left waiting before the ready message, nor after a stop
before the runtime thread has finished. -/
theorem Startup.Ordered.not_deadlocked {R : Rumqttc} {config : MqttConfig} {s : Startup}
    (h : s.Ordered R config) (topics : List String) :
    ¬ Deadlocked (System.mk .init (Startup.step R config topics)) s := by
  intro hdead
  rcases hdead with ⟨hstuck, hready | ⟨hstop, hphase⟩⟩
  · have hstarting : s.phase.isStarting = true := by
      by_contra hstarted
      exact h.announced (by simpa using hstarted) hready
    obtain ⟨action, t, ht⟩ := h.exists_runtimeStep topics hstarting
    exact Option.some_ne_none t (ht.symm.trans (hstuck (.runtime action)))
  · obtain ⟨action, t, ht⟩ := h.exists_step_of_stop topics hstop hphase
    exact Option.some_ne_none t (ht.symm.trans (hstuck action))

/-- Starting and stopping the adapter never deadlocks if and only if the subscriptions a client accepts
fit in its request channel. -/
theorem startMqtt_deadlockFree_iff {R : Rumqttc} {config : MqttConfig} {topics : List String}
    {S : System Startup StartAction} (h : startMqtt R config topics = .ok S) :
    (∀ s, S.Reachable s → ¬ Deadlocked S s) ↔
      (accepted R config topics).length ≤ requestCapacity := by
  cases startMqtt_eq_ok h
  constructor
  · intro hfree
    by_contra hover
    obtain ⟨s, hreach, hdead⟩ := exists_deadlocked R config topics (Nat.lt_of_not_le hover)
    exact hfree s hreach hdead
  · intro hfit s hreach
    exact (Startup.ordered hfit hreach).not_deadlocked topics

-- one client, with a filter check that refuses nothing
def demoConfig : MqttConfig where
  clientCount := 1
  clientIds := ["c"]
  groupName := "g"
  ordered := false
  orderedPrefix := ""

theorem startMqtt_deadlockFree_iff_demo :
    (∀ s, (System.mk .init (Startup.step ⟨fun _ ↦ true⟩ demoConfig ["a", "b/#"])).Reachable s →
        ¬ Deadlocked (System.mk .init (Startup.step ⟨fun _ ↦ true⟩ demoConfig ["a", "b/#"])) s) ↔
      (accepted ⟨fun _ ↦ true⟩ demoConfig ["a", "b/#"]).length ≤ requestCapacity :=
  startMqtt_deadlockFree_iff (R := ⟨fun _ ↦ true⟩) rfl

/-- Eleven topics are one too many. -/
theorem exists_deadlocked_eleven :
    ∃ S s, startMqtt ⟨fun _ ↦ true⟩ demoConfig ((List.range 11).map toString) = .ok S ∧
      S.Reachable s ∧ Deadlocked S s := by
  obtain ⟨s, hreach, hdead⟩ :=
    exists_deadlocked ⟨fun _ ↦ true⟩ demoConfig ((List.range 11).map toString) (by decide)
  exact ⟨_, s, rfl, hreach, hdead⟩

/-- When the subscriptions fit, a run that has come to its end has sent the ready message and, if it
was stopped, has finished the runtime thread; and no run goes on for ever. -/
theorem startMqtt_completes {R : Rumqttc} {config : MqttConfig} {topics : List String}
    {S : System Startup StartAction} (h : startMqtt R config topics = .ok S)
    (hfit : (accepted R config topics).length ≤ requestCapacity) {run : List StartAction}
    {s : Startup} (hexec : S.exec S.init run = some s) :
    run.length ≤ Startup.init.work config topics ∧
      (S.Stuck s → s.ready ≠ none ∧ (s.stop = true → s.phase = .finished)) := by
  cases startMqtt_eq_ok h
  constructor
  · have hbound := System.length_add_le (fun s action t ↦ Startup.step_work) hexec
    exact Nat.le_trans (Nat.le_add_right _ _) hbound
  · intro hstuck
    have hfree := (Startup.ordered hfit ⟨run, hexec⟩).not_deadlocked topics
    constructor
    · exact fun hready ↦ hfree ⟨hstuck, Or.inl hready⟩
    · intro hstop
      by_contra hphase
      exact hfree ⟨hstuck, Or.inr ⟨hstop, hphase⟩⟩

end Tenon.Core
