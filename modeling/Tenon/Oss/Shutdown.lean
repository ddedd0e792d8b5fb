import Tenon.Oss.Acks
import Tenon.Oss.Provenance

/-!
# Shutdown — the daemon comes to its exit

After the event loops have been joined the daemon makes boundedly many steps, and none of its states but
the exit has no next step.  An exit that was not forced leaves no accepted delivery behind, and such an
exit can be reached from every state in which the stop was not forced yet.
-/

open Tenon.Core Reasoning Reasoning.Transition

namespace Tenon.Oss

/-! ## The work that is left -/

section Work

variable {capacity : Nat}

-- the event loops have been joined
def RunPhase.joined : RunPhase → Bool
  | .running | .stopping => false
  | .draining | .forcing | .exited => true

-- the handler call of an event loop that is between `try_send` and the metric of its outcome
def LoopPhase.unrecorded (sent : Bool) (loop : LoopPhase) : Nat :=
  if loop = .recording sent then 1 else 0

-- the steps of an event loop that takes no more packets
def LoopPhase.work : LoopPhase → Nat
  | .recording _ => 2
  | .polling => 1
  | .ended => 0

-- the steps of the worker until it is done with the delivery in hand, and one for the hang-up
def WorkerPhase.work (rules : Nat) : WorkerPhase → Nat
  | .received _ => rules + 6
  | .admitted _ => rules + 5
  | .counted _ => rules + 4
  | .evaluated _ results => results.length + 3
  | .dispatching _ rest => rest.length + 2
  | .receiving => 1
  | .ended _ => 0

namespace Pipeline

def work (rules : Nat) (s : Pipeline capacity) : Nat :=
  s.worker.work rules + (rules + 6) * s.evalQueue.items.length

-- under a forced stop the next delivery off the queue ends the worker
def forcedWork (rules : Nat) (s : Pipeline capacity) : Nat :=
  match s.worker with
  | .received _ => 1
  | .ended _ => 0
  | worker => worker.work rules + min 1 s.evalQueue.items.length

end Pipeline

namespace Daemon

def unrecorded (sent : Bool) (s : Daemon capacity) : Nat :=
  (s.clients.map fun client ↦ client.loop.unrecorded sent).sum

def loopWork (s : Daemon capacity) : Nat := (s.clients.map fun client ↦ client.loop.work).sum

/-- The steps that are left when no client takes another packet. -/
def work (rules : Nat) (s : Daemon capacity) : Nat :=
  match s.main with
  | .running => s.loopWork + s.pipeline.work rules + 4
  | .stopping => s.loopWork + s.pipeline.work rules + 3
  | .draining => s.pipeline.work rules + 2
  | .forcing => s.pipeline.forcedWork rules + 1
  | .exited => 0

end Daemon

variable {C : Crates} {s t : Pipeline capacity} {rules : Nat}

-- no message has more results than there are slots
theorem length_results_le {decoder : PayloadDecoder} {cacheCapacity : Nat} {engine : RuleEngine}
    (h : (engineSystem C decoder cacheCapacity).Reachable engine) (order : HashOrder)
    (message : Message) :
    (engine.evaluate C order message).2.results.length ≤ engine.rules.length := by
  have hattempts := ((wellFormed h).outcome (C := C) (cachedOnce h) order message).1.length_eq
  have hresults : (engine.evaluate C order message).2.results.length ≤
      (engine.evaluate C order message).2.attempts.length := List.length_filterMap_le _ _
  have hslots := List.length_filterMap_le (slotAttempt C decoder engine.rules message)
    (matchedSlots engine.rules message)
  have hmatched : (matchedSlots engine.rules message).length ≤ (List.range engine.rules.length).length :=
    List.length_filter_le _ _
  rw [List.length_range] at hmatched
  omega

/-- The results of the delivery the worker is about to evaluate are at most as many as the slots. -/
def ResultsBounded (C : Crates) (rules : Nat) (s : Pipeline capacity) : Prop :=
  ∀ delivery order, s.worker = .counted delivery →
    (s.engine.evaluate C order delivery.message).2.results.length ≤ rules

theorem work_of_workerStep (hbound : ResultsBounded C rules s) {action : WorkerAction}
    (h : s.workerStep C action = some t) : t.work rules < s.work rules := by
  unfold Pipeline.work
  cases workerStep_cases h with
  | recv delivery queue hworker hitems =>
      rw [hworker, hitems, List.length_cons, Nat.mul_succ]
      simp only [WorkerPhase.work]
      omega
  | evaluate order delivery hworker engine results hengine hresults =>
      have hlength := hbound delivery order hworker
      rw [hresults] at hlength
      rw [hworker]
      simp only [WorkerPhase.work]
      omega
  | hangUp hworker hempty hdropped => simp [hworker, WorkerPhase.work]
  | discard delivery hworker hforce => simp [hworker, WorkerPhase.work]
  | proceed delivery hworker hforce => simp [hworker, WorkerPhase.work]
  | recordDequeued delivery hworker => simp [hworker, WorkerPhase.work]
  | ack delivery results hworker => simp [hworker, WorkerPhase.work]
  | dispatch delivery result rest hworker => simp [hworker, WorkerPhase.work]
  | finish delivery hworker => simp [hworker, WorkerPhase.work]

theorem forcedWork_of_workerStep (hbound : ResultsBounded C rules s) (hforced : s.forceShutdown = true)
    {action : WorkerAction} (h : s.workerStep C action = some t) :
    t.forcedWork rules < s.forcedWork rules := by
  unfold Pipeline.forcedWork
  cases workerStep_cases h with
  | recv delivery queue hworker hitems => simp [hworker, hitems, WorkerPhase.work]
  | proceed delivery hworker hforce => exact absurd (hforced.symm.trans hforce) (by simp)
  | evaluate order delivery hworker engine results hengine hresults =>
      have hlength := hbound delivery order hworker
      rw [hresults] at hlength
      rw [hworker]
      simp only [WorkerPhase.work]
      omega
  | hangUp hworker hempty hdropped => simp [hworker, WorkerPhase.work]
  | discard delivery hworker hforce => simp [hworker]
  | recordDequeued delivery hworker => simp [hworker, WorkerPhase.work]
  | ack delivery results hworker => simp [hworker, WorkerPhase.work]
  | dispatch delivery result rest hworker => simp [hworker, WorkerPhase.work]
  | finish delivery hworker => simp [hworker, WorkerPhase.work]

theorem forcedWork_le (s : Pipeline capacity) (rules : Nat) : s.forcedWork rules ≤ s.work rules := by
  have hqueue : min 1 s.evalQueue.items.length ≤ (rules + 6) * s.evalQueue.items.length :=
    (min_le_right _ _).trans (Nat.le_mul_of_pos_left _ (by omega))
  unfold Pipeline.forcedWork Pipeline.work
  cases s.worker <;> simp only [WorkerPhase.work] <;> omega

end Work

/-! ## What holds of every state of the daemon -/

section Invariant

variable {capacity : Nat} {C : Crates}

/-- What the steps of the daemon keep. -/
structure Upright (s : Daemon capacity) : Prop where
  owned : ∀ delivery ∈ s.pipeline.worker.held ++ s.pipeline.evalQueue.items,
    delivery.client < s.clients.length
  sends : s.unrecorded true = s.pipeline.unrecordedSends
  drops : s.unrecorded false = s.pipeline.unrecordedDrops
  ended : s.main.joined = true → ∀ client ∈ s.clients, client.loop = .ended
  dropped : s.main.joined = true → s.pipeline.handlersDropped = true
  forced : s.pipeline.forceShutdown = true → s.main = .forcing ∨ s.main = .exited
  forcing : s.main = .forcing → s.pipeline.forceShutdown = true
  discarded : ∀ delivery, s.pipeline.worker = .ended (some delivery) →
    s.pipeline.forceShutdown = true
  drained : s.pipeline.worker = .ended none → s.pipeline.evalQueue.items = []
  exited : s.main = .exited → s.pipeline.forceShutdown = false →
    s.pipeline.worker.hasEnded = true

theorem unrecorded_eq_zero {s : Daemon capacity} {sent : Bool}
    (h : ∀ client ∈ s.clients, client.loop ≠ .recording sent) : s.unrecorded sent = 0 := by
  apply List.sum_eq_zero
  intro n hn
  obtain ⟨client, hclient, rfl⟩ := List.mem_map.mp hn
  exact if_neg (h client hclient)

theorem upright_init (engine : RuleEngine) (requests : List Requests) :
    Upright (Daemon.init engine requests : Daemon capacity) := by
  have hpolling (sent : Bool) (client : Client)
      (hclient : client ∈ (Daemon.init engine requests : Daemon capacity).clients) :
      client.loop ≠ .recording sent := by
    obtain ⟨channel, -, rfl⟩ := List.mem_map.mp hclient
    simp
  exact ⟨nofun, unrecorded_eq_zero (hpolling true), unrecorded_eq_zero (hpolling false), nofun, nofun,
    nofun, nofun, nofun, nofun, nofun⟩

theorem sum_map_set {α : Type} (f : α → Nat) {l : List α} {k : Nat} {a b : α} (h : l[k]? = some a) :
    ((l.set k b).map f).sum + f a = (l.map f).sum + f b := by
  induction l generalizing k with
  | nil => cases h
  | cons c l ih =>
      cases k with
      | zero =>
          cases h
          simp only [List.set_cons_zero, List.map_cons, List.sum_cons]
          omega
      | succ k =>
          have hrest := ih h
          simp only [List.set_cons_succ, List.map_cons, List.sum_cons]
          omega

/-- What the event loop of a client leaves alone, and the delivery it may add to the queue. -/
structure LoopFrame (pipeline : Pipeline capacity) (k : Nat) (client next : Client)
    (t : Pipeline capacity) : Prop where
  running : client.loop ≠ .ended
  worker : t.worker = pipeline.worker
  forced : t.forceShutdown = pipeline.forceShutdown
  dropped : t.handlersDropped = pipeline.handlersDropped
  queue : t.evalQueue.items = pipeline.evalQueue.items ∨ pipeline.worker.hasEnded = false ∧
    ∃ message, t.evalQueue.items = pipeline.evalQueue.items ++ [⟨message, k⟩]
  sends : next.loop.unrecorded true + pipeline.unrecordedSends =
    client.loop.unrecorded true + t.unrecordedSends
  drops : next.loop.unrecorded false + pipeline.unrecordedDrops =
    client.loop.unrecorded false + t.unrecordedDrops

theorem loopFrame_of_clientStep {pipeline t : Pipeline capacity} {k : Nat} {client next : Client}
    {action : ClientAction} (h : Daemon.clientStep pipeline k client action = some (next, t)) :
    LoopFrame pipeline k client next t := by
  have hcases := clientStep_cases h
  cases hcases with
  | poll request requests hloop hitems =>
      exact ⟨by simp [hloop], rfl, rfl, rfl, Or.inl rfl, rfl, rfl⟩
  | publish message _ hloop sent hsubmit =>
      -- the phase keeps what `try_send` answered
      have hsent : sent = (pipeline.trySubmit ⟨message, k⟩).isSome := by
        simp only [Daemon.clientStep, hloop] at h
        obtain ⟨submitted, -, hnext⟩ := Option.map_eq_some_iff.mp h
        cases hnext
        rfl
      cases handlerStep_cases hsubmit with
      | accept _ queue hopen hworker hitems =>
          have hsome : pipeline.trySubmit ⟨message, k⟩ = some queue := by
            rw [Pipeline.trySubmit, hworker]
            exact Channel.trySend_eq_some.mpr hitems
          rw [hsome] at hsent
          cases hsent
          refine ⟨by simp [hloop], rfl, rfl, rfl, Or.inr ⟨hworker, message, hitems⟩, ?_, ?_⟩
          · simp [LoopPhase.unrecorded, hloop, Nat.add_comm]
          · simp [LoopPhase.unrecorded, hloop]
      | refuse _ hopen hrefused =>
          have hnone : pipeline.trySubmit ⟨message, k⟩ = none := by
            rw [Pipeline.trySubmit]
            split
            · rfl
            · rename_i hworker
              exact Channel.trySend_eq_none.mpr (hrefused.resolve_left hworker)
          rw [hnone] at hsent
          cases hsent
          refine ⟨by simp [hloop], rfl, rfl, rfl, Or.inl rfl, ?_, ?_⟩
          · simp [LoopPhase.unrecorded, hloop]
          · simp [LoopPhase.unrecorded, hloop, Nat.add_comm]
  | record sent _ hloop hrecord =>
      cases sent with
      | true =>
          cases handlerStep_cases hrecord with
          | recordEnqueued sends hsends =>
              refine ⟨by simp [hloop], rfl, rfl, rfl, Or.inl rfl, ?_, ?_⟩
              · simp [LoopPhase.unrecorded, hloop, hsends, Nat.add_comm]
              · simp [LoopPhase.unrecorded, hloop]
      | false =>
          cases handlerStep_cases hrecord with
          | recordDrop drops hdrops =>
              refine ⟨by simp [hloop], rfl, rfl, rfl, Or.inl rfl, ?_, ?_⟩
              · simp [LoopPhase.unrecorded, hloop]
              · simp [LoopPhase.unrecorded, hloop, hdrops, Nat.add_comm]
  | endLoop hloop =>
      refine ⟨by simp [hloop], rfl, rfl, rfl, Or.inl rfl, ?_, ?_⟩
      · simp [LoopPhase.unrecorded, hloop]
      · simp [LoopPhase.unrecorded, hloop]

variable {s t : Daemon capacity}

theorem Upright.clientStep (h : Upright s) {k : Nat} {client next : Client}
    {pipeline : Pipeline capacity} (hclient : s.clients[k]? = some client)
    (hframe : LoopFrame s.pipeline k client next pipeline) :
    Upright { s with clients := s.clients.set k next, pipeline := pipeline } := by
  -- an event loop that still runs has not been joined
  have hrunning : s.main.joined = false := by
    by_contra hjoined
    have hmem := List.mem_of_getElem? hclient
    exact hframe.running (h.ended (by simpa using hjoined) client hmem)
  have hkey : k < s.clients.length := (List.getElem?_eq_some_iff.mp hclient).1
  have hsums (sent : Bool) := sum_map_set (fun client : Client ↦ client.loop.unrecorded sent)
    (b := next) hclient
  have hsends := h.sends
  have hdrops := h.drops
  constructor
  · show ∀ delivery ∈ pipeline.worker.held ++ pipeline.evalQueue.items,
      delivery.client < (s.clients.set k next).length
    rw [List.length_set, hframe.worker]
    rcases hframe.queue with hsame | ⟨-, message, hitems⟩
    · rw [hsame]
      exact h.owned
    · rw [hitems, ← List.append_assoc]
      intro delivery hdelivery
      rcases List.mem_append.mp hdelivery with hold | hnew
      · exact h.owned delivery hold
      · rw [List.mem_singleton.mp hnew]
        exact hkey
  · have hframed := hframe.sends
    have hsum := hsums true
    unfold Daemon.unrecorded at hsends ⊢
    simp only at hsum ⊢
    omega
  · have hframed := hframe.drops
    have hsum := hsums false
    unfold Daemon.unrecorded at hdrops ⊢
    simp only at hsum ⊢
    omega
  · intro hjoined
    exact absurd (hrunning.symm.trans hjoined) Bool.false_ne_true
  · intro hjoined
    exact absurd (hrunning.symm.trans hjoined) Bool.false_ne_true
  · rw [hframe.forced]
    exact h.forced
  · rw [hframe.forced]
    exact h.forcing
  · rw [hframe.worker, hframe.forced]
    exact h.discarded
  · rw [hframe.worker]
    intro hended
    rcases hframe.queue with hsame | ⟨hworker, -⟩
    · rw [hsame]
      exact h.drained hended
    · rw [hended] at hworker
      cases hworker
  · rw [hframe.worker, hframe.forced]
    exact h.exited

/-- What a step of the worker leaves alone, and how it ends the worker. -/
structure WorkerFrame (s t : Pipeline capacity) : Prop where
  running : s.worker.hasEnded = false
  owned : ∀ delivery ∈ t.worker.held ++ t.evalQueue.items,
    delivery ∈ s.worker.held ++ s.evalQueue.items
  sends : t.unrecordedSends = s.unrecordedSends
  drops : t.unrecordedDrops = s.unrecordedDrops
  dropped : t.handlersDropped = s.handlersDropped
  forced : t.forceShutdown = s.forceShutdown
  accepted : t.accepted = s.accepted
  discarded : ∀ delivery, t.worker = .ended (some delivery) → s.forceShutdown = true
  drained : t.worker = .ended none → t.evalQueue.items = []

theorem workerFrame_of_workerStep {s t : Pipeline capacity} {action : WorkerAction}
    (h : s.workerStep C action = some t) : WorkerFrame s t := by
  cases workerStep_cases h with
  | recv delivery queue hworker hitems =>
      refine ⟨by rw [hworker]; rfl, ?_, rfl, rfl, rfl, rfl, rfl, nofun, nofun⟩
      intro delivery' hmem
      rw [hworker, hitems]
      exact hmem
  | hangUp hworker hempty hdropped =>
      refine ⟨by rw [hworker]; rfl, ?_, rfl, rfl, rfl, rfl, rfl, nofun, fun _ ↦ hempty⟩
      intro delivery' hmem
      rwa [hworker]
  | discard delivery hworker hforce =>
      refine ⟨by rw [hworker]; rfl, ?_, rfl, rfl, rfl, rfl, rfl, fun _ _ ↦ hforce, nofun⟩
      intro delivery' hmem
      rwa [hworker]
  | proceed delivery hworker hforce =>
      refine ⟨by rw [hworker]; rfl, ?_, rfl, rfl, rfl, rfl, rfl, nofun, nofun⟩
      intro delivery' hmem
      rwa [hworker]
  | recordDequeued delivery hworker =>
      refine ⟨by rw [hworker]; rfl, ?_, rfl, rfl, rfl, rfl, rfl, nofun, nofun⟩
      intro delivery' hmem
      rwa [hworker]
  | evaluate order delivery hworker engine results hengine hresults =>
      refine ⟨by rw [hworker]; rfl, ?_, rfl, rfl, rfl, rfl, rfl, nofun, nofun⟩
      intro delivery' hmem
      rwa [hworker]
  | ack delivery results hworker =>
      refine ⟨by rw [hworker]; rfl, ?_, rfl, rfl, rfl, rfl, rfl, nofun, nofun⟩
      intro delivery' hmem
      rwa [hworker]
  | dispatch delivery result rest hworker =>
      refine ⟨by rw [hworker]; rfl, ?_, rfl, rfl, rfl, rfl, rfl, nofun, nofun⟩
      intro delivery' hmem
      rwa [hworker]
  | finish delivery hworker =>
      refine ⟨by rw [hworker]; rfl, ?_, rfl, rfl, rfl, rfl, rfl, nofun, nofun⟩
      intro delivery' hmem
      rw [hworker]
      exact List.mem_append_right _ hmem

-- the acks of the worker reach a client, whose event loop they leave where it is
theorem Upright.workerStep (h : Upright s) {pipeline : Pipeline capacity} {clients : List Client}
    {acks : List (IncomingDelivery × Bool)} (hframe : WorkerFrame s.pipeline pipeline)
    (hloops : clients.map Client.loop = s.clients.map Client.loop) (hmain : s.main ≠ .exited) :
    Upright { s with pipeline := pipeline, clients := clients, acks := acks } := by
  have hlength : clients.length = s.clients.length := by
    have heq := congrArg List.length hloops
    rwa [List.length_map, List.length_map] at heq
  have hsum (sent : Bool) : (clients.map fun client ↦ client.loop.unrecorded sent).sum =
      s.unrecorded sent := by
    have heq : ((clients.map Client.loop).map (LoopPhase.unrecorded sent)).sum =
        ((s.clients.map Client.loop).map (LoopPhase.unrecorded sent)).sum := by rw [hloops]
    rwa [List.map_map, List.map_map] at heq
  constructor
  · show ∀ delivery ∈ pipeline.worker.held ++ pipeline.evalQueue.items,
      delivery.client < clients.length
    rw [hlength]
    exact fun delivery hmem ↦ h.owned delivery (hframe.owned delivery hmem)
  · exact (hsum true).trans (h.sends.trans hframe.sends.symm)
  · exact (hsum false).trans (h.drops.trans hframe.drops.symm)
  · intro hjoined client hclient
    have hmem : client.loop ∈ s.clients.map Client.loop := hloops ▸ List.mem_map_of_mem hclient
    obtain ⟨client', hclient', hloop⟩ := List.mem_map.mp hmem
    rw [← hloop]
    exact h.ended hjoined client' hclient'
  · rw [hframe.dropped]
    exact h.dropped
  · rw [hframe.forced]
    exact h.forced
  · rw [hframe.forced]
    exact h.forcing
  · rw [hframe.forced]
    exact hframe.discarded
  · exact hframe.drained
  · exact fun hexited ↦ absurd hexited hmain

theorem joined_of_workerJoined (h : s.mainStep .workerJoined = some t) : s.main.joined = true := by
  simp only [Daemon.mainStep] at h
  split at h
  · rename_i hmain
    rw [hmain]
    rfl
  · rename_i hmain
    rw [hmain]
    rfl
  · cases h

theorem Upright.unforced (h : Upright s) (hmain : s.main.joined = false) :
    s.pipeline.forceShutdown = false := by
  rw [Bool.eq_false_iff]
  intro hforced
  rcases h.forced hforced with hforcing | hexited
  · rw [hforcing] at hmain
    cases hmain
  · rw [hexited] at hmain
    cases hmain

theorem Upright.mainStep (h : Upright s) {action : RunAction} (hmainStep : s.mainStep action = some t) :
    Upright t := by
  cases mainStep_cases hmainStep with
  | signal hmain =>
      have hunforced := h.unforced (by rw [hmain]; rfl)
      exact ⟨h.owned, h.sends, h.drops, nofun, nofun,
        fun hforced ↦ absurd (hunforced.symm.trans hforced) Bool.false_ne_true, nofun, h.discarded,
        h.drained, nofun⟩
  | adapterStopped pipeline hmain hended hdrop =>
      have hunforced := h.unforced (by rw [hmain]; rfl)
      cases handlerStep_cases hdrop with
      | dropHandlers hsends hdrops =>
          exact ⟨h.owned, h.sends, h.drops, fun _ ↦ hended, fun _ ↦ rfl,
            fun hforced ↦ absurd (hunforced.symm.trans hforced) Bool.false_ne_true, nofun,
            h.discarded, h.drained, nofun⟩
  | drainTimeout hmain =>
      have hjoined : s.main.joined = true := by rw [hmain]; rfl
      exact ⟨h.owned, h.sends, h.drops, fun _ ↦ h.ended hjoined, fun _ ↦ h.dropped hjoined,
        fun _ ↦ Or.inl rfl, fun _ ↦ rfl, fun _ _ ↦ rfl, h.drained, nofun⟩
  | forceTimeout hmain =>
      have hjoined : s.main.joined = true := by rw [hmain]; rfl
      exact ⟨h.owned, h.sends, h.drops, fun _ ↦ h.ended hjoined, fun _ ↦ h.dropped hjoined,
        fun _ ↦ Or.inr rfl, nofun, h.discarded, h.drained,
        fun _ hfree ↦ absurd (hfree.symm.trans (h.forcing hmain)) Bool.false_ne_true⟩
  | workerJoined hended =>
      have hjoined := joined_of_workerJoined hmainStep
      exact ⟨h.owned, h.sends, h.drops, fun _ ↦ h.ended hjoined, fun _ ↦ h.dropped hjoined,
        fun _ ↦ Or.inr rfl, nofun, h.discarded, h.drained, fun _ _ ↦ hended⟩

theorem clientStep_of_step {k : Nat} {action : ClientAction}
    (h : s.step C (.client k action) = some t) :
    ∃ client next pipeline, s.clients[k]? = some client ∧
      Daemon.clientStep s.pipeline k client action = some (next, pipeline) ∧
      t = { s with clients := s.clients.set k next, pipeline := pipeline } := by
  unfold Daemon.step at h
  split at h
  · cases h
  · obtain ⟨client, hclient, hmap⟩ := Option.bind_eq_some_iff.mp h
    obtain ⟨⟨next, pipeline⟩, hstep, rfl⟩ := Option.map_eq_some_iff.mp hmap
    exact ⟨client, next, pipeline, hclient, hstep, rfl⟩

theorem mainStep_of_step {action : RunAction} (h : s.step C (.main action) = some t) :
    s.mainStep action = some t := by
  unfold Daemon.step at h
  split at h
  · cases h
  · exact h

theorem loops_set_tryAck {k : Nat} {client : Client} (hclient : s.clients[k]? = some client)
    (message : Message) :
    (s.clients.set k (client.tryAck message).1).map Client.loop = s.clients.map Client.loop := by
  obtain ⟨hlt, hget⟩ := List.getElem?_eq_some_iff.mp hclient
  have hlt' : k < (s.clients.map Client.loop).length := by rwa [List.length_map]
  have hloop : (s.clients.map Client.loop)[k] = client.loop := by rw [List.getElem_map, hget]
  rw [List.map_set, tryAck_loop, ← hloop, List.set_getElem_self]

theorem Upright.step (h : Upright s) {action : DaemonAction} (hstep : s.step C action = some t) :
    Upright t := by
  obtain ⟨hmain, hcases⟩ := daemonStep_cases hstep
  cases hcases with
  | client k _ _ _ action _ _ =>
      obtain ⟨client, next, pipeline, hclient, hclientStep, heq⟩ := clientStep_of_step hstep
      rw [heq]
      exact h.clientStep hclient (loopFrame_of_clientStep hclientStep)
  | worker action pipeline hack hworker =>
      exact h.workerStep (workerFrame_of_workerStep hworker) rfl hmain
  | ack delivery results client pipeline hworker hclient hacked =>
      exact h.workerStep (workerFrame_of_workerStep hacked) (loops_set_tryAck hclient _) hmain
  | main action t _ => exact h.mainStep (mainStep_of_step hstep)

theorem upright {engine : RuleEngine} {requests : List Requests}
    (h : (daemonSystem C engine capacity requests).Reachable s) : Upright s := by
  apply h.invariant (upright_init engine requests)
  exact fun _ _ _ hs hstep ↦ hs.step hstep

end Invariant

/-! ## The way to the exit -/

section Exit

variable {C : Crates} {decoder : PayloadDecoder} {cacheCapacity capacity : Nat} {engine : RuleEngine}
  {requests : List Requests} {s t : Daemon capacity}

theorem resultsBounded (hengine : (engineSystem C decoder cacheCapacity).Reachable engine)
    (h : (daemonSystem C engine capacity requests).Reachable s) :
    ResultsBounded C engine.rules.length s.pipeline := by
  intro delivery order _
  have hevaluated := evaluatedBy hengine (reachable_pipeline h)
  rw [← hevaluated.rules]
  exact length_results_le hevaluated.reachable order delivery.message

-- what the worker logs of a delivery is bounded as well
theorem work_le (hengine : (engineSystem C decoder cacheCapacity).Reachable engine)
    (h : (daemonSystem C engine capacity requests).Reachable s) :
    s.pipeline.worker.work engine.rules.length ≤ engine.rules.length + 6 := by
  have hpipeline := reachable_pipeline h
  have hlogged (delivery : IncomingDelivery) (results : List RuleEvaluation)
      (hmem : .evaluated delivery results ∈ s.pipeline.log) :
      results.length ≤ engine.rules.length := by
    obtain ⟨current, order, hreach, hrules, rfl⟩ :=
      (evaluatedBy hengine hpipeline).logged delivery results hmem
    rw [← hrules]
    exact length_results_le hreach order delivery.message
  obtain ⟨completed, part, haccounted⟩ := exists_accounted hpipeline
  have hlog := haccounted.log
  have hpart := haccounted.part
  cases hworker : s.pipeline.worker with
  | evaluated delivery results =>
      rw [hworker] at hpart
      cases hpart with
      | idle hidle => exact absurd rfl (hidle delivery results).1
      | evaluated _ _ =>
          have hle := hlogged delivery results (by rw [hlog]; simp)
          simp only [WorkerPhase.work]
          omega
  | dispatching delivery rest =>
      rw [hworker] at hpart
      cases hpart with
      | idle hidle => exact absurd rfl (hidle delivery rest).2
      | dispatching _ done _ =>
          have hle := hlogged delivery (done ++ rest) (by rw [hlog]; simp)
          rw [List.length_append] at hle
          simp only [WorkerPhase.work]
          omega
  | _ => simp only [WorkerPhase.work]; omega

/-- Once the event loops have been joined every step of the daemon is work done, and none accepts a
delivery. -/
theorem work_of_step (hengine : (engineSystem C decoder cacheCapacity).Reachable engine)
    (h : (daemonSystem C engine capacity requests).Reachable s) (hjoined : s.main.joined = true)
    {action : DaemonAction} (hstep : s.step C action = some t) :
    t.work engine.rules.length < s.work engine.rules.length ∧ t.main.joined = true ∧
      t.pipeline.accepted = s.pipeline.accepted := by
  have hupright := upright h
  have hbound := resultsBounded hengine h
  have hworked {action : WorkerAction} {pipeline : Pipeline capacity} {clients : List Client}
      {acks : List (IncomingDelivery × Bool)} (hmain : s.main ≠ .exited)
      (hworker : s.pipeline.workerStep C action = some pipeline) :
      ({ s with pipeline := pipeline, clients := clients, acks := acks } : Daemon capacity).work
        engine.rules.length < s.work engine.rules.length := by
    unfold Daemon.work
    cases hphase : s.main with
    | draining =>
        have hless := work_of_workerStep hbound hworker
        simp only
        omega
    | forcing =>
        have hless := forcedWork_of_workerStep hbound (hupright.forcing hphase) hworker
        simp only
        omega
    | exited => exact absurd hphase hmain
    | _ =>
        rw [hphase] at hjoined
        cases hjoined
  obtain ⟨hmain, hcases⟩ := daemonStep_cases hstep
  cases hcases with
  | client k _ _ _ action _ _ =>
      obtain ⟨client, next, pipeline, hclient, hclientStep, -⟩ := clientStep_of_step hstep
      have hended := hupright.ended hjoined client (List.mem_of_getElem? hclient)
      exact absurd hended (loopFrame_of_clientStep hclientStep).running
  | worker action pipeline hack hworker =>
      exact ⟨hworked hmain hworker, hjoined, (workerFrame_of_workerStep hworker).accepted⟩
  | ack delivery results client pipeline hworker hclient hacked =>
      exact ⟨hworked hmain hacked, hjoined, (workerFrame_of_workerStep hacked).accepted⟩
  | main action t hmainStep =>
      cases hmainStep with
      | signal hrunning =>
          rw [hrunning] at hjoined
          cases hjoined
      | adapterStopped pipeline hstopping hended hdrop =>
          rw [hstopping] at hjoined
          cases hjoined
      | drainTimeout hdraining =>
          have hle := forcedWork_le s.pipeline engine.rules.length
          refine ⟨?_, rfl, rfl⟩
          unfold Daemon.work
          rw [hdraining]
          show s.pipeline.forcedWork engine.rules.length + 1 < _
          simp only
          omega
      | forceTimeout hforcing =>
          refine ⟨?_, rfl, rfl⟩
          unfold Daemon.work
          rw [hforcing]
          simp only
          omega
      | workerJoined hended =>
          refine ⟨?_, rfl, rfl⟩
          unfold Daemon.work
          cases hphase : s.main with
          | exited => exact absurd hphase hmain
          | draining =>
              simp only
              omega
          | forcing =>
              simp only
              omega
          | _ =>
              rw [hphase] at hjoined
              cases hjoined

/-! ## No state but the exit is a dead end -/

theorem exists_workerStep (C : Crates) {s : Pipeline capacity} (hended : s.worker.hasEnded = false)
    (hdropped : s.handlersDropped = true) : ∃ action, (s.workerStep C action).isSome = true := by
  cases hworker : s.worker with
  | receiving =>
      by_cases hempty : s.evalQueue.items = []
      · exact ⟨.hangUp, by simp [Pipeline.workerStep, hworker, hempty, hdropped]⟩
      · obtain ⟨delivery, rest, hitems⟩ := List.exists_cons_of_ne_nil hempty
        have hrest : rest.length ≤ capacity := by
          have hle := s.evalQueue.hlength
          rw [hitems, List.length_cons] at hle
          omega
        have hrecv : s.evalQueue.tryRecv = some (delivery, ⟨rest, hrest⟩) :=
          Channel.tryRecv_eq_some.mpr hitems
        exact ⟨.recv, by simp [Pipeline.workerStep, hworker, hrecv]⟩
  | received delivery => exact ⟨.check, by simp [Pipeline.workerStep, hworker]⟩
  | admitted delivery => exact ⟨.recordDequeued, by simp [Pipeline.workerStep, hworker]⟩
  | counted delivery => exact ⟨.evaluate .increasing, by simp [Pipeline.workerStep, hworker]⟩
  | evaluated delivery results => exact ⟨.ack, by simp [Pipeline.workerStep, hworker]⟩
  | dispatching delivery rest =>
      cases rest with
      | nil => exact ⟨.finish, by simp [Pipeline.workerStep, hworker]⟩
      | cons result rest => exact ⟨.dispatch, by simp [Pipeline.workerStep, hworker]⟩
  | ended left =>
      rw [hworker] at hended
      cases hended

def DaemonAction.isTimeout : DaemonAction → Bool
  | .main .drainTimeout | .main .forceTimeout => true
  | _ => false

/-- While the worker runs it can go on, since the client of every delivery is there for its ack. -/
theorem Upright.exists_step (h : Upright s) (hmain : s.main ≠ .exited)
    (hended : s.pipeline.worker.hasEnded = false) (hdropped : s.pipeline.handlersDropped = true) :
    ∃ action t, action.isTimeout = false ∧ s.step C action = some t ∧ t.main = s.main ∧
      t.pipeline.forceShutdown = s.pipeline.forceShutdown := by
  obtain ⟨action, hsome⟩ := exists_workerStep C hended hdropped
  obtain ⟨pipeline, hworker⟩ := Option.isSome_iff_exists.mp hsome
  have hforced := (workerFrame_of_workerStep hworker).forced
  by_cases hack : action = .ack
  · subst hack
    obtain ⟨delivery, results, hphase⟩ : ∃ delivery results,
        s.pipeline.worker = .evaluated delivery results := by
      cases workerStep_cases hworker with
      | ack delivery results hphase => exact ⟨delivery, results, hphase⟩
    have howned := h.owned delivery (by rw [hphase]; exact List.mem_cons_self)
    have hclient : s.clients[delivery.client]? = some s.clients[delivery.client] :=
      List.getElem?_eq_getElem howned
    have hstep : s.ackStep C delivery.client delivery.message.qos = some
        { s with
          pipeline := pipeline
          clients := s.clients.set delivery.client
            (s.clients[delivery.client].tryAck delivery.message).1
          acks := s.acks ++ [(delivery, (s.clients[delivery.client].tryAck delivery.message).2)] } := by
      simp only [Daemon.ackStep, hphase, and_self, if_true, hclient, Option.bind_some, hworker,
        Option.map_some]
    have htaken : s.step C (.ack delivery.client delivery.message.qos) =
        s.ackStep C delivery.client delivery.message.qos := if_neg hmain
    exact ⟨.ack delivery.client delivery.message.qos, _, rfl, htaken.trans hstep, rfl, hforced⟩
  · have hstep : s.workerStep C action =
        (s.pipeline.workerStep C action).map fun pipeline ↦ { s with pipeline := pipeline } := by
      cases action <;> first | rfl | exact absurd rfl hack
    have htaken : s.step C (.worker action) = s.workerStep C action := if_neg hmain
    refine ⟨.worker action, { s with pipeline := pipeline }, rfl, ?_, rfl, hforced⟩
    rw [htaken, hstep, hworker]
    rfl

/-- Every accepted delivery was evaluated, acknowledged and its results dispatched, and nothing else was
logged. -/
def AllCompleted (s : Pipeline capacity) : Prop :=
  ∃ completed : List (IncomingDelivery × List RuleEvaluation),
    s.accepted = completed.map Prod.fst ∧ s.log = completed.flatMap block

theorem allCompleted_of_exited (h : (daemonSystem C engine capacity requests).Reachable s)
    (hexited : s.main = .exited) (hunforced : s.pipeline.forceShutdown = false) :
    AllCompleted s.pipeline := by
  have hupright := upright h
  have hended := hupright.exited hexited hunforced
  obtain ⟨completed, part, haccounted⟩ := exists_accounted (reachable_pipeline h)
  have haccepted := haccounted.accepted
  have hlog := haccounted.log
  have hpart := haccounted.part
  cases hworker : s.pipeline.worker with
  | ended left =>
      cases left with
      | some delivery =>
          have hforced := hupright.discarded delivery hworker
          exact absurd (hunforced.symm.trans hforced) Bool.false_ne_true
      | none =>
          rw [hworker] at haccepted hpart
          rw [hupright.drained hworker] at haccepted
          rw [hpart.eq_nil fun _ _ ↦ ⟨nofun, nofun⟩, List.append_nil] at hlog
          exact ⟨completed, by simpa [WorkerPhase.held] using haccepted, hlog⟩
  | _ =>
      rw [hworker] at hended
      cases hended

theorem joined_of_exec (hengine : (engineSystem C decoder cacheCapacity).Reachable engine)
    (h : (daemonSystem C engine capacity requests).Reachable s) (hjoined : s.main.joined = true)
    {run : List DaemonAction} (hrun : (daemonSystem C engine capacity requests).exec s run = some t) :
    run.length + t.work engine.rules.length ≤ s.work engine.rules.length ∧
      t.main.joined = true ∧ t.pipeline.accepted = s.pipeline.accepted := by
  have hstep (s' : Daemon capacity) (action : DaemonAction) (t' : Daemon capacity)
      (hs : (daemonSystem C engine capacity requests).Reachable s' ∧ s'.main.joined = true ∧
        s'.pipeline.accepted = s.pipeline.accepted)
      (hstep : s'.step C action = some t') :
      (daemonSystem C engine capacity requests).Reachable t' ∧ t'.main.joined = true ∧
        t'.pipeline.accepted = s.pipeline.accepted := by
    obtain ⟨-, hjoined', haccepted⟩ := work_of_step hengine hs.1 hs.2.1 hstep
    exact ⟨hs.1.step hstep, hjoined', haccepted.trans hs.2.2⟩
  have hend := System.exec_invariant hstep ⟨h, hjoined, rfl⟩ hrun
  refine ⟨?_, hend.2⟩
  exact System.length_add_le_of hstep
    (fun s' action t' hs hstep ↦ (work_of_step hengine hs.1 hs.2.1 hstep).1) ⟨h, hjoined, rfl⟩ hrun

/-- While the exit is not reached some step other than a timeout is left, once the event loops have been
joined. -/
theorem exists_step_of_joined (hupright : Upright s) (hjoined : s.main.joined = true)
    (hmain : s.main ≠ .exited) : ∃ action t, action.isTimeout = false ∧ s.step C action = some t := by
  by_cases hended : s.pipeline.worker.hasEnded = true
  · have hexit : s.mainStep .workerJoined = some { s with main := .exited } := by
      unfold Daemon.mainStep
      cases hphase : s.main with
      | draining => exact if_pos hended
      | forcing => exact if_pos hended
      | exited => exact absurd hphase hmain
      | _ =>
          rw [hphase] at hjoined
          cases hjoined
    have htaken : s.step C (.main .workerJoined) = s.mainStep .workerJoined := if_neg hmain
    exact ⟨.main .workerJoined, _, rfl, htaken.trans hexit⟩
  · obtain ⟨action, t, htimeout, hstep, -⟩ :=
      hupright.exists_step hmain (by simpa using hended) (hupright.dropped hjoined)
    exact ⟨action, t, htimeout, hstep⟩

/-- After the event loops have been joined a run is short: it is bounded by the queue and the rules, and
by the rules alone once the stop is forced.  It accepts nothing, it cannot end before the exit for want
of a step, also when no timeout fires, and an exit that was not forced has everything completed. -/
theorem joined_run {C : Crates} {decoder : PayloadDecoder} {cacheCapacity capacity : Nat}
    {engine : RuleEngine} (hengine : (engineSystem C decoder cacheCapacity).Reachable engine)
    {requests : List Requests} {s t : Daemon capacity}
    (h : (daemonSystem C engine capacity requests).Reachable s) (hjoined : s.main.joined = true)
    {run : List DaemonAction}
    (hrun : (daemonSystem C engine capacity requests).exec s run = some t) :
    run.length ≤ (engine.rules.length + 6) * (s.pipeline.evalQueue.items.length + 1) + 2 ∧
      (s.main = .forcing → run.length ≤ engine.rules.length + 8) ∧
      t.pipeline.accepted = s.pipeline.accepted ∧
      (t.main = .exited ∨ ∃ action u, action.isTimeout = false ∧ t.step C action = some u) ∧
      (t.main = .exited → t.pipeline.forceShutdown = false → AllCompleted t.pipeline) := by
  obtain ⟨hlength, hjoinedT, haccepted⟩ := joined_of_exec hengine h hjoined hrun
  have hreach := h.exec hrun
  have hworker := work_le hengine h
  have hforced := forcedWork_le s.pipeline engine.rules.length
  have hqueue : s.pipeline.work engine.rules.length ≤
      (engine.rules.length + 6) * (s.pipeline.evalQueue.items.length + 1) := by
    rw [Nat.mul_succ]
    unfold Pipeline.work
    omega
  refine ⟨?_, fun hforcing ↦ ?_, haccepted, ?_, allCompleted_of_exited hreach⟩
  · have hwork : s.work engine.rules.length ≤ s.pipeline.work engine.rules.length + 2 := by
      unfold Daemon.work
      cases hphase : s.main with
      | draining => exact le_refl _
      | forcing =>
          simp only
          omega
      | exited => exact Nat.zero_le _
      | _ =>
          rw [hphase] at hjoined
          cases hjoined
    omega
  · have hwork : s.work engine.rules.length ≤ s.pipeline.worker.work engine.rules.length + 2 := by
      unfold Daemon.work Pipeline.forcedWork
      rw [hforcing]
      cases s.pipeline.worker <;> simp only [WorkerPhase.work] <;> omega
    omega
  · by_cases hmain : t.main = .exited
    · exact Or.inl hmain
    · exact Or.inr (exists_step_of_joined (upright hreach) hjoinedT hmain)

-- one client; its delivery is still in the queue when the event loop has been joined
def demoJoin : List DaemonAction :=
  [.client 0 (.publish (Message.new "t" [])), .client 0 .record, .main .signal, .client 0 .endLoop,
    .main .adapterStopped]

def demoDrain : List DaemonAction :=
  [.worker .recv, .worker .check, .worker .recordDequeued, .worker (.evaluate .increasing), .ack 0 0,
    .worker .dispatch, .worker .finish, .worker .hangUp, .main .workerJoined]

def demoJoined : Daemon 1 :=
  ((daemonSystem demoCrates (demoEngine [selectAll "t"]) 1 [.empty]).exec
    (.init (demoEngine [selectAll "t"]) [.empty]) demoJoin).getD
      (.init (demoEngine [selectAll "t"]) [.empty])

def demoLeft : Daemon 1 :=
  ((daemonSystem demoCrates (demoEngine [selectAll "t"]) 1 [.empty]).exec demoJoined demoDrain).getD
    demoJoined

theorem joined_run_demo :
    demoDrain.length ≤ ((demoEngine [selectAll "t"]).rules.length + 6) *
        (demoJoined.pipeline.evalQueue.items.length + 1) + 2 ∧ AllCompleted demoLeft.pipeline := by
  have hreach : (daemonSystem demoCrates (demoEngine [selectAll "t"]) 1 [.empty]).Reachable demoJoined :=
    ⟨demoJoin, rfl⟩
  have hexec : (daemonSystem demoCrates (demoEngine [selectAll "t"]) 1 [.empty]).exec demoJoined
      demoDrain = some demoLeft := rfl
  have hrun := joined_run (reachable_demoEngine [selectAll "t"]) hreach rfl hexec
  exact ⟨hrun.1, hrun.2.2.2.2 rfl rfl⟩

/-! ## A clean exit is always within reach -/

theorem unrecorded_pos {sent : Bool} {client : Client} (hmem : client ∈ s.clients)
    (hloop : client.loop = .recording sent) : 0 < s.unrecorded sent := by
  have hone : client.loop.unrecorded sent = 1 := if_pos hloop
  have hle := List.le_sum_of_mem (List.mem_map_of_mem (f := fun c : Client ↦ c.loop.unrecorded sent) hmem)
  unfold Daemon.unrecorded
  omega

/-- The state between a start and a clean exit. -/
structure Leaving (C : Crates) (engine : RuleEngine) (requests : List Requests)
    (accepted : List IncomingDelivery) (s : Daemon capacity) : Prop where
  reachable : (daemonSystem C engine capacity requests).Reachable s
  unforced : s.pipeline.forceShutdown = false
  accepted : s.pipeline.accepted = accepted

variable {accepted : List IncomingDelivery}

-- an event loop that is not in a call ends, and one that is in a call returns from it
theorem Upright.exists_clientStep (h : Upright s) {k : Nat} {client : Client}
    (hclient : s.clients[k]? = some client) (hloop : client.loop ≠ .ended) (rules : Nat) :
    ∃ action next pipeline,
      Daemon.clientStep s.pipeline k client action = some (next, pipeline) ∧
        pipeline.accepted = s.pipeline.accepted ∧ pipeline.work rules = s.pipeline.work rules ∧
          next.loop.work < client.loop.work := by
  have hmem : client ∈ s.clients := List.mem_of_getElem? hclient
  cases hphase : client.loop with
  | polling =>
      have hstep : Daemon.clientStep s.pipeline k client .endLoop =
          some ({ client with loop := .ended }, s.pipeline) := by
        simp only [Daemon.clientStep, hphase]
      exact ⟨.endLoop, _, _, hstep, rfl, rfl, Nat.zero_lt_one⟩
  | recording sent =>
      have hpos := unrecorded_pos hmem hphase
      cases sent with
      | true =>
          rw [h.sends] at hpos
          obtain ⟨sends, hsends⟩ := Nat.exists_eq_succ_of_ne_zero hpos.ne'
          have hstep : Daemon.clientStep s.pipeline k client .record =
              some ({ client with loop := .polling },
                { s.pipeline with
                  unrecordedSends := sends, evalQueueDepth := s.pipeline.evalQueueDepth + 1 }) := by
            simp [Daemon.clientStep, hphase, Pipeline.handlerStep, hsends]
          exact ⟨.record, _, _, hstep, rfl, rfl, Nat.one_lt_two⟩
      | false =>
          rw [h.drops] at hpos
          obtain ⟨drops, hdrops⟩ := Nat.exists_eq_succ_of_ne_zero hpos.ne'
          have hstep : Daemon.clientStep s.pipeline k client .record =
              some ({ client with loop := .polling },
                { s.pipeline with
                  unrecordedDrops := drops, evalQueueDrops := s.pipeline.evalQueueDrops + 1 }) := by
            simp [Daemon.clientStep, hphase, Pipeline.handlerStep, hdrops]
          exact ⟨.record, _, _, hstep, rfl, rfl, Nat.one_lt_two⟩
  | ended => exact absurd hphase hloop

-- with the last event loop the last call of the handler has returned
theorem Upright.dropHandlers (h : Upright s) (hended : ∀ client ∈ s.clients, client.loop = .ended) :
    s.pipeline.handlerStep .dropHandlers = some { s.pipeline with handlersDropped := true } := by
  have hidle (sent : Bool) : s.unrecorded sent = 0 := by
    apply unrecorded_eq_zero
    intro client hclient
    rw [hended client hclient]
    intro heq
    cases heq
  have hsends := h.sends.symm.trans (hidle true)
  have hdrops := h.drops.symm.trans (hidle false)
  exact if_pos ⟨hsends, hdrops⟩

theorem step_client {k : Nat} {client next : Client} {action : ClientAction}
    {pipeline : Pipeline capacity} (hmain : s.main ≠ .exited) (hclient : s.clients[k]? = some client)
    (hstep : Daemon.clientStep s.pipeline k client action = some (next, pipeline)) :
    s.step C (.client k action) =
      some { s with clients := s.clients.set k next, pipeline := pipeline } := by
  unfold Daemon.step
  rw [if_neg hmain]
  simp only [hclient, Option.bind_some, hstep, Option.map_some]

theorem Leaving.loopStep (h : Leaving C engine requests accepted s) (hmain : s.main = .stopping)
    {client : Client} (hmem : client ∈ s.clients) (hloop : client.loop ≠ .ended) :
    ∃ action t, s.step C action = some t ∧ Leaving C engine requests accepted t ∧
      t.work engine.rules.length < s.work engine.rules.length := by
  obtain ⟨k, hclient⟩ := List.mem_iff_getElem?.mp hmem
  obtain ⟨action, next, pipeline, hstep, haccepted, hwork, hnext⟩ :=
    (upright h.reachable).exists_clientStep hclient hloop engine.rules.length
  have hnot : s.main ≠ .exited := by
    rw [hmain]
    exact nofun
  have htaken := step_client (C := C) hnot hclient hstep
  have hforced := (loopFrame_of_clientStep hstep).forced
  refine ⟨.client k action, _, htaken,
    ⟨h.reachable.step (a := .client k action) htaken, ?_, ?_⟩, ?_⟩
  · exact hforced.trans h.unforced
  · exact haccepted.trans h.accepted
  · have hloops := sum_map_set (fun client : Client ↦ client.loop.work) (b := next) hclient
    unfold Daemon.work Daemon.loopWork
    simp only [hmain] at hloops ⊢
    omega

theorem Leaving.mainStep (h : Leaving C engine requests accepted s) {action : RunAction}
    (hstep : s.mainStep action = some t) (hmain : s.main ≠ .exited)
    (hunforced : t.pipeline.forceShutdown = false)
    (haccepted : t.pipeline.accepted = s.pipeline.accepted)
    (hwork : t.work engine.rules.length < s.work engine.rules.length) :
    ∃ action t, s.step C action = some t ∧ Leaving C engine requests accepted t ∧
      t.work engine.rules.length < s.work engine.rules.length := by
  have htaken : s.step C (.main action) = some t := (if_neg hmain).trans hstep
  exact ⟨.main action, t, htaken,
    ⟨h.reachable.step (a := .main action) htaken, hunforced, haccepted.trans h.accepted⟩, hwork⟩

theorem Leaving.exists_step (hengine : (engineSystem C decoder cacheCapacity).Reachable engine)
    (h : Leaving C engine requests accepted s) (hmain : s.main ≠ .exited) :
    ∃ action t, s.step C action = some t ∧ Leaving C engine requests accepted t ∧
      t.work engine.rules.length < s.work engine.rules.length := by
  have hupright := upright h.reachable
  cases hphase : s.main with
  | running =>
      have hstep : s.mainStep .signal = some { s with main := .stopping } := by
        simp only [Daemon.mainStep, hphase]
      apply h.mainStep hstep hmain h.unforced rfl
      unfold Daemon.work
      rw [hphase]
      show s.loopWork + s.pipeline.work engine.rules.length + 3 < _
      simp only
      omega
  | stopping =>
      by_cases hended : ∀ client ∈ s.clients, client.loop = .ended
      · have hstep : s.mainStep .adapterStopped = some
            { s with pipeline := { s.pipeline with handlersDropped := true }, main := .draining } := by
          have hall : (s.clients.all fun client ↦ client.loop = .ended) = true := by simpa using hended
          simp [Daemon.mainStep, hphase, hall, hupright.dropHandlers hended]
        apply h.mainStep hstep hmain h.unforced rfl
        unfold Daemon.work
        rw [hphase]
        show s.pipeline.work engine.rules.length + 2 < _
        simp only
        omega
      · obtain ⟨client, hnot⟩ := not_forall.mp hended
        obtain ⟨hmem, hloop⟩ := Classical.not_imp.mp hnot
        exact h.loopStep hphase hmem hloop
  | draining =>
      have hjoined : s.main.joined = true := by
        rw [hphase]
        rfl
      by_cases hended : s.pipeline.worker.hasEnded = true
      · have hstep : s.mainStep .workerJoined = some { s with main := .exited } := by
          simp only [Daemon.mainStep, hphase]
          exact if_pos hended
        apply h.mainStep hstep hmain h.unforced rfl
        unfold Daemon.work
        rw [hphase]
        exact Nat.succ_pos _
      · obtain ⟨action, t, -, hstep, -, hforced⟩ :=
          hupright.exists_step (C := C) hmain (by simpa using hended) (hupright.dropped hjoined)
        obtain ⟨hwork, -, haccepted⟩ := work_of_step hengine h.reachable hjoined hstep
        exact ⟨action, t, hstep, ⟨h.reachable.step hstep, hforced.trans h.unforced,
          haccepted.trans h.accepted⟩, hwork⟩
  | forcing => exact absurd (h.unforced.symm.trans (hupright.forcing hphase)) Bool.false_ne_true
  | exited => exact absurd hphase hmain

theorem Leaving.exists_exit (hengine : (engineSystem C decoder cacheCapacity).Reachable engine)
    (h : Leaving C engine requests accepted s) :
    ∃ run t, (daemonSystem C engine capacity requests).exec s run = some t ∧ t.main = .exited ∧
      Leaving C engine requests accepted t := by
  have hstep (s : Daemon capacity) (hs : Leaving C engine requests accepted s)
      (hgoal : ¬ s.main = .exited) :
      ∃ action t, (daemonSystem C engine capacity requests).step s action = some t ∧
        Leaving C engine requests accepted t ∧
        t.work engine.rules.length < s.work engine.rules.length :=
    hs.exists_step hengine hgoal
  obtain ⟨run, t, hrun, ht, hexited⟩ :=
    System.exists_exec (fun t ↦ t.main = .exited) (Daemon.work engine.rules.length) hstep h
  exact ⟨run, t, hrun, hexited, ht⟩

/-- Until the stop is forced the daemon can always leave cleanly: from every state it reaches some run
takes it to the exit, without a new delivery and with every accepted one completed. -/
theorem exists_clean_exit {C : Crates} {decoder : PayloadDecoder} {cacheCapacity capacity : Nat}
    {engine : RuleEngine} (hengine : (engineSystem C decoder cacheCapacity).Reachable engine)
    {requests : List Requests} {s : Daemon capacity}
    (h : (daemonSystem C engine capacity requests).Reachable s)
    (hunforced : s.pipeline.forceShutdown = false) :
    ∃ run t, (daemonSystem C engine capacity requests).exec s run = some t ∧ t.main = .exited ∧
      t.pipeline.forceShutdown = false ∧ t.pipeline.accepted = s.pipeline.accepted ∧
      AllCompleted t.pipeline := by
  obtain ⟨accepted, haccepted⟩ : ∃ accepted, s.pipeline.accepted = accepted := ⟨_, rfl⟩
  have hleaving : Leaving C engine requests accepted s := ⟨h, hunforced, haccepted⟩
  obtain ⟨run, t, hrun, hexited, ht⟩ := hleaving.exists_exit hengine
  exact ⟨run, t, hrun, hexited, ht.unforced, ht.accepted.trans haccepted.symm,
    allCompleted_of_exited ht.reachable hexited ht.unforced⟩

-- the call of the event loop has not returned yet
theorem exists_clean_exit_demo :
    ∃ s : Daemon 1, (daemonSystem demoCrates (demoEngine [selectAll "t"]) 1 [.empty]).exec
        (.init (demoEngine [selectAll "t"]) [.empty]) [.client 0 (.publish (Message.new "t" []))] =
        some s ∧
      ∃ run t, (daemonSystem demoCrates (demoEngine [selectAll "t"]) 1 [.empty]).exec s run = some t ∧
        t.main = .exited ∧ t.pipeline.forceShutdown = false ∧
        t.pipeline.accepted = s.pipeline.accepted ∧ AllCompleted t.pipeline :=
  ⟨_, rfl, exists_clean_exit (reachable_demoEngine [selectAll "t"])
    ⟨[.client 0 (.publish (Message.new "t" []))], rfl⟩ rfl⟩

end Exit

end Tenon.Oss
