import Tenon.Oss.EvalPipeline

/-!
# DeliveryAccount — every delivery given to the handler is accounted for once

A delivery is refused by `try_send`, or it waits in the queue, is in the worker's hands, is completed,
or is discarded when the worker goes.  The accepted ones pass through these places in the order of
their sends.
-/

open Tenon.Core Reasoning Reasoning.Transition

namespace Tenon.Oss

section Account

variable {capacity : Nat}

/-! ## The places of a delivery -/

def submittedBy : PipelineAction → Option IncomingDelivery
  | .handler (.submit delivery) => some delivery
  | _ => none

-- the deliveries given to the handler in a run, in order
def submitted (run : List PipelineAction) : List IncomingDelivery :=
  run.filterMap submittedBy

namespace Pipeline

def queued (s : Pipeline capacity) : List IncomingDelivery :=
  if s.worker.hasEnded then [] else s.evalQueue.items

def inHand (s : Pipeline capacity) : List IncomingDelivery :=
  if s.worker.hasEnded then [] else s.worker.held

-- the delivery the worker left the loop with, and what it left in the queue
def discarded (s : Pipeline capacity) : List IncomingDelivery :=
  if s.worker.hasEnded then s.worker.held ++ s.evalQueue.items else []

theorem held_append_items (s : Pipeline capacity) :
    s.worker.held ++ s.evalQueue.items = s.inHand ++ s.queued ++ s.discarded := by
  unfold inHand queued discarded
  cases s.worker.hasEnded <;> simp

end Pipeline

/-! ## What the handler calls account for -/

/-- Every submitted delivery is refused or accepted, and the counters count them. -/
structure SendsAccounted (past : List PipelineAction) (s : Pipeline capacity) : Prop where
  places : (submitted past).Perm (s.refused ++ s.accepted)
  refused : s.refused.Sublist (submitted past)
  accepted : s.accepted.Sublist (submitted past)
  drops : s.evalQueueDrops + s.unrecordedDrops = s.refused.length
  -- the handlers are dropped only after every call has returned
  returned : s.handlersDropped = true → s.unrecordedDrops = 0
  ingress : s.ingressMessages = s.refused.length + s.accepted.length

variable {C : Crates} {s t : Pipeline capacity} {past : List PipelineAction}

theorem submitted_concat (past : List PipelineAction) (action : PipelineAction) :
    submitted (past ++ [action]) = submitted past ++ (submittedBy action).toList := by
  rw [submitted, List.filterMap_append]
  cases h : submittedBy action <;> simp [submitted, h]

-- the worker and the shutdown flag do not touch what the handler calls account for
theorem SendsAccounted.frame (h : SendsAccounted past s) {action : PipelineAction}
    (haction : submittedBy action = none) (hrefused : t.refused = s.refused)
    (haccepted : t.accepted = s.accepted)
    (hdrops : t.evalQueueDrops + t.unrecordedDrops = s.evalQueueDrops + s.unrecordedDrops)
    (hreturned : t.handlersDropped = true → t.unrecordedDrops = 0)
    (hingress : t.ingressMessages = s.ingressMessages) :
    SendsAccounted (past ++ [action]) t := by
  have hsubmitted : submitted (past ++ [action]) = submitted past := by
    rw [submitted_concat, haction, Option.toList_none, List.append_nil]
  constructor
  · rw [hsubmitted, hrefused, haccepted]
    exact h.places
  · rw [hsubmitted, hrefused]
    exact h.refused
  · rw [hsubmitted, haccepted]
    exact h.accepted
  · rw [hdrops, hrefused]
    exact h.drops
  · exact hreturned
  · rw [hingress, hrefused, haccepted]
    exact h.ingress

theorem SendsAccounted.handlerStep (h : SendsAccounted past s) {action : HandlerAction}
    (hstep : s.handlerStep action = some t) :
    SendsAccounted (past ++ [.handler action]) t := by
  cases handlerStep_cases hstep with
  | accept delivery queue hopen hworker hitems =>
      have hsubmitted := submitted_concat past (.handler (.submit delivery))
      constructor
      · rw [hsubmitted, ← List.append_assoc]
        exact h.places.append_right [delivery]
      · rw [hsubmitted]
        exact h.refused.trans (List.sublist_append_left _ _)
      · rw [hsubmitted]
        exact h.accepted.append (List.Sublist.refl [delivery])
      · exact h.drops
      · exact h.returned
      · change s.ingressMessages + 1 = s.refused.length + (s.accepted ++ [delivery]).length
        rw [h.ingress, List.length_append]
        rfl
  | refuse delivery hopen hrefused =>
      have hsubmitted := submitted_concat past (.handler (.submit delivery))
      constructor
      · rw [hsubmitted]
        have hswap : (s.accepted ++ [delivery]).Perm ([delivery] ++ s.accepted) :=
          List.perm_append_comm
        have hplaces := h.places.append_right [delivery]
        rw [List.append_assoc] at hplaces
        change (submitted past ++ [delivery]).Perm (s.refused ++ [delivery] ++ s.accepted)
        rw [List.append_assoc]
        exact hplaces.trans (hswap.append_left s.refused)
      · rw [hsubmitted]
        exact h.refused.append (List.Sublist.refl [delivery])
      · rw [hsubmitted]
        exact h.accepted.trans (List.sublist_append_left _ _)
      · change s.evalQueueDrops + (s.unrecordedDrops + 1) = (s.refused ++ [delivery]).length
        rw [List.length_append, ← h.drops]
        rfl
      · intro hdropped
        rw [hopen] at hdropped
        cases hdropped
      · change s.ingressMessages + 1 = (s.refused ++ [delivery]).length + s.accepted.length
        rw [h.ingress, List.length_append, List.length_singleton]
        omega
  | recordEnqueued sends hsends => exact h.frame rfl rfl rfl rfl h.returned rfl
  | recordDrop drops hdrops =>
      have hmoved : s.evalQueueDrops + 1 + drops = s.evalQueueDrops + s.unrecordedDrops := by omega
      have hreturned (hdropped : s.handlersDropped = true) : drops = 0 := by
        have hnone := h.returned hdropped
        omega
      exact h.frame rfl rfl rfl hmoved hreturned rfl
  | dropHandlers hsends hdrops => exact h.frame rfl rfl rfl rfl (fun _ ↦ hdrops) rfl

theorem SendsAccounted.workerStep (h : SendsAccounted past s) {action : WorkerAction}
    (hstep : s.workerStep C action = some t) :
    SendsAccounted (past ++ [.worker action]) t := by
  cases workerStep_cases hstep <;> exact h.frame rfl rfl rfl rfl h.returned rfl

theorem SendsAccounted.step (h : SendsAccounted past s) {action : PipelineAction}
    (hstep : s.step C action = some t) : SendsAccounted (past ++ [action]) t := by
  cases action with
  | handler action => exact h.handlerStep hstep
  | worker action => exact h.workerStep hstep
  | forceShutdown =>
      cases hstep
      exact h.frame rfl rfl rfl rfl h.returned rfl

/-! ## How the worker ends -/

/-- The worker ends with a delivery in hand only after a forced shutdown, and otherwise with nothing
left. -/
structure Stopping (past : List PipelineAction) (s : Pipeline capacity) : Prop where
  forced : s.forceShutdown = true → .forceShutdown ∈ past
  discarded : ∀ delivery, s.worker = .ended (some delivery) → .forceShutdown ∈ past
  drained : s.worker = .ended none → s.evalQueue.items = [] ∧ s.handlersDropped = true

theorem Stopping.handlerStep (h : Stopping past s) {action : HandlerAction}
    (hstep : s.handlerStep action = some t) : Stopping (past ++ [.handler action]) t := by
  have hforced (hs : s.forceShutdown = true) : .forceShutdown ∈ past ++ [.handler action] :=
    List.mem_append_left _ (h.forced hs)
  have hdiscarded (delivery : IncomingDelivery) (hs : s.worker = .ended (some delivery)) :
      .forceShutdown ∈ past ++ [.handler action] :=
    List.mem_append_left _ (h.discarded delivery hs)
  cases handlerStep_cases hstep with
  | accept delivery queue hopen hworker hitems =>
      -- no send succeeds after the worker has gone
      have hrunning (hs : s.worker = .ended none) : queue.items = [] ∧ s.handlersDropped = true := by
        rw [hs] at hworker
        cases hworker
      exact ⟨hforced, hdiscarded, hrunning⟩
  | refuse delivery hopen hrefused => exact ⟨hforced, hdiscarded, h.drained⟩
  | recordEnqueued sends hsends => exact ⟨hforced, hdiscarded, h.drained⟩
  | recordDrop drops hdrops => exact ⟨hforced, hdiscarded, h.drained⟩
  | dropHandlers hsends hdrops =>
      exact ⟨hforced, hdiscarded, fun hs ↦ ⟨(h.drained hs).1, rfl⟩⟩

theorem Stopping.workerStep (h : Stopping past s) {action : WorkerAction}
    (hstep : s.workerStep C action = some t) : Stopping (past ++ [.worker action]) t := by
  have hforced (hs : s.forceShutdown = true) : .forceShutdown ∈ past ++ [.worker action] :=
    List.mem_append_left _ (h.forced hs)
  cases workerStep_cases hstep with
  | hangUp hworker hempty hdropped => exact ⟨hforced, nofun, fun _ ↦ ⟨hempty, hdropped⟩⟩
  | discard delivery hworker hforce => exact ⟨hforced, fun _ _ ↦ hforced hforce, nofun⟩
  | _ => exact ⟨hforced, nofun, nofun⟩

theorem Stopping.step (h : Stopping past s) {action : PipelineAction}
    (hstep : s.step C action = some t) : Stopping (past ++ [action]) t := by
  cases action with
  | handler action => exact h.handlerStep hstep
  | worker action => exact h.workerStep hstep
  | forceShutdown =>
      cases hstep
      have hlast : PipelineAction.forceShutdown ∈ past ++ [.forceShutdown] :=
        List.mem_append_right _ List.mem_cons_self
      exact ⟨fun _ ↦ hlast, fun _ _ ↦ hlast, h.drained⟩

/-! ## Where the logged results come from -/

/-- The engine after it has evaluated messages, one after the other. -/
def evaluateAll (C : Crates) (engine : RuleEngine) (messages : List (HashOrder × Message)) : RuleEngine :=
  messages.foldl (fun engine message ↦ (engine.evaluate C message.1 message.2).1) engine

theorem evaluateAll_concat (engine : RuleEngine) (messages : List (HashOrder × Message))
    (order : HashOrder) (message : Message) :
    evaluateAll C engine (messages ++ [(order, message)]) =
      ((evaluateAll C engine messages).evaluate C order message).1 := by
  rw [evaluateAll, List.foldl_append]
  rfl

/-- The worker's engine has only evaluated messages since the start, and the results logged for a
delivery are those of its message in the engine of that moment. -/
structure ResultsReturned (C : Crates) (engine : RuleEngine) (s : Pipeline capacity) : Prop where
  running : ∃ earlier, s.engine = evaluateAll C engine earlier
  logged : ∀ delivery results, .evaluated delivery results ∈ s.log →
    ∃ (earlier : List (HashOrder × Message)) (order : HashOrder),
      ((evaluateAll C engine earlier).evaluate C order delivery.message).2.results = results

variable {engine : RuleEngine}

theorem ResultsReturned.concat (h : ResultsReturned C engine s) {event : WorkerEvent}
    (hevent : ∀ delivery results, event ≠ .evaluated delivery results) (delivery : IncomingDelivery)
    (results : List RuleEvaluation) (hmem : .evaluated delivery results ∈ s.log ++ [event]) :
    ∃ (earlier : List (HashOrder × Message)) (order : HashOrder),
      ((evaluateAll C engine earlier).evaluate C order delivery.message).2.results = results := by
  rcases List.mem_append.mp hmem with hold | hnew
  · exact h.logged delivery results hold
  · exact absurd (List.mem_singleton.mp hnew).symm (hevent delivery results)

theorem ResultsReturned.workerStep (h : ResultsReturned C engine s) {action : WorkerAction}
    (hstep : s.workerStep C action = some t) : ResultsReturned C engine t := by
  obtain ⟨earlier, hearlier⟩ := h.running
  cases workerStep_cases hstep with
  | evaluate order delivery hworker running results hengine hresults =>
      rw [hearlier] at hengine hresults
      refine ⟨⟨earlier ++ [(order, delivery.message)], ?_⟩, fun delivery' results' hmem ↦ ?_⟩
      · rw [evaluateAll_concat]
        exact hengine.symm
      · rcases List.mem_append.mp hmem with hold | hnew
        · exact h.logged delivery' results' hold
        · cases List.mem_singleton.mp hnew
          exact ⟨earlier, order, hresults⟩
  | ack delivery results hworker => exact ⟨h.running, h.concat nofun⟩
  | dispatch delivery result rest hworker => exact ⟨h.running, h.concat nofun⟩
  | _ => exact ⟨h.running, h.logged⟩

theorem ResultsReturned.step (h : ResultsReturned C engine s) {action : PipelineAction}
    (hstep : s.step C action = some t) : ResultsReturned C engine t := by
  cases action with
  | handler action =>
      have hhandler : s.handlerStep action = some t := hstep
      cases handlerStep_cases hhandler <;> exact ⟨h.running, h.logged⟩
  | forceShutdown =>
      cases hstep
      exact ⟨h.running, h.logged⟩
  | worker action => exact h.workerStep hstep

/-! ## The account -/

/-- The places of all deliveries given to the handler, with the completed ones and the events of the
delivery in hand.  A completed delivery has its block in the log: its evaluation, its ack and the
dispatches of its results in order; the log holds nothing else but the part for the one in hand. -/
structure DeliveryAccount (C : Crates) (engine : RuleEngine) (run : List PipelineAction)
    (s : Pipeline capacity) (completed : List (IncomingDelivery × List RuleEvaluation))
    (part : List WorkerEvent) : Prop where
  places : (submitted run).Perm
    (s.refused ++ (completed.map Prod.fst ++ (s.inHand ++ s.queued ++ s.discarded)))
  -- in the order of the sends that succeeded
  order : s.accepted = completed.map Prod.fst ++ (s.inHand ++ s.queued ++ s.discarded)
  sends : s.accepted.Sublist (submitted run) ∧ s.refused.Sublist (submitted run)
  -- a refusal is counted by the time its call returns
  drops : s.evalQueueDrops + s.unrecordedDrops = s.refused.length
  counted : s.handlersDropped = true → s.evalQueueDrops = s.refused.length
  ingress : s.ingressMessages = s.refused.length + s.accepted.length
  log : s.log = completed.flatMap block ++ part
  part : InProgress s.worker part
  results : ResultsReturned C engine s
  drained : s.worker.hasEnded = true → .forceShutdown ∉ run →
    s.evalQueue.items = [] ∧ s.accepted = completed.map Prod.fst

section Run

variable {run : List PipelineAction}
  {completed : List (IncomingDelivery × List RuleEvaluation)} {part : List WorkerEvent}

theorem sendsAccounted (h : (pipelineSystem C engine capacity).exec (.init engine) run = some s) :
    SendsAccounted run s := by
  have hinit : SendsAccounted [] (.init engine : Pipeline capacity) :=
    ⟨.nil, .slnil, .slnil, rfl, nofun, rfl⟩
  apply System.exec_past_invariant _ hinit h
  exact fun _ _ _ _ hs hstep ↦ SendsAccounted.step hs hstep

theorem stopping (h : (pipelineSystem C engine capacity).exec (.init engine) run = some s) :
    Stopping run s := by
  have hinit : Stopping [] (.init engine : Pipeline capacity) := ⟨nofun, nofun, nofun⟩
  apply System.exec_past_invariant _ hinit h
  exact fun _ _ _ _ hs hstep ↦ Stopping.step hs hstep

theorem resultsReturned (h : (pipelineSystem C engine capacity).exec (.init engine) run = some s) :
    ResultsReturned C engine s := by
  have hinit : ResultsReturned C engine (.init engine : Pipeline capacity) := ⟨⟨[], rfl⟩, nofun⟩
  apply System.exec_invariant _ hinit h
  exact fun _ _ _ hs hstep ↦ ResultsReturned.step hs hstep

/-- A worker that ended without a forced shutdown has completed everything that was accepted. -/
theorem Accounted.drained (h : Accounted s completed part) (hstopping : Stopping run s)
    (hended : s.worker.hasEnded = true) (hnever : .forceShutdown ∉ run) :
    s.evalQueue.items = [] ∧ s.accepted = completed.map Prod.fst := by
  cases hworker : s.worker with
  | ended left =>
      cases left with
      | some delivery => exact absurd (hstopping.discarded delivery hworker) hnever
      | none =>
          have hempty := (hstopping.drained hworker).1
          have haccepted := h.accepted
          rw [hempty, hworker] at haccepted
          exact ⟨hempty, by simpa [WorkerPhase.held] using haccepted⟩
  | _ =>
      rw [hworker] at hended
      cases hended

end Run

/-- In every state of every run each delivery given to the handler is accounted for exactly once. -/
theorem deliveries_accounted (C : Crates) (engine : RuleEngine) (capacity : Nat)
    {run : List PipelineAction} {s : Pipeline capacity}
    (h : (pipelineSystem C engine capacity).exec (.init engine) run = some s) :
    ∃ completed part, DeliveryAccount C engine run s completed part := by
  have hsends := sendsAccounted h
  obtain ⟨completed, part, haccounted⟩ := exists_accounted ⟨run, h⟩
  have horder : s.accepted =
      completed.map Prod.fst ++ (s.inHand ++ s.queued ++ s.discarded) := by
    rw [haccounted.accepted, List.append_assoc, s.held_append_items]
  have hplaces := hsends.places
  rw [horder] at hplaces
  have hcounted (hdropped : s.handlersDropped = true) : s.evalQueueDrops = s.refused.length := by
    have hnone := hsends.returned hdropped
    have hdrops := hsends.drops
    omega
  exact ⟨completed, part, hplaces, horder, ⟨hsends.accepted, hsends.refused⟩, hsends.drops,
    hcounted, hsends.ingress, haccounted.log, haccounted.part, resultsReturned h,
    fun hended hnever ↦ haccounted.drained (stopping h) hended hnever⟩

-- a delivery goes all the way, another finds the queue full, and the worker hangs up
def demoDrained : List PipelineAction :=
  [.handler (.submit ⟨Message.new "t" [], 0⟩), .handler (.submit ⟨Message.new "t" [1], 1⟩),
    .handler .recordEnqueued, .handler .recordDrop, .worker .recv, .worker .check,
    .worker .recordDequeued, .worker (.evaluate .increasing), .worker .ack, .worker .dispatch,
    .worker .finish, .handler .dropHandlers, .worker .hangUp]

theorem deliveries_accounted_demo :
    ∃ s : Pipeline 1, (pipelineSystem demoCrates (demoEngine [selectAll "t"]) 1).exec
        (.init (demoEngine [selectAll "t"])) demoDrained = some s ∧ s.worker = .ended none ∧
      ∃ completed part,
        DeliveryAccount demoCrates (demoEngine [selectAll "t"]) demoDrained s completed part :=
  ⟨_, rfl, rfl, deliveries_accounted demoCrates (demoEngine [selectAll "t"]) 1 rfl⟩

end Account

end Tenon.Oss
