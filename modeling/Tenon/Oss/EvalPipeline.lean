import Tenon.Core.EngineMatching
import Tenon.Reasoning.Channel

/-!
# EvalPipeline — the handlers, the eval queue and the worker

Handler calls put deliveries on a bounded queue and record the outcome in a step of their own; one
worker takes the deliveries off, counts, evaluates, acknowledges and dispatches them.  The steps of all
parties interleave freely.
-/

open Tenon.Core Reasoning Reasoning.Transition

namespace Tenon.Oss

structure IncomingDelivery where
  message : Message
  -- the client that received it and takes its ack
  client : Nat
  deriving DecidableEq

inductive WorkerPhase where
  | receiving
  | received (delivery : IncomingDelivery)
  | admitted (delivery : IncomingDelivery)
  | counted (delivery : IncomingDelivery)
  | evaluated (delivery : IncomingDelivery) (results : List RuleEvaluation)
  -- acknowledged, with the results that are left to dispatch
  | dispatching (delivery : IncomingDelivery) (rest : List RuleEvaluation)
  -- with the delivery in hand when the loop was left
  | ended (discarded : Option IncomingDelivery)
  deriving DecidableEq

/-- What the worker does to a delivery, seen from outside. -/
inductive WorkerEvent where
  | evaluated (delivery : IncomingDelivery) (results : List RuleEvaluation)
  | acked (delivery : IncomingDelivery)
  | dispatched (ruleIndex : Nat) (message : Message)
  deriving DecidableEq

structure Pipeline (capacity : Nat) where
  engine : RuleEngine
  evalQueue : Channel IncomingDelivery capacity
  -- handler calls between `try_send` and the metric of its outcome
  unrecordedSends : Nat
  unrecordedDrops : Nat
  ingressMessages : Nat
  -- the atomic counter before it wraps
  evalQueueDepth : Int
  evalQueueDrops : Nat
  handlersDropped : Bool
  forceShutdown : Bool
  worker : WorkerPhase
  -- what happened so far, which no step reads
  accepted : List IncomingDelivery
  refused : List IncomingDelivery
  log : List WorkerEvent

inductive HandlerAction where
  | submit (delivery : IncomingDelivery)
  | recordEnqueued
  | recordDrop
  | dropHandlers

inductive WorkerAction where
  | recv
  | hangUp
  | check
  | recordDequeued
  | evaluate (order : HashOrder)
  | ack
  | dispatch
  | finish

inductive PipelineAction where
  | handler (action : HandlerAction)
  | worker (action : WorkerAction)
  | forceShutdown

def WorkerPhase.hasEnded : WorkerPhase → Bool
  | .ended _ => true
  | _ => false

namespace Pipeline

variable {capacity : Nat}

def init (engine : RuleEngine) : Pipeline capacity where
  engine := engine
  evalQueue := .empty
  unrecordedSends := 0
  unrecordedDrops := 0
  ingressMessages := 0
  evalQueueDepth := 0
  evalQueueDrops := 0
  handlersDropped := false
  forceShutdown := false
  worker := .receiving
  accepted := []
  refused := []
  log := []

-- `try_send` fails on a full queue, and after the worker has gone; a send between the end of the loop
-- and the drop of the receiver leaves the same behind as one just before the end
def trySubmit (s : Pipeline capacity) (delivery : IncomingDelivery) :
    Option (Channel IncomingDelivery capacity) :=
  if s.worker.hasEnded then none else s.evalQueue.trySend delivery

def handlerStep (s : Pipeline capacity) : HandlerAction → Option (Pipeline capacity)
  | .submit delivery =>
      if s.handlersDropped then none
      else match s.trySubmit delivery with
        | some evalQueue =>
            some { s with
              evalQueue := evalQueue
              ingressMessages := s.ingressMessages + 1
              unrecordedSends := s.unrecordedSends + 1
              accepted := s.accepted ++ [delivery] }
        | none =>
            some { s with
              ingressMessages := s.ingressMessages + 1
              unrecordedDrops := s.unrecordedDrops + 1
              refused := s.refused ++ [delivery] }
  | .recordEnqueued =>
      match s.unrecordedSends with
      | sends + 1 =>
          some { s with unrecordedSends := sends, evalQueueDepth := s.evalQueueDepth + 1 }
      | 0 => none
  | .recordDrop =>
      match s.unrecordedDrops with
      | drops + 1 =>
          some { s with unrecordedDrops := drops, evalQueueDrops := s.evalQueueDrops + 1 }
      | 0 => none
  -- only after every call has returned
  | .dropHandlers =>
      if s.unrecordedSends = 0 ∧ s.unrecordedDrops = 0 then some { s with handlersDropped := true }
      else none

def workerStep (C : Crates) (s : Pipeline capacity) : WorkerAction → Option (Pipeline capacity)
  | .recv =>
      match s.worker with
      | .receiving =>
          s.evalQueue.tryRecv.map fun taken ↦
            { s with evalQueue := taken.2, worker := .received taken.1 }
      | _ => none
  -- `recv` fails once the queue is empty and no handler is left
  | .hangUp =>
      match s.worker with
      | .receiving =>
          if s.evalQueue.items = [] ∧ s.handlersDropped then some { s with worker := .ended none }
          else none
      | _ => none
  | .check =>
      match s.worker with
      | .received delivery =>
          some { s with
            worker := if s.forceShutdown then .ended (some delivery) else .admitted delivery }
      | _ => none
  | .recordDequeued =>
      match s.worker with
      | .admitted delivery =>
          some { s with worker := .counted delivery, evalQueueDepth := s.evalQueueDepth - 1 }
      | _ => none
  | .evaluate order =>
      match s.worker with
      | .counted delivery =>
          let evaluated := s.engine.evaluate C order delivery.message
          some { s with
            engine := evaluated.1
            worker := .evaluated delivery evaluated.2.results
            log := s.log ++ [.evaluated delivery evaluated.2.results] }
      | _ => none
  | .ack =>
      match s.worker with
      | .evaluated delivery results =>
          some { s with worker := .dispatching delivery results, log := s.log ++ [.acked delivery] }
      | _ => none
  | .dispatch =>
      match s.worker with
      | .dispatching delivery (result :: rest) =>
          some { s with
            worker := .dispatching delivery rest
            log := s.log ++ [.dispatched result.ruleIndex result.message] }
      | _ => none
  | .finish =>
      match s.worker with
      | .dispatching _ [] => some { s with worker := .receiving }
      | _ => none

def step (C : Crates) (s : Pipeline capacity) : PipelineAction → Option (Pipeline capacity)
  | .handler action => s.handlerStep action
  | .worker action => s.workerStep C action
  | .forceShutdown => some { s with forceShutdown := true }

end Pipeline

/-- `build_handler`: any number of handler calls, the worker and the shutdown flag. -/
def pipelineSystem (C : Crates) (engine : RuleEngine) (capacity : Nat) :
    System (Pipeline capacity) PipelineAction where
  init := .init engine
  step := Pipeline.step C

/-! ## What each step does -/

section StepCases

variable {capacity : Nat}

inductive HandlerStep (s : Pipeline capacity) : HandlerAction → Pipeline capacity → Prop
  | accept (delivery : IncomingDelivery) (queue : Channel IncomingDelivery capacity)
      (hopen : s.handlersDropped = false) (hworker : s.worker.hasEnded = false)
      (hitems : queue.items = s.evalQueue.items ++ [delivery]) :
      HandlerStep s (.submit delivery)
        { s with
          evalQueue := queue
          ingressMessages := s.ingressMessages + 1
          unrecordedSends := s.unrecordedSends + 1
          accepted := s.accepted ++ [delivery] }
  | refuse (delivery : IncomingDelivery) (hopen : s.handlersDropped = false)
      (hrefused : s.worker.hasEnded = true ∨ s.evalQueue.items.length = capacity) :
      HandlerStep s (.submit delivery)
        { s with
          ingressMessages := s.ingressMessages + 1
          unrecordedDrops := s.unrecordedDrops + 1
          refused := s.refused ++ [delivery] }
  | recordEnqueued (sends : Nat) (hsends : s.unrecordedSends = sends + 1) :
      HandlerStep s .recordEnqueued
        { s with unrecordedSends := sends, evalQueueDepth := s.evalQueueDepth + 1 }
  | recordDrop (drops : Nat) (hdrops : s.unrecordedDrops = drops + 1) :
      HandlerStep s .recordDrop
        { s with unrecordedDrops := drops, evalQueueDrops := s.evalQueueDrops + 1 }
  | dropHandlers (hsends : s.unrecordedSends = 0) (hdrops : s.unrecordedDrops = 0) :
      HandlerStep s .dropHandlers { s with handlersDropped := true }

inductive WorkerStep (C : Crates) (s : Pipeline capacity) : WorkerAction → Pipeline capacity → Prop
  | recv (delivery : IncomingDelivery) (queue : Channel IncomingDelivery capacity)
      (hworker : s.worker = .receiving) (hitems : s.evalQueue.items = delivery :: queue.items) :
      WorkerStep C s .recv { s with evalQueue := queue, worker := .received delivery }
  | hangUp (hworker : s.worker = .receiving) (hempty : s.evalQueue.items = [])
      (hdropped : s.handlersDropped = true) :
      WorkerStep C s .hangUp { s with worker := .ended none }
  | discard (delivery : IncomingDelivery) (hworker : s.worker = .received delivery)
      (hforce : s.forceShutdown = true) :
      WorkerStep C s .check { s with worker := .ended (some delivery) }
  | proceed (delivery : IncomingDelivery) (hworker : s.worker = .received delivery)
      (hforce : s.forceShutdown = false) :
      WorkerStep C s .check { s with worker := .admitted delivery }
  | recordDequeued (delivery : IncomingDelivery) (hworker : s.worker = .admitted delivery) :
      WorkerStep C s .recordDequeued
        { s with worker := .counted delivery, evalQueueDepth := s.evalQueueDepth - 1 }
  | evaluate (order : HashOrder) (delivery : IncomingDelivery)
      (hworker : s.worker = .counted delivery) (engine : RuleEngine)
      (results : List RuleEvaluation)
      (hengine : (s.engine.evaluate C order delivery.message).1 = engine)
      (hresults : (s.engine.evaluate C order delivery.message).2.results = results) :
      WorkerStep C s (.evaluate order)
        { s with
          engine := engine
          worker := .evaluated delivery results
          log := s.log ++ [.evaluated delivery results] }
  | ack (delivery : IncomingDelivery) (results : List RuleEvaluation)
      (hworker : s.worker = .evaluated delivery results) :
      WorkerStep C s .ack
        { s with worker := .dispatching delivery results, log := s.log ++ [.acked delivery] }
  | dispatch (delivery : IncomingDelivery) (result : RuleEvaluation) (rest : List RuleEvaluation)
      (hworker : s.worker = .dispatching delivery (result :: rest)) :
      WorkerStep C s .dispatch
        { s with
          worker := .dispatching delivery rest
          log := s.log ++ [.dispatched result.ruleIndex result.message] }
  | finish (delivery : IncomingDelivery) (hworker : s.worker = .dispatching delivery []) :
      WorkerStep C s .finish { s with worker := .receiving }

variable {C : Crates} {s t : Pipeline capacity}

theorem handlerStep_cases {action : HandlerAction} (h : s.handlerStep action = some t) :
    HandlerStep s action t := by
  cases action with
  | submit delivery =>
      simp only [Pipeline.handlerStep, Pipeline.trySubmit] at h
      split at h
      · cases h
      · rename_i hopen
        have hopen : s.handlersDropped = false := by simpa using hopen
        by_cases hended : s.worker.hasEnded = true
        · rw [if_pos hended] at h
          cases h
          exact .refuse delivery hopen (Or.inl hended)
        · rw [if_neg hended] at h
          split at h
          · rename_i queue hsend
            cases h
            exact .accept delivery queue hopen (by simpa using hended)
              (Channel.trySend_eq_some.mp hsend)
          · rename_i hfull
            cases h
            exact .refuse delivery hopen (Or.inr (Channel.trySend_eq_none.mp hfull))
  | recordEnqueued =>
      simp only [Pipeline.handlerStep] at h
      split at h
      · rename_i sends hsends
        cases h
        exact .recordEnqueued sends hsends
      · cases h
  | recordDrop =>
      simp only [Pipeline.handlerStep] at h
      split at h
      · rename_i drops hdrops
        cases h
        exact .recordDrop drops hdrops
      · cases h
  | dropHandlers =>
      simp only [Pipeline.handlerStep] at h
      split at h
      · rename_i hnone
        cases h
        exact .dropHandlers hnone.1 hnone.2
      · cases h

theorem workerStep_cases {action : WorkerAction} (h : s.workerStep C action = some t) :
    WorkerStep C s action t := by
  cases action with
  | recv =>
      simp only [Pipeline.workerStep] at h
      split at h
      · rename_i hworker
        obtain ⟨⟨delivery, queue⟩, hrecv, rfl⟩ := Option.map_eq_some_iff.mp h
        exact .recv delivery queue hworker (Channel.tryRecv_eq_some.mp hrecv)
      · cases h
  | hangUp =>
      simp only [Pipeline.workerStep] at h
      split at h
      · rename_i hworker
        split at h
        · rename_i hdone
          cases h
          exact .hangUp hworker hdone.1 hdone.2
        · cases h
      · cases h
  | check =>
      simp only [Pipeline.workerStep] at h
      split at h
      · rename_i delivery hworker
        by_cases hforce : s.forceShutdown = true
        · rw [if_pos hforce] at h
          cases h
          exact .discard delivery hworker hforce
        · rw [if_neg hforce] at h
          cases h
          exact .proceed delivery hworker (by simpa using hforce)
      · cases h
  | recordDequeued =>
      simp only [Pipeline.workerStep] at h
      split at h
      · rename_i delivery hworker
        cases h
        exact .recordDequeued delivery hworker
      · cases h
  | evaluate order =>
      simp only [Pipeline.workerStep] at h
      split at h
      · rename_i delivery hworker
        cases h
        exact .evaluate order delivery hworker _ _ rfl rfl
      · cases h
  | ack =>
      simp only [Pipeline.workerStep] at h
      split at h
      · rename_i delivery results hworker
        cases h
        exact .ack delivery results hworker
      · cases h
  | dispatch =>
      simp only [Pipeline.workerStep] at h
      split at h
      · rename_i delivery result rest hworker
        cases h
        exact .dispatch delivery result rest hworker
      · cases h
  | finish =>
      simp only [Pipeline.workerStep] at h
      split at h
      · rename_i delivery hworker
        cases h
        exact .finish delivery hworker
      · cases h

end StepCases

/-! ## The depth counter -/

section Depth

variable {capacity : Nat}

-- the deliveries off the queue that the worker has not counted
def WorkerPhase.uncounted : WorkerPhase → Nat
  | .received _ | .admitted _ | .ended (some _) => 1
  | _ => 0

/-- The counter lags behind by the sends that are not recorded. -/
def DepthAccounted (s : Pipeline capacity) : Prop :=
  s.evalQueueDepth + s.unrecordedSends = s.evalQueue.items.length + s.worker.uncounted

variable {C : Crates} {s t : Pipeline capacity}

theorem DepthAccounted.step (h : DepthAccounted s) {action : PipelineAction}
    (hstep : s.step C action = some t) : DepthAccounted t := by
  unfold DepthAccounted at h ⊢
  cases action with
  | handler action =>
      cases handlerStep_cases hstep with
      | accept delivery queue hopen hworker hitems =>
          simp only [hitems, List.length_append, List.length_singleton]
          push_cast
          omega
      | refuse delivery hopen hrefused => exact h
      | recordEnqueued sends hsends =>
          rw [hsends] at h
          push_cast at h
          show s.evalQueueDepth + 1 + (sends : Int) = s.evalQueue.items.length + s.worker.uncounted
          omega
      | recordDrop drops hdrops => exact h
      | dropHandlers hsends hdrops => exact h
  | worker action =>
      cases workerStep_cases hstep with
      | recv delivery queue hworker hitems =>
          rw [hworker, hitems, List.length_cons] at h
          simp only [WorkerPhase.uncounted] at h ⊢
          push_cast at h ⊢
          omega
      | recordDequeued delivery hworker =>
          rw [hworker] at h
          simp only [WorkerPhase.uncounted] at h ⊢
          push_cast at h ⊢
          omega
      | hangUp hworker _ _ => rw [hworker] at h; exact h
      | discard delivery hworker _ => rw [hworker] at h; exact h
      | proceed delivery hworker _ => rw [hworker] at h; exact h
      | evaluate order delivery hworker engine results _ _ => rw [hworker] at h; exact h
      | ack delivery results hworker => rw [hworker] at h; exact h
      | dispatch delivery result rest hworker => rw [hworker] at h; exact h
      | finish delivery hworker => rw [hworker] at h; exact h
  | forceShutdown =>
      cases hstep
      exact h

/-- The counter is at least one when the worker decrements it. -/
def DepthPositive (s : Pipeline capacity) (action : PipelineAction) : Prop :=
  action = .worker .recordDequeued → 1 ≤ s.evalQueueDepth

/-- When the worker decrements, the handler calls that have sent but not recorded are at most as many as
the deliveries left in the queue. -/
def SendsRecorded (s : Pipeline capacity) (action : PipelineAction) : Prop :=
  action = .worker .recordDequeued → s.unrecordedSends ≤ s.evalQueue.items.length

/-- In a run the counter is positive at every decrement if and only if at every decrement enough sends
were recorded. -/
theorem depthPositive_iff (C : Crates) (engine : RuleEngine) (capacity : Nat)
    (run : List PipelineAction) :
    (pipelineSystem C engine capacity).Always DepthPositive (.init engine) run ↔
      (pipelineSystem C engine capacity).Always SendsRecorded (.init engine) run := by
  have hinit : DepthAccounted (Pipeline.init engine : Pipeline capacity) := rfl
  apply System.always_congr DepthAccounted _ _ hinit run
  · exact fun s action t hs _ hstep ↦ DepthAccounted.step hs hstep
  · intro s action t hs hstep
    unfold DepthPositive SendsRecorded
    by_cases haction : action = .worker .recordDequeued
    · subst haction
      have hworked : s.workerStep C .recordDequeued = some t := hstep
      cases workerStep_cases hworked with
      | recordDequeued delivery hworker =>
          -- the delivery in hand is the one the counter still has too many
          unfold DepthAccounted at hs
          rw [hworker] at hs
          simp only [WorkerPhase.uncounted] at hs
          push_cast at hs
          simp only [true_imp_iff]
          omega
    · simp [haction]

-- one delivery, taken off the queue before its send was recorded
def demoOvertaken : List PipelineAction :=
  [.handler (.submit ⟨Message.new "t" [], 0⟩), .worker .recv, .worker .check]

/-- The worker overtakes the handler call: its decrement meets a counter at zero. -/
theorem not_depthPositive_overtaken :
    ∃ s t, (pipelineSystem demoCrates (demoEngine []) 1).exec (.init (demoEngine [])) demoOvertaken =
        some s ∧
      s.step demoCrates (.worker .recordDequeued) = some t ∧ s.evalQueueDepth = 0 ∧
      ¬ (pipelineSystem demoCrates (demoEngine []) 1).Always DepthPositive (.init (demoEngine []))
        (demoOvertaken ++ [.worker .recordDequeued]) := by
  refine ⟨_, _, rfl, rfl, rfl, fun halways ↦ ?_⟩
  have hpositive := (((halways _ rfl).2 _ rfl).2 _ rfl).2 _ rfl
  exact absurd (hpositive.1 rfl) (by decide)

end Depth

/-! ## Where each delivery is -/

section Accounting

variable {capacity : Nat}

def dispatchedEvent (result : RuleEvaluation) : WorkerEvent :=
  .dispatched result.ruleIndex result.message

-- what the log has for a delivery that went all the way
def block (completed : IncomingDelivery × List RuleEvaluation) : List WorkerEvent :=
  .evaluated completed.1 completed.2 :: .acked completed.1 :: completed.2.map dispatchedEvent

-- the delivery in the worker's hands, also when it left the loop with it
def WorkerPhase.held : WorkerPhase → List IncomingDelivery
  | .receiving => []
  | .received delivery | .admitted delivery | .counted delivery => [delivery]
  | .evaluated delivery _ | .dispatching delivery _ => [delivery]
  | .ended discarded => discarded.toList

/-- What the log has for the delivery in the worker's hands. -/
inductive InProgress : WorkerPhase → List WorkerEvent → Prop
  | idle {worker : WorkerPhase} (h : ∀ delivery results, worker ≠ .evaluated delivery results ∧
      worker ≠ .dispatching delivery results) : InProgress worker []
  | evaluated (delivery : IncomingDelivery) (results : List RuleEvaluation) :
      InProgress (.evaluated delivery results) [.evaluated delivery results]
  | dispatching (delivery : IncomingDelivery) (done rest : List RuleEvaluation) :
      InProgress (.dispatching delivery rest)
        (.evaluated delivery (done ++ rest) :: .acked delivery :: done.map dispatchedEvent)

/-- The accepted deliveries are, in order, the completed ones, the one in hand and the queue; the log
has the block of each completed one and then the part for the one in hand. -/
structure Accounted (s : Pipeline capacity) (completed : List (IncomingDelivery × List RuleEvaluation))
    (part : List WorkerEvent) : Prop where
  accepted : s.accepted = completed.map Prod.fst ++ s.worker.held ++ s.evalQueue.items
  log : s.log = completed.flatMap block ++ part
  part : InProgress s.worker part

variable {C : Crates} {s t : Pipeline capacity}
  {completed : List (IncomingDelivery × List RuleEvaluation)} {part : List WorkerEvent}

theorem Accounted.handlerStep (h : Accounted s completed part) {action : HandlerAction}
    (hstep : s.handlerStep action = some t) : Accounted t completed part := by
  cases handlerStep_cases hstep with
  | accept delivery queue hopen hworker hitems =>
      have haccepted :
          s.accepted ++ [delivery] = completed.map Prod.fst ++ s.worker.held ++ queue.items := by
        rw [hitems, h.accepted, List.append_assoc]
      exact ⟨haccepted, h.log, h.part⟩
  | refuse delivery hopen hrefused => exact ⟨h.accepted, h.log, h.part⟩
  | recordEnqueued sends hsends => exact ⟨h.accepted, h.log, h.part⟩
  | recordDrop drops hdrops => exact ⟨h.accepted, h.log, h.part⟩
  | dropHandlers hsends hdrops => exact ⟨h.accepted, h.log, h.part⟩

theorem InProgress.eq_nil {worker : WorkerPhase} (h : InProgress worker part)
    (hworker : ∀ delivery results, worker ≠ .evaluated delivery results ∧
      worker ≠ .dispatching delivery results) : part = [] := by
  cases h with
  | idle _ => rfl
  | evaluated delivery results => exact absurd rfl (hworker delivery results).1
  | dispatching delivery done rest => exact absurd rfl (hworker delivery rest).2

theorem Accounted.workerStep (h : Accounted s completed part) {action : WorkerAction}
    (hstep : s.workerStep C action = some t) :
    ∃ completed' part', Accounted t completed' part' := by
  have haccepted := h.accepted
  have hlog := h.log
  have hpart := h.part
  cases workerStep_cases hstep with
  | recv delivery queue hworker hitems =>
      rw [hworker] at haccepted hpart
      cases hpart.eq_nil fun _ _ ↦ ⟨nofun, nofun⟩
      have haccepted' : s.accepted = completed.map Prod.fst ++ [delivery] ++ queue.items := by
        rw [haccepted, hitems]
        simp [WorkerPhase.held]
      exact ⟨completed, [], haccepted', hlog, .idle fun _ _ ↦ ⟨nofun, nofun⟩⟩
  | hangUp hworker hempty hdropped =>
      rw [hworker] at haccepted hpart
      cases hpart.eq_nil fun _ _ ↦ ⟨nofun, nofun⟩
      exact ⟨completed, [], haccepted, hlog, .idle fun _ _ ↦ ⟨nofun, nofun⟩⟩
  | discard delivery hworker hforce =>
      rw [hworker] at haccepted hpart
      cases hpart.eq_nil fun _ _ ↦ ⟨nofun, nofun⟩
      exact ⟨completed, [], haccepted, hlog, .idle fun _ _ ↦ ⟨nofun, nofun⟩⟩
  | proceed delivery hworker hforce =>
      rw [hworker] at haccepted hpart
      cases hpart.eq_nil fun _ _ ↦ ⟨nofun, nofun⟩
      exact ⟨completed, [], haccepted, hlog, .idle fun _ _ ↦ ⟨nofun, nofun⟩⟩
  | recordDequeued delivery hworker =>
      rw [hworker] at haccepted hpart
      cases hpart.eq_nil fun _ _ ↦ ⟨nofun, nofun⟩
      exact ⟨completed, [], haccepted, hlog, .idle fun _ _ ↦ ⟨nofun, nofun⟩⟩
  | evaluate order delivery hworker engine results hengine hresults =>
      rw [hworker] at haccepted hpart
      cases hpart.eq_nil fun _ _ ↦ ⟨nofun, nofun⟩
      have hlog' : s.log ++ [.evaluated delivery results] =
          completed.flatMap block ++ [.evaluated delivery results] := by
        rw [hlog, List.append_nil]
      exact ⟨completed, _, haccepted, hlog', .evaluated delivery results⟩
  | ack delivery results hworker =>
      rw [hworker] at haccepted hpart
      cases hpart with
      | idle hidle => exact absurd rfl (hidle delivery results).1
      | evaluated _ _ =>
          have hlog' : s.log ++ [.acked delivery] =
              completed.flatMap block ++ [.evaluated delivery results, .acked delivery] := by
            rw [hlog, List.append_assoc]
            rfl
          exact ⟨completed, _, haccepted, hlog', .dispatching delivery [] results⟩
  | dispatch delivery result rest hworker =>
      rw [hworker] at haccepted hpart
      cases hpart with
      | idle hidle => exact absurd rfl (hidle delivery (result :: rest)).2
      | dispatching _ done _ =>
          have hsplit : done ++ result :: rest = (done ++ [result]) ++ rest := by simp
          have hlog' : s.log ++ [dispatchedEvent result] = completed.flatMap block ++
              (.evaluated delivery ((done ++ [result]) ++ rest) :: .acked delivery ::
                (done ++ [result]).map dispatchedEvent) := by
            rw [hlog, List.append_assoc, hsplit, List.map_append]
            rfl
          exact ⟨completed, _, haccepted, hlog', .dispatching delivery (done ++ [result]) rest⟩
  | finish delivery hworker =>
      rw [hworker] at haccepted hpart
      cases hpart with
      | idle hidle => exact absurd rfl (hidle delivery []).2
      | dispatching _ done _ =>
          -- the block is complete
          have haccepted' : s.accepted =
              (completed ++ [(delivery, done)]).map Prod.fst ++ [] ++ s.evalQueue.items := by
            rw [haccepted]
            simp [WorkerPhase.held]
          have hlog' : s.log = (completed ++ [(delivery, done)]).flatMap block ++ [] := by
            rw [hlog]
            simp [block]
          exact ⟨_, [], haccepted', hlog', .idle fun _ _ ↦ ⟨nofun, nofun⟩⟩

/-- In every reachable state each accepted delivery is completed, in hand or in the queue. -/
theorem exists_accounted {engine : RuleEngine}
    (h : (pipelineSystem C engine capacity).Reachable s) :
    ∃ completed part, Accounted s completed part := by
  have hinit : ∃ completed part, Accounted (Pipeline.init engine : Pipeline capacity) completed part :=
    ⟨[], [], rfl, rfl, .idle fun _ _ ↦ ⟨nofun, nofun⟩⟩
  apply h.invariant hinit
  intro s action t hs hstep
  rcases hs with ⟨completed, part, haccounted⟩
  cases action with
  | handler action => exact ⟨completed, part, haccounted.handlerStep hstep⟩
  | worker action => exact haccounted.workerStep hstep
  | forceShutdown =>
      cases hstep
      exact ⟨completed, part, haccounted.accepted, haccounted.log, haccounted.part⟩

/-- After the ack of a delivery come all its results in order, or the worker still has the rest. -/
def AckThenDispatch (s : Pipeline capacity) : Prop :=
  ∀ before delivery after, s.log = before ++ .acked delivery :: after →
    ∃ earlier results, before = earlier ++ [.evaluated delivery results] ∧
      ((∃ later, after = results.map dispatchedEvent ++ later) ∨
        ∃ done rest, results = done ++ rest ∧ after = done.map dispatchedEvent ∧
          s.worker = .dispatching delivery rest)

-- dispatches contain no ack
theorem split_dispatched {results : List RuleEvaluation} {log before after : List WorkerEvent}
    {delivery : IncomingDelivery}
    (h : results.map dispatchedEvent ++ log = before ++ .acked delivery :: after) :
    ∃ before', before = results.map dispatchedEvent ++ before' ∧
      log = before' ++ .acked delivery :: after := by
  induction results generalizing before with
  | nil => exact ⟨before, rfl, h⟩
  | cons result rest ih =>
      cases before with
      | nil => cases h
      | cons event before =>
          obtain ⟨hevent, hrest⟩ := List.cons.inj h
          rcases ih hrest with ⟨before', hbefore, hlog⟩
          exact ⟨before', by rw [hbefore, ← hevent]; rfl, hlog⟩

-- the ack in a block comes right after the evaluation
theorem split_block {completed : IncomingDelivery × List RuleEvaluation}
    {log before after : List WorkerEvent} {delivery : IncomingDelivery}
    (h : block completed ++ log = before ++ .acked delivery :: after) :
    (before = [.evaluated delivery completed.2] ∧
        after = completed.2.map dispatchedEvent ++ log) ∨
      ∃ before', before = block completed ++ before' ∧ log = before' ++ .acked delivery :: after := by
  cases before with
  | nil => cases h
  | cons event before =>
      obtain ⟨rfl, htail⟩ := List.cons.inj h
      cases before with
      | nil =>
          obtain ⟨hdelivery, hafter⟩ := List.cons.inj htail
          cases hdelivery
          exact Or.inl ⟨rfl, hafter.symm⟩
      | cons event before =>
          obtain ⟨rfl, hlater⟩ := List.cons.inj htail
          obtain ⟨before', hbefore, hrest⟩ := split_dispatched hlater
          exact Or.inr ⟨before', by rw [hbefore]; rfl, hrest⟩

-- the ack of the delivery in hand is followed by what was dispatched of it
theorem InProgress.split {worker : WorkerPhase} (h : InProgress worker part)
    {before after : List WorkerEvent} {delivery : IncomingDelivery}
    (hpart : part = before ++ .acked delivery :: after) :
    ∃ done rest, before = [.evaluated delivery (done ++ rest)] ∧
      after = done.map dispatchedEvent ∧ worker = .dispatching delivery rest := by
  cases h with
  | idle hidle => exact absurd hpart (by simp)
  | evaluated d results =>
      cases before with
      | nil => cases hpart
      | cons event before =>
          have htail := (List.cons.inj hpart).2
          exact absurd htail (by simp)
  | dispatching d done rest =>
      cases before with
      | nil => cases hpart
      | cons event before =>
          obtain ⟨rfl, htail⟩ := List.cons.inj hpart
          cases before with
          | nil =>
              obtain ⟨hdelivery, hafter⟩ := List.cons.inj htail
              cases hdelivery
              exact ⟨done, rest, rfl, hafter.symm, rfl⟩
          | cons event before =>
              -- no second ack follows
              have hlater := (List.cons.inj htail).2
              rw [← List.append_nil (done.map dispatchedEvent)] at hlater
              obtain ⟨before', -, hnil⟩ := split_dispatched hlater
              exact absurd hnil (by simp)

theorem Accounted.ackThenDispatch (h : Accounted s completed part) : AckThenDispatch s := by
  intro before delivery after hlog
  rw [h.log] at hlog
  have hpart := h.part
  clear h
  induction completed generalizing before with
  | nil =>
      obtain ⟨done, rest, hbefore, hafter, hworker⟩ := hpart.split hlog
      exact ⟨[], done ++ rest, hbefore, Or.inr ⟨done, rest, rfl, hafter, hworker⟩⟩
  | cons first more ih =>
      rw [List.flatMap_cons, List.append_assoc] at hlog
      rcases split_block hlog with ⟨hbefore, hafter⟩ | ⟨before', hbefore, hrest⟩
      · exact ⟨[], first.2, hbefore, Or.inl ⟨_, hafter⟩⟩
      · rcases ih before' hrest with ⟨earlier, results, hearlier, hdone⟩
        have hsplit : before = (block first ++ earlier) ++ [.evaluated delivery results] := by
          rw [hbefore, hearlier, List.append_assoc]
        exact ⟨_, results, hsplit, hdone⟩

end Accounting

end Tenon.Oss
