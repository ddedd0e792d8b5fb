import Tenon.Oss.Daemon

/-!
# Acks — which acks reach the channel of their client

A delivery of QoS 1 or 2 asks for an ack, which is taken when the client's event loop has not ended and
its channel has room; otherwise it is lost with a warning.  What the channel holds is what it held at the
start, plus these acks, less what the event loop has taken off, so the order of the steps alone decides
whether an ack is taken.
-/

open Tenon.Core Reasoning Reasoning.Transition

namespace Tenon.Oss

section Definitions

variable {capacity : Nat}

def evaluatedDelivery : WorkerEvent → Option IncomingDelivery
  | .evaluated delivery _ => some delivery
  | _ => none

-- the delivery the worker is about to acknowledge
def WorkerPhase.unacked : WorkerPhase → List IncomingDelivery
  | .evaluated delivery _ => [delivery]
  | _ => []

-- there is an ack for QoS 1 and 2 only
def asksAck (delivery : IncomingDelivery) : Bool :=
  delivery.message.qos ≠ 0

/-- Every delivery that was evaluated and asks for an ack has had it taken, but for the one whose ack is
the next step of the worker. -/
def AcksTaken (s : Daemon capacity) : Prop :=
  (s.pipeline.log.filterMap evaluatedDelivery).filter asksAck =
    ((s.acks.filter Prod.snd).map Prod.fst ++
      (if s.main = .exited then [] else s.pipeline.worker.unacked)).filter asksAck

namespace DaemonAction

-- an ack that goes through the channel of client `k`
def isAckOf (k : Nat) : DaemonAction → Bool
  | .ack k' qos => k' = k && qos ≠ 0
  | _ => false

def isPollOf (k : Nat) : DaemonAction → Bool
  | .client k' .poll => k' = k
  | _ => false

def isEndOf (k : Nat) : DaemonAction → Bool
  | .client k' .endLoop => k' = k
  | _ => false

end DaemonAction

-- what the channel of a client held when the daemon was up
def initialRequests (requests : List Requests) (k : Nat) : Nat :=
  ((requests[k]?).map fun channel ↦ channel.items.length).getD 0

/-- The ack of a delivery with QoS 1 or 2 comes before the end of the client's event loop and when all but
fewer than ten of the requests before it were taken off the channel; the forced exit does not come
between the evaluation of such a delivery and its ack. -/
def Timely (requests : List Requests) (past : List DaemonAction) (s : Daemon capacity) :
    DaemonAction → Prop
  | .ack k qos => qos ≠ 0 → past.any (DaemonAction.isEndOf k) = false ∧
      initialRequests requests k + past.countP (DaemonAction.isAckOf k) <
        requestCapacity + past.countP (DaemonAction.isPollOf k)
  | .main .forceTimeout => s.pipeline.worker.unacked.all fun delivery ↦ delivery.message.qos = 0
  | _ => True

end Definitions

/-! ## What the steps do to the deliveries to acknowledge -/

section Steps

variable {capacity : Nat} {C : Crates}

theorem handlerStep_frame {s t : Pipeline capacity} {action : HandlerAction}
    (h : s.handlerStep action = some t) : t.worker = s.worker ∧ t.log = s.log := by
  cases handlerStep_cases h <;> exact ⟨rfl, rfl⟩

theorem clientStep_frame {pipeline t : Pipeline capacity} {k : Nat} {client next : Client}
    {action : ClientAction} (h : ClientStep pipeline k client action next t) :
    t.worker = pipeline.worker ∧ t.log = pipeline.log := by
  rcases clientStep_pipeline h with rfl | ⟨handler, hhandler⟩
  · exact ⟨rfl, rfl⟩
  · exact handlerStep_frame hhandler

theorem mainStep_frame {s t : Daemon capacity} {action : RunAction} (h : MainStep s action t) :
    t.pipeline.worker = s.pipeline.worker ∧ t.pipeline.log = s.pipeline.log ∧ t.acks = s.acks ∧
      t.clients = s.clients := by
  cases h with
  | signal hmain => exact ⟨rfl, rfl, rfl, rfl⟩
  | adapterStopped pipeline hmain hended hdrop =>
      obtain ⟨hworker, hlog⟩ := handlerStep_frame hdrop
      exact ⟨hworker, hlog, rfl, rfl⟩
  | drainTimeout hmain => exact ⟨rfl, rfl, rfl, rfl⟩
  | forceTimeout hmain => exact ⟨rfl, rfl, rfl, rfl⟩
  | workerJoined hended => exact ⟨rfl, rfl, rfl, rfl⟩

theorem workerStep_unacked {s t : Pipeline capacity} {action : WorkerAction} (hack : action ≠ .ack)
    (h : s.workerStep C action = some t) :
    s.worker.unacked = [] ∧
      t.log.filterMap evaluatedDelivery =
        s.log.filterMap evaluatedDelivery ++ t.worker.unacked := by
  cases workerStep_cases h with
  | recv delivery queue hworker hitems => simp [hworker, WorkerPhase.unacked]
  | hangUp hworker hempty hdropped => simp [hworker, WorkerPhase.unacked]
  | discard delivery hworker hforce => simp [hworker, WorkerPhase.unacked]
  | proceed delivery hworker hforce => simp [hworker, WorkerPhase.unacked]
  | recordDequeued delivery hworker => simp [hworker, WorkerPhase.unacked]
  | evaluate order delivery hworker engine results hengine hresults =>
      simp [hworker, WorkerPhase.unacked, evaluatedDelivery]
  | ack delivery results hworker => exact absurd rfl hack
  | dispatch delivery result rest hworker => simp [hworker, WorkerPhase.unacked, evaluatedDelivery]
  | finish delivery hworker => simp [hworker, WorkerPhase.unacked]

theorem workerStep_ack {s t : Pipeline capacity} (h : s.workerStep C .ack = some t) :
    t.worker.unacked = [] ∧
      t.log.filterMap evaluatedDelivery = s.log.filterMap evaluatedDelivery := by
  cases workerStep_cases h with
  | ack delivery results hworker => simp [WorkerPhase.unacked, evaluatedDelivery]

theorem tryAck_qosZero {message : Message} (h : message.qos = 0) (client : Client) :
    client.tryAck message = (client, true) :=
  if_pos h

-- an ack that is asked for is taken if the loop runs and the channel has room
theorem tryAck_iff {message : Message} (hqos : message.qos ≠ 0) (client : Client) :
    (client.tryAck message).2 = true ↔
      client.loop ≠ .ended ∧ client.requests.items.length < requestCapacity := by
  unfold Client.tryAck
  have hle := client.requests.hlength
  rw [if_neg hqos]
  split
  · rename_i hloop
    exact iff_of_false nofun fun h ↦ h.1 hloop
  · rename_i hloop
    split
    · rename_i requests hsend
      have hitems := Channel.trySend_eq_some.mp hsend
      have hbound := requests.hlength
      rw [hitems, List.length_append, List.length_singleton] at hbound
      exact iff_of_true rfl ⟨fun h ↦ hloop h, hbound⟩
    · rename_i hsend
      have hfull := Channel.trySend_eq_none.mp hsend
      exact iff_of_false nofun fun h ↦ by omega

theorem tryAck_loop (client : Client) (message : Message) :
    (client.tryAck message).1.loop = client.loop := by
  unfold Client.tryAck
  split
  · rfl
  · split
    · rfl
    · split <;> rfl

theorem tryAck_length {client : Client} {message : Message} (hqos : message.qos ≠ 0)
    (h : (client.tryAck message).2 = true) :
    (client.tryAck message).1.requests.items.length = client.requests.items.length + 1 := by
  unfold Client.tryAck at h ⊢
  rw [if_neg hqos] at h ⊢
  split at h
  · cases h
  · split at h
    · rename_i requests hsend
      have hitems := Channel.trySend_eq_some.mp hsend
      simp [hitems]
    · cases h

end Steps

/-! ## The tally of a run -/

section Tally

variable {capacity : Nat} {C : Crates} {requests : List Requests}

-- every ack asked for was taken
def NoneLost (acks : List (IncomingDelivery × Bool)) : Prop :=
  ∀ ack ∈ acks, asksAck ack.1 = true → ack.2 = true

/-- While no ack is lost, the channel of the client holds what the past accounts for. -/
structure ClientTallied (requests : List Requests) (past : List DaemonAction)
    (acks : List (IncomingDelivery × Bool)) (k : Nat) (client : Client) : Prop where
  loop : client.loop = .ended ↔ past.any (DaemonAction.isEndOf k) = true
  channel : NoneLost acks →
    client.requests.items.length + past.countP (DaemonAction.isPollOf k) =
      initialRequests requests k + past.countP (DaemonAction.isAckOf k)

/-- What the past of a run says about the state it has led to. -/
structure Tallied (requests : List Requests) (past : List DaemonAction) (s : Daemon capacity) :
    Prop where
  evaluated : s.pipeline.log.filterMap evaluatedDelivery =
    s.acks.map Prod.fst ++ s.pipeline.worker.unacked
  clients : ∀ k client, s.clients[k]? = some client →
    ClientTallied requests past s.acks k client

theorem tallied_init (engine : RuleEngine) (requests : List Requests) :
    Tallied requests [] (Daemon.init engine requests : Daemon capacity) where
  evaluated := rfl
  clients k client hclient := by
    have hmap : (requests.map fun channel ↦ Client.mk channel .polling)[k]? = some client := hclient
    rw [List.getElem?_map] at hmap
    obtain ⟨channel, hchannel, rfl⟩ := Option.map_eq_some_iff.mp hmap
    have hempty : channel.items.length = initialRequests requests k := by
      simp [initialRequests, hchannel]
    exact ⟨iff_of_false nofun nofun, fun _ ↦ hempty⟩

variable {past : List DaemonAction} {acks : List (IncomingDelivery × Bool)}

-- an action that concerns neither the client's channel nor its loop
theorem ClientTallied.frame {k : Nat} {client : Client} (h : ClientTallied requests past acks k client)
    {action : DaemonAction} (hend : action.isEndOf k = false) (hpoll : action.isPollOf k = false)
    (hack : action.isAckOf k = false) {acks' : List (IncomingDelivery × Bool)} (hacks : acks ⊆ acks') :
    ClientTallied requests (past ++ [action]) acks' k client := by
  constructor
  · simp [h.loop, hend]
  · intro hnone
    have hchannel := h.channel fun ack hmem ↦ hnone ack (hacks hmem)
    simp [hpoll, hack, hchannel]

theorem ClientTallied.clientStep {k : Nat} {client next : Client} {pipeline t : Pipeline capacity}
    {action : ClientAction} (h : ClientTallied requests past acks k client)
    (hstep : ClientStep pipeline k client action next t) :
    ClientTallied requests (past ++ [.client k action]) acks k next := by
  cases hstep with
  | poll request channel hloop hitems =>
      constructor
      · simpa [DaemonAction.isEndOf] using h.loop
      · intro htaken
        have hchannel := h.channel htaken
        rw [hitems, List.length_cons] at hchannel
        simp only [List.countP_append, List.countP_singleton, DaemonAction.isPollOf,
          DaemonAction.isAckOf, decide_true, if_true]
        simp only [Bool.false_eq_true, if_false]
        omega
  | publish message _ hloop sent hsubmit =>
      have hrunning : ¬ client.loop = .ended := by rw [hloop]; exact nofun
      constructor
      · have hpast := (not_congr h.loop).mp hrunning
        simpa [DaemonAction.isEndOf] using hpast
      · intro htaken
        simpa [DaemonAction.isPollOf, DaemonAction.isAckOf] using h.channel htaken
  | record sent _ hloop hrecord =>
      have hrunning : ¬ client.loop = .ended := by rw [hloop]; exact nofun
      constructor
      · have hpast := (not_congr h.loop).mp hrunning
        simpa [DaemonAction.isEndOf] using hpast
      · intro htaken
        simpa [DaemonAction.isPollOf, DaemonAction.isAckOf] using h.channel htaken
  | endLoop hloop =>
      constructor
      · simp [DaemonAction.isEndOf]
      · intro htaken
        simpa [DaemonAction.isPollOf, DaemonAction.isAckOf] using h.channel htaken

theorem ClientTallied.ack {k : Nat} {client : Client} (h : ClientTallied requests past acks k client)
    (delivery : IncomingDelivery) :
    ClientTallied requests (past ++ [.ack k delivery.message.qos])
      (acks ++ [(delivery, (client.tryAck delivery.message).2)]) k
      (client.tryAck delivery.message).1 := by
  constructor
  · rw [tryAck_loop]
    simpa [DaemonAction.isEndOf] using h.loop
  · intro hnone
    have hchannel := h.channel fun ack hmem ↦ hnone ack (List.mem_append_left _ hmem)
    by_cases hqos : delivery.message.qos = 0
    · -- nothing is sent, and the action is not counted
      rw [tryAck_qosZero hqos]
      simpa [DaemonAction.isPollOf, DaemonAction.isAckOf, hqos] using hchannel
    · have htaken : (client.tryAck delivery.message).2 = true :=
        hnone _ (List.mem_append_right _ List.mem_cons_self) (decide_eq_true hqos)
      rw [tryAck_length hqos htaken]
      simp only [List.countP_append, List.countP_singleton, DaemonAction.isPollOf,
        DaemonAction.isAckOf, hqos, ne_eq, not_false_eq_true, decide_true, Bool.and_self, if_true]
      simp only [Bool.false_eq_true, if_false]
      omega

/-- One client changes as tallied, and for the others the action is none of theirs. -/
theorem clients_tallied_set {clients : List Client} {acks' : List (IncomingDelivery × Bool)}
    (h : ∀ k client, clients[k]? = some client → ClientTallied requests past acks k client)
    {k : Nat} {action : DaemonAction} {next : Client} (hacks : acks ⊆ acks')
    (hnext : ClientTallied requests (past ++ [action]) acks' k next)
    (hothers : ∀ k', k' ≠ k → action.isEndOf k' = false ∧ action.isPollOf k' = false ∧
      action.isAckOf k' = false) :
    ∀ k' client, (clients.set k next)[k']? = some client →
      ClientTallied requests (past ++ [action]) acks' k' client := by
  intro k' client hclient
  by_cases hk : k' = k
  · subst hk
    rw [List.getElem?_set_self'] at hclient
    obtain ⟨old, -, rfl⟩ := Option.map_eq_some_iff.mp hclient
    exact hnext
  · rw [List.getElem?_set_ne (Ne.symm hk)] at hclient
    rcases hothers k' hk with ⟨hend, hpoll, hack⟩
    exact (h k' client hclient).frame hend hpoll hack hacks

variable {s t : Daemon capacity}

theorem Tallied.clientStep (h : Tallied requests past s) {k : Nat} {client next : Client}
    {pipeline : Pipeline capacity} {action : ClientAction} (hclient : s.clients[k]? = some client)
    (hstep : ClientStep s.pipeline k client action next pipeline) :
    Tallied requests (past ++ [.client k action])
      { s with clients := s.clients.set k next, pipeline := pipeline } where
  evaluated := by
    obtain ⟨hworker, hlog⟩ := clientStep_frame hstep
    rw [hworker, hlog]
    exact h.evaluated
  clients := by
    have hnext := (h.clients k client hclient).clientStep hstep
    apply clients_tallied_set h.clients (List.Subset.refl _) hnext
    intro k' hk
    cases action <;>
      simp [DaemonAction.isEndOf, DaemonAction.isPollOf, DaemonAction.isAckOf, Ne.symm hk]

theorem Tallied.workerStep (h : Tallied requests past s) {pipeline : Pipeline capacity}
    {action : WorkerAction} (hack : action ≠ .ack)
    (hstep : s.pipeline.workerStep C action = some pipeline) :
    Tallied requests (past ++ [.worker action]) { s with pipeline := pipeline } where
  evaluated := by
    obtain ⟨hnone, hlog⟩ := workerStep_unacked hack hstep
    change pipeline.log.filterMap evaluatedDelivery = _
    rw [hlog, h.evaluated, hnone, List.append_nil]
  clients k client hclient := (h.clients k client hclient).frame rfl rfl rfl (List.Subset.refl _)

theorem Tallied.ackStep (h : Tallied requests past s) {delivery : IncomingDelivery}
    {results : List RuleEvaluation} {client : Client} {pipeline : Pipeline capacity}
    (hworker : s.pipeline.worker = .evaluated delivery results)
    (hclient : s.clients[delivery.client]? = some client)
    (hstep : s.pipeline.workerStep C .ack = some pipeline) :
    Tallied requests (past ++ [.ack delivery.client delivery.message.qos])
      { s with
        pipeline := pipeline
        clients := s.clients.set delivery.client (client.tryAck delivery.message).1
        acks := s.acks ++ [(delivery, (client.tryAck delivery.message).2)] } where
  evaluated := by
    -- the delivery goes from the worker to the acks
    obtain ⟨hnone, hlog⟩ := workerStep_ack hstep
    change pipeline.log.filterMap evaluatedDelivery =
      (s.acks ++ _).map Prod.fst ++ pipeline.worker.unacked
    rw [hlog, hnone, h.evaluated, hworker]
    simp [WorkerPhase.unacked]
  clients := by
    have hnext := (h.clients _ client hclient).ack delivery
    apply clients_tallied_set h.clients (List.subset_append_left _ _) hnext
    intro k' hk
    simp [DaemonAction.isEndOf, DaemonAction.isPollOf, DaemonAction.isAckOf, Ne.symm hk]

theorem Tallied.mainStep (h : Tallied requests past s) {action : RunAction}
    (hstep : MainStep s action t) : Tallied requests (past ++ [.main action]) t := by
  obtain ⟨hworker, hlog, hacks, hclients⟩ := mainStep_frame hstep
  constructor
  · rw [hworker, hlog, hacks]
    exact h.evaluated
  · intro k client hclient
    rw [hclients] at hclient
    rw [hacks]
    exact (h.clients k client hclient).frame rfl rfl rfl (List.Subset.refl _)

theorem Tallied.step (h : Tallied requests past s) {action : DaemonAction}
    (hdaemon : s.step C action = some t) : Tallied requests (past ++ [action]) t := by
  obtain ⟨-, hcases⟩ := daemonStep_cases hdaemon
  cases hcases with
  | client k client next pipeline action hclient hstep => exact h.clientStep hclient hstep
  | worker action pipeline hack hstep => exact h.workerStep hack hstep
  | ack delivery results client pipeline hworker hclient hstep =>
      exact h.ackStep hworker hclient hstep
  | main action _ hstep => exact h.mainStep hstep

/-! ## The main result -/

-- no ack is lost, and the exit did not come before the last one
def AllTaken (s : Daemon capacity) : Prop :=
  NoneLost s.acks ∧ (s.main = .exited → s.pipeline.worker.unacked.filter asksAck = [])

theorem filter_taken (acks : List (IncomingDelivery × Bool)) :
    ((acks.filter Prod.snd).map Prod.fst).filter asksAck =
      ((acks.filter fun ack ↦ asksAck ack.1).filter Prod.snd).map Prod.fst := by
  rw [List.filter_map, List.filter_filter, List.filter_filter]
  simp only [Function.comp_apply, Bool.and_comm]

theorem filter_asked (acks : List (IncomingDelivery × Bool)) :
    (acks.map Prod.fst).filter asksAck =
      (acks.filter fun ack ↦ asksAck ack.1).map Prod.fst := by
  rw [List.filter_map]
  rfl

theorem noneLost_iff (acks : List (IncomingDelivery × Bool)) :
    NoneLost acks ↔ ∀ ack ∈ acks.filter fun ack ↦ asksAck ack.1, ack.2 = true := by
  simp [NoneLost]

theorem Tallied.acksTaken_iff (h : Tallied requests past s) : AcksTaken s ↔ AllTaken s := by
  unfold AcksTaken AllTaken
  rw [h.evaluated, List.filter_append, List.filter_append, filter_taken, filter_asked, noneLost_iff]
  generalize s.acks.filter (fun ack ↦ asksAck ack.1) = asked
  constructor
  · intro heq
    -- neither list on the right is longer than its counterpart
    have hlength := congrArg List.length heq
    have hfilter := List.length_filter_le Prod.snd asked
    simp only [List.length_append, List.length_map] at hlength
    by_cases hexited : s.main = .exited
    · rw [if_pos hexited, List.filter_nil, List.length_nil] at hlength
      have hall : (asked.filter Prod.snd).length = asked.length := by omega
      have hnone : (s.pipeline.worker.unacked.filter asksAck).length = 0 := by omega
      exact ⟨List.length_filter_eq_length_iff.mp hall,
        fun _ ↦ List.eq_nil_of_length_eq_zero hnone⟩
    · rw [if_neg hexited] at hlength
      have hall : (asked.filter Prod.snd).length = asked.length := by omega
      exact ⟨List.length_filter_eq_length_iff.mp hall, fun h ↦ absurd h hexited⟩
  · intro hgood
    rcases hgood with ⟨htaken, hexit⟩
    rw [List.filter_eq_self.mpr htaken]
    by_cases hexited : s.main = .exited
    · rw [if_pos hexited, hexit hexited, List.filter_nil]
    · rw [if_neg hexited]

theorem acks_subset {action : DaemonAction} (hdaemon : s.step C action = some t) :
    s.acks ⊆ t.acks := by
  obtain ⟨-, hcases⟩ := daemonStep_cases hdaemon
  cases hcases with
  | client k client next pipeline action hclient hstep => exact List.Subset.refl _
  | worker action pipeline hack hstep => exact List.Subset.refl _
  | ack delivery results client pipeline hworker hclient hstep => exact List.subset_append_left _ _
  | main action _ hmain => cases hmain <;> exact List.Subset.refl _

-- with one more call of `ack`, no ack is lost if this one is not
theorem allTaken_concat (hs : AllTaken s) {delivery : IncomingDelivery} {taken : Bool}
    (hacks : t.acks = s.acks ++ [(delivery, taken)]) (hmain : t.main ≠ .exited) :
    AllTaken t ↔ (delivery.message.qos ≠ 0 → taken = true) := by
  constructor
  · intro ht hqos
    exact ht.1 (delivery, taken) (by simp [hacks]) (decide_eq_true hqos)
  · intro htaken
    refine ⟨fun ack hack hasked ↦ ?_, fun hexited ↦ absurd hexited hmain⟩
    rw [hacks] at hack
    rcases List.mem_append.mp hack with hold | hnew
    · exact hs.1 ack hold hasked
    · cases List.mem_singleton.mp hnew
      exact htaken (of_decide_eq_true hasked)

-- a step from a state without a lost ack leads to one exactly when it is timely
theorem Tallied.allTaken_iff (h : Tallied requests past s) (hs : AllTaken s) {action : DaemonAction}
    (hdaemon : s.step C action = some t) : AllTaken t ↔ Timely requests past s action := by
  obtain ⟨hmain, hcases⟩ := daemonStep_cases hdaemon
  cases hcases with
  | client k client next pipeline action hclient hstep =>
      exact iff_of_true ⟨hs.1, fun hexited ↦ absurd hexited hmain⟩ trivial
  | worker action pipeline hack hstep =>
      exact iff_of_true ⟨hs.1, fun hexited ↦ absurd hexited hmain⟩ trivial
  | ack delivery results client pipeline hworker hclient hstep =>
      have htallied := h.clients _ client hclient
      have hchannel := htallied.channel hs.1
      have hend : past.any (DaemonAction.isEndOf delivery.client) = false ↔ client.loop ≠ .ended := by
        rw [ne_eq, htallied.loop, Bool.not_eq_true]
      suffices htry : (delivery.message.qos ≠ 0 → (client.tryAck delivery.message).2 = true) ↔
          Timely requests past s (.ack delivery.client delivery.message.qos) from
        Iff.trans (allTaken_concat hs rfl hmain) htry
      apply forall_congr'
      intro hqos
      rw [tryAck_iff hqos, hend]
      constructor
      · intro hroom
        exact ⟨hroom.1, by omega⟩
      · intro htimely
        exact ⟨htimely.1, by omega⟩
  | main action _ hstep =>
      cases hstep with
      | signal hphase => exact iff_of_true ⟨hs.1, nofun⟩ trivial
      | adapterStopped pipeline hphase hended hdrop => exact iff_of_true ⟨hs.1, nofun⟩ trivial
      | drainTimeout hphase => exact iff_of_true ⟨hs.1, nofun⟩ trivial
      | forceTimeout hphase =>
          have hnone : s.pipeline.worker.unacked.filter asksAck = [] ↔
              Timely requests past s (.main .forceTimeout) := by
            simp [Timely, asksAck]
          rw [← hnone]
          exact ⟨fun ht ↦ ht.2 rfl, fun hexit ↦ ⟨hs.1, fun _ ↦ hexit⟩⟩
      | workerJoined hended =>
          have hnone : s.pipeline.worker.unacked = [] := by
            cases hworker : s.pipeline.worker with
            | ended discarded => rfl
            | _ =>
                rw [hworker] at hended
                cases hended
          exact iff_of_true ⟨hs.1, fun _ ↦ congrArg (List.filter asksAck) hnone⟩ trivial

end Tally

/-- In a run no ack is lost if and only if each that is asked for comes in time: before the end of its
client's event loop, with room in the channel, and, for a delivery that was evaluated, before a forced
exit. -/
theorem acksTaken_iff_timely {C : Crates} {engine : RuleEngine} {capacity : Nat}
    {requests : List Requests} {run : List DaemonAction} {s : Daemon capacity}
    (hexec : (daemonSystem C engine capacity requests).exec (.init engine requests) run = some s) :
    AcksTaken s ↔ (daemonSystem C engine capacity requests).recording.Always
      (fun recorded action ↦ Timely requests recorded.1 recorded.2 action) ([], .init engine requests) run := by
  have hrecorded := System.exec_recording hexec []
  have hinit : Tallied requests [] (Daemon.init engine requests : Daemon capacity) :=
    tallied_init engine requests
  have hstep (p : List DaemonAction × Daemon capacity) (action : DaemonAction)
      (q : List DaemonAction × Daemon capacity) (hp : Tallied requests p.1 p.2)
      (h : (daemonSystem C engine capacity requests).recording.step p action = some q) :
      Tallied requests q.1 q.2 := by
    obtain ⟨hpast, hdaemon⟩ := System.recording_step.mp h
    rw [hpast]
    exact hp.step hdaemon
  have htallied : Tallied requests run s := by
    apply System.exec_invariant hstep hinit hrecorded
  rw [htallied.acksTaken_iff]
  apply System.exec_good_iff_always (fun p ↦ Tallied requests p.1 p.2) (fun p ↦ AllTaken p.2) hstep
    _ _ hinit hrecorded ⟨nofun, nofun⟩
  · intro p action q hp hgood h
    exact hp.allTaken_iff hgood (System.recording_step.mp h).2
  · intro p action q hp hbad h hgood
    -- a lost ack stays lost, and nothing happens after the exit
    have hdaemon := (System.recording_step.mp h).2
    have hnone : NoneLost p.2.acks := fun ack hack ↦ hgood.1 ack (acks_subset hdaemon hack)
    exact hbad ⟨hnone, fun hexited ↦ absurd hexited (daemonStep_cases hdaemon).1⟩

theorem acksTaken_iff_timely_demo :
    AcksTaken demoExited ↔
      (daemonSystem demoCrates (demoEngine [selectAll "t"]) 1 [.empty]).recording.Always
        (fun recorded action ↦ Timely [.empty] recorded.1 recorded.2 action)
        ([], .init (demoEngine [selectAll "t"]) [.empty]) demoForcedExit :=
  @acksTaken_iff_timely demoCrates (demoEngine [selectAll "t"]) 1 [.empty] demoForcedExit demoExited rfl

-- the adapter is stopped with one delivery of QoS 1 in the queue
def demoLateAck : List DaemonAction :=
  [.client 0 (.publish demoMessage), .client 0 .record, .main .signal, .client 0 .endLoop,
    .main .adapterStopped, .worker .recv, .worker .check, .worker .recordDequeued,
    .worker (.evaluate .increasing), .ack 0 1]

/-- A delivery drained from the queue after the adapter was stopped is evaluated, and its ack is lost. -/
theorem not_acksTaken_drained :
    ∃ s : Daemon 1, (daemonSystem demoCrates (demoEngine [selectAll "t"]) 1 [.empty]).exec
        (.init (demoEngine [selectAll "t"]) [.empty]) demoLateAck = some s ∧
      s.main = .draining ∧ s.acks = [(⟨demoMessage, 0⟩, false)] ∧ ¬ AcksTaken s := by
  refine ⟨_, rfl, rfl, rfl, fun htaken ↦ ?_⟩
  have hlength : 1 = 0 := congrArg List.length htaken
  cases hlength

end Tenon.Oss
