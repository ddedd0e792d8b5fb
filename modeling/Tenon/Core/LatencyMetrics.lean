import Mathlib.Data.UInt
import Tenon.Reasoning.Interleaving
import Tenon.Reasoning.RetryLoop

/-!
# LatencyMetrics — durations recorded by workers in parallel

Every access of a record to one of the three atomic counters is a step of its own, and any number of
records are under way at once.  What a record has put into the metrics so far depends on its own
progress alone, and the metrics are the sum of these parts, where maxima are added by taking the
larger.
-/

open Reasoning.Transition Reasoning.Interleaving Reasoning.RetryLoop

namespace Tenon.Core

@[ext]
structure LatencyMetrics where
  count : UInt64
  totalNanos : UInt64
  maxNanos : UInt64
  deriving DecidableEq

structure LatencyMetricsSnapshot where
  count : UInt64
  totalNanos : UInt64
  maxNanos : UInt64
  deriving DecidableEq

namespace LatencyMetrics

protected def default : LatencyMetrics := ⟨0, 0, 0⟩

/-! ## Recording a duration -/

-- the condition of the loop around the exchange, and what it exchanges a lower maximum for
def raiseTo (durationNanos current : UInt64) : Option UInt64 :=
  if durationNanos > current then some durationNanos else none

/-- The atomic access that a record makes next. -/
inductive RecordPhase (durationNanos : UInt64) where
  | addCount
  | addTotal
  | raiseMax (loop : Loop (raiseTo durationNanos))

structure Recorder where
  durationNanos : UInt64
  phase : RecordPhase durationNanos

def Recorder.returned : Recorder → Bool
  | ⟨_, .raiseMax .done⟩ => true
  | _ => false

def recordStep (metrics : LatencyMetrics) (spurious : Bool) : Recorder → Option (LatencyMetrics × Recorder)
  | ⟨durationNanos, .addCount⟩ =>
      some ({ metrics with count := metrics.count + 1 }, ⟨durationNanos, .addTotal⟩)
  | ⟨durationNanos, .addTotal⟩ =>
      some ({ metrics with totalNanos := metrics.totalNanos + durationNanos },
        ⟨durationNanos, .raiseMax .load⟩)
  | ⟨durationNanos, .raiseMax loop⟩ =>
      (loop.advance metrics.maxNanos spurious).map fun r ↦
        ({ metrics with maxNanos := r.1 }, ⟨durationNanos, .raiseMax r.2⟩)

-- three loads, each of which sees the metrics of its own moment
def snapshot (atCount atTotal atMax : LatencyMetrics) : LatencyMetricsSnapshot where
  count := atCount.count
  totalNanos := atTotal.totalNanos
  maxNanos := atMax.maxNanos

def record : Program LatencyMetrics Recorder UInt64 Bool where
  call durationNanos := ⟨durationNanos, .addCount⟩
  step := recordStep

/-- Any number of recorders on the metrics of one stage; the input of a step says whether its exchange
fails spuriously. -/
def recorders : System (State LatencyMetrics Recorder) (Move UInt64 Bool) :=
  record.interleaved .default

theorem raiseTo_getD (durationNanos current : UInt64) :
    (raiseTo durationNanos current).getD current = max durationNanos current := by
  rw [raiseTo]
  change _ = if durationNanos ≤ current then current else durationNanos
  by_cases h : durationNanos > current
  · rw [if_pos h, if_neg (UInt64.not_le.mpr h), Option.getD_some]
  · rw [if_neg h, if_pos (UInt64.not_lt.mp h), Option.getD_none]

theorem recordStep_durationNanos {metrics : LatencyMetrics} {spurious : Bool} {p : Recorder}
    {r : LatencyMetrics × Recorder} (h : recordStep metrics spurious p = some r) :
    r.2.durationNanos = p.durationNanos := by
  rcases p with ⟨durationNanos, (_ | _ | loop)⟩
  · cases h
    rfl
  · cases h
    rfl
  · obtain ⟨q, -, rfl⟩ := Option.map_eq_some_iff.mp h
    rfl

/-- How many more steps a recorder takes at most while it is alone and no exchange fails spuriously. -/
def Recorder.rank (metrics : LatencyMetrics) : Recorder → Nat
  | ⟨_, .addCount⟩ => 4
  | ⟨_, .addTotal⟩ => 3
  | ⟨_, .raiseMax loop⟩ => loop.rank metrics.maxNanos

theorem recordStep_rank (metrics : LatencyMetrics) (p : Recorder) (h : ¬ p.returned = true) :
    ∃ spurious r, recordStep metrics spurious p = some r ∧ r.2.rank r.1 < p.rank metrics := by
  rcases p with ⟨durationNanos, (_ | _ | loop)⟩
  · exact ⟨false, _, rfl, Nat.lt_succ_self 3⟩
  · exact ⟨false, _, rfl, Nat.lt_succ_self 2⟩
  · have hloop : loop ≠ .done := by
      rintro rfl
      exact h rfl
    obtain ⟨r, hr, hlt⟩ := Loop.advance_rank hloop metrics.maxNanos
    refine ⟨false, ({ metrics with maxNanos := r.1 }, ⟨durationNanos, .raiseMax r.2⟩), ?_, hlt⟩
    rw [recordStep, hr]
    rfl

/-! ## Adding metrics up -/

instance : Std.LawfulOrderSup UInt64 where
  max_le_iff a b c := by
    change (if a ≤ b then b else a) ≤ c ↔ a ≤ c ∧ b ≤ c
    split
    case isTrue hab => exact (and_iff_right_of_imp (UInt64.le_trans hab)).symm
    case isFalse hab =>
      have hba := UInt64.le_of_lt (UInt64.not_le.mp hab)
      exact (and_iff_left_of_imp (UInt64.le_trans hba)).symm

theorem max_assoc (a b c : UInt64) : max (max a b) c = max a (max b c) :=
  Std.Associative.assoc a b c

theorem max_comm (a b : UInt64) : max a b = max b a := by
  apply UInt64.le_antisymm
  · exact Std.max_le_iff.mpr ⟨Std.right_le_max, Std.left_le_max⟩
  · exact Std.max_le_iff.mpr ⟨Std.right_le_max, Std.left_le_max⟩

theorem zero_max (a : UInt64) : max 0 a = a := if_pos UInt64.zero_le

instance : Zero LatencyMetrics := ⟨.default⟩

instance : Add LatencyMetrics where
  add a b := ⟨a.count + b.count, a.totalNanos + b.totalNanos, max a.maxNanos b.maxNanos⟩

instance : AddCommMonoid LatencyMetrics where
  add_assoc a b c :=
    LatencyMetrics.ext (add_assoc a.count b.count c.count)
      (add_assoc a.totalNanos b.totalNanos c.totalNanos)
      (max_assoc a.maxNanos b.maxNanos c.maxNanos)
  add_comm a b :=
    LatencyMetrics.ext (add_comm a.count b.count) (add_comm a.totalNanos b.totalNanos)
      (max_comm a.maxNanos b.maxNanos)
  zero_add a := LatencyMetrics.ext (zero_add a.count) (zero_add a.totalNanos) (zero_max a.maxNanos)
  add_zero a :=
    LatencyMetrics.ext (add_zero a.count) (add_zero a.totalNanos)
      ((max_comm a.maxNanos 0).trans (zero_max a.maxNanos))
  nsmul := nsmulRec

/-- The largest of the durations and 0. -/
def largest (durations : List UInt64) : UInt64 := durations.foldr max 0

theorem le_largest {durations : List UInt64} {d : UInt64} (h : d ∈ durations) :
    d ≤ largest durations := by
  induction durations with
  | nil => contradiction
  | cons e durations ih =>
      rcases List.mem_cons.mp h with rfl | hmem
      · exact Std.left_le_max
      · exact UInt64.le_trans (ih hmem) Std.right_le_max

theorem largest_le {durations : List UInt64} {bound : UInt64} (h : ∀ d ∈ durations, d ≤ bound) :
    largest durations ≤ bound := by
  induction durations with
  | nil => exact UInt64.zero_le
  | cons e durations ih =>
      obtain ⟨he, hrest⟩ := List.forall_mem_cons.mp h
      exact Std.max_le_iff.mpr ⟨he, ih hrest⟩

theorem maxNanos_sum (parts : List LatencyMetrics) :
    parts.sum.maxNanos = largest (parts.map maxNanos) := by
  induction parts with
  | nil => rfl
  | cons m parts ih =>
      rw [List.sum_cons, List.map_cons]
      exact congrArg (max m.maxNanos) ih

theorem count_sum (parts : List LatencyMetrics) : parts.sum.count = (parts.map count).sum := by
  induction parts with
  | nil => rfl
  | cons m parts ih =>
      rw [List.sum_cons, List.map_cons, List.sum_cons]
      exact congrArg (m.count + ·) ih

theorem sum_ones (durations : List UInt64) :
    (durations.map fun _ ↦ (1 : UInt64)).sum = UInt64.ofNat durations.length := by
  induction durations with
  | nil => rfl
  | cons d durations ih =>
      rw [List.map_cons, List.sum_cons, ih, List.length_cons, UInt64.ofNat_add, add_comm]
      rfl

/-! ## What a recorder has put in so far -/

/-- The metrics of one record. -/
def single (durationNanos : UInt64) : LatencyMetrics := ⟨1, durationNanos, durationNanos⟩

def Recorder.part : Recorder → LatencyMetrics
  | ⟨_, .addCount⟩ => 0
  | ⟨_, .addTotal⟩ => ⟨1, 0, 0⟩
  | ⟨durationNanos, .raiseMax .done⟩ => single durationNanos
  | ⟨durationNanos, .raiseMax _⟩ => ⟨1, durationNanos, 0⟩

theorem part_raiseMax {durationNanos : UInt64} {loop : Loop (raiseTo durationNanos)}
    (h : loop ≠ .done) : Recorder.part ⟨durationNanos, .raiseMax loop⟩ = ⟨1, durationNanos, 0⟩ := by
  cases loop with
  | load => rfl
  | retry current new hnew => rfl
  | done => contradiction

theorem record_framePreserving : record.FramePreserving Recorder.part := by
  intro p spurious rest r h
  rcases p with ⟨durationNanos, (_ | _ | loop)⟩
  · cases h
    apply LatencyMetrics.ext
    · change 0 + rest.count + 1 = 1 + rest.count
      rw [zero_add, add_comm]
    · rfl
    · rfl
  · cases h
    apply LatencyMetrics.ext
    · rfl
    · change 0 + rest.totalNanos + durationNanos = durationNanos + rest.totalNanos
      rw [zero_add, add_comm]
    · rfl
  · obtain ⟨⟨cell, next⟩, hadvance, rfl⟩ := Option.map_eq_some_iff.mp h
    obtain ⟨hloop, hcases⟩ := Loop.advance_cases hadvance
    rw [part_raiseMax hloop] at hcases ⊢
    rcases hcases with ⟨rfl, hnext⟩ | ⟨rfl, rfl⟩
    · rw [part_raiseMax hnext]
    · -- the last step takes the maximum with whatever the others have put in by then
      apply LatencyMetrics.ext
      · rfl
      · rfl
      · change (raiseTo durationNanos (max 0 rest.maxNanos)).getD (max 0 rest.maxNanos) =
          max durationNanos rest.maxNanos
        rw [raiseTo_getD, zero_max]

theorem metrics_eq_sum {s : State LatencyMetrics Recorder} (h : recorders.Reachable s) :
    s.shared = (s.parties.map Recorder.part).sum := by
  have hsum := Program.shared_eq_sum (fun _ ↦ rfl) record_framePreserving h
  rw [hsum]
  exact zero_add _

theorem part_returned {r : Recorder} (h : r.returned = true) : r.part = single r.durationNanos := by
  rcases r with ⟨durationNanos, (_ | _ | (_ | _ | _))⟩
  case raiseMax.done => rfl
  all_goals contradiction

theorem part_maxNanos_le (r : Recorder) : r.part.maxNanos ≤ r.durationNanos := by
  rcases r with ⟨durationNanos, (_ | _ | (_ | _ | _))⟩
  case raiseMax.done => exact UInt64.le_refl durationNanos
  all_goals exact UInt64.zero_le

/-! ## Runs of recorders -/

theorem map_durationNanos {moves : List (Move UInt64 Bool)} {s : State LatencyMetrics Recorder}
    (hexec : recorders.exec recorders.init moves = some s) :
    s.parties.map Recorder.durationNanos = arguments moves :=
  Program.map_parties (fun _ ↦ rfl) (fun _ _ _ _ h ↦ recordStep_durationNanos h) hexec

/-- When all recorders have returned, the metrics are those of the same records made one at a time. -/
theorem metrics_of_returned {moves : List (Move UInt64 Bool)} {s : State LatencyMetrics Recorder}
    (hexec : recorders.exec recorders.init moves = some s)
    (hreturned : ∀ r ∈ s.parties, r.returned = true) :
    s.shared = ((arguments moves).map single).sum := by
  rw [metrics_eq_sum ⟨moves, hexec⟩, ← map_durationNanos hexec, List.map_map]
  exact congrArg List.sum (List.map_congr_left fun r hr ↦ part_returned (hreturned r hr))

theorem maxNanos_of_returned {moves : List (Move UInt64 Bool)} {s : State LatencyMetrics Recorder}
    (hexec : recorders.exec recorders.init moves = some s)
    (hreturned : ∀ r ∈ s.parties, r.returned = true) :
    s.shared.maxNanos = largest (arguments moves) := by
  rw [metrics_of_returned hexec hreturned, maxNanos_sum, List.map_map]
  exact congrArg largest (List.map_id _)

theorem count_of_returned {moves : List (Move UInt64 Bool)} {s : State LatencyMetrics Recorder}
    (hexec : recorders.exec recorders.init moves = some s)
    (hreturned : ∀ r ∈ s.parties, r.returned = true) :
    s.shared.count.toNat = (arguments moves).length % 2 ^ 64 := by
  rw [metrics_of_returned hexec hreturned, count_sum, List.map_map]
  have hones : ((arguments moves).map (count ∘ single)).sum = UInt64.ofNat (arguments moves).length :=
    sum_ones (arguments moves)
  rw [hones, UInt64.toNat_ofNat']

theorem maxNanos_le_largest {moves : List (Move UInt64 Bool)} {s : State LatencyMetrics Recorder}
    (hexec : recorders.exec recorders.init moves = some s) :
    s.shared.maxNanos ≤ largest (arguments moves) := by
  rw [metrics_eq_sum ⟨moves, hexec⟩, maxNanos_sum, ← map_durationNanos hexec, List.map_map]
  apply largest_le
  intro d hd
  obtain ⟨r, hr, rfl⟩ := List.mem_map.mp hd
  exact UInt64.le_trans (part_maxNanos_le r) (le_largest (List.mem_map_of_mem hr))

theorem recordStep_maxNanos_le {metrics : LatencyMetrics} {spurious : Bool} {p : Recorder}
    {r : LatencyMetrics × Recorder} (h : recordStep metrics spurious p = some r) :
    metrics.maxNanos ≤ r.1.maxNanos := by
  rcases p with ⟨durationNanos, (_ | _ | loop)⟩
  · cases h
    exact UInt64.le_refl metrics.maxNanos
  · cases h
    exact UInt64.le_refl metrics.maxNanos
  · obtain ⟨⟨cell, next⟩, hadvance, rfl⟩ := Option.map_eq_some_iff.mp h
    rcases (Loop.advance_cases hadvance).2 with ⟨rfl, -⟩ | ⟨rfl, -⟩
    · exact UInt64.le_refl metrics.maxNanos
    · change metrics.maxNanos ≤ (raiseTo durationNanos metrics.maxNanos).getD metrics.maxNanos
      rw [raiseTo_getD]
      exact Std.right_le_max

theorem maxNanos_mono {moves : List (Move UInt64 Bool)} {s t : State LatencyMetrics Recorder}
    (hexec : recorders.exec s moves = some t) : s.shared.maxNanos ≤ t.shared.maxNanos := by
  apply Program.exec_shared (R := fun m n ↦ m.maxNanos ≤ n.maxNanos) _ _ _ hexec
  · exact fun m ↦ UInt64.le_refl m.maxNanos
  · exact fun hmn hno ↦ UInt64.le_trans hmn hno
  · exact fun m spurious p r h ↦ recordStep_maxNanos_le h

/-- The maximum never decreases and never exceeds the largest duration passed so far.  When all
recorders have returned it is the largest of 0 and all durations, and the count is the number of
records, as far as 64 bits hold it. -/
theorem recorders_maximum {moves : List (Move UInt64 Bool)} {s : State LatencyMetrics Recorder}
    (hexec : recorders.exec recorders.init moves = some s) :
    (∀ later t, recorders.exec s later = some t → s.shared.maxNanos ≤ t.shared.maxNanos) ∧
      s.shared.maxNanos ≤ largest (arguments moves) ∧
      ((∀ r ∈ s.parties, r.returned = true) →
        s.shared.maxNanos = largest (arguments moves) ∧
          s.shared.count.toNat = (arguments moves).length % 2 ^ 64) := by
  refine ⟨fun later t h ↦ maxNanos_mono h, maxNanos_le_largest hexec, fun hreturned ↦ ?_⟩
  exact ⟨maxNanos_of_returned hexec hreturned, count_of_returned hexec hreturned⟩

-- 5 loses an exchange to 3 and fails another one spuriously; 4 has nothing to raise at the end
theorem recorders_maximum_demo :
    ∃ moves s, recorders.exec recorders.init moves = some s ∧ arguments moves = [5, 3, 4] ∧
      (∀ later t, recorders.exec s later = some t → s.shared.maxNanos ≤ t.shared.maxNanos) ∧
      s.shared.maxNanos ≤ largest [5, 3, 4] ∧ s.shared.maxNanos = 5 ∧ s.shared.count.toNat = 3 := by
  have hexec : recorders.exec recorders.init [.call 5, .call 3, .step 0 false, .step 1 false,
      .step 1 false, .step 0 false, .step 1 false, .step 0 false, .step 1 false, .step 0 false, .call 4,
      .step 2 false, .step 0 true, .step 2 false, .step 2 false, .step 0 false, .step 2 false] =
        some ⟨⟨3, 12, 5⟩, [⟨5, .raiseMax .done⟩, ⟨3, .raiseMax .done⟩, ⟨4, .raiseMax .done⟩]⟩ := by
    rfl
  obtain ⟨hmono, hle, hend⟩ := recorders_maximum hexec
  exact ⟨_, _, hexec, rfl, hmono, hle, hend (by decide)⟩

/-- Every list of durations has a run in which all its recorders return. -/
theorem exists_run_returned (durations : List UInt64) :
    ∃ moves s, recorders.exec recorders.init moves = some s ∧ arguments moves = durations ∧
      ∀ r ∈ s.parties, r.returned = true :=
  Program.exists_run (Program.exists_alone recordStep_rank) LatencyMetrics.default durations

-- the counter has 64 bits
theorem recorders_count_wraps :
    ∃ moves s, recorders.exec recorders.init moves = some s ∧
      arguments moves = List.replicate (2 ^ 64) 0 ∧ (∀ r ∈ s.parties, r.returned = true) ∧
      s.shared.count.toNat ≠ (arguments moves).length := by
  obtain ⟨moves, s, hexec, hcalls, hreturned⟩ := exists_run_returned (List.replicate (2 ^ 64) 0)
  refine ⟨moves, s, hexec, hcalls, hreturned, ?_⟩
  have hlength : (arguments moves).length = 2 ^ 64 := by
    rw [hcalls]
    exact List.length_replicate
  have hcount := count_of_returned hexec hreturned
  rw [hlength] at hcount ⊢
  rw [hcount]
  decide

/-! ## Reading the metrics -/

theorem le_maxNanos_of_returned {s : State LatencyMetrics Recorder} (h : recorders.Reachable s)
    {r : Recorder} (hr : r ∈ s.parties) (hreturned : r.returned = true) :
    r.durationNanos ≤ s.shared.maxNanos := by
  have hpart : r.part.maxNanos = r.durationNanos := by
    rw [part_returned hreturned]
    rfl
  rw [metrics_eq_sum h, maxNanos_sum, List.map_map, ← hpart]
  exact le_largest (List.mem_map_of_mem hr)

/-- The loads of a snapshot may fall between the steps of any recorders: its maximum is at least every
duration recorded before it began, and at most the largest one passed before it ended. -/
theorem snapshot_maxNanos {moves second third : List (Move UInt64 Bool)}
    {s t u : State LatencyMetrics Recorder} (hs : recorders.exec recorders.init moves = some s)
    (ht : recorders.exec s second = some t) (hu : recorders.exec t third = some u) :
    (∀ r ∈ s.parties, r.returned = true →
      r.durationNanos ≤ (snapshot s.shared t.shared u.shared).maxNanos) ∧
      (snapshot s.shared t.shared u.shared).maxNanos ≤ largest (arguments (moves ++ second ++ third)) := by
  constructor
  · intro r hr hreturned
    have hbegan := le_maxNanos_of_returned ⟨moves, hs⟩ hr hreturned
    exact UInt64.le_trans hbegan (UInt64.le_trans (maxNanos_mono ht) (maxNanos_mono hu))
  · apply maxNanos_le_largest
    rw [System.exec_append, System.exec_append, hs]
    change (recorders.exec s second).bind _ = some u
    rw [ht]
    exact hu

end LatencyMetrics

end Tenon.Core
