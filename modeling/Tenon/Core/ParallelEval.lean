import Tenon.Core.StageMetrics

/-!
# ParallelEval — evaluating the matched rules on a thread pool

When a message matches enough rules they are evaluated by the threads of a pool.  The threads share the
stage metrics and write to them one atomic access at a time, in any interleaving; the attempts are
collected in the order of the rules.  Whatever the interleaving, the pool ends with the attempts and the
metrics of an evaluation in sequence.
-/

open Reasoning.Transition Reasoning.Interleaving

namespace Tenon.Core

/-! ## The tasks of the pool -/

/-- What a task goes on with behind a stage. -/
inductive TaskNext where
  | projection (rule : CompiledRule)
  | returned (attempt : Option EvalAttempt)

inductive TaskPhase where
  | predicate
  -- the timer of the stage is read, and the recording under way
  | finishing (stage : LatencyStage) (recorder : LatencyMetrics.Recorder) (next : TaskNext)
  | next (next : TaskNext)

structure PoolTask where
  ruleIndex : Nat
  phase : TaskPhase
  -- the durations it has recorded, which the source does not keep
  recorded : List (LatencyStage × UInt64)

namespace PoolTask

def returned (task : PoolTask) : Bool :=
  match task.phase with
  | .next (.returned _) => true
  | _ => false

def attempt (task : PoolTask) : Option EvalAttempt :=
  match task.phase with
  | .next (.returned attempt) => attempt
  | _ => none

def goOn (task : PoolTask) (next : TaskNext) : PoolTask := { task with phase := .next next }

-- without detailed metrics nothing is recorded
def finishStage (detailed : Bool) (task : PoolTask) (stage : LatencyStage) (durationNanos : UInt64)
    (next : TaskNext) : PoolTask :=
  if detailed then { task with phase := .finishing stage ⟨durationNanos, .addCount⟩ next }
  else task.goOn next

end PoolTask

section Pool

variable (C : Crates) (rules : List (Option CompiledRule)) (message : Message) (ir : MsgIr)
  (topicParts : List String) (detailed : Bool)

/-- One step of `evaluate_single_rule` on a thread of the pool.  The input is the duration that the timer
of a stage shows, and whether an exchange fails spuriously. -/
def taskStep (stages : LatencyStage → LatencyMetrics) (input : UInt64 × Bool) (task : PoolTask) :
    Option ((LatencyStage → LatencyMetrics) × PoolTask) :=
  match task.phase with
  | .predicate =>
      match liveRule rules task.ruleIndex with
      | none => some (stages, task.goOn (.returned none))
      | some rule =>
          match rule.wherePlan with
          | none => some (stages, task.goOn (.projection rule))
          | some plan =>
              match evaluatePlanBool plan ⟨message, ir, topicParts⟩ with
              | .error err =>
                  some (stages, task.goOn (.returned (some (toAttempt task.ruleIndex (.error err)))))
              | .ok false =>
                  some (stages, task.finishStage detailed .predicate input.1
                    (.returned (some (toAttempt task.ruleIndex (.ok none)))))
              | .ok true =>
                  some (stages, task.finishStage detailed .predicate input.1 (.projection rule))
  | .next (.projection rule) =>
      match rule.selectPlan with
      | .all =>
          some (stages, task.goOn (.returned (some (toAttempt task.ruleIndex (.ok (some message))))))
      | .columns columns =>
          match evaluateSelect C (.columns columns) ⟨message, ir, topicParts⟩ with
          | .error err =>
              some (stages, task.goOn (.returned (some (toAttempt task.ruleIndex (.error err)))))
          | .ok output =>
              some (stages, task.finishStage detailed .projection input.1
                (.returned (some (toAttempt task.ruleIndex (.ok (some output))))))
  | .finishing stage recorder next =>
      if recorder.returned then
        some (stages, ⟨task.ruleIndex, .next next, task.recorded ++ [(stage, recorder.durationNanos)]⟩)
      else
        (LatencyMetrics.recordStep (stages stage) input.2 recorder).map fun r ↦
          (Function.update stages stage r.1, { task with phase := .finishing stage r.2 next })
  | .next (.returned _) => none

def pool : Program (LatencyStage → LatencyMetrics) PoolTask Nat (UInt64 × Bool) where
  call ruleIndex := ⟨ruleIndex, .predicate, []⟩
  step := taskStep C rules message ir topicParts detailed

/-! ## What a task will have done -/

def TaskNext.remaining (ruleIndex : Nat) : TaskNext → Staged (Option EvalAttempt)
  | .projection rule =>
      (evaluateSelectStaged C rule ⟨message, ir, topicParts⟩).map fun r ↦ some (toAttempt ruleIndex r)
  | .returned attempt => ⟨[], attempt⟩

def TaskPhase.remaining (ruleIndex : Nat) : TaskPhase → Staged (Option EvalAttempt)
  | .predicate => evaluateSingleRuleStaged C rules message ir topicParts ruleIndex
  | .finishing _ _ following | .next following =>
      following.remaining C message ir topicParts ruleIndex

-- the stage whose recording is under way
def TaskPhase.underWay : TaskPhase → List LatencyStage
  | .finishing stage _ _ => [stage]
  | _ => []

/-- The stages that a task has recorded by its end, and its attempt. -/
def PoolTask.forecast (task : PoolTask) : List LatencyStage × Option EvalAttempt :=
  let remaining := task.phase.remaining C rules message ir topicParts task.ruleIndex
  (task.recorded.map Prod.fst ++ task.phase.underWay ++ if detailed then remaining.finished else [],
    remaining.result)

variable {C rules message ir topicParts detailed}

theorem forecast_finishStage (task : PoolTask) (stage : LatencyStage) (durationNanos : UInt64)
    (next : TaskNext) :
    (task.finishStage detailed stage durationNanos next).forecast C rules message ir topicParts detailed =
      (task.recorded.map Prod.fst ++ if detailed
          then stage :: (next.remaining C message ir topicParts task.ruleIndex).finished else [],
        (next.remaining C message ir topicParts task.ruleIndex).result) := by
  unfold PoolTask.finishStage PoolTask.forecast
  cases detailed with
  | false => simp [PoolTask.goOn, TaskPhase.underWay, TaskPhase.remaining]
  | true => simp [TaskPhase.underWay, TaskPhase.remaining]

theorem forecast_goOn (task : PoolTask) (next : TaskNext) :
    (task.goOn next).forecast C rules message ir topicParts detailed =
      (task.recorded.map Prod.fst ++ if detailed
          then (next.remaining C message ir topicParts task.ruleIndex).finished else [],
        (next.remaining C message ir topicParts task.ruleIndex).result) := by
  simp [PoolTask.forecast, PoolTask.goOn, TaskPhase.underWay, TaskPhase.remaining]

theorem forecast_idle {task : PoolTask} (hidle : task.phase.underWay = []) :
    task.forecast C rules message ir topicParts detailed =
      (task.recorded.map Prod.fst ++ if detailed
          then (task.phase.remaining C rules message ir topicParts task.ruleIndex).finished else [],
        (task.phase.remaining C rules message ir topicParts task.ruleIndex).result) := by
  rw [PoolTask.forecast, hidle, List.append_nil]

def TaskNext.rank : TaskNext → Nat
  | .projection _ => 6
  | .returned _ => 0

/-- How many more steps a task takes at most while it is alone and no exchange fails spuriously. -/
def PoolTask.rank (stages : LatencyStage → LatencyMetrics) (task : PoolTask) : Nat :=
  match task.phase with
  | .predicate => 12
  | .finishing stage recorder following => following.rank + 1 + recorder.rank (stages stage)
  | .next following => following.rank

variable (C rules message ir topicParts detailed) in
/-- What a step of a task does: it goes on, it begins to record a stage, and a record ends or goes on. -/
inductive TaskStep (stages : LatencyStage → LatencyMetrics) (input : UInt64 × Bool) (task : PoolTask) :
    (LatencyStage → LatencyMetrics) × PoolTask → Prop
  | goOn (next : TaskNext) (hidle : task.phase.underWay = [])
      (hremaining : task.phase.remaining C rules message ir topicParts task.ruleIndex =
        next.remaining C message ir topicParts task.ruleIndex)
      (hrank : next.rank + 5 < task.rank stages) :
      TaskStep stages input task (stages, task.goOn next)
  | finishStage (stage : LatencyStage) (next : TaskNext) (hidle : task.phase.underWay = [])
      (hremaining : task.phase.remaining C rules message ir topicParts task.ruleIndex =
        (next.remaining C message ir topicParts task.ruleIndex).after [stage])
      (hrank : next.rank + 5 < task.rank stages) :
      TaskStep stages input task (stages, task.finishStage detailed stage input.1 next)
  | recorded (stage : LatencyStage) (recorder : LatencyMetrics.Recorder) (next : TaskNext)
      (hphase : task.phase = .finishing stage recorder next) (hreturned : recorder.returned = true) :
      TaskStep stages input task
        (stages, ⟨task.ruleIndex, .next next, task.recorded ++ [(stage, recorder.durationNanos)]⟩)
  | record (stage : LatencyStage) (recorder recorder' : LatencyMetrics.Recorder)
      (metrics : LatencyMetrics) (next : TaskNext)
      (hphase : task.phase = .finishing stage recorder next)
      (hstep : LatencyMetrics.recordStep (stages stage) input.2 recorder = some (metrics, recorder')) :
      TaskStep stages input task
        (Function.update stages stage metrics, { task with phase := .finishing stage recorder' next })

theorem taskStep_cases {stages : LatencyStage → LatencyMetrics} {input : UInt64 × Bool}
    {task : PoolTask} {r : (LatencyStage → LatencyMetrics) × PoolTask}
    (h : taskStep C rules message ir topicParts detailed stages input task = some r) :
    TaskStep C rules message ir topicParts detailed stages input task r := by
  obtain ⟨ruleIndex, phase, recorded⟩ := task
  unfold taskStep at h
  match phase with
  | .predicate =>
      dsimp only at h
      cases hrule : liveRule rules ruleIndex with
      | none =>
          rw [hrule] at h
          cases h
          refine .goOn _ rfl ?_ (Nat.le_of_ble_eq_true rfl)
          simp only [TaskPhase.remaining, evaluateSingleRuleStaged, hrule, TaskNext.remaining]
      | some rule =>
          rw [hrule] at h
          dsimp only at h
          cases hwhere : rule.wherePlan with
          | none =>
              rw [hwhere] at h
              cases h
              refine .goOn _ rfl ?_ (Nat.le_of_ble_eq_true rfl)
              simp only [TaskPhase.remaining, evaluateSingleRuleStaged, hrule, evaluateRuleStaged, hwhere,
                TaskNext.remaining]
          | some plan =>
              rw [hwhere] at h
              dsimp only at h
              cases hpredicate : evaluatePlanBool plan ⟨message, ir, topicParts⟩ with
              | error err =>
                  rw [hpredicate] at h
                  cases h
                  refine .goOn _ rfl ?_ (Nat.le_of_ble_eq_true rfl)
                  simp only [TaskPhase.remaining, evaluateSingleRuleStaged, hrule, evaluateRuleStaged,
                    hwhere, hpredicate, TaskNext.remaining, Staged.map]
              | ok accepted =>
                  rw [hpredicate] at h
                  cases accepted with
                  | false =>
                      cases h
                      refine .finishStage _ _ rfl ?_ (Nat.le_of_ble_eq_true rfl)
                      simp only [TaskPhase.remaining, evaluateSingleRuleStaged, hrule, evaluateRuleStaged,
                        hwhere, hpredicate, TaskNext.remaining, Staged.map, Staged.after,
                        List.append_nil]
                  | true =>
                      cases h
                      refine .finishStage _ _ rfl ?_ (Nat.le_of_ble_eq_true rfl)
                      simp only [TaskPhase.remaining, evaluateSingleRuleStaged, hrule, evaluateRuleStaged,
                        hwhere, hpredicate, TaskNext.remaining, Staged.map, Staged.after]
  | .next (.projection rule) =>
      dsimp only at h
      cases hselect : rule.selectPlan with
      | all =>
          rw [hselect] at h
          cases h
          refine .goOn _ rfl ?_ (Nat.le_of_ble_eq_true rfl)
          simp only [TaskPhase.remaining, TaskNext.remaining, evaluateSelectStaged, hselect, Staged.map]
      | columns columns =>
          rw [hselect] at h
          dsimp only at h
          cases houtput : evaluateSelect C (.columns columns) ⟨message, ir, topicParts⟩ with
          | error err =>
              rw [houtput] at h
              cases h
              refine .goOn _ rfl ?_ (Nat.le_of_ble_eq_true rfl)
              simp only [TaskPhase.remaining, TaskNext.remaining, evaluateSelectStaged, hselect, houtput,
                Staged.map]
          | ok output =>
              rw [houtput] at h
              cases h
              refine .finishStage _ _ rfl ?_ (Nat.le_of_ble_eq_true rfl)
              simp only [TaskPhase.remaining, TaskNext.remaining, evaluateSelectStaged, hselect, houtput,
                Staged.map, Staged.after, List.append_nil]
  | .finishing stage recorder following =>
      dsimp only at h
      split at h
      case isTrue hreturned =>
        cases h
        exact .recorded stage recorder following rfl hreturned
      case isFalse =>
        obtain ⟨⟨metrics, recorder'⟩, hstep, rfl⟩ := Option.map_eq_some_iff.mp h
        exact .record stage recorder recorder' metrics following rfl hstep
  | .next (.returned attempt) => cases h

/-- No step changes what a task will have done. -/
theorem taskStep_forecast {stages : LatencyStage → LatencyMetrics} {input : UInt64 × Bool}
    {task : PoolTask} {r : (LatencyStage → LatencyMetrics) × PoolTask}
    (h : taskStep C rules message ir topicParts detailed stages input task = some r) :
    r.2.forecast C rules message ir topicParts detailed =
      task.forecast C rules message ir topicParts detailed := by
  cases taskStep_cases h with
  | goOn next hidle hremaining hrank => rw [forecast_goOn, forecast_idle hidle, hremaining]
  | finishStage stage next hidle hremaining hrank =>
      rw [forecast_finishStage, forecast_idle hidle, hremaining]
      rfl
  | recorded stage recorder next hphase hreturned =>
      simp [PoolTask.forecast, hphase, TaskPhase.underWay, TaskPhase.remaining]
  | record stage recorder recorder' metrics next hphase hstep =>
      simp only [PoolTask.forecast, hphase, TaskPhase.underWay, TaskPhase.remaining]

/-! ## What a task has put into the metrics -/

/-- The metrics of records made one after the other. -/
def recordedSum (recorded : List (LatencyStage × UInt64)) : LatencyStage → LatencyMetrics :=
  (recorded.map fun record ↦ Pi.single record.1 (LatencyMetrics.single record.2)).sum

theorem recordedSum_append (recorded records : List (LatencyStage × UInt64)) :
    recordedSum (recorded ++ records) = recordedSum recorded + recordedSum records := by
  rw [recordedSum, List.map_append, List.sum_append]
  rfl

def TaskPhase.part : TaskPhase → LatencyStage → LatencyMetrics
  | .finishing stage recorder _ => Pi.single stage recorder.part
  | _ => 0

def PoolTask.part (task : PoolTask) : LatencyStage → LatencyMetrics :=
  recordedSum task.recorded + task.phase.part

theorem part_goOn (task : PoolTask) (next : TaskNext) :
    (task.goOn next).part = recordedSum task.recorded := add_zero _

-- a stage begins with nothing recorded
theorem part_finishStage (task : PoolTask) (stage : LatencyStage) (durationNanos : UInt64)
    (next : TaskNext) :
    (task.finishStage detailed stage durationNanos next).part = recordedSum task.recorded := by
  unfold PoolTask.finishStage
  cases detailed with
  | false => exact part_goOn task next
  | true =>
      change recordedSum task.recorded + Pi.single stage 0 = _
      rw [Pi.single_zero, add_zero]

theorem part_idle {task : PoolTask} (hidle : task.phase.underWay = []) :
    task.part = recordedSum task.recorded := by
  obtain ⟨ruleIndex, phase, recorded⟩ := task
  cases phase with
  | finishing stage recorder following => cases hidle
  | _ => exact add_zero _

theorem pool_framePreserving :
    (pool C rules message ir topicParts detailed).FramePreserving PoolTask.part := by
  intro task input rest r h
  cases taskStep_cases h with
  | goOn next hidle hremaining hrank => rw [part_goOn, part_idle hidle]
  | finishStage stage next hidle hremaining hrank => rw [part_finishStage, part_idle hidle]
  | recorded stage recorder next hphase hreturned =>
      have hpart : task.part = recordedSum task.recorded + Pi.single stage recorder.part := by
        rw [PoolTask.part, hphase]
        rfl
      have hnext : PoolTask.part
          ⟨task.ruleIndex, .next next, task.recorded ++ [(stage, recorder.durationNanos)]⟩ =
          recordedSum task.recorded + Pi.single stage (LatencyMetrics.single recorder.durationNanos) := by
        change recordedSum (task.recorded ++ _) + 0 = _
        rw [add_zero, recordedSum_append]
        congr 1
        exact List.sum_singleton
      rw [hpart, hnext, LatencyMetrics.part_returned hreturned]
  | record stage recorder recorder' metrics next hphase hstep =>
      have hpart : task.part = recordedSum task.recorded + Pi.single stage recorder.part := by
        rw [PoolTask.part, hphase]
        rfl
      -- the other stages, and what the others recorded of this one, are left as they are
      have hstage : (task.part + rest) stage =
          recorder.part + (recordedSum task.recorded stage + rest stage) := by
        rw [hpart, Pi.add_apply, Pi.add_apply, Pi.single_eq_same, add_assoc, add_left_comm]
      rw [hstage] at hstep
      have hmetrics := LatencyMetrics.record_framePreserving recorder input.2 _ _ hstep
      funext other
      change (Function.update (task.part + rest) stage metrics : LatencyStage → LatencyMetrics) other =
        (recordedSum task.recorded +
          (Pi.single stage recorder'.part : LatencyStage → LatencyMetrics) + rest) other
      by_cases hother : other = stage
      · subst hother
        rw [Function.update_self, Pi.add_apply, Pi.add_apply, Pi.single_eq_same, add_assoc,
          add_left_comm]
        exact hmetrics
      · rw [Function.update_of_ne hother, hpart, Pi.add_apply, Pi.add_apply, Pi.add_apply,
          Pi.add_apply, Pi.single_eq_of_ne hother, Pi.single_eq_of_ne hother]

/-! ## Termination -/

theorem rank_finishStage (stages : LatencyStage → LatencyMetrics) (task : PoolTask)
    (stage : LatencyStage) (durationNanos : UInt64) (next : TaskNext) :
    (task.finishStage detailed stage durationNanos next).rank stages ≤ next.rank + 5 := by
  unfold PoolTask.finishStage
  cases detailed with
  | false => exact Nat.le_add_right _ 5
  | true => exact Nat.le_refl (next.rank + 5)

theorem rank_goOn (stages : LatencyStage → LatencyMetrics) (task : PoolTask) (next : TaskNext) :
    (task.goOn next).rank stages = next.rank := rfl

-- what is not being recorded can go on, whatever the timer shows
theorem exists_taskStep (stages : LatencyStage → LatencyMetrics) {task : PoolTask}
    (hidle : task.phase.underWay = []) (h : ¬ task.returned = true) :
    ∃ r, taskStep C rules message ir topicParts detailed stages (0, false) task = some r := by
  obtain ⟨ruleIndex, phase, recorded⟩ := task
  unfold taskStep
  match phase with
  | .predicate =>
      dsimp only
      repeat' split
      all_goals exact ⟨_, rfl⟩
  | .next (.projection rule) =>
      dsimp only
      repeat' split
      all_goals exact ⟨_, rfl⟩
  | .finishing stage recorder following => cases hidle
  | .next (.returned attempt) => exact absurd rfl h

theorem taskStep_rank (stages : LatencyStage → LatencyMetrics) (task : PoolTask)
    (h : ¬ task.returned = true) :
    ∃ input r, (pool C rules message ir topicParts detailed).step stages input task = some r ∧
      r.2.rank r.1 < task.rank stages := by
  by_cases hidle : task.phase.underWay = []
  · obtain ⟨r, hr⟩ := exists_taskStep stages hidle h
    refine ⟨(0, false), r, hr, ?_⟩
    cases taskStep_cases hr with
    | goOn next _ _ hrank =>
        rw [rank_goOn]
        omega
    | finishStage stage next _ _ hrank =>
        exact Nat.lt_of_le_of_lt (rank_finishStage stages task stage 0 next) hrank
    | recorded stage recorder next hphase hreturned =>
        rw [hphase] at hidle
        cases hidle
    | record stage recorder recorder' metrics next hphase hstep =>
        rw [hphase] at hidle
        cases hidle
  · obtain ⟨ruleIndex, phase, recorded⟩ := task
    cases phase with
    | finishing stage recorder following =>
        by_cases hreturned : recorder.returned = true
        · refine ⟨(0, false), (stages,
            ⟨ruleIndex, .next following, recorded ++ [(stage, recorder.durationNanos)]⟩), ?_, ?_⟩
          · exact if_pos hreturned
          · change following.rank < following.rank + 1 + _
            omega
        · obtain ⟨spurious, r, hr, hlt⟩ :=
            LatencyMetrics.recordStep_rank (stages stage) recorder hreturned
          refine ⟨(0, spurious), (Function.update stages stage r.1,
            ⟨ruleIndex, .finishing stage r.2 following, recorded⟩), ?_, ?_⟩
          · change (if _ then _ else (LatencyMetrics.recordStep _ spurious recorder).map _) = _
            rw [if_neg hreturned, hr]
            rfl
          · change following.rank + 1 + r.2.rank (Function.update stages stage r.1 stage) <
              following.rank + 1 + recorder.rank (stages stage)
            rw [Function.update_self]
            omega
    | _ => exact absurd rfl hidle

/-! ## Runs of the pool -/

variable {init : LatencyStage → LatencyMetrics} {moves : List (Move Nat (UInt64 × Bool))}
  {s : State (LatencyStage → LatencyMetrics) PoolTask}

theorem forecast_of_returned {task : PoolTask} (h : task.returned = true) :
    task.forecast C rules message ir topicParts detailed =
      (task.recorded.map Prod.fst, task.attempt) := by
  obtain ⟨ruleIndex, phase, recorded⟩ := task
  match phase with
  | .predicate => cases h
  | .finishing stage recorder following => cases h
  | .next (.projection rule) => cases h
  | .next (.returned attempt) =>
      simp [PoolTask.forecast, TaskPhase.underWay, TaskPhase.remaining, TaskNext.remaining,
        PoolTask.attempt]

theorem part_of_returned {task : PoolTask} (h : task.returned = true) :
    task.part = recordedSum task.recorded := by
  obtain ⟨ruleIndex, phase, recorded⟩ := task
  match phase with
  | .predicate => cases h
  | .finishing stage recorder following => cases h
  | .next following => exact add_zero _

theorem forecast_call (ruleIndex : Nat) :
    ((pool C rules message ir topicParts detailed).call ruleIndex).forecast C rules message ir
        topicParts detailed =
      (if detailed then (evaluateSingleRuleStaged C rules message ir topicParts ruleIndex).finished
        else [],
      (evaluateSingleRuleStaged C rules message ir topicParts ruleIndex).result) := rfl

/-- The stages that the tasks have recorded by their end, and their attempts, in the order of the rules. -/
theorem map_forecast
    (hexec : ((pool C rules message ir topicParts detailed).interleaved init).exec ⟨init, []⟩ moves =
      some s) (hreturned : ∀ task ∈ s.parties, task.returned = true) :
    s.parties.map (fun task ↦ (task.recorded.map Prod.fst, task.attempt)) =
      (arguments moves).map fun ruleIndex ↦
        (if detailed then (evaluateSingleRuleStaged C rules message ir topicParts ruleIndex).finished
          else [],
        (evaluateSingleRuleStaged C rules message ir topicParts ruleIndex).result) := by
  have hforecast := Program.map_unchanged (P := pool C rules message ir topicParts detailed)
    (f := PoolTask.forecast C rules message ir topicParts detailed)
    (fun _ _ _ _ h ↦ taskStep_forecast h) hexec
  rw [List.map_congr_left fun ruleIndex _ ↦ forecast_call ruleIndex] at hforecast
  rw [← hforecast]
  exact (List.map_congr_left fun task htask ↦ forecast_of_returned (hreturned task htask)).symm

theorem sum_parts (tasks : List PoolTask) (hreturned : ∀ task ∈ tasks, task.returned = true) :
    (tasks.map PoolTask.part).sum = recordedSum (tasks.flatMap PoolTask.recorded) := by
  induction tasks with
  | nil => rfl
  | cons task rest ih =>
      rw [List.map_cons, List.sum_cons, List.flatMap_cons, recordedSum_append,
        part_of_returned (hreturned task List.mem_cons_self),
        ih fun other hother ↦ hreturned other (List.mem_cons_of_mem _ hother)]

theorem shared_of_returned
    (hexec : ((pool C rules message ir topicParts detailed).interleaved init).exec ⟨init, []⟩ moves =
      some s) (hreturned : ∀ task ∈ s.parties, task.returned = true) :
    s.shared = init + recordedSum (s.parties.flatMap PoolTask.recorded) := by
  rw [← sum_parts s.parties hreturned]
  refine Program.shared_eq_sum (fun ruleIndex ↦ ?_) pool_framePreserving ⟨moves, hexec⟩
  exact add_zero _

theorem recorded_of_returned
    (hexec : ((pool C rules message ir topicParts detailed).interleaved init).exec ⟨init, []⟩ moves =
      some s) (hreturned : ∀ task ∈ s.parties, task.returned = true) :
    (s.parties.flatMap PoolTask.recorded).map Prod.fst = if detailed then
      (evaluateMatchedStaged C rules message ir topicParts (arguments moves)).finished else [] := by
  have hmap := congrArg (List.map Prod.fst) (map_forecast hexec hreturned)
  rw [List.map_map, List.map_map] at hmap
  rw [List.map_flatMap, List.flatMap_def]
  change s.parties.map (fun task ↦ task.recorded.map Prod.fst) = _ at hmap
  rw [hmap]
  cases detailed with
  | true => exact List.flatMap_def.symm
  | false =>
      change ((arguments moves).map fun _ ↦ []).flatten = []
      simp

theorem attempts_of_returned
    (hexec : ((pool C rules message ir topicParts detailed).interleaved init).exec ⟨init, []⟩ moves =
      some s) (hreturned : ∀ task ∈ s.parties, task.returned = true) :
    s.parties.filterMap PoolTask.attempt =
      (evaluateMatchedStaged C rules message ir topicParts (arguments moves)).result := by
  have hmap := congrArg (List.map Prod.snd) (map_forecast hexec hreturned)
  rw [List.map_map, List.map_map] at hmap
  have hleft : s.parties.filterMap PoolTask.attempt =
      (s.parties.map PoolTask.attempt).filterMap id := by
    rw [List.filterMap_map]
    rfl
  rw [hleft]
  change s.parties.map PoolTask.attempt = _ at hmap
  rw [hmap, List.filterMap_map]
  rfl

end Pool

/-! ## The pool and the loop -/

def defaultEvalParallelThreshold : Nat := 64

-- `set_eval_parallel_threshold`
def evalParallelThreshold (threshold : Option Nat) : Nat :=
  max (threshold.getD defaultEvalParallelThreshold) 1

-- the pool may be missing, or have one thread
def useParallel (threshold : Option Nat) (workers : Option Nat) (matched : List Nat) : Bool :=
  decide (evalParallelThreshold threshold ≤ matched.length) &&
    (workers.map fun count ↦ decide (1 < count)).getD false

section Agreement

variable (C : Crates) (rules : List (Option CompiledRule)) (message : Message) (ir : MsgIr)
  (metered : MeteredEngine) (threshold workers : Option Nat) (matched : List Nat)

/-- The pool on the stage metrics of an engine. -/
def enginePool : System (State (LatencyStage → LatencyMetrics) PoolTask) (Move Nat (UInt64 × Bool)) :=
  (pool C rules message ir (sharedTopicParts rules message matched)
    metered.detailedLatencyEnabled).interleaved metered.stages

-- the stages and attempts of the loop over the matched rules
def evaluateMatchedLoop : Staged (List EvalAttempt) :=
  evaluateMatchedStaged C rules message ir (sharedTopicParts rules message matched) matched

/-- The attempts that `evaluate_matched_rules_with_decoded_payload` can collect, and the stage metrics it
can leave. -/
inductive MatchedAttempts : List EvalAttempt → (LatencyStage → LatencyMetrics) → Prop where
  | parallel {moves : List (Move Nat (UInt64 × Bool))}
      {s : State (LatencyStage → LatencyMetrics) PoolTask}
      (huse : useParallel threshold workers matched = true)
      (hexec : (enginePool C rules message ir metered matched).exec ⟨metered.stages, []⟩ moves = some s)
      (hcalls : arguments moves = matched)
      (hreturned : ∀ task ∈ s.parties, task.returned = true) :
      MatchedAttempts (s.parties.filterMap PoolTask.attempt) s.shared
  | sequential {records : List (LatencyStage × UInt64)}
      (huse : useParallel threshold workers matched = false)
      (hrecords : records.map Prod.fst = (evaluateMatchedLoop C rules message ir matched).finished) :
      MatchedAttempts (evaluateMatchedLoop C rules message ir matched).result
        (metered.finishStages records).stages

variable {C rules message ir metered threshold workers matched}

theorem stages_finishStages (metered : MeteredEngine) (records : List (LatencyStage × UInt64)) :
    (metered.finishStages records).stages =
      metered.stages + if metered.detailedLatencyEnabled then recordedSum records else 0 := by
  induction records generalizing metered with
  | nil =>
      change metered.stages = metered.stages + if _ then 0 else 0
      rw [ite_self, add_zero]
  | cons record rest ih =>
      rw [MeteredEngine.finishStages_cons, ih, MeteredEngine.finishStage_detailed,
        MeteredEngine.finishStage]
      split
      · rw [add_assoc]
        rfl
      · rfl

theorem evaluateMatchedLoop_result : (evaluateMatchedLoop C rules message ir matched).result =
    evaluateMatchedRulesWithDecodedPayload C rules message ir matched := by
  change matched.filterMap _ = matched.filterMap _
  congr 1
  funext i
  exact evaluateSingleRuleStaged_result C rules message ir _ i

theorem exists_stages_of_returned {moves : List (Move Nat (UInt64 × Bool))}
    {s : State (LatencyStage → LatencyMetrics) PoolTask}
    (hexec : (enginePool C rules message ir metered matched).exec ⟨metered.stages, []⟩ moves = some s)
    (hcalls : arguments moves = matched) (hreturned : ∀ task ∈ s.parties, task.returned = true) :
    ∃ records : List (LatencyStage × UInt64),
      records.map Prod.fst = (evaluateMatchedLoop C rules message ir matched).finished ∧
        s.shared = (metered.finishStages records).stages := by
  have hshared := shared_of_returned hexec hreturned
  have hrecorded := recorded_of_returned hexec hreturned
  rw [hcalls] at hrecorded
  cases hdetailed : metered.detailedLatencyEnabled with
  | true =>
      rw [hdetailed, if_pos rfl] at hrecorded
      refine ⟨_, hrecorded, ?_⟩
      rw [stages_finishStages, hdetailed, if_pos rfl, hshared]
  | false =>
      rw [hdetailed, if_neg Bool.false_ne_true, List.map_eq_nil_iff] at hrecorded
      refine ⟨(evaluateMatchedLoop C rules message ir matched).finished.map (·, 0), ?_, ?_⟩
      · rw [List.map_map]
        exact List.map_id _
      · rw [stages_finishStages, hdetailed, if_neg Bool.false_ne_true, hshared, hrecorded]
        rfl

variable (C rules message ir metered threshold workers matched) in
/-- Every evaluation can end: on the pool all tasks return in some run. -/
theorem exists_matchedAttempts : ∃ attempts stages,
    MatchedAttempts C rules message ir metered threshold workers matched attempts stages := by
  cases huse : useParallel threshold workers matched with
  | true =>
      obtain ⟨moves, s, hexec, hcalls, hreturned⟩ : ∃ moves s,
          (enginePool C rules message ir metered matched).exec ⟨metered.stages, []⟩ moves = some s ∧
            arguments moves = matched ∧ ∀ task ∈ s.parties, task.returned = true :=
        Program.exists_run (Program.exists_alone taskStep_rank) metered.stages matched
      exact ⟨_, _, .parallel huse hexec hcalls hreturned⟩
  | false =>
      have hrecords : ((evaluateMatchedLoop C rules message ir matched).finished.map
          fun stage ↦ (stage, (0 : UInt64))).map Prod.fst =
          (evaluateMatchedLoop C rules message ir matched).finished := by
        rw [List.map_map]
        exact List.map_id _
      exact ⟨_, _, .sequential huse hrecords⟩

/-- However many threads the pool has and however their steps interleave, the attempts are those of the
plain loop in the order of the matched rules, and the stage metrics are those the loop leaves for some
durations.  The tasks of a pool can always all return. -/
theorem parallel_agrees :
    (∀ attempts stages,
      MatchedAttempts C rules message ir metered threshold workers matched attempts stages →
        attempts = evaluateMatchedRulesWithDecodedPayload C rules message ir matched ∧
          ∃ records : List (LatencyStage × UInt64),
            records.map Prod.fst = (evaluateMatchedLoop C rules message ir matched).finished ∧
              stages = (metered.finishStages records).stages) ∧
      (∀ moves s, (enginePool C rules message ir metered matched).exec ⟨metered.stages, []⟩ moves =
          some s → ∃ later t, (enginePool C rules message ir metered matched).exec s later = some t ∧
            arguments later = [] ∧ ∀ task ∈ t.parties, task.returned = true) := by
  constructor
  · intro attempts stages h
    rw [← evaluateMatchedLoop_result]
    cases h with
    | parallel huse hexec hcalls hreturned =>
        refine ⟨?_, exists_stages_of_returned hexec hcalls hreturned⟩
        rw [attempts_of_returned hexec hreturned, hcalls]
        rfl
    | sequential huse hrecords => exact ⟨rfl, _, hrecords, rfl⟩
  · intro moves s _
    exact Program.exists_all_returned (Program.exists_alone taskStep_rank) metered.stages s

end Agreement

-- two rules on a pool of two threads
theorem parallel_agrees_demo : ∃ attempts stages,
    MatchedAttempts demoCrates (demoEngine [selectAll "t", selectAll "+"]).rules (Message.new "t" [])
        MsgIr.new (MeteredEngine.new .json 1) (some 1) (some 2) [1, 0] attempts stages ∧
      attempts = evaluateMatchedRulesWithDecodedPayload demoCrates
        (demoEngine [selectAll "t", selectAll "+"]).rules (Message.new "t" []) MsgIr.new [1, 0] := by
  obtain ⟨attempts, stages, h⟩ := exists_matchedAttempts demoCrates
    (demoEngine [selectAll "t", selectAll "+"]).rules (Message.new "t" []) MsgIr.new
    (MeteredEngine.new .json 1) (some 1) (some 2) [1, 0]
  exact ⟨attempts, stages, h, (parallel_agrees.1 attempts stages h).1⟩

end Tenon.Core
