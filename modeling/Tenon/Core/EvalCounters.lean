import Tenon.Core.MatchedSlots

/-!
# EvalCounters — the evaluation counters of a run

What one message adds to the counters is stated on the rules alone.  Every matched rule whose group
decodes is counted once, as an error, a result or a WHERE clause that is false, and every group that
does not decode is counted once as a payload error.
-/

open Reasoning Reasoning.Transition

namespace Tenon.Core

/-! ## Attempts by their outcome -/

-- no result and no error: the WHERE clause was false
def EvalAttempt.rejected (attempt : EvalAttempt) : Bool :=
  attempt.evaluation.isNone && attempt.error.isNone

section Attempts

variable (C : Crates) {decoder : PayloadDecoder} {rules : List (Option CompiledRule)}
  {message : Message}

theorem evaluateRule_ok_none_iff (rule : CompiledRule) (ir : MsgIr) (parts : List String) :
    evaluateRuleWithPayloadAndTopicParts C rule message ir parts = .ok none ↔
      evaluatePredicate rule.wherePlan ⟨message, ir, parts⟩ = .ok false := by
  rw [evaluateRuleWithPayloadAndTopicParts]
  cases evaluatePredicate rule.wherePlan ⟨message, ir, parts⟩ with
  | error e => exact iff_of_false error_ne_ok error_ne_ok
  | ok accepted =>
      cases accepted with
      | false => exact iff_of_true rfl rfl
      | true =>
          change (evaluateSelect C rule.selectPlan _).map some = .ok none ↔ _
          cases evaluateSelect C rule.selectPlan ⟨message, ir, parts⟩ <;> simp [Except.map]

theorem slotAttempt_isSome {i : Nat} (hi : i ∈ matchedSlots rules message) :
    (slotAttempt C decoder rules message i).isSome =
      (groupPayload C decoder rules message (slotSchema decoder rules i)).toOption.isSome := by
  obtain ⟨rule, hrule, -⟩ := mem_matchedSlots.mp hi
  rw [slotAttempt]
  cases (groupPayload C decoder rules message (slotSchema decoder rules i)).toOption with
  | none => rfl
  | some ir =>
      rw [Option.bind_some, evaluateSingleRule, hrule]
      rfl

theorem evaluateSingleRule_rejected_iff {i : Nat} {rule : CompiledRule}
    (hrule : liveRule rules i = some rule) (ir : MsgIr) (parts : List String) :
    (evaluateSingleRule C rules message ir parts i).any EvalAttempt.rejected = true ↔
      evaluateRuleWithPayloadAndTopicParts C rule message ir parts = .ok none := by
  rw [evaluateSingleRule, hrule, Option.map_some, Option.any_some]
  rcases evaluateRuleWithPayloadAndTopicParts C rule message ir parts with err | (_ | out)
  · exact iff_of_false Bool.false_ne_true error_ne_ok
  · exact iff_of_true rfl rfl
  · exact iff_of_false Bool.false_ne_true (by simp)

theorem rejects_iff {i : Nat} {rule : CompiledRule} (hrule : liveRule rules i = some rule) {ir : MsgIr}
    (hpayload : groupPayload C decoder rules message (slotSchema decoder rules i) = .ok ir) :
    rejects C decoder rules message i = true ↔
      evaluatePredicate rule.wherePlan ⟨message, ir, levels message.topic⟩ = .ok false := by
  unfold rejects
  rw [hrule, hpayload]
  dsimp only
  rcases evaluatePredicate rule.wherePlan ⟨message, ir, levels message.topic⟩ with e | (_ | _)
  · exact iff_of_false Bool.false_ne_true error_ne_ok
  · exact iff_of_true rfl rfl
  · exact iff_of_false Bool.false_ne_true (by simp)

theorem slotAttempt_rejected {i : Nat} (hi : i ∈ matchedSlots rules message) :
    (slotAttempt C decoder rules message i).any EvalAttempt.rejected =
      rejects C decoder rules message i := by
  obtain ⟨rule, hrule, -⟩ := mem_matchedSlots.mp hi
  cases hpayload : groupPayload C decoder rules message (slotSchema decoder rules i) with
  | error err =>
      unfold slotAttempt rejects
      rw [hrule, hpayload]
      rfl
  | ok ir =>
      rw [Bool.eq_iff_iff, rejects_iff C hrule hpayload, slotAttempt, hpayload]
      change (evaluateSingleRule C rules message ir (levels message.topic) i).any
        EvalAttempt.rejected = true ↔ _
      rw [evaluateSingleRule_rejected_iff C hrule, evaluateRule_ok_none_iff]

theorem length_filterMap_slotAttempt :
    ((matchedSlots rules message).filterMap (slotAttempt C decoder rules message)).length =
      (decodedSlots C decoder rules message).length := by
  rw [List.length_filterMap_eq_countP, decodedSlots, ← List.countP_eq_length_filter]
  exact List.countP_congr fun i hi ↦ by rw [slotAttempt_isSome C hi]

theorem countP_rejected :
    ((matchedSlots rules message).filterMap (slotAttempt C decoder rules message)).countP
        EvalAttempt.rejected = (rejectedSlots C decoder rules message).length := by
  rw [List.countP_filterMap, rejectedSlots, ← List.countP_eq_length_filter]
  apply List.countP_congr
  intro i hi
  rw [← slotAttempt_rejected C hi]
  cases slotAttempt C decoder rules message i <;> rfl

-- every attempt ends in one of three ways
theorem attempt_cases {ir : MsgIr} {parts : List String} {i : Nat} {attempt : EvalAttempt}
    (h : evaluateSingleRule C rules message ir parts i = some attempt) :
    attempt.evaluation = none ∨ attempt.error = none := by
  obtain ⟨rule, -, rfl⟩ := Option.map_eq_some_iff.mp h
  split
  · exact Or.inr rfl
  · exact Or.inl rfl
  · exact Or.inl rfl

-- as many results as attempts that are neither rejected nor failed
theorem length_results (outcome : EvalOutcome)
    (h : ∀ attempt ∈ outcome.attempts, attempt.evaluation = none ∨ attempt.error = none) :
    outcome.attempts.length = outcome.attempts.countP (·.error.isSome) + outcome.results.length +
      outcome.attempts.countP EvalAttempt.rejected := by
  rw [EvalOutcome.results, List.length_filterMap_eq_countP]
  generalize outcome.attempts = attempts at h
  induction attempts with
  | nil => rfl
  | cons attempt rest ih =>
      have ih := ih fun a ha ↦ h a (List.mem_cons_of_mem _ ha)
      have hattempt := h attempt List.mem_cons_self
      rw [List.countP_cons, List.countP_cons, List.countP_cons, List.length_cons, ih,
        EvalAttempt.rejected]
      cases hevaluation : attempt.evaluation with
      | none => cases attempt.error <;> simp <;> omega
      | some result =>
          rw [hevaluation] at hattempt
          rw [hattempt.resolve_left (Option.some_ne_none result)]
          simp
          omega

theorem attempt_one_way {attempt : EvalAttempt}
    (h : attempt ∈ (matchedSlots rules message).filterMap (slotAttempt C decoder rules message)) :
    attempt.evaluation = none ∨ attempt.error = none := by
  obtain ⟨i, -, hattempt⟩ := List.mem_filterMap.mp h
  obtain ⟨ir, -, hsingle⟩ := Option.bind_eq_some_iff.mp hattempt
  exact attempt_cases C hsingle

theorem map_ruleIndex_slotAttempt :
    ((matchedSlots rules message).filterMap (slotAttempt C decoder rules message)).map
        EvalAttempt.ruleIndex = decodedSlots C decoder rules message := by
  rw [List.map_filterMap, decodedSlots, ← List.filterMap_eq_filter]
  apply List.filterMap_congr
  intro i hi
  obtain ⟨rule, hrule, -⟩ := mem_matchedSlots.mp hi
  rw [slotAttempt, Option.guard]
  cases (groupPayload C decoder rules message (slotSchema decoder rules i)).toOption with
  | none => rfl
  | some ir =>
      obtain ⟨attempt, hattempt, hindex⟩ :=
        evaluateSingleRule_live C message ir (levels message.topic) hrule
      rw [Option.bind_some, hattempt, Option.map_some, hindex]
      rfl

end Attempts

/-! ## The counters of a run -/

namespace EvalMetrics

def payloadErrorCount (metrics : EvalMetrics) : Nat :=
  metrics.payloadSchemaErrorCount + metrics.payloadDecodeErrorCount + metrics.payloadBuildErrorCount

/-- `metrics'` counts so many more attempts, failed attempts and failed decodes. -/
structure Adds (metrics metrics' : EvalMetrics) (attempts errors payloadErrors : Nat) : Prop where
  evalCount : metrics'.evalCount = metrics.evalCount + attempts
  evalErrorCount : metrics'.evalErrorCount = metrics.evalErrorCount + errors
  payloadErrorCount : metrics'.payloadErrorCount = metrics.payloadErrorCount + payloadErrors
  typeErrors : metrics.evalTypeErrorCount ≤ metrics.evalErrorCount →
    metrics'.evalTypeErrorCount ≤ metrics'.evalErrorCount

theorem Adds.refl (metrics : EvalMetrics) : Adds metrics metrics 0 0 0 := ⟨rfl, rfl, rfl, id⟩

theorem Adds.trans {m₁ m₂ m₃ : EvalMetrics} {a b c a' b' c' : Nat} (h : Adds m₁ m₂ a b c)
    (h' : Adds m₂ m₃ a' b' c') : Adds m₁ m₃ (a + a') (b + b') (c + c') where
  evalCount := by rw [h'.evalCount, h.evalCount, Nat.add_assoc]
  evalErrorCount := by rw [h'.evalErrorCount, h.evalErrorCount, Nat.add_assoc]
  payloadErrorCount := by rw [h'.payloadErrorCount, h.payloadErrorCount, Nat.add_assoc]
  typeErrors hle := h'.typeErrors (h.typeErrors hle)

theorem adds_recordAttempt (metrics : EvalMetrics) (attempt : EvalAttempt) :
    Adds metrics (metrics.recordAttempt attempt) 1 (if attempt.error.isSome then 1 else 0) 0 := by
  unfold recordAttempt
  cases attempt.error with
  | none => exact ⟨rfl, rfl, rfl, id⟩
  | some error =>
      refine ⟨rfl, rfl, rfl, fun hle ↦ ?_⟩
      change metrics.evalTypeErrorCount + _ ≤ metrics.evalErrorCount + 1
      split <;> omega

theorem adds_recordPayloadError (metrics : EvalMetrics) (kind : PayloadErrorKind) :
    Adds metrics (metrics.recordPayloadError kind) 0 0 1 := by
  have hcount : (metrics.recordPayloadError kind).payloadErrorCount = metrics.payloadErrorCount + 1 := by
    unfold payloadErrorCount
    cases kind <;> simp only [recordPayloadError] <;> omega
  cases kind <;> exact ⟨rfl, rfl, hcount, id⟩

theorem adds_attempts (metrics : EvalMetrics) (attempts : List EvalAttempt) :
    Adds metrics (attempts.foldl recordAttempt metrics) attempts.length
      (attempts.countP (·.error.isSome)) 0 := by
  induction attempts generalizing metrics with
  | nil => exact Adds.refl metrics
  | cons attempt rest ih =>
      have hadds := (adds_recordAttempt metrics attempt).trans (ih (metrics.recordAttempt attempt))
      rw [List.length_cons, List.countP_cons, Nat.add_comm rest.length,
        Nat.add_comm (rest.countP _)]
      exact hadds

theorem adds_payloadErrors (metrics : EvalMetrics) (kinds : List PayloadErrorKind) :
    Adds metrics (kinds.foldl recordPayloadError metrics) 0 0 kinds.length := by
  induction kinds generalizing metrics with
  | nil => exact Adds.refl metrics
  | cons kind rest ih =>
      have hadds := (adds_recordPayloadError metrics kind).trans (ih (metrics.recordPayloadError kind))
      rw [List.length_cons, Nat.add_comm rest.length]
      exact hadds

theorem adds_recordOutcome (metrics : EvalMetrics) (outcome : EvalOutcome) :
    Adds metrics (RuleEngine.recordOutcome metrics outcome) outcome.attempts.length
      (outcome.attempts.countP (·.error.isSome)) outcome.payloadErrors.length := by
  have hadds := (adds_attempts metrics outcome.attempts).trans
    (adds_payloadErrors _ outcome.payloadErrors)
  rw [Nat.add_zero, Nat.add_zero, Nat.zero_add] at hadds
  exact hadds

end EvalMetrics

/-- What a run asks for and gives: the matched live rules whose group decoded, the groups that did not
decode, the results, and the rules whose WHERE clause was false. -/
structure Tally where
  evaluated : Nat
  failed : Nat
  results : Nat
  rejected : Nat

def EngineOp.tally (C : Crates) (decoder : PayloadDecoder) (engine : RuleEngine) : EngineOp → Tally
  | .evaluate order message =>
      { evaluated := (decodedSlots C decoder engine.rules message).length
        failed := (failedSchemas C decoder engine.rules message).length
        results := (engine.evaluate C order message).2.results.length
        rejected := (rejectedSlots C decoder engine.rules message).length }
  | _ => ⟨0, 0, 0, 0⟩

def Tally.add (tally more : Tally) : Tally where
  evaluated := tally.evaluated + more.evaluated
  failed := tally.failed + more.failed
  results := tally.results + more.results
  rejected := tally.rejected + more.rejected

/-- The sum over the operations of a run, each in the engine it is applied to. -/
def runTally (C : Crates) (decoder : PayloadDecoder) (engine : RuleEngine) : List EngineOp → Tally
  | [] => ⟨0, 0, 0, 0⟩
  | op :: rest => (op.tally C decoder engine).add (runTally C decoder (op.apply C engine) rest)

def runOps (C : Crates) (engine : RuleEngine) (ops : List EngineOp) : RuleEngine :=
  ops.foldl (EngineOp.apply C) engine

/-- The counters balance: nothing is counted twice and nothing is left out. -/
structure Balanced (metrics : EvalMetrics) (tally : Tally) : Prop where
  evaluated : metrics.evalCount = tally.evaluated
  failed : metrics.payloadSchemaErrorCount + metrics.payloadDecodeErrorCount +
    metrics.payloadBuildErrorCount = tally.failed
  typeErrors : metrics.evalTypeErrorCount ≤ metrics.evalErrorCount
  errors : metrics.evalErrorCount ≤ metrics.evalCount
  succeeded : metrics.evalCount - metrics.evalErrorCount = tally.results + tally.rejected

section Run

variable {C : Crates} {decoder : PayloadDecoder} {capacity : Nat} {engine : RuleEngine}

-- only an evaluation counts
theorem metrics_evaluate (order : HashOrder) (message : Message) :
    (engine.evaluate C order message).1.metrics =
      RuleEngine.recordOutcome engine.metrics (engine.evaluate C order message).2 := by
  unfold RuleEngine.evaluate
  split <;> rfl

theorem metrics_apply (op : EngineOp) (hop : ∀ order message, op ≠ .evaluate order message) :
    (op.apply C engine).metrics = engine.metrics := by
  cases op with
  | addRule rule =>
      rw [EngineOp.apply]
      rcases addRule_cases C engine rule with ⟨err, hadd, -⟩ | ⟨compiled, -, hadd⟩
      · rw [hadd]
      · rw [hadd]
        rfl
  | removeRule ruleId =>
      rw [EngineOp.apply]
      rcases removeRule_cases engine ruleId with ⟨-, hremove⟩ | ⟨index, -, hremove⟩
      · rw [hremove]
      · rw [hremove]
        rfl
  | loadRules bytes =>
      rw [EngineOp.apply, RuleEngine.loadRulesFromJsonBytes]
      cases C.ruleFileFromSlice bytes with
      | error err => rfl
      | ok parsed =>
          exact addRules_induction (P := fun e ↦ e.metrics = engine.metrics)
            (fun _ _ _ hs _ ↦ hs) rfl 0 parsed
  | evaluate order message => exact absurd rfl (hop order message)

/-- An operation adds to the counters what it is due, with as many failed attempts as are neither
results nor rejected. -/
theorem adds_apply (h : WellFormed decoder engine) (honce : CachedOnce engine) (op : EngineOp) :
    ∃ errors, EvalMetrics.Adds engine.metrics (op.apply C engine).metrics
        (op.tally C decoder engine).evaluated errors (op.tally C decoder engine).failed ∧
      (op.tally C decoder engine).evaluated =
        errors + (op.tally C decoder engine).results + (op.tally C decoder engine).rejected := by
  by_cases hop : ∃ order message, op = .evaluate order message
  · obtain ⟨order, message, rfl⟩ := hop
    obtain ⟨hattempts, herrors⟩ := h.outcome (C := C) honce order message
    have hlength := hattempts.length_eq
    rw [length_filterMap_slotAttempt] at hlength
    have hrejected := hattempts.countP_eq EvalAttempt.rejected
    rw [countP_rejected] at hrejected
    have hresults := length_results (engine.evaluate C order message).2 fun attempt hmem ↦
      attempt_one_way C (hattempts.mem_iff.mp hmem)
    have hadds := EvalMetrics.adds_recordOutcome engine.metrics (engine.evaluate C order message).2
    rw [← metrics_evaluate, hlength, herrors] at hadds
    rw [hlength, hrejected] at hresults
    exact ⟨_, hadds, hresults⟩
  · have hother : ∀ order message, op ≠ .evaluate order message :=
      fun order message heq ↦ hop ⟨order, message, heq⟩
    have htally : op.tally C decoder engine = ⟨0, 0, 0, 0⟩ := by
      cases op with
      | evaluate order message => exact absurd rfl (hother order message)
      | _ => rfl
    rw [htally, metrics_apply op hother]
    exact ⟨0, EvalMetrics.Adds.refl _, rfl⟩

/-- A run adds to the counters what its operations are due. -/
theorem adds_runOps (h : (engineSystem C decoder capacity).Reachable engine) (ops : List EngineOp) :
    ∃ errors, EvalMetrics.Adds engine.metrics (runOps C engine ops).metrics
        (runTally C decoder engine ops).evaluated errors (runTally C decoder engine ops).failed ∧
      (runTally C decoder engine ops).evaluated =
        errors + (runTally C decoder engine ops).results +
          (runTally C decoder engine ops).rejected := by
  induction ops generalizing engine with
  | nil => exact ⟨0, EvalMetrics.Adds.refl _, rfl⟩
  | cons op rest ih =>
      obtain ⟨errors, hadds, hsum⟩ := adds_apply (C := C) (wellFormed h) (cachedOnce h) op
      obtain ⟨more, hmore, hrest⟩ := ih (h.step (a := op) rfl)
      refine ⟨errors + more, hadds.trans hmore, ?_⟩
      simp only [runTally, Tally.add]
      omega

/-- Along every run the counters of an engine with fresh metrics balance, and every evaluation
attempts each matched live rule whose group decodes exactly once. -/
theorem counters_balance (h : (engineSystem C decoder capacity).Reachable engine)
    (hfresh : engine.metrics = EvalMetrics.new) (ops : List EngineOp) :
    Balanced (runOps C engine ops).metrics (runTally C decoder engine ops) ∧
      ∀ order message,
        (((runOps C engine ops).evaluate C order message).2.attempts.map
            EvalAttempt.ruleIndex).Perm
          (decodedSlots C decoder (runOps C engine ops).rules message) := by
  constructor
  · obtain ⟨errors, hadds, hsum⟩ := adds_runOps (C := C) h ops
    rw [hfresh] at hadds
    have hcount : (runOps C engine ops).metrics.evalCount =
        (runTally C decoder engine ops).evaluated := hadds.evalCount.trans (Nat.zero_add _)
    have herror : (runOps C engine ops).metrics.evalErrorCount = errors :=
      hadds.evalErrorCount.trans (Nat.zero_add _)
    have hfailed := hadds.payloadErrorCount.trans (Nat.zero_add _)
    exact ⟨hcount, hfailed, hadds.typeErrors (Nat.le_refl 0), by omega, by omega⟩
  · intro order message
    have hreach : (engineSystem C decoder capacity).Reachable (runOps C engine ops) := by
      clear hfresh
      induction ops generalizing engine with
      | nil => exact h
      | cons op rest ih => exact ih (h.step (a := op) rfl)
    obtain ⟨hattempts, -⟩ := (wellFormed hreach).outcome (C := C) (cachedOnce hreach) order message
    have hindexes := hattempts.map EvalAttempt.ruleIndex
    rwa [map_ruleIndex_slotAttempt] at hindexes

end Run

theorem counters_balance_demo :
    Balanced
      (runOps demoCrates (RuleEngine.newWithCacheCapacity .json 1)
        [.addRule ⟨selectAll "t", [], none⟩,
          .evaluate HashOrder.increasing (Message.new "t" [])]).metrics
      (runTally demoCrates .json (RuleEngine.newWithCacheCapacity .json 1)
        [.addRule ⟨selectAll "t", [], none⟩,
          .evaluate HashOrder.increasing (Message.new "t" [])]) :=
  (counters_balance (engineSystem demoCrates .json 1).reachable_init rfl _).1

end Tenon.Core
