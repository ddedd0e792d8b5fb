import Tenon.Core.EngineMatching
import Tenon.Core.Footprint

/-!
# EngineOutcome — what one rule gets out of a message

The results of an evaluation are traced back to the slots they came from: every result belongs to a
live slot, and a matched live slot gets the result of its rule on the decoded payload, whatever other
rules were matched.
-/

namespace Tenon.Core

-- the message a rule puts out, if it fires
def ruleOutput (C : Crates) (rule : CompiledRule) (message : Message) (ir : MsgIr)
    (topicParts : List String) : Option Message :=
  match evaluateRuleWithPayloadAndTopicParts C rule message ir topicParts with
  | .ok evaluated => evaluated
  | .error _ => none

/-- The messages that the results of one slot carry. -/
def EvalOutcome.messagesOf (outcome : EvalOutcome) (i : Nat) : List Message :=
  (outcome.results.filter (·.ruleIndex = i)).map RuleEvaluation.message

theorem messagesOf_append (outcome more : EvalOutcome) (i : Nat) :
    (outcome.append more).messagesOf i = outcome.messagesOf i ++ more.messagesOf i := by
  unfold EvalOutcome.messagesOf EvalOutcome.results EvalOutcome.append
  rw [List.filterMap_append, List.filter_append, List.map_append]

section Slots

variable (C : Crates) (rules : List (Option CompiledRule)) (message : Message)

-- the result of a slot: nothing for a dead one, and for a live one what its rule puts out
def slotResult (ir : MsgIr) (topicParts : List String) (i : Nat) : Option RuleEvaluation :=
  (liveRule rules i).bind fun rule ↦ (ruleOutput C rule message ir topicParts).map (RuleEvaluation.mk i)

theorem evaluation_evaluateSingleRule (ir : MsgIr) (topicParts : List String) (i : Nat) :
    (evaluateSingleRule C rules message ir topicParts i).bind EvalAttempt.evaluation =
      slotResult C rules message ir topicParts i := by
  unfold evaluateSingleRule slotResult ruleOutput
  cases liveRule rules i with
  | none => rfl
  | some rule =>
      change EvalAttempt.evaluation _ = _
      dsimp only [Option.bind_some]
      rcases evaluateRuleWithPayloadAndTopicParts C rule message ir topicParts with err | (_ | out) <;>
        rfl

theorem slotResult_ruleIndex {ir : MsgIr} {topicParts : List String} {i : Nat}
    {result : RuleEvaluation} (h : slotResult C rules message ir topicParts i = some result) :
    result.ruleIndex = i ∧ (liveRule rules i).isSome := by
  obtain ⟨rule, hrule, hresult⟩ := Option.bind_eq_some_iff.mp h
  obtain ⟨output, -, rfl⟩ := Option.map_eq_some_iff.mp hresult
  exact ⟨rfl, by rw [hrule]; rfl⟩

-- the topic levels are split only when some matched rule asks for them
def sharedTopicParts (matched : List Nat) : List String :=
  if matchedRulesRequireTopicParts rules matched then levels message.topic else []

theorem results_evaluateMatched (ir : MsgIr) (matched : List Nat) :
    (EvalOutcome.mk (evaluateMatchedRulesWithDecodedPayload C rules message ir matched) []).results =
      matched.filterMap (slotResult C rules message ir (sharedTopicParts rules message matched)) := by
  change ((matched.filterMap _).filterMap EvalAttempt.evaluation) = _
  rw [List.filterMap_filterMap]
  congr 1
  funext i
  exact evaluation_evaluateSingleRule C rules message ir _ i

theorem filter_filterMap_slotResult (ir : MsgIr) (topicParts : List String) {matched : List Nat}
    (hnodup : matched.Nodup) (i : Nat) :
    (matched.filterMap (slotResult C rules message ir topicParts)).filter (·.ruleIndex = i) =
      if i ∈ matched then (slotResult C rules message ir topicParts i).toList else [] := by
  induction matched with
  | nil => rfl
  | cons j rest ih =>
      obtain ⟨hj, hrest⟩ := List.nodup_cons.mp hnodup
      have ih := ih hrest
      by_cases hij : i = j
      · -- the slot itself: the rest has no result of it
        subst hij
        rw [if_neg hj] at ih
        rw [if_pos List.mem_cons_self]
        cases hresult : slotResult C rules message ir topicParts i with
        | none => rw [List.filterMap_cons_none hresult, ih]; rfl
        | some result =>
            obtain ⟨hindex, -⟩ := slotResult_ruleIndex C rules message hresult
            rw [List.filterMap_cons_some hresult, List.filter_cons_of_pos (by simp [hindex]), ih]
            rfl
      · have hmem : i ∈ j :: rest ↔ i ∈ rest := by simp [hij]
        simp only [hmem, ← ih]
        cases hresult : slotResult C rules message ir topicParts j with
        | none => rw [List.filterMap_cons_none hresult]
        | some result =>
            obtain ⟨hindex, -⟩ := slotResult_ruleIndex C rules message hresult
            rw [List.filterMap_cons_some hresult,
              List.filter_cons_of_neg (by simpa [hindex] using Ne.symm hij)]

-- a fold whose steps each add the elements with a property
theorem mem_foldl_iff {α β : Type} {step : List α → β → List α} {a : α} (P : β → Prop)
    (hstep : ∀ as b, a ∈ step as b ↔ a ∈ as ∨ P b) (as : List α) (bs : List β) :
    a ∈ bs.foldl step as ↔ a ∈ as ∨ ∃ b ∈ bs, P b := by
  induction bs generalizing as with
  | nil => simp
  | cons b rest ih =>
      rw [List.foldl_cons, ih, hstep]
      simp [or_assoc]

variable {rules} in
theorem mem_collectRequiredFields {matched : List Nat} {f : CompiledPayloadField} :
    f ∈ collectRequiredFields rules matched ↔
      ∃ i ∈ matched, ∃ rule, liveRule rules i = some rule ∧ f ∈ rule.requiredPayloadFields := by
  unfold collectRequiredFields
  rw [mem_foldl_iff fun i ↦ ∃ rule, liveRule rules i = some rule ∧ f ∈ rule.requiredPayloadFields]
  · simp
  · intro fields i
    cases hrule : liveRule rules i with
    | none => simp
    | some rule => simp [mem_foldl_pushUnseen]

/-- A matched live slot has the result of its rule, on the topic levels of the message. -/
theorem messagesOf_evaluateMatched (ir : MsgIr) {matched : List Nat} (hnodup : matched.Nodup)
    {i : Nat} {rule : CompiledRule} (hrule : liveRule rules i = some rule) (hi : i ∈ matched) :
    (EvalOutcome.mk (evaluateMatchedRulesWithDecodedPayload C rules message ir matched) []).messagesOf
        i = (ruleOutput C rule message ir (levels message.topic)).toList := by
  have hparts : ruleOutput C rule message ir (sharedTopicParts rules message matched) =
      ruleOutput C rule message ir (levels message.topic) := by
    have hneeds : rule.requiresTopicParts = true →
        sharedTopicParts rules message matched = levels message.topic := by
      intro hrequires
      apply if_pos
      exact List.any_eq_true.mpr ⟨i, hi, by rw [hrule]; exact hrequires⟩
    unfold ruleOutput
    rw [evaluateRule_congr C rule message (fun f _ ↦ rfl) hneeds]
  unfold EvalOutcome.messagesOf
  rw [results_evaluateMatched, filter_filterMap_slotResult C rules message ir _ hnodup, if_pos hi,
    slotResult, hrule, Option.bind_some, hparts]
  cases ruleOutput C rule message ir (levels message.topic) <;> rfl

end Slots

/-! ## Results belong to live slots -/

section Live

variable (C : Crates) (rules : List (Option CompiledRule)) (message : Message)

theorem live_of_mem_evaluateGroup {decoder : PayloadDecoder} {schema : String} {matched : List Nat}
    {result : RuleEvaluation}
    (h : result ∈ (evaluateGroup C rules message decoder schema matched).results) :
    result.ruleIndex ∈ matched ∧ (liveRule rules result.ruleIndex).isSome := by
  unfold evaluateGroup at h
  split at h
  · change result ∈ (EvalOutcome.mk (evaluateMatchedRulesWithDecodedPayload ..) []).results at h
    rw [results_evaluateMatched] at h
    obtain ⟨i, hi, hslot⟩ := List.mem_filterMap.mp h
    obtain ⟨rfl, hlive⟩ := slotResult_ruleIndex C rules message hslot
    exact ⟨hi, hlive⟩
  · cases h

-- a slot outside the matched ones has no result
theorem messagesOf_evaluateGroup_of_not_mem {decoder : PayloadDecoder} {schema : String}
    {matched : List Nat} {i : Nat} (hi : i ∉ matched) :
    (evaluateGroup C rules message decoder schema matched).messagesOf i = [] := by
  rw [EvalOutcome.messagesOf, List.map_eq_nil_iff, List.filter_eq_nil_iff]
  intro result hresult hindex
  obtain ⟨hmatched, -⟩ := live_of_mem_evaluateGroup C rules message hresult
  exact hi (of_decide_eq_true hindex ▸ hmatched)

theorem live_of_mem_evaluateGroups {decoder : PayloadDecoder} {groups : List ProtobufSchemaRuleGroup}
    {result : RuleEvaluation}
    (h : result ∈ (evaluateProtobufRuleGroups C rules message decoder groups).results) :
    (liveRule rules result.ruleIndex).isSome := by
  induction groups with
  | nil => cases h
  | cons group rest ih =>
      rw [evaluateProtobufRuleGroups, EvalOutcome.results, EvalOutcome.append,
        List.filterMap_append, List.mem_append] at h
      rcases h with h | h
      · exact (live_of_mem_evaluateGroup C rules message h).2
      · exact ih h

/-- No result comes from an empty slot, in any engine. -/
theorem live_of_mem_results {engine : RuleEngine} {order : HashOrder} {result : RuleEvaluation}
    (h : result ∈ (engine.evaluate C order message).2.results) :
    ∃ rule, liveRule engine.rules result.ruleIndex = some rule := by
  rw [← Option.isSome_iff_exists]
  unfold RuleEngine.evaluate at h
  split at h
  · dsimp only at h
    split at h
    · cases h
    · exact (live_of_mem_evaluateGroup C engine.rules message h).2
  · exact live_of_mem_evaluateGroups C engine.rules message h

end Live

end Tenon.Core
