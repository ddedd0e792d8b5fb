import Tenon.Core.EvalCounters
import Tenon.Core.PredicateValue

/-!
# RuleOutcome — what the outcome of a rule says

A result needs the WHERE clause and the columns to have values, an error comes from one of them, and
the required fields of a rule are read from the payload itself, whichever rules it is decoded for.
-/

open Reasoning

namespace Tenon.Core

section Rule

variable {C : Crates} {rule : CompiledRule} {message : Message} {ir : MsgIr} {parts : List String}

-- the first column that fails decides the error of a projection
theorem projectColumns_error {ctx : EvalContext} {columns : List PlannedColumn} {output : JsonMap}
    {error : EvalError} (h : projectColumns ctx output columns = .error error) :
    ∃ column ∈ columns, evaluatePlanValue column.expr ctx = .error error := by
  induction columns generalizing output with
  | nil => contradiction
  | cons column rest ih =>
      rw [projectColumns] at h
      cases hvalue : evaluatePlanValue column.expr ctx with
      | error e =>
          rw [hvalue] at h
          cases h
          exact ⟨column, List.mem_cons_self, hvalue⟩
      | ok value =>
          rw [hvalue] at h
          obtain ⟨other, hother, herror⟩ := ih h
          exact ⟨other, List.mem_cons_of_mem _ hother, herror⟩

-- a projection needs the values of all its columns
theorem projectColumns_ok {ctx : EvalContext} {columns : List PlannedColumn} {output result : JsonMap}
    (h : projectColumns ctx output columns = .ok result) :
    ∀ column ∈ columns, ∃ value, evaluatePlanValue column.expr ctx = .ok value := by
  induction columns generalizing output with
  | nil => exact fun column hcolumn ↦ absurd hcolumn List.not_mem_nil
  | cons column rest ih =>
      rw [projectColumns] at h
      obtain ⟨value, hvalue, hrest⟩ := bind_eq_ok.mp h
      intro other hother
      rcases List.mem_cons.mp hother with rfl | hmem
      · exact ⟨value, hvalue⟩
      · exact ih hrest other hmem

/-- How the evaluation of a rule ends in an error. -/
theorem evaluateRule_error {error : EvalError}
    (h : evaluateRuleWithPayloadAndTopicParts C rule message ir parts = .error error) :
    (∃ plan ∈ rule.wherePlan, evaluatePlanBool plan ⟨message, ir, parts⟩ = .error error) ∨
      ∃ columns, rule.selectPlan = .columns columns ∧ (error = .projectionSerialization ∨
        ∃ column ∈ columns, evaluatePlanValue column.expr ⟨message, ir, parts⟩ = .error error) := by
  rw [evaluateRuleWithPayloadAndTopicParts] at h
  cases hpredicate : evaluatePredicate rule.wherePlan ⟨message, ir, parts⟩ with
  | error e =>
      rw [hpredicate] at h
      cases h
      cases hwhere : rule.wherePlan with
      | none =>
          rw [hwhere] at hpredicate
          contradiction
      | some plan =>
          rw [hwhere] at hpredicate
          exact Or.inl ⟨plan, rfl, hpredicate⟩
  | ok accepted =>
      rw [hpredicate] at h
      cases accepted with
      | false => contradiction
      | true =>
          change (evaluateSelect C rule.selectPlan _).map some = .error error at h
          cases hselect : rule.selectPlan with
          | all =>
              rw [hselect] at h
              contradiction
          | columns columns =>
              rw [hselect, evaluateSelect_columns] at h
              refine Or.inr ⟨columns, rfl, ?_⟩
              cases hproject : projectColumns ⟨message, ir, parts⟩ [] columns with
              | error e =>
                  rw [hproject] at h
                  cases h
                  exact Or.inr (projectColumns_error hproject)
              | ok output =>
                  rw [hproject] at h
                  change (((C.valueToVec (.object output)).mapError _).map _).map some = _ at h
                  cases hvec : C.valueToVec (.object output) with
                  | ok bytes =>
                      rw [hvec] at h
                      contradiction
                  | error text =>
                      rw [hvec] at h
                      cases h
                      exact Or.inl rfl

/-- A result needs the WHERE clause to be true and a value for every column. -/
theorem evaluateRule_some {output : Message}
    (h : evaluateRuleWithPayloadAndTopicParts C rule message ir parts = .ok (some output)) :
    (∀ plan ∈ rule.wherePlan, evaluatePlanBool plan ⟨message, ir, parts⟩ = .ok true) ∧
      ∀ columns, rule.selectPlan = .columns columns → ∀ column ∈ columns,
        ∃ value, evaluatePlanValue column.expr ⟨message, ir, parts⟩ = .ok value := by
  rw [evaluateRuleWithPayloadAndTopicParts] at h
  obtain ⟨accepted, hpredicate, hselect⟩ := bind_eq_ok.mp h
  cases accepted with
  | false => cases hselect
  | true =>
      constructor
      · intro plan hplan
        rw [Option.mem_def.mp hplan] at hpredicate
        exact hpredicate
      · intro columns hcolumns
        change (evaluateSelect C rule.selectPlan _).map some = _ at hselect
        obtain ⟨message', hmessage, -⟩ := map_eq_ok.mp hselect
        rw [hcolumns, evaluateSelect_columns] at hmessage
        obtain ⟨result, hresult, -⟩ := bind_eq_ok.mp hmessage
        exact projectColumns_ok hresult

-- a projection keeps the topic and nothing else of the message
theorem topic_of_result {output : Message}
    (h : evaluateRuleWithPayloadAndTopicParts C rule message ir parts = .ok (some output)) :
    output.topic = message.topic := by
  rw [evaluateRuleWithPayloadAndTopicParts] at h
  obtain ⟨accepted, -, hselect⟩ := bind_eq_ok.mp h
  cases accepted with
  | false => cases hselect
  | true =>
      change (evaluateSelect C rule.selectPlan _).map some = _ at hselect
      obtain ⟨output', houtput, heq⟩ := map_eq_ok.mp hselect
      cases heq
      cases hplan : rule.selectPlan with
      | all =>
          rw [hplan] at houtput
          cases houtput
          rfl
      | columns columns =>
          rw [hplan, evaluateSelect_columns] at houtput
          obtain ⟨object, -, hvec⟩ := bind_eq_ok.mp houtput
          cases hbytes : C.valueToVec (.object object) with
          | error text =>
              rw [hbytes] at hvec
              cases hvec
          | ok bytes =>
              rw [hbytes] at hvec
              cases hvec
              rfl

end Rule

section Slots

variable {C : Crates} {decoder : PayloadDecoder} {rules : List (Option CompiledRule)}
  {message : Message} {i : Nat} {rule : CompiledRule}

/-- What is decoded for a group of rules answers the required fields of each of them as the payload
does. -/
theorem exists_view {schema : String} {matched : List Nat} {ir : MsgIr}
    (hrule : liveRule rules i = some rule) (hi : i ∈ matched)
    (hdecoded : decodePayloadIr C message.payload decoder (decodePlan rules matched) schema = .ok ir)
    {f : CompiledPayloadField} (hf : f ∈ rule.requiredPayloadFields) :
    ∃ find, payloadView C message.payload schema decoder = some find ∧
      ir.getField f = find f.segments := by
  have hrequired : f ∈ collectRequiredFields rules matched :=
    mem_collectRequiredFields.mpr ⟨i, hi, rule, hrule, hf⟩
  have hanswers := answersAs_decodePlan C rules message decoder schema matched
  rw [hdecoded] at hanswers
  obtain ⟨find, hview, hfields⟩ := hanswers
  have hread : payloadView C message.payload schema decoder = some find := by
    cases hcollected : collectRequiredFields rules matched with
    | nil =>
        rw [hcollected] at hrequired
        exact absurd hrequired List.not_mem_nil
    | cons field rest =>
        unfold sharedView at hview
        rw [hcollected] at hview
        cases decoder <;> exact hview
  exact ⟨find, hread, hfields f hrequired⟩

/-- The attempt of a slot is that of its rule on the payload of its group. -/
theorem exists_of_slotAttempt {attempt : EvalAttempt}
    (h : slotAttempt C decoder rules message i = some attempt) :
    attempt.ruleIndex = i ∧ ∃ rule ir, liveRule rules i = some rule ∧
      groupPayload C decoder rules message (slotSchema decoder rules i) = .ok ir ∧
      (∀ error, attempt.error = some error →
        evaluateRuleWithPayloadAndTopicParts C rule message ir (levels message.topic) = .error error) ∧
      ∀ result, attempt.evaluation = some result → result.ruleIndex = i ∧
        evaluateRuleWithPayloadAndTopicParts C rule message ir (levels message.topic) =
          .ok (some result.message) := by
  obtain ⟨ir, hir, hsingle⟩ := Option.bind_eq_some_iff.mp h
  have hpayload : groupPayload C decoder rules message (slotSchema decoder rules i) = .ok ir := by
    cases hgroup : groupPayload C decoder rules message (slotSchema decoder rules i) with
    | error err =>
        rw [hgroup] at hir
        contradiction
    | ok ir' =>
        rw [hgroup] at hir
        rw [Option.some.inj hir]
  obtain ⟨rule, hrule, rfl⟩ := Option.map_eq_some_iff.mp hsingle
  refine ⟨?_, rule, ir, hrule, hpayload, ?_⟩
  · split <;> rfl
  · rcases hresult : evaluateRuleWithPayloadAndTopicParts C rule message ir (levels message.topic) with
      err | (_ | output)
    · exact ⟨fun error herror ↦ congrArg Except.error (Option.some.inj herror), nofun⟩
    · exact ⟨nofun, nofun⟩
    · refine ⟨nofun, fun result hevaluation ↦ ?_⟩
      cases hevaluation
      exact ⟨rfl, rfl⟩

end Slots

end Tenon.Core
