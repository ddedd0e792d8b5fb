import Tenon.Core.MatchedSlots

/-!
# Forwarding — rules that hand on every message their filter matches

A rule `select *` without a WHERE clause reads nothing of the payload.  While a JSON engine has only such
rules no payload is decoded, and a message is handed on as it is, once by each rule that matches it.
-/

namespace Tenon.Core

structure Forwards (rule : CompiledRule) : Prop where
  select : rule.selectPlan = .all
  condition : rule.wherePlan = none

-- every live rule of an engine does
def ForwardsAll (rules : List (Option CompiledRule)) : Prop :=
  ∀ i rule, liveRule rules i = some rule → Forwards rule

section Slots

variable {C : Crates} {rules : List (Option CompiledRule)} {message : Message} {rule : CompiledRule}

theorem Forwards.requiredPayloadFields_eq (h : Forwards rule) : rule.requiredPayloadFields = [] := by
  rw [rule.hfields, h.select, h.condition]
  rfl

theorem Forwards.evaluate (h : Forwards rule) (ir : MsgIr) (parts : List String) :
    evaluateRuleWithPayloadAndTopicParts C rule message ir parts = .ok (some message) := by
  rw [evaluateRuleWithPayloadAndTopicParts, h.select, h.condition]
  rfl

theorem ForwardsAll.decodePlan_eq (h : ForwardsAll rules) (matched : List Nat) :
    decodePlan rules matched = .none := by
  have hnone : collectRequiredFields rules matched = [] := by
    rw [List.eq_nil_iff_forall_not_mem]
    intro field hfield
    obtain ⟨i, -, rule, hrule, hmem⟩ := mem_collectRequiredFields.mp hfield
    rw [(h i rule hrule).requiredPayloadFields_eq] at hmem
    exact absurd hmem List.not_mem_nil
  rw [decodePlan, hnone]
  rfl

-- whatever the bytes of the payload
theorem ForwardsAll.slotAttempt_eq (h : ForwardsAll rules) {i : Nat} (hi : i ∈ matchedSlots rules message) :
    slotAttempt C .json rules message i = some ⟨i, some ⟨i, message⟩, none⟩ := by
  obtain ⟨rule, hrule, -⟩ := mem_matchedSlots.mp hi
  have hpayload : groupPayload C .json rules message (slotSchema .json rules i) = .ok MsgIr.new := by
    rw [groupPayload, h.decodePlan_eq]
    rfl
  rw [slotAttempt, hpayload]
  show evaluateSingleRule C rules message MsgIr.new (levels message.topic) i = _
  rw [evaluateSingleRule, hrule, Option.map_some, (h i rule hrule).evaluate]

end Slots

/-- While an engine has only forwarding rules, a message comes out unchanged of each rule whose filter
matches it, whatever its payload holds. -/
theorem results_of_forwardsAll {C : Crates} {engine : RuleEngine} (h : WellFormed .json engine)
    (honce : CachedOnce engine) (hall : ForwardsAll engine.rules) (order : HashOrder)
    (message : Message) :
    (engine.evaluate C order message).2.results.Perm
      ((matchedSlots engine.rules message).map fun i ↦ ⟨i, message⟩) := by
  have hattempts := ((h.outcome (C := C) honce order message).1).filterMap EvalAttempt.evaluation
  have hresults : ((matchedSlots engine.rules message).filterMap
      (slotAttempt C .json engine.rules message)).filterMap EvalAttempt.evaluation =
        (matchedSlots engine.rules message).map fun i ↦ ⟨i, message⟩ := by
    rw [List.filterMap_filterMap, ← List.filterMap_eq_map]
    apply List.filterMap_congr
    intro i hi
    rw [hall.slotAttempt_eq hi]
    rfl
  rw [hresults] at hattempts
  exact hattempts

end Tenon.Core
