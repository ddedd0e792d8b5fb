import Tenon.Core.Footprint
import Tenon.Core.JsonPaths

/-!
# DecodePlans — when the sparse and the full JSON plan agree

The sparse plan walks nested objects only; the full plan also finds a field under a key that holds a
dot itself, and prefers it.  The plans agree on a field exactly when no such spelling of it overrides
the nested value.
-/

open Reasoning Reasoning.Binary64

namespace Tenon.Core

/-- Both plans decode the object, return the same for every required field, and every rule that
reads required fields only evaluates the same under both. -/
def PlansAgree (map : JsonMap) (fields : List CompiledPayloadField) : Prop :=
  ∃ sparse full, MsgIr.fromJsonObjectWithDecodePlan map (.sparse fields) = .ok sparse ∧
    MsgIr.fromJsonObjectWithDecodePlan map .full = .ok full ∧
    (∀ f ∈ fields, sparse.getField f = full.getField f) ∧
    ∀ (C : Crates) (rule : CompiledRule) (message : Message) (topicParts : List String),
      (∀ f ∈ rule.requiredPayloadFields, f ∈ fields) →
        evaluateRuleWithPayloadAndTopicParts C rule message sparse topicParts =
          evaluateRuleWithPayloadAndTopicParts C rule message full topicParts

theorem or_eq_right_iff {α : Type} {x y : Option α} :
    y = x.or y ↔ ∀ v, x = some v → y = some v := by
  cases x with
  | none => simp
  | some v => simp

/-- The plans agree exactly when, for each required field, the value under the last key path that
spells the field with a dotted key, if there is one, is the nested value of the field. -/
theorem plansAgree_iff (o : JsonObject) {fields : List CompiledPayloadField} (hne : fields ≠ []) :
    PlansAgree o.1 fields ↔ ∀ f ∈ fields, ∀ v,
      (dottedSpellings o.1 f.key).getLast? = some v → nestedValue o.1 f.key = some v := by
  obtain ⟨sparse, hsparse, hget⟩ := exists_sparse o.1 hne
  obtain ⟨full, hfull, hgetFull⟩ := exists_full o
  have hfield (f : CompiledPayloadField) (hf : f ∈ fields) :
      sparse.getField f = full.getField f ↔
        ∀ v, (dottedSpellings o.1 f.key).getLast? = some v → nestedValue o.1 f.key = some v := by
    rw [hget f hf, hgetFull f]
    exact or_eq_right_iff
  constructor
  · intro hplans f hf
    rcases hplans with ⟨sparse', full', hsparse', hfull', hagree, -⟩
    cases hsparse.symm.trans hsparse'
    cases hfull.symm.trans hfull'
    exact (hfield f hf).mp (hagree f hf)
  · intro h
    have hagree : ∀ f ∈ fields, sparse.getField f = full.getField f :=
      fun f hf ↦ (hfield f hf).mpr (h f hf)
    -- a rule sees the payload through its required fields only
    have hrules : ∀ (C : Crates) (rule : CompiledRule) (message : Message) (parts : List String),
        (∀ f ∈ rule.requiredPayloadFields, f ∈ fields) →
          evaluateRuleWithPayloadAndTopicParts C rule message sparse parts =
            evaluateRuleWithPayloadAndTopicParts C rule message full parts := by
      intro C rule message parts hsub
      exact evaluateRule_congr C rule message (fun f hf ↦ hagree f (hsub f hf)) fun _ ↦ rfl
    exact ⟨sparse, full, hsparse, hfull, hagree, hrules⟩

-- one member, at a key without a dot
def plainObject : JsonObject :=
  ⟨[("temp", .bool true)], .object (by simp) (by simp [JsonValue.Sorted.bool])⟩

-- one member, at a key with a dot
def dottedObject : JsonObject :=
  ⟨[("a.b", .bool true)], .object (by simp) (by simp [JsonValue.Sorted.bool])⟩

theorem plansAgree_plain : PlansAgree plainObject.1 [.fromKey "temp"] := by
  apply (plansAgree_iff plainObject (List.cons_ne_nil _ _)).mpr
  intro f hf v hv
  cases List.mem_singleton.mp hf
  have hnone : (dottedSpellings plainObject.1 "temp").getLast?.isSome = false := by decide
  rw [show (CompiledPayloadField.fromKey "temp").key = "temp" from rfl] at hv
  rw [hv] at hnone
  cases hnone

/-- The full plan finds a member whose key is the dotted field itself; the sparse plan does not. -/
theorem not_plansAgree_dotted : ¬ PlansAgree dottedObject.1 [.fromKey "a.b"] := by
  intro h
  rcases h with ⟨sparse, full, hsparse, hfull, hagree, -⟩
  obtain ⟨sparse', hsparse', hget⟩ := exists_sparse dottedObject.1 (List.cons_ne_nil
    (CompiledPayloadField.fromKey "a.b") [])
  obtain ⟨full', hfull', hgetFull⟩ := exists_full dottedObject
  cases hsparse.symm.trans hsparse'
  cases hfull.symm.trans hfull'
  have hfield := hagree (.fromKey "a.b") List.mem_cons_self
  rw [hget _ List.mem_cons_self, hgetFull] at hfield
  have hnested : (nestedValue dottedObject.1 "a.b").isSome = false := by decide
  have hdotted : ((dottedSpellings dottedObject.1 "a.b").getLast?).isSome = true := by decide
  have hsome := congrArg Option.isSome hfield
  rw [Option.isSome_or] at hsome
  simp [CompiledPayloadField.fromKey, hnested, hdotted] at hsome

end Tenon.Core
