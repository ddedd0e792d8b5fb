import Tenon.Core.EngineIsolation

/-!
# SharedDecode — a rule on the payload that all matched rules share

One decoded payload and one list of topic levels serve every matched rule.  The payload holds the
fields that some of them declared, and the levels are left out when none declared them.  A rule sees
no more than what it declares, so what is left out for the others never reaches it.
-/

namespace Tenon.Core

/-- The outcome of the rule is the same on payloads that agree on its required fields, with topic
levels that are equal if it asks for them. -/
def DependsOnDeclared (C : Crates) (rule : CompiledRule) (message : Message) : Prop :=
  ∀ (ir ir' : MsgIr) (topicParts topicParts' : List String),
    (∀ f ∈ rule.requiredPayloadFields, ir.getField f = ir'.getField f) →
    (rule.requiresTopicParts = true → topicParts = topicParts') →
      evaluateRuleWithPayloadAndTopicParts C rule message ir topicParts =
        evaluateRuleWithPayloadAndTopicParts C rule message ir' topicParts'

/-- Among any matched rules the outcome of the rule is the one it has on its own: on the shared payload
and topic levels it is what it is on any payload decoded for its fields, alone or with others, and all
the levels of the topic. -/
def SharedAsAlone (C : Crates) (rule : CompiledRule) (message : Message) : Prop :=
  ∀ (rules : List (Option CompiledRule)) (matched : List Nat) (i : Nat),
    liveRule rules i = some rule → i ∈ matched →
    ∀ (decoder : PayloadDecoder) (schema : String) (fields : List CompiledPayloadField)
      (shared own : MsgIr), (∀ f ∈ rule.requiredPayloadFields, f ∈ fields) →
      decodePayloadIr C message.payload decoder (decodePlan rules matched) schema = .ok shared →
      decodePayloadIr C message.payload decoder (.sparse fields) schema = .ok own →
        evaluateRuleWithPayloadAndTopicParts C rule message shared
            (sharedTopicParts rules message matched) =
          evaluateRuleWithPayloadAndTopicParts C rule message own (levels message.topic)

section Shared

variable (C : Crates) {rules : List (Option CompiledRule)} {matched : List Nat} {i : Nat}
  {rule : CompiledRule}

-- a matched rule that asks for the topic levels has them split
theorem sharedTopicParts_eq (message : Message) (hrule : liveRule rules i = some rule)
    (hi : i ∈ matched) (hrequires : rule.requiresTopicParts = true) :
    sharedTopicParts rules message matched = levels message.topic := by
  apply if_pos
  exact List.any_eq_true.mpr ⟨i, hi, by rw [hrule]; exact hrequires⟩

theorem getField_of_answersAs {view : Option (List String → Option PayloadValue)}
    {fields fields' : List CompiledPayloadField} {ir ir' : MsgIr}
    (h : AnswersAs view fields (.ok ir)) (h' : AnswersAs view fields' (.ok ir'))
    {f : CompiledPayloadField} (hf : f ∈ fields) (hf' : f ∈ fields') :
    ir.getField f = ir'.getField f := by
  rcases h with ⟨find, hfind, hanswers⟩
  rcases h' with ⟨find', hfind', hanswers'⟩
  cases hfind.symm.trans hfind'
  rw [hanswers f hf, hanswers' f hf']

/-- The union of the fields of the matched rules answers each of them as its own fields do. -/
theorem getField_shared {payload : List UInt8} {decoder : PayloadDecoder} {schema : String}
    {fields : List CompiledPayloadField} {shared own : MsgIr} (hrule : liveRule rules i = some rule)
    (hi : i ∈ matched) (hfields : ∀ f ∈ rule.requiredPayloadFields, f ∈ fields)
    (hshared : decodePayloadIr C payload decoder (decodePlan rules matched) schema = .ok shared)
    (hown : decodePayloadIr C payload decoder (.sparse fields) schema = .ok own) :
    ∀ f ∈ rule.requiredPayloadFields, shared.getField f = own.getField f := by
  intro f hf
  have hunion : f ∈ collectRequiredFields rules matched :=
    mem_collectRequiredFields.mpr ⟨i, hi, rule, hrule, hf⟩
  have hne := List.ne_nil_of_mem hunion
  have hplan : decodePlan rules matched = .sparse (collectRequiredFields rules matched) := by
    rw [decodePlan, if_neg]
    simpa using hne
  have hview := answersAs_sparse C payload schema decoder hne
  have hview' := answersAs_sparse C payload schema decoder (List.ne_nil_of_mem (hfields f hf))
  rw [hplan] at hshared
  rw [hshared] at hview
  rw [hown] at hview'
  exact getField_of_answersAs hview hview' hunion (hfields f hf)

theorem sharedAsAlone (rule : CompiledRule) (message : Message) : SharedAsAlone C rule message := by
  intro rules matched i hrule hi decoder schema fields shared own hfields hshared hown
  apply evaluateRule_congr
  · exact getField_shared C hrule hi hfields hshared hown
  · exact sharedTopicParts_eq message hrule hi

end Shared

/-- The outcome of a compiled rule depends on its required fields and, if it asks for them, the topic
levels alone; what the other matched rules make of the payload and the levels does not change it. -/
theorem compiledRule_reads_declared (C : Crates) (rule : CompiledRule) (message : Message) :
    DependsOnDeclared C rule message ∧ SharedAsAlone C rule message := by
  have hdeclared : DependsOnDeclared C rule message := by
    intro ir ir' topicParts topicParts' hfields hparts
    exact evaluateRule_congr C rule message hfields hparts
  exact ⟨hdeclared, sharedAsAlone C rule message⟩

end Tenon.Core
