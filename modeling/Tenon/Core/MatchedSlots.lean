import Tenon.Core.EngineIsolation

/-!
# MatchedSlots — what one message asks of the rules

The live rules whose filters match the topic are grouped by the schema that decodes the payload for
them.  An engine evaluates each rule of a group that decodes once, and reports each group that does not
decode once, whatever order it takes them in.
-/

open Reasoning Reasoning.Transition

namespace Tenon.Core

/-! ## What a message asks of the rules -/

/-- The schema that decodes the payload for a rule; under JSON all rules share one. -/
def payloadSchema (decoder : PayloadDecoder) (rule : CompiledRule) : String :=
  match decoder, rule.payloadBinding with
  | .protobuf _, .protobuf schema => schema
  | _, _ => ""

theorem payloadSchema_protobuf {pool : Option DescriptorPool} {rule : CompiledRule} {schema : String}
    (h : rule.payloadBinding = .protobuf schema) :
    payloadSchema (.protobuf pool) rule = schema := by
  unfold payloadSchema
  rw [h]

section Slots

variable (C : Crates) (decoder : PayloadDecoder) (rules : List (Option CompiledRule))
  (message : Message)

/-- The live slots whose filter the naive match accepts. -/
def matchedSlots : List Nat :=
  (List.range rules.length).filter fun i ↦
    (liveRule rules i).any fun rule ↦ matchTopic rule.topicFilter message.topic

def slotSchema (i : Nat) : String := ((liveRule rules i).map (payloadSchema decoder)).getD ""

def schemaSlots (schema : String) : List Nat :=
  (matchedSlots rules message).filter (slotSchema decoder rules · = schema)

/-- The payload as it is decoded for the matched rules of a schema. -/
def groupPayload (schema : String) : Except PayloadError MsgIr :=
  decodePayloadIr C message.payload decoder
    (decodePlan rules (schemaSlots decoder rules message schema)) schema

/-- The matched slots whose group decodes. -/
def decodedSlots : List Nat :=
  (matchedSlots rules message).filter fun i ↦
    (groupPayload C decoder rules message (slotSchema decoder rules i)).toOption.isSome

/-- The schemas of matched slots whose group does not decode. -/
def failedSchemas : List String :=
  ((matchedSlots rules message).map (slotSchema decoder rules)).dedup.filter fun schema ↦
    (groupPayload C decoder rules message schema).toOption.isNone

-- the WHERE clause evaluates to false
def rejects (i : Nat) : Bool :=
  match liveRule rules i, groupPayload C decoder rules message (slotSchema decoder rules i) with
  | some rule, .ok ir =>
      match evaluatePredicate rule.wherePlan ⟨message, ir, levels message.topic⟩ with
      | .ok accepted => !accepted
      | .error _ => false
  | _, _ => false

def rejectedSlots : List Nat :=
  (matchedSlots rules message).filter (rejects C decoder rules message)

-- the attempt of a slot on the payload of its group
def slotAttempt (i : Nat) : Option EvalAttempt :=
  (groupPayload C decoder rules message (slotSchema decoder rules i)).toOption.bind fun ir ↦
    evaluateSingleRule C rules message ir (levels message.topic) i

variable {decoder rules message}

theorem mem_matchedSlots {i : Nat} : i ∈ matchedSlots rules message ↔
    ∃ rule, liveRule rules i = some rule ∧ matchTopic rule.topicFilter message.topic = true := by
  rw [matchedSlots, List.mem_filter, List.mem_range]
  constructor
  · intro h
    obtain ⟨-, hany⟩ := h
    cases hrule : liveRule rules i with
    | none => simp [hrule] at hany
    | some rule => exact ⟨rule, rfl, by simpa [hrule] using hany⟩
  · intro h
    rcases h with ⟨rule, hrule, hmatch⟩
    exact ⟨lt_of_liveRule hrule, by rw [hrule]; exact hmatch⟩

theorem nodup_matchedSlots : (matchedSlots rules message).Nodup := List.nodup_range.filter _

theorem nodup_schemaSlots {schema : String} : (schemaSlots decoder rules message schema).Nodup :=
  nodup_matchedSlots.filter _

theorem slotSchema_eq {i : Nat} {rule : CompiledRule} (hrule : liveRule rules i = some rule) :
    slotSchema decoder rules i = payloadSchema decoder rule := by
  rw [slotSchema, hrule]
  rfl

theorem mem_schemaSlots {schema : String} {i : Nat} : i ∈ schemaSlots decoder rules message schema ↔
    i ∈ matchedSlots rules message ∧ slotSchema decoder rules i = schema := by
  rw [schemaSlots, List.mem_filter, decide_eq_true_iff]

end Slots

/-! ## One group -/

section Group

variable (C : Crates) {decoder : PayloadDecoder} {rules : List (Option CompiledRule)}
  {message : Message} {schema : String} {indexes : List Nat}

/-- The list holds the matched live rules of a schema, and maybe dead slots. -/
structure Lists (decoder : PayloadDecoder) (rules : List (Option CompiledRule)) (message : Message)
    (schema : String) (indexes : List Nat) : Prop where
  nodup : indexes.Nodup
  mem : ∀ i rule, liveRule rules i = some rule →
    (i ∈ indexes ↔ matchTopic rule.topicFilter message.topic = true ∧
      payloadSchema decoder rule = schema)

theorem Lists.mem_iff (h : Lists decoder rules message schema indexes) {i : Nat} {rule : CompiledRule}
    (hrule : liveRule rules i = some rule) :
    i ∈ indexes ↔ i ∈ schemaSlots decoder rules message schema := by
  rw [h.mem i rule hrule, mem_schemaSlots, slotSchema_eq hrule, mem_matchedSlots]
  simp [hrule]

-- dead slots ask for no field
theorem Lists.mem_requiredFields (h : Lists decoder rules message schema indexes)
    (f : CompiledPayloadField) : f ∈ collectRequiredFields rules indexes ↔
      f ∈ collectRequiredFields rules (schemaSlots decoder rules message schema) := by
  rw [mem_collectRequiredFields, mem_collectRequiredFields]
  constructor
  · intro hf
    rcases hf with ⟨i, hi, rule, hrule, hmem⟩
    exact ⟨i, (h.mem_iff hrule).mp hi, rule, hrule, hmem⟩
  · intro hf
    rcases hf with ⟨i, hi, rule, hrule, hmem⟩
    exact ⟨i, (h.mem_iff hrule).mpr hi, rule, hrule, hmem⟩

theorem Lists.sharedView_eq (h : Lists decoder rules message schema indexes) :
    sharedView C rules message decoder schema indexes =
      sharedView C rules message decoder schema (schemaSlots decoder rules message schema) := by
  have hempty : (collectRequiredFields rules indexes).isEmpty =
      (collectRequiredFields rules (schemaSlots decoder rules message schema)).isEmpty := by
    rw [Bool.eq_iff_iff, List.isEmpty_iff, List.isEmpty_iff, List.eq_nil_iff_forall_not_mem,
      List.eq_nil_iff_forall_not_mem]
    exact forall_congr' fun f ↦ not_congr (h.mem_requiredFields f)
  unfold sharedView
  rw [hempty]

/-- The list decodes as the naive group does, with the same fields. -/
theorem Lists.decode (h : Lists decoder rules message schema indexes) :
    (∃ err, decodePayloadIr C message.payload decoder (decodePlan rules indexes) schema = .error err ∧
        (groupPayload C decoder rules message schema).toOption = none) ∨
      ∃ ir ir', decodePayloadIr C message.payload decoder (decodePlan rules indexes) schema = .ok ir ∧
        (groupPayload C decoder rules message schema).toOption = some ir' ∧
        ∀ f ∈ collectRequiredFields rules indexes, ir.getField f = ir'.getField f := by
  have hcode := answersAs_decodePlan C rules message decoder schema indexes
  have hspec := answersAs_decodePlan C rules message decoder schema
    (schemaSlots decoder rules message schema)
  rw [h.sharedView_eq] at hcode
  unfold groupPayload
  generalize decodePayloadIr C message.payload decoder
    (decodePlan rules (schemaSlots decoder rules message schema)) schema = naive at hspec ⊢
  generalize sharedView C rules message decoder schema
    (schemaSlots decoder rules message schema) = view at hcode hspec
  cases hdecoded : decodePayloadIr C message.payload decoder (decodePlan rules indexes) schema with
  | error err =>
      rw [hdecoded] at hcode
      cases naive with
      | error err' => exact Or.inl ⟨err, rfl, rfl⟩
      | ok ir' =>
          obtain ⟨find, hview, -⟩ := hspec
          cases hcode.symm.trans hview
  | ok ir =>
      rw [hdecoded] at hcode
      obtain ⟨find, hview, hfields⟩ := hcode
      cases naive with
      | error err' => cases hview.symm.trans hspec
      | ok ir' =>
          obtain ⟨find', hview', hfields'⟩ := hspec
          cases hview.symm.trans hview'
          refine Or.inr ⟨ir, ir', rfl, rfl, fun f hf ↦ ?_⟩
          rw [hfields f hf, hfields' f ((h.mem_requiredFields f).mp hf)]

-- a slot of the group has the attempt it has on the naive payload
theorem Lists.attempt_eq (h : Lists decoder rules message schema indexes) {ir ir' : MsgIr}
    (hspec : (groupPayload C decoder rules message schema).toOption = some ir')
    (hfields : ∀ f ∈ collectRequiredFields rules indexes, ir.getField f = ir'.getField f) {i : Nat}
    (hi : i ∈ schemaSlots decoder rules message schema) :
    evaluateSingleRule C rules message ir (sharedTopicParts rules message indexes) i =
      slotAttempt C decoder rules message i := by
  obtain ⟨hmatched, hschema⟩ := mem_schemaSlots.mp hi
  obtain ⟨rule, hrule, -⟩ := mem_matchedSlots.mp hmatched
  have hindex : i ∈ indexes := (h.mem_iff hrule).mpr hi
  have hrequired : ∀ f ∈ rule.requiredPayloadFields, ir.getField f = ir'.getField f :=
    fun f hf ↦ hfields f (mem_collectRequiredFields.mpr ⟨i, hindex, rule, hrule, hf⟩)
  have hparts : rule.requiresTopicParts = true →
      sharedTopicParts rules message indexes = levels message.topic := by
    intro hrequires
    apply if_pos
    exact List.any_eq_true.mpr ⟨i, hindex, by rw [hrule]; exact hrequires⟩
  rw [slotAttempt, hschema, hspec, Option.bind_some, evaluateSingleRule, evaluateSingleRule, hrule,
    Option.map_some, Option.map_some, evaluateRule_congr C rule message hrequired hparts]

theorem filterMap_filter_live (ir : MsgIr) (parts : List String) (indexes : List Nat) :
    indexes.filterMap (evaluateSingleRule C rules message ir parts) =
      (indexes.filter fun i ↦ (liveRule rules i).isSome).filterMap
        (evaluateSingleRule C rules message ir parts) := by
  rw [List.filterMap_filter]
  congr 1
  funext i
  rw [evaluateSingleRule]
  cases liveRule rules i <;> rfl

/-- A group attempts the matched live rules of its schema, or fails once. -/
theorem Lists.evaluateGroup (h : Lists decoder rules message schema indexes) :
    (evaluateGroup C rules message decoder schema indexes).attempts.Perm
        ((schemaSlots decoder rules message schema).filterMap (slotAttempt C decoder rules message)) ∧
      (evaluateGroup C rules message decoder schema indexes).payloadErrors.length =
        if (groupPayload C decoder rules message schema).toOption.isNone then 1 else 0 := by
  have hlive : (indexes.filter fun i ↦ (liveRule rules i).isSome).Perm
      (schemaSlots decoder rules message schema) := by
    rw [List.perm_ext_iff_of_nodup (h.nodup.filter _) nodup_schemaSlots]
    intro i
    rw [List.mem_filter]
    cases hrule : liveRule rules i with
    | none => simp [mem_schemaSlots, mem_matchedSlots, hrule]
    | some rule => simpa using h.mem_iff hrule
  unfold Core.evaluateGroup
  rcases h.decode C with ⟨err, hcode, hspec⟩ | ⟨ir, ir', hcode, hspec, hfields⟩
  · rw [hcode, hspec]
    refine ⟨?_, rfl⟩
    -- without a payload no slot is attempted
    have hnone : (schemaSlots decoder rules message schema).filterMap
        (slotAttempt C decoder rules message) = [] := by
      rw [List.filterMap_eq_nil_iff]
      intro i hi
      rw [slotAttempt, (mem_schemaSlots.mp hi).2, hspec]
      rfl
    rw [hnone]
  · rw [hcode, hspec]
    refine ⟨?_, rfl⟩
    change (indexes.filterMap _).Perm _
    rw [filterMap_filter_live]
    refine (hlive.filterMap _).trans (List.Perm.of_eq ?_)
    exact List.filterMap_congr fun i hi ↦ h.attempt_eq C hspec hfields hi

end Group

/-! ## All groups of a message -/

/-- The groups of one evaluation: each schema once, and each matched live rule in the group of its
schema. -/
structure Grouping (C : Crates) (decoder : PayloadDecoder) (rules : List (Option CompiledRule))
    (message : Message) (groups : List ProtobufSchemaRuleGroup) : Prop where
  once : (groups.map ProtobufSchemaRuleGroup.schema).Nodup
  lists : ∀ group ∈ groups, Lists decoder rules message group.schema group.ruleIndexes
  covers : ∀ i ∈ matchedSlots rules message, ∃ group ∈ groups,
    group.schema = slotSchema decoder rules i
  -- a group of dead slots alone decodes
  failing : ∀ group ∈ groups, (groupPayload C decoder rules message group.schema).toOption = none →
    schemaSlots decoder rules message group.schema ≠ []

section Groups

variable (C : Crates) {decoder : PayloadDecoder} {rules : List (Option CompiledRule)}
  {message : Message} {groups : List ProtobufSchemaRuleGroup}

theorem evaluateGroups_spec
    (h : ∀ group ∈ groups, Lists decoder rules message group.schema group.ruleIndexes) :
    (evaluateProtobufRuleGroups C rules message decoder groups).attempts.Perm
        ((groups.flatMap fun group ↦ schemaSlots decoder rules message group.schema).filterMap
          (slotAttempt C decoder rules message)) ∧
      (evaluateProtobufRuleGroups C rules message decoder groups).payloadErrors.length =
        ((groups.map ProtobufSchemaRuleGroup.schema).filter fun schema ↦
          (groupPayload C decoder rules message schema).toOption.isNone).length := by
  induction groups with
  | nil => exact ⟨List.Perm.refl _, rfl⟩
  | cons group rest ih =>
      obtain ⟨hattempts, herrors⟩ := (h group List.mem_cons_self).evaluateGroup C
      obtain ⟨hrest, hrestErrors⟩ := ih fun g hg ↦ h g (List.mem_cons_of_mem _ hg)
      rw [evaluateProtobufRuleGroups, EvalOutcome.append, List.flatMap_cons, List.filterMap_append,
        List.length_append, herrors, hrestErrors, List.map_cons, List.filter_cons]
      refine ⟨hattempts.append hrest, ?_⟩
      split
      · rw [List.length_cons, Nat.add_comm]
      · rw [Nat.zero_add]

-- the groups partition the matched live slots
theorem Grouping.perm_matchedSlots (h : Grouping C decoder rules message groups) :
    (groups.flatMap fun group ↦ schemaSlots decoder rules message group.schema).Perm
      (matchedSlots rules message) := by
  have hnodup : (groups.flatMap fun group ↦
      schemaSlots decoder rules message group.schema).Nodup := by
    rw [List.nodup_flatMap]
    refine ⟨fun group _ ↦ nodup_schemaSlots, ?_⟩
    refine (List.pairwise_map.mp h.once).imp fun hne ↦ ?_
    rw [Function.onFun, List.disjoint_left]
    intro i hi hi'
    exact hne ((mem_schemaSlots.mp hi).2.symm.trans (mem_schemaSlots.mp hi').2)
  rw [List.perm_ext_iff_of_nodup hnodup nodup_matchedSlots]
  intro i
  rw [List.mem_flatMap]
  constructor
  · intro hi
    rcases hi with ⟨group, -, hi⟩
    exact (mem_schemaSlots.mp hi).1
  · intro hi
    obtain ⟨group, hgroup, hschema⟩ := h.covers i hi
    exact ⟨group, hgroup, mem_schemaSlots.mpr ⟨hi, hschema.symm⟩⟩

-- the groups that fail are the schemas that fail
theorem Grouping.perm_failedSchemas (h : Grouping C decoder rules message groups) :
    ((groups.map ProtobufSchemaRuleGroup.schema).filter fun schema ↦
      (groupPayload C decoder rules message schema).toOption.isNone).Perm
        (failedSchemas C decoder rules message) := by
  rw [failedSchemas, List.perm_ext_iff_of_nodup (h.once.filter _) ((List.nodup_dedup _).filter _)]
  intro schema
  rw [List.mem_filter, List.mem_filter, List.mem_dedup]
  refine and_congr_left fun hnone ↦ ?_
  rw [Option.isNone_iff_eq_none] at hnone
  constructor
  · intro hschema
    obtain ⟨group, hgroup, rfl⟩ := List.mem_map.mp hschema
    obtain ⟨i, hi⟩ := List.exists_mem_of_ne_nil _ (h.failing group hgroup hnone)
    obtain ⟨hmatched, hslot⟩ := mem_schemaSlots.mp hi
    exact List.mem_map.mpr ⟨i, hmatched, hslot⟩
  · intro hschema
    obtain ⟨i, hmatched, rfl⟩ := List.mem_map.mp hschema
    obtain ⟨group, hgroup, hslot⟩ := h.covers i hmatched
    exact List.mem_map.mpr ⟨group, hgroup, hslot⟩

/-- An evaluation attempts the matched live slots and reports the schemas that fail. -/
theorem Grouping.outcome (h : Grouping C decoder rules message groups) :
    (evaluateProtobufRuleGroups C rules message decoder groups).attempts.Perm
        ((matchedSlots rules message).filterMap (slotAttempt C decoder rules message)) ∧
      (evaluateProtobufRuleGroups C rules message decoder groups).payloadErrors.length =
        (failedSchemas C decoder rules message).length := by
  obtain ⟨hattempts, herrors⟩ := evaluateGroups_spec C h.lists
  refine ⟨hattempts.trans (h.perm_matchedSlots.filterMap _), ?_⟩
  rw [herrors, h.perm_failedSchemas.length_eq]

end Groups

/-! ## The groups of an engine -/

/-- Each schema is listed once, with a rule. -/
def SchemasOnce (groups : List ProtobufSchemaRuleGroup) : Prop :=
  (groups.map ProtobufSchemaRuleGroup.schema).Nodup ∧ ∀ group ∈ groups, group.ruleIndexes ≠ []

def CachedOnce (engine : RuleEngine) : Prop :=
  match engine.payloadRuntime with
  | .json _ => True
  | .protobuf _ cache => ∀ topic groups, cache.entries.lookup topic = some groups →
      SchemasOnce groups

theorem schemasOnce_build (order : HashOrder) (rules : List (Option CompiledRule))
    (matched : List Nat) : SchemasOnce (buildProtobufSchemaRuleGroups order rules matched) := by
  constructor
  · have hperm := (order.hgroups (groupBySchema rules matched)).map Prod.fst
    have hkeys : ((groupBySchema rules matched).entries.map Sigma.fst).Nodup :=
      (groupBySchema rules matched).nodupKeys
    rw [List.map_map] at hperm
    rw [buildProtobufSchemaRuleGroups, List.map_map]
    exact hperm.nodup_iff.mpr hkeys
  · intro group hgroup
    obtain ⟨e, he, rfl⟩ := mem_buildProtobufSchemaRuleGroups.mp hgroup
    have hlookup := (AList.mem_lookup_iff (s := groupBySchema rules matched)).mpr he
    rw [lookup_groupBySchema] at hlookup
    split at hlookup
    · cases hlookup
    · rename_i hne
      change e.2 ≠ []
      rw [← Option.some.inj hlookup]
      exact hne

theorem cachedOnce_clear {engine : RuleEngine} {runtime : PayloadRuntime}
    (h : engine.payloadRuntime = runtime.clearCache) : CachedOnce engine := by
  unfold CachedOnce
  rw [h]
  cases runtime with
  | json cache => trivial
  | protobuf pool cache => exact fun topic groups hlookup ↦ by cases hlookup

section Engine

variable {C : Crates} {decoder : PayloadDecoder} {engine : RuleEngine}

theorem cachedOnce_evaluate (h : CachedOnce engine) (order : HashOrder) (message : Message) :
    CachedOnce (engine.evaluate C order message).1 := by
  unfold CachedOnce at h ⊢
  unfold RuleEngine.evaluate
  cases hruntime : engine.payloadRuntime with
  | json cache => trivial
  | protobuf pool cache =>
      rw [hruntime] at h
      intro topic groups hlookup
      obtain ⟨hvalue, hentries⟩ := cache.getOrInsertWith_spec message.topic fun _ ↦
        buildProtobufSchemaRuleGroups order engine.rules
          (order.indexes (engine.matcher.matchTopicIndexes message.topic))
      rcases hentries topic groups hlookup with hold | ⟨rfl, rfl⟩
      · exact h topic groups hold
      · rw [hvalue]
        cases hcached : cache.entries.lookup message.topic with
        | some groups => exact h _ groups hcached
        | none => exact schemasOnce_build order engine.rules _

theorem cachedOnce {capacity : Nat} (h : (engineSystem C decoder capacity).Reachable engine) :
    CachedOnce engine := by
  refine engine_invariant ?_ (fun _ _ _ _ _ ↦ cachedOnce_clear rfl)
    (fun _ _ _ _ _ ↦ cachedOnce_clear rfl) (fun _ order message hs ↦ cachedOnce_evaluate hs order message)
    h
  cases decoder with
  | json => trivial
  | protobuf pool => exact fun topic groups hlookup ↦ by cases hlookup

/-- Under JSON the matched slots are one group, or none. -/
theorem WellFormed.exists_grouping_json (h : WellFormed .json engine) (order : HashOrder)
    (message : Message) : ∃ groups, Grouping C .json engine.rules message groups ∧
      (engine.evaluate C order message).2 =
        evaluateProtobufRuleGroups C engine.rules message .json groups := by
  obtain ⟨matched, hmatched, houtcome⟩ := h.evaluate_json (C := C) order message
  have hlists : Lists .json engine.rules message "" matched := by
    refine ⟨hmatched.nodup, fun i rule hrule ↦ ?_⟩
    rw [hmatched.mem, h.mem_match hrule]
    exact (and_iff_left rfl).symm
  have hslots (i : Nat) (hi : i ∈ matchedSlots engine.rules message) :
      i ∈ matched ∧ slotSchema .json engine.rules i = "" := by
    obtain ⟨rule, hrule, hmatch⟩ := mem_matchedSlots.mp hi
    exact ⟨(hlists.mem i rule hrule).mpr ⟨hmatch, rfl⟩, by rw [slotSchema_eq hrule]; rfl⟩
  cases hempty : matched.isEmpty with
  | true =>
      rw [hempty, if_pos rfl] at houtcome
      refine ⟨[], ⟨List.nodup_nil, by simp, fun i hi ↦ ?_, by simp⟩, houtcome⟩
      have hin := (hslots i hi).1
      rw [List.isEmpty_iff.mp hempty] at hin
      cases hin
  | false =>
      rw [hempty, if_neg Bool.false_ne_true] at houtcome
      refine ⟨[⟨"", matched⟩], ⟨by simp, by simpa using hlists, fun i hi ↦ ?_, ?_⟩, ?_⟩
      · exact ⟨_, List.mem_singleton_self _, (hslots i hi).2.symm⟩
      · intro group hgroup hnone hnil
        cases List.mem_singleton.mp hgroup
        -- no rule asks for a field, so the payload is not looked at
        change (groupPayload C .json engine.rules message "").toOption = none at hnone
        change schemaSlots .json engine.rules message "" = [] at hnil
        rw [groupPayload, hnil] at hnone
        cases hnone
      · rw [houtcome, evaluateProtobufRuleGroups, evaluateProtobufRuleGroups, EvalOutcome.append,
          List.append_nil, List.append_nil]

theorem lists_of_grouped {pool : Option DescriptorPool} (h : WellFormed (.protobuf pool) engine)
    {message : Message} {groups : List ProtobufSchemaRuleGroup}
    (hgrouped : Grouped engine.rules engine.matcher message.topic groups)
    {group : ProtobufSchemaRuleGroup} (hgroup : group ∈ groups) :
    Lists (.protobuf pool) engine.rules message group.schema group.ruleIndexes where
  nodup := (List.nodup_flatMap.mp hgrouped.nodup).1 group hgroup
  mem i rule hrule := by
    obtain ⟨schema, hbinding⟩ := h.bound i rule hrule (by simp)
    have hslot : schemaOf engine.rules i = some schema :=
      schemaOf_eq_some.mpr ⟨rule, hrule, hbinding⟩
    rw [hgrouped.mem group hgroup, h.mem_match hrule, hslot, payloadSchema_protobuf hbinding,
      Option.some.injEq]

/-- Under protobuf there is one group for each schema of a matched rule. -/
theorem WellFormed.exists_grouping_protobuf {pool : Option DescriptorPool}
    (h : WellFormed (.protobuf pool) engine) (honce : CachedOnce engine) (order : HashOrder)
    (message : Message) : ∃ groups, Grouping C (.protobuf pool) engine.rules message groups ∧
      (engine.evaluate C order message).2 =
        evaluateProtobufRuleGroups C engine.rules message (.protobuf pool) groups := by
  obtain ⟨groups, hgrouped, hschemas, houtcome⟩ : ∃ groups,
      Grouped engine.rules engine.matcher message.topic groups ∧ SchemasOnce groups ∧
        (engine.evaluate C order message).2 =
          evaluateProtobufRuleGroups C engine.rules message (.protobuf pool) groups := by
    have hcache := h.cache
    have hdecoder := h.decodes
    unfold CacheValid at hcache
    unfold CachedOnce at honce
    unfold RuleEngine.evaluate
    cases hruntime : engine.payloadRuntime with
    | json cache =>
        rw [hruntime] at hdecoder
        cases hdecoder
    | protobuf pool' cache =>
        rw [hruntime] at hcache hdecoder honce
        cases hdecoder
        obtain ⟨hvalue, -⟩ := cache.getOrInsertWith_spec message.topic fun _ ↦
          buildProtobufSchemaRuleGroups order engine.rules
            (order.indexes (engine.matcher.matchTopicIndexes message.topic))
        refine ⟨_, ?_, ?_, rfl⟩
        · rw [hvalue]
          cases hcached : cache.entries.lookup message.topic with
          | some groups => exact hcache _ groups hcached
          | none => exact grouped_build order engine.rules (order.matched engine.matcher _)
        · rw [hvalue]
          cases hcached : cache.entries.lookup message.topic with
          | some groups => exact honce _ groups hcached
          | none => exact schemasOnce_build order engine.rules _
  refine ⟨groups, ⟨hschemas.1, fun group hgroup ↦ lists_of_grouped h hgrouped hgroup, ?_, ?_⟩,
    houtcome⟩
  · intro i hi
    obtain ⟨rule, hrule, hmatch⟩ := mem_matchedSlots.mp hi
    obtain ⟨schema, hbinding⟩ := h.bound i rule hrule (by simp)
    rw [slotSchema_eq hrule, payloadSchema_protobuf hbinding]
    exact hgrouped.covers i ((h.mem_match hrule _).mpr hmatch) schema
      (schemaOf_eq_some.mpr ⟨rule, hrule, hbinding⟩)
  · intro group hgroup hnone
    obtain ⟨i, hi⟩ := List.exists_mem_of_ne_nil _ (hschemas.2 group hgroup)
    obtain ⟨rule, hrule, -⟩ := schemaOf_eq_some.mp ((hgrouped.mem group hgroup i).mp hi).2
    exact List.ne_nil_of_mem (((lists_of_grouped h hgrouped hgroup).mem_iff hrule).mp hi)

/-- What one evaluation does, in an engine of a run. -/
theorem WellFormed.outcome (h : WellFormed decoder engine) (honce : CachedOnce engine)
    (order : HashOrder) (message : Message) :
    (engine.evaluate C order message).2.attempts.Perm
        ((matchedSlots engine.rules message).filterMap
          (slotAttempt C decoder engine.rules message)) ∧
      (engine.evaluate C order message).2.payloadErrors.length =
        (failedSchemas C decoder engine.rules message).length := by
  cases decoder with
  | json =>
      obtain ⟨groups, hgrouping, houtcome⟩ := h.exists_grouping_json (C := C) order message
      rw [houtcome]
      exact hgrouping.outcome
  | protobuf pool =>
      obtain ⟨groups, hgrouping, houtcome⟩ :=
        h.exists_grouping_protobuf (C := C) honce order message
      rw [houtcome]
      exact hgrouping.outcome

end Engine

end Tenon.Core
