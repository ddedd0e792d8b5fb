import Mathlib.Order.Lattice.Nat
import Tenon.Core.RuleEngine

/-!
# EngineMatching — the engine evaluates exactly the rules a naive scan matches

The invariant ties the trie to the rule slots, each live rule being stored at the path of its filter
and nowhere else, and every cached entry to the trie.  Removal may leave the index of a dead slot
behind (after a filter with levels past its `#`); nothing is ever evaluated for it.
-/

namespace Tenon.Core

/-! ## Updates of an engine -/

namespace RuleEngine

variable (C : Crates) (order : HashOrder) (engine : RuleEngine) (message : Message)

@[simp]
theorem evaluate_rules : (engine.evaluate C order message).1.rules = engine.rules := by
  unfold evaluate
  split <;> rfl

@[simp]
theorem evaluate_matcher : (engine.evaluate C order message).1.matcher = engine.matcher := by
  unfold evaluate
  split <;> rfl

@[simp]
theorem evaluate_ruleIndexById :
    (engine.evaluate C order message).1.ruleIndexById = engine.ruleIndexById := by
  unfold evaluate
  split <;> rfl

@[simp]
theorem evaluate_decoder : (engine.evaluate C order message).1.payloadRuntime.decoder =
    engine.payloadRuntime.decoder := by
  unfold evaluate
  split
  · rename_i h
    rw [h]
    rfl
  · rename_i h
    rw [h]
    rfl

end RuleEngine

/-! ## Matches and groups -/

/-- A list of the rule indexes the trie matches, each once. -/
structure Matched (matcher : TopicTrie) (topic : String) (indexes : List Nat) : Prop where
  nodup : indexes.Nodup
  mem : ∀ i, i ∈ indexes ↔ i ∈ matcher.matchTopicIndexes topic

theorem HashOrder.matched (order : HashOrder) (matcher : TopicTrie) (topic : String) :
    Matched matcher topic (order.indexes (matcher.matchTopicIndexes topic)) :=
  ⟨(order.hindexes _).1, (order.hindexes _).2⟩

theorem schemaOf_eq_some {rules : List (Option CompiledRule)} {schema : String} {i : Nat} :
    schemaOf rules i = some schema ↔
      ∃ rule, liveRule rules i = some rule ∧ rule.payloadBinding = .protobuf schema := by
  unfold schemaOf
  cases liveRule rules i with
  | none => simp
  | some rule => cases hbinding : rule.payloadBinding <;> simp [hbinding]

theorem lookup_groupBySchema (rules : List (Option CompiledRule)) (matched : List Nat)
    (schema : String) :
    (groupBySchema rules matched).lookup schema =
      if matched.filter (schemaOf rules · = some schema) = [] then none
      else some (matched.filter (schemaOf rules · = some schema)) := by
  induction matched using List.reverseRecOn with
  | nil => rfl
  | append_singleton matched i ih =>
      rw [List.filter_append]
      cases hschema : schemaOf rules i with
      | none =>
          have hfold : groupBySchema rules (matched ++ [i]) = groupBySchema rules matched := by
            simp only [groupBySchema, List.foldl_append, List.foldl_cons, List.foldl_nil, hschema]
          rw [hfold]
          simpa [hschema] using ih
      | some s =>
          have hfold : groupBySchema rules (matched ++ [i]) = (groupBySchema rules matched).insert s
              (((groupBySchema rules matched).lookup s).getD [] ++ [i]) := by
            simp only [groupBySchema, List.foldl_append, List.foldl_cons, List.foldl_nil, hschema]
          rw [hfold]
          by_cases heq : schema = s
          · -- the index joins the group of its schema
            subst heq
            rw [AList.lookup_insert, ih]
            simp only [hschema, List.filter_singleton, decide_true]
            split
            · rename_i hnil
              simp [hnil]
            · simp
          · rw [AList.lookup_insert_ne heq, ih]
            simp [hschema, Ne.symm heq]

/-- Groups that partition the live matched rules by schema. -/
structure Grouped (rules : List (Option CompiledRule)) (matcher : TopicTrie) (topic : String)
    (groups : List ProtobufSchemaRuleGroup) : Prop where
  nodup : (groups.flatMap ProtobufSchemaRuleGroup.ruleIndexes).Nodup
  mem : ∀ group ∈ groups, ∀ i, i ∈ group.ruleIndexes ↔
    i ∈ matcher.matchTopicIndexes topic ∧ schemaOf rules i = some group.schema
  covers : ∀ i ∈ matcher.matchTopicIndexes topic, ∀ schema, schemaOf rules i = some schema →
    ∃ group ∈ groups, group.schema = schema

-- every group is the part of the match that is bound to its schema
theorem entry_groupBySchema {rules : List (Option CompiledRule)} {matched : List Nat}
    {e : Sigma fun _ : String ↦ List Nat} (he : e ∈ (groupBySchema rules matched).entries) :
    e.2 = matched.filter (schemaOf rules · = some e.1) := by
  have hlookup := (AList.mem_lookup_iff (s := groupBySchema rules matched)).mpr he
  rw [lookup_groupBySchema] at hlookup
  split at hlookup
  · cases hlookup
  · exact (Option.some.inj hlookup).symm

theorem mem_buildProtobufSchemaRuleGroups {order : HashOrder} {rules : List (Option CompiledRule)}
    {matched : List Nat} {group : ProtobufSchemaRuleGroup} :
    group ∈ buildProtobufSchemaRuleGroups order rules matched ↔
      ∃ e ∈ (groupBySchema rules matched).entries, ⟨e.1, e.2⟩ = group := by
  have hperm := order.hgroups (groupBySchema rules matched)
  unfold buildProtobufSchemaRuleGroups
  rw [List.mem_map]
  constructor
  · intro h
    rcases h with ⟨p, hp, rfl⟩
    obtain ⟨e, he, rfl⟩ := List.mem_map.mp (hperm.mem_iff.mp hp)
    exact ⟨e, he, rfl⟩
  · intro h
    rcases h with ⟨e, he, rfl⟩
    exact ⟨(e.1, e.2), hperm.mem_iff.mpr (List.mem_map.mpr ⟨e, he, rfl⟩), rfl⟩

theorem nodup_buildProtobufSchemaRuleGroups (order : HashOrder) (rules : List (Option CompiledRule))
    {matched : List Nat} (h : matched.Nodup) :
    ((buildProtobufSchemaRuleGroups order rules matched).flatMap
      ProtobufSchemaRuleGroup.ruleIndexes).Nodup := by
  have hperm := order.hgroups (groupBySchema rules matched)
  have hflat : ((buildProtobufSchemaRuleGroups order rules matched).flatMap
      ProtobufSchemaRuleGroup.ruleIndexes).Perm
      ((groupBySchema rules matched).entries.flatMap fun e ↦ e.2) := by
    unfold buildProtobufSchemaRuleGroups
    rw [List.flatMap_map]
    apply (hperm.flatMap_right _).trans
    rw [List.flatMap_map]
  rw [hflat.nodup_iff, List.nodup_flatMap]
  constructor
  · intro e he
    rw [entry_groupBySchema he]
    exact h.filter _
  · have hkeys := List.pairwise_map.mp (groupBySchema rules matched).nodupKeys
    apply hkeys.imp_of_mem
    intro e e' he he' hne
    -- a rule is bound to one schema only
    rw [Function.onFun, entry_groupBySchema he, entry_groupBySchema he', List.disjoint_left]
    intro i hi hi'
    have hschema := of_decide_eq_true (List.mem_filter.mp hi).2
    have hschema' := of_decide_eq_true (List.mem_filter.mp hi').2
    exact hne (Option.some.inj (hschema.symm.trans hschema'))

theorem grouped_build (order : HashOrder) (rules : List (Option CompiledRule))
    {matcher : TopicTrie} {topic : String} {matched : List Nat}
    (h : Matched matcher topic matched) :
    Grouped rules matcher topic (buildProtobufSchemaRuleGroups order rules matched) where
  nodup := nodup_buildProtobufSchemaRuleGroups order rules h.nodup
  mem group hin i := by
    rcases mem_buildProtobufSchemaRuleGroups.mp hin with ⟨e, he, rfl⟩
    change i ∈ e.2 ↔ _
    rw [entry_groupBySchema he, List.mem_filter, h.mem, decide_eq_true_iff]
  covers i hi schema hbound := by
    have hfilter : matched.filter (schemaOf rules · = some schema) ≠ [] :=
      List.ne_nil_of_mem (List.mem_filter.mpr ⟨(h.mem i).mpr hi, decide_eq_true hbound⟩)
    have hlookup := lookup_groupBySchema rules matched schema
    rw [if_neg hfilter] at hlookup
    have hentry := (AList.mem_lookup_iff (s := groupBySchema rules matched)).mp hlookup
    exact ⟨_, mem_buildProtobufSchemaRuleGroups.mpr ⟨_, hentry, rfl⟩, rfl⟩

/-! ## The invariant -/

-- each cached entry is what a fresh lookup could give
def CacheValid (engine : RuleEngine) : Prop :=
  match engine.payloadRuntime with
  | .json cache => ∀ topic indexes, cache.entries.lookup topic = some indexes →
      Matched engine.matcher topic indexes
  | .protobuf _ cache => ∀ topic groups, cache.entries.lookup topic = some groups →
      Grouped engine.rules engine.matcher topic groups

/-- The invariant of every engine reachable under a decoder. -/
structure WellFormed (decoder : PayloadDecoder) (engine : RuleEngine) : Prop where
  decodes : engine.payloadRuntime.decoder = decoder
  stored_lt : ∀ path i, i ∈ storedAt engine.matcher.root path → i < engine.rules.length
  stored_live : ∀ i rule, liveRule engine.rules i = some rule → ∀ path,
    i ∈ storedAt engine.matcher.root path ↔ path = filterPath (levels rule.topicFilter)
  bound : ∀ i rule, liveRule engine.rules i = some rule → decoder ≠ .json →
    ∃ schema, rule.payloadBinding = .protobuf schema
  cache : CacheValid engine

theorem cacheValid_clear {engine : RuleEngine} {runtime : PayloadRuntime}
    (h : engine.payloadRuntime = runtime.clearCache) : CacheValid engine := by
  unfold CacheValid
  rw [h]
  cases runtime with
  | json cache => exact fun topic indexes hlookup ↦ by cases hlookup
  | protobuf pool cache => exact fun topic groups hlookup ↦ by cases hlookup

theorem requiresSchema_iff (runtime : PayloadRuntime) :
    runtime.requiresSchema = true ↔ runtime.decoder ≠ .json := by
  cases runtime <;> simp [PayloadRuntime.requiresSchema, PayloadRuntime.decoder]

section Invariant

variable {C : Crates} {decoder : PayloadDecoder} {engine : RuleEngine}

theorem wellFormed_new (decoder : PayloadDecoder) (capacity : Nat) :
    WellFormed decoder (RuleEngine.newWithCacheCapacity decoder capacity) where
  decodes := by cases decoder <;> rfl
  stored_lt path i h := by
    have hempty : i ∈ storedAt TrieNode.default path := h
    rw [storedAt_default] at hempty
    exact absurd hempty (Finset.notMem_empty i)
  stored_live i rule h := by cases h
  bound i rule h := by cases h
  cache := by
    cases decoder with
    | json => exact fun topic indexes hlookup ↦ by cases hlookup
    | protobuf pool => exact fun topic groups hlookup ↦ by cases hlookup

theorem WellFormed.pushRule (h : WellFormed decoder engine) {rule : RuleDefinition}
    {compiled : CompiledRule} (haccepts : Accepts C engine rule compiled) :
    WellFormed decoder (engine.pushRule compiled) where
  decodes := by
    change engine.payloadRuntime.clearCache.decoder = decoder
    rw [PayloadRuntime.decoder_clearCache, h.decodes]
  stored_lt path i hi := by
    have hstored : i ∈ storedAt (insertLevels engine.matcher.root engine.rules.length
        (levels compiled.topicFilter)) path := hi
    have hlen : (engine.pushRule compiled).rules.length = engine.rules.length + 1 := by
      simp [RuleEngine.pushRule]
    rw [storedAt_insertLevels] at hstored
    rw [hlen]
    split at hstored
    · rcases Finset.mem_insert.mp hstored with rfl | hold
      · omega
      · have hlt := h.stored_lt path i hold
        omega
    · have hlt := h.stored_lt path i hstored
      omega
  stored_live i live hlive path := by
    have hstored : storedAt (engine.pushRule compiled).matcher.root path =
        if path = filterPath (levels compiled.topicFilter) then
          insert engine.rules.length (storedAt engine.matcher.root path)
        else storedAt engine.matcher.root path :=
      storedAt_insertLevels engine.matcher.root engine.rules.length _ path
    rw [liveRule_pushRule] at hlive
    rw [hstored]
    split at hlive
    · -- the new slot: its index was nowhere in the trie before
      rename_i hi
      cases hlive
      subst hi
      have hfresh : engine.rules.length ∉ storedAt engine.matcher.root path :=
        fun hmem ↦ Nat.lt_irrefl _ (h.stored_lt path _ hmem)
      split
      · rename_i hpath
        simp [hpath]
      · rename_i hpath
        simp [hpath, hfresh]
    · rename_i hi
      split
      · rw [Finset.mem_insert, or_iff_right hi]
        exact h.stored_live i live hlive path
      · exact h.stored_live i live hlive path
  bound i live hlive hne := by
    rw [liveRule_pushRule] at hlive
    split at hlive
    · cases hlive
      rcases haccepts with ⟨hschema, hcompile⟩
      rw [(requiresSchema_iff engine.payloadRuntime).mpr (h.decodes ▸ hne)] at hschema
      obtain ⟨schema, hsome⟩ := Option.isSome_iff_exists.mp hschema.symm
      have hbinding : compiled.payloadBinding = .protobuf schema := by
        rw [(compileRule_ok C hcompile).2.1, hsome]
        rfl
      exact ⟨schema, hbinding⟩
    · exact h.bound i live hlive hne
  cache := cacheValid_clear rfl

-- the trie loses the removed index and nothing else
theorem storedAt_dropSlot (engine : RuleEngine) (ruleId : String) (index : Nat) (path : List Edge) :
    (∀ i ∈ storedAt (engine.dropSlot ruleId index).matcher.root path,
        i ∈ storedAt engine.matcher.root path) ∧
      ∀ i, i ≠ index → i ∈ storedAt engine.matcher.root path →
        i ∈ storedAt (engine.dropSlot ruleId index).matcher.root path := by
  unfold RuleEngine.dropSlot
  cases liveRule engine.rules index with
  | none => exact ⟨fun i hi ↦ hi, fun i _ hi ↦ hi⟩
  | some rule =>
      have herase := storedAt_removeFromNode engine.matcher.root index (levels rule.topicFilter) path
      simp only [TopicTrie.remove, herase]
      split
      · exact ⟨fun i hi ↦ Finset.mem_of_mem_erase hi,
          fun i hne hi ↦ Finset.mem_erase.mpr ⟨hne, hi⟩⟩
      · exact ⟨fun i hi ↦ hi, fun i _ hi ↦ hi⟩

theorem live_of_live_dropSlot {ruleId : String} {index i : Nat} {rule : CompiledRule}
    (h : liveRule (engine.dropSlot ruleId index).rules i = some rule) :
    i ≠ index ∧ liveRule engine.rules i = some rule := by
  rw [liveRule_dropSlot] at h
  split at h
  · cases h
  · exact ⟨‹_›, h⟩

theorem WellFormed.dropSlot (h : WellFormed decoder engine) (ruleId : String) (index : Nat) :
    WellFormed decoder (engine.dropSlot ruleId index) where
  decodes := by
    change engine.payloadRuntime.clearCache.decoder = decoder
    rw [PayloadRuntime.decoder_clearCache, h.decodes]
  stored_lt path i hi := by
    have hold := (storedAt_dropSlot engine ruleId index path).1 i hi
    change i < (engine.rules.set index none).length
    rw [List.length_set]
    exact h.stored_lt path i hold
  stored_live i rule hrule path := by
    rcases live_of_live_dropSlot hrule with ⟨hne, hold⟩
    obtain ⟨hback, hkept⟩ := storedAt_dropSlot engine ruleId index path
    rw [← h.stored_live i rule hold path]
    exact ⟨hback i, hkept i hne⟩
  bound i rule hrule hne := h.bound i rule (live_of_live_dropSlot hrule).2 hne
  cache := cacheValid_clear rfl

-- a new cache entry is the lookup that was just made
theorem WellFormed.cacheValid_evaluate (h : WellFormed decoder engine) (order : HashOrder)
    (message : Message) : CacheValid (engine.evaluate C order message).1 := by
  have hcache := h.cache
  unfold CacheValid at hcache ⊢
  rw [RuleEngine.evaluate_matcher, RuleEngine.evaluate_rules]
  unfold RuleEngine.evaluate
  cases hruntime : engine.payloadRuntime with
  | json cache =>
      rw [hruntime] at hcache
      intro topic indexes hlookup
      obtain ⟨hvalue, hentries⟩ := cache.getOrInsertWith_spec message.topic fun _ ↦
        order.indexes (engine.matcher.matchTopicIndexes message.topic)
      rcases hentries topic indexes hlookup with hold | ⟨rfl, rfl⟩
      · exact hcache topic indexes hold
      · rw [hvalue]
        cases hcached : cache.entries.lookup message.topic with
        | some indexes => exact hcache _ indexes hcached
        | none => exact order.matched engine.matcher message.topic
  | protobuf pool cache =>
      rw [hruntime] at hcache
      intro topic groups hlookup
      obtain ⟨hvalue, hentries⟩ := cache.getOrInsertWith_spec message.topic fun _ ↦
        buildProtobufSchemaRuleGroups order engine.rules
          (order.indexes (engine.matcher.matchTopicIndexes message.topic))
      rcases hentries topic groups hlookup with hold | ⟨rfl, rfl⟩
      · exact hcache topic groups hold
      · rw [hvalue]
        cases hcached : cache.entries.lookup message.topic with
        | some groups => exact hcache _ groups hcached
        | none => exact grouped_build order engine.rules (order.matched engine.matcher _)

theorem WellFormed.evaluate (h : WellFormed decoder engine) (order : HashOrder)
    (message : Message) : WellFormed decoder (engine.evaluate C order message).1 where
  decodes := by rw [RuleEngine.evaluate_decoder, h.decodes]
  stored_lt := by
    rw [RuleEngine.evaluate_matcher, RuleEngine.evaluate_rules]
    exact h.stored_lt
  stored_live := by
    rw [RuleEngine.evaluate_matcher, RuleEngine.evaluate_rules]
    exact h.stored_live
  bound := by
    rw [RuleEngine.evaluate_rules]
    exact h.bound
  cache := h.cacheValid_evaluate order message

/-- Every reachable engine is well formed. -/
theorem wellFormed {capacity : Nat} (h : (engineSystem C decoder capacity).Reachable engine) :
    WellFormed decoder engine :=
  engine_invariant (wellFormed_new decoder capacity)
    (fun _ _ _ hs haccepts ↦ hs.pushRule haccepts)
    (fun _ ruleId index hs _ ↦ hs.dropSlot ruleId index)
    (fun _ order message hs ↦ hs.evaluate order message) h

-- a live rule is matched by the trie exactly when the naive match accepts its filter
theorem WellFormed.mem_match (h : WellFormed decoder engine) {i : Nat} {rule : CompiledRule}
    (hrule : liveRule engine.rules i = some rule) (topic : String) :
    i ∈ engine.matcher.matchTopicIndexes topic ↔ matchTopic rule.topicFilter topic = true := by
  rw [matchTopic_iff, TopicTrie.matchTopicIndexes, mem_matchNode]
  constructor
  · intro hmatched
    rcases hmatched with ⟨path, hstored, hcovers⟩
    rwa [← (h.stored_live i rule hrule path).mp hstored]
  · intro hcovers
    exact ⟨_, (h.stored_live i rule hrule _).mpr rfl, hcovers⟩

end Invariant

/-! ## What an evaluation evaluates -/

section Outcome

variable {C : Crates} {engine : RuleEngine}

theorem WellFormed.evaluate_json (h : WellFormed .json engine) (order : HashOrder)
    (message : Message) :
    ∃ matched, Matched engine.matcher message.topic matched ∧
      (engine.evaluate C order message).2 = if matched.isEmpty then ⟨[], []⟩
        else evaluateGroup C engine.rules message .json "" matched := by
  have hcache := h.cache
  have hdecoder := h.decodes
  unfold CacheValid at hcache
  unfold RuleEngine.evaluate
  cases hruntime : engine.payloadRuntime with
  | json cache =>
      rw [hruntime] at hcache
      obtain ⟨hvalue, -⟩ := cache.getOrInsertWith_spec message.topic fun _ ↦
        order.indexes (engine.matcher.matchTopicIndexes message.topic)
      refine ⟨_, ?_, rfl⟩
      rw [hvalue]
      cases hcached : cache.entries.lookup message.topic with
      | some indexes => exact hcache _ indexes hcached
      | none => exact order.matched engine.matcher message.topic
  | protobuf pool cache =>
      rw [hruntime] at hdecoder
      cases hdecoder

theorem WellFormed.evaluate_protobuf {pool : Option DescriptorPool}
    (h : WellFormed (.protobuf pool) engine) (order : HashOrder) (message : Message) :
    ∃ groups, Grouped engine.rules engine.matcher message.topic groups ∧
      (engine.evaluate C order message).2 =
        evaluateProtobufRuleGroups C engine.rules message (.protobuf pool) groups := by
  have hcache := h.cache
  have hdecoder := h.decodes
  unfold CacheValid at hcache
  unfold RuleEngine.evaluate
  cases hruntime : engine.payloadRuntime with
  | json cache =>
      rw [hruntime] at hdecoder
      cases hdecoder
  | protobuf pool' cache =>
      rw [hruntime] at hcache hdecoder
      cases hdecoder
      obtain ⟨hvalue, -⟩ := cache.getOrInsertWith_spec message.topic fun _ ↦
        buildProtobufSchemaRuleGroups order engine.rules
          (order.indexes (engine.matcher.matchTopicIndexes message.topic))
      refine ⟨_, ?_, rfl⟩
      rw [hvalue]
      cases hcached : cache.entries.lookup message.topic with
      | some groups => exact hcache _ groups hcached
      | none => exact grouped_build order engine.rules (order.matched engine.matcher _)

variable (C) (rules : List (Option CompiledRule)) (message : Message)

theorem evaluateSingleRule_live {rules : List (Option CompiledRule)} (ir : MsgIr)
    (parts : List String) {i : Nat} {rule : CompiledRule} (hrule : liveRule rules i = some rule) :
    ∃ attempt, evaluateSingleRule C rules message ir parts i = some attempt ∧
      attempt.ruleIndex = i := by
  rw [evaluateSingleRule, hrule]
  apply Exists.intro
  apply And.intro rfl
  dsimp only
  split <;> rfl

-- dead slots are skipped, every live one gives one attempt
theorem map_ruleIndex_evaluateMatched (ir : MsgIr) (matched : List Nat) :
    (evaluateMatchedRulesWithDecodedPayload C rules message ir matched).map EvalAttempt.ruleIndex =
      matched.filter fun i ↦ (liveRule rules i).isSome := by
  unfold evaluateMatchedRulesWithDecodedPayload
  generalize (if matchedRulesRequireTopicParts rules matched then levels message.topic else []) = parts
  induction matched with
  | nil => rfl
  | cons i rest ih =>
      cases hrule : liveRule rules i with
      | none =>
          have hattempt : evaluateSingleRule C rules message ir parts i = none := by
            rw [evaluateSingleRule, hrule]
            rfl
          rw [List.filterMap_cons_none hattempt, ih, List.filter_cons_of_neg (by simp [hrule])]
      | some rule =>
          obtain ⟨attempt, hattempt, hindex⟩ := evaluateSingleRule_live C message ir parts hrule
          rw [List.filterMap_cons_some hattempt, List.map_cons, hindex, ih,
            List.filter_cons_of_pos (by simp [hrule])]

theorem map_ruleIndex_evaluateGroup {decoder : PayloadDecoder} {schema : String}
    {matched : List Nat}
    (h : (evaluateGroup C rules message decoder schema matched).payloadErrors = []) :
    (evaluateGroup C rules message decoder schema matched).attempts.map EvalAttempt.ruleIndex =
      matched.filter fun i ↦ (liveRule rules i).isSome := by
  unfold evaluateGroup at h ⊢
  split at h
  · exact map_ruleIndex_evaluateMatched C rules message _ matched
  · cases h

theorem map_ruleIndex_evaluateGroups {decoder : PayloadDecoder}
    {groups : List ProtobufSchemaRuleGroup}
    (h : (evaluateProtobufRuleGroups C rules message decoder groups).payloadErrors = []) :
    (evaluateProtobufRuleGroups C rules message decoder groups).attempts.map
        EvalAttempt.ruleIndex =
      (groups.flatMap ProtobufSchemaRuleGroup.ruleIndexes).filter
        fun i ↦ (liveRule rules i).isSome := by
  induction groups with
  | nil => rfl
  | cons group rest ih =>
      obtain ⟨hgroup, hrest⟩ := List.append_eq_nil_iff.mp h
      rw [List.flatMap_cons, List.filter_append, ← ih hrest,
        ← map_ruleIndex_evaluateGroup C rules message hgroup, ← List.map_append]
      rfl

end Outcome

/-! ## A small engine -/

-- sets in increasing order, maps in the order they were filled
def HashOrder.increasing : HashOrder where
  indexes s := (List.range (s.sup id + 1)).filter (· ∈ s)
  groups m := m.entries.map fun e ↦ (e.1, e.2)
  hindexes s := by
    apply And.intro (List.nodup_range.filter _)
    intro i
    rw [List.mem_filter, List.mem_range, decide_eq_true_iff, and_iff_right_iff_imp]
    intro hi
    exact Nat.lt_succ_of_le (Finset.le_sup (f := id) hi)
  hgroups m := List.Perm.refl _

-- `select <items> from "<filter>"`
def demoQuery (items : List SelectItem) (filter : String) : Query :=
  { withClause := none
    body := .select
      { distinct := none
        top := none
        projection := items
        fromTables := [{ relation := .table [⟨filter, some '"'⟩] none [], joins := [] }]
        selection := none
        groupBy := .expressions []
        having := none
        others := [] }
    orderBy := []
    limit := none
    limitBy := []
    offset := none
    fetch := none }

def selectAll (filter : String) : String := "select * from \"" ++ filter ++ "\""

def selectTemp (filter : String) : String := "select temp from \"" ++ filter ++ "\""

/-- Parses the two kinds of texts above; no bytes are JSON. -/
def demoCrates : Crates where
  isWord := Char.isAlphanum
  parseSql sql :=
    let filter (skipped : String) := String.ofList ((sql.toList.drop skipped.length).dropLast)
    .ok [.query (if sql.toList.take 8 = "select *".toList
      then demoQuery [.wildcard none] (filter "select * from \"")
      else demoQuery [.unnamedExpr (.identifier ⟨"temp", none⟩)] (filter "select temp from \""))]
  exprToString _ := "temp"
  nameToString name := String.join (name.map fun ident ↦ "\"" ++ ident.value ++ "\"")
  hash64 text := UInt64.ofNat text.length
  valueFromSlice _ := .error "expected value"
  valueToVec _ := .ok []
  ruleFileFromSlice _ := .error "expected value"

-- an engine with the rules of some texts
def demoEngine (texts : List String) : RuleEngine :=
  ((texts.map fun text ↦ ⟨text, [], none⟩).foldl (fun engine rule ↦ (engine.addRule demoCrates rule).1)
    (RuleEngine.newWithCacheCapacity .json 1))

theorem reachable_demoEngine (texts : List String) :
    (engineSystem demoCrates .json 1).Reachable (demoEngine texts) := by
  unfold demoEngine
  generalize hinit : RuleEngine.newWithCacheCapacity .json 1 = engine
  have hreach : (engineSystem demoCrates .json 1).Reachable engine :=
    hinit ▸ (engineSystem demoCrates .json 1).reachable_init
  clear hinit
  induction texts generalizing engine with
  | nil => exact hreach
  | cons text rest ih => exact ih _ (hreach.step (a := .addRule ⟨text, [], none⟩) rfl)

/-! ## The main result -/

/-- In every reachable engine, a message all of whose decodes succeed has exactly the live rules
evaluated whose filter the naive match accepts, each once. -/
theorem evaluate_matching {C : Crates} {decoder : PayloadDecoder} {capacity : Nat}
    {engine : RuleEngine} (h : (engineSystem C decoder capacity).Reachable engine)
    (order : HashOrder) (message : Message)
    (hdecoded : (engine.evaluate C order message).2.payloadErrors = []) :
    ((engine.evaluate C order message).2.attempts.map EvalAttempt.ruleIndex).Nodup ∧
      ∀ i, i ∈ (engine.evaluate C order message).2.attempts.map EvalAttempt.ruleIndex ↔
        ∃ rule, liveRule engine.rules i = some rule ∧
          matchTopic rule.topicFilter message.topic = true := by
  have hwf := wellFormed h
  cases decoder with
  | json =>
      obtain ⟨matched, hmatched, houtcome⟩ := hwf.evaluate_json (C := C) order message
      have hindexes : (engine.evaluate C order message).2.attempts.map EvalAttempt.ruleIndex =
          matched.filter fun i ↦ (liveRule engine.rules i).isSome := by
        rw [houtcome] at hdecoded ⊢
        split at hdecoded
        · rename_i hempty
          rw [if_pos hempty, List.isEmpty_iff.mp hempty]
          rfl
        · rename_i hempty
          rw [if_neg hempty]
          exact map_ruleIndex_evaluateGroup C engine.rules message hdecoded
      rw [hindexes]
      apply And.intro (hmatched.nodup.filter _)
      intro i
      rw [List.mem_filter, hmatched.mem, Option.isSome_iff_exists]
      constructor
      · intro hlive
        rcases hlive with ⟨hi, rule, hrule⟩
        exact ⟨rule, hrule, (hwf.mem_match hrule _).mp hi⟩
      · intro haccepted
        rcases haccepted with ⟨rule, hrule, hmatch⟩
        exact ⟨(hwf.mem_match hrule _).mpr hmatch, rule, hrule⟩
  | protobuf pool =>
      obtain ⟨groups, hgroups, houtcome⟩ := hwf.evaluate_protobuf (C := C) order message
      rw [houtcome] at hdecoded ⊢
      rw [map_ruleIndex_evaluateGroups C engine.rules message hdecoded]
      apply And.intro (hgroups.nodup.filter _)
      intro i
      rw [List.mem_filter, List.mem_flatMap, Option.isSome_iff_exists]
      constructor
      · intro hlive
        rcases hlive with ⟨⟨group, hgroup, hi⟩, rule, hrule⟩
        exact ⟨rule, hrule, (hwf.mem_match hrule _).mp ((hgroups.mem group hgroup i).mp hi).1⟩
      · intro haccepted
        rcases haccepted with ⟨rule, hrule, hmatch⟩
        -- the rule is bound to some schema, and the group of that schema has it
        have hi := (hwf.mem_match hrule message.topic).mpr hmatch
        obtain ⟨schema, hbinding⟩ := hwf.bound i rule hrule (by simp)
        have hschema := schemaOf_eq_some.mpr ⟨rule, hrule, hbinding⟩
        obtain ⟨group, hgroup, rfl⟩ := hgroups.covers i hi schema hschema
        exact ⟨⟨group, hgroup, (hgroups.mem group hgroup i).mpr ⟨hi, hschema⟩⟩, rule, hrule⟩

theorem evaluate_matching_demo :
    (((demoEngine [selectAll "a/+", selectAll "#", selectAll "b"]).evaluate demoCrates .increasing
        (Message.new "a/b" [])).2.attempts.map EvalAttempt.ruleIndex).Nodup ∧
      ∀ i, i ∈ ((demoEngine [selectAll "a/+", selectAll "#", selectAll "b"]).evaluate demoCrates
          .increasing (Message.new "a/b" [])).2.attempts.map EvalAttempt.ruleIndex ↔
        ∃ rule, liveRule (demoEngine [selectAll "a/+", selectAll "#", selectAll "b"]).rules i =
            some rule ∧ matchTopic rule.topicFilter "a/b" = true :=
  evaluate_matching (reachable_demoEngine _) .increasing (Message.new "a/b" []) (by decide)

end Tenon.Core
