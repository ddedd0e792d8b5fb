import Tenon.Core.EngineOutcome
import Tenon.Core.JsonPaths

/-!
# EngineIsolation — what other rules do to the result of a rule

All rules matched by a JSON message, and all rules of a schema matched by a protobuf message, share one
decoded payload.  Its fields are the same whichever other rules asked for fields of their own.  What the
others do change under JSON is whether the bytes are parsed at all: a rule that reads no field loses its
result when another rule has the parser run on bytes that are not a JSON object.
-/

namespace Tenon.Core

/-- How the payload answers the fields a plan asks for, if it decodes. -/
def payloadView (C : Crates) (payload : List UInt8) (schema : String) :
    PayloadDecoder → Option (List String → Option PayloadValue)
  | .json => ((C.valueFromSlice payload).toOption.bind fun parsed ↦ parsed.1.asObject).map
      fun map segs ↦ (lookupJsonPath map segs).map PayloadValue.ofJson
  | .protobuf pool => pool.bind fun pool ↦ (pool.decodeMessage schema).bind fun decode ↦
      (decode payload).toOption.map extractedValue

/-- A decoding result that answers the fields as the view does. -/
def AnswersAs (view : Option (List String → Option PayloadValue)) (fields : List CompiledPayloadField) :
    Except PayloadError MsgIr → Prop
  | .ok ir => ∃ find, view = some find ∧ ∀ f ∈ fields, ir.getField f = find f.segments
  | .error _ => view = none

section Decoding

variable (C : Crates) (payload : List UInt8) (schema : String)

theorem answersAs_json {fields : List CompiledPayloadField} (hne : fields ≠ []) :
    AnswersAs (payloadView C payload schema .json) fields
      (decodePayloadIr C payload .json (.sparse fields) schema) := by
  have hview : payloadView C payload schema .json = ((C.valueFromSlice payload).toOption.bind
      fun parsed ↦ parsed.1.asObject).map
        fun map segs ↦ (lookupJsonPath map segs).map PayloadValue.ofJson := rfl
  rw [hview]
  cases hparse : C.valueFromSlice payload with
  | error err =>
      simp only [decodePayloadIr, decodeJsonIr, hparse]
      rfl
  | ok parsed =>
      simp only [decodePayloadIr, decodeJsonIr, hparse]
      cases hobject : parsed.1.asObject with
      | none => simp [AnswersAs, Except.mapError, Except.toOption, hobject, bind, Except.bind]
      | some map =>
          obtain ⟨ir, hir, hfields⟩ := exists_sparse map hne
          simp only [Except.mapError, Except.toOption, Option.bind_some, bind, Except.bind, hobject, hir]
          apply Exists.intro
          apply And.intro rfl
          intro f hf
          rw [hfields f hf, nestedValue, f.hsegments]

-- protobuf bytes are decoded under every plan
theorem answersAs_protobuf (pool : Option DescriptorPool) {plan : PayloadDecodePlan}
    {fields : List CompiledPayloadField}
    (hplan : ∀ message, ∃ ir, MsgIr.fromProtobufMessageWithDecodePlan message plan = .ok ir ∧
      ∀ f ∈ fields, ir.getField f = extractedValue message f.segments) :
    AnswersAs (payloadView C payload schema (.protobuf pool)) fields
      (decodePayloadIr C payload (.protobuf pool) plan schema) := by
  cases pool with
  | none => rfl
  | some pool =>
      have hview : payloadView C payload schema (.protobuf (some pool)) =
          (pool.decodeMessage schema).bind fun decode ↦
            (decode payload).toOption.map extractedValue := rfl
      rw [hview, decodePayloadIr, decodeDynamicProtobuf]
      cases pool.decodeMessage schema with
      | none => exact rfl
      | some decode =>
          rw [Option.bind_some]
          dsimp only
          cases decode payload with
          | error err => exact rfl
          | ok message =>
              rcases hplan message with ⟨ir, hir, hfields⟩
              change AnswersAs _ fields
                ((MsgIr.fromProtobufMessageWithDecodePlan message plan).mapError .build)
              rw [hir]
              exact ⟨_, rfl, hfields⟩

/-- A sparse plan answers its fields as the payload does. -/
theorem answersAs_sparse (decoder : PayloadDecoder) {fields : List CompiledPayloadField}
    (hne : fields ≠ []) :
    AnswersAs (payloadView C payload schema decoder) fields
      (decodePayloadIr C payload decoder (.sparse fields) schema) := by
  cases decoder with
  | json => exact answersAs_json C payload schema hne
  | protobuf pool =>
      exact answersAs_protobuf C payload schema pool
        fun decoded ↦ exists_sparse_protobuf decoded hne

end Decoding

/-! ## The result of a rule of a group -/

-- the message of a rule when its required fields are answered by `find`
def fieldsOutput (C : Crates) (rule : CompiledRule) (message : Message)
    (find : List String → Option PayloadValue) : Option Message :=
  ruleOutput C rule message (MsgIr.fillSparse find
    (MsgIr.withSparseLayout rule.requiredPayloadFields) rule.requiredPayloadFields)
    (levels message.topic)

theorem ruleOutput_eq (C : Crates) {rule : CompiledRule} (message : Message) {ir : MsgIr}
    {find : List String → Option PayloadValue}
    (hfields : ∀ f ∈ rule.requiredPayloadFields, ir.getField f = find f.segments) :
    ruleOutput C rule message ir (levels message.topic) = fieldsOutput C rule message find := by
  unfold fieldsOutput ruleOutput
  rw [evaluateRule_congr C rule message _ fun _ ↦ rfl]
  intro f hf
  rw [hfields f hf, MsgIr.getField_fillSparse find hf]

section Groups

variable (C : Crates) (rules : List (Option CompiledRule)) (message : Message)

/-- The view that the rules of a group share: under JSON the bytes are not looked at when no rule asks
for a field. -/
def sharedView (decoder : PayloadDecoder) (schema : String) (matched : List Nat) :
    Option (List String → Option PayloadValue) :=
  match decoder, (collectRequiredFields rules matched).isEmpty with
  | .json, true => some fun _ ↦ none
  | decoder, _ => payloadView C message.payload schema decoder

theorem answersAs_decodePlan (decoder : PayloadDecoder) (schema : String) (matched : List Nat) :
    AnswersAs (sharedView C rules message decoder schema matched)
      (collectRequiredFields rules matched)
      (decodePayloadIr C message.payload decoder (decodePlan rules matched) schema) := by
  unfold sharedView decodePlan
  cases collectRequiredFields rules matched with
  | nil =>
      cases decoder with
      | json => exact ⟨_, rfl, fun f hf ↦ absurd hf List.not_mem_nil⟩
      | protobuf pool =>
          exact answersAs_protobuf C message.payload schema pool
            fun decoded ↦ ⟨MsgIr.new, rfl, fun f hf ↦ absurd hf List.not_mem_nil⟩
  | cons field rest =>
      have hanswers := answersAs_sparse C message.payload schema decoder (List.cons_ne_nil field rest)
      cases decoder <;> exact hanswers

/-- A matched live slot has what its rule puts out on the shared view. -/
theorem messagesOf_evaluateGroup {decoder : PayloadDecoder} {schema : String} {matched : List Nat}
    (hnodup : matched.Nodup) {i : Nat} {rule : CompiledRule} (hrule : liveRule rules i = some rule)
    (hi : i ∈ matched) :
    (evaluateGroup C rules message decoder schema matched).messagesOf i =
      ((sharedView C rules message decoder schema matched).bind
        (fieldsOutput C rule message)).toList := by
  have hanswers := answersAs_decodePlan C rules message decoder schema matched
  unfold evaluateGroup
  cases hdecoded : decodePayloadIr C message.payload decoder (decodePlan rules matched) schema with
  | error err =>
      rw [hdecoded] at hanswers
      have hnone : sharedView C rules message decoder schema matched = none := hanswers
      rw [hnone]
      rfl
  | ok ir =>
      rw [hdecoded] at hanswers
      rcases hanswers with ⟨find, hview, hfields⟩
      rw [hview, Option.bind_some]
      dsimp only
      have hrequired : ∀ f ∈ rule.requiredPayloadFields, ir.getField f = find f.segments :=
        fun f hf ↦ hfields f (mem_collectRequiredFields.mpr ⟨i, hi, rule, hrule, hf⟩)
      rw [messagesOf_evaluateMatched C rules message ir hnodup hrule hi,
        ruleOutput_eq C message hrequired]

theorem messagesOf_evaluateGroups {pool : Option DescriptorPool}
    {groups : List ProtobufSchemaRuleGroup}
    (hnodup : (groups.flatMap ProtobufSchemaRuleGroup.ruleIndexes).Nodup) {i : Nat}
    {rule : CompiledRule} (hrule : liveRule rules i = some rule) (schema : String)
    (hschema : ∀ group ∈ groups, i ∈ group.ruleIndexes → group.schema = schema) :
    (evaluateProtobufRuleGroups C rules message (.protobuf pool) groups).messagesOf i =
      if i ∈ groups.flatMap ProtobufSchemaRuleGroup.ruleIndexes then
        ((payloadView C message.payload schema (.protobuf pool)).bind
          (fieldsOutput C rule message)).toList
      else [] := by
  induction groups with
  | nil => rfl
  | cons group rest ih =>
      rw [List.flatMap_cons, List.nodup_append] at hnodup
      rcases hnodup with ⟨hgroup, hrest, hdisjoint⟩
      rw [evaluateProtobufRuleGroups, messagesOf_append,
        ih hrest fun g hg ↦ hschema g (List.mem_cons_of_mem _ hg)]
      simp only [List.flatMap_cons, List.mem_append]
      by_cases hi : i ∈ group.ruleIndexes
      · -- no later group has the slot
        have hnot : i ∉ rest.flatMap ProtobufSchemaRuleGroup.ruleIndexes :=
          fun h ↦ hdisjoint i hi i h rfl
        rw [if_neg hnot, if_pos (Or.inl hi), List.append_nil,
          messagesOf_evaluateGroup C rules message hgroup hrule hi,
          hschema group List.mem_cons_self hi]
        rfl
      · rw [messagesOf_evaluateGroup_of_not_mem C rules message hi, List.nil_append]
        simp [hi]

end Groups

/-! ## The result of a live rule -/

-- some live rule that the topic matches asks for a payload field
def PayloadRead (rules : List (Option CompiledRule)) (topic : String) : Prop :=
  ∃ i rule, liveRule rules i = some rule ∧ matchTopic rule.topicFilter topic = true ∧
    rule.requiredPayloadFields ≠ []

def NotJsonObject (C : Crates) (payload : List UInt8) : Prop :=
  ∀ parsed, C.valueFromSlice payload = .ok parsed → parsed.1.asObject = none

theorem payloadView_json_eq_none_iff {C : Crates} {payload : List UInt8} (schema : String) :
    payloadView C payload schema .json = none ↔ NotJsonObject C payload := by
  rw [payloadView, Option.map_eq_none_iff, NotJsonObject]
  cases C.valueFromSlice payload with
  | error err => simp [Except.toOption]
  | ok parsed => simp [Except.toOption]

section Engines

variable {C : Crates} {engine : RuleEngine} {i : Nat} {rule : CompiledRule}

theorem WellFormed.collectRequiredFields_eq_nil_iff {decoder : PayloadDecoder}
    (h : WellFormed decoder engine) {topic : String} {matched : List Nat}
    (hmatched : Matched engine.matcher topic matched) :
    collectRequiredFields engine.rules matched = [] ↔ ¬ PayloadRead engine.rules topic := by
  rw [List.eq_nil_iff_forall_not_mem]
  constructor
  · intro hnone hread
    rcases hread with ⟨k, other, hother, hmatch, hreads⟩
    obtain ⟨f, hf⟩ := List.exists_mem_of_ne_nil _ hreads
    have hk := (hmatched.mem k).mpr ((h.mem_match hother topic).mpr hmatch)
    exact hnone f (mem_collectRequiredFields.mpr ⟨k, hk, other, hother, hf⟩)
  · intro hnot f hf
    obtain ⟨k, hk, other, hother, hf⟩ := mem_collectRequiredFields.mp hf
    have hmatch := (h.mem_match hother topic).mp ((hmatched.mem k).mp hk)
    exact hnot ⟨k, other, hother, hmatch, List.ne_nil_of_mem hf⟩

theorem WellFormed.messagesOf_json (h : WellFormed .json engine) (order : HashOrder)
    (message : Message) (hrule : liveRule engine.rules i = some rule)
    (hmatch : matchTopic rule.topicFilter message.topic = true) :
    ∃ view, (engine.evaluate C order message).2.messagesOf i =
        (view.bind (fieldsOutput C rule message)).toList ∧
      (PayloadRead engine.rules message.topic → view = payloadView C message.payload "" .json) ∧
      (¬ PayloadRead engine.rules message.topic → view = some fun _ ↦ none) := by
  obtain ⟨matched, hmatched, houtcome⟩ := h.evaluate_json (C := C) order message
  have hi := (hmatched.mem i).mpr ((h.mem_match hrule _).mpr hmatch)
  rw [houtcome, if_neg (by simpa using List.ne_nil_of_mem hi),
    messagesOf_evaluateGroup C engine.rules message hmatched.nodup hrule hi]
  have hnil := h.collectRequiredFields_eq_nil_iff hmatched
  apply Exists.intro
  apply And.intro rfl
  constructor
  · intro hread
    have hne : collectRequiredFields engine.rules matched ≠ [] := fun h ↦ hnil.mp h hread
    obtain ⟨field, rest, hfields⟩ := List.exists_cons_of_ne_nil hne
    unfold sharedView
    rw [hfields]
    rfl
  · intro hread
    unfold sharedView
    rw [hnil.mpr hread]
    rfl

-- a rule that reads the payload has it parsed
theorem WellFormed.messagesOf_reading (h : WellFormed .json engine) (order : HashOrder)
    (message : Message) (hrule : liveRule engine.rules i = some rule)
    (hmatch : matchTopic rule.topicFilter message.topic = true)
    (hreads : rule.requiredPayloadFields ≠ []) :
    (engine.evaluate C order message).2.messagesOf i =
      ((payloadView C message.payload "" .json).bind (fieldsOutput C rule message)).toList := by
  obtain ⟨view, hresult, hparsed, -⟩ := h.messagesOf_json (C := C) order message hrule hmatch
  rw [hresult, hparsed ⟨i, rule, hrule, hmatch, hreads⟩]

-- no rule has a result when the payload has to be parsed and cannot be
theorem WellFormed.messagesOf_unparsed (h : WellFormed .json engine) (order : HashOrder)
    (message : Message) (hrule : liveRule engine.rules i = some rule)
    (hmatch : matchTopic rule.topicFilter message.topic = true)
    (hread : PayloadRead engine.rules message.topic) (hpayload : NotJsonObject C message.payload) :
    (engine.evaluate C order message).2.messagesOf i = [] := by
  obtain ⟨view, hresult, hparsed, -⟩ := h.messagesOf_json (C := C) order message hrule hmatch
  have hnone := (payloadView_json_eq_none_iff "").mpr hpayload
  rw [hresult, hparsed hread, hnone]
  rfl

-- else a rule that reads no field has its result, whatever the payload is
theorem WellFormed.messagesOf_notReading (h : WellFormed .json engine) (order : HashOrder)
    (message : Message) (hrule : liveRule engine.rules i = some rule)
    (hmatch : matchTopic rule.topicFilter message.topic = true)
    (hfields : rule.requiredPayloadFields = [])
    (hparses : ¬ (PayloadRead engine.rules message.topic ∧ NotJsonObject C message.payload)) :
    (engine.evaluate C order message).2.messagesOf i =
      (ruleOutput C rule message MsgIr.new (levels message.topic)).toList := by
  have hany (find : List String → Option PayloadValue) : fieldsOutput C rule message find =
      ruleOutput C rule message MsgIr.new (levels message.topic) :=
    (ruleOutput_eq C message fun f hf ↦ by rw [hfields] at hf; cases hf).symm
  obtain ⟨view, hresult, hparsed, hunparsed⟩ :=
    h.messagesOf_json (C := C) order message hrule hmatch
  rw [hresult]
  by_cases hread : PayloadRead engine.rules message.topic
  · rw [hparsed hread]
    cases hview : payloadView C message.payload "" .json with
    | none => exact absurd ⟨hread, (payloadView_json_eq_none_iff "").mp hview⟩ hparses
    | some find => rw [Option.bind_some, hany]
  · rw [hunparsed hread, Option.bind_some, hany]

theorem WellFormed.messagesOf_protobuf {pool : Option DescriptorPool}
    (h : WellFormed (.protobuf pool) engine) (order : HashOrder) (message : Message)
    (hrule : liveRule engine.rules i = some rule)
    (hmatch : matchTopic rule.topicFilter message.topic = true) {schema : String}
    (hbinding : rule.payloadBinding = .protobuf schema) :
    (engine.evaluate C order message).2.messagesOf i =
      ((payloadView C message.payload schema (.protobuf pool)).bind
        (fieldsOutput C rule message)).toList := by
  obtain ⟨groups, hgroups, houtcome⟩ := h.evaluate_protobuf (C := C) order message
  have hi := (h.mem_match hrule message.topic).mpr hmatch
  have hschema := schemaOf_eq_some.mpr ⟨rule, hrule, hbinding⟩
  rw [houtcome, messagesOf_evaluateGroups C engine.rules message hgroups.nodup hrule schema, if_pos]
  · obtain ⟨group, hgroup, rfl⟩ := hgroups.covers i hi schema hschema
    exact List.mem_flatMap.mpr ⟨group, hgroup, (hgroups.mem group hgroup i).mpr ⟨hi, hschema⟩⟩
  · intro group hgroup hig
    have hgroupSchema := ((hgroups.mem group hgroup i).mp hig).2
    exact Option.some.inj (hgroupSchema.symm.trans hschema)

-- a rule whose filter the topic does not match has no result
theorem WellFormed.messagesOf_of_not_match {decoder : PayloadDecoder}
    (h : WellFormed decoder engine) (order : HashOrder) (message : Message)
    (hrule : liveRule engine.rules i = some rule)
    (hmatch : matchTopic rule.topicFilter message.topic ≠ true) :
    (engine.evaluate C order message).2.messagesOf i = [] := by
  have hi : i ∉ engine.matcher.matchTopicIndexes message.topic :=
    fun hi ↦ hmatch ((h.mem_match hrule _).mp hi)
  cases decoder with
  | json =>
      obtain ⟨matched, hmatched, houtcome⟩ := h.evaluate_json (C := C) order message
      rw [houtcome]
      split
      · rfl
      · exact messagesOf_evaluateGroup_of_not_mem C engine.rules message
          fun hmem ↦ hi ((hmatched.mem i).mp hmem)
  | protobuf pool =>
      obtain ⟨groups, hgroups, houtcome⟩ := h.evaluate_protobuf (C := C) order message
      obtain ⟨schema, hbinding⟩ := h.bound i rule hrule (by simp)
      have hschema := schemaOf_eq_some.mpr ⟨rule, hrule, hbinding⟩
      have hnone (group : ProtobufSchemaRuleGroup) (hgroup : group ∈ groups) :
          i ∉ group.ruleIndexes := fun hig ↦ hi ((hgroups.mem group hgroup i).mp hig).1
      rw [houtcome, messagesOf_evaluateGroups C engine.rules message hgroups.nodup hrule
        schema (fun group hgroup hig ↦ absurd hig (hnone group hgroup)), if_neg]
      intro hmem
      obtain ⟨group, hgroup, hig⟩ := List.mem_flatMap.mp hmem
      exact hnone group hgroup hig

/-- The result of a live rule on a message is at most one message, which the rules alone determine:
neither what is cached nor the iteration order matters. -/
theorem WellFormed.exists_output {decoder : PayloadDecoder} (h : WellFormed decoder engine)
    (message : Message) (hrule : liveRule engine.rules i = some rule) :
    ∃ output : Option Message, ∀ (other : RuleEngine) (order : HashOrder),
      WellFormed decoder other → other.rules = engine.rules →
        (other.evaluate C order message).2.messagesOf i = output.toList := by
  by_cases hmatch : matchTopic rule.topicFilter message.topic = true
  · cases decoder with
    | json =>
        by_cases hread : PayloadRead engine.rules message.topic
        · exists (payloadView C message.payload "" .json).bind (fieldsOutput C rule message)
          intro other order hother hrules
          obtain ⟨view, hresult, hparsed, -⟩ :=
            hother.messagesOf_json (C := C) order message (hrules ▸ hrule) hmatch
          rw [hresult, hparsed (hrules ▸ hread)]
        · exists fieldsOutput C rule message fun _ ↦ none
          intro other order hother hrules
          obtain ⟨view, hresult, -, hunparsed⟩ :=
            hother.messagesOf_json (C := C) order message (hrules ▸ hrule) hmatch
          rw [hresult, hunparsed (hrules ▸ hread)]
          rfl
    | protobuf pool =>
        obtain ⟨schema, hbinding⟩ := h.bound i rule hrule (by simp)
        exists (payloadView C message.payload schema (.protobuf pool)).bind
          (fieldsOutput C rule message)
        intro other order hother hrules
        exact hother.messagesOf_protobuf order message (hrules ▸ hrule) hmatch hbinding
  · exists none
    intro other order hother hrules
    exact hother.messagesOf_of_not_match order message (hrules ▸ hrule) hmatch

end Engines

/-! ## The main result -/

/-- The rule matches and fires without reading the payload, some other matched rule reads it, and the
bytes are not a JSON object. -/
structure Disturbed (C : Crates) (decoder : PayloadDecoder) (rules : List (Option CompiledRule))
    (rule : CompiledRule) (message : Message) : Prop where
  json : decoder = .json
  hmatches : matchTopic rule.topicFilter message.topic = true
  readsNothing : rule.requiredPayloadFields = []
  othersRead : PayloadRead rules message.topic
  undecodable : NotJsonObject C message.payload
  fires : ruleOutput C rule message MsgIr.new (levels message.topic) ≠ none

/-- A rule gets the same result in an engine and in one that holds only this rule, unless it is
disturbed. -/
theorem messagesOf_alone_iff {C : Crates} {decoder : PayloadDecoder} {capacity capacity' : Nat}
    {engine alone : RuleEngine} (h : (engineSystem C decoder capacity).Reachable engine)
    (halone : (engineSystem C decoder capacity').Reachable alone) {i j : Nat} {rule : CompiledRule}
    (hrule : liveRule engine.rules i = some rule) (hsingle : liveRule alone.rules j = some rule)
    (honly : ∀ k other, liveRule alone.rules k = some other → k = j) (order order' : HashOrder)
    (message : Message) :
    (engine.evaluate C order message).2.messagesOf i =
        (alone.evaluate C order' message).2.messagesOf j ↔
      ¬ Disturbed C decoder engine.rules rule message := by
  have hwf := wellFormed h
  have hwf' := wellFormed halone
  by_cases hmatch : matchTopic rule.topicFilter message.topic = true
  · cases decoder with
    | protobuf pool =>
        obtain ⟨schema, hbinding⟩ := hwf.bound i rule hrule (by simp)
        rw [hwf.messagesOf_protobuf order message hrule hmatch hbinding,
          hwf'.messagesOf_protobuf order' message hsingle hmatch hbinding]
        exact iff_of_true rfl fun hd ↦ by cases hd.json
    | json =>
        by_cases hfields : rule.requiredPayloadFields = []
        · -- alone, the rule has the payload left unparsed
          have hquiet : ¬ PayloadRead alone.rules message.topic := by
            intro hread
            rcases hread with ⟨k, other, hother, -, hreads⟩
            cases honly k other hother
            cases hsingle.symm.trans hother
            exact hreads hfields
          rw [hwf'.messagesOf_notReading order' message hsingle hmatch hfields
            fun hparses ↦ hquiet hparses.1]
          by_cases hfails : PayloadRead engine.rules message.topic ∧ NotJsonObject C message.payload
          · rw [hwf.messagesOf_unparsed order message hrule hmatch hfails.1 hfails.2]
            constructor
            · intro heq hd
              exact hd.fires (Option.toList_eq_nil_iff.mp heq.symm)
            · intro hd
              have hsilent : ruleOutput C rule message MsgIr.new (levels message.topic) = none := by
                by_contra hfires
                exact hd ⟨rfl, hmatch, hfields, hfails.1, hfails.2, hfires⟩
              rw [hsilent]
              rfl
          · rw [hwf.messagesOf_notReading order message hrule hmatch hfields hfails]
            exact iff_of_true rfl fun hd ↦ hfails ⟨hd.othersRead, hd.undecodable⟩
        · -- the rule itself has the payload parsed, in both engines
          rw [hwf.messagesOf_reading order message hrule hmatch hfields,
            hwf'.messagesOf_reading order' message hsingle hmatch hfields]
          exact iff_of_true rfl fun hd ↦ hfields hd.readsNothing
  · rw [hwf.messagesOf_of_not_match order message hrule hmatch,
      hwf'.messagesOf_of_not_match order' message hsingle hmatch]
    exact iff_of_true rfl fun hd ↦ hmatch hd.hmatches

-- the rule `select * from "t"`, as compiled
def demoRule : CompiledRule := ((demoEngine [selectAll "t"]).rules.head (by decide)).get (by decide)

theorem messagesOf_alone_iff_demo :
    ((demoEngine [selectAll "t", selectTemp "u"]).evaluate demoCrates .increasing
          (Message.new "t" [])).2.messagesOf 0 =
        ((demoEngine [selectAll "t"]).evaluate demoCrates .increasing
          (Message.new "t" [])).2.messagesOf 0 ↔
      ¬ Disturbed demoCrates .json (demoEngine [selectAll "t", selectTemp "u"]).rules demoRule
        (Message.new "t" []) := by
  have honly (k : Nat) (other : CompiledRule)
      (hother : liveRule (demoEngine [selectAll "t"]).rules k = some other) : k = 0 := by
    have hlt := lt_of_liveRule hother
    have hlength : (demoEngine [selectAll "t"]).rules.length = 1 := by decide
    omega
  exact messagesOf_alone_iff (reachable_demoEngine _) (reachable_demoEngine _) rfl rfl honly
    .increasing .increasing (Message.new "t" [])

/-- With a rule beside it that reads a field, `select *` loses its result on the empty payload. -/
theorem messagesOf_ne_alone :
    liveRule (demoEngine [selectAll "t", selectTemp "t"]).rules 0 =
        liveRule (demoEngine [selectAll "t"]).rules 0 ∧
      ((demoEngine [selectAll "t", selectTemp "t"]).evaluate demoCrates .increasing
        (Message.new "t" [])).2.messagesOf 0 = [] ∧
      ((demoEngine [selectAll "t"]).evaluate demoCrates .increasing
        (Message.new "t" [])).2.messagesOf 0 ≠ [] := by
  exact ⟨rfl, by decide +kernel, by decide +kernel⟩

end Tenon.Core
