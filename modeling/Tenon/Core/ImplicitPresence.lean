import Tenon.Core.EngineOutcome
import Tenon.Core.ProtobufPlans

/-!
# ImplicitPresence — protobuf fields that are absent when they have their default

A singular scalar field without explicit presence is present exactly when its value differs from the
default of its type, whether or not the default was on the wire.  Both decode plans ask for presence
before they read a value, so such a field has no payload value while it has its default.
-/

open Reasoning Reasoning.Binary64

namespace Tenon.Core

open PayloadValue ProtobufValue

inductive ScalarKind where
  | bool
  | i32
  | i64
  | u32
  | u64
  | f32
  | f64
  | string
  | bytes
  | enumNumber

namespace ScalarKind

def Value : ScalarKind → Type
  | .bool => Bool
  | .i32 => Int32
  | .i64 => Int64
  | .u32 => UInt32
  | .u64 => UInt64
  | .f32 => F64
  | .f64 => F64
  | .string => String
  | .bytes => List UInt8
  | .enumNumber => Int32

def toProtobuf : (kind : ScalarKind) → kind.Value → ProtobufValue
  | .bool, b => .bool b
  | .i32, n => .i32 n
  | .i64, n => .i64 n
  | .u32, n => .u32 n
  | .u64, n => .u64 n
  | .f32, x => .f32 x
  | .f64, x => .f64 x
  | .string, s => .string s
  | .bytes, bs => .bytes bs
  | .enumNumber, n => .enumNumber n

def default : (kind : ScalarKind) → kind.Value
  | .bool => false
  | .i32 => (0 : Int32)
  | .i64 => (0 : Int64)
  | .u32 => (0 : UInt32)
  | .u64 => (0 : UInt64)
  | .f32 => F64.zero
  | .f64 => F64.zero
  | .string => ""
  | .bytes => ([] : List UInt8)
  -- the first value of a proto3 enumeration is zero
  | .enumNumber => (0 : Int32)

/-- `==` against the default, which for floats is the comparison of IEEE 754. -/
def isDefault : (kind : ScalarKind) → kind.Value → Bool
  | .bool, (b : Bool) => !b
  | .i32, (n : Int32) => n == 0
  | .i64, (n : Int64) => n == 0
  | .u32, (n : UInt32) => n == 0
  | .u64, (n : UInt64) => n == 0
  | .f32, x => F64.eq x F64.zero
  | .f64, x => F64.eq x F64.zero
  | .string, (s : String) => s == ""
  | .bytes, (bs : List UInt8) => bs.isEmpty
  | .enumNumber, (n : Int32) => n == 0

theorem isDefault_default (kind : ScalarKind) : kind.isDefault kind.default = true := by
  cases kind <;> rfl

end ScalarKind

/-- A declared field of a message, with what decoding stored for it. -/
inductive FieldState where
  /-- A singular scalar without explicit presence; nothing is stored when it was not on the wire. -/
  | implicit (kind : ScalarKind) (stored : Option kind.Value)
  /-- A sub-message that is present. -/
  | message (fields : List (String × FieldState))
  | messageList (elements : List (List (String × FieldState)))
  | messageMap (entries : List (ProtobufMapKey × List (String × FieldState)))
  /-- A field of another sort that is present. -/
  | present (value : ProtobufValue)
  | absent

abbrev StoredMessage := List (String × FieldState)

/-- `get_field`: the stored value or the default. -/
def scalarValue (kind : ScalarKind) (stored : Option kind.Value) : kind.Value :=
  stored.getD kind.default

mutual

/-- What `has_field` and `fields()` show of a message. -/
def viewFields : List (String × FieldState) → DynamicMessage
  | [] => []
  | (name, state) :: rest => (name, viewState state) :: viewFields rest

def viewState : FieldState → Option ProtobufValue
  | .implicit kind stored =>
      if kind.isDefault (scalarValue kind stored) then none
      else some (kind.toProtobuf (scalarValue kind stored))
  | .message fields => some (.message (viewFields fields))
  | .messageList elements => if elements.isEmpty then none else some (.list (viewElements elements))
  | .messageMap entries => if entries.isEmpty then none else some (.map (viewEntries entries))
  | .present value => some value
  | .absent => none

def viewElements : List (List (String × FieldState)) → List ProtobufValue
  | [] => []
  | fields :: rest => .message (viewFields fields) :: viewElements rest

def viewEntries :
    List (ProtobufMapKey × List (String × FieldState)) → List (ProtobufMapKey × ProtobufValue)
  | [] => []
  | (key, fields) :: rest => (key, .message (viewFields fields)) :: viewEntries rest

end

mutual

/-- The message with every default stored. -/
def storeDefaults : List (String × FieldState) → List (String × FieldState)
  | [] => []
  | (name, state) :: rest => (name, storeDefault state) :: storeDefaults rest

def storeDefault : FieldState → FieldState
  | .implicit kind stored => .implicit kind (some (scalarValue kind stored))
  | .message fields => .message (storeDefaults fields)
  | .messageList elements => .messageList (storeElements elements)
  | .messageMap entries => .messageMap (storeEntries entries)
  | .present value => .present value
  | .absent => .absent

def storeElements : List (List (String × FieldState)) → List (List (String × FieldState))
  | [] => []
  | fields :: rest => storeDefaults fields :: storeElements rest

def storeEntries : List (ProtobufMapKey × List (String × FieldState)) →
    List (ProtobufMapKey × List (String × FieldState))
  | [] => []
  | (key, fields) :: rest => (key, storeDefaults fields) :: storeEntries rest

end

/-- The messages differ only in which defaults were encoded. -/
def SameUpToDefaults (message message' : StoredMessage) : Prop :=
  storeDefaults message = storeDefaults message'

/-- The path leads through present sub-messages to a scalar without explicit presence. -/
inductive LeadsTo : StoredMessage → List String → (kind : ScalarKind) → Option kind.Value → Prop where
  | here {fields : StoredMessage} {name : String} {kind : ScalarKind} {stored : Option kind.Value}
      (h : (name, .implicit kind stored) ∈ fields) : LeadsTo fields [name] kind stored
  | through {fields sub : StoredMessage} {name : String} {path : List String} {kind : ScalarKind}
      {stored : Option kind.Value} (h : (name, .message sub) ∈ fields)
      (hrest : LeadsTo sub path kind stored) : LeadsTo fields (name :: path) kind stored

/-! ## Defaults leave no trace -/

mutual

theorem viewFields_storeDefaults (fields : List (String × FieldState)) :
    viewFields (storeDefaults fields) = viewFields fields := by
  match fields with
  | [] => rfl
  | (name, state) :: rest =>
      rw [storeDefaults, viewFields, viewFields, viewState_storeDefault state,
        viewFields_storeDefaults rest]

theorem viewState_storeDefault (state : FieldState) :
    viewState (storeDefault state) = viewState state := by
  match state with
  | .implicit kind stored => rfl
  | .message fields =>
      rw [storeDefault, viewState, viewState, viewFields_storeDefaults fields]
  | .messageList elements =>
      have hempty : (storeElements elements).isEmpty = elements.isEmpty := by
        cases elements <;> rfl
      rw [storeDefault, viewState, viewState, viewElements_storeElements elements, hempty]
  | .messageMap entries =>
      have hempty : (storeEntries entries).isEmpty = entries.isEmpty := by
        cases entries <;> rfl
      rw [storeDefault, viewState, viewState, viewEntries_storeEntries entries, hempty]
  | .present value => rfl
  | .absent => rfl

theorem viewElements_storeElements (elements : List (List (String × FieldState))) :
    viewElements (storeElements elements) = viewElements elements := by
  match elements with
  | [] => rfl
  | fields :: rest =>
      rw [storeElements, viewElements, viewElements, viewFields_storeDefaults fields,
        viewElements_storeElements rest]

theorem viewEntries_storeEntries (entries : List (ProtobufMapKey × List (String × FieldState))) :
    viewEntries (storeEntries entries) = viewEntries entries := by
  match entries with
  | [] => rfl
  | (key, fields) :: rest =>
      rw [storeEntries, viewEntries, viewEntries, viewFields_storeDefaults fields,
        viewEntries_storeEntries rest]

end

/-- Messages that differ only in encoded defaults look the same. -/
theorem SameUpToDefaults.viewFields_eq {message message' : StoredMessage}
    (h : SameUpToDefaults message message') : viewFields message = viewFields message' := by
  rw [← viewFields_storeDefaults message, ← viewFields_storeDefaults message', h]

/-! ## The value at the end of a path -/

/-- The payload value of a scalar without explicit presence: none for the default. -/
def implicitValue (kind : ScalarKind) (stored : Option kind.Value) : Option PayloadValue :=
  if kind.isDefault (scalarValue kind stored) then none
  else some (ofProtobuf (kind.toProtobuf (scalarValue kind stored)))

theorem mem_viewFields {fields : StoredMessage} {name : String} {state : FieldState}
    (h : (name, state) ∈ fields) : (name, viewState state) ∈ viewFields fields := by
  induction fields with
  | nil => cases h
  | cons e rest ih =>
      rw [viewFields]
      rcases List.mem_cons.mp h with rfl | hrest
      · exact List.mem_cons_self
      · exact List.mem_cons_of_mem _ (ih hrest)

theorem ne_nil_of_leadsTo {fields : StoredMessage} {path : List String} {kind : ScalarKind}
    {stored : Option kind.Value} (h : LeadsTo fields path kind stored) : path ≠ [] := by
  cases h <;> exact List.cons_ne_nil _ _

-- what a declared message says of its fields
theorem wellFormed_message {fields : DynamicMessage} (h : (ProtobufValue.message fields).WellFormed) :
    (fields.Pairwise fun a b ↦ a.1 ≠ b.1) ∧ (∀ e ∈ fields, '.' ∉ e.1.toList) ∧
      ∀ name v, (name, some v) ∈ fields → v.WellFormed := by
  cases h with
  | message hnames hdots hvals => exact ⟨hnames, hdots, hvals⟩
  | scalar h => cases h

theorem eq_of_mem_of_mem {fields : DynamicMessage} (h : fields.Pairwise fun a b ↦ a.1 ≠ b.1)
    {name : String} {a b : Option ProtobufValue} (ha : (name, a) ∈ fields) (hb : (name, b) ∈ fields) :
    a = b :=
  Option.some.inj (((lookup_eq_some_iff h).mpr ha).symm.trans ((lookup_eq_some_iff h).mpr hb))

/-- The names on a path hold no dot. -/
theorem LeadsTo.dotFree {fields : StoredMessage} {path : List String} {kind : ScalarKind}
    {stored : Option kind.Value} (h : LeadsTo fields path kind stored)
    (hdecl : (ProtobufValue.message (viewFields fields)).WellFormed) :
    ∀ g ∈ path, '.' ∉ g.toList := by
  induction h with
  | here hfield =>
      obtain ⟨-, hdots, -⟩ := wellFormed_message hdecl
      exact List.forall_mem_singleton.mpr (hdots _ (mem_viewFields hfield))
  | through hfield _ ih =>
      obtain ⟨-, hdots, hvals⟩ := wellFormed_message hdecl
      have hmem := mem_viewFields hfield
      have hsub := hvals _ _ hmem
      exact List.forall_mem_cons.mpr ⟨hdots _ hmem, ih hsub⟩

/-- The walk along the path ends at the scalar, which it finds unless it has its default. -/
theorem LeadsTo.walk {fields : StoredMessage} {path : List String} {kind : ScalarKind}
    {stored : Option kind.Value} (h : LeadsTo fields path kind stored)
    (hdecl : (ProtobufValue.message (viewFields fields)).WellFormed) :
    (path.foldlM get (ProtobufValue.message (viewFields fields))).map ofProtobuf =
      implicitValue kind stored := by
  induction h with
  | @here fields name kind stored hfield =>
      obtain ⟨hnames, -, -⟩ := wellFormed_message hdecl
      have hlookup := (lookup_eq_some_iff hnames).mpr (mem_viewFields hfield)
      have hget : get (.message (viewFields fields)) name = viewState (.implicit kind stored) := by
        rw [ProtobufValue.get, hlookup]
        rfl
      rw [List.foldlM_cons, hget, viewState, implicitValue]
      split <;> rfl
  | @through fields sub name path kind stored hfield _ ih =>
      obtain ⟨hnames, -, hvals⟩ := wellFormed_message hdecl
      have hmem := mem_viewFields hfield
      have hget := (get_message hdecl).mpr hmem
      rw [List.foldlM_cons, hget]
      exact ih (hvals _ _ hmem)

/-- No path through an entry of a map is spelled as the path. -/
theorem LeadsTo.join_ne_mapPath {fields : StoredMessage} {path : List String} {kind : ScalarKind}
    {stored : Option kind.Value} (h : LeadsTo fields path kind stored)
    (hdecl : (ProtobufValue.message (viewFields fields)).WellFormed) {mapPath : List String}
    (hmap : MapPath (.message (viewFields fields)) mapPath) :
    Segments.join '.' mapPath ≠ Segments.join '.' path := by
  induction h generalizing mapPath with
  | @here fields name kind stored hfield =>
      obtain ⟨-, hdots, -⟩ := wellFormed_message hdecl
      have hfree : ∀ g ∈ [name], '.' ∉ g.toList :=
        List.forall_mem_singleton.mpr (hdots _ (mem_viewFields hfield))
      intro heq
      cases hmap with
      | @field fields' name' v segs hv hmap =>
          -- a path through a map has two segments or more
          have hsplit := congrArg (Segments.split '.') heq
          rw [Segments.split_join_cons '.' (hdots _ hv) hmap.ne_nil,
            Segments.split_join '.' hfree (List.cons_ne_nil _ _)] at hsplit
          exact Segments.split_ne_nil '.' _ (List.cons.inj hsplit).2
  | @through fields sub name path kind stored hfield hrest ih =>
      obtain ⟨hnames, hdots, hvals⟩ := wellFormed_message hdecl
      have hmem := mem_viewFields hfield
      intro heq
      cases hmap with
      | @field fields' name' v segs hv hmap =>
          have hsplit := congrArg (Segments.split '.') heq
          rw [Segments.split_join_cons '.' (hdots _ hv) hmap.ne_nil,
            Segments.split_join_cons '.' (hdots _ hmem) (ne_nil_of_leadsTo hrest)] at hsplit
          obtain ⟨rfl, htail⟩ := List.cons.inj hsplit
          -- one name, so the map lies in the same sub-message
          have hsame := eq_of_mem_of_mem hnames hv hmem
          cases hsame
          have hjoin := congrArg (Segments.join '.') htail
          rw [Segments.join_split, Segments.join_split] at hjoin
          exact ih (hvals _ _ hmem) hmap hjoin

/-! ## Both plans -/

/-- The full plan, or a sparse plan that lists the field. -/
def PayloadDecodePlan.Lists (plan : PayloadDecodePlan) (field : CompiledPayloadField) : Prop :=
  plan = .full ∨ ∃ listed, plan = .sparse listed ∧ field ∈ listed

theorem LeadsTo.decode {fields : StoredMessage} {path : List String} {kind : ScalarKind}
    {stored : Option kind.Value} (h : LeadsTo fields path kind stored)
    (hdecl : (ProtobufValue.message (viewFields fields)).WellFormed) {plan : PayloadDecodePlan}
    (hplan : PayloadDecodePlan.Lists plan (.fromKey (Segments.join '.' path))) :
    ∃ ir, MsgIr.fromProtobufMessageWithDecodePlan (viewFields fields) plan = .ok ir ∧
      ir.getField (.fromKey (Segments.join '.' path)) = implicitValue kind stored := by
  have hsplit : Segments.split '.' (Segments.join '.' path) = path :=
    Segments.split_join '.' (h.dotFree hdecl) (ne_nil_of_leadsTo h)
  have hextracted : extractedValue (viewFields fields) (Segments.split '.' (Segments.join '.' path)) =
      implicitValue kind stored := by
    rw [hsplit, extractedValue_eq _ (ne_nil_of_leadsTo h)]
    exact h.walk hdecl
  rcases hplan with rfl | ⟨listed, rfl, hlisted⟩
  · obtain ⟨ir, hir, hget⟩ := exists_full_protobuf (viewFields fields)
    refine ⟨ir, hir, ?_⟩
    have hspelling := lastSpelling_protobuf ⟨viewFields fields, hdecl⟩
      fun mapPath hmap ↦ h.join_ne_mapPath hdecl hmap
    rw [hget]
    exact hspelling.trans hextracted
  · obtain ⟨ir, hir, hget⟩ := exists_sparse_protobuf (viewFields fields)
      (List.ne_nil_of_mem hlisted)
    exact ⟨ir, hir, (hget _ hlisted).trans hextracted⟩

/-! ## What rules make of it -/

-- a payload field evaluates to its value, or reports that it is missing
theorem evaluatePlanValue_payloadField (field : CompiledPayloadField) (ctx : EvalContext) :
    evaluatePlanValue (.payloadField field) ctx =
      match ctx.payload.getField field with
      | some value => .ok value.toJsonValue
      | none => .error (.missingPayloadField field.key) := by
  rw [evaluatePlanValue, payloadValueByPath]
  cases ctx.payload.getField field <;> rfl

theorem projectColumns_withPayload (message : Message) (ir : MsgIr) (parts : List String)
    (payload : List UInt8) (output : JsonMap) (columns : List PlannedColumn) :
    projectColumns ⟨message, ir, parts⟩ output columns =
      projectColumns ⟨message.withPayload payload, ir, parts⟩ output columns := by
  induction columns generalizing output with
  | nil => rfl
  | cons column rest ih =>
      obtain ⟨hvalue, -⟩ := evaluatePlan_withPayload column.expr message ir parts payload
      rw [projectColumns, projectColumns, hvalue]
      congr 1
      funext value
      exact ih _

/-- What the bytes of the message are to the output of a rule: `select *` passes them on. -/
def CompiledRule.carry (rule : CompiledRule) (payload : List UInt8) (output : Message) : Message :=
  match rule.selectPlan with
  | .all => output.withPayload payload
  | .columns _ => output

/-- A rule on the same decoded fields and other bytes. -/
theorem evaluateRule_withPayload (C : Crates) (rule : CompiledRule) (message : Message) (ir : MsgIr)
    (parts : List String) (payload : List UInt8) :
    evaluateRuleWithPayloadAndTopicParts C rule (message.withPayload payload) ir parts =
      (evaluateRuleWithPayloadAndTopicParts C rule message ir parts).map
        (Option.map (rule.carry payload)) := by
  have hpredicate : evaluatePredicate rule.wherePlan ⟨message.withPayload payload, ir, parts⟩ =
      evaluatePredicate rule.wherePlan ⟨message, ir, parts⟩ := by
    cases rule.wherePlan with
    | none => rfl
    | some plan => exact (evaluatePlan_withPayload plan message ir parts payload).2.symm
  have hselect : evaluateSelect C rule.selectPlan ⟨message.withPayload payload, ir, parts⟩ =
      (evaluateSelect C rule.selectPlan ⟨message, ir, parts⟩).map (rule.carry payload) := by
    cases hplan : rule.selectPlan with
    | all =>
        rw [evaluateSelect, evaluateSelect]
        simp only [Except.map, CompiledRule.carry, hplan]
    | columns columns =>
        -- the columns are put into a new message
        have hid : rule.carry payload = id := by
          funext output
          rw [CompiledRule.carry, hplan]
          rfl
        rw [hid, evaluateSelect_columns, evaluateSelect_columns,
          ← projectColumns_withPayload message ir parts payload]
        cases projectColumns ⟨message, ir, parts⟩ [] columns with
        | error err => rfl
        | ok output =>
            dsimp only [Except.bind]
            cases C.valueToVec (.object output) <;> rfl
  simp only [evaluateRuleWithPayloadAndTopicParts, hpredicate, hselect]
  cases evaluatePredicate rule.wherePlan ⟨message, ir, parts⟩ with
  | error err => rfl
  | ok fires =>
      cases fires with
      | false => rfl
      | true =>
          change Except.map some (Except.map _ _) = Except.map _ (Except.map some _)
          cases evaluateSelect C rule.selectPlan ⟨message, ir, parts⟩ <;> rfl

def EvalAttempt.carry (rules : List (Option CompiledRule)) (payload : List UInt8)
    (attempt : EvalAttempt) : EvalAttempt where
  ruleIndex := attempt.ruleIndex
  evaluation := attempt.evaluation.map fun result ↦
    match liveRule rules attempt.ruleIndex with
    | some rule => ⟨result.ruleIndex, rule.carry payload result.message⟩
    | none => result
  error := attempt.error

def EvalOutcome.carry (rules : List (Option CompiledRule)) (payload : List UInt8)
    (outcome : EvalOutcome) : EvalOutcome :=
  ⟨outcome.attempts.map (EvalAttempt.carry rules payload), outcome.payloadErrors⟩

theorem evaluateSingleRule_withPayload (C : Crates) (rules : List (Option CompiledRule))
    (message : Message) (payload : List UInt8) (ir : MsgIr) (parts : List String) (i : Nat) :
    evaluateSingleRule C rules (message.withPayload payload) ir parts i =
      (evaluateSingleRule C rules message ir parts i).map (EvalAttempt.carry rules payload) := by
  unfold evaluateSingleRule
  cases hrule : liveRule rules i with
  | none => rfl
  | some rule =>
      rw [Option.map_some, Option.map_some, Option.map_some,
        evaluateRule_withPayload C rule message ir parts payload]
      rcases evaluateRuleWithPayloadAndTopicParts C rule message ir parts with err | (_ | output)
      · rfl
      · rfl
      · simp only [Except.map, Option.map_some, EvalAttempt.carry, hrule]

/-- The rules of a group on other bytes that decode to the same fields. -/
theorem evaluateGroup_withPayload (C : Crates) (rules : List (Option CompiledRule))
    (message : Message) (payload : List UInt8) (decoder : PayloadDecoder) (schema : String)
    (matched : List Nat)
    (hdecode : decodePayloadIr C payload decoder (decodePlan rules matched) schema =
      decodePayloadIr C message.payload decoder (decodePlan rules matched) schema) :
    evaluateGroup C rules (message.withPayload payload) decoder schema matched =
      (evaluateGroup C rules message decoder schema matched).carry rules payload := by
  unfold evaluateGroup
  have hbytes : (message.withPayload payload).payload = payload := rfl
  rw [hbytes, hdecode]
  cases decodePayloadIr C message.payload decoder (decodePlan rules matched) schema with
  | error err => rfl
  | ok ir =>
      unfold EvalOutcome.carry evaluateMatchedRulesWithDecodedPayload
      dsimp only
      rw [List.map_filterMap]
      congr 2
      funext i
      exact evaluateSingleRule_withPayload C rules message payload ir _ i

/-- What an expression that is just the field evaluates to. -/
def implicitResult (kind : ScalarKind) (stored : Option kind.Value) (key : String) :
    Except EvalError JsonValue :=
  match implicitValue kind stored with
  | some value => .ok value.toJsonValue
  | none => .error (.missingPayloadField key)

/-- Under either plan a scalar without explicit presence has its value unless that is the default, in
which case it is missing.  Encoding a default or leaving it out makes no difference to the payload
values, nor to what the rules of a schema put out, but for the bytes that `select *` passes on. -/
theorem implicitPresence_laws (C : Crates) :
    (∀ (fields : StoredMessage) (path : List String) (kind : ScalarKind)
        (stored : Option kind.Value) (plan : PayloadDecodePlan),
      (ProtobufValue.message (viewFields fields)).WellFormed → LeadsTo fields path kind stored →
      plan.Lists (.fromKey (Segments.join '.' path)) →
      ∃ ir, MsgIr.fromProtobufMessageWithDecodePlan (viewFields fields) plan = .ok ir ∧
        ir.getField (.fromKey (Segments.join '.' path)) = implicitValue kind stored ∧
        ∀ message parts,
          evaluatePlanValue (.payloadField (.fromKey (Segments.join '.' path)))
            ⟨message, ir, parts⟩ = implicitResult kind stored (Segments.join '.' path)) ∧
    (∀ message message', SameUpToDefaults message message' → ∀ plan,
      MsgIr.fromProtobufMessageWithDecodePlan (viewFields message) plan =
        MsgIr.fromProtobufMessageWithDecodePlan (viewFields message') plan) ∧
    ∀ (pool : DescriptorPool) (schema : String) (decode : List UInt8 → Except String DynamicMessage)
        (message : Message) (payload : List UInt8) (sent sent' : StoredMessage),
      pool.decodeMessage schema = some decode → decode message.payload = .ok (viewFields sent) →
      decode payload = .ok (viewFields sent') → SameUpToDefaults sent sent' →
      ∀ rules matched,
        evaluateGroup C rules (message.withPayload payload) (.protobuf (some pool)) schema matched =
          (evaluateGroup C rules message (.protobuf (some pool)) schema matched).carry rules
            payload := by
  refine ⟨?_, ?_, ?_⟩
  · intro fields path kind stored plan hdecl hpath hplan
    obtain ⟨ir, hir, hget⟩ := hpath.decode hdecl hplan
    refine ⟨ir, hir, hget, ?_⟩
    intro message parts
    rw [evaluatePlanValue_payloadField, hget]
    rfl
  · intro message message' hsame plan
    rw [hsame.viewFields_eq]
  · intro pool schema decode message payload sent sent' hpool hsent hsent' hsame rules matched
    apply evaluateGroup_withPayload
    simp only [decodePayloadIr, decodeDynamicProtobuf, hpool, hsent, hsent', hsame.viewFields_eq]

-- a present sub-message whose counter is zero, encoded or not
def zeroCount (stored : Option Int64) : StoredMessage :=
  [("device", .message [("count", .implicit .i64 stored)])]

-- field 1 is the device, whose field 1 is the counter
def devicePool : DescriptorPool where
  decodeMessage _ := some fun bytes ↦
    if bytes = [0x0a, 0x00] then .ok (viewFields (zeroCount none))
    else if bytes = [0x0a, 0x02, 0x08, 0x00] then .ok (viewFields (zeroCount (some 0)))
    else .error "invalid wire type"

theorem wellFormed_zeroCount : (ProtobufValue.message (viewFields (zeroCount (some 0)))).WellFormed := by
  apply ProtobufValue.WellFormed.message (by decide) (by decide)
  intro name v hv
  cases List.mem_singleton.mp hv
  apply ProtobufValue.WellFormed.message (by decide) (by decide)
  intro name v hv
  cases List.mem_singleton.mp hv

theorem implicitPresence_laws_zeroCount :
    (∃ ir, MsgIr.fromProtobufMessageWithDecodePlan (viewFields (zeroCount (some 0))) .full = .ok ir ∧
      ir.getField (.fromKey "device.count") = none) ∧
    (∀ plan, MsgIr.fromProtobufMessageWithDecodePlan (viewFields (zeroCount none)) plan =
      MsgIr.fromProtobufMessageWithDecodePlan (viewFields (zeroCount (some 0))) plan) ∧
    evaluateGroup demoCrates [] ((Message.new "t" [0x0a, 0x00]).withPayload [0x0a, 0x02, 0x08, 0x00])
        (.protobuf (some devicePool)) "Reading" [0] =
      (evaluateGroup demoCrates [] (Message.new "t" [0x0a, 0x00]) (.protobuf (some devicePool))
        "Reading" [0]).carry [] [0x0a, 0x02, 0x08, 0x00] := by
  obtain ⟨hvalue, hplans, hrules⟩ := implicitPresence_laws demoCrates
  refine ⟨?_, hplans _ _ rfl, hrules devicePool "Reading" _ _ _ _ _ rfl rfl rfl rfl _ _⟩
  have hpath : LeadsTo (zeroCount (some 0)) ["device", "count"] .i64 (some (0 : Int64)) :=
    .through List.mem_cons_self (.here List.mem_cons_self)
  obtain ⟨ir, hir, hget, -⟩ := hvalue _ _ _ _ .full wellFormed_zeroCount hpath (Or.inl rfl)
  exact ⟨ir, hir, hget⟩

/-- A counter that is zero has no payload value, although a sparse plan lists it. -/
theorem missing_zeroCount :
    ¬ ∃ ir, MsgIr.fromProtobufMessageWithDecodePlan (viewFields (zeroCount (some 0)))
        (.sparse [.fromKey "device.count"]) = .ok ir ∧
      ir.getField (.fromKey "device.count") = some (.number (F64.ofInt 0)) := by
  rintro ⟨ir, hir, hget⟩
  have hpath : LeadsTo (zeroCount (some 0)) ["device", "count"] .i64 (some (0 : Int64)) :=
    .through List.mem_cons_self (.here List.mem_cons_self)
  obtain ⟨ir', hir', hget'⟩ := hpath.decode wellFormed_zeroCount
    (Or.inr ⟨[.fromKey "device.count"], rfl, List.mem_cons_self⟩)
  cases hir.symm.trans hir'
  cases hget.symm.trans hget'

end Tenon.Core
