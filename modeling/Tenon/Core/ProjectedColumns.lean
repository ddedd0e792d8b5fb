import Mathlib.Data.List.Dedup
import Tenon.Core.AcceptedQueries

/-!
# ProjectedColumns — the object a projection writes

The columns of a projection are inserted into one map under their output names.  Every column has its
entry in the end exactly when the names of the select list differ; of two columns with one name the
later one is kept.
-/

open Reasoning

namespace Tenon.Core

/-! ## Inserting entries -/

namespace JsonMap

theorem lookup_insert (map : JsonMap) (key : String) (v : JsonValue) (s : String) :
    (map.insert key v).lookup s = if s = key then some v else map.lookup s := by
  have hcons (k : String) (w : JsonValue) (rest : JsonMap) :
      List.lookup s ((k, w) :: rest) = if s = k then some w else rest.lookup s := by
    rw [List.lookup_cons]
    by_cases h : s = k
    · rw [if_pos h, beq_iff_eq.mpr h]
    · rw [if_neg h, beq_eq_false_iff_ne.mpr h]
  induction map with
  | nil => rw [insert, hcons]
  | cons e rest ih =>
      rcases e with ⟨k, w⟩
      rw [insert]
      split
      · rw [hcons]
      · split
        · rename_i _ heq
          subst heq
          rw [hcons, hcons]
          split <;> rfl
        · rename_i _ hne
          rw [hcons, hcons, ih]
          by_cases hs : s = k
          · rw [if_pos hs, if_pos hs, if_neg (hs ▸ Ne.symm hne)]
          · rw [if_neg hs, if_neg hs]

theorem mem_keys_insert (map : JsonMap) (key : String) (v : JsonValue) (s : String) :
    s ∈ (map.insert key v).map Prod.fst ↔ s = key ∨ s ∈ map.map Prod.fst := by
  induction map with
  | nil => simp [insert]
  | cons e rest ih =>
      rcases e with ⟨k, w⟩
      rw [insert]
      split
      · simp
      · split
        · rename_i _ heq
          simp [heq]
        · rw [List.map_cons, List.mem_cons, ih, List.map_cons, List.mem_cons]
          exact or_left_comm

theorem pairwise_insert {map : JsonMap} (h : map.Pairwise fun a b ↦ a.1 < b.1) (key : String)
    (v : JsonValue) : (map.insert key v).Pairwise fun a b ↦ a.1 < b.1 := by
  induction map with
  | nil => exact List.pairwise_singleton _ _
  | cons e rest ih =>
      rcases e with ⟨k, w⟩
      obtain ⟨hfirst, hrest⟩ := List.pairwise_cons.mp h
      rw [insert]
      split
      · rename_i hlt
        rw [List.pairwise_cons]
        refine ⟨fun e' he' ↦ ?_, h⟩
        rcases List.mem_cons.mp he' with rfl | he'
        · exact hlt
        · exact lt_trans hlt (hfirst e' he')
      · split
        · rename_i _ heq
          subst heq
          exact List.pairwise_cons.mpr ⟨hfirst, hrest⟩
        · rename_i hge hne
          -- the new key is greater than the first one
          rw [List.pairwise_cons]
          refine ⟨fun e' he' ↦ ?_, ih hrest⟩
          have hkey : e'.1 ∈ (insert rest key v).map Prod.fst := List.mem_map_of_mem he'
          rcases (mem_keys_insert rest key v e'.1).mp hkey with heq | hold
          · rw [heq]
            exact lt_of_le_of_ne (not_lt.mp hge) (Ne.symm hne)
          · obtain ⟨e'', he'', heq⟩ := List.mem_map.mp hold
            rw [← heq]
            exact hfirst e'' he''

theorem nodup_keys {map : JsonMap} (h : map.Pairwise fun a b ↦ a.1 < b.1) :
    (map.map Prod.fst).Nodup := by
  rw [List.nodup_iff_pairwise_ne, List.pairwise_map]
  exact h.imp fun hlt ↦ ne_of_lt hlt

end JsonMap

/-! ## The loop over the columns -/

section Columns

variable {ctx : EvalContext} {columns : List PlannedColumn} {output object : JsonMap}

theorem projectColumns_cons {column : PlannedColumn}
    (h : projectColumns ctx output (column :: columns) = .ok object) :
    ∃ v, evaluatePlanValue column.expr ctx = .ok v ∧
      projectColumns ctx (output.insert column.aliasName v) columns = .ok object :=
  bind_eq_ok.mp h

theorem mem_keys_projectColumns (h : projectColumns ctx output columns = .ok object) (s : String) :
    s ∈ object.map Prod.fst ↔
      s ∈ output.map Prod.fst ∨ s ∈ columns.map PlannedColumn.aliasName := by
  induction columns generalizing output with
  | nil =>
      cases h
      simp
  | cons column rest ih =>
      obtain ⟨v, -, hrest⟩ := projectColumns_cons h
      rw [ih hrest, JsonMap.mem_keys_insert, List.map_cons, List.mem_cons, or_comm (a := s = _),
        or_assoc]

theorem pairwise_projectColumns (hsorted : output.Pairwise fun a b ↦ a.1 < b.1)
    (h : projectColumns ctx output columns = .ok object) :
    object.Pairwise fun a b ↦ a.1 < b.1 := by
  induction columns generalizing output with
  | nil =>
      cases h
      exact hsorted
  | cons column rest ih =>
      obtain ⟨v, -, hrest⟩ := projectColumns_cons h
      exact ih (JsonMap.pairwise_insert hsorted column.aliasName v) hrest

-- a name no later column has keeps its entry
theorem lookup_projectColumns (h : projectColumns ctx output columns = .ok object) {s : String}
    (hs : s ∉ columns.map PlannedColumn.aliasName) : object.lookup s = output.lookup s := by
  induction columns generalizing output with
  | nil =>
      cases h
      rfl
  | cons column rest ih =>
      obtain ⟨v, -, hrest⟩ := projectColumns_cons h
      rw [List.map_cons, List.mem_cons, not_or] at hs
      rw [ih hrest hs.2, JsonMap.lookup_insert, if_neg hs.1]

/-- The object has as many entries as the columns have different names. -/
theorem length_projectColumns (h : projectColumns ctx [] columns = .ok object) :
    object.length = (columns.map PlannedColumn.aliasName).dedup.length := by
  have hperm : (object.map Prod.fst).Perm (columns.map PlannedColumn.aliasName).dedup := by
    rw [List.perm_ext_iff_of_nodup
      (JsonMap.nodup_keys (pairwise_projectColumns List.Pairwise.nil h)) (List.nodup_dedup _)]
    intro s
    rw [mem_keys_projectColumns h, List.mem_dedup]
    simp
  rw [← hperm.length_eq, List.length_map]

/-- With different names every column keeps its entry. -/
theorem exists_value_projectColumns (hnodup : (columns.map PlannedColumn.aliasName).Nodup)
    (h : projectColumns ctx output columns = .ok object) {column : PlannedColumn}
    (hmem : column ∈ columns) :
    ∃ v, evaluatePlanValue column.expr ctx = .ok v ∧ object.lookup column.aliasName = some v := by
  induction columns generalizing output with
  | nil => exact absurd hmem List.not_mem_nil
  | cons first rest ih =>
      obtain ⟨v, hv, hrest⟩ := projectColumns_cons h
      rw [List.map_cons, List.nodup_cons] at hnodup
      rcases List.mem_cons.mp hmem with rfl | hmem
      · refine ⟨v, hv, ?_⟩
        rw [lookup_projectColumns hrest hnodup.1, JsonMap.lookup_insert, if_pos rfl]
      · exact ih hnodup.2 hrest hmem

end Columns

/-! ## Output names -/

/-- The name a select item gives its column. -/
def SelectItem.columnName? (C : Crates) : SelectItem → Option String
  | .unnamedExpr expr => some (deriveAlias C expr)
  | .exprWithAlias _ ident => some ident.value
  | _ => none

def Query.columnNames (C : Crates) (query : Query) : List String :=
  match query.body with
  | .select select => select.projection.filterMap (SelectItem.columnName? C)
  | .other _ => []

theorem names_parseColumns {C : Crates} {columns spec : List SelectedColumn} {items : List SelectItem}
    (h : parseColumns C columns items = .ok (.columns spec)) :
    spec.map SelectedColumn.aliasName =
      columns.map SelectedColumn.aliasName ++ items.filterMap (SelectItem.columnName? C) := by
  induction items generalizing columns with
  | nil =>
      cases h
      simp
  | cons item rest ih =>
      cases item with
      | unnamedExpr expr =>
          rw [ih h]
          simp [SelectItem.columnName?]
      | exprWithAlias expr ident =>
          rw [ih h]
          simp [SelectItem.columnName?]
      | wildcard options => cases h
      | qualifiedWildcard name => cases h

theorem names_parseQuery {C : Crates} {query : Query} {filter aliased : String}
    {spec : List SelectedColumn} {whereExpr : Option Expr}
    (h : parseQuery C query = .ok (filter, aliased, .columns spec, whereExpr)) :
    spec.map SelectedColumn.aliasName = query.columnNames C := by
  unfold parseQuery at h
  split at h
  · rename_i select hbody
    unfold parseSelect at h
    split at h
    · cases h
    · split at h
      · obtain ⟨spec', hspec, hresult⟩ := bind_eq_ok.mp h
        cases hresult
        rw [parseSelectItems_eq] at hspec
        rw [names_parseColumns hspec, Query.columnNames, hbody]
        rfl
      · cases h
  · cases h

/-- The columns of a compiled rule are named as its select list says. -/
theorem names_compileRule {C : Crates} {definition : RuleDefinition} {query : Query}
    {rule : CompiledRule} {columns : List PlannedColumn}
    (hparse : C.parseSql (normalizeRuleSql C.isWord definition.expression) = .ok [.query query])
    (h : compileRule C definition = .ok rule) (hcolumns : rule.selectPlan = .columns columns) :
    columns.map PlannedColumn.aliasName = query.columnNames C := by
  rw [compileRule_eq hparse] at h
  obtain ⟨⟨filter, aliased, spec, whereExpr⟩, hquery, hcompiled⟩ := bind_eq_ok.mp h
  dsimp only [compileParsed] at hcompiled
  split at hcompiled
  · cases hcompiled
    cases spec with
    | all => cases hcolumns
    | columns spec =>
        cases hcolumns
        rw [← names_parseQuery hquery, List.map_map]
        rfl
  · cases hcompiled

/-! ## The main result -/

/-- The object that was written as the payload of the output. -/
structure Projects (C : Crates) (ctx : EvalContext) (columns : List PlannedColumn)
    (object : JsonMap) (out : Message) : Prop where
  projected : projectColumns ctx [] columns = .ok object
  written : C.valueToVec (.object object) = .ok out.payload

/-- An entry for every column, under its name and with its value, and no other entry. -/
structure KeepsColumns (ctx : EvalContext) (columns : List PlannedColumn) (object : JsonMap) :
    Prop where
  length : object.length = columns.length
  value : ∀ column ∈ columns, ∃ v, evaluatePlanValue column.expr ctx = .ok v ∧
    object.lookup column.aliasName = some v

theorem exists_projects {C : Crates} {rule : CompiledRule} {columns : List PlannedColumn}
    {message out : Message} {ir : MsgIr} {topicParts : List String}
    (hcolumns : rule.selectPlan = .columns columns)
    (heval : evaluateRuleWithPayloadAndTopicParts C rule message ir topicParts = .ok (some out)) :
    ∃ object, Projects C ⟨message, ir, topicParts⟩ columns object out := by
  obtain ⟨accepted, -, hselect⟩ := bind_eq_ok.mp heval
  split at hselect
  · cases hevaluated : evaluateSelect C rule.selectPlan ⟨message, ir, topicParts⟩ with
    | error err =>
        rw [hevaluated] at hselect
        cases hselect
    | ok out' =>
        rw [hevaluated] at hselect
        cases hselect
        rw [hcolumns, evaluateSelect] at hevaluated
        obtain ⟨object, hobject, hwritten⟩ := bind_eq_ok.mp hevaluated
        split at hwritten
        · rename_i payload hpayload
          cases hwritten
          exact ⟨object, hobject, hpayload⟩
        · cases hwritten
  · cases hselect

/-- A projection keeps every column exactly when the output names of the select list differ. -/
theorem keepsColumns_iff {C : Crates} {definition : RuleDefinition} {query : Query}
    {rule : CompiledRule} {columns : List PlannedColumn} {message out : Message} {ir : MsgIr}
    {topicParts : List String}
    (hparse : C.parseSql (normalizeRuleSql C.isWord definition.expression) = .ok [.query query])
    (h : compileRule C definition = .ok rule) (hcolumns : rule.selectPlan = .columns columns)
    (heval : evaluateRuleWithPayloadAndTopicParts C rule message ir topicParts = .ok (some out)) :
    (∃ object, Projects C ⟨message, ir, topicParts⟩ columns object out ∧
        KeepsColumns ⟨message, ir, topicParts⟩ columns object) ↔
      (query.columnNames C).Nodup := by
  rw [← names_compileRule hparse h hcolumns]
  constructor
  · intro hkeeps
    obtain ⟨object, hprojects, hkept⟩ := hkeeps
    have hlength := length_projectColumns hprojects.projected
    rw [hkept.length, ← List.length_map (f := PlannedColumn.aliasName)] at hlength
    rw [← List.dedup_eq_self]
    exact (List.dedup_sublist _).eq_of_length hlength.symm
  · intro hnodup
    obtain ⟨object, hprojects⟩ := exists_projects hcolumns heval
    refine ⟨object, hprojects, ?_, fun column hmem ↦ ?_⟩
    · rw [length_projectColumns hprojects.projected, List.dedup_eq_self.mpr hnodup, List.length_map]
    · exact exists_value_projectColumns hnodup hprojects.projected hmem

/-! ## Two fields of one name -/

-- parses every text as a select of some items from the topic `data`; every object is written as `bytes`
def projectionCrates (items : List SelectItem) (bytes : List UInt8) : Crates :=
  { demoCrates with
    parseSql := fun _ ↦ .ok [.query (demoQuery items "data")]
    valueToVec := fun _ ↦ .ok bytes }

-- `a.temp` and `b.temp`
def nestedTemp (field : String) : Expr := .compoundIdentifier [⟨field, none⟩, ⟨"temp", none⟩]

-- the decoded payload of an object with the texts `x` and `y` in those fields
def twoTemps : MsgIr :=
  (MsgIr.new.insert "a.temp" (.string "x")).insert "b.temp" (.string "y")

theorem projectColumns_twoTemps (first second : String) (message : Message) :
    projectColumns ⟨message, twoTemps, []⟩ []
        [⟨.payloadField (.fromKey "a.temp"), first⟩, ⟨.payloadField (.fromKey "b.temp"), second⟩] =
      .ok (JsonMap.insert [(first, .string "x")] second (.string "y")) := by
  have ha : twoTemps.getField (.fromKey "a.temp") = some (.string "x") := by
    rw [twoTemps, MsgIr.getField, MsgIr.getKey_insert, MsgIr.getKey_insert]
    rfl
  have hb : twoTemps.getField (.fromKey "b.temp") = some (.string "y") := by
    rw [twoTemps, MsgIr.getField, MsgIr.getKey_insert]
    rfl
  rw [projectColumns, evaluatePlanValue, payloadValueByPath, ha]
  change projectColumns ⟨message, twoTemps, []⟩ [(first, .string "x")] _ = _
  rw [projectColumns, evaluatePlanValue, payloadValueByPath, hb]
  rfl

theorem evaluate_twoTemps {C : Crates} {rule : CompiledRule} {first second : String}
    {bytes : List UInt8} (hvec : ∀ v, C.valueToVec v = .ok bytes) (hwhere : rule.wherePlan = none)
    (hcolumns : rule.selectPlan = .columns [⟨.payloadField (.fromKey "a.temp"), first⟩,
      ⟨.payloadField (.fromKey "b.temp"), second⟩]) (message : Message) :
    evaluateRuleWithPayloadAndTopicParts C rule message twoTemps [] =
      .ok (some (Message.new message.topic bytes)) := by
  have hselect : evaluateSelect C rule.selectPlan ⟨message, twoTemps, []⟩ =
      .ok (Message.new message.topic bytes) := by
    rw [hcolumns, evaluateSelect_columns, projectColumns_twoTemps, Except.bind, hvec]
    rfl
  rw [evaluateRuleWithPayloadAndTopicParts, hwhere]
  change (evaluateSelect C rule.selectPlan ⟨message, twoTemps, []⟩).map some = _
  rw [hselect]
  rfl

-- `select a.temp as first, b.temp as second`, whose object is written as `bytes`
def aliasedCrates : Crates :=
  projectionCrates [.exprWithAlias (nestedTemp "a") ⟨"first", none⟩,
    .exprWithAlias (nestedTemp "b") ⟨"second", none⟩]
    -- an object with the members `first` and `second`
    [0x7b, 0x22, 0x66, 0x69, 0x72, 0x73, 0x74, 0x22, 0x3a, 0x22, 0x78, 0x22, 0x2c, 0x22, 0x73, 0x65,
      0x63, 0x6f, 0x6e, 0x64, 0x22, 0x3a, 0x22, 0x79, 0x22, 0x7d]

theorem keepsColumns_iff_demo :
    ∃ rule columns out,
      compileRule aliasedCrates ⟨"select a.temp as first, b.temp as second from data", [], none⟩ =
          .ok rule ∧
        rule.selectPlan = .columns columns ∧
        evaluateRuleWithPayloadAndTopicParts aliasedCrates rule (Message.new "data" []) twoTemps [] =
          .ok (some out) ∧
        ∃ object, Projects aliasedCrates ⟨Message.new "data" [], twoTemps, []⟩ columns object out ∧
          KeepsColumns ⟨Message.new "data" [], twoTemps, []⟩ columns object := by
  refine ⟨_, _, _, rfl, rfl, evaluate_twoTemps (fun _ ↦ rfl) rfl rfl _, ?_⟩
  have hiff := @keepsColumns_iff aliasedCrates
    ⟨"select a.temp as first, b.temp as second from data", [], none⟩ _ _ _ _ _ _ _ rfl rfl rfl
    (evaluate_twoTemps (fun _ ↦ rfl) rfl rfl (Message.new "data" []))
  exact hiff.mpr (by decide)

-- `select a.temp, b.temp`, whose object is written as a single member `temp`
def lastSegmentCrates : Crates :=
  projectionCrates [.unnamedExpr (nestedTemp "a"), .unnamedExpr (nestedTemp "b")]
    [0x7b, 0x22, 0x74, 0x65, 0x6d, 0x70, 0x22, 0x3a, 0x22, 0x79, 0x22, 0x7d]

/-- Both columns are named by their last segment, and the second one overwrites the first. -/
theorem not_keepsColumns_lastSegment :
    ∃ rule columns out,
      compileRule lastSegmentCrates ⟨"select a.temp, b.temp from data", [], none⟩ = .ok rule ∧
        rule.selectPlan = .columns columns ∧
        evaluateRuleWithPayloadAndTopicParts lastSegmentCrates rule (Message.new "data" []) twoTemps
          [] = .ok (some out) ∧
        ¬ ∃ object, Projects lastSegmentCrates ⟨Message.new "data" [], twoTemps, []⟩ columns object
            out ∧ KeepsColumns ⟨Message.new "data" [], twoTemps, []⟩ columns object := by
  refine ⟨_, _, _, rfl, rfl, evaluate_twoTemps (fun _ ↦ rfl) rfl rfl _, ?_⟩
  intro h
  obtain ⟨object, hprojects, hkept⟩ := h
  have hlength := length_projectColumns hprojects.projected
  rw [hkept.length] at hlength
  exact absurd hlength (by decide)

end Tenon.Core
