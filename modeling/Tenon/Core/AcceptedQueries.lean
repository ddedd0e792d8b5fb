import Tenon.Core.ConstantFolding
import Tenon.Core.EngineMatching

/-!
# AcceptedQueries — the queries the rule compiler accepts

The compiler looks at the first table of a query, at its select list and at its WHERE clause.  The
queries it accepts are described here by what it looks at, and compared with the queries that say
nothing else.
-/

open Reasoning Reasoning.Binary64

namespace Tenon.Core

/-! ## The parts the compiler keeps -/

namespace SelectItem

def isWildcard : SelectItem → Bool
  | .wildcard _ => true
  | _ => false

def expr? : SelectItem → Option Expr
  | .unnamedExpr expr => some expr
  | .exprWithAlias expr _ => some expr
  | _ => none

/-- A qualified wildcard is an error, unless a plain one has ended the reading before. -/
def Readable : List SelectItem → Prop
  | [] => True
  | .wildcard _ :: _ => True
  | .qualifiedWildcard _ :: _ => False
  | _ :: items => Readable items

/-- The expressions of the select list: with a plain wildcard in it there are none. -/
def keptExprs (items : List SelectItem) : List Expr :=
  if items.any isWildcard then [] else items.filterMap expr?

end SelectItem

def SelectSpec.exprs : SelectSpec → List Expr
  | .all => []
  | .columns cols => cols.map SelectedColumn.expr

/-- A SELECT from a table, with a select list that can be read. -/
def Query.Readable (query : Query) : Prop :=
  ∃ select table others name tableAlias parts, query.body = .select select ∧
    select.fromTables = table :: others ∧ table.relation = .table name tableAlias parts ∧
    SelectItem.Readable select.projection

def Query.keptExprs (query : Query) : List Expr :=
  match query.body with
  | .select select => SelectItem.keptExprs select.projection ++ select.selection.toList
  | .other _ => []

section Parse

variable (C : Crates)

theorem parseColumns_ok {columns : List SelectedColumn} {items : List SelectItem} {spec : SelectSpec}
    (h : parseColumns C columns items = .ok spec) :
    SelectItem.Readable items ∧ spec.exprs =
      if items.any SelectItem.isWildcard then []
      else columns.map SelectedColumn.expr ++ items.filterMap SelectItem.expr? := by
  induction items generalizing columns with
  | nil =>
      cases h
      simp [SelectItem.Readable, SelectSpec.exprs]
  | cons item rest ih =>
      cases item with
      | unnamedExpr expr =>
          obtain ⟨hreadable, hexprs⟩ := ih h
          apply And.intro hreadable
          rw [hexprs]
          simp [SelectItem.isWildcard, SelectItem.expr?]
      | exprWithAlias expr ident =>
          obtain ⟨hreadable, hexprs⟩ := ih h
          apply And.intro hreadable
          rw [hexprs]
          simp [SelectItem.isWildcard, SelectItem.expr?]
      | wildcard options =>
          cases h
          simp [SelectItem.Readable, SelectSpec.exprs, SelectItem.isWildcard]
      | qualifiedWildcard name => cases h

theorem exists_parseColumns {items : List SelectItem} (h : SelectItem.Readable items)
    (columns : List SelectedColumn) : ∃ spec, parseColumns C columns items = .ok spec := by
  induction items generalizing columns with
  | nil => exact ⟨_, rfl⟩
  | cons item rest ih =>
      cases item with
      | unnamedExpr expr => exact ih h _
      | exprWithAlias expr ident => exact ih h _
      | wildcard options => exact ⟨_, rfl⟩
      | qualifiedWildcard name => exact h.elim

-- the check for a single wildcard gives what the loop gives
theorem parseSelectItems_eq (items : List SelectItem) :
    parseSelectItems C items = parseColumns C [] items := by
  unfold parseSelectItems
  split
  · rfl
  · rfl

theorem parseSelectItems_ok {items : List SelectItem} {spec : SelectSpec}
    (h : parseSelectItems C items = .ok spec) :
    SelectItem.Readable items ∧ spec.exprs = SelectItem.keptExprs items := by
  rw [parseSelectItems_eq] at h
  exact parseColumns_ok C h

/-- A parsed query is readable, and its rule keeps the expressions of the select list and the WHERE
clause. -/
theorem parseQuery_ok {query : Query} {filter aliased : String} {spec : SelectSpec}
    {whereExpr : Option Expr} (h : parseQuery C query = .ok (filter, aliased, spec, whereExpr)) :
    query.Readable ∧ spec.exprs ++ whereExpr.toList = query.keptExprs := by
  unfold parseQuery at h
  split at h
  · rename_i select hbody
    unfold parseSelect at h
    split at h
    · cases h
    · rename_i table others hfrom
      split at h
      · rename_i name tableAlias parts hrelation
        obtain ⟨spec', hspec, hresult⟩ := bind_eq_ok.mp h
        obtain ⟨hreadable, hexprs⟩ := parseSelectItems_ok C hspec
        cases hresult
        apply And.intro
          ⟨select, table, others, name, tableAlias, parts, hbody, hfrom, hrelation, hreadable⟩
        rw [hexprs, Query.keptExprs, hbody]
      · cases h
  · cases h

theorem exists_parseQuery {query : Query} (h : query.Readable) :
    ∃ filter aliased spec whereExpr,
      parseQuery C query = .ok (filter, aliased, spec, whereExpr) := by
  rcases h with ⟨select, table, others, name, tableAlias, parts, hbody, hfrom, hrelation, hitems⟩
  obtain ⟨spec, hspec⟩ := exists_parseColumns C hitems []
  rw [← parseSelectItems_eq] at hspec
  apply Exists.intro
  apply Exists.intro
  exists spec, select.selection
  rw [parseQuery, hbody]
  dsimp only
  rw [parseSelect, hfrom]
  dsimp only
  rw [hrelation]
  dsimp only
  rw [hspec]
  rfl

end Parse

/-! ## The expressions the compiler understands -/

/-- An expression that compiles to a plan without an unknown part. -/
inductive Expr.Understood (nameToString : ObjectName → String) : Expr → Prop where
  | identifier (ident : Ident) : Understood nameToString (.identifier ident)
  | compoundIdentifier (idents : List Ident) : Understood nameToString (.compoundIdentifier idents)
  | number {num : String} {x : F64} (long : Bool) (hparse : F64.parse num = some x)
      (hfinite : x.isFinite = true) : Understood nameToString (.value (.number num long))
  | text (s : String) : Understood nameToString (.value (.singleQuotedString s))
  | boolean (b : Bool) : Understood nameToString (.value (.boolean b))
  -- any operator will do
  | binaryOp {left right : Expr} (op : BinaryOperator) (hl : Understood nameToString left)
      (hr : Understood nameToString right) : Understood nameToString (.binaryOp left op right)
  | nested {inner : Expr} (h : Understood nameToString inner) :
      Understood nameToString (.nested inner)
  | topicLevel {name : ObjectName} {level : Expr} (first : FunctionArg Expr) (clauses : List Expr)
      (hname : (nameToString name).toLower = "topic_level") (h : Understood nameToString level) :
      Understood nameToString (.function name (.list [first, .unnamedExpr level]) clauses)
  | mapKey {ident : Ident} {key : Expr} (others : List Expr) (hident : ident.value = "properties")
      (h : Understood nameToString key) :
      Understood nameToString (.mapAccess (.identifier ident) (key :: others))
  | index {ident : Ident} {key : Expr} (others : List Expr) (hident : ident.value = "properties")
      (h : Understood nameToString key) :
      Understood nameToString (.arrayIndex (.identifier ident) (key :: others))

theorem planHasUnknown_foldBinaryPlan (left : EvalExprPlan) (op : BinaryOperator)
    (right : EvalExprPlan) :
    planHasUnknown (foldBinaryPlan left op right) =
      (planHasUnknown left || planHasUnknown right) := by
  unfold foldBinaryPlan
  split
  · rename_i v h
    -- only constants fold
    cases left with
    | const a =>
        cases right with
        | const b => rfl
        | _ => cases h
    | _ => cases h
  · rfl

theorem planHasUnknown_compileIdent (value : String) :
    planHasUnknown (compileIdent value) = false := by
  unfold compileIdent
  split <;> rfl

theorem planHasUnknown_compileValue (nameToString : ObjectName → String) (v : SqlValue) :
    planHasUnknown (compileValue v) = false ↔ Expr.Understood nameToString (.value v) := by
  cases v with
  | number num long =>
      rw [compileValue]
      constructor
      · intro h
        cases hnumber : (F64.parse num).bind Number.fromF64 with
        | none =>
            rw [hnumber] at h
            cases h
        | some n =>
            obtain ⟨x, hparse, hx⟩ := Option.bind_eq_some_iff.mp hnumber
            obtain ⟨hfinite, -⟩ := Number.fromF64_eq_some.mp hx
            exact .number long hparse hfinite
      · intro h
        cases h with
        | number _ hparse hfinite =>
            rw [hparse, Option.bind_some, Number.fromF64, dif_pos hfinite]
            rfl
  | singleQuotedString s => exact iff_of_true rfl (.text s)
  | boolean b => exact iff_of_true rfl (.boolean b)
  | other sql => exact iff_of_false nofun nofun

theorem planHasUnknown_unknown (expr : Expr) : planHasUnknown (.unknown expr) ≠ false := by
  simp [planHasUnknown]

/-- The plan of an expression has no unknown part exactly when the expression is understood. -/
theorem planHasUnknown_compileExprPlan (nameToString : ObjectName → String) (expr : Expr) :
    planHasUnknown (compileExprPlan nameToString expr) = false ↔ expr.Understood nameToString := by
  unfold compileExprPlan
  fun_induction compileExprPlanWith nameToString foldBinaryPlan expr with
  | case1 ident => exact iff_of_true (planHasUnknown_compileIdent ident.value) (.identifier ident)
  | case2 idents => exact iff_of_true rfl (.compoundIdentifier idents)
  | case3 v => exact planHasUnknown_compileValue nameToString v
  | case4 left op right ihl ihr =>
      rw [planHasUnknown_foldBinaryPlan, Bool.or_eq_false_iff, ihl, ihr]
      constructor
      · intro h
        exact .binaryOp op h.1 h.2
      · intro h
        cases h with
        | binaryOp _ hl hr => exact ⟨hl, hr⟩
  | case5 inner ih =>
      rw [ih]
      constructor
      · exact .nested
      · intro h
        cases h with
        | nested h => exact h
  | case6 name clauses hname first levelExpr ih =>
      rw [planHasUnknown, ih]
      constructor
      · exact .topicLevel first clauses hname
      · intro h
        cases h with
        | topicLevel _ _ _ h => exact h
  | case7 name args clauses hname hargs =>
      apply iff_of_false (planHasUnknown_unknown _)
      intro h
      cases h with
      | topicLevel first _ _ _ => exact hargs _ _ rfl
  | case8 name args clauses hname =>
      apply iff_of_false (planHasUnknown_unknown _)
      intro h
      cases h with
      | topicLevel _ _ hname' _ => exact hname hname'
  | case9 ident firstKey others hident ih =>
      rw [planHasUnknown, ih]
      constructor
      · exact .mapKey others hident
      · intro h
        cases h with
        | mapKey _ _ h => exact h
  | case10 ident firstKey others hident =>
      apply iff_of_false (planHasUnknown_unknown _)
      intro h
      cases h with
      | mapKey _ hident' _ => exact hident hident'
  | case11 column keys hcolumn =>
      apply iff_of_false (planHasUnknown_unknown _)
      intro h
      cases h with
      | mapKey others hident _ => exact hcolumn _ _ _ rfl rfl
  | case12 ident firstIndex others hident ih =>
      rw [planHasUnknown, ih]
      constructor
      · exact .index others hident
      · intro h
        cases h with
        | index _ _ h => exact h
  | case13 ident firstIndex others hident =>
      apply iff_of_false (planHasUnknown_unknown _)
      intro h
      cases h with
      | index _ hident' _ => exact hident hident'
  | case14 obj indexes hobj =>
      apply iff_of_false (planHasUnknown_unknown _)
      intro h
      cases h with
      | index others hident _ => exact hobj _ _ _ rfl rfl
  | case15 sql parts =>
      apply iff_of_false (planHasUnknown_unknown _)
      intro h
      cases h

/-! ## Accepted queries -/

def SelectPlan.exprs : SelectPlan → List EvalExprPlan
  | .all => []
  | .columns cols => cols.map PlannedColumn.expr

/-- The plans a rule evaluates: its columns and its WHERE clause. -/
def CompiledRule.plans (rule : CompiledRule) : List EvalExprPlan :=
  rule.selectPlan.exprs ++ rule.wherePlan.toList

section Accept

variable (C : Crates)

theorem exprs_compileSelectPlan (spec : SelectSpec) :
    (compileSelectPlan C spec).exprs = spec.exprs.map (compileExprPlan C.nameToString) := by
  cases spec with
  | all => rfl
  | columns cols => simp [compileSelectPlan, SelectPlan.exprs, SelectSpec.exprs]

theorem hasUnknown_eq_false_iff (selectPlan : SelectPlan) (wherePlan : Option EvalExprPlan) :
    (selectPlanHasUnknown selectPlan || (wherePlan.map planHasUnknown).getD false) = false ↔
      ∀ plan ∈ selectPlan.exprs ++ wherePlan.toList, planHasUnknown plan = false := by
  have hselect : selectPlanHasUnknown selectPlan = false ↔
      ∀ plan ∈ selectPlan.exprs, planHasUnknown plan = false := by
    cases selectPlan with
    | all => simp [selectPlanHasUnknown, SelectPlan.exprs]
    | columns cols => simp [selectPlanHasUnknown, SelectPlan.exprs]
  have hwhere : (wherePlan.map planHasUnknown).getD false = false ↔
      ∀ plan ∈ wherePlan.toList, planHasUnknown plan = false := by
    cases wherePlan <;> simp
  rw [Bool.or_eq_false_iff, hselect, hwhere]
  simp only [List.mem_append, or_imp, forall_and]

variable {C} {definition : RuleDefinition} {query : Query}

theorem compileRule_eq
    (hparse : C.parseSql (normalizeRuleSql C.isWord definition.expression) = .ok [.query query]) :
    compileRule C definition = (parseQuery C query).bind fun parsed ↦
      compileParsed C definition parsed.1 parsed.2.1 parsed.2.2.1 parsed.2.2.2 := by
  rw [compileRule, hparse]
  rfl

/-- The rule of a query has the plans of the expressions the compiler keeps. -/
theorem plans_compileRule {rule : CompiledRule}
    (hparse : C.parseSql (normalizeRuleSql C.isWord definition.expression) = .ok [.query query])
    (h : compileRule C definition = .ok rule) :
    query.Readable ∧ rule.plans = query.keptExprs.map (compileExprPlan C.nameToString) := by
  rw [compileRule_eq hparse] at h
  obtain ⟨⟨filter, aliased, spec, whereExpr⟩, hquery, hcompiled⟩ := bind_eq_ok.mp h
  obtain ⟨hreadable, hexprs⟩ := parseQuery_ok C hquery
  apply And.intro hreadable
  dsimp only [compileParsed] at hcompiled
  split at hcompiled
  · cases hcompiled
    rw [CompiledRule.plans, ← hexprs, List.map_append, exprs_compileSelectPlan]
    cases whereExpr <;> rfl
  · cases hcompiled

/-- A query is accepted exactly when it is a SELECT from a table whose select list can be read and whose
expressions are all understood. -/
theorem exists_compileRule_iff
    (hparse : C.parseSql (normalizeRuleSql C.isWord definition.expression) = .ok [.query query]) :
    (∃ rule, compileRule C definition = .ok rule) ↔
      query.Readable ∧ ∀ expr ∈ query.keptExprs, expr.Understood C.nameToString := by
  constructor
  · intro h
    rcases h with ⟨rule, hrule⟩
    obtain ⟨hreadable, hplans⟩ := plans_compileRule hparse hrule
    apply And.intro hreadable
    intro expr hexpr
    have hknown := (hasUnknown_eq_false_iff rule.selectPlan rule.wherePlan).mp rule.hknown
    rw [← planHasUnknown_compileExprPlan]
    apply hknown
    change compileExprPlan C.nameToString expr ∈ rule.plans
    rw [hplans]
    exact List.mem_map_of_mem hexpr
  · intro h
    rcases h with ⟨hreadable, hunderstood⟩
    obtain ⟨filter, aliased, spec, whereExpr, hquery⟩ := exists_parseQuery C hreadable
    obtain ⟨-, hexprs⟩ := parseQuery_ok C hquery
    rw [compileRule_eq hparse, hquery]
    have hplans : (compileSelectPlan C spec).exprs ++
        (whereExpr.map (compileExprPlan C.nameToString)).toList =
          query.keptExprs.map (compileExprPlan C.nameToString) := by
      rw [← hexprs, List.map_append, exprs_compileSelectPlan]
      cases whereExpr <;> rfl
    have hknown : (selectPlanHasUnknown (compileSelectPlan C spec) ||
        ((whereExpr.map (compileExprPlan C.nameToString)).map planHasUnknown).getD false) = false := by
      rw [hasUnknown_eq_false_iff, hplans]
      intro plan hplan
      obtain ⟨expr, hexpr, rfl⟩ := List.mem_map.mp hplan
      exact (planHasUnknown_compileExprPlan _ expr).mpr (hunderstood expr hexpr)
    change ∃ rule, compileParsed C definition filter aliased spec whereExpr = .ok rule
    rw [compileParsed, dif_pos hknown]
    exact ⟨_, rfl⟩

end Accept

/-! ## Queries of which nothing is dropped -/

def FunctionArg.exprs : FunctionArg Expr → List Expr
  | .unnamedExpr expr => [expr]
  | .other _ parts => parts

def FunctionArguments.exprs : FunctionArguments Expr → List Expr
  | .none => []
  | .subquery _ parts => parts
  | .list args => args.flatMap FunctionArg.exprs

-- the expressions right below this one, whether the compiler looks at them or not
def Expr.parts : Expr → List Expr
  | .binaryOp left _ right => [left, right]
  | .nested inner => [inner]
  | .function _ args clauses => args.exprs ++ clauses
  | .mapAccess column keys => column :: keys
  | .arrayIndex obj indexes => obj :: indexes
  | .other _ parts => parts
  | _ => []

/-- The expression occurs in another one, at any depth. -/
inductive Expr.Within (sub : Expr) : Expr → Prop where
  | self : Within sub sub
  | part {part expr : Expr} (hmem : part ∈ expr.parts) (h : Within sub part) : Within sub expr

/-- Every access to the message properties names exactly one key. -/
def Expr.SingleKeyed (expr : Expr) : Prop :=
  ∀ (ident : Ident) (keys : List Expr), ident.value = "properties" →
    (Expr.mapAccess (.identifier ident) keys).Within expr ∨
      (Expr.arrayIndex (.identifier ident) keys).Within expr → keys.length = 1

def TableFactor.exprs : TableFactor → List Expr
  | .table _ _ parts => parts
  | .other _ => []

/-- The expressions of a SELECT, but for those of clauses a plain one does not have. -/
def Select.exprs (select : Select) : List Expr :=
  select.projection.filterMap SelectItem.expr? ++
    select.fromTables.flatMap (fun table ↦ table.relation.exprs) ++
    select.selection.toList ++ select.others

/-- A SELECT of one table without further clauses, of all its fields or of expressions only. -/
structure Select.Plain (select : Select) : Prop where
  distinct : select.distinct = none
  top : select.top = none
  groupBy : select.groupBy = .expressions []
  having : select.having = none
  table : ∃ table, select.fromTables = [table] ∧ table.joins = []
  projection : select.projection = [.wildcard none] ∨
    ∀ item ∈ select.projection, ∃ expr, item.expr? = some expr
  keys : ∀ expr ∈ select.exprs, expr.SingleKeyed

/-- A query in which there is nothing for the compiler to drop. -/
structure Query.Plain (query : Query) : Prop where
  withClause : query.withClause = none
  orderBy : query.orderBy = []
  limit : query.limit = none
  offset : query.offset = none
  fetch : query.fetch = none
  keys : ∀ expr ∈ query.limitBy, expr.SingleKeyed
  body : ∃ select, query.body = .select select ∧ select.Plain

/-- A definition is accepted only if its query is plain, and any other query is an error. -/
structure AcceptsPlainOnly (C : Crates) (definition : RuleDefinition) (query : Query) : Prop where
  accepted : ∀ rule, compileRule C definition = .ok rule → query.Plain
  rejected : ¬ query.Plain → ∃ err, compileRule C definition = .error err

/-- The compiler drops nothing of a query exactly when there is nothing to drop, or when it refuses the
query for what it does look at: no table to select from, a qualified wildcard, or an expression it
does not understand. -/
theorem acceptsPlainOnly_iff {C : Crates} {definition : RuleDefinition} {query : Query}
    (hparse : C.parseSql (normalizeRuleSql C.isWord definition.expression) = .ok [.query query]) :
    AcceptsPlainOnly C definition query ↔ query.Plain ∨ ¬ query.Readable ∨
      ∃ expr ∈ query.keptExprs, ¬ expr.Understood C.nameToString := by
  have haccepts := exists_compileRule_iff hparse
  constructor
  · intro h
    by_contra hnot
    simp only [not_or, not_exists, not_and, not_not] at hnot
    rcases hnot with ⟨hplain, hreadable, hunderstood⟩
    obtain ⟨rule, hrule⟩ := haccepts.mpr ⟨hreadable, hunderstood⟩
    exact hplain (h.accepted rule hrule)
  · intro h
    have hplain : ∀ rule, compileRule C definition = .ok rule → query.Plain := by
      intro rule hrule
      obtain ⟨hreadable, hunderstood⟩ := haccepts.mp ⟨rule, hrule⟩
      rcases h with h | h | ⟨expr, hexpr, h⟩
      · exact h
      · exact absurd hreadable h
      · exact absurd (hunderstood expr hexpr) h
    apply AcceptsPlainOnly.mk hplain
    intro hdropped
    cases hcompiled : compileRule C definition with
    | error err => exact ⟨err, rfl⟩
    | ok rule => exact absurd (hplain rule hcompiled) hdropped

theorem acceptsPlainOnly_iff_demo :
    AcceptsPlainOnly demoCrates ⟨selectTemp "t", [], none⟩
        (demoQuery [.unnamedExpr (.identifier ⟨"temp", none⟩)] "t") ↔
      (demoQuery [.unnamedExpr (.identifier ⟨"temp", none⟩)] "t").Plain ∨
        ¬ (demoQuery [.unnamedExpr (.identifier ⟨"temp", none⟩)] "t").Readable ∨
        ∃ expr ∈ (demoQuery [.unnamedExpr (.identifier ⟨"temp", none⟩)] "t").keptExprs,
          ¬ expr.Understood demoCrates.nameToString := by
  apply acceptsPlainOnly_iff
  have htext : normalizeRuleSql demoCrates.isWord (selectTemp "t") = selectTemp "t" := by
    decide +kernel
  rw [htext]
  rfl

-- `select temp from "t" limit 1`
def limitedQuery : Query :=
  { demoQuery [.unnamedExpr (.identifier ⟨"temp", none⟩)] "t" with
    limit := some (.value (.number "1" false)) }

/-- A query with a limit is accepted, and the limit is dropped. -/
theorem not_acceptsPlainOnly_limit :
    ¬ AcceptsPlainOnly { demoCrates with parseSql := fun _ ↦ .ok [.query limitedQuery] }
      ⟨"select temp from \"t\" limit 1", [], none⟩ limitedQuery := by
  intro h
  have haccepted : ∃ rule, compileRule
      { demoCrates with parseSql := fun _ ↦ .ok [.query limitedQuery] }
      ⟨"select temp from \"t\" limit 1", [], none⟩ = .ok rule := ⟨_, rfl⟩
  rcases haccepted with ⟨rule, hrule⟩
  exact absurd (h.accepted rule hrule).limit nofun

end Tenon.Core
