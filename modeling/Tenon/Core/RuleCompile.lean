import Tenon.Core.RulePlan
import Tenon.Reasoning.Ends

/-!
# RuleCompile — from a rule definition to a compiled rule

The expression of a rule is normalised, parsed, reduced to its topic filter, select list and WHERE
clause, and compiled to plans.  A compiled rule records what its plans read, and no plan of it holds
an expression the compiler did not understand.
-/

open Reasoning

namespace Tenon.Core

structure RuleDefinition where
  expression : String
  destinations : List String
  schema : Option String
  deriving DecidableEq

inductive RulePayloadBinding where
  | json
  | protobuf (schema : String)
  deriving DecidableEq

inductive RuleError where
  | sqlParse (text : String)
  | unsupportedSql
  | missingTopic
  | missingSchemaName
  | unexpectedSchemaName
  deriving DecidableEq

structure SelectedColumn where
  expr : Expr
  aliasName : String

inductive SelectSpec where
  | all
  | columns (columns : List SelectedColumn)

/-- The functions of other crates that the engine calls. -/
structure Crates where
  -- `\b` of a regular expression lies between a word character and another one
  isWord : Char → Bool
  parseSql : String → Except String (List Statement)
  exprToString : Expr → String
  nameToString : ObjectName → String
  hash64 : String → UInt64
  valueFromSlice : List UInt8 → Except String JsonDocument
  valueToVec : JsonValue → Except String (List UInt8)
  ruleFileFromSlice : List UInt8 → Except String (List RuleDefinition)

structure CompiledRule where
  id : String
  topicFilter : String
  aliasedTopicFilter : String
  select : SelectSpec
  selectPlan : SelectPlan
  whereExpr : Option Expr
  wherePlan : Option EvalExprPlan
  destinations : List String
  payloadBinding : RulePayloadBinding
  requiredPayloadFields : List CompiledPayloadField
  requiresTopicParts : Bool
  hfields : requiredPayloadFields = collectRequiredPayloadFields selectPlan wherePlan
  hparts : requiresTopicParts =
    (selectPlanRequiresTopicParts selectPlan || (wherePlan.map planRequiresTopicParts).getD false)
  hknown : (selectPlanHasUnknown selectPlan || (wherePlan.map planHasUnknown).getD false) = false

/-! ## Normalising the text -/

-- the `White_Space` characters
def isWhitespace (c : Char) : Bool :=
  let n := c.toNat
  (9 ≤ n && n ≤ 13) || n = 32 || n = 0x85 || n = 0xa0 || n = 0x1680 ||
    (0x2000 ≤ n && n ≤ 0x200a) || n = 0x2028 || n = 0x2029 || n = 0x202f || n = 0x205f || n = 0x3000

def trim (cs : List Char) : List Char :=
  ((cs.dropWhile isWhitespace).reverse.dropWhile isWhitespace).reverse

def normalizeTopic (topic : String) : String :=
  let trimmed := trim topic.toList
  match trimmed with
  | '"' :: rest =>
      if rest.getLast? = some '"' then String.ofList rest.dropLast else String.ofList trimmed
  | _ => String.ofList trimmed

-- `from\s+` in any case of its letters, at the start of a text
def matchFrom : List Char → Option (List Char × List Char)
  | f :: r :: o :: m :: rest =>
      let spaces := rest.takeWhile isWhitespace
      if f.toLower = 'f' ∧ r.toLower = 'r' ∧ o.toLower = 'o' ∧ m.toLower = 'm' ∧ spaces ≠ [] then
        some ([f, r, o, m] ++ spaces, rest.dropWhile isWhitespace)
      else none
  | _ => none

-- `'([^']+)'`: the text between the quotes and the text after them
def matchQuoted : List Char → Option (List Char × List Char)
  | '\'' :: rest =>
      match rest.dropWhile (· ≠ '\'') with
      | '\'' :: after =>
          if rest.takeWhile (· ≠ '\'') ≠ [] then some (rest.takeWhile (· ≠ '\''), after) else none
      | _ => none
  | _ => none

-- replaces the first match of `\bfrom\s+` followed by what `body` accepts
def replaceFirst (isWord : Char → Bool) (body : List Char → List Char → Option (List Char))
    (afterWord : Bool) : List Char → List Char
  | [] => []
  | c :: cs =>
      let found := if afterWord then none else matchFrom (c :: cs)
      match found.bind fun m ↦ body m.1 m.2 with
      | some replaced => replaced
      | none => c :: replaceFirst isWord body (isWord c) cs

def quoteFilter (filter : List Char) : List Char :=
  "from \"".toList ++ filter ++ ['"']

def normalizeRuleSql (isWord : Char → Bool) (sql : String) : String :=
  let quoted (_ rest : List Char) : Option (List Char) :=
    (matchQuoted rest).map fun m ↦ quoteFilter m.1 ++ m.2
  let bare (keyword rest : List Char) : Option (List Char) :=
    let isToken (c : Char) : Bool := !(isWhitespace c || c == ',' || c == '(' || c == ')')
    let token := rest.takeWhile isToken
    let after := rest.dropWhile isToken
    if token = [] then none
    else if token.head? = some '"' ∨ token.head? = some '\'' ∨
        ¬('/' ∈ token ∨ '+' ∈ token ∨ '#' ∈ token) then
      -- the first match is left as it stands
      some (keyword ++ token ++ after)
    else some (quoteFilter token ++ after)
  String.ofList (replaceFirst isWord bare false (replaceFirst isWord quoted false sql.toList))

example : normalizeRuleSql Char.isAlphanum "select * from 'a/b' where c = 1" =
    "select * from \"a/b\" where c = 1" := by decide +kernel

/-! ## Parsing the query -/

section Compile

variable (C : Crates)

def deriveAlias (expr : Expr) : String :=
  match expr with
  | .identifier ident => ident.value
  | .compoundIdentifier idents => (idents.getLast?.map Ident.value).getD (C.exprToString expr)
  | _ => C.exprToString expr

-- the loop over the select items
def parseColumns (columns : List SelectedColumn) : List SelectItem → Except RuleError SelectSpec
  | [] => .ok (.columns columns)
  | item :: items =>
      match item with
      | .unnamedExpr expr => parseColumns (columns ++ [⟨expr, deriveAlias C expr⟩]) items
      | .exprWithAlias expr ident => parseColumns (columns ++ [⟨expr, ident.value⟩]) items
      | .wildcard _ => .ok .all
      | .qualifiedWildcard _ => .error .unsupportedSql

def parseSelectItems (items : List SelectItem) : Except RuleError SelectSpec :=
  match items with
  | [.wildcard _] => .ok .all
  | items => parseColumns C [] items

def parseSelect (select : Select) :
    Except RuleError (String × String × SelectSpec × Option Expr) := do
  match select.fromTables with
  | [] => .error .missingTopic
  | table :: _ =>
      match table.relation with
      | .table name tableAlias _ =>
          let filter := normalizeTopic (C.nameToString name)
          let aliasValue := (tableAlias.map fun a ↦ a.name.value).getD filter
          let spec ← parseSelectItems C select.projection
          return (filter, aliasValue, spec, select.selection)
      | .other _ => .error .unsupportedSql

def parseQuery (query : Query) : Except RuleError (String × String × SelectSpec × Option Expr) :=
  match query.body with
  | .select select => parseSelect C select
  | .other _ => .error .unsupportedSql

def compileSelectPlan (spec : SelectSpec) : SelectPlan :=
  match spec with
  | .all => .all
  | .columns columns =>
      .columns (columns.map fun column ↦
        ⟨compileExprPlan C.nameToString column.expr, column.aliasName⟩)

-- `{:x}`
def lowerHex (n : UInt64) : String := String.ofList (Nat.toDigits 16 n.toNat)

-- the rule of a parsed query, unless a plan of it holds an unknown expression
def compileParsed (rule : RuleDefinition) (topicFilter aliasedTopicFilter : String)
    (select : SelectSpec) (whereExpr : Option Expr) : Except RuleError CompiledRule :=
  let selectPlan := compileSelectPlan C select
  let wherePlan := whereExpr.map (compileExprPlan C.nameToString)
  if hknown : (selectPlanHasUnknown selectPlan ||
      (wherePlan.map planHasUnknown).getD false) = false then
    .ok {
      id := lowerHex (C.hash64 rule.expression)
      topicFilter := topicFilter
      aliasedTopicFilter := aliasedTopicFilter
      select := select
      selectPlan := selectPlan
      whereExpr := whereExpr
      wherePlan := wherePlan
      destinations := rule.destinations
      payloadBinding := (rule.schema.map .protobuf).getD .json
      requiredPayloadFields := collectRequiredPayloadFields selectPlan wherePlan
      requiresTopicParts := selectPlanRequiresTopicParts selectPlan ||
        (wherePlan.map planRequiresTopicParts).getD false
      hfields := rfl
      hparts := rfl
      hknown := hknown }
  else .error .unsupportedSql

def compileRule (rule : RuleDefinition) : Except RuleError CompiledRule := do
  let statements ← (C.parseSql (normalizeRuleSql C.isWord rule.expression)).mapError .sqlParse
  match statements with
  | [.query query] =>
      let (topicFilter, aliasedTopicFilter, select, whereExpr) ← parseQuery C query
      compileParsed C rule topicFilter aliasedTopicFilter select whereExpr
  | _ => .error .unsupportedSql

theorem compileParsed_ok {rule : RuleDefinition} {filter aliased : String} {select : SelectSpec}
    {whereExpr : Option Expr} {compiled : CompiledRule}
    (h : compileParsed C rule filter aliased select whereExpr = .ok compiled) :
    compiled.id = lowerHex (C.hash64 rule.expression) ∧
      compiled.payloadBinding = (rule.schema.map .protobuf).getD .json ∧
      compiled.destinations = rule.destinations := by
  dsimp only [compileParsed] at h
  split at h
  · cases h
    exact ⟨rfl, rfl, rfl⟩
  · cases h

/-- A compiled rule is bound to the schema of its definition, and its id is the hash of the
expression. -/
theorem compileRule_ok {rule : RuleDefinition} {compiled : CompiledRule}
    (h : compileRule C rule = .ok compiled) :
    compiled.id = lowerHex (C.hash64 rule.expression) ∧
      compiled.payloadBinding = (rule.schema.map .protobuf).getD .json ∧
      compiled.destinations = rule.destinations := by
  obtain ⟨statements, -, hrest⟩ := bind_eq_ok.mp h
  split at hrest
  · obtain ⟨⟨filter, aliased, select, whereExpr⟩, -, hcompiled⟩ := bind_eq_ok.mp hrest
    exact compileParsed_ok C hcompiled
  · cases hrest

end Compile

end Tenon.Core
