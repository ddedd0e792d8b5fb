import Tenon.Core.MsgIr
import Tenon.Core.Sql

/-!
# RulePlan — evaluation plans and how expressions compile to them

An expression compiles to a plan by recursion, folding a binary operation on two constants to the
constant it denotes.  The plan determines the payload fields and the topic levels its evaluation may
read.
-/

open Reasoning Reasoning.Binary64

namespace Tenon.Core

inductive EvalExprPlan where
  | const (value : JsonValue)
  | payloadField (path : CompiledPayloadField)
  | metaQos
  | metaRetain
  | metaDup
  | metaTimestamp
  | metaClientId
  | metaUsername
  | binary (left : EvalExprPlan) (op : BinaryOperator) (right : EvalExprPlan)
  | topicLevel (level : EvalExprPlan)
  | propertiesKey (key : EvalExprPlan)
  | unknown (expr : Expr)

/-! ## Arithmetic and comparison of constants -/

-- the four operators on numbers
def applyArithmetic (op : BinaryOperator) (l r : F64) : Option F64 :=
  match op with
  | .plus => some (l.add r)
  | .minus => some (l.sub r)
  | .multiply => some (l.mul r)
  | .divide => some (l.div r)
  | _ => none

def evaluateArithmetic (left right : JsonValue) (op : BinaryOperator) : Option JsonValue := do
  let left ← left.asF64
  let right ← right.asF64
  let result ← applyArithmetic op left right
  let n ← Number.fromF64 result
  return .number n

def compareValues (left right : JsonValue) (op : BinaryOperator) : Option Bool :=
  match left, right with
  | .number l, .number r => do
      let l ← l.asF64
      let r ← r.asF64
      match op with
      | .gt => some (r.lt l)
      | .gtEq => some (r.le l)
      | .lt => some (l.lt r)
      | .ltEq => some (l.le r)
      | .eq => some ((l.sub r).abs.lt F64.epsilon)
      | .notEq => some (F64.epsilon.le (l.sub r).abs)
      | _ => none
  | .string l, .string r =>
      match op with
      | .eq => some (l == r)
      | .notEq => some (l != r)
      | _ => none
  | .bool l, .bool r =>
      match op with
      | .eq => some (l == r)
      | .notEq => some (l != r)
      | _ => none
  | _, _ => none

/-! ## Compilation -/

def foldConstBinary (left : EvalExprPlan) (op : BinaryOperator) (right : EvalExprPlan) :
    Option JsonValue :=
  match left, right with
  | .const left, .const right =>
      match op with
      | .plus | .minus | .multiply | .divide => evaluateArithmetic left right op
      | .gt | .gtEq | .lt | .ltEq | .eq | .notEq => (compareValues left right op).map .bool
      | .and | .or => do
          let l ← left.asBool
          let r ← right.asBool
          match op with
          | .and => some (.bool (l && r))
          | .or => some (.bool (l || r))
          | _ => none
      | _ => none
  | _, _ => none

def foldBinaryPlan (left : EvalExprPlan) (op : BinaryOperator) (right : EvalExprPlan) :
    EvalExprPlan :=
  match foldConstBinary left op right with
  | some folded => .const folded
  | none => .binary left op right

-- a value of the SQL text
def compileValue (value : SqlValue) : EvalExprPlan :=
  match value with
  | .number num _ =>
      match (F64.parse num).bind Number.fromF64 with
      | some n => .const (.number n)
      | none => .unknown (.value value)
  | .singleQuotedString s => .const (.string s)
  | .boolean b => .const (.bool b)
  | .other _ => .unknown (.value value)

def compileIdent (value : String) : EvalExprPlan :=
  match value with
  | "qos" => .metaQos
  | "retain" => .metaRetain
  | "dup" => .metaDup
  | "timestamp" => .metaTimestamp
  | "clientId" => .metaClientId
  | "username" => .metaUsername
  | _ => .payloadField (.fromKey value)

section Compile

-- how the SQL parser prints the name of a function, and how a binary operation is built
variable (nameToString : ObjectName → String)
variable (build : EvalExprPlan → BinaryOperator → EvalExprPlan → EvalExprPlan)

def compileExprPlanWith (expr : Expr) : EvalExprPlan :=
  match expr with
  | .identifier ident => compileIdent ident.value
  | .compoundIdentifier idents =>
      .payloadField (.fromKey (Segments.join '.' (idents.map Ident.value)))
  | .value v => compileValue v
  | .binaryOp left op right => build (compileExprPlanWith left) op (compileExprPlanWith right)
  | .nested inner => compileExprPlanWith inner
  | .function name args clauses =>
      -- no other character lower-cases to a letter of this name, so the ASCII mapping decides it
      if (nameToString name).toLower = "topic_level" then
        match args with
        | .list [_, .unnamedExpr levelExpr] => .topicLevel (compileExprPlanWith levelExpr)
        | _ => .unknown (.function name args clauses)
      else .unknown (.function name args clauses)
  | .mapAccess column keys =>
      match column, keys with
      | .identifier ident, firstKey :: _ =>
          if ident.value = "properties" then .propertiesKey (compileExprPlanWith firstKey)
          else .unknown (.mapAccess column keys)
      | _, _ => .unknown (.mapAccess column keys)
  | .arrayIndex obj indexes =>
      match obj, indexes with
      | .identifier ident, firstIndex :: _ =>
          if ident.value = "properties" then .propertiesKey (compileExprPlanWith firstIndex)
          else .unknown (.arrayIndex obj indexes)
      | _, _ => .unknown (.arrayIndex obj indexes)
  | .other sql parts => .unknown (.other sql parts)
termination_by structural expr

def compileExprPlan (expr : Expr) : EvalExprPlan :=
  compileExprPlanWith nameToString foldBinaryPlan expr

end Compile

/-! ## What a plan reads -/

def planHasUnknown : EvalExprPlan → Bool
  | .unknown _ => true
  | .binary left _ right => planHasUnknown left || planHasUnknown right
  | .topicLevel level => planHasUnknown level
  | .propertiesKey key => planHasUnknown key
  | _ => false

def planRequiresTopicParts : EvalExprPlan → Bool
  | .topicLevel _ => true
  | .binary left _ right => planRequiresTopicParts left || planRequiresTopicParts right
  | .propertiesKey key => planRequiresTopicParts key
  | _ => false

-- the set `seen` of the source always holds the keys of `fields`
def pushUnseen (fields : List CompiledPayloadField) (field : CompiledPayloadField) :
    List CompiledPayloadField :=
  if field ∈ fields then fields else fields ++ [field]

def collectRequiredPayloadFieldsFromPlan (plan : EvalExprPlan)
    (fields : List CompiledPayloadField) : List CompiledPayloadField :=
  match plan with
  | .payloadField path => pushUnseen fields path
  | .binary left _ right =>
      collectRequiredPayloadFieldsFromPlan right (collectRequiredPayloadFieldsFromPlan left fields)
  | .topicLevel level => collectRequiredPayloadFieldsFromPlan level fields
  | .propertiesKey key => collectRequiredPayloadFieldsFromPlan key fields
  | _ => fields

/-! ## Select plans -/

structure PlannedColumn where
  expr : EvalExprPlan
  aliasName : String

inductive SelectPlan where
  | all
  | columns (columns : List PlannedColumn)

def selectPlanHasUnknown : SelectPlan → Bool
  | .all => false
  | .columns columns => columns.any fun column ↦ planHasUnknown column.expr

def selectPlanRequiresTopicParts : SelectPlan → Bool
  | .all => false
  | .columns columns => columns.any fun column ↦ planRequiresTopicParts column.expr

def collectRequiredPayloadFieldsFromSelect (plan : SelectPlan)
    (fields : List CompiledPayloadField) : List CompiledPayloadField :=
  match plan with
  | .all => fields
  | .columns columns =>
      columns.foldl (fun fields column ↦ collectRequiredPayloadFieldsFromPlan column.expr fields)
        fields

def collectRequiredPayloadFields (selectPlan : SelectPlan) (wherePlan : Option EvalExprPlan) :
    List CompiledPayloadField :=
  let fields := collectRequiredPayloadFieldsFromSelect selectPlan []
  match wherePlan with
  | some plan => collectRequiredPayloadFieldsFromPlan plan fields
  | none => fields

/-! ## The collected fields cover the plan -/

theorem mem_pushUnseen {fields : List CompiledPayloadField} {field f : CompiledPayloadField} :
    f ∈ pushUnseen fields field ↔ f ∈ fields ∨ f = field := by
  unfold pushUnseen
  split
  · constructor
    · exact Or.inl
    · intro h
      rcases h with h | rfl
      · exact h
      · assumption
  · simp

theorem mem_foldl_pushUnseen {more fields : List CompiledPayloadField} {f : CompiledPayloadField} :
    f ∈ more.foldl pushUnseen fields ↔ f ∈ fields ∨ f ∈ more := by
  induction more generalizing fields with
  | nil => simp
  | cons field rest ih => rw [List.foldl_cons, ih, mem_pushUnseen, List.mem_cons, or_assoc]

-- the payload fields that occur in a plan
def EvalExprPlan.Reads (f : CompiledPayloadField) : EvalExprPlan → Prop
  | .payloadField path => f = path
  | .binary left _ right => left.Reads f ∨ right.Reads f
  | .topicLevel level => level.Reads f
  | .propertiesKey key => key.Reads f
  | _ => False

theorem mem_collectFromPlan {plan : EvalExprPlan} {fields : List CompiledPayloadField}
    {f : CompiledPayloadField} :
    f ∈ collectRequiredPayloadFieldsFromPlan plan fields ↔ f ∈ fields ∨ plan.Reads f := by
  induction plan generalizing fields with
  | payloadField path => exact mem_pushUnseen
  | binary left op right ihl ihr =>
      rw [collectRequiredPayloadFieldsFromPlan, ihr, ihl, or_assoc]
      rfl
  | topicLevel level ih => exact ih
  | propertiesKey key ih => exact ih
  | _ => simp [collectRequiredPayloadFieldsFromPlan, EvalExprPlan.Reads]

def SelectPlan.Reads (f : CompiledPayloadField) : SelectPlan → Prop
  | .all => False
  | .columns cols => ∃ column ∈ cols, column.expr.Reads f

theorem mem_collectFromSelect {plan : SelectPlan} {fields : List CompiledPayloadField}
    {f : CompiledPayloadField} :
    f ∈ collectRequiredPayloadFieldsFromSelect plan fields ↔ f ∈ fields ∨ plan.Reads f := by
  cases plan with
  | all => simp [collectRequiredPayloadFieldsFromSelect, SelectPlan.Reads]
  | columns cols =>
      show f ∈ cols.foldl _ fields ↔ f ∈ fields ∨ ∃ column ∈ cols, column.expr.Reads f
      induction cols generalizing fields with
      | nil => simp
      | cons column rest ih => rw [List.foldl_cons, ih, mem_collectFromPlan]; simp [or_assoc]

theorem mem_collectRequiredPayloadFields {selectPlan : SelectPlan} {wherePlan : Option EvalExprPlan}
    {f : CompiledPayloadField} :
    f ∈ collectRequiredPayloadFields selectPlan wherePlan ↔
      selectPlan.Reads f ∨ ∃ plan ∈ wherePlan, plan.Reads f := by
  unfold collectRequiredPayloadFields
  cases wherePlan with
  | none => simp [mem_collectFromSelect]
  | some plan =>
      show f ∈ collectRequiredPayloadFieldsFromPlan plan _ ↔ _
      rw [mem_collectFromPlan, mem_collectFromSelect]
      simp

end Tenon.Core
