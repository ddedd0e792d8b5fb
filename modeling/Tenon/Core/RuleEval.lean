import Tenon.Core.RuleCompile

/-!
# RuleEval — evaluating plans on a message

A plan is evaluated either to a JSON value or, in a predicate, to a truth value.  Comparisons in a
predicate first try the operands as borrowed runtime values and only then build JSON values.
-/

open Reasoning.Binary64

namespace Tenon.Core

inductive EvalError where
  | missingPayloadField (field : String)
  | missingProperty (key : String)
  | missingMetadata (name : String)
  | typeMismatch (context expected actual : String)
  | binaryTypeMismatch (context op left right : String)
  | invalidTopicLevelValue (context actual : String)
  | unsupportedExpression (context : String)
  | projectionSerialization
  deriving DecidableEq

def EvalError.isTypeError : EvalError → Bool
  | .typeMismatch .. | .binaryTypeMismatch .. | .invalidTopicLevelValue .. => true
  | _ => false

structure EvalContext where
  message : Message
  payload : MsgIr
  topicParts : List String

inductive RuntimeValue where
  | number (x : F64)
  | string (s : String)
  | bool (b : Bool)

def RuntimeValue.kind : RuntimeValue → String
  | .number _ => "number"
  | .string _ => "string"
  | .bool _ => "bool"

def jsonValueTypeName : JsonValue → String
  | .null => "null"
  | .bool _ => "bool"
  | .number _ => "number"
  | .string _ => "string"
  | .array _ => "array"
  | .object _ => "object"

def payloadValueTypeName : PayloadValue → String
  | .null => "null"
  | .bool _ => "bool"
  | .number _ => "number"
  | .string _ => "string"
  | .array _ => "array"
  | .object _ => "object"

def binaryOperatorName : BinaryOperator → String
  | .plus => "+"
  | .minus => "-"
  | .multiply => "*"
  | .divide => "/"
  | .gt => ">"
  | .gtEq => ">="
  | .lt => "<"
  | .ltEq => "<="
  | .eq => "="
  | .notEq => "!="
  | .and => "and"
  | .or => "or"
  | .other _ => "unknown"

def payloadValueByPath (payload : MsgIr) (path : CompiledPayloadField) :
    Except EvalError PayloadValue :=
  match payload.getField path with
  | some value => .ok value
  | none => .error (.missingPayloadField path.key)

-- arrays, objects and null are no operand of a comparison
def payloadRuntimeValue (value : PayloadValue) : Except EvalError RuntimeValue :=
  match value with
  | .number x => .ok (.number x)
  | .string text => .ok (.string text)
  | .bool flag => .ok (.bool flag)
  | value => .error (.typeMismatch "predicate" "number|string|bool" (payloadValueTypeName value))

/-! ## Operations on values -/

def compareRuntimeRuntime (left right : RuntimeValue) (op : BinaryOperator) (context : String) :
    Except EvalError Bool :=
  let mismatch : Except EvalError Bool :=
    .error (.binaryTypeMismatch context (binaryOperatorName op) left.kind right.kind)
  match left, right with
  | .number l, .number r =>
      match op with
      | .gt => .ok (r.lt l)
      | .gtEq => .ok (r.le l)
      | .lt => .ok (l.lt r)
      | .ltEq => .ok (l.le r)
      | .eq => .ok ((l.sub r).abs.lt F64.epsilon)
      | .notEq => .ok (F64.epsilon.le (l.sub r).abs)
      | _ => .error (.unsupportedExpression context)
  | .string l, .string r =>
      match op with
      | .eq => .ok (l == r)
      | .notEq => .ok (l != r)
      | _ => mismatch
  | .bool l, .bool r =>
      match op with
      | .eq => .ok (l == r)
      | .notEq => .ok (l != r)
      | _ => mismatch
  | _, _ => mismatch

-- both operands as numbers, or the mismatch error
def numericOperands (left right : JsonValue) (op : BinaryOperator) (context : String) :
    Except EvalError (F64 × F64) :=
  match left.asF64, right.asF64 with
  | some l, some r => .ok (l, r)
  | _, _ => .error (.binaryTypeMismatch context (binaryOperatorName op) (jsonValueTypeName left)
      (jsonValueTypeName right))

def evaluateArithmeticRuntime (left right : JsonValue) (op : BinaryOperator) (context : String) :
    Except EvalError JsonValue := do
  let (l, r) ← numericOperands left right op context
  match (applyArithmetic op l r).bind Number.fromF64 with
  | some n => .ok (.number n)
  -- another operator, or a result that is not finite
  | none => .error (.unsupportedExpression context)

def compareValuesRuntime (left right : JsonValue) (op : BinaryOperator) (context : String) :
    Except EvalError Bool :=
  let mismatch : Except EvalError Bool :=
    .error (.binaryTypeMismatch context (binaryOperatorName op) (jsonValueTypeName left)
      (jsonValueTypeName right))
  match left, right with
  | .number _, .number _ => do
      let (l, r) ← numericOperands left right op context
      match op with
      | .gt => .ok (r.lt l)
      | .gtEq => .ok (r.le l)
      | .lt => .ok (l.lt r)
      | .ltEq => .ok (l.le r)
      | .eq => .ok ((l.sub r).abs.lt F64.epsilon)
      | .notEq => .ok (F64.epsilon.le (l.sub r).abs)
      | _ => .error (.unsupportedExpression context)
  | .string l, .string r =>
      match op with
      | .eq => .ok (l == r)
      | .notEq => .ok (l != r)
      | _ => mismatch
  | .bool l, .bool r =>
      match op with
      | .eq => .ok (l == r)
      | .notEq => .ok (l != r)
      | _ => mismatch
  | _, _ => mismatch

def valueToNonNegativeU64 (value : JsonValue) (context : String) : Except EvalError Nat :=
  match value.asU64 with
  | some raw => .ok raw.toNat
  | none =>
      match value.asF64 with
      | none => .error (.invalidTopicLevelValue context (jsonValueTypeName value))
      | some number =>
          if number.lt F64.zero || !number.fractIsZero ||
              (F64.ofNat (2 ^ 64 - 1)).lt number then
            .error (.invalidTopicLevelValue context (jsonValueTypeName value))
          else .ok number.toU64

-- the topic level a value selects, shared text of both evaluators
def topicLevelOf (levelValue : JsonValue) (ctx : EvalContext) : Except EvalError String := do
  let level ← valueToNonNegativeU64 levelValue "topic_level"
  let index := if level = 0 then 0 else level - 1
  match ctx.topicParts[index]? with
  | some part => .ok part
  | none => .error (.missingMetadata "topic level")

-- the property a value names, shared text of both evaluators
def propertyOf (keyValue : JsonValue) (ctx : EvalContext) : Except EvalError String :=
  match keyValue.asStr with
  | none => .error (.typeMismatch "properties key" "string" (jsonValueTypeName keyValue))
  | some key =>
      match ctx.message.properties.lookup key with
      | some value => .ok value
      | none => .error (.missingProperty key)

def metadataText (value : Option String) (name : String) : Except EvalError String :=
  match value with
  | some text => .ok text
  | none => .error (.missingMetadata name)

def expectBool (value : JsonValue) : Except EvalError Bool :=
  match value with
  | .bool v => .ok v
  | value => .error (.typeMismatch "predicate" "bool" (jsonValueTypeName value))

/-! ## The evaluators -/

def EvalExprPlan.size : EvalExprPlan → Nat
  | .binary left _ right => left.size + right.size + 2
  | .topicLevel level => level.size + 1
  | .propertiesKey key => key.size + 1
  | _ => 1

mutual

def evaluatePlanBool (plan : EvalExprPlan) (ctx : EvalContext) : Except EvalError Bool :=
  match plan with
  | .binary left op right =>
      if op.isLogical then do
        let leftVal ← evaluatePlanBool left ctx
        let rightVal ← evaluatePlanBool right ctx
        match op with
        | .and => .ok (leftVal && rightVal)
        | .or => .ok (leftVal || rightVal)
        | _ => .ok false
      else if op.isComparison then do
        match ← evaluatePlanCompareBool left op right ctx with
        | some value => .ok value
        | none => do
            let leftVal ← evaluatePlanValue left ctx
            let rightVal ← evaluatePlanValue right ctx
            compareValuesRuntime leftVal rightVal op "predicate"
      else do
        let value ← evaluatePlanValue (.binary left op right) ctx
        expectBool value
  | plan@(.const _) | plan@(.payloadField _) | plan@(.metaQos) | plan@(.metaRetain)
  | plan@(.metaDup) | plan@(.metaTimestamp) | plan@(.metaClientId) | plan@(.metaUsername)
  | plan@(.topicLevel _) | plan@(.propertiesKey _) | plan@(.unknown _) => do
      let value ← evaluatePlanValue plan ctx
      expectBool value
-- a logical operation is evaluated as a truth value, every other plan as a JSON value first
termination_by (plan.size, match plan with
  | .binary _ op _ => if op.isLogical then 0 else 2
  | _ => 2)
decreasing_by all_goals simp_all [Prod.lex_def, EvalExprPlan.size]; try omega

def evaluatePlanCompareBool (left : EvalExprPlan) (op : BinaryOperator) (right : EvalExprPlan)
    (ctx : EvalContext) : Except EvalError (Option Bool) := do
  match ← evaluatePlanRuntimeValue left ctx with
  | none => .ok none
  | some leftVal =>
      match ← evaluatePlanRuntimeValue right ctx with
      | none => .ok none
      | some rightVal => (compareRuntimeRuntime leftVal rightVal op "predicate").map some
termination_by (left.size + right.size + 1, 0)
decreasing_by all_goals simp only [Prod.lex_def]; omega

def evaluatePlanRuntimeValue (plan : EvalExprPlan) (ctx : EvalContext) :
    Except EvalError (Option RuntimeValue) :=
  match plan with
  | .const value =>
      match value with
      | .number n => .ok (n.asF64.map .number)
      | .string text => .ok (some (.string text))
      | .bool flag => .ok (some (.bool flag))
      | _ => .ok none
  | .payloadField path => do
      let value ← payloadValueByPath ctx.payload path
      (payloadRuntimeValue value).map some
  | .metaQos => .ok (some (.number (F64.ofNat ctx.message.qos.toNat)))
  | .metaRetain => .ok (some (.bool ctx.message.retain))
  | .metaDup => .ok (some (.bool ctx.message.dup))
  | .metaTimestamp => .ok (some (.number (F64.ofNat ctx.message.timestampMillis.toNat)))
  | .metaClientId => (metadataText ctx.message.clientId "clientId").map fun t ↦ some (.string t)
  | .metaUsername => (metadataText ctx.message.username "username").map fun t ↦ some (.string t)
  | .topicLevel level => do
      let levelValue ← evaluatePlanValue level ctx
      (topicLevelOf levelValue ctx).map fun t ↦ some (.string t)
  | .propertiesKey key => do
      let keyValue ← evaluatePlanValue key ctx
      (propertyOf keyValue ctx).map fun t ↦ some (.string t)
  | .binary .. | .unknown _ => .ok none
termination_by (plan.size, 0)
decreasing_by all_goals simp [Prod.lex_def, EvalExprPlan.size]

def evaluatePlanValue (plan : EvalExprPlan) (ctx : EvalContext) : Except EvalError JsonValue :=
  match plan with
  | .const value => .ok value
  | .payloadField path => (payloadValueByPath ctx.payload path).map PayloadValue.toJsonValue
  | .metaQos => .ok (.number (.fromU64 ctx.message.qos.toUInt64))
  | .metaRetain => .ok (.bool ctx.message.retain)
  | .metaDup => .ok (.bool ctx.message.dup)
  | .metaTimestamp => .ok (.number (.fromU64 ctx.message.timestampMillis))
  | .metaClientId => (metadataText ctx.message.clientId "clientId").map .string
  | .metaUsername => (metadataText ctx.message.username "username").map .string
  | .binary left op right =>
      if op.isLogical then (evaluatePlanBool (.binary left op right) ctx).map .bool
      else do
        let leftVal ← evaluatePlanValue left ctx
        let rightVal ← evaluatePlanValue right ctx
        if op.isArithmetic then evaluateArithmeticRuntime leftVal rightVal op "projection"
        else if op.isComparison then
          (compareValuesRuntime leftVal rightVal op "projection").map .bool
        else .error (.unsupportedExpression "projection")
  | .topicLevel level => do
      let levelValue ← evaluatePlanValue level ctx
      (topicLevelOf levelValue ctx).map .string
  | .propertiesKey key => do
      let keyValue ← evaluatePlanValue key ctx
      (propertyOf keyValue ctx).map .string
  | .unknown _ => .error (.unsupportedExpression "rule expression")
termination_by (plan.size, 1)
decreasing_by all_goals simp_all [Prod.lex_def, EvalExprPlan.size]; try omega

end

/-! ## Evaluating a rule -/

-- the loop over the columns of a projection
def projectColumns (ctx : EvalContext) (output : JsonMap) :
    List PlannedColumn → Except EvalError JsonMap
  | [] => .ok output
  | column :: columns => do
      let value ← evaluatePlanValue column.expr ctx
      projectColumns ctx (output.insert column.aliasName value) columns

-- a rule without WHERE clause accepts every message
def evaluatePredicate (wherePlan : Option EvalExprPlan) (ctx : EvalContext) :
    Except EvalError Bool :=
  match wherePlan with
  | some plan => evaluatePlanBool plan ctx
  | none => .ok true

def evaluateSelect (C : Crates) (selectPlan : SelectPlan) (ctx : EvalContext) :
    Except EvalError Message :=
  match selectPlan with
  | .all => .ok ctx.message
  | .columns columns => do
      let output ← projectColumns ctx [] columns
      match C.valueToVec (.object output) with
      | .ok newPayload => .ok (Message.new ctx.message.topic newPayload)
      | .error _ => .error .projectionSerialization

theorem evaluateSelect_columns (C : Crates) (columns : List PlannedColumn) (ctx : EvalContext) :
    evaluateSelect C (.columns columns) ctx = (projectColumns ctx [] columns).bind fun output ↦
      ((C.valueToVec (.object output)).mapError fun _ ↦ .projectionSerialization).map
        (Message.new ctx.message.topic) := by
  rw [evaluateSelect]
  cases projectColumns ctx [] columns with
  | error err => rfl
  | ok output =>
      dsimp only [bind, Except.bind]
      cases C.valueToVec (.object output) <;> rfl

def evaluateRuleWithPayloadAndTopicParts (C : Crates) (rule : CompiledRule) (message : Message)
    (payloadObj : MsgIr) (topicParts : List String) : Except EvalError (Option Message) := do
  let context : EvalContext :=
    { message := message, payload := payloadObj, topicParts := topicParts }
  let predicateResult ← evaluatePredicate rule.wherePlan context
  if predicateResult then (evaluateSelect C rule.selectPlan context).map some else .ok none

end Tenon.Core
