import Tenon.Core.RuleOutcome
import Tenon.Reasoning.Formula

/-!
# Conditions — WHERE clauses as formulas over their conditions

AND and OR evaluate both sides, also when constants are folded.  So a WHERE clause is decided as the
formula over its conditions, each of which can end in an error, and a clause rewritten without new
conditions accepts what it accepted before: in any order, nesting or repetition of the conditions, and by
every law of Boolean algebra.
-/

open Reasoning Reasoning.Transition

namespace Tenon.Core

/-- The conditions of a clause, as AND and OR combine them. -/
def conditions : Expr → Formula Expr
  | .nested inner => conditions inner
  | .binaryOp left .and right => .and (conditions left) (conditions right)
  | .binaryOp left .or right => .or (conditions left) (conditions right)
  | expr => .atom expr

section Plans

variable (nameToString : ObjectName → String) (ctx : EvalContext)

-- folding happens only where both sides are truth values
theorem evaluatePlanBool_foldLogical {op : BinaryOperator} {combine : Bool → Bool → Bool}
    (hop : (op = .and ∧ combine = and) ∨ (op = .or ∧ combine = or)) (left right : EvalExprPlan) :
    evaluatePlanBool (foldBinaryPlan left op right) ctx = do
      let l ← evaluatePlanBool left ctx
      let r ← evaluatePlanBool right ctx
      return combine l r := by
  unfold foldBinaryPlan
  split
  · rename_i v hfold
    cases left with
    | const a =>
        cases right with
        | const b =>
            have hbool (b : Bool) : evaluatePlanBool (.const (.bool b)) ctx = .ok b :=
              evaluatePlanBool_const (.bool b) ctx
            rcases fold_cases hfold with ⟨harith, -⟩ | ⟨hcomp, -⟩ | ⟨l, r, rfl, rfl, hfolded⟩
            · rcases hop with ⟨rfl, -⟩ | ⟨rfl, -⟩ <;> cases harith
            · rcases hop with ⟨rfl, -⟩ | ⟨rfl, -⟩ <;> cases hcomp
            · rw [hbool, hbool]
              rcases hop with ⟨rfl, rfl⟩ | ⟨rfl, rfl⟩
              · rcases hfolded with ⟨-, rfl⟩ | ⟨hop, -⟩
                · exact hbool (l && r)
                · cases hop
              · rcases hfolded with ⟨hop, -⟩ | ⟨-, rfl⟩
                · cases hop
                · exact hbool (l || r)
        | _ => cases hfold
    | _ => cases hfold
  · rcases hop with ⟨rfl, rfl⟩ | ⟨rfl, rfl⟩
    · rw [evaluatePlanBool, if_pos (show BinaryOperator.and.isLogical = true from rfl)]
      rfl
    · rw [evaluatePlanBool, if_pos (show BinaryOperator.or.isLogical = true from rfl)]
      rfl

/-- A compiled clause is decided as its conditions are, one by one. -/
theorem evaluatePlanBool_conditions (expr : Expr) :
    evaluatePlanBool (compileExprPlan nameToString expr) ctx =
      (conditions expr).decideWith fun condition ↦
        evaluatePlanBool (compileExprPlan nameToString condition) ctx := by
  induction expr using conditions.induct with
  | case1 inner ih => exact ih
  | case2 left right ihl ihr =>
      have hplan : compileExprPlan nameToString (.binaryOp left .and right) =
          foldBinaryPlan (compileExprPlan nameToString left) .and (compileExprPlan nameToString right) :=
        rfl
      rw [hplan, evaluatePlanBool_foldLogical ctx (Or.inl ⟨rfl, rfl⟩), ihl, ihr]
      rfl
  | case3 left right ihl ihr =>
      have hplan : compileExprPlan nameToString (.binaryOp left .or right) =
          foldBinaryPlan (compileExprPlan nameToString left) .or (compileExprPlan nameToString right) :=
        rfl
      rw [hplan, evaluatePlanBool_foldLogical ctx (Or.inr ⟨rfl, rfl⟩), ihl, ihr]
      rfl
  | case4 expr hnested hand hor =>
      have hatom : conditions expr = .atom expr := by
        rw [conditions] <;> assumption
      rw [hatom]
      rfl

end Plans

/-! ## Rewritten rules -/

/-- The second rule is the first with another WHERE clause, of the same truth values and without new
conditions; its id and its destinations are its own. -/
structure CompiledRule.Simplifies (rule simpler : CompiledRule) : Prop where
  topicFilter : simpler.topicFilter = rule.topicFilter
  payloadBinding : simpler.payloadBinding = rule.payloadBinding
  select : simpler.select = rule.select
  whereExpr : ∃ expr expr', rule.whereExpr = some expr ∧ simpler.whereExpr = some expr' ∧
    (conditions expr).Simplifies (conditions expr')

section Rules

variable {C : Crates} {engine : RuleEngine}

/-- The plans of a rule are compiled from its query. -/
structure Planned (C : Crates) (rule : CompiledRule) : Prop where
  select : rule.selectPlan = compileSelectPlan C rule.select
  predicate : rule.wherePlan = rule.whereExpr.map (compileExprPlan C.nameToString)

theorem planned_of_compile {definition : RuleDefinition} {rule : CompiledRule}
    (h : compileRule C definition = .ok rule) : Planned C rule := by
  obtain ⟨statements, -, hrest⟩ := bind_eq_ok.mp h
  split at hrest
  · obtain ⟨⟨filter, aliased, select, whereExpr⟩, -, hcompiled⟩ := bind_eq_ok.mp hrest
    dsimp only [compileParsed] at hcompiled
    split at hcompiled
    · cases hcompiled
      exact ⟨rfl, rfl⟩
    · cases hcompiled
  · cases hrest

theorem planned {decoder : PayloadDecoder} {capacity : Nat}
    (h : (engineSystem C decoder capacity).Reachable engine) :
    ∀ i rule, liveRule engine.rules i = some rule → Planned C rule := by
  have hnew : ∀ i rule, liveRule (RuleEngine.newWithCacheCapacity decoder capacity).rules i = some rule →
      Planned C rule := nofun
  apply engine_invariant hnew _ _ _ h
  · intro engine definition compiled hall haccepts i rule hrule
    rw [liveRule_pushRule] at hrule
    split at hrule
    · cases hrule
      exact planned_of_compile haccepts.2
    · exact hall i rule hrule
  · exact fun engine ruleId index hall _ i rule hrule ↦ hall i rule (live_of_live_dropSlot hrule).2
  · intro engine order message hall
    rw [RuleEngine.evaluate_rules]
    exact hall

/-- A clause without new conditions is decided as the old one is, wherever that is decided. -/
theorem evaluatePlanBool_simplifies {expr expr' : Expr}
    (h : (conditions expr).Simplifies (conditions expr')) {ctx : EvalContext} {b : Bool}
    (hdecided : evaluatePlanBool (compileExprPlan C.nameToString expr) ctx = .ok b) :
    evaluatePlanBool (compileExprPlan C.nameToString expr') ctx = .ok b := by
  rw [evaluatePlanBool_conditions] at hdecided ⊢
  exact h.decideWith hdecided

/-- What the rule accepts, the simpler one accepts with the same result. -/
theorem CompiledRule.Simplifies.evaluate {rule simpler : CompiledRule} (h : rule.Simplifies simpler)
    (hrule : Planned C rule) (hsimpler : Planned C simpler) {message output : Message} {ir : MsgIr}
    {parts : List String}
    (houtput : evaluateRuleWithPayloadAndTopicParts C rule message ir parts = .ok (some output)) :
    evaluateRuleWithPayloadAndTopicParts C simpler message ir parts = .ok (some output) := by
  obtain ⟨expr, expr', hexpr, hexpr', hconditions⟩ := h.whereExpr
  have hselect : simpler.selectPlan = rule.selectPlan := by
    rw [hsimpler.select, hrule.select, h.select]
  obtain ⟨accepted, haccepted, hselected⟩ := bind_eq_ok.mp houtput
  have hpredicate : evaluatePredicate simpler.wherePlan ⟨message, ir, parts⟩ = .ok accepted := by
    rw [hsimpler.predicate, hexpr']
    rw [hrule.predicate, hexpr] at haccepted
    exact evaluatePlanBool_simplifies hconditions haccepted
  rw [← hselect] at hselected
  exact bind_eq_ok.mpr ⟨accepted, hpredicate, hselected⟩

/-- An output on the payload of the group is a result. -/
theorem mem_results_of_output {decoder : PayloadDecoder} {capacity : Nat}
    (h : (engineSystem C decoder capacity).Reachable engine) (order : HashOrder)
    {message output : Message} {i : Nat} {rule : CompiledRule} {ir : MsgIr}
    (hrule : liveRule engine.rules i = some rule)
    (hmatch : matchTopic rule.topicFilter message.topic = true)
    (hpayload : groupPayload C decoder engine.rules message (payloadSchema decoder rule) = .ok ir)
    (houtput : evaluateRuleWithPayloadAndTopicParts C rule message ir (levels message.topic) =
      .ok (some output)) : ⟨i, output⟩ ∈ (engine.evaluate C order message).2.results := by
  have hsome : (groupPayload C decoder engine.rules message
      (slotSchema decoder engine.rules i)).toOption = some ir := by
    rw [slotSchema_eq hrule, hpayload]
    rfl
  have hattempt : slotAttempt C decoder engine.rules message i = some ⟨i, some ⟨i, output⟩, none⟩ := by
    rw [slotAttempt, hsome, Option.bind_some, evaluateSingleRule, hrule, Option.map_some, houtput]
  have hmatched : i ∈ matchedSlots engine.rules message := mem_matchedSlots.mpr ⟨rule, hrule, hmatch⟩
  obtain ⟨hattempts, -⟩ := (wellFormed h).outcome (C := C) (cachedOnce h) order message
  have hmem := hattempts.mem_iff.mpr (List.mem_filterMap.mpr ⟨i, hmatched, hattempt⟩)
  exact List.mem_filterMap.mpr ⟨_, hmem, rfl⟩

end Rules

/-! ## The main result -/

/-- A rule whose WHERE clause rewrites that of another one without new conditions has, on every message,
each result that the other one has. -/
theorem simplified_rule_results {C : Crates} {decoder : PayloadDecoder} {capacity : Nat}
    {engine : RuleEngine} (h : (engineSystem C decoder capacity).Reachable engine) {i j : Nat}
    {rule simpler : CompiledRule} (hrule : liveRule engine.rules i = some rule)
    (hsimpler : liveRule engine.rules j = some simpler) (hsimplifies : rule.Simplifies simpler)
    (order : HashOrder) (message : Message) {output : Message}
    (hresult : ⟨i, output⟩ ∈ (engine.evaluate C order message).2.results) :
    ⟨j, output⟩ ∈ (engine.evaluate C order message).2.results := by
  obtain ⟨hattempts, -⟩ := (wellFormed h).outcome (C := C) (cachedOnce h) order message
  obtain ⟨attempt, hmem, hevaluation⟩ := List.mem_filterMap.mp hresult
  obtain ⟨k, hk, hattempt⟩ := List.mem_filterMap.mp (hattempts.mem_iff.mp hmem)
  obtain ⟨-, rule', ir, hrule', hpayload, -, hresults⟩ := exists_of_slotAttempt hattempt
  obtain ⟨hindex, houtput⟩ := hresults _ hevaluation
  obtain rfl : i = k := hindex
  obtain rfl : rule' = rule := Option.some.inj (hrule'.symm.trans hrule)
  rw [slotSchema_eq hrule] at hpayload
  obtain ⟨live, hlive, hmatch⟩ := mem_matchedSlots.mp hk
  obtain rfl : live = rule' := Option.some.inj (hlive.symm.trans hrule)
  -- the same messages match, and their payload is decoded for both rules together
  have hschema : payloadSchema decoder simpler = payloadSchema decoder live := by
    unfold payloadSchema
    rw [hsimplifies.payloadBinding]
  apply mem_results_of_output h order hsimpler
  · rw [hsimplifies.topicFilter]
    exact hmatch
  · rw [hschema]
    exact hpayload
  · exact hsimplifies.evaluate (planned h i live hrule) (planned h j simpler hsimpler) houtput

def retain : Expr := .identifier ⟨"retain", none⟩

-- `retain or (retain and dup)`
def retainOrBoth : Expr :=
  .binaryOp retain .or (.nested (.binaryOp retain .and (.identifier ⟨"dup", none⟩)))

def whereQuery (condition : Expr) : Query :=
  { demoQuery [.wildcard none] "t" with
    body := .select
      { distinct := none
        top := none
        projection := [.wildcard none]
        fromTables := [{ relation := .table [⟨"t", some '"'⟩] none [], joins := [] }]
        selection := some condition
        groupBy := .expressions []
        having := none
        others := [] } }

-- parses the two texts of `retainEngine`
def retainCrates : Crates :=
  { demoCrates with
    parseSql := fun sql ↦
      .ok [.query (whereQuery (if sql.toList.getLast? = some ')' then retainOrBoth else retain))] }

def retainEngine : RuleEngine :=
  (((RuleEngine.newWithCacheCapacity .json 1).addRule retainCrates
      ⟨selectAll "t" ++ " where retain or (retain and dup)", [], none⟩).1.addRule retainCrates
    ⟨selectAll "t" ++ " where retain", [], none⟩).1

theorem evaluatePlanBool_retainOrBoth {ctx : EvalContext} (hretain : ctx.message.retain = true) :
    evaluatePlanBool (compileExprPlan retainCrates.nameToString retainOrBoth) ctx = .ok true := by
  have hflags : evaluatePlanBool .metaRetain ctx = .ok true ∧
      evaluatePlanBool .metaDup ctx = .ok ctx.message.dup := by
    constructor
    · rw [evaluatePlanBool, evaluatePlanValue, hretain]
      rfl
    · rw [evaluatePlanBool, evaluatePlanValue]
      rfl
  rw [evaluatePlanBool_conditions]
  apply Formula.decideWith_eq_ok_iff.mpr
  constructor
  · intro condition hcondition
    rcases List.mem_cons.mp hcondition with rfl | hcondition
    · exact ⟨true, hflags.1⟩
    · rcases List.mem_cons.mp hcondition with rfl | hcondition
      · exact ⟨true, hflags.1⟩
      · rw [List.mem_singleton.mp hcondition]
        exact ⟨_, hflags.2⟩
  · have hdecided : Formula.decision (fun condition ↦
        evaluatePlanBool (compileExprPlan retainCrates.nameToString condition) ctx) retain = true :=
      Formula.decision_of_ok hflags.1
    show (Formula.decision _ retain || _) = true
    rw [hdecided, Bool.true_or]

theorem simplified_rule_results_demo :
    ⟨1, { Message.new "t" [] with retain := true }⟩ ∈ (retainEngine.evaluate retainCrates .increasing
      { Message.new "t" [] with retain := true }).2.results := by
  have hreach : (engineSystem retainCrates .json 1).Reachable retainEngine :=
    ((engineSystem retainCrates .json 1).reachable_init.step (a := .addRule _) rfl).step
      (a := .addRule _) rfl
  have hlive (i : Nat) (hi : i < 2) : (liveRule retainEngine.rules i).isSome = true := by
    revert i
    decide
  obtain ⟨rule, hrule⟩ := Option.isSome_iff_exists.mp (hlive 0 (by omega))
  obtain ⟨simpler, hsimpler⟩ := Option.isSome_iff_exists.mp (hlive 1 (by omega))
  have hsimplifies : rule.Simplifies simpler := by
    cases hrule
    cases hsimpler
    refine ⟨rfl, rfl, rfl, retainOrBoth, retain, rfl, rfl, ?_, ?_⟩
    · intro condition hcondition
      rw [List.mem_singleton.mp hcondition]
      exact List.mem_cons_self
    · intro v
      show v retain = (v retain || (v retain && _))
      cases v retain <;> rfl
  have hresult : ⟨0, { Message.new "t" [] with retain := true }⟩ ∈ (retainEngine.evaluate retainCrates
      .increasing { Message.new "t" [] with retain := true }).2.results := by
    apply mem_results_of_output hreach .increasing hrule
    · cases hrule
      decide
    · cases hrule
      rfl
    · cases hrule
      exact bind_eq_ok.mpr ⟨true, evaluatePlanBool_retainOrBoth rfl, rfl⟩
  exact simplified_rule_results hreach hrule hsimpler hsimplifies .increasing _ hresult

end Tenon.Core
