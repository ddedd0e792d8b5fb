import Tenon.Core.EngineMatching
import Tenon.Core.PredicateValue
import Tenon.Core.Projection

/-!
# TopicLevels — `topic_level` and the levels of a topic

A level is selected by the value of an expression, which must be a whole number.  The numbers `1` to
`k` select the `k` levels in order, so joining what they select gives the topic back; `0` selects the
first level as well, and every other value is an error.
-/

open Reasoning Reasoning.Binary64

namespace Tenon.Core

/-- The value is the whole number `n`, in any form of JSON numbers. -/
def JsonValue.IsWhole (v : JsonValue) (n : Nat) : Prop :=
  ∃ m, v = .number m ∧ m.numericValue = n * unit

/-! ## Whole numbers as unsigned integers -/

theorem isWhole_number_iff {m : Number} {n : Nat} :
    (JsonValue.number m).IsWhole n ↔ m.numericValue = n * unit := by
  constructor
  · intro h
    rcases h with ⟨m', hm, hvalue⟩
    cases hm
    exact hvalue
  · intro h
    exact ⟨m, rfl, h⟩

theorem natCast_mul_unit_inj {a b : Nat} : (a * unit : Int) = b * unit ↔ a = b := by
  rw [Int.mul_eq_mul_right_iff unit_ne_zero, Int.natCast_inj]

-- a float in range is truncated exactly, apart from `2^64`, which saturates
theorem toU64_of_scaled {x : F64} {n : Nat} (h : x.isFinite = true) (hn : n ≤ 2 ^ 64)
    (hvalue : x.scaled = n * unit) : x.toU64 = min n (2 ^ 64 - 1) := by
  obtain ⟨hfract, hlo, hhi⟩ := F64.u64Range_of_scaled h hn hvalue
  obtain ⟨m, hm, -, hcanon, hcast⟩ := F64.exists_toU64 hfract hlo hhi
  have hscaled : x.scaled = m * unit := by
    rw [← F64.scaled_canon, hcanon]
    simp [F64.scaled, F64.signed]
  rw [hcast, natCast_mul_unit_inj.mp (hscaled.symm.trans hvalue)]

theorem u64Range_iff {x : F64} (h : x.isFinite = true) :
    (x.lt F64.zero || !x.fractIsZero || (F64.ofNat (2 ^ 64 - 1)).lt x) = false ↔
      ∃ n : Nat, n ≤ 2 ^ 64 ∧ x.scaled = n * unit := by
  have hne : x ≠ .nan := by rintro rfl; cases h
  have hlow : x.lt F64.zero = !F64.zero.le x := F64.lt_eq_not_le hne (by simp [F64.zero])
  have hhigh : (F64.ofNat (2 ^ 64 - 1)).lt x = !x.le (F64.ofNat (2 ^ 64 - 1)) :=
    F64.lt_eq_not_le (by rw [F64.ofNat_u64Max]; simp) hne
  rw [hlow, hhigh]
  simp only [Bool.or_eq_false_iff, Bool.not_eq_false']
  constructor
  · intro hrange
    obtain ⟨⟨hlo, hfract⟩, hhi⟩ := hrange
    obtain ⟨n, hn, hle, hcanon, -⟩ := F64.exists_toU64 hfract hlo hhi
    refine ⟨n, hle, ?_⟩
    rw [← F64.scaled_canon, hcanon]
    simp [F64.scaled, F64.signed]
  · intro hwhole
    rcases hwhole with ⟨n, hn, hvalue⟩
    obtain ⟨hfract, hlo, hhi⟩ := F64.u64Range_of_scaled h hn hvalue
    exact ⟨⟨hlo, hfract⟩, hhi⟩

theorem valueToNonNegativeU64_float (x : F64) (h : x.isFinite = true) (context : String) (u : Nat) :
    valueToNonNegativeU64 (.number (.float x h)) context = .ok u ↔
      ∃ n : Nat, x.scaled = n * unit ∧ n ≤ 2 ^ 64 ∧ u = min n (2 ^ 64 - 1) := by
  simp only [valueToNonNegativeU64, JsonValue.asU64, Number.asU64, JsonValue.asF64, Number.asF64]
  have hrange := u64Range_iff h
  cases hout : (x.lt F64.zero || !x.fractIsZero || (F64.ofNat (2 ^ 64 - 1)).lt x) with
  | true =>
      rw [if_pos rfl]
      refine iff_of_false error_ne_ok fun hwhole ↦ ?_
      rcases hwhole with ⟨n, hvalue, hn, -⟩
      rw [hrange.mpr ⟨n, hn, hvalue⟩] at hout
      cases hout
  | false =>
      obtain ⟨n, hn, hvalue⟩ := hrange.mp hout
      rw [if_neg Bool.false_ne_true, toU64_of_scaled h hn hvalue]
      constructor
      · intro hu
        exact ⟨n, hvalue, hn, (Except.ok.inj hu).symm⟩
      · intro hwhole
        rcases hwhole with ⟨n', hvalue', -, hu⟩
        rw [hu, natCast_mul_unit_inj.mp (hvalue.symm.trans hvalue')]

-- rounding keeps a negative integer negative
theorem negInt_out_of_range (i : Int64) (h : i.toInt < 0) (context : String) (u : Nat) :
    valueToNonNegativeU64 (.number (.negInt i h)) context ≠ .ok u := by
  have hge : -2 ^ 63 ≤ i.toInt := i.le_toInt
  obtain ⟨hr, hof⟩ := F64.ofRatio_natCast true (show i.toInt.natAbs ≤ 2 ^ 64 by omega)
  have hpos : 2 ^ 0 ≤ i.toInt.natAbs * unit :=
    Nat.mul_pos (Int.natAbs_pos.mpr (Int.ne_of_lt h)) unit_pos
  have hround : 1 ≤ roundMag (i.toInt.natAbs * unit) 1 := F64.two_pow_le_roundMag hpos
  have hneg : (F64.ofInt i.toInt).lt F64.zero = true := by
    rw [F64.ofInt, decide_eq_true h, hof, F64.lt_iff_scaled rfl rfl]
    simp only [F64.scaled, F64.signed, F64.zero, if_true, Bool.false_eq_true, if_false]
    omega
  simp only [valueToNonNegativeU64, JsonValue.asU64, Number.asU64, JsonValue.asF64, Number.asF64,
    hneg, Bool.true_or, if_true]
  exact error_ne_ok

/-- The conversion accepts the whole numbers up to `2^64`, and saturates at `2^64` itself. -/
theorem valueToNonNegativeU64_eq_ok_iff (v : JsonValue) (context : String) (u : Nat) :
    valueToNonNegativeU64 v context = .ok u ↔
      ∃ n, v.IsWhole n ∧ n ≤ 2 ^ 64 ∧ u = min n (2 ^ 64 - 1) := by
  cases v with
  | number m =>
      simp only [isWhole_number_iff]
      cases m with
      | posInt k =>
          have hlt : k.toNat < 2 ^ 64 := k.toNat_lt
          simp only [valueToNonNegativeU64, JsonValue.asU64, Number.asU64, Number.numericValue,
            natCast_mul_unit_inj, Except.ok.injEq]
          constructor
          · intro hu
            exact ⟨k.toNat, rfl, hlt.le, by omega⟩
          · intro hwhole
            rcases hwhole with ⟨n, rfl, -, hu⟩
            omega
      | negInt i h =>
          refine iff_of_false (negInt_out_of_range i h context u) fun hwhole ↦ ?_
          rcases hwhole with ⟨n, hvalue, -⟩
          rw [Number.numericValue, Int.mul_eq_mul_right_iff unit_ne_zero] at hvalue
          omega
      | float x h => exact valueToNonNegativeU64_float x h context u
  | _ =>
      refine iff_of_false error_ne_ok fun hwhole ↦ ?_
      rcases hwhole with ⟨n, ⟨m, hm, -⟩, -⟩
      cases hm

/-! ## Selecting a level -/

-- zero stands for one
def levelIndex (n : Nat) : Nat := if n = 0 then 0 else n - 1

theorem length_levels_le (topic : String) : (levels topic).length ≤ topic.length + 1 := by
  unfold levels Segments.split
  rw [List.length_map, ← String.length_toList]
  exact Segments.length_splitOn_le '/' topic.toList

theorem length_levels_pos (topic : String) : 0 < (levels topic).length :=
  List.length_pos_of_ne_nil (Segments.split_ne_nil '/' topic)

theorem topicLevelOf_eq (v : JsonValue) (ctx : EvalContext) :
    topicLevelOf v ctx = (valueToNonNegativeU64 v "topic_level").bind fun u ↦
      ctx.topicParts[levelIndex u]?.elim (.error (.missingMetadata "topic level")) .ok := by
  rw [topicLevelOf]
  cases valueToNonNegativeU64 v "topic_level" with
  | error err => rfl
  | ok u =>
      dsimp only [bind, Except.bind, levelIndex]
      cases ctx.topicParts[if u = 0 then 0 else u - 1]? <;> rfl

theorem topicLevelOf_eq_ok_iff {ctx : EvalContext} (hparts : ctx.topicParts.length < 2 ^ 64 - 1)
    (v : JsonValue) (part : String) :
    topicLevelOf v ctx = .ok part ↔
      ∃ n, v.IsWhole n ∧ n ≤ ctx.topicParts.length ∧ ctx.topicParts[levelIndex n]? = some part := by
  have hlookup (u : Nat) : ctx.topicParts[levelIndex u]?.elim
      (.error (EvalError.missingMetadata "topic level")) Except.ok = .ok part ↔
        ctx.topicParts[levelIndex u]? = some part := by
    cases ctx.topicParts[levelIndex u]? with
    | none => exact iff_of_false error_ne_ok (Option.some_ne_none part).symm
    | some p => simp
  rw [topicLevelOf_eq, bind_eq_ok]
  constructor
  · intro h
    obtain ⟨u, hu, hpart⟩ := h
    obtain ⟨n, hwhole, hn, hmin⟩ := (valueToNonNegativeU64_eq_ok_iff v _ u).mp hu
    have hpart := (hlookup u).mp hpart
    obtain ⟨hbound, -⟩ := List.getElem?_eq_some_iff.mp hpart
    -- the saturated index lies beyond the last level
    have hsame : u = n := by
      unfold levelIndex at hbound
      split at hbound <;> omega
    subst hsame
    refine ⟨u, hwhole, ?_, hpart⟩
    unfold levelIndex at hbound
    split at hbound <;> omega
  · intro h
    obtain ⟨n, hwhole, hn, hpart⟩ := h
    have hu := (valueToNonNegativeU64_eq_ok_iff v "topic_level" n).mpr
      ⟨n, hwhole, by omega, by omega⟩
    exact ⟨n, hu, (hlookup n).mpr hpart⟩

/-- What `topic_level` answers for a level expression. -/
structure LevelLaws (level : EvalExprPlan) (ctx : EvalContext) : Prop where
  /-- Both evaluators answer the same text, or fail with the same error. -/
  agree : ∃ t : Except EvalError String,
    evaluatePlanRuntimeValue (.topicLevel level) ctx = t.map (fun s ↦ some (.string s)) ∧
      evaluatePlanValue (.topicLevel level) ctx = t.map .string
  ok_iff : ∀ w, evaluatePlanValue (.topicLevel level) ctx = .ok w ↔
    ∃ v n part, evaluatePlanValue level ctx = .ok v ∧ v.IsWhole n ∧
      n ≤ (levels ctx.message.topic).length ∧
      (levels ctx.message.topic)[levelIndex n]? = some part ∧ w = .string part
  /-- Zero and every number up to the number of levels select one. -/
  exists_level : ∀ v n, evaluatePlanValue level ctx = .ok v → v.IsWhole n →
    n ≤ (levels ctx.message.topic).length →
      ∃ part, evaluatePlanValue (.topicLevel level) ctx = .ok (.string part)

theorem levelLaws {ctx : EvalContext} (hparts : ctx.topicParts = levels ctx.message.topic)
    (hlen : ctx.message.topic.length < 2 ^ 63) (level : EvalExprPlan) : LevelLaws level ctx := by
  have hbound : ctx.topicParts.length < 2 ^ 64 - 1 := by
    have hle := length_levels_le ctx.message.topic
    rw [hparts]
    omega
  have hok (w : JsonValue) : evaluatePlanValue (.topicLevel level) ctx = .ok w ↔
      ∃ v n part, evaluatePlanValue level ctx = .ok v ∧ v.IsWhole n ∧
        n ≤ (levels ctx.message.topic).length ∧
        (levels ctx.message.topic)[levelIndex n]? = some part ∧ w = .string part := by
    rw [evaluatePlanValue, ← hparts]
    constructor
    · intro h
      obtain ⟨v, hv, h⟩ := bind_eq_ok.mp h
      obtain ⟨part, hpart, rfl⟩ := map_eq_ok.mp h
      obtain ⟨n, hwhole, hn, hget⟩ := (topicLevelOf_eq_ok_iff hbound v part).mp hpart
      exact ⟨v, n, part, hv, hwhole, hn, hget, rfl⟩
    · intro h
      obtain ⟨v, n, part, hv, hwhole, hn, hget, rfl⟩ := h
      have hpart := (topicLevelOf_eq_ok_iff hbound v part).mpr ⟨n, hwhole, hn, hget⟩
      exact bind_eq_ok.mpr ⟨v, hv, map_eq_ok.mpr ⟨part, hpart, rfl⟩⟩
  refine ⟨⟨(evaluatePlanValue level ctx).bind (topicLevelOf · ctx), ?_, ?_⟩, hok, ?_⟩
  · rw [evaluatePlanRuntimeValue]
    cases evaluatePlanValue level ctx <;> rfl
  · rw [evaluatePlanValue]
    cases evaluatePlanValue level ctx <;> rfl
  · intro v n hv hwhole hn
    have hpos := length_levels_pos ctx.message.topic
    have hindex : levelIndex n < (levels ctx.message.topic).length := by
      unfold levelIndex
      split <;> omega
    exact ⟨_, (hok _).mpr ⟨v, n, _, hv, hwhole, hn, List.getElem?_eq_getElem hindex, rfl⟩⟩

/-- The levels that the expressions `1` to `k` select, joined, are the topic. -/
theorem join_topicLevels {ctx : EvalContext} (hparts : ctx.topicParts = levels ctx.message.topic)
    (hlen : ctx.message.topic.length < 2 ^ 63) {plans : List EvalExprPlan}
    (hplans : plans.length = (levels ctx.message.topic).length)
    (hvalues : ∀ (i : Nat) (hi : i < plans.length), ∃ v,
      evaluatePlanValue plans[i] ctx = .ok v ∧ v.IsWhole (i + 1)) :
    ∃ parts : List String,
      plans.map (fun plan ↦ evaluatePlanValue (.topicLevel plan) ctx) =
          parts.map (fun part ↦ .ok (.string part)) ∧
        Segments.join '/' parts = ctx.message.topic := by
  refine ⟨levels ctx.message.topic, ?_, Segments.join_split '/' ctx.message.topic⟩
  apply List.ext_getElem (by simp [hplans])
  intro i hi hi'
  rw [List.length_map] at hi hi'
  obtain ⟨v, hv, hwhole⟩ := hvalues i hi
  rw [List.getElem_map, List.getElem_map]
  have hlevel : (levels ctx.message.topic)[levelIndex (i + 1)]? =
      some (levels ctx.message.topic)[i] := List.getElem?_eq_getElem hi'
  exact ((levelLaws hparts hlen plans[i]).ok_iff _).mpr
    ⟨v, i + 1, _, hv, hwhole, hi', hlevel, rfl⟩

/-! ## Rules that use topic levels -/

/-- `topic_level` is applied to the expression somewhere in the plan. -/
def EvalExprPlan.UsesLevel (plan level : EvalExprPlan) : Prop :=
  match plan with
  | .topicLevel l => l = level ∨ l.UsesLevel level
  | .binary left _ right => left.UsesLevel level ∨ right.UsesLevel level
  | .propertiesKey key => key.UsesLevel level
  | _ => False

def CompiledRule.UsesLevel (rule : CompiledRule) (level : EvalExprPlan) : Prop :=
  (∃ columns, rule.selectPlan = .columns columns ∧
      ∃ column ∈ columns, column.expr.UsesLevel level) ∨
    ∃ plan, rule.wherePlan = some plan ∧ plan.UsesLevel level

theorem planRequiresTopicParts_of_usesLevel {level plan : EvalExprPlan}
    (h : plan.UsesLevel level) : planRequiresTopicParts plan = true := by
  induction plan with
  | topicLevel l ih => rfl
  | binary left op right ihl ihr =>
      rw [planRequiresTopicParts, Bool.or_eq_true]
      exact h.imp ihl ihr
  | propertiesKey key ih => exact ih h
  | _ => exact absurd h id

theorem requiresTopicParts_of_usesLevel {rule : CompiledRule} {level : EvalExprPlan}
    (h : rule.UsesLevel level) : rule.requiresTopicParts = true := by
  rw [rule.hparts, Bool.or_eq_true]
  rcases h with ⟨columns, hselect, column, hmem, huses⟩ | ⟨plan, hwhere, huses⟩
  · left
    rw [hselect, selectPlanRequiresTopicParts, List.any_eq_true]
    exact ⟨column, hmem, planRequiresTopicParts_of_usesLevel huses⟩
  · right
    rw [hwhere]
    exact planRequiresTopicParts_of_usesLevel huses

-- one matched rule that needs the levels makes them available to all
theorem evaluateMatched_of_usesLevel (C : Crates) {rules : List (Option CompiledRule)}
    (message : Message) (ir : MsgIr) {matched : List Nat} {index : Nat} {rule : CompiledRule}
    {level : EvalExprPlan} (hmem : index ∈ matched) (hlive : liveRule rules index = some rule)
    (huses : rule.UsesLevel level) :
    evaluateMatchedRulesWithDecodedPayload C rules message ir matched =
      matched.filterMap (evaluateSingleRule C rules message ir (levels message.topic)) := by
  have hany : matchedRulesRequireTopicParts rules matched = true := by
    rw [matchedRulesRequireTopicParts, List.any_eq_true]
    refine ⟨index, hmem, ?_⟩
    rw [hlive]
    exact requiresTopicParts_of_usesLevel huses
  rw [evaluateMatchedRulesWithDecodedPayload, hany, if_pos rfl]

/-- A rule that uses `topic_level` is evaluated on all levels of the topic, where the numbers `0` to
`k` select a level and the numbers `1` to `k` all of them in order. -/
theorem topicLevel_laws (C : Crates) {rules : List (Option CompiledRule)} {message : Message}
    (ir : MsgIr) {matched : List Nat} {index : Nat} {rule : CompiledRule} {level : EvalExprPlan}
    (hmem : index ∈ matched) (hlive : liveRule rules index = some rule)
    (huses : rule.UsesLevel level)
    -- no text in memory is longer
    (hlen : message.topic.length < 2 ^ 63) :
    evaluateMatchedRulesWithDecodedPayload C rules message ir matched =
        matched.filterMap (evaluateSingleRule C rules message ir (levels message.topic)) ∧
      LevelLaws level ⟨message, ir, levels message.topic⟩ ∧
      ∀ plans : List EvalExprPlan, plans.length = (levels message.topic).length →
        (∀ (i : Nat) (hi : i < plans.length), ∃ v,
          evaluatePlanValue plans[i] ⟨message, ir, levels message.topic⟩ = .ok v ∧
            v.IsWhole (i + 1)) →
        ∃ parts : List String,
          plans.map (fun plan ↦
              evaluatePlanValue (.topicLevel plan) ⟨message, ir, levels message.topic⟩) =
            parts.map (fun part ↦ .ok (.string part)) ∧
          Segments.join '/' parts = message.topic :=
  ⟨evaluateMatched_of_usesLevel C message ir hmem hlive huses, levelLaws rfl hlen level,
    fun _ hplans hvalues ↦ join_topicLevels rfl hlen hplans hvalues⟩

-- `select topic_level(t, 0) as room`
def roomRule : CompiledRule where
  id := "1"
  topicFilter := "a/+"
  aliasedTopicFilter := "t"
  select := .columns []
  selectPlan := .columns [⟨.topicLevel (.const (.number (.posInt 0))), "room"⟩]
  whereExpr := none
  wherePlan := none
  destinations := []
  payloadBinding := .json
  requiredPayloadFields := []
  requiresTopicParts := true
  hfields := rfl
  hparts := rfl
  hknown := rfl

theorem topicLevel_laws_room :
    LevelLaws (.const (.number (.posInt 0))) ⟨Message.new "a/b" [], MsgIr.new, levels "a/b"⟩ :=
  (@topicLevel_laws demoCrates [some roomRule] (Message.new "a/b" []) MsgIr.new [0] 0 roomRule
    (.const (.number (.posInt 0)))
    List.mem_cons_self rfl (Or.inl ⟨_, rfl, _, List.mem_cons_self, Or.inl rfl⟩) (by decide)).2.1

/-- Level zero is the first level. -/
theorem topicLevel_zero_succeeds :
    ¬ ((∃ w, evaluatePlanValue (.topicLevel (.const (.number (.posInt 0))))
          ⟨Message.new "a/b" [], MsgIr.new, levels "a/b"⟩ = .ok w) ↔
        ∃ n, (JsonValue.number (.posInt 0)).IsWhole n ∧ 1 ≤ n ∧ n ≤ (levels "a/b").length) := by
  intro h
  have hfirst : evaluatePlanValue (.topicLevel (.const (.number (.posInt 0))))
      ⟨Message.new "a/b" [], MsgIr.new, levels "a/b"⟩ = .ok (.string "a") := by
    have hlevel : topicLevelOf (.number (.posInt 0))
        ⟨Message.new "a/b" [], MsgIr.new, levels "a/b"⟩ = .ok "a" := rfl
    rw [evaluatePlanValue, evaluatePlanValue]
    exact congrArg (Except.map JsonValue.string) hlevel
  obtain ⟨n, hwhole, hn, -⟩ := h.mp ⟨_, hfirst⟩
  have hzero : (0 * unit : Int) = n * unit := isWhole_number_iff.mp hwhole
  rw [Int.mul_eq_mul_right_iff unit_ne_zero] at hzero
  omega

end Tenon.Core
