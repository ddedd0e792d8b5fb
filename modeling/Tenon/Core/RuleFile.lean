import Tenon.Core.EngineMatching

/-!
# RuleFile — loading the rules of a file

A load adds the definitions of the file one after the other and stops at the first that is refused.
What it added before stays in the engine.
-/

namespace Tenon.Core

/-- The engine with the compiled rules appended, in order. -/
def RuleEngine.pushRules (engine : RuleEngine) (compiled : List CompiledRule) : RuleEngine :=
  compiled.foldl RuleEngine.pushRule engine

theorem rules_pushRules (engine : RuleEngine) (compiled : List CompiledRule) :
    (engine.pushRules compiled).rules = engine.rules ++ compiled.map some := by
  induction compiled generalizing engine with
  | nil => simp [RuleEngine.pushRules]
  | cons first rest ih =>
      change ((engine.pushRule first).pushRules rest).rules = _
      rw [ih, RuleEngine.pushRule, List.append_assoc]
      rfl

-- what an engine takes does not depend on the rules it has
theorem accepts_pushRule {C : Crates} {engine : RuleEngine} {first : CompiledRule}
    {rule : RuleDefinition} {compiled : CompiledRule} :
    Accepts C (engine.pushRule first) rule compiled ↔ Accepts C engine rule compiled := by
  have hschema : (engine.pushRule first).payloadRuntime.requiresSchema =
      engine.payloadRuntime.requiresSchema := by
    cases h : engine.payloadRuntime <;> simp [RuleEngine.pushRule, h, PayloadRuntime.clearCache,
      PayloadRuntime.requiresSchema]
  rw [Accepts, hschema]
  rfl

/-- How the loop over the definitions ends. -/
inductive AddRules (C : Crates) (engine : RuleEngine) (count : Nat) (defs : List RuleDefinition) :
    RuleEngine × Except RuleError Nat → Prop where
  | all (compiled : List CompiledRule) (h : List.Forall₂ (Accepts C engine) defs compiled) :
      AddRules C engine count defs (engine.pushRules compiled, .ok (count + defs.length))
  | stopped (before after : List RuleDefinition) (rule : RuleDefinition)
      (compiled : List CompiledRule) (err : RuleError) (hdefs : defs = before ++ rule :: after)
      (h : List.Forall₂ (Accepts C engine) before compiled)
      (hrefused : ∀ c, ¬ Accepts C engine rule c) :
      AddRules C engine count defs (engine.pushRules compiled, .error err)

theorem addRules_cases (C : Crates) (engine : RuleEngine) (count : Nat)
    (defs : List RuleDefinition) : AddRules C engine count defs (engine.addRules C count defs) := by
  induction defs generalizing engine count with
  | nil => exact .all [] .nil
  | cons rule rest ih =>
      rw [RuleEngine.addRules]
      rcases addRule_cases C engine rule with ⟨err, hadd, hrefused⟩ | ⟨first, haccepts, hadd⟩
      · rw [hadd]
        exact .stopped [] rest rule [] err rfl .nil hrefused
      · rw [hadd]
        dsimp only
        generalize hresult : (engine.pushRule first).addRules C (count + 1) rest = result
        have hrest := ih (engine.pushRule first) (count + 1)
        rw [hresult] at hrest
        have hmono {before : List RuleDefinition} {compiled : List CompiledRule}
            (h : List.Forall₂ (Accepts C (engine.pushRule first)) before compiled) :
            List.Forall₂ (Accepts C engine) before compiled :=
          h.imp fun _ _ ↦ accepts_pushRule.mp
        cases hrest with
        | all compiled h =>
            have hcount : count + 1 + rest.length = count + (rule :: rest).length := by
              rw [List.length_cons]
              omega
            rw [hcount]
            exact .all (first :: compiled) (.cons haccepts (hmono h))
        | stopped before after refused compiled err hdefs h hrefused =>
            exact .stopped (rule :: before) after refused (first :: compiled) err
              (by rw [hdefs]; rfl) (.cons haccepts (hmono h))
              fun c hc ↦ hrefused c (accepts_pushRule.mpr hc)

/-- A load that fails leaves the engine as it was, and one that succeeds appends the rules of the file,
in file order, and does nothing else. -/
structure LoadAtomic (C : Crates) (engine : RuleEngine) (bytes : List UInt8) : Prop where
  error : ∀ err, (engine.loadRulesFromJsonBytes C bytes).2 = .error err →
    (engine.loadRulesFromJsonBytes C bytes).1 = engine
  ok : ∀ n, (engine.loadRulesFromJsonBytes C bytes).2 = .ok n →
    ∃ defs compiled, C.ruleFileFromSlice bytes = .ok defs ∧ defs.length = n ∧
      List.Forall₂ (fun rule c ↦ compileRule C rule = .ok c) defs compiled ∧
      (engine.loadRulesFromJsonBytes C bytes).1 = engine.pushRules compiled ∧
      (engine.loadRulesFromJsonBytes C bytes).1.rules = engine.rules ++ compiled.map some

section Load

variable {C : Crates} {engine : RuleEngine} {bytes : List UInt8}

theorem loadRules_unparsed {err : String} (h : C.ruleFileFromSlice bytes = .error err) :
    engine.loadRulesFromJsonBytes C bytes = (engine, .error (.sqlParse err)) := by
  rw [RuleEngine.loadRulesFromJsonBytes, h]

theorem loadRules_parsed {defs : List RuleDefinition} (h : C.ruleFileFromSlice bytes = .ok defs) :
    engine.loadRulesFromJsonBytes C bytes = engine.addRules C 0 defs := by
  rw [RuleEngine.loadRulesFromJsonBytes, h]

-- a load that succeeds appends everything, whatever the file
theorem loadRules_ok {n : Nat} (h : (engine.loadRulesFromJsonBytes C bytes).2 = .ok n) :
    ∃ defs compiled, C.ruleFileFromSlice bytes = .ok defs ∧ defs.length = n ∧
      List.Forall₂ (fun rule c ↦ compileRule C rule = .ok c) defs compiled ∧
      (engine.loadRulesFromJsonBytes C bytes).1 = engine.pushRules compiled ∧
      (engine.loadRulesFromJsonBytes C bytes).1.rules = engine.rules ++ compiled.map some := by
  cases hfile : C.ruleFileFromSlice bytes with
  | error err =>
      rw [loadRules_unparsed hfile] at h
      cases h
  | ok defs =>
      rw [loadRules_parsed hfile] at h ⊢
      have hcases := addRules_cases C engine 0 defs
      generalize engine.addRules C 0 defs = result at h hcases
      cases hcases with
      | all compiled hall =>
          cases h
          exact ⟨defs, compiled, rfl, (Nat.zero_add _).symm, hall.imp fun _ _ h ↦ h.2, rfl,
            rules_pushRules engine compiled⟩
      | stopped before after rule compiled err hdefs hbefore hrefused => cases h

/-- A load is atomic exactly when every definition of the file is accepted or the very first one is
refused. -/
theorem loadAtomic_iff (C : Crates) (engine : RuleEngine) (bytes : List UInt8) :
    LoadAtomic C engine bytes ↔ ∀ defs, C.ruleFileFromSlice bytes = .ok defs →
      (∀ rule ∈ defs, ∃ c, Accepts C engine rule c) ∨
        ∀ rule, defs.head? = some rule → ∀ c, ¬ Accepts C engine rule c := by
  constructor
  · intro hatomic defs hfile
    have herror := hatomic.error
    rw [loadRules_parsed hfile] at herror
    have hcases := addRules_cases C engine 0 defs
    generalize engine.addRules C 0 defs = result at herror hcases
    cases hcases with
    | all compiled hall =>
        apply Or.inl
        intro rule hrule
        obtain ⟨i, hi, rfl⟩ := List.getElem_of_mem hrule
        exact ⟨_, hall.get hi (hall.length_eq ▸ hi)⟩
    | stopped before after rule compiled err hdefs hbefore hrefused =>
        -- the rules added before the refused one would have to be none
        have hrules := congrArg RuleEngine.rules (herror err rfl)
        rw [rules_pushRules] at hrules
        have hnone : compiled = [] := by simpa using hrules
        subst hnone
        cases hbefore
        apply Or.inr
        intro first hfirst
        rw [hdefs] at hfirst
        cases hfirst
        exact hrefused
  · intro h
    apply LoadAtomic.mk
    · intro err herr
      cases hfile : C.ruleFileFromSlice bytes with
      | error text => rw [loadRules_unparsed hfile]
      | ok defs =>
          rw [loadRules_parsed hfile] at herr ⊢
          have hcases := addRules_cases C engine 0 defs
          generalize engine.addRules C 0 defs = result at herr hcases
          cases hcases with
          | all compiled hall => cases herr
          | stopped before after rule compiled err' hdefs hbefore hrefused =>
              rcases h defs hfile with hall | hfirst
              · have hmem : rule ∈ defs := by rw [hdefs]; simp
                obtain ⟨c, hc⟩ := hall rule hmem
                exact absurd hc (hrefused c)
              · -- nothing comes before the first definition
                cases hbefore with
                | nil => rfl
                | cons haccepts _ =>
                    rw [hdefs] at hfirst
                    exact absurd haccepts (hfirst _ rfl _)
    · exact fun n hn ↦ loadRules_ok hn

end Load

-- reads every file as a rule for `t` and one that names a schema
def twoRuleCrates : Crates :=
  { demoCrates with
    ruleFileFromSlice := fun _ ↦ .ok [⟨selectAll "t", [], none⟩, ⟨selectAll "u", [], some "Reading"⟩] }

/-- The second definition is refused by a JSON engine, and the rule of the first one stays. -/
theorem not_loadAtomic_secondRefused :
    (engineSystem twoRuleCrates .json 1).Reachable (RuleEngine.newWithCacheCapacity .json 1) ∧
      ¬ LoadAtomic twoRuleCrates (RuleEngine.newWithCacheCapacity .json 1) [] := by
  apply And.intro (engineSystem twoRuleCrates .json 1).reachable_init
  intro hatomic
  have hkept : ((RuleEngine.newWithCacheCapacity .json 1).loadRulesFromJsonBytes twoRuleCrates
      []).1.rules.length = 1 := by decide
  rw [hatomic.error .unexpectedSchemaName rfl] at hkept
  exact absurd hkept (by decide)

end Tenon.Core
