import Tenon.Core.EngineOutcome

/-!
# EngineIds — rule ids and live slots

Every entry of the id map points to a live slot with that id, in every reachable engine.  A live slot
is the one its id points to unless a rule with the same id was added while it was live; the older
slot is then out of reach for good.
-/

open Reasoning.Transition

namespace Tenon.Core

-- every entry of the id map points to a live slot with that id
def EntriesLive (engine : RuleEngine) : Prop :=
  ∀ ruleId index, engine.ruleIndexById.lookup ruleId = some index →
    ∃ rule, liveRule engine.rules index = some rule ∧ rule.id = ruleId

/-- Live slots and entries of the id map correspond. -/
structure IdsBijective (engine : RuleEngine) : Prop where
  slots : ∀ i rule, liveRule engine.rules i = some rule →
    engine.ruleIndexById.lookup rule.id = some i
  entries : EntriesLive engine

/-- A live slot that its id does not point to. -/
def Orphaned (engine : RuleEngine) : Prop :=
  ∃ i rule, liveRule engine.rules i = some rule ∧ engine.ruleIndexById.lookup rule.id ≠ some i

-- no live rule has the id
def Absent (ruleId : String) (engine : RuleEngine) : Prop :=
  ∀ i rule, liveRule engine.rules i = some rule → rule.id ≠ ruleId

theorem idsBijective_iff {engine : RuleEngine} (h : EntriesLive engine) :
    IdsBijective engine ↔ ¬ Orphaned engine := by
  constructor
  · intro hbij horphan
    rcases horphan with ⟨i, rule, hrule, hne⟩
    exact hne (hbij.slots i rule hrule)
  · intro hnot
    have hslots : ∀ i rule, liveRule engine.rules i = some rule →
        engine.ruleIndexById.lookup rule.id = some i := by
      intro i rule hrule
      by_contra hne
      exact hnot ⟨i, rule, hrule, hne⟩
    exact ⟨hslots, h⟩

section Updates

variable {engine : RuleEngine} {compiled : CompiledRule}

theorem lookup_pushRule (engine : RuleEngine) (compiled : CompiledRule) (ruleId : String) :
    (engine.pushRule compiled).ruleIndexById.lookup ruleId =
      if ruleId = compiled.id then some engine.rules.length
      else engine.ruleIndexById.lookup ruleId := by
  change (engine.ruleIndexById.insert compiled.id engine.rules.length).lookup ruleId = _
  by_cases h : ruleId = compiled.id
  · rw [if_pos h, h, AList.lookup_insert]
  · rw [if_neg h, AList.lookup_insert_ne h]

theorem lookup_dropSlot (engine : RuleEngine) (ruleId : String) (index : Nat) (other : String) :
    (engine.dropSlot ruleId index).ruleIndexById.lookup other =
      if other = ruleId then none else engine.ruleIndexById.lookup other := by
  change (engine.ruleIndexById.erase ruleId).lookup other = _
  by_cases h : other = ruleId
  · rw [if_pos h, h, AList.lookup_erase]
  · rw [if_neg h, AList.lookup_erase_ne h]

theorem EntriesLive.pushRule (h : EntriesLive engine) (compiled : CompiledRule) :
    EntriesLive (engine.pushRule compiled) := by
  intro ruleId index hlookup
  rw [lookup_pushRule] at hlookup
  rw [liveRule_pushRule]
  split at hlookup
  · rename_i hid
    cases hlookup
    exact ⟨compiled, if_pos rfl, hid.symm⟩
  · rcases h ruleId index hlookup with ⟨rule, hrule, hid⟩
    exact ⟨rule, by rwa [if_neg (Nat.ne_of_lt (lt_of_liveRule hrule))], hid⟩

theorem EntriesLive.dropSlot (h : EntriesLive engine) {ruleId : String} {index : Nat}
    (hindex : engine.ruleIndexById.lookup ruleId = some index) :
    EntriesLive (engine.dropSlot ruleId index) := by
  intro other i hlookup
  rw [lookup_dropSlot] at hlookup
  rw [liveRule_dropSlot]
  split at hlookup
  · cases hlookup
  · rename_i hne
    rcases h other i hlookup with ⟨rule, hrule, hid⟩
    -- the emptied slot has the removed id, this one another
    have hi : i ≠ index := by
      intro heq
      subst heq
      rcases h ruleId i hindex with ⟨removed, hremoved, hremovedId⟩
      cases hrule.symm.trans hremoved
      exact hne (hid.symm.trans hremovedId)
    rw [if_neg hi]
    exact ⟨rule, hrule, hid⟩

theorem Orphaned.pushRule (h : Orphaned engine) (compiled : CompiledRule) :
    Orphaned (engine.pushRule compiled) := by
  rcases h with ⟨i, rule, hrule, hne⟩
  have hlt := lt_of_liveRule hrule
  have hrule' : liveRule (engine.pushRule compiled).rules i = some rule := by
    rw [liveRule_pushRule, if_neg (Nat.ne_of_lt hlt), hrule]
  have hne' : (engine.pushRule compiled).ruleIndexById.lookup rule.id ≠ some i := by
    rw [lookup_pushRule]
    split
    · intro heq
      have hlast := Option.some.inj heq
      omega
    · exact hne
  exact ⟨i, rule, hrule', hne'⟩

theorem Orphaned.dropSlot (hlive : EntriesLive engine) (h : Orphaned engine) {ruleId : String}
    {index : Nat} (hindex : engine.ruleIndexById.lookup ruleId = some index) :
    Orphaned (engine.dropSlot ruleId index) := by
  rcases h with ⟨i, rule, hrule, hne⟩
  have hi : i ≠ index := by
    intro heq
    subst heq
    rcases hlive ruleId i hindex with ⟨removed, hremoved, hid⟩
    cases hrule.symm.trans hremoved
    exact hne (hid ▸ hindex)
  have hrule' : liveRule (engine.dropSlot ruleId index).rules i = some rule := by
    rw [liveRule_dropSlot, if_neg hi, hrule]
  have hne' : (engine.dropSlot ruleId index).ruleIndexById.lookup rule.id ≠ some i := by
    rw [lookup_dropSlot]
    split
    · exact nofun
    · exact hne
  exact ⟨i, rule, hrule', hne'⟩

-- pushing a rule whose id a live slot has takes that slot out of the map
theorem orphaned_pushRule {i : Nat} {rule : CompiledRule} (hrule : liveRule engine.rules i = some rule)
    (hid : rule.id = compiled.id) : Orphaned (engine.pushRule compiled) := by
  have hlt := lt_of_liveRule hrule
  have hrule' : liveRule (engine.pushRule compiled).rules i = some rule := by
    rw [liveRule_pushRule, if_neg (Nat.ne_of_lt hlt), hrule]
  have hne' : (engine.pushRule compiled).ruleIndexById.lookup rule.id ≠ some i := by
    rw [lookup_pushRule, if_pos hid]
    intro heq
    have hlast := Option.some.inj heq
    omega
  exact ⟨i, rule, hrule', hne'⟩

theorem IdsBijective.pushRule (h : IdsBijective engine)
    (hfresh : Absent compiled.id engine) : IdsBijective (engine.pushRule compiled) where
  slots i rule hrule := by
    rw [liveRule_pushRule] at hrule
    rw [lookup_pushRule]
    split at hrule
    · rename_i hi
      cases hrule
      rw [if_pos rfl, hi]
    · rw [if_neg (hfresh i rule hrule)]
      exact h.slots i rule hrule
  entries := h.entries.pushRule compiled

end Updates

/-! ## Which runs keep the correspondence -/

section Runs

variable (C : Crates)

/-- An accepted definition has an id that no live rule has. -/
def FreshAdd (engine : RuleEngine) (rule : RuleDefinition) : Prop :=
  ∀ compiled, Accepts C engine rule compiled → Absent compiled.id engine

-- each definition of a file is fresh when its turn comes; the file stops at a refused one
def FreshAdds (engine : RuleEngine) : List RuleDefinition → Prop
  | [] => True
  | rule :: rest =>
      FreshAdd C engine rule ∧
        ∀ compiled, Accepts C engine rule compiled → FreshAdds (engine.pushRule compiled) rest

def FreshOp (engine : RuleEngine) : EngineOp → Prop
  | .addRule rule => FreshAdd C engine rule
  | .loadRules bytes => ∀ parsed, C.ruleFileFromSlice bytes = .ok parsed → FreshAdds C engine parsed
  | _ => True

variable {C} {engine : RuleEngine}

theorem IdsBijective.addRules (h : IdsBijective engine) {defs : List RuleDefinition}
    (hfresh : FreshAdds C engine defs) (count : Nat) :
    IdsBijective (engine.addRules C count defs).1 := by
  induction defs generalizing engine count with
  | nil => exact h
  | cons rule rest ih =>
      rw [RuleEngine.addRules]
      rcases addRule_cases C engine rule with ⟨err, hadd, -⟩ | ⟨compiled, haccepts, hadd⟩
      · rw [hadd]
        exact h
      · rw [hadd]
        exact ih (h.pushRule (hfresh.1 compiled haccepts)) (hfresh.2 compiled haccepts) (count + 1)

theorem orphaned_addRules {defs : List RuleDefinition} (hfresh : ¬ FreshAdds C engine defs)
    (count : Nat) : Orphaned (engine.addRules C count defs).1 := by
  induction defs generalizing engine count with
  | nil => exact absurd trivial hfresh
  | cons rule rest ih =>
      rw [RuleEngine.addRules]
      rcases addRule_cases C engine rule with ⟨err, hadd, hrefused⟩ | ⟨compiled, haccepts, hadd⟩
      · exact absurd ⟨fun c hc ↦ absurd hc (hrefused c), fun c hc ↦ absurd hc (hrefused c)⟩ hfresh
      · rw [hadd]
        have hunique (c : CompiledRule) (hc : Accepts C engine rule c) : c = compiled :=
          Except.ok.inj (hc.2.symm.trans haccepts.2)
        by_cases hone : FreshAdd C engine rule
        · have hlater : ¬ FreshAdds C (engine.pushRule compiled) rest :=
            fun hrest ↦ hfresh ⟨hone, fun c hc ↦ hunique c hc ▸ hrest⟩
          exact ih hlater (count + 1)
        · -- this definition meets a live rule of its id
          have hmeets : ¬ Absent compiled.id engine :=
            fun habsent ↦ hone fun c hc ↦ hunique c hc ▸ habsent
          unfold Absent at hmeets
          push Not at hmeets
          rcases hmeets with ⟨i, live, hlive, hid⟩
          exact addRules_induction (fun e _ c he _ ↦ he.pushRule c) (orphaned_pushRule hlive hid)
            (count + 1) rest

theorem EntriesLive.apply (h : EntriesLive engine) (op : EngineOp) :
    EntriesLive (op.apply C engine) :=
  EngineOp.apply_induction (fun _ _ compiled he _ ↦ he.pushRule compiled)
    (fun _ _ _ he hindex ↦ he.dropSlot hindex)
    (fun e order message he ↦ by
      unfold EntriesLive at he ⊢
      rwa [RuleEngine.evaluate_ruleIndexById, RuleEngine.evaluate_rules]) h op

theorem Orphaned.apply (hlive : EntriesLive engine) (h : Orphaned engine) (op : EngineOp) :
    Orphaned (op.apply C engine) := by
  have hboth : EntriesLive (op.apply C engine) ∧ Orphaned (op.apply C engine) :=
    EngineOp.apply_induction (P := fun e ↦ EntriesLive e ∧ Orphaned e)
      (fun _ _ compiled he _ ↦ ⟨he.1.pushRule compiled, he.2.pushRule compiled⟩)
      (fun _ _ _ he hindex ↦ ⟨he.1.dropSlot hindex, he.2.dropSlot he.1 hindex⟩)
      (fun e order message he ↦ by
        unfold EntriesLive Orphaned at he ⊢
        rwa [RuleEngine.evaluate_ruleIndexById, RuleEngine.evaluate_rules]) ⟨hlive, h⟩ op
  exact hboth.2

theorem IdsBijective.dropSlot (h : IdsBijective engine) {ruleId : String} {index : Nat}
    (hindex : engine.ruleIndexById.lookup ruleId = some index) :
    IdsBijective (engine.dropSlot ruleId index) where
  slots i rule hrule := by
    rw [liveRule_dropSlot] at hrule
    rw [lookup_dropSlot]
    split at hrule
    · cases hrule
    · rename_i hi
      have hslot := h.slots i rule hrule
      have hid : rule.id ≠ ruleId := by
        intro heq
        rw [heq, hindex] at hslot
        exact hi (Option.some.inj hslot).symm
      rw [if_neg hid, hslot]
  entries := h.entries.dropSlot hindex

theorem IdsBijective.apply (h : IdsBijective engine) {op : EngineOp} (hfresh : FreshOp C engine op) :
    IdsBijective (op.apply C engine) := by
  cases op with
  | addRule rule =>
      rw [EngineOp.apply]
      rcases addRule_cases C engine rule with ⟨err, hadd, -⟩ | ⟨compiled, haccepts, hadd⟩
      · rw [hadd]
        exact h
      · rw [hadd]
        exact h.pushRule (hfresh compiled haccepts)
  | removeRule ruleId =>
      rw [EngineOp.apply]
      rcases removeRule_cases engine ruleId with ⟨-, hremove⟩ | ⟨index, hindex, hremove⟩
      · rw [hremove]
        exact h
      · rw [hremove]
        exact h.dropSlot hindex
  | loadRules bytes =>
      rw [EngineOp.apply, RuleEngine.loadRulesFromJsonBytes]
      cases hparse : C.ruleFileFromSlice bytes with
      | error err => exact h
      | ok parsed => exact h.addRules (hfresh parsed hparse) 0
  | evaluate order message =>
      have hslots : ∀ i rule, liveRule (engine.evaluate C order message).1.rules i = some rule →
          (engine.evaluate C order message).1.ruleIndexById.lookup rule.id = some i := by
        rw [RuleEngine.evaluate_rules, RuleEngine.evaluate_ruleIndexById]
        exact h.slots
      exact ⟨hslots, h.entries.apply (.evaluate order message)⟩

theorem orphaned_apply {op : EngineOp} (hfresh : ¬ FreshOp C engine op) :
    Orphaned (op.apply C engine) := by
  cases op with
  | addRule rule =>
      have hadds : ¬ FreshAdds C engine [rule] := fun h ↦ hfresh h.1
      have horphaned := orphaned_addRules hadds 0
      rw [EngineOp.apply]
      rw [RuleEngine.addRules] at horphaned
      rcases addRule_cases C engine rule with ⟨err, hadd, -⟩ | ⟨compiled, haccepts, hadd⟩
      · rw [hadd] at horphaned ⊢
        exact horphaned
      · rw [hadd] at horphaned ⊢
        exact horphaned
  | loadRules bytes =>
      have hadds : ∃ parsed, C.ruleFileFromSlice bytes = .ok parsed ∧ ¬ FreshAdds C engine parsed := by
        by_contra hnone
        push Not at hnone
        exact hfresh hnone
      rcases hadds with ⟨parsed, hparse, hnot⟩
      rw [EngineOp.apply, RuleEngine.loadRulesFromJsonBytes, hparse]
      exact orphaned_addRules hnot 0
  | _ => exact absurd trivial hfresh

end Runs

/-! ## Removal -/

/-- No definition of the operation compiles to a rule with the id. -/
def EngineOp.Avoids (C : Crates) (ruleId : String) : EngineOp → Prop
  | .addRule rule => ∀ compiled, compileRule C rule = .ok compiled → compiled.id ≠ ruleId
  | .loadRules bytes => ∀ parsed, C.ruleFileFromSlice bytes = .ok parsed →
      ∀ rule ∈ parsed, ∀ compiled, compileRule C rule = .ok compiled → compiled.id ≠ ruleId
  | _ => True

/-- What the removal of an id does when it returns true: the id is gone, no other rule is, and until a
rule with the id is added again no evaluation has a result of one. -/
structure RemovesExactly (C : Crates) (engine : RuleEngine) (ruleId : String) : Prop where
  gone : Absent ruleId (engine.removeRule ruleId).1
  others : ∀ i rule, rule.id ≠ ruleId →
    (liveRule (engine.removeRule ruleId).1.rules i = some rule ↔
      liveRule engine.rules i = some rule)
  silent : ∀ ops : List EngineOp, (∀ op ∈ ops, op.Avoids C ruleId) → ∀ order message,
    ∀ result ∈ ((ops.foldl (EngineOp.apply C) (engine.removeRule ruleId).1).evaluate C order
      message).2.results,
    ∃ rule, liveRule (ops.foldl (EngineOp.apply C) (engine.removeRule ruleId).1).rules
      result.ruleIndex = some rule ∧ rule.id ≠ ruleId

section Removal

variable {C : Crates} {engine : RuleEngine} {ruleId : String}

theorem Absent.pushRule (h : Absent ruleId engine) {compiled : CompiledRule}
    (hne : compiled.id ≠ ruleId) : Absent ruleId (engine.pushRule compiled) := by
  intro i rule hrule
  rw [liveRule_pushRule] at hrule
  split at hrule
  · cases hrule
    exact hne
  · exact h i rule hrule

theorem Absent.dropSlot (h : Absent ruleId engine) (other : String) (index : Nat) :
    Absent ruleId (engine.dropSlot other index) := by
  intro i rule hrule
  rw [liveRule_dropSlot] at hrule
  split at hrule
  · cases hrule
  · exact h i rule hrule

theorem Absent.addRules (h : Absent ruleId engine) {defs : List RuleDefinition}
    (havoids : ∀ rule ∈ defs, ∀ compiled, compileRule C rule = .ok compiled → compiled.id ≠ ruleId)
    (count : Nat) : Absent ruleId (engine.addRules C count defs).1 := by
  induction defs generalizing engine count with
  | nil => exact h
  | cons rule rest ih =>
      rw [RuleEngine.addRules]
      rcases addRule_cases C engine rule with ⟨err, hadd, -⟩ | ⟨compiled, haccepts, hadd⟩
      · rw [hadd]
        exact h
      · rw [hadd]
        exact ih (h.pushRule (havoids rule List.mem_cons_self compiled haccepts.2))
          (fun r hr ↦ havoids r (List.mem_cons_of_mem _ hr)) (count + 1)

theorem Absent.apply (h : Absent ruleId engine) {op : EngineOp} (havoids : op.Avoids C ruleId) :
    Absent ruleId (op.apply C engine) := by
  cases op with
  | addRule rule =>
      rw [EngineOp.apply]
      rcases addRule_cases C engine rule with ⟨err, hadd, -⟩ | ⟨compiled, haccepts, hadd⟩
      · rw [hadd]
        exact h
      · rw [hadd]
        exact h.pushRule (havoids compiled haccepts.2)
  | removeRule other =>
      rw [EngineOp.apply]
      rcases removeRule_cases engine other with ⟨-, hremove⟩ | ⟨index, -, hremove⟩
      · rw [hremove]
        exact h
      · rw [hremove]
        exact h.dropSlot other index
  | loadRules bytes =>
      rw [EngineOp.apply, RuleEngine.loadRulesFromJsonBytes]
      cases hparse : C.ruleFileFromSlice bytes with
      | error err => exact h
      | ok parsed => exact h.addRules (havoids parsed hparse) 0
  | evaluate order message =>
      unfold Absent at h ⊢
      rwa [EngineOp.apply, RuleEngine.evaluate_rules]

theorem Absent.run (h : Absent ruleId engine) {ops : List EngineOp}
    (havoids : ∀ op ∈ ops, op.Avoids C ruleId) :
    Absent ruleId (ops.foldl (EngineOp.apply C) engine) := by
  induction ops generalizing engine with
  | nil => exact h
  | cons op rest ih =>
      exact ih (h.apply (havoids op List.mem_cons_self))
        fun o ho ↦ havoids o (List.mem_cons_of_mem _ ho)

theorem IdsBijective.removesExactly (h : IdsBijective engine)
    (hremoved : (engine.removeRule ruleId).2 = true) : RemovesExactly C engine ruleId := by
  rcases removeRule_cases engine ruleId with ⟨-, hremove⟩ | ⟨index, hindex, hremove⟩
  · rw [hremove] at hremoved
    cases hremoved
  · have hgone : Absent ruleId (engine.removeRule ruleId).1 := by
      intro i rule hrule hid
      rw [hremove, liveRule_dropSlot] at hrule
      split at hrule
      · cases hrule
      · -- another slot with the id would be where the map points
        rename_i hi
        have hslot := h.slots i rule hrule
        rw [hid, hindex] at hslot
        exact hi (Option.some.inj hslot).symm
    apply RemovesExactly.mk hgone
    · intro i rule hne
      rw [hremove, liveRule_dropSlot]
      split
      · -- the emptied slot had the id
        rename_i hi
        subst hi
        rcases h.entries ruleId i hindex with ⟨removed, hlive, hid⟩
        constructor
        · exact nofun
        · intro hrule
          cases hlive.symm.trans hrule
          exact absurd hid hne
      · exact Iff.rfl
    · intro ops havoids order message result hresult
      obtain ⟨rule, hrule⟩ := live_of_mem_results C message hresult
      exact ⟨rule, hrule, hgone.run havoids _ rule hrule⟩

end Removal

/-! ## The main result -/

theorem entriesLive_new (decoder : PayloadDecoder) (capacity : Nat) :
    EntriesLive (RuleEngine.newWithCacheCapacity decoder capacity) := by
  intro ruleId index hlookup
  exact absurd hlookup (by simp [RuleEngine.newWithCacheCapacity])

theorem idsBijective_new (decoder : PayloadDecoder) (capacity : Nat) :
    IdsBijective (RuleEngine.newWithCacheCapacity decoder capacity) where
  slots i rule hrule := by
    have hlt := lt_of_liveRule hrule
    exact absurd hlt (Nat.not_lt_zero i)
  entries := entriesLive_new decoder capacity

/-- After a run the live slots and the ids correspond, and every removal is exact, if and only if the
run never added a rule while a live rule had its id. -/
theorem idsBijective_iff_fresh {C : Crates} {decoder : PayloadDecoder} {capacity : Nat}
    {ops : List EngineOp} {engine : RuleEngine}
    (hexec : (engineSystem C decoder capacity).exec (engineSystem C decoder capacity).init ops =
      some engine) :
    (IdsBijective engine ∧
        ∀ ruleId, (engine.removeRule ruleId).2 = true → RemovesExactly C engine ruleId) ↔
      (engineSystem C decoder capacity).Always (FreshOp C) (engineSystem C decoder capacity).init
        ops := by
  have hbij : IdsBijective engine ↔ (engineSystem C decoder capacity).Always (FreshOp C)
      (engineSystem C decoder capacity).init ops := by
    apply System.exec_good_iff_always EntriesLive IdsBijective _ _ _
      (entriesLive_new decoder capacity) hexec (idsBijective_new decoder capacity)
    · intro s op t hs hstep
      cases hstep
      exact hs.apply op
    · intro s op t hs hgood hstep
      cases hstep
      constructor
      · intro hbij
        by_contra hfresh
        exact (idsBijective_iff hbij.entries).mp hbij (orphaned_apply hfresh)
      · exact fun hfresh ↦ hgood.apply hfresh
    · intro s op t hs hbad hstep hbij
      cases hstep
      -- the orphan is still there
      have horphan : Orphaned s := by
        by_contra hnone
        exact hbad ((idsBijective_iff hs).mpr hnone)
      exact (idsBijective_iff hbij.entries).mp hbij (horphan.apply hs op)
  rw [← hbij]
  exact ⟨And.left, fun h ↦ ⟨h, fun ruleId hremoved ↦ h.removesExactly hremoved⟩⟩

theorem idsBijective_iff_fresh_demo :
    (IdsBijective (demoEngine [selectAll "a", selectAll "#/b"]) ∧ ∀ ruleId,
        ((demoEngine [selectAll "a", selectAll "#/b"]).removeRule ruleId).2 = true →
          RemovesExactly demoCrates (demoEngine [selectAll "a", selectAll "#/b"]) ruleId) ↔
      (engineSystem demoCrates .json 1).Always (FreshOp demoCrates)
        (RuleEngine.newWithCacheCapacity .json 1)
        [.addRule ⟨selectAll "a", [], none⟩, .addRule ⟨selectAll "#/b", [], none⟩] :=
  @idsBijective_iff_fresh demoCrates .json 1 _ _ rfl

-- one expression, added twice with different destinations
def demoTwice : List EngineOp :=
  [.addRule ⟨selectAll "t", ["a"], none⟩, .addRule ⟨selectAll "t", ["b"], none⟩]

def demoTwiceEngine : RuleEngine :=
  demoTwice.foldl (EngineOp.apply demoCrates) (RuleEngine.newWithCacheCapacity .json 1)

/-- Both slots are live, the id points to the second, and once it is removed the first is left. -/
theorem not_idsBijective_twice :
    (engineSystem demoCrates .json 1).exec (RuleEngine.newWithCacheCapacity .json 1) demoTwice =
        some demoTwiceEngine ∧
      ¬ IdsBijective demoTwiceEngine ∧ (demoTwiceEngine.removeRule "11").2 = true ∧
      ¬ RemovesExactly demoCrates demoTwiceEngine "11" := by
  have hfirst : (liveRule demoTwiceEngine.rules 0).map CompiledRule.id = some "11" := by decide
  have hleft : (liveRule (demoTwiceEngine.removeRule "11").1.rules 0).map CompiledRule.id =
      some "11" := by decide
  obtain ⟨rule, hrule, hid⟩ := Option.map_eq_some_iff.mp hfirst
  obtain ⟨left, hlive, hleftId⟩ := Option.map_eq_some_iff.mp hleft
  have hnot : ¬ IdsBijective demoTwiceEngine := by
    intro hbij
    have hslot := hbij.slots 0 rule hrule
    rw [hid] at hslot
    exact absurd hslot (by decide)
  have hstays : ¬ RemovesExactly demoCrates demoTwiceEngine "11" :=
    fun hremoves ↦ hremoves.gone 0 left hlive hleftId
  exact ⟨rfl, hnot, by decide, hstays⟩

end Tenon.Core
