import Mathlib.Data.Option.Basic
import Mathlib.Tactic.Common

/-!
# Transition — systems of guarded actions and their runs

A system is an initial state and a partial step function: an action is enabled in a state when it
yields a next state.  A run is a list of actions, each enabled where it is taken, so every
interleaving of several parties is one list.  Besides reachability and the invariant rule, the file
treats runs whose actions all meet a condition on the state they are taken in: when two conditions
select the same runs, and when a run ends well exactly if it meets its condition.
-/

namespace Reasoning.Transition

universe u v

structure System (σ : Type u) (α : Type v) where
  init : σ
  step : σ → α → Option σ

namespace System

variable {σ : Type u} {α : Type v} (S : System σ α)

def exec (s : σ) : List α → Option σ
  | [] => some s
  | a :: as => (S.step s a).bind fun t ↦ exec t as

def Reachable (s : σ) : Prop := ∃ as, S.exec S.init as = some s

/-- Every action of the run meets `C` in the state it is taken in. -/
def Always (C : σ → α → Prop) (s : σ) : List α → Prop
  | [] => True
  | a :: as => ∀ t, S.step s a = some t → C s a ∧ Always C t as

@[simp]
theorem exec_nil (s : σ) : S.exec s [] = some s := rfl

theorem exec_cons (s : σ) (a : α) (as : List α) :
    S.exec s (a :: as) = (S.step s a).bind fun t ↦ S.exec t as := rfl

theorem exec_append (s : σ) (as bs : List α) :
    S.exec s (as ++ bs) = (S.exec s as).bind fun t ↦ S.exec t bs := by
  induction as generalizing s with
  | nil => rfl
  | cons a as ih =>
      rw [List.cons_append, exec_cons, exec_cons]
      cases S.step s a with
      | none => rfl
      | some t => exact ih t

theorem exec_concat {s t u : σ} {as : List α} {a : α} (h : S.exec s as = some t)
    (hstep : S.step t a = some u) : S.exec s (as ++ [a]) = some u := by
  rw [exec_append, h]
  simp [exec, hstep]

theorem reachable_init : S.Reachable S.init := ⟨[], rfl⟩

variable {S}

theorem Reachable.step {s t : σ} {a : α} (h : S.Reachable s) (hstep : S.step s a = some t) :
    S.Reachable t := by
  rcases h with ⟨as, has⟩
  exact ⟨as ++ [a], S.exec_concat has hstep⟩

theorem Reachable.exec {s t : σ} {as : List α} (h : S.Reachable s) (hexec : S.exec s as = some t) :
    S.Reachable t := by
  rcases h with ⟨before, hbefore⟩
  refine ⟨before ++ as, ?_⟩
  rw [exec_append, hbefore]
  exact hexec

/-! ## Invariants -/

theorem exec_invariant {Inv : σ → Prop}
    (hstep : ∀ s a t, Inv s → S.step s a = some t → Inv t) {s t : σ} {as : List α}
    (hinv : Inv s) (hexec : S.exec s as = some t) : Inv t := by
  induction as generalizing s with
  | nil => exact Option.some.inj hexec ▸ hinv
  | cons a as ih =>
      obtain ⟨u, hu, hrest⟩ := Option.bind_eq_some_iff.mp hexec
      exact ih (hstep s a u hinv hu) hrest

/-- What holds initially and is preserved by every step holds in every reachable state. -/
theorem Reachable.invariant {Inv : σ → Prop} (hinit : Inv S.init)
    (hstep : ∀ s a t, Inv s → S.step s a = some t → Inv t) {s : σ} (h : S.Reachable s) :
    Inv s := by
  rcases h with ⟨as, has⟩
  exact exec_invariant hstep hinit has

/-! ## Runs that end -/

/-- No action is enabled. -/
def Stuck (S : System σ α) (s : σ) : Prop := ∀ a, S.step s a = none

-- a measure that every step lowers while an invariant holds bounds the length of the runs
theorem length_add_le_of {Inv : σ → Prop} {m : σ → Nat}
    (hinv : ∀ s a t, Inv s → S.step s a = some t → Inv t)
    (hless : ∀ s a t, Inv s → S.step s a = some t → m t < m s) {s t : σ} {as : List α}
    (hs : Inv s) (hexec : S.exec s as = some t) : as.length + m t ≤ m s := by
  induction as generalizing s with
  | nil =>
      cases hexec
      simp
  | cons a as ih =>
      obtain ⟨u, hu, hrest⟩ := Option.bind_eq_some_iff.mp hexec
      have hlower := hless s a u hs hu
      have hle := ih (hinv s a u hs hu) hrest
      rw [List.length_cons]
      omega

theorem length_add_le {m : σ → Nat} (hstep : ∀ s a t, S.step s a = some t → m t < m s) {s t : σ}
    {as : List α} (hexec : S.exec s as = some t) : as.length + m t ≤ m s := by
  have hless (s : σ) (a : α) (t : σ) (_ : True) : S.step s a = some t → m t < m s := hstep s a t
  exact length_add_le_of (fun _ _ _ _ _ ↦ trivial) hless trivial hexec

/-- If some step lowers the measure wherever the goal is not reached yet, and keeps the invariant, then a
run leads to the goal. -/
theorem exists_exec {Inv : σ → Prop} (Goal : σ → Prop) (m : σ → Nat)
    (hstep : ∀ s, Inv s → ¬ Goal s → ∃ a t, S.step s a = some t ∧ Inv t ∧ m t < m s) {s : σ}
    (hs : Inv s) : ∃ as t, S.exec s as = some t ∧ Inv t ∧ Goal t := by
  induction h : m s using Nat.strongRecOn generalizing s with
  | ind n ih =>
      by_cases hgoal : Goal s
      · exact ⟨[], s, rfl, hs, hgoal⟩
      · obtain ⟨a, t, ht, hinv, hless⟩ := hstep s hs hgoal
        obtain ⟨as, u, hexec, hu⟩ := ih (m t) (by omega) hinv rfl
        refine ⟨a :: as, u, ?_, hu⟩
        rw [exec_cons, ht, Option.bind_some, hexec]

/-! ## Runs that meet a condition -/

section Conditions

variable {C P : σ → α → Prop}

/-- If, wherever the invariant holds, enabled actions meet `C` exactly when they meet `P`, and the
steps meeting `C` keep the invariant, then the runs meeting `C` are the runs meeting `P`. -/
theorem always_congr (Inv : σ → Prop)
    (hstep : ∀ s a t, Inv s → C s a → S.step s a = some t → Inv t)
    (hiff : ∀ s a t, Inv s → S.step s a = some t → (C s a ↔ P s a))
    {s : σ} (hinv : Inv s) (as : List α) : S.Always C s as ↔ S.Always P s as := by
  induction as generalizing s with
  | nil => exact Iff.rfl
  | cons a as ih =>
      constructor
      · intro h t ht
        rcases h t ht with ⟨hC, hrest⟩
        exact ⟨(hiff s a t hinv ht).mp hC, (ih (hstep s a t hinv hC ht)).mp hrest⟩
      · intro h t ht
        rcases h t ht with ⟨hP, hrest⟩
        have hC := (hiff s a t hinv ht).mpr hP
        exact ⟨hC, (ih (hstep s a t hinv hC ht)).mpr hrest⟩

/-- If the enabled actions of a good state lead to a good state exactly when they meet `C`, and what is
not good stays so, then a run ends in a good state exactly when it meets `C` throughout. -/
theorem exec_good_iff_always (Inv Good : σ → Prop)
    (hinv : ∀ s a t, Inv s → S.step s a = some t → Inv t)
    (hgood : ∀ s a t, Inv s → Good s → S.step s a = some t → (Good t ↔ C s a))
    (hstay : ∀ s a t, Inv s → ¬ Good s → S.step s a = some t → ¬ Good t)
    {s t : σ} {as : List α} (hs : Inv s) (hexec : S.exec s as = some t) (hstart : Good s) :
    Good t ↔ S.Always C s as := by
  induction as generalizing s with
  | nil => exact iff_of_true (Option.some.inj hexec ▸ hstart) trivial
  | cons a as ih =>
      obtain ⟨u, hu, hrest⟩ := Option.bind_eq_some_iff.mp hexec
      have hinvU := hinv s a u hs hu
      by_cases hgoodU : Good u
      · have hC := (hgood s a u hs hstart hu).mp hgoodU
        rw [ih hinvU hrest hgoodU]
        constructor
        · intro h t' ht'
          cases hu.symm.trans ht'
          exact ⟨hC, h⟩
        · exact fun h ↦ (h u hu).2
      · -- from the violation on the run never gets back to a good state
        have hkeep (s : σ) (a : α) (t : σ) (h : Inv s ∧ ¬ Good s) (hst : S.step s a = some t) :
            Inv t ∧ ¬ Good t :=
          ⟨hinv s a t h.1 hst, hstay s a t h.1 h.2 hst⟩
        have hend : Inv t ∧ ¬ Good t := by
          apply exec_invariant hkeep _ hrest
          exact ⟨hinvU, hgoodU⟩
        have hfails : ¬ S.Always C s (a :: as) :=
          fun h ↦ hgoodU ((hgood s a u hs hstart hu).mpr (h u hu).1)
        exact iff_of_false hend.2 hfails

end Conditions

/-! ## Recording the past -/

/-- The same system, with the actions taken so far. -/
def recording (S : System σ α) : System (List α × σ) α where
  init := ([], S.init)
  step s a := (S.step s.2 a).map fun t ↦ (s.1 ++ [a], t)

theorem recording_step {s t : List α × σ} {a : α} :
    S.recording.step s a = some t ↔ t.1 = s.1 ++ [a] ∧ S.step s.2 a = some t.2 := by
  change (S.step s.2 a).map _ = some t ↔ _
  rw [Option.map_eq_some_iff]
  constructor
  · intro h
    rcases h with ⟨u, hu, rfl⟩
    exact ⟨rfl, hu⟩
  · intro h
    rcases h with ⟨hpast, hstep⟩
    exact ⟨t.2, hstep, by rw [← hpast]⟩

theorem exec_recording {s t : σ} {as : List α} (hexec : S.exec s as = some t) (past : List α) :
    S.recording.exec (past, s) as = some (past ++ as, t) := by
  induction as generalizing s past with
  | nil =>
      cases hexec
      simp
  | cons a as ih =>
      obtain ⟨u, hu, hrest⟩ := Option.bind_eq_some_iff.mp hexec
      have hstep : S.recording.step (past, s) a = some (past ++ [a], u) :=
        recording_step.mpr ⟨rfl, hu⟩
      rw [exec_cons, hstep, Option.bind_some, ih hrest, List.append_assoc]
      rfl

/-- What relates the empty past to the first state and is kept by every step relates a run to the state
it leads to. -/
theorem exec_past_invariant {Inv : List α → σ → Prop}
    (hstep : ∀ past s a t, Inv past s → S.step s a = some t → Inv (past ++ [a]) t) {s t : σ}
    {as : List α} (hinit : Inv [] s) (hexec : S.exec s as = some t) : Inv as t := by
  have hkeep (p : List α × σ) (a : α) (q : List α × σ) (hp : Inv p.1 p.2)
      (h : S.recording.step p a = some q) : Inv q.1 q.2 := by
    obtain ⟨hpast, hq⟩ := recording_step.mp h
    rw [hpast]
    exact hstep p.1 p.2 a q.2 hp hq
  have hend : (fun p : List α × σ ↦ Inv p.1 p.2) (as, t) := by
    apply exec_invariant hkeep _ (exec_recording hexec [])
    exact hinit
  exact hend

end System

end Reasoning.Transition
