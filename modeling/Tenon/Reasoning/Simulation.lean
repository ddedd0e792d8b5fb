import Tenon.Reasoning.Transition

/-!
# Simulation — the runs of a system with finer steps

A system with finer steps is read as a coarser one through a map of its states and a view of its actions,
some of which do not show.  When every step is, as it shows, one of the coarser system, every run is a run
of the coarser system; when every step of the coarser system can be made by finer ones, every run of it
is such a run.
-/

namespace Reasoning.Transition

universe u v w x

namespace System

variable {σ : Type u} {α : Type v} {τ : Type w} {β : Type x} {S : System σ α} {T : System τ β}
  {abs : σ → τ} {view : α → Option β}

/-- Reachable states go over when each step is one of the coarser system or changes nothing in it. -/
theorem Reachable.image {s : σ} (h : S.Reachable s) (T : System τ β) (abs : σ → τ)
    (hinit : abs S.init = T.init)
    (hstep : ∀ s a t, S.step s a = some t → abs t = abs s ∨ ∃ b, T.step (abs s) b = some (abs t)) :
    T.Reachable (abs s) := by
  have habs : T.Reachable (abs S.init) := by
    rw [hinit]
    exact T.reachable_init
  have hkept (s : σ) (a : α) (t : σ) (hs : T.Reachable (abs s)) (hsa : S.step s a = some t) :
      T.Reachable (abs t) := by
    rcases hstep s a t hsa with hsame | ⟨b, hb⟩
    · rwa [hsame]
    · exact hs.step hb
  obtain ⟨as, has⟩ := h
  exact exec_invariant hkept habs has

-- a step as the coarser system sees it
def Shows (T : System τ β) (s t : τ) : Option β → Prop
  | none => t = s
  | some b => T.step s b = some t

structure Simulates (S : System σ α) (T : System τ β) (abs : σ → τ) (view : α → Option β) : Prop where
  init : abs S.init = T.init
  step : ∀ s a t, S.Reachable s → S.step s a = some t → T.Shows (abs s) (abs t) (view a)

theorem Simulates.exec (h : S.Simulates T abs view) {s t : σ} (hs : S.Reachable s) {as : List α}
    (hexec : S.exec s as = some t) : T.exec (abs s) (as.filterMap view) = some (abs t) := by
  induction as generalizing s with
  | nil =>
      cases hexec
      rfl
  | cons a as ih =>
      obtain ⟨u, hu, hrest⟩ := Option.bind_eq_some_iff.mp hexec
      have hshows := h.step s a u hs hu
      have hih := ih (hs.step hu) hrest
      cases hview : view a with
      | none =>
          rw [hview] at hshows
          rw [List.filterMap_cons_none hview, ← show abs u = abs s from hshows]
          exact hih
      | some b =>
          rw [hview] at hshows
          rw [List.filterMap_cons_some hview, exec_cons, show T.step (abs s) b = some (abs u) from hshows]
          exact hih

theorem Simulates.reachable (h : S.Simulates T abs view) {s : σ} (hs : S.Reachable s) :
    T.Reachable (abs s) := by
  obtain ⟨as, has⟩ := hs
  refine ⟨as.filterMap view, ?_⟩
  rw [← h.init]
  exact h.exec S.reachable_init has

/-! ## Making the steps of the coarser system -/

/-- Some run shows exactly the action `b` and ends in a state of `P`. -/
def Offers (S : System σ α) (view : α → Option β) (P : σ → Prop) (s : σ) (b : β) : Prop :=
  ∃ as t, S.exec s as = some t ∧ as.filterMap view = [b] ∧ P t

section Offers

variable {P : σ → Prop} {s t : σ} {a : α} {b : β}

theorem offers_of_step (hstep : S.step s a = some t) (hview : view a = some b) (ht : P t) :
    S.Offers view P s b := by
  refine ⟨[a], t, ?_, ?_, ht⟩
  · rw [exec_cons, hstep]
    rfl
  · rw [List.filterMap_cons_some hview]
    rfl

theorem Offers.after (h : S.Offers view P t b) (hstep : S.step s a = some t) (hview : view a = none) :
    S.Offers view P s b := by
  obtain ⟨as, u, hexec, hshown, hu⟩ := h
  refine ⟨a :: as, u, ?_, ?_, hu⟩
  · rw [exec_cons, hstep]
    exact hexec
  · rw [List.filterMap_cons_none hview]
    exact hshown

end Offers

/-- In the states that are ready every step of the coarser system can be made, up to another such state. -/
structure Covers (S : System σ α) (T : System τ β) (abs : σ → τ) (view : α → Option β)
    (Ready : σ → Prop) : Prop where
  init : Ready S.init
  step : ∀ s b u, S.Reachable s → Ready s → T.step (abs s) b = some u →
    S.Offers view (fun t ↦ abs t = u ∧ Ready t) s b

variable {Ready : σ → Prop}

theorem Covers.exec (h : S.Covers T abs view Ready) {s : σ} (hs : S.Reachable s) (hready : Ready s)
    {bs : List β} {u : τ} (hexec : T.exec (abs s) bs = some u) :
    ∃ as t, S.exec s as = some t ∧ as.filterMap view = bs ∧ abs t = u ∧ Ready t := by
  induction bs generalizing s with
  | nil =>
      cases hexec
      exact ⟨[], s, rfl, rfl, rfl, hready⟩
  | cons b bs ih =>
      obtain ⟨v, hv, hrest⟩ := Option.bind_eq_some_iff.mp hexec
      obtain ⟨as, t, hfirst, hshown, habs, ht⟩ := h.step s b v hs hready hv
      rw [← habs] at hrest
      obtain ⟨more, r, hmore, hview, hr⟩ := ih (hs.exec hfirst) ht hrest
      refine ⟨as ++ more, r, ?_, ?_, hr⟩
      · rw [exec_append, hfirst]
        exact hmore
      · rw [List.filterMap_append, hshown, hview]
        rfl

/-- The runs of the coarser system are what the runs of the finer one show. -/
theorem exec_iff_of_covers (h : S.Simulates T abs view) (hcovers : S.Covers T abs view Ready)
    {bs : List β} {u : τ} : T.exec T.init bs = some u ↔
      ∃ as s, S.exec S.init as = some s ∧ as.filterMap view = bs ∧ abs s = u := by
  constructor
  · intro hexec
    rw [← h.init] at hexec
    obtain ⟨as, s, has, hview, habs, -⟩ := hcovers.exec S.reachable_init hcovers.init hexec
    exact ⟨as, s, has, hview, habs⟩
  · rintro ⟨as, s, has, rfl, rfl⟩
    rw [← h.init]
    exact h.exec S.reachable_init has

end System

end Reasoning.Transition
