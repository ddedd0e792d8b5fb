import Mathlib.Algebra.BigOperators.Group.List.Basic
import Mathlib.Data.List.Perm.Basic
import Tenon.Reasoning.Transition

/-!
# Interleaving — parties that share a state

Every party runs the same program, one atomic step at a time, on a state that all of them read and
write.  A run calls new parties at any time and lets any party step that has not returned, so every
interleaving of any number of parties is one run.  Where the state is the sum of the parts that the
parties have put into it, a step has to be checked against one party and an arbitrary rest only.
-/

open Reasoning.Transition

namespace Reasoning.Interleaving

universe u v w x

/-- Where a call starts, and the atomic steps from there on: the input is what the party does not decide
itself, and a party that has returned has no step. -/
structure Program (σ : Type u) (π : Type v) (δ : Type w) (ι : Type x) where
  call : δ → π
  step : σ → ι → π → Option (σ × π)

structure State (σ : Type u) (π : Type v) where
  shared : σ
  parties : List π

inductive Move (δ : Type w) (ι : Type x) where
  | call (argument : δ)
  | step (party : Nat) (input : ι)

def Move.argument? {δ : Type w} {ι : Type x} : Move δ ι → Option δ
  | .call d => some d
  | .step _ _ => none

/-- The arguments of the calls of a run, in their order. -/
def arguments {δ : Type w} {ι : Type x} (moves : List (Move δ ι)) : List δ :=
  moves.filterMap Move.argument?

theorem arguments_append {δ : Type w} {ι : Type x} (moves later : List (Move δ ι)) :
    arguments (moves ++ later) = arguments moves ++ arguments later :=
  List.filterMap_append

theorem arguments_calls {δ : Type w} (ι : Type x) (ds : List δ) :
    arguments (ds.map fun d ↦ (.call d : Move δ ι)) = ds := by
  rw [arguments, List.filterMap_map]
  exact List.filterMap_some

theorem arguments_steps (δ : Type w) {ι : Type x} (i : Nat) (inputs : List ι) :
    arguments (inputs.map fun input ↦ (.step i input : Move δ ι)) = [] := by
  rw [arguments, List.filterMap_map]
  exact List.filterMap_none inputs

namespace Program

variable {σ : Type u} {π : Type v} {δ : Type w} {ι : Type x} (P : Program σ π δ ι)

def move (s : State σ π) : Move δ ι → Option (State σ π)
  | .call d => some ⟨s.shared, s.parties ++ [P.call d]⟩
  | .step i input =>
      s.parties[i]?.bind fun p ↦
        (P.step s.shared input p).map fun r ↦ ⟨r.1, s.parties.set i r.2⟩

def interleaved (init : σ) : System (State σ π) (Move δ ι) where
  init := ⟨init, []⟩
  step := P.move

theorem move_step {s : State σ π} {i : Nat} {p : π} {input : ι} {r : σ × π}
    (hp : s.parties[i]? = some p) (hr : P.step s.shared input p = some r) :
    P.move s (.step i input) = some ⟨r.1, s.parties.set i r.2⟩ := by
  simp only [move, hp, hr, Option.bind_some, Option.map_some]

theorem move_cases {s t : State σ π} {m : Move δ ι} (h : P.move s m = some t) :
    (∃ d, m = .call d ∧ t = ⟨s.shared, s.parties ++ [P.call d]⟩) ∨
      ∃ i input p r, m = .step i input ∧ s.parties[i]? = some p ∧
        P.step s.shared input p = some r ∧ t = ⟨r.1, s.parties.set i r.2⟩ := by
  cases m with
  | call d => exact .inl ⟨d, rfl, (Option.some.inj h).symm⟩
  | step i input =>
      obtain ⟨p, hp, hstep⟩ := Option.bind_eq_some_iff.mp h
      obtain ⟨r, hr, ht⟩ := Option.map_eq_some_iff.mp hstep
      exact .inr ⟨i, input, p, r, rfl, hp, hr, ht.symm⟩

variable {P}

/-! ## Invariants of the interleaving -/

/-- A relation that every step of a party has between the shared states before and after it relates
those of any two states of a run. -/
theorem exec_shared {R : σ → σ → Prop} (hrefl : ∀ m, R m m)
    (htrans : ∀ {m n o}, R m n → R n o → R m o)
    (hstep : ∀ m input p r, P.step m input p = some r → R m r.1) {init : σ} {s t : State σ π}
    {moves : List (Move δ ι)} (hexec : (P.interleaved init).exec s moves = some t) :
    R s.shared t.shared := by
  have hkeep (s' : State σ π) (m : Move δ ι) (t' : State σ π) (h : R s.shared s'.shared)
      (hmove : (P.interleaved init).step s' m = some t') : R s.shared t'.shared := by
    obtain ⟨d, -, rfl⟩ | ⟨i, input, p, r, -, -, hr, rfl⟩ := P.move_cases hmove
    · exact h
    · exact htrans h (hstep s'.shared input p r hr)
  exact System.exec_invariant hkeep (hrefl s.shared) hexec

/-- What no step of a party changes is, for each party of a state, what it was when it was called. -/
theorem map_unchanged {γ : Type w} {f : π → γ}
    (hstep : ∀ m input p r, P.step m input p = some r → f r.2 = f p) {init : σ} {s : State σ π}
    {moves : List (Move δ ι)}
    (hexec : (P.interleaved init).exec (P.interleaved init).init moves = some s) :
    s.parties.map f = (arguments moves).map fun d ↦ f (P.call d) := by
  have hkeep (past : List (Move δ ι)) (s : State σ π) (m : Move δ ι) (t : State σ π)
      (h : s.parties.map f = (arguments past).map fun d ↦ f (P.call d))
      (hmove : (P.interleaved init).step s m = some t) :
      t.parties.map f = (arguments (past ++ [m])).map fun d ↦ f (P.call d) := by
    rw [arguments_append, List.map_append]
    obtain ⟨d, rfl, rfl⟩ | ⟨i, input, p, r, rfl, hp, hr, rfl⟩ := P.move_cases hmove
    · rw [List.map_append, h]
      rfl
    · have hget : (s.parties.map f)[i]? = some (f r.2) := by
        rw [List.getElem?_map, hp, hstep s.shared input p r hr]
        rfl
      obtain ⟨hi, heq⟩ := List.getElem?_eq_some_iff.mp hget
      rw [List.map_set, ← heq, List.set_getElem_self, h]
      exact (List.append_nil _).symm
  exact System.exec_past_invariant hkeep rfl hexec

/-- The parties of a state are the calls made so far, in their order. -/
theorem map_parties {argument : π → δ} (hcall : ∀ d, argument (P.call d) = d)
    (hstep : ∀ m input p r, P.step m input p = some r → argument r.2 = argument p) {init : σ}
    {s : State σ π} {moves : List (Move δ ι)}
    (hexec : (P.interleaved init).exec (P.interleaved init).init moves = some s) :
    s.parties.map argument = arguments moves := by
  rw [map_unchanged hstep hexec]
  simp only [hcall, List.map_id']

/-! ## Parts that add up to the shared state -/

section Parts

variable [AddCommMonoid σ]

variable (P) in
/-- A step replaces the party's own part of the state and leaves the rest as it is. -/
def FramePreserving (part : π → σ) : Prop :=
  ∀ p input rest r, P.step (part p + rest) input p = some r → r.1 = part r.2 + rest

theorem exists_rest (part : π → σ) {parties : List π} {i : Nat} {p : π} (hp : parties[i]? = some p) :
    ∃ rest, (parties.map part).sum = part p + rest ∧
      ∀ q, ((parties.set i q).map part).sum = part q + rest := by
  obtain ⟨hi, rfl⟩ := List.getElem?_eq_some_iff.mp hp
  refine ⟨((parties.eraseIdx i).map part).sum, ?_, fun q ↦ ?_⟩
  · have hperm := (List.getElem_cons_eraseIdx_perm hi).map part
    rw [← hperm.sum_eq, List.map_cons, List.sum_cons]
  · have hperm := (List.set_perm_cons_eraseIdx hi q).map part
    rw [hperm.sum_eq, List.map_cons, List.sum_cons]

/-- If a call puts nothing into the state and the steps are frame preserving, then the state is what it
was at the start and the parts of the parties. -/
theorem shared_eq_sum {part : π → σ} (hcall : ∀ d, part (P.call d) = 0)
    (hframe : P.FramePreserving part) {init : σ} {s : State σ π}
    (hreach : (P.interleaved init).Reachable s) :
    s.shared = init + (s.parties.map part).sum := by
  apply System.Reachable.invariant _ _ hreach
  · exact (add_zero init).symm
  · intro s m t h hmove
    obtain ⟨d, -, rfl⟩ | ⟨i, input, p, r, -, hp, hr, rfl⟩ := P.move_cases hmove
    · simpa [hcall] using h
    · obtain ⟨rest, hsum, hset⟩ := exists_rest part hp
      have hshared : s.shared = part p + (init + rest) := by
        rw [h, hsum, add_left_comm]
      rw [hshared] at hr
      rw [hset, hframe p input (init + rest) r hr, add_left_comm]

end Parts

/-! ## Runs that let every party return -/

variable (P) in
/-- A party takes its steps with no other party in between. -/
def alone (m : σ) (p : π) : List ι → Option (σ × π)
  | [] => some (m, p)
  | input :: inputs => (P.step m input p).bind fun r ↦ alone r.1 r.2 inputs

theorem exec_alone {init : σ} {s : State σ π} {i : Nat} {p : π} {inputs : List ι} {r : σ × π}
    (hp : s.parties[i]? = some p) (h : P.alone s.shared p inputs = some r) :
    (P.interleaved init).exec s (inputs.map (.step i)) = some ⟨r.1, s.parties.set i r.2⟩ := by
  induction inputs generalizing s p with
  | nil =>
      obtain ⟨hi, rfl⟩ := List.getElem?_eq_some_iff.mp hp
      cases h
      rw [List.set_getElem_self]
      rfl
  | cons input inputs ih =>
      obtain ⟨q, hq, hrest⟩ := Option.bind_eq_some_iff.mp h
      have hi := (List.getElem?_eq_some_iff.mp hp).1
      have hmove : (P.interleaved init).step s (.step i input) = some ⟨q.1, s.parties.set i q.2⟩ :=
        P.move_step hp hq
      have hnext : (s.parties.set i q.2)[i]? = some q.2 := List.getElem?_set_self hi
      rw [List.map_cons, System.exec_cons, hmove, Option.bind_some, ih hnext hrest, List.set_set]

/-- If a party that has not returned can lower its rank when it is left alone, it returns when it is
left alone long enough. -/
theorem exists_alone {returned : π → Prop} {rank : σ → π → Nat}
    (hrank : ∀ m p, ¬ returned p → ∃ input r, P.step m input p = some r ∧ rank r.1 r.2 < rank m p)
    (m : σ) (p : π) : ∃ inputs r, P.alone m p inputs = some r ∧ returned r.2 := by
  induction hn : rank m p using Nat.strongRecOn generalizing m p with
  | ind n ih =>
      by_cases hdone : returned p
      · exact ⟨[], (m, p), rfl, hdone⟩
      · obtain ⟨input, r, hr, hlt⟩ := hrank m p hdone
        obtain ⟨inputs, q, hq, hreturned⟩ := ih (rank r.1 r.2) (hn ▸ hlt) r.1 r.2 rfl
        refine ⟨input :: inputs, q, ?_, hreturned⟩
        rw [alone, hr]
        exact hq

/-- The parties return one after the other, in their order, without a further call. -/
theorem exists_first_returned {returned : π → Prop}
    (halone : ∀ m p, ∃ inputs r, P.alone m p inputs = some r ∧ returned r.2) (init : σ)
    (s : State σ π) (n : Nat) : ∃ moves t, (P.interleaved init).exec s moves = some t ∧
      arguments moves = [] ∧ t.parties.length = s.parties.length ∧
        ∀ i p, i < n → t.parties[i]? = some p → returned p := by
  induction n with
  | zero => exact ⟨[], s, rfl, rfl, rfl, fun i p hi ↦ absurd hi (Nat.not_lt_zero i)⟩
  | succ n ih =>
      obtain ⟨moves, t, ht, hcalls, hlength, hdone⟩ := ih
      cases hp : t.parties[n]? with
      | none =>
          refine ⟨moves, t, ht, hcalls, hlength, fun i p hi hget ↦ ?_⟩
          have hne : i ≠ n := by
            rintro rfl
            rw [hp] at hget
            contradiction
          exact hdone i p (by omega) hget
      | some p =>
          obtain ⟨inputs, r, hr, hreturned⟩ := halone t.shared p
          refine ⟨moves ++ inputs.map (.step n), ⟨r.1, t.parties.set n r.2⟩, ?_, ?_, ?_, ?_⟩
          · rw [System.exec_append, ht]
            exact exec_alone hp hr
          · rw [arguments_append, hcalls, arguments_steps]
            rfl
          · rw [List.length_set, hlength]
          · intro i q hi hget
            by_cases hin : n = i
            · obtain ⟨hn, -⟩ := List.getElem?_eq_some_iff.mp hp
              rw [← hin, List.getElem?_set_self hn] at hget
              exact Option.some.inj hget ▸ hreturned
            · rw [List.getElem?_set_ne hin] at hget
              exact hdone i q (by omega) hget

/-- Parties that return when they are left alone can all return, without a further call. -/
theorem exists_all_returned {returned : π → Prop}
    (halone : ∀ m p, ∃ inputs r, P.alone m p inputs = some r ∧ returned r.2) (init : σ)
    (s : State σ π) : ∃ moves t, (P.interleaved init).exec s moves = some t ∧
      arguments moves = [] ∧ ∀ p ∈ t.parties, returned p := by
  obtain ⟨moves, t, ht, hcalls, hlength, hdone⟩ :=
    exists_first_returned halone init s s.parties.length
  refine ⟨moves, t, ht, hcalls, fun p hp ↦ ?_⟩
  obtain ⟨i, hi, rfl⟩ := List.getElem_of_mem hp
  exact hdone i _ (hlength ▸ hi) (List.getElem?_eq_getElem hi)

theorem exec_calls (init : σ) (s : State σ π) (ds : List δ) :
    (P.interleaved init).exec s (ds.map .call) = some ⟨s.shared, s.parties ++ ds.map P.call⟩ := by
  induction ds generalizing s with
  | nil => rw [List.map_nil, List.map_nil, List.append_nil, System.exec_nil]
  | cons d ds ih =>
      rw [List.map_cons, System.exec_cons]
      change (P.interleaved init).exec ⟨s.shared, s.parties ++ [P.call d]⟩ (ds.map .call) = _
      rw [ih, List.map_cons, List.append_assoc, List.singleton_append]

/-- Whatever the arguments, there is a run in which all the calls return. -/
theorem exists_run {returned : π → Prop}
    (halone : ∀ m p, ∃ inputs r, P.alone m p inputs = some r ∧ returned r.2) (init : σ)
    (ds : List δ) : ∃ moves s,
      (P.interleaved init).exec (P.interleaved init).init moves = some s ∧ arguments moves = ds ∧
        ∀ p ∈ s.parties, returned p := by
  obtain ⟨moves, s, hs, hcalls, hreturned⟩ :=
    exists_all_returned halone init ⟨init, [] ++ ds.map P.call⟩
  refine ⟨ds.map .call ++ moves, s, ?_, ?_, hreturned⟩
  · rw [System.exec_append, exec_calls]
    exact hs
  · rw [arguments_append, arguments_calls, hcalls, List.append_nil]

end Program

end Reasoning.Interleaving
