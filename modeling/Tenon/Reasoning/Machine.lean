import Mathlib.Tactic.Common

/-!
# Machine — state machines that answer their requests, and refinement between two of them

A machine takes one request at a time and answers it from its state.  A machine refines another when a
relation between their states holds at the start, is kept by every request and makes the answers agree;
the requests of the finer machine may carry more than those of the coarser one, which sees them through
a view.  A refining machine answers every list of requests as the coarser one answers their views, so
two machines that refine the same one cannot be told apart by requests with equal views.
-/

namespace Reasoning

universe u v w

structure Machine (σ : Type u) (ι : Type v) (ω : Type w) where
  init : σ
  next : σ → ι → σ × ω

namespace Machine

variable {σ τ : Type u} {ι κ : Type v} {ω : Type w}

/-- The answers to a list of requests, in order. -/
def answers (M : Machine σ ι ω) (s : σ) : List ι → List ω
  | [] => []
  | i :: is => (M.next s i).2 :: M.answers (M.next s i).1 is

structure Refines (M : Machine σ ι ω) (N : Machine τ κ ω) (view : ι → κ) (R : σ → τ → Prop) :
    Prop where
  init : R M.init N.init
  next : ∀ s t i, R s t → R (M.next s i).1 (N.next t (view i)).1
  answer : ∀ s t i, R s t → (M.next s i).2 = (N.next t (view i)).2

variable {M M' : Machine σ ι ω} {N : Machine τ κ ω} {view : ι → κ} {R R' : σ → τ → Prop}

namespace Refines

theorem answers_of (h : Refines M N view R) {s : σ} {t : τ} (hR : R s t) (is : List ι) :
    M.answers s is = N.answers t (is.map view) := by
  induction is generalizing s t with
  | nil => rfl
  | cons i is ih =>
      rw [List.map_cons, answers, answers, h.answer s t i hR, ih (h.next s t i hR)]

theorem answers (h : Refines M N view R) (is : List ι) :
    M.answers M.init is = N.answers N.init (is.map view) :=
  h.answers_of h.init is

theorem answers_eq (h : Refines M N view R) (h' : Refines M' N view R') {is is' : List ι}
    (hview : is.map view = is'.map view) : M.answers M.init is = M'.answers M'.init is' := by
  rw [h.answers, h'.answers, hview]

end Refines

end Machine

end Reasoning
