import Mathlib.Tactic.Common

/-! Transition systems whose steps may be subject to a condition on the state before
them. -/

namespace Pintos.Transition

variable {σ α : Type}

/-- States of the runs whose steps all meet `ok`. -/
inductive Reachable (init : σ) (step : σ → α → Option σ) (ok : σ → α → Prop) : σ → Prop where
  | start : Reachable init step ok init
  | next {s s' : σ} {a : α} :
      Reachable init step ok s → ok s a → step s a = some s' → Reachable init step ok s'

variable {init : σ} {step : σ → α → Option σ} {ok : σ → α → Prop}

theorem Reachable.invariant {P : σ → Prop} (base : P init)
    (keep : ∀ s a s', P s → ok s a → step s a = some s' → P s') {s : σ}
    (h : Reachable init step ok s) : P s := by
  induction h with
  | start => exact base
  | next _ meets taken ih => exact keep _ _ _ ih meets taken

def run (step : σ → α → Option σ) : σ → List α → Option σ
  | s, [] => some s
  | s, a :: rest => (step s a).bind fun next => run step next rest

theorem Reachable.run {s s' : σ} (h : Reachable init step ok s) (actions : List α)
    (meet : ∀ a ∈ actions, ∀ s, ok s a) (ran : Transition.run step s actions = some s') :
    Reachable init step ok s' := by
  induction actions generalizing s with
  | nil => cases ran; exact h
  | cons a rest ih =>
    obtain ⟨next, taken, ran⟩ := Option.bind_eq_some_iff.mp ran
    rw [List.forall_mem_cons] at meet
    exact ih (h.next (meet.1 s) taken) meet.2 ran

end Pintos.Transition
