import Mathlib.Order.Defs.Unbundled
import Mathlib.Tactic.Common

/-! Programs over a state that return a value or stop early. The state that they leave is
kept in both cases, so that one can say what happened before a stop. -/

namespace Pintos.Stoppable

variable {ε σ τ α β : Type}

/-- From a state to the value returned, or the reason for stopping, and the state then. -/
structure Exec (ε σ α : Type) where
  run : σ → Except ε α × σ
variable {x : Exec ε σ α} {s s' : σ} {a : α} {f : α → Exec ε σ β}

namespace Exec

def bind (x : Exec ε σ α) (f : α → Exec ε σ β) : Exec ε σ β where
  run s := match x.run s with
    | (.ok a, s') => (f a).run s'
    | (.error e, s') => (.error e, s')

instance : Monad (Exec ε σ) where
  pure a := ⟨fun s => (.ok a, s)⟩
  bind := bind

def stop (e : ε) : Exec ε σ α := ⟨fun s => (.error e, s)⟩

def state : Exec ε σ σ := ⟨fun s => (.ok s, s)⟩

def modify (f : σ → σ) : Exec ε σ Unit := ⟨fun s => (.ok (), f s)⟩

def zoom (get : σ → τ) (put : σ → τ → σ) (x : Exec ε τ α) : Exec ε σ α :=
  ⟨fun s => ((x.run (get s)).1, put s (x.run (get s)).2)⟩

@[simp] theorem run_pure (a : α) (s : σ) : (pure a : Exec ε σ α).run s = (.ok a, s) := rfl

@[simp] theorem run_stop (e : ε) (s : σ) : (stop e : Exec ε σ α).run s = (.error e, s) := rfl

@[simp] theorem run_state (s : σ) : (state : Exec ε σ σ).run s = (.ok s, s) := rfl

@[simp] theorem run_modify (f : σ → σ) (s : σ) :
    (modify f : Exec ε σ Unit).run s = (.ok (), f s) := rfl

theorem run_bind_ok (h : x.run s = (.ok a, s')) (f : α → Exec ε σ β) :
    (x >>= f).run s = (f a).run s' := by
  change (bind x f).run s = _
  simp only [bind, h]

theorem run_bind_error {e : ε} (h : x.run s = (.error e, s')) (f : α → Exec ε σ β) :
    (x >>= f).run s = (.error e, s') := by
  change (bind x f).run s = _
  simp only [bind, h]

theorem run_bind_iff {b : β} : (x >>= f).run s = (.ok b, s') ↔ ∃ a t, x.run s = (.ok a, t) ∧
    (f a).run t = (.ok b, s') := by
  constructor
  · intro h
    rcases e : x.run s with ⟨_ | a, t⟩
    · rw [run_bind_error e] at h
      cases h
    · rw [run_bind_ok e] at h
      exact ⟨a, t, rfl, h⟩
  · rintro ⟨a, t, e, h⟩
    rw [run_bind_ok e, h]

theorem run_zoom {get : σ → τ} {put : σ → τ → σ} {x : Exec ε τ α} {r : Except ε α} {t : τ}
    (h : x.run (get s) = (r, t)) : (zoom get put x).run s = (r, put s t) := by
  simp only [zoom, h]

section Triple

variable {P P' : σ → Prop} {R R' : α → σ → Prop} {Q Q' : ε → σ → Prop}

/-- From a state with `P` the program returns with `R` or stops with `Q`. -/
def Triple (P : σ → Prop) (x : Exec ε σ α) (R : α → σ → Prop) (Q : ε → σ → Prop) : Prop :=
  ∀ s, P s → match x.run s with
    | (.ok a, t) => R a t
    | (.error e, t) => Q e t

theorem Triple.ok {t : σ} (h : Triple P x R Q) (hs : P s) (run : x.run s = (.ok a, t)) : R a t := by
  have spec := h s hs
  rw [run] at spec
  exact spec

theorem Triple.error {t : σ} {e : ε} (h : Triple P x R Q) (hs : P s)
    (run : x.run s = (.error e, t)) : Q e t := by
  have spec := h s hs
  rw [run] at spec
  exact spec

theorem Triple.pure (h : ∀ s, P s → R a s) : Triple P (pure a : Exec ε σ α) R Q := h

theorem Triple.bind {S : β → σ → Prop} (hx : Triple P x R Q) (hf : ∀ a, Triple (R a) (f a) S Q) :
    Triple P (x >>= f) S Q := by
  intro s hs
  rcases run : x.run s with ⟨_ | a, t⟩
  · rw [run_bind_error run]
    exact hx.error hs run
  · rw [run_bind_ok run]
    exact hf a t (hx.ok hs run)

theorem Triple.mono (h : Triple P x R Q) (pre : ∀ s, P' s → P s) (post : ∀ a s, R a s → R' a s)
    (stops : ∀ e s, Q e s → Q' e s) : Triple P' x R' Q' := by
  intro s hs
  rcases run : x.run s with ⟨e | a, t⟩
  · exact stops e t (h.error (pre s hs) run)
  · exact post a t (h.ok (pre s hs) run)

end Triple

section Moves

variable {R : σ → σ → Prop} [IsPreorder σ R]

/-- The program takes a state to one that it stands in relation `R` to, whether it returns
or stops. -/
def Moves (R : σ → σ → Prop) (x : Exec ε σ α) : Prop := ∀ s, R s (x.run s).2

theorem Moves.pure (a : α) : Moves R (pure a : Exec ε σ α) := refl

theorem Moves.stop (e : ε) : Moves R (stop e : Exec ε σ α) := refl

theorem Moves.bind (hx : Moves R x) (hf : ∀ a, Moves R (f a)) : Moves R (x >>= f) := by
  intro s
  have first := hx s
  rcases h : x.run s with ⟨_ | a, t⟩
  · rw [h] at first
    rw [run_bind_error h]
    exact first
  · rw [h] at first
    rw [run_bind_ok h]
    exact IsTrans.trans _ _ _ first (hf a t)

omit [IsPreorder σ R] in
theorem Moves.read {k : σ → Exec ε σ α} (h : ∀ s, Moves R (k s)) : Moves R (state >>= k) := by
  intro s
  rw [run_bind_ok (run_state s)]
  exact h s s

end Moves

section Respects

variable {R : σ → σ → Prop}

/-- From related states the program comes to the same result and to related states. -/
def Respects (R : σ → σ → Prop) (x : Exec ε σ α) : Prop :=
  ∀ s t, R s t → (x.run s).1 = (x.run t).1 ∧ R (x.run s).2 (x.run t).2

theorem Respects.pure (a : α) : Respects R (pure a : Exec ε σ α) := fun _ _ h => ⟨rfl, h⟩

theorem Respects.stop (e : ε) : Respects R (stop e : Exec ε σ α) := fun _ _ h => ⟨rfl, h⟩

theorem Respects.modify {f : σ → σ} (h : ∀ s t, R s t → R (f s) (f t)) :
    Respects R (modify f : Exec ε σ Unit) := fun s t rel => ⟨rfl, h s t rel⟩

theorem Respects.bind (hx : Respects R x) (hf : ∀ a, Respects R (f a)) :
    Respects R (x >>= f) := fun s t rel => by
  obtain ⟨same, rel'⟩ := hx s t rel
  rcases h : x.run s with ⟨_ | a, s'⟩ <;> rcases h' : x.run t with ⟨_ | a', t'⟩ <;>
    rw [h, h'] at same rel' <;> cases same
  · rw [run_bind_error h, run_bind_error h']
    exact ⟨rfl, rel'⟩
  · rw [run_bind_ok h, run_bind_ok h']
    exact hf a s' t' rel'

theorem Respects.read {k : σ → Exec ε σ α} (same : ∀ s t, R s t → k s = k t)
    (h : ∀ s, Respects R (k s)) : Respects R (state >>= k) := fun s t rel => by
  rw [run_bind_ok (run_state _), run_bind_ok (run_state _), ← same s t rel]
  exact h s s t rel

theorem Respects.zoom {S : τ → τ → Prop} {get : σ → τ} {put : σ → τ → σ} {x : Exec ε τ α}
    (hx : Respects S x) (hget : ∀ s t, R s t → S (get s) (get t))
    (hput : ∀ s t a b, R s t → S a b → R (put s a) (put t b)) :
    Respects R (x.zoom get put) := fun s t rel => by
  obtain ⟨same, rel'⟩ := hx (get s) (get t) (hget s t rel)
  exact ⟨same, hput s t _ _ rel rel'⟩

end Respects

end Exec

end Pintos.Stoppable
