import Pintos.Transition
import Mathlib.Logic.Function.Basic
import Mathlib.Order.Defs.Unbundled

/-! Resumption programs over a shared state, run alone or interleaved.
A program is a finite tree of state reads, state writes and pauses. Everything
between two pauses is one atomic section; a pause carries a label that says what
the program waits for. A failed assertion is the leaf `fail`.

The proof rule is thread-modular. A protocol fixes a ghost value for each thread
and one invariant of the shared state and all ghost values. At a pause a thread
chooses its next ghost value and restores the invariant; when it resumes it knows
the invariant again and that its own ghost value has not moved. -/

namespace Pintos.Resumption

inductive Prog (ι σ α : Type) : Type where
  | ret (a : α) : Prog ι σ α
  | fail : Prog ι σ α
  | get (k : σ → Prog ι σ α) : Prog ι σ α
  | set (s : σ) (p : Prog ι σ α) : Prog ι σ α
  | pause (l : ι) (p : Prog ι σ α) : Prog ι σ α
variable {c : Prop}

namespace Prog

variable {ι σ α β : Type}

def bind : Prog ι σ α → (α → Prog ι σ β) → Prog ι σ β
  | ret a, f => f a
  | fail, _ => fail
  | get k, f => get fun s => bind (k s) f
  | set s p, f => set s (bind p f)
  | pause l p, f => pause l (bind p f)

instance : Monad (Prog ι σ) where
  pure := ret
  bind := bind

theorem bind_ret (p : Prog ι σ α) : bind p ret = p := by
  induction p with
  | ret a => rfl
  | fail => rfl
  | get k ih => exact congrArg get (funext ih)
  | set s p ih => exact congrArg (set s) ih
  | pause l p ih => exact congrArg (pause l) ih

theorem bind_bind {δ : Type} (p : Prog ι σ α) (f : α → Prog ι σ β) (g : β → Prog ι σ δ) :
    bind (bind p f) g = bind p fun a => bind (f a) g := by
  induction p with
  | ret a => rfl
  | fail => rfl
  | get k ih => exact congrArg get (funext ih)
  | set s p ih => exact congrArg (set s) ih
  | pause l p ih => exact congrArg (pause l) ih

theorem lawfulMonad : LawfulMonad (Prog ι σ) :=
  LawfulMonad.mk' _ bind_ret (fun _ _ => rfl) bind_bind

def state : Prog ι σ σ := get ret

def modify (f : σ → σ) : Prog ι σ Unit := get fun s => set (f s) (ret ())

def sleep (l : ι) : Prog ι σ Unit := pause l (ret ())

/-- Continue exactly when the condition holds. -/
def assert (c : Prop) [Decidable c] : Prog ι σ Unit := if c then ret () else fail

def demand : Option α → Prog ι σ α
  | some a => ret a
  | none => fail

/-- The whole program with nobody else running; `none` is a failed assertion. -/
def run : Prog ι σ α → σ → Option (α × σ)
  | ret a, s => some (a, s)
  | fail, _ => none
  | get k, s => run (k s) s
  | set s' p, _ => run p s'
  | pause _ p, s => run p s

theorem run_bind (p : Prog ι σ α) (f : α → Prog ι σ β) (s : σ) :
    run (p >>= f) s = (run p s).bind fun r => run (f r.1) r.2 := by
  change run (bind p f) s = _
  induction p generalizing s with
  | ret a => rfl
  | fail => rfl
  | get k ih => exact ih s s
  | set s' p ih => exact ih s'
  | pause l p ih => exact ih s

@[simp] theorem run_pure (a : α) (s : σ) : run (pure a : Prog ι σ α) s = some (a, s) := rfl

@[simp] theorem run_fail (s : σ) : run (fail : Prog ι σ α) s = none := rfl

@[simp] theorem run_state (s : σ) : run (state : Prog ι σ σ) s = some (s, s) := rfl

@[simp] theorem run_modify (f : σ → σ) (s : σ) :
    run (modify f : Prog ι σ Unit) s = some ((), f s) := rfl

@[simp] theorem run_sleep (l : ι) (s : σ) : run (sleep l : Prog ι σ Unit) s = some ((), s) := rfl

theorem run_assert [Decidable c] (h : c) (s : σ) :
    run (assert c : Prog ι σ Unit) s = some ((), s) := by
  rw [assert, if_pos h]
  rfl

@[simp] theorem run_demand_some (a : α) (s : σ) :
    run (demand (some a) : Prog ι σ α) s = some (a, s) := rfl

theorem run_bind_of {p : Prog ι σ α} {s s' : σ} {a : α} (h : run p s = some (a, s'))
    (f : α → Prog ι σ β) : run (p >>= f) s = run (f a) s' := by
  rw [run_bind, h]
  rfl

theorem run_bind_none {p : Prog ι σ α} {s : σ} (h : run p s = none) (f : α → Prog ι σ β) :
    run (p >>= f) s = none := by
  rw [run_bind, h]
  rfl

theorem run_bind_iff {p : Prog ι σ α} {f : α → Prog ι σ β} {s s' : σ} {b : β} :
    run (p >>= f) s = some (b, s') ↔ ∃ a t, run p s = some (a, t) ∧ run (f a) t = some (b, s') := by
  rw [run_bind, Option.bind_eq_some_iff, Prod.exists]

theorem run_assert_none [Decidable c] (h : ¬c) (s : σ) :
    run (assert c : Prog ι σ Unit) s = none := by
  rw [assert, if_neg h]
  rfl

section Moves

variable {R : σ → σ → Prop}

/-- A run that returns ends in a state that its first state stands in relation `R` to. -/
def Moves (R : σ → σ → Prop) (p : Prog ι σ α) : Prop :=
  ∀ s a s', run p s = some (a, s') → R s s'

theorem Moves.fail : Moves R (fail : Prog ι σ α) := by
  intro s a s' h
  cases h

theorem Moves.modify {f : σ → σ} (h : ∀ s, R s (f s)) : Moves R (modify f : Prog ι σ Unit) := by
  intro s a s' run
  cases run
  exact h s

theorem Moves.read {k : σ → Prog ι σ α} (h : ∀ s, Moves R (k s)) : Moves R (state >>= k) := by
  intro s a s' run
  exact h s s a s' run

theorem Moves.ite [Decidable c] {p q : Prog ι σ α} (hp : Moves R p) (hq : Moves R q) :
    Moves R (if c then p else q) := by
  split
  · exact hp
  · exact hq

variable [IsPreorder σ R]

theorem Moves.pure (a : α) : Moves R (pure a : Prog ι σ α) := by
  intro s b s' run
  cases run
  exact refl s

theorem Moves.bind {p : Prog ι σ α} {f : α → Prog ι σ β} (hp : Moves R p)
    (hf : ∀ a, Moves R (f a)) : Moves R (p >>= f) := by
  intro s b s' run
  obtain ⟨a, t, first, rest⟩ := run_bind_iff.mp run
  exact trans_of R (hp s a t first) (hf a t b s' rest)

theorem Moves.assert (c : Prop) [Decidable c] : Moves R (assert c : Prog ι σ Unit) :=
  .ite (.pure ()) .fail

theorem Moves.demand (o : Option α) : Moves R (demand o : Prog ι σ α) := by
  cases o with
  | none => exact Moves.fail
  | some a => exact Moves.pure a

theorem Moves.sleep (l : ι) : Moves R (sleep l : Prog ι σ Unit) := by
  intro s b s' run
  cases run
  exact refl s

end Moves

/-- The atomic section up to the next pause. -/
def advance : Prog ι σ α → σ → Prog ι σ α × σ
  | ret a, s => (ret a, s)
  | fail, s => (fail, s)
  | get k, s => advance (k s) s
  | set s' p, _ => advance p s'
  | pause l p, s => (pause l p, s)

theorem advance_bind_ret {p : Prog ι σ α} {s s' : σ} {a : α} (h : p.advance s = (ret a, s'))
    (f : α → Prog ι σ β) : (p >>= f).advance s = (f a).advance s' := by
  change (bind p f).advance s = _
  induction p generalizing s with
  | ret b => cases h; rfl
  | fail => cases h
  | get k ih => exact ih s h
  | set s'' p ih => exact ih h
  | pause l p => cases h

theorem advance_bind_pause {p q : Prog ι σ α} {s s' : σ} {l : ι} (h : p.advance s = (pause l q, s'))
    (f : α → Prog ι σ β) : (p >>= f).advance s = (pause l (q >>= f), s') := by
  change (bind p f).advance s = (pause l (bind q f), s')
  induction p generalizing s with
  | ret b => cases h
  | fail => cases h
  | get k ih => exact ih s h
  | set s'' p ih => exact ih h
  | pause l p => cases h; rfl

theorem advance_state_bind (s : σ) (f : σ → Prog ι σ β) :
    (state >>= f).advance s = (f s).advance s := rfl

theorem advance_modify_bind (g : σ → σ) (s : σ) (f : Unit → Prog ι σ β) :
    (modify g >>= f).advance s = (f ()).advance (g s) := rfl

theorem advance_assert_bind [Decidable c] (h : c) (s : σ) (f : Unit → Prog ι σ β) :
    (assert c >>= f).advance s = (f ()).advance s := by
  rw [assert, if_pos h]
  rfl

/-- With nobody else running, `p` in state `s` comes to `q` in state `s'`. -/
inductive Leads : Prog ι σ α → σ → Prog ι σ α → σ → Prop where
  | refl (p : Prog ι σ α) (s : σ) : Leads p s p s
  | get {k : σ → Prog ι σ α} {q : Prog ι σ α} {s s' : σ} :
      Leads (k s) s q s' → Leads (get k) s q s'
  | set {p q : Prog ι σ α} {t s s' : σ} : Leads p t q s' → Leads (set t p) s q s'
  | pause {l : ι} {p q : Prog ι σ α} {s s' : σ} : Leads p s q s' → Leads (pause l p) s q s'

theorem Leads.trans {p q r : Prog ι σ α} {s t u : σ} (h : Leads p s q t) (h' : Leads q t r u) :
    Leads p s r u := by
  induction h with
  | refl => exact h'
  | get _ ih => exact .get (ih h')
  | set _ ih => exact .set (ih h')
  | pause _ ih => exact .pause (ih h')

theorem Leads.bind {p q : Prog ι σ α} {s t : σ} (h : Leads p s q t) (f : α → Prog ι σ β) :
    Leads (p >>= f) s (q >>= f) t := by
  induction h with
  | refl => exact .refl _ _
  | get _ ih => exact .get ih
  | set _ ih => exact .set ih
  | pause _ ih => exact .pause ih

theorem Leads.of_run {p : Prog ι σ α} {s s' : σ} {a : α} (h : p.run s = some (a, s')) :
    Leads p s (ret a) s' := by
  induction p generalizing s with
  | ret b =>
    cases h
    exact .refl _ _
  | fail => cases h
  | get k ih => exact .get (ih s h)
  | set t p ih => exact .set (ih h)
  | pause l p ih => exact .pause (ih h)

theorem Leads.run_bind {p : Prog ι σ α} {s s' : σ} {a : α} (h : p.run s = some (a, s'))
    (f : α → Prog ι σ β) : Leads (p >>= f) s (f a) s' :=
  (Leads.of_run h).bind f

/-- What a parked program waits for; nothing when it has ended. -/
def label : Prog ι σ α → Option ι
  | pause l _ => some l
  | _ => none

end Prog

open Prog Transition Function

structure Pool (τ ι σ α : Type) where
  threads : τ → Prog ι σ α
  state : σ

variable {τ ι γ σ α β : Type} [DecidableEq τ]

/-- Thread `i` of a pool runs program `p` up to its next pause. -/
def Pool.settle (c : Pool τ ι σ α) (i : τ) (p : Prog ι σ α) (s : σ) : Pool τ ι σ α :=
  ⟨update c.threads i (p.advance s).1, (p.advance s).2⟩

def Pool.step (c : Pool τ ι σ α) (i : τ) : Option (Pool τ ι σ α) :=
  match c.threads i with
  | .pause _ p => some (c.settle i p c.state)
  | _ => none

theorem Pool.settle_parked {c : Pool τ ι σ α} {i : τ} {l : ι} {p : Prog ι σ α}
    (h : c.threads i = .pause l p) : c.settle i (.pause l p) c.state = c := by
  have same : update c.threads i (.pause l p) = c.threads := by
    rw [← h, update_eq_self]
  simp only [Pool.settle, advance, same]

theorem Pool.reachable_leads {init c : Pool τ ι σ α} {ok : Pool τ ι σ α → τ → Prop} {i : τ}
    (quiet : ∀ p s, ok ⟨update c.threads i p, s⟩ i) {p q : Prog ι σ α} {s s' : σ}
    (h : Leads p s q s') (reached : Reachable init Pool.step ok (c.settle i p s)) :
    Reachable init Pool.step ok (c.settle i q s') := by
  induction h with
  | refl => exact reached
  | get _ ih => exact ih reached
  | set _ ih => exact ih reached
  | @pause l p q s s' _ ih =>
    have taken : (c.settle i (.pause l p) s).step i = some (c.settle i p s) := by
      simp [Pool.step, Pool.settle, advance]
    exact ih (reached.next (quiet _ s) taken)

theorem Pool.reachable_wake {init c : Pool τ ι σ α} {ok : Pool τ ι σ α → τ → Prop} {i : τ}
    (quiet : ∀ p s, ok ⟨update c.threads i p, s⟩ i) (reached : Reachable init Pool.step ok c)
    {l : ι} {p q : Prog ι σ α} {s' : σ} (parked : c.threads i = .pause l p)
    (h : Leads p c.state q s') : Reachable init Pool.step ok (c.settle i q s') := by
  rw [← Pool.settle_parked parked] at reached
  exact Pool.reachable_leads quiet (.pause h) reached

/-- The ghost values of a pool, their invariant, the labels they stand for, the labels
under which a thread may take its next section, and the threads that may fail. -/
structure Protocol (τ ι γ σ : Type) where
  inv : (τ → γ) → σ → Prop
  lab : γ → Option ι
  allow : (τ → Option ι) → τ → Prop
  fails : τ → Prop

namespace Protocol

variable (P : Protocol τ ι γ σ)

/-- Thread `i` can sleep at `l` and will find `R` when it resumes. -/
def Across (i : τ) (l : ι) (R : (τ → γ) → σ → Prop) (g : τ → γ) (s : σ) : Prop :=
  ∃ c, P.lab c = some l ∧ P.inv (update g i c) s ∧
    ∀ g' s', g' i = c → P.inv g' s' → P.allow (fun j => P.lab (g' j)) i → R g' s'

def wp (i : τ) (Q : α → (τ → γ) → σ → Prop) : Prog ι σ α → (τ → γ) → σ → Prop
  | .ret a, g, s => Q a g s
  | .fail, g, s => P.fails i ∧ ∃ c, P.lab c = none ∧ P.inv (update g i c) s
  | .get k, g, s => wp i Q (k s) g s
  | .set s' p, g, _ => wp i Q p g s'
  | .pause l p, g, s => P.Across i l (wp i Q p) g s

variable {P} {i : τ}

theorem Across.mono {l : ι} {R R' : (τ → γ) → σ → Prop} (imp : ∀ g s, R g s → R' g s)
    {g : τ → γ} {s : σ} (h : P.Across i l R g s) : P.Across i l R' g s := by
  obtain ⟨c, hl, hi, next⟩ := h
  exact ⟨c, hl, hi, fun g' s' own inv ok => imp g' s' (next g' s' own inv ok)⟩

theorem wp_bind {Q : β → (τ → γ) → σ → Prop} (p : Prog ι σ α) (f : α → Prog ι σ β) (g : τ → γ)
    (s : σ) : P.wp i Q (p >>= f) g s ↔ P.wp i (fun a g s => P.wp i Q (f a) g s) p g s := by
  change P.wp i Q (Prog.bind p f) g s ↔ _
  induction p generalizing g s with
  | ret a => exact Iff.rfl
  | fail => exact Iff.rfl
  | get k ih => exact ih s g s
  | set s' p ih => exact ih g s'
  | pause l p ih =>
    exact ⟨Across.mono fun g' s' => (ih g' s').mp, Across.mono fun g' s' => (ih g' s').mpr⟩

@[simp] theorem wp_pure {Q : α → (τ → γ) → σ → Prop} (a : α) (g : τ → γ) (s : σ) :
    P.wp i Q (pure a : Prog ι σ α) g s ↔ Q a g s := Iff.rfl

@[simp] theorem wp_state {Q : σ → (τ → γ) → σ → Prop} (g : τ → γ) (s : σ) :
    P.wp i Q (Prog.state : Prog ι σ σ) g s ↔ Q s g s := Iff.rfl

@[simp] theorem wp_modify {Q : Unit → (τ → γ) → σ → Prop} (f : σ → σ) (g : τ → γ) (s : σ) :
    P.wp i Q (Prog.modify f : Prog ι σ Unit) g s ↔ Q () g (f s) := Iff.rfl

theorem wp_sleep {Q : Unit → (τ → γ) → σ → Prop} (l : ι) (g : τ → γ) (s : σ) :
    P.wp i Q (Prog.sleep l : Prog ι σ Unit) g s ↔ P.Across i l (Q ()) g s := Iff.rfl

theorem wp_assert {Q : Unit → (τ → γ) → σ → Prop} [Decidable c] (h : c) {g : τ → γ} {s : σ}
    (post : Q () g s) : P.wp i Q (Prog.assert c : Prog ι σ Unit) g s := by
  rw [Prog.assert, if_pos h]
  exact post

variable (P) in
/-- What a protocol knows about a parked or finished thread with ghost value `c`. -/
def Parked (F : τ → α → γ → Prop) (i : τ) (c : γ) : Prog ι σ α → Prop
  | .ret a => P.lab c = none ∧ F i a c
  | .pause l p => P.lab c = some l ∧
      ∀ g s, g i = c → P.inv g s → P.allow (fun j => P.lab (g j)) i →
        P.wp i (fun a g s => ∃ c, P.lab c = none ∧ P.inv (update g i c) s ∧ F i a c) p g s
  | .fail => P.lab c = none ∧ P.fails i
  | _ => False

theorem Parked.label {F : τ → α → γ → Prop} {c : γ} {p : Prog ι σ α}
    (h : P.Parked F i c p) : p.label = P.lab c := by
  cases p with
  | ret a => exact h.1.symm
  | pause l p => exact h.1.symm
  | fail => exact h.1.symm
  | get k => exact h.elim
  | set s p => exact h.elim

theorem advance_parked {F : τ → α → γ → Prop} (p : Prog ι σ α) (g : τ → γ) (s : σ)
    (h : P.wp i (fun a g s => ∃ c, P.lab c = none ∧ P.inv (update g i c) s ∧ F i a c) p g s) :
    ∃ c, P.inv (update g i c) (p.advance s).2 ∧ P.Parked F i c (p.advance s).1 := by
  induction p generalizing g s with
  | ret a =>
    obtain ⟨c, hl, hi, hf⟩ := h
    exact ⟨c, hi, hl, hf⟩
  | fail =>
    obtain ⟨may, c, hl, hi⟩ := h
    exact ⟨c, hi, hl, may⟩
  | get k ih => exact ih s g s h
  | set s' p ih => exact ih g s' h
  | pause l p ih =>
    obtain ⟨c, hl, hi, next⟩ := h
    exact ⟨c, hi, hl, next⟩

variable (P) in
/-- The invariant of a whole pool. -/
def Holds (F : τ → α → γ → Prop) (c : Pool τ ι σ α) : Prop :=
  ∃ g, P.inv g c.state ∧ ∀ i, P.Parked F i (g i) (c.threads i)

theorem Holds.step {F : τ → α → γ → Prop} {c c' : Pool τ ι σ α} (h : P.Holds F c)
    (ok : P.allow (fun j => (c.threads j).label) i) (taken : c.step i = some c') :
    P.Holds F c' := by
  obtain ⟨g, hi, parked⟩ := h
  simp only [Pool.step] at taken
  split at taken <;> cases taken
  rename_i l p here
  have own := parked i
  rw [here] at own
  have labels : (fun j => P.lab (g j)) = fun j => (c.threads j).label := by
    funext j
    exact (parked j).label.symm
  have sec := own.2 g c.state rfl hi (by rw [labels]; exact ok)
  obtain ⟨d, hi', here'⟩ := advance_parked p g c.state sec
  refine ⟨update g i d, hi', fun j => ?_⟩
  by_cases same : j = i
  · subst same
    simpa [Pool.settle] using here'
  · simpa [Pool.settle, same] using parked j

variable (ι σ) in
/-- The protocol of a thread with nobody else around: the ghost value is the state. -/
def alone : Protocol Unit ι (Option ι × σ) σ where
  inv g s := (g ()).2 = s
  lab c := c.1
  allow _ _ := True
  fails _ := False

/-- Proofs for interleaved runs cover a run alone. -/
theorem run_of_wp {Q : α → (Unit → Option ι × σ) → σ → Prop} (p : Prog ι σ α)
    (g : Unit → Option ι × σ) (s : σ) (h : (alone ι σ).wp () Q p g s) :
    ∃ a g' s', p.run s = some (a, s') ∧ Q a g' s' := by
  induction p generalizing g s with
  | ret a => exact ⟨a, g, s, rfl, h⟩
  | fail => exact h.1.elim
  | get k ih => exact ih s g s h
  | set s' p ih => exact ih g s' h
  | pause l p ih =>
    obtain ⟨c, -, hi, next⟩ := h
    have here : c.2 = s := by simpa [alone] using hi
    exact ih (fun _ => c) s (next (fun _ => c) s rfl here trivial)

theorem alone_across (g : Unit → Option ι × σ) (s : σ) (l : ι) :
    (alone ι σ).Across () l (fun _ s' => s' = s) g s := by
  refine ⟨(some l, s), rfl, by simp [alone], fun g' s' own inv _ => ?_⟩
  simp only [alone, own] at inv
  exact inv.symm

end Protocol

end Pintos.Resumption
