import Pintos.Transition
import Mathlib.Data.Finset.Card
import Mathlib.Algebra.Group.Nat.Defs
import Mathlib.Algebra.Group.Int.Defs

/-! Semaphores. The operations run with interrupts off, so they are atomic up to the
point where `sema_down` blocks. A thread that `sema_up` unblocks tests the value again
when it runs, and it may find the unit gone. -/

namespace Pintos.Semaphore
open Transition Function

variable {τ : Type}

structure Sema (τ : Type) where
  value : Nat
  waiters : List τ

def semaInit (value : Nat) : Sema τ := ⟨value, []⟩

/-- One test of the loop in `sema_down`: the thread takes a unit or queues up to block. -/
def Sema.down (s : Sema τ) (t : τ) : Bool × Sema τ :=
  if s.value = 0 then (false, { s with waiters := s.waiters ++ [t] })
  else (true, { s with value := s.value - 1 })

def Sema.tryDown (s : Sema τ) : Bool × Sema τ :=
  if 0 < s.value then (true, { s with value := s.value - 1 }) else (false, s)

/-- The thread to unblock, if any, and the semaphore afterwards. -/
def Sema.up (s : Sema τ) : Option τ × Sema τ :=
  (s.waiters.head?, ⟨(s.value + 1) % 2 ^ 32, s.waiters.tail⟩)

theorem Sema.down_cases (s : Sema τ) (t : τ) :
    (s.value = 0 ∧ s.down t = (false, { s with waiters := s.waiters ++ [t] })) ∨
      (0 < s.value ∧ s.down t = (true, { s with value := s.value - 1 })) := by
  by_cases zero : s.value = 0
  · exact .inl ⟨zero, if_pos zero⟩
  · exact .inr ⟨by omega, if_neg zero⟩

theorem Sema.tryDown_cases (s : Sema τ) : (s.value = 0 ∧ s.tryDown = (false, s)) ∨
    (0 < s.value ∧ s.tryDown = (true, { s with value := s.value - 1 })) := by
  by_cases zero : s.value = 0
  · exact .inl ⟨zero, if_neg (by omega)⟩
  · exact .inr ⟨by omega, if_pos (by omega)⟩

inductive Phase where
  | out
  | blocked
  /-- Unblocked by `sema_up`, before it tests the value again. -/
  | woken
  deriving DecidableEq

/-- One semaphore, with the numbers of completed ups and downs. -/
structure State (τ : Type) where
  sema : Sema τ
  phase : τ → Phase
  ups : Nat
  downs : Nat

inductive Act (τ : Type) where
  | semaDown (t : τ)
  | resume (t : τ)
  | semaTryDown
  | semaUp

variable [DecidableEq τ]

def start (v : Nat) : State τ := ⟨semaInit v, fun _ => .out, 0, 0⟩

def State.test (s : State τ) (t : τ) : State τ :=
  match s.sema.down t with
  | (true, sema) =>
    { s with sema := sema, phase := update s.phase t .out, downs := s.downs + 1 }
  | (false, sema) => { s with sema := sema, phase := update s.phase t .blocked }

/-- `none` if the step is not possible: the thread is elsewhere, or `thread_unblock` is
given a thread that is not blocked. -/
def step (s : State τ) : Act τ → Option (State τ)
  | .semaDown t => if s.phase t = .out then some (s.test t) else none
  | .resume t => if s.phase t = .woken then some (s.test t) else none
  | .semaTryDown =>
    match s.sema.tryDown with
    | (true, sema) => some { s with sema := sema, downs := s.downs + 1 }
    | (false, sema) => some { s with sema := sema }
  | .semaUp =>
    match s.sema.up with
    | (none, sema) => some { s with sema := sema, ups := s.ups + 1 }
    | (some w, sema) =>
      if s.phase w = .blocked then
        some { s with
          sema := sema
          phase := update s.phase w .woken
          ups := s.ups + 1 }
      else none

def Fits (v : Nat) (s : State τ) : Act τ → Prop
  | .semaUp => v + s.ups + 1 < s.downs + 2 ^ 32
  | _ => True

structure Inv (v : Nat) (s : State τ) : Prop where
  conserved : s.sema.value + s.downs = v + s.ups
  small : s.sema.value < 2 ^ 32
  nodup : s.sema.waiters.Nodup
  blocked : ∀ t, t ∈ s.sema.waiters ↔ s.phase t = .blocked
  woken : ∃ W : Finset τ, (∀ t, t ∈ W ↔ s.phase t = .woken) ∧
    (s.sema.waiters ≠ [] → s.sema.value ≤ W.card)

variable {v : Nat} {s s' : State τ}

omit [DecidableEq τ] in
theorem inv_start (lt : v < 2 ^ 32) : Inv v (start v : State τ) where
  conserved := rfl
  small := lt
  nodup := List.nodup_nil
  blocked t := by simp [start, semaInit]
  woken := ⟨∅, fun t => by simp [start], fun h => absurd rfl h⟩

theorem Inv.test (inv : Inv v s) {t : τ} (here : s.phase t ≠ .blocked) : Inv v (s.test t) := by
  obtain ⟨W, mem, le⟩ := inv.woken
  have conserved := inv.conserved
  have small := inv.small
  have absent : t ∉ s.sema.waiters := fun h => here ((inv.blocked t).mp h)
  have others : ∀ p u, p ≠ .woken → (u ∈ W.erase t ↔ update s.phase t p u = .woken) := by
    intro p u ne
    rw [Finset.mem_erase, mem]
    by_cases same : u = t
    · simp [same, ne]
    · simp [same]
  rcases s.sema.down_cases t with ⟨zero, down⟩ | ⟨pos, down⟩
  · simp only [State.test, down]
    refine ⟨conserved, small, ?_, fun u => ?_, W.erase t, fun u => others _ u (by decide), ?_⟩
    · simpa using inv.nodup.concat absent
    · rw [List.mem_append, List.mem_singleton, inv.blocked]
      by_cases same : u = t <;> simp [same]
    · intro _
      simp [zero]
  · simp only [State.test, down]
    refine ⟨by simp only; omega, by simp only; omega, inv.nodup, fun u => ?_, W.erase t,
      fun u => others _ u (by decide), fun ne => ?_⟩
    · by_cases same : u = t
      · simp [same, absent]
      · simp [same, inv.blocked]
    · have := le ne
      have := Finset.pred_card_le_card_erase (s := W) (a := t)
      simp only
      omega

theorem Inv.step (inv : Inv v s) {a : Act τ} (fits : Fits v s a) (h : step s a = some s') :
    Inv v s' := by
  cases a with
  | semaDown t =>
    simp only [Semaphore.step] at h
    split_ifs at h with out
    cases h
    exact inv.test (by simp [out])
  | resume t =>
    simp only [Semaphore.step] at h
    split_ifs at h with woken
    cases h
    exact inv.test (by simp [woken])
  | semaTryDown =>
    obtain ⟨W, mem, le⟩ := inv.woken
    have conserved := inv.conserved
    have small := inv.small
    rcases s.sema.tryDown_cases with ⟨zero, down⟩ | ⟨pos, down⟩
    · simp only [Semaphore.step, down] at h
      cases h
      exact inv
    simp only [Semaphore.step, down] at h
    cases h
    refine ⟨by simp only; omega, by simp only; omega, inv.nodup, inv.blocked, W, mem, fun ne => ?_⟩
    have := le ne
    simp only
    omega
  | semaUp =>
    obtain ⟨W, mem, le⟩ := inv.woken
    have conserved := inv.conserved
    simp only [Fits] at fits
    have value : (s.sema.value + 1) % 2 ^ 32 = s.sema.value + 1 := Nat.mod_eq_of_lt (by omega)
    cases waiters : s.sema.waiters with
    | nil =>
      simp only [Semaphore.step, Sema.up, waiters, List.head?_nil, List.tail_nil, value] at h
      cases h
      refine ⟨by simp only; omega, by simp only; omega, List.nodup_nil, fun t => ?_, W, mem,
        fun ne => absurd rfl ne⟩
      rw [← waiters]
      exact inv.blocked t
    | cons w ws =>
      have nodup := inv.nodup
      have asleep := (inv.blocked w).mp (by simp [waiters])
      simp only [Semaphore.step, Sema.up, waiters, List.head?_cons, List.tail_cons, value,
        asleep, if_true] at h
      cases h
      rw [waiters, List.nodup_cons] at nodup
      refine ⟨by simp only; omega, by simp only; omega, nodup.2, fun t => ?_, insert w W,
        fun t => ?_, fun _ => ?_⟩
      · have old := inv.blocked t
        rw [waiters, List.mem_cons] at old
        by_cases same : t = w
        · simp [same, nodup.1]
        · simpa [same] using old
      · rw [Finset.mem_insert, mem]
        by_cases same : t = w <;> simp [same]
      · have fresh : w ∉ W := fun h => by
          have := (mem w).mp h
          simp [asleep] at this
        have := le (by simp [waiters])
        rw [Finset.card_insert_of_notMem fresh]
        simp only
        omega

theorem Inv.semaUp_isSome (inv : Inv v s) : (Semaphore.step s .semaUp).isSome := by
  cases waiters : s.sema.waiters with
  | nil => simp [Semaphore.step, Sema.up, waiters]
  | cons w ws =>
    have asleep := (inv.blocked w).mp (by simp [waiters])
    simp [Semaphore.step, Sema.up, waiters, asleep]

/-- Units are conserved and no wake-up is lost: while threads wait, at most as many
units are there as woken threads that have not tested the value yet. -/
theorem semaphore_conserved (lt : v < 2 ^ 32) {s : State τ}
    (h : Reachable (start v) step (Fits v) s) :
    s.sema.value + s.downs = v + s.ups ∧
      (∃ W : Finset τ, (∀ t, t ∈ W ↔ s.phase t = .woken) ∧
        (s.sema.waiters ≠ [] → s.sema.value ≤ W.card)) ∧
      ((∀ t, s.phase t ≠ .woken) → s.sema.waiters ≠ [] → s.sema.value = 0) := by
  have inv : Inv v s := h.invariant (inv_start lt) fun _ _ _ inv fits taken => inv.step fits taken
  refine ⟨inv.conserved, inv.woken, fun none waiting => ?_⟩
  obtain ⟨W, mem, le⟩ := inv.woken
  have empty : W = ∅ := Finset.eq_empty_of_forall_notMem fun t ht => none t ((mem t).mp ht)
  have := le waiting
  rw [empty, Finset.card_empty] at this
  omega

theorem semaphore_conserved_stolen : ∃ s : State Bool,
    Reachable (start 0) step (Fits 0) s ∧ s.phase true = .woken ∧
      s.sema.value + s.downs = 0 + s.ups ∧
      (∃ W : Finset Bool, (∀ t, t ∈ W ↔ s.phase t = .woken) ∧
        (s.sema.waiters ≠ [] → s.sema.value ≤ W.card)) ∧
      ((∀ t, s.phase t ≠ .woken) → s.sema.waiters ≠ [] → s.sema.value = 0) := by
  have init : Reachable (start 0 : State Bool) step (Fits 0) (start 0) := .start
  have block := init.next (a := Act.semaDown true) True.intro rfl
  have wake := block.next (a := Act.semaUp) (show 0 + 0 + 1 < 0 + 2 ^ 32 by decide) rfl
  have steal := wake.next (a := Act.semaTryDown) True.intro rfl
  exact ⟨_, steal, rfl, semaphore_conserved (by decide) steal⟩

end Pintos.Semaphore
