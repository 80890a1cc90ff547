import Pintos.Condition
import Mathlib.Data.Set.Card

/-! The runs of the monitor. Every statement keeps what the lock and the condition rely
on, so mutual exclusion holds in every state and every signal reaches one waiter. -/

namespace Pintos.Monitor
open Transition Semaphore Function
open Option (some.injEq)

variable {τ : Type} [DecidableEq τ] {s s' : State τ} {t : τ}

structure Inv (s : State τ) : Prop where
  lock : LockInv s
  cond : CondInv s

omit [DecidableEq τ] in
theorem inv_start (frames : τ → Sema τ) : Inv (start frames) where
  lock := by
    refine ⟨.inl ⟨rfl, fun _ => rfl⟩, fun t => ?_, List.nodup_nil, fun t => ?_⟩
    · simp [start, stage]
    · simp [start, semaInit, stage]
  cond := by
    refine ⟨fun _ => rfl, fun t h => ?_, List.nodup_nil, fun t => ?_, fun t => ?_, fun t => ?_⟩
    · simp [start] at h
    · simp [start, role, Role.waiting]
    · trivial
    · trivial

variable {p q : Pc τ} {all : Bool}

section Steps

variable (inv : Inv s) (here : s.pc t = q)
include inv here

theorem Inv.move (stages : stage p = stage q) (roles : role p = role q) : Inv (s.go t p) := by
  subst here
  exact ⟨inv.lock.move stages rfl rfl rfl,
    inv.cond.refocus rfl rfl rfl rfl rfl rfl rfl (roles_go roles)⟩

theorem Inv.assertHeld {held : Bool} (right : held = true ↔ stage q = .owner)
    (stages : stage p = stage q) (roles : role p = role q) : Inv (s.assertHeld t held p) := by
  have holds : decide (s.holder = some t) = held := by
    rw [Bool.eq_iff_iff, right, decide_eq_true_iff, inv.lock.holder, here]
  rw [State.assertHeld, if_pos holds]
  exact inv.move here stages roles

omit [DecidableEq τ] in
theorem Inv.sees (own : stage q = .owner) : Sees s t (role q) := by
  subst here
  exact ⟨inv.cond.order t ((inv.lock.holder t).mpr own), inv.cond.unmarked t, inv.cond.frame t,
    inv.cond.called t⟩

theorem Inv.own (own : stage q = .owner) (still : stage p = .owner) {r : State τ}
    (same : r.pc = s.pc ∧ r.holder = s.holder ∧ r.sema = s.sema)
    (others : ∀ u, u ≠ t → r.waiterSema u = s.waiterSema u ∧ r.marks u = s.marks u ∧
      (u ∈ r.entered ↔ u ∈ s.entered))
    (nodup : r.entered.Nodup) (sees : Sees r t (role p)) : Inv (r.go t p) := by
  subst here
  obtain ⟨pc, holder, sema⟩ := same
  refine ⟨inv.lock.move (t := t) (p := p) (still.trans own.symm) holder sema (by simp [State.go, pc]),
    inv.cond.own inv.lock own holder (fun u ne => ⟨?_, others u ne⟩) nodup ?_⟩
  · rw [go_pc, if_neg ne, pc]
  · rw [go_pc, if_pos rfl]
    exact ⟨sees.order, sees.unmarked, sees.frame, sees.called⟩

theorem Inv.pass (own : stage q = .owner) (still : stage p = .owner) {r : State τ}
    (same : r.pc = s.pc ∧ r.holder = s.holder ∧ r.sema = s.sema ∧ r.waiterSema = s.waiterSema ∧
      r.marks = s.marks ∧ r.entered = s.entered) (sees : Sees r t (role p)) : Inv (r.go t p) := by
  obtain ⟨pc, holder, sema, frames, marks, entered⟩ := same
  refine inv.own here own still ⟨pc, holder, sema⟩ (fun u _ => ?_) ?_ sees
  · rw [frames, marks, entered]
    exact ⟨rfl, rfl, Iff.rfl⟩
  · rw [entered]
    exact inv.cond.nodup

end Steps

omit [DecidableEq τ] in
theorem role_wake (queued : stage p = .queued) (woken : wake p = some q) : role q = role p := by
  cases p <;> simp [stage] at queued
  cases woken
  rename_i wait
  cases wait <;> rfl

section

variable (inv : Inv s)
include inv

theorem Inv.releaseUp {wait : Bool} (here : s.pc t = .releaseUp wait) :
    Inv ({ s with sema := s.sema.up.2 }.unblock t s.sema.up.1
      (if wait then .waitDown else .idle)) := by
  refine ⟨inv.lock.up (by rw [here]; rfl) (by cases wait <;> rfl), ?_⟩
  have last : role (if wait then .waitDown else .idle) = role (s.pc t) := by
    rw [here]; cases wait <;> rfl
  cases waiters : s.sema.waiters with
  | nil =>
    simp only [Sema.up, waiters, List.head?_nil, State.unblock]
    exact inv.cond.refocus rfl rfl rfl rfl rfl rfl rfl (roles_go (s := s) last)
  | cons w ws =>
    have queued := (inv.lock.queued w).mp (by simp [waiters])
    obtain ⟨q, woken, _⟩ := wake_of_queued queued
    have ne : t ≠ w := fun h => by simp [← h, here, stage] at queued
    simp only [Sema.up, waiters, List.head?_cons, State.unblock, woken]
    refine inv.cond.refocus rfl rfl rfl rfl rfl rfl rfl fun u => ?_
    rw [roles_go (by rw [go_pc, if_neg ne]; exact last)]
    exact roles_go (s := s) (role_wake queued woken) u

theorem Inv.waitDown (here : s.pc t = .waitDown) (h : s.exec t = some s') : Inv s' := by
  have frame := inv.cond.frame t
  rw [here] at frame
  obtain ⟨value, le, waiters⟩ := frame
  have away : stage (s.pc t) = .away := by rw [here]; rfl
  rcases (s.waiterSema t).down_cases t with ⟨zero, down⟩ | ⟨pos, down⟩
  all_goals
    simp only [State.exec, here, down, some.injEq] at h
    subst h
    refine ⟨inv.lock.move (t := t) (away ▸ rfl) rfl rfl rfl,
      inv.cond.privateDown inv.lock here rfl rfl ?_⟩
  · exact ⟨value, value.symm.trans zero, by simp [waiters]⟩
  · exact show s.marks t = 1 by omega

theorem Inv.signalTest (here : s.pc t = .signalTest all) :
    Inv (s.go t (if s.waiters.isEmpty then signalDone all else .signalPop all)) := by
  obtain ⟨order, unmarked, -, called⟩ := inv.sees here rfl
  split_ifs with empty
  · have none : s.entered = [] := order.trans (List.isEmpty_iff.mp empty)
    cases all with
    | false =>
      refine inv.pass here rfl rfl ⟨rfl, rfl, rfl, rfl, rfl, rfl⟩ ⟨order, unmarked, trivial, ?_⟩
      have issued := called.1
      rw [none, List.append_nil] at issued
      rw [show s.issued t = [] from issued.trans (called.2 rfl)]
      exact called.2 rfl
    | true =>
      exact inv.pass here rfl rfl ⟨rfl, rfl, rfl, rfl, rfl, rfl⟩ ⟨order, unmarked, trivial, called⟩
  · exact inv.pass here rfl rfl ⟨rfl, rfl, rfl, rfl, rfl, rfl⟩
      ⟨order, unmarked, trivial, called, by simpa using empty⟩

theorem Inv.signalPop (here : s.pc t = .signalPop all) (h : s.exec t = some s') : Inv s' := by
  obtain ⟨order, unmarked, -, called, filled⟩ := inv.sees here rfl
  obtain ⟨w, rest, waiters⟩ := List.exists_cons_of_ne_nil filled
  simp only [State.exec, here, waiters, some.injEq] at h
  subst h
  exact inv.pass here rfl rfl ⟨rfl, rfl, rfl, rfl, rfl, rfl⟩
    ⟨order.trans waiters, unmarked, trivial, called⟩

theorem Inv.signalUp {w : τ} (here : s.pc t = .signalUp all w) (h : s.exec t = some s') :
    Inv s' := by
  have own : stage (s.pc t) = .owner := by rw [here]; rfl
  have order := (inv.sees here rfl).order
  have there : w ∈ s.entered := by rw [show s.entered = w :: s.waiters from order]; simp
  have other : w ≠ t := fun same => by
    have waiting := ((inv.cond.unmarked w).mp there).1
    simp [same, here, role, Role.waiting] at waiting
  simp only [State.exec, here, some.injEq] at h
  obtain ⟨up, q, queued, stages, unblock⟩ := inv.cond.unblock_waiter inv.lock own other there
    { s with
      waiterSema := update s.waiterSema w (s.waiterSema w).up.2
      entered := s.entered.erase w
      marks := update s.marks w (s.marks w + 1)
      hits := update s.hits t (s.hits t ++ [w]) } rfl (signalDone all)
  rw [unblock] at h
  subst h
  refine ⟨inv.lock.frame rfl rfl fun u => ?_, inv.cond.raise inv.lock here queued other up⟩
  rw [go_pc, go_pc]
  split_ifs with caller waiter
  · rw [caller, own]
    cases all <;> rfl
  · rw [waiter, stages]
  · rfl

theorem Inv.broadcastTest (here : s.pc t = .broadcastTest) :
    Inv (s.go t (if s.waiters.isEmpty then .broadcastReturn else .signalAssert true)) := by
  obtain ⟨order, unmarked, -, called⟩ := inv.sees here rfl
  split_ifs with empty
  · refine inv.pass here rfl rfl ⟨rfl, rfl, rfl, rfl, rfl, rfl⟩ ⟨order, unmarked, trivial, ?_⟩
    have issued := called.1
    rw [show s.entered = [] from order.trans (List.isEmpty_iff.mp empty), List.append_nil] at issued
    exact issued.symm
  · exact inv.move here rfl rfl

theorem Inv.exec (h : s.exec t = some s') : Inv s' := by
  cases here : s.pc t
  case waitDown => exact inv.waitDown here h
  case signalPop => exact inv.signalPop here h
  case signalUp => exact inv.signalUp here h
  case acquireDown wait =>
    have same : ∀ p : Pc τ, role p = role (.acquireDown wait) → role p = role (s.pc t) :=
      fun p e => e.trans (by rw [here])
    rcases s.sema.down_cases t with ⟨_, down⟩ | ⟨pos, down⟩
    all_goals
      simp only [State.exec, here, down, some.injEq] at h
      subst h
      refine ⟨?_, inv.cond.refocus rfl rfl rfl rfl rfl rfl rfl
        (roles_go (s := s) (same _ (by cases wait <;> rfl)))⟩
    · exact inv.lock.block (by rw [here]; rfl) rfl
    · exact inv.lock.pass (by rw [here]; rfl) rfl pos
  case tryDown =>
    rcases s.sema.tryDown_cases with ⟨_, down⟩ | ⟨pos, down⟩
    all_goals
      simp only [State.exec, here, down, some.injEq] at h
      subst h
    · exact inv.move here rfl rfl
    · exact ⟨inv.lock.pass (by rw [here]; rfl) rfl pos,
        inv.cond.refocus rfl rfl rfl rfl rfl rfl rfl (roles_go (s := s) (by rw [here]; rfl))⟩
  all_goals
    simp only [State.exec, here, some.injEq, reduceCtorEq] at h
    try subst h
  case acquireAssert wait => exact inv.assertHeld here (by simp [stage]) rfl (by cases wait <;> rfl)
  case releaseAssert wait => exact inv.assertHeld here (by simp [stage]) rfl (by cases wait <;> rfl)
  case tryAssert | waitAssert | signalAssert => exact inv.assertHeld here (by simp [stage]) rfl rfl
  case acquireHolder wait =>
    have taken : stage (s.pc t) = .taken := by rw [here]; rfl
    have synced := inv.cond.free (inv.lock.holder_none taken)
    refine ⟨inv.lock.setHolder (by simp [taken, Stage.inside]) (.inl ⟨rfl, ?_⟩),
      inv.cond.setHolder ?_ synced (.inl ⟨rfl, ?_⟩)⟩
    · cases wait <;> rfl
    · rw [here]; cases wait <;> rfl
    · cases wait <;> exact synced
  case tryHolder =>
    have taken : stage (s.pc t) = .taken := by rw [here]; rfl
    have synced := inv.cond.free (inv.lock.holder_none taken)
    exact ⟨inv.lock.setHolder (by simp [taken, Stage.inside]) (.inl ⟨rfl, rfl⟩),
      inv.cond.setHolder (by rw [here]; rfl) synced (.inl ⟨rfl, synced⟩)⟩
  case releaseHolder wait =>
    have synced := (inv.sees here rfl).order
    refine ⟨inv.lock.setHolder (by simp [here, stage, Stage.inside]) (.inr ⟨rfl, rfl⟩),
      inv.cond.setHolder ?_ ?_ (.inr rfl)⟩
    · rw [here]; cases wait <;> rfl
    · cases wait <;> exact synced
  case releaseUp => exact inv.releaseUp here
  case waitInit =>
    obtain ⟨order, unmarked, frame, -⟩ := inv.sees here rfl
    exact inv.own here rfl rfl ⟨rfl, rfl, rfl⟩ (fun u ne => ⟨update_of_ne ne _ _, rfl, Iff.rfl⟩)
      inv.cond.nodup ⟨order, unmarked, ⟨frame, by simp [semaInit]⟩, trivial⟩
  case waitPush =>
    obtain ⟨order, unmarked, ⟨marks, value, waiters⟩, -⟩ := inv.sees here rfl
    exact inv.pass here rfl rfl ⟨rfl, rfl, rfl, rfl, rfl, rfl⟩
      ⟨order, unmarked, ⟨value.trans marks.symm, marks.le.trans (by decide), waiters⟩, trivial⟩
  case waitReturn =>
    obtain ⟨order, unmarked, marked, -⟩ := inv.sees here rfl
    refine inv.pass here rfl rfl ⟨rfl, rfl, rfl, rfl, rfl, rfl⟩
      ⟨order, iff_of_false (fun mem => ?_) (fun w => (by cases w.1)), trivial, trivial⟩
    exact absurd (marked.symm.trans (unmarked.mp mem).2) (by decide)
  case signalTest => exact inv.signalTest here
  case broadcastTest => exact inv.broadcastTest here
  case signalReturn | broadcastReturn =>
    obtain ⟨order, unmarked, -, -⟩ := inv.sees here rfl
    exact inv.pass here rfl rfl ⟨rfl, rfl, rfl, rfl, rfl, rfl⟩ ⟨order, unmarked, trivial, trivial⟩

theorem Inv.condWait (here : s.pc t = .holding) : Inv ((s.enter t).go t .waitAssert) := by
  obtain ⟨order, unmarked, -, -⟩ := inv.sees here rfl
  have absent : t ∉ s.entered := fun mem => by cases (unmarked.mp mem).1
  refine inv.own here rfl rfl ⟨rfl, rfl, rfl⟩ (fun u ne => ?_) ?_ ⟨?_, ?_, ?_, trivial⟩
  · exact ⟨rfl, by simp [State.enter, ne], by simp [State.enter, ne]⟩
  · simpa [State.enter] using inv.cond.nodup.concat absent
  · exact congrArg (· ++ [t]) order
  · simp [State.enter, role, Role.waiting]
  · simp [State.enter, role, Frame]

theorem Inv.issue (here : s.pc t = .holding) (stages : stage p = .owner)
    (roles : role p = .calling all) : Inv ((s.issue t).go t p) := by
  obtain ⟨order, unmarked, -, -⟩ := inv.sees here rfl
  refine inv.pass here rfl stages ⟨rfl, rfl, rfl, rfl, rfl, rfl⟩ ?_
  rw [roles]
  exact ⟨order, unmarked, trivial, by simp [State.issue, Called]⟩

theorem Inv.call {c : Call} (h : s.call t c = some s') : Inv s' := by
  unfold State.call at h
  split at h
  case h_7 => cases h
  all_goals
    rename_i here
    cases h
  · exact inv.move here rfl rfl
  · exact inv.move here rfl rfl
  · exact inv.move here rfl rfl
  · exact inv.condWait here
  · exact inv.issue here rfl rfl
  · exact inv.issue here rfl rfl

end

theorem inv_reachable {frames : τ → Sema τ}
    (h : Reachable (start frames) step (fun _ _ => True) s) : Inv s := by
  refine h.invariant (inv_start frames) fun s a s' inv _ taken => ?_
  cases a with
  | call t c => exact inv.call taken
  | run t => exact inv.exec taken

omit [DecidableEq τ] in
theorem Inv.not_failed (inv : Inv s) (t : τ) : s.pc t ≠ .failed := fun failed => by
  have frame := inv.cond.frame t
  rw [failed] at frame
  exact frame

/-- The semaphore has one unit less than threads past `sema_down` or `sema_try_down` and
before the matching `sema_up`. There is at most one of them, `holder` names no other
thread, and no assertion fails. -/
theorem lock_exclusive {frames : τ → Sema τ}
    (h : Reachable (start frames) step (fun _ _ => True) s) :
    (∀ t u, (stage (s.pc t)).inside = true → (stage (s.pc u)).inside = true → u = t) ∧
      (s.sema.value : ℕ∞) + Set.encard {t | (stage (s.pc t)).inside = true} = 1 ∧
      (∀ t, s.holder = some t → (stage (s.pc t)).inside = true) ∧
      ∀ t, s.pc t ≠ .failed := by
  have inv := inv_reachable h
  refine ⟨fun t u => inv.lock.inside_unique, ?_, fun t held => ?_, inv.not_failed⟩
  · rcases inv.lock.value with ⟨one, none⟩ | ⟨zero, t, only⟩
    · simp [one, none]
    · simp [zero, only]
  · rw [(inv.lock.holder t).mp held]
    rfl

theorem lock_exclusive_contended : ∃ s : State Bool,
    Reachable (start fun _ => semaInit 0) step (fun _ _ => True) s ∧
      s.pc true = .holding ∧ s.pc false = .acquireBlocked false ∧
      (∀ t u, (stage (s.pc t)).inside = true → (stage (s.pc u)).inside = true → u = t) ∧
      (s.sema.value : ℕ∞) + Set.encard {t | (stage (s.pc t)).inside = true} = 1 ∧
      (∀ t, s.holder = some t → (stage (s.pc t)).inside = true) ∧
      ∀ t, s.pc t ≠ .failed := by
  have init : Reachable (start fun _ : Bool => semaInit 0) step (fun _ _ => True) _ := .start
  have reached := init.run
      [.call true .lockAcquire, .run true, .run true, .run true,
        .call false .lockAcquire, .run false, .run false]
    (fun _ _ _ => True.intro) rfl
  exact ⟨_, reached, rfl, rfl, lock_exclusive reached⟩

/-- No signal is lost or invented. `issued` are the threads in `cond_wait` that no signal
had reached when the call was made, in the order in which they entered. A signal that
reaches a thread before it sleeps is found in its semaphore. -/
theorem cond_signals {frames : τ → Sema τ}
    (h : Reachable (start frames) step (fun _ _ => True) s) (t : τ) :
    (s.pc t = .signalReturn → s.hits t = (s.issued t).take 1) ∧
      (s.pc t = .broadcastReturn → s.hits t = s.issued t) ∧
      (s.pc t = .waitReturn → s.marks t = 1 ∧ s.holder = some t) ∧
      (t ∈ s.entered ↔ (role (s.pc t)).waiting = true ∧ s.marks t = 0) ∧
      (role (s.pc t) = .queued → (s.waiterSema t).value = s.marks t) ∧
      (s.pc t = .waitBlocked → s.marks t = 0) ∧
      s.pc t ≠ .failed := by
  have inv := inv_reachable h
  have called := inv.cond.called t
  have frame := inv.cond.frame t
  refine ⟨fun here => ?_, fun here => ?_, fun here => ?_, inv.cond.unmarked t,
    fun here => ?_, fun here => ?_, inv.not_failed t⟩
  · rw [here] at called
    exact called
  · rw [here] at called
    exact called
  · rw [here] at frame
    exact ⟨frame, (inv.lock.holder t).mpr (by rw [here]; rfl)⟩
  · rw [here] at frame
    exact frame.1
  · rw [here] at frame
    exact frame.2.1

/-- A waiter is signalled after it has released the lock and before it sleeps. -/
theorem cond_signals_early : ∃ s : State Bool,
    Reachable (start fun _ => semaInit 0) step (fun _ _ => True) s ∧
      s.pc true = .waitDown ∧ s.marks true = 1 ∧ s.pc false = .signalReturn ∧
      ∀ t, (s.pc t = .signalReturn → s.hits t = (s.issued t).take 1) ∧
        (s.pc t = .broadcastReturn → s.hits t = s.issued t) ∧
        (s.pc t = .waitReturn → s.marks t = 1 ∧ s.holder = some t) ∧
        (t ∈ s.entered ↔ (role (s.pc t)).waiting = true ∧ s.marks t = 0) ∧
        (role (s.pc t) = .queued → (s.waiterSema t).value = s.marks t) ∧
        (s.pc t = .waitBlocked → s.marks t = 0) ∧
        s.pc t ≠ .failed := by
  have init : Reachable (start fun _ : Bool => semaInit 0) step (fun _ _ => True) _ := .start
  have reached := init.run
      [.call true .lockAcquire, .run true, .run true, .run true, .call true .condWait, .run true,
        .run true, .run true, .run true, .run true, .run true, .call false .lockAcquire,
        .run false, .run false, .run false, .call false .condSignal, .run false, .run false,
        .run false, .run false]
    (fun _ _ _ => True.intro) rfl
  exact ⟨_, reached, rfl, rfl, rfl, cond_signals reached⟩

end Pintos.Monitor
