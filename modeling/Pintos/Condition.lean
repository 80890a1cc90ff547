import Pintos.Monitor

/-! The condition variable of the monitor. It sees only what each thread is doing with
it, and its list is touched by the holder of the lock alone. -/

namespace Pintos.Monitor
open Transition Semaphore Function

variable {τ : Type} [DecidableEq τ] {s s' : State τ} {t : τ}

inductive Role (τ : Type) where
  | outside
  /-- In `cond_wait`, before the semaphore in its frame is initialised. -/
  | fresh
  | ready
  /-- On the list, or removed from it, and not past its own `sema_down`. -/
  | queued
  | asleep
  | passed
  | calling (all : Bool)
  | popping (all : Bool)
  | raising (all : Bool) (w : τ)
  | signalled
  | broadcasted
  | failed

def role : Pc τ → Role τ
  | .waitAssert | .waitInit => .fresh
  | .waitPush => .ready
  | .releaseAssert true | .releaseHolder true | .releaseUp true | .waitDown => .queued
  | .waitBlocked => .asleep
  | .acquireAssert true | .acquireDown true | .acquireBlocked true | .acquireHolder true
  | .waitReturn => .passed
  | .signalAssert all | .signalTest all => .calling all
  | .broadcastTest => .calling true
  | .signalPop all => .popping all
  | .signalUp all w => .raising all w
  | .signalReturn => .signalled
  | .broadcastReturn => .broadcasted
  | .failed => .failed
  | _ => .outside

def Role.waiting : Role τ → Bool
  | .fresh | .ready | .queued | .asleep | .passed => true
  | _ => false

/-- Where the waiters not yet signalled are, as seen by the holder of the lock. -/
def Order (waiters entered : List τ) (t : τ) : Role τ → Prop
  | .raising _ w => entered = w :: waiters
  | .fresh | .ready => entered = waiters ++ [t]
  | _ => entered = waiters

/-- The semaphore in the frame of a waiter counts its signal until it is consumed. -/
def Frame (t : τ) (marks : Nat) (sema : Sema τ) : Role τ → Prop
  | .fresh => marks = 0
  | .ready => marks = 0 ∧ sema.value = 0 ∧ sema.waiters = []
  | .queued => sema.value = marks ∧ marks ≤ 1 ∧ sema.waiters = []
  | .asleep => sema.value = marks ∧ marks = 0 ∧ sema.waiters = [t]
  | .passed => marks = 1
  | .failed => False
  | _ => True

/-- The waiters of a `cond_signal` or `cond_broadcast` are those it has signalled, in
order, and then those still to be signalled. -/
def Called (waiters entered issued hits : List τ) : Role τ → Prop
  | .calling all | .raising all _ => issued = hits ++ entered ∧ (all = false → hits = [])
  | .popping all => (issued = hits ++ entered ∧ (all = false → hits = [])) ∧ waiters ≠ []
  | .signalled => hits = issued.take 1
  | .broadcasted => hits = issued
  | _ => True

structure CondInv (s : State τ) : Prop where
  free : s.holder = none → s.entered = s.waiters
  order : ∀ t, s.holder = some t → Order s.waiters s.entered t (role (s.pc t))
  nodup : s.entered.Nodup
  unmarked : ∀ t, t ∈ s.entered ↔ (role (s.pc t)).waiting = true ∧ s.marks t = 0
  frame : ∀ t, Frame t (s.marks t) (s.waiterSema t) (role (s.pc t))
  called : ∀ t, Called s.waiters s.entered (s.issued t) (s.hits t) (role (s.pc t))

/-- What the holder of the lock finds, in its role. -/
structure Sees (s : State τ) (t : τ) (r : Role τ) : Prop where
  order : Order s.waiters s.entered t r
  unmarked : t ∈ s.entered ↔ r.waiting = true ∧ s.marks t = 0
  frame : Frame t (s.marks t) (s.waiterSema t) r
  called : Called s.waiters s.entered (s.issued t) (s.hits t) r

omit [DecidableEq τ] in
theorem called_of_not_owner {p : Pc τ} (h : stage p ≠ .owner) (waiters entered issued hits : List τ) :
    Called waiters entered issued hits (role p) := by
  cases p with
  | releaseAssert wait | releaseHolder wait | releaseUp wait | acquireAssert wait
  | acquireDown wait | acquireBlocked wait | acquireHolder wait => cases wait <;> trivial
  | signalAssert | signalTest | signalPop | signalUp | signalReturn | broadcastTest
  | broadcastReturn => simp [stage] at h
  | _ => trivial

omit [DecidableEq τ] in
theorem CondInv.refocus (inv : CondInv s) (holder : s'.holder = s.holder)
    (waiters : s'.waiters = s.waiters) (waiterSema : s'.waiterSema = s.waiterSema)
    (entered : s'.entered = s.entered) (marks : s'.marks = s.marks) (issued : s'.issued = s.issued)
    (hits : s'.hits = s.hits) (roles : ∀ u, role (s'.pc u) = role (s.pc u)) : CondInv s' := by
  obtain ⟨free, order, nodup, unmarked, frame, called⟩ := inv
  constructor <;> simpa only [holder, waiters, waiterSema, entered, marks, issued, hits, roles]

theorem roles_go {p : Pc τ} (same : role p = role (s.pc t)) (u : τ) :
    role ((s.go t p).pc u) = role (s.pc u) := by
  rw [go_pc]
  split_ifs with h
  · rw [h, same]
  · rfl

theorem CondInv.setHolder (inv : CondInv s) {p : Pc τ} {holder : Option τ}
    (same : role p = role (s.pc t)) (synced : s.entered = s.waiters)
    (plain : holder = some t ∧ Order s.waiters s.entered t (role p) ∨ holder = none) :
    CondInv ({ s with holder := holder }.go t p) := by
  have roles := roles_go same
  refine ⟨fun _ => synced, fun u held => ?_, inv.nodup, fun u => ?_, fun u => ?_, fun u => ?_⟩
  · rcases plain with ⟨set, order⟩ | clear
    · have this : u = t := by simpa [State.go, set] using held.symm
      rw [go_pc, if_pos this, this]
      exact order
    · simp [State.go, clear] at held
  · have old := inv.unmarked u
    rw [← roles] at old
    exact old
  · have old := inv.frame u
    rw [← roles] at old
    exact old
  · have old := inv.called u
    rw [← roles] at old
    exact old

omit [DecidableEq τ] in
theorem CondInv.own (inv : CondInv s) (lock : LockInv s) (own : stage (s.pc t) = .owner)
    (holder : s'.holder = s.holder)
    (others : ∀ u, u ≠ t → s'.pc u = s.pc u ∧ s'.waiterSema u = s.waiterSema u ∧
      s'.marks u = s.marks u ∧ (u ∈ s'.entered ↔ u ∈ s.entered))
    (nodup : s'.entered.Nodup) (sees : Sees s' t (role (s'.pc t))) : CondInv s' := by
  have held : s.holder = some t := (lock.holder t).mpr own
  refine ⟨fun h => ?_, fun u h => ?_, nodup, fun u => ?_, fun u => ?_, fun u => ?_⟩
  · simp [holder, held] at h
  · rw [holder, held, Option.some_inj] at h
    exact h ▸ sees.order
  all_goals by_cases same : u = t
  · exact same ▸ sees.unmarked
  · obtain ⟨pc, _, marks, entered⟩ := others u same
    rw [entered, pc, marks]
    exact inv.unmarked u
  · exact same ▸ sees.frame
  · obtain ⟨pc, sema, marks, _⟩ := others u same
    rw [pc, sema, marks]
    exact inv.frame u
  · exact same ▸ sees.called
  · rw [(others u same).1]
    refine called_of_not_owner (fun owner => same ?_) _ _ _ _
    have other := (lock.holder u).mpr owner
    rw [held, Option.some_inj] at other
    exact other.symm

theorem CondInv.privateDown (inv : CondInv s) (lock : LockInv s) (here : s.pc t = .waitDown)
    {p : Pc τ} {sema : Sema τ} (outside : stage p = .away) (waiting : (role p).waiting = true)
    (frame : Frame t (s.marks t) sema (role p)) :
    CondInv ({ s with waiterSema := update s.waiterSema t sema }.go t p) := by
  refine ⟨inv.free, fun u held => ?_, inv.nodup, fun u => ?_, fun u => ?_, fun u => ?_⟩
  all_goals rw [go_pc]; split_ifs with same
  · have owner := (lock.holder u).mp held
    rw [same, here] at owner
    cases owner
  · exact inv.order u held
  · have old := inv.unmarked u
    rw [same, here] at old
    rw [same, waiting]
    exact old
  · exact inv.unmarked u
  · subst same
    simpa [State.go] using frame
  · simpa [State.go, same] using inv.frame u
  · exact called_of_not_owner (by simp [outside]) _ _ _ _
  · exact inv.called u

omit [DecidableEq τ] in
/-- A thread on the list is past `lock_release`'s assignment to `holder`. -/
theorem CondInv.waiter_role (inv : CondInv s) (lock : LockInv s) (own : stage (s.pc t) = .owner)
    {w : τ} (other : w ≠ t) (there : w ∈ s.entered) :
    s.marks w = 0 ∧ (role (s.pc w) = .queued ∨ role (s.pc w) = .asleep ∧ s.pc w = .waitBlocked) := by
  obtain ⟨waiting, zero⟩ := (inv.unmarked w).mp there
  have frame := inv.frame w
  have notOwner : stage (s.pc w) ≠ .owner := fun h =>
    other (lock.inside_unique (by simp [own, Stage.inside]) (by simp [h, Stage.inside]))
  refine ⟨zero, ?_⟩
  cases pc : s.pc w with
  | releaseUp wait => cases wait <;> simp_all [role, Role.waiting]
  | releaseAssert | releaseHolder => simp [pc, stage] at notOwner
  | acquireAssert wait | acquireDown wait | acquireBlocked wait | acquireHolder wait =>
    cases wait <;> simp_all [role, Role.waiting, Frame]
  | _ => simp_all [role, Role.waiting, stage]

theorem CondInv.unblock_waiter (inv : CondInv s) (lock : LockInv s) (own : stage (s.pc t) = .owner)
    {w : τ} (other : w ≠ t) (there : w ∈ s.entered) (base : State τ) (pc : base.pc = s.pc)
    (p : Pc τ) : (s.waiterSema w).up.2 = ⟨1, []⟩ ∧ ∃ q, role q = .queued ∧
    stage q = stage (s.pc w) ∧ base.unblock t (s.waiterSema w).up.1 p = (base.go w q).go t p := by
  have frame := inv.frame w
  obtain ⟨zero, queued | ⟨asleep, blocked⟩⟩ := inv.waiter_role lock own other there
  · rw [queued, zero] at frame
    obtain ⟨value, _, waiters⟩ := frame
    have self : base.go w (s.pc w) = base := by simp [State.go, ← pc]
    refine ⟨by simp [Sema.up, value, waiters], s.pc w, queued, rfl, ?_⟩
    rw [self]
    simp [Sema.up, waiters, State.unblock]
  · rw [asleep, zero] at frame
    obtain ⟨value, _, waiters⟩ := frame
    refine ⟨by simp [Sema.up, value, waiters], .waitDown, rfl, by simp [blocked, stage], ?_⟩
    simp [Sema.up, waiters, State.unblock, pc, blocked, wake]

theorem CondInv.raise (inv : CondInv s) (lock : LockInv s) {all : Bool} {w : τ}
    (here : s.pc t = .signalUp all w) {q : Pc τ} (queued : role q = .queued) (other : w ≠ t)
    (up : (s.waiterSema w).up.2 = ⟨1, []⟩) : CondInv ((({ s with
      waiterSema := update s.waiterSema w (s.waiterSema w).up.2
      entered := s.entered.erase w
      marks := update s.marks w (s.marks w + 1)
      hits := update s.hits t (s.hits t ++ [w]) } : State τ).go w q).go t
        (signalDone all)) := by
  have owner : stage (s.pc t) = .owner := by rw [here]; rfl
  have held : s.holder = some t := (lock.holder t).mpr owner
  have order := inv.order t held
  have called := inv.called t
  have nodup := inv.nodup
  simp only [here, role, Order, Called] at order called
  have zero : s.marks w = 0 := ((inv.unmarked w).mp (by simp [order])).2
  rw [order, List.nodup_cons] at nodup
  have rest : s.entered.erase w = s.waiters := by rw [order, List.erase_cons_head]
  refine ⟨fun h => ?_, fun u h => ?_, ?_, fun u => ?_, fun u => ?_, fun u => ?_⟩
  · simp [State.go, held] at h
  · have same : u = t := by simpa [State.go, held] using h.symm
    subst same
    cases all <;> simpa [State.go, signalDone, role, Order] using rest
  · exact rest ▸ nodup.2
  all_goals
    rw [go_pc, go_pc]
    split_ifs with caller waiter
  · have absent : t ∉ s.waiters := fun h => by
      have := (inv.unmarked t).mp (by simp [order, h])
      simp [here, role, Role.waiting] at this
    simp only [State.go, caller, rest, absent, false_iff]
    cases all <;> simp [signalDone, role, Role.waiting]
  · simp [State.go, waiter, rest, nodup.1]
  · have old := inv.unmarked u
    rw [order, List.mem_cons, or_iff_right waiter] at old
    simpa [State.go, rest, waiter] using old
  · cases all <;> trivial
  · simp [State.go, waiter, queued, Frame, up, zero]
  · simpa [State.go, waiter] using inv.frame u
  · subst caller
    obtain ⟨issued, single⟩ := called
    rw [order] at issued
    cases all with
    | false => simp [State.go, signalDone, role, Called, issued, single rfl]
    | true => simp [State.go, signalDone, role, Called, issued, rest]
  · simp [queued, Called]
  · refine called_of_not_owner (fun h => caller ?_) _ _ _ _
    exact lock.inside_unique (by simp [owner, Stage.inside]) (by simp [h, Stage.inside])

end Pintos.Monitor
