import Pintos.Semaphore

/-! One lock and one condition variable, used by any number of threads. Every statement
of `lock_acquire`, `lock_try_acquire`, `lock_release`, `cond_wait`, `cond_signal` and
`cond_broadcast` is a step, so a thread may be preempted between any two of them; a
semaphore operation is a single step up to the point where it blocks. A thread calls
`lock_release` and the operations on the condition only with the lock it acquired, and
the acquiring operations only without it. -/

namespace Pintos.Monitor
open Transition Semaphore Function

/-- The next statement of a thread. The flag of a statement of `lock_acquire` or
`lock_release` is set in the calls that `cond_wait` makes, the flag of a statement of
`cond_signal` in those that `cond_broadcast` makes. -/
inductive Pc (τ : Type) where
  | idle
  | holding
  | acquireAssert (wait : Bool)
  | acquireDown (wait : Bool)
  | acquireBlocked (wait : Bool)
  | acquireHolder (wait : Bool)
  | tryAssert
  | tryDown
  | tryHolder
  | releaseAssert (wait : Bool)
  | releaseHolder (wait : Bool)
  | releaseUp (wait : Bool)
  | waitAssert
  | waitInit
  | waitPush
  | waitDown
  | waitBlocked
  | waitReturn
  | signalAssert (all : Bool)
  | signalTest (all : Bool)
  | signalPop (all : Bool)
  | signalUp (all : Bool) (w : τ)
  | signalReturn
  | broadcastTest
  | broadcastReturn
  | failed

/-- The fields after `pc` do not exist in the kernel. They record the threads that
entered `cond_wait` and were not signalled, in the order of entry; how often each was
signalled since it entered; and for each thread, of its last `cond_signal` or
`cond_broadcast`, the threads to be signalled at the call and those it signalled. -/
structure State (τ : Type) where
  holder : Option τ
  sema : Sema τ
  waiters : List τ
  waiterSema : τ → Sema τ
  pc : τ → Pc τ
  entered : List τ
  marks : τ → Nat
  issued : τ → List τ
  hits : τ → List τ

inductive Call where
  | lockAcquire
  | lockTryAcquire
  | lockRelease
  | condWait
  | condSignal
  | condBroadcast

inductive Act (τ : Type) where
  | call (t : τ) (c : Call)
  | run (t : τ)

variable {τ : Type}

/-- After `lock_init` and `cond_init`. -/
def start (frames : τ → Sema τ) : State τ where
  holder := none
  sema := semaInit 1
  waiters := []
  waiterSema := frames
  pc _ := .idle
  entered := []
  marks _ := 0
  issued _ := []
  hits _ := []

variable [DecidableEq τ]

def State.go (s : State τ) (t : τ) (p : Pc τ) : State τ :=
  { s with pc := update s.pc t p }

/-- `thread_unblock`: where a blocked thread goes on. -/
def wake : Pc τ → Option (Pc τ)
  | .acquireBlocked wait => some (.acquireDown wait)
  | .waitBlocked => some .waitDown
  | _ => none

/-- The end of `sema_up` by `t`, given the thread it removed from the waiters. -/
def State.unblock (s : State τ) (t : τ) (removed : Option τ) (p : Pc τ) : State τ :=
  match removed with
  | none => s.go t p
  | some w =>
    match wake (s.pc w) with
    | some q => (s.go w q).go t p
    | none => s.go t .failed

def State.assertHeld (s : State τ) (t : τ) (held : Bool) (p : Pc τ) : State τ :=
  s.go t (if decide (s.holder = some t) = held then p else .failed)

def signalDone : Bool → Pc τ
  | false => .signalReturn
  | true => .broadcastTest

/-- The next statement of `t`, unless it is outside all calls, blocked or failed. -/
def State.exec (s : State τ) (t : τ) : Option (State τ) :=
  match s.pc t with
  | .idle | .holding | .acquireBlocked _ | .waitBlocked | .failed => none
  | .acquireAssert wait => some (s.assertHeld t false (.acquireDown wait))
  | .acquireDown wait =>
    match s.sema.down t with
    | (true, sema) => some ({ s with sema := sema }.go t (.acquireHolder wait))
    | (false, sema) => some ({ s with sema := sema }.go t (.acquireBlocked wait))
  | .acquireHolder wait =>
    some ({ s with holder := some t }.go t (if wait then .waitReturn else .holding))
  | .tryAssert => some (s.assertHeld t false .tryDown)
  | .tryDown =>
    match s.sema.tryDown with
    | (true, sema) => some ({ s with sema := sema }.go t .tryHolder)
    | (false, sema) => some ({ s with sema := sema }.go t .idle)
  | .tryHolder => some ({ s with holder := some t }.go t .holding)
  | .releaseAssert wait => some (s.assertHeld t true (.releaseHolder wait))
  | .releaseHolder wait => some ({ s with holder := none }.go t (.releaseUp wait))
  | .releaseUp wait =>
    some ({ s with sema := s.sema.up.2 }.unblock t s.sema.up.1 (if wait then .waitDown else .idle))
  | .waitAssert => some (s.assertHeld t true .waitInit)
  | .waitInit =>
    some ({ s with waiterSema := update s.waiterSema t (semaInit 0) }.go t .waitPush)
  | .waitPush => some ({ s with waiters := s.waiters ++ [t] }.go t (.releaseAssert true))
  | .waitDown =>
    match (s.waiterSema t).down t with
    | (true, sema) =>
      some ({ s with waiterSema := update s.waiterSema t sema }.go t (.acquireAssert true))
    | (false, sema) =>
      some ({ s with waiterSema := update s.waiterSema t sema }.go t .waitBlocked)
  | .waitReturn => some (s.go t .holding)
  | .signalAssert all => some (s.assertHeld t true (.signalTest all))
  | .signalTest all =>
    some (s.go t (if s.waiters.isEmpty then signalDone all else .signalPop all))
  | .signalPop all =>
    match s.waiters with
    | [] => some (s.go t .failed)
    | w :: rest => some ({ s with waiters := rest }.go t (.signalUp all w))
  | .signalUp all w =>
    some ({ s with
      waiterSema := update s.waiterSema w (s.waiterSema w).up.2
      entered := s.entered.erase w
      marks := update s.marks w (s.marks w + 1)
      hits := update s.hits t (s.hits t ++ [w]) }.unblock t (s.waiterSema w).up.1 (signalDone all))
  | .signalReturn => some (s.go t .holding)
  | .broadcastTest =>
    some (s.go t (if s.waiters.isEmpty then .broadcastReturn else .signalAssert true))
  | .broadcastReturn => some (s.go t .holding)

def State.enter (s : State τ) (t : τ) : State τ :=
  { s with entered := s.entered ++ [t], marks := update s.marks t 0 }

def State.issue (s : State τ) (t : τ) : State τ :=
  { s with
    issued := update s.issued t s.entered
    hits := update s.hits t [] }

def State.call (s : State τ) (t : τ) (c : Call) : Option (State τ) :=
  match s.pc t, c with
  | .idle, .lockAcquire => some (s.go t (.acquireAssert false))
  | .idle, .lockTryAcquire => some (s.go t .tryAssert)
  | .holding, .lockRelease => some (s.go t (.releaseAssert false))
  | .holding, .condWait => some ((s.enter t).go t .waitAssert)
  | .holding, .condSignal => some ((s.issue t).go t (.signalAssert false))
  | .holding, .condBroadcast => some ((s.issue t).go t .broadcastTest)
  | _, _ => none

def step (s : State τ) : Act τ → Option (State τ)
  | .call t c => s.call t c
  | .run t => s.exec t

/-! The lock. It sees only how far each thread has come with it. -/

inductive Stage where
  | away
  | queued
  /-- Past `sema_down` and before `sema_up`, but not in `holder`. -/
  | taken
  | owner
  deriving DecidableEq

def stage : Pc τ → Stage
  | .idle | .acquireAssert _ | .acquireDown _ | .tryAssert | .tryDown | .waitDown
  | .waitBlocked | .failed => .away
  | .acquireBlocked _ => .queued
  | .acquireHolder _ | .tryHolder | .releaseUp _ => .taken
  | _ => .owner

def Stage.inside : Stage → Bool
  | .taken | .owner => true
  | _ => false

structure LockInv (s : State τ) : Prop where
  value : s.sema.value = 1 ∧ (∀ t, (stage (s.pc t)).inside = false) ∨
    s.sema.value = 0 ∧ ∃ t, ∀ u, (stage (s.pc u)).inside = true ↔ u = t
  holder : ∀ t, s.holder = some t ↔ stage (s.pc t) = .owner
  nodup : s.sema.waiters.Nodup
  queued : ∀ t, t ∈ s.sema.waiters ↔ stage (s.pc t) = .queued

variable {s s' : State τ} {t : τ}

@[simp] theorem go_pc (s : State τ) (t : τ) (p : Pc τ) (u : τ) :
    (s.go t p).pc u = if u = t then p else s.pc u := by
  simp [State.go, update_apply]

omit [DecidableEq τ] in
theorem LockInv.frame (inv : LockInv s) (holder : s'.holder = s.holder) (sema : s'.sema = s.sema)
    (stages : ∀ u, stage (s'.pc u) = stage (s.pc u)) : LockInv s' := by
  refine ⟨?_, ?_, ?_, ?_⟩
  · simpa only [sema, stages] using inv.value
  · simpa only [holder, stages] using inv.holder
  · simpa only [sema] using inv.nodup
  · simpa only [sema, stages] using inv.queued

theorem LockInv.move (inv : LockInv s) {p : Pc τ} (same : stage p = stage (s.pc t))
    (holder : s'.holder = s.holder) (sema : s'.sema = s.sema) (pc : s'.pc = (s.go t p).pc) :
    LockInv s' := by
  refine inv.frame holder sema fun u => ?_
  rw [pc, go_pc]
  split_ifs with h
  · rw [h, same]
  · rfl

omit [DecidableEq τ] in
theorem LockInv.inside_unique (inv : LockInv s) {u : τ} (ht : (stage (s.pc t)).inside = true)
    (hu : (stage (s.pc u)).inside = true) : u = t := by
  rcases inv.value with ⟨_, none⟩ | ⟨_, x, only⟩
  · simp [none t] at ht
  · rw [(only u).mp hu, (only t).mp ht]

omit [DecidableEq τ] in
omit [DecidableEq τ] in
theorem LockInv.holder_none (inv : LockInv s) (ht : stage (s.pc t) = .taken) : s.holder = none := by
  cases held : s.holder with
  | none => rfl
  | some u =>
    have owner := (inv.holder u).mp held
    have same : u = t := inv.inside_unique (by simp [ht, Stage.inside]) (by simp [owner, Stage.inside])
    rw [same, ht] at owner
    cases owner

theorem inside_go {p : Pc τ} (same : (stage p).inside = (stage (s.pc t)).inside) (u : τ) :
    (stage ((s.go t p).pc u)).inside = (stage (s.pc u)).inside := by
  rw [go_pc]
  split_ifs with h
  · rw [h, same]
  · rfl

theorem LockInv.block (inv : LockInv s) {p : Pc τ} (away : stage (s.pc t) = .away)
    (queued : stage p = .queued) :
    LockInv ({ s with sema := { s.sema with waiters := s.sema.waiters ++ [t] } }.go t p) := by
  have absent : t ∉ s.sema.waiters := fun h => by simp [(inv.queued t).mp h] at away
  refine ⟨?_, fun u => ?_, ?_, fun u => ?_⟩
  · have value := inv.value
    simp only [← inside_go (s := s) (p := p) (t := t) (by rw [queued, away]; rfl)] at value
    exact value
  · rw [go_pc]
    split_ifs with h
    · simp only [h, queued, reduceCtorEq, iff_false]
      intro held
      simp [(inv.holder t).mp held] at away
    · exact inv.holder u
  · simpa [State.go] using inv.nodup.concat absent
  · rw [go_pc]
    simp only [State.go, List.mem_append, List.mem_singleton, inv.queued]
    split_ifs with h <;> simp [h, queued]

theorem LockInv.pass (inv : LockInv s) {p : Pc τ} (away : stage (s.pc t) = .away)
    (taken : stage p = .taken) (pos : 0 < s.sema.value) :
    LockInv ({ s with sema := { s.sema with value := s.sema.value - 1 } }.go t p) := by
  obtain ⟨one, free⟩ : s.sema.value = 1 ∧ ∀ u, (stage (s.pc u)).inside = false := by
    rcases inv.value with free | ⟨zero, _⟩
    · exact free
    · omega
  refine ⟨.inr ⟨by simp [State.go, one], t, fun u => ?_⟩, fun u => ?_, inv.nodup, fun u => ?_⟩
  · rw [go_pc]
    split_ifs with h
    · simp [h, taken, Stage.inside]
    · simp [h, free u]
  · rw [go_pc]
    split_ifs with h
    · simp only [h, taken, reduceCtorEq, iff_false]
      intro held
      simp [(inv.holder t).mp held] at away
    · exact inv.holder u
  · rw [go_pc]
    split_ifs with h
    · simp only [h, taken, reduceCtorEq, iff_false]
      intro waiting
      simp [(inv.queued t).mp waiting] at away
    · exact inv.queued u

theorem LockInv.setHolder (inv : LockInv s) {p : Pc τ} {holder : Option τ}
    (inside : (stage (s.pc t)).inside = true)
    (set : holder = some t ∧ stage p = .owner ∨ holder = none ∧ stage p = .taken) :
    LockInv ({ s with holder := holder }.go t p) := by
  have still : (stage p).inside = true := by
    rcases set with ⟨_, h⟩ | ⟨_, h⟩ <;> simp [h, Stage.inside]
  refine ⟨?_, fun u => ?_, inv.nodup, fun u => ?_⟩
  · have value := inv.value
    simp only [← inside_go (s := s) (p := p) (t := t) (by rw [still, inside])] at value
    exact value
  · rw [go_pc]
    split_ifs with h
    · rcases set with ⟨held, owner⟩ | ⟨held, taken⟩
      · simp [State.go, h, held, owner]
      · simp [State.go, h, held, taken]
    · have other : stage (s.pc u) ≠ .owner := fun owner =>
        h (inv.inside_unique inside (by simp [owner, Stage.inside]))
      rcases set with ⟨held, _⟩ | ⟨held, _⟩
      · simp [State.go, held, other, Ne.symm h]
      · simp [State.go, held, other]
  · rw [go_pc]
    split_ifs with h
    · rw [h]
      refine iff_of_false (fun waiting => ?_) (fun queued => ?_)
      · simp [(inv.queued t).mp waiting, Stage.inside] at inside
      · simp [queued, Stage.inside] at still
    · exact inv.queued u

omit [DecidableEq τ] in
theorem wake_of_queued {p : Pc τ} (queued : stage p = .queued) :
    ∃ q, wake p = some q ∧ stage q = .away := by
  cases p <;> simp [stage] at queued
  exact ⟨_, rfl, rfl⟩

theorem LockInv.up (inv : LockInv s) {p : Pc τ} (taken : stage (s.pc t) = .taken)
    (away : stage p = .away) :
    LockInv ({ s with sema := s.sema.up.2 }.unblock t s.sema.up.1 p) := by
  have inside : (stage (s.pc t)).inside = true := by simp [taken, Stage.inside]
  have zero : s.sema.value = 0 := by
    rcases inv.value with ⟨_, none⟩ | ⟨zero, _⟩
    · simp [none t] at inside
    · exact zero
  have others : ∀ u, u ≠ t → (stage (s.pc u)).inside = false := fun u ne =>
    Bool.eq_false_iff.mpr fun h => ne (inv.inside_unique inside h)
  have notOwner : ∀ u, stage (s.pc u) ≠ .owner := fun u owner => by
    have := (inv.holder u).mpr owner
    simp [inv.holder_none taken] at this
  cases waiters : s.sema.waiters with
  | nil =>
    simp only [Sema.up, waiters, List.head?_nil, List.tail_nil, zero, State.unblock]
    refine ⟨.inl ⟨by simp [State.go], fun u => ?_⟩, fun u => ?_, List.nodup_nil, fun u => ?_⟩
    · rw [go_pc]
      split_ifs with h
      · rw [away]; rfl
      · exact others u h
    · rw [go_pc]
      simp only [State.go, inv.holder_none taken, reduceCtorEq, false_iff]
      split_ifs with h
      · simp [away]
      · exact notOwner u
    · have old := inv.queued u
      rw [go_pc]
      rw [waiters] at old
      split_ifs with h
      · simp [State.go, away]
      · simpa [State.go] using old
  | cons w ws =>
    have nodup := inv.nodup
    rw [waiters, List.nodup_cons] at nodup
    obtain ⟨q, woken, there⟩ := wake_of_queued ((inv.queued w).mp (by simp [waiters]))
    simp only [Sema.up, waiters, List.head?_cons, List.tail_cons, zero, State.unblock, woken]
    refine ⟨.inl ⟨by simp [State.go], fun u => ?_⟩, fun u => ?_, nodup.2, fun u => ?_⟩
    · rw [go_pc, go_pc]
      split_ifs with h hw
      · rw [away]; rfl
      · rw [there]; rfl
      · exact others u h
    · rw [go_pc, go_pc]
      simp only [State.go, inv.holder_none taken, reduceCtorEq, false_iff]
      split_ifs with h hw
      · simp [away]
      · simp [there]
      · exact notOwner u
    · have old := inv.queued u
      rw [go_pc, go_pc]
      rw [waiters, List.mem_cons] at old
      split_ifs with h hw
      · rw [h, taken] at old
        simp only [reduceCtorEq, iff_false, not_or] at old
        simp [State.go, h, away, old.2]
      · simp [State.go, hw, there, nodup.1]
      · simpa [State.go, hw] using old

end Pintos.Monitor
