import Pintos.MonitorRuns

/-! The console and its lock, used by any number of threads. Every statement of
`acquire_console`, `release_console` and `putchar_have_lock` is a step, with the increments
split into a read and a write, and the statements of `lock_acquire` and `lock_release` are
those of the monitor. A thread may start a call of `vprintf`, `puts`, `putbuf` or `putchar`
anywhere between the `acquire_console` and the `release_console` of another one, as it does
when a call is made from an interrupted `serial_putc`.

Threads run outside interrupt context, so `intr_context ()` is false throughout. The depth of
the calls is bounded by the stack of a thread, which is smaller than a page, so the `int`
that counts them is an integer here. -/

namespace Pintos.Console
open Transition Function
open Option (some.injEq)

inductive Call where
  /-- The characters that `__vprintf` passes to `vprintf_helper`. -/
  | vprintf (text : List UInt8)
  | puts (s : List UInt8)
  | putbuf (buffer : List UInt8)
  | putchar (c : UInt8)

/-- The characters that a call passes to `putchar_have_lock`. -/
def Call.chars : Call → List UInt8
  | .vprintf text => text
  | .puts s => s.takeWhile (· ≠ 0) ++ [10]
  | .putbuf buffer => buffer
  | .putchar c => [c]

inductive Pc where
  | acquireTest
  | acquireHeld
  | acquireLoad
  | acquireStore (depth : Int)
  | acquireLock
  | body
  | putcAssert (c : UInt8)
  | putcLoad (c : UInt8)
  | putcStore (c : UInt8) (count : BitVec 64)
  | putcSerial (c : UInt8)
  | putcVga (c : UInt8)
  | releaseTest
  | releaseDepth
  | releaseLoad
  | releaseStore (depth : Int)
  | releaseLock
  | failed

/-- One call in progress: where it is, and the characters it has not come to. -/
structure Frame where
  pc : Pc
  left : List UInt8

def Pc.acquiring : Pc → Bool
  | .acquireTest | .acquireHeld | .acquireLoad | .acquireStore _ | .acquireLock => true
  | _ => false

def Pc.between : Pc → Bool
  | .body | .putcAssert _ | .putcLoad _ | .putcStore _ _ | .putcSerial _ | .putcVga _ => true
  | _ => false

inductive Device where
  | serial
  | vga
  deriving DecidableEq

/-- A character sent to a device, with the thread that sent it and the number of the
thread's outermost call at the time. -/
structure Written (τ : Type) where
  thread : τ
  call : Nat
  char : UInt8

/-- The calls of a thread are listed from the innermost one. The last two fields do not exist
in the kernel: the number of outermost calls each thread has made, and what each device was
sent. -/
structure State (τ : Type) where
  lock : Monitor.State τ
  useConsoleLock : Bool
  depth : Int
  writeCnt : BitVec 64
  frames : τ → List Frame
  calls : τ → Nat
  log : Device → List (Written τ)

inductive Act (τ : Type) where
  | call (t : τ) (c : Call)
  | run (t : τ)

variable {τ : Type}

/-- The number of calls past their `acquire_console` and not past their `release_console`. -/
def counted (frames : List Frame) : Nat := frames.countP fun f => !f.pc.acquiring

def State.level (s : State τ) (t : τ) : Nat := counted (s.frames t)

def consoleInit (lock : Monitor.State τ) (writeCnt : BitVec 64) : State τ where
  lock := lock
  useConsoleLock := true
  depth := 0
  writeCnt := writeCnt
  frames _ := []
  calls _ := 0
  log _ := []

section Statements

variable [DecidableEq τ]

def State.set (s : State τ) (t : τ) (frames : List Frame) : State τ :=
  { s with frames := update s.frames t frames }

def State.lockCall (s : State τ) (t : τ) (c : Monitor.Call) (pc : Pc) (left : List UInt8)
    (below : List Frame) : State τ :=
  match s.lock.call t c with
  | some lock => { s with lock := lock }.set t (⟨pc, left⟩ :: below)
  | none => s.set t (⟨.failed, left⟩ :: below)

def State.emit (s : State τ) (t : τ) (d : Device) (c : UInt8) : State τ :=
  { s with log := update s.log d (s.log d ++ [⟨t, s.calls t, c⟩]) }

def State.exec (s : State τ) (t : τ) : Option (State τ) :=
  match s.frames t with
  | [] => none
  | ⟨pc, left⟩ :: below =>
    let goto (s : State τ) (pc : Pc) := s.set t (⟨pc, left⟩ :: below)
    match pc with
    | .acquireTest => some (goto s (if s.useConsoleLock then .acquireHeld else .body))
    | .acquireHeld =>
      if s.lock.holder = some t then some (goto s .acquireLoad)
      else some (s.lockCall t .lockAcquire .acquireLock left below)
    | .acquireLoad => some (goto s (.acquireStore s.depth))
    | .acquireStore depth => some (goto { s with depth := depth + 1 } .body)
    | .acquireLock =>
      (s.lock.exec t).map fun lock =>
        match lock.pc t with
        | .holding => goto { s with lock := lock } .body
        | _ => goto { s with lock := lock } .acquireLock
    | .body =>
      match left with
      | [] => some (goto s .releaseTest)
      | c :: rest => some (s.set t (⟨.putcAssert c, rest⟩ :: below))
    | .putcAssert c =>
      -- `console_locked_by_current_thread`
      if s.useConsoleLock = false ∨ s.lock.holder = some t then some (goto s (.putcLoad c))
      else some (goto s .failed)
    | .putcLoad c => some (goto s (.putcStore c s.writeCnt))
    | .putcStore c count => some (goto { s with writeCnt := count + 1 } (.putcSerial c))
    | .putcSerial c => some (goto (s.emit t .serial c) (.putcVga c))
    | .putcVga c => some (goto (s.emit t .vga c) .body)
    | .releaseTest =>
      if s.useConsoleLock then some (goto s .releaseDepth) else some (s.set t below)
    | .releaseDepth =>
      if 0 < s.depth then some (goto s .releaseLoad)
      else some (s.lockCall t .lockRelease .releaseLock left below)
    | .releaseLoad => some (goto s (.releaseStore s.depth))
    | .releaseStore depth => some ({ s with depth := depth - 1 }.set t below)
    | .releaseLock =>
      (s.lock.exec t).map fun lock =>
        match lock.pc t with
        | .idle => { s with lock := lock }.set t below
        | _ => goto { s with lock := lock } .releaseLock
    | .failed => none

def State.begin (s : State τ) (t : τ) (left : List UInt8) : State τ :=
  { s with calls := update s.calls t (s.calls t + 1) }.set t [⟨.acquireTest, left⟩]

/-- A call can begin outside all calls or while the innermost one has the console. -/
def State.call (s : State τ) (t : τ) (c : Call) : Option (State τ) :=
  match s.frames t with
  | [] => some (s.begin t c.chars)
  | f :: below =>
    if f.pc.between then some (s.set t (⟨.acquireTest, c.chars⟩ :: f :: below)) else none

def step (s : State τ) : Act τ → Option (State τ)
  | .call t c => s.call t c
  | .run t => s.exec t

end Statements

/-! What a device is sent. -/

section Logs

variable {α : Type} {log : List α} {mine : α → Prop} {e : α}

/-- The entries of one kind are consecutive. -/
def Together (log : List α) (mine : α → Prop) : Prop :=
  ∃ before during after, log = before ++ during ++ after ∧ (∀ e ∈ during, mine e) ∧
    ∀ e ∈ before ++ after, ¬ mine e

/-- The entries of one kind are consecutive and nothing comes after them. -/
def Latest (log : List α) (mine : α → Prop) : Prop :=
  ∃ before during, log = before ++ during ∧ (∀ e ∈ during, mine e) ∧ ∀ e ∈ before, ¬ mine e

theorem Latest.of_fresh (fresh : ∀ e ∈ log, ¬ mine e) : Latest log mine :=
  ⟨log, [], (List.append_nil log).symm, by simp, fresh⟩

theorem Latest.together (latest : Latest log mine) : Together log mine := by
  obtain ⟨before, during, rfl, all, none⟩ := latest
  exact ⟨before, during, [], (List.append_nil _).symm, all, by simpa using none⟩

theorem Latest.append (latest : Latest log mine) (own : mine e) : Latest (log ++ [e]) mine := by
  obtain ⟨before, during, rfl, all, none⟩ := latest
  refine ⟨before, during ++ [e], List.append_assoc .., fun x mem => ?_, none⟩
  rcases List.mem_append.mp mem with mem | mem
  · exact all x mem
  · rwa [List.mem_singleton.mp mem]

theorem Together.append (together : Together log mine) (other : ¬ mine e) :
    Together (log ++ [e]) mine := by
  obtain ⟨before, during, after, rfl, all, none⟩ := together
  refine ⟨before, during, after ++ [e], List.append_assoc .., all, fun x mem => ?_⟩
  rw [← List.append_assoc] at mem
  rcases List.mem_append.mp mem with mem | mem
  · exact none x mem
  · rwa [List.mem_singleton.mp mem]

end Logs

/-! The statements of `lock_acquire` and `lock_release`. -/

def Acquiring : Monitor.Pc τ → Prop
  | .acquireAssert false | .acquireDown false | .acquireBlocked false
  | .acquireHolder false => True
  | _ => False

def Releasing : Monitor.Pc τ → Prop
  | .releaseAssert false | .releaseHolder false | .releaseUp false => True
  | _ => False

/-- The statement of a thread, before and after a statement of another one. -/
def Unmoved (p q : Monitor.Pc τ) : Prop :=
  q = p ∨ ∃ wait, p = .acquireBlocked wait ∧ q = .acquireDown wait

section Lock

variable [DecidableEq τ] {l l' : Monitor.State τ} {t : τ}

omit [DecidableEq τ] in
theorem Acquiring.cases {p : Monitor.Pc τ} (here : Acquiring p) : p = .acquireAssert false ∨
    p = .acquireDown false ∨ p = .acquireBlocked false ∨ p = .acquireHolder false := by
  unfold Acquiring at here
  split at here <;> simp_all

omit [DecidableEq τ] in
theorem Releasing.cases {p : Monitor.Pc τ} (here : Releasing p) :
    p = .releaseAssert false ∨ p = .releaseHolder false ∨ p = .releaseUp false := by
  unfold Releasing at here
  split at here <;> simp_all

theorem assertHeld_pc {held : Bool} {p : Monitor.Pc τ} (inv : Monitor.Inv (l.assertHeld t held p)) :
    (l.assertHeld t held p).pc t = p ∧ ∀ u, u ≠ t → (l.assertHeld t held p).pc u = l.pc u := by
  have sound := inv.not_failed t
  refine ⟨?_, fun u ne => by simp [Monitor.State.assertHeld, ne]⟩
  simp only [Monitor.State.assertHeld, Monitor.go_pc, if_true] at sound ⊢
  split_ifs at sound ⊢ with held
  · rfl
  · exact absurd rfl sound

theorem acquiring_exec (inv : Monitor.Inv l) (here : Acquiring (l.pc t))
    (ran : l.exec t = some l') :
    (Acquiring (l'.pc t) ∨ l'.pc t = .holding ∧ (Monitor.stage (l.pc t)).inside = true) ∧
      ∀ u, u ≠ t → Unmoved (l.pc u) (l'.pc u) := by
  have sound := inv.exec ran
  rcases here.cases with pc | pc | pc | pc
  · simp only [Monitor.State.exec, pc, some.injEq] at ran
    subst ran
    obtain ⟨next, others⟩ := assertHeld_pc sound
    exact ⟨.inl (by rw [next]; trivial), fun u ne => .inl (others u ne)⟩
  · rcases l.sema.down_cases t with ⟨_, down⟩ | ⟨_, down⟩
    all_goals
      simp only [Monitor.State.exec, pc, down, some.injEq] at ran
      subst ran
      exact ⟨.inl (by simp [Acquiring]), fun u ne => .inl (by simp [ne])⟩
  · simp [Monitor.State.exec, pc] at ran
  · simp only [Monitor.State.exec, pc, some.injEq] at ran
    subst ran
    exact ⟨.inr ⟨by simp, by rw [pc]; rfl⟩, fun u ne => .inl (by simp [ne])⟩

theorem releasing_exec (inv : Monitor.Inv l) (here : Releasing (l.pc t))
    (ran : l.exec t = some l') :
    (Releasing (l'.pc t) ∨ l'.pc t = .idle) ∧ ∀ u, u ≠ t → Unmoved (l.pc u) (l'.pc u) := by
  have sound := inv.exec ran
  rcases here.cases with pc | pc | pc <;>
    simp only [Monitor.State.exec, pc, some.injEq] at ran <;> subst ran
  · obtain ⟨next, others⟩ := assertHeld_pc sound
    exact ⟨.inl (by rw [next]; trivial), fun u ne => .inl (others u ne)⟩
  · exact ⟨.inl (by simp [Releasing]), fun u ne => .inl (by simp [ne])⟩
  cases waiters : l.sema.waiters with
  | nil =>
    simp only [Semaphore.Sema.up, waiters, List.head?_nil, Monitor.State.unblock]
    exact ⟨.inr (by simp), fun u ne => .inl (by simp [ne])⟩
  | cons w ws =>
    have queued := (inv.lock.queued w).mp (by simp [waiters])
    cases asleep : l.pc w with
    | acquireBlocked wait =>
      simp only [Semaphore.Sema.up, waiters, List.head?_cons, Monitor.State.unblock,
        asleep, Monitor.wake]
      refine ⟨.inr (by simp), fun u ne => ?_⟩
      by_cases same : u = w
      · exact .inr ⟨wait, by rw [same, asleep], by rw [same] at ne; simp [ne, same]⟩
      · exact .inl (by simp [ne, same])
    | _ => simp [Monitor.stage, asleep] at queued

end Lock

/-! Where a thread is with the lock, given its calls and the depth. -/

def Place (depth : Int) : List Frame → Monitor.Pc τ → Prop
  | [], p => p = .idle
  | f :: below, p =>
    (∀ g ∈ below, g.pc.between = true) ∧
    match f.pc with
    | .acquireTest | .acquireHeld => below = [] ∧ p = .idle ∨ below ≠ [] ∧ p = .holding
    | .acquireLoad | .releaseLoad => below ≠ [] ∧ p = .holding
    | .acquireStore d | .releaseStore d => below ≠ [] ∧ p = .holding ∧ d = depth
    | .acquireLock => below = [] ∧ Acquiring p
    | .releaseLock => below = [] ∧ Releasing p
    | .failed => False
    | _ => p = .holding

variable {below frames : List Frame} {f : Frame} {depth : Int} {d : Device}

theorem counted_below (between : ∀ g ∈ below, g.pc.between = true) :
    counted below = below.length := by
  refine List.countP_eq_length.mpr fun g mem => ?_
  have inner := between g mem
  cases pc : g.pc <;> simp_all [Pc.between, Pc.acquiring]

theorem counted_cons (f : Frame) (below : List Frame) :
    counted (f :: below) = counted below + if f.pc.acquiring then 0 else 1 := by
  cases acquiring : f.pc.acquiring <;> simp [counted, acquiring]

theorem Place.cases {p : Monitor.Pc τ} (place : Place depth (f :: below) p) :
    p = .holding ∨ below = [] ∧ (f.pc.acquiring = true ∧ (p = .idle ∨ Acquiring p) ∨
      f.pc = .releaseLock ∧ Releasing p) := by
  obtain ⟨pc, left⟩ := f
  obtain ⟨_, here⟩ := place
  cases pc with
  | acquireTest | acquireHeld =>
    rcases here with ⟨outer, idle⟩ | ⟨_, held⟩
    · exact .inr ⟨outer, .inl ⟨rfl, .inl idle⟩⟩
    · exact .inl held
  | acquireLoad | releaseLoad => exact .inl here.2
  | acquireStore | releaseStore => exact .inl here.2.1
  | acquireLock => exact .inr ⟨here.1, .inl ⟨rfl, .inr here.2⟩⟩
  | releaseLock => exact .inr ⟨here.1, .inr ⟨rfl, here.2⟩⟩
  | failed => exact here.elim
  | _ => exact .inl here

theorem Place.of_between {p : Monitor.Pc τ} (some : frames ≠ [])
    (between : ∀ g ∈ frames, g.pc.between = true) (held : p = .holding) : Place depth frames p := by
  cases frames with
  | nil => exact absurd rfl some
  | cons f below =>
    rw [List.forall_mem_cons] at between
    obtain ⟨pc, left⟩ := f
    refine ⟨between.2, ?_⟩
    cases pc with
    | body | putcAssert | putcLoad | putcStore | putcSerial | putcVga => exact held
    | _ => cases between.1

theorem Releasing.inside {p : Monitor.Pc τ} (here : Releasing p) :
    (Monitor.stage p).inside = true := by
  rcases here.cases with rfl | rfl | rfl <;> rfl

theorem Place.inside {p : Monitor.Pc τ} (place : Place depth frames p)
    (entered : 0 < counted frames) : (Monitor.stage p).inside = true := by
  cases frames with
  | nil => simp [counted] at entered
  | cons f below =>
    rcases place.cases with held | ⟨outer, ⟨acquiring, _⟩ | ⟨_, releasing⟩⟩
    · rw [held]
      rfl
    · rw [counted_cons, outer, acquiring] at entered
      simp [counted] at entered
    · exact releasing.inside

/-- The depth that a call has read is that of the thread with the lock. -/
theorem Place.depth_change {p : Monitor.Pc τ} (place : Place depth frames p)
    (other : p ≠ .holding) (depth' : Int) : Place depth' frames p := by
  cases frames with
  | nil => exact place
  | cons f below =>
    obtain ⟨pc, left⟩ := f
    cases pc with
    | acquireStore | releaseStore => exact absurd place.2.2.1 other
    | _ => exact place

theorem Place.unmoved {p q : Monitor.Pc τ} (place : Place depth frames p) (moved : Unmoved p q) :
    Place depth frames q := by
  rcases moved with rfl | ⟨wait, rfl, rfl⟩
  · exact place
  cases frames with
  | nil => cases place
  | cons f below =>
    obtain ⟨pc, left⟩ := f
    obtain ⟨between, here⟩ := place
    cases pc with
    | acquireLock =>
      cases wait with
      | true => exact here.2.elim
      | false => exact ⟨between, here.1, trivial⟩
    | acquireTest | acquireHeld => rcases here with ⟨_, here⟩ | ⟨_, here⟩ <;> cases here
    | acquireLoad | releaseLoad => cases here.2
    | acquireStore | releaseStore => cases here.2.1
    | releaseLock => exact here.2.elim
    | failed => exact here.elim
    | _ => cases here

structure Inv (s : State τ) : Prop where
  use : s.useConsoleLock = true
  lock : Monitor.Inv s.lock
  place : ∀ t, Place s.depth (s.frames t) (s.lock.pc t)
  depth : ∀ t, 0 < s.level t → s.depth + 1 = s.level t
  free : (∀ t, s.level t = 0) → s.depth = 0

structure Moves (s s' : State τ) (t : τ) : Prop where
  use : s'.useConsoleLock = s.useConsoleLock
  lock : Monitor.Inv s'.lock
  others : ∀ u, u ≠ t → s'.frames u = s.frames u ∧ Unmoved (s.lock.pc u) (s'.lock.pc u)
  depth : s'.depth = s.depth ∨ s.lock.pc t = .holding
  place : Place s'.depth (s'.frames t) (s'.lock.pc t)
  level : 0 < s'.level t → s'.depth + 1 = s'.level t
  free : s'.level t = 0 → s'.depth = 0 ∨ s.level t = 0 ∧ s'.depth = s.depth
  calls : s'.calls = s.calls
  before : s.frames t ≠ []
  after : s'.frames t ≠ [] → s'.level t = 0 → s.level t = 0
  log : s'.log = s.log ∨ 0 < s.level t ∧ 0 < s'.level t ∧
    ∃ d c, s'.log = update s.log d (s.log d ++ [⟨t, s.calls t, c⟩])

variable {s s' : State τ} {t u : τ}

theorem Inv.level_unique (inv : Inv s) (ht : 0 < s.level t) (hu : 0 < s.level u) : u = t :=
  inv.lock.lock.inside_unique ((inv.place t).inside ht) ((inv.place u).inside hu)

theorem Inv.moves (inv : Inv s) (moves : Moves s s' t) : Inv s' := by
  have alone : ∀ u, u ≠ t → s.lock.pc t = .holding → (Monitor.stage (s.lock.pc u)).inside = false :=
    fun u ne held => Bool.eq_false_iff.mpr fun inside =>
      ne (inv.lock.lock.inside_unique (by rw [held]; rfl) inside)
  have levels : ∀ u, u ≠ t → s'.level u = s.level u := fun u ne => by
    rw [State.level, (moves.others u ne).1, State.level]
  refine ⟨moves.use.trans inv.use, moves.lock, fun u => ?_, fun u entered => ?_, fun none => ?_⟩
  · by_cases same : u = t
    · rw [same]
      exact moves.place
    obtain ⟨frames, moved⟩ := moves.others u same
    rw [frames]
    refine Place.unmoved ?_ moved
    rcases moves.depth with depth | held
    · rw [depth]
      exact inv.place u
    · refine (inv.place u).depth_change (fun also => ?_) _
      have outside := alone u same held
      rw [also] at outside
      cases outside
  · by_cases same : u = t
    · subst same
      exact moves.level entered
    rw [levels u same] at entered ⊢
    rcases moves.depth with depth | held
    · rw [depth]
      exact inv.depth u entered
    · have outside := alone u same held
      rw [(inv.place u).inside entered] at outside
      cases outside
  · rcases moves.free (none t) with zero | ⟨idle, depth⟩
    · exact zero
    · rw [depth]
      refine inv.free fun u => ?_
      by_cases same : u = t
      · rw [same, idle]
      · rw [← levels u same, none u]

/-- What each thread wrote in one outermost call is together on the device `d`. -/
structure Logged (s : State τ) (d : Device) : Prop where
  together : ∀ t n, Together (s.log d) fun e => e.thread = t ∧ e.call = n
  latest : ∀ t, 0 < s.level t → Latest (s.log d) fun e => e.thread = t ∧ e.call = s.calls t
  fresh : ∀ t, s.frames t ≠ [] → s.level t = 0 →
    ∀ e ∈ s.log d, ¬ (e.thread = t ∧ e.call = s.calls t)
  le : ∀ e ∈ s.log d, e.call ≤ s.calls e.thread

theorem Logged.quiet (logged : Logged s d) (moves : Moves s s' t) (log : s'.log d = s.log d) :
    Logged s' d := by
  have calls := moves.calls
  refine ⟨?_, fun u entered => ?_, fun u within out => ?_, ?_⟩
  · rw [log]
    exact logged.together
  · rw [log, calls]
    by_cases same : u = t
    · subst same
      rcases Nat.eq_zero_or_pos (s.level u) with out | entered
      · exact .of_fresh (logged.fresh u moves.before out)
      · exact logged.latest u entered
    · rw [State.level, (moves.others u same).1] at entered
      exact logged.latest u entered
  · rw [log, calls]
    by_cases same : u = t
    · subst same
      exact logged.fresh u moves.before (moves.after within out)
    · rw [State.level, (moves.others u same).1] at out
      rw [(moves.others u same).1] at within
      exact logged.fresh u within out
  · rw [log, calls]
    exact logged.le

section Runs

variable [DecidableEq τ]

theorem Logged.write {c : UInt8} (inv : Inv s) (logged : Logged s d) (moves : Moves s s' t)
    (entered : 0 < s.level t) (entered' : 0 < s'.level t)
    (log : s'.log d = s.log d ++ [⟨t, s.calls t, c⟩]) : Logged s' d := by
  have calls := moves.calls
  have own : Latest (s.log d ++ [⟨t, s.calls t, c⟩]) fun e => e.thread = t ∧ e.call = s.calls t :=
    (logged.latest t entered).append ⟨rfl, rfl⟩
  have alone : ∀ u, u ≠ t → s.level u = 0 := fun u ne => by
    by_contra other
    exact ne (inv.level_unique entered (Nat.pos_of_ne_zero other))
  refine ⟨fun u n => ?_, fun u inside => ?_, fun u within out => ?_, fun e mem => ?_⟩
  · rw [log]
    by_cases mine : t = u ∧ s.calls t = n
    · obtain ⟨rfl, rfl⟩ := mine
      exact own.together
    · exact (logged.together u n).append mine
  · rw [log, calls]
    by_cases same : u = t
    · subst same
      exact own
    · rw [State.level, (moves.others u same).1] at inside
      exact absurd (alone u same) (Nat.ne_of_gt inside)
  · have other : u ≠ t := by
      rintro rfl
      omega
    rw [log, calls]
    rw [(moves.others u other).1] at within
    intro e mem
    rcases List.mem_append.mp mem with mem | mem
    · exact logged.fresh u within (alone u other) e mem
    · rw [List.mem_singleton.mp mem]
      exact fun mine => other mine.1.symm
  · rw [log] at mem
    rw [calls]
    rcases List.mem_append.mp mem with mem | mem
    · exact logged.le e mem
    · rw [List.mem_singleton.mp mem]

theorem Logged.moves (inv : Inv s) (logged : Logged s d) (moves : Moves s s' t) : Logged s' d := by
  rcases moves.log with same | ⟨entered, entered', d', c, wrote⟩
  · exact logged.quiet moves (by rw [same])
  · by_cases same : d = d'
    · subst same
      exact logged.write inv moves entered entered' (by rw [wrote, update_self])
    · exact logged.quiet moves (by rw [wrote, update_of_ne same])

theorem Inv.goto (inv : Inv s) (here : s.frames t = f :: below) (pc : Pc) (left : List UInt8)
    (frames : s'.frames = update s.frames t (⟨pc, left⟩ :: below))
    (use : s'.useConsoleLock = s.useConsoleLock) (lock : s'.lock = s.lock)
    (depth : s'.depth = s.depth) (calls : s'.calls = s.calls)
    (log : s'.log = s.log ∨ f.pc.acquiring = false ∧ ∃ d c, s'.log =
      update s.log d (s.log d ++ [⟨t, s.calls t, c⟩]))
    (place : Place s.depth (⟨pc, left⟩ :: below) (s.lock.pc t))
    (same : pc.acquiring = f.pc.acquiring) : Moves s s' t := by
  have now : s'.frames t = ⟨pc, left⟩ :: below := by rw [frames, update_self]
  have level : s'.level t = s.level t := by
    rw [State.level, now, State.level, here]
    rw [counted_cons, counted_cons, same]
  refine ⟨use, lock ▸ inv.lock, fun u ne => ⟨?_, ?_⟩, .inl depth, ?_, fun entered => ?_,
    fun out => .inr ⟨level ▸ out, depth⟩, calls, ?_, fun _ out => level ▸ out, ?_⟩
  · rw [frames, update_of_ne ne]
  · rw [lock]
    exact .inl rfl
  · rw [depth, now, lock]
    exact place
  · rw [depth, level]
    exact inv.depth t (level ▸ entered)
  · rw [here]
    exact List.cons_ne_nil f below
  · refine log.imp id fun ⟨entered, wrote⟩ => ?_
    have inside : 0 < s.level t := by
      rw [State.level, here, counted_cons, entered]
      simp
    exact ⟨inside, level ▸ inside, wrote⟩

theorem Inv.jump (inv : Inv s) (here : s.frames t = f :: below) {pc : Pc} {left : List UInt8}
    (place : Place s.depth (⟨pc, left⟩ :: below) (s.lock.pc t))
    (same : pc.acquiring = f.pc.acquiring) : Moves s (s.set t (⟨pc, left⟩ :: below)) t :=
  inv.goto here pc left rfl rfl rfl rfl rfl (.inl rfl) place same

theorem Inv.deepen (inv : Inv s) (here : s.frames t = f :: below) (held : s.lock.pc t = .holding)
    (place : Place depth frames (s.lock.pc t)) (entered : 0 < counted frames)
    (level : depth + 1 = counted frames) : Moves s ({ s with depth := depth }.set t frames) t := by
  have now : ({ s with depth := depth }.set t frames).frames t = frames := update_self ..
  refine ⟨rfl, inv.lock, fun u ne => ⟨update_of_ne ne .., .inl rfl⟩, .inr held,
    now.symm ▸ place, fun _ => ?_, fun out => ?_, rfl, ?_, fun _ out => ?_, .inl rfl⟩
  · rw [State.level, now]
    exact level
  · rw [State.level, now] at out
    omega
  · rw [here]
    exact List.cons_ne_nil f below
  · rw [State.level, now] at out
    omega

theorem relock (here : s.frames t = f :: below) {lock : Monitor.State τ}
    (sound : Monitor.Inv lock) (others : ∀ u, u ≠ t → Unmoved (s.lock.pc u) (lock.pc u))
    (place : Place s.depth frames (lock.pc t))
    (level : counted frames = 0 ∧ s.level t = 0 ∨ s.depth = 0 ∧ (frames = [] ∨ counted frames = 1))
      :
    Moves s ({ s with lock := lock }.set t frames) t := by
  have now : ({ s with lock := lock }.set t frames).frames t = frames := update_self ..
  have depth : ({ s with lock := lock }.set t frames).depth = s.depth := rfl
  refine ⟨rfl, sound, fun u ne => ⟨update_of_ne ne .., others u ne⟩, .inl rfl,
    now.symm ▸ place, fun entered => ?_, fun _ => ?_, rfl, ?_, ?_, .inl rfl⟩
  · rw [State.level, now] at entered ⊢
    rcases level with ⟨out, _⟩ | ⟨zero, rfl | one⟩
    · omega
    · exact absurd entered (Nat.lt_irrefl 0)
    · rw [depth, zero, one]
      rfl
  · rcases level with ⟨_, out⟩ | ⟨zero, _⟩
    · exact .inr ⟨out, rfl⟩
    · exact .inl zero
  · rw [here]
    exact List.cons_ne_nil f below
  · rw [State.level, now]
    rcases level with ⟨_, out⟩ | ⟨_, empty | one⟩
    · exact fun _ _ => out
    · exact fun some _ => absurd empty some
    · omega

theorem call_unmoved {l l' : Monitor.State τ} {c : Monitor.Call} (ran : l.call t c = some l')
    (u : τ) (ne : u ≠ t) : Unmoved (l.pc u) (l'.pc u) := by
  refine .inl ?_
  unfold Monitor.State.call at ran
  split at ran
  case h_7 => cases ran
  all_goals
    cases ran
    simp [ne, Monitor.State.enter, Monitor.State.issue]

omit [DecidableEq τ] in
theorem Inv.depth_zero (inv : Inv s) (inside : (Monitor.stage (s.lock.pc t)).inside = true)
    (single : s.level t ≤ 1) : s.depth = 0 := by
  rcases Nat.eq_zero_or_pos (s.level t) with out | entered
  · refine inv.free fun u => ?_
    by_contra other
    have same := inv.lock.lock.inside_unique inside
      ((inv.place u).inside (Nat.pos_of_ne_zero other))
    exact other (same ▸ out)
  · have depth := inv.depth t entered
    have one : s.level t = 1 := by omega
    rw [one] at depth
    simpa using depth

theorem exec_moves (inv : Inv s) (ran : s.exec t = some s') : Moves s s' t := by
  have place := inv.place t
  have depth := inv.depth t
  cases here : s.frames t with
  | nil => simp [State.exec, here] at ran
  | cons f below =>
    obtain ⟨pc, left⟩ := f
    rw [here] at place
    obtain ⟨between, at'⟩ := place
    rw [State.level, here, counted_cons, counted_below between] at depth
    simp only [State.exec, here] at ran
    cases pc with
    | acquireTest | releaseTest =>
      simp only [inv.use, if_true, some.injEq] at ran
      subst ran
      exact inv.jump here ⟨between, at'⟩ rfl
    | acquireHeld =>
      have holder := inv.lock.lock.holder t
      rcases at' with ⟨outer, idle⟩ | ⟨nested, held⟩
      · have free : s.lock.holder ≠ some t := fun h => by
          have owner := holder.mp h
          rw [idle] at owner
          cases owner
        have called : s.lock.call t .lockAcquire = some (s.lock.go t (.acquireAssert false)) := by
          simp [Monitor.State.call, idle]
        simp only [if_neg free, State.lockCall, called, some.injEq] at ran
        subst ran outer
        exact relock here (inv.lock.call called) (call_unmoved called)
          ⟨between, rfl, by simp [Acquiring]⟩ (.inl ⟨rfl, by rw [State.level, here]; rfl⟩)
      · have mine : s.lock.holder = some t := holder.mpr (by rw [held]; rfl)
        simp only [if_pos mine, some.injEq] at ran
        subst ran
        exact inv.jump here ⟨between, nested, held⟩ rfl
    | acquireLoad | releaseLoad =>
      simp only [some.injEq] at ran
      subst ran
      exact inv.jump here ⟨between, at'.1, at'.2, rfl⟩ rfl
    | acquireStore d =>
      simp only [some.injEq] at ran
      subst ran
      obtain ⟨nested, held, rfl⟩ := at'
      have entered := depth (Nat.add_pos_left (List.length_pos_iff.mpr nested) _)
      refine inv.deepen here held ⟨between, held⟩ ?_ ?_
      · rw [counted_cons]
        exact Nat.succ_pos _
      · rw [counted_cons, counted_below between, Nat.cast_add]
        exact congrArg (· + 1) entered
    | acquireLock =>
      obtain ⟨rfl, acquiring⟩ := at'
      obtain ⟨lock, worked, ran⟩ := Option.map_eq_some_iff.mp ran
      obtain ⟨next, others⟩ := acquiring_exec inv.lock acquiring worked
      have out : s.level t = 0 := by
        rw [State.level, here]
        rfl
      have sound := inv.lock.exec worked
      rcases next with still | ⟨held, inside⟩
      · split at ran
        · rename_i held
          rw [held] at still
          exact still.elim
        · subst ran
          exact relock here sound others ⟨between, rfl, still⟩ (.inl ⟨rfl, out⟩)
      · simp only [held] at ran
        subst ran
        exact relock here sound others ⟨between, held⟩
          (.inr ⟨inv.depth_zero inside (by omega), .inr rfl⟩)
    | body =>
      cases left <;> simp only [some.injEq] at ran <;> subst ran <;>
        exact inv.jump here ⟨between, at'⟩ rfl
    | putcAssert c =>
      have mine : s.lock.holder = some t := (inv.lock.lock.holder t).mpr (by rw [at']; rfl)
      simp only [if_pos (Or.inr mine), some.injEq] at ran
      subst ran
      exact inv.jump here ⟨between, at'⟩ rfl
    | putcLoad c =>
      simp only [some.injEq] at ran
      subst ran
      exact inv.jump here ⟨between, at'⟩ rfl
    | putcStore c count =>
      simp only [some.injEq] at ran
      subst ran
      exact inv.goto here _ left rfl rfl rfl rfl rfl (.inl rfl) ⟨between, at'⟩ rfl
    | putcSerial c | putcVga c =>
      simp only [some.injEq] at ran
      subst ran
      exact inv.goto here _ left rfl rfl rfl rfl rfl (.inr ⟨rfl, _, _, rfl⟩) ⟨between, at'⟩ rfl
    | releaseDepth =>
      have held : s.lock.pc t = .holding := at'
      have entered := depth (Nat.succ_pos _)
      simp only at ran
      split_ifs at ran with deep
      · cases ran
        have nested : below ≠ [] := by
          rintro rfl
          simp [Pc.acquiring] at entered
          omega
        exact inv.jump here ⟨between, nested, held⟩ rfl
      obtain rfl : below = [] := by
        rw [← List.length_eq_zero_iff]
        simp [Pc.acquiring] at entered
        omega
      have called : s.lock.call t .lockRelease = some (s.lock.go t (.releaseAssert false)) := by
        simp [Monitor.State.call, held]
      simp only [State.lockCall, called, some.injEq] at ran
      subst ran
      refine relock here (inv.lock.call called) (call_unmoved called)
        ⟨between, rfl, by simp [Releasing]⟩ (.inr ⟨?_, .inr rfl⟩)
      simpa [Pc.acquiring] using entered
    | releaseStore d =>
      simp only [some.injEq] at ran
      subst ran
      obtain ⟨nested, held, rfl⟩ := at'
      have entered := depth (Nat.succ_pos _)
      have some := List.length_pos_iff.mpr nested
      refine inv.deepen here held (.of_between nested between held) ?_ ?_
      · rwa [counted_below between]
      · rw [counted_below between]
        simp [Pc.acquiring] at entered
        omega
    | releaseLock =>
      obtain ⟨rfl, releasing⟩ := at'
      obtain ⟨lock, worked, ran⟩ := Option.map_eq_some_iff.mp ran
      obtain ⟨next, others⟩ := releasing_exec inv.lock releasing worked
      have single : s.level t = 1 := by
        rw [State.level, here]
        rfl
      have zero := inv.depth_zero releasing.inside (by omega)
      have sound := inv.lock.exec worked
      rcases next with still | idle
      · split at ran
        · rename_i idle
          rw [idle] at still
          exact still.elim
        · subst ran
          exact relock here sound others ⟨between, rfl, still⟩ (.inr ⟨zero, .inr rfl⟩)
      · simp only [idle] at ran
        subst ran
        exact relock here sound others idle (.inr ⟨zero, .inl rfl⟩)
    | failed => simp at ran

theorem nested_moves (inv : Inv s) (here : s.frames t = f :: below) (between : f.pc.between = true)
    (left : List UInt8) : Moves s (s.set t (⟨.acquireTest, left⟩ :: f :: below)) t := by
  have place := inv.place t
  rw [here] at place
  have held : s.lock.pc t = .holding := by
    rcases place.cases with held | ⟨_, ⟨acquiring, _⟩ | ⟨releasing, _⟩⟩
    · exact held
    · cases pc : f.pc <;> simp [pc, Pc.between, Pc.acquiring] at between acquiring
    · rw [releasing] at between
      cases between
  have now : (s.set t (⟨.acquireTest, left⟩ :: f :: below)).frames t = _ :=
    update_self ..
  have level : (s.set t (⟨.acquireTest, left⟩ :: f :: below)).level t = s.level t := by
    rw [State.level, now, counted_cons, State.level, here]
    rfl
  refine ⟨rfl, inv.lock, fun u ne => ⟨update_of_ne ne .., .inl rfl⟩, .inl rfl,
    now.symm ▸ ⟨?_, .inr ⟨List.cons_ne_nil f below, held⟩⟩, fun entered => ?_,
    fun out => .inr ⟨level ▸ out, rfl⟩, rfl, ?_, fun _ out => level ▸ out, .inl rfl⟩
  · exact List.forall_mem_cons.mpr ⟨between, place.1⟩
  · rw [level]
    exact inv.depth t (level ▸ entered)
  · rw [here]
    exact List.cons_ne_nil f below

theorem begin_level (outside : s.frames t = []) (left : List UInt8) (u : τ) :
    (s.begin t left).level u = s.level u := by
  by_cases same : u = t
  · subst same
    have now : (s.begin u left).frames u = [⟨.acquireTest, left⟩] := update_self ..
    rw [State.level, now, State.level, outside]
    rfl
  · exact congrArg counted (update_of_ne same ..)

theorem Inv.begin (inv : Inv s) (outside : s.frames t = []) (left : List UInt8) :
    Inv (s.begin t left) := by
  have level := begin_level outside left
  refine ⟨inv.use, inv.lock, fun u => ?_, fun u entered => ?_, fun none => ?_⟩
  · have place := inv.place u
    by_cases same : u = t
    · subst same
      rw [outside] at place
      have now : (s.begin u left).frames u = [⟨.acquireTest, left⟩] := update_self ..
      rw [now]
      exact ⟨by simp, .inl ⟨rfl, place⟩⟩
    · have now : (s.begin t left).frames u = s.frames u := update_of_ne same ..
      rw [now]
      exact place
  · rw [level] at entered ⊢
    exact inv.depth u entered
  · exact inv.free fun u => (level u).symm.trans (none u)

theorem Logged.begin (logged : Logged s d) (outside : s.frames t = []) (left : List UInt8) :
    Logged (s.begin t left) d := by
  have level := begin_level outside left
  have others : ∀ u, u ≠ t → (s.begin t left).calls u = s.calls u := fun u ne =>
    update_of_ne ne ..
  have own : (s.begin t left).calls t = s.calls t + 1 := update_self ..
  refine ⟨logged.together, fun u entered => ?_, fun u within out => ?_, fun e mem => ?_⟩
  · rw [level] at entered
    have other : u ≠ t := by
      rintro rfl
      rw [State.level, outside] at entered
      exact absurd entered (Nat.lt_irrefl 0)
    rw [others u other]
    exact logged.latest u entered
  · by_cases same : u = t
    · subst same
      rintro e mem ⟨rfl, number⟩
      have old := logged.le e mem
      omega
    · rw [others u same]
      have now : (s.begin t left).frames u = s.frames u := update_of_ne same ..
      rw [now] at within
      exact logged.fresh u within ((level u).symm.trans out)
  · have old := logged.le e mem
    by_cases same : e.thread = t
    · rw [same] at old ⊢
      omega
    · rwa [others _ same]

theorem reachable_inv {frames : τ → Semaphore.Sema τ} {writeCnt : BitVec 64}
    (run : Reachable (consoleInit (Monitor.start frames) writeCnt) step (fun _ _ => True) s) :
    Inv s ∧ ∀ d, Logged s d := by
  have first : Inv (consoleInit (Monitor.start frames) writeCnt) ∧
      ∀ d, Logged (consoleInit (Monitor.start frames) writeCnt) d := by
    refine ⟨⟨rfl, Monitor.inv_start frames, fun t => rfl, fun t entered => ?_, fun _ => rfl⟩,
      fun d => ⟨fun t n => ?_, fun t entered => ?_, fun t within => ?_, fun e mem => ?_⟩⟩
    · exact absurd entered (Nat.lt_irrefl 0)
    · exact (Latest.of_fresh fun e mem => absurd mem List.not_mem_nil).together
    · exact absurd entered (Nat.lt_irrefl 0)
    · exact absurd rfl within
    · cases mem
  refine run.invariant (P := fun s => Inv s ∧ ∀ d, Logged s d) first
    fun s a s' ⟨inv, logged⟩ _ taken => ?_
  cases a with
  | run t =>
    have moves := exec_moves inv taken
    exact ⟨inv.moves moves, fun d => (logged d).moves inv moves⟩
  | call t c =>
    cases here : s.frames t with
    | nil =>
      simp only [step, State.call, here, some.injEq] at taken
      subst taken
      exact ⟨inv.begin here c.chars, fun d => (logged d).begin here c.chars⟩
    | cons f below =>
      simp only [step, State.call, here] at taken
      split_ifs at taken with between
      cases taken
      have moves := nested_moves inv here between c.chars
      exact ⟨inv.moves moves, fun d => (logged d).moves inv moves⟩

/-- At most one thread is between its outermost `acquire_console` and `release_console`, the
depth counts its inner calls and is zero without such a thread, `lock_release` is called by
the holder at its outermost release, no assertion fails, and on either device the characters
of one outermost call are together. -/
theorem console_exclusive {frames : τ → Semaphore.Sema τ} {writeCnt : BitVec 64}
    (run : Reachable (consoleInit (Monitor.start frames) writeCnt) step (fun _ _ => True) s) :
    (∀ t u, 0 < s.level t → 0 < s.level u → u = t) ∧
      (∀ t, 0 < s.level t → s.depth = s.level t - 1) ∧
      ((∀ t, s.level t = 0) → s.depth = 0) ∧
      (∀ t, s.lock.pc t = .releaseAssert false → s.lock.holder = some t ∧ s.level t = 1) ∧
      (∀ t, s.lock.pc t ≠ .failed ∧ ∀ f ∈ s.frames t, f.pc ≠ .failed) ∧
      ∀ d t n, Together (s.log d) fun e => e.thread = t ∧ e.call = n := by
  obtain ⟨inv, logged⟩ := reachable_inv run
  refine ⟨fun t u => inv.level_unique, fun t entered => ?_, inv.free, fun t releasing => ⟨?_, ?_⟩,
    fun t => ⟨inv.lock.not_failed t, ?_⟩, fun d => (logged d).together⟩
  · rw [← inv.depth t entered, Int.add_sub_cancel]
  · exact (inv.lock.lock.holder t).mpr (by rw [releasing]; rfl)
  · have place := inv.place t
    rw [releasing] at place
    rw [State.level]
    cases here : s.frames t with
    | nil =>
      rw [here] at place
      cases place
    | cons f below =>
      rw [here] at place
      rcases place.cases with held | ⟨outer, ⟨_, idle | acquiring⟩ | ⟨releasing, _⟩⟩
      · cases held
      · cases idle
      · exact acquiring.elim
      · rw [outer, counted_cons, releasing]
        rfl
  · have place := inv.place t
    cases here : s.frames t with
    | nil => simp
    | cons f below =>
      rw [here] at place
      obtain ⟨between, this⟩ := place
      rw [List.forall_mem_cons]
      refine ⟨fun failed => ?_, fun g mem failed => ?_⟩
      · rw [failed] at this
        exact this
      · have inner := between g mem
        rw [failed] at inner
        cases inner

theorem console_exclusive_nested : ∃ s : State Bool,
    Reachable (consoleInit (Monitor.start fun _ => Semaphore.semaInit 0) 0) step
      (fun _ _ => True) s ∧
      s.lock.pc false = .acquireBlocked false ∧ s.level true = 2 ∧ s.depth = s.level true - 1 := by
  let first : State Bool := consoleInit (Monitor.start fun _ => Semaphore.semaInit 0) 0
  have booted : Reachable first step (fun _ _ => True) first := .start
  have reached : Reachable first step (fun _ _ => True) _ :=
    booted.run [.call true (.puts [72]), .run true, .run true, .run true, .run true, .run true,
      .call false (.putchar 72), .run false, .run false, .run false, .run false,
      .call true (.putbuf [73]), .run true, .run true, .run true, .run true]
      (fun _ _ _ => trivial) rfl
  exact ⟨_, reached, rfl, rfl, (console_exclusive reached).2.1 true (by decide)⟩

end Runs

end Pintos.Console
