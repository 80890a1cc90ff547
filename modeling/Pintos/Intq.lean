import Pintos.Semaphore

/-! Interrupt queues. Kernel threads call `intq_getc` and `intq_putc` with interrupts
off, so a call is atomic up to the points where it blocks: in `lock_acquire`, behind
another thread that waits, and in `wait`. Interrupt handlers run between these segments
and call the same functions, but only where they do not have to wait. -/

namespace Pintos.Intq
open Transition Semaphore Function

def bufsize : Nat := 64

structure Ring where
  buf : Nat → UInt8
  head : Nat
  tail : Nat

def next (pos : Nat) : Nat := (pos + 1) % bufsize

def Ring.empty (r : Ring) : Bool := r.head == r.tail

def Ring.full (r : Ring) : Bool := next r.head == r.tail

def Ring.take (r : Ring) : UInt8 × Ring := (r.buf r.tail, { r with tail := next r.tail })

def Ring.put (r : Ring) (byte : UInt8) : Ring :=
  { r with buf := update r.buf r.head byte, head := next r.head }

/-- The conditions threads wait for, with a field of `struct intq` for each. -/
inductive Cond where
  | notEmpty
  | notFull
  deriving DecidableEq

def Ring.lacks (r : Ring) : Cond → Bool
  | .notEmpty => r.empty
  | .notFull => r.full

inductive Op where
  | getc
  | putc (byte : UInt8)
  deriving DecidableEq

def Op.needs : Op → Cond
  | .getc => .notEmpty
  | .putc _ => .notFull

def Op.makes : Op → Cond
  | .getc => .notFull
  | .putc _ => .notEmpty

inductive Phase where
  | running
  | lockBlocked (op : Op)
  /-- Unblocked in the `sema_down` of `lock_acquire`, before it tests the value again. -/
  | lockWoken (op : Op)
  | waitBlocked (op : Op)
  | waitWoken (op : Op)
  deriving DecidableEq

structure State (τ : Type) where
  ring : Ring
  holder : Option τ
  sema : Sema τ
  waiter : Cond → Option τ
  phase : τ → Phase
  result : τ → Option UInt8
  panicked : Bool

inductive Act (τ : Type) where
  | call (t : τ) (op : Op)
  | resume (t : τ)
  | handler (op : Op)

variable {τ : Type}

def start (buf : Nat → UInt8) : State τ where
  ring := ⟨buf, 0, 0⟩
  holder := none
  sema := semaInit 1
  waiter _ := none
  phase _ := .running
  result _ := none
  panicked := false

def State.panic (s : State τ) : State τ := { s with panicked := true }

variable [DecidableEq τ]

def State.go (s : State τ) (t : τ) (p : Phase) : State τ :=
  { s with phase := update s.phase t p }

def State.wait (s : State τ) (t : τ) (op : Op) : State τ :=
  if s.ring.lacks op.needs then
    { s with waiter := update s.waiter op.needs (some t) }.go t (.waitBlocked op)
  else s.panic

def State.signal (s : State τ) (c : Cond) : State τ :=
  if s.ring.lacks c then s.panic
  else
    match s.waiter c with
    | none => s
    | some w =>
      match s.phase w with
      | .waitBlocked op => { s.go w (.waitWoken op) with waiter := update s.waiter c none }
      | _ => s.panic

/-- The rest of `lock_acquire` once its `sema_down` tests the value, and then `wait`. -/
def State.lockDown (s : State τ) (t : τ) (op : Op) : State τ :=
  match s.sema.down t with
  | (true, sema) => { s with sema := sema, holder := some t }.wait t op
  | (false, sema) => { s with sema := sema }.go t (.lockBlocked op)

def State.lockAcquire (s : State τ) (t : τ) (op : Op) : State τ :=
  if s.holder = some t then s.panic else s.lockDown t op

def State.lockRelease (s : State τ) (t : τ) : State τ :=
  if s.holder = some t then
    match s.sema.up with
    | (none, sema) => { s with holder := none, sema := sema }
    | (some w, sema) =>
      match s.phase w with
      | .lockBlocked op => { s with holder := none, sema := sema }.go w (.lockWoken op)
      | _ => s.panic
  else s.panic

/-- The part after the loop, with the value returned. -/
def State.perform (s : State τ) : Op → Option UInt8 × State τ
  | .getc => (some s.ring.take.1, { s with ring := s.ring.take.2 }.signal .notFull)
  | .putc byte => (none, { s with ring := s.ring.put byte }.signal .notEmpty)

/-- `intq_getc` or `intq_putc` by `t` from the test of its loop on. -/
def State.loop (s : State τ) (t : τ) (op : Op) : State τ :=
  if s.ring.lacks op.needs then s.lockAcquire t op
  else
    { (s.perform op).2 with result := update s.result t (s.perform op).1 }

def step (s : State τ) (a : Act τ) : Option (State τ) :=
  if s.panicked then none
  else
    match a with
    | .call t op => if s.phase t = .running then some (s.loop t op) else none
    | .resume t =>
      match s.phase t with
      | .lockWoken op => some (s.lockDown t op)
      | .waitWoken op =>
        if (s.lockRelease t).panicked then some (s.lockRelease t)
        else some (((s.lockRelease t).go t .running).loop t op)
      | _ => none
    | .handler op => if s.ring.lacks op.needs then none else some (s.perform op).2

structure Inv (s : State τ) : Prop where
  alive : s.panicked = false
  head : s.ring.head < bufsize
  tail : s.ring.tail < bufsize
  waiter : ∀ c t, s.waiter c = some t ↔ ∃ op, s.phase t = .waitBlocked op ∧ op.needs = c
  stuck : ∀ t op, s.phase t = .waitBlocked op → s.ring.lacks op.needs = true
  holder : ∀ t, s.holder = some t ↔ ∃ op, s.phase t = .waitBlocked op ∨ s.phase t = .waitWoken op
  value : s.sema.value = if s.holder = none then 1 else 0
  nodup : s.sema.waiters.Nodup
  queued : ∀ t, t ∈ s.sema.waiters ↔ ∃ op, s.phase t = .lockBlocked op

variable {s s' : State τ} {t : τ} {op : Op}

omit [DecidableEq τ] in
theorem inv_of_free (alive : s.panicked = false) (head : s.ring.head < bufsize)
    (tail : s.ring.tail < bufsize) (waiter : ∀ c t, s.waiter c ≠ some t) (holder : s.holder = none)
    (nobody : ∀ t op, s.phase t ≠ .waitBlocked op ∧ s.phase t ≠ .waitWoken op)
    (value : s.sema.value = 1) (nodup : s.sema.waiters.Nodup)
    (queued : ∀ t, t ∈ s.sema.waiters ↔ ∃ op, s.phase t = .lockBlocked op) : Inv s := by
  refine ⟨alive, head, tail, fun c t => ?_, fun t op h => ?_, fun t => ?_, ?_, nodup, queued⟩
  · exact iff_of_false (waiter c t) fun ⟨op, h, _⟩ => (nobody t op).1 h
  · exact absurd h (nobody t op).1
  · simp [holder, nobody t]
  · rw [value, if_pos holder]

omit [DecidableEq τ] in
theorem inv_start (buf : Nat → UInt8) : Inv (start buf : State τ) := by
  apply inv_of_free <;> simp [start, semaInit, bufsize]

theorem next_lt (pos : Nat) : next pos < bufsize := Nat.mod_lt _ (by decide)

theorem take_notFull {r : Ring} (head : r.head < bufsize) (tail : r.tail < bufsize)
    (h : r.empty = false) : r.take.2.full = false := by
  simp only [Ring.empty, Ring.full, Ring.take, beq_eq_false_iff_ne, next, bufsize] at head tail h ⊢
  omega

@[simp] theorem go_phase (s : State τ) (t : τ) (p : Phase) (u : τ) :
    (s.go t p).phase u = if u = t then p else s.phase u := by
  simp [State.go, update_apply]

/-- `signal`, after the buffer has changed, where every thread that waits does so for
the condition signalled. -/
theorem Inv.signal (inv : Inv s) {r : Ring} {c : Cond} (head : r.head < bufsize)
    (tail : r.tail < bufsize) (holds : r.lacks c = false)
    (only : ∀ t op, s.phase t = .waitBlocked op → op.needs = c) :
    Inv ({ s with ring := r }.signal c) := by
  cases waiting : s.waiter c with
  | none =>
    have free : ∀ t op, s.phase t ≠ .waitBlocked op := fun t op h => by
      have := (inv.waiter c t).mpr ⟨op, h, only t op h⟩
      simp [waiting] at this
    simp only [State.signal, holds, Bool.false_eq_true, if_false, waiting]
    exact { inv with
      head := head
      tail := tail
      stuck := fun t op h => absurd h (free t op) }
  | some w =>
    obtain ⟨op, blocked, needs⟩ := (inv.waiter c w).mp waiting
    have alone : ∀ t op, s.phase t = .waitBlocked op → t = w := fun t op h => by
      have := (inv.waiter c t).mpr ⟨op, h, only t op h⟩
      rw [waiting, Option.some_inj] at this
      exact this.symm
    simp only [State.signal, holds, Bool.false_eq_true, if_false, waiting, blocked]
    refine ⟨inv.alive, head, tail, fun c' t => ?_, fun t op' h => ?_, fun t => ?_, inv.value,
      inv.nodup, fun t => ?_⟩
    · refine iff_of_false (fun h => ?_) (fun ⟨op', h, _⟩ => ?_)
      · by_cases same : c' = c
        · simp [same] at h
        · simp only [ne_eq, same, not_false_eq_true, update_of_ne] at h
          obtain ⟨op', there, need⟩ := (inv.waiter c' t).mp h
          exact same (need.symm.trans (only t op' there))
      · rw [go_phase] at h
        split_ifs at h with here
        exact here (alone t op' h)
    · simp only at h
      rw [go_phase] at h
      split_ifs at h with here
      exact absurd (alone t op' h) here
    · simp only
      rw [go_phase]
      split_ifs with here
      · subst here
        exact iff_of_true ((inv.holder t).mpr ⟨op, .inl blocked⟩) ⟨op, .inr rfl⟩
      · exact inv.holder t
    · simp only
      rw [go_phase]
      split_ifs with here
      · subst here
        refine iff_of_false (fun h => ?_) (fun ⟨op', h⟩ => by cases h)
        obtain ⟨op', h⟩ := (inv.queued t).mp h
        simp [blocked] at h
      · exact inv.queued t

theorem Inv.perform (inv : Inv s) (ready : s.ring.lacks op.needs = false) :
    Inv (s.perform op).2 := by
  -- Where the operation need not wait, threads wait only for what it makes true.
  have only t op' (h : s.phase t = .waitBlocked op') : op'.needs = op.makes := by
    have lacking := inv.stuck t op' h
    cases op <;> cases op' <;> simp_all [Op.needs, Op.makes]
  cases op with
  | getc =>
    exact inv.signal inv.head (next_lt _) (take_notFull inv.head inv.tail ready) only
  | putc byte => exact inv.signal (next_lt _) inv.tail ready only

theorem Inv.lockDown (inv : Inv s) (here : s.phase t = .running ∨ ∃ op', s.phase t = .lockWoken op')
    (fresh : 0 < s.sema.value → s.ring.lacks op.needs = true) : Inv (s.lockDown t op) := by
  have notWaiting : ∀ op', s.phase t ≠ .waitBlocked op' ∧ s.phase t ≠ .waitWoken op' ∧
      s.phase t ≠ .lockBlocked op' := by
    intro op'
    rcases here with h | ⟨_, h⟩ <;> simp [h]
  have absent : t ∉ s.sema.waiters := fun h => by
    obtain ⟨op', h⟩ := (inv.queued t).mp h
    exact (notWaiting op').2.2 h
  rcases s.sema.down_cases t with ⟨_, down⟩ | ⟨pos, down⟩
  · simp only [State.lockDown, down]
    refine ⟨inv.alive, inv.head, inv.tail, fun c u => ?_, fun u op' h => ?_, fun u => ?_, inv.value,
      ?_, fun u => ?_⟩
    · rw [go_phase]
      split_ifs with same
      · subst same
        refine iff_of_false (fun h => ?_) (fun ⟨_, h, _⟩ => by cases h)
        obtain ⟨op', h, _⟩ := (inv.waiter c u).mp h
        exact (notWaiting op').1 h
      · exact inv.waiter c u
    · rw [go_phase] at h
      split_ifs at h
      exact inv.stuck u op' h
    · rw [go_phase]
      split_ifs with same
      · subst same
        refine iff_of_false (fun h => ?_) (fun ⟨_, h⟩ => by simp at h)
        obtain ⟨op', h | h⟩ := (inv.holder u).mp h
        · exact (notWaiting op').1 h
        · exact (notWaiting op').2.1 h
      · exact inv.holder u
    · simpa [State.go] using inv.nodup.concat absent
    · rw [go_phase]
      simp only [State.go, List.mem_append, List.mem_singleton, inv.queued]
      split_ifs with same
      · exact iff_of_true (.inr same) ⟨op, rfl⟩
      · simp [same]
  · have free : s.holder = none := by
      by_contra held
      simp [inv.value, held] at pos
    have one : s.sema.value = 1 := by rw [inv.value, if_pos free]
    have nobody : ∀ u op', s.phase u ≠ .waitBlocked op' ∧ s.phase u ≠ .waitWoken op' := by
      intro u op'
      have not := (not_congr (inv.holder u)).mp (by simp [free])
      simp only [not_exists, not_or] at not
      exact not op'
    simp only [State.lockDown, down, State.wait, fresh pos, if_true]
    refine ⟨inv.alive, inv.head, inv.tail, fun c u => ?_, fun u op' h => ?_, fun u => ?_, ?_,
      inv.nodup, fun u => ?_⟩
    · have none : s.waiter c ≠ some u := fun h => by
        obtain ⟨op', h, _⟩ := (inv.waiter c u).mp h
        exact (nobody u op').1 h
      rw [go_phase]
      by_cases need : c = op.needs
      · subst need
        split_ifs with same
        · simp [State.go, same]
        · simp [State.go, Ne.symm same, (nobody u _).1]
      · split_ifs with same
        · simp [State.go, need, none, Ne.symm need]
        · simp [State.go, need, none, (nobody u _).1]
    · rw [go_phase] at h
      split_ifs at h with same
      · cases h
        exact fresh pos
      · exact absurd h (nobody u op').1
    · rw [go_phase]
      split_ifs with same
      · simp [State.go, same]
      · simp [State.go, Ne.symm same, nobody u]
    · simp [State.go, one]
    · rw [go_phase]
      split_ifs with same
      · subst same
        exact iff_of_false absent (fun ⟨_, h⟩ => by cases h)
      · exact inv.queued u

theorem Inv.lockRelease (inv : Inv s) (here : s.phase t = .waitWoken op) :
    (s.lockRelease t).panicked = false ∧ Inv ((s.lockRelease t).go t .running) := by
  have held : s.holder = some t := (inv.holder t).mpr ⟨op, .inr here⟩
  have zero : s.sema.value = 0 := by simp [inv.value, held]
  have nobody : ∀ u op', s.phase u ≠ .waitBlocked op' ∧ (u ≠ t → s.phase u ≠ .waitWoken op') := by
    intro u op'
    refine ⟨fun h => ?_, fun ne h => ?_⟩
    · have same := (inv.holder u).mpr ⟨op', .inl h⟩
      rw [held, Option.some_inj] at same
      subst same
      simp [here] at h
    · have same := (inv.holder u).mpr ⟨op', .inr h⟩
      rw [held, Option.some_inj] at same
      exact ne same.symm
  have none : ∀ c u, s.waiter c ≠ some u := fun c u h => by
    obtain ⟨op', h, _⟩ := (inv.waiter c u).mp h
    exact (nobody u op').1 h
  cases waiters : s.sema.waiters with
  | nil =>
    simp only [State.lockRelease, held, if_true, Sema.up, waiters, List.head?_nil, List.tail_nil]
    refine ⟨inv.alive, inv_of_free inv.alive inv.head inv.tail none rfl (fun u op' => ?_)
      (by simp [State.go, zero]) List.nodup_nil fun u => ?_⟩
    · rw [go_phase]
      split_ifs with same
      · simp
      · exact ⟨(nobody u op').1, (nobody u op').2 same⟩
    have old := inv.queued u
    rw [waiters] at old
    rw [go_phase]
    split_ifs with same
    · simp [State.go]
    · exact old
  | cons w ws =>
    obtain ⟨opw, blocked⟩ := (inv.queued w).mp (by simp [waiters])
    have nodup := inv.nodup
    rw [waiters, List.nodup_cons] at nodup
    have ne : w ≠ t := fun same => by simp [same, here] at blocked
    simp only [State.lockRelease, held, if_true, Sema.up, waiters, List.head?_cons,
      List.tail_cons, blocked]
    refine ⟨inv.alive, inv_of_free inv.alive inv.head inv.tail none rfl (fun u op' => ?_)
      (by simp [State.go, zero]) nodup.2 fun u => ?_⟩
    · rw [go_phase, go_phase]
      split_ifs with same woken
      · simp
      · simp
      · exact ⟨(nobody u op').1, (nobody u op').2 same⟩
    have old := inv.queued u
    rw [waiters, List.mem_cons] at old
    rw [go_phase, go_phase]
    split_ifs with same woken
    · have absent : t ∉ ws := fun h => by
        obtain ⟨op', h⟩ := (inv.queued t).mp (by simp [waiters, h])
        simp [here] at h
      simp [State.go, same, absent]
    · simp [State.go, woken, nodup.1]
    · simpa [State.go, woken] using old

theorem Inv.loop (inv : Inv s) (here : s.phase t = .running) : Inv (s.loop t op) := by
  unfold State.loop
  split_ifs with lacking
  · have free : s.holder ≠ some t := fun h => by
      obtain ⟨_, h⟩ := (inv.holder t).mp h
      simp [here] at h
    rw [State.lockAcquire, if_neg free]
    exact inv.lockDown (.inl here) fun _ => lacking
  · exact { inv.perform (Bool.eq_false_iff.mpr lacking) with }

/-- A thread that slept in `lock_acquire` gets the lock only while the queue is still as
the thread found it, empty or full. -/
def Unchanged (s : State τ) : Act τ → Prop
  | .resume t => ∀ op, s.phase t = .lockWoken op → 0 < s.sema.value →
      s.ring.lacks op.needs = true
  | _ => True

theorem Inv.step (inv : Inv s) {a : Act τ} (ok : Unchanged s a) (h : step s a = some s') :
    Inv s' := by
  simp only [Intq.step, inv.alive, Bool.false_eq_true, if_false] at h
  cases a with
  | call t op =>
    simp only at h
    split_ifs at h with here
    cases h
    exact inv.loop here
  | resume t =>
    cases here : s.phase t with
    | running | lockBlocked | waitBlocked => simp [here] at h
    | lockWoken op =>
      simp only [here, Option.some.injEq] at h
      exact h ▸ inv.lockDown (.inr ⟨op, here⟩) (ok op here)
    | waitWoken op =>
      obtain ⟨alive, released⟩ := inv.lockRelease here
      simp only [here, alive, Bool.false_eq_true, if_false, Option.some.injEq] at h
      exact h ▸ released.loop (by simp)
  | handler op =>
    simp only at h
    split_ifs at h with ready
    cases h
    exact inv.perform (Bool.eq_false_iff.mpr ready)

theorem Inv.step_panics (inv : Inv s) {a : Act τ} (stale : ¬Unchanged s a)
    (h : Intq.step s a = some s') : s'.panicked = true := by
  cases a with
  | call t op => exact absurd True.intro stale
  | handler op => exact absurd True.intro stale
  | resume t =>
    simp only [Unchanged, not_forall] at stale
    obtain ⟨op, here, pos, ready⟩ := stale
    simp only [Intq.step, inv.alive, Bool.false_eq_true, if_false, here, Option.some.injEq] at h
    have down := (s.sema.down_cases t).resolve_left fun zero => by omega
    subst h
    simp [State.lockDown, down.2, State.wait, ready, State.panic]

/-- No assertion of `wait` fails and no thread sleeps in `wait` with what it waits for
there, as long as every thread that slept in `lock_acquire` finds the queue unchanged;
and the first that does not panics the kernel. -/
theorem waits_sound {buf : Nat → UInt8} (h : Reachable (start buf) step Unchanged s) :
    s.panicked = false ∧
      (∀ t op, s.phase t = .waitBlocked op → s.ring.lacks op.needs = true) ∧
      ∀ a s', step s a = some s' → (s'.panicked = false ↔ Unchanged s a) := by
  have inv : Inv s := h.invariant (inv_start buf) fun _ _ _ inv ok taken => inv.step ok taken
  refine ⟨inv.alive, inv.stuck, fun a s' taken => ⟨fun alive => ?_, fun ok => (inv.step ok taken).alive⟩⟩
  by_contra stale
  simp [inv.step_panics stale taken] at alive

theorem waits_sound_two : ∃ s : State Bool, Reachable (start fun _ => 0) step Unchanged s ∧
    s.phase false = .waitBlocked .getc ∧ s.result true = some 7 ∧
    s.panicked = false ∧
      (∀ t op, s.phase t = .waitBlocked op → s.ring.lacks op.needs = true) ∧
      ∀ a s', step s a = some s' → (s'.panicked = false ↔ Unchanged s a) := by
  have init : Reachable (start fun _ => 0 : State Bool) step Unchanged _ := .start
  have first := init.next (a := Act.call true .getc) True.intro rfl
  have second := first.next (a := Act.call false .getc) True.intro rfl
  have byte := second.next (a := Act.handler (.putc 7)) True.intro rfl
  have got := byte.next (a := Act.resume true) (fun _ h => by cases h) rfl
  have waits := got.next (a := Act.resume false) (fun _ h _ => by cases h; rfl) rfl
  exact ⟨_, waits, rfl, rfl, waits_sound waits⟩

/-- With a second byte before the second reader runs, its test of the queue is stale
when it gets the lock. -/
theorem wait_assertion_fails : ∃ s s' : State Bool,
    Reachable (start fun _ => 0) step (fun _ _ => True) s ∧
      s.phase false = .lockWoken .getc ∧ s.ring.empty = false ∧
      step s (.resume false) = some s' ∧ s'.panicked = true := by
  have init : Reachable (start fun _ => 0 : State Bool) step (fun _ _ => True) _ := .start
  have reached := init.run
    [.call true .getc, .call false .getc, .handler (.putc 7), .handler (.putc 8), .resume true]
    (fun _ _ _ => True.intro) rfl
  exact ⟨_, _, reached, rfl, rfl, rfl, rfl⟩

end Pintos.Intq
