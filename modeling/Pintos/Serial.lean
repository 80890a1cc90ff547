import Pintos.Intq

/-! The serial port of `devices/serial.c` with the input buffer of `devices/input.c`. A
step is an operation, or the part of one up to the point where it blocks or from the point
where it goes on: interrupts are off in between. A kernel panic ends the run. What the
line status and receiver registers return is chosen by the environment. -/

namespace Pintos.Serial
open Transition Intq
open Option (bind_eq_some_iff some.inj)

inductive Mode where
  | uninit
  | poll
  | queue
  deriving DecidableEq

def ierRecv : UInt8 := 0x01

def ierXmit : UInt8 := 0x02

def lsrDr : UInt8 := 0x01

def lsrThre : UInt8 := 0x20

/-- `thr` lists the bytes written to the transmitter, `ier` is the last value written to the
interrupt enable register and `accepted` lists the bytes for which `serial_putc` is done
queueing or sending. -/
structure State (τ : Type) where
  mode : Mode
  txq : Intq.State τ
  buffer : Intq.State τ
  thr : List UInt8
  ier : UInt8
  accepted : List UInt8

variable {τ : Type}

def start (txBuf buf : Nat → UInt8) (ier : UInt8) : State τ :=
  ⟨.uninit, Intq.start txBuf, Intq.start buf, [], ier, []⟩

def initPoll (s : State τ) : State τ :=
  { s with mode := .poll, txq := Intq.start s.txq.ring.buf, ier := 0 }

def writeIer (s : State τ) : State τ :=
  let ier : UInt8 := 0
  let ier := if !s.txq.ring.empty then ier ||| ierXmit else ier
  let ier := if !s.buffer.ring.full then ier ||| ierRecv else ier
  { s with ier }

def serialInitQueue (s : State τ) : Option (State τ) :=
  let s := if s.mode = .uninit then initPoll s else s
  if s.mode = .poll then some (writeIer { s with mode := .queue }) else none

/-- `lsr` are the values that the line status register will return; the loop is still
running when they end. Returns what is left of them. -/
def putcPoll (byte : UInt8) : List UInt8 → State τ → Option (List UInt8 × State τ)
  | [], _ => none
  | status :: lsr, s =>
    if status &&& lsrThre = 0 then putcPoll byte lsr s
    else some (lsr, { s with thr := s.thr ++ [byte] })

section Operations

variable [DecidableEq τ]

def getcNow (q : Intq.State τ) : Option (UInt8 × Intq.State τ) :=
  if q.ring.empty ∨ (q.perform .getc).2.panicked then none
  else some (q.ring.take.1, (q.perform .getc).2)

def putcNow (q : Intq.State τ) (byte : UInt8) : Option (Intq.State τ) :=
  if q.ring.full ∨ (q.perform (.putc byte)).2.panicked then none
  else some (q.perform (.putc byte)).2

/-- In `serial_putc`, where `intq_putc` by thread `t` has returned or blocks. -/
def afterPutc (s : State τ) (t : τ) (byte : UInt8) (txq : Intq.State τ) : Option (State τ) :=
  if txq.panicked then none
  else if txq.phase t = .running then
    some (writeIer { s with txq, accepted := s.accepted ++ [byte] })
  else some { s with txq }

def serialPutc (t : τ) (byte : UInt8) (interruptsOn : Bool) (lsr : List UInt8) (s : State τ) :
    Option (State τ) :=
  if s.mode ≠ .queue then do
    let s := if s.mode = .uninit then initPoll s else s
    let (_, s) ← putcPoll byte lsr s
    return { s with accepted := s.accepted ++ [byte] }
  else if interruptsOn = false ∧ s.txq.ring.full then do
    let (oldest, txq) ← getcNow s.txq
    let (_, s) ← putcPoll oldest lsr { s with txq }
    afterPutc s t byte (← Intq.step s.txq (.call t (.putc byte)))
  else do
    afterPutc s t byte (← Intq.step s.txq (.call t (.putc byte)))

/-- The loop of `serial_flush`; each byte takes at least one of the values in `lsr`. -/
def flushLoop : Nat → List UInt8 → State τ → Option (State τ)
  | 0, _, _ => none
  | fuel + 1, lsr, s =>
    if s.txq.ring.empty then some s
    else do
      let (byte, txq) ← getcNow s.txq
      let (lsr, s) ← putcPoll byte lsr { s with txq }
      flushLoop fuel lsr s

def serialFlush (lsr : List UInt8) (s : State τ) : Option (State τ) :=
  flushLoop (lsr.length + 1) lsr s

def serialNotify (s : State τ) : State τ := if s.mode = .queue then writeIer s else s

def inputPutc (key : UInt8) (s : State τ) : Option (State τ) := do
  let buffer ← putcNow s.buffer key
  return serialNotify { s with buffer }

def afterGetc (s : State τ) (t : τ) (buffer : Intq.State τ) : Option (State τ) :=
  if buffer.panicked then none
  else if buffer.phase t = .running then some (serialNotify { s with buffer })
  else some { s with buffer }

def inputGetc (t : τ) (s : State τ) : Option (State τ) := do
  afterGetc s t (← Intq.step s.buffer (.call t .getc))

/-- The first loop of `serial_interrupt`, over the values of the line status register and the
bytes received. -/
def receiveLoop : List (UInt8 × UInt8) → State τ → Option (State τ)
  | [], s => some s
  | (status, byte) :: rest, s =>
    if !s.buffer.ring.full ∧ status &&& lsrDr ≠ 0 then do
      receiveLoop rest (← inputPutc byte s)
    else some s

def transmitLoop : List UInt8 → State τ → Option (State τ)
  | [], s => some s
  | status :: lsr, s =>
    if !s.txq.ring.empty ∧ status &&& lsrThre ≠ 0 then do
      let (byte, txq) ← getcNow s.txq
      transmitLoop lsr { s with txq, thr := s.thr ++ [byte] }
    else some s

def serialInterrupt (received : List (UInt8 × UInt8)) (lsr : List UInt8) (s : State τ) :
    Option (State τ) := do
  let s ← receiveLoop received s
  let s ← transmitLoop lsr s
  return writeIer s

def resume (t : τ) (s : State τ) : Option (State τ) :=
  match s.txq.phase t with
  | .lockWoken (.putc byte) | .waitWoken (.putc byte) => do
    afterPutc s t byte (← Intq.step s.txq (.resume t))
  | _ => do afterGetc s t (← Intq.step s.buffer (.resume t))

inductive Act (τ : Type) where
  | serialInitQueue
  | serialPutc (t : τ) (byte : UInt8) (interruptsOn : Bool) (lsr : List UInt8)
  | serialFlush (lsr : List UInt8)
  | serialInterrupt (received : List (UInt8 × UInt8)) (lsr : List UInt8)
  | inputPutc (key : UInt8)
  | inputGetc (t : τ)
  | resume (t : τ)

def step (s : State τ) : Act τ → Option (State τ)
  | .serialInitQueue => Serial.serialInitQueue s
  | .serialPutc t byte interruptsOn lsr => Serial.serialPutc t byte interruptsOn lsr s
  | .serialFlush lsr => Serial.serialFlush lsr s
  | .serialInterrupt received lsr => Serial.serialInterrupt received lsr s
  | .inputPutc key => Serial.inputPutc key s
  | .inputGetc t => Serial.inputGetc t s
  | .resume t => Serial.resume t s

end Operations

section Contents

variable {r : Ring} {byte : UInt8}

/-- The bytes in a queue, oldest first. -/
def contents (r : Ring) : List UInt8 :=
  (List.range ((r.head + bufsize - r.tail) % bufsize)).map fun i => r.buf ((r.tail + i) % bufsize)

structure Bounded (r : Ring) : Prop where
  head : r.head < bufsize
  tail : r.tail < bufsize

theorem Bounded.put (h : Bounded r) (byte : UInt8) : Bounded (r.put byte) := ⟨next_lt _, h.tail⟩

theorem Bounded.take (h : Bounded r) : Bounded r.take.2 := ⟨h.head, next_lt _⟩

theorem bounded_start (buf : Nat → UInt8) : Bounded (Intq.start buf : Intq.State τ).ring :=
  ⟨show 0 < bufsize by decide, show 0 < bufsize by decide⟩

theorem contents_empty (h : r.empty = true) : contents r = [] := by
  have same : r.head = r.tail := beq_iff_eq.mp h
  rw [contents, same, Nat.add_sub_cancel_left]
  rfl

theorem contents_put (h : Bounded r) (room : r.full = false) :
    contents (r.put byte) = contents r ++ [byte] := by
  have head := h.head
  have tail := h.tail
  have apart : next r.head ≠ r.tail := beq_eq_false_iff_ne.mp room
  simp only [next, bufsize] at head tail apart
  have count : (next r.head + bufsize - r.tail) % bufsize =
      (r.head + bufsize - r.tail) % bufsize + 1 := by
    simp only [next, bufsize]
    omega
  have last : (r.tail + (r.head + bufsize - r.tail) % bufsize) % bufsize = r.head := by
    simp only [bufsize]
    omega
  simp only [contents, Ring.put, count, List.range_succ, List.map_append, List.map_singleton, last,
    Function.update_self]
  congr 1
  apply List.map_congr_left
  intro i inside
  have below := List.mem_range.mp inside
  refine Function.update_of_ne (fun same => ?_) ..
  simp only [bufsize] at below same
  omega

theorem contents_take (h : Bounded r) (some : r.empty = false) :
    contents r = r.take.1 :: contents r.take.2 := by
  have head := h.head
  have tail := h.tail
  have apart : r.head ≠ r.tail := beq_eq_false_iff_ne.mp some
  simp only [bufsize] at head tail
  have count : (r.head + bufsize - r.tail) % bufsize =
      (r.head + bufsize - next r.tail) % bufsize + 1 := by
    simp only [next, bufsize]
    omega
  have first : (r.tail + 0) % bufsize = r.tail := by
    simp only [bufsize]
    omega
  simp only [contents, Ring.take, count, List.range_succ_eq_map, List.map_cons, List.map_map, first]
  congr 1
  apply List.map_congr_left
  intro i _
  have index : (r.tail + (i + 1)) % bufsize = (next r.tail + i) % bufsize := by
    simp only [next, bufsize]
    omega
  exact congrArg r.buf index

end Contents

section Queue

variable [DecidableEq τ] {q q' : Intq.State τ} {t : τ} {op : Op}

theorem signal_ring (q : Intq.State τ) (c : Cond) : (q.signal c).ring = q.ring := by
  rw [Intq.State.signal]
  split
  · rfl
  · split
    · rfl
    · split <;> rfl

def applied (r : Ring) : Op → Ring
  | .getc => r.take.2
  | .putc byte => r.put byte

theorem perform_ring (q : Intq.State τ) (op : Op) : (q.perform op).2.ring = applied q.ring op := by
  cases op with
  | getc => exact signal_ring _ _
  | putc byte => exact signal_ring _ _

theorem lockDown_spec (q : Intq.State τ) (t : τ) (op : Op) : (q.lockDown t op).panicked = true ∨
    (q.lockDown t op).ring = q.ring ∧ (q.lockDown t op).phase t ≠ .running := by
  rw [Intq.State.lockDown]
  split
  · rw [Intq.State.wait]
    split
    · exact .inr ⟨rfl, by simp⟩
    · exact .inl rfl
  · exact .inr ⟨rfl, by simp⟩

theorem lockRelease_ring (q : Intq.State τ) (t : τ) : (q.lockRelease t).ring = q.ring := by
  rw [Intq.State.lockRelease]
  split
  · split
    · rfl
    · split <;> rfl
  · rfl

theorem signal_running {c : Cond} (h : q.phase t = .running) : (q.signal c).phase t = .running := by
  rw [Intq.State.signal]
  split
  · exact h
  split
  · exact h
  next w _ =>
  split
  · next op blocked =>
    have other : t ≠ w := fun same => by rw [← same, h] at blocked; cases blocked
    simpa [other] using h
  · exact h

/-- How a part of an operation by thread `t` can end. -/
inductive Ended (q : Intq.State τ) (t : τ) (op : Op) (q' : Intq.State τ) : Prop where
  | panic : q'.panicked = true → Ended q t op q'
  | blocks : q'.ring = q.ring → q'.phase t ≠ .running → Ended q t op q'
  | done : q.ring.lacks op.needs = false → q'.ring = applied q.ring op → q'.phase t = .running →
      Ended q t op q'

theorem loop_ended (h : q.phase t = .running) (op : Op) : Ended q t op (q.loop t op) := by
  rw [Intq.State.loop]
  cases lacks : q.ring.lacks op.needs with
  | true =>
    rw [if_pos rfl, Intq.State.lockAcquire]
    split
    · exact .panic rfl
    · rcases lockDown_spec q t op with panic | ⟨ring, asleep⟩
      · exact .panic panic
      · exact .blocks ring asleep
  | false => exact .done lacks (perform_ring q op) (by cases op <;> exact signal_running h)

theorem call_ended (h : Intq.step q (.call t op) = some q') : Ended q t op q' := by
  simp only [Intq.step] at h
  split at h
  · cases h
  · split at h
    · next running =>
      obtain rfl := some.inj h
      exact loop_ended running op
    · cases h

theorem resume_woken (h : Intq.step q (.resume t) = some q') :
    ∃ op, q.phase t = .lockWoken op ∨ q.phase t = .waitWoken op := by
  simp only [Intq.step] at h
  split at h
  · cases h
  · split at h
    · next op woken => exact ⟨op, .inl woken⟩
    · next op woken => exact ⟨op, .inr woken⟩
    · cases h

theorem resume_ended (woken : q.phase t = .lockWoken op ∨ q.phase t = .waitWoken op)
    (h : Intq.step q (.resume t) = some q') : Ended q t op q' := by
  simp only [Intq.step] at h
  split at h
  · cases h
  rcases woken with woken | woken
  · simp only [woken] at h
    obtain rfl := some.inj h
    rcases lockDown_spec q t op with panic | ⟨ring, asleep⟩
    · exact .panic panic
    · exact .blocks ring asleep
  simp only [woken] at h
  split at h
  · next panic =>
    obtain rfl := some.inj h
    exact .panic panic
  obtain rfl := some.inj h
  have ended := loop_ended (q := (q.lockRelease t).go t .running) (t := t) (by simp) op
  have same : ((q.lockRelease t).go t .running).ring = q.ring := lockRelease_ring q t
  cases ended with
  | panic panic => exact .panic panic
  | blocks ring asleep => exact .blocks (ring.trans same) asleep
  | done ready ring running => exact .done (same ▸ ready) (ring.trans (by rw [same])) running

end Queue

structure Sound (s : State τ) : Prop where
  txq : Bounded s.txq.ring
  buffer : Bounded s.buffer.ring
  order : s.thr ++ contents s.txq.ring = s.accepted
  unused : s.mode ≠ .queue → s.txq.ring.empty = true ∧ ∀ t, s.txq.phase t = .running
  xmit : s.mode = .queue → s.txq.ring.empty = false → s.ier &&& ierXmit ≠ 0
  recv : s.mode = .queue → s.buffer.ring.full = false → s.ier &&& ierRecv ≠ 0

section Steps

variable {s s' : State τ} {t : τ} {byte : UInt8}

theorem sound_writeIer (txq : Bounded s.txq.ring) (buffer : Bounded s.buffer.ring)
    (order : s.thr ++ contents s.txq.ring = s.accepted)
    (unused : s.mode ≠ .queue → s.txq.ring.empty = true ∧ ∀ t, s.txq.phase t = .running) :
    Sound (writeIer s) := by
  refine ⟨txq, buffer, order, unused, fun _ some => ?_, fun _ room => ?_⟩
  · simp only [writeIer] at some ⊢
    rw [some]
    split <;> decide
  · simp only [writeIer] at room ⊢
    rw [room]
    cases s.txq.ring.empty <;> decide

theorem Sound.initPoll (h : Sound s) (uninit : s.mode = .uninit) : Sound (initPoll s) := by
  have order := h.order
  rw [contents_empty (h.unused (by rw [uninit]; decide)).1] at order
  have cleared : contents (Serial.initPoll s).txq.ring = [] := contents_empty rfl
  exact ⟨bounded_start _, h.buffer, by rw [cleared]; exact order, fun _ => ⟨rfl, fun _ => rfl⟩,
    (fun queue => nomatch queue), (fun queue => nomatch queue)⟩

theorem Sound.polling (h : Sound s) (early : s.mode ≠ .queue) :
    Sound (if s.mode = .uninit then Serial.initPoll s else s) ∧
      (if s.mode = .uninit then Serial.initPoll s else s).mode = .poll := by
  by_cases uninit : s.mode = .uninit
  · rw [if_pos uninit]
    exact ⟨h.initPoll uninit, rfl⟩
  rw [if_neg uninit]
  refine ⟨h, ?_⟩
  cases mode : s.mode with
  | uninit => exact absurd mode uninit
  | poll => rfl
  | queue => exact absurd mode early

theorem Sound.serialInitQueue (h : Sound s) (ran : serialInitQueue s = some s') : Sound s' := by
  by_cases early : s.mode = .queue
  · simp [Serial.serialInitQueue, early] at ran
  · obtain ⟨sound, poll⟩ := h.polling early
    simp only [Serial.serialInitQueue, poll, if_true, Option.some.injEq] at ran
    subst ran
    exact sound_writeIer sound.txq sound.buffer sound.order fun other => absurd rfl other

theorem putcPoll_spec {lsr rest : List UInt8} (h : putcPoll byte lsr s = some (rest, s')) :
    s' = { s with thr := s.thr ++ [byte] } := by
  induction lsr with
  | nil => cases h
  | cons status lsr ih =>
    rw [putcPoll] at h
    split at h
    · exact ih h
    · exact (Prod.mk.inj (some.inj h)).2.symm

theorem Sound.notified (h : Sound s) {buffer : Intq.State τ} (bounded : Bounded buffer.ring) :
    Sound (serialNotify { s with buffer }) := by
  rw [serialNotify]
  split
  · exact sound_writeIer h.txq bounded h.order h.unused
  · next other =>
    exact ⟨h.txq, bounded, h.order, h.unused, fun queue => absurd queue other,
      fun queue => absurd queue other⟩

theorem Sound.afterPutc (h : Sound s) (queue : s.mode = .queue) {txq : Intq.State τ}
    (ended : Ended s.txq t (.putc byte) txq) (ran : afterPutc s t byte txq = some s') :
    Sound s' := by
  rw [Serial.afterPutc] at ran
  cases ended with
  | panic panic => simp [panic] at ran
  | blocks ring asleep =>
    split at ran
    · cases ran
    · obtain rfl := some.inj ran
      exact ⟨ring ▸ h.txq, h.buffer, ring ▸ h.order, fun other => absurd queue other,
        fun _ some => h.xmit queue (ring ▸ some), h.recv⟩
  | done room ring running =>
    split at ran
    · cases ran
    · obtain rfl := some.inj ran
      have put : txq.ring = s.txq.ring.put byte := ring
      refine sound_writeIer (put ▸ h.txq.put byte) h.buffer ?_ fun other => absurd queue other
      change s.thr ++ contents txq.ring = s.accepted ++ [byte]
      rw [put, contents_put h.txq room, ← h.order, List.append_assoc]

theorem Sound.afterGetc (h : Sound s) {buffer : Intq.State τ} {op : Op}
    (ended : Ended s.buffer t op buffer) (ran : afterGetc s t buffer = some s') : Sound s' := by
  rw [Serial.afterGetc] at ran
  cases ended with
  | panic panic => simp [panic] at ran
  | blocks ring asleep =>
    split at ran
    · cases ran
    · obtain rfl := some.inj ran
      exact { h with
        buffer := ring ▸ h.buffer
        recv := fun queue room => h.recv queue (ring ▸ room) }
  | done ready ring running =>
    split at ran
    · cases ran
    · obtain rfl := some.inj ran
      refine h.notified (ring ▸ ?_)
      cases op with
      | getc => exact h.buffer.take
      | putc byte => exact h.buffer.put byte

variable [DecidableEq τ]

theorem getcNow_spec {q q' : Intq.State τ} (h : getcNow q = some (byte, q')) :
    q.ring.empty = false ∧ byte = q.ring.take.1 ∧ q'.ring = q.ring.take.2 := by
  rw [getcNow] at h
  split at h
  · cases h
  · next ready =>
    obtain ⟨rfl, rfl⟩ := Prod.mk.inj (some.inj h)
    rw [not_or, Bool.not_eq_true] at ready
    exact ⟨ready.1, rfl, perform_ring q .getc⟩

theorem putcNow_spec {q q' : Intq.State τ} (h : putcNow q byte = some q') :
    q'.ring = q.ring.put byte := by
  rw [putcNow] at h
  split at h
  · cases h
  · obtain rfl := some.inj h
    exact perform_ring q (.putc byte)

section

variable (h : Sound s)
include h

theorem Sound.sends {txq : Intq.State τ} (got : getcNow s.txq = some (byte, txq)) :
    Sound { s with txq, thr := s.thr ++ [byte] } := by
  obtain ⟨some, rfl, ring⟩ := getcNow_spec got
  have queue : s.mode = .queue := by
    by_contra other
    rw [(h.unused other).1] at some
    cases some
  refine ⟨ring ▸ h.txq.take, h.buffer, ?_, fun other => absurd queue other,
    fun _ _ => h.xmit queue some, h.recv⟩
  rw [← h.order, contents_take h.txq some, ← ring, List.append_assoc, List.singleton_append]

theorem Sound.serialPutc {interruptsOn : Bool} {lsr : List UInt8}
    (ran : serialPutc t byte interruptsOn lsr s = some s') : Sound s' := by
  rw [Serial.serialPutc] at ran
  by_cases early : s.mode ≠ .queue
  · obtain ⟨sound, poll⟩ := h.polling early
    rw [if_pos early] at ran
    obtain ⟨⟨rest, s1⟩, sent, ran⟩ := bind_eq_some_iff.mp ran
    obtain rfl := some.inj ran
    obtain rfl := putcPoll_spec sent
    have unused := sound.unused (by rw [poll]; decide)
    refine ⟨sound.txq, sound.buffer, ?_, sound.unused, sound.xmit, sound.recv⟩
    have order := sound.order
    simp only [contents_empty unused.1, List.append_nil] at order ⊢
    rw [order]
  · have queue : s.mode = .queue := not_not.mp early
    rw [if_neg early] at ran
    split at ran
    · obtain ⟨⟨oldest, txq⟩, got, ran⟩ := bind_eq_some_iff.mp ran
      obtain ⟨⟨rest, s1⟩, sent, ran⟩ := bind_eq_some_iff.mp ran
      obtain ⟨txq', called, ran⟩ := bind_eq_some_iff.mp ran
      obtain rfl := putcPoll_spec sent
      exact (h.sends got).afterPutc queue (call_ended called) ran
    · obtain ⟨txq', called, ran⟩ := bind_eq_some_iff.mp ran
      exact h.afterPutc queue (call_ended called) ran

theorem Sound.flushLoop {fuel : Nat} {lsr : List UInt8} (ran : flushLoop fuel lsr s = some s') :
    Sound s' := by
  induction fuel generalizing s lsr with
  | zero => cases ran
  | succ fuel ih =>
    rw [Serial.flushLoop] at ran
    split at ran
    · obtain rfl := some.inj ran
      exact h
    · obtain ⟨⟨oldest, txq⟩, got, ran⟩ := bind_eq_some_iff.mp ran
      obtain ⟨⟨rest, s1⟩, sent, ran⟩ := bind_eq_some_iff.mp ran
      obtain rfl := putcPoll_spec sent
      exact ih (h.sends got) ran

theorem Sound.inputPutc (ran : inputPutc byte s = some s') : Sound s' := by
  obtain ⟨buffer, put, ran⟩ := bind_eq_some_iff.mp ran
  obtain rfl := some.inj ran
  exact h.notified (putcNow_spec put ▸ h.buffer.put byte)

theorem Sound.receiveLoop {received : List (UInt8 × UInt8)} (ran : receiveLoop received s = some s') :
    Sound s' := by
  induction received generalizing s with
  | nil =>
    obtain rfl := some.inj ran
    exact h
  | cons first rest ih =>
    rw [Serial.receiveLoop] at ran
    split at ran
    · obtain ⟨s1, put, ran⟩ := bind_eq_some_iff.mp ran
      exact ih (h.inputPutc put) ran
    · obtain rfl := some.inj ran
      exact h

theorem Sound.transmitLoop {lsr : List UInt8} (ran : transmitLoop lsr s = some s') : Sound s' := by
  induction lsr generalizing s with
  | nil =>
    obtain rfl := some.inj ran
    exact h
  | cons status lsr ih =>
    rw [Serial.transmitLoop] at ran
    split at ran
    · obtain ⟨⟨oldest, txq⟩, got, ran⟩ := bind_eq_some_iff.mp ran
      exact ih (h.sends got) ran
    · obtain rfl := some.inj ran
      exact h

theorem Sound.resume (ran : resume t s = some s') : Sound s' := by
  have queue {byte : UInt8} (woken : s.txq.phase t = .lockWoken (.putc byte) ∨
      s.txq.phase t = .waitWoken (.putc byte)) : s.mode = .queue := by
    by_contra other
    rw [(h.unused other).2 t] at woken
    rcases woken with woken | woken <;> cases woken
  rw [Serial.resume] at ran
  split at ran
  · next byte woken =>
    obtain ⟨txq, resumed, ran⟩ := bind_eq_some_iff.mp ran
    exact h.afterPutc (queue (.inl woken)) (resume_ended (.inl woken) resumed) ran
  · next byte woken =>
    obtain ⟨txq, resumed, ran⟩ := bind_eq_some_iff.mp ran
    exact h.afterPutc (queue (.inr woken)) (resume_ended (.inr woken) resumed) ran
  · obtain ⟨buffer, resumed, ran⟩ := bind_eq_some_iff.mp ran
    obtain ⟨op, woken⟩ := resume_woken resumed
    exact h.afterGetc (resume_ended woken resumed) ran

theorem Sound.step {a : Act τ} (ran : step s a = some s') : Sound s' := by
  cases a with
  | serialInitQueue => exact h.serialInitQueue ran
  | serialPutc t byte interruptsOn lsr => exact h.serialPutc ran
  | serialFlush lsr => exact h.flushLoop ran
  | serialInterrupt received lsr =>
    obtain ⟨s1, received, ran⟩ := bind_eq_some_iff.mp ran
    obtain ⟨s2, sent, ran⟩ := bind_eq_some_iff.mp ran
    obtain rfl := some.inj ran
    have sound := (h.receiveLoop received).transmitLoop sent
    exact sound_writeIer sound.txq sound.buffer sound.order sound.unused
  | inputPutc key => exact h.inputPutc ran
  | inputGetc t =>
    obtain ⟨buffer, called, ran⟩ := bind_eq_some_iff.mp ran
    exact h.afterGetc (call_ended called) ran
  | resume t => exact h.resume ran

end

end Steps

/-- In every run, the bytes sent and then those in the queue are the bytes accepted, in order,
and once the queue is in use a byte in it or room for input keeps its interrupt enabled. -/
theorem serial_in_order [DecidableEq τ] {txBuf buf : Nat → UInt8} {ier : UInt8} {s : State τ}
    (run : Reachable (start txBuf buf ier) step (fun _ _ => True) s) :
    s.thr ++ contents s.txq.ring = s.accepted ∧
      (s.mode = .queue → (s.txq.ring.empty = false → s.ier &&& ierXmit ≠ 0) ∧
        (s.buffer.ring.full = false → s.ier &&& ierRecv ≠ 0)) := by
  have first : Sound (start txBuf buf ier : State τ) :=
    ⟨bounded_start _, bounded_start _, contents_empty rfl, fun _ => ⟨rfl, fun _ => rfl⟩,
      (fun queue => nomatch queue), (fun queue => nomatch queue)⟩
  have sound := run.invariant first fun s a s' before _ taken => before.step taken
  exact ⟨sound.order, fun queue => ⟨sound.xmit queue, sound.recv queue⟩⟩

theorem serial_in_order_queued : ∃ s : State Unit,
    Reachable (start (fun _ => 0) (fun _ => 0) 0) step (fun _ _ => True) s ∧
      s.thr ++ contents s.txq.ring = [1, 2] ∧ s.ier &&& ierXmit ≠ 0 := by
  let first : State Unit := start (fun _ => 0) (fun _ => 0) 0
  have booted : Reachable first step (fun _ _ => True) first := .start
  have reached : Reachable first step (fun _ _ => True) _ :=
    booted.run [.serialPutc () 1 true [0x20], .serialInitQueue, .serialPutc () 2 true []]
      (fun _ _ _ => trivial) rfl
  obtain ⟨order, enabled⟩ := serial_in_order reached
  exact ⟨_, reached, order, (enabled rfl).1 rfl⟩

end Pintos.Serial
