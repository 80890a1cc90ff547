import Pintos.Semaphore

/-! The scheduler. A step is a stretch of code between two points where a timer tick may
preempt the running thread: the functions of `thread.c` and the semaphore operations run
with interrupts off and are one step up to the switch to another thread. Threads are
numbered in the order of their creation, so that a number, unlike the address of a page,
is not used again. -/

namespace Pintos.Scheduler
open Transition Semaphore Function

/-- The semaphores: the one of `thread_start`, the one in `tid_lock`, and all others. -/
inductive SemaId (κ : Type) where
  | idleStarted
  | tidLock
  | other (x : κ)
  deriving DecidableEq

inductive Status where
  | running
  | ready
  | blocked
  | dying
  deriving DecidableEq

inductive Code (κ : Type) where
  | free
  /-- The test of the loop in `sema_down`. -/
  | down (x : SemaId κ)
  | createDown (n : Nat)
  | createUp (n : Nat)
  | createUnblock (n : Nat)
  /-- The assignment to `idle_thread`. -/
  | idleRecord
  | idleUp
  | idleLoop
  /-- Under construction in `thread_create`, and known to its creator only. -/
  | embryo

def Code.sema {κ : Type} : Code κ → Option (SemaId κ)
  | .down x => some x
  | .createDown _ => some .tidLock
  | _ => none

def Code.child {κ : Type} : Code κ → Option Nat
  | .createDown n | .createUp n | .createUnblock n => some n
  | _ => none

def Code.isIdle {κ : Type} : Code κ → Bool
  | .idleRecord | .idleUp | .idleLoop => true
  | _ => false

structure State (κ : Type) where
  status : Nat → Option Status
  code : Nat → Code κ
  next : Nat
  ready : List Nat
  sema : SemaId κ → Sema Nat
  current : Nat
  idle : Option Nat
  ticks : Nat
  freed : List (Nat × Nat)
  exited : List (Nat × Nat)

def initialThread : Nat := 0

def idleThread : Nat := 1

def timeSlice : Nat := 4

variable {κ : Type}

def startSema (v : κ → Nat) : SemaId κ → Sema Nat
  | .idleStarted => semaInit 0
  | .tidLock => semaInit 1
  | .other x => semaInit (v x)

/-- In `thread_start`, after it has enabled interrupts. -/
def start (v : κ → Nat) : State κ where
  status t := if t = initialThread then some .running
    else if t = idleThread then some .ready else none
  code t := if t = initialThread then .down .idleStarted
    else if t = idleThread then .idleRecord else .free
  next := 2
  ready := [idleThread]
  sema := startSema v
  current := initialThread
  idle := none
  ticks := 0
  freed := []
  exited := []

def State.set (s : State κ) (t : Nat) (p : Status) : State κ :=
  { s with status := update s.status t (some p) }

def State.goto (s : State κ) (t : Nat) (c : Code κ) : State κ :=
  { s with code := update s.code t c }

def State.nextThreadToRun (s : State κ) : Option Nat × List Nat :=
  match s.ready with
  | [] => (s.idle, [])
  | n :: rest => (some n, rest)

/-- Run by the thread switched to. -/
def State.scheduleTail (s : State κ) (prev : Option Nat) : State κ :=
  let s := { s.set s.current .running with ticks := 0 }
  match prev with
  | none => s
  | some p =>
    if s.status p = some .dying ∧ p ≠ initialThread then
      { s with status := update s.status p none, freed := s.freed ++ [(p, s.current)] }
    else s

/-- `none` if an assertion fails. -/
def State.schedule (s : State κ) : Option (State κ) :=
  match s.nextThreadToRun with
  | (none, _) => none
  | (some n, rest) =>
    if s.status s.current ≠ some .running ∧ (s.status n).isSome then
      some ({ s with ready := rest, current := n }.scheduleTail
        (if s.current ≠ n then some s.current else none))
    else none

def State.block (s : State κ) : Option (State κ) := (s.set s.current .blocked).schedule

def State.unblock (s : State κ) (n : Nat) : Option (State κ) :=
  if s.status n = some .blocked then some ({ s with ready := s.ready ++ [n] }.set n .ready)
  else none

def State.yield (s : State κ) : Option (State κ) :=
  ({ s with ready := if s.idle = some s.current then s.ready else s.ready ++ [s.current] }.set
    s.current .ready).schedule

def State.exit (s : State κ) : Option (State κ) :=
  (s.set s.current .dying).schedule.map fun s' =>
    { s' with exited := s'.exited ++ [(s.current, s'.current)] }

def State.setSema [DecidableEq κ] (s : State κ) (x : SemaId κ) (m : Sema Nat) : State κ :=
  { s with sema := update s.sema x m }

/-- One test in `sema_down`; the thread goes on with `c` once it has its unit. -/
def State.semaDown [DecidableEq κ] (s : State κ) (x : SemaId κ) (c : Code κ) : Option (State κ) :=
  match (s.sema x).down s.current with
  | (true, m) => some ((s.setSema x m).goto s.current c)
  | (false, m) => (s.setSema x m).block

def State.semaUp [DecidableEq κ] (s : State κ) (x : SemaId κ) : Option (State κ) :=
  match (s.sema x).up with
  | (none, m) => some (s.setSema x m)
  | (some w, m) => (s.setSema x m).unblock w

/-- `thread_create` up to `allocate_tid`. -/
def State.create (s : State κ) : State κ :=
  (({ s with next := s.next + 1 }.set s.next .blocked).goto s.next .embryo).goto s.current
    (.createDown s.next)

def State.proceed [DecidableEq κ] (s : State κ) : Option (State κ) :=
  match s.code s.current with
  | .free | .embryo => none
  | .down x => s.semaDown x .free
  | .createDown n => s.semaDown .tidLock (.createUp n)
  | .createUp n => (s.semaUp .tidLock).map (·.goto s.current (.createUnblock n))
  | .createUnblock n => (s.unblock n).map fun s' => (s'.goto s.current .free).goto n .free
  | .idleRecord => some ({ s with idle := some s.current }.goto s.current .idleUp)
  | .idleUp => (s.semaUp .idleStarted).map (·.goto s.current .idleLoop)
  | .idleLoop => s.block

def State.tick (s : State κ) : Option (State κ) :=
  if timeSlice ≤ s.ticks + 1 then { s with ticks := s.ticks + 1 }.yield
  else some { s with ticks := s.ticks + 1 }

/-- The first six are calls of the running thread, `semaUp` and `unblock` also those of
an interrupt handler. -/
inductive Act (κ : Type) where
  | create
  | yield
  | block
  | exit
  | semaDown (x : κ)
  | proceed
  | semaUp (x : κ)
  | unblock (n : Nat)
  | tick

/-- A call the running thread can make while it is outside the functions above. -/
def State.call (s : State κ) (f : State κ → Option (State κ)) : Option (State κ) :=
  match s.code s.current with
  | .free => f s
  | _ => none

def step [DecidableEq κ] (s : State κ) : Act κ → Option (State κ)
  | .create => s.call fun s => some s.create
  | .yield => s.call State.yield
  | .block => s.call State.block
  | .exit => s.call State.exit
  | .semaDown x => s.call fun s => some (s.goto s.current (.down (.other x)))
  | .proceed => s.proceed
  | .semaUp x => s.semaUp (.other x)
  | .unblock n =>
    match s.code n with
    | .embryo => none
    | _ => s.unblock n
  | .tick => s.tick

/-- `thread_unblock` is called for a thread that called `thread_block` itself. -/
def Parked (s : State κ) : Act κ → Prop
  | .unblock n => s.code n = .free
  | _ => True

end Pintos.Scheduler
