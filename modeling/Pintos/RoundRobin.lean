import Pintos.Scheduler

/-! Round robin. A thread on the ready list is overtaken by no thread behind it, and each
thread ahead of it runs for at most one time slice. -/

namespace Pintos.Scheduler
open Transition Semaphore
open Option (some.inj)

variable {κ : Type}

/-- In `thread_yield`, at the call of `schedule`. -/
def State.requeue (s : State κ) : State κ :=
  { s with ready := if s.idle = some s.current then s.ready else s.ready ++ [s.current] }.set
    s.current .ready

def State.sleeping [DecidableEq κ] (s : State κ) (x : SemaId κ) : Option (State κ) :=
  match (s.sema x).down s.current with
  | (true, _) => none
  | (false, m) => some ((s.setSema x m).set s.current .blocked)

/-- The state in which a step calls `schedule`, if it does. -/
def State.atSwitch [DecidableEq κ] (s : State κ) : Act κ → Option (State κ)
  | .yield => s.call fun s => some s.requeue
  | .block => s.call fun s => some (s.set s.current .blocked)
  | .exit => s.call fun s => some (s.set s.current .dying)
  | .proceed =>
    match s.code s.current with
    | .down x => s.sleeping x
    | .createDown _ => s.sleeping .tidLock
    | .idleLoop => some (s.set s.current .blocked)
    | _ => none
  | .tick => if timeSlice ≤ s.ticks + 1 then some { s with ticks := s.ticks + 1 }.requeue else none
  | _ => none

def State.dispatched [DecidableEq κ] (s : State κ) (a : Act κ) : Option Nat :=
  (s.atSwitch a).bind fun m => m.nextThreadToRun.1

def State.queue [DecidableEq κ] (s : State κ) (a : Act κ) : List Nat :=
  match s.atSwitch a, step s a with
  | some m, _ => m.ready
  | none, some s' => s'.ready
  | none, none => s.ready

def dispatches [DecidableEq κ] (s : State κ) : List (Act κ) → List Nat
  | [] => []
  | a :: rest => (s.dispatched a).toList ++
    match step s a with
    | some s' => dispatches s' rest
    | none => []

def Act.isTick : Act κ → Bool
  | .tick => true
  | _ => false

section Steps

variable {s s' : State κ} {a : Act κ} {t : Nat}

theorem scheduleTail_keeps (s : State κ) (prev : Option Nat) : (s.scheduleTail prev).ticks = 0 ∧
    (s.scheduleTail prev).ready = s.ready ∧ (s.scheduleTail prev).current = s.current := by
  cases prev with
  | none => exact ⟨rfl, rfl, rfl⟩
  | some p =>
    simp only [State.scheduleTail]
    split
    · exact ⟨rfl, rfl, rfl⟩
    · exact ⟨rfl, rfl, rfl⟩

theorem schedule_takes (h : s.schedule = some s') :
    s'.ticks = 0 ∧ s.nextThreadToRun = (some s'.current, s'.ready) := by
  rw [State.schedule] at h
  split at h
  · cases h
  next n rest pick =>
  split at h
  · obtain rfl := some.inj h
    obtain ⟨ticks, ready, current⟩ := scheduleTail_keeps
      { s with ready := rest, current := n } (if s.current ≠ n then some s.current else none)
    rw [ticks, ready, current, pick]
    exact ⟨rfl, rfl⟩
  · cases h

/-- The ready list grows at its end only. -/
def Grows (s s' : State κ) : Prop := ∃ new, s'.ready = s.ready ++ new

theorem Grows.same (h : s'.ready = s.ready) : Grows s s' := ⟨[], by rw [h, List.append_nil]⟩

theorem unblock_grows (h : s.unblock t = some s') : Grows s s' ∧ s'.ticks = s.ticks := by
  rw [State.unblock] at h
  split at h
  · obtain rfl := some.inj h
    exact ⟨⟨[t], rfl⟩, rfl⟩
  · cases h

theorem requeue_grows (s : State κ) : Grows s s.requeue := by
  by_cases idle : s.idle = some s.current
  · exact .same (by simp [State.requeue, State.set, idle])
  · exact ⟨[s.current], by simp [State.requeue, State.set, idle]⟩

variable [DecidableEq κ]

theorem semaUp_grows {x : SemaId κ} (h : s.semaUp x = some s') : Grows s s' ∧ s'.ticks = s.ticks := by
  rw [State.semaUp] at h
  split at h
  · obtain rfl := some.inj h
    exact ⟨.same rfl, rfl⟩
  · have grown := unblock_grows h
    exact grown

/-- A step that does not switch: the list grows, and a tick leaves the slice unfinished. -/
structure Stays (s : State κ) (a : Act κ) (s' : State κ) : Prop where
  silent : s.atSwitch a = none
  grows : Grows s s'
  ticks : s'.ticks = s.ticks + if a.isTick then 1 else 0
  unfinished : a.isTick = true → s'.ticks < timeSlice

/-- A step that switches, from the state `m`. -/
structure Switches (s : State κ) (a : Act κ) (m s' : State κ) : Prop where
  called : s.atSwitch a = some m
  grows : Grows s m
  ticks : s'.ticks = 0
  takes : m.nextThreadToRun = (some s'.current, s'.ready)

theorem Switches.of_schedule {m : State κ} (called : s.atSwitch a = some m) (grows : Grows s m)
    (h : m.schedule = some s') : Switches s a m s' := by
  obtain ⟨ticks, takes⟩ := schedule_takes h
  exact ⟨called, grows, ticks, takes⟩

theorem semaDown_cases {x : SemaId κ} {c : Code κ} (h : s.semaDown x c = some s') :
    (s.sleeping x = none ∧ s'.ready = s.ready ∧ s'.ticks = s.ticks) ∨
      ∃ m, s.sleeping x = some m ∧ m.ready = s.ready ∧ m.schedule = some s' := by
  rw [State.semaDown] at h
  rw [State.sleeping]
  cases down : (s.sema x).down s.current with
  | mk got m =>
    rw [down] at h
    cases got with
    | false => exact .inr ⟨_, rfl, rfl, h⟩
    | true =>
      obtain rfl := some.inj h
      exact .inl ⟨rfl, rfl, rfl⟩

omit [DecidableEq κ] in
theorem call_free {f : State κ → Option (State κ)} (h : s.call f = some s') :
    f s = some s' ∧ ∀ g : State κ → Option (State κ), s.call g = g s := by
  simp only [State.call] at h ⊢
  split at h
  · next free => exact ⟨h, fun g => rfl⟩
  · cases h

theorem proceed_cases (h : s.proceed = some s') :
    Stays s .proceed s' ∨ ∃ m, Switches s .proceed m s' := by
  have stays (silent : s.atSwitch .proceed = none) (grown : Grows s s' ∧ s'.ticks = s.ticks) :
      Stays s .proceed s' := ⟨silent, grown.1, grown.2, fun tick => nomatch tick⟩
  rw [State.proceed] at h
  cases code : s.code s.current with
  | free | embryo => simp [code] at h
  | down x =>
    simp only [code] at h
    rcases semaDown_cases h with ⟨silent, ready, ticks⟩ | ⟨m, called, ready, ran⟩
    · exact .inl (stays (by simp only [State.atSwitch, code, silent]) ⟨.same ready, ticks⟩)
    · exact .inr ⟨m, .of_schedule (by simp only [State.atSwitch, code, called]) (.same ready) ran⟩
  | createDown n =>
    simp only [code] at h
    rcases semaDown_cases h with ⟨silent, ready, ticks⟩ | ⟨m, called, ready, ran⟩
    · exact .inl (stays (by simp only [State.atSwitch, code, silent]) ⟨.same ready, ticks⟩)
    · exact .inr ⟨m, .of_schedule (by simp only [State.atSwitch, code, called]) (.same ready) ran⟩
  | createUp n =>
    simp only [code] at h
    obtain ⟨t, up, rfl⟩ := Option.map_eq_some_iff.mp h
    have grown := semaUp_grows up
    exact .inl (stays (by simp only [State.atSwitch, code]) grown)
  | createUnblock n =>
    simp only [code] at h
    obtain ⟨t, unblocked, rfl⟩ := Option.map_eq_some_iff.mp h
    have grown := unblock_grows unblocked
    exact .inl (stays (by simp only [State.atSwitch, code]) grown)
  | idleRecord =>
    simp only [code] at h
    obtain rfl := some.inj h
    exact .inl (stays (by simp only [State.atSwitch, code]) ⟨.same rfl, rfl⟩)
  | idleUp =>
    simp only [code] at h
    obtain ⟨t, up, rfl⟩ := Option.map_eq_some_iff.mp h
    have grown := semaUp_grows up
    exact .inl (stays (by simp only [State.atSwitch, code]) grown)
  | idleLoop =>
    simp only [code] at h
    exact .inr ⟨s.set s.current .blocked,
      .of_schedule (by simp only [State.atSwitch, code]) (.same rfl) h⟩

theorem step_cases (h : step s a = some s') : Stays s a s' ∨ ∃ m, Switches s a m s' := by
  cases a with
  | create =>
    rw [step] at h
    obtain ⟨made, -⟩ := call_free h
    obtain rfl := some.inj made
    exact .inl ⟨rfl, .same rfl, rfl, fun tick => nomatch tick⟩
  | yield =>
    rw [step] at h
    obtain ⟨ran, free⟩ := call_free h
    have called : s.atSwitch .yield = some s.requeue := free fun s => some s.requeue
    exact .inr ⟨s.requeue, .of_schedule called (requeue_grows s) ran⟩
  | block =>
    rw [step] at h
    obtain ⟨ran, free⟩ := call_free h
    have called : s.atSwitch .block = some (s.set s.current .blocked) :=
      free fun s => some (s.set s.current .blocked)
    exact .inr ⟨_, .of_schedule called (.same rfl) ran⟩
  | exit =>
    rw [step] at h
    obtain ⟨ran, free⟩ := call_free h
    have called : s.atSwitch .exit = some (s.set s.current .dying) :=
      free fun s => some (s.set s.current .dying)
    rw [State.exit] at ran
    obtain ⟨t, scheduled, rfl⟩ := Option.map_eq_some_iff.mp ran
    obtain ⟨ticks, takes⟩ := schedule_takes scheduled
    exact .inr ⟨_, called, .same rfl, ticks, takes⟩
  | semaDown x =>
    rw [step] at h
    obtain ⟨made, -⟩ := call_free h
    obtain rfl := some.inj made
    exact .inl ⟨rfl, .same rfl, rfl, fun tick => nomatch tick⟩
  | proceed => exact proceed_cases h
  | semaUp x =>
    obtain ⟨grows, ticks⟩ := semaUp_grows h
    exact .inl ⟨rfl, grows, ticks, fun tick => nomatch tick⟩
  | unblock n =>
    simp only [step] at h
    split at h
    · cases h
    · obtain ⟨grows, ticks⟩ := unblock_grows h
      exact .inl ⟨rfl, grows, ticks, fun tick => nomatch tick⟩
  | tick =>
    simp only [step, State.tick] at h
    split at h
    · next done =>
      exact .inr ⟨_, .of_schedule (if_pos done) (requeue_grows { s with ticks := s.ticks + 1 }) h⟩
    · next more =>
      obtain rfl := some.inj h
      exact .inl ⟨if_neg more, .same rfl, rfl, fun _ => Nat.lt_of_not_le more⟩

theorem step_ticks_lt (low : s.ticks < timeSlice) (h : step s a = some s') :
    s'.ticks < timeSlice := by
  rcases step_cases h with stays | ⟨m, switches⟩
  · cases tick : a.isTick with
    | false =>
      rw [stays.ticks, tick]
      exact low
    | true => exact stays.unfinished tick
  · rw [switches.ticks]
    decide

theorem ticks_lt (v : κ → Nat) {acts : List (Act κ)} (h : run step (start v) acts = some s) :
    s.ticks < timeSlice := by
  suffices kept : ∀ s0 : State κ, s0.ticks < timeSlice → run step s0 acts = some s →
      s.ticks < timeSlice from kept (start v) (by decide : 0 < timeSlice) h
  clear h
  induction acts with
  | nil =>
    intro s0 low ran
    exact some.inj ran ▸ low
  | cons a rest ih =>
    intro s0 low ran
    obtain ⟨s1, taken, ran⟩ := Option.bind_eq_some_iff.mp ran
    exact ih s1 (step_ticks_lt low taken) ran

theorem Switches.pops {m : State κ} (h : Switches s a m s') {ahead behind : List Nat}
    (queue : m.ready = ahead ++ t :: behind) (other : s.dispatched a ≠ some t) :
    ∃ n left, ahead = n :: left ∧ s.dispatched a = some n ∧ s'.ready = left ++ t :: behind := by
  have takes := h.takes
  have picked : s.dispatched a = m.nextThreadToRun.1 := by
    rw [State.dispatched, h.called, Option.bind_some]
  rw [State.nextThreadToRun, queue] at takes
  rw [picked, State.nextThreadToRun, queue] at other ⊢
  cases ahead with
  | nil => exact absurd rfl other
  | cons n left =>
    obtain ⟨-, ready⟩ := Prod.mk.inj takes
    exact ⟨n, left, rfl, rfl, ready.symm⟩

/-- While `t` waits on the list, the threads dispatched are those ahead of it, and each has
used at most one slice. -/
theorem run_queue {acts : List (Act κ)} {ahead behind : List Nat}
    (queue : s.ready = ahead ++ t :: behind) (low : s.ticks < timeSlice)
    (ran : run step s acts = some s') (waits : t ∉ dispatches s acts) :
    dispatches s acts <+: ahead ∧ s.ticks + acts.countP Act.isTick <
      timeSlice * ((dispatches s acts).length + 1) := by
  induction acts generalizing s ahead behind with
  | nil => exact ⟨List.nil_prefix, by simpa [dispatches] using low⟩
  | cons a rest ih =>
    obtain ⟨s1, taken, ran⟩ := Option.bind_eq_some_iff.mp ran
    have here : dispatches s (a :: rest) = (s.dispatched a).toList ++ dispatches s1 rest := by
      rw [dispatches, taken]
    rw [here, List.mem_append, not_or] at waits
    rw [here, List.countP_cons]
    have low' := step_ticks_lt low taken
    rcases step_cases taken with stays | ⟨m, switches⟩
    · obtain ⟨new, grown⟩ := stays.grows
      have silent : s.dispatched a = none := by
        rw [State.dispatched, stays.silent, Option.bind_none]
      rw [silent, Option.toList_none, List.nil_append]
      have queue' : s1.ready = ahead ++ t :: (behind ++ new) := by
        rw [grown, queue, List.append_assoc, List.cons_append]
      obtain ⟨order, bound⟩ := ih queue' low' ran waits.2
      rw [stays.ticks] at bound
      exact ⟨order, by omega⟩
    · obtain ⟨new, grown⟩ := switches.grows
      have queue' : m.ready = ahead ++ t :: (behind ++ new) := by
        rw [grown, queue, List.append_assoc, List.cons_append]
      have other : s.dispatched a ≠ some t := fun same => waits.1 (by simp [same])
      obtain ⟨n, left, rfl, picked, ready⟩ := switches.pops queue' other
      obtain ⟨order, bound⟩ := ih ready low' ran waits.2
      rw [switches.ticks] at bound
      have one : (if a.isTick = true then 1 else 0) ≤ 1 := by split <;> omega
      simp only [picked, Option.toList_some, List.singleton_append, List.length_cons]
      refine ⟨List.cons_prefix_cons.mpr ⟨rfl, order⟩, ?_⟩
      rw [timeSlice] at *
      omega

end Steps

/-- A thread that a step appends to the ready list, behind `s.ready.length` others, has seen
fewer ticks than those threads and the running one can use, as long as it is not dispatched;
and the threads dispatched meanwhile are the first of those ahead of it. -/
theorem round_robin [DecidableEq κ] (v : κ → Nat) {before acts : List (Act κ)} {a : Act κ}
    {s s₁ s' : State κ} {t : Nat} (reached : run step (start v) before = some s)
    (appended : s.queue a = s.ready ++ [t]) (taken : step s a = some s₁)
    (ran : run step s₁ acts = some s') (waits : t ∉ dispatches s (a :: acts)) :
    acts.countP Act.isTick < timeSlice * (s.ready.length + 1) ∧
      dispatches s (a :: acts) <+: s.ready := by
  have low := ticks_lt v reached
  have here : dispatches s (a :: acts) = (s.dispatched a).toList ++ dispatches s₁ acts := by
    rw [dispatches, taken]
  rw [here, List.mem_append, not_or] at waits
  rw [here]
  have low' := step_ticks_lt low taken
  rcases step_cases taken with stays | ⟨m, switches⟩
  · have silent : s.dispatched a = none := by
      rw [State.dispatched, stays.silent, Option.bind_none]
    rw [State.queue, stays.silent, taken] at appended
    obtain ⟨order, bound⟩ := run_queue appended low' ran waits.2
    rw [silent, Option.toList_none, List.nil_append]
    have fewer := order.length_le
    rw [timeSlice] at *
    exact ⟨by omega, order⟩
  · have other : s.dispatched a ≠ some t := fun same => waits.1 (by simp [same])
    rw [State.queue, switches.called] at appended
    obtain ⟨n, left, ahead, picked, ready⟩ := switches.pops appended other
    obtain ⟨order, bound⟩ := run_queue ready low' ran waits.2
    have fewer := order.length_le
    simp only [picked, ahead, Option.toList_some, List.singleton_append, List.length_cons]
    rw [timeSlice] at *
    exact ⟨by omega, List.cons_prefix_cons.mpr ⟨rfl, order⟩⟩

theorem round_robin_firstSlices : ∃ s s₁ s' : State Unit,
    run step (start fun _ => 0) [.tick, .tick, .tick] = some s ∧
      s.queue .tick = s.ready ++ [initialThread] ∧ step s .tick = some s₁ ∧
      run step s₁ [.tick, .tick] = some s' ∧
      ([.tick, .tick] : List (Act Unit)).countP Act.isTick < timeSlice * (s.ready.length + 1) ∧
      dispatches s [.tick, .tick, .tick] <+: s.ready := by
  have reached : ∃ s : State Unit, run step (start fun _ => 0) [.tick, .tick, .tick] = some s ∧
      s = { start (fun _ => 0) with ticks := 3 } := ⟨_, rfl, rfl⟩
  obtain ⟨s, reached, rfl⟩ := reached
  exact ⟨_, _, _, reached, rfl, rfl, rfl, round_robin _ reached rfl rfl rfl (by decide)⟩

end Pintos.Scheduler
