import Pintos.Scheduler

/-! The invariant of the scheduler. It is a statement about each thread by itself, so a
step that touches one thread keeps it for all others; a switch touches two. -/

namespace Pintos.Scheduler
open Semaphore

variable {κ : Type}

structure Fits (s : State κ) (t : Nat) : Prop where
  running : s.status t = some .running → t = s.current
  ready : t ∈ s.ready ↔ s.status t = some .ready ∧ s.idle ≠ some t
  waiting : ∀ x, t ∈ (s.sema x).waiters ↔ s.status t = some .blocked ∧ (s.code t).sema = some x
  dying : s.status t = some .dying → t = initialThread ∨ t = s.current
  fresh : s.next ≤ t → s.status t = none
  initial : t = initialThread → s.status t ≠ none
  isIdle : (s.code t).isIdle = true ↔ t = idleThread
  idle : t = idleThread → (s.status t = some .running ∨ s.status t = some .ready ∨
    s.status t = some .blocked ∧ s.code t = .idleLoop)

/-- The invariant of the scheduler, also inside a step while no thread is running. -/
structure Core (s : State κ) : Prop where
  fits : ∀ t, Fits s t
  nodup : s.ready.Nodup
  waiters : ∀ x, (s.sema x).waiters.Nodup
  recorded : s.idle = none ∧ s.code idleThread = .idleRecord ∨
    s.idle = some idleThread ∧ s.code idleThread ≠ .idleRecord
  child : ∀ t n, (s.code t).child = some n → s.status n = some .blocked ∧ s.code n = .embryo
  parent : ∀ t u n, (s.code t).child = some n → (s.code u).child = some n → t = u

structure Inv (s : State κ) : Prop where
  core : Core s
  current : s.status s.current = some .running

variable {s s' : State κ} {t n : Nat}

theorem inv_start (v : κ → Nat) : Inv (start v) := by
  refine ⟨⟨fun t => ?_, List.nodup_singleton _, fun x => ?_, .inl ⟨rfl, rfl⟩, ?_, ?_⟩, rfl⟩
  · have queues : ∀ x, (startSema v x).waiters = [] := fun x => by cases x <;> rfl
    by_cases main : t = initialThread
    · subst main
      constructor <;> simp [start, initialThread, idleThread, queues, Code.isIdle]
    · by_cases idle : t = idleThread
      · subst idle
        constructor <;> simp [start, initialThread, idleThread, queues, Code.isIdle]
      · constructor <;> simp [start, main, idle, queues, Code.isIdle]
  · cases x <;> exact List.nodup_nil
  · intro t n h
    simp only [start] at h
    split_ifs at h <;> simp [Code.child] at h
  · intro t u n h
    simp only [start] at h
    split_ifs at h <;> simp [Code.child] at h

theorem Core.recorded_goto (core : Core s) {c : Code κ}
    (record : t = idleThread → (c = .idleRecord ↔ s.code t = .idleRecord)) :
    s.idle = none ∧ (s.goto t c).code idleThread = .idleRecord ∨
      s.idle = some idleThread ∧ (s.goto t c).code idleThread ≠ .idleRecord := by
  by_cases same : idleThread = t
  · subst same
    simpa [State.goto, record rfl] using core.recorded
  · simpa [State.goto, same] using core.recorded

theorem Core.update (core : Core s) (t : Nat)
    (others : ∀ u, u ≠ t → s'.status u = s.status u ∧ s'.code u = s.code u ∧
      (u ∈ s'.ready ↔ u ∈ s.ready) ∧ ∀ x, u ∈ (s'.sema x).waiters ↔ u ∈ (s.sema x).waiters)
    (current : s'.current = s.current) (next : s.next ≤ s'.next)
    (idle : ∀ u, u ≠ t → (s'.idle = some u ↔ s.idle = some u))
    (nodup : s'.ready.Nodup) (waiters : ∀ x, (s'.sema x).waiters.Nodup) (fits : Fits s' t)
    (recorded : s'.idle = none ∧ s'.code idleThread = .idleRecord ∨
      s'.idle = some idleThread ∧ s'.code idleThread ≠ .idleRecord)
    (orphan : ∀ u, (s.code u).child ≠ some t)
    (child : ∀ n, (s'.code t).child = some n → n ≠ t ∧ s.status n = some .blocked ∧
      s.code n = .embryo ∧ ∀ u, u ≠ t → (s.code u).child ≠ some n) : Core s' := by
  have codes : ∀ u, u ≠ t → s'.code u = s.code u := fun u ne => (others u ne).2.1
  refine ⟨fun u => ?_, nodup, waiters, recorded, fun u n h => ?_, fun u u' n h h' => ?_⟩
  · by_cases same : u = t
    · exact same ▸ fits
    obtain ⟨status, code, ready, sema⟩ := others u same
    have old := core.fits u
    constructor
    · rw [status, current]; exact old.running
    · rw [status, ne_eq, idle u same, ready]; exact old.ready
    · intro x; rw [status, code, sema]; exact old.waiting x
    · rw [status, current]; exact old.dying
    · rw [status]; exact fun h => old.fresh (next.trans h)
    · rw [status]; exact old.initial
    · rw [code]; exact old.isIdle
    · rw [status, code]; exact old.idle
  · by_cases same : u = t
    · rw [same] at h
      obtain ⟨ne, blocked, embryo, _⟩ := child n h
      rw [(others n ne).1, codes n ne]
      exact ⟨blocked, embryo⟩
    · rw [codes u same] at h
      have ne : n ≠ t := fun e => orphan u (e ▸ h)
      rw [(others n ne).1, codes n ne]
      exact core.child u n h
  · by_cases same : u = t <;> by_cases same' : u' = t
    · rw [same, same']
    · rw [same] at h
      rw [codes u' same'] at h'
      exact absurd h' ((child n h).2.2.2 u' same')
    · rw [same'] at h'
      rw [codes u same] at h
      exact absurd h ((child n h').2.2.2 u same)
    · rw [codes u same] at h
      rw [codes u' same'] at h'
      exact core.parent u u' n h h'

theorem Core.not_child (core : Core s) (h : s.status t ≠ some .blocked ∨ s.code t ≠ .embryo)
    (u : Nat) : (s.code u).child ≠ some t := fun child => by
  obtain ⟨blocked, embryo⟩ := core.child u t child
  rcases h with h | h
  · exact h blocked
  · exact h embryo

theorem Core.own_child (core : Core s) (not : s.status t ≠ some .blocked ∨ s.code t ≠ .embryo)
    {n : Nat} (h : (s.code t).child = some n) : n ≠ t ∧ s.status n = some .blocked ∧
      s.code n = .embryo ∧ ∀ u, u ≠ t → (s.code u).child ≠ some n := by
  obtain ⟨blocked, embryo⟩ := core.child t n h
  refine ⟨fun e => core.not_child not t (e ▸ h), blocked, embryo, fun u ne h' => ?_⟩
  exact ne (core.parent u t n h' h)

/-- There is always a thread to run: before the idle thread has recorded itself it is
itself on the list. -/
theorem Core.nextThreadToRun (core : Core s) (stopped : s.status s.current ≠ some .running) :
    ∃ n rest, s.nextThreadToRun = (some n, rest) ∧
      (s.status n = some .ready ∨ n = idleThread ∧ s.status n = some .blocked) ∧
      rest.Nodup ∧ ∀ u, u ∈ rest ↔ u ∈ s.ready ∧ u ≠ n := by
  have idle := (core.fits idleThread).idle rfl
  have notRunning : s.status idleThread ≠ some .running := fun h =>
    stopped ((core.fits idleThread).running h ▸ h)
  cases ready : s.ready with
  | nil =>
    rcases core.recorded with ⟨none, record⟩ | ⟨recorded, _⟩
    · have queued := (core.fits idleThread).ready
      simp only [ready, none, List.not_mem_nil, reduceCtorEq, ne_eq, not_false_eq_true, and_true,
        false_iff] at queued
      simp [notRunning, queued, record] at idle
    refine ⟨idleThread, [], by rw [State.nextThreadToRun, ready, recorded], ?_, List.nodup_nil,
      by simp⟩
    rcases idle with h | h | h
    · exact absurd h notRunning
    · exact .inl h
    · exact .inr ⟨rfl, h.1⟩
  | cons n rest =>
    have nodup := core.nodup
    rw [ready, List.nodup_cons] at nodup
    refine ⟨n, rest, by rw [State.nextThreadToRun, ready], .inl ?_, nodup.2, fun u => ?_⟩
    · exact ((core.fits n).ready.mp (by simp [ready])).1
    · constructor
      · exact fun h => ⟨List.mem_cons_of_mem n h, fun e => nodup.1 (e ▸ h)⟩
      · exact fun ⟨h, ne⟩ => (List.mem_cons.mp h).resolve_left ne

/-- The running thread after a switch, and what has become of the others. -/
structure Switched (s s' : State κ) : Prop where
  inv : Inv s'
  next : s'.next = s.next
  exited : s'.exited = s.exited
  alive : s.status s'.current ≠ some .dying ∧ s.status s'.current ≠ none
  freed : s'.freed = if s.status s.current = some .dying ∧ s.current ≠ initialThread
    then s.freed ++ [(s.current, s'.current)] else s.freed
  status : ∀ t, t ≠ s'.current → s'.status t =
    if t = s.current ∧ s.status t = some .dying ∧ t ≠ initialThread then none else s.status t

theorem scheduleTail_spec (s : State κ) (n : Nat) (rest : List Nat)
    (notDying : s.current = n → s.status s.current ≠ some .dying) :
    ∃ s', { s with ready := rest, current := n }.scheduleTail
        (if s.current ≠ n then some s.current else none) = s' ∧
      s'.ready = rest ∧ s'.current = n ∧ s'.code = s.code ∧ s'.sema = s.sema ∧
      s'.idle = s.idle ∧ s'.next = s.next ∧ s'.exited = s.exited ∧
      s'.freed = (if s.status s.current = some .dying ∧ s.current ≠ initialThread
        then s.freed ++ [(s.current, n)] else s.freed) ∧
      s'.status n = some .running ∧
      ∀ t, t ≠ n → s'.status t =
        if t = s.current ∧ s.status t = some .dying ∧ t ≠ initialThread then none
        else s.status t := by
  refine ⟨_, rfl, ?_⟩
  by_cases same : s.current = n
  · rw [if_neg (not_not.mpr same)]
    refine ⟨rfl, rfl, rfl, rfl, rfl, rfl, rfl, ?_, by simp [State.scheduleTail, State.set],
      fun t ne => ?_⟩
    · rw [if_neg fun h => notDying same h.1]
      rfl
    · rw [if_neg fun h => ne (h.1.trans same)]
      simp [State.scheduleTail, State.set, ne]
  · rw [if_pos same]
    by_cases dying : s.status s.current = some .dying ∧ s.current ≠ initialThread
    · simp only [State.scheduleTail, State.set, ne_eq, same, not_false_eq_true,
        Function.update_of_ne, dying, and_self, if_true, true_and]
      refine ⟨by simp [Ne.symm same], fun t ne => ?_⟩
      by_cases here : t = s.current
      · simp [here, dying]
      · simp [here, ne]
    simp only [State.scheduleTail, State.set, ne_eq, same, not_false_eq_true,
      Function.update_of_ne, dying, if_false, true_and]
    refine ⟨by simp, fun t ne => ?_⟩
    have other : ¬(t = s.current ∧ s.status t = some .dying ∧ ¬t = initialThread) :=
      fun h => dying (h.1 ▸ h.2)
    rw [if_neg other]
    simp [ne]

theorem Core.schedule (core : Core s) (stopped : s.status s.current ≠ some .running) :
    ∃ s', s.schedule = some s' ∧ Switched s s' := by
  obtain ⟨n, rest, pick, picked, nodup, mem⟩ := core.nextThreadToRun stopped
  have isSome : s.status n ≠ none := by
    rcases picked with h | ⟨_, h⟩ <;> simp [h]
  have notDying : s.status n ≠ some .dying := by
    rcases picked with h | ⟨_, h⟩ <;> simp [h]
  have notEmbryo : s.status n ≠ some .blocked ∨ s.code n ≠ .embryo := by
    rcases picked with h | ⟨h, _⟩
    · exact .inl (by simp [h])
    · refine .inr fun embryo => ?_
      have := (core.fits n).isIdle.mpr h
      simp [embryo, Code.isIdle] at this
  have absent : ∀ x, n ∉ (s.sema x).waiters := fun x h => by
    obtain ⟨blocked, sema⟩ := ((core.fits n).waiting x).mp h
    rcases picked with h | ⟨h, _⟩
    · simp [h] at blocked
    · have := (core.fits n).isIdle.mpr h
      cases code : s.code n <;> simp [code, Code.sema, Code.isIdle] at sema this
  obtain ⟨s', run, ready, current, code, sema, idle, next, exited, freed, here, status⟩ :=
    scheduleTail_spec s n rest fun same => same ▸ notDying
  refine ⟨s', ?_, ⟨⟨?_, current ▸ here⟩, next, exited, current ▸ ⟨notDying, isSome⟩,
    current ▸ freed, current ▸ status⟩⟩
  · rw [State.schedule, pick, ← run]
    exact if_pos ⟨stopped, Option.isSome_iff_ne_none.mpr isSome⟩
  have kept : ∀ t, s.status t = some .blocked → t ≠ n → s'.status t = some .blocked := by
    intro t blocked ne
    rw [status t ne, if_neg fun h => by simp [blocked] at h]
    exact blocked
  refine ⟨fun t => ?_, ready ▸ nodup, fun x => sema ▸ core.waiters x, ?_, fun t m h => ?_,
    fun t u m h h' => ?_⟩
  · have old := core.fits t
    by_cases same : t = n
    · subst same
      constructor <;> simp only [here, ready, current, code, sema, idle, next]
      · exact fun _ => trivial
      · simp [mem]
      · simp [absent]
      · simp
      · exact fun le => absurd (old.fresh le) isSome
      · simp
      · exact old.isIdle
      · simp
    · have now := status t same
      by_cases gone : t = s.current ∧ s.status t = some .dying ∧ t ≠ initialThread
      · rw [if_pos gone] at now
        have idle := old.idle
        have waiting := old.waiting
        have queued := old.ready
        simp only [gone.2.1, Option.some.injEq, reduceCtorEq, false_and, iff_false, or_self,
          imp_false] at idle waiting queued
        constructor <;> simp only [now, ready, current, code, sema, next, mem]
        · simp
        · simp [queued]
        · simp [waiting]
        · simp
        · simp
        · exact fun main => absurd main gone.2.2
        · exact old.isIdle
        · exact fun h => absurd h idle
      · rw [if_neg gone] at now
        constructor <;> simp only [now, ready, current, code, sema, idle, next, mem]
        · intro h
          exact absurd (old.running h ▸ h) stopped
        · rw [and_iff_left same]
          exact old.ready
        · exact old.waiting
        · intro h
          rcases old.dying h with main | cur
          · exact .inl main
          · exact .inl (by_contra fun main => gone ⟨cur, h, main⟩)
        · exact old.fresh
        · exact old.initial
        · exact old.isIdle
        · exact old.idle
  · rw [idle, code]
    exact core.recorded
  · rw [code] at h ⊢
    obtain ⟨blocked, embryo⟩ := core.child t m h
    exact ⟨kept m blocked fun e => core.not_child notEmbryo t (e ▸ h), embryo⟩
  · rw [code] at h h'
    exact core.parent t u m h h'

end Pintos.Scheduler
