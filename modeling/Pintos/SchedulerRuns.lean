import Pintos.SchedulerInvariant

/-! The runs of the scheduler: every operation keeps the invariant, a switch always finds
a thread to run, and the pages of threads that exit are freed once. -/

namespace Pintos.Scheduler
open Transition Semaphore Function

variable {κ : Type} {s s' : State κ} {t n : Nat}

theorem Inv.not_listed (inv : Inv s) :
    s.current ∉ s.ready ∧ (∀ x, s.current ∉ (s.sema x).waiters) ∧ s.current < s.next := by
  have fits := inv.core.fits s.current
  refine ⟨fun h => ?_, fun x h => ?_, ?_⟩
  · have := (fits.ready.mp h).1
    simp [inv.current] at this
  · have := ((fits.waiting x).mp h).1
    simp [inv.current] at this
  · by_contra le
    have := fits.fresh (not_lt.mp le)
    simp [inv.current] at this

variable {sema : SemaId κ → Sema Nat} {x : SemaId κ} {c : Code κ}

theorem Inv.not_idle (inv : Inv s) (other : (s.code t).isIdle = false) : t ≠ idleThread := by
  intro idle
  rw [(inv.core.fits t).isIdle.mpr idle] at other
  cases other

theorem Inv.unwaited (inv : Inv s) (none : (s.code t).sema = none) (x : SemaId κ) :
    t ∉ (s.sema x).waiters := by
  intro waits
  rw [(((inv.core.fits t).waiting x).mp waits).2] at none
  cases none

theorem isIdle_of_sema (waits : c.sema = some x) : c.isIdle = false := by
  cases c <;> first | rfl | cases waits

theorem Inv.stop (inv : Inv s) {p : Status} {ready : List Nat} (notRunning : p ≠ .running)
    (nodup : ready.Nodup) (waiters : ∀ x, (sema x).waiters.Nodup)
    (others : ∀ u, u ≠ s.current → (u ∈ ready ↔ u ∈ s.ready) ∧ ∀ x, u ∈ (sema x).waiters ↔
      u ∈ (s.sema x).waiters)
    (listed : s.current ∈ ready ↔ p = .ready ∧ s.idle ≠ some s.current)
    (waits : ∀ x, s.current ∈ (sema x).waiters ↔ p = .blocked ∧ (s.code s.current).sema = some x)
    (idle : s.current = idleThread → p = .ready ∨ p = .blocked ∧ s.code s.current = .idleLoop) :
    Core ({ s with ready := ready, sema := sema }.set s.current p) := by
  have fits := inv.core.fits s.current
  have notChild : s.status s.current ≠ some .blocked ∨ s.code s.current ≠ .embryo :=
    .inl (by simp [inv.current])
  refine inv.core.update s.current (fun u ne => ?_) rfl le_rfl (fun _ _ => Iff.rfl) nodup
    waiters ?_ inv.core.recorded (inv.core.not_child notChild) fun n h => inv.core.own_child notChild h
  · exact ⟨by simp [State.set, ne], rfl, others u ne⟩
  constructor <;> simp only [State.set, update_self, Option.some.injEq]
  · exact fun h => absurd h notRunning
  · exact listed
  · exact waits
  · exact fun _ => .inr trivial
  · exact fun le => absurd inv.not_listed.2.2 (not_lt.mpr le)
  · simp
  · exact fits.isIdle
  · exact fun h => .inr (idle h)

structure Keeps (s s' : State κ) : Prop where
  exited : s'.exited = s.exited
  freed : s'.freed = s.freed
  next : s.next ≤ s'.next
  gone : ∀ t, t < s.next → s.status t = none ∨ s.status t = some .dying → s'.status t = s.status t

theorem Keeps.trans {s'' : State κ} (h : Keeps s s') (h' : Keeps s' s'') : Keeps s s'' := by
  refine ⟨h'.exited.trans h.exited, h'.freed.trans h.freed, h.next.trans h'.next, ?_⟩
  intro t lt gone
  have same := h.gone t lt gone
  rw [h'.gone t (lt.trans_le h.next) (by rwa [same]), same]

theorem Switched.keeps (h : Switched s s') (alive : s.status s.current ≠ some .dying) :
    Keeps s s' := by
  refine ⟨h.exited, ?_, h.next.ge, fun t lt gone => ?_⟩
  · rw [h.freed, if_neg fun dying => alive dying.1]
  have ne : t ≠ s'.current := by
    rintro rfl
    rcases gone with none | dying
    · exact h.alive.2 none
    · exact h.alive.1 dying
  rw [h.status t ne]
  exact if_neg fun (dying : t = s.current ∧ _ ∧ _) => alive (dying.1 ▸ dying.2.1)

def Sound (s : State κ) (r : Option (State κ)) : Prop := ∃ s', r = some s' ∧ Inv s' ∧ Keeps s s'

section

variable (inv : Inv s)
include inv

theorem Inv.stop_schedule {p : Status} {ready : List Nat} (notRunning : p ≠ .running)
    (alive : p ≠ .dying) (core : Core ({ s with ready := ready, sema := sema }.set s.current p)) :
    Sound s ({ s with ready := ready, sema := sema }.set s.current p).schedule := by
  obtain ⟨s', run, switched⟩ := core.schedule (by simp [State.set, notRunning])
  refine ⟨s', run, switched.inv, Keeps.trans ?_ (switched.keeps (by simp [State.set, alive]))⟩
  refine ⟨rfl, rfl, le_rfl, fun t _ gone => ?_⟩
  have ne : t ≠ s.current := fun e => by simp [e, inv.current] at gone
  simp [State.set, ne]

theorem Inv.block (none : (s.code s.current).sema = none)
    (idle : s.current = idleThread → s.code s.current = .idleLoop) : Sound s s.block := by
  refine inv.stop_schedule (p := .blocked) (by decide) (by decide) ?_
  exact inv.stop (by decide) inv.core.nodup inv.core.waiters (fun _ _ => ⟨Iff.rfl, fun _ => Iff.rfl⟩)
    (by simp [inv.not_listed.1]) (by simp [inv.not_listed.2.1, none]) fun h => .inr ⟨rfl, idle h⟩

theorem Inv.yield : Sound s s.yield := by
  refine inv.stop_schedule (p := .ready) (by decide) (by decide) ?_
  refine inv.stop (by decide) ?_ inv.core.waiters (fun u ne => ⟨?_, fun _ => Iff.rfl⟩) ?_
    (by simp [inv.not_listed.2.1]) fun _ => .inl rfl
  · split_ifs
    · exact inv.core.nodup
    · exact by simpa using inv.core.nodup.concat inv.not_listed.1
  · split_ifs <;> simp [ne]
  · split_ifs with h
    · simp [h, inv.not_listed.1]
    · simp [h]

theorem Inv.semaBlock [DecidableEq κ] {m : Sema Nat} (waits : (s.code s.current).sema = some x)
    (queue : m.waiters = (s.sema x).waiters ++ [s.current]) : Sound s (s.setSema x m).block := by
  refine inv.stop_schedule (p := .blocked) (by decide) (by decide) ?_
  refine inv.stop (by decide) inv.core.nodup (fun y => ?_) (fun u ne => ⟨Iff.rfl, fun y => ?_⟩)
    (by simp [inv.not_listed.1]) (fun y => ?_)
    fun h => absurd h (inv.not_idle (isIdle_of_sema waits))
  all_goals by_cases same : y = x
  · subst same
    simpa [queue] using (inv.core.waiters y).concat (inv.not_listed.2.1 y)
  · simpa [same] using inv.core.waiters y
  · subst same
    simp [queue, ne]
  · simp [same]
  · subst same
    simp [queue, waits]
  · simp [same, waits, inv.not_listed.2.1, Ne.symm same]

theorem Inv.not_child : s.status s.current ≠ some .blocked ∨ s.code s.current ≠ .embryo :=
  .inl (by simp [inv.current])

theorem Inv.goto (isIdle : c.isIdle = (s.code s.current).isIdle)
    (record : c = .idleRecord ↔ s.code s.current = .idleRecord)
    (child : ∀ n, c.child = some n → n ≠ s.current ∧ s.status n = some .blocked ∧ s.code n =
      .embryo ∧ ∀ u, u ≠ s.current → (s.code u).child ≠ some n) :
    Inv (s.goto s.current c) := by
  have fits := inv.core.fits s.current
  refine ⟨inv.core.update s.current (fun u ne => ?_) rfl le_rfl (fun _ _ => Iff.rfl)
    inv.core.nodup inv.core.waiters ?_ (inv.core.recorded_goto fun _ => record)
    (inv.core.not_child inv.not_child) fun n h => child n ?_, inv.current⟩
  · exact ⟨rfl, by simp [State.goto, ne], Iff.rfl, fun _ => Iff.rfl⟩
  · constructor <;> simp only [State.goto, update_self]
    · exact fun _ => trivial
    · exact fits.ready
    · simp [inv.not_listed.2.1, inv.current]
    · simp
    · exact fits.fresh
    · exact fits.initial
    · rw [isIdle]
      exact fits.isIdle
    · simp [inv.current]
  · simpa [State.goto] using h

omit inv in
theorem Keeps.same (exited : s'.exited = s.exited) (freed : s'.freed = s.freed)
    (next : s'.next = s.next) (status : s'.status = s.status) : Keeps s s' :=
  ⟨exited, freed, next.ge, fun t _ _ => congrFun status t⟩

omit inv in
theorem goto_keeps (s : State κ) (t : Nat) (c : Code κ) : Keeps s (s.goto t c) :=
  .same rfl rfl rfl rfl

theorem Inv.setSema [DecidableEq κ] {m : Sema Nat} (same : m.waiters = (s.sema x).waiters) :
    Inv (s.setSema x m) := by
  have queues : ∀ y, ((s.setSema x m).sema y).waiters = (s.sema y).waiters := by
    intro y
    by_cases h : y = x
    · subst h
      simpa [State.setSema] using same
    · simp [State.setSema, h]
  refine ⟨{ inv.core with fits := fun t => ?_, waiters := fun y => ?_ }, inv.current⟩
  · refine { inv.core.fits t with waiting := fun y => ?_ }
    rw [queues]
    exact (inv.core.fits t).waiting y
  · rw [queues]
    exact inv.core.waiters y

theorem Inv.wake {w : Nat} (blocked : s.status w = some .blocked)
    (orphan : ∀ u, (s.code u).child ≠ some w) (notIdle : w ≠ idleThread) (isIdle : c.isIdle = false)
    (child : ∀ n, c.child = some n → (s.code w).child = some n)
    (waiters : ∀ x, (sema x).waiters.Nodup) (absent : ∀ x, w ∉ (sema x).waiters)
    (others : ∀ u, u ≠ w → ∀ x, u ∈ (sema x).waiters ↔ u ∈ (s.sema x).waiters) :
    Inv (({ s with ready := s.ready ++ [w], sema := sema }.set w .ready).goto w c) := by
  have fits := inv.core.fits w
  have unlisted : w ∉ s.ready := fun h => by
    have := (fits.ready.mp h).1
    simp [blocked] at this
  have asleep : s.current ≠ w := fun h => by
    have := inv.current
    simp [h, blocked] at this
  have unrecorded : s.idle ≠ some w := by
    rcases inv.core.recorded with ⟨h, _⟩ | ⟨h, _⟩
    · simp [h]
    · simp [h, Ne.symm notIdle]
  refine ⟨inv.core.update w (fun u ne => ?_) rfl le_rfl (fun _ _ => Iff.rfl) ?_ waiters ?_
    (inv.core.recorded_goto fun h => absurd h notIdle) orphan fun n h => ?_, ?_⟩
  · exact ⟨by simp [State.set, State.goto, ne], by simp [State.goto, State.set, ne],
      by simp [State.set, State.goto, ne], others u ne⟩
  · simpa [State.set, State.goto] using inv.core.nodup.concat unlisted
  · constructor <;> simp only [State.goto, State.set, update_self, Option.some.injEq]
    · simp
    · simp [unrecorded]
    · simp [absent]
    · simp
    · intro le
      have := fits.fresh le
      simp [blocked] at this
    · simp
    · simp [isIdle, notIdle]
    · exact fun h => absurd h notIdle
  · have mine : (s.code w).child = some n := child n (by simpa [State.set, State.goto] using h)
    exact inv.core.own_child (.inr fun h => by simp [h, Code.child] at mine) mine
  · simpa [State.set, State.goto, asleep] using inv.current

omit inv in
theorem wake_keeps {w : Nat} (blocked : s.status w = some .blocked) :
    Keeps s (({ s with ready := s.ready ++ [w], sema := sema }.set w .ready).goto w c) := by
  refine ⟨rfl, rfl, le_rfl, fun t _ gone => ?_⟩
  have ne : t ≠ w := fun h => by simp [h, blocked] at gone
  simp [State.set, State.goto, ne]

theorem Inv.semaUp [DecidableEq κ] (x : SemaId κ) : Sound s (s.semaUp x) := by
  cases waiters : (s.sema x).waiters with
  | nil =>
    have run : s.semaUp x = some (s.setSema x (s.sema x).up.2) := by
      simp [State.semaUp, Sema.up, waiters]
    exact ⟨_, run, inv.setSema (by simp [Sema.up, waiters]), .same rfl rfl rfl rfl⟩
  | cons w ws =>
    obtain ⟨blocked, sema⟩ := ((inv.core.fits w).waiting x).mp (by simp [waiters])
    have nodup := inv.core.waiters x
    rw [waiters, List.nodup_cons] at nodup
    have notEmbryo : s.code w ≠ .embryo := fun h => by simp [h, Code.sema] at sema
    have isIdle := isIdle_of_sema sema
    have run : s.semaUp x = some (({ s with
        ready := s.ready ++ [w]
        sema := update s.sema x (s.sema x).up.2 }.set w .ready).goto w (s.code w)) := by
      simp [State.semaUp, Sema.up, waiters, State.unblock, State.setSema, blocked, State.goto,
        State.set]
    refine ⟨_, run, inv.wake blocked (inv.core.not_child (.inr notEmbryo)) (inv.not_idle isIdle)
      isIdle (fun _ h => h) (fun y => ?_) (fun y => ?_) (fun u ne y => ?_), wake_keeps blocked⟩
    all_goals by_cases same : y = x
    · subst same
      simpa [Sema.up, waiters] using nodup.2
    · simpa [same] using inv.core.waiters y
    · subst same
      simpa [Sema.up, waiters] using nodup.1
    · have := (inv.core.fits w).waiting y
      simp [sema, Ne.symm same] at this
      simpa [same] using this
    · subst same
      simp [Sema.up, waiters, ne]
    · simp [same]

theorem Inv.semaDown [DecidableEq κ] (waits : (s.code s.current).sema = some x)
    (isIdle : c.isIdle = false) (child : ∀ n, c.child = some n → (s.code s.current).child = some n) :
    Sound s (s.semaDown x c) := by
  rcases (s.sema x).down_cases s.current with ⟨_, down⟩ | ⟨_, down⟩
  · simp only [State.semaDown, down]
    exact inv.semaBlock waits rfl
  simp only [State.semaDown, down]
  have passed : Inv (s.setSema x { s.sema x with value := (s.sema x).value - 1 }) :=
    inv.setSema rfl
  refine ⟨_, rfl, passed.goto (isIdle.trans (isIdle_of_sema waits).symm) (iff_of_false ?_ ?_)
    fun n h => ?_, .same rfl rfl rfl rfl⟩
  · rintro rfl
    cases isIdle
  · intro h
    rw [show s.code s.current = .idleRecord from h] at waits
    cases waits
  · exact inv.core.own_child inv.not_child (child n h)

theorem Inv.create (free : s.code s.current = .free) : Inv s.create ∧ Keeps s s.create := by
  have fits := inv.core.fits s.next
  have none : s.status s.next = none := fits.fresh le_rfl
  have older : s.current ≠ s.next := inv.not_listed.2.2.ne
  have notIdle : s.next ≠ idleThread := fun h => by simpa [none] using fits.idle h
  have orphan : ∀ u, (s.code u).child ≠ some s.next :=
    inv.core.not_child (.inl (by simp [none]))
  have born : Inv (({ s with next := s.next + 1 }.set s.next .blocked).goto s.next .embryo) := by
    refine ⟨inv.core.update s.next (fun u ne => ?_) rfl (Nat.le_succ _) (fun _ _ => Iff.rfl)
      inv.core.nodup inv.core.waiters ?_ (inv.core.recorded_goto fun h => absurd h notIdle)
      orphan fun n h => ?_, ?_⟩
    · exact ⟨by simp [State.goto, State.set, ne], by simp [State.goto, State.set, ne], Iff.rfl,
        fun _ => Iff.rfl⟩
    · have ready := fits.ready
      have waiting := fits.waiting
      simp only [none, reduceCtorEq, false_and, iff_false] at ready waiting
      constructor <;> simp only [State.goto, State.set, update_self, Option.some.injEq]
      · simp
      · simp [ready]
      · simp [waiting, Code.sema]
      · simp
      · simp
      · simp
      · simp [Code.isIdle, notIdle]
      · exact fun h => absurd h notIdle
    · simp [State.goto, Code.child] at h
    · simpa [State.goto, State.set, older] using inv.current
  refine ⟨born.goto (c := .createDown s.next) ?_ ?_ fun n h => ?_, ⟨rfl, rfl, Nat.le_succ _, ?_⟩⟩
  · simp [State.goto, State.set, older, free, Code.isIdle]
  · simp [State.goto, State.set, older, free]
  · cases h
    refine ⟨older.symm, by simp [State.goto, State.set], by simp [State.goto], fun u _ => ?_⟩
    by_cases same : u = s.next
    · simp [State.goto, same, Code.child]
    · simpa [State.goto, State.set, same] using orphan u
  · intro t lt _
    simp [State.create, State.goto, State.set, lt.ne]

theorem Inv.createUnblock (here : s.code s.current = .createUnblock n) :
    Sound s ((s.unblock n).map fun s' => (s'.goto s.current .free).goto n .free) := by
  obtain ⟨ne, blocked, embryo, only⟩ := inv.core.own_child inv.not_child
    (show (s.code s.current).child = some n by rw [here]; rfl)
  have left : Inv (s.goto s.current .free) :=
    inv.goto (by simp [here, Code.isIdle]) (by simp [here]) fun n h => by simp [Code.child] at h
  have orphan : ∀ u, ((s.goto s.current .free).code u).child ≠ some n := by
    intro u
    by_cases same : u = s.current
    · simp [State.goto, same, Code.child]
    · simpa [State.goto, same] using only u same
  have run : (s.unblock n).map (fun s' => (s'.goto s.current .free).goto n .free) =
      some (({ s.goto s.current .free with ready := s.ready ++ [n], sema := s.sema }.set
        n .ready).goto n .free) := by
    simp [State.unblock, blocked, State.goto, State.set]
  refine ⟨_, run, left.wake blocked orphan (inv.not_idle (by rw [embryo]; rfl)) rfl
    (fun _ h => by cases h) inv.core.waiters (inv.unwaited (by rw [embryo]; rfl))
    (fun _ _ _ => Iff.rfl), (goto_keeps s s.current .free).trans (wake_keeps blocked)⟩

theorem Inv.idleRecord (here : s.code s.current = .idleRecord) :
    Inv ({ s with idle := some s.current }.goto s.current .idleUp) := by
  have idle : s.current = idleThread :=
    (inv.core.fits s.current).isIdle.mp (by rw [here]; rfl)
  have none : s.idle = none := by
    rcases inv.core.recorded with ⟨h, _⟩ | ⟨_, h⟩
    · exact h
    · rw [← idle, here] at h
      exact absurd rfl h
  have fits := inv.core.fits s.current
  refine ⟨inv.core.update s.current (fun u ne => ?_) rfl le_rfl (fun u ne => ?_) inv.core.nodup
    inv.core.waiters ?_ (.inr ⟨congrArg some idle, ?_⟩) (inv.core.not_child inv.not_child)
    fun n h => ?_, inv.current⟩
  · exact ⟨rfl, by simp [State.goto, ne], Iff.rfl, fun _ => Iff.rfl⟩
  · simp [State.goto, none, Ne.symm ne]
  · constructor <;> simp only [State.goto, update_self]
    · exact fun _ => trivial
    · simp [inv.not_listed.1]
    · simp [inv.not_listed.2.1, inv.current]
    · simp
    · exact fits.fresh
    · exact fits.initial
    · simp [Code.isIdle, idle]
    · simp [inv.current]
  · simp [State.goto, ← idle]
  · simp [State.goto, Code.child] at h

theorem Inv.relog (ticks : Nat) (exited : List (Nat × Nat)) :
    Inv { s with ticks := ticks, exited := exited } :=
  ⟨{ inv.core with fits := fun t => { inv.core.fits t with } }, inv.current⟩

end

structure Exited (s s' : State κ) : Prop where
  next : s'.next = s.next
  other : s'.current ≠ s.current
  exited : s'.exited = s.exited ++ [(s.current, s'.current)]
  freed : s'.freed = if s.current ≠ initialThread then s.freed ++ [(s.current, s'.current)]
    else s.freed
  dead : s'.status s.current = none ∨ s'.status s.current = some .dying
  gone : ∀ t, t ≠ s.current → s.status t = none ∨ s.status t = some .dying →
    s'.status t = s.status t

theorem Inv.exit (inv : Inv s) (free : s.code s.current = .free) :
    ∃ s', s.exit = some s' ∧ Inv s' ∧ Exited s s' := by
  have core : Core (s.set s.current .dying) :=
    inv.stop (by decide) inv.core.nodup inv.core.waiters
      (fun _ _ => ⟨Iff.rfl, fun _ => Iff.rfl⟩) (by simp [inv.not_listed.1])
      (by simp [inv.not_listed.2.1]) fun h => absurd h (inv.not_idle (by rw [free]; rfl))
  obtain ⟨s', run, switched⟩ := core.schedule (by simp [State.set])
  have dying : (s.set s.current .dying).status s.current = some .dying := by simp [State.set]
  have other : s'.current ≠ s.current := fun h => switched.alive.1 (by rw [h]; exact dying)
  refine ⟨{ s' with exited := s'.exited ++ [(s.current, s'.current)] },
    by rw [State.exit, run]; rfl, switched.inv.relog s'.ticks _,
    ⟨switched.next, other, congrArg (· ++ [(s.current, s'.current)]) switched.exited, ?_, ?_, ?_⟩⟩
  · have freed := switched.freed
    rw [show (s.set s.current .dying).current = s.current from rfl, dying] at freed
    simpa [State.set] using freed
  · have status := switched.status s.current other.symm
    rw [dying] at status
    simp only
    rw [status]
    split_ifs
    · exact .inl rfl
    · exact .inr rfl
  · intro t ne gone
    have same : (s.set s.current .dying).status t = s.status t := by simp [State.set, ne]
    have alive : t ≠ s'.current := fun h => by
      have := switched.alive
      rw [← h, same] at this
      rcases gone with none | dying
      · exact this.2 none
      · exact this.1 dying
    have status := switched.status t alive
    have moved : ¬(t = (s.set s.current .dying).current ∧
        (s.set s.current .dying).status t = some .dying ∧ t ≠ initialThread) := fun h => ne h.1
    rw [if_neg moved, same] at status
    exact status

theorem Sound.of_eq {r : Option (State κ)} (h : Sound s r) (e : r = some s') :
    Inv s' ∧ Keeps s s' := by
  obtain ⟨s'', e', inv, keeps⟩ := h
  rw [e, Option.some_inj] at e'
  exact e' ▸ ⟨inv, keeps⟩

theorem semaUp_goto [DecidableEq κ] (s : State κ) (x : SemaId κ) (t : Nat) (c : Code κ) :
    (s.goto t c).semaUp x = (s.semaUp x).map (·.goto t c) := by
  cases waiters : (s.sema x).waiters with
  | nil => simp [State.semaUp, Sema.up, State.goto, waiters, State.setSema]
  | cons w ws =>
    by_cases blocked : s.status w = some .blocked <;>
      simp [State.semaUp, Sema.up, State.goto, waiters, State.unblock, State.setSema, State.set,
        blocked]

theorem Inv.semaUp_then [DecidableEq κ] (gone : Inv (s.goto t c))
    (h : (s.semaUp x).map (·.goto t c) = some s') : Inv s' ∧ Keeps s s' := by
  rw [← semaUp_goto] at h
  obtain ⟨inv', keeps⟩ := (gone.semaUp x).of_eq h
  exact ⟨inv', (goto_keeps s t c).trans keeps⟩

theorem Inv.proceed [DecidableEq κ] (inv : Inv s) (h : s.proceed = some s') :
    Inv s' ∧ Keeps s s' := by
  unfold State.proceed at h
  cases code : s.code s.current with simp only [code] at h
  | free | embryo => cases h
  | down x => exact (inv.semaDown (by rw [code]; rfl) rfl fun n h => by cases h).of_eq h
  | createDown n =>
    exact (inv.semaDown (by rw [code]; rfl) rfl fun m h => by rw [code]; exact h).of_eq h
  | createUp n =>
    have gone : Inv (s.goto s.current (.createUnblock n)) :=
      inv.goto (by rw [code]; rfl) (by simp [code]) fun m h =>
        inv.core.own_child inv.not_child (by rw [code]; exact h)
    exact gone.semaUp_then h
  | createUnblock n => exact (inv.createUnblock code).of_eq h
  | idleRecord =>
    cases h
    exact ⟨inv.idleRecord code, .same rfl rfl rfl rfl⟩
  | idleUp =>
    have gone : Inv (s.goto s.current .idleLoop) :=
      inv.goto (by rw [code]; rfl) (by simp [code]) fun m h => by cases h
    exact gone.semaUp_then h
  | idleLoop => exact (inv.block (by rw [code]; rfl) fun _ => code).of_eq h

theorem call_eq_some {f : State κ → Option (State κ)} (h : s.call f = some s') :
    s.code s.current = .free ∧ f s = some s' := by
  cases code : s.code s.current with
  | free => exact ⟨rfl, by simpa [State.call, code] using h⟩
  | _ => simp [State.call, code] at h

theorem Inv.unblock (inv : Inv s) (parked : s.code n = .free) (h : s.unblock n = some s') :
    Inv s' ∧ Keeps s s' := by
  unfold State.unblock at h
  split_ifs at h with blocked
  have isIdle : (s.code n).isIdle = false := by rw [parked]; rfl
  have same : { s with ready := s.ready ++ [n] }.set n .ready =
      ({ s with ready := s.ready ++ [n], sema := s.sema }.set n .ready).goto n (s.code n) := by
    simp [State.goto, State.set]
  rw [same, Option.some_inj] at h
  subst h
  exact ⟨inv.wake blocked (inv.core.not_child (.inr (by simp [parked]))) (inv.not_idle isIdle)
    isIdle (fun _ h => h) inv.core.waiters (inv.unwaited (by rw [parked]; rfl))
    fun _ _ _ => Iff.rfl, wake_keeps blocked⟩

theorem Inv.step [DecidableEq κ] (inv : Inv s) {a : Act κ} (ok : Parked s a)
    (h : step s a = some s') : Inv s' ∧ (Keeps s s' ∨ Exited s s') := by
  cases a with
  | create =>
    obtain ⟨free, h⟩ := call_eq_some (f := fun s => some s.create) h
    cases h
    exact ⟨(inv.create free).1, .inl (inv.create free).2⟩
  | yield =>
    obtain ⟨_, h⟩ := call_eq_some h
    exact (inv.yield.of_eq h).imp_right .inl
  | block =>
    obtain ⟨free, h⟩ := call_eq_some h
    have notIdle := inv.not_idle (t := s.current) (by rw [free]; rfl)
    exact ((inv.block (by rw [free]; rfl) fun e => absurd e notIdle).of_eq h).imp_right .inl
  | exit =>
    obtain ⟨free, h⟩ := call_eq_some h
    obtain ⟨s'', run, inv', exited⟩ := inv.exit free
    rw [h, Option.some_inj] at run
    exact run ▸ ⟨inv', .inr exited⟩
  | semaDown x =>
    obtain ⟨free, h⟩ := call_eq_some (f := fun s => some (s.goto s.current (.down (.other x)))) h
    cases h
    refine ⟨inv.goto (by rw [free]; rfl) (by simp [free]) ?_, .inl (goto_keeps s _ _)⟩
    exact fun n h => by cases h
  | proceed => exact (inv.proceed h).imp_right .inl
  | semaUp x => exact ((inv.semaUp (.other x)).of_eq h).imp_right .inl
  | unblock n =>
    simp only [Scheduler.step, show s.code n = .free from ok] at h
    exact (inv.unblock ok h).imp_right .inl
  | tick =>
    simp only [Scheduler.step, State.tick] at h
    have counted : Inv { s with ticks := s.ticks + 1 } := inv.relog (s.ticks + 1) s.exited
    have same : Keeps s { s with ticks := s.ticks + 1 } := .same rfl rfl rfl rfl
    split_ifs at h
    · obtain ⟨inv', keeps⟩ := counted.yield.of_eq h
      exact ⟨inv', .inl (same.trans keeps)⟩
    · cases h
      exact ⟨counted, .inl same⟩

/-- The two logs of a run. -/
structure Log (s : State κ) : Prop where
  freed : s.freed = s.exited.filter fun e => e.1 ≠ initialThread
  nodup : (s.exited.map Prod.fst).Nodup
  other : ∀ e ∈ s.exited, e.1 ≠ e.2
  gone : ∀ e ∈ s.exited, e.1 < s.next ∧ (s.status e.1 = none ∨ s.status e.1 = some .dying)

theorem Log.keeps (log : Log s) (h : Keeps s s') : Log s' := by
  refine ⟨by rw [h.freed, h.exited]; exact log.freed, h.exited ▸ log.nodup, h.exited ▸ log.other,
    fun e he => ?_⟩
  obtain ⟨lt, gone⟩ := log.gone e (h.exited ▸ he)
  exact ⟨lt.trans_le h.next, by rwa [h.gone e.1 lt gone]⟩

theorem Log.exit (log : Log s) (inv : Inv s) (h : Exited s s') : Log s' := by
  have fresh : ∀ e ∈ s.exited, e.1 ≠ s.current := fun e he same => by
    have := (log.gone e he).2
    simp [same, inv.current] at this
  refine ⟨?_, ?_, fun e he => ?_, fun e he => ?_⟩
  · rw [h.freed, h.exited, List.filter_append, ← log.freed]
    split_ifs with main
    · simp [main]
    · simp [not_not.mp main]
  · rw [h.exited, List.map_append, List.map_singleton, ← List.concat_eq_append]
    refine log.nodup.concat fun mem => ?_
    obtain ⟨e, he, same⟩ := List.mem_map.mp mem
    exact fresh e he same
  all_goals
    rw [h.exited, List.mem_append, List.mem_singleton] at he
    rcases he with he | rfl
  · exact log.other e he
  · exact h.other.symm
  · rw [h.next, h.gone e.1 (fresh e he) (log.gone e he).2]
    exact log.gone e he
  · exact ⟨h.next ▸ inv.not_listed.2.2, h.dead⟩

theorem reachable_inv [DecidableEq κ] {v : κ → Nat} (h : Reachable (start v) step Parked s) :
    Inv s ∧ Log s := by
  refine h.invariant (P := fun s => Inv s ∧ Log s) ⟨inv_start v, ⟨rfl, List.nodup_nil, ?_, ?_⟩⟩ ?_
  · simp [start]
  · simp [start]
  · intro s a s' both ok taken
    obtain ⟨inv, log⟩ := both
    obtain ⟨inv', keeps | exited⟩ := inv.step ok taken
    · exact ⟨inv', log.keeps keeps⟩
    · exact ⟨inv', log.exit inv exited⟩

/-- The invariant of the scheduler in every state of every run. Its last lines say that
every thread but the initial one has its page freed once when it exits, by the thread
scheduled next. -/
theorem scheduler_invariant [DecidableEq κ] {v : κ → Nat}
    (h : Reachable (start v) step Parked s) :
    (∀ t, s.status t = some .running ↔ t = s.current) ∧
      s.ready.Nodup ∧
      (∀ t, t ∈ s.ready ↔ s.status t = some .ready ∧ s.idle ≠ some t) ∧
      (∀ x, (s.sema x).waiters.Nodup) ∧
      (∀ x t, t ∈ (s.sema x).waiters → s.status t = some .blocked ∧ t ∉ s.ready ∧
        ∀ y, t ∈ (s.sema y).waiters → y = x) ∧
      (∀ t, s.status t = some .dying → t ∉ s.ready ∧ (∀ x, t ∉ (s.sema x).waiters) ∧
        ∀ a s', Parked s a → step s a = some s' → s'.status t = some .dying ∧ s'.current ≠ t) ∧
      s.freed = (s.exited.filter fun e => e.1 ≠ initialThread) ∧
      (s.exited.map Prod.fst).Nodup ∧
      ∀ e ∈ s.exited, e.1 ≠ e.2 := by
  obtain ⟨inv, log⟩ := reachable_inv h
  have running : ∀ t, s.status t = some .running ↔ t = s.current := fun t =>
    ⟨(inv.core.fits t).running, fun e => e ▸ inv.current⟩
  refine ⟨running, inv.core.nodup, fun t => (inv.core.fits t).ready, inv.core.waiters,
    fun x t waits => ?_, fun t dying => ⟨fun listed => ?_, fun x waits => ?_, ?_⟩, log.freed,
    log.nodup, log.other⟩
  · obtain ⟨blocked, sema⟩ := ((inv.core.fits t).waiting x).mp waits
    refine ⟨blocked, fun listed => ?_, fun y waits' => ?_⟩
    · have ready := ((inv.core.fits t).ready.mp listed).1
      simp [blocked] at ready
    · have sema' := (((inv.core.fits t).waiting y).mp waits').2
      rw [sema, Option.some_inj] at sema'
      exact sema'.symm
  · have ready := ((inv.core.fits t).ready.mp listed).1
    simp [dying] at ready
  · have blocked := (((inv.core.fits t).waiting x).mp waits).1
    simp [dying] at blocked
  · intro a s' ok taken
    obtain ⟨inv', kept⟩ := inv.step ok taken
    have still : s'.status t = some .dying := by
      rcases kept with keeps | exited
      · have lt : t < s.next := by
          by_contra le
          have none := (inv.core.fits t).fresh (not_lt.mp le)
          simp [dying] at none
        rw [keeps.gone t lt (.inr dying), dying]
      · have ne : t ≠ s.current := fun e => by simp [e, inv.current] at dying
        rw [exited.gone t ne (.inr dying), dying]
    refine ⟨still, fun e => ?_⟩
    have := inv'.current
    simp [e, still] at this

theorem scheduler_invariant_exit : ∃ s : State Unit,
    Reachable (start fun _ => 0) step Parked s ∧ s.exited = [(2, 0)] ∧
      (∀ t, s.status t = some .running ↔ t = s.current) ∧
      s.ready.Nodup ∧
      (∀ t, t ∈ s.ready ↔ s.status t = some .ready ∧ s.idle ≠ some t) ∧
      (∀ x, (s.sema x).waiters.Nodup) ∧
      (∀ x t, t ∈ (s.sema x).waiters → s.status t = some .blocked ∧ t ∉ s.ready ∧
        ∀ y, t ∈ (s.sema y).waiters → y = x) ∧
      (∀ t, s.status t = some .dying → t ∉ s.ready ∧ (∀ x, t ∉ (s.sema x).waiters) ∧
        ∀ a s', Parked s a → step s a = some s' → s'.status t = some .dying ∧ s'.current ≠ t) ∧
      s.freed = (s.exited.filter fun e => e.1 ≠ initialThread) ∧
      (s.exited.map Prod.fst).Nodup ∧
      ∀ e ∈ s.exited, e.1 ≠ e.2 := by
  have init : Reachable (start fun _ : Unit => 0) step Parked _ := .start
  have reached := init.run
    [.proceed, .proceed, .proceed, .proceed, .proceed, .create, .proceed, .proceed, .proceed,
      .yield, .exit]
    (by simp [Parked]) rfl
  exact ⟨_, reached, rfl, scheduler_invariant reached⟩

/-- `thread_unblock` of a thread that waits in `sema_down` puts it on two lists, and of
the idle thread puts that on the ready list. -/
theorem unblock_any_breaks :
    (∃ s : State Unit, Reachable (start fun _ => 0) step (fun _ _ => True) s ∧
      2 ∈ s.ready ∧ 2 ∈ (s.sema (.other ())).waiters) ∧
    ∃ s : State Unit, Reachable (start fun _ => 0) step (fun _ _ => True) s ∧
      s.idle = some 1 ∧ 1 ∈ s.ready := by
  have init : Reachable (start fun _ : Unit => 0) step (fun _ _ => True) _ := .start
  have waiter := init.run
    [.proceed, .proceed, .proceed, .proceed, .proceed, .create, .proceed, .proceed, .proceed,
      .yield, .semaDown (), .proceed, .unblock 2]
    (fun _ _ _ => True.intro) rfl
  have idle := init.run [.proceed, .proceed, .proceed, .proceed, .unblock 1]
    (fun _ _ _ => True.intro) rfl
  exact ⟨⟨_, waiter, List.mem_cons_self, List.mem_cons_self⟩, ⟨_, idle, rfl, List.mem_cons_self⟩⟩

end Pintos.Scheduler
