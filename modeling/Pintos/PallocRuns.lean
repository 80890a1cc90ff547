import Pintos.PallocInit
import Pintos.Transition

/-! Whole runs of the page allocator after `palloc_init`: any sequence of requests, and of groups
given back with the page count they were handed out with. -/

namespace Pintos.PallocRuns
open Bitmap Stoppable Vaddr PallocInit Transition Function
open Palloc hiding update

structure Group where
  user : Bool
  cnt : Nat

/-- Memory, and the groups in use by the address of their first page. -/
structure World where
  mem : Mem
  live : Nat → Option Group

inductive Action where
  | get (flags : Flags) (pageCnt : Nat)
  | free (pages pageCnt : Nat)
  | write (ram : Nat → UInt8)

/-- Only what was handed out is given back, whole, and written to. -/
def Action.Proper (w : World) : Action → Prop
  | .get _ _ => True
  | .free pages pageCnt => ∃ user, w.live pages = some ⟨user, pageCnt⟩
  | .write ram => ∀ x, ram x ≠ w.mem.ram x →
    ∃ p g, w.live p = some g ∧ p ≤ x ∧ x < p + pgsize * g.cnt

def World.got (w : World) (flags : Flags) (pageCnt : Nat) (r : Option Nat) (m : Mem) : World where
  mem := m
  live :=
    match r with
    | none => w.live
    | some pages => update w.live pages (some ⟨flags.user, pageCnt⟩)

def step (w : World) : Action → Option World
  | .get flags pageCnt =>
    match (pallocGetMultiple flags pageCnt).run w.mem with
    | (.ok r, m) => some (w.got flags pageCnt r m)
    | (.error _, _) => none
  | .free pages pageCnt =>
    match (pallocFreeMultiple (some pages) pageCnt).run w.mem with
    | (.ok _, m) => some ⟨m, update w.live pages none⟩
    | (.error _, _) => none
  | .write ram => some { w with mem := w.mem.withRam ram }

/-- The pools lie where `palloc_init` put them. -/
structure Laid (k u : PoolStart) (m : Mem) : Prop where
  kernelBase : m.kernelPool.base = k.base.toNat
  kernelPages : m.kernelPool.pages = k.usedMap.bitCnt
  userBase : m.userPool.base = u.base.toNat
  userPages : m.userPool.pages = u.usedMap.bitCnt

structure Initial (k u : PoolStart) (m : Mem) : Prop extends Laid k u m where
  kernelMap : m.kernelPool.usedMap = k.usedMap
  userMap : m.userPool.usedMap = u.usedMap

/-- The groups in use and the maps of the pools agree. -/
structure Sound (w : World) : Prop where
  pos : ∀ p g, w.live p = some g → 0 < g.cnt
  aligned : ∀ p g, w.live p = some g → p % pgsize = 0
  inside : ∀ p g, w.live p = some g → ∀ q, Span p g.cnt q → (w.mem.pool g.user).Has q
  apart : ∀ p g p' g', w.live p = some g → w.live p' = some g' → p ≠ p' →
    p + pgsize * g.cnt ≤ p' ∨ p' + pgsize * g'.cnt ≤ p
  exact : ∀ user, ∀ i < (w.mem.pool user).pages, (w.mem.pool user).usedMap.bit i = true ↔
    ∃ p g, w.live p = some g ∧ g.user = user ∧ Span p g.cnt ((w.mem.pool user).base + pgsize * i)

variable {k u : PoolStart} {m m' : Mem} {w w' : World} {p q cnt : Nat} {g : Group} {user : Bool}

/-- What the steps keep: the pages in use are those of the groups, each of one group. -/
structure Keeps (w : World) : Prop where
  pos : ∀ p g, w.live p = some g → 0 < g.cnt
  used : ∀ user q, (w.mem.pool user).Used q ↔ ∃ p g, w.live p = some g ∧ g.user = user ∧
    Span p g.cnt q
  once : ∀ p g p' g' q, w.live p = some g → w.live p' = some g' → Span p g.cnt q →
    Span p' g'.cnt q → p = p'

theorem Keeps.inside (h : Keeps w) (hg : w.live p = some g) (span : Span p g.cnt q) :
    (w.mem.pool g.user).Has q := ((h.used g.user q).mpr ⟨p, g, hg, rfl, span⟩).has

theorem Keeps.sound (h : Keeps w) : Sound w := by
  have aligned : ∀ p g, w.live p = some g → p % pgsize = 0 := fun p g hg =>
    (h.inside hg ⟨0, h.pos p g hg, rfl⟩).aligned
  refine ⟨h.pos, aligned, fun p g hg q => h.inside hg, fun p g p' g' hg hg' ne => ?_,
    fun user i lt => ?_⟩
  · by_contra overlap
    obtain ⟨before, after⟩ := not_or.mp overlap
    have start := aligned p g hg
    have start' := aligned p' g' hg'
    have pos := h.pos p g hg
    have pos' := h.pos p' g' hg'
    simp only [pgsize, pgbits] at before after start start'
    rcases Nat.le_total p p' with le | le
    · refine ne (h.once p g p' g' p' hg hg' ⟨(p' - p) / 4096, by omega, ?_⟩ ⟨0, pos', rfl⟩)
      simp only [pgsize, pgbits]
      omega
    · refine ne (h.once p g p' g' p hg hg' ⟨0, pos, rfl⟩ ⟨(p - p') / 4096, by omega, ?_⟩)
      simp only [pgsize, pgbits]
      omega
  · rw [← h.used user, used_index]
    exact (and_iff_right lt).symm

theorem Keeps.take (h : Keeps w) (taken : Taken w.mem m user p cnt) (pos : 0 < cnt)
    (same : ∀ b, m'.pool b = m.pool b) : Keeps ⟨m', update w.live p (some ⟨user, cnt⟩)⟩ := by
  have off : ∀ p' g' q, w.live p' = some g' → Span p' g'.cnt q → ¬Span p cnt q := by
    intro p' g' q hg' span' span
    by_cases pools : g'.user = user
    · exact taken.fresh q span ((h.used user q).mpr ⟨p', g', hg', pools, span'⟩)
    · have other := w.mem.pool_unique (taken.has q span)
      rw [← Bool.eq_not_of_ne pools] at other
      exact other (h.inside hg' span')
  have new : w.live p = none := by
    cases hg : w.live p with
    | none => rfl
    | some g' => exact absurd ⟨0, pos, rfl⟩ (off p g' p hg ⟨0, h.pos p g' hg, rfl⟩)
  have cases : ∀ p' g', update w.live p (some ⟨user, cnt⟩) p' = some g' ↔
      (p' = p ∧ g' = ⟨user, cnt⟩) ∨ (p' ≠ p ∧ w.live p' = some g') := by
    intro p' g'
    by_cases here : p' = p
    · subst here
      simp [eq_comm]
    · simp [here]
  refine ⟨fun p' g' hg' => ?_, fun b q => ?_, fun p1 g1 p2 g2 q h1 h2 span1 span2 => ?_⟩
  · rcases (cases p' g').mp hg' with ⟨-, rfl⟩ | ⟨-, old⟩
    · exact pos
    · exact h.pos p' g' old
  · simp only [same]
    rw [taken.used_iff, h.used]
    constructor
    · rintro (⟨rfl, span⟩ | ⟨p', g', hg', e, span⟩)
      · exact ⟨p, _, (cases p _).mpr (.inl ⟨rfl, rfl⟩), rfl, span⟩
      · refine ⟨p', g', (cases p' g').mpr (.inr ⟨fun here => ?_, hg'⟩), e, span⟩
        rw [here, new] at hg'
        cases hg'
    · rintro ⟨p', g', hg', e, span⟩
      rcases (cases p' g').mp hg' with ⟨rfl, rfl⟩ | ⟨-, old⟩
      · exact .inl ⟨e.symm, span⟩
      · exact .inr ⟨p', g', old, e, span⟩
  · rcases (cases p1 g1).mp h1 with ⟨rfl, rfl⟩ | ⟨-, old1⟩ <;>
      rcases (cases p2 g2).mp h2 with ⟨rfl, rfl⟩ | ⟨-, old2⟩
    · rfl
    · exact absurd span1 (off p2 g2 q old2 span2)
    · exact absurd span2 (off p1 g1 q old1 span1)
    · exact h.once p1 g1 p2 g2 q old1 old2 span1 span2

theorem Keeps.give (h : Keeps w) (hg : w.live p = some g) (freed : Freed w.mem m g.user p g.cnt)
    (same : ∀ b, m'.pool b = m.pool b) : Keeps ⟨m', update w.live p none⟩ := by
  have cases : ∀ p' g', update w.live p none p' = some g' ↔
      p' ≠ p ∧ w.live p' = some g' := by
    intro p' g'
    by_cases here : p' = p
    · subst here
      simp
    · simp [here]
  refine ⟨fun p' g' hg' => h.pos p' g' ((cases p' g').mp hg').2, fun b q => ?_,
    fun p1 g1 p2 g2 q h1 h2 => h.once p1 g1 p2 g2 q ((cases p1 g1).mp h1).2 ((cases p2 g2).mp h2).2⟩
  simp only [same]
  rw [freed.used_iff, h.used]
  constructor
  · rintro ⟨⟨p', g', hg', rfl, span⟩, out⟩
    refine ⟨p', g', (cases p' g').mpr ⟨fun here => out ?_, hg'⟩, rfl, span⟩
    subst here
    rw [hg] at hg'
    cases hg'
    exact ⟨rfl, span⟩
  · rintro ⟨p', g', hg', rfl, span⟩
    obtain ⟨ne, old⟩ := (cases p' g').mp hg'
    exact ⟨⟨p', g', old, rfl, span⟩, fun ⟨_, span'⟩ => ne (h.once p' g' p g q old hg span span')⟩

/-- The pools stay where they are, and nothing outside their pages is written to. -/
structure Frame (m m' : Mem) : Prop where
  base : ∀ b, (m'.pool b).base = (m.pool b).base
  pages : ∀ b, (m'.pool b).pages = (m.pool b).pages
  bytes : ∀ x, (∀ b q, (m.pool b).Has q → x < q ∨ q + pgsize ≤ x) → m'.ram x = m.ram x

theorem Frame.refl : Frame m m := ⟨fun _ => rfl, fun _ => rfl, fun _ _ => rfl⟩

theorem Frame.has (h : Frame m m') : ∀ b q, (m'.pool b).Has q ↔ (m.pool b).Has q := fun b q => by
  rw [Pool.Has, Pool.Has, h.base, h.pages]

theorem Frame.trans {m'' : Mem} (h : Frame m m') (h' : Frame m' m'') : Frame m m'' where
  base b := (h'.base b).trans (h.base b)
  pages b := (h'.pages b).trans (h.pages b)
  bytes x off := (h'.bytes x fun b q has => off b q ((h.has b q).mp has)).trans (h.bytes x off)

theorem Frame.setMap {b : Bits} (size : b.bitCnt = (m.pool user).pages) :
    Frame m (m.setMap user b size) := by
  refine ⟨fun c => ?_, fun c => ?_, fun x _ => ?_⟩
  · cases user <;> cases c <;> rfl
  · cases user <;> cases c <;> rfl
  · rw [setMap_ram]

theorem Frame.write {ram : Nat → UInt8} (pools : ∀ b, m'.pool b = m.pool b) (bytes : m'.ram = ram)
    (has : ∀ x, ram x ≠ m.ram x → ∃ b q, (m.pool b).Has q ∧ q ≤ x ∧ x < q + pgsize) :
    Frame m m' := by
  refine ⟨fun b => by rw [pools], fun b => by rw [pools], fun x off => ?_⟩
  by_contra changed
  obtain ⟨b, q, here, low, high⟩ := has x (bytes ▸ changed)
  rcases off b q here with before | after
  · omega
  · omega

theorem page_of {x : Nat} (low : p ≤ x) (high : x < p + pgsize * cnt) :
    ∃ q, Span p cnt q ∧ q ≤ x ∧ x < q + pgsize := by
  refine ⟨p + pgsize * ((x - p) / pgsize), ⟨(x - p) / pgsize, ?_, rfl⟩, ?_, ?_⟩
  · exact Nat.div_lt_of_lt_mul (by omega)
  · simp only [pgsize, pgbits]
    omega
  · simp only [pgsize, pgbits]
    omega

theorem Frame.fill {byte : UInt8} (has : ∀ q, Span p cnt q → (m.pool user).Has q) :
    Frame m (m.store p (List.replicate (pgsize * cnt) byte)) := by
  refine Frame.write (fun b => store_pool p _) rfl fun x changed => ?_
  have inside : p ≤ x ∧ x < p + pgsize * cnt := by
    by_contra out
    exact changed (ByteStore.splice_off _ _ (by rw [List.length_replicate]; omega))
  obtain ⟨q, span, low, high⟩ := page_of inside.1 inside.2
  exact ⟨user, q, has q span, low, high⟩

theorem get_spec (h : Keeps w) (flags : Flags) (pos : 0 < cnt) :
    (∃ p m', (pallocGetMultiple flags cnt).run w.mem = (.ok (some p), m') ∧
      Keeps (w.got flags cnt (some p) m') ∧ Frame w.mem m') ∨
    ((∀ i, i + cnt ≤ (w.mem.pool flags.user).pages →
        ∃ j, i ≤ j ∧ j < i + cnt ∧ (w.mem.pool flags.user).usedMap.bit j = true) ∧
      (pallocGetMultiple flags cnt).run w.mem =
        (if flags.assert then .error .panic else .ok none, w.mem)) := by
  rcases pallocGetMultiple_cases flags pos w.mem with ⟨p, m', taken, run⟩ | ⟨full, run⟩
  · obtain ⟨b, size, rfl⟩ := taken.eq
    have has : ∀ q, Span p cnt q → ((w.mem.setMap flags.user b size).pool flags.user).Has q :=
      fun q span => (setMap_has _ _).mpr (taken.has q span)
    refine .inl ⟨p, _, run, h.take taken pos fun c => ?_, (Frame.setMap size).trans ?_⟩
    · split_ifs
      · exact store_pool p _
      · rfl
    · split_ifs
      · exact Frame.fill has
      · exact Frame.refl
  · refine .inr ⟨fun i le => ?_, run⟩
    obtain ⟨q, span, used⟩ := full ((w.mem.pool flags.user).base + pgsize * i) fun q span => by
      obtain ⟨j, low, high, rfl⟩ := span_shift.mp span
      exact ⟨j, by omega, rfl⟩
    obtain ⟨j, low, high, rfl⟩ := span_shift.mp span
    exact ⟨j, low, high, (used_index.mp used).2⟩

theorem free_spec (h : Keeps w) (hg : w.live p = some g) :
    ∃ m', (pallocFreeMultiple (some p) g.cnt).run w.mem = (.ok (), m') ∧
      Keeps ⟨m', update w.live p none⟩ ∧ Frame w.mem m' ∧
      ∀ b q, (m'.pool b).Used q ↔ (w.mem.pool b).Used q ∧ ¬(b = g.user ∧ Span p g.cnt q) := by
  have used : ∀ q, Span p g.cnt q → (w.mem.pool g.user).Used q := fun q span =>
    (h.used g.user q).mpr ⟨p, g, hg, rfl, span⟩
  obtain ⟨m', freed, run⟩ := pallocFreeMultiple_spec (h.pos p g hg) used
  refine ⟨_, run, h.give hg freed fun b => store_pool p _, ?_, fun b q => ?_⟩
  · obtain ⟨b, size, rfl⟩ := freed.eq
    exact (Frame.setMap size).trans (Frame.fill fun q span => (setMap_has _ _).mpr (used q span).has)
  · rw [store_pool, freed.used_iff]

theorem keeps_step {action : Action} (h : Keeps w) (proper : action.Proper w)
    (taken : step w action = some w') : Keeps w' ∧ Frame w.mem w'.mem := by
  cases action with
  | get flags cnt =>
    rcases Nat.eq_zero_or_pos cnt with rfl | pos
    · have run : (pallocGetMultiple flags 0).run w.mem = (.ok none, w.mem) := rfl
      rw [step, run] at taken
      cases taken
      exact ⟨h, Frame.refl⟩
    rcases get_spec h flags pos with ⟨p, m', run, keeps, frame⟩ | ⟨-, run⟩
    · rw [step, run] at taken
      cases taken
      exact ⟨keeps, frame⟩
    · rw [step, run] at taken
      split_ifs at taken
      cases taken
      exact ⟨h, Frame.refl⟩
  | free p cnt =>
    obtain ⟨user, hg⟩ := proper
    obtain ⟨m', run, keeps, frame, -⟩ := free_spec h hg
    rw [step, run] at taken
    cases taken
    exact ⟨keeps, frame⟩
  | write ram =>
    cases taken
    have pools : ∀ b, (w.mem.withRam ram).pool b = w.mem.pool b := withRam_pool w.mem ram
    refine ⟨⟨h.pos, fun user q => ?_, h.once⟩, Frame.write pools rfl fun x changed => ?_⟩
    · rw [pools]
      exact h.used user q
    · obtain ⟨p, g, hg, low, high⟩ := proper x changed
      obtain ⟨q, span, low', high'⟩ := page_of low high
      exact ⟨g.user, q, h.inside hg span, low', high'⟩

theorem Layout.initial {n : Nat} (layout : Layout n k u) (ram : Nat → UInt8) :
    ∃ m, Initial k u m ∧ m.ram = ram := by
  obtain ⟨kernel, last, -, top, user⟩ := layout
  have bottom : physBase.toNat % 4096 = 0 := rfl
  have small : physBase.toNat ≤ 2 ^ 32 := by decide
  have size : ∀ b, 8 ≤ bitmapBufSize b := fun b => Nat.le_add_right 8 _
  have first := kernel.map
  have room := kernel.room
  have pages := kernel.pages
  have room' := user.room
  have pages' := user.pages
  have aligned' := user.aligned
  have size1 := size k.usedMap.bitCnt
  have size2 := size u.usedMap.bitCnt
  simp only [pgsize, pgbits] at pages pages' aligned'
  exact ⟨{
    kernelPool := ⟨k.usedMap, k.base.toNat, k.usedMap.bitCnt, rfl, kernel.aligned, by omega⟩
    userPool := ⟨u.usedMap, u.base.toNat, u.usedMap.bitCnt, rfl, user.aligned, by omega⟩
    initRamPages := (last - physBase.toNat) / 4096
    ram := ram
    apart := by simp only [pgsize, pgbits]; omega
    room := by simp only [pgsize, pgbits]; omega
    fits := by simp only [pgsize, pgbits]; omega }, ⟨⟨rfl, rfl, rfl, rfl⟩, rfl, rfl⟩, rfl⟩

theorem Initial.keeps {n : Nat} (layout : Layout n k u) (initial : Initial k u m) :
    Keeps ⟨m, fun _ => none⟩ := by
  obtain ⟨kernel, last, -, -, user⟩ := layout
  refine ⟨nofun, fun b q => ⟨?_, nofun⟩, nofun⟩
  rintro ⟨i, lt, -, bit⟩
  exfalso
  cases b with
  | false =>
    rw [Mem.pool, initial.kernelPages] at lt
    rw [Mem.pool, initial.kernelMap, kernel.clear i lt] at bit
    cases bit
  | true =>
    rw [Mem.pool, initial.userPages] at lt
    rw [Mem.pool, initial.userMap, user.clear i lt] at bit
    cases bit

theorem Laid.frame (h : Laid k u m) (frame : Frame m m') : Laid k u m' where
  kernelBase := (frame.base false).trans h.kernelBase
  kernelPages := (frame.pages false).trans h.kernelPages
  userBase := (frame.base true).trans h.userBase
  userPages := (frame.pages true).trans h.userPages

theorem Laid.map_off {n x : Nat} (layout : Layout n k u) (h : Laid k u m)
    (inside : k.mapAddr.toNat ≤ x ∧ x < k.base.toNat ∨ u.mapAddr.toNat ≤ x ∧ x < u.base.toNat) :
    ∀ b q, (m.pool b).Has q → x < q ∨ q + pgsize ≤ x := by
  obtain ⟨kernel, last, -, -, user⟩ := layout
  have room := kernel.room
  have pages := kernel.pages
  have room' := user.room
  rintro b q ⟨i, lt, rfl⟩
  have next : pgsize * i + pgsize ≤ pgsize * (m.pool b).pages := by
    rw [← Nat.mul_succ]
    exact Nat.mul_le_mul_left _ lt
  cases b with
  | false =>
    rw [Mem.pool, h.kernelPages] at next
    rw [Mem.pool, h.kernelBase]
    omega
  | true =>
    rw [Mem.pool, h.userBase]
    omega

/-- The page allocator, whatever the size of memory: where the pools lie, and what holds in every
state of every run. -/
theorem palloc_sound {initRamPages userPageLimit : BitVec 32}
    {junk : BitVec 32 → Nat → BitVec 32}
    (init : pallocInit initRamPages userPageLimit junk = .ok (k, u)) :
    Layout initRamPages.toNat k u ∧ (∀ ram, ∃ m, Initial k u m ∧ m.ram = ram) ∧
    ∀ m, Initial k u m → ∀ w, Reachable ⟨m, fun _ => none⟩ step (fun w a => a.Proper w) w →
      Laid k u w.mem ∧ Sound w ∧
      (∀ x, k.mapAddr.toNat ≤ x ∧ x < k.base.toNat ∨ u.mapAddr.toNat ≤ x ∧ x < u.base.toNat →
        w.mem.ram x = m.ram x) ∧
      (∀ flags cnt, 0 < cnt →
        (∃ p m', (pallocGetMultiple flags cnt).run w.mem = (.ok (some p), m') ∧
          Sound (w.got flags cnt (some p) m')) ∨
        ((∀ i, i + cnt ≤ (w.mem.pool flags.user).pages →
            ∃ j, i ≤ j ∧ j < i + cnt ∧ (w.mem.pool flags.user).usedMap.bit j = true) ∧
          (pallocGetMultiple flags cnt).run w.mem =
            (if flags.assert then .error .panic else .ok none, w.mem))) ∧
      ∀ p g, w.live p = some g → ∃ m',
        (pallocFreeMultiple (some p) g.cnt).run w.mem = (.ok (), m') ∧
        Sound ⟨m', update w.live p none⟩ ∧
        ∀ b q, (m'.pool b).Used q ↔ (w.mem.pool b).Used q ∧ ¬(b = g.user ∧ Span p g.cnt q) := by
  have layout := pallocInit_layout init
  refine ⟨layout, Layout.initial layout, fun m initial w reach => ?_⟩
  have inv : Keeps w ∧ Frame m w.mem := Reachable.invariant
    (P := fun w => Keeps w ∧ Frame m w.mem) ⟨initial.keeps layout, Frame.refl⟩
    (fun w a w' h proper taken =>
      ⟨(keeps_step h.1 proper taken).1, h.2.trans (keeps_step h.1 proper taken).2⟩) reach
  obtain ⟨keeps, frame⟩ := inv
  refine ⟨initial.toLaid.frame frame, keeps.sound, fun x inside => ?_, fun flags cnt pos => ?_,
    fun p g hg => ?_⟩
  · exact frame.bytes x (initial.toLaid.map_off layout inside)
  · rcases get_spec keeps flags pos with ⟨p, m', run, keeps', -⟩ | full
    · exact .inl ⟨p, m', run, keeps'.sound⟩
    · exact .inr full
  · obtain ⟨m', run, keeps', -, used⟩ := free_spec keeps hg
    exact ⟨m', run, keeps'.sound, used⟩

theorem palloc_sound_small : ∃ k u, pallocInit 260 0xffffffff (fun _ _ => 0) = .ok (k, u) ∧
    Layout 260 k u := by
  have returns : (pallocInit 260 0xffffffff (fun _ _ => 0)).isOk = true := by decide
  cases init : pallocInit 260 0xffffffff (fun _ _ => 0) with
  | error e =>
    rw [init] at returns
    cases returns
  | ok pools => exact ⟨pools.1, pools.2, rfl, (palloc_sound init).1⟩

end Pintos.PallocRuns
