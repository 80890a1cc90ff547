import Pintos.Bitmap
import Pintos.Stoppable
import Pintos.Vaddr

/-! The page allocator of `threads/palloc.c`. Memory is the two pools and the bytes of RAM,
by kernel virtual address; a pool carries where it lies and that its map has one bit a
page. A failed assertion panics. -/

namespace Pintos.Palloc
open ByteStore Bitmap Stoppable Vaddr
open Exec (run_bind_ok)
open List (replicate)

/-- Why a program does not return: `thread_exit`, a kernel panic, the power is off, or it
never ends. -/
inductive Stop where
  | exit
  | panic
  | halt
  | hang
  deriving DecidableEq

structure Pool where
  usedMap : Bits
  base : Nat
  pages : Nat
  size : usedMap.bitCnt = pages
  aligned : base % pgsize = 0
  above : physBase.toNat ≤ base

/-! Where the pools of a machine with little memory start, and how large their maps are. -/

theorem kernelStart_aligned : 0xc0100000 % pgsize = 0 := by decide

theorem kernelStart_above : physBase.toNat ≤ 0xc0100000 := by decide

theorem thirdPage_aligned : 0xc0103000 % pgsize = 0 := by decide

theorem thirdPage_above : physBase.toNat ≤ 0xc0103000 := by decide

theorem fivePages_fit : physBase.toNat + pgsize * 0x105 ≤ 2 ^ 32 := by decide

theorem onePage_small : 1 + 31 < 2 ^ 32 := by decide

theorem twoPages_small : 2 + 31 < 2 ^ 32 := by decide

theorem threePages_small : 3 + 31 < 2 ^ 32 := by decide

theorem allFree_length : ([0] : List (BitVec 32)).length = 1 := rfl

theorem firstUsed_length : ([1] : List (BitVec 32)).length = 1 := rfl

/-- RAM of `initRamPages` pages, mapped at `physBase`, with the kernel pool below the user
pool. -/
structure Mem where
  kernelPool : Pool
  userPool : Pool
  initRamPages : Nat
  ram : Nat → UInt8
  apart : kernelPool.base + pgsize * kernelPool.pages ≤ userPool.base
  room : userPool.base + pgsize * userPool.pages ≤ physBase.toNat + pgsize * initRamPages
  fits : physBase.toNat + pgsize * initRamPages ≤ 2 ^ 32

abbrev Alloc := Exec Stop Mem

structure Flags where
  assert : Bool := false
  zero : Bool := false
  user : Bool := false

def Mem.pool (m : Mem) : Bool → Pool
  | true => m.userPool
  | false => m.kernelPool

def Mem.setMap (m : Mem) (user : Bool) (b : Bits) (h : b.bitCnt = (m.pool user).pages) : Mem :=
  match user with
  | true => { m with userPool := { m.userPool with usedMap := b, size := h } }
  | false => { m with kernelPool := { m.kernelPool with usedMap := b, size := h } }

def Mem.store (m : Mem) (a : Nat) (bs : List UInt8) : Mem := { m with ram := splice m.ram a bs }

def assert (p : Prop) [Decidable p] {σ : Type} : Exec Stop σ Unit :=
  if p then pure () else Exec.stop .panic

def demand {σ α : Type} : Option α → Exec Stop σ α
  | some a => pure a
  | none => Exec.stop .panic

def update {σ α : Type} (f : σ → Option (α × σ)) : Exec Stop σ α where
  run s := match f s with
    | some (a, s') => (.ok a, s')
    | none => (.error .panic, s)
variable {σ α : Type} {b b' : Bits} {i : Nat} {v : Bool} {p : Pool}

theorem run_update {f : σ → Option (α × σ)} {s s' : σ} {a : α} (h : f s = some (a, s')) :
    (update f).run s = (.ok a, s') := by
  simp only [update, h]

@[simp] theorem run_demand {σ α : Type} (a : α) (s : σ) :
    (demand (some a) : Exec Stop σ α).run s = (.ok a, s) := rfl

theorem run_assert {p : Prop} [Decidable p] (h : p) (s : σ) :
    (assert p : Exec Stop σ Unit).run s = (.ok (), s) := by
  rw [assert, if_pos h]
  rfl

theorem setLoop_bitCnt {n : Nat} (h : setLoop v n i b = some b') : b'.bitCnt = b.bitCnt := by
  induction n generalizing i b with
  | zero =>
    cases h
    rfl
  | succ n ih =>
    obtain ⟨c, set, rest⟩ := Option.bind_eq_some_iff.mp h
    refine (ih rest).trans ?_
    unfold bitmapSet at set
    split_ifs at set
    all_goals
      cases set
      rfl

theorem bitmapSetMultiple_bitCnt {start cnt : Nat} (h : bitmapSetMultiple b start cnt v = some b') :
    b'.bitCnt = b.bitCnt := by
  unfold bitmapSetMultiple at h
  split_ifs at h
  exact setLoop_bitCnt h

theorem bitmapScanAndFlip_bitCnt {start cnt : Nat}
    (h : bitmapScanAndFlip b start cnt v = some (i, b')) : b'.bitCnt = b.bitCnt := by
  obtain ⟨idx, -, rest⟩ := Option.bind_eq_some_iff.mp h
  split_ifs at rest
  · obtain ⟨c, set, e⟩ := Option.bind_eq_some_iff.mp rest
    cases e
    exact bitmapSetMultiple_bitCnt set
  · cases rest
    rfl

def Mem.scanAndFlip (m : Mem) (user : Bool) (pageCnt : Nat) : Option (Nat × Mem) :=
  match h : bitmapScanAndFlip (m.pool user).usedMap 0 pageCnt false with
  | none => none
  | some (pageIdx, map) =>
    some (pageIdx, m.setMap user map ((bitmapScanAndFlip_bitCnt h).trans (m.pool user).size))

def Mem.setMultiple (m : Mem) (user : Bool) (pageIdx pageCnt : Nat) (value : Bool) :
    Option (Unit × Mem) :=
  match h : bitmapSetMultiple (m.pool user).usedMap pageIdx pageCnt value with
  | none => none
  | some map => some ((), m.setMap user map ((bitmapSetMultiple_bitCnt h).trans (m.pool user).size))

/-- `none` is the null pointer. -/
def pallocGetMultiple (flags : Flags) (pageCnt : Nat) : Alloc (Option Nat) :=
  if pageCnt = 0 then pure none
  else do
    let pageIdx ← update fun m => m.scanAndFlip flags.user pageCnt
    let m ← Exec.state
    if pageIdx ≠ bitmapError then do
      let pages := (m.pool flags.user).base + pgsize * pageIdx
      if flags.zero then Exec.modify fun m => m.store pages (replicate (pgsize * pageCnt) 0)
      else pure ()
      pure (some pages)
    else if flags.assert then Exec.stop .panic
    else pure none

def pallocGetPage (flags : Flags) : Alloc (Option Nat) := pallocGetMultiple flags 1

def pageFromPool (pool : Pool) (page : Nat) : Prop :=
  pool.base / pgsize ≤ page / pgsize ∧ page / pgsize < pool.base / pgsize + pool.usedMap.bitCnt

instance (pool : Pool) (page : Nat) : Decidable (pageFromPool pool page) :=
  inferInstanceAs (Decidable (_ ∧ _))

def releasePages (user : Bool) (pages pageCnt : Nat) : Alloc Unit := do
  Exec.modify fun m => m.store pages (replicate (pgsize * pageCnt) 0xcc)
  let m ← Exec.state
  let pageIdx := pages / pgsize - (m.pool user).base / pgsize
  let all ← demand (bitmapAll (m.pool user).usedMap pageIdx pageCnt)
  assert (all = true)
  update fun m => m.setMultiple user pageIdx pageCnt false

def pallocFreeMultiple (pages : Option Nat) (pageCnt : Nat) : Alloc Unit :=
  match pages with
  | none => pure ()
  | some pages => do
    assert (pages % pgsize = 0)
    if pageCnt = 0 then pure ()
    else do
      let m ← Exec.state
      if pageFromPool m.kernelPool pages then releasePages false pages pageCnt
      else if pageFromPool m.userPool pages then releasePages true pages pageCnt
      else Exec.stop .panic

def pallocFreePage (page : Option Nat) : Alloc Unit := pallocFreeMultiple page 1

def Pool.Has (p : Pool) (q : Nat) : Prop := ∃ i < p.pages, q = p.base + pgsize * i

def Pool.Used (p : Pool) (q : Nat) : Prop :=
  ∃ i < p.pages, q = p.base + pgsize * i ∧ p.usedMap.bit i = true

/-- The pages of a group of `cnt` that starts at `page`. -/
def Span (page cnt q : Nat) : Prop := ∃ i < cnt, q = page + pgsize * i

@[simp] theorem span_one {page q : Nat} : Span page 1 q ↔ q = page := by
  constructor
  · rintro ⟨i, lt, rfl⟩
    rw [Nat.lt_one_iff.mp lt, Nat.mul_zero, Nat.add_zero]
  · rintro rfl
    exact ⟨0, Nat.one_pos, rfl⟩

variable {m m' : Mem} {user : Bool} {page cnt : Nat}

section SetMap

variable {b : Bits} {h : b.bitCnt = (m.pool user).pages}

@[simp] theorem setMap_ram : (m.setMap user b h).ram = m.ram := by
  cases user <;> rfl

@[simp] theorem setMap_initRamPages : (m.setMap user b h).initRamPages = m.initRamPages := by
  cases user <;> rfl

@[simp] theorem setMap_other : (m.setMap user b h).pool (!user) = m.pool (!user) := by
  cases user <;> rfl

theorem setMap_pool :
    (m.setMap user b h).pool user = { m.pool user with usedMap := b, size := h } := by
  cases user <;> rfl

@[simp] theorem store_pool (a : Nat) (bs : List UInt8) : (m.store a bs).pool user = m.pool user := by
  cases user <;> rfl

end SetMap

/-- `m'` is `m` but for the map of one pool, in which the pages of a group are in use. -/
structure Taken (m m' : Mem) (user : Bool) (page cnt : Nat) : Prop where
  eq : ∃ b h, m' = m.setMap user b h
  has : ∀ q, Span page cnt q → (m.pool user).Has q
  fresh : ∀ q, Span page cnt q → ¬(m.pool user).Used q
  used : ∀ q, (m'.pool user).Used q ↔ Span page cnt q ∨ (m.pool user).Used q

/-- `m'` is `m` but for the map of one pool, in which the pages of a group are free. -/
structure Freed (m m' : Mem) (user : Bool) (page cnt : Nat) : Prop where
  eq : ∃ b h, m' = m.setMap user b h
  used : ∀ q, (m'.pool user).Used q ↔ (m.pool user).Used q ∧ ¬Span page cnt q

theorem used_index : p.Used (p.base + pgsize * i) ↔ i < p.pages ∧ p.usedMap.bit i = true := by
  constructor
  · rintro ⟨j, lt, e, bit⟩
    obtain rfl : i = j := Nat.eq_of_mul_eq_mul_left (by decide : 0 < pgsize) (Nat.add_left_cancel e)
    exact ⟨lt, bit⟩
  · rintro ⟨lt, bit⟩
    exact ⟨i, lt, rfl, bit⟩

theorem span_index {base j : Nat} :
    Span (base + pgsize * i) cnt (base + pgsize * j) ↔ i ≤ j ∧ j < i + cnt := by
  constructor
  · rintro ⟨k, lt, e⟩
    have : j = i + k := Nat.eq_of_mul_eq_mul_left (by decide : 0 < pgsize) (by
      rw [Nat.mul_add]
      omega)
    omega
  · rintro ⟨lo, hi⟩
    refine ⟨j - i, by omega, ?_⟩
    rw [Nat.add_assoc, ← Nat.mul_add, Nat.add_sub_cancel' lo]

theorem span_shift {base q : Nat} :
    Span (base + pgsize * i) cnt q ↔ ∃ j, i ≤ j ∧ j < i + cnt ∧ q = base + pgsize * j := by
  constructor
  · rintro ⟨k, lt, rfl⟩
    exact ⟨i + k, by omega, by omega, by rw [Nat.mul_add, Nat.add_assoc]⟩
  · rintro ⟨j, lo, hi, rfl⟩
    exact span_index.mpr ⟨lo, hi⟩

theorem used_filled {h : b.bitCnt = (m.pool user).pages}
    (fill : Filled (m.pool user).usedMap b i cnt v) (fits : i + cnt ≤ (m.pool user).pages)
    (q : Nat) : ((m.setMap user b h).pool user).Used q ↔
    (Span ((m.pool user).base + pgsize * i) cnt q ∧ v = true) ∨
    (¬Span ((m.pool user).base + pgsize * i) cnt q ∧ (m.pool user).Used q) := by
  rw [setMap_pool]
  constructor
  · rintro ⟨j, lt, rfl, bit⟩
    change b.bit j = true at bit
    rw [fill.bit] at bit
    split_ifs at bit with here
    · exact .inl ⟨span_index.mpr here, bit⟩
    · exact .inr ⟨fun span => here (span_index.mp span), used_index.mpr ⟨lt, bit⟩⟩
  rintro (⟨span, rfl⟩ | ⟨off, j, lt, rfl, bit⟩)
  · obtain ⟨j, lo, hi, rfl⟩ := span_shift.mp span
    refine ⟨j, Nat.lt_of_lt_of_le hi fits, rfl, ?_⟩
    rw [fill.bit, if_pos ⟨lo, hi⟩]
  · refine ⟨j, lt, rfl, ?_⟩
    rw [fill.bit, if_neg fun here => off (span_index.mpr here), bit]

theorem scanAndFlip_of (size : b.bitCnt = (m.pool user).pages)
    (scan : bitmapScanAndFlip (m.pool user).usedMap 0 cnt false = some (i, b)) :
    m.scanAndFlip user cnt = some (i, m.setMap user b size) := by
  unfold Mem.scanAndFlip
  split
  · simp_all
  · simp_all

theorem setMultiple_of (size : b.bitCnt = (m.pool user).pages)
    (set : bitmapSetMultiple (m.pool user).usedMap i cnt v = some b) :
    m.setMultiple user i cnt v = some ((), m.setMap user b size) := by
  unfold Mem.setMultiple
  split
  · simp_all
  · simp_all

theorem run_pallocGetMultiple {flags : Flags} (pos : 0 < cnt)
    (size : b.bitCnt = (m.pool flags.user).pages)
    (scan : bitmapScanAndFlip (m.pool flags.user).usedMap 0 cnt false = some (i, b)) :
    (pallocGetMultiple flags cnt).run m = if i ≠ bitmapError then
        (.ok (some ((m.pool flags.user).base + pgsize * i)),
          if flags.zero then (m.setMap flags.user b size).store
            ((m.pool flags.user).base + pgsize * i) (replicate (pgsize * cnt) 0)
          else m.setMap flags.user b size)
      else (if flags.assert then .error .panic else .ok none, m.setMap flags.user b size) := by
  have base : ((m.setMap flags.user b size).pool flags.user).base = (m.pool flags.user).base := by
    rw [setMap_pool]
  rw [pallocGetMultiple, if_neg (Nat.ne_of_gt pos),
    run_bind_ok (run_update (scanAndFlip_of size scan)), run_bind_ok (Exec.run_state _), base]
  split_ifs <;> simp_all [run_bind_ok (Exec.run_modify _ _)]

theorem pallocGetMultiple_cases (flags : Flags) (pos : 0 < cnt) (m : Mem) :
    (∃ page m', Taken m m' flags.user page cnt ∧ (pallocGetMultiple flags cnt).run m = (.ok (some page),
      if flags.zero then m'.store page (replicate (pgsize * cnt) 0) else m')) ∨
    ((∀ page, (∀ q, Span page cnt q → (m.pool flags.user).Has q) →
        ∃ q, Span page cnt q ∧ (m.pool flags.user).Used q) ∧
      (pallocGetMultiple flags cnt).run m =
        (if flags.assert then .error .panic else .ok none, m)) := by
  rcases scanAndFlip_cases (m.pool flags.user).usedMap cnt with
    ⟨i, b, run, -, fill, ok, scan⟩ | ⟨none, scan⟩
  · have size : b.bitCnt = (m.pool flags.user).pages := fill.bitCnt.trans (m.pool flags.user).size
    have fits : i + cnt ≤ (m.pool flags.user).pages := by
      rw [← (m.pool flags.user).size]
      exact run.1
    refine .inl ⟨(m.pool flags.user).base + pgsize * i, m.setMap flags.user b size,
      ⟨⟨b, size, rfl⟩, fun q span => ?_, fun q span used => ?_, fun q => ?_⟩, ?_⟩
    · obtain ⟨j, lo, hi, rfl⟩ := span_shift.mp span
      exact ⟨j, by omega, rfl⟩
    · obtain ⟨j, lo, hi, rfl⟩ := span_shift.mp span
      rw [used_index, run.2 j lo hi] at used
      cases used.2
    · rw [used_filled fill fits]
      by_cases here : Span ((m.pool flags.user).base + pgsize * i) cnt q <;> simp [here]
    · rw [run_pallocGetMultiple pos size scan, if_pos ok]
  · refine .inr ⟨fun page has => ?_, ?_⟩
    · by_contra free
      push Not at free
      obtain ⟨i, lt, e⟩ := has page ⟨0, pos, rfl⟩
      refine none i ⟨?_, fun j lo hi => Bool.eq_false_iff.mpr fun bit => ?_⟩
      · obtain ⟨j, lt, e'⟩ := has (page + pgsize * (cnt - 1)) ⟨cnt - 1, by omega, rfl⟩
        have last : j = i + (cnt - 1) := Nat.eq_of_mul_eq_mul_left (by decide : 0 < pgsize) (by
          rw [Nat.mul_add]
          omega)
        rw [(m.pool flags.user).size]
        omega
      have span : Span page cnt ((m.pool flags.user).base + pgsize * j) :=
        e ▸ span_index.mpr ⟨lo, hi⟩
      obtain ⟨j', lt', e'⟩ := has _ span
      obtain rfl : j = j' :=
        Nat.eq_of_mul_eq_mul_left (by decide : 0 < pgsize) (Nat.add_left_cancel e')
      exact free _ span (used_index.mpr ⟨lt', bit⟩)
    · rw [run_pallocGetMultiple pos (m.pool flags.user).size scan, if_neg (not_not_intro rfl)]
      cases flags.user <;> rfl

theorem pageFromPool_iff (aligned : page % pgsize = 0) : pageFromPool p page ↔ p.Has page := by
  have base := p.aligned
  simp only [pageFromPool, Pool.Has, p.size, pgsize, pgbits] at *
  constructor
  · rintro ⟨lo, hi⟩
    exact ⟨page / 2 ^ 12 - p.base / 2 ^ 12, by omega, by omega⟩
  · rintro ⟨i, lt, rfl⟩
    omega

theorem Pool.Has.aligned (h : p.Has page) : page % pgsize = 0 := by
  have base := p.aligned
  obtain ⟨i, -, rfl⟩ := h
  rw [Nat.add_mul_mod_self_left, base]

theorem Pool.Used.has (h : p.Used page) : p.Has page := by
  obtain ⟨i, lt, e, -⟩ := h
  exact ⟨i, lt, e⟩

theorem Mem.pool_unique (m : Mem) (h : (m.pool user).Has page) : ¬(m.pool !user).Has page := by
  have apart := m.apart
  rintro ⟨j, lt', e'⟩
  obtain ⟨i, lt, e⟩ := h
  have bound : ∀ {k n : Nat}, k < n → pgsize * k + pgsize ≤ pgsize * n := fun {k n} lt => by
    rw [← Nat.mul_succ]
    exact Nat.mul_le_mul_left _ lt
  have := bound lt
  have := bound lt'
  have : 0 < pgsize := by decide
  cases user <;> simp only [Mem.pool, Bool.not_false, Bool.not_true] at * <;> omega

theorem pallocFreeMultiple_spec (pos : 0 < cnt)
    (used : ∀ q, Span page cnt q → (m.pool user).Used q) :
    ∃ m', Freed m m' user page cnt ∧ (pallocFreeMultiple (some page) cnt).run m =
      (.ok (), m'.store page (replicate (pgsize * cnt) 0xcc)) := by
  obtain ⟨i, lt, rfl, -⟩ := used page ⟨0, pos, rfl⟩
  have all : ∀ j, i ≤ j → j < i + cnt → j < (m.pool user).pages ∧ (m.pool user).usedMap.bit j = true :=
    fun j lo hi => used_index.mp (used _ (span_index.mpr ⟨lo, hi⟩))
  have fits : i + cnt ≤ (m.pool user).pages := by
    have := (all (i + (cnt - 1)) (by omega) (by omega)).1
    omega
  have room : i + cnt ≤ (m.pool user).usedMap.bitCnt := by
    rw [(m.pool user).size]
    exact fits
  obtain ⟨b, set, size, bits⟩ := bitmapSetMultiple_spec (m.pool user).usedMap i cnt false room
  have whole := bitmapAll_eq_true (m.pool user).usedMap i cnt room fun j lo hi => (all j lo hi).2
  have size' : b.bitCnt = (m.pool user).pages := size.trans (m.pool user).size
  refine ⟨m.setMap user b size', ⟨⟨b, size', rfl⟩, fun q => ?_⟩, ?_⟩
  · rw [used_filled ⟨size, bits⟩ fits]
    simp [and_comm]
  have index : ((m.pool user).base + pgsize * i) / pgsize - (m.pool user).base / pgsize = i := by
    rw [Nat.add_mul_div_left _ _ (by decide : 0 < pgsize), Nat.add_sub_cancel_left]
  have release : (releasePages user ((m.pool user).base + pgsize * i) cnt).run m = (.ok (),
      (m.setMap user b size').store ((m.pool user).base + pgsize * i)
        (replicate (pgsize * cnt) 0xcc)) := by
    have set' : bitmapSetMultiple ((m.store ((m.pool user).base + pgsize * i)
        (replicate (pgsize * cnt) 0xcc)).pool user).usedMap i cnt false = some b := by
      rw [store_pool, set]
    rw [releasePages, run_bind_ok (Exec.run_modify _ _), run_bind_ok (Exec.run_state _)]
    simp only [store_pool, index, whole]
    rw [run_bind_ok (run_demand _ _), run_bind_ok (run_assert rfl _),
      run_update (setMultiple_of (by rw [store_pool]; exact size') set')]
    cases user <;> rfl
  have has : (m.pool user).Has ((m.pool user).base + pgsize * i) := ⟨i, lt, rfl⟩
  have other := m.pool_unique has
  rw [pallocFreeMultiple, run_bind_ok (run_assert has.aligned _),
    if_neg (Nat.ne_of_gt pos), run_bind_ok (Exec.run_state _)]
  cases user with
  | false =>
    have here : pageFromPool m.kernelPool _ := (pageFromPool_iff has.aligned).mpr has
    rw [if_pos here, release]
  | true =>
    have here : pageFromPool m.userPool _ := (pageFromPool_iff has.aligned).mpr has
    have off : ¬pageFromPool m.kernelPool _ := fun k => other ((pageFromPool_iff has.aligned).mp k)
    rw [if_neg off, if_pos here, release]

theorem Taken.used_iff (h : Taken m m' user page cnt) (u : Bool) (q : Nat) :
    (m'.pool u).Used q ↔ (u = user ∧ Span page cnt q) ∨ (m.pool u).Used q := by
  by_cases here : u = user
  · subst here
    simp [h.used q]
  · obtain ⟨b, size, rfl⟩ := h.eq
    rw [Bool.eq_not_of_ne here, setMap_other]
    simp

theorem Freed.used_iff (h : Freed m m' user page cnt) (u : Bool) (q : Nat) :
    (m'.pool u).Used q ↔ (m.pool u).Used q ∧ ¬(u = user ∧ Span page cnt q) := by
  by_cases here : u = user
  · subst here
    simp [h.used q]
  · obtain ⟨b, size, rfl⟩ := h.eq
    rw [Bool.eq_not_of_ne here, setMap_other]
    simp

theorem setMap_has {h : b.bitCnt = (m.pool user).pages} (u : Bool) (q : Nat) :
    ((m.setMap user b h).pool u).Has q ↔ (m.pool u).Has q := by
  cases user <;> cases u <;> rfl

theorem Taken.has_iff (h : Taken m m' user page cnt) (u : Bool) (q : Nat) :
    (m'.pool u).Has q ↔ (m.pool u).Has q := by
  obtain ⟨b, size, rfl⟩ := h.eq
  exact setMap_has u q

theorem Taken.free (h : Taken m m' user page cnt) {p : Bool → Pool}
    (freed : ∀ u q, (p u).Used q ↔ (m'.pool u).Used q ∧ ¬(u = user ∧ Span page cnt q)) (u : Bool)
    (q : Nat) : (p u).Used q ↔ (m.pool u).Used q := by
  rw [freed, h.used_iff]
  constructor
  · rintro ⟨here | old, off⟩
    · exact absurd here off
    · exact old
  · intro old
    refine ⟨.inr old, ?_⟩
    rintro ⟨rfl, span⟩
    exact h.fresh q span old

theorem pallocGetPage_cases (flags : Flags) (m : Mem) :
    (∃ page m', Taken m m' flags.user page 1 ∧ (pallocGetPage flags).run m = (.ok (some page),
      if flags.zero then m'.store page (replicate pgsize 0) else m')) ∨
    ((∀ q, (m.pool flags.user).Has q → (m.pool flags.user).Used q) ∧
      (pallocGetPage flags).run m = (if flags.assert then .error .panic else .ok none, m)) := by
  rcases pallocGetMultiple_cases flags Nat.one_pos m with ⟨page, m', taken, run⟩ | ⟨full, run⟩
  · exact .inl ⟨page, m', taken, by rw [pallocGetPage, run, Nat.mul_one]⟩
  · refine .inr ⟨fun q has => ?_, run⟩
    obtain ⟨q', span, used⟩ := full q fun q' span => span_one.mp span ▸ has
    exact span_one.mp span ▸ used

theorem pallocFreePage_spec (used : (m.pool user).Used page) : ∃ m', Freed m m' user page 1 ∧
    (pallocFreePage (some page)).run m = (.ok (), m'.store page (replicate pgsize 0xcc)) := by
  obtain ⟨m', freed, run⟩ := pallocFreeMultiple_spec Nat.one_pos
    (fun q span => span_one.mp span ▸ used : ∀ q, Span page 1 q → (m.pool user).Used q)
  exact ⟨m', freed, by rw [pallocFreePage, run, Nat.mul_one]⟩

section Hidden

def Mem.withRam (m : Mem) (ram : Nat → UInt8) : Mem := { m with ram := ram }

@[simp] theorem withRam_pool (m : Mem) (ram : Nat → UInt8) (user : Bool) :
    (m.withRam ram).pool user = m.pool user := by
  cases user <;> rfl

/-- The same memory, but for bytes outside of `A`. -/
def Hidden (A : Nat → Prop) (m m' : Mem) : Prop :=
  ∃ ram, m' = m.withRam ram ∧ ∀ a, A a → m.ram a = ram a

variable {A : Nat → Prop}

theorem store_respects (a : Nat) (bs : List UInt8) :
    Exec.Respects (Hidden A) (Exec.modify fun m => m.store a bs : Alloc Unit) := by
  refine .modify ?_
  rintro m m' ⟨ram, rfl, same⟩
  refine ⟨splice ram a bs, rfl, fun x visible => ?_⟩
  simp only [Mem.store, splice]
  split_ifs
  · rfl
  · exact same x visible

theorem assert_respects {R : σ → σ → Prop} (p : Prop) [Decidable p] :
    Exec.Respects R (assert p : Exec Stop σ Unit) := by
  unfold assert
  split_ifs
  · exact .pure _
  · exact .stop _

theorem demand_respects {R : σ → σ → Prop} (x : Option α) :
    Exec.Respects R (demand x : Exec Stop σ α) := by
  cases x
  · exact .stop _
  · exact .pure _

theorem setMap_withRam (ram : Nat → UInt8) (h : b.bitCnt = (m.pool user).pages)
    (h' : b.bitCnt = ((m.withRam ram).pool user).pages) :
    (m.withRam ram).setMap user b h' = (m.setMap user b h).withRam ram := by
  cases user <;> rfl

theorem scanAndFlip_none (scan : bitmapScanAndFlip (m.pool user).usedMap 0 cnt false = none) :
    m.scanAndFlip user cnt = none := by
  unfold Mem.scanAndFlip
  split
  · rfl
  · simp_all

theorem setMultiple_none (set : bitmapSetMultiple (m.pool user).usedMap i cnt v = none) :
    m.setMultiple user i cnt v = none := by
  unfold Mem.setMultiple
  split
  · rfl
  · simp_all

theorem scanAndFlip_withRam (m : Mem) (ram : Nat → UInt8) (user : Bool) (cnt : Nat) :
    (m.withRam ram).scanAndFlip user cnt =
      (m.scanAndFlip user cnt).map fun p => (p.1, p.2.withRam ram) := by
  have pool := withRam_pool m ram user
  cases e : bitmapScanAndFlip (m.pool user).usedMap 0 cnt false with
  | none => rw [scanAndFlip_none (by rw [pool, e]), scanAndFlip_none e, Option.map_none]
  | some p =>
    have size : p.2.bitCnt = (m.pool user).pages :=
      (bitmapScanAndFlip_bitCnt e).trans (m.pool user).size
    rw [scanAndFlip_of (by rw [pool]; exact size) (by rw [pool, e]), scanAndFlip_of size e,
      Option.map_some, setMap_withRam ram size]

theorem setMultiple_withRam (m : Mem) (ram : Nat → UInt8) (user : Bool) (i cnt : Nat) (v : Bool) :
    (m.withRam ram).setMultiple user i cnt v =
      (m.setMultiple user i cnt v).map fun p => (p.1, p.2.withRam ram) := by
  have pool := withRam_pool m ram user
  cases e : bitmapSetMultiple (m.pool user).usedMap i cnt v with
  | none => rw [setMultiple_none (by rw [pool, e]), setMultiple_none e, Option.map_none]
  | some b =>
    have size : b.bitCnt = (m.pool user).pages :=
      (bitmapSetMultiple_bitCnt e).trans (m.pool user).size
    rw [setMultiple_of (by rw [pool]; exact size) (by rw [pool, e]), setMultiple_of size e,
      Option.map_some, setMap_withRam ram size]

theorem update_respects {f : Mem → Option (α × Mem)}
    (ram : ∀ m ram, f (m.withRam ram) = (f m).map fun p => (p.1, p.2.withRam ram)) :
    Exec.Respects (Hidden A) (update f) := by
  have kept : ∀ m p, f m = some p → p.2.ram = m.ram := by
    intro m p e
    have self := ram m m.ram
    rw [e, Option.map_some] at self
    have := e.symm.trans self
    exact congrArg (fun p => p.2.ram) (Option.some.inj this)
  rintro m m' ⟨r, rfl, same⟩
  cases e : f m with
  | none =>
    simp only [update, ram, e, Option.map_none]
    exact ⟨trivial, r, rfl, same⟩
  | some p =>
    simp only [update, ram, e, Option.map_some]
    refine ⟨trivial, r, rfl, fun a visible => ?_⟩
    rw [kept m p e]
    exact same a visible

theorem pallocGetMultiple_respects (flags : Flags) (cnt : Nat) :
    Exec.Respects (Hidden A) (pallocGetMultiple flags cnt) := by
  by_cases none : cnt = 0
  · rw [pallocGetMultiple, if_pos none]
    exact .pure _
  rw [pallocGetMultiple, if_neg none]
  refine .bind (update_respects fun m ram => scanAndFlip_withRam m ram _ _) fun i => .read ?_ ?_
  · rintro m m' ⟨ram, rfl, -⟩
    rw [withRam_pool]
  intro m
  split_ifs
  · exact .bind (store_respects _ _) fun _ => .pure _
  · exact .pure _
  · exact .stop _
  · exact .pure _

theorem releasePages_respects (user : Bool) (pages cnt : Nat) :
    Exec.Respects (Hidden A) (releasePages user pages cnt) := by
  refine .bind (store_respects _ _) fun _ => .read ?_ fun m =>
    .bind (demand_respects _) fun _ => .bind (assert_respects _) fun _ =>
      update_respects fun m ram => setMultiple_withRam m ram _ _ _ _
  rintro m m' ⟨ram, rfl, -⟩
  simp only [withRam_pool]

theorem pallocFreeMultiple_respects (pages : Option Nat) (cnt : Nat) :
    Exec.Respects (Hidden A) (pallocFreeMultiple pages cnt) := by
  cases pages with
  | none => exact .pure _
  | some pages =>
    refine .bind (assert_respects _) fun _ => ?_
    by_cases none : cnt = 0
    · rw [if_pos none]
      exact .pure _
    rw [if_neg none]
    refine .read ?_ fun m => ?_
    · rintro m m' ⟨ram, rfl, -⟩
      rfl
    · split_ifs
      · exact releasePages_respects false pages cnt
      · exact releasePages_respects true pages cnt
      · exact .stop _

end Hidden

end Pintos.Palloc
