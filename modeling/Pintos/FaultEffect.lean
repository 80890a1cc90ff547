import Pintos.Process

/-! What a page fault of a program leaves behind. Either the directory has one page more,
with a frame of zeros that was free, or the process is gone and no page is in use that was
not in use before. A frame that could not be mapped is given back on the way. -/

namespace Pintos.FaultEffect
open Bitmap Stoppable Vaddr Palloc Pagedir PageFault Accounts Process

section Fewer

def Fewer (m m' : Mem) : Prop := usedPages m' ⊆ usedPages m

instance : IsPreorder Mem Fewer where
  refl _ := subset_rfl
  trans _ _ _ h h' := Set.Subset.trans h' h

theorem setLoop_reset {n i : Nat} {b b' : Bits} (h : setLoop false n i b = some b') {j : Nat}
    (bit : b'.bit j = true) : b.bit j = true := by
  induction n generalizing i b with
  | zero =>
    cases h
    exact bit
  | succ n ih =>
    obtain ⟨c, set, rest⟩ := Option.bind_eq_some_iff.mp h
    have kept := ih rest
    unfold bitmapSet at set
    rw [if_neg Bool.false_ne_true] at set
    split_ifs at set with lt
    cases set
    rw [bit_reset b lt, Bool.and_eq_true] at kept
    exact kept.2

theorem fewer_setMap {m : Mem} {user : Bool} {b : Bits} {size : b.bitCnt = (m.pool user).pages}
    (h : ∀ j, b.bit j = true → (m.pool user).usedMap.bit j = true) :
    Fewer m (m.setMap user b size) := by
  intro c used
  rw [mem_usedPages] at used ⊢
  by_cases here : c.1 = user
  · rw [here, setMap_pool] at used
    obtain ⟨i, lt, e, bit⟩ := used
    rw [here]
    exact ⟨i, lt, e, h i bit⟩
  · rwa [Bool.eq_not_of_ne here, setMap_other, ← Bool.eq_not_of_ne here] at used

theorem setMultiple_fewer {m m' : Mem} {user : Bool} {i cnt : Nat}
    (h : m.setMultiple user i cnt false = some ((), m')) : Fewer m m' := by
  unfold Mem.setMultiple at h
  split at h
  · cases h
  next map set =>
  cases h
  refine fewer_setMap fun j bit => ?_
  unfold bitmapSetMultiple at set
  split_ifs at set
  exact setLoop_reset set bit

theorem assert_fewer (p : Prop) [Decidable p] : Exec.Moves Fewer (assert p : Alloc Unit) := by
  rw [assert]
  split_ifs
  · exact .pure _
  · exact .stop _

theorem releasePages_fewer (user : Bool) (pages cnt : Nat) :
    Exec.Moves Fewer (releasePages user pages cnt) := by
  refine .bind (fun m => ?_) fun _ => .read fun m => .bind ?_ fun all =>
    .bind (assert_fewer _) fun _ m => ?_
  · rw [Exec.run_modify]
    change usedPages (m.store _ _) ⊆ _
    rw [usedPages_store]
  · cases bitmapAll _ _ _ with
    | none => exact .stop _
    | some all => exact .pure _
  · simp only [update]
    split
    · next set => exact setMultiple_fewer set
    · exact refl_of Fewer m

theorem pallocFreeMultiple_fewer (pages : Option Nat) (cnt : Nat) :
    Exec.Moves Fewer (pallocFreeMultiple pages cnt) := by
  cases pages with
  | none => exact .pure _
  | some pages =>
    refine .bind (assert_fewer _) fun _ => ?_
    split_ifs
    · exact .pure _
    · refine .read fun m => ?_
      split_ifs
      · exact releasePages_fewer _ _ _
      · exact releasePages_fewer _ _ _
      · exact .stop _

def SpaceFewer (s s' : Space) : Prop := Fewer s.toMem s'.toMem

instance : IsPreorder Space SpaceFewer where
  refl s := refl_of Fewer s.toMem
  trans _ _ _ h h' := trans_of Fewer h h'

end Fewer

variable {s s' : Machine} {pd : Directory} {va : BitVec 32} {f : Frame}

theorem processExit_fewer (s : Machine) : Fewer s.toMem (processExit.run s).2.toMem := by
  rw [processExit, Exec.run_bind_ok (Exec.run_state s)]
  cases s.pagedir with
  | none => exact refl_of Fewer s.toMem
  | some pd =>
    simp only
    rw [Exec.run_bind_ok (run_paging (rfl : (setPagedir none).run s.toSpace = _))]
    have freed : Exec.Moves SpaceFewer (pagedirDestroy (some pd)) :=
      pagedirDestroy_moves (fun page s => pallocFreeMultiple_fewer (some page) 1 s.toMem) _
    generalize pagedirDestroy (some pd) = destroy at freed ⊢
    exact freed _

/-- The process has ended: its directory is gone and no page was taken. When the pages of
the directory are in use as they should be, it has ended by `thread_exit` and they are free. -/
structure Ended (s : Machine) (stop : Stop) (s' : Machine) : Prop where
  pagedir : s'.pagedir = none
  fewer : Fewer s.toMem s'.toMem
  exits : ∀ base, Owns base s → stop = .exit ∧ usedPages s'.toMem = base

theorem threadExit_ended (s : Machine) :
    ∃ stop s', (threadExit : Cpu Frame).run s = (.error stop, s') ∧ Ended s stop s' := by
  have pagedir := (Demand.processExit_pagedir s).1
  have fewer := processExit_fewer s
  have stops : ∃ stop, (threadExit : Cpu Frame).run s = (.error stop, (processExit.run s).2) := by
    rcases run : processExit.run s with ⟨stop | u, s'⟩
    · exact ⟨stop, Exec.run_bind_error run _⟩
    · exact ⟨.exit, Exec.run_bind_ok run _⟩
  obtain ⟨stop, run⟩ := stops
  refine ⟨stop, _, run, pagedir, fewer, fun base owns => ?_⟩
  obtain ⟨t, used, exits⟩ := threadExit_owns owns
  have same := run.symm.trans (exits Frame)
  rw [Prod.mk.injEq, Except.error.injEq] at same
  rw [same.2]
  exact ⟨same.1, used⟩

theorem Ended.congr {m : Mem} {stop : Stop} (h : Ended { s with toMem := m } stop s')
    (same : usedPages m = usedPages s.toMem) : Ended s stop s' where
  pagedir := h.pagedir
  fewer _ used := same ▸ h.fewer used
  exits base owns := h.exits base (owns.congr same)

/-- The directory has one page more, with a frame of zeros that was free, and for the table
of the page at most one page was taken from the kernel pool. -/
structure Extended (s : Machine) (pd : Directory) (va : BitVec 32) (s' : Machine)
    (pd' : Directory) (kpage : Nat) : Prop where
  pagedir : s'.pagedir = some pd'
  absent : pd.pte va = none
  mapped : pd'.pte va = some ⟨kpage, true, false⟩
  others : ∀ va', va'.toNat / pgsize ≠ va.toNat / pgsize → pd'.pte va' = pd.pte va'
  frame : s.userPool.Has kpage
  free : ¬s.userPool.Used kpage
  zeros : ∀ i < pgsize, s'.ram (kpage + i) = 0
  user : ∀ q, s'.userPool.Used q ↔ q = kpage ∨ s.userPool.Used q
  kernel : (∀ q, s'.kernelPool.Used q ↔ s.kernelPool.Used q) ∨
    ∃ page, ¬s.kernelPool.Used page ∧ ∀ q, s'.kernelPool.Used q ↔ q = page ∨ s.kernelPool.Used q

theorem extended_of_brought (dir : s.pagedir = some pd) (h : Brought s va s') :
    ∃ pd' kpage, Extended s pd va s' pd' kpage := by
  cases h with
  | @intro pd0 pt m m' kpage dir0 absent taken table =>
    obtain rfl : pd0 = pd := Option.some.inj (dir0.symm.trans dir)
    have start : Span kpage 1 kpage := span_one.mpr rfl
    have user : ∀ q, m'.userPool.Used q ↔ q = kpage ∨ s.userPool.Used q := by
      intro q
      have frame := taken.used_iff true q
      rw [span_one] at frame
      cases table with
      | old => exact frame.trans (by simp [Mem.pool])
      | new e taken' =>
        have kept := taken'.used_iff true q
        rw [store_pool] at kept
        exact kept.trans (by simpa [Mem.pool] using frame)
    have kernel : ∀ q, (m.pool false).Used q ↔ s.kernelPool.Used q := fun q =>
      (taken.used_iff false q).trans (by simp [Mem.pool])
    refine ⟨_, kpage, rfl, absent, ?_, fun va' page => ?_, taken.has _ start,
      taken.fresh _ start, fun i lt => table_zero table ?_, user, ?_⟩
    · rw [pte_map table, if_pos (pgRoundDown_page va).symm]
    · rw [pte_map table, pgRoundDown_page]
      exact if_neg page
    · change ByteStore.splice m.ram kpage (List.replicate pgsize 0) (kpage + i) = 0
      rw [zeros_store, if_pos ⟨Nat.le_add_right _ _, Nat.add_lt_add_left lt _⟩]
    cases table with
    | old => exact .inl kernel
    | @new page m1 e taken' =>
      have fresh := taken'.fresh page (span_one.mpr rfl)
      rw [store_pool, kernel] at fresh
      refine .inr ⟨page, fresh, fun q => ?_⟩
      have used := taken'.used_iff false q
      rw [span_one, store_pool, kernel] at used
      exact used.trans (by simp)

/-- There is memory for the page and for its table. -/
def Supplied (s : Machine) (pd : Directory) (va : BitVec 32) : Prop :=
  (∃ q, s.userPool.Has q ∧ ¬s.userPool.Used q) ∧
    (pd.pdes (pdNo va).toNat ≠ none ∨ ∃ q, s.kernelPool.Has q ∧ ¬s.kernelPool.Used q)

theorem supplied_of_brought (dir : s.pagedir = some pd) (h : Brought s va s') :
    Supplied s pd va := by
  cases h with
  | @intro pd0 pt m m' kpage dir0 absent taken table =>
    obtain rfl : pd0 = pd := Option.some.inj (dir0.symm.trans dir)
    have start : Span kpage 1 kpage := span_one.mpr rfl
    refine ⟨⟨kpage, taken.has _ start, taken.fresh _ start⟩, ?_⟩
    cases table with
    | old e =>
      rw [pdNo_pgRoundDown] at e
      exact .inl fun missing => by cases e.symm.trans missing
    | @new page m1 e taken' =>
      have has := taken'.has page (span_one.mpr rfl)
      have fresh := taken'.fresh page (span_one.mpr rfl)
      obtain ⟨b, size, rfl⟩ := taken.eq
      exact .inr ⟨page, has, fresh⟩

theorem not_supplied_of_short (h : Short s pd va) : ¬Supplied s pd va := by
  rintro ⟨⟨q, has, free⟩, table⟩
  rcases h with full | ⟨missing, full⟩
  · exact free (full q has)
  · rcases table with there | ⟨q, has, free⟩
    · exact there missing
    · exact free (full q has)

def Handled (s : Machine) (pd : Directory) (f : Frame) (va : BitVec 32) : Prop :=
  isUserVaddr va = true ∧ f.errorCode &&& pfP = 0 ∧ Supplied s pd va

theorem kill_user (segment : f.cs = selUcseg) : (kill f : Cpu Frame) = threadExit := by
  rw [kill, if_pos segment]

/-- A fault of a program extends its directory by the page of the address, if the address
is one of the user, the page is not there and memory is left; in every other case the
process ends, and neither a page nor a mapping is left of the attempt. -/
theorem page_fault_all_or_nothing (dir : s.pagedir = some pd) (mode : f.errorCode &&& pfU ≠ 0)
    (segment : f.cs = selUcseg)
    (agrees : isUserVaddr va = true → (f.errorCode &&& pfP = 0 ↔ pd.pte va = none)) :
    (Handled s pd f va ∧ ∃ s' pd' kpage, (pageFault f va).run s = (.ok f, s') ∧
      Extended s pd va s' pd' kpage) ∨
    (¬Handled s pd f va ∧ ∃ stop s', (pageFault f va).run s = (.error stop, s') ∧
      Ended s stop s') := by
  have ends := threadExit_ended s
  rw [← kill_user segment] at ends
  unfold pageFault
  rw [if_neg fun kernel => kernel.1 mode]
  by_cases addr : isUserVaddr va = true
  · rw [if_neg (by simp [addr])]
    by_cases notPresent : f.errorCode &&& pfP = 0
    · rw [if_neg (not_not_intro notPresent)]
      rcases bringIn_absent addr dir ((agrees addr).mp notPresent) f with
        ⟨s', brought, run⟩ | ⟨m, same, short, run⟩
      · obtain ⟨pd', kpage, extended⟩ := extended_of_brought dir brought
        exact .inl ⟨⟨addr, notPresent, supplied_of_brought dir brought⟩, s', pd', kpage, run,
          extended⟩
      · refine .inr ⟨fun handled => not_supplied_of_short short handled.2.2, ?_⟩
        have used : usedPages m = usedPages s.toMem := Set.ext fun c => same c.1 c.2
        obtain ⟨stop, s', exits, ended⟩ := threadExit_ended { s with toMem := m }
        rw [run, kill_user segment]
        exact ⟨stop, s', exits, ended.congr used⟩
    · rw [if_pos notPresent]
      exact .inr ⟨fun handled => notPresent handled.2.1, ends⟩
  · rw [if_pos (Bool.eq_false_iff.mpr addr)]
    exact .inr ⟨fun handled => addr handled.1, ends⟩

def storeFault : Frame := ⟨errorCode false true true, 0x08048010, 0, selUcseg⟩

theorem page_fault_all_or_nothing_bare :
    ∃ s' pd' kpage, (pageFault storeFault 0x0804a000#32).run bare = (.ok storeFault, s') ∧
      Extended bare ⟨0xc0100000, fun _ => none⟩ 0x0804a000#32 s' pd' kpage := by
  have frame : bare.userPool.Has 0xc0102000 ∧ ¬bare.userPool.Used 0xc0102000 := by
    refine ⟨⟨0, by decide, rfl⟩, fun used => ?_⟩
    have bit := (used_index (p := bare.userPool) (i := 0)).mp used
    exact absurd bit.2 (by decide)
  have table : bare.kernelPool.Has 0xc0101000 ∧ ¬bare.kernelPool.Used 0xc0101000 := by
    refine ⟨⟨1, by decide, rfl⟩, fun used => ?_⟩
    have bit := (used_index (p := bare.kernelPool) (i := 1)).mp used
    exact absurd bit.2 (by decide)
  have handled : Handled bare ⟨0xc0100000, fun _ => none⟩ storeFault 0x0804a000#32 :=
    ⟨by decide, by decide, ⟨_, frame⟩, .inr ⟨_, table⟩⟩
  rcases page_fault_all_or_nothing (s := bare) (f := storeFault) rfl (by decide) rfl
    (fun _ => ⟨fun _ => rfl, fun _ => handled.2.1⟩) with ⟨-, extended⟩ | ⟨unhandled, -⟩
  · exact extended
  · exact absurd handled unhandled

end Pintos.FaultEffect
