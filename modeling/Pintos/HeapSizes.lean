import Pintos.HeapRuns

/-! Sizes of heap blocks. A block of its own has the page count
`DIV_ROUND_UP (size + sizeof (struct arena), PGSIZE)`, computed in 32 bits: the sum wraps for the
largest sizes, and for the last eleven of them one page is enough. Up to there a request is met
in full or refused, whatever its size. -/

namespace Pintos.HeapSizes
open ByteStore Links Stoppable Vaddr Palloc Accounts Heap HeapLayout HeapSteps HeapCalls HeapBook
open HeapRuns Transition

variable {descs : Nat} {kind : Nat → Option Kind} {cnt : Nat → Nat} {free : Desc → List Nat}
  {s : Arenas} {live : Ledger} {size : BitVec 32}

/-- The largest size for which the page count is not too small. -/
def maxSize : Nat := 2 ^ 32 - 1 - 11

theorem pool_pages (m : Mem) : (m.pool false).pages ≤ 2 ^ 18 := by
  have apart := m.apart
  have room := m.room
  have fits := m.fits
  have above := m.kernelPool.above
  have base : physBase.toNat = 3221225472 := rfl
  simp only [Mem.pool, pgsize, pgbits] at *
  omega

theorem pallocGetMultiple_refused {cnt : Nat} (many : 2 ^ 18 < cnt) (m : Mem) :
    (pallocGetMultiple {} cnt).run m = (.ok none, m) := by
  rcases pallocGetMultiple_cases {} (show 0 < cnt by omega) m with ⟨page, m', taken, -⟩ | ⟨-, run⟩
  · obtain ⟨i, lt, first⟩ := taken.has page ⟨0, by omega, by simp⟩
    obtain ⟨j, lt', last⟩ := taken.has (page + pgsize * (cnt - 1)) ⟨cnt - 1, by omega, rfl⟩
    have bound : j < 2 ^ 18 := Nat.lt_of_lt_of_le lt' (pool_pages m)
    simp only [pgsize, pgbits] at first last
    omega
  · exact run

theorem bigBlock_refused (large : 2 ^ 31 ≤ size.toNat) (le : size.toNat ≤ maxSize) (s : Arenas) :
    (bigBlock size).run s = (.ok none, s) := by
  have count : ((size + BitVec.ofNat 32 sizeofArena + BitVec.ofNat 32 pgsize - 1) /
      BitVec.ofNat 32 pgsize).toNat = (size.toNat + 4107) % 2 ^ 32 / 4096 := by
    have one : (1 : BitVec 32).toNat = 1 := rfl
    have page : 2 ^ 12 % 2 ^ 32 = 4096 := rfl
    simp only [BitVec.toNat_udiv, BitVec.toNat_sub, BitVec.toNat_add, BitVec.toNat_ofNat, one,
      sizeofArena, pgsize, pgbits, page]
    omega
  have none : (pallocGetMultiple {} ((size.toNat + 4107) % 2 ^ 32 / 4096)).run s.toMem =
      (.ok none, s.toMem) := by
    by_cases wraps : 2 ^ 32 ≤ size.toNat + 4107
    · have zero : (size.toNat + 4107) % 2 ^ 32 / 4096 = 0 := by
        rw [maxSize] at le
        omega
      rw [zero, pallocGetMultiple, if_pos rfl]
      rfl
    · exact pallocGetMultiple_refused (by omega) s.toMem
  rw [bigBlock]
  simp only [count]
  rw [Exec.run_bind_ok (run_palloc none)]
  rfl

theorem malloc_refused (h : Book descs s live kind cnt free) (large : 2 ^ 31 ≤ size.toNat)
    (le : size.toNat ≤ maxSize) : (malloc size).run s = (.ok none, s) := by
  have nonzero : size ≠ 0 := by
    rintro rfl
    exact absurd large (by decide)
  rcases find_size descs size.toNat with ⟨d, hd, fits, -⟩ | ⟨-, found⟩
  · have small := (table_sizes hd).2.1
    omega
  · rw [malloc, if_neg nonzero, Exec.run_bind_ok (Exec.run_state s), h.held.inUse]
    simp only [found]
    exact bigBlock_refused large le s

def Sized (c : Call) (live : Ledger) : Prop :=
  c.size ≤ maxSize ∧ ∀ b, c.block = some b → live b ≠ none

theorem perform_refused {c : Call} (h : Book descs s live kind cnt free) (large : 2 ^ 31 ≤ c.size)
    (le : c.size ≤ maxSize) : c.released none = none ∧ c.perform.run s = (.ok none, s) := by
  cases c with
  | malloc size => exact ⟨rfl, malloc_refused h large le⟩
  | calloc a b =>
    have product : (a * b).toNat = a.toNat * b.toNat := by
      rw [BitVec.toNat_mul]
      exact Nat.mod_eq_of_lt (Nat.lt_of_le_of_lt le (by decide))
    have refused : (Heap.malloc (a * b)).run s = (.ok none, s) :=
      malloc_refused h (by rw [product]; exact large) (by rw [product]; exact le)
    refine ⟨rfl, ?_⟩
    rw [Call.perform, Heap.calloc]
    by_cases small : a * b < a ∨ a * b < b
    · simp only [if_pos small]
      rfl
    · simp only [if_neg small]
      rw [Exec.run_bind_ok refused]
      rfl
  | realloc block size =>
    have nonzero : size ≠ 0 := by
      rintro rfl
      exact absurd (show 2 ^ 31 ≤ (0 : BitVec 32).toNat from large) (by decide)
    have keeps : ¬(size = 0 ∨ (none : Option Nat) ≠ none) :=
      not_or.mpr ⟨nonzero, not_not_intro rfl⟩
    refine ⟨by rw [Call.released, if_neg keeps], ?_⟩
    rw [Call.perform, Heap.realloc, if_neg nonzero, Exec.run_bind_ok (malloc_refused h large le)]
    cases block <;> rfl
  | free block => exact absurd (show 2 ^ 31 ≤ 0 from large) (by decide)

theorem sized_outcome {w : World} {c : Call} (h : Book descs w.arenas w.live kind cnt free)
    (sized : Sized c w.live) : Returns descs w kind c := by
  by_cases small : c.size < 2 ^ 31
  · exact call_outcome h ⟨small, sized.2⟩
  · obtain ⟨keeps, run⟩ := perform_refused h (by omega) sized.1
    exact ⟨none, w.arenas, run, .idle h keeps⟩

/-- What can happen between two calls, and the calls of which `Sized` speaks. -/
def Allowed (descs : Nat) (w : World) : Action → Prop
  | .call c => Sized c w.live
  | action => action.Proper descs w

theorem sized_step {w w' : World} {action : Action} (h : Kempt descs w)
    (allowed : Allowed descs w action) (taken : step w action = some w') : Kempt descs w' := by
  cases action with
  | call c =>
    obtain ⟨kind, cnt, free, book⟩ := h
    exact (sized_outcome book allowed).kempt taken
  | write b ram => exact book_step h (show Action.Proper descs w (.write b ram) from allowed) taken
  | other m => exact book_step h (show Action.Proper descs w (.other m) from allowed) taken

theorem sized_runs {m : Mem} {w : World} (above : physBase.toNat ≤ descs)
    (below : descs + sizeofDesc * 10 ≤ m.kernelPool.base)
    (reach : Reachable (start descs m) step (fun w a => Allowed descs w a) w) : Kempt descs w :=
  reach.invariant (start_kempt above below).2 fun _ _ _ => sized_step

theorem sized_usable {w : World} {c : Call} (h : Book descs w.arenas w.live kind cnt free)
    (sized : Sized c w.live) : ∃ r s', c.perform.run w.arenas = (.ok r, s') ∧
      (∀ p, r = some p → ∃ u, Usable s' p u ∧ c.size ≤ u) ∧
      ∀ a b p, c = .calloc a b → r = some p → ∀ x < c.size, s'.ram (p + x) = 0 := by
  obtain ⟨r, s', run, kind', cnt', free', book, outcome⟩ := sized_outcome h sized
  refine ⟨r, s', run, fun p e => ?_, outcome.zero⟩
  subst e
  have entry : (w.after c (some p) s').live p =
      some ⟨c.size, usedPages s'.toMem \ usedPages w.arenas.toMem⟩ := by
    simp only [World.after, enter, Function.update_self]
  have sound : Sound (w.after c (some p) s') free' := sound_of_book book
  exact sound.usable p _ entry

def ample : Mem where
  kernelPool := ⟨⟨40, [0, 0], rfl, show 71 < 2 ^ 32 by decide⟩, 0xc0100000, 40, rfl,
    kernelStart_aligned, kernelStart_above⟩
  userPool := ⟨⟨1, [0], allFree_length, by decide⟩, 0xc0128000, 1, rfl, by decide, by decide⟩
  initRamPages := 0x129
  ram _ := 0xcc
  apart := by decide
  room := by decide
  fits := by decide

end Pintos.HeapSizes
