import Pintos.HeapOrder
import Mathlib.Algebra.Group.Nat.Defs

/-! `qsort`, `sort`, `bsearch` and `binary_search` of `lib/stdlib.c` on an array of `cnt`
elements of `size` bytes in memory. Indices and pointers are of 32 bits. -/

namespace Pintos.Stdlib

open HeapOrder Function

/-- A comparison with results as those of `strcmp`. -/
structure StrcmpStyle {α : Type} (compare : α → α → Int) : Prop where
  swap : ∀ a b, 0 < compare a b ↔ compare b a < 0
  trans : ∀ a b c, compare a b ≤ 0 → compare b c ≤ 0 → compare a c ≤ 0

/-- An object of `size` bytes. -/
abbrev Object (size : Nat) : Type := Fin size → UInt8

/-- The object at an address. -/
def object (ram : Nat → UInt8) (size p : Nat) : Object size := fun k => ram (p + k)

/-- `array + (idx - 1) * size`. -/
def place (array size idx : Nat) : Nat := (array + (idx + (2 ^ 32 - 1)) % 2 ^ 32 * size) % 2 ^ 32

def doSwap (ram : Nat → UInt8) (array aIdx bIdx size : Nat) : Nat → UInt8 :=
  let a := place array size aIdx
  let b := place array size bIdx
  (List.range size).foldl (fun ram i =>
    update (update ram (a + i) (ram (b + i))) (b + i) (ram (a + i))) ram

section Code

variable {Aux : Type} (array : Nat) {size : Nat}
  (compare : Object size → Object size → Aux → Int) (aux : Aux)

def doCompare (ram : Nat → UInt8) (aIdx bIdx : Nat) : Int :=
  compare (object ram size (place array size aIdx)) (object ram size (place array size bIdx)) aux

/-- `if (child <= cnt && do_compare (array, child, max, …) > 0) max = child`. -/
def larger (ram : Nat → UInt8) (cnt child max : Nat) : Nat :=
  if child ≤ cnt ∧ 0 < doCompare array compare aux ram child max then child else max

/-- The index of the largest element among `i` and its children. -/
def largest (ram : Nat → UInt8) (i cnt : Nat) : Nat :=
  let left := 2 * i % 2 ^ 32
  let right := (2 * i + 1) % 2 ^ 32
  larger array compare aux ram cnt right (larger array compare aux ram cnt left i)

def heapify : Nat → (Nat → UInt8) → Nat → Nat → Option (Nat → UInt8)
  | 0, _, _, _ => none
  | fuel + 1, ram, i, cnt =>
    let max := largest array compare aux ram i cnt
    if max = i then some ram else heapify fuel (doSwap ram array i max size) max cnt

/-- `for (i = …; i > 0; i--) heapify (array, i, cnt, …)`. -/
def buildHeap (fuel cnt : Nat) : Nat → (Nat → UInt8) → Option (Nat → UInt8)
  | 0, ram => some ram
  | i + 1, ram => (heapify array compare aux fuel ram (i + 1) cnt).bind (buildHeap fuel cnt i)

/-- `for (i = …; i > 1; i--)`, with the largest element of the heap put behind it. -/
def sortHeap (fuel : Nat) : Nat → (Nat → UInt8) → Option (Nat → UInt8)
  | 0, ram => some ram
  | i + 1, ram => if i = 0 then some ram else
    (heapify array compare aux fuel (doSwap ram array 1 (i + 1) size) 1 i).bind (sortHeap fuel i)

/-- `none` where an assertion fails or the fuel does not suffice. -/
def sort (fuel : Nat) (ram : Nat → UInt8) (cnt : Nat) : Option (Nat → UInt8) :=
  if array = 0 ∧ cnt ≠ 0 ∨ size = 0 then none
  else (buildHeap array compare aux fuel cnt (cnt / 2) ram).bind
    (sortHeap array compare aux fuel cnt)

def compareThunk {α : Type} (a b : α) (compare : α → α → Int) : Int := compare a b

def qsort (compare : Object size → Object size → Int) (fuel : Nat)
    (ram : Nat → UInt8) (cnt : Nat) : Option (Nat → UInt8) :=
  sort array compareThunk compare fuel ram cnt

end Code

/-- An array in memory. -/
structure Extent where
  array : Nat
  cnt : Nat
  size : Nat
  sized : 0 < size
  mapped : array ≠ 0 ∨ cnt = 0
  room : array + cnt * size < 2 ^ 32

variable {A : Extent} {ram ram' ram'' : Nat → UInt8} {n i m lo fuel : Nat}

/-- The address of an element, from 1 on. -/
def Extent.addr (A : Extent) (i : Nat) : Nat := place A.array A.size i

def Extent.table (A : Extent) (ram : Nat → UInt8) (i : Nat) : Object A.size :=
  object ram A.size (A.addr i)

theorem Extent.addr_eq (A : Extent) (hi : 1 ≤ i ∧ i ≤ A.cnt) :
    A.addr i = A.array + (i - 1) * A.size ∧ A.addr i + A.size ≤ A.array + A.cnt * A.size := by
  have room := A.room
  have last : (i - 1) * A.size + A.size ≤ A.cnt * A.size := by
    rw [← Nat.succ_mul]
    exact Nat.mul_le_mul_right _ (by omega)
  have few : A.cnt ≤ A.cnt * A.size := Nat.le_mul_of_pos_right _ A.sized
  have index : (i + (2 ^ 32 - 1)) % 2 ^ 32 = i - 1 := by omega
  rw [Extent.addr, place, index, Nat.mod_eq_of_lt (by omega)]
  exact ⟨rfl, by omega⟩

theorem Extent.apart (A : Extent) (hi : 1 ≤ i ∧ i ≤ A.cnt) (hm : 1 ≤ m ∧ m ≤ A.cnt)
    (ne : i ≠ m) : A.addr i + A.size ≤ A.addr m ∨ A.addr m + A.size ≤ A.addr i := by
  have gap : ∀ {j k}, j < k → j * A.size + A.size ≤ k * A.size := by
    intro j k lt
    rw [← Nat.succ_mul]
    exact Nat.mul_le_mul_right _ lt
  rw [(A.addr_eq hi).1, (A.addr_eq hm).1]
  rcases Nat.lt_or_gt_of_ne ne with lt | lt
  · have := gap (show i - 1 < m - 1 by omega)
    omega
  · have := gap (show m - 1 < i - 1 by omega)
    omega

theorem doSwap_eq (ram : Nat → UInt8) {array size a b : Nat} (ha : place array size i = a)
    (hb : place array size m = b) (apart : a + size ≤ b ∨ b + size ≤ a) (x : Nat) :
    doSwap ram array i m size x = if a ≤ x ∧ x < a + size then ram (b + (x - a))
      else if b ≤ x ∧ x < b + size then ram (a + (x - b)) else ram x := by
  -- after `n` rounds the first `n` bytes of each have been exchanged
  have rounds : ∀ n ≤ size, ∀ x, (List.range n).foldl (fun ram k =>
      update (update ram (a + k) (ram (b + k))) (b + k) (ram (a + k))) ram x =
        if a ≤ x ∧ x < a + n then ram (b + (x - a))
        else if b ≤ x ∧ x < b + n then ram (a + (x - b)) else ram x := by
    intro n
    induction n with
    | zero =>
      intro _ x
      rw [if_neg (by omega), if_neg (by omega)]
      rfl
    | succ n ih =>
      intro le x
      have before := ih (by omega)
      rw [List.range_succ, List.foldl_append]
      simp only [List.foldl_cons, List.foldl_nil, update_apply, before]
      grind
  rw [doSwap, ha, hb]
  exact rounds size (Nat.le_refl _) x

theorem doSwap_swapped (ram : Nat → UInt8) (hi : 1 ≤ i ∧ i ≤ A.cnt) (hm : 1 ≤ m ∧ m ≤ A.cnt)
    (ne : i ≠ m) : Swapped A.cnt (A.table ram) (A.table (doSwap ram A.array i m A.size)) i m := by
  have apart := A.apart hi hm ne
  have eq := doSwap_eq (a := A.addr i) (b := A.addr m) ram rfl rfl apart
  constructor
  · funext k
    simp only [Extent.table, object, eq]
    rw [if_pos (by omega), Nat.add_sub_cancel_left]
  · funext k
    simp only [Extent.table, object, eq]
    rw [if_neg (by omega), if_pos (by omega), Nat.add_sub_cancel_left]
  intro j pos bound off off'
  have left := A.apart ⟨pos, bound⟩ hi off
  have right := A.apart ⟨pos, bound⟩ hm off'
  funext k
  simp only [Extent.table, object, eq]
  rw [if_neg (by omega), if_neg (by omega)]

/-- The first `n` elements have been rearranged, and nothing else has changed. -/
structure Rearranged (A : Extent) (n : Nat) (ram ram' : Nat → UInt8) : Prop where
  perm : (elements (A.table ram') n).Perm (elements (A.table ram) n)
  rest : ∀ k, n < k → k ≤ A.cnt → A.table ram' k = A.table ram k
  outside : ∀ x, x < A.array ∨ A.array + A.cnt * A.size ≤ x → ram' x = ram x

namespace Rearranged

theorem refl : Rearranged A n ram ram := ⟨.refl _, fun _ _ _ => rfl, fun _ _ => rfl⟩

theorem trans (h : Rearranged A n ram ram') (h' : Rearranged A n ram' ram'') :
    Rearranged A n ram ram'' :=
  ⟨h'.perm.trans h.perm, fun k lt le => (h'.rest k lt le).trans (h.rest k lt le),
    fun x off => (h'.outside x off).trans (h.outside x off)⟩

theorem mono (h : Rearranged A n ram ram') (le : n ≤ m) (bound : m ≤ A.cnt) :
    Rearranged A m ram ram' := by
  refine ⟨?_, fun k lt => h.rest k (by omega), h.outside⟩
  have split : List.range' 1 m = List.range' 1 n ++ List.range' (1 + n) (m - n) := by
    rw [List.range'_append_1, Nat.add_sub_cancel' le]
  have same : (List.range' (1 + n) (m - n)).map (A.table ram') =
      (List.range' (1 + n) (m - n)).map (A.table ram) := by
    refine List.map_congr_left fun k mem => ?_
    rw [List.mem_range'_1] at mem
    exact h.rest k (by omega) (by omega)
  rw [elements, elements, split, List.map_append, List.map_append, same]
  exact h.perm.append_right _

theorem «exists» (h : Rearranged A n ram ram') (pos : 1 ≤ i) (le : i ≤ n) :
    ∃ j, 1 ≤ j ∧ j ≤ n ∧ A.table ram' i = A.table ram j := by
  have mem : A.table ram' i ∈ elements (A.table ram') n :=
    List.mem_map_of_mem (List.mem_range'_1.mpr ⟨pos, by omega⟩)
  obtain ⟨j, range, same⟩ := List.mem_map.mp (h.perm.mem_iff.mp mem)
  rw [List.mem_range'_1] at range
  exact ⟨j, range.1, by omega, same.symm⟩

end Rearranged

theorem doSwap_rearranged (ram : Nat → UInt8) (le : n ≤ A.cnt) (hi : 1 ≤ i ∧ i ≤ n)
    (hm : 1 ≤ m ∧ m ≤ n) (ne : i ≠ m) :
    Swapped n (A.table ram) (A.table (doSwap ram A.array i m A.size)) i m ∧
      Rearranged A n ram (doSwap ram A.array i m A.size) := by
  have hi' : 1 ≤ i ∧ i ≤ A.cnt := ⟨hi.1, hi.2.trans le⟩
  have hm' : 1 ≤ m ∧ m ≤ A.cnt := ⟨hm.1, hm.2.trans le⟩
  have swap := doSwap_swapped ram hi' hm' ne
  have part : Swapped n (A.table ram) (A.table (doSwap ram A.array i m A.size)) i m :=
    ⟨swap.left, swap.right, fun k pos bound => swap.other k pos (bound.trans le)⟩
  refine ⟨part, part.perm hi hm, ?_, ?_⟩
  · exact fun k lt bound => swap.other k (by omega) bound (by omega) (by omega)
  · intro x off
    have left := A.addr_eq hi'
    have right := A.addr_eq hm'
    have eq := doSwap_eq (a := A.addr i) (b := A.addr m) ram rfl rfl (A.apart hi' hm' ne)
    rw [eq, if_neg (by omega), if_neg (by omega)]

section Order

variable {Aux : Type} {aux : Aux} {compare : Object A.size → Object A.size → Aux → Int}

/-- The order of the elements. -/
def NotAfter {size : Nat} (compare : Object size → Object size → Aux → Int) (aux : Aux)
    (a b : Object size) : Prop := compare a b aux ≤ 0

theorem StrcmpStyle.refl {α : Type} {compare : α → α → Int} (ord : StrcmpStyle compare) (a : α) :
    compare a a ≤ 0 := by
  have := ord.swap a a
  omega

variable (ord : StrcmpStyle (compare · · aux))
include ord

theorem larger_spec (n : Nat) (ram : Nat → UInt8) (c m : Nat) :
    (larger A.array compare aux ram n c m = m ∨ larger A.array compare aux ram n c m = c ∧ c ≤ n) ∧
    ∀ k, k = m ∨ k = c ∧ c ≤ n → NotAfter compare aux (A.table ram k)
      (A.table ram (larger A.array compare aux ram n c m)) := by
  have self := fun k => ord.refl (A.table ram k)
  rw [larger]
  split_ifs with gt
  · refine ⟨.inr ⟨rfl, gt.1⟩, ?_⟩
    rintro k (rfl | ⟨rfl, -⟩)
    · exact Int.le_of_lt ((ord.swap _ _).mp gt.2)
    · exact self k
  · refine ⟨.inl rfl, ?_⟩
    rintro k (rfl | ⟨rfl, le⟩)
    · exact self k
    · exact Int.not_lt.mp fun more => gt ⟨le, more⟩

theorem largest_spec (ram : Nat → UInt8) (bound : n < 2 ^ 31) (pos : 1 ≤ i) (le : i ≤ n) :
    (largest A.array compare aux ram i n = i ∨
      largest A.array compare aux ram i n / 2 = i ∧ largest A.array compare aux ram i n ≤ n) ∧
    ∀ c, c = i ∨ c ≤ n ∧ c / 2 = i → NotAfter compare aux (A.table ram c)
      (A.table ram (largest A.array compare aux ram i n)) := by
  have left : 2 * i % 2 ^ 32 = 2 * i := by omega
  have right : (2 * i + 1) % 2 ^ 32 = 2 * i + 1 := by omega
  simp only [largest, left, right]
  obtain ⟨first, top⟩ := larger_spec ord n ram (2 * i) i
  generalize larger A.array compare aux ram n (2 * i) i = m at *
  obtain ⟨second, top'⟩ := larger_spec ord n ram (2 * i + 1) m
  generalize larger A.array compare aux ram n (2 * i + 1) m = m' at *
  refine ⟨by omega, fun c family => ?_⟩
  by_cases last : c = 2 * i + 1
  · exact top' c (by omega)
  · exact ord.trans _ _ _ (top c (by omega)) (top' m (.inl rfl))

variable (bound : A.cnt < 2 ^ 31)
include bound

theorem heapify_spec (fuel : Nat) (le : n ≤ A.cnt) (above : 1 ≤ lo ∧ lo ≤ i) (inside : i ≤ n)
    (enough : n < fuel + i) (hole : Open (NotAfter compare aux) (A.table ram) lo n i) :
    ∃ ram', heapify A.array compare aux fuel ram i n = some ram' ∧
      Heap (NotAfter compare aux) (A.table ram') lo n ∧ Rearranged A n ram ram' := by
  induction fuel generalizing ram i with
  | zero => omega
  | succ fuel ih =>
    obtain ⟨place, top⟩ := largest_spec ord ram (show n < 2 ^ 31 by omega) (by omega) inside
    rw [heapify]
    generalize largest A.array compare aux ram i n = m at *
    by_cases done : m = i
    · rw [done] at top
      rw [if_pos done]
      exact ⟨ram, rfl, hole.settle fun c le child => top c (.inr ⟨le, child⟩), .refl⟩
    obtain ⟨child, most⟩ := place.resolve_left done
    obtain ⟨swap, moved⟩ := doSwap_rearranged ram le (show 1 ≤ i ∧ i ≤ n by omega)
      (show 1 ≤ m ∧ m ≤ n by omega) (Ne.symm done)
    have sunk := hole.sink (by omega) above.2 child most (top i (.inl rfl))
      (fun c le child => top c (.inr ⟨le, child⟩)) swap
    obtain ⟨ram', run, heap, rest⟩ := ih (by omega) most (by omega) sunk
    rw [if_neg done]
    exact ⟨ram', run, heap, moved.trans rest⟩

variable (enough : A.cnt < fuel)
include enough

theorem buildHeap_spec (le : i ≤ A.cnt)
    (heap : Heap (NotAfter compare aux) (A.table ram) (i + 1) A.cnt) :
    ∃ ram', buildHeap A.array compare aux fuel A.cnt i ram = some ram' ∧
      Heap (NotAfter compare aux) (A.table ram') 1 A.cnt ∧ Rearranged A A.cnt ram ram' := by
  induction i generalizing ram with
  | zero => exact ⟨ram, rfl, heap, .refl⟩
  | succ i ih =>
    obtain ⟨ram1, run, heap1, moved⟩ := heapify_spec ord bound fuel (Nat.le_refl _)
      ⟨Nat.succ_pos i, Nat.le_refl _⟩ le (by omega) (heap.toOpen (Nat.succ_pos i))
    obtain ⟨ram2, build, heap2, moved'⟩ := ih (by omega) heap1
    refine ⟨ram2, ?_, heap2, moved.trans moved'⟩
    rw [buildHeap, run, Option.bind_some, build]

/-- Behind the heap, the elements are in order and not before those of the heap. -/
theorem sortHeap_spec (le : i ≤ A.cnt) (heap : Heap (NotAfter compare aux) (A.table ram) 1 i)
    (behind : ∀ j k, 1 ≤ j → j ≤ k → i < k → k ≤ A.cnt →
      NotAfter compare aux (A.table ram j) (A.table ram k)) :
    ∃ ram', sortHeap A.array compare aux fuel i ram = some ram' ∧
      (∀ j k, 1 ≤ j → j ≤ k → k ≤ A.cnt →
        NotAfter compare aux (A.table ram' j) (A.table ram' k)) ∧
      Rearranged A A.cnt ram ram' := by
  induction i generalizing ram with
  | zero => exact ⟨ram, rfl, fun j k pos before => behind j k pos before (by omega), .refl⟩
  | succ i ih =>
    by_cases one : i = 0
    · refine ⟨ram, by rw [sortHeap, if_pos one], fun j k pos before le' => ?_, .refl⟩
      by_cases same : j = k
      · rw [same]
        exact ord.refl _
      · exact behind j k pos before (by omega) le'
    obtain ⟨swap, moved⟩ := doSwap_rearranged ram le (show 1 ≤ 1 ∧ 1 ≤ i + 1 by omega)
      (show 1 ≤ i + 1 ∧ i + 1 ≤ i + 1 by omega) (by omega)
    obtain ⟨ram1, run, heap1, rest⟩ := heapify_spec ord bound fuel (by omega)
      ⟨Nat.le_refl 1, Nat.le_refl 1⟩ (by omega) (by omega) (heap.dropRoot swap)
    have both := moved.trans (rest.mono (Nat.le_succ i) le)
    have last : A.table ram1 (i + 1) = A.table ram 1 :=
      (rest.rest _ (Nat.lt_succ_self i) le).trans swap.right
    have behind1 : ∀ j k, 1 ≤ j → j ≤ k → i < k → k ≤ A.cnt →
        NotAfter compare aux (A.table ram1 j) (A.table ram1 k) := by
      intro j k pos before past le'
      by_cases here : j ≤ i + 1
      · obtain ⟨x, first, most, same⟩ := both.exists pos here
        rw [same]
        by_cases this : k = i + 1
        · rw [this, last]
          exact heap.root ord.refl ord.trans x first most
        · rw [both.rest k (by omega) le']
          exact behind x k first (by omega) (by omega) le'
      · rw [both.rest j (by omega) (by omega), both.rest k (by omega) le']
        exact behind j k pos before (by omega) le'
    obtain ⟨ram2, sorted, order, rest'⟩ := ih (by omega) heap1 behind1
    refine ⟨ram2, ?_, order, (both.mono le (Nat.le_refl _)).trans rest'⟩
    rw [sortHeap, if_neg one, run, Option.bind_some, sorted]

end Order

/-- The array has been sorted. -/
structure Sorted (A : Extent) (compare : Object A.size → Object A.size → Int)
    (ram ram' : Nat → UInt8) : Prop where
  perm : (elements (A.table ram') A.cnt).Perm (elements (A.table ram) A.cnt)
  order : (elements (A.table ram') A.cnt).Pairwise fun a b => compare a b ≤ 0
  outside : ∀ x, x < A.array ∨ A.array + A.cnt * A.size ≤ x → ram' x = ram x

theorem sort_spec {Aux : Type} {compare : Object A.size → Object A.size → Aux → Int} {aux : Aux}
    (ord : StrcmpStyle (compare · · aux)) (bound : A.cnt < 2 ^ 31) (enough : A.cnt < fuel)
    (ram : Nat → UInt8) : ∃ ram', sort A.array compare aux fuel ram A.cnt = some ram' ∧
      Sorted A (compare · · aux) ram ram' := by
  have mapped := A.mapped
  have sized := A.sized
  have leaves : Heap (NotAfter compare aux) (A.table ram) (A.cnt / 2 + 1) A.cnt :=
    fun c le above => absurd above (by omega)
  obtain ⟨ram1, build, heap, moved⟩ :=
    buildHeap_spec ord bound enough (Nat.div_le_self A.cnt 2) leaves
  obtain ⟨ram2, run, order, moved'⟩ := sortHeap_spec ord bound enough (Nat.le_refl _) heap
    fun j k _ _ lt le => absurd le (by omega)
  have all := moved.trans moved'
  refine ⟨ram2, ?_, all.perm, ?_, all.outside⟩
  · rw [sort, if_neg (by omega), build, Option.bind_some, run]
  · exact pairwise_elements.mpr fun j k pos lt => order j k pos (Nat.le_of_lt lt)

/-- Elements of one byte, in the order of their values. -/
def compareBytes (a b : Object 1) : Int := ((a 0).toNat : Int) - (b 0).toNat

theorem compareBytes_style : StrcmpStyle compareBytes :=
  ⟨fun a b => by simp only [compareBytes]; omega, fun a b c => by simp only [compareBytes]; omega⟩

abbrev three : Extent := ⟨8, 3, 1, by decide, by decide, by decide⟩

section Huge

/-! In an array of `2 ^ 31` elements `2 * i` wraps around: 0 is taken for a child of the last
element, and 1 for a child of that. A small element sinks in a circle. -/

def huge : Extent := ⟨4096, 2 ^ 31, 1, by decide, by decide, by decide⟩

/-- Element `p` is zero, all other bytes are one. -/
def hugeRam (p x : Nat) : UInt8 := if x = 4095 + p then 0 else 1

theorem place_huge {k : Nat} (le : k ≤ 2 ^ 31) : place 4096 1 k = 4095 + k := by
  rw [place]
  omega

theorem larger_huge {p c m : Nat} (hm : m ≤ 2 ^ 31) :
    larger 4096 compareThunk compareBytes (hugeRam p) (2 ^ 31) c m =
      if c ≤ 2 ^ 31 ∧ m = p ∧ c ≠ p then c else m := by
  rw [larger]
  refine if_congr (and_congr_right fun le => ?_) rfl rfl
  rw [doCompare, place_huge le, place_huge hm]
  by_cases h : c = p <;> by_cases h' : m = p <;>
    simp [compareThunk, compareBytes, object, hugeRam, h, h']

theorem doSwap_huge {p q : Nat} (hp : p ≤ 2 ^ 31) (hq : q ≤ 2 ^ 31) :
    doSwap (hugeRam p) 4096 p q 1 = hugeRam q := by
  funext x
  simp only [doSwap, place_huge hp, place_huge hq, List.range_one, List.foldl_cons, List.foldl_nil,
    update_apply, hugeRam]
  split_ifs <;> first | rfl | omega

theorem heapify_endless (fuel p : Nat) (turn : p = 0 ∨ ∃ k ≤ 31, p = 2 ^ k) :
    heapify 4096 compareThunk compareBytes fuel (hugeRam p) p (2 ^ 31) = none := by
  induction fuel generalizing p with
  | zero => rfl
  | succ fuel ih =>
    have bound : p ≤ 2 ^ 31 := by
      rcases turn with rfl | ⟨k, le, rfl⟩
      · exact Nat.zero_le _
      · exact Nat.pow_le_pow_right (by decide) le
    obtain ⟨q, next, le, ne, turn'⟩ : ∃ q,
        largest 4096 compareThunk compareBytes (hugeRam p) p (2 ^ 31) = q ∧ q ≤ 2 ^ 31 ∧ q ≠ p ∧
          (q = 0 ∨ ∃ k ≤ 31, q = 2 ^ k) := by
      rw [largest, larger_huge bound]
      rcases turn with rfl | ⟨k, le, rfl⟩
      · refine ⟨1, ?_, by decide, by decide, .inr ⟨0, by decide, rfl⟩⟩
        rw [if_neg (by omega), larger_huge (by decide), if_pos (by decide)]
        rfl
      obtain ⟨q, left, le, ne, turn'⟩ : ∃ q, 2 * 2 ^ k % 2 ^ 32 = q ∧ q ≤ 2 ^ 31 ∧ q ≠ 2 ^ k ∧
          (q = 0 ∨ ∃ k ≤ 31, q = 2 ^ k) := by
        rcases Nat.eq_or_lt_of_le le with rfl | lt
        · exact ⟨0, rfl, by decide, by decide, .inl rfl⟩
        · have small : 2 ^ (k + 1) ≤ 2 ^ 31 := Nat.pow_le_pow_right (by decide) lt
          have pos := Nat.two_pow_pos k
          rw [Nat.pow_succ'] at small
          refine ⟨2 * 2 ^ k, by omega, small, by omega, .inr ⟨k + 1, lt, Nat.pow_succ'.symm⟩⟩
      refine ⟨q, ?_, le, ne, turn'⟩
      rw [left, if_pos ⟨le, rfl, ne⟩, larger_huge le, if_neg fun h => ne h.2.1]
    rw [heapify, next, if_neg ne, doSwap_huge bound le]
    exact ih q turn'

end Huge

section Search

variable {Aux : Type} {size : Nat}

/-- The pointer returned, 0 if it is null, and the pointers `compare` is called with. -/
def searchLoop (compare : Object size → Object size → Aux → Int) (aux : Aux)
    (ram : Nat → UInt8) (key : Object size) : Nat → Nat → Nat → Option (Nat × List Nat)
  | 0, _, _ => none
  | fuel + 1, first, last =>
    if first < last then
      let range := (last - first) / size
      let middle := (first + range / 2 * size) % 2 ^ 32
      let cmp := compare key (object ram size middle) aux
      let rest :=
        if cmp < 0 then searchLoop compare aux ram key fuel first middle
        else if cmp > 0 then searchLoop compare aux ram key fuel ((middle + size) % 2 ^ 32) last
        else some (middle, [])
      rest.map fun r => (r.1, middle :: r.2)
    else some (0, [])

def binarySearch (array : Nat) (compare : Object size → Object size → Aux → Int) (aux : Aux)
    (fuel : Nat) (ram : Nat → UInt8) (key : Object size) (cnt : Nat) : Option (Nat × List Nat) :=
  searchLoop compare aux ram key fuel array ((array + size * cnt) % 2 ^ 32)

def bsearch (array : Nat) (compare : Object size → Object size → Int) (fuel : Nat)
    (ram : Nat → UInt8) (key : Object size) (cnt : Nat) : Option (Nat × List Nat) :=
  binarySearch array compareThunk compare fuel ram key cnt

variable {compare : Object A.size → Object A.size → Aux → Int} {aux : Aux} {key : Object A.size}

/-- An element of the array that equals the key, or null if there is none. -/
structure Found (A : Extent) (compare : Object A.size → Object A.size → Int)
    (ram : Nat → UInt8) (key : Object A.size) (r : Nat × List Nat) : Prop where
  element : r.1 ≠ 0 → ∃ i, 1 ≤ i ∧ i ≤ A.cnt ∧ r.1 = A.addr i ∧ compare key (A.table ram i) = 0
  absent : r.1 = 0 ↔ ∀ i, 1 ≤ i → i ≤ A.cnt → compare key (A.table ram i) ≠ 0
  calls : ∀ p ∈ r.2, ∃ i, 1 ≤ i ∧ i ≤ A.cnt ∧ p = A.addr i

theorem Found.later {compare : Object A.size → Object A.size → Int} {r : Nat × List Nat}
    (h : Found A compare ram key r) (hi : 1 ≤ i ∧ i ≤ A.cnt) :
    Found A compare ram key (r.1, A.addr i :: r.2) :=
  ⟨h.element, h.absent, List.forall_mem_cons.mpr ⟨⟨i, hi.1, hi.2, rfl⟩, h.calls⟩⟩

variable (ord : StrcmpStyle (compare · · aux))
  (sorted : (elements (A.table ram) A.cnt).Pairwise fun a b => compare a b aux ≤ 0)
include ord sorted

/-- The elements up to `lo` are before the key, those after `hi` are behind it. -/
theorem searchLoop_spec (key : Object A.size) {hi : Nat} (low : lo ≤ hi) (high : hi ≤ A.cnt)
    (enough : hi < fuel + lo) (before : ∀ i, 1 ≤ i → i ≤ lo → 0 < compare key (A.table ram i) aux)
    (behind : ∀ i, hi < i → i ≤ A.cnt → compare key (A.table ram i) aux < 0) :
    ∃ r, searchLoop compare aux ram key fuel (A.array + lo * A.size)
    (A.array + hi * A.size) = some r ∧ Found A (compare · · aux) ram key r := by
  have order : ∀ i j, 1 ≤ i → i ≤ j → j ≤ A.cnt →
      compare (A.table ram i) (A.table ram j) aux ≤ 0 := by
    intro i j pos le le'
    rcases Nat.eq_or_lt_of_le le with rfl | lt
    · exact ord.refl _
    · exact pairwise_elements.mp sorted i j pos lt le'
  induction fuel generalizing lo hi with
  | zero => omega
  | succ fuel ih =>
    rw [searchLoop]
    rcases Nat.eq_or_lt_of_le low with rfl | lt
    · rw [if_neg (Nat.lt_irrefl _)]
      refine ⟨_, rfl, fun ne => absurd rfl ne, iff_of_true rfl fun i pos le => ?_, by simp⟩
      by_cases left : i ≤ lo
      · exact Int.ne_of_gt (before i pos left)
      · exact Int.ne_of_lt (behind i (by omega) le)
    obtain ⟨mid, hmid⟩ : ∃ mid, lo + (hi - lo) / 2 = mid := ⟨_, rfl⟩
    have inside : 1 ≤ mid + 1 ∧ mid + 1 ≤ A.cnt := by omega
    have range : (A.array + hi * A.size - (A.array + lo * A.size)) / A.size = hi - lo := by
      rw [Nat.add_sub_add_left, ← Nat.sub_mul, Nat.mul_div_cancel _ A.sized]
    obtain ⟨here, within⟩ := A.addr_eq inside
    rw [Nat.add_sub_cancel] at here
    have room := A.room
    have middle : (A.array + lo * A.size + (hi - lo) / 2 * A.size) % 2 ^ 32 = A.addr (mid + 1) := by
      rw [Nat.add_assoc, ← Nat.add_mul, hmid, ← here, Nat.mod_eq_of_lt (by omega)]
    have next : (A.addr (mid + 1) + A.size) % 2 ^ 32 = A.array + (mid + 1) * A.size := by
      rw [Nat.mod_eq_of_lt (by omega), here, Nat.succ_mul, Nat.add_assoc]
    rw [if_pos (Nat.add_lt_add_left (Nat.mul_lt_mul_of_pos_right lt A.sized) _)]
    have element : object ram A.size (A.addr (mid + 1)) = A.table ram (mid + 1) := rfl
    simp only [range, middle, next, element]
    split_ifs with less more
    · have behind' : ∀ i, mid < i → i ≤ A.cnt → compare key (A.table ram i) aux < 0 := by
        intro i past le
        refine (ord.swap _ _).mp (Int.not_le.mp fun down => ?_)
        have := ord.trans _ _ _ (order (mid + 1) i (by omega) past le) down
        have := (ord.swap _ _).mpr less
        omega
      obtain ⟨r, run, found⟩ := ih (by omega) (by omega) (by omega) before behind'
      rw [here, run]
      exact ⟨_, rfl, here ▸ found.later inside⟩
    · have before' : ∀ i, 1 ≤ i → i ≤ mid + 1 → 0 < compare key (A.table ram i) aux := by
        intro i pos le
        refine Int.not_le.mp fun down => ?_
        have := ord.trans _ _ _ down (order i (mid + 1) pos le (by omega))
        omega
      obtain ⟨r, run, found⟩ := ih (by omega) high (by omega) before' behind
      rw [run]
      exact ⟨_, rfl, found.later inside⟩
    · have mapped := A.mapped
      have equal : compare key (A.table ram (mid + 1)) aux = 0 := by omega
      refine ⟨_, rfl, fun _ => ⟨mid + 1, inside.1, inside.2, rfl, equal⟩,
        iff_of_false (by simp only; omega) fun none => none _ inside.1 inside.2 equal, ?_⟩
      exact List.forall_mem_cons.mpr ⟨⟨mid + 1, inside.1, inside.2, rfl⟩, by simp⟩

theorem binarySearch_spec (enough : A.cnt < fuel) (key : Object A.size) :
    ∃ r, binarySearch A.array compare aux fuel ram key A.cnt = some r ∧
      Found A (compare · · aux) ram key r := by
  have whole := searchLoop_spec ord sorted key (Nat.zero_le _) (Nat.le_refl _) enough
    (by omega) (by omega)
  rw [Nat.zero_mul, Nat.add_zero] at whole
  rw [binarySearch, Nat.mul_comm, Nat.mod_eq_of_lt A.room]
  exact whole

omit ord sorted

/-- In a sorted array an element equal to the key is found if there is one. -/
theorem binarySearch_finds (A : Extent) (enough : A.cnt < fuel) (ram : Nat → UInt8)
    (key : Object A.size) :
    (∀ (Aux : Type) (compare : Object A.size → Object A.size → Aux → Int) (aux : Aux),
      StrcmpStyle (compare · · aux) →
      ((elements (A.table ram) A.cnt).Pairwise fun a b => compare a b aux ≤ 0) →
      ∃ r, binarySearch A.array compare aux fuel ram key A.cnt = some r ∧
        Found A (compare · · aux) ram key r) ∧
    ∀ compare : Object A.size → Object A.size → Int, StrcmpStyle compare →
      ((elements (A.table ram) A.cnt).Pairwise fun a b => compare a b ≤ 0) →
      ∃ r, bsearch A.array compare fuel ram key A.cnt = some r ∧ Found A compare ram key r :=
  ⟨fun _ _ _ ord sorted => binarySearch_spec ord sorted enough key, fun compare ord sorted =>
    have thunk : StrcmpStyle (compareThunk · · compare) := ord
    binarySearch_spec thunk sorted enough key⟩

theorem binarySearch_finds_three : ∃ r, bsearch 8 compareBytes 4 UInt8.ofNat (fun _ => 9) 3 =
    some r ∧ Found three compareBytes UInt8.ofNat (fun _ => 9) r :=
  (binarySearch_finds three (by decide) _ _).2 _ compareBytes_style (by decide)

end Search

end Pintos.Stdlib
