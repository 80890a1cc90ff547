import Mathlib.Data.List.Nodup
import Mathlib.Data.List.Range
import Mathlib.Logic.Equiv.Basic

/-! Binary heaps in tables with indices from 1: the parent of `c` is `c / 2`, and the order is
asked of the parents from `lo` on. While an element sinks, the order is open at one index. -/

namespace Pintos.HeapOrder

variable {α : Type*} {le : α → α → Prop} {A A' : Nat → α} {lo n i m : Nat}

def Heap (le : α → α → Prop) (A : Nat → α) (lo n : Nat) : Prop :=
  ∀ c ≤ n, lo ≤ c / 2 → le (A c) (A (c / 2))

/-- A heap but for the children of `i`, which are not above the parent of `i`. -/
structure Open (le : α → α → Prop) (A : Nat → α) (lo n i : Nat) : Prop where
  order : ∀ c ≤ n, lo ≤ c / 2 → c / 2 ≠ i → le (A c) (A (c / 2))
  across : ∀ c ≤ n, c / 2 = i → lo ≤ i / 2 → le (A c) (A (i / 2))

/-- Two elements of a table of `n` have changed places. -/
structure Swapped (n : Nat) (A A' : Nat → α) (i m : Nat) : Prop where
  left : A' i = A m
  right : A' m = A i
  other : ∀ k, 1 ≤ k → k ≤ n → k ≠ i → k ≠ m → A' k = A k

def elements (A : Nat → α) (n : Nat) : List α := (List.range' 1 n).map A

theorem pairwise_elements {r : α → α → Prop} : (elements A n).Pairwise r ↔
    ∀ i j, 1 ≤ i → i < j → j ≤ n → r (A i) (A j) := by
  rw [elements, List.pairwise_map, List.pairwise_iff_getElem]
  simp only [List.length_range', List.getElem_range', Nat.one_mul]
  constructor
  · intro h i j pos lt le
    have := h (i - 1) (j - 1) (by omega) (by omega) (by omega)
    rwa [Nat.add_sub_cancel' pos, Nat.add_sub_cancel' (by omega)] at this
  · exact fun h i j _ _ lt => h _ _ (by omega) (by omega) (by omega)

theorem Heap.toOpen (heap : Heap le A (i + 1) n) (pos : 0 < i) : Open le A i n i where
  order := fun c bound above ne => heap c bound (by omega)
  across := fun c bound child above => absurd above (by omega)

theorem Open.sink (h : Open le A lo n i) (pos : 0 < lo) (above : lo ≤ i) (child : m / 2 = i)
    (bound : m ≤ n) (up : le (A i) (A m)) (top : ∀ c ≤ n, c / 2 = i → le (A c) (A m))
    (swap : Swapped n A A' i m) : Open le A' lo n m where
  order := by
    intro c le_n parent ne
    by_cases under : c / 2 = i
    · rw [under, swap.left]
      by_cases same : c = m
      · rw [same, swap.right]
        exact up
      · rw [swap.other c (by omega) le_n (by omega) same]
        exact top c le_n under
    rw [swap.other (c / 2) (by omega) (by omega) under ne]
    by_cases same : c = i
    · rw [same, swap.left]
      exact h.across m bound child (by omega)
    · rw [swap.other c (by omega) le_n same (by rintro rfl; exact under child)]
      exact h.order c le_n parent under
  across := by
    intro c le_n under _
    rw [child, swap.left, swap.other c (by omega) le_n (by omega) (by omega), ← under]
    exact h.order c le_n (by omega) (by omega)

theorem Open.settle (h : Open le A lo n i) (top : ∀ c ≤ n, c / 2 = i → le (A c) (A i)) :
    Heap le A lo n := by
  intro c bound parent
  by_cases under : c / 2 = i
  · rw [under]
    exact top c bound under
  · exact h.order c bound parent under

theorem Heap.dropRoot (heap : Heap le A 1 (n + 1)) (swap : Swapped (n + 1) A A' 1 (n + 1)) :
    Open le A' 1 n 1 where
  order := by
    intro c bound parent ne
    rw [swap.other c (by omega) (by omega) (by omega) (by omega),
      swap.other (c / 2) parent (by omega) ne (by omega)]
    exact heap c (by omega) parent
  across := fun c bound child above => absurd above (by omega)

theorem Heap.root (refl : ∀ x, le x x) (trans : ∀ x y z, le x y → le y z → le x z)
    (heap : Heap le A 1 n) (i : Nat) (pos : 1 ≤ i) (bound : i ≤ n) : le (A i) (A 1) := by
  induction i using Nat.strong_induction_on with
  | h i ih =>
    by_cases first : i = 1
    · rw [first]
      exact refl _
    · exact trans _ _ _ (heap i bound (by omega)) (ih (i / 2) (by omega) (by omega) (by omega))

theorem Swapped.perm (swap : Swapped n A A' i m) (hi : 1 ≤ i ∧ i ≤ n) (hm : 1 ≤ m ∧ m ≤ n) :
    (elements A' n).Perm (elements A n) := by
  have moved : elements A' n = ((List.range' 1 n).map (Equiv.swap i m)).map A := by
    rw [List.map_map]
    refine List.map_congr_left fun k mem => ?_
    rw [List.mem_range'_1] at mem
    rw [Function.comp_apply, Equiv.swap_apply_def]
    split_ifs with first second
    · rw [first, swap.left]
    · rw [second, swap.right]
    · exact swap.other k mem.1 (by omega) first second
  rw [moved]
  refine List.Perm.map A ((List.perm_ext_iff_of_nodup ?_ (List.nodup_range' ..)).mpr fun k => ?_)
  · exact List.Nodup.map (Equiv.injective _) (List.nodup_range' ..)
  rw [List.mem_map]
  have inside : ∀ k, k ∈ List.range' 1 n → Equiv.swap i m k ∈ List.range' 1 n := by
    intro k mem
    rw [List.mem_range'_1] at mem ⊢
    rw [Equiv.swap_apply_def]
    split_ifs <;> omega
  constructor
  · rintro ⟨k, mem, rfl⟩
    exact inside k mem
  · exact fun mem => ⟨_, inside k mem, Equiv.swap_apply_self i m k⟩

end Pintos.HeapOrder
