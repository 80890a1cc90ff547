import Mathlib.Data.List.GetD
import Mathlib.Tactic.SplitIfs
import Mathlib.Tactic.Common
import Mathlib.Algebra.Group.Nat.Defs
import Mathlib.Algebra.Group.Int.Defs

/-! Byte-addressed storage. `slice` reads a range, `splice` overwrites one, and
`overlay` replaces part of a buffer before it goes back in one piece. Words are
stored least significant byte first. -/

namespace Pintos.ByteStore

def slice (m : Nat → UInt8) (a n : Nat) : List UInt8 :=
  (List.range n).map fun k => m (a + k)

def splice (m : Nat → UInt8) (a : Nat) (bs : List UInt8) : Nat → UInt8 := fun x =>
  if a ≤ x ∧ x < a + bs.length then bs.getD (x - a) 0 else m x

def overlay (buf : List UInt8) (k : Nat) (bs : List UInt8) : List UInt8 :=
  buf.take k ++ bs ++ buf.drop (k + bs.length)

section

variable (m : Nat → UInt8)

@[simp] theorem slice_length (a n : Nat) : (slice m a n).length = n := by
  simp [slice]

@[simp] theorem slice_zero (a : Nat) : slice m a 0 = [] := rfl

theorem slice_getD (a n k : Nat) (h : k < n) : (slice m a n).getD k 0 = m (a + k) := by
  simp [slice, List.getD, h]

theorem slice_add (a n k : Nat) : slice m a (n + k) = slice m a n ++ slice m (a + n) k := by
  simp only [slice, List.range_add, List.map_append, List.map_map]
  congr 1
  apply List.map_congr_left
  intro j _
  simp [Nat.add_assoc]

theorem slice_take (a n k : Nat) (h : k ≤ n) : (slice m a n).take k = slice m a k := by
  obtain ⟨d, rfl⟩ := Nat.exists_eq_add_of_le h
  rw [slice_add, List.take_left' (slice_length m a k)]

theorem slice_drop (a n k : Nat) : (slice m a n).drop k = slice m (a + k) (n - k) := by
  rcases Nat.le_total k n with h | h
  · obtain ⟨d, rfl⟩ := Nat.exists_eq_add_of_le h
    rw [slice_add, List.drop_left' (slice_length m a k), Nat.add_sub_cancel_left]
  · rw [List.drop_of_length_le (by rwa [slice_length]), Nat.sub_eq_zero_of_le h, slice_zero]

theorem slice_drop_take (a n k c : Nat) (h : k + c ≤ n) :
    ((slice m a n).drop k).take c = slice m (a + k) c := by
  rw [slice_drop m a n k, slice_take _ _ _ _ (by omega)]

theorem slice_congr {m m' : Nat → UInt8} {a n : Nat}
    (h : ∀ x, a ≤ x → x < a + n → m x = m' x) : slice m a n = slice m' a n := by
  apply List.map_congr_left
  intro k hk
  have := List.mem_range.mp hk
  exact h (a + k) (by omega) (by omega)

theorem splice_off {a x : Nat} (bs : List UInt8) (off : x < a ∨ a + bs.length ≤ x) :
    splice m a bs x = m x := by
  rw [splice, if_neg (by omega)]

theorem splice_of_mem {a x : Nat} (bs : List UInt8) (h : a ≤ x) (h' : x < a + bs.length) :
    splice m a bs x = bs.getD (x - a) 0 := by
  rw [splice, if_pos ⟨h, h'⟩]

@[simp] theorem splice_nil (a : Nat) : splice m a [] = m := by
  funext x
  rw [splice, if_neg (by simp)]

theorem slice_splice_of_disjoint (a n b : Nat) (bs : List UInt8) (h : a + n ≤ b ∨ b + bs.length ≤ a) :
    slice (splice m b bs) a n = slice m a n := by
  apply slice_congr
  intro x lo hi
  exact splice_off m bs (by omega)

theorem slice_splice (a : Nat) (bs : List UInt8) : slice (splice m a bs) a bs.length = bs := by
  apply List.ext_getElem (by simp)
  intro k h1 h2
  simp only [slice, List.getElem_map, List.getElem_range]
  rw [splice_of_mem m bs (by omega) (by omega), Nat.add_sub_cancel_left,
    List.getD_eq_getElem _ _ h2]

theorem slice_splice_within (a n k : Nat) (bs : List UInt8) (h : k + bs.length ≤ n) :
    slice (splice m (a + k) bs) a n = overlay (slice m a n) k bs := by
  obtain ⟨d, rfl⟩ := Nat.exists_eq_add_of_le h
  rw [overlay, slice_take _ _ _ _ (by omega), slice_drop, Nat.add_sub_cancel_left]
  rw [slice_add, slice_add]
  rw [slice_splice_of_disjoint _ _ _ _ _ (.inl (Nat.le_refl _)), slice_splice,
    slice_splice_of_disjoint _ _ _ _ _ (.inr (by omega))]

theorem splice_append (a : Nat) (xs ys : List UInt8) :
    splice (splice m a xs) (a + xs.length) ys = splice m a (xs ++ ys) := by
  funext x
  by_cases hx : x < a + xs.length
  · rw [splice_off _ _ (.inl hx)]
    by_cases lo : a ≤ x
    · rw [splice_of_mem _ _ lo hx, splice_of_mem _ _ lo (by simp; omega),
        List.getD_append _ _ _ _ (by omega)]
    · rw [splice_off _ _ (by omega), splice_off _ _ (by omega)]
  by_cases hi : x < a + xs.length + ys.length
  · rw [splice_of_mem _ _ (by omega) hi,
      splice_of_mem _ _ (by omega) (by simp; omega),
      List.getD_append_right _ _ _ _ (by omega)]
    congr 1
    omega
  · rw [splice_off _ _ (by omega), splice_off _ _ (by omega), splice_off _ _ (by simp; omega)]

theorem splice_prepend (a : Nat) (xs ys : List UInt8) :
    splice (splice m (a + xs.length) ys) a xs = splice m a (xs ++ ys) := by
  rw [← splice_append]
  funext x
  by_cases inside : a ≤ x ∧ x < a + xs.length
  · rw [splice_of_mem _ _ inside.1 inside.2, splice_off _ _ (.inl inside.2),
      splice_of_mem _ _ inside.1 inside.2]
  · have outside : ∀ m', splice m' a xs x = m' x := fun m' => if_neg inside
    rw [outside, splice, splice, outside]

theorem splice_splice (a : Nat) {xs ys : List UInt8} (h : ys.length = xs.length) :
    splice (splice m a xs) a ys = splice m a ys := by
  funext x
  by_cases hx : a ≤ x ∧ x < a + ys.length
  · rw [splice_of_mem _ _ hx.1 hx.2, splice_of_mem _ _ hx.1 hx.2]
  · rw [splice, if_neg hx, splice, if_neg (by rwa [← h]), splice, if_neg hx]

end

def spliceAll (m : Nat → UInt8) (writes : List (Nat × List UInt8)) : Nat → UInt8 :=
  writes.foldl (fun m w => splice m w.1 w.2) m

/-- The ranges of two writes share no byte. -/
def Separate (v w : Nat × List UInt8) : Prop :=
  v.1 + v.2.length ≤ w.1 ∨ w.1 + w.2.length ≤ v.1

theorem spliceAll_off (m : Nat → UInt8) {writes : List (Nat × List UInt8)} {x : Nat}
    (off : ∀ w ∈ writes, x < w.1 ∨ w.1 + w.2.length ≤ x) : spliceAll m writes x = m x := by
  induction writes generalizing m with
  | nil => rfl
  | cons w writes ih =>
    have rest := ih (splice m w.1 w.2) fun v member => off v (List.mem_cons_of_mem w member)
    rw [spliceAll, List.foldl_cons, ← spliceAll, rest]
    exact splice_off m _ (off w List.mem_cons_self)

/-- Of writes to separate ranges, each is still there in the end. -/
theorem slice_spliceAll (m : Nat → UInt8) {writes : List (Nat × List UInt8)}
    (apart : writes.Pairwise Separate) {w : Nat × List UInt8} (member : w ∈ writes) :
    slice (spliceAll m writes) w.1 w.2.length = w.2 := by
  induction writes generalizing m with
  | nil => cases member
  | cons v writes ih =>
    have parts := List.pairwise_cons.mp apart
    rw [spliceAll, List.foldl_cons, ← spliceAll]
    rcases List.mem_cons.mp member with rfl | later
    · have kept : slice (spliceAll (splice m w.1 w.2) writes) w.1 w.2.length =
          slice (splice m w.1 w.2) w.1 w.2.length := by
        apply slice_congr
        intro x low high
        apply spliceAll_off
        intro u inside
        have far := parts.1 u inside
        simp only [Separate] at far
        omega
      rw [kept, slice_splice]
    · exact ih (splice m v.1 v.2) parts.2 later

@[simp] theorem overlay_length (buf : List UInt8) (k : Nat) (bs : List UInt8)
    (h : k + bs.length ≤ buf.length) : (overlay buf k bs).length = buf.length := by
  simp only [overlay, List.length_append, List.length_take, List.length_drop]
  omega

/-- Reading a block, replacing part of it and writing the block back overwrites
exactly that part. -/
theorem splice_overlay (m : Nat → UInt8) (a n k : Nat) (bs : List UInt8)
    (h : k + bs.length ≤ n) : splice m a (overlay (slice m a n) k bs) = splice m (a + k) bs := by
  funext x
  have len : (overlay (slice m a n) k bs).length = n := by
    rw [overlay_length _ _ _ (by simpa using h), slice_length]
  by_cases hx : a ≤ x ∧ x < a + n
  · rw [splice_of_mem _ _ hx.1 (by rw [len]; exact hx.2), ← slice_splice_within _ _ _ _ _ h,
      slice_getD _ _ _ _ (by omega)]
    congr 1
    omega
  · rw [splice_off _ _ (by omega), splice_off _ _ (by omega)]

/-- A 32-bit word, least significant byte first. -/
def le32 (n : Nat) : List UInt8 :=
  [UInt8.ofNat n, UInt8.ofNat (n / 2 ^ 8), UInt8.ofNat (n / 2 ^ 16), UInt8.ofNat (n / 2 ^ 24)]

def readLe32 (bs : List UInt8) : Nat :=
  (bs.getD 0 0).toNat + 2 ^ 8 * (bs.getD 1 0).toNat + 2 ^ 16 * (bs.getD 2 0).toNat +
    2 ^ 24 * (bs.getD 3 0).toNat

@[simp] theorem le32_length (n : Nat) : (le32 n).length = 4 := rfl

theorem readLe32_le32 (n : Nat) (rest : List UInt8) (h : n < 2 ^ 32) :
    readLe32 (le32 n ++ rest) = n := by
  simp only [readLe32, le32, List.cons_append, List.nil_append, List.getD_cons_zero,
    List.getD_cons_succ, UInt8.toNat_ofNat']
  omega

def wordBytes (ws : List (BitVec 32)) : List UInt8 := ws.flatMap fun w => le32 w.toNat

def readWords : Nat → List UInt8 → List (BitVec 32)
  | 0, _ => []
  | n + 1, bs => BitVec.ofNat 32 (readLe32 bs) :: readWords n (bs.drop 4)

@[simp] theorem wordBytes_length (ws : List (BitVec 32)) :
    (wordBytes ws).length = 4 * ws.length := by
  induction ws with
  | nil => rfl
  | cons w ws ih =>
    simp only [wordBytes, List.flatMap_cons, List.length_append, le32_length,
      List.length_cons] at ih ⊢
    omega

@[simp] theorem readWords_length (n : Nat) (bs : List UInt8) : (readWords n bs).length = n := by
  induction n generalizing bs with
  | zero => rfl
  | succ n ih => simp [readWords, ih]

theorem readWords_wordBytes (ws : List (BitVec 32)) : readWords ws.length (wordBytes ws) = ws := by
  induction ws with
  | nil => rfl
  | cons w ws ih =>
    have split : wordBytes (w :: ws) = le32 w.toNat ++ wordBytes ws := by simp [wordBytes]
    rw [split, List.length_cons, readWords, readLe32_le32 _ _ w.isLt,
      List.drop_left' (le32_length _), ih]
    simp

end Pintos.ByteStore
