import Pintos.ByteStore
import Mathlib.Tactic.ByContra

/-! Bitmaps of `lib/kernel/bitmap.c`, word by word as the kernel stores them.
Functions that can fail an assertion return an option; `bitmapError` is the
in-band value SIZE_MAX that the scans return when nothing fits. `Bits.bit` is
the plain view of one bit, and every function has one lemma about that view. -/

namespace Pintos.Bitmap
open ByteStore

def elemBits : Nat := 32

def elemIdx (bitIdx : Nat) : Nat := bitIdx / elemBits

def bitMask (bitIdx : Nat) : BitVec 32 := BitVec.twoPow 32 (bitIdx % elemBits)

def elemCnt (bitCnt : Nat) : Nat := (bitCnt + elemBits - 1) % 2 ^ 32 / elemBits

def byteCnt (bitCnt : Nat) : Nat := 4 * elemCnt bitCnt

/-- A bitmap has the words its size asks for. A size whose rounding would wrap
around needs zero bytes, which `malloc` refuses, so no such bitmap exists. -/
structure Bits where
  bitCnt : Nat
  bits : List (BitVec 32)
  length_eq : bits.length = elemCnt bitCnt
  bitCnt_lt : bitCnt + 31 < 2 ^ 32
  deriving DecidableEq

def bitmapError : Nat := 2 ^ 32 - 1

def lastMask (b : Bits) : BitVec 32 :=
  if b.bitCnt % elemBits = 0 then BitVec.allOnes 32 else BitVec.twoPow 32 (b.bitCnt % elemBits) - 1

def Bits.bit (b : Bits) (i : Nat) : Bool := (b.bits.getD (elemIdx i) 0 &&& bitMask i) != 0

def Bits.put (b : Bits) (k : Nat) (w : BitVec 32) : Bits :=
  { b with bits := b.bits.set k w, length_eq := by rw [List.length_set, b.length_eq] }

def bitmapMark (b : Bits) (bitIdx : Nat) : Bits :=
  b.put (elemIdx bitIdx) (b.bits.getD (elemIdx bitIdx) 0 ||| bitMask bitIdx)

def bitmapReset (b : Bits) (bitIdx : Nat) : Bits :=
  b.put (elemIdx bitIdx) (b.bits.getD (elemIdx bitIdx) 0 &&& ~~~bitMask bitIdx)

def bitmapSet (b : Bits) (idx : Nat) (value : Bool) : Option Bits :=
  if idx < b.bitCnt then some (if value then bitmapMark b idx else bitmapReset b idx) else none

def bitmapTest (b : Bits) (idx : Nat) : Option Bool :=
  if idx < b.bitCnt then some (b.bit idx) else none

def setLoop (value : Bool) : (n idx : Nat) → Bits → Option Bits
  | 0, _, b => some b
  | n + 1, idx, b => do
    let b ← bitmapSet b idx value
    setLoop value n (idx + 1) b

def bitmapSetMultiple (b : Bits) (start cnt : Nat) (value : Bool) : Option Bits :=
  if start ≤ b.bitCnt ∧ (start + cnt) % 2 ^ 32 ≤ b.bitCnt then setLoop value cnt start b else none

def containsLoop (b : Bits) (value : Bool) : (n idx : Nat) → Option Bool
  | 0, _ => some false
  | n + 1, idx => do
    let t ← bitmapTest b idx
    if t = value then some true else containsLoop b value n (idx + 1)

def bitmapContains (b : Bits) (start cnt : Nat) (value : Bool) : Option Bool :=
  if start ≤ b.bitCnt ∧ (start + cnt) % 2 ^ 32 ≤ b.bitCnt then containsLoop b value cnt start
  else none

def bitmapAll (b : Bits) (start cnt : Nat) : Option Bool := do
  let c ← bitmapContains b start cnt false
  return !c

def scanLoop (b : Bits) (cnt : Nat) (value : Bool) : (n i : Nat) → Option Nat
  | 0, _ => some bitmapError
  | n + 1, i => do
    let c ← bitmapContains b i cnt (!value)
    if !c then some i else scanLoop b cnt value n (i + 1)

def bitmapScan (b : Bits) (start cnt : Nat) (value : Bool) : Option Nat :=
  if start ≤ b.bitCnt then
    if cnt ≤ b.bitCnt then scanLoop b cnt value (b.bitCnt - cnt + 1 - start) start
    else some bitmapError
  else none

def bitmapScanAndFlip (b : Bits) (start cnt : Nat) (value : Bool) : Option (Nat × Bits) := do
  let idx ← bitmapScan b start cnt value
  if idx ≠ bitmapError then
    let b ← bitmapSetMultiple b idx cnt (!value)
    return (idx, b)
  else return (idx, b)

/-- A fresh bitmap in memory that held `junk`: only the bits below the size are cleared. -/
def bitmapCreate (bitCnt : Nat) (junk : Nat → BitVec 32) (h : bitCnt + 31 < 2 ^ 32) : Option Bits :=
  bitmapSetMultiple ⟨bitCnt, (List.range (elemCnt bitCnt)).map junk, by simp, h⟩ 0 bitCnt false

def Bits.bytes (b : Bits) : List UInt8 := wordBytes b.bits

/-- The words read back from a file, with the unused bits of the last one masked off. -/
def bitmapReadBytes (b : Bits) (bs : List UInt8) : Bits :=
  let words := readWords b.bits.length bs
  { b with
    bits := words.set (elemCnt b.bitCnt - 1) (words.getD (elemCnt b.bitCnt - 1) 0 &&& lastMask b)
    length_eq := by rw [List.length_set, readWords_length, b.length_eq] }

theorem elemCnt_eq {n : Nat} (h : n + 31 < 2 ^ 32) : elemCnt n = (n + 31) / 32 := by
  have : n + elemBits - 1 = n + 31 := by simp [elemBits]
  rw [elemCnt, this, Nat.mod_eq_of_lt h]
  rfl

theorem Bits.elemIdx_lt (b : Bits) {i : Nat} (h : i < b.bitCnt) : elemIdx i < b.bits.length := by
  rw [b.length_eq, elemCnt_eq b.bitCnt_lt, elemIdx, elemBits]
  omega

@[simp] theorem Bits.bytes_length (b : Bits) : b.bytes.length = byteCnt b.bitCnt := by
  rw [Bits.bytes, wordBytes_length, b.length_eq, byteCnt]

theorem bit_eq_getLsbD (b : Bits) (i : Nat) :
    b.bit i = (b.bits.getD (i / 32) 0).getLsbD (i % 32) := by
  have pos : BitVec.twoPow 32 (i % 32) ≠ 0 := by
    intro h
    have := congrArg (fun x : BitVec 32 => x.getLsbD (i % 32)) h
    simp [Nat.mod_lt] at this
  simp only [Bits.bit, elemIdx, bitMask, elemBits, BitVec.and_twoPow]
  by_cases h : (b.bits.getD (i / 32) 0).getLsbD (i % 32) = true
  · rw [if_pos h, h]
    simpa using pos
  · rw [if_neg h, Bool.eq_false_iff.mpr h]
    rfl

theorem Bits.ext_bit {a b : Bits} (cnt : a.bitCnt = b.bitCnt) (h : ∀ i, a.bit i = b.bit i) :
    a = b := by
  have len : a.bits.length = b.bits.length := by rw [a.length_eq, b.length_eq, cnt]
  have bits : a.bits = b.bits := by
    apply List.ext_getElem len
    intro k ha hb
    apply BitVec.eq_of_getLsbD_eq
    intro j hj
    have := h (32 * k + j)
    rw [bit_eq_getLsbD, bit_eq_getLsbD, show (32 * k + j) / 32 = k by omega,
      show (32 * k + j) % 32 = j by omega, List.getD_eq_getElem _ _ ha,
      List.getD_eq_getElem _ _ hb] at this
    exact this
  cases a
  cases b
  simp only at cnt bits
  subst cnt bits
  rfl

theorem put_getD (b : Bits) {k : Nat} (w : BitVec 32) (j : Nat) (h : k < b.bits.length) :
    (b.put k w).bits.getD j 0 = if j = k then w else b.bits.getD j 0 := by
  simp only [Bits.put, List.getD_eq_getElem?_getD, List.getElem?_set]
  by_cases e : k = j
  · subst e
    simp [h]
  · simp [e, Ne.symm e]

theorem bit_mark (b : Bits) {i : Nat} (h : elemIdx i < b.bits.length) (j : Nat) :
    (bitmapMark b i).bit j = (decide (j = i) || b.bit j) := by
  have bound := Nat.mod_lt i (show 0 < 32 by decide)
  rw [bit_eq_getLsbD, bit_eq_getLsbD, bitmapMark, put_getD _ _ _ h]
  by_cases word : j / 32 = elemIdx i
  · rw [if_pos word, ← word, BitVec.getLsbD_or, bitMask, BitVec.getLsbD_twoPow, Bool.or_comm]
    congr 1
    have : i % 32 = j % 32 ↔ j = i := by
      simp only [elemIdx, elemBits] at word
      omega
    simp [bound, this, elemBits]
  · have : j ≠ i := fun e => word (by rw [e]; rfl)
    simp [word, this]

theorem bit_reset (b : Bits) {i : Nat} (h : i < b.bitCnt) (j : Nat) :
    (bitmapReset b i).bit j = (!decide (j = i) && b.bit j) := by
  have bound := Nat.mod_lt i (show 0 < 32 by decide)
  rw [bit_eq_getLsbD, bit_eq_getLsbD, bitmapReset, put_getD _ _ _ (b.elemIdx_lt h)]
  by_cases word : j / 32 = elemIdx i
  · rw [if_pos word, ← word, BitVec.getLsbD_and, BitVec.getLsbD_not, bitMask,
      BitVec.getLsbD_twoPow, Bool.and_comm]
    congr 1
    have : i % 32 = j % 32 ↔ j = i := by
      simp only [elemIdx, elemBits] at word
      omega
    simp [bound, Nat.mod_lt, this, elemBits]
  · have : j ≠ i := fun e => word (by rw [e]; rfl)
    simp [word, this]

theorem bitmapSet_spec (b : Bits) {i : Nat} (value : Bool) (h : i < b.bitCnt) :
    ∃ b', bitmapSet b i value = some b' ∧ b'.bitCnt = b.bitCnt ∧
      ∀ j, b'.bit j = if j = i then value else b.bit j := by
  rw [bitmapSet, if_pos h]
  cases value
  · refine ⟨_, rfl, rfl, fun j => ?_⟩
    simp only [Bool.false_eq_true, if_false, bit_reset b h]
    by_cases e : j = i <;> simp [e]
  · refine ⟨_, rfl, rfl, fun j => ?_⟩
    simp only [if_true, bit_mark b (b.elemIdx_lt h)]
    by_cases e : j = i <;> simp [e]

theorem setLoop_spec (value : Bool) (n idx : Nat) (b : Bits) (h : idx + n ≤ b.bitCnt) :
    ∃ b', setLoop value n idx b = some b' ∧ b'.bitCnt = b.bitCnt ∧
      ∀ j, b'.bit j = if idx ≤ j ∧ j < idx + n then value else b.bit j := by
  induction n generalizing idx b with
  | zero => exact ⟨b, rfl, rfl, fun j => by rw [if_neg (by omega)]⟩
  | succ n ih =>
    obtain ⟨b1, e1, cnt1, bits1⟩ := bitmapSet_spec b value (show idx < b.bitCnt by omega)
    obtain ⟨b2, e2, cnt2, bits2⟩ := ih (idx + 1) b1 (by omega)
    refine ⟨b2, by rw [setLoop, e1]; exact e2, cnt2.trans cnt1, fun j => ?_⟩
    rw [bits2, bits1]
    split_ifs <;> first | rfl | omega

theorem bitmapSetMultiple_spec (b : Bits) (start cnt : Nat) (value : Bool)
    (h : start + cnt ≤ b.bitCnt) :
    ∃ b', bitmapSetMultiple b start cnt value = some b' ∧ b'.bitCnt = b.bitCnt ∧
      ∀ j, b'.bit j = if start ≤ j ∧ j < start + cnt then value else b.bit j := by
  have lt := b.bitCnt_lt
  rw [bitmapSetMultiple, if_pos ⟨by omega, by rw [Nat.mod_eq_of_lt (by omega)]; exact h⟩]
  exact setLoop_spec value cnt start b h

theorem containsLoop_spec (b : Bits) (value : Bool) (n idx : Nat) (h : idx + n ≤ b.bitCnt) :
    ∃ c, containsLoop b value n idx = some c ∧
      (c = true ↔ ∃ j, idx ≤ j ∧ j < idx + n ∧ b.bit j = value) := by
  induction n generalizing idx with
  | zero => exact ⟨false, rfl, by simp; omega⟩
  | succ n ih =>
    simp only [containsLoop, bitmapTest, if_pos (show idx < b.bitCnt by omega),
      Option.bind_eq_bind, Option.bind_some]
    by_cases hit : b.bit idx = value
    · exact ⟨true, by rw [if_pos hit], by simp only [true_iff]; exact ⟨idx, by omega, by omega, hit⟩⟩
    obtain ⟨c, e, iff⟩ := ih (idx + 1) (by omega)
    refine ⟨c, by rw [if_neg hit, e], iff.trans ⟨?_, ?_⟩⟩
    · rintro ⟨j, lo, hi, v⟩
      exact ⟨j, by omega, by omega, v⟩
    · rintro ⟨j, lo, hi, v⟩
      have : j ≠ idx := fun e => hit (e ▸ v)
      exact ⟨j, by omega, by omega, v⟩

theorem bitmapContains_spec (b : Bits) (start cnt : Nat) (value : Bool)
    (h : start + cnt ≤ b.bitCnt) : ∃ c, bitmapContains b start cnt value = some c ∧
    (c = true ↔ ∃ j, start ≤ j ∧ j < start + cnt ∧ b.bit j = value) := by
  have lt := b.bitCnt_lt
  rw [bitmapContains, if_pos ⟨by omega, by rw [Nat.mod_eq_of_lt (by omega)]; exact h⟩]
  exact containsLoop_spec b value cnt start h

theorem bitmapAll_eq_true (b : Bits) (start cnt : Nat) (h : start + cnt ≤ b.bitCnt)
    (all : ∀ j, start ≤ j → j < start + cnt → b.bit j = true) :
    bitmapAll b start cnt = some true := by
  obtain ⟨c, e, iff⟩ := bitmapContains_spec b start cnt false h
  have : c = false := by
    by_contra hc
    obtain ⟨j, lo, hi, v⟩ := iff.mp (by simpa using hc)
    rw [all j lo hi] at v
    cases v
  simp [bitmapAll, e, this]

/-- A run of `cnt` bits equal to `value` that starts at `i` and fits. -/
def Bits.Run (b : Bits) (i cnt : Nat) (value : Bool) : Prop :=
  i + cnt ≤ b.bitCnt ∧ ∀ j, i ≤ j → j < i + cnt → b.bit j = value

theorem scanLoop_spec (b : Bits) (cnt : Nat) (value : Bool) (n i : Nat)
    (h : i + n + cnt ≤ b.bitCnt + 1) :
    (∃ r, scanLoop b cnt value n i = some r ∧ i ≤ r ∧ r < i + n ∧ b.Run r cnt value ∧
      ∀ r', i ≤ r' → r' < r → ¬b.Run r' cnt value) ∨
    (scanLoop b cnt value n i = some bitmapError ∧
      ∀ r', i ≤ r' → r' < i + n → ¬b.Run r' cnt value) := by
  induction n generalizing i with
  | zero => exact .inr ⟨rfl, fun r' lo hi => by omega⟩
  | succ n ih =>
    obtain ⟨c, e, iff⟩ := bitmapContains_spec b i cnt (!value) (by omega)
    have run : c = false ↔ b.Run i cnt value := by
      rw [← Bool.not_eq_true, iff, Bits.Run]
      constructor
      · intro none
        refine ⟨by omega, fun j lo hi => ?_⟩
        by_contra bad
        exact none ⟨j, lo, hi, Bool.eq_not_of_ne bad⟩
      · rintro ⟨-, all⟩ ⟨j, lo, hi, v⟩
        rw [all j lo hi] at v
        simp at v
    simp only [scanLoop, e, Option.bind_eq_bind, Option.bind_some]
    cases c with
    | false =>
      refine .inl ⟨i, rfl, Nat.le_refl i, by omega, run.mp rfl, fun r' lo hi => by omega⟩
    | true =>
      have here : ¬b.Run i cnt value := fun h => by simpa using run.mpr h
      rcases ih (i + 1) (by omega) with ⟨r, er, lo, hi, hr, least⟩ | ⟨er, none⟩
      · refine .inl ⟨r, er, by omega, by omega, hr, fun r' lo' hi' => ?_⟩
        by_cases first : r' = i
        · exact first ▸ here
        · exact least r' (by omega) hi'
      · refine .inr ⟨er, fun r' lo' hi' => ?_⟩
        by_cases first : r' = i
        · exact first ▸ here
        · exact none r' (by omega) (by omega)

/-- First fit: the least run at or after `start`, or `bitmapError` when there is none. -/
theorem bitmapScan_spec (b : Bits) (start cnt : Nat) (value : Bool) (h : start ≤ b.bitCnt) :
    (∃ r, bitmapScan b start cnt value = some r ∧ start ≤ r ∧ b.Run r cnt value ∧
      ∀ r', start ≤ r' → r' < r → ¬b.Run r' cnt value) ∨
    (bitmapScan b start cnt value = some bitmapError ∧
      ∀ r', start ≤ r' → ¬b.Run r' cnt value) := by
  rw [bitmapScan, if_pos h]
  by_cases fits : cnt ≤ b.bitCnt
  · rw [if_pos fits]
    by_cases room : start ≤ b.bitCnt - cnt + 1
    · rcases scanLoop_spec b cnt value (b.bitCnt - cnt + 1 - start) start (by omega) with
        ⟨r, er, lo, hi, hr, least⟩ | ⟨er, none⟩
      · exact .inl ⟨r, er, lo, hr, least⟩
      · refine .inr ⟨er, fun r' lo hr => none r' lo ?_ hr⟩
        have := hr.1
        omega
    · rw [show b.bitCnt - cnt + 1 - start = 0 by omega]
      refine .inr ⟨rfl, fun r' lo hr => ?_⟩
      have := hr.1
      omega
  · rw [if_neg fits]
    refine .inr ⟨rfl, fun r' lo hr => ?_⟩
    have := hr.1
    omega

/-- `b'` is `b` with the run of `cnt` bits at `start` set to `value`. -/
structure Filled (b b' : Bits) (start cnt : Nat) (value : Bool) : Prop where
  bitCnt : b'.bitCnt = b.bitCnt
  bit : ∀ j, b'.bit j = if start ≤ j ∧ j < start + cnt then value else b.bit j

/-- A scan marks the first long enough run of free sectors, if there is one. -/
theorem scanAndFlip_cases (b : Bits) (cnt : Nat) :
    (∃ r b', b.Run r cnt false ∧ (∀ r' < r, ¬b.Run r' cnt false) ∧ Filled b b' r cnt true ∧
      r ≠ bitmapError ∧ bitmapScanAndFlip b 0 cnt false = some (r, b')) ∨
    ((∀ r, ¬b.Run r cnt false) ∧ bitmapScanAndFlip b 0 cnt false = some (bitmapError, b)) := by
  rcases bitmapScan_spec b 0 cnt false (Nat.zero_le _) with ⟨r, scan, -, run, first⟩ | ⟨scan, none⟩
  · obtain ⟨b', set, size, bits⟩ := bitmapSetMultiple_spec b r cnt true run.1
    have bound : r ≠ bitmapError := by
      have lt := b.bitCnt_lt
      have fits := run.1
      simp only [bitmapError]
      omega
    refine .inl ⟨r, b', run, fun r' lt => first r' (Nat.zero_le _) lt, ⟨size, bits⟩, bound, ?_⟩
    simp [bitmapScanAndFlip, scan, bound, set]
  · refine .inr ⟨fun r => none r (Nat.zero_le _), ?_⟩
    simp [bitmapScanAndFlip, scan]

theorem bitmapCreate_spec (n : Nat) (junk : Nat → BitVec 32) (h : n + 31 < 2 ^ 32) :
    ∃ b, bitmapCreate n junk h = some b ∧ b.bitCnt = n ∧ ∀ j < n, b.bit j = false := by
  obtain ⟨b, e, cnt, bits⟩ := bitmapSetMultiple_spec
    ⟨n, (List.range (elemCnt n)).map junk, by simp, h⟩ 0 n false (by simp)
  exact ⟨b, e, cnt, fun j hj => by rw [bits, if_pos (by omega)]⟩

theorem bit_lastMask (b : Bits) (j : Nat) (h : j < 32) :
    (lastMask b).getLsbD j = (decide (b.bitCnt % 32 = 0) || decide (j < b.bitCnt % 32)) := by
  unfold lastMask elemBits
  by_cases whole : b.bitCnt % 32 = 0
  · rw [if_pos whole, BitVec.getLsbD_allOnes]
    simp [whole, h]
  have lt := Nat.mod_lt b.bitCnt (show 0 < 32 by decide)
  have mask : BitVec.twoPow 32 (b.bitCnt % 32) - 1 = BitVec.ofNat 32 (2 ^ (b.bitCnt % 32) - 1) := by
    apply BitVec.eq_of_toNat_eq
    have pos : 0 < 2 ^ (b.bitCnt % 32) := Nat.two_pow_pos _
    have small : 2 ^ (b.bitCnt % 32) < 2 ^ 32 := Nat.pow_lt_pow_right (by decide) lt
    have one : (1 : BitVec 32).toNat = 1 := rfl
    simp only [BitVec.toNat_sub, BitVec.toNat_twoPow, BitVec.toNat_ofNat, one]
    rw [Nat.mod_eq_of_lt small]
    omega
  rw [if_neg whole, mask, BitVec.getLsbD_ofNat, Nat.testBit_two_pow_sub_one]
  simp [whole, h]

theorem bit_bitmapReadBytes (b c : Bits) (same : b.bitCnt = c.bitCnt) (j : Nat)
    (h : j < c.bitCnt) : (bitmapReadBytes b c.bytes).bit j = c.bit j := by
  have lt := c.bitCnt_lt
  have len : b.bits.length = c.bits.length := by rw [b.length_eq, c.length_eq, same]
  have words : readWords b.bits.length c.bytes = c.bits := by
    rw [len, Bits.bytes, readWords_wordBytes]
  have cnt : elemCnt b.bitCnt = (c.bitCnt + 31) / 32 := by rw [same, elemCnt_eq lt]
  have last : elemCnt b.bitCnt - 1 < c.bits.length := by
    rw [c.length_eq, elemCnt_eq lt, cnt]
    omega
  rw [bit_eq_getLsbD, bit_eq_getLsbD]
  simp only [bitmapReadBytes, words]
  rw [List.getD_eq_getElem?_getD, List.getElem?_set]
  by_cases e : elemCnt b.bitCnt - 1 = j / 32
  · have hj := Nat.mod_lt j (show 0 < 32 by decide)
    rw [if_pos e, if_pos last, Option.getD_some, e, BitVec.getLsbD_and, bit_lastMask b _ hj, same]
    have : (decide (c.bitCnt % 32 = 0) || decide (j % 32 < c.bitCnt % 32)) = true := by
      simp only [Bool.or_eq_true, decide_eq_true_eq]
      omega
    rw [this, Bool.and_true]
  · rw [if_neg e, ← List.getD_eq_getElem?_getD]

theorem bitmapReadBytes_congr {b b' : Bits} (cnt : b.bitCnt = b'.bitCnt) (bs : List UInt8) :
    bitmapReadBytes b bs = bitmapReadBytes b' bs := by
  have len : b.bits.length = b'.bits.length := by rw [b.length_eq, b'.length_eq, cnt]
  simp only [bitmapReadBytes, lastMask, len, cnt]

/-- The unused bits of the last word are zero. -/
def Bits.Clean (b : Bits) : Prop := ∀ j, b.bit j = true → j < b.bitCnt

theorem bitmapReadBytes_clean (b : Bits) (bs : List UInt8) : (bitmapReadBytes b bs).Clean := by
  intro j used
  change j < b.bitCnt
  have cnt := elemCnt_eq b.bitCnt_lt
  have len : (readWords b.bits.length bs).length = elemCnt b.bitCnt := by
    rw [readWords_length, b.length_eq]
  by_contra past
  rw [bit_eq_getLsbD] at used
  simp only [bitmapReadBytes] at used
  rw [List.getD_eq_getElem?_getD, List.getElem?_set] at used
  by_cases e : elemCnt b.bitCnt - 1 = j / 32
  · rw [if_pos e] at used
    split_ifs at used with inside
    · have hj := Nat.mod_lt j (show 0 < 32 by decide)
      rw [Option.getD_some, BitVec.getLsbD_and, bit_lastMask b _ hj] at used
      simp only [Bool.and_eq_true, Bool.or_eq_true, decide_eq_true_eq] at used
      omega
    · simp at used
  · rw [if_neg e, List.getElem?_eq_none (by omega)] at used
    simp at used

theorem bitmapReadBytes_bytes {b c : Bits} (same : b.bitCnt = c.bitCnt) (clean : c.Clean) :
    bitmapReadBytes b c.bytes = c := by
  have masked := bitmapReadBytes_clean b c.bytes
  refine Bits.ext_bit (a := bitmapReadBytes b c.bytes) same fun j => ?_
  by_cases lt : j < c.bitCnt
  · exact bit_bitmapReadBytes b c same j lt
  · rw [Bool.eq_false_iff.mpr fun used => lt (clean j used),
      Bool.eq_false_iff.mpr fun used => lt (same ▸ masked j used)]

end Pintos.Bitmap
