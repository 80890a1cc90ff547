import Pintos.Bitmap

/-! The scans of `lib/kernel/bitmap.c` with their indices in 32-bit registers. Every index that
they compute is the same number as without a bound on its size, so the scans over `Nat` are
those of the machine. -/

namespace Pintos.BitmapScan
open Bitmap (Bits bitmapSet bitmapTest Filled bitmapError)
open BitVec (le_def lt_def toNat_add toNat_ofNat)

/-- The loop of `bitmap_contains`; there is no more fuel after 2³² rounds. -/
def containsLoop (b : Bits) (start cnt : BitVec 32) (value : Bool) :
    (fuel : Nat) → (i : BitVec 32) → Option Bool
  | 0, _ => none
  | fuel + 1, i =>
    if i < cnt then do
      let t ← bitmapTest b (start + i).toNat
      if t = value then some true else containsLoop b start cnt value fuel (i + 1)
    else some false

def bitmapContains (b : Bits) (start cnt : BitVec 32) (value : Bool) : Option Bool :=
  if start.toNat ≤ b.bitCnt ∧ (start + cnt).toNat ≤ b.bitCnt then
    containsLoop b start cnt value (2 ^ 32) 0
  else none

def setLoop (start cnt : BitVec 32) (value : Bool) :
    (fuel : Nat) → (i : BitVec 32) → Bits → Option Bits
  | 0, _, _ => none
  | fuel + 1, i, b =>
    if i < cnt then do
      let b ← bitmapSet b (start + i).toNat value
      setLoop start cnt value fuel (i + 1) b
    else some b

def bitmapSetMultiple (b : Bits) (start cnt : BitVec 32) (value : Bool) : Option Bits :=
  if start.toNat ≤ b.bitCnt ∧ (start + cnt).toNat ≤ b.bitCnt then
    setLoop start cnt value (2 ^ 32) 0 b
  else none

def scanLoop (b : Bits) (last cnt : BitVec 32) (value : Bool) :
    (fuel : Nat) → (i : BitVec 32) → Option (BitVec 32)
  | 0, _ => none
  | fuel + 1, i =>
    if i ≤ last then do
      let c ← bitmapContains b i cnt (!value)
      if !c then some i else scanLoop b last cnt value fuel (i + 1)
    else some (BitVec.ofNat 32 bitmapError)

def bitmapScan (b : Bits) (start cnt : BitVec 32) (value : Bool) : Option (BitVec 32) :=
  if start.toNat ≤ b.bitCnt then
    if cnt ≤ BitVec.ofNat 32 b.bitCnt then
      scanLoop b (BitVec.ofNat 32 b.bitCnt - cnt) cnt value (2 ^ 32) start
    else some (BitVec.ofNat 32 bitmapError)
  else none

def bitmapScanAndFlip (b : Bits) (start cnt : BitVec 32) (value : Bool) :
    Option (BitVec 32 × Bits) := do
  let idx ← bitmapScan b start cnt value
  if idx ≠ BitVec.ofNat 32 bitmapError then do
    let b ← bitmapSetMultiple b idx cnt (!value)
    return (idx, b)
  else return (idx, b)

variable {b : Bits} {start cnt i : BitVec 32} {value : Bool} {n fuel : Nat}

theorem add_one_toNat (small : i.toNat + 1 < 2 ^ 32) : (i + 1).toNat = i.toNat + 1 := by
  bv_omega

theorem containsLoop_eq (fits : start.toNat + cnt.toNat ≤ b.bitCnt)
    (left : i.toNat + n = cnt.toNat) (enough : n < fuel) :
    containsLoop b start cnt value fuel i =
      Bitmap.containsLoop b value n (start.toNat + i.toNat) := by
  have small := b.bitCnt_lt
  have place : (start + i).toNat = start.toNat + i.toNat := by
    rw [toNat_add]
    omega
  induction n generalizing i fuel with
  | zero =>
    obtain _ | fuel := fuel
    · omega
    have done : ¬i < cnt := by
      rw [lt_def]
      omega
    rw [containsLoop, if_neg done]
    rfl
  | succ n ih =>
    obtain _ | fuel := fuel
    · omega
    have more : i < cnt := by
      rw [lt_def]
      omega
    have next : (i + 1).toNat = i.toNat + 1 := add_one_toNat (by omega)
    have place' : (start + (i + 1)).toNat = start.toNat + (i + 1).toNat := by
      rw [toNat_add]
      omega
    have rest : containsLoop b start cnt value fuel (i + 1) = _ := ih (by omega) (by omega) place'
    rw [next] at rest
    rw [containsLoop, if_pos more, Bitmap.containsLoop, place, rest, Nat.add_assoc]

theorem bitmapContains_eq (fits : start.toNat + cnt.toNat ≤ b.bitCnt) :
    bitmapContains b start cnt value = Bitmap.bitmapContains b start.toNat cnt.toNat value := by
  have zero : (0 : BitVec 32).toNat = 0 := rfl
  have loop : containsLoop b start cnt value (2 ^ 32) 0 = _ :=
    containsLoop_eq fits (by rw [zero, Nat.zero_add]) cnt.isLt
  rw [zero, Nat.add_zero] at loop
  rw [bitmapContains, Bitmap.bitmapContains, toNat_add, loop]

theorem setLoop_eq (fits : start.toNat + cnt.toNat < 2 ^ 32) (left : i.toNat + n = cnt.toNat)
    (enough : n < fuel) :
    setLoop start cnt value fuel i b = Bitmap.setLoop value n (start.toNat + i.toNat) b := by
  induction n generalizing i fuel b with
  | zero =>
    obtain _ | fuel := fuel
    · omega
    have done : ¬i < cnt := by
      rw [lt_def]
      omega
    rw [setLoop, if_neg done]
    rfl
  | succ n ih =>
    obtain _ | fuel := fuel
    · omega
    have more : i < cnt := by
      rw [lt_def]
      omega
    have place : (start + i).toNat = start.toNat + i.toNat := by
      rw [toNat_add]
      omega
    have next : (i + 1).toNat = i.toNat + 1 := add_one_toNat (by omega)
    rw [setLoop, if_pos more, Bitmap.setLoop, place]
    refine bind_congr fun b' => ?_
    rw [ih (by omega) (by omega), next, Nat.add_assoc]

theorem bitmapSetMultiple_eq (fits : start.toNat + cnt.toNat ≤ b.bitCnt) :
    bitmapSetMultiple b start cnt value =
      Bitmap.bitmapSetMultiple b start.toNat cnt.toNat value := by
  have small := b.bitCnt_lt
  have zero : (0 : BitVec 32).toNat = 0 := rfl
  have loop : setLoop start cnt value (2 ^ 32) 0 b = _ :=
    setLoop_eq (by omega) (by rw [zero, Nat.zero_add]) cnt.isLt
  rw [zero, Nat.add_zero] at loop
  rw [bitmapSetMultiple, Bitmap.bitmapSetMultiple, toNat_add, loop]

theorem scanLoop_eq {last : BitVec 32} (fits : last.toNat + cnt.toNat ≤ b.bitCnt)
    (left : i.toNat + n = last.toNat + 1 ∨ n = 0 ∧ last.toNat < i.toNat) (enough : n < fuel) :
    scanLoop b last cnt value fuel i =
      (Bitmap.scanLoop b cnt.toNat value n i.toNat).map (BitVec.ofNat 32) := by
  have small := b.bitCnt_lt
  induction n generalizing i fuel with
  | zero =>
    obtain _ | fuel := fuel
    · omega
    have done : ¬i ≤ last := by
      rw [le_def]
      omega
    rw [scanLoop, if_neg done]
    rfl
  | succ n ih =>
    obtain _ | fuel := fuel
    · omega
    have more : i ≤ last := by
      rw [le_def]
      omega
    have next : (i + 1).toNat = i.toNat + 1 := add_one_toNat (by omega)
    have rest : scanLoop b last cnt value fuel (i + 1) = _ := ih (.inl (by omega)) (by omega)
    have fits' : i.toNat + cnt.toNat ≤ b.bitCnt := by omega
    rw [next] at rest
    rw [scanLoop, if_pos more, Bitmap.scanLoop, bitmapContains_eq fits', rest]
    cases Bitmap.bitmapContains b i.toNat cnt.toNat (!value) with
    | none => rfl
    | some c => cases c <;> simp

theorem bitmapScan_eq (b : Bits) (start cnt : BitVec 32) (value : Bool) :
    bitmapScan b start cnt value =
      (Bitmap.bitmapScan b start.toNat cnt.toNat value).map (BitVec.ofNat 32) := by
  have small := b.bitCnt_lt
  have size : (BitVec.ofNat 32 b.bitCnt).toNat = b.bitCnt := by
    rw [toNat_ofNat]
    omega
  have fit : cnt ≤ BitVec.ofNat 32 b.bitCnt ↔ cnt.toNat ≤ b.bitCnt := by rw [le_def, size]
  unfold bitmapScan Bitmap.bitmapScan
  by_cases inside : start.toNat ≤ b.bitCnt
  · rw [if_pos inside, if_pos inside]
    by_cases room : cnt.toNat ≤ b.bitCnt
    · have last : (BitVec.ofNat 32 b.bitCnt - cnt).toNat = b.bitCnt - cnt.toNat := by
        rw [BitVec.toNat_sub, size]
        omega
      rw [if_pos (fit.mpr room), if_pos room]
      exact scanLoop_eq (by omega) (by omega) (by omega)
    · rw [if_neg (fun le => room (fit.mp le)), if_neg room]
      rfl
  · rw [if_neg inside, if_neg inside]
    rfl

/-- `idx` is the least place at or after `start` where `cnt` bits equal `value`; when there is
none it is the error value. -/
def FirstFit (b : Bits) (start cnt : Nat) (value : Bool) (idx : Nat) : Prop :=
  (start ≤ idx ∧ b.Run idx cnt value ∧ ∀ i, start ≤ i → i < idx → ¬b.Run i cnt value) ∨
    (idx = bitmapError ∧ ∀ i, start ≤ i → ¬b.Run i cnt value)

/-- The scan finds the first fit. The flip returns the same place and changes the bits of the
run there and no others. No index wraps around: in the registers of the machine both functions
compute what they compute in numbers without a bound. -/
theorem scan_first_fit (b : Bits) (start cnt : BitVec 32) (value : Bool)
    (inside : start.toNat ≤ b.bitCnt) :
    ∃ (idx : BitVec 32) (b' : Bits),
      bitmapScan b start cnt value = some idx ∧
      bitmapScanAndFlip b start cnt value = some (idx, b') ∧
      FirstFit b start.toNat cnt.toNat value idx.toNat ∧
      (idx.toNat = bitmapError ↔ ∀ i, start.toNat ≤ i → ¬b.Run i cnt.toNat value) ∧
      (idx.toNat ≠ bitmapError → Filled b b' idx.toNat cnt.toNat (!value)) ∧
      (idx.toNat = bitmapError → b' = b) ∧
      Bitmap.bitmapScan b start.toNat cnt.toNat value = some idx.toNat ∧
      Bitmap.bitmapScanAndFlip b start.toNat cnt.toNat value = some (idx.toNat, b') := by
  have error : (BitVec.ofNat 32 bitmapError).toNat = bitmapError := rfl
  have scan := bitmapScan_eq b start cnt value
  rcases Bitmap.bitmapScan_spec b start.toNat cnt.toNat value inside with
    ⟨r, found, low, run, first⟩ | ⟨found, none⟩
  · have small := b.bitCnt_lt
    have inside := run.1
    have bound : r < bitmapError := by
      simp only [bitmapError]
      omega
    have same : (BitVec.ofNat 32 r).toNat = r := by
      rw [toNat_ofNat, Nat.mod_eq_of_lt (by omega)]
    obtain ⟨b', set, size, bits⟩ := Bitmap.bitmapSetMultiple_spec b r cnt.toNat (!value) run.1
    have fits : (BitVec.ofNat 32 r).toNat + cnt.toNat ≤ b.bitCnt := by
      rw [same]
      exact run.1
    have set' : bitmapSetMultiple b (BitVec.ofNat 32 r) cnt (!value) = _ :=
      bitmapSetMultiple_eq fits
    have apart : BitVec.ofNat 32 r ≠ BitVec.ofNat 32 bitmapError := by
      intro equal
      rw [← same, equal, error] at bound
      exact Nat.lt_irrefl _ bound
    rw [found, Option.map_some] at scan
    rw [same, set] at set'
    refine ⟨BitVec.ofNat 32 r, b', scan, ?_, ?_, ?_, ?_, ?_, ?_, ?_⟩
    · simp [bitmapScanAndFlip, scan, apart, set']
    · rw [same]
      exact .inl ⟨low, run, first⟩
    · rw [same]
      exact ⟨fun equal => absurd equal (Nat.ne_of_lt bound), fun none => absurd run (none r low)⟩
    · rw [same]
      exact fun _ => ⟨size, bits⟩
    · rw [same]
      exact fun equal => absurd equal (Nat.ne_of_lt bound)
    · rw [same, found]
    · rw [same]
      simp [Bitmap.bitmapScanAndFlip, found, Nat.ne_of_lt bound, set]
  · rw [found, Option.map_some] at scan
    refine ⟨BitVec.ofNat 32 bitmapError, b, scan, ?_, .inr ⟨error, none⟩, ?_, ?_, ?_, ?_, ?_⟩
    · simp [bitmapScanAndFlip, scan]
    · exact ⟨fun _ => none, fun _ => error⟩
    · exact fun apart => absurd error apart
    · exact fun _ => rfl
    · rw [found, error]
    · simp [Bitmap.bitmapScanAndFlip, found, error]

def forty : Bits := ⟨40, [0x7fffffff, 0], rfl, by decide⟩

theorem scan_first_fit_forty : (5 : BitVec 32).toNat ≤ forty.bitCnt ∧
    ∃ (idx : BitVec 32) (b' : Bits), bitmapScanAndFlip forty 5 4 false = some (idx, b') ∧
      FirstFit forty 5 4 false idx.toNat := by
  obtain ⟨idx, b', -, flip, fit, -⟩ := scan_first_fit forty 5 4 false (by decide)
  exact ⟨by decide, idx, b', flip, fit⟩

end Pintos.BitmapScan
