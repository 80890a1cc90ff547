import Mathlib

/-! The 64-bit division and remainder of `lib/arithmetic.c`. Words are bit vectors and the
arithmetic on them is that of two's complement; a division by zero and a quotient of `DIVL`
that needs more than 32 bits are `none`. -/

namespace Pintos.Arithmetic
open BitVec
open Nat (div_add_mod mod_eq_of_lt mod_lt two_pow_pos)

/-- The `DIVL` instruction, a 64-bit by a 32-bit number. -/
def divl (n : BitVec 64) (d : BitVec 32) : Option (BitVec 32) :=
  if d = 0 ∨ 2 ^ 32 ≤ n.toNat / d.toNat then none else some (BitVec.ofNat 32 (n.toNat / d.toNat))

def narrow (bound : BitVec 32) (k : Nat) (p : Nat × BitVec 32) : Nat × BitVec 32 :=
  if p.2 ≤ bound then (p.1 + k, p.2 <<< k) else p

def nlz (x : BitVec 32) : Nat :=
  let p := narrow 0x3fffffff 2 (narrow 0x0fffffff 4 (narrow 0x00ffffff 8
    (narrow 0x0000ffff 16 (0, x))))
  if p.2 ≤ 0x7fffffff then p.1 + 1 else p.1

def udiv64 (n d : BitVec 64) : Option (BitVec 64) :=
  if d >>> 32 = 0 then do
    let b : BitVec 64 := 1 <<< 32
    let n1 := (n >>> 32).setWidth 32
    let n0 := n.setWidth 32
    let d0 := d.setWidth 32
    let q ← divl (b * (n1 % d0).setWidth 64 + n0.setWidth 64) d0
    return q.setWidth 64 + b * (n1 / d0).setWidth 64
  else if n < d then some 0
  else do
    let s := nlz ((d >>> 32).setWidth 32)
    let q ← divl (n >>> 1) (((d <<< s) >>> 32).setWidth 32)
    let q : BitVec 64 := (q >>> (31 - s)).setWidth 64
    return if n - (q - 1) * d < d then q - 1 else q

def umod64 (n d : BitVec 64) : Option (BitVec 32) := do
  let q ← udiv64 n d
  return (n - d * q).setWidth 32

def sdiv64 (n d : BitVec 64) : Option (BitVec 64) := do
  let nAbs := if n.slt 0 then -n else n
  let dAbs := if d.slt 0 then -d else d
  let qAbs ← udiv64 nAbs dAbs
  return if n.slt 0 = d.slt 0 then qAbs else -qAbs

def smod64 (n d : BitVec 64) : Option (BitVec 32) := do
  let q ← sdiv64 n d
  return (n - d * q).setWidth 32

def divdi3 (n d : BitVec 64) : Option (BitVec 64) := sdiv64 n d

def moddi3 (n d : BitVec 64) : Option (BitVec 64) := (smod64 n d).map (·.signExtend 64)

def udivdi3 (n d : BitVec 64) : Option (BitVec 64) := udiv64 n d

def umoddi3 (n d : BitVec 64) : Option (BitVec 64) := (umod64 n d).map (·.setWidth 64)

section Words

theorem toNat_pos {x : BitVec w} (nonzero : x ≠ 0) : 0 < x.toNat :=
  Nat.pos_of_ne_zero fun zero => nonzero (eq_of_toNat_eq zero)

theorem wide_toNat (x : BitVec 32) : (x.setWidth 64).toNat = x.toNat :=
  toNat_setWidth_of_le (by decide)

theorem high_toNat (x : BitVec 64) : ((x >>> 32).setWidth 32).toNat = x.toNat / 2 ^ 32 := by
  have lt := x.isLt
  rw [toNat_setWidth, toNat_ushiftRight, Nat.shiftRight_eq_div_pow, mod_eq_of_lt (by omega)]

theorem high_eq_zero {x : BitVec 64} : x >>> 32 = 0 ↔ x.toNat < 2 ^ 32 := by
  rw [← toNat_inj, toNat_ushiftRight, Nat.shiftRight_eq_div_pow]
  exact Nat.div_eq_zero_iff_lt (two_pow_pos 32)

/-- Below this bound `DIVL` does not trap. -/
theorem divl_spec {n : BitVec 64} {d : BitVec 32} (lt : n.toNat < 2 ^ 32 * d.toNat) :
    ∃ q, divl n d = some q ∧ q.toNat = n.toNat / d.toNat := by
  have nonzero : d ≠ 0 := by
    rintro rfl
    simp at lt
  have less : n.toNat / d.toNat < 2 ^ 32 := Nat.div_lt_of_lt_mul (by rwa [Nat.mul_comm] at lt)
  have fits : ¬(d = 0 ∨ 2 ^ 32 ≤ n.toNat / d.toNat) := not_or.mpr ⟨nonzero, not_le.mpr less⟩
  exact ⟨_, if_neg fits, by rw [toNat_ofNat, mod_eq_of_lt less]⟩

end Words

/-- `p` is `x` shifted by a number of leading zeros, with at most `32 - low` of them left. -/
structure Shifted (x : BitVec 32) (low : Nat) (p : Nat × BitVec 32) : Prop where
  shift : p.2.toNat = x.toNat * 2 ^ p.1
  low : 2 ^ low ≤ p.2.toNat

theorem Shifted.narrow {x : BitVec 32} {p : Nat × BitVec 32} {k : Nat}
    (h : Shifted x (32 - 2 * k) p) (some : 0 < k) (le : k ≤ 16) :
    Shifted x (32 - k) (narrow (BitVec.ofNat 32 (2 ^ (32 - k) - 1)) k p) := by
  have whole := Nat.pow_sub_mul_pow 2 (show k ≤ 32 by omega)
  have half : 2 ^ (32 - 2 * k) * 2 ^ k = 2 ^ (32 - k) := by rw [← Nat.pow_add]; congr 1; omega
  have small : 2 ^ (32 - k) < 2 ^ 32 := Nat.pow_lt_pow_right (by decide) (by omega)
  have bound : (BitVec.ofNat 32 (2 ^ (32 - k) - 1)).toNat = 2 ^ (32 - k) - 1 := by
    rw [toNat_ofNat, mod_eq_of_lt ((Nat.sub_le _ _).trans_lt small)]
  unfold Arithmetic.narrow
  split_ifs with here
  all_goals rw [le_def, bound] at here
  · have fits : p.2.toNat * 2 ^ k < 2 ^ 32 := whole ▸ Nat.mul_lt_mul_of_pos_right
      (Nat.lt_of_le_pred (two_pow_pos _) here) (two_pow_pos k)
    have shifted : (p.2 <<< k).toNat = p.2.toNat * 2 ^ k := by
      rw [toNat_shiftLeft, Nat.shiftLeft_eq, mod_eq_of_lt fits]
    refine ⟨?_, ?_⟩
    · rw [shifted, h.shift, Nat.mul_assoc, ← Nat.pow_add]
    · rw [shifted, ← half]
      exact Nat.mul_le_mul_right _ h.low
  · exact ⟨h.shift, by omega⟩

theorem nlz_spec {x : BitVec 32} (nonzero : x ≠ 0) :
    2 ^ 31 ≤ x.toNat * 2 ^ nlz x ∧ x.toNat * 2 ^ nlz x < 2 ^ 32 := by
  have first : Shifted x (32 - 2 * 16) (0, x) := ⟨(Nat.mul_one _).symm, toNat_pos nonzero⟩
  have last := ((((first.narrow (by decide) (by decide)).narrow (k := 8) (by decide)
    (by decide)).narrow (k := 4) (by decide) (by decide)).narrow (k := 2) (by decide)
    (by decide)).narrow (k := 1) (by decide) (by decide)
  have count : nlz x = (narrow 0x7fffffff 1 (narrow 0x3fffffff 2 (narrow 0x0fffffff 4
      (narrow 0x00ffffff 8 (narrow 0x0000ffff 16 (0, x)))))).1 := by
    rw [nlz]
    generalize narrow 0x3fffffff 2 _ = p
    simp only [narrow]
    split_ifs <;> rfl
  rw [count]
  exact ⟨last.shift ▸ last.low, last.shift ▸ isLt _⟩

theorem normalised {d : BitVec 64} (large : 2 ^ 32 ≤ d.toNat) :
    ∃ s ≤ 31, nlz ((d >>> 32).setWidth 32) = s ∧ 2 ^ 63 ≤ d.toNat * 2 ^ s ∧
      d.toNat * 2 ^ s < 2 ^ 64 := by
  have high := high_toNat d
  have nonzero : (d >>> 32).setWidth 32 ≠ (0 : BitVec 32) := fun zero => by
    have none : d.toNat / 2 ^ 32 = 0 := high.symm.trans (congrArg BitVec.toNat zero)
    omega
  obtain ⟨low, lt⟩ := nlz_spec nonzero
  rw [high] at low lt
  generalize nlz ((d >>> 32).setWidth 32) = s at low lt
  have le : s < 32 := (Nat.pow_lt_pow_iff_right (by decide)).mp
    ((Nat.le_mul_of_pos_left (2 ^ s) (by omega)).trans_lt lt)
  have split := Nat.pow_sub_mul_pow 2 le.le
  have few : d.toNat / 2 ^ 32 + 1 ≤ 2 ^ (32 - s) :=
    Nat.lt_of_mul_lt_mul_right (lt.trans_eq split.symm)
  refine ⟨s, by omega, rfl, ?_, ?_⟩
  · calc 2 ^ 63 = 2 ^ 32 * 2 ^ 31 := by norm_num
      _ ≤ 2 ^ 32 * (d.toNat / 2 ^ 32 * 2 ^ s) := Nat.mul_le_mul_left _ low
      _ = 2 ^ 32 * (d.toNat / 2 ^ 32) * 2 ^ s := (Nat.mul_assoc ..).symm
      _ ≤ d.toNat * 2 ^ s := Nat.mul_le_mul_right _ (Nat.mul_div_le _ _)
  calc d.toNat * 2 ^ s < 2 ^ 32 * (d.toNat / 2 ^ 32 + 1) * 2 ^ s :=
      Nat.mul_lt_mul_of_pos_right (Nat.lt_mul_div_succ _ (two_pow_pos 32)) (two_pow_pos s)
    _ ≤ 2 ^ 32 * 2 ^ (32 - s) * 2 ^ s :=
      Nat.mul_le_mul_right _ (Nat.mul_le_mul_left _ few)
    _ = 2 ^ 64 := by rw [Nat.mul_assoc, split]; rfl

/-- The estimate of the quotient is exact or one too large. -/
theorem estimate {n d s : Nat} (le : s ≤ 31) (low : 2 ^ 63 ≤ d * 2 ^ s) (lt : n < 2 ^ 64) :
    n / d ≤ n / 2 / (d * 2 ^ s / 2 ^ 32) / 2 ^ (31 - s) ∧
      n / 2 / (d * 2 ^ s / 2 ^ 32) / 2 ^ (31 - s) ≤ n / d + 1 := by
  have power := Nat.pow_sub_mul_pow 2 (show s ≤ 32 by omega)
  have top := Nat.pow_sub_mul_pow 2 (show s ≤ 63 by omega)
  generalize hv : d * 2 ^ s / 2 ^ 32 = v
  -- The divisor without its low bits.
  have whole : n / 2 / v / 2 ^ (31 - s) = n / (v * 2 ^ (32 - s)) := by
    have half : 2 ^ (32 - s) = 2 * 2 ^ (31 - s) := by rw [← Nat.pow_succ']; congr 1; omega
    rw [Nat.div_div_eq_div_mul, Nat.div_div_eq_div_mul, half]
    congr 1
    ring
  have below : v * 2 ^ (32 - s) ≤ d := by
    refine Nat.le_of_mul_le_mul_right ?_ (two_pow_pos s)
    rw [Nat.mul_assoc, power, ← hv]
    exact Nat.div_mul_le_self _ _
  have above : d < (v + 1) * 2 ^ (32 - s) := by
    refine Nat.lt_of_mul_lt_mul_right (a := 2 ^ s) ?_
    rw [Nat.mul_assoc, power, ← hv, Nat.mul_comm (_ + 1)]
    exact Nat.lt_mul_div_succ _ (two_pow_pos 32)
  have large : 2 ^ (63 - s) ≤ d := Nat.le_of_mul_le_mul_right (top.trans_le low) (two_pow_pos s)
  have big : 2 ^ (63 - s) ≤ v * 2 ^ (32 - s) := by
    have split : 2 ^ (63 - s) = 2 ^ 31 * 2 ^ (32 - s) := by rw [← Nat.pow_add]; congr 1; omega
    rw [split, ← hv]
    exact Nat.mul_le_mul_right _ ((Nat.le_div_iff_mul_le (by decide)).mpr low)
  have few : n / d + 1 ≤ 2 ^ (s + 1) := by
    have split : 2 ^ 64 = 2 ^ (63 - s) * 2 ^ (s + 1) := by rw [← Nat.pow_add]; congr 1; omega
    exact Nat.div_lt_of_lt_mul ((lt.trans_eq split).trans_le (Nat.mul_le_mul_right _ large))
  have room : 2 ^ (s + 1) * (2 ^ (32 - s) - 1) ≤ 2 ^ (63 - s) := by
    have all : ∀ s ≤ 31, 2 ^ (s + 1) * (2 ^ (32 - s) - 1) ≤ 2 ^ (63 - s) := by decide
    exact all s le
  have positive : 0 < v * 2 ^ (32 - s) := (two_pow_pos _).trans_le big
  rw [whole]
  refine ⟨Nat.div_le_div_left below positive, Nat.lt_succ_iff.mp ?_⟩
  rw [Nat.div_lt_iff_lt_mul positive]
  calc n < d * (n / d + 1) := Nat.lt_mul_div_succ n (by omega)
    _ ≤ (v * 2 ^ (32 - s) + (2 ^ (32 - s) - 1)) * (n / d + 1) := by
      refine Nat.mul_le_mul_right _ ?_
      rw [Nat.succ_mul] at above
      omega
    _ = v * 2 ^ (32 - s) * (n / d + 1) + (n / d + 1) * (2 ^ (32 - s) - 1) := by ring
    _ ≤ v * 2 ^ (32 - s) * (n / d + 1) + v * 2 ^ (32 - s) := by
      refine Nat.add_le_add_left ?_ _
      exact (Nat.mul_le_mul_right _ few).trans (room.trans big)
    _ = (n / d + 1 + 1) * (v * 2 ^ (32 - s)) := by ring

theorem corrected {n d q : BitVec 64} (le : d.toNat ≤ n.toNat) (positive : 0 < d.toNat)
    (low : n.toNat / d.toNat ≤ q.toNat) (high : q.toNat ≤ n.toNat / d.toNat + 1) :
    (if n - (q - 1) * d < d then q - 1 else q) = n / d := by
  have some : 1 ≤ n.toNat / d.toNat := (Nat.one_le_div_iff positive).mpr le
  have pred : (q - 1).toNat = q.toNat - 1 := toNat_sub_of_le (le_def.mpr (some.trans low))
  have split := div_add_mod n.toNat d.toNat
  have rest := mod_lt n.toNat positive
  have below : (q.toNat - 1) * d.toNat ≤ n.toNat :=
    (Nat.mul_le_mul_right _ (by omega)).trans (Nat.div_mul_le_self n.toNat d.toNat)
  have product : ((q - 1) * d).toNat = (q.toNat - 1) * d.toNat := by
    rw [toNat_mul, pred, mod_eq_of_lt (below.trans_lt n.isLt)]
  have left : (n - (q - 1) * d).toNat = n.toNat - (q.toNat - 1) * d.toNat := by
    rw [toNat_sub_of_le (by rwa [le_def, product]), product]
  apply eq_of_toNat_eq
  rw [toNat_udiv]
  rcases Nat.lt_or_ge q.toNat (n.toNat / d.toNat + 1) with exactly | more
  · have same : q.toNat = n.toNat / d.toNat := by omega
    rw [if_neg, same]
    rw [lt_def, left, same, Nat.sub_mul, Nat.one_mul, Nat.mul_comm]
    omega
  · have same : q.toNat = n.toNat / d.toNat + 1 := by omega
    rw [if_pos, pred, same, Nat.add_sub_cancel]
    rw [lt_def, left, same, Nat.add_sub_cancel, Nat.mul_comm]
    omega

theorem udiv64_large {n d : BitVec 64} (large : 2 ^ 32 ≤ d.toNat) (le : d.toNat ≤ n.toNat) :
    udiv64 n d = some (n / d) := by
  have lt := n.isLt
  obtain ⟨s, less, shift, low, high⟩ := normalised large
  have top : (((d <<< s) >>> 32).setWidth 32).toNat = d.toNat * 2 ^ s / 2 ^ 32 := by
    rw [high_toNat, toNat_shiftLeft, Nat.shiftLeft_eq, mod_eq_of_lt high]
  have half : (n >>> 1).toNat = n.toNat / 2 := by
    rw [toNat_ushiftRight, Nat.shiftRight_eq_div_pow, Nat.pow_one]
  obtain ⟨q, run, value⟩ := divl_spec (n := n >>> 1) (d := ((d <<< s) >>> 32).setWidth 32)
    (by rw [half, top]; omega)
  have quotient : ((q >>> (31 - s)).setWidth 64).toNat =
      n.toNat / 2 / (d.toNat * 2 ^ s / 2 ^ 32) / 2 ^ (31 - s) := by
    rw [wide_toNat, toNat_ushiftRight, Nat.shiftRight_eq_div_pow, value, half, top]
  obtain ⟨under, above⟩ := estimate less low lt
  rw [udiv64, if_neg (mt high_eq_zero.mp (by omega)), if_neg (by rw [lt_def]; omega), shift]
  simp only [Option.bind_eq_bind, run, Option.bind_some]
  exact congrArg some (corrected le (by omega) (quotient ▸ under) (quotient ▸ above))

theorem div_eq_high {n d b : Nat} (positive : 0 < d) :
    n / d = (b * (n / b % d) + n % b) / d + b * (n / b / d) := by
  rw [← Nat.add_mul_div_left _ _ positive]
  congr 1
  calc n = b * (n / b) + n % b := (div_add_mod ..).symm
    _ = b * (d * (n / b / d) + n / b % d) + n % b := by rw [div_add_mod (n / b)]
    _ = _ := by ring

theorem udiv64_small {n d : BitVec 64} (small : d.toNat < 2 ^ 32) (positive : 0 < d.toNat) :
    udiv64 n d = some (n / d) := by
  have base : ∀ x : BitVec 32, ((1 <<< 32 : BitVec 64) * x.setWidth 64).toNat = 2 ^ 32 * x.toNat :=
    fun x => by
      have := x.isLt
      rw [toNat_mul, wide_toNat, show (1 <<< 32 : BitVec 64).toNat = 2 ^ 32 from rfl,
        mod_eq_of_lt (by omega)]
  have divisor : (d.setWidth 32).toNat = d.toNat := by rw [toNat_setWidth, mod_eq_of_lt small]
  have less := mod_lt (n.toNat / 2 ^ 32) positive
  have dividend : ((1 <<< 32 : BitVec 64) * ((n >>> 32).setWidth 32 % d.setWidth 32).setWidth 64 +
      (n.setWidth 32).setWidth 64).toNat =
        2 ^ 32 * (n.toNat / 2 ^ 32 % d.toNat) + n.toNat % 2 ^ 32 := by
    rw [toNat_add, base, toNat_umod, high_toNat, divisor, wide_toNat, toNat_setWidth,
      mod_eq_of_lt (by omega)]
  obtain ⟨q, run, value⟩ := divl_spec (d := d.setWidth 32) (n := (1 <<< 32 : BitVec 64) *
    ((n >>> 32).setWidth 32 % d.setWidth 32).setWidth 64 + (n.setWidth 32).setWidth 64)
    (by rw [dividend, divisor]; omega)
  have fits := (Nat.div_le_self n.toNat d.toNat).trans_lt n.isLt
  simp only [udiv64, if_pos (high_eq_zero.mpr small), Option.bind_eq_bind, run, Option.bind_some]
  refine congrArg some (eq_of_toNat_eq ?_)
  rw [toNat_add, wide_toNat, base, value, dividend, toNat_udiv, high_toNat, divisor, toNat_udiv,
    ← div_eq_high positive, mod_eq_of_lt fits]

theorem udiv64_eq (n : BitVec 64) {d : BitVec 64} (nonzero : d ≠ 0) :
    udiv64 n d = some (n / d) := by
  rcases Nat.lt_or_ge d.toNat (2 ^ 32) with small | large
  · exact udiv64_small small (toNat_pos nonzero)
  rcases Nat.lt_or_ge n.toNat d.toNat with less | le
  · rw [udiv64, if_neg (mt high_eq_zero.mp (by omega)), if_pos (lt_def.mpr less)]
    refine congrArg some (eq_of_toNat_eq ?_)
    rw [toNat_udiv, Nat.div_eq_of_lt less]
    rfl
  · exact udiv64_large large le

theorem sdiv64_eq (n : BitVec 64) {d : BitVec 64} (nonzero : d ≠ 0) :
    sdiv64 n d = some (n.sdiv d) := by
  have negated : -d ≠ 0 := fun zero => nonzero (neg_eq_zero_iff.mp zero)
  rw [sdiv64, sdiv_eq]
  cases hn : n.msb <;> cases hd : d.msb <;>
    simp [slt_zero_eq_msb, hn, hd, udiv64_eq _ nonzero, udiv64_eq _ negated]

/-- Both divisions are exact, and `DIVL` does not trap in them. -/
theorem division_exact (n d : BitVec 64) (nonzero : d ≠ 0) :
    (udiv64 n d).map BitVec.toNat = some (n.toNat / d.toNat) ∧
      (¬ (n = intMin 64 ∧ d = -1) →
        (sdiv64 n d).map BitVec.toInt = some (n.toInt.tdiv d.toInt)) := by
  refine ⟨?_, fun other => ?_⟩
  · rw [udiv64_eq n nonzero, Option.map_some, toNat_udiv]
  · rw [sdiv64_eq n nonzero, Option.map_some, toInt_sdiv_of_ne_or_ne _ _ (not_and_or.mp other)]

theorem division_exact_seven : (udiv64 7 2).map BitVec.toNat = some 3 ∧
    (sdiv64 (-7) 2).map BitVec.toInt = some (-3) :=
  ⟨(division_exact 7 2 (by decide)).1, (division_exact (-7) 2 (by decide)).2 (by decide)⟩

theorem umoddi3_eq (n : BitVec 64) {d : BitVec 64} (nonzero : d ≠ 0) :
    umoddi3 n d = some (((n % d).setWidth 32).setWidth 64) := by
  have rest : n - d * (n / d) = n % d := by
    have below := Nat.mul_div_le n.toNat d.toNat
    have product : (d * (n / d)).toNat = d.toNat * (n.toNat / d.toNat) := by
      rw [toNat_mul, toNat_udiv, mod_eq_of_lt (below.trans_lt n.isLt)]
    apply eq_of_toNat_eq
    rw [toNat_sub_of_le (by rwa [le_def, product]), product, toNat_umod, Nat.mod_eq_sub]
  simp [umoddi3, umod64, udiv64_eq n nonzero, rest]

theorem moddi3_eq {n d : BitVec 64} (nonzero : d ≠ 0) (other : ¬ (n = intMin 64 ∧ d = -1)) :
    moddi3 n d = some (((n.srem d).setWidth 32).signExtend 64) := by
  have rest : n - d * n.sdiv d = n.srem d := by
    apply eq_of_toInt_eq
    rw [toInt_sub, toInt_mul, toInt_sdiv_of_ne_or_ne _ _ (not_and_or.mp other),
      Int.sub_bmod_bmod, ← Int.tmod_def, ← toInt_srem, toInt_bmod_cancel]
  simp [moddi3, smod64, sdiv64_eq n nonzero, rest]

theorem signExtend_setWidth {x : BitVec 64} (fits : -2 ^ 31 ≤ x.toInt ∧ x.toInt < 2 ^ 31) :
    (x.setWidth 32).signExtend 64 = x := by
  have whole := toInt_eq_toNat_cond x
  apply eq_of_toInt_eq
  rw [toInt_signExtend_of_le (by decide), toInt_setWidth, Int.bmod_def]
  split_ifs at whole ⊢ <;> omega

end Pintos.Arithmetic
