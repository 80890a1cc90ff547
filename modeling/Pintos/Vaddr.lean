import Mathlib.Tactic.Common
import Mathlib.Algebra.Group.Nat.Defs
import Mathlib.Algebra.Group.Int.Defs

/-! Virtual addresses of `threads/vaddr.h` and the indices that `threads/pte.h` cuts them
into. -/

namespace Pintos.Vaddr

def pgbits : Nat := 12

def pgsize : Nat := 2 ^ pgbits

def pgmask : BitVec 32 := BitVec.ofNat 32 (2 ^ pgbits - 1)

def ptmask : BitVec 32 := BitVec.ofNat 32 (2 ^ 10 - 1) <<< 12

/-- LOADER_PHYS_BASE: user addresses end here. -/
def physBase : BitVec 32 := 0xc0000000#32

def pgOfs (va : BitVec 32) : BitVec 32 := va &&& pgmask

def pgNo (va : BitVec 32) : BitVec 32 := va >>> pgbits

def pgRoundDown (va : BitVec 32) : BitVec 32 := va &&& ~~~pgmask

def isUserVaddr (va : BitVec 32) : Bool := va < physBase

def ptNo (va : BitVec 32) : BitVec 32 := (va &&& ptmask) >>> 12

def pdNo (va : BitVec 32) : BitVec 32 := va >>> 22

theorem pgmask_getLsbD (i : Nat) : pgmask.getLsbD i = decide (i < 12) := by
  rw [pgmask, BitVec.getLsbD_ofNat, Nat.testBit_two_pow_sub_one, pgbits]
  by_cases h : i < 12
  · have : i < 32 := by omega
    simp [h, this]
  · simp [h]

section

variable (va : BitVec 32)

theorem pgOfs_toNat : (pgOfs va).toNat = va.toNat % 4096 := by
  rw [pgOfs, BitVec.toNat_and]
  exact Nat.and_two_pow_sub_one_eq_mod va.toNat 12

theorem pgOfs_lt : (pgOfs va).toNat < pgsize := by
  rw [pgOfs_toNat]
  exact Nat.mod_lt _ (by decide)

theorem pgNo_toNat : (pgNo va).toNat = va.toNat / 4096 := by
  rw [pgNo, BitVec.toNat_ushiftRight, Nat.shiftRight_eq_div_pow]
  rfl

theorem pgRoundDown_eq : pgRoundDown va = (va >>> 12) <<< 12 := by
  apply BitVec.eq_of_getLsbD_eq
  intro i lt
  rw [pgRoundDown, BitVec.getLsbD_and, BitVec.getLsbD_not, pgmask_getLsbD, BitVec.getLsbD_shiftLeft,
    BitVec.getLsbD_ushiftRight]
  by_cases low : i < 12
  · simp [lt, low]
  · simp [lt, low, show 12 + (i - 12) = i by omega]

theorem pgRoundDown_toNat : (pgRoundDown va).toNat = va.toNat / 4096 * 4096 := by
  have lt := va.isLt
  rw [pgRoundDown_eq, BitVec.toNat_shiftLeft, BitVec.toNat_ushiftRight, Nat.shiftRight_eq_div_pow,
    Nat.shiftLeft_eq]
  omega

theorem pdNo_toNat : (pdNo va).toNat = va.toNat / 4194304 := by
  rw [pdNo, BitVec.toNat_ushiftRight, Nat.shiftRight_eq_div_pow]

theorem ptNo_toNat : (ptNo va).toNat = va.toNat / 4096 % 1024 := by
  have eq : ptNo va = (va >>> 12) &&& BitVec.ofNat 32 (2 ^ 10 - 1) := by
    apply BitVec.eq_of_getLsbD_eq
    intro i lt
    rw [ptNo, ptmask, BitVec.getLsbD_ushiftRight, BitVec.getLsbD_and, BitVec.getLsbD_and,
      BitVec.getLsbD_ushiftRight, BitVec.getLsbD_shiftLeft]
    by_cases high : 12 + i < 32
    · simp [high, lt, show ¬12 + i < 12 by omega]
    · rw [BitVec.getLsbD_of_ge va (12 + i) (by omega)]
      simp
  rw [eq, BitVec.toNat_and, BitVec.toNat_ushiftRight, Nat.shiftRight_eq_div_pow]
  exact Nat.and_two_pow_sub_one_eq_mod _ 10

theorem isUserVaddr_iff : isUserVaddr va = true ↔ va.toNat < 3221225472 := by
  simp only [isUserVaddr, decide_eq_true_eq, BitVec.lt_def]
  rfl

end

end Pintos.Vaddr
