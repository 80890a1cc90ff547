import Pintos.Palloc

/-! `palloc_init`: how the two pools and their bitmaps are laid out in memory. It runs on the page
tables of `start.S`, which map 64 MB at `physBase`, and before there is a handler for page faults,
so a bitmap that does not lie there is never written. -/

namespace Pintos.PallocInit
open Bitmap Vaddr Palloc
open BitVec (lt_def toNat_add toNat_mul toNat_ofNat toNat_sub toNat_udiv udiv_eq)

def ptov (paddr : BitVec 32) : Except Stop (BitVec 32) :=
  if paddr < physBase then .ok (paddr + physBase) else .error .panic

def mappedEnd : Nat := physBase.toNat + 2 ^ 26

def sizeofBitmap : Nat := 8

def bitmapBufSize (bitCnt : Nat) : Nat := sizeofBitmap + byteCnt bitCnt

theorem bitCnt_of_mapped {block bitCnt : Nat} (h : physBase.toNat ≤ block ∧
    block + sizeofBitmap + 4 * ((bitCnt + 31) / 32) ≤ mappedEnd) : bitCnt + 31 < 2 ^ 32 := by
  unfold mappedEnd at h
  omega

/-- A bitmap in the `blockSize` bytes at `block`; the words under its bits are all written. -/
def bitmapCreateInBuf (bitCnt block blockSize : Nat) (junk : Nat → BitVec 32) : Except Stop Bits :=
  if blockSize < bitmapBufSize bitCnt then .error .panic
  else if h : physBase.toNat ≤ block ∧
      block + sizeofBitmap + 4 * ((bitCnt + 31) / 32) ≤ mappedEnd then
    match bitmapCreate bitCnt junk (bitCnt_of_mapped h) with
    | some map => .ok map
    | none => .error .panic
  else .error .halt

structure PoolStart where
  usedMap : Bits
  mapAddr : BitVec 32
  base : BitVec 32

def initPool (base pageCnt : BitVec 32) (junk : Nat → BitVec 32) : Except Stop PoolStart := do
  let bmPages := (BitVec.ofNat 32 (bitmapBufSize pageCnt.toNat) + BitVec.ofNat 32 pgsize - 1) /
    BitVec.ofNat 32 pgsize
  if pageCnt < bmPages then .error .panic
  else
    let pageCnt := pageCnt - bmPages
    let usedMap ← bitmapCreateInBuf pageCnt.toNat base.toNat (bmPages * BitVec.ofNat 32 pgsize).toNat
      junk
    .ok ⟨usedMap, base, base + bmPages * BitVec.ofNat 32 pgsize⟩

/-- `palloc_init`, with what was in memory where the bitmaps go. -/
def pallocInit (initRamPages userPageLimit : BitVec 32) (junk : BitVec 32 → Nat → BitVec 32) :
    Except Stop (PoolStart × PoolStart) := do
  let freeStart ← ptov (1024 * 1024)
  let freeEnd ← ptov (initRamPages * BitVec.ofNat 32 pgsize)
  let freePages := (freeEnd - freeStart).sdiv (BitVec.ofNat 32 pgsize)
  let userPages := freePages / 2
  let userPages := if userPageLimit < userPages then userPageLimit else userPages
  let kernelPages := freePages - userPages
  let kernelPool ← initPool freeStart kernelPages (junk freeStart)
  let userBase := freeStart + kernelPages * BitVec.ofNat 32 pgsize
  let userPool ← initPool userBase userPages (junk userBase)
  .ok (kernelPool, userPool)

/-- The memory of a pool, in order: its bitmap, then its pages. -/
structure Placed (p : PoolStart) (first last : Nat) : Prop where
  map : first = p.mapAddr.toNat
  room : p.mapAddr.toNat + bitmapBufSize p.usedMap.bitCnt ≤ p.base.toNat
  aligned : p.base.toNat % pgsize = 0
  pages : p.base.toNat + pgsize * p.usedMap.bitCnt = last
  clear : ∀ i < p.usedMap.bitCnt, p.usedMap.bit i = false

theorem bitmapCreateInBuf_ok {bitCnt block blockSize : Nat} {junk : Nat → BitVec 32} {map : Bits}
    (h : bitmapCreateInBuf bitCnt block blockSize junk = .ok map) :
    bitmapBufSize bitCnt ≤ blockSize ∧ physBase.toNat ≤ block ∧
      block + sizeofBitmap + 4 * ((bitCnt + 31) / 32) ≤ mappedEnd ∧ map.bitCnt = bitCnt ∧
      ∀ i < bitCnt, map.bit i = false := by
  rw [bitmapCreateInBuf] at h
  by_cases small : blockSize < bitmapBufSize bitCnt
  · rw [if_pos small] at h
    cases h
  rw [if_neg small] at h
  by_cases mapped : physBase.toNat ≤ block ∧
      block + sizeofBitmap + 4 * ((bitCnt + 31) / 32) ≤ mappedEnd
  · rw [dif_pos mapped] at h
    obtain ⟨b, create, cnt, bits⟩ := bitmapCreate_spec bitCnt junk (bitCnt_of_mapped mapped)
    simp only [create] at h
    cases h
    exact ⟨Nat.le_of_not_lt small, mapped.1, mapped.2, cnt, bits⟩
  · rw [dif_neg mapped] at h
    cases h

theorem bmPages_toNat (n : Nat) :
    ((BitVec.ofNat 32 (bitmapBufSize n) + BitVec.ofNat 32 pgsize - 1) /
      BitVec.ofNat 32 pgsize).toNat = (bitmapBufSize n + 4095) / 4096 ∧
    bitmapBufSize n ≤ 2 ^ 29 + 8 := by
  have one : (1 : BitVec 32).toNat = 1 := rfl
  have page : 2 ^ 12 % 2 ^ 32 = 4096 := rfl
  have words : elemCnt n < 2 ^ 27 := by
    unfold elemCnt elemBits
    omega
  have size : bitmapBufSize n = 8 + 4 * elemCnt n := rfl
  simp only [toNat_udiv, toNat_sub, toNat_add, toNat_ofNat, one, pgsize, pgbits, page]
  omega

theorem initPool_ok {base pageCnt : BitVec 32} {junk : Nat → BitVec 32} {p : PoolStart}
    (h : initPool base pageCnt junk = .ok p) (aligned : base.toNat % 4096 = 0) :
    physBase.toNat ≤ base.toNat ∧ base.toNat ≤ mappedEnd ∧ pageCnt.toNat < 2 ^ 30 ∧
      0 < pageCnt.toNat ∧ Placed p base.toNat (base.toNat + 4096 * pageCnt.toNat) := by
  rw [initPool] at h
  obtain ⟨value, most⟩ := bmPages_toNat pageCnt.toNat
  generalize (BitVec.ofNat 32 (bitmapBufSize pageCnt.toNat) + BitVec.ofNat 32 pgsize - 1) /
    BitVec.ofNat 32 pgsize = bm at h value
  by_cases few : pageCnt < bm
  · rw [if_pos few] at h
    cases h
  rw [if_neg few] at h
  cases create : bitmapCreateInBuf (pageCnt - bm).toNat base.toNat
      (bm * BitVec.ofNat 32 pgsize).toNat junk with
  | error e =>
    simp only [create] at h
    cases h
  | ok map =>
    simp only [create] at h
    cases h
    obtain ⟨fits, above, mapped, cnt, clear⟩ := bitmapCreateInBuf_ok create
    have enough : bm.toNat ≤ pageCnt.toNat := Nat.le_of_not_lt few
    have rest : (pageCnt - bm).toNat = pageCnt.toNat - bm.toNat := by
      rw [BitVec.toNat_sub_of_le (BitVec.not_lt.mp few)]
    have positive : 8 ≤ bitmapBufSize pageCnt.toNat := Nat.le_add_right 8 _
    have bytes : (bm * BitVec.ofNat 32 pgsize).toNat = 4096 * bm.toNat := by
      simp only [toNat_mul, toNat_ofNat, pgsize, pgbits]
      omega
    have top : mappedEnd = 3288334336 := rfl
    have bottom : physBase.toNat = 3221225472 := rfl
    have place : (base + bm * BitVec.ofNat 32 pgsize).toNat = base.toNat + 4096 * bm.toNat := by
      rw [toNat_add, bytes]
      omega
    rw [rest] at mapped cnt clear fits
    rw [bytes] at fits
    refine ⟨above, by omega, by omega, by omega, rfl, ?_, ?_, ?_, cnt ▸ clear⟩
    · simp only [place, cnt]
      omega
    · simp only [place]
      simp only [pgsize, pgbits]
      omega
    · simp only [place, cnt]
      simp only [pgsize, pgbits]
      omega

theorem sdiv_toNat (x : BitVec 32) : (x.sdiv (BitVec.ofNat 32 pgsize)).toNat = x.toNat / 4096 ∧
    x.toNat < 2 ^ 31 ∨ (x.sdiv (BitVec.ofNat 32 pgsize)).toNat = 0 ∨
    2 ^ 32 - 2 ^ 19 ≤ (x.sdiv (BitVec.ofNat 32 pgsize)).toNat := by
  have page : (BitVec.ofNat 32 pgsize).msb = false := rfl
  have value : (BitVec.ofNat 32 pgsize).toNat = 4096 := rfl
  have sign := BitVec.msb_eq_decide x
  rw [BitVec.sdiv_eq, page]
  cases neg : x.msb with
  | false =>
    rw [neg] at sign
    left
    simp only [udiv_eq, toNat_udiv, value, true_and]
    have := of_decide_eq_false sign.symm
    omega
  | true =>
    right
    simp only [udiv_eq, BitVec.toNat_neg, toNat_udiv, value]
    rw [neg] at sign
    have := of_decide_eq_true sign.symm
    omega

structure Layout (initRamPages : Nat) (kernelPool userPool : PoolStart) : Prop where
  kernel : Placed kernelPool (physBase.toNat + 2 ^ 20) userPool.mapAddr.toNat
  user : ∃ last, last ≤ physBase.toNat + pgsize * initRamPages ∧ last ≤ 2 ^ 32 ∧
    Placed userPool userPool.mapAddr.toNat last

theorem bind_ok {α β : Type} {x : Except Stop α} {f : α → Except Stop β} {b : β}
    (h : x >>= f = .ok b) : ∃ a, x = .ok a ∧ f a = .ok b := by
  cases x with
  | error e => cases h
  | ok a => exact ⟨a, rfl, h⟩

theorem ptov_ok {paddr va : BitVec 32} (h : ptov paddr = .ok va) :
    paddr < physBase ∧ va = paddr + physBase := by
  rw [ptov] at h
  by_cases below : paddr < physBase
  · rw [if_pos below] at h
    exact ⟨below, (Except.ok.inj h).symm⟩
  · rw [if_neg below] at h
    cases h

theorem pallocInit_layout {initRamPages userPageLimit : BitVec 32}
    {junk : BitVec 32 → Nat → BitVec 32} {k u : PoolStart}
    (h : pallocInit initRamPages userPageLimit junk = .ok (k, u)) :
    Layout initRamPages.toNat k u := by
  obtain ⟨S, hS, h⟩ := bind_ok h
  obtain ⟨E, hE, h⟩ := bind_ok h
  obtain ⟨k', hk, h⟩ := bind_ok h
  obtain ⟨u', hu, h⟩ := bind_ok h
  cases h
  generalize hF : (E - S).sdiv (BitVec.ofNat 32 pgsize) = F at hk hu
  generalize hU : (if userPageLimit < F / 2 then userPageLimit else F / 2) = U at hk hu
  obtain ⟨below, end_eq⟩ := ptov_ok hE
  obtain ⟨-, start_eq⟩ := ptov_ok hS
  have half : U.toNat ≤ F.toNat / 2 := by
    have two : (F / 2).toNat = F.toNat / 2 := toNat_udiv
    rw [← hU]
    split_ifs with less
    · rw [lt_def, two] at less
      omega
    · exact Nat.le_of_eq two
  have kernelPages : (F - U).toNat = F.toNat - U.toNat := by
    rw [toNat_sub]
    omega
  have bottom : physBase.toNat = 3221225472 := rfl
  have start : S.toNat = physBase.toNat + 2 ^ 20 := by
    rw [start_eq]
    rfl
  have top : mappedEnd = 3288334336 := rfl
  clear start_eq hS
  obtain ⟨-, -, fewK, someK, placedK⟩ := initPool_ok hk (by omega)
  have ends : (S + (F - U) * BitVec.ofNat 32 pgsize).toNat =
      (S.toNat + (F - U).toNat * 4096) % 2 ^ 32 := by
    simp only [toNat_add, toNat_mul, toNat_ofNat, pgsize, pgbits]
    omega
  obtain ⟨above, mapped, -, -, placedU⟩ := initPool_ok hu (by omega)
  have memory : (initRamPages * BitVec.ofNat 32 pgsize).toNat ≤ 4096 * initRamPages.toNat := by
    simp only [toNat_mul, toNat_ofNat, pgsize, pgbits]
    omega
  have difference : (E - S).toNat = ((initRamPages * BitVec.ofNat 32 pgsize).toNat + 2 ^ 32 -
      2 ^ 20) % 2 ^ 32 := by
    rw [end_eq, toNat_sub, toNat_add]
    omega
  rw [lt_def] at below
  have pages : F.toNat = (E - S).toNat / 4096 ∧ (E - S).toNat < 2 ^ 31 := by
    rw [← hF] at half kernelPages someK fewK ⊢
    rcases sdiv_toNat (E - S) with small | zero | huge
    · exact small
    · omega
    · omega
  have place : (S + (F - U) * BitVec.ofNat 32 pgsize).toNat =
      S.toNat + 4096 * (F - U).toNat := by
    omega
  have next : u.mapAddr.toNat = S.toNat + 4096 * (F - U).toNat := by
    rw [← placedU.map, place]
  refine ⟨?_, S.toNat + 4096 * F.toNat, ?_, ?_, ?_⟩
  · rw [← next, start] at placedK
    exact placedK
  · simp only [pgsize, pgbits]
    omega
  · omega
  · rw [place] at placedU
    have sum : S.toNat + 4096 * (F - U).toNat + 4096 * U.toNat = S.toNat + 4096 * F.toNat := by
      omega
    rw [next, ← sum]
    exact placedU

end Pintos.PallocInit
