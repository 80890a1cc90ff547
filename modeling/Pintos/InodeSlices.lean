import Pintos.Format

/-! `inode_read_at` and `inode_write_at` as slicing of one array of bytes.  The loops are written
a second time with every check that the C code takes for granted: an `int` result that is out of
range, a sector number that wraps around, a sector that is not the inode's and a loop that goes
on for ever are failures.  On an inode that lies on the device no check fails, and the checked
loops do what the plain ones do. -/

namespace Pintos.InodeSlices
open Resumption ByteStore Disk InodeIO Filesys Format
open Prog (run_assert run_bind_of)

/-- An `int` result. -/
def exactInt (x : Int) : Code Int := do
  Prog.assert (-2 ^ 31 ≤ x ∧ x < 2 ^ 31)
  pure x

/-- `byte_to_sector`, whose addition is in 32 bits. -/
def exactSector (ino : Inode) (pos : Int) : Code Nat := do
  Prog.assert (pos < ino.data.length → ino.data.start + pos.tdiv sectorSize < 2 ^ 32)
  pure (byteToSector ino pos)

/-- One of the sectors of the inode's data. -/
def Own (ino : Inode) (sector : Nat) : Prop :=
  ino.data.start ≤ sector ∧ sector < ino.data.start + bytesToSectors ino.data.length

instance (ino : Inode) (sector : Nat) : Decidable (Own ino sector) :=
  inferInstanceAs (Decidable (_ ∧ _))

structure Round where
  sectorIdx : Nat
  sectorOfs : Int
  sectorLeft : Int
  chunkSize : Int

def exactRound (ino : Inode) (size offset : Int) : Code Round := do
  let sectorIdx ← exactSector ino offset
  let sectorOfs := offset.tmod sectorSize
  let inodeLeft ← exactInt (ino.data.length - offset)
  let sectorLeft ← exactInt (sectorSize - sectorOfs)
  let minLeft := if inodeLeft < sectorLeft then inodeLeft else sectorLeft
  pure ⟨sectorIdx, sectorOfs, sectorLeft, if size < minLeft then size else minLeft⟩

def exactReadLoop (inode : Nat) : (fuel : Nat) → (size offset bytesRead : Int) →
    (bounce : Bool) → (buffer : List UInt8) → Code (List UInt8)
  | 0, _, _, _, _, _ => .fail
  | fuel + 1, size, offset, bytesRead, bounce, buffer =>
    if size ≤ 0 then pure buffer
    else do
      let ino ← getInode inode
      let r ← exactRound ino size offset
      if r.chunkSize ≤ 0 then pure buffer
      else do
        Prog.assert (Own ino r.sectorIdx)
        if r.sectorOfs = 0 ∧ r.chunkSize = sectorSize then do
          let bytes ← blockRead r.sectorIdx
          let size ← exactInt (size - r.chunkSize)
          let offset ← exactInt (offset + r.chunkSize)
          let bytesRead ← exactInt (bytesRead + r.chunkSize)
          exactReadLoop inode fuel size offset bytesRead bounce (buffer ++ bytes)
        else do
          let ok ← takeBounce bounce
          if ok then do
            let bytes ← blockRead r.sectorIdx
            let size ← exactInt (size - r.chunkSize)
            let offset ← exactInt (offset + r.chunkSize)
            let bytesRead ← exactInt (bytesRead + r.chunkSize)
            exactReadLoop inode fuel size offset bytesRead true
              (buffer ++ (bytes.drop r.sectorOfs.toNat).take r.chunkSize.toNat)
          else pure buffer

def exactReadAt (inode : Nat) (size offset : Int) : Code (List UInt8) :=
  exactReadLoop inode (size.toNat + 1) size offset 0 false []

def exactWriteLoop (inode : Nat) (buffer : FS → List UInt8) : (fuel : Nat) →
    (size offset written : Int) → (bounce : Bool) → Code Int
  | 0, _, _, _, _ => .fail
  | fuel + 1, size, offset, written, bounce =>
    if size ≤ 0 then pure written
    else do
      let ino ← getInode inode
      let r ← exactRound ino size offset
      if r.chunkSize ≤ 0 then pure written
      else do
        Prog.assert (Own ino r.sectorIdx)
        if r.sectorOfs = 0 ∧ r.chunkSize = sectorSize then do
          blockWrite r.sectorIdx fun s => (buffer s).drop written.toNat
          let size ← exactInt (size - r.chunkSize)
          let offset ← exactInt (offset + r.chunkSize)
          let written ← exactInt (written + r.chunkSize)
          exactWriteLoop inode buffer fuel size offset written bounce
        else do
          let ok ← takeBounce bounce
          if ok then do
            let old ← fillBounce r.sectorIdx (0 < r.sectorOfs ∨ r.chunkSize < r.sectorLeft)
            let s ← Prog.state
            let new := overlay old r.sectorOfs.toNat
              (((buffer s).drop written.toNat).take r.chunkSize.toNat)
            blockWrite r.sectorIdx fun _ => new
            let size ← exactInt (size - r.chunkSize)
            let offset ← exactInt (offset + r.chunkSize)
            let written ← exactInt (written + r.chunkSize)
            exactWriteLoop inode buffer fuel size offset written true
          else pure written

def exactWriteAt (inode : Nat) (buffer : FS → List UInt8) (size offset : Int) : Code Int := do
  let ino ← getInode inode
  if ino.denyWriteCnt ≠ 0 then pure 0
  else exactWriteLoop inode buffer (size.toNat + 1) size offset 0 false

theorem run_exactInt {x : Int} (low : -2 ^ 31 ≤ x) (high : x < 2 ^ 31) (s : FS) :
    Prog.run (exactInt x) s = some (x, s) := by
  rw [exactInt, run_bind_of (run_assert ⟨low, high⟩ s)]
  rfl
variable {ofs n : Nat} {size : Int}

section
variable {s : FS} {p L : Nat} {ino : Inode}

theorem length_le (h : Loaded s p ino L) : L ≤ 2 ^ 30 := by
  by_contra long
  have last := h.inside ((L - 1) / 512) (by omega)
  have cap := s.device.size_lt
  omega

theorem own_sector (h : Loaded s p ino L) (lt : ofs < L) : Own ino (byteToSector ino ofs) := by
  have short := length_le h
  rw [Own, (h.byteToSector lt).1, h.length, bytesToSectors_of_small L (by omega)]
  omega

theorem run_exactRound (h : Loaded s p ino L) (range : ofs < 2 ^ 31) :
    Prog.run (exactRound ino size ofs) s = some (⟨byteToSector ino ofs, (ofs : Int).tmod sectorSize,
      sectorSize - (ofs : Int).tmod sectorSize, chunkSize ino size ofs⟩, s) := by
  have short := length_le h
  have cap := s.device.size_lt
  have mod : (ofs : Int).tmod sectorSize = ((ofs % 512 : Nat) : Int) := rfl
  have wrap : (ofs : Int) < ino.data.length →
      ino.data.start + (ofs : Int).tdiv sectorSize < 2 ^ 32 := by
    intro lt
    rw [h.length] at lt
    have room := (h.byteToSector (show ofs < L by omega)).2
    rw [Int.natCast_tdiv_eq_ediv, sectorSize]
    omega
  have sector : Prog.run (exactSector ino ofs) s = some (byteToSector ino ofs, s) := by
    rw [exactSector, run_bind_of (run_assert wrap s)]
    rfl
  have left : Prog.run (exactInt (ino.data.length - ofs)) s = some (ino.data.length - ofs, s) := by
    apply run_exactInt <;> rw [h.length] <;> omega
  have sectorLeft : Prog.run (exactInt (sectorSize - (ofs : Int).tmod sectorSize)) s =
      some (sectorSize - (ofs : Int).tmod sectorSize, s) := by
    apply run_exactInt <;> rw [mod, sectorSize] <;> omega
  rw [exactRound, run_bind_of sector]
  simp only [run_bind_of left, run_bind_of sectorLeft]
  rfl

theorem run_takeBounce (h : s.mallocs = []) (bounce : Bool) :
    Prog.run (takeBounce bounce) s = some (true, s) := by
  cases bounce
  · exact run_malloc h
  · rfl

theorem run_advance {α : Type} {offset count : Int} {c : Nat} (left : size < 2 ^ 31)
    (pos : (c : Int) ≤ size) (start : 0 ≤ offset) (inside : offset + c < 2 ^ 31) (first : 0 ≤ count)
    (few : count + size < 2 ^ 31) (f : Int → Int → Int → Code α) (s : FS) : Prog.run (do
      let size ← exactInt (size - c)
      let offset ← exactInt (offset + c)
      let count ← exactInt (count + c)
      f size offset count) s = Prog.run (f (size - c) (offset + c) (count + c)) s := by
  rw [run_bind_of (run_exactInt (by omega) (by omega) s)]
  rw [run_bind_of (run_exactInt (by omega) (by omega) s)]
  rw [run_bind_of (run_exactInt (by omega) (by omega) s)]

theorem run_exactReadLoop (h : Loaded s p ino L) {read : Int} (bounce : Bool)
    (buffer : List UInt8) (enough : size.toNat ≤ n) (range : ofs < 2 ^ 31) (first : 0 ≤ read)
    (few : read + size < 2 ^ 31) :
    Prog.run (exactReadLoop p (n + 1) size ofs read bounce buffer) s =
      Prog.run (readLoop p n size ofs bounce buffer) s := by
  have short := length_le h
  induction n generalizing size ofs read bounce buffer with
  | zero =>
    rw [exactReadLoop, if_pos (by omega)]
    rfl
  | succ n ih =>
    rw [exactReadLoop, readLoop]
    by_cases stop : size ≤ 0
    · rw [if_pos stop, if_pos stop]
    rw [if_neg stop, if_neg stop, run_bind_of (run_getInode h.inode),
      run_bind_of (run_getInode h.inode), run_bind_of (run_exactRound h range)]
    rcases chunkSize_cases ino L h.length size ofs (by omega) with
      ⟨last, -⟩ | ⟨c, chunk, pos, fits, within, less, -⟩
    · simp only [if_pos last]
    have own := own_sector h (show ofs < L by omega)
    have room := h.byteToSector (show ofs < L by omega)
    rw [← room.1] at room
    have going : ¬(c : Int) ≤ 0 := by omega
    simp only [chunk, if_neg going]
    rw [run_bind_of (run_assert own s)]
    have step : ∀ b bytes, Prog.run (exactReadLoop p (n + 1) (size - c) ((ofs : Int) + c)
        (read + c) b bytes) s = Prog.run (readLoop p n (size - c) ((ofs : Int) + c) b bytes) s := by
      intro b bytes
      have next : Prog.run (exactReadLoop p (n + 1) (size - c) ((ofs + c : Nat) : Int) (read + c)
          b bytes) s = _ := ih b bytes (by omega) (by omega) (by omega) (by omega)
      rwa [Int.natCast_add] at next
    by_cases whole : (ofs : Int).tmod sectorSize = 0 ∧ (c : Int) = sectorSize
    · simp only [if_pos whole, run_bind_of (run_blockRead room.2)]
      rw [run_advance (by omega) (by omega) (by omega) (by omega) first few, step]
    · simp only [if_neg whole, run_bind_of (run_takeBounce h.mallocs bounce), if_true,
        run_bind_of (run_blockRead room.2)]
      rw [run_advance (by omega) (by omega) (by omega) (by omega) first few, step]

theorem loaded_write (h : Loaded s p ino L) (a : Nat) (bs : List UInt8) :
    Loaded { s with device := s.device.write a bs } p ino L :=
  { h with }

theorem run_fillBounce {sector : Nat} (room : sector < s.device.size) (keep : Bool) :
    ∃ old, Prog.run (fillBounce sector keep) s = some (old, s) := by
  cases keep
  · exact ⟨_, rfl⟩
  · exact ⟨_, run_blockRead room⟩

theorem run_exactWriteLoop (h : Loaded s p ino L) (buffer : FS → List UInt8) {written : Int}
    (bounce : Bool) (enough : size.toNat ≤ n) (range : ofs < 2 ^ 31) (first : 0 ≤ written)
    (few : written + size < 2 ^ 31) :
    Prog.run (exactWriteLoop p buffer (n + 1) size ofs written bounce) s =
      Prog.run (writeLoop p buffer n size ofs written bounce) s := by
  have short := length_le h
  induction n generalizing s size ofs written bounce with
  | zero =>
    rw [exactWriteLoop, if_pos (by omega)]
    rfl
  | succ n ih =>
    rw [exactWriteLoop, writeLoop]
    by_cases stop : size ≤ 0
    · rw [if_pos stop, if_pos stop]
    rw [if_neg stop, if_neg stop, run_bind_of (run_getInode h.inode),
      run_bind_of (run_getInode h.inode), run_bind_of (run_exactRound h range)]
    rcases chunkSize_cases ino L h.length size ofs (by omega) with
      ⟨last, -⟩ | ⟨c, chunk, pos, fits, within, less, -⟩
    · simp only [if_pos last]
    have own := own_sector h (show ofs < L by omega)
    have room := h.byteToSector (show ofs < L by omega)
    rw [← room.1] at room
    have going : ¬(c : Int) ≤ 0 := by omega
    simp only [chunk, if_neg going]
    rw [run_bind_of (run_assert own s)]
    have step : ∀ b a bs, Prog.run (exactWriteLoop p buffer (n + 1) (size - c) ((ofs : Int) + c)
        (written + c) b) { s with device := s.device.write a bs } =
        Prog.run (writeLoop p buffer n (size - c) ((ofs : Int) + c) (written + c) b)
          { s with device := s.device.write a bs } := by
      intro b a bs
      have next : Prog.run (exactWriteLoop p buffer (n + 1) (size - c) ((ofs + c : Nat) : Int)
          (written + c) b) _ = _ :=
        ih (loaded_write h a bs) b (by omega) (by omega) (by omega) (by omega)
      rwa [Int.natCast_add] at next
    by_cases whole : (ofs : Int).tmod sectorSize = 0 ∧ (c : Int) = sectorSize
    · simp only [if_pos whole, run_bind_of (run_blockWrite room.2)]
      rw [run_advance (by omega) (by omega) (by omega) (by omega) first few, step]
    obtain ⟨old, filled⟩ := run_fillBounce room.2
      (decide (0 < (ofs : Int).tmod sectorSize ∨ (c : Int) < sectorSize - (ofs : Int).tmod sectorSize))
    simp only [if_neg whole, run_bind_of (run_takeBounce h.mallocs bounce), if_true,
      run_bind_of filled, run_bind_of (Prog.run_state s), run_bind_of (run_blockWrite room.2)]
    rw [run_advance (by omega) (by omega) (by omega) (by omega) first few, step]

theorem run_exactWriteAt (h : Loaded s p ino L) (buffer : FS → List UInt8) {offset : Nat}
    (sized : size < 2 ^ 31) (range : offset < 2 ^ 31) :
    Prog.run (exactWriteAt p buffer size offset) s =
      Prog.run (inodeWriteAt p buffer size offset) s := by
  simp only [exactWriteAt, inodeWriteAt, run_bind_of (run_getInode h.inode)]
  split_ifs
  · rfl
  · exact run_exactWriteLoop h buffer false (Nat.le_refl _) range (Int.le_refl 0) (by omega)

def written (data : Nat → UInt8) (base offset : Nat) (bs : List UInt8) (n : Nat) (x : Nat) :
    UInt8 :=
  if base + offset ≤ x ∧ x < base + offset + n then bs.getD (x - (base + offset)) 0 else data x

theorem splice_take (data : Nat → UInt8) (base offset : Nat) {bs : List UInt8}
    (long : n ≤ bs.length) :
    splice data (base + offset) (bs.take n) = written data base offset bs n := by
  have size : (bs.take n).length = n := by
    rw [List.length_take]
    omega
  funext x
  rw [splice, written, size]
  by_cases inside : base + offset ≤ x ∧ x < base + offset + n
  · have here : x - (base + offset) < n := by omega
    rw [if_pos inside, if_pos inside]
    simp [List.getD, here]
  · rw [if_neg inside, if_neg inside]

end

def oneInode : FS :=
  { boot blankDevice (fun _ => 0) with
    inodes := fun p => if p = 0 then some ⟨1, 1, false, 0, ⟨2, 600, inodeMagic⟩⟩ else none }

theorem oneInode_loaded : Loaded oneInode 0 ⟨1, 1, false, 0, ⟨2, 600, inodeMagic⟩⟩ 600 where
  inode := rfl
  length := rfl
  inside := fun k below => by
    have size : oneInode.device.size = 16 := rfl
    change 2 + k < _
    rw [size]
    omega
  mallocs := rfl

end Pintos.InodeSlices
