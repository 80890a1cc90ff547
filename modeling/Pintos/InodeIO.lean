import Pintos.Disk

/-! Reading and writing the data of an inode, from `filesys/inode.c`. The data
is one run of sectors, so the bytes of an inode are one range of the device and
both loops move a slice of it sector by sector. The loop rules are stated for
interleaved runs; the equations for a run alone follow from them. -/

namespace Pintos.InodeIO
open Resumption ByteStore Disk
open Protocol (alone_across run_of_wp wp_bind)

def inodeMagic : Nat := 0x494e4f44

/-- Two's complement value of a 32-bit result. -/
def int32 (x : Int) : Int := x.bmod (2 ^ 32)

def uint32 (x : Int) : Nat := (x % 2 ^ 32).toNat

/-- `DIV_ROUND_UP` in `int`, converted to `size_t`. -/
def bytesToSectors (size : Int) : Nat := uint32 ((int32 (size + sectorSize - 1)).tdiv sectorSize)

def encodeInode (d : InodeDisk) : List UInt8 :=
  le32 d.start ++ le32 (uint32 d.length) ++ le32 d.magic ++ List.replicate 500 0

def decodeInode (bs : List UInt8) : InodeDisk :=
  ⟨readLe32 bs, int32 (readLe32 (bs.drop 4)), readLe32 (bs.drop 8)⟩

def byteToSector (ino : Inode) (pos : Int) : Nat :=
  if pos < ino.data.length then uint32 (ino.data.start + pos.tdiv sectorSize) else 2 ^ 32 - 1

/-- Bytes to move in this round: up to the end of the request, the inode and the sector. -/
def chunkSize (ino : Inode) (size offset : Int) : Int :=
  let sectorOfs := offset.tmod sectorSize
  let inodeLeft := ino.data.length - offset
  let sectorLeft := sectorSize - sectorOfs
  let minLeft := if inodeLeft < sectorLeft then inodeLeft else sectorLeft
  if size < minLeft then size else minLeft

/-- The bounce buffer is allocated by the first round that needs it. -/
def takeBounce (bounce : Bool) : Code Bool := if bounce then pure true else malloc

/-- The bounce buffer before a write: the old sector, or zeros when all of it is replaced. -/
def fillBounce (sectorIdx : Nat) (keep : Bool) : Code (List UInt8) :=
  if keep then blockRead sectorIdx else pure (List.replicate sectorSize 0)

def readLoop (inode : Nat) : (fuel : Nat) → (size offset : Int) → (bounce : Bool) →
    List UInt8 → Code (List UInt8)
  | 0, _, _, _, buffer => pure buffer
  | fuel + 1, size, offset, bounce, buffer =>
    if size ≤ 0 then pure buffer
    else do
      let ino ← getInode inode
      let sectorIdx := byteToSector ino offset
      let sectorOfs := offset.tmod sectorSize
      let chunk := chunkSize ino size offset
      if chunk ≤ 0 then pure buffer
      else if sectorOfs = 0 ∧ chunk = sectorSize then do
        let bytes ← blockRead sectorIdx
        readLoop inode fuel (size - chunk) (offset + chunk) bounce (buffer ++ bytes)
      else do
        let ok ← takeBounce bounce
        if ok then do
          let bytes ← blockRead sectorIdx
          readLoop inode fuel (size - chunk) (offset + chunk) true
            (buffer ++ (bytes.drop sectorOfs.toNat).take chunk.toNat)
        else pure buffer

/-- The bytes read; their number is the result of the C function. -/
def inodeReadAt (inode : Nat) (size offset : Int) : Code (List UInt8) :=
  readLoop inode size.toNat size offset false []

def writeLoop (inode : Nat) (buffer : FS → List UInt8) : (fuel : Nat) →
    (size offset written : Int) → (bounce : Bool) → Code Int
  | 0, _, _, written, _ => pure written
  | fuel + 1, size, offset, written, bounce =>
    if size ≤ 0 then pure written
    else do
      let ino ← getInode inode
      let sectorIdx := byteToSector ino offset
      let sectorOfs := offset.tmod sectorSize
      let chunk := chunkSize ino size offset
      if chunk ≤ 0 then pure written
      else if sectorOfs = 0 ∧ chunk = sectorSize then do
        blockWrite sectorIdx fun s => (buffer s).drop written.toNat
        writeLoop inode buffer fuel (size - chunk) (offset + chunk) (written + chunk) bounce
      else do
        let ok ← takeBounce bounce
        if ok then do
          let old ← fillBounce sectorIdx (0 < sectorOfs ∨ chunk < sectorSize - sectorOfs)
          let s ← Prog.state
          let new := overlay old sectorOfs.toNat (((buffer s).drop written.toNat).take chunk.toNat)
          blockWrite sectorIdx fun _ => new
          writeLoop inode buffer fuel (size - chunk) (offset + chunk) (written + chunk) true
        else pure written

def inodeWriteAt (inode : Nat) (buffer : FS → List UInt8) (size offset : Int) : Code Int := do
  let ino ← getInode inode
  if ino.denyWriteCnt ≠ 0 then pure 0
  else writeLoop inode buffer size.toNat size offset 0 false

section Transferred

/-- Only the device and the answers of `malloc` have changed. -/
def Transferred (s s' : FS) : Prop := ∃ d ms, s' = { s with device := d, mallocs := ms }

instance : IsPreorder FS Transferred where
  refl s := ⟨s.device, s.mallocs, rfl⟩
  trans := by
    rintro s _ _ ⟨d, ms, rfl⟩ ⟨d', ms', rfl⟩
    exact ⟨d', ms', rfl⟩

theorem malloc_transferred : Prog.Moves Transferred malloc := by
  refine .read fun s => ?_
  cases s.mallocs with
  | nil => exact .pure _
  | cons ok rest => exact .bind (.modify fun s => ⟨s.device, rest, rfl⟩) fun _ => .pure _

theorem blockRead_transferred (sector : Nat) : Prog.Moves Transferred (blockRead sector) :=
  .read fun _ => .bind (.assert _) fun _ => .bind (.sleep _) fun _ => .read fun _ => .pure _

theorem blockWrite_transferred (sector : Nat) (buffer : FS → List UInt8) :
    Prog.Moves Transferred (blockWrite sector buffer) :=
  .read fun _ => .bind (.assert _) fun _ => .bind (.sleep _) fun _ =>
    .bind (.modify fun s => ⟨_, s.mallocs, rfl⟩) fun _ => .sleep _

theorem getInode_transferred (p : Nat) : Prog.Moves Transferred (getInode p) :=
  .read fun _ => .demand _

theorem writeLoop_transferred (inode : Nat) (buffer : FS → List UInt8) (fuel : Nat)
    (size offset written : Int) (bounce : Bool) :
    Prog.Moves Transferred (writeLoop inode buffer fuel size offset written bounce) := by
  induction fuel generalizing size offset written bounce with
  | zero => exact .pure _
  | succ fuel ih =>
    rw [writeLoop]
    split_ifs
    · exact .pure _
    refine .bind (getInode_transferred inode) fun ino => ?_
    simp only
    split_ifs
    · exact .pure _
    · exact .bind (blockWrite_transferred _ _) fun _ => ih _ _ _ _
    · refine .bind (.ite (.pure _) malloc_transferred) fun ok => ?_
      split_ifs
      · exact .bind (.ite (blockRead_transferred _) (.pure _)) fun _ => .read fun _ =>
          .bind (blockWrite_transferred _ _) fun _ => ih _ _ _ _
      · exact .pure _

theorem inodeWriteAt_transferred (inode : Nat) (buffer : FS → List UInt8) (size offset : Int) :
    Prog.Moves Transferred (inodeWriteAt inode buffer size offset) := by
  refine .bind (getInode_transferred inode) fun ino => ?_
  split_ifs
  · exact .pure _
  · exact writeLoop_transferred _ _ _ _ _ _ _

end Transferred

/-- Bytes that a request for `size` bytes at `offset` moves. -/
def ioCount (length : Nat) (size : Int) (offset : Nat) : Nat :=
  min size.toNat (length - offset)

theorem encodeInode_length (d : InodeDisk) : (encodeInode d).length = sectorSize := by
  simp only [encodeInode, List.length_append, le32_length, List.length_replicate, sectorSize]

theorem int32_of_range {x : Int} (lo : -2 ^ 31 ≤ x) (hi : x < 2 ^ 31) : int32 x = x := by
  rw [int32, Int.bmod_eq_of_le (by omega) (by omega)]

theorem uint32_of_range {x : Int} (lo : 0 ≤ x) (hi : x < 2 ^ 32) : uint32 x = x.toNat := by
  rw [uint32, Int.emod_eq_of_lt lo hi]

theorem decodeInode_encodeInode (d : InodeDisk) (start : d.start < 2 ^ 32) (lo : 0 ≤ d.length)
    (hi : d.length < 2 ^ 31) (magic : d.magic < 2 ^ 32) : decodeInode (encodeInode d) = d := by
  obtain ⟨st, len, mg⟩ := d
  simp only at start lo hi magic
  have e1 : (le32 st ++ le32 (uint32 len) ++ le32 mg ++ List.replicate 500 0) =
      le32 st ++ (le32 (uint32 len) ++ (le32 mg ++ List.replicate 500 0)) := by
    simp only [List.append_assoc]
  have u : uint32 len = len.toNat := uint32_of_range lo (by omega)
  simp only [decodeInode, encodeInode]
  rw [e1, readLe32_le32 _ _ start, List.drop_left' (le32_length _), readLe32_le32 _ _ (by omega),
    show 8 = 4 + 4 from rfl, ← List.drop_drop, List.drop_left' (le32_length _),
    List.drop_left' (le32_length _), readLe32_le32 _ _ magic, u, Int.toNat_of_nonneg lo,
    int32_of_range (by omega) hi]

theorem bytesToSectors_of_small (n : Nat) (h : n + 511 < 2 ^ 31) :
    bytesToSectors n = (n + 511) / 512 := by
  simp only [bytesToSectors, int32, uint32, sectorSize, Int.bmod_def, Int.tdiv_eq_ediv]
  omega

theorem bytesToSectors_of_large (n : Nat) (h : 2 ^ 31 ≤ n + 511) (h' : n < 2 ^ 31) :
    2 ^ 31 ≤ bytesToSectors n := by
  have sign : ((512 : Nat) : Int).sign = 1 := rfl
  simp only [bytesToSectors, int32, uint32, sectorSize, Int.bmod_def, Int.tdiv_eq_ediv, sign]
  omega

/-- One round of either loop: it is the last one, or it moves `c` bytes of one sector. -/
theorem chunkSize_cases (ino : Inode) (L : Nat) (hL : ino.data.length = L) (size : Int) (ofs : Nat)
    (pos : 0 < size) : (chunkSize ino size ofs ≤ 0 ∧ ioCount L size ofs = 0) ∨
    ∃ c : Nat, chunkSize ino size ofs = c ∧ 0 < c ∧ ofs + c ≤ L ∧ ofs % 512 + c ≤ 512 ∧
    (size - c).toNat + c = size.toNat ∧ ioCount L size ofs = c + ioCount L (size - c)
    (ofs + c) ∧ (ioCount L (size - c) (ofs + c) = 0 ∨ (ofs + c) % 512 = 0) := by
  have m : (ofs : Int).tmod ((512 : Nat) : Int) = ((ofs % 512 : Nat) : Int) := rfl
  simp only [chunkSize, hL, ioCount, sectorSize, m]
  split_ifs with h1 h2 h2
  · refine .inr ⟨size.toNat, by omega, by omega, by omega, by omega, by omega, by omega, by omega⟩
  · by_cases done : (L : Int) - ofs ≤ 0
    · exact .inl ⟨done, by omega⟩
    · exact .inr ⟨L - ofs, by omega, by omega, by omega, by omega, by omega, by omega, by omega⟩
  · exact .inr ⟨size.toNat, by omega, by omega, by omega, by omega, by omega, by omega, by omega⟩
  · exact .inr ⟨512 - ofs % 512, by omega, by omega, by omega, by omega, by omega, by omega,
      by omega⟩

/-- Inode `p` is in memory with `L` bytes of data, all of them on the device. -/
structure Loaded (s : FS) (p : Nat) (ino : Inode) (L : Nat) : Prop where
  inode : s.inodes p = some ino
  length : ino.data.length = L
  inside : ∀ k, 512 * k < L → ino.data.start + k < s.device.size
  mallocs : s.mallocs = []
variable {s : FS} {p L : Nat} {ino : Inode}

theorem Loaded.byteToSector (h : Loaded s p ino L) {ofs : Nat} (lt : ofs < L) :
    InodeIO.byteToSector ino ofs = ino.data.start + ofs / 512 ∧
      ino.data.start + ofs / 512 < s.device.size := by
  have room := h.inside (ofs / 512) (by omega)
  have cap := s.device.size_lt
  refine ⟨?_, room⟩
  rw [ InodeIO.byteToSector, if_pos (by rw [h.length]; omega), Int.natCast_tdiv_eq_ediv, sectorSize,
    uint32_of_range (by omega) (by omega)]
  omega

/-- Inode `p` is in memory, whatever its count of openers. -/
def DataAt (s : FS) (p start L : Nat) : Prop := ∃ ino, Loaded s p ino L ∧ ino.data.start = start

theorem Loaded.dataAt (h : Loaded s p ino L) : DataAt s p ino.data.start L := ⟨ino, h, rfl⟩

structure Chunk (L o N k c : Nat) : Prop where
  pos : 0 < c
  bound : k + c ≤ N
  fits : o + k + c ≤ L
  within : (o + k) % 512 + c ≤ 512
  ends : k + c = N ∨ (o + k + c) % 512 = 0

section Interleaved

variable {τ γ : Type} [DecidableEq τ] {P : Protocol τ Sleep γ FS} {i : τ}

theorem wp_takeBounce {Q : Bool → (τ → γ) → FS → Prop} {g : τ → γ} (bounce : Bool)
    (h : s.mallocs = []) (post : Q true g s) : P.wp i Q (takeBounce bounce) g s := by
  cases bounce
  · exact wp_malloc h post
  · exact post

/-- Reads of bytes that nobody changes: `A` holds during the whole call, and the
result is the slice of `data` that the request covers. -/
theorem wp_readLoop (p L start : Nat) (data : Nat → UInt8)
    {A : (τ → γ) → FS → Prop} {Q : List UInt8 → (τ → γ) → FS → Prop}
    (sees : ∀ g s, A g s → DataAt s p start L ∧ ∀ x < L,
      s.device.data (512 * start + x) = data (512 * start + x))
    (stable : ∀ g s k, A g s → 512 * k < L → P.Across i (.read (start + k)) A g s)
    (n : Nat) (size : Int) (ofs : Nat) (bounce : Bool) (buffer : List UInt8)
    (enough : size.toNat ≤ n)
    (post : ∀ g s, A g s →
      Q (buffer ++ slice data (512 * start + ofs) (ioCount L size ofs)) g s)
    (g : τ → γ) (s : FS) (h : A g s) :
    P.wp i Q (readLoop p n size ofs bounce buffer) g s := by
  induction n generalizing size ofs bounce buffer g s with
  | zero =>
    have none : ioCount L size ofs = 0 := by
      simp only [ioCount]
      omega
    simpa [readLoop, none] using post g s h
  | succ n ih =>
    rw [readLoop]
    by_cases stop : size ≤ 0
    · have none : ioCount L size ofs = 0 := by
        simp only [ioCount]
        omega
      rw [if_pos stop]
      simpa [none] using post g s h
    rw [if_neg stop, wp_bind]
    obtain ⟨⟨ino, loaded, rfl⟩, -⟩ := sees g s h
    refine wp_getInode loaded.inode ?_
    rcases chunkSize_cases ino L loaded.length size ofs (by omega) with
      ⟨last, none⟩ | ⟨c, chunk, pos, fits, within, less, count, -⟩
    · simp only [if_pos last]
      simpa [none] using post g s h
    obtain ⟨sector, room⟩ := loaded.byteToSector (show ofs < L by omega)
    have here : 512 * (ino.data.start + ofs / 512) + ofs % 512 = 512 * ino.data.start + ofs := by
      omega
    have piece : ∀ s' : FS, (∀ x < L, s'.device.data (512 * ino.data.start + x) =
          data (512 * ino.data.start + x)) →
        ((slice s'.device.data (512 * (ino.data.start + ofs / 512)) 512).drop (ofs % 512)).take c =
          slice data (512 * ino.data.start + ofs) c := by
      intro s' agree
      rw [slice_drop_take _ _ _ _ _ (by omega), here]
      apply slice_congr
      intro x lo hi
      have := agree (x - 512 * ino.data.start) (by omega)
      rwa [show 512 * ino.data.start + (x - 512 * ino.data.start) = x by omega] at this
    have rest : ∀ g s, A g s → Q (buffer ++ slice data (512 * ino.data.start + ofs) c ++
        slice data (512 * ino.data.start + (ofs + c)) (ioCount L (size - c) (ofs + c))) g s := by
      intro g s h
      have := post g s h
      rwa [count, slice_add, ← List.append_assoc, Nat.add_assoc] at this
    have mod : (ofs : Int).tmod sectorSize = ((ofs % 512 : Nat) : Int) := rfl
    simp only [chunk, sector, mod]
    rw [if_neg (by omega)]
    by_cases whole : ((ofs % 512 : Nat) : Int) = 0 ∧ (c : Int) = sectorSize
    · rw [if_pos whole, wp_bind]
      refine wp_blockRead room ((stable g s (ofs / 512) h (by omega)).mono fun g' s' h' => ?_)
      have all := whole.2
      simp only [sectorSize] at all
      have := piece s' (sees g' s' h').2
      rw [show ofs % 512 = 0 by omega, List.drop_zero,
        List.take_of_length_le (by rw [slice_length]; omega)] at this
      simp only [sectorSize, this]
      exact ih (size - c) (ofs + c) bounce _ (by omega) rest g' s' h'
    · rw [if_neg whole, wp_bind]
      refine wp_takeBounce bounce loaded.mallocs ?_
      rw [if_pos rfl, wp_bind]
      refine wp_blockRead room ((stable g s (ofs / 512) h (by omega)).mono fun g' s' h' => ?_)
      have := piece s' (sees g' s' h').2
      simp only [sectorSize, Int.toNat_natCast, this]
      exact ih (size - c) (ofs + c) true _ (by omega) rest g' s' h'

/-- Writes of the data of an inode: `A k` holds when `k` bytes are written and
`B k c bs` when the sector `bs` with the next `c` bytes waits to go back. -/
theorem wp_writeLoop (p L start o N : Nat) (buffer : FS → List UInt8)
    {A : Nat → (τ → γ) → FS → Prop} {B : Nat → Nat → List UInt8 → (τ → γ) → FS → Prop}
    {Q : Int → (τ → γ) → FS → Prop}
    (sees : ∀ k g s, A k g s → DataAt s p start L)
    (read : ∀ k g s, A k g s → o + k < L →
      P.Across i (.read (start + (o + k) / 512)) (A k) g s)
    (fill : ∀ k c g s, A k g s → Chunk L o N k c →
      P.Across i (.write (start + (o + k) / 512))
        (B k c (overlay (slice s.device.data (512 * (start + (o + k) / 512)) 512)
          ((o + k) % 512) (((buffer s).drop k).take c))) g s)
    (commit : ∀ k c bs g s, B k c bs g s → Chunk L o N k c →
      P.Across i (.written (start + (o + k) / 512)) (A (k + c)) g { s with
        device := s.device.write (512 * (start + (o + k) / 512)) (bs.take 512) })
    (direct : ∀ k g s, A k g s → k + 512 ≤ N → (o + k) % 512 = 0 → o + k + 512 ≤ L →
      P.Across i (.write (start + (o + k) / 512)) (fun g s =>
        P.Across i (.written (start + (o + k) / 512)) (A (k + 512)) g { s with
          device := s.device.write (512 * (start + (o + k) / 512))
            (((buffer s).drop k).take 512) }) g s)
    (n : Nat) (size : Int) (k : Nat) (bounce : Bool) (enough : size.toNat ≤ n)
    (total : k + ioCount L size (o + k) = N) (post : ∀ g s, A N g s → Q N g s)
    (g : τ → γ) (s : FS) (h : A k g s) :
    P.wp i Q (writeLoop p buffer n size ((o + k : Nat) : Int) k bounce) g s := by
  induction n generalizing size k bounce g s with
  | zero =>
    have none : ioCount L size (o + k) = 0 := by
      simp only [ioCount]
      omega
    obtain rfl : k = N := by omega
    exact post g s h
  | succ n ih =>
    rw [writeLoop]
    by_cases stop : size ≤ 0
    · have none : ioCount L size (o + k) = 0 := by
        simp only [ioCount]
        omega
      obtain rfl : k = N := by omega
      rw [if_pos stop]
      exact post g s h
    rw [if_neg stop, wp_bind]
    obtain ⟨ino, loaded, rfl⟩ := sees k g s h
    refine wp_getInode loaded.inode ?_
    rcases chunkSize_cases ino L loaded.length size (o + k) (by omega) with
      ⟨last, none⟩ | ⟨c, chunk, pos, fits, within, less, count, ends⟩
    · obtain rfl : k = N := by omega
      simp only [if_pos last]
      exact post g s h
    obtain ⟨sector, room⟩ := loaded.byteToSector (show o + k < L by omega)
    have mod : ((o + k : Nat) : Int).tmod sectorSize = (((o + k) % 512 : Nat) : Int) := rfl
    have round : Chunk L o N k c := ⟨pos, by omega, fits, within, by omega⟩
    have step : ∀ b g s, A (k + c) g s → P.wp i Q
        (writeLoop p buffer n (size - c) (((o + k : Nat) : Int) + c) ((k : Int) + c) b) g s := by
      intro b g s h
      have := ih (size - c) (k + c) b (by omega) (by rw [← Nat.add_assoc o k c]; omega) g s h
      rwa [← Nat.add_assoc, Int.natCast_add (o + k) c, Int.natCast_add k c] at this
    simp only [chunk, sector, mod]
    rw [if_neg (by omega)]
    by_cases whole : (((o + k) % 512 : Nat) : Int) = 0 ∧ (c : Int) = sectorSize
    · have all := whole.2
      simp only [sectorSize] at all
      rw [if_pos whole, wp_bind]
      refine wp_blockWrite room ((direct k g s h (by omega) (by omega) (by omega)).mono fun g s h => ?_)
      simp only [sectorSize, Int.toNat_natCast]
      refine h.mono fun g s h => step bounce g s ?_
      rwa [show c = 512 by omega]
    · have part : decide (0 < (((o + k) % 512 : Nat) : Int) ∨
          (c : Int) < sectorSize - (((o + k) % 512 : Nat) : Int)) = true := by
        apply decide_eq_true
        simp only [sectorSize] at whole ⊢
        omega
      rw [if_neg whole, wp_bind]
      refine wp_takeBounce bounce loaded.mallocs ?_
      rw [if_pos rfl, wp_bind, part]
      refine wp_blockRead room ((read k g s h (by omega)).mono fun g s h => ?_)
      rw [wp_bind, Protocol.wp_state, wp_bind]
      obtain ⟨ino', loaded', same⟩ := sees k g s h
      have room' := (loaded'.byteToSector (show o + k < L by omega)).2
      rw [same] at room'
      refine wp_blockWrite room' ((fill k c g s h round).mono fun g s h => ?_)
      simp only [sectorSize, Int.toNat_natCast]
      exact (commit k c _ g s h round).mono fun g s h => step true g s h

end Interleaved

theorem run_inodeReadAt (h : Loaded s p ino L) (size : Int) (ofs : Nat) :
    Prog.run (inodeReadAt p size ofs) s =
      some (slice s.device.data (512 * ino.data.start + ofs) (ioCount L size ofs), s) := by
  have wp := wp_readLoop (P := Protocol.alone Sleep FS) (i := ()) p L ino.data.start s.device.data
    (A := fun _ s' => s' = s)
    (Q := fun r _ s' => r = slice s.device.data (512 * ino.data.start + ofs) (ioCount L size ofs) ∧
      s' = s)
    (fun g s' e => ⟨e ▸ h.dataAt, fun x _ => by rw [e]⟩)
    (fun g s' k e _ => e ▸ alone_across g s' _)
    size.toNat size ofs false [] (Nat.le_refl _) (fun g s' e => ⟨rfl, e⟩)
    (fun _ => (none, s)) s rfl
  obtain ⟨a, _, s', run, rfl, rfl⟩ := run_of_wp _ _ _ wp
  exact run

/-- The caller's buffer lies in memory that the device does not change. -/
def OffDevice (buffer : FS → List UInt8) : Prop :=
  ∀ s d, buffer { s with device := d } = buffer s

theorem run_inodeWriteAt (h : Loaded s p ino L) (allowed : ino.denyWriteCnt = 0)
    (buffer : FS → List UInt8) (off : OffDevice buffer) (size : Int) (ofs : Nat)
    (long : size.toNat ≤ (buffer s).length) :
    Prog.run (inodeWriteAt p buffer size ofs) s = some ((ioCount L size ofs : Int), { s with
        device := s.device.write (512 * ino.data.start + ofs)
          ((buffer s).take (ioCount L size ofs)) }) := by
  let after (k : Nat) : FS :=
    { s with device := s.device.write (512 * ino.data.start + ofs) ((buffer s).take k) }
  have len : ∀ k, k ≤ ioCount L size ofs → ((buffer s).take k).length = k := by
    intro k hk
    rw [List.length_take]
    simp only [ioCount] at hk
    omega
  have place : ∀ k, 512 * (ino.data.start + (ofs + k) / 512) + (ofs + k) % 512 =
      512 * ino.data.start + ofs + k := by
    intro k
    omega
  have advance : ∀ k c, k + c ≤ ioCount L size ofs → { after k with
        device := (after k).device.write
          (512 * (ino.data.start + (ofs + k) / 512) + (ofs + k) % 512)
          (((buffer s).drop k).take c) } = after (k + c) := by
    intro k c hk
    have join := Device.write_append s.device (512 * ino.data.start + ofs) ((buffer s).take k)
      (((buffer s).drop k).take c)
    rw [len k (by omega), ← List.take_add] at join
    simp only [after, place, join]
  have wp := wp_writeLoop (P := Protocol.alone Sleep FS) (i := ()) p L ino.data.start ofs
    (ioCount L size ofs) buffer (A := fun k _ s' => s' = after k)
    (B := fun k c bs _ s' => s' = after k ∧ bs = overlay (slice s'.device.data
      (512 * (ino.data.start + (ofs + k) / 512)) 512) ((ofs + k) % 512) (((buffer s).drop k).take c))
    (Q := fun r _ s' => r = (ioCount L size ofs : Int) ∧ s' = after (ioCount L size ofs))
    (fun k g s' e => e ▸ ⟨ino, { h with }, rfl⟩)
    (fun k g s' e _ => e ▸ alone_across g s' _)
    (fun k c g s' e _ => (alone_across g s' _).mono fun g s'' e' => by
      subst e' e
      exact ⟨rfl, by rw [show buffer (after k) = buffer s from off s _]⟩)
    (fun k c bs g s' e round => (alone_across g _ _).mono fun g s'' e' => by
      obtain ⟨rfl, rfl⟩ := e
      subst e'
      have room : (((buffer s).drop k).take c).length = c := by
        have := len (k + c) round.bound
        rw [List.length_take] at this ⊢
        rw [List.length_drop]
        omega
      rw [← advance k c round.bound, List.take_of_length_le (Nat.le_of_eq (by
        rw [overlay_length _ _ _ (by rw [slice_length, room]; exact round.within), slice_length]))]
      simp only [Device.write]
      rw [splice_overlay _ _ _ _ _ (by rw [room]; exact round.within)])
    (fun k g s' e hk whole fits => (alone_across g _ _).mono fun g s'' e' => by
      subst e' e
      refine (alone_across g _ _).mono fun g s'' e' => ?_
      have := advance k 512 hk
      rw [whole, Nat.add_zero] at this
      rw [e', ← this, show buffer (after k) = buffer s from off s _])
    size.toNat size 0 false (Nat.le_refl _) (by simp) (fun g s' e => ⟨rfl, e⟩)
    (fun _ => (none, s)) s (by simp [after, Device.write])
  obtain ⟨a, _, s', run, rfl, rfl⟩ := run_of_wp _ _ _ wp
  simp only [inodeWriteAt, Prog.run_bind, run_getInode h.inode, Option.bind_some, allowed]
  exact run

theorem blockRead_length {t : FS} {sector : Nat} {bytes : List UInt8}
    (run : Prog.run (blockRead sector) s = some (bytes, t)) : bytes.length = 512 := by
  by_cases inside : sector < s.device.size
  · rw [run_blockRead inside] at run
    rw [← (Prod.mk.inj (Option.some.inj run)).1, slice_length]
    rfl
  · have fails : Prog.run (blockRead sector) s = none := by
      rw [blockRead, Prog.run_bind_of (Prog.run_state s),
        Prog.run_bind_none (Prog.run_assert_none inside s)]
    rw [fails] at run
    cases run

theorem readLoop_length {inode fuel : Nat} {size offset : Int} {bounce : Bool}
    {buffer bytes : List UInt8} {s' : FS}
    (run : Prog.run (readLoop inode fuel size offset bounce buffer) s = some (bytes, s')) :
    bytes.length ≤ buffer.length + size.toNat := by
  induction fuel generalizing size offset bounce buffer s with
  | zero =>
    cases run
    exact Nat.le_add_right ..
  | succ fuel ih =>
    rw [readLoop] at run
    split_ifs at run
    · cases run
      exact Nat.le_add_right ..
    obtain ⟨ino, t, -, rest⟩ := Prog.run_bind_iff.mp run
    have le : chunkSize ino size offset ≤ size := by
      simp only [chunkSize]
      split <;> omega
    simp only at rest
    split_ifs at rest with none whole
    · cases rest
      exact Nat.le_add_right ..
    · obtain ⟨sector, t, read, rest⟩ := Prog.run_bind_iff.mp rest
      have bound := ih rest
      rw [List.length_append, blockRead_length read] at bound
      have chunk : chunkSize ino size offset = 512 := whole.2
      omega
    · obtain ⟨ok, t, -, rest⟩ := Prog.run_bind_iff.mp rest
      cases ok with
      | false =>
        cases rest
        exact Nat.le_add_right ..
      | true =>
        obtain ⟨sector, t, -, rest⟩ := Prog.run_bind_iff.mp rest
        have bound := ih rest
        have taken := List.length_take_le (chunkSize ino size offset).toNat
          (sector.drop (offset.tmod sectorSize).toNat)
        rw [List.length_append] at bound
        omega

end Pintos.InodeIO
