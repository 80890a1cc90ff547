import Pintos.InodeIO

/-! Sector allocation of `filesys/free-map.c` and the open inodes of
`filesys/inode.c`. The free map is kept in memory and written to its file after
every change; the write may sleep, so the map in memory is always ahead of the
file. An inode stays in memory while it is open, and a removed inode gives its
sectors back when its last opener closes it. -/

namespace Pintos.Inode
open Resumption ByteStore Bitmap Disk InodeIO Function
open Prog (run_assert run_bind run_bind_of run_demand_some run_modify run_pure run_state)
open Option (bind_some)

def freeMapSector : Nat := 0

def rootDirSector : Nat := 1

def fileReadAt (file : Nat) (size fileOfs : Int) : Code (List UInt8) := do
  let f ← getFile file
  inodeReadAt f.inode size fileOfs

def fileWriteAt (file : Nat) (buffer : FS → List UInt8) (size fileOfs : Int) : Code Int := do
  let f ← getFile file
  inodeWriteAt f.inode buffer size fileOfs

/-- The words go to the file straight from the bitmap in memory. -/
def bitmapWrite (file : Nat) : Code Bool := do
  let s ← Prog.state
  let n ← fileWriteAt file (fun s => s.freeMap.bytes) (byteCnt s.freeMap.bitCnt) 0
  pure (n = byteCnt s.freeMap.bitCnt)

def bitmapRead (file : Nat) : Code Bool := do
  let s ← Prog.state
  if 0 < s.freeMap.bitCnt then do
    let bs ← fileReadAt file (byteCnt s.freeMap.bitCnt) 0
    Prog.modify fun s =>
      { s with freeMap := bitmapReadBytes s.freeMap (overlay s.freeMap.bytes 0 bs) }
    pure (bs.length = byteCnt s.freeMap.bitCnt)
  else pure true

/-- The first of `cnt` consecutive sectors, now in use. -/
def freeMapAllocate (cnt : Nat) : Code (Option Nat) := do
  let s ← Prog.state
  let r ← Prog.demand (bitmapScanAndFlip s.freeMap 0 cnt false)
  Prog.modify fun s => { s with freeMap := r.2 }
  if r.1 = bitmapError then pure none
  else match s.freeMapFile with
    | none => pure (some r.1)
    | some file => do
      let ok ← bitmapWrite file
      if ok then pure (some r.1)
      else do
        let s ← Prog.state
        let b ← Prog.demand (bitmapSetMultiple s.freeMap r.1 cnt false)
        Prog.modify fun s => { s with freeMap := b }
        pure none

def freeMapRelease (sector cnt : Nat) : Code Unit := do
  let s ← Prog.state
  let all ← Prog.demand (bitmapAll s.freeMap sector cnt)
  Prog.assert (all = true)
  let b ← Prog.demand (bitmapSetMultiple s.freeMap sector cnt false)
  Prog.modify fun s => { s with freeMap := b }
  let file ← Prog.demand s.freeMapFile
  let _ ← bitmapWrite file
  pure ()

def zeroLoop (start : Nat) : (n i : Nat) → Code Unit
  | 0, _ => pure ()
  | n + 1, i => do
    blockWrite (start + i) fun _ => List.replicate sectorSize 0
    zeroLoop start n (i + 1)

def inodeCreate (sector : Nat) (length : Int) : Code Bool := do
  Prog.assert (0 ≤ length)
  let ok ← malloc
  if ok then do
    let sectors := bytesToSectors length
    match ← freeMapAllocate sectors with
    | none => pure false
    | some start => do
      blockWrite sector fun _ => encodeInode ⟨start, length, inodeMagic⟩
      zeroLoop start sectors 0
      pure true
  else pure false

def isAt (s : FS) (sector p : Nat) : Bool :=
  match s.inodes p with
  | some ino => ino.sector = sector
  | none => false

def inodeReopen (p : Nat) : Code Nat := do
  setInode p fun ino => { ino with openCnt := ino.openCnt + 1 }
  pure p

/-- A new inode is on the list of open inodes before its data is read. -/
def inodeOpen (sector : Nat) : Code (Option Nat) := do
  let s ← Prog.state
  match s.openInodes.find? (isAt s sector) with
  | some p => do
    let p ← inodeReopen p
    pure (some p)
  | none => do
    let ok ← malloc
    if ok then do
      let s ← Prog.state
      let p := s.next
      Prog.modify fun s => { s with
        inodes := update s.inodes p (some {
          sector := sector, openCnt := 1, denyWriteCnt := 0, removed := false,
          data := ⟨(s.junk (3 * p)).toNat, (s.junk (3 * p + 1)).toInt,
            (s.junk (3 * p + 2)).toNat⟩ })
        openInodes := p :: s.openInodes
        next := p + 1 }
      let bs ← blockRead sector
      setInode p fun ino => { ino with data := decodeInode bs }
      pure (some p)
    else pure none

/-- The sectors of a removed inode go back to the free map. -/
def releaseRemoved (ino : Inode) : Code Unit :=
  if ino.removed then do
    freeMapRelease ino.sector 1
    freeMapRelease ino.data.start (bytesToSectors ino.data.length)
  else pure ()

def inodeClose : Option Nat → Code Unit
  | none => pure ()
  | some p => do
    setInode p fun ino => { ino with openCnt := ino.openCnt - 1 }
    let ino ← getInode p
    if ino.openCnt = 0 then do
      Prog.modify fun s => { s with openInodes := s.openInodes.erase p }
      releaseRemoved ino
      Prog.modify fun s => { s with inodes := update s.inodes p none }
    else pure ()

def inodeRemove (p : Nat) : Code Unit := setInode p fun ino => { ino with removed := true }

def inodeDenyWrite (p : Nat) : Code Unit := do
  setInode p fun ino => { ino with denyWriteCnt := ino.denyWriteCnt + 1 }
  let ino ← getInode p
  Prog.assert (ino.denyWriteCnt ≤ ino.openCnt)

def inodeAllowWrite (p : Nat) : Code Unit := do
  let ino ← getInode p
  Prog.assert (0 < ino.denyWriteCnt)
  Prog.assert (ino.denyWriteCnt ≤ ino.openCnt)
  setInode p fun ino => { ino with denyWriteCnt := ino.denyWriteCnt - 1 }

def inodeLength (p : Nat) : Code Int := do
  let ino ← getInode p
  pure ino.data.length

/-- The free-map file `f` is open through inode `p` and its data starts at sector `m`. -/
structure MapFile (s : FS) (f p m : Nat) : Prop where
  file : s.freeMapFile = some f
  handle : s.files f = some ⟨p, 0, false⟩
  inode : s.inodes p = some ⟨freeMapSector, 1, false, 0, ⟨m, byteCnt s.freeMap.bitCnt, inodeMagic⟩⟩
  inside : ∀ k, 512 * k < byteCnt s.freeMap.bitCnt → m + k < s.device.size
  mallocs : s.mallocs = []

def FS.storeMap (s : FS) (m : Nat) (b : Bits) : FS :=
  { s with freeMap := b, device := s.device.write (512 * m) b.bytes }
variable {s : FS} {f p m sector : Nat} {ino : Inode}

section

variable (h : MapFile s f p m)
include h

theorem MapFile.loaded :
    Loaded s p ⟨freeMapSector, 1, false, 0, ⟨m, byteCnt s.freeMap.bitCnt, inodeMagic⟩⟩
      (byteCnt s.freeMap.bitCnt) :=
  ⟨h.inode, rfl, h.inside, h.mallocs⟩

theorem MapFile.withMap {b : Bits} (cnt : b.bitCnt = s.freeMap.bitCnt) :
    MapFile { s with freeMap := b } f p m :=
  { h with
    inode := by simpa only [cnt] using h.inode
    inside := by simpa only [cnt] using h.inside }

theorem MapFile.storeMap {b : Bits} (cnt : b.bitCnt = s.freeMap.bitCnt) :
    MapFile (FS.storeMap s m b) f p m :=
  { h.withMap cnt with }

theorem run_bitmapWrite : Prog.run (bitmapWrite f) s = some (true, FS.storeMap s m s.freeMap) := by
  have count : ioCount (byteCnt s.freeMap.bitCnt) (byteCnt s.freeMap.bitCnt : Nat) 0 =
      byteCnt s.freeMap.bitCnt := by
    simp [ioCount]
  have write := run_inodeWriteAt h.loaded rfl (fun s => s.freeMap.bytes)
    (fun _ _ => rfl) (byteCnt s.freeMap.bitCnt : Nat) 0 (by simp)
  rw [count, List.take_of_length_le (by simp)] at write
  simp only [bitmapWrite, fileWriteAt, run_bind, run_state, bind_some, run_getFile h.handle]
  rw [show ((0 : Nat) : Int) = 0 from rfl] at write
  simp only [write, bind_some, run_pure, decide_true]
  rfl

theorem run_freeMapAllocate (cnt : Nat) :
    (∃ r b, s.freeMap.Run r cnt false ∧ (∀ r' < r, ¬s.freeMap.Run r' cnt false) ∧
      Filled s.freeMap b r cnt true ∧
      Prog.run (freeMapAllocate cnt) s = some (some r, FS.storeMap s m b)) ∨
    ((∀ r, ¬s.freeMap.Run r cnt false) ∧ Prog.run (freeMapAllocate cnt) s = some (none, s)) := by
  rcases scanAndFlip_cases s.freeMap cnt with ⟨r, b, run, first, fill, ok, scan⟩ | ⟨none, scan⟩
  · have write := run_bitmapWrite (h.withMap fill.bitCnt)
    simp only [h.file] at write
    refine .inl ⟨r, b, run, first, fill, ?_⟩
    simp only [freeMapAllocate, run_bind, run_state, bind_some, scan,
      run_demand_some, run_modify, ok, if_false, h.file, write, if_true, run_pure]
    rw [← h.file]
    rfl
  · refine .inr ⟨none, ?_⟩
    simp only [freeMapAllocate, run_bind, run_state, bind_some, scan,
      run_demand_some, run_modify, if_true, run_pure]

omit h in
theorem run_freeMapAllocate_early (h : s.freeMapFile = none) (cnt : Nat) :
    (∃ r b, s.freeMap.Run r cnt false ∧ (∀ r' < r, ¬s.freeMap.Run r' cnt false) ∧
      Filled s.freeMap b r cnt true ∧
      Prog.run (freeMapAllocate cnt) s = some (some r, { s with freeMap := b })) ∨
    ((∀ r, ¬s.freeMap.Run r cnt false) ∧ Prog.run (freeMapAllocate cnt) s = some (none, s)) := by
  rcases scanAndFlip_cases s.freeMap cnt with ⟨r, b, run, first, fill, ok, scan⟩ | ⟨none, scan⟩
  · refine .inl ⟨r, b, run, first, fill, ?_⟩
    simp only [freeMapAllocate, run_bind, run_state, bind_some, scan,
      run_demand_some, run_modify, ok, if_false, h, run_pure]
  · refine .inr ⟨none, ?_⟩
    simp only [freeMapAllocate, run_bind, run_state, bind_some, scan,
      run_demand_some, run_modify, if_true, run_pure]

theorem run_freeMapRelease (sector cnt : Nat) (marked : s.freeMap.Run sector cnt true) :
    ∃ b, Filled s.freeMap b sector cnt false ∧
      Prog.run (freeMapRelease sector cnt) s = some ((), FS.storeMap s m b) := by
  obtain ⟨b, set, size, bits⟩ := bitmapSetMultiple_spec s.freeMap sector cnt false marked.1
  have all := bitmapAll_eq_true s.freeMap sector cnt marked.1 marked.2
  have write := run_bitmapWrite (h.withMap size)
  simp only [h.file] at write
  refine ⟨b, ⟨size, bits⟩, ?_⟩
  simp only [freeMapRelease, run_bind, run_state, bind_some, all,
    run_demand_some, run_assert, set, run_modify, h.file, write, run_pure]
  rw [← h.file]
  rfl

end

theorem run_zeroLoop (start n i : Nat) (s : FS) (h : start + i + n ≤ s.device.size) :
    Prog.run (zeroLoop start n i) s = some ((), { s with
      device := s.device.write (512 * (start + i)) (List.replicate (512 * n) 0) }) := by
  induction n generalizing i s with
  | zero =>
    simp only [zeroLoop, run_pure, Nat.mul_zero, List.replicate_zero, Device.write, splice_nil]
  | succ n ih =>
    have join := Device.write_append s.device (512 * (start + i)) (List.replicate 512 0)
      (List.replicate (512 * n) 0)
    rw [List.length_replicate, List.replicate_append_replicate] at join
    rw [zeroLoop, run_bind_of (run_blockWrite (by omega)),
      ih (i + 1) _ (by simp only [Device.write_size]; omega)]
    simp only [sectorSize, List.take_replicate, Nat.min_self]
    rw [show 512 * (start + (i + 1)) = 512 * (start + i) + 512 by omega, join,
      show 512 * (n + 1) = 512 + 512 * n by omega]

def Device.create (d : Device) (sector start : Nat) (length : Int) : Device :=
  (d.write (512 * sector) (encodeInode ⟨start, length, inodeMagic⟩)).write (512 * start)
    (List.replicate (512 * bytesToSectors length) 0)

theorem run_inodeCreate_of_some {s' : FS} {start : Nat} {length : Int} (pos : 0 ≤ length)
    (mallocs : s.mallocs = [])
    (alloc : Prog.run (freeMapAllocate (bytesToSectors length)) s = some (some start, s'))
    (header : sector < s'.device.size) (data : start + bytesToSectors length ≤ s'.device.size) :
    Prog.run (inodeCreate sector length) s =
      some (true, { s' with device := Device.create s'.device sector start length }) := by
  have full : (encodeInode ⟨start, length, inodeMagic⟩).take sectorSize =
      encodeInode ⟨start, length, inodeMagic⟩ :=
    List.take_of_length_le (Nat.le_of_eq (encodeInode_length _))
  rw [inodeCreate, run_bind_of (run_assert pos s), run_bind_of (run_malloc mallocs),
    if_pos rfl, run_bind_of alloc]
  simp only
  rw [run_bind_of (run_blockWrite header),
    run_bind_of (run_zeroLoop start _ 0 _ (by simpa using data)), full]
  rfl

theorem run_inodeCreate_of_none {length : Int} (sector : Nat) (pos : 0 ≤ length)
    (mallocs : s.mallocs = [])
    (alloc : Prog.run (freeMapAllocate (bytesToSectors length)) s = some (none, s)) :
    Prog.run (inodeCreate sector length) s = some (false, s) := by
  rw [inodeCreate, run_bind_of (run_assert pos s), run_bind_of (run_malloc mallocs),
    if_pos rfl, run_bind_of alloc]
  rfl

def FS.pushInode (s : FS) (ino : Inode) : FS :=
  { s with
    inodes := update s.inodes s.next (some ino)
    openInodes := s.next :: s.openInodes
    next := s.next + 1 }

def FS.setInode (s : FS) (p : Nat) (ino : Option Inode) : FS :=
  { s with inodes := update s.inodes p ino }

def FS.unlist (s : FS) (p : Nat) : FS := { s with openInodes := s.openInodes.erase p }

def diskInode (d : Device) (sector : Nat) : InodeDisk :=
  decodeInode (slice d.data (512 * sector) 512)

theorem run_inodeOpen_new (mallocs : s.mallocs = []) (room : sector < s.device.size)
    (absent : ∀ p ∈ s.openInodes, isAt s sector p = false) :
    Prog.run (inodeOpen sector) s = some (some s.next,
      FS.pushInode s ⟨sector, 1, false, 0, diskInode s.device sector⟩) := by
  have search : s.openInodes.find? (isAt s sector) = none := by
    simpa only [List.find?_eq_none, Bool.not_eq_true] using absent
  simp only [inodeOpen, run_bind, run_state, bind_some, search,
    run_malloc mallocs, if_true, run_modify]
  rw [run_blockRead (by exact room)]
  simp [FS.pushInode, diskInode, sectorSize]

theorem run_inodeOpen_open (search : s.openInodes.find? (isAt s sector) = some p)
    (h : s.inodes p = some ino) :
    Prog.run (inodeOpen sector) s =
      some (some p, FS.setInode s p (some { ino with openCnt := ino.openCnt + 1 })) := by
  simp only [inodeOpen, inodeReopen, run_bind, run_state, bind_some, search,
    run_setInode, run_pure, h, Option.map_some]
  rfl

theorem run_setInode_of (h : s.inodes p = some ino) (f : Inode → Inode) :
    Prog.run (Disk.setInode p f) s = some ((), FS.setInode s p (some (f ino))) := by
  rw [run_setInode, h]
  rfl

theorem run_getInode_set (s : FS) (p : Nat) (ino : Inode) : Prog.run (getInode p)
    (FS.setInode s p (some ino)) = some (ino, FS.setInode s p (some ino)) :=
  run_getInode (by simp [FS.setInode])

theorem run_inodeClose_keep (h : s.inodes p = some ino) (more : ino.openCnt - 1 ≠ 0) :
    Prog.run (inodeClose (some p)) s =
      some ((), FS.setInode s p (some { ino with openCnt := ino.openCnt - 1 })) := by
  rw [inodeClose, run_bind_of (run_setInode_of h _),
    run_bind_of (run_getInode_set s p _), if_neg more]
  rfl

theorem run_inodeClose_last {s' : FS} (h : s.inodes p = some ino) (last : ino.openCnt - 1 = 0)
    (release : Prog.run (releaseRemoved { ino with openCnt := ino.openCnt - 1 })
      (FS.unlist (FS.setInode s p (some { ino with openCnt := ino.openCnt - 1 })) p) =
      some ((), s')) :
    Prog.run (inodeClose (some p)) s = some ((), FS.setInode s' p none) := by
  rw [inodeClose, run_bind_of (run_setInode_of h _),
    run_bind_of (run_getInode_set s p _), if_pos last, run_bind_of (run_modify _ _)]
  exact (run_bind_of release _).trans rfl

/-- The open inode at `sector`, if there is one, is on top of the list `base` of the open
inodes at other sectors. -/
structure Cached (sector : Nat) (base : List Nat) (s : FS) (top : Option (Nat × Inode)) : Prop where
  list : s.openInodes = (top.map Prod.fst).toList ++ base
  inode : ∀ p ino, top = some (p, ino) → s.inodes p = some ino ∧ ino.sector = sector
  apart : ∀ q ∈ base, isAt s sector q = false
  older : ∀ q ∈ base, q < s.next

section Cached

variable {sector : Nat} {base : List Nat} {s s' : FS} {top : Option (Nat × Inode)} {p : Nat}
  {ino ino' : Inode}

theorem Cached.congr (h : Cached sector base s top) (inodes : s'.inodes = s.inodes)
    (opens : s'.openInodes = s.openInodes) (next : s'.next = s.next) :
    Cached sector base s' top where
  list := by rw [opens, h.list]
  inode q a e := by rw [inodes]; exact h.inode q a e
  apart q mem := by
    have old := h.apart q mem
    rwa [isAt, ← inodes] at old
  older q mem := by rw [next]; exact h.older q mem

theorem Cached.search (h : Cached sector base s top) :
    s.openInodes.find? (isAt s sector) = top.map Prod.fst := by
  rw [h.list]
  cases top with
  | none =>
    change base.find? _ = none
    rw [List.find?_eq_none]
    exact fun q mem => by simp [h.apart q mem]
  | some top =>
    obtain ⟨inode, here⟩ := h.inode top.1 top.2 rfl
    exact List.find?_cons_of_pos (by simp [isAt, inode, here])

theorem Cached.ne (h : Cached sector base s (some (p, ino))) : ∀ q ∈ base, q ≠ p := by
  rintro q mem rfl
  obtain ⟨inode, here⟩ := h.inode q ino rfl
  have other := h.apart q mem
  simp [isAt, inode, here] at other

theorem Cached.push (h : Cached sector base s none) (here : ino.sector = sector) :
    Cached sector base (FS.pushInode s ino) (some (s.next, ino)) where
  list := congrArg (s.next :: ·) h.list
  inode q a e := by
    cases e
    exact ⟨by simp [FS.pushInode], here⟩
  apart q mem := by
    simpa [isAt, FS.pushInode, Nat.ne_of_lt (h.older q mem)] using h.apart q mem
  older q mem := Nat.lt_succ_of_lt (h.older q mem)

theorem Cached.set (h : Cached sector base s (some (p, ino))) (here : ino'.sector = sector) :
    Cached sector base (FS.setInode s p (some ino')) (some (p, ino')) where
  list := h.list
  inode q a e := by
    cases e
    exact ⟨by simp [FS.setInode], here⟩
  apart q mem := by
    simpa [isAt, FS.setInode, h.ne q mem] using h.apart q mem
  older := h.older

theorem Cached.close (h : Cached sector base s (some (p, ino))) :
    Cached sector base (FS.setInode (FS.unlist s p) p none) none where
  list := by
    change s.openInodes.erase p = base
    rw [h.list]
    exact List.erase_cons_head p base
  inode q a e := by cases e
  apart q mem := by
    simpa [isAt, FS.setInode, FS.unlist, h.ne q mem] using h.apart q mem
  older := h.older

end Cached

end Pintos.Inode
