import Pintos.Accounts

/-! Loading an executable, from `userprog/process.c`. The executable is an open file with
arbitrary bytes, of which a read may deliver fewer than asked for. All fields of its headers
are 32-bit words, and sizes and addresses are computed from them as the code does, modulo
2^32. -/

namespace Pintos.Loader
open ByteStore Stoppable Vaddr Palloc Pagedir
open BitVec (eq_of_toNat_eq lt_def toNat_add toNat_sub)

/-- `limits` says how many bytes the next reads deliver at most, when memory for the buffer
of `inode_read_at` runs out; later reads end at the end of the file only. -/
structure OpenFile where
  content : List UInt8
  pos : Nat
  limits : List Nat
  length_lt : content.length < 2 ^ 31

theorem emptyFile_small : ([] : List UInt8).length < 2 ^ 31 := by decide

def OpenFile.read (f : OpenFile) (size : Nat) : List UInt8 × OpenFile :=
  let bytes := (f.content.drop f.pos).take (min (f.limits.headD size) size)
  (bytes, { f with pos := f.pos + bytes.length, limits := f.limits.tail })

/-- The running thread, its executable, and the pages passed to `install_page` so far. -/
structure Loading extends Space where
  exe : OpenFile
  installed : List (BitVec 32)

abbrev Load := Exec Stop Loading

def space {α : Type} (x : Paging α) : Load α :=
  x.zoom Loading.toSpace fun s m => { s with toSpace := m }

def memory {α : Type} (x : Alloc α) : Load α := space (alloc x)

def fileRead (size : Nat) : Load (List UInt8) := do
  let s ← Exec.state
  Exec.modify fun s => { s with exe := (s.exe.read size).2 }
  pure (s.exe.read size).1

def fileLength : Load Int := do
  let s ← Exec.state
  pure s.exe.content.length

def fileSeek (newPos : Int) : Load Unit := do
  assert (0 ≤ newPos)
  Exec.modify fun s => { s with exe := { s.exe with pos := newPos.toNat } }

def word (bs : List UInt8) (i : Nat) : BitVec 32 := BitVec.ofNat 32 (readLe32 (bs.drop i))

def half (bs : List UInt8) (i : Nat) : Nat := (bs.getD i 0).toNat + 256 * (bs.getD (i + 1) 0).toNat

/-- The members of `struct Elf32_Ehdr` that are used. -/
structure Ehdr where
  ident : List UInt8
  type : Nat
  machine : Nat
  version : BitVec 32
  entry : BitVec 32
  phoff : BitVec 32
  phentsize : Nat
  phnum : Nat

def sizeofEhdr : Nat := 52

def Ehdr.decode (bs : List UInt8) : Ehdr :=
  ⟨bs.take 16, half bs 16, half bs 18, word bs 20, word bs 24, word bs 28, half bs 42, half bs 44⟩

structure Phdr where
  type : BitVec 32
  offset : BitVec 32
  vaddr : BitVec 32
  filesz : BitVec 32
  memsz : BitVec 32
  flags : BitVec 32
  deriving DecidableEq

def sizeofPhdr : Nat := 32

def Phdr.decode (bs : List UInt8) : Phdr :=
  ⟨word bs 0, word bs 4, word bs 8, word bs 16, word bs 20, word bs 24⟩

def ptLoad : BitVec 32 := 1

def ptDynamic : BitVec 32 := 2

def ptInterp : BitVec 32 := 3

def ptShlib : BitVec 32 := 5

def pfW : BitVec 32 := 2

def Phdr.writable (phdr : Phdr) : Bool := phdr.flags &&& pfW ≠ 0

def validEhdr (ehdr : Ehdr) : Prop :=
  ehdr.ident.take 7 = [0x7f, 0x45, 0x4c, 0x46, 1, 1, 1] ∧ ehdr.type = 2 ∧ ehdr.machine = 3 ∧
    ehdr.version = 1 ∧ ehdr.phentsize = sizeofPhdr ∧ ehdr.phnum ≤ 1024

instance (ehdr : Ehdr) : Decidable (validEhdr ehdr) := inferInstanceAs (Decidable (_ ∧ _))

def validateSegment (phdr : Phdr) (fileLength : Int) : Bool :=
  if phdr.offset &&& pgmask ≠ phdr.vaddr &&& pgmask then false
  else if phdr.offset > BitVec.ofInt 32 fileLength then false
  else if phdr.memsz < phdr.filesz then false
  else if phdr.memsz = 0 then false
  else if isUserVaddr phdr.vaddr = false then false
  else if isUserVaddr (phdr.vaddr + phdr.memsz) = false then false
  else if phdr.vaddr + phdr.memsz < phdr.vaddr then false
  else if phdr.vaddr < BitVec.ofNat 32 pgsize then false
  else true

/-- `ROUND_UP` to a multiple of the page size. -/
def roundUp (x : BitVec 32) : BitVec 32 :=
  (x + BitVec.ofNat 32 pgsize - 1) / BitVec.ofNat 32 pgsize * BitVec.ofNat 32 pgsize

structure Segment where
  readBytes : BitVec 32
  zeroBytes : BitVec 32
  upage : BitVec 32

/-- What a header asks `load_segment` for. -/
def Phdr.segment (phdr : Phdr) : Segment :=
  let pageOffset := phdr.vaddr &&& pgmask
  let memPage := phdr.vaddr &&& ~~~pgmask
  if 0 < phdr.filesz then
    let readBytes := pageOffset + phdr.filesz
    ⟨readBytes, roundUp (pageOffset + phdr.memsz) - readBytes, memPage⟩
  else ⟨0, roundUp (pageOffset + phdr.memsz), memPage⟩

def Segment.pageReadBytes (g : Segment) : BitVec 32 :=
  if g.readBytes < BitVec.ofNat 32 pgsize then g.readBytes else BitVec.ofNat 32 pgsize

def Segment.pageZeroBytes (g : Segment) : BitVec 32 := BitVec.ofNat 32 pgsize - g.pageReadBytes

def Segment.next (g : Segment) : Segment :=
  ⟨g.readBytes - g.pageReadBytes, g.zeroBytes - g.pageZeroBytes, g.upage + BitVec.ofNat 32 pgsize⟩

def installPage (upage : BitVec 32) (kpage : Nat) (writable : Bool) : Load Bool := do
  Exec.modify fun s => { s with installed := upage :: s.installed }
  match ← space (pagedirGetPage upage) with
  | some _ => pure false
  | none => space (pagedirSetPage upage kpage writable)

/-- The loop of `load_segment`. Every round takes a page of the user pool, which has fewer
than 2^20 of them. -/
def segmentLoop (writable : Bool) : Nat → Segment → Load Bool
  | 0, _ => Exec.stop .hang
  | n + 1, g =>
    if g.readBytes = 0 ∧ g.zeroBytes = 0 then pure true
    else do
      match ← memory (pallocGetPage { user := true }) with
      | none => pure false
      | some kpage => do
        let bytes ← fileRead g.pageReadBytes.toNat
        memory (Exec.modify fun m => m.store kpage bytes)
        if bytes.length ≠ g.pageReadBytes.toNat then do
          memory (pallocFreePage (some kpage))
          pure false
        else do
          memory (Exec.modify fun m => m.store (kpage + g.pageReadBytes.toNat)
            (List.replicate g.pageZeroBytes.toNat 0))
          if ← installPage g.upage kpage writable then segmentLoop writable n g.next
          else do
            memory (pallocFreePage (some kpage))
            pure false

def loadSegment (ofs : BitVec 32) (g : Segment) (writable : Bool) : Load Bool := do
  assert ((g.readBytes + g.zeroBytes).toNat % pgsize = 0)
  assert (pgOfs g.upage = 0)
  assert (ofs.toInt.tmod pgsize = 0)
  fileSeek ofs.toInt
  segmentLoop writable (2 ^ 20) g

def headerLoop : Nat → BitVec 32 → Load Bool
  | 0, _ => pure true
  | n + 1, fileOfs => do
    let length ← fileLength
    if fileOfs.toInt < 0 ∨ fileOfs.toInt > length then pure false
    else do
      fileSeek fileOfs.toInt
      let bytes ← fileRead sizeofPhdr
      if bytes.length ≠ sizeofPhdr then pure false
      else
        let phdr := Phdr.decode bytes
        let fileOfs := fileOfs + BitVec.ofNat 32 sizeofPhdr
        if phdr.type = ptDynamic ∨ phdr.type = ptInterp ∨ phdr.type = ptShlib then pure false
        else if phdr.type = ptLoad then do
          let length ← fileLength
          if validateSegment phdr length then do
            if ← loadSegment (phdr.offset &&& ~~~pgmask) phdr.segment phdr.writable then
              headerLoop n fileOfs
            else pure false
          else pure false
        else headerLoop n fileOfs

/-- The stack pointer, if the stack could be set up. -/
def setupStack : Load (Option (BitVec 32)) := do
  match ← memory (pallocGetPage { user := true, zero := true }) with
  | none => pure none
  | some kpage => do
    if ← installPage (physBase - BitVec.ofNat 32 pgsize) kpage true then pure (some physBase)
    else do
      memory (pallocFreePage (some kpage))
      pure none

/-- What `load` does with the open executable: the entry point and the stack pointer. -/
def loadFile : Load (Option (BitVec 32 × BitVec 32)) := do
  let bytes ← fileRead sizeofEhdr
  let ehdr := Ehdr.decode bytes
  if bytes.length ≠ sizeofEhdr ∨ ¬validEhdr ehdr then pure none
  else do
    if ← headerLoop ehdr.phnum ehdr.phoff then do
      match ← setupStack with
      | none => pure none
      | some esp => pure (some (ehdr.entry, esp))
    else pure none

/-- `load`, with the result of `filesys_open`, which stands at its first byte; `none` is a
failed load. -/
def load (file : Option OpenFile) : Load (Option (BitVec 32 × BitVec 32)) := do
  let pd ← space pagedirCreate
  space (setPagedir pd)
  match pd, file with
  | some _, some file => do
    Exec.modify fun s => { s with exe := { file with pos := 0 } }
    loadFile
  | _, _ => pure none

structure Valid (phdr : Phdr) (length : Nat) : Prop where
  same : phdr.offset.toNat % 4096 = phdr.vaddr.toNat % 4096
  inside : phdr.offset.toNat ≤ length
  sizes : phdr.filesz.toNat ≤ phdr.memsz.toNat
  pos : 0 < phdr.memsz.toNat
  low : 4096 ≤ phdr.vaddr.toNat
  high : phdr.vaddr.toNat + phdr.memsz.toNat < 3221225472

theorem validateSegment_valid {phdr : Phdr} {length : Nat} (lt : length < 2 ^ 31)
    (h : validateSegment phdr length = true) : Valid phdr length := by
  unfold validateSegment at h
  split_ifs at h with same inside sizes pos user top wrap low
  have size := phdr.memsz.isLt
  have len : (BitVec.ofInt 32 (length : Int)).toNat = length := by
    bv_omega
  have sum : (phdr.vaddr + phdr.memsz).toNat = (phdr.vaddr.toNat + phdr.memsz.toNat) % 2 ^ 32 :=
    toNat_add _ _
  simp only [Bool.not_eq_false, isUserVaddr_iff] at user top
  simp only [lt_def, gt_iff_lt, not_lt, len] at inside sizes wrap low
  refine ⟨?_, inside, sizes, ?_, low, by omega⟩
  · rw [← pgOfs_toNat, ← pgOfs_toNat]
    exact congrArg BitVec.toNat (not_not.mp same)
  · exact Nat.pos_of_ne_zero fun zero => pos (eq_of_toNat_eq zero)

theorem roundUp_toNat {x : BitVec 32} (h : x.toNat + 4095 < 2 ^ 32) :
    (roundUp x).toNat = (x.toNat + 4095) / 4096 * 4096 := by
  have size : (BitVec.ofNat 32 pgsize).toNat = 4096 := rfl
  have sum : (x + BitVec.ofNat 32 pgsize - 1).toNat = x.toNat + 4095 := by
    bv_omega
  rw [roundUp, BitVec.toNat_mul, BitVec.toNat_udiv, sum, size]
  omega

/-- The loop has `pages` pages to go, all of them in user memory and not the first one. -/
structure Segment.Fits (g : Segment) (pages : Nat) : Prop where
  total : g.readBytes.toNat + g.zeroBytes.toNat = 4096 * pages
  aligned : g.upage.toNat % 4096 = 0
  low : 4096 ≤ g.upage.toNat
  high : g.upage.toNat + 4096 * pages ≤ 3221225472

def Phdr.pages (phdr : Phdr) : Nat := (phdr.vaddr.toNat % 4096 + phdr.memsz.toNat + 4095) / 4096

/-- The bytes of those pages that are read from the file. -/
def Phdr.fileBytes (phdr : Phdr) : Nat :=
  if 0 < phdr.filesz.toNat then phdr.vaddr.toNat % 4096 + phdr.filesz.toNat else 0

theorem segment_spec {phdr : Phdr} {length : Nat} (h : Valid phdr length) :
    phdr.segment.Fits phdr.pages ∧ phdr.segment.readBytes.toNat = phdr.fileBytes ∧
      phdr.segment.upage.toNat = phdr.vaddr.toNat / 4096 * 4096 := by
  obtain ⟨-, -, sizes, pos, low, high⟩ := h
  have ofs : (phdr.vaddr &&& pgmask).toNat = phdr.vaddr.toNat % 4096 := pgOfs_toNat _
  have page : (phdr.vaddr &&& ~~~pgmask).toNat = phdr.vaddr.toNat / 4096 * 4096 :=
    pgRoundDown_toNat _
  have memory : ((phdr.vaddr &&& pgmask) + phdr.memsz).toNat =
      phdr.vaddr.toNat % 4096 + phdr.memsz.toNat := by
    rw [toNat_add, ofs]
    omega
  have rounded : (roundUp ((phdr.vaddr &&& pgmask) + phdr.memsz)).toNat = 4096 * phdr.pages := by
    rw [roundUp_toNat (by omega), memory, Phdr.pages, Nat.mul_comm]
  have bound : phdr.vaddr.toNat / 4096 * 4096 + 4096 * phdr.pages ≤ 3221225472 := by
    simp only [Phdr.pages]
    omega
  by_cases file : 0 < phdr.filesz
  · have file' : 0 < phdr.filesz.toNat := file
    have read : ((phdr.vaddr &&& pgmask) + phdr.filesz).toNat =
        phdr.vaddr.toNat % 4096 + phdr.filesz.toNat := by
      rw [toNat_add, ofs]
      omega
    have enough : phdr.vaddr.toNat % 4096 + phdr.filesz.toNat ≤ 4096 * phdr.pages := by
      simp only [Phdr.pages]
      omega
    have total : ((phdr.vaddr &&& pgmask) + phdr.filesz).toNat +
        (roundUp ((phdr.vaddr &&& pgmask) + phdr.memsz) -
          ((phdr.vaddr &&& pgmask) + phdr.filesz)).toNat = 4096 * phdr.pages := by
      rw [toNat_sub, rounded, read]
      omega
    rw [Phdr.segment, if_pos file, Phdr.fileBytes, if_pos file']
    exact ⟨⟨total, by simp only [page]; omega, by simp only [page]; omega,
      by simp only [page]; exact bound⟩, read, page⟩
  · have file' : ¬0 < phdr.filesz.toNat := file
    rw [Phdr.segment, if_neg file, Phdr.fileBytes, if_neg file']
    exact ⟨⟨by simpa using rounded, by simp only [page]; omega, by simp only [page]; omega,
      by simp only [page]; exact bound⟩, rfl, page⟩

variable {g : Segment} {pages : Nat}

theorem Segment.pageReadBytes_toNat (g : Segment) :
    g.pageReadBytes.toNat = min g.readBytes.toNat 4096 := by
  have size : (BitVec.ofNat 32 pgsize).toNat = 4096 := rfl
  rw [Segment.pageReadBytes]
  split_ifs with short
  · rw [lt_def, size] at short
    omega
  · rw [lt_def, size] at short
    rw [size]
    omega

theorem Segment.pageZeroBytes_toNat (g : Segment) :
    g.pageZeroBytes.toNat = 4096 - min g.readBytes.toNat 4096 := by
  have size : (BitVec.ofNat 32 pgsize).toNat = 4096 := rfl
  rw [Segment.pageZeroBytes, toNat_sub, g.pageReadBytes_toNat, size]
  omega

theorem Segment.Fits.done_iff (h : g.Fits pages) :
    g.readBytes = 0 ∧ g.zeroBytes = 0 ↔ pages = 0 := by
  have total := h.total
  constructor
  · rintro ⟨read, zero⟩
    have none : (0 : BitVec 32).toNat = 0 := rfl
    rw [read, zero, none] at total
    omega
  · rintro rfl
    exact ⟨eq_of_toNat_eq (by simp; omega), eq_of_toNat_eq (by simp; omega)⟩

theorem Segment.Fits.next_toNat (h : g.Fits (pages + 1)) :
    g.next.readBytes.toNat = g.readBytes.toNat - g.pageReadBytes.toNat ∧
      g.next.zeroBytes.toNat = g.zeroBytes.toNat - g.pageZeroBytes.toNat ∧
      g.next.upage.toNat = g.upage.toNat + 4096 := by
  have total := h.total
  have high := h.high
  have read := g.pageReadBytes_toNat
  have zero := g.pageZeroBytes_toNat
  refine ⟨?_, ?_, ?_⟩
  · rw [Segment.next, toNat_sub]
    omega
  · rw [Segment.next, toNat_sub]
    omega
  · have sum : g.next.upage.toNat = (g.upage.toNat + 4096) % 2 ^ 32 := toNat_add _ _
    rw [sum, Nat.mod_eq_of_lt (by omega)]

attribute [local irreducible] Segment.next

theorem Segment.Fits.next (h : g.Fits (pages + 1)) : g.next.Fits pages ∧
    g.pageReadBytes.toNat ≤ g.readBytes.toNat ∧ g.pageZeroBytes.toNat ≤ g.zeroBytes.toNat := by
  obtain ⟨read', zero', upage⟩ := h.next_toNat
  obtain ⟨total, aligned, low, high⟩ := h
  have read := g.pageReadBytes_toNat
  have zero := g.pageZeroBytes_toNat
  refine ⟨⟨by omega, by omega, ?_, by omega⟩, by omega, by omega⟩
  rw [upage]
  exact Nat.le_add_left _ _

end Pintos.Loader
