import Pintos.Resumption
import Pintos.Bitmap

/-! State of the file system and its block device. The device is a byte store
read and written one sector at a time; both calls sleep, and the labels of the
pauses say at which sector. In-memory inodes and files live in two heaps whose
pointers are never reused. `mallocs` lists the outcomes of the next allocations;
past its end every allocation succeeds. -/

namespace Pintos.Disk
open Resumption ByteStore Bitmap Function
open Protocol (wp_assert wp_bind wp_pure wp_sleep wp_state)

def sectorSize : Nat := 512

/-- `identify_ata_device` ignores disks of 1 GB or more, and a partition lies
inside its disk. -/
structure Device where
  size : Nat
  data : Nat → UInt8
  size_lt : size < 2 ^ 21

def Device.write (d : Device) (a : Nat) (bs : List UInt8) : Device :=
  { d with data := splice d.data a bs }

structure InodeDisk where
  start : Nat
  length : Int
  magic : Nat
  deriving DecidableEq

structure Inode where
  sector : Nat
  openCnt : Int
  removed : Bool
  denyWriteCnt : Int
  data : InodeDisk
  deriving DecidableEq

structure File where
  inode : Nat
  pos : Int
  denyWrite : Bool
  deriving DecidableEq

structure FS where
  device : Device
  freeMap : Bits
  freeMapFile : Option Nat
  inodes : Nat → Option Inode
  openInodes : List Nat
  files : Nat → Option File
  next : Nat
  mallocs : List Bool
  /-- What memory from `malloc` holds before it is written. -/
  junk : Nat → BitVec 32

/-- Where a thread sleeps: at the start of a call, or in the block layer. A write
sleeps a second time, for the device to acknowledge it. -/
inductive Sleep where
  | call
  | read (sector : Nat)
  | write (sector : Nat)
  | written (sector : Nat)
  deriving DecidableEq

abbrev Code := Prog Sleep FS

def malloc : Code Bool := do
  let s ← Prog.state
  match s.mallocs with
  | [] => pure true
  | ok :: rest => do
    Prog.modify fun s => { s with mallocs := rest }
    pure ok

/-- `check_sector` panics past the end of the device. -/
def blockRead (sector : Nat) : Code (List UInt8) := do
  let s ← Prog.state
  Prog.assert (sector < s.device.size)
  Prog.sleep (.read sector)
  let s ← Prog.state
  pure (slice s.device.data (sectorSize * sector) sectorSize)

/-- The buffer is memory of the caller, looked at when the transfer happens. -/
def blockWrite (sector : Nat) (buffer : FS → List UInt8) : Code Unit := do
  let s ← Prog.state
  Prog.assert (sector < s.device.size)
  Prog.sleep (.write sector)
  Prog.modify fun s =>
    { s with device := s.device.write (sectorSize * sector) ((buffer s).take sectorSize) }
  Prog.sleep (.written sector)

def getInode (p : Nat) : Code Inode := do
  let s ← Prog.state
  Prog.demand (s.inodes p)

def setInode (p : Nat) (f : Inode → Inode) : Code Unit :=
  Prog.modify fun s => { s with inodes := update s.inodes p ((s.inodes p).map f) }

def getFile (p : Nat) : Code File := do
  let s ← Prog.state
  Prog.demand (s.files p)

def setFile (p : Nat) (f : File → File) : Code Unit :=
  Prog.modify fun s => { s with files := update s.files p ((s.files p).map f) }

@[simp] theorem Device.write_size (d : Device) (a : Nat) (bs : List UInt8) :
    (d.write a bs).size = d.size := rfl

@[simp] theorem Device.write_data (d : Device) (a : Nat) (bs : List UInt8) :
    (d.write a bs).data = splice d.data a bs := rfl

theorem Device.write_append (d : Device) (a : Nat) (xs ys : List UInt8) :
    (d.write a xs).write (a + xs.length) ys = d.write a (xs ++ ys) := by
  simp only [Device.write, splice_append]
variable {s : FS} {sector p : Nat}

theorem run_malloc (h : s.mallocs = []) : Prog.run malloc s = some (true, s) := by
  simp [malloc, Prog.run_bind, h]

theorem run_malloc_cases (s : FS) :
    ∃ ok ms, Prog.run malloc s = some (ok, { s with mallocs := ms }) := by
  cases answers : s.mallocs with
  | nil => exact ⟨true, s.mallocs, run_malloc answers⟩
  | cons ok rest =>
    refine ⟨ok, rest, ?_⟩
    simp [malloc, Prog.run_bind, answers]

theorem run_blockRead (h : sector < s.device.size) :
    Prog.run (blockRead sector) s =
      some (slice s.device.data (sectorSize * sector) sectorSize, s) := by
  simp [blockRead, Prog.run_bind, Prog.run_assert h]

theorem run_blockWrite {buffer : FS → List UInt8} (h : sector < s.device.size) :
    Prog.run (blockWrite sector buffer) s = some ((),
      { s with device := s.device.write (sectorSize * sector) ((buffer s).take sectorSize) }) := by
  simp [blockWrite, Prog.run_bind, Prog.run_assert h]

theorem run_getInode {ino : Inode} (h : s.inodes p = some ino) :
    Prog.run (getInode p) s = some (ino, s) := by
  simp [getInode, Prog.run_bind, h]

theorem run_getFile {f : File} (h : s.files p = some f) : Prog.run (getFile p) s = some (f, s) := by
  simp [getFile, Prog.run_bind, h]

@[simp] theorem run_setInode (s : FS) (p : Nat) (f : Inode → Inode) :
    Prog.run (setInode p f) s =
      some ((), { s with inodes := update s.inodes p ((s.inodes p).map f) }) := rfl

@[simp] theorem run_setFile (s : FS) (p : Nat) (f : File → File) :
    Prog.run (setFile p f) s =
      some ((), { s with files := update s.files p ((s.files p).map f) }) := rfl

section Interleaved

variable {τ γ : Type} [DecidableEq τ] {P : Protocol τ Sleep γ FS} {i : τ}

theorem wp_malloc {Q : Bool → (τ → γ) → FS → Prop} {g : τ → γ} (h : s.mallocs = [])
    (post : Q true g s) : P.wp i Q malloc g s := by
  rw [malloc, wp_bind, wp_state, h]
  exact post

theorem wp_blockRead {Q : List UInt8 → (τ → γ) → FS → Prop} {g : τ → γ}
    (h : sector < s.device.size)
    (post : P.Across i (.read sector) (fun g s => Q
      (slice s.device.data (sectorSize * sector) sectorSize) g s) g s) :
    P.wp i Q (blockRead sector) g s := by
  simp only [blockRead, wp_bind, wp_state, wp_sleep, wp_pure]
  exact wp_assert h post

theorem wp_blockWrite {Q : Unit → (τ → γ) → FS → Prop} {g : τ → γ} {buffer : FS → List UInt8}
    (h : sector < s.device.size)
    (post : P.Across i (.write sector) (fun g s => P.Across i (.written sector) (Q ()) g
      { s with device := s.device.write (sectorSize * sector) ((buffer s).take sectorSize) }) g s) :
    P.wp i Q (blockWrite sector buffer) g s := by
  simp only [blockWrite, wp_bind, wp_state, wp_sleep, Protocol.wp_modify]
  exact wp_assert h post

theorem wp_getInode {Q : Inode → (τ → γ) → FS → Prop} {g : τ → γ} {ino : Inode}
    (h : s.inodes p = some ino) (post : Q ino g s) : P.wp i Q (getInode p) g s := by
  rw [getInode, wp_bind, wp_state, h]
  exact post

theorem wp_getFile {Q : File → (τ → γ) → FS → Prop} {g : τ → γ} {f : Nat} {file : File}
    (h : s.files f = some file) (post : Q file g s) : P.wp i Q (getFile f) g s := by
  rw [getFile, wp_bind, wp_state, h]
  exact post

end Interleaved

end Pintos.Disk
