import Pintos.Sectors

/-! File descriptors of `userprog/syscall.c` and the system calls that only go to the file
system with them. The list of a thread holds its descriptors in the order of their numbers; the
blocks of the list come from `malloc`, which is asked as by the file system itself. A file name
is the one that `copy_in_string` has copied into the kernel. -/

namespace Pintos.Descriptors
open Resumption ByteStore Disk Inode Directory Filesys Calls CallCreate CallFiles Format Refinement
open Sectors (blank_space)

structure FileDescriptor where
  fd : BitVec 32
  file : Nat
  deriving DecidableEq

structure Thread where
  fdList : Option (List FileDescriptor)
  nextFd : BitVec 32
  deriving DecidableEq

def Thread.new : Thread := ⟨none, 2⟩

def Thread.entries (t : Thread) : List FileDescriptor := t.fdList.getD []

/-- What `allocate_fd` does when there is no list: it makes one, or it gives the pointer of an
entry back that it never set, and everything may happen then. -/
def makeList (cur : Thread) : Code Thread :=
  match cur.fdList with
  | some _ => pure cur
  | none => do
    let ok ← malloc
    if ok then pure { cur with fdList := some [] } else Prog.fail

def allocateFd (cur : Thread) (file : Nat) : Code (BitVec 32 × Thread) := do
  let cur ← makeList cur
  let ok ← malloc
  if ok then
    pure (cur.nextFd, ⟨some (cur.entries ++ [⟨cur.nextFd, file⟩]), cur.nextFd + 1⟩)
  else pure (-1, cur)

def findFd (cur : Thread) (fd : BitVec 32) : Option FileDescriptor :=
  cur.entries.find? fun e => e.fd = fd

def closeFd (cur : Thread) (fd : BitVec 32) : Code Thread :=
  match findFd cur fd with
  | none => pure cur
  | some e => do
    fileClose (some e.file)
    pure { cur with fdList := some (cur.entries.eraseP fun e => e.fd = fd) }

def sysCreate (file : CString) (initialSize : BitVec 32) : Code Bool :=
  filesysCreate file initialSize.toInt

def sysRemove (file : CString) : Code Bool := filesysRemove file

def sysOpen (cur : Thread) (file : CString) : Code (BitVec 32 × Thread) := do
  match ← filesysOpen file with
  | none => pure (-1, cur)
  | some filePtr => do
    let (fd, cur) ← allocateFd cur filePtr
    if fd = -1 then do
      fileClose (some filePtr)
      pure (-1, cur)
    else pure (fd, cur)

def sysFilesize (cur : Thread) (fd : BitVec 32) : Code (BitVec 32) :=
  match findFd cur fd with
  | none => pure (-1)
  | some e => do
    let length ← fileLength e.file
    pure (BitVec.ofInt 32 length)

/-- `position` is an `unsigned`, and `file_seek` takes an `off_t`. -/
def sysSeek (cur : Thread) (fd position : BitVec 32) : Code Unit :=
  match findFd cur fd with
  | none => pure ()
  | some e => fileSeek e.file position.toInt

def sysTell (cur : Thread) (fd : BitVec 32) : Code (BitVec 32) :=
  match findFd cur fd with
  | none => pure 0
  | some e => do
    let pos ← fileTell e.file
    pure (BitVec.ofInt 32 pos)

def sysClose (cur : Thread) (fd : BitVec 32) : Code Thread := closeFd cur fd

variable {s : FS} {hs : List (Option Nat)} {f0 p0 : Nat} {cur : Thread} {fd position : BitVec 32}

theorem toInt_small {x : BitVec 32} (small : x.toNat < 2 ^ 31) : x.toInt = (x.toNat : Int) :=
  BitVec.toInt_eq_toNat_of_lt (by omega)

theorem run_sysSeek (cur : Thread) (fd : BitVec 32) (small : position.toNat < 2 ^ 31) (s : FS) :
    ∃ s', Prog.run (sysSeek cur fd position) s = some ((), s') ∧ ∀ e file, findFd cur fd = some e →
    s.files e.file = some file → s'.files e.file = some { file with pos := position.toInt } := by
  rw [sysSeek]
  cases found : findFd cur fd with
  | none => exact ⟨s, rfl, nofun⟩
  | some e =>
    have sign : 0 ≤ position.toInt := by
      rw [toInt_small small]
      exact Int.natCast_nonneg _
    simp only [fileSeek]
    rw [Prog.run_bind_of (Prog.run_assert sign s)]
    refine ⟨_, run_setFile s _ _, fun e' file same opened => ?_⟩
    cases same
    simp [opened]

end Pintos.Descriptors
