import Pintos.Directory

/-! Open files of `filesys/file.c` and the operations of `filesys/filesys.c`,
down to formatting a device. -/

namespace Pintos.Filesys
open Resumption ByteStore Bitmap Disk InodeIO Inode Directory

def fileOpen (inode : Option Nat) : Code (Option Nat) := do
  let ok ← malloc
  match inode, ok with
  | some p, true => do
    let s ← Prog.state
    let f := s.next
    Prog.modify fun s => { s with
      files := Function.update s.files f (some { inode := p, pos := 0, denyWrite := false })
      next := f + 1 }
    pure (some f)
  | _, _ => do
    inodeClose inode
    pure none

def fileReopen (file : Nat) : Code (Option Nat) := do
  let f ← getFile file
  let p ← inodeReopen f.inode
  fileOpen (some p)

def fileDenyWrite (file : Nat) : Code Unit := do
  let f ← getFile file
  if f.denyWrite then pure ()
  else do
    setFile file fun f => { f with denyWrite := true }
    inodeDenyWrite f.inode

def fileAllowWrite (file : Nat) : Code Unit := do
  let f ← getFile file
  if f.denyWrite then do
    setFile file fun f => { f with denyWrite := false }
    inodeAllowWrite f.inode
  else pure ()

def fileClose : Option Nat → Code Unit
  | none => pure ()
  | some file => do
    fileAllowWrite file
    let f ← getFile file
    inodeClose (some f.inode)
    Prog.modify fun s => { s with files := Function.update s.files file none }

def fileRead (file : Nat) (size : Int) : Code (List UInt8) := do
  let f ← getFile file
  let bs ← inodeReadAt f.inode size f.pos
  setFile file fun f => { f with pos := f.pos + bs.length }
  pure bs

def fileWrite (file : Nat) (buffer : List UInt8) (size : Int) : Code Int := do
  let f ← getFile file
  let n ← inodeWriteAt f.inode (fun _ => buffer) size f.pos
  setFile file fun f => { f with pos := f.pos + n }
  pure n

def fileLength (file : Nat) : Code Int := do
  let f ← getFile file
  inodeLength f.inode

def fileSeek (file : Nat) (newPos : Int) : Code Unit := do
  Prog.assert (0 ≤ newPos)
  setFile file fun f => { f with pos := newPos }

def fileTell (file : Nat) : Code Int := do
  let f ← getFile file
  pure f.pos

/-- The chain of `filesys_create` up to its first failure: whether it succeeded,
and the value of `inode_sector`. -/
def createChain (dir : Option Dir) (name : CString) (initialSize : Int) : Code (Bool × Nat) :=
  match dir with
  | none => pure (false, 0)
  | some dir => do
    match ← freeMapAllocate 1 with
    | none => pure (false, 0)
    | some inodeSector => do
      let created ← inodeCreate inodeSector initialSize
      if created then do
        let added ← dirAdd dir name inodeSector
        pure (added, inodeSector)
      else pure (false, inodeSector)

/-- The one clean-up branch of `filesys_create`. -/
def createUndo (success : Bool) (inodeSector : Nat) : Code Unit :=
  if !success ∧ inodeSector ≠ 0 then freeMapRelease inodeSector 1 else pure ()

def filesysCreate (name : CString) (initialSize : Int) : Code Bool := do
  let dir ← dirOpenRoot
  let (success, inodeSector) ← createChain dir name initialSize
  createUndo success inodeSector
  dirClose dir
  pure success

def openNamed (dir : Option Dir) (name : CString) : Code (Option Nat) :=
  match dir with
  | none => pure none
  | some dir => dirLookup dir name

def filesysOpen (name : CString) : Code (Option Nat) := do
  let dir ← dirOpenRoot
  let inode ← openNamed dir name
  dirClose dir
  fileOpen inode

def removeNamed (dir : Option Dir) (name : CString) : Code Bool :=
  match dir with
  | none => pure false
  | some dir => dirRemove dir name

def filesysRemove (name : CString) : Code Bool := do
  let dir ← dirOpenRoot
  let success ← removeNamed dir name
  dirClose dir
  pure success

theorem bitCnt_of_device (d : Device) : d.size + 31 < 2 ^ 32 := by
  have := d.size_lt
  omega

def freeMapInit : Code Unit := do
  let s ← Prog.state
  let header ← malloc
  Prog.assert (header = true)
  let words ← malloc
  Prog.assert (words = true ∨ s.device.size = 0)
  let b ← Prog.demand (bitmapCreate s.device.size s.junk (bitCnt_of_device s.device))
  Prog.modify fun s => { s with
    freeMap := bitmapMark (bitmapMark b freeMapSector) rootDirSector }

def freeMapCreate : Code Unit := do
  let s ← Prog.state
  let ok ← inodeCreate freeMapSector (byteCnt s.freeMap.bitCnt : Nat)
  Prog.assert (ok = true)
  let inode ← inodeOpen freeMapSector
  let file ← fileOpen inode
  Prog.modify fun s => { s with freeMapFile := file }
  let f ← Prog.demand file
  let ok ← bitmapWrite f
  Prog.assert (ok = true)

def freeMapOpen : Code Unit := do
  let inode ← inodeOpen freeMapSector
  let file ← fileOpen inode
  Prog.modify fun s => { s with freeMapFile := file }
  let f ← Prog.demand file
  let ok ← bitmapRead f
  Prog.assert (ok = true)

def freeMapClose : Code Unit := do
  let s ← Prog.state
  fileClose s.freeMapFile

def doFormat : Code Unit := do
  freeMapCreate
  let ok ← dirCreate rootDirSector 16
  Prog.assert (ok = true)
  freeMapClose

def filesysInit (format : Bool) : Code Unit := do
  Prog.modify fun s => { s with openInodes := [] }
  freeMapInit
  if format then doFormat else pure ()
  freeMapOpen

def boot (d : Device) (junk : Nat → BitVec 32) : FS where
  device := d
  freeMap := ⟨0, [], rfl, by decide⟩
  freeMapFile := none
  inodes _ := none
  openInodes := []
  files _ := none
  next := 0
  mallocs := []
  junk := junk

end Pintos.Filesys
