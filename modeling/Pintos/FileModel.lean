import Pintos.CallCreate

/-! The file system as its callers see it: names are bound to file objects, an object
is an array of bytes, and every open file has a position of its own. Removal only
unbinds the name, so an object lives on for those who have it open. -/

namespace Pintos.FileModel
open ByteStore Directory Calls CallCreate

structure Files where
  names : CString → Option Nat
  objects : List (List UInt8)
  /-- Object and position of each open file. -/
  handles : List (Option (Nat × Nat))

def Files.empty : Files := ⟨fun _ => none, [], []⟩

def Files.handle (a : Files) (h : Nat) : Option (Nat × Nat) := (a.handles[h]?).join

def Files.on (a : Files) (h : Nat) (op : Nat → Nat → Result × Files) : Result × Files :=
  match a.handle h with
  | none => (.noHandle, a)
  | some (o, pos) => op o pos

def Files.data (a : Files) (o : Nat) : List UInt8 := a.objects.getD o []

def Files.move (a : Files) (h o pos : Nat) : Files :=
  { a with handles := a.handles.set h (some (o, pos)) }

/-- One call; `room` says whether a new file would find a directory slot and sectors. -/
def Files.call (a : Files) (room : Bool) : Call → Result × Files
  | .filesysCreate name size =>
    if ValidName name ∧ a.names name = none ∧ room = true then
      (.done true, { a with
        names := Function.update a.names name (some a.objects.length)
        objects := a.objects ++ [List.replicate size 0] })
    else (.done false, a)
  | .filesysOpen name =>
    match a.names name with
    | none => (.opened none, a)
    | some o =>
      (.opened (some a.handles.length), { a with handles := a.handles ++ [some (o, 0)] })
  | .filesysRemove name =>
    match a.names name with
    | none => (.done false, a)
    | some _ => (.done true, { a with names := Function.update a.names name none })
  | .fileRead h size => a.on h fun o pos =>
    let bs := ((a.data o).drop pos).take size
    (.bytes bs, a.move h o (pos + bs.length))
  | .fileWrite h buffer => a.on h fun o pos =>
    let n := min buffer.val.length ((a.data o).length - pos)
    (.number n, { a.move h o (pos + n) with
      objects := a.objects.set o (overlay (a.data o) pos (buffer.val.take n)) })
  | .fileSeek h newPos => a.on h fun o _ => (.sought, a.move h o newPos)
  | .fileTell h => a.on h fun _ pos => (.number pos, a)
  | .fileLength h => a.on h fun o _ => (.number (a.data o).length, a)
  | .fileClose h => a.on h fun _ _ => (.closed, { a with handles := a.handles.set h none })

def Files.calls (a : Files) : List Call → List Bool → List Result × Files
  | op :: ops, room :: rooms =>
    let r := a.call room op
    let rs := Files.calls r.2 ops rooms
    (r.1 :: rs.1, rs.2)
  | _, _ => ([], a)

end Pintos.FileModel
