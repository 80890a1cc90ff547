import Pintos.Fsutil

/-! `fsutil_extract` of `filesys/fsutil.c`.  The scratch device is read one sector after
another from the function's static position, and the sectors read are recorded.  An
archive is described apart from the function, by the sectors that hold it. -/

namespace Pintos.Extract

open Function
open Resumption ByteStore Disk CallFiles Inode Directory Filesys Volume Calls CallCreate Format
open FileModel Refinement ConcurrentCreate Ustar Fsutil
open Option (bind_eq_bind bind_some map_none map_some pure_def)
open List (replicate)

/-- The sectors of the scratch device that were read, in order, with the rest of the state. -/
structure State extends Fsutil.State where
  reads : List Nat

/-- `block_read (src, sector++, buffer)`; a read past the end of the device is a panic. -/
def scratchRead (s : State) : Option (List UInt8 × State) :=
  if s.sector.toNat < s.scratch.size then
    some (slice s.scratch.data (sectorSize * s.sector.toNat) sectorSize,
      { s with sector := s.sector + 1, reads := s.reads ++ [s.sector.toNat] })
  else none

def copyLoop (dst : Nat) : Nat → Nat → State → Option State
  | 0, _, _ => none
  | fuel + 1, size, s =>
    if 0 < size then do
      let chunkSize := if size > sectorSize then sectorSize else size
      let (data, s) ← scratchRead s
      let (written, fs) ← Prog.run (fileWrite dst data chunkSize) s.fs
      guard (written = chunkSize)
      copyLoop dst fuel (size - chunkSize) { s with fs := fs }
    else some s

def putFile (fileName : CString) (size : Nat) (s : State) : Option State := do
  let (made, fs) ← Prog.run (filesysCreate fileName size) s.fs
  guard (made = true)
  let (dst, fs) ← Prog.run (filesysOpen fileName) fs
  let dst ← dst
  let s ← copyLoop dst (size + 1) size { s with fs := fs }
  let ((), fs) ← Prog.run (fileClose (some dst)) s.fs
  return { s with fs := fs }

def cString (bytes : List UInt8) : CString :=
  ⟨bytes.takeWhile (· != 0), fun member => by simpa using List.mem_takeWhile_imp member⟩

def header (sector : List UInt8) : Nat → UInt8 := fun i => sector.getD i 0

/-- The loop over the entries; every round reads a sector. -/
def entryLoop : Nat → State → Option State
  | 0, _ => none
  | fuel + 1, s => do
    let (sector, s) ← scratchRead s
    match ← ustarParseHeader (header sector) with
    | .error _ => none
    | .ok ⟨_, .eof, _⟩ => some s
    | .ok ⟨_, .directory, _⟩ => entryLoop fuel s
    | .ok ⟨fileName, .regular, size⟩ => do
      let s ← putFile (cString (← fileName)) size.toNat s
      entryLoop fuel s

/-- `buffers` says whether `malloc` finds the buffers, and `none` of the result is a panic. -/
def fsutilExtract (buffers : Bool × Bool) (s : State) : Option State := do
  guard (buffers.1 = true ∧ buffers.2 = true)
  let s ← entryLoop (s.scratch.size + 1) s
  let scratch ← scratchWrite s.scratch 0 (replicate sectorSize 0)
  let scratch ← scratchWrite scratch 1 (replicate sectorSize 0)
  return { s with scratch := scratch }

structure Archived where
  name : CString
  bytes : List UInt8
  small : bytes.length < 2 ^ 31

def sectorAt (d : Device) (i : Nat) : List UInt8 :=
  slice d.data (512 * i) 512

/-- From sector `i` on the device holds the entries of an archive, whose regular files are
`files`, and a sector of zeros at `last`. -/
inductive Archive (d : Device) : Nat → List Archived → Nat → Prop
  | zeros {i : Nat} (inside : i < d.size) (clear : sectorAt d i = replicate 512 0) :
      Archive d i [] i
  | directory {i last : Nat} {files : List Archived} {name : Option (List UInt8)}
      {size : BitVec 32} (inside : i < d.size)
      (accepted : ustarParseHeader (header (sectorAt d i)) = some (.ok ⟨name, .directory, size⟩))
      (rest : Archive d (i + 1) files last) : Archive d i files last
  | regular {i last : Nat} {files : List Archived} {name : List UInt8} {size : BitVec 32}
      {file : Archived} (inside : i < d.size)
      (accepted : ustarParseHeader (header (sectorAt d i)) = some (.ok ⟨some name, .regular, size⟩))
      (named : file.name = cString name)
      (held : file.bytes = slice d.data (512 * (i + 1)) size.toNat)
      (fits : i + 1 + sectorCount file.bytes ≤ d.size)
      (rest : Archive d (i + 1 + sectorCount file.bytes) files last) : Archive d i (file :: files) last

theorem chunk_small (bytes : List UInt8) : (bytes.take 512).length < 2 ^ 31 := by
  rw [List.length_take]
  omega

/-- The writes that fill a new file, a sector at a time. -/
def chunkCalls (h : Nat) : Nat → List UInt8 → List Call
  | 0, _ => []
  | n + 1, bytes =>
    .fileWrite h ⟨bytes.take 512, chunk_small bytes⟩ :: chunkCalls h n (bytes.drop 512)

def putCalls (h : Nat) (file : Archived) : List Call :=
  .filesysCreate file.name ⟨file.bytes.length, file.small⟩ :: .filesysOpen file.name ::
    (chunkCalls h (sectorCount file.bytes) file.bytes ++ [.fileClose h])

/-- There is room for all files, when they are put in one after another. -/
def Fits (c : Client) : List Archived → Prop
  | [] => True
  | file :: files => Room c.fs file.bytes.length ∧
    ∀ rs c', c.calls (putCalls c.handles.length file) = some (rs, c') → Fits c' files

def fileAt (s : FS) (name : CString) : Option (List UInt8) :=
  (find (rootDir s.device) name).map (content s.device)
variable {c : Client} {s : State}

section
variable {fs : FS} {hs : List (Option Nat)} {a : Files} {f0 p0 : Nat} {obj : Nat → Nat}
  {k f o pos : Nat}

theorem fileAt_eq (sim : Sim c a f0 p0 obj) (name : CString) :
    fileAt c.fs name = (a.names name).map a.data := by
  rw [fileAt, sim.names]
  cases found : find (rootDir c.fs.device) name with
  | none => rw [map_none, map_none, map_none]
  | some i =>
    obtain ⟨live, file⟩ := sim.named_file name found
    rw [map_some, map_some, map_some, data_of_objects (sim.objects i live file)]

theorem run_write (sim : Sim ⟨fs, hs⟩ a f0 p0 obj) (here : hs[k]? = some (some f))
    (hand : a.handle k = some (o, pos)) {data : List UInt8} {size : Nat}
    (long : size ≤ data.length) (small : (data.take size).length < 2 ^ 31) :
    let n := min (data.take size).length ((a.data o).length - pos)
    ∃ fs' obj', Prog.run (fileWrite f data size) fs = some ((n : Int), fs') ∧
      Client.call ⟨fs, hs⟩ (.fileWrite k ⟨data.take size, small⟩) =
        some (.number n, ⟨fs', hs⟩) ∧
      Sim ⟨fs', hs⟩ { a.move k o (pos + n) with
        objects := a.objects.set o (overlay (a.data o) pos ((data.take size).take n)) }
        f0 p0 obj' := by
  intro n
  obtain ⟨c', obj', call, sim'⟩ := write_matched k sim ⟨data.take size, small⟩
  simp only [Files.call, Files.on, hand] at call sim'
  have ran := call
  simp only [Client.call] at ran
  obtain ⟨r, fs', run, answered, rfl⟩ := on_run (f := f) (by simp [Client.handle, here]) ran
  obtain rfl : r = (n : Int) := Result.number.inj answered
  obtain ⟨file, x, h⟩ := Inv.opened sim.inv (List.mem_of_getElem? here)
  refine ⟨fs', obj', ?_, call, sim'⟩
  have length : (data.take size).length = size := List.length_take_of_le long
  rw [← run, length, run_fileWrite h.entry h.pos h.loaded h.allowed (by simpa using long),
    run_fileWrite h.entry h.pos h.loaded h.allowed (by simp [length]), List.take_take,
    Nat.min_eq_left (by simp [ InodeIO.ioCount])]

end

theorem scratchRead_eq (inside : s.sector.toNat < s.scratch.size) :
    scratchRead s = some (sectorAt s.scratch s.sector.toNat,
      { s with sector := s.sector + 1, reads := s.reads ++ [s.sector.toNat] }) :=
  if_pos inside

theorem sector_next (inside : s.sector.toNat < s.scratch.size) :
    (s.sector + 1).toNat = s.sector.toNat + 1 := by
  have one : (1 : BitVec 32).toNat = 1 := rfl
  have small := s.scratch.size_lt
  rw [BitVec.toNat_add]
  omega

structure Advanced (s s' : State) (count : Nat) : Prop where
  scratch : s'.scratch = s.scratch
  sector : s'.sector.toNat = s.sector.toNat + count
  reads : s'.reads = s.reads ++ List.range' s.sector.toNat count

section
variable {hs : List (Option Nat)} {a : Files} {f0 p0 : Nat} {obj : Nat → Nat} {k f : Nat}

theorem copyLoop_spec (sim : Sim ⟨s.fs, hs⟩ a f0 p0 obj) (here : hs[k]? = some (some f))
    {objects : List (List UInt8)} {done rest : List UInt8}
    (hand : a.handle k = some (objects.length, done.length))
    (held : a.objects = objects ++ [done ++ replicate rest.length 0])
    (source : rest = slice s.scratch.data (512 * s.sector.toNat) rest.length)
    (inside : s.sector.toNat + sectorCount rest ≤ s.scratch.size) {fuel : Nat}
    (enough : rest.length < fuel) : ∃ s' rs a' obj' q, copyLoop f fuel rest.length s = some s' ∧
    Client.calls ⟨s.fs, hs⟩ (chunkCalls k (sectorCount rest) rest) = some (rs, ⟨s'.fs, hs⟩) ∧
    Sim ⟨s'.fs, hs⟩ a' f0 p0 obj' ∧ a'.names = a.names ∧ a'.objects = objects ++ [done ++ rest] ∧
    a'.handle k = some (objects.length, q) ∧ Advanced s s' (sectorCount rest) := by
  induction fuel generalizing s a obj done rest with
  | zero => omega
  | succ fuel ih =>
    by_cases empty : rest.length = 0
    · obtain rfl := List.eq_nil_of_length_eq_zero empty
      refine ⟨s, [], a, obj, done.length, by simp [copyLoop], rfl, sim, rfl, by simpa using held,
        hand, rfl, rfl, ?_⟩
      simp [sectorCount]
    have some : 0 < rest.length := by omega
    obtain ⟨-, count⟩ := padded_step some
    have chunk : (if rest.length > sectorSize then sectorSize else rest.length) =
        min 512 rest.length := by
      rw [sectorSize]
      split <;> omega
    have within : s.sector.toNat < s.scratch.size := by omega
    have next := sector_next within
    have data : a.data objects.length = done ++ replicate rest.length 0 := by
      rw [Files.data, held, List.getD_eq_getElem?_getD, List.getElem?_concat_length]
      rfl
    have length : (rest.take 512).length = min 512 rest.length := List.length_take
    have cut : rest.take 512 = slice s.scratch.data (512 * s.sector.toNat) (min 512 rest.length) :=
      (congrArg (List.take 512) source).trans (by
        rw [List.take_eq_take_min, slice_length, slice_take _ _ _ _ (Nat.min_le_right ..)])
    have taken : (sectorAt s.scratch s.sector.toNat).take (min 512 rest.length) =
        rest.take 512 := by
      rw [sectorAt, slice_take _ _ _ _ (by omega), cut]
    have all : min (rest.take 512).length ((a.data objects.length).length - done.length) =
        (rest.take 512).length := by
      rw [data, List.length_append, List.length_replicate]
      omega
    obtain ⟨fs', obj', write, call, sim'⟩ := run_write sim here hand
      (show min 512 rest.length ≤ (sectorAt s.scratch s.sector.toNat).length by
        rw [sectorAt, slice_length]
        omega) (by rw [taken]; omega)
    simp only [taken, all, List.take_length] at write call sim'
    have left : rest.length = (rest.take 512).length + (rest.drop 512).length := by
      rw [← List.length_append, List.take_append_drop]
    have written : a.objects.set objects.length (overlay (a.data objects.length) done.length
        (rest.take 512)) = objects ++ [(done ++ rest.take 512) ++
          replicate (rest.drop 512).length 0] := by
      rw [data, left, overlay, List.take_left, ← List.drop_drop, List.drop_left, List.drop_replicate,
        Nat.add_sub_cancel_left, held, List.set_append_right _ _ (Nat.le_refl _), Nat.sub_self,
        List.set_cons_zero]
    have source' : rest.drop 512 =
        slice s.scratch.data (512 * (s.sector + 1).toNat) (rest.drop 512).length := by
      have dropped := (congrArg (List.drop 512) source).trans (slice_drop ..)
      rwa [← List.length_drop, ← Nat.mul_succ, Nat.succ_eq_add_one, ← next] at dropped
    obtain ⟨s', rs, a', obj'', q, looped, called, simEnd, names, final, handEnd, advanced⟩ :=
      ih (s := { s with fs := fs', sector := s.sector + 1, reads := s.reads ++ [s.sector.toNat] })
        sim' (by rw [List.length_append]; exact move_handle (handle_lt hand) _) written
        source' (by simp only [next]; omega) (by rw [List.length_drop]; omega)
    refine ⟨s', .number (rest.take 512).length :: rs, a', obj'', q, ?_, ?_, simEnd, names, ?_,
      handEnd, advanced.scratch, ?_, ?_⟩
    · have fewer : rest.length - min 512 rest.length = (rest.drop 512).length := by omega
      rw [copyLoop, if_pos some]
      simp only [chunk, scratchRead_eq within, write, length, fewer, guard, bind_eq_bind,
        pure_def, bind_some, if_true]
      exact looped
    · rw [count, chunkCalls, Client.calls, call]
      simp only [bind_eq_bind, bind_some, called]
    · rw [final, List.append_assoc, List.take_append_drop]
    · rw [advanced.sector, count, next]
      omega
    · rw [advanced.reads, count, next, List.range'_succ, List.append_assoc]
      rfl

theorem calls_cons {c' c'' : Client} {op : Call} {ops : List Call} {r : Result} {rs : List Result}
    (first : c.call op = some (r, c')) (others : c'.calls ops = some (rs, c'')) :
    c.calls (op :: ops) = some (r :: rs, c'') := by
  rw [Client.calls, first]
  simp only [bind_eq_bind, bind_some, others]

theorem calls_append {c' c'' : Client} {ops ops' : List Call} {rs rs' : List Result}
    (first : c.calls ops = some (rs, c')) (second : c'.calls ops' = some (rs', c'')) :
    c.calls (ops ++ ops') = some (rs ++ rs', c'') := by
  induction ops generalizing c rs with
  | nil =>
    obtain ⟨rfl, rfl⟩ := Prod.mk.inj (Option.some.inj first)
    exact second
  | cons op ops ih =>
    simp only [Client.calls, bind_eq_bind, Option.bind_eq_some_iff] at first
    obtain ⟨⟨r, next⟩, call, ⟨results, last⟩, calls, same⟩ := first
    obtain ⟨rfl, rfl⟩ := Prod.mk.inj (Option.some.inj same)
    exact calls_cons call (ih calls)

theorem putFile_spec (sim : Sim ⟨s.fs, hs⟩ a f0 p0 obj) {file : Archived}
    (valid : ValidName file.name) (absent : fileAt s.fs file.name = none)
    (room : Room s.fs file.bytes.length)
    (source : file.bytes = slice s.scratch.data (512 * s.sector.toNat) file.bytes.length)
    (inside : s.sector.toNat + sectorCount file.bytes ≤ s.scratch.size) :
    ∃ s' rs a' obj', putFile file.name file.bytes.length s = some s' ∧
      Client.calls ⟨s.fs, hs⟩ (putCalls hs.length file) = some (rs, ⟨s'.fs, hs ++ [none]⟩) ∧
      Sim ⟨s'.fs, hs ++ [none]⟩ a' f0 p0 obj' ∧ fileAt s'.fs file.name = some file.bytes ∧
      (∀ name, name ≠ file.name → fileAt s'.fs name = fileAt s.fs name) ∧
      Advanced s s' (sectorCount file.bytes) := by
  have unbound : a.names file.name = none := by
    rw [fileAt_eq sim, Option.map_eq_none_iff] at absent
    exact absent
  obtain ⟨c', obj1, call1, sim1⟩ := create_matched sim file.name ⟨file.bytes.length, file.small⟩
  have found : roomFor s.fs (.filesysCreate file.name ⟨file.bytes.length, file.small⟩) = true :=
    decide_eq_true room
  simp only [Files.call, found, valid, unbound, and_self, if_true] at call1 sim1
  obtain ⟨⟨ok, fs1⟩, create, answer⟩ := Option.map_eq_some_iff.mp call1
  simp only [Prod.mk.injEq, Result.done.injEq] at answer
  obtain ⟨rfl, rfl⟩ := answer
  obtain ⟨f, fs2, obj2, opened, sim2⟩ := run_open sim1 (update_self ..)
  have here : (hs ++ [some f])[hs.length]? = some (some f) := by simp
  have same : a.handles.length = hs.length := by simp [sim.handles]
  obtain ⟨s3, rs, a3, obj3, q, looped, call3, sim3, names, objects, hand, advanced⟩ :=
    copyLoop_spec (s := { s with fs := fs2 }) sim2 here
      (show _ = some (a.objects.length, ([] : List UInt8).length) by simp [Files.handle, ← same])
      (show _ = a.objects ++ [[] ++ replicate file.bytes.length 0] from rfl) source inside
      (Nat.lt_succ_self _)
  obtain ⟨fs4, obj4, closed, sim4⟩ := run_close sim3 here hand
  have shut : (hs ++ [some f]).set hs.length none = hs ++ [none] := by simp
  rw [shut] at sim4
  have callOpen : Client.call ⟨fs1, hs⟩ (.filesysOpen file.name) =
      some (.opened (some hs.length), ⟨fs2, hs ++ [some f]⟩) := by
    simp only [Client.call, opened, map_some]
  have callClose : Client.call ⟨s3.fs, hs ++ [some f]⟩ (.fileClose hs.length) =
      some (.closed, ⟨fs4, hs ++ [none]⟩) := by
    have open' : Client.handle ⟨s3.fs, hs ++ [some f]⟩ hs.length = some f := by
      simp [Client.handle]
    simp only [Client.call, Client.on, open', closed, map_some, shut]
  have final : ∀ name, fileAt fs4 name = (a3.names name).map fun o => a3.objects.getD o [] := by
    intro name
    rw [fileAt_eq sim4]
    rfl
  refine ⟨{ s3 with fs := fs4 }, .done true :: .opened (some hs.length) :: (rs ++ [.closed]), _,
    obj4, ?_, calls_cons call1 (calls_cons callOpen (calls_append call3
      (calls_cons callClose rfl))), sim4, ?_, fun name other => ?_, advanced.scratch,
    advanced.sector, advanced.reads⟩
  · rw [putFile]
    simp only [create, guard, opened, looped, closed, bind_eq_bind, pure_def, bind_some, if_true]
  · have bound : a3.names file.name = some a.objects.length := by
      rw [names]
      exact update_self ..
    rw [final, bound, map_some, objects, List.getD_eq_getElem?_getD,
      List.getElem?_concat_length, List.nil_append, Option.getD_some]
  · have bound : a3.names name = a.names name := by
      rw [names]
      exact update_of_ne other ..
    rw [final, bound, fileAt_eq sim]
    refine Option.map_congr fun o member => ?_
    rw [sim.names, Option.map_eq_some_iff] at member
    obtain ⟨i, found, rfl⟩ := member
    obtain ⟨live, file⟩ := sim.named_file name found
    rw [Files.data, objects, List.getD_append _ _ _ _ (sim.lt live file)]

/-- What an extraction has done to the files of `s`. -/
structure Extracted (s s' : FS) (files : List Archived) : Prop where
  archived : ∀ file ∈ files, fileAt s' file.name = some file.bytes
  other : ∀ name, (∀ file ∈ files, file.name ≠ name) → fileAt s' name = fileAt s name

theorem Advanced.trans {s' s'' : State} {m n : Nat} (first : Advanced s s' m)
    (second : Advanced s' s'' n) : Advanced s s'' (m + n) where
  scratch := second.scratch.trans first.scratch
  sector := by rw [second.sector, first.sector, Nat.add_assoc]
  reads := by
    rw [second.reads, first.reads, first.sector, List.append_assoc, List.range'_append_1]

theorem advanced_read (inside : s.sector.toNat < s.scratch.size) :
    Advanced s { s with sector := s.sector + 1, reads := s.reads ++ [s.sector.toNat] } 1 :=
  ⟨rfl, sector_next inside, rfl⟩

theorem parse_zeros {sector : List UInt8} (clear : sector = replicate 512 0) :
    ustarParseHeader (header sector) = some (.ok ⟨none, .eof, 0⟩) := by
  have zeros : isAllZeros (header sector) 512 = true := by
    subst clear
    rw [isAllZeros, List.all_eq_true]
    intro byte member
    obtain ⟨i, -, rfl⟩ := List.mem_map.mp member
    rw [header, List.getD_eq_getElem?_getD, List.getElem?_replicate]
    split <;> rfl
  rw [ustarParseHeader, if_pos zeros]

theorem entryLoop_zeros (inside : s.sector.toNat < s.scratch.size)
    (clear : sectorAt s.scratch s.sector.toNat = replicate 512 0) (fuel : Nat) :
    entryLoop (fuel + 1) s =
      some { s with sector := s.sector + 1, reads := s.reads ++ [s.sector.toNat] } := by
  rw [entryLoop]
  simp only [scratchRead_eq inside, bind_eq_bind, bind_some, parse_zeros clear]

theorem entryLoop_spec {d : Device} {i last : Nat} {files : List Archived}
    (archive : Archive d i files last) (source : s.scratch = d) (place : s.sector.toNat = i)
    (sim : Sim ⟨s.fs, hs⟩ a f0 p0 obj) (distinct : (files.map Archived.name).Nodup)
    (valid : ∀ file ∈ files, ValidName file.name)
    (absent : ∀ file ∈ files, fileAt s.fs file.name = none) (fits : Fits ⟨s.fs, hs⟩ files)
    {fuel : Nat} (enough : d.size < fuel + i) : ∃ s', entryLoop fuel s = some s' ∧
    Extracted s.fs s'.fs files ∧ i ≤ last ∧ Advanced s s' (last + 1 - i) := by
  induction archive generalizing s hs a obj fuel with
  | @zeros i inside clear =>
    subst source place
    obtain _ | fuel := fuel
    · omega
    refine ⟨_, entryLoop_zeros inside clear fuel,
      ⟨fun file member => by simp at member, fun name _ => rfl⟩, Nat.le_refl _, ?_⟩
    rw [Nat.add_sub_cancel_left]
    exact advanced_read inside
  | @directory i last files name size inside accepted rest ih =>
    subst source place
    obtain _ | fuel := fuel
    · omega
    have first := advanced_read inside
    obtain ⟨s', looped, extracted, le, advanced⟩ := ih first.scratch first.sector sim distinct valid
      absent fits (show s.scratch.size < fuel + (s.sector.toNat + 1) by omega)
    refine ⟨s', ?_, extracted, by omega, ?_⟩
    · rw [entryLoop]
      simp only [scratchRead_eq inside, bind_eq_bind, bind_some, accepted]
      exact looped
    · have count : last + 1 - s.sector.toNat = 1 + (last + 1 - (s.sector.toNat + 1)) := by omega
      rw [count]
      exact first.trans advanced
  | @regular i last files name size file inside accepted named held room rest ih =>
    subst source place
    obtain _ | fuel := fuel
    · omega
    have first := advanced_read inside
    have length : file.bytes.length = size.toNat := by rw [held, slice_length]
    rw [List.map_cons, List.nodup_cons] at distinct
    have apart : ∀ other ∈ files, other.name ≠ file.name := fun other member same =>
      distinct.1 (same ▸ List.mem_map_of_mem member)
    obtain ⟨s2, rs, a', obj', put, called, sim', here, others, second⟩ :=
      putFile_spec (s := { s with sector := s.sector + 1, reads := s.reads ++ [s.sector.toNat] }) sim
        (valid file List.mem_cons_self) (absent file List.mem_cons_self) fits.1
        (by rw [first.sector, length]; exact held) (by rw [first.sector]; exact room)
    have both := first.trans second
    obtain ⟨s', looped, extracted, le, advanced⟩ := ih both.scratch
      (by rw [both.sector, Nat.add_assoc]) sim' distinct.2
      (fun other member => valid other (List.mem_cons_of_mem _ member))
      (fun other member => (others other.name (apart other member)).trans
        (absent other (List.mem_cons_of_mem _ member)))
      (fits.2 rs _ called)
      (show s.scratch.size < fuel + (s.sector.toNat + 1 + sectorCount file.bytes) by omega)
    refine ⟨s', ?_, ⟨fun other member => ?_, fun other fresh => ?_⟩, by omega, ?_⟩
    · rw [entryLoop]
      simp only [scratchRead_eq inside, bind_eq_bind, bind_some, accepted]
      rw [← named, ← length, put]
      exact looped
    · rcases List.mem_cons.mp member with rfl | old
      · rw [extracted.other other.name apart]
        exact here
      · exact extracted.archived other old
    · have new : other ≠ file.name := (fresh file List.mem_cons_self).symm
      rw [extracted.other other fun g member => fresh g (List.mem_cons_of_mem _ member)]
      exact others other new
    · have count : last + 1 - s.sector.toNat = 1 + sectorCount file.bytes +
          (last + 1 - (s.sector.toNat + 1 + sectorCount file.bytes)) := by omega
      rw [count]
      exact both.trans advanced

end

/-- The first extraction makes the files of the archive and no others, reads the device up to
the sector of zeros and clears its first two sectors. -/
theorem extract_reproduces {d scratch : Device} {junk : Nat → BitVec 32} {s : FS}
    (format : Prog.run (filesysInit true) (boot d junk) = some ((), s)) {ops : List Call}
    {rs : List Result} {c : Client} (reached : Client.calls ⟨s, []⟩ ops = some (rs, c))
    {files : List Archived} {last : Nat} (archive : Archive scratch 0 files last)
    (distinct : (files.map Archived.name).Nodup) (valid : ∀ file ∈ files, ValidName file.name)
    (absent : ∀ file ∈ files, fileAt c.fs file.name = none) (fits : Fits c files)
    (two : 2 ≤ scratch.size) :
    ∃ s', fsutilExtract (true, true) ⟨⟨c.fs, scratch, 0⟩, []⟩ = some s' ∧
      Extracted c.fs s'.fs files ∧ s'.reads = List.range (last + 1) ∧
      sectorAt s'.scratch 0 = replicate 512 0 ∧
      sectorAt s'.scratch 1 = replicate 512 0 := by
  obtain ⟨c', obj, ran, sim⟩ := calls_matched ops (formatted_sim format)
  rw [reached, Option.some.injEq, Prod.mk.injEq] at ran
  obtain ⟨-, rfl⟩ := ran
  obtain ⟨s', looped, extracted, -, advanced⟩ := entryLoop_spec archive
    (s := ⟨⟨c.fs, scratch, 0⟩, []⟩) rfl rfl
    (show Sim ⟨c.fs, c.handles⟩ (filesAfter s ops) 3 2 obj from sim) distinct valid absent fits
    (Nat.lt_succ_self _)
  have zero : (0 : BitVec 32).toNat = 0 := rfl
  have one : (1 : BitVec 32).toNat = 1 := rfl
  have width : (replicate 512 (0 : UInt8)).length = 512 := List.length_replicate
  have size : s'.scratch.size = scratch.size := by rw [advanced.scratch]
  refine ⟨{ s' with
      scratch := (s'.scratch.write 0 (replicate 512 0)).write 512 (replicate 512 0) },
    ?_, extracted, ?_, ?_, ?_⟩
  · rw [fsutilExtract]
    simp only [guard, and_self, if_true, looped, bind_eq_bind, pure_def, bind_some, sectorSize]
    rw [scratchWrite_eq (by omega), bind_some, scratchWrite_eq (by rw [Device.write_size]; omega)]
    rfl
  · simp only [advanced.reads, List.range_eq_range']
    rfl
  · have first := slice_splice s'.scratch.data 0 (replicate 512 (0 : UInt8))
    rw [width] at first
    rw [sectorAt, Device.write_data, Nat.mul_zero,
      slice_splice_of_disjoint _ _ _ _ _ (.inl (by omega)), Device.write_data, first]
  · have second := slice_splice (s'.scratch.write 0 (replicate 512 0)).data 512
      (replicate 512 (0 : UInt8))
    rw [width] at second
    rw [sectorAt, Device.write_data, Nat.mul_one, second]

/-- A file of one sector, and a device with its archive. -/
def letter : Archived where
  name := ⟨[97], oneLetter_text⟩
  bytes := replicate 512 7
  small := by rw [List.length_replicate]; decide

def letterDevice : Device where
  size := 16
  data := splice (splice (fun _ => 0) 0 (slice (summed (unsummed [97] .regular 512)) 0 512)) 512
    letter.bytes
  size_lt := blankDevice.size_lt

theorem letterDevice_data : letterDevice.data =
    splice (splice (fun _ => 0) 0 (slice (summed (unsummed [97] .regular 512)) 0 512)) 512
      letter.bytes := rfl

theorem letter_archive : Archive letterDevice 0 [letter] 2 := by
  have length : letter.bytes.length = 512 := List.length_replicate
  have describes : Describes (header (sectorAt letterDevice 0)) [97] .regular 512 := by
    refine (describes_summed (by decide) (by decide) (by decide)).congr fun x below => ?_
    rw [header, sectorAt, slice_getD _ _ _ _ below, letterDevice_data,
      splice_off _ _ (by omega), splice_of_mem _ _ (by omega) (by rw [slice_length]; omega),
      slice_getD _ _ _ _ (by omega)]
    congr 1
    omega
  have held : letter.bytes = slice letterDevice.data (512 * (0 + 1)) (512 : BitVec 32).toNat := by
    have whole := slice_splice (splice (fun _ => 0) 0
      (slice (summed (unsummed [97] .regular 512)) 0 512)) 512 letter.bytes
    rw [length, ← letterDevice_data] at whole
    exact whole.symm
  have count : sectorCount letter.bytes = 1 := by rw [sectorCount, length]
  refine .regular (by decide) (describes.parse ⟨by decide, by decide, by decide⟩ (.inl rfl)
    (by decide)) (by decide) held (by rw [count]; decide) ?_
  rw [count]
  refine .zeros (by decide) (List.eq_replicate_iff.mpr ⟨slice_length .., fun byte member => ?_⟩)
  obtain ⟨x, -, rfl⟩ := List.mem_map.mp member
  rw [letterDevice_data, splice_off _ _ (by omega),
    splice_off _ _ (by rw [slice_length]; omega)]

theorem extract_reproduces_letter : ∃ s s',
    Prog.run (filesysInit true) (boot blankDevice fun _ => 0) = some ((), s) ∧
      fsutilExtract (true, true) ⟨⟨s, letterDevice, 0⟩, []⟩ = some s' ∧
      Extracted s s'.fs [letter] ∧ s'.reads = [0, 1, 2] := by
  obtain ⟨s, format⟩ := blankDevice_formats
  obtain ⟨-, names, -⟩ := filesysInit_inv format
  have only : ∀ file ∈ [letter], file = letter := fun file member => List.mem_singleton.mp member
  have length : letter.bytes.length = 512 := List.length_replicate
  have idle : Client.calls ⟨s, []⟩ [] = some ([], ⟨s, []⟩) := rfl
  obtain ⟨s', run, extracted, reads, -⟩ := extract_reproduces format idle letter_archive
    (List.nodup_singleton _) (fun file member => by rw [only file member]; decide)
    (fun file _ => by rw [fileAt, names]; rfl)
    ⟨by rw [length]; exact blank_room format, fun _ _ _ => trivial⟩ (by decide)
  exact ⟨s, s', format, run, extracted, reads⟩

/-- On a device of one sector there is no second one to clear. -/
theorem extract_one_sector : ∃ s d,
    Prog.run (filesysInit true) (boot blankDevice fun _ => 0) = some ((), s) ∧
      Client.calls ⟨s, []⟩ [] = some ([], ⟨s, []⟩) ∧ Archive d 0 [] 0 ∧ Fits ⟨s, []⟩ [] ∧
      fsutilExtract (true, true) ⟨⟨s, d, 0⟩, []⟩ = none := by
  obtain ⟨s, format⟩ := blankDevice_formats
  let d : Device := ⟨1, fun _ => 0, by decide⟩
  have clear : sectorAt d 0 = replicate 512 0 :=
    List.eq_replicate_iff.mpr ⟨slice_length .., fun byte member => by
      obtain ⟨x, -, rfl⟩ := List.mem_map.mp member
      rfl⟩
  refine ⟨s, d, format, rfl, .zeros (by decide) clear, trivial, ?_⟩
  have first : (0 : BitVec 32).toNat < d.size := by decide
  have looped := entryLoop_zeros (s := ⟨⟨s, d, 0⟩, []⟩) first clear d.size
  rw [fsutilExtract]
  simp only [guard, and_self, if_true, looped, bind_eq_bind, pure_def, bind_some]
  rw [scratchWrite_eq first, bind_some, scratchWrite, if_neg (by decide)]
  rfl

end Pintos.Extract
