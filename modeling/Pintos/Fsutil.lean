import Pintos.CreateRuns
import Pintos.Ustar
import Pintos.Transition

/-! `fsutil_append` of `filesys/fsutil.c`.  The files are read through the model of
the file system, and what is written to the scratch device is followed byte by
byte.  The buffer is the memory at its address, of which the function owns the
first 512 bytes. -/

namespace Pintos.Fsutil
open Resumption ByteStore Disk Inode Directory Filesys Calls Format FileModel Refinement
open ConcurrentCreate Ustar Transition
open List (length_append length_drop length_replicate map_singleton replicate)
open Option (bind_eq_bind bind_some map_eq_some_iff pure_def)

/-- The file system, the scratch device and the function's static position on it. -/
structure State where
  fs : FS
  scratch : Device
  sector : BitVec 32

def scratchWrite (d : Device) (sector : BitVec 32) (buffer : List UInt8) : Option Device :=
  if sector.toNat < d.size then some (d.write (sectorSize * sector.toNat) buffer) else none

def copyLoop (src : Nat) : Nat → Nat → (Nat → UInt8) → State → Option ((Nat → UInt8) × State)
  | 0, _, _, _ => none
  | fuel + 1, size, buffer, s =>
    if 0 < size then do
      let chunkSize := if size > sectorSize then sectorSize else size
      guard (s.sector.toNat < s.scratch.size)
      let (bs, fs) ← Prog.run (fileRead src chunkSize) s.fs
      guard (bs.length = chunkSize)
      let buffer := splice buffer 0 bs
      let buffer := splice buffer chunkSize (replicate (sectorSize - chunkSize) 0)
      let scratch ← scratchWrite s.scratch s.sector (slice buffer 0 sectorSize)
      copyLoop src fuel (size - chunkSize) buffer ⟨fs, scratch, s.sector + 1⟩
    else some (buffer, s)

/-- `buffer` is the memory that `malloc` returns, and `none` of the result a panic. -/
def fsutilAppend (fileName : CString) (buffer : Option (Nat → UInt8)) (s : State) :
    Option State := do
  let buffer ← buffer
  let (src, fs) ← Prog.run (filesysOpen fileName) s.fs
  let src ← src
  let (size, fs) ← Prog.run (fileLength src) fs
  let header ← ustarMakeHeader fileName.val .regular (BitVec.ofInt 32 size)
  let buffer := splice buffer 0 (slice (← header) 0 sectorSize)
  let scratch ← scratchWrite s.scratch s.sector (slice buffer 0 sectorSize)
  let (buffer, s) ← copyLoop src (size.toNat + 1) size.toNat buffer ⟨fs, scratch, s.sector + 1⟩
  let buffer := splice buffer 0 (replicate sectorSize 0)
  let scratch ← scratchWrite s.scratch s.sector (slice buffer 0 sectorSize)
  let scratch ← scratchWrite scratch s.sector (slice buffer 1 sectorSize)
  let ((), fs) ← Prog.run (fileClose (some src)) s.fs
  return ⟨fs, scratch, s.sector⟩
variable {name : CString} {a : Files}

section
variable {fs : FS} {hs : List (Option Nat)} {a : Files} {f0 p0 : Nat} {obj : Nat → Nat}
  {k f o pos : Nat}

theorem run_open (sim : Sim ⟨fs, hs⟩ a f0 p0 obj) (bound : a.names name = some o) :
    ∃ f fs' obj', Prog.run (filesysOpen name) fs = some (some f, fs') ∧
      Sim ⟨fs', hs ++ [some f]⟩ { a with handles := a.handles ++ [some (o, 0)] } f0 p0 obj' := by
  obtain ⟨c', obj', call, sim'⟩ := open_matched sim name
  simp only [Client.call, Files.call, bound, map_eq_some_iff] at call sim'
  obtain ⟨⟨found, fs'⟩, run, answer⟩ := call
  cases found with
  | none => simp at answer
  | some f =>
    simp only [Prod.mk.injEq] at answer
    exact ⟨f, fs', obj', run, answer.2 ▸ sim'⟩

theorem on_run {α : Type} {c c' : Client} {code : Nat → Code α} {answer : α → Result}
    {result : Result} (here : c.handle k = some f) (call : c.on k code answer = some (result, c')) :
    ∃ r fs', Prog.run (code f) c.fs = some (r, fs') ∧ answer r = result ∧
    c' = ⟨fs', c.handles⟩ := by
  simp only [Client.on, here, map_eq_some_iff, Prod.mk.injEq] at call
  obtain ⟨⟨r, fs'⟩, run, answered, rfl⟩ := call
  exact ⟨r, fs', run, answered, rfl⟩

section

variable (sim : Sim ⟨fs, hs⟩ a f0 p0 obj) (here : hs[k]? = some (some f))
  (hand : a.handle k = some (o, pos))
include sim here hand

theorem run_length :
    ∃ fs' obj', Prog.run (fileLength f) fs = some (((a.data o).length : Int), fs') ∧
      Sim ⟨fs', hs⟩ a f0 p0 obj' := by
  obtain ⟨c', obj', call, sim'⟩ := length_matched k sim
  simp only [Client.call, Files.call, Files.on, hand] at call sim'
  obtain ⟨r, fs', run, answered, rfl⟩ := on_run (f := f) (by simp [Client.handle, here]) call
  obtain rfl : r = ((a.data o).length : Int) := by simpa using answered
  exact ⟨fs', obj', run, sim'⟩

theorem run_read {size : Nat} (word : size < 2 ^ 31) :
    ∃ fs' obj', Prog.run (fileRead f size) fs = some (((a.data o).drop pos).take size, fs') ∧
      Sim ⟨fs', hs⟩ (a.move k o (pos + (((a.data o).drop pos).take size).length)) f0 p0 obj' := by
  obtain ⟨c', obj', call, sim'⟩ := read_matched k sim ⟨size, word⟩
  simp only [Client.call, Files.call, Files.on, hand] at call sim'
  obtain ⟨r, fs', run, answered, rfl⟩ := on_run (f := f) (by simp [Client.handle, here]) call
  obtain rfl : r = ((a.data o).drop pos).take size := by simpa using answered
  exact ⟨fs', obj', run, sim'⟩

theorem run_close : ∃ fs' obj', Prog.run (fileClose (some f)) fs = some ((), fs') ∧
    Sim ⟨fs', hs.set k none⟩ { a with handles := a.handles.set k none } f0 p0 obj' := by
  obtain ⟨c', obj', call, sim'⟩ := close_matched k sim
  simp only [Client.call, Files.call, Files.on, hand, map_eq_some_iff, Prod.mk.injEq] at call sim'
  obtain ⟨⟨result, c''⟩, call, -, rfl⟩ := call
  obtain ⟨r, fs', run, -, rfl⟩ := on_run (f := f) (by simp [Client.handle, here]) call
  exact ⟨fs', obj', run, sim'⟩

end

end

def sectorCount (bytes : List UInt8) : Nat :=
  (bytes.length + 511) / 512

/-- File contents with the last sector filled up with zeros. -/
def padded (bytes : List UInt8) : List UInt8 :=
  bytes ++ replicate (512 * sectorCount bytes - bytes.length) 0

theorem padded_length (bytes : List UInt8) : (padded bytes).length = 512 * sectorCount bytes := by
  simp only [padded, sectorCount, length_append, length_replicate]
  omega

theorem padded_step {bytes : List UInt8} (some : 0 < bytes.length) :
    padded bytes = (bytes.take 512 ++ replicate (512 - bytes.length) 0) ++
        padded (bytes.drop 512) ∧
      sectorCount bytes = sectorCount (bytes.drop 512) + 1 := by
  have count : sectorCount bytes = sectorCount (bytes.drop 512) + 1 := by
    simp only [sectorCount, length_drop]
    omega
  refine ⟨?_, count⟩
  by_cases long : 512 ≤ bytes.length
  · have zeros : 512 * (sectorCount (bytes.drop 512) + 1) - bytes.length =
        512 * sectorCount (bytes.drop 512) - (bytes.length - 512) := by
      omega
    have none : 512 - bytes.length = 0 := by omega
    rw [padded, padded, none, List.replicate_zero, List.append_nil, ← List.append_assoc,
      List.take_append_drop, count, length_drop, zeros]
  · have short : bytes.length ≤ 512 := by omega
    rw [padded, count, List.drop_of_length_le short, List.take_of_length_le short]
    simp [padded, sectorCount]

theorem scratchWrite_eq {d : Device} {sector : BitVec 32} (inside : sector.toNat < d.size)
    (buffer : List UInt8) :
    scratchWrite d sector buffer = some (d.write (512 * sector.toNat) buffer) :=
  if_pos inside

theorem write_write (d : Device) (x : Nat) (bs cs : List UInt8) :
    (d.write x bs).write (x + bs.length) cs = d.write x (bs ++ cs) := by
  rw [Device.write, Device.write, Device.write]
  simp only [splice_append]

theorem slice_chunk (buffer : Nat → UInt8) {bs : List UInt8} (short : bs.length ≤ 512) :
    slice (splice (splice buffer 0 bs) bs.length (replicate (512 - bs.length) 0)) 0 512 =
      bs ++ replicate (512 - bs.length) 0 := by
  have joined := splice_append buffer 0 bs (replicate (512 - bs.length) 0)
  rw [Nat.zero_add] at joined
  rw [joined]
  have whole := slice_splice buffer 0 (bs ++ replicate (512 - bs.length) 0)
  rwa [length_append, length_replicate, Nat.add_sub_cancel' short] at whole

section
variable {s : State} {hs : List (Option Nat)} {a : Files} {f0 p0 : Nat} {obj : Nat → Nat}
  {k f o pos : Nat}

theorem handle_lt (hand : a.handle k = some (o, pos)) : k < a.handles.length := by
  by_contra high
  have none : a.handles[k]? = none := List.getElem?_eq_none (by omega)
  simp [Files.handle, none] at hand

theorem move_handle (inside : k < a.handles.length) (q : Nat) :
    (a.move k o q).handle k = some (o, q) := by
  simp [Files.move, Files.handle, inside]

theorem copyLoop_spec (sim : Sim ⟨s.fs, hs⟩ a f0 p0 obj) (here : hs[k]? = some (some f))
    (hand : a.handle k = some (o, pos)) {rest : List UInt8} (left : (a.data o).drop pos = rest)
    (room : s.sector.toNat + sectorCount rest ≤ s.scratch.size) {fuel : Nat}
    (enough : rest.length < fuel) (buffer : Nat → UInt8) :
    ∃ buffer' s' a' obj' q, copyLoop f fuel rest.length buffer s = some (buffer', s') ∧
    Sim ⟨s'.fs, hs⟩ a' f0 p0 obj' ∧ a'.names = a.names ∧ a'.objects = a.objects ∧
    a'.handle k = some (o, q) ∧ s'.scratch = s.scratch.write (512 * s.sector.toNat) (padded rest) ∧
    s'.sector.toNat = s.sector.toNat + sectorCount rest ∧ ∀ x, 512 ≤ x → buffer' x = buffer x := by
  induction fuel generalizing s a obj pos rest buffer with
  | zero => omega
  | succ fuel ih =>
    by_cases empty : rest.length = 0
    · obtain rfl := List.eq_nil_of_length_eq_zero empty
      refine ⟨buffer, s, a, obj, pos, by simp [copyLoop], sim, rfl, rfl, hand, ?_, ?_,
        fun _ _ => rfl⟩
      · simp [padded, sectorCount, Device.write]
      · simp [sectorCount]
    have some : 0 < rest.length := by omega
    obtain ⟨text, count⟩ := padded_step some
    have chunk : (if rest.length > sectorSize then sectorSize else rest.length) =
        min rest.length 512 := by
      rw [sectorSize]
      split <;> omega
    have inside : s.sector.toNat < s.scratch.size := by omega
    have small : s.scratch.size < 2 ^ 21 := s.scratch.size_lt
    obtain ⟨fs', obj', read, sim'⟩ := run_read sim here hand
      (show min rest.length 512 < 2 ^ 31 by omega)
    have cut : rest.take (min rest.length 512) = rest.take 512 := by
      rw [Nat.min_comm, ← List.take_take, List.take_length]
    rw [left, cut] at read sim'
    have length : (rest.take 512).length = min rest.length 512 := by
      rw [List.length_take, Nat.min_comm]
    have zeros : 512 - (rest.take 512).length = 512 - rest.length := by omega
    have next : (s.sector + 1).toNat = s.sector.toNat + 1 := by
      bv_omega
    have left' : ((a.move k o (pos + (rest.take 512).length)).data o).drop
        (pos + (rest.take 512).length) = rest.drop 512 := by
      have unchanged : (a.move k o (pos + (rest.take 512).length)).data o = a.data o := rfl
      rw [unchanged, ← List.drop_drop, left, length]
      by_cases long : 512 ≤ rest.length
      · rw [Nat.min_eq_right long]
      · rw [List.drop_of_length_le (by omega), List.drop_of_length_le (by omega)]
    have chunkText := slice_chunk buffer (show (rest.take 512).length ≤ 512 by omega)
    rw [zeros] at chunkText
    obtain ⟨buffer', s', a', obj'', q, looped, simEnd, names, objects, handEnd, scratch, sector,
      memory⟩ := ih (s := ⟨fs', s.scratch.write (512 * s.sector.toNat)
        (rest.take 512 ++ replicate (512 - rest.length) 0), s.sector + 1⟩) sim'
        (move_handle (handle_lt hand) _) left' (by simp only [next, Device.write_size]; omega)
        (by rw [length_drop]; omega)
        (splice (splice buffer 0 (rest.take 512)) (rest.take 512).length
          (replicate (512 - rest.length) 0))
    refine ⟨buffer', s', a', obj'', q, ?_, simEnd, names, objects, handEnd, ?_, ?_, ?_⟩
    · have fewer : rest.length - min rest.length 512 = (rest.drop 512).length := by
        rw [length_drop]
        omega
      have cleared : sectorSize - min rest.length 512 = 512 - rest.length := by
        rw [sectorSize]
        omega
      rw [copyLoop, if_pos some]
      simp only [chunk, read, length, cleared, fewer, guard, if_pos inside, bind_eq_bind,
        pure_def, bind_some, if_true]
      rw [← length, sectorSize, chunkText, scratchWrite_eq inside]
      exact looped
    · rw [scratch, text]
      have width : (rest.take 512 ++ replicate (512 - rest.length) 0).length = 512 := by
        rw [length_append, length_replicate]
        omega
      have start : 512 * (s.sector + 1).toNat = 512 * s.sector.toNat +
          (rest.take 512 ++ replicate (512 - rest.length) 0).length := by
        rw [next, width]
        omega
      simp only
      rw [start, write_write]
    · rw [sector, count]
      simp only [next]
      omega
    · intro x beyond
      rw [memory x beyond, ← zeros]
      rw [splice_off _ _ (by simp; omega), splice_off _ _ (by omega)]

/-- The marker as it is written: the second write starts one byte further on in the buffer,
and goes to the same sector as the first. -/
theorem marker_write (d : Device) (x : Nat) (buffer : Nat → UInt8) :
    (d.write x (slice (splice buffer 0 (replicate 512 0)) 0 512)).write x
        (slice (splice buffer 0 (replicate 512 0)) 1 512) =
      d.write x (replicate 511 0 ++ [buffer 512]) := by
  have width : (replicate 512 (0 : UInt8)).length = 512 := length_replicate
  have first : slice (splice buffer 0 (replicate 512 0)) 0 512 = replicate 512 0 := by
    have whole := slice_splice buffer 0 (replicate 512 (0 : UInt8))
    rwa [width] at whole
  have zeros : slice (splice buffer 0 (replicate 512 0)) 1 511 = replicate 511 0 := by
    have tail := slice_drop (splice buffer 0 (replicate 512 0)) 0 512 1
    rw [first, List.drop_replicate] at tail
    exact tail.symm
  have last : slice (splice buffer 0 (replicate 512 0)) 512 1 = [buffer 512] := by
    rw [slice, List.range_one, map_singleton, splice_off _ _ (.inr (by rw [width]))]
  have second : slice (splice buffer 0 (replicate 512 0)) 1 512 =
      replicate 511 0 ++ [buffer 512] := by
    rw [slice_add _ 1 511 1, zeros, last]
  have marker : (replicate 511 0 ++ [buffer 512]).length = 512 := by
    rw [length_append, length_replicate, List.length_singleton]
  rw [first, second, Device.write, Device.write, Device.write]
  simp only
  rw [splice_splice _ _ (by rw [marker, width])]

/-- One call: the entry is written behind the archive, and behind it one sector of which
the last byte is whatever follows the buffer in memory. -/
theorem append_spec (sim : Sim ⟨s.fs, hs⟩ a f0 p0 obj) (short : name.val.length ≤ 14)
    (bound : a.names name = some o)
    (room : s.sector.toNat + 1 + sectorCount (a.data o) < s.scratch.size) (buffer : Nat → UInt8) :
    ∃ h s' hs' a' obj',
      ustarMakeHeader name.val .regular (BitVec.ofNat 32 (a.data o).length) = some (some h) ∧
      fsutilAppend name (some buffer) s = some s' ∧
      Sim ⟨s'.fs, hs'⟩ a' f0 p0 obj' ∧ a'.names = a.names ∧ a'.objects = a.objects ∧
      s'.sector.toNat = s.sector.toNat + 1 + sectorCount (a.data o) ∧
      s'.scratch = (s.scratch.write (512 * s.sector.toNat)
        (slice h 0 512 ++ padded (a.data o))).write (512 * s'.sector.toNat)
          (replicate 511 0 ++ [buffer 512]) := by
  have small := s.scratch.size_lt
  have length : (a.data o).length < 2 ^ 31 := by
    rw [sectorCount] at room
    omega
  obtain ⟨stripped, found, -, -, most⟩ := strip_spec name.val
  have word : (BitVec.ofNat 32 (a.data o).length).toNat < 2 ^ 31 := by
    rw [BitVec.toNat_ofNat]
    omega
  have header := ustarMakeHeader_eq (.inl rfl) word found (by omega)
  generalize summed (unsummed stripped .regular (BitVec.ofNat 32 (a.data o).length)) = h at header
  obtain ⟨f, fs1, obj1, opened, sim1⟩ := run_open sim bound
  have here : (hs ++ [some f])[hs.length]? = some (some f) := by simp
  have same : a.handles.length = hs.length := by simp [sim.handles]
  have hand : Files.handle { a with handles := a.handles ++ [some (o, 0)] } hs.length =
      some (o, 0) := by
    simp [Files.handle, ← same]
  obtain ⟨fs2, obj2, measured, sim2⟩ := run_length sim1 here hand
  have measure : Files.data { a with handles := a.handles ++ [some (o, 0)] } o = a.data o := rfl
  rw [measure] at measured
  have next : (s.sector + 1).toNat = s.sector.toNat + 1 := by
    bv_omega
  have headerText : slice (splice buffer 0 (slice h 0 512)) 0 512 = slice h 0 512 := by
    have whole := slice_splice buffer 0 (slice h 0 512)
    rwa [slice_length] at whole
  obtain ⟨buffer', s', a', obj', q, looped, sim3, names, objects, handEnd, scratch, sector,
    memory⟩ := copyLoop_spec (s := ⟨fs2, s.scratch.write (512 * s.sector.toNat) (slice h 0 512),
      s.sector + 1⟩) sim2 here hand List.drop_zero
      (by simp only [next, Device.write_size, measure]; omega) (Nat.lt_succ_self _)
      (splice buffer 0 (slice h 0 512))
  obtain ⟨fs4, obj4, closed, sim4⟩ := run_close sim3 here handEnd
  rw [measure] at looped scratch sector
  simp only [next] at scratch sector
  have start : 512 * (s.sector.toNat + 1) = 512 * s.sector.toNat + (slice h 0 512).length := by
    rw [slice_length]
    omega
  rw [start, write_write] at scratch
  have inside : s'.sector.toNat < s'.scratch.size := by
    rw [sector, scratch, Device.write_size]
    omega
  have beyond : buffer' 512 = buffer 512 := by
    rw [memory 512 (Nat.le_refl _), splice_off _ _ (.inr (by rw [slice_length]))]
  refine ⟨h, ⟨fs4, (s'.scratch.write (512 * s'.sector.toNat)
    (slice (splice buffer' 0 (replicate 512 0)) 0 512)).write (512 * s'.sector.toNat)
    (slice (splice buffer' 0 (replicate 512 0)) 1 512), s'.sector⟩, _, _, obj4, header, ?_,
    sim4, names, objects, sector, ?_⟩
  · have integer : BitVec.ofInt 32 ((a.data o).length : Int) =
        BitVec.ofNat 32 (a.data o).length := BitVec.ofInt_natCast ..
    have nat : ((a.data o).length : Int).toNat = (a.data o).length := Int.toNat_natCast _
    rw [fsutilAppend]
    simp only [bind_eq_bind, bind_some, opened, measured, integer, header, nat,
      sectorSize, headerText]
    rw [scratchWrite_eq (by omega)]
    simp only [bind_some, looped]
    rw [scratchWrite_eq inside]
    simp only [bind_some]
    rw [scratchWrite_eq (by rwa [Device.write_size])]
    simp only [bind_some, closed, pure_def]
  · simp only
    rw [marker_write, beyond, scratch]

end

def filesAfter (s : FS) (ops : List Call) : Files :=
  (Files.empty.calls ops (rooms ⟨s, []⟩ ops)).2

/-- What the archive holds for a file: its header sector and its padded contents. -/
def entry (a : Files) (name : CString) : Option (List UInt8) := do
  let o ← a.names name
  let header ← ustarMakeHeader name.val .regular (BitVec.ofNat 32 (a.data o).length)
  return slice (← header) 0 512 ++ padded (a.data o)

theorem entry_eq {o : Nat} {h : Nat → UInt8} (bound : a.names name = some o)
    (made : ustarMakeHeader name.val .regular (BitVec.ofNat 32 (a.data o).length) = some (some h)) :
    entry a name = some (slice h 0 512 ++ padded (a.data o)) := by
  simp only [entry, bound, made, bind_eq_bind, bind_some, pure_def]

structure World where
  state : State
  archived : List CString

def step (w : World) (action : CString × Option (Nat → UInt8)) : Option World :=
  (fsutilAppend action.1 action.2 w.state).map fun s => ⟨s, w.archived ++ [action.1]⟩

/-- The device holds the entry of each appended file and behind them two sectors of zeros. -/
def WellFormed (a : Files) (w : World) : Prop :=
  ∃ entries : List (List UInt8), w.archived.map (entry a) = entries.map some ∧
    slice w.state.scratch.data 0 (entries.flatten.length + 1024) =
      entries.flatten ++ replicate 1024 0

def Proper (a : Files) (w : World) (action : CString × Option (Nat → UInt8)) : Prop :=
  action.1.val.length ≤ 14 ∧ (∃ buffer, action.2 = some buffer ∧ buffer 512 = 0) ∧
    ∃ o, a.names action.1 = some o ∧
      w.state.sector.toNat + 1 + sectorCount (a.data o) + 2 ≤ w.state.scratch.size ∧
      slice w.state.scratch.data
        (512 * (w.state.sector.toNat + 1 + sectorCount (a.data o) + 1)) 512 =
          replicate 512 0

/-- Between calls: the entries fill the device up to the position kept in `sector`. -/
structure Holds (a : Files) (w : World) : Prop where
  files : ∃ hs a' obj, Sim ⟨w.state.fs, hs⟩ a' 3 2 obj ∧ a'.names = a.names ∧ a'.objects = a.objects
  archive : ∃ entries : List (List UInt8), w.archived.map (entry a) = entries.map some ∧
    entries.flatten.length = 512 * w.state.sector.toNat ∧
    slice w.state.scratch.data 0 (512 * w.state.sector.toNat) = entries.flatten ∧
    (w.archived ≠ [] →
      slice w.state.scratch.data (512 * w.state.sector.toNat) 1024 = replicate 1024 0)

theorem Holds.wellFormed {w : World} (h : Holds a w) (some : w.archived ≠ []) : WellFormed a w := by
  obtain ⟨entries, each, length, held, marker⟩ := h.archive
  refine ⟨entries, each, ?_⟩
  rw [slice_add, length, held, Nat.zero_add, marker some]

theorem slice_entry (m : Nat → UInt8) {x : Nat} {old text : List UInt8}
    (before : slice m 0 x = old) (zeros : slice m (x + text.length + 512) 512 =
      replicate 512 0) :
    slice (splice (splice m x text) (x + text.length) (replicate 512 0)) 0
        (x + text.length) = old ++ text ∧
      slice (splice (splice m x text) (x + text.length) (replicate 512 0))
        (x + text.length) 1024 = replicate 1024 0 := by
  have width : (replicate 512 (0 : UInt8)).length = 512 := length_replicate
  refine ⟨?_, ?_⟩
  · rw [slice_splice_of_disjoint _ _ _ _ _ (.inl (by omega)), slice_add, Nat.zero_add,
      slice_splice_of_disjoint _ _ _ _ _ (.inl (by omega)), slice_splice, before]
  have first := slice_splice (splice m x text) (x + text.length) (replicate 512 0)
  have second : slice (splice (splice m x text) (x + text.length) (replicate 512 0))
      (x + text.length + 512) 512 = replicate 512 0 := by
    rw [slice_splice_of_disjoint _ _ _ _ _ (.inr (by omega)),
      slice_splice_of_disjoint _ _ _ _ _ (.inr (by omega)), zeros]
  rw [width] at first
  rw [slice_add _ _ 512 512, first, second, List.replicate_append_replicate]

theorem Holds.append {w : World} (h : Holds a w) {action : CString × Option (Nat → UInt8)}
    (proper : Proper a w action) :
    ∃ w', step w action = some w' ∧ Holds a w' ∧ w'.archived ≠ [] := by
  obtain ⟨name, memory⟩ := action
  obtain ⟨short, ⟨buffer, rfl, clear⟩, o, bound, room, zeros⟩ := proper
  obtain ⟨hs, a', obj, sim, names, objects⟩ := h.files
  obtain ⟨entries, each, length, held, -⟩ := h.archive
  have same : a'.data o = a.data o := by rw [Files.data, Files.data, objects]
  obtain ⟨header, s', hs', a'', obj', made, ran, sim', names', objects', sector, scratch⟩ :=
    append_spec sim short (names ▸ bound) (by rw [same]; omega) buffer
  rw [same] at made sector scratch
  have marker : replicate 511 0 ++ [buffer 512] = replicate 512 (0 : UInt8) := by
    rw [clear, ← List.replicate_succ']
  have text : (slice header 0 512 ++ padded (a.data o)).length =
      512 * (1 + sectorCount (a.data o)) := by
    rw [length_append, slice_length, padded_length]
    omega
  have behind : 512 * s'.sector.toNat = 512 * w.state.sector.toNat +
      (slice header 0 512 ++ padded (a.data o)).length := by
    rw [sector, text]
    omega
  have next : 512 * (w.state.sector.toNat + 1 + sectorCount (a.data o) + 1) =
      512 * w.state.sector.toNat + (slice header 0 512 ++ padded (a.data o)).length + 512 := by
    rw [text]
    omega
  rw [next] at zeros
  obtain ⟨front, back⟩ := slice_entry w.state.scratch.data held zeros
  refine ⟨⟨s', w.archived ++ [name]⟩, by simp [step, ran], ⟨⟨hs', a'', obj', sim',
    names'.trans names, objects'.trans objects⟩, entries ++ [slice header 0 512 ++
      padded (a.data o)], ?_, ?_, ?_, fun _ => ?_⟩, by simp⟩
  · rw [List.map_append, List.map_append, each, map_singleton, entry_eq bound made, map_singleton]
  · rw [List.flatten_append, length_append, length, List.flatten_singleton, behind]
  · simp only [scratch, Device.write, behind, marker]
    rw [front, List.flatten_append, List.flatten_singleton]
  · simp only [scratch, Device.write, behind, marker]
    exact back

def oneFile : List Call := [.filesysCreate ⟨[97], oneLetter_text⟩ 512]

theorem blank_oneFile : ∃ s rs c obj, Prog.run (filesysInit true)
    (boot blankDevice fun _ => 0) = some ((), s) ∧ Client.calls ⟨s, []⟩ oneFile = some (rs, c) ∧
    Sim c (filesAfter s oneFile) 3 2 obj ∧ (filesAfter s oneFile).names ⟨[97], by decide⟩ = some 0 ∧
    (filesAfter s oneFile).data 0 = replicate 512 0 := by
  obtain ⟨s, format⟩ := blankDevice_formats
  obtain ⟨c, obj, calls, sim⟩ := calls_matched oneFile (formatted_sim format)
  have room : roomFor s (.filesysCreate ⟨[97], by decide⟩ 512) = true :=
    decide_eq_true (blank_room format)
  have made : filesAfter s oneFile =
      (Files.empty.call true (.filesysCreate ⟨[97], by decide⟩ 512)).2 := by
    rw [filesAfter, oneFile, rooms, room, Files.calls]
    rfl
  refine ⟨s, _, c, obj, format, calls, sim, ?_, ?_⟩
  · rw [made]
    rfl
  · rw [made]
    rfl

/-- In every run of calls each of which finds the byte behind its buffer and the sector
behind the marker's first one zero, every further such call succeeds and the archive is well
formed after each call. -/
theorem append_wellFormed {d scratch : Device} {junk : Nat → BitVec 32} {s : FS}
    (format : Prog.run (filesysInit true) (boot d junk) = some ((), s)) {ops : List Call}
    {rs : List Result} {c : Client} (reached : Client.calls ⟨s, []⟩ ops = some (rs, c)) {w : World}
    (run : Reachable ⟨⟨c.fs, scratch, 0⟩, []⟩ step (Proper (filesAfter s ops)) w) :
    (w.archived ≠ [] → WellFormed (filesAfter s ops) w) ∧
      ∀ action, Proper (filesAfter s ops) w action →
        ∃ w', step w action = some w' ∧ WellFormed (filesAfter s ops) w' := by
  obtain ⟨c', obj, ran, sim⟩ := calls_matched ops (formatted_sim format)
  rw [reached, Option.some.injEq, Prod.mk.injEq] at ran
  obtain ⟨-, rfl⟩ := ran
  have start : Holds (filesAfter s ops) ⟨⟨c.fs, scratch, 0⟩, []⟩ :=
    ⟨⟨c.handles, _, obj, sim, rfl, rfl⟩, [], rfl, rfl, rfl, fun none => absurd rfl none⟩
  have holds : Holds (filesAfter s ops) w := by
    refine run.invariant start fun w action w' before proper taken => ?_
    obtain ⟨next, stepped, after, -⟩ := before.append proper
    rw [taken, Option.some.injEq] at stepped
    exact stepped ▸ after
  refine ⟨holds.wellFormed, fun action proper => ?_⟩
  obtain ⟨w', stepped, after, some⟩ := holds.append proper
  exact ⟨w', stepped, after.wellFormed some⟩

theorem append_wellFormed_blank : ∃ s rs c w,
    Prog.run (filesysInit true) (boot blankDevice fun _ => 0) = some ((), s) ∧
      Client.calls ⟨s, []⟩ oneFile = some (rs, c) ∧
      Reachable ⟨⟨c.fs, blankDevice, 0⟩, []⟩ step (Proper (filesAfter s oneFile)) w ∧
      w.archived = [⟨[97], by decide⟩] ∧ WellFormed (filesAfter s oneFile) w := by
  obtain ⟨s, rs, c, obj, format, calls, -, bound, data⟩ := blank_oneFile
  have count : sectorCount (replicate 512 0) = 1 := by
    rw [sectorCount, length_replicate]
  have proper : Proper (filesAfter s oneFile) ⟨⟨c.fs, blankDevice, 0⟩, []⟩
      (⟨[97], by decide⟩, some fun _ => 0) := by
    refine ⟨by decide, ⟨_, rfl, rfl⟩, 0, bound, ?_, ?_⟩
    · rw [data, count]
      change 0 + 1 + 1 + 2 ≤ 16
      omega
    · exact List.eq_replicate_iff.mpr ⟨slice_length .., fun b member => by
        obtain ⟨-, -, rfl⟩ := List.mem_map.mp member
        rfl⟩
  obtain ⟨w, stepped, formed⟩ := (append_wellFormed format calls .start).2 _ proper
  refine ⟨s, rs, c, w, format, calls, .next .start proper stepped, ?_, formed⟩
  obtain ⟨s', -, rfl⟩ := map_eq_some_iff.mp stepped
  rfl

/-- With the byte behind the buffer set, the marker's first sector ends in that byte. -/
theorem append_dirty_marker : ∃ s rs c w,
    Prog.run (filesysInit true) (boot blankDevice fun _ => 0) = some ((), s) ∧
      Client.calls ⟨s, []⟩ oneFile = some (rs, c) ∧
      step ⟨⟨c.fs, blankDevice, 0⟩, []⟩ (⟨[97], by decide⟩, some fun _ => 1) = some w ∧
      ¬WellFormed (filesAfter s oneFile) w := by
  obtain ⟨s, rs, c, obj, format, calls, sim, bound, data⟩ := blank_oneFile
  have count : sectorCount (replicate 512 0) = 1 := by
    rw [sectorCount, length_replicate]
  have fits : 0 + 1 + sectorCount ((filesAfter s oneFile).data 0) < 16 := by
    rw [data, count]
    omega
  obtain ⟨header, s', -, -, -, made, ran, -, -, -, sector, scratch⟩ :=
    append_spec (s := ⟨c.fs, blankDevice, 0⟩) sim (by decide) bound fits fun _ => 1
  have listed := entry_eq bound made
  rw [data] at listed scratch sector
  rw [count] at sector
  have text : (slice header 0 512 ++ padded (replicate 512 0)).length = 1024 := by
    rw [length_append, slice_length, padded_length, count]
  refine ⟨s, rs, c, ⟨s', [⟨[97], by decide⟩]⟩, format, calls, by rw [step, ran]; rfl, ?_⟩
  intro ⟨entries, each, held⟩
  have only : entries = [slice header 0 512 ++ padded (replicate 512 0)] := by
    change [entry (filesAfter s oneFile) ⟨[97], by decide⟩] = entries.map some at each
    rw [listed, ← map_singleton] at each
    exact (List.map_injective_iff.mpr (Option.some_injective _) each).symm
  have width : (replicate 511 0 ++ [(1 : UInt8)]).length = 512 := by
    rw [length_append, length_replicate, List.length_singleton]
  have byte : s'.scratch.data 1535 = 1 := by
    have place : 512 * s'.sector.toNat = 1024 := by
      rw [sector]
      rfl
    rw [scratch, place]
    simp only [Device.write]
    rw [splice_of_mem _ _ (by omega) (by omega), List.getD_append_right _ _ _ _
      (by rw [length_replicate]), length_replicate]
    rfl
  have zero : s'.scratch.data 1535 = 0 := by
    have last := congrArg (·.getD 1535 0) held
    simp only [only, List.flatten_singleton, text] at last
    rw [slice_getD _ _ _ _ (by omega), List.getD_append_right _ _ _ _ (by omega),
      List.getD_replicate _ (by omega), Nat.zero_add] at last
    exact last
  exact absurd (byte.symm.trans zero) (by decide)

end Pintos.Fsutil
