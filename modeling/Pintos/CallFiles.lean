import Pintos.CallCreate

/-! The calls on open files: `file_read`, `file_write`, `file_seek`, `file_tell` and
`file_length`. For each call: its result, the invariant afterwards, and what it does
to data and positions. -/

namespace Pintos.CallFiles
open Resumption ByteStore Bitmap Disk InodeIO Inode Directory Filesys Ownership Volume Calls
open CallCreate (mapStart Kept)
open Prog (run_bind_of)

attribute [local irreducible] splice

variable {s s' : FS} {hs hs' : List (Option Nat)} {f0 p0 : Nat}

/-- What a client sees of an open file: the inode sector and the position. -/
def view (s : FS) (f : Nat) : Option (Nat × Nat) :=
  match s.files f with
  | none => none
  | some file => (s.inodes file.inode).map fun a => (a.sector, file.pos.toNat)

theorem refers_congr {p : Nat} {h : Option Nat}
    (same : ∀ f, h = some f → (s'.files f).map File.inode = (s.files f).map File.inode) :
    refers s' p h = refers s p h := by
  cases h with
  | none => rfl
  | some f =>
    have := same f rfl
    simp only [refers]
    cases hf : s.files f <;> cases hf' : s'.files f <;> simp_all

theorem refs_congr (p : Nat)
    (same : ∀ f, some f ∈ hs → (s'.files f).map File.inode = (s.files f).map File.inode) :
    refs s' hs p = refs s hs p :=
  List.countP_congr fun h mem => by
    rw [refers_congr fun f e => same f (e ▸ mem)]

theorem Inv.update (inv : Inv s hs f0 p0) (mapFile : s'.freeMapFile = s.freeMapFile)
    (mallocs : s'.mallocs = s.mallocs) (mapHandle : s'.files f0 = s.files f0)
    (mapOpen : s'.inodes p0 = s.inodes p0)
    (mapInode : diskInode s'.device freeMapSector = diskInode s.device freeMapSector)
    (table : Table s' hs' f0 p0)
    (inodes : ∀ p a, p ≠ p0 → s'.inodes p = some a → a.sector ≠ rootDirSector ∧
      a.data = diskInode s'.device a.sector ∧
      (a.removed = true ↔ ¬Named (rootDir s'.device) a.sector))
    (names : Distinct (rootDir s'.device))
    (files : ∀ i, Named (rootDir s'.device) i → i ≠ freeMapSector ∧ i ≠ rootDirSector)
    (volume : Sound s'.device s'.freeMap (Live s')) : Inv s' hs' f0 p0 where
  table := table
  mapFile := mapFile.trans inv.mapFile
  mapHandle := mapHandle.trans inv.mapHandle
  mapOpen := by
    rw [mapOpen, mapInode]
    exact inv.mapOpen
  mallocs := mallocs.trans inv.mallocs
  root_closed p a ha := by
    by_cases here : p = p0
    · subst here
      rw [mapOpen, inv.mapOpen, Option.some.injEq] at ha
      subst ha
      exact show freeMapSector ≠ rootDirSector by decide
    · exact (inodes p a here ha).1
  cached p a ha := by
    by_cases here : p = p0
    · subst here
      rw [mapOpen, inv.mapOpen, Option.some.injEq] at ha
      subst ha
      exact mapInode.symm
    · exact (inodes p a here ha).2.1
  removed p a ne ha := (inodes p a ne ha).2.2
  names := names
  files := files
  volume := volume

theorem Inv.isFile (inv : Inv s hs f0 p0) {p : Nat} {a : Inode} (ne : p ≠ p0)
    (ha : s.inodes p = some a) : a.sector ≠ freeMapSector ∧ a.sector ≠ rootDirSector :=
  ⟨fun e => ne (inv.table.sector_inj p p0 a _ ha inv.mapOpen e), inv.root_closed p a ha⟩

structure Opened (s : FS) (f p₀ : Nat) (file : File) (a : Inode) : Prop where
  entry : s.files f = some file
  writable : file.denyWrite = false
  pos : 0 ≤ file.pos
  user : file.inode ≠ p₀
  inode : s.inodes file.inode = some a
  allowed : a.denyWriteCnt = 0
  data : a.data = diskInode s.device a.sector
  live : a.sector ∈ Live s
  loaded : Loaded s file.inode a (diskInode s.device a.sector).length.toNat

theorem Inv.opened (inv : Inv s hs f0 p0) {f : Nat} (mem : some f ∈ hs) :
    ∃ file a, Opened s f p0 file a := by
  obtain ⟨-, file, hf, writable, pos, user, some⟩ := inv.table.handle f mem
  obtain ⟨a, ha⟩ := Option.isSome_iff_exists.mp some
  have data := inv.cached _ a ha
  have live := open_live ha
  obtain ⟨len, length, -⟩ := inv.volume.sized a.sector live
  refine ⟨file, a, hf, writable, pos, user, ha, (inv.table.counted _ a user ha).2.1, data, live,
    ha, ?_, fun k lt => ?_, inv.mallocs⟩
  · rw [data, length, Int.toNat_natCast]
  · rw [data]
    exact inv.volume.data_lt live lt

section File

variable {f : Nat} {file : File} {a : Inode}

theorem Opened.view (h : Opened s f p0 file a) :
    CallFiles.view s f = some (a.sector, file.pos.toNat) := by
  simp [CallFiles.view, h.entry, h.inode]

theorem Inv.setPos (inv : Inv s hs f0 p0) (mem : some f ∈ hs) (h : Opened s f p0 file a) {pos : Int}
    (nonneg : 0 ≤ pos) : Inv (FS.setFile s f (some { file with pos := pos })) hs f0 p0 := by
  have ne : f ≠ f0 := (inv.table.handle f mem).1
  have same : ∀ g, ((FS.setFile s f (some { file with pos := pos })).files g).map File.inode =
      (s.files g).map File.inode := by
    intro g
    by_cases here : g = f
    · subst here
      simp [FS.setFile, h.entry]
    · simp [FS.setFile, here]
  refine Inv.update inv rfl rfl ?_ rfl rfl ?_ (fun p a ne ha => ⟨inv.root_closed p a ha,
    inv.cached p a ha, inv.removed p a ne ha⟩) inv.names inv.files inv.volume
  · simp [FS.setFile, Ne.symm ne]
  refine ⟨inv.table.toOpens.setFile h.entry _, fun p b user hb => ?_, fun g hg => ?_,
    inv.table.distinct⟩
  · rw [refs_congr p fun g _ => same g]
    exact inv.table.counted p b user hb
  · by_cases here : g = f
    · subst here
      refine ⟨ne, { file with pos := pos }, by simp [FS.setFile], h.writable, nonneg, h.user, ?_⟩
      simp [FS.setFile, h.inode]
    · simpa [FS.setFile, here] using inv.table.handle g hg

theorem run_setFile_of (h : s.files f = some file) (g : File → File) :
    Prog.run (Disk.setFile f g) s = some ((), FS.setFile s f (some (g file))) := by
  rw [run_setFile, h]
  rfl

theorem slice_content (d : Device) (i pos size : Nat) :
    slice d.data (512 * (diskInode d i).start + pos)
      (ioCount (diskInode d i).length.toNat (size : Int) pos) =
        ((content d i).drop pos).take size := by
  simp only [ioCount, Int.toNat_natCast, content]
  by_cases inside : pos ≤ (diskInode d i).length.toNat
  · rw [slice_drop]
    by_cases short : size ≤ (diskInode d i).length.toNat - pos
    · rw [slice_take _ _ _ _ short, Nat.min_eq_left short]
    · rw [List.take_of_length_le (by simp; omega), Nat.min_eq_right (by omega)]
  · rw [Nat.sub_eq_zero_of_le (by omega), Nat.min_zero, slice_zero,
      List.drop_of_length_le (by simp; omega), List.take_nil]

section Loaded

variable {L : Nat} (entry : s.files f = some file) (nonneg : 0 ≤ file.pos)
  (loaded : Loaded s file.inode a L)
include entry nonneg loaded

theorem run_fileRead (size : Int) :
    Prog.run (fileRead f size) s =
      some (slice s.device.data (512 * a.data.start + file.pos.toNat)
          (ioCount L size file.pos.toNat),
        FS.setFile s f
          (some { file with pos := file.pos + (ioCount L size file.pos.toNat : Nat) })) := by
  have read := run_inodeReadAt loaded size file.pos.toNat
  rw [Int.toNat_of_nonneg nonneg] at read
  rw [fileRead, run_bind_of (run_getFile entry), run_bind_of read,
    run_bind_of (run_setFile_of entry _), slice_length]
  rfl

theorem run_fileWrite (allowed : a.denyWriteCnt = 0) {data : List UInt8} {size : Int}
    (long : size.toNat ≤ data.length) :
    Prog.run (fileWrite f data size) s = some ((ioCount L size file.pos.toNat : Int), FS.setFile
        { s with
          device := s.device.write (512 * a.data.start + file.pos.toNat)
            (data.take (ioCount L size file.pos.toNat)) }
        f (some { file with pos := file.pos + (ioCount L size file.pos.toNat : Nat) })) := by
  have write := run_inodeWriteAt loaded allowed (fun _ => data) (fun _ _ => rfl) size
    file.pos.toNat long
  rw [Int.toNat_of_nonneg nonneg] at write
  rw [fileWrite, run_bind_of (run_getFile entry), run_bind_of write,
    run_bind_of (run_setFile_of (by exact entry) _)]
  rfl

end Loaded

theorem read_spec (h : Opened s f p0 file a) (size : Nat) :
    Prog.run (fileRead f size) s =
      some (((content s.device a.sector).drop file.pos.toNat).take size,
        FS.setFile s f (some { file with
          pos := file.pos + (((content s.device a.sector).drop file.pos.toNat).take size).length })) := by
  rw [run_fileRead h.entry h.pos h.loaded, h.data, ← slice_content, slice_length]

/-- The device after bytes were written at position `pos` of the file at sector `i`. -/
def writeFile (d : Device) (i pos : Nat) (bs : List UInt8) : Device :=
  d.write (512 * (diskInode d i).start + pos)
    (bs.take (ioCount (diskInode d i).length.toNat (bs.length : Nat) pos))

def writeCount (d : Device) (i pos : Nat) (bs : List UInt8) : Nat :=
  min bs.length ((content d i).length - pos)

theorem ioCount_eq_writeCount (d : Device) (i pos : Nat) (bs : List UInt8) :
    ioCount (diskInode d i).length.toNat (bs.length : Nat) pos = writeCount d i pos bs := by
  simp [ioCount, writeCount, content]

theorem write_spec (h : Opened s f p0 file a) (bs : List UInt8) :
    Prog.run (fileWrite f bs bs.length) s =
      some ((writeCount s.device a.sector file.pos.toNat bs : Int),
        FS.setFile { s with device := writeFile s.device a.sector file.pos.toNat bs } f (some
          { file with
            pos := file.pos + (writeCount s.device a.sector file.pos.toNat bs : Nat) })) := by
  rw [run_fileWrite h.entry h.pos h.loaded h.allowed (by simp), h.data, ← ioCount_eq_writeCount]
  rfl

theorem writeFile_onlyData (inv : Inv s hs f0 p0) {i : Nat} (hi : i ∈ Live s) (pos : Nat)
    (bs : List UInt8) : OnlyData s.device (writeFile s.device i pos bs) (Live s) i := by
  have cover := (inv.volume.sized i hi).covers.1
  by_cases inside : pos ≤ (diskInode s.device i).length.toNat
  · refine inv.volume.write_inside hi (Nat.le_add_right _ _) ?_
    simp only [List.length_take, ioCount]
    omega
  have none : ioCount (diskInode s.device i).length.toNat (bs.length : Nat) pos = 0 := by
    simp only [ioCount]
    omega
  intro j _ x _ _
  rw [writeFile, none, List.take_zero, Device.write, splice_nil]
  exact Agree.refl _ _

theorem content_writeFile (inv : Inv s hs f0 p0) {i : Nat} (hi : i ∈ Live s) (pos : Nat)
    (bs : List UInt8) :
    content (writeFile s.device i pos bs) i =
      overlay (content s.device i) pos (bs.take ((content s.device i).length - pos)) := by
  have only := writeFile_onlyData inv hi pos bs
  have count : bs.take (ioCount (diskInode s.device i).length.toNat (bs.length : Nat) pos) =
      bs.take ((content s.device i).length - pos) := by
    simp only [ioCount, content, slice_length, Int.toNat_natCast]
    rw [Nat.min_comm, ← List.take_take, List.take_length]
  rw [content, only.diskInode hi, writeFile, count, Device.write_data]
  by_cases inside : pos ≤ (content s.device i).length
  · rw [slice_splice_within]
    · rfl
    · simp only [content, slice_length, List.length_take] at inside ⊢
      omega
  · have none : bs.take ((content s.device i).length - pos) = [] := by
      rw [Nat.sub_eq_zero_of_le (by omega), List.take_zero]
    rw [none, splice_nil, overlay, List.append_nil, List.length_nil, Nat.add_zero,
      List.take_append_drop]
    rfl

theorem Inv.writeData (inv : Inv s hs f0 p0) {i : Nat} (system : i ≠ freeMapSector ∧ i ≠ rootDirSector)
    (hi : i ∈ Live s) (pos : Nat) (bs : List UInt8) :
    Inv { s with device := writeFile s.device i pos bs } hs f0 p0 := by
  have only := writeFile_onlyData inv hi pos bs
  have dir := inv.volume.rootDir_eq only system.2
  exact inv.withVolume (Nat.le_refl _) (fun p a ha => only.diskInode (open_live ha))
    (fun p a _ _ => by rw [dir]) (by rw [dir]; exact inv.names) (by rw [dir]; exact inv.files)
    (inv.volume.onlyData rfl only system.1) fun j => by rw [dir]; exact mem_live

theorem seek_spec (h : Opened s f p0 file a) (pos : Nat) :
    Prog.run (fileSeek f pos) s = some ((), FS.setFile s f (some { file with pos := pos })) := by
  rw [fileSeek, run_bind_of (Prog.run_assert (Int.natCast_nonneg pos) s),
    run_setFile_of h.entry]

theorem tell_spec (h : Opened s f p0 file a) : Prog.run (fileTell f) s = some (file.pos, s) := by
  rw [fileTell, run_bind_of (run_getFile h.entry)]
  rfl

theorem length_spec (inv : Inv s hs f0 p0) (h : Opened s f p0 file a) :
    Prog.run (fileLength f) s = some (((content s.device a.sector).length : Int), s) := by
  obtain ⟨len, length, -⟩ := inv.volume.sized a.sector h.live
  rw [fileLength, run_bind_of (run_getFile h.entry), inodeLength,
    run_bind_of (run_getInode h.inode), h.data, content, slice_length, length]
  rfl

end File

end Pintos.CallFiles
