import Pintos.Filesys
import Pintos.Ownership

/-! The volume: what the device and the free map say together. An inode owns its
own sector and the run of its data sectors. The live inodes are those of the free
map, of the root directory and of the files; the owned sectors are distinct and
marked. Sectors that a write leaves alone keep the inode, the data and the
directory slots stored in them. -/

namespace Pintos.Volume
open ByteStore Bitmap Disk InodeIO Inode Directory Filesys Ownership

def Agree (d d' : Device) (x : Nat) : Prop := slice d'.data (512 * x) 512 = slice d.data (512 * x) 512

theorem Agree.refl (d : Device) (x : Nat) : Agree d d x := rfl
variable {d d' : Device} {x y i j : Nat} {n : InodeDisk}

theorem Agree.trans {d'' : Device} (h : Agree d d' x) (h' : Agree d' d'' x) :
    Agree d d'' x := Eq.trans h' h

theorem agree_write (d : Device) {a : Nat} {bs : List UInt8}
    (off : 512 * (x + 1) ≤ a ∨ a + bs.length ≤ 512 * x) : Agree d (d.write a bs) x :=
  slice_splice_of_disjoint _ _ _ _ _ (by omega)

theorem Agree.data (h : Agree d d' x) (lo : 512 * x ≤ y) (hi : y < 512 * x + 512) :
    d'.data y = d.data y := by
  have := congrArg (fun l => l.getD (y - 512 * x) 0) h
  simpa only [slice_getD _ _ _ _ (show y - 512 * x < 512 by omega),
    show 512 * x + (y - 512 * x) = y by omega] using this

def dataSectors (n : InodeDisk) : List Nat := List.range' n.start (bytesToSectors n.length)

/-- The sectors of the inode at sector `i`: its own and those of its data. -/
def extent (d : Device) (i : Nat) : List Nat := i :: dataSectors (diskInode d i)

def content (d : Device) (i : Nat) : List UInt8 :=
  slice d.data (512 * (diskInode d i).start) (diskInode d i).length.toNat

theorem mem_dataSectors :
    x ∈ dataSectors n ↔ n.start ≤ x ∧ x < n.start + bytesToSectors n.length := by
  simp [dataSectors, List.mem_range'_1]

theorem diskInode_congr (h : Agree d d' i) : diskInode d' i = diskInode d i := by
  rw [diskInode, diskInode, show slice d'.data (512 * i) 512 = slice d.data (512 * i) 512 from h]

theorem extent_congr (h : Agree d d' i) : extent d' i = extent d i := by
  rw [extent, extent, diskInode_congr h]

/-- The length of a file is small enough for its sector count not to overflow. -/
def Sized (n : InodeDisk) : Prop := ∃ len : Nat, n.length = len ∧ len + 511 < 2 ^ 31

theorem Sized.covers (h : Sized n) : n.length.toNat ≤ 512 * bytesToSectors n.length ∧
    512 * bytesToSectors n.length < n.length.toNat + 512 := by
  obtain ⟨len, e, small⟩ := h
  rw [e, bytesToSectors_of_small len small]
  omega

theorem Sized.sector_mem (h : Sized n) (lt : y < n.length.toNat) :
    n.start + y / 512 ∈ dataSectors n := by
  have := h.covers
  rw [mem_dataSectors]
  omega

theorem data_congr (sized : Sized n) (h : ∀ x ∈ dataSectors n, Agree d d' x)
    (lt : y < n.length.toNat) : d'.data (512 * n.start + y) = d.data (512 * n.start + y) :=
  (h _ (sized.sector_mem lt)).data (by omega) (by omega)

theorem content_congr (sized : Sized (diskInode d i)) (h : ∀ x ∈ extent d i, Agree d d' x) :
    content d' i = content d i := by
  rw [content, content, diskInode_congr (h i List.mem_cons_self)]
  apply slice_congr
  intro y lo hi
  have := data_congr sized (fun x hx => h x (List.mem_cons_of_mem i hx))
    (show y - 512 * (diskInode d i).start < (diskInode d i).length.toNat by omega)
  rwa [show 512 * (diskInode d i).start + (y - 512 * (diskInode d i).start) = y by omega] at this

def rootEntries : Nat := 16

def rootDir (d : Device) : Fin rootEntries → DirEntry := fun k =>
  slotEntry d.data (diskInode d rootDirSector).start k

/-- The state of the device and the free map, with `live` the sectors of the live inodes. -/
structure Sound (d : Device) (b : Bits) (live : Set Nat) : Prop where
  bitCnt : b.bitCnt = d.size
  map_live : freeMapSector ∈ live
  root_live : rootDirSector ∈ live
  mapInode : ∃ m, diskInode d freeMapSector = ⟨m, byteCnt b.bitCnt, inodeMagic⟩
  rootLength : (diskInode d rootDirSector).length = ((entrySize * rootEntries : Nat) : Int)
  sized : ∀ i ∈ live, Sized (diskInode d i)
  fits : ∀ i ∈ live, (diskInode d i).start + bytesToSectors (diskInode d i).length ≤ d.size
  owned : Owned (fun x => x < d.size ∧ b.bit x = true) live (extent d)
  synced : bitmapReadBytes b (content d freeMapSector) = b

variable {d d' : Device} {b b' : Bits} {live live' : Set Nat}

theorem Sound.mapInode_eq (v : Sound d b live) :
    diskInode d freeMapSector =
      ⟨(diskInode d freeMapSector).start, byteCnt b.bitCnt, inodeMagic⟩ := by
  obtain ⟨m, e⟩ := v.mapInode
  rw [e]

/-- On `d'` only the data of the live inode `i` may differ. -/
def OnlyData (d d' : Device) (live : Set Nat) (i : Nat) : Prop :=
  ∀ j ∈ live, ∀ x ∈ extent d j, j ≠ i ∨ x = j → Agree d d' x

theorem OnlyData.inode (h : OnlyData d d' live i) (hj : j ∈ live) : Agree d d' j :=
  h j hj j List.mem_cons_self (.inr rfl)

theorem OnlyData.diskInode (h : OnlyData d d' live i) (hj : j ∈ live) :
    diskInode d' j = diskInode d j := diskInode_congr (h.inode hj)

theorem OnlyData.trans {d'' : Device} (h : OnlyData d d' live i) (h' : OnlyData d' d'' live i) :
    OnlyData d d'' live i := by
  intro j hj x hx other
  refine (h j hj x hx other).trans (h' j hj x ?_ other)
  rwa [extent_congr (h.inode hj)]

section

variable (v : Sound d b live)
include v

theorem Sound.content_eq (h : OnlyData d d' live i) (hj : j ∈ live) (ne : j ≠ i) :
    content d' j = content d j :=
  content_congr (v.sized j hj) fun x hx => h j hj x hx (.inl ne)

theorem Sound.write_inside {a : Nat} {bs : List UInt8} (hi : i ∈ live)
    (lo : 512 * (diskInode d i).start ≤ a)
    (hi' : a + bs.length ≤ 512 * (diskInode d i).start + 512 * bytesToSectors (diskInode d i).length) :
    OnlyData d (d.write a bs) live i := by
  intro j hj x hx other
  have off : x ∉ dataSectors (diskInode d i) := by
    intro mem
    by_cases here : j = i
    · subst here
      obtain rfl : x = j := other.resolve_left (not_not_intro rfl)
      exact (List.nodup_cons.mp (v.owned.nodup _ hi)).1 mem
    · exact v.owned.apart j hj i hi here x hx (List.mem_cons_of_mem _ mem)
  rw [mem_dataSectors] at off
  apply agree_write
  omega

theorem Sound.onlyData_storeMap (cnt : b'.bitCnt = b.bitCnt) :
    OnlyData d (d.write (512 * (diskInode d freeMapSector).start) b'.bytes) live freeMapSector := by
  have cover := (v.sized _ v.map_live).covers.1
  have len : (diskInode d freeMapSector).length.toNat = byteCnt b.bitCnt := by
    rw [v.mapInode_eq, Int.toNat_natCast]
  refine v.write_inside v.map_live (Nat.le_refl _) ?_
  rw [Bits.bytes_length, cnt]
  omega

/-- Everything but the ownership of a volume depends on its inode sectors and the map's data. -/
theorem Sound.rebuild (size : d'.size = d.size) (cnt : b'.bitCnt = b.bitCnt)
    (map_live : freeMapSector ∈ live') (root_live : rootDirSector ∈ live')
    (sub : ∀ i ∈ live', i ∈ live) (same : ∀ i ∈ live, Agree d d' i)
    (owned : Owned (fun x => x < d.size ∧ b'.bit x = true) live' (extent d))
    (synced : bitmapReadBytes b' (content d' freeMapSector) = b') : Sound d' b' live' where
  bitCnt := by rw [cnt, v.bitCnt, size]
  map_live := map_live
  root_live := root_live
  mapInode := by
    rw [diskInode_congr (same _ v.map_live), cnt]
    exact v.mapInode
  rootLength := by
    rw [diskInode_congr (same _ v.root_live)]
    exact v.rootLength
  sized i hi := by
    rw [diskInode_congr (same i (sub i hi))]
    exact v.sized i (sub i hi)
  fits i hi := by
    rw [diskInode_congr (same i (sub i hi)), size]
    exact v.fits i (sub i hi)
  owned := by
    rw [size]
    exact owned.congr (fun i hi => extent_congr (same i (sub i hi))) (fun _ _ _ _ u => u)
  synced := synced

theorem Sound.clean : b.Clean := by
  rw [← v.synced]
  exact bitmapReadBytes_clean b _

theorem Sound.storeMap (cnt : b'.bitCnt = b.bitCnt) (clean : b'.Clean)
    (map_live : freeMapSector ∈ live') (root_live : rootDirSector ∈ live')
    (sub : ∀ i ∈ live', i ∈ live)
    (owned : Owned (fun x => x < d.size ∧ b'.bit x = true) live' (extent d)) :
    Sound (d.write (512 * (diskInode d freeMapSector).start) b'.bytes) b' live' := by
  have only := v.onlyData_storeMap cnt
  refine v.rebuild (Device.write_size d _ _) cnt map_live root_live sub
    (fun i hi => only.inode hi) owned ?_
  have len : (diskInode d freeMapSector).length.toNat = b'.bytes.length := by
    rw [v.mapInode_eq, Bits.bytes_length, cnt, Int.toNat_natCast]
  rw [content, only.diskInode v.map_live, len, Device.write_data, slice_splice]
  exact bitmapReadBytes_bytes rfl clean

theorem Sound.onlyData (size : d'.size = d.size) (h : OnlyData d d' live i) (ne : i ≠ freeMapSector) :
    Sound d' b live :=
  v.rebuild size rfl v.map_live v.root_live (fun _ hj => hj) (fun _ hj => h.inode hj) v.owned
    (by rw [v.content_eq h v.map_live (Ne.symm ne), v.synced])

theorem Sound.data_lt (hi : i ∈ live) {k : Nat} (lt : 512 * k < (diskInode d i).length.toNat) :
    (diskInode d i).start + k < d.size := by
  have mem := (v.sized i hi).sector_mem lt
  rw [Nat.mul_div_cancel_left k (by decide)] at mem
  exact (v.owned.used i hi _ (List.mem_cons_of_mem _ mem)).1

theorem Sound.release (hi : i ∈ live) (system : i ≠ freeMapSector ∧ i ≠ rootDirSector)
    (cnt : b'.bitCnt = b.bitCnt) (bits : ∀ x, b'.bit x = true ↔ b.bit x = true ∧ x ∉ extent d i)
    (fewer : ∀ j, j ∈ live' ↔ j ∈ live ∧ j ≠ i) :
    Sound (d.write (512 * (diskInode d freeMapSector).start) b'.bytes) b' live' :=
  v.storeMap cnt (fun x used => cnt ▸ v.clean x ((bits x).mp used).1)
    ((fewer _).mpr ⟨v.map_live, Ne.symm system.1⟩)
    ((fewer _).mpr ⟨v.root_live, Ne.symm system.2⟩) (fun j hj => ((fewer j).mp hj).1)
    (v.owned.remove hi (fun j hj => (fewer j).mp hj)
      fun x off used => ⟨used.1, (bits x).mpr ⟨used.2, off⟩⟩)

end

section Root

theorem Sound.slot_lt (v : Sound d b live) (k : Fin rootEntries) :
    entrySize * k + entrySize ≤ (diskInode d rootDirSector).length.toNat := by
  have := k.isLt
  rw [v.rootLength]
  simp only [Int.toNat_natCast, rootEntries, entrySize] at this ⊢
  omega

theorem Sound.rootDir_eq (v : Sound d b live) (h : OnlyData d d' live i) (ne : i ≠ rootDirSector) :
    rootDir d' = rootDir d := by
  have same : ∀ x ∈ dataSectors (diskInode d rootDirSector), Agree d d' x := fun x hx =>
    h _ v.root_live x (List.mem_cons_of_mem _ hx) (.inl (Ne.symm ne))
  funext k
  have fits := v.slot_lt k
  simp only [rootDir, slotEntry, slotBytes, h.diskInode v.root_live]
  congr 1
  apply slice_congr
  intro y lo hi
  have := data_congr (v.sized _ v.root_live) same
    (show y - 512 * (diskInode d rootDirSector).start <
      (diskInode d rootDirSector).length.toNat by omega)
  rwa [Nat.add_sub_cancel' (by omega)] at this

def writeSlot (d : Device) (k : Fin rootEntries) (e : DirEntry) : Device :=
  d.write (512 * (diskInode d rootDirSector).start + entrySize * k) (encodeEntry e)

theorem Sound.onlyData_writeSlot (v : Sound d b live) (k : Fin rootEntries) {e : DirEntry}
    (len : e.name.length = nameMax + 1) : OnlyData d (writeSlot d k e) live rootDirSector := by
  have fits := v.slot_lt k
  have cover := (v.sized _ v.root_live).covers.1
  have full := encodeEntry_length e len
  exact v.write_inside v.root_live (Nat.le_add_right _ _) (by omega)

theorem Sound.rootDir_writeSlot (v : Sound d b live) (k : Fin rootEntries) {e : DirEntry}
    (len : e.name.length = nameMax + 1) (sector : e.inodeSector < 2 ^ 32) :
    rootDir (writeSlot d k e) = Function.update (rootDir d) k e := by
  funext j
  rw [rootDir, (v.onlyData_writeSlot k len).diskInode v.root_live, writeSlot, Device.write_data,
    slotEntry_splice _ _ _ len sector]
  by_cases here : j = k
  · subst here
    simp
  · have ne : (j : Nat) ≠ k := fun e => here (Fin.ext e)
    simp [here, ne, rootDir]

end Root

section Create

variable {i r len : Nat}

/-- The sectors of a new inode: none of them was marked. -/
structure Unused (d : Device) (b : Bits) (i r len : Nat) : Prop where
  fits : len + 511 < 2 ^ 31
  sector : i < d.size
  sector_free : b.bit i = false
  room : r + bytesToSectors len ≤ d.size
  run : ∀ x, r ≤ x → x < r + bytesToSectors len → b.bit x = false ∧ x ≠ i

theorem create_diskInode (h : Unused d b i r len) :
    diskInode (Device.create d i r len) i = ⟨r, len, inodeMagic⟩ := by
  have fits := h.fits
  have full := encodeInode_length ⟨r, (len : Int), inodeMagic⟩
  simp only [sectorSize] at full
  have apart : 512 * i + 512 ≤ 512 * r ∨
      512 * r + (List.replicate (512 * bytesToSectors len) (0 : UInt8)).length ≤ 512 * i := by
    rw [List.length_replicate]
    by_contra mid
    exact (h.run i (by omega) (by omega)).2 rfl
  have read := slice_splice d.data (512 * i) (encodeInode ⟨r, (len : Int), inodeMagic⟩)
  rw [full] at read
  rw [diskInode, Device.create, Device.write_data, slice_splice_of_disjoint _ _ _ _ _ apart,
    Device.write_data, read]
  have room := h.room
  have cap := d.size_lt
  exact decodeInode_encodeInode _ (by simp; omega) (by simp) (by simp; omega) (by simp [inodeMagic])

theorem create_content (h : Unused d b i r len) :
    content (Device.create d i r len) i = List.replicate len 0 := by
  have sized : Sized ⟨r, len, inodeMagic⟩ := ⟨len, rfl, h.fits⟩
  have cover := sized.covers.1
  simp only [Int.toNat_natCast] at cover
  have read := slice_splice (d.write (512 * i) (encodeInode ⟨r, (len : Int), inodeMagic⟩)).data
    (512 * r) (List.replicate (512 * bytesToSectors len) 0)
  rw [List.length_replicate] at read
  rw [content, create_diskInode h]
  simp only [Int.toNat_natCast]
  rw [← slice_take _ _ _ _ cover, Device.create, Device.write_data, read, List.take_replicate,
    Nat.min_eq_left cover]

theorem create_agree (h : Unused d b i r len) (used : x < d.size ∧ b.bit x = true) :
    Agree d (Device.create d i r len) x := by
  have full := encodeInode_length ⟨r, (len : Int), inodeMagic⟩
  have ne : x ≠ i := fun e => by simp [e, h.sector_free] at used
  have off : x < r ∨ r + bytesToSectors len ≤ x := by
    by_contra mid
    have := (h.run x (by omega) (by omega)).1
    simp [this] at used
  simp only [sectorSize] at full
  refine (agree_write d (by rw [full]; omega)).trans (agree_write _ ?_)
  rw [List.length_replicate]
  omega

/-- A new inode joins the live ones; the map must have been stored with its sectors marked. -/
theorem Sound.create (v : Sound d b' live) (h : Unused d b i r len)
    (old : Owned (fun x => x < d.size ∧ b.bit x = true) live (extent d))
    (keep : ∀ x, b.bit x = true → b'.bit x = true) (mark : b'.bit i = true)
    (marks : ∀ x, r ≤ x → x < r + bytesToSectors len → b'.bit x = true) :
    Sound (Device.create d i r len) b' (insert i live) := by
  have same : ∀ j ∈ live, ∀ x ∈ extent d j, Agree d (Device.create d i r len) x :=
    fun j hj x hx => create_agree h (old.used j hj x hx)
  have inode : ∀ j ∈ live, Agree d (Device.create d i r len) j :=
    fun j hj => same j hj j List.mem_cons_self
  have new : extent (Device.create d i r len) i = i :: List.range' r (bytesToSectors len) := by
    rw [extent, create_diskInode h, dataSectors]
  have inside : ∀ x ∈ extent (Device.create d i r len) i,
      x < d.size ∧ b.bit x = false ∧ b'.bit x = true := by
    intro x hx
    rw [new, List.mem_cons, List.mem_range'_1] at hx
    rcases hx with rfl | ⟨lo, hi⟩
    · exact ⟨h.sector, h.sector_free, mark⟩
    · have room := h.room
      exact ⟨by omega, (h.run x lo hi).1, marks x lo hi⟩
  exact {
    bitCnt := v.bitCnt
    map_live := .inr v.map_live
    root_live := .inr v.root_live
    mapInode := by
      rw [diskInode_congr (inode _ v.map_live)]
      exact v.mapInode
    rootLength := by
      rw [diskInode_congr (inode _ v.root_live)]
      exact v.rootLength
    sized := by
      rintro j (rfl | hj)
      · rw [create_diskInode h]
        exact ⟨len, rfl, h.fits⟩
      · rw [diskInode_congr (inode j hj)]
        exact v.sized j hj
    fits := by
      rintro j (rfl | hj)
      · rw [create_diskInode h]
        exact h.room
      · rw [diskInode_congr (inode j hj)]
        exact v.fits j hj
    owned := by
      refine (old.congr (fun j hj => extent_congr (inode j hj)) fun _ _ _ _ u => u).insert ?_
        (fun x hx u => ?_) (fun x u => ⟨u.1, keep x u.2⟩) fun x hx => ?_
      · rw [new, List.nodup_cons]
        refine ⟨fun mem => ?_, List.nodup_range'⟩
        rw [List.mem_range'_1] at mem
        exact (h.run i mem.1 mem.2).2 rfl
      · simp [(inside x hx).2.1] at u
      · exact ⟨(inside x hx).1, (inside x hx).2.2⟩
    synced := by
      rw [content_congr (v.sized _ v.map_live) (same _ v.map_live)]
      exact v.synced }

end Create

end Pintos.Volume
