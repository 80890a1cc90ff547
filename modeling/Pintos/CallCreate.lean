import Pintos.Calls

/-! The call `filesys_create`. It takes a sector for the inode and a run of
sectors for the data, writes the inode, zeroes the data and enters the name into
the directory. A failure up to the allocation of the data is undone. When the
directory refuses the name, only the sector of the inode is given back. -/

namespace Pintos.CallCreate
open Resumption ByteStore Bitmap Disk InodeIO Inode Directory Filesys Ownership Volume Calls
open Prog (run_bind_of)

attribute [local irreducible] splice

variable {s : FS} {hs : List (Option Nat)} {f0 p0 : Nat}

def mapStart (s : FS) : Nat := (diskInode s.device freeMapSector).start

/-- The allocations of a creation found sector `i` and the run at `r`, and `b` is
the map with both marked. -/
structure Allocated (s : FS) (size i r : Nat) (b : Bits) : Prop where
  sector : s.freeMap.Run i 1 false
  first : ∀ i' < i, ¬s.freeMap.Run i' 1 false
  unused : Unused s.device s.freeMap i r size
  fits : r + bytesToSectors size ≤ s.freeMap.bitCnt
  bitCnt : b.bitCnt = s.freeMap.bitCnt
  bit : ∀ x, b.bit x = true ↔ x = i ∨ (r ≤ x ∧ x < r + bytesToSectors size) ∨ s.freeMap.bit x = true

/-- No sector for the inode, or no run for the data once the first free sector is taken. -/
def NoSpace (s : FS) (size : Nat) : Prop :=
  (∀ i, ¬s.freeMap.Run i 1 false) ∨
    ∃ i b, s.freeMap.Run i 1 false ∧ (∀ i' < i, ¬s.freeMap.Run i' 1 false) ∧
      Filled s.freeMap b i 1 true ∧ ∀ r, ¬b.Run r (bytesToSectors size) false

def created (s : FS) (size i r : Nat) (b : Bits) : FS :=
  { s with
    freeMap := b
    device := Device.create (s.device.write (512 * mapStart s) b.bytes) i r size }
variable {b b' : Bits} {i size r : Nat} {v : Bool} {t : FS} {name : CString}

theorem filled_one (h : Filled b b' i 1 v) (x : Nat) : b'.bit x = if x = i then v else b.bit x := by
  rw [h.bit]
  by_cases here : x = i
  · rw [if_pos here, if_pos (by omega)]
  · rw [if_neg here, if_neg (by omega)]

theorem filled_undo {b'' : Bits} (free : b.bit i = false) (h : Filled b b' i 1 true)
    (h' : Filled b' b'' i 1 false) : b'' = b := by
  apply Bits.ext_bit (h'.bitCnt.trans h.bitCnt)
  intro x
  rw [filled_one h', filled_one h]
  by_cases here : x = i
  · rw [if_pos here, here, free]
  · rw [if_neg here, if_neg here]

theorem run_bit_one (h : b.Run i 1 v) : b.bit i = v :=
  h.2 i (Nat.le_refl _) (by omega)

theorem run_unique {i' cnt : Nat} (run : b.Run i cnt v) (first : ∀ j < i, ¬b.Run j cnt v)
    (run' : b.Run i' cnt v) (first' : ∀ j < i', ¬b.Run j cnt v) : i = i' := by
  by_contra ne
  rcases Nat.lt_or_gt_of_ne ne with lt | gt
  · exact first' i lt run
  · exact first i' gt run'

section

variable (inv : Inv s hs f0 p0)
include inv

theorem allocated_of_runs {b1 b2 : Bits} (lt : size < 2 ^ 31) (sector : s.freeMap.Run i 1 false)
    (first : ∀ i' < i, ¬s.freeMap.Run i' 1 false) (fill1 : Filled s.freeMap b1 i 1 true)
    (run : b1.Run r (bytesToSectors size) false) (fill2 : Filled b1 b2 r (bytesToSectors size) true) :
    Allocated s size i r b2 := by
  have cap := s.device.size_lt
  have cnt := inv.volume.bitCnt
  have cnt1 := fill1.bitCnt
  have fits := run.1
  have room := sector.1
  refine ⟨sector, first, ⟨?_, by omega, run_bit_one sector, by omega, ?_⟩, by omega,
    fill2.bitCnt.trans fill1.bitCnt, ?_⟩
  · -- A size whose sector count overflows asks for more sectors than there are.
    by_contra large
    have := bytesToSectors_of_large size (by omega) lt
    omega
  · intro x lo hi
    have clear := run.2 x lo hi
    rw [filled_one fill1] at clear
    by_cases here : x = i
    · simp [here] at clear
    · rw [if_neg here] at clear
      exact ⟨clear, here⟩
  · intro x
    rw [fill2.bit, filled_one fill1]
    by_cases inside : r ≤ x ∧ x < r + bytesToSectors size
    · simp [inside]
    · by_cases here : x = i <;> simp [here, inside]

theorem run_filesysCreate_of {s' : FS} {size : Int} {ok : Bool} (next : s'.next = s.next)
    (fresh : s'.inodes s'.next = none)
    (chain : Prog.run (createChain (some ⟨s.next, 0⟩) name size)
      (FS.pushInode s (rootInode s.device)) = some ((ok, i), t))
    (undo : Prog.run (createUndo ok i) t = some ((), FS.pushInode s' (rootInode s.device))) :
    Prog.run (filesysCreate name size) s = some (ok, FS.bump s') := by
  rw [filesysCreate, run_bind_of inv.run_dirOpenRoot, run_bind_of chain]
  simp only
  rw [run_bind_of undo, ← next, run_bind_of (run_dirClose_push fresh _)]
  rfl

theorem map_marked : s.freeMap.bit freeMapSector = true :=
  (inv.volume.owned.used _ inv.volume.map_live _ List.mem_cons_self).2

theorem mapFile_pushed : MapFile (FS.pushInode s (rootInode s.device)) f0 p0 (mapStart s) :=
  MapFile.push inv.mapFile_spec inv.fresh _

/-- A creation that finds no space at most stores the map once more. -/
theorem run_filesysCreate_noSpace (name : CString) (h : NoSpace s size) :
    ∃ s', Prog.run (filesysCreate name size) s = some (false, FS.bump s') ∧
      (s' = s ∨ s' = FS.storeMap s (mapStart s) s.freeMap) := by
  have map := mapFile_pushed inv
  rcases run_freeMapAllocate map 1 with ⟨i, b, run, first, fill, alloc⟩ | ⟨none, alloc⟩
  · rcases h with none | ⟨i', b', run', first', fill', noRun⟩
    · exact absurd run (none i)
    obtain rfl : i = i' := run_unique run first run' first'
    obtain rfl : b = b' := Bits.ext_bit (fill.bitCnt.trans fill'.bitCnt.symm) fun x => by
      rw [fill.bit, fill'.bit]
      rfl
    have map1 := map.storeMap fill.bitCnt
    have ne : i ≠ 0 := by
      rintro rfl
      have := run_bit_one run'
      simp [show s.freeMap.bit 0 = true from map_marked inv] at this
    rcases run_freeMapAllocate map1 (bytesToSectors size) with ⟨r, _, found, _⟩ | ⟨-, data⟩
    · exact absurd found (noRun r)
    have release := run_freeMapRelease map1 i 1
      ⟨by have := run'.1; rw [show (FS.storeMap _ _ b).freeMap.bitCnt = _ from fill'.bitCnt]; exact this,
        fun j lo hi => by
          obtain rfl : j = i := by omega
          exact (filled_one fill' j).trans (if_pos rfl)⟩
    obtain ⟨b'', back, free⟩ := release
    obtain rfl : b'' = s.freeMap := filled_undo (run_bit_one run') fill' back
    refine ⟨FS.storeMap s (mapStart s) s.freeMap, run_filesysCreate_of inv (i := i) rfl inv.fresh
      (t := FS.storeMap (FS.pushInode s (rootInode s.device)) (mapStart s) b) ?_ ?_, .inr rfl⟩
    · rw [createChain, run_bind_of alloc]
      simp only
      rw [run_bind_of (run_inodeCreate_of_none i (Int.natCast_nonneg size) map1.mallocs data)]
      rfl
    · rw [createUndo, if_pos ⟨rfl, ne⟩, free, storeMap_storeMap _ _ fill'.bitCnt.symm]
      rfl
  · refine ⟨s, run_filesysCreate_of inv (i := 0) rfl inv.fresh ?_ (by rfl), .inl rfl⟩
    rw [createChain, run_bind_of alloc]
    rfl

theorem restored_inv : Inv (FS.storeMap s (mapStart s) s.freeMap) hs f0 p0 ∧
    OnlyData s.device (FS.storeMap s (mapStart s) s.freeMap).device (Live s) freeMapSector := by
  have only : OnlyData s.device (s.device.write (512 * mapStart s) s.freeMap.bytes) (Live s)
      freeMapSector := inv.volume.onlyData_storeMap rfl
  have volume := inv.volume.storeMap rfl inv.volume.clean inv.volume.map_live inv.volume.root_live
    (fun _ hj => hj) inv.volume.owned
  exact ⟨inv.withMap (Nat.le_refl _) only volume, only⟩

theorem create_cases (lt : size < 2 ^ 31) :
    NoSpace s size ∨ ∃ i r b t, Allocated s size i r b ∧
      Prog.run (freeMapAllocate 1) (FS.pushInode s (rootInode s.device)) = some (some i, t) ∧
      Prog.run (inodeCreate i size) t =
        some (true, FS.pushInode (created s size i r b) (rootInode s.device)) := by
  have map := mapFile_pushed inv
  rcases run_freeMapAllocate map 1 with ⟨i, b1, sector, first, fill1, alloc⟩ | ⟨none, -⟩
  · have map1 := map.storeMap fill1.bitCnt
    rcases run_freeMapAllocate map1 (bytesToSectors size) with
      ⟨r, b2, run, -, fill2, data⟩ | ⟨none, -⟩
    · have h := allocated_of_runs inv lt sector first fill1 run fill2
      have cnt := inv.volume.bitCnt
      refine .inr ⟨i, r, b2, _, h, alloc, ?_⟩
      rw [storeMap_storeMap _ _ (show b2.bitCnt = b1.bitCnt from fill2.bitCnt)] at data
      refine run_inodeCreate_of_some (Int.natCast_nonneg size) map1.mallocs data h.unused.sector ?_
      have fits := run.1
      have cnt1 := fill1.bitCnt
      change b1.bitCnt = s.freeMap.bitCnt at cnt1
      change r + _ ≤ b1.bitCnt at fits
      change r + _ ≤ s.device.size
      omega
    · exact .inl (.inr ⟨i, b1, sector, first, fill1, none⟩)
  · exact .inl (.inl none)

end

section Created

variable {size i r : Nat} {b : Bits}

section

variable (inv : Inv s hs f0 p0) (h : Allocated s size i r b)
include inv h

theorem Allocated.new : i ∉ Live s := by
  intro live
  have := (inv.volume.owned.used i live i List.mem_cons_self).2
  simp [h.unused.sector_free] at this

omit inv h in
theorem Allocated.keep (h : Allocated s size i r b) {x : Nat} (used : s.freeMap.bit x = true) :
    b.bit x = true := (h.bit x).mpr (.inr (.inr used))

theorem Allocated.clean : b.Clean := by
  intro x used
  rw [h.bitCnt]
  rcases (h.bit x).mp used with rfl | ⟨-, hi⟩ | old
  · exact h.sector.1
  · exact Nat.lt_of_lt_of_le hi h.fits
  · exact inv.volume.clean x old

end

theorem Allocated.unused_map (h : Allocated s size i r b) :
    Unused (s.device.write (512 * mapStart s) b.bytes) s.freeMap i r size :=
  { h.unused with }

section

variable (inv : Inv s hs f0 p0) (h : Allocated s size i r b)
include inv h

/-- Of what was there before, a creation changes the data of the free-map file only. -/
theorem Allocated.onlyData :
    OnlyData s.device (created s size i r b).device (Live s) freeMapSector := by
  have only := inv.volume.onlyData_storeMap h.bitCnt
  intro j hj x hx other
  refine (only j hj x hx other).trans (create_agree h.unused_map ?_)
  exact inv.volume.owned.used j hj x hx

theorem Allocated.sound : Sound (created s size i r b).device b (insert i (Live s)) := by
  have only := inv.volume.onlyData_storeMap h.bitCnt
  have map := inv.volume.storeMap h.bitCnt (h.clean inv) inv.volume.map_live inv.volume.root_live
    (fun _ hj => hj)
    (inv.volume.owned.congr (fun _ _ => rfl) fun _ _ _ _ used => ⟨used.1, h.keep used.2⟩)
  refine map.create h.unused_map
    (inv.volume.owned.congr (fun j hj => extent_congr (only.inode hj)) fun _ _ _ _ used => used)
    (fun x used => h.keep used) ((h.bit i).mpr (.inl rfl))
    fun x lo hi => (h.bit x).mpr (.inr (.inl ⟨lo, hi⟩))

theorem Allocated.rootDir_eq : rootDir (created s size i r b).device = rootDir s.device :=
  inv.volume.rootDir_eq (h.onlyData inv) (by decide)

theorem Allocated.mapFile :
    MapFile (FS.pushInode (created s size i r b) (rootInode s.device)) f0 p0 (mapStart s) := by
  exact { (mapFile_pushed inv).withMap (b := b) h.bitCnt with }

end

theorem Allocated.loaded (inv : Inv s hs f0 p0) (b : Bits) :
    Loaded (FS.pushInode (created s size i r b) (rootInode s.device)) s.next (rootInode s.device)
      (entrySize * rootEntries) :=
  { inv.root_loaded with }

/-- The slot that the directory of state `s` has for a new name. -/
def nameSlot (s : FS) (name : CString) : Option Nat :=
  addSlot s.device.data (diskInode s.device rootDirSector).start rootEntries name

section

variable (inv : Inv s hs f0 p0) (h : Allocated s size i r b)
include inv h

theorem Allocated.addSlot_eq (name : CString) :
    addSlot (created s size i r b).device.data (diskInode s.device rootDirSector).start rootEntries
      name = nameSlot s name := by
  refine addSlot_congr (fun k lt => ?_) name
  have := congrFun (h.rootDir_eq inv) ⟨k, lt⟩
  simpa only [rootDir, (h.onlyData inv).diskInode inv.volume.root_live] using this

theorem run_filesysCreate_refused (refused : nameSlot s name = none)
    (alloc : Prog.run (freeMapAllocate 1) (FS.pushInode s (rootInode s.device)) = some (some i, t))
    (make : Prog.run (inodeCreate i size) t = some (true,
      FS.pushInode (created s size i r b) (rootInode s.device))) :
    ∃ b', Filled b b' i 1 false ∧ Prog.run (filesysCreate name size) s =
      some (false, FS.bump (FS.storeMap (created s size i r b) (mapStart s) b')) := by
  have marked : b.Run i 1 true := by
    refine ⟨by rw [h.bitCnt]; exact h.sector.1, fun j lo hi => ?_⟩
    obtain rfl : j = i := by omega
    exact (h.bit j).mpr (.inl rfl)
  have ne : i ≠ 0 := by
    rintro rfl
    have := h.unused.sector_free
    simp [show s.freeMap.bit 0 = true from map_marked inv] at this
  obtain ⟨b', back, free⟩ := run_freeMapRelease (h.mapFile inv) i 1 marked
  have add := run_dirAdd_none ⟨s.next, 0⟩ (Allocated.loaded inv b) (by decide) rfl name i
    (by rw [← refused]; exact h.addSlot_eq inv name)
  refine ⟨b', back, run_filesysCreate_of inv (i := i) rfl inv.fresh
    (t := FS.pushInode (created s size i r b) (rootInode s.device)) ?_ ?_⟩
  · rw [createChain, run_bind_of alloc]
    simp only
    rw [run_bind_of make, if_pos rfl, run_bind_of add]
    rfl
  · rw [createUndo, if_pos ⟨rfl, ne⟩, free]
    rfl

theorem run_filesysCreate_added {k : Fin rootEntries} (slot : nameSlot s name = some k.val)
    (alloc : Prog.run (freeMapAllocate 1) (FS.pushInode s (rootInode s.device)) = some (some i, t))
    (make : Prog.run (inodeCreate i size) t = some (true,
      FS.pushInode (created s size i r b) (rootInode s.device))) :
    Prog.run (filesysCreate name size) s = some (true, FS.bump { created s size i r b with
      device := writeSlot (created s size i r b).device k
        (addedEntry (rootDir s.device k) name i) }) := by
  have add := run_dirAdd_some ⟨s.next, 0⟩ (Allocated.loaded inv b) (by decide) rfl name
    (k := k.val) i (by rw [← slot]; exact h.addSlot_eq inv name)
  have start : (diskInode (created s size i r b).device rootDirSector).start =
      (diskInode s.device rootDirSector).start := by
    rw [(h.onlyData inv).diskInode inv.volume.root_live]
  have entry := congrFun (h.rootDir_eq inv) k
  simp only [rootDir, start] at entry
  refine run_filesysCreate_of inv (i := i) rfl inv.fresh
    (t := FS.pushInode { created s size i r b with
      device := writeSlot (created s size i r b).device k (addedEntry (rootDir s.device k) name i) }
      (rootInode s.device)) ?_ (by rfl)
  rw [createChain, run_bind_of alloc]
  simp only
  rw [run_bind_of make, if_pos rfl, run_bind_of add]
  simp only [Prog.run_pure, writeSlot, start, rootDir, ← entry]
  rfl

theorem refused_inv (back : Filled b b' i 1 false) :
    Inv (FS.bump (FS.storeMap (created s size i r b) (mapStart s) b')) hs f0 p0 ∧
      OnlyData s.device (FS.storeMap (created s size i r b) (mapStart s) b').device (Live s)
        freeMapSector := by
  have sound := h.sound inv
  have start : (diskInode (created s size i r b).device freeMapSector).start = mapStart s := by
    rw [(h.onlyData inv).diskInode inv.volume.map_live, mapStart]
  have step := sound.onlyData_storeMap back.bitCnt
  rw [start] at step
  have only : OnlyData s.device (FS.storeMap (created s size i r b) (mapStart s) b').device
      (Live s) freeMapSector :=
    (h.onlyData inv).trans fun j hj => step j (.inr hj)
  have clean : b'.Clean := by
    intro x used
    rw [filled_one back] at used
    split_ifs at used with here
    rw [back.bitCnt]
    exact h.clean inv x used
  have volume := sound.storeMap back.bitCnt clean inv.volume.map_live
    inv.volume.root_live (fun j hj => .inr hj) (sound.owned.remove (i := i) (.inl rfl)
      (fun j hj => ⟨.inr hj, fun e => h.new inv (e ▸ hj)⟩) fun x off used => ⟨used.1, by
        have ne : x ≠ i := by
          rintro rfl
          exact off List.mem_cons_self
        rw [filled_one back, if_neg ne]
        exact used.2⟩)
  rw [start] at volume
  exact ⟨inv.withMap (Nat.le_succ _) only volume, only⟩

theorem added_inv {k : Fin rootEntries} (valid : name.val.length ≤ nameMax)
    (free : (rootDir s.device k).inUse = false) (absent : find (rootDir s.device) name = none) :
    let d := writeSlot (created s size i r b).device k (addedEntry (rootDir s.device k) name i)
    Inv (FS.bump { created s size i r b with device := d }) hs f0 p0 ∧
      rootDir d = Function.update (rootDir s.device) k (addedEntry (rootDir s.device k) name i) ∧
      OnlyData (created s size i r b).device d (insert i (Live s)) rootDirSector := by
  intro d
  have sound := h.sound inv
  have len : (addedEntry (rootDir s.device k) name i).name.length = nameMax + 1 :=
    addedEntry_name_length _ name i (by simp [slotBytes])
  have label : stored (addedEntry (rootDir s.device k) name i).name = name.val :=
    stored_strlcpy _ name _ (Nat.lt_succ_of_le valid)
  have small : i < 2 ^ 32 := by
    have := h.unused.sector
    have := s.device.size_lt
    omega
  have only := sound.onlyData_writeSlot k len
  have dir := sound.rootDir_writeSlot k len small
  rw [h.rootDir_eq inv] at dir
  have new : ¬Named (rootDir s.device) i := fun named => h.new inv (named_live named)
  have system : i ≠ freeMapSector ∧ i ≠ rootDirSector :=
    ⟨fun e => h.new inv (e ▸ inv.volume.map_live), fun e => h.new inv (e ▸ inv.volume.root_live)⟩
  have named : ∀ j, Named (rootDir d) j ↔ j = i ∨ Named (rootDir s.device) j := by
    intro j
    rw [dir]
    exact named_add free rfl
  refine ⟨inv.withVolume (Nat.le_succ _) (fun p a ha => ?_) (fun p a _ ha => ?_) ?_ ?_
    (sound.onlyData rfl only (by decide)) fun j => ?_, dir, only⟩
  · rw [only.diskInode (.inr (open_live ha)), (h.onlyData inv).diskInode (open_live ha)]
  · rw [named]
    exact or_iff_right fun e => h.new inv (e ▸ open_live ha)
  · rw [dir]
    exact inv.names.add label absent new
  · intro j hj
    rcases (named j).mp hj with rfl | old
    · exact system
    · exact inv.files j old
  · rw [Set.mem_insert_iff, mem_live, named, or_assoc, or_left_comm, or_left_comm (a := j = i)]

end

end Created

def ValidName (name : CString) : Prop := name.val ≠ [] ∧ name.val.length ≤ nameMax

instance (name : CString) : Decidable (ValidName name) :=
  inferInstanceAs (Decidable (name.val ≠ [] ∧ name.val.length ≤ nameMax))

def FreeSlot (s : FS) : Prop := ∃ k, (rootDir s.device k).inUse = false

/-- A free sector for the inode, the first one, and besides it a run of free sectors
that is long enough for the data. -/
def Space (s : FS) (size : Nat) : Prop :=
  ∃ i < s.freeMap.bitCnt, s.freeMap.bit i = false ∧ (∀ i' < i, s.freeMap.bit i' = true) ∧
    ∃ r < s.freeMap.bitCnt + 1, r + (size + 511) / 512 ≤ s.freeMap.bitCnt ∧
      ∀ x < (size + 511) / 512, s.freeMap.bit (r + x) = false ∧ r + x ≠ i

def Room (s : FS) (size : Nat) : Prop := FreeSlot s ∧ Space s size

instance (s : FS) (size : Nat) : Decidable (Room s size) := by
  unfold Room FreeSlot Space
  infer_instance

theorem run_one : b.Run i 1 false ↔ i < b.bitCnt ∧ b.bit i = false := by
  constructor
  · intro h
    exact ⟨h.1, run_bit_one h⟩
  · rintro ⟨lt, clear⟩
    refine ⟨lt, fun j lo hi => ?_⟩
    obtain rfl : j = i := by omega
    exact clear

theorem slotOf_isSome_iff (s : FS) (name : CString) :
    (slotOf s.device.data (diskInode s.device rootDirSector).start rootEntries name).isSome = true ↔
      find (rootDir s.device) name ≠ none := by
  rw [Ne, find_eq_none, slotOf, List.find?_isSome]
  push Not
  constructor
  · rintro ⟨k, mem, hit⟩
    exact ⟨⟨k, List.mem_range.mp mem⟩, by simpa [rootDir] using hit⟩
  · rintro ⟨k, hit⟩
    exact ⟨k, List.mem_range.mpr k.isLt, by simpa [rootDir] using hit⟩

theorem nameSlot_cases (s : FS) (name : CString) :
    (∃ k : Fin rootEntries, nameSlot s name = some k.val ∧ (rootDir s.device k).inUse = false ∧
      ValidName name ∧ find (rootDir s.device) name = none) ∨
    (nameSlot s name = none ∧ ¬(ValidName name ∧ find (rootDir s.device) name = none ∧
      FreeSlot s)) := by
  have search := slotOf_isSome_iff s name
  unfold nameSlot addSlot
  split_ifs with bad there
  · refine .inr ⟨rfl, fun h => ?_⟩
    rcases bad with empty | long
    · exact h.1.1 empty
    · exact absurd h.1.2 (Nat.not_le_of_lt long)
  · exact .inr ⟨rfl, fun h => search.mp there h.2.1⟩
  have absent : find (rootDir s.device) name = none := by
    by_contra some
    exact there (search.mpr some)
  cases slot : freeSlot s.device.data (diskInode s.device rootDirSector).start rootEntries with
  | none =>
    refine .inr ⟨rfl, fun ⟨_, _, k, free⟩ => ?_⟩
    have used := List.find?_eq_none.mp slot k (List.mem_range.mpr k.isLt)
    simp only [rootDir] at free
    simp [free] at used
  | some k =>
    obtain ⟨lt, free⟩ := freeSlot_eq_some slot
    push Not at bad
    exact .inl ⟨⟨k, lt⟩, rfl, free, bad, absent⟩

theorem Allocated.space (h : Allocated s size i r b) : ¬NoSpace s size := by
  rintro (none | ⟨i', b', run, first, fill, none⟩)
  · exact none i h.sector
  · obtain rfl := run_unique h.sector h.first run first
    refine none r ⟨by rw [fill.bitCnt]; exact h.fits, fun x lo hi => ?_⟩
    rw [filled_one fill, if_neg (h.unused.run x lo hi).2]
    exact (h.unused.run x lo hi).1

theorem space_iff (inv : Inv s hs f0 p0) (lt : size < 2 ^ 31) : Space s size ↔ ¬NoSpace s size := by
  have cap := s.device.size_lt
  have cnt := inv.volume.bitCnt
  refine ⟨?_, fun space => ?_⟩
  · rintro ⟨i, bound, clear, first, r, -, fits, run⟩
    have sectors := bytesToSectors_of_small size (by omega)
    have sector : s.freeMap.Run i 1 false := run_one.mpr ⟨bound, clear⟩
    have least : ∀ i' < i, ¬s.freeMap.Run i' 1 false := fun i' less h => by
      have := (run_one.mp h).2
      simp [first i' less] at this
    rintro (none | ⟨i', b, sector', least', fill, none⟩)
    · exact none i sector
    obtain rfl := run_unique sector least sector' least'
    rw [sectors] at none
    refine none r ⟨by rw [fill.bitCnt]; exact fits, fun x lo hi => ?_⟩
    have here := run (x - r) (by omega)
    rw [show r + (x - r) = x by omega] at here
    rw [filled_one fill, if_neg here.2]
    exact here.1
  · obtain ⟨i, r, b, t, h, -, -⟩ := (create_cases inv lt).resolve_left space
    have sectors := bytesToSectors_of_small size h.unused.fits
    have fits := h.fits
    refine ⟨i, h.sector.1, h.unused.sector_free, fun i' less => ?_, r, by omega, by omega,
      fun x less => ?_⟩
    · by_contra clear
      have bound := h.sector.1
      exact h.first i' less (run_one.mpr ⟨by omega, by simpa using clear⟩)
    · exact h.unused.run (r + x) (by omega) (by omega)

/-- What a call leaves alone: the open inodes, the open files and the data of files. -/
structure Kept (s s' : FS) : Prop where
  inodes : s'.inodes = s.inodes
  files : s'.files = s.files
  content : ∀ j ∈ Live s, j ≠ freeMapSector → j ≠ rootDirSector →
    content s'.device j = content s.device j

/-- Outcome of a creation. It succeeds exactly for a valid new name with room for the file. -/
theorem create_spec (inv : Inv s hs f0 p0) (name : CString) (lt : size < 2 ^ 31) :
    ∃ ok s', Prog.run (filesysCreate name size) s = some (ok, s') ∧ Inv s' hs f0 p0 ∧ Kept s s' ∧
      (ok = true ↔ ValidName name ∧ find (rootDir s.device) name = none ∧ Room s size) ∧
      (ok = false → rootDir s'.device = rootDir s.device) ∧
      (ok = true → ∃ i, i ∉ Live s ∧ content s'.device i = List.replicate size 0 ∧
        ∀ other, find (rootDir s'.device) other =
          if other.val = name.val then some i else find (rootDir s.device) other) := by
  have room : Room s size ↔ FreeSlot s ∧ ¬NoSpace s size := and_congr_right fun _ => space_iff inv lt
  rcases create_cases inv lt with none | ⟨i, r, b, t, h, alloc, make⟩
  · obtain ⟨s', run, same⟩ := run_filesysCreate_noSpace inv name none
    obtain ⟨inv', only⟩ := restored_inv inv
    rcases same with rfl | rfl
    · exact ⟨false, _, run, inv.bump, ⟨rfl, rfl, fun _ _ _ _ => rfl⟩, by simp [room, none],
        fun _ => rfl, fun e => by cases e⟩
    · exact ⟨false, _, run, inv'.bump, ⟨rfl, rfl, fun j hj map _ =>
        inv.volume.content_eq only hj map⟩, by simp [room, none],
        fun _ => inv.volume.rootDir_eq only (by decide), fun e => by cases e⟩
  · have space := h.space
    rcases nameSlot_cases s name with ⟨k, slot, free, valid, absent⟩ | ⟨refused, why⟩
    · obtain ⟨inv', dir, only⟩ := added_inv inv h valid.2 free absent
      have new := h.new inv
      refine ⟨true, _, run_filesysCreate_added inv h slot alloc make, inv', ⟨rfl, rfl, ?_⟩, ?_,
        (fun e => by cases e), fun _ => ⟨i, new, ?_, fun other => ?_⟩⟩
      · intro j hj map root
        exact ((h.sound inv).content_eq only (.inr hj) root).trans
          (inv.volume.content_eq (h.onlyData inv) hj map)
      · simp [room, valid, absent, space]
        exact ⟨k, free⟩
      · have root : i ≠ rootDirSector := fun e => new (e ▸ inv.volume.root_live)
        exact ((h.sound inv).content_eq only (.inl rfl) root).trans (create_content h.unused_map)
      · change find (rootDir (writeSlot _ k _)) other = _
        rw [dir]
        exact inv.names.find_add (stored_strlcpy _ name _ (Nat.lt_succ_of_le valid.2)) free rfl
          absent (fun named => new (named_live named)) other
    · obtain ⟨b', back, run⟩ := run_filesysCreate_refused inv h refused alloc make
      obtain ⟨inv', only⟩ := refused_inv inv h back
      refine ⟨false, _, run, inv', ⟨rfl, rfl, ?_⟩, ?_, fun _ => ?_, fun e => by cases e⟩
      · intro j hj map _
        exact inv.volume.content_eq only hj map
      · simp only [Bool.false_eq_true, false_iff]
        exact fun all => why ⟨all.1, all.2.1, (room.mp all.2.2).1⟩
      · exact inv.volume.rootDir_eq only (by decide)

end Pintos.CallCreate
