import Pintos.Refinement

/-! Sectors. In every state that calls reach, the sectors of the file system and of
its files are all different and marked in the free map, and the map in memory is the
one in its file. A failed creation gives back what it took, except that a name the
directory refuses costs the data sectors. -/

namespace Pintos.Sectors
open Resumption ByteStore Bitmap Disk InodeIO Inode Directory Filesys Ownership Volume Calls
open CallCreate CallFiles Format FileModel Refinement

attribute [local irreducible] splice

variable {s : FS} {hs : List (Option Nat)} {f0 p0 : Nat}

def namedSectors (s : FS) : List Nat :=
  ((List.finRange rootEntries).filter fun k => (rootDir s.device k).inUse).map fun k =>
    (rootDir s.device k).inodeSector

def removedSector (s : FS) (p : Nat) : Option Nat :=
  match s.inodes p with
  | some a => if a.removed then some a.sector else none
  | none => none

def fileSectors (s : FS) : List Nat := namedSectors s ++ s.openInodes.filterMap (removedSector s)

def ownedSectors (s : FS) : List Nat :=
  (freeMapSector :: rootDirSector :: fileSectors s).flatMap (extent s.device)

theorem mem_namedSectors {i : Nat} : i ∈ namedSectors s ↔ Named (rootDir s.device) i := by
  simp [namedSectors, Named]

theorem removedSector_eq_some {p i : Nat} :
    removedSector s p = some i ↔ ∃ a, s.inodes p = some a ∧ a.removed = true ∧ a.sector = i := by
  unfold removedSector
  cases s.inodes p with
  | none => simp
  | some a => by_cases gone : a.removed = true <;> simp [gone]

section

variable (inv : Inv s hs f0 p0)
include inv

theorem removedSectors_nodup : (s.openInodes.filterMap (removedSector s)).Nodup := by
  refine inv.table.nodup.filterMap fun p q i hp hq => ?_
  rw [Option.mem_def, removedSector_eq_some] at hp hq
  obtain ⟨a, ha, -, rfl⟩ := hp
  obtain ⟨b, hb, -, e⟩ := hq
  exact inv.table.sector_inj p q a b ha hb e.symm

theorem removed_file {p : Nat} {a : Inode} (ha : s.inodes p = some a) (gone : a.removed = true) :
    p ≠ p0 := by
  rintro rfl
  rw [inv.mapOpen, Option.some.injEq] at ha
  subst ha
  cases gone

theorem mem_fileSectors {i : Nat} (hi : i ∈ fileSectors s) : i ∈ Live s ∧ IsFile i := by
  rcases List.mem_append.mp hi with named | removed
  · rw [mem_namedSectors] at named
    exact ⟨named_live named, inv.files i named⟩
  · obtain ⟨p, -, hp⟩ := List.mem_filterMap.mp removed
    obtain ⟨a, ha, gone, rfl⟩ := removedSector_eq_some.mp hp
    exact ⟨open_live ha, Inv.isFile inv (removed_file inv ha gone) ha⟩

theorem fileSectors_nodup : (fileSectors s).Nodup := by
  refine List.Nodup.append (List.Nodup.map_on (fun k hk k' hk' e => ?_)
    ((List.nodup_finRange _).filter _)) (removedSectors_nodup inv) fun i named removed => ?_
  · simp only [List.mem_filter, List.mem_finRange, true_and] at hk hk'
    exact inv.names.sector k k' hk hk' e
  obtain ⟨p, -, hp⟩ := List.mem_filterMap.mp removed
  obtain ⟨a, ha, gone, rfl⟩ := removedSector_eq_some.mp hp
  exact (inv.removed p a (removed_file inv ha gone) ha).mp gone (mem_namedSectors.mp named)

theorem ownedSectors_nodup : (ownedSectors s).Nodup := by
  refine inv.volume.owned.nodup_flatMap ?_ fun i hi => ?_
  · rw [List.nodup_cons, List.nodup_cons]
    refine ⟨fun mem => ?_, fun mem => ?_, fileSectors_nodup inv⟩
    · rcases List.mem_cons.mp mem with e | mem
      · exact absurd e (by decide)
      · exact (mem_fileSectors inv mem).2.1 rfl
    · exact (mem_fileSectors inv mem).2.2 rfl
  · rcases List.mem_cons.mp hi with rfl | hi
    · exact inv.volume.map_live
    · rcases List.mem_cons.mp hi with rfl | hi
      · exact inv.volume.root_live
      · exact (mem_fileSectors inv hi).1

theorem ownedSectors_marked {x : Nat} (hx : x ∈ ownedSectors s) :
    bitmapTest s.freeMap x = some true := by
  obtain ⟨i, hi, mem⟩ := List.mem_flatMap.mp hx
  have live : i ∈ Live s := by
    rcases List.mem_cons.mp hi with rfl | hi
    · exact inv.volume.map_live
    · rcases List.mem_cons.mp hi with rfl | hi
      · exact inv.volume.root_live
      · exact (mem_fileSectors inv hi).1
  obtain ⟨lt, marked⟩ := inv.volume.owned.used i live x mem
  rw [bitmapTest, if_pos (by rw [inv.volume.bitCnt]; exact lt), marked]

end

/-- Every sequence of calls runs without a failed assertion, and at its end no sector
is owned twice and every owned sector is marked. -/
theorem calls_own_sectors {d : Device} {junk : Nat → BitVec 32} {s : FS}
    (h : Prog.run (filesysInit true) (boot d junk) = some ((), s)) (ops : List Call) :
    ∃ rs c, Client.calls ⟨s, []⟩ ops = some (rs, c) ∧ (ownedSectors c.fs).Nodup ∧
      ∀ x ∈ ownedSectors c.fs, bitmapTest c.fs.freeMap x = some true := by
  obtain ⟨c, obj, run, sim⟩ := calls_matched ops (formatted_sim h)
  exact ⟨_, c, run, ownedSectors_nodup sim.inv, fun x hx => ownedSectors_marked sim.inv hx⟩

theorem calls_own_sectors_blank : ∃ s,
    Prog.run (filesysInit true) (boot blankDevice fun _ => 0) = some ((), s) ∧
      ∃ rs c, Client.calls ⟨s, []⟩ [.filesysCreate ⟨[97], by decide⟩ 0,
        .filesysCreate ⟨[98], by decide⟩ 600, .filesysOpen ⟨[98], by decide⟩,
        .filesysRemove ⟨[98], by decide⟩] = some (rs, c) ∧
        (ownedSectors c.fs).Nodup ∧
        ∀ x ∈ ownedSectors c.fs, bitmapTest c.fs.freeMap x = some true := by
  obtain ⟨s, format⟩ := blankDevice_formats
  exact ⟨s, format, calls_own_sectors format _⟩

theorem map_bytes (inv : Inv s hs f0 p0) :
    slice s.device.data (512 * (diskInode s.device freeMapSector).start)
        (byteCnt s.freeMap.bitCnt) = content s.device freeMapSector := by
  rw [content, inv.volume.mapInode_eq, Int.toNat_natCast]

/-- Whatever bitmap of the device's size it is read into, the file holds the map in memory. -/
theorem run_bitmapRead_synced (inv : Inv s hs f0 p0) {b : Bits} (cnt : b.bitCnt = s.device.size) :
    Prog.run (bitmapRead f0) { s with freeMap := b } = some (true, s) := by
  have same : b.bitCnt = s.freeMap.bitCnt := cnt.trans inv.volume.bitCnt.symm
  have pos : 0 < b.bitCnt := by
    rw [cnt]
    exact Nat.lt_of_le_of_lt (Nat.zero_le _)
      (inv.volume.owned.used _ inv.volume.map_live _ List.mem_cons_self).1
  have read := run_bitmapRead (inv.mapFile_spec.withMap same) pos
  simp only [same, map_bytes inv] at read
  rw [bitmapReadBytes_congr same, inv.volume.synced] at read
  exact read

theorem run_filesysInit_again (inv : Inv s hs f0 p0) (junk : Nat → BitVec 32) :
    ∃ s', Prog.run (filesysInit false) (boot s.device junk) = some ((), s') ∧
      s'.freeMap = s.freeMap := by
  obtain ⟨b, fresh, init⟩ := run_freeMapInit s.device junk
  have same : b.bitCnt = s.freeMap.bitCnt := fresh.bitCnt.trans inv.volume.bitCnt.symm
  have pos : 0 < s.device.size :=
    Nat.lt_of_le_of_lt (Nat.zero_le _)
      (inv.volume.owned.used _ inv.volume.map_live _ List.mem_cons_self).1
  have node := inv.volume.mapInode_eq
  have fits := inv.volume.fits _ inv.volume.map_live
  rw [inv.volume.bitCnt] at node
  have map : MapFile (mounted s.device b 0 ⟨(diskInode s.device freeMapSector).start,
      byteCnt s.device.size, inodeMagic⟩ junk) (0 + 1) 0
        (diskInode s.device freeMapSector).start := by
    refine mounted_mapFile fresh.bitCnt ?_
    rwa [node] at fits
  have read := run_bitmapRead map (show 0 < b.bitCnt by rw [fresh.bitCnt]; exact pos)
  have start : Prog.run (filesysInit false) (boot s.device junk) =
      Prog.run freeMapOpen (unmounted s.device b 0 none junk) := by
    rw [filesysInit, Prog.run_bind_of (Prog.run_modify _ _)]
    exact (Prog.run_bind_of init _).trans rfl
  refine ⟨{ mounted s.device b 0 ⟨(diskInode s.device freeMapSector).start,
    byteCnt s.device.size, inodeMagic⟩ junk with freeMap := s.freeMap }, ?_, rfl⟩
  have bytes : slice s.device.data (512 * (diskInode s.device freeMapSector).start)
      (byteCnt b.bitCnt) = content s.device freeMapSector := by
    rw [same]
    exact map_bytes inv
  have restored : bitmapReadBytes b (content s.device freeMapSector) = s.freeMap := by
    rw [bitmapReadBytes_congr same, inv.volume.synced]
  rw [start, freeMapOpen, run_openMap pos, node, Prog.run_bind_of read, Prog.run_assert rfl]
  simp only [mounted, boot, bytes, restored]

/-- After every sequence of calls on a formatted device, the free map's file holds the map in
memory bit for bit, and mounting the device again restores it. -/
theorem freeMap_synced {d : Device} {junk : Nat → BitVec 32} {s : FS}
    (h : Prog.run (filesysInit true) (boot d junk) = some ((), s)) (ops : List Call) :
    ∃ rs c, Client.calls ⟨s, []⟩ ops = some (rs, c) ∧
      (∃ file, c.fs.freeMapFile = some file ∧ ∀ b : Bits, b.bitCnt = c.fs.device.size →
        Prog.run (bitmapRead file) { c.fs with freeMap := b } = some (true, c.fs)) ∧
      ∀ junk', ∃ s', Prog.run (filesysInit false) (boot c.fs.device junk') = some ((), s') ∧
        s'.freeMap = c.fs.freeMap := by
  obtain ⟨c, obj, run, sim⟩ := calls_matched ops (formatted_sim h)
  refine ⟨_, c, run, ⟨3, sim.inv.mapFile, fun b cnt => run_bitmapRead_synced sim.inv cnt⟩,
    fun junk' => run_filesysInit_again sim.inv junk'⟩

theorem freeMap_synced_blank : ∃ s rs c,
    Prog.run (filesysInit true) (boot blankDevice fun _ => 0) = some ((), s) ∧
      Client.calls ⟨s, []⟩ [.filesysCreate ⟨[97], by decide⟩ 600,
        .filesysRemove ⟨[97], by decide⟩] = some (rs, c) ∧
      ∃ s', Prog.run (filesysInit false) (boot c.fs.device fun _ => 0) = some ((), s') ∧
        s'.freeMap = c.fs.freeMap := by
  obtain ⟨s, format⟩ := blankDevice_formats
  obtain ⟨rs, c, run, -, again⟩ := freeMap_synced format
    [.filesysCreate ⟨[97], by decide⟩ 600, .filesysRemove ⟨[97], by decide⟩]
  exact ⟨s, rs, c, format, run, again fun _ => 0⟩

/-- What a failed creation must leave as it was. -/
structure Unchanged (s s' : FS) : Prop where
  freeMap : s'.freeMap = s.freeMap
  rootDir : content s'.device rootDirSector = content s.device rootDirSector
  openInodes : s'.openInodes = s.openInodes
  inodes : s'.inodes = s.inodes

def Accepts (s : FS) (name : CString) : Prop :=
  ValidName name ∧ find (rootDir s.device) name = none ∧ FreeSlot s

section Refused

variable {size i r : Nat} {b b' : Bits}

theorem refused_freeMap (h : Allocated s 0 i r b) (back : Filled b b' i 1 false) :
    b' = s.freeMap := by
  apply Bits.ext_bit (back.bitCnt.trans h.bitCnt)
  intro x
  have none : bytesToSectors ((0 : Nat) : Int) = 0 := by decide
  rw [filled_one back]
  by_cases here : x = i
  · rw [if_pos here, here, h.unused.sector_free]
  · rw [if_neg here, Bool.eq_iff_iff, h.bit, none]
    simp only [here, false_or, or_iff_right_iff_imp]
    omega

theorem refused_leak (h : Allocated s size i r b) (pos : 0 < size)
    (back : Filled b b' i 1 false) : b' ≠ s.freeMap := by
  intro same
  have sectors := bytesToSectors_of_small size h.unused.fits
  obtain ⟨free, ne⟩ := h.unused.run r (Nat.le_refl _) (by omega)
  have marked : b'.bit r = true := by
    rw [filled_one back, if_neg ne]
    exact (h.bit r).mpr (.inr (.inl ⟨Nat.le_refl _, by omega⟩))
  rw [same, free] at marked
  cases marked

end Refused

/-- A failed creation leaves the state as it was unless it had taken data sectors by the
time the directory refused the name. -/
theorem create_unchanged_iff (inv : Inv s hs f0 p0) (name : CString) (size : Size) :
    (∀ s', Prog.run (filesysCreate name (size : Nat)) s = some (false, s') → Unchanged s s') ↔
      (size : Nat) = 0 ∨ ¬Space s size ∨ Accepts s name := by
  have space := space_iff inv size.isLt
  rcases create_cases inv size.isLt with none | ⟨i, r, b, t, h, alloc, make⟩
  · obtain ⟨s', run, same⟩ := run_filesysCreate_noSpace inv name none
    obtain ⟨-, only⟩ := restored_inv inv
    refine iff_of_true (fun s'' run' => ?_) (.inr (.inl (by rw [space]; exact not_not_intro none)))
    rw [run, Option.some.injEq, Prod.mk.injEq] at run'
    obtain ⟨-, rfl⟩ := run'
    rcases same with rfl | rfl
    · exact ⟨rfl, rfl, rfl, rfl⟩
    · exact ⟨rfl, inv.volume.content_eq only inv.volume.root_live (by decide), rfl, rfl⟩
  · rcases nameSlot_cases s name with ⟨k, slot, free, valid, absent⟩ | ⟨refused, why⟩
    · refine iff_of_true (fun s'' run' => ?_) (.inr (.inr ⟨valid, absent, k, free⟩))
      rw [run_filesysCreate_added inv h slot alloc make, Option.some.injEq, Prod.mk.injEq] at run'
      cases run'.1
    obtain ⟨b', back, run⟩ := run_filesysCreate_refused inv h refused alloc make
    obtain ⟨-, only⟩ := refused_inv inv h back
    by_cases zero : (size : Nat) = 0
    · refine iff_of_true (fun s'' run' => ?_) (.inl zero)
      rw [run, Option.some.injEq, Prod.mk.injEq] at run'
      obtain ⟨-, rfl⟩ := run'
      rw [zero] at h
      exact ⟨refused_freeMap h back,
        inv.volume.content_eq only inv.volume.root_live (by decide), rfl, rfl⟩
    refine iff_of_false (fun all => ?_) ?_
    · exact refused_leak h (by omega) back (all _ run).freeMap
    · rintro (e | e | e)
      · exact zero e
      · exact e (space.mpr h.space)
      · exact why e

/-- In every state that calls reach: a creation that fails leaves the free map, the root
directory and the open inodes as they were exactly if it asks for no data, finds no
space, or has a name that the directory takes. -/
theorem failed_create_unchanged_iff {d : Device} {junk : Nat → BitVec 32} {s : FS}
    (h : Prog.run (filesysInit true) (boot d junk) = some ((), s)) {ops : List Call}
    {rs : List Result} {c : Client} (reached : Client.calls ⟨s, []⟩ ops = some (rs, c))
    (name : CString) (size : Size) :
    (∀ s', Prog.run (filesysCreate name (size : Nat)) c.fs = some (false, s') →
      Unchanged c.fs s') ↔ (size : Nat) = 0 ∨ ¬Space c.fs size ∨ Accepts c.fs name := by
  obtain ⟨c', obj, run, sim⟩ := calls_matched ops (formatted_sim h)
  rw [reached, Option.some.injEq, Prod.mk.injEq] at run
  obtain ⟨-, rfl⟩ := run
  exact create_unchanged_iff sim.inv name size

theorem failed_create_unchanged_iff_blank : ∃ s,
    Prog.run (filesysInit true) (boot blankDevice fun _ => 0) = some ((), s) ∧
      Client.calls ⟨s, []⟩ [] = some ([], ⟨s, []⟩) ∧
      ((∀ s', Prog.run (filesysCreate ⟨[], by decide⟩ ((0 : Size) : Nat)) s = some (false, s') →
        Unchanged s s') ↔
        ((0 : Size) : Nat) = 0 ∨ ¬Space s ((0 : Size) : Nat) ∨ Accepts s ⟨[], by decide⟩) := by
  obtain ⟨s, format⟩ := blankDevice_formats
  have reached : Client.calls ⟨s, []⟩ [] = some ([], ⟨s, []⟩) := rfl
  exact ⟨s, format, reached, failed_create_unchanged_iff format reached _ 0⟩

theorem blank_space {s : FS}
    (h : Prog.run (filesysInit true) (boot blankDevice fun _ => 0) = some ((), s)) :
    ¬NoSpace s 512 := by
  have one : bytesToSectors ((512 : Nat) : Int) = 1 := by decide
  obtain ⟨cnt, r1, r2, bits⟩ := blankDevice_bit h
  have free : ∀ x < 16, ¬(x < 2 ∨ x = r1 ∨ x = r2) → s.freeMap.bit x = false := by
    intro x lt off
    rw [Bool.eq_false_iff, Ne, bits x lt]
    exact off
  rintro (none | ⟨i, b, -, -, fill, none⟩)
  · obtain ⟨x, lt, off⟩ : ∃ x < 16, ¬(x < 2 ∨ x = r1 ∨ x = r2) := by
      by_contra all
      push Not at all
      have := all 2 (by omega)
      have := all 3 (by omega)
      have := all 4 (by omega)
      omega
    exact none x (run_one.mpr ⟨by omega, free x lt off⟩)
  · obtain ⟨x, lt, off, ne⟩ : ∃ x < 16, ¬(x < 2 ∨ x = r1 ∨ x = r2) ∧ x ≠ i := by
      by_contra all
      push Not at all
      have := all 2 (by omega)
      have := all 3 (by omega)
      have := all 4 (by omega)
      have := all 5 (by omega)
      omega
    rw [one] at none
    refine none x (run_one.mpr ⟨by rw [fill.bitCnt]; omega, ?_⟩)
    rw [filled_one fill, if_neg ne]
    exact free x lt off

/-- The empty name is refused after a sector was taken for the data: it stays marked. -/
theorem failed_create_leaks : ∃ s s',
    Prog.run (filesysInit true) (boot blankDevice fun _ => 0) = some ((), s) ∧
      Prog.run (filesysCreate ⟨[], by decide⟩ ((512 : Nat) : Int)) s = some (false, s') ∧
      s'.freeMap ≠ s.freeMap := by
  obtain ⟨s, format⟩ := blankDevice_formats
  have inv := (filesysInit_inv format).1
  obtain ⟨i, r, b, t, h, alloc, make⟩ :=
    (create_cases inv (show 512 < 2 ^ 31 by decide)).resolve_left (blank_space format)
  have refused : nameSlot s ⟨[], by decide⟩ = none := rfl
  obtain ⟨b', back, run⟩ := run_filesysCreate_refused inv h refused alloc make
  exact ⟨s, _, format, run, refused_leak h (by decide) back⟩

end Pintos.Sectors
