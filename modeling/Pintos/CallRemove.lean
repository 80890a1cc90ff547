import Pintos.CallClose

/-! Removing files. A removal takes the name away at once. The sectors go back to the
free map when no opener is left: by the removal itself if nobody has the file open,
otherwise by the last close. -/

namespace Pintos.CallRemove

open Function
open Resumption ByteStore Bitmap Disk InodeIO Inode Directory Filesys Ownership Volume Calls
open CallFiles CallOpen CallClose
open Prog (run_bind_of)

attribute [local irreducible] splice

variable {s : FS} {hs : List (Option Nat)} {f0 p0 : Nat} {name : CString} {k : Fin rootEntries}

/-- The device with slot `k` of the root directory taken out of use. -/
def unnamed (d : Device) (k : Fin rootEntries) : Device :=
  writeSlot d k { rootDir d k with inUse := false }

/-- The volume of `s` on `d`, where `name` no longer leads to the inode at `i`. -/
structure Forgot (s : FS) (name : CString) (i : Nat) (d : Device) : Prop where
  only : OnlyData s.device d (Live s) rootDirSector
  names : Distinct (rootDir d)
  named : ∀ j, Named (rootDir d) j ↔ Named (rootDir s.device) j ∧ j ≠ i
  find : ∀ other, find (rootDir d) other =
    if other.val = name.val then none else find (rootDir s.device) other
  volume : Sound d s.freeMap (Live s)

theorem unnamed_forgot (inv : Inv s hs f0 p0) (hit : (rootDir s.device k).isFor name = true) :
    Forgot s name (rootDir s.device k).inodeSector (unnamed s.device k) := by
  have used : (rootDir s.device k).inUse = true := (isFor_iff.mp hit).1
  have len : ({ rootDir s.device k with inUse := false } : DirEntry).name.length = nameMax + 1 :=
    decodeEntry_name_length _ (slice_length _ _ _)
  have sector : (rootDir s.device k).inodeSector < 2 ^ 32 := by
    have live : (rootDir s.device k).inodeSector ∈ Live s := named_live ⟨k, used, rfl⟩
    have := (inv.volume.owned.used _ live _ List.mem_cons_self).1
    have := s.device.size_lt
    omega
  have only := inv.volume.onlyData_writeSlot k len
  have dir := inv.volume.rootDir_writeSlot k len sector
  refine ⟨only, ?_, fun j => ?_, fun other => ?_, ?_⟩
  · rw [unnamed, dir]
    exact inv.names.clear rfl
  · rw [unnamed, dir]
    exact inv.names.named_clear rfl used
  · rw [unnamed, dir]
    exact inv.names.find_clear rfl hit other
  · exact inv.volume.onlyData (Device.write_size _ _ _) only (by decide)

section Run

theorem run_filesysRemove_none (inv : Inv s hs f0 p0)
    (look : Prog.run (lookup ⟨s.next, 0⟩ name) (FS.pushInode s (rootInode s.device)) =
      some (none, FS.pushInode s (rootInode s.device))) :
    Prog.run (filesysRemove name) s = some (false, FS.bump s) := by
  have removed : Prog.run (removeNamed (some ⟨s.next, 0⟩) name)
      (FS.pushInode s (rootInode s.device)) =
        some (false, FS.pushInode s (rootInode s.device)) := by
    rw [removeNamed, dirRemove, run_bind_of look]
    rfl
  rw [filesysRemove, run_bind_of inv.run_dirOpenRoot, run_bind_of removed,
    run_bind_of (run_dirClose_push inv.fresh _)]
  rfl

theorem run_filesysRemove_some (inv : Inv s hs f0 p0) {p : Nat} {a : Inode} {t u : FS}
    (look : Prog.run (lookup ⟨s.next, 0⟩ name) (FS.pushInode s (rootInode s.device)) =
      some (some (rootDir s.device k, entrySize * k), FS.pushInode s (rootInode s.device)))
    (inode : Prog.run (inodeOpen (rootDir s.device k).inodeSector)
      (FS.pushInode s (rootInode s.device)) = some (some p, t))
    (root : t.inodes s.next = some (rootInode s.device)) (device : t.device = s.device)
    (mallocs : t.mallocs = []) (here : t.inodes p = some a)
    (close : Prog.run (inodeClose (some p))
      (FS.setInode { t with device := unnamed s.device k } p (some { a with removed := true })) =
        some ((), u))
    (stays : u.inodes s.next = some (rootInode s.device)) :
    Prog.run (filesysRemove name) s = some (true, FS.dropInode u s.next) := by
  have old := inv.root_loaded
  have loaded : Loaded t s.next (rootInode s.device) (entrySize * rootEntries) :=
    ⟨root, old.length, by rw [device]; exact old.inside, mallocs⟩
  have write := run_writeSlot ⟨s.next, 0⟩ loaded rfl { rootDir s.device k with inUse := false }
    (decodeEntry_name_length _ (slice_length _ _ _)) k k.isLt
  rw [device] at write
  change _ = some ((entrySize : Int), { t with device := unnamed s.device k }) at write
  have mark : Prog.run (inodeRemove p) { t with device := unnamed s.device k } = _ :=
    run_setInode_of (s := { t with device := unnamed s.device k }) here _
  have removed : Prog.run (removeNamed (some ⟨s.next, 0⟩) name)
      (FS.pushInode s (rootInode s.device)) = some (true, u) := by
    rw [removeNamed, dirRemove, run_bind_of look, run_bind_of inode,
      run_bind_of write, if_pos rfl, run_bind_of mark, run_bind_of close]
    rfl
  rw [filesysRemove, run_bind_of inv.run_dirOpenRoot, run_bind_of removed,
    run_bind_of (run_dirClose_root stays)]
  rfl

end Run
variable {d : Device} {b : Bits}

section Shared

variable {p : Nat} {a : Inode}

/-- The state after the removal of a file that is open through inode `p`. -/
def hideInode (s : FS) (p : Nat) (a : Inode) (d : Device) : FS :=
  FS.bump (FS.setInode { s with device := d } p (some { a with removed := true }))

theorem run_filesysRemove_shared (inv : Inv s hs f0 p0) (user : p ≠ p0) (ha : s.inodes p = some a)
    (sector : a.sector = (rootDir s.device k).inodeSector)
    (look : Prog.run (lookup ⟨s.next, 0⟩ name) (FS.pushInode s (rootInode s.device)) =
      some (some (rootDir s.device k, entrySize * k), FS.pushInode s (rootInode s.device))) :
    Prog.run (filesysRemove name) s = some (true, hideInode s p a (unnamed s.device k)) := by
  have ne : s.next ≠ p := by
    have := inv.table.lt ha
    omega
  have more : a.openCnt + 1 - 1 ≠ 0 := by
    obtain ⟨cnt, -, pos⟩ := inv.table.counted p a user ha
    omega
  have inode := run_inodeOpen_shared inv ha sector
  have here : (FS.setInode { FS.setInode (FS.pushInode s (rootInode s.device)) p
      (some { a with openCnt := a.openCnt + 1 }) with device := unnamed s.device k } p
      (some { a with openCnt := a.openCnt + 1, removed := true })).inodes p =
        some { a with openCnt := a.openCnt + 1, removed := true } := by
    simp only [FS.setInode, update_self]
  have close := run_inodeClose_keep here more
  rw [run_filesysRemove_some (a := { a with openCnt := a.openCnt + 1 }) inv look inode ?_ rfl
    inv.mallocs ?_ close ?_]
  · have push := drop_set_push (s := { s with device := unnamed s.device k }) inv.fresh
      (Ne.symm ne) (rootInode s.device) (some { a with removed := true })
    rw [hideInode, ← push]
    simp only [FS.setInode, FS.pushInode, update_idem, Int.add_sub_cancel]
  · simp [FS.setInode, FS.pushInode, ne]
  · simp [FS.setInode]
  · simp [FS.setInode, FS.pushInode, ne]

theorem hide_inodes {q : Nat} {x : Inode} (hx : (hideInode s p a d).inodes q = some x) :
    (q = p ∧ x = { a with removed := true }) ∨ (q ≠ p ∧ s.inodes q = some x) :=
  setInode_inodes hx

theorem hide_live (ha : s.inodes p = some a) (h : Forgot s name a.sector d) :
    Live (hideInode s p a d) = Live s := by
  have old : ∀ q x, (hideInode s p a d).inodes q = some x → x.sector ∈ Live s := by
    intro q x hx
    rcases hide_inodes hx with ⟨-, rfl⟩ | ⟨-, hx⟩
    · exact show a.sector ∈ Live s from open_live ha
    · exact open_live hx
  have here : a.sector ∈ Live (hideInode s p a d) :=
    open_live (s := hideInode s p a d) (p := p) (a := { a with removed := true })
      (by simp [hideInode, FS.bump, FS.setInode])
  ext i
  constructor
  · intro hi
    rcases mem_live.mp hi with e | e | e | ⟨q, x, hx, e⟩
    · exact .inl e
    · exact .inr (.inl e)
    · exact named_live ((h.named i).mp e).1
    · exact e ▸ old q x hx
  intro hi
  by_cases same : i = a.sector
  · exact same ▸ here
  rcases mem_live.mp hi with e | e | e | ⟨q, x, hx, e⟩
  · exact .inl e
  · exact .inr (.inl e)
  · exact named_live (s := hideInode s p a d) ((h.named i).mpr ⟨e, same⟩)
  have other : q ≠ p := by
    rintro rfl
    rw [ha, Option.some.injEq] at hx
    exact same (by rw [← e, hx])
  exact e ▸ open_live (s := hideInode s p a d) (p := q) (a := x)
    (by simpa [hideInode, FS.bump, FS.setInode, other] using hx)

theorem hide_inv (inv : Inv s hs f0 p0) (user : p ≠ p0) (ha : s.inodes p = some a)
    (h : Forgot s name a.sector d) : Inv (hideInode s p a d) hs f0 p0 := by
  have opens : Opens { s with device := d } := { inv.table with }
  have opens' := (opens.set ha
    (show ({ a with removed := true } : Inode).sector = a.sector from rfl)).bump
  have table : Table (hideInode s p a d) hs f0 p0 := by
    refine ⟨opens', fun q x ne hx => ?_, fun f mem => ?_, inv.table.distinct⟩
    · rcases hide_inodes hx with ⟨rfl, rfl⟩ | ⟨-, hx⟩
      · exact inv.table.counted q a user ha
      · exact inv.table.counted q x ne hx
    obtain ⟨ne, file, hf, writable, pos, other, some⟩ := inv.table.handle f mem
    refine ⟨ne, file, hf, writable, pos, other, ?_⟩
    by_cases here : file.inode = p
    · simp [hideInode, FS.bump, FS.setInode, here]
    · simp only [hideInode, FS.bump, FS.setInode, update_of_ne here]
      exact some
  refine Inv.update inv rfl rfl rfl ?_ (h.only.diskInode inv.volume.map_live) table
    (fun q x ne hx => ?_) h.names (fun i hi => inv.files i ((h.named i).mp hi).1) ?_
  · simp [hideInode, FS.bump, FS.setInode, Ne.symm user]
  · change _ ∧ x.data = diskInode d x.sector ∧ (_ ↔ ¬Named (rootDir d) x.sector)
    rw [h.named]
    rcases hide_inodes hx with ⟨rfl, rfl⟩ | ⟨other, hx⟩
    · refine ⟨inv.root_closed q a ha, ?_, by simp⟩
      exact (inv.cached q a ha).trans (h.only.diskInode (open_live ha)).symm
    · have apart : x.sector ≠ a.sector := fun e => other (inv.table.sector_inj q p x a hx ha e)
      rw [h.only.diskInode (open_live hx), inv.removed q x ne hx]
      exact ⟨inv.root_closed q x hx, inv.cached q x hx, by simp [apart]⟩
  · rw [hide_live ha h]
    exact h.volume

theorem hide_view (ha : s.inodes p = some a) (g : Nat) : view (hideInode s p a d) g = view s g := by
  have files : (hideInode s p a d).files g = s.files g := rfl
  simp only [view, files]
  cases s.files g with
  | none => rfl
  | some file =>
    by_cases here : file.inode = p
    · simp [hideInode, FS.bump, FS.setInode, here, ha]
    · simp [hideInode, FS.bump, FS.setInode, here]

end Shared

section Last

variable {i : Nat}

/-- The state after the removal of a file that nobody has open. -/
def releaseInode (s : FS) (d : Device) (b : Bits) : FS :=
  FS.storeMap { s with device := d, next := s.next + 2 } (diskInode s.device freeMapSector).start b

section

variable (inv : Inv s hs f0 p0)
include inv

theorem run_filesysRemove_last (hit : (rootDir s.device k).isFor name = true)
    (closed : ∀ p a, s.inodes p = some a → a.sector ≠ (rootDir s.device k).inodeSector)
    (look : Prog.run (lookup ⟨s.next, 0⟩ name) (FS.pushInode s (rootInode s.device)) =
      some (some (rootDir s.device k, entrySize * k), FS.pushInode s (rootInode s.device))) :
    ∃ b, Released s.freeMap b (newInode s.device (rootDir s.device k).inodeSector) ∧
      Prog.run (filesysRemove name) s =
        some (true, releaseInode s (unnamed s.device k) b) := by
  have forgot := unnamed_forgot inv hit
  have named : Named (rootDir s.device) (rootDir s.device k).inodeSector :=
    ⟨k, (isFor_iff.mp hit).1, rfl⟩
  have live := named_live named
  have inode := run_inodeOpen_fresh inv live (inv.files _ named).2 closed
  have fresh := inv.fresh
  have fresh1 := (inv.table.fresh (s.next + 1) (by omega)).1
  set ino := newInode s.device (rootDir s.device k).inodeSector with ino_def
  have map : MapFile { FS.pushInode (FS.pushInode s (rootInode s.device)) ino with
      device := unnamed s.device k } f0 p0 (diskInode s.device freeMapSector).start := by
    exact { MapFile.push (MapFile.push inv.mapFile_spec fresh (rootInode s.device))
      (by simp [FS.pushInode, fresh1]) ino with }
  have user : s.next + 1 ≠ p0 := by
    have := inv.table.lt inv.mapOpen
    omega
  have map2 := MapFile.set map user (some { ino with removed := true })
  have sectors := Sound.releasable forgot.volume
    (show ({ ino with removed := true } : Inode).sector ∈ Live s from live)
    (forgot.only.diskInode live).symm
  have here : (FS.setInode { FS.pushInode (FS.pushInode s (rootInode s.device)) ino with
      device := unnamed s.device k } (s.next + 1) (some { ino with removed := true })).inodes
        (s.next + 1) = some { ino with removed := true } := by
    simp only [FS.setInode, update_self]
  obtain ⟨b, released, close⟩ := run_inodeClose_release map2 here user (by rfl) rfl sectors
  refine ⟨b, ⟨released.bitCnt, released.bit⟩, ?_⟩
  rw [run_filesysRemove_some (a := ino) inv look inode ?_ rfl inv.mallocs ?_ close ?_]
  · have inodes : update (update (update (update s.inodes
        s.next (some (rootInode s.device))) (s.next + 1) (some ino)) (s.next + 1) none) s.next none =
          s.inodes := by
      rw [update_idem, update_comm (by omega), update_idem, ← fresh,
        update_eq_self, fresh, ← fresh1, update_eq_self]
    have list : (((s.next + 1) :: s.next :: s.openInodes).erase (s.next + 1)).erase s.next =
        s.openInodes := by
      rw [List.erase_cons_head, List.erase_cons_head]
    simp only [releaseInode, FS.dropInode, FS.storeMap, FS.setInode, FS.pushInode,
      update_idem] at inodes ⊢
    rw [inodes, list]
  · simp [FS.pushInode]
  · simp [FS.pushInode]
  · simp [FS.dropInode, FS.storeMap, FS.setInode, FS.pushInode]

section

variable (h : Forgot s name i d) (cnt : b.bitCnt = s.freeMap.bitCnt)
include h cnt

theorem release_only : OnlyData d (releaseInode s d b).device (Live s) freeMapSector := by
  have only := h.volume.onlyData_storeMap cnt
  rwa [h.only.diskInode inv.volume.map_live] at only

theorem release_dir : rootDir (releaseInode s d b).device = rootDir d :=
  h.volume.rootDir_eq (release_only inv h cnt) (by decide)

theorem release_live (system : i ≠ freeMapSector ∧ i ≠ rootDirSector)
    (closed : ∀ p a, s.inodes p = some a → a.sector ≠ i) (j : Nat) :
    j ∈ Live (releaseInode s d b) ↔ j ∈ Live s ∧ j ≠ i := by
  rw [mem_live, release_dir inv h cnt, h.named, mem_live]
  constructor
  · rintro (rfl | rfl | ⟨e, ne⟩ | ⟨p, a, ha, rfl⟩)
    · exact ⟨.inl rfl, Ne.symm system.1⟩
    · exact ⟨.inr (.inl rfl), Ne.symm system.2⟩
    · exact ⟨.inr (.inr (.inl e)), ne⟩
    · exact ⟨.inr (.inr (.inr ⟨p, a, ha, rfl⟩)), closed p a ha⟩
  · rintro ⟨e | e | e | e, ne⟩
    · exact .inl e
    · exact .inr (.inl e)
    · exact .inr (.inr (.inl ⟨e, ne⟩))
    · exact .inr (.inr (.inr e))

end

theorem release_inv (h : Forgot s name i d) (named : Named (rootDir s.device) i)
    (closed : ∀ p a, s.inodes p = some a → a.sector ≠ i)
    (released : Released s.freeMap b (newInode s.device i)) :
    Inv (releaseInode s d b) hs f0 p0 := by
  have live := named_live named
  have system := inv.files i named
  have only := release_only inv h released.bitCnt
  have dir := release_dir inv h released.bitCnt
  have bits : ∀ x, b.bit x = true ↔ s.freeMap.bit x = true ∧ x ∉ extent d i := by
    intro x
    rw [released.bit, extent, h.only.diskInode live]
    rfl
  have volume := h.volume.release live system released.bitCnt bits
    (release_live inv h released.bitCnt system closed)
  rw [h.only.diskInode inv.volume.map_live] at volume
  have names : Distinct (rootDir (releaseInode s d b).device) := dir ▸ h.names
  have named' : ∀ j, Named (rootDir (releaseInode s d b).device) j ↔
      Named (rootDir s.device) j ∧ j ≠ i := dir ▸ h.named
  exact inv.withVolume (Nat.le_add_right _ 2)
    (fun p a ha => (only.diskInode (open_live ha)).trans (h.only.diskInode (open_live ha)))
    (fun p a _ ha => (named' a.sector).trans (and_iff_left (closed p a ha))) names
    (fun j hj => inv.files j ((named' j).mp hj).1) volume fun j => Iff.rfl

end

end Last

structure Removed (s s' : FS) (hs : List (Option Nat)) (name : CString) : Prop where
  find : ∀ other, find (rootDir s'.device) other =
    if other.val = name.val then none else find (rootDir s.device) other
  live : ∀ j ∈ Live s', j ∈ Live s
  content : ∀ j ∈ Live s', j ≠ freeMapSector → j ≠ rootDirSector →
    content s'.device j = content s.device j
  view : ∀ g, some g ∈ hs → view s' g = view s g

theorem remove_spec (inv : Inv s hs f0 p0) (name : CString) :
    (find (rootDir s.device) name = none ∧
      Prog.run (filesysRemove name) s = some (false, FS.bump s)) ∨
    (find (rootDir s.device) name ≠ none ∧ ∃ s',
      Prog.run (filesysRemove name) s = some (true, s') ∧ Inv s' hs f0 p0 ∧
        Removed s s' hs name) := by
  rcases run_lookup_root inv name with ⟨absent, look⟩ | ⟨k, hit, look⟩
  · exact .inl ⟨absent, run_filesysRemove_none inv look⟩
  have found := inv.names.find_eq_some.mpr ⟨k, hit, rfl⟩
  have named := inv.names.named_of_find found
  have forgot := unnamed_forgot inv hit
  refine .inr ⟨by simp [found], ?_⟩
  rcases open_cases s (rootDir s.device k).inodeSector with ⟨p, a, ha, sector⟩ | closed
  · have user : p ≠ p0 := by
      rintro rfl
      rw [inv.mapOpen, Option.some.injEq] at ha
      exact (inv.files _ named).1 (by rw [← sector, ← ha])
    have run := run_filesysRemove_shared inv user ha sector look
    rw [← sector] at forgot
    refine ⟨_, run, hide_inv inv user ha forgot, forgot.find, fun j hj => ?_, fun j hj _ root => ?_,
      fun g _ => hide_view ha g⟩
    · rwa [hide_live ha forgot] at hj
    · rw [hide_live ha forgot] at hj
      exact inv.volume.content_eq forgot.only hj root
  · obtain ⟨b, released, run⟩ := run_filesysRemove_last inv hit closed look
    have mem := release_live inv forgot released.bitCnt (inv.files _ named) closed
    refine ⟨_, run, release_inv inv forgot named closed released, fun other => ?_,
      fun j hj => ((mem j).mp hj).1, fun j hj map root => ?_, fun g _ => rfl⟩
    · rw [release_dir inv forgot released.bitCnt]
      exact forgot.find other
    · have old := ((mem j).mp hj).1
      exact (forgot.volume.content_eq (release_only inv forgot released.bitCnt) old map).trans
        (inv.volume.content_eq forgot.only old root)

theorem remove_frees {s' : FS} {ok : Bool} (inv : Inv s hs f0 p0)
    (run : Prog.run (filesysRemove name) s = some (ok, s')) : Frees s s' := by
  rcases run_lookup_root inv name with ⟨absent, look⟩ | ⟨k, hit, look⟩
  · rw [run_filesysRemove_none inv look] at run
    cases run
    exact .of_live fun _ => id
  have named := inv.names.named_of_find (inv.names.find_eq_some.mpr ⟨k, hit, rfl⟩)
  have forgot := unnamed_forgot inv hit
  rcases open_cases s (rootDir s.device k).inodeSector with ⟨p, a, ha, sector⟩ | closed
  · have user : p ≠ p0 := by
      rintro rfl
      rw [inv.mapOpen, Option.some.injEq] at ha
      exact (inv.files _ named).1 (by rw [← sector, ← ha])
    rw [run_filesysRemove_shared inv user ha sector look] at run
    cases run
    rw [← sector] at forgot
    exact .of_live fun j live => (hide_live ha forgot).symm ▸ live
  · obtain ⟨b, released, ran⟩ := run_filesysRemove_last inv hit closed look
    rw [ran] at run
    cases run
    intro i live gone x mem
    have left := release_live inv forgot released.bitCnt (inv.files _ named) closed i
    have same : i = (rootDir s.device k).inodeSector := by
      by_contra ne
      exact gone (left.mpr ⟨live, ne⟩)
    subst same
    exact Bool.eq_false_iff.mpr fun marked => ((released.bit x).mp marked).2 mem

end Pintos.CallRemove
