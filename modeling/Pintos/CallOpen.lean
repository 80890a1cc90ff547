import Pintos.CallFiles

/-! Opening files. The first open of a file brings its inode into memory and later
ones share it. -/

namespace Pintos.CallOpen

open Function
open Resumption ByteStore Bitmap Disk InodeIO Inode Directory Filesys Ownership Volume Calls
open CallCreate (mapStart filled_one mapFile_pushed)
open CallFiles
open Option (some.injEq)
open Prog (run_bind_of)

attribute [local irreducible] splice

variable {s s' : FS} {hs : List (Option Nat)} {f0 p0 : Nat}

theorem run_lookup_root (inv : Inv s hs f0 p0) (name : CString) :
    (find (rootDir s.device) name = none ∧
      Prog.run (lookup ⟨s.next, 0⟩ name) (FS.pushInode s (rootInode s.device)) =
        some (none, FS.pushInode s (rootInode s.device))) ∨
    ∃ k : Fin rootEntries, (rootDir s.device k).isFor name = true ∧
      Prog.run (lookup ⟨s.next, 0⟩ name) (FS.pushInode s (rootInode s.device)) =
        some (some (rootDir s.device k, entrySize * k), FS.pushInode s (rootInode s.device)) := by
  have run := run_lookup ⟨s.next, 0⟩ inv.root_loaded (by decide) name
  have search := CallCreate.slotOf_isSome_iff s name
  change _ = some (Option.map _ (slotOf s.device.data (diskInode s.device rootDirSector).start
    rootEntries name), _) at run
  cases slot : slotOf s.device.data (diskInode s.device rootDirSector).start rootEntries name with
  | none =>
    rw [slot] at run search
    refine .inl ⟨?_, run⟩
    by_contra some
    cases search.mpr some
  | some k =>
    rw [slot] at run
    have lt : k < rootEntries := List.mem_range.mp (List.mem_of_find?_eq_some slot)
    exact .inr ⟨⟨k, lt⟩, (List.find?_some slot :), run⟩

variable {q p i : Nat}

theorem run_dirClose_root {d : Device} (h : s.inodes q = some (rootInode d)) :
    Prog.run (dirClose (some ⟨q, 0⟩)) s = some ((), FS.dropInode s q) := by
  rw [dirClose, run_inodeClose_drop h (by rfl) rfl]

theorem run_fileOpen (mallocs : s.mallocs = []) (p : Nat) :
    Prog.run (fileOpen (some p)) s = some (some s.next, FS.addFile s p) := by
  rw [fileOpen, run_bind_of (run_malloc mallocs)]
  rfl

theorem drop_set_push (fresh : s.inodes s.next = none) (ne : p ≠ s.next) (ino : Inode)
    (a : Option Inode) :
    FS.dropInode (FS.setInode (FS.pushInode s ino) p a) s.next = FS.bump (FS.setInode s p a) := by
  have inodes : update (update (update s.inodes s.next (some ino)) p a)
      s.next none = update s.inodes p a := by
    rw [update_comm ne, update_idem, ← fresh, update_eq_self]
  simp [FS.dropInode, FS.setInode, FS.pushInode, FS.bump, inodes]

theorem drop_push_push (fresh : s.inodes s.next = none) (root ino : Inode) :
    FS.dropInode (FS.pushInode (FS.pushInode s root) ino) s.next =
      FS.pushInode (FS.bump s) ino := by
  have inodes : update (update (update s.inodes s.next (some root))
      (s.next + 1) (some ino)) s.next none = update s.inodes (s.next + 1) (some ino) := by
    rw [update_comm (by omega), update_idem, ← fresh, update_eq_self]
  simp [FS.dropInode, FS.pushInode, FS.bump, inodes]

theorem pushed_opens (inv : Inv s hs f0 p0) : Opens (FS.pushInode s (rootInode s.device)) :=
  inv.table.toOpens.push inv.root_closed

theorem pushed_inodes (ne : p ≠ s.next) (ino : Inode) :
    (FS.pushInode s ino).inodes p = s.inodes p := by
  simp [FS.pushInode, ne]

theorem run_inodeOpen_shared (inv : Inv s hs f0 p0) {a : Inode} (ha : s.inodes p = some a)
    (sector : a.sector = i) :
    Prog.run (inodeOpen i) (FS.pushInode s (rootInode s.device)) =
      some (some p, FS.setInode (FS.pushInode s (rootInode s.device)) p
        (some { a with openCnt := a.openCnt + 1 })) := by
  subst sector
  have lt := inv.table.lt ha
  have here : (FS.pushInode s (rootInode s.device)).inodes p = some a := by
    rw [pushed_inodes (by omega), ha]
  exact run_inodeOpen_open ((pushed_opens inv).search here) here

/-- The inode of a file that nobody has open yet. -/
def newInode (d : Device) (i : Nat) : Inode := ⟨i, 1, false, 0, diskInode d i⟩

theorem run_inodeOpen_fresh (inv : Inv s hs f0 p0) (live : i ∈ Live s) (ne : i ≠ rootDirSector)
    (closed : ∀ p a, s.inodes p = some a → a.sector ≠ i) :
    Prog.run (inodeOpen i) (FS.pushInode s (rootInode s.device)) =
      some (some (s.next + 1),
        FS.pushInode (FS.pushInode s (rootInode s.device)) (newInode s.device i)) := by
  have room := (inv.volume.owned.used i live i List.mem_cons_self).1
  refine run_inodeOpen_new inv.mallocs room ((pushed_opens inv).absent fun p a ha => ?_)
  by_cases here : p = s.next
  · subst here
    simp only [FS.pushInode, update_self, some.injEq] at ha
    exact ha ▸ Ne.symm ne
  · rw [pushed_inodes here] at ha
    exact closed p a ha

theorem open_cases (s : FS) (i : Nat) :
    (∃ p a, s.inodes p = some a ∧ a.sector = i) ∨ ∀ p a, s.inodes p = some a → a.sector ≠ i := by
  by_cases h : ∃ p a, s.inodes p = some a ∧ a.sector = i
  · exact .inl h
  · exact .inr fun p a ha e => h ⟨p, a, ha, e⟩

section Open

theorem run_filesysOpen_some (inv : Inv s hs f0 p0) {name : CString} {e : DirEntry} {ofs : Nat}
    {t : FS}
    (look : Prog.run (lookup ⟨s.next, 0⟩ name) (FS.pushInode s (rootInode s.device)) =
      some (some (e, ofs), FS.pushInode s (rootInode s.device)))
    (inode : Prog.run (inodeOpen e.inodeSector) (FS.pushInode s (rootInode s.device)) =
      some (some p, t))
    (root : t.inodes s.next = some (rootInode s.device)) (mallocs : t.mallocs = []) :
    Prog.run (filesysOpen name) s =
      some (some t.next, FS.addFile (FS.dropInode t s.next) p) := by
  have opened : Prog.run (openNamed (some ⟨s.next, 0⟩) name)
      (FS.pushInode s (rootInode s.device)) = some (some p, t) := by
    rw [openNamed, dirLookup, run_bind_of look]
    exact inode
  rw [filesysOpen, run_bind_of inv.run_dirOpenRoot, run_bind_of opened,
    run_bind_of (run_dirClose_root root), run_fileOpen (by exact mallocs)]
  rfl

theorem refs_addFile (old : ∀ f, some f ∈ hs → f ≠ s.next) (q : Nat) :
    refs (FS.addFile s p) (hs ++ [some s.next]) q = refs s hs q + if q = p then 1 else 0 := by
  have same : refs (FS.addFile s p) hs q = refs s hs q := by
    refine refs_congr q fun f mem => ?_
    simp [FS.addFile, old f mem]
  have new : refers (FS.addFile s p) q (some s.next) = decide (p = q) := by
    simp [refers, FS.addFile]
  simp only [refs] at same ⊢
  rw [List.countP_append, same, List.countP_singleton, new]
  by_cases here : q = p
  · simp [here]
  · simp [here, Ne.symm here]

theorem Table.addFile (opens : Opens s) (user : p ≠ p0) (here : (s.inodes p).isSome = true)
    (map : (s.files f0).isSome = true)
    (counted : ∀ q a, q ≠ p0 → s.inodes q = some a → a.openCnt =
      (refs s hs q + if q = p then 1 else 0 : Nat) ∧ a.denyWriteCnt = 0 ∧ 0 < refs s hs q + if q =
      p then 1 else 0)
    (handle : ∀ f, some f ∈ hs → f ≠ f0 ∧ ∃ file, s.files f = some file ∧ file.denyWrite = false ∧
      0 ≤ file.pos ∧ file.inode ≠ p0 ∧ (s.inodes file.inode).isSome = true)
    (distinct : OnceEach hs) : Table (FS.addFile s p) (hs ++ [some s.next]) f0 p0 := by
  have old : ∀ f, some f ∈ hs → f ≠ s.next := by
    intro f mem
    obtain ⟨-, file, hf, -⟩ := handle f mem
    exact Nat.ne_of_lt (opens.file_lt hf)
  have system : s.next ≠ f0 := by
    obtain ⟨file, hf⟩ := Option.isSome_iff_exists.mp map
    exact Ne.symm (Nat.ne_of_lt (opens.file_lt hf))
  refine ⟨opens.addFile p, fun q a ne ha => ?_, fun f mem => ?_, fun k k' f hk hk' => ?_⟩
  · rw [refs_addFile old]
    exact counted q a ne ha
  · rcases List.mem_append.mp mem with mem | mem
    · simpa [FS.addFile, old f mem] using handle f mem
    · obtain rfl : f = s.next := by simpa using mem
      exact ⟨system, ⟨p, 0, false⟩, by simp [FS.addFile], rfl, by simp, user, here⟩
  have place : ∀ k, (hs ++ [some s.next])[k]? = some (some f) →
      hs[k]? = some (some f) ∨ (k = hs.length ∧ f = s.next) := by
    intro k hk
    rw [List.getElem?_append] at hk
    split_ifs at hk with lt
    · exact .inl hk
    have last : k - hs.length = 0 := by
      by_contra more
      rw [List.getElem?_eq_none (by simp; omega)] at hk
      cases hk
    rw [last] at hk
    exact .inr ⟨by omega, by simpa using hk.symm⟩
  have fresh : ∀ k, hs[k]? = some (some s.next) → False := fun k hk =>
    old s.next (List.mem_of_getElem? hk) rfl
  rcases place k hk with h | ⟨h, rfl⟩ <;> rcases place k' hk' with h' | ⟨h', e⟩
  · exact distinct k k' f h h'
  · exact (fresh k (e ▸ h)).elim
  · exact (fresh k' h').elim
  · rw [h, h']

theorem live_eq (device : s'.device = s.device)
    (sub : ∀ p a, s'.inodes p = some a → a.sector ∈ Live s)
    (sup : ∀ p a, s.inodes p = some a → a.sector ∈ Live s') : Live s' = Live s := by
  ext i
  constructor
  · intro h
    rcases mem_live.mp h with h | h | h | ⟨p, a, ha, rfl⟩
    · exact .inl h
    · exact .inr (.inl h)
    · exact named_live (device ▸ h)
    · exact sub p a ha
  intro h
  rcases mem_live.mp h with h | h | h | ⟨p, a, ha, rfl⟩
  · exact .inl h
  · exact .inr (.inl h)
  · exact named_live (device ▸ h)
  · exact sup p a ha

section Shared

variable {p : Nat} {a : Inode}

/-- The state with the inode shared by one more file. -/
def shareInode (s : FS) (p : Nat) (a : Inode) : FS :=
  FS.addFile (FS.bump (FS.setInode s p (some { a with openCnt := a.openCnt + 1 }))) p

theorem setInode_inodes {x y : Inode} (hx : (FS.setInode s p (some y)).inodes q = some x) :
    (q = p ∧ x = y) ∨ (q ≠ p ∧ s.inodes q = some x) := by
  by_cases here : q = p
  · subst here
    simp only [FS.setInode, update_self, some.injEq] at hx
    exact .inl ⟨rfl, hx.symm⟩
  · simp only [FS.setInode, update_of_ne here] at hx
    exact .inr ⟨here, hx⟩

theorem share_live (ha : s.inodes p = some a) : Live (shareInode s p a) = Live s := by
  refine live_eq rfl (fun q x hx => ?_) fun q x hx => ?_
  · rcases setInode_inodes hx with ⟨-, rfl⟩ | ⟨-, hx⟩
    · exact show a.sector ∈ Live s from open_live ha
    · exact open_live hx
  by_cases here : q = p
  · subst here
    rw [ha, some.injEq] at hx
    subst hx
    exact open_live (s := shareInode s q a) (p := q) (a := { a with openCnt := a.openCnt + 1 })
      (by simp [shareInode, FS.addFile, FS.bump, FS.setInode])
  · exact open_live (s := shareInode s p a) (p := q) (a := x)
      (by simpa [shareInode, FS.addFile, FS.bump, FS.setInode, here] using hx)

theorem share_inv (inv : Inv s hs f0 p0) (user : p ≠ p0) (ha : s.inodes p = some a) :
    Inv (shareInode s p a) (hs ++ [some (s.next + 1)]) f0 p0 := by
  have opens := (inv.table.toOpens.set ha
    (show ({ a with openCnt := a.openCnt + 1 } : Inode).sector = a.sector from rfl)).bump
  have mapFile : s.next + 1 ≠ f0 := by
    have := inv.table.file_lt inv.mapHandle
    omega
  refine Inv.update inv rfl rfl ?_ ?_ rfl ?_ (fun q x ne hx => ?_) inv.names inv.files ?_
  · simp [shareInode, FS.addFile, FS.bump, FS.setInode, Ne.symm mapFile]
  · simp [shareInode, FS.addFile, FS.bump, FS.setInode, Ne.symm user]
  · refine Table.addFile opens user (by simp [FS.bump, FS.setInode]) ?_ (fun q x ne hx => ?_)
      (fun f mem => ?_) inv.table.distinct
    · simp [FS.bump, FS.setInode, inv.mapHandle]
    · obtain ⟨cnt, deny, pos⟩ := inv.table.counted p a user ha
      change _ = ((refs s hs q + _ : Nat) : Int) ∧ _ ∧ 0 < refs s hs q + _
      rcases setInode_inodes hx with ⟨rfl, rfl⟩ | ⟨other, hx⟩
      · rw [if_pos rfl]
        exact ⟨by simp [cnt], deny, by omega⟩
      · rw [if_neg other]
        exact inv.table.counted q x ne hx
    · obtain ⟨map, file, hf, writable, pos, ne, some⟩ := inv.table.handle f mem
      refine ⟨map, file, hf, writable, pos, ne, ?_⟩
      by_cases here : file.inode = p
      · simp [FS.bump, FS.setInode, here]
      · simpa [FS.bump, FS.setInode, here] using some
  · rcases setInode_inodes hx with ⟨rfl, rfl⟩ | ⟨other, hx⟩
    · exact ⟨inv.root_closed q a ha, inv.cached q a ha, inv.removed q a ne ha⟩
    · exact ⟨inv.root_closed q x hx, inv.cached q x hx, inv.removed q x ne hx⟩
  · rw [share_live ha]
    exact inv.volume

theorem share_view (inv : Inv s hs f0 p0) (ha : s.inodes p = some a) {f : Nat}
    (mem : some f ∈ hs) : view (shareInode s p a) f = view s f := by
  obtain ⟨file, x, h⟩ := Inv.opened inv mem
  have old : f ≠ s.next + 1 := by
    have := inv.table.file_lt h.entry
    omega
  rw [h.view, view]
  simp only [shareInode, FS.addFile, FS.bump, FS.setInode, update_of_ne old, h.entry]
  by_cases here : file.inode = p
  · have same := h.inode
    rw [here, ha, some.injEq] at same
    simp [here, same]
  · simp [here, h.inode]

end Shared

section Fresh

variable {i : Nat}

/-- The state with a new inode for the file at sector `i`, open once. -/
def loadInode (s : FS) (i : Nat) : FS :=
  FS.addFile (FS.pushInode (FS.bump s) (newInode s.device i)) (s.next + 1)

theorem load_inodes {x : Inode} (hx : (loadInode s i).inodes q = some x) :
    (q = s.next + 1 ∧ x = newInode s.device i) ∨ (q ≠ s.next + 1 ∧ s.inodes q = some x) := by
  by_cases here : q = s.next + 1
  · subst here
    simp only [loadInode, FS.addFile, FS.pushInode, FS.bump, update_self, some.injEq] at hx
    exact .inl ⟨rfl, hx.symm⟩
  · simp only [loadInode, FS.addFile, FS.pushInode, FS.bump, update_of_ne here] at hx
    exact .inr ⟨here, hx⟩

theorem refs_of_closed (inv : Inv s hs f0 p0) (none : s.inodes p = none) : refs s hs p = 0 := by
  rw [refs, List.countP_eq_zero]
  intro h mem
  cases h with
  | none => simp [refers]
  | some f =>
    obtain ⟨file, x, h⟩ := Inv.opened inv mem
    have ne : file.inode ≠ p := by
      rintro rfl
      rw [h.inode] at none
      cases none
    simp [refers, h.entry, ne]

theorem load_live (opens : Opens s) (named : Named (rootDir s.device) i) :
    Live (loadInode s i) = Live s := by
  refine live_eq rfl (fun q x hx => ?_) fun q x hx => ?_
  · rcases load_inodes hx with ⟨-, rfl⟩ | ⟨-, hx⟩
    · exact named_live named
    · exact open_live hx
  · have lt := opens.lt hx
    exact open_live (s := loadInode s i) (p := q) (a := x)
      (by simpa [loadInode, FS.addFile, FS.pushInode, FS.bump, show q ≠ s.next + 1 by omega]
        using hx)

theorem load_inv (inv : Inv s hs f0 p0) (named : Named (rootDir s.device) i)
    (closed : ∀ p a, s.inodes p = some a → a.sector ≠ i) :
    Inv (loadInode s i) (hs ++ [some (s.next + 2)]) f0 p0 := by
  have opens : Opens (FS.pushInode (FS.bump s) (newInode s.device i)) :=
    inv.table.toOpens.bump.push closed
  have fresh := inv.table.fresh (s.next + 1) (Nat.le_succ _)
  have mapLt := inv.table.lt inv.mapOpen
  have fileLt := inv.table.file_lt inv.mapHandle
  refine Inv.update inv rfl rfl ?_ ?_ rfl ?_ (fun q x ne hx => ?_) inv.names inv.files ?_
  · simp [loadInode, FS.addFile, FS.pushInode, FS.bump, show f0 ≠ s.next + 2 by omega]
  · simp [loadInode, FS.addFile, FS.pushInode, FS.bump, show p0 ≠ s.next + 1 by omega]
  · refine Table.addFile opens (show s.next + 1 ≠ p0 by omega) (by simp [FS.pushInode, FS.bump]) ?_
      (fun q x ne hx => ?_) (fun f mem => ?_) inv.table.distinct
    · simp [FS.pushInode, FS.bump, inv.mapHandle]
    · change _ = ((refs s hs q + _ : Nat) : Int) ∧ _ ∧ 0 < refs s hs q + _
      rcases load_inodes hx with ⟨rfl, rfl⟩ | ⟨other, hx⟩
      · rw [if_pos rfl, refs_of_closed inv fresh.1]
        exact ⟨rfl, rfl, by omega⟩
      · rw [if_neg other]
        exact inv.table.counted q x ne hx
    · obtain ⟨map, file, hf, writable, pos, ne, some⟩ := inv.table.handle f mem
      refine ⟨map, file, hf, writable, pos, ne, ?_⟩
      have other : file.inode ≠ s.next + 1 := by
        intro e
        rw [e, fresh.1] at some
        cases some
      simpa [FS.pushInode, FS.bump, other] using some
  · rcases load_inodes hx with ⟨rfl, rfl⟩ | ⟨other, hx⟩
    · exact ⟨(inv.files i named).2, rfl, by simp [newInode]; exact named⟩
    · exact ⟨inv.root_closed q x hx, inv.cached q x hx, inv.removed q x ne hx⟩
  · rw [load_live inv.table.toOpens named]
    exact inv.volume

theorem load_view (inv : Inv s hs f0 p0) {f : Nat} (mem : some f ∈ hs) :
    view (loadInode s i) f = view s f := by
  obtain ⟨file, x, h⟩ := Inv.opened inv mem
  have fileLt := inv.table.file_lt h.entry
  have lt := inv.table.lt h.inode
  rw [h.view, view]
  simp [loadInode, FS.addFile, FS.pushInode, FS.bump, show f ≠ s.next + 2 by omega, h.entry,
    show file.inode ≠ s.next + 1 by omega, h.inode]

end Fresh

theorem open_spec (inv : Inv s hs f0 p0) (name : CString) :
    (find (rootDir s.device) name = none ∧ Prog.run (filesysOpen name) s = some (none, FS.bump s)) ∨
    ∃ i f s', find (rootDir s.device) name = some i ∧
    Prog.run (filesysOpen name) s = some (some f, s') ∧ Inv s' (hs ++ [some f]) f0 p0 ∧
    s'.device = s.device ∧ Live s' = Live s ∧ view s' f = some (i, 0) ∧ ∀ g, some g ∈ hs →
    view s' g = view s g := by
  rcases run_lookup_root inv name with ⟨absent, look⟩ | ⟨k, hit, look⟩
  · have opened : Prog.run (openNamed (some ⟨s.next, 0⟩) name)
        (FS.pushInode s (rootInode s.device)) =
          some (none, FS.pushInode s (rootInode s.device)) := by
      rw [openNamed, dirLookup, run_bind_of look]
      rfl
    refine .inl ⟨absent, ?_⟩
    rw [filesysOpen, run_bind_of inv.run_dirOpenRoot, run_bind_of opened,
      run_bind_of (run_dirClose_push inv.fresh _), fileOpen,
      run_bind_of (run_malloc (by exact inv.mallocs))]
    rfl
  have found := inv.names.find_eq_some.mpr ⟨k, hit, rfl⟩
  have named := inv.names.named_of_find found
  refine .inr ⟨(rootDir s.device k).inodeSector, ?_⟩
  rcases open_cases s (rootDir s.device k).inodeSector with ⟨p, a, ha, sector⟩ | closed
  · have user : p ≠ p0 := by
      rintro rfl
      rw [inv.mapOpen, some.injEq] at ha
      exact (inv.files _ named).1 (by rw [← sector, ← ha])
    have lt := inv.table.lt ha
    have run := run_filesysOpen_some inv look (run_inodeOpen_shared inv ha sector)
      (by simp [FS.setInode, FS.pushInode, Nat.ne_of_gt lt]) inv.mallocs
    rw [drop_set_push inv.fresh (Nat.ne_of_lt lt)] at run
    refine ⟨s.next + 1, shareInode s p a, found, run, share_inv inv user ha, rfl, share_live ha, ?_,
      fun g mem => share_view inv ha mem⟩
    simp [view, shareInode, FS.addFile, FS.bump, FS.setInode, sector]
  · have inode := run_inodeOpen_fresh inv (named_live named) (inv.files _ named).2 closed
    have run := run_filesysOpen_some inv look inode (by simp [FS.pushInode]) inv.mallocs
    rw [drop_push_push inv.fresh] at run
    refine ⟨s.next + 2, loadInode s (rootDir s.device k).inodeSector, found, run,
      load_inv inv named closed, rfl, load_live inv.table.toOpens named, ?_,
      fun g mem => load_view inv mem⟩
    simp [view, loadInode, FS.addFile, FS.pushInode, FS.bump, newInode]

end Open

end Pintos.CallOpen
