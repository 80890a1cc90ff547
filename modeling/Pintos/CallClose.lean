import Pintos.CallOpen

/-! Closing files. The last `inode_close` of a removed inode gives its sectors back to
the free map; every other close only takes an opener away. -/

namespace Pintos.CallClose
open Resumption ByteStore Bitmap Disk InodeIO Inode Directory Filesys Ownership Volume Calls
open CallCreate (mapStart filled_one mapFile_pushed)
open CallFiles CallOpen

attribute [local irreducible] splice

variable {s s' : FS} {hs : List (Option Nat)} {f0 p0 : Nat}

/-- The sectors that closing a removed inode gives back. -/
structure Releasable (b : Bits) (ino : Inode) : Prop where
  marked : ∀ x ∈ ino.sector :: dataSectors ino.data, x < b.bitCnt ∧ b.bit x = true
  fits : ino.data.start + bytesToSectors ino.data.length ≤ b.bitCnt
  apart : ino.sector ∉ dataSectors ino.data

/-- `b'` is `b` without the sectors of `ino`. -/
structure Released (b b' : Bits) (ino : Inode) : Prop where
  bitCnt : b'.bitCnt = b.bitCnt
  bit : ∀ x, b'.bit x = true ↔ b.bit x = true ∧ x ∉ ino.sector :: dataSectors ino.data
variable {p g : Nat} {ino : Inode}

theorem run_releaseRemoved {f m : Nat} (map : MapFile s f p m) (gone : ino.removed = true)
    (h : Releasable s.freeMap ino) : ∃ b, Released s.freeMap b ino ∧
    Prog.run (releaseRemoved ino) s = some ((), FS.storeMap s m b) := by
  have sector : s.freeMap.Run ino.sector 1 true := by
    refine ⟨(h.marked _ List.mem_cons_self).1, fun x lo hi => ?_⟩
    obtain rfl : x = ino.sector := by omega
    exact (h.marked _ List.mem_cons_self).2
  obtain ⟨b1, fill1, free1⟩ := run_freeMapRelease map ino.sector 1 sector
  have data : b1.Run ino.data.start (bytesToSectors ino.data.length) true := by
    refine ⟨by rw [fill1.bitCnt]; exact h.fits, fun x lo hi => ?_⟩
    have mem : x ∈ dataSectors ino.data := mem_dataSectors.mpr ⟨lo, hi⟩
    have ne : x ≠ ino.sector := fun e => h.apart (e ▸ mem)
    rw [filled_one fill1, if_neg ne]
    exact (h.marked x (List.mem_cons_of_mem _ mem)).2
  obtain ⟨b2, fill2, free2⟩ := run_freeMapRelease (map.storeMap fill1.bitCnt) _ _ data
  refine ⟨b2, ⟨fill2.bitCnt.trans fill1.bitCnt, fun x => ?_⟩, ?_⟩
  · rw [fill2.bit, List.mem_cons, mem_dataSectors]
    change (if _ then false else b1.bit x) = true ↔ _
    rw [filled_one fill1]
    by_cases inside : ino.data.start ≤ x ∧ x < ino.data.start + bytesToSectors ino.data.length
    · simp [inside]
    · by_cases here : x = ino.sector <;> simp [here, inside]
  · rw [releaseRemoved, if_pos gone, Prog.run_bind_of free1, free2,
      storeMap_storeMap _ _ (show b2.bitCnt = b1.bitCnt from fill2.bitCnt)]

theorem run_inodeClose_release {f m : Nat} (map : MapFile s f p m) {q : Nat}
    (h : s.inodes q = some ino) (ne : q ≠ p) (last : ino.openCnt - 1 = 0)
    (gone : ino.removed = true) (sectors : Releasable s.freeMap ino) :
    ∃ b, Released s.freeMap b ino ∧ Prog.run (inodeClose (some q)) s =
      some ((), FS.dropInode (FS.storeMap s m b) q) := by
  have map1 := MapFile.set map ne (some { ino with openCnt := ino.openCnt - 1 })
  have map2 : MapFile (FS.unlist (FS.setInode s q (some { ino with openCnt := ino.openCnt - 1 })) q)
      f p m := { map1 with }
  obtain ⟨b, released, free⟩ := run_releaseRemoved map2
    (show ({ ino with openCnt := ino.openCnt - 1 } : Inode).removed = true from gone)
    { sectors with }
  refine ⟨b, ⟨released.bitCnt, released.bit⟩, ?_⟩
  rw [run_inodeClose_last h last free]
  simp [FS.setInode, FS.unlist, FS.dropInode, FS.storeMap]

theorem Sound.releasable {d : Device} {b : Bits} {live : Set Nat} (v : Sound d b live)
    (hi : ino.sector ∈ live) (data : ino.data = diskInode d ino.sector) : Releasable b ino := by
  have same : ino.sector :: dataSectors ino.data = extent d ino.sector := by rw [extent, data]
  refine ⟨fun x hx => ?_, ?_, ?_⟩
  · rw [same] at hx
    rw [v.bitCnt]
    exact v.owned.used _ hi x hx
  · rw [data, v.bitCnt]
    exact v.fits _ hi
  · rw [data]
    exact (List.nodup_cons.mp (v.owned.nodup _ hi)).1

section Close

variable {f k : Nat} {file : File} {a : Inode}

theorem getElem?_set_none {j : Nat} (h : (hs.set k none)[j]? = some (some g)) :
    k ≠ j ∧ hs[j]? = some (some g) := by
  by_cases here : k = j
  · subst here
    simp [List.getElem?_set] at h
  · rw [List.getElem?_set_ne here] at h
    exact ⟨here, h⟩

theorem OnceEach.set (h : OnceEach hs) (k : Nat) : OnceEach (hs.set k none) := by
  intro j j' g hj hj'
  exact h j j' g (getElem?_set_none hj).2 (getElem?_set_none hj').2

theorem OnceEach.mem_set (h : OnceEach hs) (hk : hs[k]? = some (some f))
    (mem : some g ∈ hs.set k none) : some g ∈ hs ∧ g ≠ f := by
  obtain ⟨j, hj⟩ := List.mem_iff_getElem?.mp mem
  obtain ⟨ne, old⟩ := getElem?_set_none hj
  refine ⟨List.mem_of_getElem? old, ?_⟩
  rintro rfl
  exact ne (h k j g hk old)

theorem refs_close (distinct : OnceEach hs) (hk : hs[k]? = some (some f))
    (entry : s.files f = some file) (q : Nat) : refs s hs q = refs (FS.setFile s f none)
    (hs.set k none) q + if q = file.inode then 1 else 0 := by
  obtain ⟨lt, here⟩ := List.getElem?_eq_some_iff.mp hk
  have same : refs (FS.setFile s f none) (hs.set k none) q = refs s (hs.set k none) q := by
    refine refs_congr q fun g mem => ?_
    simp [FS.setFile, (OnceEach.mem_set distinct hk mem).2]
  have hit : refers s q (some f) = decide (file.inode = q) := by simp [refers, entry]
  have pos : q = file.inode → 0 < refs s hs q := by
    rintro rfl
    exact List.countP_pos_iff.mpr ⟨some f, List.mem_of_getElem? hk, by simp [hit]⟩
  rw [same]
  simp only [refs] at pos ⊢
  rw [List.countP_set lt, here, hit]
  by_cases eq : q = file.inode
  · have := pos eq
    subst eq
    simp [refers]
    omega
  · simp [eq, Ne.symm eq, refers]

theorem run_fileClose_of (entry : s.files f = some file) (writable : file.denyWrite = false)
    {t : FS} (close : Prog.run (inodeClose (some file.inode)) s = some ((), t)) :
    Prog.run (fileClose (some f)) s = some ((), FS.setFile t f none) := by
  have allow : Prog.run (fileAllowWrite f) s = some ((), s) := by
    rw [fileAllowWrite, Prog.run_bind_of (run_getFile entry), if_neg (by simp [writable])]
    rfl
  rw [fileClose, Prog.run_bind_of allow, Prog.run_bind_of (run_getFile entry),
    Prog.run_bind_of close]
  rfl

theorem Table.close (inv : Inv s hs f0 p0) (hk : hs[k]? = some (some f))
    (h : Opened s f p0 file a) {t : FS} (opens : Opens t) (files : t.files = s.files)
    (counted : ∀ q x, q ≠ p0 → t.inodes q = some x →
      (q ≠ file.inode ∧ s.inodes q = some x) ∨ (q = file.inode ∧
        x = { a with openCnt := a.openCnt - 1 } ∧ a.openCnt - 1 ≠ 0))
    (keep : ∀ q x, s.inodes q = some x → q ≠ file.inode ∨ 1 < refs s hs q →
      (t.inodes q).isSome = true) :
    Table (FS.setFile t f none) (hs.set k none) f0 p0 := by
  have entry : t.files f = some file := by rw [files, h.entry]
  have refs_eq : ∀ q, refs (FS.setFile t f none) (hs.set k none) q =
      refs (FS.setFile s f none) (hs.set k none) q :=
    fun q => refs_congr q fun g _ => by simp [FS.setFile, files]
  refine ⟨opens.setFile entry none, fun q x ne hx => ?_, fun g mem => ?_,
    OnceEach.set inv.table.distinct k⟩
  · have count := refs_close inv.table.distinct hk h.entry q
    rw [refs_eq]
    rcases counted q x ne hx with ⟨other, hx⟩ | ⟨rfl, rfl, more⟩
    · rw [if_neg other, Nat.add_zero] at count
      rw [← count]
      exact inv.table.counted q x ne hx
    obtain ⟨cnt, deny, -⟩ := inv.table.counted _ a h.user h.inode
    rw [if_pos rfl] at count
    refine ⟨?_, deny, ?_⟩
    · simp only [cnt, count]
      omega
    · omega
  · obtain ⟨old, other⟩ := OnceEach.mem_set inv.table.distinct hk mem
    obtain ⟨map, fl, hg, writable, pos, user, some⟩ := inv.table.handle g old
    obtain ⟨x, hx⟩ := Option.isSome_iff_exists.mp some
    refine ⟨map, fl, by simp [FS.setFile, other, files, hg], writable, pos, user, ?_⟩
    apply keep _ x hx
    by_cases here : fl.inode = file.inode
    · refine .inr ?_
      have count := refs_close inv.table.distinct hk h.entry fl.inode
      rw [if_pos here] at count
      have left : 0 < refs (FS.setFile s f none) (hs.set k none) fl.inode :=
        List.countP_pos_iff.mpr ⟨_, mem, by simp [refers, FS.setFile, other, hg]⟩
      omega
    · exact .inl here

theorem close_view (h' : Table (FS.setFile s' f none) (hs.set k none) f0 p0)
    (files : s'.files = s.files) (distinct : OnceEach hs) (hk : hs[k]? = some (some f))
    (inodes : ∀ q x, s'.inodes q = some x → ∃ y, s.inodes q = some y ∧ y.sector = x.sector)
    (mem : some g ∈ hs.set k none) : view (FS.setFile s' f none) g = view s g := by
  have other := (OnceEach.mem_set distinct hk mem).2
  obtain ⟨-, file, hg, -, -, -, some⟩ := h'.handle g mem
  obtain ⟨x, hx⟩ := Option.isSome_iff_exists.mp some
  obtain ⟨y, hy, same⟩ := inodes _ x hx
  have old : s.files g = Option.some file := by
    simpa [FS.setFile, other, files] using hg
  simp only [view, hg, hx, old, hy, Option.map_some, same]

structure Closed (s s' : FS) (hs' : List (Option Nat)) : Prop where
  dir : rootDir s'.device = rootDir s.device
  live : ∀ j ∈ Live s', j ∈ Live s
  content : ∀ j ∈ Live s', j ≠ freeMapSector → content s'.device j = content s.device j
  view : ∀ g, some g ∈ hs' → view s' g = view s g

section

variable (inv : Inv s hs f0 p0) (hk : hs[k]? = some (some f))
include inv hk

theorem close_keep (h : Opened s f p0 file a) (more : a.openCnt - 1 ≠ 0) :
    let s' := FS.setFile (FS.setInode s file.inode (some { a with openCnt := a.openCnt - 1 })) f none
    Inv s' (hs.set k none) f0 p0 ∧ Closed s s' (hs.set k none) := by
  intro s'
  have ne : f ≠ f0 := (inv.table.handle f (List.mem_of_getElem? hk)).1
  have table : Table s' (hs.set k none) f0 p0 := by
    refine Table.close inv hk h (inv.table.toOpens.set h.inode rfl) rfl (fun q x _ hx => ?_)
      fun q x hx _ => ?_
    · rcases setInode_inodes hx with ⟨rfl, rfl⟩ | ⟨other, hx⟩
      · exact .inr ⟨rfl, rfl, more⟩
      · exact .inl ⟨other, hx⟩
    · by_cases here : q = file.inode
      · simp [FS.setInode, here]
      · simp [FS.setInode, here, hx]
  have inodes : ∀ q x, s'.inodes q = some x → ∃ y, s.inodes q = some y ∧ y.sector = x.sector ∧
      y.data = x.data ∧ y.removed = x.removed := by
    intro q x hx
    rcases setInode_inodes hx with ⟨rfl, rfl⟩ | ⟨-, hx⟩
    · exact ⟨a, h.inode, rfl, rfl, rfl⟩
    · exact ⟨x, hx, rfl, rfl, rfl⟩
  have live : Live s' = Live s := by
    refine live_eq rfl (fun q x hx => ?_) fun q x hx => ?_
    · obtain ⟨y, hy, same, -⟩ := inodes q x hx
      exact same ▸ open_live hy
    by_cases here : q = file.inode
    · subst here
      rw [h.inode, Option.some.injEq] at hx
      subst hx
      exact open_live (s := s') (p := file.inode) (a := { a with openCnt := a.openCnt - 1 })
        (by simp [s', FS.setFile, FS.setInode])
    · exact open_live (s := s') (p := q) (a := x)
        (by simpa [s', FS.setFile, FS.setInode, here] using hx)
  refine ⟨Inv.update inv rfl rfl ?_ ?_ rfl table (fun q x user hx => ?_) inv.names inv.files ?_,
    rfl, fun j hj => live ▸ hj, fun j _ _ => rfl, fun g mem => ?_⟩
  · simp [s', FS.setFile, FS.setInode, Ne.symm ne]
  · simp [s', FS.setFile, FS.setInode, Ne.symm h.user]
  · obtain ⟨y, hy, same, data, gone⟩ := inodes q x hx
    rw [← same, ← data, ← gone]
    exact ⟨inv.root_closed q y hy, inv.cached q y hy, inv.removed q y user hy⟩
  · rw [live]
    exact inv.volume
  · exact close_view (s := s) table rfl inv.table.distinct hk
      (fun q x hx => by obtain ⟨y, hy, same, -⟩ := inodes q x hx; exact ⟨y, hy, same⟩) mem

omit inv hk in
theorem dropInode_inodes {q : Nat} {x : Inode} :
    (FS.dropInode s p).inodes q = some x ↔ q ≠ p ∧ s.inodes q = some x := by
  by_cases here : q = p
  · simp [FS.dropInode, here]
  · simp [FS.dropInode, here]

theorem close_last (h : Opened s f p0 file a) (last : a.openCnt - 1 = 0) {d : Device} {b : Bits}
    {live : Set Nat} (only : OnlyData s.device d (Live s) freeMapSector) (volume : Sound d b live)
    (mem : ∀ j, j ∈ live ↔ j ∈ Live s ∧ (j = a.sector → a.removed = false)) :
    let s' := FS.setFile (FS.dropInode { s with device := d, freeMap := b } file.inode) f none
    Inv s' (hs.set k none) f0 p0 ∧ Closed s s' (hs.set k none) := by
  intro s'
  have ne : f ≠ f0 := (inv.table.handle f (List.mem_of_getElem? hk)).1
  have dir : rootDir d = rootDir s.device := inv.volume.rootDir_eq only (by decide)
  have one : refs s hs file.inode = 1 := by
    have := (inv.table.counted _ a h.user h.inode).1
    omega
  have opens : Opens { s with device := d, freeMap := b } := { inv.table with }
  have table : Table s' (hs.set k none) f0 p0 := by
    refine Table.close inv hk h (opens.drop _) rfl (fun q x _ hx => ?_) fun q x hx why => ?_
    · exact .inl (dropInode_inodes.mp hx)
    have other : q ≠ file.inode := by
      rcases why with other | many
      · exact other
      · rintro rfl
        omega
    simp [FS.dropInode, other, hx]
  have inodes : ∀ q x, s'.inodes q = some x → q ≠ file.inode ∧ s.inodes q = some x :=
    fun q x hx => dropInode_inodes.mp hx
  have live_eq : live = Live s' := by
    ext j
    rw [mem]
    constructor
    · rintro ⟨old, stays⟩
      rcases mem_live.mp old with e | e | e | ⟨q, x, hx, e⟩
      · exact .inl e
      · exact .inr (.inl e)
      · exact named_live (s := s') (by rw [show s'.device = d from rfl, dir]; exact e)
      by_cases here : q = file.inode
      · subst here
        rw [h.inode, Option.some.injEq] at hx
        subst hx
        have named : Named (rootDir s.device) a.sector := by
          by_contra gone
          have := (inv.removed _ a h.user h.inode).mpr gone
          simp [stays e.symm] at this
        exact named_live (s := s') (by rw [show s'.device = d from rfl, dir, ← e]; exact named)
      · exact e ▸ open_live (s := s') (dropInode_inodes.mpr ⟨here, hx⟩)
    · intro new
      rcases mem_live.mp new with e | e | e | ⟨q, x, hx, e⟩
      · exact ⟨.inl e, fun same => absurd (same.symm.trans e) (Inv.isFile inv h.user h.inode).1⟩
      · exact ⟨.inr (.inl e), fun same => absurd (same.symm.trans e)
          (Inv.isFile inv h.user h.inode).2⟩
      · rw [show s'.device = d from rfl, dir] at e
        refine ⟨named_live e, fun same => ?_⟩
        by_contra gone
        exact (inv.removed _ a h.user h.inode).mp (by simpa using gone) (same ▸ e)
      · obtain ⟨other, hx⟩ := inodes q x hx
        exact ⟨e ▸ open_live hx, fun same =>
          absurd (inv.table.sector_inj q _ x a hx h.inode (e.trans same)) other⟩
  have sub : ∀ j ∈ Live s', j ∈ Live s := fun j hj => ((mem j).mp (live_eq ▸ hj)).1
  refine ⟨Inv.update inv rfl rfl ?_ ?_ (only.diskInode inv.volume.map_live) table
    (fun q x user hx => ?_) ?_ ?_ ?_, dir, sub,
    fun j hj map => inv.volume.content_eq only (sub j hj) map, fun g mem => ?_⟩
  · simp [s', FS.setFile, FS.dropInode, Ne.symm ne]
  · simp [s', FS.setFile, FS.dropInode, Ne.symm h.user]
  · obtain ⟨-, old⟩ := inodes q x hx
    change _ ∧ x.data = diskInode d x.sector ∧ (_ ↔ ¬Named (rootDir d) x.sector)
    rw [dir, only.diskInode (open_live old)]
    exact ⟨inv.root_closed q x old, inv.cached q x old, inv.removed q x user old⟩
  · exact dir ▸ inv.names
  · exact dir ▸ inv.files
  · exact live_eq ▸ volume
  · exact close_view (s := s) table rfl inv.table.distinct hk
      (fun q x hx => ⟨x, (inodes q x hx).2, rfl⟩) mem

theorem close_spec : ∃ s', Prog.run (fileClose (some f)) s = some ((), s') ∧
    Inv s' (hs.set k none) f0 p0 ∧ Closed s s' (hs.set k none) := by
  obtain ⟨file, a, h⟩ := Inv.opened inv (List.mem_of_getElem? hk)
  by_cases last : a.openCnt - 1 = 0
  · by_cases gone : a.removed = true
    · have system := Inv.isFile inv h.user h.inode
      obtain ⟨b, released, close⟩ := run_inodeClose_release inv.mapFile_spec h.inode h.user last gone
        (Sound.releasable inv.volume h.live h.data)
      have bits : ∀ x, b.bit x = true ↔ s.freeMap.bit x = true ∧ x ∉ extent s.device a.sector := by
        intro x
        rw [released.bit, extent, h.data]
      have volume := inv.volume.release h.live system released.bitCnt bits
        (show ∀ j, j ∈ { j | j ∈ Live s ∧ j ≠ a.sector } ↔ _ from fun _ => Iff.rfl)
      exact ⟨_, run_fileClose_of h.entry h.writable close, close_last inv hk h last
        (inv.volume.onlyData_storeMap released.bitCnt) volume fun j => by simp [gone]⟩
    · have close := run_inodeClose_drop h.inode last (by simpa using gone)
      exact ⟨_, run_fileClose_of h.entry h.writable close, close_last inv hk h last (fun _ _ _ _ _ => Agree.refl _ _)
        inv.volume fun j => by simp [gone]⟩
  · exact ⟨_, run_fileClose_of h.entry h.writable (run_inodeClose_keep h.inode last), close_keep inv hk h last⟩

end

/-- Sectors of an inode that is live no longer are free. -/
def Frees (s s' : FS) : Prop :=
  ∀ i ∈ Live s, i ∉ Live s' → ∀ x ∈ extent s.device i, s'.freeMap.bit x = false

theorem Frees.of_live (sub : ∀ j ∈ Live s, j ∈ Live s') : Frees s s' :=
  fun i live gone => absurd (sub i live) gone

/-- Only the inode at `p` can be live no longer, if the others stay open. -/
theorem Closed.left {hs' : List (Option Nat)} {i : Nat} (closed : Closed s s' hs')
    (rest : ∀ q x, q ≠ p → s.inodes q = some x → s'.inodes q = some x) (live : i ∈ Live s)
    (gone : i ∉ Live s') :
    ∃ x, s.inodes p = some x ∧ x.sector = i ∧ ¬Named (rootDir s.device) i := by
  have unnamed : ¬Named (rootDir s.device) i := fun named =>
    gone (named_live (by rw [closed.dir]; exact named))
  rcases mem_live.mp live with e | e | named | ⟨q, x, hx, sector⟩
  · exact absurd (.inl e) gone
  · exact absurd (.inr (.inl e)) gone
  · exact absurd named unnamed
  · by_cases here : q = p
    · exact ⟨x, here ▸ hx, sector, unnamed⟩
    · exact absurd (sector ▸ open_live (rest q x here hx)) gone

theorem close_frees (inv : Inv s hs f0 p0) (hk : hs[k]? = some (some f))
    (run : Prog.run (fileClose (some f)) s = some ((), s')) : Frees s s' := by
  obtain ⟨t, ran, -, closed⟩ := close_spec inv hk
  obtain rfl : s' = t := by
    rw [run] at ran
    exact (Prod.mk.inj (Option.some.inj ran)).2
  obtain ⟨file, a, h⟩ := Inv.opened inv (List.mem_of_getElem? hk)
  intro i live gone x mem
  by_cases last : a.openCnt - 1 = 0
  · by_cases removed : a.removed = true
    · obtain ⟨b, released, close⟩ := run_inodeClose_release inv.mapFile_spec h.inode h.user last
        removed (Sound.releasable inv.volume h.live h.data)
      rw [run_fileClose_of h.entry h.writable close] at run
      cases run
      obtain ⟨y, hy, rfl, -⟩ := closed.left (fun q y ne hy => dropInode_inodes.mpr ⟨ne, hy⟩) live gone
      rw [h.inode, Option.some.injEq] at hy
      subst hy
      rw [extent, ← h.data] at mem
      exact Bool.eq_false_iff.mpr fun marked => ((released.bit x).mp marked).2 mem
    · rw [run_fileClose_of h.entry h.writable
        (run_inodeClose_drop h.inode last (by simpa using removed))] at run
      cases run
      obtain ⟨y, hy, rfl, unnamed⟩ :=
        closed.left (fun q y ne hy => dropInode_inodes.mpr ⟨ne, hy⟩) live gone
      rw [h.inode, Option.some.injEq] at hy
      subst hy
      exact absurd ((inv.removed _ a h.user h.inode).mpr unnamed) removed
  · rw [run_fileClose_of h.entry h.writable (run_inodeClose_keep h.inode last)] at run
    cases run
    obtain ⟨y, hy, rfl, -⟩ := closed.left (p := file.inode) (fun q y ne hy => by
      simpa [FS.setFile, FS.setInode, ne] using hy) live gone
    rw [h.inode, Option.some.injEq] at hy
    subst hy
    refine absurd ?_ gone
    exact open_live (s := FS.setFile _ f none) (p := file.inode)
      (a := { a with openCnt := a.openCnt - 1 }) (by simp [FS.setFile, FS.setInode])

end Close

end Pintos.CallClose
