import Pintos.Volume

/-! Sequences of calls into a formatted file system, and the invariant of the
states they reach. A client names the files it has opened by the order of the
opens. The invariant ties the volume to the table of open inodes: a file is live
while it has a name or an opener, an open inode counts its openers, and it is
marked as removed exactly when its name is gone. -/

namespace Pintos.Calls
open Resumption ByteStore Bitmap Disk InodeIO Inode Directory Filesys Ownership Volume Function

/-- Sizes and positions that a call may pass. -/
abbrev Size := Fin (2 ^ 31)

inductive Call where
  | filesysCreate (name : CString) (initialSize : Size)
  | filesysOpen (name : CString)
  | filesysRemove (name : CString)
  | fileRead (h : Nat) (size : Size)
  | fileWrite (h : Nat) (buffer : { bs : List UInt8 // bs.length < 2 ^ 31 })
  | fileSeek (h : Nat) (newPos : Size)
  | fileTell (h : Nat)
  | fileLength (h : Nat)
  | fileClose (h : Nat)

inductive Result where
  | done (ok : Bool)
  | opened (h : Option Nat)
  | bytes (bs : List UInt8)
  | number (n : Int)
  | closed
  | sought
  | noHandle
  deriving DecidableEq

structure Client where
  fs : FS
  handles : List (Option Nat)

def Client.handle (c : Client) (h : Nat) : Option Nat := (c.handles[h]?).join

/-- A call on an open file. Without one the client has no pointer to pass. -/
def Client.on {α : Type} (c : Client) (h : Nat) (code : Nat → Code α) (answer : α → Result) :
    Option (Result × Client) :=
  match c.handle h with
  | none => some (.noHandle, c)
  | some f => (Prog.run (code f) c.fs).map fun r => (answer r.1, { c with fs := r.2 })

/-- One call; `none` is a kernel panic. -/
def Client.call (c : Client) : Call → Option (Result × Client)
  | .filesysCreate name size =>
    (Prog.run (filesysCreate name (size : Nat)) c.fs).map fun r => (.done r.1, { c with fs := r.2 })
  | .filesysOpen name =>
    (Prog.run (filesysOpen name) c.fs).map fun r =>
      match r.1 with
      | some f => (.opened (some c.handles.length), ⟨r.2, c.handles ++ [some f]⟩)
      | none => (.opened none, { c with fs := r.2 })
  | .filesysRemove name =>
    (Prog.run (filesysRemove name) c.fs).map fun r => (.done r.1, { c with fs := r.2 })
  | .fileRead h size => c.on h (fun f => fileRead f (size : Nat)) .bytes
  | .fileWrite h buffer => c.on h (fun f => fileWrite f buffer.val buffer.val.length) .number
  | .fileSeek h newPos => c.on h (fun f => fileSeek f (newPos : Nat)) fun _ => .sought
  | .fileTell h => c.on h fileTell .number
  | .fileLength h => c.on h fileLength .number
  | .fileClose h =>
    (c.on h (fun f => fileClose (some f)) fun _ => .closed).map fun r =>
      (r.1, { r.2 with handles := r.2.handles.set h none })

def Client.calls (c : Client) : List Call → Option (List Result × Client)
  | [] => some ([], c)
  | op :: ops => do
    let (r, c) ← c.call op
    let (rs, c) ← Client.calls c ops
    some (r :: rs, c)

def refers (s : FS) (p : Nat) : Option Nat → Bool
  | none => false
  | some f =>
    match s.files f with
    | some file => file.inode = p
    | none => false

def refs (s : FS) (hs : List (Option Nat)) (p : Nat) : Nat := hs.countP (refers s p)

/-- The inode sectors in use: the two of the file system itself, those of named
files and those of open ones. -/
def Live (s : FS) : Set Nat := fun i =>
  i = freeMapSector ∨ i = rootDirSector ∨ Named (rootDir s.device) i ∨
    ∃ p a, s.inodes p = some a ∧ a.sector = i

/-- The list of open inodes names every inode in memory once, and no sector twice. -/
structure Opens (s : FS) : Prop where
  nodup : s.openInodes.Nodup
  mem : ∀ p, p ∈ s.openInodes ↔ (s.inodes p).isSome = true
  sector_inj : ∀ p q a b, s.inodes p = some a → s.inodes q = some b → a.sector = b.sector → p = q
  fresh : ∀ p, s.next ≤ p → s.inodes p = none ∧ s.files p = none

def OnceEach (hs : List (Option Nat)) : Prop :=
  ∀ (k k' f : Nat), hs[k]? = some (some f) → hs[k']? = some (some f) → k = k'

/-- Open inodes count the open files, all of which allow writes. -/
structure Table (s : FS) (hs : List (Option Nat)) (f₀ p₀ : Nat) : Prop extends Opens s where
  counted : ∀ p a, p ≠ p₀ → s.inodes p = some a →
    a.openCnt = refs s hs p ∧ a.denyWriteCnt = 0 ∧ 0 < refs s hs p
  handle : ∀ f, some f ∈ hs → f ≠ f₀ ∧ ∃ file, s.files f = some file ∧ file.denyWrite = false ∧
    0 ≤ file.pos ∧ file.inode ≠ p₀ ∧ (s.inodes file.inode).isSome = true
  distinct : OnceEach hs

structure Inv (s : FS) (hs : List (Option Nat)) (f₀ p₀ : Nat) : Prop where
  table : Table s hs f₀ p₀
  mapFile : s.freeMapFile = some f₀
  mapHandle : s.files f₀ = some ⟨p₀, 0, false⟩
  mapOpen : s.inodes p₀ = some ⟨freeMapSector, 1, false, 0, diskInode s.device freeMapSector⟩
  mallocs : s.mallocs = []
  root_closed : ∀ p a, s.inodes p = some a → a.sector ≠ rootDirSector
  cached : ∀ p a, s.inodes p = some a → a.data = diskInode s.device a.sector
  removed : ∀ p a, p ≠ p₀ → s.inodes p = some a →
    (a.removed = true ↔ ¬Named (rootDir s.device) a.sector)
  names : Distinct (rootDir s.device)
  files : ∀ i, Named (rootDir s.device) i → i ≠ freeMapSector ∧ i ≠ rootDirSector
  volume : Sound s.device s.freeMap (Live s)

variable {s : FS} {hs : List (Option Nat)} {f0 p0 : Nat}

theorem Inv.mapFile_spec (inv : Inv s hs f0 p0) :
    MapFile s f0 p0 (diskInode s.device freeMapSector).start where
  file := inv.mapFile
  handle := inv.mapHandle
  inode := by
    have := inv.volume.mapInode_eq
    rw [inv.mapOpen]
    exact congrArg (fun n => some (Inode.mk freeMapSector 1 false 0 n)) this
  inside k lt := by
    apply inv.volume.data_lt inv.volume.map_live
    rwa [inv.volume.mapInode_eq, Int.toNat_natCast]
  mallocs := inv.mallocs

variable {f p i : Nat} {b : Bits} {a : Inode}

theorem MapFile.push {m : Nat} (h : MapFile s f p m) (fresh : s.inodes s.next = none)
    (ino : Inode) : MapFile (FS.pushInode s ino) f p m := by
  have ne : p ≠ s.next := by
    rintro rfl
    simp [h.inode] at fresh
  exact { h with inode := (update_of_ne ne ..).trans h.inode }

theorem MapFile.set {m q : Nat} (h : MapFile s f p m) (ne : q ≠ p) (new : Option Inode) :
    MapFile (FS.setInode s q new) f p m :=
  { h with inode := (update_of_ne ne.symm ..).trans h.inode }

theorem storeMap_storeMap (s : FS) (m : Nat) {b' : Bits} (cnt : b'.bitCnt = b.bitCnt) :
    FS.storeMap (FS.storeMap s m b) m b' = FS.storeMap s m b' := by
  simp only [FS.storeMap, Device.write]
  rw [splice_splice _ _ (by rw [Bits.bytes_length, Bits.bytes_length, cnt])]

def FS.bump (s : FS) : FS := { s with next := s.next + 1 }

def FS.dropInode (s : FS) (p : Nat) : FS :=
  { s with inodes := update s.inodes p none, openInodes := s.openInodes.erase p }

theorem run_inodeClose_drop {ino : Inode} (h : s.inodes p = some ino) (last : ino.openCnt - 1 = 0)
    (stays : ino.removed = false) :
    Prog.run (inodeClose (some p)) s = some ((), FS.dropInode s p) := by
  rw [run_inodeClose_last h last (by rw [releaseRemoved, if_neg (by simp [stays])]; rfl)]
  simp [FS.setInode, FS.unlist, FS.dropInode]

section Opens

def FS.addFile (s : FS) (p : Nat) : FS :=
  { s with files := update s.files s.next (some ⟨p, 0, false⟩), next := s.next + 1 }

def FS.setFile (s : FS) (f : Nat) (file : Option File) : FS :=
  { s with files := update s.files f file }

section

variable (h : Opens s)
include h

theorem Opens.lt (ha : s.inodes p = some a) : p < s.next := by
  by_contra ge
  have := (h.fresh p (by omega)).1
  simp [ha] at this

theorem Opens.file_lt {file : File} (hf : s.files f = some file) : f < s.next := by
  by_contra ge
  have := (h.fresh f (by omega)).2
  simp [hf] at this

theorem Opens.set {a' : Inode} (ha : s.inodes p = some a) (same : a'.sector = a.sector) :
    Opens (FS.setInode s p (some a')) where
  nodup := h.nodup
  mem q := by
    by_cases here : q = p
    · subst here
      simp [FS.setInode, h.mem, ha]
    · simp [FS.setInode, here, h.mem]
  sector_inj q q' x x' hx hx' e := by
    have old : ∀ q x, (FS.setInode s p (some a')).inodes q = some x →
        ∃ y, s.inodes q = some y ∧ y.sector = x.sector := by
      intro q x hx
      by_cases here : q = p
      · subst here
        simp only [FS.setInode, update_self, Option.some.injEq] at hx
        exact ⟨a, ha, by rw [← hx, same]⟩
      · simp only [FS.setInode, update_of_ne here] at hx
        exact ⟨x, hx, rfl⟩
    obtain ⟨y, hy, ey⟩ := old q x hx
    obtain ⟨y', hy', ey'⟩ := old q' x' hx'
    exact h.sector_inj q q' y y' hy hy' (by rw [ey, ey', e])
  fresh q hq := by
    have ne : q ≠ p := by
      have := h.lt ha
      rintro rfl
      exact absurd this (Nat.not_lt_of_le hq)
    simp only [FS.setInode, update_of_ne ne]
    exact h.fresh q hq

theorem Opens.push {ino : Inode} (new : ∀ p a, s.inodes p = some a → a.sector ≠ ino.sector) :
    Opens (FS.pushInode s ino) where
  nodup := by
    refine List.nodup_cons.mpr ⟨fun mem => ?_, h.nodup⟩
    have := (h.mem s.next).mp mem
    simp [(h.fresh s.next (Nat.le_refl _)).1] at this
  mem q := by
    by_cases here : q = s.next
    · subst here
      simp [FS.pushInode]
    · simp [FS.pushInode, here, h.mem]
  sector_inj q q' x x' hx hx' e := by
    simp only [FS.pushInode, update_apply] at hx hx'
    split_ifs at hx hx' with here here' here'
    · rw [here, here']
    · cases hx
      exact absurd e.symm (new q' x' hx')
    · cases hx'
      exact absurd e (new q x hx)
    · exact h.sector_inj q q' x x' hx hx' e
  fresh q hq := by
    have bound : s.next + 1 ≤ q := hq
    simp only [FS.pushInode, update_of_ne (show q ≠ s.next by omega)]
    exact h.fresh q (by omega)

theorem Opens.drop (p : Nat) : Opens (FS.dropInode s p) where
  nodup := h.nodup.erase p
  mem q := by
    by_cases here : q = p
    · subst here
      simp [FS.dropInode, h.nodup.mem_erase_iff]
    · simp [FS.dropInode, h.nodup.mem_erase_iff, here, h.mem]
  sector_inj q q' x x' hx hx' e := by
    simp only [FS.dropInode, update_apply] at hx hx'
    split_ifs at hx hx' with here here'
    exact h.sector_inj q q' x x' hx hx' e
  fresh q hq := by
    obtain ⟨none, file⟩ := h.fresh q hq
    exact ⟨by simp [FS.dropInode, update_apply, none], file⟩

theorem Opens.addFile (p : Nat) : Opens (FS.addFile s p) := by
  refine { h with fresh := fun q hq => ?_ }
  have bound : s.next + 1 ≤ q := hq
  simp only [FS.addFile, update_of_ne (show q ≠ s.next by omega)]
  exact h.fresh q (by omega)

theorem Opens.setFile {old : File} (hf : s.files f = some old) (file : Option File) :
    Opens (FS.setFile s f file) := by
  refine { h with fresh := fun q hq => ?_ }
  have ne : q ≠ f := by
    have := h.file_lt hf
    rintro rfl
    exact absurd this (Nat.not_lt_of_le hq)
  simp only [FS.setFile, update_of_ne ne]
  exact h.fresh q hq

theorem Opens.bump : Opens (FS.bump s) :=
  { h with fresh := fun q hq => h.fresh q (Nat.le_of_succ_le hq) }

theorem Opens.search (ha : s.inodes p = some a) :
    s.openInodes.find? (isAt s a.sector) = some p := by
  have hit : isAt s a.sector p = true := by simp [isAt, ha]
  have some := List.find?_isSome.mpr ⟨p, (h.mem p).mpr (by simp [ha]), hit⟩
  obtain ⟨q, found⟩ := Option.isSome_iff_exists.mp some
  have here := List.find?_some found
  unfold isAt at here
  cases hq : s.inodes q with
  | none => simp [hq] at here
  | some b =>
    simp only [hq, decide_eq_true_eq] at here
    rw [found, h.sector_inj q p b a hq ha here]

theorem Opens.absent (none : ∀ p a, s.inodes p = some a → a.sector ≠ i) :
    ∀ p ∈ s.openInodes, isAt s i p = false := by
  intro p hp
  obtain ⟨a, ha⟩ := Option.isSome_iff_exists.mp ((h.mem p).mp hp)
  simpa [isAt, ha] using none p a ha

end

end Opens

/-- The inode of the root directory as `dir_open_root` opens it. -/
def rootInode (d : Device) : Inode := ⟨rootDirSector, 1, false, 0, diskInode d rootDirSector⟩

section

variable (inv : Inv s hs f0 p0)
include inv

theorem Inv.fresh : s.inodes s.next = none :=
  (inv.table.fresh s.next (Nat.le_refl _)).1

theorem Inv.root_loaded : Loaded (FS.pushInode s (rootInode s.device)) s.next (rootInode s.device)
    (entrySize * rootEntries) where
  inode := by simp [FS.pushInode]
  length := inv.volume.rootLength
  inside k lt := by
    apply inv.volume.data_lt inv.volume.root_live
    rwa [inv.volume.rootLength, Int.toNat_natCast]
  mallocs := inv.mallocs

theorem Inv.run_dirOpenRoot :
    Prog.run dirOpenRoot s = some (some ⟨s.next, 0⟩, FS.pushInode s (rootInode s.device)) := by
  have absent := inv.table.toOpens.absent inv.root_closed
  have room := (inv.volume.owned.used _ inv.volume.root_live _ List.mem_cons_self).1
  rw [dirOpenRoot, Prog.run_bind_of (run_inodeOpen_new inv.mallocs room absent), dirOpen,
    Prog.run_bind_of (run_malloc (by exact inv.mallocs))]
  rfl

omit inv in
theorem run_dirClose_push (fresh : s.inodes s.next = none) (d : Device) :
    Prog.run (dirClose (some ⟨s.next, 0⟩)) (FS.pushInode s (rootInode d)) =
      some ((), FS.bump s) := by
  have open1 : (FS.pushInode s (rootInode d)).inodes s.next = some (rootInode d) := by
    simp [FS.pushInode]
  rw [dirClose, run_inodeClose_drop open1 (by rfl) rfl]
  simp [FS.dropInode, FS.pushInode, FS.bump, fresh]

theorem Inv.withVolume {d : Device} {n : Nat} (le : s.next ≤ n)
    (inodes : ∀ p a, s.inodes p = some a → diskInode d a.sector = diskInode s.device a.sector)
    (removed : ∀ p a, p ≠ p0 → s.inodes p = some a →
      (Named (rootDir d) a.sector ↔ Named (rootDir s.device) a.sector))
    (names : Distinct (rootDir d))
    (files : ∀ i, Named (rootDir d) i → i ≠ freeMapSector ∧ i ≠ rootDirSector) {live : Set Nat}
    (volume : Sound d b live)
    (mem : ∀ i, i ∈ live ↔ i = freeMapSector ∨ i = rootDirSector ∨ Named (rootDir d) i ∨ ∃ p a,
      s.inodes p = some a ∧ a.sector = i) :
    Inv { s with device := d, freeMap := b, next := n } hs f0 p0 :=
  { inv with
    table := { inv.table with fresh := fun p hp => inv.table.fresh p (Nat.le_trans le hp) }
    mapOpen := by
      have same := inodes p0 _ inv.mapOpen
      simp only [same]
      exact inv.mapOpen
    cached := fun p a ha => (inv.cached p a ha).trans (inodes p a ha).symm
    removed := fun p a ne ha => (inv.removed p a ne ha).trans (not_congr (removed p a ne ha).symm)
    names := names
    files := files
    volume := by
      have same : live = Live { s with device := d, freeMap := b, next := n } := Set.ext mem
      rwa [same] at volume }

theorem Inv.bump : Inv (FS.bump s) hs f0 p0 :=
  inv.withVolume (Nat.le_succ _) (fun _ _ _ => rfl) (fun _ _ _ _ => Iff.rfl) inv.names inv.files
    inv.volume fun _ => Iff.rfl

end

theorem mem_live : i ∈ Live s ↔ i = freeMapSector ∨ i = rootDirSector ∨
    Named (rootDir s.device) i ∨ ∃ p a, s.inodes p = some a ∧ a.sector = i := Iff.rfl

theorem open_live (h : s.inodes p = some a) : a.sector ∈ Live s := .inr (.inr (.inr ⟨p, a, h, rfl⟩))

theorem named_live (h : Named (rootDir s.device) i) : i ∈ Live s :=
  .inr (.inr (.inl h))

theorem Inv.withMap (inv : Inv s hs f0 p0) {d : Device} {n : Nat} (le : s.next ≤ n)
    (only : OnlyData s.device d (Live s) freeMapSector) (volume : Sound d b (Live s)) :
    Inv { s with device := d, freeMap := b, next := n } hs f0 p0 := by
  have dir := inv.volume.rootDir_eq only (by decide)
  exact inv.withVolume le (fun p a ha => only.diskInode (open_live ha)) (fun p a _ _ => by rw [dir])
    (by rw [dir]; exact inv.names) (by rw [dir]; exact inv.files) volume
    fun j => by rw [dir]; exact mem_live

end Pintos.Calls
