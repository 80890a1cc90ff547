import Pintos.ConcurrentCreate

/-! Rules for the functions that a creation calls, while other creations are under way.
Between two of its own steps a call knows what it owns: that its sectors are marked, that
the root directory is open, what the directory holds while it searches it, and that its
inode is on the disk. -/

namespace Pintos.ConcurrentCreate

open Function
open Resumption ByteStore Bitmap Disk InodeIO Inode Directory Filesys Ownership Volume CallCreate
open Protocol (wp_assert wp_bind wp_modify wp_state)

attribute [local irreducible] slice splice

variable {τ : Type} [DecidableEq τ]

def protocol (s₀ : FS) (f₀ p₀ : Nat) (name : CString) (sizes : τ → BitVec 32) :
    Protocol τ Sleep Ghost FS where
  inv := Inv s₀ f₀ p₀ name
  lab := Ghost.label
  allow := Apart (rootStart s₀)
  fails i := (sizes i).toInt < 0

def Runs (s₀ : FS) (f₀ p₀ : Nat) (name : CString) (i : τ) (c : Ghost) (g : τ → Ghost) (s : FS) :
    Prop := Inv s₀ f₀ p₀ name (update g i c) s

structure Ghost.Awake (c : Ghost) : Prop where
  label : c.label = none
  seen : c.seen = none

theorem Ghost.Awake.off {c : Ghost} (h : c.Awake) : c.label ≠ some (.read rootDirSector) := by
  simp [h.label]

section Rules

variable {s0 : FS} {f0 p0 : Nat} {name : CString} {sizes : τ → BitVec 32} {g : τ → Ghost} {s : FS}
  {i : τ} {c : Ghost}

theorem Runs.across (h : Runs s0 f0 p0 name i c g s) (awake : c.Awake) {l : Sleep}
    (off : l ≠ .read rootDirSector) :
    (protocol s0 f0 p0 name sizes).Across i l (Runs s0 f0 p0 name i c) g s := by
  refine ⟨{ c with label := some l }, rfl,
    Inv.relabel h awake.seen awake.off (by simpa using off), fun g' s' own inv _ => ?_⟩
  have here : Inv s0 f0 p0 name (update g' i { c with label := some l }) s' := by
    rw [← own, update_eq_self]
    exact inv
  have woken := here.relabel awake.seen (by simpa using off) (l := none) (by simp)
  rwa [← awake.label] at woken

section Map

variable (base : Base s0) (awake : c.Awake)

include base awake

theorem Runs.writeMap (h : Runs s0 f0 p0 name i c g s) {k : Nat} {bs : List UInt8}
    (lt : 512 * k < byteCnt s0.freeMap.bitCnt) (len : bs.length ≤ 512) :
    (protocol s0 f0 p0 name sizes).Across i (.written (mapStart s0 + k)) (Runs s0 f0 p0 name i c) g
      { s with device := s.device.write (512 * (mapStart s0 + k)) bs } := by
  obtain ⟨bit, inode, dir⟩ := base.map k lt
  have written := Inv.write h len inode dir fun j y n e => h.owned_ne (h.made j y n e).1 bit
  exact Runs.across written awake (by simp)

theorem wp_bitmapWrite {Q : Bool → (τ → Ghost) → FS → Prop}
    (post : ∀ g s, Runs s0 f0 p0 name i c g s → Q true g s) (h : Runs s0 f0 p0 name i c g s) :
    (protocol s0 f0 p0 name sizes).wp i Q (bitmapWrite f0) g s := by
  have data : ∀ g s, Runs s0 f0 p0 name i c g s →
      DataAt s p0 (mapStart s0) (byteCnt s0.freeMap.bitCnt) := fun g s h => by
    have loaded := h.mapFile.loaded.dataAt
    rwa [h.bitCnt] at loaded
  have place : ∀ k, 0 + k < byteCnt s0.freeMap.bitCnt →
      512 * ((0 + k) / 512) < byteCnt s0.freeMap.bitCnt := fun k lt => by omega
  have read_ne : ∀ k, 0 + k < byteCnt s0.freeMap.bitCnt →
      Sleep.read (mapStart s0 + (0 + k) / 512) ≠ .read rootDirSector := fun k lt => by
    simpa using (base.map _ (place k lt)).2.1
  rw [bitmapWrite, wp_bind, wp_state, wp_bind, fileWriteAt, wp_bind]
  refine wp_getFile h.mapFile.handle ?_
  rw [inodeWriteAt, wp_bind]
  refine wp_getInode h.mapFile.inode ?_
  simp only [ne_eq, not_true_eq_false, if_false, h.bitCnt]
  exact wp_writeLoop p0 (byteCnt s0.freeMap.bitCnt) (mapStart s0) 0 (byteCnt s0.freeMap.bitCnt)
    (fun s => s.freeMap.bytes) (A := fun _ => Runs s0 f0 p0 name i c)
    (B := fun _ _ _ => Runs s0 f0 p0 name i c) (fun _ => data)
    (fun k g s h lt => h.across awake (read_ne k lt))
    (fun k n g s h _ => h.across awake (by simp))
    (fun k n bs g s h round => h.writeMap base awake
      (place k (by have := round.pos; have := round.fits; omega)) (List.length_take_le _ _))
    (fun k g s h _ _ fits => (h.across awake (by simp)).mono fun g s h =>
      h.writeMap base awake (place k (by omega)) (List.length_take_le _ _))
    _ _ 0 false (Nat.le_refl _) (by simp [ioCount]) (fun g s h => by simpa using post g s h) g s h

theorem wp_freeMapAllocate (cnt : Nat) {Q : Option Nat → (τ → Ghost) → FS → Prop}
    (full : ∀ g s, Runs s0 f0 p0 name i c g s → Q none g s)
    (found : ∀ start g s, start + cnt ≤ s0.freeMap.bitCnt →
      Runs s0 f0 p0 name i { c with owned := c.owned ++ List.range' start cnt } g s →
      Q (some start) g s)
    (h : Runs s0 f0 p0 name i c g s) :
    (protocol s0 f0 p0 name sizes).wp i Q (freeMapAllocate cnt) g s := by
  rw [freeMapAllocate, wp_bind, wp_state, wp_bind]
  rcases scanAndFlip_cases s.freeMap cnt with ⟨r, b, run, -, fill, ok, scan⟩ | ⟨-, scan⟩
  · have taken := Inv.take h run fill
    have fits := run.1
    rw [h.bitCnt] at fits
    rw [scan, h.mapFile.file]
    change (protocol s0 f0 p0 name sizes).wp i Q (if r = bitmapError then _ else _) g
      { s with freeMap := b }
    rw [if_neg ok, wp_bind]
    exact wp_bitmapWrite base (c := { c with owned := c.owned ++ List.range' r cnt })
      ⟨awake.label, awake.seen⟩ (fun g s h => found r g s fits h) taken
  · rw [scan]
    exact full g s h

theorem wp_freeMapRelease {x : Nat} {rest : List Nat} (own : c.owned = x :: rest)
    (unmade : c.made = none) {Q : Unit → (τ → Ghost) → FS → Prop}
    (post : ∀ g s, Runs s0 f0 p0 name i { c with owned := rest } g s → Q () g s)
    (h : Runs s0 f0 p0 name i c g s) :
    (protocol s0 f0 p0 name sizes).wp i Q (freeMapRelease x 1) g s := by
  have used := h.owned.used i (Set.mem_univ i) x (by simp [own])
  have fits : x + 1 ≤ s.freeMap.bitCnt := by
    rw [h.bitCnt]
    exact used.1
  have all := bitmapAll_eq_true s.freeMap x 1 fits fun j lo hi => by
    rw [show j = x by omega]
    exact used.2.2
  obtain ⟨b, set, size, bits⟩ := bitmapSetMultiple_spec s.freeMap x 1 false fits
  have back := Inv.giveBack h own unmade ⟨size, bits⟩
  rw [freeMapRelease, wp_bind, wp_state, wp_bind, all]
  change (protocol s0 f0 p0 name sizes).wp i Q (Prog.assert (true = true) >>= _) g s
  rw [wp_bind]
  refine wp_assert rfl ?_
  rw [wp_bind, set, h.mapFile.file]
  change (protocol s0 f0 p0 name sizes).wp i Q (bitmapWrite f0 >>= _) g { s with freeMap := b }
  rw [wp_bind]
  exact wp_bitmapWrite base (c := { c with owned := rest }) ⟨awake.label, awake.seen⟩ post back

omit awake in
theorem Runs.writeOwn (h : Runs s0 f0 p0 name i c g s) {x : Nat} (bs : List UInt8)
    (mem : x ∈ c.owned) (off : ∀ y n, c.made = some (y, n) → y ≠ x) (len : bs.length ≤ 512) :
    Runs s0 f0 p0 name i c g { s with device := s.device.write (512 * x) bs } := by
  have here : x ∈ (update g i c i).owned := by simpa using mem
  refine Inv.write h len (h.owned_ne here base.inode_bit) (h.owned_ne here base.entries_bit)
    fun j y n e => ?_
  by_cases same : j = i
  · subst same
    exact off y n (by simpa using e)
  · rintro rfl
    exact h.owned.apart j (Set.mem_univ j) i (Set.mem_univ i) same y (h.made j y n e).1 here

omit awake in
theorem Runs.own_lt (h : Runs s0 f0 p0 name i c g s) {x : Nat} (mem : x ∈ c.owned) :
    x < s.device.size := by
  have used := h.owned.used i (Set.mem_univ i) x (by simpa using mem)
  rw [h.size, ← base.bitCnt]
  exact used.1

theorem wp_zeroLoop {Q : Unit → (τ → Ghost) → FS → Prop} (start n k : Nat)
    (own : ∀ x, start + k ≤ x → x < start + k + n →
      x ∈ c.owned ∧ ∀ y m, c.made = some (y, m) → y ≠ x)
    (post : ∀ g s, Runs s0 f0 p0 name i c g s → Q () g s) (h : Runs s0 f0 p0 name i c g s) :
    (protocol s0 f0 p0 name sizes).wp i Q (zeroLoop start n k) g s := by
  induction n generalizing k g s with
  | zero => exact post g s h
  | succ n ih =>
    obtain ⟨mem, off⟩ := own (start + k) (Nat.le_refl _) (by omega)
    rw [zeroLoop, wp_bind]
    refine wp_blockWrite (h.own_lt base mem) ((h.across awake (by simp)).mono fun g s h => ?_)
    have zeroed := h.writeOwn base ((List.replicate sectorSize 0).take 512) mem off
      (List.length_take_le _ _)
    exact (zeroed.across awake (by simp)).mono fun g s h =>
      ih (k + 1) (fun x lo hi => own x (by omega) (by omega)) h

theorem wp_inodeCreateAt {x : Nat} (own : c.owned = [x]) (unmade : c.made = none)
    (unadded : c.added = false) {Q : Option Nat → (τ → Ghost) → FS → Prop}
    (full : ∀ g s, Runs s0 f0 p0 name i c g s → Q none g s)
    (found : ∀ start g s, Runs s0 f0 p0 name i { c with
        owned := x :: List.range' start (bytesToSectors (sizes i).toInt)
        made := some (x, ⟨start, (sizes i).toInt, inodeMagic⟩) } g s → Q (some start) g s)
    (h : Runs s0 f0 p0 name i c g s) :
    (protocol s0 f0 p0 name sizes).wp i Q (inodeCreateAt x (sizes i).toInt) g s := by
  rw [inodeCreateAt, wp_bind]
  by_cases pos : 0 ≤ (sizes i).toInt
  · refine wp_assert pos ?_
    rw [wp_bind]
    refine wp_malloc h.mapFile.mallocs ?_
    rw [if_pos rfl, wp_bind]
    refine wp_freeMapAllocate base awake _ full (fun start g s fits h => ?_) h
    rw [own] at h
    have taken : Ghost.Awake
        { c with owned := [x] ++ List.range' start (bytesToSectors (sizes i).toInt) } :=
      ⟨awake.label, awake.seen⟩
    have nodup := h.owned.nodup i (Set.mem_univ i)
    simp only [update_self, List.singleton_append] at nodup
    have here : x ∈ [x] ++ List.range' start (bytesToSectors (sizes i).toInt) := by simp
    simp only
    rw [wp_bind]
    refine wp_blockWrite (h.own_lt base here) ((h.across taken (by simp)).mono fun g s h => ?_)
    have cap := s0.freeMap.bitCnt_lt
    have hi := BitVec.toInt_lt (x := sizes i)
    have stored : diskInode (s.device.write (sectorSize * x)
        ((encodeInode ⟨start, (sizes i).toInt, inodeMagic⟩).take sectorSize)) x =
        ⟨start, (sizes i).toInt, inodeMagic⟩ := by
      rw [List.take_of_length_le (Nat.le_of_eq (encodeInode_length _)), diskInode,
        Device.write_data]
      have read := slice_splice s.device.data (sectorSize * x)
        (encodeInode ⟨start, (sizes i).toInt, inodeMagic⟩)
      rw [encodeInode_length] at read
      simp only [sectorSize] at read ⊢
      rw [read]
      exact decodeInode_encodeInode _ (by simp; omega) pos (by simpa using hi)
        (by simp [inodeMagic])
    have written := h.writeOwn base
      ((encodeInode ⟨start, (sizes i).toInt, inodeMagic⟩).take sectorSize) here
      (by simp [unmade]) (List.length_take_le _ _)
    have made := Inv.make written here stored unadded
    refine (Runs.across made ⟨awake.label, awake.seen⟩ (by simp)).mono fun g s h => ?_
    rw [wp_bind]
    refine wp_zeroLoop (c := { c with
        owned := x :: List.range' start (bytesToSectors (sizes i).toInt)
        made := some (x, ⟨start, (sizes i).toInt, inodeMagic⟩) }) base ⟨awake.label, awake.seen⟩
      start _ 0 (fun y lo hi => ?_) (fun g s h => found start g s h) h
    have mem : y ∈ List.range' start (bytesToSectors (sizes i).toInt) := by
      rw [List.mem_range'_1]
      omega
    refine ⟨List.mem_cons_of_mem x mem, fun z m e => ?_⟩
    simp only [Option.some.injEq, Prod.mk.injEq] at e
    rintro rfl
    exact (List.nodup_cons.mp nodup).1 (e.1 ▸ mem)
  · rw [Prog.assert, if_neg pos]
    exact ⟨by simpa [protocol] using pos, _, awake.label, h⟩

end Map

section Root

theorem wp_setInode {Q : Unit → (τ → Ghost) → FS → Prop} {q : Nat} {ino : Inode}
    (inode : s.inodes q = some ino) (f : Inode → Inode)
    (post : Q () g (FS.setInode s q (some (f ino)))) :
    (protocol s0 f0 p0 name sizes).wp i Q (Disk.setInode q f) g s := by
  change Q () g (FS.setInode s q ((s.inodes q).map f))
  rw [inode]
  exact post

theorem wp_dirOpen {Q : Option Dir → (τ → Ghost) → FS → Prop} {q : Nat} (mallocs : s.mallocs = [])
    (post : Q (some ⟨q, 0⟩) g s) :
    (protocol s0 f0 p0 name sizes).wp i Q (dirOpen (some q)) g s := by
  rw [dirOpen, wp_bind]
  exact wp_malloc mallocs post

/-- A call that begins while nobody reads the inode of the root directory. -/
theorem wp_dirOpenRoot {Q : Option Dir → (τ → Ghost) → FS → Prop} (base : Base s0) (awake : c.Awake)
    (unheld : c.root = none) (quiet : ∀ j, (update g i c j).label ≠ some (.read rootDirSector))
    (post : ∀ q g s, Runs s0 f0 p0 name i { c with root := some q } g s → Q (some ⟨q, 0⟩) g s)
    (h : Runs s0 f0 p0 name i c g s) : (protocol s0 f0 p0 name sizes).wp i Q dirOpenRoot g s := by
  rw [dirOpenRoot, wp_bind, inodeOpen, wp_bind, wp_state]
  cases h.root with
  | loading u q data cached here asleep others _ => exact absurd asleep (quiet u)
  | loaded q H cached holders others _ =>
    have counted := Inv.reopen h awake.seen unheld ⟨cached, holders, others, quiet⟩
    rw [cached.search]
    simp only [Option.map_some]
    rw [wp_bind, inodeReopen, wp_bind]
    exact wp_setInode (cached.inode q _ rfl).1 _
      (wp_dirOpen counted.mapFile.mallocs (post q _ _ counted))
  | closed cached all _ =>
    rw [cached.search]
    simp only [Option.map_none]
    rw [wp_bind]
    refine wp_malloc h.mapFile.mallocs ?_
    rw [if_pos rfl, wp_bind, wp_state, wp_bind, wp_modify, wp_bind]
    have room : rootDirSector < s.device.size := by
      rw [h.size]
      exact base.inode_lt
    refine wp_blockRead room ⟨_, ?_,
      Inv.openNew h _ awake.seen cached all quiet, fun g' s' own inv _ => ?_⟩
    · rfl
    have here : Inv s0 f0 p0 name (update g' i
        { c with root := some s.next, label := some (.read rootDirSector) }) s' := by
      rw [← own, update_eq_self]
      exact inv
    obtain ⟨ino, inode, loaded⟩ := here.load awake.seen rfl rfl
    simp only
    rw [wp_bind]
    refine wp_setInode inode _ (wp_dirOpen loaded.mapFile.mallocs (post s.next _ _ ?_))
    rw [Runs, awake.label]
    exact loaded

theorem wp_dirClose {Q : Unit → (τ → Ghost) → FS → Prop} {q : Nat} (awake : c.Awake)
    (held : c.root = some q) (ofs : Int)
    (post : ∀ g s, Runs s0 f0 p0 name i { c with root := none } g s → Q () g s)
    (h : Runs s0 f0 p0 name i c g s) :
    (protocol s0 f0 p0 name sizes).wp i Q (dirClose (some ⟨q, ofs⟩)) g s := by
  obtain ⟨H, mem, held⟩ :=
    Inv.root_loaded h (i := i) (by simpa using held) (by simpa using awake.off)
  rw [dirClose, inodeClose, wp_bind]
  refine wp_setInode (held.cached.inode q _ rfl).1 _ ?_
  rw [wp_bind]
  refine wp_getInode (update_self q _ _) ?_
  by_cases last : (H.card : Int) - 1 = 0
  · have closed := Inv.closeLast h awake.seen last mem held
    rw [if_pos last, wp_bind, wp_modify, wp_bind, releaseRemoved, if_neg (by simp)]
    refine post g _ ?_
    simpa [Runs, FS.setInode, FS.unlist] using closed
  · rw [if_neg last]
    exact post g _ (Inv.closeKeep h awake.seen mem held)

end Root

section Entries

variable {q : Nat}

/-- The call that `c` describes, in `dir_add`, with `d` the device when it began to search. -/
def Ghost.looking (c : Ghost) (r : Nat) (d : Device) (l : Sleep) : Ghost :=
  { c with seen := some (slice d.data (512 * r) 512), label := some l }

/-- The call reads the entries of the root directory, which were on `d` when it began. -/
abbrev Searches (s₀ : FS) (f₀ p₀ : Nat) (name : CString) (i : τ) (c : Ghost) (d : Device) :
    (τ → Ghost) → FS → Prop :=
  Runs s₀ f₀ p₀ name i (c.looking (rootStart s₀) d (.read (rootStart s₀)))

theorem Runs.rootHeld (h : Runs s0 f0 p0 name i c g s) (held : c.root = some q)
    (awake : c.label ≠ some (.read rootDirSector)) :
    ∃ H : Finset τ, i ∈ H ∧ HeldBy s0 s (update g i c) q H :=
  Inv.root_loaded h (by simpa using held) (by simpa using awake)

theorem Runs.dataAt (base : Base s0) (h : Runs s0 f0 p0 name i c g s) (held : c.root = some q)
    (awake : c.label ≠ some (.read rootDirSector)) :
    DataAt s q (rootStart s0) (entrySize * rootEntries) := by
  obtain ⟨H, -, held⟩ := h.rootHeld held awake
  refine ⟨_, ⟨(held.cached.inode q _ rfl).1, base.length, fun k lt => ?_, h.mapFile.mallocs⟩, rfl⟩
  have room := base.entries_lt
  simp only [entrySize, rootEntries] at lt
  rw [h.size, show k = 0 by omega]
  exact room

section Look

variable (base : Base s0) {d : Device} {l : Sleep}

include base

theorem Runs.look (awake : c.Awake) (h : Runs s0 f0 p0 name i c g s) :
    Searches s0 f0 p0 name i c s.device g s :=
  Inv.observe h awake.off (by simpa using base.entries_ne) fun bs e =>
    ⟨.inl rfl, Option.some.inj e⟩

theorem Runs.leave (awake : c.Awake)
    (h : Searches s0 f0 p0 name i c d g s) : Runs s0 f0 p0 name i c g s := by
  have left := Inv.observe h (by simpa [Ghost.looking] using base.entries_ne) (l := none) (by simp)
    (v := none) (by simp)
  have same : { c.looking (rootStart s0) d (.read (rootStart s0)) with seen := none, label := none } =
      c := by
    rw [Ghost.looking, ← awake.seen, ← awake.label]
  rwa [same] at left

omit base in
theorem Runs.agree (h : Runs s0 f0 p0 name i (c.looking (rootStart s0) d l) g s) :
    Agree d s.device (rootStart s0) :=
  (h.seen i _ (by simp [Ghost.looking])).2

theorem Runs.looks (h : Searches s0 f0 p0 name i c d g s)
    (held : c.root = some q) :
    DataAt s q (rootStart s0) (entrySize * rootEntries) ∧ ∀ y < entrySize * rootEntries,
      s.device.data (512 * rootStart s0 + y) = d.data (512 * rootStart s0 + y) := by
  refine ⟨Runs.dataAt base h held (by simpa [Ghost.looking] using base.entries_ne), fun y lt => ?_⟩
  simp only [entrySize, rootEntries] at lt
  exact h.agree.data (by omega) (by omega)

omit base in
theorem Runs.readEntries {k : Nat} (h : Searches s0 f0 p0 name i c d g s)
    (lt : 512 * k < entrySize * rootEntries) :
    (protocol s0 f0 p0 name sizes).Across i (.read (rootStart s0 + k))
    (Searches s0 f0 p0 name i c d) g s := by
  simp only [entrySize, rootEntries] at lt
  obtain rfl : k = 0 := by omega
  refine ⟨_, rfl, h, fun g' s' own inv _ => ?_⟩
  rw [Searches, Runs, ← own, update_eq_self]
  exact inv

theorem wp_freeSlot {Q : Nat × List UInt8 → (τ → Ghost) → FS → Prop} (held : c.root = some q)
    (ofs : Int)
    (full : ∀ g s bs, freeSlot d.data (rootStart s0) rootEntries = none →
      Searches s0 f0 p0 name i c d g s →
      Q (entrySize * rootEntries, bs) g s)
    (found : ∀ g s k, freeSlot d.data (rootStart s0) rootEntries = some k →
      Searches s0 f0 p0 name i c d g s →
      Q (entrySize * k, slotBytes d.data (rootStart s0) k) g s)
    (h : Searches s0 f0 p0 name i c d g s) :
    (protocol s0 f0 p0 name sizes).wp i Q
      (slotLoop ⟨q, ofs⟩ entryFuel 0 (List.replicate entrySize 0)) g s := by
  refine wp_slotLoop q rootEntries (rootStart s0) d.data
    (fun g s h => h.looks base held) (fun g s k h lt => h.readEntries lt) ⟨q, ofs⟩ rfl
    rootEntries 0 entryFuel _ (by simp) (by decide) (Nat.zero_add _) (fun g s bs h _ => ?_) g s h
  rw [← List.range_eq_range', ← freeSlot]
  cases slot : freeSlot d.data (rootStart s0) rootEntries with
  | none => exact full g s bs slot h
  | some k => exact found g s k slot h

theorem wp_rootWrite {Q : Int → (τ → Ghost) → FS → Prop} (held : c.root = some q)
    {buffer : FS → List UInt8} {size offset : Int} (h : Searches s0 f0 p0 name i c d g s)
    (rest : (protocol s0 f0 p0 name sizes).wp i Q
      (writeLoop q buffer size.toNat size offset 0 false) g s) :
    (protocol s0 f0 p0 name sizes).wp i Q (inodeWriteAt q buffer size offset) g s := by
  obtain ⟨H, -, held⟩ := h.rootHeld held (by simpa [Ghost.looking] using base.entries_ne)
  rw [inodeWriteAt, wp_bind]
  exact wp_getInode (held.cached.inode q _ rfl).1 rest

theorem Runs.prepare (h : Searches s0 f0 p0 name i c d g s) :
    (protocol s0 f0 p0 name sizes).Across i (.write (rootStart s0)) (fun g s =>
      Runs s0 f0 p0 name i (c.looking (rootStart s0) d (.write (rootStart s0))) g s ∧
        ∀ j, j ≠ i → (g j).seen = none) g s := by
  have still := h.agree
  refine ⟨c.looking (rootStart s0) d (.write (rootStart s0)), rfl, ?_, fun g' s' own inv apart => ?_⟩
  · exact Inv.observe h (by simpa [Ghost.looking] using base.entries_ne) (by simp) fun bs e =>
      ⟨.inr rfl, Eq.trans still (Option.some.inj e)⟩
  · refine ⟨by rw [Runs, ← own, update_eq_self]; exact inv, fun j ne => ?_⟩
    by_contra some
    obtain ⟨bs, seen⟩ := Option.ne_none_iff_exists'.mp some
    refine apart.2 ?_ j ne (inv.seen j bs seen).1
    simp only [protocol, own, Ghost.looking]

variable {x k : Nat} {n : InodeDisk} {e : DirEntry} (awake : c.Awake) (made : c.made = some (x, n))

section Store

variable (absent : ∀ k' < rootEntries, (slotEntry d.data (rootStart s0) k').isFor name = false)
  (lt : k < rootEntries) (hit : e.isFor name = true) (sector : e.inodeSector = x)
  (len : e.name.length = nameMax + 1)
include awake made absent lt hit sector len

theorem Runs.store (alone : ∀ j, j ≠ i → (g j).seen = none)
    (h : Runs s0 f0 p0 name i (c.looking (rootStart s0) d (.write (rootStart s0))) g s) :
    (protocol s0 f0 p0 name sizes).Across i (.written (rootStart s0))
    (Runs s0 f0 p0 name i { c with added := true }) g { s with
        device := s.device.write (512 * rootStart s0 + entrySize * k) (encodeEntry e) } := by
  have still := h.agree
  have stored := Inv.commit h base (l := some (.written (rootStart s0))) made alone
    (fun k' lt' => by rw [slotEntry_congr still lt']; exact absent k' lt') lt hit sector len
    (by simp [Ghost.looking]) (by simp)
  refine ⟨_, ?_, stored, fun g' s' own inv _ => ?_⟩
  · rfl
  have here : Inv s0 f0 p0 name (update g' i
      { c with seen := none, added := true, label := some (.written (rootStart s0)) }) s' := by
    rw [show ({ c with
        seen := none, added := true, label := some (.written (rootStart s0)) } : Ghost) = g' i
      from own.symm, update_eq_self]
    exact inv
  have woken := here.relabel rfl (by simp) (l := none) (by simp)
  rwa [← awake.label, ← awake.seen] at woken

theorem wp_writeEntry {Q : Int → (τ → Ghost) → FS → Prop} (held : c.root = some q)
    (post : ∀ g s, Runs s0 f0 p0 name i { c with added := true } g s → Q entrySize g s)
    (h : Searches s0 f0 p0 name i c d g s) :
    (protocol s0 f0 p0 name sizes).wp i Q
      (inodeWriteAt q (fun _ => encodeEntry e) entrySize ((entrySize * k : Nat) : Int)) g s := by
  have full := encodeEntry_length e len
  have inside : entrySize * k + entrySize ≤ entrySize * rootEntries := by
    simp only [entrySize, rootEntries] at lt ⊢
    omega
  have first : (entrySize * k + 0) / 512 = 0 ∧ (entrySize * k + 0) % 512 = entrySize * k := by
    simp only [entrySize, rootEntries] at inside ⊢
    omega
  have whole : ∀ m, Chunk (entrySize * rootEntries) (entrySize * k) entrySize 0 m →
      m = entrySize := fun m round => by
    have pos := round.pos
    have fits := round.fits
    have ends := round.ends
    simp only [entrySize, rootEntries] at *
    omega
  refine wp_rootWrite base held h ?_
  refine wp_writeLoop q (entrySize * rootEntries) (rootStart s0) (entrySize * k) entrySize
    (fun _ => encodeEntry e)
    (A := fun m g s => m = 0 ∧
        Searches s0 f0 p0 name i c d g s ∨
      m = entrySize ∧ Runs s0 f0 p0 name i { c with added := true } g s)
    (B := fun m w bs g s => m = 0 ∧ w = entrySize ∧
      bs = overlay (slice s.device.data (512 * rootStart s0) 512) (entrySize * k) (encodeEntry e) ∧
      Runs s0 f0 p0 name i (c.looking (rootStart s0) d (.write (rootStart s0))) g s ∧
      ∀ j, j ≠ i → (g j).seen = none)
    (fun m g s here => ?_) (fun m g s here less => ?_) (fun m w g s here round => ?_)
    (fun m w bs g s here round => ?_) (fun m g s _ small => by simp only [entrySize] at small; omega)
    _ _ 0 false (Nat.le_refl _) ?_ (fun g s here => ?_) g s (.inl ⟨rfl, h⟩)
  · rcases here with ⟨-, h⟩ | ⟨-, h⟩
    · exact (h.looks base held).1
    · exact Runs.dataAt base h held awake.off
  · rcases here with ⟨rfl, h⟩ | ⟨rfl, h⟩
    · rw [first.1]
      exact (h.readEntries (by simp [entrySize, rootEntries])).mono fun g s h => .inl ⟨rfl, h⟩
    have zero : (entrySize * k + entrySize) / 512 = 0 := by
      simp only [entrySize, rootEntries] at less ⊢
      omega
    rw [zero]
    exact (h.across ⟨awake.label, awake.seen⟩ (by simpa using base.entries_ne)).mono fun g s h =>
      .inr ⟨rfl, h⟩
  · rcases here with ⟨rfl, h⟩ | ⟨rfl, -⟩
    · obtain rfl := whole w round
      have old := h.agree
      rw [first.1, first.2]
      refine (Runs.prepare base h).mono fun g' s' later => ⟨rfl, rfl, ?_, later⟩
      have same : slice s.device.data (512 * rootStart s0) 512 =
          slice s'.device.data (512 * rootStart s0) 512 := Eq.trans old later.1.agree.symm
      rw [Nat.add_zero, same, List.drop_zero, List.take_of_length_le (Nat.le_of_eq full)]
    · have pos := round.pos
      have bound := round.bound
      omega
  · obtain ⟨rfl, rfl, rfl, h, alone⟩ := here
    have fits : entrySize * k + (encodeEntry e).length ≤ 512 := by
      rw [full]
      simp only [entrySize, rootEntries] at inside ⊢
      omega
    have size : (overlay (slice s.device.data (512 * rootStart s0) 512) (entrySize * k)
        (encodeEntry e)).length = 512 := by
      rw [overlay_length _ _ _ (by rw [slice_length]; exact fits), slice_length]
    rw [first.1, Nat.add_zero, List.take_of_length_le (Nat.le_of_eq size), Device.write,
      splice_overlay _ _ _ _ _ fits]
    exact (Runs.store base awake made absent lt hit sector len alone h).mono fun g s h =>
      .inr ⟨Nat.zero_add _, h⟩
  · simp only [ioCount, entrySize, rootEntries, Int.toNat_natCast] at lt ⊢
    omega
  · rcases here with ⟨bad, -⟩ | ⟨-, h⟩
    · exact absurd bad (by decide)
    · exact post g s h

end Store

include awake made in
/-- `dir_add` alone in the directory: the entry is stored, or nothing changes. -/
theorem wp_dirAdd {Q : Bool → (τ → Ghost) → FS → Prop} (held : c.root = some q) (ofs : Int)
    (refused : ∀ g s, Runs s0 f0 p0 name i c g s → Q false g s)
    (stored : ∀ g s, Runs s0 f0 p0 name i { c with added := true } g s → Q true g s)
    (h : Runs s0 f0 p0 name i c g s) :
    (protocol s0 f0 p0 name sizes).wp i Q (dirAdd ⟨q, ofs⟩ name x) g s := by
  rw [dirAdd]
  by_cases bad : name.val = [] ∨ nameMax < name.val.length
  · rw [if_pos bad]
    exact refused g s h
  have looks := h.look base awake
  generalize s.device = d at looks
  rw [if_neg bad, wp_bind]
  refine wp_lookupLoop q rootEntries (rootStart s0) d.data (fun g s h => h.looks base held)
    (fun g s k h lt => h.readEntries lt) ⟨q, ofs⟩ rfl name rootEntries 0 entryFuel (by decide)
    (Nat.zero_add _) (fun g s h => ?_) g s looks
  rw [← List.range_eq_range', ← slotOf]
  cases slot : slotOf d.data (rootStart s0) rootEntries name with
  | some k => exact refused g s (h.leave base awake)
  | none =>
    have absent : ∀ k' < rootEntries, (slotEntry d.data (rootStart s0) k').isFor name = false :=
      fun k' lt' => by simpa using List.find?_eq_none.mp slot k' (List.mem_range.mpr lt')
    simp only [Option.map_none]
    rw [wp_bind]
    refine wp_freeSlot base held ofs (fun g s bs _ h => ?_) (fun g s k free h => ?_) h
    · simp only
      rw [wp_bind]
      -- past the last entry nothing is written
      refine wp_rootWrite base held h ?_
      exact wp_writeLoop q (entrySize * rootEntries) (rootStart s0) (entrySize * rootEntries) 0 _
        (A := fun _ => Searches s0 f0 p0 name i c d) (B := fun _ _ _ _ _ => False)
        (fun _ g s h => (h.looks base held).1) (fun k g s _ lt => by omega)
        (fun k n g s _ round => by have := round.pos; have := round.fits; omega)
        (fun k n bs g s bad _ => bad.elim) (fun k g s _ _ _ fits => by omega)
        _ _ 0 false (Nat.le_refl _) (by simp [ioCount])
        (fun g s h => refused g s (h.leave base awake)) g s h
    have valid := addedEntry_name_length _ name x
      (show (slotBytes d.data (rootStart s0) k).length = entrySize by simp [slotBytes])
    simp only
    rw [wp_bind]
    exact wp_writeEntry base awake made absent (freeSlot_eq_some free).1
      (by simp [DirEntry.isFor, addedEntry, stored_strlcpy _ name (nameMax + 1) (by omega)]) rfl valid held (fun g s h => stored g s h) h

end Look

end Entries

end Rules

end Pintos.ConcurrentCreate
