import Pintos.CallCreate
import Mathlib.Data.Finset.Card

/-! Several processes create a file of one name at the same time. Each call sleeps in the
block layer, and no lock is held between the search of the directory and the write of
the new entry. A call is followed with the sectors it has taken, its reference to the
inode of the root directory, what it has read of the directory, the inode it has made
and whether its entry is written. -/

namespace Pintos.ConcurrentCreate

open Function
open Resumption ByteStore Bitmap Disk InodeIO Inode Directory Filesys Ownership Volume Calls
  CallCreate
open Set (mem_univ)

/-- `inode_create`, with the first data sector of the new inode. -/
def inodeCreateAt (sector : Nat) (length : Int) : Code (Option Nat) := do
  Prog.assert (0 ≤ length)
  let ok ← malloc
  if ok then do
    let sectors := bytesToSectors length
    match ← freeMapAllocate sectors with
    | none => pure none
    | some start => do
      blockWrite sector fun _ => encodeInode ⟨start, length, inodeMagic⟩
      zeroLoop start sectors 0
      pure (some start)
  else pure none

def createChainAt (dir : Option Dir) (name : CString) (initialSize : Int) :
    Code (Bool × Nat × List Nat) :=
  match dir with
  | none => pure (false, 0, [])
  | some dir => do
    match ← freeMapAllocate 1 with
    | none => pure (false, 0, [])
    | some inodeSector => do
      match ← inodeCreateAt inodeSector initialSize with
      | some start => do
        let added ← dirAdd dir name inodeSector
        pure (added, inodeSector, List.range' start (bytesToSectors initialSize))
      | none => pure (false, inodeSector, [])

/-- `filesys_create`, with the sectors of the inode it made that it has not given back. -/
def filesysCreateAt (name : CString) (initialSize : Int) : Code (Bool × List Nat) := do
  let dir ← dirOpenRoot
  let (success, inodeSector, data) ← createChainAt dir name initialSize
  createUndo success inodeSector
  dirClose dir
  pure (success, if success then inodeSector :: data else data)

/-- The size is unsigned in the call and signed in the file system. -/
def sysCreate (file : CString) (initialSize : BitVec 32) : Code Bool :=
  filesysCreate file initialSize.toInt

def sysCreateAt (file : CString) (initialSize : BitVec 32) : Code (Bool × List Nat) :=
  filesysCreateAt file initialSize.toInt

section Forget
attribute [local instance] Prog.lawfulMonad

theorem inodeCreateAt_isSome (sector : Nat) (length : Int) :
    (do let r ← inodeCreateAt sector length; pure r.isSome) = inodeCreate sector length := by
  simp only [inodeCreateAt, inodeCreate, bind_assoc]
  congr 1
  funext _
  congr 1
  funext ok
  cases ok with
  | false => simp
  | true =>
    simp only [if_true, bind_assoc]
    congr 1
    funext start
    cases start <;> simp

theorem createChainAt_forget (dir : Option Dir) (name : CString) (size : Int) :
    (do let r ← createChainAt dir name size; pure (r.1, r.2.1)) = createChain dir name size := by
  cases dir with
  | none => simp [createChainAt, createChain]
  | some dir =>
    simp only [createChainAt, createChain, bind_assoc, ← inodeCreateAt_isSome]
    congr 1
    funext sector
    cases sector with
    | none => simp
    | some sector =>
      simp only [bind_assoc, pure_bind]
      congr 1
      funext start
      cases start <;> simp

theorem sysCreateAt_fst (file : CString) (size : BitVec 32) :
    (do let r ← sysCreateAt file size; pure r.1) = sysCreate file size := by
  simp only [sysCreateAt, sysCreate, filesysCreateAt, filesysCreate, bind_assoc, pure_bind,
    ← createChainAt_forget]

end Forget

def rootStart (s : FS) : Nat := (diskInode s.device rootDirSector).start

/-- What one call has done so far. -/
structure Ghost where
  label : Option Sleep
  owned : List Nat
  /-- Its reference to the inode of the root directory. -/
  root : Option Nat
  /-- The directory as it found it, from its first read to its write. -/
  seen : Option (List UInt8)
  made : Option (Nat × InodeDisk)
  added : Bool

def Ghost.start : Ghost := ⟨some .call, [], none, none, none, false⟩

/-- Asleep in `dir_add`, before the write of the entry. -/
def Inside (r : Nat) (label : Option Sleep) : Prop :=
  label = some (.read r) ∨ label = some (.write r)

variable {τ : Type}

/-- A call begins while no other one is asleep in `inode_open` of the root directory, and
an entry is written while no other call is asleep in `dir_add` before its write. -/
def Apart (r : Nat) (labels : τ → Option Sleep) (i : τ) : Prop :=
  (labels i = some .call → ∀ j, labels j ≠ some (.read rootDirSector)) ∧
    (labels i = some (.write r) → ∀ j, j ≠ i → ¬Inside r (labels j))

/-- The inode of the root directory is closed, being read by call `u`, or held by `H`. -/
inductive RootView (s₀ s : FS) (g : τ → Ghost) : Prop where
  | closed (cached : Cached rootDirSector s₀.openInodes s none)
      (all : ∀ i, (g i).root = none) (awake : ∀ i, (g i).label ≠ some (.read rootDirSector))
  | loading (u : τ) (q : Nat) (data : InodeDisk)
      (cached : Cached rootDirSector s₀.openInodes s (some (q, ⟨rootDirSector, 1, false, 0, data⟩)))
      (here : (g u).root = some q) (asleep : (g u).label = some (.read rootDirSector))
      (others : ∀ i, i ≠ u → (g i).root = none)
      (awake : ∀ i, i ≠ u → (g i).label ≠ some (.read rootDirSector))
  | loaded (q : Nat) (H : Finset τ)
      (cached : Cached rootDirSector s₀.openInodes s
        (some (q, ⟨rootDirSector, H.card, false, 0, diskInode s₀.device rootDirSector⟩)))
      (holders : ∀ i ∈ H, (g i).root = some q) (others : ∀ i, i ∉ H → (g i).root = none)
      (awake : ∀ i, (g i).label ≠ some (.read rootDirSector))

/-- The state of the file system while calls that create `name` are under way, begun in
state `s0`. -/
structure Inv (s₀ : FS) (f₀ p₀ : Nat) (name : CString) (g : τ → Ghost) (s : FS) : Prop where
  mapFile : MapFile s f₀ p₀ (mapStart s₀)
  bitCnt : s.freeMap.bitCnt = s₀.freeMap.bitCnt
  size : s.device.size = s₀.device.size
  fresh : ∀ p, s.next ≤ p → s.inodes p = none
  marked : ∀ x, s₀.freeMap.bit x = true → s.freeMap.bit x = true
  owned : Owned (fun x => x < s₀.freeMap.bitCnt ∧ s₀.freeMap.bit x = false ∧
    s.freeMap.bit x = true) Set.univ fun i => (g i).owned
  rootInode : Agree s₀.device s.device rootDirSector
  made : ∀ i x n, (g i).made = some (x, n) → x ∈ (g i).owned ∧ diskInode s.device x = n
  added : ∀ i, (g i).added = true → (∀ j, (g j).added = true → j = i) ∧ ∃ k < rootEntries,
    (∀ k' < rootEntries, (slotEntry s.device.data (rootStart s₀) k').isFor name = true ↔ k' = k) ∧
      ∃ n, (g i).made = some ((slotEntry s.device.data (rootStart s₀) k).inodeSector, n)
  seen : ∀ i bs, (g i).seen = some bs →
    Inside (rootStart s₀) (g i).label ∧ slice s.device.data (512 * rootStart s₀) 512 = bs
  root : RootView s₀ s g

attribute [local irreducible] slice splice
variable {x q : Nat} {l : Option Sleep} {b : Bits} {ino : Inode}

section Frame

variable {s0 s s' : FS} {f0 p0 : Nat} {name : CString} {g g' : τ → Ghost}

theorem RootView.congr (h : RootView s0 s g) (inodes : s'.inodes = s.inodes)
    (opens : s'.openInodes = s.openInodes) (next : s'.next = s.next)
    (root : ∀ i, (g' i).root = (g i).root)
    (asleep : ∀ i, (g' i).label = some (.read rootDirSector) ↔
      (g i).label = some (.read rootDirSector)) : RootView s0 s' g' := by
  have awake : ∀ i, (g i).label ≠ some (.read rootDirSector) →
      (g' i).label ≠ some (.read rootDirSector) := fun i ne e => ne ((asleep i).mp e)
  cases h with
  | closed cached all quiet =>
    exact .closed (cached.congr inodes opens next) (fun i => by rw [root, all])
      fun i => awake i (quiet i)
  | loading u q data cached here sleeps others quiet =>
    exact .loading u q data (cached.congr inodes opens next) (by rw [root, here])
      ((asleep u).mpr sleeps) (fun i ne => by rw [root, others i ne])
      fun i ne => awake i (quiet i ne)
  | loaded q H cached holders others quiet =>
    exact .loaded q H (cached.congr inodes opens next) (fun i mem => by rw [root, holders i mem])
      (fun i not => by rw [root, others i not]) fun i => awake i (quiet i)

theorem Inv.remember (h : Inv s0 f0 p0 name g s) (owned : ∀ i, (g' i).owned = (g i).owned)
    (made : ∀ i x, (g' i).made = some x → (g i).made = some x)
    (added : ∀ i, (g' i).added = true → (g i).added = true ∧ (g' i).made = (g i).made)
    (seen : ∀ i bs, (g' i).seen = some bs →
      Inside (rootStart s0) (g' i).label ∧ slice s.device.data (512 * rootStart s0) 512 = bs)
    (root : RootView s0 s g') : Inv s0 f0 p0 name g' s :=
  { h with
    owned := by simpa only [owned] using h.owned
    made := fun i x n e => by
      rw [owned]
      exact h.made i x n (made i _ e)
    added := fun i e => by
      obtain ⟨was, same⟩ := added i e
      obtain ⟨only, k, lt, slots, n, inode⟩ := h.added i was
      exact ⟨fun j e' => only j (added j e').1, k, lt, slots, n, same.trans inode⟩
    seen := seen
    root := root }

theorem slotEntry_congr {d d' : Device} {r k : Nat} (h : Agree d d' r) (lt : k < rootEntries) :
    slotEntry d'.data r k = slotEntry d.data r k := by
  simp only [rootEntries] at lt
  simp only [slotEntry, slotBytes]
  congr 1
  refine slice_congr fun y lo hi => h.data (by omega) ?_
  simp only [entrySize] at hi
  omega

theorem Inv.write (h : Inv s0 f0 p0 name g s) {bs : List UInt8} (len : bs.length ≤ 512)
    (inode : x ≠ rootDirSector) (dir : x ≠ rootStart s0)
    (off : ∀ i y n, (g i).made = some (y, n) → y ≠ x) :
    Inv s0 f0 p0 name g { s with device := s.device.write (512 * x) bs } := by
  have same : ∀ y, y ≠ x → Agree s.device (s.device.write (512 * x) bs) y := fun y ne =>
    agree_write _ (by omega)
  have entries : Agree s.device (s.device.write (512 * x) bs) (rootStart s0) := same _ (Ne.symm dir)
  exact { h with
    mapFile := { h.mapFile with }
    rootInode := h.rootInode.trans (same _ (Ne.symm inode))
    made := fun i y n e => by
      obtain ⟨mem, was⟩ := h.made i y n e
      exact ⟨mem, (diskInode_congr (same y (off i y n e))).trans was⟩
    added := fun i e => by
      obtain ⟨only, k, lt, slots, n, made⟩ := h.added i e
      refine ⟨only, k, lt, fun k' lt' => ?_, n, ?_⟩
      · rw [slotEntry_congr entries lt']
        exact slots k' lt'
      · rw [slotEntry_congr entries lt]
        exact made
    seen := fun i bs e => ⟨(h.seen i bs e).1, Eq.trans entries (h.seen i bs e).2⟩
    root := h.root.congr rfl rfl rfl (fun _ => rfl) fun _ => Iff.rfl }

end Frame

section Step

variable [DecidableEq τ] {s0 s s' : FS} {f0 p0 : Nat} {name : CString} {g : τ → Ghost} {i : τ}
  {c c' : Ghost}

theorem update_field {β : Type} (f : Ghost → β) (same : f c' = f c) (j : τ) :
    f (update g i c' j) = f (update g i c j) := by
  by_cases here : j = i
  · subst here
    simpa using same
  · simp [here]

theorem Inv.observe (h : Inv s0 f0 p0 name (update g i c) s)
    (awake : c.label ≠ some (.read rootDirSector)) (off : l ≠ some (.read rootDirSector))
    {v : Option (List UInt8)}
    (sees : ∀ bs, v = some bs → Inside (rootStart s0) l ∧
      slice s.device.data (512 * rootStart s0) 512 = bs) :
    Inv s0 f0 p0 name (update g i { c with seen := v, label := l }) s := by
  have made : ∀ j, (update g i { c with seen := v, label := l } j).made =
      (update g i c j).made := update_field Ghost.made rfl
  have added : ∀ j, (update g i { c with seen := v, label := l } j).added =
      (update g i c j).added := update_field Ghost.added rfl
  refine h.remember (update_field Ghost.owned rfl) (fun j x e => (made j).symm.trans e)
    (fun j e => ⟨(added j).symm.trans e, made j⟩) (fun j bs e => ?_)
    (h.root.congr rfl rfl rfl (update_field Ghost.root rfl) fun j => ?_)
  · by_cases here : j = i
    · subst here
      simp only [update_self] at e ⊢
      exact sees bs e
    · have old := h.seen j bs
      simp only [ne_eq, here, not_false_eq_true, update_of_ne] at e old ⊢
      exact old e
  · by_cases here : j = i
    · subst here
      simp [awake, off]
    · simp [here]

theorem Inv.relabel (h : Inv s0 f0 p0 name (update g i c) s) (plain : c.seen = none)
    (awake : c.label ≠ some (.read rootDirSector)) (off : l ≠ some (.read rootDirSector)) :
    Inv s0 f0 p0 name (update g i { c with label := l }) s := by
  have moved := h.observe awake off (v := none) (by simp)
  rwa [← plain] at moved

theorem owned_update : (fun j => (update g i c' j).owned) =
    update (fun j => (update g i c j).owned) i c'.owned := by
  funext j
  by_cases here : j = i
  · subst here
    simp
  · simp [here]

section

variable (h : Inv s0 f0 p0 name (update g i c) s)
include h

theorem Inv.remap {o : List Nat} (cnt : b.bitCnt = s.freeMap.bitCnt)
    (marked : ∀ x, s0.freeMap.bit x = true → b.bit x = true)
    (owned : Owned (fun x => x < s0.freeMap.bitCnt ∧ s0.freeMap.bit x = false ∧ b.bit x = true)
      Set.univ (update (fun j => (update g i c j).owned) i o))
    (holds : ∀ x n, c.made = some (x, n) → x ∈ o) :
    Inv s0 f0 p0 name (update g i { c with owned := o }) { s with freeMap := b } := by
  have field {β : Type} (f : Ghost → β) (same : f { c with owned := o } = f c) (j : τ) :=
    update_field (g := g) (i := i) f same j
  exact { h with
    mapFile := h.mapFile.withMap cnt
    bitCnt := cnt.trans h.bitCnt
    marked := marked
    owned := by
      rw [owned_update (c := c)]
      exact owned
    made := fun j x n e => by
      rw [field Ghost.made rfl] at e
      obtain ⟨mem, stored⟩ := h.made j x n e
      refine ⟨?_, stored⟩
      by_cases here : j = i
      · subst here
        simpa using holds x n (by simpa using e)
      · simpa [here] using mem
    added := by simpa only [field Ghost.added rfl, field Ghost.made rfl] using h.added
    seen := by simpa only [field Ghost.seen rfl, field Ghost.label rfl] using h.seen
    root := h.root.congr rfl rfl rfl (field Ghost.root rfl) fun j => by
      rw [field Ghost.label rfl] }

theorem Inv.take {start cnt : Nat} (run : s.freeMap.Run start cnt false)
    (fill : Filled s.freeMap b start cnt true) :
    Inv s0 f0 p0 name (update g i { c with owned := c.owned ++ List.range' start cnt })
    { s with freeMap := b } := by
  have more : ∀ x, s.freeMap.bit x = true → b.bit x = true := fun x used => by
    rw [fill.bit, used]
    exact ite_self true
  have own := h.owned.nodup i (mem_univ i)
  have used := h.owned.used i (mem_univ i)
  simp only [update_self] at own used
  refine h.remap fill.bitCnt (fun x old => more x (h.marked x old)) ?_ fun x n e => ?_
  · refine h.owned.update (i := i) ?_ (fun x mem => ?_) (mem_univ i)
      (fun _ _ _ x _ u => ⟨u.1, u.2.1, more x u.2.2⟩) fun x mem => ?_
    · refine own.append List.nodup_range' fun x mem mem' => ?_
      have clear := run.2 x (List.mem_range'_1.mp mem').1 (List.mem_range'_1.mp mem').2
      have marked := (used x mem).2.2
      simp [clear] at marked
    · rcases List.mem_append.mp mem with old | new
      · exact .inl (by simpa using old)
      · have clear := run.2 x (List.mem_range'_1.mp new).1 (List.mem_range'_1.mp new).2
        exact .inr fun u => by simp [clear] at u
    · rcases List.mem_append.mp mem with old | new
      · exact ⟨(used x old).1, (used x old).2.1, more x (used x old).2.2⟩
      obtain ⟨lo, hi⟩ := List.mem_range'_1.mp new
      have clear := run.2 x lo hi
      have fits := run.1
      have cnt' := h.bitCnt
      refine ⟨by omega, Bool.eq_false_iff.mpr fun old => ?_, by rw [fill.bit, if_pos ⟨lo, hi⟩]⟩
      simp [h.marked x old] at clear
  · exact List.mem_append_left _ (by simpa using (h.made i x n (by simpa using e)).1)

theorem Inv.giveBack {rest : List Nat} (own : c.owned = x :: rest) (unmade : c.made = none)
    (fill : Filled s.freeMap b x 1 false) :
    Inv s0 f0 p0 name (update g i { c with owned := rest }) { s with freeMap := b } := by
  have nodup := h.owned.nodup i (mem_univ i)
  have used := h.owned.used i (mem_univ i)
  simp only [update_self, own] at nodup used
  have other : ∀ y, y ≠ x → s.freeMap.bit y = true → b.bit y = true := fun y ne u => by
    rw [filled_one fill, if_neg ne, u]
  refine h.remap fill.bitCnt (fun y old => other y (fun e => ?_) (h.marked y old)) ?_
    fun y n e => (by cases unmade.symm.trans e)
  · have clear := (used x List.mem_cons_self).2.1
    simp [← e, old] at clear
  refine h.owned.update (i := i) (List.nodup_cons.mp nodup).2 (fun y mem => .inl ?_)
    (mem_univ i) (fun j _ ne y mem u => ⟨u.1, u.2.1, other y (fun e => ?_) u.2.2⟩)
    fun y mem => ?_
  · simp only [update_self, own]
    exact List.mem_cons_of_mem x mem
  · refine h.owned.apart j (mem_univ j) i (mem_univ i) ne y mem ?_
    simp [own, e]
  · have u := used y (List.mem_cons_of_mem x mem)
    exact ⟨u.1, u.2.1, other y (fun e => (List.nodup_cons.mp nodup).1 (e ▸ mem)) u.2.2⟩

theorem Inv.make {n : InodeDisk} (mem : x ∈ c.owned) (stored : diskInode s.device x = n)
    (unadded : c.added = false) :
    Inv s0 f0 p0 name (update g i { c with made := some (x, n) }) s := by
  have field {β : Type} (f : Ghost → β) (same : f { c with made := some (x, n) } = f c) (j : τ) :=
    update_field (g := g) (i := i) f same j
  exact { h with
    owned := by
      rw [owned_update (c := c), update_eq_self_iff.mpr (by simp)]
      exact h.owned
    made := fun j y m e => by
      by_cases here : j = i
      · subst here
        simp only [update_self, Option.some.injEq, Prod.mk.injEq] at e ⊢
        exact ⟨e.1 ▸ mem, e.1 ▸ e.2 ▸ stored⟩
      · have old := h.made j y m
        simp only [ne_eq, here, not_false_eq_true, update_of_ne] at e old ⊢
        exact old e
    added := fun j e => by
      rw [field Ghost.added rfl] at e
      obtain ⟨only, entry⟩ := h.added j e
      refine ⟨fun j' e' => only j' ((field Ghost.added rfl j').symm.trans e'), ?_⟩
      have ne : j ≠ i := fun e' => by
        subst e'
        simp [unadded] at e
      simpa only [ne_eq, ne, not_false_eq_true, update_of_ne] using entry
    seen := by simpa only [field Ghost.seen rfl, field Ghost.label rfl] using h.seen
    root := h.root.congr rfl rfl rfl (field Ghost.root rfl) fun j => by
      rw [field Ghost.label rfl] }

theorem Inv.forget (unadded : c.added = false) :
    Inv s0 f0 p0 name (update g i { c with made := none }) s := by
  refine h.remember (update_field Ghost.owned rfl) (fun j x e => ?_) (fun j e => ?_)
    (fun j bs e => ?_) (h.root.congr rfl rfl rfl (update_field Ghost.root rfl) fun j =>
      Eq.congr_left (update_field Ghost.label (by rfl) j))
  · by_cases here : j = i
    · subst here
      simp at e
    · simpa [here] using e
  · have ne : j ≠ i := fun e' => by
      subst e'
      simp [unadded] at e
    simpa [ne] using e
  · by_cases here : j = i
    · subst here
      simpa using h.seen j bs (by simpa using e)
    · simpa [here] using h.seen j bs (by simpa [here] using e)

end

section Root

omit [DecidableEq τ] in
theorem Inv.root_ne (h : Inv s0 f0 p0 name g s)
    (cached : Cached rootDirSector s0.openInodes s (some (q, ino))) : q ≠ p0 := by
  rintro rfl
  obtain ⟨inode, here⟩ := cached.inode q ino rfl
  have map := h.mapFile.inode
  rw [inode, Option.some.injEq] at map
  rw [map] at here
  exact absurd here (show freeMapSector ≠ rootDirSector by decide)

omit [DecidableEq τ] in
theorem Inv.root_lt (h : Inv s0 f0 p0 name g s) (inode : s.inodes q = some ino) : q < s.next := by
  by_contra past
  have none := h.fresh q (by omega)
  simp [inode] at none

omit [DecidableEq τ] in
theorem Inv.fresh_set (h : Inv s0 f0 p0 name g s) (inode : s.inodes q = some ino)
    (new : Option Inode) :
    ∀ p, (FS.setInode s q new).next ≤ p → (FS.setInode s q new).inodes p = none := by
  intro p le
  have lt := h.root_lt inode
  have past : s.next ≤ p := le
  simp only [FS.setInode, update_of_ne (show p ≠ q by omega)]
  exact h.fresh p le

theorem Inv.retable (h : Inv s0 f0 p0 name (update g i c) s) (device : s'.device = s.device)
    (freeMap : s'.freeMap = s.freeMap) (mapFile : MapFile s' f0 p0 (mapStart s0))
    (fresh : ∀ p, s'.next ≤ p → s'.inodes p = none) (owned : c'.owned = c.owned)
    (made : c'.made = c.made) (added : c'.added = c.added) (plain : c'.seen = none)
    (root : RootView s0 s' (update g i c')) : Inv s0 f0 p0 name (update g i c') s' where
  mapFile := mapFile
  bitCnt := by rw [freeMap, h.bitCnt]
  size := by rw [device, h.size]
  fresh := fresh
  marked := by simpa only [freeMap] using h.marked
  owned := by simpa only [freeMap, update_field Ghost.owned owned] using h.owned
  rootInode := by simpa only [device] using h.rootInode
  made := by
    simpa only [device, update_field Ghost.made made, update_field Ghost.owned owned] using h.made
  added := by
    simpa only [device, update_field Ghost.made made, update_field Ghost.added added] using h.added
  seen j bs e := by
    rw [device]
    by_cases here : j = i
    · subst here
      simp [plain] at e
    · have old := h.seen j bs
      simp only [ne_eq, here, not_false_eq_true, update_of_ne] at e old ⊢
      exact old e
  root := root

/-- The holders of the inode of the root directory, which has been read. -/
structure HeldBy (s₀ s : FS) (g : τ → Ghost) (q : Nat) (H : Finset τ) : Prop where
  cached : Cached rootDirSector s₀.openInodes s
    (some (q, ⟨rootDirSector, H.card, false, 0, diskInode s₀.device rootDirSector⟩))
  holders : ∀ i ∈ H, (g i).root = some q
  others : ∀ i, i ∉ H → (g i).root = none
  awake : ∀ i, (g i).label ≠ some (.read rootDirSector)

theorem awake_kept (awake : ∀ j, (update g i c j).label ≠ some (.read rootDirSector))
    (same : c'.label = c.label) (j : τ) : (update g i c' j).label ≠ some (.read rootDirSector) := by
  rw [update_field Ghost.label same]
  exact awake j

section

variable (h : Inv s0 f0 p0 name (update g i c) s)
include h

theorem Inv.openNew (data : InodeDisk) (plain : c.seen = none)
    (cached : Cached rootDirSector s0.openInodes s none) (all : ∀ j, (update g i c j).root = none)
    (awake : ∀ j, (update g i c j).label ≠ some (.read rootDirSector)) :
    Inv s0 f0 p0 name
      (update g i { c with root := some s.next, label := some (.read rootDirSector) })
      (FS.pushInode s ⟨rootDirSector, 1, false, 0, data⟩) := by
  refine h.retable rfl rfl (MapFile.push h.mapFile (h.fresh _ (Nat.le_refl _)) _) (fun p le => ?_)
    rfl rfl rfl plain (.loading i s.next data (cached.push rfl) (by simp) (by simp) (fun j ne => ?_)
      fun j ne => ?_)
  · have past : s.next + 1 ≤ p := le
    simp only [FS.pushInode, update_of_ne (show p ≠ s.next by omega)]
    exact h.fresh p (by omega)
  · simpa [ne] using all j
  · simpa [ne] using awake j

theorem Inv.load (plain : c.seen = none) (asleep : c.label = some (.read rootDirSector))
    (held : c.root = some q) : ∃ ino, s.inodes q = some ino ∧
    Inv s0 f0 p0 name (update g i { c with label := none })
    (FS.setInode s q (some { ino with data := diskInode s.device rootDirSector })) := by
  cases h.root with
  | closed cached all awake => exact absurd (by simp [asleep]) (awake i)
  | loaded q' H cached holders others awake => exact absurd (by simp [asleep]) (awake i)
  | loading u q' data cached here sleeps others awake =>
    obtain rfl : i = u := by
      by_contra ne
      exact awake i ne (by simp [asleep])
    simp only [update_self, held, Option.some.injEq] at here
    subst here
    have inode := (cached.inode q _ rfl).1
    rw [show diskInode s.device rootDirSector = diskInode s0.device rootDirSector from
      diskInode_congr h.rootInode]
    refine ⟨_, inode, h.retable rfl rfl (MapFile.set h.mapFile (h.root_ne cached) _)
      (h.fresh_set inode _) rfl rfl rfl plain
      (.loaded q {i} (cached.set rfl) (fun j mem => ?_) (fun j not => ?_) fun j => ?_)⟩
    · simp [Finset.mem_singleton.mp mem, held]
    · have ne : j ≠ i := by simpa using not
      simpa [ne] using others j ne
    · by_cases here : j = i
      · subst here
        simp
      · simpa [here] using awake j here

theorem Inv.reopen {H : Finset τ} (plain : c.seen = none) (unheld : c.root = none)
    (held : HeldBy s0 s (update g i c) q H) :
    Inv s0 f0 p0 name (update g i { c with root := some q })
      (FS.setInode s q (some ⟨rootDirSector, H.card + 1, false, 0,
        diskInode s0.device rootDirSector⟩)) := by
  have absent : i ∉ H := fun mem => by
    have holds := held.holders i mem
    simp [unheld] at holds
  have inode := (held.cached.inode q _ rfl).1
  refine h.retable rfl rfl (MapFile.set h.mapFile (h.root_ne held.cached) _) (h.fresh_set inode _)
    rfl rfl rfl plain (.loaded q (insert i H) ?_ (fun j mem => ?_) (fun j not => ?_)
      (awake_kept held.awake rfl))
  · rw [Finset.card_insert_of_notMem absent]
    exact held.cached.set rfl
  · by_cases here : j = i
    · simp [here]
    · simpa [here] using held.holders j (Finset.mem_of_mem_insert_of_ne mem here)
  · rw [Finset.mem_insert, not_or] at not
    simpa [not.1] using held.others j not.2

end

omit [DecidableEq τ] in
theorem Inv.root_loaded (h : Inv s0 f0 p0 name g s) (held : (g i).root = some q)
    (awake : (g i).label ≠ some (.read rootDirSector)) :
    ∃ H : Finset τ, i ∈ H ∧ HeldBy s0 s g q H := by
  cases h.root with
  | closed cached all _ => simp [all] at held
  | loading u q' data cached here asleep others _ =>
    by_cases same : i = u
    · exact absurd (same ▸ asleep) awake
    · simp [others i same] at held
  | loaded q' H cached holders others quiet =>
    have mem : i ∈ H := by
      by_contra not
      simp [others i not] at held
    have same := holders i mem
    rw [held, Option.some.injEq] at same
    subst same
    exact ⟨H, mem, cached, holders, others, quiet⟩

theorem Inv.closeKeep (h : Inv s0 f0 p0 name (update g i c) s) {H : Finset τ}
    (plain : c.seen = none) (mem : i ∈ H) (held : HeldBy s0 s (update g i c) q H) :
    Inv s0 f0 p0 name (update g i { c with root := none })
      (FS.setInode s q (some ⟨rootDirSector, (H.card : Int) - 1, false, 0,
        diskInode s0.device rootDirSector⟩)) := by
  have card := Finset.card_erase_add_one mem
  have inode := (held.cached.inode q _ rfl).1
  refine h.retable rfl rfl (MapFile.set h.mapFile (h.root_ne held.cached) _) (h.fresh_set inode _)
    rfl rfl rfl plain (.loaded q (H.erase i) ?_ (fun j there => ?_) (fun j not => ?_)
      (awake_kept held.awake rfl))
  · rw [show ((H.erase i).card : Int) = H.card - 1 by omega]
    exact held.cached.set rfl
  · obtain ⟨ne, there⟩ := Finset.mem_erase.mp there
    simpa [ne] using held.holders j there
  · by_cases here : j = i
    · simp [here]
    · simpa [here] using held.others j fun there => not (Finset.mem_erase.mpr ⟨here, there⟩)

theorem Inv.closeLast (h : Inv s0 f0 p0 name (update g i c) s) {H : Finset τ}
    (plain : c.seen = none) (last : (H.card : Int) - 1 = 0) (mem : i ∈ H)
    (held : HeldBy s0 s (update g i c) q H) : Inv s0 f0 p0 name (update g i { c with root := none })
    (FS.setInode (FS.unlist s q) q none) := by
  have single : H = {i} := by
    obtain ⟨j, only⟩ := Finset.card_eq_one.mp (show H.card = 1 by omega)
    rw [only, Finset.mem_singleton] at mem
    rw [only, mem]
  refine h.retable rfl rfl { MapFile.set h.mapFile (h.root_ne held.cached) none with }
    (fun p le => ?_) rfl rfl rfl plain
    (.closed held.cached.close (fun j => ?_) (awake_kept held.awake rfl))
  · by_cases here : p = q
    · simp [FS.setInode, here]
    · simp only [FS.setInode, update_of_ne here]
      exact h.fresh p le
  · by_cases here : j = i
    · simp [here]
    · simpa [here] using held.others j (by simpa [single] using here)

end Root

structure Base (s₀ : FS) : Prop where
  bitCnt : s₀.freeMap.bitCnt = s₀.device.size
  map_bit : s₀.freeMap.bit freeMapSector = true
  inode_bit : s₀.freeMap.bit rootDirSector = true
  inode_lt : rootDirSector < s₀.device.size
  length : (diskInode s₀.device rootDirSector).length = ((entrySize * rootEntries : Nat) : Int)
  entries_bit : s₀.freeMap.bit (rootStart s₀) = true
  entries_lt : rootStart s₀ < s₀.device.size
  entries_ne : rootStart s₀ ≠ rootDirSector
  map : ∀ k, 512 * k < byteCnt s₀.freeMap.bitCnt → s₀.freeMap.bit (mapStart s₀ + k) = true ∧
    mapStart s₀ + k ≠ rootDirSector ∧ mapStart s₀ + k ≠ rootStart s₀

theorem base_of_inv {hs : List (Option Nat)} (inv : Calls.Inv s0 hs f0 p0) : Base s0 := by
  have v := inv.volume
  have entries : rootStart s0 ∈ dataSectors (diskInode s0.device rootDirSector) := by
    have mem := (v.sized _ v.root_live).sector_mem (y := 0) (by rw [v.rootLength]; decide)
    simpa [rootStart] using mem
  have dir := v.owned.used _ v.root_live _ List.mem_cons_self
  have first := v.owned.used _ v.root_live _ (List.mem_cons_of_mem _ entries)
  have apart : rootStart s0 ≠ rootDirSector := fun e => by
    rw [e] at entries
    exact (List.nodup_cons.mp (v.owned.nodup _ v.root_live)).1 entries
  refine ⟨v.bitCnt, map_marked inv, dir.2, dir.1, v.rootLength, first.2, first.1, apart, fun k lt => ?_⟩
  have mem : mapStart s0 + k ∈ extent s0.device freeMapSector := by
    have data := (v.sized _ v.map_live).sector_mem (y := 512 * k) (by
      rw [v.mapInode_eq, Int.toNat_natCast]
      exact lt)
    rw [Nat.mul_div_cancel_left k (by decide)] at data
    exact List.mem_cons_of_mem _ data
  have off := v.owned.apart _ v.map_live _ v.root_live (by decide) _ mem
  exact ⟨(v.owned.used _ v.map_live _ mem).2, fun e => off (e ▸ List.mem_cons_self),
    fun e => off (e ▸ List.mem_cons_of_mem _ entries)⟩

omit [DecidableEq τ] in
theorem Inv.owned_ne (h : Inv s0 f0 p0 name g s) {y : Nat} {j : τ} (mem : x ∈ (g j).owned)
    (used : s0.freeMap.bit y = true) : x ≠ y := by
  rintro rfl
  have free := (h.owned.used j (mem_univ j) x mem).2.1
  simp [used] at free

/-- The entry is written, with nobody else in the directory and no entry of the name. -/
theorem Inv.commit (h : Inv s0 f0 p0 name (update g i c) s) (base : Base s0) {k : Nat}
    {n : InodeDisk} {e : DirEntry} (made : c.made = some (x, n))
    (alone : ∀ j, j ≠ i → (g j).seen = none)
    (absent : ∀ k' < rootEntries, (slotEntry s.device.data (rootStart s0) k').isFor name = false)
    (lt : k < rootEntries) (hit : e.isFor name = true) (sector : e.inodeSector = x)
    (len : e.name.length = nameMax + 1) (awake : c.label ≠ some (.read rootDirSector))
    (off : l ≠ some (.read rootDirSector)) :
    Inv s0 f0 p0 name (update g i { c with seen := none, added := true, label := l }) { s with
        device := s.device.write (512 * rootStart s0 + entrySize * k) (encodeEntry e) } := by
  have full := encodeEntry_length e len
  have bound : entrySize * k + entrySize ≤ 512 := by
    simp only [entrySize, rootEntries] at lt ⊢
    omega
  have same : ∀ y, y ≠ rootStart s0 → Agree s.device
      (s.device.write (512 * rootStart s0 + entrySize * k) (encodeEntry e)) y := fun y ne =>
    agree_write _ (by omega)
  have small : e.inodeSector < 2 ^ 32 := by
    have own := (h.made i x n (by simpa using made)).1
    have fits := (h.owned.used i (mem_univ i) x own).1
    have cap := s0.freeMap.bitCnt_lt
    omega
  have slots : ∀ j, slotEntry
      (s.device.write (512 * rootStart s0 + entrySize * k) (encodeEntry e)).data (rootStart s0) j =
      if j = k then e else slotEntry s.device.data (rootStart s0) j :=
    slotEntry_splice _ _ _ len small
  have nobody : ∀ j, (update g i c j).added = false := fun j => by
    by_contra some
    obtain ⟨-, k', lt', hits, -⟩ := h.added j (by simpa using some)
    have here := (hits k' lt').mpr rfl
    simp [absent k' lt'] at here
  have kept : ∀ j, (update g i { c with seen := none, added := true, label := l } j).made =
      (update g i c j).made := update_field Ghost.made rfl
  have own : ∀ j, (update g i { c with seen := none, added := true, label := l } j).owned =
      (update g i c j).owned := update_field Ghost.owned rfl
  exact { h with
    mapFile := { h.mapFile with }
    owned := by simpa only [own] using h.owned
    rootInode := h.rootInode.trans (same _ (Ne.symm base.entries_ne))
    made := fun j y m e => by
      rw [kept] at e
      obtain ⟨mem, was⟩ := h.made j y m e
      rw [own]
      exact ⟨mem, (diskInode_congr (same y (h.owned_ne mem base.entries_bit))).trans was⟩
    added := fun j e' => by
      have here : ∀ j', (update g i { c with seen := none, added := true, label := l }
          j').added = true → j' = i := fun j' e' => by
        by_contra ne
        have none := nobody j'
        simp only [ne_eq, ne, not_false_eq_true, update_of_ne] at e' none
        simp [none] at e'
      obtain rfl := here j e'
      refine ⟨here, k, lt, fun k' lt' => ?_, n, ?_⟩
      · rw [slots]
        by_cases slot : k' = k
        · simp [slot, hit]
        · simp [slot, absent k' lt']
      · rw [slots, if_pos rfl, sector]
        simpa using made
    seen := fun j bs e' => by
      by_cases here : j = i
      · subst here
        simp at e'
      · simp [here, alone j here] at e'
    root := h.root.congr rfl rfl rfl (update_field Ghost.root rfl) fun j => by
      by_cases here : j = i
      · subst here
        simp [awake, off]
      · simp [here] }

end Step

end Pintos.ConcurrentCreate
