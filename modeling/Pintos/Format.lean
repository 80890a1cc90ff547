import Pintos.CallRemove

/-! Formatting. On a device with room for the free map and the root directory,
`filesys_init` lays out both, and the state it leaves satisfies the invariant with
no file named and none open. On any other device it panics. -/

namespace Pintos.Format

open Function
open Resumption ByteStore Bitmap Disk InodeIO Inode Directory Filesys Ownership Volume Calls
open CallCreate (filled_one run_bit_one)
open CallOpen CallClose
open Prog (run_assert run_bind_none run_bind_of run_modify run_state)

attribute [local irreducible] splice

variable {d : Device} {junk : Nat → BitVec 32}

def mapSectors (size : Nat) : Nat := bytesToSectors (byteCnt size)

def Roomy (d : Device) : Prop := mapSectors d.size + 3 ≤ d.size

instance (d : Device) : Decidable (Roomy d) := inferInstanceAs (Decidable (_ ≤ _))

/-- The map that `free_map_init` makes. -/
structure FreshMap (size : Nat) (b : Bits) : Prop where
  bitCnt : b.bitCnt = size
  marked : 0 < size → ∀ j < 2, b.bit j = true
  free : ∀ j < size, 2 ≤ j → b.bit j = false

def unmounted (d : Device) (b : Bits) (n : Nat) (file : Option Nat) (junk : Nat → BitVec 32) : FS :=
  { boot d junk with freeMap := b, next := n, freeMapFile := file }

/-- The free-map file is open through inode `n` as file `n + 1`, and nothing else is. -/
def mounted (d : Device) (b : Bits) (n : Nat) (node : InodeDisk) (junk : Nat → BitVec 32) : FS :=
  { boot d junk with
    freeMap := b
    freeMapFile := some (n + 1)
    inodes := update (fun _ => none) n (some ⟨freeMapSector, 1, false, 0, node⟩)
    openInodes := [n]
    files := update (fun _ => none) (n + 1) (some ⟨n, 0, false⟩)
    next := n + 2 }

theorem run_freeMapInit (d : Device) (junk : Nat → BitVec 32) : ∃ b, FreshMap d.size b ∧
    Prog.run freeMapInit (boot d junk) = some ((), unmounted d b 0 none junk) := by
  obtain ⟨b, create, cnt, clear⟩ := bitmapCreate_spec d.size junk (bitCnt_of_device d)
  have words : 0 < d.size → 0 < b.bits.length := by
    intro pos
    rw [b.length_eq, elemCnt_eq b.bitCnt_lt]
    omega
  have bit : 0 < d.size → ∀ j, (bitmapMark (bitmapMark b freeMapSector) rootDirSector).bit j =
      (decide (j = 1) || (decide (j = 0) || b.bit j)) := by
    intro pos j
    have len : (bitmapMark b freeMapSector).bits.length = b.bits.length := by
      simp [bitmapMark, Bits.put]
    have zero : elemIdx freeMapSector < b.bits.length := words pos
    rw [bit_mark _ (by rw [len]; exact words pos), bit_mark _ zero]
    rfl
  refine ⟨bitmapMark (bitmapMark b freeMapSector) rootDirSector, ⟨cnt, fun pos j lt => ?_,
    fun j lt ge => ?_⟩, ?_⟩
  · rw [bit pos]
    have : j = 1 ∨ j = 0 := by omega
    rcases this with rfl | rfl <;> simp
  · rw [bit (by omega), clear j lt]
    simp
    omega
  · rw [freeMapInit, run_bind_of (run_state _), run_bind_of (run_malloc rfl),
      run_bind_of (run_assert rfl _), run_bind_of (run_malloc rfl),
      run_bind_of (run_assert (.inl rfl) _)]
    simp only [boot, create, Prog.run_bind, Prog.run_demand_some, Option.bind_some, run_modify]
    rfl

theorem run_openMap (room : 0 < d.size) (b : Bits) (n : Nat) (file : Option Nat)
    (next : Nat → Code Unit) : Prog.run (do
      let inode ← inodeOpen freeMapSector
      let file ← fileOpen inode
      Prog.modify fun s => { s with freeMapFile := file }
      let f ← Prog.demand file
      next f) (unmounted d b n file junk) =
    Prog.run (next (n + 1)) (mounted d b n (diskInode d freeMapSector) junk) := by
  have inode : Prog.run (inodeOpen freeMapSector) (unmounted d b n file junk) = _ :=
    run_inodeOpen_new rfl room fun _ hp => absurd hp List.not_mem_nil
  rw [run_bind_of inode, run_bind_of (run_fileOpen (by rfl) _),
    run_bind_of (run_modify _ _), run_bind_of (Prog.run_demand_some _ _)]
  rfl

theorem mounted_mapFile {b : Bits} {n m : Nat} (cnt : b.bitCnt = d.size)
    (fits : m + mapSectors d.size ≤ d.size) :
    MapFile (mounted d b n ⟨m, byteCnt d.size, inodeMagic⟩ junk) (n + 1) n m where
  file := rfl
  handle := by simp [mounted]
  inode := by simp [mounted, cnt]
  inside k lt := by
    change 512 * k < byteCnt b.bitCnt at lt
    change m + k < d.size
    have small : byteCnt d.size + 511 < 2 ^ 31 := by
      have := d.size_lt
      rw [byteCnt, elemCnt_eq (bitCnt_of_device d)]
      omega
    rw [mapSectors, bytesToSectors_of_small _ small] at fits
    rw [cnt] at lt
    omega
  mallocs := rfl

theorem run_freeMapClose (d : Device) (b : Bits) (n : Nat) (node : InodeDisk) :
    Prog.run freeMapClose (mounted d b n node junk) =
      some ((), unmounted d b (n + 2) (some (n + 1)) junk) := by
  have close : Prog.run (inodeClose (some n)) (mounted d b n node junk) = _ :=
    run_inodeClose_drop (by simp [mounted]; rfl) (by rfl) rfl
  rw [freeMapClose, run_bind_of (run_state _)]
  rw [show (mounted d b n node junk).freeMapFile = some (n + 1) from rfl,
    run_fileClose_of (by simp [mounted]; rfl) rfl close]
  simp [FS.setFile, FS.dropInode, mounted, unmounted, boot, update_idem]

theorem run_bitmapRead {s : FS} {f p m : Nat} (h : MapFile s f p m) (pos : 0 < s.freeMap.bitCnt) :
    Prog.run (bitmapRead f) s = some (true, { s with
        freeMap := bitmapReadBytes s.freeMap
          (slice s.device.data (512 * m) (byteCnt s.freeMap.bitCnt)) }) := by
  have count : ioCount (byteCnt s.freeMap.bitCnt) (byteCnt s.freeMap.bitCnt : Nat) 0 =
      byteCnt s.freeMap.bitCnt := by
    simp [ioCount]
  have read := run_inodeReadAt h.loaded (byteCnt s.freeMap.bitCnt : Nat) 0
  rw [count] at read
  have whole : overlay s.freeMap.bytes 0
      (slice s.device.data (512 * m) (byteCnt s.freeMap.bitCnt)) =
        slice s.device.data (512 * m) (byteCnt s.freeMap.bitCnt) := by
    simp [overlay]
  have readAt : Prog.run (fileReadAt f (byteCnt s.freeMap.bitCnt) 0) s =
      some (slice s.device.data (512 * m) (byteCnt s.freeMap.bitCnt), s) := by
    rw [fileReadAt, run_bind_of (run_getFile h.handle)]
    exact read
  rw [bitmapRead, run_bind_of (run_state s), if_pos pos, run_bind_of readAt,
    run_bind_of (run_modify _ _)]
  simp [whole]

section Layout

variable {b b1 b2 : Bits} {r1 r2 : Nat}

def mapLayout (d : Device) (b : Bits) (r₁ : Nat) : Device :=
  (Device.create d freeMapSector r₁ (byteCnt d.size : Nat)).write (512 * r₁) b.bytes

def layout (d : Device) (b : Bits) (r₁ r₂ : Nat) : Device :=
  Device.create (mapLayout d b r₁) rootDirSector r₂ (entrySize * rootEntries : Nat)

structure Planned (d : Device) (b b₁ b₂ : Bits) (r₁ r₂ : Nat) : Prop where
  pos : 0 < d.size
  fresh : FreshMap d.size b
  map : b.Run r₁ (mapSectors d.size) false
  fill₁ : Filled b b₁ r₁ (mapSectors d.size) true
  root : b₁.Run r₂ 1 false
  fill₂ : Filled b₁ b₂ r₂ 1 true

theorem mapSectors_eq (d : Device) :
    mapSectors d.size = (byteCnt d.size + 511) / 512 ∧ byteCnt d.size + 511 < 2 ^ 31 := by
  have small : byteCnt d.size + 511 < 2 ^ 31 := by
    have := d.size_lt
    rw [byteCnt, elemCnt_eq (bitCnt_of_device d)]
    omega
  exact ⟨bytesToSectors_of_small _ small, small⟩

theorem mapSectors_pos (pos : 0 < d.size) : 0 < mapSectors d.size := by
  rw [(mapSectors_eq d).1, byteCnt, elemCnt_eq (bitCnt_of_device d)]
  omega

theorem FreshMap.run_ge (fresh : FreshMap d.size b) (pos : 0 < d.size) {r cnt : Nat}
    (some : 0 < cnt) (run : b.Run r cnt false) : 2 ≤ r := by
  by_contra lt
  have := run.2 r (Nat.le_refl _) (by omega)
  rw [fresh.marked pos r (by omega)] at this
  cases this

theorem FreshMap.run_two (fresh : FreshMap d.size b) (room : Roomy d) :
    b.Run 2 (mapSectors d.size) false := by
  unfold Roomy at room
  exact ⟨by rw [fresh.bitCnt]; omega, fun j lo hi => fresh.free j (by omega) lo⟩

section

variable (h : Planned d b b1 b2 r1 r2)
include h

theorem Planned.ge : 2 ≤ r1 :=
  h.fresh.run_ge h.pos (mapSectors_pos h.pos) h.map

theorem Planned.fits : r1 + mapSectors d.size ≤ d.size := by
  have := h.map.1
  rwa [h.fresh.bitCnt] at this

theorem Planned.root_lt : r2 < d.size := by
  have := h.root.1
  rw [h.fill₁.bitCnt, h.fresh.bitCnt] at this
  omega

theorem Planned.root_free : 2 ≤ r2 ∧ ¬(r1 ≤ r2 ∧ r2 < r1 + mapSectors d.size) := by
  have clear := run_bit_one h.root
  rw [h.fill₁.bit] at clear
  split_ifs at clear with inside
  refine ⟨?_, inside⟩
  by_contra lt
  rw [h.fresh.marked h.pos r2 (by omega)] at clear
  cases clear

theorem Planned.bit_iff {x : Nat} (lt : x < d.size) :
    b2.bit x = true ↔ x < 2 ∨ (r1 ≤ x ∧ x < r1 + mapSectors d.size) ∨ x = r2 := by
  rw [filled_one h.fill₂]
  split_ifs with root
  · simp [root]
  rw [h.fill₁.bit]
  split_ifs with inside
  · simp [inside]
  by_cases low : x < 2
  · simp [low, h.fresh.marked h.pos x low]
  · simp [low, root, inside, h.fresh.free x lt (by omega)]

end

theorem unused_map (pos : 0 < d.size) (ge : 2 ≤ r1) (fits : r1 + mapSectors d.size ≤ d.size) :
    Unused d ⟨0, [], rfl, by decide⟩ freeMapSector r1 (byteCnt d.size) where
  fits := (mapSectors_eq d).2
  sector := pos
  sector_free := by simp [Bits.bit]
  room := fits
  run x lo _ := by
    refine ⟨by simp [Bits.bit], fun e => ?_⟩
    rw [e, freeMapSector] at lo
    omega

section

variable (h : Planned d b b1 b2 r1 r2)
include h

theorem Planned.unused_root : Unused (mapLayout d b2 r1)
    (bitmapReset b1 rootDirSector) rootDirSector r2 (entrySize * rootEntries) where
  fits := by decide
  sector := by
    have := h.ge
    have := h.root_lt
    have := h.root_free.1
    exact show 1 < d.size by omega
  sector_free := by
    rw [bit_reset _ (by
      have := h.root_free.1
      have := h.root.1
      exact show 1 < b1.bitCnt by omega)]
    simp
  room := h.root_lt
  run x lo hi := by
    have one : bytesToSectors ((entrySize * rootEntries : Nat) : Int) = 1 := by decide
    rw [one] at hi
    obtain rfl : x = r2 := by omega
    have bound := h.root.1
    have ge := h.root_free.1
    rw [bit_reset _ (show rootDirSector < b1.bitCnt from (by
      simp only [rootDirSector]; omega)), run_bit_one h.root]
    exact ⟨by simp, by simp only [rootDirSector]; omega⟩

theorem Planned.mapNode :
    diskInode (mapLayout d b2 r1) freeMapSector = ⟨r1, (byteCnt d.size : Nat), inodeMagic⟩ := by
  have ge := h.ge
  have same : Agree (Device.create d freeMapSector r1 (byteCnt d.size : Nat))
      (mapLayout d b2 r1) freeMapSector :=
    agree_write _ (.inl (by simp only [freeMapSector]; omega))
  rw [diskInode_congr same]
  exact create_diskInode (unused_map h.pos ge h.fits)

theorem Planned.agree {x : Nat} (hx : x ∈ extent (mapLayout d b2 r1) freeMapSector) :
    Agree (mapLayout d b2 r1) (layout d b2 r1 r2) x := by
  have fits := h.fits
  have ge := h.ge
  have bound := h.root.1
  have root := h.root_free.1
  rw [extent, h.mapNode, List.mem_cons, mem_dataSectors] at hx
  refine create_agree h.unused_root ⟨?_, ?_⟩
  · change x < d.size
    rcases hx with rfl | ⟨-, hi⟩
    · exact h.pos
    · exact Nat.lt_of_lt_of_le hi fits
  rw [bit_reset _ (show rootDirSector < b1.bitCnt from (by simp only [rootDirSector]; omega)),
    h.fill₁.bit]
  rcases hx with rfl | ⟨lo, hi⟩
  · rw [if_neg (by simp only [freeMapSector]; omega), h.fresh.marked h.pos _ (by decide)]
    rfl
  · rw [if_pos ⟨lo, hi⟩]
    have ne : x ≠ rootDirSector := by
      simp only [rootDirSector] at lo ⊢
      omega
    simp [ne]

theorem Planned.node :
    diskInode (layout d b2 r1 r2) freeMapSector = ⟨r1, (byteCnt d.size : Nat), inodeMagic⟩ := by
  rw [diskInode_congr (h.agree List.mem_cons_self), h.mapNode]

theorem Planned.rootNode :
    diskInode (layout d b2 r1 r2) rootDirSector =
      ⟨r2, (entrySize * rootEntries : Nat), inodeMagic⟩ :=
  create_diskInode h.unused_root

theorem Planned.bitCnt : b2.bitCnt = d.size := by
  rw [h.fill₂.bitCnt, h.fill₁.bitCnt, h.fresh.bitCnt]

theorem Planned.mapContent : content (layout d b2 r1 r2) freeMapSector = b2.bytes := by
  have sized : Sized (diskInode (mapLayout d b2 r1) freeMapSector) := by
    rw [h.mapNode]
    exact ⟨byteCnt d.size, rfl, (mapSectors_eq d).2⟩
  have len : b2.bytes.length = byteCnt d.size := by rw [Bits.bytes_length, h.bitCnt]
  rw [content_congr sized fun x hx => h.agree hx, content, h.mapNode, mapLayout, Device.write_data]
  simp only [Int.toNat_natCast]
  rw [← len, slice_splice]

theorem Planned.rootDir_inUse (k : Fin rootEntries) :
    (rootDir (layout d b2 r1 r2) k).inUse = false := by
  have lt := k.isLt
  have bytes := slice_drop_take (layout d b2 r1 r2).data
    (512 * (diskInode (layout d b2 r1 r2) rootDirSector).start) (entrySize * rootEntries)
    (entrySize * k) entrySize (by simp only [entrySize, rootEntries] at lt ⊢; omega)
  have zero : content (layout d b2 r1 r2) rootDirSector = _ := create_content h.unused_root
  rw [content, h.rootNode] at zero
  simp only [Int.toNat_natCast] at zero
  rw [h.rootNode] at bytes
  simp only at bytes
  rw [zero, List.drop_replicate, List.take_replicate, Nat.min_eq_left (by
    simp only [entrySize, rootEntries] at lt ⊢; omega)] at bytes
  rw [rootDir, slotEntry, slotBytes, h.rootNode]
  simp only
  rw [← bytes]
  decide

theorem Planned.sound {live : Set Nat} (mem : ∀ i, i ∈ live ↔ i = freeMapSector ∨ i = rootDirSector) :
    Sound (layout d b2 r1 r2) (bitmapReadBytes b2 b2.bytes) live := by
  have ge := h.ge
  have root := h.root_free
  have one : bytesToSectors ((entrySize * rootEntries : Nat) : Int) = 1 := by decide
  have mapExtent : extent (layout d b2 r1 r2) freeMapSector =
      freeMapSector :: List.range' r1 (mapSectors d.size) := by
    rw [extent, h.node]
    rfl
  have rootExtent : extent (layout d b2 r1 r2) rootDirSector = [rootDirSector, r2] := by
    rw [extent, h.rootNode, dataSectors, one]
    rfl
  have cells : ∀ i ∈ live, ∀ x ∈ extent (layout d b2 r1 r2) i,
      (i = freeMapSector ∧ (x = 0 ∨ (r1 ≤ x ∧ x < r1 + mapSectors d.size))) ∨
        (i = rootDirSector ∧ (x = 1 ∨ x = r2)) := by
    intro i hi x hx
    rcases (mem i).mp hi with rfl | rfl
    · rw [mapExtent, List.mem_cons, List.mem_range'_1] at hx
      exact .inl ⟨rfl, hx⟩
    · rw [rootExtent, List.mem_cons, List.mem_singleton] at hx
      exact .inr ⟨rfl, hx⟩
  exact {
    bitCnt := h.bitCnt
    map_live := (mem _).mpr (.inl rfl)
    root_live := (mem _).mpr (.inr rfl)
    mapInode := ⟨r1, by rw [h.node, show (bitmapReadBytes b2 b2.bytes).bitCnt = _ from h.bitCnt]⟩
    rootLength := by rw [h.rootNode]
    sized := by
      intro i hi
      rcases (mem i).mp hi with rfl | rfl
      · rw [h.node]
        exact ⟨byteCnt d.size, rfl, (mapSectors_eq d).2⟩
      · rw [h.rootNode]
        exact ⟨entrySize * rootEntries, rfl, by decide⟩
    fits := by
      intro i hi
      rcases (mem i).mp hi with rfl | rfl
      · rw [h.node]
        exact h.fits
      · rw [h.rootNode, one]
        exact h.root_lt
    owned := by
      refine ⟨fun i hi => ?_, fun i hi j hj ne x hx hx' => ?_, fun i hi x hx => ?_⟩
      · rcases (mem i).mp hi with rfl | rfl
        · rw [mapExtent, List.nodup_cons, List.mem_range'_1]
          exact ⟨by simp only [freeMapSector]; omega, List.nodup_range'⟩
        · rw [rootExtent]
          simp only [rootDirSector, List.nodup_cons, List.mem_singleton, List.not_mem_nil,
            not_false_eq_true, List.nodup_nil, and_true]
          omega
      · rcases cells i hi x hx with ⟨rfl, hx⟩ | ⟨rfl, hx⟩ <;>
          rcases cells j hj x hx' with ⟨rfl, hx'⟩ | ⟨rfl, hx'⟩
        · exact ne rfl
        · omega
        · omega
        · exact ne rfl
      · have fits := h.fits
        have rootLt := h.root_lt
        have lt : x < d.size := by
          have := cells i hi x hx
          omega
        refine ⟨lt, ?_⟩
        rw [bit_bitmapReadBytes b2 b2 rfl x (by rw [h.bitCnt]; exact lt), h.bit_iff lt]
        have := cells i hi x hx
        omega
    synced := by
      rw [h.mapContent]
      exact bitmapReadBytes_congr (show (bitmapReadBytes b2 b2.bytes).bitCnt = b2.bitCnt from rfl) _ }

end

def formatted (d : Device) (b : Bits) (r₁ r₂ : Nat) (junk : Nat → BitVec 32) : FS :=
  mounted (layout d b r₁ r₂) (bitmapReadBytes b b.bytes) 2
    (diskInode (layout d b r₁ r₂) freeMapSector) junk

theorem formatted_inodes {p : Nat} {a : Inode} (ha : (formatted d b r1 r2 junk).inodes p = some a) :
    p = 2 ∧ a = ⟨freeMapSector, 1, false, 0, diskInode (layout d b r1 r2) freeMapSector⟩ := by
  by_cases here : p = 2
  · subst here
    simp only [formatted, mounted, update_self, Option.some.injEq] at ha
    exact ⟨rfl, ha.symm⟩
  · simp [formatted, mounted, here] at ha

theorem Planned.unnamed (h : Planned d b b1 b2 r1 r2) (i : Nat) :
    ¬Named (rootDir (layout d b2 r1 r2)) i := by
  rintro ⟨k, used, -⟩
  simp [h.rootDir_inUse k] at used

theorem Planned.live (h : Planned d b b1 b2 r1 r2) (i : Nat) :
    i ∈ Live (formatted d b2 r1 r2 junk) ↔ i = freeMapSector ∨ i = rootDirSector := by
  rw [mem_live]
  constructor
  · rintro (e | e | named | ⟨p, a, ha, rfl⟩)
    · exact .inl e
    · exact .inr e
    · exact absurd named (h.unnamed i)
    · rw [(formatted_inodes ha).2]
      exact .inl rfl
  · rintro (e | e)
    · exact .inl e
    · exact .inr (.inl e)

theorem formatted_table : Table (formatted d b r1 r2 junk) [] 3 2 where
  nodup := by simp [formatted, mounted]
  mem p := by by_cases here : p = 2 <;> simp [formatted, mounted, here]
  sector_inj p q x y hx hy _ := (formatted_inodes hx).1.trans (formatted_inodes hy).1.symm
  fresh p hp := by
    have ge : 4 ≤ p := hp
    simp [formatted, mounted, show p ≠ 2 by omega, show p ≠ 3 by omega]
  counted p a ne ha := absurd (formatted_inodes ha).1 ne
  handle f mem := absurd mem List.not_mem_nil
  distinct k k' f hk := by simp at hk

theorem Planned.inv (h : Planned d b b1 b2 r1 r2) (junk : Nat → BitVec 32) :
    Inv (formatted d b2 r1 r2 junk) [] 3 2 where
  table := formatted_table
  mapFile := rfl
  mapHandle := by simp [formatted, mounted]
  mapOpen := by simp [formatted, mounted, boot]
  mallocs := rfl
  root_closed p a ha := by
    rw [(formatted_inodes ha).2]
    exact show freeMapSector ≠ rootDirSector by decide
  cached p a ha := by
    rw [(formatted_inodes ha).2]
    rfl
  removed p a ne ha := absurd (formatted_inodes ha).1 ne
  names := ⟨fun k _ used => absurd ⟨k, used, rfl⟩ (h.unnamed _),
    fun k _ used => absurd ⟨k, used, rfl⟩ (h.unnamed _)⟩
  files i named := absurd named (h.unnamed i)
  volume := h.sound h.live

end Layout

theorem run_freeMapCreate (junk : Nat → BitVec 32) {b : Bits} (pos : 0 < d.size)
    (fresh : FreshMap d.size b) :
    (∃ r b1, b.Run r (mapSectors d.size) false ∧ (∀ r' < r, ¬b.Run r' (mapSectors d.size) false) ∧
      Filled b b1 r (mapSectors d.size) true ∧
      Prog.run freeMapCreate (unmounted d b 0 none junk) = some ((),
        mounted (mapLayout d b1 r) b1 0 ⟨r, byteCnt d.size, inodeMagic⟩ junk)) ∨
    ((∀ r, ¬b.Run r (mapSectors d.size) false) ∧
      Prog.run freeMapCreate (unmounted d b 0 none junk) = none) := by
  have count : byteCnt (unmounted d b 0 none junk).freeMap.bitCnt = byteCnt d.size := by
    rw [← fresh.bitCnt]
    rfl
  rcases run_freeMapAllocate_early (s := unmounted d b 0 none junk) rfl (mapSectors d.size) with
    ⟨r, b1, run, first, fill, alloc⟩ | ⟨none, alloc⟩
  · have cnt : b1.bitCnt = d.size := fill.bitCnt.trans fresh.bitCnt
    have fits : r + mapSectors d.size ≤ d.size := by
      have := run.1
      rwa [show (unmounted d b 0 none junk).freeMap.bitCnt = d.size from fresh.bitCnt] at this
    have ge := fresh.run_ge pos (mapSectors_pos pos) run
    have make : Prog.run (inodeCreate freeMapSector (byteCnt d.size : Nat))
        (unmounted d b 0 none junk) = some (true, unmounted
          (Device.create d freeMapSector r (byteCnt d.size : Nat)) b1 0 none junk) :=
      run_inodeCreate_of_some (Int.natCast_nonneg (byteCnt d.size)) (by rfl) alloc pos fits
    have node := create_diskInode (unused_map pos ge fits)
    have map : MapFile (mounted (Device.create d freeMapSector r (byteCnt d.size : Nat)) b1 0
        ⟨r, byteCnt d.size, inodeMagic⟩ junk) (0 + 1) 0 r := mounted_mapFile cnt fits
    refine .inl ⟨r, b1, run, first, fill, ?_⟩
    rw [freeMapCreate, run_bind_of (run_state _), count, run_bind_of make,
      run_bind_of (run_assert rfl _), run_openMap (by exact pos), node,
      run_bind_of (run_bitmapWrite map), run_assert rfl]
    rfl
  · refine .inr ⟨none, ?_⟩
    have make := run_inodeCreate_of_none freeMapSector (Int.natCast_nonneg (byteCnt d.size))
      (by rfl) alloc
    rw [freeMapCreate, run_bind_of (run_state _), count, run_bind_of make]
    rfl

/-- On a device without sectors the inode of the free map cannot be written. -/
theorem run_freeMapCreate_empty (empty : ¬0 < d.size) (b : Bits) :
    Prog.run freeMapCreate (unmounted d b 0 none junk) = none := by
  rw [freeMapCreate, run_bind_of (run_state _)]
  set len := byteCnt (unmounted d b 0 none junk).freeMap.bitCnt
  rcases run_freeMapAllocate_early (s := unmounted d b 0 none junk) rfl (bytesToSectors len) with
    ⟨r, b1, -, -, -, alloc⟩ | ⟨-, alloc⟩
  · apply run_bind_none
    rw [inodeCreate, run_bind_of (run_assert (Int.natCast_nonneg len) _),
      run_bind_of (run_malloc (by rfl)), if_pos rfl, run_bind_of alloc]
    simp only
    apply run_bind_none
    rw [blockWrite, run_bind_of (run_state _)]
    exact run_bind_none (Prog.run_assert_none empty _) _
  · have make := run_inodeCreate_of_none freeMapSector (Int.natCast_nonneg len) (by rfl) alloc
    rw [run_bind_of make]
    exact run_bind_none (Prog.run_assert_none (by decide) _) _

section Init

variable {b b1 b2 : Bits} {r1 r2 : Nat}

theorem Planned.run_dirCreate (h : Planned d b b1 b2 r1 r2)
    (alloc : Prog.run (freeMapAllocate 1)
      (mounted (mapLayout d b1 r1) b1 0 ⟨r1, byteCnt d.size, inodeMagic⟩ junk) =
        some (some r2, FS.storeMap (mounted (mapLayout d b1 r1) b1 0
          ⟨r1, byteCnt d.size, inodeMagic⟩ junk) r1 b2)) :
    Prog.run (dirCreate rootDirSector 16)
      (mounted (mapLayout d b1 r1) b1 0 ⟨r1, byteCnt d.size, inodeMagic⟩ junk) = some (true,
        mounted (layout d b2 r1 r2) b2 0 ⟨r1, byteCnt d.size, inodeMagic⟩ junk) := by
  have device : (mapLayout d b1 r1).write (512 * r1) b2.bytes = mapLayout d b2 r1 := by
    simp only [mapLayout, Device.write]
    rw [splice_splice _ _ (by rw [Bits.bytes_length, Bits.bytes_length, h.fill₂.bitCnt])]
  have root := h.root_free.1
  have lt := h.root_lt
  have one : bytesToSectors ((16 * entrySize : Nat) : Int) = 1 := by decide
  rw [← one] at alloc
  have make := run_inodeCreate_of_some (Int.natCast_nonneg (16 * entrySize)) (by rfl) alloc (show rootDirSector < d.size by simp only [rootDirSector]; omega)
    (by rw [one]; exact lt)
  rw [dirCreate, make]
  simp only [FS.storeMap, mounted, boot, device]
  rfl

theorem Planned.run_freeMapOpen (h : Planned d b b1 b2 r1 r2) (n : Nat) (file : Option Nat) :
    Prog.run freeMapOpen (unmounted (layout d b2 r1 r2) b2 n file junk) = some ((),
      mounted (layout d b2 r1 r2) (bitmapReadBytes b2 b2.bytes) n
        (diskInode (layout d b2 r1 r2) freeMapSector) junk) := by
  have map : MapFile (mounted (layout d b2 r1 r2) b2 n ⟨r1, byteCnt d.size, inodeMagic⟩ junk)
      (n + 1) n r1 := mounted_mapFile h.bitCnt h.fits
  have pos : 0 < b2.bitCnt := by
    rw [h.bitCnt]
    exact h.pos
  have bytes : slice (layout d b2 r1 r2).data (512 * r1) (byteCnt b2.bitCnt) = b2.bytes := by
    have stored := h.mapContent
    rw [content, h.node] at stored
    simpa only [Int.toNat_natCast, ← h.bitCnt] using stored
  have read := run_bitmapRead map pos
  rw [freeMapOpen, run_openMap (by exact h.pos), h.node, run_bind_of read, run_assert rfl]
  simp only [mounted, boot, bytes]

/-- A device with room is formatted; on any other the kernel panics. -/
theorem run_filesysInit (d : Device) (junk : Nat → BitVec 32) :
    (∃ b b1 b2 r1 r2, Planned d b b1 b2 r1 r2 ∧
      Prog.run (filesysInit true) (boot d junk) = some ((), formatted d b2 r1 r2 junk)) ∨
    (¬Roomy d ∧ Prog.run (filesysInit true) (boot d junk) = none) := by
  obtain ⟨b, fresh, init⟩ := run_freeMapInit d junk
  have start : Prog.run (filesysInit true) (boot d junk) =
      Prog.run (do doFormat; freeMapOpen) (unmounted d b 0 none junk) := by
    rw [filesysInit, run_bind_of (run_modify _ _)]
    exact (run_bind_of init _).trans rfl
  by_cases pos : 0 < d.size
  · rcases run_freeMapCreate junk pos fresh with
      ⟨r1, b1, run, first, fill, create⟩ | ⟨full, create⟩
    · have ge := fresh.run_ge pos (mapSectors_pos pos) run
      have cnt : b1.bitCnt = d.size := fill.bitCnt.trans fresh.bitCnt
      have fits : r1 + mapSectors d.size ≤ d.size := by
        have := run.1
        rwa [fresh.bitCnt] at this
      have map : MapFile (mounted (mapLayout d b1 r1) b1 0 ⟨r1, byteCnt d.size, inodeMagic⟩ junk)
          (0 + 1) 0 r1 := mounted_mapFile cnt fits
      rcases run_freeMapAllocate map 1 with ⟨r2, b2, run2, -, fill₂, alloc⟩ | ⟨full, alloc⟩
      · have plan : Planned d b b1 b2 r1 r2 := ⟨pos, fresh, run, fill, run2, fill₂⟩
        have format : Prog.run doFormat (unmounted d b 0 none junk) =
            some ((), unmounted (layout d b2 r1 r2) b2 2 (some 1) junk) := by
          rw [doFormat, run_bind_of create, run_bind_of (plan.run_dirCreate alloc),
            run_bind_of (run_assert rfl _), run_freeMapClose]
        refine .inl ⟨b, b1, b2, r1, r2, plan, ?_⟩
        rw [start, run_bind_of format, plan.run_freeMapOpen]
        rfl
      · have one : bytesToSectors ((16 * entrySize : Nat) : Int) = 1 := by decide
        have make := run_inodeCreate_of_none rootDirSector (Int.natCast_nonneg (16 * entrySize))
          (by rfl) (one.symm ▸ alloc)
        have format : Prog.run doFormat (unmounted d b 0 none junk) = none := by
          rw [doFormat, run_bind_of create, dirCreate, run_bind_of make]
          exact run_bind_none (Prog.run_assert_none (by decide) _) _
        refine .inr ⟨fun room => ?_, by rw [start, run_bind_none format]⟩
        have two : r1 = 2 := by
          by_contra ne
          exact first 2 (by omega) (fresh.run_two room)
        unfold Roomy at room
        refine full (2 + mapSectors d.size) (CallCreate.run_one.mpr ⟨?_, ?_⟩)
        · change _ < b1.bitCnt
          omega
        · change b1.bit _ = false
          rw [fill.bit, if_neg (by omega)]
          exact fresh.free _ (by omega) (by omega)
    · have format : Prog.run doFormat (unmounted d b 0 none junk) = none := by
        rw [doFormat, run_bind_none create]
      exact .inr ⟨fun room => full 2 (fresh.run_two room), by rw [start, run_bind_none format]⟩
  · have format : Prog.run doFormat (unmounted d b 0 none junk) = none := by
      rw [doFormat, run_bind_none (run_freeMapCreate_empty pos b)]
    refine .inr ⟨fun room => ?_, by rw [start, run_bind_none format]⟩
    unfold Roomy at room
    omega

theorem Planned.roomy (h : Planned d b b1 b2 r1 r2) : Roomy d := by
  have ge := h.ge
  have fits := h.fits
  have lt := h.root_lt
  have free := h.root_free
  unfold Roomy
  omega

/-- Formatting succeeds exactly on the devices with room for the free map and the directory. -/
theorem filesysInit_isSome_iff (d : Device) (junk : Nat → BitVec 32) :
    (Prog.run (filesysInit true) (boot d junk)).isSome = true ↔ Roomy d := by
  rcases run_filesysInit d junk with ⟨b, b1, b2, r1, r2, plan, run⟩ | ⟨full, run⟩
  · rw [run]
    exact iff_of_true rfl plan.roomy
  · rw [run]
    exact iff_of_false (by decide) full

/-- A formatted file system satisfies the invariant; no file is named and none is open. -/
theorem filesysInit_inv {s : FS} (h : Prog.run (filesysInit true) (boot d junk) = some ((), s)) :
    Inv s [] 3 2 ∧ (∀ name, find (rootDir s.device) name = none) ∧
      ∀ i ∈ Live s, i = freeMapSector ∨ i = rootDirSector := by
  rcases run_filesysInit d junk with ⟨b, b1, b2, r1, r2, plan, run⟩ | ⟨-, run⟩
  · rw [run, Option.some.injEq, Prod.mk.injEq] at h
    obtain ⟨-, rfl⟩ := h
    have inv := plan.inv junk
    refine ⟨inv, fun name => ?_, fun i hi => (plan.live i).mp hi⟩
    by_contra some
    obtain ⟨i, found⟩ := Option.ne_none_iff_exists'.mp some
    exact plan.unnamed i (inv.names.named_of_find found)
  · rw [run] at h
    cases h

end Init

def blankDevice : Device := ⟨16, fun _ => 0, by decide⟩

theorem blankDevice_formats :
    ∃ s, Prog.run (filesysInit true) (boot blankDevice fun _ => 0) = some ((), s) := by
  rcases run_filesysInit blankDevice fun _ => 0 with ⟨_, _, _, _, _, _, run⟩ | ⟨full, _⟩
  · exact ⟨_, run⟩
  · exact absurd (by decide) full

theorem blankDevice_bit {s : FS}
    (h : Prog.run (filesysInit true) (boot blankDevice fun _ => 0) = some ((), s)) :
    s.freeMap.bitCnt = 16 ∧
      ∃ r1 r2, ∀ x < 16, s.freeMap.bit x = true ↔ x < 2 ∨ x = r1 ∨ x = r2 := by
  rcases run_filesysInit blankDevice fun _ => 0 with ⟨_, _, b, r1, r2, plan, run⟩ | ⟨_, run⟩
  · rw [run, Option.some.injEq, Prod.mk.injEq] at h
    obtain ⟨-, rfl⟩ := h
    refine ⟨plan.bitCnt, r1, r2, fun x lt => ?_⟩
    have one : mapSectors blankDevice.size = 1 := by decide
    have bits := plan.bit_iff lt
    rw [one] at bits
    change (bitmapReadBytes b b.bytes).bit x = true ↔ _
    rw [bit_bitmapReadBytes b b rfl x (by rw [plan.bitCnt]; exact lt), bits]
    omega
  · rw [run] at h
    cases h

end Pintos.Format
