import Pintos.Inode
import Mathlib.Data.List.FinRange

/-! The root directory of `filesys/directory.c`: a file of 20-byte entries,
searched from the front. A name is a C string, given by its bytes without the
terminating null byte. -/

namespace Pintos.Directory
open Resumption ByteStore Disk InodeIO Inode Function

def nameMax : Nat := 14

def CString := { l : List UInt8 // 0 ∉ l }

instance : DecidableEq CString := inferInstanceAs (DecidableEq { l : List UInt8 // 0 ∉ l })

theorem oneLetter_text : (0 : UInt8) ∉ [97] := by decide

def charOrder (a b : UInt8) : Int := if a < b then -1 else if b < a then 1 else 0

/-- `strcmp` on bytes that end at a null byte or at the end of the list. -/
def strcmp : List UInt8 → List UInt8 → Int
  | a :: as, b :: bs => if a ≠ 0 ∧ a = b then strcmp as bs else charOrder a b
  | as, bs => charOrder (as.headD 0) (bs.headD 0)

def strlcpy (dst src : List UInt8) (size : Nat) : List UInt8 :=
  if 0 < size then overlay dst 0 (src.take (min src.length (size - 1)) ++ [0]) else dst

structure DirEntry where
  inodeSector : Nat
  name : List UInt8
  inUse : Bool
  deriving DecidableEq

def entrySize : Nat := 20

def decodeEntry (bs : List UInt8) : DirEntry :=
  ⟨readLe32 bs, (bs.drop 4).take (nameMax + 1), bs.getD 19 0 != 0⟩

def encodeEntry (e : DirEntry) : List UInt8 :=
  le32 e.inodeSector ++ e.name ++ [if e.inUse then 1 else 0]

structure Dir where
  inode : Nat
  pos : Int

def dirCreate (sector entryCnt : Nat) : Code Bool :=
  inodeCreate sector (entryCnt * entrySize : Nat)

def dirOpen (inode : Option Nat) : Code (Option Dir) := do
  let ok ← malloc
  match inode, ok with
  | some p, true => pure (some ⟨p, 0⟩)
  | _, _ => do
    inodeClose inode
    pure none

def dirOpenRoot : Code (Option Dir) := do
  let inode ← inodeOpen rootDirSector
  dirOpen inode

def dirClose : Option Dir → Code Unit
  | none => pure ()
  | some dir => inodeClose (some dir.inode)

/-- Rounds enough for a directory of any length below 2^31. -/
def entryFuel : Nat := 2 ^ 31 / 20 + 1

def lookupLoop (dir : Dir) (name : CString) : (fuel ofs : Nat) → Code (Option (DirEntry × Nat))
  | 0, _ => pure none
  | fuel + 1, ofs => do
    let bs ← inodeReadAt dir.inode entrySize ofs
    if bs.length = entrySize then
      let e := decodeEntry bs
      if e.inUse ∧ strcmp name.val e.name = 0 then pure (some (e, ofs))
      else lookupLoop dir name fuel (ofs + entrySize)
    else pure none

/-- The entry for `name` and its offset. -/
def lookup (dir : Dir) (name : CString) : Code (Option (DirEntry × Nat)) :=
  lookupLoop dir name entryFuel 0

def dirLookup (dir : Dir) (name : CString) : Code (Option Nat) := do
  match ← lookup dir name with
  | some (e, _) => inodeOpen e.inodeSector
  | none => pure none

/-- Search for a free slot. The variable `e` keeps the last entry read; its value
before the first read is stack memory that no successful call writes out. -/
def slotLoop (dir : Dir) : (fuel ofs : Nat) → List UInt8 → Code (Nat × List UInt8)
  | 0, ofs, e => pure (ofs, e)
  | fuel + 1, ofs, e => do
    let bs ← inodeReadAt dir.inode entrySize ofs
    let e := overlay e 0 bs
    if bs.length = entrySize then
      if (decodeEntry e).inUse then slotLoop dir fuel (ofs + entrySize) e
      else pure (ofs, e)
    else pure (ofs, e)

def dirAdd (dir : Dir) (name : CString) (inodeSector : Nat) : Code Bool := do
  if name.val = [] ∨ nameMax < name.val.length then pure false
  else match ← lookup dir name with
    | some _ => pure false
    | none => do
      let (ofs, bs) ← slotLoop dir entryFuel 0 (List.replicate entrySize 0)
      let e := decodeEntry bs
      let e : DirEntry := ⟨inodeSector, strlcpy e.name name.val (nameMax + 1), true⟩
      let n ← inodeWriteAt dir.inode (fun _ => encodeEntry e) entrySize ofs
      pure (n = entrySize)

def dirRemove (dir : Dir) (name : CString) : Code Bool := do
  match ← lookup dir name with
  | none => pure false
  | some (e, ofs) => do
    match ← inodeOpen e.inodeSector with
    | none => pure false
    | some p => do
      let n ← inodeWriteAt dir.inode (fun _ => encodeEntry { e with inUse := false }) entrySize ofs
      if n = entrySize then do
        inodeRemove p
        inodeClose (some p)
        pure true
      else do
        inodeClose (some p)
        pure false

def stored (bs : List UInt8) : List UInt8 := bs.takeWhile (· ≠ 0)

theorem charOrder_eq_zero (a b : UInt8) : charOrder a b = 0 ↔ a = b := by
  simp only [charOrder, UInt8.lt_iff_toNat_lt, ← UInt8.toNat_inj]
  split_ifs with lt gt
  · exact iff_of_false (by decide) (by omega)
  · exact iff_of_false (by decide) (by omega)
  · exact iff_of_true rfl (by omega)

theorem strcmp_eq_zero (name bs : List UInt8) (h : 0 ∉ name) :
    strcmp name bs = 0 ↔ stored bs = name := by
  induction name generalizing bs with
  | nil =>
    cases bs with
    | nil => simp [strcmp, stored, charOrder]
    | cons b bs =>
      simp only [strcmp, List.headD_nil, List.headD_cons, charOrder_eq_zero]
      by_cases zero : b = 0
      · simp [stored, zero]
      · simp [stored, zero, Ne.symm zero]
  | cons a name ih =>
    have nz : a ≠ 0 := fun e => h (by simp [e])
    have rest : 0 ∉ name := fun m => h (List.mem_cons_of_mem a m)
    cases bs with
    | nil => simp [strcmp, stored, charOrder_eq_zero, nz]
    | cons b bs =>
      by_cases same : a = b
      · subst same
        have := ih bs rest
        simp only [stored] at this
        simp [strcmp, stored, nz, this]
      have diff : stored (b :: bs) ≠ a :: name := by
        intro e
        by_cases zero : b = 0
        · simp [stored, zero] at e
        · simp [stored, zero] at e
          exact same e.1.symm
      simp [strcmp, same, charOrder_eq_zero, diff]

theorem encodeEntry_length (e : DirEntry) (h : e.name.length = nameMax + 1) :
    (encodeEntry e).length = entrySize := by
  simp [encodeEntry, h, nameMax, entrySize]

theorem decodeEntry_encodeEntry (e : DirEntry) (sector : e.inodeSector < 2 ^ 32)
    (h : e.name.length = nameMax + 1) : decodeEntry (encodeEntry e) = e := by
  obtain ⟨i, name, used⟩ := e
  simp only at sector h
  have last : (le32 i ++ name ++ [if used then 1 else 0]).getD 19 0 =
      if used then (1 : UInt8) else 0 := by
    rw [List.getD_append_right _ _ _ _ (by simp [h, nameMax])]
    simp [h, nameMax]
  simp only [decodeEntry, encodeEntry, last]
  rw [List.append_assoc, readLe32_le32 _ _ sector, List.drop_left' (le32_length i),
    List.take_left' h]
  cases used <;> rfl

theorem decodeEntry_name_length (bs : List UInt8) (h : bs.length = entrySize) :
    (decodeEntry bs).name.length = nameMax + 1 := by
  simp [decodeEntry, h, entrySize, nameMax]

theorem stored_strlcpy (dst : List UInt8) (name : CString) (size : Nat)
    (h : name.val.length < size) : stored (strlcpy dst name.val size) = name.val := by
  have nz : ∀ c ∈ name.val, c ≠ 0 := fun c hc e => name.property (e ▸ hc)
  rw [strlcpy, if_pos (by omega), List.take_of_length_le (by omega)]
  simp only [stored, overlay, List.take_zero, List.nil_append, List.append_assoc]
  rw [List.takeWhile_append_of_pos (by simpa using nz)]
  simp

/-- Slot `k` of a directory whose data starts at sector `start`. -/
def slotBytes (data : Nat → UInt8) (start k : Nat) : List UInt8 :=
  slice data (512 * start + entrySize * k) entrySize

def slotEntry (data : Nat → UInt8) (start k : Nat) : DirEntry :=
  decodeEntry (slotBytes data start k)

def DirEntry.isFor (e : DirEntry) (name : CString) : Bool := e.inUse && stored e.name = name.val

variable {e : DirEntry} {name : CString} {k i start n : Nat} {data : Nat → UInt8}

theorem slotEntry_splice (data : Nat → UInt8) (start k : Nat) (len : e.name.length = nameMax + 1)
    (sector : e.inodeSector < 2 ^ 32) (j : Nat) :
    slotEntry (splice data (512 * start + entrySize * k) (encodeEntry e)) start j =
      if j = k then e else slotEntry data start j := by
  have full := encodeEntry_length e len
  simp only [slotEntry, slotBytes]
  by_cases here : j = k
  · subst here
    have read := slice_splice data (512 * start + entrySize * j) (encodeEntry e)
    rw [full] at read
    rw [if_pos rfl, read, decodeEntry_encodeEntry e sector len]
  · rw [if_neg here, slice_splice_of_disjoint]
    rw [full]
    simp only [entrySize]
    omega

/-- The slot that a search for `name` finds among the `n` slots of a directory. -/
def slotOf (data : Nat → UInt8) (start n : Nat) (name : CString) : Option Nat :=
  (List.range n).find? fun k => (slotEntry data start k).isFor name

def freeSlot (data : Nat → UInt8) (start n : Nat) : Option Nat :=
  (List.range n).find? fun k => !(slotEntry data start k).inUse

section Interleaved

variable {τ γ : Type} [DecidableEq τ] {P : Protocol τ Sleep γ FS} {i : τ}
  (p n start : Nat) (data : Nat → UInt8) {A : (τ → γ) → FS → Prop}
  (sees : ∀ g s, A g s → DataAt s p start (entrySize * n) ∧ ∀ x < entrySize * n,
    s.device.data (512 * start + x) = data (512 * start + x))
  (stable : ∀ g s k, A g s → 512 * k < entrySize * n →
    P.Across i (.read (start + k)) A g s)

include sees stable

theorem wp_readSlot {Q : List UInt8 → (τ → γ) → FS → Prop} (k : Nat) (le : k ≤ n)
    (post : ∀ g s, A g s → Q (if k < n then slotBytes data start k else []) g s)
    (g : τ → γ) (s : FS) (h : A g s) :
    P.wp i Q (inodeReadAt p entrySize ((entrySize * k : Nat) : Int)) g s := by
  refine wp_readLoop p (entrySize * n) start data sees stable _ _ (entrySize * k) false []
    (Nat.le_refl _) (fun g s h => ?_) g s h
  have := post g s h
  by_cases lt : k < n
  · have count : ioCount (entrySize * n) (entrySize : Int) (entrySize * k) = entrySize := by
      simp only [ioCount, entrySize]
      omega
    rw [if_pos lt] at this
    rwa [count]
  · have count : ioCount (entrySize * n) (entrySize : Int) (entrySize * k) = 0 := by
      simp only [ioCount, entrySize]
      omega
    rw [if_neg lt] at this
    rwa [count]

theorem wp_lookupLoop (dir : Dir) (hp : dir.inode = p) (name : CString)
    {Q : Option (DirEntry × Nat) → (τ → γ) → FS → Prop} (r k fuel : Nat) (enough : r < fuel)
    (split : k + r = n) (post : ∀ g s, A g s → Q (((List.range' k r).find? fun k =>
      (slotEntry data start k).isFor name).map fun k =>
        (slotEntry data start k, entrySize * k)) g s)
    (g : τ → γ) (s : FS) (h : A g s) :
    P.wp i Q (lookupLoop dir name fuel (entrySize * k)) g s := by
  induction r generalizing k fuel g s with
  | zero =>
    obtain ⟨fuel, rfl⟩ := Nat.exists_eq_succ_of_ne_zero (show fuel ≠ 0 by omega)
    rw [lookupLoop, Protocol.wp_bind, hp]
    refine wp_readSlot p n start data sees stable k (by omega) (fun g s h => ?_) g s h
    rw [if_neg (show ¬k < n by omega), if_neg (by simp [entrySize])]
    exact post g s h
  | succ r ih =>
    obtain ⟨fuel, rfl⟩ := Nat.exists_eq_succ_of_ne_zero (show fuel ≠ 0 by omega)
    rw [lookupLoop, Protocol.wp_bind, hp]
    refine wp_readSlot p n start data sees stable k (by omega) (fun g s h => ?_) g s h
    rw [if_pos (show k < n by omega), if_pos (by simp [slotBytes])]
    have same : ((slotEntry data start k).inUse = true ∧
        strcmp name.val (slotEntry data start k).name = 0) ↔
        (slotEntry data start k).isFor name = true := by
      rw [strcmp_eq_zero _ _ name.property]
      simp [DirEntry.isFor]
    change P.wp i Q (if (slotEntry data start k).inUse = true ∧
        strcmp name.val (slotEntry data start k).name = 0 then
        pure (some (slotEntry data start k, entrySize * k))
      else lookupLoop dir name fuel (entrySize * (k + 1))) g s
    have found := post g s h
    rw [List.range'_succ] at found
    by_cases hit : (slotEntry data start k).isFor name = true
    · rw [List.find?_cons_of_pos (by exact hit)] at found
      rw [if_pos (same.mpr hit)]
      exact found
    · rw [if_neg (mt same.mp hit)]
      refine ih (k + 1) fuel (by omega) (by omega) (fun g s h => ?_) g s h
      have later := post g s h
      rwa [List.range'_succ, List.find?_cons_of_neg (by exact hit)] at later

theorem wp_slotLoop (dir : Dir) (hp : dir.inode = p)
    {Q : Nat × List UInt8 → (τ → γ) → FS → Prop} (r k fuel : Nat) (e : List UInt8)
    (full : e.length = entrySize) (enough : r < fuel) (split : k + r = n)
    (post : ∀ g s e, A g s → e.length = entrySize →
      match (List.range' k r).find? fun k => !(slotEntry data start k).inUse with
      | some k => Q (entrySize * k, slotBytes data start k) g s
      | none => Q (entrySize * n, e) g s)
    (g : τ → γ) (s : FS) (h : A g s) :
    P.wp i Q (slotLoop dir fuel (entrySize * k) e) g s := by
  induction r generalizing k fuel e g s with
  | zero =>
    obtain ⟨fuel, rfl⟩ := Nat.exists_eq_succ_of_ne_zero (show fuel ≠ 0 by omega)
    obtain rfl : k = n := by omega
    rw [slotLoop, Protocol.wp_bind, hp]
    refine wp_readSlot p k start data sees stable k (by omega) (fun g s h => ?_) g s h
    rw [if_neg (show ¬k < k by omega), if_neg (by simp [entrySize])]
    exact post g s (overlay e 0 []) h (by simp [overlay, full])
  | succ r ih =>
    obtain ⟨fuel, rfl⟩ := Nat.exists_eq_succ_of_ne_zero (show fuel ≠ 0 by omega)
    rw [slotLoop, Protocol.wp_bind, hp]
    refine wp_readSlot p n start data sees stable k (by omega) (fun g s h => ?_) g s h
    have whole : overlay e 0 (slotBytes data start k) =
        slotBytes data start k := by
      simp [overlay, slotBytes, full]
    rw [if_pos (show k < n by omega), if_pos (by simp [slotBytes])]
    simp only [whole]
    by_cases used : (slotEntry data start k).inUse = true
    · rw [slotEntry] at used
      rw [if_pos used]
      refine ih (k + 1) fuel _ (by simp [slotBytes]) (by omega) (by omega)
        (fun g s e h full => ?_) g s h
      have later := post g s e h full
      rwa [List.range'_succ, List.find?_cons_of_neg (by simp [slotEntry, used])] at later
    · have found := post g s e h full
      rw [List.range'_succ, List.find?_cons_of_pos (by simpa using used)] at found
      rw [slotEntry] at used
      rw [if_neg used]
      exact found

end Interleaved

/-- The slot that `dir_add` fills; none when it must fail. -/
def addSlot (data : Nat → UInt8) (start n : Nat) (name : CString) : Option Nat :=
  if name.val = [] ∨ nameMax < name.val.length then none
  else if (slotOf data start n name).isSome then none
  else freeSlot data start n

/-- What `dir_add` writes over the old bytes of a slot. -/
def addedEntry (old : DirEntry) (name : CString) (sector : Nat) : DirEntry :=
  ⟨sector, strlcpy old.name name.val (nameMax + 1), true⟩

theorem addedEntry_name_length (bs : List UInt8) (name : CString) (sector : Nat)
    (h : bs.length = entrySize) :
    (addedEntry (decodeEntry bs) name sector).name.length = nameMax + 1 := by
  have len := decodeEntry_name_length bs h
  rw [addedEntry, strlcpy, if_pos (Nat.succ_pos _), overlay_length _ _ _ (by simp; omega), len]

section Alone

variable {s : FS} (dir : Dir) {n : Nat} {ino : Inode}
  (loaded : Loaded s dir.inode ino (entrySize * n)) (small : n < entryFuel)

include loaded small

theorem run_lookup (name : CString) :
    Prog.run (lookup dir name) s = some ((slotOf s.device.data ino.data.start n name).map fun k =>
        (slotEntry s.device.data ino.data.start k, entrySize * k), s) := by
  have wp := wp_lookupLoop (P := Protocol.alone Sleep FS) (i := ()) dir.inode n ino.data.start
    s.device.data
    (A := fun _ s' => s' = s)
    (fun g s' e => ⟨e ▸ loaded.dataAt, fun x _ => by rw [e]⟩)
    (fun g s' k e _ => e ▸ Protocol.alone_across g s' _) dir rfl name
    (Q := fun r _ s' => r = ((slotOf s.device.data ino.data.start n name).map fun k =>
      (slotEntry s.device.data ino.data.start k, entrySize * k)) ∧ s' = s)
    n 0 entryFuel small (Nat.zero_add n)
    (fun g s' e => ⟨by rw [slotOf, List.range_eq_range'], e⟩) (fun _ => (none, s)) s rfl
  obtain ⟨a, _, s', run, rfl, rfl⟩ := Protocol.run_of_wp _ _ _ wp
  exact run

theorem run_slotLoop (e : List UInt8) (full : e.length = entrySize) :
    ∃ e', e'.length = entrySize ∧ Prog.run (slotLoop dir entryFuel 0 e) s =
      some (match freeSlot s.device.data ino.data.start n with
        | some k => (entrySize * k, slotBytes s.device.data ino.data.start k)
        | none => (entrySize * n, e'), s) := by
  have wp := wp_slotLoop (P := Protocol.alone Sleep FS) (i := ()) dir.inode n ino.data.start
    s.device.data
    (A := fun _ s' => s' = s)
    (fun g s' e => ⟨e ▸ loaded.dataAt, fun x _ => by rw [e]⟩)
    (fun g s' k e _ => e ▸ Protocol.alone_across g s' _) dir rfl
    (Q := fun r _ s' => (∃ e', e'.length = entrySize ∧
      r = match freeSlot s.device.data ino.data.start n with
        | some k => (entrySize * k, slotBytes s.device.data ino.data.start k)
        | none => (entrySize * n, e')) ∧ s' = s)
    n 0 entryFuel e full small (Nat.zero_add n)
    (fun g s' e here full => by
      rw [← List.range_eq_range']
      change match freeSlot s.device.data ino.data.start n with | some k => _ | none => _
      cases freeSlot s.device.data ino.data.start n with
      | none => exact ⟨⟨e, full, rfl⟩, here⟩
      | some k => exact ⟨⟨e, full, rfl⟩, here⟩)
    (fun _ => (none, s)) s rfl
  obtain ⟨a, _, s', run, ⟨e', full', rfl⟩, rfl⟩ := Protocol.run_of_wp _ _ _ wp
  exact ⟨e', full', run⟩

variable (allowed : ino.denyWriteCnt = 0)

include allowed

omit small in
theorem run_writeSlot (e : DirEntry) (len : e.name.length = nameMax + 1) (k : Nat) (lt : k < n) :
    Prog.run (inodeWriteAt dir.inode (fun _ => encodeEntry e) entrySize
        ((entrySize * k : Nat) : Int)) s =
      some ((entrySize : Int), { s with
        device := s.device.write (512 * ino.data.start + entrySize * k) (encodeEntry e) }) := by
  have count : ioCount (entrySize * n) (entrySize : Int) (entrySize * k) = entrySize := by
    simp only [ioCount, entrySize]
    omega
  have full := encodeEntry_length e len
  have write := run_inodeWriteAt loaded allowed (fun _ => encodeEntry e)
    (fun _ _ => rfl) entrySize (entrySize * k) (Nat.le_of_eq (by simp [full]))
  rwa [count, List.take_of_length_le (Nat.le_of_eq full)] at write

theorem run_dirAdd_none (name : CString) (sector : Nat)
    (h : addSlot s.device.data ino.data.start n name = none) :
    Prog.run (dirAdd dir name sector) s = some (false, s) := by
  unfold addSlot at h
  rw [dirAdd]
  split_ifs at h with bad there
  · rw [if_pos bad]
    rfl
  · rw [if_neg bad, Prog.run_bind_of (run_lookup dir loaded small name)]
    obtain ⟨k, hk⟩ := Option.isSome_iff_exists.mp there
    rw [hk]
    rfl
  obtain ⟨e', full, run⟩ := run_slotLoop dir loaded small (List.replicate entrySize 0) (by simp)
  rw [if_neg bad, Prog.run_bind_of (run_lookup dir loaded small name),
    Option.not_isSome_iff_eq_none.mp there]
  simp only [Option.map_none]
  rw [Prog.run_bind_of run, h]
  have len := encodeEntry_length _ (addedEntry_name_length e' name sector full)
  have count : ioCount (entrySize * n) (entrySize : Int) (entrySize * n) = 0 := by
    simp [ioCount]
  have write := run_inodeWriteAt loaded allowed
    (fun _ => encodeEntry (addedEntry (decodeEntry e') name sector))
    (fun _ _ => rfl) entrySize (entrySize * n) (Nat.le_of_eq (by simp [len]))
  rw [count, List.take_zero, Device.write, splice_nil] at write
  exact (Prog.run_bind_of write _).trans rfl

theorem run_dirAdd_some (name : CString) (sector : Nat)
    (h : addSlot s.device.data ino.data.start n name = some k) :
    Prog.run (dirAdd dir name sector) s = some (true, { s with
      device := s.device.write (512 * ino.data.start + entrySize * k)
        (encodeEntry (addedEntry (slotEntry s.device.data ino.data.start k) name sector)) }) := by
  unfold addSlot at h
  rw [dirAdd]
  split_ifs at h with bad there
  obtain ⟨e', full, run⟩ := run_slotLoop dir loaded small (List.replicate entrySize 0) (by simp)
  have lt : k < n := List.mem_range.mp (List.mem_of_find?_eq_some h)
  have write := run_writeSlot dir loaded allowed _
    (addedEntry_name_length (slotBytes s.device.data ino.data.start k) name sector
      (by simp [slotBytes])) k lt
  rw [if_neg bad, Prog.run_bind_of (run_lookup dir loaded small name),
    Option.not_isSome_iff_eq_none.mp there]
  simp only [Option.map_none]
  rw [Prog.run_bind_of run, h]
  exact (Prog.run_bind_of write _).trans rfl

end Alone

section Slots

variable {n : Nat} (slots : Fin n → DirEntry)

def find (name : CString) : Option Nat :=
  ((List.finRange n).find? fun k => (slots k).isFor name).map fun k => (slots k).inodeSector

def Named (i : Nat) : Prop := ∃ k, (slots k).inUse = true ∧ (slots k).inodeSector = i

/-- Entries in use differ in their key. -/
def DistinctBy {κ : Type} (key : DirEntry → κ) : Prop :=
  ∀ k k', (slots k).inUse = true → (slots k').inUse = true → key (slots k) = key (slots k') → k = k'

/-- No two entries in use share a name or an inode. -/
structure Distinct : Prop where
  name : DistinctBy slots fun e => stored e.name
  sector : DistinctBy slots DirEntry.inodeSector

variable {slots}

theorem isFor_iff : e.isFor name = true ↔ e.inUse = true ∧ stored e.name = name.val := by
  simp [DirEntry.isFor]

theorem find_eq_none : find slots name = none ↔ ∀ k, (slots k).isFor name = false := by
  simp [find]

theorem Distinct.find_eq_some (h : Distinct slots) :
    find slots name = some i ↔ ∃ k, (slots k).isFor name = true ∧ (slots k).inodeSector = i := by
  rw [find, Option.map_eq_some_iff]
  constructor
  · rintro ⟨k, found, e⟩
    exact ⟨k, by simpa using List.find?_some found, e⟩
  rintro ⟨k, hit, e⟩
  have some : ((List.finRange n).find? fun k => (slots k).isFor name).isSome = true :=
    List.find?_isSome.mpr ⟨k, List.mem_finRange k, hit⟩
  obtain ⟨k', found⟩ := Option.isSome_iff_exists.mp some
  obtain ⟨used, same⟩ := isFor_iff.mp hit
  have hit' : (slots k').isFor name = true := by simpa using List.find?_some found
  obtain ⟨used', same'⟩ := isFor_iff.mp hit'
  obtain rfl := h.name k' k used' used (same'.trans same.symm)
  exact ⟨k', found, e⟩

theorem Distinct.named_of_find (h : Distinct slots) (found : find slots name = some i) :
    Named slots i := by
  obtain ⟨k, hit, e⟩ := h.find_eq_some.mp found
  exact ⟨k, (isFor_iff.mp hit).1, e⟩

theorem zero_notMem_stored (bs : List UInt8) : 0 ∉ stored bs := by
  intro mem
  simpa using List.all_eq_true.mp List.all_takeWhile 0 mem

theorem Distinct.named_iff (h : Distinct slots) :
    Named slots i ↔ ∃ name, find slots name = some i := by
  constructor
  · rintro ⟨k, used, e⟩
    exact ⟨⟨stored (slots k).name, zero_notMem_stored _⟩,
      h.find_eq_some.mpr ⟨k, isFor_iff.mpr ⟨used, rfl⟩, e⟩⟩
  · rintro ⟨name, found⟩
    exact h.named_of_find found

theorem DistinctBy.add {κ : Type} {key : DirEntry → κ} (h : DistinctBy slots key) {k : Fin n}
    (fresh : ∀ j, (slots j).inUse = true → key (slots j) ≠ key e) :
    DistinctBy (update slots k e) key := by
  intro j j' hit hit' same
  by_cases here : j = k <;> by_cases here' : j' = k
  · rw [here, here']
  · subst here
    rw [update_self, update_of_ne here'] at same
    rw [update_of_ne here'] at hit'
    exact absurd same.symm (fresh j' hit')
  · subst here'
    rw [update_self, update_of_ne here] at same
    rw [update_of_ne here] at hit
    exact absurd same (fresh j hit)
  · rw [update_of_ne here] at hit same
    rw [update_of_ne here'] at hit' same
    exact h j j' hit hit' same

section Add

variable {k : Fin n} {e : DirEntry} {name : CString}

theorem named_add (free : (slots k).inUse = false) (used : e.inUse = true) :
    Named (update slots k e) i ↔ i = e.inodeSector ∨ Named slots i := by
  constructor
  · rintro ⟨j, hit, same⟩
    by_cases here : j = k
    · subst here
      rw [update_self] at same
      exact .inl same.symm
    · rw [update_of_ne here] at hit same
      exact .inr ⟨j, hit, same⟩
  · rintro (rfl | ⟨j, hit, same⟩)
    · exact ⟨k, by rwa [update_self], by rw [update_self]⟩
    · have other : j ≠ k := by
        rintro rfl
        simp [free] at hit
      exact ⟨j, by rwa [update_of_ne other], by rwa [update_of_ne other]⟩

variable (label : stored e.name = name.val)

include label

theorem Distinct.add (h : Distinct slots) (absent : find slots name = none)
    (new : ¬Named slots e.inodeSector) : Distinct (update slots k e) := by
  refine ⟨h.name.add fun j hit same => ?_, h.sector.add fun j hit same => new ⟨j, hit, same⟩⟩
  have miss := find_eq_none.mp absent j
  rw [Bool.eq_false_iff] at miss
  exact miss (isFor_iff.mpr ⟨hit, same.trans label⟩)

theorem Distinct.find_add (h : Distinct slots) (free : (slots k).inUse = false)
    (used : e.inUse = true) (absent : find slots name = none)
    (new : ¬Named slots e.inodeSector) (other : CString) :
    find (update slots k e) other =
      if other.val = name.val then some e.inodeSector else find slots other := by
  have d := h.add label absent new (k := k)
  by_cases same : other.val = name.val
  · rw [if_pos same, d.find_eq_some]
    exact ⟨k, by rw [update_self, isFor_iff, same]; exact ⟨used, label⟩, by rw [update_self]⟩
  rw [if_neg same]
  apply Option.ext
  intro i
  rw [d.find_eq_some, h.find_eq_some]
  constructor
  · rintro ⟨j, hit, e'⟩
    have ne : j ≠ k := by
      rintro rfl
      rw [update_self, isFor_iff, label] at hit
      exact same hit.2.symm
    rw [update_of_ne ne] at hit e'
    exact ⟨j, hit, e'⟩
  · rintro ⟨j, hit, e'⟩
    have ne : j ≠ k := by
      rintro rfl
      simp [isFor_iff, free] at hit
    exact ⟨j, by rwa [update_of_ne ne], by rwa [update_of_ne ne]⟩

end Add

section Clear

variable {k : Fin n} {e : DirEntry} (cleared : e.inUse = false)

include cleared

theorem clear_inUse {j : Fin n} (hit : (update slots k e j).inUse = true) :
    j ≠ k ∧ (slots j).inUse = true ∧ update slots k e j = slots j := by
  have ne : j ≠ k := by
    rintro rfl
    rw [update_self, cleared] at hit
    cases hit
  rw [update_of_ne ne] at hit
  exact ⟨ne, hit, update_of_ne ne _ _⟩

theorem DistinctBy.clear {κ : Type} {key : DirEntry → κ} (h : DistinctBy slots key) :
    DistinctBy (update slots k e) key := by
  intro j j' hit hit' same
  obtain ⟨-, use, eq⟩ := clear_inUse cleared hit
  obtain ⟨-, use', eq'⟩ := clear_inUse cleared hit'
  rw [eq, eq'] at same
  exact h j j' use use' same

theorem Distinct.clear (h : Distinct slots) : Distinct (update slots k e) :=
  ⟨h.name.clear cleared, h.sector.clear cleared⟩

theorem Distinct.named_clear (h : Distinct slots) (used : (slots k).inUse = true) :
    Named (update slots k e) i ↔ Named slots i ∧ i ≠ (slots k).inodeSector := by
  constructor
  · rintro ⟨j, hit, same⟩
    obtain ⟨ne, use, eq⟩ := clear_inUse cleared hit
    rw [eq] at same
    exact ⟨⟨j, use, same⟩, fun e' => ne (h.sector j k use used (same.trans e'))⟩
  · rintro ⟨⟨j, use, same⟩, ne⟩
    have other : j ≠ k := by
      rintro rfl
      exact ne same.symm
    exact ⟨j, by rwa [update_of_ne other], by rwa [update_of_ne other]⟩

theorem Distinct.find_clear (h : Distinct slots) (hit : (slots k).isFor name = true)
    (other : CString) :
    find (update slots k e) other = if other.val = name.val then none else find slots other := by
  obtain ⟨used, label⟩ := isFor_iff.mp hit
  have d := h.clear cleared (k := k)
  by_cases same : other.val = name.val
  · rw [if_pos same, find_eq_none]
    intro j
    rw [Bool.eq_false_iff]
    intro hit'
    obtain ⟨use, label'⟩ := isFor_iff.mp hit'
    obtain ⟨ne, use', eq⟩ := clear_inUse cleared use
    rw [eq] at label'
    exact ne (h.name j k use' used (label'.trans (same.trans label.symm)))
  · rw [if_neg same]
    apply Option.ext
    intro i
    rw [d.find_eq_some, h.find_eq_some]
    constructor
    · rintro ⟨j, hit', e'⟩
      obtain ⟨-, -, eq⟩ := clear_inUse cleared (isFor_iff.mp hit').1
      rw [eq] at hit' e'
      exact ⟨j, hit', e'⟩
    · rintro ⟨j, hit', e'⟩
      have ne : j ≠ k := by
        rintro rfl
        exact same ((isFor_iff.mp hit').2.symm.trans label)
      exact ⟨j, by rwa [update_of_ne ne], by rwa [update_of_ne ne]⟩

end Clear

end Slots

theorem freeSlot_eq_some (h : freeSlot data start n = some k) :
    k < n ∧ (slotEntry data start k).inUse = false :=
  ⟨List.mem_range.mp (List.mem_of_find?_eq_some h), by simpa using List.find?_some h⟩

theorem find?_congr {α : Type} {p q : α → Bool} {l : List α} (h : ∀ x ∈ l, p x = q x) :
    l.find? p = l.find? q := by
  induction l with
  | nil => rfl
  | cons x l ih =>
    rw [List.find?_cons, List.find?_cons, h x List.mem_cons_self,
      ih fun y hy => h y (List.mem_cons_of_mem x hy)]

theorem addSlot_congr {data' : Nat → UInt8}
    (same : ∀ k < n, slotEntry data' start k = slotEntry data start k) (name : CString) :
    addSlot data' start n name = addSlot data start n name := by
  have search : slotOf data' start n name = slotOf data start n name :=
    find?_congr fun k hk => by rw [same k (List.mem_range.mp hk)]
  have free : freeSlot data' start n = freeSlot data start n :=
    find?_congr fun k hk => by rw [same k (List.mem_range.mp hk)]
  rw [addSlot, addSlot, search, free]

end Pintos.Directory
