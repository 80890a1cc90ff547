import Pintos.ByteStore

/-! Partition tables, from `devices/partition.c`. The recursion of `read_partition_table` is
driven by what the disk holds, so it is given a bound on its depth here and has no result when
the bound is reached. What the tables of a disk describe is stated apart from it.

Memory for the tables and for the descriptors of partitions is taken to be there; the text
that names a type of partition in a message is left out. -/

namespace Pintos.Partition
open ByteStore Function

structure Block where
  size : BitVec 32
  sector : BitVec 32 → List UInt8

/-- The fields of a `struct partition_table_entry` that are looked at. -/
structure Entry where
  type : UInt8
  offset : BitVec 32
  size : BitVec 32
  deriving DecidableEq

/-- `pt->partitions[i]` -/
def partition (pt : List UInt8) (i : Nat) : Entry where
  type := (pt.drop (446 + 16 * i)).getD 4 0
  offset := BitVec.ofNat 32 (readLe32 (pt.drop (446 + 16 * i + 8)))
  size := BitVec.ofNat 32 (readLe32 (pt.drop (446 + 16 * i + 12)))

def partitions (pt : List UInt8) : List Entry := (List.range 4).map (partition pt)

def signature (pt : List UInt8) : Nat := (pt.getD 510 0).toNat + 256 * (pt.getD 511 0).toNat

def Entry.isEmpty (e : Entry) : Bool := e.size = 0 || e.type = 0

def Entry.isExtended (e : Entry) : Bool :=
  e.type = 0x05 || e.type = 0x0f || e.type = 0x85 || e.type = 0xc5

inductive BlockType where
  | kernel
  | filesys
  | scratch
  | swap
  | foreign
  deriving DecidableEq

def blockType (partType : UInt8) : BlockType :=
  if partType = 0x20 then .kernel
  else if partType = 0x21 then .filesys
  else if partType = 0x22 then .scratch
  else if partType = 0x23 then .swap
  else .foreign

/-- A partition passed to `block_register`; its number stands in its name. -/
structure Registered where
  partNr : Nat
  type : BlockType
  start : BitVec 32
  size : BitVec 32
  deriving DecidableEq

inductive Message where
  | noPartitions
  | tablePastEnd (sector : BitVec 32)
  | invalidSignature
  | invalidExtended (sector : BitVec 32)
  | extendedPartition (sector : BitVec 32)
  | startsPastEnd (partNr : Nat) (start : BitVec 32)
  | endPastEnd (partNr : Nat) (last size : BitVec 32)
  deriving DecidableEq

structure Scan where
  partNr : Nat
  registered : List Registered
  messages : List Message
  deriving DecidableEq

def Scan.print (s : Scan) (m : Message) : Scan := { s with messages := s.messages ++ [m] }

def foundPartition (block : Block) (partType : UInt8) (start size : BitVec 32) (partNr : Nat)
    (s : Scan) : Scan :=
  if block.size ≤ start then s.print (.startsPastEnd partNr start)
  else if start + size < start ∨ block.size < start + size then
    s.print (.endPastEnd partNr (start + size) block.size)
  else { s with registered := s.registered ++ [⟨partNr, blockType partType, start, size⟩] }

/-- The loop over the entries of a table, given `read` for the tables of extended ones. -/
def parsePartitions (block : Block) (read : BitVec 32 → BitVec 32 → Scan → Option Scan)
    (sector primaryExtendedSector : BitVec 32) : List Entry → Scan → Option Scan
  | [], s => some s
  | e :: rest, s =>
    if e.isEmpty then parsePartitions block read sector primaryExtendedSector rest s
    else if e.isExtended then do
      let s := s.print (.extendedPartition sector)
      let s ←
        if sector = 0 then read e.offset e.offset s
        else read (e.offset + primaryExtendedSector) primaryExtendedSector s
      parsePartitions block read sector primaryExtendedSector rest s
    else
      let s := { s with partNr := s.partNr + 1 }
      parsePartitions block read sector primaryExtendedSector rest
        (foundPartition block e.type (e.offset + sector) e.size s.partNr s)

/-- The sector that is read is the first one, whatever `sector` is. -/
def readPartitionTable (block : Block) : Nat → BitVec 32 → BitVec 32 → Scan → Option Scan
  | 0, _, _, _ => none
  | depth + 1, sector, primaryExtendedSector, s =>
    if block.size ≤ sector then some (s.print (.tablePastEnd sector))
    else
      let pt := block.sector 0
      if signature pt ≠ 0xaa55 then
        if primaryExtendedSector = 0 then some (s.print .invalidSignature)
        else some (s.print (.invalidExtended sector))
      else
        parsePartitions block (readPartitionTable block depth) sector primaryExtendedSector
          (partitions pt) s

def partitionScan (block : Block) (depth : Nat) : Option Scan := do
  let s ← readPartitionTable block depth 0 0 ⟨0, [], []⟩
  pure (if s.partNr = 0 then s.print .noPartitions else s)

/-! What the tables describe. -/

structure Extent where
  type : UInt8
  start : Nat
  size : Nat
  deriving DecidableEq

/-- The entries of the table in a sector; a sector without the signature holds none. -/
def Block.table (block : Block) (sector : Nat) : List Entry :=
  if signature (block.sector (BitVec.ofNat 32 sector)) = 0xaa55 then
    partitions (block.sector (BitVec.ofNat 32 sector))
  else []

/-- The primary and logical partitions of some entries in the table at `sector`, in the order
in which they are met. Every table on the way is inside the device and none is met within
itself. -/
inductive Lists (block : Block) : (sector primary : Nat) → List Entry → List Extent → Prop where
  | nil {sector primary : Nat} : Lists block sector primary [] []
  | empty {sector primary : Nat} {e : Entry} {rest : List Entry} {found : List Extent} :
      e.isEmpty = true → Lists block sector primary rest found →
      Lists block sector primary (e :: rest) found
  | plain {sector primary : Nat} {e : Entry} {rest : List Entry} {found : List Extent} :
      e.isEmpty = false → e.isExtended = false → Lists block sector primary rest found →
      Lists block sector primary (e :: rest)
        (⟨e.type, e.offset.toNat + sector, e.size.toNat⟩ :: found)
  | extended {sector primary table base : Nat} {e : Entry} {rest : List Entry}
      {inner found : List Extent} :
      e.isEmpty = false → e.isExtended = true →
      base = (if sector = 0 then e.offset.toNat else primary) →
      table = (if sector = 0 then e.offset.toNat else e.offset.toNat + primary) →
      table < block.size.toNat → Lists block table base (block.table table) inner →
      Lists block sector primary rest found →
      Lists block sector primary (e :: rest) (inner ++ found)

/-- The partitions that the table in the first sector and the extended ones describe. -/
def Described (block : Block) (found : List Extent) : Prop :=
  0 < block.size.toNat ∧ Lists block 0 0 (block.table 0) found

/-- Those among the partitions that fit in the device, by their numbers from `n` on. -/
def expected (block : Block) : Nat → List Extent → List Registered
  | _, [] => []
  | n, x :: rest =>
    if x.start + x.size ≤ block.size.toNat then
      ⟨n, blockType x.type, BitVec.ofNat 32 x.start, BitVec.ofNat 32 x.size⟩ ::
        expected block (n + 1) rest
    else expected block (n + 1) rest

variable {block : Block} {read : BitVec 32 → BitVec 32 → Scan → Option Scan}
  {sector primary : BitVec 32} {es : List Entry}

theorem foundPartition_registered {size : BitVec 32} (ne : size ≠ 0) (partType : UInt8)
    (start : BitVec 32) (n : Nat) (s : Scan) :
    (foundPartition block partType start size n s).registered = s.registered ++
      if start.toNat + size.toNat ≤ block.size.toNat then [⟨n, blockType partType, start, size⟩]
      else [] := by
  have pos : 0 < size.toNat := Nat.pos_of_ne_zero fun zero => ne (BitVec.eq_of_toNat_eq zero)
  have bound := block.size.isLt
  have first := start.isLt
  have width := size.isLt
  simp only [foundPartition, BitVec.le_def, BitVec.lt_def, BitVec.toNat_add]
  by_cases fits : start.toNat + size.toNat ≤ block.size.toNat
  · rw [Nat.mod_eq_of_lt (by omega), if_neg (by omega), if_neg (by omega), if_pos fits]
  rw [if_neg fits, List.append_nil]
  split_ifs with past wraps
  · rfl
  · rfl
  rw [not_or, Nat.not_lt, Nat.not_lt] at wraps
  exfalso
  rcases Nat.lt_or_ge (start.toNat + size.toNat) (2 ^ 32) with small | large
  · rw [Nat.mod_eq_of_lt small] at wraps
    omega
  · rw [Nat.mod_eq_sub_mod large, Nat.mod_eq_of_lt (by omega)] at wraps
    omega

theorem ne_zero_of_not_isEmpty {e : Entry} (some : e.isEmpty = false) : e.size ≠ 0 := by
  rintro zero
  simp [Entry.isEmpty, zero] at some

theorem foundPartition_partNr (partType : UInt8) (start size : BitVec 32) (n : Nat) (s : Scan) :
    (foundPartition block partType start size n s).partNr = s.partNr := by
  unfold foundPartition
  split_ifs <;> rfl

theorem parsePartitions_primary {found : List Extent} (lists : Lists block 0 0 es found)
    (flat : ∀ e ∈ es, e.isEmpty = true ∨ e.isExtended = false) (s : Scan) :
    ∃ s', parsePartitions block read 0 0 es s = some s' ∧
      s'.registered = s.registered ++ expected block (s.partNr + 1) found := by
  induction es generalizing found s with
  | nil =>
    cases lists
    exact ⟨s, rfl, (List.append_nil _).symm⟩
  | cons e rest ih =>
    rw [List.forall_mem_cons] at flat
    cases lists with
    | empty none lists =>
      rw [parsePartitions, if_pos none]
      exact ih lists flat.2 s
    | @plain _ _ _ _ found some plain lists =>
      rw [parsePartitions, if_neg (by rw [some]; decide), if_neg (by rw [plain]; decide)]
      obtain ⟨s', ran, registered⟩ := ih lists flat.2
        (foundPartition block e.type (e.offset + 0) e.size (s.partNr + 1)
          { s with partNr := s.partNr + 1 })
      have start : e.offset + 0 = e.offset := BitVec.add_zero _
      refine ⟨s', ran, registered.trans ?_⟩
      rw [foundPartition_registered (ne_zero_of_not_isEmpty some), foundPartition_partNr, start,
        List.append_assoc]
      simp only [expected, Nat.add_zero]
      split_ifs with fits
      · rw [BitVec.ofNat_toNat, BitVec.ofNat_toNat, BitVec.setWidth_eq, BitVec.setWidth_eq]
        rfl
      · rfl
    | extended some extended =>
      rcases flat.1 with none | plain
      · rw [some] at none
        cases none
      · rw [extended] at plain
        cases plain

def Flat (block : Block) : Prop :=
  ∀ e ∈ partitions (block.sector 0), e.isEmpty = true ∨ e.isExtended = false

def sectorWith (e : Entry) : List UInt8 :=
  List.replicate 446 0 ++ [0, 0, 0, 0, e.type, 0, 0, 0] ++ le32 e.offset.toNat ++
    le32 e.size.toNat ++ List.replicate 48 0 ++ [0x55, 0xaa]

def primaryDisk : Block := ⟨16, fun _ => sectorWith ⟨0x21, 1, 4⟩⟩

/-- A disk with a logical partition in an extended one. -/
def extendedDisk : Block where
  size := 16
  sector n := if n = 8 then sectorWith ⟨0x21, 1, 4⟩ else sectorWith ⟨0x05, 8, 8⟩

def Entry.isFollowed (e : Entry) : Bool := !e.isEmpty && e.isExtended

/-- The table that an entry of the table at `sector` is followed to. -/
def followed (sector primary : BitVec 32) (e : Entry) : BitVec 32 × BitVec 32 :=
  if sector = 0 then (e.offset, e.offset) else (e.offset + primary, primary)

theorem parsePartitions_followed {e : Entry} (isFollowed : e.isFollowed = true) (s : Scan) :
    parsePartitions block read sector primary (e :: es) s =
      (read (followed sector primary e).1 (followed sector primary e).2
        (s.print (.extendedPartition sector))).bind
          (parsePartitions block read sector primary es) := by
  have kinds : e.isEmpty = false ∧ e.isExtended = true := by
    simpa [Entry.isFollowed] using isFollowed
  rw [parsePartitions, kinds.1, kinds.2, followed]
  by_cases top : sector = 0
  · rw [if_pos top, if_pos top]
    rfl
  · rw [if_neg top, if_neg top]
    rfl

theorem parsePartitions_passed {e : Entry} (passed : e.isFollowed = false) (s : Scan) :
    ∃ s', parsePartitions block read sector primary (e :: es) s =
      parsePartitions block read sector primary es s' := by
  rw [parsePartitions]
  by_cases none : e.isEmpty = true
  · exact ⟨s, if_pos none⟩
  · have plain : ¬ e.isExtended = true := fun extended => by
      simp [Entry.isFollowed, none, extended] at passed
    rw [if_neg none, if_neg plain]
    exact ⟨_, rfl⟩

theorem parsePartitions_isSome
    (returns : ∀ e ∈ es, e.isFollowed = true → ∀ s,
      ∃ s', read (followed sector primary e).1 (followed sector primary e).2 s = some s')
    (s : Scan) : ∃ s', parsePartitions block read sector primary es s = some s' := by
  induction es generalizing s with
  | nil => exact ⟨s, rfl⟩
  | cons e rest ih =>
    rw [List.forall_mem_cons] at returns
    cases kind : e.isFollowed with
    | true =>
      obtain ⟨s', ran⟩ := returns.1 kind (s.print (.extendedPartition sector))
      rw [parsePartitions_followed kind, ran]
      exact ih returns.2 s'
    | false =>
      obtain ⟨s', same⟩ := parsePartitions_passed kind s
      rw [same]
      exact ih returns.2 s'

theorem parsePartitions_none {e : Entry} (mem : e ∈ es) (kind : e.isFollowed = true)
    (endless : ∀ s, read (followed sector primary e).1 (followed sector primary e).2 s = none)
    (s : Scan) : parsePartitions block read sector primary es s = none := by
  induction es generalizing s with
  | nil => cases mem
  | cons x rest ih =>
    rcases List.mem_cons.mp mem with rfl | mem
    · rw [parsePartitions_followed kind, endless]
      rfl
    cases other : x.isFollowed with
    | true =>
      rw [parsePartitions_followed other]
      cases read (followed sector primary x).1 (followed sector primary x).2
        (s.print (.extendedPartition sector)) with
      | none => rfl
      | some s' => exact ih mem s'
    | false =>
      obtain ⟨s', same⟩ := parsePartitions_passed other s
      rw [same]
      exact ih mem s'

/-- Every entry of the first table that is followed leads past the end of the device, at once
or at the second time the table is read. -/
def Shallow (block : Block) : Prop :=
  signature (block.sector 0) = 0xaa55 → ∀ e ∈ partitions (block.sector 0), e.isFollowed = true →
    block.size ≤ e.offset ∨ e.offset ≠ 0 ∧ ∀ e' ∈ partitions (block.sector 0),
      e'.isFollowed = true → block.size ≤ e'.offset + e.offset

theorem readPartitionTable_past (past : block.size ≤ sector) (depth : Nat) (s : Scan) :
    ∃ s', readPartitionTable block (depth + 1) sector primary s = some s' := by
  rw [readPartitionTable, if_pos past]
  exact ⟨_, rfl⟩

theorem readPartitionTable_returns {depth : Nat}
    (returns : signature (block.sector 0) = 0xaa55 → ∀ e ∈ partitions (block.sector 0),
      e.isFollowed = true → ∀ s, ∃ s', readPartitionTable block depth
        (followed sector primary e).1 (followed sector primary e).2 s = some s') (s : Scan) :
    ∃ s', readPartitionTable block (depth + 1) sector primary s = some s' := by
  by_cases past : block.size ≤ sector
  · exact readPartitionTable_past past depth s
  rw [readPartitionTable, if_neg past]
  simp only
  by_cases signed : signature (block.sector 0) = 0xaa55
  · rw [if_neg (not_not_intro signed)]
    exact parsePartitions_isSome (returns signed) s
  · rw [if_pos signed]
    split_ifs
    · exact ⟨_, rfl⟩
    · exact ⟨_, rfl⟩

theorem readPartitionTable_none {depth : Nat} {e : Entry} (inside : ¬ block.size ≤ sector)
    (signed : signature (block.sector 0) = 0xaa55) (mem : e ∈ partitions (block.sector 0))
    (kind : e.isFollowed = true)
    (endless : ∀ s, readPartitionTable block depth (followed sector primary e).1
      (followed sector primary e).2 s = none) (s : Scan) :
    readPartitionTable block (depth + 1) sector primary s = none := by
  rw [readPartitionTable, if_neg inside]
  simp only
  rw [if_neg (not_not_intro signed)]
  exact parsePartitions_none mem kind endless s

def endlessDisk : Block := ⟨32, fun _ => sectorWith ⟨0x05, 8, 8⟩⟩

def checkSector (size sector : BitVec 32) : Option Unit := guard (sector < size)

def blockRead (block : Block) (sector : BitVec 32) : Option (List UInt8) := do
  checkSector block.size sector
  return block.sector sector

def blockWrite (block : Block) (sector : BitVec 32) (buffer : List UInt8) : Option Block := do
  checkSector block.size sector
  return { block with sector := update block.sector sector buffer }

def partitionRead (block : Block) (p : Registered) (sector : BitVec 32) : Option (List UInt8) :=
  blockRead block (p.start + sector)

def partitionWrite (block : Block) (p : Registered) (sector : BitVec 32) (buffer : List UInt8) :
    Option Block :=
  blockWrite block (p.start + sector) buffer

def Registered.Fits (block : Block) (p : Registered) : Prop :=
  p.start.toNat + p.size.toNat ≤ block.size.toNat

theorem parsePartitions_fits (inner : ∀ t p s s', read t p s = some s' →
      (∀ p ∈ s.registered, p.Fits block) → ∀ p ∈ s'.registered, p.Fits block)
    {s s' : Scan} (ran : parsePartitions block read sector primary es s = some s')
    (fit : ∀ p ∈ s.registered, p.Fits block) : ∀ p ∈ s'.registered, p.Fits block := by
  induction es generalizing s with
  | nil =>
    cases ran
    exact fit
  | cons e rest ih =>
    rw [parsePartitions] at ran
    split_ifs at ran with none extended top
    · exact ih ran fit
    · obtain ⟨t, found, ran⟩ := Option.bind_eq_some_iff.mp ran
      exact ih ran (inner _ _ _ _ found fit)
    · obtain ⟨t, found, ran⟩ := Option.bind_eq_some_iff.mp ran
      exact ih ran (inner _ _ _ _ found fit)
    refine ih ran fun p mem => ?_
    rw [foundPartition_registered (ne_zero_of_not_isEmpty (Bool.eq_false_iff.mpr none)),
      List.mem_append] at mem
    rcases mem with old | new
    · exact fit p old
    · split_ifs at new with inside
      · rw [List.mem_singleton.mp new]
        exact inside
      · cases new

theorem readPartitionTable_fits {depth : Nat} {s s' : Scan}
    (ran : readPartitionTable block depth sector primary s = some s')
    (fit : ∀ p ∈ s.registered, p.Fits block) : ∀ p ∈ s'.registered, p.Fits block := by
  induction depth generalizing sector primary s s' with
  | zero => cases ran
  | succ depth ih =>
    simp only [readPartitionTable] at ran
    split_ifs at ran
    iterate 3
      cases ran
      exact fit
    exact parsePartitions_fits (fun _ _ _ _ => ih) ran fit

end Pintos.Partition
