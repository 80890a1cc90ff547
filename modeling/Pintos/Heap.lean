import Pintos.Palloc
import Pintos.Links

/-! The block allocator of `threads/malloc.c`. Arena headers, free blocks and the ends of the
free lists lie in RAM as the code lays them out; of a descriptor the two sizes, which never
change after `malloc_init`, are kept apart from it. -/

namespace Pintos.Heap
open ByteStore Links Stoppable Vaddr Palloc

structure Desc where
  addr : Nat
  blockSize : Nat
  blocksPerArena : Nat
  deriving DecidableEq

def sizeofDesc : Nat := 48

/-- `&d->free_list.head` -/
def Desc.head (d : Desc) : Nat := d.addr + 8

/-- `&d->free_list.tail` -/
def Desc.tail (d : Desc) : Nat := d.addr + 16

/-- Memory and the descriptors in use, the first `desc_cnt` ones. -/
structure Arenas extends Mem where
  descs : List Desc

abbrev Malloc := Exec Stop Arenas

def palloc {α : Type} (x : Alloc α) : Malloc α := x.zoom Arenas.toMem fun s m => { s with toMem := m }

def Arenas.withRam (s : Arenas) (ram : Nat → UInt8) : Arenas := { s with ram := ram }

def load (a : Nat) : Malloc Nat := do
  let s ← Exec.state
  pure (word s.ram a)

def store (a w : Nat) : Malloc Unit := Exec.modify fun s => s.withRam (setWord s.ram a w)

def isInterior (ram : Nat → UInt8) (e : Nat) : Prop := e ≠ 0 ∧ prev ram e ≠ 0 ∧ next ram e ≠ 0

def isTail (ram : Nat → UInt8) (e : Nat) : Prop := e ≠ 0 ∧ prev ram e ≠ 0 ∧ next ram e = 0

instance (ram : Nat → UInt8) (e : Nat) : Decidable (isInterior ram e) :=
  inferInstanceAs (Decidable (_ ∧ _))

instance (ram : Nat → UInt8) (e : Nat) : Decidable (isTail ram e) :=
  inferInstanceAs (Decidable (_ ∧ _))

def listInit (d : Desc) : Malloc Unit := do
  store d.head 0
  store (d.head + 4) d.tail
  store d.tail d.head
  store (d.tail + 4) 0

def listEmpty (d : Desc) : Malloc Bool := do
  let first ← load (d.head + 4)
  pure (first = d.tail)

def listInsert (before elem : Nat) : Malloc Unit := do
  let s ← Exec.state
  assert (isInterior s.ram before ∨ isTail s.ram before)
  assert (elem ≠ 0)
  Exec.modify fun s => s.withRam (insertBefore s.ram before elem)

def listPushFront (d : Desc) (elem : Nat) : Malloc Unit := do
  let first ← load (d.head + 4)
  listInsert first elem

def listPushBack (d : Desc) (elem : Nat) : Malloc Unit := listInsert d.tail elem

def listRemove (elem : Nat) : Malloc Unit := do
  let s ← Exec.state
  assert (isInterior s.ram elem)
  Exec.modify fun s => s.withRam (Links.remove s.ram elem)

def listPopFront (d : Desc) : Malloc Nat := do
  let empty ← listEmpty d
  assert (empty = false)
  let front ← load (d.head + 4)
  listRemove front
  pure front

def sizeofArena : Nat := 12

def arenaMagic : Nat := 0x9a548eed

/-- The loop of `malloc_init`, with `n` descriptors left in the array at `addr`. -/
def initLoop : Nat → Nat → Nat → Malloc Unit
  | 0, _, blockSize => assert (¬blockSize < pgsize / 2)
  | n + 1, addr, blockSize =>
    if blockSize < pgsize / 2 then do
      let d : Desc := ⟨addr, blockSize, (pgsize - sizeofArena) / blockSize⟩
      Exec.modify fun s => { s with descs := s.descs ++ [d] }
      listInit d
      initLoop n (addr + sizeofDesc) (blockSize * 2)
    else pure ()

/-- `malloc_init`, with the address of `descs`. -/
def mallocInit (descs : Nat) : Malloc Unit := initLoop 10 descs 16

/-- `a->desc`; a pointer that is no descriptor is not followed. -/
def arenaDesc (a : Nat) : Malloc (Option Desc) := do
  let s ← Exec.state
  let ptr := word s.ram (a + 4)
  if ptr = 0 then pure none
  else do
    let d ← demand (s.descs.find? fun d => d.addr = ptr)
    pure (some d)

def blockToArena (b : Nat) : Malloc (Nat × Option Desc) := do
  let a := b - b % pgsize
  assert (a ≠ 0)
  let magic ← load a
  assert (magic = arenaMagic)
  let desc ← arenaDesc a
  match desc with
  | some d => assert ((BitVec.ofNat 32 (b % pgsize) - BitVec.ofNat 32 sizeofArena).toNat
      % d.blockSize = 0)
  | none => assert (b % pgsize = sizeofArena)
  pure (a, desc)

def arenaToBlock (a idx : Nat) : Malloc Nat := do
  assert (a ≠ 0)
  let magic ← load a
  assert (magic = arenaMagic)
  let desc ← arenaDesc a
  let d ← demand desc
  assert (idx < d.blocksPerArena)
  pure (a + sizeofArena + idx * d.blockSize)

/-- Apply `f` to `n` blocks of an arena, from the one with index `idx` on. -/
def forBlocks (a : Nat) (f : Nat → Malloc Unit) : Nat → Nat → Malloc Unit
  | 0, _ => pure ()
  | n + 1, idx => do
    let b ← arenaToBlock a idx
    f b
    forBlocks a f n (idx + 1)

/-- A new arena, all of its blocks free; there may be no page for it. -/
def newArena (d : Desc) : Malloc Bool := do
  match ← palloc (pallocGetPage {}) with
  | none => pure false
  | some a => do
    store a arenaMagic
    store (a + 4) d.addr
    store (a + 8) d.blocksPerArena
    forBlocks a (listPushBack d) d.blocksPerArena 0
    pure true

def takeBlock (d : Desc) : Malloc Nat := do
  let b ← listPopFront d
  let (a, _) ← blockToArena b
  let freeCnt ← load (a + 8)
  store (a + 8) (BitVec.ofNat 32 freeCnt - 1).toNat
  pure b

/-- A block that no descriptor is large enough for. -/
def bigBlock (size : BitVec 32) : Malloc (Option Nat) := do
  let pageCnt := (size + BitVec.ofNat 32 sizeofArena + BitVec.ofNat 32 pgsize - 1) /
    BitVec.ofNat 32 pgsize
  match ← palloc (pallocGetMultiple {} pageCnt.toNat) with
  | none => pure none
  | some a => do
    store a arenaMagic
    store (a + 4) 0
    store (a + 8) pageCnt.toNat
    pure (some (a + sizeofArena))

/-- `none` is the null pointer. -/
def malloc (size : BitVec 32) : Malloc (Option Nat) :=
  if size = 0 then pure none
  else do
    let s ← Exec.state
    match s.descs.find? fun d => size.toNat ≤ d.blockSize with
    | none => bigBlock size
    | some d => do
      if ← listEmpty d then do
        if ← newArena d then do
          let b ← takeBlock d
          pure (some b)
        else pure none
      else do
        let b ← takeBlock d
        pure (some b)

def fill (a n : Nat) (byte : UInt8) : Malloc Unit :=
  Exec.modify fun s => s.withRam (splice s.ram a (List.replicate n byte))

def calloc (a b : BitVec 32) : Malloc (Option Nat) :=
  let size := a * b
  if size < a ∨ size < b then pure none
  else do
    match ← malloc size with
    | none => pure none
    | some p => do
      fill p size.toNat 0
      pure (some p)

def blockSize (block : Nat) : Malloc Nat := do
  let (a, desc) ← blockToArena block
  match desc with
  | some d => pure d.blockSize
  | none => do
    let freeCnt ← load (a + 8)
    pure (BitVec.ofNat 32 pgsize * BitVec.ofNat 32 freeCnt - BitVec.ofNat 32 (block % pgsize)).toNat

def freeBlock (b a : Nat) (d : Desc) : Malloc Unit := do
  fill b d.blockSize 0xcc
  listPushFront d b
  let freeCnt ← load (a + 8)
  let freeCnt := (BitVec.ofNat 32 freeCnt + 1).toNat
  store (a + 8) freeCnt
  if d.blocksPerArena ≤ freeCnt then do
    assert (freeCnt = d.blocksPerArena)
    forBlocks a listRemove d.blocksPerArena 0
    palloc (pallocFreePage (some a))
  else pure ()

def free (p : Option Nat) : Malloc Unit :=
  match p with
  | none => pure ()
  | some b => do
    let (a, desc) ← blockToArena b
    match desc with
    | some d => freeBlock b a d
    | none => do
      let pageCnt ← load (a + 8)
      palloc (pallocFreeMultiple (some a) pageCnt)

/-- `memcpy` between blocks that do not overlap. -/
def copy (dst src n : Nat) : Malloc Unit :=
  Exec.modify fun s => s.withRam (splice s.ram dst (slice s.ram src n))

def realloc (oldBlock : Option Nat) (newSize : BitVec 32) : Malloc (Option Nat) :=
  if newSize = 0 then do
    free oldBlock
    pure none
  else do
    let newBlock ← malloc newSize
    match oldBlock, newBlock with
    | some old, some new => do
      let oldSize ← blockSize old
      copy new old (min newSize.toNat oldSize)
      free (some old)
    | _, _ => pure ()
    pure newBlock

end Pintos.Heap
