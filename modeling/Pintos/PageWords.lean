import Pintos.Vaddr

/-! Page directories of `userprog/pagedir.c` at the level of the words that
`threads/pte.h` packs: a directory and its page tables are pages of memory, and the
kernel half of a directory is stored in it. What `palloc_get_page` returns is chosen
by the caller of each function, and the pages that were obtained and freed are
listed in the state. -/

namespace Pintos.PageWords
open Vaddr

structure Kernel where
  initPageDir : BitVec 32
  initRamPages : BitVec 32

/-- The words of memory by address, and the page directory base register. -/
structure State where
  mem : BitVec 32 → BitVec 32
  cr3 : BitVec 32
  taken : List (BitVec 32)
  freed : List (BitVec 32)

def pteAddr : BitVec 32 := 0xfffff000#32

def pteP : BitVec 32 := 0x1#32

def pteW : BitVec 32 := 0x2#32

def pteU : BitVec 32 := 0x4#32

def pteA : BitVec 32 := 0x20#32

def pteD : BitVec 32 := 0x40#32

def isKernelVaddr (vaddr : BitVec 32) : Bool := physBase ≤ vaddr

def ptov (paddr : BitVec 32) : Option (BitVec 32) :=
  if paddr < physBase then some (paddr + physBase) else none

def vtop (vaddr : BitVec 32) : Option (BitVec 32) :=
  if isKernelVaddr vaddr then some (vaddr - physBase) else none

def pdeCreate (pt : BitVec 32) : Option (BitVec 32) := do
  guard (pgOfs pt = 0#32)
  return (← vtop pt) ||| pteU ||| pteP ||| pteW

def pdeGetPt (pde : BitVec 32) : Option (BitVec 32) := do
  guard (pde &&& pteP ≠ 0#32)
  ptov (pde &&& pteAddr)

def pteCreateKernel (page : BitVec 32) (writable : Bool) : Option (BitVec 32) := do
  guard (pgOfs page = 0#32)
  return (← vtop page) ||| pteP ||| (if writable then pteW else 0#32)

def pteCreateUser (page : BitVec 32) (writable : Bool) : Option (BitVec 32) := do
  return (← pteCreateKernel page writable) ||| pteU

def pteGetPage (pte : BitVec 32) : Option (BitVec 32) := ptov (pte &&& pteAddr)

def word (page : BitVec 32) (i : Nat) : BitVec 32 := page + BitVec.ofNat 32 (4 * i)

def State.store (s : State) (x w : BitVec 32) : State :=
  { s with mem := Function.update s.mem x w }

/-- The page at `page` gets the words that `f` gives to its addresses. -/
def State.fill (s : State) (page : BitVec 32) (f : BitVec 32 → BitVec 32) : State :=
  { s with mem := fun x => if pgRoundDown x = page then f x else s.mem x }

/-- `grant` is the page that is found, `none` if all are in use. -/
def pallocGetPage (grant : Option (BitVec 32)) (zero : Bool) (s : State) :
    Option (BitVec 32) × State :=
  match grant with
  | none => (none, s)
  | some page =>
    let s := { s with taken := s.taken ++ [page] }
    (some page, if zero then s.fill page fun _ => 0#32 else s)

def pallocFreePage (page : BitVec 32) (s : State) : State :=
  { s.fill page fun _ => 0xcccccccc#32 with freed := s.freed ++ [page] }

def pagedirCreate (k : Kernel) (grant : Option (BitVec 32)) (s : State) :
    Option (BitVec 32) × State :=
  match pallocGetPage grant false s with
  | (none, s) => (none, s)
  | (some pd, s) => (some pd, s.fill pd fun x => s.mem (k.initPageDir + pgOfs x))

def destroyEntries (pt : BitVec 32) : List Nat → State → Option State
  | [], s => some s
  | j :: rest, s =>
    if s.mem (word pt j) &&& pteP ≠ 0#32 then do
      let page ← pteGetPage (s.mem (word pt j))
      destroyEntries pt rest (pallocFreePage page s)
    else destroyEntries pt rest s

def destroyTables (pd : BitVec 32) : List Nat → State → Option State
  | [], s => some s
  | i :: rest, s =>
    if s.mem (word pd i) &&& pteP ≠ 0#32 then do
      let pt ← pdeGetPt (s.mem (word pd i))
      let s ← destroyEntries pt (List.range (pgsize / 4)) s
      destroyTables pd rest (pallocFreePage pt s)
    else destroyTables pd rest s

def pagedirDestroy (k : Kernel) (pd : BitVec 32) (s : State) : Option State :=
  if pd = 0#32 then some s else do
    guard (pd ≠ k.initPageDir)
    let s ← destroyTables pd (List.range (pdNo physBase).toNat) s
    return pallocFreePage pd s

def lookupPage (pd vaddr : BitVec 32) (create : Bool) (grant : Option (BitVec 32)) (s : State) :
    Option (Option (BitVec 32) × State) := do
  guard (pd ≠ 0#32)
  guard (create = false ∨ isUserVaddr vaddr = true)
  let pde := word pd (pdNo vaddr).toNat
  if s.mem pde = 0#32 then
    if create then
      match pallocGetPage grant true s with
      | (none, s) => return (none, s)
      | (some pt, s) => do
        let s := s.store pde (← pdeCreate pt)
        let pt ← pdeGetPt (s.mem pde)
        return (some (word pt (ptNo vaddr).toNat), s)
    else return (none, s)
  else do
    let pt ← pdeGetPt (s.mem pde)
    return (some (word pt (ptNo vaddr).toNat), s)

def pagedirSetPage (k : Kernel) (pd upage kpage : BitVec 32) (writable : Bool)
    (grant : Option (BitVec 32)) (s : State) : Option (Bool × State) := do
  guard (pgOfs upage = 0#32)
  guard (pgOfs kpage = 0#32)
  guard (isUserVaddr upage = true)
  guard ((← vtop kpage) >>> 12 < k.initRamPages)
  guard (pd ≠ k.initPageDir)
  match ← lookupPage pd upage true grant s with
  | (some pte, s) => do
    guard (s.mem pte &&& pteP = 0#32)
    return (true, s.store pte (← pteCreateUser kpage writable))
  | (none, s) => return (false, s)

def pagedirGetPage (pd uaddr : BitVec 32) (s : State) : Option (Option (BitVec 32)) := do
  guard (isUserVaddr uaddr = true)
  match ← lookupPage pd uaddr false none s with
  | (some pte, s) =>
    if s.mem pte &&& pteP ≠ 0#32 then return some ((← pteGetPage (s.mem pte)) + pgOfs uaddr)
    else return none
  | (none, _) => return none

def pagedirActivate (k : Kernel) (pd : BitVec 32) (s : State) : Option State := do
  let pd := if pd = 0#32 then k.initPageDir else pd
  return { s with cr3 := ← vtop pd }

def activePd (s : State) : Option (BitVec 32) := ptov s.cr3

def invalidatePagedir (k : Kernel) (pd : BitVec 32) (s : State) : Option State := do
  if (← activePd s) = pd then pagedirActivate k pd s else return s

def pagedirClearPage (k : Kernel) (pd upage : BitVec 32) (s : State) : Option State := do
  guard (pgOfs upage = 0#32)
  guard (isUserVaddr upage = true)
  match ← lookupPage pd upage false none s with
  | (some pte, s) =>
    if s.mem pte &&& pteP ≠ 0#32 then invalidatePagedir k pd (s.store pte (s.mem pte &&& ~~~pteP))
    else return s
  | (none, s) => return s

/-- The bits of an entry that the processor sets. -/
inductive Flag where
  | dirty
  | accessed

def Flag.mask : Flag → BitVec 32
  | dirty => pteD
  | accessed => pteA

def isFlag (flag : Flag) (pd vpage : BitVec 32) (s : State) : Option Bool := do
  match ← lookupPage pd vpage false none s with
  | (some pte, s) => return s.mem pte &&& flag.mask ≠ 0#32
  | (none, _) => return false

def setFlag (flag : Flag) (k : Kernel) (pd vpage : BitVec 32) (value : Bool) (s : State) :
    Option State := do
  match ← lookupPage pd vpage false none s with
  | (some pte, s) =>
    if value then return s.store pte (s.mem pte ||| flag.mask)
    else invalidatePagedir k pd (s.store pte (s.mem pte &&& ~~~flag.mask))
  | (none, s) => return s

def pagedirIsDirty : BitVec 32 → BitVec 32 → State → Option Bool := isFlag .dirty

def pagedirSetDirty : Kernel → BitVec 32 → BitVec 32 → Bool → State → Option State :=
  setFlag .dirty

def pagedirIsAccessed : BitVec 32 → BitVec 32 → State → Option Bool := isFlag .accessed

def pagedirSetAccessed : Kernel → BitVec 32 → BitVec 32 → Bool → State → Option State :=
  setFlag .accessed

/-- The loop of `paging_init` over the pages of memory. `grants` are the pages that the
allocator returns, and `inKernelText` tells the addresses of the kernel's code. -/
def pagingLoop (pd : BitVec 32) (inKernelText : BitVec 32 → Bool) :
    List Nat → BitVec 32 → List (BitVec 32) → State → Option State
  | [], _, _, s => some s
  | page :: rest, pt, grants, s => do
    let vaddr ← ptov (BitVec.ofNat 32 (page * pgsize))
    let pde := word pd (pdNo vaddr).toNat
    if s.mem pde = 0#32 then
      match grants with
      | [] => none
      | pt :: grants => do
        let s := (pallocGetPage (some pt) true s).2.store pde (← pdeCreate pt)
        let pte ← pteCreateKernel vaddr (!inKernelText vaddr)
        pagingLoop pd inKernelText rest pt grants (s.store (word pt (ptNo vaddr).toNat) pte)
    else do
      let pte ← pteCreateKernel vaddr (!inKernelText vaddr)
      pagingLoop pd inKernelText rest pt grants (s.store (word pt (ptNo vaddr).toNat) pte)

/-- `paging_init` of `threads/init.c`, which makes `init_page_dir`. -/
def pagingInit (initRamPages : BitVec 32) (inKernelText : BitVec 32 → Bool)
    (grants : List (BitVec 32)) (s : State) : Option (Kernel × State) :=
  match grants with
  | [] => none
  | pd :: grants => do
    let s ← pagingLoop pd inKernelText (List.range initRamPages.toNat) 0#32 grants
      (pallocGetPage (some pd) true s).2
    return (⟨pd, initRamPages⟩, { s with cr3 := ← vtop pd })

/-- Page-aligned addresses of the kernel's half. -/
def IsPage (page : BitVec 32) : Prop := page.toNat % 4096 = 0 ∧ physBase.toNat ≤ page.toNat

section Words

variable {page page' : BitVec 32} {i i' : Nat}

theorem physBase_toNat : physBase.toNat = 3221225472 := rfl

section

variable (h : IsPage page)
include h

theorem word_toNat (lt : i < 1024) : (word page i).toNat = page.toNat + 4 * i := by
  have aligned := h.1
  rw [word, BitVec.toNat_add, BitVec.toNat_ofNat]
  omega

theorem pgRoundDown_word (lt : i < 1024) : pgRoundDown (word page i) = page := by
  apply BitVec.eq_of_toNat_eq
  have aligned := h.1
  rw [pgRoundDown_toNat, word_toNat h lt]
  omega

theorem word_inj (lt : i < 1024) (h' : IsPage page') (lt' : i' < 1024) :
    word page i = word page' i' ↔ page = page' ∧ i = i' := by
  refine ⟨fun same => ?_, fun same => same.1 ▸ same.2 ▸ rfl⟩
  have pages := pgRoundDown_word h lt
  rw [same, pgRoundDown_word h' lt'] at pages
  have place := word_toNat h lt
  rw [same, word_toNat h' lt', pages] at place
  exact ⟨pages.symm, by omega⟩

theorem IsPage.pgOfs_eq : pgOfs page = 0#32 := by
  apply BitVec.eq_of_toNat_eq
  rw [pgOfs_toNat, h.1]
  rfl

theorem IsPage.ne_zero : page ≠ 0#32 := by
  intro zero
  have high := h.2
  rw [zero, physBase_toNat] at high
  exact absurd high (by decide)

theorem IsPage.vtop_eq : vtop page = some (page - physBase) := by
  rw [vtop, isKernelVaddr, if_pos (decide_eq_true (BitVec.le_def.mpr h.2))]

theorem IsPage.sub_toNat : (page - physBase).toNat = page.toNat - 3221225472 := by
  have high := h.2
  rw [physBase_toNat] at high
  rw [BitVec.toNat_sub, physBase_toNat]
  omega

theorem IsPage.ptov_eq : ptov (page - physBase) = some page := by
  have low : page - physBase < physBase := by
    have small := page.isLt
    rw [BitVec.lt_def, h.sub_toNat, physBase_toNat]
    omega
  rw [ptov, if_pos low, BitVec.sub_add_cancel]

end

end Words

structure Mapping where
  kpage : BitVec 32
  writable : Bool
  dirty : Bool
  accessed : Bool

def Mapping.flag (m : Mapping) : Flag → Bool
  | .dirty => m.dirty
  | .accessed => m.accessed

def Mapping.setFlag (m : Mapping) (value : Bool) : Flag → Mapping
  | .dirty => { m with dirty := value }
  | .accessed => { m with accessed := value }

/-- The bits of an entry that is present. -/
structure Encodes (w : BitVec 32) (m : Mapping) : Prop where
  address : w &&& pteAddr = m.kpage - physBase
  present : w.getLsbD 0 = true
  writable : w.getLsbD 1 = m.writable
  user : w.getLsbD 2 = true
  accessed : w.getLsbD 5 = m.accessed
  dirty : w.getLsbD 6 = m.dirty

section Flags

variable {w page : BitVec 32} {m : Mapping} {n i : Nat}

theorem pteP_eq : pteP = BitVec.twoPow 32 0 := by decide


theorem pteAddr_getLsbD (lt : i < 32) : pteAddr.getLsbD i = decide (12 ≤ i) := by
  have mask : pteAddr = ~~~pgmask := by decide
  rw [mask, BitVec.getLsbD_not, pgmask_getLsbD]
  by_cases low : i < 12
  · simp [low]
  · simp [lt, low, Nat.le_of_not_lt low]

theorem and_twoPow_ne_zero (lt : n < 32) : w &&& BitVec.twoPow 32 n ≠ 0#32 ↔ w.getLsbD n = true := by
  have power : BitVec.twoPow 32 n ≠ 0#32 := by
    intro zero
    have bit := congrArg (·.getLsbD n) zero
    simp [lt] at bit
  rw [BitVec.and_twoPow]
  split
  · simp_all
  · simp_all

theorem getLsbD_and_not_twoPow (lt : i < 32) :
    (w &&& ~~~BitVec.twoPow 32 n).getLsbD i = if i = n then false else w.getLsbD i := by
  rw [BitVec.getLsbD_and, BitVec.getLsbD_not, BitVec.getLsbD_twoPow]
  by_cases same : i = n
  · subst same
    simp [lt]
  · simp [same, Ne.symm same, lt]

theorem and_pteAddr_congr {v : BitVec 32} (high : ∀ i, 12 ≤ i → i < 32 → v.getLsbD i = w.getLsbD i) :
    v &&& pteAddr = w &&& pteAddr := by
  apply BitVec.eq_of_getLsbD_eq
  intro i lt
  rw [BitVec.getLsbD_and, BitVec.getLsbD_and, pteAddr_getLsbD lt]
  by_cases le : 12 ≤ i
  · rw [high i le lt]
  · simp [le]

theorem IsPage.low_bits (h : IsPage page) (low : i < 12) : (page - physBase).getLsbD i = false := by
  have aligned := h.1
  have zero : pgOfs (page - physBase) = 0#32 := by
    apply BitVec.eq_of_toNat_eq
    rw [pgOfs_toNat, h.sub_toNat]
    change _ = 0
    omega
  have bit := congrArg (·.getLsbD i) zero
  simpa [pgOfs, pgmask_getLsbD, low] using bit

theorem Encodes.present_ne (h : Encodes w m) : w &&& pteP ≠ 0#32 := by
  rw [pteP_eq, and_twoPow_ne_zero (by decide)]
  exact h.present

theorem and_pteP (absent : w.getLsbD 0 = false) : w &&& pteP = 0#32 := by
  by_contra present
  rw [pteP_eq] at present
  rw [(and_twoPow_ne_zero (by decide)).mp present] at absent
  cases absent

theorem Encodes.pteGetPage (h : Encodes w m) (page : IsPage m.kpage) :
    pteGetPage w = some m.kpage := by
  rw [PageWords.pteGetPage, h.address, page.ptov_eq]

def Flag.bit : Flag → Nat
  | dirty => 6
  | accessed => 5

theorem Flag.mask_eq (f : Flag) : f.mask = BitVec.twoPow 32 f.bit := by
  cases f <;> decide

theorem Flag.bit_range (f : Flag) : 2 < f.bit ∧ f.bit < 12 := by
  cases f <;> decide

theorem Encodes.flag (h : Encodes w m) (f : Flag) : w &&& f.mask ≠ 0#32 ↔ m.flag f = true := by
  have range := f.bit_range
  rw [f.mask_eq, and_twoPow_ne_zero (by omega)]
  cases f with
  | dirty => rw [Flag.bit, h.dirty, Mapping.flag]
  | accessed => rw [Flag.bit, h.accessed, Mapping.flag]

theorem Encodes.change {v : BitVec 32} (h : Encodes w m) (f : Flag) {value : Bool}
    (bits : ∀ i < 32, v.getLsbD i = if i = f.bit then value else w.getLsbD i) :
    Encodes v (m.setFlag value f) := by
  have range := f.bit_range
  have other {i : Nat} (lt : i < 32) (ne : i ≠ f.bit) : v.getLsbD i = w.getLsbD i := by
    rw [bits i lt, if_neg ne]
  have address : v &&& pteAddr = w &&& pteAddr :=
    and_pteAddr_congr fun i le lt => other lt (by omega)
  cases f with
  | dirty =>
    exact ⟨address.trans h.address, (other (by decide) (by decide)).trans h.present,
      (other (by decide) (by decide)).trans h.writable,
      (other (by decide) (by decide)).trans h.user,
      (other (by decide) (by decide)).trans h.accessed, bits 6 (by decide)⟩
  | accessed =>
    exact ⟨address.trans h.address, (other (by decide) (by decide)).trans h.present,
      (other (by decide) (by decide)).trans h.writable,
      (other (by decide) (by decide)).trans h.user, bits 5 (by decide),
      (other (by decide) (by decide)).trans h.dirty⟩

theorem flag_bits (w : BitVec 32) (f : Flag) (value : Bool) {i : Nat} (lt : i < 32) :
    (if value then w ||| f.mask else w &&& ~~~f.mask).getLsbD i =
      if i = f.bit then value else w.getLsbD i := by
  have range := f.bit_range
  rw [f.mask_eq]
  cases value with
  | false => exact getLsbD_and_not_twoPow lt
  | true =>
    rw [if_pos rfl, BitVec.getLsbD_or, BitVec.getLsbD_twoPow]
    by_cases same : i = f.bit
    · simp [same, show f.bit < 32 by omega]
    · simp [same, Ne.symm same]

theorem IsPage.flagged (h : IsPage page) {flags : BitVec 32} (small : flags.toNat < 4096) :
    ((page - physBase) ||| flags) &&& pteAddr = page - physBase ∧
      ∀ i < 12, ((page - physBase) ||| flags).getLsbD i = flags.getLsbD i := by
  refine ⟨(and_pteAddr_congr (w := page - physBase) fun i le lt => ?_).trans
    (BitVec.eq_of_getLsbD_eq fun i lt => ?_), fun i lt => ?_⟩
  · have power : 2 ^ 12 ≤ 2 ^ i := Nat.pow_le_pow_right (by decide) le
    have high : flags.getLsbD i = false :=
      Nat.testBit_lt_two_pow (Nat.lt_of_lt_of_le small power)
    rw [BitVec.getLsbD_or, high, Bool.or_false]
  · rw [BitVec.getLsbD_and, pteAddr_getLsbD lt]
    by_cases low : i < 12
    · rw [h.low_bits low, Bool.false_and]
    · simp [Nat.le_of_not_lt low]
  · rw [BitVec.getLsbD_or, h.low_bits lt, Bool.false_or]

theorem IsPage.pteCreateUser (h : IsPage page) (writable : Bool) :
    ∃ w, pteCreateUser page writable = some w ∧ Encodes w ⟨page, writable, false, false⟩ := by
  have small : (pteP ||| (if writable then pteW else 0#32) ||| pteU).toNat < 4096 := by
    cases writable <;> decide
  obtain ⟨address, bits⟩ := h.flagged small
  refine ⟨(page - physBase) ||| (pteP ||| (if writable then pteW else 0#32) ||| pteU), ?_, address,
    ?_, ?_, ?_, ?_, ?_⟩
  · rw [← BitVec.or_assoc, ← BitVec.or_assoc]
    simp only [PageWords.pteCreateUser, pteCreateKernel, h.pgOfs_eq, guard, h.vtop_eq]
    rfl
  · rw [bits 0 (by decide)]
    cases writable <;> rfl
  · rw [bits 1 (by decide)]
    cases writable <;> rfl
  · rw [bits 2 (by decide)]
    cases writable <;> rfl
  · rw [bits 5 (by decide)]
    cases writable <;> rfl
  · rw [bits 6 (by decide)]
    cases writable <;> rfl

def pdeOf (pt : BitVec 32) : BitVec 32 := (pt - physBase) ||| pteU ||| pteP ||| pteW

theorem IsPage.pdeCreate (h : IsPage page) : pdeCreate page = some (pdeOf page) := by
  simp only [PageWords.pdeCreate, h.pgOfs_eq, guard, h.vtop_eq]
  rfl

theorem IsPage.pdeOf_bits (h : IsPage page) :
    pdeOf page &&& pteAddr = page - physBase ∧ pdeOf page &&& pteP ≠ 0#32 := by
  have flags : pdeOf page = (page - physBase) ||| 7#32 := by
    rw [pdeOf, BitVec.or_assoc, BitVec.or_assoc]
    rfl
  obtain ⟨address, bits⟩ := h.flagged (show (7#32).toNat < 4096 by decide)
  rw [flags, pteP_eq, and_twoPow_ne_zero (by decide), bits 0 (by decide)]
  exact ⟨address, rfl⟩

theorem IsPage.pdeGetPt (h : IsPage page) : pdeGetPt (pdeOf page) = some page := by
  obtain ⟨address, present⟩ := h.pdeOf_bits
  rw [PageWords.pdeGetPt, address]
  simp only [guard, if_pos present, h.ptov_eq]
  rfl

theorem IsPage.pdeOf_ne_zero (h : IsPage page) : pdeOf page ≠ 0#32 := by
  intro zero
  apply h.pdeOf_bits.2
  rw [zero]
  rfl

end Flags

end Pintos.PageWords
