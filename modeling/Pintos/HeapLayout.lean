import Pintos.Heap
import Pintos.Accounts

/-! The heap as a set of objects in memory that do not overlap: descriptors, arena headers,
small blocks and the blocks that have pages of their own. -/

namespace Pintos.HeapLayout
open ByteStore Links Stoppable Vaddr Palloc Accounts Heap

inductive Kind where
  | small (d : Desc)
  | big (pageCnt : Nat)

def Kind.pages : Kind → Nat
  | .small _ => 1
  | .big pageCnt => pageCnt

def descAt (descs i : Nat) : Desc :=
  ⟨descs + sizeofDesc * i, 16 * 2 ^ i, (pgsize - sizeofArena) / (16 * 2 ^ i)⟩

/-- The descriptors that `malloc_init` makes. -/
def table (descs : Nat) : List Desc := (List.range 7).map (descAt descs)

def block (a : Nat) (d : Desc) (i : Nat) : Nat := a + sizeofArena + i * d.blockSize

variable {descs : Nat} {d d' : Desc} {a a' i : Nat}

theorem mem_table : d ∈ table descs ↔ ∃ i < 7, d = descAt descs i := by
  simp only [table, List.mem_map, List.mem_range]
  constructor
  · rintro ⟨i, lt, rfl⟩
    exact ⟨i, lt, rfl⟩
  · rintro ⟨i, lt, rfl⟩
    exact ⟨i, lt, rfl⟩

theorem table_sizes (h : d ∈ table descs) : 16 ≤ d.blockSize ∧ d.blockSize ≤ 1024 ∧
    0 < d.blocksPerArena ∧ 12 + d.blocksPerArena * d.blockSize ≤ 4096 := by
  obtain ⟨i, lt, rfl⟩ := mem_table.mp h
  have sizes : ∀ i < 7, 16 ≤ 16 * 2 ^ i ∧ 16 * 2 ^ i ≤ 1024 ∧ 0 < 4084 / (16 * 2 ^ i) ∧
      12 + 4084 / (16 * 2 ^ i) * (16 * 2 ^ i) ≤ 4096 := by decide
  exact sizes i lt

theorem table_addr (h : d ∈ table descs) : descs ≤ d.addr ∧ d.addr + 48 ≤ descs + 336 := by
  obtain ⟨i, lt, rfl⟩ := mem_table.mp h
  simp only [descAt, sizeofDesc]
  omega

theorem table_apart (h : d ∈ table descs) (h' : d' ∈ table descs) (ne : d ≠ d') :
    d.addr + 48 ≤ d'.addr ∨ d'.addr + 48 ≤ d.addr := by
  obtain ⟨i, -, rfl⟩ := mem_table.mp h
  obtain ⟨j, -, rfl⟩ := mem_table.mp h'
  have index : i ≠ j := fun same => ne (same ▸ rfl)
  simp only [descAt, sizeofDesc]
  omega

theorem block_bounds (h : d ∈ table descs) (lt : i < d.blocksPerArena) :
    a + 12 ≤ block a d i ∧ block a d i + d.blockSize ≤ a + 4096 := by
  have fits := (table_sizes h).2.2.2
  have within : (i + 1) * d.blockSize ≤ d.blocksPerArena * d.blockSize :=
    Nat.mul_le_mul_right _ lt
  rw [Nat.succ_mul] at within
  simp only [block, sizeofArena]
  omega

/-- The parts of memory that the allocator and its clients tell apart. -/
inductive Obj where
  | desc (d : Desc)
  | header (a : Nat)
  | block (a : Nat) (d : Desc) (i : Nat)
  | payload (a pageCnt : Nat)

def Obj.low : Obj → Nat
  | .desc d => d.addr
  | .header a => a
  | .block a d i => HeapLayout.block a d i
  | .payload a _ => a + sizeofArena

def Obj.high : Obj → Nat
  | .desc d => d.addr + sizeofDesc
  | .header a => a + sizeofArena
  | .block a d i => HeapLayout.block a d i + d.blockSize
  | .payload a pageCnt => a + pgsize * pageCnt

variable {kind : Nat → Option Kind}

def Obj.In (descs : Nat) (kind : Nat → Option Kind) : Obj → Prop
  | .desc d => d ∈ table descs
  | .header a => kind a ≠ none
  | .block a d i => kind a = some (.small d) ∧ i < d.blocksPerArena
  | .payload a pageCnt => kind a = some (.big pageCnt)

/-- The arenas have pages of the kernel pool, each page for one of them. -/
structure Shape (descs : Nat) (m : Mem) (kind : Nat → Option Kind) : Prop where
  above : physBase.toNat ≤ descs
  below : descs + 336 ≤ (m.pool false).base
  known : ∀ a d, kind a = some (.small d) → d ∈ table descs
  pos : ∀ a k, kind a = some k → 0 < k.pages
  used : ∀ a k q, kind a = some k → Span a k.pages q → (m.pool false).Used q
  once : ∀ a k a' k' q, kind a = some k → kind a' = some k' → Span a k.pages q →
    Span a' k'.pages q → a = a'

variable {m : Mem}

theorem Shape.page (sh : Shape descs m kind) {k : Kind} (h : kind a = some k) :
    a % 4096 = 0 ∧ descs + 336 ≤ a ∧ a + 4096 * k.pages ≤ 2 ^ 32 := by
  have aligned := (m.pool false).aligned
  have below := sh.below
  have apart := m.apart
  have room := m.room
  have fits := m.fits
  have pos := sh.pos a k h
  obtain ⟨i, -, first, -⟩ := sh.used a k a h ⟨0, pos, by simp⟩
  obtain ⟨j, lt, last, -⟩ := sh.used a k (a + 4096 * (k.pages - 1)) h ⟨k.pages - 1, by omega, rfl⟩
  simp only [pgsize, pgbits, Mem.pool] at *
  omega

theorem Shape.apart (sh : Shape descs m kind) {k k' : Kind} (h : kind a = some k)
    (h' : kind a' = some k') (ne : a ≠ a') :
    a + 4096 * k.pages ≤ a' ∨ a' + 4096 * k'.pages ≤ a := by
  by_contra overlap
  obtain ⟨before, after⟩ := not_or.mp overlap
  obtain ⟨aligned, -, -⟩ := sh.page h
  obtain ⟨aligned', -, -⟩ := sh.page h'
  have pos := sh.pos a k h
  have pos' := sh.pos a' k' h'
  rcases Nat.le_total a a' with le | le
  · refine ne (sh.once a k a' k' a' h h' ⟨(a' - a) / 4096, by omega, ?_⟩ ⟨0, pos', by simp⟩)
    simp only [pgsize, pgbits]
    omega
  · refine ne (sh.once a k a' k' a h h' ⟨0, pos, by simp⟩ ⟨(a - a') / 4096, by omega, ?_⟩)
    simp only [pgsize, pgbits]
    omega

def Obj.arena : Obj → Option Nat
  | .desc _ => none
  | .header a => some a
  | .block a _ _ => some a
  | .payload a _ => some a

variable {o o' : Obj}

theorem Obj.In.arena (h : o.In descs kind) (e : o.arena = some a) : ∃ k, kind a = some k := by
  cases o with
  | desc d => cases e
  | header a => cases e; exact Option.ne_none_iff_exists'.mp h
  | block a d i => cases e; exact ⟨_, h.1⟩
  | payload a n => cases e; exact ⟨_, h⟩

theorem Shape.within (sh : Shape descs m kind) (h : o.In descs kind) (e : o.arena = some a)
    {k : Kind} (hk : kind a = some k) : a ≤ o.low ∧ o.high ≤ a + 4096 * k.pages := by
  have pos := sh.pos a k hk
  cases o with
  | desc d => cases e
  | header a =>
    cases e
    simp only [Obj.low, Obj.high, sizeofArena]
    omega
  | block a d i =>
    cases e
    rw [h.1] at hk
    cases hk
    have bounds := block_bounds (a := a) (sh.known a d h.1) h.2
    simp only [Obj.low, Obj.high, Kind.pages]
    omega
  | payload a n =>
    cases e
    have same : kind a = some (.big n) := h
    rw [same] at hk
    cases hk
    simp only [Obj.low, Obj.high, Kind.pages, sizeofArena, pgsize, pgbits]
    omega

theorem block_apart {j : Nat} (ne : i ≠ j) :
    block a d i + d.blockSize ≤ block a d j ∨ block a d j + d.blockSize ≤ block a d i := by
  simp only [block]
  rcases Nat.lt_or_gt_of_ne ne with less | more
  · have := Nat.mul_le_mul_right d.blockSize (Nat.succ_le_of_lt less)
    rw [Nat.succ_mul] at this
    omega
  · have := Nat.mul_le_mul_right d.blockSize (Nat.succ_le_of_lt more)
    rw [Nat.succ_mul] at this
    omega

theorem block_injective (h : d ∈ table descs) {j : Nat} (same : block a d i = block a d j) :
    i = j := by
  by_contra ne
  have size := (table_sizes h).1
  rcases block_apart (a := a) (d := d) ne with apart | apart
  · omega
  · omega

theorem Shape.disjoint_arena (sh : Shape descs m kind) (h : o.In descs kind)
    (h' : o'.In descs kind) (ne : o ≠ o') (e : o.arena = some a) (e' : o'.arena = some a) :
    o.high ≤ o'.low ∨ o'.high ≤ o.low := by
  cases o with
  | desc d => cases e
  | header b =>
    cases e
    cases o' with
    | desc d => cases e'
    | header b => cases e'; exact absurd rfl ne
    | block b d i =>
      cases e'
      exact .inl (block_bounds (sh.known a d h'.1) h'.2).1
    | payload b n => cases e'; exact .inl (Nat.le_refl _)
  | block b d i =>
    cases e
    cases o' with
    | desc d => cases e'
    | header b => cases e'; exact .inr (block_bounds (sh.known a d h.1) h.2).1
    | block b d' j =>
      cases e'
      have kinds := h.1.symm.trans h'.1
      cases kinds
      exact block_apart fun same => ne (same ▸ rfl)
    | payload b n =>
      cases e'
      have kinds := h.1.symm.trans h'
      cases kinds
  | payload b n =>
    cases e
    cases o' with
    | desc d => cases e'
    | header b => cases e'; exact .inr (Nat.le_refl _)
    | block b d j =>
      cases e'
      have kinds := h'.1.symm.trans h
      cases kinds
    | payload b n' =>
      cases e'
      have kinds := h.symm.trans h'
      cases kinds
      exact absurd rfl ne

theorem Shape.desc_low (sh : Shape descs m kind) (hd : d ∈ table descs) (h : o.In descs kind)
    (e : o.arena = some a) : d.addr + sizeofDesc ≤ o.low := by
  obtain ⟨k, hk⟩ := h.arena e
  have addr := table_addr hd
  have page := sh.page hk
  have low := (sh.within h e hk).1
  simp only [sizeofDesc]
  omega

theorem Shape.disjoint (sh : Shape descs m kind) (h : o.In descs kind) (h' : o'.In descs kind)
    (ne : o ≠ o') : o.high ≤ o'.low ∨ o'.high ≤ o.low := by
  cases e : o.arena with
  | none =>
    cases o with
    | desc d =>
      cases e' : o'.arena with
      | none =>
        cases o' with
        | desc d' => exact table_apart h h' fun same => ne (same ▸ rfl)
        | header a => cases e'
        | block a d i => cases e'
        | payload a n => cases e'
      | some a' => exact .inl (sh.desc_low h h' e')
    | header a => cases e
    | block a d i => cases e
    | payload a n => cases e
  | some a =>
    cases e' : o'.arena with
    | none =>
      cases o' with
      | desc d' => exact .inr (sh.desc_low h' h e)
      | header a => cases e'
      | block a d i => cases e'
      | payload a n => cases e'
    | some a' =>
      by_cases same : a = a'
      · exact sh.disjoint_arena h h' ne e (same ▸ e')
      obtain ⟨k, hk⟩ := h.arena e
      obtain ⟨k', hk'⟩ := h'.arena e'
      have within := sh.within h e hk
      have within' := sh.within h' e' hk'
      rcases sh.apart hk hk' same with apart | apart
      · exact .inl (by omega)
      · exact .inr (by omega)

/-- The bytes of an object are the same. -/
def Agree (ram ram' : Nat → UInt8) (o : Obj) : Prop :=
  ∀ x, o.low ≤ x → x < o.high → ram' x = ram x

/-- Only objects with `W` are written to. -/
def Touches (descs : Nat) (kind : Nat → Option Kind) (W : Obj → Prop) (ram ram' : Nat → UInt8) :
    Prop := ∀ o, o.In descs kind → ¬W o → Agree ram ram' o

variable {ram ram' ram'' : Nat → UInt8} {W W' : Obj → Prop}

theorem Touches.refl : Touches descs kind W ram ram := fun _ _ _ _ _ _ => rfl

theorem Touches.trans (h : Touches descs kind W ram ram') (h' : Touches descs kind W ram' ram'') :
    Touches descs kind W ram ram'' := fun o ho off x low high =>
  (h' o ho off x low high).trans (h o ho off x low high)

theorem Touches.mono (h : Touches descs kind W ram ram') (sub : ∀ o, W o → W' o) :
    Touches descs kind W' ram ram' := fun o ho off => h o ho fun hw => off (sub o hw)

theorem Shape.touches (sh : Shape descs m kind) (h : o.In descs kind)
    (same : ∀ x, x < o.low ∨ o.high ≤ x → ram' x = ram x) :
    Touches descs kind (· = o) ram ram' := fun o' h' ne x low high => same x (by
  rcases sh.disjoint h h' (Ne.symm ne) with apart | apart
  · exact .inr (by omega)
  · exact .inl (by omega))

/-- Only memory below the user pool is written to. -/
def Below (m : Mem) (ram ram' : Nat → UInt8) : Prop :=
  ∀ x, (m.pool true).base ≤ x → ram' x = ram x

/-- The user pool is as it was, and so is memory from there on; the kernel pool is at its
place. -/
structure Beyond (m m' : Mem) : Prop where
  pool : m'.pool true = m.pool true
  base : (m'.pool false).base = (m.pool false).base
  pages : (m'.pool false).pages = (m.pool false).pages
  ram : Below m m.ram m'.ram

theorem Below.trans (h : Below m ram ram') (h' : Below m ram' ram'') : Below m ram ram'' :=
  fun x le => (h' x le).trans (h x le)

theorem Beyond.trans {m' m'' : Mem} (h : Beyond m m') (h' : Beyond m' m'') : Beyond m m'' where
  pool := h'.pool.trans h.pool
  base := h'.base.trans h.base
  pages := h'.pages.trans h.pages
  ram x le := (h'.ram x (by rwa [h.pool])).trans (h.ram x le)

theorem Shape.pages_le (sh : Shape descs m kind) {k : Kind} (h : kind a = some k) :
    a + 4096 * k.pages ≤ (m.pool true).base := by
  have apart := m.apart
  have pos := sh.pos a k h
  obtain ⟨j, lt, last, -⟩ := sh.used a k (a + 4096 * (k.pages - 1)) h ⟨k.pages - 1, by omega, rfl⟩
  simp only [pgsize, pgbits, Mem.pool] at *
  omega

theorem Shape.high_le (sh : Shape descs m kind) (h : o.In descs kind) :
    o.high ≤ (m.pool true).base := by
  cases e : o.arena with
  | none =>
    cases o with
    | desc d =>
      have addr := table_addr h
      have below := sh.below
      have apart := m.apart
      simp only [Obj.high, sizeofDesc, pgsize, pgbits, Mem.pool] at *
      omega
    | header a => cases e
    | block a d i => cases e
    | payload a n => cases e
  | some a =>
    obtain ⟨k, hk⟩ := h.arena e
    exact (sh.within h e hk).2.trans (sh.pages_le hk)

theorem Shape.writes_below (sh : Shape descs m kind) (h : o.In descs kind)
    (same : ∀ x, x < o.low ∨ o.high ≤ x → ram' x = ram x) : Below m ram ram' :=
  fun x le => same x (.inr ((sh.high_le h).trans le))

/-- What can be on the free list of `d`, and its two ends. -/
def Elem (kind : Nat → Option Kind) (d : Desc) : Set Nat :=
  {x | x = d.head ∨ x = d.tail ∨ ∃ a i, kind a = some (.small d) ∧ i < d.blocksPerArena ∧
    x = block a d i}

theorem Shape.separate (sh : Shape descs m kind) (hd : d ∈ table descs) :
    Separate (Elem kind d) where
  apart x hx y hy ne := by
    have size := (table_sizes hd).1
    rcases hx with rfl | rfl | ⟨a, i, hk, lt, rfl⟩ <;>
      rcases hy with rfl | rfl | ⟨a', i', hk', lt', rfl⟩
    · exact absurd rfl ne
    · exact .inl (Nat.le_refl _)
    · have low := sh.desc_low (o := .block a' d i') hd ⟨hk', lt'⟩ rfl
      simp only [Desc.head, Obj.low, sizeofDesc, Apart] at *
      omega
    · exact .inr (Nat.le_refl _)
    · exact absurd rfl ne
    · have low := sh.desc_low (o := .block a' d i') hd ⟨hk', lt'⟩ rfl
      simp only [Desc.tail, Obj.low, sizeofDesc, Apart] at *
      omega
    · have low := sh.desc_low (o := .block a d i) hd ⟨hk, lt⟩ rfl
      simp only [Desc.head, Obj.low, sizeofDesc, Apart] at *
      omega
    · have low := sh.desc_low (o := .block a d i) hd ⟨hk, lt⟩ rfl
      simp only [Desc.tail, Obj.low, sizeofDesc, Apart] at *
      omega
    · have differ : Obj.block a d i ≠ .block a' d i' := fun same => by
        cases same
        exact ne rfl
      have inside : (Obj.block a d i).In descs kind := ⟨hk, lt⟩
      have inside' : (Obj.block a' d i').In descs kind := ⟨hk', lt'⟩
      have apart : block a d i + d.blockSize ≤ block a' d i' ∨
        block a' d i' + d.blockSize ≤ block a d i := sh.disjoint inside inside' differ
      simp only [Apart]
      omega
  bounded x hx := by
    have addr := table_addr hd
    have below := sh.below
    have apart := m.apart
    have room := m.room
    have fits := m.fits
    simp only [Mem.pool, pgsize, pgbits] at *
    rcases hx with rfl | rfl | ⟨a, i, hk, lt, rfl⟩
    · simp only [Desc.head]
      omega
    · simp only [Desc.tail]
      omega
    · have page := sh.page hk
      have bounds := block_bounds (a := a) hd lt
      have size := (table_sizes hd).1
      simp only [Kind.pages] at page
      omega

theorem Shape.elem_le (sh : Shape descs m kind) (hd : d ∈ table descs) {x : Nat}
    (h : x ∈ Elem kind d) : x + 8 ≤ (m.pool true).base := by
  have ends := sh.high_le (o := .desc d) hd
  have size := (table_sizes hd).1
  simp only [Obj.high, sizeofDesc] at ends
  rcases h with rfl | rfl | ⟨a, i, hk, lt, rfl⟩
  · simp only [Desc.head]
    omega
  · simp only [Desc.tail]
    omega
  · have high : block a d i + d.blockSize ≤ (m.pool true).base :=
      sh.high_le (o := .block a d i) ⟨hk, lt⟩
    omega

end Pintos.HeapLayout
