import Pintos.Palloc

/-! Page directories of `userprog/pagedir.c`. The user half of a directory is a map from
indices to page tables and a table a map from indices to entries; an entry that is not
present is `none`. The kernel half is the same in every directory and is not stored. -/

namespace Pintos.Pagedir
open ByteStore Stoppable Vaddr Function
open Palloc hiding update
open Exec (Respects run_bind_ok run_state)

structure Pte where
  kpage : Nat
  writable : Bool
  accessed : Bool

structure PageTable where
  page : Nat
  ptes : Nat → Option Pte

structure Directory where
  page : Nat
  pdes : Nat → Option PageTable

structure Space extends Mem where
  pagedir : Option Directory

abbrev Paging := Exec Stop Space

def alloc {α : Type} (x : Alloc α) : Paging α := x.zoom Space.toMem fun s m => { s with toMem := m }

def setPagedir (pd : Option Directory) : Paging Unit := Exec.modify fun s => { s with pagedir := pd }

def PageTable.set (pt : PageTable) (j : Nat) (x : Option Pte) : PageTable :=
  { pt with ptes := update pt.ptes j x }

def Directory.set (pd : Directory) (i : Nat) (pt : PageTable) : Directory :=
  { pd with pdes := update pd.pdes i (some pt) }

def Directory.pte (pd : Directory) (va : BitVec 32) : Option Pte :=
  (pd.pdes (pdNo va).toNat).bind fun pt => pt.ptes (ptNo va).toNat

def pagedirCreate : Paging (Option Directory) := do
  match ← alloc (pallocGetPage {}) with
  | none => pure none
  | some page => pure (some ⟨page, fun _ => none⟩)

def destroyEntries (pt : PageTable) : List Nat → Paging Unit
  | [] => pure ()
  | j :: rest => do
    match pt.ptes j with
    | none => pure ()
    | some pte => alloc (pallocFreePage (some pte.kpage))
    destroyEntries pt rest

def destroyTables (pd : Directory) : List Nat → Paging Unit
  | [] => pure ()
  | i :: rest => do
    match pd.pdes i with
    | none => pure ()
    | some pt => do
      destroyEntries pt (List.range 1024)
      alloc (pallocFreePage (some pt.page))
    destroyTables pd rest

def pagedirDestroy : Option Directory → Paging Unit
  | none => pure ()
  | some pd => do
    destroyTables pd (List.range (pdNo physBase).toNat)
    alloc (pallocFreePage (some pd.page))

/-- Where the entry of `vaddr` is: the index of its table, the table, and the index there. -/
def lookupPage (vaddr : BitVec 32) (create : Bool) : Paging (Option (Nat × PageTable × Nat)) := do
  let s ← Exec.state
  let pd ← demand s.pagedir
  assert (create = false ∨ isUserVaddr vaddr = true)
  match pd.pdes (pdNo vaddr).toNat with
  | some pt => pure (some ((pdNo vaddr).toNat, pt, (ptNo vaddr).toNat))
  | none =>
    if create then do
      match ← alloc (pallocGetPage { zero := true }) with
      | none => pure none
      | some page => do
        let pt : PageTable := ⟨page, fun _ => none⟩
        setPagedir (some (pd.set (pdNo vaddr).toNat pt))
        pure (some ((pdNo vaddr).toNat, pt, (ptNo vaddr).toNat))
    else pure none

/-- `*pte = x`, for the entry that `lookup_page` has found. -/
def storePte (slot : Nat × PageTable × Nat) (x : Pte) : Paging Unit := do
  let s ← Exec.state
  let pd ← demand s.pagedir
  setPagedir (some (pd.set slot.1 (slot.2.1.set slot.2.2 (some x))))

def vtop (vaddr : Nat) : Nat := vaddr - physBase.toNat

def pagedirSetPage (upage : BitVec 32) (kpage : Nat) (writable : Bool) : Paging Bool := do
  assert (pgOfs upage = 0)
  assert (kpage % pgsize = 0)
  assert (isUserVaddr upage = true)
  assert (physBase.toNat ≤ kpage)
  let s ← Exec.state
  assert (vtop kpage / pgsize < s.initRamPages)
  match ← lookupPage upage true with
  | some slot => do
    assert (slot.2.1.ptes slot.2.2 = none)
    storePte slot ⟨kpage, writable, false⟩
    pure true
  | none => pure false

def pagedirGetPage (uaddr : BitVec 32) : Paging (Option Nat) := do
  assert (isUserVaddr uaddr = true)
  match ← lookupPage uaddr false with
  | some slot => pure ((slot.2.1.ptes slot.2.2).map fun pte => pte.kpage + (pgOfs uaddr).toNat)
  | none => pure none

def pagedirSetAccessed (vpage : BitVec 32) (accessed : Bool) : Paging Unit := do
  match ← lookupPage vpage false with
  | some slot =>
    match slot.2.1.ptes slot.2.2 with
    | some pte => storePte slot { pte with accessed := accessed }
    | none => pure ()
  | none => pure ()

section Specs

variable {s : Space} {pd : Directory} {va : BitVec 32}

theorem run_alloc {α : Type} {x : Alloc α} {r : Except Stop α} {m : Mem}
    (h : x.run s.toMem = (r, m)) : (alloc x).run s = (r, { s with toMem := m }) :=
  Exec.run_zoom h

theorem run_lookupPage_false (dir : s.pagedir = some pd) : (lookupPage va false).run s =
    (.ok ((pd.pdes (pdNo va).toNat).map fun pt => ((pdNo va).toNat, pt, (ptNo va).toNat)), s) := by
  rw [lookupPage, run_bind_ok (run_state s), dir, run_bind_ok (run_demand pd s),
    run_bind_ok (run_assert (.inl rfl) s)]
  cases pd.pdes (pdNo va).toNat <;> rfl

theorem run_pagedirGetPage (user : isUserVaddr va = true) (dir : s.pagedir = some pd) :
    (pagedirGetPage va).run s = (.ok ((pd.pte va).map fun x => x.kpage + (pgOfs va).toNat), s) := by
  rw [pagedirGetPage, run_bind_ok (run_assert user s),
    run_bind_ok (run_lookupPage_false dir), Directory.pte]
  cases pd.pdes (pdNo va).toNat <;> rfl

/-- The table for `va`, old or new, and the memory once it is there. -/
inductive Table (s : Space) (pd : Directory) (va : BitVec 32) : PageTable → Mem → Prop where
  | old {pt : PageTable} : pd.pdes (pdNo va).toNat = some pt → Table s pd va pt s.toMem
  | new {page : Nat} {m : Mem} : pd.pdes (pdNo va).toNat = none → Taken s.toMem m false page 1 →
      Table s pd va ⟨page, fun _ => none⟩ (m.store page (List.replicate pgsize 0))

def Directory.map (pd : Directory) (va : BitVec 32) (pt : PageTable) (x : Pte) : Directory :=
  pd.set (pdNo va).toNat (pt.set (ptNo va).toNat (some x))

theorem Table.ptes {pt : PageTable} {m : Mem} (h : Table s pd va pt m) (j : Nat) :
    pt.ptes j = (pd.pdes (pdNo va).toNat).bind fun pt => pt.ptes j := by
  cases h with
  | old e => rw [e, Option.bind_some]
  | new e => rw [e, Option.bind_none]

theorem run_lookupPage_true (user : isUserVaddr va = true) (dir : s.pagedir = some pd) :
    (∃ pt m pd', Table s pd va pt m ∧ (∀ x, pd'.map va pt x = pd.map va pt x) ∧
      (lookupPage va true).run s =
        (.ok (some ((pdNo va).toNat, pt, (ptNo va).toNat)), ⟨m, some pd'⟩)) ∨
    (pd.pdes (pdNo va).toNat = none ∧ (∀ q, s.kernelPool.Has q → s.kernelPool.Used q) ∧
      (lookupPage va true).run s = (.ok none, s)) := by
  rw [lookupPage, run_bind_ok (run_state s), dir, run_bind_ok (run_demand pd s),
    run_bind_ok (run_assert (.inr user) s)]
  cases e : pd.pdes (pdNo va).toNat with
  | some pt =>
    refine .inl ⟨pt, s.toMem, pd, .old e, fun _ => rfl, ?_⟩
    rw [← dir]
    rfl
  | none =>
    simp only [if_true]
    rcases pallocGetPage_cases { zero := true } s.toMem with ⟨page, m, taken, run⟩ | ⟨full, run⟩
    · refine .inl ⟨⟨page, fun _ => none⟩, m.store page (List.replicate pgsize 0),
        pd.set (pdNo va).toNat ⟨page, fun _ => none⟩, .new e taken, fun x => ?_, ?_⟩
      · simp only [Directory.map, Directory.set, update_idem]
      · rw [run_bind_ok (run_alloc run)]
        rfl
    · refine .inr ⟨trivial, full, ?_⟩
      rw [run_bind_ok (run_alloc run)]
      rfl

theorem run_pagedirSetPage {kpage : Nat} (writable : Bool) (aligned : pgOfs va = 0)
    (user : isUserVaddr va = true) (frame : (s.pool true).Has kpage) (dir : s.pagedir = some pd)
    (absent : pd.pte va = none) :
    (∃ pt m, Table s pd va pt m ∧ (pagedirSetPage va kpage writable).run s =
      (.ok true, ⟨m, some (pd.map va pt ⟨kpage, writable, false⟩)⟩)) ∨
    (pd.pdes (pdNo va).toNat = none ∧ (∀ q, s.kernelPool.Has q → s.kernelPool.Used q) ∧
      (pagedirSetPage va kpage writable).run s = (.ok false, s)) := by
  have above : physBase.toNat ≤ kpage := by
    obtain ⟨i, -, rfl⟩ := frame
    exact Nat.le_trans s.userPool.above (Nat.le_add_right _ _)
  have inside : vtop kpage / pgsize < s.initRamPages := by
    obtain ⟨i, lt, rfl⟩ := frame
    have room := s.room
    simp only [vtop, pgsize, pgbits, Mem.pool] at *
    omega
  rw [pagedirSetPage, run_bind_ok (run_assert aligned s),
    run_bind_ok (run_assert frame.aligned s), run_bind_ok (run_assert user s),
    run_bind_ok (run_assert above s), run_bind_ok (run_state s),
    run_bind_ok (run_assert inside s)]
  rcases run_lookupPage_true user dir with ⟨pt, m, pd', table, same, run⟩ | ⟨none, full, run⟩
  · refine .inl ⟨pt, m, table, ?_⟩
    have free : pt.ptes (ptNo va).toNat = Option.none := (table.ptes _).trans absent
    rw [run_bind_ok run, ← same]
    simp only
    rw [run_bind_ok (run_assert free _)]
    rfl
  · refine .inr ⟨none, full, ?_⟩
    rw [run_bind_ok run]
    rfl

theorem run_pagedirCreate (s : Space) :
    (∃ page m, Taken s.toMem m false page 1 ∧ pagedirCreate.run s =
      (.ok (some ⟨page, fun _ => none⟩), { s with toMem := m })) ∨
    pagedirCreate.run s = (.ok none, s) := by
  rw [pagedirCreate]
  rcases pallocGetPage_cases {} s.toMem with ⟨page, m, taken, run⟩ | ⟨-, run⟩
  · refine .inl ⟨page, m, taken, ?_⟩
    rw [run_bind_ok (run_alloc run)]
    rfl
  · refine .inr ?_
    rw [run_bind_ok (run_alloc run)]
    rfl

theorem same_page {va va' : BitVec 32} : (pdNo va).toNat = (pdNo va').toNat ∧
    (ptNo va).toNat = (ptNo va').toNat ↔ va.toNat / 4096 = va'.toNat / 4096 := by
  rw [pdNo_toNat, pdNo_toNat, ptNo_toNat, ptNo_toNat]
  omega

theorem pte_map {pt : PageTable} {m : Mem} (h : Table s pd va pt m) (x : Pte) (va' : BitVec 32) :
    (pd.map va pt x).pte va' =
      if va'.toNat / 4096 = va.toNat / 4096 then some x else pd.pte va' := by
  simp only [← same_page, Directory.pte, Directory.map, Directory.set]
  by_cases dir : (pdNo va').toNat = (pdNo va).toNat
  · rw [dir, update_self, Option.bind_some]
    simp only [PageTable.set]
    by_cases tab : (ptNo va').toNat = (ptNo va).toNat
    · rw [tab, update_self, if_pos ⟨trivial, rfl⟩]
    · rw [update_of_ne tab, if_neg fun e => tab e.2, h.ptes]
  · rw [update_of_ne dir, if_neg fun e => dir e.1]

end Specs

section Moves

variable {R : Space → Space → Prop} [IsPreorder Space R]
  (frees : ∀ page, Exec.Moves R (alloc (pallocFreePage (some page))))
include frees

theorem destroyEntries_moves (pt : PageTable) (js : List Nat) :
    Exec.Moves R (destroyEntries pt js) := by
  induction js with
  | nil => exact .pure _
  | cons j rest ih =>
    rw [destroyEntries]
    cases pt.ptes j with
    | none => exact ih
    | some pte => exact .bind (frees _) fun _ => ih

theorem destroyTables_moves (pd : Directory) (is : List Nat) :
    Exec.Moves R (destroyTables pd is) := by
  induction is with
  | nil => exact .pure _
  | cons i rest ih =>
    rw [destroyTables]
    cases pd.pdes i with
    | none => exact ih
    | some pt => exact .bind (destroyEntries_moves frees pt _) fun _ => .bind (frees _) fun _ => ih

theorem pagedirDestroy_moves (pd : Option Directory) : Exec.Moves R (pagedirDestroy pd) := by
  cases pd with
  | none => exact .pure _
  | some pd => exact .bind (destroyTables_moves frees pd _) fun _ => frees _

end Moves

section Hidden

/-- The same space, but for bytes of memory outside of `A`. -/
def SpaceHidden (A : Nat → Prop) (s t : Space) : Prop :=
  ∃ m, Hidden A s.toMem m ∧ t = { s with toMem := m }

variable {A : Nat → Prop}

theorem alloc_respects {α : Type} {x : Alloc α} (h : Respects (Hidden A) x) :
    Respects (SpaceHidden A) (alloc x) := by
  refine .zoom h ?_ ?_
  · rintro s t ⟨m, hidden, rfl⟩
    exact hidden
  · rintro s t a b ⟨m, -, rfl⟩ hidden
    exact ⟨b, hidden, rfl⟩

theorem setPagedir_respects (pd : Option Directory) :
    Respects (SpaceHidden A) (setPagedir pd) := by
  refine .modify ?_
  rintro s t ⟨m, hidden, rfl⟩
  exact ⟨m, hidden, rfl⟩

theorem lookupPage_respects (vaddr : BitVec 32) (create : Bool) :
    Respects (SpaceHidden A) (lookupPage vaddr create) := by
  refine .read ?_ fun s => .bind (demand_respects _) fun pd => .bind (assert_respects _) fun _ => ?_
  · rintro s t ⟨m, -, rfl⟩
    rfl
  cases pd.pdes (pdNo vaddr).toNat with
  | some pt => exact .pure _
  | none =>
    cases create with
    | false => exact .pure _
    | true =>
      refine .bind (alloc_respects (pallocGetMultiple_respects _ _)) fun page => ?_
      cases page with
      | none => exact .pure _
      | some page => exact .bind (setPagedir_respects _) fun _ => .pure _

theorem storePte_respects (slot : Nat × PageTable × Nat) (x : Pte) :
    Respects (SpaceHidden A) (storePte slot x) := by
  refine .read ?_ fun s => .bind (demand_respects _) fun pd => setPagedir_respects _
  rintro s t ⟨m, -, rfl⟩
  rfl

theorem pagedirSetPage_respects (upage : BitVec 32) (kpage : Nat) (writable : Bool) :
    Respects (SpaceHidden A) (pagedirSetPage upage kpage writable) := by
  refine .bind (assert_respects _) fun _ => .bind (assert_respects _) fun _ =>
    .bind (assert_respects _) fun _ => .bind (assert_respects _) fun _ => .read ?_ fun s =>
      .bind (assert_respects _) fun _ => .bind (lookupPage_respects _ _) fun slot => ?_
  · rintro s t ⟨m, ⟨ram, rfl, -⟩, rfl⟩
    rfl
  · cases slot with
    | none => exact .pure _
    | some slot =>
      exact .bind (assert_respects _) fun _ => .bind (storePte_respects _ _) fun _ => .pure _

theorem pagedirGetPage_respects (uaddr : BitVec 32) :
    Respects (SpaceHidden A) (pagedirGetPage uaddr) := by
  refine .bind (assert_respects _) fun _ => .bind (lookupPage_respects _ _) fun slot => ?_
  cases slot with
  | none => exact .pure _
  | some slot => exact .pure _

theorem pagedirSetAccessed_respects (vpage : BitVec 32) (accessed : Bool) :
    Respects (SpaceHidden A) (pagedirSetAccessed vpage accessed) := by
  refine .bind (lookupPage_respects _ _) fun slot => ?_
  cases slot with
  | none => exact .pure _
  | some slot =>
    obtain ⟨i, pt, j⟩ := slot
    simp only
    cases pt.ptes j with
    | none => exact .pure _
    | some pte => exact storePte_respects _ _

theorem destroyEntries_respects (pt : PageTable) (js : List Nat) :
    Respects (SpaceHidden A) (destroyEntries pt js) := by
  induction js with
  | nil => exact .pure _
  | cons j rest ih =>
    rw [destroyEntries]
    cases pt.ptes j with
    | none => exact ih
    | some pte => exact .bind (alloc_respects (pallocFreeMultiple_respects _ _)) fun _ => ih

theorem destroyTables_respects (pd : Directory) (is : List Nat) :
    Respects (SpaceHidden A) (destroyTables pd is) := by
  induction is with
  | nil => exact .pure _
  | cons i rest ih =>
    rw [destroyTables]
    cases pd.pdes i with
    | none => exact ih
    | some pt =>
      exact .bind (destroyEntries_respects pt _) fun _ =>
        .bind (alloc_respects (pallocFreeMultiple_respects _ _)) fun _ => ih

theorem pagedirDestroy_respects (pd : Option Directory) :
    Respects (SpaceHidden A) (pagedirDestroy pd) := by
  cases pd with
  | none => exact .pure _
  | some pd =>
    exact .bind (destroyTables_respects pd _) fun _ =>
      alloc_respects (pallocFreeMultiple_respects _ _)

end Hidden

end Pintos.Pagedir
