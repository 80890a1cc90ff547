import Pintos.Pagedir
import Mathlib.Data.Set.Insert
import Mathlib.Data.Set.BooleanAlgebra
import Mathlib.Order.BourbakiWitt
import Mathlib.Order.CompletePartialOrder

/-! Which pages are in use, and for whom. A page directory holds its own page, the pages of
its tables and the frames that they map, each of them once. Mapping a frame hands it over to
the directory; destroying the directory gives back all that it holds. -/

namespace Pintos.Accounts
open Stoppable Vaddr Pagedir Function
open Palloc hiding update
open Set (mem_insert mem_insert_iff mem_insert_of_mem mem_sdiff mem_singleton_iff mem_union)
open Option (bind_some some.inj)

/-- Whether a page is of the user pool, and its address. -/
abbrev Page := Bool × Nat

def usedPages (m : Mem) : Set Page := {c | (m.pool c.1).Used c.2}

variable {m m' : Mem} {s : Space} {pd : Directory} {pt : PageTable} {va : BitVec 32} {c : Page}

theorem mem_usedPages : c ∈ usedPages m ↔ (m.pool c.1).Used c.2 := Iff.rfl

@[simp] theorem usedPages_store (a : Nat) (bs : List UInt8) :
    usedPages (m.store a bs) = usedPages m := by
  ext c
  rw [mem_usedPages, store_pool, mem_usedPages]

variable {user : Bool} {page i : Nat} {x : Pte} {rest : List Nat}

theorem usedPages_taken (h : Taken m m' user page 1) :
    usedPages m' = insert (user, page) (usedPages m) := by
  ext c
  rw [mem_usedPages, h.used_iff, span_one, mem_insert_iff, Prod.ext_iff, mem_usedPages]

theorem notMem_taken (h : Taken m m' user page 1) : (user, page) ∉ usedPages m :=
  h.fresh page (span_one.mpr rfl)

theorem usedPages_freed (h : Freed m m' user page 1) :
    usedPages m' = usedPages m \ {(user, page)} := by
  ext c
  rw [mem_usedPages, h.used_iff, span_one, mem_sdiff, mem_singleton_iff, Prod.ext_iff,
    mem_usedPages]

inductive Owner where
  | dir
  | table (i : Nat)
  | frame (i j : Nat)
  deriving DecidableEq

def holds (pd : Directory) : Owner → Option Page
  | .dir => some (false, pd.page)
  | .table i => (pd.pdes i).map fun pt => (false, pt.page)
  | .frame i j => (pd.pdes i).bind fun pt => (pt.ptes j).map fun x => (true, x.kpage)

def held (pd : Directory) : Set Page := {c | ∃ o, holds pd o = some c}

/-- The pages in use are those of `base` and those that the directory holds. -/
structure Balanced (m : Mem) (pd : Directory) (base : Set Page) : Prop where
  used : usedPages m = base ∪ held pd
  once : ∀ o o' c, holds pd o = some c → holds pd o' = some c → o = o'
  apart : ∀ c ∈ base, c ∉ held pd
  tables : ∀ i, pd.pdes i ≠ none → i < 768
  entries : ∀ i pt j, pd.pdes i = some pt → pt.ptes j ≠ none → j < 1024

variable {base : Set Page}

theorem Balanced.congr (h : Balanced m pd base) (same : usedPages m' = usedPages m) :
    Balanced m' pd base := { h with used := same.trans h.used }

theorem Balanced.mem_used (h : Balanced m pd base) (mem : c ∈ base ∨ c ∈ held pd) :
    c ∈ usedPages m := by
  rw [h.used]
  exact mem

theorem Balanced.fresh (h : Balanced m pd base) (taken : Taken m m' user page 1) :
    (user, page) ∉ base := fun mem => notMem_taken taken (h.mem_used (.inl mem))

theorem holds_frame (pte : pd.pte va = some x) :
    holds pd (.frame (pdNo va).toNat (ptNo va).toNat) = some (true, x.kpage) := by
  obtain ⟨pt, table, entry⟩ := Option.bind_eq_some_iff.mp pte
  simp only [holds, table, entry, bind_some, Option.map_some]

theorem Balanced.frame_used (h : Balanced m pd base) (pte : pd.pte va = some x) :
    (true, x.kpage) ∈ usedPages m := h.mem_used (.inr ⟨_, holds_frame pte⟩)

theorem Balanced.create (h : Taken m m' false page 1) :
    Balanced m' ⟨page, fun _ => none⟩ (usedPages m) where
  used := by
    have only : held ⟨page, fun _ => none⟩ = {(false, page)} := by
      ext c
      constructor
      · rintro ⟨_ | _ | _, e⟩
        · exact (some.inj e).symm
        · cases e
        · cases e
      · rintro rfl
        exact ⟨.dir, rfl⟩
    rw [usedPages_taken h, only, Set.union_singleton]
  once o o' c e e' := by
    cases o with
    | dir => cases o' with
      | dir => rfl
      | table i => cases e'
      | frame i j => cases e'
    | table i => cases e
    | frame i j => cases e
  apart c used := by
    rintro ⟨_ | _ | _, e⟩
    · cases e
      exact notMem_taken h used
    · cases e
    · cases e
  tables i some := absurd rfl some
  entries i pt j e := by cases e

theorem Balanced.take (h : Balanced m pd base) (taken : Taken m m' user page 1) :
    Balanced m' pd (insert (user, page) base) where
  used := by rw [usedPages_taken taken, h.used, Set.insert_union]
  once := h.once
  apart c mem holds := by
    rcases mem with rfl | mem
    · exact notMem_taken taken (h.mem_used (.inr holds))
    · exact h.apart c mem holds
  tables := h.tables
  entries := h.entries

theorem Balanced.give (h : Balanced m pd (insert (user, page) base)) (fresh : (user, page) ∉ base)
    (freed : Freed m m' user page 1) : Balanced m' pd base where
  used := by
    have off : (user, page) ∉ held pd := h.apart _ (mem_insert _ _)
    rw [usedPages_freed freed, h.used]
    ext c
    simp only [mem_sdiff, mem_union, mem_insert_iff, mem_singleton_iff]
    constructor
    · rintro ⟨(here | old) | own, ne⟩
      · exact absurd here ne
      · exact .inl old
      · exact .inr own
    · rintro (old | own)
      · exact ⟨.inl (.inr old), fun e => fresh (e ▸ old)⟩
      · exact ⟨.inr own, fun e => off (e ▸ own)⟩
  once := h.once
  apart c mem := h.apart c (mem_insert_of_mem _ mem)
  tables := h.tables
  entries := h.entries

theorem holds_map (h : Table s pd va pt m) (x : Pte) (o : Owner) :
    holds (pd.map va pt x) o =
      if o = .frame (pdNo va).toNat (ptNo va).toNat then some (true, x.kpage)
      else if o = .table (pdNo va).toNat then some (false, pt.page) else holds pd o := by
  cases o with
  | dir => rfl
  | table i =>
    simp only [holds, Directory.map, Directory.set, reduceCtorEq, if_false, Owner.table.injEq]
    split_ifs with here
    · rw [here, update_self]
      rfl
    · rw [update_of_ne here]
  | frame i j =>
    simp only [holds, Directory.map, Directory.set, reduceCtorEq, if_false, Owner.frame.injEq]
    by_cases dir : i = (pdNo va).toNat
    · subst dir
      rw [update_self, bind_some]
      simp only [PageTable.set, true_and]
      split_ifs with tab
      · rw [tab, update_self]
        rfl
      · rw [update_of_ne tab, h.ptes]
        cases pd.pdes (pdNo va).toNat <;> rfl
    · rw [update_of_ne dir, if_neg fun e => dir e.1]

theorem table_page (h : Table s pd va pt m) :
    (holds pd (.table (pdNo va).toNat) = some (false, pt.page) ∧ usedPages m = usedPages s.toMem) ∨
    (holds pd (.table (pdNo va).toNat) = none ∧ (false, pt.page) ∉ usedPages s.toMem ∧
      usedPages m = insert (false, pt.page) (usedPages s.toMem)) := by
  cases h with
  | old e => exact .inl ⟨by rw [holds, e]; rfl, rfl⟩
  | new e taken =>
    refine .inr ⟨by rw [holds, e]; rfl, notMem_taken taken, ?_⟩
    rw [usedPages_store, usedPages_taken taken]

theorem held_map (h : Table s pd va pt m) (x : Pte) (absent : pd.pte va = none) :
    held (pd.map va pt x) = insert (true, x.kpage) (insert (false, pt.page) (held pd)) := by
  have none : holds pd (.frame (pdNo va).toNat (ptNo va).toNat) = none := by
    rw [Directory.pte] at absent
    rw [holds]
    cases e : pd.pdes (pdNo va).toNat with
    | none => rfl
    | some pt =>
      rw [e, bind_some] at absent
      rw [bind_some, absent, Option.map_none]
  ext c
  simp only [held, Set.mem_ofPred_eq, mem_insert_iff, holds_map h]
  constructor
  · rintro ⟨o, e⟩
    split_ifs at e
    · exact .inl (some.inj e).symm
    · exact .inr (.inl (some.inj e).symm)
    · exact .inr (.inr ⟨o, e⟩)
  rintro (rfl | rfl | ⟨o, e⟩)
  · exact ⟨_, if_pos rfl⟩
  · exact ⟨.table (pdNo va).toNat, by simp⟩
  refine ⟨o, ?_⟩
  rw [if_neg]
  · split_ifs with here
    · rw [here] at e
      rcases table_page h with ⟨page, -⟩ | ⟨page, -⟩ <;> rw [page] at e
      · exact e
      · cases e
    · exact e
  · rintro rfl
    rw [none] at e
    cases e

theorem pdNo_lt (user : isUserVaddr va = true) : (pdNo va).toNat < 768 := by
  rw [isUserVaddr_iff] at user
  rw [pdNo_toNat]
  omega

theorem ptNo_lt (va : BitVec 32) : (ptNo va).toNat < 1024 := by
  rw [ptNo_toNat]
  omega

theorem holds_map_cases (h : Table s pd va pt m) {o : Owner}
    (e : holds (pd.map va pt x) o = some c) :
    (o = .frame (pdNo va).toNat (ptNo va).toNat ∧ c = (true, x.kpage)) ∨
      (o = .table (pdNo va).toNat ∧ c = (false, pt.page)) ∨ holds pd o = some c := by
  rw [holds_map h] at e
  split_ifs at e with frame table
  · exact .inl ⟨frame, (some.inj e).symm⟩
  · exact .inr (.inl ⟨table, (some.inj e).symm⟩)
  · exact .inr (.inr e)

theorem Balanced.map (h : Balanced s.toMem pd (insert (true, x.kpage) base))
    (fresh : (true, x.kpage) ∉ base) (user : isUserVaddr va = true) (absent : pd.pte va = none)
    (table : Table s pd va pt m) : Balanced m (pd.map va pt x) base := by
  have frame : (true, x.kpage) ∉ held pd := h.apart _ (mem_insert _ _)
  have usedTable : usedPages m = insert (false, pt.page) (usedPages s.toMem) := by
    rcases table_page table with ⟨page, same⟩ | ⟨-, -, used⟩
    · rw [same, Set.insert_eq_of_mem (h.mem_used (.inr ⟨_, page⟩))]
    · exact used
  have inBase : (false, pt.page) ∉ base := by
    intro mem
    rcases table_page table with ⟨page, -⟩ | ⟨-, free, -⟩
    · exact h.apart _ (mem_insert_of_mem _ mem) ⟨_, page⟩
    · exact free (h.mem_used (.inl (mem_insert_of_mem _ mem)))
  have tableOnce : ∀ o, holds pd o = some (false, pt.page) → o = .table (pdNo va).toNat := by
    intro o e
    rcases table_page table with ⟨page, -⟩ | ⟨-, free, -⟩
    · exact h.once _ _ _ e page
    · exact absurd (h.mem_used (.inr ⟨o, e⟩)) free
  refine ⟨?_, fun o o' c e e' => ?_, fun c mem => ?_, fun i => ?_, fun i pt' j => ?_⟩
  · rw [usedTable, h.used, held_map table x absent]
    ext c
    simp only [mem_union, mem_insert_iff]
    tauto
  · rcases holds_map_cases table e with ⟨rfl, rfl⟩ | ⟨rfl, rfl⟩ | old <;>
      rcases holds_map_cases table e' with ⟨rfl, e''⟩ | ⟨rfl, e''⟩ | old'
    · rfl
    · cases e''
    · exact absurd ⟨_, old'⟩ frame
    · cases e''
    · rfl
    · exact (tableOnce o' old').symm
    · exact absurd ⟨_, e'' ▸ old⟩ frame
    · exact tableOnce o (e'' ▸ old)
    · exact h.once o o' c old old'
  · rw [held_map table x absent]
    rintro (rfl | rfl | own)
    · exact fresh mem
    · exact inBase mem
    · exact h.apart c (mem_insert_of_mem _ mem) own
  · by_cases here : i = (pdNo va).toNat
    · exact fun _ => here ▸ pdNo_lt user
    · simp only [Directory.map, Directory.set, update_of_ne here]
      exact h.tables i
  · by_cases here : i = (pdNo va).toNat
    · subst here
      simp only [Directory.map, Directory.set, update_self, Option.some.injEq]
      rintro rfl there
      by_cases here : j = (ptNo va).toNat
      · exact here ▸ ptNo_lt va
      simp only [PageTable.set, update_of_ne here, table.ptes] at there
      cases e : pd.pdes (pdNo va).toNat with
      | none =>
        rw [e, Option.bind_none] at there
        exact absurd rfl there
      | some old =>
        rw [e, bind_some] at there
        exact h.entries _ old j e there
    · simp only [Directory.map, Directory.set, update_of_ne here]
      exact h.entries i pt' j

section Destroy

def entryPages (pt : PageTable) (js : List Nat) : Set Page :=
  {c | ∃ j ∈ js, ∃ x, pt.ptes j = some x ∧ c = (true, x.kpage)}

def tablePages (pd : Directory) (is : List Nat) : Set Page :=
  {c | ∃ i ∈ is, ∃ pt, pd.pdes i = some pt ∧
    (c = (false, pt.page) ∨ c ∈ entryPages pt (List.range 1024))}

theorem run_free (used : (user, page) ∈ usedPages s.toMem) :
    ∃ m, (alloc (pallocFreePage (some page))).run s = (.ok (), { s with toMem := m }) ∧
      usedPages m = usedPages s.toMem \ {(user, page)} := by
  obtain ⟨m, freed, run⟩ := pallocFreePage_spec used
  refine ⟨_, run_alloc run, ?_⟩
  rw [usedPages_store, usedPages_freed freed]

section Entries

variable {α : Type} {f : Nat → Option α} {P : α → Page → Prop}

theorem pages_cons_none (h : f i = none) :
    {c | ∃ j ∈ i :: rest, ∃ x, f j = some x ∧ P x c} =
      {c | ∃ j ∈ rest, ∃ x, f j = some x ∧ P x c} := by
  ext c
  simp only [Set.mem_ofPred_eq, List.mem_cons]
  constructor
  · rintro ⟨j, rfl | mem, x, e, own⟩
    · rw [h] at e
      cases e
    · exact ⟨j, mem, x, e, own⟩
  · rintro ⟨j, mem, own⟩
    exact ⟨j, .inr mem, own⟩

theorem pages_cons_some {a : α} (h : f i = some a) :
    {c | ∃ j ∈ i :: rest, ∃ x, f j = some x ∧ P x c} =
      {c | P a c} ∪ {c | ∃ j ∈ rest, ∃ x, f j = some x ∧ P x c} := by
  ext c
  simp only [Set.mem_ofPred_eq, List.mem_cons, mem_union]
  constructor
  · rintro ⟨j, rfl | mem, x, e, own⟩
    · rw [h] at e
      cases e
      exact .inl own
    · exact .inr ⟨j, mem, x, e, own⟩
  · rintro (own | ⟨j, mem, own⟩)
    · exact ⟨i, .inl rfl, a, h, own⟩
    · exact ⟨j, .inr mem, own⟩

end Entries

theorem destroyEntries_spec {js : List Nat} (nodup : js.Nodup)
    (once : ∀ j j' x x', pt.ptes j = some x → pt.ptes j' = some x' → x.kpage = x'.kpage → j = j')
    (used : entryPages pt js ⊆ usedPages s.toMem) :
    ∃ m, (destroyEntries pt js).run s = (.ok (), { s with toMem := m }) ∧
      usedPages m = usedPages s.toMem \ entryPages pt js := by
  induction js generalizing s with
  | nil =>
    refine ⟨s.toMem, rfl, ?_⟩
    ext c
    simp [entryPages]
  | cons j rest ih =>
    obtain ⟨new, nodup⟩ := List.nodup_cons.mp nodup
    rw [destroyEntries]
    cases e : pt.ptes j with
    | none =>
      rw [entryPages, pages_cons_none e] at used ⊢
      exact ih nodup used
    | some x =>
      have cons : entryPages pt (j :: rest) = insert (true, x.kpage) (entryPages pt rest) :=
        pages_cons_some e
      rw [cons] at used ⊢
      obtain ⟨m, free, after⟩ := run_free (used (mem_insert _ _))
      have off : (true, x.kpage) ∉ entryPages pt rest := by
        rintro ⟨k, mem, y, e', same⟩
        exact new (once j k x y e e' (Prod.ext_iff.mp same).2 ▸ mem)
      obtain ⟨m', run, after'⟩ := ih (s := { s with toMem := m }) nodup (by
        rw [after]
        exact fun c mem => ⟨used (mem_insert_of_mem _ mem), fun e => off (e ▸ mem)⟩)
      refine ⟨m', ?_, ?_⟩
      · simp only
        rw [Exec.run_bind_ok free]
        exact run
      · rw [after', after]
        ext c
        simp only [mem_sdiff, mem_insert_iff, mem_singleton_iff]
        tauto

theorem holds_of_table (h : pd.pdes i = some pt)
    (own : c = (false, pt.page) ∨ c ∈ entryPages pt (List.range 1024)) :
    holds pd (.table i) = some c ∨ ∃ j, holds pd (.frame i j) = some c := by
  rcases own with rfl | ⟨j, -, x, e, rfl⟩
  · refine .inl ?_
    rw [holds, h]
    rfl
  · refine .inr ⟨j, ?_⟩
    rw [holds, h, bind_some, e]
    rfl

attribute [local irreducible] destroyEntries

theorem destroyTables_spec {is : List Nat} (nodup : is.Nodup)
    (once : ∀ o o' c, holds pd o = some c → holds pd o' = some c → o = o')
    (used : tablePages pd is ⊆ usedPages s.toMem) :
    ∃ m, (destroyTables pd is).run s = (.ok (), { s with toMem := m }) ∧
      usedPages m = usedPages s.toMem \ tablePages pd is := by
  induction is generalizing s with
  | nil =>
    refine ⟨s.toMem, rfl, ?_⟩
    ext c
    simp [tablePages]
  | cons i rest ih =>
    obtain ⟨new, nodup⟩ := List.nodup_cons.mp nodup
    rw [destroyTables]
    cases e : pd.pdes i with
    | none =>
      rw [tablePages, pages_cons_none e] at used ⊢
      exact ih nodup used
    | some pt =>
      have cons : tablePages pd (i :: rest) =
          insert (false, pt.page) (entryPages pt (List.range 1024)) ∪ tablePages pd rest :=
        pages_cons_some e
      rw [cons] at used ⊢
      have frames : ∀ j j' x x', pt.ptes j = some x → pt.ptes j' = some x' →
          x.kpage = x'.kpage → j = j' := by
        intro j j' x x' ej ej' same
        have hold : ∀ j x, pt.ptes j = some x → holds pd (.frame i j) = some (true, x.kpage) := by
          intro j x ej
          rw [holds, e, bind_some, ej]
          rfl
        exact (Owner.frame.inj (once _ _ _ (hold j x ej) (same ▸ hold j' x' ej'))).2
      have elsewhere : ∀ c, c = (false, pt.page) ∨ c ∈ entryPages pt (List.range 1024) →
          c ∉ tablePages pd rest := by
        rintro c own ⟨k, mem, pt', e', own'⟩
        rcases holds_of_table e own with here | ⟨j, here⟩ <;>
          rcases holds_of_table e' own' with there | ⟨j', there⟩ <;>
          cases once _ _ _ here there <;> exact new mem
      obtain ⟨m, entries, after⟩ := destroyEntries_spec (s := s) List.nodup_range frames
        fun c mem => used (.inl (.inr mem))
      have still : (false, pt.page) ∈ usedPages m := by
        rw [after]
        refine ⟨used (.inl (.inl rfl)), ?_⟩
        rintro ⟨j, -, x, -, differ⟩
        cases differ
      obtain ⟨m', free, after'⟩ := run_free (s := { s with toMem := m }) still
      obtain ⟨m'', run, after''⟩ := ih (s := { s with toMem := m' }) nodup (by
        rw [after', after]
        exact fun c mem => ⟨⟨used (.inr mem), fun own => elsewhere c (.inr own) mem⟩,
          fun own => elsewhere c (.inl own) mem⟩)
      refine ⟨m'', ?_, ?_⟩
      · refine (Exec.run_bind_ok entries _).trans ?_
        exact (Exec.run_bind_ok free _).trans run
      · rw [after'', after', after]
        generalize entryPages pt (List.range 1024) = frames
        ext c
        simp only [mem_sdiff, mem_insert_iff, mem_singleton_iff, mem_union]
        tauto

theorem Balanced.held_eq (h : Balanced m pd base) :
    held pd = insert (false, pd.page) (tablePages pd (List.range 768)) := by
  ext c
  constructor
  · rintro ⟨_ | i | ⟨i, j⟩, e⟩
    · exact .inl (some.inj e).symm
    · obtain ⟨pt, table, rfl⟩ := Option.map_eq_some_iff.mp e
      have lt := h.tables i (by simp [table])
      exact .inr ⟨i, List.mem_range.mpr lt, pt, table, .inl rfl⟩
    obtain ⟨pt, table, e⟩ := Option.bind_eq_some_iff.mp e
    obtain ⟨x, entry, rfl⟩ := Option.map_eq_some_iff.mp e
    have lt := h.tables i (by simp [table])
    have lt' := h.entries i pt j table (by simp [entry])
    exact .inr ⟨i, List.mem_range.mpr lt, pt, table,
      .inr ⟨j, List.mem_range.mpr lt', x, entry, rfl⟩⟩
  · rintro (rfl | ⟨i, -, pt, table, own⟩)
    · exact ⟨.dir, rfl⟩
    · rcases holds_of_table table own with e | ⟨j, e⟩
      · exact ⟨_, e⟩
      · exact ⟨_, e⟩

attribute [local irreducible] destroyTables

theorem pagedirDestroy_spec (h : Balanced s.toMem pd base) :
    ∃ m, (pagedirDestroy (some pd)).run s = (.ok (), { s with toMem := m }) ∧
      usedPages m = base := by
  have held := h.held_eq
  have all : usedPages s.toMem = base ∪ insert (false, pd.page) (tablePages pd (List.range 768)) :=
    held ▸ h.used
  have own : (false, pd.page) ∉ tablePages pd (List.range 768) := by
    rintro ⟨i, -, pt, table, own⟩
    rcases holds_of_table table own with e | ⟨j, e⟩
    · cases h.once .dir _ _ rfl e
    · cases h.once .dir _ _ rfl e
  obtain ⟨m, tables, after⟩ := destroyTables_spec (s := s) List.nodup_range h.once (by
    rw [all]
    exact fun c mem => .inr (.inr mem))
  have still : (false, pd.page) ∈ usedPages m := by
    rw [after, all]
    exact ⟨.inr (.inl rfl), own⟩
  obtain ⟨m', free, after'⟩ := run_free (s := { s with toMem := m }) still
  refine ⟨m', ?_, ?_⟩
  · have last : (pdNo physBase).toNat = 768 := by decide
    rw [pagedirDestroy, last]
    exact (Exec.run_bind_ok tables _).trans free
  have apart := h.apart
  rw [after', after, all]
  rw [held] at apart
  generalize tablePages pd (List.range 768) = tables at apart
  ext c
  have apart := apart c
  simp only [mem_sdiff, mem_insert_iff, mem_singleton_iff, mem_union] at apart ⊢
  tauto

end Destroy

end Pintos.Accounts
