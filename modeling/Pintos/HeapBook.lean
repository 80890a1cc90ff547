import Pintos.HeapCalls
import Mathlib.Data.Finset.Card

/-! The blocks in the hands of clients. A ledger says of each one what was asked for and which
pages were taken for it; every call of the allocator keeps the heap and the ledger in step. -/

namespace Pintos.HeapBook
open ByteStore Links Stoppable Vaddr Accounts Heap HeapLayout HeapSteps HeapCalls Function
open Palloc hiding update
open Finset (card_erase_of_mem card_range mem_erase mem_range)
open Exec (run_bind_ok)

/-- A block that was handed out: the size asked for and the pages taken in that call. -/
structure Grant where
  size : Nat
  took : Set Page

abbrev Ledger := Nat → Option Grant

/-- The object is what was handed out. -/
def Hosts : Obj → Grant → Prop
  | .block a d _, g => g.size ≤ d.blockSize ∧ g.took ⊆ arenaPages a 1
  | .payload a n, g => 1024 < g.size ∧ g.size + sizeofArena ≤ pgsize * n ∧ g.took = arenaPages a n
  | _, _ => False

/-- The blocks of an arena that nobody has. -/
def idle (live : Ledger) (a : Nat) (d : Desc) : Finset Nat :=
  {i ∈ Finset.range d.blocksPerArena | live (block a d i) = none}

/-- The heap and the ledger agree. -/
structure Entries (descs : Nat) (s : Arenas) (live : Ledger) (kind : Nat → Option Kind)
    (cnt : Nat → Nat) (free : Desc → List Nat) : Prop where
  held : Held descs s kind cnt free
  owner : ∀ b g, live b = some g → ∃ o, Obj.In descs kind o ∧ o.low = b ∧ Hosts o g
  listed : ∀ a d i, kind a = some (.small d) → i < d.blocksPerArena →
    (block a d i ∈ free d ↔ live (block a d i) = none)
  big : ∀ a n, kind a = some (.big n) → live (a + sizeofArena) ≠ none
  count : ∀ a d, kind a = some (.small d) → cnt a = (idle live a d).card
  pages : ∀ a n, kind a = some (.big n) → cnt a = n

def Busy (live : Ledger) (kind : Nat → Option Kind) (a : Nat) : Prop :=
  ∀ d, kind a = some (.small d) → ∃ i < d.blocksPerArena, live (block a d i) ≠ none

structure Book (descs : Nat) (s : Arenas) (live : Ledger) (kind : Nat → Option Kind)
    (cnt : Nat → Nat) (free : Desc → List Nat) : Prop extends
    Entries descs s live kind cnt free where
  busy : ∀ a, Busy live kind a

variable {descs : Nat} {d d' : Desc} {a a' b i n : Nat} {kind kind' : Nat → Option Kind}
  {cnt : Nat → Nat} {free : Desc → List Nat} {s : Arenas} {live live' : Ledger} {g : Grant}
  {o o' : Obj} {m : Mem} {x : Option Grant}

theorem Shape.nonempty (sh : Shape descs m kind) (h : o.In descs kind) : o.low < o.high := by
  cases o with
  | desc d => exact Nat.lt_add_of_pos_right (by decide)
  | header a => exact Nat.lt_add_of_pos_right (by decide)
  | block a d i =>
    have size := (table_sizes (sh.known a d h.1)).1
    exact Nat.lt_add_of_pos_right (by omega)
  | payload a n =>
    have pos : 0 < n := sh.pos a _ h
    simp only [Obj.low, Obj.high, sizeofArena, pgsize, pgbits]
    omega

theorem Shape.low_unique (sh : Shape descs m kind) (h : o.In descs kind) (h' : o'.In descs kind)
    (same : o.low = o'.low) : o = o' := by
  by_contra ne
  have size := Shape.nonempty sh h
  have size' := Shape.nonempty sh h'
  rcases sh.disjoint h h' ne with apart | apart
  · omega
  · omega

theorem Shape.update_off (sh : Shape descs m kind) (h : o.In descs kind) (h' : o'.In descs kind)
    (ne : o' ≠ o) : update live o.low x o'.low = live o'.low :=
  update_of_ne (fun same => ne (Shape.low_unique sh h' h same)) x live

theorem mem_idle : i ∈ idle live a d ↔ i < d.blocksPerArena ∧ live (block a d i) = none := by
  rw [idle, Finset.mem_filter, mem_range]

theorem idle_take (hd : d ∈ table descs) (g : Grant) :
    idle (update live (block a d i) (some g)) a d = (idle live a d).erase i := by
  ext j
  rw [mem_erase, mem_idle, mem_idle]
  by_cases same : j = i
  · simp [same]
  · rw [update_of_ne fun e => same (block_injective hd e)]
    simp [same]

theorem idle_give (hd : d ∈ table descs) (lt : i < d.blocksPerArena) :
    idle (update live (block a d i) none) a d = insert i (idle live a d) := by
  ext j
  rw [Finset.mem_insert, mem_idle, mem_idle]
  by_cases same : j = i
  · simp [same, lt]
  · rw [update_of_ne fun e => same (block_injective hd e)]
    simp [same]

theorem idle_bound (live : Ledger) (a : Nat) (hd : d ∈ table descs) :
    (idle live a d).card < 2 ^ 32 - 1 := by
  have many := blocksPerArena_le hd
  have most : (idle live a d).card ≤ d.blocksPerArena :=
    (Finset.card_filter_le _ _).trans (Nat.le_of_eq (card_range _))
  omega

variable {rest : List Nat} {s' : Arenas} {size : BitVec 32}

/-- What clients have stays, with its bytes. -/
def Kept (descs : Nat) (kind kind' : Nat → Option Kind) (live : Ledger)
    (ram ram' : Nat → UInt8) : Prop :=
  ∀ o, Obj.In descs kind o → live o.low ≠ none → o.In descs kind' ∧ Agree ram ram' o

theorem find_size (descs n : Nat) : (∃ d ∈ table descs, n ≤ d.blockSize ∧
      (table descs).find? (fun d => n ≤ d.blockSize) = some d) ∨
    (1024 < n ∧ (table descs).find? (fun d => n ≤ d.blockSize) = none) := by
  cases found : (table descs).find? (fun d => n ≤ d.blockSize) with
  | some d =>
    have large : n ≤ d.blockSize := by simpa using List.find?_some found
    exact .inl ⟨d, List.mem_of_find?_eq_some found, large, rfl⟩
  | none =>
    have last : descAt descs 6 ∈ table descs := mem_table.mpr ⟨6, by decide, rfl⟩
    have small : ¬n ≤ 1024 := fun le => List.find?_eq_none.mp found _ last (decide_eq_true le)
    exact .inr ⟨by omega, rfl⟩

theorem Kept.trans {kind'' : Nat → Option Kind} {ram ram' ram'' : Nat → UInt8}
    (h : Kept descs kind kind' live ram ram') (h' : Kept descs kind' kind'' live ram' ram'') :
    Kept descs kind kind'' live ram ram'' := fun o ho hl => by
  obtain ⟨middle, first⟩ := h o ho hl
  obtain ⟨last, second⟩ := h' o middle hl
  exact ⟨last, fun x low high => (second x low high).trans (first x low high)⟩

theorem Busy.grant (h : Busy live kind a) : Busy (update live b (some g)) kind a := by
  intro d hk
  obtain ⟨i, lt, hl⟩ := h d hk
  refine ⟨i, lt, ?_⟩
  by_cases same : block a d i = b
  · simp [same]
  · rwa [update_of_ne same]

theorem update_used {b' : Nat} (h : update live b none b' ≠ none) : b' ≠ b ∧ live b' ≠ none := by
  by_cases same : b' = b
  · rw [same, update_self] at h
    exact absurd rfl h
  · rw [update_of_ne same] at h
    exact ⟨same, h⟩

/-- The arena of a block, as `block_to_arena` finds it. -/
def arenaOf (b : Nat) : Nat := b - b % pgsize

/-- Another block of the same arena is in use. -/
def Shared (live : Ledger) (b : Nat) : Prop :=
  ∃ b', b' ≠ b ∧ live b' ≠ none ∧ arenaOf b' = arenaOf b

structure Returned (live : Ledger) (b : Nat) (g : Grant) (pages : Set Page) : Prop where
  big : 1024 < g.size → pages = g.took
  shared : g.size ≤ 1024 → Shared live b → pages = ∅
  last : g.size ≤ 1024 → ¬Shared live b → pages = {(false, arenaOf b)}

theorem arenaPages_one : arenaPages a 1 = {(false, a)} := by
  ext ⟨u, q⟩
  simp [arenaPages]

section Entries

variable (h : Entries descs s live kind cnt free)
include h

theorem Entries.hosts (inside : o.In descs kind) (hg : live o.low = some g) : Hosts o g := by
  obtain ⟨o', inside', same, hosts⟩ := h.owner _ g hg
  rw [Shape.low_unique h.held.shape inside inside' same.symm]
  exact hosts

theorem Entries.hosts_some (inside : o.In descs kind) (hl : live o.low ≠ none) :
    ∃ g, Hosts o g := by
  obtain ⟨g, hg⟩ := Option.ne_none_iff_exists'.mp hl
  exact ⟨g, h.hosts inside hg⟩

/-- The object of an arena that a client has. -/
theorem Entries.used_cases (inside : o.In descs kind) (hl : live o.low ≠ none)
    (arena : o.arena = some a) :
    (∃ d i, o = .block a d i ∧ kind a = some (.small d) ∧ i < d.blocksPerArena) ∨
      ∃ n, o = .payload a n ∧ kind a = some (.big n) := by
  obtain ⟨g, hosts⟩ := h.hosts_some inside hl
  cases o with
  | desc | header => exact hosts.elim
  | block a' d i =>
    cases arena
    exact .inl ⟨d, i, rfl, inside⟩
  | payload a' n =>
    cases arena
    exact .inr ⟨n, rfl, inside⟩

theorem Entries.off_list (inside : o.In descs kind) (hl : live o.low ≠ none) :
    ¬(ListObj d (free d) o ∨ o = .header a) := by
  obtain ⟨g, hosts⟩ := h.hosts_some inside hl
  rintro ((rfl | ⟨a', i, rfl, mem⟩) | rfl)
  · exact hosts
  · exact hl ((h.listed a' d i inside.1 inside.2).mp mem)
  · exact hosts

theorem Entries.run_pages (hn : kind a = some (.big n)) : (load (a + 8)).run s = (.ok n, s) := by
  rw [← h.pages a n hn]
  exact h.held.run_count (by simp [hn])

theorem Entries.front (hd : d ∈ table descs) (split : free d = b :: rest) :
    ∃ a i, kind a = some (.small d) ∧ i < d.blocksPerArena ∧ b = block a d i ∧
      live (block a d i) = none := by
  have mem : b ∈ free d := by simp [split]
  obtain ⟨a, i, hk, lt, rfl⟩ := h.held.rep.elems d hd b mem
  exact ⟨a, i, hk, lt, rfl, (h.listed a d i hk lt).mp mem⟩

theorem Entries.change {cnt' : Nat → Nat} {free' : Desc → List Nat} (held : Held descs s' kind' cnt' free')
    (others : ∀ a', a' ≠ a → kind' a' = kind a' ∧ cnt' a' = cnt a')
    (lists : ∀ a' d i, a' ≠ a → kind a' = some (.small d) → i < d.blocksPerArena →
      (block a' d i ∈ free' d ↔ block a' d i ∈ free d))
    (same : ∀ o : Obj, o.In descs kind' → o.arena ≠ some a → live' o.low = live o.low)
    (owner : ∀ b g, live' b = some g → ∃ o, Obj.In descs kind' o ∧ o.low = b ∧ Hosts o g)
    (small : ∀ d, kind' a = some (.small d) → cnt' a = (idle live' a d).card ∧
      ∀ i < d.blocksPerArena, (block a d i ∈ free' d ↔ live' (block a d i) = none))
    (big : ∀ n, kind' a = some (.big n) → live' (a + sizeofArena) ≠ none ∧ cnt' a = n) :
    Entries descs s' live' kind' cnt' free' := by
  have kept : ∀ a' d i, a' ≠ a → kind' a' = some (.small d) → i < d.blocksPerArena →
      live' (block a' d i) = live (block a' d i) := fun a' d i ne hk lt =>
    same (.block a' d i) ⟨hk, lt⟩ fun e => ne (Option.some.inj e)
  refine ⟨held, owner, fun a' d i hk lt => ?_, fun a' n hn => ?_, fun a' d hk => ?_,
    fun a' n hn => ?_⟩
  · by_cases here : a' = a
    · subst here
      exact (small d hk).2 i lt
    · have old := (others a' here).1.symm.trans hk
      rw [kept a' d i here hk lt, lists a' d i here old lt]
      exact h.listed a' d i old lt
  · by_cases here : a' = a
    · subst here
      exact (big n hn).1
    · have payload : live' (a' + sizeofArena) = live (a' + sizeofArena) :=
        same (.payload a' n) hn fun e => here (Option.some.inj e)
      rw [payload]
      exact h.big a' n ((others a' here).1.symm.trans hn)
  · by_cases here : a' = a
    · subst here
      exact (small d hk).1
    · rw [(others a' here).2, h.count a' d ((others a' here).1.symm.trans hk)]
      exact congrArg Finset.card (Finset.filter_congr fun i mem => by
        rw [kept a' d i here hk (mem_range.mp mem)])
  · by_cases here : a' = a
    · subst here
      exact (big n hn).2
    · rw [(others a' here).2]
      exact h.pages a' n ((others a' here).1.symm.trans hn)

theorem Entries.relist {c : Nat} {fs : List Nat} (hk : kind a = some (.small d))
    (lt : i < d.blocksPerArena) (held : Held descs s' kind (update cnt a c) (update free d fs))
    (hosts : ∀ g, x = some g → Hosts (.block a d i) g) (here : block a d i ∈ fs ↔ x = none)
    (others : ∀ b, b ≠ block a d i → (b ∈ fs ↔ b ∈ free d))
    (count : c = (idle (update live (block a d i) x) a d).card) :
    Entries descs s' (update live (block a d i) x) kind (update cnt a c) (update free d fs) := by
  have inside : (Obj.block a d i).In descs kind := ⟨hk, lt⟩
  refine h.change (a := a) held (fun a' ne => ⟨rfl, update_of_ne ne _ _⟩)
    (fun a' d' j ne hk' lt' => ?_) (fun o inside' ne => ?_) (fun b g hb => ?_)
    (fun d' hk' => ?_) fun n hn => ?_
  · by_cases desc : d' = d
    · subst desc
      rw [update_self]
      exact others _ fun e => ne (Shape.block_unique h.held.shape hk' lt' hk lt e).1
    · rw [update_of_ne desc]
  · exact Shape.update_off h.held.shape inside inside' fun e => ne (e ▸ rfl)
  · by_cases same : b = block a d i
    · rw [same, update_self] at hb
      exact ⟨_, inside, same.symm, hosts g hb⟩
    · rw [update_of_ne same] at hb
      exact h.owner b g hb
  · obtain rfl : d = d' := by simpa using hk.symm.trans hk'
    refine ⟨by rw [update_self, count], fun j lt' => ?_⟩
    rw [update_self]
    by_cases same : block a d j = block a d i
    · rw [same, update_self]
      exact here
    · rw [update_of_ne same, others _ same]
      exact h.listed a d j hk lt'
  · cases hk.symm.trans hn

theorem Entries.take (hk : kind a = some (.small d)) (lt : i < d.blocksPerArena)
    (split : free d = block a d i :: rest) (hosts : Hosts (.block a d i) g) :
    ∃ ram, (takeBlock d).run s = (.ok (block a d i), s.withRam ram) ∧ Entries descs (s.withRam ram)
    (update live (block a d i) (some g)) kind (update cnt a (cnt a - 1))
    (update free d rest) ∧ Kept descs kind kind live s.ram ram ∧ Below s.toMem s.ram ram := by
  have hd := h.held.shape.known a d hk
  have mem : block a d i ∈ free d := by simp [split]
  have here : i ∈ idle live a d := mem_idle.mpr ⟨lt, (h.listed a d i hk lt).mp mem⟩
  have count := h.count a d hk
  have pos : 0 < cnt a := count ▸ Finset.card_pos.mpr ⟨i, here⟩
  have bound := idle_bound live a hd
  have nodup := h.held.rep.nodup d hd
  rw [split, List.nodup_cons] at nodup
  obtain ⟨ram, run, held, touch, below⟩ := takeBlock_spec h.held hk lt split pos (by omega)
  refine ⟨ram, run, h.relist hk lt held (fun g' e => ?_) ?_ (fun b ne => ?_) ?_,
    fun o ho hl => ⟨ho, touch o ho (h.off_list ho hl)⟩, below⟩
  · cases e
    exact hosts
  · exact iff_of_false nodup.1 nofun
  · simp [split, ne]
  · rw [idle_take hd, card_erase_of_mem here, count]

theorem Entries.unclaimed {k : Kind} (new : kind a = none)
    (sh : Shape descs m (update kind a (some k))) (inside : o.In descs (update kind a (some k)))
    (arena : o.arena = some a) : live o.low = none := by
  by_contra claimed
  obtain ⟨g, hg⟩ := Option.ne_none_iff_exists'.mp claimed
  obtain ⟨o', inside', same, -⟩ := h.owner _ g hg
  have equal := Shape.low_unique sh inside (In.grow new inside').1 same.symm
  obtain ⟨k', hk'⟩ := inside'.arena (equal ▸ arena)
  rw [new] at hk'
  cases hk'

theorem Entries.newArena (hd : d ∈ table descs) :
    (∃ a s', (newArena d).run s = (.ok true, s') ∧ kind a = none ∧
      Entries descs s' live (update kind a (some (.small d)))
        (update cnt a d.blocksPerArena)
        (update free d (free d ++ (List.range d.blocksPerArena).map (block a d))) ∧
      Disjoint (usedPages s.toMem) (arenaPages a 1) ∧
      usedPages s'.toMem = usedPages s.toMem ∪ arenaPages a 1 ∧
      Kept descs kind (update kind a (some (.small d))) live s.ram s'.ram ∧
      Beyond s.toMem s'.toMem) ∨
    (Full s.toMem 1 ∧ (newArena d).run s = (.ok false, s)) := by
  rcases newArena_spec h.held hd with ⟨a, s', run, new, held, fresh, pages, touch, beyond⟩ | run
  · have here : update kind a (some (.small d)) a = some (.small d) :=
      update_self ..
    have unclaimed : ∀ i < d.blocksPerArena, live (block a d i) = none := fun i lt => by
      have inside : (Obj.block a d i).In descs (update kind a (some (.small d))) :=
        ⟨here, lt⟩
      exact h.unclaimed new held.shape inside rfl
    refine .inl ⟨a, s', run, new, h.change (a := a) held
      (fun a' ne => ⟨update_of_ne ne _ _, update_of_ne ne _ _⟩)
      (fun a' d' i ne hk lt => ?_) (fun _ _ _ => rfl) (fun b g hb => ?_) (fun d' hk => ?_)
      (fun n hn => ?_), fresh, pages, fun o ho hl => ?_, beyond⟩
    · by_cases desc : d' = d
      · subst desc
        rw [update_self, List.mem_append]
        refine or_iff_left fun mem => ?_
        obtain ⟨j, lt', e⟩ := List.mem_map.mp mem
        have hk' := (update_of_ne ne (some (.small d')) kind).trans hk
        exact ne (Shape.block_unique held.shape here (List.mem_range.mp lt') hk' lt e).1.symm
      · rw [update_of_ne desc]
    · obtain ⟨o, inside, same, hosts⟩ := h.owner b g hb
      exact ⟨o, (In.grow new inside).1, same, hosts⟩
    · obtain rfl : d = d' := by simpa using here.symm.trans hk
      rw [update_self, update_self]
      refine ⟨?_, fun i lt => iff_of_true (List.mem_append_right _ ?_) (unclaimed i lt)⟩
      · rw [idle, Finset.filter_true_of_mem, card_range]
        exact fun i mem => unclaimed i (mem_range.mp mem)
      · exact List.mem_map.mpr ⟨i, List.mem_range.mpr lt, rfl⟩
    · cases here.symm.trans hn
    · exact ⟨(In.grow new ho).1, touch o ho fun there => h.off_list ho hl (a := 0) (.inl there)⟩
  · exact .inr run

theorem Entries.bigBlock (large : 1024 < size.toNat)
    (lt : size.toNat < 2 ^ 31) :
    (∃ a s', (Heap.bigBlock size).run s = (.ok (some (a + sizeofArena)), s') ∧ kind a = none ∧
      live (a + sizeofArena) = none ∧
      Disjoint (usedPages s.toMem) (arenaPages a ((size.toNat + 4107) / 4096)) ∧
      usedPages s'.toMem = usedPages s.toMem ∪ arenaPages a ((size.toNat + 4107) / 4096) ∧
      Entries descs s' (update live (a + sizeofArena)
          (some ⟨size.toNat, arenaPages a ((size.toNat + 4107) / 4096)⟩))
        (update kind a (some (.big ((size.toNat + 4107) / 4096))))
        (update cnt a ((size.toNat + 4107) / 4096)) free ∧
      Kept descs kind (update kind a (some (.big ((size.toNat + 4107) / 4096)))) live
        s.ram s'.ram ∧ Beyond s.toMem s'.toMem) ∨
    (Full s.toMem ((size.toNat + 4107) / 4096) ∧ (Heap.bigBlock size).run s = (.ok none, s)) := by
  rcases bigBlock_spec h.held lt with ⟨a, s', run, new, held, fresh, pages, touch, beyond⟩ | run
  · generalize hk : (size.toNat + 4107) / 4096 = k at *
    have here : update kind a (some (.big k)) a = some (.big k) := update_self ..
    have inside : (Obj.payload a k).In descs (update kind a (some (.big k))) := here
    have unclaimed : live (a + sizeofArena) = none := h.unclaimed new held.shape inside rfl
    refine .inl ⟨a, s', run, new, unclaimed, fresh, pages, h.change (a := a) held
      (fun a' ne => ⟨update_of_ne ne _ _, update_of_ne ne _ _⟩)
      (fun _ _ _ _ _ _ => Iff.rfl) (fun o inside' ne => ?_) (fun b g hb => ?_) (fun d hk' => ?_)
      (fun n hn => ?_), fun o ho hl => ?_, beyond⟩
    · exact Shape.update_off held.shape inside inside' fun e => ne (e ▸ rfl)
    · by_cases same : b = a + sizeofArena
      · rw [same, update_self] at hb
        cases hb
        refine ⟨_, inside, same.symm, large, ?_, rfl⟩
        simp only [sizeofArena, pgsize, pgbits]
        omega
      · rw [update_of_ne same] at hb
        obtain ⟨o, inside', e, hosts⟩ := h.owner b g hb
        exact ⟨o, (In.grow new inside').1, e, hosts⟩
    · cases here.symm.trans hk'
    · obtain rfl : k = n := by simpa using here.symm.trans hn
      simp
    · exact ⟨(In.grow new ho).1, touch o ho id⟩
  · exact .inr run

theorem Entries.handOut {size : Nat} {before : Set Page}
    (hk : kind a = some (.small d)) (lt : i < d.blocksPerArena)
    (split : free d = block a d i :: rest) (fits : size ≤ d.blockSize)
    (pages : usedPages s.toMem \ before ⊆ arenaPages a 1)
    (busy : ∀ a', a' ≠ a → Busy live kind a') :
    ∃ s' cnt' free', (takeBlock d).run s = (.ok (block a d i), s') ∧
      usedPages s'.toMem = usedPages s.toMem ∧
      Book descs s' (update live (block a d i)
        (some ⟨size, usedPages s'.toMem \ before⟩)) kind cnt' free' ∧
      Kept descs kind kind live s.ram s'.ram ∧ Beyond s.toMem s'.toMem := by
  have hosts : Hosts (.block a d i) ⟨size, usedPages s.toMem \ before⟩ := ⟨fits, pages⟩
  obtain ⟨ram, run, entries, kept, below⟩ := h.take hk lt split hosts
  refine ⟨s.withRam ram, update cnt a (cnt a - 1), update free d rest, run,
    usedPages_withRam ram, ?_, kept, Below.beyond below⟩
  rw [usedPages_withRam]
  refine ⟨entries, fun a' => ?_⟩
  by_cases same : a' = a
  · intro d' hk'
    rw [same, hk] at hk'
    cases hk'
    exact ⟨i, lt, by simp [same]⟩
  · exact (busy a' same).grant

theorem Entries.drop {cnt' : Nat → Nat} {free' : Desc → List Nat} (inside : o.In descs kind)
    (only : ∀ o' : Obj, o'.In descs kind → o'.arena = some a → o' ≠ o → live o'.low = none)
    (held : Held descs s' (update kind a none) cnt' free')
    (lists : ∀ a' d i, a' ≠ a → kind a' = some (.small d) → i < d.blocksPerArena →
      (block a' d i ∈ free' d ↔ block a' d i ∈ free d))
    (counts : ∀ a', a' ≠ a → cnt' a' = cnt a') (arena : o.arena = some a) :
    Entries descs s' (update live o.low none) (update kind a none) cnt' free' := by
  have gone : update kind a none a = none := update_self ..
  refine h.change (a := a) held (fun a' ne => ⟨update_of_ne ne _ _, counts a' ne⟩) lists
    (fun o' inside' ne => ?_) (fun b g hb => ?_) (fun d hk => ?_) fun n hn => ?_
  · exact Shape.update_off h.held.shape inside (In.of_drop inside').1 fun e => ne (e ▸ arena)
  · by_cases same : b = o.low
    · rw [same, update_self] at hb
      cases hb
    rw [update_of_ne same] at hb
    obtain ⟨o', inside', e, hosts⟩ := h.owner b g hb
    refine ⟨o', In.drop inside' fun arena' => ?_, e, hosts⟩
    have free := only o' inside' arena' fun e' => same (by rw [← e, e'])
    rw [e, hb] at free
    cases free
  · cases gone.symm.trans hk
  · cases gone.symm.trans hn

theorem Entries.off_list_but (inside : o.In descs kind)
    (ho : update live (block a d i) none o.low ≠ none) :
    live o.low ≠ none ∧ ¬(ListObj d (block a d i :: free d) o ∨ o = .header a) := by
  obtain ⟨ne, ho⟩ := update_used ho
  refine ⟨ho, ?_⟩
  rintro ((rfl | ⟨a', j, rfl, mem⟩) | rfl)
  · exact h.off_list inside ho (a := a) (.inl (.inl rfl))
  · rcases List.mem_cons.mp mem with same | mem
    · exact ne same
    · exact h.off_list inside ho (a := a) (.inl (.inr ⟨a', j, rfl, mem⟩))
  · exact h.off_list inside ho (d := d) (.inr rfl)

theorem Entries.arenaOf_low (inside : o.In descs kind)
    (hosts : Hosts o g) : o.arena = some (arenaOf o.low) := by
  cases o with
  | desc | header => exact hosts.elim
  | block a d i => exact congrArg some (h.held.offset inside.1 inside.2).2.symm
  | payload a n => exact congrArg some (h.held.offset_big inside).2.symm

theorem Entries.shared_iff (hk : kind a = some (.small d)) (lt : i < d.blocksPerArena) :
    Shared live (block a d i) ↔ ∃ j < d.blocksPerArena, j ≠ i ∧ live (block a d j) ≠ none := by
  have hd := h.held.shape.known a d hk
  have arena : arenaOf (block a d i) = a := (h.held.offset hk lt).2
  constructor
  · rintro ⟨b', ne, used, same⟩
    obtain ⟨g, hg⟩ := Option.ne_none_iff_exists'.mp used
    obtain ⟨o, inside, rfl, hosts⟩ := h.owner b' g hg
    have place := h.arenaOf_low inside hosts
    rw [same, arena] at place
    rcases h.used_cases inside used place with ⟨d', j, rfl, hk', less⟩ | ⟨n, rfl, hn⟩
    · cases hk.symm.trans hk'
      exact ⟨j, less, fun e => ne (by rw [e]; rfl), used⟩
    · cases hk.symm.trans hn
  · rintro ⟨j, less, ne, used⟩
    exact ⟨_, fun e => ne (block_injective hd e), used, by
      rw [arena]
      exact (h.held.offset hk less).2⟩

theorem Entries.arena_used {k : Kind}
    (hk : kind a = some k) : arenaPages a k.pages ⊆ usedPages s.toMem := by
  rintro ⟨u, q⟩ ⟨rfl, span⟩
  exact h.held.shape.used a k q hk span

theorem Entries.returned_used {pages : Set Page}
    (hg : live b = some g) (returned : Returned live' b g pages) : pages ⊆ usedPages s.toMem := by
  obtain ⟨o, inside, rfl, hosts⟩ := h.owner b g hg
  have arena := h.arenaOf_low inside hosts
  obtain ⟨k, hk⟩ := inside.arena arena
  by_cases large : 1024 < g.size
  · rw [returned.big large]
    cases o with
    | desc | header => exact hosts.elim
    | block a d i =>
      have most := hosts.1.trans (table_sizes (h.held.shape.known a d inside.1)).2.1
      omega
    | payload a n =>
      rw [hosts.2.2]
      exact h.arena_used inside
  · have small : g.size ≤ 1024 := by omega
    by_cases shared : Shared live' o.low
    · rw [returned.shared small shared]
      exact Set.empty_subset _
    · rw [returned.last small shared, Set.singleton_subset_iff]
      exact h.arena_used hk ⟨rfl, 0, h.held.shape.pos _ k hk, rfl⟩

theorem Entries.blockSize (inside : o.In descs kind)
    (hosts : Hosts o g) : (Heap.blockSize o.low).run s = (.ok (o.high - o.low), s) := by
  cases o with
  | desc | header => exact hosts.elim
  | block a d i =>
    simp only [Obj.high, Obj.low, Nat.add_sub_cancel_left]
    exact run_bind_ok (blockToArena_small h.held inside.1 inside.2) _
  | payload a n =>
    have page := h.held.shape.page inside
    have offset := (h.held.offset_big inside).1
    have above := h.held.shape.pos a _ inside
    have value : (BitVec.ofNat 32 pgsize * BitVec.ofNat 32 n -
        BitVec.ofNat 32 ((a + sizeofArena) % pgsize)).toNat =
          a + pgsize * n - (a + sizeofArena) := by
      rw [offset]
      simp only [BitVec.toNat_sub, BitVec.toNat_mul, BitVec.toNat_ofNat, sizeofArena, pgsize, pgbits,
        Kind.pages] at *
      omega
    simp only [Obj.high, Obj.low]
    rw [← value]
    exact (run_bind_ok (blockToArena_big h.held inside) _).trans
      (run_bind_ok (h.run_pages inside) _)

end Entries

def Within (s s' : Arenas) (size : Nat) : Prop :=
  ∃ a, usedPages s'.toMem ⊆ usedPages s.toMem ∪ arenaPages a ((size + 4107) / 4096)

/-- A block is handed out, and what clients have stays. -/
def HandsOut (descs : Nat) (s : Arenas) (live : Ledger) (kind : Nat → Option Kind)
    (size : BitVec 32) : Prop :=
  ∃ b s' kind' cnt' free', (Heap.malloc size).run s = (.ok (some b), s') ∧ live b = none ∧
    usedPages s.toMem ⊆ usedPages s'.toMem ∧
    Book descs s' (update live b
      (some ⟨size.toNat, usedPages s'.toMem \ usedPages s.toMem⟩)) kind' cnt' free' ∧
    Kept descs kind kind' live s.ram s'.ram ∧ Beyond s.toMem s'.toMem ∧ Within s s' size.toNat

theorem Book.mallocSmall (h : Book descs s live kind cnt free) (nonzero : size ≠ 0)
    (hd : d ∈ table descs) (fits : size.toNat ≤ d.blockSize)
    (found : (table descs).find? (fun d => size.toNat ≤ d.blockSize) = some d) :
    HandsOut descs s live kind size ∨
    (Full s.toMem ((size.toNat + 4107) / 4096) ∧ (Heap.malloc size).run s = (.ok none, s)) := by
  have one : (size.toNat + 4107) / 4096 = 1 := by
    have most := (table_sizes hd).2.1
    have least : size.toNat ≠ 0 := fun zero => nonzero (BitVec.eq_of_toNat_eq zero)
    omega
  rw [HandsOut, Heap.malloc, if_neg nonzero, run_bind_ok (Exec.run_state s), h.held.inUse]
  simp only [found]
  rw [run_bind_ok (listEmpty_spec h.held hd)]
  cases empty : free d with
  | cons b rest =>
    obtain ⟨a, i, hk, lt, rfl, spare⟩ := h.front hd empty
    obtain ⟨s', cnt', free', run, pages, book, kept, beyond⟩ := h.handOut hk lt empty fits
      (Set.sdiff_self.trans_subset (Set.empty_subset _)) fun a' _ => h.busy a'
    refine .inl ⟨_, s', _, _, _, ?_, spare, pages.symm.subset, book, kept, beyond, 0,
      pages.subset.trans Set.subset_union_left⟩
    simp only [reduceCtorEq, decide_false, Bool.false_eq_true, if_false]
    rw [run_bind_ok run]
    rfl
  | nil =>
    simp only [decide_true, if_true]
    rcases h.newArena hd with ⟨a, s', run, new, entries, fresh, pages, kept, beyond⟩ | ⟨full, run⟩
    · rw [empty, List.nil_append] at entries
      have many := (table_sizes hd).2.2.1
      have first : update free d ((List.range d.blocksPerArena).map (block a d)) d =
          block a d 0 :: ((List.range' 1 (d.blocksPerArena - 1)).map (block a d)) := by
        rw [update_self, List.range_eq_range']
        obtain ⟨n, hn⟩ := Nat.exists_eq_succ_of_ne_zero (Nat.ne_of_gt many)
        rw [hn]
        rfl
      have taken := (congrArg (· \ usedPages s.toMem) pages).trans fresh.sup_sdiff_cancel_left
      have busy : ∀ a', a' ≠ a → Busy live (update kind a (some (.small d))) a' :=
        fun a' ne d' hk => h.busy a' d' ((added hk).resolve_left fun here => ne here.1).2
      obtain ⟨s'', cnt', free', run', pages', book, kept', beyond'⟩ := entries.handOut
        (update_self ..) many first fits taken.subset busy
      refine .inl ⟨_, s'', _, _, _, ?_, ?_, ?_, book, kept.trans kept', beyond.trans beyond', a,
        by rw [pages', pages, one]⟩
      · rw [run_bind_ok run]
        simp only [if_true]
        rw [run_bind_ok run']
        rfl
      · have inside : (Obj.block a d 0).In descs (update kind a (some (.small d))) :=
          ⟨update_self .., many⟩
        exact h.unclaimed new entries.held.shape inside rfl
      · rw [pages', pages]
        exact Set.subset_union_left
    · right
      rw [run_bind_ok run, one]
      exact ⟨full, rfl⟩

theorem Book.malloc (h : Book descs s live kind cnt free) (lt : size.toNat < 2 ^ 31) :
    HandsOut descs s live kind size ∨
    ((size ≠ 0 → Full s.toMem ((size.toNat + 4107) / 4096)) ∧
      (Heap.malloc size).run s = (.ok none, s)) := by
  by_cases nonzero : size = 0
  · right
    rw [Heap.malloc, if_pos nonzero]
    exact ⟨fun some => absurd nonzero some, rfl⟩
  rcases find_size descs size.toNat with ⟨d, hd, fits, found⟩ | ⟨large, found⟩
  · exact (h.mallocSmall nonzero hd fits found).imp id fun full => ⟨fun _ => full.1, full.2⟩
  have run : (Heap.malloc size).run s = (Heap.bigBlock size).run s := by
    rw [Heap.malloc, if_neg nonzero, run_bind_ok (Exec.run_state s), h.held.inUse]
    simp only [found]
  rw [HandsOut, run]
  rcases h.bigBlock large lt with
    ⟨a, s', run, new, spare, fresh, pages, entries, kept, beyond⟩ | ⟨full, run⟩
  · have taken := (congrArg (· \ usedPages s.toMem) pages).trans fresh.sup_sdiff_cancel_left
    refine .inl ⟨_, s', _, _, _, run, spare, ?_, ⟨taken ▸ entries, fun a' d hk => ?_⟩, kept,
      beyond, a, pages.subset⟩
    · rw [pages]
      exact Set.subset_union_left
    · rcases added hk with ⟨-, other⟩ | ⟨-, old⟩
      · cases other
      · exact (h.busy a').grant d old
  · exact .inr ⟨fun _ => full, run⟩

/-- What clients other than the one of `b` have stays, with its bytes. -/
def KeptBut (descs b : Nat) (kind kind' : Nat → Option Kind) (live : Ledger)
    (ram ram' : Nat → UInt8) : Prop :=
  Kept descs kind kind' (update live b none) ram ram'

theorem Book.busy_other (h : Book descs s live kind cnt free) (inside : o.In descs kind)
    (arena : o.arena = some a) (ne : a' ≠ a) : Busy (update live o.low none) kind a' := by
  intro d hk
  obtain ⟨i, lt, hl⟩ := h.busy a' d hk
  have inside' : (Obj.block a' d i).In descs kind := ⟨hk, lt⟩
  have kept : update live o.low none (block a' d i) = live (block a' d i) :=
    Shape.update_off h.held.shape inside inside' fun e => ne (by
      rw [← e] at arena
      exact Option.some.inj arena)
  exact ⟨i, lt, by rwa [kept]⟩

theorem Book.busy_drop (h : Book descs s live kind cnt free) (inside : o.In descs kind)
    (arena : o.arena = some a) (a' : Nat) :
    Busy (update live o.low none) (update kind a none) a' := by
  intro d hk
  obtain ⟨ne, hk⟩ := dropped hk
  exact h.busy_other inside arena ne d hk

section GiveSmall

variable (h : Book descs s live kind cnt free) (hk : kind a = some (.small d))
  (lt : i < d.blocksPerArena) (hl : live (block a d i) ≠ none)
include h hk lt hl

theorem Book.off_free : block a d i ∉ free d := fun mem => hl ((h.listed a d i hk lt).mp mem)

theorem Book.giveKeep {j : Nat} (ne : j ≠ i) (lt' : j < d.blocksPerArena)
    (hl' : live (block a d j) ≠ none) :
    ∃ s' cnt' free', (freeBlock (block a d i) a d).run s = (.ok (), s') ∧
      usedPages s'.toMem = usedPages s.toMem ∧
      Book descs s' (update live (block a d i) none) kind cnt' free' ∧
      KeptBut descs (block a d i) kind kind live s.ram s'.ram ∧ Beyond s.toMem s'.toMem := by
  have hd := h.held.shape.known a d hk
  have off := h.off_free hk lt hl
  have out : i ∉ idle live a d := fun mem => hl (mem_idle.mp mem).2
  have count := h.count a d hk
  have less : cnt a + 1 < d.blocksPerArena := by
    have sub : idle live a d ⊆ ((Finset.range d.blocksPerArena).erase i).erase j := by
      intro x mem
      obtain ⟨bound, spare⟩ := mem_idle.mp mem
      simp only [mem_erase, mem_range]
      exact ⟨fun e => hl' (e ▸ spare), fun e => hl (e ▸ spare), bound⟩
    have most := Finset.card_le_card sub
    rw [card_erase_of_mem (by simp [ne, lt']), card_erase_of_mem (by simp [lt]), card_range] at most
    omega
  have many := blocksPerArena_le hd
  obtain ⟨ram, held, touch, below, run⟩ := putBack_spec h.held hk lt off (by omega)
  rw [if_neg (by omega)] at run
  have entries := h.relist (x := none) hk lt held (fun _ => nofun)
    (iff_of_true List.mem_cons_self rfl) (fun b differ => by simp [differ])
    (by rw [idle_give hd lt, Finset.card_insert_of_notMem out, count])
  refine ⟨s.withRam ram, _, _, run, usedPages_withRam ram, ⟨entries, fun a' d' hk' => ?_⟩,
    fun o inside ho => ⟨inside, touch o inside (h.off_list_but inside ho).2⟩, Below.beyond below⟩
  by_cases same : a' = a
  · subst same
    rw [hk] at hk'
    cases hk'
    refine ⟨j, lt', ?_⟩
    rwa [update_of_ne fun e => ne (block_injective hd e)]
  · have here : (Obj.block a d i).In descs kind := ⟨hk, lt⟩
    exact h.busy_other here rfl same d' hk'

theorem Book.giveLast (last : ∀ j < d.blocksPerArena, j ≠ i → live (block a d j) = none) :
    ∃ s' cnt' free', (freeBlock (block a d i) a d).run s = (.ok (), s') ∧
    usedPages s'.toMem = usedPages s.toMem \ arenaPages a 1 ∧
    Book descs s' (update live (block a d i) none) (update kind a none) cnt' free' ∧
    KeptBut descs (block a d i) kind (update kind a none) live s.ram s'.ram ∧
    Beyond s.toMem s'.toMem := by
  have hd := h.held.shape.known a d hk
  have inside : (Obj.block a d i).In descs kind := ⟨hk, lt⟩
  have rest : ∀ j < d.blocksPerArena, j ≠ i → block a d j ∈ free d := fun j less ne =>
    (h.listed a d j hk less).mpr (last j less ne)
  have spare : idle live a d = (Finset.range d.blocksPerArena).erase i := by
    ext j
    rw [mem_idle, mem_erase, mem_range, and_comm]
    refine and_congr_left fun less => ⟨fun none same => hl (same ▸ none), last j less⟩
  have full : cnt a + 1 = d.blocksPerArena := by
    rw [h.count a d hk, spare, card_erase_of_mem (mem_range.mpr lt), card_range]
    omega
  obtain ⟨s', run, held, pages, touch, beyond⟩ := freeBlock_last h.held hk lt
    (h.off_free hk lt hl) full rest
  have only : ∀ o' : Obj, o'.In descs kind → o'.arena = some a → o' ≠ .block a d i →
      live o'.low = none := by
    intro o' inside' arena ne
    by_contra used
    rcases h.used_cases inside' used arena with ⟨d', j, rfl, hk', less⟩ | ⟨n, rfl, hn⟩
    · cases hk.symm.trans hk'
      exact used (last j less fun e => ne (e ▸ rfl))
    · cases hk.symm.trans hn
  have entries := h.toEntries.drop inside only held (fun a' d' j ne hk' less => ?_)
    (fun a' ne => update_of_ne ne _ _) rfl
  · refine ⟨s', _, _, run, pages, ⟨entries, h.busy_drop inside rfl⟩, fun o ho used => ?_, beyond⟩
    obtain ⟨used', off⟩ := h.off_list_but ho used
    have away : o.arena ≠ some a := fun arena => used' (only o ho arena fun e => used (by
      rw [e]
      exact update_self ..))
    have there := In.drop ho away
    exact ⟨there, touch o there fun listed => off (.inl (listed.mono fun x mem =>
      List.mem_cons_of_mem _ mem))⟩
  · by_cases desc : d' = d
    · subst desc
      rw [update_self, List.mem_filter]
      refine and_iff_left (decide_eq_true fun mem => ?_)
      obtain ⟨j', less', e⟩ := List.mem_map.mp mem
      exact ne (Shape.block_unique h.held.shape hk (List.mem_range.mp less') hk' less e).1.symm
    · rw [update_of_ne desc]

end GiveSmall

theorem Book.giveBig (h : Book descs s live kind cnt free) (hn : kind a = some (.big n)) :
    ∃ s', (palloc (pallocFreeMultiple (some a) n)).run s = (.ok (), s') ∧
    usedPages s'.toMem = usedPages s.toMem \ arenaPages a n ∧
    Book descs s' (update live (a + sizeofArena) none) (update kind a none) cnt free ∧
    KeptBut descs (a + sizeofArena) kind (update kind a none) live s.ram s'.ram ∧
    Beyond s.toMem s'.toMem := by
  have inside : (Obj.payload a n).In descs kind := hn
  obtain ⟨s', run, held, pages, touch, beyond⟩ := release_spec h.held hn fun d i hk => by
    rw [hn] at hk
    cases hk
  have only : ∀ o' : Obj, o'.In descs kind → o'.arena = some a → o' ≠ .payload a n →
      live o'.low = none := by
    intro o' inside' arena ne
    by_contra used
    rcases h.used_cases inside' used arena with ⟨d', j, rfl, hk, -⟩ | ⟨n', rfl, hn'⟩
    · cases hn.symm.trans hk
    · cases hn.symm.trans hn'
      exact ne rfl
  have entries := h.toEntries.drop inside only held (fun _ _ _ _ _ _ => Iff.rfl)
    (fun _ _ => rfl) rfl
  refine ⟨s', run, pages, ⟨entries, h.busy_drop inside rfl⟩, fun o ho used => ?_, beyond⟩
  obtain ⟨ne, used'⟩ := update_used used
  have away : o.arena ≠ some a := fun arena => used' (only o ho arena fun e => ne (by
    rw [e]
    rfl))
  exact ⟨In.drop ho away, touch o (In.drop ho away) id⟩

theorem Book.give (h : Book descs s live kind cnt free) (hg : live b = some g) :
    ∃ s' kind' cnt' free', (Heap.free (some b)).run s = (.ok (), s') ∧
      Book descs s' (update live b none) kind' cnt' free' ∧
      KeptBut descs b kind kind' live s.ram s'.ram ∧ Beyond s.toMem s'.toMem ∧
      (∃ pages, usedPages s'.toMem = usedPages s.toMem \ pages ∧ Returned live b g pages) ∧
      (¬Shared live b → kind' (arenaOf b) = none) := by
  obtain ⟨o, inside, rfl, hosts⟩ := h.owner b g hg
  have used : live o.low ≠ none := by simp [hg]
  cases o with
  | desc | header => exact hosts.elim
  | block a d i =>
    obtain ⟨hk, lt⟩ := inside
    have arena : arenaOf (block a d i) = a := (h.held.offset hk lt).2
    have small : g.size ≤ 1024 := hosts.1.trans (table_sizes (h.held.shape.known a d hk)).2.1
    have run : (Heap.free (some (block a d i))).run s = (freeBlock (block a d i) a d).run s :=
      run_bind_ok (blockToArena_small h.held hk lt) _
    simp only [Obj.low] at *
    rw [run]
    by_cases shared : Shared live (block a d i)
    · obtain ⟨j, less, ne, used'⟩ := (h.shared_iff hk lt).mp shared
      obtain ⟨s', cnt', free', give, pages, book, kept, beyond⟩ :=
        h.giveKeep hk lt used ne less used'
      refine ⟨s', kind, cnt', free', give, book, kept, beyond, ⟨∅, pages.trans Set.sdiff_empty.symm,
        fun large => ?_, fun _ _ => rfl, fun _ alone => absurd shared alone⟩,
        fun alone => absurd shared alone⟩
      exact absurd small (by omega)
    · have last : ∀ j < d.blocksPerArena, j ≠ i → live (block a d j) = none := fun j less ne => by
        by_contra used'
        exact shared ((h.shared_iff hk lt).mpr ⟨j, less, ne, used'⟩)
      obtain ⟨s', cnt', free', give, pages, book, kept, beyond⟩ := h.giveLast hk lt used last
      rw [arenaPages_one] at pages
      refine ⟨s', _, cnt', free', give, book, kept, beyond, ⟨_, pages, fun large => ?_,
        fun _ there => absurd there shared, fun _ _ => ?_⟩, fun _ => ?_⟩
      · exact absurd small (by omega)
      · rw [arena]
      · rw [arena, update_self]
  | payload a n =>
    have arena : arenaOf (a + sizeofArena) = a := (h.held.offset_big inside).2
    have run : (Heap.free (some (a + sizeofArena))).run s =
        (palloc (pallocFreeMultiple (some a) n)).run s :=
      (run_bind_ok (blockToArena_big h.held inside) _).trans
        (run_bind_ok (h.run_pages inside) _)
    obtain ⟨s', give, pages, book, kept, beyond⟩ := h.giveBig inside
    refine ⟨s', _, cnt, free, run.trans give, book, kept, beyond, ⟨_, pages, fun _ => hosts.2.2.symm,
      fun small => ?_, fun small => ?_⟩, fun _ => ?_⟩
    · exact absurd hosts.1 (by omega)
    · exact absurd hosts.1 (by omega)
    · simp only [Obj.low]
      rw [arena, update_self]

end Pintos.HeapBook
