import Pintos.HeapSteps

/-! What the functions of the allocator do to a heap that memory shows. -/

namespace Pintos.HeapCalls
open ByteStore Links Stoppable Vaddr Accounts Heap HeapLayout HeapSteps Function
open Palloc hiding update
open Exec (run_bind_ok run_state)

structure Held (descs : Nat) (s : Arenas) (kind : Nat → Option Kind) (cnt : Nat → Nat)
    (free : Desc → List Nat) : Prop where
  inUse : s.descs = table descs
  shape : Shape descs s.toMem kind
  rep : Rep descs kind cnt free s.ram

variable {descs : Nat} {d : Desc} {a b e i n : Nat} {kind : Nat → Option Kind} {cnt : Nat → Nat}
  {free : Desc → List Nat} {s : Arenas} {W : Obj → Prop}
variable {m : Mem} {ram : Nat → UInt8}

/-- The run returns `r` and changes bytes of `W` only; the counts and lists are then as given. -/
def Leaves (descs : Nat) (kind : Nat → Option Kind) (s : Arenas) {α : Type} (x : Malloc α) (r : α)
    (cnt : Nat → Nat) (free : Desc → List Nat) (W : Obj → Prop) : Prop :=
  ∃ ram, x.run s = (.ok r, s.withRam ram) ∧ Held descs (s.withRam ram) kind cnt free ∧
    Touches descs kind W s.ram ram ∧ Below s.toMem s.ram ram

theorem run_palloc {α : Type} {x : Alloc α} {r : Except Stop α} (h : x.run s.toMem = (r, m)) :
    (palloc x).run s = (r, { s with toMem := m }) := Exec.run_zoom h

theorem Held.withRam {cnt' : Nat → Nat} {free' : Desc → List Nat} (h : Held descs s kind cnt free)
    (rep : Rep descs kind cnt' free' ram) : Held descs (s.withRam ram) kind cnt' free' :=
  ⟨h.inUse, Shape.congr h.shape rfl, rep⟩

theorem Below.beyond (h : Below s.toMem s.ram ram) :
    Beyond s.toMem (s.withRam ram).toMem := ⟨rfl, rfl, rfl, h⟩

theorem run_listInsert (before : b ≠ 0) (back : prev s.ram b ≠ 0) (elem : e ≠ 0) :
    (listInsert b e).run s = (.ok (), s.withRam (insertBefore s.ram b e)) := by
  have place : isInterior s.ram b ∨ isTail s.ram b := by
    by_cases last : next s.ram b = 0
    · exact .inr ⟨before, back, last⟩
    · exact .inl ⟨before, back, last⟩
  rw [listInsert, run_bind_ok (run_state s), run_bind_ok (run_assert place s),
    run_bind_ok (run_assert elem s)]
  rfl

section Lists

variable (h : Held descs s kind cnt free) (hd : d ∈ table descs)
include h hd

theorem chain_ne_zero {x : Nat} (mem : x ∈ d.head :: free d ++ [d.tail]) : x ≠ 0 :=
  Shape.elem_pos h.shape hd (h.rep.chain_elem hd mem)

theorem listPushFront_spec (hk : kind a = some (.small d)) (lt : i < d.blocksPerArena)
    (fresh : block a d i ∉ free d) : Leaves descs kind s (listPushFront d (block a d i))
    () cnt (update free d (block a d i :: free d)) (ListObj d (block a d i :: free d)) := by
  have seg := h.rep.list d hd
  obtain ⟨rep, touch⟩ := h.rep.pushFront h.shape hd hk lt fresh
  refine ⟨_, ?_, h.withRam rep, touch⟩
  rw [listPushFront, run_bind_ok (rfl : (load (d.head + 4)).run s = _)]
  refine run_listInsert (chain_ne_zero h hd (List.mem_cons_of_mem _ seg.next_mem)) ?_ ?_
  · change prev s.ram (next s.ram d.head) ≠ 0
    rw [seg.prev_next]
    exact chain_ne_zero h hd (by simp)
  · exact Shape.elem_pos h.shape hd (.inr (.inr ⟨a, i, hk, lt, rfl⟩))

theorem listPushBack_spec (hk : kind a = some (.small d)) (lt : i < d.blocksPerArena)
    (fresh : block a d i ∉ free d) : Leaves descs kind s (listPushBack d (block a d i))
    () cnt (update free d (free d ++ [block a d i])) (ListObj d (block a d i :: free d)) := by
  have seg := h.rep.list d hd
  obtain ⟨rep, touch⟩ := h.rep.pushBack h.shape hd hk lt fresh
  refine ⟨_, run_listInsert (chain_ne_zero h hd (by simp)) ?_ ?_, h.withRam rep, touch⟩
  · exact chain_ne_zero h hd (List.mem_append_left _ seg.prev_mem)
  · exact Shape.elem_pos h.shape hd (.inr (.inr ⟨a, i, hk, lt, rfl⟩))

theorem listRemove_spec {xs ys : List Nat} (split : free d = xs ++ e :: ys) :
    Leaves descs kind s (listRemove e) () cnt (update free d (xs ++ ys)) (ListObj d (free d)) := by
  have seg := h.rep.list d hd
  obtain ⟨rep, touch⟩ := h.rep.remove h.shape hd split
  refine ⟨_, ?_, h.withRam rep, touch⟩
  rw [split] at seg
  obtain ⟨left, right⟩ := seg_append.mp seg
  have before := left.prev_mem
  have after := right.next_mem
  have interior : isInterior s.ram e := by
    refine ⟨chain_ne_zero h hd (by simp [split]), chain_ne_zero h hd ?_, chain_ne_zero h hd ?_⟩
    all_goals
      rw [split]
      simp at before after ⊢
      tauto
  rw [listRemove, run_bind_ok (run_state s), run_bind_ok (run_assert interior s)]
  rfl

theorem listEmpty_spec : (listEmpty d).run s = (.ok (decide (free d = [])), s) := by
  have seg := h.rep.list d hd
  have nodup := h.rep.chain_nodup h.shape hd
  have first : word s.ram (d.head + 4) = d.tail ↔ free d = [] := by
    change next s.ram d.head = d.tail ↔ free d = []
    cases e : free d with
    | nil =>
      rw [e] at seg
      exact iff_of_true seg.1 rfl
    | cons b rest =>
      rw [e] at seg nodup
      refine iff_of_false (fun same => ?_) (by simp)
      rw [seg.1] at same
      simp [same] at nodup
  rw [listEmpty, run_bind_ok (rfl : (load (d.head + 4)).run s = _)]
  simp only [Exec.run_pure, first]

theorem listPopFront_spec {rest : List Nat} (split : free d = b :: rest) :
    Leaves descs kind s (listPopFront d) b cnt (update free d rest) (ListObj d (free d)) := by
  have split' : free d = [] ++ b :: rest := split
  obtain ⟨ram, run, held, touch⟩ := listRemove_spec h hd split'
  have front : word s.ram (d.head + 4) = b := by
    have seg := h.rep.list d hd
    rw [split] at seg
    exact seg.1
  have some : decide (free d = []) = false := by simp [split]
  refine ⟨ram, ?_, held, touch⟩
  rw [listPopFront, run_bind_ok (listEmpty_spec h hd), run_bind_ok (run_assert some s),
    run_bind_ok (rfl : (load (d.head + 4)).run s = _), front,
    run_bind_ok run]
  rfl

end Lists

theorem find_addr (hd : d ∈ table descs) :
    (table descs).find? (fun d' => d'.addr = d.addr) = some d := by
  cases found : (table descs).find? (fun d' => d'.addr = d.addr) with
  | none => simpa using List.find?_eq_none.mp found d hd
  | some d' =>
    have same : d'.addr = d.addr := by simpa using List.find?_some found
    by_contra ne
    have apart := table_apart (List.mem_of_find?_eq_some found) hd fun e => ne (congrArg some e)
    omega

section Arenas

variable (h : Held descs s kind cnt free)
include h

/-- The checks at the start of `block_to_arena` and `arena_to_block`. -/
theorem Held.run_checks {k : Kind} (hk : kind a = some k) {α : Type} (f : Unit → Malloc α) :
    (assert (a ≠ 0) >>= fun _ => load a >>= fun magic => assert (magic = arenaMagic) >>= f).run s =
      (f ()).run s := by
  have page := h.shape.page hk
  have there : kind a ≠ none := by simp [hk]
  rw [run_bind_ok (run_assert (by omega) s), run_bind_ok (rfl : (load a).run s = _),
    run_bind_ok (run_assert (h.rep.magic a there) s)]

theorem Held.offset_big (hk : kind a = some (.big n)) : (a + sizeofArena) % pgsize = sizeofArena ∧
    (a + sizeofArena) - (a + sizeofArena) % pgsize = a := by
  have page := h.shape.page hk
  simp only [sizeofArena, pgsize, pgbits] at *
  omega

theorem blockToArena_big (hk : kind a = some (.big n)) :
    (blockToArena (a + sizeofArena)).run s = (.ok (a, none), s) := by
  obtain ⟨offset, page⟩ := h.offset_big hk
  rw [blockToArena]
  simp only [page]
  have desc : (arenaDesc a).run s = (.ok none, s) := by
    rw [arenaDesc, run_bind_ok (run_state s)]
    simp only [h.rep.big a n hk, if_true]
    rfl
  rw [h.run_checks hk, run_bind_ok desc]
  simp only
  rw [run_bind_ok (run_assert offset s)]
  rfl

variable (hk : kind a = some (.small d))
include hk

theorem arenaDesc_small : (arenaDesc a).run s = (.ok (some d), s) := by
  have hd := h.shape.known a d hk
  have above := h.shape.above
  have addr := table_addr hd
  have base : 0 < physBase.toNat := by decide
  rw [arenaDesc, run_bind_ok (run_state s)]
  simp only [h.rep.small a d hk, h.inUse, find_addr hd]
  rw [if_neg (by omega)]
  rfl

variable (lt : i < d.blocksPerArena)
include lt

theorem Held.offset : block a d i % pgsize = sizeofArena + i * d.blockSize ∧
    block a d i - block a d i % pgsize = a := by
  have hd := h.shape.known a d hk
  have page := h.shape.page hk
  have bounds := block_bounds (a := a) hd lt
  have size := (table_sizes hd).1
  simp only [block, sizeofArena, pgsize, pgbits] at *
  omega

theorem blockToArena_small : (blockToArena (block a d i)).run s = (.ok (a, some d), s) := by
  obtain ⟨offset, page⟩ := h.offset hk lt
  have hd := h.shape.known a d hk
  have fits := (table_sizes hd).2.2.2
  have within : i * d.blockSize ≤ d.blocksPerArena * d.blockSize :=
    Nat.mul_le_mul_right _ (Nat.le_of_lt lt)
  have aligned : (BitVec.ofNat 32 (block a d i % pgsize) -
      BitVec.ofNat 32 sizeofArena).toNat % d.blockSize = 0 := by
    have exact : (BitVec.ofNat 32 (sizeofArena + i * d.blockSize) -
        BitVec.ofNat 32 sizeofArena).toNat = i * d.blockSize := by
      simp only [BitVec.toNat_sub, BitVec.toNat_ofNat, sizeofArena]
      omega
    rw [offset, exact, Nat.mul_mod_left]
  rw [blockToArena]
  simp only [page]
  rw [h.run_checks hk, run_bind_ok (arenaDesc_small h hk)]
  simp only
  rw [run_bind_ok (run_assert aligned s)]
  rfl

theorem arenaToBlock_spec : (arenaToBlock a i).run s = (.ok (block a d i), s) := by
  rw [arenaToBlock, h.run_checks hk, run_bind_ok (arenaDesc_small h hk),
    run_bind_ok (run_demand d s), run_bind_ok (run_assert lt s)]
  rfl

end Arenas

theorem forBlocks_push (n : Nat) {idx : Nat} (h : Held descs s kind cnt free)
    (hk : kind a = some (.small d)) (bound : idx + n ≤ d.blocksPerArena)
    (fresh : ∀ j, idx ≤ j → j < idx + n → block a d j ∉ free d) :
    Leaves descs kind s (forBlocks a (listPushBack d) n idx) () cnt
      (update free d (free d ++ (List.range' idx n).map (block a d)))
      (ListObj d (free d ++ (List.range' idx n).map (block a d))) := by
  have hd := h.shape.known a d hk
  induction n generalizing idx s free with
  | zero =>
    refine ⟨s.ram, rfl, ?_, .refl, fun _ _ => rfl⟩
    rw [List.range'_zero, List.map_nil, List.append_nil, update_eq_self]
    exact h
  | succ n ih =>
    have lt : idx < d.blocksPerArena := by omega
    obtain ⟨ram, push, held, touch, below⟩ := listPushBack_spec h hd hk lt
      (fresh idx (Nat.le_refl _) (by omega))
    have later : ∀ j, idx + 1 ≤ j → j < idx + 1 + n →
        block a d j ∉ update free d (free d ++ [block a d idx]) d := by
      intro j le less mem
      rw [update_self, List.mem_append, List.mem_singleton] at mem
      rcases mem with mem | same
      · exact fresh j (by omega) (by omega) mem
      · have := block_injective hd same
        omega
    obtain ⟨ram', rest, held', touch', below'⟩ := ih held (by omega) later
    rw [update_idem, update_self, List.append_assoc, List.singleton_append,
      ← List.map_cons, ← List.range'_succ] at held'
    rw [update_self, List.append_assoc, List.singleton_append, ← List.map_cons,
      ← List.range'_succ] at touch'
    refine ⟨ram', ?_, held', .trans (touch.mono fun o => ?_) touch', below.trans below'⟩
    · rw [forBlocks, run_bind_ok (arenaToBlock_spec h hk lt), run_bind_ok push]
      exact rest
    · refine ListObj.mono fun x mem => ?_
      rw [List.range'_succ, List.map_cons]
      simp at mem ⊢
      tauto

theorem filter_ne {xs ys : List Nat} (nodup : (xs ++ e :: ys).Nodup) :
    (xs ++ e :: ys).filter (· ≠ e) = xs ++ ys := by
  obtain ⟨-, tail, cross⟩ := List.nodup_append.mp nodup
  have left : xs.filter (· ≠ e) = xs :=
    List.filter_eq_self.mpr fun x mem => by simpa using cross x mem e List.mem_cons_self
  have right : ys.filter (· ≠ e) = ys := List.filter_eq_self.mpr fun x mem => by
    have ne : x ≠ e := fun same => (List.nodup_cons.mp tail).1 (same ▸ mem)
    simpa using ne
  rw [List.filter_append, List.filter_cons_of_neg (by simp), left, right]

theorem forBlocks_remove (n : Nat) {idx : Nat} (h : Held descs s kind cnt free)
    (hk : kind a = some (.small d)) (bound : idx + n ≤ d.blocksPerArena)
    (there : ∀ j, idx ≤ j → j < idx + n → block a d j ∈ free d) :
    Leaves descs kind s (forBlocks a listRemove n idx) () cnt (update free d
      ((free d).filter (· ∉ (List.range' idx n).map (block a d)))) (ListObj d (free d)) := by
  have hd := h.shape.known a d hk
  induction n generalizing idx s free with
  | zero =>
    refine ⟨s.ram, rfl, ?_, .refl, fun _ _ => rfl⟩
    simp only [List.range'_zero, List.map_nil, List.not_mem_nil, not_false_iff, decide_true,
      List.filter_true, update_eq_self]
    exact h
  | succ n ih =>
    have lt : idx < d.blocksPerArena := by omega
    have here := there idx (Nat.le_refl _) (by omega)
    obtain ⟨xs, ys, split⟩ := List.append_of_mem here
    obtain ⟨ram, run, held, touch, below⟩ := listRemove_spec h hd split
    have nodup := h.rep.nodup d hd
    have erased : xs ++ ys = (free d).filter (· ≠ block a d idx) := by
      rw [split] at nodup ⊢
      exact (filter_ne nodup).symm
    have later : ∀ j, idx + 1 ≤ j → j < idx + 1 + n →
        block a d j ∈ update free d (xs ++ ys) d := by
      intro j le lt'
      rw [update_self, erased]
      refine List.mem_filter.mpr ⟨there j (by omega) (by omega), ?_⟩
      have ne : block a d j ≠ block a d idx := fun same => by
        have := block_injective hd same
        omega
      simpa using ne
    obtain ⟨ram', rest, held', touch', below'⟩ := ih held (by omega) later
    refine ⟨ram', ?_, ?_, .trans touch (touch'.mono fun o => ListObj.mono fun x mem => ?_),
      below.trans below'⟩
    · rw [forBlocks, run_bind_ok (arenaToBlock_spec h hk lt), run_bind_ok run]
      exact rest
    · rw [update_idem, update_self, erased, List.filter_filter] at held'
      change Held descs (s.withRam ram') _ _ _ at held'
      simpa only [List.range'_succ, List.map_cons, List.mem_cons, not_or, Bool.decide_and,
        ne_eq, Bool.and_comm] using held'
    · rw [update_self, erased] at mem
      exact (List.mem_filter.mp mem).1

theorem Shape.block_unique {a' i' : Nat} (sh : Shape descs m kind) (hk : kind a = some (.small d))
    (lt : i < d.blocksPerArena) (hk' : kind a' = some (.small d)) (lt' : i' < d.blocksPerArena)
    (same : block a d i = block a' d i') : a = a' ∧ i = i' := by
  by_contra differ
  have ne : Obj.block a d i ≠ .block a' d i' := fun e => by
    cases e
    exact differ ⟨rfl, rfl⟩
  have inside : (Obj.block a d i).In descs kind := ⟨hk, lt⟩
  have inside' : (Obj.block a' d i').In descs kind := ⟨hk', lt'⟩
  have apart : block a d i + d.blockSize ≤ block a' d i' ∨
    block a' d i' + d.blockSize ≤ block a d i := sh.disjoint inside inside' ne
  have size := (table_sizes (sh.known a d hk)).1
  omega

theorem usedPages_withRam (ram : Nat → UInt8) :
    usedPages (s.withRam ram).toMem = usedPages s.toMem := by
  ext ⟨u, q⟩
  cases u <;> rfl

section NewArena

variable {k : Kind} {F : List Nat} {m : Mem} (new : kind a = none)
  (sh : Shape descs m (update kind a (some (.small d))))
include new sh

theorem block_new (rep : Rep descs kind cnt free s.ram) (hd : d ∈ table descs)
    (lt : i < d.blocksPerArena) : block a d i ∉ free d := by
  intro mem
  obtain ⟨a', i', hk', lt', same⟩ := rep.elems d hd _ mem
  have ne : a' ≠ a := fun e => by
    rw [e, new] at hk'
    cases hk'
  have kept : update kind a (some (.small d)) a' = some (.small d) := by
    rw [update_of_ne ne, hk']
  exact ne (Shape.block_unique sh (update_self ..) lt kept lt' same).1.symm

theorem touches_old {ram' : Nat → UInt8}
    (touch : Touches descs (update kind a (some (.small d)))
      (ListObj d (F ++ (List.range d.blocksPerArena).map (block a d))) ram ram') :
    Touches descs kind (ListObj d F) ram ram' := by
  intro o h off
  refine touch o (In.grow new h).1 ?_
  rintro (ends | ⟨a', i, rfl, mem⟩)
  · exact off (.inl ends)
  rcases List.mem_append.mp mem with mem | mem
  · exact off (.inr ⟨a', i, rfl, mem⟩)
  obtain ⟨j, lt, same⟩ := List.mem_map.mp mem
  have old := (In.grow (k := .small d) new h).1
  have place := Shape.block_unique sh (update_self ..) (List.mem_range.mp lt) old.1 old.2 same
  rw [← place.1] at h
  rw [Obj.In, new] at h
  cases h.1

end NewArena

def arenaPages (a n : Nat) : Set Page := {c | c.1 = false ∧ Span a n c.2}

/-- There are no `n` free pages in a row. -/
def Full (m : Mem) (n : Nat) : Prop :=
  ∀ page, (∀ q, Span page n q → (m.pool false).Has q) → ∃ q, Span page n q ∧ (m.pool false).Used q

theorem Taken.pages {m' : Mem} (h : Taken m m' false a n) :
    Disjoint (usedPages m) (arenaPages a n) ∧ usedPages m' = usedPages m ∪ arenaPages a n := by
  constructor
  · rw [Set.disjoint_left]
    rintro ⟨u, q⟩ used ⟨rfl, span⟩
    exact h.fresh q span used
  · ext c
    rw [Set.mem_union, mem_usedPages, mem_usedPages, h.used_iff, or_comm]
    rfl

/-- The header of an arena is written to new pages. -/
theorem Held.newHeader {k : Kind} (h : Held descs s kind cnt free)
    (taken : Taken s.toMem m false a k.pages) (pos : 0 < k.pages)
    (known : ∀ d, k = .small d → d ∈ table descs) (hptr : Kind.ptr k < 2 ^ 32) (hn : n < 2 ^ 32) :
    kind a = none ∧ Shape descs m (update kind a (some k)) ∧
      Held descs (Arenas.withRam { s with toMem := m } (header m.ram a (Kind.ptr k) n))
        (update kind a (some k)) (update cnt a n) free ∧
      Touches descs kind (fun _ => False) s.ram (header m.ram a (Kind.ptr k) n) ∧
      Beyond s.toMem (Arenas.withRam { s with toMem := m } (header m.ram a (Kind.ptr k) n)).toMem := by
  obtain ⟨new, sh⟩ := Shape.add h.shape taken pos known
  obtain ⟨b, size, rfl⟩ := taken.eq
  obtain ⟨rep, touch⟩ := h.rep.newArena new sh hptr hn
  have headed : Below (s.setMap false b size) s.ram (header s.ram a (Kind.ptr k) n) :=
    Shape.header_below sh (by simp) fun x off => header_other off
  rw [setMap_ram]
  exact ⟨new, sh, ⟨h.inUse, Shape.congr sh rfl, rep⟩, touch, rfl, rfl, rfl, headed⟩

theorem Held.setCount (h : Held descs s kind cnt free) (there : kind a ≠ none) (lt : n < 2 ^ 32) :
    Held descs (s.withRam (setWord s.ram (a + 8) n)) kind (update cnt a n) free ∧
      Touches descs kind (· = .header a) s.ram (setWord s.ram (a + 8) n) ∧
      Below s.toMem s.ram (setWord s.ram (a + 8) n) := by
  obtain ⟨rep, touch⟩ := h.rep.setCount h.shape there lt
  exact ⟨h.withRam rep, touch, Shape.header_below h.shape there fun x off => setWord_other (by omega)⟩

theorem Held.run_count (h : Held descs s kind cnt free) (there : kind a ≠ none) :
    (load (a + 8)).run s = (.ok (cnt a), s) := by
  rw [← h.rep.count a there]
  rfl

theorem blocksPerArena_le (hd : d ∈ table descs) : d.blocksPerArena ≤ 4096 := by
  obtain ⟨size, -, -, fits⟩ := table_sizes hd
  have many : d.blocksPerArena ≤ d.blocksPerArena * d.blockSize :=
    Nat.le_mul_of_pos_right _ (by omega)
  omega

theorem newArena_spec (h : Held descs s kind cnt free) (hd : d ∈ table descs) :
    (∃ a s', (newArena d).run s = (.ok true, s') ∧ kind a = none ∧
      Held descs s' (update kind a (some (.small d)))
        (update cnt a d.blocksPerArena)
        (update free d (free d ++ (List.range d.blocksPerArena).map (block a d))) ∧
      Disjoint (usedPages s.toMem) (arenaPages a 1) ∧
      usedPages s'.toMem = usedPages s.toMem ∪ arenaPages a 1 ∧
      Touches descs kind (ListObj d (free d)) s.ram s'.ram ∧ Beyond s.toMem s'.toMem) ∨
    (Full s.toMem 1 ∧ (newArena d).run s = (.ok false, s)) := by
  rw [newArena]
  rcases pallocGetPage_cases {} s.toMem with ⟨a, m, taken, run⟩ | ⟨full, run⟩
  · left
    have addr := table_addr hd
    have many := blocksPerArena_le hd
    have below := h.shape.below
    have apart := s.apart
    have room := s.room
    have fits := s.fits
    simp only [Mem.pool, pgsize, pgbits] at below apart room fits
    obtain ⟨new, sh, held, touch, beyond⟩ := h.newHeader (k := .small d) (n := d.blocksPerArena)
      taken Nat.one_pos (fun d' e => by cases e; exact hd) (by simp only [Kind.ptr]; omega)
      (by omega)
    obtain ⟨ram, push, held', touch', below'⟩ := forBlocks_push d.blocksPerArena held
      (update_self ..) (Nat.le_of_eq (Nat.zero_add _))
      fun j _ lt => block_new new sh h.rep hd (by omega)
    rw [← List.range_eq_range'] at held' touch'
    refine ⟨a, _, ?_, new, held', (Taken.pages taken).1,
      (usedPages_withRam _).trans ((usedPages_withRam _).trans (Taken.pages taken).2),
      (touch.mono fun _ => False.elim).trans (touches_old new sh touch'),
      beyond.trans (Below.beyond below')⟩
    rw [run_bind_ok (run_palloc run)]
    exact run_bind_ok push _
  · right
    rw [run_bind_ok (run_palloc run)]
    exact ⟨fun page has => ⟨page, span_one.mpr rfl, full page (has page (span_one.mpr rfl))⟩, rfl⟩

theorem takeBlock_spec {rest : List Nat} (h : Held descs s kind cnt free)
    (hk : kind a = some (.small d)) (lt : i < d.blocksPerArena)
    (split : free d = block a d i :: rest) (pos : 0 < cnt a) (bound : cnt a < 2 ^ 32) :
    Leaves descs kind s (takeBlock d) (block a d i) (update cnt a (cnt a - 1))
      (update free d rest) fun o => ListObj d (free d) o ∨ o = .header a := by
  have there : kind a ≠ none := by simp [hk]
  obtain ⟨ram, pop, held, touch, below⟩ := listPopFront_spec h (h.shape.known a d hk) split
  obtain ⟨counted, touch', below'⟩ := held.setCount (n := cnt a - 1) there (by omega)
  refine ⟨_, ?_, counted, ?_, below.trans below'⟩
  · have less : (BitVec.ofNat 32 (cnt a) - 1).toNat = cnt a - 1 := by
      have one : (1 : BitVec 32).toNat = 1 := rfl
      simp only [BitVec.toNat_sub, BitVec.toNat_ofNat, one]
      omega
    rw [takeBlock, run_bind_ok pop, run_bind_ok (blockToArena_small held hk lt)]
    simp only
    rw [run_bind_ok (held.run_count there), less]
    rfl
  · exact (touch.mono fun _ => .inl).trans (touch'.mono fun _ => .inr)

theorem bigBlock_pages {size : BitVec 32} (lt : size.toNat < 2 ^ 31) :
    ((size + BitVec.ofNat 32 sizeofArena + BitVec.ofNat 32 pgsize - 1) /
      BitVec.ofNat 32 pgsize).toNat = (size.toNat + 4107) / 4096 := by
  have one : (1 : BitVec 32).toNat = 1 := rfl
  have page : 2 ^ 12 % 2 ^ 32 = 4096 := rfl
  simp only [BitVec.toNat_udiv, BitVec.toNat_sub, BitVec.toNat_add, BitVec.toNat_ofNat, one,
    sizeofArena, pgsize, pgbits, page]
  omega

theorem bigBlock_spec {size : BitVec 32} (h : Held descs s kind cnt free)
    (lt : size.toNat < 2 ^ 31) :
    (∃ a s', (bigBlock size).run s = (.ok (some (a + sizeofArena)), s') ∧ kind a = none ∧
      Held descs s' (update kind a (some (.big ((size.toNat + 4107) / 4096))))
        (update cnt a ((size.toNat + 4107) / 4096)) free ∧
      Disjoint (usedPages s.toMem) (arenaPages a ((size.toNat + 4107) / 4096)) ∧
      usedPages s'.toMem = usedPages s.toMem ∪ arenaPages a ((size.toNat + 4107) / 4096) ∧
      Touches descs kind (fun _ => False) s.ram s'.ram ∧ Beyond s.toMem s'.toMem) ∨
    (Full s.toMem ((size.toNat + 4107) / 4096) ∧ (bigBlock size).run s = (.ok none, s)) := by
  have pages := bigBlock_pages lt
  generalize hk : (size.toNat + 4107) / 4096 = k at *
  have pos : 0 < k := by omega
  rw [bigBlock]
  simp only [pages]
  rcases pallocGetMultiple_cases {} pos s.toMem with ⟨a, m, taken, run⟩ | ⟨full, run⟩
  · left
    obtain ⟨new, -, held, touch, beyond⟩ := h.newHeader (k := .big k) (n := k) taken pos
      (fun d' e => by cases e) (Nat.two_pow_pos 32) (by omega)
    refine ⟨a, _, ?_, new, held, (Taken.pages taken).1,
      (usedPages_withRam _).trans (Taken.pages taken).2, touch, beyond⟩
    rw [run_bind_ok (run_palloc run)]
    rfl
  · right
    rw [run_bind_ok (run_palloc run)]
    exact ⟨full, rfl⟩

theorem Held.write {o : Obj} (h : Held descs s kind cnt free) (inside : o.In descs kind)
    (header : ∀ a, o ≠ .header a) (ends : ∀ d, o ≠ .desc d)
    (off : ∀ a d i, o = .block a d i → block a d i ∉ free d)
    (same : ∀ x, x < o.low ∨ o.high ≤ x → ram x = s.ram x) :
    Held descs (s.withRam ram) kind cnt free ∧ Touches descs kind (· = o) s.ram ram := by
  have touch := h.shape.touches inside same
  refine ⟨h.withRam (h.rep.frame touch (fun a e => header a e.symm) (fun d e => ends d e.symm) ?_),
    touch⟩
  intro a d i e
  exact off a d i e.symm

theorem fill_other {byte : UInt8} {x : Nat} (off : x < a ∨ a + n ≤ x) :
    splice ram a (List.replicate n byte) x = ram x :=
  splice_off _ _ (by rwa [List.length_replicate])

theorem release_spec {k : Kind} (h : Held descs s kind cnt free) (ha : kind a = some k)
    (gone : ∀ d i, kind a = some (.small d) → i < d.blocksPerArena → block a d i ∉ free d) :
    ∃ s', (palloc (pallocFreeMultiple (some a) k.pages)).run s = (.ok (), s') ∧
    Held descs s' (update kind a none) cnt free ∧
    usedPages s'.toMem = usedPages s.toMem \ arenaPages a k.pages ∧
    Touches descs (update kind a none) (fun _ => False) s.ram s'.ram ∧ Beyond s.toMem s'.toMem := by
  obtain ⟨m, freed, run⟩ := pallocFreeMultiple_spec (h.shape.pos a k ha)
    (fun q => h.shape.used a k q ha)
  have same : m.ram = s.ram := by
    obtain ⟨b, size, rfl⟩ := freed.eq
    exact setMap_ram
  have sh := Shape.drop h.shape ha freed
  have bytes : ∀ x, x < a ∨ a + 4096 * k.pages ≤ x →
      (m.store a (List.replicate (pgsize * k.pages) 0xcc)).ram x = s.ram x := fun x off => by
    rw [Mem.store, same]
    exact fill_other off
  obtain ⟨rep, touch⟩ := h.rep.dropArena h.shape ha gone bytes
  have beyond : Beyond s.toMem (m.store a (List.replicate (pgsize * k.pages) 0xcc)) := by
    have kept : Below s.toMem s.ram (m.store a (List.replicate (pgsize * k.pages) 0xcc)).ram :=
      fun x le => bytes x (.inr ((h.shape.pages_le ha).trans le))
    obtain ⟨b, size, rfl⟩ := freed.eq
    exact ⟨rfl, rfl, rfl, kept⟩
  refine ⟨_, run_palloc run, ⟨h.inUse, Shape.congr sh (store_pool ..), rep⟩, ?_, touch, beyond⟩
  rw [usedPages_store]
  ext c
  rw [Set.mem_sdiff, mem_usedPages, mem_usedPages, freed.used_iff]
  rfl

section FreeBlock

variable (h : Held descs s kind cnt free) (hk : kind a = some (.small d))
  (lt : i < d.blocksPerArena) (off : block a d i ∉ free d)
include h hk lt off

theorem putBack_spec (bound : cnt a + 1 < 2 ^ 32) :
    ∃ ram, Held descs (s.withRam ram) kind (update cnt a (cnt a + 1))
        (update free d (block a d i :: free d)) ∧
      Touches descs kind (fun o => ListObj d (block a d i :: free d) o ∨ o = .header a) s.ram ram ∧
      Below s.toMem s.ram ram ∧
      (freeBlock (block a d i) a d).run s = (if d.blocksPerArena ≤ cnt a + 1 then (do
        assert (cnt a + 1 = d.blocksPerArena)
        forBlocks a listRemove d.blocksPerArena 0
        palloc (pallocFreePage (some a)) : Malloc Unit) else pure ()).run (s.withRam ram) := by
  have there : kind a ≠ none := by simp [hk]
  have inside : (Obj.block a d i).In descs kind := ⟨hk, lt⟩
  have bytes : ∀ x, x < block a d i ∨ block a d i + d.blockSize ≤ x →
      splice s.ram (block a d i) (List.replicate d.blockSize 0xcc) x = s.ram x :=
    fun x apart => fill_other apart
  obtain ⟨wiped, wipe⟩ := h.write inside (fun _ => nofun) (fun _ => nofun)
    (fun a' d' i' e => by cases e; exact off) bytes
  obtain ⟨ram, push, held, touch, below⟩ := listPushFront_spec wiped (h.shape.known a d hk) hk lt off
  obtain ⟨counted, touch', below'⟩ := held.setCount there bound
  refine ⟨_, counted, ?_, (h.shape.writes_below inside bytes).trans (below.trans below'), ?_⟩
  · refine .trans (.trans (wipe.mono fun o e => ?_) (touch.mono fun _ => .inl))
      (touch'.mono fun _ => .inr)
    exact .inl (.inr ⟨a, i, e, List.mem_cons_self⟩)
  have more : (BitVec.ofNat 32 (cnt a) + 1).toNat = cnt a + 1 := by
    bv_omega
  rw [freeBlock, run_bind_ok (rfl : (fill (block a d i) d.blockSize 0xcc).run s = _),
    run_bind_ok push]
  refine (run_bind_ok (held.run_count there) _).trans ?_
  simp only [more]
  rfl

theorem freeBlock_last (full : cnt a + 1 = d.blocksPerArena)
    (rest : ∀ j < d.blocksPerArena, j ≠ i → block a d j ∈ free d) :
    ∃ s', (freeBlock (block a d i) a d).run s = (.ok (), s') ∧ Held descs s' (update kind a none)
    (update cnt a (cnt a + 1))
    (update free d ((free d).filter (· ∉ (List.range d.blocksPerArena).map (block a d)))) ∧
    usedPages s'.toMem = usedPages s.toMem \ arenaPages a 1 ∧ Touches descs (update kind a none)
    (ListObj d (free d)) s.ram s'.ram ∧ Beyond s.toMem s'.toMem := by
  have many := blocksPerArena_le (h.shape.known a d hk)
  obtain ⟨ram, held, touch, below, run⟩ := putBack_spec h hk lt off (by omega)
  have all : ∀ j, 0 ≤ j → j < 0 + d.blocksPerArena →
      block a d j ∈ update free d (block a d i :: free d) d := by
    intro j _ less
    rw [update_self, List.mem_cons]
    by_cases same : j = i
    · exact .inl (by rw [same])
    · exact .inr (rest j (by omega) same)
  obtain ⟨ram', remove, held', touch', below'⟩ := forBlocks_remove d.blocksPerArena held hk
    (Nat.le_of_eq (Nat.zero_add _)) all
  rw [← List.range_eq_range', update_idem, update_self,
    List.filter_cons_of_neg (by simpa using ⟨i, lt, rfl⟩)] at held'
  obtain ⟨s', free', held'', pages, touch'', beyond⟩ := release_spec held' hk fun d' j hk' less mem => by
    rw [hk] at hk'
    cases hk'
    rw [update_self] at mem
    have out := of_decide_eq_true (List.mem_filter.mp mem).2
    exact out (List.mem_map.mpr ⟨j, List.mem_range.mpr less, rfl⟩)
  have listed : Beyond s.toMem (s.withRam ram').toMem := Below.beyond (below.trans below')
  refine ⟨s', ?_, held'', pages, ?_, listed.trans beyond⟩
  · rw [run, if_pos (Nat.le_of_eq full.symm), run_bind_ok (run_assert full _), run_bind_ok remove]
    exact free'
  intro o inside fresh
  obtain ⟨old, ne⟩ := In.of_drop inside
  have outside : ¬(ListObj d (block a d i :: free d) o ∨ o = .header a) := by
    rintro ((ends | ⟨a', j, rfl, mem⟩) | rfl)
    · exact fresh (.inl ends)
    · rcases List.mem_cons.mp mem with same | mem
      · have place := Shape.block_unique h.shape old.1 old.2 hk lt same
        exact ne (congrArg some place.1)
      · exact fresh (.inr ⟨a', j, rfl, mem⟩)
    · exact ne rfl
  have before := touch o old outside
  have middle := touch' o old fun there => outside (.inl (by
    rwa [update_self] at there))
  have after := touch'' o inside id
  exact fun x low high => (after x low high).trans ((middle x low high).trans (before x low high))

end FreeBlock

end Pintos.HeapCalls
