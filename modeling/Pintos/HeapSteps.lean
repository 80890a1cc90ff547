import Pintos.HeapLayout

/-! How the arenas, their counts and the free lists lie in memory, and what the functions of
the allocator do to them. -/

namespace Pintos.HeapSteps
open ByteStore Links Stoppable Vaddr Accounts Heap HeapLayout Function
open Palloc hiding update
open List (forall_mem_cons mem_append mem_cons mem_singleton nodup_append)

/-- Memory shows the arenas of `kind`, their counts and the free lists. -/
structure Rep (descs : Nat) (kind : Nat → Option Kind) (cnt : Nat → Nat) (free : Desc → List Nat)
    (ram : Nat → UInt8) : Prop where
  magic : ∀ a, kind a ≠ none → word ram a = arenaMagic
  small : ∀ a d, kind a = some (.small d) → word ram (a + 4) = d.addr
  big : ∀ a n, kind a = some (.big n) → word ram (a + 4) = 0
  count : ∀ a, kind a ≠ none → word ram (a + 8) = cnt a
  list : ∀ d ∈ table descs, Seg ram d.head (free d) d.tail
  elems : ∀ d ∈ table descs, ∀ b ∈ free d,
    ∃ a i, kind a = some (.small d) ∧ i < d.blocksPerArena ∧ b = block a d i
  nodup : ∀ d ∈ table descs, (free d).Nodup

variable {descs : Nat} {d : Desc} {a b e i n : Nat} {kind : Nat → Option Kind} {cnt : Nat → Nat}
  {free : Desc → List Nat} {ram ram' : Nat → UInt8} {m : Mem} {W : Obj → Prop} {o : Obj}

theorem word_agree (h : Agree ram ram' o) (low : o.low ≤ a) (high : a + 4 ≤ o.high) :
    word ram' a = word ram a :=
  word_congr fun x le lt => h x (by omega) (by omega)

def Kind.ptr : Kind → Nat
  | .small d => d.addr
  | .big _ => 0
variable {k : Kind} {F : List Nat} {x : Nat} {m' : Mem}

theorem added {a' : Nat} {k' : Kind} (h : update kind a (some k) a' = some k') :
    a' = a ∧ k' = k ∨ a' ≠ a ∧ kind a' = some k' := by
  rw [update_apply] at h
  split_ifs at h with same
  · exact .inl ⟨same, (Option.some.inj h).symm⟩
  · exact .inr ⟨same, h⟩

theorem dropped {a' : Nat} (h : update kind a none a' = some k) : a' ≠ a ∧ kind a' = some k := by
  rw [update_apply] at h
  split_ifs at h with same
  exact ⟨same, h⟩

/-- The header of an arena of kind `k`. -/
def Heads (ram : Nat → UInt8) (a : Nat) (k : Kind) (n : Nat) : Prop :=
  word ram a = arenaMagic ∧ word ram (a + 4) = Kind.ptr k ∧ word ram (a + 8) = n

theorem Heads.congr (h : Heads ram a k n) (same : Agree ram ram' (.header a)) :
    Heads ram' a k n := by
  refine ⟨(word_agree same ?_ ?_).trans h.1, (word_agree same ?_ ?_).trans h.2.1,
    (word_agree same ?_ ?_).trans h.2.2⟩ <;> simp only [Obj.low, Obj.high, sizeofArena] <;> omega

theorem Rep.heads (rep : Rep descs kind cnt free ram) (ha : kind a = some k) :
    Heads ram a k (cnt a) := by
  have some : kind a ≠ none := by simp [ha]
  refine ⟨rep.magic a some, ?_, rep.count a some⟩
  cases k with
  | small d => exact rep.small a d ha
  | big n => exact rep.big a n ha

theorem Rep.of_heads (heads : ∀ a k, kind a = some k → Heads ram a k (cnt a))
    (list : ∀ d ∈ table descs, Seg ram d.head (free d) d.tail)
    (elems : ∀ d ∈ table descs, ∀ b ∈ free d,
      ∃ a i, kind a = some (.small d) ∧ i < d.blocksPerArena ∧ b = block a d i)
    (nodup : ∀ d ∈ table descs, (free d).Nodup) : Rep descs kind cnt free ram := by
  have known : ∀ a, kind a ≠ none → ∃ k, Heads ram a k (cnt a) := fun a ha => by
    obtain ⟨k, hk⟩ := Option.ne_none_iff_exists'.mp ha
    exact ⟨k, heads a k hk⟩
  refine ⟨fun a ha => ?_, fun a d ha => (heads a _ ha).2.1, fun a n ha => (heads a _ ha).2.1,
    fun a ha => ?_, list, elems, nodup⟩
  · obtain ⟨k, here⟩ := known a ha
    exact here.1
  · obtain ⟨k, here⟩ := known a ha
    exact here.2.2

theorem Rep.list_agree (rep : Rep descs kind cnt free ram) (hd : d ∈ table descs)
    (ends : Agree ram ram' (.desc d))
    (blocks : ∀ a i, kind a = some (.small d) → i < d.blocksPerArena → block a d i ∈ free d →
      Agree ram ram' (.block a d i)) : Seg ram' d.head (free d) d.tail := by
  have size := (table_sizes hd).1
  have inner : ∀ e ∈ free d, next ram' e = next ram e ∧ prev ram' e = prev ram e := by
    intro e mem
    obtain ⟨a, i, hk, lt, rfl⟩ := rep.elems d hd e mem
    have same := blocks a i hk lt mem
    refine ⟨word_agree same ?_ ?_, word_agree same ?_ ?_⟩ <;>
      simp only [Obj.low, Obj.high] <;> omega
  refine (rep.list d hd).congr (fun e mem => ?_) fun e mem => ?_
  · rcases mem_cons.mp mem with rfl | mem
    · exact word_agree ends (by simp only [Obj.low, Desc.head]; omega)
        (by simp only [Obj.high, Desc.head, sizeofDesc]; omega)
    · exact (inner e mem).1
  rcases mem_append.mp mem with mem | mem
  · exact (inner e mem).2
  · rw [mem_singleton] at mem
    subst mem
    exact word_agree ends (by simp only [Obj.low, Desc.tail]; omega)
      (by simp only [Obj.high, Desc.tail, sizeofDesc]; omega)

/-- The ends of the free list of `d` and its blocks in `F`. -/
def ListObj (d : Desc) (F : List Nat) (o : Obj) : Prop :=
  o = .desc d ∨ ∃ a i, o = .block a d i ∧ block a d i ∈ F

theorem ListObj.mono {F' : List Nat} (sub : ∀ x ∈ F, x ∈ F') (h : ListObj d F o) : ListObj d F' o :=
  h.imp id fun ⟨a, i, e, mem⟩ => ⟨a, i, e, sub _ mem⟩

theorem Rep.relist (rep : Rep descs kind cnt free ram) {fs : List Nat}
    (touch : Touches descs kind (ListObj d F) ram ram') (seg : Seg ram' d.head fs d.tail)
    (elems : ∀ b ∈ fs, ∃ a i, kind a = some (.small d) ∧ i < d.blocksPerArena ∧ b = block a d i)
    (nodup : fs.Nodup) : Rep descs kind cnt (update free d fs) ram' := by
  refine .of_heads (fun a k ha => (rep.heads ha).congr (touch _ ?_ ?_)) (fun d' hd' => ?_)
    (fun d' hd' => ?_) fun d' hd' => ?_
  · simp [Obj.In, ha]
  · rintro (same | ⟨_, _, same, -⟩) <;> cases same
  · by_cases same : d' = d
    · subst same
      rw [update_self]
      exact seg
    rw [update_of_ne same]
    refine rep.list_agree hd' (touch _ hd' ?_) fun a i hk lt _ => touch _ ⟨hk, lt⟩ ?_
    · rintro (same' | ⟨_, _, same', -⟩)
      · cases same'; exact same rfl
      · cases same'
    · rintro (same' | ⟨_, _, same', -⟩)
      · cases same'
      · cases same'; exact same rfl
  · by_cases same : d' = d
    · subst same
      rw [update_self]
      exact elems
    · rw [update_of_ne same]
      exact rep.elems d' hd'
  · by_cases same : d' = d
    · subst same
      rw [update_self]
      exact nodup
    · rw [update_of_ne same]
      exact rep.nodup d' hd'

section

variable (sh : Shape descs m kind) (hd : d ∈ table descs)
include sh hd

theorem Shape.touches_links (ys : List Nat)
    (elems : ∀ y ∈ ys, y = d.head ∨ y = d.tail ∨ ∃ a i, kind a = some (.small d) ∧
      i < d.blocksPerArena ∧ y = block a d i ∧ y ∈ F)
    (same : ∀ x, (∀ y ∈ ys, x < y ∨ y + 8 ≤ x) → ram' x = ram x) :
    Touches descs kind (ListObj d F) ram ram' := by
  intro o ho off x low high
  have size := (table_sizes hd).1
  have ends : (Obj.desc d).In descs kind := hd
  refine same x fun y mem => ?_
  rcases elems y mem with rfl | rfl | ⟨a, i, hk, lt, rfl, mem'⟩
  · have apart : o.high ≤ d.addr ∨ d.addr + 48 ≤ o.low :=
      sh.disjoint ho ends fun e => off (.inl e)
    simp only [Desc.head]
    omega
  · have apart : o.high ≤ d.addr ∨ d.addr + 48 ≤ o.low :=
      sh.disjoint ho ends fun e => off (.inl e)
    simp only [Desc.tail]
    omega
  · have inside : (Obj.block a d i).In descs kind := ⟨hk, lt⟩
    have apart : o.high ≤ block a d i ∨ block a d i + d.blockSize ≤ o.low :=
      sh.disjoint ho inside fun e => off (.inr ⟨a, i, e, mem'⟩)
    omega

theorem Shape.links_below (ys : List Nat) (elems : ∀ y ∈ ys, y ∈ Elem kind d)
    (same : ∀ x, (∀ y ∈ ys, x < y ∨ y + 8 ≤ x) → ram' x = ram x) : Below m ram ram' :=
  fun x le => same x fun y mem => .inr ((sh.elem_le hd (elems y mem)).trans le)

theorem Shape.head_ne_block (hk : kind a = some (.small d)) (lt : i < d.blocksPerArena) :
    block a d i ≠ d.head ∧ block a d i ≠ d.tail := by
  have low := sh.desc_low (o := .block a d i) hd ⟨hk, lt⟩ rfl
  simp only [Obj.low, sizeofDesc, Desc.head, Desc.tail] at low ⊢
  omega

end

section

variable (rep : Rep descs kind cnt free ram)
include rep

theorem Rep.chain_elem (hd : d ∈ table descs) (mem : x ∈ d.head :: free d ++ [d.tail]) :
    x ∈ Elem kind d := by
  rcases mem_append.mp mem with mem | mem
  · rcases mem_cons.mp mem with rfl | mem
    · exact .inl rfl
    · exact .inr (.inr (rep.elems d hd x mem))
  · exact .inr (.inl (mem_singleton.mp mem))

theorem Rep.chain_nodup (sh : Shape descs m kind) (hd : d ∈ table descs) :
    (d.head :: free d ++ [d.tail]).Nodup := by
  have off : ∀ b ∈ free d, b ≠ d.head ∧ b ≠ d.tail := fun b mem => by
    obtain ⟨a, i, hk, lt, rfl⟩ := rep.elems d hd b mem
    exact Shape.head_ne_block sh hd hk lt
  have ends : d.head ≠ d.tail := by simp [Desc.head, Desc.tail]
  rw [List.cons_append, List.nodup_cons, nodup_append]
  refine ⟨?_, rep.nodup d hd, List.nodup_singleton _, ?_⟩
  · simp only [mem_append, mem_singleton, not_or]
    exact ⟨fun mem => (off _ mem).1 rfl, ends⟩
  · intro b mem t ht
    rw [mem_singleton.mp ht]
    exact (off b mem).2

omit rep in
theorem Shape.elem_pos (sh : Shape descs m kind) (hd : d ∈ table descs) (h : x ∈ Elem kind d) :
    x ≠ 0 := by
  have above := sh.above
  have base : 0 < physBase.toNat := by decide
  have addr := table_addr hd
  rcases h with rfl | rfl | ⟨a, i, hk, lt, rfl⟩
  · simp only [Desc.head]
    omega
  · simp only [Desc.tail]
    omega
  · have page := sh.page hk
    simp only [block]
    omega

theorem Rep.chain_obj (hd : d ∈ table descs) (sub : ∀ x ∈ free d, x ∈ F) {y : Nat}
    (mem : y ∈ d.head :: free d ++ [d.tail]) : y = d.head ∨ y = d.tail ∨
    ∃ a i, kind a = some (.small d) ∧ i < d.blocksPerArena ∧ y = block a d i ∧ y ∈ F := by
  rcases mem_append.mp mem with mem | mem
  · rcases mem_cons.mp mem with rfl | mem
    · exact .inl rfl
    · obtain ⟨a, i, hk, lt, e⟩ := rep.elems d hd y mem
      exact .inr (.inr ⟨a, i, hk, lt, e, sub y mem⟩)
  · exact .inr (.inl (mem_singleton.mp mem))

theorem Rep.insert_elems (hd : d ∈ table descs) (hk : kind a = some (.small d))
    (lt : i < d.blocksPerArena) : ∀ b ∈ block a d i :: free d, ∃ a i, kind a = some (.small d) ∧
    i < d.blocksPerArena ∧ b = block a d i := by
  simp only [forall_mem_cons]
  exact ⟨⟨a, i, hk, lt, rfl⟩, rep.elems d hd⟩

end

theorem Shape.fresh_chain (sh : Shape descs m kind) (hd : d ∈ table descs)
    (hk : kind a = some (.small d)) (lt : i < d.blocksPerArena)
    (fresh : block a d i ∉ free d) : block a d i ∉ d.head :: free d ++ [d.tail] := by
  have off := Shape.head_ne_block sh hd hk lt
  simp only [List.cons_append, mem_cons, mem_append, List.not_mem_nil, or_false, not_or]
  exact ⟨off.1, fresh, off.2⟩

section Lists

variable (rep : Rep descs kind cnt free ram) (sh : Shape descs m kind) (hd : d ∈ table descs)
include rep sh hd

section

variable (hk : kind a = some (.small d)) (lt : i < d.blocksPerArena) (fresh : block a d i ∉ free d)
include hk lt fresh

theorem insert_touches (hb : b ∈ d.head :: free d ++ [d.tail])
    (hp : prev ram b ∈ d.head :: free d ++ [d.tail]) :
    Touches descs kind (ListObj d (block a d i :: free d)) ram (insertBefore ram b (block a d i)) ∧
    Below m ram (insertBefore ram b (block a d i)) := by
  have he : block a d i ∈ Elem kind d := .inr (.inr ⟨a, i, hk, lt, rfl⟩)
  have eb : block a d i ≠ b := fun same => Shape.fresh_chain sh hd hk lt fresh (same ▸ hb)
  have sub : ∀ x ∈ free d, x ∈ block a d i :: free d := fun x mem => List.mem_cons_of_mem _ mem
  have same : ∀ x, (∀ y ∈ [block a d i, b, prev ram b], x < y ∨ y + 8 ≤ x) →
      insertBefore ram b (block a d i) x = ram x := fun x apart =>
    insert_other (sh.separate hd) he (rep.chain_elem hd hb) eb fun y h => apart y (by simpa using h)
  refine ⟨Shape.touches_links sh hd _ ?_ same, Shape.links_below sh hd _ ?_ same⟩
  · simp only [forall_mem_cons]
    exact ⟨.inr (.inr ⟨a, i, hk, lt, rfl, List.mem_cons_self⟩), rep.chain_obj hd sub hb,
      rep.chain_obj hd sub hp, by simp⟩
  · simp only [forall_mem_cons]
    exact ⟨he, rep.chain_elem hd hb, rep.chain_elem hd hp, by simp⟩

theorem Rep.pushFront :
    Rep descs kind cnt (update free d (block a d i :: free d))
      (insertBefore ram (next ram d.head) (block a d i)) ∧
    Touches descs kind (ListObj d (block a d i :: free d)) ram
      (insertBefore ram (next ram d.head) (block a d i)) ∧
    Below m ram (insertBefore ram (next ram d.head) (block a d i)) := by
  have seg := rep.list d hd
  have he : block a d i ∈ Elem kind d := .inr (.inr ⟨a, i, hk, lt, rfl⟩)
  have touch := insert_touches rep sh hd hk lt fresh
    (List.mem_cons_of_mem _ seg.next_mem) (by rw [seg.prev_next]; exact List.mem_cons_self)
  refine ⟨rep.relist touch.1 ?_ (rep.insert_elems hd hk lt) ?_, touch⟩
  · exact seg.pushFront (sh.separate hd) he (fun x mem => rep.chain_elem hd mem)
      (Shape.fresh_chain sh hd hk lt fresh) (rep.chain_nodup sh hd)
  · exact List.nodup_cons.mpr ⟨fresh, rep.nodup d hd⟩

theorem Rep.pushBack :
    Rep descs kind cnt (update free d (free d ++ [block a d i]))
      (insertBefore ram d.tail (block a d i)) ∧
    Touches descs kind (ListObj d (block a d i :: free d)) ram
      (insertBefore ram d.tail (block a d i)) ∧
    Below m ram (insertBefore ram d.tail (block a d i)) := by
  have seg := rep.list d hd
  have he : block a d i ∈ Elem kind d := .inr (.inr ⟨a, i, hk, lt, rfl⟩)
  have touch := insert_touches rep sh hd hk lt fresh (by simp) (List.mem_append_left _ seg.prev_mem)
  refine ⟨rep.relist touch.1 ?_ (fun b mem => rep.insert_elems hd hk lt b ?_) ?_, touch⟩
  · exact seg.insert (sh.separate hd) he (fun x mem => rep.chain_elem hd mem)
      (Shape.fresh_chain sh hd hk lt fresh) (rep.chain_nodup sh hd)
  · simpa [or_comm] using mem
  · rw [nodup_append]
    refine ⟨rep.nodup d hd, List.nodup_singleton _, fun x mem y here => ?_⟩
    rw [mem_singleton.mp here]
    exact fun same => fresh (same ▸ mem)

end

theorem Rep.remove {xs ys : List Nat} (split : free d = xs ++ e :: ys) :
    Rep descs kind cnt (update free d (xs ++ ys)) (Links.remove ram e) ∧
    Touches descs kind (ListObj d (free d)) ram (Links.remove ram e) ∧
    Below m ram (Links.remove ram e) := by
  have seg := rep.list d hd
  have elem := fun x mem => rep.chain_elem (x := x) hd mem
  have nodup := rep.chain_nodup sh hd
  have here : e ∈ free d := by simp [split]
  have he : e ∈ Elem kind d := elem e (by simp [here])
  rw [split] at seg nodup
  obtain ⟨left, right⟩ := seg_append.mp seg
  have hp : prev ram e ∈ d.head :: free d ++ [d.tail] := by
    have mem := left.prev_mem
    rw [split]
    simp at mem ⊢
    tauto
  have hn : next ram e ∈ d.head :: free d ++ [d.tail] := by
    have mem := right.next_mem
    rw [split]
    simp at mem ⊢
    tauto
  have pe : prev ram e ≠ e := fun same => by
    have order : ((d.head :: xs) ++ (e :: (ys ++ [d.tail]))).Nodup := by simpa using nodup
    exact (nodup_append.mp order).2.2 _ left.prev_mem e (by simp) same
  have same : ∀ x, (∀ y ∈ [prev ram e, next ram e], x < y ∨ y + 8 ≤ x) →
      Links.remove ram e x = ram x := fun x apart =>
    remove_other (sh.separate hd) he (elem _ hp) pe fun y h => apart y (by simpa using h)
  have touch : Touches descs kind (ListObj d (free d)) ram (Links.remove ram e) := by
    refine Shape.touches_links sh hd _ ?_ same
    simp only [forall_mem_cons]
    exact ⟨rep.chain_obj hd (fun _ => id) hp, rep.chain_obj hd (fun _ => id) hn, by simp⟩
  have below : Below m ram (Links.remove ram e) := by
    refine Shape.links_below sh hd _ ?_ same
    simp only [forall_mem_cons]
    exact ⟨elem _ hp, elem _ hn, by simp⟩
  have sub : ∀ b ∈ xs ++ ys, b ∈ free d := fun b mem => by
    rw [split]
    simp at mem ⊢
    tauto
  refine ⟨rep.relist touch ?_ (fun b mem => rep.elems d hd b (sub b mem)) ?_, touch, below⟩
  · exact seg.remove (sh.separate hd) (fun x mem => elem x (by rw [split]; exact mem)) nodup
  · have whole := rep.nodup d hd
    rw [split] at whole
    exact whole.sublist (by simp)

end Lists

theorem Rep.frame (rep : Rep descs kind cnt free ram) (touch : Touches descs kind W ram ram')
    (headers : ∀ a, ¬W (.header a)) (ends : ∀ d, ¬W (.desc d))
    (blocks : ∀ a d i, W (.block a d i) → block a d i ∉ free d) : Rep descs kind cnt free ram' := by
  refine .of_heads (fun a k ha => (rep.heads ha).congr (touch _ ?_ (headers a))) (fun d hd => ?_)
    rep.elems rep.nodup
  · simp [Obj.In, ha]
  · exact rep.list_agree hd (touch _ hd (ends d)) fun a i hk lt mem =>
      touch _ ⟨hk, lt⟩ fun hw => blocks a d i hw mem

theorem Rep.setCount (rep : Rep descs kind cnt free ram) (sh : Shape descs m kind)
    (ha : kind a ≠ none) (lt : n < 2 ^ 32) :
    Rep descs kind (update cnt a n) free (setWord ram (a + 8) n) ∧
    Touches descs kind (· = .header a) ram (setWord ram (a + 8) n) := by
  have inside : (Obj.header a).In descs kind := ha
  have touch : Touches descs kind (· = .header a) ram (setWord ram (a + 8) n) :=
    sh.touches inside fun x off => setWord_other (by
      simp only [Obj.low, Obj.high, sizeofArena] at off
      omega)
  refine ⟨.of_heads (fun a' k ha' => ?_) (fun d hd => ?_) rep.elems rep.nodup, touch⟩
  · have old := rep.heads ha'
    by_cases same : a' = a
    · subst same
      rw [update_self]
      exact ⟨(word_setWord_other (by omega)).trans old.1,
        (word_setWord_other (by omega)).trans old.2.1, word_setWord lt⟩
    · rw [update_of_ne same]
      refine old.congr (touch _ (by simp [Obj.In, ha']) fun e => ?_)
      cases e
      exact same rfl
  · exact rep.list_agree hd (touch _ hd (by rintro ⟨⟩)) fun a i hk lt _ =>
      touch _ ⟨hk, lt⟩ (by rintro ⟨⟩)

def header (ram : Nat → UInt8) (a ptr n : Nat) : Nat → UInt8 :=
  setWord (setWord (setWord ram a arenaMagic) (a + 4) ptr) (a + 8) n

theorem Shape.header_below (sh : Shape descs m kind) (ha : kind a ≠ none)
    (same : ∀ x, x < a ∨ a + 12 ≤ x → ram' x = ram x) : Below m ram ram' :=
  sh.writes_below (o := .header a) ha same

theorem header_other {ptr : Nat} (off : x < a ∨ a + 12 ≤ x) : header ram a ptr n x = ram x := by
  simp (disch := omega) only [header, setWord_other]

theorem header_heads (ram : Nat → UInt8) (a : Nat) (hptr : Kind.ptr k < 2 ^ 32) (hn : n < 2 ^ 32) :
    Heads (header ram a (Kind.ptr k) n) a k n := by
  refine ⟨?_, ?_, word_setWord hn⟩
  · rw [header, word_setWord_other (by omega), word_setWord_other (by omega),
      word_setWord (by decide)]
  · rw [header, word_setWord_other (by omega), word_setWord hptr]

theorem In.congr {kind' : Nat → Option Kind} (h : o.In descs kind)
    (same : ∀ a, o.arena = some a → kind' a = kind a) : o.In descs kind' := by
  cases o with
  | desc d => exact h
  | header a => exact (same a rfl).trans_ne h
  | block a d i => exact ⟨(same a rfl).trans h.1, h.2⟩
  | payload a n => exact (same a rfl).trans h

theorem In.grow (new : kind a = none) (h : o.In descs kind) :
    o.In descs (update kind a (some k)) ∧ o ≠ .header a := by
  have other : ∀ a', o.arena = some a' → a' ≠ a := by
    rintro a' e rfl
    obtain ⟨k, hk⟩ := h.arena e
    cases new.symm.trans hk
  refine ⟨In.congr h fun a' e => update_of_ne (other a' e) _ _, ?_⟩
  rintro rfl
  exact other a rfl rfl

theorem Rep.newArena (rep : Rep descs kind cnt free ram) (new : kind a = none)
    (sh : Shape descs m (update kind a (some k))) (hptr : Kind.ptr k < 2 ^ 32) (hn : n < 2 ^ 32) :
    Rep descs (update kind a (some k)) (update cnt a n) free (header ram a (Kind.ptr k) n) ∧
    Touches descs kind (fun _ => False) ram (header ram a (Kind.ptr k) n) := by
  have inside : (Obj.header a).In descs (update kind a (some k)) := by simp [Obj.In]
  have touch : Touches descs (update kind a (some k)) (· = .header a) ram
      (header ram a (Kind.ptr k) n) := sh.touches inside fun x off => header_other off
  have old : Touches descs kind (fun _ => False) ram (header ram a (Kind.ptr k) n) := by
    intro o h _
    obtain ⟨inside, ne⟩ := In.grow (k := k) new h
    exact touch o inside ne
  have kept := rep.frame old (fun _ => id) (fun _ => id) fun _ _ _ => False.elim
  refine ⟨.of_heads (fun a' k' ha' => ?_) kept.list (fun d hd b mem => ?_) kept.nodup, old⟩
  · rcases added ha' with ⟨rfl, rfl⟩ | ⟨ne, ha'⟩
    · rw [update_self]
      exact header_heads ram a' hptr hn
    · rw [update_of_ne ne]
      exact kept.heads ha'
  obtain ⟨a', i, hk, lt, e⟩ := kept.elems d hd b mem
  refine ⟨a', i, ?_, lt, e⟩
  rw [update_of_ne, hk]
  rintro rfl
  rw [new] at hk
  cases hk

theorem In.of_drop (h : o.In descs (update kind a none)) : o.In descs kind ∧ o.arena ≠ some a := by
  have other : ∀ a', o.arena = some a' → a' ≠ a := fun a' e => by
    obtain ⟨k, hk⟩ := h.arena e
    exact (dropped hk).1
  exact ⟨In.congr h fun a' e => (update_of_ne (other a' e) _ _).symm, fun e => other a e rfl⟩

theorem In.drop (h : o.In descs kind) (ne : o.arena ≠ some a) :
    o.In descs (update kind a none) := by
  refine In.congr h fun a' e => update_of_ne ?_ _ _
  rintro rfl
  exact ne e

theorem Rep.dropArena (rep : Rep descs kind cnt free ram) (sh : Shape descs m kind)
    (ha : kind a = some k)
    (gone : ∀ d i, kind a = some (.small d) → i < d.blocksPerArena → block a d i ∉ free d)
    (same : ∀ x, x < a ∨ a + 4096 * k.pages ≤ x → ram' x = ram x) :
    Rep descs (update kind a none) cnt free ram' ∧
    Touches descs (update kind a none) (fun _ => False) ram ram' := by
  have touch : Touches descs (update kind a none) (fun _ => False) ram ram' := by
    intro o h _ x low high
    obtain ⟨inside, ne⟩ := In.of_drop h
    refine same x ?_
    cases e : o.arena with
    | none =>
      have page := sh.page ha
      cases o with
      | desc d =>
        have addr := table_addr (inside : d ∈ table descs)
        simp only [Obj.low, Obj.high, sizeofDesc] at low high
        omega
      | header a' => cases e
      | block a' d i => cases e
      | payload a' n => cases e
    | some a' =>
      obtain ⟨k', hk'⟩ := inside.arena e
      have within := sh.within inside e hk'
      have ne' : a ≠ a' := fun same => ne (same ▸ e)
      rcases sh.apart ha hk' ne' with apart | apart
      · omega
      · omega
  have elems : ∀ d ∈ table descs, ∀ b ∈ free d, ∃ a' i, update kind a none a' =
      some (.small d) ∧ i < d.blocksPerArena ∧ b = block a' d i := by
    intro d hd b mem
    obtain ⟨a', i, hk, lt, rfl⟩ := rep.elems d hd b mem
    refine ⟨a', i, ?_, lt, rfl⟩
    rw [update_of_ne, hk]
    rintro rfl
    exact gone d i hk lt mem
  refine ⟨.of_heads (fun a' k' ha' => ?_) (fun d hd => ?_) elems rep.nodup, touch⟩
  · exact (rep.heads (dropped ha').2).congr (touch _ (by simp [Obj.In, ha']) id)
  · refine rep.list_agree hd (touch _ hd id) fun a' i hk lt mem => touch _ ⟨?_, lt⟩ id
    rw [update_of_ne, hk]
    rintro rfl
    exact gone d i hk lt mem

theorem Shape.congr (sh : Shape descs m kind) (same : m'.pool false = m.pool false) :
    Shape descs m' kind :=
  { sh with
    below := by rw [same]; exact sh.below
    used := by rw [same]; exact sh.used }

theorem Shape.add (sh : Shape descs m kind) (taken : Taken m m' false a k.pages)
    (pos : 0 < k.pages) (known : ∀ d, k = .small d → d ∈ table descs) :
    kind a = none ∧ Shape descs m' (update kind a (some k)) := by
  have fresh : ∀ a' k' q, kind a' = some k' → Span a' k'.pages q → ¬Span a k.pages q :=
    fun a' k' q ha' span span' => taken.fresh q span' (sh.used a' k' q ha' span)
  have new : kind a = none := by
    by_contra old
    obtain ⟨k', hk'⟩ := Option.ne_none_iff_exists'.mp old
    exact fresh a k' a hk' ⟨0, sh.pos a k' hk', by simp⟩ ⟨0, pos, by simp⟩
  have base : (m'.pool false).base = (m.pool false).base := by
    obtain ⟨b, h, rfl⟩ := taken.eq
    rfl
  refine ⟨new, sh.above, base ▸ sh.below, fun a' d h => ?_, fun a' k' h => ?_,
    fun a' k' q h span => ?_, fun a1 k1 a2 k2 q h1 h2 span1 span2 => ?_⟩
  · rcases added h with ⟨-, e⟩ | ⟨-, h⟩
    · exact known d e.symm
    · exact sh.known a' d h
  · rcases added h with ⟨-, rfl⟩ | ⟨-, h⟩
    · exact pos
    · exact sh.pos a' k' h
  · rw [taken.used]
    rcases added h with ⟨rfl, rfl⟩ | ⟨-, h⟩
    · exact .inl span
    · exact .inr (sh.used a' k' q h span)
  · rcases added h1 with ⟨rfl, rfl⟩ | ⟨-, old1⟩ <;> rcases added h2 with ⟨rfl, rfl⟩ | ⟨-, old2⟩
    · rfl
    · exact absurd span1 (fresh a2 k2 q old2 span2)
    · exact absurd span2 (fresh a1 k1 q old1 span1)
    · exact sh.once a1 k1 a2 k2 q old1 old2 span1 span2

theorem Shape.drop (sh : Shape descs m kind) (ha : kind a = some k)
    (freed : Freed m m' false a k.pages) : Shape descs m' (update kind a none) := by
  have base : (m'.pool false).base = (m.pool false).base := by
    obtain ⟨b, h, rfl⟩ := freed.eq
    rfl
  refine ⟨sh.above, base ▸ sh.below, fun a' d h => sh.known a' d (dropped h).2,
    fun a' k' h => sh.pos a' k' (dropped h).2, fun a' k' q h span => ?_,
    fun a1 k1 a2 k2 q h1 h2 => sh.once a1 k1 a2 k2 q (dropped h1).2 (dropped h2).2⟩
  obtain ⟨ne, h'⟩ := dropped h
  rw [freed.used]
  exact ⟨sh.used a' k' q h' span, fun here => ne (sh.once a' k' a k q h' ha span here)⟩

end Pintos.HeapSteps
