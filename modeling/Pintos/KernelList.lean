import Pintos.LinkedNodes
import Mathlib.Logic.Function.Basic

/-! The intrusive doubly linked lists of `lib/kernel/list.c`.  A list is a pair of
sentinel nodes; the elements between them belong to the caller.  The operations
are the source's assignments in the source's order, on pointers that may be null;
an assertion that fails or a null dereference is `none`.  `Lists` says that a
family of lists is well formed and shares no node, and each operation is shown to
change the sequences of the family as its name says. -/

namespace Pintos.KernelList
open LinkedNodes Function
open List (append_assoc append_nil mem_append mem_append_left mem_append_right mem_cons nil_append
  nodup_append nodup_cons)

variable {α : Type} [DecidableEq α]

/-- `struct list`, by the addresses of its two sentinels. -/
structure ListRef (α : Type) where
  head : α
  tail : α

def load (m : Mem α) (pointer : Option α) (side : Side) : Option (Option α) :=
  pointer.map fun node => m node side

def save (m : Mem α) (pointer : Option α) (side : Side) (value : Option α) : Option (Mem α) :=
  pointer.map fun node => store m node side value

omit [DecidableEq α] in
@[simp] theorem load_some (m : Mem α) (node : α) (side : Side) :
    load m (some node) side = some (m node side) := rfl

@[simp] theorem save_some (m : Mem α) (node : α) (side : Side) (value : Option α) :
    save m (some node) side value = some (store m node side value) := rfl

def isHead (m : Mem α) : Option α → Bool
  | none => false
  | some elem => (m elem .prev).isNone && (m elem .next).isSome

def isInterior (m : Mem α) : Option α → Bool
  | none => false
  | some elem => (m elem .prev).isSome && (m elem .next).isSome

def isTail (m : Mem α) : Option α → Bool
  | none => false
  | some elem => (m elem .prev).isSome && (m elem .next).isNone

def listInit (m : Mem α) (list : ListRef α) : Mem α :=
  let m := store m list.head .prev none
  let m := store m list.head .next (some list.tail)
  let m := store m list.tail .prev (some list.head)
  store m list.tail .next none

def listBegin (m : Mem α) (list : ListRef α) : Option α :=
  m list.head .next

def listEnd (list : ListRef α) : Option α :=
  some list.tail

def listNext (m : Mem α) (elem : Option α) : Option (Option α) := do
  guard (isHead m elem || isInterior m elem)
  load m elem .next

def listPrev (m : Mem α) (elem : Option α) : Option (Option α) := do
  guard (isInterior m elem || isTail m elem)
  load m elem .prev

def listInsert (m : Mem α) (before elem : Option α) : Option (Mem α) := do
  guard (isInterior m before || isTail m before)
  guard elem.isSome
  let m ← save m elem .prev (← load m before .prev)
  let m ← save m elem .next before
  let m ← save m (← load m before .prev) .next elem
  save m before .prev elem

def listSplice (m : Mem α) (before first last : Option α) : Option (Mem α) := do
  guard (isInterior m before || isTail m before)
  if first = last then
    return m
  let last ← listPrev m last
  guard (isInterior m first)
  guard (isInterior m last)
  let m ← save m (← load m first .prev) .next (← load m last .next)
  let m ← save m (← load m last .next) .prev (← load m first .prev)
  let m ← save m first .prev (← load m before .prev)
  let m ← save m last .next before
  let m ← save m (← load m before .prev) .next first
  save m before .prev last

def listPushFront (m : Mem α) (list : ListRef α) (elem : Option α) : Option (Mem α) :=
  listInsert m (listBegin m list) elem

def listPushBack (m : Mem α) (list : ListRef α) (elem : Option α) : Option (Mem α) :=
  listInsert m (listEnd list) elem

/-- The memory after the removal, and the element that followed. -/
def listRemove (m : Mem α) (elem : Option α) : Option (Mem α × Option α) := do
  guard (isInterior m elem)
  let m ← save m (← load m elem .prev) .next (← load m elem .next)
  let m ← save m (← load m elem .next) .prev (← load m elem .prev)
  return (m, ← load m elem .next)

def listEmpty (m : Mem α) (list : ListRef α) : Bool :=
  listBegin m list == listEnd list

def listFront (m : Mem α) (list : ListRef α) : Option (Option α) := do
  guard (!listEmpty m list)
  return m list.head .next

def listBack (m : Mem α) (list : ListRef α) : Option (Option α) := do
  guard (!listEmpty m list)
  return m list.tail .prev

def listPopFront (m : Mem α) (list : ListRef α) : Option (Mem α × Option α) := do
  let front ← listFront m list
  let (m, _) ← listRemove m front
  return (m, front)

def listPopBack (m : Mem α) (list : ListRef α) : Option (Mem α × Option α) := do
  let back ← listBack m list
  let (m, _) ← listRemove m back
  return (m, back)

/-- `swap` on two pointer fields, each given by its node and side. -/
def swap (m : Mem α) (a : Option α × Side) (b : Option α × Side) : Option (Mem α) := do
  let t ← load m a.1 a.2
  let m ← save m a.1 a.2 (← load m b.1 b.2)
  save m b.1 b.2 t

/-- The walk of `list_reverse`; after the swap the next element is behind `prev`.
The fuel bounds the number of elements walked over. -/
def reverseLoop : Nat → Mem α → Option α → Option α → Option (Mem α)
  | 0, _, _, _ => none
  | fuel + 1, m, e, last =>
    if e = last then some m
    else do
      let m ← swap m (e, .prev) (e, .next)
      reverseLoop fuel m (← load m e .prev) last

def listReverse (fuel : Nat) (m : Mem α) (list : ListRef α) : Option (Mem α) :=
  if listEmpty m list then some m
  else do
    let m ← reverseLoop fuel m (listBegin m list) (listEnd list)
    let m ← swap m (some list.head, .next) (some list.tail, .prev)
    swap m (← load m (some list.head) .next, .prev) (← load m (some list.tail) .prev, .next)

variable {m : Mem α} {before first last node : α} {list : ListRef α} {xs ys zs run : List α}
  {fuel : Nat}

omit [DecidableEq α] in
theorem inserts_before {behind : α} (prev : m before .prev = some behind) :
    (isInterior m (some before) || isTail m (some before)) = true := by
  cases next : m before .next <;> simp [isInterior, isTail, prev, next]

theorem listSplice_eq {past behind ahead into : α} (differ : first ≠ past)
    (pastPrev : m past .prev = some last) (firstPrev : m first .prev = some behind)
    (lastNext : m last .next = some ahead) (firstNext : (m first .next).isSome)
    (lastPrev : (m last .prev).isSome) (place : ∃ node, m before .prev = some node)
    (prev : link m behind ahead before .prev = some into) (offFirst : first ≠ before)
    (offInto : last ≠ into) (offBehind : last ≠ behind) : listSplice m (some before) (some first)
    (some past) = some (link (link (link m behind ahead) into first) last before) := by
  obtain ⟨node, placed⟩ := place
  have front : isInterior m (some first) = true := by simp [isInterior, firstPrev, firstNext]
  have back : isInterior m (some last) = true := by simp [isInterior, lastPrev, lastNext]
  have cut : store (store m behind .next (some ahead)) ahead .prev (some behind) =
    link m behind ahead := rfl
  simp [listSplice, listPrev, inserts_before placed, inserts_before pastPrev, differ, pastPrev,
    firstPrev, lastNext, front, back, guard, store_other _ offBehind, cut, prev,
    store_other _ offFirst.symm, stores_link _ offInto]

/-- The nodes of a list that holds `xs`, sentinels included. -/
def ListRef.span (list : ListRef α) (xs : List α) : List α :=
  list.head :: (xs ++ [list.tail])

/-- The node before what follows `ys` in `list`. -/
def ListRef.behind (list : ListRef α) (ys : List α) : α :=
  ys.getLastD list.head

/-- The first node of the part `zs` that ends `list`. -/
def ListRef.ahead (list : ListRef α) (zs : List α) : α :=
  zs.headD list.tail

/-- `list` is well formed and holds the sequence `xs`. -/
structure Shows (m : Mem α) (list : ListRef α) (xs : List α) : Prop where
  nodup : (list.span xs).Nodup
  chain : Chain m (list.span xs)
  first : m list.head .prev = none
  last : m list.tail .next = none

section
omit [DecidableEq α]

theorem ListRef.front (list : ListRef α) (ys : List α) :
    ∃ front, list.head :: ys = front ++ [list.behind ys] := by
  cases ys using List.reverseRecOn with
  | nil => exact ⟨[], rfl⟩
  | append_singleton ys y => exact ⟨list.head :: ys, by simp [ListRef.behind]⟩

theorem ListRef.back (list : ListRef α) (zs : List α) :
    ∃ back, zs ++ [list.tail] = list.ahead zs :: back := by
  cases zs with
  | nil => exact ⟨[], rfl⟩
  | cons z zs => exact ⟨zs ++ [list.tail], rfl⟩

theorem ListRef.behind_mem (list : ListRef α) (ys : List α) : list.behind ys ∈ list.head :: ys := by
  obtain ⟨front, split⟩ := list.front ys
  simp [split]

theorem ListRef.ahead_mem (list : ListRef α) (zs : List α) : list.ahead zs ∈ zs ++ [list.tail] := by
  obtain ⟨back, split⟩ := list.back zs
  simp [split]

theorem ListRef.span_append (list : ListRef α) (ys zs : List α) :
    list.span (ys ++ zs) = (list.head :: ys) ++ (zs ++ [list.tail]) := by
  simp [ListRef.span]

theorem ListRef.mem_span : node ∈ list.span xs ↔ node ∈ list.span [] ∨ node ∈ xs := by
  simp only [ListRef.span, nil_append, mem_cons, mem_append, List.not_mem_nil, or_false]
  tauto

theorem ListRef.span_perm (list : ListRef α) (ys run zs : List α) :
    (list.span (ys ++ (run ++ zs))).Perm (run ++ list.span (ys ++ zs)) := by
  rw [list.span_append, list.span_append, append_assoc]
  exact List.perm_append_comm_assoc (list.head :: ys) run (zs ++ [list.tail])

theorem ListRef.behind_span (list : ListRef α) (ys zs : List α) :
    list.behind ys ∈ list.span (ys ++ zs) := by
  rw [list.span_append]
  exact mem_append_left _ (list.behind_mem ys)

theorem ListRef.ahead_span (list : ListRef α) (ys zs : List α) :
    list.ahead zs ∈ list.span (ys ++ zs) := by
  rw [list.span_append]
  exact mem_append_right _ (list.ahead_mem zs)

theorem Shows.parts (shows : Shows m list (ys ++ zs)) : Chain m (list.head :: ys) ∧
    Linked m (list.behind ys) (list.ahead zs) ∧ Chain m (zs ++ [list.tail]) := by
  obtain ⟨front, left⟩ := list.front ys
  obtain ⟨back, right⟩ := list.back zs
  have chain := shows.chain
  rw [list.span_append, left, right] at chain
  rw [left, right]
  exact chain_append.mp (by simpa using chain)

theorem Shows.prev (shows : Shows m list (ys ++ zs)) :
    m (list.ahead zs) .prev = some (list.behind ys) :=
  shows.parts.2.1.2

theorem Shows.next (shows : Shows m list (ys ++ zs)) :
    m (list.behind ys) .next = some (list.ahead zs) :=
  shows.parts.2.1.1

theorem Shows.elem {elem : α} (shows : Shows m list (ys ++ elem :: zs)) :
    m elem .prev = some (list.behind ys) ∧ m elem .next = some (list.ahead zs) ∧
      m (list.ahead zs) .prev = some elem := by
  have later : Shows m list ((ys ++ [elem]) ++ zs) := by simpa using shows
  refine ⟨shows.prev, ?_, ?_⟩
  · simpa [ListRef.behind] using later.next
  · simpa [ListRef.behind] using later.prev

theorem ListRef.apart (nodup : (list.span (ys ++ (run ++ zs))).Nodup) :
    (∀ node ∈ list.head :: ys, node ∉ run ∧ node ∉ zs ++ [list.tail]) ∧
      ∀ node ∈ run, node ∉ zs ++ [list.tail] := by
  rw [list.span_append, append_assoc] at nodup
  have outer := nodup_append.mp nodup
  have inner := nodup_append.mp outer.2.1
  constructor
  · intro node early
    constructor
    · intro member
      exact outer.2.2 node early node (mem_append_left _ member) rfl
    · intro member
      exact outer.2.2 node early node (mem_append_right _ member) rfl
  · intro node early member
    exact inner.2.2 node early node member rfl

end

omit [DecidableEq α] in
theorem ListRef.ends_off (nodup : (list.span (ys ++ (run ++ zs))).Nodup) :
    list.head ≠ list.ahead zs ∧ list.tail ≠ list.behind ys := by
  obtain ⟨early, -⟩ := ListRef.apart nodup
  constructor
  · intro same
    exact (early list.head (by simp)).2 (same ▸ list.ahead_mem zs)
  · intro same
    exact (early _ (list.behind_mem ys)).2 (same ▸ by simp)

theorem Shows.cut (shows : Shows m list (ys ++ (run ++ zs))) :
    Shows (link m (list.behind ys) (list.ahead zs)) list (ys ++ zs) ∧
      Chain (link m (list.behind ys) (list.ahead zs)) run := by
  have apart := ListRef.apart shows.nodup
  have nodup : (list.span (ys ++ zs)).Nodup := by
    refine List.Nodup.sublist ?_ shows.nodup
    simp [ListRef.span]
  have before : Chain m (list.head :: ys) := shows.parts.1
  have rest : Chain m (run ++ (zs ++ [list.tail])) := by simpa using shows.parts.2.2
  have after : Chain m (zs ++ [list.tail]) := List.IsChain.right_of_append rest
  obtain ⟨front, left⟩ := list.front ys
  obtain ⟨back, right⟩ := list.back zs
  obtain ⟨headOff, tailOff⟩ := ListRef.ends_off shows.nodup
  refine ⟨⟨nodup, ?_, ?_, ?_⟩, ?_⟩
  · rw [list.span_append, left, right] at nodup ⊢
    rw [left] at before
    rw [right] at after
    simpa using before.join after (by simpa using nodup)
  · rw [link_prev, if_neg headOff, shows.first]
  · rw [link_next, if_neg tailOff, shows.last]
  · apply Chain.link_off (List.IsChain.left_of_append rest)
    · exact (apart.1 _ (list.behind_mem ys)).1
    · intro member
      exact apart.2 _ member (list.ahead_mem zs)

theorem shows_paste {rest body : List α} (before : Chain m (list.head :: ys))
    (after : Chain m (zs ++ [list.tail])) (outer : m list.head .prev = none)
    (outerLast : m list.tail .next = none) (chain : Chain m run) (starts : run = first :: rest)
    (ends : run = body ++ [last]) (nodup : (list.span (ys ++ (run ++ zs))).Nodup) :
    Shows (link (link m (list.behind ys) first) last (list.ahead zs)) list (ys ++ (run ++ zs)) := by
  have apart := ListRef.apart nodup
  have firstIn : first ∈ run := by simp [starts]
  have lastIn : last ∈ run := by simp [ends]
  obtain ⟨front, left⟩ := list.front ys
  obtain ⟨back, right⟩ := list.back zs
  obtain ⟨headOff, tailOff⟩ := ListRef.ends_off nodup
  have headFirst : list.head ≠ first := fun same =>
    (apart.1 list.head (by simp)).1 (same ▸ firstIn)
  have tailLast : list.tail ≠ last := fun same => apart.2 last lastIn (same ▸ by simp)
  refine ⟨nodup, ?_, ?_, ?_⟩
  · rw [list.span_append, append_assoc, left, right] at nodup ⊢
    rw [left] at before
    rw [right] at after
    simpa using before.paste after chain starts ends (by simpa using nodup)
  · rw [link_prev, if_neg headOff, link_prev, if_neg headFirst, outer]
  · rw [link_next, if_neg tailLast, link_next, if_neg tailOff, outerLast]

omit [DecidableEq α] in
theorem Shows.frame {m' : Mem α} (shows : Shows m list xs)
    (same : ∀ node ∈ list.span xs, ∀ side, m' node side = m node side) : Shows m' list xs where
  nodup := shows.nodup
  chain := shows.chain.frame same
  first := by rw [same list.head (by simp [ListRef.span]), shows.first]
  last := by rw [same list.tail (by simp [ListRef.span]), shows.last]

omit [DecidableEq α] in
theorem Shows.begin (shows : Shows m list xs) : listBegin m list = some (list.ahead xs) := by
  have whole : Shows m list ([] ++ xs) := shows
  exact whole.next

theorem Shows.empty (shows : Shows m list xs) : listEmpty m list = xs.isEmpty := by
  rw [listEmpty, shows.begin, listEnd]
  cases xs with
  | nil => simp [ListRef.ahead]
  | cons x xs =>
    have nodup := shows.nodup
    have differ : x ≠ list.tail := by
      rintro rfl
      simp [ListRef.span] at nodup
    simp [ListRef.ahead, differ]

theorem listInit_other (m : Mem α) (offHead : node ≠ list.head) (offTail : node ≠ list.tail)
    (side : Side) : listInit m list node side = m node side := by
  simp only [listInit, store_other _ offHead, store_other _ offTail]

theorem shows_init (m : Mem α) (differ : list.head ≠ list.tail) :
    Shows (listInit m list) list [] where
  nodup := by simp [ListRef.span, differ]
  chain := by
    simp [ListRef.span, Chain, Linked, listInit, store_other _ differ]
  first := by simp [listInit, store_other _ differ]
  last := by simp [listInit]

omit [DecidableEq α] in
theorem Shows.listNext {elem : α} (shows : Shows m list (ys ++ elem :: zs)) :
    listNext m (some elem) = some (some (list.ahead zs)) := by
  obtain ⟨prev, next, -⟩ := shows.elem
  simp [KernelList.listNext, isInterior, prev, next, guard]

variable {ι : Type} [DecidableEq ι]

/-- Well-formed lists that share no node. -/
structure Lists (m : Mem α) (list : ι → ListRef α) (xs : ι → List α) : Prop where
  shows : ∀ i, Shows m (list i) (xs i)
  apart : ∀ i j, i ≠ j → ∀ node ∈ (list i).span (xs i), node ∉ (list j).span (xs j)

/-- A linked run of nodes that are in no list. -/
structure Loose (m : Mem α) (list : ι → ListRef α) (xs : ι → List α) (run : List α) : Prop where
  chain : Chain m run
  nodup : run.Nodup
  off : ∀ node ∈ run, ∀ i, node ∉ (list i).span (xs i)

section
variable {m m' : Mem α} {list : ι → ListRef α} {xs : ι → List α}

omit [DecidableEq α] in
theorem Lists.replace (lists : Lists m list xs) (i : ι) {new : List α}
    (shows : Shows m' (list i) new)
    (frame : ∀ j, j ≠ i → ∀ node ∈ (list j).span (xs j), ∀ side, m' node side = m node side)
    (fresh : ∀ j, j ≠ i → ∀ node ∈ (list i).span new, node ∉ (list j).span (xs j)) :
    Lists m' list (update xs i new) := by
  constructor
  · intro j
    by_cases same : j = i
    · subst same
      rwa [update_self]
    · rw [update_of_ne same]
      exact (lists.shows j).frame (frame j same)
  intro j k differ node member
  by_cases atJ : j = i
  · subst atJ
    rw [update_self] at member
    rw [update_of_ne differ.symm]
    exact fresh k differ.symm node member
  rw [update_of_ne atJ] at member
  by_cases atK : k = i
  · subst atK
    rw [update_self]
    intro other
    exact fresh j differ node other member
  · rw [update_of_ne atK]
    exact lists.apart j k differ node member

omit [DecidableEq α] [DecidableEq ι] in
theorem Lists.frame (lists : Lists m list xs)
    (same : ∀ i, ∀ node ∈ (list i).span (xs i), ∀ side, m' node side = m node side) :
    Lists m' list xs where
  shows := fun i => (lists.shows i).frame (same i)
  apart := lists.apart

omit [DecidableEq α] in
theorem Shows.sentinel_off {list : ListRef α} {xs : List α} (shows : Shows m list xs)
    (member : node ∈ list.span []) : node ∉ xs := by
  have nodup := shows.nodup
  simp only [ListRef.span, nil_append, mem_cons, List.not_mem_nil, or_false] at member
  simp only [ListRef.span, nodup_cons, nodup_append, mem_append] at nodup
  rcases member with rfl | rfl
  · exact fun inside => nodup.1 (.inl inside)
  · exact fun inside => nodup.2.2.2 _ inside _ (by simp) rfl

omit [DecidableEq α] in
theorem Lists.sentinel_off (lists : Lists m list xs) {i : ι} (member : node ∈ (list i).span [])
    (j : ι) : node ∉ xs j := by
  by_cases same : j = i
  · subst same
    exact (lists.shows j).sentinel_off member
  · intro inside
    have mine : node ∈ (list i).span (xs i) := ListRef.mem_span.mpr (.inl member)
    exact lists.apart i j (Ne.symm same) node mine (ListRef.mem_span.mpr (.inr inside))

theorem Lists.init (lists : Lists m list xs) (i : ι) :
    Lists (listInit m (list i)) list (update xs i []) := by
  have nodup := (lists.shows i).nodup
  have differ : (list i).head ≠ (list i).tail := by
    intro same
    simp [ListRef.span, same] at nodup
  have ends : ∀ node, node ∈ (list i).span [] → node ∈ (list i).span (xs i) :=
    fun node member => ListRef.mem_span.mpr (.inl member)
  apply lists.replace i (shows_init m differ)
  · intro j other node member side
    have off := lists.apart j i other node member
    apply listInit_other
    · rintro rfl
      exact off (ends _ (by simp [ListRef.span]))
    · rintro rfl
      exact off (ends _ (by simp [ListRef.span]))
  · intro j other node member
    exact lists.apart i j other.symm node (ends node member)

theorem Lists.cut (lists : Lists m list xs) {i : ι} (split : xs i = ys ++ (run ++ zs)) :
    Lists (link m ((list i).behind ys) ((list i).ahead zs)) list (update xs i (ys ++ zs)) ∧
    Loose (link m ((list i).behind ys) ((list i).ahead zs)) list (update xs i (ys ++ zs)) run := by
  have shows : Shows m (list i) (ys ++ (run ++ zs)) := split ▸ lists.shows i
  have perm := (list i).span_perm ys run zs
  have halves := nodup_append.mp (perm.nodup_iff.mp shows.nodup)
  have inside : ∀ node ∈ run ++ (list i).span (ys ++ zs), node ∈ (list i).span (xs i) := by
    intro node member
    rw [split]
    exact perm.mem_iff.mpr member
  constructor
  · apply lists.replace i shows.cut.1
    · intro j differ node member side
      have off := lists.apart j i differ node member
      apply link_other
      · rintro rfl
        exact off (inside _ (mem_append_right run ((list i).behind_span ys zs)))
      · rintro rfl
        exact off (inside _ (mem_append_right run ((list i).ahead_span ys zs)))
    · intro j differ node member
      exact lists.apart i j differ.symm node (inside node (mem_append_right run member))
  · refine ⟨shows.cut.2, halves.1, ?_⟩
    intro node member j
    by_cases same : j = i
    · subst same
      rw [update_self]
      intro other
      exact halves.2.2 node member node other rfl
    · rw [update_of_ne same]
      have other := inside node (mem_append_left _ member)
      exact lists.apart i j (Ne.symm same) node other

theorem Lists.paste (lists : Lists m list xs) {i : ι} {rest body : List α}
    (loose : Loose m list xs run) (split : xs i = ys ++ zs) (starts : run = first :: rest)
    (ends : run = body ++ [last]) :
    Lists (link (link m ((list i).behind ys) first) last ((list i).ahead zs)) list
      (update xs i (ys ++ (run ++ zs))) := by
  have shows : Shows m (list i) (ys ++ zs) := split ▸ lists.shows i
  have perm := (list i).span_perm ys run zs
  have firstIn : first ∈ run := by simp [starts]
  have lastIn : last ∈ run := by simp [ends]
  have nodup : ((list i).span (ys ++ (run ++ zs))).Nodup := by
    apply perm.nodup_iff.mpr
    refine nodup_append.mpr ⟨loose.nodup, shows.nodup, ?_⟩
    rintro node member other inside rfl
    exact loose.off node member i (split ▸ inside)
  apply lists.replace i
  · exact shows_paste shows.parts.1 shows.parts.2.2 shows.first shows.last loose.chain starts ends
      nodup
  · intro j differ node member side
    have offRun : node ∉ run := fun inside => loose.off node inside j member
    have offList : node ∉ (list i).span (ys ++ zs) := split ▸ lists.apart j i differ node member
    rw [link_other, link_other]
    · exact fun same => offList (same ▸ (list i).behind_span ys zs)
    · exact fun same => offRun (same ▸ firstIn)
    · exact fun same => offRun (same ▸ lastIn)
    · exact fun same => offList (same ▸ (list i).ahead_span ys zs)
  · intro j differ node member
    rcases mem_append.mp (perm.mem_iff.mp member) with inside | inside
    · exact loose.off node inside j
    · exact lists.apart i j differ.symm node (split ▸ inside)

theorem Lists.insert (lists : Lists m list xs) {i : ι} {elem : α} (split : xs i = ys ++ zs)
    (fresh : ∀ j, elem ∉ (list j).span (xs j)) : ∃ m', listInsert m (some ((list i).ahead zs))
    (some elem) = some m' ∧ Lists m' list (update xs i (ys ++ elem :: zs)) := by
  have shows : Shows m (list i) (ys ++ zs) := split ▸ lists.shows i
  have loose : Loose m list xs [elem] := by
    refine ⟨List.isChain_singleton elem, List.nodup_singleton elem, ?_⟩
    intro node member
    rw [List.mem_singleton.mp member]
    exact fresh
  have off : elem ∉ (list i).span (ys ++ zs) := split ▸ fresh i
  have offAhead : elem ≠ (list i).ahead zs := fun same =>
    off (same ▸ (list i).ahead_span ys zs)
  have offBehind : elem ≠ (list i).behind ys := fun same =>
    off (same ▸ (list i).behind_span ys zs)
  have ends : [elem] = [] ++ [elem] := rfl
  refine ⟨_, ?_, lists.paste loose split rfl ends⟩
  simp [listInsert, inserts_before shows.prev, shows.prev, guard, store_other _ offAhead.symm,
    stores_link m offBehind]

theorem Lists.pushFront (lists : Lists m list xs) (i : ι) {elem : α}
    (fresh : ∀ j, elem ∉ (list j).span (xs j)) : ∃ m', listPushFront m (list i)
    (some elem) = some m' ∧ Lists m' list (update xs i (elem :: xs i)) := by
  have split : xs i = [] ++ xs i := rfl
  rw [listPushFront, (lists.shows i).begin]
  exact lists.insert split fresh

theorem Lists.pushBack (lists : Lists m list xs) (i : ι) {elem : α}
    (fresh : ∀ j, elem ∉ (list j).span (xs j)) : ∃ m', listPushBack m (list i)
    (some elem) = some m' ∧ Lists m' list (update xs i (xs i ++ [elem])) := by
  have split : xs i = xs i ++ [] := (append_nil (xs i)).symm
  exact lists.insert split fresh

theorem Lists.remove (lists : Lists m list xs) {i : ι} {elem : α}
    (split : xs i = ys ++ elem :: zs) :
    ∃ m', listRemove m (some elem) = some (m', some ((list i).ahead zs)) ∧
      Lists m' list (update xs i (ys ++ zs)) := by
  have shows : Shows m (list i) (ys ++ elem :: zs) := split ▸ lists.shows i
  obtain ⟨prev, next, -⟩ := shows.elem
  have single : xs i = ys ++ ([elem] ++ zs) := split
  have cut := lists.cut single
  have off : elem ≠ (list i).behind ys := by
    intro same
    apply cut.2.off elem (by simp) i
    rw [update_self, same]
    exact (list i).behind_span ys zs
  have interior : isInterior m (some elem) = true := by simp [isInterior, prev, next]
  refine ⟨_, ?_, cut.1⟩
  simp [listRemove, interior, prev, next, guard, store_other _ off, link]

theorem Lists.removed_off (lists : Lists m list xs) {i : ι} {elem : α}
    (split : xs i = ys ++ elem :: zs) (j : ι) :
    elem ∉ (list j).span (update xs i (ys ++ zs) j) := by
  have single : xs i = ys ++ ([elem] ++ zs) := split
  exact (lists.cut single).2.off elem (by simp) j

theorem Lists.popFront (lists : Lists m list xs) {i : ι} {elem : α} (split : xs i = elem :: zs) :
    ∃ m', listPopFront m (list i) = some (m', some elem) ∧ Lists m' list (update xs i zs) := by
  have front : xs i = [] ++ elem :: zs := split
  obtain ⟨m', removed, after⟩ := lists.remove front
  refine ⟨m', ?_, after⟩
  have shows : Shows m (list i) (elem :: zs) := split ▸ lists.shows i
  have first : m (list i).head .next = some elem := shows.begin
  simp [listPopFront, listFront, shows.empty, first, guard, removed]

theorem Lists.popBack (lists : Lists m list xs) {i : ι} {elem : α} (split : xs i = ys ++ [elem]) :
    ∃ m', listPopBack m (list i) = some (m', some elem) ∧ Lists m' list (update xs i ys) := by
  obtain ⟨m', removed, after⟩ := lists.remove split
  rw [append_nil] at after
  refine ⟨m', ?_, after⟩
  have shows : Shows m (list i) (ys ++ [elem]) := split ▸ lists.shows i
  have last : m (list i).tail .prev = some elem := shows.elem.2.2
  simp [listPopBack, listBack, shows.empty, last, guard, removed]

/-- A run moves from list `i` to a place in what is then left of list `j`. -/
theorem Lists.splice (lists : Lists m list xs) {i j : ι} {us vs : List α}
    (split : xs i = ys ++ (run ++ zs))
    (place : update xs i (ys ++ zs) j = us ++ vs) : ∃ m', listSplice m (some ((list j).ahead vs))
    (some ((list i).ahead (run ++ zs))) (some ((list i).ahead zs)) = some m' ∧
    Lists m' list (update (update xs i (ys ++ zs)) j (us ++ (run ++ vs))) := by
  have shows : Shows m (list i) (ys ++ (run ++ zs)) := split ▸ lists.shows i
  have cut := lists.cut split
  have target : Shows (link m ((list i).behind ys) ((list i).ahead zs)) (list j) (us ++ vs) :=
    place ▸ cut.1.shows j
  have placed : ∃ node, m ((list j).ahead vs) .prev = some node := by
    have prev := target.prev
    rw [link_prev] at prev
    by_cases same : (list j).ahead vs = (list i).ahead zs
    · have whole : Shows m (list i) ((ys ++ run) ++ zs) := by simpa using shows
      exact ⟨_, same ▸ whole.prev⟩
    · rw [if_neg same] at prev
      exact ⟨_, prev⟩
  cases run with
  | nil =>
    obtain ⟨node, prev⟩ := placed
    refine ⟨m, ?_, ?_⟩
    · simp [listSplice, inserts_before prev, guard]
    · have same : update xs i (ys ++ zs) = xs := by
        rw [show ys ++ zs = xs i from split.symm, update_eq_self]
      rw [same] at place ⊢
      rw [show us ++ ([] ++ vs) = xs j from place.symm, update_eq_self]
      exact lists
  | cons first rest =>
    obtain ⟨body, last, ends⟩ : ∃ body last, first :: rest = body ++ [last] :=
      ⟨_, _, (List.dropLast_append_getLast (List.cons_ne_nil first rest)).symm⟩
    have firstOff := cut.2.off first (by simp)
    have lastOff := cut.2.off last (by simp [ends])
    have around {k : ι} {us vs : List α} (held : update xs i (ys ++ zs) k = us ++ vs) :
        (list k).behind us ∈ (list k).span (update xs i (ys ++ zs) k) ∧
          (list k).ahead vs ∈ (list k).span (update xs i (ys ++ zs) k) := by
      rw [held]
      exact ⟨(list k).behind_span us vs, (list k).ahead_span us vs⟩
    obtain ⟨left, right⟩ := around (update_self i (ys ++ zs) xs)
    obtain ⟨into, before⟩ := around place
    have atFirst : Shows m (list i) (ys ++ (first :: (rest ++ zs))) := shows
    obtain ⟨firstPrev, firstNext, -⟩ := atFirst.elem
    have atLast : Shows m (list i) ((ys ++ body) ++ (last :: zs)) := by simpa [ends] using shows
    obtain ⟨lastPrev, lastNext, pastPrev⟩ := atLast.elem
    have start : (list i).ahead (first :: rest ++ zs) = first := rfl
    rw [start]
    refine ⟨_, listSplice_eq ?_ pastPrev firstPrev lastNext (Option.isSome_of_eq_some firstNext)
      (Option.isSome_of_eq_some lastPrev) placed target.prev ?_ ?_ ?_,
      cut.1.paste cut.2 place rfl ends⟩
    · exact fun same => firstOff i (same ▸ right)
    · exact fun same => firstOff j (same ▸ before)
    · exact fun same => lastOff j (same ▸ into)
    · exact fun same => lastOff i (same ▸ left)

omit [DecidableEq ι] in
theorem reverseLoop_spec {stop : α} (chain : Chain m (run ++ [stop]))
    (nodup : (run ++ [stop]).Nodup) (enough : run.length < fuel) :
    ∃ m', reverseLoop fuel m (some (run.headD stop)) (some stop) = some m' ∧
      (∀ node ∈ run, m' node .next = m node .prev ∧ m' node .prev = m node .next) ∧
      ∀ node ∉ run, ∀ side, m' node side = m node side := by
  induction run generalizing m fuel with
  | nil =>
    obtain ⟨fuel, rfl⟩ : ∃ n, fuel = n + 1 := ⟨fuel - 1, by simp at enough; omega⟩
    exact ⟨m, by simp [reverseLoop], by simp, by simp⟩
  | cons e run ih =>
    obtain ⟨fuel, rfl⟩ : ∃ n, fuel = n + 1 := ⟨fuel - 1, by simp at enough; omega⟩
    have fresh : e ∉ run ++ [stop] := (nodup_cons.mp nodup).1
    have differ : e ≠ stop := fun same => fresh (by simp [same])
    have next : m e .next = some (run.headD stop) := by
      cases run with
      | nil => exact (List.isChain_cons_cons.mp chain).1.1
      | cons f run => exact (List.isChain_cons_cons.mp chain).1.1
    have rest : Chain (turn m e) (run ++ [stop]) := by
      apply Chain.frame (List.IsChain.tail chain)
      intro node member
      exact turn_other m (fun same => fresh (same ▸ member))
    have shorter : run.length < fuel := by simpa using enough
    obtain ⟨m', walked, inside, outside⟩ := ih rest (nodup_cons.mp nodup).2 shorter
    have notRun : e ∉ run := fun member => fresh (mem_append_left _ member)
    refine ⟨m', ?_, ?_, ?_⟩
    · have moved : swap m (some e, .prev) (some e, .next) = some (turn m e) := by
        simp [swap, turn]
      simp [reverseLoop, differ, moved, next, ← walked]
    · intro node member
      by_cases same : node = e
      · subst same
        simp [outside node notRun]
      · have later : node ∈ run := by simpa [same] using member
        have step := inside node later
        rwa [turn_other m same, turn_other m same] at step
    · intro node off side
      simp only [mem_cons, not_or] at off
      rw [outside node off.2, turn_other m off.1]

theorem reverse_ends {head tail : α} (firstOff : first ≠ head) (lastOff : last ≠ tail)
    (headNext : m head .next = some first) (tailPrev : m tail .prev = some last)
    (firstNext : m first .next = some head) (lastPrev : m last .prev = some tail) : (do
      let m ← swap m (some head, .next) (some tail, .prev)
      swap m (← load m (some head) .next, .prev) (← load m (some tail) .prev, .next)) =
      some (link (link m head last) first tail) := by
  have inner : (tail, Side.prev) ≠ (last, Side.prev) := by simp [lastOff.symm]
  have outer : (tail, Side.prev) ≠ (first, Side.next) := by simp
  have inOrder : store (store (store (store m head .next (some last)) tail .prev (some first))
      last .prev (some head)) first .next (some tail) = link (link m head last) first tail := by
    rw [link, link, store_comm (store m head .next (some last)) inner, store_comm _ outer]
  have middle : store (store m head .next (some last)) tail .prev (some first) last .prev =
      some tail := by
    rw [store_other _ lastOff, store_next_prev, lastPrev]
  simp [swap, headNext, tailPrev, firstNext, middle, store_other _ firstOff, inOrder]

omit [DecidableEq ι] in
theorem Shows.reverse {list : ListRef α} {xs : List α} (shows : Shows m list xs)
    (enough : xs.length < fuel) : ∃ m', listReverse fuel m list = some m' ∧
    Shows m' list xs.reverse ∧ ∀ node ∉ list.span xs, ∀ side, m' node side = m node side := by
  have empty := shows.empty
  cases xs with
  | nil => exact ⟨m, by simp [listReverse, empty], shows, fun _ _ _ => rfl⟩
  | cons first rest =>
    obtain ⟨body, last, ends⟩ : ∃ body last, first :: rest = body ++ [last] :=
      ⟨_, _, (List.dropLast_append_getLast (List.cons_ne_nil first rest)).symm⟩
    have chain : Chain m ((first :: rest) ++ [list.tail]) := List.IsChain.tail shows.chain
    have nodup : ((first :: rest) ++ [list.tail]).Nodup := (nodup_cons.mp shows.nodup).2
    obtain ⟨m1, walked, inside, outside⟩ := reverseLoop_spec chain nodup enough
    have headOff : list.head ∉ first :: rest := fun member =>
      (nodup_cons.mp shows.nodup).1 (mem_append_left _ member)
    have tailOff : list.tail ∉ first :: rest := fun member =>
      (nodup_append.mp nodup).2.2 _ member _ (by simp) rfl
    have firstIn : first ∈ first :: rest := List.mem_cons_self
    have lastIn : last ∈ first :: rest := by simp [ends]
    have firstDiffer : first ≠ list.head := fun same => headOff (same ▸ firstIn)
    have lastDiffer : last ≠ list.tail := fun same => tailOff (same ▸ lastIn)
    have atEnd : Shows m list (body ++ [last]) := by simpa [ends] using shows
    have atStart : Shows m list ([] ++ first :: rest) := shows
    have headNext : m1 list.head .next = some first := by
      rw [outside _ headOff]
      exact shows.begin
    have tailPrev : m1 list.tail .prev = some last := by
      rw [outside _ tailOff]
      exact atEnd.elem.2.2
    have firstNext : m1 first .next = some list.head := by
      rw [(inside first firstIn).1]
      exact atStart.prev
    have lastPrev : m1 last .prev = some list.tail := by
      rw [(inside last lastIn).2]
      exact atEnd.elem.2.1
    refine ⟨link (link m1 list.head last) first list.tail, ?_, ?_, ?_⟩
    · have ended := reverse_ends firstDiffer lastDiffer headNext tailPrev firstNext lastPrev
      have start : listBegin m list = some ((first :: rest).headD list.tail) := shows.begin
      simp only [listReverse, empty, start, listEnd, walked, List.isEmpty_cons, Bool.false_eq_true,
        if_false, Option.bind_eq_bind, Option.bind_some]
      exact ended
    · have turned : Chain m1 (first :: rest).reverse :=
        Chain.reverse (List.IsChain.left_of_append chain) (fun node member => (inside node member).1)
          (fun node member => (inside node member).2)
      have starts : (first :: rest).reverse = last :: body.reverse := by simp [ends]
      have outer : m1 list.head .prev = none := by rw [outside _ headOff, shows.first]
      have outerLast : m1 list.tail .next = none := by rw [outside _ tailOff, shows.last]
      have perm : (list.span ([] ++ ((first :: rest).reverse ++ []))).Perm
          (list.span (first :: rest)) := by
        simp only [nil_append, append_nil, ListRef.span]
        exact ((List.reverse_perm (first :: rest)).append_right [list.tail]).cons list.head
      have before : Chain m1 (list.head :: []) := List.isChain_singleton list.head
      have after : Chain m1 ([] ++ [list.tail]) := List.isChain_singleton list.tail
      have pasted := shows_paste before after outer outerLast turned starts
        (List.reverse_cons ..) (perm.nodup_iff.mpr shows.nodup)
      simpa [ListRef.behind, ListRef.ahead] using pasted
    · intro node off side
      have member : ∀ other ∈ list.span (first :: rest), node ≠ other := fun other inside same =>
        off (same ▸ inside)
      have offRun : node ∉ first :: rest := fun inRun =>
        off (List.mem_cons_of_mem _ (mem_append_left _ inRun))
      rw [link_other, link_other, outside node offRun]
      · exact member _ (by simp [ListRef.span])
      · exact member _ (by simp [ListRef.span, ends])
      · exact member _ (by simp [ListRef.span])
      · exact member _ (by simp [ListRef.span])

theorem Lists.reverse (lists : Lists m list xs) (i : ι) (enough : (xs i).length < fuel) :
    ∃ m', listReverse fuel m (list i) = some m' ∧ Lists m' list (update xs i (xs i).reverse) := by
  obtain ⟨m', reversed, shows, frame⟩ := (lists.shows i).reverse enough
  refine ⟨m', reversed, lists.replace i shows ?_ ?_⟩
  · intro j differ node member side
    exact frame node (lists.apart j i differ node member) side
  · intro j differ node member
    apply lists.apart i j differ.symm node
    simpa [ListRef.span] using member

/-- Every valid call on a family of well-formed lists succeeds, changes the sequences
of the lists it works on as it says, and leaves the family well formed.  In
`list_splice` the destination is a place in what remains of the lists once the range
is taken out, so it may be in the range's own list, next to it or in another. -/
theorem list_operations (lists : Lists m list xs) :
    (∀ i ys zs elem, xs i = ys ++ zs → (∀ j, elem ∉ (list j).span (xs j)) →
      ∃ m', listInsert m (some ((list i).ahead zs)) (some elem) = some m' ∧
        Lists m' list (update xs i (ys ++ elem :: zs))) ∧
    (∀ i elem, (∀ j, elem ∉ (list j).span (xs j)) →
      ∃ m', listPushFront m (list i) (some elem) = some m' ∧
        Lists m' list (update xs i (elem :: xs i))) ∧
    (∀ i elem, (∀ j, elem ∉ (list j).span (xs j)) →
      ∃ m', listPushBack m (list i) (some elem) = some m' ∧
        Lists m' list (update xs i (xs i ++ [elem]))) ∧
    (∀ i ys zs elem, xs i = ys ++ elem :: zs →
      ∃ m', listRemove m (some elem) = some (m', some ((list i).ahead zs)) ∧
        Lists m' list (update xs i (ys ++ zs))) ∧
    (∀ i zs elem, xs i = elem :: zs →
      ∃ m', listPopFront m (list i) = some (m', some elem) ∧
        Lists m' list (update xs i zs)) ∧
    (∀ i ys elem, xs i = ys ++ [elem] →
      ∃ m', listPopBack m (list i) = some (m', some elem) ∧
        Lists m' list (update xs i ys)) ∧
    (∀ i j ys run zs us vs, xs i = ys ++ (run ++ zs) →
      update xs i (ys ++ zs) j = us ++ vs →
      ∃ m', listSplice m (some ((list j).ahead vs)) (some ((list i).ahead (run ++ zs)))
          (some ((list i).ahead zs)) = some m' ∧
        Lists m' list
          (update (update xs i (ys ++ zs)) j (us ++ (run ++ vs)))) ∧
    ∀ i fuel, (xs i).length < fuel →
      ∃ m', listReverse fuel m (list i) = some m' ∧
        Lists m' list (update xs i (xs i).reverse) :=
  ⟨fun _ _ _ _ split fresh => lists.insert split fresh, fun i _ fresh => lists.pushFront i fresh,
    fun i _ fresh => lists.pushBack i fresh,
    fun _ _ _ _ split => lists.remove split,
    fun _ _ _ split => lists.popFront split,
    fun _ _ _ split => lists.popBack split,
    fun _ _ _ _ _ _ _ split place => lists.splice split place,
    fun i _ enough => lists.reverse i enough⟩

end

def twoLists : Mem Nat
  | 0, .next => some 4
  | 1, .prev => some 5
  | 2, .next => some 3
  | 3, .prev => some 2
  | 4, .prev => some 0
  | 4, .next => some 5
  | 5, .prev => some 4
  | 5, .next => some 1
  | _, _ => none

def twoRefs (i : Bool) : ListRef Nat :=
  if i then ⟨0, 1⟩ else ⟨2, 3⟩

def twoContents (i : Bool) : List Nat :=
  if i then [4, 5] else []

theorem twoLists_formed : Lists twoLists twoRefs twoContents := by
  constructor
  · intro i
    cases i with
    | false => exact ⟨by decide, by simp [Chain, ListRef.span, Linked, twoLists, twoRefs,
        twoContents], rfl, rfl⟩
    | true => exact ⟨by decide, by simp [Chain, ListRef.span, Linked, twoLists, twoRefs,
        twoContents], rfl, rfl⟩
  · decide

theorem list_operations_twoLists :
    ∃ m', listReverse 3 twoLists ⟨0, 1⟩ = some m' ∧
      Lists m' twoRefs (update twoContents true [5, 4]) :=
  (list_operations twoLists_formed).2.2.2.2.2.2.2 true 3 (by decide)

end Pintos.KernelList
