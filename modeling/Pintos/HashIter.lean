import Pintos.HashRuns

/-! Iteration over a hash table: `hash_first`, `hash_next`, `hash_cur` and `hash_apply` of
`lib/kernel/hash.c`.  A `struct hash_elem` is at offset 0 of its node and a `struct list` begins
with its head, so the conversions between these pointers change nothing.  Both ways go through
the buckets in their order, and through each bucket in the order of its list. -/

namespace Pintos.HashIter
open LinkedNodes KernelList HashTable HashRuns Transition
open Option (bind_eq_some_iff)

/-- `struct hash_iterator` without the pointer to its table. -/
structure Iterator where
  bucket : Addr
  elem : Option Addr

def listAt (bucket : Addr) : ListRef Addr :=
  ⟨bucket, bucket + 8⟩

def hashFirst (t : Table) : Iterator :=
  ⟨t.hash.buckets, some (listAt t.hash.buckets).head⟩

/-- The loop of `hash_next` over the buckets that end at the current place. -/
def nextLoop (t : Table) : (fuel : Nat) → Iterator → Option Iterator
  | 0, _ => none
  | fuel + 1, i =>
    if i.elem = listEnd (listAt i.bucket) then
      let bucket := i.bucket + 16
      if bucket ≥ t.hash.buckets + 16 * t.hash.bucketCnt then some ⟨bucket, none⟩
      else nextLoop t fuel ⟨bucket, listBegin t.mem (listAt bucket)⟩
    else some i

def hashNext (t : Table) (i : Iterator) : Option (Iterator × Option Addr) := do
  let elem ← listNext t.mem i.elem
  let i ← nextLoop t walkLimit { i with elem := elem }
  return (i, i.elem)

def hashCur (i : Iterator) : Option Addr :=
  i.elem

def visit (t : Table) : (fuel : Nat) → Iterator → Option (List Addr)
  | 0, _ => none
  | fuel + 1, i => do
    let (i, found) ← hashNext t i
    if found = none then return []
    let e ← hashCur i
    let rest ← visit t fuel i
    return e :: rest
variable {m : Mem Addr} {ys zs : List Addr} {fuel : Nat} {bucket e : Addr}

section
variable {σ : Type} (action : σ → Addr → σ)

def applyElems (m : Mem Addr) (last : Option Addr) : (fuel : Nat) → σ → Option Addr → Option σ
  | 0, _, _ => none
  | fuel + 1, s, elem =>
    if elem = last then some s
    else do
      let next ← listNext m elem
      applyElems m last fuel (action s (← elem)) next

def applyLoop (t : Table) (s : σ) : Nat → Option σ
  | 0 => some s
  | i + 1 => do
    let s ← applyLoop t s i
    let bucket := bucketAt t.hash.buckets (BitVec.ofNat 32 i)
    applyElems action t.mem (listEnd bucket) walkLimit s (listBegin t.mem bucket)

def hashApply (t : Table) (s : σ) : Option σ :=
  applyLoop action t s t.hash.bucketCnt.toNat

theorem applyElems_spec {list : ListRef Addr} (shows : Shows m list (ys ++ zs)) (s : σ)
    (enough : zs.length < fuel) :
    applyElems action m (listEnd list) fuel s (some (list.ahead zs)) =
      some (zs.foldl action s) := by
  induction zs generalizing ys s fuel with
  | nil =>
    obtain _ | fuel := fuel
    · omega
    simp [applyElems, listEnd, ListRef.ahead]
  | cons z zs ih =>
    obtain _ | fuel := fuel
    · omega
    have later : Shows m list ((ys ++ [z]) ++ zs) := by simpa using shows
    have start : list.ahead (z :: zs) = z := rfl
    have going : some z ≠ listEnd list := tail_ne shows
    rw [start, applyElems, if_neg going, shows.listNext]
    exact ih later (action s z) (Nat.lt_of_succ_lt_succ enough)

end

def content {n : Nat} (xs : Fin n → List Addr) (k : Nat) : List Addr :=
  if h : k < n then xs ⟨k, h⟩ else []

def contentFrom {n : Nat} (xs : Fin n → List Addr) (k : Nat) : List Addr :=
  (List.range' k (n - k)).flatMap (content xs)

theorem contentFrom_lt {n k : Nat} (xs : Fin n → List Addr) (below : k < n) :
    contentFrom xs k = xs ⟨k, below⟩ ++ contentFrom xs (k + 1) := by
  rw [contentFrom, show n - k = n - (k + 1) + 1 by omega, List.range'_succ, List.flatMap_cons,
    content, dif_pos below]
  rfl

section
variable {hash : Addr → BitVec 32} {less : Addr → Addr → Bool} {t : Table} {S : Finset Addr}
  {xs : Fin t.hash.bucketCnt.toNat → List Addr}

theorem applyLoop_spec {σ : Type} (action : σ → Addr → σ) (lists : Lists t.mem t.hash.refs xs)
    (s : σ) {count : Nat} (within : count ≤ t.hash.bucketCnt.toNat) :
    applyLoop action t s count =
      some (((List.range count).flatMap (content xs)).foldl action s) := by
  induction count with
  | zero => rfl
  | succ count ih =>
    let k : Fin t.hash.bucketCnt.toNat := ⟨count, within⟩
    have shows : Shows t.mem (bucketAt t.hash.buckets (BitVec.ofNat 32 count)) ([] ++ xs k) :=
      lists.shows k
    have here : content xs count = xs k := dif_pos within
    rw [applyLoop, ih (by omega), List.range_succ, List.flatMap_append, List.foldl_append]
    simp only [Option.bind_eq_bind, Option.bind_some, shows.begin, List.nil_append,
      List.flatMap_cons, List.flatMap_nil, List.append_nil, here]
    exact applyElems_spec action shows _ (length_lt_walkLimit (lists.shows k))

/-- There is an address behind the array of buckets, as there is behind every object in C. -/
def Bounded (h : Hash) : Prop :=
  h.buckets.toNat + 16 * h.bucketCnt.toNat < 2 ^ 32

section

variable (fits : Bounded t.hash) (k : Fin t.hash.bucketCnt.toNat)
  (place : bucket.toNat = t.hash.buckets.toNat + 16 * k)
include fits k place

theorem listAt_eq : listAt bucket = t.hash.refs k := by
  have head : bucket = (t.hash.refs k).head :=
    BitVec.eq_of_toNat_eq (place.trans (refs_head (Nat.le_of_lt fits) k).symm)
  rw [head]
  rfl

theorem next_bucket :
    (bucket + 16).toNat = t.hash.buckets.toNat + 16 * (k + 1) ∧
      (bucket + 16 ≥ t.hash.buckets + 16 * t.hash.bucketCnt ↔
        t.hash.bucketCnt.toNat ≤ k.val + 1) := by
  have below := k.isLt
  have sixteen : (16 : Addr).toNat = 16 := rfl
  have fits : t.hash.buckets.toNat + 16 * t.hash.bucketCnt.toNat < 2 ^ 32 := fits
  have next : (bucket + 16).toNat = t.hash.buckets.toNat + 16 * (k + 1) := by
    bv_omega
  have last : (t.hash.buckets + 16 * t.hash.bucketCnt).toNat =
      t.hash.buckets.toNat + 16 * t.hash.bucketCnt.toNat := by
    rw [BitVec.toNat_add, BitVec.toNat_mul, sixteen]
    omega
  refine ⟨next, ?_⟩
  rw [ge_iff_le, BitVec.le_def, next, last]
  omega

end

/-- The iterator stands on an element of bucket `k`, with `zs` behind it there. -/
structure On (t : Table) (xs : Fin t.hash.bucketCnt.toNat → List Addr) (i : Iterator)
    (k : Fin t.hash.bucketCnt.toNat) (e : Addr) (zs : List Addr) : Prop where
  place : i.bucket.toNat = t.hash.buckets.toNat + 16 * k
  elem : i.elem = some e
  split : ∃ ys, xs k = ys ++ e :: zs

/-- From the start of `zs` in bucket `k` the iterator goes to the first element that is left, in
this bucket or a later one. -/
theorem nextLoop_spec (lists : Lists t.mem t.hash.refs xs) (fits : Bounded t.hash)
    (k : Fin t.hash.bucketCnt.toNat) (split : xs k = ys ++ zs)
    (place : bucket.toNat = t.hash.buckets.toNat + 16 * k)
    (enough : t.hash.bucketCnt.toNat - k ≤ fuel) :
    ∃ i, nextLoop t fuel ⟨bucket, some ((t.hash.refs k).ahead zs)⟩ = some i ∧
      ((zs ++ contentFrom xs (k + 1) = [] ∧ i.elem = none) ∨
        ∃ k' e rest, On t xs i k' e rest ∧
          zs ++ contentFrom xs (k + 1) = e :: (rest ++ contentFrom xs (k' + 1))) := by
  have below := k.isLt
  induction fuel generalizing bucket k ys zs with
  | zero => omega
  | succ fuel ih =>
    have here := listAt_eq fits k place
    cases zs with
    | cons e zs =>
      have shows : Shows t.mem (t.hash.refs k) (ys ++ e :: zs) := split ▸ lists.shows k
      have going : some e ≠ listEnd (t.hash.refs k) := tail_ne shows
      refine ⟨⟨bucket, some e⟩, ?_, .inr ⟨k, e, zs, ⟨place, rfl, ys, split⟩, rfl⟩⟩
      simp [nextLoop, here, ListRef.ahead, going]
    | nil =>
      obtain ⟨next, past⟩ := next_bucket fits k place
      have atEnd : some ((t.hash.refs k).ahead []) = listEnd (t.hash.refs k) := rfl
      by_cases last : t.hash.bucketCnt.toNat ≤ k.val + 1
      · refine ⟨⟨bucket + 16, none⟩, ?_, .inl ⟨?_, rfl⟩⟩
        · rw [nextLoop, here, if_pos atEnd, if_pos (past.mpr last)]
        · rw [contentFrom, Nat.sub_eq_zero_of_le last]
          rfl
      let k' : Fin t.hash.bucketCnt.toNat := ⟨k + 1, by omega⟩
      have there := listAt_eq fits k' next
      obtain ⟨i, loop, result⟩ := ih k' (show xs k' = [] ++ xs k' from rfl) next
        (by simp only [k']; omega) k'.isLt
      refine ⟨i, ?_, ?_⟩
      · rw [nextLoop, here, if_pos atEnd, if_neg (fun ge => last (past.mp ge)), there,
          (lists.shows k').begin]
        exact loop
      · have unfold : contentFrom xs (k + 1) = xs k' ++ contentFrom xs (k'.val + 1) :=
          contentFrom_lt xs k'.isLt
        rw [List.nil_append, unfold]
        exact result

/-- From a place in bucket `k` with `zs` still to come there, the loop goes over `zs` and then
over the later buckets. -/
theorem visit_spec (lists : Lists t.mem t.hash.refs xs) (fits : Bounded t.hash) {i : Iterator}
    (k : Fin t.hash.bucketCnt.toNat) (split : xs k = ys ++ zs)
    (place : i.bucket.toNat = t.hash.buckets.toNat + 16 * k)
    (next : listNext t.mem i.elem = some (some ((t.hash.refs k).ahead zs)))
    (enough : (zs ++ contentFrom xs (k + 1)).length < fuel) :
    visit t fuel i = some (zs ++ contentFrom xs (k + 1)) := by
  induction fuel generalizing i k ys zs with
  | zero => omega
  | succ fuel ih =>
    have rounds : t.hash.bucketCnt.toNat - k ≤ walkLimit := by
      have := t.hash.bucketCnt.isLt
      rw [walkLimit]
      omega
    obtain ⟨i', loop, result⟩ := nextLoop_spec lists fits k split place rounds
    have found : hashNext t i = some (i', i'.elem) := by simp [hashNext, next, loop]
    rcases result with ⟨none, stop⟩ | ⟨k', e, rest, on, all⟩
    · rw [none]
      simp [visit, found, stop]
    obtain ⟨ys', split'⟩ := on.split
    have shows : Shows t.mem (t.hash.refs k') (ys' ++ e :: rest) := split' ▸ lists.shows k'
    have later : xs k' = (ys' ++ [e]) ++ rest := by simpa using split'
    have after := shows.listNext
    rw [← on.elem] at after
    rw [all, List.length_cons] at enough
    have visited := ih k' later on.place after (Nat.lt_of_succ_lt_succ enough)
    rw [all]
    simp [visit, found, on.elem, hashCur, visited]

theorem mem_content : e ∈ (List.range t.hash.bucketCnt.toNat).flatMap (content xs) ↔
    ∃ k, e ∈ xs k := by
  simp only [List.mem_flatMap, List.mem_range, content]
  constructor
  · rintro ⟨k, below, member⟩
    rw [dif_pos below] at member
    exact ⟨⟨k, below⟩, member⟩
  · rintro ⟨k, member⟩
    exact ⟨k, k.isLt, by rwa [dif_pos k.isLt]⟩

theorem nodup_content (lists : Lists t.mem t.hash.refs xs) (stored : Stored hash t.hash S xs) :
    ((List.range t.hash.bucketCnt.toNat).flatMap (content xs)).Nodup := by
  have spots : ∀ k, ∀ e ∈ content xs k, (spot hash t.hash e).toNat = k := by
    intro k e member
    by_cases below : k < t.hash.bucketCnt.toNat
    · rw [content, dif_pos below] at member
      exact stored.placed _ e member
    · simp [content, dif_neg below] at member
  refine List.nodup_flatMap.mpr ⟨fun k member => ?_, ?_⟩
  · have nodup := (lists.shows ⟨k, List.mem_range.mp member⟩).nodup
    rw [content, dif_pos (List.mem_range.mp member)]
    exact (List.nodup_append.mp (List.nodup_cons.mp nodup).2).1
  · refine List.nodup_range.imp fun {j k} differ e first second => differ ?_
    exact (spots j e first).symm.trans (spots k e second)

theorem Holds.iterate (holds : Holds hash less t S) (fits : Bounded t.hash) :
    ∃ es : List Addr, es.Nodup ∧ (∀ e, e ∈ es ↔ e ∈ S) ∧
      visit t walkLimit (hashFirst t) = some es ∧
      ∀ {σ : Type} (action : σ → Addr → σ) (s : σ),
        hashApply action t s = some (es.foldl action s) := by
  obtain ⟨xs, lists, stored⟩ := holds.lists
  let first : Fin t.hash.bucketCnt.toNat := ⟨0, holds.positive⟩
  let es := (List.range t.hash.bucketCnt.toNat).flatMap (content xs)
  have nodup : es.Nodup := nodup_content lists stored
  have members : ∀ e, e ∈ es ↔ e ∈ S := fun e => mem_content.trans (stored.members e)
  have all : xs first ++ contentFrom xs (first.val + 1) = es := by
    rw [← contentFrom_lt xs first.isLt, contentFrom, ← List.range_eq_range']
    rfl
  have few : es.length < walkLimit := by
    have same : es.toFinset = S := by
      ext e
      rw [List.mem_toFinset, members]
    have small := holds.card_lt
    rw [← same, List.toFinset_card_of_nodup nodup] at small
    rw [walkLimit]
    omega
  refine ⟨es, nodup, members, ?_, fun action s => applyLoop_spec action lists s le_rfl⟩
  have place : t.hash.buckets.toNat = t.hash.buckets.toNat + 16 * first := rfl
  have head : (listAt t.hash.buckets).head = (t.hash.refs first).head := by
    rw [listAt_eq fits first place]
  have next : listNext t.mem (hashFirst t).elem = some (some ((t.hash.refs first).ahead (xs first))) := by
    rw [hashFirst, head]
    have next : t.mem (t.hash.refs first).head .next = _ := (lists.shows first).begin
    simp [listNext, isHead, isInterior, (lists.shows first).first, next, guard]
  rw [← all] at few ⊢
  exact visit_spec lists fits first (show xs first = [] ++ xs first from rfl) place next few

end

section
variable {hash : Addr → BitVec 32} {less : Addr → Addr → Bool} {t t' : Table} {S : Finset Addr}
  {malloc : BitVec 32 → Option Addr}

def Kept (malloc : BitVec 32 → Option Addr) (h h' : Hash) : Prop :=
  (h'.buckets = h.buckets ∧ h'.bucketCnt = h.bucketCnt) ∨
    (newBucketCnt h'.elemCnt = some h'.bucketCnt ∧ malloc (16 * h'.bucketCnt) = some h'.buckets)

theorem rehash_kept (done : rehash hash malloc t = some t') : Kept malloc t.hash t'.hash := by
  obtain ⟨count, wanted, rest⟩ := bind_eq_some_iff.mp done
  by_cases same : count = t.hash.bucketCnt
  · rw [if_pos same] at rest
    cases rest
    exact .inl ⟨rfl, rfl⟩
  rw [if_neg same] at rest
  cases got : malloc (16 * count) with
  | none =>
    simp only [got] at rest
    cases rest
    exact .inl ⟨rfl, rfl⟩
  | some buckets =>
    simp only [got] at rest
    obtain ⟨m, -, made⟩ := bind_eq_some_iff.mp rest
    cases made
    exact .inr ⟨wanted, got⟩

theorem insertElem_kept {bucket : ListRef Addr} (done : insertElem t bucket e = some t') :
    t'.hash.buckets = t.hash.buckets ∧ t'.hash.bucketCnt = t.hash.bucketCnt := by
  obtain ⟨m, -, made⟩ := bind_eq_some_iff.mp done
  cases made
  exact ⟨rfl, rfl⟩

theorem removeElem_kept (done : removeElem t e = some t') :
    t'.hash.buckets = t.hash.buckets ∧ t'.hash.bucketCnt = t.hash.bucketCnt := by
  obtain ⟨m, -, made⟩ := bind_eq_some_iff.mp done
  cases made
  exact ⟨rfl, rfl⟩

theorem hashClear_kept {destructor : Option Action} (done : hashClear t destructor = some t') :
    t'.hash.buckets = t.hash.buckets ∧ t'.hash.bucketCnt = t.hash.bucketCnt := by
  obtain ⟨m, -, made⟩ := bind_eq_some_iff.mp done
  cases made
  exact ⟨rfl, rfl⟩

theorem Kept.of_same {h h1 h' : Hash} (same : h1.buckets = h.buckets ∧ h1.bucketCnt = h.bucketCnt)
    (kept : Kept malloc h1 h') : Kept malloc h h' := by
  rwa [Kept, same.1, same.2] at kept

theorem perform_kept {call : Call} {r : Option Addr}
    (done : perform hash less malloc t call = some (t', r)) : Kept malloc t.hash t'.hash := by
  cases call with
  | insert new =>
    obtain ⟨old, -, rest⟩ := bind_eq_some_iff.mp done
    by_cases fresh : old = none
    · simp only [if_pos fresh] at rest
      obtain ⟨t1, inserted, rest⟩ := bind_eq_some_iff.mp rest
      obtain ⟨t2, rehashed, made⟩ := bind_eq_some_iff.mp rest
      cases made
      exact (rehash_kept rehashed).of_same (insertElem_kept inserted)
    simp only [if_neg fresh] at rest
    obtain ⟨t1, same, rest⟩ := bind_eq_some_iff.mp rest
    obtain ⟨t2, rehashed, made⟩ := bind_eq_some_iff.mp rest
    cases made
    cases same
    exact rehash_kept rehashed
  | replace new =>
    obtain ⟨old, -, rest⟩ := bind_eq_some_iff.mp done
    cases old with
    | none =>
      obtain ⟨t1, same, rest⟩ := bind_eq_some_iff.mp rest
      obtain ⟨t2, inserted, rest⟩ := bind_eq_some_iff.mp rest
      obtain ⟨t3, rehashed, made⟩ := bind_eq_some_iff.mp rest
      cases made
      cases same
      exact (rehash_kept rehashed).of_same (insertElem_kept inserted)
    | some found =>
      obtain ⟨t1, removed, rest⟩ := bind_eq_some_iff.mp rest
      obtain ⟨t2, inserted, rest⟩ := bind_eq_some_iff.mp rest
      obtain ⟨t3, rehashed, made⟩ := bind_eq_some_iff.mp rest
      cases made
      exact ((rehash_kept rehashed).of_same (insertElem_kept inserted)).of_same
        (removeElem_kept removed)
  | delete e =>
    obtain ⟨found, -, rest⟩ := bind_eq_some_iff.mp done
    cases found with
    | none =>
      cases rest
      exact .inl ⟨rfl, rfl⟩
    | some elem =>
      obtain ⟨t1, removed, rest⟩ := bind_eq_some_iff.mp rest
      obtain ⟨t2, rehashed, made⟩ := bind_eq_some_iff.mp rest
      cases made
      exact (rehash_kept rehashed).of_same (removeElem_kept removed)
  | find e =>
    obtain ⟨found, -, made⟩ := Option.map_eq_some_iff.mp done
    cases made
    exact .inl ⟨rfl, rfl⟩
  | clear destructor =>
    obtain ⟨t1, cleared, made⟩ := Option.map_eq_some_iff.mp done
    cases made
    exact .inl (hashClear_kept cleared)

/-- As every object in C, a block has an address behind it. -/
def Ends (malloc : BitVec 32 → Option Addr) : Prop :=
  ∀ size block, malloc size = some block → block.toNat + size.toNat < 2 ^ 32

theorem Kept.bounded {h : Hash} (kept : Kept malloc h t.hash) (holds : Holds hash less t S)
    (ends : Ends malloc) (before : Bounded h) : Bounded t.hash := by
  rcases kept with ⟨buckets, count⟩ | ⟨wanted, got⟩
  · rw [Bounded, buckets, count]
    exact before
  have small := holds.card_lt
  rw [← holds.count] at small
  obtain ⟨n, k, found, -, -, bound⟩ := newBucketCnt_spec t.hash.elemCnt
  obtain rfl : n = t.hash.bucketCnt := Option.some.inj (found.symm.trans wanted)
  have block := ends _ _ got
  have sixteen : (16 : BitVec 32).toNat = 16 := rfl
  rw [BitVec.toNat_mul, sixteen] at block
  rw [Bounded]
  omega

theorem hashInit_bounded (ends : Ends malloc) (made : hashInit malloc m = some (t, true)) :
    Holds hash less t ∅ ∧ Bounded t.hash := by
  have size : (16 * 4 : BitVec 32) = 64 := rfl
  cases got : malloc 64 with
  | none =>
    rw [hashInit, size, got] at made
    cases made
  | some buckets =>
    have block : buckets.toNat + 64 < 2 ^ 32 := ends 64 buckets got
    obtain ⟨t1, init, holds⟩ : ∃ t, hashInit malloc m = some (t, true) ∧ Holds hash less t ∅ :=
      hashInit_holds got (Nat.le_of_lt block) m
    obtain rfl : t1 = t := congrArg Prod.fst (Option.some.inj (init.symm.trans made))
    rw [hashInit, size, got] at made
    obtain ⟨t2, cleared, same⟩ := bind_eq_some_iff.mp made
    cases same
    have kept := hashClear_kept cleared
    refine ⟨holds, ?_⟩
    rw [Bounded, kept.1, kept.2]
    exact block

/-- In every state that calls on a new table can reach, with memory for new buckets running out
at any moment, the loop with an iterator returns each stored element once and then the null
pointer.  `hash_apply` hands the same sequence to its action. -/
theorem hash_iteration (fit : Consistent hash less) {malloc : BitVec 32 → Option Addr}
    (ends : Ends malloc) (m : Mem Addr) {t : Table} (made : hashInit malloc m = some (t, true))
    {w : World} (reach : Reachable ⟨t, ∅⟩ (step hash less)
      (fun w a => Proper a.malloc w.table.hash w.set a.call ∧ Ends a.malloc) w) :
    ∃ es : List Addr, es.Nodup ∧ (∀ e, e ∈ es ↔ e ∈ w.set) ∧
      visit w.table walkLimit (hashFirst w.table) = some es ∧
      ∀ (σ : Type) (action : σ → Addr → σ) (s : σ),
        hashApply action w.table s = some (es.foldl action s) := by
  have inv : Holds hash less w.table w.set ∧ Bounded w.table.hash := by
    refine reach.invariant (P := fun w => Holds hash less w.table w.set ∧ Bounded w.table.hash)
      (hashInit_bounded ends made) ?_
    intro w a w' before proper taken
    obtain ⟨t', r, performed, -, after⟩ := before.1.perform fit a.call proper.1
    rw [step, performed] at taken
    cases taken
    exact ⟨after, (perform_kept performed).bounded after proper.2 before.2⟩
  obtain ⟨es, nodup, members, visited, applied⟩ := Holds.iterate inv.1 inv.2
  exact ⟨es, nodup, members, visited, fun σ action s => applied action s⟩

end

def firstBlock (size : BitVec 32) : Option Addr :=
  if size = 64 then some 4096 else none

def emptyTable : Table :=
  ⟨initLoop (fun _ _ => none) 4096 4, ⟨0, 4, 4096⟩⟩

theorem firstBlock_init : hashInit firstBlock (fun _ _ => none) = some (emptyTable, true) := rfl

theorem firstBlock_ends : Ends firstBlock := by
  intro size block got
  simp only [firstBlock, Option.ite_none_right_eq_some] at got
  obtain ⟨rfl, same⟩ := got
  cases same
  decide

theorem hash_iteration_insert : ∃ w : World, w.set = {8192} ∧
    visit w.table walkLimit (hashFirst w.table) = some [8192] ∧
    hashApply (fun seen e => seen ++ [e]) w.table [] = some [8192] := by
  have start : Holds id byAddress emptyTable ∅ :=
    (hashInit_bounded firstBlock_ends firstBlock_init).1
  obtain ⟨t', r, performed, -⟩ := start.perform byAddress_consistent _ oneBlock_proper
  let event : Event := ⟨.insert 8192, fun _ => none⟩
  have taken : step id byAddress ⟨emptyTable, ∅⟩ event =
      some ⟨t', setAfter byAddress ∅ event.call⟩ := by
    rw [step, performed]
    rfl
  have proper : Proper event.malloc emptyTable.hash ∅ event.call ∧ Ends event.malloc :=
    ⟨oneBlock_proper, fun _ _ got => by cases got⟩
  obtain ⟨es, nodup, members, visited, applied⟩ := hash_iteration byAddress_consistent
    firstBlock_ends _ firstBlock_init (Reachable.start.next proper taken)
  have set : setAfter byAddress ∅ event.call = {8192} := rfl
  have only : es = [8192] := by
    refine List.perm_singleton.mp ((List.perm_ext_iff_of_nodup nodup (by simp)).mpr fun e => ?_)
    rw [members, set]
    simp
  rw [only] at visited applied
  exact ⟨_, set, visited, applied _ _ _⟩

end Pintos.HashIter
