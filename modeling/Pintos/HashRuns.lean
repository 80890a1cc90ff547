import Pintos.HashTable
import Pintos.Transition

/-! The hash table refines a finite set keyed by equality under `less`.  `Holds`
ties a table to the set of its elements: the bucket count is a power of two, each
element is in the bucket its hash selects, and the nodes of the table do not
overlap.  Every operation answers from the set and keeps the relation, whether or
not `rehash` gets its memory. -/

namespace Pintos.HashRuns
open LinkedNodes KernelList HashTable Transition Function
open Option (bind_eq_bind bind_some)
open Finset (erase_subset mem_filter mem_insert sdiff_empty sdiff_subset)

/-- The eight bytes of one node do not overlap those of the other. -/
def Apart (a b : Addr) : Prop :=
  a.toNat + 8 ≤ b.toNat ∨ b.toNat + 8 ≤ a.toNat

/-- The nodes of a table that holds `S`: its elements and the sentinels of its buckets. -/
def Node (h : Hash) (S : Finset Addr) (a : Addr) : Prop :=
  a ∈ S ∨ ∃ i, a ∈ (h.refs i).span []

/-- Each element of `S` is in the bucket that its hash selects, and nothing else is in one. -/
structure Stored (hash : Addr → BitVec 32) (h : Hash) (S : Finset Addr)
    (xs : Fin h.bucketCnt.toNat → List Addr) : Prop where
  placed : ∀ k, ∀ e ∈ xs k, (spot hash h e).toNat = k
  members : ∀ e, (∃ k, e ∈ xs k) ↔ e ∈ S

structure Holds (hash : Addr → BitVec 32) (less : Addr → Addr → Bool) (t : Table)
    (S : Finset Addr) : Prop where
  power : ∃ k, 2 ≤ k ∧ t.hash.bucketCnt.toNat = 2 ^ k
  room : t.hash.buckets.toNat + 16 * t.hash.bucketCnt.toNat ≤ 2 ^ 32
  count : t.hash.elemCnt.toNat = S.card
  unique : ∀ a ∈ S, ∀ b ∈ S, same less a b → a = b
  spaced : ∀ a b, Node t.hash S a → Node t.hash S b → a ≠ b → Apart a b
  lists : ∃ xs, Lists t.mem t.hash.refs xs ∧ Stored hash t.hash S xs

def matching (less : Addr → Addr → Bool) (S : Finset Addr) (e : Addr) : Finset Addr :=
  S.filter fun s => same less s e

variable {hash : Addr → BitVec 32} {less : Addr → Addr → Bool} {t : Table} {S : Finset Addr}

theorem Holds.positive (holds : Holds hash less t S) : 0 < t.hash.bucketCnt.toNat := by
  obtain ⟨k, -, power⟩ := holds.power
  rw [power]
  exact Nat.two_pow_pos k

/-- Nodes of eight bytes: there are fewer elements than 2^29. -/
theorem Holds.card_lt (holds : Holds hash less t S) : S.card < 2 ^ 29 := by
  obtain ⟨xs, lists, stored⟩ := holds.lists
  let first : Fin t.hash.bucketCnt.toNat := ⟨0, holds.positive⟩
  have sentinel : Node t.hash S (t.hash.refs first).head :=
    .inr ⟨first, by simp [ListRef.span]⟩
  have fresh : (t.hash.refs first).head ∉ S := by
    intro member
    obtain ⟨k, inside⟩ := (stored.members _).mpr member
    exact lists.sentinel_off (i := first) (by simp [ListRef.span]) k inside
  have injective : Set.InjOn (fun a : Addr => a.toNat / 8)
      (insert (t.hash.refs first).head S : Finset Addr) := by
    intro a memberA b memberB equal
    by_contra differ
    have node : ∀ x ∈ insert (t.hash.refs first).head S, Node t.hash S x := by
      intro x member
      rcases mem_insert.mp member with rfl | inside
      · exact sentinel
      · exact .inl inside
    have apart := holds.spaced a b (node a memberA) (node b memberB) differ
    simp only [Apart] at apart
    simp only at equal
    omega
  have bounded := Finset.card_le_card_of_injOn (t := Finset.range (2 ^ 29))
    (fun a : Addr => a.toNat / 8) (fun a _ => by
      have := a.isLt
      simp only [Finset.coe_range, Set.mem_Iio]
      omega) injective
  rw [Finset.card_insert_of_notMem fresh, Finset.card_range] at bounded
  omega

/-- `less` orders the elements and `hash` agrees on those that are equal under it. -/
structure Consistent (hash : Addr → BitVec 32) (less : Addr → Addr → Bool) : Prop where
  order : IsStrictWeakOrder Addr fun a b => less a b = true
  agree : ∀ a b, same less a b → hash a = hash b

theorem Consistent.refl (fit : Consistent hash less) (a : Addr) : same less a a := by
  have irrefl := fit.order.irrefl a
  simp only [Bool.not_eq_true] at irrefl
  simp [same, irrefl]
variable {a b e : Addr} {h : Hash} {T : Finset Addr} {malloc : BitVec 32 → Option Addr}

theorem same_symm (equal : same less a b) : same less b a := by
  simpa [same, and_comm] using equal

theorem Consistent.trans (fit : Consistent hash less) {c : Addr} (first : same less a b)
    (second : same less b c) : same less a c := by
  simp only [same, Bool.and_eq_true, Bool.not_eq_true'] at first second ⊢
  have whole := fit.order.incomp_trans a b c (by simp [first]) (by simp [second])
  simpa using whole

theorem Holds.find (holds : Holds hash less t S) (fit : Consistent hash less) (e : Addr) :
    ∃ r, findElem less t.mem (findBucket hash t.hash e) e = some r ∧
      r.toFinset = matching less S e := by
  obtain ⟨xs, lists, stored⟩ := holds.lists
  obtain ⟨k, place⟩ : ∃ k : Fin t.hash.bucketCnt.toNat, (spot hash t.hash e).toNat = k :=
    ⟨⟨_, spot_lt holds.positive e⟩, rfl⟩
  refine ⟨(xs k).find? fun s => same less s e, ?_, ?_⟩
  · rw [findBucket_eq place]
    exact findElem_spec (lists.shows k) e
  have inBucket : ∀ s ∈ S, same less s e → s ∈ xs k := by
    intro s member equal
    obtain ⟨j, inside⟩ := (stored.members s).mpr member
    have spots : spot hash t.hash s = spot hash t.hash e := by
      rw [spot, spot, fit.agree s e equal]
    have index := stored.placed j s inside
    rw [spots, place] at index
    rwa [Fin.ext index]
  ext s
  rw [Option.mem_toFinset, matching, mem_filter]
  cases found : (xs k).find? fun s => same less s e with
  | none =>
    have missing := List.find?_eq_none.mp found
    constructor
    · intro impossible
      cases impossible
    · intro inside
      exact absurd inside.2 (missing s (inBucket s inside.1 inside.2))
  | some r =>
    have equal : same less r e := by simpa using List.find?_some found
    have member : r ∈ S := (stored.members r).mp ⟨k, List.mem_of_find?_eq_some found⟩
    constructor
    · rintro ⟨⟩
      exact ⟨member, equal⟩
    · intro inside
      have only := holds.unique r member s inside.1 (fit.trans equal (same_symm inside.2))
      rw [only]
      rfl

/-- The element `e` overlaps no other node of the table and is no sentinel of it. -/
def Placeable (h : Hash) (S : Finset Addr) (e : Addr) : Prop :=
  (∀ a ∈ S, a ≠ e → Apart a e) ∧ ∀ i, ∀ a ∈ (h.refs i).span [], Apart a e

theorem Placeable.mono (placeable : Placeable h S e) (fewer : T ⊆ S) : Placeable h T e :=
  ⟨fun a member => placeable.1 a (fewer member), placeable.2⟩

theorem Apart.symm (apart : Apart a b) : Apart b a :=
  Or.symm apart

theorem Apart.ne (apart : Apart a b) : a ≠ b := by
  rintro rfl
  simp only [Apart] at apart
  omega

theorem Placeable.node (placeable : Placeable h S e) (node : Node h S a) (differ : a ≠ e) :
    Apart a e := by
  rcases node with member | ⟨i, sentinel⟩
  · exact placeable.1 a member differ
  · exact placeable.2 i a sentinel

theorem node_insert (node : Node h (insert e S) a) : a = e ∨ Node h S a := by
  rcases node with member | sentinel
  · rcases mem_insert.mp member with equal | inside
    · exact .inl equal
    · exact .inr (.inl inside)
  · exact .inr (.inr sentinel)

theorem Node.mono (fewer : T ⊆ S) (node : Node h T a) : Node h S a :=
  node.imp_left fun member => fewer member

theorem Stored.push {xs : Fin h.bucketCnt.toNat → List Addr} (stored : Stored hash h S xs)
    {k : Fin h.bucketCnt.toNat} (place : (spot hash h e).toNat = k) :
    Stored hash h (insert e S) (update xs k (e :: xs k)) := by
  constructor
  · intro j s member
    by_cases equal : j = k
    · subst equal
      rw [update_self] at member
      rcases List.mem_cons.mp member with rfl | inside
      · exact place
      · exact stored.placed j s inside
    · rw [update_of_ne equal] at member
      exact stored.placed j s member
  · intro s
    rw [mem_insert, ← stored.members s]
    constructor
    · rintro ⟨j, member⟩
      by_cases equal : j = k
      · subst equal
        rw [update_self] at member
        exact (List.mem_cons.mp member).imp_right fun inside => ⟨j, inside⟩
      · rw [update_of_ne equal] at member
        exact .inr ⟨j, member⟩
    · rintro (rfl | ⟨j, member⟩)
      · exact ⟨k, by simp⟩
      · by_cases equal : j = k
        · subst equal
          exact ⟨j, by simp [member]⟩
        · exact ⟨j, by rwa [update_of_ne equal]⟩

theorem Stored.drop {xs : Fin h.bucketCnt.toNat → List Addr} (stored : Stored hash h S xs)
    {k : Fin h.bucketCnt.toNat} {ys zs : List Addr} (split : xs k = ys ++ e :: zs)
    (gone : ∀ j, e ∉ update xs k (ys ++ zs) j) :
    Stored hash h (S.erase e) (update xs k (ys ++ zs)) := by
  have fewer : ∀ j, ∀ s ∈ update xs k (ys ++ zs) j, s ∈ xs j := by
    intro j s member
    by_cases equal : j = k
    · subst equal
      rw [update_self] at member
      rw [split]
      simp only [List.mem_append, List.mem_cons] at member ⊢
      tauto
    · rwa [update_of_ne equal] at member
  constructor
  · exact fun j s member => stored.placed j s (fewer j s member)
  intro s
  rw [Finset.mem_erase, ← stored.members s]
  constructor
  · rintro ⟨j, member⟩
    refine ⟨?_, j, fewer j s member⟩
    rintro rfl
    exact gone j member
  rintro ⟨differ, j, member⟩
  refine ⟨j, ?_⟩
  by_cases equal : j = k
  · subst equal
    rw [update_self]
    rw [split] at member
    simp only [List.mem_append, List.mem_cons] at member ⊢
    tauto
  · rwa [update_of_ne equal]

theorem Holds.grow (holds : Holds hash less t S) (fit : Consistent hash less)
    (missing : matching less S e = ∅) (placeable : Placeable t.hash S e) :
    ∃ m, insertElem t (findBucket hash t.hash e) e =
        some ⟨m, { t.hash with elemCnt := t.hash.elemCnt + 1 }⟩ ∧
      Holds hash less ⟨m, { t.hash with elemCnt := t.hash.elemCnt + 1 }⟩ (insert e S) := by
  obtain ⟨xs, lists, stored⟩ := holds.lists
  have unequal : ∀ s ∈ S, ¬ same less s e := by
    intro s member
    exact (Finset.filter_eq_empty_iff.mp missing) member
  have fresh : e ∉ S := fun member => unequal e member (fit.refl e)
  have small := holds.card_lt
  obtain ⟨k, place⟩ : ∃ k : Fin t.hash.bucketCnt.toNat, (spot hash t.hash e).toNat = k :=
    ⟨⟨_, spot_lt holds.positive e⟩, rfl⟩
  have off : ∀ j, e ∉ (t.hash.refs j).span (xs j) := by
    intro j member
    rcases ListRef.mem_span.mp member with sentinel | inside
    · exact (placeable.2 j e sentinel).ne rfl
    · exact fresh ((stored.members e).mp ⟨j, inside⟩)
  obtain ⟨m, pushed, after⟩ := lists.pushFront k off
  refine ⟨m, ?_, ⟨holds.power, holds.room, ?_, ?_, ?_, ⟨_, after, ?_⟩⟩⟩
  · simp [insertElem, findBucket_eq place, pushed]
  · have grown : (t.hash.elemCnt + 1).toNat = t.hash.elemCnt.toNat + 1 := by
      have count := holds.count
      have one : (1 : BitVec 32).toNat = 1 := rfl
      rw [BitVec.toNat_add]
      omega
    rw [Finset.card_insert_of_notMem fresh, ← holds.count, ← grown]
  · intro a memberA b memberB equal
    rcases mem_insert.mp memberA with rfl | inA
    · rcases mem_insert.mp memberB with rfl | inB
      · rfl
      · exact absurd (same_symm equal) (unequal b inB)
    · rcases mem_insert.mp memberB with rfl | inB
      · exact absurd equal (unequal a inA)
      · exact holds.unique a inA b inB equal
  · intro a b nodeA nodeB differ
    rcases node_insert nodeA with rfl | inA
    · rcases node_insert nodeB with rfl | inB
      · exact absurd rfl differ
      · exact (placeable.node inB differ.symm).symm
    · rcases node_insert nodeB with rfl | inB
      · exact placeable.node inA differ
      · exact holds.spaced a b inA inB differ
  · have now := stored.push place
    exact ⟨now.placed, now.members⟩

theorem Holds.shrink (holds : Holds hash less t S) (member : e ∈ S) :
    ∃ m, removeElem t e = some ⟨m, { t.hash with elemCnt := t.hash.elemCnt - 1 }⟩ ∧
      Holds hash less ⟨m, { t.hash with elemCnt := t.hash.elemCnt - 1 }⟩ (S.erase e) := by
  obtain ⟨xs, lists, stored⟩ := holds.lists
  obtain ⟨k, inside⟩ := (stored.members e).mpr member
  obtain ⟨ys, zs, split⟩ := List.append_of_mem inside
  obtain ⟨m, removed, after⟩ := lists.remove split
  have fewer : S.erase e ⊆ S := erase_subset e S
  refine ⟨m, ?_, ⟨holds.power, holds.room, ?_, ?_, ?_, ⟨_, after, ?_⟩⟩⟩
  · simp [removeElem, removed]
  · have positive := Finset.card_pos.mpr ⟨e, member⟩
    have shrunk : (t.hash.elemCnt - 1).toNat = t.hash.elemCnt.toNat - 1 := by
      have count := holds.count
      have one : (1 : BitVec 32).toNat = 1 := rfl
      rw [BitVec.toNat_sub]
      omega
    rw [Finset.card_erase_of_mem member, ← holds.count, ← shrunk]
  · exact fun a inA b inB => holds.unique a (fewer inA) b (fewer inB)
  · exact fun a b nodeA nodeB => holds.spaced a b (nodeA.mono fewer) (nodeB.mono fewer)
  · have gone : ∀ j, e ∉ update xs k (ys ++ zs) j := fun j still =>
      lists.removed_off split j (ListRef.mem_span.mpr (.inr still))
    have now := stored.drop split gone
    exact ⟨now.placed, now.members⟩

def Grants (malloc : BitVec 32 → Option Addr) (h : Hash) (S : Finset Addr) : Prop :=
  ∀ size block, malloc size = some block → block.toNat + size.toNat ≤ 2 ^ 32 ∧
    ∀ a, Node h S a → a.toNat + 8 ≤ block.toNat ∨ block.toNat + size.toNat ≤ a.toNat

section
variable {new : Addr} {count : BitVec 32}

theorem array_off (room : new.toNat + 16 * count.toNat ≤ 2 ^ 32)
    (off : ∀ a, Node t.hash S a → a.toNat + 8 ≤ new.toNat ∨ new.toNat + 16 * count.toNat ≤ a.toNat)
    (node : Node t.hash S a) {i : Fin count.toNat}
    (sentinel : b ∈ (refs new count.toNat i).span []) : Apart a b := by
  have inside := mem_refs room sentinel
  have below := i.isLt
  have outside := off a node
  simp only [Apart]
  omega

theorem array_spaced (room : new.toNat + 16 * count.toNat ≤ 2 ^ 32) {i j : Fin count.toNat}
    (atI : a ∈ (refs new count.toNat i).span []) (atJ : b ∈ (refs new count.toNat j).span [])
    (differ : a ≠ b) : Apart a b := by
  have first := mem_refs room atI
  have second := mem_refs room atJ
  have distinct : a.toNat ≠ b.toNat := fun equal => differ (BitVec.eq_of_toNat_eq equal)
  simp only [Apart]
  omega

theorem Holds.moving (holds : Holds hash less t S)
    (room : new.toNat + 16 * count.toNat ≤ 2 ^ 32)
    (off : ∀ a, Node t.hash S a →
      a.toNat + 8 ≤ new.toNat ∨ new.toNat + 16 * count.toNat ≤ a.toNat) :
    ∃ ys, Moving hash { t.hash with buckets := new, bucketCnt := count } t.hash.buckets
      t.hash.bucketCnt.toNat S (initLoop t.mem new count.toNat) ys := by
  obtain ⟨xs, lists, stored⟩ := holds.lists
  have fresh := initLoop_lists room t.mem
  have node : ∀ i, ∀ a ∈ (t.hash.refs i).span (xs i), Node t.hash S a := by
    intro i a member
    rcases ListRef.mem_span.mp member with sentinel | inside
    · exact .inr ⟨i, sentinel⟩
    · exact .inl ((stored.members a).mp ⟨i, inside⟩)
  have kept : Lists (initLoop t.mem new count.toNat) t.hash.refs xs := by
    apply lists.frame
    intro i a member side
    apply initLoop_other
    intro j below inside
    exact (array_off room off (i := ⟨j, below⟩) (node i a member) inside).ne rfl
  refine ⟨Sum.elim xs fun _ => [], ⟨⟨?_, ?_⟩, ?_, ?_⟩⟩
  · rintro (i | k)
    · exact kept.shows i
    · exact fresh.shows k
  · rintro (i | k) (j | l) differ a member other
    · exact kept.apart i j (fun equal => differ (by rw [equal])) a member other
    · exact (array_off room off (node i a member) other).ne rfl
    · exact (array_off room off (node j a other) member).ne rfl
    · exact fresh.apart k l (fun equal => differ (by rw [equal])) a member other
  · intro k e member
    simp at member
  · intro e
    rw [← stored.members e]
    simp

theorem Holds.rehash (holds : Holds hash less t S) (grants : Grants malloc t.hash S) :
    ∃ t', HashTable.rehash hash malloc t = some t' ∧ Holds hash less t' S := by
  obtain ⟨count, k, wanted, power, atLeast, small⟩ := newBucketCnt_spec t.hash.elemCnt
  have few := holds.card_lt
  by_cases unchanged : count = t.hash.bucketCnt
  · exact ⟨t, by simp [HashTable.rehash, wanted, unchanged], holds⟩
  cases got : malloc (16 * count) with
  | none =>
    refine ⟨t, ?_, holds⟩
    simp only [HashTable.rehash, wanted, bind_eq_bind, bind_some, if_neg unchanged, got]
    rfl
  | some new =>
    obtain ⟨room, off⟩ := grants _ _ got
    have size : (16 * count).toNat = 16 * count.toNat := by
      have sixteen : (16 : BitVec 32).toNat = 16 := rfl
      have bound := holds.count
      rw [BitVec.toNat_mul, sixteen]
      omega
    rw [size] at room off
    obtain ⟨ys, moving⟩ := holds.moving room off
    have positive : 0 < count.toNat := by
      rw [power]
      exact Nat.two_pow_pos k
    obtain ⟨m, ys', walked, moved, empty⟩ := moving.loop positive
    refine ⟨⟨m, { t.hash with buckets := new, bucketCnt := count }⟩, ?_, ?_⟩
    · simp only [HashTable.rehash, wanted, bind_eq_bind, bind_some, if_neg unchanged, got, walked]
      rfl
    refine ⟨⟨k, atLeast, power⟩, room, holds.count, holds.unique, ?_,
      ⟨fun k => ys' (.inr k), ⟨fun k => moved.lists.shows (.inr k),
        fun _ _ differ => moved.lists.apart _ _ fun same => differ (Sum.inr_injective same)⟩,
        ⟨moved.placed, ?_⟩⟩⟩
    · rintro a b (inA | ⟨i, atI⟩) (inB | ⟨j, atJ⟩) differ
      · exact holds.spaced a b (.inl inA) (.inl inB) differ
      · exact array_off room off (.inl inA) atJ
      · exact (array_off room off (.inl inB) atI).symm
      · exact array_spaced room atI atJ differ
    intro e
    rw [← moved.members e]
    constructor
    · rintro ⟨k, member⟩
      exact ⟨.inr k, member⟩
    · rintro ⟨x | k, member⟩
      · rw [empty x] at member
        cases member
      · exact ⟨k, member⟩

end

theorem Grants.mono (grants : Grants malloc h S) (fewer : T ⊆ S) : Grants malloc h T :=
  fun size block got => ⟨(grants size block got).1,
    fun a node => (grants size block got).2 a (node.mono fewer)⟩

inductive Call where
  | insert (new : Addr)
  | replace (new : Addr)
  | delete (e : Addr)
  | find (e : Addr)
  | clear (destructor : Option Action)

def perform (hash : Addr → BitVec 32) (less : Addr → Addr → Bool)
    (malloc : BitVec 32 → Option Addr) (t : Table) : Call → Option (Table × Option Addr)
  | .insert new => hashInsert hash less malloc t new
  | .replace new => hashReplace hash less malloc t new
  | .delete e => hashDelete hash less malloc t e
  | .find e => (hashFind hash less t e).map fun found => (t, found)
  | .clear destructor => (hashClear t destructor).map fun t => (t, none)

/-- What a set keyed by equality under `less` answers: the stored element equal to the
argument, as a set of at most one element. -/
def answer (less : Addr → Addr → Bool) (S : Finset Addr) : Call → Finset Addr
  | .insert new => matching less S new
  | .replace new => matching less S new
  | .delete e => matching less S e
  | .find e => matching less S e
  | .clear _ => ∅

def setAfter (less : Addr → Addr → Bool) (S : Finset Addr) : Call → Finset Addr
  | .insert new => if matching less S new = ∅ then insert new S else S
  | .replace new => insert new (S \ matching less S new)
  | .delete e => S \ matching less S e
  | .find _ => S
  | .clear _ => ∅

def Proper (malloc : BitVec 32 → Option Addr) (h : Hash) (S : Finset Addr) : Call → Prop
  | .insert new => Placeable h S new ∧ Grants malloc h (insert new S)
  | .replace new => Placeable h S new ∧ Grants malloc h (insert new S)
  | .delete _ => Grants malloc h S
  | .find _ => True
  | .clear destructor => ∀ action ∈ destructor, Harmless action

theorem toFinset_eq_empty {r : Option Addr} (empty : r.toFinset = ∅) : r = none := by
  cases r with
  | none => rfl
  | some s => simp at empty

theorem Holds.hashInsert (holds : Holds hash less t S) (fit : Consistent hash less) {new : Addr}
    (placeable : Placeable t.hash S new) (grants : Grants malloc t.hash (insert new S)) :
    ∃ t' r, HashTable.hashInsert hash less malloc t new = some (t', r) ∧
      r.toFinset = matching less S new ∧
      Holds hash less t' (if matching less S new = ∅ then insert new S else S) := by
  obtain ⟨r, found, answer⟩ := holds.find fit new
  by_cases missing : matching less S new = ∅
  · rw [missing] at answer
    obtain rfl := toFinset_eq_empty answer
    obtain ⟨m, inserted, after⟩ := holds.grow fit missing placeable
    obtain ⟨t', rehashed, final⟩ := after.rehash grants
    refine ⟨t', none, ?_, by rw [missing]; rfl, by rwa [if_pos missing]⟩
    simp only [HashTable.hashInsert, found, bind_eq_bind, bind_some, if_true, inserted, rehashed]
    rfl
  · obtain ⟨t', rehashed, final⟩ := holds.rehash (grants.mono (Finset.subset_insert new S))
    have present : r ≠ none := by
      rintro rfl
      exact missing answer.symm
    refine ⟨t', r, ?_, answer, by rwa [if_neg missing]⟩
    simp [HashTable.hashInsert, found, present, rehashed]

theorem matching_some {s : Addr} (answer : (some s).toFinset = matching less S e) :
    s ∈ S ∧ S \ matching less S e = S.erase s := by
  rw [Option.toFinset_some] at answer
  have member : s ∈ matching less S e := by simp [← answer]
  refine ⟨(mem_filter.mp member).1, ?_⟩
  rw [← answer, Finset.sdiff_singleton_eq_erase]

theorem Holds.hashReplace (holds : Holds hash less t S) (fit : Consistent hash less) {new : Addr}
    (placeable : Placeable t.hash S new) (grants : Grants malloc t.hash (insert new S)) :
    ∃ t' r, HashTable.hashReplace hash less malloc t new = some (t', r) ∧
      r.toFinset = matching less S new ∧
      Holds hash less t' (insert new (S \ matching less S new)) := by
  obtain ⟨r, found, answer⟩ := holds.find fit new
  have clear : matching less (S \ matching less S new) new = ∅ := by
    simp only [matching, Finset.filter_eq_empty_iff, Finset.mem_sdiff, mem_filter]
    tauto
  have fewer : insert new (S \ matching less S new) ⊆ insert new S :=
    Finset.insert_subset_insert new sdiff_subset
  have placed : Placeable t.hash (S \ matching less S new) new :=
    placeable.mono sdiff_subset
  cases r with
  | none =>
    have whole : S \ matching less S new = S := by
      rw [← answer, Option.toFinset_none, sdiff_empty]
    rw [whole] at clear placed fewer ⊢
    obtain ⟨m, inserted, after⟩ := holds.grow fit clear placed
    obtain ⟨t', rehashed, final⟩ := after.rehash (grants.mono fewer)
    refine ⟨t', none, ?_, answer, final⟩
    simp only [HashTable.hashReplace, found, bind_eq_bind, bind_some, inserted, rehashed]
    rfl
  | some s =>
    obtain ⟨member, rest⟩ := matching_some answer
    rw [rest] at clear placed fewer ⊢
    obtain ⟨m1, removed, removal⟩ := holds.shrink member
    obtain ⟨m, inserted, after⟩ := removal.grow fit clear placed
    obtain ⟨t', rehashed, final⟩ := after.rehash (grants.mono fewer)
    refine ⟨t', some s, ?_, answer, final⟩
    have bucket : findBucket hash { t.hash with elemCnt := t.hash.elemCnt - 1 } new =
      findBucket hash t.hash new := rfl
    rw [bucket] at inserted
    simp only [HashTable.hashReplace, found, bind_eq_bind, bind_some, removed, inserted, rehashed]
    rfl

theorem Holds.hashDelete (holds : Holds hash less t S) (fit : Consistent hash less)
    (grants : Grants malloc t.hash S) :
    ∃ t' r, HashTable.hashDelete hash less malloc t e = some (t', r) ∧
      r.toFinset = matching less S e ∧ Holds hash less t' (S \ matching less S e) := by
  obtain ⟨r, found, answer⟩ := holds.find fit e
  cases r with
  | none =>
    have whole : S \ matching less S e = S := by
      rw [← answer, Option.toFinset_none, sdiff_empty]
    rw [whole]
    exact ⟨t, none, by simp [HashTable.hashDelete, found], answer, holds⟩
  | some s =>
    obtain ⟨member, rest⟩ := matching_some answer
    rw [rest]
    obtain ⟨m1, removed, removal⟩ := holds.shrink member
    obtain ⟨t', rehashed, final⟩ := removal.rehash (grants.mono (erase_subset s S))
    refine ⟨t', some s, ?_, answer, final⟩
    simp only [HashTable.hashDelete, found, bind_eq_bind, bind_some, removed, rehashed]
    rfl

theorem holds_empty {m : Mem Addr} (power : ∃ k, 2 ≤ k ∧ h.bucketCnt.toNat = 2 ^ k)
    (room : h.buckets.toNat + 16 * h.bucketCnt.toNat ≤ 2 ^ 32) (zero : h.elemCnt = 0)
    (lists : Lists m h.refs fun _ => []) : Holds hash less ⟨m, h⟩ ∅ where
  power := power
  room := room
  count := by simp [zero]
  unique := by simp
  spaced := by
    rintro a b (inA | ⟨i, atI⟩) (inB | ⟨j, atJ⟩) differ
    · simp at inA
    · simp at inA
    · simp at inB
    · exact array_spaced room atI atJ differ
  lists := ⟨fun _ => [], lists, ⟨by simp, by simp⟩⟩

theorem Holds.hashClear (holds : Holds hash less t S) {destructor : Option Action}
    (harmless : ∀ action ∈ destructor, Harmless action) :
    ∃ t', HashTable.hashClear t destructor = some t' ∧ Holds hash less t' ∅ := by
  obtain ⟨xs, lists, -⟩ := holds.lists
  obtain ⟨m, walked, emptied⟩ := clearLoop_spec harmless lists
  refine ⟨⟨m, { t.hash with elemCnt := 0 }⟩, ?_, ?_⟩
  · simp [HashTable.hashClear, walked]
  · exact holds_empty holds.power holds.room rfl emptied

theorem hashInit_holds {buckets : Addr} (got : malloc 64 = some buckets)
    (room : buckets.toNat + 64 ≤ 2 ^ 32) (m : Mem Addr) :
    ∃ t, hashInit malloc m = some (t, true) ∧ Holds hash less t ∅ := by
  refine ⟨⟨initLoop m buckets 4, ⟨0, 4, buckets⟩⟩, ?_, ?_⟩
  · have size : (16 * 4 : BitVec 32) = 64 := rfl
    have four : (4 : BitVec 32).toNat = 4 := rfl
    rw [hashInit, size, got]
    simp only [HashTable.hashClear, four, clearLoop_none]
    rfl
  · exact holds_empty ⟨2, le_rfl, rfl⟩ room rfl (initLoop_lists room m)

structure World where
  table : Table
  set : Finset Addr

structure Event where
  call : Call
  malloc : BitVec 32 → Option Addr

def step (hash : Addr → BitVec 32) (less : Addr → Addr → Bool) (w : World) (a : Event) :
    Option World :=
  (perform hash less a.malloc w.table a.call).map fun result =>
    ⟨result.1, setAfter less w.set a.call⟩

structure Sound (hash : Addr → BitVec 32) (t : Table) (S : Finset Addr) : Prop where
  count : t.hash.elemCnt.toNat = S.card
  power : ∃ k, 2 ≤ k ∧ t.hash.bucketCnt.toNat = 2 ^ k
  buckets : ∃ xs, Lists t.mem t.hash.refs xs ∧
    ∀ k e, e ∈ xs k ↔ e ∈ S ∧ (hash e &&& (t.hash.bucketCnt - 1)).toNat = k

theorem Holds.sound (holds : Holds hash less t S) : Sound hash t S := by
  obtain ⟨xs, lists, stored⟩ := holds.lists
  refine ⟨holds.count, holds.power, xs, lists, fun k e => ⟨fun member => ?_, fun ⟨member, at_⟩ => ?_⟩⟩
  · exact ⟨(stored.members e).mp ⟨k, member⟩, stored.placed k e member⟩
  · obtain ⟨j, inside⟩ := (stored.members e).mpr member
    have index := stored.placed j e inside
    rw [spot, at_] at index
    rwa [Fin.ext index]

theorem Holds.perform (holds : Holds hash less t S) (fit : Consistent hash less) (call : Call)
    (proper : Proper malloc t.hash S call) :
    ∃ t' r, HashRuns.perform hash less malloc t call = some (t', r) ∧
      r.toFinset = answer less S call ∧ Holds hash less t' (setAfter less S call) := by
  cases call with
  | insert new => exact holds.hashInsert fit proper.1 proper.2
  | replace new => exact holds.hashReplace fit proper.1 proper.2
  | delete e => exact holds.hashDelete fit proper
  | find e =>
    obtain ⟨r, found, matched⟩ := holds.find fit e
    exact ⟨t, r, by simp [HashRuns.perform, hashFind, found], matched, holds⟩
  | clear destructor =>
    obtain ⟨t', cleared, after⟩ := holds.hashClear proper
    exact ⟨t', none, by simp [HashRuns.perform, cleared], rfl, after⟩

/-- A table made by `hash_init` answers every sequence of calls as the set does, with
memory for new buckets running out at any moment. -/
theorem hash_refines (fit : Consistent hash less) {malloc : BitVec 32 → Option Addr}
    (room : ∀ block, malloc 64 = some block → block.toNat + 64 ≤ 2 ^ 32) (m : Mem Addr) :
    ∃ t made, hashInit malloc m = some (t, made) ∧ (made = true ↔ malloc 64 ≠ none) ∧
      (made = true → ∀ w, Reachable ⟨t, ∅⟩ (step hash less)
          (fun w a => Proper a.malloc w.table.hash w.set a.call) w →
        Sound hash w.table w.set ∧
        ∀ call malloc, Proper malloc w.table.hash w.set call →
          ∃ t' r, perform hash less malloc w.table call = some (t', r) ∧
            r.toFinset = answer less w.set call ∧ Sound hash t' (setAfter less w.set call)) := by
  cases got : malloc 64 with
  | none =>
    have size : (16 * 4 : BitVec 32) = 64 := rfl
    exact ⟨⟨m, ⟨0, 4, 0⟩⟩, false, by rw [hashInit, size, got], by simp, by simp⟩
  | some buckets =>
    obtain ⟨t, made, holds⟩ : ∃ t, hashInit malloc m = some (t, true) ∧ Holds hash less t ∅ :=
      hashInit_holds got (room _ got) m
    refine ⟨t, true, made, by simp, fun _ w reach => ?_⟩
    have inv : Holds hash less w.table w.set := by
      refine reach.invariant (P := fun w => Holds hash less w.table w.set) holds ?_
      intro w a w' before proper taken
      obtain ⟨t', r, performed, -, after⟩ := before.perform fit a.call proper
      rw [step, performed] at taken
      cases taken
      exact after
    refine ⟨inv.sound, fun call malloc proper => ?_⟩
    obtain ⟨t', r, performed, answered, after⟩ := inv.perform fit call proper
    exact ⟨t', r, performed, answered, after.sound⟩

def byAddress (a b : Addr) : Bool :=
  a.toNat < b.toNat

def oneBlock (_ : BitVec 32) : Option Addr :=
  some 4096

theorem byAddress_consistent : Consistent id byAddress where
  order := by
    simp only [byAddress, decide_eq_true_eq]
    exact { irrefl := by simp, trans := fun a b c => Nat.lt_trans, incomp_trans := by omega }
  agree := by
    intro a b equal
    simp only [same, byAddress, Bool.and_eq_true, Bool.not_eq_true', decide_eq_false_iff_not]
      at equal
    have values : a.toNat = b.toNat := by omega
    exact BitVec.eq_of_toNat_eq values

theorem oneBlock_proper : Proper (fun _ => none) ⟨0, 4, 4096⟩ ∅ (.insert 8192) := by
  refine ⟨⟨by simp, fun i a sentinel => ?_⟩, fun _ _ got => by cases got⟩
  have inside := @mem_refs 4096 4 (by decide) i a sentinel
  have below : i.val < 4 := i.isLt
  have base : (4096 : Addr).toNat = 4096 := rfl
  have limit : (8192 : Addr).toNat = 8192 := rfl
  simp only [Apart]
  omega

theorem hash_refines_insert :
    ∃ t t', hashInit oneBlock (fun _ _ => none) = some (t, true) ∧
      perform id byAddress (fun _ => none) t (.insert 8192) = some (t', none) ∧
      Sound id t' {8192} := by
  have room : ∀ block : Addr, oneBlock 64 = some block →
      block.toNat + 64 ≤ 2 ^ 32 := by
    intro block got
    cases got
    decide
  obtain ⟨t, made, init, ok, runs⟩ := hash_refines byAddress_consistent room (fun _ _ => none)
  obtain rfl : made = true := ok.mpr (by simp [oneBlock])
  obtain rfl : t = ⟨initLoop (fun _ _ => none) 4096 4, ⟨0, 4, 4096⟩⟩ :=
    congrArg Prod.fst (Option.some.inj (init.symm.trans rfl))
  obtain ⟨t', r, performed, answered, sound⟩ := (runs rfl _ .start).2 _ _ oneBlock_proper
  obtain rfl : r = none := toFinset_eq_empty (answered.trans (by simp [answer, matching]))
  exact ⟨_, t', init, performed, by simpa [setAfter, matching] using sound⟩

end Pintos.HashRuns
