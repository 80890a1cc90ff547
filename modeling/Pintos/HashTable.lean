import Pintos.KernelList
import Mathlib.Data.Finset.Option
import Mathlib.Data.Finset.Card
import Mathlib.Data.Nat.Bitwise
import Mathlib.Order.Defs.Unbundled

/-! The hash table of `lib/kernel/hash.c`: an array of buckets, each a list of
`list.c`.  A `struct hash_elem` is its `struct list_elem`, so elements are node
addresses.  The functions `hash` and `less` of a table are parameters; `malloc` is
any function of the size asked for and may fail at every call.  `free` touches no
node of the table and is left out. -/

namespace Pintos.HashTable
open LinkedNodes KernelList Function

abbrev Addr := BitVec 32

structure Hash where
  elemCnt : BitVec 32
  bucketCnt : BitVec 32
  buckets : Addr

structure Table where
  mem : Mem Addr
  hash : Hash

/-- `&buckets[i]`: a `struct list` is 16 bytes, its tail sentinel at offset 8. -/
def bucketAt (buckets : Addr) (i : BitVec 32) : ListRef Addr :=
  ⟨buckets + 16 * i, buckets + 16 * i + 8⟩

/-- No walk over distinct nodes is longer than the address space. -/
def walkLimit : Nat := 2 ^ 32

def turnOffLeast1bit (x : BitVec 32) : BitVec 32 :=
  x &&& (x - 1)

def isPowerOf2 (x : BitVec 32) : Bool :=
  x != 0 && turnOffLeast1bit x == 0

def powerLoop : Nat → BitVec 32 → Option (BitVec 32)
  | 0, _ => none
  | fuel + 1, x => if isPowerOf2 x then some x else powerLoop fuel (turnOffLeast1bit x)

def newBucketCnt (elemCnt : BitVec 32) : Option (BitVec 32) :=
  let count := elemCnt / 2
  powerLoop walkLimit (if count < 4 then 4 else count)

def initLoop (m : Mem Addr) (buckets : Addr) : Nat → Mem Addr
  | 0 => m
  | i + 1 => listInit (initLoop m buckets i) (bucketAt buckets (BitVec.ofNat 32 i))

abbrev Action := Mem Addr → Addr → Mem Addr

def popLoop (destructor : Action) (bucket : ListRef Addr) : Nat → Mem Addr → Option (Mem Addr)
  | 0, _ => none
  | fuel + 1, m =>
    if listEmpty m bucket then some m
    else do
      let (m, listElem) ← listPopFront m bucket
      popLoop destructor bucket fuel (destructor m (← listElem))

def clearBucket (destructor : Option Action) (m : Mem Addr) (bucket : ListRef Addr) :
    Option (Mem Addr) := do
  let m ← match destructor with
    | some action => popLoop action bucket walkLimit m
    | none => some m
  return listInit m bucket

def clearLoop (destructor : Option Action) (m : Mem Addr) (buckets : Addr) : Nat → Option (Mem Addr)
  | 0 => some m
  | i + 1 => do
    let m ← clearLoop destructor m buckets i
    clearBucket destructor m (bucketAt buckets (BitVec.ofNat 32 i))

def hashClear (t : Table) (destructor : Option Action) : Option Table := do
  let m ← clearLoop destructor t.mem t.hash.buckets t.hash.bucketCnt.toNat
  return ⟨m, { t.hash with elemCnt := 0 }⟩

def hashInit (malloc : BitVec 32 → Option Addr) (m : Mem Addr) : Option (Table × Bool) :=
  match malloc (16 * 4) with
  | some buckets => do
    let t ← hashClear ⟨m, ⟨0, 4, buckets⟩⟩ none
    return (t, true)
  | none => some (⟨m, ⟨0, 4, 0⟩⟩, false)

section
variable (hash : Addr → BitVec 32) (less : Addr → Addr → Bool)

def findBucket (h : Hash) (e : Addr) : ListRef Addr :=
  bucketAt h.buckets (hash e &&& (h.bucketCnt - 1))

def findLoop (m : Mem Addr) (last : Option Addr) (e : Addr) : Nat → Option Addr →
    Option (Option Addr)
  | 0, _ => none
  | fuel + 1, i =>
    if i = last then some none
    else do
      let hi ← i
      if !less hi e && !less e hi then
        return some hi
      findLoop m last e fuel (← listNext m i)

def findElem (m : Mem Addr) (bucket : ListRef Addr) (e : Addr) : Option (Option Addr) :=
  findLoop less m (listEnd bucket) e walkLimit (listBegin m bucket)

/-- The inner loop of `rehash`, over the elements of one old bucket. -/
def moveElems (h : Hash) (last : Option Addr) : Nat → Mem Addr → Option Addr → Option (Mem Addr)
  | 0, _, _ => none
  | fuel + 1, m, elem =>
    if elem = last then some m
    else do
      let newBucket := findBucket hash h (← elem)
      let next ← listNext m elem
      let (m, _) ← listRemove m elem
      let m ← listPushFront m newBucket elem
      moveElems h last fuel m next

def moveLoop (h : Hash) (m : Mem Addr) (oldBuckets : Addr) : Nat → Option (Mem Addr)
  | 0 => some m
  | i + 1 => do
    let m ← moveLoop h m oldBuckets i
    let oldBucket := bucketAt oldBuckets (BitVec.ofNat 32 i)
    moveElems hash h (listEnd oldBucket) walkLimit m (listBegin m oldBucket)

def rehash (malloc : BitVec 32 → Option Addr) (t : Table) : Option Table := do
  let count ← newBucketCnt t.hash.elemCnt
  if count = t.hash.bucketCnt then
    return t
  match malloc (16 * count) with
  | none => return t
  | some newBuckets =>
    let m := initLoop t.mem newBuckets count.toNat
    let h := { t.hash with buckets := newBuckets, bucketCnt := count }
    let m ← moveLoop hash h m t.hash.buckets t.hash.bucketCnt.toNat
    return ⟨m, h⟩

def insertElem (t : Table) (bucket : ListRef Addr) (e : Addr) : Option Table := do
  let m ← listPushFront t.mem bucket (some e)
  return ⟨m, { t.hash with elemCnt := t.hash.elemCnt + 1 }⟩

def removeElem (t : Table) (e : Addr) : Option Table := do
  let (m, _) ← listRemove t.mem (some e)
  return ⟨m, { t.hash with elemCnt := t.hash.elemCnt - 1 }⟩

def hashInsert (malloc : BitVec 32 → Option Addr) (t : Table) (new : Addr) :
    Option (Table × Option Addr) := do
  let bucket := findBucket hash t.hash new
  let old ← findElem less t.mem bucket new
  let t ← if old = none then insertElem t bucket new else some t
  let t ← rehash hash malloc t
  return (t, old)

def hashReplace (malloc : BitVec 32 → Option Addr) (t : Table) (new : Addr) :
    Option (Table × Option Addr) := do
  let bucket := findBucket hash t.hash new
  let old ← findElem less t.mem bucket new
  let t ← match old with
    | some found => removeElem t found
    | none => some t
  let t ← insertElem t bucket new
  let t ← rehash hash malloc t
  return (t, old)

def hashFind (t : Table) (e : Addr) : Option (Option Addr) :=
  findElem less t.mem (findBucket hash t.hash e) e

def hashDelete (malloc : BitVec 32 → Option Addr) (t : Table) (e : Addr) :
    Option (Table × Option Addr) := do
  let found ← findElem less t.mem (findBucket hash t.hash e) e
  match found with
  | some elem =>
    let t ← removeElem t elem
    let t ← rehash hash malloc t
    return (t, found)
  | none => return (t, found)

end

/-- Turning off the lowest bit of a number that has another keeps the highest. -/
theorem two_pow_le_land {k x : Nat} (low : 2 ^ k ≤ x) (high : x < 2 ^ (k + 1)) (other : x ≠ 2 ^ k) :
    2 ^ k ≤ x &&& (x - 1) := by
  have bit : x.testBit k = true := Nat.testBit_of_two_pow_le_and_two_pow_add_one_gt low high
  have bitBelow : (x - 1).testBit k = true :=
    Nat.testBit_of_two_pow_le_and_two_pow_add_one_gt (by omega) (by omega)
  apply Nat.ge_two_pow_of_testBit
  rw [Nat.testBit_and, bit, bitBelow, Bool.and_self]

theorem turnOffLeast1bit_toNat {x : BitVec 32} (nonzero : x ≠ 0#32) :
    (turnOffLeast1bit x).toNat = x.toNat &&& (x.toNat - 1) := by
  have positive : x.toNat ≠ 0 := fun zero => nonzero (BitVec.eq_of_toNat_eq zero)
  have pred : (x - 1).toNat = x.toNat - 1 := by
    bv_omega
  rw [turnOffLeast1bit, BitVec.toNat_and, pred]
variable {fuel : Nat} {list : ListRef Addr}

theorem powerLoop_spec {k : Nat} {x : BitVec 32} (low : 2 ^ k ≤ x.toNat)
    (high : x.toNat < 2 ^ (k + 1)) (enough : x.toNat < fuel) :
    ∃ n, powerLoop fuel x = some n ∧ n.toNat = 2 ^ k := by
  induction fuel generalizing x with
  | zero => omega
  | succ fuel ih =>
    have positive := Nat.two_pow_pos k
    have nonzero : x ≠ 0#32 := by
      rintro rfl
      simp at low
    have off := turnOffLeast1bit_toNat nonzero
    by_cases power : x.toNat = 2 ^ k
    · refine ⟨x, ?_, power⟩
      have cleared : turnOffLeast1bit x = 0 := by
        apply BitVec.eq_of_toNat_eq
        rw [off, power, Nat.and_two_pow_sub_one_eq_mod]
        simp
      simp [powerLoop, isPowerOf2, nonzero, cleared]
    have kept := two_pow_le_land low high power
    have fewer : x.toNat &&& (x.toNat - 1) ≤ x.toNat - 1 := Nat.and_le_right
    have notYet : isPowerOf2 x = false := by
      have remains : turnOffLeast1bit x ≠ 0#32 := by
        intro zero
        rw [zero] at off
        simp at off
        omega
      simp [isPowerOf2, remains]
    rw [powerLoop, notYet]
    exact ih (by omega) (by omega) (by omega)

theorem newBucketCnt_spec (elemCnt : BitVec 32) : ∃ n k, newBucketCnt elemCnt = some n ∧
    n.toNat = 2 ^ k ∧ 2 ≤ k ∧ n.toNat ≤ max 4 (elemCnt.toNat / 2) := by
  have half : (elemCnt / 2).toNat = elemCnt.toNat / 2 := by simp
  have least : (if elemCnt / 2 < 4 then 4 else elemCnt / 2).toNat = max 4 (elemCnt.toNat / 2) := by
    split
    · next small =>
      have below : (elemCnt / 2).toNat < 4 := small
      rw [half] at below
      have four : (4 : BitVec 32).toNat = 4 := rfl
      omega
    · next large =>
      have above : ¬ (elemCnt / 2).toNat < 4 := large
      omega
  have wanted : 4 ≤ max 4 (elemCnt.toNat / 2) := le_max_left _ _
  have bits := Nat.log2_self_le (by omega : max 4 (elemCnt.toNat / 2) ≠ 0)
  have below : max 4 (elemCnt.toNat / 2) < 2 ^ ((max 4 (elemCnt.toNat / 2)).log2 + 1) :=
    Nat.lt_log2_self
  have fits := elemCnt.isLt
  have enough : max 4 (elemCnt.toNat / 2) < walkLimit := by
    rw [walkLimit]
    omega
  rw [← least] at bits below enough wanted
  obtain ⟨n, found, power⟩ := powerLoop_spec bits below enough
  refine ⟨n, _, found, power, (Nat.le_log2 (by omega)).mpr wanted, ?_⟩
  rw [power, ← least]
  exact bits

def refs (buckets : Addr) (n : Nat) (i : Fin n) : ListRef Addr :=
  bucketAt buckets (BitVec.ofNat 32 i)

section
variable {buckets : Addr} {n : Nat}

section

variable (room : buckets.toNat + 16 * n ≤ 2 ^ 32)
include room

theorem refs_head (i : Fin n) : (refs buckets n i).head.toNat = buckets.toNat + 16 * i := by
  have below := i.isLt
  have sixteen : (16 : BitVec 32).toNat = 16 := rfl
  simp only [refs, bucketAt, BitVec.toNat_add, BitVec.toNat_mul, BitVec.toNat_ofNat, sixteen]
  omega

theorem refs_tail (i : Fin n) : (refs buckets n i).tail.toNat = buckets.toNat + 16 * i + 8 := by
  have below := i.isLt
  have head := refs_head room i
  have eight : (8 : BitVec 32).toNat = 8 := rfl
  have behind : (refs buckets n i).tail = (refs buckets n i).head + 8 := rfl
  rw [behind, BitVec.toNat_add, head, eight]
  omega

theorem mem_refs {i : Fin n} {node : Addr} (member : node ∈ (refs buckets n i).span []) :
    node.toNat = buckets.toNat + 16 * i ∨ node.toNat = buckets.toNat + 16 * i + 8 := by
  simp only [ListRef.span, List.nil_append, List.mem_cons, List.not_mem_nil, or_false] at member
  rcases member with rfl | rfl
  · exact .inl (refs_head room i)
  · exact .inr (refs_tail room i)

end

theorem initLoop_other (m : Mem Addr) (count : Nat) {node : Addr}
    (off : ∀ i < count, node ∉ (bucketAt buckets (BitVec.ofNat 32 i)).span []) (side : Side) :
    initLoop m buckets count node side = m node side := by
  induction count with
  | zero => rfl
  | succ count ih =>
    have last := off count (by omega)
    rw [initLoop, listInit_other, ih (fun i below => off i (by omega))]
    · rintro rfl
      exact last (by simp [ListRef.span])
    · rintro rfl
      exact last (by simp [ListRef.span])

theorem initLoop_lists (room : buckets.toNat + 16 * n ≤ 2 ^ 32) (m : Mem Addr) :
    Lists (initLoop m buckets n) (refs buckets n) (fun _ => []) := by
  have apart : ∀ i j : Fin n, i ≠ j → ∀ node ∈ (refs buckets n i).span [],
      node ∉ (refs buckets n j).span [] := by
    intro i j differ node member other
    have first := mem_refs room member
    have second := mem_refs room other
    have distinct : i.val ≠ j.val := fun same => differ (Fin.ext same)
    omega
  refine ⟨fun i => ?_, apart⟩
  have shown : ∀ count ≤ n, i.val < count →
      Shows (initLoop m buckets count) (refs buckets n i) [] := by
    intro count
    induction count with
    | zero => omega
    | succ count ih =>
      intro bound below
      by_cases last : i.val = count
      · rw [initLoop, ← last]
        refine shows_init _ fun same => ?_
        have head := refs_head room i
        rw [show (refs buckets n i).head = (refs buckets n i).tail from same, refs_tail room i] at head
        omega
      apply (ih (by omega) (by omega)).frame
      intro node member side
      have off := apart i ⟨count, by omega⟩ (fun same => last (congrArg Fin.val same)) node member
      rw [initLoop, listInit_other]
      · rintro rfl
        exact off (by simp [ListRef.span, refs])
      · rintro rfl
        exact off (by simp [ListRef.span, refs])
  exact shown n le_rfl i.isLt

end

theorem length_lt_walkLimit {m : Mem Addr} {xs : List Addr} (shows : Shows m list xs) :
    xs.length < walkLimit := by
  have mapped : ((list.span xs).map BitVec.toNat).Nodup :=
    shows.nodup.map (fun _ _ same => BitVec.eq_of_toNat_eq same)
  have bounded : ((list.span xs).map BitVec.toNat).toFinset ⊆ Finset.range (2 ^ 32) := by
    intro x member
    obtain ⟨node, -, rfl⟩ := List.mem_map.mp (List.mem_toFinset.mp member)
    exact Finset.mem_range.mpr node.isLt
  have card := Finset.card_le_card bounded
  rw [List.toFinset_card_of_nodup mapped, Finset.card_range] at card
  simp only [List.length_map, ListRef.span, List.length_cons, List.length_append] at card
  rw [walkLimit]
  omega

/-- Two elements are equal for a table if neither is less than the other. -/
def same (less : Addr → Addr → Bool) (a b : Addr) : Bool :=
  !less a b && !less b a

section
variable {hash : Addr → BitVec 32} {less : Addr → Addr → Bool} {m : Mem Addr}

theorem findLoop_elem {last : Option Addr} {z : Addr} (differ : some z ≠ last) (e : Addr)
    (fuel : Nat) :
    findLoop less m last e (fuel + 1) (some z) =
      if same less z e then some (some z)
      else (listNext m (some z)).bind (findLoop less m last e fuel) := by
  rw [findLoop, if_neg differ]
  rfl

theorem tail_ne {ys zs : List Addr} {z : Addr} (shows : Shows m list (ys ++ z :: zs)) :
    some z ≠ some list.tail := by
  intro equal
  have nodup := shows.nodup
  simp [ListRef.span, Option.some.inj equal, List.nodup_append] at nodup

theorem findLoop_spec {ys zs : List Addr} (shows : Shows m list (ys ++ zs)) (e : Addr)
    (enough : zs.length < fuel) :
    findLoop less m (some list.tail) e fuel (some (list.ahead zs)) =
      some (zs.find? fun s => same less s e) := by
  induction zs generalizing ys fuel with
  | nil =>
    obtain _ | fuel := fuel
    · omega
    simp [findLoop, ListRef.ahead]
  | cons z zs ih =>
    obtain _ | fuel := fuel
    · omega
    have later : Shows m list ((ys ++ [z]) ++ zs) := by simpa using shows
    have shorter : zs.length < fuel := by simpa using enough
    have start : list.ahead (z :: zs) = z := rfl
    rw [start, findLoop_elem (tail_ne shows), List.find?_cons]
    cases same less z e with
    | true => rfl
    | false =>
      rw [shows.listNext]
      exact ih later shorter

theorem findElem_spec {xs : List Addr} (shows : Shows m list xs) (e : Addr) :
    findElem less m list e = some (xs.find? fun s => same less s e) := by
  have whole : Shows m list ([] ++ xs) := shows
  rw [findElem, shows.begin, listEnd]
  exact findLoop_spec whole e (length_lt_walkLimit shows)

def spot (hash : Addr → BitVec 32) (h : Hash) (e : Addr) : BitVec 32 :=
  hash e &&& (h.bucketCnt - 1)

theorem spot_lt {h : Hash} (positive : 0 < h.bucketCnt.toNat) (e : Addr) :
    (spot hash h e).toNat < h.bucketCnt.toNat := by
  have most : (spot hash h e).toNat ≤ (h.bucketCnt - 1).toNat := by
    rw [spot, BitVec.toNat_and]
    exact Nat.and_le_right
  have pred : (h.bucketCnt - 1).toNat = h.bucketCnt.toNat - 1 := by
    bv_omega
  omega

def Hash.refs (h : Hash) : Fin h.bucketCnt.toNat → ListRef Addr :=
  HashTable.refs h.buckets h.bucketCnt.toNat

theorem findBucket_eq {h : Hash} {e : Addr} {k : Fin h.bucketCnt.toNat}
    (at_ : (spot hash h e).toNat = k) : findBucket hash h e = h.refs k := by
  rw [findBucket, Hash.refs, refs, ← at_, BitVec.ofNat_toNat, BitVec.setWidth_eq, spot]

/-- The lists while `rehash` moves the elements of `S` from an old array of `p` buckets to
the array of `h`. -/
structure Moving (hash : Addr → BitVec 32) (h : Hash) (old : Addr) (p : Nat) (S : Finset Addr)
    (m : Mem Addr) (ys : Fin p ⊕ Fin h.bucketCnt.toNat → List Addr) : Prop where
  lists : Lists m (Sum.elim (refs old p) h.refs) ys
  placed : ∀ k, ∀ e ∈ ys (.inr k), (spot hash h e).toNat = k
  members : ∀ e, (∃ x, e ∈ ys x) ↔ e ∈ S

variable {h : Hash} {old : Addr} {p : Nat} {S : Finset Addr}

/-- One element is taken from an old bucket and put in front of its new one. -/
theorem Moving.step {ys : Fin p ⊕ Fin h.bucketCnt.toNat → List Addr}
    (moving : Moving hash h old p S m ys) (positive : 0 < h.bucketCnt.toNat) {i : Fin p} {e : Addr}
    {rest : List Addr}
    (front : ys (.inl i) = e :: rest) : ∃ m1 next m2 ys', listRemove m (some e) = some (m1, next) ∧
    listPushFront m1 (findBucket hash h e) (some e) = some m2 ∧ Moving hash h old p S m2 ys' ∧
    ys' (.inl i) = rest ∧ ∀ j, j ≠ i → ys' (.inl j) = ys (.inl j) := by
  have split : ys (.inl i) = [] ++ e :: rest := front
  obtain ⟨m1, removed, after⟩ := moving.lists.remove split
  have off := moving.lists.removed_off split
  rw [List.nil_append] at after off
  obtain ⟨k, at_⟩ : ∃ k : Fin h.bucketCnt.toNat, (spot hash h e).toNat = k :=
    ⟨⟨_, spot_lt positive e⟩, rfl⟩
  obtain ⟨m2, pushed, lists⟩ := after.pushFront (.inr k) off
  rw [update_of_ne (by simp)] at lists
  have content : ∀ x, update (update ys (.inl i) rest) (.inr k)
      (e :: ys (.inr k)) x =
        if x = .inr k then e :: ys (.inr k) else if x = .inl i then rest else ys x := by
    intro x
    simp only [update_apply]
  refine ⟨m1, _, m2, _, removed, ?_, ⟨lists, ?_, ?_⟩, ?_, ?_⟩
  · rw [findBucket_eq at_]
    exact pushed
  · intro j s member
    rw [content] at member
    by_cases equal : j = k
    · subst equal
      rw [if_pos rfl] at member
      rcases List.mem_cons.mp member with rfl | inside
      · exact at_
      · exact moving.placed j s inside
    · rw [if_neg (by simpa using equal), if_neg (by simp)] at member
      exact moving.placed j s member
  · intro s
    rw [← moving.members s]
    constructor
    · rintro ⟨x, member⟩
      rw [content] at member
      split at member
      · rcases List.mem_cons.mp member with rfl | inside
        · exact ⟨.inl i, by simp [front]⟩
        · exact ⟨.inr k, inside⟩
      · split at member
        · exact ⟨.inl i, by simp [front, member]⟩
        · exact ⟨x, member⟩
    · rintro ⟨x, member⟩
      by_cases atNew : x = .inr k
      · exact ⟨.inr k, by rw [content, if_pos rfl]; exact List.mem_cons_of_mem e (atNew ▸ member)⟩
      by_cases atOld : x = .inl i
      · rw [atOld, front] at member
        rcases List.mem_cons.mp member with rfl | inside
        · exact ⟨.inr k, by simp⟩
        · exact ⟨.inl i, by rw [content, if_neg (by simp), if_pos rfl]; exact inside⟩
      · exact ⟨x, by rw [content, if_neg atNew, if_neg atOld]; exact member⟩
  · simp
  · intro j differ
    simp [differ]

theorem Moving.elems {ys : Fin p ⊕ Fin h.bucketCnt.toNat → List Addr}
    (moving : Moving hash h old p S m ys) (positive : 0 < h.bucketCnt.toNat) {i : Fin p}
    {rest : List Addr} (front : ys (.inl i) = rest) (enough : rest.length < fuel) :
    ∃ m' ys', moveElems hash h (some (refs old p i).tail) fuel m (some ((refs old p i).ahead rest)) =
        some m' ∧
      Moving hash h old p S m' ys' ∧ ys' (.inl i) = [] ∧
      ∀ j, j ≠ i → ys' (.inl j) = ys (.inl j) := by
  induction rest generalizing m ys fuel with
  | nil =>
    obtain _ | fuel := fuel
    · omega
    exact ⟨m, ys, by simp [moveElems, ListRef.ahead], moving, front, fun _ _ => rfl⟩
  | cons e rest ih =>
    obtain _ | fuel := fuel
    · omega
    have shows : Shows m (refs old p i) ([] ++ e :: rest) := front ▸ moving.lists.shows (.inl i)
    obtain ⟨m1, next, m2, ys', removed, pushed, moved, front', others⟩ := moving.step positive front
    have shorter : rest.length < fuel := by simpa using enough
    obtain ⟨m', ys'', walked, done, emptied, others'⟩ := ih moved front' shorter
    refine ⟨m', ys'', ?_, done, emptied, fun j differ => (others' j differ).trans (others j differ)⟩
    have start : (refs old p i).ahead (e :: rest) = e := rfl
    rw [start, moveElems, if_neg (tail_ne shows)]
    simp [shows.listNext, removed, pushed, walked]

theorem Moving.loop {ys : Fin p ⊕ Fin h.bucketCnt.toNat → List Addr}
    (moving : Moving hash h old p S m ys) (positive : 0 < h.bucketCnt.toNat) :
    ∃ m' ys', moveLoop hash h m old p = some m' ∧ Moving hash h old p S m' ys' ∧
      ∀ i, ys' (.inl i) = [] := by
  have emptied : ∀ count ≤ p, ∃ m' ys', moveLoop hash h m old count = some m' ∧
      Moving hash h old p S m' ys' ∧ ∀ i : Fin p, i.val < count → ys' (.inl i) = [] := by
    intro count
    induction count with
    | zero => exact fun _ => ⟨m, ys, rfl, moving, fun _ below => by omega⟩
    | succ count ih =>
      intro bound
      obtain ⟨m', ys', walked, moved, empty⟩ := ih (by omega)
      have shows := moved.lists.shows (.inl ⟨count, bound⟩)
      obtain ⟨m'', ys'', last, done, cleared, others⟩ :=
        moved.elems positive rfl (length_lt_walkLimit shows)
      refine ⟨m'', ys'', ?_, done, fun i below => ?_⟩
      · have start := shows.begin
        simp only [Sum.elim_inl, refs] at start last
        simp [moveLoop, walked, start, listEnd, last]
      · by_cases equal : i = ⟨count, bound⟩
        · rw [equal, cleared]
        · rw [others i equal, empty i]
          have distinct : i.val ≠ count := fun same => equal (Fin.ext same)
          omega
  obtain ⟨m', ys', walked, moved, empty⟩ := emptied p le_rfl
  exact ⟨m', ys', walked, moved, fun i => empty i i.isLt⟩

end

/-- A destructor may do what it likes to the element it is given, and to nothing else. -/
def Harmless (destructor : Action) : Prop :=
  ∀ m e node side, node ≠ e → destructor m e node side = m node side

section
variable {destructor : Action} {m : Mem Addr} {n : Nat}

theorem popLoop_spec (harmless : Harmless destructor) {list : Fin n → ListRef Addr}
    {xs : Fin n → List Addr} (lists : Lists m list xs) (i : Fin n) {content : List Addr}
    (holds : xs i = content) (enough : content.length < fuel) :
    ∃ m', popLoop destructor (list i) fuel m = some m' ∧ Lists m' list (update xs i []) := by
  induction content generalizing m xs fuel with
  | nil =>
    obtain _ | fuel := fuel
    · omega
    refine ⟨m, ?_, ?_⟩
    · simp [popLoop, (lists.shows i).empty, holds]
    · rw [← holds, update_eq_self]
      exact lists
  | cons e rest ih =>
    obtain _ | fuel := fuel
    · omega
    obtain ⟨m1, popped, after⟩ := lists.popFront holds
    have split : xs i = [] ++ e :: rest := holds
    have scribbled : Lists (destructor m1 e) list (update xs i rest) := by
      apply after.frame
      intro j node member side
      apply harmless
      rintro rfl
      exact lists.removed_off split j member
    have shorter : rest.length < fuel := by simpa using enough
    obtain ⟨m', walked, emptied⟩ := ih scribbled (update_self ..) shorter
    refine ⟨m', ?_, by rwa [update_idem] at emptied⟩
    simp [popLoop, (lists.shows i).empty, holds, popped, walked]

theorem clearBucket_spec {destructor : Option Action} (harmless : ∀ d ∈ destructor, Harmless d)
    {list : Fin n → ListRef Addr} {xs : Fin n → List Addr} (lists : Lists m list xs) (i : Fin n) :
    ∃ m', clearBucket destructor m (list i) = some m' ∧ Lists m' list (update xs i []) := by
  cases destructor with
  | none => exact ⟨_, rfl, lists.init i⟩
  | some action =>
    obtain ⟨m', walked, emptied⟩ := popLoop_spec (harmless action rfl) lists i rfl
      (length_lt_walkLimit (lists.shows i))
    refine ⟨listInit m' (list i), by simp [clearBucket, walked], ?_⟩
    have again := emptied.init i
    rwa [update_idem] at again

theorem clearLoop_spec {destructor : Option Action} (harmless : ∀ d ∈ destructor, Harmless d)
    {buckets : Addr} {xs : Fin n → List Addr} (lists : Lists m (refs buckets n) xs) :
    ∃ m', clearLoop destructor m buckets n = some m' ∧ Lists m' (refs buckets n) (fun _ => []) := by
  have cleared : ∀ count ≤ n, ∃ m', clearLoop destructor m buckets count = some m' ∧
      Lists m' (refs buckets n) (fun i => if i.val < count then [] else xs i) := by
    intro count
    induction count with
    | zero => exact fun _ => ⟨m, rfl, by simpa using lists⟩
    | succ count ih =>
      intro bound
      obtain ⟨m', walked, emptied⟩ := ih (by omega)
      obtain ⟨m'', last, after⟩ := clearBucket_spec harmless emptied ⟨count, bound⟩
      refine ⟨m'', ?_, ?_⟩
      · rw [clearLoop, walked]
        exact last
      have content : update (fun i : Fin n => if i.val < count then [] else xs i)
          ⟨count, bound⟩ [] = fun i => if i.val < count + 1 then [] else xs i := by
        funext i
        by_cases equal : i = ⟨count, bound⟩
        · simp [equal]
        · have distinct : i.val ≠ count := fun same => equal (Fin.ext same)
          rw [update_of_ne equal]
          by_cases below : i.val < count
          · rw [if_pos below, if_pos (by omega)]
          · rw [if_neg below, if_neg (by omega)]
      rwa [content] at after
  obtain ⟨m', walked, emptied⟩ := cleared n le_rfl
  exact ⟨m', walked, by simpa using emptied⟩

theorem clearLoop_none (buckets : Addr) (count : Nat) :
    clearLoop none m buckets count = some (initLoop m buckets count) := by
  induction count with
  | zero => rfl
  | succ count ih => simp [clearLoop, ih, clearBucket, initLoop]

end

end Pintos.HashTable
