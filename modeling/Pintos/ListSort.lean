import Pintos.KernelList
import Pintos.WeakOrder

/-! Sorting, ordered insertion and the removal of duplicates of `lib/kernel/list.c`.  `less` is
the comparison of two elements, with its auxiliary data; it is only asked about elements.  The
fuel bounds the rounds of each loop by one number; more than the elements of the list is
enough.  A memory operation or an assertion that fails is `none`. -/

namespace Pintos.ListSort
open LinkedNodes KernelList WeakOrder Function

variable {α : Type} [DecidableEq α]

/-- The call of `less` on two pointers. -/
def lessAt (less : α → α → Bool) (a b : Option α) : Option Bool := do
  return less (← a) (← b)

def isSortedLoop (less : α → α → Bool) (m : Mem α) (b : Option α) :
    (fuel : Nat) → (a : Option α) → Option Bool
  | 0, _ => none
  | fuel + 1, a => do
    let a ← listNext m a
    if a = b then return true
    if ← lessAt less a (← listPrev m a) then return false
    isSortedLoop less m b fuel a

def isSorted (less : α → α → Bool) (fuel : Nat) (m : Mem α) (a b : Option α) : Option Bool :=
  if a = b then some true else isSortedLoop less m b fuel a

def runLoop (less : α → α → Bool) (m : Mem α) (b : Option α) :
    (fuel : Nat) → (a : Option α) → Option (Option α)
  | 0, _ => none
  | fuel + 1, a => do
    let a ← listNext m a
    if a = b then return a
    if ← lessAt less a (← listPrev m a) then return a
    runLoop less m b fuel a

def findEndOfRun (less : α → α → Bool) (fuel : Nat) (m : Mem α) (a b : Option α) :
    Option (Option α) := do
  guard (a.isSome ∧ b.isSome ∧ a ≠ b)
  runLoop less m b fuel a

def mergeLoop (less : α → α → Bool) (b1 : Option α) :
    (fuel : Nat) → Mem α → (a0 a1b0 : Option α) → Option (Mem α)
  | 0, _, _, _ => none
  | fuel + 1, m, a0, a1b0 =>
    if a0 ≠ a1b0 ∧ a1b0 ≠ b1 then do
      if !(← lessAt less a1b0 a0) then
        mergeLoop less b1 fuel m (← listNext m a0) a1b0
      else
        let a1b0 ← listNext m a1b0
        let m ← listSplice m a0 (← listPrev m a1b0) a1b0
        mergeLoop less b1 fuel m a0 a1b0
    else some m

def inplaceMerge (less : α → α → Bool) (fuel : Nat) (m : Mem α) (a0 a1b0 b1 : Option α) :
    Option (Mem α) := do
  guard (a0.isSome ∧ a1b0.isSome ∧ b1.isSome)
  guard (← isSorted less fuel m a0 a1b0)
  guard (← isSorted less fuel m a1b0 b1)
  mergeLoop less b1 fuel m a0 a1b0

/-- One pass of `list_sort` from `a0` on; the counter is the number of runs made. -/
def passLoop (less : α → α → Bool) (bound : Nat) (list : ListRef α) :
    (fuel : Nat) → Mem α → (a0 : Option α) → (outputRunCnt : Nat) → Option (Mem α × Nat)
  | 0, _, _, _ => none
  | fuel + 1, m, a0, outputRunCnt =>
    if a0 = listEnd list then some (m, outputRunCnt)
    else do
      let a1b0 ← findEndOfRun less bound m a0 (listEnd list)
      if a1b0 = listEnd list then return (m, outputRunCnt + 1)
      let b1 ← findEndOfRun less bound m a1b0 (listEnd list)
      let m ← inplaceMerge less bound m a0 a1b0 b1
      passLoop less bound list fuel m b1 (outputRunCnt + 1)

def sortLoop (less : α → α → Bool) (bound : Nat) (list : ListRef α) :
    (fuel : Nat) → Mem α → Option (Mem α)
  | 0, _ => none
  | fuel + 1, m => do
    let (m, outputRunCnt) ← passLoop less bound list bound m (listBegin m list) 0
    if outputRunCnt > 1 then sortLoop less bound list fuel m else return m

def listSort (less : α → α → Bool) (fuel : Nat) (m : Mem α) (list : ListRef α) :
    Option (Mem α) := do
  let m ← sortLoop less fuel list fuel m
  guard (← isSorted less fuel m (listBegin m list) (listEnd list))
  return m

/-- The element that `list_insert_ordered` inserts before. -/
def placeLoop (less : α → α → Bool) (m : Mem α) (list : ListRef α) (elem : Option α) :
    (fuel : Nat) → (e : Option α) → Option (Option α)
  | 0, _ => none
  | fuel + 1, e =>
    if e = listEnd list then some e
    else do
      if ← lessAt less elem e then return e
      placeLoop less m list elem fuel (← listNext m e)

def listInsertOrdered (less : α → α → Bool) (fuel : Nat) (m : Mem α) (list : ListRef α)
    (elem : Option α) : Option (Mem α) := do
  guard elem.isSome
  let e ← placeLoop less m list elem fuel (listBegin m list)
  listInsert m e elem

def uniqueLoop (less : α → α → Bool) (list : ListRef α) (duplicates : Option (ListRef α)) :
    (fuel : Nat) → Mem α → (elem : Option α) → Option (Mem α)
  | 0, _, _ => none
  | fuel + 1, m, elem => do
    let next ← listNext m elem
    if next = listEnd list then return m
    if !(← lessAt less elem next) && !(← lessAt less next elem) then
      let (m, _) ← listRemove m next
      let m ← duplicates.elim (some m) fun duplicates => listPushBack m duplicates next
      uniqueLoop less list duplicates fuel m elem
    else uniqueLoop less list duplicates fuel m next

def listUnique (less : α → α → Bool) (fuel : Nat) (m : Mem α) (list : ListRef α)
    (duplicates : Option (ListRef α)) : Option (Mem α) :=
  if listEmpty m list then some m
  else uniqueLoop less list duplicates fuel m (listBegin m list)
variable {us vs as zs : List α} {a : α} {fuel : Nat}

section
variable {m : Mem α} {list : ListRef α}

omit [DecidableEq α] in
@[simp] theorem lessAt_some (less : α → α → Bool) (a b : α) :
    lessAt less (some a) (some b) = some (less a b) := rfl

omit [DecidableEq α] in
@[simp] theorem ahead_nil (list : ListRef α) : some (list.ahead []) = listEnd list := rfl

omit [DecidableEq α] in
@[simp] theorem ahead_cons (list : ListRef α) (a : α) (zs : List α) :
    list.ahead (a :: zs) = a := rfl

omit [DecidableEq α] in
theorem shows_listPrev (shows : Shows m list (us ++ a :: vs)) :
    listPrev m (some (list.ahead vs)) = some (some a) := by
  have split : Shows m list ((us ++ [a]) ++ vs) := by simpa using shows
  have prev : m (list.ahead vs) .prev = some a := by simpa [ListRef.behind] using split.prev
  simp [listPrev, inserts_before prev, prev, guard]

omit [DecidableEq α] in
theorem shows_ne_ahead (shows : Shows m list (us ++ (a :: as ++ vs))) : a ≠ list.ahead vs := by
  intro same
  apply (ListRef.apart shows.nodup).2 a (by simp)
  rw [same]
  exact list.ahead_mem vs

omit [DecidableEq α] in
theorem shows_ne_end (shows : Shows m list (us ++ a :: zs)) : some a ≠ listEnd list := by
  have whole : Shows m list (us ++ (a :: zs ++ [])) := by simpa using shows
  have differ : a ≠ list.tail := shows_ne_ahead whole
  simpa [listEnd] using differ

theorem isSortedLoop_spec (less : α → α → Bool) (shows : Shows m list (us ++ (a :: as ++ vs)))
    (enough : as.length < fuel) :
    isSortedLoop less m (some (list.ahead vs)) fuel (some a) =
      some (decide (descents less (a :: as) = 0)) := by
  induction as generalizing us a fuel with
  | nil =>
    obtain _ | fuel := fuel
    · omega
    have next := Shows.listNext shows
    simp [isSortedLoop, next, descents]
  | cons b as ih =>
    obtain _ | fuel := fuel
    · omega
    have later : Shows m list ((us ++ [a]) ++ (b :: as ++ vs)) := by simpa using shows
    have next : listNext m (some a) = some (some b) := Shows.listNext shows
    have prev : listPrev m (some b) = some (some a) := shows_listPrev shows
    have differ : b ≠ list.ahead vs := shows_ne_ahead later
    have rest := ih later (Nat.lt_of_succ_lt_succ enough)
    cases down : less b a <;>
      simp [isSortedLoop, next, prev, differ, down, descents, rest]

theorem isSorted_spec (less : α → α → Bool) (shows : Shows m list (us ++ (as ++ vs)))
    (enough : as.length < fuel) : isSorted less fuel m (some (list.ahead (as ++ vs)))
    (some (list.ahead vs)) = some (decide (descents less as = 0)) := by
  cases as with
  | nil => simp [isSorted, descents]
  | cons a as =>
    have differ : a ≠ list.ahead vs := shows_ne_ahead shows
    have loop := isSortedLoop_spec less shows (Nat.lt_of_succ_lt enough)
    simpa [isSorted, differ] using loop

theorem runLoop_spec (less : α → α → Bool) (shows : Shows m list (us ++ a :: zs))
    (enough : zs.length < fuel) : ∃ run rest, zs = run ++ rest ∧
    runLoop less m (listEnd list) fuel (some a) = some (some (list.ahead rest)) ∧
    descents less (a :: run) = 0 ∧
    (rest = [] ∨ descents less (a :: zs) = descents less rest + 1) := by
  induction zs generalizing us a fuel with
  | nil =>
    obtain _ | fuel := fuel
    · omega
    have next := Shows.listNext shows
    refine ⟨[], [], rfl, ?_, rfl, .inl rfl⟩
    simp [runLoop, next]
  | cons b zs ih =>
    obtain _ | fuel := fuel
    · omega
    have later : Shows m list ((us ++ [a]) ++ b :: zs) := by simpa using shows
    have next : listNext m (some a) = some (some b) := Shows.listNext shows
    have prev : listPrev m (some b) = some (some a) := shows_listPrev shows
    have going := shows_ne_end later
    cases down : less b a with
    | true =>
      refine ⟨[], b :: zs, rfl, ?_, rfl, .inr ?_⟩
      · simp [runLoop, next, prev, going, down]
      · simp [descents, down, Nat.add_comm]
    | false =>
      obtain ⟨run, rest, split, found, flat, steps⟩ := ih later (Nat.lt_of_succ_lt_succ enough)
      refine ⟨b :: run, rest, by rw [split]; rfl, ?_, ?_, ?_⟩
      · simp [runLoop, next, prev, going, down, found]
      · simpa [descents, down] using flat
      · simpa [descents, down] using steps

theorem findEndOfRun_spec (less : α → α → Bool) (shows : Shows m list (us ++ a :: zs))
    (enough : zs.length < fuel) : ∃ run rest, zs = run ++ rest ∧ findEndOfRun less fuel m (some a)
    (listEnd list) = some (some (list.ahead rest)) ∧ descents less (a :: run) = 0 ∧
    (rest = [] ∨ descents less (a :: zs) = descents less rest + 1) := by
  obtain ⟨run, rest, split, found, facts⟩ := runLoop_spec less shows enough
  have going := shows_ne_end shows
  have last : (listEnd list).isSome := rfl
  refine ⟨run, rest, split, ?_, facts⟩
  simpa [findEndOfRun, last, going, guard] using found

end

section
variable {ι : Type} [DecidableEq ι] {m : Mem α} {list : ι → ListRef α} {xs : ι → List α}
  {less : α → α → Bool} {S : Set α}

omit [DecidableEq α] in
theorem lists_same (lists : Lists m list xs) {i : ι} {ys : List α} (same : xs i = ys) :
    Lists m list (update xs i ys) := by
  rwa [← same, update_eq_self]

theorem mergeLoop_spec (less : α → α → Bool) (lists : Lists m list xs) {i : ι} {bs : List α}
    (split : xs i = us ++ (as ++ (bs ++ vs))) (enough : as.length + bs.length < fuel) :
    ∃ m', mergeLoop less (some ((list i).ahead vs)) fuel m
        (some ((list i).ahead (as ++ (bs ++ vs)))) (some ((list i).ahead (bs ++ vs))) = some m' ∧
      Lists m' list (update xs i (us ++ (merge less as bs ++ vs))) := by
  induction fuel generalizing m xs us as bs with
  | zero => omega
  | succ fuel ih =>
    cases as with
    | nil =>
      refine ⟨m, by simp [mergeLoop], ?_⟩
      rw [nil_merge]
      exact lists_same lists split
    | cons a as =>
      cases bs with
      | nil =>
        refine ⟨m, by simp [mergeLoop], ?_⟩
        rw [merge_nil]
        exact lists_same lists split
      | cons b bs =>
        have shows : Shows m (list i) (us ++ (a :: as ++ (b :: bs ++ vs))) := split ▸ lists.shows i
        have inner : Shows m (list i) ((us ++ a :: as) ++ (b :: bs ++ vs)) := by simpa using shows
        have apart : a ≠ b := shows_ne_ahead shows
        have going : b ≠ (list i).ahead vs := shows_ne_ahead inner
        have nextA : listNext m (some a) = some (some ((list i).ahead (as ++ (b :: bs ++ vs)))) :=
          Shows.listNext shows
        have nextB : listNext m (some b) = some (some ((list i).ahead (bs ++ vs))) :=
          Shows.listNext inner
        simp only [List.length_cons] at enough
        cases down : less b a with
        | false =>
          have split' : xs i = (us ++ [a]) ++ (as ++ (b :: bs ++ vs)) := by simpa using split
          obtain ⟨m', loop, after⟩ := ih lists split' (by simp only [List.length_cons]; omega)
          refine ⟨m', ?_, ?_⟩
          · simpa [mergeLoop, apart, going, down, nextA] using loop
          · rw [merge_left as bs down]
            simpa using after
        | true =>
          have prevB : listPrev m (some ((list i).ahead (bs ++ vs))) = some (some b) :=
            shows_listPrev inner
          have cut : xs i = (us ++ a :: as) ++ ([b] ++ (bs ++ vs)) := by simpa using split
          have place : update xs i ((us ++ a :: as) ++ (bs ++ vs)) i =
              us ++ (a :: as ++ (bs ++ vs)) := by simp
          obtain ⟨m1, splice, moved⟩ := lists.splice cut place
          rw [update_idem] at moved
          have split' : update xs i (us ++ ([b] ++ (a :: as ++ (bs ++ vs)))) i =
              (us ++ [b]) ++ (a :: as ++ (bs ++ vs)) := by simp
          obtain ⟨m', loop, after⟩ := ih moved split' (by simp only [List.length_cons]; omega)
          refine ⟨m', ?_, ?_⟩
          · have splice : listSplice m (some a) (some b) (some ((list i).ahead (bs ++ vs))) =
                some m1 := splice
            simpa [mergeLoop, apart, going, down, nextB, prevB, splice] using loop
          · rw [update_idem] at after
            rw [merge_right as bs down]
            simpa using after

theorem inplaceMerge_spec (lists : Lists m list xs) {i : ι} {bs : List α}
    (split : xs i = us ++ (as ++ (bs ++ vs))) (enough : as.length + bs.length < fuel)
    (left : descents less as = 0) (right : descents less bs = 0) :
    ∃ m', inplaceMerge less fuel m (some ((list i).ahead (as ++ (bs ++ vs))))
        (some ((list i).ahead (bs ++ vs))) (some ((list i).ahead vs)) = some m' ∧
      Lists m' list (update xs i (us ++ (merge less as bs ++ vs))) := by
  have shows : Shows m (list i) (us ++ (as ++ (bs ++ vs))) := split ▸ lists.shows i
  have inner : Shows m (list i) ((us ++ as) ++ (bs ++ vs)) := by simpa using shows
  have sortedA := isSorted_spec less shows (show as.length < fuel by omega)
  have sortedB := isSorted_spec less inner (show bs.length < fuel by omega)
  obtain ⟨m', loop, after⟩ := mergeLoop_spec less lists split enough
  refine ⟨m', ?_, after⟩
  simpa [inplaceMerge, guard, sortedA, sortedB, left, right] using loop

/-- A pass over `zs` makes `k` runs of it, with half as many as there were. -/
theorem passLoop_spec (weak : StrictWeak less S) (lists : Lists m list xs) {i : ι} {bound : Nat}
    (cnt : Nat) (split : xs i = us ++ zs) (inside : ∀ a ∈ zs, a ∈ S) (enough : zs.length < fuel)
    (room : zs.length < bound) :
    ∃ m' ys k, passLoop less bound (list i) fuel m (some ((list i).ahead zs)) cnt =
        some (m', cnt + k) ∧
      Lists m' list (update xs i (us ++ ys)) ∧ Stable less S zs ys ∧
      descents less ys ≤ k - 1 ∧ 2 * k ≤ descents less zs + 2 ∧ (k = 0 ↔ zs = []) := by
  induction fuel generalizing m xs us zs cnt with
  | zero => omega
  | succ fuel ih =>
    cases zs with
    | nil =>
      refine ⟨m, [], 0, ?_, lists_same lists split, Stable.refl [], ?_, ?_, by simp⟩
      · simp [passLoop]
      · simp [descents]
      · simp
    | cons a zs =>
      have shows : Shows m (list i) (us ++ a :: zs) := split ▸ lists.shows i
      have going := shows_ne_end shows
      obtain ⟨run, rest, rfl, found, flat, steps⟩ :=
        findEndOfRun_spec less shows (Nat.lt_of_succ_lt room)
      cases rest with
      | nil =>
        refine ⟨m, a :: (run ++ []), 1, ?_, lists_same lists split, Stable.refl _, ?_, ?_, by simp⟩
        · simp [passLoop, going, found]
        · simpa using flat
        · omega
      | cons b rest =>
        have second : Shows m (list i) ((us ++ a :: run) ++ b :: rest) := by simpa using shows
        have more := shows_ne_end second
        simp only [List.length_cons, List.length_append] at enough room
        obtain ⟨run2, rest, rfl, found2, flat2, steps2⟩ :=
          findEndOfRun_spec less second (show rest.length < bound by omega)
        simp only [List.length_append] at enough room
        have parts : xs i = us ++ (a :: run ++ (b :: run2 ++ rest)) := by simpa using split
        obtain ⟨m1, merged, after⟩ := inplaceMerge_spec lists parts
          (show (a :: run).length + (b :: run2).length < bound by simp; omega) flat flat2
        have split' : update xs i
            (us ++ (merge less (a :: run) (b :: run2) ++ rest)) i =
            (us ++ merge less (a :: run) (b :: run2)) ++ rest := by simp
        obtain ⟨m', ys, k, loop, final, stable, few, half, none⟩ :=
          ih after (cnt + 1) split' (fun c hc => inside c (by simp [hc])) (by omega) (by omega)
        have insideA : ∀ c ∈ a :: run, c ∈ S := fun c hc => inside c (by simp at hc ⊢; tauto)
        have insideB : ∀ c ∈ b :: run2, c ∈ S := fun c hc => inside c (by simp at hc ⊢; tauto)
        have sortedA := weak.pairwise insideA (descents_eq_zero.mp flat)
        have sortedB := weak.pairwise insideB (descents_eq_zero.mp flat2)
        have up : descents less (merge less (a :: run) (b :: run2)) = 0 :=
          descents_eq_zero.mpr (sorted_merge weak insideA insideB sortedA sortedB).isChain
        refine ⟨m', merge less (a :: run) (b :: run2) ++ ys, k + 1, ?_, ?_, ?_, ?_, ?_, by simp⟩
        · have merged : inplaceMerge less bound m (some a) (some b) (some ((list i).ahead rest)) =
            some m1 := merged
          simpa [passLoop, going, found, more, found2, merged, Nat.add_assoc, Nat.add_comm 1]
            using loop
        · rw [update_idem] at final
          simpa using final
        · simpa using (stable_merge weak insideA insideB sortedA).append stable
        · have join := descents_append_le less (merge less (a :: run) (b :: run2)) ys
          by_cases last : k = 0
          · have empty : ys = [] := by
              have perm := stable.perm
              rw [none.mp last] at perm
              exact perm.eq_nil
            rw [empty, List.append_nil, up]
            omega
          · omega
        · have steps : descents less (a :: (run ++ b :: (run2 ++ rest))) =
              descents less (b :: (run2 ++ rest)) + 1 := steps.resolve_left (by simp)
          rcases steps2 with rfl | steps2
          · have := none.mpr rfl
            omega
          · omega

theorem sortLoop_spec {i : ι} {bound : Nat} (weak : StrictWeak less S) (lists : Lists m list xs)
    (inside : ∀ a ∈ xs i, a ∈ S) (enough : descents less (xs i) < fuel)
    (room : (xs i).length < bound) : ∃ m' ys, sortLoop less bound (list i) fuel m = some m' ∧
    Lists m' list (update xs i ys) ∧ Stable less S (xs i) ys ∧ descents less ys = 0 := by
  induction fuel generalizing m xs with
  | zero => omega
  | succ fuel ih =>
    have whole : xs i = [] ++ xs i := rfl
    obtain ⟨m1, ys, k, pass, after, stable, few, half, none⟩ :=
      passLoop_spec weak lists 0 whole inside room room
    have start := (lists.shows i).begin
    by_cases again : k > 1
    · have content : update xs i ([] ++ ys) i = ys := by simp
      obtain ⟨m', zs, loop, final, later, flat⟩ := ih after
        (by rw [content]; exact fun a ha => inside a (stable.perm.mem_iff.mp ha))
        (by rw [content]; omega) (by rw [content, stable.perm.length_eq]; exact room)
      rw [content] at later
      rw [update_idem] at final
      refine ⟨m', zs, ?_, final, stable.trans later, flat⟩
      simp [sortLoop, start, pass, again, loop]
    · refine ⟨m1, ys, ?_, after, stable, by omega⟩
      simp [sortLoop, start, pass, again]

/-- The sort succeeds, with every assertion in it, and stores a stable sorted sequence. -/
theorem listSort_spec {i : ι} (lists : Lists m list xs) (weak : StrictWeak less {a | a ∈ xs i})
    (enough : (xs i).length < fuel) :
    ∃ m' ys, listSort less fuel m (list i) = some m' ∧
      Lists m' list (update xs i ys) ∧ Stable less {a | a ∈ xs i} (xs i) ys ∧
      ys.Pairwise (NotAfter less) := by
  have few : descents less (xs i) < fuel := by
    cases content : xs i with
    | nil => simp [descents]; omega
    | cons a zs =>
      have := descents_lt less a zs
      simp only [content, List.length_cons] at enough
      omega
  obtain ⟨m', ys, loop, after, stable, flat⟩ :=
    sortLoop_spec weak lists (fun _ member => member) few enough
  have shows : Shows m' (list i) ([] ++ (ys ++ [])) := by simpa using after.shows i
  have check := isSorted_spec less shows (by rw [stable.perm.length_eq]; exact enough)
  have start : listBegin m' (list i) = some ((list i).ahead ys) := by simpa using shows.begin
  rw [List.append_nil] at check
  have sorted := weak.pairwise (fun a member => stable.perm.mem_iff.mp member)
    (descents_eq_zero.mp flat)
  refine ⟨m', ys, ?_, after, stable, sorted⟩
  rw [ahead_nil] at check
  simp [listSort, loop, start, check, flat, guard]

omit [DecidableEq ι] in
theorem placeLoop_spec (less : α → α → Bool) (lists : Lists m list xs) {i : ι} (elem : α)
    (split : xs i = us ++ zs)
    (enough : zs.length < fuel) : ∃ vs ws, zs = vs ++ ws ∧ placeLoop less m (list i)
    (some elem) fuel (some ((list i).ahead zs)) = some (some ((list i).ahead ws)) ∧
    (∀ a ∈ vs, less elem a = false) ∧ ∀ a ∈ ws.head?, less elem a = true := by
  induction zs generalizing us fuel with
  | nil =>
    obtain _ | fuel := fuel
    · omega
    exact ⟨[], [], rfl, by simp [placeLoop], by simp, by simp⟩
  | cons a zs ih =>
    obtain _ | fuel := fuel
    · omega
    have shows : Shows m (list i) (us ++ a :: zs) := split ▸ lists.shows i
    have going := shows_ne_end shows
    cases before : less elem a with
    | true =>
      exact ⟨[], a :: zs, rfl, by simp [placeLoop, going, before], by simp, by simpa using before⟩
    | false =>
      have later : xs i = (us ++ [a]) ++ zs := by simpa using split
      obtain ⟨vs, ws, rfl, found, low, high⟩ := ih later (Nat.lt_of_succ_lt_succ enough)
      refine ⟨a :: vs, ws, rfl, ?_, by simpa using ⟨before, low⟩, high⟩
      simp [placeLoop, going, before, Shows.listNext shows, found]

theorem listInsertOrdered_spec {i : ι} {elem : α} (lists : Lists m list xs)
    (weak : StrictWeak less {a | a ∈ elem :: xs i}) (fresh : ∀ j, elem ∉ (list j).span (xs j))
    (sorted : (xs i).Pairwise (NotAfter less)) (enough : (xs i).length < fuel) :
    ∃ m' vs ws, listInsertOrdered less fuel m (list i) (some elem) = some m' ∧ xs i = vs ++ ws ∧
      Lists m' list (update xs i (vs ++ elem :: ws)) ∧
      (vs ++ elem :: ws).Pairwise (NotAfter less) ∧
      (∀ a ∈ vs, less elem a = false) ∧ ∀ a ∈ ws, less elem a = true := by
  have whole : xs i = [] ++ xs i := rfl
  obtain ⟨vs, ws, split, found, low, high⟩ := placeLoop_spec less lists elem whole enough
  obtain ⟨m', inserted, after⟩ := lists.insert split fresh
  have first : elem ∈ {a | a ∈ elem :: xs i} := List.mem_cons_self
  have inside : ∀ a ∈ vs ++ ws, a ∈ {a | a ∈ elem :: xs i} := by
    intro a member
    rw [← split] at member
    exact List.mem_cons_of_mem elem member
  rw [split] at sorted
  obtain ⟨left, right, across⟩ := List.pairwise_append.mp sorted
  have above : ∀ a ∈ ws, less elem a = true := by
    cases ws with
    | nil => simp
    | cons b ws =>
      have lt : less elem b = true := high b rfl
      intro a member
      rcases List.mem_cons.mp member with rfl | later
      · exact lt
      · exact weak.lt_of_lt_of_notAfter first (inside b (by simp)) (inside a (by simp [later])) lt
          ((List.pairwise_cons.mp right).1 a later)
  have upper : ∀ a ∈ ws, NotAfter less elem a := fun a member =>
    weak.notAfter_of_lt first (inside a (List.mem_append_right vs member)) (above a member)
  refine ⟨m', vs, ws, ?_, split, after, ?_, low, above⟩
  · simp [listInsertOrdered, (lists.shows i).begin, found, inserted, guard]
  · refine List.pairwise_append.mpr ⟨left, List.pairwise_cons.mpr ⟨upper, right⟩, ?_⟩
    intro a early b later
    rcases List.mem_cons.mp later with rfl | later
    · exact low a early
    · exact across a early b later

/-- Every sort of a well-formed list ends with a well-formed list of the same elements, in
order, and in their old order where `less` does not tell them apart.  The checks inside it never
fail.  A new element goes behind all that are equivalent to it. -/
theorem list_sort_stable (lists : Lists m list xs) (i : ι) (less : α → α → Bool) (fuel : Nat)
    (enough : (xs i).length < fuel) :
    (StrictWeak less {a | a ∈ xs i} →
      ∃ m' ys, listSort less fuel m (list i) = some m' ∧ Lists m' list (update xs i ys) ∧
        ys.Perm (xs i) ∧ ys.Pairwise (NotAfter less) ∧
        ∀ a ∈ xs i, ys.filter (equiv less a) = (xs i).filter (equiv less a)) ∧
    ∀ elem, StrictWeak less {a | a ∈ elem :: xs i} → (∀ j, elem ∉ (list j).span (xs j)) →
      (xs i).Pairwise (NotAfter less) →
      ∃ m' vs ws, listInsertOrdered less fuel m (list i) (some elem) = some m' ∧
        xs i = vs ++ ws ∧ Lists m' list (update xs i (vs ++ elem :: ws)) ∧
        (vs ++ elem :: ws).Pairwise (NotAfter less) ∧
        (∀ a ∈ vs, less elem a = false) ∧ ∀ a ∈ ws, less elem a = true := by
  constructor
  · intro weak
    obtain ⟨m', ys, sort, after, stable, sorted⟩ := listSort_spec lists weak enough
    exact ⟨m', ys, sort, after, stable.perm, sorted, stable.order⟩
  · intro elem weak fresh sorted
    exact listInsertOrdered_spec lists weak fresh sorted enough

end

def natLess (a b : Nat) : Bool :=
  decide (a < b)

theorem natLess_weak (S : Set Nat) : StrictWeak natLess S where
  irrefl := fun a _ => by simp [natLess]
  trans := fun a _ b _ c _ first second => by
    simp only [natLess, decide_eq_true_eq] at first second ⊢
    omega
  same := fun a _ b _ c _ first second => by
    simp only [equiv, natLess, Bool.and_eq_true, Bool.not_eq_true', decide_eq_false_iff_not] at *
    omega

theorem list_sort_stable_twoLists :
    (∃ (m' : Mem Nat) (ys : List Nat), listSort natLess 3 twoLists ⟨0, 1⟩ = some m' ∧
      ys.Perm [4, 5] ∧ ys.Pairwise (NotAfter natLess)) ∧
    ∃ (m' : Mem Nat) (vs ws : List Nat),
      listInsertOrdered natLess 3 twoLists ⟨0, 1⟩ (some 6) = some m' ∧ [4, 5] = vs ++ ws ∧ (vs ++ 6 :: ws).Pairwise (NotAfter natLess) := by
  have result := list_sort_stable twoLists_formed true natLess 3 (by decide)
  obtain ⟨m', ys, sort, -, perm, sorted, -⟩ := result.1 (natLess_weak _)
  obtain ⟨m1, vs, ws, insert, split, -, order, -⟩ :=
    result.2 6 (natLess_weak _) (by decide) (by decide)
  exact ⟨⟨m', ys, sort, perm, sorted⟩, m1, vs, ws, insert, split, order⟩

section
variable {ι : Type} [DecidableEq ι] {m : Mem α} {list : ι → ListRef α} {xs : ι → List α}
  {less : α → α → Bool} {S : Set α}

/-- The contents after `ds` is appended to the list for duplicates, if there is one. -/
def appended (xs : ι → List α) (duplicates : Option ι) (ds : List α) : ι → List α :=
  duplicates.elim xs fun j => update xs j (xs j ++ ds)

omit [DecidableEq α] in
@[simp] theorem appended_nil (xs : ι → List α) (duplicates : Option ι) :
    appended xs duplicates [] = xs := by
  cases duplicates <;> simp [appended]

omit [DecidableEq α] in
theorem appended_appended (xs : ι → List α) (duplicates : Option ι) (as bs : List α) :
    appended (appended xs duplicates as) duplicates bs = appended xs duplicates (as ++ bs) := by
  cases duplicates <;> simp [appended]

omit [DecidableEq α] in
theorem appended_update {i : ι} {duplicates : Option ι} (other : ∀ j ∈ duplicates, j ≠ i)
    (ds ys : List α) :
    appended (update xs i ys) duplicates ds = update (appended xs duplicates ds) i ys := by
  cases duplicates with
  | none => rfl
  | some j =>
    have differ : j ≠ i := other j rfl
    simp only [appended, Option.elim_some, update_of_ne differ]
    exact update_comm differ.symm _ _ _

omit [DecidableEq α] in
theorem appended_self {i : ι} {duplicates : Option ι} (other : ∀ j ∈ duplicates, j ≠ i)
    (ds : List α) : appended xs duplicates ds i = xs i := by
  cases duplicates with
  | none => rfl
  | some j => exact update_of_ne (other j rfl).symm _ _

theorem pushDuplicate_spec (lists : Lists m list xs) (duplicates : Option ι) {elem : α}
    (fresh : ∀ j, elem ∉ (list j).span (xs j)) : ∃ m', (duplicates.map list).elim (some m)
    (fun duplicates => listPushBack m duplicates (some elem)) = some m' ∧
    Lists m' list (appended xs duplicates [elem]) := by
  cases duplicates with
  | none => exact ⟨m, rfl, lists⟩
  | some j => exact lists.pushBack j fresh

omit [DecidableEq ι] in
theorem uniqueLoop_apart {e z : α} {ref : ListRef α} (shows : Shows m ref (us ++ e :: z :: zs))
    (duplicates : Option (ListRef α)) (fuel : Nat) (apart : equiv less e z = false) :
    uniqueLoop less ref duplicates (fuel + 1) m (some e) =
      uniqueLoop less ref duplicates fuel m (some z) := by
  have later : Shows m ref ((us ++ [e]) ++ z :: zs) := by simpa using shows
  have next : listNext m (some e) = some (some z) := Shows.listNext shows
  have test : (!less e z && !less z e) = false := apart
  simp only [uniqueLoop, next, shows_ne_end later, lessAt_some, test, Option.bind_eq_bind,
    Option.bind_some, if_false, Bool.false_eq_true]

theorem uniqueLoop_spec (weak : StrictWeak less S) (lists : Lists m list xs) {i : ι}
    {duplicates : Option ι} (other : ∀ j ∈ duplicates, j ≠ i) {e : α}
    (split : xs i = us ++ e :: zs) (inside : ∀ a ∈ e :: zs, a ∈ S) (enough : zs.length < fuel) :
    ∃ m', uniqueLoop less (list i) (duplicates.map list) fuel m (some e) = some m' ∧
      Lists m' list (appended (update xs i (us ++ firsts less (e :: zs))) duplicates
        (repeats less (e :: zs))) := by
  induction zs generalizing m xs us e fuel with
  | nil =>
    obtain _ | fuel := fuel
    · omega
    have shows : Shows m (list i) (us ++ [e]) := split ▸ lists.shows i
    refine ⟨m, by simp [uniqueLoop, Shows.listNext shows], ?_⟩
    rw [(firsts_single e).1, (firsts_single e).2, appended_nil]
    exact lists_same lists split
  | cons z zs ih =>
    obtain _ | fuel := fuel
    · omega
    have shows : Shows m (list i) (us ++ e :: z :: zs) := split ▸ lists.shows i
    have later : Shows m (list i) ((us ++ [e]) ++ z :: zs) := by simpa using shows
    have split' : xs i = (us ++ [e]) ++ z :: zs := by simpa using split
    have next : listNext m (some e) = some (some z) := Shows.listNext shows
    have going := shows_ne_end later
    cases alike : equiv less e z with
    | true =>
      obtain ⟨first, rest⟩ := firsts_alike weak inside alike
      obtain ⟨m1, removed, without⟩ := lists.remove split'
      obtain ⟨m2, pushed, moved⟩ := pushDuplicate_spec without duplicates (lists.removed_off split')
      have content : appended (update xs i (us ++ [e] ++ zs)) duplicates [z] i =
          us ++ e :: zs := by
        rw [appended_self other]
        simp
      obtain ⟨m', loop, after⟩ := ih moved content
        (fun a member => inside a (by simp at member ⊢; tauto)) (Nat.lt_of_succ_lt_succ enough)
      refine ⟨m', ?_, ?_⟩
      · have test : (!less e z && !less z e) = true := alike
        simp only [uniqueLoop, next, going, lessAt_some, test, removed, pushed,
          Option.bind_eq_bind, Option.bind_some, if_true, if_false]
        exact loop
      · rw [first, rest]
        rw [appended_update other, appended_appended, ← appended_update other, update_idem] at after
        exact after
    | false =>
      obtain ⟨first, rest⟩ := firsts_apart zs alike
      obtain ⟨m', loop, after⟩ := ih lists split'
        (fun a member => inside a (List.mem_cons_of_mem e member)) (Nat.lt_of_succ_lt_succ enough)
      refine ⟨m', by rw [uniqueLoop_apart shows _ _ alike, loop], ?_⟩
      rw [first, rest]
      simpa using after

theorem listUnique_spec {i : ι} (lists : Lists m list xs) {duplicates : Option ι}
    (other : ∀ j ∈ duplicates, j ≠ i) (weak : StrictWeak less {a | a ∈ xs i})
    (enough : (xs i).length < fuel) :
    ∃ m', listUnique less fuel m (list i) (duplicates.map list) = some m' ∧
      Lists m' list (appended (update xs i (firsts less (xs i))) duplicates
        (repeats less (xs i))) := by
  have empty := (lists.shows i).empty
  cases content : xs i with
  | nil =>
    rw [content] at empty
    refine ⟨m, by simp [listUnique, empty], ?_⟩
    have none : repeats less ([] : List α) = [] := rfl
    rw [none, appended_nil]
    exact lists_same lists content
  | cons e zs =>
    have split : xs i = [] ++ e :: zs := content
    have start := (lists.shows i).begin
    rw [content] at empty start enough weak
    obtain ⟨m', loop, after⟩ := uniqueLoop_spec weak lists other split (fun _ member => member)
      (Nat.lt_of_succ_lt enough)
    exact ⟨m', by simpa [listUnique, empty, start] using loop, after⟩

omit [DecidableEq ι] in
theorem listUnique_apart {ref : ListRef α} {ys : List α} (shows : Shows m ref ys)
    (duplicates : Option (ListRef α)) (apart : ys.IsChain fun a b => equiv less a b = false)
    (enough : ys.length < fuel) : listUnique less fuel m ref duplicates = some m := by
  have loop : ∀ us e zs, Shows m ref (us ++ e :: zs) →
      (e :: zs).IsChain (fun a b => equiv less a b = false) → ∀ fuel, zs.length < fuel →
      uniqueLoop less ref duplicates fuel m (some e) = some m := by
    intro us e zs
    induction zs generalizing us e with
    | nil =>
      intro shows _ fuel enough
      obtain _ | fuel := fuel
      · omega
      simp [uniqueLoop, Shows.listNext shows]
    | cons z zs ih =>
      intro shows chain fuel enough
      obtain _ | fuel := fuel
      · omega
      obtain ⟨near, rest⟩ := List.isChain_cons_cons.mp chain
      rw [uniqueLoop_apart shows _ _ near]
      exact ih (us ++ [e]) z (by simpa using shows) rest fuel (Nat.lt_of_succ_lt_succ enough)
  have empty := shows.empty
  have start := shows.begin
  cases ys with
  | nil => simp [listUnique, empty]
  | cons e zs =>
    have walk := loop [] e zs shows apart fuel (Nat.lt_of_succ_lt enough)
    simpa [listUnique, empty, start] using walk

/-- The first element of every run of equivalent neighbours stays, in order, and the others go
to the end of the list for duplicates in their old order.  After a sort what stays goes strictly
up; a second call finds nothing to do. -/
theorem list_unique_runs (lists : Lists m list xs) (i : ι) (duplicates : Option ι)
    (other : ∀ j ∈ duplicates, j ≠ i) (less : α → α → Bool)
    (weak : StrictWeak less {a | a ∈ xs i}) (fuel : Nat) (enough : (xs i).length < fuel) :
    (∃ m', listUnique less fuel m (list i) (duplicates.map list) = some m' ∧
      Lists m' list (appended (update xs i (firsts less (xs i))) duplicates
        (repeats less (xs i))) ∧
      listUnique less fuel m' (list i) (duplicates.map list) = some m') ∧
    (firsts less (xs i)).IsChain (fun a b => equiv less a b = false) ∧
    (firsts less (xs i) ++ repeats less (xs i)).Perm (xs i) ∧
    (firsts less (xs i)).Sublist (xs i) ∧ (repeats less (xs i)).Sublist (xs i) ∧
    ∃ m₁ m₂ ys, listSort less fuel m (list i) = some m₁ ∧
      listUnique less fuel m₁ (list i) (duplicates.map list) = some m₂ ∧ ys.Perm (xs i) ∧
      Lists m₂ list (appended (update xs i (firsts less ys)) duplicates
        (repeats less ys)) ∧
      (firsts less ys).Pairwise fun a b => less a b = true := by
  have apart : (firsts less (xs i)).IsChain fun a b => equiv less a b = false := by
    cases content : xs i with
    | nil => exact List.isChain_nil
    | cons e zs =>
      rw [content] at weak
      exact (firsts_chain weak fun _ member => member).1
  obtain ⟨m', unique, after⟩ := listUnique_spec lists other weak enough
  have shows : Shows m' (list i) (firsts less (xs i)) := by
    have := after.shows i
    rwa [appended_self other, update_self] at this
  have again := listUnique_apart shows (duplicates.map list) apart
    (Nat.lt_of_le_of_lt (firsts_sublist less (xs i)).length_le enough)
  obtain ⟨m₁, ys, sort, sorted, stable, order⟩ := listSort_spec lists weak enough
  have content : update xs i ys i = ys := update_self i ys xs
  have weak' : StrictWeak less {a | a ∈ update xs i ys i} := by
    rw [content]
    exact weak.mono fun a member => stable.perm.mem_iff.mp member
  obtain ⟨m₂, unique2, after2⟩ := listUnique_spec sorted other weak'
    (by rw [content, stable.perm.length_eq]; exact enough)
  rw [content, update_idem] at after2
  have increasing : (firsts less ys).Pairwise fun a b => less a b = true := by
    rw [content] at weak'
    cases ys with
    | nil => exact List.Pairwise.nil
    | cons e zs => exact firsts_increasing weak' (fun _ member => member) order
  exact ⟨⟨m', unique, after, again⟩, apart, firsts_repeats_perm (xs i), firsts_sublist less (xs i),
    repeats_sublist less (xs i), m₁, m₂, ys, sort, unique2, stable.perm, after2, increasing⟩

end

theorem list_unique_runs_twoLists :
    ∃ m', listUnique natLess 3 twoLists ⟨0, 1⟩ (some ⟨2, 3⟩) = some m' ∧
      listUnique natLess 3 m' ⟨0, 1⟩ (some ⟨2, 3⟩) = some m' := by
  obtain ⟨m', unique, -, again⟩ := (list_unique_runs twoLists_formed true (some false) (by decide)
    natLess (natLess_weak _) 3 (by decide)).1
  exact ⟨m', unique, again⟩

end Pintos.ListSort
