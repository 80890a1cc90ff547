import Mathlib.Data.List.SplitBy
import Mathlib.Data.List.TakeWhile
import Mathlib.Data.Set.List

/-! Lists compared by a strict weak order. A stable rearrangement keeps the elements and, among
equivalent ones, their order; merging two sorted lists is one. A list has as many ascending
runs as descents, and one more. The laws of the order are asked only of a set that holds the
elements of the lists. -/

namespace Pintos.WeakOrder

open List (cons_append filter_append mem_cons mem_cons_of_mem pairwise_cons)

variable {α : Type*} {less : α → α → Bool} {S : Set α}

def equiv (less : α → α → Bool) (a b : α) : Bool :=
  !less a b && !less b a

def NotAfter (less : α → α → Bool) (a b : α) : Prop :=
  less b a = false

instance (less : α → α → Bool) (a b : α) : Decidable (NotAfter less a b) :=
  inferInstanceAs (Decidable (less b a = false))

/-- `less` is a strict weak order on `S`. -/
structure StrictWeak (less : α → α → Bool) (S : Set α) : Prop where
  irrefl : ∀ a ∈ S, less a a = false
  trans : ∀ a ∈ S, ∀ b ∈ S, ∀ c ∈ S, less a b = true → less b c = true → less a c = true
  same : ∀ a ∈ S, ∀ b ∈ S, ∀ c ∈ S,
    equiv less a b = true → equiv less b c = true → equiv less a c = true
variable {a b : α} {xs : List α}

theorem equiv_eq_true : equiv less a b = true ↔ less a b = false ∧ less b a = false := by
  simp [equiv]

theorem equiv_comm (a b : α) : equiv less a b = equiv less b a :=
  Bool.and_comm _ _

namespace StrictWeak
variable {a b c : α}

theorem mono {T : Set α} (weak : StrictWeak less T) (sub : ∀ a ∈ S, a ∈ T) : StrictWeak less S where
  irrefl := fun a ha => weak.irrefl a (sub a ha)
  trans := fun a ha b hb c hc => weak.trans a (sub a ha) b (sub b hb) c (sub c hc)
  same := fun a ha b hb c hc => weak.same a (sub a ha) b (sub b hb) c (sub c hc)

section

variable (weak : StrictWeak less S) (ha : a ∈ S) (hb : b ∈ S)
include weak ha hb

theorem asymm (lt : less a b = true) : less b a = false := by
  by_contra back
  have loop := weak.trans a ha b hb a ha lt (by simpa using back)
  rw [weak.irrefl a ha] at loop
  cases loop

/-- What lies between two elements in order is apart from one of them. -/
theorem split (hc : c ∈ S) (lt : less a c = true) : less a b = true ∨ less b c = true := by
  by_contra neither
  simp only [not_or, Bool.not_eq_true] at neither
  have notBelow : less b a = false := by
    by_contra below
    have := weak.trans b hb a ha c hc (by simpa using below) lt
    rw [neither.2] at this
    cases this
  have notAbove : less c b = false := by
    by_contra above
    have := weak.trans a ha c hc b hb lt (by simpa using above)
    rw [neither.1] at this
    cases this
  have both := weak.same a ha b hb c hc (equiv_eq_true.mpr ⟨neither.1, notBelow⟩)
    (equiv_eq_true.mpr ⟨neither.2, notAbove⟩)
  rw [(equiv_eq_true.mp both).1] at lt
  cases lt

theorem notAfter_trans (hc : c ∈ S) (first : NotAfter less a b) (second : NotAfter less b c) :
    NotAfter less a c := by
  by_contra after
  rcases weak.split hc hb ha (by simpa [NotAfter] using after) with lt | lt
  · rw [NotAfter, lt] at second
    cases second
  · rw [NotAfter, lt] at first
    cases first

theorem lt_of_lt_of_notAfter (hc : c ∈ S) (lt : less a b = true) (le : NotAfter less b c) :
    less a c = true := by
  rcases weak.split ha hc hb lt with below | above
  · exact below
  · rw [NotAfter, above] at le
    cases le

theorem notAfter_of_lt (lt : less a b = true) : NotAfter less a b :=
  weak.asymm ha hb lt

end

theorem pairwise (weak : StrictWeak less S) (inside : ∀ a ∈ xs, a ∈ S)
    (chain : xs.IsChain (NotAfter less)) : xs.Pairwise (NotAfter less) := by
  induction xs with
  | nil => exact List.Pairwise.nil
  | cons a xs ih =>
    have rest := ih (fun b hb => inside b (mem_cons_of_mem a hb)) chain.tail
    refine pairwise_cons.mpr ⟨?_, rest⟩
    cases xs with
    | nil => simp
    | cons b xs =>
      have near : NotAfter less a b := (List.isChain_cons_cons.mp chain).1
      intro c member
      rcases mem_cons.mp member with rfl | later
      · exact near
      · have far := (pairwise_cons.mp rest).1 c later
        exact weak.notAfter_trans (inside a (by simp)) (inside b (by simp))
          (inside c (mem_cons_of_mem a member)) near far

end StrictWeak

/-- `ys` has the elements of `xs`, and those equivalent to an element in the same order. -/
structure Stable (less : α → α → Bool) (S : Set α) (xs ys : List α) : Prop where
  perm : ys.Perm xs
  order : ∀ x ∈ S, ys.filter (equiv less x) = xs.filter (equiv less x)

namespace Stable
variable {xs ys zs : List α}

theorem refl (xs : List α) : Stable less S xs xs :=
  ⟨List.Perm.refl xs, fun _ _ => rfl⟩

theorem trans (first : Stable less S xs ys) (second : Stable less S ys zs) : Stable less S xs zs :=
  ⟨second.perm.trans first.perm, fun x hx => (second.order x hx).trans (first.order x hx)⟩

theorem append {us vs : List α} (first : Stable less S xs ys) (second : Stable less S us vs) :
    Stable less S (xs ++ us) (ys ++ vs) where
  perm := first.perm.append second.perm
  order := fun x hx => by
    rw [filter_append, filter_append, first.order x hx, second.order x hx]

end Stable

/-- The merge that prefers the left list among equivalent elements. -/
def merge (less : α → α → Bool) (xs ys : List α) : List α :=
  xs.merge ys fun a b => !less b a

theorem merge_nil (xs : List α) : merge less xs [] = xs := by
  cases xs <;> simp [merge]

theorem nil_merge (ys : List α) : merge less [] ys = ys := by
  simp [merge]

theorem merge_left (as bs : List α) (le : less b a = false) :
    merge less (a :: as) (b :: bs) = a :: merge less as (b :: bs) := by
  simp [merge, le]

theorem merge_right (as bs : List α) (lt : less b a = true) :
    merge less (a :: as) (b :: bs) = b :: merge less (a :: as) bs := by
  simp [merge, lt]

section
variable (weak : StrictWeak less S)
include weak

theorem sorted_merge {ys : List α} (insideX : ∀ a ∈ xs, a ∈ S) (insideY : ∀ a ∈ ys, a ∈ S)
    (left : xs.Pairwise (NotAfter less)) (right : ys.Pairwise (NotAfter less)) :
    (merge less xs ys).Pairwise (NotAfter less) := by
  -- On the elements of `S` the laws hold of the whole type.
  lift xs to List {a // a ∈ S} using insideX
  lift ys to List {a // a ∈ S} using insideY
  let le : {a // a ∈ S} → {a // a ∈ S} → Bool := fun a b => !less b a
  have meaning : ∀ a b : {a // a ∈ S}, le a b = true ↔ NotAfter less a b := by simp [le, NotAfter]
  have trans : ∀ a b c : {a // a ∈ S}, le a b = true → le b c = true → le a c = true := by
    intro a b c first second
    rw [meaning] at first second ⊢
    exact weak.notAfter_trans a.2 b.2 c.2 first second
  have total : ∀ a b : {a // a ∈ S}, (le a b || le b a) = true := by
    intro a b
    rw [Bool.or_eq_true, meaning, meaning]
    by_cases lt : less b a = true
    · exact .inr (weak.notAfter_of_lt b.2 a.2 lt)
    · exact .inl (Bool.eq_false_iff.mpr lt)
  rw [List.pairwise_map] at left right
  have sorted := List.pairwise_merge trans total xs ys
    (left.imp fun h => (meaning _ _).mpr h) (right.imp fun h => (meaning _ _).mpr h)
  have image : (xs.merge ys le).map Subtype.val =
      merge less (xs.map Subtype.val) (ys.map Subtype.val) :=
    List.map_merge fun _ _ _ _ => rfl
  rw [← image, List.pairwise_map]
  exact sorted.imp fun h => (meaning _ _).mp h

theorem stable_merge {ys : List α} (insideX : ∀ a ∈ xs, a ∈ S) (insideY : ∀ a ∈ ys, a ∈ S)
    (left : xs.Pairwise (NotAfter less)) : Stable less S (xs ++ ys) (merge less xs ys) := by
  refine ⟨List.merge_perm_append _, fun x hx => ?_⟩
  induction xs generalizing ys with
  | nil => rw [nil_merge, List.nil_append]
  | cons a as ihX =>
    induction ys with
    | nil => rw [merge_nil, List.append_nil]
    | cons b bs ihY =>
      have ha := insideX a (by simp)
      have hb := insideY b (by simp)
      have restX : ∀ c ∈ as, c ∈ S := fun c hc => insideX c (mem_cons_of_mem a hc)
      have restY : ∀ c ∈ bs, c ∈ S := fun c hc => insideY c (mem_cons_of_mem b hc)
      by_cases lt : less b a = true
      · have rest := ihY restY
        rw [filter_append] at rest
        rw [merge_right as bs lt, filter_append]
        by_cases alike : equiv less x b = true
        · -- `b` comes before all of the left list, so nothing there is equivalent to it.
          have none : (a :: as).filter (equiv less x) = [] := by
            refine List.filter_eq_nil_iff.mpr fun c member both => ?_
            have hc := insideX c member
            have above : less b c = true := by
              rcases mem_cons.mp member with rfl | later
              · exact lt
              · exact weak.lt_of_lt_of_notAfter hb ha hc lt ((pairwise_cons.mp left).1 c later)
            rw [equiv_comm] at alike
            have link := weak.same b hb x hx c hc alike both
            rw [(equiv_eq_true.mp link).1] at above
            cases above
          rw [List.filter_cons_of_pos alike, List.filter_cons_of_pos alike, rest, none]
          rfl
        · rw [List.filter_cons_of_neg alike, List.filter_cons_of_neg alike, rest]
      · rw [merge_left as bs (Bool.eq_false_iff.mpr lt), cons_append, List.filter_cons,
          List.filter_cons, ihX restX insideY left.tail]

end

/-- How often a list steps down. -/
def descents (less : α → α → Bool) : List α → Nat
  | a :: b :: xs => (if less b a then 1 else 0) + descents less (b :: xs)
  | [_] => 0
  | [] => 0

theorem descents_eq_zero : descents less xs = 0 ↔ xs.IsChain (NotAfter less) := by
  induction xs with
  | nil => simp [descents]
  | cons a xs ih =>
    cases xs with
    | nil => simp [descents]
    | cons b xs =>
      rw [descents, List.isChain_cons_cons, ← ih, NotAfter]
      cases less b a <;> simp

theorem descents_append_le (less : α → α → Bool) (xs ys : List α) :
    descents less (xs ++ ys) ≤ descents less xs + descents less ys + 1 := by
  induction xs with
  | nil => simp [descents]
  | cons a xs ih =>
    cases xs with
    | nil =>
      cases ys with
      | nil => simp [descents]
      | cons b ys =>
        simp only [cons_append, List.nil_append, descents]
        split <;> omega
    | cons b xs =>
      simp only [cons_append, descents] at ih ⊢
      omega

theorem descents_lt (less : α → α → Bool) (a : α) (xs : List α) : descents less (a :: xs) ≤ xs.length := by
  induction xs generalizing a with
  | nil => simp [descents]
  | cons b xs ih =>
    have := ih b
    rw [descents, List.length_cons]
    split <;> omega

/-- The first element of every run of equivalent neighbours. -/
def firsts (less : α → α → Bool) (xs : List α) : List α :=
  (xs.splitBy (equiv less)).flatMap (List.take 1)

/-- The other elements of the runs. -/
def repeats (less : α → α → Bool) (xs : List α) : List α :=
  (xs.splitBy (equiv less)).flatMap (List.drop 1)

theorem firsts_single (a : α) : firsts less [a] = [a] ∧ repeats less [a] = [] :=
  ⟨rfl, rfl⟩

theorem firsts_apart (xs : List α) (apart : equiv less a b = false) :
    firsts less (a :: b :: xs) = a :: firsts less (b :: xs) ∧
      repeats less (a :: b :: xs) = repeats less (b :: xs) := by
  have split : (a :: b :: xs).splitBy (equiv less) = [[a]] ++ (b :: xs).splitBy (equiv less) :=
    List.splitBy_append_cons xs (l := [a]) (by simpa using apart)
  rw [firsts, repeats, split]
  exact ⟨rfl, rfl⟩

theorem splitBy_run (weak : StrictWeak less S) {run rest : List α}
    (inside : ∀ c ∈ a :: run ++ rest, c ∈ S) (alike : ∀ c ∈ run, equiv less a c = true)
    (ends : ∀ c ∈ rest.head?, equiv less a c = false) :
    (a :: run ++ rest).splitBy (equiv less) = (a :: run) :: rest.splitBy (equiv less) := by
  have ha := inside a (by simp)
  have like : ∀ c ∈ a :: run, equiv less a c = true := by
    intro c member
    rcases mem_cons.mp member with rfl | later
    · rw [equiv, weak.irrefl c ha]
      rfl
    · exact alike c later
  have chain : (a :: run).IsChain fun x y => equiv less x y = true := by
    refine (List.pairwise_of_forall_mem_list fun x hx y hy => ?_).isChain
    exact weak.same x (inside x (List.mem_append_left _ hx)) a ha
      y (inside y (List.mem_append_left _ hy)) (equiv_comm a x ▸ like x hx) (like y hy)
  have cut : ∀ x ∈ (a :: run).getLast?, ∀ y ∈ rest.head?, equiv less x y = false := by
    intro x last y head
    have hx := List.mem_of_mem_getLast? last
    have hy := List.mem_of_mem_head? head
    by_contra both
    have link := weak.same a ha x (inside x (List.mem_append_left _ hx))
      y (inside y (List.mem_append_right _ hy)) (like x hx) (by simpa using both)
    rw [ends y head] at link
    cases link
  rw [List.splitBy_append cut, List.splitBy_of_isChain (List.cons_ne_nil a run) chain]
  rfl

theorem firsts_alike (weak : StrictWeak less S) (inside : ∀ c ∈ a :: b :: xs, c ∈ S)
    (alike : equiv less a b = true) : firsts less (a :: b :: xs) = firsts less (a :: xs) ∧
    repeats less (a :: b :: xs) = b :: repeats less (a :: xs) := by
  obtain ⟨run, rest, rfl, like, ends⟩ : ∃ run rest, xs = run ++ rest ∧
      (∀ c ∈ run, equiv less a c = true) ∧ ∀ c ∈ rest.head?, equiv less a c = false := by
    refine ⟨xs.takeWhile (equiv less a), xs.dropWhile (equiv less a),
      List.takeWhile_append_dropWhile.symm, fun c hc => List.mem_takeWhile_imp hc, ?_⟩
    intro c head
    have := List.head?_dropWhile_not (equiv less a) xs
    rw [Option.mem_def.mp head] at this
    simpa using this
  have fewer : ∀ c ∈ a :: run ++ rest, c ∈ S := by
    intro c member
    apply inside c
    simp only [mem_cons, List.mem_append] at member ⊢
    tauto
  have like' : ∀ c ∈ b :: run, equiv less a c = true := by simpa using ⟨alike, like⟩
  have short := splitBy_run weak fewer like ends
  have long := splitBy_run weak inside like' ends
  simp only [cons_append] at short long
  simp [firsts, repeats, short, long]

theorem firsts_repeats_perm (xs : List α) : (firsts less xs ++ repeats less xs).Perm xs := by
  have whole := List.flatten_splitBy (equiv less) xs
  rw [firsts, repeats]
  generalize xs.splitBy (equiv less) = runs at *
  subst whole
  induction runs with
  | nil => exact List.Perm.refl _
  | cons run runs ih =>
    have parts : run.take 1 ++ run.drop 1 = run := List.take_append_drop 1 run
    simp only [List.flatMap_cons, List.flatten_cons]
    have sort : ((run.take 1 ++ runs.flatMap (List.take 1)) ++
        (run.drop 1 ++ runs.flatMap (List.drop 1))).Perm
        ((run.take 1 ++ run.drop 1) ++
          (runs.flatMap (List.take 1) ++ runs.flatMap (List.drop 1))) := by
      rw [List.append_assoc, List.append_assoc]
      exact (List.perm_append_comm_assoc _ _ _).append_left _
    rw [parts] at sort
    exact sort.trans (ih.append_left run)

theorem flatMap_sublist {f : List α → List α} (part : ∀ run, (f run).Sublist run)
    (runs : List (List α)) : (runs.flatMap f).Sublist runs.flatten := by
  induction runs with
  | nil => exact List.Sublist.refl []
  | cons run runs ih => exact (part run).append ih

theorem firsts_sublist (less : α → α → Bool) (xs : List α) : (firsts less xs).Sublist xs := by
  have sub := flatMap_sublist (List.take_sublist 1) (xs.splitBy (equiv less))
  rwa [List.flatten_splitBy] at sub

theorem repeats_sublist (less : α → α → Bool) (xs : List α) : (repeats less xs).Sublist xs := by
  have sub := flatMap_sublist (List.drop_sublist 1) (xs.splitBy (equiv less))
  rwa [List.flatten_splitBy] at sub

section
variable (weak : StrictWeak less S)
include weak

theorem firsts_chain (inside : ∀ c ∈ a :: xs, c ∈ S) :
    (firsts less (a :: xs)).IsChain (fun a b => equiv less a b = false) ∧
      ∃ rest, firsts less (a :: xs) = a :: rest := by
  induction xs generalizing a with
  | nil => exact ⟨List.isChain_singleton a, [], rfl⟩
  | cons b xs ih =>
    cases alike : equiv less a b with
    | true =>
      rw [(firsts_alike weak inside alike).1]
      refine ih fun c member => inside c ?_
      simp only [mem_cons] at member ⊢
      tauto
    | false =>
      obtain ⟨chain, rest, start⟩ := ih fun c member => inside c (mem_cons_of_mem a member)
      rw [(firsts_apart xs alike).1]
      rw [start] at chain ⊢
      exact ⟨List.isChain_cons_cons.mpr ⟨alike, chain⟩, b :: rest, rfl⟩

theorem firsts_increasing (inside : ∀ c ∈ a :: xs, c ∈ S)
    (sorted : (a :: xs).Pairwise (NotAfter less)) :
    (firsts less (a :: xs)).Pairwise fun a b => less a b = true := by
  induction xs generalizing a with
  | nil => exact List.pairwise_singleton _ a
  | cons b xs ih =>
    have fewer : (a :: xs).Sublist (a :: b :: xs) := (List.sublist_cons_self b xs).cons_cons a
    cases alike : equiv less a b with
    | true =>
      rw [(firsts_alike weak inside alike).1]
      exact ih (fun c member => inside c (fewer.subset member)) (sorted.sublist fewer)
    | false =>
      obtain ⟨above, rest⟩ := pairwise_cons.mp sorted
      have ha := inside a (by simp)
      have hb := inside b (by simp)
      have lt : less a b = true := by
        have le : less b a = false := above b (by simp)
        simpa [equiv, le] using alike
      rw [(firsts_apart xs alike).1]
      refine pairwise_cons.mpr ⟨fun c member => ?_, ih (fun c member =>
        inside c (mem_cons_of_mem a member)) rest⟩
      rcases mem_cons.mp ((firsts_sublist less _).subset member) with rfl | later
      · exact lt
      · exact weak.lt_of_lt_of_notAfter ha hb (inside c (by simp [later])) lt
          ((pairwise_cons.mp rest).1 c later)

end

end Pintos.WeakOrder
