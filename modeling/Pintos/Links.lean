import Pintos.ByteStore
import Mathlib.Data.List.Nodup

/-! Doubly linked lists in byte memory. An element takes eight bytes: the address of the
element before it and the address of the one after it. A list lies between two elements that
are not part of it. -/

namespace Pintos.Links
open ByteStore
open List (append_assoc cons_append mem_append_left mem_cons_of_mem nodup_cons)

variable {m m' : Nat → UInt8} {a b e h t w x : Nat} {xs ys : List Nat}

def word (m : Nat → UInt8) (a : Nat) : Nat := readLe32 (slice m a 4)

def setWord (m : Nat → UInt8) (a w : Nat) : Nat → UInt8 := splice m a (le32 w)

theorem word_congr (same : ∀ x, a ≤ x → x < a + 4 → m' x = m x) : word m' a = word m a :=
  congrArg readLe32 (slice_congr same)

theorem word_setWord (lt : w < 2 ^ 32) : word (setWord m a w) a = w := by
  have read : slice (setWord m a w) a 4 = le32 w := slice_splice m a (le32 w)
  rw [word, read, ← List.append_nil (le32 w), readLe32_le32 w [] lt]

theorem setWord_other (off : x < a ∨ a + 4 ≤ x) : setWord m a w x = m x :=
  splice_off m _ off

theorem word_setWord_other (off : b + 4 ≤ a ∨ a + 4 ≤ b) : word (setWord m a w) b = word m b :=
  word_congr fun x low high => setWord_other (by omega)

def prev (m : Nat → UInt8) (e : Nat) : Nat := word m e

def next (m : Nat → UInt8) (e : Nat) : Nat := word m (e + 4)

def insertBefore (m : Nat → UInt8) (before elem : Nat) : Nat → UInt8 :=
  let m := setWord m elem (prev m before)
  let m := setWord m (elem + 4) before
  let m := setWord m (prev m before + 4) elem
  setWord m before elem

def remove (m : Nat → UInt8) (elem : Nat) : Nat → UInt8 :=
  let m := setWord m (prev m elem + 4) (next m elem)
  setWord m (next m elem) (prev m elem)

def Apart (a b : Nat) : Prop := a + 8 ≤ b ∨ b + 8 ≤ a

theorem Apart.symm (h : Apart a b) : Apart b a := Or.symm h

def Seg (m : Nat → UInt8) : Nat → List Nat → Nat → Prop
  | a, [], b => next m a = b ∧ prev m b = a
  | a, x :: xs, b => next m a = x ∧ prev m x = a ∧ Seg m x xs b

theorem seg_append : Seg m a (xs ++ x :: ys) b ↔ Seg m a xs x ∧ Seg m x ys b := by
  induction xs generalizing a with
  | nil => simp only [List.nil_append, Seg, and_assoc]
  | cons y xs ih => simp only [cons_append, Seg, ih, and_assoc]

theorem Seg.congr (seg : Seg m a xs b) (after : ∀ e ∈ a :: xs, next m' e = next m e)
    (before : ∀ e ∈ xs ++ [b], prev m' e = prev m e) : Seg m' a xs b := by
  induction xs generalizing a with
  | nil =>
    rw [Seg, after a (by simp), before b (by simp)]
    exact seg
  | cons x xs ih =>
    obtain ⟨out, back, rest⟩ := seg
    refine ⟨(after a (by simp)).trans out, (before x (by simp)).trans back, ih rest ?_ ?_⟩
    · exact fun e mem => after e (mem_cons_of_mem a mem)
    · exact fun e mem => before e (mem_cons_of_mem x mem)

theorem Seg.prev_mem (seg : Seg m a xs b) : prev m b ∈ a :: xs := by
  induction xs generalizing a with
  | nil => exact seg.2 ▸ List.mem_singleton_self a
  | cons x xs ih => exact mem_cons_of_mem a (ih seg.2.2)

theorem Seg.next_mem (seg : Seg m a xs b) : next m a ∈ xs ++ [b] := by
  cases xs with
  | nil => exact seg.1 ▸ List.mem_singleton_self b
  | cons x xs => exact seg.1 ▸ List.mem_cons_self

theorem Seg.prev_next (seg : Seg m a xs b) : prev m (next m a) = a := by
  cases xs with
  | nil => rw [seg.1, seg.2]
  | cons x xs => rw [seg.1, seg.2.1]

/-- Elements that can make up lists: none overlaps another one. -/
structure Separate (es : Set Nat) : Prop where
  apart : ∀ a ∈ es, ∀ b ∈ es, a ≠ b → Apart a b
  bounded : ∀ a ∈ es, a < 2 ^ 32

variable {es : Set Nat}

section

variable (sep : Separate es) (ha : a ∈ es) (hb : b ∈ es)
include sep ha hb

theorem Separate.off (ne : a ≠ b) : a + 8 ≤ b ∨ b + 8 ≤ a := sep.apart a ha b hb ne

/-- No first word overlaps a second word. -/
theorem Separate.sides : a + 4 ≤ b + 4 ∨ b + 4 + 4 ≤ a := by
  by_cases same : a = b
  · omega
  · have := sep.off ha hb same
    omega

end

section Insert

variable (sep : Separate es) (he : e ∈ es) (hb : b ∈ es) (hp : prev m b ∈ es)
  (eb : e ≠ b) (ep : e ≠ prev m b) (bp : b ≠ prev m b)
include sep he hb

theorem insert_eq (eb : e ≠ b) : insertBefore m b e =
    setWord (setWord (setWord (setWord m e (prev m b)) (e + 4) b) (prev m b + 4) e) b e := by
  have apart := sep.off he hb eb
  have same : prev (setWord (setWord m e (prev m b)) (e + 4) b) b = prev m b := by
    rw [prev, word_setWord_other (by omega), word_setWord_other (by omega), prev]
  rw [insertBefore, same]

include hp eb ep bp

theorem next_insert (hx : x ∈ es) : next (insertBefore m b e) x =
    if x = e then b else if x = prev m b then e else next m x := by
  have bound := sep.bounded
  have eb' := sep.off he hb eb
  have ep' := sep.off he hp ep
  have bp' := sep.off hb hp bp
  rw [insert_eq sep he hb eb, next]
  split_ifs with here there
  · subst here
    rw [word_setWord_other (by omega), word_setWord_other (by omega), word_setWord (bound b hb)]
  · subst there
    rw [word_setWord_other (by omega), word_setWord (bound e he)]
  have xe := sep.off hx he here
  have xp := sep.off hx hp there
  have xb := sep.sides hb hx
  simp (disch := omega) only [word_setWord_other]
  rfl

theorem prev_insert (hx : x ∈ es) : prev (insertBefore m b e) x =
    if x = b then e else if x = e then prev m b else prev m x := by
  have bound := sep.bounded
  have ep' := sep.off he hp ep
  have eb' := sep.off he hb eb
  rw [insert_eq sep he hb eb, prev]
  split_ifs with here there
  · subst here
    rw [word_setWord (bound e he)]
  · subst there
    simp (disch := omega) only [word_setWord_other, word_setWord (bound _ hp)]
  have xb := sep.off hx hb here
  have xe := sep.off hx he there
  have xp := sep.sides hx hp
  simp (disch := omega) only [word_setWord_other]
  rfl

end Insert

section

variable (sep : Separate es) (he : e ∈ es)
include sep he

theorem Seg.insert (seg : Seg m h xs b) (sub : ∀ x ∈ h :: xs ++ [b], x ∈ es)
    (fresh : e ∉ h :: xs ++ [b]) (nodup : (h :: xs ++ [b]).Nodup) :
    Seg (insertBefore m b e) h (xs ++ [e]) b := by
  have hb : b ∈ es := sub b (by simp)
  have eb : e ≠ b := fun same => fresh (by simp [same])
  have last := seg.prev_mem
  have hp : prev m b ∈ es := sub _ (mem_append_left _ last)
  have ep : e ≠ prev m b := fun same => fresh (mem_append_left _ (same ▸ last))
  have bp : b ≠ prev m b := fun same =>
    (List.disjoint_of_nodup_append nodup) last (by rw [← same]; simp)
  have next' := fun x mem => next_insert sep he hb hp eb ep bp (x := x) (sub x mem)
  have prev' := fun x mem => prev_insert sep he hb hp eb ep bp (x := x) (sub x mem)
  induction xs generalizing h with
  | nil =>
    have back : prev m b = h := seg.2
    have he' : h ≠ e := fun same => fresh (by simp [same])
    refine ⟨?_, ?_, ?_, ?_⟩
    · rw [next' h (by simp), if_neg he', if_pos back.symm]
    · rw [prev_insert sep he hb hp eb ep bp he, if_neg eb, if_pos rfl, back]
    · rw [next_insert sep he hb hp eb ep bp he, if_pos rfl]
    · rw [prev' b (by simp), if_pos rfl]
  | cons x xs ih =>
    obtain ⟨out, back, rest⟩ := seg
    have inner := rest.prev_mem
    rw [cons_append, nodup_cons] at nodup
    have hprev : h ≠ prev m b := fun same => nodup.1 (mem_append_left _ (same ▸ inner))
    have xb : x ≠ b := fun same => by simp [same] at nodup
    refine ⟨?_, ?_, ih rest (fun y mem => sub y (mem_cons_of_mem _ mem))
      (fun mem => fresh (mem_cons_of_mem _ mem)) nodup.2 inner
      (fun y mem => next' y (mem_cons_of_mem _ mem))
      fun y mem => prev' y (mem_cons_of_mem _ mem)⟩
    · rw [next' h (by simp), if_neg (fun same => fresh (by simp [same])), if_neg hprev, out]
    · rw [prev' x (by simp), if_neg xb, if_neg (fun same => fresh (by simp [same])), back]

theorem Seg.insert_right (left : Seg m h xs b) (right : Seg m b ys t)
    (sub : ∀ x ∈ h :: xs ++ b :: ys ++ [t], x ∈ es) (fresh : e ∉ h :: xs ++ b :: ys ++ [t])
    (nodup : (h :: xs ++ b :: ys ++ [t]).Nodup) : Seg (insertBefore m b e) b ys t := by
  have hb : b ∈ es := sub b (by simp)
  have eb : e ≠ b := fun same => fresh (by simp [same])
  have last := left.prev_mem
  have hp : prev m b ∈ es := sub _ (by simp only [append_assoc]; exact mem_append_left _ last)
  have ep : e ≠ prev m b := fun same => fresh (by
    simp only [append_assoc]; exact mem_append_left _ (same ▸ last))
  rw [append_assoc] at nodup
  have off : ∀ x ∈ b :: ys ++ [t], x ≠ prev m b := fun x mem same =>
    (List.disjoint_of_nodup_append nodup) last (same ▸ mem)
  have bp : b ≠ prev m b := off b (by simp)
  have inner := (List.nodup_append.mp nodup).2.1
  rw [cons_append, nodup_cons] at inner
  refine right.congr (fun x mem => ?_) fun x mem => ?_
  · have mem' : x ∈ b :: ys ++ [t] := mem_append_left _ mem
    have all : x ∈ h :: xs ++ b :: ys ++ [t] := by
      rw [append_assoc]; exact List.mem_append_right _ mem'
    have xe : x ≠ e := fun same => fresh (same ▸ all)
    rw [next_insert sep he hb hp eb ep bp (sub x all), if_neg xe, if_neg (off x mem')]
  have mem' : x ∈ b :: ys ++ [t] := mem_cons_of_mem _ mem
  have all : x ∈ h :: xs ++ b :: ys ++ [t] := by
    rw [append_assoc]; exact List.mem_append_right _ mem'
  have xb : x ≠ b := fun same => inner.1 (same ▸ mem)
  have xe : x ≠ e := fun same => fresh (same ▸ all)
  rw [prev_insert sep he hb hp eb ep bp (sub x all), if_neg xb, if_neg xe]

theorem Seg.pushFront (seg : Seg m h xs t) (sub : ∀ x ∈ h :: xs ++ [t], x ∈ es)
    (fresh : e ∉ h :: xs ++ [t]) (nodup : (h :: xs ++ [t]).Nodup) :
    Seg (insertBefore m (next m h) e) h (e :: xs) t := by
  cases xs with
  | nil =>
    rw [seg.1]
    exact seg.insert sep he sub fresh nodup
  | cons x xs =>
    obtain ⟨out, back, rest⟩ := seg
    have left : Seg m h [] x := ⟨out, back⟩
    rw [out]
    have front : Seg (insertBefore m x e) h [e] x :=
      left.insert sep he (fun y mem => sub y (by simp at mem ⊢; tauto))
        (fun mem => fresh (by simp at mem ⊢; tauto)) (nodup.sublist (by simp))
    have joined : Seg (insertBefore m x e) h ([e] ++ x :: xs) t :=
      seg_append.mpr ⟨front, left.insert_right sep he rest sub fresh nodup⟩
    exact joined

theorem insert_other (hb : b ∈ es) (eb : e ≠ b)
    (off : ∀ y, y = e ∨ y = b ∨ y = prev m b → x < y ∨ y + 8 ≤ x) : insertBefore m b e x = m x := by
  have xe := off e (by simp)
  have xb := off b (by simp)
  have xp := off (prev m b) (by simp)
  simp (disch := omega) only [insert_eq sep he hb eb, setWord_other]

end

section Remove

variable (sep : Separate es) (he : e ∈ es) (hp : prev m e ∈ es) (hn : next m e ∈ es)
  (pe : prev m e ≠ e) (ne : next m e ≠ e)
include sep he hp pe

theorem remove_eq : remove m e =
    setWord (setWord m (prev m e + 4) (next m e)) (next m e) (prev m e) := by
  have apart := sep.off hp he pe
  have back : prev (setWord m (prev m e + 4) (next m e)) e = prev m e :=
    word_setWord_other (by omega)
  have out : next (setWord m (prev m e + 4) (next m e)) e = next m e :=
    word_setWord_other (by omega)
  rw [remove, back, out]

include hn

theorem next_remove (pn : prev m e ≠ next m e) (hx : x ∈ es) :
    next (remove m e) x = if x = prev m e then next m e else next m x := by
  have pn' := sep.off hp hn pn
  rw [remove_eq sep he hp pe, next]
  split_ifs with here
  · subst here
    rw [word_setWord_other (by omega), word_setWord (sep.bounded _ hn)]
  · have xp := sep.off hx hp here
    have xn := sep.sides hn hx
    rw [word_setWord_other (by omega), word_setWord_other (by omega), next]

theorem prev_remove (hx : x ∈ es) :
    prev (remove m e) x = if x = next m e then prev m e else prev m x := by
  rw [remove_eq sep he hp pe, prev]
  split_ifs with here
  · subst here
    rw [word_setWord (sep.bounded _ hp)]
  · have xn := sep.off hx hn here
    have xp := sep.sides hx hp
    rw [word_setWord_other (by omega), word_setWord_other (by omega), prev]

end Remove

theorem Seg.skip (left : Seg m h xs e) (right : Seg m e ys t)
    (nodup : (h :: xs ++ e :: (ys ++ [t])).Nodup)
    (next' : ∀ x ∈ h :: xs ++ e :: (ys ++ [t]),
      next m' x = if x = prev m e then next m e else next m x)
    (prev' : ∀ x ∈ h :: xs ++ e :: (ys ++ [t]),
      prev m' x = if x = next m e then prev m e else prev m x) : Seg m' h (xs ++ ys) t := by
  induction xs generalizing h with
  | nil =>
    obtain ⟨out, back⟩ := left
    rw [cons_append, List.nil_append, nodup_cons, nodup_cons] at nodup
    have first : next m' h = next m e := by rw [next' h (by simp), if_pos back.symm]
    cases ys with
    | nil =>
      obtain ⟨out', -⟩ := right
      refine ⟨first.trans out', ?_⟩
      rw [prev' t (by simp), if_pos out'.symm, back]
    | cons y ys =>
      obtain ⟨out', -, rest⟩ := right
      refine ⟨first.trans out', ?_, rest.congr (fun x mem => ?_) fun x mem => ?_⟩
      · rw [prev' y (by simp), if_pos out'.symm, back]
      · have mem' : x ∈ e :: (y :: ys ++ [t]) := by simp at mem ⊢; tauto
        have xp : x ≠ prev m e := fun same => nodup.1 (by rw [← back, ← same]; exact mem')
        rw [next' x (mem_cons_of_mem _ mem'), if_neg xp]
      · have mem' : x ∈ e :: (y :: ys ++ [t]) := by simp at mem ⊢; tauto
        have xn : x ≠ next m e := fun same => by
          rw [cons_append, nodup_cons, ← out', ← same] at nodup
          exact nodup.2.2.1 mem
        rw [prev' x (mem_cons_of_mem _ mem'), if_neg xn]
  | cons x xs ih =>
    obtain ⟨out, back, rest⟩ := left
    have inner := rest.prev_mem
    rw [cons_append, nodup_cons] at nodup
    have hprev : h ≠ prev m e := fun same => nodup.1 (mem_append_left _ (same ▸ inner))
    have xn : x ≠ next m e := fun same => by
      have later := mem_cons_of_mem e (same ▸ right.next_mem)
      rw [cons_append, nodup_cons] at nodup
      exact nodup.2.1 (List.mem_append_right _ later)
    refine ⟨?_, ?_, ih rest nodup.2 (fun y mem => next' y (mem_cons_of_mem _ mem))
      fun y mem => prev' y (mem_cons_of_mem _ mem)⟩
    · rw [next' h (by simp), if_neg hprev, out]
    · rw [prev' x (by simp), if_neg xn, back]

theorem Seg.remove (sep : Separate es) (seg : Seg m h (xs ++ e :: ys) t)
    (sub : ∀ x ∈ h :: (xs ++ e :: ys) ++ [t], x ∈ es)
    (nodup : (h :: (xs ++ e :: ys) ++ [t]).Nodup) : Seg (remove m e) h (xs ++ ys) t := by
  obtain ⟨left, right⟩ := seg_append.mp seg
  have he : e ∈ es := sub e (by simp)
  have first := left.prev_mem
  have last := right.next_mem
  have hp : prev m e ∈ es := sub _ (by simp at first ⊢; tauto)
  have hn : next m e ∈ es := sub _ (by simp at last ⊢; tauto)
  have order : ((h :: xs) ++ (e :: (ys ++ [t]))).Nodup := by simpa using nodup
  obtain ⟨-, -, cross⟩ := List.nodup_append.mp order
  have pe : prev m e ≠ e := cross _ first e (by simp)
  have pn : prev m e ≠ next m e := cross _ first _ (mem_cons_of_mem _ last)
  exact left.skip right order
    (fun x mem => next_remove sep he hp hn pe pn (sub x (by simpa using mem)))
    fun x mem => prev_remove sep he hp hn pe (sub x (by simpa using mem))

theorem remove_other (sep : Separate es) (he : e ∈ es) (hp : prev m e ∈ es) (pe : prev m e ≠ e)
    (off : ∀ y, y = prev m e ∨ y = next m e → x < y ∨ y + 8 ≤ x) : remove m e x = m x := by
  have xp := off (prev m e) (by simp)
  have xn := off (next m e) (by simp)
  rw [remove_eq sep he hp pe, setWord_other (by omega), setWord_other (by omega)]

end Pintos.Links
