import Mathlib.Data.List.Nodup
import Mathlib.Logic.Function.Basic
import Mathlib.Data.Set.Basic
import Mathlib.Tactic.Common

/-! Owners of cells. Each live object owns a list of cells; no cell is owned
twice, and every owned cell satisfies a predicate such as being marked in use. -/

namespace Pintos.Ownership

open Function

variable {ι κ : Type}

structure Owned (used : κ → Prop) (live : Set ι) (cells : ι → List κ) : Prop where
  nodup : ∀ i ∈ live, (cells i).Nodup
  apart : ∀ i ∈ live, ∀ j ∈ live, i ≠ j → ∀ x ∈ cells i, x ∉ cells j
  used : ∀ i ∈ live, ∀ x ∈ cells i, used x

variable {used used' : κ → Prop} {live live' : Set ι} {cells cells' : ι → List κ}

section

variable (h : Owned used live cells)
include h

theorem Owned.congr (same : ∀ i ∈ live, cells' i = cells i)
    (keep : ∀ i ∈ live, ∀ x ∈ cells i, used x → used' x) : Owned used' live cells' where
  nodup i hi := by
    rw [same i hi]
    exact h.nodup i hi
  apart i hi j hj ne x hx := by
    rw [same i hi] at hx
    rw [same j hj]
    exact h.apart i hi j hj ne x hx
  used i hi x hx := by
    rw [same i hi] at hx
    exact keep i hi x hx (h.used i hi x hx)

theorem Owned.insert {i : ι} (nodup : (cells i).Nodup) (fresh : ∀ x ∈ cells i, ¬used x)
    (keep : ∀ x, used x → used' x) (taken : ∀ x ∈ cells i, used' x) :
    Owned used' (Set.insert i live) cells where
  nodup j hj := by
    rcases hj with rfl | hj
    · exact nodup
    · exact h.nodup j hj
  apart j hj k hk ne x hx hx' := by
    rcases hj with rfl | hj <;> rcases hk with rfl | hk
    · exact ne rfl
    · exact fresh x hx (h.used k hk x hx')
    · exact fresh x hx' (h.used j hj x hx)
    · exact h.apart j hj k hk ne x hx hx'
  used j hj x hx := by
    rcases hj with rfl | hj
    · exact taken x hx
    · exact keep x (h.used j hj x hx)

theorem Owned.remove {i : ι} (hi : i ∈ live) (fewer : ∀ j ∈ live', j ∈ live ∧ j ≠ i)
    (keep : ∀ x, x ∉ cells i → used x → used' x) : Owned used' live' cells where
  nodup j hj := h.nodup j (fewer j hj).1
  apart j hj k hk := h.apart j (fewer j hj).1 k (fewer k hk).1
  used j hj x hx := by
    obtain ⟨old, ne⟩ := fewer j hj
    exact keep x (h.apart j old i hi ne x hx) (h.used j old x hx)

/-- A live owner takes cells that were not in use, or gives some of its own back. -/
theorem Owned.update [DecidableEq ι] {i : ι} {new : List κ} (nodup : new.Nodup)
    (fresh : ∀ x ∈ new, x ∈ cells i ∨ ¬used x) (hi : i ∈ live)
    (keep : ∀ j ∈ live, j ≠ i → ∀ x ∈ cells j, used x → used' x) (taken : ∀ x ∈ new, used' x) :
    Owned used' live (update cells i new) where
  nodup j hj := by
    by_cases here : j = i
    · simpa [here] using nodup
    · simpa [here] using h.nodup j hj
  apart j hj k hk ne x hx hx' := by
    by_cases here : j = i <;> by_cases here' : k = i
    · exact ne (here.trans here'.symm)
    · simp only [here, update_self] at hx
      simp only [here', ne_eq, not_false_eq_true, update_of_ne] at hx'
      rcases fresh x hx with own | not
      · exact h.apart i hi k hk (Ne.symm here') x own hx'
      · exact not (h.used k hk x hx')
    · simp only [here, ne_eq, not_false_eq_true, update_of_ne] at hx
      simp only [here', update_self] at hx'
      rcases fresh x hx' with own | not
      · exact h.apart i hi j hj (Ne.symm here) x own hx
      · exact not (h.used j hj x hx)
    · simp only [here, here', ne_eq, not_false_eq_true, update_of_ne] at hx hx'
      exact h.apart j hj k hk ne x hx hx'
  used j hj x hx := by
    by_cases here : j = i
    · simp only [here, update_self] at hx
      exact taken x hx
    · simp only [here, ne_eq, not_false_eq_true, update_of_ne] at hx
      exact keep j hj here x hx (h.used j hj x hx)

theorem Owned.nodup_flatMap {l : List ι} (distinct : l.Nodup) (sub : ∀ i ∈ l, i ∈ live) :
    (l.flatMap cells).Nodup := by
  rw [List.nodup_flatMap]
  refine ⟨fun i hi => h.nodup i (sub i hi), ?_⟩
  refine distinct.imp_of_mem fun {i j} hi hj ne x hx hx' => ?_
  exact h.apart i (sub i hi) j (sub j hj) ne x hx hx'

end

end Pintos.Ownership
