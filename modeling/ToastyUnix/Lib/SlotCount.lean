import Mathlib

/-!
# Counting the slots of a table

A table assigns to each slot a reference or nothing. `count p table` is the number of slots whose
reference satisfies `p`. Storing in a free slot and clearing a used one change it by one or not at
all, which is what reference counts have to follow.
-/

namespace ToastyUnix.SlotCount

open Finset Function

variable {ι α : Type*} [Fintype ι]

/-- The number of slots whose reference satisfies `p`. -/
def count (p : α → Bool) (table : ι → Option α) : ℕ :=
  (univ.filter fun i ↦ (table i).any p = true).card

variable {p : α → Bool} {table : ι → Option α}

theorem count_congr {q : α → Bool} (h : ∀ i a, table i = some a → p a = q a) :
    count p table = count q table := by
  unfold count
  congr 1
  ext i
  simp only [mem_filter, mem_univ, true_and]
  cases hi : table i with
  | none => simp
  | some a => simp [h i a hi]

theorem count_eq_zero : count p table = 0 ↔ ∀ i a, table i = some a → p a = false := by
  simp only [count, card_eq_zero, filter_eq_empty_iff, mem_univ, true_imp_iff]
  refine forall_congr' fun i ↦ ?_
  cases table i <;> simp

theorem count_pos : 0 < count p table ↔ ∃ i a, table i = some a ∧ p a = true := by
  rw [Nat.pos_iff_ne_zero, ne_eq, count_eq_zero]
  simp only [not_forall, Bool.not_eq_false, exists_prop]

section Update

variable [DecidableEq ι] {p : α → Bool} {table : ι → Option α} {i : ι} {a : α}

theorem count_update_some (hi : table i = none) :
    count p (update table i (some a)) = count p table + if p a then 1 else 0 := by
  have hset : (univ.filter fun j ↦ (update table i (some a) j).any p = true) =
      if p a then insert i (univ.filter fun j ↦ (table j).any p = true)
      else univ.filter fun j ↦ (table j).any p = true := by
    ext j
    by_cases hj : j = i
    · subst hj
      cases hp : p a <;> simp [hi, hp]
    · cases hp : p a <;> simp [hj]
  unfold count
  rw [hset]
  split_ifs
  · rw [card_insert_of_notMem (by simp [hi])]
  · rw [Nat.add_zero]

theorem count_update_none (hi : table i = some a) :
    count p (update table i none) + (if p a then 1 else 0) = count p table := by
  have hfree : update table i none i = none := update_self ..
  have hback := count_update_some (p := p) (a := a) hfree
  rw [update_idem, update_eq_self_iff.mpr hi.symm] at hback
  exact hback.symm

end Update

end ToastyUnix.SlotCount
