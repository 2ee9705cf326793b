import Mathlib.Data.List.Basic
import Mathlib.Data.List.Induction
import Mathlib.Order.Lattice

/-!
# Stacks with a limit

A stack that has room for a fixed number of entries and drops what is pushed on top of them, beside
a stack without a limit. Once an entry is dropped, the two differ until the stack without a limit is
empty: both end alike exactly when it is emptied after every time that it was too high
(`walkWithin_eq_iff`).
-/

namespace ToastyUnix.BoundedStack

open List

/-- What happens to a stack. -/
inductive Op (α : Type)
  | skip
  | pop
  | push (a : α)

variable {α : Type}

/-- A step of a stack whose top is the list's end. An empty stack stays empty. -/
def step (stack : List α) : Op α → List α
  | .skip => stack
  | .pop => stack.dropLast
  | .push a => stack ++ [a]

/-- A step of a stack with room for `room` entries. -/
def stepWithin (room : ℕ) (stack : List α) : Op α → List α
  | .skip => stack
  | .pop => stack.dropLast
  | .push a => if stack.length < room then stack ++ [a] else stack

def walk (ops : List (Op α)) : List α := ops.foldl step []

def walkWithin (room : ℕ) (ops : List (Op α)) : List α := ops.foldl (stepWithin room) []

theorem walk_append_singleton (ops : List (Op α)) (op : Op α) :
    walk (ops ++ [op]) = step (walk ops) op := by
  simp [walk]

theorem walkWithin_append_singleton (room : ℕ) (ops : List (Op α)) (op : Op α) :
    walkWithin room (ops ++ [op]) = stepWithin room (walkWithin room ops) op := by
  simp [walkWithin]

variable {ops : List (Op α)} {a : α}

theorem mem_walk (h : a ∈ walk ops) : .push a ∈ ops := by
  induction ops using List.reverseRecOn with
  | nil => cases h
  | append_singleton ops op ih =>
    rw [walk_append_singleton] at h
    cases op with
    | skip => exact mem_append_left _ (ih h)
    | pop => exact mem_append_left _ (ih (dropLast_subset _ h))
    | push b =>
      rcases mem_append.mp h with hold | hnew
      · exact mem_append_left _ (ih hold)
      · rw [mem_singleton.mp hnew]
        exact mem_append_right _ mem_cons_self

theorem mem_walkWithin {room : ℕ} (h : a ∈ walkWithin room ops) : .push a ∈ ops := by
  induction ops using List.reverseRecOn with
  | nil => cases h
  | append_singleton ops op ih =>
    rw [walkWithin_append_singleton] at h
    cases op with
    | skip => exact mem_append_left _ (ih h)
    | pop => exact mem_append_left _ (ih (dropLast_subset _ h))
    | push b =>
      rw [stepWithin] at h
      split at h
      · rcases mem_append.mp h with hold | hnew
        · exact mem_append_left _ (ih hold)
        · rw [mem_singleton.mp hnew]
          exact mem_append_right _ mem_cons_self
      · exact mem_append_left _ (ih h)

theorem length_walkWithin_le (room : ℕ) (ops : List (Op α)) :
    (walkWithin room ops).length ≤ room := by
  induction ops using List.reverseRecOn with
  | nil => exact Nat.zero_le _
  | append_singleton ops op ih =>
    rw [walkWithin_append_singleton]
    cases op with
    | skip => exact ih
    | pop =>
      rw [stepWithin, length_dropLast]
      omega
    | push a =>
      rw [stepWithin]
      split
      · rw [length_append, length_singleton]
        omega
      · exact ih

/-- The limited stack is never higher, and as high only when it is the same. -/
theorem walkWithin_le (room : ℕ) (ops : List (Op α)) :
    (walkWithin room ops).length ≤ (walk ops).length ∧
      ((walkWithin room ops).length = (walk ops).length → walkWithin room ops = walk ops) := by
  induction ops using List.reverseRecOn with
  | nil => exact ⟨le_rfl, fun _ ↦ rfl⟩
  | append_singleton ops op ih =>
    obtain ⟨hle, heq⟩ := ih
    rw [walk_append_singleton, walkWithin_append_singleton]
    cases op with
    | skip => exact ⟨hle, heq⟩
    | pop =>
      simp only [step, stepWithin, length_dropLast]
      refine ⟨by omega, fun h ↦ ?_⟩
      by_cases hlength : (walkWithin room ops).length = (walk ops).length
      · rw [heq hlength]
      · -- the higher stack has one entry, the other one none
        have hlow : (walkWithin room ops).length = 0 := by omega
        have hhigh : (walk ops).length = 1 := by omega
        rw [length_eq_zero_iff.mp hlow]
        obtain ⟨a, ha⟩ := length_eq_one_iff.mp hhigh
        rw [ha]
        rfl
    | push a =>
      simp only [step, stepWithin]
      split
      · simp only [length_append, length_singleton]
        refine ⟨by omega, fun h ↦ ?_⟩
        rw [heq (by omega)]
      · rw [length_append, length_singleton]
        exact ⟨by omega, fun h ↦ by omega⟩

/-- Whenever the stack was higher than the limit, it was empty later on. -/
def Recovers (room : ℕ) (ops : List (Op α)) : Prop :=
  ∀ before after, ops = before ++ after → room < (walk before).length →
    ∃ middle rest, after = middle ++ rest ∧ walk (before ++ middle) = []

theorem recovers_append_singleton (room : ℕ) (ops : List (Op α)) (op : Op α) :
    Recovers room (ops ++ [op]) ↔ walk (ops ++ [op]) = [] ∨
      Recovers room ops ∧ (walk (ops ++ [op])).length ≤ room := by
  constructor
  · intro h
    by_cases hempty : walk (ops ++ [op]) = []
    · exact .inl hempty
    refine .inr ⟨fun before after hops hhigh ↦ ?_, ?_⟩
    · have hall : ops ++ [op] = before ++ (after ++ [op]) := by
        rw [hops, append_assoc]
      obtain ⟨middle, rest, hsplit, hmiddle⟩ := h before (after ++ [op]) hall hhigh
      rcases eq_nil_or_concat' rest with rfl | ⟨rest, last, rfl⟩
      · -- the stack would be empty at the end
        rw [append_nil] at hsplit
        rw [← hsplit, ← hall] at hmiddle
        exact absurd hmiddle hempty
      · rw [← append_assoc] at hsplit
        exact ⟨middle, rest, (append_inj' hsplit rfl).1, hmiddle⟩
    · by_contra hhigh
      obtain ⟨middle, rest, hsplit, hmiddle⟩ :=
        h (ops ++ [op]) [] (append_nil _).symm (not_le.mp hhigh)
      obtain rfl := (append_eq_nil_iff.mp hsplit.symm).1
      rw [append_nil] at hmiddle
      exact hempty hmiddle
  · rintro h before after hops hhigh
    rcases eq_nil_or_concat' after with rfl | ⟨after, last, rfl⟩
    · rw [append_nil] at hops
      subst hops
      rcases h with hempty | ⟨-, hlow⟩
      · rw [hempty] at hhigh
        exact absurd hhigh (Nat.not_lt_zero _)
      · omega
    · rw [← append_assoc] at hops
      obtain ⟨hbefore, hlast⟩ := append_inj' hops rfl
      cases hlast
      rcases h with hempty | ⟨hrecovers, -⟩
      · refine ⟨after ++ [op], [], (append_nil _).symm, ?_⟩
        rwa [← append_assoc, ← hbefore]
      · obtain ⟨middle, rest, rfl, hmiddle⟩ := hrecovers before after hbefore hhigh
        exact ⟨middle, rest ++ [op], append_assoc _ _ _, hmiddle⟩

/-- The limit does not matter exactly when the stack recovers from every excess. -/
theorem walkWithin_eq_iff (room : ℕ) (ops : List (Op α)) :
    walkWithin room ops = walk ops ↔ Recovers room ops := by
  induction ops using List.reverseRecOn with
  | nil =>
    refine iff_of_true rfl fun before after hops hhigh ↦ ?_
    obtain ⟨rfl, rfl⟩ := append_eq_nil_iff.mp hops.symm
    exact absurd hhigh (Nat.not_lt_zero _)
  | append_singleton ops op ih =>
    obtain ⟨hle, heq⟩ := walkWithin_le room ops
    have hnext := walkWithin_le room (ops ++ [op])
    have hroom := length_walkWithin_le room (ops ++ [op])
    rw [recovers_append_singleton, ← ih]
    constructor
    · intro h
      by_cases hempty : walk (ops ++ [op]) = []
      · exact .inl hempty
      have hpos := length_pos_iff.mpr hempty
      rw [h] at hroom
      refine .inr ⟨heq ?_, hroom⟩
      have hlength := congrArg List.length h
      rw [walk_append_singleton, walkWithin_append_singleton] at hlength
      rw [walk_append_singleton] at hpos hroom
      cases op with
      | skip => exact hlength
      | pop =>
        simp only [step, stepWithin, length_dropLast] at hlength hpos
        omega
      | push a =>
        simp only [step, stepWithin] at hlength hroom
        rw [length_append, length_singleton] at hroom
        split at hlength
        · simpa using hlength
        · rw [length_append, length_singleton] at hlength
          omega
    · rintro (hempty | ⟨hsame, hlow⟩)
      · refine hnext.2 ?_
        rw [hempty] at hnext ⊢
        exact Nat.le_zero.mp hnext.1
      · rw [walk_append_singleton] at hlow ⊢
        rw [walkWithin_append_singleton, hsame]
        cases op with
        | skip => rfl
        | pop => rfl
        | push a =>
          rw [step, length_append, length_singleton] at hlow
          exact if_pos (by omega)

end ToastyUnix.BoundedStack
