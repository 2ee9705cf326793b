import Mathlib

/-!
# Circular buffers over an arbitrary cell type

A buffer is a function from cell indices to cells. `slice` and `blit` are the two block copies
a program performs on it; `copyOut` and `copyIn` are the wrapped copies, made of at most two
block copies each. `contents` is the queue the ring stands for. Reading removes a first part of
that queue and writing appends to it, whatever the wrap point.
-/

namespace ToastyUnix.RingBuffer

open List

variable {α : Type*}

/-- The `length` cells of `buffer` from `start` on. -/
def slice (buffer : ℕ → α) (start length : ℕ) : List α :=
  (List.range length).map fun i ↦ buffer (start + i)

/-- Overwrite the cells from `start` on with `chunk`. -/
def blit (buffer : ℕ → α) (start : ℕ) (chunk : List α) : ℕ → α :=
  fun i ↦ if start ≤ i then (chunk[i - start]?).getD (buffer i) else buffer i

/-- The queue in a ring of `size` cells: `count` cells from `head` on, wrapping. -/
def contents (size : ℕ) (buffer : ℕ → α) (head count : ℕ) : List α :=
  (List.range count).map fun i ↦ buffer ((head + i) % size)

/-- Read `length` cells from `head` on with one block copy, or two across the wrap. -/
def copyOut (size : ℕ) (buffer : ℕ → α) (head length : ℕ) : List α :=
  if size - head < length then
    slice buffer head (size - head) ++ slice buffer 0 (length - (size - head))
  else slice buffer head length

/-- Write `chunk` from `position` on with one block copy, or two across the wrap. -/
def copyIn (size : ℕ) (buffer : ℕ → α) (position : ℕ) (chunk : List α) : ℕ → α :=
  if size - position < chunk.length then
    blit (blit buffer position (chunk.take (size - position))) 0 (chunk.drop (size - position))
  else blit buffer position chunk

@[simp]
theorem length_slice (buffer : ℕ → α) (start length : ℕ) :
    (slice buffer start length).length = length := by
  simp [slice]

@[simp]
theorem length_contents (size : ℕ) (buffer : ℕ → α) (head count : ℕ) :
    (contents size buffer head count).length = count := by
  simp [contents]

variable {start i head position : ℕ}

theorem blit_of_lt (buffer : ℕ → α) (chunk : List α) (h : i < start) :
    blit buffer start chunk i = buffer i := by
  simp [blit, Nat.not_le.mpr h]

theorem blit_of_ge (buffer : ℕ → α) (chunk : List α) (h : start + chunk.length ≤ i) :
    blit buffer start chunk i = buffer i := by
  have hstart : start ≤ i := by omega
  have hlength : chunk.length ≤ i - start := by omega
  simp [blit, hstart, getElem?_eq_none hlength]

theorem blit_add (buffer : ℕ → α) (start : ℕ) (chunk : List α) (h : i < chunk.length) :
    blit buffer start chunk (start + i) = chunk[i] := by
  simp [blit, h]

section

variable (size : ℕ) (buffer : ℕ → α)

/-- The wrapped read returns the first `length` elements of the queue. -/
theorem copyOut_eq_contents {length : ℕ} (hhead : head < size) (hlength : length ≤ size) :
    copyOut size buffer head length = contents size buffer head length := by
  unfold copyOut
  split
  case isTrue hwrap =>
    apply ext_getElem
    · simp
      omega
    · intro i hleft hright
      simp only [length_contents] at hright
      by_cases hi : i < size - head
      · rw [getElem_append_left (by simpa using hi)]
        simp [slice, contents, Nat.mod_eq_of_lt (by omega : head + i < size)]
      · rw [getElem_append_right (by simp; omega)]
        have hmod : (head + i) % size = i - (size - head) := by
          rw [Nat.mod_eq_sub_mod (by omega), Nat.mod_eq_of_lt (by omega)]
          omega
        simp [slice, contents, hmod]
  case isFalse hflat =>
    apply map_congr_left
    intro i hi
    rw [mem_range] at hi
    rw [Nat.mod_eq_of_lt (by omega)]

/-- Consuming `first` elements leaves the rest of the queue from the advanced head. -/
theorem contents_add (head first rest : ℕ) :
    contents size buffer head (first + rest) =
      contents size buffer head first ++ contents size buffer ((head + first) % size) rest := by
  simp only [contents, range_add, map_append, map_map]
  congr 1
  apply map_congr_left
  intro i _
  simp only [Function.comp_apply, Nat.mod_add_mod, Nat.add_assoc]

/-- A wrapped write leaves all cells but the `chunk.length` next ones alone. -/
theorem copyIn_other {offset : ℕ} (chunk : List α)
    (hposition : position < size) (hfits : chunk.length ≤ offset) (hoffset : offset < size) :
    copyIn size buffer position chunk ((position + offset) % size) =
      buffer ((position + offset) % size) := by
  by_cases hcell : position + offset < size
  · rw [Nat.mod_eq_of_lt hcell]
    unfold copyIn
    split
    · rw [blit_of_ge _ _ (by simp; omega), blit_of_ge _ _ (by simp; omega)]
    · rw [blit_of_ge _ _ (by omega)]
  · rw [Nat.mod_eq_sub_mod (by omega), Nat.mod_eq_of_lt (by omega)]
    unfold copyIn
    split
    · rw [blit_of_ge _ _ (by simp; omega), blit_of_lt _ _ (by omega)]
    · rw [blit_of_lt _ _ (by omega)]

/-- A wrapped write stores element `i` of the chunk in the `i`th next cell. -/
theorem copyIn_get (chunk : List α) (hposition : position < size)
    (hfits : chunk.length ≤ size) (hi : i < chunk.length) :
    copyIn size buffer position chunk ((position + i) % size) = chunk[i] := by
  by_cases hcell : position + i < size
  · rw [Nat.mod_eq_of_lt hcell]
    unfold copyIn
    split
    · rw [blit_of_ge _ _ (by simp; omega), blit_add _ _ _ (by simp; omega), getElem_take]
    · rw [blit_add _ _ _ hi]
  · rw [Nat.mod_eq_sub_mod (by omega), Nat.mod_eq_of_lt (by omega)]
    unfold copyIn
    split
    · have hindex : position + i - size = 0 + (i - (size - position)) := by omega
      rw [hindex, blit_add _ _ _ (by simp; omega), getElem_drop]
      congr 1
      omega
    · omega

/-- A wrapped write at the free end appends the chunk to the queue. -/
theorem contents_copyIn {count : ℕ} (chunk : List α)
    (hhead : head < size) (hroom : count + chunk.length ≤ size) :
    contents size (copyIn size buffer ((head + count) % size) chunk) head (count + chunk.length) =
      contents size buffer head count ++ chunk := by
  have hposition : (head + count) % size < size := Nat.mod_lt _ (by omega)
  rw [contents_add]
  congr 1
  · apply map_congr_left
    intro i hi
    rw [mem_range] at hi
    -- Cell `head + i` lies `size - count + i` cells after the write position.
    have hcell : (head + i) % size = ((head + count) % size + (size - count + i)) % size := by
      rw [Nat.mod_add_mod, show head + count + (size - count + i) = head + i + size by omega,
        Nat.add_mod_right]
    rw [hcell, copyIn_other _ _ _ hposition (by omega) (by omega)]
  · apply ext_getElem
    · simp
    · intro i hleft hright
      simp only [contents, getElem_map, getElem_range]
      exact copyIn_get _ _ _ hposition (by omega) hright

end

end ToastyUnix.RingBuffer
