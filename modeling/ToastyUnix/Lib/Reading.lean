import Mathlib

/-!
# Computations that read memory

A `Reading` is a computation over a memory of bytes that also tells which addresses it has read, in
order. `Within` bounds these addresses; its rules follow the shape of a program.
-/

namespace ToastyUnix

open List

/-- A value and the addresses read to compute it, for each memory. -/
def Reading (α : Type) : Type := (ℕ → UInt8) → α × List ℕ

namespace Reading

variable {α β : Type}

def value (m : Reading α) (mem : ℕ → UInt8) : α := (m mem).1

def reads (m : Reading α) (mem : ℕ → UInt8) : List ℕ := (m mem).2

instance : Monad Reading where
  pure a := fun _ ↦ (a, [])
  bind m f := fun mem ↦ (value (f (value m mem)) mem, reads m mem ++ reads (f (value m mem)) mem)

/-- The byte at an address. -/
def fetch (a : ℕ) : Reading UInt8 := fun mem ↦ (mem a, [a])

/-- The bytes from an address on. -/
def bytesAt (mem : ℕ → UInt8) (a n : ℕ) : List UInt8 := (range' a n).map mem

/-- The source of a `memcpy`. -/
def fetchAll (a n : ℕ) : Reading (List UInt8) := fun mem ↦ (bytesAt mem a n, range' a n)

-- The parentheses keep `simp` from using these as definitional equalities, which would leave the
-- `Decidable` instances of tests behind and make the kernel run the loops.
section Simp

variable (mem : ℕ → UInt8) (m : Reading α) (f : α → Reading β) (a : α)

@[simp] theorem value_pure : value (pure a : Reading α) mem = a := (rfl)

@[simp] theorem reads_pure : reads (pure a : Reading α) mem = [] := (rfl)

@[simp] theorem value_bind : value (m >>= f) mem = value (f (value m mem)) mem := (rfl)

@[simp] theorem reads_bind :
    reads (m >>= f) mem = reads m mem ++ reads (f (value m mem)) mem := (rfl)

@[simp] theorem value_fetch (a : ℕ) : value (fetch a) mem = mem a := (rfl)

@[simp] theorem reads_fetch (a : ℕ) : reads (fetch a) mem = [a] := (rfl)

@[simp] theorem value_fetchAll (a n : ℕ) : value (fetchAll a n) mem = bytesAt mem a n := (rfl)

@[simp] theorem reads_fetchAll (a n : ℕ) : reads (fetchAll a n) mem = range' a n := (rfl)

@[simp] theorem value_ite (c : Prop) [Decidable c] (m m' : Reading α) :
    value (if c then m else m') mem = if c then value m mem else value m' mem :=
  apply_ite (fun m ↦ value m mem) c m m'

@[simp] theorem reads_ite (c : Prop) [Decidable c] (m m' : Reading α) :
    reads (if c then m else m') mem = if c then reads m mem else reads m' mem :=
  apply_ite (fun m ↦ reads m mem) c m m'

end Simp

section Bytes

variable (mem : ℕ → UInt8)

theorem length_bytesAt (a n : ℕ) : (bytesAt mem a n).length = n := by simp [bytesAt]

@[simp] theorem bytesAt_zero (a : ℕ) : bytesAt mem a 0 = [] := rfl

theorem bytesAt_succ (a n : ℕ) : bytesAt mem a (n + 1) = mem a :: bytesAt mem (a + 1) n := rfl

variable {a k n : ℕ}

theorem take_bytesAt (h : k ≤ n) : (bytesAt mem a n).take k = bytesAt mem a k := by
  refine ext_getElem (by simp [bytesAt, h]) fun i _ _ ↦ ?_
  simp [bytesAt]

theorem drop_bytesAt (a k n : ℕ) : (bytesAt mem a n).drop k = bytesAt mem (a + k) (n - k) := by
  rw [bytesAt, ← map_drop, drop_range', Nat.mul_one, bytesAt]

theorem getD_bytesAt (h : k < n) : (bytesAt mem a n).getD k 0 = mem (a + k) := by
  simp [bytesAt, getD_eq_getElem?_getD, h]

end Bytes

/-- Every address that is read lies between the bounds. -/
def Within (m : Reading α) (mem : ℕ → UInt8) (lo hi : ℕ) : Prop :=
  ∀ x ∈ reads m mem, lo ≤ x ∧ x < hi

namespace Within

variable {mem : ℕ → UInt8} {m : Reading α} {f : α → Reading β} {lo hi : ℕ}

theorem pure (a : α) : Within (Pure.pure a : Reading α) mem lo hi := by simp [Within]

theorem bind (h : Within m mem lo hi) (hnext : Within (f (value m mem)) mem lo hi) :
    Within (m >>= f) mem lo hi := by
  intro x hx
  rcases mem_append.mp hx with hx | hx
  · exact h x hx
  · exact hnext x hx

theorem fetch {a : ℕ} (hlo : lo ≤ a) (hhi : a < hi) : Within (fetch a) mem lo hi := by
  simpa [Within] using ⟨hlo, hhi⟩

theorem fetchAll {a n : ℕ} (hlo : lo ≤ a) (hhi : a + n ≤ hi) : Within (fetchAll a n) mem lo hi := by
  intro x hx
  rw [reads_fetchAll, mem_range'_1] at hx
  omega

theorem ite {c : Prop} [Decidable c] {m' : Reading α} (hthen : c → Within m mem lo hi)
    (helse : ¬ c → Within m' mem lo hi) : Within (if c then m else m') mem lo hi := by
  split_ifs with hc
  · exact hthen hc
  · exact helse hc

theorem mono {lo' hi' : ℕ} (h : Within m mem lo hi) (hlo : lo' ≤ lo) (hhi : hi ≤ hi') :
    Within m mem lo' hi' := by
  intro x hx
  have := h x hx
  omega

end Within

end Reading

end ToastyUnix
