import Mathlib

/-!
# Computations that must not fail

A computation in `Option` fails on an array index out of range or at the end of its fuel.
`Succeeds m P` says that `m` returns and that `P` holds of what it returns, so a postcondition is
never met by failing. The rules follow the shape of a program: a sequence, and a counting loop with
an invariant over its counter.
-/

namespace ToastyUnix.Checked

open List

variable {α β σ : Type}

/-- `m` returns a value with `P`. -/
def Succeeds (m : Option α) (P : α → Prop) : Prop := ∃ a, m = some a ∧ P a

namespace Succeeds

variable {m : Option α} {P Q : α → Prop}

theorem of_some {a : α} (h : P a) : Succeeds (some a) P := ⟨a, rfl, h⟩

theorem mono (h : Succeeds m P) (hpost : ∀ a, P a → Q a) : Succeeds m Q := by
  obtain ⟨a, hm, ha⟩ := h
  exact ⟨a, hm, hpost a ha⟩

theorem and (h : Succeeds m P) (h' : Succeeds m Q) : Succeeds m fun a ↦ P a ∧ Q a := by
  obtain ⟨a, hm, ha⟩ := h
  obtain ⟨b, hm', hb⟩ := h'
  obtain rfl : a = b := Option.some.inj (hm.symm.trans hm')
  exact ⟨a, hm, ha, hb⟩

theorem of_eq_some {a : α} (h : Succeeds m P) (hm : m = some a) : P a := by
  obtain ⟨b, hm', hb⟩ := h
  rwa [Option.some.inj (hm.symm.trans hm')]

theorem bind {f : α → Option β} {R : β → Prop} (h : Succeeds m P)
    (hnext : ∀ a, P a → Succeeds (f a) R) : Succeeds (m >>= f) R := by
  obtain ⟨a, rfl, ha⟩ := h
  exact hnext a ha

theorem ite {c : Prop} [Decidable c] {m' : Option α} (hthen : c → Succeeds m P)
    (helse : ¬ c → Succeeds m' P) : Succeeds (if c then m else m') P := by
  split
  · exact hthen ‹_›
  · exact helse ‹_›

/-- A loop over a list keeps an invariant that every pass keeps. -/
theorem foldlM {f : σ → α → Option σ} {I : σ → Prop} {l : List α} {s : σ} (hs : I s)
    (hstep : ∀ s, ∀ a ∈ l, I s → Succeeds (f s a) I) : Succeeds (l.foldlM f s) I := by
  induction l generalizing s with
  | nil => exact of_some hs
  | cons a l ih =>
    rw [foldlM_cons]
    apply (hstep s a mem_cons_self hs).bind
    intro s' hs'
    exact ih hs' fun s b hb ↦ hstep s b (mem_cons_of_mem a hb)

end Succeeds

/-- A loop whose passes succeed under an invariant computes a fold. -/
theorem foldlM_eq_foldl {f : σ → α → Option σ} {g : σ → α → σ} {I : σ → Prop} {l : List α} {s : σ}
    (hs : I s) (hstep : ∀ s, I s → ∀ a ∈ l, f s a = some (g s a) ∧ I (g s a)) :
    l.foldlM f s = some (l.foldl g s) ∧ I (l.foldl g s) := by
  induction l generalizing s with
  | nil => exact ⟨rfl, hs⟩
  | cons a l ih =>
    obtain ⟨heq, hnext⟩ := hstep s hs a mem_cons_self
    rw [foldlM_cons, heq, foldl_cons]
    exact ih hnext fun s hs b hb ↦ hstep s hs b (mem_cons_of_mem a hb)

theorem findM?_eq_find? {test : α → Option Bool} {holds : α → Bool} {l : List α}
    (h : ∀ a ∈ l, test a = some (holds a)) : l.findM? test = some (l.find? holds) := by
  induction l with
  | nil => rfl
  | cons a l ih =>
    obtain ⟨ha, hl⟩ := forall_mem_cons.mp h
    rw [findM?, ha, find?_cons]
    cases holds a
    · exact ih hl
    · rfl

theorem allM_eq_all {test : α → Option Bool} {holds : α → Bool} {l : List α}
    (h : ∀ a ∈ l, test a = some (holds a)) : l.allM test = some (l.all holds) := by
  induction l with
  | nil => rfl
  | cons a l ih =>
    obtain ⟨ha, hl⟩ := forall_mem_cons.mp h
    rw [allM, ha, all_cons]
    cases holds a
    · rfl
    · exact ih hl

variable {n : ℕ} {i a b : ℤ}

/-- An index into an array of `n` elements. -/
def index (n : ℕ) (i : ℤ) : Option (Fin n) :=
  if h : 0 ≤ i ∧ i < n then some ⟨i.toNat, by omega⟩ else none

theorem index_of_mem (hnonneg : 0 ≤ i) (hlt : i < n) :
    index n i = some ⟨i.toNat, by omega⟩ := dif_pos ⟨hnonneg, hlt⟩

theorem index_eq_some {k : Fin n} : index n i = some k ↔ (k.val : ℤ) = i := by
  have hk := k.isLt
  unfold index
  split
  · rw [Option.some.injEq, Fin.ext_iff]
    dsimp only
    omega
  · simp only [reduceCtorEq, false_iff]
    omega

/-- The values of `for (int i = a; i < b; i++)`. -/
def intRange (a b : ℤ) : List ℤ := (range (b - a).toNat).map fun k : ℕ ↦ a + (k : ℤ)

theorem mem_intRange : i ∈ intRange a b ↔ a ≤ i ∧ i < b := by
  simp only [intRange, mem_map, mem_range]
  constructor
  · rintro ⟨k, hk, rfl⟩
    omega
  · rintro ⟨hle, hlt⟩
    exact ⟨(i - a).toNat, by omega, by omega⟩

theorem intRange_of_le (h : b ≤ a) : intRange a b = [] := by
  rw [intRange, show (b - a).toNat = 0 by omega]
  rfl

theorem intRange_succ (h : a ≤ b) : intRange a (b + 1) = intRange a b ++ [b] := by
  rw [intRange, show (b + 1 - a).toNat = (b - a).toNat + 1 by omega, range_succ,
    map_append, intRange]
  simp only [map_cons, map_nil]
  rw [show a + ((b - a).toNat : ℤ) = b by omega]

/-- A counting loop, with an invariant over its counter. -/
theorem Succeeds.forLoop {f : σ → ℤ → Option σ} {I : ℤ → σ → Prop} {s : σ} (hab : a ≤ b)
    (hs : I a s) (hstep : ∀ s i, a ≤ i → i < b → I i s → Succeeds (f s i) (I (i + 1))) :
    Succeeds ((intRange a b).foldlM f s) (I b) := by
  induction b, hab using Int.leInduction with
  | base =>
    rw [intRange_of_le le_rfl]
    exact of_some hs
  | succ b hab ih =>
    rw [intRange_succ hab, foldlM_append]
    apply (ih fun s i hle hlt ↦ hstep s i hle (by omega)).bind
    intro s' hs'
    rw [foldlM_cons]
    exact (hstep s' b hab (by omega) hs').bind fun s'' hs'' ↦ of_some hs''

end ToastyUnix.Checked
