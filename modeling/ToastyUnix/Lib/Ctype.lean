import Mathlib

/-!
# Bytes as characters

The character classes of the C library and literals as byte strings.
-/

namespace ToastyUnix

/-- The bytes of an ASCII literal. -/
def ascii (s : String) : List UInt8 := s.toList.map fun c ↦ UInt8.ofNat c.toNat

/-- The byte `'/'`. -/
def slash : UInt8 := 47

def isdigit (c : UInt8) : Bool := decide (48 ≤ c ∧ c ≤ 57)

def isspace (c : UInt8) : Bool := decide (c = 32 ∨ 9 ≤ c ∧ c ≤ 13)

end ToastyUnix
