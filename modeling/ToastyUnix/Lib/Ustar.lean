import ToastyUnix.Lib.Ctype

/-!
# The ustar archive format

A member of an archive is a header block of 512 bytes, with fields at fixed offsets, and the data,
filled up to whole blocks. Names are the components of the path behind `./`, joined by slashes, with
a trailing slash for directories; a name field that is full has no terminator. Numbers are octal
digits that fill their field up to one blank. Two blocks of zeros end the archive.

The lemmas say what a reader finds at the offsets of a member at the front of an archive.
-/

namespace ToastyUnix.Ustar

open List

def blockSize : ℕ := 512

/-- The last `k` octal digits of a number, the most significant first. -/
def octalDigits : ℕ → ℕ → List UInt8
  | 0, _ => []
  | k + 1, n => octalDigits k (n / 8) ++ [UInt8.ofNat (48 + n % 8)]

/-- Fill a field up with zeros. -/
def fill (width : ℕ) (field : List UInt8) : List UInt8 :=
  field ++ replicate (width - field.length) 0

/-- One member: a directory (`content` is `none`) or a regular file, and the header bytes that the
format leaves to the writer. -/
structure Member where
  path : List (List UInt8)
  mode : ℕ
  content : Option (List UInt8)
  owner : List UInt8
  stamp : List UInt8
  tail : List UInt8
  blank : UInt8

namespace Member

variable (m : Member)

def bytes : List UInt8 := m.content.getD []

/-- The name in the archive. The root of the archive is `./` itself. -/
def name : List UInt8 :=
  46 :: slash :: ([slash].intercalate m.path ++
    if m.path ≠ [] ∧ m.content = none then [slash] else [])

def typeFlag : UInt8 := if m.content = none then 53 else 48

def modeField : List UInt8 := octalDigits 7 m.mode ++ [m.blank]

def sizeField : List UInt8 := octalDigits 11 m.bytes.length ++ [m.blank]

def header : List UInt8 :=
  fill 100 m.name ++ (m.modeField ++ (m.owner ++ (m.sizeField ++
    (m.stamp ++ m.typeFlag :: m.tail))))

/-- The data with the padding to whole blocks. -/
def data : List UInt8 :=
  fill ((m.bytes.length + (blockSize - 1)) / blockSize * blockSize) m.bytes

/-- Everything fits its field. -/
structure Valid : Prop where
  name_le : m.name.length ≤ 100
  mode_pos : 0 < m.mode
  mode_lt : m.mode < 8 ^ 7
  size_lt : m.bytes.length < 8 ^ 11
  owner : m.owner.length = 16
  stamp : m.stamp.length = 20
  tail : m.tail.length = 355
  blank : m.blank = 0 ∨ m.blank = 32

end Member

/-- An archive: its members, two blocks of zeros and whatever follows them. -/
def archive (members : List Member) (trailer : List UInt8) : List UInt8 :=
  members.flatMap (fun m ↦ m.header ++ m.data) ++
    (replicate (2 * blockSize) 0 ++ trailer)

theorem length_octalDigits (k n : ℕ) : (octalDigits k n).length = k := by
  induction k generalizing n with
  | zero => rfl
  | succ k ih => simp [octalDigits, ih]

theorem length_fill {width : ℕ} {field : List UInt8} (h : field.length ≤ width) :
    (fill width field).length = width := by
  simp [fill, h]

section Fields

variable {m : Member}

theorem Member.length_modeField (m : Member) : m.modeField.length = 8 := by
  simp [modeField, length_octalDigits]

theorem Member.length_sizeField (m : Member) : m.sizeField.length = 12 := by
  simp [sizeField, length_octalDigits]

theorem Member.Valid.length_header (h : m.Valid) : m.header.length = blockSize := by
  simp only [header, length_append, length_cons, length_fill h.name_le,
    m.length_modeField, m.length_sizeField, h.owner, h.stamp, h.tail, blockSize]

theorem Member.length_data (m : Member) :
    m.data.length = (m.bytes.length + (blockSize - 1)) / blockSize * blockSize := by
  apply length_fill
  simp only [blockSize]
  omega

/-- The fields of a header at their offsets. -/
theorem Member.Valid.fields (h : m.Valid) (rest : List UInt8) :
    ((m.header ++ rest).drop 100).take 8 = m.modeField ∧
      ((m.header ++ rest).drop 124).take 12 = m.sizeField ∧
      (m.header ++ rest).getD 156 0 = m.typeFlag := by
  have hname := length_fill h.name_le
  have hmode : (m.header ++ rest).drop 100 =
      m.modeField ++ (m.owner ++ (m.sizeField ++ (m.stamp ++ m.typeFlag :: (m.tail ++ rest)))) := by
    rw [header, append_assoc, drop_left' hname]
    simp
  have howner : (m.header ++ rest).drop 108 =
      m.owner ++ (m.sizeField ++ (m.stamp ++ m.typeFlag :: (m.tail ++ rest))) := by
    have hdrop := congrArg (drop 8) hmode
    rwa [drop_drop, drop_left' m.length_modeField] at hdrop
  have hsize : (m.header ++ rest).drop 124 =
      m.sizeField ++ (m.stamp ++ m.typeFlag :: (m.tail ++ rest)) := by
    have hdrop := congrArg (drop 16) howner
    rwa [drop_drop, drop_left' h.owner] at hdrop
  have hstamp : (m.header ++ rest).drop 136 = m.stamp ++ m.typeFlag :: (m.tail ++ rest) := by
    have hdrop := congrArg (drop 12) hsize
    rwa [drop_drop, drop_left' m.length_sizeField] at hdrop
  have htype : (m.header ++ rest).drop 156 = m.typeFlag :: (m.tail ++ rest) := by
    have hdrop := congrArg (drop 20) hstamp
    rwa [drop_drop, drop_left' h.stamp] at hdrop
  refine ⟨by rw [hmode, take_left' m.length_modeField],
    by rw [hsize, take_left' m.length_sizeField], ?_⟩
  have hget := congrArg head? htype
  rw [head?_drop, head?_cons] at hget
  rw [getD_eq_getElem?_getD, hget]
  rfl

end Fields

end ToastyUnix.Ustar
