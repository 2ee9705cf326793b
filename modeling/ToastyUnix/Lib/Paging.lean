import Mathlib

/-!
# Page tables in physical memory

Physical memory is a sequence of 4 KiB frames of 512 words. A page table is a frame whose words are
entries: bit 0 says that the entry is present, bit 7 that it maps a large page, and bits 12 to 51
hold the address of the frame it refers to. A virtual page is named by its number, whose base-512
digits select the entries on the way from the top table (depth 4) to the page (depth 0).
-/

namespace ToastyUnix.Paging

open BitVec

/-- Physical memory: frame number and word index to the word stored there. -/
abbrev Memory := ℕ → ℕ → BitVec 64

/-- Store one word. -/
def Memory.write (mem : Memory) (t i : ℕ) (e : BitVec 64) : Memory :=
  fun u j ↦ if u = t ∧ j = i then e else mem u j

/-- Overwrite a whole frame. -/
def Memory.fill (mem : Memory) (t : ℕ) (words : ℕ → BitVec 64) : Memory :=
  fun u j ↦ if u = t then words j else mem u j

/-- Replace byte `k` of a word. -/
def setByte (w : BitVec 64) (k : ℕ) (b : UInt8) : BitVec 64 :=
  (w &&& ~~~(0xFF#64 <<< (8 * k))) ||| (b.toBitVec.setWidth 64 <<< (8 * k))

/-- Store one byte at an offset of a frame. -/
def Memory.writeByte (mem : Memory) (t offset : ℕ) (b : UInt8) : Memory :=
  mem.write t (offset / 8) (setByte (mem t (offset / 8)) (offset % 8) b)

@[simp]
theorem Memory.write_self (mem : Memory) (t i : ℕ) (e : BitVec 64) : mem.write t i e t i = e := by
  simp [Memory.write]

variable {t i u j k f d v r : ℕ} {mem mem' : Memory} {a c : BitVec 64}

theorem Memory.write_of_ne (mem : Memory) (e : BitVec 64) (h : ¬(u = t ∧ j = i)) :
    mem.write t i e u j = mem u j := by
  simp [Memory.write, h]

theorem Memory.write_frame_of_ne (mem : Memory) (e : BitVec 64) (h : u ≠ t) (j : ℕ) :
    mem.write t i e u j = mem u j :=
  mem.write_of_ne e fun hsame ↦ h hsame.1

@[simp]
theorem Memory.fill_self (mem : Memory) (t j : ℕ) (words : ℕ → BitVec 64) :
    mem.fill t words t j = words j := by
  simp [Memory.fill]

theorem Memory.fill_of_ne (mem : Memory) (words : ℕ → BitVec 64) (h : u ≠ t) (j : ℕ) :
    mem.fill t words u j = mem u j := by
  simp [Memory.fill, h]

/-- Byte `k` of a word. -/
def byteOf (w : BitVec 64) (k : ℕ) : UInt8 := ⟨w.extractLsb' (8 * k) 8⟩

/-- The byte at an offset of a frame. -/
def Memory.byte (mem : Memory) (t offset : ℕ) : UInt8 := byteOf (mem t (offset / 8)) (offset % 8)

theorem byteOf_setByte (w : BitVec 64) (b : UInt8) (hj : j < 8) (hk : k < 8) :
    byteOf (setByte w j b) k = if k = j then b else byteOf w k := by
  have hbyte : ∀ i, (0xFF#64).getLsbD i = decide (i < 8) := by
    intro i
    by_cases hi : i < 64
    · have hall : ∀ i : Fin 64, (0xFF#64).getLsbD i = decide (i.val < 8) := by decide
      exact hall ⟨i, hi⟩
    · rw [getLsbD_of_ge _ _ (by omega)]
      simp only [Bool.false_eq, decide_eq_false_iff_not]
      omega
  have hbit : ∀ i < 64, (setByte w j b).getLsbD i =
      if 8 * j ≤ i ∧ i < 8 * j + 8 then b.toBitVec.getLsbD (i - 8 * j) else w.getLsbD i := by
    intro i hi
    simp only [setByte, getLsbD_or, getLsbD_and, getLsbD_not,
      getLsbD_shiftLeft, hbyte, getLsbD_setWidth]
    by_cases hlow : i < 8 * j
    · simp [hi, hlow, show ¬(8 * j ≤ i) by omega]
    · by_cases hhigh : i < 8 * j + 8
      · simp [hi, hlow, show 8 * j ≤ i by omega, hhigh, show i - 8 * j < 8 by omega,
          show i - 8 * j < 64 by omega]
      · have hout : b.toBitVec.getLsbD (i - 8 * j) = false :=
          getLsbD_of_ge _ _ (by omega)
        simp [hi, hlow, hhigh, hout, show ¬(i - 8 * j < 8) by omega]
  have hvalue : byteOf (setByte w j b) k = ⟨if k = j then b.toBitVec else w.extractLsb' (8 * k) 8⟩ := by
    rw [byteOf]
    congr 1
    apply eq_of_getLsbD_eq
    intro i hi
    rw [getLsbD_extractLsb', hbit _ (by omega)]
    by_cases hkj : k = j
    · subst hkj
      simp [hi]
    · rw [if_neg (by omega), if_neg hkj, getLsbD_extractLsb']
  rw [hvalue]
  split <;> rfl

theorem Memory.byte_writeByte (mem : Memory) (t offset : ℕ) (b : UInt8) (u offset' : ℕ) :
    (mem.writeByte t offset b).byte u offset' =
      if u = t ∧ offset' = offset then b else mem.byte u offset' := by
  simp only [Memory.byte, Memory.writeByte, Memory.write]
  by_cases hword : u = t ∧ offset' / 8 = offset / 8
  · obtain ⟨rfl, hdiv⟩ := hword
    rw [if_pos ⟨rfl, hdiv⟩, byteOf_setByte _ _ (by omega) (by omega), hdiv]
    by_cases hsame : offset' % 8 = offset % 8
    · rw [if_pos hsame, if_pos ⟨rfl, by omega⟩]
    · rw [if_neg hsame, if_neg fun h ↦ hsame (by rw [h.2])]
  · rw [if_neg hword, if_neg]
    rintro ⟨rfl, rfl⟩
    exact hword ⟨rfl, rfl⟩

theorem Memory.byte_congr (h : mem' t = mem t) (offset : ℕ) :
    mem'.byte t offset = mem.byte t offset := by
  rw [Memory.byte, Memory.byte, h]

/-- The bits of an entry that hold an address. -/
def addressMask : BitVec 64 := 0x000ffffffffff000#64

/-- The number of the frame a physical address lies in. -/
def frameOf (phys : BitVec 64) : ℕ := (phys >>> 12).toNat

/-- The physical address of a frame. -/
def ofFrame (f : ℕ) : BitVec 64 := BitVec.ofNat 64 f <<< 12

/-- The entry is in use. -/
def present (e : BitVec 64) : Bool := e.getLsbD 0

/-- The entry maps a large page and refers to no further table. -/
def large (e : BitVec 64) : Bool := e.getLsbD 7

/-- The frame an entry refers to. -/
def target (e : BitVec 64) : ℕ := frameOf (e &&& addressMask)

@[simp]
theorem frameOf_ofFrame (hf : f < 2 ^ 40) : frameOf (ofFrame f) = f := by
  simp only [frameOf, ofFrame, toNat_ushiftRight, toNat_shiftLeft,
    toNat_ofNat, Nat.shiftLeft_eq, Nat.shiftRight_eq_div_pow]
  omega

theorem ofFrame_eq_zero (hf : f < 2 ^ 40) : ofFrame f = 0 ↔ f = 0 := by
  constructor
  · intro hzero
    have hframe := frameOf_ofFrame hf
    rw [hzero] at hframe
    simpa [frameOf] using hframe.symm
  · rintro rfl
    rfl

theorem ofFrame_and_addressMask (hf : f < 2 ^ 40) : ofFrame f &&& addressMask = ofFrame f := by
  have hmask : ∀ i : Fin 64, addressMask.getLsbD i = decide (12 ≤ i.val ∧ i.val < 52) := by
    decide
  apply eq_of_getLsbD_eq
  intro i hi
  simp only [ofFrame, getLsbD_and, getLsbD_shiftLeft, getLsbD_ofNat, hmask ⟨i, hi⟩]
  by_cases hhigh : i < 52
  · by_cases hlow : i < 12 <;> simp [hlow, hhigh]
    omega
  · have hbit : f.testBit (i - 12) = false := by
      apply Nat.testBit_lt_two_pow
      exact hf.trans_le (Nat.pow_le_pow_right (by decide) (by omega))
    simp [hbit]

theorem target_lt (e : BitVec 64) : target e < 2 ^ 40 := by
  have hmask : (e &&& addressMask).toNat ≤ addressMask.toNat := by
    rw [toNat_and]
    exact Nat.and_le_right
  have hvalue : addressMask.toNat = 2 ^ 52 - 2 ^ 12 := by decide
  rw [target, frameOf, toNat_ushiftRight, Nat.shiftRight_eq_div_pow]
  omega

theorem ofFrame_target (e : BitVec 64) : ofFrame (target e) = e &&& addressMask := by
  have hmask : ∀ i : Fin 64, i.val < 12 → addressMask.getLsbD i = false := by decide
  rw [ofFrame, target, frameOf, ofNat_toNat, setWidth_eq]
  apply eq_of_getLsbD_eq
  intro i hi
  by_cases hlow : i < 12
  · simp [hlow, hmask ⟨i, hi⟩ hlow]
  · simp [hi, hlow, Nat.add_sub_cancel' (Nat.le_of_not_lt hlow)]

theorem ofFrame_and_low (f : ℕ) : ofFrame f &&& 0xFFF = 0 := by
  have hlow : ∀ i : Fin 64, 12 ≤ i.val → (0xFFF#64).getLsbD i = false := by decide
  apply eq_of_getLsbD_eq
  intro i hi
  by_cases hsmall : i < 12
  · simp [ofFrame, hsmall]
  · simp [hlow ⟨i, hi⟩ (by simpa using hsmall)]

theorem ofFrame_and_not_low (f : ℕ) : ofFrame f &&& ~~~0xFFF = ofFrame f := by
  have hhigh : ∀ i : Fin 64, 12 ≤ i.val → (~~~(0xFFF : BitVec 64)).getLsbD i = true := by
    decide
  apply eq_of_getLsbD_eq
  intro i hi
  by_cases hsmall : i < 12
  · simp [ofFrame, hsmall]
  · have hbit := hhigh ⟨i, hi⟩ (Nat.le_of_not_lt hsmall)
    rw [getLsbD_and, hbit, Bool.and_true]

theorem target_or (hc : c &&& addressMask = 0) : target (a ||| c) = target a := by
  have hdistrib : (a ||| c) &&& addressMask = (a &&& addressMask) ||| (c &&& addressMask) := by
    apply eq_of_getLsbD_eq
    intro i _
    simp [Bool.and_or_distrib_right]
  rw [target, hdistrib, hc]
  simp [target]

theorem target_and (hc : c &&& addressMask = addressMask) : target (a &&& c) = target a := by
  rw [target, BitVec.and_assoc, hc, target]

theorem target_ofFrame (hf : f < 2 ^ 40) : target (ofFrame f) = f := by
  rw [target, ofFrame_and_addressMask hf, frameOf_ofFrame hf]

theorem and_twoPow_eq_zero {e : BitVec 64} (hk : k < 64) :
    e &&& BitVec.twoPow 64 k = 0 ↔ e.getLsbD k = false := by
  rw [and_twoPow]
  cases e.getLsbD k with
  | false => simp
  | true =>
    have hne : BitVec.twoPow 64 k ≠ 0#64 := by
      intro hzero
      have hbit := congrArg (fun x ↦ x.getLsbD k) hzero
      simp [hk] at hbit
    simpa using hne

@[simp]
theorem present_or (a c : BitVec 64) : present (a ||| c) = (present a || present c) := by
  simp [present]

@[simp]
theorem present_and (a c : BitVec 64) : present (a &&& c) = (present a && present c) := by
  simp [present]

@[simp]
theorem large_or (a c : BitVec 64) : large (a ||| c) = (large a || large c) := by
  simp [large]

@[simp]
theorem large_and (a c : BitVec 64) : large (a &&& c) = (large a && large c) := by
  simp [large]

@[simp]
theorem large_ofFrame (f : ℕ) : large (ofFrame f) = false := by
  simp [large, ofFrame]

@[simp]
theorem present_zero : present 0#64 = false := by decide

@[simp]
theorem large_zero : large 0#64 = false := by decide

/-- The walk of the hardware below a table of the given depth: depth and value of the entry that
maps page `v`. Bit 7 is reserved in the top table. -/
def walk (mem : Memory) : ℕ → ℕ → ℕ → Option (ℕ × BitVec 64)
  | 0, _, _ => none
  | d + 1, t, v =>
    let e := mem t (v / 512 ^ d % 512)
    if !present e then none
    else if d = 0 then some (0, e)
    else if large e then if d < 3 then some (d, e) else none
    else walk mem d (target e) v

/-- All entries on the way to page `v` allow writes (bit 1). -/
def writable (mem : Memory) : ℕ → ℕ → ℕ → Bool
  | 0, _, _ => true
  | d + 1, t, v =>
    let e := mem t (v / 512 ^ d % 512)
    e.getLsbD 1 && (d == 0 || large e || writable mem d (target e) v)

/-- The entry that maps page `v` in the space with top table `r`, with its depth. -/
def leaf (mem : Memory) (r v : ℕ) : Option (ℕ × BitVec 64) := walk mem 4 r v

/-- The frame that page `v` is mapped to in the space with top table `r`. -/
def frameAt (mem : Memory) (r v : ℕ) : Option ℕ :=
  (leaf mem r v).map fun (d, e) ↦ target e / 512 ^ d * 512 ^ d + v % 512 ^ d

/-- The last table on the way from a table of the given depth to page `v`. -/
def lastTable (mem : Memory) : ℕ → ℕ → ℕ → Option ℕ
  | 0, _, _ => none
  | 1, t, _ => some t
  | d + 2, t, v =>
    let e := mem t (v / 512 ^ (d + 1) % 512)
    if present e ∧ ¬large e then lastTable mem (d + 1) (target e) v else none

/-- Frame `t` serves as a page table of depth `d` in the space with top table `r`. -/
inductive TableAt (mem : Memory) (r : ℕ) : ℕ → ℕ → Prop
  | top : TableAt mem r 4 r
  | next {d t i : ℕ} : TableAt mem r (d + 2) t → i < 512 → present (mem t i) → ¬large (mem t i) →
      TableAt mem r (d + 1) (target (mem t i))

theorem walk_absent (h : present (mem t (v / 512 ^ d % 512)) = false) :
    walk mem (d + 1) t v = none := by
  simp [walk, h]

theorem walk_one (mem : Memory) (t v : ℕ) :
    walk mem 1 t v = if present (mem t (v % 512)) then some (0, mem t (v % 512)) else none := by
  cases h : present (mem t (v % 512)) <;> simp [walk, h]

theorem walk_next (hpresent : present (mem t (v / 512 ^ (d + 1) % 512)))
    (hlarge : large (mem t (v / 512 ^ (d + 1) % 512)) = false) :
    walk mem (d + 2) t v = walk mem (d + 1) (target (mem t (v / 512 ^ (d + 1) % 512))) v := by
  rw [walk]
  simp [hpresent, hlarge]

theorem lastTable_next (hlink : present (mem t (v / 512 ^ (d + 1) % 512)) ∧
      target (mem t (v / 512 ^ (d + 1) % 512)) = u)
    (hlarge : large (mem t (v / 512 ^ (d + 1) % 512)) = false) :
    lastTable mem (d + 2) t v = lastTable mem (d + 1) u v := by
  simp [lastTable, hlink, hlarge]

theorem lastTable_eq_some (h : lastTable mem (d + 2) t v = some u) :
    present (mem t (v / 512 ^ (d + 1) % 512)) ∧
      lastTable mem (d + 1) (target (mem t (v / 512 ^ (d + 1) % 512))) v = some u := by
  simp only [lastTable] at h
  split at h
  case isTrue hentry => exact ⟨hentry.1, h⟩
  case isFalse => simp at h

theorem TableAt.congr (h : TableAt mem' r d t)
    (hmem : ∀ d t i, TableAt mem r d t → mem' t i = mem t i) : TableAt mem r d t := by
  induction h with
  | top => exact .top
  | next _ hi hp hl ih =>
    rw [hmem _ _ _ ih] at hp hl ⊢
    exact .next ih hi hp hl

theorem walk_congr (h : TableAt mem r d t)
    (hmem : ∀ d t i, TableAt mem r d t → mem' t i = mem t i) (v : ℕ) :
    walk mem' d t v = walk mem d t v := by
  induction d generalizing t with
  | zero => rfl
  | succ d ih =>
    simp only [walk, hmem _ _ _ h]
    split
    · rfl
    · split
      · rfl
      · split
        · rfl
        · rename_i hp hd hl
          obtain ⟨d, rfl⟩ := Nat.exists_eq_succ_of_ne_zero hd
          exact ih (.next h (Nat.mod_lt _ (by decide)) (by simpa using hp) hl)

end ToastyUnix.Paging
