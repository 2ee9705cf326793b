import ToastyUnix.Lib.Paging

/-!
# The physical memory manager

`kernel/mm/pmm.c`: a bitmap with one bit per frame, set for a frame that is in use, searched
first-fit from a hint. `Pmm.IsFree` is the set of frames that an allocation may hand out, and
`pmmAllocFrame_cases` and `isFree_pmmFreeFrame` say what the two operations do to it.
-/

namespace ToastyUnix.Mm

open Paging List Function

/-- `MAX_FRAMES`: 4 GiB of memory. -/
def MAX_FRAMES : ℕ := 1024 * 1024

/-- The static variables of the frame allocator. -/
structure Pmm where
  bitmap : ℕ → BitVec 8
  totalFrames : ℕ
  allocatedFrames : BitVec 64
  lastHint : ℕ

namespace Pmm

/-- `frame_is_free`. -/
def frameIsFree (p : Pmm) (frame : ℕ) : Bool :=
  p.bitmap (frame / 8) &&& 1#8 <<< (frame % 8) = 0

/-- `frame_set_used`. -/
def frameSetUsed (p : Pmm) (frame : ℕ) : Pmm :=
  { p with
    bitmap := update p.bitmap (frame / 8)
      (p.bitmap (frame / 8) ||| 1#8 <<< (frame % 8)) }

/-- `frame_set_free`. -/
def frameSetFree (p : Pmm) (frame : ℕ) : Pmm :=
  { p with
    bitmap := update p.bitmap (frame / 8)
      (p.bitmap (frame / 8) &&& ~~~(1#8 <<< (frame % 8))) }

theorem frameIsFree_eq (p : Pmm) (frame : ℕ) :
    p.frameIsFree frame = !(p.bitmap (frame / 8)).getLsbD (frame % 8) := by
  have hbit : frame % 8 < 8 := Nat.mod_lt _ (by decide)
  rw [frameIsFree, ← BitVec.twoPow_eq, BitVec.and_twoPow]
  cases (p.bitmap (frame / 8)).getLsbD (frame % 8)
  · simp
  · have hne : BitVec.twoPow 8 (frame % 8) ≠ 0#8 := by
      intro hzero
      have := congrArg (fun x ↦ x.getLsbD (frame % 8)) hzero
      simp [hbit] at this
    simpa using hne

theorem frameIsFree_frameSetUsed (p : Pmm) (frame other : ℕ) :
    (p.frameSetUsed frame).frameIsFree other = (p.frameIsFree other && decide (other ≠ frame)) := by
  simp only [frameIsFree_eq, frameSetUsed]
  by_cases hbyte : other / 8 = frame / 8
  · have hbit : other % 8 < 8 := Nat.mod_lt _ (by decide)
    have hsame : other % 8 = frame % 8 ↔ other = frame := by omega
    simp [hbyte, ← BitVec.twoPow_eq, hbit, hsame]
  · have hne : other ≠ frame := by
      rintro rfl
      exact hbyte rfl
    simp [update_of_ne hbyte, hne]

theorem frameIsFree_frameSetFree (p : Pmm) (frame other : ℕ) :
    (p.frameSetFree frame).frameIsFree other = (p.frameIsFree other || decide (other = frame)) := by
  simp only [frameIsFree_eq, frameSetFree]
  by_cases hbyte : other / 8 = frame / 8
  · have hbit : other % 8 < 8 := Nat.mod_lt _ (by decide)
    have hsame : other % 8 = frame % 8 ↔ other = frame := by omega
    simp [hbyte, ← BitVec.twoPow_eq, hbit, hsame]
  · have hne : other ≠ frame := by
      rintro rfl
      exact hbyte rfl
    simp [update_of_ne hbyte, hne]

/-- An entry of the boot loader's memory map. The end of the entry does not wrap. -/
structure MemmapEntry where
  base : ℕ
  length : ℕ
  usable : Bool
  fits : base + length + 4096 ≤ 2 ^ 64

/-- A memory map with one usable entry below 4 GiB. -/
def lowMemory (base length : BitVec 32) : List MemmapEntry :=
  [⟨base.toNat, length.toNat, true, by omega⟩]

/-- The first whole frame of an entry. -/
def MemmapEntry.startFrame (e : MemmapEntry) : ℕ := (e.base + 4096 - 1) / 4096

/-- The end of the whole frames of an entry that the bitmap covers. -/
def MemmapEntry.endFrame (e : MemmapEntry) : ℕ := min ((e.base + e.length) / 4096) MAX_FRAMES

/-- The body of the loop of `pmm_init` over the memory map. -/
def addRegion (p : Pmm) (e : MemmapEntry) : Pmm :=
  if !e.usable then p
  else
    (range' e.startFrame (e.endFrame - e.startFrame)).foldl
      (fun p frame ↦ { p.frameSetFree frame with totalFrames := p.totalFrames + 1 }) p

/-- `pmm_init`. -/
def pmmInit (memmap : List MemmapEntry) : Pmm :=
  memmap.foldl addRegion
    { bitmap := fun _ ↦ 0xFF, totalFrames := 0, allocatedFrames := 0, lastHint := 0 }

/-- The search loop of `pmm_alloc_frame` finds frame `i`. -/
def take (p : Pmm) (i : ℕ) : BitVec 64 × Pmm :=
  (ofFrame i, { p.frameSetUsed i with
      allocatedFrames := p.allocatedFrames + 1
      lastHint := i + 1 })

/-- `pmm_alloc_frame`: the address of the frame, or 0, which also is the address of frame 0. -/
def pmmAllocFrame (p : Pmm) : BitVec 64 × Pmm :=
  match (range' p.lastHint (p.totalFrames - p.lastHint)).find? p.frameIsFree with
  | some i => p.take i
  | none =>
    match (range (min p.lastHint p.totalFrames)).find? p.frameIsFree with
    | some i => p.take i
    | none => (0, p)

/-- `pmm_free_frame`. -/
def pmmFreeFrame (p : Pmm) (phys : BitVec 64) : Pmm :=
  let frame := frameOf phys
  if p.totalFrames ≤ frame then p
  else if p.frameIsFree frame then p
  else { p.frameSetFree frame with allocatedFrames := p.allocatedFrames - 1 }

/-- The loop of `pmm_alloc_frames` finds frame `i`: mark `count` frames from there on. -/
def takeRange (p : Pmm) (i count : ℕ) : BitVec 64 × Pmm :=
  (ofFrame i, { (range count).foldl (fun p j ↦ p.frameSetUsed (i + j)) p with
      allocatedFrames := p.allocatedFrames + BitVec.ofNat 64 count
      lastHint := i + count })

/-- `pmm_alloc_frames`: the address of the first of `count` frames in a row, or 0. The loop ends at
the first `i` with `total_frames < i + count`, before the sum can wrap. -/
def pmmAllocFrames (p : Pmm) (count : BitVec 64) : BitVec 64 × Pmm :=
  if count = 0 then (0, p)
  else
    match (range (p.totalFrames + 1 - count.toNat)).find? fun i ↦
      (range count.toNat).all fun j ↦ p.frameIsFree (i + j) with
    | some i => p.takeRange i count.toNat
    | none => (0, p)

/-- The addresses that `pmm_free_frames` frees. -/
def rangeOf (phys count : BitVec 64) : List (BitVec 64) :=
  (range count.toNat).map fun i ↦ phys + BitVec.ofNat 64 (i * 4096)

/-- `pmm_free_frames`. -/
def pmmFreeFrames (p : Pmm) (phys count : BitVec 64) : Pmm :=
  (rangeOf phys count).foldl pmmFreeFrame p

/-- `pmm_get_stats`: the number of frames and the number of free frames. -/
def pmmGetStats (p : Pmm) : ℕ × BitVec 64 :=
  (p.totalFrames, BitVec.ofNat 64 p.totalFrames - p.allocatedFrames)

/-- A frame that an allocation may hand out. -/
def IsFree (p : Pmm) (frame : ℕ) : Prop := frame < p.totalFrames ∧ p.frameIsFree frame

instance (p : Pmm) (frame : ℕ) : Decidable (p.IsFree frame) :=
  inferInstanceAs (Decidable (_ ∧ _))

theorem isFree_take (p : Pmm) (i other : ℕ) :
    (p.take i).2.IsFree other ↔ p.IsFree other ∧ other ≠ i := by
  have hbit : (p.take i).2.frameIsFree other = (p.frameSetUsed i).frameIsFree other := rfl
  have htotal : (p.take i).2.totalFrames = p.totalFrames := rfl
  simp [IsFree, hbit, htotal, frameIsFree_frameSetUsed, and_assoc]

/-- What an allocation does: it takes a free frame, or there is none. -/
theorem pmmAllocFrame_cases (p : Pmm) :
    (p.pmmAllocFrame = (0, p) ∧ ∀ i, ¬p.IsFree i) ∨
      ∃ i, p.IsFree i ∧ p.pmmAllocFrame = p.take i := by
  unfold pmmAllocFrame
  split
  case h_1 i hfind =>
    have hmem := mem_of_find?_eq_some hfind
    simp only [mem_range'_1] at hmem
    exact .inr ⟨i, ⟨by omega, find?_some hfind⟩, rfl⟩
  case h_2 hfirst =>
    split
    case h_1 i hfind =>
      have hmem := mem_of_find?_eq_some hfind
      simp only [mem_range] at hmem
      exact .inr ⟨i, ⟨by omega, find?_some hfind⟩, rfl⟩
    case h_2 hsecond =>
      refine .inl ⟨rfl, fun i ⟨hlt, hfree⟩ ↦ ?_⟩
      rw [find?_eq_none] at hfirst hsecond
      by_cases hhint : p.lastHint ≤ i
      · exact hfirst i (by rw [mem_range'_1]; omega) hfree
      · exact hsecond i (by rw [mem_range]; omega) hfree

@[simp]
theorem totalFrames_pmmAllocFrame (p : Pmm) : p.pmmAllocFrame.2.totalFrames = p.totalFrames := by
  rcases p.pmmAllocFrame_cases with ⟨heq, _⟩ | ⟨i, _, heq⟩
  · rw [heq]
  · rw [heq]
    rfl

variable {p : Pmm} {other : ℕ} {memmap : List MemmapEntry}

theorem isFree_of_pmmAllocFrame (h : p.pmmAllocFrame.2.IsFree other) : p.IsFree other := by
  rcases p.pmmAllocFrame_cases with ⟨heq, _⟩ | ⟨i, _, heq⟩
  · rwa [heq] at h
  · rw [heq, isFree_take] at h
    exact h.1

/-- A successful allocation hands out a frame that was free and no longer is. -/
theorem pmmAllocFrame_eq_frame (htotal : p.totalFrames ≤ MAX_FRAMES) (h : p.pmmAllocFrame.1 ≠ 0) :
    ∃ i, i ≠ 0 ∧ i < 2 ^ 40 ∧ p.pmmAllocFrame.1 = ofFrame i ∧ p.IsFree i ∧
      ¬p.pmmAllocFrame.2.IsFree i := by
  rcases p.pmmAllocFrame_cases with ⟨heq, _⟩ | ⟨i, hfree, heq⟩
  · simp [heq] at h
  · have hlt : i < 2 ^ 40 := hfree.1.trans_le (htotal.trans (by decide))
    have haddr : p.pmmAllocFrame.1 = ofFrame i := by
      rw [heq]
      rfl
    refine ⟨i, ?_, hlt, haddr, hfree, ?_⟩
    · rwa [haddr, Ne, ofFrame_eq_zero hlt] at h
    · rw [heq, isFree_take]
      simp

@[simp]
theorem totalFrames_pmmFreeFrame (p : Pmm) (phys : BitVec 64) :
    (p.pmmFreeFrame phys).totalFrames = p.totalFrames := by
  unfold pmmFreeFrame
  simp only
  split_ifs <;> rfl

/-- Freeing adds at most the frame that was named. -/
theorem isFree_pmmFreeFrame (p : Pmm) (phys : BitVec 64) (other : ℕ) :
    (p.pmmFreeFrame phys).IsFree other ↔
      p.IsFree other ∨ (other < p.totalFrames ∧ other = frameOf phys) := by
  unfold pmmFreeFrame
  simp only
  split_ifs with htotal hfree
  · constructor
    · exact .inl
    · rintro (h | ⟨hlt, rfl⟩)
      · exact h
      · omega
  · constructor
    · exact .inl
    · rintro (h | ⟨hlt, rfl⟩)
      · exact h
      · exact ⟨hlt, hfree⟩
  · have hbit := p.frameIsFree_frameSetFree (frameOf phys) other
    change other < p.totalFrames ∧ (p.frameSetFree (frameOf phys)).frameIsFree other ↔ _
    rw [hbit]
    simp [IsFree, and_or_left]

theorem foldl_frameSetFree (frames : List ℕ) (p : Pmm) :
    let q := frames.foldl
      (fun p frame ↦ { p.frameSetFree frame with totalFrames := p.totalFrames + 1 }) p
    q.totalFrames = p.totalFrames + frames.length ∧
      ∀ other, q.frameIsFree other = (p.frameIsFree other || decide (other ∈ frames)) := by
  induction frames generalizing p with
  | nil => simp
  | cons frame frames ih =>
    obtain ⟨htotal, hfree⟩ := ih { p.frameSetFree frame with totalFrames := p.totalFrames + 1 }
    refine ⟨?_, fun other ↦ ?_⟩
    · rw [foldl_cons, htotal, length_cons]
      simp only
      omega
    · rw [foldl_cons, hfree]
      have hone := p.frameIsFree_frameSetFree frame other
      change ((p.frameSetFree frame).frameIsFree other || _) = _
      rw [hone]
      by_cases hsame : other = frame <;> simp [hsame]

end Pmm

/-- Frame `f` lies wholly inside the region. -/
def Pmm.MemmapEntry.Contains (e : Pmm.MemmapEntry) (f : ℕ) : Prop :=
  e.base ≤ f * 4096 ∧ (f + 1) * 4096 ≤ e.base + e.length

/-- Frame `f` lies wholly inside a usable region of the memory map. -/
def Usable (memmap : List Pmm.MemmapEntry) (f : ℕ) : Prop :=
  ∃ e ∈ memmap, e.usable = true ∧ e.Contains f

instance (e : Pmm.MemmapEntry) (f : ℕ) : Decidable (e.Contains f) :=
  inferInstanceAs (Decidable (_ ∧ _))

instance (memmap : List Pmm.MemmapEntry) (f : ℕ) : Decidable (Usable memmap f) :=
  inferInstanceAs (Decidable (∃ e ∈ memmap, _))

/-- No address belongs to two usable regions. -/
def DisjointUsable (memmap : List Pmm.MemmapEntry) : Prop :=
  memmap.Pairwise fun a b ↦ a.usable = true → b.usable = true →
    ∀ x, a.base ≤ x → x < a.base + a.length → b.base ≤ x → ¬x < b.base + b.length

namespace Pmm

/-- The frames that `pmm_init` makes free for a region. -/
def MemmapEntry.frames (e : MemmapEntry) : Finset ℕ :=
  if e.usable then Finset.Ico e.startFrame e.endFrame else ∅

theorem MemmapEntry.mem_frames {e : MemmapEntry} {f : ℕ} :
    f ∈ e.frames ↔ e.usable = true ∧ e.Contains f ∧ f < MAX_FRAMES := by
  have hmax : e.endFrame ≤ MAX_FRAMES := Nat.min_le_right _ _
  unfold MemmapEntry.frames
  split
  case isTrue husable =>
    simp only [Finset.mem_Ico, husable, true_and, MemmapEntry.Contains, MemmapEntry.startFrame,
      MemmapEntry.endFrame, lt_min_iff]
    omega
  case isFalse husable => simp [husable]

theorem addRegion_eq (p : Pmm) (e : MemmapEntry) :
    (p.addRegion e).totalFrames = p.totalFrames + e.frames.card ∧
      ∀ f, (p.addRegion e).frameIsFree f = (p.frameIsFree f || decide (f ∈ e.frames)) := by
  unfold addRegion MemmapEntry.frames
  by_cases husable : e.usable = true
  · obtain ⟨htotal, hfree⟩ := foldl_frameSetFree
      (range' e.startFrame (e.endFrame - e.startFrame)) p
    simp only [husable, Bool.not_true, Bool.false_eq_true, if_false, if_true]
    refine ⟨?_, fun f ↦ ?_⟩
    · rw [htotal, length_range', Nat.card_Ico]
    · rw [hfree]
      have hmem : f ∈ range' e.startFrame (e.endFrame - e.startFrame) ↔
          f ∈ Finset.Ico e.startFrame e.endFrame := by
        rw [mem_range'_1, Finset.mem_Ico]
        omega
      simp only [hmem]
  · simp [husable]

variable {memmap : List MemmapEntry}

/-- `pmm_init` frees the frames of the usable regions and counts them. -/
theorem pmmInit_eq (hdisjoint : DisjointUsable memmap) :
    ∃ frames : Finset ℕ, (∀ f, f ∈ frames ↔ Usable memmap f ∧ f < MAX_FRAMES) ∧
      (pmmInit memmap).totalFrames = frames.card ∧
      ∀ f, (pmmInit memmap).frameIsFree f = decide (f ∈ frames) := by
  have hfold : ∀ p : Pmm, ∃ frames : Finset ℕ,
      (∀ f, f ∈ frames ↔ Usable memmap f ∧ f < MAX_FRAMES) ∧
      (memmap.foldl addRegion p).totalFrames = p.totalFrames + frames.card ∧
      ∀ f, (memmap.foldl addRegion p).frameIsFree f =
        (p.frameIsFree f || decide (f ∈ frames)) := by
    induction memmap with
    | nil => exact fun p ↦ ⟨∅, by simp [Usable], by simp, by simp⟩
    | cons e memmap ih =>
      intro p
      obtain ⟨hfirst, hrest⟩ := pairwise_cons.mp hdisjoint
      obtain ⟨frames, hmem, htotal, hfree⟩ := ih hrest (p.addRegion e)
      obtain ⟨htotal', hfree'⟩ := p.addRegion_eq e
      have hapart : Disjoint e.frames frames := by
        rw [Finset.disjoint_left]
        intro f hf hf'
        obtain ⟨husable, hin, _⟩ := MemmapEntry.mem_frames.mp hf
        obtain ⟨e', he', husable', hin'⟩ := ((hmem f).mp hf').1
        unfold MemmapEntry.Contains at hin hin'
        exact hfirst e' he' husable husable' (f * 4096) hin.1 (by omega) hin'.1 (by omega)
      refine ⟨e.frames ∪ frames, fun f ↦ ?_, ?_, fun f ↦ ?_⟩
      · rw [Finset.mem_union, MemmapEntry.mem_frames, hmem]
        simp only [Usable, exists_mem_cons_iff]
        tauto
      · rw [foldl_cons, htotal, htotal', Finset.card_union_of_disjoint hapart]
        omega
      · rw [foldl_cons, hfree, hfree']
        simp [Bool.or_assoc]
  obtain ⟨frames, hmem, htotal, hfree⟩ := hfold
    { bitmap := fun _ ↦ 0xFF, totalFrames := 0, allocatedFrames := 0, lastHint := 0 }
  refine ⟨frames, hmem, by simpa [pmmInit] using htotal, fun f ↦ ?_⟩
  have hused : frameIsFree
      { bitmap := fun _ ↦ 0xFF, totalFrames := 0, allocatedFrames := 0, lastHint := 0 } f =
        false := by
    have hbits : ∀ k : Fin 8, (0xFF#8).getLsbD k = true := by decide
    simpa [frameIsFree_eq] using hbits ⟨f % 8, Nat.mod_lt _ (by decide)⟩
  rw [pmmInit, hfree, hused, Bool.false_or]

theorem totalFrames_pmmInit (hdisjoint : DisjointUsable memmap) :
    (pmmInit memmap).totalFrames ≤ MAX_FRAMES := by
  obtain ⟨frames, hmem, htotal, -⟩ := pmmInit_eq hdisjoint
  have hsub : frames ⊆ Finset.range MAX_FRAMES := fun f hf ↦
    Finset.mem_range.mpr ((hmem f).mp hf).2
  simpa [htotal] using Finset.card_le_card hsub

theorem isFree_pmmInit {f : ℕ} (hdisjoint : DisjointUsable memmap)
    (h : (pmmInit memmap).IsFree f) : Usable memmap f := by
  obtain ⟨frames, hmem, -, hfree⟩ := pmmInit_eq hdisjoint
  have hin : f ∈ frames := by simpa [hfree f] using h.2
  exact ((hmem f).mp hin).1

end Pmm

end ToastyUnix.Mm
