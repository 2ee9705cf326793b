import ToastyUnix.Lib.Checked
import ToastyUnix.Mm.Pmm

/-!
# Accounting for physical frames

A ledger holds the frame allocator together with the frames that are outstanding: handed out and
not freed since. In every run on a memory map with disjoint usable regions the bitmap and the
counters agree with the ledger (`frames_accounted`), as long as only outstanding frames are freed
and frame 0, whose address stands for failure, is not usable.

The search loops stop at `g_total_frames`, which is the number of usable frames and not the end of
the last one. A region behind a hole is therefore never handed out as a whole
(`frame_behind_hole_lost`), and `alloc_complete_iff` says in which states an allocation still fails
only when nothing is left.
-/

namespace ToastyUnix.Mm

open Paging List

/-- `BITMAP_BYTES`. -/
def BITMAP_BYTES : ℕ := MAX_FRAMES / 8

namespace Pmm

variable {memmap : List MemmapEntry}

@[simp]
theorem allocatedFrames_pmmInit (memmap : List MemmapEntry) :
    (pmmInit memmap).allocatedFrames = 0 := by
  have hframes : ∀ (frames : List ℕ) (p : Pmm), (frames.foldl
      (fun p frame ↦ { p.frameSetFree frame with totalFrames := p.totalFrames + 1 })
      p).allocatedFrames = p.allocatedFrames := by
    intro frames
    induction frames with
    | nil => exact fun p ↦ rfl
    | cons frame frames ih => exact fun p ↦ ih _
  have hfold : ∀ p : Pmm, (memmap.foldl addRegion p).allocatedFrames = p.allocatedFrames := by
    induction memmap with
    | nil => exact fun p ↦ rfl
    | cons e memmap ih =>
      intro p
      rw [foldl_cons, ih, addRegion]
      split_ifs
      · rfl
      · exact hframes _ p
  exact hfold _

/-! ## Ranges of frames -/

theorem foldl_frameSetUsed (i count : ℕ) (p : Pmm) :
    let q := (range count).foldl (fun p j ↦ p.frameSetUsed (i + j)) p
    q.totalFrames = p.totalFrames ∧
      ∀ f, q.frameIsFree f = (p.frameIsFree f && !decide (i ≤ f ∧ f < i + count)) := by
  induction count with
  | zero =>
    refine ⟨rfl, fun f ↦ ?_⟩
    have hempty : ¬(i ≤ f ∧ f < i + 0) := by omega
    rw [decide_eq_false hempty]
    simp
  | succ count ih =>
    obtain ⟨htotal, hfree⟩ := ih
    rw [range_succ, foldl_append, foldl_cons, foldl_nil]
    refine ⟨htotal, fun f ↦ ?_⟩
    rw [frameIsFree_frameSetUsed, hfree, Bool.and_assoc]
    congr 1
    rw [Bool.eq_iff_iff]
    simp only [Bool.and_eq_true, Bool.not_eq_true', decide_eq_true_eq, decide_eq_false_iff_not]
    omega

theorem isFree_takeRange (p : Pmm) (i count f : ℕ) :
    (p.takeRange i count).2.IsFree f ↔ p.IsFree f ∧ ¬(i ≤ f ∧ f < i + count) := by
  obtain ⟨htotal, hfree⟩ := foldl_frameSetUsed i count p
  change f < ((range count).foldl (fun p j ↦ p.frameSetUsed (i + j)) p).totalFrames ∧
    ((range count).foldl (fun p j ↦ p.frameSetUsed (i + j)) p).frameIsFree f = true ↔ _
  rw [htotal, hfree, IsFree, Bool.and_eq_true, Bool.not_eq_true', decide_eq_false_iff_not,
    and_assoc]

@[simp]
theorem totalFrames_takeRange (p : Pmm) (i count : ℕ) :
    (p.takeRange i count).2.totalFrames = p.totalFrames :=
  (foldl_frameSetUsed i count p).1

/-- What an allocation of a range does: it takes free frames in a row, or nothing. -/
theorem pmmAllocFrames_cases (p : Pmm) (count : BitVec 64) :
    p.pmmAllocFrames count = (0, p) ∨
      ∃ i, 0 < count.toNat ∧ (∀ j < count.toNat, p.IsFree (i + j)) ∧
        p.pmmAllocFrames count = p.takeRange i count.toNat := by
  unfold pmmAllocFrames
  split
  case isTrue => exact .inl rfl
  case isFalse hcount =>
    split
    case h_1 i hfind =>
      have hmem := mem_of_find?_eq_some hfind
      have hall := find?_some hfind
      simp only [mem_range, all_eq_true] at hmem hall
      exact .inr ⟨i, by bv_omega, fun j hj ↦ ⟨by omega, hall j hj⟩, rfl⟩
    case h_2 => exact .inl rfl

/-! ## Accesses to the bitmap -/

/-- A value for which the bit of a frame is read or written; an access outside of `g_bitmap`
fails. -/
def access {α : Type} (frame : ℕ) (value : α) : Option α :=
  if frame / 8 < BITMAP_BYTES then some value else none

/-- `addRegion` with its accesses. -/
def addRegionChecked (p : Pmm) (e : MemmapEntry) : Option Pmm :=
  if !e.usable then some p
  else
    (range' e.startFrame (e.endFrame - e.startFrame)).foldlM (fun p frame ↦
      access frame { p.frameSetFree frame with totalFrames := p.totalFrames + 1 }) p

/-- `pmm_init` with its accesses. -/
def pmmInitChecked (memmap : List MemmapEntry) : Option Pmm :=
  memmap.foldlM addRegionChecked
    { bitmap := fun _ ↦ 0xFF, totalFrames := 0, allocatedFrames := 0, lastHint := 0 }

/-- `pmm_alloc_frame` with its accesses. -/
def pmmAllocFrameChecked (p : Pmm) : Option (BitVec 64 × Pmm) := do
  let found ← (range' p.lastHint (p.totalFrames - p.lastHint)).findM? fun i ↦
    access i (p.frameIsFree i)
  match found with
  | some i => access i (p.take i)
  | none =>
    let found ← (range (min p.lastHint p.totalFrames)).findM? fun i ↦ access i (p.frameIsFree i)
    match found with
    | some i => access i (p.take i)
    | none => some (0, p)

/-- `takeRange` with its accesses. -/
def takeRangeChecked (p : Pmm) (i count : ℕ) : Option (BitVec 64 × Pmm) := do
  let q ← (range count).foldlM (fun p j ↦ access (i + j) (p.frameSetUsed (i + j))) p
  some (ofFrame i, { q with
      allocatedFrames := p.allocatedFrames + BitVec.ofNat 64 count
      lastHint := i + count })

/-- `pmm_alloc_frames` with its accesses. -/
def pmmAllocFramesChecked (p : Pmm) (count : BitVec 64) : Option (BitVec 64 × Pmm) :=
  if count = 0 then some (0, p)
  else do
    let found ← (range (p.totalFrames + 1 - count.toNat)).findM? fun i ↦
      (range count.toNat).allM fun j ↦ access (i + j) (p.frameIsFree (i + j))
    match found with
    | some i => p.takeRangeChecked i count.toNat
    | none => some (0, p)

/-- `pmm_free_frame` with its accesses. -/
def pmmFreeFrameChecked (p : Pmm) (phys : BitVec 64) : Option Pmm :=
  let frame := frameOf phys
  if p.totalFrames ≤ frame then some p
  else do
    if ← access frame (p.frameIsFree frame) then some p
    else access frame { p.frameSetFree frame with allocatedFrames := p.allocatedFrames - 1 }

/-- `pmm_free_frames` with its accesses. -/
def pmmFreeFramesChecked (p : Pmm) (phys count : BitVec 64) : Option Pmm :=
  (rangeOf phys count).foldlM pmmFreeFrameChecked p

variable {α : Type} {p : Pmm} {frame : ℕ}

theorem access_eq (hframe : frame < MAX_FRAMES) (value : α) : access frame value = some value := by
  apply if_pos
  rw [BITMAP_BYTES, MAX_FRAMES] at *
  omega

theorem pmmInitChecked_eq (memmap : List MemmapEntry) :
    pmmInitChecked memmap = some (pmmInit memmap) := by
  apply (Checked.foldlM_eq_foldl (I := fun _ ↦ True) trivial ?_).1
  intro p _ e _
  refine ⟨?_, trivial⟩
  unfold addRegionChecked addRegion
  split_ifs
  · rfl
  · apply (Checked.foldlM_eq_foldl (I := fun _ ↦ True) trivial ?_).1
    intro p _ frame hframe
    have hend : e.endFrame ≤ MAX_FRAMES := Nat.min_le_right _ _
    rw [mem_range'_1] at hframe
    exact ⟨access_eq (by omega) _, trivial⟩

section

variable (htotal : p.totalFrames ≤ MAX_FRAMES)
include htotal

theorem pmmAllocFrameChecked_eq : p.pmmAllocFrameChecked = some p.pmmAllocFrame := by
  have hfirst := @Checked.findM?_eq_find? _ (fun i ↦ access i (p.frameIsFree i)) p.frameIsFree
    (range' p.lastHint (p.totalFrames - p.lastHint)) fun i hi ↦ by
      rw [mem_range'_1] at hi
      exact access_eq (by omega) _
  have hsecond := @Checked.findM?_eq_find? _ (fun i ↦ access i (p.frameIsFree i)) p.frameIsFree
    (range (min p.lastHint p.totalFrames)) fun i hi ↦ by
      rw [mem_range] at hi
      exact access_eq (by omega) _
  unfold pmmAllocFrameChecked pmmAllocFrame
  rw [hfirst, Option.bind_eq_bind, Option.bind_some]
  cases hfind : (range' p.lastHint (p.totalFrames - p.lastHint)).find? p.frameIsFree with
  | some i =>
    have hi := mem_range'_1.mp (mem_of_find?_eq_some hfind)
    exact access_eq (by omega) _
  | none =>
    dsimp only
    rw [hsecond, Option.bind_some]
    cases hfind' : (range (min p.lastHint p.totalFrames)).find? p.frameIsFree with
    | some i =>
      have hi := mem_range.mp (mem_of_find?_eq_some hfind')
      exact access_eq (by omega) _
    | none => rfl

theorem pmmAllocFramesChecked_eq (count : BitVec 64) :
    p.pmmAllocFramesChecked count = some (p.pmmAllocFrames count) := by
  have hfind := @Checked.findM?_eq_find? _
    (fun i ↦ (range count.toNat).allM fun j ↦ access (i + j) (p.frameIsFree (i + j)))
    (fun i ↦ (range count.toNat).all fun j ↦ p.frameIsFree (i + j))
    (range (p.totalFrames + 1 - count.toNat)) fun i hi ↦ by
      apply Checked.allM_eq_all
      intro j hj
      rw [mem_range] at hi hj
      exact access_eq (by omega) _
  unfold pmmAllocFramesChecked pmmAllocFrames
  split_ifs
  · rfl
  rw [hfind, Option.bind_eq_bind, Option.bind_some]
  cases hsome : (range (p.totalFrames + 1 - count.toNat)).find?
    fun i ↦ (range count.toNat).all fun j ↦ p.frameIsFree (i + j) with
  | some i =>
    have hi := mem_range.mp (mem_of_find?_eq_some hsome)
    have hmark := @Checked.foldlM_eq_foldl _ _ (fun p j ↦ access (i + j) (p.frameSetUsed (i + j)))
      (fun p j ↦ p.frameSetUsed (i + j)) (fun _ : Pmm ↦ True) (range count.toNat) p trivial
      fun p _ j hj ↦ by
        rw [mem_range] at hj
        exact ⟨access_eq (by omega) _, trivial⟩
    simp only [takeRangeChecked, hmark.1, Option.bind_eq_bind, Option.bind_some]
    rfl
  | none => rfl

theorem pmmFreeFrameChecked_eq (phys : BitVec 64) :
    p.pmmFreeFrameChecked phys = some (p.pmmFreeFrame phys) := by
  unfold pmmFreeFrameChecked pmmFreeFrame
  simp only
  split_ifs with hend hfree
  · rfl
  · rw [access_eq (by omega), Option.bind_eq_bind, Option.bind_some, if_pos hfree]
  · rw [access_eq (by omega), Option.bind_eq_bind, Option.bind_some, if_neg hfree,
      access_eq (by omega)]

theorem pmmFreeFramesChecked_eq (phys count : BitVec 64) :
    p.pmmFreeFramesChecked phys count = some (p.pmmFreeFrames phys count) := by
  apply (Checked.foldlM_eq_foldl (I := fun p : Pmm ↦ p.totalFrames ≤ MAX_FRAMES) htotal ?_).1
  intro p htotal phys _
  exact ⟨pmmFreeFrameChecked_eq htotal phys, by rwa [totalFrames_pmmFreeFrame]⟩

end

end Pmm

/-- A call of the frame allocator. -/
inductive FrameOp
  | alloc
  | allocFrames (count : BitVec 64)
  | free (phys : BitVec 64)
  | freeFrames (phys count : BitVec 64)
deriving DecidableEq

namespace FrameOp

/-- The frames that the caller receives. -/
def granted (p : Pmm) : FrameOp → Finset ℕ
  | alloc => if p.pmmAllocFrame.1 = 0 then ∅ else {frameOf p.pmmAllocFrame.1}
  | allocFrames count =>
    if (p.pmmAllocFrames count).1 = 0 then ∅
    else (Finset.range count.toNat).image (frameOf (p.pmmAllocFrames count).1 + ·)
  | free _ => ∅
  | freeFrames _ _ => ∅

/-- The frames that the caller gives back, in the order of the calls. -/
def freed : FrameOp → List ℕ
  | alloc => []
  | allocFrames _ => []
  | free phys => [frameOf phys]
  | freeFrames phys count => (Pmm.rangeOf phys count).map frameOf

/-- The calls of a program that asks for single frames. -/
def Single : FrameOp → Prop
  | alloc => True
  | free _ => True
  | _ => False

end FrameOp

/-- The frame allocator and the frames that are handed out and not freed. -/
structure Ledger where
  pmm : Pmm
  outstanding : Finset ℕ

namespace Ledger

/-- The state after `pmm_init`. -/
def boot (memmap : List Pmm.MemmapEntry) : Ledger := ⟨Pmm.pmmInit memmap, ∅⟩

/-- The allocator after a call. -/
def after (p : Pmm) : FrameOp → Pmm
  | .alloc => p.pmmAllocFrame.2
  | .allocFrames count => (p.pmmAllocFrames count).2
  | .free phys => p.pmmFreeFrame phys
  | .freeFrames phys count => p.pmmFreeFrames phys count

/-- The allocator after a call, unless an access leaves the bitmap. -/
def afterChecked (p : Pmm) : FrameOp → Option Pmm
  | .alloc => p.pmmAllocFrameChecked.map Prod.snd
  | .allocFrames count => (p.pmmAllocFramesChecked count).map Prod.snd
  | .free phys => p.pmmFreeFrameChecked phys
  | .freeFrames phys count => p.pmmFreeFramesChecked phys count

theorem afterChecked_eq {p : Pmm} (htotal : p.totalFrames ≤ MAX_FRAMES) (op : FrameOp) :
    afterChecked p op = some (after p op) := by
  cases op with
  | alloc => rw [afterChecked, Pmm.pmmAllocFrameChecked_eq htotal, Option.map_some, after]
  | allocFrames count =>
    rw [afterChecked, Pmm.pmmAllocFramesChecked_eq htotal, Option.map_some, after]
  | free phys => rw [afterChecked, Pmm.pmmFreeFrameChecked_eq htotal, after]
  | freeFrames phys count => rw [afterChecked, Pmm.pmmFreeFramesChecked_eq htotal, after]

/-- One call. -/
def step (s : Ledger) (op : FrameOp) : Ledger :=
  ⟨after s.pmm op, (s.outstanding ∪ op.granted s.pmm) \ op.freed.toFinset⟩

/-- A sequence of calls. -/
def run (s : Ledger) (ops : List FrameOp) : Ledger := ops.foldl step s

/-- The call frees only outstanding frames, and each once. -/
def Allowed (s : Ledger) (op : FrameOp) : Prop :=
  (∀ f ∈ op.freed, f ∈ s.outstanding) ∧ op.freed.Nodup

instance (s : Ledger) (op : FrameOp) : Decidable (s.Allowed op) :=
  inferInstanceAs (Decidable (_ ∧ _))

/-- Every call of the sequence is allowed when it is made. -/
def Legal (s : Ledger) : List FrameOp → Prop
  | [] => True
  | op :: ops => s.Allowed op ∧ (s.step op).Legal ops

instance decidableLegal : ∀ (s : Ledger) (ops : List FrameOp), Decidable (s.Legal ops)
  | _, [] => isTrue trivial
  | s, op :: ops =>
    have := decidableLegal (s.step op) ops
    inferInstanceAs (Decidable (_ ∧ _))

variable {P : Ledger → Prop} {ops : List FrameOp} {p : Pmm} {i f : ℕ} {op : FrameOp}
  {phys : BitVec 64}

theorem run_induction {s : Ledger} (hlegal : s.Legal ops) (hs : P s)
    (hstep : ∀ s, ∀ op ∈ ops, P s → s.Allowed op → P (s.step op)) : P (s.run ops) := by
  induction ops generalizing s with
  | nil => exact hs
  | cons op ops ih =>
    exact ih hlegal.2 (hstep s op mem_cons_self hs hlegal.1)
      fun s op hop ↦ hstep s op (mem_cons_of_mem _ hop)

/-! ## What a call does to the free frames -/

theorem granted_alloc_of_take (htotal : p.totalFrames ≤ MAX_FRAMES) (hfree : p.IsFree i)
    (heq : p.pmmAllocFrame = p.take i) : FrameOp.alloc.granted p = if i = 0 then ∅ else {i} := by
  have hlt : i < 2 ^ 40 := hfree.1.trans_le (htotal.trans (by decide))
  simp only [FrameOp.granted, heq, Pmm.take, ofFrame_eq_zero hlt, frameOf_ofFrame hlt]

theorem granted_allocFrames_of_takeRange {count : BitVec 64} (htotal : p.totalFrames ≤ MAX_FRAMES)
    (hpos : 0 < count.toNat) (hfree : ∀ j < count.toNat, p.IsFree (i + j))
    (heq : p.pmmAllocFrames count = p.takeRange i count.toNat) :
    (FrameOp.allocFrames count).granted p =
      if i = 0 then ∅ else (Finset.range count.toNat).image (i + ·) := by
  have hlt : i < 2 ^ 40 := (hfree 0 hpos).1.trans_le (htotal.trans (by decide))
  simp only [FrameOp.granted, heq, Pmm.takeRange, ofFrame_eq_zero hlt, frameOf_ofFrame hlt]

@[simp]
theorem totalFrames_after (p : Pmm) (op : FrameOp) : (after p op).totalFrames = p.totalFrames := by
  cases op with
  | alloc => exact p.totalFrames_pmmAllocFrame
  | allocFrames count =>
    rcases p.pmmAllocFrames_cases count with heq | ⟨i, _, _, heq⟩
    · simp [after, heq]
    · simp [after, heq]
  | free phys => exact p.totalFrames_pmmFreeFrame phys
  | freeFrames phys count =>
    simp only [after, Pmm.pmmFreeFrames]
    induction Pmm.rangeOf phys count generalizing p with
    | nil => rfl
    | cons a rest ih => simpa using ih (p.pmmFreeFrame a)

section

variable (htotal : p.totalFrames ≤ MAX_FRAMES)
include htotal

/-- A call that frees nothing takes free frames, among them those it grants. -/
theorem isFree_after (hop : op.freed = [])
    (h : (after p op).IsFree f) : p.IsFree f ∧ f ∉ op.granted p := by
  cases op with
  | alloc =>
    rcases p.pmmAllocFrame_cases with ⟨heq, _⟩ | ⟨i, hfree, heq⟩
    · rw [after, heq] at h
      exact ⟨h, by simp [FrameOp.granted, heq]⟩
    · rw [after, heq, Pmm.isFree_take] at h
      rw [granted_alloc_of_take htotal hfree heq]
      refine ⟨h.1, ?_⟩
      split_ifs
      · simp
      · simpa using h.2
  | allocFrames count =>
    rcases p.pmmAllocFrames_cases count with heq | ⟨i, hpos, hfree, heq⟩
    · rw [after, heq] at h
      exact ⟨h, by simp [FrameOp.granted, heq]⟩
    · rw [after, heq, Pmm.isFree_takeRange] at h
      rw [granted_allocFrames_of_takeRange htotal hpos hfree heq]
      refine ⟨h.1, ?_⟩
      split_ifs
      · simp
      · intro hmem
        obtain ⟨j, hj, rfl⟩ := Finset.mem_image.mp hmem
        exact h.2 ⟨by omega, by simpa using hj⟩
  | free phys => simp [FrameOp.freed] at hop
  | freeFrames phys count =>
    have hnone : Pmm.rangeOf phys count = [] := by simpa [FrameOp.freed] using hop
    rw [after, Pmm.pmmFreeFrames, hnone] at h
    exact ⟨h, by simp [FrameOp.granted]⟩

theorem isFree_of_granted (h : f ∈ op.granted p) :
    f ≠ 0 ∧ p.IsFree f := by
  cases op with
  | alloc =>
    rcases p.pmmAllocFrame_cases with ⟨heq, _⟩ | ⟨i, hfree, heq⟩
    · simp [FrameOp.granted, heq] at h
    · rw [granted_alloc_of_take htotal hfree heq] at h
      split_ifs at h with hzero
      · simp at h
      · rw [Finset.mem_singleton] at h
        exact h ▸ ⟨hzero, hfree⟩
  | allocFrames count =>
    rcases p.pmmAllocFrames_cases count with heq | ⟨i, hpos, hfree, heq⟩
    · simp [FrameOp.granted, heq] at h
    · rw [granted_allocFrames_of_takeRange htotal hpos hfree heq] at h
      split_ifs at h with hzero
      · simp at h
      · obtain ⟨j, hj, rfl⟩ := Finset.mem_image.mp h
        exact ⟨by omega, hfree j (by simpa using hj)⟩
  | free phys => simp [FrameOp.granted] at h
  | freeFrames phys count => simp [FrameOp.granted] at h

/-- Where frame 0 is not free, the counter counts what is granted. -/
theorem allocatedFrames_after (hzero : ¬p.IsFree 0) (hop : op.freed = []) :
    (after p op).allocatedFrames =
      p.allocatedFrames + BitVec.ofNat 64 (op.granted p).card := by
  cases op with
  | alloc =>
    rcases p.pmmAllocFrame_cases with ⟨heq, _⟩ | ⟨i, hfree, heq⟩
    · simp [after, FrameOp.granted, heq]
    · have hi : i ≠ 0 := fun h0 ↦ hzero (h0 ▸ hfree)
      rw [granted_alloc_of_take htotal hfree heq, if_neg hi, after, heq]
      simp [Pmm.take]
  | allocFrames count =>
    rcases p.pmmAllocFrames_cases count with heq | ⟨i, hpos, hfree, heq⟩
    · simp [after, FrameOp.granted, heq]
    · have hi : i ≠ 0 := fun h0 ↦ hzero (by simpa [h0] using hfree 0 hpos)
      rw [granted_allocFrames_of_takeRange htotal hpos hfree heq, if_neg hi, after, heq,
        Finset.card_image_of_injective _ (add_right_injective i), Finset.card_range]
      rfl
  | free phys => simp [FrameOp.freed] at hop
  | freeFrames phys count =>
    have hnone : Pmm.rangeOf phys count = [] := by simpa [FrameOp.freed] using hop
    simp [after, Pmm.pmmFreeFrames, hnone, FrameOp.granted]

end

/-! ## Giving frames back -/

/-- One call of `pmm_free_frame`. -/
def release (s : Ledger) (phys : BitVec 64) : Ledger :=
  ⟨s.pmm.pmmFreeFrame phys, s.outstanding.erase (frameOf phys)⟩

theorem foldl_release (s : Ledger) (addresses : List (BitVec 64)) :
    addresses.foldl release s =
      ⟨addresses.foldl Pmm.pmmFreeFrame s.pmm,
        s.outstanding \ (addresses.map frameOf).toFinset⟩ := by
  induction addresses generalizing s with
  | nil => simp
  | cons a rest ih =>
    rw [foldl_cons, ih, foldl_cons, release]
    congr 1
    ext f
    simp only [Finset.mem_sdiff, Finset.mem_erase, map_cons, toFinset_cons, Finset.mem_insert]
    tauto

/-- A call frees nothing, or releases outstanding frames one after the other. -/
theorem step_cases {s : Ledger} (hs : P s) (hallowed : s.Allowed op)
    (hgrant : op.freed = [] → P ⟨after s.pmm op, s.outstanding ∪ op.granted s.pmm⟩)
    (hrelease : ∀ s phys, P s → frameOf phys ∈ s.outstanding → P (s.release phys)) :
    P (s.step op) := by
  have hloop : ∀ (addresses : List (BitVec 64)) (s : Ledger), P s →
      (∀ f ∈ addresses.map frameOf, f ∈ s.outstanding) → (addresses.map frameOf).Nodup →
      P (addresses.foldl release s) := by
    intro addresses
    induction addresses with
    | nil => exact fun s hs _ _ ↦ hs
    | cons a rest ih =>
      intro s hs hout hnodup
      rw [map_cons, nodup_cons] at hnodup
      refine ih (s.release a) (hrelease s a hs (hout _ (by simp))) (fun f hf ↦ ?_) hnodup.2
      refine Finset.mem_erase.mpr ⟨fun heq ↦ hnodup.1 (heq ▸ hf), hout f ?_⟩
      exact mem_cons_of_mem _ hf
  cases op with
  | alloc => simpa [step, FrameOp.freed] using hgrant rfl
  | allocFrames count => simpa [step, FrameOp.freed] using hgrant rfl
  | free phys =>
    have hone := hloop [phys] s hs hallowed.1 hallowed.2
    rw [foldl_release] at hone
    simpa [step, after, FrameOp.granted, FrameOp.freed] using hone
  | freeFrames phys count =>
    have hall := hloop (Pmm.rangeOf phys count) s hs hallowed.1 hallowed.2
    rw [foldl_release] at hall
    simpa [step, after, FrameOp.granted, FrameOp.freed, Pmm.pmmFreeFrames] using hall

/-- The bitmap and the ledger agree about the frames of the memory map. -/
structure Accounts (memmap : List Pmm.MemmapEntry) (s : Ledger) : Prop where
  total : s.pmm.totalFrames ≤ MAX_FRAMES
  free : ∀ f, s.pmm.IsFree f → Usable memmap f ∧ f ∉ s.outstanding
  held : ∀ f ∈ s.outstanding, f ≠ 0 ∧ f < s.pmm.totalFrames ∧ Usable memmap f

variable {memmap : List Pmm.MemmapEntry} {s : Ledger}

theorem accounts_boot (hdisjoint : DisjointUsable memmap) : Accounts memmap (boot memmap) := by
  exact ⟨Pmm.totalFrames_pmmInit hdisjoint, fun f hf ↦ ⟨Pmm.isFree_pmmInit hdisjoint hf,
    by simp [boot]⟩, by simp [boot]⟩

theorem Accounts.grant (h : Accounts memmap s) (hop : op.freed = []) :
    Accounts memmap ⟨after s.pmm op, s.outstanding ∪ op.granted s.pmm⟩ where
  total := by simpa using h.total
  free f hf := by
    obtain ⟨hwas, hnew⟩ := isFree_after h.total hop hf
    obtain ⟨husable, hout⟩ := h.free f hwas
    exact ⟨husable, by simp [hout, hnew]⟩
  held f hf := by
    rw [totalFrames_after]
    rcases Finset.mem_union.mp hf with hold | hnew
    · exact h.held f hold
    · obtain ⟨hne, hfree⟩ := isFree_of_granted h.total hnew
      exact ⟨hne, hfree.1, (h.free f hfree).1⟩

theorem Accounts.release (h : Accounts memmap s) (hphys : frameOf phys ∈ s.outstanding) :
    Accounts memmap (s.release phys) where
  total := by simpa [Ledger.release] using h.total
  free f hf := by
    simp only [Ledger.release, Pmm.isFree_pmmFreeFrame] at hf ⊢
    rcases hf with hold | ⟨_, rfl⟩
    · obtain ⟨husable, hout⟩ := h.free f hold
      exact ⟨husable, fun hmem ↦ hout (Finset.mem_of_mem_erase hmem)⟩
    · exact ⟨(h.held _ hphys).2.2, by simp⟩
  held f hf := by
    simpa [Ledger.release] using h.held f (Finset.mem_of_mem_erase hf)

theorem Accounts.step (h : Accounts memmap s) (hallowed : s.Allowed op) :
    Accounts memmap (s.step op) :=
  step_cases h hallowed h.grant fun _ _ hs ↦ hs.release

/-- The counter of allocated frames is the number of outstanding frames. -/
def Counted (s : Ledger) : Prop :=
  s.pmm.allocatedFrames = BitVec.ofNat 64 s.outstanding.card

section

variable (h : s.Counted) (hs : Accounts memmap s)
include h hs

theorem Counted.grant (hzero : ¬Usable memmap 0)
    (hop : op.freed = []) : Counted ⟨after s.pmm op, s.outstanding ∪ op.granted s.pmm⟩ := by
  have hapart : Disjoint s.outstanding (op.granted s.pmm) :=
    Finset.disjoint_left.mpr fun f hout hnew ↦
      (hs.free f (isFree_of_granted hs.total hnew).2).2 hout
  unfold Counted at h ⊢
  rw [allocatedFrames_after hs.total (fun hfree ↦ hzero (hs.free 0 hfree).1) hop, h,
    Finset.card_union_of_disjoint hapart, BitVec.ofNat_add]

theorem Counted.release (hphys : frameOf phys ∈ s.outstanding) : (s.release phys).Counted := by
  have hlt := (hs.held _ hphys).2.1
  have hused : ¬s.pmm.frameIsFree (frameOf phys) = true := fun hfree ↦
    (hs.free _ ⟨hlt, hfree⟩).2 hphys
  have hcounter : (s.pmm.pmmFreeFrame phys).allocatedFrames = s.pmm.allocatedFrames - 1 := by
    simp [Pmm.pmmFreeFrame, Nat.not_le.mpr hlt, hused]
  have hpos : 0 < s.outstanding.card := Finset.card_pos.mpr ⟨_, hphys⟩
  unfold Counted at h ⊢
  simp only [Ledger.release, hcounter, h, Finset.card_erase_of_mem hphys]
  exact BitVec.ofNat_sub_ofNat_of_le _ 1 (by decide) hpos

theorem Counted.step (hzero : ¬Usable memmap 0)
    (hallowed : s.Allowed op) : (s.step op).Counted := by
  refine (step_cases (P := fun s ↦ Accounts memmap s ∧ s.Counted) ⟨hs, h⟩ hallowed ?_ ?_).2
  · exact fun hop ↦ ⟨hs.grant hop, h.grant hs hzero hop⟩
  · exact fun s phys hs hphys ↦ ⟨hs.1.release hphys, hs.2.release hs.1 hphys⟩

end

theorem Accounts.card_le (h : Accounts memmap s) : s.outstanding.card ≤ s.pmm.totalFrames := by
  have hsub : s.outstanding ⊆ Finset.range s.pmm.totalFrames := fun f hf ↦
    Finset.mem_range.mpr (h.held f hf).2.1
  simpa using Finset.card_le_card hsub

theorem accounts_run (hdisjoint : DisjointUsable memmap) (hlegal : (boot memmap).Legal ops) :
    Accounts memmap ((boot memmap).run ops) :=
  run_induction hlegal (accounts_boot hdisjoint) fun _ _ _ h hallowed ↦ h.step hallowed

/-- In every run in which only outstanding frames are freed, on a memory map with disjoint usable
regions and without frame 0: `pmm_init` and every call go through without an access outside of the
bitmap, a call grants whole frames of usable
regions that are not outstanding, a range is granted as frames in a row that were all free, and
the counters are the number of outstanding frames and what is left of the total. -/
theorem frames_accounted (hdisjoint : DisjointUsable memmap) (hzero : ¬Usable memmap 0)
    (ops : List FrameOp) (hlegal : (boot memmap).Legal ops) :
    let s := (boot memmap).run ops
    Pmm.pmmInitChecked memmap = some (boot memmap).pmm ∧
      (∀ op, afterChecked s.pmm op = some (after s.pmm op)) ∧
      (∀ op, ∀ f ∈ FrameOp.granted s.pmm op, Usable memmap f ∧ f ∉ s.outstanding) ∧
      (∀ count, (s.pmm.pmmAllocFrames count).1 ≠ 0 →
        ∃ i, (s.pmm.pmmAllocFrames count).1 = ofFrame i ∧ ∀ j < count.toNat,
          s.pmm.frameIsFree (i + j) = true ∧ i + j ∈ (s.step (.allocFrames count)).outstanding) ∧
      s.pmm.allocatedFrames.toNat = s.outstanding.card ∧
      s.pmm.pmmGetStats.2.toNat + s.outstanding.card = s.pmm.pmmGetStats.1 := by
  intro s
  have hs : Accounts memmap s := accounts_run hdisjoint hlegal
  have hcounted : s.Counted :=
    (run_induction (P := fun s ↦ Accounts memmap s ∧ s.Counted) hlegal
      ⟨accounts_boot hdisjoint, by simp [Counted, boot, Pmm.allocatedFrames_pmmInit]⟩
      fun s op _ h hallowed ↦ ⟨h.1.step hallowed, h.2.step h.1 hzero hallowed⟩).2
  have hcard := hs.card_le
  have htotal := hs.total
  have hcount : s.pmm.allocatedFrames.toNat = s.outstanding.card := by
    rw [hcounted, BitVec.toNat_ofNat, Nat.mod_eq_of_lt]
    exact hcard.trans_lt (htotal.trans_lt (by decide))
  refine ⟨Pmm.pmmInitChecked_eq memmap, afterChecked_eq htotal,
    fun op f hf ↦ hs.free f (isFree_of_granted htotal hf).2, ?_, hcount, ?_⟩
  · intro count hne
    rcases s.pmm.pmmAllocFrames_cases count with heq | ⟨i, hpos, hfree, heq⟩
    · simp [heq] at hne
    · have hi : i ≠ 0 := fun h0 ↦ hzero (hs.free 0 (by simpa [h0] using hfree 0 hpos)).1
      refine ⟨i, by rw [heq]; rfl, fun j hj ↦ ⟨(hfree j hj).2, ?_⟩⟩
      simp only [step, granted_allocFrames_of_takeRange htotal hpos hfree heq, if_neg hi,
        FrameOp.freed, toFinset_nil, Finset.sdiff_empty, Finset.mem_union, Finset.mem_image,
        Finset.mem_range]
      exact .inr ⟨j, hj, rfl⟩
  · have hsmall : s.pmm.totalFrames < 2 ^ 64 := htotal.trans_lt (by decide)
    simp only [Pmm.pmmGetStats]
    rw [hcounted, BitVec.ofNat_sub_ofNat_of_le _ _ (hcard.trans_lt hsmall) hcard,
      BitVec.toNat_ofNat, Nat.mod_eq_of_lt (by omega)]
    omega

/-- One usable region with the frames 1, 2 and 3. -/
def threeFrames : List Pmm.MemmapEntry := Pmm.lowMemory 0x1000 0x3000

theorem frames_accounted_threeFrames :
    let s := (boot threeFrames).run [.alloc, .allocFrames 1, .free 0x1000]
    s.pmm.allocatedFrames.toNat = s.outstanding.card ∧ s.outstanding = {2} :=
  ⟨(frames_accounted (by simp [DisjointUsable, threeFrames, Pmm.lowMemory]) (by decide)
    [.alloc, .allocFrames 1, .free 0x1000] (by decide +kernel)).2.2.2.2.1, by decide +kernel⟩

/-! ## Which frames can be reached -/

/-- No frame that the search covers is lost, except frame 0. -/
def Kept (memmap : List Pmm.MemmapEntry) (s : Ledger) : Prop :=
  ∀ f, Usable memmap f → f ≠ 0 → f < s.pmm.totalFrames → s.pmm.IsFree f ∨ f ∈ s.outstanding

theorem kept_boot (hdisjoint : DisjointUsable memmap) : Kept memmap (boot memmap) := by
  obtain ⟨frames, hmem, htotal, hfree⟩ := Pmm.pmmInit_eq hdisjoint
  intro f husable _ hlt
  have hmax : f < MAX_FRAMES := hlt.trans_le (accounts_boot hdisjoint).total
  exact .inl ⟨hlt, by simpa [boot, hfree f] using (hmem f).mpr ⟨husable, hmax⟩⟩

theorem Kept.step (h : Kept memmap s) (hs : Accounts memmap s) (hop : FrameOp.Single op) :
    Kept memmap (s.step op) := by
  intro f husable hne hlt
  rw [Ledger.step, totalFrames_after] at hlt
  have hwas := h f husable hne hlt
  cases op with
  | alloc =>
    simp only [Ledger.step, after, FrameOp.freed, toFinset_nil, Finset.sdiff_empty,
      Finset.mem_union]
    rcases s.pmm.pmmAllocFrame_cases with ⟨heq, _⟩ | ⟨i, hfree, heq⟩
    · rw [heq]
      exact hwas.imp_right .inl
    · rw [heq, Pmm.isFree_take, granted_alloc_of_take hs.total hfree heq]
      by_cases hi : f = i
      · subst hi
        simp [hne]
      · exact hwas.imp (fun hfree ↦ ⟨hfree, hi⟩) .inl
  | free phys =>
    simp only [Ledger.step, after, Pmm.isFree_pmmFreeFrame, FrameOp.freed, FrameOp.granted,
      Finset.union_empty, toFinset_cons, toFinset_nil, Finset.mem_sdiff]
    by_cases hphys : f = frameOf phys
    · exact .inl (.inr ⟨hlt, hphys⟩)
    · exact hwas.imp .inl fun hout ↦ ⟨hout, by simpa using hphys⟩
  | allocFrames count => exact hop.elim
  | freeFrames phys count => exact hop.elim

end Ledger

/-- When an allocation succeeds: the search finds a free frame, and not frame 0 first. -/
theorem Pmm.pmmAllocFrame_ne_zero_iff {p : Pmm} (htotal : p.totalFrames ≤ MAX_FRAMES) :
    p.pmmAllocFrame.1 ≠ 0 ↔
      ∃ f, f ≠ 0 ∧ p.IsFree f ∧ (p.IsFree 0 → 0 < p.lastHint ∧ p.lastHint ≤ f) := by
  have haddr : ∀ i, i < p.totalFrames → ((p.take i).1 ≠ 0 ↔ i ≠ 0) := fun i hi ↦
    not_congr (ofFrame_eq_zero (hi.trans_le (htotal.trans (by decide))))
  unfold pmmAllocFrame
  split
  case h_1 i hfind =>
    obtain ⟨hfree, hmem, hbefore⟩ := find?_range'_eq_some.mp hfind
    rw [mem_range'_1] at hmem
    rw [haddr i (by omega)]
    constructor
    · refine fun hi ↦ ⟨i, hi, ⟨by omega, hfree⟩, fun hzero ↦ ⟨?_, hmem.1⟩⟩
      by_contra hhint
      simpa [hzero.2] using hbefore 0 (by omega) (by omega)
    · rintro ⟨f, _, hf, hhint⟩ rfl
      have := (hhint ⟨by omega, hfree⟩).1
      omega
  case h_2 hfirst =>
    -- nothing is free from the hint on
    have hbelow : ∀ f, p.IsFree f → f < p.lastHint := by
      intro f hf
      by_contra hle
      rw [find?_eq_none] at hfirst
      exact hfirst f (by rw [mem_range'_1]; have := hf.1; omega) hf.2
    split
    case h_1 i hfind =>
      obtain ⟨hfree, hmem, hbefore⟩ := find?_range_eq_some.mp hfind
      rw [mem_range] at hmem
      rw [haddr i (by omega)]
      constructor
      · refine fun hi ↦ ⟨i, hi, ⟨by omega, hfree⟩, fun hzero ↦ ?_⟩
        simpa [hzero.2] using hbefore 0 (by omega)
      · rintro ⟨f, _, hf, hhint⟩ rfl
        have := (hhint ⟨by omega, hfree⟩).2
        have := hbelow f hf
        omega
    case h_2 hsecond =>
      simp only [ne_eq, not_true_eq_false, false_iff, not_exists, not_and]
      intro f _ hf
      rw [find?_eq_none] at hsecond
      have hlt := hbelow f hf
      exact absurd hf.2 (hsecond f (by rw [mem_range]; have := hf.1; omega))

namespace Ledger

variable {memmap : List Pmm.MemmapEntry}

/-- A region behind a hole: the only usable frame is frame 256. -/
def highMemory : List Pmm.MemmapEntry := [⟨0x100000, 0x1000, true, by norm_num⟩]

/-- The first allocation fails although no frame is outstanding. -/
theorem frame_behind_hole_lost :
    (boot highMemory).pmm.pmmAllocFrame.1 = 0 ∧ Usable highMemory 256 ∧
      256 ∉ (boot highMemory).outstanding := by
  decide +kernel

/-- In a run of `pmm_alloc_frame` and `pmm_free_frame` an allocation that fails means that every
usable frame is outstanding, exactly in the states where there is no usable frame at all or the
search reaches a frame that is left. As frame 0 is never handed out and the search covers as many
frames as there are, the last usable frame is never handed out. -/
theorem alloc_complete_iff (hdisjoint : DisjointUsable memmap)
    (hbelow : ∀ e ∈ memmap, e.usable = true → e.base + e.length ≤ 2 ^ 32) (ops : List FrameOp)
    (hsingle : ∀ op ∈ ops, FrameOp.Single op) (hlegal : (boot memmap).Legal ops) :
    let s := (boot memmap).run ops
    (s.pmm.pmmAllocFrame.1 = 0 → ∀ f, Usable memmap f → f ∈ s.outstanding) ↔
      (∀ f, ¬Usable memmap f) ∨
        ∃ f, 0 < f ∧ f < s.pmm.totalFrames ∧ Usable memmap f ∧ f ∉ s.outstanding ∧
          (s.pmm.IsFree 0 → 0 < s.pmm.lastHint ∧ s.pmm.lastHint ≤ f) := by
  intro s
  obtain ⟨hs, hkept⟩ : Accounts memmap s ∧ Kept memmap s :=
    run_induction (P := fun s ↦ Accounts memmap s ∧ Kept memmap s) hlegal
      ⟨accounts_boot hdisjoint, kept_boot hdisjoint⟩
      fun s op hop h hallowed ↦ ⟨h.1.step hallowed, h.2.step h.1 (hsingle op hop)⟩
  have htotal : s.pmm.totalFrames = (Pmm.pmmInit memmap).totalFrames :=
    run_induction (P := fun s ↦ s.pmm.totalFrames = (Pmm.pmmInit memmap).totalFrames) hlegal rfl
      fun s op _ h _ ↦ by rw [step, totalFrames_after, h]
  obtain ⟨frames, hmem, hcard, _⟩ := Pmm.pmmInit_eq hdisjoint
  -- a full ledger would need one frame more than the search covers
  have hfull : (∀ f, Usable memmap f → f ∈ s.outstanding) → ∀ f, ¬Usable memmap f := by
    intro hall f husable
    have hin : f ∈ frames := by
      obtain ⟨e, he, heusable, hcontains⟩ := husable
      have := hbelow e he heusable
      refine (hmem f).mpr ⟨⟨e, he, heusable, hcontains⟩, ?_⟩
      simp only [Pmm.MemmapEntry.Contains, MAX_FRAMES] at hcontains ⊢
      omega
    have hsub : frames ⊆ Finset.Ico 1 s.pmm.totalFrames := by
      intro g hg
      obtain ⟨hne, hlt, _⟩ := hs.held g (hall g ((hmem g).mp hg).1)
      exact Finset.mem_Ico.mpr ⟨by omega, hlt⟩
    have hle := Finset.card_le_card hsub
    have hpos : 0 < frames.card := Finset.card_pos.mpr ⟨f, hin⟩
    rw [Nat.card_Ico, htotal, hcard] at hle
    omega
  have hfound : (∃ f, 0 < f ∧ f < s.pmm.totalFrames ∧ Usable memmap f ∧ f ∉ s.outstanding ∧
      (s.pmm.IsFree 0 → 0 < s.pmm.lastHint ∧ s.pmm.lastHint ≤ f)) ↔ s.pmm.pmmAllocFrame.1 ≠ 0 := by
    rw [Pmm.pmmAllocFrame_ne_zero_iff hs.total]
    refine exists_congr fun f ↦ ⟨?_, ?_⟩
    · rintro ⟨hpos, hlt, husable, hout, hhint⟩
      exact ⟨by omega, (hkept f husable (by omega) hlt).resolve_right hout, hhint⟩
    · rintro ⟨hne, hfree, hhint⟩
      obtain ⟨husable, hout⟩ := hs.free f hfree
      exact ⟨by omega, hfree.1, husable, hout, hhint⟩
  rw [hfound]
  constructor
  · intro hcomplete
    by_cases hzero : s.pmm.pmmAllocFrame.1 = 0
    · exact .inl (hfull (hcomplete hzero))
    · exact .inr hzero
  · rintro (hnone | hne) hzero
    · exact fun f husable ↦ (hnone f husable).elim
    · exact (hne hzero).elim

theorem alloc_complete_iff_threeFrames :
    let s := (boot threeFrames).run [.alloc]
    s.pmm.pmmAllocFrame.1 = 0 → ∀ f, Usable threeFrames f → f ∈ s.outstanding :=
  (alloc_complete_iff (by simp [DisjointUsable, threeFrames, Pmm.lowMemory]) (by decide) [.alloc]
    (by simp [FrameOp.Single]) (by decide +kernel)).mpr (.inr ⟨2, by decide +kernel⟩)

end Ledger

end ToastyUnix.Mm
