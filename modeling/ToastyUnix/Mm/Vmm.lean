import ToastyUnix.Mm.Pmm

/-!
# The virtual memory manager

`kernel/mm/vmm.c`. Table entries are read and written through the direct map, so an entry is named
by the number of its frame and its index. Virtual addresses are natural numbers below `2^64`. The
TLB and the flags that only decide about its invalidation are not modelled.
-/

namespace ToastyUnix.Mm

open Paging

def VMM_PRESENT : BitVec 64 := 1
def VMM_WRITE : BitVec 64 := 2
def VMM_USER : BitVec 64 := 4

/-- The flags of every user page. -/
def USER_PAGE : BitVec 64 := VMM_PRESENT ||| VMM_WRITE ||| VMM_USER

/-- Bit 7 of an entry: a large page. -/
def PTE_LARGE : BitVec 64 := 0x80

/-- Bit 63 of an entry: no execution. -/
def PTE_NX : BitVec 64 := 1#64 <<< 63

def PTE_ADDR_MASK : BitVec 64 := 0x000ffffffffff000

/-- The flags that the pages of a split large page inherit. -/
def SPLIT_FLAGS_MASK : BitVec 64 := 0xFFF &&& ~~~PTE_LARGE &&& ~~~PTE_NX

def KERNEL_HALF_BASE : ℕ := 0xffff800000000000
def VMM_KHEAP_BASE : ℕ := 0xffffffff81000000
def VMM_KHEAP_SIZE : ℕ := 64 * 1024 * 1024

/-- Physical memory and both memory managers: `cr3` is the loaded address space, `rootCr3` the boot
loader's. -/
structure State where
  pmm : Pmm
  mem : Memory
  cr3 : BitVec 64
  rootCr3 : BitVec 64

/-- A machine with `length` bytes of memory from frame 2 on and an empty top table in frame 1. -/
def State.bare (length : BitVec 32) : State :=
  ⟨Pmm.pmmInit (Pmm.lowMemory 0x2000 length), fun _ _ ↦ 0, ofFrame 1, ofFrame 1⟩

/-- The number of the page that the tables translate `virt` by: bits 12 to 47. -/
def pageOf (virt : ℕ) : ℕ := virt / 4096 % 2 ^ 36

/-- The addresses that the hardware accepts: bits 47 to 63 are equal. -/
def canonical (virt : ℕ) : Prop := virt < 2 ^ 47 ∨ (2 ^ 64 - 2 ^ 47 ≤ virt ∧ virt < 2 ^ 64)

instance (virt : ℕ) : Decidable (canonical virt) := inferInstanceAs (Decidable (_ ∨ _))

theorem pml4Idx_eq (virt : ℕ) : virt / 2 ^ 39 % 512 = pageOf virt / 512 ^ 3 % 512 := by
  rw [pageOf]
  omega

theorem pdptIdx_eq (virt : ℕ) : virt / 2 ^ 30 % 512 = pageOf virt / 512 ^ 2 % 512 := by
  rw [pageOf]
  omega

theorem pdIdx_eq (virt : ℕ) : virt / 2 ^ 21 % 512 = pageOf virt / 512 ^ 1 % 512 := by
  rw [pageOf]
  omega

theorem ptIdx_eq (virt : ℕ) : virt / 2 ^ 12 % 512 = pageOf virt % 512 := by
  rw [pageOf]
  omega

namespace State

/-- `pmm_alloc_frame`. -/
def allocFrame (s : State) : BitVec 64 × State :=
  (s.pmm.pmmAllocFrame.1, { s with pmm := s.pmm.pmmAllocFrame.2 })

/-- `pmm_free_frame`. -/
def freeFrame (s : State) (phys : BitVec 64) : State :=
  { s with pmm := s.pmm.pmmFreeFrame phys }

/-- `memset(pmm_phys_to_virt(phys), 0, PAGE_SIZE)`. -/
def clearFrame (s : State) (phys : BitVec 64) : State :=
  { s with mem := s.mem.fill (frameOf phys) fun _ ↦ 0 }

/-- Clear a new table and let an entry refer to it. -/
def linkTable (s : State) (t i : ℕ) (phys : BitVec 64) : State :=
  let s := s.clearFrame phys
  { s with mem := s.mem.write t i (phys ||| VMM_PRESENT ||| VMM_WRITE ||| VMM_USER) }

/-- `table_fetch(entry, allocate)`: the address of the next table, or 0. -/
def tableFetch (s : State) (t i : ℕ) (allocate : Bool) : BitVec 64 × State :=
  if s.mem t i &&& VMM_PRESENT ≠ 0 then (s.mem t i &&& PTE_ADDR_MASK, s)
  else if !allocate then (0, s)
  else
    let (phys, s) := s.allocFrame
    if phys = 0 then (0, s)
    else (phys, s.linkTable t i phys)

/-- The split of a large page in `walk_pt`, for any level: `stride` is the page size of the new
table and `flag` marks its pages. The new entry keeps the low bits of the old one, bit 7 included.
The result is `false` without a frame for the new table. -/
def splitLarge (s : State) (t i : ℕ) (stride flag : BitVec 64) : Bool × State :=
  let e := s.mem t i
  if e &&& PTE_LARGE = 0 then (true, s)
  else
    let (phys, s) := s.allocFrame
    if phys = 0 then (false, s)
    else
      let mem := s.mem.fill (frameOf phys) fun j ↦
        ((e &&& PTE_ADDR_MASK) + BitVec.ofNat 64 j * stride) |||
          ((e &&& SPLIT_FLAGS_MASK) ||| flag)
      (true, { s with mem := mem.write t i (phys ||| (mem t i &&& 0xFFF)) })

/-- One level of `walk_pt`: split a large page, then fetch the next table. -/
def walkLevel (s : State) (t i : ℕ) (stride flag : BitVec 64) (allocate : Bool) :
    Option ℕ × State :=
  match s.splitLarge t i stride flag with
  | (false, s) => (none, s)
  | (true, s) =>
    let (phys, s) := s.tableFetch t i allocate
    if phys = 0 then (none, s) else (some (frameOf phys), s)

/-- Change the flags of entries, in order. -/
def updateEntries (s : State) (update : BitVec 64 → BitVec 64) (entries : List (ℕ × ℕ)) : State :=
  entries.foldl (fun s (t, i) ↦ { s with mem := s.mem.write t i (update (s.mem t i)) }) s

/-- The end of `walk_pt`: the flags of the entries above the last table. -/
def reflag (s : State) (user : Bool) (entries : List (ℕ × ℕ)) : State :=
  let s := s.updateEntries (fun e ↦ e &&& ~~~PTE_NX) entries
  if user then s.updateEntries (fun e ↦ e ||| VMM_USER) entries else s

/-- `walk_pt`: the entry of the last level for `virt`. -/
def walkPt (s : State) (cr3 : BitVec 64) (virt : ℕ) (allocate user : Bool) :
    Option (ℕ × ℕ) × State :=
  let pml4 := frameOf cr3
  let pml4Idx := virt / 2 ^ 39 % 512
  let pdptIdx := virt / 2 ^ 30 % 512
  let pdIdx := virt / 2 ^ 21 % 512
  let ptIdx := virt / 2 ^ 12 % 512
  match s.walkLevel pml4 pml4Idx 0x40000000 0 allocate with
  | (none, s) => (none, s)
  | (some pdpt, s) =>
    match s.walkLevel pdpt pdptIdx 0x200000 PTE_LARGE allocate with
    | (none, s) => (none, s)
    | (some pd, s) =>
      match s.walkLevel pd pdIdx 0x1000 0 allocate with
      | (none, s) => (none, s)
      | (some pt, s) =>
        (some (pt, ptIdx), s.reflag user [(pml4, pml4Idx), (pdpt, pdptIdx), (pd, pdIdx)])

/-- `vmm_space_clone`: the address of the new top table, or 0. -/
def vmmSpaceClone (s : State) : BitVec 64 × State :=
  let (phys, s) := s.allocFrame
  if phys = 0 then (0, s)
  else
    let s := s.clearFrame phys
    let pml4 := fun i ↦
      if 256 ≤ i ∧ i < 512 then s.mem (frameOf s.rootCr3) i else s.mem (frameOf phys) i
    (phys, { s with mem := s.mem.fill (frameOf phys) pml4 })

/-- `vmm_space_switch`. -/
def vmmSpaceSwitch (s : State) (cr3 : BitVec 64) : State := { s with cr3 := cr3 }

/-- `vmm_map_page_in`. -/
def vmmMapPageIn (s : State) (cr3 : BitVec 64) (virt : ℕ) (phys flags : BitVec 64) : ℤ × State :=
  if virt % 4096 ≠ 0 ∨ phys &&& 0xFFF ≠ 0 then (-1, s)
  else
    match s.walkPt cr3 virt true (flags &&& VMM_USER ≠ 0) with
    | (none, s) => (-1, s)
    | (some (t, i), s) =>
      (0, { s with mem := s.mem.write t i ((phys &&& PTE_ADDR_MASK) ||| flags ||| VMM_PRESENT) })

/-- `vmm_unmap_page_in`. -/
def vmmUnmapPageIn (s : State) (cr3 : BitVec 64) (virt : ℕ) : State :=
  match s.walkPt cr3 virt false false with
  | (none, s) => s
  | (some (t, i), s) => { s with mem := s.mem.write t i 0 }

/-- `vmm_translate_in`: the physical address of `virt`, or 0. The walk may split large pages. -/
def vmmTranslateIn (s : State) (cr3 : BitVec 64) (virt : ℕ) : BitVec 64 × State :=
  match s.walkPt cr3 virt false false with
  | (none, s) => (0, s)
  | (some (t, i), s) =>
    if s.mem t i &&& VMM_PRESENT = 0 then (0, s)
    else ((s.mem t i &&& PTE_ADDR_MASK) ||| BitVec.ofNat 64 (virt % 4096), s)

/-- The space that the kernel half or the user half of the loaded space is edited in. -/
def spaceOf (s : State) (virt : ℕ) : BitVec 64 :=
  if KERNEL_HALF_BASE ≤ virt then s.rootCr3 else s.cr3

/-- `vmm_map_page`. -/
def vmmMapPage (s : State) (virt : ℕ) (phys flags : BitVec 64) : ℤ × State :=
  s.vmmMapPageIn (s.spaceOf virt) virt phys flags

/-- `vmm_unmap_page`. -/
def vmmUnmapPage (s : State) (virt : ℕ) : State := s.vmmUnmapPageIn (s.spaceOf virt) virt

/-- The loop of `vmm_reserve_tables` over `n` pages. -/
def reserveLoop (s : State) : ℕ → ℕ → State
  | 0, _ => s
  | n + 1, page => (s.walkPt s.rootCr3 page true false).2.reserveLoop n (page + 4096)

/-- `vmm_reserve_tables`. -/
def vmmReserveTables (s : State) (virt bytes : ℕ) : State :=
  let first := virt / 4096 * 4096
  let last := (virt + bytes + 4095) % 2 ^ 64 / 4096 * 4096
  s.reserveLoop ((last - first) / 4096) first

/-- A store of the kernel through the loaded space; `none` when it faults, which halts the machine.
-/
def storeByte (s : State) (virt : ℕ) (b : UInt8) : Option State :=
  if canonical virt ∧ writable s.mem 4 (frameOf s.cr3) (pageOf virt) then
    (frameAt s.mem (frameOf s.cr3) (pageOf virt)).map fun f ↦
      { s with mem := s.mem.writeByte f (virt % 4096) b }
  else none

/-! ## The loaded address space

Only `vmm_space_switch` changes it. -/

/-- The same address space is loaded in both states. -/
structure SameSpace (s s' : State) : Prop where
  cr3 : s'.cr3 = s.cr3
  rootCr3 : s'.rootCr3 = s.rootCr3

theorem SameSpace.refl (s : State) : SameSpace s s := ⟨rfl, rfl⟩

variable {s s' : State}

theorem SameSpace.trans {s'' : State} (h : SameSpace s s') (h' : SameSpace s' s'') :
    SameSpace s s'' :=
  ⟨h'.cr3.trans h.cr3, h'.rootCr3.trans h.rootCr3⟩

theorem sameSpace_allocFrame (s : State) : SameSpace s s.allocFrame.2 := ⟨rfl, rfl⟩

theorem sameSpace_tableFetch (s : State) (t i : ℕ) (allocate : Bool) :
    SameSpace s (s.tableFetch t i allocate).2 := by
  unfold tableFetch
  split
  · exact .refl s
  · split
    · exact .refl s
    · simp only
      split <;> exact ⟨rfl, rfl⟩

theorem sameSpace_splitLarge (s : State) (t i : ℕ) (stride flag : BitVec 64) :
    SameSpace s (s.splitLarge t i stride flag).2 := by
  unfold splitLarge
  simp only
  split
  · exact .refl s
  · split <;> exact ⟨rfl, rfl⟩

theorem sameSpace_walkLevel {t i : ℕ} {stride flag : BitVec 64} {allocate : Bool}
    {result : Option ℕ} (h : s.walkLevel t i stride flag allocate = (result, s')) :
    SameSpace s s' := by
  have hsplit := s.sameSpace_splitLarge t i stride flag
  unfold walkLevel at h
  split at h
  case h_1 s1 heq =>
    rw [heq] at hsplit
    exact (Prod.mk.inj h).2 ▸ hsplit
  case h_2 s1 heq =>
    rw [heq] at hsplit
    have hfetch := hsplit.trans (s1.sameSpace_tableFetch t i allocate)
    simp only at h
    split at h
    · exact (Prod.mk.inj h).2 ▸ hfetch
    · exact (Prod.mk.inj h).2 ▸ hfetch

theorem sameSpace_updateEntries (s : State) (update : BitVec 64 → BitVec 64)
    (entries : List (ℕ × ℕ)) : SameSpace s (s.updateEntries update entries) := by
  induction entries generalizing s with
  | nil => exact .refl s
  | cons p entries ih =>
    have hrest := ih { s with mem := s.mem.write p.1 p.2 (update (s.mem p.1 p.2)) }
    exact ⟨hrest.cr3, hrest.rootCr3⟩

/-- What holds at the top table and is handed on from level to level holds at the last one, before
the flags on the way are set. -/
theorem walkPt_rule {cr3 : BitVec 64} (virt : ℕ) (allocate user : Bool)
    (At : ℕ → ℕ → List (ℕ × ℕ) → State → Prop) (Failed : State → Prop)
    (hstart : At 0 (frameOf cr3) [] s)
    (hlevel : ∀ {n t entries s result s'} (stride flag : BitVec 64), n ≤ 2 →
      (n = 1 → flag = PTE_LARGE) → At n t entries s →
      s.walkLevel t (pageOf virt / 512 ^ (3 - n) % 512) stride flag allocate = (result, s') →
      (result = none → Failed s') ∧ ∀ u, result = some u →
        At (n + 1) u (entries ++ [(t, pageOf virt / 512 ^ (3 - n) % 512)]) s') :
    (s.walkPt cr3 virt allocate user).1 = none ∧ Failed (s.walkPt cr3 virt allocate user).2 ∨
      ∃ t entries s', At 3 t entries s' ∧
        s.walkPt cr3 virt allocate user = (some (t, pageOf virt % 512), s'.reflag user entries) := by
  simp only [walkPt, pml4Idx_eq, pdptIdx_eq, pdIdx_eq, ptIdx_eq]
  split
  case h_1 s1 heq =>
    exact .inl ⟨rfl, (hlevel _ _ (Nat.zero_le 2) (by decide) hstart heq).1 rfl⟩
  case h_2 pdpt s1 heq =>
  have h1 := (hlevel _ _ (Nat.zero_le 2) (by decide) hstart heq).2 pdpt rfl
  split
  case h_1 s2 heq2 =>
    exact .inl ⟨rfl, (hlevel _ _ (by decide) (fun _ ↦ rfl) h1 heq2).1 rfl⟩
  case h_2 pd s2 heq2 =>
  have h2 := (hlevel _ _ (by decide) (fun _ ↦ rfl) h1 heq2).2 pd rfl
  split
  case h_1 s3 heq3 =>
    exact .inl ⟨rfl, (hlevel _ _ le_rfl (by decide) h2 heq3).1 rfl⟩
  case h_2 pt s3 heq3 =>
  exact .inr ⟨pt, _, s3, (hlevel _ _ le_rfl (by decide) h2 heq3).2 pt rfl, rfl⟩

theorem sameSpace_walkPt (s : State) (cr3 : BitVec 64) (virt : ℕ) (allocate user : Bool) :
    SameSpace s (s.walkPt cr3 virt allocate user).2 := by
  rcases walkPt_rule virt allocate user (fun _ _ _ ↦ SameSpace s) (SameSpace s) (.refl s)
    fun _ _ _ _ h heq ↦ ⟨fun _ ↦ h.trans (sameSpace_walkLevel heq),
      fun _ _ ↦ h.trans (sameSpace_walkLevel heq)⟩ with ⟨-, h⟩ | ⟨t, entries, s', h, heq⟩
  · exact h
  · rw [heq]
    apply h.trans
    dsimp only [reflag]
    split
    · exact (sameSpace_updateEntries _ _ _).trans (sameSpace_updateEntries _ _ _)
    · exact sameSpace_updateEntries _ _ _

theorem sameSpace_vmmSpaceClone (s : State) : SameSpace s s.vmmSpaceClone.2 := by
  unfold vmmSpaceClone
  simp only
  split <;> exact ⟨rfl, rfl⟩

theorem sameSpace_vmmMapPageIn (s : State) (cr3 : BitVec 64) (virt : ℕ) (phys flags : BitVec 64) :
    SameSpace s (s.vmmMapPageIn cr3 virt phys flags).2 := by
  have hwalk := s.sameSpace_walkPt cr3 virt true (flags &&& VMM_USER ≠ 0)
  unfold vmmMapPageIn
  split
  · exact .refl s
  · split
    case h_1 s' heq =>
      rw [heq] at hwalk
      exact hwalk
    case h_2 t i s' heq =>
      rw [heq] at hwalk
      exact ⟨hwalk.cr3, hwalk.rootCr3⟩

theorem sameSpace_vmmUnmapPageIn (s : State) (cr3 : BitVec 64) (virt : ℕ) :
    SameSpace s (s.vmmUnmapPageIn cr3 virt) := by
  have hwalk := s.sameSpace_walkPt cr3 virt false false
  unfold vmmUnmapPageIn
  split
  case h_1 s' heq =>
    rw [heq] at hwalk
    exact hwalk
  case h_2 t i s' heq =>
    rw [heq] at hwalk
    exact ⟨hwalk.cr3, hwalk.rootCr3⟩

theorem sameSpace_vmmTranslateIn (s : State) (cr3 : BitVec 64) (virt : ℕ) :
    SameSpace s (s.vmmTranslateIn cr3 virt).2 := by
  have hwalk := s.sameSpace_walkPt cr3 virt false false
  unfold vmmTranslateIn
  split
  case h_1 s' heq =>
    rw [heq] at hwalk
    exact hwalk
  case h_2 t i s' heq =>
    rw [heq] at hwalk
    split <;> exact hwalk

theorem sameSpace_storeByte {virt : ℕ} {b : UInt8} (h : s.storeByte virt b = some s') :
    SameSpace s s' := by
  unfold storeByte at h
  split at h
  case isTrue =>
    simp only [Option.map_eq_some_iff] at h
    obtain ⟨f, _, rfl⟩ := h
    exact ⟨rfl, rfl⟩
  case isFalse => simp at h

end State

end ToastyUnix.Mm
