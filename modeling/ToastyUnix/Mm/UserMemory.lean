import ToastyUnix.Mm.UserMap

/-!
# User memory under all tasks

The steps are those that change the user half of an address space: a new space, the segments and
the stack of a program, `mmap` and `munmap`, by any tasks in any order, with any outcome of the
frame allocator. In every run from boot on each frame is mapped at one page of one space at most,
a mapped frame is never free, and no page table is mapped.
-/

namespace ToastyUnix.Mm

open Paging List

/-- What the memory system calls read and write in a task. -/
structure UserTask where
  cr3 : BitVec 64
  mmapCur : ℕ
deriving DecidableEq

/-- Memory and the tasks that have an address space of their own. -/
structure UserSystem where
  mm : State
  tasks : List UserTask

/-- The steps. Segments are loaded at addresses of the user half only. -/
inductive MapOp
  | spaceClone
  | segment (task virt size : ℕ) (user : UserPages (pageDown virt) (segmentPages virt size))
  | stack (task : ℕ)
  | mmap (task : ℕ) (addr len : ℤ) (flags : BitVec 64)
  | munmap (task : ℕ) (addr len : ℤ)

namespace UserSystem

/-- One step. A step of a task that does not exist does nothing. -/
def step (σ : UserSystem) : MapOp → UserSystem
  | .spaceClone =>
    let (cr3, mm) := σ.mm.vmmSpaceClone
    if cr3 = 0 then { σ with mm := mm }
    else { mm := mm, tasks := σ.tasks ++ [{ cr3 := cr3, mmapCur := MMAP_CURSOR_START }] }
  | .segment task virt size _ =>
    match σ.tasks[task]? with
    | none => σ
    | some t => { σ with mm := (σ.mm.tusAlloc t.cr3 virt size).2 }
  | .stack task =>
    match σ.tasks[task]? with
    | none => σ
    | some t => { σ with mm := (σ.mm.mapStack t.cr3).2 }
  | .mmap task addr len flags =>
    match σ.tasks[task]? with
    | none => σ
    | some t =>
      let (_, mmapCur, mm) := σ.mm.sysMmap t.cr3 t.mmapCur addr len flags
      { mm := mm, tasks := σ.tasks.set task { t with mmapCur := mmapCur } }
  | .munmap task addr len =>
    match σ.tasks[task]? with
    | none => σ
    | some t => { σ with mm := (σ.mm.sysMunmap t.cr3 addr len).2 }

/-- A run. -/
def run (σ : UserSystem) (ops : List MapOp) : UserSystem := ops.foldl step σ

/-- The top tables of the tasks' address spaces. -/
def spaces (σ : UserSystem) : List ℕ := σ.tasks.map fun t ↦ frameOf t.cr3

/-- The state after the initialisation of memory management: the allocator does not hold the page
tables of boot loader and kernel, and there is no task yet. -/
structure Booted (σ : UserSystem) : Prop where
  total : σ.mm.pmm.totalFrames ≤ MAX_FRAMES
  tables : ∀ {d t}, TableAt σ.mm.mem σ.mm.base d t → ¬σ.mm.pmm.IsFree t
  tasks : σ.tasks = []

/-- Every task has a space. -/
def HaveSpaces (owner : ℕ → Owner) (tasks : List UserTask) : Prop :=
  ∀ t ∈ tasks, owner (frameOf t.cr3) = .top ∧ t.mmapCur < 2 ^ 64

/-- The frames are owned, and every task has a space. -/
def Invariant (σ : UserSystem) : Prop := ∃ owner, Owned σ.mm owner ∧ HaveSpaces owner σ.tasks

/-- `pmm_init` leaves such a state when the usable regions are disjoint and hold no page tables. -/
theorem booted_pmmInit (memmap : List Pmm.MemmapEntry) (mem : Memory) (root : BitVec 64)
    (hdisjoint : DisjointUsable memmap)
    (htables : ∀ d t, TableAt mem (frameOf root) d t → ¬Usable memmap t) :
    Booted ⟨⟨Pmm.pmmInit memmap, mem, root, root⟩, []⟩ where
  total := Pmm.totalFrames_pmmInit hdisjoint
  tables {d t} ht hfree := htables d t ht (Pmm.isFree_pmmInit hdisjoint hfree)
  tasks := rfl

variable {σ : UserSystem}

open Classical in
theorem Booted.invariant (h : Booted σ) : Invariant σ := by
  let owner : ℕ → Owner := fun f ↦ if ∃ d, TableAt σ.mm.mem σ.mm.base d f then .base else .nobody
  have hcases : ∀ f, owner f = .base ∨ owner f = .nobody := by
    intro f
    simp only [owner]
    split
    · exact .inl rfl
    · exact .inr rfl
  have hlower : ∀ t i d, ¬LowerEntry owner t i d := by
    rintro t i d (⟨htop, _⟩ | ⟨_, u, j, hentry⟩)
    · rcases hcases t with hbase | hnobody <;> simp_all
    · rcases hcases t with hbase | hnobody <;> simp_all
  have hforest : Forest σ.mm.mem σ.mm.base owner :=
    { entries := fun ht ↦ absurd ht (hlower _ _ _)
      base_tables := fun {d t} ht ↦ if_pos ⟨d, ht⟩
      shared := fun {r i} hr _ _ ↦ by rcases hcases r with hbase | hnobody <;> simp_all }
  refine ⟨owner, ⟨hforest, ?_, ?_, h.total⟩, by simp [HaveSpaces, h.tasks]⟩
  · intro f hf
    by_cases htable : ∃ d, TableAt σ.mm.mem σ.mm.base d f
    · exact h.tables htable.choose_spec
    · exact absurd (if_neg htable) hf
  · intro f t i d hf
    rcases hcases f with hbase | hnobody <;> simp_all

/-- Operations on a user half keep every task's space. -/
theorem invariant_of_mapsWithin {mm mm' : State} {tasks : List UserTask} {owner : ℕ → Owner}
    {cr3 : BitVec 64} {pages : ℕ → Prop} (h : MapsWithin mm mm' owner cr3 pages)
    (htasks : HaveSpaces owner tasks) : Invariant ⟨mm', tasks⟩ := by
  obtain ⟨owner', howned, hedits⟩ := h
  exact ⟨owner', howned, fun t ht ↦ (htasks t ht).imp_left hedits.tops⟩

theorem step_invariant (h : Invariant σ) (op : MapOp) : Invariant (σ.step op) := by
  obtain ⟨owner, howned, htasks⟩ := h
  have htask : ∀ {k : ℕ} {t : UserTask}, σ.tasks[k]? = some t →
      owner (frameOf t.cr3) = .top ∧ t.mmapCur < 2 ^ 64 := fun hk ↦
    htasks _ (mem_of_getElem? hk)
  cases op with
  | spaceClone =>
    obtain ⟨owner', howned', _, _, htops, _, hnew⟩ := howned.vmmSpaceClone
    have hold : HaveSpaces owner' σ.tasks := fun t ht ↦ (htasks t ht).imp_left (htops _)
    simp only [step]
    split
    case isTrue => exact ⟨owner', howned', hold⟩
    case isFalse hne =>
      refine ⟨owner', howned', ?_⟩
      intro t ht
      rcases mem_append.mp ht with ht | ht
      · exact hold t ht
      · rw [mem_singleton] at ht
        subst ht
        exact ⟨(hnew hne).1, show MMAP_CURSOR_START < 2 ^ 64 by decide⟩
  | segment task virt size user =>
    simp only [step]
    split
    case h_1 => exact ⟨owner, howned, htasks⟩
    case h_2 t ht =>
      exact invariant_of_mapsWithin (howned.tusAlloc (htask ht).1 user) htasks
  | stack task =>
    simp only [step]
    split
    case h_1 => exact ⟨owner, howned, htasks⟩
    case h_2 t ht => exact invariant_of_mapsWithin (howned.mapStack (htask ht).1) htasks
  | mmap task addr len flags =>
    simp only [step]
    split
    case h_1 => exact ⟨owner, howned, htasks⟩
    case h_2 t ht =>
      obtain ⟨hwithin, hcur⟩ := howned.sysMmap t.mmapCur addr len flags (htask ht).1 (htask ht).2
      apply invariant_of_mapsWithin hwithin
      intro u hu
      rcases mem_or_eq_of_mem_set hu with hu | rfl
      · exact htasks u hu
      · exact ⟨(htask ht).1, hcur⟩
  | munmap task addr len =>
    simp only [step]
    split
    case h_1 => exact ⟨owner, howned, htasks⟩
    case h_2 t ht =>
      exact invariant_of_mapsWithin (howned.sysMunmap addr len (htask ht).1) htasks

theorem run_invariant (h : Booted σ) (ops : List MapOp) : Invariant (σ.run ops) := by
  have hrun : ∀ τ, Invariant τ → Invariant (τ.run ops) := by
    induction ops with
    | nil => exact fun τ hτ ↦ hτ
    | cons op ops ih => exact fun τ hτ ↦ ih _ (step_invariant hτ op)
  exact hrun σ h.invariant

/-- **User memory is owned.** After any run from boot on, no frame is mapped at two pages of user
halves, no frame mapped in a user half is marked free, and no frame that serves as a page table of
any level, in any space or in the boot loader's, is mapped in a user half. -/
theorem user_memory_owned {σ : UserSystem} (hboot : Booted σ) (ops : List MapOp) :
    (∀ r ∈ (σ.run ops).spaces, ∀ r' ∈ (σ.run ops).spaces, ∀ v < 2 ^ 35, ∀ v' < 2 ^ 35, ∀ f,
      frameAt (σ.run ops).mm.mem r v = some f → frameAt (σ.run ops).mm.mem r' v' = some f →
        (r, v) = (r', v')) ∧
    (∀ r ∈ (σ.run ops).spaces, ∀ v < 2 ^ 35, ∀ f, frameAt (σ.run ops).mm.mem r v = some f →
        (σ.run ops).mm.pmm.frameIsFree f = false) ∧
    ∀ r ∈ (σ.run ops).spaces, ∀ v < 2 ^ 35, ∀ f, frameAt (σ.run ops).mm.mem r v = some f →
      ∀ r' ∈ (σ.run ops).mm.base :: (σ.run ops).spaces, ∀ d,
        ¬TableAt (σ.run ops).mm.mem r' d f := by
  obtain ⟨owner, howned, htasks⟩ := run_invariant hboot ops
  have htop : ∀ r ∈ (σ.run ops).spaces, owner r = .top := by
    intro r hr
    obtain ⟨t, ht, rfl⟩ := mem_map.mp hr
    exact (htasks t ht).1
  refine ⟨?_, ?_, ?_⟩
  · intro r hr r' hr' v hv v' hv' f hf hf'
    obtain ⟨rfl, rfl⟩ := howned.forest.frameAt_injective (htop r hr) (htop r' hr') hv hv' hf hf'
    rfl
  · intro r hr v hv f hf
    obtain ⟨u, _, _, _, hentry⟩ := howned.forest.frameAt_eq_some (htop r hr) hv hf
    have hused := howned.used (f := f) (by simp [hentry])
    have hlt := (howned.handed hentry).2
    simpa [Pmm.IsFree, hlt] using hused
  · intro r hr v hv f hf r' hr' d ht
    refine howned.forest.frameAt_ne_table (htop r hr) ?_ hv ht hf rfl
    rcases mem_cons.mp hr' with rfl | hr'
    · exact .inr rfl
    · exact .inl (htop r' hr')

theorem booted_bare (length : BitVec 32) : Booted ⟨.bare length, []⟩ := by
  apply booted_pmmInit _ _ _ (by simp [DisjointUsable, Pmm.lowMemory])
  rintro d t ht ⟨e, he, -, hin⟩
  obtain rfl : t = 1 := by
    induction ht with
    | top => rfl
    | next _ _ hpresent _ _ => simp [present] at hpresent
  rw [Pmm.lowMemory, mem_singleton] at he
  subst he
  simp [Pmm.MemmapEntry.Contains] at hin

/-- A machine with 16 usable frames and no task. -/
def smallBoot : UserSystem := ⟨.bare 0x10000, []⟩

theorem booted_smallBoot : Booted smallBoot := booted_bare _

/-- The first anonymous page of a first task. -/
theorem user_memory_owned_smallBoot :
    frameAt (smallBoot.run [.spaceClone, .mmap 0 0 1 MAP_ANONYMOUS]).mm.mem 2 0x40000 = some 3 ∧
      (smallBoot.run [.spaceClone, .mmap 0 0 1 MAP_ANONYMOUS]).mm.pmm.frameIsFree 3 = false := by
  have hmapped :
      frameAt (smallBoot.run [.spaceClone, .mmap 0 0 1 MAP_ANONYMOUS]).mm.mem 2 0x40000 =
        some 3 := by decide
  have howned := user_memory_owned booted_smallBoot [.spaceClone, .mmap 0 0 1 MAP_ANONYMOUS]
  exact ⟨hmapped, howned.2.1 2 (by decide) 0x40000 (by decide) 3 hmapped⟩

end UserSystem

end ToastyUnix.Mm
