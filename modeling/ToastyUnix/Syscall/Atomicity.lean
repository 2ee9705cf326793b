import ToastyUnix.Sched.Execve
import ToastyUnix.Vfs.Table

/-!
# Descriptor calls that fail

`vfs_open`, `vfs_dup`, `vfs_dup2`, `vfs_pipe` of `kernel/vfs/vfs.c` and the system call `SYS_PIPE`
of `kernel/syscall/syscall.c` create descriptors. This module says which of their errors leave the
descriptor tables, the open files, the pipes, the tree and the sizes of the files as they were
(`failed_calls_change_nothing_iff`).
-/

namespace ToastyUnix.Syscall

open Vfs Errno Option Finmap
open Sched (accessOk)

/-- The two states have the same descriptors, blocks, tree and file sizes. -/
structure SameObjects (s s' : State) : Prop where
  fds : s'.fds = s.fds
  files : ∀ a, a ∈ s'.files ↔ a ∈ s.files
  pipes : ∀ p, p ∈ s'.pipes ↔ p ∈ s.pipes
  tree : SameShape s.nodes s'.nodes
  sizes : ∀ x, (s'.nodes.lookup x).map Node.size = (s.nodes.lookup x).map Node.size

theorem SameObjects.refl (s : State) : SameObjects s s :=
  ⟨rfl, fun _ ↦ .rfl, fun _ ↦ .rfl, fun _ ↦ rfl, fun _ ↦ rfl⟩

/-- `SYS_PIPE`: `vfs_pipe` runs before the pointer is checked. The two descriptors are what is
stored at the pointer. -/
def sysPipe (s : State) (fromUser : Bool) (rdi : ℕ)
    (pipeChoice readChoice writeChoice : Option Addr) : ℤ × Option (ℤ × ℤ) × State :=
  match vfsPipe s pipeChoice readChoice writeChoice with
  | (ret, fds, s) =>
    if ret < 0 then (ret, none, s)
    else if !accessOk fromUser rdi 8 then (-EFAULT, none, s)
    else (0, fds, s)

/-- `vfs_create_file` creates a node. -/
def Creates (s : State) (path : List UInt8) (choice : Option Addr) : Prop :=
  ∃ dirPath name parent, pathSplit path 256 vfsNameMax = some (dirPath, name) ∧
    vfsLookup s dirPath = some parent ∧ isDir s.nodes parent = true ∧
    dirFind s.nodes parent name = none ∧ kmalloc s.nodes choice ≠ none

/-- `vfs_open` has no effect before it fails: no node is created, no file with contents truncated,
no description allocated. -/
def OpenLeavesNothing (s : State) (path : Option (List UInt8)) (flags : BitVec 32)
    (nodeChoice fileChoice : Option Addr) : Prop :=
  ∀ p, path = some p →
    match vfsLookup s p with
    | none => flags &&& O_CREAT = 0 ∨ ¬Creates s p nodeChoice
    | some x => ∀ n, s.nodes.lookup x = some n →
      (n.type = .dir ∧ flags &&& (O_WRONLY ||| O_RDWR) ≠ 0) ∨
      (kmalloc s.files fileChoice = none ∧ (n.type = .file → flags &&& O_TRUNC ≠ 0 → n.size = 0))

/-- Two slots from 3 on are free. -/
def TwoFree (s : State) (task : TaskId) : Prop :=
  ∃ i j : Slot, i ≠ j ∧ 3 ≤ i.val ∧ 3 ≤ j.val ∧ s.fds (task, i) = none ∧ s.fds (task, j) = none

variable {s : State} {task : TaskId} {x : Addr} {n : Node} {p : List UInt8} {flags : BitVec 32}
  {nodeChoice fileChoice pipeChoice readChoice writeChoice : Option Addr} {oldfd : ℤ}

/-- There is memory for a pipe and its two ends, and there are two free slots. -/
def FitsPipe (s : State) (pipeChoice readChoice writeChoice : Option Addr) : Prop :=
  ∃ task r w, s.current = some task ∧ kmalloc s.pipes pipeChoice ≠ none ∧
    kmalloc s.files readChoice = some r ∧ kmalloc s.files writeChoice = some w ∧ r ≠ w ∧
    TwoFree s task

theorem freeSlot_eq_none {first : ℕ} :
    freeSlot s task first = none ↔ ∀ i : Slot, first ≤ i.val → s.fds (task, i) ≠ none := by
  simp [freeSlot]

/-- `vfs_create_file` creates a node or does nothing. -/
theorem vfsCreateFile_cases (s : State) (path : List UInt8) (choice : Option Addr) :
    (¬Creates s path choice ∧ vfsCreateFile s path choice = (none, s)) ∨
    (Creates s path choice ∧ ∃ a nodes n,
      vfsCreateFile s path choice = (some a, { s with nodes := nodes }) ∧
      s.nodes.lookup a = none ∧ nodes.lookup a = some n ∧ n.type = .file) := by
  unfold vfsCreateFile vfsCreate
  cases hsplit : pathSplit path 256 vfsNameMax with
  | none =>
    refine .inl ⟨?_, rfl⟩
    rintro ⟨dirPath, name, parent, hparts, -⟩
    simp [hsplit] at hparts
  | some parts =>
    obtain ⟨dirPath, name⟩ := parts
    have hcreates : Creates s path choice ↔ ∃ parent, vfsLookup s dirPath = some parent ∧
        isDir s.nodes parent = true ∧ dirFind s.nodes parent name = none ∧
        kmalloc s.nodes choice ≠ none := by
      constructor
      · rintro ⟨dirPath', name', parent, hparts, h⟩
        obtain ⟨rfl, rfl⟩ := Prod.mk.inj (some.inj (hsplit.symm.trans hparts))
        exact ⟨parent, h⟩
      · rintro ⟨parent, h⟩
        exact ⟨dirPath, name, parent, hsplit, h⟩
    rw [hcreates]
    dsimp only
    cases hparent : vfsLookup s dirPath with
    | none => exact .inl ⟨by simp, rfl⟩
    | some parent =>
      simp only [some.injEq, exists_eq_left']
      by_cases hdir : isDir s.nodes parent = true ∧ dirFind s.nodes parent name = none
      · rw [if_neg (by simp [hdir])]
        cases halloc : kmalloc s.nodes choice with
        | none => exact .inl ⟨by simp, rfl⟩
        | some a =>
          have hfresh := lookup_of_kmalloc halloc
          obtain ⟨d, hd, -⟩ : ∃ d, s.nodes.lookup parent = some d ∧ d.type = .dir := by
            simpa [isDir, any_eq_true] using hdir.1
          have hne : a ≠ parent := by
            rintro rfl
            rw [hd] at hfresh
            cases hfresh
          have hnew : (dirAttach s.nodes parent a (freshNode name .file 0o644 none)).lookup a =
              some { freshNode name .file 0o644 none with
                parent := some parent
                sibling := d.child } := by
            simp only [dirAttach, hd]
            rw [lookup_insert_of_ne _ hne, lookup_insert]
          exact .inr ⟨⟨hdir.1, hdir.2, by simp⟩, a, _, _, rfl, hfresh, hnew, rfl⟩
      · rw [if_pos (by
          rw [Bool.or_eq_true, Bool.not_eq_true', isSome_iff_ne_none]
          by_contra hnot
          rw [not_or, Bool.not_eq_false, not_not] at hnot
          exact hdir hnot)]
        exact .inl ⟨fun h ↦ hdir ⟨h.1, h.2.1⟩, rfl⟩

theorem size_truncateOnOpen (n : Node) (flags : BitVec 32) :
    (truncateOnOpen n flags).size = n.size ↔
      (n.type = .file → flags &&& O_TRUNC ≠ 0 → n.size = 0) := by
  unfold truncateOnOpen
  split
  case isTrue h =>
    simp only [h.1, h.2, ne_eq, not_false_eq_true, true_imp_iff]
    exact eq_comm
  case isFalse h =>
    simp only [true_iff]
    exact fun htype htrunc ↦ absurd ⟨htype, htrunc⟩ h

theorem shape_truncateOnOpen (n : Node) (flags : BitVec 32) :
    (truncateOnOpen n flags).shape = n.shape := by
  unfold truncateOnOpen
  split <;> rfl

/-- Storing a node that differs at most in its size. -/
theorem sameObjects_insert {n' : Node} (hn : s.nodes.lookup x = some n)
    (hshape : n'.shape = n.shape) :
    SameObjects s { s with nodes := s.nodes.insert x n' } ↔ n'.size = n.size := by
  constructor
  · intro h
    simpa [hn] using h.sizes x
  · intro hsize
    refine ⟨rfl, fun _ ↦ .rfl, fun _ ↦ .rfl, sameShape_insert hn hshape, fun y ↦ ?_⟩
    exact lookup_insert_map hn hsize y

/-- An error of `vfs_open` for a node that exists. -/
theorem vfsOpen_found (hx : vfsLookup s p = some x) (hn : s.nodes.lookup x = some n)
    (hfail : (vfsOpen s (some p) flags nodeChoice fileChoice).1 < 0) :
    SameObjects s (vfsOpen s (some p) flags nodeChoice fileChoice).2 ↔
      (n.type = .dir ∧ flags &&& (O_WRONLY ||| O_RDWR) ≠ 0) ∨
      (kmalloc s.files fileChoice = none ∧
        (n.type = .file → flags &&& O_TRUNC ≠ 0 → n.size = 0)) := by
  revert hfail
  simp only [vfsOpen, openNode, hx, hn]
  by_cases hdir : n.type = .dir ∧ flags &&& (O_WRONLY ||| O_RDWR) ≠ 0
  · rw [if_pos hdir]
    exact fun _ ↦ iff_of_true (.refl s) (.inl hdir)
  rw [if_neg hdir]
  cases hfile : kmalloc s.files fileChoice with
  | none =>
    intro _
    rw [sameObjects_insert hn (shape_truncateOnOpen n flags), size_truncateOnOpen,
      or_iff_right hdir]
    exact (and_iff_right rfl).symm
  | some f =>
    intro hfail
    dsimp only at hfail ⊢
    rcases fdAlloc_cases _ f with ⟨-, hsame⟩ | ⟨task, i, -, -, halloc⟩
    · rw [hsame]
      refine iff_of_false (fun h ↦ ?_) (by rw [or_iff_right hdir]; simp)
      have hmem : f ∈ s.files := (h.files f).mp (mem_insert.mpr (.inl rfl))
      have hsome := lookup_isSome.mpr hmem
      rw [lookup_of_kmalloc hfile] at hsome
      cases hsome
    · rw [halloc] at hfail
      exact absurd hfail (by simp)

/-- An error of `vfs_open` for a path that names nothing. -/
theorem vfsOpen_missing (hx : vfsLookup s p = none)
    (hfail : (vfsOpen s (some p) flags nodeChoice fileChoice).1 < 0) :
    SameObjects s (vfsOpen s (some p) flags nodeChoice fileChoice).2 ↔
      flags &&& O_CREAT = 0 ∨ ¬Creates s p nodeChoice := by
  revert hfail
  simp only [vfsOpen, openNode, hx]
  by_cases hcreat : flags &&& O_CREAT ≠ 0
  · rw [if_pos hcreat, or_iff_right hcreat]
    rcases vfsCreateFile_cases s p nodeChoice with
      ⟨hnot, hcreate⟩ | ⟨hcreates, a, nodes, n, hcreate, hfresh, hn, htype⟩
    · rw [hcreate]
      exact fun _ ↦ iff_of_true (.refl s) hnot
    · have hchanged {s' : State} (h : a ∈ s'.nodes) : ¬SameObjects s s' := fun hsame ↦ by
        have hsome := lookup_isSome.mpr ((hsame.tree.mem_iff).mp h)
        rw [hfresh] at hsome
        cases hsome
      have hmem (n' : Node) : a ∈ nodes.insert a n' := mem_insert.mpr (.inl rfl)
      have hdir : ¬(n.type = .dir ∧ flags &&& (O_WRONLY ||| O_RDWR) ≠ 0) := by simp [htype]
      simp only [hcreate, hn, if_neg hdir]
      split
      · exact fun _ ↦ iff_of_false (hchanged (hmem _)) (not_not_intro hcreates)
      case h_2 f _ =>
        rcases fdAlloc_cases _ f with ⟨-, hsame⟩ | ⟨task, i, -, -, halloc⟩
        · rw [hsame]
          exact fun _ ↦ iff_of_false (hchanged (hmem _)) (not_not_intro hcreates)
        · rw [halloc]
          exact fun hfail ↦ absurd hfail (by simp)
  · rw [if_neg hcreat]
    exact fun _ ↦ iff_of_true (.refl s) (.inl (not_not.mp hcreat))

theorem vfsOpen_atomic_iff {path : Option (List UInt8)}
    (hfail : (vfsOpen s path flags nodeChoice fileChoice).1 < 0) :
    SameObjects s (vfsOpen s path flags nodeChoice fileChoice).2 ↔
      OpenLeavesNothing s path flags nodeChoice fileChoice := by
  cases path with
  | none => exact iff_of_true (.refl s) (fun p hp ↦ by cases hp)
  | some p =>
    simp only [OpenLeavesNothing, some.injEq, forall_eq']
    cases hx : vfsLookup s p with
    | none => exact vfsOpen_missing hx hfail
    | some x =>
      dsimp only
      cases hn : s.nodes.lookup x with
      | none =>
        refine iff_of_true ?_ (by simp)
        simpa only [vfsOpen, openNode, hx, hn] using SameObjects.refl s
      | some n => simpa only [some.injEq, forall_eq'] using vfsOpen_found hx hn hfail

theorem vfsDup_of_neg (hfail : (vfsDup s oldfd).1 < 0) : (vfsDup s oldfd).2 = s := by
  unfold vfsDup at hfail ⊢
  split at hfail
  · split at hfail
    · rfl
    · split at hfail
      · rfl
      · exact absurd hfail (by simp)
  · rfl

theorem vfsDup2_of_neg {newfd : ℤ} (hfail : (vfsDup2 s oldfd newfd).1 < 0) :
    (vfsDup2 s oldfd newfd).2 = s := by
  unfold vfsDup2 at hfail ⊢
  split at hfail
  · split at hfail
    · rfl
    · split at hfail
      · rfl
      case h_2 new hnew =>
        have hpos := slotOf_eq_some hnew
        have hneg : newfd < 0 := by
          split at hfail
          · exact hfail
          · exact hfail
        omega
  · rfl

theorem fdAlloc_eq (hcurrent : s.current = some task) (f : Addr) :
    fdAlloc s f = match freeSlot s task 3 with
      | none => (-ENOMEM, s)
      | some i => ((i.val : ℤ), s.setFd (task, i) (some f)) := by
  cases hslot : freeSlot s task 3 with
  | none => simp only [fdAlloc, hcurrent, hslot]
  | some i => simp only [fdAlloc, hcurrent, hslot]

/-- The second half of `vfs_pipe` succeeds exactly if two slots are free. -/
theorem installPipe_ret (hcurrent : s.current = some task) (p r w : Addr) :
    (¬TwoFree s task ∧ (installPipe s task p r w).1 < 0 ∧ (installPipe s task p r w).2.1 = none) ∨
    (TwoFree s task ∧ (installPipe s task p r w).1 = 0 ∧
      (installPipe s task p r w).2.2.fds ≠ s.fds) := by
  unfold installPipe
  rw [fdAlloc_eq hcurrent]
  cases hi : freeSlot s task 3 with
  | none =>
    refine .inl ⟨?_, by simp [ENOMEM], by simp [ENOMEM]⟩
    rintro ⟨i, -, -, hle, -, hfree, -⟩
    exact freeSlot_eq_none.mp hi i hle hfree
  | some i =>
    obtain ⟨hile, hifree⟩ := freeSlot_eq_some hi
    have hcurrent' : (s.setFd (task, i) (some r)).current = some task := hcurrent
    dsimp only
    rw [fdAlloc_eq hcurrent']
    cases hj : freeSlot (s.setFd (task, i) (some r)) task 3 with
    | none =>
      refine .inl ⟨?_, by simp [ENOMEM], by simp [ENOMEM]⟩
      rintro ⟨k, l, hkl, hk, hl, hkfree, hlfree⟩
      have honly (m : Slot) (hm : 3 ≤ m.val) (hfree : s.fds (task, m) = none) : m = i := by
        by_contra hne
        exact freeSlot_eq_none.mp hj m hm (by simpa [State.setFd, hne] using hfree)
      exact hkl ((honly k hk hkfree).trans (honly l hl hlfree).symm)
    | some j =>
      obtain ⟨hjle, hjfree⟩ := freeSlot_eq_some hj
      have hne : j ≠ i := by
        rintro rfl
        simp [State.setFd] at hjfree
      have hjfree' : s.fds (task, j) = none := by simpa [State.setFd, hne] using hjfree
      refine .inr ⟨⟨i, j, hne.symm, hile, hjle, hifree, hjfree'⟩, ?_⟩
      have hpos : ¬((i.val : ℤ) < 0 ∨ (j.val : ℤ) < 0) := by omega
      simp only [if_neg hpos, true_and]
      intro hsame
      have hslot := congrFun hsame (task, j)
      simp [State.setFd, hjfree'] at hslot

theorem kmalloc_insert {heap : Heap File} {r w : Addr} {f : File} {choice : Option Addr} :
    kmalloc (heap.insert r f) choice = some w ↔ kmalloc heap choice = some w ∧ r ≠ w := by
  simp only [kmalloc, filter_eq_some_iff, isNone_iff_eq_none]
  by_cases hw : w = r
  · subst hw
    simp
  · simp [hw, Ne.symm hw]

/-- Without descriptors to return, `vfs_pipe` has had no effect. -/
theorem vfsPipe_of_none (hcurrent : s.current = some task)
    (hnone : (vfsPipe s pipeChoice readChoice writeChoice).2.1 = none) :
    (vfsPipe s pipeChoice readChoice writeChoice).2.2 = s := by
  rcases vfsPipe_cases s pipeChoice readChoice writeChoice with
    hsame | ⟨p, r, w, task', i, j, -, -, -, hj, -, -, -, -, hpipe⟩
  · exact hsame
  · rcases vfsPipe_result hcurrent pipeChoice readChoice writeChoice with
      ⟨-, hfds⟩ | ⟨i', j', f, g, -, -, -, -, -, hsome, -⟩
    · have hslot := congrFun hfds (task', j)
      rw [hpipe, hj] at hslot
      simp [State.setFd] at hslot
    · rw [hnone] at hsome
      cases hsome

/-- `vfs_pipe` fails exactly if there is no room, and then it has no effect. -/
theorem vfsPipe_ret (s : State) (pipeChoice readChoice writeChoice : Option Addr) :
    (¬FitsPipe s pipeChoice readChoice writeChoice ∧
      (vfsPipe s pipeChoice readChoice writeChoice).1 < 0 ∧
      (vfsPipe s pipeChoice readChoice writeChoice).2.2 = s) ∨
    (FitsPipe s pipeChoice readChoice writeChoice ∧
      (vfsPipe s pipeChoice readChoice writeChoice).1 = 0 ∧
      (vfsPipe s pipeChoice readChoice writeChoice).2.2.fds ≠ s.fds) := by
  have hfailed {e : ℤ} (he : e < 0)
      (hresult : vfsPipe s pipeChoice readChoice writeChoice = (e, none, s)) :
      (vfsPipe s pipeChoice readChoice writeChoice).1 < 0 ∧
        (vfsPipe s pipeChoice readChoice writeChoice).2.2 = s := by
    rw [hresult]
    exact ⟨he, rfl⟩
  cases hcurrent : s.current with
  | none =>
    refine .inl ⟨?_, hfailed (e := -EBADF) (by decide) (by simp [vfsPipe, hcurrent])⟩
    rintro ⟨task, -, -, htask, -⟩
    rw [hcurrent] at htask
    cases htask
  | some task =>
    cases hp : kmalloc s.pipes pipeChoice with
    | none =>
      refine .inl ⟨?_, hfailed (e := -ENOMEM) (by decide) (by simp [vfsPipe, hcurrent, hp])⟩
      rintro ⟨-, -, -, -, hpipe, -⟩
      exact hpipe hp
    | some p =>
      cases hr : kmalloc s.files readChoice with
      | none =>
        refine .inl ⟨?_, hfailed (e := -ENOMEM) (by decide) (by simp [vfsPipe, hcurrent, hp, hr])⟩
        rintro ⟨-, r, -, -, -, hread, -⟩
        rw [hr] at hread
        cases hread
      | some r =>
        cases hw : kmalloc (s.files.insert r (pipeFile p O_RDONLY)) writeChoice with
        | none =>
          refine .inl ⟨?_,
            hfailed (e := -ENOMEM) (by decide) (by simp [vfsPipe, hcurrent, hp, hr, hw])⟩
          rintro ⟨-, r', w, -, -, hread, hwrite, hne, -⟩
          obtain rfl : r = r' := some.inj (hr.symm.trans hread)
          rw [kmalloc_insert.mpr ⟨hwrite, hne⟩] at hw
          cases hw
        | some w =>
          obtain ⟨hwrite, hne⟩ := kmalloc_insert.mp hw
          have hfits : FitsPipe s pipeChoice readChoice writeChoice ↔ TwoFree s task := by
            refine ⟨?_, fun htwo ↦ ⟨task, r, w, hcurrent, by simp [hp], hr, hwrite, hne, htwo⟩⟩
            rintro ⟨task', -, -, htask, -, -, -, -, htwo⟩
            rwa [some.inj (hcurrent.symm.trans htask)]
          rw [hfits]
          let s₁ : State :=
            { s with
              pipes := s.pipes.insert p Pipe.fresh
              files := (s.files.insert r (pipeFile p O_RDONLY)).insert w (pipeFile p O_WRONLY) }
          have hinstall : vfsPipe s pipeChoice readChoice writeChoice =
              installPipe s₁ task p r w := by
            simp [vfsPipe, hcurrent, hp, hr, hw, s₁]
          rcases installPipe_ret (s := s₁) hcurrent p r w with ⟨hfull, hneg, hnone⟩ | hdone
          · rw [← hinstall] at hneg hnone
            exact .inl ⟨hfull, hneg, vfsPipe_of_none hcurrent hnone⟩
          · rw [← hinstall] at hdone
            exact .inr hdone

theorem sysPipe_atomic_iff {fromUser : Bool} {rdi : ℕ}
    (hfail : (sysPipe s fromUser rdi pipeChoice readChoice writeChoice).1 < 0) :
    SameObjects s (sysPipe s fromUser rdi pipeChoice readChoice writeChoice).2.2 ↔
      accessOk fromUser rdi 8 = true ∨ ¬FitsPipe s pipeChoice readChoice writeChoice := by
  unfold sysPipe at hfail ⊢
  rcases vfsPipe_ret s pipeChoice readChoice writeChoice with
    ⟨hfull, hneg, hsame⟩ | ⟨hfits, hzero, hfds⟩
  · simp only [if_pos hneg, hsame]
    exact iff_of_true (.refl s) (.inr hfull)
  · have hret : ¬(vfsPipe s pipeChoice readChoice writeChoice).1 < 0 := by omega
    simp only [if_neg hret] at hfail ⊢
    cases haccess : accessOk fromUser rdi 8 with
    | true => simp [haccess] at hfail
    | false =>
      simp only [Bool.not_false, if_true]
      exact iff_of_false (fun h ↦ hfds h.fds) (by simpa using hfits)

/-- When one of the calls returns a negative value, the descriptors, the open files, the pipes, the
tree and the file sizes are as before: always for `vfs_dup`, `vfs_dup2` and `vfs_pipe`, and for
`vfs_open` and `SYS_PIPE` exactly under the conditions. -/
theorem failed_calls_change_nothing_iff (s : State) :
    (∀ oldfd, (vfsDup s oldfd).1 < 0 → SameObjects s (vfsDup s oldfd).2) ∧
    (∀ oldfd newfd, (vfsDup2 s oldfd newfd).1 < 0 → SameObjects s (vfsDup2 s oldfd newfd).2) ∧
    (∀ pipeChoice readChoice writeChoice, (vfsPipe s pipeChoice readChoice writeChoice).1 < 0 →
      SameObjects s (vfsPipe s pipeChoice readChoice writeChoice).2.2) ∧
    (∀ path flags nodeChoice fileChoice, (vfsOpen s path flags nodeChoice fileChoice).1 < 0 →
      (SameObjects s (vfsOpen s path flags nodeChoice fileChoice).2 ↔
        OpenLeavesNothing s path flags nodeChoice fileChoice)) ∧
    ∀ fromUser rdi pipeChoice readChoice writeChoice,
      (sysPipe s fromUser rdi pipeChoice readChoice writeChoice).1 < 0 →
      (SameObjects s (sysPipe s fromUser rdi pipeChoice readChoice writeChoice).2.2 ↔
        accessOk fromUser rdi 8 = true ∨ ¬FitsPipe s pipeChoice readChoice writeChoice) := by
  refine ⟨fun oldfd hfail ↦ ?_, fun oldfd newfd hfail ↦ ?_, fun pipeChoice readChoice writeChoice
    hfail ↦ ?_, fun _ _ _ _ hfail ↦ vfsOpen_atomic_iff hfail, fun _ _ _ _ _ hfail ↦
    sysPipe_atomic_iff hfail⟩
  · rw [vfsDup_of_neg hfail]
    exact .refl s
  · rw [vfsDup2_of_neg hfail]
    exact .refl s
  · obtain ⟨-, -, hsame⟩ | ⟨-, hzero, -⟩ := vfsPipe_ret s pipeChoice readChoice writeChoice
    · rw [hsame]
      exact .refl s
    · omega

/-- The root directory only; task 0 has it open in the slots below `n`. -/
def fullUpTo (n : ℕ) : State :=
  ⟨0, singleton 0 rootNode, singleton 9 ⟨some 0, none, 0, O_RDONLY, n⟩, ∅,
    fun k ↦ if k.1 = 0 ∧ k.2.val < n then some 9 else none, some 0⟩

theorem failed_calls_change_nothing_iff_full :
    SameObjects (fullUpTo 16) (vfsPipe (fullUpTo 16) (some 3) (some 4) (some 5)).2.2 ∧
    SameObjects (fullUpTo 16) (vfsOpen (fullUpTo 16) (some [97]) O_RDONLY none (some 2)).2 := by
  have hcalls := failed_calls_change_nothing_iff (fullUpTo 16)
  have hopen : OpenLeavesNothing (fullUpTo 16) (some [97]) O_RDONLY none (some 2) := by
    rintro p ⟨⟩
    exact .inl (by decide)
  exact ⟨hcalls.2.2.1 _ _ _ (by decide +kernel),
    (hcalls.2.2.2.1 _ _ _ _ (by decide +kernel)).mpr hopen⟩

/-- With a full table, `open("a", O_CREAT)` returns `-ENOMEM` and leaves the new file and a
description behind. `pipe` with a bad pointer returns `-EFAULT` and leaves two descriptors. -/
theorem failed_calls_leave_objects :
    (vfsOpen (fullUpTo 16) (some [97]) O_CREAT (some 1) (some 2)).1 = -ENOMEM ∧
    1 ∈ (vfsOpen (fullUpTo 16) (some [97]) O_CREAT (some 1) (some 2)).2.nodes ∧
    1 ∉ (fullUpTo 16).nodes ∧
    2 ∈ (vfsOpen (fullUpTo 16) (some [97]) O_CREAT (some 1) (some 2)).2.files ∧
    (sysPipe (fullUpTo 3) true (2 ^ 63) (some 3) (some 4) (some 5)).1 = -EFAULT ∧
    (sysPipe (fullUpTo 3) true (2 ^ 63) (some 3) (some 4) (some 5)).2.2.fds (0, 3) = some 4 ∧
    (sysPipe (fullUpTo 3) true (2 ^ 63) (some 3) (some 4) (some 5)).2.2.fds (0, 4) = some 5 ∧
    (fullUpTo 3).fds (0, 3) = none := by
  decide +kernel

end ToastyUnix.Syscall
