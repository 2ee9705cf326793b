import ToastyUnix.Vfs.System

/-!
# The calls as updates of a descriptor table

What `vfs_open`, `vfs_close`, `vfs_dup`, `vfs_dup2` and `vfs_pipe` do to the descriptor table of the
current task, and what `vfs_fd_inherit` does to the table of a new one.
-/

namespace ToastyUnix.Vfs

open Errno Function List

variable {s : State} {task : TaskId}

section

variable (hcurrent : s.current = some task)
include hcurrent

theorem vfsClose_fds (i : Slot) :
    (vfsClose s i.val).2.fds = update s.fds (task, i) none := by
  simp only [vfsClose, hcurrent, slotOf_val]
  split
  case h_1 hnone => rw [← hnone, update_eq_self]
  case h_2 f _ => simp [State.setFd]

variable {i k : Slot} {f : Addr} {fd : ℤ} {dst src : TaskId}

theorem vfsDup2_fds (hi : s.fds (task, i) = some f) (hne : i ≠ k) :
    (vfsDup2 s i.val k.val).2.fds = update s.fds (task, k) (some f) := by
  have hval : ¬((i.val : ℤ) = k.val) := fun heq ↦ hne (Fin.ext (by exact_mod_cast heq))
  simp only [vfsDup2, hcurrent, slotOf_val, hi, if_neg hval, fileRef_fds]
  split <;> simp [State.setFd]

theorem vfsDup_fds (hi : s.fds (task, i) = some f) (hfree : s.fds (task, k) = none) :
    ∃ j : Slot, s.fds (task, j) = none ∧ (vfsDup s i.val).1 = j.val ∧
      (vfsDup s i.val).2.fds = update s.fds (task, j) (some f) := by
  simp only [vfsDup, hcurrent, slotOf_val, hi]
  split
  case h_1 hnone =>
    have hfull := find?_eq_none.mp hnone k (mem_finRange k)
    simp [hfree] at hfull
  case h_2 j hslot => exact ⟨j, (freeSlot_eq_some hslot).2, rfl, by simp [State.setFd]⟩

theorem fdAlloc_result (f : Addr) :
    ((fdAlloc s f).1 < 0 ∧ (fdAlloc s f).2 = s) ∨
    ∃ i : Slot, freeSlot s task 3 = some i ∧
      fdAlloc s f = ((i.val : ℤ), s.setFd (task, i) (some f)) := by
  simp only [fdAlloc, hcurrent]
  split
  case h_1 => exact .inl ⟨show -ENOMEM < 0 by decide, rfl⟩
  case h_2 i hslot => exact .inr ⟨i, hslot, rfl⟩

theorem vfsOpen_result (path : Option (List UInt8)) (flags : BitVec 32)
    (nodeChoice fileChoice : Option Addr) :
    let r := vfsOpen s path flags nodeChoice fileChoice
    (r.1 < 0 ∧ r.2.fds = s.fds) ∨
    ∃ (i : Slot) (f : Addr), freeSlot s task 3 = some i ∧ r.1 = i.val ∧
      r.2.fds = update s.fds (task, i) (some f) := by
  unfold vfsOpen
  cases path with
  | none => exact .inl ⟨show -EINVAL < 0 by decide, rfl⟩
  | some p =>
    dsimp only
    obtain ⟨node, s', hnode⟩ : ∃ node s', openNode s p flags nodeChoice = (node, s') := ⟨_, _, rfl⟩
    obtain ⟨nodes, rfl⟩ := openNode_nodes hnode
    rw [hnode]
    cases node with
    | none => exact .inl ⟨show -ENOENT < 0 by decide, rfl⟩
    | some x =>
      dsimp only
      cases nodes.lookup x with
      | none => exact .inl ⟨show -ENOENT < 0 by decide, rfl⟩
      | some n =>
        dsimp only
        split_ifs
        · exact .inl ⟨show -EISDIR < 0 by decide, rfl⟩
        · cases kmalloc s.files fileChoice with
          | none => exact .inl ⟨show -ENOMEM < 0 by decide, rfl⟩
          | some f =>
            rcases fdAlloc_result (s :=
                { s with
                  nodes := nodes.insert x (truncateOnOpen n flags)
                  files := s.files.insert f (openFile x (truncateOnOpen n flags) flags) })
              hcurrent f with ⟨hneg, hsame⟩ | ⟨i, hslot, halloc⟩
            · exact .inl ⟨hneg, (congrArg State.fds hsame :)⟩
            · exact .inr ⟨i, f, hslot, congrArg Prod.fst halloc, congrArg (fun r ↦ r.2.fds) halloc⟩

theorem installPipe_result (p r w : Addr) :
    let x := installPipe s task p r w
    (x.2.1 = none ∧ x.2.2.fds = s.fds) ∨
    ∃ i j : Slot, i ≠ j ∧ 3 ≤ i.val ∧ 3 ≤ j.val ∧ s.fds (task, i) = none ∧
      s.fds (task, j) = none ∧ x.2.1 = some ((i.val : ℤ), (j.val : ℤ)) ∧
      x.2.2.fds =
        update (update s.fds (task, i) (some r)) (task, j) (some w) := by
  unfold installPipe
  rcases fdAlloc_result hcurrent r with ⟨hneg, hsame⟩ | ⟨i, hislot, halloc⟩
  · refine .inl ?_
    simp only [hneg, hsame, true_or, if_true, clearFd_of_neg hneg, true_and]
    rcases fdAlloc_result hcurrent w with ⟨hneg', hsame'⟩ | ⟨j, hjslot, halloc'⟩
    · rw [hsame', clearFd_of_neg hneg']
    · rw [halloc', clearFd_setFd (freeSlot_eq_some hjslot).2]
  · obtain ⟨hi, hifree⟩ := freeSlot_eq_some hislot
    rw [halloc]
    dsimp only
    have hcurrent' : (s.setFd (task, i) (some r)).current = some task := hcurrent
    rcases fdAlloc_result hcurrent' w with ⟨hneg', hsame'⟩ | ⟨j, hjslot, halloc'⟩
    · refine .inl ?_
      simp only [hneg', hsame', or_true, if_true, clearFd_setFd hifree, clearFd_of_neg hneg',
        true_and]
    · obtain ⟨hj, hjfree⟩ := freeSlot_eq_some hjslot
      have hij : i ≠ j := by
        rintro rfl
        simp [State.setFd] at hjfree
      have hjfree' : s.fds (task, j) = none := by
        simpa [State.setFd, hij.symm] using hjfree
      have hpos : ¬((i.val : ℤ) < 0 ∨ (j.val : ℤ) < 0) := by omega
      rw [halloc']
      dsimp only
      rw [if_neg hpos]
      exact .inr ⟨i, j, hij, hi, hj, hifree, hjfree', rfl, rfl⟩

theorem vfsPipe_result (pipeChoice readChoice writeChoice : Option Addr) :
    let x := vfsPipe s pipeChoice readChoice writeChoice
    (x.2.1 = none ∧ x.2.2.fds = s.fds) ∨
    ∃ (i j : Slot) (f g : Addr), i ≠ j ∧ 3 ≤ i.val ∧ 3 ≤ j.val ∧ s.fds (task, i) = none ∧
      s.fds (task, j) = none ∧ x.2.1 = some ((i.val : ℤ), (j.val : ℤ)) ∧
      x.2.2.fds =
        update (update s.fds (task, i) (some f)) (task, j) (some g) := by
  unfold vfsPipe
  split
  case h_1 hnone => simp [hnone] at hcurrent
  case h_2 task' htask =>
    obtain rfl : task = task' := Option.some.inj (hcurrent.symm.trans htask)
    cases kmalloc s.pipes pipeChoice with
    | none => exact .inl ⟨rfl, rfl⟩
    | some p =>
      dsimp only
      cases kmalloc s.files readChoice with
      | none => exact .inl ⟨rfl, rfl⟩
      | some r =>
        dsimp only
        cases kmalloc (s.files.insert r (pipeFile p O_RDONLY)) writeChoice with
        | none => exact .inl ⟨rfl, rfl⟩
        | some w =>
          rcases installPipe_result (s :=
              { s with
                pipes := s.pipes.insert p Pipe.fresh
                files := (s.files.insert r (pipeFile p O_RDONLY)).insert w (pipeFile p O_WRONLY) })
            hcurrent p r w with hnone | ⟨i, j, hdone⟩
          · exact .inl hnone
          · exact .inr ⟨i, j, r, w, hdone⟩

theorem vfsDup2_fds_cases (fd : ℤ) (k : Slot) :
    (vfsDup2 s fd k.val).2.fds = s.fds ∨
      ∃ f, (vfsDup2 s fd k.val).2.fds = update s.fds (task, k) f := by
  simp only [vfsDup2, hcurrent, slotOf_val]
  cases slotOf fd with
  | none => exact .inl rfl
  | some i =>
    dsimp only
    cases s.fds (task, i) with
    | none => exact .inl rfl
    | some f =>
      dsimp only
      split_ifs
      · exact .inl rfl
      · refine .inr ⟨some f, ?_⟩
        rw [fileRef_fds]
        split <;> simp [State.setFd]

end

theorem slotOf_eq_some (h : slotOf fd = some i) : fd = i.val := by
  unfold slotOf at h
  split at h
  case isTrue hfd =>
    rw [← Option.some.inj h]
    exact (Int.toNat_of_nonneg hfd.1).symm
  case isFalse => cases h

theorem vfsClose_fds_of_neg (hfd : fd < 0) : (vfsClose s fd).2 = s := by
  have hslot : slotOf fd = none := by
    rw [slotOf, dif_neg (by omega)]
  unfold vfsClose
  rw [hslot]
  split <;> simp_all

theorem inheritSlot_fds_eq (hne : src ≠ dst) (s : State) (i : Slot) :
    (inheritSlot dst src s i).fds (dst, i) = s.fds (src, i) := by
  have hkey : (src, i) ≠ (dst, i) := fun heq ↦ hne (congrArg Prod.fst heq)
  have hsrc : (s.setFd (dst, i) none).fds (src, i) = s.fds (src, i) := by
    simp [State.setFd, hkey]
  unfold inheritSlot
  dsimp only
  rw [hsrc]
  split
  case h_1 hnone => simp [State.setFd, hnone]
  case h_2 f hsome => simp [State.setFd, hsome]

theorem vfsFdInherit_fds (s : State) (hne : src ≠ dst) (i : Slot) :
    (vfsFdInherit s dst src).fds (dst, i) = s.fds (src, i) := by
  -- a slot has its value from its own round on, and the rounds of other slots keep it
  have hloop : ∀ (slots : List Slot) (s : State), slots.Nodup →
      (slots.foldl (inheritSlot dst src) s).fds (dst, i) =
        if i ∈ slots then s.fds (src, i) else s.fds (dst, i) := by
    intro slots
    induction slots with
    | nil => simp
    | cons j slots ih =>
      intro s hnodup
      obtain ⟨hj, hnodup⟩ := nodup_cons.mp hnodup
      have hkeep : (inheritSlot dst src s j).fds (src, i) = s.fds (src, i) :=
        inheritSlot_fds src s j fun heq ↦ hne (congrArg Prod.fst heq)
      rw [foldl_cons, ih _ hnodup, hkeep]
      by_cases hij : i = j
      · subst hij
        rw [if_neg hj, if_pos mem_cons_self, inheritSlot_fds_eq hne]
      · have hother : (inheritSlot dst src s j).fds (dst, i) = s.fds (dst, i) :=
          inheritSlot_fds src s j fun heq ↦ hij (congrArg Prod.snd heq)
        simp only [hother, mem_cons, hij, false_or]
  rw [vfsFdInherit, hloop _ s (nodup_finRange _), if_pos (mem_finRange i)]

/-- A step of another task keeps a task alive and its table as it is. -/
theorem System.step_fds_of_ne {sys : System} {t : TaskId} (hlive : sys.alive t = true)
    (hne : task ≠ t) (op : Op) :
    (sys.step task op).alive t = true ∧
      ∀ i, (sys.step task op).vfs.fds (t, i) = sys.vfs.fds (t, i) := by
  rcases sys.step_cases task op with hsame | ⟨child, -, hchild, hspawn⟩ | ⟨-, hexit⟩ | ⟨-, hcall⟩
  · rw [hsame]
    exact ⟨hlive, fun _ ↦ rfl⟩
  · have hother : t ≠ child := by
      rintro rfl
      simp [hlive] at hchild
    rw [hspawn]
    refine ⟨by simp [update_of_ne hother, hlive], fun i ↦ ?_⟩
    exact vfsFdInherit_fds_of_ne _ task hother
  · rw [hexit]
    refine ⟨by simp [update_of_ne hne.symm, hlive], fun i ↦ ?_⟩
    rw [vfsCloseAll_fds rfl, if_neg hne.symm]
    rfl
  · rw [hcall]
    exact ⟨hlive, fun i ↦ System.call_fds_of_ne rfl op hne.symm⟩

end ToastyUnix.Vfs
