import ToastyUnix.Sched.Frame

/-!
# The descriptors of a new program

`elf_exec` opens the image in the table of its caller, `task_create_user` copies the table into the
new task, and `elf_exec` closes the image again. The steps of other tasks that fall in between do
not touch the table, so the main result says for every interleaving what the new task inherits and
what the caller is left with (`child_inherits_iff`).
-/

namespace ToastyUnix.Sched.Kernel

open Mm Paging Errno Function
open Vfs (TaskId Addr Slot freeSlot)

variable {k k' : Kernel}

section Shell

variable (hcurrent : k.current = shell)

include hcurrent

variable {argv : List (Option (List UInt8))} {cr3 : BitVec 64} {kstack : Option ℕ} {pid : ℤ}

/-- Once `elf_exec` is about to load the image, it is open in the lowest free slot. -/
theorem execOpen_table {path : Option (List UInt8)} {file : Option Addr}
    (hpending : ((k.execOpen path argv file).tasks shell).call.Pending) :
    (∃ p ehdr cr3, ((k.execOpen path argv file).tasks shell).call = .loading p argv ehdr cr3) ∧
    ∃ own f, freeSlot k.vfs shell 3 = some own ∧
      (k.execOpen path argv file).vfs.fds =
        Function.update k.vfs.fds (shell, own) (some f) := by
  have hcall {k : Kernel} (h : k.current = shell) (call : Call) :
      ((k.setCall call).tasks shell).call = call := by
    simp [setCall, updateTask, h]
  have hself {k : Kernel} (h : k.current = shell) (result : ℤ) :
      ¬((k.setCall (.returned result)).tasks shell).call.Pending := by
    simp [hcall h, Call.Pending]
  obtain heq | ⟨p, mm, rfl, -, hcases⟩ := k.execOpen_cases path argv file
  · exact absurd (heq ▸ hpending) (hself hcurrent _)
  have hopened : (k.opened (some p) file mm).current = shell := hcurrent
  obtain ⟨r, -, heq | heq⟩ | ⟨hfd, ehdr, cr3, heq⟩ := hcases
  · exact absurd (heq ▸ hpending) (hself hopened r)
  · exact absurd (heq ▸ hpending) (hself (by exact hopened) r)
  have henter : k.fs.current = some shell := congrArg some hcurrent
  rw [heq]
  refine ⟨⟨p, ehdr, cr3, hcall hopened _⟩, ?_⟩
  obtain ⟨hneg, -⟩ | ⟨own, f, hslot, -, hfds⟩ :=
    Vfs.vfsOpen_result henter (some p) Vfs.O_RDONLY none file
  · exact absurd hfd (not_le.mpr hneg)
  · exact ⟨own, f, hslot, hfds⟩

/-- A new task starts with the descriptors of the shell. -/
theorem taskCreateUser_table {entry : ℕ} {name : List UInt8} (hlive : (k.tasks shell).Live)
    (h : k.taskCreateUser entry name cr3 argv kstack = (pid, k')) (hpid : 0 ≤ pid) :
    k'.current = shell ∧ ∃ child, child ≠ shell ∧ (k'.tasks child).pid.toInt = pid ∧
      (∀ i, k'.vfs.fds (child, i) = k.vfs.fds (shell, i)) ∧
      ∀ i, k'.vfs.fds (shell, i) = k.vfs.fds (shell, i) := by
  obtain ⟨slot, k₁, hslot, hcases⟩ := taskCreateUser_cases h
  obtain ⟨hkeeps, hcurrent₁, hfree⟩ := keepsTask_taskFindSlot hlive hslot
  rw [hcurrent] at hcurrent₁
  obtain ⟨rfl, -⟩ | ⟨child, hchild, stack, rsp, k₂, rfl, rfl, rfl⟩ := hcases
  · exact absurd hpid (by decide)
  · have hne : shell ≠ child := (hfree child hchild).symm
    refine ⟨hcurrent₁, child, hne.symm, rfl, fun i ↦ ?_, fun i ↦ ?_⟩
    · dsimp only [updateTask]
      rw [hcurrent₁, Vfs.vfsFdInherit_fds _ hne]
      exact hkeeps.table i
    · exact (Vfs.vfsFdInherit_fds_of_ne _ _ hne).trans (hkeeps.table i)

/-- `elf_exec` without preemption, when it has created a task. -/
theorem elfExecLoad_table {path : List UInt8} {ehdr : Elf.Ehdr} (hlive : (k.tasks shell).Live)
    (h : k.elfExecLoad path argv ehdr cr3 kstack = k')
    (hloading : (k.tasks shell).call ≠ .closing pid)
    (hcall : (k'.tasks shell).call = .closing pid) (hpid : 0 ≤ pid) :
    ∃ child, child ≠ shell ∧ (k'.tasks child).pid.toInt = pid ∧
      (∀ i, k'.vfs.fds (child, i) = k.vfs.fds (shell, i)) ∧
      ∀ i, k'.vfs.fds (shell, i) = k.vfs.fds (shell, i) := by
  have hclosing (k : Kernel) (h : k.current = shell) (result : ℤ) :
      ((k.leaveToRoot result).tasks shell).call = .closing result := by
    simp [leaveToRoot, setCall, updateTask, switchSpace, preemptEnable, h]
  unfold elfExecLoad at h
  split at h
  case h_1 =>
    rw [← h] at hcall
    exact absurd hcall hloading
  case h_2 mm _ =>
    dsimp only at h
    generalize hcreate : taskCreateUser { k.preemptDisable with mm := mm } ehdr.eEntry path cr3
      argv kstack = created at h
    obtain ⟨result, k₁⟩ := created
    dsimp only at h
    have hcurrent₁ := (keepsImages_taskCreateUser
      (k := { k.preemptDisable with mm := mm }) hlive hcreate).2.trans hcurrent
    rw [← h, hclosing k₁ hcurrent₁, Call.closing.injEq] at hcall
    split at hcall
    · rw [← hcall] at hpid
      exact absurd hpid (by decide)
    case isFalse hresult =>
      obtain ⟨-, child, hne, hchild, htable, hshell⟩ :=
        taskCreateUser_table (k := { k.preemptDisable with mm := mm }) hcurrent hlive hcreate
          (not_lt.mp hresult)
      refine ⟨child, hne, ?_, ?_, ?_⟩
      · rw [← h, ← hcall, ← hchild]
        simp [leaveToRoot, setCall, updateTask, switchSpace, preemptEnable, hcurrent₁, hne]
      · intro i
        rw [← h]
        exact htable i
      · intro i
        rw [← h]
        exact hshell i
  case h_3 mm _ _ =>
    have hfailed := hclosing { k.preemptDisable with mm := mm } hcurrent (-ENOMEM)
    obtain rfl := Call.closing.inj (hcall.symm.trans ((h ▸ rfl : _ = _).trans hfailed))
    exact absurd hpid (by decide)

/-- The last step puts the table back exactly if it closes the slot of the image. -/
theorem closeElf_table_iff {table : Slot → Option Addr} {own : Slot} {f : Addr}
    (hfree : table own = none)
    (htable : ∀ i, k.vfs.fds (shell, i) = Function.update table own (some f) i) (result : ℤ) :
    (∀ i, (k.closeElf result).vfs.fds (shell, i) = table i) ↔ k.elfFd = own.val := by
  have hown : k.vfs.fds (shell, own) = some f := by rw [htable, update_self]
  have henter : k.fs.current = some shell := congrArg some hcurrent
  have hvfs : (k.closeElf result).vfs = (Vfs.vfsClose k.fs k.elfFd).2 := rfl
  rw [hvfs]
  constructor
  · intro hback
    by_contra hne
    have hstays : (Vfs.vfsClose k.fs k.elfFd).2.fds (shell, own) = some f := by
      cases hslot : Vfs.slotOf k.elfFd with
      | none =>
        rw [Vfs.vfsClose, hslot, henter]
        exact hown
      | some j =>
        have hfd := Vfs.slotOf_eq_some hslot
        rw [hfd, Vfs.vfsClose_fds henter, update_of_ne]
        · exact hown
        · intro heq
          obtain rfl : own = j := congrArg Prod.snd heq
          exact hne hfd
    rw [hback own, hfree] at hstays
    cases hstays
  · intro hfd i
    rw [hfd, Vfs.vfsClose_fds henter]
    by_cases hi : i = own
    · rw [hi, update_self, hfree]
    · rw [update_of_ne fun heq ↦ hi (congrArg Prod.snd heq)]
      exact (htable i).trans (update_of_ne hi _ _)

end Shell

/-- How far the shell is in `elf_exec` changes only in a step of the shell. -/
theorem current_of_call_ne (hlive : (k.tasks shell).Live) (op : Op)
    (h : ((k.step op).tasks shell).call ≠ (k.tasks shell).call) :
    k.halted = false ∧ k.current = shell := by
  have hwaits : ¬Waits shell k op := fun hwaits ↦ h (keepsTask_step hlive hwaits).call
  refine ⟨?_, ?_⟩
  · by_contra hhalted
    rw [Bool.not_eq_false] at hhalted
    exact h (by simp [step, hhalted])
  · by_contra hne
    exact hwaits (by cases op <;> trivial)

/-- What a new program inherits from the shell, whatever other tasks do between the steps of
`elf_exec` (`before` and `after` its load): every slot is as it was in the shell's table when
`elf_exec` was called, except for the lowest one free from 3 on, in which it finds its own image
open. The shell has its table back if and only if `g_elf_fd` still is that slot at the end. -/
theorem child_inherits_iff (hcurrent : k.current = shell) (hidle : ¬(k.tasks shell).call.Pending)
    (hlive : (k.tasks shell).Live) {path : Option (List UInt8)} {argv : List (Option (List UInt8))}
    {file : Option Addr} {before after : List Op} {kstack : Option ℕ} {created closing : Kernel}
    {pid : ℤ} (hbefore : Meets (Waits shell) (k.step (.exec path argv file)) before)
    (hcreated : ((k.step (.exec path argv file)).run before).step (.load kstack) = created)
    (hpid : (created.tasks shell).call = .closing pid) (hsuccess : 0 ≤ pid)
    (hafter : Meets (Waits shell) created after) (hclosing : created.run after = closing)
    (hreturned : ((closing.step .close).tasks shell).call = .returned pid) :
    ∃ own child, freeSlot k.vfs shell 3 = some own ∧ child ≠ shell ∧
      (created.tasks child).pid.toInt = pid ∧
      (∀ i, created.vfs.fds (child, i) = k.vfs.fds (shell, i) ↔ i ≠ own) ∧
      ((∀ i, (closing.step .close).vfs.fds (shell, i) = k.vfs.fds (shell, i)) ↔
        closing.elfFd = own.val) := by
  have hopens : KeepsImages k (k.step (.exec path argv file)) := by
    unfold step
    dsimp only
    split_ifs
    exacts [.of_tasks rfl rfl, .of_tasks rfl rfl, (k.keepsImages_execOpen path argv file).1]
  have hkept₁ := keepsTask_run (hopens.live shell hlive) hbefore
  have hlive₁ := hkept₁.live (hopens.live shell hlive)
  generalize (k.step (.exec path argv file)).run before = loading at hcreated hkept₁ hlive₁
  -- the first step has opened the image, or the load would have found nothing to do
  have hpending : ((k.step (.exec path argv file)).tasks shell).call.Pending := by
    by_contra hnot
    rw [← hkept₁.call] at hnot
    have hne : (created.tasks shell).call ≠ (loading.tasks shell).call := by
      intro hsame
      rw [← hsame, hpid] at hnot
      exact hnot trivial
    obtain ⟨hrun, hshell⟩ := current_of_call_ne hlive₁ (.load kstack)
      (hcreated ▸ hne)
    refine hne ?_
    rw [← hcreated, step, if_neg (by simp [hrun]), hshell]
    split
    case h_1 hcall =>
      rw [hcall] at hnot
      exact absurd trivial hnot
    case h_2 => rfl
  have hrun : k.halted = false := by
    by_contra hhalted
    rw [Bool.not_eq_false] at hhalted
    rw [step, if_pos hhalted] at hpending
    exact hidle hpending
  have hopen : k.step (.exec path argv file) = k.execOpen path argv file := by
    simp [step, hrun, hcurrent, hidle]
  rw [hopen] at hkept₁ hpending
  obtain ⟨⟨p, ehdr, cr3, hcall⟩, own, f, hslot, hfds⟩ := execOpen_table hcurrent hpending
  have hfree := (Vfs.freeSlot_eq_some hslot).2
  have htable : ∀ i, loading.vfs.fds (shell, i) =
      Function.update (fun i ↦ k.vfs.fds (shell, i)) own (some f) i := by
    intro i
    rw [hkept₁.table, hfds]
    by_cases hi : i = own
    · rw [hi, update_self, update_self]
    · rw [update_of_ne hi, update_of_ne fun heq ↦ hi (congrArg Prod.snd heq)]
  -- the shell loads the image and creates the task
  rw [← hkept₁.call] at hcall
  obtain ⟨hrun₁, hcurrent₁⟩ : loading.halted = false ∧ loading.current = shell := by
    refine current_of_call_ne hlive₁ (.load kstack) ?_
    rw [hcreated, hpid, hcall]
    exact Call.noConfusion
  have hload : loading.step (.load kstack) = loading.elfExecLoad p argv ehdr cr3 kstack := by
    simp [step, hrun₁, hcurrent₁, hcall]
  obtain ⟨child, hchild, hchildPid, hinherits, hshell⟩ :=
    elfExecLoad_table hcurrent₁ hlive₁ (hload.symm.trans hcreated) (by simp [hcall]) hpid hsuccess
  -- the shell closes what it takes for the image
  have hlive₂ : (created.tasks shell).Live :=
    (elfExecLoad_effect hlive₁ (hload.symm.trans hcreated)).1.live shell hlive₁
  have hkept₂ := keepsTask_run hlive₂ hafter
  rw [hclosing] at hkept₂
  obtain ⟨hrun₂, hcurrent₂⟩ : closing.halted = false ∧ closing.current = shell := by
    refine current_of_call_ne (hkept₂.live hlive₂) .close ?_
    rw [hreturned, hkept₂.call, hpid]
    exact Call.noConfusion
  have hclose : closing.step .close = closing.closeElf pid := by
    simp [step, hrun₂, hcurrent₂, hkept₂.call, hpid]
  refine ⟨own, child, hslot, hchild, hchildPid, fun i ↦ ?_, ?_⟩
  · rw [hinherits, htable]
    by_cases hi : i = own
    · simp [hi, hfree]
    · simp [hi]
  · rw [hclose]
    exact closeElf_table_iff hcurrent₂ hfree
      (fun i ↦ (hkept₂.table i).trans ((hshell i).trans (htable i))) pid

/-- The shell starts the program `a`, up to the step that closes the image. -/
def startsProgram : Kernel :=
  twoPrograms.run [.exec (some [97]) [] (some 5), .load (some 0x9000)]

theorem child_inherits_iff_twoPrograms :
    ∃ own child, freeSlot twoPrograms.vfs shell 3 = some own ∧ child ≠ shell ∧
      (startsProgram.tasks child).pid.toInt = 2 ∧
      (∀ i, startsProgram.vfs.fds (child, i) = twoPrograms.vfs.fds (shell, i) ↔ i ≠ own) ∧
      ((∀ i, (startsProgram.step .close).vfs.fds (shell, i) = twoPrograms.vfs.fds (shell, i)) ↔
        startsProgram.elfFd = own.val) := by
  have hpid : (startsProgram.tasks shell).call = .closing 2 := by decide +kernel
  have hreturned : ((startsProgram.step .close).tasks shell).call = .returned 2 := by
    decide +kernel
  have hlive : (twoPrograms.tasks shell).Live := by decide +kernel
  have hcreated : ((twoPrograms.step (.exec (some [97]) [] (some 5))).run []).step
      (.load (some 0x9000)) = startsProgram := by
    simp only [startsProgram, run, List.foldl_cons, List.foldl_nil]
  have hbefore : Meets (Waits shell) (twoPrograms.step (.exec (some [97]) [] (some 5))) [] :=
    trivial
  have hafter : Meets (Waits shell) startsProgram [] := trivial
  have hclosing : startsProgram.run [] = startsProgram := by simp only [run, List.foldl_nil]
  exact child_inherits_iff rfl (by decide +kernel) hlive hbefore hcreated hpid (by decide) hafter
    hclosing hreturned

/-- The shell has no open file, and the program that it starts has one. -/
theorem child_finds_image_open :
    (∀ i, twoPrograms.vfs.fds (shell, i) = none) ∧
    (startsProgram.tasks shell).call = .closing 2 ∧ (startsProgram.tasks 1).pid = 2 ∧
    startsProgram.vfs.fds (1, 3) = some 5 := by
  decide +kernel

end ToastyUnix.Sched.Kernel
