import ToastyUnix.Shell.Pipeline
import ToastyUnix.Vfs.Table

/-!
# The descriptor table of the shell

The calls of the shell as updates of its descriptor table, and `exec_pipeline` as a program that
leaves the table as it found it (`execPipeline_spec`). The other tasks never touch the table, so
the only thing that has to be assumed about them is that none of them opens the image of an
`execve` while the shell is loading one: both keep the descriptor in `g_elf_fd`
(`table_survives_commands`, `execve_steals_image`).
-/

namespace ToastyUnix.Shell

open Vfs Errno Interference Machine List Function

/-- A descriptor table. -/
abbrev Table := Slot → Option Addr

/-- What the shell relies on: the others keep its table, and its image while it is loading. -/
def Rely (w w' : World) : Prop :=
  w.sys.alive shell = true →
    w'.sys.alive shell = true ∧ w'.table = w.table ∧ w'.loading = w.loading ∧
      (w.loading = true → w'.elfFd = w.elfFd)

instance : Std.Refl Rely := ⟨fun _ hlive ↦ ⟨hlive, rfl, rfl, fun _ ↦ rfl⟩⟩

instance : IsTrans World Rely where
  trans w w' w'' h h' hlive := by
    obtain ⟨hlive', htable, hloading, helf⟩ := h hlive
    obtain ⟨hlive'', htable', hloading', helf'⟩ := h' hlive'
    refine ⟨hlive'', htable'.trans htable, hloading'.trans hloading, fun hin ↦ ?_⟩
    exact (helf' (hloading.trans hin)).trans (helf hin)

/-- The event is no open of an `execve` image while the shell is loading one. -/
def Undisturbed (w : World) : Event → Prop
  | .call _ _ => True
  | .execve _ _ _ _ => w.loading = false

instance (w : World) : (e : Event) → Decidable (Undisturbed w e)
  | .call _ _ => .isTrue trivial
  | .execve _ _ _ _ => inferInstanceAs (Decidable (w.loading = false))

theorem rely_interfere {w : World} {e : Event} (h : Undisturbed w e) : Rely w (interfere w e) := by
  intro hlive
  cases e with
  | call task op =>
    simp only [interfere]
    split_ifs with hshell
    · exact ⟨hlive, rfl, rfl, fun _ ↦ rfl⟩
    · obtain ⟨hlive', htable⟩ := System.step_fds_of_ne hlive hshell op
      exact ⟨hlive', funext htable, rfl, fun _ ↦ rfl⟩
  | execve task path node file =>
    have hquiet : w.loading = false := h
    simp only [interfere]
    split_ifs with hshell
    · exact ⟨hlive, rfl, rfl, fun _ ↦ rfl⟩
    · refine ⟨hlive, funext fun i ↦ ?_, rfl, fun hin ↦ by simp [hquiet] at hin⟩
      have hne : shell ≠ task := fun heq ↦ hshell (.inl heq.symm)
      exact System.call_fds_of_ne (s := w.sys.vfs.enter task) rfl
        (.openFile path O_RDONLY node file) hne

/-! ## Rules for the calls -/

/-- The shell runs, is not loading an image, and its table satisfies `Φ`. -/
def At (Φ : Table → Prop) (w : World) : Prop :=
  w.sys.alive shell = true ∧ w.loading = false ∧ Φ w.table

/-- The shell is loading the image in slot `i`, and without that slot its table satisfies `Φ`. -/
def Opened (i : Slot) (Φ : Table → Prop) (w : World) : Prop :=
  w.sys.alive shell = true ∧ w.loading = true ∧ w.elfFd = i.val ∧
    Φ (update w.table i none)

theorem stable_at (Φ : Table → Prop) : Stable Rely (At Φ) := by
  rintro w w' hR ⟨hlive, hloading, hΦ⟩
  obtain ⟨hlive', htable, hloading', _⟩ := hR hlive
  exact ⟨hlive', hloading'.trans hloading, htable ▸ hΦ⟩

theorem stable_opened (i : Slot) (Φ : Table → Prop) : Stable Rely (Opened i Φ) := by
  rintro w w' hR ⟨hlive, hloading, helf, hΦ⟩
  obtain ⟨hlive', htable, hloading', helf'⟩ := hR hlive
  exact ⟨hlive', hloading'.trans hloading, (helf' hloading).trans helf, htable ▸ hΦ⟩

abbrev Spec {α : Type} (P : World → Prop) (p : Program α) (Q : α → World → Prop) : Prop :=
  machine.Triple Rely P p Q

variable {Φ Ψ : Table → Prop}

/-- The slots of the shell. -/
def tableOf (fds : TaskId × Slot → Option Addr) : Table := fun i ↦ fds (shell, i)

theorem tableOf_update (fds : TaskId × Slot → Option Addr) (i : Slot) (f : Option Addr) :
    tableOf (update fds (shell, i) f) = update (tableOf fds) i f := by
  funext j
  by_cases hj : j = i
  · subst hj
    simp [tableOf]
  · have hne : (shell, j) ≠ (shell, i) := fun heq ↦ hj (congrArg Prod.snd heq)
    rw [update_of_ne hj, tableOf, update_of_ne hne]
    rfl

variable {s : State} {c : Cmd} {α : Type} {i k : Slot} {fd : ℤ}

theorem World.table_setVfs (w : World) {fds : TaskId × Slot → Option Addr} (h : s.fds = fds) :
    (w.setVfs s).table = tableOf fds :=
  congrArg tableOf h

/-- A call of the shell, by what it returns and does to the table. -/
theorem call_spec {Ψ : Res c → Table → Prop} (h : ∀ w choice, w.sys.alive shell = true → Φ w.table →
      (perform c choice w).2.sys.alive shell = true ∧ (perform c choice w).2.loading = w.loading ∧
        Ψ (perform c choice w).1 (perform c choice w).2.table) :
    Spec (At Φ) (Prog.perform c) (fun r ↦ At (Ψ r)) := by
  refine Triple.perform (stable_at Φ) (fun r ↦ stable_at (Ψ r)) fun w choice hw ↦ ?_
  obtain ⟨hlive, hloading, hΦ⟩ := hw
  obtain ⟨hlive', hloading', hΨ⟩ := h w choice hlive hΦ
  exact ⟨hlive', hloading'.trans hloading, hΨ⟩

theorem ret_spec {Ψ : α → Table → Prop} {a : α} (h : ∀ T, Φ T → Ψ a T) :
    Spec (At Φ) (pure a) (fun x ↦ At (Ψ x)) :=
  Triple.ret (stable_at Φ) fun _ hw ↦ ⟨hw.1, hw.2.1, h _ hw.2.2⟩

theorem pure_spec (a : α) : Spec (At Φ) (pure a) (fun _ ↦ At Φ) :=
  ret_spec fun _ h ↦ h

theorem close_spec (h : ∀ T, Φ T → Ψ (update T i none)) :
    Spec (At Φ) (Sys.close i.val) (fun _ ↦ At Ψ) := by
  refine call_spec fun w choice hlive hΦ ↦ ⟨hlive, rfl, ?_⟩
  have htable := w.table_setVfs (vfsClose_fds (s := w.vfs) rfl i)
  rw [tableOf_update] at htable
  exact htable ▸ h _ hΦ

theorem close_neg_spec (hfd : fd < 0) : Spec (At Φ) (Sys.close fd) (fun _ ↦ At Φ) := by
  refine call_spec fun w choice hlive hΦ ↦ ⟨hlive, rfl, ?_⟩
  have htable := w.table_setVfs (congrArg State.fds (vfsClose_fds_of_neg (s := w.vfs) hfd))
  exact htable ▸ hΦ

theorem dup2_spec (hne : i ≠ k)
    (h : ∀ T, Φ T → ∃ f, T i = some f ∧ Ψ (update T k (some f))) :
    Spec (At Φ) (Sys.dup2 i.val k.val) (fun _ ↦ At Ψ) := by
  refine call_spec fun w choice hlive hΦ ↦ ⟨hlive, rfl, ?_⟩
  obtain ⟨f, hf, hΨ⟩ := h _ hΦ
  have htable := w.table_setVfs (vfsDup2_fds (s := w.vfs) rfl hf hne)
  rw [tableOf_update] at htable
  exact htable ▸ hΨ

/-- Whatever is copied, only the target changes. -/
theorem dup2_any_spec (hsame : ∀ T, Φ T → Ψ T) (h : ∀ T f, Φ T → Ψ (update T k f)) :
    Spec (At Φ) (Sys.dup2 fd k.val) (fun _ ↦ At Ψ) := by
  refine call_spec fun w choice hlive hΦ ↦ ⟨hlive, rfl, ?_⟩
  rcases vfsDup2_fds_cases (s := w.vfs) rfl fd k with heq | ⟨f, heq⟩
  · exact w.table_setVfs heq ▸ hsame _ hΦ
  · have htable := w.table_setVfs heq
    rw [tableOf_update] at htable
    exact htable ▸ h _ f hΦ

theorem dup_spec {Ψ : ℤ → Table → Prop} (h : ∀ T, Φ T → ∃ f k, T i = some f ∧ T k = none ∧
      ∀ j : Slot, T j = none → Ψ j.val (update T j (some f))) :
    Spec (At Φ) (Sys.dup i.val) (fun r ↦ At (Ψ r)) := by
  refine call_spec fun w choice hlive hΦ ↦ ⟨hlive, rfl, ?_⟩
  obtain ⟨f, k, hf, hk, hΨ⟩ := h _ hΦ
  obtain ⟨j, hj, hresult, hfds⟩ := vfsDup_fds (s := w.vfs) rfl hf hk
  simp only [perform, hresult, w.table_setVfs hfds, tableOf_update]
  exact hΨ j hj

theorem openFile_spec {path : List UInt8} {flags : BitVec 32} {Ψ : ℤ → Table → Prop}
    (hfail : ∀ T fd, fd < 0 → Φ T → Ψ fd T)
    (h : ∀ T (i : Slot) f, 3 ≤ i.val → T i = none → Φ T → Ψ i.val (update T i (some f))) :
    Spec (At Φ) (Sys.openFile path flags) (fun r ↦ At (Ψ r)) := by
  refine call_spec fun w choice hlive hΦ ↦ ⟨hlive, rfl, ?_⟩
  simp only [perform]
  rcases vfsOpen_result (s := w.vfs) rfl (some path) flags choice.node choice.file with
    ⟨hneg, hfds⟩ | ⟨i, f, hslot, hresult, hfds⟩
  · rw [w.table_setVfs hfds]
    exact hfail _ _ hneg hΦ
  · rw [w.table_setVfs hfds, tableOf_update, hresult]
    obtain ⟨hle, hfree⟩ := freeSlot_eq_some hslot
    exact h _ i f hle hfree hΦ

theorem pipe_spec {Ψ : Option (ℤ × ℤ) → Table → Prop} (hfail : ∀ T, Φ T → Ψ none T)
    (h : ∀ T (i j : Slot) f g, i ≠ j → 3 ≤ i.val → 3 ≤ j.val → T i = none → T j = none → Φ T →
      Ψ (some (i.val, j.val)) (update (update T i (some f)) j (some g))) :
    Spec (At Φ) Sys.pipe (fun r ↦ At (Ψ r)) := by
  refine call_spec fun w choice hlive hΦ ↦ ⟨hlive, rfl, ?_⟩
  simp only [perform]
  rcases vfsPipe_result (s := w.vfs) rfl choice.pipe choice.readEnd choice.writeEnd with
    ⟨hnone, hfds⟩ | ⟨i, j, f, g, hij, hi, hj, hifree, hjfree, hresult, hfds⟩
  · rw [w.table_setVfs hfds, hnone]
    exact hfail _ hΦ
  · rw [w.table_setVfs hfds, tableOf_update, tableOf_update, hresult]
    exact h _ i j f g hij hi hj hifree hjfree hΦ

/-- The calls that leave the table alone. -/
theorem quiet_spec (h : ∀ w choice, w.sys.alive shell = true →
      (perform c choice w).2.sys.alive shell = true ∧
        (perform c choice w).2.loading = w.loading ∧ (perform c choice w).2.table = w.table) :
    Spec (At Φ) (Prog.perform c) (fun _ ↦ At Φ) := by
  refine call_spec fun w choice hlive hΦ ↦ ?_
  obtain ⟨hlive', hloading, htable⟩ := h w choice hlive
  exact ⟨hlive', hloading, htable ▸ hΦ⟩

theorem call_io_fds {op : Vfs.Op} (hop : isIo op = true) : (System.call s op).fds = s.fds := by
  cases op with
  | read fd hasBuf count driver => exact (vfsRead_quiet s fd hasBuf count driver).fds
  | write fd buf driver alloc => exact (vfsWrite_quiet s fd buf driver alloc).fds
  | ftruncate fd length alloc => exact (vfsFtruncate_quiet s fd length alloc).fds
  | readdir fd hasBuf count => exact (vfsReaddir_quiet s fd hasBuf count).fds
  | mkdir path mode choice => exact (vfsMkdir_quiet s path mode choice).fds
  | unlink path => exact (vfsUnlink_quiet s path).fds
  | chmod path mode => exact (vfsChmod_quiet s path mode).fds
  | pread | ioctl => rfl
  | openFile | close | dup | dup2 | pipe | spawn | exit => simp [isIo] at hop

theorem io_spec : Spec (At Φ) Sys.io (fun _ ↦ At Φ) := by
  refine quiet_spec fun w choice hlive ↦ ?_
  simp only [perform]
  split_ifs with hop
  · exact ⟨hlive, rfl, w.table_setVfs (call_io_fds hop)⟩
  · exact ⟨hlive, rfl, rfl⟩

/-! ## Loading an image -/

theorem elfOpen_spec (path : List UInt8) :
    Spec (At Φ) (Sys.elfOpen path)
      (fun fd w ↦ (fd < 0 ∧ At Φ w) ∨ ∃ i : Slot, fd = i.val ∧ Opened i Φ w) := by
  refine Triple.perform (stable_at Φ) (fun fd w w' hR ↦ ?_) fun w choice ⟨hlive, hloading, hΦ⟩ ↦ ?_
  · rintro (⟨hneg, hat⟩ | ⟨i, hi, hopened⟩)
    · exact .inl ⟨hneg, stable_at Φ w w' hR hat⟩
    · exact .inr ⟨i, hi, stable_opened i Φ w w' hR hopened⟩
  · simp only [machine, perform]
    rcases vfsOpen_result (s := w.vfs) rfl (some path) O_RDONLY choice.node choice.file with
      ⟨hneg, hfds⟩ | ⟨i, f, hslot, hresult, hfds⟩
    · have htable := w.table_setVfs hfds
      refine .inl ⟨hneg, hlive, by simp [hneg], ?_⟩
      exact htable ▸ hΦ
    · obtain ⟨hle, hfree⟩ := freeSlot_eq_some hslot
      have htable := w.table_setVfs hfds
      rw [tableOf_update] at htable
      have hfree' : tableOf w.vfs.fds i = none := hfree
      refine .inr ⟨i, hresult, hlive, by simp [hresult], hresult, ?_⟩
      change Φ (update (w.setVfs _).table i none)
      rw [htable, update_idem, ← hfree', update_eq_self]
      exact hΦ

/-- While the image is loaded the table stays as it is; the new task gets a copy. -/
theorem elfLoad_spec (i : Slot) : Spec (Opened i Φ) Sys.elfLoad (fun _ ↦ Opened i Φ) := by
  refine Triple.perform (stable_opened i Φ) (fun _ ↦ stable_opened i Φ) fun w choice hw ↦ ?_
  simp only [machine, perform]
  split_ifs with hfail hchild
  · exact hw
  · exact hw
  · obtain ⟨hlive, hloading, helf, hΦ⟩ := hw
    have hne : shell ≠ choice.child := by
      intro heq
      rw [← heq] at hchild
      exact hchild hlive
    refine ⟨by simp [update_of_ne hne, hlive], hloading, helf, ?_⟩
    have htable : World.table { w with
        sys := ⟨vfsFdInherit w.vfs choice.child shell,
          update w.sys.alive choice.child true⟩ } = w.table :=
      funext fun j ↦ vfsFdInherit_fds_of_ne _ _ hne
    rw [htable]
    exact hΦ

theorem executable_spec (i : Slot) (path : List UInt8) :
    Spec (Opened i Φ) (Sys.executable path) (fun _ ↦ Opened i Φ) :=
  Triple.perform (stable_opened i Φ) (fun _ ↦ stable_opened i Φ) fun _ _ hw ↦ hw

theorem elfClose_spec (i : Slot) : Spec (Opened i Φ) Sys.elfClose (fun _ ↦ At Φ) := by
  refine Triple.perform (stable_opened i Φ) (fun _ ↦ stable_at Φ) fun w choice hw ↦ ?_
  obtain ⟨hlive, hloading, helf, hΦ⟩ := hw
  refine ⟨hlive, rfl, ?_⟩
  have htable := w.table_setVfs (vfsClose_fds (s := w.vfs) rfl i)
  rw [tableOf_update, ← helf] at htable
  change Φ (w.setVfs (vfsClose w.vfs w.elfFd).2).table
  rw [htable]
  exact hΦ

theorem elfExec_spec (path : List UInt8) :
    Spec (At Φ) (elfExec path) (fun _ ↦ At Φ) := by
  refine (elfOpen_spec path).bind fun fd w hw ↦ ?_
  rcases hw with ⟨hneg, hat⟩ | ⟨i, rfl, hopened⟩
  · rw [if_pos hneg]
    exact pure_spec _ w hat
  · rw [if_neg (by omega)]
    revert w
    change Spec (Opened i Φ) _ _
    refine (executable_spec i path).bind fun ok ↦ ?_
    cases ok with
    | false => exact (elfClose_spec i).bind fun _ ↦ pure_spec _
    | true =>
      refine (elfLoad_spec i).bind fun pid ↦ (elfClose_spec i).bind fun _ ↦ ?_
      exact pure_spec _

theorem ioLoop_spec (n : ℕ) : Spec (At Φ) (ioLoop n) (fun _ ↦ At Φ) := by
  induction n with
  | zero => exact pure_spec _
  | succ n ih => exact io_spec.bind fun _ ↦ ih

theorem rounds_spec : Spec (At Φ) Sys.rounds (fun _ ↦ At Φ) :=
  quiet_spec fun _ _ hlive ↦ ⟨hlive, rfl, rfl⟩

theorem doIo_spec : Spec (At Φ) doIo (fun _ ↦ At Φ) :=
  rounds_spec.bind ioLoop_spec

theorem pathResolve_spec (arg : List UInt8) : Spec (At Φ) (Sys.pathResolve arg) (fun _ ↦ At Φ) :=
  quiet_spec fun _ _ hlive ↦ ⟨hlive, rfl, rfl⟩

theorem withFile_spec (path : List UInt8) (flags : BitVec 32) :
    Spec (At Φ) (withFile path flags) (fun _ ↦ At Φ) := by
  have hopen : Spec (At Φ) (Sys.openFile path flags) (fun fd ↦ At fun T ↦
      (fd < 0 ∧ Φ T) ∨ ∃ i : Slot, fd = i.val ∧ Φ (update T i none)) := by
    refine openFile_spec (fun T fd hneg hΦ ↦ .inl ⟨hneg, hΦ⟩) fun T i f _ hfree hΦ ↦ ?_
    refine .inr ⟨i, rfl, ?_⟩
    rwa [update_idem, ← hfree, update_eq_self]
  refine hopen.bind fun fd ↦ ?_
  rintro w ⟨hlive, hloading, ⟨hneg, hΦ⟩ | ⟨i, rfl, hΦ⟩⟩
  · rw [if_pos hneg]
    exact pure_spec _ w ⟨hlive, hloading, hΦ⟩
  · rw [if_neg (by omega)]
    have hrest : Spec (At fun T ↦ Φ (update T i none))
        (do doIo; let _ ← Sys.close i.val; return ()) (fun _ ↦ At Φ) :=
      doIo_spec.bind fun _ ↦ (close_spec fun _ h ↦ h).bind fun _ ↦
        pure_spec _
    exact hrest w ⟨hlive, hloading, hΦ⟩

theorem builtinRun_spec (builtin : Builtin) (argv : List (List UInt8)) :
    Spec (At Φ) (builtinRun builtin argv) (fun _ ↦ At Φ) := by
  unfold builtinRun
  split
  · split_ifs
    · exact pure_spec _
    · exact (pathResolve_spec _).bind fun path ↦ withFile_spec path _
  · exact (pathResolve_spec _).bind fun path ↦ withFile_spec path _
  · exact (pathResolve_spec _).bind fun path ↦ withFile_spec path _
  · refine (pathResolve_spec _).bind fun path ↦ ?_
    split_ifs
    · exact pure_spec _
    · exact withFile_spec path _
  · exact withFile_spec _ _
  · split
    · exact doIo_spec
    · exact (pathResolve_spec _).bind fun path ↦ withFile_spec path _
  · refine (pathResolve_spec _).bind fun path ↦ (elfExec_spec path).bind fun _ ↦ ?_
    exact pure_spec _
  · exact doIo_spec

theorem runSegment_spec (seg : Seg) (path : List UInt8) :
    Spec (At Φ) (runSegment seg path) (fun _ ↦ At Φ) := by
  unfold runSegment
  split
  · exact (builtinRun_spec _ _).bind fun _ ↦ pure_spec _
  · refine (elfExec_spec path).bind fun pid ↦ ?_
    split_ifs <;> exact pure_spec _

/-! ## Temporary descriptors -/

/-- Besides the table `base`, with its standard slots below `n` in place, exactly `fds` are open. -/
structure Owns (base : Table) (n : ℕ) (fds : List ℤ) (T : Table) : Prop where
  nodup : fds.Nodup
  temp : ∀ fd ∈ fds, ∃ i : Slot, fd = i.val ∧ 3 ≤ i.val ∧ base i = none ∧ T i ≠ none
  rest : ∀ i : Slot, 3 ≤ i.val → (i.val : ℤ) ∉ fds → T i = base i
  std : ∀ i : Slot, i.val < n → i.val < 3 → T i = base i

section Owns

variable {base T : Table} {n : ℕ} {fds fds' : List ℤ} {i k : Slot} {f : Addr}

theorem Owns.perm (h : Owns base n fds T) (hperm : fds.Perm fds') : Owns base n fds' T where
  nodup := hperm.nodup_iff.mp h.nodup
  temp fd hfd := h.temp fd (hperm.mem_iff.mpr hfd)
  rest i hle hi := h.rest i hle fun hmem ↦ hi (hperm.mem_iff.mp hmem)
  std := h.std

theorem Owns.insert (h : Owns base n fds T) (hi : 3 ≤ i.val) (hfree : T i = none) :
    Owns base n (i.val :: fds) (update T i (some f)) := by
  have hnew : (i.val : ℤ) ∉ fds := by
    intro hmem
    obtain ⟨j, hj, _, _, hopen⟩ := h.temp _ hmem
    obtain rfl : i = j := Fin.ext (by exact_mod_cast hj)
    exact hopen hfree
  refine ⟨nodup_cons.mpr ⟨hnew, h.nodup⟩, fun fd hfd ↦ ?_, fun j hle hj ↦ ?_, fun j hlt hstd ↦ ?_⟩
  · rcases mem_cons.mp hfd with rfl | hfd
    · exact ⟨i, rfl, hi, (h.rest i hi hnew).symm.trans hfree, by simp⟩
    · obtain ⟨j, rfl, hj, hbase, hopen⟩ := h.temp fd hfd
      have hne : j ≠ i := fun heq ↦ hnew (heq ▸ hfd)
      exact ⟨j, rfl, hj, hbase, by rwa [update_of_ne hne]⟩
  · rw [mem_cons, not_or] at hj
    rw [update_of_ne fun heq ↦ hj.1 (by rw [heq])]
    exact h.rest j hle hj.2
  · rw [update_of_ne]
    · exact h.std j hlt hstd
    · rintro rfl
      omega

theorem Owns.erase (h : Owns base n (i.val :: fds) T) :
    Owns base n fds (update T i none) := by
  obtain ⟨hnew, hnodup⟩ := nodup_cons.mp h.nodup
  obtain ⟨j, hj, hle, hbase, _⟩ := h.temp _ mem_cons_self
  obtain rfl : i = j := Fin.ext (by exact_mod_cast hj)
  refine ⟨hnodup, fun fd hfd ↦ ?_, fun j hle' hj ↦ ?_, fun j hlt hstd ↦ ?_⟩
  · obtain ⟨j, rfl, hj, hbase', hopen⟩ := h.temp fd (mem_cons_of_mem _ hfd)
    have hne : j ≠ i := fun heq ↦ hnew (heq ▸ hfd)
    exact ⟨j, rfl, hj, hbase', by rwa [update_of_ne hne]⟩
  · by_cases hne : j = i
    · subst hne
      simp [hbase]
    · rw [update_of_ne hne]
      refine h.rest j hle' fun hmem ↦ ?_
      rcases mem_cons.mp hmem with heq | hmem
      · exact hne (Fin.ext (by exact_mod_cast heq))
      · exact hj hmem
  · rw [update_of_ne]
    · exact h.std j hlt hstd
    · rintro rfl
      omega

theorem Owns.updateStd (h : Owns base 0 fds T) (hk : k.val < 3) (f : Option Addr) :
    Owns base 0 fds (update T k f) := by
  have hne : ∀ j : Slot, 3 ≤ j.val → j ≠ k := by
    rintro j hle rfl
    omega
  refine ⟨h.nodup, fun fd hfd ↦ ?_, fun j hle hj ↦ ?_, fun j hlt ↦ by omega⟩
  · obtain ⟨j, rfl, hj, hbase, hopen⟩ := h.temp fd hfd
    exact ⟨j, rfl, hj, hbase, by rwa [update_of_ne (hne j hj)]⟩
  · rw [update_of_ne (hne j hle)]
    exact h.rest j hle hj

/-- A standard slot is put back from its copy. -/
theorem Owns.restoreStd (h : Owns base k.val fds T) (hk : k.val < 3) (hi : 3 ≤ i.val)
    (hcopy : base i = base k) (hopen : base k ≠ none) :
    ∃ f, T i = some f ∧ Owns base (k.val + 1) fds (update T k (some f)) := by
  obtain ⟨f, hf⟩ := Option.ne_none_iff_exists'.mp hopen
  have hne : ∀ j : Slot, 3 ≤ j.val → j ≠ k := by
    rintro j hle rfl
    omega
  have hkept : (i.val : ℤ) ∉ fds := by
    intro hmem
    obtain ⟨j, hj, _, hbase, _⟩ := h.temp _ hmem
    obtain rfl : i = j := Fin.ext (by exact_mod_cast hj)
    exact hopen (hcopy ▸ hbase)
  refine ⟨f, (h.rest i hi hkept).trans (hcopy.trans hf), h.nodup, fun fd hfd ↦ ?_,
    fun j hle hj ↦ ?_, fun j hlt hstd ↦ ?_⟩
  · obtain ⟨j, rfl, hj, hbase, hopen'⟩ := h.temp fd hfd
    exact ⟨j, rfl, hj, hbase, by rwa [update_of_ne (hne j hj)]⟩
  · rw [update_of_ne (hne j hle)]
    exact h.rest j hle hj
  · by_cases hj : j = k
    · subst hj
      simp [hf]
    · rw [update_of_ne hj]
      have : j.val ≠ k.val := fun heq ↦ hj (Fin.ext heq)
      exact h.std j (by omega) hstd

theorem Owns.forget (h : Owns base n fds T) : Owns base 0 fds T :=
  ⟨h.nodup, h.temp, h.rest, fun _ hlt ↦ absurd hlt (Nat.not_lt_zero _)⟩

theorem owns_nil_iff : Owns base 3 [] T ↔ T = base := by
  constructor
  · intro h
    funext i
    by_cases hi : i.val < 3
    · exact h.std i hi hi
    · exact h.rest i (by omega) (by simp)
  · rintro rfl
    exact ⟨nodup_nil, by simp, fun _ _ _ ↦ rfl, fun _ _ _ ↦ rfl⟩

end Owns

/-! ## The stages of a pipeline -/

/-- A descriptor in a variable that is negative when there is none. -/
def ends (fd : ℤ) : List ℤ := if 0 ≤ fd then [fd] else []

section Stages

variable {base : Table} {n : ℕ}

theorem close_owned_spec (fd : ℤ) (fds : List ℤ) :
    Spec (At (Owns base n (fd :: fds))) (Sys.close fd) (fun _ ↦ At (Owns base n fds)) := by
  intro w hw
  obtain ⟨i, rfl, _⟩ := hw.2.2.temp fd mem_cons_self
  exact close_spec (fun T hT ↦ hT.erase) w hw

theorem closeFiles_spec (files fds : List ℤ) :
    Spec (At (Owns base n (files ++ fds))) (closeFiles files) (fun _ ↦ At (Owns base n fds)) := by
  induction files with
  | nil => exact pure_spec _
  | cons fd files ih => exact (close_owned_spec fd _).bind fun _ ↦ ih

theorem close_ends_spec (fd : ℤ) :
    Spec (At (Owns base n (ends fd))) (Sys.close fd) (fun _ ↦ At (Owns base n [])) := by
  unfold ends
  split_ifs with hfd
  · exact close_owned_spec fd []
  · exact close_neg_spec (by omega)

theorem dup2_std_spec (fd : ℤ) {k : Slot} (hk : k.val < 3) (fds : List ℤ) :
    Spec (At (Owns base 0 fds)) (Sys.dup2 fd k.val) (fun _ ↦ At (Owns base 0 fds)) :=
  dup2_any_spec (fun _ h ↦ h) fun _ f h ↦ h.updateStd hk f

variable {prevR : ℤ}

theorem takeInput_spec {first : Bool} (hfirst : first = true → prevR < 0) :
    Spec (At (Owns base 0 (ends prevR))) (takeInput first prevR)
      (fun r ↦ At fun T ↦ r < 0 ∧ Owns base 0 [] T) := by
  unfold takeInput
  split_ifs with hf
  · have hneg := hfirst hf
    refine ret_spec fun T hT ↦ ⟨hneg, ?_⟩
    rwa [ends, if_neg (by omega)] at hT
  · refine (dup2_std_spec prevR (k := 0) (by decide) _).bind fun _ ↦ ?_
    refine (close_ends_spec prevR).bind fun _ ↦ ?_
    exact ret_spec fun T hT ↦ ⟨by decide, hT⟩

theorem makeOutput_spec (last : Bool) (hprev : prevR < 0) :
    Spec (At (Owns base 0 [])) (makeOutput last prevR)
      (fun x ↦ At (Owns base 0 (ends x.2.2 ++ ends x.2.1))) := by
  have hnone : ends prevR = [] := if_neg (by omega)
  have hw : ends (-1) = [] := rfl
  unfold makeOutput
  split_ifs
  · refine ret_spec fun T hT ↦ ?_
    simpa [hnone, hw] using hT
  · have hpipe : Spec (At (Owns base 0 [])) Sys.pipe (fun x ↦ At fun T ↦ x.elim (Owns base 0 [] T)
        fun p ↦ 0 ≤ p.1 ∧ 0 ≤ p.2 ∧ Owns base 0 [p.2, p.1] T) := by
      refine pipe_spec (fun T hT ↦ hT) fun T i j f g hij hi hj hifree hjfree hT ↦ ?_
      refine ⟨by omega, by omega, (hT.insert hi hifree).insert hj ?_⟩
      rwa [update_of_ne hij.symm]
    refine hpipe.bind fun x ↦ ?_
    cases x with
    | none =>
      refine ret_spec fun T hT ↦ ?_
      simpa [hnone, hw] using hT
    | some x =>
      obtain ⟨r, w⟩ := x
      rintro world ⟨hlive, hloading, hr, hw, howns⟩
      have hends : ends w ++ ends r = [w, r] := by simp [ends, hr, hw]
      refine ((dup2_std_spec w (k := 1) (by decide) _).bind fun _ ↦ ?_) world
        ⟨hlive, hloading, howns⟩
      exact ret_spec fun T hT ↦ by simpa only [hends] using hT

theorem redirect_spec (seg : Seg) (tgts : List (Fin 3)) (files fds : List ℤ) :
    Spec (At (Owns base 0 (files ++ fds))) (redirect seg tgts files)
      (fun x ↦ At (Owns base 0 (x.2 ++ fds))) := by
  induction tgts generalizing files with
  | nil => exact ret_spec fun _ h ↦ h
  | cons tgt tgts ih =>
    rw [redirect]
    split
    · exact ih files
    case h_2 mode file _ =>
      have hopen : Spec (At (Owns base 0 (files ++ fds))) (Sys.openFile file mode.flags)
          (fun fd ↦ At fun T ↦ (fd < 0 ∧ Owns base 0 (files ++ fds) T) ∨
            (0 ≤ fd ∧ Owns base 0 (files ++ [fd] ++ fds) T)) := by
        refine openFile_spec (fun T fd hneg hT ↦ .inl ⟨hneg, hT⟩) fun T i f hi hfree hT ↦ ?_
        refine .inr ⟨by omega, (hT.insert hi hfree).perm ?_⟩
        rw [append_assoc, singleton_append]
        exact perm_middle.symm
      refine hopen.bind fun fd ↦ ?_
      rintro w ⟨hlive, hloading, ⟨hneg, hT⟩ | ⟨hpos, hT⟩⟩
      · rw [if_pos hneg]
        exact ret_spec (fun _ h ↦ h) w ⟨hlive, hloading, hT⟩
      · rw [if_neg (by omega)]
        refine ((dup2_std_spec fd (k := ⟨tgt.val, tgt.isLt.trans (by decide)⟩) ?_ _).bind fun _ ↦ ih _) w
          ⟨hlive, hloading, hT⟩
        exact tgt.isLt

end Stages

/-- The copies of the standard descriptors are in place. -/
structure Saved (base : Table) (i₀ i₁ i₂ : Slot) : Prop where
  le₀ : 3 ≤ i₀.val
  le₁ : 3 ≤ i₁.val
  le₂ : 3 ≤ i₂.val
  copy₀ : base i₀ = base 0
  copy₁ : base i₁ = base 1
  copy₂ : base i₂ = base 2
  isOpen : ∀ k : Slot, k.val < 3 → base k ≠ none

section Pipeline

variable {base : Table} {i₀ i₁ i₂ : Slot}

variable {k : Slot} {first : Bool} {prevR : ℤ}

theorem restoreStd_spec {i : Slot} (hk : k.val < 3) (hi : 3 ≤ i.val) (hcopy : base i = base k)
    (hopen : base k ≠ none) (fds : List ℤ) :
    Spec (At (Owns base k.val fds)) (Sys.dup2 i.val k.val)
      (fun _ ↦ At (Owns base (k.val + 1) fds)) := by
  refine dup2_spec ?_ fun T hT ↦ hT.restoreStd hk hi hcopy hopen
  rintro rfl
  omega

theorem restore_spec (h : Saved base i₀ i₁ i₂) (fds : List ℤ) :
    Spec (At (Owns base 0 fds)) (restore (i₀.val, i₁.val, i₂.val))
      (fun _ ↦ At (Owns base 3 fds)) := by
  refine (restoreStd_spec (k := 0) (by decide) h.le₀ h.copy₀ (h.isOpen 0 (by decide)) fds).bind
    fun _ ↦ ?_
  refine (restoreStd_spec (k := 1) (by decide) h.le₁ h.copy₁ (h.isOpen 1 (by decide)) fds).bind
    fun _ ↦ ?_
  refine (restoreStd_spec (k := 2) (by decide) h.le₂ h.copy₂ (h.isOpen 2 (by decide)) fds).bind
    fun _ ↦ ?_
  exact pure_spec _

/-- A stage leaves only the read end of its pipe behind. -/
theorem stage_spec (h : Saved base i₀ i₁ i₂) (last : Bool) (hfirst : first = true → prevR < 0)
    (seg : Seg) (path : List UInt8) :
    Spec (At (Owns base 3 (ends prevR)))
      (stage (i₀.val, i₁.val, i₂.val) first last prevR seg path)
      (fun x ↦ At (Owns base 3 (ends x.2.1))) := by
  have hinput : Spec (At (Owns base 3 (ends prevR))) (takeInput first prevR)
      (fun r ↦ At fun T ↦ r < 0 ∧ Owns base 0 [] T) :=
    (takeInput_spec hfirst).mono (fun w hw ↦ ⟨hw.1, hw.2.1, hw.2.2.forget⟩) fun _ _ ↦ id
  refine hinput.bind fun prevR' ↦ ?_
  rintro w ⟨hlive, hloading, hprev, howns⟩
  refine ((makeOutput_spec last hprev).bind ?_) w ⟨hlive, hloading, howns⟩
  rintro ⟨failed, r, out⟩
  have hredirect : Spec (At (Owns base 0 (ends out ++ ends r)))
      (if failed then pure (true, []) else redirect seg [0, 1, 2] [])
      (fun x ↦ At (Owns base 0 (x.2 ++ (ends out ++ ends r)))) := by
    split_ifs
    · exact ret_spec fun _ h ↦ h
    · exact redirect_spec seg [0, 1, 2] [] _
  refine hredirect.bind ?_
  rintro ⟨failed', files⟩
  have hrun : Spec (At (Owns base 0 (files ++ (ends out ++ ends r))))
      (if failed' then pure (true, []) else runSegment seg path)
      (fun _ ↦ At (Owns base 0 (files ++ (ends out ++ ends r)))) := by
    split_ifs
    · exact pure_spec _
    · exact runSegment_spec seg path
  refine hrun.bind ?_
  rintro ⟨failed'', pids⟩
  refine (restore_spec h _).bind fun _ ↦ (closeFiles_spec files _).bind fun _ ↦ ?_
  exact (closeFiles_spec (ends out) _).bind fun _ ↦ ret_spec fun _ h ↦ h

theorem stages_spec (h : Saved base i₀ i₁ i₂) (segs : List (Seg × List UInt8))
    (hfirst : first = true → prevR < 0) (pids : List ℤ) :
    Spec (At (Owns base 3 (ends prevR)))
      (stages (i₀.val, i₁.val, i₂.val) first prevR pids segs)
      (fun x ↦ At (Owns base 3 (ends x.1))) := by
  induction segs generalizing first prevR pids with
  | nil => exact ret_spec fun _ h ↦ h
  | cons seg segs ih =>
    obtain ⟨seg, path⟩ := seg
    refine (stage_spec h segs.isEmpty hfirst seg path).bind ?_
    rintro ⟨failed, prevR', new⟩
    cases failed with
    | true => exact ret_spec fun _ h ↦ h
    | false => exact ih (by simp) _

theorem resolveAll_spec (segs : List Seg) : Spec (At Φ) (resolveAll segs) (fun _ ↦ At Φ) := by
  induction segs with
  | nil => exact pure_spec _
  | cons seg segs ih =>
    have hpath : Spec (At Φ)
        (if seg.builtin.isSome then pure (some []) else Sys.resolveProg (seg.argv.headD []))
        (fun _ ↦ At Φ) := by
      split_ifs
      · exact pure_spec _
      · exact quiet_spec fun _ _ hlive ↦ ⟨hlive, rfl, rfl⟩
    refine hpath.bind fun path ↦ ?_
    cases path with
    | none => exact pure_spec _
    | some path => exact ih.bind fun _ ↦ pure_spec _

theorem waitAll_spec (pids : List ℤ) : Spec (At Φ) (waitAll pids) (fun _ ↦ At Φ) := by
  induction pids with
  | nil => exact pure_spec _
  | cons pid pids ih =>
    have hwait : Spec (At Φ) (Sys.wait pid) (fun _ ↦ At Φ) :=
      quiet_spec fun _ _ hlive ↦ ⟨hlive, rfl, rfl⟩
    exact hwait.bind fun _ ↦ ih

/-- Copying a standard descriptor takes one more slot. -/
theorem dupStd_spec {T : Table} (hopen : ∀ i : Slot, i.val < 3 → T i ≠ none) (hk : k.val < 3)
    (hfree : ∃ i, T i = none) :
    Spec (At (· = T)) (Sys.dup k.val)
      (fun r ↦ At fun T' ↦ ∃ (j : Slot) (f : Addr), r = j.val ∧ 3 ≤ j.val ∧ T j = none ∧
        T k = some f ∧ T' = update T j (some f)) := by
  refine dup_spec ?_
  rintro _ rfl
  obtain ⟨f, hf⟩ := Option.ne_none_iff_exists'.mp (hopen k hk)
  obtain ⟨i, hi⟩ := hfree
  refine ⟨f, i, hf, hi, fun j hj ↦ ⟨j, f, rfl, ?_, hj, hf, rfl⟩⟩
  by_contra hlt
  exact hopen j (by omega) hj

end Pipeline

/-- The table at boot: the standard descriptors are open and nothing else is. -/
structure Boot (T : Table) : Prop where
  isOpen : ∀ i : Slot, i.val < 3 → T i ≠ none
  free : ∀ i : Slot, 3 ≤ i.val → T i = none

theorem exists_third_slot (i j : Slot) : ∃ k : Slot, 3 ≤ k.val ∧ k ≠ i ∧ k ≠ j := by
  revert i j
  decide

section CommandLines

variable {T : Table}

theorem update_std (T : Table) {i : Slot} (hi : 3 ≤ i.val) (f : Option Addr) (k : Slot)
    (hk : k.val < 3) : update T i f k = T k := by
  rw [update_of_ne]
  rintro rfl
  omega

theorem ne_of_update_eq_none {i j : Slot} {f : Addr}
    (h : update T i (some f) j = none) : i ≠ j := by
  rintro rfl
  simp at h

/-- Once the copies are made, the stages run and the copies are closed. -/
theorem savedStages_spec {base : Table} {i₀ i₁ i₂ : Slot} (h : Saved base i₀ i₁ i₂)
    (howns : Owns T 3 [(i₀.val : ℤ), (i₁.val : ℤ), (i₂.val : ℤ)] base)
    (segs : List (Seg × List UInt8)) :
    Spec (At (· = base))
      (do
        let (prevR, pids) ← stages (i₀.val, i₁.val, i₂.val) true (-1) [] segs
        closeFiles (if 0 ≤ prevR then [prevR] else [])
        waitAll pids
        closeFiles [(i₀.val : ℤ), (i₁.val : ℤ), (i₂.val : ℤ)])
      (fun _ ↦ At (· = T)) := by
  have hstages : Spec (At (Owns base 3 (ends (-1)))) (stages (i₀.val, i₁.val, i₂.val) true (-1) [] segs)
      (fun x ↦ At (Owns base 3 (ends x.1))) :=
    stages_spec h segs (fun _ ↦ by decide) []
  have hclose (fd : ℤ) : Spec (At (Owns base 3 (ends fd ++ []))) (closeFiles (ends fd))
      (fun _ ↦ At (Owns base 3 [])) := closeFiles_spec _ _
  simp only [append_nil] at hclose
  refine (hstages.mono (fun w hw ↦ ⟨hw.1, hw.2.1, owns_nil_iff.mpr hw.2.2⟩) fun _ _ ↦ id).bind ?_
  rintro ⟨prevR, pids⟩
  refine (hclose prevR).bind fun _ ↦ (waitAll_spec pids).bind fun _ ↦ ?_
  have hsaves : Spec (At (Owns T 3 ([(i₀.val : ℤ), (i₁.val : ℤ), (i₂.val : ℤ)] ++ [])))
      (closeFiles [(i₀.val : ℤ), (i₁.val : ℤ), (i₂.val : ℤ)]) (fun _ ↦ At (Owns T 3 [])) :=
    closeFiles_spec _ _
  refine hsaves.mono ?_ ?_
  · rintro w ⟨hlive, hloading, hbase⟩
    exact ⟨hlive, hloading, owns_nil_iff.mp hbase ▸ by simpa using howns⟩
  · rintro _ w ⟨hlive, hloading, hnil⟩
    exact ⟨hlive, hloading, owns_nil_iff.mp hnil⟩

theorem execPipeline_spec (hT : Boot T) (segs : List Seg) :
    Spec (At (· = T)) (execPipeline segs) (fun _ ↦ At (· = T)) := by
  refine (resolveAll_spec segs).bind fun resolved ↦ ?_
  cases resolved with
  | none => exact pure_spec _
  | some segs =>
    refine (dupStd_spec (k := 0) hT.isOpen (by decide) ⟨3, hT.free 3 (by decide)⟩).bind fun s₀ ↦ ?_
    rintro w ⟨hlive, hloading, i₀, f₀, rfl, hle₀, hi₀, hf₀, htable⟩
    have hstd₀ := update_std T hle₀ (some f₀)
    obtain ⟨j, hj, hne, -⟩ := exists_third_slot i₀ i₀
    refine ((dupStd_spec (k := 1) (fun i hi ↦ hstd₀ i hi ▸ hT.isOpen i hi) (by decide)
      ⟨j, by rw [update_of_ne hne, hT.free j hj]⟩).bind fun s₁ ↦ ?_)
      w ⟨hlive, hloading, htable⟩
    rintro w ⟨hlive, hloading, i₁, f₁, rfl, hle₁, hi₁, hf₁, htable⟩
    have hstd₁ := update_std (update T i₀ (some f₀)) hle₁ (some f₁)
    obtain ⟨j, hj, hne, hne'⟩ := exists_third_slot i₀ i₁
    refine ((dupStd_spec (k := 2) (fun i hi ↦ hstd₁ i hi ▸ hstd₀ i hi ▸ hT.isOpen i hi) (by decide)
      ⟨j, by rw [update_of_ne hne', update_of_ne hne, hT.free j hj]⟩).bind
        fun s₂ ↦ ?_) w ⟨hlive, hloading, htable⟩
    rintro w ⟨hlive, hloading, i₂, f₂, rfl, hle₂, hi₂, hf₂, htable⟩
    have hstd₂ := update_std (update (update T i₀ (some f₀)) i₁ (some f₁)) hle₂
      (some f₂)
    rw [if_neg (by omega)]
    have hnil : Owns T 3 [] T := owns_nil_iff.mpr rfl
    have howns := ((hnil.insert hle₀ hi₀ (f := f₀)).insert hle₁ hi₁ (f := f₁)).insert hle₂ hi₂
      (f := f₂)
    have hne₁ : i₀ ≠ i₁ := ne_of_update_eq_none hi₁
    have hne₂ : i₁ ≠ i₂ := ne_of_update_eq_none hi₂
    have hne₃ : i₀ ≠ i₂ := by
      rw [update_of_ne hne₂.symm] at hi₂
      exact ne_of_update_eq_none hi₂
    have hsaved : Saved (update (update (update T i₀ (some f₀)) i₁
        (some f₁)) i₂ (some f₂)) i₀ i₁ i₂ := by
      refine ⟨hle₀, hle₁, hle₂, ?_, ?_, ?_, fun k hk ↦ ?_⟩
      · rw [update_of_ne hne₃, update_of_ne hne₁, update_self,
          hstd₂ 0 (by decide), hstd₁ 0 (by decide), hstd₀ 0 (by decide), hf₀]
      · rw [update_of_ne hne₂, update_self, hstd₂ 1 (by decide), hstd₁ 1 (by decide), hf₁]
      · rw [update_self, hstd₂ 2 (by decide), hf₂]
      · rw [hstd₂ k hk, hstd₁ k hk, hstd₀ k hk]
        exact hT.isOpen k hk
    have hperm : [(i₂.val : ℤ), (i₁.val : ℤ), (i₀.val : ℤ)].Perm
        [(i₀.val : ℤ), (i₁.val : ℤ), (i₂.val : ℤ)] := reverse_perm [(i₀.val : ℤ), (i₁.val : ℤ), (i₂.val : ℤ)]
    exact savedStages_spec hsaved (howns.perm hperm) segs w ⟨hlive, hloading, htable⟩

theorem commandLines_spec (hT : Boot T) (lines : List (List Seg)) :
    Spec (At (· = T)) (commandLines lines) (fun _ ↦ At (· = T)) := by
  induction lines with
  | nil => exact pure_spec _
  | cons segs lines ih => exact (execPipeline_spec hT segs).bind fun _ ↦ ih

end CommandLines

/-- After any command lines, with any calls failing and any other tasks running, the descriptor
table of the shell is as it was, provided that no `execve` opens its image between the open and the
close of `elf_exec`. -/
theorem table_survives_commands {w : World} (hlive : w.sys.alive shell = true)
    (hloading : w.loading = false) (hboot : Boot w.table) (lines : List (List Seg))
    {schedule : List (Step Choice Event)}
    (hmeets : machine.Meets Undisturbed (w, commandLines lines) schedule)
    (hend : (machine.run (w, commandLines lines) schedule).2.result? = some ()) :
    (machine.run (w, commandLines lines) schedule).1.table = w.table := by
  have hspec := commandLines_spec hboot lines
  exact (hspec.run (fun _ _ ↦ rely_interfere) ⟨hlive, hloading, rfl⟩ hmeets hend).2.2

/-! ## Two programs in a pipeline -/

/-- A tree with one program, `/a`. -/
def bootNodes : Heap Node :=
  (Finmap.singleton 1 ⟨[], .dir, 0o755, fun _ ↦ 0, 0, 0, none, none, none, some 2⟩).insert 2
    ⟨[97], .file, 0o755, fun _ ↦ 0, 0, 0, none, some 1, none, none⟩

/-- Only the shell runs, with its standard descriptors on one file. -/
def bootWorld : World where
  sys :=
    { vfs :=
        { root := 1
          nodes := bootNodes
          files := Finmap.singleton 1 ⟨some 2, none, 0, O_RDWR, 3⟩
          pipes := ∅
          fds := fun i ↦ if i.1 = shell ∧ i.2.val < 3 then some 1 else none
          current := none }
      alive := fun task ↦ task == shell }
  elfFd := -1
  loading := false

/-- The command line `/a | /a`. -/
def twoStages : List Seg :=
  [⟨[[47, 97]], fun _ ↦ none, none⟩, ⟨[[47, 97]], fun _ ↦ none, none⟩]

/-- The `n`-th call of the shell finds memory, and starts task 1 or task 2. -/
def shellStep (n : ℕ) : Step Choice Event :=
  .go
    { file := some (10 + n), pipe := some 1, readEnd := some 2, writeEnd := some 3
      status := 2, child := if n < 12 then 1 else 2 }

/-- After `n` calls of the shell, the first program opens its `execve` image; both programs exit
before the shell waits. -/
def pipelineSchedule (n : ℕ) : List (Step Choice Event) :=
  (List.range n).map shellStep ++
    [.other (.execve 1 (some [47, 97]) none (some 100))] ++
    (List.range' n (24 - n)).map shellStep ++
    [.other (.call 1 .exit), .other (.call 2 .exit)] ++
    (List.range' 24 5).map shellStep

theorem table_survives_commands_twoStages :
    (machine.run (bootWorld, commandLines [twoStages]) (pipelineSchedule 12)).1.table =
      bootWorld.table := by
  refine table_survives_commands rfl rfl ⟨?_, ?_⟩ _ ?_ ?_
  · decide +kernel
  · decide +kernel
  · decide +kernel
  · decide +kernel

/-- When the `execve` comes while the shell loads the second program, `elf_exec` closes the other
task's descriptor number in the table of the shell, and the image stays open in slot 6. -/
theorem execve_steals_image :
    let final := machine.run (bootWorld, commandLines [twoStages]) (pipelineSchedule 19)
    final.2.result? = some () ∧ bootWorld.table 6 = none ∧ final.1.table 6 = some 27 := by
  decide +kernel

end ToastyUnix.Shell
