import ToastyUnix.Vfs.Tree

/-!
# Descriptor tables

The calls that create, share and drop open file descriptions. A description counts the slots that
refer to it, and a pipe counts the slots per end; the last `file_unref` frees the description, and
the pipe once both of its counts are zero. Following a dangling pointer has no modelled effect;
the reference counting results say that the calls never do.
-/

namespace ToastyUnix.Vfs

open Errno Finmap Function List Option

/-- The count of one end of a pipe. -/
def Pipe.refs (p : Pipe) (writeEnd : Bool) : ℤ := if writeEnd then p.refsW else p.refsR

/-- Change the count of one end of a pipe. -/
def Pipe.addRefs (p : Pipe) (writeEnd : Bool) (delta : ℤ) : Pipe :=
  if writeEnd then { p with refsW := p.refsW + delta } else { p with refsR := p.refsR + delta }

/-- Change the count of the pipe end that `f` stands for, if any. -/
def bumpPipe (pipes : Heap Pipe) (f : File) (delta : ℤ) : Heap Pipe :=
  match f.pipe with
  | none => pipes
  | some p =>
    match pipes.lookup p with
    | none => pipes
    | some pipe => pipes.insert p (pipe.addRefs f.isWriteEnd delta)

/-- `file_ref`. -/
def fileRef (s : State) (a : Addr) : State :=
  match s.files.lookup a with
  | none => s
  | some f =>
    { s with
      files := s.files.insert a { f with refs := f.refs + 1 }
      pipes := bumpPipe s.pipes f 1 }

/-- The pipe is freed once neither end is referenced. -/
def dropPipe (pipes : Heap Pipe) (f : File) : Heap Pipe :=
  match f.pipe with
  | none => pipes
  | some p =>
    if (pipes.lookup p).any fun pipe ↦ pipe.refsR == 0 && pipe.refsW == 0 then pipes.erase p
    else pipes

/-- `file_unref`. -/
def fileUnref (s : State) (a : Addr) : State :=
  match s.files.lookup a with
  | none => s
  | some f =>
    let pipes := bumpPipe s.pipes f (-1)
    if f.refs - 1 = 0 then { s with files := s.files.erase a, pipes := dropPipe pipes f }
    else { s with files := s.files.insert a { f with refs := f.refs - 1 }, pipes := pipes }

/-- The first free slot from `first` on. -/
def freeSlot (s : State) (task : TaskId) (first : ℕ) : Option Slot :=
  (finRange vfsMaxFds).find? fun i ↦ decide (first ≤ i.val) && (s.fds (task, i)).isNone

/-- `fd_alloc`. -/
def fdAlloc (s : State) (f : Addr) : ℤ × State :=
  match s.current with
  | none => (-EBADF, s)
  | some task =>
    match freeSlot s task 3 with
    | none => (-ENOMEM, s)
    | some i => ((i.val : ℤ), s.setFd (task, i) (some f))

/-- The node that `vfs_open` works on: found, or created under `O_CREAT`. -/
def openNode (s : State) (path : List UInt8) (flags : BitVec 32) (choice : Option Addr) :
    Option Addr × State :=
  match vfsLookup s path with
  | some node => (some node, s)
  | none => if flags &&& O_CREAT ≠ 0 then vfsCreateFile s path choice else (none, s)

/-- `node->size = 0` for a regular file opened with `O_TRUNC`. -/
def truncateOnOpen (n : Node) (flags : BitVec 32) : Node :=
  if n.type = .file ∧ flags &&& O_TRUNC ≠ 0 then { n with size := 0 } else n

/-- The description that `vfs_open` sets up for a node. -/
def openFile (node : Addr) (n : Node) (flags : BitVec 32) : File :=
  ⟨some node, none, if flags &&& O_APPEND ≠ 0 then n.size else 0, flags, 1⟩

/-- `vfs_open`. When no slot is free the description stays allocated. -/
def vfsOpen (s : State) (path : Option (List UInt8)) (flags : BitVec 32)
    (nodeChoice fileChoice : Option Addr) : ℤ × State :=
  match path with
  | none => (-EINVAL, s)
  | some path =>
    match openNode s path flags nodeChoice with
    | (none, s) => (-ENOENT, s)
    | (some node, s) =>
      match s.nodes.lookup node with
      | none => (-ENOENT, s) -- not reached: the node was just found or created
      | some n =>
        if n.type = .dir ∧ flags &&& (O_WRONLY ||| O_RDWR) ≠ 0 then (-EISDIR, s)
        else
          let n := truncateOnOpen n flags
          let s := { s with nodes := s.nodes.insert node n }
          match kmalloc s.files fileChoice with
          | none => (-ENOMEM, s)
          | some f => fdAlloc { s with files := s.files.insert f (openFile node n flags) } f

/-- `vfs_close`. -/
def vfsClose (s : State) (fd : ℤ) : ℤ × State :=
  match s.current, slotOf fd with
  | some task, some i =>
    match s.fds (task, i) with
    | none => (-EBADF, s)
    | some f => (0, fileUnref (s.setFd (task, i) none) f)
  | _, _ => (-EBADF, s)

/-- `vfs_dup`. -/
def vfsDup (s : State) (oldfd : ℤ) : ℤ × State :=
  match s.current, slotOf oldfd with
  | some task, some old =>
    match s.fds (task, old) with
    | none => (-EBADF, s)
    | some f =>
      match freeSlot s task 0 with
      | none => (-ENOMEM, s)
      | some i => ((i.val : ℤ), fileRef (s.setFd (task, i) (some f)) f)
  | _, _ => (-EBADF, s)

/-- `vfs_dup2`. -/
def vfsDup2 (s : State) (oldfd newfd : ℤ) : ℤ × State :=
  match s.current, slotOf oldfd with
  | some task, some old =>
    match s.fds (task, old) with
    | none => (-EBADF, s)
    | some f =>
      match slotOf newfd with
      | none => (-EBADF, s)
      | some new =>
        if oldfd = newfd then (newfd, s)
        else
          -- The target is closed first.
          let s := match s.fds (task, new) with
            | none => s
            | some g => fileUnref s g
          (newfd, fileRef (s.setFd (task, new) (some f)) f)
  | _, _ => (-EBADF, s)

/-- The two descriptions of a new pipe. -/
def pipeFile (p : Addr) (flags : BitVec 32) : File := ⟨none, some p, 0, flags, 1⟩

/-- `tbl[fd] = NULL` for a descriptor number that is in range. -/
def clearFd (s : State) (task : TaskId) (fd : ℤ) : State :=
  match slotOf fd with
  | none => s
  | some i => s.setFd (task, i) none

/-- The second half of `vfs_pipe`: put the two descriptions into slots, or undo everything. -/
def installPipe (s : State) (task : TaskId) (p r w : Addr) : ℤ × Option (ℤ × ℤ) × State :=
  let (a, s) := fdAlloc s r
  let (b, s) := fdAlloc s w
  if a < 0 ∨ b < 0 then
    let s := clearFd (clearFd s task a) task b
    (-ENOMEM, none, { s with files := (s.files.erase r).erase w, pipes := s.pipes.erase p })
  else (0, some (a, b), s)

/-- `vfs_pipe`, with the two descriptors it stores on success. A failed allocation frees the blocks
before it again, which leaves the state as it was. -/
def vfsPipe (s : State) (pipeChoice readChoice writeChoice : Option Addr) :
    ℤ × Option (ℤ × ℤ) × State :=
  match s.current with
  | none => (-EBADF, none, s)
  | some task =>
    match kmalloc s.pipes pipeChoice with
    | none => (-ENOMEM, none, s)
    | some p =>
      match kmalloc s.files readChoice with
      | none => (-ENOMEM, none, s)
      | some r =>
        let files := s.files.insert r (pipeFile p O_RDONLY)
        match kmalloc files writeChoice with
        | none => (-ENOMEM, none, s)
        | some w =>
          installPipe
            { s with
              pipes := s.pipes.insert p Pipe.fresh
              files := files.insert w (pipeFile p O_WRONLY) } task p r w

/-- One round of the loop of `vfs_close_all`. -/
def closeSlot (task : TaskId) (s : State) (i : Slot) : State :=
  match s.fds (task, i) with
  | none => s
  | some f => (fileUnref s f).setFd (task, i) none

/-- `vfs_close_all`. -/
def vfsCloseAll (s : State) : State :=
  match s.current with
  | none => s
  | some task => (finRange vfsMaxFds).foldl (closeSlot task) s

/-- One round of the loop of `vfs_fd_inherit`. -/
def inheritSlot (dst src : TaskId) (s : State) (i : Slot) : State :=
  let s := s.setFd (dst, i) none
  match s.fds (src, i) with
  | none => s
  | some f => fileRef (s.setFd (dst, i) (some f)) f

/-- `vfs_fd_inherit(dst, src)`. -/
def vfsFdInherit (s : State) (dst src : TaskId) : State :=
  (finRange vfsMaxFds).foldl (inheritSlot dst src) s

@[simp]
theorem fileUnref_fds (s : State) (a : Addr) : (fileUnref s a).fds = s.fds := by
  unfold fileUnref
  split
  · rfl
  · dsimp only
    split_ifs <;> rfl

@[simp]
theorem fileRef_fds (s : State) (a : Addr) : (fileRef s a).fds = s.fds := by
  unfold fileRef
  split <;> rfl

/-- The two states hold the same tree in the same nodes. -/
def SameNodes (s s' : State) : Prop := s'.root = s.root ∧ s'.nodes = s.nodes

theorem SameNodes.refl (s : State) : SameNodes s s := ⟨rfl, rfl⟩

theorem SameNodes.trans {s t u : State} (h : SameNodes s t) (h' : SameNodes t u) : SameNodes s u :=
  ⟨h'.1.trans h.1, h'.2.trans h.2⟩

theorem foldl_sameNodes {step : State → Slot → State} (hstep : ∀ s i, SameNodes s (step s i))
    (slots : List Slot) (s : State) : SameNodes s (slots.foldl step s) := by
  induction slots generalizing s with
  | nil => exact .refl s
  | cons i slots ih => exact (hstep s i).trans (ih _)

/-- The nodes are the same, and the descriptions of `s'` are those of `s` up to their counts. -/
structure Recounts (s s' : State) : Prop where
  sameNodes : SameNodes s s'
  files : ∀ a f', s'.files.lookup a = some f' →
    ∃ f refs, s.files.lookup a = some f ∧ f' = { f with refs := refs }

namespace Recounts

variable {s t u : State}

theorem refl (s : State) : Recounts s s := ⟨.refl s, fun _ f hf ↦ ⟨f, f.refs, hf, rfl⟩⟩

theorem setFd (s : State) (i : TaskId × Slot) (f : Option Addr) : Recounts s (s.setFd i f) :=
  ⟨⟨rfl, rfl⟩, (refl s).files⟩

theorem trans (h : Recounts s t) (h' : Recounts t u) : Recounts s u := by
  refine ⟨h.sameNodes.trans h'.sameNodes, fun a f'' hf'' ↦ ?_⟩
  obtain ⟨f', refs', hf', rfl⟩ := h'.files a f'' hf''
  obtain ⟨f, refs, hf, rfl⟩ := h.files a f' hf'
  exact ⟨f, refs', hf, rfl⟩

theorem insert {a : Addr} {f : File} (hf : s.files.lookup a = some f) (refs : ℤ)
    (pipes : Heap Pipe) :
    Recounts s { s with files := s.files.insert a { f with refs := refs }, pipes := pipes } := by
  refine ⟨⟨rfl, rfl⟩, fun b g hg ↦ ?_⟩
  by_cases hb : b = a
  · subst hb
    exact ⟨f, refs, hf, some.inj (hg.symm.trans (lookup_insert _))⟩
  · exact ⟨g, g.refs, (lookup_insert_of_ne _ hb).symm.trans hg, rfl⟩

theorem fileRef (s : State) (a : Addr) : Recounts s (fileRef s a) := by
  unfold Vfs.fileRef
  split
  · exact .refl s
  case h_2 f hf => exact .insert hf _ _

theorem fileUnref (s : State) (a : Addr) : Recounts s (fileUnref s a) := by
  unfold Vfs.fileUnref
  split
  · exact .refl s
  case h_2 f hf =>
    dsimp only
    split_ifs
    · refine ⟨⟨rfl, rfl⟩, fun b g hg ↦ ?_⟩
      have hb : b ≠ a := by
        rintro rfl
        simp at hg
      exact ⟨g, g.refs, (lookup_erase_ne hb).symm.trans hg, rfl⟩
    · exact .insert hf _ _

end Recounts

/-- Clear slot `i` and drop the reference it held. -/
def State.detach (s : State) (i : TaskId × Slot) (a : Addr) : State := fileUnref (s.setFd i none) a

/-- Let slot `i` refer to description `a` and count the reference. -/
def State.attach (s : State) (i : TaskId × Slot) (a : Addr) : State :=
  fileRef (s.setFd i (some a)) a

/-- What calls on slots are made of: slots are emptied, free slots of `D` get the description of a
slot of `S`, and slots of `L` are overwritten. -/
inductive Shifts (S D L : Set (TaskId × Slot)) (s : State) : State → Prop
  | refl : Shifts S D L s s
  | detach {t : State} {i : TaskId × Slot} {a : Addr} (h : Shifts S D L s t)
      (hi : t.fds i = some a) : Shifts S D L s (t.detach i a)
  | attach {t : State} {i k : TaskId × Slot} {a : Addr} (h : Shifts S D L s t)
      (hown : i ∈ S) (hi : t.fds i = some a) (hto : k ∈ D) (hk : t.fds k = none) :
      Shifts S D L s (t.attach k a)
  | clear {t : State} {k : TaskId × Slot} (h : Shifts S D L s t) (hlost : k ∈ L) :
      Shifts S D L s (t.setFd k none)

/-- The slots of the current task. -/
def State.own (s : State) : Set (TaskId × Slot) := {k | s.current = some k.1}

variable {s t : State} {task dst : TaskId} {k : TaskId × Slot} {i : Slot}
  {S D L : Set (TaskId × Slot)}

theorem Shifts.recounts (h : Shifts S D L s t) : Recounts s t := by
  induction h with
  | refl => exact .refl s
  | detach _ _ ih => exact ih.trans ((Recounts.setFd _ _ _).trans (.fileUnref _ _))
  | attach _ _ _ _ _ ih => exact ih.trans ((Recounts.setFd _ _ _).trans (.fileRef _ _))
  | clear _ _ ih => exact ih.trans (.setFd _ _ _)

theorem fileUnref_setFd (s : State) (i : TaskId × Slot) (a : Addr) :
    (fileUnref s a).setFd i none = s.detach i a := by
  cases hf : s.files.lookup a with
  | none => simp [State.detach, fileUnref, State.setFd, hf]
  | some f =>
    simp only [State.detach, fileUnref, State.setFd, hf]
    split_ifs <;> rfl

theorem detach_fds {i : TaskId × Slot} {a : Addr} :
    (s.detach i a).fds = update s.fds i none := by
  rw [State.detach, fileUnref_fds, State.setFd]

theorem slotOf_inj {fd fd' : ℤ} (h : slotOf fd = some i) (h' : slotOf fd' = some i) : fd = fd' := by
  simp only [slotOf, dite_none_right_eq_some, some.injEq, Fin.ext_iff] at h h'
  obtain ⟨hrange, hval⟩ := h
  obtain ⟨hrange', hval'⟩ := h'
  omega

theorem freeSlot_eq_some {first : ℕ} (h : freeSlot s task first = some i) :
    first ≤ i.val ∧ s.fds (task, i) = none := by
  have hfound := find?_some h
  simpa using hfound

theorem vfsClose_shifts (s : State) (fd : ℤ) : Shifts s.own ∅ ∅ s (vfsClose s fd).2 := by
  unfold vfsClose
  split
  · split
    · exact .refl
    case h_2 hi => exact .detach .refl hi
  · exact .refl

theorem vfsDup_shifts (s : State) (oldfd : ℤ) : Shifts s.own s.own ∅ s (vfsDup s oldfd).2 := by
  unfold vfsDup
  split
  case h_1 hcurrent _ =>
    split
    · exact .refl
    case h_2 hold =>
      split
      · exact .refl
      case h_2 hfree => exact .attach .refl hcurrent hold hcurrent (freeSlot_eq_some hfree).2
  · exact .refl

theorem vfsDup2_shifts (s : State) (oldfd newfd : ℤ) :
    Shifts s.own {k ∈ s.own | slotOf newfd = some k.2} ∅ s (vfsDup2 s oldfd newfd).2 := by
  unfold vfsDup2
  split
  case h_1 task old hcurrent hold =>
    split
    · exact .refl
    case h_2 f hf =>
      split
      · exact .refl
      case h_2 new hnew =>
        split_ifs with hsame
        · exact .refl
        · have hne : (task, old) ≠ (task, new) := by
            intro heq
            obtain rfl : old = new := (Prod.mk.inj heq).2
            exact hsame (slotOf_inj hold hnew)
          dsimp only
          split
          case h_1 hfree => exact .attach .refl hcurrent hf ⟨hcurrent, hnew⟩ hfree
          case h_2 g hg =>
            -- Closing the target first leaves the source slot.
            have hshifts := Shifts.attach (k := (task, new)) (S := s.own)
              (D := {k ∈ s.own | slotOf newfd = some k.2}) (L := ∅) (.detach .refl hg) hcurrent
              (by rw [detach_fds, update_of_ne hne, hf]) ⟨hcurrent, hnew⟩
              (by rw [detach_fds, update_self])
            rwa [State.attach, ← fileUnref_setFd, State.setFd_setFd] at hshifts
  · exact .refl

theorem vfsCloseAll_shifts (s : State) : Shifts s.own ∅ ∅ s (vfsCloseAll s) := by
  unfold vfsCloseAll
  split
  · exact .refl
  case h_2 task _ =>
    have hslots : ∀ (slots : List Slot) (t : State), Shifts s.own ∅ ∅ s t →
        Shifts s.own ∅ ∅ s (slots.foldl (closeSlot task) t) := by
      intro slots
      induction slots with
      | nil => exact fun t h ↦ h
      | cons i slots ih =>
        refine fun t h ↦ ih _ ?_
        unfold closeSlot
        split
        · exact h
        case h_2 hi =>
          rw [fileUnref_setFd]
          exact .detach h hi
    exact hslots _ s .refl

theorem inheritSlot_fds (src : TaskId) (s : State) (i : Slot) (hk : k ≠ (dst, i)) :
    (inheritSlot dst src s i).fds k = s.fds k := by
  unfold inheritSlot
  dsimp only
  split <;> simp [State.setFd, hk]

/-- A descriptor that was in the table before is lost. -/
theorem inheritSlots_shifts {src : TaskId} {slots : List Slot} (hnodup : slots.Nodup)
    (hlost : ∀ i ∈ slots, t.fds (dst, i) ≠ none → (dst, i) ∈ L)
    (h : Shifts {k | k.1 = src} {k | k.1 = dst} L s t) :
    Shifts {k | k.1 = src} {k | k.1 = dst} L s (slots.foldl (inheritSlot dst src) t) := by
  induction slots generalizing t with
  | nil => exact h
  | cons i slots ih =>
    obtain ⟨hnotMem, hnodup⟩ := nodup_cons.mp hnodup
    refine ih hnodup (fun j hj ↦ ?_) ?_
    · rw [inheritSlot_fds src t i fun heq ↦ hnotMem ((Prod.mk.inj heq).2 ▸ hj)]
      exact hlost j (mem_cons_of_mem _ hj)
    · have hclear : Shifts {k | k.1 = src} {k | k.1 = dst} L s (t.setFd (dst, i) none) := by
        by_cases hfree : t.fds (dst, i) = none
        · rwa [State.setFd_none_of_free hfree]
        · exact .clear h (hlost i mem_cons_self hfree)
      unfold inheritSlot
      dsimp only
      split
      · exact hclear
      case h_2 hsrc => exact .attach hclear rfl hsrc rfl (by simp [State.setFd])

theorem vfsFdInherit_shifts (src : TaskId) (hlost : ∀ i, s.fds (dst, i) ≠ none → (dst, i) ∈ L) :
    Shifts {k | k.1 = src} {k | k.1 = dst} L s (vfsFdInherit s dst src) :=
  inheritSlots_shifts (nodup_finRange _) (fun i _ ↦ hlost i) .refl

theorem vfsFdInherit_recounts (s : State) (dst src : TaskId) :
    Recounts s (vfsFdInherit s dst src) :=
  (vfsFdInherit_shifts (L := Set.univ) src fun _ _ ↦ trivial).recounts

theorem closeSlot_fds (task : TaskId) (s : State) (i : Slot) :
    (closeSlot task s i).fds = update s.fds (task, i) none := by
  unfold closeSlot
  split
  case h_1 hfree => rw [← hfree, update_eq_self]
  case h_2 => rw [State.setFd, fileUnref_fds]

theorem vfsCloseAll_fds (hcurrent : s.current = some task) (k : TaskId × Slot) :
    (vfsCloseAll s).fds k = if k.1 = task then none else s.fds k := by
  have hslots : ∀ (slots : List Slot) (s : State), (slots.foldl (closeSlot task) s).fds k =
      if k.1 = task ∧ k.2 ∈ slots then none else s.fds k := by
    intro slots
    induction slots with
    | nil => simp
    | cons i slots ih =>
      intro s
      rw [foldl_cons, ih, closeSlot_fds, update_apply]
      simp only [mem_cons, Prod.ext_iff]
      split_ifs <;> first | rfl | tauto
  simp [vfsCloseAll, hcurrent, hslots]

theorem vfsFdInherit_fds_of_ne (s : State) (src : TaskId) (hk : k.1 ≠ dst) :
    (vfsFdInherit s dst src).fds k = s.fds k := by
  unfold vfsFdInherit
  induction finRange vfsMaxFds generalizing s with
  | nil => rfl
  | cons i slots ih =>
    rw [foldl_cons, ih]
    exact inheritSlot_fds src s i fun heq ↦ hk (congrArg Prod.fst heq)

/-- A new descriptor takes a free slot of the current task, or none is left. -/
theorem fdAlloc_cases (s : State) (f : Addr) :
    ((fdAlloc s f).1 < 0 ∧ (fdAlloc s f).2 = s) ∨
    ∃ task i, s.current = some task ∧ s.fds (task, i) = none ∧
      fdAlloc s f = ((i.val : ℤ), s.setFd (task, i) (some f)) := by
  unfold fdAlloc
  cases hcurrent : s.current with
  | none => exact .inl ⟨show -EBADF < 0 by decide, rfl⟩
  | some task =>
    dsimp only
    cases hslot : freeSlot s task 3 with
    | none => exact .inl ⟨show -ENOMEM < 0 by decide, rfl⟩
    | some i => exact .inr ⟨task, i, rfl, (freeSlot_eq_some hslot).2, rfl⟩

theorem openNode_nodes {s' : State} {path : List UInt8} {flags : BitVec 32}
    {choice node : Option Addr} (h : openNode s path flags choice = (node, s')) :
    ∃ nodes, s' = { s with nodes := nodes } := by
  unfold openNode at h
  split at h
  · exact ⟨s.nodes, (Prod.mk.inj h).2.symm⟩
  · split_ifs at h
    · obtain ⟨nodes, hnodes⟩ := vfsCreate_nodes s path .file 0o644 none choice
      exact ⟨nodes, (congrArg Prod.snd h).symm.trans hnodes⟩
    · exact ⟨s.nodes, (Prod.mk.inj h).2.symm⟩

/-- What `vfs_open` does behind the lookup or creation of the node: at most it truncates it,
allocates a description and stores that in a free slot. -/
theorem vfsOpen_cases (s : State) (path : Option (List UInt8)) (flags : BitVec 32)
    (nodeChoice fileChoice : Option Addr) :
    (vfsOpen s path flags nodeChoice fileChoice).2 = s ∨
    ∃ p node s' nodes, path = some p ∧ openNode s p flags nodeChoice = (node, s') ∧
      SameShape s'.nodes nodes ∧
      ((vfsOpen s path flags nodeChoice fileChoice).2 = { s' with nodes := nodes } ∨
      ∃ x f file, node = some x ∧ x ∈ nodes ∧ s'.files.lookup f = none ∧ file.node = some x ∧
        file.pipe = none ∧ file.refs = 1 ∧ ((vfsOpen s path flags nodeChoice fileChoice).2 =
          { s' with nodes := nodes, files := s'.files.insert f file } ∨
        ∃ task i, s'.current = some task ∧ s'.fds (task, i) = none ∧
          (vfsOpen s path flags nodeChoice fileChoice).2 =
            { s' with nodes := nodes, files := s'.files.insert f file }.setFd (task, i)
              (some f))) := by
  unfold vfsOpen
  cases path with
  | none => exact .inl rfl
  | some p =>
    refine .inr ?_
    dsimp only
    obtain ⟨node, s', hnode⟩ : ∃ node s', openNode s p flags nodeChoice = (node, s') := ⟨_, _, rfl⟩
    refine ⟨p, node, s', ?_⟩
    rw [hnode]
    cases node with
    | none => exact ⟨s'.nodes, rfl, rfl, fun _ ↦ rfl, .inl rfl⟩
    | some x =>
      dsimp only
      cases hx : s'.nodes.lookup x with
      | none => exact ⟨s'.nodes, rfl, rfl, fun _ ↦ rfl, .inl rfl⟩
      | some n =>
        dsimp only
        split_ifs with hdir
        · exact ⟨s'.nodes, rfl, rfl, fun _ ↦ rfl, .inl rfl⟩
        · have hshape : SameShape s'.nodes (s'.nodes.insert x (truncateOnOpen n flags)) := by
            refine sameShape_insert hx ?_
            unfold truncateOnOpen
            split_ifs <;> rfl
          refine ⟨_, rfl, rfl, hshape, ?_⟩
          cases hf : kmalloc s'.files fileChoice with
          | none => exact .inl rfl
          | some f =>
            refine .inr ⟨x, f, openFile x (truncateOnOpen n flags) flags, rfl,
              mem_insert.mpr (.inl rfl), lookup_of_kmalloc hf, rfl, rfl, rfl, ?_⟩
            rcases fdAlloc_cases _ f with ⟨-, hfull⟩ | ⟨task, i, hcurrent, hfree, halloc⟩
            · exact .inl hfull
            · exact .inr ⟨task, i, hcurrent, hfree, congrArg Prod.snd halloc⟩

theorem slotOf_val (i : Slot) : slotOf (i.val : ℤ) = some i := by
  have hi : (0 : ℤ) ≤ i.val ∧ (i.val : ℤ) < vfsMaxFds := ⟨by positivity, by exact_mod_cast i.isLt⟩
  simp [slotOf]

theorem clearFd_of_neg {fd : ℤ} (h : fd < 0) : clearFd s task fd = s := by
  have hslot : slotOf fd = none := by
    rw [slotOf, dif_neg (by omega)]
  rw [clearFd, hslot]

theorem clearFd_setFd {f : Addr} (h : s.fds (task, i) = none) :
    clearFd (s.setFd (task, i) (some f)) task i.val = s := by
  rw [clearFd, slotOf_val]
  exact (s.setFd_setFd _ _ _).trans (State.setFd_none_of_free h)

theorem erase_insert_of_fresh {β : Type} {heap : Heap β} {r w : Addr} {x y : β} (hrw : r ≠ w)
    (hr : heap.lookup r = none) (hw : heap.lookup w = none) :
    (((heap.insert r x).insert w y).erase r).erase w = heap := by
  refine ext_lookup fun b ↦ ?_
  by_cases hbw : b = w
  · rw [hbw, lookup_erase, hw]
  · by_cases hbr : b = r
    · rw [hbr, lookup_erase_ne hrw, lookup_erase, hr]
    · simp [hbw, hbr]

/-- The two new descriptions take two free slots, or only the blocks are freed again. -/
theorem installPipe_cases (s : State) (hcurrent : s.current = some task) (p r w : Addr) :
    (installPipe s task p r w).2.2 =
      { s with files := (s.files.erase r).erase w, pipes := s.pipes.erase p } ∨
    ∃ i j, i ≠ j ∧ s.fds (task, i) = none ∧ s.fds (task, j) = none ∧
      (installPipe s task p r w).2.2 =
        (s.setFd (task, i) (some r)).setFd (task, j) (some w) := by
  unfold installPipe
  rcases fdAlloc_cases s r with ⟨hneg, hsame⟩ | ⟨task₁, i, hcur, hi, halloc⟩
  · simp only [hneg, hsame, true_or, if_true, clearFd_of_neg hneg]
    rcases fdAlloc_cases s w with ⟨hneg', hsame'⟩ | ⟨task₂, j, hcur', hj, halloc'⟩
    · simp only [hsame', clearFd_of_neg hneg', true_or]
    · obtain rfl : task = task₂ := some.inj (hcurrent.symm.trans hcur')
      simp only [halloc', clearFd_setFd hj, true_or]
  · obtain rfl : task = task₁ := some.inj (hcurrent.symm.trans hcur)
    rw [halloc]
    dsimp only
    rcases fdAlloc_cases (s.setFd (task, i) (some r)) w with
      ⟨hneg', hsame'⟩ | ⟨task₂, j, hcur', hj, halloc'⟩
    · simp only [hneg', hsame', or_true, if_true, clearFd_setFd hi, clearFd_of_neg hneg', true_or]
    · obtain rfl : task = task₂ := some.inj (hcurrent.symm.trans hcur')
      have hij : i ≠ j := by
        rintro rfl
        simp [State.setFd] at hj
      have hj' : s.fds (task, j) = none := by
        simpa [State.setFd, hij.symm] using hj
      refine .inr ⟨i, j, hij, hi, hj', ?_⟩
      have hpos : ¬ ((i.val : ℤ) < 0 ∨ (j.val : ℤ) < 0) := by omega
      rw [halloc']
      dsimp only
      rw [if_neg hpos]

/-- `vfs_pipe` changes nothing, or puts the two ends of a new pipe into free slots. -/
theorem vfsPipe_cases (s : State) (pipeChoice readChoice writeChoice : Option Addr) :
    (vfsPipe s pipeChoice readChoice writeChoice).2.2 = s ∨
    ∃ p r w task i j, s.current = some task ∧ i ≠ j ∧ s.fds (task, i) = none ∧
      s.fds (task, j) = none ∧ r ≠ w ∧ s.pipes.lookup p = none ∧ s.files.lookup r = none ∧
      s.files.lookup w = none ∧
      (vfsPipe s pipeChoice readChoice writeChoice).2.2 =
        ({ s with
          pipes := s.pipes.insert p Pipe.fresh
          files := (s.files.insert r (pipeFile p O_RDONLY)).insert w
            (pipeFile p O_WRONLY) }.setFd (task, i) (some r)).setFd (task, j) (some w) := by
  unfold vfsPipe
  split
  · exact .inl rfl
  case h_2 task hcurrent =>
    cases hp : kmalloc s.pipes pipeChoice with
    | none => exact .inl rfl
    | some p =>
      dsimp only
      cases hr : kmalloc s.files readChoice with
      | none => exact .inl rfl
      | some r =>
        dsimp only
        cases hw : kmalloc (s.files.insert r (pipeFile p O_RDONLY)) writeChoice with
        | none => exact .inl rfl
        | some w =>
          have hp := lookup_of_kmalloc hp
          have hr := lookup_of_kmalloc hr
          have hw := lookup_of_kmalloc hw
          have hrw : r ≠ w := by
            rintro rfl
            simp at hw
          rw [lookup_insert_of_ne _ hrw.symm] at hw
          rcases installPipe_cases
            { s with
              pipes := s.pipes.insert p Pipe.fresh
              files := (s.files.insert r (pipeFile p O_RDONLY)).insert w (pipeFile p O_WRONLY) }
            hcurrent p r w with hundone | ⟨i, j, hij, hi, hj, hdone⟩
          · have hpipes : (s.pipes.insert p Pipe.fresh).erase p = s.pipes := by
              refine ext_lookup fun q ↦ ?_
              by_cases hq : q = p
              · rw [hq, lookup_erase, hp]
              · simp [hq]
            refine .inl (hundone.trans ?_)
            dsimp only
            rw [hpipes, erase_insert_of_fresh hrw hr hw]
          · exact .inr ⟨p, r, w, task, i, j, hcurrent, hij, hi, hj, hrw, hp, hr, hw, hdone⟩

theorem vfsPipe_sameNodes (s : State) (pipeChoice readChoice writeChoice : Option Addr) :
    SameNodes s (vfsPipe s pipeChoice readChoice writeChoice).2.2 := by
  rcases vfsPipe_cases s pipeChoice readChoice writeChoice with
    hsame | ⟨p, r, w, task, i, j, -, -, -, -, -, -, -, -, hpipe⟩
  · rw [hsame]
    exact .refl s
  · rw [hpipe]
    exact ⟨rfl, rfl⟩

end ToastyUnix.Vfs
