import ToastyUnix.Vfs.RefCount
import ToastyUnix.Vfs.Table

/-!
# Who can reach a pipe

A pipe is reached only through the descriptors for its ends, and a descriptor is only copied by the
task that has it. `Flows` says where the descriptors after a call come from and which pipes have
been written to; a task that is alone with its pipes stays alone, whatever the others do
(`Alone.step_other`).
-/

namespace ToastyUnix.Vfs

open Option Finmap Function

/-- The pipe behind a slot. -/
def State.pipeOf (s : State) (k : TaskId × Slot) : Option Addr :=
  (s.fds k).bind fun a ↦ (s.files.lookup a).bind File.pipe

/-- From `s` to `s'`, slots of `D` may have got descriptors of `src` or of a new pipe, pipes of `W`
may have been written to, and no more. -/
structure Flows (src : TaskId) (D : Set (TaskId × Slot)) (W : Set Addr) (s s' : State) : Prop where
  slot : ∀ k q, s'.pipeOf k = some q → s.pipeOf k = some q ∨
    k ∈ D ∧ ((∃ i, s.pipeOf (src, i) = some q) ∨ s.pipes.lookup q = none)
  pipe : ∀ q pipe', s'.pipes.lookup q = some pipe' →
    (s.pipes.lookup q = none ∧ pipe'.count = 0) ∨
    ∃ pipe, s.pipes.lookup q = some pipe ∧ (pipe'.count ≤ pipe.count ∨ q ∈ W)

namespace Flows

variable {src : TaskId} {D D' : Set (TaskId × Slot)} {W W' : Set Addr} {s t u : State}

theorem refl (s : State) : Flows src D W s s where
  slot _ _ h := .inl h
  pipe _ pipe h := .inr ⟨pipe, h, .inl le_rfl⟩

theorem mono (h : Flows src D W s t) (hD : D ⊆ D') (hW : W ⊆ W') : Flows src D' W' s t where
  slot k q hq := (h.slot k q hq).imp_right fun hk ↦ ⟨hD hk.1, hk.2⟩
  pipe q pipe' hq := (h.pipe q pipe' hq).imp_right fun ⟨pipe, hp, hc⟩ ↦
    ⟨pipe, hp, hc.imp_right fun hq ↦ hW hq⟩

end Flows

/-- From `s` to `s'`, descriptors have been closed, and slots of `D` may have got descriptors of
`src`. -/
structure Copies (src : TaskId) (D : Set (TaskId × Slot)) (s s' : State) : Prop where
  slot : ∀ k q, s'.pipeOf k = some q →
    s.pipeOf k = some q ∨ k ∈ D ∧ ∃ i, s.pipeOf (src, i) = some q
  pipe : ∀ q pipe', s'.pipes.lookup q = some pipe' →
    ∃ pipe, s.pipes.lookup q = some pipe ∧ pipe'.count ≤ pipe.count

namespace Copies

variable {src : TaskId} {D D' : Set (TaskId × Slot)} {s t u : State} {k : TaskId × Slot}
  {a : Addr}

theorem flows (h : Copies src D s t) (W : Set Addr) : Flows src D W s t where
  slot k q hq := (h.slot k q hq).imp_right fun hk ↦ ⟨hk.1, .inl hk.2⟩
  pipe q pipe' hq := .inr ((h.pipe q pipe' hq).imp fun _ hp ↦ ⟨hp.1, .inl hp.2⟩)

theorem refl (s : State) : Copies src D s s where
  slot _ _ h := .inl h
  pipe _ pipe h := ⟨pipe, h, le_rfl⟩

theorem mono (h : Copies src D s t) (hD : D ⊆ D') : Copies src D' s t where
  slot k q hq := (h.slot k q hq).imp_right fun hk ↦ ⟨hD hk.1, hk.2⟩
  pipe := h.pipe

theorem trans (h : Copies src D s t) (h' : Copies src D t u) : Copies src D s u where
  slot k q hq := by
    rcases h'.slot k q hq with hkeep | ⟨hk, i, hcopy⟩
    · exact h.slot k q hkeep
    · rcases h.slot (src, i) q hcopy with hkeep | ⟨-, hcopy⟩
      · exact .inr ⟨hk, i, hkeep⟩
      · exact .inr ⟨hk, hcopy⟩
  pipe q pipe'' hq := by
    obtain ⟨pipe', hp', hc'⟩ := h'.pipe q pipe'' hq
    obtain ⟨pipe, hp, hc⟩ := h.pipe q pipe' hp'
    exact ⟨pipe, hp, hc'.trans hc⟩

theorem bumped_count (f : File) (delta : ℤ) (q : Addr) (pipe : Pipe) :
    (bumped f delta q pipe).count = pipe.count := by
  unfold bumped Pipe.addRefs
  split_ifs <;> rfl

theorem detach (c : Counted s) (hk : s.fds k = some a) : Copies src D s (s.detach k a) := by
  obtain ⟨f, hf, hrefs, -⟩ := c.file k a hk
  refine ⟨fun j q hq ↦ .inl ?_, fun q pipe' hq ↦ ?_⟩
  · obtain ⟨b, hj, hb⟩ := bind_eq_some_iff.mp hq
    rw [detach_files_of_slot hf hrefs hk hj] at hb
    have hj' : s.fds j = some b := by
      rw [detach_fds] at hj
      by_cases hjk : j = k
      · simp [hjk] at hj
      · rwa [update_of_ne hjk] at hj
    rw [State.pipeOf, hj', bind_some]
    by_cases hba : b = a
    · rw [if_pos hba] at hb
      rw [hba, hf]
      exact hb
    · rwa [if_neg hba] at hb
  · rw [detach_pipes hf, bind_eq_some_iff] at hq
    obtain ⟨pipe, hpipe, hq⟩ := hq
    split_ifs at hq
    exact ⟨pipe, hpipe, by rw [← some.inj hq, bumped_count]⟩

theorem attach {i : Slot} (c : Counted s) (hi : s.fds (src, i) = some a) (hk : k ∈ D) :
    Copies src D s (s.attach k a) := by
  obtain ⟨f, hf, -, -⟩ := c.file (src, i) a hi
  have hfiles : ∀ b, ((s.files.insert a { f with refs := f.refs + 1 }).lookup b).bind File.pipe =
      (s.files.lookup b).bind File.pipe := fun b ↦ by
    by_cases hb : b = a
    · rw [hb, lookup_insert, hf]
      rfl
    · rw [lookup_insert_of_ne _ hb]
  rw [attach_eq hf]
  refine ⟨fun j q hq ↦ ?_, fun q pipe' hq ↦ ?_⟩
  · obtain ⟨b, hj, hb⟩ := bind_eq_some_iff.mp hq
    rw [hfiles b] at hb
    by_cases hjk : j = k
    · subst hjk
      obtain rfl : a = b := by simpa using hj
      exact .inr ⟨hk, i, by rw [State.pipeOf, hi, bind_some, hb]⟩
    · dsimp only at hj
      rw [update_of_ne hjk] at hj
      exact .inl (by rw [State.pipeOf, hj, bind_some, hb])
  · rw [lookup_bumpPipe, map_eq_some_iff] at hq
    obtain ⟨pipe, hpipe, rfl⟩ := hq
    exact ⟨pipe, hpipe, (bumped_count f 1 q pipe).le⟩

end Copies

section Calls

variable {s s' : State} {src task : TaskId}

theorem Shifts.copies {D : Set (TaskId × Slot)} (h : Shifts {k | k.1 = src} D ∅ s s')
    (c : Counted s) : Copies src D s s' := by
  induction h with
  | refl => exact .refl s
  | detach h hi ih => exact ih.trans (.detach (h.moves c).counted hi)
  | @attach _ i k a h hsrc hi hk _ ih =>
    obtain ⟨task, i⟩ := i
    obtain rfl : task = src := hsrc
    exact ih.trans (.attach (h.moves c).counted hi hk)
  | clear _ hlost => exact absurd hlost (Set.notMem_empty _)

theorem State.own_eq (hcurrent : s.current = some task) : s.own = {k | k.1 = task} := by
  ext k
  simp [State.own, hcurrent, eq_comm]

theorem vfsDup2_copies (c : Counted s) (hcurrent : s.current = some task) (oldfd newfd : ℤ) :
    Copies task {k | k.1 = task ∧ slotOf newfd = some k.2} s (vfsDup2 s oldfd newfd).2 :=
  (State.own_eq hcurrent ▸ vfsDup2_shifts s oldfd newfd).copies c

theorem Quiet.pipeOf (h : Quiet s s') (k : TaskId × Slot) : s'.pipeOf k = s.pipeOf k := by
  unfold State.pipeOf
  rw [h.fds]
  congr 1
  funext a
  have hlink := congrArg (Option.map fun l : Option Addr × Option Addr × BitVec 32 × ℤ ↦ l.2.1)
    (h.files a)
  rw [map_map, map_map] at hlink
  cases hf : s.files.lookup a <;> cases hf' : s'.files.lookup a <;> simp_all [File.link]

theorem Quiet.copies (h : Quiet s s') (hpipes : s'.pipes = s.pipes) : Copies src ∅ s s' where
  slot k q hq := .inl (by rwa [h.pipeOf] at hq)
  pipe q pipe hq := ⟨pipe, by rwa [hpipes] at hq, le_rfl⟩

theorem vfsOpen_copies (c : Counted s) (path : Option (List UInt8)) (flags : BitVec 32)
    (nodeChoice fileChoice : Option Addr) :
    Copies src ∅ s (vfsOpen s path flags nodeChoice fileChoice).2 := by
  rcases vfsOpen_cases s path flags nodeChoice fileChoice with
    hsame | ⟨p, node, s', nodes, -, hnode, -, hcases⟩
  · rw [hsame]
    exact .refl s
  obtain ⟨nodes', rfl⟩ := openNode_nodes hnode
  rcases hcases with hopen | ⟨x, f, file, -, -, hfresh, -, hpipe, -, hcases⟩
  · rw [hopen]
    exact (Quiet.nodes s nodes).copies rfl
  -- a new description is for no pipe, and no slot referred to its address before
  have hkeep : ∀ k b q, s.fds k = some b →
      ((s.files.insert f file).lookup b).bind File.pipe = some q → s.pipeOf k = some q := by
    intro k b q hk hb
    rw [lookup_insert_of_ne _ (c.ne_of_slot hfresh hk)] at hb
    rw [State.pipeOf, hk, bind_some, hb]
  rcases hcases with hleak | ⟨t, i, -, -, hopen⟩
  · rw [hleak]
    refine ⟨fun k q hq ↦ ?_, fun q pipe hq ↦ ⟨pipe, hq, le_rfl⟩⟩
    obtain ⟨b, hk, hb⟩ := bind_eq_some_iff.mp hq
    exact .inl (hkeep k b q hk hb)
  · rw [hopen]
    refine ⟨fun k q hq ↦ ?_, fun q pipe hq ↦ ⟨pipe, hq, le_rfl⟩⟩
    obtain ⟨b, hk, hb⟩ := bind_eq_some_iff.mp hq
    dsimp only [State.setFd] at hk hb
    by_cases hki : k = (t, i)
    · obtain rfl : f = b := by simpa [hki] using hk
      simp [hpipe] at hb
    · rw [update_of_ne hki] at hk
      exact .inl (hkeep k b q hk hb)

theorem vfsPipe_flows (c : Counted s) (hcurrent : s.current = some task)
    (pipeChoice readChoice writeChoice : Option Addr) :
    Flows task {k | k.1 = task} ∅ s (vfsPipe s pipeChoice readChoice writeChoice).2.2 := by
  rcases vfsPipe_cases s pipeChoice readChoice writeChoice with
    hsame | ⟨p, r, w, t, i, j, ht, hij, -, -, hrw, hp, hr, hw, hpipe⟩
  · rw [hsame]
    exact .refl s
  obtain rfl : task = t := some.inj (hcurrent.symm.trans ht)
  rw [hpipe]
  refine ⟨fun k q hq ↦ ?_, fun q pipe' hq ↦ ?_⟩
  · obtain ⟨b, hk, hb⟩ := bind_eq_some_iff.mp hq
    dsimp only [State.setFd] at hk hb
    by_cases hbnew : b = r ∨ b = w
    · have hq : q = p := by
        rcases hbnew with rfl | rfl
        · rw [lookup_insert_of_ne _ hrw, lookup_insert] at hb
          exact (some.inj hb).symm
        · rw [lookup_insert] at hb
          exact (some.inj hb).symm
      have hown : k.1 = task := by
        by_contra hne
        rw [update_of_ne fun heq ↦ hne (congrArg Prod.fst heq),
          update_of_ne fun heq ↦ hne (congrArg Prod.fst heq)] at hk
        rcases hbnew with rfl | rfl
        · exact c.ne_of_slot hr hk rfl
        · exact c.ne_of_slot hw hk rfl
      exact .inr ⟨hown, .inr (hq ▸ hp)⟩
    · obtain ⟨hbr, hbw⟩ := not_or.mp hbnew
      rw [lookup_insert_of_ne _ hbw, lookup_insert_of_ne _ hbr] at hb
      have hk' : s.fds k = some b := by
        by_cases hkj : k = (task, j)
        · exact absurd (by simpa [hkj] using hk) (Ne.symm hbw)
        · rw [update_of_ne hkj] at hk
          by_cases hki : k = (task, i)
          · exact absurd (by simpa [hki] using hk) (Ne.symm hbr)
          · rwa [update_of_ne hki] at hk
      exact .inl (by rw [State.pipeOf, hk', bind_some, hb])
  · dsimp only [State.setFd] at hq
    by_cases hqp : q = p
    · subst hqp
      rw [lookup_insert] at hq
      exact .inl ⟨hp, by rw [← some.inj hq]; rfl⟩
    · rw [lookup_insert_of_ne _ hqp] at hq
      exact .inr ⟨pipe', hq, .inl le_rfl⟩

theorem pipeReadPass_count_le {pipe pipe' : Pipe} {count : ℕ} {bytes : List UInt8}
    (h : pipeReadPass pipe count = .copied bytes pipe') : pipe'.count ≤ pipe.count := by
  unfold pipeReadPass at h
  split at h
  · split at h <;> cases h
  · cases h
    exact Nat.sub_le _ _

theorem vfsRead_copies (s : State) (fd : ℤ) (hasBuf : Bool) (count : ℕ) (driver : ℤ) :
    Copies src ∅ s (vfsRead s fd hasBuf count driver).2.2 := by
  refine ⟨fun k q hq ↦ .inl ?_, fun q pipe' hq ↦ ?_⟩
  · rwa [(vfsRead_quiet s fd hasBuf count driver).pipeOf] at hq
  have hsame : s.pipes.lookup q = some pipe' →
      ∃ pipe, s.pipes.lookup q = some pipe ∧ pipe'.count ≤ pipe.count :=
    fun h ↦ ⟨pipe', h, le_rfl⟩
  unfold vfsRead at hq
  split at hq
  · exact hsame hq
  split at hq
  · exact hsame hq
  split_ifs at hq
  · exact hsame hq
  · exact hsame hq
  split at hq
  case h_1 p _ =>
    split at hq
    · exact hsame hq
    case h_2 pipe hpipe =>
      split at hq
      · exact hsame hq
      · exact hsame hq
      case h_3 bytes after hpass =>
        dsimp only at hq
        by_cases hqp : q = p
        · subst hqp
          rw [lookup_insert] at hq
          refine ⟨pipe, hpipe, ?_⟩
          rw [← some.inj hq]
          exact pipeReadPass_count_le hpass
        · rw [lookup_insert_of_ne _ hqp] at hq
          exact hsame hq
  · split at hq
    · exact hsame hq
    · split at hq
      · exact hsame hq
      · split_ifs at hq
        · exact hsame hq
        · exact hsame hq
      · exact hsame hq

/-- A write leaves the pipes alone, or it is a pass that copies. -/
theorem vfsWrite_cases (s : State) (fd : ℤ) (buf : Option (List UInt8)) (driver : ℤ)
    (alloc : Realloc) :
    (vfsWrite s fd buf driver alloc).2.pipes = s.pipes ∨
    ∃ a f p pipe bytes chunk pipe', s.fdGet fd = some a ∧ s.files.lookup a = some f ∧
      f.pipe = some p ∧ s.pipes.lookup p = some pipe ∧ buf = some bytes ∧
      pipeWritePass pipe bytes 0 = .copied chunk pipe' ∧
      vfsWrite s fd buf driver alloc = (none, { s with pipes := s.pipes.insert p pipe' }) := by
  unfold vfsWrite
  split
  · exact .inl rfl
  case h_2 a ha =>
    split
    · exact .inl rfl
    case h_2 f hf =>
      split
      · exact .inl rfl
      case h_2 bytes =>
        split_ifs
        · exact .inl rfl
        split
        case h_1 p hp =>
          split
          · exact .inl rfl
          case h_2 pipe hpipe =>
            split
            · exact .inl rfl
            · exact .inl rfl
            case h_3 chunk pipe' hpass =>
              exact .inr ⟨a, f, p, pipe, bytes, chunk, pipe', ha, hf, hp, hpipe, rfl, hpass, rfl⟩
        · refine .inl ?_
          split
          · rfl
          · split
            · rfl
            · split_ifs <;> rfl
            · rfl

theorem fdGet_eq_some (hcurrent : s.current = some task) {fd : ℤ} {a : Addr}
    (h : s.fdGet fd = some a) : ∃ i, slotOf fd = some i ∧ s.fds (task, i) = some a := by
  simpa [State.fdGet, hcurrent, bind_eq_some_iff] using h

/-- The pipe that a call may write to. -/
def written (s : State) (task : TaskId) : Op → Set Addr
  | .write fd _ _ _ => {q | ∃ i, slotOf fd = some i ∧ s.pipeOf (task, i) = some q}
  | _ => ∅

theorem vfsWrite_flows (hcurrent : s.current = some task) (fd : ℤ) (buf : Option (List UInt8))
    (driver : ℤ) (alloc : Realloc) :
    Flows src ∅ (written s task (.write fd buf driver alloc)) s
      (vfsWrite s fd buf driver alloc).2 := by
  refine ⟨fun k q hq ↦ .inl ?_, fun q pipe' hq ↦ .inr ?_⟩
  · rwa [(vfsWrite_quiet s fd buf driver alloc).pipeOf] at hq
  rcases vfsWrite_cases s fd buf driver alloc with
    hsame | ⟨a, f, p, pipe, bytes, chunk, after, ha, hf, hp, hpipe, -, -, hwrite⟩
  · exact ⟨pipe', by rwa [hsame] at hq, .inl le_rfl⟩
  · rw [hwrite] at hq
    by_cases hqp : q = p
    · obtain ⟨i, hi, hslot⟩ := fdGet_eq_some hcurrent ha
      refine ⟨pipe, hqp ▸ hpipe, .inr ⟨i, hi, ?_⟩⟩
      rw [State.pipeOf, hslot, bind_some, hf, bind_some, hp, hqp]
    · rw [lookup_insert_of_ne _ hqp] at hq
      exact ⟨pipe', hq, .inl le_rfl⟩

theorem vfsFtruncate_pipes (s : State) (fd length : ℤ) (alloc : Realloc) :
    (vfsFtruncate s fd length alloc).2.pipes = s.pipes := by
  unfold vfsFtruncate
  repeat' first | rfl | split

theorem vfsReaddir_pipes (s : State) (fd : ℤ) (hasBuf : Bool) (count : ℕ) :
    (vfsReaddir s fd hasBuf count).2.2.pipes = s.pipes := by
  unfold vfsReaddir
  repeat' first | rfl | split

theorem vfsChmod_pipes (s : State) (path : Option (List UInt8)) (mode : BitVec 32) :
    (vfsChmod s path mode).2.pipes = s.pipes := by
  unfold vfsChmod
  repeat' first | rfl | split

/-- The call may put a pipe behind a slot. -/
def Op.copies : Op → Bool
  | .dup _ | .dup2 .. | .pipe .. | .spawn _ => true
  | _ => false

theorem System.call_flows_of_not_copies (c : Counted s) (hcurrent : s.current = some task)
    {op : Op} (hop : op.copies = false) :
    Flows task ∅ (written s task op) s (System.call s op) := by
  cases op with
  | openFile path flags nodeChoice fileChoice => exact (vfsOpen_copies c _ _ _ _).flows _
  | close fd => exact ((State.own_eq hcurrent ▸ vfsClose_shifts s fd).copies c).flows _
  | read fd hasBuf count driver => exact (vfsRead_copies s fd hasBuf count driver).flows _
  | write fd buf driver alloc => exact vfsWrite_flows hcurrent fd buf driver alloc
  | ftruncate fd length alloc =>
    have hpipes := vfsFtruncate_pipes s fd length alloc
    exact ((vfsFtruncate_quiet s fd length alloc).copies hpipes).flows _
  | readdir fd hasBuf count =>
    have hpipes := vfsReaddir_pipes s fd hasBuf count
    exact ((vfsReaddir_quiet s fd hasBuf count).copies hpipes).flows _
  | mkdir path mode choice =>
    obtain ⟨nodes, hnodes⟩ := vfsMkdir_nodes s path mode choice
    exact ((vfsMkdir_quiet s path mode choice).copies (by rw [hnodes])).flows _
  | unlink path =>
    obtain ⟨nodes, hnodes⟩ := vfsUnlink_nodes s path
    exact ((vfsUnlink_quiet s path).copies (by rw [hnodes])).flows _
  | chmod path mode =>
    exact ((vfsChmod_quiet s path mode).copies (vfsChmod_pipes s path mode)).flows _
  | pread | ioctl | exit => exact .refl s
  | dup | dup2 | pipe | spawn => cases hop

theorem System.call_flows (c : Counted s) (hcurrent : s.current = some task) (op : Op) :
    Flows task {k | k.1 = task} (written s task op) s (System.call s op) := by
  cases hop : op.copies with
  | false =>
    exact (System.call_flows_of_not_copies c hcurrent hop).mono (Set.empty_subset _) le_rfl
  | true =>
    cases op with
    | dup oldfd => exact ((State.own_eq hcurrent ▸ vfsDup_shifts s oldfd).copies c).flows _
    | dup2 oldfd newfd =>
      exact ((vfsDup2_copies c hcurrent oldfd newfd).mono fun _ hk ↦ hk.1).flows _
    | pipe pipeChoice readChoice writeChoice => exact vfsPipe_flows c hcurrent _ _ _
    | spawn child => exact .refl s
    | _ => cases hop

end Calls

/-- Task `t` alone has descriptors for its pipes, each with room for `n` more bytes. -/
def Alone (t : TaskId) (n : ℕ) (s : State) : Prop :=
  ∀ i q, s.pipeOf (t, i) = some q → (∀ k, s.pipeOf k = some q → k.1 = t) ∧
    ∀ pipe, s.pipes.lookup q = some pipe → pipe.count + n ≤ pipeBufSize

section Alone

variable {t : TaskId} {n : ℕ} {s s' : State} {src : TaskId} {D : Set (TaskId × Slot)}
  {W : Set Addr}

theorem Counted.pipe_ne_none (c : Counted s) {k : TaskId × Slot} {q : Addr}
    (hk : s.pipeOf k = some q) : s.pipes.lookup q ≠ none := by
  obtain ⟨a, ha, hpipe⟩ := bind_eq_some_iff.mp hk
  obtain ⟨f, hf, -, hlive⟩ := c.file k a ha
  rw [hf, bind_some] at hpipe
  intro hnone
  have := lookup_isSome.mpr (hlive q hpipe)
  simp [hnone] at this

/-- What another task does to its own descriptors and pipes. -/
theorem Alone.of_flows_other (h : Alone t n s) (c : Counted s) (hflow : Flows src D W s s')
    (hsrc : src ≠ t) (hD : ∀ k ∈ D, k.1 ≠ t) (hW : ∀ q ∈ W, ∃ i, s.pipeOf (src, i) = some q) :
    Alone t n s' := by
  intro i q hq
  have hold : s.pipeOf (t, i) = some q :=
    (hflow.slot (t, i) q hq).resolve_right fun hk ↦ hD _ hk.1 rfl
  obtain ⟨halone, hroom⟩ := h i q hold
  refine ⟨fun k hk ↦ ?_, fun pipe' hpipe' ↦ ?_⟩
  · rcases hflow.slot k q hk with hkeep | ⟨-, ⟨j, hcopy⟩ | hnew⟩
    · exact halone k hkeep
    · exact absurd (halone _ hcopy) hsrc
    · exact absurd hnew (c.pipe_ne_none hold)
  · rcases hflow.pipe q pipe' hpipe' with ⟨hnone, -⟩ | ⟨pipe, hpipe, hcount | hwritten⟩
    · exact absurd hnone (c.pipe_ne_none hold)
    · have := hroom pipe hpipe
      omega
    · obtain ⟨j, hj⟩ := hW q hwritten
      exact absurd (halone _ hj) hsrc

/-- What the task itself does, as long as it does not write. -/
theorem Alone.of_flows_own (h : Alone t n s) (c : Counted s) (hflow : Flows t D ∅ s s')
    (hD : ∀ k ∈ D, k.1 = t) (hn : n ≤ pipeBufSize) : Alone t n s' := by
  intro i q hq
  have hsource : (∃ j, s.pipeOf (t, j) = some q) ∨ s.pipes.lookup q = none := by
    rcases hflow.slot (t, i) q hq with hkeep | ⟨-, hsource⟩
    · exact .inl ⟨i, hkeep⟩
    · exact hsource
  refine ⟨fun k hk ↦ ?_, fun pipe' hpipe' ↦ ?_⟩
  · rcases hflow.slot k q hk with hkeep | ⟨hkD, -⟩
    · rcases hsource with ⟨j, hj⟩ | hnew
      · exact (h j q hj).1 k hkeep
      · exact absurd hnew (c.pipe_ne_none hkeep)
    · exact hD k hkD
  · rcases hflow.pipe q pipe' hpipe' with ⟨-, hzero⟩ | ⟨pipe, hpipe, hcount | hwritten⟩
    · omega
    · rcases hsource with ⟨j, hj⟩ | hnew
      · have := (h j q hj).2 pipe hpipe
        omega
      · rw [hnew] at hpipe
        cases hpipe
    · exact absurd hwritten (Set.notMem_empty q)

theorem written_subset (s : State) (task : TaskId) (op : Op) :
    ∀ q ∈ written s task op, ∃ i, s.pipeOf (task, i) = some q := by
  intro q hq
  cases op with
  | write fd buf driver alloc =>
    obtain ⟨i, -, hi⟩ := hq
    exact ⟨i, hi⟩
  | _ => exact absurd hq (Set.notMem_empty q)

/-- A step moves its task's descriptors to its own slots or a new task's, and writes only to its own
pipes. -/
theorem System.step_flows {sys : System} (hsound : sys.Sound) (task : TaskId) (op : Op) :
    ∃ D W, Flows task D W sys.vfs (sys.step task op).vfs ∧
      (∀ k ∈ D, k.1 = task ∨ sys.alive k.1 = false) ∧
      ∀ q ∈ W, ∃ i, sys.vfs.pipeOf (task, i) = some q := by
  have c : Counted (sys.vfs.enter task) := ⟨hsound.counted.file, hsound.counted.pipe⟩
  have hnone : ∀ q ∈ (∅ : Set Addr), ∃ i, sys.vfs.pipeOf (task, i) = some q := fun q hq ↦
    absurd hq (Set.notMem_empty q)
  rcases sys.step_cases task op with
    hstep | ⟨child, -, hchild, hstep⟩ | ⟨-, hstep⟩ | ⟨-, hstep⟩ <;> rw [hstep]
  · exact ⟨∅, ∅, .refl _, fun k hk ↦ absurd hk (Set.notMem_empty k), hnone⟩
  · have hflow := ((hsound.inherit_shifts hchild task).copies c).flows ∅
    exact ⟨_, _, ⟨hflow.slot, hflow.pipe⟩, fun k hk ↦ .inr (hk ▸ hchild), hnone⟩
  · have hown : (sys.vfs.enter task).own = {k | k.1 = task} := State.own_eq rfl
    have hflow := ((hown ▸ vfsCloseAll_shifts (sys.vfs.enter task)).copies c).flows ∅
    exact ⟨_, _, ⟨hflow.slot, hflow.pipe⟩, fun k hk ↦ absurd hk (Set.notMem_empty k), hnone⟩
  · have hflow := System.call_flows c rfl op
    exact ⟨_, _, ⟨hflow.slot, hflow.pipe⟩, fun k hk ↦ .inl hk, written_subset _ task op⟩

section Others

variable {sys : System} {task : TaskId}

/-- Steps of other tasks put no pipe behind a slot. -/
theorem System.pipeOf_step_other (hsound : sys.Sound) (hlive : sys.alive t = true)
    (hne : task ≠ t) (op : Op) {i : Slot} {q : Addr}
    (h : (sys.step task op).vfs.pipeOf (t, i) = some q) : sys.vfs.pipeOf (t, i) = some q := by
  obtain ⟨D, W, hflow, hD, -⟩ := System.step_flows hsound task op
  refine (hflow.slot (t, i) q h).resolve_right fun hk ↦ ?_
  rcases hD _ hk.1 with heq | hdead
  · exact hne heq.symm
  · simp [hlive] at hdead

/-- Steps of other tasks leave a task alone with its pipes. -/
theorem Alone.step_other (h : Alone t n sys.vfs) (hsound : sys.Sound) (hlive : sys.alive t = true)
    (hne : task ≠ t) (op : Op) : Alone t n (sys.step task op).vfs := by
  obtain ⟨D, W, hflow, hD, hW⟩ := System.step_flows hsound task op
  refine h.of_flows_other hsound.counted hflow hne (fun k hk ↦ ?_) hW
  rcases hD k hk with heq | hdead
  · exact heq ▸ hne
  · rintro rfl
    simp [hlive] at hdead

end Others

theorem pipeWritePass_count {pipe pipe' : Pipe} {buf chunk : List UInt8} {total : ℕ}
    (h : pipeWritePass pipe buf total = .copied chunk pipe') :
    pipe'.count = pipe.count + chunk.length := by
  unfold pipeWritePass at h
  split_ifs at h
  obtain ⟨rfl, rfl⟩ := h
  simp only [List.length_take, List.length_drop, Nat.add_left_cancel_iff]
  split_ifs <;> omega

/-- A pass of `vfs_write` takes as much off the room in the pipe as it copies. -/
theorem Alone.vfsWrite (h : Alone t n s) (hcurrent : s.current = some t) {fd : ℤ} {i : Slot}
    (hfd : slotOf fd = some i) {buf : List UInt8} {driver : ℤ} {alloc : Realloc} {m : ℕ}
    (hm : ∀ q pipe chunk pipe', s.pipeOf (t, i) = some q → s.pipes.lookup q = some pipe →
      pipeWritePass pipe buf 0 = .copied chunk pipe' →
      (vfsWrite s fd (some buf) driver alloc).1 = none → chunk.length = m ∧ m ≤ n) :
    Alone t (n - m) (vfsWrite s fd (some buf) driver alloc).2 := by
  intro j q hq
  have hquiet := vfsWrite_quiet s fd (some buf) driver alloc
  rw [hquiet.pipeOf] at hq
  obtain ⟨halone, hroom⟩ := h j q hq
  refine ⟨fun k hk ↦ halone k (by rwa [hquiet.pipeOf] at hk), fun pipe' hpipe' ↦ ?_⟩
  rcases vfsWrite_cases s fd (some buf) driver alloc with
    hsame | ⟨a, f, p, pipe, bytes, chunk, after, ha, hf, hp, hpipe, hbuf, hpass, hwrite⟩
  · rw [hsame] at hpipe'
    have := hroom pipe' hpipe'
    omega
  · obtain ⟨i', hi', hslot⟩ := fdGet_eq_some hcurrent ha
    obtain rfl : i = i' := some.inj (hfd.symm.trans hi')
    obtain rfl : buf = bytes := some.inj hbuf
    have hbehind : s.pipeOf (t, i) = some p := by
      rw [State.pipeOf, hslot, bind_some, hf, bind_some, hp]
    obtain ⟨hlength, hle⟩ := hm p pipe chunk after hbehind hpipe hpass (by rw [hwrite])
    rw [hwrite] at hpipe'
    by_cases hqp : q = p
    · subst hqp
      rw [lookup_insert] at hpipe'
      have hcount := pipeWritePass_count hpass
      have := hroom pipe hpipe
      rw [← some.inj hpipe']
      omega
    · rw [lookup_insert_of_ne _ hqp] at hpipe'
      have := hroom pipe' hpipe'
      omega

/-- After `vfs_dup2` the target has the pipe of the source behind it. -/
theorem vfsDup2_pipeOf (c : Counted s) (hcurrent : s.current = some t) {i new : Slot} {a : Addr}
    (hi : s.fds (t, i) = some a) (hne : i ≠ new) :
    (vfsDup2 s i.val new.val).2.pipeOf (t, new) = s.pipeOf (t, i) := by
  have hmoves := (vfsDup2_shifts s i.val new.val).moves c
  have hnew : (vfsDup2 s i.val new.val).2.fds (t, new) = some a := by
    rw [vfsDup2_fds hcurrent hi hne, update_self]
  obtain ⟨f', hf', -⟩ := hmoves.counted.file _ a hnew
  obtain ⟨f, hf, -, hpipe⟩ := hmoves.files a f' hf'
  rw [State.pipeOf, State.pipeOf, hnew, hi, bind_some, bind_some, hf', hf,
    bind_some, bind_some, hpipe]

end Alone

end ToastyUnix.Vfs
