import ToastyUnix.Lib.SlotCount
import ToastyUnix.Vfs.System

/-!
# Reference counts of descriptions and pipes

`Counted` is the invariant: the count of a description that some slot refers to is the number of
those slots, the counts of a pipe are the numbers of slots per end, and nothing a slot leads to
has been freed. Calls move slots by two primitive steps, dropping a slot and adding one, and each
primitive keeps the invariant. `Moves` records in addition that a description is freed exactly
when its last slot goes away.
-/

namespace ToastyUnix.Vfs

open SlotCount Option Finmap Function

/-- Description `a` stands for the given end of pipe `p`. -/
def endOf (files : Heap File) (p : Addr) (writeEnd : Bool) (a : Addr) : Bool :=
  (files.lookup a).any fun f ↦ f.pipe == some p && f.isWriteEnd == writeEnd

/-- The number of slots, over all tasks, that refer to description `a`. -/
def State.slots (s : State) (a : Addr) : ℕ := count (· == a) s.fds

/-- The number of slots, over all tasks, with a description for one end of pipe `p`. -/
def State.endSlots (s : State) (p : Addr) (writeEnd : Bool) : ℕ :=
  count (endOf s.files p writeEnd) s.fds

/-- Every count is the number of slots it stands for, and no slot leads to a freed block. -/
structure Counted (s : State) : Prop where
  file : ∀ i a, s.fds i = some a → ∃ f, s.files.lookup a = some f ∧ f.refs = s.slots a ∧
    ∀ p, f.pipe = some p → p ∈ s.pipes
  pipe : ∀ p pipe, s.pipes.lookup p = some pipe →
    (∀ w, pipe.refs w = s.endSlots p w) ∧ ∃ w, pipe.refs w ≠ 0

variable {s s' : State} {a p : Addr} {f : File} {files : Heap File}

/-- Some slot refers to description `a`. -/
def State.Referenced (s : State) (a : Addr) : Prop := ∃ i, s.fds i = some a

theorem slots_pos : 0 < s.slots a ↔ s.Referenced a := by
  rw [State.slots, count_pos]
  constructor
  · rintro ⟨i, b, hi, hb⟩
    exact ⟨i, by rw [hi, eq_of_beq hb]⟩
  · rintro ⟨i, hi⟩
    exact ⟨i, a, hi, beq_self_eq_true a⟩

/-! ## The effect of the counting functions -/

theorem Pipe.refs_addRefs (p : Pipe) (e w : Bool) (delta : ℤ) :
    (p.addRefs e delta).refs w = p.refs w + if e = w then delta else 0 := by
  cases e <;> cases w <;> simp [refs, addRefs]

/-- Pipe `q` after the count of the end that `f` stands for was changed. -/
def bumped (f : File) (delta : ℤ) (q : Addr) (pipe : Pipe) : Pipe :=
  if f.pipe = some q then pipe.addRefs f.isWriteEnd delta else pipe

theorem bumped_refs (f : File) (delta : ℤ) (q : Addr) (pipe : Pipe) (w : Bool) :
    (bumped f delta q pipe).refs w =
      pipe.refs w + if f.pipe = some q ∧ f.isWriteEnd = w then delta else 0 := by
  unfold bumped
  by_cases hq : f.pipe = some q
  · simp [hq, Pipe.refs_addRefs]
  · simp [hq]

theorem lookup_bumpPipe (pipes : Heap Pipe) (f : File) (delta : ℤ) (q : Addr) :
    (bumpPipe pipes f delta).lookup q = (pipes.lookup q).map (bumped f delta q) := by
  unfold bumpPipe bumped
  cases hpipe : f.pipe with
  | none => simp
  | some p =>
    by_cases hq : q = p
    · subst hq
      cases hlook : pipes.lookup q <;> simp [hlook]
    · cases hlook : pipes.lookup p <;> simp [hlook, hq, Ne.symm hq]

theorem lookup_dropPipe (pipes : Heap Pipe) (f : File) (q : Addr) :
    (dropPipe pipes f).lookup q =
      if f.pipe = some q then
        (pipes.lookup q).filter fun pipe ↦ !(pipe.refsR == 0 && pipe.refsW == 0)
      else pipes.lookup q := by
  unfold dropPipe
  cases hpipe : f.pipe with
  | none => simp
  | some p =>
    by_cases hq : q = p
    · subst hq
      cases hlook : pipes.lookup q with
      | none => simp [hlook]
      | some pipe =>
        cases hzero : (pipe.refsR == 0 && pipe.refsW == 0) <;>
          simp only [hlook, any_some, filter_some, hzero, Bool.not_true,
            Bool.not_false, Bool.false_eq_true, if_true, if_false, lookup_erase]
    · have hne : ¬ some p = some q := by simpa using Ne.symm hq
      rw [if_neg hne]
      dsimp only
      split_ifs <;> simp [hq]

theorem refs_eq_zero {pipe : Pipe} :
    (pipe.refsR == 0 && pipe.refsW == 0) = true ↔ ∀ w, pipe.refs w = 0 := by
  simp [Pipe.refs]

theorem fileUnref_eq (hf : s.files.lookup a = some f) :
    fileUnref s a =
      { s with
        files := if f.refs - 1 = 0 then s.files.erase a
          else s.files.insert a { f with refs := f.refs - 1 }
        pipes := if f.refs - 1 = 0 then dropPipe (bumpPipe s.pipes f (-1)) f
          else bumpPipe s.pipes f (-1) } := by
  simp only [fileUnref, hf]
  split_ifs <;> rfl

theorem fileRef_eq (hf : s.files.lookup a = some f) :
    fileRef s a =
      { s with
        files := s.files.insert a { f with refs := f.refs + 1 }
        pipes := bumpPipe s.pipes f 1 } := by
  simp only [fileRef, hf]

/-- What a description stands for does not depend on its count. -/
theorem endOf_insert_refs (hf : files.lookup a = some f) (refs : ℤ) (p : Addr) (w : Bool) :
    endOf (files.insert a { f with refs := refs }) p w = endOf files p w := by
  funext b
  by_cases hb : b = a
  · subst hb
    simp [endOf, hf, File.isWriteEnd]
  · simp [endOf, hb]

theorem endOf_eq_true (hf : files.lookup a = some f) {w : Bool} :
    endOf files p w a = true ↔ f.pipe = some p ∧ f.isWriteEnd = w := by
  simp [endOf, hf]

theorem State.Referenced.endSlots_pos (ha : s.Referenced a) (hf : s.files.lookup a = some f)
    (hp : f.pipe = some p) : 0 < s.endSlots p f.isWriteEnd := by
  obtain ⟨i, hi⟩ := ha
  exact count_pos.mpr ⟨i, a, hi, (endOf_eq_true hf).mpr ⟨hp, rfl⟩⟩

/-! ## Dropping a slot -/

section Detach

variable {s : State} {i : TaskId × Slot} {a : Addr} {f : File}

theorem slots_update_none (hi : s.fds i = some a) (b : Addr) :
    count (· == b) (update s.fds i none) + (if a = b then 1 else 0) = s.slots b := by
  simpa [State.slots] using count_update_none (p := (· == b)) hi

theorem detach_files (hf : s.files.lookup a = some f) (b : Addr) :
    (s.detach i a).files.lookup b =
      if b = a then (if f.refs - 1 = 0 then none else some { f with refs := f.refs - 1 })
      else s.files.lookup b := by
  rw [State.detach, fileUnref_eq (s := s.setFd i none) hf]
  by_cases hb : b = a
  · subst hb
    rw [if_pos rfl]
    split_ifs <;> simp [State.setFd]
  · rw [if_neg hb]
    split_ifs <;> simp [State.setFd, hb]

theorem detach_pipes (hf : s.files.lookup a = some f) (q : Addr) :
    (s.detach i a).pipes.lookup q = (s.pipes.lookup q).bind fun pipe ↦
      if f.refs - 1 = 0 ∧ f.pipe = some q ∧ ∀ w, (bumped f (-1) q pipe).refs w = 0 then none
      else some (bumped f (-1) q pipe) := by
  rw [State.detach, fileUnref_eq (s := s.setFd i none) hf]
  cases hlook : s.pipes.lookup q with
  | none =>
    by_cases hlast : f.refs - 1 = 0 <;>
      simp [hlast, lookup_dropPipe, lookup_bumpPipe, State.setFd, hlook]
  | some pipe =>
    by_cases hlast : f.refs - 1 = 0
    · by_cases hq : f.pipe = some q
      · simp only [hlast, hq, lookup_dropPipe, lookup_bumpPipe, State.setFd, hlook, if_true,
          map_some, filter_some, bind_some, true_and, ← refs_eq_zero]
        split_ifs <;> simp_all
      · simp [hlast, hq, lookup_dropPipe, lookup_bumpPipe, State.setFd, hlook]
    · simp [hlast, lookup_bumpPipe, State.setFd, hlook]

theorem detach_slots (hi : s.fds i = some a) (b : Addr) :
    (s.detach i a).slots b + (if a = b then 1 else 0) = s.slots b := by
  rw [State.slots, detach_fds]
  exact slots_update_none hi b

section

variable (hf : s.files.lookup a = some f) (hrefs : f.refs = s.slots a) (hi : s.fds i = some a)
include hf hrefs hi

/-- A description that a slot still refers to is still there. -/
theorem detach_files_of_slot {j : TaskId × Slot} {b : Addr} (hj : (s.detach i a).fds j = some b) :
    (s.detach i a).files.lookup b =
      if b = a then some { f with refs := f.refs - 1 } else s.files.lookup b := by
  rw [detach_files hf]
  by_cases hb : b = a
  · subst hb
    have hpos : 0 < (s.detach i b).slots b := slots_pos.mpr ⟨j, hj⟩
    have hslots := detach_slots hi b
    have hlast : f.refs - 1 ≠ 0 := by
      rw [if_pos rfl] at hslots
      omega
    rw [if_pos rfl, if_pos rfl, if_neg hlast]
  · rw [if_neg hb, if_neg hb]

theorem detach_endSlots (q : Addr) (w : Bool) :
    (s.detach i a).endSlots q w + (if f.pipe = some q ∧ f.isWriteEnd = w then 1 else 0) =
      s.endSlots q w := by
  have hsame : (s.detach i a).endSlots q w =
      count (endOf s.files q w) (update s.fds i none) := by
    rw [← detach_fds (i := i)]
    refine count_congr fun j b hj ↦ ?_
    rw [endOf, endOf, detach_files_of_slot hf hrefs hi hj]
    by_cases hb : b = a
    · subst hb
      simp [hf, File.isWriteEnd]
    · rw [if_neg hb]
  rw [hsame, State.endSlots, ← count_update_none hi]
  simp only [endOf_eq_true hf]

end

/-- Dropping a slot keeps every count right. -/
theorem Counted.detach (c : Counted s) (hi : s.fds i = some a) : Counted (s.detach i a) := by
  obtain ⟨f, hf, hrefs, hlive⟩ := c.file i a hi
  have hcount : ∀ q pipe w, s.pipes.lookup q = some pipe →
      (bumped f (-1) q pipe).refs w = (s.detach i a).endSlots q w := by
    intro q pipe w hq
    have hends := detach_endSlots hf hrefs hi q w
    rw [bumped_refs, (c.pipe q pipe hq).1 w]
    split_ifs at hends ⊢ <;> omega
  have hpipeLive : ∀ j b g p, (s.detach i a).fds j = some b →
      (s.detach i a).files.lookup b = some g → g.pipe = some p → p ∈ s.pipes →
      p ∈ (s.detach i a).pipes := by
    intro j b g p hj hg hp hmem
    obtain ⟨pipe, hpipe⟩ := mem_iff.mp hmem
    have hpos := State.Referenced.endSlots_pos ⟨j, hj⟩ hg hp
    have hzero : ¬ ∀ w, (bumped f (-1) p pipe).refs w = 0 := by
      intro hzero
      have := hzero g.isWriteEnd
      rw [hcount p pipe _ hpipe] at this
      omega
    rw [Finmap.mem_iff, detach_pipes hf, hpipe]
    exact ⟨_, by rw [bind_some, if_neg (fun h ↦ hzero h.2.2)]⟩
  constructor
  · intro j b hj
    have hlook := detach_files_of_slot hf hrefs hi hj
    by_cases hb : b = a
    · subst hb
      rw [if_pos rfl] at hlook
      refine ⟨_, hlook, ?_, fun p hp ↦ hpipeLive j b _ p hj hlook hp (hlive p hp)⟩
      have hslots := detach_slots hi b
      rw [if_pos rfl] at hslots
      dsimp only
      omega
    · rw [if_neg hb] at hlook
      have hj' : s.fds j = some b := by
        rw [detach_fds] at hj
        by_cases hji : j = i
        · simp [hji] at hj
        · rwa [update_of_ne hji] at hj
      obtain ⟨g, hg, hgrefs, hglive⟩ := c.file j b hj'
      rw [hg] at hlook
      refine ⟨g, hlook, ?_, fun p hp ↦ hpipeLive j b g p hj hlook hp (hglive p hp)⟩
      have hslots := detach_slots hi b
      rw [if_neg (Ne.symm hb)] at hslots
      omega
  · intro q pipe' hq
    rw [detach_pipes hf, bind_eq_some_iff] at hq
    obtain ⟨pipe, hpipe, hq⟩ := hq
    split_ifs at hq with hfreed
    obtain rfl := some.inj hq
    refine ⟨fun w ↦ hcount q pipe w hpipe, ?_⟩
    by_cases hown : f.pipe = some q
    · by_cases hlast : f.refs - 1 = 0
      · by_contra hzero
        exact hfreed ⟨hlast, hown, by simpa using hzero⟩
      · -- The description is still referenced, so its own end of the pipe is.
        have hslots := detach_slots hi a
        rw [if_pos rfl] at hslots
        have href : (s.detach i a).Referenced a := slots_pos.mp (by omega)
        have hlook : (s.detach i a).files.lookup a = some { f with refs := f.refs - 1 } := by
          rw [detach_files hf, if_pos rfl, if_neg hlast]
        have hpos := href.endSlots_pos hlook hown
        refine ⟨f.isWriteEnd, ?_⟩
        rw [hcount q pipe _ hpipe]
        exact_mod_cast hpos.ne'
    · rw [bumped, if_neg hown]
      exact (c.pipe q pipe hpipe).2

end Detach

/-! ## Adding a slot -/

section Attach

variable {s : State} {i : TaskId × Slot} {a : Addr} {f : File}

theorem attach_eq (hf : s.files.lookup a = some f) :
    s.attach i a =
      { s with
        fds := update s.fds i (some a)
        files := s.files.insert a { f with refs := f.refs + 1 }
        pipes := bumpPipe s.pipes f 1 } := by
  rw [State.attach, fileRef_eq (s := s.setFd i (some a)) hf]
  rfl

theorem slots_update_some (hi : s.fds i = none) (b : Addr) :
    count (· == b) (update s.fds i (some a)) = s.slots b + if a = b then 1 else 0 := by
  simpa [State.slots] using count_update_some (p := (· == b)) (a := a) hi

/-- Adding a slot for a description in use keeps every count right. -/
theorem Counted.attach (c : Counted s) (hi : s.fds i = none) (ha : s.Referenced a) :
    Counted (s.attach i a) := by
  obtain ⟨j, hj⟩ := ha
  obtain ⟨f, hf, hrefs, hlive⟩ := c.file j a hj
  have hends : ∀ q w, (s.attach i a).endSlots q w =
      s.endSlots q w + if f.pipe = some q ∧ f.isWriteEnd = w then 1 else 0 := by
    intro q w
    rw [attach_eq hf, State.endSlots, endOf_insert_refs hf, count_update_some hi, State.endSlots]
    simp only [endOf_eq_true hf]
  rw [attach_eq hf] at hends ⊢
  constructor
  · intro k b hk
    have hslots := slots_update_some (a := a) hi b
    by_cases hb : b = a
    · subst hb
      refine ⟨_, lookup_insert _, ?_, fun p hp ↦ ?_⟩
      · rw [State.slots, hslots, if_pos rfl]
        push_cast
        rw [hrefs]
      · obtain ⟨pipe, hpipe⟩ := mem_iff.mp (hlive p hp)
        rw [Finmap.mem_iff, lookup_bumpPipe, hpipe]
        exact ⟨_, rfl⟩
    · have hk' : s.fds k = some b := by
        by_cases hki : k = i
        · subst hki
          simp [Ne.symm hb] at hk
        · simpa [hki] using hk
      obtain ⟨g, hg, hgrefs, hglive⟩ := c.file k b hk'
      refine ⟨g, by rw [lookup_insert_of_ne _ hb, hg], ?_, fun p hp ↦ ?_⟩
      · rw [State.slots, hslots, if_neg (Ne.symm hb), hgrefs, Nat.add_zero]
      · obtain ⟨pipe, hpipe⟩ := mem_iff.mp (hglive p hp)
        rw [Finmap.mem_iff, lookup_bumpPipe, hpipe]
        exact ⟨_, rfl⟩
  · intro q pipe' hq
    rw [lookup_bumpPipe, map_eq_some_iff] at hq
    obtain ⟨pipe, hpipe, rfl⟩ := hq
    obtain ⟨hcounts, w, hw⟩ := c.pipe q pipe hpipe
    have hrefs' : ∀ w, (bumped f 1 q pipe).refs w = pipe.refs w +
        if f.pipe = some q ∧ f.isWriteEnd = w then 1 else 0 := bumped_refs f 1 q pipe
    refine ⟨fun w ↦ ?_, w, ?_⟩
    · rw [hrefs', hcounts, hends]
      split_ifs <;> simp
    · have hnonneg : 0 ≤ pipe.refs w := by
        rw [hcounts]
        exact Int.natCast_nonneg _
      rw [hrefs']
      split_ifs <;> omega

end Attach

/-! ## New descriptions and pipes -/

section Fresh

variable {s : State} {i j : TaskId × Slot} {a r w p : Addr} {f : File}

section

variable (c : Counted s)
include c

theorem Counted.mem_files (ha : s.Referenced a) : a ∈ s.files := by
  obtain ⟨i, hi⟩ := ha
  obtain ⟨f, hf, -⟩ := c.file i a hi
  exact mem_of_lookup_eq_some hf

theorem Counted.not_referenced (ha : s.files.lookup a = none) :
    ¬ s.Referenced a := fun href ↦ by
  have := lookup_isSome.mpr (c.mem_files href)
  simp [ha] at this

theorem Counted.ne_of_slot (ha : s.files.lookup a = none) {b : Addr} (hi : s.fds i = some b) :
    b ≠ a := by
  rintro rfl
  exact c.not_referenced ha ⟨i, hi⟩

theorem Counted.endSlots_eq_zero (hp : p ∉ s.pipes) (e : Bool) : s.endSlots p e = 0 := by
  refine count_eq_zero.mpr fun k b hk ↦ ?_
  obtain ⟨g, hg, -, hlive⟩ := c.file k b hk
  by_contra hend
  exact hp (hlive p ((endOf_eq_true hg).mp (by simpa using hend)).1)

theorem Counted.insert_file (ha : s.files.lookup a = none) (f : File) :
    Counted { s with files := s.files.insert a f } where
  file k b hk := by
    obtain ⟨g, hg, hrefs, hlive⟩ := c.file k b hk
    exact ⟨g, by rw [lookup_insert_of_ne _ (c.ne_of_slot ha hk), hg], hrefs, hlive⟩
  pipe q pipe hq := by
    obtain ⟨hcounts, hne⟩ := c.pipe q pipe hq
    refine ⟨fun e ↦ ?_, hne⟩
    rw [hcounts]
    congr 1
    refine count_congr fun k b hk ↦ ?_
    simp [endOf, c.ne_of_slot ha hk]

/-- The first slot of a new description that is no pipe end. -/
theorem Counted.open_slot (hi : s.fds i = none) (hf : s.files.lookup a = some f)
    (ha : ¬ s.Referenced a) (hpipe : f.pipe = none) (hrefs : f.refs = 1) :
    Counted (s.setFd i (some a)) := by
  have hzero : s.slots a = 0 := by
    by_contra hne
    exact ha (slots_pos.mp (Nat.pos_of_ne_zero hne))
  have hslots := slots_update_some (a := a) hi
  constructor
  · intro k b hk
    by_cases hb : b = a
    · subst hb
      refine ⟨f, hf, ?_, by simp [hpipe]⟩
      rw [State.slots, State.setFd, hslots, hzero, if_pos rfl, hrefs]
      rfl
    · have hk' : s.fds k = some b := by
        by_cases hki : k = i
        · subst hki
          simp [State.setFd, Ne.symm hb] at hk
        · simpa [State.setFd, hki] using hk
      obtain ⟨g, hg, hgrefs, hglive⟩ := c.file k b hk'
      refine ⟨g, hg, ?_, hglive⟩
      rw [State.slots, State.setFd, hslots, if_neg (Ne.symm hb), hgrefs, Nat.add_zero]
  · intro q pipe hq
    obtain ⟨hcounts, hne⟩ := c.pipe q pipe hq
    refine ⟨fun e ↦ ?_, hne⟩
    rw [hcounts, State.endSlots, State.endSlots, State.setFd, count_update_some hi]
    simp [endOf, hf, hpipe]

/-- The first slots of the two ends of a new pipe. -/
theorem Counted.open_pipe (hij : i ≠ j) (hi : s.fds i = none) (hj : s.fds j = none) (hrw : r ≠ w)
    (hr : s.files.lookup r = some (pipeFile p O_RDONLY))
    (hw : s.files.lookup w = some (pipeFile p O_WRONLY)) (hrfree : ¬ s.Referenced r)
    (hwfree : ¬ s.Referenced w) (hp : s.pipes.lookup p = none) :
    Counted (({ s with pipes := s.pipes.insert p Pipe.fresh }.setFd i (some r)).setFd j
      (some w)) := by
  set s' := ({ s with pipes := s.pipes.insert p Pipe.fresh }.setFd i (some r)).setFd j (some w)
  have hfds : s'.fds = update (update s.fds i (some r)) j (some w) := rfl
  have hj' : update s.fds i (some r) j = none := by
    rw [update_of_ne hij.symm, hj]
  have hslots : ∀ b, s'.slots b = s.slots b + (if r = b then 1 else 0) +
      if w = b then 1 else 0 := by
    intro b
    have h := count_update_some (p := (· == b)) (a := w) hj'
    rw [slots_update_some hi, ← hfds] at h
    simpa [State.slots] using h
  have hends : ∀ q e, s'.endSlots q e = s.endSlots q e +
      (if p = q ∧ false = e then 1 else 0) + if p = q ∧ true = e then 1 else 0 := by
    intro q e
    have h := count_update_some (p := endOf s.files q e) (a := w) hj'
    rw [count_update_some hi, ← hfds] at h
    rw [State.endSlots, State.endSlots, show s'.files = s.files from rfl]
    simpa [endOf, hr, hw, pipeFile, File.isWriteEnd, O_RDONLY, O_WRONLY] using h
  have hzero : ∀ {b}, ¬ s.Referenced b → s.slots b = 0 := fun hb ↦ by
    by_contra hne
    exact hb (slots_pos.mp (Nat.pos_of_ne_zero hne))
  have hendsZero := c.endSlots_eq_zero (p := p) (by simp [Finmap.mem_iff, hp])
  have hnew : ∀ q, (pipeFile p O_RDONLY).pipe = some q → q ∈ s'.pipes := by
    rintro q hq
    obtain rfl : p = q := some.inj hq
    exact mem_insert.mpr (.inl rfl)
  constructor
  · intro k b hk
    rw [hslots]
    by_cases hbw : b = w
    · subst hbw
      refine ⟨_, hw, ?_, hnew⟩
      simp [hzero hwfree, hrw, pipeFile]
    · by_cases hbr : b = r
      · subst hbr
        refine ⟨_, hr, ?_, hnew⟩
        simp [hzero hrfree, Ne.symm hrw, pipeFile]
      · rw [hfds] at hk
        have hkj : k ≠ j := by
          rintro rfl
          simp [Ne.symm hbw] at hk
        have hki : k ≠ i := by
          rintro rfl
          simp [hkj, Ne.symm hbr] at hk
        rw [update_of_ne hkj, update_of_ne hki] at hk
        obtain ⟨g, hg, hrefs, hlive⟩ := c.file k b hk
        refine ⟨g, hg, ?_, fun q hq ↦ mem_insert.mpr (.inr (hlive q hq))⟩
        simp [hrefs, Ne.symm hbr, Ne.symm hbw]
  · intro q pipe hq
    simp only [hends]
    by_cases hqp : q = p
    · subst hqp
      obtain rfl : Pipe.fresh = pipe := by
        have h : (s.pipes.insert q Pipe.fresh).lookup q = some pipe := hq
        rw [lookup_insert] at h
        exact some.inj h
      refine ⟨fun e ↦ ?_, true, by decide⟩
      cases e <;> simp [hendsZero, Pipe.refs, Pipe.fresh]
    · have hq' : s.pipes.lookup q = some pipe := by
        rw [← lookup_insert_of_ne (b := Pipe.fresh) s.pipes hqp]
        exact hq
      obtain ⟨hcounts, hne⟩ := c.pipe q pipe hq'
      refine ⟨fun e ↦ ?_, hne⟩
      simp [hcounts, Ne.symm hqp]

end

end Fresh

/-! ## Which descriptions are freed -/

/-- From `s` to `s'` nothing was allocated, and a description is gone exactly when its last slot is.
-/
structure Moves (s s' : State) : Prop where
  counted : Counted s'
  source : ∀ a, s'.Referenced a → s.Referenced a
  files : ∀ a f', s'.files.lookup a = some f' →
    ∃ f, s.files.lookup a = some f ∧ f'.node = f.node ∧ f'.pipe = f.pipe
  freed : ∀ a, s.Referenced a → (a ∈ s'.files ↔ s'.Referenced a)
  kept : ∀ a ∈ s.files, ¬ s.Referenced a → a ∈ s'.files

namespace Moves

variable {s t u : State} {i : TaskId × Slot} {a : Addr}

theorem refl (c : Counted s) : Moves s s where
  counted := c
  source _ h := h
  files _ f h := ⟨f, h, rfl, rfl⟩
  freed _ h := ⟨fun _ ↦ h, c.mem_files⟩
  kept _ ha _ := ha

theorem shrink (h : Moves s t) (ha : a ∈ t.files) : a ∈ s.files := by
  obtain ⟨f', hf'⟩ := mem_iff.mp ha
  obtain ⟨f, hf, -⟩ := h.files a f' hf'
  exact mem_of_lookup_eq_some hf

theorem trans (h : Moves s t) (h' : Moves t u) : Moves s u where
  counted := h'.counted
  source a ha := h.source a (h'.source a ha)
  files a f'' hf'' := by
    obtain ⟨f', hf', hnode', hpipe'⟩ := h'.files a f'' hf''
    obtain ⟨f, hf, hnode, hpipe⟩ := h.files a f' hf'
    exact ⟨f, hf, hnode'.trans hnode, hpipe'.trans hpipe⟩
  freed a ha := by
    by_cases hta : t.Referenced a
    · exact h'.freed a hta
    · have hgone : a ∉ u.files := fun hu ↦ hta ((h.freed a ha).mp (h'.shrink hu))
      exact ⟨fun hu ↦ absurd hu hgone, h'.counted.mem_files⟩
  kept a ha href := h'.kept a (h.kept a ha href) fun hta ↦ href (h.source a hta)

theorem detach (c : Counted s) (hi : s.fds i = some a) : Moves s (s.detach i a) := by
  obtain ⟨f, hf, hrefs, -⟩ := c.file i a hi
  have hslots := detach_slots hi
  have href : ∀ b, b ≠ a → ((s.detach i a).Referenced b ↔ s.Referenced b) := by
    intro b hb
    have := hslots b
    rw [if_neg hb.symm, Nat.add_zero] at this
    rw [← slots_pos, ← slots_pos, this]
  have hmem : ∀ b, b ≠ a → (b ∈ (s.detach i a).files ↔ b ∈ s.files) := by
    intro b hb
    rw [← lookup_isSome, ← lookup_isSome, detach_files hf, if_neg hb]
  refine ⟨c.detach hi, fun b hb ↦ ?_, fun b g hg ↦ ?_, fun b hb ↦ ?_, fun b hb hnot ↦ ?_⟩
  · by_cases hba : b = a
    · exact hba ▸ ⟨i, hi⟩
    · exact (href b hba).mp hb
  · obtain ⟨old, refs, hold, rfl⟩ := ((Recounts.setFd s i _).trans (.fileUnref _ a)).files b g hg
    exact ⟨old, hold, rfl, rfl⟩
  · by_cases hba : b = a
    · subst hba
      have := hslots b
      rw [if_pos rfl] at this
      rw [← slots_pos, ← lookup_isSome, detach_files hf, if_pos rfl]
      split_ifs with hlast
      · simp only [isSome_none, Bool.false_eq_true, false_iff]
        omega
      · simp only [isSome_some, true_iff]
        omega
    · rw [href b hba, hmem b hba]
      exact ⟨fun _ ↦ hb, c.mem_files⟩
  · have hba : b ≠ a := by
      rintro rfl
      exact hnot ⟨i, hi⟩
    rwa [hmem b hba]

theorem attach (c : Counted s) (hi : s.fds i = none) (ha : s.Referenced a) :
    Moves s (s.attach i a) := by
  obtain ⟨f, hf⟩ := mem_iff.mp (c.mem_files ha)
  have hmem : ∀ b, b ∈ (s.attach i a).files ↔ b ∈ s.files := by
    intro b
    rw [attach_eq hf, mem_insert]
    refine or_iff_right_of_imp ?_
    rintro rfl
    exact mem_of_lookup_eq_some hf
  have href : ∀ b, (s.attach i a).Referenced b ↔ s.Referenced b := by
    intro b
    have := slots_update_some (a := a) hi b
    rw [← slots_pos, attach_eq hf, State.slots, this]
    by_cases hab : a = b
    · subst hab
      simp [ha]
    · rw [if_neg hab, Nat.add_zero, slots_pos]
  refine ⟨c.attach hi ha, fun b hb ↦ (href b).mp hb, fun b g hg ↦ ?_, fun b hb ↦ ?_,
    fun b hb _ ↦ (hmem b).mpr hb⟩
  · obtain ⟨old, refs, hold, rfl⟩ := ((Recounts.setFd s i _).trans (.fileRef _ a)).files b g hg
    exact ⟨old, hold, rfl, rfl⟩
  · rw [hmem, href]
    exact ⟨fun _ ↦ hb, c.mem_files⟩

end Moves

theorem Shifts.moves {S D : Set (TaskId × Slot)} (h : Shifts S D ∅ s s') (c : Counted s) :
    Moves s s' := by
  induction h with
  | refl => exact .refl c
  | detach _ hi ih => exact ih.trans (.detach ih.counted hi)
  | attach _ _ hi _ hk ih => exact ih.trans (.attach ih.counted hk ⟨_, hi⟩)
  | clear _ hlost => exact absurd hlost (Set.notMem_empty _)

/-- A call keeps the counts and frees exactly the descriptions that lose their last slot. -/
structure Exact (s s' : State) : Prop where
  counted : Counted s'
  freed : ∀ a ∈ s.files, a ∉ s'.files ↔ s.Referenced a ∧ ¬ s'.Referenced a

theorem Moves.exact (h : Moves s s') : Exact s s' where
  counted := h.counted
  freed a ha := by
    by_cases href : s.Referenced a
    · rw [h.freed a href]
      simp [href]
    · simp [href, h.kept a ha href]

/-- Descriptions are only added, and only free slots change, to refer to them. -/
theorem Counted.exact_of_grow (c' : Counted s') (hfiles : ∀ a ∈ s.files, a ∈ s'.files)
    (hfds : ∀ i a, s.fds i = some a → s'.fds i = some a) : Exact s s' where
  counted := c'
  freed a ha := by
    refine ⟨fun hgone ↦ absurd (hfiles a ha) hgone, ?_⟩
    rintro ⟨⟨i, hi⟩, hnot⟩
    exact absurd ⟨i, hfds i a hi⟩ hnot

section Calls

variable {s s' : State}

theorem endOf_congr {files files' : Heap File}
    (h : ∀ a, (files'.lookup a).map File.link = (files.lookup a).map File.link) (p : Addr)
    (w : Bool) : endOf files' p w = endOf files p w := by
  funext a
  have ha := congrArg (Option.any fun link ↦ link.2.1 == some p &&
    (link.2.2.1 &&& O_WRONLY != 0) == w) (h a)
  simpa [any_map, comp_def, File.link, endOf, File.isWriteEnd] using ha

theorem Quiet.counted (h : Quiet s s') (c : Counted s) : Counted s' := by
  have hslots : ∀ a, s'.slots a = s.slots a := fun a ↦ by rw [State.slots, State.slots, h.fds]
  have hends : ∀ p w, s'.endSlots p w = s.endSlots p w := fun p w ↦ by
    rw [State.endSlots, State.endSlots, h.fds, endOf_congr h.files]
  constructor
  · intro i a hi
    rw [h.fds] at hi
    obtain ⟨f, hf, hrefs, hlive⟩ := c.file i a hi
    have hlink := h.files a
    rw [hf, map_some, map_eq_some_iff] at hlink
    obtain ⟨f', hf', hlink⟩ := hlink
    simp only [File.link, Prod.mk.injEq] at hlink
    obtain ⟨-, hpipe, -, hrefs'⟩ := hlink
    refine ⟨f', hf', by rw [hrefs', hrefs, hslots], fun p hp ↦ ?_⟩
    have hmem := lookup_isSome.mpr (hlive p (hpipe ▸ hp))
    rw [← isSome_map (f := Pipe.counts), ← h.pipes p, isSome_map] at hmem
    exact lookup_isSome.mp hmem
  · intro p pipe' hp
    have hcounts := h.pipes p
    rw [hp, map_some, eq_comm, map_eq_some_iff] at hcounts
    obtain ⟨pipe, hpipe, hcounts⟩ := hcounts
    have hrefs : ∀ w, pipe'.refs w = pipe.refs w := by
      simp only [Pipe.counts, Prod.mk.injEq] at hcounts
      intro w
      cases w <;> simp [Pipe.refs, hcounts]
    simp only [hrefs, hends]
    exact c.pipe p pipe hpipe

theorem Quiet.exact (h : Quiet s s') (c : Counted s) : Exact s s' := by
  refine (h.counted c).exact_of_grow (fun a ha ↦ ?_) fun i a hi ↦ by rw [h.fds, hi]
  rw [← lookup_isSome, ← isSome_map (f := File.link), h.files a, isSome_map]
  exact lookup_isSome.mpr ha

theorem vfsOpen_exact (c : Counted s) (path : Option (List UInt8)) (flags : BitVec 32)
    (nodeChoice fileChoice : Option Addr) :
    Exact s (vfsOpen s path flags nodeChoice fileChoice).2 := by
  rcases vfsOpen_cases s path flags nodeChoice fileChoice with
    hsame | ⟨p, node, s', nodes, -, hnode, -, hcases⟩
  · rw [hsame]
    exact (Moves.refl c).exact
  obtain ⟨nodes', rfl⟩ := openNode_nodes hnode
  have c' : Counted { s with nodes := nodes } := ⟨c.file, c.pipe⟩
  rcases hcases with hopen | ⟨x, f, file, -, -, hfresh, -, hpipe, hrefs, hcases⟩
  · rw [hopen]
    exact Counted.exact_of_grow c' (fun _ h ↦ h) fun _ _ h ↦ h
  · have hgrow : ∀ a ∈ s.files, a ∈ s.files.insert f file := fun a ha ↦
      mem_insert.mpr (.inr ha)
    have cf : Counted { s with nodes := nodes, files := s.files.insert f file } :=
      c'.insert_file hfresh file
    rcases hcases with hleak | ⟨task, i, -, hi, hopen⟩
    · rw [hleak]
      exact cf.exact_of_grow hgrow fun _ _ h ↦ h
    · rw [hopen]
      have hfree : ¬ State.Referenced { s with nodes := nodes, files := s.files.insert f file } f :=
        c.not_referenced hfresh
      refine (cf.open_slot hi (lookup_insert _) hfree hpipe hrefs).exact_of_grow hgrow ?_
      intro j a hj
      have hji : j ≠ (task, i) := by
        rintro rfl
        exact absurd (hj.symm.trans hi) (by simp)
      simpa [State.setFd, hji] using hj

theorem vfsPipe_exact (c : Counted s) (pipeChoice readChoice writeChoice : Option Addr) :
    Exact s (vfsPipe s pipeChoice readChoice writeChoice).2.2 := by
  rcases vfsPipe_cases s pipeChoice readChoice writeChoice with
    hsame | ⟨p, r, w, task, i, j, -, hij, hi, hj, hrw, hp, hr, hw, hpipe⟩
  · rw [hsame]
    exact (Moves.refl c).exact
  · rw [hpipe]
    have hne : (task, i) ≠ (task, j) := fun heq ↦ hij (Prod.mk.inj heq).2
    have hw' : (s.files.insert r (pipeFile p O_RDONLY)).lookup w = none := by
      rw [lookup_insert_of_ne _ hrw.symm, hw]
    have cf := (c.insert_file hr (pipeFile p O_RDONLY)).insert_file hw' (pipeFile p O_WRONLY)
    refine (cf.open_pipe hne hi hj hrw ?_ (lookup_insert _) (c.not_referenced hr)
      (c.not_referenced hw) hp).exact_of_grow (fun a ha ↦ ?_) fun k a hk ↦ ?_
    · rw [lookup_insert_of_ne _ hrw, lookup_insert]
    · exact mem_insert.mpr (.inr (mem_insert.mpr (.inr ha)))
    · have hki : k ≠ (task, i) := by
        rintro rfl
        simp [hi] at hk
      have hkj : k ≠ (task, j) := by
        rintro rfl
        simp [hj] at hk
      simpa [State.setFd, hki, hkj] using hk

end Calls

theorem Counted.notMem_pipes_iff (c : Counted s) (p : Addr) :
    p ∉ s.pipes ↔ s.endSlots p false = 0 ∧ s.endSlots p true = 0 := by
  refine ⟨fun hp ↦ ⟨c.endSlots_eq_zero hp false, c.endSlots_eq_zero hp true⟩, ?_⟩
  rintro ⟨hread, hwrite⟩ hp
  obtain ⟨pipe, hpipe⟩ := mem_iff.mp hp
  obtain ⟨hcounts, w, hw⟩ := c.pipe p pipe hpipe
  rw [hcounts] at hw
  cases w
  · exact hw (by exact_mod_cast hread)
  · exact hw (by exact_mod_cast hwrite)

namespace System

variable {s : State} {task : TaskId}

/-- Every count is right, and the tables of tasks that are not alive are empty. -/
structure Sound (s : System) : Prop where
  counted : Counted s.vfs
  dead : ∀ t i, s.alive t = false → s.vfs.fds (t, i) = none

theorem call_exact (c : Counted s) (op : Op) : Exact s (call s op) := by
  cases op with
  | openFile path flags nodeChoice fileChoice => exact vfsOpen_exact c path flags nodeChoice fileChoice
  | close fd => exact ((vfsClose_shifts s fd).moves c).exact
  | dup oldfd => exact ((vfsDup_shifts s oldfd).moves c).exact
  | dup2 oldfd newfd => exact ((vfsDup2_shifts s oldfd newfd).moves c).exact
  | pipe pipeChoice readChoice writeChoice => exact vfsPipe_exact c pipeChoice readChoice writeChoice
  | _ => exact (call_quiet s rfl).exact c

theorem Sound.call {s : System} (h : Sound s) (hlive : s.alive task = true) (op : Op) :
    Sound ⟨System.call (s.vfs.enter task) op, s.alive⟩ := by
  have c : Counted (s.vfs.enter task) := ⟨h.counted.file, h.counted.pipe⟩
  refine ⟨(call_exact c op).counted, fun t i ht ↦ ?_⟩
  have hne : t ≠ task := by
    rintro rfl
    simp [hlive] at ht
  rw [call_fds_of_ne rfl op hne]
  exact h.dead t i ht

/-- A new task starts with an empty table. -/
theorem Sound.inherit_shifts {s : System} (h : Sound s) {child : TaskId}
    (hchild : s.alive child = false) (task : TaskId) :
    Shifts {k | k.1 = task} {k | k.1 = child} ∅ (s.vfs.enter task)
      (vfsFdInherit (s.vfs.enter task) child task) :=
  vfsFdInherit_shifts task fun i hi ↦ absurd (h.dead child i hchild) hi

theorem Sound.step {s : System} (h : Sound s) (task : TaskId) (op : Op) :
    Sound (s.step task op) ∧ Exact s.vfs (s.step task op).vfs := by
  have c : Counted (s.vfs.enter task) := ⟨h.counted.file, h.counted.pipe⟩
  have hdead : ∀ t i, s.alive t = false → (s.vfs.enter task).fds (t, i) = none := h.dead
  have hexact : ∀ {s'}, Exact (s.vfs.enter task) s' → Exact s.vfs s' := fun h' ↦
    ⟨h'.counted, h'.freed⟩
  rcases s.step_cases task op with
    hstep | ⟨child, -, hchild, hstep⟩ | ⟨-, hstep⟩ | ⟨hlive, hstep⟩ <;> rw [hstep]
  · exact ⟨h, (Moves.refl h.counted).exact⟩
  · have hmoves := (h.inherit_shifts hchild task).moves c
    refine ⟨⟨hmoves.counted, fun t i ht ↦ ?_⟩, hexact hmoves.exact⟩
    have hne : t ≠ child := by
      rintro rfl
      simp at ht
    rw [vfsFdInherit_fds_of_ne _ task hne]
    exact hdead t i (by simpa [hne] using ht)
  · have hmoves := (vfsCloseAll_shifts _).moves c
    refine ⟨⟨hmoves.counted, fun t i ht ↦ ?_⟩, hexact hmoves.exact⟩
    rw [vfsCloseAll_fds rfl]
    split_ifs with htask
    · rfl
    · exact hdead t i (by simpa [htask] using ht)
  · exact ⟨h.call hlive op, hexact (call_exact c op)⟩

theorem Sound.run {s : System} (h : Sound s) (steps : List (TaskId × Op)) : Sound (s.run steps) :=
  run_induction h (fun _ task op h ↦ (h.step task op).1) steps

theorem openStdio_counted (tty0 : Addr) {i : Slot} (c : Counted s)
    (hfree : s.fds (task, i) = none) (choice : Option Addr) :
    Counted (openStdio tty0 task s i choice) ∧
      ∀ k, k ≠ (task, i) → (openStdio tty0 task s i choice).fds k = s.fds k := by
  unfold openStdio
  cases hf : kmalloc s.files choice with
  | none => exact ⟨c, fun _ _ ↦ rfl⟩
  | some f =>
    have hfresh := lookup_of_kmalloc hf
    have cf := c.insert_file hfresh ⟨some tty0, none, 0, O_RDWR, 1⟩
    refine ⟨cf.open_slot hfree (lookup_insert _) (c.not_referenced hfresh) rfl rfl, ?_⟩
    intro k hk
    simp [State.setFd, hk]

theorem openStdios_counted (tty0 : Addr) (task : TaskId) {slots : List Slot} (hnodup : slots.Nodup)
    (c : Counted s) (hfree : ∀ i ∈ slots, s.fds (task, i) = none) (choices : Slot → Option Addr) :
    Counted (slots.foldl (fun s i ↦ openStdio tty0 task s i (choices i)) s) ∧
      ∀ k, k.1 ≠ task →
        (slots.foldl (fun s i ↦ openStdio tty0 task s i (choices i)) s).fds k = s.fds k := by
  induction slots generalizing s with
  | nil => exact ⟨c, fun _ _ ↦ rfl⟩
  | cons i slots ih =>
    obtain ⟨hnotMem, hnodup⟩ := List.nodup_cons.mp hnodup
    obtain ⟨ci, hi⟩ := openStdio_counted tty0 c (hfree i List.mem_cons_self) (choices i)
    obtain ⟨crest, hrest⟩ := ih hnodup ci fun j hj ↦ by
      rw [hi _ fun heq ↦ hnotMem ((Prod.mk.inj heq).2 ▸ hj)]
      exact hfree j (List.mem_cons_of_mem _ hj)
    exact ⟨crest, fun k hk ↦ (hrest k hk).trans (hi k fun heq ↦ hk (congrArg Prod.fst heq))⟩

theorem sound_boot (root : Addr) (nodes : Heap Node) (tty0 : Addr) (task : TaskId)
    (choices : Slot → Option Addr) : Sound (boot root nodes tty0 task choices) := by
  have c₀ : Counted ⟨root, nodes, ∅, ∅, fun _ ↦ none, some task⟩ := ⟨by simp, by simp⟩
  obtain ⟨c, hfds⟩ := openStdios_counted tty0 task
    (by decide : ([0, 1, 2] : List Slot).Nodup) c₀ (fun _ _ ↦ rfl) choices
  refine ⟨c, fun t i ht ↦ hfds (t, i) ?_⟩
  rintro rfl
  simp [boot] at ht

/-- After every run from boot, the counts of pipes and of the descriptions in use are the numbers
of slots they stand for, and no slot leads to a freed description or pipe. Every further step
frees exactly the descriptions that lose their last slot and the pipes that lose their last slot
on both ends. -/
theorem reference_counts_exact (root : Addr) (nodes : Heap Node) (tty0 : Addr) (task : TaskId)
    (choices : Slot → Option Addr) (steps : List (TaskId × Op)) :
    let s := ((boot root nodes tty0 task choices).run steps)
    (∀ p pipe, s.vfs.pipes.lookup p = some pipe →
      pipe.refsR = s.vfs.endSlots p false ∧ pipe.refsW = s.vfs.endSlots p true) ∧
    (∀ i a, s.vfs.fds i = some a → ∃ f, s.vfs.files.lookup a = some f ∧
      f.refs = s.vfs.slots a ∧ ∀ p, f.pipe = some p → p ∈ s.vfs.pipes) ∧
    ∀ t op,
      (∀ a ∈ s.vfs.files, a ∉ (s.step t op).vfs.files ↔
        s.vfs.Referenced a ∧ ¬ (s.step t op).vfs.Referenced a) ∧
      ∀ p ∈ s.vfs.pipes, p ∉ (s.step t op).vfs.pipes ↔
        (s.step t op).vfs.endSlots p false = 0 ∧ (s.step t op).vfs.endSlots p true = 0 := by
  intro s
  have h : Sound s := (sound_boot root nodes tty0 task choices).run steps
  refine ⟨fun p pipe hp ↦ ?_, h.counted.file, fun t op ↦ ?_⟩
  · have hcounts := (h.counted.pipe p pipe hp).1
    exact ⟨hcounts false, hcounts true⟩
  · obtain ⟨h', hexact⟩ := h.step t op
    exact ⟨hexact.freed, fun p _ ↦ h'.counted.notMem_pipes_iff p⟩

end System

end ToastyUnix.Vfs
