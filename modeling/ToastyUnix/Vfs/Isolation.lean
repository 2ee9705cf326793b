import ToastyUnix.Vfs.Lifetime
import ToastyUnix.Vfs.PipeAccess

/-!
# What tasks can do to each other's descriptors

In every interleaving of the calls of all tasks, a live pipe is passed on by inheritance only
(`pipe_spreads_by_inheritance`). When no removal hits a node in use, a task that makes no call keeps
its descriptors, each open on the same live node or pipe all the time
(`descriptors_survive_others`).
-/

namespace ToastyUnix.Vfs.System

open Option

variable {s : System} {t : TaskId} {q : Addr} {A : Set TaskId}

/-- A state of some run from the boot on. -/
def Reached (s : System) : Prop :=
  ∃ root nodes tty0 task choices before, s = (boot root nodes tty0 task choices).run before

theorem Reached.sound (h : s.Reached) : s.Sound := by
  obtain ⟨root, nodes, tty0, task, choices, before, rfl⟩ := h
  exact (sound_boot root nodes tty0 task choices).run before

/-- The tasks that can have a pipe after a step: a child of one that can have it joins. -/
def heirs (A : Set TaskId) : TaskId × Op → Set TaskId
  | (task, .spawn child) => {t | t ∈ A ∨ task ∈ A ∧ t = child}
  | _ => A

theorem subset_heirs (A : Set TaskId) (action : TaskId × Op) : A ⊆ heirs A action := by
  intro t ht
  unfold heirs
  split
  · exact .inl ht
  · exact ht

/-- A task comes to life only when it is created. -/
theorem spawn_of_alive_step {task : TaskId} {op : Op} (hdead : s.alive t = false)
    (hborn : (s.step task op).alive t = true) : op = .spawn t := by
  rcases s.step_cases task op with hstep | ⟨child, hop, -, hstep⟩ | ⟨-, hstep⟩ | ⟨-, hstep⟩ <;>
    rw [hstep] at hborn
  · simp [hdead] at hborn
  · by_cases hchild : t = child
    · rw [hop, hchild]
    · simp [hchild, hdead] at hborn
  · simp [Function.update_apply, hdead] at hborn
  · simp [hdead] at hborn

namespace Sound

variable (hsound : s.Sound)
include hsound

theorem alive_of_pipeOf {k : TaskId × Slot} (hk : s.vfs.pipeOf k = some q) :
    s.alive k.1 = true := by
  by_contra hdead
  rw [State.pipeOf, hsound.dead k.1 k.2 (by simpa using hdead)] at hk
  cases hk

/-- One step passes a live pipe on to a child at most. -/
theorem pipe_step (h : ∀ k, s.vfs.pipeOf k = some q → k.1 ∈ A) (hlive : q ∈ s.vfs.pipes)
    (task : TaskId) (op : Op) :
    ∀ k, (s.step task op).vfs.pipeOf k = some q → k.1 ∈ heirs A (task, op) := by
  intro k hk
  obtain ⟨D, W, hflow, hD, -⟩ := step_flows hsound task op
  rcases hflow.slot k q hk with hkeep | ⟨hkD, ⟨i, hi⟩ | hnew⟩
  · exact subset_heirs A _ (h k hkeep)
  · have htask : task ∈ A := h (task, i) hi
    rcases hD k hkD with heq | hdead
    · rw [heq]
      exact subset_heirs A _ htask
    · obtain rfl := spawn_of_alive_step hdead ((hsound.step task op).1.alive_of_pipeOf hk)
      exact .inr ⟨htask, rfl⟩
  · have hsome := Finmap.lookup_isSome.mpr hlive
    simp [hnew] at hsome

end Sound

variable {actions : List (TaskId × Op)}

/-- Let only tasks of `A` have a pipe. As long as it is live, only they and the tasks created by
them or their heirs have it, whatever all tasks do. -/
theorem pipe_spreads_by_inheritance (hs : s.Reached)
    (h : ∀ k, s.vfs.pipeOf k = some q → k.1 ∈ A)
    (hlive : Meets (fun s _ _ ↦ q ∈ s.vfs.pipes) s actions) :
    ∀ k, (s.run actions).vfs.pipeOf k = some q → k.1 ∈ actions.foldl heirs A := by
  have hsound := hs.sound
  clear hs
  induction actions generalizing s A with
  | nil => exact h
  | cons action actions ih =>
    obtain ⟨hnow, hlater⟩ := hlive
    exact ih (hsound.pipe_step h hnow action.1 action.2) hlater (hsound.step action.1 action.2).1

/-- Task 0 opens a pipe and creates task 1, which creates task 2. -/
def family : System :=
  (boot 0 ∅ 1 0 fun _ ↦ none).run
    [(0, .pipe (some 5) (some 6) (some 7)), (0, .spawn 1), (1, .spawn 2)]

theorem pipe_spreads_by_inheritance_family :
    (family.run [(2, .spawn 3), (0, .exit)]).vfs.pipeOf (3, 4) = some 5 ∧
      3 ∈ [(2, .spawn 3), (0, .exit)].foldl heirs {t | t.val < 3} := by
  have hs : family.Reached := ⟨_, _, _, _, _, _, rfl⟩
  have h : ∀ k : TaskId × Slot, family.vfs.pipeOf k = some 5 → k.1.val < 3 := by decide +kernel
  have hk : (family.run [(2, .spawn 3), (0, .exit)]).vfs.pipeOf (3, 4) = some 5 := by
    decide +kernel
  refine ⟨hk, pipe_spreads_by_inheritance hs h ?_ _ hk⟩
  exact ⟨by decide +kernel, by decide +kernel, trivial⟩

/-- A state of some run from the boot on in which no removal hits a node in use. -/
def ReachedSafely (s : System) : Prop :=
  ∃ root nodes kids tty0 task choices before, Tree root nodes kids ∧ tty0 ∈ nodes ∧
    Meets UnlinkSafe (boot root nodes tty0 task choices) before ∧
    s = (boot root nodes tty0 task choices).run before

theorem ReachedSafely.alive (h : s.ReachedSafely) : s.Alive := by
  obtain ⟨root, nodes, kids, tty0, task, choices, before, htree, htty, hsafe, rfl⟩ := h
  exact run_induction_of_meets (alive_boot htree htty task choices)
    (fun _ task op hsafe h ↦ h.step task op hsafe) hsafe

theorem Sound.objectBehind_step (hsound : s.Sound) (hlive : s.alive t = true) {task : TaskId}
    (hne : task ≠ t) (op : Op) (i : Slot) :
    (s.step task op).objectBehind (t, i) = s.objectBehind (t, i) := by
  have hslot := (step_fds_of_ne hlive hne op).2 i
  unfold objectBehind
  rw [hslot]
  cases ha : s.vfs.fds (t, i) with
  | none => rfl
  | some a =>
    obtain ⟨f, hf, -⟩ := hsound.counted.file (t, i) a ha
    obtain ⟨f', hf', -⟩ := (hsound.step task op).1.counted.file (t, i) a (hslot.trans ha)
    have hobject := step_object task op hf hf'
    rw [bind_some, bind_some, hf, hf', map_some, map_some, hobject]

theorem Alive.node_mem (h : s.Alive) {k : TaskId × Slot} {x : Addr}
    (hk : s.objectBehind k = some (some x, none)) : x ∈ s.vfs.nodes := by
  simp only [objectBehind, bind_eq_some_iff, map_eq_some_iff, File.object, Prod.mk.injEq] at hk
  obtain ⟨a, ha, f, hf, hnode, hpipe⟩ := hk
  obtain ⟨y, hy, hmem⟩ := h.nodes k a f ha hf hpipe
  rwa [some.inj (hnode.symm.trans hy)]

theorem Sound.pipe_mem (h : s.Sound) {k : TaskId × Slot} {x : Option Addr}
    (hk : s.objectBehind k = some (x, some q)) : q ∈ s.vfs.pipes := by
  simp only [objectBehind, bind_eq_some_iff, map_eq_some_iff, File.object, Prod.mk.injEq] at hk
  obtain ⟨a, ha, f, hf, -, hpipe⟩ := hk
  obtain ⟨f', hf', -, hlive⟩ := h.counted.file k a ha
  obtain rfl := some.inj (hf.symm.trans hf')
  exact hlive q hpipe

/-- Task 0 creates `a` and then task 1. -/
def shared : System :=
  ttyBoot.run [(0, .openFile (some [97]) (O_CREAT ||| O_RDWR) (some 2) (some 20)), (0, .spawn 1)]

/-- Task 1 creates `b`, closes and removes it, closes `a` and exits. -/
def visit : List (TaskId × Op) :=
  [(1, .openFile (some [98]) (O_CREAT ||| O_RDWR) (some 3) (some 21)), (1, .close 4),
    (1, .unlink (some [98])), (1, .close 3), (1, .exit)]

theorem shared_reachedSafely : shared.ReachedSafely := by
  refine ⟨0, ttyTree, _, 1, 0, _, _, ttyTree_tree, by decide, ?_, rfl⟩
  exact ⟨trivial, trivial, trivial⟩

theorem visit_safe : Meets (fun s task op ↦ task ≠ 0 ∧ s.UnlinkSafe task op) shared visit := by
  have hlookup : vfsLookup (shared.run (visit.take 2)).vfs [98] = some 3 := by decide +kernel
  refine ⟨⟨by decide, trivial⟩, ⟨by decide, trivial⟩, ⟨by decide, ?_⟩, ⟨by decide, trivial⟩,
    ⟨by decide, trivial⟩, trivial⟩
  intro v hv _ huse
  obtain rfl : 3 = v := some.inj (hlookup.symm.trans hv)
  obtain ⟨k, hk⟩ := objectBehind_of_inUse huse
  revert k
  decide +kernel

/-- Let no removal hit a node in use. While a task makes no call, whatever the others do, it is
alive, its slots refer to the same descriptions, and each of these is open on the same object. This
object is live in every state on the way, so its address is never given to another one. -/
theorem descriptors_survive_others (hs : s.ReachedSafely) (hlive : s.alive t = true)
    (hothers : Meets (fun s task op ↦ task ≠ t ∧ s.UnlinkSafe task op) s actions) (i : Slot) :
    Runs.Always (fun s action ↦ s.step action.1 action.2)
      (fun s' ↦ s'.alive t = true ∧ s'.vfs.fds (t, i) = s.vfs.fds (t, i) ∧
        s'.objectBehind (t, i) = s.objectBehind (t, i) ∧
        (∀ x, s.objectBehind (t, i) = some (some x, none) → x ∈ s'.vfs.nodes) ∧
        ∀ x q, s.objectBehind (t, i) = some (x, some q) → q ∈ s'.vfs.pipes)
      s actions := by
  have halways := hothers.always
    (P := fun s' ↦ s'.Alive ∧ s'.alive t = true ∧ s'.vfs.fds (t, i) = s.vfs.fds (t, i) ∧
      s'.objectBehind (t, i) = s.objectBehind (t, i))
    ⟨hs.alive, hlive, rfl, rfl⟩ fun s' action hcond h ↦ by
      obtain ⟨halive, hlive', hfds, hobject⟩ := h
      obtain ⟨hlive'', hslots⟩ := step_fds_of_ne hlive' hcond.1 action.2
      have hstep := halive.sound.objectBehind_step hlive' hcond.1 action.2 i
      exact ⟨halive.step action.1 action.2 hcond.2, hlive'', (hslots i).trans hfds,
        hstep.trans hobject⟩
  apply halways.mono
  rintro s' ⟨halive, hlive', hfds, hobject⟩
  exact ⟨hlive', hfds, hobject, fun x hx ↦ halive.node_mem (hobject.trans hx),
    fun x q hq ↦ halive.sound.pipe_mem (hobject.trans hq)⟩

/-- Slot 3 of task 0 is still open on the live node of `a`. -/
theorem descriptors_survive_others_shared :
    (shared.run visit).objectBehind (0, 3) = some (some 2, none) ∧
      2 ∈ (shared.run visit).vfs.nodes := by
  have hlive : shared.alive 0 = true := by decide +kernel
  have hbefore : shared.objectBehind (0, 3) = some (some 2, none) := by decide +kernel
  have hafter := (descriptors_survive_others shared_reachedSafely hlive visit_safe 3).last
  rw [show Runs.run _ shared visit = shared.run visit from rfl] at hafter
  generalize shared.run visit = s at hafter ⊢
  exact ⟨hafter.2.2.1.trans hbefore, hafter.2.2.2.1 2 hbefore⟩

end ToastyUnix.Vfs.System
