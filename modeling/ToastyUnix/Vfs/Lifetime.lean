import ToastyUnix.Vfs.Namespace
import ToastyUnix.Vfs.RefCount

/-!
# Lifetime of nodes and open descriptions

A description that is not a pipe end points to a node of the tree. `vfs_remove` frees the node
whether or not descriptions still point to it, so a descriptor can outlive its node. The results
say exactly which runs are safe from this: those in which no removal hits a node that a descriptor
refers to. In these runs every descriptor leads to a live node at all times.
-/

namespace ToastyUnix.Vfs

open Finmap Function Option

/-- Some descriptor refers to node `x`. -/
def State.InUse (s : State) (x : Addr) : Prop :=
  ∃ i a f, s.fds i = some a ∧ s.files.lookup a = some f ∧ f.pipe = none ∧ f.node = some x

/-- Every description in use that is no pipe end points to a live node. -/
def State.NodesLive (s : State) : Prop :=
  ∀ i a f, s.fds i = some a → s.files.lookup a = some f → f.pipe = none →
    ∃ x, f.node = some x ∧ x ∈ s.nodes

/-! ## Descriptions keep their nodes and pipes -/

/-- What a description is open on: a node or a pipe. -/
def File.object (f : File) : Option Addr × Option Addr := (f.node, f.pipe)

section Objects

variable {s s' : State} {a : Addr} {f f' : File}

theorem recounts_object (h : Recounts s s') (hf : s.files.lookup a = some f)
    (hf' : s'.files.lookup a = some f') : f'.object = f.object := by
  obtain ⟨g, refs, hg, rfl⟩ := h.files a f' hf'
  obtain rfl := some.inj (hg.symm.trans hf)
  rfl

theorem call_object (op : Op) (hf : s.files.lookup a = some f)
    (hf' : (System.call s op).files.lookup a = some f') : f'.object = f.object := by
  have hquiet {s' : State} (h : Quiet s s') (hf' : s'.files.lookup a = some f') :
      f'.object = f.object := by
    have hlink := h.files a
    rw [hf, hf'] at hlink
    simp only [map_some, some.injEq, File.link, Prod.mk.injEq] at hlink
    rw [File.object, hlink.1, hlink.2.1, File.object]
  have hkept {files : Heap File} (hkept : files.lookup a = s.files.lookup a)
      (hf' : files.lookup a = some f') : f'.object = f.object := by
    rw [some.inj (hf'.symm.trans (hkept.trans hf))]
  have hne {b : Addr} (hb : s.files.lookup b = none) : a ≠ b := by
    rintro rfl
    rw [hf] at hb
    cases hb
  cases op with
  | openFile path flags nodeChoice fileChoice =>
    rcases vfsOpen_cases s path flags nodeChoice fileChoice with
      hsame | ⟨p, node, s', nodes, -, hnode, -, hcases⟩
    · rw [System.call, hsame] at hf'
      exact hkept rfl hf'
    obtain ⟨nodes', rfl⟩ := openNode_nodes hnode
    rcases hcases with hopen | ⟨x, b, file, -, -, hb, -, -, -, hopen | ⟨t, i, -, -, hopen⟩⟩
    · rw [System.call, hopen] at hf'
      exact hkept rfl hf'
    all_goals
      rw [System.call, hopen] at hf'
      exact hkept (lookup_insert_of_ne _ (hne hb)) hf'
  | pipe pipeChoice readChoice writeChoice =>
    rcases vfsPipe_cases s pipeChoice readChoice writeChoice with
      hsame | ⟨p, r, w, t, i, j, -, -, -, -, -, -, hr, hw, hpipe⟩
    · rw [System.call, hsame] at hf'
      exact hkept rfl hf'
    · rw [System.call, hpipe] at hf'
      have hinsert : ((s.files.insert r (pipeFile p O_RDONLY)).insert w
          (pipeFile p O_WRONLY)).lookup a = s.files.lookup a := by
        rw [lookup_insert_of_ne _ (hne hw), lookup_insert_of_ne _ (hne hr)]
      exact hkept hinsert hf'
  | close fd => exact recounts_object (vfsClose_shifts _ fd).recounts hf hf'
  | dup oldfd => exact recounts_object (vfsDup_shifts _ oldfd).recounts hf hf'
  | dup2 oldfd newfd => exact recounts_object (vfsDup2_shifts _ oldfd newfd).recounts hf hf'
  | _ => exact hquiet (System.call_quiet s rfl) hf'

end Objects

section Calls

variable {s s' : State}

theorem Shifts.nodesLive {S D : Set (TaskId × Slot)} (h : Shifts S D ∅ s s') (c : Counted s)
    (hlive : s.NodesLive) : s'.NodesLive := by
  intro i a f' hi hf' hpipe
  obtain ⟨f, hf, hnode, hpipe'⟩ := (h.moves c).files a f' hf'
  obtain ⟨j, hj⟩ := (h.moves c).source a ⟨i, hi⟩
  rw [h.recounts.sameNodes.2, hnode]
  exact hlive j a f hj hf (hpipe'.symm.trans hpipe)

/-- A call that leaves the descriptors alone is safe when it frees no node in use. -/
theorem Quiet.nodesLive (h : Quiet s s') (hlive : s.NodesLive)
    (hkeep : ∀ x, s.InUse x → x ∈ s.nodes → x ∈ s'.nodes) : s'.NodesLive := by
  intro i a f' hi hf' hpipe
  rw [h.fds] at hi
  have hlink := h.files a
  rw [hf', map_some, eq_comm, map_eq_some_iff] at hlink
  obtain ⟨f, hf, hlink⟩ := hlink
  simp only [File.link, Prod.mk.injEq] at hlink
  have hpipe' : f.pipe = none := hlink.2.1.trans hpipe
  obtain ⟨x, hx, hmem⟩ := hlive i a f hi hf hpipe'
  exact ⟨x, hlink.1.symm.trans hx, hkeep x ⟨i, a, f, hi, hf, hpipe', hx⟩ hmem⟩

/-- `vfs_open` lets the new description point to a live node. -/
theorem vfsOpen_nodesLive (htree : s.HasTree) (hlive : s.NodesLive) (path : Option (List UInt8))
    (flags : BitVec 32) (nodeChoice fileChoice : Option Addr) :
    (vfsOpen s path flags nodeChoice fileChoice).2.NodesLive := by
  have hgrow : ∀ x ∈ s.nodes, x ∈ (vfsOpen s path flags nodeChoice fileChoice).2.nodes := by
    intro x hx
    rcases (vfsOpen_view htree path flags nodeChoice fileChoice).2 with
      ⟨-, hmem⟩ | ⟨p, a, -, -, -, hmem, -⟩
    · exact (hmem x).mpr hx
    · exact (hmem x).mpr (.inr hx)
  rcases vfsOpen_cases s path flags nodeChoice fileChoice with
    hsame | ⟨p, node, s', nodes, -, hnode, -, hcases⟩
  · rw [hsame]
    exact hlive
  obtain ⟨nodes', rfl⟩ := openNode_nodes hnode
  rcases hcases with hopen | ⟨x, f, file, -, hx, hfresh, hfile, hpipe, -, hcases⟩
  · rw [hopen] at hgrow ⊢
    exact fun i a g hi hg hg' ↦ (hlive i a g hi hg hg').imp fun y hy ↦ ⟨hy.1, hgrow y hy.2⟩
  -- Every slot refers to an old description or to the new one.
  have hfiles : ∀ i a g, (vfsOpen s path flags nodeChoice fileChoice).2.fds i = some a →
      (s.files.insert f file).lookup a = some g →
      g = file ∨ (s.fds i = some a ∧ s.files.lookup a = some g) := by
    intro i a g hi hg
    by_cases haf : a = f
    · subst haf
      exact .inl (some.inj (hg.symm.trans (lookup_insert _)))
    · rw [lookup_insert_of_ne _ haf] at hg
      refine .inr ⟨?_, hg⟩
      rcases hcases with hleak | ⟨task, j, -, -, hopen⟩
      · rwa [hleak] at hi
      · rw [hopen] at hi
        by_cases hij : i = (task, j)
        · subst hij
          exact absurd (by simpa [State.setFd] using hi : f = a) (Ne.symm haf)
        · simpa [State.setFd, hij] using hi
  have hresult : (vfsOpen s path flags nodeChoice fileChoice).2.files = s.files.insert f file ∧
      (vfsOpen s path flags nodeChoice fileChoice).2.nodes = nodes := by
    rcases hcases with hopen | ⟨task, j, -, -, hopen⟩ <;> rw [hopen] <;> exact ⟨rfl, rfl⟩
  intro i a g hi hg hgpipe
  rw [hresult.1] at hg
  rcases hfiles i a g hi hg with rfl | ⟨hi', hg'⟩
  · exact ⟨x, hfile, hresult.2 ▸ hx⟩
  · exact (hlive i a g hi' hg' hgpipe).imp fun y hy ↦ ⟨hy.1, hgrow y hy.2⟩

theorem vfsPipe_nodesLive (hlive : s.NodesLive) (pipeChoice readChoice writeChoice : Option Addr) :
    (vfsPipe s pipeChoice readChoice writeChoice).2.2.NodesLive := by
  rcases vfsPipe_cases s pipeChoice readChoice writeChoice with
    hsame | ⟨p, r, w, task, i, j, -, -, -, -, -, -, -, -, hpipe⟩
  · rw [hsame]
    exact hlive
  rw [hpipe]
  intro k a g hk hg hgpipe
  simp only [State.setFd] at hk hg
  have haw : a ≠ w := by
    rintro rfl
    obtain rfl := some.inj (hg.symm.trans (lookup_insert _))
    cases hgpipe
  rw [lookup_insert_of_ne _ haw] at hg
  have har : a ≠ r := by
    rintro rfl
    obtain rfl := some.inj (hg.symm.trans (lookup_insert _))
    cases hgpipe
  rw [lookup_insert_of_ne _ har] at hg
  have hkj : k ≠ (task, j) := by
    rintro rfl
    simp [haw.symm] at hk
  have hki : k ≠ (task, i) := by
    rintro rfl
    simp [update_of_ne hkj, har.symm] at hk
  rw [update_of_ne hkj, update_of_ne hki] at hk
  exact hlive k a g hk hg hgpipe

end Calls

namespace System

/-- No step of any task changes what a description is open on. -/
theorem step_object {sys : System} {a : Addr} {f f' : File} (task : TaskId) (op : Op) (hf : sys.vfs.files.lookup a = some f)
    (hf' : (sys.step task op).vfs.files.lookup a = some f') : f'.object = f.object := by
  have henter : (sys.vfs.enter task).files.lookup a = some f := hf
  rcases sys.step_cases task op with
    hstep | ⟨child, -, -, hstep⟩ | ⟨-, hstep⟩ | ⟨-, hstep⟩ <;> rw [hstep] at hf'
  · rw [some.inj (hf'.symm.trans hf)]
  · exact recounts_object (vfsFdInherit_recounts _ child task) henter hf'
  · exact recounts_object (vfsCloseAll_shifts _).recounts henter hf'
  · exact call_object op henter hf'

/-- No removal hits a node in use: the path of an `unlink` names no removable node that a descriptor
refers to. -/
def UnlinkSafe (s : System) (_ : TaskId) : Op → Prop
  | .unlink (some p) => ∀ v, vfsLookup s.vfs p = some v →
      (isDir s.vfs.nodes v = false ∨ childOf s.vfs.nodes v = none) → ¬ s.vfs.InUse v
  | _ => True

variable {s : System} {tty0 : Addr}

/-- What holds in every state that a safe run reaches. -/
structure Alive (s : System) : Prop where
  sound : Sound s
  tree : s.vfs.HasTree
  nodes : s.vfs.NodesLive

theorem call_nodesLive (h : s.Alive) (task : TaskId) {op : Op} (hsafe : s.UnlinkSafe task op) :
    (call (s.vfs.enter task) op).NodesLive := by
  have c : Counted (s.vfs.enter task) := ⟨h.sound.counted.file, h.sound.counted.pipe⟩
  have htree : (s.vfs.enter task).HasTree := h.tree
  have hlive : (s.vfs.enter task).NodesLive := h.nodes
  have hshape : ∀ op : Op, op.editsTree = false → ∀ x ∈ s.vfs.nodes,
      x ∈ (call (s.vfs.enter task) op).nodes := fun op hop x hx ↦
    (call_sameShape _ hop).2.mem_iff.mpr hx
  cases op with
  | openFile path flags nodeChoice fileChoice =>
    exact vfsOpen_nodesLive htree hlive path flags nodeChoice fileChoice
  | close fd => exact (vfsClose_shifts _ fd).nodesLive c hlive
  | dup oldfd => exact (vfsDup_shifts _ oldfd).nodesLive c hlive
  | dup2 oldfd newfd => exact (vfsDup2_shifts _ oldfd newfd).nodesLive c hlive
  | pipe pipeChoice readChoice writeChoice =>
    exact vfsPipe_nodesLive hlive pipeChoice readChoice writeChoice
  | read fd hasBuf count driver =>
    exact (vfsRead_quiet _ fd hasBuf count driver).nodesLive hlive
      fun x _ ↦ hshape (.read fd hasBuf count driver) rfl x
  | write fd buf driver alloc =>
    exact (vfsWrite_quiet _ fd buf driver alloc).nodesLive hlive
      fun x _ ↦ hshape (.write fd buf driver alloc) rfl x
  | ftruncate fd length alloc =>
    exact (vfsFtruncate_quiet _ fd length alloc).nodesLive hlive
      fun x _ ↦ hshape (.ftruncate fd length alloc) rfl x
  | readdir fd hasBuf count =>
    exact (vfsReaddir_quiet _ fd hasBuf count).nodesLive hlive
      fun x _ ↦ hshape (.readdir fd hasBuf count) rfl x
  | chmod path mode =>
    exact (vfsChmod_quiet _ path mode).nodesLive hlive
      fun x _ ↦ hshape (.chmod path mode) rfl x
  | mkdir path mode choice =>
    refine (vfsMkdir_quiet _ path mode choice).nodesLive hlive fun x _ hx ↦ ?_
    rcases vfsMkdir_view htree path mode choice with ⟨-, hsame⟩ | ⟨p, a, -, -, -, hmem, -, -⟩
    · rw [hsame]
      exact hx
    · exact (hmem x).mpr (.inr hx)
  | unlink path =>
    refine (vfsUnlink_quiet _ path).nodesLive hlive fun x huse hx ↦ ?_
    rcases vfsUnlink_view htree path with
      ⟨-, hsame⟩ | ⟨p, v, rfl, -, hv, hempty, hmem, -, -⟩
    · rw [hsame]
      exact hx
    · refine (hmem x).mpr ⟨?_, hx⟩
      rintro rfl
      exact hsafe x hv hempty huse
  | pread | ioctl | spawn | exit => exact hlive

theorem Alive.step (h : s.Alive) (task : TaskId) (op : Op) (hsafe : s.UnlinkSafe task op) :
    (s.step task op).Alive := by
  have c : Counted (s.vfs.enter task) := ⟨h.sound.counted.file, h.sound.counted.pipe⟩
  have hlive : (s.vfs.enter task).NodesLive := h.nodes
  refine ⟨(h.sound.step task op).1, step_hasTree h.tree task op, ?_⟩
  rcases s.step_cases task op with
    hstep | ⟨child, -, hchild, hstep⟩ | ⟨-, hstep⟩ | ⟨-, hstep⟩ <;> rw [hstep]
  · exact h.nodes
  · exact (h.sound.inherit_shifts hchild task).nodesLive c hlive
  · exact (vfsCloseAll_shifts _).nodesLive c hlive
  · exact call_nodesLive h task hsafe

theorem openStdio_node {s : State} (hs : ∀ a f, s.files.lookup a = some f → f.node = some tty0)
    (task : TaskId) (i : Slot) (choice : Option Addr) (a : Addr) (f : File)
    (hf : (openStdio tty0 task s i choice).files.lookup a = some f) : f.node = some tty0 := by
  unfold openStdio at hf
  split at hf
  · exact hs a f hf
  case h_2 b _ =>
    simp only [State.setFd] at hf
    by_cases hab : a = b
    · subst hab
      obtain rfl := some.inj ((lookup_insert _).symm.trans hf)
      rfl
    · rw [lookup_insert_of_ne _ hab] at hf
      exact hs a f hf

theorem openStdios_node {s : State} (hs : ∀ a f, s.files.lookup a = some f → f.node = some tty0)
    (task : TaskId) (slots : List Slot) (choices : Slot → Option Addr) (a : Addr) (f : File)
    (hf : (slots.foldl (fun s i ↦ openStdio tty0 task s i (choices i)) s).files.lookup a = some f) :
    f.node = some tty0 := by
  induction slots generalizing s with
  | nil => exact hs a f hf
  | cons i slots ih => exact ih (openStdio_node hs task i (choices i)) hf

theorem alive_boot {root : Addr} {nodes : Heap Node} {kids : Addr → List Addr}
    (htree : Tree root nodes kids) (htty : tty0 ∈ nodes) (task : TaskId)
    (choices : Slot → Option Addr) : (boot root nodes tty0 task choices).Alive := by
  obtain ⟨hroot, hnodes⟩ := boot_sameNodes root nodes tty0 task choices
  refine ⟨sound_boot root nodes tty0 task choices, ⟨kids, by rw [hroot, hnodes]; exact htree⟩, ?_⟩
  intro i a f _ hf _
  exact ⟨tty0, openStdios_node (by simp) task _ choices a f hf, by rwa [hnodes]⟩

/-- The console as the only file of the tree. -/
def ttyTree : Heap Node := dirAttach (emptyTree 0) 0 1 (freshNode [116] .device 0o600 none)

theorem ttyTree_tree : Tree 0 ttyTree (update (fun _ ↦ []) 0 [1]) :=
  (emptyTree_tree 0).attach (by decide) (by decide) ⟨by decide, by decide, by decide⟩ rfl
    (by decide)

/-- Task 0 has its three standard descriptors. -/
def ttyBoot : System := boot 0 ttyTree 1 0 fun i ↦ some (i.val + 10)

/-- What slot `k` is open on. -/
def objectBehind (s : System) (k : TaskId × Slot) : Option (Option Addr × Option Addr) :=
  (s.vfs.fds k).bind fun a ↦ (s.vfs.files.lookup a).map File.object

theorem objectBehind_of_inUse {x : Addr} (h : s.vfs.InUse x) :
    ∃ k, s.objectBehind k = some (some x, none) := by
  obtain ⟨k, a, f, hk, hf, hpipe, hnode⟩ := h
  exact ⟨k, by simp [objectBehind, hk, hf, File.object, hpipe, hnode]⟩

/-- In every run from boot in which no removal hits a node in use, every descriptor that is not a
pipe leads to a live description of a live node. -/
theorem open_files_have_live_nodes {root : Addr} {nodes : Heap Node} {kids : Addr → List Addr}
    (htree : Tree root nodes kids) {tty0 : Addr} (htty : tty0 ∈ nodes) (task : TaskId)
    (choices : Slot → Option Addr) {steps : List (TaskId × Op)}
    (hsafe : Meets UnlinkSafe (boot root nodes tty0 task choices) steps) :
    let s := ((boot root nodes tty0 task choices).run steps).vfs
    ∀ i a, s.fds i = some a → ∃ f, s.files.lookup a = some f ∧
      (f.pipe = none → ∃ x n, f.node = some x ∧ s.nodes.lookup x = some n) := by
  intro s i a hi
  have h : ((boot root nodes tty0 task choices).run steps).Alive :=
    run_induction_of_meets (alive_boot htree htty task choices)
      (fun _ task op hsafe h ↦ h.step task op hsafe) hsafe
  obtain ⟨f, hf, -⟩ := h.sound.counted.file i a hi
  refine ⟨f, hf, fun hpipe ↦ ?_⟩
  obtain ⟨x, hx, hmem⟩ := h.nodes i a f hi hf hpipe
  obtain ⟨n, hn⟩ := mem_iff.mp hmem
  exact ⟨x, n, hx, hn⟩

/-- A task creates `a`, makes a directory and removes it: slot 3 leads to the live node of `a`. -/
theorem open_files_have_live_nodes_of_open :
    let steps : List (TaskId × Op) :=
      [(0, .openFile (some [97]) (O_CREAT ||| O_RDWR) (some 2) (some 20)),
        (0, .mkdir (some [100]) 0 (some 7)), (0, .unlink (some [100]))]
    let s := (ttyBoot.run steps).vfs
    Meets UnlinkSafe ttyBoot steps ∧ s.fds (0, 3) = some 20 ∧
      ∃ f x n, s.files.lookup 20 = some f ∧ f.pipe = none ∧ f.node = some x ∧
        s.nodes.lookup x = some n := by
  intro steps s
  have hsafe : Meets UnlinkSafe ttyBoot steps := by
    refine ⟨trivial, trivial, ?_, trivial⟩
    intro v hv _ huse
    obtain rfl : 7 = v := some.inj hv
    obtain ⟨k, hk⟩ := objectBehind_of_inUse huse
    revert k
    decide +kernel
  have hslot : s.fds (0, 3) = some 20 := rfl
  obtain ⟨f, hf, hnode⟩ := open_files_have_live_nodes ttyTree_tree (by decide) 0
    (fun i ↦ some (i.val + 10)) hsafe (0, 3) 20 hslot
  have hpipe : f.pipe = none := by
    have hobject : (s.files.lookup 20).map File.pipe = some none := rfl
    rw [show s.files.lookup 20 = some f from hf, map_some] at hobject
    exact some.inj hobject
  obtain ⟨x, n, hx, hn⟩ := hnode hpipe
  exact ⟨hsafe, hslot, f, x, n, hf, hpipe, hx, hn⟩

/-- A task opens `a`, and the name is removed: slot 3 refers to a freed node. -/
theorem unlink_frees_node_in_use :
    let s := ((boot 0 (emptyTree 0) 0 0 fun _ ↦ none).run
      [(0, .openFile (some [97]) (O_CREAT ||| O_RDWR) (some 1) (some 2)),
        (0, .unlink (some [97]))]).vfs
    ∃ f, s.fds (0, 3) = some 2 ∧ s.files.lookup 2 = some f ∧ f.pipe = none ∧ f.node = some 1 ∧
      1 ∉ s.nodes := by
  refine ⟨_, rfl, rfl, rfl, rfl, ?_⟩
  decide

end System

end ToastyUnix.Vfs
