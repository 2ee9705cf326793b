import ToastyUnix.Vfs.System

/-!
# The tree as a map from component lists

The abstract view of the tree is the partial map from lists of path components to nodes. In every
state reachable from an empty root directory the sibling lists form a tree, lookups read the map,
and the calls that create and remove entries change the map at one place or not at all.
-/

namespace ToastyUnix.Vfs

open Function Finmap

/-- The abstract state of the name space: which node a list of components names. -/
abbrev NameMap := List (List UInt8) → Option Addr

/-- The map that the tree represents. -/
def State.view (s : State) : NameMap := resolve s.nodes s.root

theorem vfsLookup_eq_view (s : State) (path : List UInt8) :
    vfsLookup s path = s.view (components path) :=
  vfsLookup_eq_resolve s path

variable {s : State} {nodes : Heap Node}

/-- The nodes form a tree. -/
def State.HasTree (s : State) : Prop := ∃ kids, Tree s.root s.nodes kids

theorem State.HasTree.congr (h : s.HasTree) (hshape : SameShape s.nodes nodes) :
    State.HasTree { s with nodes := nodes } :=
  h.imp fun _ t ↦ t.congr hshape

theorem State.HasTree.view_congr (h : s.HasTree) (hshape : SameShape s.nodes nodes) :
    State.view { s with nodes := nodes } = s.view := by
  obtain ⟨kids, t⟩ := h
  exact t.resolve_congr hshape

theorem reserve_shape {n m : Node} {need : ℕ} {alloc : Realloc}
    (h : reserve n need alloc = .room m) : m.shape = n.shape := by
  unfold reserve at h
  split at h
  · split at h
    · cases h
    · split at h
      · cases h
        rfl
      · cases h
  · cases h
    rfl

theorem fileWrite_shape (f : File) (n : Node) (buf : List UInt8) (alloc : Realloc) :
    (fileWrite f n buf alloc).2.2.shape = n.shape := by
  unfold fileWrite
  dsimp only
  split
  · rfl
  · rfl
  case h_3 m hm => exact (show _ = m.shape from rfl).trans (reserve_shape hm)

theorem nodeTruncate_shape (n : Node) (length : ℕ) (alloc : Realloc) :
    (nodeTruncate n length alloc).2.shape = n.shape := by
  unfold nodeTruncate
  split_ifs
  · rfl
  · split
    · rfl
    · rfl
    case h_3 m hm =>
      split_ifs
      · exact (show _ = m.shape from rfl).trans (reserve_shape hm)
      · exact reserve_shape hm

theorem SameShape.refl (nodes : Heap Node) : SameShape nodes nodes := fun _ ↦ rfl

theorem vfsWrite_sameShape (s : State) (fd : ℤ) (buf : Option (List UInt8)) (driver : ℤ)
    (alloc : Realloc) : SameShape s.nodes (vfsWrite s fd buf driver alloc).2.nodes := by
  unfold vfsWrite
  split
  · exact .refl _
  split
  · exact .refl _
  split
  · exact .refl _
  split_ifs
  · exact .refl _
  · split
    · split
      · exact .refl _
      · split <;> exact .refl _
    · split
      · exact .refl _
      case h_2 x n hn =>
        split
        · exact sameShape_insert (nodeOf_eq_some hn).2.2 (fileWrite_shape _ _ _ _)
        · split_ifs <;> exact .refl _
        · exact .refl _

theorem vfsFtruncate_sameShape (s : State) (fd length : ℤ) (alloc : Realloc) :
    SameShape s.nodes (vfsFtruncate s fd length alloc).2.nodes := by
  unfold vfsFtruncate
  split
  · exact .refl _
  split
  · exact .refl _
  case h_2 x n hn =>
    split_ifs
    · exact .refl _
    · exact .refl _
    · obtain ⟨f, -, hf⟩ := Option.bind_eq_some_iff.mp hn
      exact sameShape_insert (nodeOf_eq_some hf).2.2 (nodeTruncate_shape _ _ _)

theorem vfsChmod_sameShape (s : State) (path : Option (List UInt8)) (mode : BitVec 32) :
    SameShape s.nodes (vfsChmod s path mode).2.nodes := by
  unfold vfsChmod
  split
  · exact .refl _
  split
  · exact .refl _
  split
  · exact .refl _
  case h_2 hn => exact sameShape_insert hn rfl

/-- What `vfs_mkdir` does to the map: nothing when it fails, one new entry when it succeeds. -/
theorem vfsMkdir_view (h : s.HasTree) (path : Option (List UInt8)) (mode : BitVec 32)
    (choice : Option Addr) :
    ((vfsMkdir s path mode choice).1 ≠ 0 ∧ (vfsMkdir s path mode choice).2 = s) ∨
    ∃ p a, path = some p ∧ (vfsMkdir s path mode choice).1 = 0 ∧ a ∉ s.nodes ∧
      (∀ x, x ∈ (vfsMkdir s path mode choice).2.nodes ↔ x = a ∨ x ∈ s.nodes) ∧
      (vfsMkdir s path mode choice).2.HasTree ∧
      (vfsMkdir s path mode choice).2.view =
        update s.view (components p) (some a) := by
  unfold vfsMkdir
  cases path with
  | none => exact .inl ⟨by simp [Errno.EINVAL], rfl⟩
  | some p =>
    dsimp only
    cases hlookup : vfsLookup s p with
    | some _ => exact .inl ⟨by simp [Errno.EEXIST], rfl⟩
    | none =>
      obtain ⟨kids, t⟩ := h
      dsimp only
      rcases vfsCreate_cases t hlookup .dir 0o755 none choice with
        hfail | ⟨a, nodes', hcreate, ha, htree, hmem, ⟨n, hn, -⟩, hview⟩
      · rw [vfsCreateDir, hfail]
        exact .inl ⟨by simp [Errno.ENOENT], rfl⟩
      · have htree' : State.HasTree { s with nodes := nodes' } := htree
        have hdead : a ∉ s.nodes := by simp [mem_iff, ha]
        refine .inr ⟨p, a, rfl, ?_⟩
        rw [vfsCreateDir, hcreate]
        dsimp only
        rw [hn]
        dsimp only
        split_ifs
        · have hshape : SameShape nodes' (nodes'.insert a { n with mode := mode }) :=
            sameShape_insert hn rfl
          refine ⟨rfl, hdead, fun x ↦ hshape.mem_iff.trans (hmem x), htree'.congr hshape, ?_⟩
          exact (htree'.view_congr hshape).trans hview
        · exact ⟨rfl, hdead, hmem, htree', hview⟩

/-- What `vfs_unlink` does to the map: nothing when it fails, one entry less when it succeeds. -/
theorem vfsUnlink_view (h : s.HasTree) (path : Option (List UInt8)) :
    ((vfsUnlink s path).1 ≠ 0 ∧ (vfsUnlink s path).2 = s) ∨
    ∃ p v, path = some p ∧ (vfsUnlink s path).1 = 0 ∧ vfsLookup s p = some v ∧
      (isDir s.nodes v = false ∨ childOf s.nodes v = none) ∧
      (∀ x, x ∈ (vfsUnlink s path).2.nodes ↔ x ≠ v ∧ x ∈ s.nodes) ∧
      (vfsUnlink s path).2.HasTree ∧
      (vfsUnlink s path).2.view = update s.view (components p) none := by
  unfold vfsUnlink
  cases path with
  | none => exact .inl ⟨by simp [Errno.EINVAL], rfl⟩
  | some p =>
    dsimp only
    cases hlookup : vfsLookup s p with
    | none => exact .inl ⟨by simp [Errno.ENOENT], rfl⟩
    | some x =>
      obtain ⟨kids, t⟩ := h
      dsimp only
      rcases vfsRemove_cases t p with
        hfail | ⟨v, nodes', hremove, hv, hempty, htree, hmem, hview⟩
      · rw [hfail]
        exact .inl ⟨by simp [Errno.EISDIR], rfl⟩
      · rw [hremove]
        exact .inr ⟨p, v, rfl, rfl, hv, hempty, hmem, htree, hview⟩

/-- The node of `vfs_open` was there, or a file was created and entered in the map. -/
theorem openNode_view (h : s.HasTree) {p : List UInt8} {flags : BitVec 32}
    {choice node : Option Addr}
    (hnode : openNode s p flags choice = (node, { s with nodes := nodes })) :
    nodes = s.nodes ∨
    ∃ a, vfsLookup s p = none ∧ a ∉ s.nodes ∧ State.HasTree { s with nodes := nodes } ∧
      (∀ x, x ∈ nodes ↔ x = a ∨ x ∈ s.nodes) ∧
      State.view { s with nodes := nodes } = update s.view (components p) (some a) := by
  have hsame : ∀ {node' : Option Addr}, (node', s) = (node, { s with nodes := nodes }) →
      nodes = s.nodes := fun heq ↦ (congrArg State.nodes (Prod.mk.inj heq).2).symm
  unfold openNode at hnode
  cases hlookup : vfsLookup s p with
  | some x =>
    rw [hlookup] at hnode
    exact .inl (hsame hnode)
  | none =>
    rw [hlookup] at hnode
    dsimp only at hnode
    split_ifs at hnode
    · obtain ⟨kids, t⟩ := h
      rw [vfsCreateFile] at hnode
      rcases vfsCreate_cases t hlookup .file 0o644 none choice with
        hfail | ⟨a, nodes', hcreate, ha, htree, hmem, -, hview⟩
      · rw [hfail] at hnode
        exact .inl (hsame hnode)
      · rw [hcreate] at hnode
        obtain rfl : nodes' = nodes := congrArg State.nodes (Prod.mk.inj hnode).2
        exact .inr ⟨a, rfl, by simp [mem_iff, ha], htree, hmem, hview⟩
    · exact .inl (hsame hnode)

/-- What `vfs_open` does to the map: nothing, unless it creates a file. -/
theorem vfsOpen_view (h : s.HasTree) (path : Option (List UInt8)) (flags : BitVec 32)
    (nodeChoice fileChoice : Option Addr) :
    (vfsOpen s path flags nodeChoice fileChoice).2.HasTree ∧
    ((vfsOpen s path flags nodeChoice fileChoice).2.view = s.view ∧
      (∀ x, x ∈ (vfsOpen s path flags nodeChoice fileChoice).2.nodes ↔ x ∈ s.nodes) ∨
    ∃ p a, path = some p ∧ vfsLookup s p = none ∧ a ∉ s.nodes ∧
      (∀ x, x ∈ (vfsOpen s path flags nodeChoice fileChoice).2.nodes ↔ x = a ∨ x ∈ s.nodes) ∧
      (vfsOpen s path flags nodeChoice fileChoice).2.view =
        update s.view (components p) (some a)) := by
  rcases vfsOpen_cases s path flags nodeChoice fileChoice with
    hsame | ⟨p, node, s', nodes, hpath, hnode, hshape, hcases⟩
  · rw [hsame]
    exact ⟨h, .inl ⟨rfl, fun _ ↦ Iff.rfl⟩⟩
  obtain ⟨nodes', rfl⟩ := openNode_nodes hnode
  -- Behind the lookup or creation, only contents of nodes and descriptions change.
  obtain ⟨hroot, hnodes⟩ : (vfsOpen s path flags nodeChoice fileChoice).2.root = s.root ∧
      (vfsOpen s path flags nodeChoice fileChoice).2.nodes = nodes := by
    rcases hcases with hopen | ⟨x, f, file, -, -, -, -, -, -, hopen | ⟨task, i, -, -, hopen⟩⟩ <;>
      rw [hopen] <;> exact ⟨rfl, rfl⟩
  simp only [State.HasTree, State.view, hroot, hnodes]
  rcases openNode_view h hnode with rfl | ⟨a, hmissing, ha, htree, hmem, hview⟩
  · exact ⟨h.congr hshape, .inl ⟨h.view_congr hshape, fun x ↦ hshape.mem_iff⟩⟩
  · refine ⟨htree.congr hshape, .inr ⟨p, a, hpath, hmissing, ha, fun x ↦ ?_, ?_⟩⟩
    · exact hshape.mem_iff.trans (hmem x)
    · exact (htree.view_congr hshape).trans hview

/-- The tree that consists of the root directory alone. -/
def emptyTree (root : Addr) : Heap Node := singleton root rootNode

theorem emptyTree_tree (root : Addr) : Tree root (emptyTree root) fun _ ↦ [] where
  root_dir := by simp [isDir, emptyTree, lookup_singleton_eq, rootNode, freshNode]
  chain d hd := by
    obtain rfl : d = root := (mem_singleton _ _ _).mp hd
    simp [Chain.IsChain, childOf, emptyTree, lookup_singleton_eq, rootNode, freshNode]
  kid d a ha := by simp at ha
  linked a ha hroot := absurd ((mem_singleton _ _ _).mp ha) hroot
  root_free d := by simp
  nodup d := List.nodup_nil
  names d a ha := by simp at ha

/-- The calls that edit the tree. -/
def Op.editsTree : Op → Bool
  | .openFile .. | .mkdir .. | .unlink .. => true
  | _ => false

namespace System

/-- Every other call keeps the shape of the tree. -/
theorem call_sameShape (s : State) {op : Op} (hop : op.editsTree = false) :
    (call s op).root = s.root ∧ SameShape s.nodes (call s op).nodes := by
  have hnodes : ∀ {s'}, SameNodes s s' → s'.root = s.root ∧ SameShape s.nodes s'.nodes :=
    fun h ↦ ⟨h.1, by rw [h.2]; exact .refl _⟩
  cases op with
  | openFile | mkdir | unlink => cases hop
  | close fd => exact hnodes (vfsClose_shifts s fd).recounts.sameNodes
  | dup oldfd => exact hnodes (vfsDup_shifts s oldfd).recounts.sameNodes
  | dup2 oldfd newfd => exact hnodes (vfsDup2_shifts s oldfd newfd).recounts.sameNodes
  | pipe pipeChoice readChoice writeChoice =>
    exact hnodes (vfsPipe_sameNodes s pipeChoice readChoice writeChoice)
  | read fd hasBuf count driver =>
    exact hnodes ⟨(vfsRead_quiet s fd hasBuf count driver).root, vfsRead_nodes s fd hasBuf count driver⟩
  | readdir fd hasBuf count =>
    exact hnodes ⟨(vfsReaddir_quiet s fd hasBuf count).root, vfsReaddir_nodes s fd hasBuf count⟩
  | write fd buf driver alloc =>
    exact ⟨(vfsWrite_quiet s fd buf driver alloc).root, vfsWrite_sameShape s fd buf driver alloc⟩
  | ftruncate fd length alloc =>
    exact ⟨(vfsFtruncate_quiet s fd length alloc).root, vfsFtruncate_sameShape s fd length alloc⟩
  | chmod path mode => exact ⟨(vfsChmod_quiet s path mode).root, vfsChmod_sameShape s path mode⟩
  | pread | ioctl | spawn | exit => exact hnodes (.refl s)

variable {s s' : State}

theorem hasTree_of_sameShape (h : s.HasTree)
    (hsame : s'.root = s.root ∧ SameShape s.nodes s'.nodes) : s'.HasTree := by
  rw [State.HasTree, hsame.1]
  exact h.congr hsame.2

theorem call_hasTree (h : s.HasTree) (op : Op) : (call s op).HasTree := by
  cases op with
  | openFile path flags nodeChoice fileChoice => exact (vfsOpen_view h path flags nodeChoice fileChoice).1
  | mkdir path mode choice =>
    rcases vfsMkdir_view h path mode choice with ⟨-, hsame⟩ | ⟨p, a, -, -, -, -, htree, -⟩
    · rw [call, hsame]
      exact h
    · exact htree
  | unlink path =>
    rcases vfsUnlink_view h path with ⟨-, hsame⟩ | ⟨p, v, -, -, -, -, -, htree, -⟩
    · rw [call, hsame]
      exact h
    · exact htree
  | _ => exact hasTree_of_sameShape h (call_sameShape s rfl)

theorem step_hasTree {s : System} (h : s.vfs.HasTree) (task : TaskId) (op : Op) :
    (s.step task op).vfs.HasTree := by
  have h' : (s.vfs.enter task).HasTree := h
  have hnodes : ∀ {s'}, SameNodes (s.vfs.enter task) s' → s'.HasTree := fun hsame ↦
    hasTree_of_sameShape h' ⟨hsame.1, by rw [hsame.2]; exact .refl _⟩
  rcases s.step_cases task op with
    hstep | ⟨child, -, -, hstep⟩ | ⟨-, hstep⟩ | ⟨-, hstep⟩ <;> rw [hstep]
  · exact h
  · exact hnodes (vfsFdInherit_recounts _ child task).sameNodes
  · exact hnodes (vfsCloseAll_shifts _).recounts.sameNodes
  · exact call_hasTree h' op

theorem openStdio_sameNodes (tty0 : Addr) (task : TaskId) (s : State) (i : Slot)
    (choice : Option Addr) : SameNodes s (openStdio tty0 task s i choice) := by
  unfold openStdio
  split <;> exact ⟨rfl, rfl⟩

theorem boot_sameNodes (root : Addr) (nodes : Heap Node) (tty0 : Addr) (task : TaskId)
    (choices : Slot → Option Addr) :
    (boot root nodes tty0 task choices).vfs.root = root ∧
      (boot root nodes tty0 task choices).vfs.nodes = nodes :=
  foldl_sameNodes (fun s i ↦ openStdio_sameNodes tty0 task s i (choices i)) _ _

theorem run_hasTree (root tty0 : Addr) (task : TaskId) (choices : Slot → Option Addr)
    (steps : List (TaskId × Op)) :
    ((boot root (emptyTree root) tty0 task choices).run steps).vfs.HasTree := by
  refine run_induction (P := fun s ↦ s.vfs.HasTree) ?_ (fun _ task op h ↦ step_hasTree h task op)
    steps
  obtain ⟨hroot, hnodes⟩ := boot_sameNodes root (emptyTree root) tty0 task choices
  rw [State.HasTree, hroot, hnodes]
  exact ⟨_, emptyTree_tree root⟩

theorem lookup_of_view_update {p : List UInt8} {a : Option Addr}
    (h : s'.view = update s.view (components p) a) :
    vfsLookup s' p = a ∧
      ∀ q, components q ≠ components p → vfsLookup s' q = vfsLookup s q := by
  refine ⟨?_, fun q hq ↦ ?_⟩
  · rw [vfsLookup_eq_view, h, update_self]
  · rw [vfsLookup_eq_view, vfsLookup_eq_view, h, update_of_ne hq]

/-- In every state that the calls of any tasks reach from an empty root directory, the sibling
lists link every node but the root from exactly one directory, under good names that are unique
there; a lookup depends on the components of its path only; creating and removing entries change
the lookups of one list of components; and a failing call changes no lookup. -/
theorem tree_refines_map (root tty0 : Addr) (task t : TaskId) (choices : Slot → Option Addr)
    (steps : List (TaskId × Op)) :
    let s := ((boot root (emptyTree root) tty0 task choices).run steps).vfs.enter t
    (∃ kids : Addr → List Addr,
      (∀ d ∈ s.nodes, Chain.IsChain (siblingOf s.nodes) (childOf s.nodes d) (kids d)) ∧
      (∀ a ∈ s.nodes, a ≠ s.root → ∃! d, a ∈ kids d) ∧
      (∀ d, (kids d).Nodup ∧ ∀ a ∈ kids d, isDir s.nodes d = true ∧
        ∃ n, s.nodes.lookup a = some n ∧ n.name ≠ [] ∧ n.name.length < vfsNameMax ∧
          slash ∉ n.name ∧ ∀ b ∈ kids d, nameIs s.nodes n.name b = true → b = a)) ∧
    (∀ p q, components p = components q → vfsLookup s p = vfsLookup s q) ∧
    (∀ path mode choice, ((vfsMkdir s path mode choice).1 = 0 → ∃ p a, path = some p ∧ a ∉ s.nodes ∧
        vfsLookup (vfsMkdir s path mode choice).2 p = some a ∧ ∀ q, components q ≠ components p →
          vfsLookup (vfsMkdir s path mode choice).2 q = vfsLookup s q) ∧
      ((vfsMkdir s path mode choice).1 ≠ 0 →
        ∀ q, vfsLookup (vfsMkdir s path mode choice).2 q = vfsLookup s q)) ∧
    (∀ path flags nodeChoice fileChoice,
      ∀ a ∈ (vfsOpen s path flags nodeChoice fileChoice).2.nodes, a ∉ s.nodes → ∃ p, path = some p ∧
          vfsLookup (vfsOpen s path flags nodeChoice fileChoice).2 p = some a ∧
          ∀ q, components q ≠ components p →
            vfsLookup (vfsOpen s path flags nodeChoice fileChoice).2 q = vfsLookup s q) ∧
    (∀ path, ((vfsUnlink s path).1 = 0 → ∃ p v, path = some p ∧ vfsLookup s p = some v ∧
        (isDir s.nodes v = false ∨ childOf s.nodes v = none) ∧
        vfsLookup (vfsUnlink s path).2 p = none ∧
        ∀ q, components q ≠ components p → vfsLookup (vfsUnlink s path).2 q = vfsLookup s q) ∧
      ((vfsUnlink s path).1 ≠ 0 → ∀ q, vfsLookup (vfsUnlink s path).2 q = vfsLookup s q)) := by
  intro s
  have h : s.HasTree := run_hasTree root tty0 task choices steps
  refine ⟨?_, fun p q hpq ↦ ?_, fun path mode choice ↦ ?_, fun path flags nodeChoice fileChoice a
    ha hfresh ↦ ?_, fun path ↦ ?_⟩
  · obtain ⟨kids, tree⟩ := h
    refine ⟨kids, tree.chain, fun a ha hroot ↦ ?_, fun d ↦ ⟨tree.nodup d, fun a ha ↦ ?_⟩⟩
    · obtain ⟨d, hd⟩ := tree.linked a ha hroot
      exact ⟨d, hd, fun e he ↦ tree.parent_unique he hd⟩
    · obtain ⟨hdir, n, hn, -, hgood⟩ := tree.kid d a ha
      refine ⟨hdir, n, hn, hgood.ne_nil, hgood.length_lt, hgood.no_slash, fun b hb hname ↦ ?_⟩
      exact tree.names d b hb a ha n.name hname (nameIs_iff.mpr ⟨n, hn, rfl⟩)
  · rw [vfsLookup_eq_view, vfsLookup_eq_view, hpq]
  · rcases vfsMkdir_view h path mode choice with
      ⟨hfail, hsame⟩ | ⟨p, a, hpath, hok, hfresh, -, -, hview⟩
    · exact ⟨fun hok ↦ absurd hok hfail, fun _ q ↦ by rw [hsame]⟩
    · exact ⟨fun _ ↦ ⟨p, a, hpath, hfresh, lookup_of_view_update hview⟩,
        fun hfail ↦ absurd hok hfail⟩
  · rcases (vfsOpen_view h path flags nodeChoice fileChoice).2 with
      ⟨-, hmem⟩ | ⟨p, b, hpath, -, -, hmem, hview⟩
    · exact absurd ((hmem a).mp ha) hfresh
    · obtain rfl : a = b := ((hmem a).mp ha).resolve_right hfresh
      exact ⟨p, hpath, lookup_of_view_update hview⟩
  · rcases vfsUnlink_view h path with
      ⟨hfail, hsame⟩ | ⟨p, v, hpath, hok, hv, hempty, -, -, hview⟩
    · exact ⟨fun hok ↦ absurd hok hfail, fun _ q ↦ by rw [hsame]⟩
    · exact ⟨fun _ ↦ ⟨p, v, hpath, hv, hempty, lookup_of_view_update hview⟩,
        fun hfail ↦ absurd hok hfail⟩

end System

end ToastyUnix.Vfs
