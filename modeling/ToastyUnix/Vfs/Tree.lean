import ToastyUnix.Lib.EdgeWalk
import ToastyUnix.Vfs.Path

/-!
# The directory tree

Directories hold their entries in a first-child/next-sibling list that is edited in place.
`Tree root nodes kids` says that these lists are well formed, with `kids d` the entries of
directory `d` in list order. Attaching a fresh node and unlinking an empty one keep the tree well
formed, and each of them adds or removes exactly one edge of the graph that lookups walk.
-/

namespace ToastyUnix.Vfs

open List Function Option Finmap

/-! ## Node creation and removal -/

/-- `dir_attach` of the block `a`, already filled in with `node`. -/
def dirAttach (nodes : Heap Node) (dir a : Addr) (node : Node) : Heap Node :=
  match nodes.lookup dir with
  | none => nodes
  | some d =>
    (nodes.insert a { node with parent := some dir, sibling := d.child }).insert dir
      { d with child := some a }

/-- A zeroed node of the given kind and name. -/
def freshNode (name : List UInt8) (type : NodeType) (mode : BitVec 32) (ops : Option FileOps) :
    Node :=
  ⟨name, type, mode, fun _ ↦ 0, 0, 0, ops, none, none, none⟩

/-- The common body of `vfs_create_dir`, `vfs_create_file` and `vfs_create_device`. -/
def vfsCreate (s : State) (path : List UInt8) (type : NodeType) (mode : BitVec 32)
    (ops : Option FileOps) (choice : Option Addr) : Option Addr × State :=
  match pathSplit path 256 vfsNameMax with
  | none => (none, s)
  | some (dirPath, name) =>
    match vfsLookup s dirPath with
    | none => (none, s)
    | some parent =>
      if !isDir s.nodes parent || (dirFind s.nodes parent name).isSome then (none, s)
      else
        match kmalloc s.nodes choice with
        | none => (none, s)
        | some a =>
          (some a, { s with nodes := dirAttach s.nodes parent a (freshNode name type mode ops) })

def vfsCreateDir (s : State) (path : List UInt8) (choice : Option Addr) : Option Addr × State :=
  vfsCreate s path .dir 0o755 none choice

def vfsCreateFile (s : State) (path : List UInt8) (choice : Option Addr) : Option Addr × State :=
  vfsCreate s path .file 0o644 none choice

/-- Store `value` through the link to a list cell: the `child` field of the directory, or the
`sibling` field of the entry before. -/
def setLink (nodes : Heap Node) (dir : Addr) (link value : Option Addr) : Heap Node :=
  match link with
  | none =>
    match nodes.lookup dir with
    | none => nodes
    | some d => nodes.insert dir { d with child := value }
  | some prev =>
    match nodes.lookup prev with
    | none => nodes
    | some p => nodes.insert prev { p with sibling := value }

/-- `vfs_remove`. -/
def vfsRemove (s : State) (path : List UInt8) : ℤ × State :=
  match pathSplit path 256 vfsNameMax with
  | none => (-1, s)
  | some (dirPath, name) =>
    match vfsLookup s dirPath with
    | none => (-1, s)
    | some parent =>
      if !isDir s.nodes parent then (-1, s)
      else
        match Chain.findLink (siblingOf s.nodes) (nameIs s.nodes name) s.nodes.keys.card none
            (childOf s.nodes parent) with
        | none => (-1, s)
        | some (link, victim) =>
          if isDir s.nodes victim && (childOf s.nodes victim).isSome then (-1, s)
          else
            let nodes := setLink s.nodes parent link (siblingOf s.nodes victim)
            (0, { s with nodes := nodes.erase victim })

/-- `vfs_mkdir`. -/
def vfsMkdir (s : State) (path : Option (List UInt8)) (mode : BitVec 32) (choice : Option Addr) :
    ℤ × State :=
  match path with
  | none => (-Errno.EINVAL, s)
  | some path =>
    match vfsLookup s path with
    | some _ => (-Errno.EEXIST, s)
    | none =>
      match vfsCreateDir s path choice with
      | (none, s) => (-Errno.ENOENT, s)
      | (some dir, s) =>
        match s.nodes.lookup dir with
        | none => (0, s)
        | some d =>
          if mode ≠ 0 then (0, { s with nodes := s.nodes.insert dir { d with mode := mode } })
          else (0, s)

/-- `vfs_unlink`. -/
def vfsUnlink (s : State) (path : Option (List UInt8)) : ℤ × State :=
  match path with
  | none => (-Errno.EINVAL, s)
  | some path =>
    match vfsLookup s path with
    | none => (-Errno.ENOENT, s)
    | some _ =>
      match vfsRemove s path with
      | (result, s) => if result ≠ 0 then (-Errno.EISDIR, s) else (0, s)

/-! ## Only nodes change -/

theorem vfsCreate_nodes (s : State) (path : List UInt8) (type : NodeType) (mode : BitVec 32)
    (ops : Option FileOps) (choice : Option Addr) :
    ∃ nodes, (vfsCreate s path type mode ops choice).2 = { s with nodes := nodes } := by
  unfold vfsCreate
  split
  · exact ⟨s.nodes, rfl⟩
  split
  · exact ⟨s.nodes, rfl⟩
  split_ifs
  · exact ⟨s.nodes, rfl⟩
  · split <;> exact ⟨_, rfl⟩

theorem vfsRemove_nodes (s : State) (path : List UInt8) :
    ∃ nodes, (vfsRemove s path).2 = { s with nodes := nodes } := by
  unfold vfsRemove
  split
  · exact ⟨s.nodes, rfl⟩
  split
  · exact ⟨s.nodes, rfl⟩
  split_ifs
  · exact ⟨s.nodes, rfl⟩
  split
  · exact ⟨s.nodes, rfl⟩
  split_ifs <;> exact ⟨_, rfl⟩

theorem vfsMkdir_nodes (s : State) (path : Option (List UInt8)) (mode : BitVec 32)
    (choice : Option Addr) :
    ∃ nodes, (vfsMkdir s path mode choice).2 = { s with nodes := nodes } := by
  unfold vfsMkdir
  split
  · exact ⟨s.nodes, rfl⟩
  case h_2 path =>
    split
    · exact ⟨s.nodes, rfl⟩
    obtain ⟨nodes, hnodes⟩ := vfsCreate_nodes s path .dir 0o755 none choice
    change (vfsCreateDir s path choice).2 = _ at hnodes
    split
    case h_1 s' hcreate =>
      rw [hcreate] at hnodes
      exact ⟨nodes, hnodes⟩
    case h_2 dir s' hcreate =>
      rw [hcreate] at hnodes
      dsimp only at hnodes
      subst hnodes
      split
      · exact ⟨_, rfl⟩
      · split_ifs <;> exact ⟨_, rfl⟩

theorem vfsUnlink_nodes (s : State) (path : Option (List UInt8)) :
    ∃ nodes, (vfsUnlink s path).2 = { s with nodes := nodes } := by
  unfold vfsUnlink
  split
  · exact ⟨s.nodes, rfl⟩
  case h_2 path =>
    split
    · exact ⟨s.nodes, rfl⟩
    obtain ⟨nodes, hnodes⟩ := vfsRemove_nodes s path
    dsimp only
    split_ifs <;> exact ⟨nodes, hnodes⟩

/-! ## Well-formed trees -/

/-- Names that an entry of a directory may have. -/
structure GoodName (name : List UInt8) : Prop where
  ne_nil : name ≠ []
  length_lt : name.length < vfsNameMax
  no_slash : slash ∉ name

variable {nodes : Heap Node} {a : Addr} {name : List UInt8}

/-- The sibling lists of `nodes` form a tree below `root`; `kids d` lists the entries of `d`. -/
structure Tree (root : Addr) (nodes : Heap Node) (kids : Addr → List Addr) : Prop where
  root_dir : isDir nodes root = true
  chain : ∀ d ∈ nodes, Chain.IsChain (siblingOf nodes) (childOf nodes d) (kids d)
  kid : ∀ d, ∀ a ∈ kids d, isDir nodes d = true ∧
    ∃ n, nodes.lookup a = some n ∧ n.parent = some d ∧ GoodName n.name
  linked : ∀ a ∈ nodes, a ≠ root → ∃ d, a ∈ kids d
  root_free : ∀ d, root ∉ kids d
  nodup : ∀ d, (kids d).Nodup
  names : ∀ d, ∀ a ∈ kids d, ∀ b ∈ kids d, ∀ name,
    nameIs nodes name a = true → nameIs nodes name b = true → a = b

theorem mem_of_isDir (h : isDir nodes a = true) : a ∈ nodes := by
  rw [isDir, Option.any_eq_true] at h
  obtain ⟨n, hn, -⟩ := h
  exact mem_of_lookup_eq_some hn

theorem nameIs_iff : nameIs nodes name a = true ↔ ∃ n, nodes.lookup a = some n ∧ n.name = name := by
  simp [nameIs, Option.any_eq_true]

theorem resolve_append_singleton {root : Addr} {path : List (List UInt8)} :
    resolve nodes root (path ++ [name]) = some a ↔
      ∃ d, resolve nodes root path = some d ∧ stepInto nodes d name = some a := by
  simp [resolve, foldlM_append, bind_eq_some_iff]

namespace Tree

variable {root : Addr} {nodes : Heap Node} {kids : Addr → List Addr}

variable {d a : Addr} {name : List UInt8} {p : List (List UInt8)}

section

variable (t : Tree root nodes kids)
include t

theorem kid_mem (h : a ∈ kids d) : a ∈ nodes := by
  obtain ⟨-, n, hn, -⟩ := t.kid d a h
  exact mem_of_lookup_eq_some hn

theorem parent_unique {e : Addr} (hd : a ∈ kids d) (he : a ∈ kids e) : d = e := by
  obtain ⟨-, n, hn, hparent, -⟩ := t.kid d a hd
  obtain ⟨-, n', hn', hparent', -⟩ := t.kid e a he
  obtain rfl : n = n' := some.inj (hn.symm.trans hn')
  exact some.inj (hparent.symm.trans hparent')

theorem length_kids_le (d : Addr) : (kids d).length ≤ nodes.keys.card := by
  rw [← toFinset_card_of_nodup (t.nodup d)]
  apply Finset.card_le_card
  intro a ha
  exact mem_keys.mpr (t.kid_mem (mem_toFinset.mp ha))

theorem dirFind_eq_some (hd : d ∈ nodes) :
    dirFind nodes d name = some a ↔ a ∈ kids d ∧ nameIs nodes name a = true := by
  constructor
  · intro h
    simp only [dirFind, map_eq_some_iff, Prod.exists, exists_eq_right] at h
    obtain ⟨link, hfind⟩ := h
    obtain ⟨before, after, hkids, hname, -, -⟩ := Chain.findLink_eq_some (t.chain d hd) hfind
    exact ⟨by simp [hkids], hname⟩
  · rintro ⟨hmem, hname⟩
    obtain ⟨before, after, hkids⟩ := append_of_mem hmem
    have hchain := t.chain d hd
    have hnodup := t.nodup d
    have hlength := t.length_kids_le d
    have hbefore : ∀ other ∈ before, nameIs nodes name other = false := by
      intro other hother
      by_contra hsame
      have hmem' : other ∈ kids d := by simp [hkids, hother]
      have := t.names d other hmem' a hmem name (by simpa using hsame) hname
      rw [hkids, nodup_append] at hnodup
      exact hnodup.2.2 other hother a (by simp) this
    rw [hkids] at hchain hlength
    obtain ⟨middle, hfirst, -⟩ := Chain.segment_append.mp
      (show Chain.Segment _ _ ((before ++ [a]) ++ after) none by
        simpa [Chain.IsChain] using hchain)
    have hfind := Chain.findLink_some hfirst hname hbefore
      (by simp only [length_append, length_cons] at hlength; omega :
        before.length < nodes.keys.card) none
    simp [dirFind, hfind]

theorem stepInto_eq_some :
    stepInto nodes d name = some a ↔ a ∈ kids d ∧ nameIs nodes name a = true := by
  unfold stepInto
  constructor
  · intro h
    split at h
    · cases h
    · split at h
      case isTrue hdir => exact (t.dirFind_eq_some (mem_of_isDir hdir)).mp h
      case isFalse => cases h
  · rintro ⟨hmem, hname⟩
    obtain ⟨hdir, n, hn, -, hgood⟩ := t.kid d a hmem
    obtain ⟨n', hn', rfl⟩ := nameIs_iff.mp hname
    obtain rfl : n = n' := some.inj (hn.symm.trans hn')
    rw [if_neg (Nat.not_le.mpr hgood.length_lt), if_pos hdir, t.dirFind_eq_some (mem_of_isDir hdir)]
    exact ⟨hmem, hname⟩

theorem kids_eq_nil (ha : a ∈ nodes) (h : isDir nodes a = false ∨ childOf nodes a = none) :
    kids a = [] := by
  rcases h with hdir | hchild
  · rw [eq_nil_iff_forall_not_mem]
    intro b hb
    simpa [hdir] using (t.kid a b hb).1
  · have hchain := t.chain a ha
    rw [hchild] at hchain
    exact hchain.unique rfl

theorem resolve_unique {q : List (List UInt8)} (hp : resolve nodes root p = some a)
    (hq : resolve nodes root q = some a) : p = q := by
  induction p using List.reverseRecOn generalizing a q with
  | nil =>
    obtain rfl : root = a := by simpa [resolve] using hp
    induction q using List.reverseRecOn with
    | nil => rfl
    | append_singleton q n _ =>
      obtain ⟨d, -, hstep⟩ := resolve_append_singleton.mp hq
      exact absurd (t.stepInto_eq_some.mp hstep).1 (t.root_free d)
  | append_singleton p m ih =>
    obtain ⟨d, hd, hstep⟩ := resolve_append_singleton.mp hp
    obtain ⟨hmem, hname⟩ := t.stepInto_eq_some.mp hstep
    induction q using List.reverseRecOn with
    | nil =>
      obtain rfl : root = a := by simpa [resolve] using hq
      exact absurd hmem (t.root_free d)
    | append_singleton q n _ =>
      obtain ⟨e, he, hstep'⟩ := resolve_append_singleton.mp hq
      obtain ⟨hmem', hname'⟩ := t.stepInto_eq_some.mp hstep'
      obtain rfl := t.parent_unique hmem hmem'
      obtain ⟨node, hnode, rfl⟩ := nameIs_iff.mp hname
      obtain ⟨node', hnode', rfl⟩ := nameIs_iff.mp hname'
      obtain rfl : node = node' := some.inj (hnode.symm.trans hnode')
      rw [ih hd he]

theorem mem_of_resolve (hp : resolve nodes root p = some a) : a ∈ nodes := by
  induction p using List.reverseRecOn with
  | nil =>
    obtain rfl : root = a := by simpa [resolve] using hp
    exact mem_of_isDir t.root_dir
  | append_singleton p m _ =>
    obtain ⟨d, -, hstep⟩ := resolve_append_singleton.mp hp
    exact t.kid_mem (t.stepInto_eq_some.mp hstep).1

end

end Tree

/-! ## Attaching a node -/

section Attach

variable {root d a : Addr} {nodes : Heap Node} {kids : Addr → List Addr} {node dn : Node}

section

variable (hd : nodes.lookup d = some dn)
include hd

theorem lookup_dirAttach (x : Addr) :
    (dirAttach nodes d a node).lookup x =
      if x = d then some { dn with child := some a }
      else if x = a then some { node with parent := some d, sibling := dn.child }
      else nodes.lookup x := by
  simp only [dirAttach, hd]
  split_ifs with hxd hxa
  · rw [hxd, lookup_insert]
  · rw [lookup_insert_of_ne _ hxd, hxa, lookup_insert]
  · rw [lookup_insert_of_ne _ hxd, lookup_insert_of_ne _ hxa]

theorem siblingOf_dirAttach (hne : a ≠ d) (x : Addr) :
    siblingOf (dirAttach nodes d a node) x = if x = a then dn.child else siblingOf nodes x := by
  rw [siblingOf, siblingOf, lookup_dirAttach hd]
  by_cases hxd : x = d
  · subst hxd
    simp [hne.symm, hd]
  · split_ifs <;> simp

theorem childOf_dirAttach (x : Addr) :
    childOf (dirAttach nodes d a node) x =
      if x = d then some a else if x = a then node.child else childOf nodes x := by
  rw [childOf, childOf, lookup_dirAttach hd]
  split_ifs <;> simp

theorem isDir_dirAttach (hne : a ≠ d) (x : Addr) :
    isDir (dirAttach nodes d a node) x =
      if x = a then node.type == .dir else isDir nodes x := by
  rw [isDir, isDir, lookup_dirAttach hd]
  by_cases hxd : x = d
  · subst hxd
    simp [hne.symm, hd]
  · split_ifs <;> simp

theorem nameIs_dirAttach (hne : a ≠ d) (name : List UInt8) (x : Addr) :
    nameIs (dirAttach nodes d a node) name x =
      if x = a then node.name == name else nameIs nodes name x := by
  rw [nameIs, nameIs, lookup_dirAttach hd]
  by_cases hxd : x = d
  · subst hxd
    simp [hne.symm, hd]
  · split_ifs <;> simp

theorem mem_dirAttach {x : Addr} : x ∈ dirAttach nodes d a node ↔ x = a ∨ x ∈ nodes := by
  rw [← lookup_isSome, ← lookup_isSome, lookup_dirAttach hd]
  by_cases hxd : x = d
  · subst hxd
    simp [hd]
  · by_cases hxa : x = a
    · subst hxa
      simp [hxd]
    · simp [hxd, hxa]

end

theorem mem_update_cons {e b : Addr} :
    b ∈ update kids d (a :: kids d) e ↔ (e = d ∧ b = a) ∨ b ∈ kids e := by
  by_cases hed : e = d
  · subst hed
    simp
  · simp [hed]

section

variable (t : Tree root nodes kids) (hdir : isDir nodes d = true) (ha : nodes.lookup a = none)
  (hgood : GoodName node.name) (hchild : node.child = none)
  (hnew : dirFind nodes d node.name = none)
include t hdir ha hgood hchild hnew

theorem Tree.attach :
    Tree root (dirAttach nodes d a node) (update kids d (a :: kids d)) := by
  obtain ⟨dn, hd⟩ := mem_iff.mp (mem_of_isDir hdir)
  have hne : a ≠ d := by
    rintro rfl
    simp [ha] at hd
  have hfresh : ∀ {e b}, b ∈ kids e → b ≠ a := by
    rintro e b hb rfl
    obtain ⟨-, n, hn, -⟩ := t.kid e b hb
    simp [ha] at hn
  have hnewName : ∀ b ∈ kids d, nameIs nodes node.name b = false := by
    intro b hb
    by_contra hname
    have hfound := (t.dirFind_eq_some (mem_of_isDir hdir)).mpr ⟨hb, by simpa using hname⟩
    simp [hnew] at hfound
  have hkidsA : kids a = [] := eq_nil_iff_forall_not_mem.mpr fun b hb ↦ by
    have := mem_of_isDir (t.kid a b hb).1
    simp [Finmap.mem_iff, ha] at this
  constructor
  case root_dir =>
    have hroot : root ≠ a := by
      rintro rfl
      simpa [isDir, ha] using t.root_dir
    rw [isDir_dirAttach hd hne, if_neg hroot, t.root_dir]
  case chain =>
    intro e he
    have hold : ∀ c ∈ kids e, siblingOf (dirAttach nodes d a node) c = siblingOf nodes c := by
      intro c hc
      rw [siblingOf_dirAttach hd hne, if_neg (hfresh hc)]
    by_cases hed : e = d
    · subst hed
      rw [update_self, childOf_dirAttach hd, if_pos rfl]
      refine ⟨rfl, ?_⟩
      rw [siblingOf_dirAttach hd hne, if_pos rfl]
      have hchain := t.chain e (mem_of_lookup_eq_some hd)
      rw [childOf, hd, bind_some] at hchain
      exact hchain.congr hold
    · rw [update_of_ne hed, childOf_dirAttach hd, if_neg hed]
      by_cases hea : e = a
      · rw [if_pos hea, hchild, hea, hkidsA]
        rfl
      · rw [if_neg hea]
        exact (t.chain e (((mem_dirAttach hd).mp he).resolve_left hea)).congr hold
  case kid =>
    intro e b hb
    rw [mem_update_cons] at hb
    rcases hb with ⟨rfl, rfl⟩ | hb
    · refine ⟨by rw [isDir_dirAttach hd hne, if_neg hne.symm, hdir],
        { node with parent := some e, sibling := dn.child }, ?_, rfl, hgood⟩
      rw [lookup_dirAttach hd, if_neg hne, if_pos rfl]
    · obtain ⟨hdirE, n, hn, hparent, hname⟩ := t.kid e b hb
      have hea : e ≠ a := by
        rintro rfl
        simp [isDir, ha] at hdirE
      refine ⟨by rw [isDir_dirAttach hd hne, if_neg hea, hdirE], ?_⟩
      rw [lookup_dirAttach hd]
      by_cases hbd : b = d
      · subst hbd
        obtain rfl : n = dn := some.inj (hn.symm.trans hd)
        exact ⟨_, if_pos rfl, hparent, hname⟩
      · exact ⟨n, by rw [if_neg hbd, if_neg (hfresh hb), hn], hparent, hname⟩
  case linked =>
    intro b hb hroot
    rcases (mem_dirAttach hd).mp hb with rfl | hb
    · exact ⟨d, mem_update_cons.mpr (.inl ⟨rfl, rfl⟩)⟩
    · obtain ⟨e, he⟩ := t.linked b hb hroot
      exact ⟨e, mem_update_cons.mpr (.inr he)⟩
  case root_free =>
    intro e he
    rcases mem_update_cons.mp he with ⟨-, rfl⟩ | he
    · simpa [isDir, ha] using t.root_dir
    · exact t.root_free e he
  case nodup =>
    intro e
    by_cases hed : e = d
    · subst hed
      simpa using ⟨fun hmem ↦ hfresh hmem rfl, t.nodup e⟩
    · rw [update_of_ne hed]
      exact t.nodup e
  case names =>
    intro e b hb c hc name hbn hcn
    rw [nameIs_dirAttach hd hne] at hbn hcn
    rw [mem_update_cons] at hb hc
    rcases hb with ⟨rfl, rfl⟩ | hb <;> rcases hc with ⟨hed, rfl⟩ | hc
    · rfl
    · rw [if_pos rfl, beq_iff_eq] at hbn
      rw [if_neg (hfresh hc), ← hbn, hnewName c hc] at hcn
      cases hcn
    · subst hed
      rw [if_pos rfl, beq_iff_eq] at hcn
      rw [if_neg (hfresh hb), ← hcn, hnewName b hb] at hbn
      cases hbn
    · rw [if_neg (hfresh hb)] at hbn
      rw [if_neg (hfresh hc)] at hcn
      exact t.names e b hb c hc name hbn hcn

theorem Tree.stepInto_attach :
    stepInto (dirAttach nodes d a node) =
      EdgeWalk.addEdge (stepInto nodes) d node.name a := by
  have t' := t.attach hdir ha hgood hchild hnew
  obtain ⟨dn, hd⟩ := mem_iff.mp (mem_of_isDir hdir)
  have hne : a ≠ d := by
    rintro rfl
    simp [ha] at hd
  have hfresh : ∀ {e b}, b ∈ kids e → b ≠ a := by
    rintro e b hb rfl
    simpa [ha, Finmap.mem_iff] using t.kid_mem hb
  have hstep : stepInto nodes d node.name = none := by
    simp [stepInto, hdir, hnew]
  funext e name
  refine ext fun b ↦ ?_
  rw [t'.stepInto_eq_some, mem_update_cons, nameIs_dirAttach hd hne,
    EdgeWalk.addEdge_eq_some hstep, t.stepInto_eq_some]
  by_cases hb : b = a
  · subst hb
    have hdead : b ∉ kids e := fun hmem ↦ hfresh hmem rfl
    simp [hdead, @eq_comm _ name]
  · simp [hb]

end

/-- After an attach, exactly one list of components leads somewhere new. -/
theorem Tree.resolve_attach (t : Tree root nodes kids) {path : List (List UInt8)}
    (hpath : resolve nodes root path = some d) (hdir : isDir nodes d = true)
    (ha : nodes.lookup a = none) (hgood : GoodName node.name) (hchild : node.child = none)
    (hnew : dirFind nodes d node.name = none) (walk : List (List UInt8)) :
    resolve (dirAttach nodes d a node) root walk =
      if walk = path ++ [node.name] then some a else resolve nodes root walk := by
  have hstep : stepInto nodes d node.name = none := by
    simp [stepInto, hdir, hnew]
  have hsink : ∀ name, stepInto nodes a name = none := by
    simp [stepInto, isDir, ha]
  have hne : a ≠ d := by
    rintro rfl
    simp [isDir, ha] at hdir
  rw [resolve, t.stepInto_attach hdir ha hgood hchild hnew]
  exact EdgeWalk.foldlM_addEdge hpath (fun other h ↦ t.resolve_unique h hpath) hstep hsink hne walk

end Attach

/-! ## Unlinking a node -/

section Unlink

variable {root d v : Addr} {nodes : Heap Node} {kids : Addr → List Addr}
  {before after : List Addr} {link : Option Addr}

/-- The nodes after the entry `v` of `d` was unlinked and freed. -/
def unlinked (nodes : Heap Node) (d v : Addr) (link : Option Addr) : Heap Node :=
  (setLink nodes d link (siblingOf nodes v)).erase v

/-- Node `x` once `value` was stored through `link`. -/
def relink (d x : Addr) (link value : Option Addr) (n : Node) : Node :=
  { n with
    child := if link = none ∧ x = d then value else n.child
    sibling := if link = some x then value else n.sibling }

theorem lookup_setLink (value : Option Addr) (x : Addr) :
    (setLink nodes d link value).lookup x = (nodes.lookup x).map (relink d x link value) := by
  cases link with
  | none =>
    by_cases hxd : x = d
    · subst hxd
      cases hn : nodes.lookup x <;> simp [setLink, relink, hn]
    · have hid : relink d x none value = id := by
        funext n
        simp [relink, hxd]
      cases hn : nodes.lookup d <;> simp [setLink, hid, hn, hxd]
  | some prev =>
    by_cases hxp : x = prev
    · subst hxp
      cases hn : nodes.lookup x <;> simp [setLink, relink, hn]
    · have hid : relink d x (some prev) value = id := by
        funext n
        simp [relink, Ne.symm hxp]
      cases hn : nodes.lookup prev <;> simp [setLink, hid, hn, hxp]

theorem lookup_unlinked (x : Addr) :
    (unlinked nodes d v link).lookup x =
      if x = v then none
      else (nodes.lookup x).map (relink d x link (siblingOf nodes v)) := by
  unfold unlinked
  split_ifs with hxv
  · rw [hxv, lookup_erase]
  · rw [lookup_erase_ne hxv, lookup_setLink]

variable {x : Addr} {name : List UInt8}

theorem siblingOf_unlinked (hx : x ∈ nodes) (hxv : x ≠ v) :
    siblingOf (unlinked nodes d v link) x =
      if link = some x then siblingOf nodes v else siblingOf nodes x := by
  obtain ⟨n, hn⟩ := mem_iff.mp hx
  rw [siblingOf, lookup_unlinked, if_neg hxv, hn]
  simp [relink, siblingOf, hn]

theorem childOf_unlinked (hx : x ∈ nodes) (hxv : x ≠ v) :
    childOf (unlinked nodes d v link) x =
      if link = none ∧ x = d then siblingOf nodes v else childOf nodes x := by
  obtain ⟨n, hn⟩ := mem_iff.mp hx
  rw [childOf, lookup_unlinked, if_neg hxv, hn]
  simp [relink, childOf, hn]

theorem isDir_unlinked (hxv : x ≠ v) : isDir (unlinked nodes d v link) x = isDir nodes x := by
  rw [isDir, isDir, lookup_unlinked, if_neg hxv, Option.any_map]
  rfl

theorem nameIs_unlinked (hxv : x ≠ v) (name : List UInt8) :
    nameIs (unlinked nodes d v link) name x = nameIs nodes name x := by
  rw [nameIs, nameIs, lookup_unlinked, if_neg hxv, Option.any_map]
  rfl

theorem mem_unlinked : x ∈ unlinked nodes d v link ↔ x ≠ v ∧ x ∈ nodes := by
  rw [← lookup_isSome, ← lookup_isSome, lookup_unlinked]
  by_cases hxv : x = v <;> simp [hxv]

theorem mem_update_append (hkids : kids d = before ++ v :: after) (hnodup : (kids d).Nodup)
    (hother : ∀ e, v ∈ kids e → e = d) {e b : Addr} :
    b ∈ update kids d (before ++ after) e ↔ b ∈ kids e ∧ b ≠ v := by
  by_cases hed : e = d
  · subst hed
    rw [hkids, nodup_append] at hnodup
    obtain ⟨-, htail, hdisjoint⟩ := hnodup
    have hbefore : v ∉ before := fun h ↦ hdisjoint v h v mem_cons_self rfl
    have hafter : v ∉ after := (nodup_cons.mp htail).1
    rw [update_self, hkids]
    by_cases hbv : b = v
    · simp [hbv, hbefore, hafter]
    · simp [hbv]
  · rw [update_of_ne hed]
    refine ⟨fun hb ↦ ⟨hb, ?_⟩, And.left⟩
    rintro rfl
    exact hed (hother e hb)

section

variable (t : Tree root nodes kids)
include t

section

variable (hkids : kids d = before ++ v :: after)
include hkids

/-- The list of the directory without the entry. -/
theorem Tree.chain_unlink (hd : d ∈ nodes) (hvd : v ≠ d) :
    Chain.IsChain (siblingOf (unlinked nodes d v before.getLast?))
      (childOf (unlinked nodes d v before.getLast?) d) (before ++ after) := by
  have hchain := t.chain d hd
  have hnodup := t.nodup d
  rw [hkids] at hchain hnodup
  have hlive : ∀ c ∈ before ++ after, c ∈ nodes ∧ c ≠ v := by
    intro c hc
    have hmem : c ∈ kids d := by
      rw [hkids]
      simp only [mem_append, mem_cons] at hc ⊢
      tauto
    refine ⟨t.kid_mem hmem, ?_⟩
    rintro rfl
    exact (nodup_middle.mp hnodup).notMem hc
  rw [childOf_unlinked hd hvd.symm]
  rcases eq_nil_or_concat before with rfl | ⟨front, prev, rfl⟩
  · rw [getLast?_nil, if_pos ⟨rfl, rfl⟩]
    refine hchain.2.congr fun c hc ↦ ?_
    rw [siblingOf_unlinked (hlive c hc).1 (hlive c hc).2, if_neg (by simp)]
  · simp only [concat_eq_append, append_assoc, singleton_append] at hchain hnodup
    have hcut := hchain.unlink hnodup
    simp only [concat_eq_append, getLast?_append, getLast?_singleton,
      some_or, reduceCtorEq, false_and, if_false, append_assoc, singleton_append] at hlive ⊢
    refine Chain.Segment.congr hcut fun c hc ↦ ?_
    rw [siblingOf_unlinked (hlive c hc).1 (hlive c hc).2]
    by_cases hcp : c = prev
    · subst hcp
      simp
    · rw [if_neg (by simpa using Ne.symm hcp), update_of_ne hcp]

/-- Unlinking an entry that has no entries of its own keeps the tree well formed. -/
theorem Tree.unlink (hleaf : kids v = []) :
    Tree root (unlinked nodes d v before.getLast?)
      (update kids d (before ++ after)) := by
  have hv : v ∈ kids d := by simp [hkids]
  have hmem : ∀ {e b}, b ∈ update kids d (before ++ after) e ↔ b ∈ kids e ∧ b ≠ v :=
    mem_update_append hkids (t.nodup d) fun e he ↦ t.parent_unique he hv
  have hvd : v ≠ d := by
    rintro rfl
    simp [hleaf] at hv
  have hroot : root ≠ v := by
    rintro rfl
    exact t.root_free d hv
  have hdir : ∀ {e b}, b ∈ kids e → e ≠ v := by
    rintro e b hb rfl
    simp [hleaf] at hb
  have hd : d ∈ nodes := mem_of_isDir (t.kid d v hv).1
  constructor
  case root_dir => rw [isDir_unlinked hroot, t.root_dir]
  case chain =>
    intro e he
    obtain ⟨hev, hlive⟩ := mem_unlinked.mp he
    by_cases hed : e = d
    · subst hed
      rw [update_self]
      exact t.chain_unlink hkids hd hvd
    · rw [update_of_ne hed, childOf_unlinked hlive hev, if_neg (fun h ↦ hed h.2)]
      refine (t.chain e hlive).congr fun c hc ↦ ?_
      have hcv : c ≠ v := by
        rintro rfl
        exact hed (t.parent_unique hc hv)
      rw [siblingOf_unlinked (t.kid_mem hc) hcv, if_neg]
      intro hlink
      have hbefore : c ∈ kids d := by
        rw [hkids]
        exact mem_append_left _ (mem_of_getLast? hlink)
      exact hed (t.parent_unique hc hbefore)
  case kid =>
    intro e b hb
    obtain ⟨hb, hbv⟩ := hmem.mp hb
    obtain ⟨hdirE, n, hn, hparent, hname⟩ := t.kid e b hb
    refine ⟨by rw [isDir_unlinked (hdir hb), hdirE],
      relink d b before.getLast? (siblingOf nodes v) n, ?_, hparent, hname⟩
    rw [lookup_unlinked, if_neg hbv, hn, map_some]
  case linked =>
    intro b hb hbroot
    obtain ⟨hbv, hb⟩ := mem_unlinked.mp hb
    obtain ⟨e, he⟩ := t.linked b hb hbroot
    exact ⟨e, hmem.mpr ⟨he, hbv⟩⟩
  case root_free => exact fun e he ↦ t.root_free e (hmem.mp he).1
  case nodup =>
    intro e
    by_cases hed : e = d
    · subst hed
      have hnodup := t.nodup e
      rw [hkids] at hnodup
      rw [update_self]
      exact (nodup_middle.mp hnodup).of_cons
    · rw [update_of_ne hed]
      exact t.nodup e
  case names =>
    intro e b hb c hc name hbn hcn
    obtain ⟨hb, hbv⟩ := hmem.mp hb
    obtain ⟨hc, hcv⟩ := hmem.mp hc
    rw [nameIs_unlinked hbv] at hbn
    rw [nameIs_unlinked hcv] at hcn
    exact t.names e b hb c hc name hbn hcn

theorem Tree.stepInto_unlinked (hleaf : kids v = []) (hname : nameIs nodes name v = true) :
    stepInto (unlinked nodes d v before.getLast?) d name = none := by
  have hv : v ∈ kids d := by simp [hkids]
  rw [eq_none_iff_forall_ne_some]
  intro b hb
  rw [(t.unlink hkids hleaf).stepInto_eq_some, mem_update_append hkids (t.nodup d)
    fun e he ↦ t.parent_unique he hv] at hb
  obtain ⟨⟨hb, hbv⟩, hbname⟩ := hb
  rw [nameIs_unlinked hbv] at hbname
  exact hbv (t.names d b hb v hv name hbname hname)

/-- Before the unlinking, the graph that lookups walk had exactly one more edge. -/
theorem Tree.stepInto_unlink (hleaf : kids v = []) (hname : nameIs nodes name v = true) :
    stepInto nodes =
      EdgeWalk.addEdge (stepInto (unlinked nodes d v before.getLast?)) d name v := by
  have t' := t.unlink hkids hleaf
  have hnone := t.stepInto_unlinked hkids hleaf hname
  have hv : v ∈ kids d := by simp [hkids]
  have hmem : ∀ {e b}, b ∈ update kids d (before ++ after) e ↔ b ∈ kids e ∧ b ≠ v :=
    mem_update_append hkids (t.nodup d) fun e he ↦ t.parent_unique he hv
  funext e other
  refine ext fun b ↦ ?_
  rw [t.stepInto_eq_some, EdgeWalk.addEdge_eq_some hnone, t'.stepInto_eq_some, hmem]
  by_cases hbv : b = v
  · subst hbv
    obtain ⟨n, hn, hnname⟩ := nameIs_iff.mp hname
    have hsame : nameIs nodes other b = true ↔ other = name := by
      rw [nameIs, hn, any_some, beq_iff_eq, hnname, eq_comm]
    rw [hsame]
    constructor
    · rintro ⟨hb, rfl⟩
      exact .inl ⟨t.parent_unique hb hv, rfl, rfl⟩
    · rintro (⟨rfl, rfl, -⟩ | ⟨⟨-, hne⟩, -⟩)
      · exact ⟨hv, rfl⟩
      · exact absurd rfl hne
  · rw [nameIs_unlinked hbv]
    simp [hbv]

/-- After an unlinking, exactly one list of components leads nowhere any more. -/
theorem Tree.resolve_unlink (hleaf : kids v = [])
    (hname : nameIs nodes name v = true) {path : List (List UInt8)}
    (hpath : resolve nodes root path = some d) (walk : List (List UInt8)) :
    resolve (unlinked nodes d v before.getLast?) root walk =
      if walk = path ++ [name] then none else resolve nodes root walk := by
  have t' := t.unlink hkids hleaf
  have hnone := t.stepInto_unlinked hkids hleaf hname
  have hedge := t.stepInto_unlink hkids hleaf hname
  have hvd : v ≠ d := by
    rintro rfl
    simp [hleaf] at hkids
  have hsink : ∀ l, stepInto (unlinked nodes d v before.getLast?) v l = none := by
    simp [stepInto, isDir, lookup_unlinked]
  have hpath' : resolve (unlinked nodes d v before.getLast?) root path = some d := by
    rw [resolve, hedge] at hpath
    exact EdgeWalk.foldlM_of_addEdge hnone hsink hvd.symm hpath
  have hwalk := EdgeWalk.foldlM_addEdge hpath' (fun other h ↦ t'.resolve_unique h hpath') hnone
    hsink hvd walk
  rw [← hedge] at hwalk
  split_ifs with hsame
  · rw [hsame, eq_none_iff_forall_ne_some]
    intro b hb
    obtain ⟨e, he, hstep⟩ := resolve_append_singleton.mp hb
    obtain rfl : d = e := some.inj (hpath'.symm.trans he)
    simp [hnone] at hstep
  · rw [if_neg hsame] at hwalk
    exact hwalk.symm

end

end

end Unlink

/-! ## Changing a node in place -/

section InPlace

variable {root : Addr} {nodes nodes' : Heap Node} {kids : Addr → List Addr}

/-- The fields of a node that make up the tree. -/
def Node.shape (n : Node) :
    List UInt8 × NodeType × Option Addr × Option Addr × Option Addr :=
  (n.name, n.type, n.parent, n.sibling, n.child)

/-- The two heaps hold the same tree; nodes may differ in mode and contents. -/
def SameShape (nodes nodes' : Heap Node) : Prop :=
  ∀ x, (nodes'.lookup x).map Node.shape = (nodes.lookup x).map Node.shape

theorem sameShape_insert {a : Addr} {n m : Node} (hn : nodes.lookup a = some n)
    (hshape : m.shape = n.shape) : SameShape nodes (nodes.insert a m) := by
  intro x
  by_cases hxa : x = a
  · rw [hxa, lookup_insert, hn, map_some, map_some, hshape]
  · rw [lookup_insert_of_ne _ hxa]

namespace SameShape

variable {x : Addr}

section

variable (h : SameShape nodes nodes')
include h

theorem mem_iff : x ∈ nodes' ↔ x ∈ nodes := by
  rw [← lookup_isSome, ← lookup_isSome, ← isSome_map (f := Node.shape), h x, isSome_map]

theorem lookup {n : Node} (hn : nodes.lookup x = some n) :
    ∃ m, nodes'.lookup x = some m ∧ m.shape = n.shape := by
  have hx := h x
  rw [hn, map_some, map_eq_some_iff] at hx
  exact hx

theorem siblingOf_eq : siblingOf nodes' = siblingOf nodes := by
  funext x
  have hx := congrArg (Option.bind · fun shape ↦ shape.2.2.2.1) (h x)
  simpa [bind_map, comp_def, Node.shape, siblingOf] using hx

theorem childOf_eq : childOf nodes' = childOf nodes := by
  funext x
  have hx := congrArg (Option.bind · fun shape ↦ shape.2.2.2.2) (h x)
  simpa [bind_map, comp_def, Node.shape, childOf] using hx

theorem isDir_eq : isDir nodes' = isDir nodes := by
  funext x
  have hx := congrArg (Option.any fun shape ↦ shape.2.1 == .dir) (h x)
  simpa [Option.any_map, comp_def, Node.shape, isDir] using hx

theorem nameIs_eq : nameIs nodes' = nameIs nodes := by
  funext name x
  have hx := congrArg (Option.any fun shape ↦ shape.1 == name) (h x)
  simpa [Option.any_map, comp_def, Node.shape, nameIs] using hx

end

end SameShape

theorem Tree.congr (t : Tree root nodes kids) (h : SameShape nodes nodes') :
    Tree root nodes' kids where
  root_dir := by rw [h.isDir_eq, t.root_dir]
  chain d hd := by
    rw [h.siblingOf_eq, h.childOf_eq]
    exact t.chain d (h.mem_iff.mp hd)
  kid d a ha := by
    obtain ⟨hdir, n, hn, hparent, hname⟩ := t.kid d a ha
    obtain ⟨m, hm, hshape⟩ := h.lookup hn
    simp only [Node.shape, Prod.mk.injEq] at hshape
    exact ⟨by rw [h.isDir_eq, hdir], m, hm, by rw [hshape.2.2.1, hparent], by rwa [hshape.1]⟩
  linked a ha := t.linked a (h.mem_iff.mp ha)
  root_free := t.root_free
  nodup := t.nodup
  names d a ha b hb name := by
    rw [h.nameIs_eq]
    exact t.names d a ha b hb name

theorem Tree.resolve_congr (t : Tree root nodes kids) (h : SameShape nodes nodes') :
    resolve nodes' root = resolve nodes root := by
  have hstep : stepInto nodes' = stepInto nodes := by
    funext d name
    refine ext fun a ↦ ?_
    rw [t.stepInto_eq_some, (t.congr h).stepInto_eq_some, h.nameIs_eq]
  funext path
  rw [resolve, resolve, hstep]

end InPlace

/-! ## What creation and removal do -/

section Effects

variable {s : State} {kids : Addr → List Addr} {path : List UInt8}

/-- The directory in which the last component of a path is an entry. -/
def parentOf (s : State) (path : List UInt8) : Option Addr :=
  (pathSplit path 256 vfsNameMax).bind fun parts ↦ vfsLookup s parts.1

/-- A creation fails without effect, or attaches one new node to the path's parent. -/
theorem vfsCreate_attach (hmissing : vfsLookup s path = none) (type : NodeType) (mode : BitVec 32)
    (ops : Option FileOps) (choice : Option Addr) :
    vfsCreate s path type mode ops choice = (none, s) ∨
    ∃ dirPath name d a, parentOf s path = some d ∧
      components path = components dirPath ++ [name] ∧ resolve s.nodes s.root (components dirPath) =
        some d ∧ isDir s.nodes d = true ∧ s.nodes.lookup a = none ∧ GoodName name ∧
      dirFind s.nodes d name = none ∧ vfsCreate s path type mode ops choice =
        (some a, { s with nodes := dirAttach s.nodes d a (freshNode name type mode ops) }) := by
  unfold vfsCreate parentOf
  cases hsplit : pathSplit path 256 vfsNameMax with
  | none => exact .inl rfl
  | some parts =>
    obtain ⟨dirPath, name⟩ := parts
    obtain ⟨hslash, hlength, hcomponents⟩ := pathSplit_eq_some hsplit
    dsimp only [bind_some]
    cases hparent : vfsLookup s dirPath with
    | none => exact .inl rfl
    | some d =>
      dsimp only
      split_ifs with hbad
      · exact .inl rfl
      · cases hchoice : kmalloc s.nodes choice with
        | none => exact .inl rfl
        | some a =>
          simp only [Bool.not_eq_true, Bool.or_eq_false_iff, Bool.not_eq_false',
            isSome_eq_false_iff, isNone_iff_eq_none] at hbad
          have hne : name ≠ [] := by
            rintro rfl
            simp [pathSplit_name_nil hsplit, vfsLookup] at hmissing
          rw [vfsLookup_eq_resolve] at hparent
          exact .inr ⟨dirPath, name, d, a, rfl, hcomponents hne, hparent, hbad.1,
            lookup_of_kmalloc hchoice, ⟨hne, hlength, hslash⟩, hbad.2, rfl⟩

/-- A creation fails without effect, or attaches one new node at the path's components. -/
theorem vfsCreate_cases (t : Tree s.root s.nodes kids) (hmissing : vfsLookup s path = none)
    (type : NodeType) (mode : BitVec 32) (ops : Option FileOps) (choice : Option Addr) :
    vfsCreate s path type mode ops choice = (none, s) ∨
    ∃ a nodes', vfsCreate s path type mode ops choice = (some a, { s with nodes := nodes' }) ∧
      s.nodes.lookup a = none ∧ (∃ kids', Tree s.root nodes' kids') ∧
      (∀ x, x ∈ nodes' ↔ x = a ∨ x ∈ s.nodes) ∧
      (∃ n, nodes'.lookup a = some n ∧ n.type = type ∧ n.mode = mode ∧ n.size = 0) ∧
      resolve nodes' s.root =
        update (resolve s.nodes s.root) (components path) (some a) := by
  rcases vfsCreate_attach hmissing type mode ops choice with
    hfail | ⟨dirPath, name, d, a, -, hcomponents, hparent, hdir, ha, hgood, hnew, hcreate⟩
  · exact .inl hfail
  obtain ⟨dn, hd⟩ := mem_iff.mp (mem_of_isDir hdir)
  have had : a ≠ d := by
    rintro rfl
    simp [ha] at hd
  refine .inr ⟨a, _, hcreate, ha, ⟨_, t.attach hdir ha hgood rfl hnew⟩, fun x ↦ mem_dirAttach hd,
    ⟨{ freshNode name type mode ops with parent := some d, sibling := dn.child }, ?_,
      rfl, rfl, rfl⟩, ?_⟩
  · rw [lookup_dirAttach hd, if_neg had, if_pos rfl]
  · funext walk
    rw [t.resolve_attach hparent hdir ha hgood rfl hnew, hcomponents, update_apply]
    rfl

/-- A creation changes nothing in an old node but the head of its list of entries. -/
theorem vfsCreate_lookup {x : Addr} {n : Node} (hn : s.nodes.lookup x = some n) (path : List UInt8)
    (type : NodeType) (mode : BitVec 32) (ops : Option FileOps) (choice : Option Addr) :
    ∃ child, (vfsCreate s path type mode ops choice).2.nodes.lookup x =
      some { n with child := child } := by
  unfold vfsCreate
  split
  · exact ⟨n.child, hn⟩
  split
  · exact ⟨n.child, hn⟩
  case h_2 parent _ =>
    split_ifs
    · exact ⟨n.child, hn⟩
    split
    · exact ⟨n.child, hn⟩
    case h_2 a ha =>
      have hxa : x ≠ a := by
        rintro rfl
        simp [lookup_of_kmalloc ha] at hn
      dsimp only
      cases hd : s.nodes.lookup parent with
      | none => exact ⟨n.child, by simp [dirAttach, hd, hn]⟩
      | some d =>
        rw [lookup_dirAttach hd]
        by_cases hxd : x = parent
        · obtain rfl : n = d := some.inj (hn.symm.trans (hxd ▸ hd))
          exact ⟨some a, by rw [if_pos hxd]⟩
        · exact ⟨n.child, by rw [if_neg hxd, if_neg hxa, hn]⟩

/-- A removal fails without effect, or unlinks an entry of the path's parent that has no entries. -/
theorem vfsRemove_unlink (t : Tree s.root s.nodes kids) (path : List UInt8) :
    vfsRemove s path = (-1, s) ∨
    ∃ dirPath name d v before after, parentOf s path = some d ∧
      components path = components dirPath ++ [name] ∧ resolve s.nodes s.root (components dirPath) =
        some d ∧ kids d = before ++ v :: after ∧ nameIs s.nodes name v = true ∧
      (isDir s.nodes v = false ∨ childOf s.nodes v = none) ∧
      vfsRemove s path = (0, { s with nodes := unlinked s.nodes d v before.getLast? }) := by
  unfold vfsRemove parentOf
  cases hsplit : pathSplit path 256 vfsNameMax with
  | none => exact .inl rfl
  | some parts =>
    obtain ⟨dirPath, name⟩ := parts
    obtain ⟨hslash, hlength, hcomponents⟩ := pathSplit_eq_some hsplit
    dsimp only [bind_some]
    cases hparent : vfsLookup s dirPath with
    | none => exact .inl rfl
    | some d =>
      dsimp only
      split_ifs with hdir
      · exact .inl rfl
      · simp only [Bool.not_eq_true, Bool.not_eq_false'] at hdir
        cases hfind : Chain.findLink (siblingOf s.nodes) (nameIs s.nodes name)
            s.nodes.keys.card none (childOf s.nodes d) with
        | none => exact .inl rfl
        | some found =>
          obtain ⟨link, v⟩ := found
          dsimp only
          split_ifs with hfull
          · exact .inl rfl
          · obtain ⟨before, after, hkids, hname, -, hlink⟩ :=
              Chain.findLink_eq_some (t.chain d (mem_of_isDir hdir)) hfind
            rw [or_none] at hlink
            have hempty : isDir s.nodes v = false ∨ childOf s.nodes v = none := by
              rw [Bool.not_eq_true, Bool.and_eq_false_iff] at hfull
              exact hfull.imp_right fun h ↦ by simpa using h
            have hne : name ≠ [] := by
              obtain ⟨-, n, hn, -, hgood⟩ := t.kid d v (by simp [hkids])
              obtain ⟨n', hn', rfl⟩ := nameIs_iff.mp hname
              obtain rfl : n = n' := some.inj (hn.symm.trans hn')
              exact hgood.ne_nil
            rw [vfsLookup_eq_resolve] at hparent
            exact .inr ⟨dirPath, name, d, v, before, after, rfl, hcomponents hne, hparent, hkids,
              hname, hempty, by rw [hlink]; rfl⟩

/-- A removal fails without effect, or unlinks and frees the node at the path's components, which
has no entries. -/
theorem vfsRemove_cases (t : Tree s.root s.nodes kids) (path : List UInt8) :
    vfsRemove s path = (-1, s) ∨
    ∃ v nodes', vfsRemove s path = (0, { s with nodes := nodes' }) ∧
      vfsLookup s path = some v ∧
      (isDir s.nodes v = false ∨ childOf s.nodes v = none) ∧
      (∃ kids', Tree s.root nodes' kids') ∧
      (∀ x, x ∈ nodes' ↔ x ≠ v ∧ x ∈ s.nodes) ∧
      resolve nodes' s.root =
        update (resolve s.nodes s.root) (components path) none := by
  rcases vfsRemove_unlink t path with
    hfail | ⟨dirPath, name, d, v, before, after, -, hcomponents, hparent, hkids, hname, hempty,
      hremove⟩
  · exact .inl hfail
  have hv : v ∈ kids d := by simp [hkids]
  have hleaf := t.kids_eq_nil (t.kid_mem hv) hempty
  refine .inr ⟨v, _, hremove, ?_, hempty, ⟨_, t.unlink hkids hleaf⟩, fun x ↦ mem_unlinked, ?_⟩
  · rw [vfsLookup_eq_resolve, hcomponents, resolve_append_singleton]
    exact ⟨d, hparent, t.stepInto_eq_some.mpr ⟨hv, hname⟩⟩
  · funext walk
    rw [t.resolve_unlink hkids hleaf hname hparent, hcomponents, update_apply]

end Effects

end ToastyUnix.Vfs
