import ToastyUnix.Vfs.Rootfs

/-!
# Mounting inverts archiving

The tree that a state holds is a map from paths to kind, mode and contents (`State.describe`). Each
member that is mounted adds one entry to it (`Added`). So the mount of the archive of a tree gives
the tree back, as long as no archive name fills the name field (`mount_inverts_archive_iff`); the
file of `full_name_is_misread` appears under another name.
-/

namespace ToastyUnix.Vfs

open List Option Finmap

open Ustar (Member)

/-! ## The tree that a state holds -/

/-- What a path leads to: the kind of the node, its mode and its contents. -/
abbrev Info := NodeType × BitVec 32 × List UInt8

def Node.info (n : Node) : Info := (n.type, n.mode, n.contents)

/-- What the file system shows at a path. -/
def State.describe (s : State) (path : List (List UInt8)) : Option Info :=
  (s.view path).bind fun a ↦ (s.nodes.lookup a).map Node.info

/-- `s'` is `s` with one more node `a`, at `path`. -/
structure Added (s s' : State) (path : List (List UInt8)) (a : Addr) (info : Info) : Prop where
  fresh : a ∉ s.nodes
  root : s'.root = s.root
  hasTree : s'.HasTree
  mem : ∀ x, x ∈ s'.nodes ↔ x = a ∨ x ∈ s.nodes
  view : s'.view = Function.update s.view path (some a)
  node : (s'.nodes.lookup a).map Node.info = some info
  others : ∀ x ≠ a, (s'.nodes.lookup x).map Node.info = (s.nodes.lookup x).map Node.info

section Added

variable {s s' : State} {path : List (List UInt8)} {a : Addr} {info : Info}

theorem describe_eq_none (h : s.HasTree) {q : List (List UInt8)} :
    s.describe q = none ↔ s.view q = none := by
  obtain ⟨kids, t⟩ := h
  rw [State.describe]
  cases hview : s.view q with
  | none => simp
  | some x =>
    obtain ⟨n, hn⟩ := mem_iff.mp (t.mem_of_resolve hview)
    simp [hn]

theorem Added.describe (h : Added s s' path a info) (hs : s.HasTree) (q : List (List UInt8)) :
    s'.describe q = if q = path then some info else s.describe q := by
  obtain ⟨kids, t⟩ := hs
  rw [State.describe, State.describe, h.view, Function.update_apply]
  split_ifs with hq
  · exact h.node
  · cases hview : s.view q with
    | none => rfl
    | some x =>
      have hx : x ≠ a := by
        rintro rfl
        exact h.fresh (t.mem_of_resolve hview)
      exact h.others x hx

/-- Stores to the new node that leave the tree alone. -/
theorem Added.setNode (h : Added s s' path a info) (f : Node → Node)
    (hshape : ∀ n, (f n).shape = n.shape) {info' : Info}
    (hinfo : ∀ n, n.info = info → (f n).info = info') :
    Added s (s'.setNode a f) path a info' := by
  obtain ⟨n, hn, hninfo⟩ := map_eq_some_iff.mp h.node
  have hset : s'.setNode a f = { s' with nodes := s'.nodes.insert a (f n) } := by
    rw [State.setNode, hn]
  have hsame : SameShape s'.nodes (s'.nodes.insert a (f n)) := sameShape_insert hn (hshape n)
  rw [hset]
  refine ⟨h.fresh, h.root, h.hasTree.congr hsame, fun x ↦ hsame.mem_iff.trans (h.mem x),
    (h.hasTree.view_congr hsame).trans h.view, ?_, fun x hx ↦ ?_⟩
  · rw [lookup_insert, map_some, hinfo n hninfo]
  · rw [lookup_insert_of_ne _ hx]
    exact h.others x hx

end Added

section Create

variable {s : State} {text : List UInt8} {type : NodeType} {mode : BitVec 32}
  {choice : Option Addr}

theorem vfsCreate_of_exists {x : Addr} (hlookup : vfsLookup s text = some x) (htext : text ≠ [])
    (ops : Option FileOps) : vfsCreate s text type mode ops choice = (none, s) := by
  unfold vfsCreate
  cases hsplit : pathSplit text 256 vfsNameMax with
  | none => rfl
  | some parts =>
    obtain ⟨dirPath, name⟩ := parts
    have hname : name ≠ [] := by
      rintro rfl
      exact htext (pathSplit_name_nil hsplit)
    have hcomponents := (pathSplit_eq_some hsplit).2.2 hname
    rw [vfsLookup_eq_resolve, hcomponents, resolve_append_singleton] at hlookup
    obtain ⟨d, hd, hstep⟩ := hlookup
    rw [← vfsLookup_eq_resolve] at hd
    have hfound : (!isDir s.nodes d || (dirFind s.nodes d name).isSome) = true := by
      unfold stepInto at hstep
      split_ifs at hstep with hlong hdir
      simp [hstep]
    simp [hd, hfound]

/-- A creation adds one node or changes nothing. -/
theorem vfsCreate_added (h : s.HasTree) (htext : text ≠ []) :
    vfsCreate s text type mode none choice = (none, s) ∨
    ∃ a s', vfsCreate s text type mode none choice = (some a, s') ∧
      Added s s' (components text) a (type, mode, []) := by
  obtain ⟨kids, t⟩ := h
  cases hlookup : vfsLookup s text with
  | some x => exact .inl (vfsCreate_of_exists hlookup htext none)
  | none =>
    rcases vfsCreate_cases t hlookup type mode none choice with
      hfail | ⟨a, nodes', hcreate, ha, htree, hmem, ⟨n, hn, htype, hmode, hsize⟩, hview⟩
    · exact .inl hfail
    · refine .inr ⟨a, _, hcreate, by simp [mem_iff, ha], rfl, htree, hmem, hview, ?_, ?_⟩
      · have hcontents : n.contents = [] := by
          rw [← length_eq_zero_iff, n.length_contents, hsize]
        rw [hn, map_some, Node.info, htype, hmode, hcontents]
      · intro x hx
        cases hold : s.nodes.lookup x with
        | none =>
          have hnew : x ∉ nodes' := by
            rw [hmem, not_or, mem_iff, hold]
            exact ⟨hx, by simp⟩
          rw [lookup_eq_none.mpr hnew]
        | some n' =>
          obtain ⟨child, hchild⟩ := vfsCreate_lookup hold text type mode none choice
          rw [hcreate] at hchild
          rw [hchild]
          rfl

variable {path : List (List UInt8)} {name : List UInt8}

/-- The last slash of a path is in front of its last component. -/
theorem pathSplit_joined (hgood : ∀ c ∈ path ++ [name], GoodName c)
    (hlength : (joined path).length < 256) :
    ∃ dirPath, pathSplit (joined (path ++ [name])) 256 vfsNameMax = some (dirPath, name) ∧
      components dirPath = path := by
  have hname := hgood name (by simp)
  by_cases hpath : path = []
  · refine ⟨[slash], ?_, by rw [hpath]; simp⟩
    have hjoined : joined (path ++ [name]) = name := by simp [hpath, joined]
    rw [hjoined, pathSplit, lastSlash_of_notMem hname.no_slash]
    simp [hname.length_lt]
  · refine ⟨joined path, ?_, components_joined fun c hc ↦ hgood c (mem_append_left _ hc)⟩
    have hjoined : joined (path ++ [name]) = joined path ++ slash :: name := by
      rw [joined_append hpath (by simp)]
      simp [joined]
    have hne : (joined path).length ≠ 0 := by
      obtain ⟨c, hc, -⟩ := getLast?_joined (fun c hc ↦ hgood c (mem_append_left _ hc)) hpath
      intro hzero
      rw [length_eq_zero_iff.mp hzero] at hc
      simp at hc
    have hdrop : (joined path ++ slash :: name).drop ((joined path).length + 1) = name := by
      rw [drop_append]
      simp
    have hnameLength := hname.length_lt
    have hnameNe : name.length ≠ 0 := by simpa using hname.ne_nil
    rw [hjoined, pathSplit, lastSlash_append hname.no_slash, Nat.zero_add]
    dsimp only
    rw [if_neg (by omega), hdrop, if_neg (by omega), if_neg hne, take_left]

/-- A creation in a directory that is there, under a name that is not, succeeds. -/
theorem vfsCreate_joined (type : NodeType) (mode : BitVec 32) {d a : Addr}
    (hgood : ∀ c ∈ path ++ [name], GoodName c) (hlength : (joined path).length < 256)
    (hparent : s.view path = some d) (hdir : isDir s.nodes d = true)
    (hmissing : s.view (path ++ [name]) = none) (halloc : kmalloc s.nodes choice = some a) :
    ∃ s', vfsCreate s (joined (path ++ [name])) type mode none choice = (some a, s') := by
  obtain ⟨dirPath, hsplit, hcomponents⟩ := pathSplit_joined hgood hlength
  have hlookup : vfsLookup s dirPath = some d := by
    rw [vfsLookup_eq_view, hcomponents, hparent]
  have hfree : dirFind s.nodes d name = none := by
    cases hfind : dirFind s.nodes d name with
    | none => rfl
    | some x =>
      have hstep : stepInto s.nodes d name = some x := by
        have hshort := (hgood name (by simp)).length_lt
        rw [stepInto, if_neg (by omega), if_pos hdir, hfind]
      have := resolve_append_singleton.mpr ⟨d, hparent, hstep⟩
      rw [State.view, this] at hmissing
      cases hmissing
  refine ⟨{ s with nodes := dirAttach s.nodes d a (freshNode name type mode none) }, ?_⟩
  simp [vfsCreate, hsplit, hlookup, hdir, hfree, halloc]

end Create

/-- What a member describes. -/
def memberInfo (m : Member) : Info :=
  (if m.content = none then .dir else .file, BitVec.ofNat 32 m.mode, m.bytes)

section Member

variable {s : State} {alloc : TarAlloc} {text : List UInt8} {mode : BitVec 32} {m : Member}

theorem withMode_shape (mode : BitVec 32) (n : Node) : (n.withMode mode).shape = n.shape := by
  rw [Node.withMode]
  split_ifs <;> rfl

theorem withMode_info (hmode : mode ≠ 0) (n : Node) :
    (n.withMode mode).info = (n.info.1, mode, n.info.2.2) := by
  rw [Node.withMode, if_pos hmode]
  rfl

theorem withBytes_info (bytes : List UInt8) (n : Node) :
    (n.withBytes bytes.length bytes).info = (n.info.1, n.info.2.1, bytes) := by
  have hcontents : (n.withBytes bytes.length bytes).contents = bytes := by
    apply Node.contents_eq
    intro i
    simp only [Node.withBytes, take_length]
    split_ifs with hi
    · rw [getD_eq_getElem?_getD, getElem?_eq_getElem hi]
      rfl
    · exact getElem?_eq_none (by omega)
  rw [Node.info, hcontents]
  rfl

/-- Whatever a member holds, it adds one node at its path or none. -/
theorem mountMember_cases (alloc : TarAlloc) (h : s.HasTree) (htext : text ≠ []) (type : UInt8)
    (mode : BitVec 32) (fsize : ℕ) (bytes : List UInt8) :
    (mountMember alloc s text type mode fsize bytes).2 = s ∨
      ∃ a info, Added s (mountMember alloc s text type mode fsize bytes).2 (components text) a
        info := by
  have hmode : ∀ {s' : State} {a : Addr} {info : Info}, Added s s' (components text) a info →
      ∃ info', Added s (s'.setNode a (Node.withMode mode)) (components text) a info' := by
    intro s' a info hadded
    by_cases hzero : mode = 0
    · refine ⟨info, hadded.setNode _ (withMode_shape mode) fun n hn ↦ ?_⟩
      rw [Node.withMode, if_neg (by simpa using hzero), hn]
    · exact ⟨_, hadded.setNode _ (withMode_shape mode) fun n hn ↦ by rw [withMode_info hzero, hn]⟩
  rw [mountMember]
  split_ifs
  · rw [mountDir, vfsCreateDir]
    rcases vfsCreate_added h htext with hfail | ⟨a, s', hcreate, hadded⟩
    · rw [hfail]
      exact .inl rfl
    · rw [hcreate]
      exact .inr ⟨a, hmode hadded⟩
  · rw [mountFile, vfsCreateFile]
    rcases vfsCreate_added h htext with hfail | ⟨a, s', hcreate, hadded⟩
    · rw [hfail]
      exact .inl rfl
    · obtain ⟨info', hadded'⟩ := hmode hadded
      refine .inr ⟨a, ?_⟩
      rw [hcreate]
      dsimp only
      split_ifs
      · exact ⟨info', hadded'⟩
      · refine ⟨(info'.1, info'.2.1, (Node.withBytes fsize bytes rootNode).contents), ?_⟩
        apply hadded'.setNode (Node.withBytes fsize bytes) fun n ↦ rfl
        rintro n rfl
        rfl
      · refine ⟨(info'.1, info'.2.1, []), ?_⟩
        apply hadded'.setNode (fun n ↦ { n with size := 0 }) fun n ↦ rfl
        rintro n rfl
        rfl
  · exact .inl rfl

/-- A member whose directory is there is mounted as it was archived. -/
theorem mountMember_added {path : List (List UInt8)} {name : List UInt8} {d a : Addr}
    (h : s.HasTree) (hvalid : m.Valid) (hpath : m.path = path ++ [name])
    (hgood : ∀ c ∈ m.path, GoodName c) (hparent : s.view path = some d)
    (hdir : isDir s.nodes d = true) (hmissing : s.view m.path = none)
    (halloc : kmalloc s.nodes alloc.node = some a) (hdata : alloc.data = true) :
    ∃ s', mountMember alloc s (joined m.path) m.typeFlag (BitVec.ofNat 32 m.mode) m.bytes.length
      m.bytes = (true, s') ∧ Added s s' m.path a (memberInfo m) := by
  have hne : m.path ≠ [] := by simp [hpath]
  have hmode : BitVec.ofNat 32 m.mode ≠ 0 := by
    have hpos := hvalid.mode_pos
    have hlt := hvalid.mode_lt
    rw [Ne, ← BitVec.toNat_inj, BitVec.toNat_ofNat]
    simp only [BitVec.ofNat_eq_ofNat, BitVec.toNat_ofNat, Nat.zero_mod]
    omega
  have htext : joined m.path ≠ [] := by
    obtain ⟨c, hc, -⟩ := getLast?_joined hgood hne
    rintro hnil
    simp [hnil] at hc
  have hlength : (joined path).length < 256 := by
    have hname := hvalid.name_le
    obtain ⟨suffix, hsuffix⟩ : ∃ suffix, joined m.path = joined path ++ suffix := by
      rw [hpath]
      by_cases hnil : path = []
      · exact ⟨joined (path ++ [name]), by simp [hnil, joined]⟩
      · exact ⟨_, joined_append hnil (by simp)⟩
    rw [name_member, hsuffix] at hname
    simp only [length_cons, length_append] at hname
    omega
  -- the node that `vfs_create_dir` or `vfs_create_file` makes
  have hcreated : ∀ type mode, ∃ s', vfsCreate s (joined m.path) type mode none alloc.node =
      (some a, s') ∧ Added s s' m.path a (type, mode, []) := by
    intro type mode
    obtain ⟨s', hcreate⟩ := vfsCreate_joined type mode (hpath ▸ hgood) hlength hparent
      hdir (hpath ▸ hmissing) halloc
    rw [← hpath] at hcreate
    refine ⟨s', hcreate, ?_⟩
    rcases vfsCreate_added h htext with hfail | ⟨a', s'', hcreate', hadded⟩
    · rw [hfail] at hcreate
      cases hcreate
    · rw [hcreate] at hcreate'
      obtain ⟨rfl, rfl⟩ : a = a' ∧ s' = s'' := by simpa using hcreate'
      rwa [components_joined hgood] at hadded
  cases hcontent : m.content with
  | none =>
    obtain ⟨s', hcreate, hadded⟩ := hcreated .dir 0o755
    refine ⟨s'.setNode a (Node.withMode (BitVec.ofNat 32 m.mode)), ?_, ?_⟩
    · rw [mountMember, Member.typeFlag, if_pos hcontent, if_pos rfl, mountDir, vfsCreateDir,
        hcreate]
    · apply hadded.setNode _ (withMode_shape _)
      intro n hn
      rw [withMode_info hmode, hn, memberInfo, if_pos hcontent, Member.bytes, hcontent]
      rfl
  | some bytes =>
    have hbytes : m.bytes = bytes := by rw [Member.bytes, hcontent]; rfl
    obtain ⟨s', hcreate, hadded⟩ := hcreated .file 0o644
    have hnone : m.content ≠ none := by simp [hcontent]
    have hadded' : Added s (s'.setNode a (Node.withMode (BitVec.ofNat 32 m.mode))) m.path a
        (.file, BitVec.ofNat 32 m.mode, []) := by
      apply hadded.setNode _ (withMode_shape _)
      intro n hn
      rw [withMode_info hmode, hn]
    have hinfo : memberInfo m = (.file, BitVec.ofNat 32 m.mode, m.bytes) := by
      rw [memberInfo, if_neg hnone]
    have hmount : mountMember alloc s (joined m.path) m.typeFlag (BitVec.ofNat 32 m.mode)
        m.bytes.length m.bytes = if m.bytes.length = 0 then
          (true, s'.setNode a (Node.withMode (BitVec.ofNat 32 m.mode)))
        else (true, (s'.setNode a (Node.withMode (BitVec.ofNat 32 m.mode))).setNode a
          (Node.withBytes m.bytes.length m.bytes)) := by
      rw [mountMember, Member.typeFlag, if_neg hnone, if_neg (by decide), if_pos (.inl rfl),
        mountFile, vfsCreateFile, hcreate]
      dsimp only
      rw [hdata, if_pos rfl]
    rw [hmount, hinfo]
    split_ifs with hempty
    · rw [length_eq_zero_iff.mp hempty]
      exact ⟨_, rfl, hadded'⟩
    · refine ⟨_, rfl, ?_⟩
      apply hadded'.setNode (Node.withBytes m.bytes.length m.bytes) fun n ↦ rfl
      intro n hn
      rw [withBytes_info, hn]

end Member

/-! ## Whole archives -/

/-- The members of a tree below the root, every directory before its entries. -/
structure IsListing (members : List Member) : Prop where
  valid : ∀ m ∈ members, m.Valid
  path : ∀ m ∈ members, GoodPath m.path
  ne_nil : ∀ m ∈ members, m.path ≠ []
  nodup : (members.map Member.path).Nodup
  parents : ∀ before m after, members = before ++ m :: after → ∀ path name,
    m.path = path ++ [name] → path ≠ [] → ∃ d ∈ before, d.path = path ∧ d.content = none

/-- The tree of a listing. -/
def treeOf (members : List Member) (path : List (List UInt8)) : Option Info :=
  (members.find? fun m ↦ m.path = path).map memberInfo

/-- The member for the root of the archive. -/
structure IsRoot (m : Member) : Prop where
  valid : m.Valid
  path : m.path = []

/-- The allocator never fails, and hands out a different block for every node. -/
structure Plenty (alloc : ℕ → TarAlloc) (root : Addr) : Prop where
  node : ∀ i, ∃ a, (alloc i).node = some a ∧ a ≠ root ∧ ∀ j, (alloc j).node = some a → j = i
  data : ∀ i, (alloc i).data = true

/-- The mount succeeded, and below the root the file system is the archived tree. -/
structure Inverts (result : ℤ × State) (members : List Member) : Prop where
  succeeds : result.1 = 0
  hasTree : result.2.HasTree
  describe : ∀ path ≠ [], result.2.describe path = treeOf members path

section Listing

variable {alloc : ℕ → TarAlloc} {s s' : State} {members done rest : List Member} {m : Member}
  {i : ℕ}

variable {path : List (List UInt8)}

/-- What holds after the first members. -/
structure Mounted (alloc : ℕ → TarAlloc) (i : ℕ) (s : State) (done : List Member) : Prop where
  hasTree : s.HasTree
  describe : ∀ path ≠ [], s.describe path = treeOf done path
  live : ∀ x ∈ s.nodes, x = s.root ∨ ∃ j < i, (alloc j).node = some x

theorem treeOf_concat (hnew : m.path ∉ done.map Member.path) :
    treeOf (done ++ [m]) path =
      if path = m.path then some (memberInfo m) else treeOf done path := by
  rw [treeOf, find?_append]
  split_ifs with hpath
  · have hnone : done.find? (fun m ↦ m.path = path) = none := by
      rw [find?_eq_none]
      intro d hd hdpath
      apply hnew
      rw [← hpath, ← of_decide_eq_true hdpath]
      exact mem_map_of_mem hd
    rw [hnone, hpath]
    simp
  · have hlast : [m].find? (fun m ↦ m.path = path) = none := by
      simpa using fun h : m.path = path ↦ hpath h.symm
    rw [hlast, or_none]
    rfl

theorem treeOf_of_mem (hnodup : (members.map Member.path).Nodup) (hm : m ∈ members) :
    treeOf members m.path = some (memberInfo m) := by
  rw [treeOf]
  cases hfind : members.find? (fun d ↦ d.path = m.path) with
  | none =>
    rw [find?_eq_none] at hfind
    exact absurd (decide_eq_true rfl) (hfind m hm)
  | some d =>
    have hd := mem_of_find?_eq_some hfind
    have hpath : d.path = m.path := by simpa using find?_some hfind
    rw [inj_on_of_nodup_map hnodup hd hm hpath]
    rfl

/-- The directory of the next member is there. -/
theorem Mounted.parent (h : Mounted alloc i s done) (hlisting : IsListing (done ++ m :: rest))
    {name : List UInt8} (hpath : m.path = path ++ [name]) :
    ∃ d, s.view path = some d ∧ isDir s.nodes d = true := by
  by_cases hnil : path = []
  · obtain ⟨kids, t⟩ := h.hasTree
    exact ⟨s.root, by rw [hnil]; rfl, t.root_dir⟩
  obtain ⟨d, hd, hdpath, hcontent⟩ := hlisting.parents done m rest rfl path name hpath hnil
  have hnodup : (done.map Member.path).Nodup := by
    have := hlisting.nodup
    rw [map_append] at this
    exact this.of_append_left
  have hdescribe := h.describe path hnil
  rw [← hdpath, treeOf_of_mem hnodup hd, State.describe, bind_eq_some_iff] at hdescribe
  obtain ⟨x, hview, hinfo⟩ := hdescribe
  obtain ⟨n, hn, hninfo⟩ := map_eq_some_iff.mp hinfo
  refine ⟨x, hdpath ▸ hview, ?_⟩
  have htype : n.type = .dir := by
    have := congrArg Prod.fst hninfo
    rwa [memberInfo, if_pos hcontent] at this
  simp [isDir, hn, htype]

theorem Mounted.step (h : Mounted alloc i s done) (halloc : Plenty alloc s.root)
    (hlisting : IsListing (done ++ m :: rest)) :
    ∃ s', mountMember (alloc i) s (joined m.path) m.typeFlag (BitVec.ofNat 32 m.mode)
      m.bytes.length m.bytes = (true, s') ∧ s'.root = s.root ∧
        Mounted alloc (i + 1) s' (done ++ [m]) := by
  have hmem : m ∈ done ++ m :: rest := by simp
  have hne := hlisting.ne_nil m hmem
  have hnew : m.path ∉ done.map Member.path := by
    have := hlisting.nodup
    rw [map_append, map_cons, nodup_middle, nodup_cons] at this
    exact fun hpath ↦ this.1 (mem_append_left _ hpath)
  obtain ⟨path, name, hpath⟩ : ∃ path name, m.path = path ++ [name] := by
    obtain ⟨path, name, hpath⟩ := m.path.eq_nil_or_concat.resolve_left hne
    exact ⟨path, name, hpath.trans (concat_eq_append)⟩
  obtain ⟨d, hparent, hdir⟩ := h.parent hlisting hpath
  have hmissing : s.view m.path = none := by
    rw [← describe_eq_none h.hasTree, h.describe m.path hne, treeOf, map_eq_none_iff, find?_eq_none]
    intro d hd hdpath
    exact hnew (of_decide_eq_true hdpath ▸ mem_map_of_mem hd)
  obtain ⟨a, ha, hroot, hunique⟩ := halloc.node i
  have hfresh : s.nodes.lookup a = none := by
    rw [lookup_eq_none]
    intro hlive
    rcases h.live a hlive with heq | ⟨j, hj, hja⟩
    · exact hroot heq
    · have := hunique j hja
      omega
  have hkmalloc : kmalloc s.nodes (alloc i).node = some a := by
    rw [kmalloc, ha, filter_some, hfresh]
    rfl
  obtain ⟨s', hmount, hadded⟩ := mountMember_added h.hasTree (hlisting.valid m hmem) hpath
    (hlisting.path m hmem).good hparent hdir hmissing hkmalloc (halloc.data i)
  refine ⟨s', hmount, hadded.root, hadded.hasTree, fun q hq ↦ ?_, fun x hx ↦ ?_⟩
  · rw [hadded.describe h.hasTree, treeOf_concat hnew, h.describe q hq]
  · rw [hadded.root]
    rcases (hadded.mem x).mp hx with rfl | hx
    · exact .inr ⟨i, by omega, ha⟩
    · rcases h.live x hx with heq | ⟨j, hj, hja⟩
      · exact .inl heq
      · exact .inr ⟨j, by omega, hja⟩

/-- All members, where no name fills its field. -/
theorem Mounted.run (h : Mounted alloc i s done) (halloc : Plenty alloc s.root)
    (hlisting : IsListing (done ++ rest)) (hshort : ∀ m ∈ rest, m.name.length < 100) :
    (mountAll alloc i s rest).1 = 0 ∧
      ∃ j, Mounted alloc j (mountAll alloc i s rest).2 (done ++ rest) := by
  induction rest generalizing i s done with
  | nil => exact ⟨rfl, i, by simpa [mountAll] using h⟩
  | cons m rest ih =>
    obtain ⟨s', hmount, hroot, hstep⟩ := h.step halloc hlisting
    have htext : mountedText m = joined m.path := by
      rw [mountedText, if_pos (hshort m mem_cons_self)]
    have hne := hlisting.ne_nil m (by simp)
    have hall : mountAll alloc i s (m :: rest) = mountAll alloc (i + 1) s' rest := by
      rw [mountAll, if_neg hne, htext, hmount]
      simp
    have happend : done ++ m :: rest = (done ++ [m]) ++ rest := by simp
    rw [hall, happend]
    rw [happend] at hlisting
    exact ih hstep (hroot ▸ halloc) hlisting fun d hd ↦ hshort d (mem_cons_of_mem m hd)

/-- Every path that is new after a mount is the path of some member as it was read. -/
theorem mountAll_view (h : s.HasTree) (hrest : ∀ m ∈ rest, m.path ≠ [] → mountedText m ≠ [])
    {q : List (List UInt8)} (hq : (mountAll alloc i s rest).2.view q ≠ none) :
    s.view q ≠ none ∨ ∃ m ∈ rest, m.path ≠ [] ∧ q = components (mountedText m) := by
  induction rest generalizing i s with
  | nil => exact .inl hq
  | cons m rest ih =>
    have hrest' : ∀ d ∈ rest, d.path ≠ [] → mountedText d ≠ [] := fun d hd ↦
      hrest d (mem_cons_of_mem m hd)
    by_cases hroot : m.path = []
    · rw [mountAll, if_pos hroot] at hq
      refine (ih h hrest' hq).imp_right ?_
      rintro ⟨d, hd, hdq⟩
      exact ⟨d, mem_cons_of_mem m hd, hdq⟩
    rw [mountAll, if_neg hroot] at hq
    have hcases := mountMember_cases (alloc i) h (hrest m mem_cons_self hroot)
      m.typeFlag (BitVec.ofNat 32 m.mode) m.bytes.length m.bytes
    generalize mountMember (alloc i) s (mountedText m) m.typeFlag (BitVec.ofNat 32 m.mode)
      m.bytes.length m.bytes = result at hq hcases
    -- after this member a path is old, or the path of the member
    have hnow : result.2.HasTree ∧
        (result.2.view q ≠ none → s.view q ≠ none ∨ q = components (mountedText m)) := by
      rcases hcases with hsame | ⟨a, info, hadded⟩
      · rw [hsame]
        exact ⟨h, .inl⟩
      · refine ⟨hadded.hasTree, fun hview ↦ ?_⟩
        by_cases hqm : q = components (mountedText m)
        · exact .inr hqm
        · rw [hadded.view, Function.update_of_ne hqm] at hview
          exact .inl hview
    have hhere : result.2.view q ≠ none →
        s.view q ≠ none ∨ ∃ d ∈ m :: rest, d.path ≠ [] ∧ q = components (mountedText d) :=
      fun hview ↦ (hnow.2 hview).imp_right fun heq ↦ ⟨m, mem_cons_self, hroot, heq⟩
    split_ifs at hq
    · exact hhere hq
    · rcases ih hnow.1 hrest' hq with hview | ⟨d, hd, hdq⟩
      · exact hhere hview
      · exact .inr ⟨d, mem_cons_of_mem m hd, hdq⟩

theorem mountedText_ne_nil (hpath : GoodPath m.path) (hne : m.path ≠ []) :
    mountedText m ≠ [] := by
  rw [mountedText]
  split_ifs
  · obtain ⟨c, hc, -⟩ := getLast?_joined hpath.good hne
    rintro hnil
    simp [hnil] at hc
  · have hmode := length_modeStart m
    rintro hnil
    rw [append_eq_nil_iff] at hnil
    simp [hnil.2] at hmode

/-- A name that fills its field is mounted at a path of 100 bytes. -/
theorem length_joined_components (hvalid : m.Valid) (hpath : GoodPath m.path) (hne : m.path ≠ [])
    (hfull : ¬ m.name.length < 100) : (joined (components (mountedText m))).length = 100 := by
  have hlength : (mountedText m).length = 100 := by
    have hle := hvalid.name_le
    rw [name_member, length_cons, length_cons] at hle hfull
    rw [mountedText, if_neg (by rw [name_member, length_cons, length_cons]; omega),
      length_append, length_modeStart]
    omega
  have hmode : modeStart m ≠ [] := ne_nil_of_length_pos (by rw [length_modeStart]; decide)
  have hmodeSlash : slash ∉ modeStart m := fun h ↦ (mem_modeStart h).2 rfl
  obtain ⟨first, name, hsplit⟩ := m.path.eq_nil_or_concat.resolve_left hne
  rw [concat_eq_append] at hsplit
  have hgood := hpath.good
  -- the components of the path with the two digits
  have hparts : ∃ parts, mountedText m = joined parts ∧ (∀ c ∈ parts, c ≠ []) ∧
      ∀ c ∈ parts, slash ∉ c := by
    rw [mountedText, if_neg hfull, nameSuffix]
    split_ifs with hdir
    · refine ⟨m.path ++ [modeStart m], ?_, ?_, ?_⟩
      · rw [joined_append hne (by simp)]
        simp [joined]
      · intro c hc
        rcases mem_append.mp hc with hc | hc
        · exact (hgood c hc).ne_nil
        · rwa [mem_singleton.mp hc]
      · intro c hc
        rcases mem_append.mp hc with hc | hc
        · exact (hgood c hc).no_slash
        · rwa [mem_singleton.mp hc]
    · refine ⟨first ++ [name ++ modeStart m], ?_, ?_, ?_⟩
      · rw [hsplit, append_nil]
        exact (Lines.intercalate_concat_append slash first name (modeStart m)).symm
      · intro c hc
        rcases mem_append.mp hc with hc | hc
        · exact (hgood c (by rw [hsplit]; simp [hc])).ne_nil
        · rw [mem_singleton.mp hc]
          simp [hmode]
      · intro c hc
        rcases mem_append.mp hc with hc | hc
        · exact (hgood c (by rw [hsplit]; simp [hc])).no_slash
        · rw [mem_singleton.mp hc, mem_append, not_or]
          exact ⟨(hgood name (by rw [hsplit]; simp)).no_slash, hmodeSlash⟩
  obtain ⟨parts, hparts, hpartsNe, hpartsSlash⟩ := hparts
  rw [hparts, components_joined_of_ne_nil hpartsNe hpartsSlash, ← hparts, hlength]

end Listing

theorem mounted_empty (alloc : ℕ → TarAlloc) {s : State} (hs : s.nodes = emptyTree s.root) (i : ℕ) :
    Mounted alloc i s [] where
  hasTree := by
    rw [State.HasTree, hs]
    exact ⟨_, emptyTree_tree s.root⟩
  describe path hpath := by
    have htree : s.HasTree := by
      rw [State.HasTree, hs]
      exact ⟨_, emptyTree_tree s.root⟩
    rw [(describe_eq_none htree).mpr ?_]
    · rfl
    obtain ⟨first, name, rfl⟩ := path.eq_nil_or_concat.resolve_left hpath
    rw [concat_eq_append, State.view, hs]
    cases hresolve : resolve (emptyTree s.root) s.root (first ++ [name]) with
    | none => rfl
    | some x =>
      obtain ⟨d, -, hstep⟩ := resolve_append_singleton.mp hresolve
      have := ((emptyTree_tree s.root).stepInto_eq_some.mp hstep).1
      simp at this
  live x hx := by
    rw [hs] at hx
    exact .inl ((mem_singleton _ _ _).mp hx)

section Main

variable {root : Member} {members : List Member} {s : State} {alloc : ℕ → TarAlloc}

theorem vfsMountRootfs_listing (hroot : IsRoot root) (hlisting : IsListing members)
    (trailer : List UInt8) :
    vfsMountRootfs alloc s (some (Ustar.archive (root :: members) trailer)) =
      mountAll alloc 1 s members := by
  have hvalid : ∀ m ∈ root :: members, m.Valid ∧ GoodPath m.path := by
    rw [forall_mem_cons]
    refine ⟨⟨hroot.valid, ?_⟩, fun m hm ↦ ⟨hlisting.valid m hm, hlisting.path m hm⟩⟩
    rw [hroot.path]
    exact ⟨by simp, by simp⟩
  rw [vfsMountRootfs_archive hvalid, mountAll, if_pos hroot.path]
  simp

/-- A member whose name fills its field is missing after the mount. -/
theorem Inverts.short (hs : s.nodes = emptyTree s.root) (hlisting : IsListing members)
    (h : Inverts (mountAll alloc 1 s members) members) : ∀ m ∈ members, m.name.length < 100 := by
  intro m hm
  by_contra hfull
  have hempty := mounted_empty alloc hs 1
  have hne := hlisting.ne_nil m hm
  have hdescribe := h.describe m.path hne
  rw [treeOf_of_mem hlisting.nodup hm] at hdescribe
  have hview : (mountAll alloc 1 s members).2.view m.path ≠ none := by
    rw [Ne, ← describe_eq_none h.hasTree, hdescribe]
    simp
  have htext : ∀ d ∈ members, d.path ≠ [] → mountedText d ≠ [] := fun d hd ↦
    mountedText_ne_nil (hlisting.path d hd)
  rcases mountAll_view hempty.hasTree htext hview with hold | ⟨d, hd, hdne, hdpath⟩
  · apply hold
    rw [← describe_eq_none hempty.hasTree, hempty.describe m.path hne]
    rfl
  · by_cases hdshort : d.name.length < 100
    · rw [mountedText, if_pos hdshort, components_joined (hlisting.path d hd).good] at hdpath
      rw [inj_on_of_nodup_map hlisting.nodup hm hd hdpath] at hfull
      exact hfull hdshort
    · have hlength := length_joined_components (hlisting.valid d hd) (hlisting.path d hd) hdne
        hdshort
      have hle := (hlisting.valid m hm).name_le
      rw [← hdpath] at hlength
      rw [name_member, length_cons, length_cons, length_append, hlength] at hle
      omega

/-- **Mounting inverts archiving, up to names that fill their field.** The mount of the archive of a
tree on an empty root succeeds and gives the tree back exactly when every archive name is shorter
than the name field. -/
theorem mount_inverts_archive_iff (hroot : IsRoot root) (hlisting : IsListing members)
    (trailer : List UInt8) (hs : s.nodes = emptyTree s.root) (halloc : Plenty alloc s.root) :
    Inverts (vfsMountRootfs alloc s (some (Ustar.archive (root :: members) trailer))) members ↔
      ∀ m ∈ members, m.name.length < 100 := by
  rw [vfsMountRootfs_listing hroot hlisting]
  constructor
  · exact Inverts.short hs hlisting
  · intro hshort
    obtain ⟨hzero, j, hall⟩ := (mounted_empty alloc hs 1).run halloc hlisting hshort
    exact ⟨hzero, hall.hasTree, hall.describe⟩

end Main

/-! ### A directory with one file -/

def plainMember (path : List (List UInt8)) (mode : ℕ) (content : Option (List UInt8)) : Member :=
  ⟨path, mode, content, replicate 16 48, replicate 20 48, replicate 355 0, 0⟩

@[simp]
theorem plainMember_path (path : List (List UInt8)) (mode : ℕ) (content : Option (List UInt8)) :
    (plainMember path mode content).path = path := rfl

@[simp]
theorem plainMember_content (path : List (List UInt8)) (mode : ℕ)
    (content : Option (List UInt8)) : (plainMember path mode content).content = content := rfl

def dirWithFile (dir file bytes : List UInt8) : List Member :=
  [plainMember [dir] 0o755 none, plainMember [dir, file] 0o644 (some bytes)]

theorem plainMember_valid {path : List (List UInt8)} {mode : ℕ} {content : Option (List UInt8)}
    (hname : (plainMember path mode content).name.length ≤ 100)
    (hmode : 0 < mode ∧ mode < 8 ^ 7) (hsize : (content.getD []).length < 8 ^ 11) :
    (plainMember path mode content).Valid :=
  ⟨hname, hmode.1, hmode.2, hsize, rfl, rfl, length_replicate, .inl rfl⟩

theorem isRoot_plainMember : IsRoot (plainMember [] 0o755 none) :=
  ⟨plainMember_valid (by decide) (by decide) (by decide), rfl⟩

theorem dirWithFile_isListing {dir file bytes : List UInt8} (hdir : GoodName dir ∧ 0 ∉ dir)
    (hfile : GoodName file ∧ 0 ∉ file) (hlength : dir.length + file.length ≤ 97)
    (hbytes : bytes.length < 8 ^ 11) : IsListing (dirWithFile dir file bytes) where
  valid := by
    have hfileLength := length_pos_iff.mpr hfile.1.ne_nil
    simp only [dirWithFile, forall_mem_cons, not_mem_nil, false_implies, implies_true, and_true]
    refine ⟨plainMember_valid ?_ (by decide) (by decide), plainMember_valid ?_ (by decide) hbytes⟩
    · simp [Member.name]
      omega
    · simp [Member.name, intercalate_cons_cons]
      omega
  path := by
    simp only [dirWithFile, forall_mem_cons, not_mem_nil, false_implies, implies_true, and_true]
    refine ⟨⟨?_, ?_⟩, ?_, ?_⟩ <;> simp [hdir, hfile]
  ne_nil := by simp [dirWithFile]
  nodup := by simp [dirWithFile]
  parents := by
    intro before m after hmembers path name hpath hne
    rcases before with _ | ⟨d, _ | ⟨e, before⟩⟩
    · obtain ⟨rfl, -⟩ : plainMember [dir] 0o755 none = m ∧ _ = after := by
        simpa [dirWithFile] using hmembers
      have hone := congrArg length hpath
      have hpos := length_pos_iff.mpr hne
      simp only [plainMember_path, length_append, length_singleton] at hone
      omega
    · obtain ⟨rfl, rfl, -⟩ : plainMember [dir] 0o755 none = d ∧
          plainMember [dir, file] 0o644 (some bytes) = m ∧ [] = after := by
        simpa [dirWithFile] using hmembers
      refine ⟨_, mem_singleton_self _, ?_, rfl⟩
      have hinit := congrArg dropLast hpath
      rw [dropLast_concat] at hinit
      exact hinit
    · have hlength := congrArg length hmembers
      simp [dirWithFile] at hlength

/-- The file system right after `vfs_init`. -/
def initState : State := ⟨0, emptyTree 0, ∅, ∅, fun _ ↦ none, none⟩

def freshAlloc (i : ℕ) : TarAlloc := ⟨some (i + 1), true⟩

theorem plenty_freshAlloc : Plenty freshAlloc initState.root where
  node i := ⟨i + 1, rfl, Nat.succ_ne_zero i, fun _ hj ↦ Nat.succ.inj (some.inj hj)⟩
  data _ := rfl

theorem mount_inverts_archive_iff_motd :
    Inverts (vfsMountRootfs freshAlloc initState (some (Ustar.archive
        (plainMember [] 0o755 none :: dirWithFile [101, 116, 99] [109] [104, 105]) [])))
      (dirWithFile [101, 116, 99] [109] [104, 105]) := by
  have hgood : (GoodName [101, 116, 99] ∧ 0 ∉ ([101, 116, 99] : List UInt8)) ∧
      GoodName [109] ∧ 0 ∉ ([109] : List UInt8) :=
    ⟨⟨⟨by decide, by decide, by decide⟩, by decide⟩, ⟨by decide, by decide, by decide⟩, by decide⟩
  have hlisting : IsListing (dirWithFile [101, 116, 99] [109] [104, 105]) :=
    dirWithFile_isListing hgood.1 hgood.2 (by decide) (by decide)
  exact (mount_inverts_archive_iff isRoot_plainMember hlisting [] rfl plenty_freshAlloc).mpr
    (by decide)

/-- **A file that is mounted elsewhere.** The name `./ddd…/fff…` takes all 100 bytes of its field,
and the first digits of the mode are read as a part of it. -/
theorem full_name_is_misread :
    IsRoot (plainMember [] 0o755 none) ∧
      IsListing (dirWithFile (replicate 48 100) (replicate 49 102) []) ∧
      ¬ Inverts (vfsMountRootfs freshAlloc initState (some (Ustar.archive
          (plainMember [] 0o755 none ::
            dirWithFile (replicate 48 100) (replicate 49 102) []) [])))
        (dirWithFile (replicate 48 100) (replicate 49 102) []) := by
  have hdir : GoodName (replicate 48 100) ∧ 0 ∉ replicate 48 (100 : UInt8) :=
    ⟨⟨by decide, by decide, by decide⟩, by decide⟩
  have hfile : GoodName (replicate 49 102) ∧ 0 ∉ replicate 49 (102 : UInt8) :=
    ⟨⟨by decide, by decide, by decide⟩, by decide⟩
  have hlisting := @dirWithFile_isListing _ _ [] hdir hfile (by decide) (by decide)
  refine ⟨isRoot_plainMember, hlisting, fun h ↦ ?_⟩
  rw [vfsMountRootfs_listing isRoot_plainMember hlisting] at h
  have hshort := h.short rfl hlisting (plainMember _ _ _)
    (mem_cons_of_mem _ mem_cons_self)
  exact absurd hshort (by decide)

end ToastyUnix.Vfs
