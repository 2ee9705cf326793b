import ToastyUnix.Vfs.FileData

/-!
# Directory listings

`vfs_readdir` remembers how many entries of the directory it has returned. Entries are created at
the front of the list and removed anywhere, so this number may come to mean another entry: after a
creation the last entry returned is returned again, and after a removal of a returned entry the next
one is skipped (`creation_repeats_entry`). When entries are only created before the first read or
behind the end of the list, and no entry that was returned is removed before the end is reached,
every entry that stays in the directory is returned exactly once (`listing_complete`).
-/

namespace ToastyUnix.Vfs

open List Function Option Finmap

/-! ## The entries of a directory -/

variable {root x : Addr} {nodes : Heap Node} {kids : Addr → List Addr} {cells : List Addr}

/-- The entries of a directory in the order of its list. -/
def entriesOf (nodes : Heap Node) (d : Addr) : List Addr :=
  Chain.walk (siblingOf nodes) nodes.keys.card (childOf nodes d)

theorem Tree.entriesOf_eq (t : Tree root nodes kids) {d : Addr} (hd : d ∈ nodes) :
    entriesOf nodes d = kids d := by
  rw [entriesOf, (t.chain d hd).walk_eq, take_of_length_le (t.length_kids_le d)]

/-- The path of a call that may create an entry. -/
def Op.createPath : Op → Option (List UInt8)
  | .openFile path flags .. => if flags &&& O_CREAT ≠ 0 then path else none
  | .mkdir path .. => path
  | _ => none

/-- The path of a call that may remove an entry. -/
def Op.removePath : Op → Option (List UInt8)
  | .unlink path => path
  | _ => none

/-- What one call does to the lists of entries: nothing, a new entry in front of one list, or one
entry less. -/
def EditsKids (s : State) (op : Op) (kids kids' : Addr → List Addr) : Prop :=
  kids' = kids ∨
  (∃ p d a, op.createPath = some p ∧ vfsLookup s p = none ∧ parentOf s p = some d ∧
    kids' = update kids d (a :: kids d)) ∨
  (∃ p d v before after, op.removePath = some p ∧ vfsLookup s p = some v ∧
    parentOf s p = some d ∧ kids d = before ++ v :: after ∧
    kids' = update kids d (before ++ after))

section Calls

variable {s : State} {kids : Addr → List Addr}

section

variable (t : Tree s.root s.nodes kids)
include t

theorem vfsCreate_kids {path : List UInt8} (hmissing : vfsLookup s path = none) (type : NodeType)
    (mode : BitVec 32) (ops : Option FileOps) (choice : Option Addr) :
    vfsCreate s path type mode ops choice = (none, s) ∨
    ∃ d a nodes, parentOf s path = some d ∧
      vfsCreate s path type mode ops choice = (some a, { s with nodes := nodes }) ∧
      Tree s.root nodes (update kids d (a :: kids d)) := by
  rcases vfsCreate_attach hmissing type mode ops choice with
    hfail | ⟨dirPath, name, d, a, hparent, -, -, hdir, ha, hgood, hnew, hcreate⟩
  · exact .inl hfail
  · exact .inr ⟨d, a, _, hparent, hcreate, t.attach hdir ha hgood rfl hnew⟩

theorem vfsUnlink_kids (path : Option (List UInt8)) :
    (vfsUnlink s path).2 = s ∨
    ∃ p d v before after nodes, path = some p ∧ vfsLookup s p = some v ∧ parentOf s p = some d ∧
      kids d = before ++ v :: after ∧ (vfsUnlink s path).2 = { s with nodes := nodes } ∧
      Tree s.root nodes (update kids d (before ++ after)) := by
  unfold vfsUnlink
  cases path with
  | none => exact .inl rfl
  | some p =>
    dsimp only
    cases hlookup : vfsLookup s p with
    | none => exact .inl rfl
    | some x =>
      dsimp only
      rcases vfsRemove_unlink t p with
        hfail | ⟨dirPath, name, d, v, before, after, hparent, hcomponents, hresolve, hkids, hname,
          hempty, hremove⟩
      · rw [hfail]
        exact .inl rfl
      · have hv : v ∈ kids d := by simp [hkids]
        have hfound : vfsLookup s p = some v := by
          rw [vfsLookup_eq_resolve, hcomponents, resolve_append_singleton]
          exact ⟨d, hresolve, t.stepInto_eq_some.mpr ⟨hv, hname⟩⟩
        rw [hremove]
        exact .inr ⟨p, d, v, before, after, _, rfl, hfound, hparent, hkids, rfl,
          t.unlink hkids (t.kids_eq_nil (t.kid_mem hv) hempty)⟩

/-- The node of `vfs_open` was there, or a file was created. -/
theorem openNode_kids {p : List UInt8} {flags : BitVec 32} {choice node : Option Addr}
    {s' : State} (hnode : openNode s p flags choice = (node, s')) :
    s' = s ∨ ∃ d a nodes, flags &&& O_CREAT ≠ 0 ∧ vfsLookup s p = none ∧ parentOf s p = some d ∧
      s' = { s with nodes := nodes } ∧
      Tree s.root nodes (update kids d (a :: kids d)) := by
  unfold openNode at hnode
  cases hlookup : vfsLookup s p with
  | some x =>
    rw [hlookup] at hnode
    exact .inl (Prod.mk.inj hnode).2.symm
  | none =>
    rw [hlookup] at hnode
    dsimp only at hnode
    by_cases hcreat : flags &&& O_CREAT ≠ 0
    · rw [if_pos hcreat, vfsCreateFile] at hnode
      rcases vfsCreate_kids t hlookup .file 0o644 none choice with
        hfail | ⟨d, a, nodes, hparent, hcreate, htree⟩
      · rw [hfail] at hnode
        exact .inl (Prod.mk.inj hnode).2.symm
      · rw [hcreate] at hnode
        exact .inr ⟨d, a, nodes, hcreat, rfl, hparent, (Prod.mk.inj hnode).2.symm, htree⟩
    · rw [if_neg hcreat] at hnode
      exact .inl (Prod.mk.inj hnode).2.symm

theorem vfsMkdir_kids (path : Option (List UInt8)) (mode : BitVec 32) (choice : Option Addr) :
    (vfsMkdir s path mode choice).2 = s ∨
    ∃ p d a nodes, path = some p ∧ vfsLookup s p = none ∧ parentOf s p = some d ∧
      (vfsMkdir s path mode choice).2 = { s with nodes := nodes } ∧
      Tree s.root nodes (update kids d (a :: kids d)) := by
  unfold vfsMkdir
  cases path with
  | none => exact .inl rfl
  | some p =>
    dsimp only
    cases hlookup : vfsLookup s p with
    | some x => exact .inl rfl
    | none =>
      dsimp only [vfsCreateDir]
      rcases vfsCreate_kids t hlookup .dir 0o755 none choice with
        hfail | ⟨d, a, nodes, hparent, hcreate, htree⟩
      · rw [hfail]
        exact .inl rfl
      · rw [hcreate]
        dsimp only
        refine .inr ?_
        cases ha : nodes.lookup a with
        | none => exact ⟨p, d, a, nodes, rfl, hlookup, hparent, rfl, htree⟩
        | some n =>
          dsimp only
          split_ifs
          · have hshape : SameShape nodes (nodes.insert a { n with mode := mode }) :=
              sameShape_insert ha rfl
            exact ⟨p, d, a, _, rfl, hlookup, hparent, rfl, htree.congr hshape⟩
          · exact ⟨p, d, a, nodes, rfl, hlookup, hparent, rfl, htree⟩

/-- Every call edits at most one list of entries. -/
theorem call_kids (op : Op) :
    ∃ kids', Tree (System.call s op).root (System.call s op).nodes kids' ∧
      EditsKids s op kids kids' := by
  have hsame {s' : State} (h : s'.root = s.root ∧ SameShape s.nodes s'.nodes) :
      ∃ kids', Tree s'.root s'.nodes kids' ∧ EditsKids s op kids kids' := by
    refine ⟨kids, ?_, .inl rfl⟩
    rw [h.1]
    exact t.congr h.2
  cases op with
  | openFile path flags nodeChoice fileChoice =>
    rcases vfsOpen_cases s path flags nodeChoice fileChoice with
      hnone | ⟨p, node, s', nodes, hpath, hnode, hshape, hcases⟩
    · exact hsame (by rw [System.call, hnone]; exact ⟨rfl, .refl _⟩)
    -- Behind the lookup or creation, only contents of nodes and descriptions change.
    obtain ⟨hroot, hnodes⟩ : (System.call s (.openFile path flags nodeChoice fileChoice)).root =
        s'.root ∧ (System.call s (.openFile path flags nodeChoice fileChoice)).nodes = nodes := by
      rw [System.call]
      rcases hcases with hopen | ⟨x, f, file, -, -, -, -, -, -, hopen | ⟨task, i, -, -, hopen⟩⟩ <;>
        rw [hopen] <;> exact ⟨rfl, rfl⟩
    rcases openNode_kids t hnode with rfl | ⟨d, a, nodes', hcreat, hmissing, hparent, rfl, htree⟩
    · exact hsame ⟨hroot, by rw [hnodes]; exact hshape⟩
    · rw [hroot, hnodes]
      refine ⟨_, htree.congr hshape, .inr (.inl ⟨p, d, a, ?_, hmissing, hparent, rfl⟩)⟩
      rw [Op.createPath, if_pos hcreat, hpath]
  | mkdir path mode choice =>
    rcases vfsMkdir_kids t path mode choice with
      hnone | ⟨p, d, a, nodes, hpath, hmissing, hparent, hcall, htree⟩
    · exact hsame (by rw [System.call, hnone]; exact ⟨rfl, .refl _⟩)
    · rw [System.call, hcall]
      exact ⟨_, htree, .inr (.inl ⟨p, d, a, hpath, hmissing, hparent, rfl⟩)⟩
  | unlink path =>
    rcases vfsUnlink_kids t path with
      hnone | ⟨p, d, v, before, after, nodes, hpath, hv, hparent, hkids, hcall, htree⟩
    · exact hsame (by rw [System.call, hnone]; exact ⟨rfl, .refl _⟩)
    · rw [System.call, hcall]
      exact ⟨_, htree, .inr (.inr ⟨p, d, v, before, after, hpath, hv, hparent, hkids, rfl⟩)⟩
  | _ => exact hsame (System.call_sameShape s rfl)

end

end Calls

/-- The record of a node. -/
def Node.dirent (n : Node) : Dirent := ⟨n.name, n.type, n.size, n.mode⟩

theorem direntsFrom_chain {head : Option Addr} (h : Chain.IsChain (siblingOf nodes) head cells)
    (hmem : ∀ c ∈ cells, c ∈ nodes) (room : ℕ) :
    direntsFrom nodes room head =
      (cells.take room).filterMap fun c ↦ (nodes.lookup c).map Node.dirent := by
  induction cells generalizing head room with
  | nil =>
    obtain rfl : head = none := h
    cases room <;> simp [direntsFrom]
  | cons c cells ih =>
    obtain ⟨rfl, hrest⟩ := h
    obtain ⟨hc, hcells⟩ := forall_mem_cons.mp hmem
    obtain ⟨n, hn⟩ := mem_iff.mp hc
    have hsibling : siblingOf nodes c = n.sibling := by simp [siblingOf, hn]
    rw [hsibling] at hrest
    cases room with
    | zero => rfl
    | succ room =>
      rw [direntsFrom, bind_some, hn, take_succ_cons, filterMap_cons_some (by rw [hn]; rfl)]
      exact congrArg (List.cons n.dirent) (ih hrest hcells room)

/-- The entries that a read from position `pos` returns. -/
def readEntries (nodes : Heap Node) (x : Addr) (pos count : ℕ) : List Addr :=
  ((entriesOf nodes x).drop pos).take (count / direntSize)

/-- `vfs_readdir` returns the next entries and moves the position behind them. -/
theorem vfsReaddir_spec {s : State} (t : Tree s.root s.nodes kids) {fd : ℤ} {a : Addr} {f : File}
    (hfd : s.fdGet fd = some a) (hf : s.files.lookup a = some f) (hpipe : f.pipe = none)
    (hnode : f.node = some x) (hdir : isDir s.nodes x = true) (count : ℕ) :
    let entries := readEntries s.nodes x f.pos count
    vfsReaddir s fd true count =
      (((entries.length * direntSize : ℕ) : ℤ),
        entries.filterMap fun c ↦ (s.nodes.lookup c).map Node.dirent,
        { s with files := s.files.insert a { f with pos := f.pos + entries.length } }) := by
  intro entries
  have hx := mem_of_isDir hdir
  obtain ⟨n, hn⟩ := mem_iff.mp hx
  have htype : n.type = .dir := by simpa [isDir, hn] using hdir
  have hnodeOf : s.nodeOf f = some (x, n) := by
    simp only [State.nodeOf, hpipe, hnode, bind_some, hn, map_some]
  have hchild : childOf s.nodes x = n.child := by simp [childOf, hn]
  have hchain := (t.chain x hx).iterate f.pos
  rw [hchild] at hchain
  have hmem : ∀ c ∈ (kids x).drop f.pos, c ∈ s.nodes :=
    fun c hc ↦ t.kid_mem (mem_of_mem_drop hc)
  have hrecords := direntsFrom_chain hchain hmem (count / direntSize)
  rw [← t.entriesOf_eq hx] at hrecords
  have hlength : (entries.filterMap fun c ↦ (s.nodes.lookup c).map Node.dirent).length =
      entries.length := by
    rw [filterMap_length_eq_length]
    intro c hc
    have hkid : c ∈ kids x := by
      rw [← t.entriesOf_eq hx]
      exact mem_of_mem_drop (mem_of_mem_take hc)
    obtain ⟨m, hm⟩ := mem_iff.mp (t.kid_mem hkid)
    simp [hm]
  simp only [vfsReaddir, hfd, hf, hnodeOf, htype, ne_eq, not_true_eq_false, if_false, Bool.not_true,
    Bool.false_eq_true, hrecords]
  rw [← readEntries, hlength]

/-- Among entries of one directory at most one has the given name. -/
theorem countP_dirents (t : Tree root nodes kids) {e : Addr} {name : List UInt8} (he : e ∈ kids x)
    (hname : nameIs nodes name e = true) (hcells : cells.Sublist (kids x)) :
    (cells.filterMap fun c ↦ (nodes.lookup c).map Node.dirent).countP (·.name = name) =
      if e ∈ cells then 1 else 0 := by
  have hcount : (cells.filterMap fun c ↦ (nodes.lookup c).map Node.dirent).countP
      (·.name = name) = cells.countP (· == e) := by
    rw [countP_filterMap]
    apply countP_congr
    intro c hc
    have hkid := hcells.subset hc
    obtain ⟨n, hn⟩ := mem_iff.mp (t.kid_mem hkid)
    have hsame : n.name = name ↔ c = e := by
      constructor
      · intro h
        exact t.names x c hkid e he name (nameIs_iff.mpr ⟨n, hn, h⟩) hname
      · rintro rfl
        obtain ⟨n', hn', hname'⟩ := nameIs_iff.mp hname
        rwa [some.inj (hn.symm.trans hn')]
    simpa [hn, Node.dirent] using hsame
  rw [hcount, ← List.count, (hcells.nodup (t.nodup x)).count]

/-! ## A listing and what happens meanwhile -/

/-- A listing: the records returned so far, and whether a read has returned nothing. -/
structure Listing where
  vfs : State
  returned : List Dirent
  ended : Bool

/-- A read of the directory, or any other call. -/
inductive ListingEvent
  | read (task : TaskId) (fd : ℤ) (count : ℕ)
  | other (task : TaskId) (op : Op)

/-- What a description refers to and its position. -/
def File.place (f : File) : Option Addr × Option Addr × ℕ := (f.node, f.pipe, f.pos)

/-- One event until the end of the listing: a read through description `a` with room for a record,
or a call that does not use or close it. -/
def Listing.step (a : Addr) (l : Listing) : ListingEvent → Listing
  | .read task fd count =>
    if l.ended = false ∧ (l.vfs.enter task).fdGet fd = some a ∧ direntSize ≤ count then
      let result := vfsReaddir (l.vfs.enter task) fd true count
      ⟨result.2.2, l.returned ++ result.2.1, result.1 = 0⟩
    else l
  | .other task op =>
    let s := System.call (l.vfs.enter task) op
    if l.ended = false ∧
        (s.files.lookup a).map File.place = (l.vfs.files.lookup a).map File.place then
      { l with vfs := s }
    else l

/-- Entries of `x` are created only before the first read or with the position behind the end of the
list; an entry before the position is removed only at the end. -/
def Listing.Calm (a x : Addr) (l : Listing) : ListingEvent → Prop
  | .read .. => True
  | .other _ op => ∀ f, l.vfs.files.lookup a = some f →
    (∀ p, op.createPath = some p → vfsLookup l.vfs p = none → parentOf l.vfs p = some x →
      f.pos = 0 ∨ (entriesOf l.vfs.nodes x).length < f.pos) ∧
    (∀ p v, op.removePath = some p → vfsLookup l.vfs p = some v → parentOf l.vfs p = some x →
      v ∉ (entriesOf l.vfs.nodes x).take f.pos ∨ (entriesOf l.vfs.nodes x).length ≤ f.pos)

/-- Node `e` is an entry of directory `x`, under the given name. -/
def State.HasEntry (s : State) (x e : Addr) (name : List UInt8) : Prop :=
  e ∈ entriesOf s.nodes x ∧ nameIs s.nodes name e = true

instance (s : State) (x e : Addr) (name : List UInt8) : Decidable (s.HasEntry x e name) :=
  inferInstanceAs (Decidable (_ ∧ _))

/-- How often a name was returned. -/
def Listing.times (l : Listing) (name : List UInt8) : ℕ := l.returned.countP (·.name = name)

/-- The entry was returned once if it lies before the position, or at the end, and not yet
otherwise. -/
structure Listed (a x e : Addr) (name : List UInt8) (l : Listing) : Prop where
  tree : l.vfs.HasTree
  file : ∃ f, l.vfs.files.lookup a = some f ∧ f.pipe = none ∧ f.node = some x ∧
    (l.ended = false → l.times name = if e ∈ (entriesOf l.vfs.nodes x).take f.pos then 1 else 0)
  done : l.ended = true → l.times name = 1

section Steps

variable {a x e : Addr} {name : List UInt8} {l : Listing}

theorem State.HasEntry.mem_nodes {s : State} (h : s.HasEntry x e name) : x ∈ s.nodes := by
  by_contra hx
  have hchild : childOf s.nodes x = none := by
    simp [childOf, lookup_eq_none.mpr hx]
  have hmem := h.1
  rw [entriesOf, hchild] at hmem
  cases hcard : s.nodes.keys.card <;> simp [hcard, Chain.walk] at hmem

/-- The entries in front of the position after a read. -/
theorem take_readEntries (nodes : Heap Node) (x : Addr) (pos count : ℕ) :
    (entriesOf nodes x).take (pos + (readEntries nodes x pos count).length) =
      (entriesOf nodes x).take pos ++ readEntries nodes x pos count := by
  rw [take_add]
  congr 1
  exact (prefix_iff_eq_take.mp ( take_prefix _ _)).symm

variable {pos : ℕ}

theorem length_entriesOf_le {nodes : Heap Node} {count : ℕ} (hcount : direntSize ≤ count)
    (hnone : readEntries nodes x pos count = []) : (entriesOf nodes x).length ≤ pos := by
  have hroom : count / direntSize ≠ 0 := (Nat.div_pos hcount (by decide)).ne'
  rw [readEntries, take_eq_nil_iff] at hnone
  exact drop_eq_nil_iff.mp (hnone.resolve_left hroom)

theorem Listed.read (h : Listed a x e name l) (hentry : l.vfs.HasEntry x e name) (task : TaskId)
    (fd : ℤ) (count : ℕ) : Listed a x e name (l.step a (.read task fd count)) := by
  rw [Listing.step]
  split_ifs with hread
  swap
  · exact h
  obtain ⟨hended, hfd, hcount⟩ := hread
  obtain ⟨kids, t⟩ := h.tree
  obtain ⟨f, hf, hpipe, hnode, htimes⟩ := h.file
  have hx := hentry.mem_nodes
  have hkids := t.entriesOf_eq hx
  have he : e ∈ kids x := hkids ▸ hentry.1
  have hspec := vfsReaddir_spec (s := l.vfs.enter task) t hfd hf hpipe hnode (t.kid x e he).1 count
  have hall : (readEntries l.vfs.nodes x f.pos count).Sublist (kids x) := by
    rw [← hkids]
    exact (take_sublist _ _).trans (drop_sublist _ _)
  have hnew := countP_dirents t he hentry.2 hall
  have hdisjoint : e ∈ (entriesOf l.vfs.nodes x).take f.pos →
      e ∉ readEntries l.vfs.nodes x f.pos count := by
    intro hfront hback
    have hnodup := t.nodup x
    rw [← hkids, ← take_append_drop f.pos (entriesOf l.vfs.nodes x), nodup_append] at hnodup
    exact hnodup.2.2 e hfront e (mem_of_mem_take hback) rfl
  have htotal : (l.returned ++ (readEntries l.vfs.nodes x f.pos count).filterMap
        fun c ↦ (l.vfs.nodes.lookup c).map Node.dirent).countP (·.name = name) =
      if e ∈ (entriesOf l.vfs.nodes x).take f.pos ++ readEntries l.vfs.nodes x f.pos count
        then 1 else 0 := by
    rw [countP_append, hnew, ← Listing.times, htimes hended]
    by_cases hfront : e ∈ (entriesOf l.vfs.nodes x).take f.pos
    · simp [hfront, hdisjoint hfront]
    · simp [hfront]
  rw [hspec]
  refine ⟨⟨kids, t⟩, ⟨_, lookup_insert _, hpipe, hnode, fun _ ↦ ?_⟩, fun hzero ↦ ?_⟩
  · rw [← take_readEntries] at htotal
    exact htotal
  · have hdirent : direntSize ≠ 0 := by decide
    have hnone : readEntries (l.vfs.enter task).nodes x f.pos count = [] := by
      simpa [hdirent] using hzero
    have hnil : readEntries l.vfs.nodes x f.pos count = [] := hnone
    refine htotal.trans ?_
    rw [hnil, append_nil, take_of_length_le (length_entriesOf_le hcount hnil), if_pos hentry.1]

/-- An entry before a position stays there when another one behind it, or at the end of the listing,
is taken out. -/
theorem mem_take_of_removed {before after : List Addr} {v : Addr} (he : e ∈ before ++ after)
    (hcalm : v ∉ (before ++ v :: after).take pos ∨ (before ++ v :: after).length ≤ pos) :
    e ∈ (before ++ after).take pos ↔ e ∈ (before ++ v :: after).take pos := by
  rcases hcalm with hfront | hend
  · have hpos : pos ≤ before.length := by
      by_contra hlt
      apply hfront
      rw [take_append, mem_append]
      right
      obtain ⟨k, hk⟩ := Nat.exists_eq_add_of_lt (Nat.not_le.mp hlt)
      rw [show pos - before.length = k + 1 by omega, take_succ_cons]
      exact mem_cons_self
    rw [take_append_of_le_length hpos, take_append_of_le_length hpos]
  · rw [length_append, length_cons] at hend
    rw [take_of_length_le (by rw [length_append]; omega),
      take_of_length_le (by rw [length_append, length_cons]; omega)]
    refine iff_of_true he ?_
    rw [mem_append] at he ⊢
    exact he.imp_right (mem_cons_of_mem v)

/-- An entry before a position stays there when one is added at the start or the end of the listing.
-/
theorem mem_take_of_created {kids : List Addr} {b : Addr} (he : e ∈ kids)
    (hcalm : pos = 0 ∨ kids.length < pos) : e ∈ (b :: kids).take pos ↔ e ∈ kids.take pos := by
  rcases hcalm with rfl | hend
  · rfl
  · rw [take_of_length_le (by rw [length_cons]; omega), take_of_length_le hend.le]
    exact iff_of_true (mem_cons_of_mem b he) he

/-- A call that is no read keeps what is known about the entry. -/
theorem Listed.other (h : Listed a x e name l) (hentry : l.vfs.HasEntry x e name) {task : TaskId}
    {op : Op} (hcalm : l.Calm a x (.other task op))
    (hentry' : (l.step a (.other task op)).vfs.HasEntry x e name) :
    Listed a x e name (l.step a (.other task op)) := by
  rw [Listing.step] at hentry' ⊢
  split_ifs at hentry' ⊢ with hother
  swap
  · exact h
  obtain ⟨hended, hplace⟩ := hother
  obtain ⟨kids, t⟩ := h.tree
  obtain ⟨f, hf, hpipe, hnode, htimes⟩ := h.file
  obtain ⟨kids', t', hedit⟩ := call_kids (s := l.vfs.enter task) t op
  rw [hf, map_some, map_eq_some_iff] at hplace
  obtain ⟨f', hf', hsame⟩ := hplace
  obtain ⟨hnode', hpipe', hpos⟩ : f'.node = f.node ∧ f'.pipe = f.pipe ∧ f'.pos = f.pos := by
    simpa [File.place] using hsame
  have hkids := t.entriesOf_eq hentry.mem_nodes
  have hkids' := t'.entriesOf_eq hentry'.mem_nodes
  refine ⟨⟨kids', t'⟩, ⟨f', hf', by rw [hpipe', hpipe], by rw [hnode', hnode], fun _ ↦ ?_⟩, ?_⟩
  · have hfront : e ∈ (kids' x).take f.pos ↔ e ∈ (kids x).take f.pos := by
      obtain ⟨hcreate, hremove⟩ := hcalm f hf
      rw [hkids] at hcreate hremove
      rcases hedit with rfl | ⟨p, d, b, hpath, hmissing, hparent, rfl⟩ |
        ⟨p, d, v, before, after, hpath, hv, hparent, hlist, rfl⟩
      · rfl
      · by_cases hd : d = x
        · subst hd
          rw [update_self]
          exact mem_take_of_created (hkids ▸ hentry.1) (hcreate p hpath hmissing hparent)
        · rw [update_of_ne (Ne.symm hd)]
      · by_cases hd : d = x
        · subst hd
          have hstays := hentry'.1
          rw [hkids', update_self] at hstays
          have hcalm' := hremove p v hpath hv hparent
          rw [hlist] at hcalm' ⊢
          rw [update_self]
          exact mem_take_of_removed hstays hcalm'
        · rw [update_of_ne (Ne.symm hd)]
    rw [hkids', hpos]
    simp only [hfront]
    rw [← hkids]
    exact htimes hended
  · intro hdone
    exact absurd hdone (by simp [hended])

end Steps

/-- Every entry that stays in the directory during a listing is returned exactly once by its end, if
entries are only created and removed where it does not disturb the position. -/
theorem listing_complete {s : State} (htree : s.HasTree) {a x : Addr} {f : File}
    (hf : s.files.lookup a = some f) (hpipe : f.pipe = none) (hnode : f.node = some x)
    (hpos : f.pos = 0) {events : List ListingEvent}
    (hcalm : Runs.Meets (Listing.step a) (Listing.Calm a x) ⟨s, [], false⟩ events) {e : Addr}
    {name : List UInt8}
    (hentry : Runs.Always (Listing.step a) (fun l ↦ l.vfs.HasEntry x e name) ⟨s, [], false⟩ events)
    (hended : (Runs.run (Listing.step a) ⟨s, [], false⟩ events).ended = true) :
    (Runs.run (Listing.step a) ⟨s, [], false⟩ events).times name = 1 := by
  have hstart : Listed a x e name ⟨s, [], false⟩ := by
    refine ⟨htree, ⟨f, hf, hpipe, hnode, fun _ ↦ ?_⟩, fun h ↦ ?_⟩
    · rw [hpos, take_zero, if_neg not_mem_nil]
      rfl
    · cases h
  have hlisted : Listed a x e name (Runs.run (Listing.step a) ⟨s, [], false⟩ events) := by
    apply hcalm.run_of_always hentry hstart
    intro l event hstep hbefore hafter h
    cases event with
    | read task fd count => exact h.read hbefore task fd count
    | other task op => exact h.other hbefore hstep hafter
  exact hlisted.done hended

/-- The root directory with the file `f`, open for reading as descriptor 3 of the first task. -/
def openRoot : State :=
  System.call (oneFile.enter 0) (.openFile (some [slash]) O_RDONLY none (some 5))

theorem openRoot_hasTree : openRoot.HasTree := by
  have h : (oneFile.enter 0).HasTree := oneFile_hasTree
  exact System.call_hasTree h _

theorem openRoot_file : openRoot.files.lookup 5 = some ⟨some 0, none, 0, O_RDONLY, 1⟩ := by
  decide +kernel

/-- Another task creates the file `g`. -/
def createG : ListingEvent :=
  .other 1 (.openFile (some [103]) (O_WRONLY ||| O_CREAT) (some 2) (some 6))

/-- The file `g` is there before the first read. -/
theorem listing_complete_created :
    let events : List ListingEvent := [createG, .read 0 3 152, .read 0 3 76]
    Runs.Meets (Listing.step 5) (Listing.Calm 5 0) ⟨openRoot, [], false⟩ events ∧
      (Runs.run (Listing.step 5) ⟨openRoot, [], false⟩ events).times [102] = 1 := by
  intro events
  have hcalm : Runs.Meets (Listing.step 5) (Listing.Calm 5 0) ⟨openRoot, [], false⟩ events := by
    refine ⟨fun f hf ↦ ⟨fun _ _ _ _ ↦ .inl ?_, fun p v hpath ↦ ?_⟩, trivial, trivial, trivial⟩
    · obtain rfl := some.inj (openRoot_file.symm.trans hf)
      rfl
    · cases hpath
  have hentry : Runs.Always (Listing.step 5) (fun l ↦ l.vfs.HasEntry 0 1 [102])
      ⟨openRoot, [], false⟩ events := by
    decide +kernel
  have hended : (Runs.run (Listing.step 5) ⟨openRoot, [], false⟩ events).ended = true := by
    decide +kernel
  exact ⟨hcalm, listing_complete openRoot_hasTree openRoot_file rfl rfl rfl hcalm hentry hended⟩

/-- **Entries returned twice or not at all.** The file `f` stays in the directory. When `g` is
created after `f` was returned, `f` is returned again; when `g` is returned and removed, `f` is
skipped. -/
theorem creation_repeats_entry :
    let created : List ListingEvent := [.read 0 3 76, createG, .read 0 3 76, .read 0 3 76]
    let removed : List ListingEvent :=
      [createG, .read 0 3 76, .other 1 (.unlink (some [103])), .read 0 3 76]
    (Runs.Always (Listing.step 5) (fun l ↦ l.vfs.HasEntry 0 1 [102]) ⟨openRoot, [], false⟩ created ∧
      (Runs.run (Listing.step 5) ⟨openRoot, [], false⟩ created).ended = true ∧
      (Runs.run (Listing.step 5) ⟨openRoot, [], false⟩ created).times [102] = 2) ∧
    Runs.Always (Listing.step 5) (fun l ↦ l.vfs.HasEntry 0 1 [102])
        ⟨openRoot, [], false⟩ removed ∧
      (Runs.run (Listing.step 5) ⟨openRoot, [], false⟩ removed).ended = true ∧
      (Runs.run (Listing.step 5) ⟨openRoot, [], false⟩ removed).times [102] = 0 := by
  decide +kernel

end ToastyUnix.Vfs
