import ToastyUnix.Vfs.FileData

/-!
# Appending writers

`vfs_open` with `O_APPEND` puts the position of the new description at the end of the file, and
`file_write` then writes at that position wherever the end of the file has moved meanwhile. The
main result says what this means for a file that is only appended to, by any number of
descriptions that any tasks open, share and close: the buffers follow each other behind the old
contents exactly when every write finds its position at the end of the file.
-/

namespace ToastyUnix.Vfs

open List Option Finmap

/-! ## Contents of one file -/

/-- What a node stores. -/
def Node.payload (n : Node) : NodeType × (ℕ → UInt8) × ℕ × ℕ :=
  (n.type, n.data, n.size, n.capacity)

/-- Node `x` is a regular file with these bytes, and no appending description of it stands beyond
its end. -/
structure State.Holds (s : State) (x : Addr) (bytes : List UInt8) : Prop where
  node : ∃ n, s.nodes.lookup x = some n ∧ n.type = .file ∧ n.Fits ∧ n.contents = bytes
  within : ∀ a f, s.files.lookup a = some f → f.node = some x → f.flags &&& O_APPEND ≠ 0 →
    f.pos ≤ bytes.length

/-- The descriptions after a step are those before it, up to their reference counts. -/
def SamePositions (s s' : State) : Prop :=
  ∀ a f', s'.files.lookup a = some f' →
    ∃ f, s.files.lookup a = some f ∧ f'.node = f.node ∧ f'.flags = f.flags ∧ f'.pos = f.pos

namespace SamePositions

variable {s t : State}

theorem refl (s : State) : SamePositions s s := fun _ f hf ↦ ⟨f, hf, rfl, rfl, rfl⟩

theorem of_recounts (h : Recounts s t) : SamePositions s t := by
  intro a f' hf'
  obtain ⟨f, refs, hf, rfl⟩ := h.files a f' hf'
  exact ⟨f, hf, rfl, rfl, rfl⟩

end SamePositions

/-! ## Payloads under edits of the tree -/

variable {s : State} {x : Addr} {n : Node}

theorem vfsCreate_payload (hn : s.nodes.lookup x = some n) (path : List UInt8) (type : NodeType)
    (mode : BitVec 32) (ops : Option FileOps) (choice : Option Addr) :
    ((vfsCreate s path type mode ops choice).2.nodes.lookup x).map Node.payload =
      some n.payload := by
  obtain ⟨child, hchild⟩ := vfsCreate_lookup hn path type mode ops choice
  rw [hchild]
  rfl

/-- Storing another mode in a node keeps all payloads. -/
theorem insert_mode_payload {nodes : Heap Node} {a : Addr} {d : Node} (hd : nodes.lookup a = some d)
    (mode : BitVec 32) (hn : (nodes.lookup x).map Node.payload = some n.payload) :
    ((nodes.insert a { d with mode := mode }).lookup x).map Node.payload = some n.payload := by
  have hsame : ({ d with mode := mode } : Node).payload = d.payload := rfl
  exact (lookup_insert_map hd hsame x).trans hn

section

variable (hn : s.nodes.lookup x = some n) (path : Option (List UInt8)) (mode : BitVec 32)
include hn

theorem vfsMkdir_payload (choice : Option Addr) :
    ((vfsMkdir s path mode choice).2.nodes.lookup x).map Node.payload = some n.payload := by
  unfold vfsMkdir
  split
  · simp [hn]
  case h_2 path =>
    split
    · simp [hn]
    have hcreate := vfsCreate_payload hn path .dir 0o755 none choice
    rw [← vfsCreateDir] at hcreate
    generalize vfsCreateDir s path choice = created at hcreate ⊢
    obtain ⟨_ | dir, s'⟩ := created
    · exact hcreate
    · dsimp only at hcreate ⊢
      split
      · exact hcreate
      case h_2 d hd =>
        split_ifs
        · exact insert_mode_payload hd mode hcreate
        · exact hcreate

theorem vfsChmod_payload :
    ((vfsChmod s path mode).2.nodes.lookup x).map Node.payload = some n.payload := by
  unfold vfsChmod
  split
  · simp [hn]
  split
  · simp [hn]
  split
  · simp [hn]
  case h_2 a d hd => exact insert_mode_payload hd mode (by simp [hn])

end

/-- A removal keeps the payload of every node but the one it frees. -/
theorem vfsUnlink_payload (htree : s.HasTree) (hn : s.nodes.lookup x = some n)
    {path : Option (List UInt8)} (hother : ∀ p, path = some p → vfsLookup s p ≠ some x) :
    ((vfsUnlink s path).2.nodes.lookup x).map Node.payload = some n.payload := by
  have hremove : ∀ p, x ∈ (vfsRemove s p).2.nodes →
      ((vfsRemove s p).2.nodes.lookup x).map Node.payload = some n.payload := by
    intro p
    unfold vfsRemove
    split
    · simp [hn]
    split
    · simp [hn]
    split_ifs
    · simp [hn]
    split
    · simp [hn]
    case h_2 d _ _ link v _ =>
      split_ifs
      · simp [hn]
      · intro hx
        have hxv : x ≠ v := (mem_erase.mp hx).1
        dsimp only
        rw [lookup_erase_ne hxv, lookup_setLink, hn]
        rfl
  unfold vfsUnlink
  split
  · simp [hn]
  case h_2 p =>
    split
    · simp [hn]
    obtain ⟨kids, t⟩ := htree
    have hx : x ∈ (vfsRemove s p).2.nodes := by
      rcases vfsRemove_cases t p with hsame | ⟨v, nodes', hnodes, hv, -, -, hmem, -⟩
      · rw [hsame]
        exact mem_of_lookup_eq_some hn
      · rw [hnodes]
        refine (hmem x).mpr ⟨?_, mem_of_lookup_eq_some hn⟩
        rintro rfl
        exact hother p rfl hv
    have hpayload := hremove p hx
    dsimp only
    split_ifs <;> exact hpayload

/-! ## Calls that do not write to the file -/

namespace State.Holds

variable {s s' : State} {x a : Addr} {bytes : List UInt8} {f : File}

section

variable (h : s.Holds x bytes)
include h

/-- The node's payload stays, and every appending description of it stays or is placed inside. -/
theorem congr
    (hnode : ∀ n, s.nodes.lookup x = some n → (s'.nodes.lookup x).map Node.payload = some n.payload)
    (hfiles : ∀ a f', s'.files.lookup a = some f' →
      (f'.node = some x → f'.flags &&& O_APPEND ≠ 0 → f'.pos ≤ bytes.length) ∨
      ∃ f, s.files.lookup a = some f ∧ f'.node = f.node ∧ f'.flags = f.flags ∧ f'.pos = f.pos) :
    s'.Holds x bytes := by
  obtain ⟨n, hn, htype, hfits, hbytes⟩ := h.node
  obtain ⟨m, hm, hpayload⟩ := map_eq_some_iff.mp (hnode n hn)
  simp only [Node.payload, Prod.mk.injEq] at hpayload
  obtain ⟨htype', hdata, hsize, hcapacity⟩ := hpayload
  refine ⟨⟨m, hm, htype'.trans htype, ⟨?_, ?_⟩, ?_⟩, fun a f' hf' hx happend ↦ ?_⟩
  · rw [hsize, hcapacity]
    exact hfits.size_le
  · rw [hcapacity]
    exact hfits.capacity_lt
  · rw [← hbytes, Node.contents, Node.contents, hsize, hdata]
  · rcases hfiles a f' hf' with hpos | ⟨f, hf, hnode, hflags, hpos⟩
    · exact hpos hx happend
    · rw [hpos]
      exact h.within a f hf (hnode.symm.trans hx) (by rwa [← hflags])

theorem of_samePositions (hfiles : SamePositions s s') (hnodes : s'.nodes = s.nodes) :
    s'.Holds x bytes :=
  h.congr (fun n hn ↦ by rw [hnodes, hn, map_some]) fun a f' hf' ↦ .inr (hfiles a f' hf')

theorem of_recounts (hcounts : Recounts s s') : s'.Holds x bytes :=
  h.of_samePositions (.of_recounts hcounts) hcounts.sameNodes.2

theorem of_nodes {nodes : Heap Node}
    (hnode : ∀ n, s.nodes.lookup x = some n → (nodes.lookup x).map Node.payload = some n.payload) :
    State.Holds { s with nodes := nodes } x bytes :=
  h.congr hnode fun _ f' hf' ↦ .inr ⟨f', hf', rfl, rfl, rfl⟩

/-- One description is stored that does not concern the file or stands inside it. -/
theorem insert_file (hf : f.node = some x → f.flags &&& O_APPEND ≠ 0 → f.pos ≤ bytes.length) :
    State.Holds { s with files := s.files.insert a f } x bytes := by
  refine h.congr (fun n hn ↦ by rw [hn, map_some]) fun b g hg ↦ ?_
  by_cases hb : b = a
  · subst hb
    obtain rfl := some.inj ((lookup_insert _).symm.trans hg)
    exact .inl hf
  · exact .inr ⟨g, (lookup_insert_of_ne _ hb).symm.trans hg, rfl, rfl, rfl⟩

variable {y : Addr} {flags : BitVec 32}

theorem insert_other (hxy : x ≠ y) (hf : f.node ≠ some x) (n : Node) :
    State.Holds { s with files := s.files.insert a f, nodes := s.nodes.insert y n } x bytes := by
  refine State.Holds.insert_file (s := { s with nodes := s.nodes.insert y n })
    (h.of_nodes fun m hm ↦ ?_) fun hx ↦ absurd hx hf
  rw [lookup_insert_of_ne _ hxy, hm, map_some]

theorem node_eq {n : Node} (hnode : s.nodeOf f = some (y, n)) (hx : f.node = some x) :
    y = x ∧ n.type = .file ∧ n.contents = bytes := by
  obtain ⟨-, hy, hn⟩ := nodeOf_eq_some hnode
  obtain rfl : y = x := some.inj (hy.symm.trans hx)
  obtain ⟨m, hm, htype, -, hbytes⟩ := h.node
  obtain rfl : n = m := some.inj (hn.symm.trans hm)
  exact ⟨rfl, htype, hbytes⟩

theorem vfsRead (fd : ℤ) (hasBuf : Bool) (count : ℕ) (driver : ℤ) :
    (Vfs.vfsRead s fd hasBuf count driver).2.2.Holds x bytes := by
  unfold Vfs.vfsRead
  split
  · exact h
  split
  · exact h
  case h_2 a f hf =>
    split_ifs
    · exact h
    · exact h
    split
    · split
      · exact h
      · split
        · exact h
        · exact h
        · exact h.of_samePositions (.refl _) rfl
    split
    · exact h
    case h_2 y n hnode =>
      split
      · rw [fileRead_eq]
        refine h.insert_file fun hx happend ↦ ?_
        obtain ⟨-, -, hbytes⟩ := h.node_eq hnode hx
        have hpos := h.within _ f hf hx happend
        simp only [hbytes, length_take, length_drop]
        omega
      case h_2 htype =>
        split_ifs
        · refine h.insert_file fun hx ↦ absurd (h.node_eq hnode ?_).2.1 (by simp [htype])
          exact (congrArg Prod.fst (advance_link f driver)).symm.trans hx
        · exact h
      · exact h

theorem vfsReaddir (fd : ℤ) (hasBuf : Bool) (count : ℕ) :
    (Vfs.vfsReaddir s fd hasBuf count).2.2.Holds x bytes := by
  unfold Vfs.vfsReaddir
  split
  · exact h
  split
  · exact h
  case h_2 a f hf =>
    split
    · exact h
    case h_2 y n hnode =>
      split_ifs with hdir
      · exact h
      · exact h
      · refine h.insert_file fun hx ↦ absurd (h.node_eq hnode hx).2.1 ?_
        simp [not_not.mp hdir]

theorem vfsPipe (pipeChoice readChoice writeChoice : Option Addr) :
    (Vfs.vfsPipe s pipeChoice readChoice writeChoice).2.2.Holds x bytes := by
  rcases vfsPipe_cases s pipeChoice readChoice writeChoice with
    hsame | ⟨p, r, w, task, i, j, -, -, -, -, -, -, -, -, hpipe⟩
  · rwa [hsame]
  · rw [hpipe]
    have hends := (h.insert_file (a := r) (f := pipeFile p O_RDONLY) nofun).insert_file
      (a := w) (f := pipeFile p O_WRONLY) nofun
    exact hends.of_samePositions (.refl _) rfl

/-- Creating a node for `vfs_open` concerns no other file. -/
theorem openNode {p : List UInt8} {choice node : Option Addr}
    (hopen : Vfs.openNode s p flags choice = (node, s')) :
    s'.Holds x bytes ∧ (node = some x → vfsLookup s p = some x) := by
  obtain ⟨n, hn, -⟩ := h.node
  unfold Vfs.openNode at hopen
  split at hopen
  case h_1 found hfound =>
    obtain ⟨rfl, rfl⟩ := Prod.mk.inj hopen
    exact ⟨h, fun heq ↦ hfound.trans heq⟩
  case h_2 =>
    split_ifs at hopen
    · obtain ⟨nodes, hnodes⟩ := vfsCreate_nodes s p .file 0o644 none choice
      have hpayload := vfsCreate_payload hn p .file 0o644 none choice
      have hfresh : (vfsCreateFile s p choice).1 ≠ some x := by
        unfold vfsCreateFile vfsCreate
        split
        · simp
        split
        · simp
        split_ifs
        · simp
        split
        · simp
        case h_2 a ha =>
          rintro heq
          obtain rfl := some.inj heq
          simp [lookup_of_kmalloc ha] at hn
      rw [vfsCreateFile] at hopen hfresh
      rw [hopen] at hnodes hpayload hfresh
      dsimp only at hnodes hpayload
      subst hnodes
      refine ⟨h.of_nodes fun n' hn' ↦ ?_, fun heq ↦ absurd heq hfresh⟩
      obtain rfl : n = n' := some.inj (hn.symm.trans hn')
      exact hpayload
    · obtain ⟨rfl, rfl⟩ := Prod.mk.inj hopen
      exact ⟨h, by simp⟩

/-- An open that does not truncate the file keeps its contents; a new appending description stands
at its end. -/
theorem vfsOpen {path : Option (List UInt8)} (nodeChoice fileChoice : Option Addr)
    (hkeep : ∀ p, path = some p → vfsLookup s p = some x → flags &&& O_TRUNC = 0) :
    (Vfs.vfsOpen s path flags nodeChoice fileChoice).2.Holds x bytes := by
  unfold Vfs.vfsOpen
  split
  · exact h
  case h_2 p =>
    obtain ⟨node, s', hnode⟩ : ∃ node s', Vfs.openNode s p flags nodeChoice = (node, s') :=
      ⟨_, _, rfl⟩
    obtain ⟨h', hfound⟩ := h.openNode hnode
    rw [hnode]
    cases node with
    | none => exact h'
    | some y =>
      dsimp only
      split
      · exact h'
      case h_2 n hn =>
        split_ifs
        · exact h'
        · have htrunc : y = x → truncateOnOpen n flags = n := by
            rintro rfl
            rw [truncateOnOpen, if_neg]
            simp [hkeep p rfl (hfound rfl)]
          have hnodes : State.Holds
              { s' with nodes := s'.nodes.insert y (truncateOnOpen n flags) } x bytes := by
            refine h'.of_nodes fun m hm ↦ ?_
            by_cases hxy : x = y
            · subst hxy
              obtain rfl : n = m := some.inj (hn.symm.trans hm)
              rw [lookup_insert, htrunc rfl, map_some]
            · rw [lookup_insert_of_ne _ hxy, hm, map_some]
          split
          · exact hnodes
          case h_2 f hf =>
            have hfile : State.Holds
                { s' with
                  nodes := s'.nodes.insert y (truncateOnOpen n flags)
                  files := s'.files.insert f (openFile y (truncateOnOpen n flags) flags) }
                x bytes := by
              refine hnodes.insert_file fun hx happend ↦ ?_
              obtain rfl : y = x := some.inj hx
              obtain ⟨m, hm, -, -, hbytes⟩ := h'.node
              obtain rfl : n = m := some.inj (hn.symm.trans hm)
              simp only [openFile] at happend ⊢
              rw [if_pos happend, htrunc rfl, ← hbytes, n.length_contents]
            rcases fdAlloc_cases _ f with ⟨-, hfull⟩ | ⟨task, i, -, -, halloc⟩
            · rw [hfull]
              exact hfile
            · rw [halloc]
              exact hfile.of_samePositions (.refl _) rfl

/-- Cutting or growing another file keeps this one. -/
theorem vfsFtruncate {fd : ℤ} (length : ℤ) (alloc : Realloc)
    (hother : ∀ a f, s.fdGet fd = some a → s.files.lookup a = some f → f.node ≠ some x) :
    (Vfs.vfsFtruncate s fd length alloc).2.Holds x bytes := by
  unfold Vfs.vfsFtruncate
  split
  · exact h
  case h_2 a ha =>
    split
    · exact h
    case h_2 y n hfile =>
      obtain ⟨f, hf, hnode⟩ := bind_eq_some_iff.mp hfile
      obtain ⟨-, hy, -⟩ := nodeOf_eq_some hnode
      have hxy : x ≠ y := by
        rintro rfl
        exact hother a f ha hf hy
      split_ifs
      · exact h
      · exact h
      · refine h.of_nodes fun m hm ↦ ?_
        rw [lookup_insert_of_ne _ hxy, hm, map_some]

end

end State.Holds

theorem splice_length (bytes buf : List UInt8) : splice bytes bytes.length buf = bytes ++ buf := by
  simp [splice]

theorem length_splice {bytes : List UInt8} {pos : ℕ} (hpos : pos ≤ bytes.length)
    (buf : List UInt8) : (splice bytes pos buf).length = max bytes.length (pos + buf.length) := by
  simp only [splice, Nat.sub_eq_zero_of_le hpos, replicate_zero, append_nil,
    length_append, length_take, length_drop]
  omega

namespace System

/-- The description through which a task writes to the regular file `x` by this descriptor, if it
can. -/
def writer (s : System) (x : Addr) (task : TaskId) (fd : ℤ) : Option File :=
  if s.alive task then do
    let a ← (s.vfs.enter task).fdGet fd
    let f ← s.vfs.files.lookup a
    if f.pipe = none ∧ f.node = some x ∧ f.flags &&& 3 ≠ O_RDONLY then some f else none
  else none

/-- The bytes that a call hands over to be written to the file. -/
def appended (s : System) (x : Addr) (task : TaskId) : Op → List UInt8
  | .write fd (some buf) _ _ => if (s.writer x task fd).isSome then buf else []
  | _ => []

/-- The buffers written to the file in the order of the calls. -/
def allAppended (x : Addr) : System → List (TaskId × Op) → List UInt8
  | _, [] => []
  | s, (task, op) :: steps => s.appended x task op ++ allAppended x (s.step task op) steps

/-- The call changes the file at most by a write through an `O_APPEND` description that gets its
memory. -/
def OnlyAppends (x : Addr) (s : System) (task : TaskId) : Op → Prop
  | .openFile (some p) flags _ _ => vfsLookup s.vfs p = some x → flags &&& O_TRUNC = 0
  | .write fd (some buf) _ alloc => ∀ f, s.writer x task fd = some f →
      f.flags &&& O_APPEND ≠ 0 ∧ alloc.succeeds = true ∧ f.pos + buf.length ≤ 2 ^ 63
  | .ftruncate fd _ _ => ∀ a f, (s.vfs.enter task).fdGet fd = some a →
      s.vfs.files.lookup a = some f → f.node ≠ some x
  | .unlink (some p) => vfsLookup s.vfs p ≠ some x
  | _ => True

/-- A write of some bytes to the file finds its position at the end of the file. -/
def AtEnd (x : Addr) (s : System) (task : TaskId) : Op → Prop
  | .write fd (some buf) _ _ => ∀ f n, s.writer x task fd = some f →
      s.vfs.nodes.lookup x = some n → buf = [] ∨ f.pos = n.size
  | _ => True

variable {s : System} {x : Addr} {bytes buf : List UInt8} {task : TaskId} {fd : ℤ}

variable {f : File} {alloc : Realloc} {s' : System} {op : Op}

theorem writer_eq_some : s.writer x task fd = some f ↔
    s.alive task = true ∧ ∃ a, (s.vfs.enter task).fdGet fd = some a ∧
      s.vfs.files.lookup a = some f ∧ f.pipe = none ∧ f.node = some x ∧
      f.flags &&& 3 ≠ O_RDONLY := by
  unfold writer
  by_cases halive : s.alive task = true
  · simp only [halive, if_true, true_and, bind_eq_bind, bind_eq_some_iff,
      ite_none_right_eq_some, some.injEq]
    constructor
    · rintro ⟨a, ha, g, hg, hcond, rfl⟩
      exact ⟨a, ha, hg, hcond⟩
    · rintro ⟨a, ha, hf, hcond⟩
      exact ⟨a, ha, f, hf, hcond, rfl⟩
  · simp [halive]

/-- A write that does not concern the file. -/
theorem vfsWrite_other (h : s.vfs.Holds x bytes) (halive : s.alive task = true)
    (hwriter : s.writer x task fd = none) (buf : Option (List UInt8)) (driver : ℤ)
    (alloc : Realloc) : (vfsWrite (s.vfs.enter task) fd buf driver alloc).2.Holds x bytes := by
  have h' : (s.vfs.enter task).Holds x bytes := h.of_samePositions (.refl _) rfl
  cases buf with
  | none =>
    unfold vfsWrite
    split
    · exact h'
    · split <;> exact h'
  | some buf =>
    unfold vfsWrite
    split
    · exact h'
    case h_2 a ha =>
      split
      · exact h'
      case h_2 f hf =>
        dsimp only
        split_ifs with hflags
        · exact h'
        split
        · split
          · exact h'
          · split
            · exact h'
            · exact h'
            · exact h'.of_samePositions (.refl _) rfl
        case h_2 hpipe =>
          have hx : f.node ≠ some x := by
            intro hx
            have hsome := writer_eq_some.mpr ⟨halive, a, ha, hf, hpipe, hx, hflags⟩
            exact absurd (hwriter.symm.trans hsome) (by simp)
          split
          · exact h'
          case h_2 y n hnode =>
            obtain ⟨-, hy, -⟩ := nodeOf_eq_some hnode
            have hxy : x ≠ y := by
              rintro rfl
              exact hx hy
            split
            · have hlink := congrArg Prod.fst (fileWrite_link f n buf alloc)
              exact h'.insert_other hxy (fun hx' ↦ hx (hlink.symm.trans hx'))
                (fileWrite f n buf alloc).2.2
            · split_ifs
              · have hlink := congrArg Prod.fst (advance_link f driver)
                exact h'.insert_file fun hx' ↦ absurd (hlink.symm.trans hx') hx
              · exact h'
            · exact h'

/-- A write through an appending description replaces the bytes behind its position. -/
theorem vfsWrite_writer (h : s.vfs.Holds x bytes) (hf : s.writer x task fd = some f) (driver : ℤ)
    (happend : f.flags &&& O_APPEND ≠ 0) (halloc : alloc.succeeds = true)
    (hbound : f.pos + buf.length ≤ 2 ^ 63) :
    f.pos ≤ bytes.length ∧
      (vfsWrite (s.vfs.enter task) fd (some buf) driver alloc).2.Holds x
        (splice bytes f.pos buf) := by
  obtain ⟨-, a, ha, hlookup, hpipe, hx, hflags⟩ := writer_eq_some.mp hf
  obtain ⟨n, hn, htype, hfits, hbytes⟩ := h.node
  have hpos : f.pos ≤ bytes.length := h.within a f hlookup hx happend
  have hpos' : f.pos ≤ n.size := by rwa [← n.length_contents, hbytes]
  obtain ⟨m, hwrite, hmtype, hmfits, hcontents⟩ := fileWrite_spec hfits halloc hpos' hbound
  have hlookup' : (s.vfs.enter task).files.lookup a = some f := hlookup
  have hnode : (s.vfs.enter task).nodeOf f = some (x, n) := by
    have hn' : (s.vfs.enter task).nodes.lookup x = some n := hn
    simp [State.nodeOf, hpipe, hx, hn']
  refine ⟨hpos, ?_⟩
  simp only [vfsWrite, ha, hlookup', hpipe, hnode, htype, hwrite, if_neg hflags]
  refine ⟨⟨m, lookup_insert _, hmtype.trans htype, hmfits, by rw [hcontents, hbytes]⟩,
    fun b g hg hgx hgappend ↦ ?_⟩
  rw [length_splice hpos]
  by_cases hb : b = a
  · subst hb
    obtain rfl := some.inj ((lookup_insert _).symm.trans hg)
    exact le_max_right _ _
  · have hg' := (lookup_insert_of_ne _ hb).symm.trans hg
    exact (h.within b g hg' hgx hgappend).trans (le_max_left _ _)

/-- What a step or run does to the file: it adds at most the bytes handed over, and exactly these at
the end if and only if the condition holds. -/
structure Grown (x : Addr) (s' : System) (bytes new : List UInt8) (cond : Prop)
    (bytes' : List UInt8) : Prop where
  holds : s'.vfs.Holds x bytes'
  length_le : bytes'.length ≤ bytes.length + new.length
  eq_append : cond → bytes' = bytes ++ new
  cond_of_length : bytes'.length = bytes.length + new.length → cond

theorem Grown.same (h : s'.vfs.Holds x bytes) : Grown x s' bytes [] True bytes :=
  ⟨h, le_rfl, fun _ ↦ (append_nil _).symm, fun _ ↦ trivial⟩

theorem Grown.trans {s₁ s₂ : System} {bytes₁ bytes₂ new₁ new₂ : List UInt8} {cond₁ cond₂ : Prop}
    (h₁ : Grown x s₁ bytes new₁ cond₁ bytes₁) (h₂ : Grown x s₂ bytes₁ new₂ cond₂ bytes₂) :
    Grown x s₂ bytes (new₁ ++ new₂) (cond₁ ∧ cond₂) bytes₂ := by
  have hle₁ := h₁.length_le
  have hle₂ := h₂.length_le
  refine ⟨h₂.holds, ?_, fun hcond ↦ ?_, fun hlength ↦ ?_⟩
  · rw [length_append]
    omega
  · rw [h₂.eq_append hcond.2, h₁.eq_append hcond.1, append_assoc]
  · -- Neither part can make up for bytes that the other one has overwritten.
    rw [length_append] at hlength
    exact ⟨h₁.cond_of_length (by omega), h₂.cond_of_length (by omega)⟩

/-- A write to the file overwrites bytes unless it is made at the end. -/
theorem Grown.splice {pos : ℕ} (hpos : pos ≤ bytes.length)
    (h : s'.vfs.Holds x (splice bytes pos buf)) :
    Grown x s' bytes buf (buf = [] ∨ pos = bytes.length) (Vfs.splice bytes pos buf) := by
  have hlength := length_splice hpos buf
  refine ⟨h, by omega, ?_, fun heq ↦ ?_⟩
  · rintro (rfl | rfl)
    · simp [Vfs.splice, Nat.sub_eq_zero_of_le hpos]
    · exact splice_length bytes buf
  · cases buf with
    | nil => exact .inl rfl
    | cons b buf =>
      rw [length_cons] at hlength heq
      exact .inr (by omega)

/-- A call that is no write to the file hands over nothing. -/
theorem appended_of_not_writer
    (h : ∀ fd buf driver alloc, op = .write fd buf driver alloc → s.writer x task fd = none) :
    s.appended x task op = [] ∧ AtEnd x s task op := by
  unfold appended AtEnd
  split
  case h_1 fd buf driver alloc =>
    rw [h fd _ driver alloc rfl]
    exact ⟨rfl, fun _ _ hf ↦ absurd hf (by simp)⟩
  case h_2 => exact ⟨rfl, trivial⟩

theorem write_grown (h : s.vfs.Holds x bytes) (halive : s.alive task = true) {driver : ℤ}
    {buf : Option (List UInt8)} (hop : OnlyAppends x s task (.write fd buf driver alloc)) :
    ∃ bytes', Grown x ⟨vfsWrite (s.vfs.enter task) fd buf driver alloc |>.2, s.alive⟩ bytes
      (s.appended x task (.write fd buf driver alloc))
      (AtEnd x s task (.write fd buf driver alloc)) bytes' := by
  cases hwriter : s.writer x task fd with
  | none =>
    have hsame := vfsWrite_other h halive hwriter buf driver alloc
    have hnone : ∀ fd' buf' driver' alloc',
        Op.write fd buf driver alloc = .write fd' buf' driver' alloc' →
          s.writer x task fd' = none := by
      rintro _ _ _ _ ⟨⟩
      exact hwriter
    obtain ⟨hnew, hend⟩ := appended_of_not_writer hnone
    rw [hnew, eq_true hend]
    exact ⟨bytes, .same hsame⟩
  | some f =>
    cases buf with
    | none =>
      refine ⟨bytes, .same ?_⟩
      have hnone : (vfsWrite (s.vfs.enter task) fd none driver alloc).2 = s.vfs.enter task := by
        unfold vfsWrite
        split
        · rfl
        · split <;> rfl
      rw [hnone]
      exact h.of_samePositions (.refl _) rfl
    | some buf =>
      obtain ⟨happend, halloc, hbound⟩ := hop f hwriter
      obtain ⟨hpos, hwrite⟩ := vfsWrite_writer h hwriter driver happend halloc hbound
      have hnew : s.appended x task (.write fd (some buf) driver alloc) = buf := by
        simp [appended, hwriter]
      have hend : AtEnd x s task (.write fd (some buf) driver alloc) ↔
          buf = [] ∨ f.pos = bytes.length := by
        obtain ⟨n, hn, -, -, hbytes⟩ := h.node
        simp [AtEnd, hwriter, hn, ← hbytes, n.length_contents]
      rw [hnew, propext hend]
      exact ⟨_, .splice hpos hwrite⟩

/-- Every other call keeps the contents of the file. -/
theorem call_holds {s : State} (htree : s.HasTree) (h : s.Holds x bytes)
    (hopen : ∀ p flags a b, op = .openFile (some p) flags a b → vfsLookup s p = some x →
      flags &&& O_TRUNC = 0)
    (hcut : ∀ fd length alloc, op = .ftruncate fd length alloc → ∀ a f, s.fdGet fd = some a →
      s.files.lookup a = some f → f.node ≠ some x)
    (hunlink : ∀ p, op = .unlink (some p) → vfsLookup s p ≠ some x)
    (hwrite : ∀ fd buf driver alloc, op ≠ .write fd buf driver alloc) :
    (call s op).Holds x bytes := by
  have hpayload : ∀ {s' : State}, (∃ nodes, s' = { s with nodes := nodes }) →
      (∀ n, s.nodes.lookup x = some n → (s'.nodes.lookup x).map Node.payload = some n.payload) →
      s'.Holds x bytes := by
    rintro s' ⟨nodes, rfl⟩ hnode
    exact h.of_nodes hnode
  cases op with
  | openFile path flags nodeChoice fileChoice =>
    exact h.vfsOpen nodeChoice fileChoice fun p hp ↦ hopen p flags _ _ (by rw [hp])
  | close fd => exact h.of_recounts (vfsClose_shifts s fd).recounts
  | dup oldfd => exact h.of_recounts (vfsDup_shifts s oldfd).recounts
  | dup2 oldfd newfd => exact h.of_recounts (vfsDup2_shifts s oldfd newfd).recounts
  | pipe pipeChoice readChoice writeChoice => exact h.vfsPipe pipeChoice readChoice writeChoice
  | read fd hasBuf count driver => exact h.vfsRead fd hasBuf count driver
  | write fd buf driver alloc => exact absurd rfl (hwrite fd buf driver alloc)
  | ftruncate fd length alloc => exact h.vfsFtruncate length alloc (hcut fd length alloc rfl)
  | readdir fd hasBuf count => exact h.vfsReaddir fd hasBuf count
  | mkdir path mode choice =>
    exact hpayload (vfsMkdir_nodes s path mode choice) fun n hn ↦
      vfsMkdir_payload hn path mode choice
  | unlink path =>
    exact hpayload (vfsUnlink_nodes s path) fun n hn ↦
      vfsUnlink_payload htree hn fun p hp ↦ hunlink p (by rw [hp])
  | chmod path mode =>
    have hchmod : ∃ nodes, (vfsChmod s path mode).2 = { s with nodes := nodes } := by
      unfold vfsChmod
      split
      · exact ⟨s.nodes, rfl⟩
      split
      · exact ⟨s.nodes, rfl⟩
      split <;> exact ⟨_, rfl⟩
    exact hpayload hchmod fun n hn ↦ vfsChmod_payload hn path mode
  | pread | ioctl | spawn | exit => exact h

theorem step_grown (htree : s.vfs.HasTree) (h : s.vfs.Holds x bytes)
    (hop : OnlyAppends x s task op) :
    ∃ bytes', Grown x (s.step task op) bytes (s.appended x task op) (AtEnd x s task op)
      bytes' := by
  have henter : (s.vfs.enter task).Holds x bytes := h.of_samePositions (.refl _) rfl
  have hquiet : (∀ fd buf driver alloc, op = .write fd buf driver alloc →
        s.writer x task fd = none) → (s.step task op).vfs.Holds x bytes →
      ∃ bytes', Grown x (s.step task op) bytes (s.appended x task op) (AtEnd x s task op)
        bytes' := by
    intro hwriter hsame
    obtain ⟨hnew, hend⟩ := appended_of_not_writer hwriter
    rw [hnew, eq_true hend]
    exact ⟨bytes, .same hsame⟩
  by_cases hwrite : ∃ fd buf driver alloc, op = .write fd buf driver alloc
  · obtain ⟨fd, buf, driver, alloc, rfl⟩ := hwrite
    by_cases halive : s.alive task = true
    · have hstep : s.step task (.write fd buf driver alloc) =
          ⟨(vfsWrite (s.vfs.enter task) fd buf driver alloc).2, s.alive⟩ := if_pos halive
      rw [hstep]
      exact write_grown h halive hop
    · have hstep : s.step task (.write fd buf driver alloc) = s := if_neg halive
      refine hquiet (fun fd _ _ _ _ ↦ by simp [writer, halive]) ?_
      rwa [hstep]
  push Not at hwrite
  refine hquiet (fun fd buf driver alloc heq ↦ absurd heq (hwrite fd buf driver alloc)) ?_
  rcases s.step_cases task op with
    hstep | ⟨child, -, -, hstep⟩ | ⟨-, hstep⟩ | ⟨-, hstep⟩ <;> rw [hstep]
  · exact h
  · exact henter.of_recounts (vfsFdInherit_recounts _ child task)
  · exact henter.of_recounts (vfsCloseAll_shifts _).recounts
  · refine call_holds (s := s.vfs.enter task) htree henter ?_ ?_ ?_ hwrite
    · rintro p flags a b rfl
      exact hop
    · rintro fd length alloc rfl
      exact hop
    · rintro p rfl
      exact hop

theorem run_grown (htree : s.vfs.HasTree) (h : s.vfs.Holds x bytes)
    {steps : List (TaskId × Op)} (hsteps : Meets (OnlyAppends x) s steps) :
    ∃ bytes', Grown x (s.run steps) bytes (allAppended x s steps) (Meets (AtEnd x) s steps)
      bytes' := by
  induction steps generalizing s bytes with
  | nil => exact ⟨bytes, .same h⟩
  | cons action steps ih =>
    obtain ⟨hop, hrest⟩ := hsteps
    obtain ⟨bytes₁, hfirst⟩ := step_grown htree h hop
    obtain ⟨bytes₂, hlater⟩ := ih (step_hasTree htree action.1 action.2) hfirst.holds hrest
    exact ⟨bytes₂, hfirst.trans hlater⟩

/-- A file of which no appending description is open yet ends up with its old contents and the
written buffers in order exactly when every write finds its position at the end of the file. -/
theorem appends_in_order_iff_at_end {n : Node} (htree : s.vfs.HasTree)
    (hn : s.vfs.nodes.lookup x = some n) (htype : n.type = .file) (hfits : n.Fits)
    (hfirst : ∀ a f, s.vfs.files.lookup a = some f → f.node = some x → f.flags &&& O_APPEND = 0)
    {steps : List (TaskId × Op)} (hsteps : Meets (OnlyAppends x) s steps) :
    ((s.run steps).vfs.nodes.lookup x).map Node.contents =
        some (n.contents ++ allAppended x s steps) ↔
      Meets (AtEnd x) s steps := by
  have h : s.vfs.Holds x n.contents :=
    ⟨⟨n, hn, htype, hfits, rfl⟩, fun a f hf hx happend ↦ absurd (hfirst a f hf hx) happend⟩
  obtain ⟨bytes, hrun⟩ := run_grown htree h hsteps
  obtain ⟨m, hm, -, -, hbytes⟩ := hrun.holds.node
  rw [hm, map_some, hbytes, some.injEq]
  constructor
  · rintro rfl
    exact hrun.cond_of_length length_append
  · exact hrun.eq_append

/-- The redirection `>>` as the shell opens it. -/
def appendFlags : BitVec 32 := O_WRONLY ||| O_CREAT ||| O_APPEND

/-- Two tasks open the file `f` for appending, then each of them writes one byte. -/
def twoWriters : List (TaskId × Op) :=
  [(0, .openFile (some [102]) appendFlags none (some 5)),
    (1, .openFile (some [102]) appendFlags none (some 6)),
    (0, .write 3 (some [97]) 0 zeroed), (1, .write 3 (some [98]) 0 zeroed)]

/-- The second task opens the file when the first one has written. -/
def oneByOne : List (TaskId × Op) :=
  [(0, .openFile (some [102]) appendFlags none (some 5)), (0, .write 3 (some [97]) 0 zeroed),
    (1, .openFile (some [102]) appendFlags none (some 6)), (1, .write 3 (some [98]) 0 zeroed)]

theorem appends_in_order_iff_at_end_oneByOne :
    let s : System := ⟨oneFile, fun _ ↦ true⟩
    Meets (OnlyAppends 1) s oneByOne ∧
      (((s.run oneByOne).vfs.nodes.lookup 1).map Node.contents =
          some ([] ++ allAppended 1 s oneByOne) ↔ Meets (AtEnd 1) s oneByOne) := by
  intro s
  have hsteps : Meets (OnlyAppends 1) s oneByOne := by
    have hfirst : (s.run (oneByOne.take 1)).writer 1 0 3 =
        some ⟨some 1, none, 0, appendFlags, 1⟩ := by decide
    have hsecond : (s.run (oneByOne.take 3)).writer 1 1 3 =
        some ⟨some 1, none, 1, appendFlags, 1⟩ := by decide
    refine ⟨fun _ ↦ by decide, fun f hf ↦ ?_, fun _ ↦ by decide, fun f hf ↦ ?_, trivial⟩
    · obtain rfl := some.inj (hfirst.symm.trans hf)
      decide
    · obtain rfl := some.inj (hsecond.symm.trans hf)
      decide
  exact ⟨hsteps, appends_in_order_iff_at_end oneFile_hasTree
    (n := { freshNode [102] .file 0o644 none with parent := some 0 }) rfl rfl
    ⟨by decide, by decide⟩ (fun _ _ hf ↦ by simp [s, oneFile] at hf) hsteps⟩

/-- The byte of the first writer is lost. -/
theorem second_writer_overwrites_first :
    let s : System := ⟨oneFile, fun _ ↦ true⟩
    Meets (OnlyAppends 1) s twoWriters ∧ allAppended 1 s twoWriters = [97, 98] ∧
      ((s.run twoWriters).vfs.nodes.lookup 1).map Node.contents = some [98] := by
  intro s
  refine ⟨?_, by decide, by decide⟩
  have hfirst : (s.run (twoWriters.take 2)).writer 1 0 3 =
      some ⟨some 1, none, 0, appendFlags, 1⟩ := by decide
  have hsecond : (s.run (twoWriters.take 3)).writer 1 1 3 =
      some ⟨some 1, none, 0, appendFlags, 1⟩ := by decide
  refine ⟨fun _ ↦ by decide, fun _ ↦ by decide, fun f hf ↦ ?_, fun f hf ↦ ?_, trivial⟩
  · obtain rfl := some.inj (hfirst.symm.trans hf)
    decide
  · obtain rfl := some.inj (hsecond.symm.trans hf)
    decide

end System

end ToastyUnix.Vfs
