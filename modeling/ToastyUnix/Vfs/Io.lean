import ToastyUnix.Vfs.Descriptors

/-!
# Reading and writing through descriptors

A call that reads returns its result together with the bytes stored in the caller's buffer. The
functions of device drivers are not modelled: the result of the driver is an argument. `krealloc`
keeps the bytes of the old buffer; what the rest of the new buffer holds is an argument as well,
and so is whether it succeeds. Sizes and positions are `size_t` and wrap at `2^64`.

Pipe transfers wait in loops, so a call on a pipe is modelled by one pass of the loop, with `none`
as the result of a pass that waits.
-/

namespace ToastyUnix.Vfs

open Errno

/-- `SIZE_MAX + 1`. -/
def sizeMod : ℕ := 2 ^ 64

/-- The bytes of a regular file. -/
def Node.contents (n : Node) : List UInt8 := (List.range n.size).map n.data

/-- `file_read(f, buf, count)`: the bytes copied and the new position. -/
def fileRead (f : File) (n : Node) (count : ℕ) : ℤ × List UInt8 × File :=
  if n.size ≤ f.pos then (0, [], f)
  else
    let avail := n.size - f.pos
    let count := if avail < count then avail else count
    ((count : ℤ), (List.range count).map fun i ↦ n.data (f.pos + i), { f with pos := f.pos + count })

theorem fileRead_length (f : File) (n : Node) (count : ℕ) :
    (fileRead f n count).1 = ((fileRead f n count).2.1.length : ℤ) := by
  unfold fileRead
  split <;> simp

/-- `while (newcap < need) newcap *= 2`; once wrapped to zero it never reaches `need`, and the loop
does not end. -/
def growCapacity (need : ℕ) : ℕ → ℕ → Option ℕ
  | 0, newcap => if need ≤ newcap then some newcap else none
  | fuel + 1, newcap =>
    if need ≤ newcap then some newcap else growCapacity need fuel (newcap * 2 % sizeMod)

/-- What the allocator contributes: whether `krealloc` succeeds and what the new buffer holds behind
the old bytes. -/
structure Realloc where
  succeeds : Bool
  rest : ℕ → UInt8

/-- How the growth code ends: with room in the buffer, without memory, or not at all. -/
inductive Reserved
  | room (n : Node)
  | noMemory
  | endless

/-- The growth code of `file_write` and `vfs_ftruncate`: make room for `need` bytes. -/
def reserve (n : Node) (need : ℕ) (alloc : Realloc) : Reserved :=
  if n.capacity < need then
    match growCapacity need 64 (if n.capacity ≠ 0 then n.capacity else 64) with
    | none => .endless
    | some newcap =>
      if alloc.succeeds then
        .room { n with
          data := fun i ↦ if i < n.capacity then n.data i else alloc.rest i
          capacity := newcap }
      else .noMemory
  else .room n

/-- `memcpy(data + pos, buf, count)`. -/
def storeAt (data : ℕ → UInt8) (pos : ℕ) (buf : List UInt8) (i : ℕ) : UInt8 :=
  if pos ≤ i then (buf[i - pos]?).getD (data i) else data i

/-- `file_write(f, buf, count)`; without a result it does not return. -/
def fileWrite (f : File) (n : Node) (buf : List UInt8) (alloc : Realloc) :
    Option ℤ × File × Node :=
  let need := (f.pos + buf.length) % sizeMod
  match reserve n need alloc with
  | .endless => (none, f, n)
  | .noMemory => (some (-ENOMEM), f, n)
  | .room n =>
    let pos := (f.pos + buf.length) % sizeMod
    (some (buf.length : ℤ), { f with pos := pos }, { n with
        data := storeAt n.data f.pos buf
        size := if n.size < pos then pos else n.size })

/-- The part of `vfs_ftruncate` behind its checks. -/
def nodeTruncate (n : Node) (length : ℕ) (alloc : Realloc) : Option ℤ × Node :=
  if length < n.size then (some 0, { n with size := length })
  else
    match reserve n length alloc with
    | .endless => (none, n)
    | .noMemory => (some (-ENOMEM), n)
    | .room n =>
      if n.size < length then
        (some 0, { n with
          data := fun i ↦ if n.size ≤ i ∧ i < length then 0 else n.data i
          size := length })
      else (some 0, n)

/-- The node a description refers to, when it is live and no pipe. -/
def State.nodeOf (s : State) (f : File) : Option (Addr × Node) :=
  match f.pipe with
  | some _ => none
  | none => f.node.bind fun a ↦ (s.nodes.lookup a).map fun n ↦ (a, n)

theorem nodeOf_eq_some {s : State} {f : File} {x : Addr} {n : Node} (h : s.nodeOf f = some (x, n)) :
    f.pipe = none ∧ f.node = some x ∧ s.nodes.lookup x = some n := by
  unfold State.nodeOf at h
  split at h
  · cases h
  case h_2 hpipe =>
    simp only [Option.bind_eq_some_iff, Option.map_eq_some_iff, Prod.mk.injEq] at h
    obtain ⟨a, ha, m, hm, rfl, rfl⟩ := h
    exact ⟨hpipe, ha, hm⟩

/-- Move the position of a device description by a positive driver result. -/
def advance (f : File) (result : ℤ) : File :=
  if 0 < result then { f with pos := (f.pos + result.toNat) % sizeMod } else f

/-- `vfs_read`. The result is `none` for a pass on a pipe that waits. -/
def vfsRead (s : State) (fd : ℤ) (hasBuf : Bool) (count : ℕ) (driver : ℤ) :
    Option ℤ × List UInt8 × State :=
  match s.fdGet fd with
  | none => (some (-EBADF), [], s)
  | some a =>
    match s.files.lookup a with
    | none => (some (-EBADF), [], s)
    | some f =>
      if !hasBuf then (some (-EINVAL), [], s)
      else if f.flags &&& 3 = O_WRONLY then (some (-EBADF), [], s)
      else
        match f.pipe with
        | some p =>
          match s.pipes.lookup p with
          | none => (none, [], s)
          | some pipe =>
            match pipeReadPass pipe count with
            | .eof => (some 0, [], s)
            | .wait => (none, [], s)
            | .copied bytes pipe =>
              (some bytes.length, bytes, { s with pipes := s.pipes.insert p pipe })
        | none =>
          match s.nodeOf f with
          | none => (none, [], s)
          | some (_, n) =>
            match n.type with
            | .file =>
              let (result, bytes, f) := fileRead f n count
              (some result, bytes, { s with files := s.files.insert a f })
            | .device =>
              if n.ops.any FileOps.read then
                (some driver, [], { s with files := s.files.insert a (advance f driver) })
              else (some (- Errno.EIO), [], s)
            | .dir => (some (-EISDIR), [], s)

/-- `vfs_pread`. -/
def vfsPread (s : State) (fd : ℤ) (hasBuf : Bool) (count offset : ℕ) : ℤ × List UInt8 :=
  match s.fdGet fd with
  | none => (-EBADF, [])
  | some a =>
    match s.files.lookup a with
    | none => (-EBADF, [])
    | some f =>
      if !hasBuf then (-EINVAL, [])
      else
        match s.nodeOf f with
        | none => (-EISDIR, [])
        | some (_, n) =>
          if n.type ≠ .file then (-EISDIR, [])
          else
            let (result, bytes, _) := fileRead { f with pos := offset } n count
            (result, bytes)

/-- `vfs_write`. The result is `none` for a pass on a pipe that waits or has copied a part. -/
def vfsWrite (s : State) (fd : ℤ) (buf : Option (List UInt8)) (driver : ℤ) (alloc : Realloc) :
    Option ℤ × State :=
  match s.fdGet fd with
  | none => (some (-EBADF), s)
  | some a =>
    match s.files.lookup a with
    | none => (some (-EBADF), s)
    | some f =>
      match buf with
      | none => (some (-EINVAL), s)
      | some buf =>
        if f.flags &&& 3 = O_RDONLY then (some (-EBADF), s)
        else
          match f.pipe with
          | some p =>
            match s.pipes.lookup p with
            | none => (none, s)
            | some pipe =>
              match pipeWritePass pipe buf 0 with
              | .returned result => (some result, s)
              | .wait => (none, s)
              | .copied _ pipe => (none, { s with pipes := s.pipes.insert p pipe })
          | none =>
            match s.nodeOf f with
            | none => (none, s)
            | some (x, n) =>
              match n.type with
              | .file =>
                let (result, f, n) := fileWrite f n buf alloc
                (result, { s with files := s.files.insert a f, nodes := s.nodes.insert x n })
              | .device =>
                if n.ops.any FileOps.write then
                  (some driver, { s with files := s.files.insert a (advance f driver) })
                else (some (- Errno.EIO), s)
              | .dir => (some (-EISDIR), s)

/-- `vfs_ftruncate`. -/
def vfsFtruncate (s : State) (fd length : ℤ) (alloc : Realloc) : Option ℤ × State :=
  match s.fdGet fd with
  | none => (some (-EBADF), s)
  | some a =>
    match (s.files.lookup a).bind s.nodeOf with
    | none => (some (-EBADF), s)
    | some (x, n) =>
      if n.type ≠ .file then (some (-EBADF), s)
      else if length < 0 then (some (-EINVAL), s)
      else
        let (result, n) := nodeTruncate n length.toNat alloc
        (result, { s with nodes := s.nodes.insert x n })

/-- `struct vfs_dirent`. -/
structure Dirent where
  name : List UInt8
  type : NodeType
  size : BitVec 32
  mode : BitVec 32

/-- `sizeof(struct vfs_dirent)`. -/
def direntSize : ℕ := vfsNameMax + 12

/-- The records `vfs_readdir` writes, from entry `n` on and at most `room` of them. -/
def direntsFrom (nodes : Heap Node) : ℕ → Option Addr → List Dirent
  | 0, _ => []
  | room + 1, n =>
    match n.bind nodes.lookup with
    | none => []
    | some e => ⟨e.name, e.type, e.size, e.mode⟩ :: direntsFrom nodes room e.sibling

/-- `vfs_readdir`. -/
def vfsReaddir (s : State) (fd : ℤ) (hasBuf : Bool) (count : ℕ) : ℤ × List Dirent × State :=
  match s.fdGet fd with
  | none => (-EBADF, [], s)
  | some a =>
    match s.files.lookup a with
    | none => (-EBADF, [], s)
    | some f =>
      match s.nodeOf f with
      | none => (-ENOTDIR, [], s)
      | some (_, n) =>
        if n.type ≠ .dir then (-ENOTDIR, [], s)
        else if !hasBuf then (-EINVAL, [], s)
        else
          -- Skip the entries already read, then fill the buffer with whole records.
          let start := (fun e ↦ e.bind (siblingOf s.nodes))^[f.pos] n.child
          let entries := direntsFrom s.nodes (count / direntSize) start
          ((entries.length * direntSize : ℕ), entries,
            { s with files := s.files.insert a { f with pos := f.pos + entries.length } })

/-- `vfs_chmod`. -/
def vfsChmod (s : State) (path : Option (List UInt8)) (mode : BitVec 32) : ℤ × State :=
  match path with
  | none => (-EINVAL, s)
  | some path =>
    match vfsLookup s path with
    | none => (-ENOENT, s)
    | some a =>
      match s.nodes.lookup a with
      | none => (-ENOENT, s)
      | some n => (0, { s with nodes := s.nodes.insert a { n with mode := mode } })

/-- What a description refers to and how often it is referred to. -/
def File.link (f : File) : Option Addr × Option Addr × BitVec 32 × ℤ :=
  (f.node, f.pipe, f.flags, f.refs)

/-- The two counts of a pipe. -/
def Pipe.counts (p : Pipe) : ℤ × ℤ := (p.refsR, p.refsW)

/-- From `s` to `s'` only nodes, positions and pipe contents have changed. -/
structure Quiet (s s' : State) : Prop where
  root : s'.root = s.root
  fds : s'.fds = s.fds
  files : ∀ a, (s'.files.lookup a).map File.link = (s.files.lookup a).map File.link
  pipes : ∀ p, (s'.pipes.lookup p).map Pipe.counts = (s.pipes.lookup p).map Pipe.counts

theorem lookup_insert_map {β γ : Type} {heap : Heap β} {a : Addr} {x y : β} {g : β → γ}
    (hx : heap.lookup a = some x) (hg : g y = g x) (b : Addr) :
    ((heap.insert a y).lookup b).map g = (heap.lookup b).map g := by
  by_cases hb : b = a
  · rw [hb, Finmap.lookup_insert, hx, Option.map_some, Option.map_some, hg]
  · rw [Finmap.lookup_insert_of_ne _ hb]

namespace Quiet

variable {s : State} {a p : Addr} {f g : File} {pipe pipe' : Pipe}

theorem nodes (s : State) (nodes : Heap Node) : Quiet s { s with nodes := nodes } :=
  ⟨rfl, rfl, fun _ ↦ rfl, fun _ ↦ rfl⟩

theorem refl (s : State) : Quiet s s := nodes s s.nodes

theorem insert_file (hf : s.files.lookup a = some f) (hg : g.link = f.link) (nodes : Heap Node) :
    Quiet s { s with files := s.files.insert a g, nodes := nodes } :=
  ⟨rfl, rfl, lookup_insert_map hf hg, fun _ ↦ rfl⟩

theorem insert_pipe (hp : s.pipes.lookup p = some pipe) (hc : pipe'.counts = pipe.counts) :
    Quiet s { s with pipes := s.pipes.insert p pipe' } :=
  ⟨rfl, rfl, fun _ ↦ rfl, lookup_insert_map hp hc⟩

end Quiet

variable {pipe pipe' : Pipe}

theorem pipeReadPass_counts {count : ℕ} {bytes : List UInt8}
    (h : pipeReadPass pipe count = .copied bytes pipe') : pipe'.counts = pipe.counts := by
  unfold pipeReadPass at h
  split at h
  · split at h <;> cases h
  · cases h
    rfl

theorem pipeWritePass_counts {buf chunk : List UInt8} {total : ℕ}
    (h : pipeWritePass pipe buf total = .copied chunk pipe') : pipe'.counts = pipe.counts := by
  unfold pipeWritePass at h
  split_ifs at h
  obtain ⟨-, rfl⟩ := h
  rfl

theorem fileRead_link (f : File) (n : Node) (count : ℕ) :
    (fileRead f n count).2.2.link = f.link := by
  unfold fileRead
  split_ifs <;> rfl

theorem fileWrite_link (f : File) (n : Node) (buf : List UInt8) (alloc : Realloc) :
    (fileWrite f n buf alloc).2.1.link = f.link := by
  unfold fileWrite
  dsimp only
  split <;> rfl

theorem advance_link (f : File) (result : ℤ) : (advance f result).link = f.link := by
  unfold advance
  split_ifs <;> rfl

section

variable (s : State)

theorem vfsRead_quiet (fd : ℤ) (hasBuf : Bool) (count : ℕ) (driver : ℤ) :
    Quiet s (vfsRead s fd hasBuf count driver).2.2 := by
  unfold vfsRead
  split
  · exact .refl s
  split
  · exact .refl s
  case h_2 a f hf =>
    split_ifs
    · exact .refl s
    · exact .refl s
    · split
      · split
        · exact .refl s
        case h_2 p _ pipe hpipe =>
          split
          · exact .refl s
          · exact .refl s
          case h_3 hpass => exact .insert_pipe hpipe (pipeReadPass_counts hpass)
      · split
        · exact .refl s
        · split
          · exact .insert_file hf (fileRead_link _ _ _) s.nodes
          · split_ifs
            · exact .insert_file hf (advance_link f driver) s.nodes
            · exact .refl s
          · exact .refl s

theorem vfsRead_nodes (fd : ℤ) (hasBuf : Bool) (count : ℕ) (driver : ℤ) :
    (vfsRead s fd hasBuf count driver).2.2.nodes = s.nodes := by
  unfold vfsRead
  repeat' first | rfl | split

theorem vfsWrite_quiet (fd : ℤ) (buf : Option (List UInt8)) (driver : ℤ) (alloc : Realloc) :
    Quiet s (vfsWrite s fd buf driver alloc).2 := by
  unfold vfsWrite
  split
  · exact .refl s
  split
  · exact .refl s
  case h_2 a f hf =>
    split
    · exact .refl s
    split_ifs
    · exact .refl s
    · split
      · split
        · exact .refl s
        case h_2 p _ pipe hpipe =>
          split
          · exact .refl s
          · exact .refl s
          case h_3 hpass => exact .insert_pipe hpipe (pipeWritePass_counts hpass)
      · split
        · exact .refl s
        · split
          · exact .insert_file hf (fileWrite_link _ _ _ _) _
          · split_ifs
            · exact .insert_file hf (advance_link f driver) s.nodes
            · exact .refl s
          · exact .refl s

theorem vfsFtruncate_quiet (fd length : ℤ) (alloc : Realloc) :
    Quiet s (vfsFtruncate s fd length alloc).2 := by
  unfold vfsFtruncate
  split
  · exact .refl s
  split
  · exact .refl s
  · split_ifs
    · exact .refl s
    · exact .refl s
    · exact .nodes s _

theorem vfsReaddir_quiet (fd : ℤ) (hasBuf : Bool) (count : ℕ) :
    Quiet s (vfsReaddir s fd hasBuf count).2.2 := by
  unfold vfsReaddir
  split
  · exact .refl s
  split
  · exact .refl s
  case h_2 a f hf =>
    split
    · exact .refl s
    · split_ifs
      · exact .refl s
      · exact .refl s
      · refine .insert_file hf ?_ s.nodes
        rfl

theorem vfsReaddir_nodes (fd : ℤ) (hasBuf : Bool) (count : ℕ) :
    (vfsReaddir s fd hasBuf count).2.2.nodes = s.nodes := by
  unfold vfsReaddir
  repeat' first | rfl | split

theorem vfsMkdir_quiet (path : Option (List UInt8)) (mode : BitVec 32) (choice : Option Addr) :
    Quiet s (vfsMkdir s path mode choice).2 := by
  obtain ⟨nodes, hnodes⟩ := vfsMkdir_nodes s path mode choice
  rw [hnodes]
  exact .nodes s nodes

theorem vfsUnlink_quiet (path : Option (List UInt8)) : Quiet s (vfsUnlink s path).2 := by
  obtain ⟨nodes, hnodes⟩ := vfsUnlink_nodes s path
  rw [hnodes]
  exact .nodes s nodes

theorem vfsChmod_quiet (path : Option (List UInt8)) (mode : BitVec 32) :
    Quiet s (vfsChmod s path mode).2 := by
  unfold vfsChmod
  split
  · exact .refl s
  split
  · exact .refl s
  split
  · exact .refl s
  · exact .nodes s _

end

end ToastyUnix.Vfs
