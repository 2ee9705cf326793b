import ToastyUnix.Lib.Reading
import ToastyUnix.Vfs.Mounting

/-!
# What mounting reads

`vfs_mount_rootfs` of `kernel/vfs/rootfs.c` once more, with the addresses that it reads. The image
lies in memory from address 0 on, and anything may follow it. Headers and names are only read inside
of blocks that the image has, but the data of a file is copied before the code finds out that the
archive is truncated: the copy of `overrun_archive` leaves the image. An image that ends in the
middle of a header counts as complete. The walk stays in the image and rejects truncated archives
exactly as long as neither happens (`mount_reads_inside_iff`).
-/

namespace ToastyUnix.Vfs

open Reading List

/-! ## The decoder with its reads -/

/-- `tar_octal`, at the address of the next character. -/
def tarOctalAt : ℕ → ℕ → ℕ → Reading ℕ
  | _, 0, v => pure v
  | field, len + 1, v => do
    let c ← fetch field
    if 48 ≤ c ∧ c ≤ 55 then tarOctalAt (field + 1) len ((v <<< 3) ||| (c.toNat - 48))
    else if c = 32 ∨ c = 0 then tarOctalAt (field + 1) len v
    else pure v

/-- `while (name[len] != '\0' && len + 1 < buf_size) len++`, with the steps that the second test
allows. -/
def nameLength (name : ℕ) : ℕ → ℕ → Reading ℕ
  | 0, len => do
    let _ ← fetch (name + len)
    pure len
  | room + 1, len => do
    let c ← fetch (name + len)
    if c = 0 then pure len else nameLength name room (len + 1)

/-- `while (len > 0 && name[len - 1] == '/') len--`. -/
def trimSlashes (name : ℕ) : ℕ → Reading ℕ
  | 0 => pure 0
  | len + 1 => do
    let c ← fetch (name + len)
    if c = slash then trimSlashes name len else pure (len + 1)

/-- `tar_normalise`. -/
def tarNormaliseAt (name bufSize : ℕ) : Reading (Option (List UInt8)) := do
  let first ← fetch name
  let name ←
    if first = 46 then do
      let second ← fetch (name + 1)
      pure (if second = 47 then name + 2 else name)
    else pure name
  let len ← nameLength name (bufSize - 1) 0
  let len ← trimSlashes name len
  if len = 0 then pure none
  else do
    let text ← fetchAll name len
    pure (some text)

/-- The test for a block of zeros, at the address of the next byte. -/
def zeroBlockAt : ℕ → ℕ → Reading Bool
  | _, 0 => pure true
  | p, n + 1 => do
    let c ← fetch p
    if c = 0 then zeroBlockAt (p + 1) n else pure false

/-- A regular file whose data starts at address `data`. -/
def mountFileAt (alloc : TarAlloc) (s : State) (path : List UInt8) (mode : BitVec 32)
    (fsize data : ℕ) : Reading (Bool × State) :=
  match vfsCreateFile s path alloc.node with
  | (none, s) => pure (false, s)
  | (some node, s) =>
    let s := s.setNode node (Node.withMode mode)
    if fsize = 0 then pure (true, s)
    else if alloc.data then do
      let bytes ← fetchAll data fsize
      pure (true, s.setNode node (Node.withBytes fsize bytes))
    else pure (false, s.setNode node fun n ↦ { n with size := 0 })

/-- One pass of the loop behind the test for zeros, at address `p`: whether it goes on, and the
padded length. -/
def mountMemberAt (alloc : TarAlloc) (s : State) (p : ℕ) : Reading ((Bool × State) × ℕ) := do
  let type ← fetch (p + 156)
  let fsize ← tarOctalAt (p + 124) 12 0
  let mode ← tarOctalAt (p + 100) 8 0
  let path ← tarNormaliseAt p 101
  let result ←
    match path with
    | none => pure (true, s)
    | some path =>
      if type = 53 then pure (true, mountDir alloc s path (BitVec.ofNat 32 mode))
      else if type = 48 ∨ type = 0 then
        mountFileAt alloc s path (BitVec.ofNat 32 mode) fsize (p + TAR_BLOCK)
      else pure (true, s)
  pure (result, (fsize + (TAR_BLOCK - 1)) / TAR_BLOCK * TAR_BLOCK)

/-- The loop of `vfs_mount_rootfs` at member number `i`, on an image of `size` bytes. -/
def mountLoopAt (alloc : ℕ → TarAlloc) (size : ℕ) : ℕ → ℕ → State → ℕ → Reading (ℤ × State)
  | 0, _, s, _ => pure (0, s)
  | fuel + 1, i, s, p =>
    if size < p + TAR_BLOCK then pure (0, s)
    else do
      let zero ← zeroBlockAt p TAR_BLOCK
      if zero then pure (0, s)
      else do
        let (result, padded) ← mountMemberAt (alloc i) s p
        if result.1 = false then pure (-1, result.2)
        else if size < p + (TAR_BLOCK + padded) then pure (-1, result.2)
        else mountLoopAt alloc size fuel (i + 1) result.2 (p + (TAR_BLOCK + padded))

/-- `vfs_mount_rootfs`, when there is an image, on its `size` bytes. -/
def vfsMountRootfsAt (alloc : ℕ → TarAlloc) (s : State) (hasImage : Bool) (size : ℕ) :
    Reading (ℤ × State) :=
  if !hasImage ∨ size < TAR_BLOCK * 2 then pure (-1, s) else mountLoopAt alloc size size 0 s 0

/-! ## The members that the walk reaches -/

section Members

variable (mem : ℕ → UInt8)

/-- The size field of the header at address `p`. -/
def memberSize (p : ℕ) : ℕ := tarOctal (bytesAt mem (p + 124) 12)

/-- The path in the header at address `p`. -/
def memberPath (p : ℕ) : Option (List UInt8) := tarNormalise (bytesAt mem p TAR_BLOCK) 101

/-- The length of the data in whole blocks. -/
def paddedSize (fsize : ℕ) : ℕ := (fsize + (TAR_BLOCK - 1)) / TAR_BLOCK * TAR_BLOCK

/-- The data at address `p` is copied: a regular file with data, whose node is created and for which
there is memory. -/
def CopiesData (alloc : TarAlloc) (s : State) (p : ℕ) : Prop :=
  (mem (p + 156) = 48 ∨ mem (p + 156) = 0) ∧ memberSize mem p ≠ 0 ∧ alloc.data = true ∧
    ∃ path, memberPath mem p = some path ∧ (vfsCreateFile s path alloc.node).1 ≠ none

/-- A place where the walk looks for the next member. -/
structure Stop where
  i : ℕ
  vfs : State
  p : ℕ

/-- The places that the loop of `vfs_mount_rootfs` comes to. -/
def loopStops (alloc : ℕ → TarAlloc) (size : ℕ) : ℕ → ℕ → State → ℕ → List Stop
  | 0, _, _, _ => []
  | fuel + 1, i, s, p =>
    ⟨i, s, p⟩ ::
      if size < p + TAR_BLOCK ∨ (bytesAt mem p TAR_BLOCK).all (· = 0) then []
      else
        let (result, padded) := (mountMemberAt (alloc i) s p).value mem
        if result.1 = false ∨ size < p + (TAR_BLOCK + padded) then []
        else loopStops alloc size fuel (i + 1) result.2 (p + (TAR_BLOCK + padded))

/-- The places that `vfs_mount_rootfs` comes to. -/
def mountStops (alloc : ℕ → TarAlloc) (s : State) (hasImage : Bool) (size : ℕ) : List Stop :=
  if !hasImage ∨ size < TAR_BLOCK * 2 then [] else loopStops mem alloc size size 0 s 0

variable {mem} (size : ℕ) (st : Stop)

/-- There is a header. -/
def Stop.HasMember (mem : ℕ → UInt8) : Prop :=
  st.p + TAR_BLOCK ≤ size ∧ ¬ (bytesAt mem st.p TAR_BLOCK).all (· = 0) = true

/-- The image ends inside of a header. -/
def Stop.CutHeader (mem : ℕ → UInt8) : Prop :=
  size < st.p + TAR_BLOCK ∧ ∃ x, st.p ≤ x ∧ x < size ∧ mem x ≠ 0

/-- The image ends inside of the data of a member or its padding. -/
def Stop.CutData (mem : ℕ → UInt8) : Prop :=
  st.HasMember size mem ∧ size < st.p + (TAR_BLOCK + paddedSize (memberSize mem st.p))

end Members

section Values

variable (mem : ℕ → UInt8)

theorem value_tarOctalAt (field len v : ℕ) :
    (tarOctalAt field len v).value mem = tarOctalLoop v (bytesAt mem field len) := by
  induction len generalizing field v with
  | zero => rfl
  | succ len ih =>
    rw [tarOctalAt, bytesAt_succ, tarOctalLoop]
    simp only [value_bind, value_fetch, value_ite, value_pure, ih]

theorem value_zeroBlockAt (p n : ℕ) :
    (zeroBlockAt p n).value mem = (bytesAt mem p n).all (· = 0) := by
  induction n generalizing p with
  | zero => rfl
  | succ n ih =>
    rw [zeroBlockAt, bytesAt_succ, all_cons]
    simp only [value_bind, value_fetch, value_ite, value_pure, ih]
    split_ifs with hzero <;> simp [hzero]

theorem value_nameLength (name room len : ℕ) :
    (nameLength name room len).value mem =
      len + ((bytesAt mem (name + len) room).takeWhile (· ≠ 0)).length := by
  induction room generalizing len with
  | zero => rfl
  | succ room ih =>
    rw [nameLength, bytesAt_succ, takeWhile_cons]
    simp only [value_bind, value_fetch, value_ite, value_pure, ih]
    split_ifs with hzero hne hne
    · simp [hzero] at hne
    · rfl
    · rw [length_cons, Nat.add_assoc name]
      omega
    · simp [hzero] at hne

theorem bytesAt_trimSlashes (name len : ℕ) :
    bytesAt mem name ((trimSlashes name len).value mem) =
      ((bytesAt mem name len).reverse.dropWhile (· = slash)).reverse := by
  induction len with
  | zero => rfl
  | succ len ih =>
    have hlast : bytesAt mem name (len + 1) = bytesAt mem name len ++ [mem (name + len)] := by
      simp [bytesAt, range'_concat]
    rw [trimSlashes, hlast, reverse_append, reverse_singleton, singleton_append, dropWhile_cons]
    simp only [value_bind, value_fetch, value_ite, value_pure]
    split_ifs with hslash hne hne
    · exact ih
    · simp [hslash] at hne
    · simp [hslash] at hne
    · rw [reverse_cons, reverse_reverse, hlast]

/-- A name without what follows its terminator and without trailing slashes. -/
def trimmedText (name : List UInt8) (bufSize : ℕ) : Option (List UInt8) :=
  match ((name.take (bufSize - 1)).takeWhile (· ≠ 0)).reverse.dropWhile (· = slash) with
  | [] => none
  | trimmed => some trimmed.reverse

theorem tarNormalise_dot (rest : List UInt8) (bufSize : ℕ) :
    tarNormalise (46 :: 47 :: rest) bufSize = trimmedText rest bufSize := rfl

theorem tarNormalise_of_not_dot {c d : UInt8} (h : ¬ (c = 46 ∧ d = 47)) (rest : List UInt8)
    (bufSize : ℕ) :
    tarNormalise (c :: d :: rest) bufSize = trimmedText (c :: d :: rest) bufSize := by
  unfold tarNormalise
  split
  case h_1 rest' heq =>
    obtain ⟨rfl, rfl, -⟩ : c = 46 ∧ d = 47 ∧ rest = rest' := by simpa using heq
    exact absurd ⟨rfl, rfl⟩ h
  case h_2 => rfl

/-- The part of `tar_normalise` behind the test for `./`. -/
theorem value_normalise_rest (name : ℕ) {k : ℕ} (hk : 100 ≤ k) :
    (do let len ← nameLength name (101 - 1) 0
        let len ← trimSlashes name len
        if len = 0 then pure none
        else do
          let text ← fetchAll name len
          pure (some text) : Reading (Option (List UInt8))).value mem =
      trimmedText (bytesAt mem name k) 101 := by
  have hlength := value_nameLength mem name 100 0
  rw [Nat.zero_add, Nat.add_zero] at hlength
  set text := (bytesAt mem name 100).takeWhile (· ≠ 0) with htext
  have hscan : bytesAt mem name ((nameLength name 100 0).value mem) = text := by
    have hle : text.length ≤ 100 :=
      ( takeWhile_prefix _).length_le.trans_eq (length_bytesAt mem name 100)
    rw [hlength, ← take_bytesAt mem hle]
    exact (prefix_iff_eq_take.mp ( takeWhile_prefix _)).symm
  have htrim := bytesAt_trimSlashes mem name ((nameLength name 100 0).value mem)
  rw [hscan] at htrim
  have hnil := congrArg List.length htrim
  rw [length_bytesAt, length_reverse] at hnil
  simp only [trimmedText, value_bind, value_ite, value_pure, value_fetchAll, htrim,
    Nat.add_one_sub_one, take_bytesAt mem hk, ← htext]
  rw [hnil]
  cases text.reverse.dropWhile (· = slash) with
  | nil => rfl
  | cons c rest => rfl

theorem value_tarNormaliseAt_of_le (p : ℕ) {n : ℕ} (hn : 102 ≤ n) :
    (tarNormaliseAt p 101).value mem = tarNormalise (bytesAt mem p n) 101 := by
  obtain ⟨k, rfl⟩ : ∃ k, n = k + 2 := ⟨n - 2, by omega⟩
  have hbytes : bytesAt mem p (k + 2) = mem p :: mem (p + 1) :: bytesAt mem (p + 2) k := rfl
  rw [hbytes]
  by_cases hdot : mem p = 46 ∧ mem (p + 1) = 47
  · rw [hdot.1, hdot.2, tarNormalise_dot, ← value_normalise_rest mem (p + 2) (by omega : 100 ≤ k)]
    simp only [tarNormaliseAt, value_bind, value_fetch, hdot, value_ite, value_pure, if_true]
  · rw [tarNormalise_of_not_dot hdot, ← hbytes,
      ← value_normalise_rest mem p (by omega : 100 ≤ k + 2)]
    by_cases hfirst : mem p = 46
    · have hsecond : mem (p + 1) ≠ 47 := fun h ↦ hdot ⟨hfirst, h⟩
      simp only [tarNormaliseAt, value_bind, value_fetch, value_ite, value_pure, hfirst, if_true,
        if_neg hsecond]
    · simp only [tarNormaliseAt, value_bind, value_fetch, value_ite, value_pure, if_neg hfirst]

theorem value_tarNormaliseAt (p : ℕ) : (tarNormaliseAt p 101).value mem = memberPath mem p :=
  value_tarNormaliseAt_of_le mem p (by decide)

theorem value_mountFileAt (alloc : TarAlloc) (s : State) (path : List UInt8) (mode : BitVec 32)
    (fsize data : ℕ) :
    (mountFileAt alloc s path mode fsize data).value mem =
      mountFile alloc s path mode fsize (bytesAt mem data fsize) := by
  rcases hcreate : vfsCreateFile s path alloc.node with ⟨node, s'⟩
  cases node with
  | none => simp only [mountFileAt, mountFile, hcreate, value_pure]
  | some node =>
    simp only [mountFileAt, mountFile, hcreate, value_ite, value_pure, value_bind, value_fetchAll]

/-- What a pass does besides reading the header. -/
theorem value_mountMemberAt (alloc : TarAlloc) (s : State) (p : ℕ) :
    (mountMemberAt alloc s p).value mem =
      (match memberPath mem p with
      | none => (true, s)
      | some path => mountMember alloc s path (mem (p + 156))
          (BitVec.ofNat 32 (tarOctal (bytesAt mem (p + 100) 8))) (memberSize mem p)
          (bytesAt mem (p + TAR_BLOCK) (memberSize mem p)), paddedSize (memberSize mem p)) := by
  simp only [mountMemberAt, value_bind, value_fetch, value_tarOctalAt, value_tarNormaliseAt]
  cases memberPath mem p with
  | none => rfl
  | some path =>
    simp only [mountMember, value_ite, value_pure, value_bind, value_mountFileAt, memberSize,
      paddedSize, tarOctal]
    split_ifs <;> rfl

theorem value_trimSlashes_le (name len : ℕ) : (trimSlashes name len).value mem ≤ len := by
  have h := congrArg List.length (bytesAt_trimSlashes mem name len)
  rw [length_bytesAt, length_reverse] at h
  rw [h]
  calc ((bytesAt mem name len).reverse.dropWhile (· = slash)).length
      ≤ (bytesAt mem name len).reverse.length := (dropWhile_sublist _).length_le
    _ = len := by rw [length_reverse, length_bytesAt]

theorem value_nameLength_le (name room : ℕ) : (nameLength name room 0).value mem ≤ room := by
  rw [value_nameLength, Nat.zero_add]
  exact ( takeWhile_prefix _).length_le.trans_eq (length_bytesAt mem _ room)

end Values

section Reads

variable {mem : ℕ → UInt8}

theorem within_tarOctalAt (field len v : ℕ) :
    Within (tarOctalAt field len v) mem field (field + len) := by
  induction len generalizing field v with
  | zero => exact .pure v
  | succ len ih =>
    have hrest (v : ℕ) : Within (tarOctalAt (field + 1) len v) mem field (field + (len + 1)) :=
      (ih (field + 1) v).mono (by omega) (by omega)
    refine .bind (.fetch le_rfl (by omega)) (.ite (fun _ ↦ hrest _) fun _ ↦ ?_)
    exact .ite (fun _ ↦ hrest v) fun _ ↦ .pure v

theorem within_zeroBlockAt (p n : ℕ) : Within (zeroBlockAt p n) mem p (p + n) := by
  induction n generalizing p with
  | zero => exact .pure true
  | succ n ih =>
    refine .bind (.fetch le_rfl (by omega)) (.ite (fun _ ↦ ?_) fun _ ↦ .pure false)
    exact (ih (p + 1)).mono (by omega) (by omega)

/-- The byte behind the buffer is looked at too. -/
theorem within_nameLength (name room len : ℕ) :
    Within (nameLength name room len) mem (name + len) (name + len + room + 1) := by
  induction room generalizing len with
  | zero => exact .bind (.fetch le_rfl (by omega)) (.pure len)
  | succ room ih =>
    refine .bind (.fetch le_rfl (by omega)) (.ite (fun _ ↦ .pure len) fun _ ↦ ?_)
    exact (ih (len + 1)).mono (by omega) (by omega)

theorem within_trimSlashes (name len : ℕ) :
    Within (trimSlashes name len) mem name (name + len) := by
  induction len with
  | zero => exact .pure 0
  | succ len ih =>
    refine .bind (.fetch (by omega) (by omega)) (.ite (fun _ ↦ ?_) fun _ ↦ .pure (len + 1))
    exact ih.mono le_rfl (by omega)

/-- The name is read inside the header, at most three bytes behind its field. -/
theorem within_tarNormaliseAt (p : ℕ) : Within (tarNormaliseAt p 101) mem p (p + 103) := by
  have hrest (name : ℕ) (hname : p ≤ name) (hle : name ≤ p + 2) :
      Within (do
        let len ← nameLength name (101 - 1) 0
        let len ← trimSlashes name len
        if len = 0 then pure none
        else do
          let text ← fetchAll name len
          pure (some text) : Reading (Option (List UInt8))) mem p (p + 103) := by
    have hlength := value_nameLength_le mem name (101 - 1)
    have htrim := value_trimSlashes_le mem name ((nameLength name (101 - 1) 0).value mem)
    refine .bind ((within_nameLength name (101 - 1) 0).mono (by omega) (by omega)) ?_
    refine .bind ((within_trimSlashes name _).mono hname (by omega)) ?_
    refine .ite (fun _ ↦ .pure none) fun _ ↦ ?_
    exact .bind (.fetchAll hname (by omega)) (.pure _)
  refine .bind (.fetch le_rfl (by omega)) (.ite (fun _ ↦ ?_) fun _ ↦ ?_)
  · refine .bind (.fetch (by omega) (by omega)) ?_
    simp only [value_fetch]
    split_ifs
    · exact hrest (p + 2) (by omega) le_rfl
    · exact hrest p le_rfl (by omega)
  · exact hrest p le_rfl (by omega)

/-- The data is read exactly when it is copied. -/
theorem reads_mountFileAt (alloc : TarAlloc) (s : State) (path : List UInt8) (mode : BitVec 32)
    (fsize data : ℕ) :
    (mountFileAt alloc s path mode fsize data).reads mem =
      if fsize ≠ 0 ∧ alloc.data = true ∧ (vfsCreateFile s path alloc.node).1 ≠ none then
        List.range' data fsize else [] := by
  unfold mountFileAt
  split
  case h_1 s' hcreate => simp [hcreate]
  case h_2 node s' hcreate =>
    simp only [reads_ite, reads_pure, reads_bind, reads_fetchAll, append_nil, hcreate, ne_eq,
      reduceCtorEq, not_false_eq_true, and_true]
    split_ifs <;> simp_all

/-- One pass stays inside an image with this header exactly when it also has the data, if that is
copied. -/
theorem mountMemberAt_inside_iff (alloc : TarAlloc) (s : State) {p size : ℕ}
    (hsize : p + TAR_BLOCK ≤ size) :
    (∀ x ∈ (mountMemberAt alloc s p).reads mem, x < size) ↔
      (CopiesData mem alloc s p → p + TAR_BLOCK + memberSize mem p ≤ size) := by
  rw [TAR_BLOCK] at hsize
  have hheader {α : Type} {m : Reading α} {lo hi : ℕ} (h : Within m mem lo hi)
      (hhi : hi ≤ p + 512) : ∀ x ∈ m.reads mem, x < size := by
    intro x hx
    have := h x hx
    omega
  have htype := hheader (Within.fetch le_rfl (Nat.lt_succ_self (p + 156))) (by omega)
  have hfsize := hheader (within_tarOctalAt (p + 124) 12 0) (by omega)
  have hmode := hheader (within_tarOctalAt (p + 100) 8 0) (by omega)
  have hpath := hheader (within_tarNormaliseAt p) (by omega)
  simp only [mountMemberAt, reads_bind, forall_mem_append, value_fetch, value_tarOctalAt,
    value_tarNormaliseAt]
  refine ⟨fun h hcopies ↦ ?_, fun h ↦ ⟨htype, hfsize, hmode, hpath, ?_⟩⟩
  · obtain ⟨hregular, hne, hdata, path, hname, hcreate⟩ := hcopies
    have hdir : mem (p + 156) ≠ 53 := by
      rcases hregular with hregular | hregular <;> rw [hregular] <;> decide
    have htail := h.2.2.2.2
    simp only [hname, if_neg hdir, if_pos hregular, reads_bind, reads_pure, append_nil,
      reads_mountFileAt] at htail
    rw [← tarOctal, ← memberSize, if_pos ⟨hne, hdata, hcreate⟩] at htail
    have hlast := htail (p + TAR_BLOCK + (memberSize mem p - 1))
      (mem_range'_1.mpr (by omega))
    omega
  · cases hname : memberPath mem p with
    | none => simp
    | some path =>
      by_cases hregular : mem (p + 156) = 48 ∨ mem (p + 156) = 0
      case neg =>
        simp only [if_neg hregular]
        split_ifs <;> simp
      have hdir : mem (p + 156) ≠ 53 := by
        rcases hregular with hregular | hregular <;> rw [hregular] <;> decide
      simp only [if_neg hdir, if_pos hregular, reads_bind, reads_pure, append_nil,
        reads_mountFileAt]
      rw [← tarOctal, ← memberSize]
      split_ifs with hcopy
      · intro x hx
        have hend := h ⟨hregular, hcopy.1, hcopy.2.1, path, hname, hcopy.2.2⟩
        rw [mem_range'_1] at hx
        omega
      · simp

end Reads

section Walk

variable {mem : ℕ → UInt8} {alloc : ℕ → TarAlloc} {size : ℕ}

/-- What a truncated archive is, at the places that the walk comes to. -/
def CutAt (mem : ℕ → UInt8) (size : ℕ) (stops : List Stop) : Prop :=
  ∃ st ∈ stops, st.CutHeader size mem ∨ st.CutData size mem

/-- Data that is copied lies in the image, which does not end inside a header. -/
def Stop.Complete (mem : ℕ → UInt8) (alloc : ℕ → TarAlloc) (size : ℕ) (st : Stop) : Prop :=
  (st.HasMember size mem → CopiesData mem (alloc st.i) st.vfs st.p →
    st.p + TAR_BLOCK + memberSize mem st.p ≤ size) ∧ ¬ st.CutHeader size mem

variable {st : Stop} {p : ℕ} {s : State}

/-- Nothing is required of a place where the archive ends. -/
theorem complete_of_zeros (hsize : st.p + TAR_BLOCK ≤ size)
    (hzero : (bytesAt mem st.p TAR_BLOCK).all (· = 0) = true) : st.Complete mem alloc size :=
  ⟨fun hmember ↦ absurd hzero hmember.2, fun hcut ↦ by have := hcut.1; omega⟩

theorem complete_iff_of_member (hmember : st.HasMember size mem) :
    st.Complete mem alloc size ↔
      ∀ x ∈ (mountMemberAt (alloc st.i) st.vfs st.p).reads mem, x < size := by
  have hcut : ¬ st.CutHeader size mem := fun h ↦ by
    have := hmember.1
    have := h.1
    omega
  rw [Stop.Complete, mountMemberAt_inside_iff _ _ hmember.1, and_iff_left hcut]
  exact ⟨fun h ↦ h hmember, fun h _ ↦ h⟩

theorem cutAt_cons {stops : List Stop} (hheader : ¬ st.CutHeader size mem)
    (hdata : ¬ st.CutData size mem) : CutAt mem size (st :: stops) ↔ CutAt mem size stops := by
  simp [CutAt, hheader, hdata]

/-- The walk stays in the image and rejects a cut one exactly when all it comes to is complete. -/
theorem mountLoopAt_inside_iff (fuel i : ℕ) (s : State) (p : ℕ) :
    ((∀ x ∈ (mountLoopAt alloc size fuel i s p).reads mem, x < size) ∧
        (CutAt mem size (loopStops mem alloc size fuel i s p) →
          ((mountLoopAt alloc size fuel i s p).value mem).1 = -1)) ↔
      ∀ st ∈ loopStops mem alloc size fuel i s p, st.Complete mem alloc size := by
  induction fuel generalizing i s p with
  | zero => simp [mountLoopAt, loopStops, CutAt]
  | succ fuel ih =>
    rw [mountLoopAt, loopStops]
    by_cases hend : size < p + TAR_BLOCK
    · have hcut : CutAt mem size [⟨i, s, p⟩] ↔ (⟨i, s, p⟩ : Stop).CutHeader size mem := by
        have hdata : ¬ (⟨i, s, p⟩ : Stop).CutData size mem :=
          fun h ↦ absurd hend (Nat.not_lt.mpr h.1.1)
        simp [CutAt, hdata]
      have hmember : ¬ (⟨i, s, p⟩ : Stop).HasMember size mem :=
        fun h ↦ absurd hend (Nat.not_lt.mpr h.1)
      simp only [if_pos hend, if_pos (Or.inl hend), reads_pure, value_pure, hcut,
        forall_mem_singleton, Stop.Complete, hmember]
      simp
    have hle : p + TAR_BLOCK ≤ size := Nat.not_lt.mp hend
    have hzeros : ∀ x ∈ (zeroBlockAt p TAR_BLOCK).reads mem, x < size :=
      fun x hx ↦ (within_zeroBlockAt p TAR_BLOCK x hx).2.trans_le hle
    simp only [if_neg hend, value_bind, reads_bind, value_zeroBlockAt, forall_mem_append]
    by_cases hzero : (bytesAt mem p TAR_BLOCK).all (· = 0) = true
    · have hcut : ¬ CutAt mem size [⟨i, s, p⟩] := by
        rintro ⟨st, hst, hcut⟩
        obtain rfl := mem_singleton.mp hst
        rcases hcut with hcut | hcut
        · exact hend hcut.1
        · exact hcut.1.2 hzero
      rw [if_pos hzero, if_pos (Or.inr hzero), forall_mem_singleton]
      exact iff_of_true ⟨⟨hzeros, by simp⟩, fun h ↦ absurd h hcut⟩ (complete_of_zeros hle hzero)
    have hmember : (⟨i, s, p⟩ : Stop).HasMember size mem := ⟨hle, hzero⟩
    rw [if_neg hzero, if_neg (not_or.mpr ⟨hend, hzero⟩), forall_mem_cons,
      complete_iff_of_member hmember, and_iff_right hzeros]
    simp only [value_bind, reads_bind, value_ite, reads_ite, forall_mem_append, value_pure,
      reads_pure]
    have hpadded : ((mountMemberAt (alloc i) s p).value mem).2 = paddedSize (memberSize mem p) := by
      rw [value_mountMemberAt]
    generalize (mountMemberAt (alloc i) s p).value mem = outcome at hpadded
    obtain ⟨result, padded⟩ := outcome
    dsimp only at hpadded ⊢
    by_cases hfails : result.1 = false
    · simp [hfails]
    by_cases hshort : size < p + (TAR_BLOCK + padded)
    · simp [hfails, hshort]
    rw [if_neg hfails, if_neg hfails, if_neg hshort, if_neg hshort,
      if_neg (not_or.mpr ⟨hfails, hshort⟩), cutAt_cons (fun h ↦ hend h.1)
      (fun h ↦ hshort (hpadded ▸ h.2)), and_assoc, ih]

/-- Mounting reads only bytes of the image, and fails on a truncated one, exactly when the walk
comes to no file that is copied although its data leaves the image, and not to the end of the image
inside of a header. -/
theorem mount_reads_inside_iff (mem : ℕ → UInt8) (alloc : ℕ → TarAlloc) (s : State)
    (hasImage : Bool) (size : ℕ) :
    ((∀ x ∈ (vfsMountRootfsAt alloc s hasImage size).reads mem, x < size) ∧
        (CutAt mem size (mountStops mem alloc s hasImage size) →
          ((vfsMountRootfsAt alloc s hasImage size).value mem).1 = -1)) ↔
      ∀ st ∈ mountStops mem alloc s hasImage size, st.Complete mem alloc size := by
  unfold vfsMountRootfsAt mountStops
  split_ifs
  · simp [CutAt]
  · exact mountLoopAt_inside_iff size 0 s 0

/-- The copied bytes only matter when they are copied. -/
theorem mountMember_eq_of_copied (alloc : TarAlloc) (s : State) {path : List UInt8}
    (hpath : memberPath mem p = some path) (mode : BitVec 32) (bytes bytes' : List UInt8)
    (h : CopiesData mem alloc s p →
      bytes.take (memberSize mem p) = bytes'.take (memberSize mem p)) :
    mountMember alloc s path (mem (p + 156)) mode (memberSize mem p) bytes =
      mountMember alloc s path (mem (p + 156)) mode (memberSize mem p) bytes' := by
  by_cases hcopies : CopiesData mem alloc s p
  · exact mountMember_congr _ _ _ _ _ (h hcopies)
  unfold mountMember
  split_ifs with hdir hregular
  · rfl
  · unfold mountFile
    rcases hcreate : vfsCreateFile s path alloc.node with ⟨node, s'⟩
    cases node with
    | none => rfl
    | some node =>
      dsimp only
      split_ifs with hempty hdata
      · rfl
      · exact absurd ⟨hregular, hempty, hdata, path, hpath, by simp [hcreate]⟩ hcopies
      · rfl
  · rfl

/-- While nothing behind the image is copied, the loop computes what the image's decoder does. -/
theorem value_mountLoopAt {fuel i : ℕ} (hp : p ≤ size)
    (h : ∀ st ∈ loopStops mem alloc size fuel i s p, st.Complete mem alloc size) :
    (mountLoopAt alloc size fuel i s p).value mem =
      mountLoop alloc fuel i s (bytesAt mem p (size - p)) := by
  induction fuel generalizing i s p with
  | zero => rfl
  | succ fuel ih =>
    rw [mountLoopAt, mountLoop, length_bytesAt]
    rw [loopStops] at h
    by_cases hend : size < p + TAR_BLOCK
    · rw [if_pos hend, if_pos (by omega), value_pure]
    have hle : p + TAR_BLOCK ≤ size := Nat.not_lt.mp hend
    have hle' : p + 512 ≤ size := hle
    rw [if_neg hend, if_neg (by omega : ¬ size - p < TAR_BLOCK),
      take_bytesAt mem (by omega : TAR_BLOCK ≤ size - p)]
    simp only [value_bind, value_zeroBlockAt]
    by_cases hzero : (bytesAt mem p TAR_BLOCK).all (· = 0) = true
    · rw [if_pos hzero, if_pos hzero, value_pure]
    rw [if_neg (not_or.mpr ⟨hend, hzero⟩), forall_mem_cons] at h
    rw [if_neg hzero, if_neg hzero, drop_bytesAt, drop_bytesAt, drop_bytesAt,
      take_bytesAt mem (by omega : 12 ≤ size - p - 124),
      take_bytesAt mem (by omega : 8 ≤ size - p - 100), getD_bytesAt mem (by omega),
      ← value_tarNormaliseAt_of_le mem p (by omega : 102 ≤ size - p), value_tarNormaliseAt]
    obtain ⟨hfirst, hrest⟩ := h
    have hpadded : ((mountMemberAt (alloc i) s p).value mem).2 =
        (tarOctal (bytesAt mem (p + 124) 12) + (TAR_BLOCK - 1)) / TAR_BLOCK * TAR_BLOCK := by
      rw [value_mountMemberAt]
      rfl
    have hresult := congrArg Prod.fst (value_mountMemberAt mem (alloc i) s p)
    simp only [value_bind]
    rw [← hpadded]
    -- What follows a pass depends on its outcome only.
    generalize (mountMemberAt (alloc i) s p).value mem = outcome at hrest hresult
    obtain ⟨result, padded⟩ := outcome
    have hnext : (if result.1 = false then pure (-1, result.2)
          else if size < p + (TAR_BLOCK + padded) then pure (-1, result.2)
          else mountLoopAt alloc size fuel (i + 1) result.2 (p + (TAR_BLOCK + padded)) :
            Reading (ℤ × State)).value mem =
        if result.1 = false then (-1, result.2)
        else if size - p < TAR_BLOCK + padded then (-1, result.2)
        else mountLoop alloc fuel (i + 1) result.2
          ((bytesAt mem p (size - p)).drop (TAR_BLOCK + padded)) := by
      dsimp only at hrest
      simp only [value_ite, value_pure]
      by_cases hfails : result.1 = false
      · rw [if_pos hfails, if_pos hfails]
      by_cases hshort : size < p + (TAR_BLOCK + padded)
      · rw [if_neg hfails, if_neg hfails, if_pos hshort, if_pos (by omega)]
      rw [if_neg (not_or.mpr ⟨hfails, hshort⟩)] at hrest
      rw [if_neg hfails, if_neg hfails, if_neg hshort, if_neg (by omega), drop_bytesAt,
        ih (by omega) hrest, Nat.sub_sub]
    cases hpath : memberPath mem p with
    | none =>
      rw [hpath] at hresult
      obtain rfl : result = (true, s) := hresult
      exact hnext
    | some path =>
      have hbytes := mountMember_eq_of_copied (alloc i) s hpath
        (BitVec.ofNat 32 (tarOctal (bytesAt mem (p + 100) 8)))
        (bytesAt mem (p + TAR_BLOCK) (memberSize mem p))
        (bytesAt mem (p + TAR_BLOCK) (size - p - TAR_BLOCK)) (by
          intro hcopies
          have hinside := hfirst.1 ⟨hle, hzero⟩ hcopies
          dsimp only at hinside
          rw [take_bytesAt mem le_rfl, take_bytesAt mem (by omega)])
      rw [hpath] at hresult
      obtain rfl := hresult.trans hbytes
      exact hnext

/-- On an image with nothing to reject, mounting is what the image's decoder does. -/
theorem value_vfsMountRootfsAt
    (h : ∀ st ∈ mountStops mem alloc s true size, st.Complete mem alloc size) :
    (vfsMountRootfsAt alloc s true size).value mem =
      vfsMountRootfs alloc s (some (bytesAt mem 0 size)) := by
  simp only [vfsMountRootfsAt, vfsMountRootfs, length_bytesAt, Bool.not_true, Bool.false_eq_true,
    false_or]
  by_cases hsize : size < TAR_BLOCK * 2
  · rw [if_pos hsize, if_pos hsize, value_pure]
  · have hstops : mountStops mem alloc s true size = loopStops mem alloc size size 0 s 0 := by
      simp [mountStops, hsize]
    rw [hstops] at h
    rw [if_neg hsize, if_neg hsize, value_mountLoopAt (Nat.zero_le size) h, Nat.sub_zero]

end Walk

/-- The header of the regular file `f` of 600 bytes, and zeros behind it. -/
def longFile (i : ℕ) : UInt8 :=
  if i = 0 then 102
  else if i = 156 then 48
  else if 100 ≤ i ∧ i < 108 then [48, 48, 48, 48, 54, 52, 52, 0].getD (i - 100) 0
  else if 124 ≤ i ∧ i < 136 then [48, 48, 48, 48, 48, 48, 48, 49, 49, 51, 48, 0].getD (i - 124) 0
  else 0

/-- The whole archive of that file, with a block of zeros at its end. -/
theorem value_vfsMountRootfsAt_longFile :
    (vfsMountRootfsAt freshAlloc initState true 2048).value longFile =
      vfsMountRootfs freshAlloc initState (some (bytesAt longFile 0 2048)) := by
  have hstops : (mountStops longFile freshAlloc initState true 2048).map Stop.p = [0, 1536] := by
    decide +kernel
  refine value_vfsMountRootfsAt fun st hst ↦ ?_
  have hp : st.p = 0 ∨ st.p = 1536 := by
    simpa [hstops] using mem_map_of_mem (f := Stop.p) hst
  rcases hp with hp | hp
  all_goals
    rw [Stop.Complete, Stop.CutHeader, hp]
    exact ⟨fun _ _ ↦ by decide +kernel, fun hcut ↦ absurd hcut.1 (by decide)⟩

/-- The headers of the directories `a` and `b`, and the first byte of a third header. -/
def thirdHeader (i : ℕ) : UInt8 :=
  if i = 0 then 97
  else if i = 512 then 98
  else if i = 156 ∨ i = 668 then 53
  else if i = 1024 then 99
  else 0

/-- **A copy that leaves the image.** The data of an archive that is cut inside of its only file is
copied up to the end of the file. An archive that is cut inside of its last header is accepted. -/
theorem truncated_archive_misread :
    (CutAt longFile 1024 (mountStops longFile freshAlloc initState true 1024) ∧
        1024 ∈ (vfsMountRootfsAt freshAlloc initState true 1024).reads longFile) ∧
      CutAt thirdHeader 1025 (mountStops thirdHeader freshAlloc initState true 1025) ∧
        ((vfsMountRootfsAt freshAlloc initState true 1025).value thirdHeader).1 = 0 := by
  have hlong : (mountStops longFile freshAlloc initState true 1024).map Stop.p = [0] := by
    decide +kernel
  have hthird : (mountStops thirdHeader freshAlloc initState true 1025).map Stop.p =
      [0, 512, 1024] := by
    decide +kernel
  have hsize : memberSize longFile 0 = 600 := by decide +kernel
  obtain ⟨st, hst, hp⟩ := mem_map.mp (hlong ▸ mem_singleton_self 0)
  obtain ⟨st', hst', hp'⟩ : ∃ st ∈ mountStops thirdHeader freshAlloc initState true 1025,
      st.p = 1024 := mem_map.mp (by rw [hthird]; decide)
  refine ⟨⟨⟨st, hst, .inr ⟨⟨?_, ?_⟩, ?_⟩⟩, by decide +kernel⟩, ⟨st', hst', .inl ⟨?_, 1024, ?_⟩⟩,
    by decide +kernel⟩
  · rw [hp]
    decide
  · rw [hp]
    decide +kernel
  · rw [hp, hsize]
    decide
  · rw [hp']
    decide
  · rw [hp']
    decide

end ToastyUnix.Vfs
