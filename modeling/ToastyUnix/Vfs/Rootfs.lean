import ToastyUnix.Lib.Ustar
import ToastyUnix.Lib.Lines
import ToastyUnix.Vfs.FileData

/-!
# Mounting the root file system

`vfs_mount_rootfs` of `kernel/vfs/rootfs.c`: the blocks of a ustar archive are walked from the front
and each directory and regular file is created through the path functions of the file system.

On the archive of valid members the loop takes the members one after the other
(`vfsMountRootfs_archive`). What it reads of a member is what was written, except for a name that
fills its field: `tar_normalise` then takes two more bytes, the first digits of the mode
(`tarNormalise_member`).
-/

namespace ToastyUnix.Vfs

open List

/-! ## The decoder -/

def TAR_BLOCK : ℕ := 512

/-- The loop of `tar_octal` with the value so far. At most 12 digits shift no bit out of the 64. -/
def tarOctalLoop (v : ℕ) : List UInt8 → ℕ
  | [] => v
  | c :: rest =>
    if 48 ≤ c ∧ c ≤ 55 then tarOctalLoop ((v <<< 3) ||| (c.toNat - 48)) rest
    else if c = 32 ∨ c = 0 then tarOctalLoop v rest
    else v

/-- `tar_octal`. -/
def tarOctal (field : List UInt8) : ℕ := tarOctalLoop 0 field

/-- `tar_normalise`, on the bytes of the image from the start of the name on. -/
def tarNormalise (name : List UInt8) (bufSize : ℕ) : Option (List UInt8) :=
  let name :=
    match name with
    | 46 :: 47 :: rest => rest
    | _ => name
  let text := (name.take (bufSize - 1)).takeWhile (· ≠ 0)
  match text.reverse.dropWhile (· = slash) with
  | [] => none
  | trimmed => some trimmed.reverse

/-- What `kmalloc` answers for one member: the node's block, and whether the data has room. -/
structure TarAlloc where
  node : Option Addr
  data : Bool

/-- Store to the fields of a node. -/
def State.setNode (s : State) (a : Addr) (f : Node → Node) : State :=
  match s.nodes.lookup a with
  | none => s
  | some n => { s with nodes := s.nodes.insert a (f n) }

/-- `if (mode != 0) node->mode = mode`. -/
def Node.withMode (mode : BitVec 32) (n : Node) : Node :=
  if mode ≠ 0 then { n with mode := mode } else n

/-- A buffer with the first `fsize` of the given bytes. -/
def Node.withBytes (fsize : ℕ) (bytes : List UInt8) (n : Node) : Node :=
  { n with data := fun i ↦ (bytes.take fsize).getD i 0, size := fsize, capacity := fsize }

/-- A directory member. A directory that cannot be created is passed over. -/
def mountDir (alloc : TarAlloc) (s : State) (path : List UInt8) (mode : BitVec 32) : State :=
  match vfsCreateDir s path alloc.node with
  | (none, s) => s
  | (some dir, s) => s.setNode dir (Node.withMode mode)

/-- A regular file of `fsize` bytes behind the header; `false` for the result `-1`. -/
def mountFile (alloc : TarAlloc) (s : State) (path : List UInt8) (mode : BitVec 32) (fsize : ℕ)
    (bytes : List UInt8) : Bool × State :=
  match vfsCreateFile s path alloc.node with
  | (none, s) => (false, s)
  | (some node, s) =>
    let s := s.setNode node (Node.withMode mode)
    if fsize = 0 then (true, s)
    else if alloc.data then (true, s.setNode node (Node.withBytes fsize bytes))
    else (false, s.setNode node fun n ↦ { n with size := 0 })

/-- The body of the loop of `vfs_mount_rootfs` on a member that is not skipped. -/
def mountMember (alloc : TarAlloc) (s : State) (path : List UInt8) (type : UInt8)
    (mode : BitVec 32) (fsize : ℕ) (bytes : List UInt8) : Bool × State :=
  if type = 53 then (true, mountDir alloc s path mode)
  else if type = 48 ∨ type = 0 then mountFile alloc s path mode fsize bytes
  else (true, s)

/-- The loop of `vfs_mount_rootfs` at member `i`, with the rest of the image, whose length bounds
the rounds: a member takes a block at least. -/
def mountLoop (alloc : ℕ → TarAlloc) : ℕ → ℕ → State → List UInt8 → ℤ × State
  | 0, _, s, _ => (0, s)
  | fuel + 1, i, s, p =>
    if p.length < TAR_BLOCK then (0, s)
    else if (p.take TAR_BLOCK).all (· = 0) then (0, s)
    else
      let type := p.getD 156 0
      let fsize := tarOctal ((p.drop 124).take 12)
      let mode := BitVec.ofNat 32 (tarOctal ((p.drop 100).take 8))
      let padded := (fsize + (TAR_BLOCK - 1)) / TAR_BLOCK * TAR_BLOCK
      let result :=
        match tarNormalise p 101 with
        | none => (true, s)
        | some path => mountMember (alloc i) s path type mode fsize (p.drop TAR_BLOCK)
      if result.1 = false then (-1, result.2)
      else if p.length < TAR_BLOCK + padded then (-1, result.2)
      else mountLoop alloc fuel (i + 1) result.2 (p.drop (TAR_BLOCK + padded))

/-- `vfs_mount_rootfs`. -/
def vfsMountRootfs (alloc : ℕ → TarAlloc) (s : State) (image : Option (List UInt8)) : ℤ × State :=
  match image with
  | none => (-1, s)
  | some image =>
    if image.length < TAR_BLOCK * 2 then (-1, s) else mountLoop alloc image.length 0 s image

/-! ## What the decoder reads in a header -/

open Ustar (Member octalDigits fill)

theorem tarOctalLoop_octalDigits (k n v : ℕ) (rest : List UInt8) :
    tarOctalLoop v (octalDigits k n ++ rest) = tarOctalLoop (v * 8 ^ k + n % 8 ^ k) rest := by
  induction k generalizing n rest with
  | zero => simp [octalDigits, Nat.mod_one]
  | succ k ih =>
    have hlt : n % 8 < 8 := Nat.mod_lt _ (by decide)
    have htoNat : (UInt8.ofNat (48 + n % 8)).toNat = 48 + n % 8 := by
      rw [UInt8.toNat_ofNat']
      omega
    have hdigit : 48 ≤ UInt8.ofNat (48 + n % 8) ∧ UInt8.ofNat (48 + n % 8) ≤ 55 := by
      rw [UInt8.le_iff_toNat_le, UInt8.le_iff_toNat_le, htoNat]
      exact ⟨Nat.le_add_right _ _, by change 48 + n % 8 ≤ 55; omega⟩
    have hstep : ∀ w : ℕ, w <<< 3 ||| (48 + n % 8 - 48) = w * 8 + n % 8 := by
      intro w
      rw [Nat.add_sub_cancel_left, ← Nat.shiftLeft_add_eq_or_of_lt (by simpa using hlt),
        Nat.shiftLeft_eq]
    rw [octalDigits, append_assoc, ih, singleton_append, tarOctalLoop, if_pos hdigit, htoNat, hstep]
    congr 1
    have hmod : n % 8 ^ (k + 1) = n / 8 % 8 ^ k * 8 + n % 8 := by
      rw [Nat.pow_succ', Nat.mod_mul]
      ring
    rw [hmod, Nat.pow_succ]
    ring

theorem tarOctal_octalDigits {k n : ℕ} (hn : n < 8 ^ k) {blank : UInt8}
    (hblank : blank = 0 ∨ blank = 32) : tarOctal (octalDigits k n ++ [blank]) = n := by
  have hskip : ¬ (48 ≤ blank ∧ blank ≤ 55) := by
    rcases hblank with rfl | rfl <;> decide
  rw [tarOctal, tarOctalLoop_octalDigits, tarOctalLoop, if_neg hskip, if_pos hblank.symm,
    tarOctalLoop, Nat.zero_mul, Nat.zero_add, Nat.mod_eq_of_lt hn]

/-- The path of a member, as a string. -/
def joined (path : List (List UInt8)) : List UInt8 := [slash].intercalate path

/-- The components of the paths that the file system can hold. -/
structure GoodPath (path : List (List UInt8)) : Prop where
  good : ∀ name ∈ path, GoodName name
  zero : ∀ name ∈ path, 0 ∉ name

section Joined

variable {path : List (List UInt8)}

theorem components_joined_of_ne_nil (hne : ∀ name ∈ path, name ≠ [])
    (hslash : ∀ name ∈ path, slash ∉ name) : components (joined path) = path := by
  by_cases hnil : path = []
  · rw [hnil]
    rfl
  rw [components, joined, splitOn_intercalate slash hslash hnil, filter_eq_self]
  intro l hl
  simpa using hne l hl

theorem components_joined (h : ∀ name ∈ path, GoodName name) : components (joined path) = path :=
  components_joined_of_ne_nil (fun l hl ↦ (h l hl).ne_nil) fun l hl ↦ (h l hl).no_slash

theorem joined_append {first second : List (List UInt8)} (hfirst : first ≠ [])
    (hsecond : second ≠ []) :
    joined (first ++ second) = joined first ++ slash :: joined second :=
  Lines.intercalate_append slash hfirst hsecond

theorem joined_append_cons (first : List (List UInt8)) (name : List UInt8) :
    ∃ text, joined (first ++ [name]) = text ++ name := by
  by_cases hfirst : first = []
  · exact ⟨[], by simp [hfirst, joined]⟩
  · refine ⟨joined first ++ [slash], ?_⟩
    rw [joined_append hfirst (by simp)]
    simp [joined]

theorem zero_notMem_joined (h : GoodPath path) : 0 ∉ joined path := by
  intro hmem
  rcases Lines.mem_of_mem_intercalate hmem with hx | ⟨name, hname, hx⟩
  · exact absurd hx (by decide)
  · exact h.zero name hname hx

theorem getLast?_joined (h : ∀ name ∈ path, GoodName name) (hne : path ≠ []) :
    ∃ c, (joined path).getLast? = some c ∧ c ≠ slash := by
  obtain ⟨first, name, rfl⟩ := path.eq_nil_or_concat.resolve_left hne
  rw [concat_eq_append] at h ⊢
  have hname := h name (by simp)
  obtain ⟨text, htext⟩ := joined_append_cons first name
  refine ⟨name.getLast hname.ne_nil, ?_, ?_⟩
  · rw [htext, getLast?_append_of_ne_nil _ hname.ne_nil, getLast?_eq_getLast_of_ne_nil hname.ne_nil]
  · intro hlast
    exact hname.no_slash (hlast ▸ getLast_mem hname.ne_nil)

end Joined

section Normalise

variable {text suffix : List UInt8} {n : ℕ} {c x : UInt8}

theorem take_takeWhile_terminated (hzero : 0 ∉ text) (hlength : text.length < n)
    (rest : List UInt8) : ((text ++ 0 :: rest).take n).takeWhile (· ≠ 0) = text := by
  obtain ⟨k, hk⟩ := Nat.exists_eq_add_of_lt hlength
  have hsize : n - text.length = k + 1 := by omega
  rw [take_append, take_of_length_le hlength.le, hsize, take_succ_cons, takeWhile_append_of_pos]
  · simp
  · intro c hc
    simpa using fun heq : c = 0 ↦ hzero (heq ▸ hc)

theorem take_takeWhile_full {rest : List UInt8} (hzero : 0 ∉ text) :
    ((text ++ rest).take text.length).takeWhile (· ≠ 0) = text := by
  rw [take_left, takeWhile_eq_self_iff]
  intro c hc
  simpa using fun heq : c = 0 ↦ hzero (heq ▸ hc)

theorem dropWhile_reverse_append (hlast : text.getLast? = some c) (hc : c ≠ slash)
    (hsuffix : ∀ x ∈ suffix, x = slash) :
    (text ++ suffix).reverse.dropWhile (· = slash) = text.reverse := by
  rw [reverse_append, dropWhile_append_of_pos]
  · have hhead : text.reverse.head? = some c := by rw [head?_reverse, hlast]
    obtain ⟨rest, hrest⟩ : ∃ rest, text.reverse = c :: rest := by
      cases hrev : text.reverse with
      | nil => simp [hrev] at hhead
      | cons d rest =>
        obtain rfl : d = c := by simpa [hrev] using hhead
        exact ⟨rest, rfl⟩
    simp [hrest, hc]
  · simpa using hsuffix

theorem tarNormalise_of_text {name body : List UInt8}
    (hname : ((name.drop 2).take 100).takeWhile (· ≠ 0) = text) (hdot : name.take 2 = [46, 47])
    (htext : text = body ++ suffix) (hlast : body.getLast? = some c) (hc : c ≠ slash)
    (hsuffix : ∀ x ∈ suffix, x = slash) : tarNormalise name 101 = some body := by
  obtain ⟨rest, rfl⟩ : ∃ rest, name = 46 :: 47 :: rest := by
    refine ⟨name.drop 2, ?_⟩
    rw [← take_append_drop 2 name, hdot]
    simp
  have hbody : body.reverse ≠ [] := by
    rintro hnil
    rw [reverse_eq_nil_iff] at hnil
    simp [hnil] at hlast
  have hrest : (rest.take 100).takeWhile (· ≠ 0) = body ++ suffix := hname.trans htext
  have htrim := dropWhile_reverse_append hlast hc hsuffix
  simp only [tarNormalise, hrest, htrim, Nat.add_one_sub_one]
  rw [reverse_reverse]

theorem mem_octalDigits {k : ℕ} (hc : c ∈ octalDigits k n) : c ≠ 0 ∧ c ≠ slash := by
  induction k generalizing n with
  | zero => simp [octalDigits] at hc
  | succ k ih =>
    rw [octalDigits, mem_append, mem_singleton] at hc
    rcases hc with hc | rfl
    · exact ih hc
    · have hlt : n % 8 < 8 := Nat.mod_lt _ (by decide)
      generalize n % 8 = d at hlt
      interval_cases d <;> decide

variable {m : Member}

/-- The slash behind the name of a directory. -/
def nameSuffix (m : Member) : List UInt8 :=
  if m.path ≠ [] ∧ m.content = none then [slash] else []

theorem name_member (m : Member) : m.name = 46 :: 47 :: (joined m.path ++ nameSuffix m) := rfl

theorem mem_nameSuffix (hx : x ∈ nameSuffix m) : x = slash := by
  unfold nameSuffix at hx
  split_ifs at hx
  · simpa using hx
  · simp at hx

/-- The first digits of the mode, which follow the name field. -/
def modeStart (m : Member) : List UInt8 := (octalDigits 7 m.mode).take 2

theorem length_modeStart (m : Member) : (modeStart m).length = 2 := by
  rw [modeStart, length_take, Ustar.length_octalDigits]
  rfl

theorem mem_modeStart (hx : x ∈ modeStart m) : x ≠ 0 ∧ x ≠ slash :=
  mem_octalDigits (mem_of_mem_take hx)

/-- The path that `tar_normalise` makes of a member. A name that fills its field has no terminator;
the buffer has room for two more bytes. -/
def mountedText (m : Member) : List UInt8 :=
  if m.name.length < 100 then joined m.path else joined m.path ++ nameSuffix m ++ modeStart m

theorem tarNormalise_root (hroot : m.path = []) (rest : List UInt8) :
    tarNormalise (m.header ++ rest) 101 = none := by
  have hname : m.name = [46, 47] := by
    rw [name_member, nameSuffix, hroot]
    rfl
  rw [Member.header, hname]
  simp [tarNormalise, fill, replicate_succ]

theorem tarNormalise_member (hpath : GoodPath m.path) (hne : m.path ≠ []) (hvalid : m.Valid)
    (rest : List UInt8) : tarNormalise (m.header ++ rest) 101 = some (mountedText m) := by
  have hzero : 0 ∉ joined m.path ++ nameSuffix m := by
    rw [mem_append, not_or]
    refine ⟨zero_notMem_joined hpath, fun h ↦ ?_⟩
    exact absurd (mem_nameSuffix h) (by decide)
  have hlength := hvalid.name_le
  rw [name_member, length_cons, length_cons] at hlength
  have hdot : (m.header ++ rest).take 2 = [46, 47] := by
    rw [Member.header, fill, name_member]
    rfl
  obtain ⟨c, hlast, hc⟩ := getLast?_joined hpath.good hne
  by_cases hshort : m.name.length < 100
  · rw [mountedText, if_pos hshort]
    rw [name_member, length_cons, length_cons] at hshort
    obtain ⟨k, hk⟩ := Nat.exists_eq_add_of_lt hshort
    have hpad : 100 - m.name.length = k + 1 := by
      rw [name_member, length_cons, length_cons]
      omega
    have hdrop : (m.header ++ rest).drop 2 = (joined m.path ++ nameSuffix m) ++ 0 ::
        (List.replicate k 0 ++ (m.modeField ++ (m.owner ++ (m.sizeField ++
          (m.stamp ++ m.typeFlag :: m.tail)))) ++ rest) := by
      rw [Member.header, fill, hpad, name_member, replicate_succ]
      simp
    have htext := take_takeWhile_terminated hzero (by omega : _ < 100)
    exact tarNormalise_of_text ((congrArg _ (congrArg _ hdrop)).trans (htext _)) hdot rfl hlast
      hc fun x ↦ mem_nameSuffix
  · have hfull : (joined m.path ++ nameSuffix m).length = 98 := by
      rw [name_member, length_cons, length_cons] at hshort
      omega
    have hzero' : 0 ∉ joined m.path ++ nameSuffix m ++ modeStart m := by
      rw [mem_append, not_or]
      exact ⟨hzero, fun h ↦ (mem_modeStart h).1 rfl⟩
    have hmodeNe : modeStart m ≠ [] := ne_nil_of_length_pos (by rw [length_modeStart]; decide)
    rw [mountedText, if_neg hshort]
    refine tarNormalise_of_text ?_ hdot (append_nil _).symm
      ((getLast?_append_of_ne_nil _ hmodeNe).trans (getLast?_eq_getLast_of_ne_nil hmodeNe))
      (mem_modeStart (getLast_mem hmodeNe)).2 (by simp)
    have hdrop : (m.header ++ rest).drop 2 = (joined m.path ++ nameSuffix m ++ modeStart m) ++
        ((octalDigits 7 m.mode).drop 2 ++ [m.blank] ++ (m.owner ++ (m.sizeField ++
          (m.stamp ++ m.typeFlag :: m.tail))) ++ rest) := by
      have hpad : 100 - m.name.length = 0 := by omega
      have hmode : m.modeField = modeStart m ++ ((octalDigits 7 m.mode).drop 2 ++ [m.blank]) := by
        rw [modeStart, ← append_assoc, take_append_drop]
        rfl
      rw [Member.header, fill, hpad, name_member, hmode]
      simp
    have hsize : 100 = (joined m.path ++ nameSuffix m ++ modeStart m).length := by
      rw [length_append, hfull, length_modeStart]
    rw [hdrop, hsize, take_takeWhile_full hzero']

end Normalise

/-! ## The loop over an archive -/

/-- The members one after the other. -/
def mountAll (alloc : ℕ → TarAlloc) : ℕ → State → List Member → ℤ × State
  | _, s, [] => (0, s)
  | i, s, m :: members =>
    let result :=
      if m.path = [] then (true, s)
      else mountMember (alloc i) s (mountedText m) m.typeFlag (BitVec.ofNat 32 m.mode)
        m.bytes.length m.bytes
    if result.1 = false then (-1, result.2) else mountAll alloc (i + 1) result.2 members

section Loop

variable {alloc : ℕ → TarAlloc} {m : Member} {members : List Member} {trailer : List UInt8}

theorem mountMember_congr (a : TarAlloc) (s : State) (path : List UInt8) (type : UInt8)
    (mode : BitVec 32) {fsize : ℕ} {bytes bytes' : List UInt8}
    (h : bytes.take fsize = bytes'.take fsize) :
    mountMember a s path type mode fsize bytes = mountMember a s path type mode fsize bytes' := by
  have hnode : Node.withBytes fsize bytes = Node.withBytes fsize bytes' := by
    funext n
    rw [Node.withBytes, Node.withBytes, h]
  rw [mountMember, mountMember, mountFile, mountFile, hnode]

theorem archive_nil (trailer : List UInt8) :
    Ustar.archive [] trailer =
      List.replicate TAR_BLOCK 0 ++ (List.replicate TAR_BLOCK 0 ++ trailer) := by
  rw [Ustar.archive, flatMap_nil, nil_append, Ustar.blockSize, ← TAR_BLOCK, Nat.two_mul,
    replicate_add, append_assoc]

theorem archive_cons (m : Member) (members : List Member) (trailer : List UInt8) :
    Ustar.archive (m :: members) trailer =
      m.header ++ (m.data ++ Ustar.archive members trailer) := by
  simp [Ustar.archive]

theorem mountLoop_archive (hmembers : ∀ m ∈ members, m.Valid ∧ GoodPath m.path) {fuel : ℕ}
    (hfuel : members.length < fuel) (i : ℕ) (s : State) :
    mountLoop alloc fuel i s (Ustar.archive members trailer) = mountAll alloc i s members := by
  induction members generalizing fuel i s with
  | nil =>
    obtain ⟨fuel, rfl⟩ := Nat.exists_eq_succ_of_ne_zero (by omega : fuel ≠ 0)
    have hlength : ¬ (Ustar.archive [] trailer).length < TAR_BLOCK := by
      rw [archive_nil, length_append, length_replicate]
      omega
    have hzero : ((Ustar.archive [] trailer).take TAR_BLOCK).all (· = 0) = true := by
      rw [archive_nil, take_left' length_replicate, all_replicate]
      simp
    rw [Nat.succ_eq_add_one, mountLoop, if_neg hlength, if_pos hzero]
    rfl
  | cons m members ih =>
    obtain ⟨fuel, rfl⟩ := Nat.exists_eq_succ_of_ne_zero (by omega : fuel ≠ 0)
    rw [length_cons] at hfuel
    obtain ⟨⟨hvalid, hpath⟩, hrest⟩ := forall_mem_cons.mp hmembers
    rw [archive_cons]
    generalize hmore : m.data ++ Ustar.archive members trailer = more
    obtain ⟨hmode, hsize, htype⟩ := hvalid.fields more
    have hmode' : tarOctal (((m.header ++ more).drop 100).take 8) = m.mode := by
      rw [hmode]
      exact tarOctal_octalDigits hvalid.mode_lt hvalid.blank
    have hsize' : tarOctal (((m.header ++ more).drop 124).take 12) = m.bytes.length := by
      rw [hsize]
      exact tarOctal_octalDigits hvalid.size_lt hvalid.blank
    have hheader : m.header.length = TAR_BLOCK := hvalid.length_header
    have hdata : m.data.length = (m.bytes.length + (TAR_BLOCK - 1)) / TAR_BLOCK * TAR_BLOCK :=
      m.length_data
    have hlength : ¬ (m.header ++ more).length < TAR_BLOCK := by
      rw [length_append, hheader]
      omega
    have hnonzero : ¬ ((m.header ++ more).take TAR_BLOCK).all (· = 0) = true := by
      rw [take_left' hheader, Member.header, fill, name_member]
      simp
    have hpadded : ¬ (m.header ++ more).length <
        TAR_BLOCK + (m.bytes.length + (TAR_BLOCK - 1)) / TAR_BLOCK * TAR_BLOCK := by
      rw [length_append, hheader, ← hdata, ← hmore, length_append]
      omega
    have hnext : (m.header ++ more).drop
        (TAR_BLOCK + (m.bytes.length + (TAR_BLOCK - 1)) / TAR_BLOCK * TAR_BLOCK) =
          Ustar.archive members trailer := by
      rw [← drop_drop, drop_left' hheader, ← hmore, drop_left' hdata]
    have hbytes : ((m.header ++ more).drop TAR_BLOCK).take m.bytes.length =
        m.bytes.take m.bytes.length := by
      rw [drop_left' hheader, ← hmore, Member.data, fill, append_assoc, take_left, take_length]
    have hresult : (match tarNormalise (m.header ++ more) 101 with
        | none => (true, s)
        | some path => mountMember (alloc i) s path m.typeFlag (BitVec.ofNat 32 m.mode)
            m.bytes.length ((m.header ++ more).drop TAR_BLOCK)) =
        if m.path = [] then (true, s)
        else mountMember (alloc i) s (mountedText m) m.typeFlag (BitVec.ofNat 32 m.mode)
          m.bytes.length m.bytes := by
      split_ifs with hroot
      · rw [tarNormalise_root hroot]
      · rw [tarNormalise_member hpath hroot hvalid]
        exact mountMember_congr _ _ _ _ _ hbytes
    rw [Nat.succ_eq_add_one, mountLoop, if_neg hlength, if_neg hnonzero]
    simp only [hmode', hsize', htype, hresult, if_neg hpadded, hnext]
    have hlt : members.length < fuel := by omega
    rw [mountAll, ih hrest hlt]

theorem length_archive (members : List Member) (trailer : List UInt8)
    (hmembers : ∀ m ∈ members, m.Valid) :
    members.length + 2 * TAR_BLOCK ≤ (Ustar.archive members trailer).length := by
  induction members with
  | nil =>
    rw [archive_nil, length_append, length_append, length_replicate, length_nil]
    omega
  | cons m members ih =>
    obtain ⟨hvalid, hrest⟩ := forall_mem_cons.mp hmembers
    have hih := ih hrest
    have hheader : m.header.length = 512 := hvalid.length_header
    rw [archive_cons, length_append, length_append, hheader, length_cons]
    omega

/-- Mounting an archive takes its members one after the other. -/
theorem vfsMountRootfs_archive (hmembers : ∀ m ∈ members, m.Valid ∧ GoodPath m.path) (s : State) :
    vfsMountRootfs alloc s (some (Ustar.archive members trailer)) = mountAll alloc 0 s members := by
  have hlength := length_archive members trailer fun m hm ↦ (hmembers m hm).1
  rw [vfsMountRootfs, if_neg (by simp only [TAR_BLOCK] at hlength ⊢; omega)]
  exact mountLoop_archive hmembers (by simp only [TAR_BLOCK] at hlength; omega) 0 s

end Loop

end ToastyUnix.Vfs
