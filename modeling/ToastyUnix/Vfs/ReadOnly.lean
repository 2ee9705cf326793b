import ToastyUnix.Vfs.FileData

/-!
# Read-only descriptors

`vfs_write` tests the access mode of the description and `vfs_ftruncate` does not, so a file can be
cut or extended through a descriptor that was opened for reading. A `Watch` follows one regular
file: calls through the descriptor and its duplicates, which share one description, alternate with
anything that happens through other descriptors. The contents only change through the others exactly
as long as every `ftruncate` through the descriptor is without effect
(`readOnly_keeps_contents_iff`).
-/

namespace ToastyUnix.Vfs

open Errno Option

/-- The descriptor a call is made through. A length is a `long`. -/
def Op.through : Op → Option ℤ
  | .read fd .. | .pread fd .. | .write fd .. | .ioctl fd .. | .readdir fd .. | .dup fd
  | .dup2 fd _ => some fd
  | .ftruncate fd length _ => if length < 2 ^ 63 then some fd else none
  | _ => none

/-- The bytes of a node. -/
def State.contentsOf (s : State) (x : Addr) : Option (List UInt8) :=
  (s.nodes.lookup x).map Node.contents

/-- Description `a` is for reading the regular file `x`, unless it has been freed. -/
def State.readsFile (s : State) (a x : Addr) : Bool :=
  (s.files.lookup a).all (fun f ↦ f.flags &&& 3 = O_RDONLY ∧ f.pipe = none ∧ f.node = some x) &&
    (s.nodes.lookup x).any fun n ↦ n.type = .file ∧ n.size ≤ n.capacity ∧ n.capacity < 2 ^ 64

/-- The file system with the bytes that the file should hold. -/
structure Watch where
  vfs : State
  expected : Option (List UInt8)

/-- A call through the descriptor, or what calls through other descriptors lead to. -/
inductive WatchEvent
  | own (task : TaskId) (op : Op)
  | other (s : State)

/-- The call is made through description `a`. -/
def Watch.Through (w : Watch) (a : Addr) (task : TaskId) (op : Op) : Prop :=
  op.through.bind (w.vfs.enter task).fdGet = some a ∧ (w.vfs.files.lookup a).isSome

instance (w : Watch) (a : Addr) (task : TaskId) (op : Op) : Decidable (w.Through a task op) :=
  inferInstanceAs (Decidable (_ ∧ _))

/-- One event. Calls through other descriptors may do anything that keeps the description; the file
should then hold what they left. -/
def Watch.step (a x : Addr) (w : Watch) : WatchEvent → Watch
  | .own task op =>
    if w.Through a task op then { w with vfs := System.call (w.vfs.enter task) op } else w
  | .other s => if s.readsFile a x then ⟨s, s.contentsOf x⟩ else w

/-- An `ftruncate` through the descriptor is refused, names the current size, or finds no memory. -/
def Watch.Harmless (a x : Addr) (w : Watch) : WatchEvent → Prop
  | .own task (.ftruncate fd length alloc) => w.Through a task (.ftruncate fd length alloc) →
    ∀ n, w.vfs.nodes.lookup x = some n → length < 0 ∨ length = n.size ∨
      ((n.capacity : ℤ) < length ∧ alloc.succeeds = false)
  | _ => True

/-- Descriptions keep what they refer to and their flags, unless they are freed. -/
def KeepsFiles (s s' : State) : Prop :=
  ∀ b f', s'.files.lookup b = some f' → ∃ f, s.files.lookup b = some f ∧
    f'.node = f.node ∧ f'.pipe = f.pipe ∧ f'.flags = f.flags

namespace KeepsFiles

variable {s s' : State}

theorem refl (s : State) : KeepsFiles s s := fun _ f hf ↦ ⟨f, hf, rfl, rfl, rfl⟩

theorem of_quiet (h : Quiet s s') : KeepsFiles s s' := by
  intro b f' hf'
  have hlink := h.files b
  rw [hf', map_some, eq_comm, map_eq_some_iff] at hlink
  obtain ⟨f, hf, hsame⟩ := hlink
  simp only [File.link, Prod.mk.injEq] at hsame
  exact ⟨f, hf, hsame.1.symm, hsame.2.1.symm, hsame.2.2.1.symm⟩

theorem of_recounts (h : Recounts s s') : KeepsFiles s s' := by
  intro b f' hf'
  obtain ⟨f, refs, hf, rfl⟩ := h.files b f' hf'
  exact ⟨f, hf, rfl, rfl, rfl⟩

end KeepsFiles

variable {s : State} {a x : Addr} {fd : ℤ} {n : Node} {length : ℕ} {alloc : Realloc}

theorem readsFile_iff :
    s.readsFile a x = true ↔
      (∀ f, s.files.lookup a = some f →
        f.flags &&& 3 = O_RDONLY ∧ f.pipe = none ∧ f.node = some x) ∧
      ∃ n, s.nodes.lookup x = some n ∧ n.type = .file ∧ n.Fits := by
  simp only [State.readsFile, Bool.and_eq_true, all_eq_true, any_eq_true, decide_eq_true_eq]
  constructor
  · intro h
    obtain ⟨n, hn, htype, hsize, hcapacity⟩ := h.2
    exact ⟨h.1, n, hn, htype, hsize, hcapacity⟩
  · intro h
    obtain ⟨n, hn, htype, hfits⟩ := h.2
    exact ⟨h.1, n, hn, htype, hfits.size_le, hfits.capacity_lt⟩

/-- A description for reading stays one when descriptions and nodes keep what they are. -/
theorem readsFile_of_keeps {s' : State} (h : s.readsFile a x = true) (hfiles : KeepsFiles s s')
    (hnodes : s'.nodes = s.nodes) : s'.readsFile a x = true := by
  rw [readsFile_iff] at h ⊢
  refine ⟨fun f' hf' ↦ ?_, by rw [hnodes]; exact h.2⟩
  obtain ⟨f, hf, hnode, hpipe, hflags⟩ := hfiles a f' hf'
  rw [hnode, hpipe, hflags]
  exact h.1 f hf

/-- A call but `ftruncate` through a description for reading leaves the nodes alone. -/
theorem call_nodes_of_readsFile (h : s.readsFile a x = true) {op : Op}
    (hthrough : op.through = some fd) (hfd : s.fdGet fd = some a)
    (hop : ∀ fd length alloc, op ≠ .ftruncate fd length alloc) :
    KeepsFiles s (System.call s op) ∧ (System.call s op).nodes = s.nodes := by
  cases op with
  | read fd hasBuf count driver =>
    exact ⟨.of_quiet (vfsRead_quiet s fd hasBuf count driver),
      vfsRead_nodes s fd hasBuf count driver⟩
  | write fd' buf driver alloc =>
    obtain rfl : fd' = fd := some.inj hthrough
    refine ⟨.of_quiet (vfsWrite_quiet s fd' buf driver alloc), ?_⟩
    -- The access mode is tested before anything is written.
    simp only [System.call, vfsWrite, hfd]
    cases hf : s.files.lookup a with
    | none => rfl
    | some f =>
      cases buf with
      | none => rfl
      | some buf => simp only [if_pos ((readsFile_iff.mp h).1 f hf).1]
  | ftruncate fd length alloc => exact absurd rfl (hop fd length alloc)
  | readdir fd hasBuf count =>
    exact ⟨.of_quiet (vfsReaddir_quiet s fd hasBuf count), vfsReaddir_nodes s fd hasBuf count⟩
  | dup fd =>
    have hcounts := (vfsDup_shifts s fd).recounts
    exact ⟨.of_recounts hcounts, hcounts.sameNodes.2⟩
  | dup2 fd newfd =>
    have hcounts := (vfsDup2_shifts s fd newfd).recounts
    exact ⟨.of_recounts hcounts, hcounts.sameNodes.2⟩
  | pread => exact ⟨.refl s, rfl⟩
  | ioctl => exact ⟨.refl s, rfl⟩
  | _ => cases hthrough

/-- A file that cannot grow stays as it is. -/
theorem nodeTruncate_of_fails (hn : n.Fits) (hlength : n.capacity < length)
    (halloc : alloc.succeeds = false) : (nodeTruncate n length alloc).2 = n := by
  have hcut : ¬ length < n.size := Nat.not_lt.mpr (hn.size_le.trans hlength.le)
  rw [nodeTruncate, if_neg hcut, reserve, if_pos hlength, halloc]
  cases growCapacity length 64 (if n.capacity ≠ 0 then n.capacity else 64) <;> rfl

/-- A file with room for the given size, or with memory to grow, gets this size. -/
theorem nodeTruncate_of_room (hn : n.Fits) (hlength : length < 2 ^ 63)
    (hroom : length ≤ n.capacity ∨ alloc.succeeds = true) :
    ∃ m, nodeTruncate n length alloc = (some 0, m) ∧ m.type = n.type ∧ m.Fits ∧ m.size = length := by
  have hsize {m : Node} (hm : m.contents = resize n.contents length) : m.size = length := by
    rw [← m.length_contents, hm, resize, List.length_append, List.length_take,
      List.length_replicate]
    omega
  cases halloc : alloc.succeeds with
  | true =>
    obtain ⟨m, hm, htype, hfits, hcontents⟩ := nodeTruncate_spec hn length hlength.le halloc
    exact ⟨m, hm, htype, hfits, hsize hcontents⟩
  | false =>
    have hle : length ≤ n.capacity := hroom.resolve_right (by simp [halloc])
    -- The allocator is not asked.
    have hsame : nodeTruncate n length alloc = nodeTruncate n length zeroed := by
      simp only [nodeTruncate, reserve, if_neg (Nat.not_lt.mpr hle)]
    have hzeroed : zeroed.succeeds = true := rfl
    obtain ⟨m, hm, htype, hfits, hcontents⟩ := nodeTruncate_spec hn length hlength.le hzeroed
    exact ⟨m, hsame.trans hm, htype, hfits, hsize hcontents⟩

theorem nodeTruncate_self (hn : n.Fits) (alloc : Realloc) :
    nodeTruncate n n.size alloc = (some 0, n) := by
  rw [nodeTruncate, if_neg (lt_irrefl _), reserve, if_neg (Nat.not_lt.mpr hn.size_le)]
  exact if_neg (lt_irrefl _)

/-- `ftruncate` through a description for reading keeps it, and keeps the contents exactly when it
is without effect. -/
theorem vfsFtruncate_of_readsFile (h : s.readsFile a x = true) (hfd : s.fdGet fd = some a)
    (hlive : (s.files.lookup a).isSome) {length : ℤ} (hlength : length < 2 ^ 63) (alloc : Realloc) :
    (vfsFtruncate s fd length alloc).2.readsFile a x = true ∧
      ((vfsFtruncate s fd length alloc).2.contentsOf x = s.contentsOf x ↔
        ∀ n, s.nodes.lookup x = some n → length < 0 ∨ length = n.size ∨
          ((n.capacity : ℤ) < length ∧ alloc.succeeds = false)) := by
  obtain ⟨f, hf⟩ := isSome_iff_exists.mp hlive
  obtain ⟨hdesc, n, hn, htype, hfits⟩ := readsFile_iff.mp h
  obtain ⟨hflags, hpipe, hnode⟩ := hdesc f hf
  have hnodeOf : s.nodeOf f = some (x, n) := by
    simp only [State.nodeOf, hpipe, hnode, bind_some, hn, map_some]
  have hcall : (vfsFtruncate s fd length alloc).2 = if length < 0 then s else
      { s with nodes := s.nodes.insert x (nodeTruncate n length.toNat alloc).2 } := by
    simp only [vfsFtruncate, hfd, hf, bind_some, hnodeOf, htype, ne_eq, not_true_eq_false, if_false]
    split_ifs <;> rfl
  have hreads {m : Node} (hm : m.type = n.type) (hmfits : m.Fits) :
      ({ s with nodes := s.nodes.insert x m } : State).readsFile a x = true :=
    readsFile_iff.mpr ⟨hdesc, m, Finmap.lookup_insert _, hm.trans htype, hmfits⟩
  have hcontents (m : Node) :
      ({ s with nodes := s.nodes.insert x m } : State).contentsOf x = some m.contents := by
    rw [State.contentsOf, Finmap.lookup_insert, map_some]
  have hbefore : s.contentsOf x = some n.contents := by
    rw [State.contentsOf, hn, map_some]
  have hcond (P : Node → Prop) : (∀ m, s.nodes.lookup x = some m → P m) ↔ P n := by simp [hn]
  rw [hcall, hcond]
  by_cases hneg : length < 0
  · rw [if_pos hneg]
    exact ⟨h, iff_of_true rfl (.inl hneg)⟩
  rw [if_neg hneg, hcontents, hbefore, some.injEq]
  obtain ⟨len, rfl⟩ := Int.eq_ofNat_of_zero_le (Int.not_lt.mp hneg)
  rw [Int.toNat_natCast]
  by_cases hfails : n.capacity < len ∧ alloc.succeeds = false
  · rw [nodeTruncate_of_fails hfits hfails.1 hfails.2]
    exact ⟨hreads rfl hfits, iff_of_true rfl (.inr (.inr (by exact_mod_cast hfails)))⟩
  have hroom : len ≤ n.capacity ∨ alloc.succeeds = true := by
    by_cases hle : len ≤ n.capacity
    · exact .inl hle
    · exact .inr (by simpa [Nat.not_le.mp hle] using hfails)
  obtain ⟨m, hm, hmtype, hmfits, hmsize⟩ :=
    nodeTruncate_of_room hfits (by exact_mod_cast hlength) hroom
  refine ⟨?_, fun hsame ↦ ?_, fun hharmless ↦ ?_⟩
  · rw [hm]
    exact hreads hmtype hmfits
  · -- The contents have the size of the file as their length.
    rw [hm] at hsame
    have hsize : m.size = n.size := by
      rw [← m.length_contents, ← n.length_contents, hsame]
    exact .inr (.inl (by rw [← hsize, hmsize]))
  · have hself : len = n.size := by
      rcases hharmless with hlt | heq | hno
      · exact absurd hlt hneg
      · exact_mod_cast heq
      · exact absurd (by exact_mod_cast hno) hfails
    rw [hself, nodeTruncate_self hfits]

/-- One event keeps the description, and it keeps the file as expected exactly when it is
harmless. -/
theorem Watch.step_spec {w : Watch} (h : w.vfs.readsFile a x = true) (event : WatchEvent) :
    (w.step a x event).vfs.readsFile a x = true ∧ (w.vfs.contentsOf x = w.expected →
      ((w.step a x event).vfs.contentsOf x = (w.step a x event).expected ↔
        w.Harmless a x event)) := by
  cases event with
  | other s =>
    rw [Watch.step]
    split_ifs with hs
    · exact ⟨hs, fun _ ↦ iff_of_true rfl trivial⟩
    · exact ⟨h, fun hw ↦ iff_of_true hw trivial⟩
  | own task op =>
    rw [Watch.step]
    by_cases hthrough : w.Through a task op
    case neg =>
      rw [if_neg hthrough]
      refine ⟨h, fun hw ↦ iff_of_true hw ?_⟩
      cases op with
      | ftruncate => exact fun hop ↦ absurd hop hthrough
      | _ => trivial
    rw [if_pos hthrough]
    obtain ⟨hvia, hlive⟩ := hthrough
    obtain ⟨fd, hfd, hget⟩ := bind_eq_some_iff.mp hvia
    by_cases hcut : ∃ fd length alloc, op = .ftruncate fd length alloc
    · obtain ⟨fd', length, alloc, rfl⟩ := hcut
      obtain ⟨hlength, rfl⟩ : length < 2 ^ 63 ∧ fd' = fd := by simpa [Op.through] using hfd
      obtain ⟨hreads, hiff⟩ :=
        vfsFtruncate_of_readsFile (s := w.vfs.enter task) h hget hlive hlength alloc
      refine ⟨hreads, fun hw ↦ ?_⟩
      rw [← hw]
      exact hiff.trans ⟨fun hharmless _ ↦ hharmless, fun hharmless ↦ hharmless ⟨hvia, hlive⟩⟩
    · have hop : ∀ fd length alloc, op ≠ .ftruncate fd length alloc :=
        fun fd length alloc heq ↦ hcut ⟨fd, length, alloc, heq⟩
      obtain ⟨hfiles, hnodes⟩ :=
        call_nodes_of_readsFile (s := w.vfs.enter task) h hfd hget hop
      refine ⟨readsFile_of_keeps h hfiles hnodes, fun hw ↦ iff_of_true ?_ ?_⟩
      · rw [State.contentsOf, hnodes]
        exact hw
      · cases op with
        | ftruncate fd length alloc => exact absurd rfl (hop fd length alloc)
        | _ => trivial

/-- The contents of a regular file that is open for reading change only through other descriptors
exactly when every `ftruncate` through this one is refused, names the current size, or finds no
memory. -/
theorem readOnly_keeps_contents_iff {s : State} {a x : Addr} (h : s.readsFile a x = true)
    (events : List WatchEvent) :
    Runs.Always (Watch.step a x) (fun w ↦ w.vfs.contentsOf x = w.expected)
        ⟨s, s.contentsOf x⟩ events ↔
      Runs.Meets (Watch.step a x) (Watch.Harmless a x) ⟨s, s.contentsOf x⟩ events :=
  Runs.always_iff_meets (I := fun w ↦ w.vfs.readsFile a x = true) h rfl
    (fun _ event hw ↦ (Watch.step_spec hw event).1) fun _ event hw ↦ (Watch.step_spec hw event).2

/-- The file `f` with two bytes, open for reading as descriptor 4 of the first task. -/
def openForReading : State :=
  ((⟨oneFile, fun _ ↦ true⟩ : System).run
    [(0, .openFile (some [102]) O_RDWR none (some 5)), (0, .write 3 (some [97, 98]) 0 zeroed),
      (0, .openFile (some [102]) O_RDONLY none (some 6))]).vfs

/-- Reads, a refused write, a refused `ftruncate`, and a duplicate that is read from. -/
theorem readOnly_keeps_contents_iff_reads :
    let events : List WatchEvent :=
      [.own 0 (.read 4 true 1 0), .own 0 (.write 4 (some [99]) 0 zeroed),
        .own 0 (.ftruncate 4 (-1) zeroed), .own 0 (.dup2 4 7), .own 0 (.read 7 true 1 0)]
    openForReading.readsFile 6 1 = true ∧
      (Runs.Always (Watch.step 6 1) (fun w ↦ w.vfs.contentsOf 1 = w.expected)
          ⟨openForReading, openForReading.contentsOf 1⟩ events ↔
        Runs.Meets (Watch.step 6 1) (Watch.Harmless 6 1)
          ⟨openForReading, openForReading.contentsOf 1⟩ events) := by
  intro events
  have h : openForReading.readsFile 6 1 = true := by decide +kernel
  exact ⟨h, readOnly_keeps_contents_iff h events⟩

/-- One `ftruncate` through a descriptor for reading empties the file. -/
theorem ftruncate_empties_readOnly :
    let w : Watch := ⟨openForReading, openForReading.contentsOf 1⟩
    openForReading.readsFile 6 1 = true ∧ w.Through 6 0 (.ftruncate 4 0 zeroed) ∧
      w.expected = some [97, 98] ∧
      (w.step 6 1 (.own 0 (.ftruncate 4 0 zeroed))).vfs.contentsOf 1 = some [] := by
  decide +kernel

end ToastyUnix.Vfs
