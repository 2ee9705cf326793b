import ToastyUnix.Elf.Safety
import ToastyUnix.Mm.Supply

/-!
# What a loaded executable looks like

With enough free frames a well-formed image loads without a failure, and afterwards every byte of
every segment is the byte of the file or zero (`load_exact`). Segments may share pages: `tus_alloc`
keeps the frame of a page that is mapped and its bytes (`Mm.Keeps`), and the stores of a segment
change the bytes of its own range only.
-/

namespace ToastyUnix.Elf

open Mm Paging Option Finset

/-- The file an image is read from. -/
def Source.node (src : Source) : Option Vfs.Node :=
  (src.vfs.fdGet src.fd).bind fun a ↦ (src.vfs.files.lookup a).bind fun f ↦
    (src.vfs.nodeOf f).map (·.2)

variable {src : Source} {node : Vfs.Node} {ctx : Ctx} {ehdr : Ehdr} {n i : ℕ} {ph : Phdr}
  {mm : State} {demand : Finset (ℕ × ℕ)}

/-- Reads of a regular file only depend on the node and the position. -/
theorem Source.pread_eq (hnode : src.node = some node) (nb offset : ℕ) :
    src.pread nb offset =
      if node.type ≠ .file then (-Errno.EISDIR, [])
      else if node.size ≤ offset then (0, [])
      else (((min (node.size - offset) nb : ℕ) : ℤ),
        (List.range (min (node.size - offset) nb)).map fun i ↦ node.data (offset + i)) := by
  obtain ⟨a, ha, hrest⟩ := bind_eq_some_iff.mp hnode
  obtain ⟨f, hf, hrest⟩ := bind_eq_some_iff.mp hrest
  obtain ⟨⟨x, n⟩, hn, rfl⟩ := map_eq_some_iff.mp hrest
  have hmin : (if n.size - offset < nb then n.size - offset else nb) =
      min (n.size - offset) nb := by
    rw [min_def]
    split_ifs <;> omega
  simp only [Source.pread, Vfs.vfsPread, ha, hf, hn, Bool.not_true, Bool.false_eq_true, if_false,
    Vfs.fileRead, hmin]
  split
  · rfl
  · split <;> rfl

/-- A part of the file is read completely. -/
theorem Source.pread_inside (hnode : src.node = some node) (htype : node.type = .file)
    {nb offset : ℕ} (hfit : offset + nb ≤ node.size) :
    src.pread nb offset = ((nb : ℤ), (List.range nb).map fun i ↦ node.data (offset + i)) := by
  rw [src.pread_eq hnode, if_neg (not_not.mpr htype)]
  split
  case isTrue hend =>
    obtain rfl : nb = 0 := by omega
    rfl
  case isFalse => rw [min_eq_right (by omega)]

theorem type_of_elInit (h : elInit src = .ok ctx) (hnode : src.node = some node) :
    node.type = .file := by
  by_contra htype
  have hlength := pread_of_elInit h 0 0
  rw [src.pread_eq hnode, if_pos htype] at hlength
  simp [Errno.EISDIR] at hlength

/-- The `PT_LOAD` headers among the `n` headers from number `i` on. -/
def Source.loadsFrom (src : Source) (ehdr : Ehdr) (n i : ℕ) : List Phdr :=
  ((List.range' i n).filterMap (src.phdr ehdr)).filter fun ph ↦ ph.pType = PT_LOAD

/-- The `PT_LOAD` headers of the image. -/
def Source.loads (src : Source) (ehdr : Ehdr) : List Phdr := src.loadsFrom ehdr ehdr.ePhnum 0

/-- The headers with the numbers from `i` on can be read. -/
def Source.Readable (src : Source) (ehdr : Ehdr) (i n : ℕ) : Prop :=
  ∀ j, i ≤ j → j < i + n → src.phdr ehdr j ≠ none

theorem Source.loadsFrom_succ (h : src.phdr ehdr i = some ph) :
    src.loadsFrom ehdr (n + 1) i =
      if ph.pType = PT_LOAD then ph :: src.loadsFrom ehdr n (i + 1)
      else src.loadsFrom ehdr n (i + 1) := by
  simp only [Source.loadsFrom, List.range'_succ, List.filterMap_cons, h, List.filter_cons,
    decide_eq_true_eq]

/-- `el_findphdr` goes through the `PT_LOAD` headers in order. -/
theorem Source.findPhdr_loadsFrom (h : src.Readable ehdr i n) :
    (src.findPhdr ehdr n i = .ok none ∧ src.loadsFrom ehdr n i = []) ∨
      ∃ j ph, src.findPhdr ehdr n i = .ok (some (j, ph)) ∧ i ≤ j ∧ j < i + n ∧
        src.loadsFrom ehdr n i = ph :: src.loadsFrom ehdr (i + n - (j + 1)) (j + 1) := by
  induction n generalizing i with
  | zero => exact .inl ⟨rfl, rfl⟩
  | succ n ih =>
    obtain ⟨ph, hph⟩ := ne_none_iff_exists'.mp (h i le_rfl (by omega))
    rw [Source.findPhdr, hph, Source.loadsFrom_succ hph]
    by_cases htype : ph.pType = PT_LOAD
    · refine .inr ⟨i, ph, by simp [htype], le_rfl, by omega, ?_⟩
      rw [if_pos htype, show i + (n + 1) - (i + 1) = n by omega]
    · simp only [htype, if_false]
      have hrest : src.Readable ehdr (i + 1) n := fun j hle hlt ↦ h j (by omega) (by omega)
      rcases ih hrest with hnone | ⟨j, ph', hfind, hle, hlt, hloads⟩
      · exact .inl hnone
      · refine .inr ⟨j, ph', hfind, by omega, by omega, ?_⟩
        rw [hloads, show i + (n + 1) - (j + 1) = i + 1 + n - (j + 1) by omega]

theorem Source.readable_of_findPhdr {found : Option (ℕ × Phdr)}
    (h : src.findPhdr ehdr n i = .ok found) :
    src.Readable ehdr i (found.elim n fun p ↦ p.1 + 1 - i) := by
  induction n generalizing i with
  | zero =>
    obtain rfl : none = found := by simpa [Source.findPhdr] using h
    exact fun j _ hlt ↦ by simp at hlt; omega
  | succ n ih =>
    rw [Source.findPhdr] at h
    cases hph : src.phdr ehdr i with
    | none => simp [hph] at h
    | some ph =>
      simp only [hph] at h
      split at h
      case isTrue =>
        obtain rfl : some (i, ph) = found := by simpa using h
        intro j hle hlt
        obtain rfl : j = i := by
          simp only [elim_some] at hlt
          omega
        simp [hph]
      case isFalse =>
        intro j hle hlt
        rcases Nat.eq_or_lt_of_le hle with rfl | hless
        · simp [hph]
        · refine ih h j hless ?_
          cases found with
          | none => simp only [elim_none] at hlt ⊢; omega
          | some p => simp only [elim_some] at hlt ⊢; omega

theorem Source.readable_of_initLoop {fuel : ℕ} {ctx' : Ctx}
    (h : src.initLoop fuel i ctx = .ok ctx') (hfuel : ctx.ehdr.ePhnum < i + fuel) :
    src.Readable ctx.ehdr i (ctx.ehdr.ePhnum - i) ∧ ctx'.ehdr = ctx.ehdr := by
  induction fuel generalizing i ctx with
  | zero =>
    obtain rfl : ctx = ctx' := by simpa [Source.initLoop] using h
    exact ⟨fun j _ _ ↦ by omega, rfl⟩
  | succ fuel ih =>
    rw [Source.initLoop] at h
    split at h
    case h_1 => simp at h
    case h_2 hfind =>
      obtain rfl : ctx = ctx' := by simpa using h
      exact ⟨src.readable_of_findPhdr hfind, rfl⟩
    case h_3 k ph hfind =>
      obtain ⟨hle, hlt, _⟩ := Source.findPhdr_eq_some hfind
      obtain ⟨hrest, hehdr⟩ := ih h (by dsimp only; omega)
      refine ⟨fun j hj hjlt ↦ ?_, hehdr⟩
      by_cases hpast : j ≤ k
      · exact src.readable_of_findPhdr hfind j hj (by simp only [elim_some]; omega)
      · exact hrest j (by omega) (by dsimp only; omega)

theorem Source.readable_of_elInit (h : elInit src = .ok ctx) :
    src.Readable ctx.ehdr 0 ctx.ehdr.ePhnum := by
  unfold elInit at h
  split at h
  case h_1 => simp at h
  case h_2 bytes hheader =>
    simp only at h
    split_ifs at h
    obtain ⟨hread, hehdr⟩ := src.readable_of_initLoop h (by dsimp only; omega)
    rw [hehdr]
    exact hread

/-- A store to a byte that is there succeeds and changes this byte only. -/
theorem storeByte_exact (virt : ℕ) (h : Provided (frameOf mm.cr3) demand mm)
    (hvirt : virt < 2 ^ 47) (hmapped : mm.byteAt virt ≠ none) (b : UInt8) :
    ∃ mm', mm.storeByte virt b = some mm' ∧ mm'.cr3 = mm.cr3 ∧
      Provided (frameOf mm.cr3) demand mm' ∧
      ∀ a < 2 ^ 47, mm'.byteAt a = if a = virt then some b else mm.byteAt a := by
  obtain ⟨owner, howned, hr⟩ := h.owned
  have hlow : ∀ {a}, a < 2 ^ 47 → pageOf a < 2 ^ 35 := by
    intro a ha
    rw [pageOf]
    omega
  obtain ⟨f, hf⟩ := ne_none_iff_exists'.mp (State.byteAt_ne_none.mp hmapped)
  have hstore : mm.storeByte virt b =
      some { mm with mem := mm.mem.writeByte f (virt % 4096) b } := by
    rw [State.storeByte, if_pos ⟨.inl hvirt, h.fed.writable_of_frameAt (hlow hvirt) hf⟩, hf]
    rfl
  have htwin : Twin (frameOf mm.cr3) mm { mm with mem := mm.mem.writeByte f (virt % 4096) b } := by
    refine ⟨rfl, rfl, rfl, fun {t} ht ↦ funext fun i ↦ ?_⟩
    apply mm.mem.write_frame_of_ne
    rintro rfl
    exact howned.frameAt_data hr (hlow hvirt) hf ht
  obtain ⟨howned', _⟩ := storeByte_user howned hr hvirt hstore
  refine ⟨_, hstore, rfl, ⟨⟨owner, howned', hr⟩, h.fed.congr rfl (fun w hw ↦ htwin.sameWalk hw)
    fun ht i hbit ↦ by rwa [htwin.tables ht]⟩, ?_⟩
  intro a ha
  have hframe : frameAt (mm.mem.writeByte f (virt % 4096) b) (frameOf mm.cr3) (pageOf a) =
      frameAt mm.mem (frameOf mm.cr3) (pageOf a) := (htwin.sameWalk (hlow ha)).frameAt
  simp only [State.byteAt, hframe, Memory.byte_writeByte]
  by_cases hsame : a = virt
  · subst hsame
    simp [hf]
  · rw [if_neg hsame]
    cases hfa : frameAt mm.mem (frameOf mm.cr3) (pageOf a) with
    | none => rfl
    | some g =>
      -- another page has another frame
      rw [map_some, map_some, if_neg]
      rintro ⟨rfl, hoffset⟩
      obtain ⟨_, hpage⟩ := howned.forest.frameAt_injective hr hr (hlow ha) (hlow hvirt) hfa hf
      rw [pageOf, pageOf] at hpage
      omega

theorem copy_exact (load : Load) (virt : ℕ) (bytes : List UInt8)
    (h : Provided (frameOf load.mm.cr3) demand load.mm) (hfit : virt + bytes.length ≤ 2 ^ 47)
    (hmapped : ∀ k < bytes.length, load.mm.byteAt (virt + k) ≠ none) :
    ∃ load', load.copy virt bytes = (true, load') ∧ load'.mm.cr3 = load.mm.cr3 ∧
      Provided (frameOf load.mm.cr3) demand load'.mm ∧
      ∀ a < 2 ^ 47, load'.mm.byteAt a =
        if virt ≤ a ∧ a < virt + bytes.length then bytes[a - virt]? else load.mm.byteAt a := by
  induction bytes generalizing load virt with
  | nil =>
    refine ⟨load, rfl, rfl, h, fun a _ ↦ ?_⟩
    rw [if_neg]
    simp only [List.length_nil]
    omega
  | cons b bytes ih =>
    rw [List.length_cons] at hfit hmapped
    obtain ⟨mm1, hstore, hcr3, h1, hbyte1⟩ := storeByte_exact virt h (by omega)
      (by simpa using hmapped 0 (by omega)) b
    obtain ⟨load', hcopy, hcr3', h', hbytes⟩ :=
      ih { load with mm := mm1, written := virt :: load.written } (virt + 1)
        (by rw [hcr3]; exact h1) (by omega) (by
          intro k hk
          rw [hbyte1 _ (by omega), if_neg (by omega), Nat.add_assoc, Nat.add_comm 1]
          exact hmapped (k + 1) (by omega))
    refine ⟨load', ?_, hcr3'.trans hcr3, by rw [← hcr3]; exact h', ?_⟩
    · have hwrap : wrap (virt + 1) = virt + 1 := by
        rw [wrap]
        omega
      rw [Load.copy, hstore]
      simpa only [hwrap] using hcopy
    · intro a ha
      rw [hbytes a ha, List.length_cons]
      by_cases hlater : virt + 1 ≤ a ∧ a < virt + 1 + bytes.length
      · rw [if_pos hlater, if_pos (by omega), show a - virt = a - (virt + 1) + 1 by omega,
          List.getElem?_cons_succ]
      · rw [if_neg hlater]
        dsimp only
        rw [hbyte1 a ha]
        by_cases hfirst : a = virt
        · rw [if_pos hfirst, if_pos (by omega), hfirst, Nat.sub_self, List.getElem?_cons_zero]
        · rw [if_neg hfirst, if_neg (by omega)]

namespace Phdr

/-- The pages of a segment. -/
def pages (ph : Phdr) : Finset ℕ :=
  Finset.Ico (ph.pVaddr / 4096) ((ph.pVaddr + ph.pMemsz + 4095) / 4096)

/-- The addresses of a segment. -/
def range (ph : Phdr) : Finset ℕ := Finset.Ico ph.pVaddr (ph.pVaddr + ph.pMemsz)

/-- Byte `i` of a segment of the file `node`. -/
def byte (ph : Phdr) (node : Vfs.Node) (i : ℕ) : UInt8 :=
  if i < ph.pFilesz then node.data (ph.pOffset + i) else 0

/-- A segment of a file of `size` bytes that lies in the user half. -/
structure WellFormed (ph : Phdr) (size : ℕ) : Prop where
  filesz_le : ph.pFilesz ≤ ph.pMemsz
  vaddr_ne : ph.pVaddr ≠ 0
  user : ph.pVaddr + ph.pMemsz ≤ USER_HALF_MAX + 1
  inside : ph.pOffset + ph.pFilesz ≤ size

variable {ph : Phdr} {size : ℕ}

theorem WellFormed.segmentPages (h : ph.WellFormed size) :
    segmentPages ph.pVaddr ph.pMemsz =
      (ph.pVaddr + ph.pMemsz + 4095) / 4096 - ph.pVaddr / 4096 := by
  have huser := h.user
  rw [USER_HALF_MAX] at huser
  rw [Mm.segmentPages, pageUp, pageDown, pageDown, wrap]
  omega

/-- The pages that `tus_alloc` visits. -/
theorem WellFormed.pageOf_eq (h : ph.WellFormed size) {k : ℕ}
    (hk : k < Mm.segmentPages ph.pVaddr ph.pMemsz) :
    pageOf (pageDown ph.pVaddr + 4096 * k) = ph.pVaddr / 4096 + k ∧
      ph.pVaddr / 4096 + k ∈ ph.pages := by
  have huser := h.user
  rw [USER_HALF_MAX] at huser
  rw [h.segmentPages] at hk
  rw [pageOf, pageDown, pages, mem_Ico]
  omega

theorem WellFormed.userPages (h : ph.WellFormed size) :
    UserPages (pageDown ph.pVaddr) (Mm.segmentPages ph.pVaddr ph.pMemsz) := by
  apply userPages_of_le
  have huser := h.user
  rw [USER_HALF_MAX] at huser
  rw [h.segmentPages, pageDown]
  omega

end Phdr

/-- `tus_alloc` maps the pages of a segment and keeps the bytes that are there. -/
theorem tusAlloc_exact {size : ℕ} (hph : ph.WellFormed size)
    (h : Provided (frameOf mm.cr3) demand mm)
    (hdemand : ∀ v ∈ ph.pages, ∀ m ≤ 3, (v, m + 1) ∈ demand) :
    ∃ mm', mm.tusAlloc mm.cr3 ph.pVaddr ph.pMemsz = (ph.pVaddr, mm') ∧ mm'.cr3 = mm.cr3 ∧
      Provided (frameOf mm.cr3) demand mm' ∧
      (∀ i < ph.pMemsz, mm'.byteAt (ph.pVaddr + i) ≠ none) ∧
      ∀ a b, a < 2 ^ 47 → mm.byteAt a = some b → mm'.byteAt a = some b := by
  have halign : pageDown ph.pVaddr % 4096 = 0 := by
    rw [pageDown]
    omega
  obtain ⟨mm', hloop, h', hkeep, hmapped⟩ := h.tusAllocLoop _ halign hph.userPages (by
    intro k hk m hm
    obtain ⟨hpage, hin⟩ := hph.pageOf_eq hk
    rw [hpage]
    exact hdemand _ hin m hm)
  have hcr3 : mm'.cr3 = mm.cr3 := by
    have hspace := mm.sameSpace_tusAllocLoop mm.cr3 (segmentPages ph.pVaddr ph.pMemsz)
      (pageDown ph.pVaddr)
    rw [hloop] at hspace
    exact hspace.cr3
  refine ⟨mm', by rw [State.tusAlloc, hloop], hcr3, h', ?_, fun a b ha ↦ hkeep.byteAt hcr3 ha⟩
  intro i hi
  have huser := hph.user
  rw [USER_HALF_MAX] at huser
  have hk : (ph.pVaddr + i) / 4096 - ph.pVaddr / 4096 < segmentPages ph.pVaddr ph.pMemsz := by
    rw [hph.segmentPages]
    omega
  have hpage := hmapped _ hk
  rw [(hph.pageOf_eq hk).1] at hpage
  rw [State.byteAt_ne_none, hcr3, pageOf, show (ph.pVaddr + i) / 4096 % 2 ^ 36 =
      ph.pVaddr / 4096 + ((ph.pVaddr + i) / 4096 - ph.pVaddr / 4096) by omega]
  exact hpage

/-- One pass of the loop of `el_load`. -/
theorem segment_exact {load : Load} (hnode : src.node = some node) (htype : node.type = .file)
    (hph : ph.WellFormed node.size) (h : Provided (frameOf load.mm.cr3) demand load.mm)
    (hdemand : ∀ v ∈ ph.pages, ∀ m ≤ 3, (v, m + 1) ∈ demand) :
    ∃ load', Load.segment src load.mm.cr3 ph load = (none, load') ∧
      load'.mm.cr3 = load.mm.cr3 ∧ Provided (frameOf load.mm.cr3) demand load'.mm ∧
      (∀ i < ph.pMemsz, load'.mm.byteAt (ph.pVaddr + i) = some (ph.byte node i)) ∧
      ∀ a b, a < 2 ^ 47 → a ∉ ph.range → load.mm.byteAt a = some b →
        load'.mm.byteAt a = some b := by
  have huser := hph.user
  have hle := hph.filesz_le
  rw [USER_HALF_MAX] at huser
  obtain ⟨mm1, halloc, hcr1, h1, hmapped, hkept⟩ := tusAlloc_exact hph h hdemand
  have hread := src.pread_inside hnode htype hph.inside
  have hwhole : (ph.pFilesz : ℤ) = toLong ph.pFilesz := by
    rw [toLong, if_pos (by omega)]
  -- the bytes of the file
  obtain ⟨load2, hcopy, hcr2, h2, hbytes2⟩ := copy_exact
    { load with mm := mm1, segments := (ph.pVaddr, ph.pMemsz) :: load.segments }
    ph.pVaddr ((List.range ph.pFilesz).map fun i ↦ node.data (ph.pOffset + i))
    (by rw [hcr1]; exact h1) (by simp; omega)
    (by simpa using fun k hk ↦ hmapped k (by omega))
  simp only [List.length_map, List.length_range] at hbytes2
  have hcr2' : load2.mm.cr3 = load.mm.cr3 := hcr2.trans hcr1
  -- the zeros behind them
  obtain ⟨load3, hclear, hcr3, h3, hbytes3⟩ := copy_exact load2
    (ph.pVaddr + ph.pFilesz) (List.replicate (ph.pMemsz - ph.pFilesz) 0)
    (by rw [hcr2]; exact h2) (by simp; omega) (by
      intro k hk
      rw [List.length_replicate] at hk
      rw [hbytes2 _ (by omega), if_neg (by omega), Nat.add_assoc]
      exact hmapped _ (by omega))
  simp only [List.length_replicate] at hbytes3
  rw [← Load.clear_eq_copy] at hclear
  have hstart : wrap (ph.pVaddr + ph.pFilesz) = ph.pVaddr + ph.pFilesz := by
    rw [wrap]
    omega
  have hlength : wrap (ph.pMemsz + (2 ^ 64 - ph.pFilesz)) = ph.pMemsz - ph.pFilesz := by
    rw [wrap]
    omega
  refine ⟨load3, ?_, hcr3.trans hcr2', by rw [← hcr2']; exact h3, ?_, ?_⟩
  · rw [Load.segment, halloc]
    dsimp only
    rw [if_neg hph.vaddr_ne, hread]
    dsimp only
    rw [hcopy]
    dsimp only
    rw [if_neg (not_not.mpr hwhole), hstart, hlength, hclear]
  · intro i hi
    rw [hbytes3 _ (by omega), Phdr.byte]
    by_cases hfile : i < ph.pFilesz
    · rw [if_neg (by omega), hbytes2 _ (by omega), if_pos (by omega), if_pos hfile]
      simp [hfile]
    · rw [if_pos (by omega), if_neg hfile, List.getElem?_replicate_of_lt (by omega)]
  · intro a b ha hout hb
    rw [Phdr.range, mem_Ico] at hout
    rw [hbytes3 a ha, if_neg (by omega), hbytes2 a ha, if_neg (by omega)]
    exact hkept a b ha hb

/-- The loop of `el_load` from header `i` on: stored segments have their bytes, and the rest of the
space is as before. -/
theorem loop_exact (hnode : src.node = some node) (htype : node.type = .file) (fuel i : ℕ)
    (load : Load) (hread : src.Readable ehdr i (ehdr.ePhnum - i)) (hfuel : ehdr.ePhnum < i + fuel)
    (hphs : ∀ ph ∈ src.loadsFrom ehdr (ehdr.ePhnum - i) i, ph.WellFormed node.size)
    (hdisjoint : (src.loadsFrom ehdr (ehdr.ePhnum - i) i).Pairwise fun ph ph' ↦
      Disjoint ph.range ph'.range)
    (hdemand : ∀ ph ∈ src.loadsFrom ehdr (ehdr.ePhnum - i) i, ∀ v ∈ ph.pages, ∀ m ≤ 3,
      (v, m + 1) ∈ demand) (h : Provided (frameOf load.mm.cr3) demand load.mm) :
    ∃ load', Load.loop src load.mm.cr3 ehdr fuel i load = (.returned .EL_OK, load') ∧
      load'.mm.cr3 = load.mm.cr3 ∧
      (∀ ph ∈ src.loadsFrom ehdr (ehdr.ePhnum - i) i, ∀ k < ph.pMemsz,
        load'.mm.byteAt (ph.pVaddr + k) = some (ph.byte node k)) ∧
      ∀ a b, a < 2 ^ 47 → (∀ ph ∈ src.loadsFrom ehdr (ehdr.ePhnum - i) i, a ∉ ph.range) →
        load.mm.byteAt a = some b → load'.mm.byteAt a = some b := by
  induction fuel generalizing i load with
  | zero =>
    have hnone : src.loadsFrom ehdr (ehdr.ePhnum - i) i = [] := by
      rw [show ehdr.ePhnum - i = 0 by omega]
      rfl
    exact ⟨load, rfl, rfl, by simp [hnone], fun a b _ _ hb ↦ hb⟩
  | succ fuel ih =>
    rcases Source.findPhdr_loadsFrom hread with ⟨hfind, hnone⟩ | ⟨j, ph, hfind, hle, hlt, hloads⟩
    · refine ⟨load, ?_, rfl, by simp [hnone], fun a b _ _ hb ↦ hb⟩
      rw [Load.loop, hfind]
    · rw [show i + (ehdr.ePhnum - i) - (j + 1) = ehdr.ePhnum - (j + 1) by omega] at hloads
      rw [hloads] at hphs hdisjoint hdemand ⊢
      rw [List.forall_mem_cons] at hphs hdemand
      rw [List.pairwise_cons] at hdisjoint
      obtain ⟨load1, hsegment, hcr1, h1, hbytes1, hkept1⟩ :=
        segment_exact hnode htype hphs.1 h hdemand.1
      obtain ⟨load2, hloop, hcr2, hbytes2, hkept2⟩ := ih (j + 1) load1
        (fun k hk hklt ↦ hread k (by omega) (by omega)) (by omega) hphs.2 hdisjoint.2 hdemand.2
        (by rw [hcr1]; exact h1)
      have huser := hphs.1.user
      rw [USER_HALF_MAX] at huser
      refine ⟨load2, ?_, hcr2.trans hcr1, ?_, ?_⟩
      · rw [Load.loop, hfind]
        dsimp only
        rw [hsegment]
        dsimp only
        rw [← hcr1]
        exact hloop
      · rw [List.forall_mem_cons]
        refine ⟨fun k hk ↦ ?_, hbytes2⟩
        -- the later segments lie elsewhere
        refine hkept2 _ _ (by omega) (fun ph' hph' hin ↦ ?_) (hbytes1 k hk)
        have hthis : ph.pVaddr + k ∈ ph.range := by
          rw [Phdr.range, mem_Ico]
          omega
        exact disjoint_left.mp (hdisjoint.1 ph' hph') hthis hin
      · intro a b ha hout hb
        rw [List.forall_mem_cons] at hout
        exact hkept2 a b ha hout.2 (hkept1 a b ha hout.1 hb)

/-- The pages of all segments. -/
def imagePages (phs : List Phdr) : Finset ℕ := phs.toFinset.biUnion Phdr.pages

/-- **Loading is exact.** Let `el_init` accept a file whose segments are well-formed and disjoint,
and let there be a free frame for every page of the segments and every table on the way. Then
`el_load` into a new space returns `EL_OK`, and afterwards every segment holds its bytes of the file
followed by zeros. -/
theorem load_exact {src : Source} {ctx : Ctx} {node : Vfs.Node} {mm : State} {owner : ℕ → Owner}
    (h : Owned mm owner) (hzero : ¬mm.pmm.IsFree 0) (hclone : mm.vmmSpaceClone.1 ≠ 0)
    (hinit : elInit src = .ok ctx) (hnode : src.node = some node)
    (hphs : ∀ ph ∈ src.loads ctx.ehdr, ph.WellFormed node.size)
    (hdisjoint : (src.loads ctx.ehdr).Pairwise fun ph ph' ↦ Disjoint ph.range ph'.range)
    (hframes : framesFor (imagePages (src.loads ctx.ehdr)) ≤ mm.newSpace.pmm.freeFrames.card) :
    (loadImage src mm.newSpace).1 = .returned .EL_OK ∧
      (loadImage src mm.newSpace).2.mm.cr3 = mm.newSpace.cr3 ∧
      ∀ ph ∈ src.loads ctx.ehdr, ∀ i < ph.pMemsz,
        (loadImage src mm.newSpace).2.mm.byteAt (ph.pVaddr + i) =
          some (if i < ph.pFilesz then node.data (ph.pOffset + i) else 0) := by
  have hpages : ∀ v ∈ imagePages (src.loads ctx.ehdr), v < 2 ^ 35 := by
    intro v hv
    obtain ⟨ph, hph, hin⟩ := mem_biUnion.mp hv
    have huser := (hphs ph (List.mem_toFinset.mp hph)).user
    rw [USER_HALF_MAX] at huser
    rw [Phdr.pages, mem_Ico] at hin
    omega
  have hdemand : ∀ ph ∈ src.loads ctx.ehdr, ∀ v ∈ ph.pages, ∀ m ≤ 3,
      (v, m + 1) ∈ demandOf (imagePages (src.loads ctx.ehdr)) := by
    intro ph hph v hv m hm
    exact mem_demandOf (mem_biUnion.mpr ⟨ph, List.mem_toFinset.mpr hph, hv⟩) hm
  have hprovided := provided_newSpace h hzero hclone hpages hframes
  obtain ⟨load', hloop, hcr3, hbytes, _⟩ :=
    loop_exact hnode (type_of_elInit hinit hnode) (ctx.ehdr.ePhnum + 1) 0
      { mm := mm.newSpace, segments := [], written := [] }
      (src.readable_of_elInit hinit) (by omega) hphs hdisjoint hdemand hprovided
  have hload : loadImage src mm.newSpace = (.returned .EL_OK, load') := by
    rw [loadImage, hinit]
    exact hloop
  rw [hload]
  exact ⟨rfl, hcr3, hbytes⟩

/-- A program header of type `PT_LOAD`. -/
def loadHeader (offset vaddr filesz memsz : ℕ) : List UInt8 :=
  encode 4 PT_LOAD ++ encode 4 7 ++ encode 8 offset ++ encode 8 vaddr ++ encode 8 vaddr ++
    encode 8 filesz ++ encode 8 memsz ++ encode 8 4096

/-- Two segments in one page, each with one byte in the file and zeros behind it. -/
def twoSegmentImage : List UInt8 :=
  elfMagic ++ [2, 1, 1] ++ List.replicate 9 0 ++ encode 2 ET_EXEC ++ encode 2 EM_AMD64 ++
    encode 4 EV_CURRENT ++ encode 8 0x400000 ++ encode 8 64 ++ List.replicate 14 0 ++
    encode 2 56 ++ encode 2 2 ++ List.replicate 6 0 ++
    loadHeader 176 0x400000 1 4 ++ loadHeader 177 0x400010 1 8 ++ [0xcc, 0x11]

/-- The file with the image. -/
def twoSegmentNode : Vfs.Node :=
  { name := [], type := .file, mode := 0o755, data := fun i ↦ twoSegmentImage.getD i 0,
    size := 178, capacity := 178, ops := none, parent := none, sibling := none, child := none }

def twoSegmentSource : Source :=
  { oneByteSource 0 with
    vfs := { (oneByteSource 0).vfs with nodes := Finmap.singleton 1 twoSegmentNode } }

/-- The two segments that share a page. -/
theorem load_exact_twoSegments :
    (loadImage twoSegmentSource UserSystem.smallBoot.mm.newSpace).1 = .returned .EL_OK ∧
      (loadImage twoSegmentSource UserSystem.smallBoot.mm.newSpace).2.mm.byteAt 0x400000 =
        some 0xcc ∧
      (loadImage twoSegmentSource UserSystem.smallBoot.mm.newSpace).2.mm.byteAt 0x400003 =
        some 0 ∧
      (loadImage twoSegmentSource UserSystem.smallBoot.mm.newSpace).2.mm.byteAt 0x400010 =
        some 0x11 := by
  obtain ⟨owner, howned, _⟩ := UserSystem.booted_smallBoot.invariant
  have hinit : elInit twoSegmentSource =
      .ok { ehdr := Ehdr.decode twoSegmentImage, memsz := 0x400018, align := 4096 } := by
    decide +kernel
  have hloads : twoSegmentSource.loads (Ehdr.decode twoSegmentImage) =
      [⟨1, 176, 0x400000, 1, 4, 4096⟩, ⟨1, 177, 0x400010, 1, 8, 4096⟩] := by
    decide +kernel
  obtain ⟨hok, _, hbytes⟩ := load_exact howned (by decide +kernel) (by decide +kernel) hinit
    (show twoSegmentSource.node = some twoSegmentNode from rfl)
    (by
      rw [hloads]
      intro ph hph
      rcases List.mem_pair.mp hph with rfl | rfl
      · exact ⟨by decide, by decide, by decide, by decide⟩
      · exact ⟨by decide, by decide, by decide, by decide⟩)
    (by
      rw [hloads]
      decide +kernel)
    (by
      rw [hloads]
      decide +kernel)
  rw [hloads] at hbytes
  have hfirst := hbytes _ List.mem_cons_self
  have hsecond := hbytes _ (List.mem_cons_of_mem _ List.mem_cons_self)
  exact ⟨hok, hfirst 0 (by decide), hfirst 3 (by decide), hsecond 0 (by decide)⟩

end ToastyUnix.Elf
