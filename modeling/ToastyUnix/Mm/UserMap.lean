import ToastyUnix.Core.Errno
import ToastyUnix.Mm.Ownership

/-!
# Mapping user memory

The functions that map pages in the user half of an address space: `sys_mmap` and `sys_munmap`,
the segments of an executable (`tus_alloc`) and the user stack (`task_create_user` and
`exec_build_stack`). Each is a loop over pages that may stop when the frame allocator is empty.
Every one of them keeps the frames owned (`Mm.Owned`) and changes the mappings of its own pages in
its own space only.
-/

namespace ToastyUnix.Mm

open Paging Errno

def USER_HALF_MAX : ℕ := 0x00007fffffffffff
def MMAP_CURSOR_START : ℕ := 0x40000000
def MAP_ANONYMOUS : BitVec 64 := 0x20
def USER_STACK_BASE : ℕ := 0x60000000
def USER_STACK_SIZE : ℕ := 65536

/-- A sum of `uint64_t` values. -/
def wrap (n : ℕ) : ℕ := n % 2 ^ 64

/-- `n & ~0xFFF`. -/
def pageDown (n : ℕ) : ℕ := n / 4096 * 4096

/-- `(n + 0xFFF) & ~0xFFF`. -/
def pageUp (n : ℕ) : ℕ := pageDown (wrap (n + 0xFFF))

/-- The number of pages that the loop of `tus_alloc` visits, zero when the segment's end wraps below
its start. -/
def segmentPages (virt size : ℕ) : ℕ := (pageUp (virt + size) - pageDown virt) / 4096

namespace State

/-- The loop of `sys_munmap` over `n` pages. -/
def munmapLoop (s : State) (cr3 : BitVec 64) : ℕ → ℕ → State
  | 0, _ => s
  | n + 1, page =>
    let (phys, s) := s.vmmTranslateIn cr3 page
    if phys = 0 then s.munmapLoop cr3 n (page + 4096)
    else
      let s := s.vmmUnmapPageIn cr3 page
      let s := s.freeFrame (phys &&& ~~~0xFFF)
      s.munmapLoop cr3 n (page + 4096)

/-- `sys_munmap` of a task in the space `cr3`. -/
def sysMunmap (s : State) (cr3 : BitVec 64) (addr len : ℤ) : ℤ × State :=
  let start := (addr % 2 ^ 64).toNat
  if len ≤ 0 ∨ start % 4096 ≠ 0 then (-EINVAL, s)
  else
    let bytes := pageUp len.toNat
    if USER_HALF_MAX < wrap (start + bytes) ∨ wrap (start + bytes) < start then (-EINVAL, s)
    else (0, s.munmapLoop cr3 (bytes / 4096) start)

/-- The loop of `sys_mmap` over the `n` pages left, with the rollback from `start` on when it fails.
-/
def mmapLoop (s : State) (cr3 : BitVec 64) (start : ℕ) : ℕ → ℕ → Bool × State
  | 0, _ => (true, s)
  | n + 1, page =>
    let (frame, s) := s.allocFrame
    if frame = 0 then (false, (s.sysMunmap cr3 start (page - start : ℕ)).2)
    else
      let s := s.clearFrame frame
      let (status, s) := s.vmmMapPageIn cr3 page frame USER_PAGE
      if status ≠ 0 then
        (false, ((s.freeFrame frame).sysMunmap cr3 start (page - start : ℕ)).2)
      else s.mmapLoop cr3 start n (page + 4096)

/-- `sys_mmap` in the space `cr3` with the cursor `mmapCur`: the result and the new cursor. -/
def sysMmap (s : State) (cr3 : BitVec 64) (mmapCur : ℕ) (addr len : ℤ) (flags : BitVec 64) :
    ℤ × ℕ × State :=
  if len ≤ 0 then (-EINVAL, mmapCur, s)
  else if flags &&& MAP_ANONYMOUS = 0 then (-EINVAL, mmapCur, s)
  else
    let start := if addr % 2 ^ 64 = 0 then mmapCur else (addr % 2 ^ 64).toNat
    if start % 4096 ≠ 0 then (-EINVAL, mmapCur, s)
    else
      let bytes := pageUp len.toNat
      if USER_HALF_MAX < wrap (start + bytes) ∨ wrap (start + bytes) < start then
        (-ENOMEM, mmapCur, s)
      else
        match s.mmapLoop cr3 start (bytes / 4096) start with
        | (false, s) => (-ENOMEM, mmapCur, s)
        | (true, s) => (start, start + bytes, s)

/-- The loop of `task_create_user` and `exec_build_stack` that maps `n` stack pages. -/
def mapStackLoop (s : State) (cr3 : BitVec 64) : ℕ → ℕ → Bool × State
  | 0, _ => (true, s)
  | n + 1, page =>
    let (frame, s) := s.allocFrame
    if frame = 0 then (false, s)
    else
      let s := s.clearFrame frame
      let (status, s) := s.vmmMapPageIn cr3 page frame USER_PAGE
      if status ≠ 0 then (false, s) else s.mapStackLoop cr3 n (page + 4096)

/-- The user stack of a new program. -/
def mapStack (s : State) (cr3 : BitVec 64) : Bool × State :=
  s.mapStackLoop cr3 (USER_STACK_SIZE / 4096) USER_STACK_BASE

/-- The frame `tus_alloc` takes for a page: the one it is mapped to, or a new one. -/
def segmentFrame (s : State) (cr3 : BitVec 64) (page : ℕ) : BitVec 64 × State :=
  let (frame, s) := s.vmmTranslateIn cr3 page
  if frame = 0 then s.allocFrame else (frame, s)

/-- The loop of `tus_alloc` over `n` pages. -/
def tusAllocLoop (s : State) (cr3 : BitVec 64) : ℕ → ℕ → Bool × State
  | 0, _ => (true, s)
  | n + 1, page =>
    let (frame, s) := s.segmentFrame cr3 page
    if frame = 0 then (false, s)
    else
      let (status, s) := s.vmmMapPageIn cr3 page (frame &&& ~~~0xFFF) USER_PAGE
      if status ≠ 0 then (false, s) else s.tusAllocLoop cr3 n (page + 4096)

/-- `tus_alloc`: the address of the segment, or 0. -/
def tusAlloc (s : State) (cr3 : BitVec 64) (virt size : ℕ) : ℕ × State :=
  match s.tusAllocLoop cr3 (segmentPages virt size) (pageDown virt) with
  | (false, s) => (0, s)
  | (true, s) => (virt, s)

section

variable (s : State) (cr3 : BitVec 64)

theorem sameSpace_mapStackLoop (n page : ℕ) :
    SameSpace s (s.mapStackLoop cr3 n page).2 := by
  induction n generalizing s page with
  | zero => exact .refl s
  | succ n ih =>
    simp only [mapStackLoop]
    have halloc := s.sameSpace_allocFrame
    split
    · exact halloc
    · have hclear : SameSpace s (s.allocFrame.2.clearFrame s.allocFrame.1) := ⟨rfl, rfl⟩
      have hmap := hclear.trans (sameSpace_vmmMapPageIn _ cr3 page s.allocFrame.1 USER_PAGE)
      split
      · exact hmap
      · exact hmap.trans (ih _ _)

theorem sameSpace_segmentFrame (page : ℕ) :
    SameSpace s (s.segmentFrame cr3 page).2 := by
  have htranslate := s.sameSpace_vmmTranslateIn cr3 page
  simp only [segmentFrame]
  split
  · exact htranslate.trans (sameSpace_allocFrame _)
  · exact htranslate

theorem sameSpace_tusAllocLoop (n page : ℕ) :
    SameSpace s (s.tusAllocLoop cr3 n page).2 := by
  induction n generalizing s page with
  | zero => exact .refl s
  | succ n ih =>
    simp only [tusAllocLoop]
    have hframe := s.sameSpace_segmentFrame cr3 page
    split
    · exact hframe
    · have hmap := hframe.trans (sameSpace_vmmMapPageIn _ cr3 page
        ((s.segmentFrame cr3 page).1 &&& ~~~0xFFF) USER_PAGE)
      split
      · exact hmap
      · exact hmap.trans (ih _ _)

theorem sameSpace_tusAlloc (virt size : ℕ) :
    SameSpace s (s.tusAlloc cr3 virt size).2 := by
  have hloop := s.sameSpace_tusAllocLoop cr3 (segmentPages virt size) (pageDown virt)
  unfold tusAlloc
  split
  case h_1 s' heq =>
    rw [heq] at hloop
    exact hloop
  case h_2 s' heq =>
    rw [heq] at hloop
    exact hloop

end

end State

/-- The `n` pages from address `page` on. -/
def PagesFrom (page n v : ℕ) : Prop := ∃ k < n, v = pageOf (page + 4096 * k)

variable {page n v : ℕ}

/-- The `n` pages from address `page` on belong to the user half. -/
def UserPages (page n : ℕ) : Prop := ∀ k < n, pageOf (page + 4096 * k) < 2 ^ 35

theorem UserPages.head (h : UserPages page (n + 1)) : pageOf page < 2 ^ 35 := by
  simpa using h 0 (by omega)

theorem UserPages.tail (h : UserPages page (n + 1)) : UserPages (page + 4096) n := by
  intro k hk
  have hnext := h (k + 1) (by omega)
  rwa [show page + 4096 * (k + 1) = page + 4096 + 4096 * k by ring] at hnext

theorem pagesFrom_head (h : v = pageOf page) : PagesFrom page (n + 1) v :=
  ⟨0, by omega, by simpa using h⟩

theorem pagesFrom_tail (h : PagesFrom (page + 4096) n v) : PagesFrom page (n + 1) v := by
  obtain ⟨k, hk, rfl⟩ := h
  exact ⟨k + 1, by omega, by rw [show page + 4096 * (k + 1) = page + 4096 + 4096 * k by ring]⟩

theorem userPages_of_le (h : page + 4096 * n ≤ 2 ^ 47) : UserPages page n := by
  intro k hk
  rw [pageOf]
  omega

theorem pageUp_mod (n : ℕ) : pageUp n % 4096 = 0 := by
  rw [pageUp, pageDown]
  omega

/-- Address ranges that `sys_mmap` and `sys_munmap` accept lie in the user half. -/
theorem userPages_of_range {start bytes : ℕ} (hstart : start < 2 ^ 64) (hbytes : bytes < 2 ^ 64)
    (hrange : ¬(USER_HALF_MAX < wrap (start + bytes) ∨ wrap (start + bytes) < start)) :
    start + bytes ≤ USER_HALF_MAX := by
  rw [wrap] at hrange
  omega

/-- The address that `sys_mmap` maps from. -/
def mmapStart (mmapCur : ℕ) (addr : ℤ) : ℕ :=
  if addr % 2 ^ 64 = 0 then mmapCur else (addr % 2 ^ 64).toNat

/-- `sys_mmap` refuses its arguments, its loop fails, or it returns the start of the pages. -/
theorem State.sysMmap_cases (s : State) (cr3 : BitVec 64) {mmapCur : ℕ} (hcur : mmapCur < 2 ^ 64)
    (addr len : ℤ) (flags : BitVec 64) :
    (∃ error < 0, s.sysMmap cr3 mmapCur addr len flags = (error, mmapCur, s)) ∨
    (mmapStart mmapCur addr % 4096 = 0 ∧ mmapStart mmapCur addr + pageUp len.toNat ≤ USER_HALF_MAX ∧
      ∃ s', (s.mmapLoop cr3 (mmapStart mmapCur addr) (pageUp len.toNat / 4096)
          (mmapStart mmapCur addr) = (false, s') ∧
        s.sysMmap cr3 mmapCur addr len flags = (-ENOMEM, mmapCur, s')) ∨
      (s.mmapLoop cr3 (mmapStart mmapCur addr) (pageUp len.toNat / 4096)
          (mmapStart mmapCur addr) = (true, s') ∧ s.sysMmap cr3 mmapCur addr len flags =
          (((mmapStart mmapCur addr : ℕ) : ℤ), mmapStart mmapCur addr + pageUp len.toNat, s'))) := by
  have hlt : mmapStart mmapCur addr < 2 ^ 64 := by
    rw [mmapStart]
    split
    · exact hcur
    · omega
  have hbytes : pageUp len.toNat < 2 ^ 64 := by
    rw [pageUp, pageDown, wrap]
    omega
  have hstart : (if addr % 2 ^ 64 = 0 then mmapCur else (addr % 2 ^ 64).toNat) =
      mmapStart mmapCur addr := rfl
  generalize hresult : s.sysMmap cr3 mmapCur addr len flags = result
  simp only [State.sysMmap, hstart] at hresult
  split at hresult
  case isTrue => exact .inl ⟨_, by decide, hresult.symm⟩
  case isFalse =>
  split at hresult
  case isTrue => exact .inl ⟨_, by decide, hresult.symm⟩
  case isFalse =>
  split at hresult
  case isTrue => exact .inl ⟨_, by decide, hresult.symm⟩
  case isFalse halign =>
  split at hresult
  case isTrue => exact .inl ⟨_, by decide, hresult.symm⟩
  case isFalse hrange =>
    refine .inr ⟨by omega, userPages_of_range hlt hbytes hrange, ?_⟩
    split at hresult
    case h_1 s' heq => exact ⟨s', .inl ⟨heq, hresult.symm⟩⟩
    case h_2 s' heq => exact ⟨s', .inr ⟨heq, hresult.symm⟩⟩

/-- `s'` is reached from `s` by operations that keep frames owned and change mappings of `pages` in
`cr3` only. -/
def MapsWithin (s s' : State) (owner : ℕ → Owner) (cr3 : BitVec 64) (pages : ℕ → Prop) : Prop :=
  ∃ owner', Owned s' owner' ∧ Edits s s' owner owner' (frameOf cr3) pages

namespace MapsWithin

variable {s s' s'' : State} {owner : ℕ → Owner} {cr3 : BitVec 64} {pages pages' : ℕ → Prop}

theorem refl (h : Owned s owner) : MapsWithin s s owner cr3 pages :=
  ⟨owner, h, (Extends.refl s owner).edits _ _⟩

theorem mono (h : MapsWithin s s' owner cr3 pages) (hpages : ∀ v, pages v → pages' v) :
    MapsWithin s s' owner cr3 pages' := by
  obtain ⟨owner', howned, hedits⟩ := h
  exact ⟨owner', howned, hedits.mono hpages⟩

theorem cons {owner' : ℕ → Owner} (h : Edits s s' owner owner' (frameOf cr3) pages)
    (h' : MapsWithin s' s'' owner' cr3 pages) : MapsWithin s s'' owner cr3 pages := by
  obtain ⟨owner'', howned, hedits⟩ := h'
  exact ⟨owner'', howned, h.trans hedits⟩

end MapsWithin

namespace Owned

variable {s : State} {owner : ℕ → Owner} {cr3 : BitVec 64} {page : ℕ}

theorem munmapLoop (n : ℕ) (h : Owned s owner) (hr : owner (frameOf cr3) = .top)
    (halign : page % 4096 = 0) (hpages : UserPages page n) :
    MapsWithin s (s.munmapLoop cr3 n page) owner cr3 (PagesFrom page n) := by
  induction n generalizing s owner page with
  | zero => exact .refl h
  | succ n ih =>
    have hrest : ∀ s' owner', Owned s' owner' → owner' (frameOf cr3) = .top →
        MapsWithin s' (s'.munmapLoop cr3 n (page + 4096)) owner' cr3 (PagesFrom page (n + 1)) :=
      fun s' owner' h' hr' ↦
        (ih h' hr' (by omega) hpages.tail).mono fun v ↦ pagesFrom_tail
    obtain ⟨owner1, h1, hext, htranslate⟩ := h.vmmTranslateIn hr hpages.head halign
    have hr1 := hext.keeps.top hr
    apply MapsWithin.cons (hext.edits _ _)
    simp only [State.munmapLoop]
    split
    case isTrue => exact hrest _ _ h1 hr1
    case isFalse hne =>
      obtain ⟨u, g, hphys, hlast, hg⟩ := htranslate hne
      obtain ⟨owner2, h2, hedits, _⟩ := h1.vmmUnmapPageIn hr1 hpages.head hlast hg
      rw [hphys, ofFrame_and_not_low]
      exact .cons (hedits.mono fun v ↦ pagesFrom_head) (hrest _ _ h2 (hedits.tops hr1))

theorem sysMunmap (addr len : ℤ) (h : Owned s owner) (hr : owner (frameOf cr3) = .top) :
    MapsWithin s (s.sysMunmap cr3 addr len).2 owner cr3
      (PagesFrom (addr % 2 ^ 64).toNat (pageUp len.toNat / 4096)) := by
  unfold State.sysMunmap
  simp only
  split
  case isTrue => exact .refl h
  case isFalse hargs =>
    split
    case isTrue => exact .refl h
    case isFalse hrange =>
      have hbytes : pageUp len.toNat < 2 ^ 64 := by
        rw [pageUp, pageDown, wrap]
        omega
      have hle := userPages_of_range (by omega) hbytes hrange
      rw [USER_HALF_MAX] at hle
      exact h.munmapLoop _ hr (by omega) (userPages_of_le (by omega))

/-- One pass of the loops that map fresh pages: the page is mapped, or only new tables remain. -/
theorem mapFresh {g : ℕ} (h : Owned s owner) (hr : owner (frameOf cr3) = .top)
    (hv : pageOf page < 2 ^ 35) (halign : page % 4096 = 0) (hg : Spare s owner g) :
    ∃ owner', Owned ((s.clearFrame (ofFrame g)).vmmMapPageIn cr3 page (ofFrame g) USER_PAGE).2
        owner' ∧
      Edits s ((s.clearFrame (ofFrame g)).vmmMapPageIn cr3 page (ofFrame g) USER_PAGE).2
        owner owner' (frameOf cr3) (· = pageOf page) ∧
      (((s.clearFrame (ofFrame g)).vmmMapPageIn cr3 page (ofFrame g) USER_PAGE).1 ≠ 0 →
        Extends s ((s.clearFrame (ofFrame g)).vmmMapPageIn cr3 page (ofFrame g) USER_PAGE).2
          owner owner') := by
  obtain ⟨hclear, hext⟩ := h.clearFrame hg
  have hg' := hext.spare hg
  obtain ⟨owner', howned, hedits, _, hfail⟩ := hclear.vmmMapPageIn hr hv halign (.inl hg')
  exact ⟨owner', howned, (hext.edits _ _).trans hedits, fun hne ↦ hext.trans (hfail hne)⟩

theorem mapStackLoop (n : ℕ) (h : Owned s owner) (hr : owner (frameOf cr3) = .top)
    (halign : page % 4096 = 0) (hpages : UserPages page n) :
    MapsWithin s (s.mapStackLoop cr3 n page).2 owner cr3 (PagesFrom page n) := by
  induction n generalizing s owner page with
  | zero => exact .refl h
  | succ n ih =>
    obtain ⟨halloc, hext⟩ := h.allocFrame
    apply MapsWithin.cons (hext.edits _ _)
    simp only [State.mapStackLoop]
    split
    case isTrue => exact .refl halloc
    case isFalse hne =>
      obtain ⟨g, hg, haddr, _⟩ := h.allocFrame_ne_zero hne
      rw [haddr]
      obtain ⟨owner', howned, hedits, _⟩ := halloc.mapFresh hr hpages.head halign hg
      apply MapsWithin.cons (hedits.mono fun v ↦ pagesFrom_head)
      split
      case isTrue => exact .refl howned
      case isFalse =>
        exact (ih howned (hedits.tops hr) (by omega) hpages.tail).mono fun v ↦ pagesFrom_tail

theorem mapStack (h : Owned s owner) (hr : owner (frameOf cr3) = .top) :
    MapsWithin s (s.mapStack cr3).2 owner cr3
      (PagesFrom USER_STACK_BASE (USER_STACK_SIZE / 4096)) :=
  h.mapStackLoop _ hr (by decide) (userPages_of_le (by decide))

/-- The frame for a page of a segment is spare, or the page is mapped to it. -/
theorem segmentFrame (h : Owned s owner) (hr : owner (frameOf cr3) = .top)
    (hv : pageOf page < 2 ^ 35) (halign : page % 4096 = 0) :
    ∃ owner', Owned (s.segmentFrame cr3 page).2 owner' ∧
      Extends s (s.segmentFrame cr3 page).2 owner owner' ∧
      ((s.segmentFrame cr3 page).1 ≠ 0 → ∃ g, (s.segmentFrame cr3 page).1 = ofFrame g ∧
        (Spare (s.segmentFrame cr3 page).2 owner' g ∨
          ∃ u, lastTable (s.segmentFrame cr3 page).2.mem 4 (frameOf cr3) (pageOf page) = some u ∧
            owner' g = .entry u (pageOf page % 512) 0)) := by
  obtain ⟨owner', howned, hext, htranslate⟩ := h.vmmTranslateIn hr hv halign
  refine ⟨owner', ?_⟩
  simp only [State.segmentFrame]
  split
  case isTrue =>
    obtain ⟨halloc, hext'⟩ := howned.allocFrame
    refine ⟨halloc, hext.trans hext', fun hne ↦ ?_⟩
    obtain ⟨g, hg, haddr, _⟩ := howned.allocFrame_ne_zero hne
    exact ⟨g, haddr, .inl hg⟩
  case isFalse hne =>
    obtain ⟨u, g, hphys, hlast, hg⟩ := htranslate hne
    exact ⟨howned, hext, fun _ ↦ ⟨g, hphys, .inr ⟨u, hlast, hg⟩⟩⟩

/-- The loop of `tus_alloc` edits pages of the user half only, when the pages it comes to lie there.
It comes to page `k` when the `k` pages before it could be mapped. -/
theorem tusAllocLoop_reached (n : ℕ) (h : Owned s owner) (hr : owner (frameOf cr3) = .top)
    (halign : page % 4096 = 0)
    (hpages : ∀ k < n, (s.tusAllocLoop cr3 k page).1 = true → pageOf (page + 4096 * k) < 2 ^ 35) :
    MapsWithin s (s.tusAllocLoop cr3 n page).2 owner cr3
      (fun v ↦ PagesFrom page n v ∧ v < 2 ^ 35) := by
  induction n generalizing s owner page with
  | zero => exact .refl h
  | succ n ih =>
    have hhead : pageOf page < 2 ^ 35 := hpages 0 (by omega) rfl
    obtain ⟨owner1, h1, hext, hframe⟩ := h.segmentFrame hr hhead halign
    have hr1 := hext.keeps.top hr
    apply MapsWithin.cons (hext.edits _ _)
    simp only [State.tusAllocLoop]
    split
    case isTrue => exact .refl h1
    case isFalse hne =>
      obtain ⟨g, hphys, hg⟩ := hframe hne
      rw [hphys, ofFrame_and_not_low]
      obtain ⟨owner2, h2, hedits, _⟩ := h1.vmmMapPageIn hr1 hhead halign hg
      apply MapsWithin.cons (hedits.mono fun v hv ↦ ⟨pagesFrom_head hv, hv ▸ hhead⟩)
      split
      case isTrue => exact .refl h2
      case isFalse hstatus =>
        apply (ih h2 (hedits.tops hr1) (by omega) ?_).mono fun v ↦ And.imp_left pagesFrom_tail
        intro k hk hreached
        have hnext := hpages (k + 1) (by omega)
        rw [hphys] at hne
        simp only [State.tusAllocLoop, hphys, if_neg hne, ofFrame_and_not_low, if_neg hstatus]
          at hnext
        rw [show page + 4096 + 4096 * k = page + 4096 * (k + 1) by ring]
        exact hnext hreached

theorem tusAlloc_reached {virt size : ℕ} (h : Owned s owner) (hr : owner (frameOf cr3) = .top)
    (hpages : ∀ k < segmentPages virt size, (s.tusAllocLoop cr3 k (pageDown virt)).1 = true →
      pageOf (pageDown virt + 4096 * k) < 2 ^ 35) :
    MapsWithin s (s.tusAlloc cr3 virt size).2 owner cr3
      (fun v ↦ PagesFrom (pageDown virt) (segmentPages virt size) v ∧ v < 2 ^ 35) := by
  have halign : pageDown virt % 4096 = 0 := by
    rw [pageDown]
    omega
  have hloop := h.tusAllocLoop_reached _ hr halign hpages
  unfold State.tusAlloc
  split
  case h_1 s' heq =>
    rw [heq] at hloop
    exact hloop
  case h_2 s' heq =>
    rw [heq] at hloop
    exact hloop

theorem tusAlloc {virt size : ℕ} (h : Owned s owner) (hr : owner (frameOf cr3) = .top)
    (hpages : UserPages (pageDown virt) (segmentPages virt size)) :
    MapsWithin s (s.tusAlloc cr3 virt size).2 owner cr3
      (PagesFrom (pageDown virt) (segmentPages virt size)) :=
  (h.tusAlloc_reached hr fun k hk _ ↦ hpages k hk).mono fun _ ↦ And.left

/-- The rollback of `sys_mmap` after `m` pages. -/
theorem rollback {start : ℕ} (m n : ℕ) (h : Owned s owner) (hr : owner (frameOf cr3) = .top)
    (hle : start + 4096 * (m + n) ≤ USER_HALF_MAX) :
    MapsWithin s (s.sysMunmap cr3 start (start + 4096 * m - start : ℕ)).2 owner cr3
      (PagesFrom start (m + n)) := by
  rw [USER_HALF_MAX] at hle
  apply (h.sysMunmap start (start + 4096 * m - start : ℕ) hr).mono
  have hstart : ((start : ℤ) % 2 ^ 64).toNat = start := by omega
  have hlen : pageUp ((start + 4096 * m - start : ℕ) : ℤ).toNat / 4096 = m := by
    rw [Int.toNat_natCast, pageUp, pageDown, wrap]
    omega
  rw [hstart, hlen]
  rintro v ⟨k, hk, hv⟩
  exact ⟨k, by omega, hv⟩

theorem mmapLoop (start m n : ℕ) (h : Owned s owner) (hr : owner (frameOf cr3) = .top)
    (halign : start % 4096 = 0) (hle : start + 4096 * (m + n) ≤ USER_HALF_MAX) :
    MapsWithin s (s.mmapLoop cr3 start n (start + 4096 * m)).2 owner cr3
      (PagesFrom start (m + n)) := by
  induction n generalizing s owner m with
  | zero => exact .refl h
  | succ n ih =>
    obtain ⟨halloc, hext⟩ := h.allocFrame
    apply MapsWithin.cons (hext.edits _ _)
    simp only [State.mmapLoop]
    split
    case isTrue => exact halloc.rollback m (n + 1) hr hle
    case isFalse hne =>
      obtain ⟨g, hg, haddr, _⟩ := h.allocFrame_ne_zero hne
      rw [haddr]
      have hpage : pageOf (start + 4096 * m) < 2 ^ 35 := by
        rw [USER_HALF_MAX] at hle
        rw [pageOf]
        omega
      obtain ⟨owner', howned, hedits, hfail⟩ := halloc.mapFresh hr hpage (by omega) hg
      have hr' := hedits.tops hr
      apply MapsWithin.cons (hedits.mono fun v hv ↦ ⟨m, by omega, hv⟩)
      split
      case isTrue hne =>
        have hspare := (hfail hne).spare hg
        have hfreed := howned.freeFrame (hspare.lt howned) hspare.nobody
        have hundone := hfreed.rollback m (n + 1) hr' hle
        obtain ⟨owner2, h2, hedits2⟩ := hundone
        exact ⟨owner2, h2, hedits2.tops, hedits2.leaf, hedits2.rootCr3, hedits2.cr3⟩
      case isFalse =>
        have hrest := ih (m + 1) howned hr' (by omega)
        rw [show start + 4096 * (m + 1) = start + 4096 * m + 4096 by ring,
          show m + 1 + n = m + (n + 1) by ring] at hrest
        exact hrest

theorem sysMmap (mmapCur : ℕ) (addr len : ℤ) (flags : BitVec 64) (h : Owned s owner)
    (hr : owner (frameOf cr3) = .top) (hcur : mmapCur < 2 ^ 64) :
    MapsWithin s (s.sysMmap cr3 mmapCur addr len flags).2.2 owner cr3 (· < 2 ^ 35) ∧
      (s.sysMmap cr3 mmapCur addr len flags).2.1 < 2 ^ 64 := by
  rcases s.sysMmap_cases cr3 hcur addr len flags with
    ⟨error, _, heq⟩ | ⟨halign, hle, s', hloop⟩
  · rw [heq]
    exact ⟨.refl h, hcur⟩
  · have hmod := pageUp_mod len.toNat
    have hwithin := h.mmapLoop (mmapStart mmapCur addr) 0 (pageUp len.toNat / 4096) hr halign
      (by omega)
    rw [Nat.mul_zero, Nat.add_zero] at hwithin
    rw [USER_HALF_MAX] at hle
    have hpages : ∀ v, PagesFrom (mmapStart mmapCur addr) (0 + pageUp len.toNat / 4096) v →
        v < 2 ^ 35 := by
      rintro v ⟨k, hk, hv⟩
      rw [hv, pageOf]
      omega
    rcases hloop with ⟨hloop, heq⟩ | ⟨hloop, heq⟩
    · rw [hloop] at hwithin
      rw [heq]
      exact ⟨hwithin.mono hpages, hcur⟩
    · rw [hloop] at hwithin
      rw [heq]
      exact ⟨hwithin.mono hpages, by simp only; omega⟩

end Owned

end ToastyUnix.Mm
