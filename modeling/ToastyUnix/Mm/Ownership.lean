import ToastyUnix.Lib.PageForest
import ToastyUnix.Mm.Vmm

/-!
# Ownership of physical frames

`Owned` ties the page tables to the bitmap of the frame allocator: the spaces form a forest
(`Paging.Forest`) and a frame that has an owner is not free. Every function of the virtual memory
manager that is used on the lower half of a space preserves it; `Extends` says what a walk that may
allocate tables changes, and `vmmMapPageIn_owned`, `vmmUnmapPageIn_owned` and
`vmmSpaceClone_owned` what the operations built on the walk do to the mapped pages.
-/

namespace ToastyUnix.Mm

open Paging Function Memory

/-- The frame of the boot loader's top table. -/
def State.base (s : State) : ℕ := frameOf s.rootCr3

/-- Page tables and bitmap agree with the owners of the frames. -/
structure Owned (s : State) (owner : ℕ → Owner) : Prop where
  forest : Forest s.mem s.base owner
  used : ∀ {f}, owner f ≠ .nobody → ¬s.pmm.IsFree f
  handed : ∀ {f t i d}, owner f = .entry t i d → f ≠ 0 ∧ f < s.pmm.totalFrames
  total : s.pmm.totalFrames ≤ MAX_FRAMES

/-- Frame `g` has been taken from the allocator and is not in use yet. -/
structure Spare (s : State) (owner : ℕ → Owner) (g : ℕ) : Prop where
  nobody : owner g = .nobody
  used : ¬s.pmm.IsFree g
  ne_zero : g ≠ 0
  lt_total : g < s.pmm.totalFrames

/-- What an allocating walk does: it gives owners to free frames only, and shows nowhere. -/
structure Extends (s s' : State) (owner owner' : ℕ → Owner) : Prop where
  fresh : ∀ f, owner' f = owner f ∨ (owner f = .nobody ∧ s.pmm.IsFree f)
  free : ∀ f, s'.pmm.IsFree f → s.pmm.IsFree f
  totalFrames : s'.pmm.totalFrames = s.pmm.totalFrames
  view : SameView s.base owner s.mem s'.mem
  rootCr3 : s'.rootCr3 = s.rootCr3
  cr3 : s'.cr3 = s.cr3

namespace Extends

variable {s s' s'' : State} {owner owner' owner'' : ℕ → Owner}

theorem refl (s : State) (owner : ℕ → Owner) : Extends s s owner owner :=
  ⟨fun _ ↦ .inl rfl, fun _ h ↦ h, rfl, .refl _ _ _, rfl, rfl⟩

section

variable (h : Extends s s' owner owner')
include h

theorem keeps : Keeps owner owner' := by
  intro f hf
  rcases h.fresh f with hsame | ⟨hnobody, _⟩
  · exact hsame
  · exact absurd hnobody hf

theorem base : s'.base = s.base := by
  rw [State.base, h.rootCr3, State.base]

theorem trans (h' : Extends s' s'' owner' owner'') : Extends s s'' owner owner'' where
  fresh f := by
    rcases h.fresh f with hsame | hfresh
    · rcases h'.fresh f with hsame' | ⟨hnobody, hfree⟩
      · exact .inl (hsame'.trans hsame)
      · exact .inr ⟨hsame ▸ hnobody, h.free f hfree⟩
    · exact .inr hfresh
  free f hf := h.free f (h'.free f hf)
  totalFrames := h'.totalFrames.trans h.totalFrames
  view := h.view.trans (h.base ▸ h'.view) h.keeps
  rootCr3 := h'.rootCr3.trans h.rootCr3
  cr3 := h'.cr3.trans h.cr3

/-- Links above the last tables survive. -/
theorem link {t i d u : ℕ} (ht : LowerEntry owner t i (d + 1))
    (hlink : present (s.mem t i) ∧ target (s.mem t i) = u) :
    present (s'.mem t i) ∧ target (s'.mem t i) = u := by
  obtain ⟨hpresent, htarget⟩ := h.view.links ht hlink.1
  exact ⟨hpresent, htarget.trans hlink.2⟩

theorem owner_eq {f : ℕ} (hf : ¬s.pmm.IsFree f) : owner' f = owner f := by
  rcases h.fresh f with hsame | ⟨_, hfree⟩
  · exact hsame
  · exact absurd hfree hf

theorem spare {g : ℕ} (hg : Spare s owner g) : Spare s' owner' g where
  nobody := (h.owner_eq hg.used).trans hg.nobody
  used hfree := hg.used (h.free g hfree)
  ne_zero := hg.ne_zero
  lt_total := h.totalFrames ▸ hg.lt_total

end

end Extends

variable {s s' : State} {owner owner' : ℕ → Owner} {space : ℕ} {pages : ℕ → Prop} {e : BitVec 64}

/-- What operations on the lower half of `space` do: outside `pages` all mappings stay. -/
structure Edits (s s' : State) (owner owner' : ℕ → Owner) (space : ℕ) (pages : ℕ → Prop) :
    Prop where
  tops : ∀ {r}, owner r = .top → owner' r = .top
  leaf : ∀ {r v}, owner r = .top ∨ r = s.base → v < 2 ^ 36 → ¬(r = space ∧ pages v) →
    leaf s'.mem r v = leaf s.mem r v
  rootCr3 : s'.rootCr3 = s.rootCr3
  cr3 : s'.cr3 = s.cr3

theorem Extends.edits (h : Extends s s' owner owner') (space : ℕ) (pages : ℕ → Prop) :
    Edits s s' owner owner' space pages where
  tops := h.keeps.top
  leaf hr hv _ := h.view.leaf hr hv
  rootCr3 := h.rootCr3
  cr3 := h.cr3

theorem Edits.trans {s'' : State} {owner'' : ℕ → Owner} (h : Edits s s' owner owner' space pages)
    (h' : Edits s' s'' owner' owner'' space pages) : Edits s s'' owner owner'' space pages where
  tops hr := h'.tops (h.tops hr)
  leaf {r v} hr hv hout := by
    have hbase : s'.base = s.base := by rw [State.base, h.rootCr3, State.base]
    rw [h'.leaf (hr.imp h.tops fun hr ↦ hbase ▸ hr) hv hout, h.leaf hr hv hout]
  rootCr3 := h'.rootCr3.trans h.rootCr3
  cr3 := h'.cr3.trans h.cr3

theorem Edits.mono {pages' : ℕ → Prop} (h : Edits s s' owner owner' space pages)
    (hpages : ∀ v, pages v → pages' v) : Edits s s' owner owner' space pages' :=
  { h with leaf := fun hr hv hout ↦ h.leaf hr hv fun hin ↦ hout ⟨hin.1, hpages _ hin.2⟩ }

theorem Spare.lt {g : ℕ} (hg : Spare s owner g) (h : Owned s owner) : g < 2 ^ 40 :=
  hg.lt_total.trans_le (h.total.trans (by decide))

theorem and_VMM_PRESENT_ne_zero : e &&& VMM_PRESENT ≠ 0 ↔ present e := by
  rw [show VMM_PRESENT = BitVec.twoPow 64 0 from rfl, Ne, and_twoPow_eq_zero (by decide)]
  simp [present]

theorem and_PTE_LARGE_eq_zero : e &&& PTE_LARGE = 0 ↔ large e = false := by
  rw [show PTE_LARGE = BitVec.twoPow 64 7 from rfl, and_twoPow_eq_zero (by decide)]
  rfl

/-- The entry for the table in frame `g`. -/
def linkEntry (g : ℕ) : BitVec 64 := ofFrame g ||| VMM_PRESENT ||| VMM_WRITE ||| VMM_USER

theorem present_linkEntry (g : ℕ) : present (linkEntry g) := by
  simp [linkEntry, show present VMM_PRESENT = true by decide]

theorem large_linkEntry (g : ℕ) : large (linkEntry g) = false := by
  simp [linkEntry, show large VMM_PRESENT = false by decide, show large VMM_WRITE = false by decide,
    show large VMM_USER = false by decide]

theorem target_linkEntry {g : ℕ} (hlt : g < 2 ^ 40) : target (linkEntry g) = g := by
  rw [linkEntry, target_or (by decide), target_or (by decide), target_or (by decide),
    target_ofFrame hlt]

namespace State

variable {t i : ℕ}

theorem linkTable_mem {g : ℕ} (s : State) (t i : ℕ) (hlt : g < 2 ^ 40) :
    (s.linkTable t i (ofFrame g)).mem = (s.mem.fill g fun _ ↦ 0).write t i (linkEntry g) := by
  simp only [linkTable, clearFrame, frameOf_ofFrame hlt]
  rfl

variable (stride flag : BitVec 64)

theorem walkLevel_eq (allocate : Bool) (hlarge : large (s.mem t i) = false) :
    s.walkLevel t i stride flag allocate =
      let (phys, s') := s.tableFetch t i allocate
      if phys = 0 then (none, s') else (some (frameOf phys), s') := by
  rw [walkLevel, splitLarge, if_pos (and_PTE_LARGE_eq_zero.mpr hlarge)]

theorem walkLevel_present (allocate : Bool)
    (hlarge : large (s.mem t i) = false) (hpresent : present (s.mem t i)) :
    s.walkLevel t i stride flag allocate =
      (if target (s.mem t i) = 0 then none else some (target (s.mem t i)), s) := by
  have hphys : s.tableFetch t i allocate = (s.mem t i &&& PTE_ADDR_MASK, s) := by
    rw [tableFetch, if_pos (and_VMM_PRESENT_ne_zero.mpr hpresent)]
  have hzero : s.mem t i &&& PTE_ADDR_MASK = 0 ↔ target (s.mem t i) = 0 := by
    rw [← ofFrame_eq_zero (target_lt _), ofFrame_target]
    rfl
  rw [walkLevel_eq _ _ _ hlarge, hphys]
  simp only [hzero]
  split <;> rfl

theorem walkLevel_absent (hlarge : large (s.mem t i) = false)
    (habsent : present (s.mem t i) = false) : s.walkLevel t i stride flag false = (none, s) := by
  have hentry : ¬(s.mem t i &&& VMM_PRESENT ≠ 0) := by
    rw [and_VMM_PRESENT_ne_zero, habsent]
    decide
  rw [walkLevel_eq _ _ _ hlarge, tableFetch, if_neg hentry]
  rfl

theorem walkLevel_new (hlarge : large (s.mem t i) = false) (habsent : present (s.mem t i) = false) :
    s.walkLevel t i stride flag true =
      if s.allocFrame.1 = 0 then (none, s.allocFrame.2)
      else (some (frameOf s.allocFrame.1), s.allocFrame.2.linkTable t i s.allocFrame.1) := by
  have hentry : ¬(s.mem t i &&& VMM_PRESENT ≠ 0) := by
    rw [and_VMM_PRESENT_ne_zero, habsent]
    decide
  rw [walkLevel_eq _ _ _ hlarge, tableFetch, if_neg hentry]
  by_cases hphys : s.allocFrame.1 = 0
  · simp only [Bool.not_true, Bool.false_eq_true, hphys, if_false, if_true]
  · simp only [Bool.not_true, Bool.false_eq_true, hphys, if_false]

end State

namespace Owned

variable {s : State} {owner : ℕ → Owner}

theorem allocFrame (h : Owned s owner) :
    Owned s.allocFrame.2 owner ∧ Extends s s.allocFrame.2 owner owner where
  left :=
    { forest := h.forest
      used := fun hf hfree ↦ h.used hf (Pmm.isFree_of_pmmAllocFrame hfree)
      handed := fun hf ↦ by simpa [State.allocFrame] using h.handed hf
      total := by simpa [State.allocFrame] using h.total }
  right :=
    { Extends.refl s owner with
      free := fun _ hfree ↦ Pmm.isFree_of_pmmAllocFrame hfree
      totalFrames := by simp [State.allocFrame] }

/-- The allocator hands out a frame that nobody owns. -/
theorem allocFrame_ne_zero (h : Owned s owner) (hne : s.allocFrame.1 ≠ 0) :
    ∃ g, Spare s.allocFrame.2 owner g ∧ s.allocFrame.1 = ofFrame g ∧ s.pmm.IsFree g := by
  obtain ⟨g, hzero, hlt, haddr, hfree, hused⟩ := Pmm.pmmAllocFrame_eq_frame h.total hne
  refine ⟨g, ⟨?_, hused, hzero, ?_⟩, haddr, hfree⟩
  · by_contra howner
    exact h.used howner hfree
  · simpa [State.allocFrame] using hfree.1

/-- Frames that are no tables may hold anything. -/
theorem setMemory (mem : Memory) (h : Owned s owner)
    (hmem : ∀ t i, IsTable owner t → mem t i = s.mem t i) :
    Owned { s with mem := mem } owner ∧ Extends s { s with mem := mem } owner owner :=
  ⟨⟨h.forest.congr_tables hmem, h.used, h.handed, h.total⟩,
    { Extends.refl s owner with view := h.forest.sameView_congr hmem }⟩

variable {g t i d virt : ℕ} {cr3 : BitVec 64}

theorem clearFrame (h : Owned s owner) (hg : Spare s owner g) :
    Owned (s.clearFrame (ofFrame g)) owner ∧
      Extends s (s.clearFrame (ofFrame g)) owner owner := by
  apply h.setMemory
  intro t i ht
  apply s.mem.fill_of_ne
  rw [frameOf_ofFrame (hg.lt h)]
  rintro rfl
  simp [IsTable, hg.nobody] at ht

theorem freeFrame (h : Owned s owner) (hlt : g < 2 ^ 40) (hg : owner g = .nobody) :
    Owned (s.freeFrame (ofFrame g)) owner where
  forest := h.forest
  handed hf := by simpa [State.freeFrame] using h.handed hf
  used {f} hf hfree := by
    rw [State.freeFrame, Pmm.isFree_pmmFreeFrame, frameOf_ofFrame hlt] at hfree
    rcases hfree with hfree | ⟨_, rfl⟩
    · exact h.used hf hfree
    · exact hf hg
  total := by simpa [State.freeFrame] using h.total

theorem adopt (h : Owned s owner) (hg : Spare s owner g) (hempty : d ≠ 0 → ∀ j, s.mem g j = 0) :
    Owned s (update owner g (.entry t i d)) where
  forest := h.forest.adopt hg.nobody hempty
  used {f} hf := by
    by_cases hsame : f = g
    · exact hsame ▸ hg.used
    · rw [update_of_ne hsame] at hf
      exact h.used hf
  handed {f _ _ _} hf := by
    by_cases hsame : f = g
    · exact hsame ▸ ⟨hg.ne_zero, hg.lt_total⟩
    · rw [update_of_ne hsame] at hf
      exact h.handed hf
  total := h.total

theorem releaseFrame (h : Owned s owner) (hg : owner g = .entry t i 0)
    (habsent : present (s.mem t i) = false) :
    Owned (s.freeFrame (ofFrame g)) (update owner g .nobody) := by
  have hrelease : Owned s (update owner g .nobody) :=
    { forest := h.forest.release hg habsent
      used := by
        intro f hf
        by_cases hsame : f = g
        · simp [hsame] at hf
        · rw [update_of_ne hsame] at hf
          exact h.used hf
      handed := by
        intro f _ _ _ hf
        by_cases hsame : f = g
        · simp [hsame] at hf
        · rw [update_of_ne hsame] at hf
          exact h.handed hf
      total := h.total }
  exact hrelease.freeFrame ((h.handed hg).2.trans_le (h.total.trans (by decide))) (by simp)

/-- Linking a new table below an absent entry of a lower half. -/
theorem linkTable (h : Owned s owner) (ht : LowerEntry owner t i (d + 1))
    (habsent : present (s.mem t i) = false) (hg : Spare s owner g) :
    Owned (s.linkTable t i (ofFrame g)) (update owner g (.entry t i (d + 1))) ∧
    SameView s.base owner s.mem (s.linkTable t i (ofFrame g)).mem ∧
    present ((s.linkTable t i (ofFrame g)).mem t i) ∧
    target ((s.linkTable t i (ofFrame g)).mem t i) = g := by
  obtain ⟨hclear, hext⟩ := h.clearFrame hg
  have hlt := hg.lt h
  have hempty : ∀ j, (s.clearFrame (ofFrame g)).mem g j = 0 := by
    intro j
    simp [State.clearFrame, frameOf_ofFrame hlt]
  have hne : t ≠ g := by
    rintro rfl
    exact ht.owner_ne_nobody hg.nobody
  have hadopt := hclear.adopt (t := t) (i := i) (d := d + 1) (hext.spare hg) fun _ ↦ hempty
  have hkeeps := Keeps.update (.entry t i (d + 1)) hg.nobody
  have hentry : (s.clearFrame (ofFrame g)).mem t i = s.mem t i := by
    simp only [State.clearFrame, frameOf_ofFrame hlt]
    exact fill_of_ne _ _ hne i
  have htarget := target_linkEntry hlt
  obtain ⟨hforest, hview⟩ := hadopt.forest.sameView_link (e := linkEntry g)
    (ht.congr (hkeeps t ht.owner_ne_nobody)) (by rwa [hentry]) (present_linkEntry g)
    (large_linkEntry g) (by rw [htarget, update_self]) (by rwa [htarget])
  refine ⟨⟨hforest, hadopt.used, hadopt.handed, h.total⟩, hext.view.trans hview hkeeps, ?_⟩
  rw [s.linkTable_mem t i hlt, write_self]
  exact ⟨present_linkEntry g, htarget⟩

theorem walkLevel_present (stride flag : BitVec 64) (allocate : Bool) (h : Owned s owner)
    (ht : LowerEntry owner t i (d + 1)) (hpresent : present (s.mem t i)) :
    s.walkLevel t i stride flag allocate = (some (target (s.mem t i)), s) := by
  obtain ⟨hlarge, howner⟩ := h.forest.entries ht
  rw [State.walkLevel_present _ _ _ hlarge hpresent, if_neg (h.handed (howner hpresent)).1]

/-- One level of the walk to page `v`. -/
theorem walkLevel {r v : ℕ} (stride flag : BitVec 64) (allocate : Bool) (h : Owned s owner)
    (ht : OnPath owner r v (d + 2) t) (hv : v < 2 ^ 35) (hi : i = v / 512 ^ (d + 1) % 512) :
    ∃ owner', Owned (s.walkLevel t i stride flag allocate).2 owner' ∧
      Extends s (s.walkLevel t i stride flag allocate).2 owner owner' ∧
      ∀ u, (s.walkLevel t i stride flag allocate).1 = some u →
        (present ((s.walkLevel t i stride flag allocate).2.mem t i) ∧
          target ((s.walkLevel t i stride flag allocate).2.mem t i) = u) ∧
        OnPath owner' r v (d + 1) u := by
  subst hi
  have hlower := ht.lowerEntry hv
  have hlarge := (h.forest.entries hlower).1
  cases hpresent : present (s.mem t (v / 512 ^ (d + 1) % 512)) with
  | true =>
    rw [h.walkLevel_present _ _ _ hlower hpresent]
    refine ⟨owner, h, .refl s owner, fun u hu ↦ ?_⟩
    obtain rfl := Option.some.inj hu
    exact ⟨⟨hpresent, rfl⟩, h.forest.onPath_target ht hv hpresent⟩
  | false =>
    cases allocate with
    | false =>
      rw [State.walkLevel_absent _ _ hlarge hpresent]
      exact ⟨owner, h, .refl s owner, by simp⟩
    | true =>
      obtain ⟨halloc, hext⟩ := h.allocFrame
      rw [State.walkLevel_new _ _ hlarge hpresent]
      split
      case isTrue => exact ⟨owner, halloc, hext, by simp⟩
      case isFalse hne =>
        obtain ⟨g, hg, haddr, hfree⟩ := h.allocFrame_ne_zero hne
        obtain ⟨hlink, hview, hpresent', htarget⟩ := halloc.linkTable hlower hpresent hg
        rw [haddr, frameOf_ofFrame (hg.lt halloc)]
        have hkeeps := Keeps.update (.entry t (v / 512 ^ (d + 1) % 512) (d + 1)) hg.nobody
        refine ⟨_, hlink, ⟨fun f ↦ ?_, hext.free, hext.totalFrames, hview, rfl, rfl⟩, fun u hu ↦ ?_⟩
        · by_cases hsame : f = g
          · exact .inr (hsame ▸ ⟨hg.nobody, hfree⟩)
          · exact .inl (update_of_ne hsame _ _)
        · obtain rfl := Option.some.inj hu
          have hnext := hlink.forest.onPath_target (hkeeps.onPath ht) hv hpresent'
          rw [htarget] at hnext
          exact ⟨⟨hpresent', htarget⟩, hnext⟩

/-- Changing flags of entries above the last tables. -/
theorem updateEntries {update : BitVec 64 → BitVec 64} {entries : List (ℕ × ℕ)}
    (h : Owned s owner) (hupdate : ∀ e, SameLink e (update e))
    (hentries : ∀ p ∈ entries, ∃ d, LowerEntry owner p.1 p.2 (d + 1)) :
    Owned (s.updateEntries update entries) owner ∧
      Extends s (s.updateEntries update entries) owner owner := by
  induction entries generalizing s with
  | nil => exact ⟨h, .refl s owner⟩
  | cons p entries ih =>
    obtain ⟨d, hlower⟩ := hentries p List.mem_cons_self
    obtain ⟨hforest, hview⟩ := h.forest.sameView_reflag hlower (hupdate _)
    have hone : Owned { s with mem := s.mem.write p.1 p.2 (update (s.mem p.1 p.2)) } owner :=
      ⟨hforest, h.used, h.handed, h.total⟩
    have hfirst : Extends s { s with mem := s.mem.write p.1 p.2 (update (s.mem p.1 p.2)) }
        owner owner := { Extends.refl s owner with view := hview }
    obtain ⟨hrest, hext⟩ := ih hone fun q hq ↦ hentries q (List.mem_cons_of_mem _ hq)
    exact ⟨hrest, hfirst.trans hext⟩

theorem sameLink_and_not_PTE_NX (e : BitVec 64) : SameLink e (e &&& ~~~PTE_NX) := by
  refine ⟨?_, ?_, target_and (by decide)⟩
  · simp [show present (~~~PTE_NX) = true by decide]
  · simp [show large (~~~PTE_NX) = true by decide]

theorem sameLink_or_VMM_USER (e : BitVec 64) : SameLink e (e ||| VMM_USER) := by
  refine ⟨?_, ?_, target_or (by decide)⟩
  · simp [show present VMM_USER = false by decide]
  · simp [show large VMM_USER = false by decide]

/-- The walk to an address of a lower half ends at the entry of its page. -/
theorem walkPt (allocate user : Bool) (h : Owned s owner) (hr : owner (frameOf cr3) = .top)
    (hv : pageOf virt < 2 ^ 35) :
    ∃ owner', Owned (s.walkPt cr3 virt allocate user).2 owner' ∧
      Extends s (s.walkPt cr3 virt allocate user).2 owner owner' ∧
      ∀ t i, (s.walkPt cr3 virt allocate user).1 = some (t, i) →
        i = pageOf virt % 512 ∧
        lastTable (s.walkPt cr3 virt allocate user).2.mem 4 (frameOf cr3) (pageOf virt) =
          some t := by
  -- the tables on the way are linked in every later state too
  let At (n t : ℕ) (entries : List (ℕ × ℕ)) (s1 : State) : Prop :=
    ∃ owner1, Owned s1 owner1 ∧ Extends s s1 owner owner1 ∧
      OnPath owner1 (frameOf cr3) (pageOf virt) (4 - n) t ∧
      (∀ p ∈ entries, ∃ d, LowerEntry owner1 p.1 p.2 (d + 1)) ∧
      ∀ s0 owner0, Owned s0 owner0 → Extends s1 s0 owner1 owner0 →
        lastTable s0.mem 4 (frameOf cr3) (pageOf virt) = lastTable s0.mem (4 - n) t (pageOf virt)
  have hstart : At 0 (frameOf cr3) [] s :=
    ⟨owner, h, .refl s owner, onPath_top hr hv, by simp, fun _ _ _ _ ↦ rfl⟩
  refine (State.walkPt_rule virt allocate user At
    (fun s1 ↦ ∃ owner1, Owned s1 owner1 ∧ Extends s s1 owner owner1) hstart ?level).elim ?_ ?_
  case level =>
    rintro n t entries s1 result s2 stride flag hn - ⟨owner1, h1, hext1, hpath, hlower, hlast⟩ heq
    obtain ⟨d, hd, hd'⟩ : ∃ d, 4 - n = d + 2 ∧ 3 - n = d + 1 := ⟨2 - n, by omega, by omega⟩
    have hd'' : 4 - (n + 1) = d + 1 := by omega
    rw [hd] at hpath
    obtain ⟨owner2, h2, hext2, hlevel⟩ := h1.walkLevel stride flag allocate hpath hv rfl
    rw [hd'] at heq
    rw [heq] at h2 hext2 hlevel
    refine ⟨fun _ ↦ ⟨owner2, h2, hext1.trans hext2⟩, fun u hu ↦ ?_⟩
    obtain ⟨hlink, hnext⟩ := hlevel u hu
    have hentry := (hext2.keeps.onPath hpath).lowerEntry hv
    refine ⟨owner2, h2, hext1.trans hext2, by rwa [hd''], ?_, fun s0 owner0 h0 hext0 ↦ ?_⟩
    · simp only [List.mem_append, List.mem_singleton]
      rintro p (hp | rfl)
      · obtain ⟨e, he⟩ := hlower p hp
        exact ⟨e, he.congr (hext2.keeps _ he.owner_ne_nobody)⟩
      · exact ⟨d, hd' ▸ hentry⟩
    · have hkept := (hext0.keeps.onPath (hext2.keeps.onPath hpath)).lowerEntry hv
      rw [hlast s0 owner0 h0 (hext2.trans hext0), hd, hd'',
        lastTable_next (hext0.link hentry hlink) (h0.forest.entries hkept).1]
  · rintro ⟨hnone, owner', howned, hext⟩
    exact ⟨owner', howned, hext, by simp [hnone]⟩
  · rintro ⟨t, entries, s1, ⟨owner1, h1, hext1, hpath, hlower, hlast⟩, heq⟩
    have hflags : ∃ owner', Owned (s1.reflag user entries) owner' ∧
        Extends s1 (s1.reflag user entries) owner1 owner' := by
      obtain ⟨hnx, hextnx⟩ := h1.updateEntries sameLink_and_not_PTE_NX hlower
      cases user with
      | false => exact ⟨owner1, hnx, hextnx⟩
      | true =>
        obtain ⟨huser, hextuser⟩ := hnx.updateEntries sameLink_or_VMM_USER hlower
        exact ⟨owner1, huser, hextnx.trans hextuser⟩
    obtain ⟨owner', howned, hext⟩ := hflags
    rw [heq]
    refine ⟨owner', howned, hext1.trans hext, fun t' i hti ↦ ?_⟩
    obtain ⟨rfl, rfl⟩ : t = t' ∧ pageOf virt % 512 = i := by simpa using hti
    exact ⟨rfl, hlast _ owner' howned hext⟩

/-- The walk succeeds when the tables are there. -/
theorem walkPt_present {u : ℕ} (allocate user : Bool) (h : Owned s owner)
    (hr : owner (frameOf cr3) = .top) (hv : pageOf virt < 2 ^ 35)
    (hlast : lastTable s.mem 4 (frameOf cr3) (pageOf virt) = some u) :
    (s.walkPt cr3 virt allocate user).1 = some (u, pageOf virt % 512) := by
  have hpath4 := onPath_top hr hv
  obtain ⟨hpresent4, hlast⟩ := lastTable_eq_some hlast
  have hpath3 := h.forest.onPath_target hpath4 hv hpresent4
  obtain ⟨hpresent3, hlast⟩ := lastTable_eq_some hlast
  have hpath2 := h.forest.onPath_target hpath3 hv hpresent3
  obtain ⟨hpresent2, hlast⟩ := lastTable_eq_some hlast
  simp only [lastTable, Option.some.injEq] at hlast
  simp only [State.walkPt, pml4Idx_eq, pdptIdx_eq, pdIdx_eq, ptIdx_eq,
    h.walkLevel_present _ _ _ (hpath4.lowerEntry hv) hpresent4,
    h.walkLevel_present _ _ _ (hpath3.lowerEntry hv) hpresent3,
    h.walkLevel_present _ _ _ (hpath2.lowerEntry hv) hpresent2, hlast]

section Pages

variable {cr3 : BitVec 64} {virt : ℕ}

section

variable (h : Owned s owner) (hr : owner (frameOf cr3) = .top) (hv : pageOf virt < 2 ^ 35)
include h hr hv

/-- A page that translates is mapped to the frame it translates to. -/
theorem vmmTranslateIn (halign : virt % 4096 = 0) :
    ∃ owner', Owned (s.vmmTranslateIn cr3 virt).2 owner' ∧
      Extends s (s.vmmTranslateIn cr3 virt).2 owner owner' ∧
      ((s.vmmTranslateIn cr3 virt).1 ≠ 0 → ∃ u g, (s.vmmTranslateIn cr3 virt).1 = ofFrame g ∧
        lastTable (s.vmmTranslateIn cr3 virt).2.mem 4 (frameOf cr3) (pageOf virt) = some u ∧
        owner' g = .entry u (pageOf virt % 512) 0) := by
  obtain ⟨owner', howned, hext, hwalk⟩ := h.walkPt false false hr hv
  refine ⟨owner', ?_⟩
  unfold State.vmmTranslateIn
  split
  case h_1 s' heq =>
    rw [heq] at howned hext
    exact ⟨howned, hext, fun hne ↦ absurd rfl hne⟩
  case h_2 t i s' heq =>
    rw [heq] at howned hext hwalk
    obtain ⟨rfl, hlast⟩ := hwalk t i rfl
    split
    case isTrue => exact ⟨howned, hext, fun hne ↦ absurd rfl hne⟩
    case isFalse hpresent =>
      refine ⟨howned, hext, fun _ ↦ ⟨t, target (s'.mem t (pageOf virt % 512)), ?_, hlast, ?_⟩⟩
      · rw [halign, ofFrame_target]
        exact BitVec.or_zero
      · have hpath := howned.forest.lastTable_onPath (onPath_top (hext.keeps.top hr) hv) hv hlast
        have hlower : LowerEntry owner' t (pageOf virt % 512) 0 := by
          simpa using hpath.lowerEntry hv
        exact (howned.forest.entries hlower).2 (and_VMM_PRESENT_ne_zero.mp hpresent)

/-- The page is no longer mapped, and its frame is free. -/
theorem vmmUnmapPageIn {u g : ℕ} (hlast : lastTable s.mem 4 (frameOf cr3) (pageOf virt) = some u)
    (hg : owner g = .entry u (pageOf virt % 512) 0) :
    ∃ owner', Owned ((s.vmmUnmapPageIn cr3 virt).freeFrame (ofFrame g)) owner' ∧
      Edits s ((s.vmmUnmapPageIn cr3 virt).freeFrame (ofFrame g)) owner owner' (frameOf cr3)
        (· = pageOf virt) ∧
      leaf ((s.vmmUnmapPageIn cr3 virt).freeFrame (ofFrame g)).mem (frameOf cr3) (pageOf virt) =
        none := by
  obtain ⟨owner', howned, hext, _⟩ := h.walkPt false false hr hv
  have hresult := h.walkPt_present false false hr hv hlast
  unfold State.vmmUnmapPageIn
  split
  case h_1 s' heq =>
    rw [heq] at hresult
    simp at hresult
  case h_2 t i s' heq =>
    rw [heq] at howned hext hresult
    obtain ⟨rfl, rfl⟩ : t = u ∧ i = pageOf virt % 512 := by simpa using hresult
    have hr' := hext.keeps.top hr
    have hlast' := h.forest.lastTable_of_sameView (hext.base ▸ howned.forest) hext.keeps hext.view
      (onPath_top hr hv) hv hlast
    have hg' : owner' g = .entry t (pageOf virt % 512) 0 := by
      rw [hext.keeps g (by simp [hg]), hg]
    obtain ⟨hforest, hleaf, _⟩ := howned.forest.leaf_write (e := 0) hr' hv hlast' large_zero
      (by simp)
    have hwritten : Owned { s' with mem := s'.mem.write t (pageOf virt % 512) 0 } owner' :=
      ⟨hforest, howned.used, howned.handed, howned.total⟩
    refine ⟨_, hwritten.releaseFrame hg' (by simp), ⟨?_, ?_, hext.rootCr3, hext.cr3⟩, ?_⟩
    · intro r hrtop
      have hne : r ≠ g := by
        rintro rfl
        simp [hrtop] at hg
      rw [update_of_ne hne]
      exact hext.keeps.top hrtop
    · intro r v hrtop hlt hout
      refine (hleaf r v (hrtop.imp hext.keeps.top fun hbase ↦ ?_) hlt).trans ?_
      · rw [hext.base, hbase]
      · rw [if_neg hout, hext.view.leaf hrtop hlt]
    · refine (hleaf _ _ (.inl hr') (by omega)).trans ?_
      simp

/-- A page is mapped to a spare frame, or again to its own. A failed call leaves new tables only. -/
theorem vmmMapPageIn {g : ℕ} (halign : virt % 4096 = 0)
    (hg : Spare s owner g ∨ ∃ u, lastTable s.mem 4 (frameOf cr3) (pageOf virt) = some u ∧
      owner g = .entry u (pageOf virt % 512) 0) :
    ∃ owner', Owned (s.vmmMapPageIn cr3 virt (ofFrame g) USER_PAGE).2 owner' ∧
      Edits s (s.vmmMapPageIn cr3 virt (ofFrame g) USER_PAGE).2 owner owner' (frameOf cr3)
        (· = pageOf virt) ∧
      ((s.vmmMapPageIn cr3 virt (ofFrame g) USER_PAGE).1 = 0 →
        frameAt (s.vmmMapPageIn cr3 virt (ofFrame g) USER_PAGE).2.mem (frameOf cr3)
          (pageOf virt) = some g) ∧
      ((s.vmmMapPageIn cr3 virt (ofFrame g) USER_PAGE).1 ≠ 0 →
        Extends s (s.vmmMapPageIn cr3 virt (ofFrame g) USER_PAGE).2 owner owner') := by
  obtain ⟨owner1, howned, hext, hwalk⟩ :=
    h.walkPt true (decide (USER_PAGE &&& VMM_USER ≠ 0)) hr hv
  have hlt : g < 2 ^ 40 := by
    rcases hg with hg | ⟨u, _, hg⟩
    · exact hg.lt h
    · exact (h.handed hg).2.trans_le (h.total.trans (by decide))
  have hchecks : ¬(virt % 4096 ≠ 0 ∨ ofFrame g &&& 0xFFF ≠ 0) := by
    rw [not_or, not_not, not_not]
    exact ⟨halign, ofFrame_and_low g⟩
  rw [State.vmmMapPageIn, if_neg hchecks]
  split
  case h_1 s1 heq =>
    rw [heq] at howned hext
    exact ⟨owner1, howned, hext.edits _ _, fun hzero ↦ by simp at hzero, fun _ ↦ hext⟩
  case h_2 t i s1 heq =>
    rw [heq] at howned hext hwalk
    obtain ⟨rfl, hlast⟩ := hwalk t i rfl
    have hr1 := hext.keeps.top hr
    -- the entry owns the frame before it refers to it
    obtain ⟨owner2, howned2, hkeeps, hentry⟩ : ∃ owner2, Owned s1 owner2 ∧ Keeps owner1 owner2 ∧
        owner2 g = .entry t (pageOf virt % 512) 0 := by
      rcases hg with hg | ⟨u, hu, hg⟩
      · have hspare := hext.spare hg
        exact ⟨_, howned.adopt (t := t) (i := pageOf virt % 512) (d := 0) hspare (by simp),
          .update _ hspare.nobody, by simp⟩
      · have hu' := h.forest.lastTable_of_sameView (hext.base ▸ howned.forest) hext.keeps
          hext.view (onPath_top hr hv) hv hu
        obtain rfl : t = u := Option.some.inj (hlast.symm.trans hu')
        exact ⟨owner1, howned, .refl _, by rw [hext.keeps g (by simp [hg]), hg]⟩
    have htarget : target (ofFrame g &&& PTE_ADDR_MASK ||| USER_PAGE ||| VMM_PRESENT) = g := by
      rw [target_or (by decide), target_or (by decide), target_and (by decide), target_ofFrame hlt]
    have hpresent : present (ofFrame g &&& PTE_ADDR_MASK ||| USER_PAGE ||| VMM_PRESENT) := by
      simp [show present VMM_PRESENT = true by decide]
    have hlarge : large (ofFrame g &&& PTE_ADDR_MASK ||| USER_PAGE ||| VMM_PRESENT) = false := by
      simp [show large USER_PAGE = false by decide, show large VMM_PRESENT = false by decide]
    obtain ⟨hforest, hleaf, _⟩ := howned2.forest.leaf_write (hkeeps.top hr1) hv hlast hlarge
      fun _ ↦ by rw [htarget, hentry]
    refine ⟨owner2, ⟨hforest, howned2.used, howned2.handed, howned2.total⟩,
      ⟨fun hrtop ↦ hkeeps.top (hext.keeps.top hrtop), ?_, hext.rootCr3, hext.cr3⟩, fun _ ↦ ?_,
      fun hne ↦ absurd rfl hne⟩
    · intro r v hrtop hlt hout
      refine (hleaf r v (hrtop.imp (fun hr ↦ hkeeps.top (hext.keeps.top hr)) fun hbase ↦ ?_)
        hlt).trans ?_
      · rw [hext.base, hbase]
      · rw [if_neg hout, hext.view.leaf hrtop hlt]
    · have hmapped := hleaf (frameOf cr3) (pageOf virt) (.inl (hkeeps.top hr1)) (by omega)
      rw [if_pos ⟨rfl, rfl⟩, if_pos hpresent] at hmapped
      simp [frameAt, hmapped, htarget, Nat.mod_one]

end

end Pages

/-- A new space has an empty lower half and the boot loader's upper half. -/
theorem vmmSpaceClone (h : Owned s owner) :
    ∃ owner', Owned s.vmmSpaceClone.2 owner' ∧
      s.vmmSpaceClone.2.rootCr3 = s.rootCr3 ∧ s.vmmSpaceClone.2.cr3 = s.cr3 ∧
      (∀ r, owner r = .top → owner' r = .top) ∧
      (∀ r v, owner r = .top ∨ r = s.base → v < 2 ^ 36 →
        leaf s.vmmSpaceClone.2.mem r v = leaf s.mem r v) ∧
      (s.vmmSpaceClone.1 ≠ 0 → owner' (frameOf s.vmmSpaceClone.1) = .top ∧
        ∀ v < 2 ^ 35, leaf s.vmmSpaceClone.2.mem (frameOf s.vmmSpaceClone.1) v = none) := by
  obtain ⟨halloc, hext⟩ := h.allocFrame
  unfold State.vmmSpaceClone
  simp only
  split
  case isTrue =>
    exact ⟨owner, halloc, rfl, rfl, fun _ hr ↦ hr, fun r v hr hv ↦ hext.view.leaf hr hv,
      fun hne ↦ absurd rfl hne⟩
  case isFalse hne =>
    obtain ⟨g, hg, haddr, hfree⟩ := h.allocFrame_ne_zero hne
    have hframe : frameOf (ofFrame g) = g := frameOf_ofFrame (hg.lt halloc)
    have hne_base : s.base ≠ g := by
      rintro rfl
      simpa [h.forest.base_owner] using hg.nobody
    rw [haddr]
    set s2 := s.allocFrame.2.clearFrame (ofFrame g) with hs2
    set pml4 := fun i ↦ if 256 ≤ i ∧ i < 512 then s2.mem (frameOf s2.rootCr3) i
      else s2.mem (frameOf (ofFrame g)) i with hpml4
    have hzero : ∀ i < 256, pml4 i = 0 := by
      intro i hi
      have hlow : ¬(256 ≤ i ∧ i < 512) := by omega
      simp [hpml4, hlow, hs2, State.clearFrame]
    have hother : ∀ t i, t ≠ g → s2.mem.fill g pml4 t i = s.mem t i := by
      intro t i hne
      rw [fill_of_ne _ _ hne]
      simp only [hs2, State.clearFrame, hframe]
      rw [fill_of_ne _ _ hne]
      rfl
    obtain ⟨hfilled, hview⟩ := halloc.setMemory (s2.mem.fill g pml4) fun t i ht ↦
      hother t i fun hsame ↦ by simp [hsame, IsTable, hg.nobody] at ht
    rw [hframe]
    have htop : Forest (s2.mem.fill g pml4) s.base (update owner g .top) := by
      apply hfilled.forest.addTop hg.nobody
      · intro i hi
        simpa using hzero i hi
      · intro i hi hlt
        have hhigh : 256 ≤ i ∧ i < 512 := ⟨hi, hlt⟩
        have hroot : frameOf s2.rootCr3 = s.base := rfl
        change s2.mem.fill g pml4 g i = s2.mem.fill g pml4 s.base i
        rw [fill_self, fill_of_ne _ _ hne_base]
        simp [hpml4, hhigh, hroot]
    have hkeeps := Keeps.update Owner.top hg.nobody
    refine ⟨_, ⟨htop, ?_, ?_, halloc.total⟩, rfl, rfl, fun r ↦ hkeeps.top, ?_, fun _ ↦ ⟨?_, ?_⟩⟩
    · intro f hf
      by_cases hsame : f = g
      · exact hsame ▸ hg.used
      · rw [update_of_ne hsame] at hf
        exact halloc.used hf
    · intro f t i d hf
      by_cases hsame : f = g
      · simp [hsame] at hf
      · rw [update_of_ne hsame] at hf
        exact halloc.handed hf
    · exact fun r v hr hv ↦ (hview.view.leaf hr hv).trans (hext.view.leaf hr hv)
    · simp
    · intro v hv
      apply walk_absent
      have hindex : v / 512 ^ 3 % 512 < 256 := by omega
      change present (s2.mem.fill g pml4 g _) = false
      rw [fill_self, hzero _ hindex]
      exact present_zero

end Owned

end ToastyUnix.Mm
