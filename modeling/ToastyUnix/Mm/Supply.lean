import ToastyUnix.Mm.TwinRuns

/-!
# Mapping with enough frames

The frame allocator can serve a space when it has a free frame for every page that is to be mapped
and for every table on the way that is missing. `Fed` states this together with what the walk relies
on, and is kept by every operation between `tus_alloc` and the tables, so that none of them fails.
Pages that are mapped on the way keep their frames and their bytes.

Frame 0 is in use: its address is the value `pmm_alloc_frame` returns for a failure.
-/

namespace ToastyUnix.Mm

open Paging Option Finset Memory

namespace Pmm

variable {p : Pmm}

/-- The free frames. -/
def freeFrames (p : Pmm) : Finset ℕ :=
  (Finset.range p.totalFrames).filter fun f ↦ p.frameIsFree f

theorem mem_freeFrames {f : ℕ} : f ∈ p.freeFrames ↔ p.IsFree f := by
  simp [freeFrames, IsFree]

/-- An allocation succeeds when a frame is free and frame 0 is not. -/
theorem pmmAllocFrame_of_pos (htotal : p.totalFrames ≤ MAX_FRAMES) (hzero : ¬p.IsFree 0)
    (hpos : 0 < p.freeFrames.card) :
    ∃ g, g ≠ 0 ∧ g < 2 ^ 40 ∧ p.pmmAllocFrame.1 = ofFrame g ∧ p.IsFree g ∧
      ¬p.pmmAllocFrame.2.IsFree g ∧ p.pmmAllocFrame.2.freeFrames = p.freeFrames.erase g := by
  obtain ⟨f, hf⟩ := card_pos.mp hpos
  rw [mem_freeFrames] at hf
  rcases p.pmmAllocFrame_cases with ⟨_, hnone⟩ | ⟨g, hg, heq⟩
  · exact absurd hf (hnone f)
  · have hlt : g < 2 ^ 40 := hg.1.trans_le (htotal.trans (by decide))
    refine ⟨g, ?_, hlt, by rw [heq]; rfl, hg, ?_, ?_⟩
    · rintro rfl
      exact hzero hg
    · rw [heq, isFree_take]
      simp
    · ext f
      rw [mem_erase, mem_freeFrames, mem_freeFrames, heq, isFree_take, and_comm]

end Pmm

/-! ## What a space still lacks -/

/-- What the walk to page `v` reaches after `n` links: a table, or the frame of the page. -/
def frameOn (mem : Memory) (r v n : ℕ) : Option ℕ :=
  if n = 4 then frameAt mem r v else tableOn mem r v n

/-- The tables and pages of `demand` without a frame. A pair `(v, n)` stands for what the walk to
page `v` reaches after `n` links, the same for pages with the same leading digits. -/
def missing (mem : Memory) (r : ℕ) (demand : Finset (ℕ × ℕ)) : Finset (ℕ × ℕ) :=
  (demand.filter fun p ↦ frameOn mem r p.1 p.2 = none).image fun p ↦ (p.2, p.1 / 512 ^ (4 - p.2))

section Missing

variable {mem mem' : Memory} {r v n : ℕ} {demand demand' : Finset (ℕ × ℕ)}

theorem frameOn_four (mem : Memory) (r v : ℕ) : frameOn mem r v 4 = frameAt mem r v := if_pos rfl

theorem frameOn_le (mem : Memory) (r v : ℕ) (hn : n ≤ 3) :
    frameOn mem r v n = tableOn mem r v n := if_neg (by omega)

theorem mem_missing {x : ℕ × ℕ} : x ∈ missing mem r demand ↔
    ∃ v n, (v, n) ∈ demand ∧ frameOn mem r v n = none ∧ (n, v / 512 ^ (4 - n)) = x := by
  simp [missing, and_assoc]

theorem missing_subset (h : ∀ {v n}, (v, n) ∈ demand → frameOn mem' r v n = none →
    (v, n) ∈ demand' ∧ frameOn mem r v n = none) :
    missing mem' r demand ⊆ missing mem r demand' := by
  intro x hx
  obtain ⟨v, n, hmem, hnone, rfl⟩ := mem_missing.mp hx
  obtain ⟨hmem', hnone'⟩ := h hmem hnone
  exact mem_missing.mpr ⟨v, n, hmem', hnone', rfl⟩

theorem missing_erase_page (hv : (v, 4) ∈ demand) (hnone : frameAt mem r v = none) :
    (missing mem r (demand.erase (v, 4))).card < (missing mem r demand).card := by
  have hpage : (4, v) ∈ missing mem r demand :=
    mem_missing.mpr ⟨v, 4, hv, by rwa [frameOn_four], by simp⟩
  have hsub : missing mem r (demand.erase (v, 4)) ⊆ (missing mem r demand).erase (4, v) := by
    intro x hx
    obtain ⟨w, n, hmem, hnone, rfl⟩ := mem_missing.mp hx
    rw [mem_erase] at hmem ⊢
    refine ⟨fun heq ↦ hmem.1 ?_, mem_missing.mpr ⟨w, n, hmem.2, hnone, rfl⟩⟩
    obtain ⟨rfl, hw⟩ := Prod.mk.inj heq
    simpa using hw
  exact (card_le_card hsub).trans_lt (card_erase_lt_of_mem hpage)

/-- A new table provides exactly what was lacking in its place. -/
theorem Separated.missing_linkTable {t g : ℕ} {s : State} (demand : Finset (ℕ × ℕ))
    (h : Separated s (Lower r) (Lower r)) (hv : v < 2 ^ 35) (hn : n ≤ 2)
    (ht : tableOn s.mem r v n = some t) (habsent : present (s.mem t (digit v n)) = false)
    (hg : ∀ {w m}, w < 2 ^ 35 → m ≤ 3 → tableOn s.mem r w m ≠ some g) (hused : ¬s.pmm.IsFree g)
    (hzero : g ≠ 0) (hlt : g < 2 ^ 40) (hlower : ∀ {w m}, (w, m) ∈ demand → w < 2 ^ 35 ∧ m ≤ 4) :
    missing (s.linkTable t (digit v n) (ofFrame g)).mem r demand =
      (missing s.mem r demand).erase (n + 1, v / 512 ^ (4 - (n + 1))) := by
  obtain ⟨hlinked, hsame, hnew, htables⟩ := h.linkTable ⟨rfl, hv⟩ hn ht habsent
    (by rintro r' w m ⟨rfl, hw⟩ hm; exact hg hw hm) hused hzero hlt
  generalize s.linkTable t (digit v n) (ofFrame g) = s' at *
  ext x
  rw [mem_erase]
  constructor
  · intro hx
    obtain ⟨w, m, hw, hlack, rfl⟩ := mem_missing.mp hx
    obtain ⟨hlow, hm⟩ := hlower hw
    refine ⟨fun heq ↦ ?_, mem_missing.mpr ⟨w, m, hw, ?_, rfl⟩⟩
    · -- the same digits lead to the new table
      obtain ⟨rfl, hdigits⟩ := Prod.mk.inj heq
      rw [frameOn_le _ _ _ (by omega), tableOn_congr_prefix hm hdigits, hnew] at hlack
      simp at hlack
    · by_cases hfour : m = 4
      · subst hfour
        rw [frameOn_four] at hlack ⊢
        exact (hsame.frameAt ⟨rfl, hlow⟩).symm.trans hlack
      · rw [frameOn_le _ _ _ (by omega)] at hlack ⊢
        cases hold : tableOn s.mem r w m with
        | none => rfl
        | some f => exact absurd hlack (by simp [(htables ⟨rfl, hlow⟩ (by omega)).1 hold])
  · rintro ⟨hne, hx⟩
    obtain ⟨w, m, hw, hlack, rfl⟩ := mem_missing.mp hx
    obtain ⟨hlow, hm⟩ := hlower hw
    refine mem_missing.mpr ⟨w, m, hw, ?_, rfl⟩
    by_cases hfour : m = 4
    · subst hfour
      rw [frameOn_four] at hlack ⊢
      exact (hsame.frameAt ⟨rfl, hlow⟩).trans hlack
    · rw [frameOn_le _ _ _ (by omega)] at hlack ⊢
      cases hfound : tableOn s'.mem r w m with
      | none => rfl
      | some f =>
        -- a table that was not there before is the new one
        rcases (htables ⟨rfl, hlow⟩ (by omega)).2 hfound with rfl | hold
        · obtain ⟨rfl, _, hdigits⟩ := hlinked.apart ⟨rfl, hv⟩ (by omega) hnew
            (show Lower r r w from ⟨rfl, hlow⟩) (by omega) hfound
          exact absurd (congrArg (Prod.mk (n + 1)) hdigits.symm) hne
        · exact absurd hold (by simp [hlack])

end Missing

/-- What walks in the lower half of space `r` rely on: small pages, and frame 0 neither a table nor
free. -/
structure Walkable (r : ℕ) (s : State) : Prop where
  separated : Separated s (Lower r) (Lower r)
  small : ∀ v < 2 ^ 35, NoLarge s.mem r v
  nonzero : ∀ {v n}, v < 2 ^ 35 → n ≤ 2 → tableOn s.mem r v (n + 1) ≠ some 0
  zero : ¬s.pmm.IsFree 0

variable {r v a : ℕ} {s s' : State} {owner : ℕ → Owner} {pages : Finset ℕ}

theorem Walkable.not_stopsAtZero (h : Walkable r s) (hv : v < 2 ^ 35) : ¬StopsAtZero s.mem r v := by
  rintro (h1 | h2 | h3)
  · exact h.nonzero hv (n := 0) (by decide) h1
  · exact h.nonzero hv (n := 1) (by decide) h2
  · exact h.nonzero hv (n := 2) (by decide) h3

/-- `vmm_translate_in` gives the frame of a page, and 0 when there is none. -/
theorem Walkable.vmmTranslateIn_fst {cr3 : BitVec 64} {virt : ℕ} (h : Walkable (frameOf cr3) s)
    (hv : pageOf virt < 2 ^ 35) (halign : virt % 4096 = 0) :
    (s.vmmTranslateIn cr3 virt).1 =
      ((frameAt s.mem (frameOf cr3) (pageOf virt)).map ofFrame).getD 0 := by
  rw [(State.vmmTranslateIn_eq (h.small _ hv)).1, translation, if_neg (h.not_stopsAtZero hv),
    halign]
  cases frameAt s.mem (frameOf cr3) (pageOf virt) with
  | none => rfl
  | some f => exact BitVec.or_zero

/-- Every entry in use on the way to a page of the lower half allows writes. -/
def Writable (mem : Memory) (r : ℕ) : Prop :=
  ∀ {v n t}, v < 2 ^ 35 → n ≤ 3 → tableOn mem r v n = some t → present (mem t (digit v n)) →
    (mem t (digit v n)).getLsbD 1

/-- The space `r` has small writable pages in its lower half, and the allocator has a frame for all
of `demand` that it lacks. -/
structure Fed (r : ℕ) (demand : Finset (ℕ × ℕ)) (s : State) : Prop where
  separated : Separated s (Lower r) (Lower r)
  small : ∀ v < 2 ^ 35, NoLarge s.mem r v
  nonzero : ∀ {v n}, v < 2 ^ 35 → 1 ≤ n → n ≤ 4 → frameOn s.mem r v n ≠ some 0
  zero : ¬s.pmm.IsFree 0
  writable : Writable s.mem r
  lower : ∀ {v n}, (v, n) ∈ demand → v < 2 ^ 35 ∧ 1 ≤ n ∧ n ≤ 4
  supply : (missing s.mem r demand).card ≤ s.pmm.freeFrames.card

namespace Fed

variable {r v n t : ℕ} {demand demand' : Finset (ℕ × ℕ)} {s s' : State}

section

variable (h : Fed r demand s)
include h

theorem walkable : Walkable r s where
  separated := h.separated
  small := h.small
  nonzero {v n} hv hn := by
    rw [← frameOn_le _ _ _ (show n + 1 ≤ 3 by omega)]
    exact h.nonzero hv (by omega) (by omega)
  zero := h.zero

theorem mono (hsub : demand' ⊆ demand) : Fed r demand' s :=
  { h with
    lower := fun hmem ↦ h.lower (hsub hmem)
    supply := (card_le_card (missing_subset fun hmem hnone ↦ ⟨hsub hmem, hnone⟩)).trans
      h.supply }

/-- Something is lacking, so an allocation succeeds. -/
theorem allocFrame (hmem : (v, n) ∈ demand) (hnone : frameOn s.mem r v n = none) :
    ∃ g, g ≠ 0 ∧ g < 2 ^ 40 ∧ s.allocFrame.1 = ofFrame g ∧ s.pmm.IsFree g ∧
      ¬s.allocFrame.2.pmm.IsFree g ∧
      s.allocFrame.2.pmm.freeFrames.card + 1 = s.pmm.freeFrames.card := by
  have hpos : 0 < (missing s.mem r demand).card :=
    card_pos.mpr ⟨_, mem_missing.mpr ⟨v, n, hmem, hnone, rfl⟩⟩
  obtain ⟨g, hg, hlt, haddr, hfree, hused, hrest⟩ :=
    Pmm.pmmAllocFrame_of_pos h.separated.total h.zero (hpos.trans_le h.supply)
  refine ⟨g, hg, hlt, haddr, hfree, hused, ?_⟩
  have hcard := card_erase_add_one (Pmm.mem_freeFrames.mpr hfree)
  rwa [← hrest] at hcard

/-- Memory in which the walks find the same links and writes stay allowed. -/
theorem congr (hpmm : s'.pmm = s.pmm) (hwalk : ∀ w < 2 ^ 35, SameWalk s.mem s'.mem r w)
    (hbits : ∀ {t}, LowerTable s.mem r t → ∀ i, (s.mem t i).getLsbD 1 → (s'.mem t i).getLsbD 1) :
    Fed r demand s' := by
  have hframe : ∀ {w m}, w < 2 ^ 35 → m ≤ 4 → frameOn s'.mem r w m = frameOn s.mem r w m := by
    intro w m hw hm
    simp only [frameOn, (hwalk w hw).frameAt, (hwalk w hw).tableOn hm]
  have hsep : Separated { s with mem := s'.mem } (Lower r) (Lower r) := by
    refine (h.separated.setMemory ?_).1
    rintro r' w ⟨rfl, hw⟩
    exact hwalk w hw
  refine ⟨⟨hsep.sub, hsep.apart, ?_, ?_⟩, fun w hw ↦ (hwalk w hw).noLarge (h.small w hw),
    ?_, ?_, ?_, h.lower, ?_⟩
  · rw [hpmm]
    exact hsep.fresh
  · rw [hpmm]
    exact hsep.total
  · intro w m hw hpos hm
    rw [hframe hw hm]
    exact h.nonzero hw hpos hm
  · rw [hpmm]
    exact h.zero
  · intro w m u hw hm hu hpresent
    rw [(hwalk w hw).tableOn (by omega)] at hu
    rw [(hwalk w hw m hm u hu).1] at hpresent
    exact hbits ⟨w, m, hw, hm, hu⟩ _ (h.writable hw hm hu hpresent)
  · rw [hpmm]
    refine (card_le_card (missing_subset fun hmem hnone ↦ ⟨hmem, ?_⟩)).trans h.supply
    rwa [← hframe (h.lower hmem).1 (h.lower hmem).2.2]

/-- A new table takes one frame and provides what was lacking. -/
theorem linkTable {g : ℕ} (hv : v < 2 ^ 35) (hn : n ≤ 2) (ht : tableOn s.mem r v n = some t)
    (habsent : present (s.mem t (digit v n)) = false) (hmem : (v, n + 1) ∈ demand) (hg : g ≠ 0)
    (hlt : g < 2 ^ 40) (hfree : s.pmm.IsFree g) (hused : ¬s.allocFrame.2.pmm.IsFree g)
    (hcard : s.allocFrame.2.pmm.freeFrames.card + 1 = s.pmm.freeFrames.card) :
    Fed r demand (s.allocFrame.2.linkTable t (digit v n) (ofFrame g)) := by
  have hnone : frameOn s.mem r v (n + 1) = none := by
    rw [frameOn_le _ _ _ (by omega), tableOn_succ ht, if_neg (by simp [habsent])]
  obtain ⟨hlinked, hsame, hnew, htables⟩ := h.separated.allocFrame.1.linkTable ⟨rfl, hv⟩ hn ht
    habsent (fun hw hm ↦ h.separated.fresh hfree hw hm) hused hg hlt
  have hentry := s.allocFrame.2.linkTable_mem t (digit v n) hlt
  have hpmm : (s.allocFrame.2.linkTable t (digit v n) (ofFrame g)).pmm = s.allocFrame.2.pmm := rfl
  refine ⟨hlinked, fun w hw ↦ hsame.noLarge ⟨rfl, hw⟩ (h.small w hw), ?_, ?_, ?_, h.lower, ?_⟩
  · intro w m hw hpos hm hzero
    refine h.nonzero hw hpos hm ?_
    by_cases hfour : m = 4
    · subst hfour
      rw [frameOn_four] at hzero ⊢
      exact (hsame.frameAt ⟨rfl, hw⟩).symm.trans hzero
    · rw [frameOn_le _ _ _ (by omega)] at hzero ⊢
      exact (hsame.zero ⟨rfl, hw⟩ (by omega)).mp hzero
  · exact fun hzero ↦ h.zero (Pmm.isFree_of_pmmAllocFrame hzero)
  · intro w m u hw hm hu hpresent
    rw [hentry] at hpresent ⊢
    by_cases hsame : u = t ∧ digit w m = digit v n
    · rw [hsame.1, hsame.2, write_self]
      simp [linkEntry, VMM_WRITE]
    rw [write_of_ne _ _ hsame] at hpresent ⊢
    rcases (htables ⟨rfl, hw⟩ hm).2 hu with rfl | hold
    · simp at hpresent
    · have hne : u ≠ g := by
        rintro rfl
        exact h.separated.fresh hfree ⟨rfl, hw⟩ hm hold
      rw [fill_of_ne _ _ hne] at hpresent ⊢
      exact h.writable hw hm hold hpresent
  · have hmissing := h.separated.allocFrame.1.missing_linkTable demand hv hn ht habsent
      (fun hw hm ↦ h.separated.fresh hfree ⟨rfl, hw⟩ hm) hused hg hlt
      fun hin ↦ ⟨(h.lower hin).1, (h.lower hin).2.2⟩
    have hlack : (n + 1, v / 512 ^ (4 - (n + 1))) ∈ missing s.mem r demand :=
      mem_missing.mpr ⟨v, n + 1, hmem, hnone, rfl⟩
    have hless := card_erase_lt_of_mem hlack
    have := h.supply
    rw [hpmm, hmissing]
    change ((missing s.mem r demand).erase _).card ≤ _
    omega

end

theorem walkLevel (stride flag : BitVec 64) (h : Fed r demand s) (hv : v < 2 ^ 35) (hn : n ≤ 2)
    (ht : tableOn s.mem r v n = some t) (hmem : (v, n + 1) ∈ demand) :
    ∃ u s', s.walkLevel t (digit v n) stride flag true = (some u, s') ∧ Fed r demand s' ∧
      tableOn s'.mem r v (n + 1) = some u := by
  have hlarge := h.small v hv n hn t ht
  have hnext := tableOn_succ ht
  obtain ⟨_, _, hfound, _⟩ :=
    h.separated.walkLevel stride flag true ⟨rfl, hv⟩ hn ht (h.small v hv)
  cases hpresent : present (s.mem t (digit v n)) with
  | true =>
    rw [if_pos ⟨hpresent, hlarge⟩] at hnext
    have hne : target (s.mem t (digit v n)) ≠ 0 := by
      intro hzero
      refine h.nonzero hv (n := n + 1) (by omega) (by omega) ?_
      rw [frameOn_le _ _ _ (by omega), hnext, hzero]
    refine ⟨target (s.mem t (digit v n)), s, ?_, h, hnext⟩
    rw [s.walkLevel_present _ _ _ hlarge hpresent, if_neg hne]
  | false =>
    rw [if_neg (by simp [hpresent])] at hnext
    obtain ⟨g, hg, hlt, haddr, hfree, hused, hcard⟩ :=
      h.allocFrame hmem (by rw [frameOn_le _ _ _ (by omega), hnext])
    have hresult : s.walkLevel t (digit v n) stride flag true =
        (some g, s.allocFrame.2.linkTable t (digit v n) (ofFrame g)) := by
      rw [s.walkLevel_new _ _ hlarge hpresent, haddr, frameOf_ofFrame hlt,
        if_neg ((ofFrame_eq_zero hlt).not.mpr hg)]
    rw [hresult] at hfound
    exact ⟨g, _, hresult, h.linkTable hv hn ht hpresent hmem hg hlt hfree hused hcard,
      (hfound g rfl).2⟩

variable {demand : Finset (ℕ × ℕ)} {s : State} {cr3 : BitVec 64} {virt : ℕ}

theorem walkPt (user : Bool) (h : Fed (frameOf cr3) demand s) (hv : pageOf virt < 2 ^ 35)
    (hmem : ∀ n ≤ 2, (pageOf virt, n + 1) ∈ demand) :
    ∃ t s', s.walkPt cr3 virt true user = (some (t, digit (pageOf virt) 3), s') ∧
      Fed (frameOf cr3) demand s' ∧
      tableOn s'.mem (frameOf cr3) (pageOf virt) 3 = some t := by
  simp only [State.walkPt, State.digit_pml4, State.digit_pdpt, State.digit_pd, State.digit_pt]
  obtain ⟨pdpt, s1, heq1, h1, ht1⟩ :=
    h.walkLevel 0x40000000 0 hv (n := 0) (by decide) rfl (hmem 0 (by decide))
  obtain ⟨pd, s2, heq2, h2, ht2⟩ :=
    h1.walkLevel 0x200000 PTE_LARGE hv (n := 1) (by decide) ht1 (hmem 1 (by decide))
  obtain ⟨pt, s3, heq3, h3, ht3⟩ :=
    h2.walkLevel 0x1000 0 hv (n := 2) (by decide) ht2 (hmem 2 (by decide))
  rw [heq1]
  dsimp only
  rw [heq2]
  dsimp only
  rw [heq3]
  have hlinks := s3.reflagged user [(frameOf cr3, digit (pageOf virt) 0),
    (pdpt, digit (pageOf virt) 1), (pd, digit (pageOf virt) 2)]
  refine ⟨pt, _, rfl, h3.congr hlinks.pmm (fun w _ ↦ hlinks.sameWalk _ w)
    fun _ ↦ hlinks.writes _, ?_⟩
  exact ((hlinks.sameWalk (frameOf cr3) (pageOf virt)).tableOn (by decide)).trans ht3

section

variable (h : Fed (frameOf cr3) demand s) (hv : pageOf virt < 2 ^ 35) (halign : virt % 4096 = 0)
include h hv halign

/-- `vmm_translate_in` gives the frame of a page, and 0 exactly when there is none. -/
theorem vmmTranslateIn :
    (s.vmmTranslateIn cr3 virt).1 =
        ((frameAt s.mem (frameOf cr3) (pageOf virt)).map ofFrame).getD 0 ∧
      frameAt (s.vmmTranslateIn cr3 virt).2.mem (frameOf cr3) (pageOf virt) =
        frameAt s.mem (frameOf cr3) (pageOf virt) ∧
      Fed (frameOf cr3) demand (s.vmmTranslateIn cr3 virt).2 := by
  have hno := h.small _ hv
  obtain ⟨_, hlinks⟩ := State.vmmTranslateIn_eq hno
  exact ⟨h.walkable.vmmTranslateIn_fst hv halign, (hlinks.sameWalk _ _).frameAt,
    h.congr hlinks.pmm (fun w _ ↦ hlinks.sameWalk _ w) fun _ ↦ hlinks.writes _⟩

/-- `tus_alloc` finds a frame for a page, and the page no longer counts as lacking. -/
theorem segmentFrame (hmem : (pageOf virt, 4) ∈ demand) :
    ∃ g s', s.segmentFrame cr3 virt = (ofFrame g, s') ∧ g ≠ 0 ∧ g < 2 ^ 40 ∧
      Fed (frameOf cr3) (demand.erase (pageOf virt, 4)) s' ∧
      ∀ f, frameAt s.mem (frameOf cr3) (pageOf virt) = some f → f = g := by
  obtain ⟨hvalue, hframe, hfed⟩ := h.vmmTranslateIn hv halign
  simp only [State.segmentFrame]
  rcases hold : frameAt s.mem (frameOf cr3) (pageOf virt) with _ | f
  · rw [hold] at hvalue hframe
    obtain ⟨g, hg, hlt, haddr, _, _, hcard⟩ :=
      hfed.allocFrame hmem (by rw [frameOn_four, hframe])
    have hzero : (s.vmmTranslateIn cr3 virt).1 = 0 := hvalue
    rw [if_pos hzero]
    refine ⟨g, _, Prod.ext haddr rfl, hg, hlt, ?_, by simp⟩
    have hless := missing_erase_page hmem hframe
    have := hfed.supply
    exact
      { separated := hfed.separated.allocFrame.1
        small := hfed.small
        nonzero := hfed.nonzero
        zero := fun hzero ↦ hfed.zero (Pmm.isFree_of_pmmAllocFrame hzero)
        writable := hfed.writable
        lower := fun hin ↦ hfed.lower (mem_of_mem_erase hin)
        supply := show _ ≤ (s.vmmTranslateIn cr3 virt).2.allocFrame.2.pmm.freeFrames.card by
          change (missing (s.vmmTranslateIn cr3 virt).2.mem _ _).card ≤ _
          omega }
  · rw [hold] at hvalue
    have hne : f ≠ 0 := by
      rintro rfl
      refine h.nonzero hv (n := 4) (by decide) le_rfl ?_
      rwa [frameOn_four]
    have hlt : f < 2 ^ 40 := by
      rw [(h.small _ hv).frameAt] at hold
      obtain ⟨t, _, ht⟩ := bind_eq_some_iff.mp hold
      split at ht
      · exact some.inj ht ▸ target_lt _
      · simp at ht
    have hvalue' : (s.vmmTranslateIn cr3 virt).1 = ofFrame f := hvalue
    rw [hvalue', if_neg ((ofFrame_eq_zero hlt).not.mpr hne)]
    exact ⟨f, _, rfl, hne, hlt, hfed.mono (erase_subset _ _), fun f' hf' ↦ (some.inj hf').symm⟩

end

/-- `vmm_map_page_in` succeeds and provides the page. -/
theorem vmmMapPageIn {g : ℕ} (h : Fed (frameOf cr3) (demand.erase (pageOf virt, 4)) s)
    (hv : pageOf virt < 2 ^ 35) (halign : virt % 4096 = 0) (hg : g ≠ 0) (hlt : g < 2 ^ 40)
    (hmem : ∀ n ≤ 3, (pageOf virt, n + 1) ∈ demand) :
    ∃ s', s.vmmMapPageIn cr3 virt (ofFrame g) USER_PAGE = (0, s') ∧
      Fed (frameOf cr3) demand s' := by
  obtain ⟨t, s1, heq, h1, ht⟩ := h.walkPt (decide (USER_PAGE &&& VMM_USER ≠ 0)) hv
    fun n hn ↦ mem_erase.mpr ⟨by simp; omega, hmem n (by omega)⟩
  have hargs : ¬(virt % 4096 ≠ 0 ∨ ofFrame g &&& 0xFFF ≠ 0) := by
    rw [not_or, not_not, not_not]
    exact ⟨halign, ofFrame_and_low g⟩
  rw [State.vmmMapPageIn, if_neg hargs, heq]
  generalize hentry : (ofFrame g &&& PTE_ADDR_MASK) ||| USER_PAGE ||| VMM_PRESENT = e
  have hpresent : present e := by
    simp [← hentry, show present VMM_PRESENT = true by decide]
  have htarget : target e = g := by
    rw [← hentry, target_or (by decide), target_or (by decide)]
    exact (target_and (by decide)).trans (target_ofFrame hlt)
  have hbit : e.getLsbD 1 := by
    rw [← hentry, BitVec.getLsbD_or, BitVec.getLsbD_or, show USER_PAGE.getLsbD 1 = true by decide]
    simp
  have hgoes : ¬StopsAtZero s1.mem (frameOf cr3) (pageOf virt) :=
    h1.walkable.not_stopsAtZero hv
  obtain ⟨hsep, hothers, hsmall, _⟩ :=
    h1.separated.writeLeaf (e := e) ⟨rfl, hv⟩ (h1.small _ hv) hgoes ht
  have htables := fun {w m : ℕ} (hw : w < 2 ^ 35) (hm : m ≤ 3) ↦
    h1.separated.apart.tableOn_write (e := e) ⟨rfl, hv⟩ ht
      (show Lower (frameOf cr3) (frameOf cr3) w from ⟨rfl, hw⟩) hm
  have hpage : frameAt (s1.mem.write t (digit (pageOf virt) 3) e) (frameOf cr3) (pageOf virt) =
      some g := by
    rw [(hsmall ⟨rfl, hv⟩ (h1.small _ hv)).frameAt, htables hv le_rfl, ht, bind_some,
      write_self, if_pos hpresent, htarget]
  -- everything but the page is as before
  have hframe : ∀ {w m}, w < 2 ^ 35 → m ≤ 4 → (w, m) ≠ (pageOf virt, 4) →
      frameOn (s1.mem.write t (digit (pageOf virt) 3) e) (frameOf cr3) w m =
        frameOn s1.mem (frameOf cr3) w m := by
    intro w m hw hm hne
    by_cases hfour : m = 4
    · subst hfour
      rw [frameOn_four, frameOn_four]
      exact hothers.frameAt ⟨⟨rfl, hw⟩, fun hsame ↦ hne (by rw [hsame.2])⟩
    · rw [frameOn_le _ _ _ (by omega), frameOn_le _ _ _ (by omega), htables hw (by omega)]
  refine ⟨_, rfl, hsep, fun w hw ↦ hsmall ⟨rfl, hw⟩ (h1.small w hw), ?_, h1.zero, ?_, ?_, ?_⟩
  · intro w m hw hpos hm
    by_cases hsame : (w, m) = (pageOf virt, 4)
    · obtain ⟨rfl, rfl⟩ := Prod.mk.inj hsame
      rw [frameOn_four, hpage]
      simpa using hg
    · rw [hframe hw hm hsame]
      exact h1.nonzero hw hpos hm
  · intro w m u hw hm hu hused
    rw [htables hw hm] at hu
    simp only [write] at hused ⊢
    split at hused
    case isTrue hsame => rwa [if_pos hsame]
    case isFalse hsame =>
      rw [if_neg hsame]
      exact h1.writable hw hm hu hused
  · intro w m hin
    by_cases hsame : (w, m) = (pageOf virt, 4)
    · obtain ⟨rfl, rfl⟩ := Prod.mk.inj hsame
      exact ⟨hv, by decide, le_rfl⟩
    · exact h1.lower (mem_erase.mpr ⟨hsame, hin⟩)
  · refine (card_le_card (missing_subset fun {w m} hin hnone ↦ ?_)).trans h1.supply
    have hsame : (w, m) ≠ (pageOf virt, 4) := by
      intro hsame
      obtain ⟨rfl, rfl⟩ := Prod.mk.inj hsame
      rw [frameOn_four, hpage] at hnone
      simp at hnone
    have hin' := mem_erase.mpr ⟨hsame, hin⟩
    obtain ⟨hw, _, hm⟩ := h1.lower hin'
    exact ⟨hin', (hframe hw hm hsame).symm.trans hnone⟩

end Fed

/-! ## Pages on the way -/

theorem Owned.frameAt_data {f : ℕ} (h : Owned s owner) (hr : owner r = .top) (hv : v < 2 ^ 35)
    (hf : frameAt s.mem r v = some f) : ¬LowerTable s.mem r f := by
  obtain ⟨u, _, _, _, howner⟩ := h.forest.frameAt_eq_some hr hv hf
  intro htable
  rcases h.isTable_of_lowerTable hr htable with hbase | htop | ⟨t, i, d, hentry⟩
  · simp [howner] at hbase
  · simp [howner] at htop
  · simp [howner] at hentry

theorem Twin.refl (r : ℕ) (s : State) : Twin r s s := ⟨rfl, rfl, rfl, fun _ ↦ rfl⟩

/-- The pages that are mapped keep their frames, and the frames their contents. -/
def Keeps (r : ℕ) (s s' : State) : Prop :=
  ∀ ⦃v f⦄, v < 2 ^ 35 → frameAt s.mem r v = some f →
    frameAt s'.mem r v = some f ∧ s'.mem f = s.mem f

theorem Keeps.refl (r : ℕ) (s : State) : Keeps r s s := fun _ _ _ hf ↦ ⟨hf, rfl⟩

theorem Keeps.trans {s'' : State} (h : Keeps r s s') (h' : Keeps r s' s'') : Keeps r s s'' := by
  intro v f hv hf
  obtain ⟨hf', hmem⟩ := h hv hf
  obtain ⟨hf'', hmem'⟩ := h' hv hf'
  exact ⟨hf'', hmem'.trans hmem⟩

/-- The frames are owned, `r` is the top table of a space, and the allocator can serve it. -/
structure Provided (r : ℕ) (demand : Finset (ℕ × ℕ)) (s : State) : Prop where
  owned : ∃ owner, Owned s owner ∧ owner r = .top
  fed : Fed r demand s

namespace Provided

variable {demand : Finset (ℕ × ℕ)} {s : State} {cr3 : BitVec 64} {virt : ℕ}

/-- Choosing a frame for a page and mapping it write to tables only. -/
theorem twinStep {g : ℕ} {s1 : State} (h : Provided (frameOf cr3) demand s)
    (h1 : Fed (frameOf cr3) (demand.erase (pageOf virt, 4)) s1) (hv : pageOf virt < 2 ^ 35)
    (hframe : s.segmentFrame cr3 virt = (ofFrame g, s1)) :
    TwinStep (frameOf cr3) s s (s1.vmmMapPageIn cr3 virt (ofFrame g) USER_PAGE).2
      (s1.vmmMapPageIn cr3 virt (ofFrame g) USER_PAGE).2 := by
  obtain ⟨_, htranslate⟩ :=
    (Twin.refl (frameOf cr3) s).vmmTranslateIn h.fed.separated hv (h.fed.small _ hv)
  have hfound : TwinStep (frameOf cr3) s s s1 s1 := by
    rw [show s1 = (s.segmentFrame cr3 virt).2 by rw [hframe], State.segmentFrame]
    dsimp only
    split
    · exact htranslate.trans htranslate.twin.allocFrame.2
    · exact htranslate
  exact hfound.trans
    (hfound.twin.vmmMapPageIn (ofFrame g) USER_PAGE h1.separated hv (h1.small _ hv)).2

theorem mapPage (h : Provided (frameOf cr3) demand s) (hv : pageOf virt < 2 ^ 35)
    (halign : virt % 4096 = 0) (hmem : ∀ m ≤ 3, (pageOf virt, m + 1) ∈ demand) :
    ∃ g s1 s2, s.segmentFrame cr3 virt = (ofFrame g, s1) ∧ ofFrame g ≠ 0 ∧
      s1.vmmMapPageIn cr3 virt (ofFrame g) USER_PAGE = (0, s2) ∧
      Provided (frameOf cr3) demand s2 ∧ Keeps (frameOf cr3) s s2 ∧
      frameAt s2.mem (frameOf cr3) (pageOf virt) = some g := by
  obtain ⟨owner, howned, hr⟩ := h.owned
  obtain ⟨g, s1, hframe, hg, hlt, h1, hold⟩ := h.fed.segmentFrame hv halign (hmem 3 le_rfl)
  obtain ⟨s2, hmap, h2⟩ := h1.vmmMapPageIn hv halign hg hlt hmem
  have hstep := h.twinStep h1 hv hframe
  have hne : ofFrame g ≠ 0 := (ofFrame_eq_zero hlt).not.mpr hg
  obtain ⟨owner1, howned1, hext, hchosen⟩ := howned.segmentFrame hr hv halign
  rw [hframe] at howned1 hext hchosen
  obtain ⟨g', haddr, hg'⟩ := hchosen hne
  dsimp only at haddr
  have hsame : g' = g := by
    have hlt' : g' < 2 ^ 40 := by
      rcases hg' with hspare | ⟨u, _, hentry⟩
      · exact hspare.lt howned1
      · exact (howned1.handed hentry).2.trans_le (howned1.total.trans (by decide))
    rw [← frameOf_ofFrame hlt', ← haddr, frameOf_ofFrame hlt]
  subst hsame
  have hr1 := hext.keeps.top hr
  obtain ⟨owner2, howned2, hedits, hmapped, _⟩ := howned1.vmmMapPageIn hr1 hv halign hg'
  rw [hmap] at howned2 hedits hmapped hstep
  have hpage := hmapped rfl
  have hr2 := hedits.tops hr1
  refine ⟨g', s1, s2, hframe, hne, hmap, ⟨⟨owner2, howned2, hr2⟩, h2⟩, ?_, hpage⟩
  intro w f hw hf
  have hkept : frameAt s2.mem (frameOf cr3) w = some f := by
    by_cases hthis : w = pageOf virt
    · subst hthis
      rw [hold f hf]
      exact hpage
    · have hleaf := hedits.leaf (v := w) (.inl hr1) (by omega) fun hin ↦ hthis hin.2
      have hleaf' := hext.view.leaf (v := w) (.inl hr) (by omega)
      rw [frameAt] at hf ⊢
      rwa [hleaf, hleaf']
  exact ⟨hkept, (hstep.quiet (howned2.frameAt_data hr2 hw hkept)).1⟩

/-- The loop of `tus_alloc` succeeds: its pages are mapped, and what was mapped stays. -/
theorem tusAllocLoop (n : ℕ) (h : Provided (frameOf cr3) demand s) (halign : virt % 4096 = 0)
    (hpages : UserPages virt n)
    (hmem : ∀ k < n, ∀ m ≤ 3, (pageOf (virt + 4096 * k), m + 1) ∈ demand) :
    ∃ s', s.tusAllocLoop cr3 n virt = (true, s') ∧ Provided (frameOf cr3) demand s' ∧
      Keeps (frameOf cr3) s s' ∧
      ∀ k < n, frameAt s'.mem (frameOf cr3) (pageOf (virt + 4096 * k)) ≠ none := by
  induction n generalizing s virt with
  | zero => exact ⟨s, rfl, h, .refl _ s, fun k hk ↦ by omega⟩
  | succ n ih =>
    have hfirst : ∀ m ≤ 3, (pageOf virt, m + 1) ∈ demand := by
      simpa using hmem 0 (by omega)
    obtain ⟨g, s1, s2, hframe, hne, hmap, h2, hkeep, hpage⟩ :=
      h.mapPage hpages.head halign hfirst
    have hshift : ∀ k, virt + 4096 * (k + 1) = virt + 4096 + 4096 * k := fun k ↦ by ring
    obtain ⟨s3, hrest, h3, hkeep', hmapped⟩ := ih h2 (by omega) hpages.tail fun k hk m hm ↦
      hshift k ▸ hmem (k + 1) (by omega) m hm
    refine ⟨s3, ?_, h3, hkeep.trans hkeep', ?_⟩
    · rw [State.tusAllocLoop, hframe]
      simp only [hne, if_false, ofFrame_and_not_low, hmap, ne_eq, not_true_eq_false, hrest]
    · intro k hk
      cases k with
      | zero =>
        rw [Nat.mul_zero, Nat.add_zero, (hkeep' hpages.head hpage).1]
        simp
      | succ k =>
        rw [hshift]
        exact hmapped k (by omega)

end Provided

/-- The byte at an address of the loaded space. -/
def State.byteAt (s : State) (a : ℕ) : Option UInt8 :=
  (frameAt s.mem (frameOf s.cr3) (pageOf a)).map fun f ↦ s.mem.byte f (a % 4096)

theorem State.byteAt_ne_none :
    s.byteAt a ≠ none ↔ frameAt s.mem (frameOf s.cr3) (pageOf a) ≠ none := by
  simp [byteAt]

theorem Keeps.byteAt (h : Keeps (frameOf s.cr3) s s') (hcr3 : s'.cr3 = s.cr3) {b : UInt8}
    (ha : a < 2 ^ 47) (hb : s.byteAt a = some b) : s'.byteAt a = some b := by
  obtain ⟨f, hf, rfl⟩ := map_eq_some_iff.mp hb
  have hv : pageOf a < 2 ^ 35 := by
    rw [pageOf]
    omega
  obtain ⟨hf', hmem⟩ := h hv hf
  rw [State.byteAt, hcr3, hf', map_some, byte_congr hmem]

namespace Fed

variable {r v f : ℕ} {demand : Finset (ℕ × ℕ)} {s : State}

/-- A page that is mapped can be written to. -/
theorem writable_of_frameAt (h : Fed r demand s) (hv : v < 2 ^ 35)
    (hf : frameAt s.mem r v = some f) : Paging.writable s.mem 4 r v := by
  rw [(h.small v hv).frameAt] at hf
  obtain ⟨u, hu, hlast⟩ := bind_eq_some_iff.mp hf
  -- from the last table upwards
  have hbelow : ∀ {d n t}, n + d = 3 → tableOn s.mem r v n = some t →
      Paging.writable s.mem (d + 1) t v := by
    intro d
    induction d with
    | zero =>
      rintro n t rfl ht
      obtain rfl := some.inj (hu.symm.trans ht)
      split at hlast
      case isTrue hpresent =>
        have hbit := h.writable hv le_rfl hu hpresent
        simpa [Paging.writable, digit] using hbit
      case isFalse => simp at hlast
    | succ d ih =>
      intro n t hn ht
      cases hnext : tableOn s.mem r v (n + 1) with
      | none =>
        rw [tableOn_none hnext (by omega)] at hu
        simp at hu
      | some t' =>
        obtain ⟨t₀, ht₀, hpresent, _, rfl⟩ := tableOn_eq_some hnext
        obtain rfl := some.inj (ht.symm.trans ht₀)
        have hbit := h.writable hv (by omega) ht hpresent
        have hrest := ih (by omega) hnext
        rw [digit, show 3 - n = d + 1 by omega] at hbit hrest
        rw [Paging.writable]
        simp only [hbit, hrest, Bool.or_true, Bool.and_true]
  exact hbelow (n := 0) rfl rfl

end Fed

/-! ## A new space -/

/-- The frames that a new space takes for `pages`: one for each page, and one for each table on the
way, shared by pages with the same leading digits. -/
def framesFor (pages : Finset ℕ) : ℕ :=
  ∑ n ∈ Finset.range 4, (pages.image fun v ↦ v / 512 ^ n).card

/-- Everything on the way to `pages`. -/
def demandOf (pages : Finset ℕ) : Finset (ℕ × ℕ) := pages ×ˢ Finset.Icc 1 4

theorem mem_demandOf {m : ℕ} (hv : v ∈ pages) (hm : m ≤ 3) : (v, m + 1) ∈ demandOf pages := by
  rw [demandOf, mem_product, mem_Icc]
  exact ⟨hv, by omega⟩

theorem card_missing_le (mem : Memory) (r : ℕ) (pages : Finset ℕ) :
    (missing mem r (demandOf pages)).card ≤ framesFor pages := by
  have hsub : missing mem r (demandOf pages) ⊆
      (Finset.range 4).biUnion fun n ↦
        (pages.image fun v ↦ v / 512 ^ n).image fun p ↦ (4 - n, p) := by
    intro x hx
    obtain ⟨v, n, hmem, _, rfl⟩ := mem_missing.mp hx
    rw [demandOf, mem_product, mem_Icc] at hmem
    dsimp only at hmem
    simp only [mem_biUnion, mem_range, mem_image]
    refine ⟨4 - n, by omega, _, ⟨v, hmem.1, rfl⟩, ?_⟩
    rw [show 4 - (4 - n) = n by omega]
  refine (card_le_card hsub).trans (card_biUnion_le.trans ?_)
  exact sum_le_sum fun n _ ↦ card_image_le

theorem provided_of_empty (h : Owned s owner) (hr : owner r = .top)
    (hempty : ∀ i < 256, present (s.mem r i) = false) (hzero : ¬s.pmm.IsFree 0)
    (hpages : ∀ v ∈ pages, v < 2 ^ 35) (hframes : framesFor pages ≤ s.pmm.freeFrames.card) :
    Provided r (demandOf pages) s := by
  obtain ⟨hsep, hsmall⟩ := h.separated hr
  have hdigit : ∀ {v}, v < 2 ^ 35 → digit v 0 < 256 := by
    intro v hv
    rw [digit]
    omega
  have hnone : ∀ {v n}, v < 2 ^ 35 → 1 ≤ n → tableOn s.mem r v n = none := by
    intro v n hv hn
    refine tableOn_none (n := 1) ?_ hn
    rw [tableOn_succ (n := 0) rfl, if_neg (by simp [hempty _ (hdigit hv)])]
  have hframe : ∀ {v n}, v < 2 ^ 35 → 1 ≤ n → frameOn s.mem r v n = none := by
    intro v n hv hn
    rw [frameOn]
    split
    · rw [(hsmall v hv).frameAt, hnone hv (by decide)]
      rfl
    · exact hnone hv hn
  refine ⟨⟨owner, h, hr⟩, hsep, hsmall, fun hv hn _ ↦ by simp [hframe hv hn], hzero, ?_, ?_,
    (card_missing_le _ _ _).trans hframes⟩
  · intro v n t hv _ ht hpresent
    cases n with
    | zero =>
      obtain rfl := some.inj ht
      simp [hempty _ (hdigit hv)] at hpresent
    | succ n => simp [hnone hv (show 1 ≤ n + 1 by omega)] at ht
  · intro v n hmem
    rw [demandOf, mem_product, mem_Icc] at hmem
    exact ⟨hpages v hmem.1, hmem.2⟩

/-- `vmm_space_clone` and `vmm_space_switch` to the new space. -/
def State.newSpace (s : State) : State := s.vmmSpaceClone.2.vmmSpaceSwitch s.vmmSpaceClone.1

theorem provided_newSpace (h : Owned s owner) (hzero : ¬s.pmm.IsFree 0)
    (hclone : s.vmmSpaceClone.1 ≠ 0) (hpages : ∀ v ∈ pages, v < 2 ^ 35)
    (hframes : framesFor pages ≤ s.newSpace.pmm.freeFrames.card) :
    Provided (frameOf s.newSpace.cr3) (demandOf pages) s.newSpace := by
  obtain ⟨owner', howned, _, _, _, _, hnew⟩ := h.vmmSpaceClone
  have howned' : Owned s.newSpace owner' :=
    ⟨howned.forest, howned.used, howned.handed, howned.total⟩
  have hphys : s.allocFrame.1 ≠ 0 := by
    intro hfail
    simp [State.vmmSpaceClone, hfail] at hclone
  have hresult : s.vmmSpaceClone.1 = s.allocFrame.1 ∧
      s.vmmSpaceClone.2.pmm = s.allocFrame.2.pmm ∧
      ∀ i < 256, s.vmmSpaceClone.2.mem (frameOf s.allocFrame.1) i = 0 := by
    rw [State.vmmSpaceClone]
    dsimp only
    rw [if_neg hphys]
    refine ⟨rfl, rfl, fun i hi ↦ ?_⟩
    simp only [fill_self, State.clearFrame]
    rw [if_neg (by omega)]
  refine provided_of_empty howned' (hnew hclone).1 ?_ ?_ hpages hframes
  · intro i hi
    have hentry := hresult.2.2 i hi
    rw [← hresult.1] at hentry
    change present (s.vmmSpaceClone.2.mem (frameOf s.vmmSpaceClone.1) i) = false
    rw [hentry]
    exact present_zero
  · intro hfree
    have hpmm : s.newSpace.pmm = s.allocFrame.2.pmm := hresult.2.1
    rw [hpmm] at hfree
    exact hzero (Pmm.isFree_of_pmmAllocFrame hfree)

end ToastyUnix.Mm
