import ToastyUnix.Mm.Supply

/-!
# The frames that mapping a page takes

An allocating walk takes one frame for every table that is missing on its way, and it fails only
when no frame is left for the next one. The free frames and the missing tables of any set of pages
that includes the page of the walk therefore go down together (`AddsTables.count`), whether the walk
succeeds or not.
-/

namespace ToastyUnix.Mm

open Paging Finset

variable {mem : Memory} {r : ℕ} {pages : Finset ℕ}

/-- The tables that are missing on the way to `pages`. -/
def missingTables (mem : Memory) (r : ℕ) (pages : Finset ℕ) : Finset (ℕ × ℕ) :=
  missing mem r (pages ×ˢ Finset.Icc 1 3)

theorem mem_missingTables {x : ℕ × ℕ} :
    x ∈ missingTables mem r pages ↔ ∃ v n, v ∈ pages ∧ 1 ≤ n ∧ n ≤ 3 ∧
      tableOn mem r v n = none ∧ (n, v / 512 ^ (4 - n)) = x := by
  rw [missingTables, mem_missing]
  constructor
  · rintro ⟨v, n, hmem, hnone, rfl⟩
    obtain ⟨hv, hpos, hle⟩ : v ∈ pages ∧ 1 ≤ n ∧ n ≤ 3 := by simpa using hmem
    exact ⟨v, n, hv, hpos, hle, by rwa [frameOn_le _ _ _ hle] at hnone, rfl⟩
  · rintro ⟨v, n, hv, hpos, hle, hnone, rfl⟩
    exact ⟨v, n, by simp [hv, hpos, hle], by rwa [frameOn_le _ _ _ hle], rfl⟩

theorem missingTables_congr {mem' : Memory}
    (h : ∀ v ∈ pages, ∀ n ≤ 3, tableOn mem' r v n = tableOn mem r v n) :
    missingTables mem' r pages = missingTables mem r pages := by
  ext x
  rw [mem_missingTables, mem_missingTables]
  constructor
  · rintro ⟨v, n, hv, hpos, hle, hnone, hx⟩
    exact ⟨v, n, hv, hpos, hle, (h v hv n hle).symm.trans hnone, hx⟩
  · rintro ⟨v, n, hv, hpos, hle, hnone, hx⟩
    exact ⟨v, n, hv, hpos, hle, (h v hv n hle).trans hnone, hx⟩

/-- What an allocating walk to page `v` does to the lower half of `r`: each table it adds was
missing and takes one free frame. -/
structure AddsTables (r v : ℕ) (s s' : State) : Prop where
  kept : ∀ {w m t}, w < 2 ^ 35 → m ≤ 3 → tableOn s.mem r w m = some t →
    tableOn s'.mem r w m = some t
  fresh : ∀ {w m t}, w < 2 ^ 35 → m ≤ 3 → tableOn s'.mem r w m = some t →
    tableOn s.mem r w m = some t ∨ s.pmm.IsFree t
  total : s'.pmm.totalFrames = s.pmm.totalFrames
  free : ∀ {f}, s'.pmm.IsFree f → s.pmm.IsFree f
  taken : ∀ {f}, s.pmm.IsFree f → s'.pmm.IsFree f ∨ LowerTable s'.mem r f
  count : ∀ {pages : Finset ℕ}, v ∈ pages → (∀ w ∈ pages, w < 2 ^ 35) →
    s'.pmm.freeFrames.card + (missingTables s.mem r pages).card =
      s.pmm.freeFrames.card + (missingTables s'.mem r pages).card

namespace AddsTables

variable {r v : ℕ} {s s' s'' : State}

theorem refl (r v : ℕ) (s : State) : AddsTables r v s s :=
  ⟨fun _ _ ht ↦ ht, fun _ _ ht ↦ .inl ht, rfl, fun hf ↦ hf, fun hf ↦ .inl hf, fun _ _ ↦ rfl⟩

theorem lowerTable {t : ℕ} (h : AddsTables r v s s') (ht : LowerTable s.mem r t) :
    LowerTable s'.mem r t := by
  obtain ⟨w, m, hw, hm, ht⟩ := ht
  exact ⟨w, m, hw, hm, h.kept hw hm ht⟩

theorem trans (h : AddsTables r v s s') (h' : AddsTables r v s' s'') : AddsTables r v s s'' where
  kept hw hm ht := h'.kept hw hm (h.kept hw hm ht)
  fresh hw hm ht := (h'.fresh hw hm ht).elim (h.fresh hw hm) fun hf ↦ .inr (h.free hf)
  total := h'.total.trans h.total
  free hf := h.free (h'.free hf)
  taken hf := (h.taken hf).elim h'.taken fun ht ↦ .inr (h'.lowerTable ht)
  count hv hpages := by
    have hfirst := h.count hv hpages
    have hsecond := h'.count hv hpages
    omega

theorem of_sameWalk (hwalk : ∀ w < 2 ^ 35, SameWalk s.mem s'.mem r w) (hpmm : s'.pmm = s.pmm) :
    AddsTables r v s s' where
  kept hw hm ht := ((hwalk _ hw).tableOn (by omega)).trans ht
  fresh hw hm ht := .inl (((hwalk _ hw).tableOn (by omega)).symm.trans ht)
  total := by rw [hpmm]
  free hf := hpmm ▸ hf
  taken hf := .inl (hpmm ▸ hf)
  count _ hpages := by
    rw [hpmm, missingTables_congr fun w hw n hn ↦ (hwalk w (hpages w hw)).tableOn (by omega)]

end AddsTables

namespace Walkable

variable {r v n t : ℕ} {s s' : State}

theorem sameMaps (h : Walkable r s) (hsep : Separated s' (Lower r) (Lower r))
    (hsame : SameMaps (Lower r) s s') (hfree : ∀ {f}, s'.pmm.IsFree f → s.pmm.IsFree f) :
    Walkable r s' where
  separated := hsep
  small v hv := hsame.noLarge ⟨rfl, hv⟩ (h.small v hv)
  nonzero hv hn := (hsame.zero ⟨rfl, hv⟩ (by omega)).not.mpr (h.nonzero hv hn)
  zero hz := h.zero (hfree hz)

theorem allocFrame_eq_zero (h : Walkable r s) (hzero : s.allocFrame.1 = 0) :
    s.allocFrame.2 = s ∧ s.pmm.freeFrames.card = 0 := by
  rcases s.pmm.pmmAllocFrame_cases with ⟨heq, hnone⟩ | ⟨g, hg, heq⟩
  · refine ⟨by rw [State.allocFrame, heq], card_eq_zero.mpr ?_⟩
    exact eq_empty_of_forall_notMem fun f hf ↦ hnone f (Pmm.mem_freeFrames.mp hf)
  · have hlt : g < 2 ^ 40 := hg.1.trans_le (h.separated.total.trans (by decide))
    have haddr : s.allocFrame.1 = ofFrame g := by
      rw [State.allocFrame, heq]
      rfl
    rw [haddr, ofFrame_eq_zero hlt] at hzero
    exact absurd (hzero ▸ hg) h.zero

/-- An allocation takes one of the free frames. -/
theorem allocFrame_ne_zero (h : Walkable r s) (hne : s.allocFrame.1 ≠ 0) :
    ∃ g, g ≠ 0 ∧ g < 2 ^ 40 ∧ s.allocFrame.1 = ofFrame g ∧ s.pmm.IsFree g ∧
      (∀ f, s.allocFrame.2.pmm.IsFree f ↔ s.pmm.IsFree f ∧ f ≠ g) ∧
      s.allocFrame.2.pmm.freeFrames.card + 1 = s.pmm.freeFrames.card := by
  have hpos : 0 < s.pmm.freeFrames.card := by
    rcases s.pmm.pmmAllocFrame_cases with ⟨heq, _⟩ | ⟨g, hg, _⟩
    · exact absurd (by rw [State.allocFrame, heq]) hne
    · exact card_pos.mpr ⟨g, Pmm.mem_freeFrames.mpr hg⟩
  obtain ⟨g, hg, hlt, haddr, hfree, _, hrest⟩ :=
    Pmm.pmmAllocFrame_of_pos h.separated.total h.zero hpos
  refine ⟨g, hg, hlt, haddr, hfree, fun f ↦ ?_, ?_⟩
  · rw [← Pmm.mem_freeFrames, ← Pmm.mem_freeFrames, State.allocFrame, hrest, mem_erase,
      and_comm]
  · have hcard := card_erase_add_one (Pmm.mem_freeFrames.mpr hfree)
    rwa [← hrest] at hcard

/-- A level of the walk adds the missing table, or there is no free frame for it. -/
theorem walkLevel (stride flag : BitVec 64) (h : Walkable r s) (hv : v < 2 ^ 35) (hn : n ≤ 2)
    (ht : tableOn s.mem r v n = some t) :
    Walkable r (s.walkLevel t (digit v n) stride flag true).2 ∧
      AddsTables r v s (s.walkLevel t (digit v n) stride flag true).2 ∧
      (∀ u, (s.walkLevel t (digit v n) stride flag true).1 = some u →
        tableOn (s.walkLevel t (digit v n) stride flag true).2.mem r v (n + 1) = some u) ∧
      ((s.walkLevel t (digit v n) stride flag true).1 = none →
        (s.walkLevel t (digit v n) stride flag true).2.pmm.freeFrames.card = 0 ∧
        tableOn (s.walkLevel t (digit v n) stride flag true).2.mem r v (n + 1) = none) := by
  have hlarge := h.small v hv n hn t ht
  have hnext := tableOn_succ ht
  cases hpresent : present (s.mem t (digit v n)) with
  | true =>
    rw [if_pos ⟨hpresent, hlarge⟩] at hnext
    have hne : target (s.mem t (digit v n)) ≠ 0 :=
      fun hzero ↦ h.nonzero hv hn (hzero ▸ hnext)
    rw [s.walkLevel_present _ _ _ hlarge hpresent, if_neg hne]
    exact ⟨h, .refl r v s, fun u hu ↦ hnext.trans hu, by simp⟩
  | false =>
    rw [if_neg (by simp [hpresent])] at hnext
    rw [s.walkLevel_new _ _ hlarge hpresent]
    by_cases hphys : s.allocFrame.1 = 0
    · obtain ⟨hsame, hcard⟩ := h.allocFrame_eq_zero hphys
      rw [if_pos hphys, hsame]
      exact ⟨h, .refl r v s, by simp, fun _ ↦ ⟨hcard, hnext⟩⟩
    · obtain ⟨g, hg, hlt, haddr, hfree, hrest, hcard⟩ := h.allocFrame_ne_zero hphys
      have hused : ¬s.allocFrame.2.pmm.IsFree g := fun hf ↦ ((hrest g).mp hf).2 rfl
      obtain ⟨halloc, hsame⟩ := h.separated.allocFrame
      obtain ⟨hlinked, hlinkedSame, hnew, htables⟩ := halloc.linkTable ⟨rfl, hv⟩ hn ht hpresent
        (fun hw hm ↦ h.separated.fresh hfree hw hm) hused hg hlt
      rw [if_neg hphys, haddr, frameOf_ofFrame hlt]
      refine ⟨h.sameMaps hlinked (hsame.trans hlinkedSame) fun hf ↦ ((hrest _).mp hf).1, ?_,
        fun u hu ↦ Option.some.inj hu ▸ hnew, by simp⟩
      refine ⟨fun hw hm ↦ (htables ⟨rfl, hw⟩ hm).1, fun hw hm hu ↦ ?_,
        by simp [State.linkTable, State.clearFrame, State.allocFrame],
        fun hf ↦ ((hrest _).mp hf).1, fun {f} hf ↦ ?_, fun {pages} hmem hpages ↦ ?_⟩
      · rcases (htables ⟨rfl, hw⟩ hm).2 hu with rfl | hold
        · exact .inr hfree
        · exact .inl hold
      · by_cases hsame : f = g
        · exact .inr ⟨v, n + 1, hv, by omega, hsame ▸ hnew⟩
        · exact .inl ((hrest f).mpr ⟨hf, hsame⟩)
      · have hmissing := halloc.missing_linkTable (pages ×ˢ Finset.Icc 1 3) hv hn ht hpresent
          (fun hw hm ↦ h.separated.fresh hfree ⟨rfl, hw⟩ hm) hused hg hlt fun {w m} hin ↦ by
            obtain ⟨hw, _, hm⟩ : w ∈ pages ∧ 1 ≤ m ∧ m ≤ 3 := by simpa using hin
            exact ⟨hpages w hw, by omega⟩
        have hlack : (n + 1, v / 512 ^ (4 - (n + 1))) ∈ missingTables s.mem r pages :=
          mem_missingTables.mpr ⟨v, n + 1, hmem, by omega, by omega, hnext, rfl⟩
        have hone := card_erase_add_one hlack
        have hmissing' : missingTables (s.allocFrame.2.linkTable t (digit v n) (ofFrame g)).mem r
            pages = (missingTables s.mem r pages).erase (n + 1, v / 512 ^ (4 - (n + 1))) := hmissing
        have hpmm : (s.allocFrame.2.linkTable t (digit v n) (ofFrame g)).pmm =
            s.allocFrame.2.pmm := rfl
        rw [hmissing', hpmm]
        omega

section Pages

variable {cr3 : BitVec 64} {virt : ℕ}

/-- `walk_pt` adds the tables that are missing until no frame is free. -/
theorem walkPt (user : Bool) (h : Walkable (frameOf cr3) s) (hv : pageOf virt < 2 ^ 35) :
    Walkable (frameOf cr3) (s.walkPt cr3 virt true user).2 ∧
      AddsTables (frameOf cr3) (pageOf virt) s (s.walkPt cr3 virt true user).2 ∧
      (∀ t i, (s.walkPt cr3 virt true user).1 = some (t, i) → i = digit (pageOf virt) 3 ∧
        tableOn (s.walkPt cr3 virt true user).2.mem (frameOf cr3) (pageOf virt) 3 = some t) ∧
      ((s.walkPt cr3 virt true user).1 = none →
        (s.walkPt cr3 virt true user).2.pmm.freeFrames.card = 0 ∧
        ∃ n ≤ 2, tableOn (s.walkPt cr3 virt true user).2.mem (frameOf cr3) (pageOf virt) (n + 1) =
          none) := by
  refine (State.walkPt_rule virt true user (fun n t _ s1 ↦ Walkable (frameOf cr3) s1 ∧
    AddsTables (frameOf cr3) (pageOf virt) s s1 ∧
    tableOn s1.mem (frameOf cr3) (pageOf virt) n = some t)
    (fun s1 ↦ Walkable (frameOf cr3) s1 ∧ AddsTables (frameOf cr3) (pageOf virt) s s1 ∧
      s1.pmm.freeFrames.card = 0 ∧
      ∃ n ≤ 2, tableOn s1.mem (frameOf cr3) (pageOf virt) (n + 1) = none)
    ⟨h, .refl _ _ s, rfl⟩ ?level).elim ?_ ?_
  case level =>
    rintro n t entries s1 result s2 stride flag hn - ⟨h1, hgrows1, ht⟩ heq
    obtain ⟨h2, hgrows2, hfound, hnone⟩ := h1.walkLevel stride flag hv hn ht
    rw [digit, heq] at h2 hgrows2 hfound hnone
    have hgrows := hgrows1.trans hgrows2
    exact ⟨fun hresult ↦ ⟨h2, hgrows, (hnone hresult).1, n, hn, (hnone hresult).2⟩,
      fun u hu ↦ ⟨h2, hgrows, hfound u hu⟩⟩
  · rintro ⟨hresult, h1, hgrows, hfull⟩
    exact ⟨h1, hgrows, by simp [hresult], fun _ ↦ hfull⟩
  · rintro ⟨t, entries, s1, ⟨h1, hgrows, ht⟩, heq⟩
    have hflags := s1.reflagged user entries
    obtain ⟨hsep, hsame⟩ := h1.separated.sameLinks hflags.toSameLinks
    rw [heq]
    refine ⟨h1.sameMaps hsep hsame fun hf ↦ hflags.pmm ▸ hf,
      hgrows.trans (.of_sameWalk (fun w _ ↦ hflags.sameWalk _ w) hflags.pmm), fun t' i hti ↦ ?_,
      by simp⟩
    obtain ⟨rfl, rfl⟩ : t = t' ∧ pageOf virt % 512 = i := by simpa using hti
    exact ⟨by simp [digit], ((hflags.sameWalk _ _).tableOn (by decide)).trans ht⟩

/-- `vmm_map_page_in` adds the missing tables, and fails without enough free frames for them. -/
theorem vmmMapPageIn {g : ℕ} (h : Walkable (frameOf cr3) s) (hv : pageOf virt < 2 ^ 35)
    (halign : virt % 4096 = 0) :
    Walkable (frameOf cr3) (s.vmmMapPageIn cr3 virt (ofFrame g) USER_PAGE).2 ∧
      AddsTables (frameOf cr3) (pageOf virt) s (s.vmmMapPageIn cr3 virt (ofFrame g) USER_PAGE).2 ∧
      ((s.vmmMapPageIn cr3 virt (ofFrame g) USER_PAGE).1 = 0 → ∀ n ≤ 3,
        tableOn (s.vmmMapPageIn cr3 virt (ofFrame g) USER_PAGE).2.mem (frameOf cr3) (pageOf virt)
          n ≠ none) ∧
      ((s.vmmMapPageIn cr3 virt (ofFrame g) USER_PAGE).1 ≠ 0 →
        (s.vmmMapPageIn cr3 virt (ofFrame g) USER_PAGE).2.pmm.freeFrames.card = 0 ∧
        ∃ n ≤ 2, tableOn (s.vmmMapPageIn cr3 virt (ofFrame g) USER_PAGE).2.mem (frameOf cr3)
          (pageOf virt) (n + 1) = none) := by
  obtain ⟨hwalk, hgrows, hfound, hnone⟩ := h.walkPt (decide (USER_PAGE &&& VMM_USER ≠ 0)) hv
  have hargs : ¬(virt % 4096 ≠ 0 ∨ ofFrame g &&& 0xFFF ≠ 0) := by
    rw [not_or, not_not, not_not]
    exact ⟨halign, ofFrame_and_low g⟩
  rw [State.vmmMapPageIn, if_neg hargs]
  split
  case h_1 s1 heq =>
    rw [heq] at hwalk hgrows hnone
    exact ⟨hwalk, hgrows, by simp, fun _ ↦ hnone rfl⟩
  case h_2 t i s1 heq =>
    rw [heq] at hwalk hgrows hfound
    obtain ⟨rfl, ht⟩ := hfound t i rfl
    generalize (ofFrame g &&& PTE_ADDR_MASK) ||| USER_PAGE ||| VMM_PRESENT = e
    have htables := fun {w m : ℕ} (hw : w < 2 ^ 35) (hm : m ≤ 3) ↦
      hwalk.separated.apart.tableOn_write (e := e) ⟨rfl, hv⟩ ht
        (show Lower (frameOf cr3) (frameOf cr3) w from ⟨rfl, hw⟩) hm
    obtain ⟨hsep, _, hsmall, _⟩ := hwalk.separated.writeLeaf (e := e) ⟨rfl, hv⟩
      (hwalk.small _ hv) (hwalk.not_stopsAtZero hv) ht
    refine ⟨⟨hsep, fun w hw ↦ hsmall ⟨rfl, hw⟩ (hwalk.small w hw), ?_, hwalk.zero⟩,
      hgrows.trans ⟨?_, ?_, rfl, fun hf ↦ hf, fun hf ↦ .inl hf, ?_⟩, fun _ n hn hlack ↦ ?_, by simp⟩
    · intro w n hw hn
      rw [htables hw (by omega)]
      exact hwalk.nonzero hw hn
    · exact fun hw hm hu ↦ (htables hw hm).trans hu
    · exact fun hw hm hu ↦ .inl ((htables hw hm).symm.trans hu)
    · intro pages _ hpages
      rw [missingTables_congr fun w hw n hn ↦ htables (hpages w hw) hn]
    · rw [htables hv hn] at hlack
      rw [tableOn_none hlack hn] at ht
      simp at ht

end Pages

end Walkable

end ToastyUnix.Mm
