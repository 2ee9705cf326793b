import ToastyUnix.Mm.AddressSpaces

/-!
# The shared kernel heap

A cloned space gets a copy of the upper half of the boot loader's top table, so it shares the tables
below. The heap is the same in all spaces as long as nobody changes where the heap's entry of a top
table leads. `vmm_reserve_tables` fills that entry before the first clone, and afterwards tables are
edited according to their level only: no write that is meant for a table below the top reaches a top
table, provided that the boot loader uses no frame as a table of two levels.
-/

namespace ToastyUnix.Mm

open Paging Function List

/-- Every table has one level, top tables have no large pages and no table is free. -/
structure Levelled (s : State) (level : ℕ → ℕ) : Prop where
  levels : Levels s.mem level
  plain : ∀ {t i}, level t = 4 → i < 512 → large (s.mem t i) = false
  used : ∀ {f}, level f ≠ 0 → ¬s.pmm.IsFree f
  total : s.pmm.totalFrames ≤ MAX_FRAMES

/-- What an operation does to the tables: it may add some, and changes the links of top tables in
`changed` only. -/
structure Grows (changed : ℕ → ℕ → Prop) (s s' : State) (level level' : ℕ → ℕ) : Prop where
  levels : ∀ {f}, level f ≠ 0 → level' f = level f
  tops : ∀ {t i}, level t = 4 → i < 512 → ¬changed t i → SameLink (s.mem t i) (s'.mem t i)
  free : ∀ {f}, s'.pmm.IsFree f → s.pmm.IsFree f

namespace Grows

variable {changed changed' : ℕ → ℕ → Prop} {s s' s'' : State} {level level' level'' : ℕ → ℕ}

theorem refl (s : State) (level : ℕ → ℕ) : Grows (fun _ _ ↦ False) s s level level :=
  ⟨fun _ ↦ rfl, fun _ _ _ ↦ ⟨rfl, rfl, rfl⟩, fun h ↦ h⟩

theorem mono (h : Grows changed s s' level level')
    (hsub : ∀ t i, level t = 4 → changed t i → changed' t i) : Grows changed' s s' level level' :=
  ⟨h.levels, fun ht hi hkept ↦ h.tops ht hi fun hc ↦ hkept (hsub _ _ ht hc), h.free⟩

theorem weaken (h : Grows (fun _ _ ↦ False) s s' level level') : Grows changed s s' level level' :=
  h.mono fun _ _ _ ↦ False.elim

theorem trans (h : Grows changed s s' level level') (h' : Grows changed s' s'' level' level'') :
    Grows changed s s'' level level'' where
  levels {f} hf := by
    have hmid := h.levels hf
    exact (h'.levels (hmid ▸ hf)).trans hmid
  tops {t i} ht hi hkept := by
    obtain ⟨hpresent, hlarge, htarget⟩ := h.tops ht hi hkept
    have ht' : level' t = 4 := (h.levels (by omega)).trans ht
    obtain ⟨hpresent', hlarge', htarget'⟩ := h'.tops ht' hi hkept
    exact ⟨hpresent'.trans hpresent, hlarge'.trans hlarge, htarget'.trans htarget⟩
  free hf := h.free (h'.free hf)

end Grows

namespace Levelled

variable {s : State} {level : ℕ → ℕ} {t i d : ℕ}

theorem allocFrame (h : Levelled s level) :
    Levelled s.allocFrame.2 level ∧ Grows (fun _ _ ↦ False) s s.allocFrame.2 level level where
  left :=
    { h with
      used := fun hf hfree ↦ h.used hf (Pmm.isFree_of_pmmAllocFrame hfree)
      total := by simpa [State.allocFrame] using h.total }
  right := ⟨fun _ ↦ rfl, fun _ _ _ ↦ ⟨rfl, rfl, rfl⟩, Pmm.isFree_of_pmmAllocFrame⟩

/-- An allocated frame has not been a table. -/
theorem fresh (h : Levelled s level) (hphys : s.allocFrame.1 ≠ 0) :
    ∃ g, g ≠ 0 ∧ g < 2 ^ 40 ∧ s.allocFrame.1 = ofFrame g ∧ level g = 0 ∧
      ¬s.allocFrame.2.pmm.IsFree g := by
  obtain ⟨g, hzero, hlt, haddr, hfree, hused⟩ := Pmm.pmmAllocFrame_eq_frame h.total hphys
  refine ⟨g, hzero, hlt, haddr, ?_, hused⟩
  by_contra hlevel
  exact h.used hlevel hfree

/-- An allocated frame becomes a table. -/
theorem newTable {g : ℕ} (words : ℕ → BitVec 64) (h : Levelled s level) (hg : level g = 0)
    (hused : ¬s.pmm.IsFree g) (hplain : d = 4 → ∀ i < 512, large (words i) = false)
    (hlevels : Levels (s.mem.fill g words) (update level g d)) :
    Levelled { s with mem := s.mem.fill g words } (update level g d) ∧
      Grows (fun _ _ ↦ False) s { s with mem := s.mem.fill g words } level
        (update level g d) := by
  have hkept : ∀ {f}, level f ≠ 0 → f ≠ g := by
    rintro f hf rfl
    exact hf hg
  refine ⟨⟨hlevels, ?_, ?_, h.total⟩, ⟨?_, ?_, fun hf ↦ hf⟩⟩
  · intro u j hu hj
    by_cases hug : u = g
    · subst hug
      rw [update_self] at hu
      dsimp only
      rw [Memory.fill_self]
      exact hplain hu j hj
    · rw [update_of_ne hug] at hu
      dsimp only
      rw [Memory.fill_of_ne _ _ hug]
      exact h.plain hu hj
  · intro f hf
    by_cases hfg : f = g
    · rwa [hfg]
    · rw [update_of_ne hfg] at hf
      exact h.used hf
  · exact fun hf ↦ update_of_ne (hkept hf) _ _
  · intro u j hu _ _
    dsimp only
    rw [Memory.fill_of_ne _ _ (hkept (by omega))]
    exact ⟨rfl, rfl, rfl⟩

/-- A table gets an entry that fits its level. -/
theorem write {e : BitVec 64} (h : Levelled s level)
    (he : 2 ≤ level t → present e → large e = false → level (target e) + 1 = level t)
    (hplain : level t = 4 → large e = false) :
    Levelled { s with mem := s.mem.write t i e } level ∧
      Grows (fun u j ↦ u = t ∧ j = i) s { s with mem := s.mem.write t i e } level level := by
  refine ⟨⟨h.levels.write he, ?_, h.used, h.total⟩, ⟨fun _ ↦ rfl, ?_, fun hf ↦ hf⟩⟩
  · intro u j hu hj
    dsimp only [Memory.write]
    split
    case isTrue hsame => exact hplain (hsame.1 ▸ hu)
    case isFalse => exact h.plain hu hj
  · intro u j _ _ hne
    dsimp only
    rw [Memory.write_of_ne _ _ hne]
    exact ⟨rfl, rfl, rfl⟩

theorem sameLinks {s' : State} (h : Levelled s level) (hlinks : s.SameLinks s') :
    Levelled s' level ∧ Grows (fun _ _ ↦ False) s s' level level := by
  refine ⟨⟨h.levels.sameLink hlinks.links, ?_, ?_, ?_⟩, ⟨fun _ ↦ rfl, ?_, ?_⟩⟩
  · intro t i ht hi
    rw [(hlinks.links t i).2.1]
    exact h.plain ht hi
  · rw [hlinks.pmm]
    exact h.used
  · rw [hlinks.pmm]
    exact h.total
  · exact fun _ _ _ ↦ hlinks.links _ _
  · rw [hlinks.pmm]
    exact fun hf ↦ hf

/-- The split of a large page below the top table. -/
theorem splitLarge (stride flag : BitVec 64) (h : Levelled s level) (ht : level t = d + 2)
    (hd : d ≤ 2) (hi : i < 512) (hflag : d = 1 → flag = PTE_LARGE) :
    ∃ level', Levelled (s.splitLarge t i stride flag).2 level' ∧
      Grows (fun _ _ ↦ False) s (s.splitLarge t i stride flag).2 level level' ∧
      ((s.splitLarge t i stride flag).1 → present ((s.splitLarge t i stride flag).2.mem t i) →
        level' (target ((s.splitLarge t i stride flag).2.mem t i)) = d + 1) := by
  rw [State.splitLarge]
  split
  case isTrue hplain =>
    refine ⟨level, h, .refl s level, fun _ hpresent ↦ ?_⟩
    have hnext := h.levels hi (by omega) hpresent (and_PTE_LARGE_eq_zero.mp hplain)
    exact Nat.succ.inj (hnext.trans ht)
  case isFalse hne =>
    have hlarge : large (s.mem t i) = true := by
      simpa using mt and_PTE_LARGE_eq_zero.mpr hne
    have hbelow : level t ≠ 4 := fun htop ↦ by simp [h.plain htop hi] at hlarge
    obtain ⟨halloc, hgrows⟩ := h.allocFrame
    simp only
    split
    case isTrue => exact ⟨level, halloc, hgrows, by simp⟩
    case isFalse hphys =>
      obtain ⟨g, hzero, hlt, haddr, hg, hused⟩ := h.fresh hphys
      have htg : t ≠ g := by
        rintro rfl
        omega
      rw [haddr, frameOf_ofFrame hlt, Memory.fill_of_ne _ _ htg]
      -- a page directory gets large pages, the last table any entries
      have hmark : 2 ≤ d + 1 → ∀ j : ℕ,
          large (((s.mem t i &&& PTE_ADDR_MASK) + BitVec.ofNat 64 j * stride) |||
            ((s.mem t i &&& SPLIT_FLAGS_MASK) ||| flag)) = true := by
        intro hd' j
        rw [hflag (by omega)]
        simp [show large PTE_LARGE = true by decide]
      obtain ⟨htable, htableGrows⟩ := halloc.newTable _ (d := d + 1) hg hused (by omega)
        (halloc.levels.newTable hg fun hd' j _ _ hplain ↦
          Bool.noConfusion ((hmark hd' j).symm.trans hplain))
      have hkept : update level g (d + 1) t = level t := update_of_ne htg _ _
      obtain ⟨hwritten, hwrittenGrows⟩ := htable.write (t := t) (i := i)
        (e := ofFrame g ||| (s.mem t i &&& 0xFFF))
        (fun _ _ hplain ↦ by simp [hlarge, show large 0xFFF#64 = true by decide] at hplain)
        (fun htop ↦ absurd (hkept.symm.trans htop) hbelow)
      refine ⟨_, hwritten, (hgrows.trans htableGrows).trans (hwrittenGrows.mono ?_), fun _ _ ↦ ?_⟩
      · rintro _ _ htop ⟨rfl, rfl⟩
        exact hbelow (hkept.symm.trans htop)
      · dsimp only
        rw [Memory.write_self, target_or, target_ofFrame hlt, update_self]
        rw [BitVec.and_assoc]
        simp [show 0xFFF#64 &&& addressMask = 0 by decide]

/-- The next table, which is new if the entry was absent. -/
theorem tableFetch (allocate : Bool) (h : Levelled s level) (ht : level t = d + 2) (hd : d ≤ 2)
    (hlink : present (s.mem t i) → level (target (s.mem t i)) = d + 1) :
    ∃ level', Levelled (s.tableFetch t i allocate).2 level' ∧
      Grows (fun u j ↦ u = t ∧ j = i ∧ allocate ∧ present (s.mem t i) = false) s
        (s.tableFetch t i allocate).2 level level' ∧
      ((s.tableFetch t i allocate).1 ≠ 0 → level' (frameOf (s.tableFetch t i allocate).1) = d + 1) := by
  rw [State.tableFetch]
  split
  case isTrue hpresent =>
    exact ⟨level, h, (Grows.refl s level).weaken, fun _ ↦ hlink (and_VMM_PRESENT_ne_zero.mp hpresent)⟩
  case isFalse habsent =>
    replace habsent : present (s.mem t i) = false := by
      simpa using mt and_VMM_PRESENT_ne_zero.mpr habsent
    cases allocate with
    | false => exact ⟨level, h, (Grows.refl s level).weaken, fun hne ↦ absurd rfl hne⟩
    | true =>
      obtain ⟨halloc, hgrows⟩ := h.allocFrame
      simp only [Bool.not_true, Bool.false_eq_true, if_false]
      split
      case isTrue =>
        exact ⟨level, halloc, hgrows.weaken, fun hne ↦ absurd rfl hne⟩
      case isFalse hphys =>
        obtain ⟨g, hzero, hlt, haddr, hg, hused⟩ := h.fresh hphys
        have htg : t ≠ g := by
          rintro rfl
          omega
        rw [haddr, State.linkTable, State.clearFrame, frameOf_ofFrame hlt]
        obtain ⟨htable, htableGrows⟩ := halloc.newTable (fun _ ↦ 0) hg hused
          (fun _ _ _ ↦ large_zero) (halloc.levels.newTable (d := d + 1) hg fun _ _ _ hp ↦ by simp at hp)
        obtain ⟨hwritten, hwrittenGrows⟩ := htable.write (t := t) (i := i) (e := linkEntry g)
          (fun _ _ _ ↦ by rw [target_linkEntry hlt, update_self, update_of_ne htg, ht])
          fun _ ↦ large_linkEntry g
        refine ⟨_, hwritten, ?_, fun _ ↦ update_self _ _ _⟩
        apply (hgrows.trans htableGrows).weaken.trans
        apply hwrittenGrows.mono
        rintro _ _ _ ⟨rfl, rfl⟩
        exact ⟨rfl, rfl, trivial, habsent⟩

theorem walkLevel (stride flag : BitVec 64) (allocate : Bool) (h : Levelled s level)
    (ht : level t = d + 2) (hd : d ≤ 2) (hi : i < 512) (hflag : d = 1 → flag = PTE_LARGE) :
    ∃ level', Levelled (s.walkLevel t i stride flag allocate).2 level' ∧
      Grows (fun u j ↦ u = t ∧ j = i ∧ allocate ∧ present (s.mem t i) = false) s
        (s.walkLevel t i stride flag allocate).2 level level' ∧
      ∀ u, (s.walkLevel t i stride flag allocate).1 = some u → level' u = d + 1 := by
  obtain ⟨level1, h1, hgrows1, hlink⟩ := h.splitLarge stride flag ht hd hi hflag
  have ht1 : level1 t = d + 2 := (hgrows1.levels (by omega)).trans ht
  unfold State.walkLevel
  split
  case h_1 s1 heq =>
    rw [heq] at h1 hgrows1
    exact ⟨level1, h1, hgrows1.weaken, by simp⟩
  case h_2 s1 heq =>
    rw [heq] at h1 hgrows1 hlink
    obtain ⟨level2, h2, hgrows2, hnext⟩ := h1.tableFetch (i := i) allocate ht1 hd (hlink rfl)
    have hgrows : Grows (fun u j ↦ u = t ∧ j = i ∧ allocate ∧ present (s.mem t i) = false) s
        (s1.tableFetch t i allocate).2 level level2 := by
      apply hgrows1.weaken.trans
      apply hgrows2.mono
      rintro _ _ htop ⟨rfl, rfl, hallocate, habsent⟩
      have hsame := hgrows1.tops (i := _) ((hgrows1.levels (by omega)).symm.trans htop) hi not_false
      exact ⟨rfl, rfl, hallocate, hsame.1.symm.trans habsent⟩
    simp only
    split
    case isTrue => exact ⟨level2, h2, hgrows, by simp⟩
    case isFalse hphys =>
      refine ⟨level2, h2, hgrows, fun u hu ↦ ?_⟩
      rw [← Option.some.inj hu]
      exact hnext hphys

section Pages

variable {cr3 : BitVec 64} (virt : ℕ)

/-- The walk may fill an absent entry of the top table, and ends in a table of the last level. -/
theorem walkPt (allocate user : Bool) (h : Levelled s level) (htop : level (frameOf cr3) = 4) :
    ∃ level', Levelled (s.walkPt cr3 virt allocate user).2 level' ∧
      Grows (fun u j ↦ u = frameOf cr3 ∧ j = virt / 2 ^ 39 % 512 ∧ allocate ∧
        present (s.mem (frameOf cr3) (virt / 2 ^ 39 % 512)) = false) s
        (s.walkPt cr3 virt allocate user).2 level level' ∧
      ∀ t i, (s.walkPt cr3 virt allocate user).1 = some (t, i) → level' t = 1 := by
  have hindex : ∀ n, n % 512 < 512 := fun n ↦ Nat.mod_lt n (by decide)
  -- the edits of the lower tables are not seen in top tables
  have hlower : ∀ {s s' : State} {level level' : ℕ → ℕ} {t i : ℕ} {p : Prop} {changed}, level t ≠ 4 →
      Grows (fun u j ↦ u = t ∧ j = i ∧ p) s s' level level' → Grows changed s s' level level' := by
    intro s s' level level' t i p changed ht hgrows
    apply hgrows.mono
    rintro _ _ htop ⟨rfl, _⟩
    exact absurd htop ht
  simp only [State.walkPt]
  obtain ⟨level1, h1, hgrows1, hfound1⟩ := h.walkLevel 0x40000000 0 allocate (d := 2) htop le_rfl
    (hindex (virt / 2 ^ 39)) (by decide)
  split
  case h_1 s1 heq1 =>
    rw [heq1] at h1 hgrows1
    exact ⟨level1, h1, hgrows1, by simp⟩
  case h_2 pdpt s1 heq1 =>
  rw [heq1] at h1 hgrows1 hfound1
  have hpdpt := hfound1 pdpt rfl
  obtain ⟨level2, h2, hgrows2, hfound2⟩ := h1.walkLevel 0x200000 PTE_LARGE allocate hpdpt (by decide)
    (hindex (virt / 2 ^ 30)) fun _ ↦ rfl
  replace hgrows2 := hgrows1.trans (hlower (by omega) hgrows2)
  split
  case h_1 s2 heq2 =>
    rw [heq2] at h2 hgrows2
    exact ⟨level2, h2, hgrows2, by simp⟩
  case h_2 pd s2 heq2 =>
  rw [heq2] at h2 hgrows2 hfound2
  have hpd := hfound2 pd rfl
  obtain ⟨level3, h3, hgrows3, hfound3⟩ := h2.walkLevel 0x1000 0 allocate hpd (by decide)
    (hindex (virt / 2 ^ 21)) (by decide)
  replace hgrows3 := hgrows2.trans (hlower (by omega) hgrows3)
  split
  case h_1 s3 heq3 =>
    rw [heq3] at h3 hgrows3
    exact ⟨level3, h3, hgrows3, by simp⟩
  case h_2 pt s3 heq3 =>
  rw [heq3] at h3 hgrows3 hfound3
  obtain ⟨h4, hgrows4⟩ := h3.sameLinks (s3.reflagged user [(frameOf cr3, virt / 2 ^ 39 % 512),
    (pdpt, virt / 2 ^ 30 % 512), (pd, virt / 2 ^ 21 % 512)]).toSameLinks
  refine ⟨level3, h4, hgrows3.trans hgrows4.weaken, fun t i hti ↦ ?_⟩
  obtain ⟨rfl, _⟩ := Prod.mk.inj (Option.some.inj hti)
  exact hfound3 pt rfl

theorem writeLeaf {e : BitVec 64} (h : Levelled s level) (ht : level t = 1) :
    Levelled { s with mem := s.mem.write t i e } level ∧
      Grows (fun _ _ ↦ False) s { s with mem := s.mem.write t i e } level level := by
  obtain ⟨hwritten, hgrows⟩ := h.write (t := t) (i := i) (e := e) (by omega) (by omega)
  refine ⟨hwritten, hgrows.mono ?_⟩
  rintro _ _ htop ⟨rfl, _⟩
  omega

theorem vmmMapPageIn (phys flags : BitVec 64) (h : Levelled s level)
    (htop : level (frameOf cr3) = 4) :
    ∃ level', Levelled (s.vmmMapPageIn cr3 virt phys flags).2 level' ∧
      Grows (fun u j ↦ u = frameOf cr3 ∧ j = virt / 2 ^ 39 % 512 ∧ true ∧
        present (s.mem (frameOf cr3) (virt / 2 ^ 39 % 512)) = false) s
        (s.vmmMapPageIn cr3 virt phys flags).2 level level' := by
  obtain ⟨level', hwalk, hgrows, hfound⟩ := h.walkPt virt true
    (decide (flags &&& VMM_USER ≠ 0)) htop
  rw [State.vmmMapPageIn]
  split
  case isTrue => exact ⟨level, h, (Grows.refl s level).weaken⟩
  case isFalse =>
    split
    case h_1 s' heq =>
      rw [heq] at hwalk hgrows
      exact ⟨level', hwalk, hgrows⟩
    case h_2 t i s' heq =>
      rw [heq] at hwalk hgrows hfound
      obtain ⟨hleaf, hleafGrows⟩ := hwalk.writeLeaf (i := i)
        (e := (phys &&& PTE_ADDR_MASK) ||| flags ||| VMM_PRESENT) (hfound t i rfl)
      exact ⟨level', hleaf, hgrows.trans hleafGrows.weaken⟩

theorem vmmUnmapPageIn (h : Levelled s level) (htop : level (frameOf cr3) = 4) :
    ∃ level', Levelled (s.vmmUnmapPageIn cr3 virt) level' ∧
      Grows (fun _ _ ↦ False) s (s.vmmUnmapPageIn cr3 virt) level level' := by
  obtain ⟨level', hwalk, hgrows, hfound⟩ := h.walkPt virt false false htop
  replace hgrows : Grows (fun _ _ ↦ False) s (s.walkPt cr3 virt false false).2 level level' :=
    hgrows.mono fun _ _ _ hc ↦ Bool.false_ne_true hc.2.2.1
  unfold State.vmmUnmapPageIn
  split
  case h_1 s' heq =>
    rw [heq] at hwalk hgrows
    exact ⟨level', hwalk, hgrows⟩
  case h_2 t i s' heq =>
    rw [heq] at hwalk hgrows hfound
    obtain ⟨hleaf, hleafGrows⟩ := hwalk.writeLeaf (i := i) (e := 0) (hfound t i rfl)
    exact ⟨level', hleaf, hgrows.trans hleafGrows⟩

theorem vmmTranslateIn (h : Levelled s level) (htop : level (frameOf cr3) = 4) :
    ∃ level', Levelled (s.vmmTranslateIn cr3 virt).2 level' ∧
      Grows (fun _ _ ↦ False) s (s.vmmTranslateIn cr3 virt).2 level level' := by
  obtain ⟨level', hwalk, hgrows, _⟩ := h.walkPt virt false false htop
  have hstate : (s.vmmTranslateIn cr3 virt).2 = (s.walkPt cr3 virt false false).2 := by
    unfold State.vmmTranslateIn
    split
    case h_1 s' heq => rw [heq]
    case h_2 t i s' heq =>
      rw [heq]
      split <;> rfl
  rw [hstate]
  exact ⟨level', hwalk, hgrows.mono fun _ _ _ hc ↦ Bool.false_ne_true hc.2.2.1⟩

end Pages

end Levelled

/-! ## Translations through shared tables -/

variable {e e' : BitVec 64}

theorem sameLink_and_PTE_ADDR_MASK (h : SameLink e e') :
    e' &&& PTE_ADDR_MASK = e &&& PTE_ADDR_MASK := by
  have haddr : ∀ x : BitVec 64, x &&& PTE_ADDR_MASK = ofFrame (target x) :=
    fun x ↦ (ofFrame_target x).symm
  rw [haddr, haddr, h.2.2]

theorem sameLink_and_VMM_PRESENT (h : SameLink e e') :
    e' &&& VMM_PRESENT = 0 ↔ e &&& VMM_PRESENT = 0 := by
  rw [← not_iff_not, ← ne_eq, ← ne_eq, and_VMM_PRESENT_ne_zero, and_VMM_PRESENT_ne_zero, h.1]

section SameTop

variable {s : State} {cr3 cr3' : BitVec 64} {virt : ℕ}

section

variable (hlink : SameLink (s.mem (frameOf cr3) (virt / 2 ^ 39 % 512)) (s.mem (frameOf cr3') (virt
  / 2 ^ 39 % 512)))
include hlink

/-- Walks through top tables that agree on the entry for `virt`. -/
theorem State.walkPt_of_sameLink
    (hlarge : large (s.mem (frameOf cr3) (virt / 2 ^ 39 % 512)) = false) :
    (s.walkPt cr3' virt false false).1 = (s.walkPt cr3 virt false false).1 ∧
      ∀ t i, SameLink ((s.walkPt cr3 virt false false).2.mem t i)
        ((s.walkPt cr3' virt false false).2.mem t i) := by
  have hlarge' := hlink.2.1.trans hlarge
  have htop : s.walkLevel (frameOf cr3') (virt / 2 ^ 39 % 512) 0x40000000 0 false =
      s.walkLevel (frameOf cr3) (virt / 2 ^ 39 % 512) 0x40000000 0 false := by
    cases hpresent : present (s.mem (frameOf cr3) (virt / 2 ^ 39 % 512)) with
    | false =>
      rw [s.walkLevel_absent _ _ hlarge hpresent,
        s.walkLevel_absent _ _ hlarge' (hlink.1.trans hpresent)]
    | true =>
      rw [s.walkLevel_present _ _ _ hlarge hpresent,
        s.walkLevel_present _ _ _ hlarge' (hlink.1.trans hpresent), hlink.2.2]
  simp only [walkPt, htop]
  -- below the top tables the walks are one walk
  obtain ⟨_ | pdpt, s1⟩ := s.walkLevel (frameOf cr3) (virt / 2 ^ 39 % 512) 0x40000000 0 false
  · exact ⟨rfl, fun _ _ ↦ ⟨rfl, rfl, rfl⟩⟩
  dsimp only
  obtain ⟨_ | pd, s2⟩ := s1.walkLevel pdpt (virt / 2 ^ 30 % 512) 0x200000 PTE_LARGE false
  · exact ⟨rfl, fun _ _ ↦ ⟨rfl, rfl, rfl⟩⟩
  dsimp only
  obtain ⟨_ | pt, s3⟩ := s2.walkLevel pd (virt / 2 ^ 21 % 512) 0x1000 0 false
  · exact ⟨rfl, fun _ _ ↦ ⟨rfl, rfl, rfl⟩⟩
  refine ⟨rfl, fun t i ↦ ?_⟩
  have hupdate := fun entries ↦
    (s3.updateEntries_sameLinks Owned.sameLink_and_not_PTE_NX entries).links t i
  obtain ⟨hpresent, hbit, htarget⟩ := hupdate [(frameOf cr3, virt / 2 ^ 39 % 512),
    (pdpt, virt / 2 ^ 30 % 512), (pd, virt / 2 ^ 21 % 512)]
  obtain ⟨hpresent', hbit', htarget'⟩ := hupdate [(frameOf cr3', virt / 2 ^ 39 % 512),
    (pdpt, virt / 2 ^ 30 % 512), (pd, virt / 2 ^ 21 % 512)]
  exact ⟨hpresent'.trans hpresent.symm, hbit'.trans hbit.symm, htarget'.trans htarget.symm⟩

/-- Spaces whose top tables agree on the entry for `virt` translate it alike. -/
theorem State.vmmTranslateIn_of_sameLink
    (hlarge : large (s.mem (frameOf cr3) (virt / 2 ^ 39 % 512)) = false) :
    (s.vmmTranslateIn cr3' virt).1 = (s.vmmTranslateIn cr3 virt).1 := by
  obtain ⟨hfound, hlinks⟩ := s.walkPt_of_sameLink hlink hlarge
  unfold vmmTranslateIn
  generalize s.walkPt cr3 virt false false = w at hfound hlinks
  generalize s.walkPt cr3' virt false false = w' at hfound hlinks
  obtain ⟨found, s1⟩ := w
  obtain ⟨_ | ⟨t, i⟩, s1'⟩ := w'
  · obtain rfl : none = found := hfound
    rfl
  · obtain rfl : some (t, i) = found := hfound
    simp only [sameLink_and_VMM_PRESENT (hlinks t i), sameLink_and_PTE_ADDR_MASK (hlinks t i)]
    split <;> rfl

end

end SameTop

/-- The addresses of the kernel heap. -/
def InHeap (virt : ℕ) : Prop :=
  VMM_KHEAP_BASE ≤ virt ∧ virt < VMM_KHEAP_BASE + VMM_KHEAP_SIZE

theorem InHeap.pml4Idx {virt : ℕ} (h : InHeap virt) : virt / 2 ^ 39 % 512 = 511 := by
  obtain ⟨hlow, hhigh⟩ := h
  simp only [VMM_KHEAP_BASE, VMM_KHEAP_SIZE] at hlow hhigh
  omega

namespace Spaces

/-- The operations of a running kernel: spaces are cloned and loaded, and pages mapped, unmapped and
looked up in the loaded space or a given one. Frames may be allocated for other purposes. -/
inductive HeapStep (σ : Spaces) : Spaces → Prop
  | clone : σ.mm.vmmSpaceClone.1 ≠ 0 →
      HeapStep σ ⟨σ.mm.vmmSpaceClone.2, σ.clones ++ [σ.mm.vmmSpaceClone.1]⟩
  | cloneFails : σ.mm.vmmSpaceClone.1 = 0 → HeapStep σ ⟨σ.mm.vmmSpaceClone.2, σ.clones⟩
  | switch {cr3 : BitVec 64} : cr3 ∈ σ.all → HeapStep σ ⟨σ.mm.vmmSpaceSwitch cr3, σ.clones⟩
  | map (virt : ℕ) (phys flags : BitVec 64) :
      HeapStep σ ⟨(σ.mm.vmmMapPage virt phys flags).2, σ.clones⟩
  | unmap (virt : ℕ) : HeapStep σ ⟨σ.mm.vmmUnmapPage virt, σ.clones⟩
  | mapIn {cr3 : BitVec 64} (virt : ℕ) (phys flags : BitVec 64) : cr3 ∈ σ.all →
      HeapStep σ ⟨(σ.mm.vmmMapPageIn cr3 virt phys flags).2, σ.clones⟩
  | unmapIn {cr3 : BitVec 64} (virt : ℕ) : cr3 ∈ σ.all →
      HeapStep σ ⟨σ.mm.vmmUnmapPageIn cr3 virt, σ.clones⟩
  | translate {cr3 : BitVec 64} (virt : ℕ) : cr3 ∈ σ.all →
      HeapStep σ ⟨(σ.mm.vmmTranslateIn cr3 virt).2, σ.clones⟩
  | alloc : HeapStep σ ⟨σ.mm.allocFrame.2, σ.clones⟩

/-- The states of a run. -/
inductive HeapReach (σ₀ : Spaces) : Spaces → Prop
  | refl : HeapReach σ₀ σ₀
  | step {σ σ' : Spaces} : HeapReach σ₀ σ → HeapStep σ σ' → HeapReach σ₀ σ'

/-- The heap's entry of the top tables leads to the same tables in all spaces. Without a frame for
it, there is none for another space either. -/
structure SharedHeap (σ : Spaces) (level : ℕ → ℕ) : Prop where
  levelled : Levelled σ.mm level
  tops : ∀ r ∈ σ.tops, level r = 4
  loaded : σ.mm.cr3 ∈ σ.all
  shared : (present (σ.mm.mem (frameOf σ.mm.rootCr3) 511) ∧
      ∀ r ∈ σ.tops, SameLink (σ.mm.mem (frameOf σ.mm.rootCr3) 511) (σ.mm.mem r 511)) ∨
    (σ.clones = [] ∧ ∀ f, ¬σ.mm.pmm.IsFree f)

namespace SharedHeap

variable {σ : Spaces} {level level' : ℕ → ℕ} {changed : ℕ → ℕ → Prop}

theorem root_mem (σ : Spaces) : frameOf σ.mm.rootCr3 ∈ σ.tops := by simp [Spaces.tops, all]

/-- An operation that keeps the heap's entry of the top tables once it is present. -/
theorem of_grows {mm : State} (h : SharedHeap σ level) (hlevelled : Levelled mm level')
    (hgrows : Grows changed σ.mm mm level level')
    (hroot : mm.rootCr3 = σ.mm.rootCr3) (hloaded : mm.cr3 ∈ σ.all)
    (hkept : ∀ r ∈ σ.tops, changed r 511 → present (σ.mm.mem r 511) = false) :
    SharedHeap ⟨mm, σ.clones⟩ level' := by
  have hall : (⟨mm, σ.clones⟩ : Spaces).all = σ.all := by simp only [all, hroot]
  have htops : (⟨mm, σ.clones⟩ : Spaces).tops = σ.tops := by rw [Spaces.tops, hall, Spaces.tops]
  refine ⟨hlevelled, ?_, ?_, ?_⟩
  · intro r hr
    rw [htops] at hr
    have hr4 := h.tops r hr
    exact (hgrows.levels (by omega)).trans hr4
  · rwa [hall]
  · rw [htops]
    dsimp only
    rw [hroot]
    rcases h.shared with ⟨hpresent, hsame⟩ | ⟨hclones, hfull⟩
    · left
      have hlink : ∀ r ∈ σ.tops, SameLink (σ.mm.mem r 511) (mm.mem r 511) := by
        intro r hr
        apply hgrows.tops (h.tops r hr) (by decide)
        intro hchanged
        have hgone := hkept r hr hchanged
        rw [(hsame r hr).1, hpresent] at hgone
        simp at hgone
      obtain ⟨hp, hl, ht⟩ := hlink _ (root_mem σ)
      refine ⟨hp.trans hpresent, fun r hr ↦ ?_⟩
      obtain ⟨hp', hl', ht'⟩ := hlink r hr
      obtain ⟨hp'', hl'', ht''⟩ := hsame r hr
      exact ⟨(hp'.trans hp'').trans hp.symm, (hl'.trans hl'').trans hl.symm,
        (ht'.trans ht'').trans ht.symm⟩
    · exact .inr ⟨hclones, fun f hf ↦ hfull f (hgrows.free hf)⟩

theorem spaceOf_mem (h : SharedHeap σ level) (virt : ℕ) : σ.mm.spaceOf virt ∈ σ.all := by
  rw [State.spaceOf]
  split
  · exact mem_cons_self
  · exact h.loaded

section Steps

variable {cr3 : BitVec 64}

theorem level_of_mem (h : SharedHeap σ level) (hcr3 : cr3 ∈ σ.all) : level (frameOf cr3) = 4 :=
  h.tops _ (mem_map_of_mem hcr3)

theorem map (virt : ℕ) (phys flags : BitVec 64) (h : SharedHeap σ level) (hcr3 : cr3 ∈ σ.all) :
    ∃ level', SharedHeap ⟨(σ.mm.vmmMapPageIn cr3 virt phys flags).2, σ.clones⟩ level' := by
  obtain ⟨level', hlevelled, hgrows⟩ := h.levelled.vmmMapPageIn virt phys flags
    (h.level_of_mem hcr3)
  have hspace := σ.mm.sameSpace_vmmMapPageIn cr3 virt phys flags
  refine ⟨level', h.of_grows hlevelled hgrows hspace.rootCr3 (hspace.cr3 ▸ h.loaded) ?_⟩
  rintro r _ ⟨rfl, hindex, _, habsent⟩
  rwa [← hindex] at habsent

theorem unmap (virt : ℕ) (h : SharedHeap σ level) (hcr3 : cr3 ∈ σ.all) :
    ∃ level', SharedHeap ⟨σ.mm.vmmUnmapPageIn cr3 virt, σ.clones⟩ level' := by
  obtain ⟨level', hlevelled, hgrows⟩ := h.levelled.vmmUnmapPageIn virt
    (h.level_of_mem hcr3)
  have hspace := σ.mm.sameSpace_vmmUnmapPageIn cr3 virt
  exact ⟨level', h.of_grows hlevelled hgrows hspace.rootCr3 (hspace.cr3 ▸ h.loaded)
    fun _ _ ↦ False.elim⟩

/-- The new top table is a copy of the boot loader's where the heap is. -/
theorem clone (h : SharedHeap σ level) (hne : σ.mm.vmmSpaceClone.1 ≠ 0) :
    ∃ level', SharedHeap ⟨σ.mm.vmmSpaceClone.2, σ.clones ++ [σ.mm.vmmSpaceClone.1]⟩ level' := by
  have hphys : σ.mm.allocFrame.1 ≠ 0 := by
    intro hzero
    rw [vmmSpaceClone_of_eq_zero hzero] at hne
    exact hne rfl
  obtain ⟨g, hzero, hlt, haddr, hg, hused⟩ := h.levelled.fresh hphys
  have htop := h.tops _ (root_mem σ)
  have hroot : frameOf σ.mm.rootCr3 ≠ g := by
    intro hsame
    rw [hsame, hg] at htop
    simp at htop
  rw [vmmSpaceClone_eq haddr hzero hlt hroot]
  obtain ⟨halloc, hgrows⟩ := h.levelled.allocFrame
  have hcopy : ∀ i < 512, large (cloneTop σ.mm i) = false := by
    intro i hi
    rw [cloneTop]
    split
    · exact h.levelled.plain htop hi
    · exact large_zero
  have hlevels : 2 ≤ 4 → ∀ i < 512, present (cloneTop σ.mm i) → large (cloneTop σ.mm i) = false →
      level (target (cloneTop σ.mm i)) + 1 = 4 := by
    intro _ i hi hpresent hlarge
    rw [cloneTop] at hpresent hlarge ⊢
    split at hpresent
    case isTrue hupper =>
      rw [if_pos hupper] at hlarge ⊢
      exact (h.levelled.levels hi (by omega) hpresent hlarge).trans htop
    case isFalse => simp at hpresent
  obtain ⟨htable, htableGrows⟩ := halloc.newTable _ hg hused (fun _ ↦ hcopy)
    (halloc.levels.newTable hg hlevels)
  have hold : ∀ r ∈ σ.tops, r ≠ g := by
    rintro r hr rfl
    have hr4 := h.tops r hr
    omega
  have hmembers : ∀ r ∈ (⟨{ σ.mm.allocFrame.2 with mem := σ.mm.mem.fill g (cloneTop σ.mm) },
      σ.clones ++ [ofFrame g]⟩ : Spaces).tops, r ∈ σ.tops ∨ r = g := by
    intro r hr
    simpa [Spaces.tops, all, frameOf_ofFrame hlt, State.allocFrame, or_assoc] using hr
  rcases h.shared with ⟨hpresent, hsame⟩ | ⟨_, hfull⟩
  · refine ⟨_, htable, ?_, ?_, .inl ⟨?_, ?_⟩⟩
    · intro r hr
      rcases hmembers r hr with hr | rfl
      · rw [update_of_ne (hold r hr)]
        exact h.tops r hr
      · exact update_self _ _ _
    · have hloaded := h.loaded
      simp only [all, State.allocFrame, mem_cons, mem_append] at hloaded ⊢
      exact hloaded.imp_right .inl
    · dsimp only [State.allocFrame]
      rwa [Memory.fill_of_ne _ _ hroot]
    · intro r hr
      dsimp only [State.allocFrame]
      rw [Memory.fill_of_ne _ _ hroot]
      rcases hmembers r hr with hr | rfl
      · rw [Memory.fill_of_ne _ _ (hold r hr)]
        exact hsame r hr
      · rw [Memory.fill_self, cloneTop, if_pos (by decide)]
        exact ⟨rfl, rfl, rfl⟩
  · obtain ⟨f, _, _, _, hfree, _⟩ := Pmm.pmmAllocFrame_eq_frame h.levelled.total hphys
    exact absurd hfree (hfull f)

theorem step {σ' : Spaces} (h : SharedHeap σ level) (hstep : HeapStep σ σ') :
    ∃ level', SharedHeap σ' level' := by
  obtain ⟨halloc, hgrows⟩ := h.levelled.allocFrame
  have halloc' : SharedHeap ⟨σ.mm.allocFrame.2, σ.clones⟩ level :=
    h.of_grows halloc hgrows rfl h.loaded fun _ _ ↦ False.elim
  cases hstep with
  | clone hne => exact h.clone hne
  | cloneFails hzero =>
    rw [vmmSpaceClone_fails hzero]
    exact ⟨level, halloc'⟩
  | switch hcr3 =>
    have hlevelled := h.levelled
    exact ⟨level, ⟨hlevelled.levels, hlevelled.plain, hlevelled.used, hlevelled.total⟩, h.tops, hcr3,
      h.shared⟩
  | map virt phys flags => exact h.map virt phys flags (h.spaceOf_mem virt)
  | unmap virt => exact h.unmap virt (h.spaceOf_mem virt)
  | mapIn virt phys flags hcr3 => exact h.map virt phys flags hcr3
  | unmapIn virt hcr3 => exact h.unmap virt hcr3
  | @translate cr3 virt hcr3 =>
    obtain ⟨level', hlevelled, hgrows⟩ := h.levelled.vmmTranslateIn virt
      (h.level_of_mem hcr3)
    have hspace := σ.mm.sameSpace_vmmTranslateIn cr3 virt
    exact ⟨level', h.of_grows hlevelled hgrows hspace.rootCr3 (hspace.cr3 ▸ h.loaded)
      fun _ _ ↦ False.elim⟩
  | alloc => exact ⟨level, halloc'⟩

end Steps

/-- All spaces translate the addresses of the heap alike. -/
theorem translate_eq (h : SharedHeap σ level) {a b : BitVec 64} (ha : a ∈ σ.all) (hb : b ∈ σ.all)
    {virt : ℕ} (hvirt : InHeap virt) :
    (σ.mm.vmmTranslateIn a virt).1 = (σ.mm.vmmTranslateIn b virt).1 := by
  have htop := h.tops _ (root_mem σ)
  rcases h.shared with ⟨_, hsame⟩ | ⟨hclones, _⟩
  · have hroot : ∀ cr3 ∈ σ.all,
        (σ.mm.vmmTranslateIn cr3 virt).1 = (σ.mm.vmmTranslateIn σ.mm.rootCr3 virt).1 := by
      intro cr3 hcr3
      apply State.vmmTranslateIn_of_sameLink
      · rw [hvirt.pml4Idx]
        exact hsame _ (mem_map_of_mem hcr3)
      · rw [hvirt.pml4Idx]
        exact h.levelled.plain htop (by decide)
    rw [hroot a ha, hroot b hb]
  · rw [all, hclones, mem_singleton] at ha hb
    rw [ha, hb]

end SharedHeap

theorem HeapReach.sharedHeap {σ₀ σ : Spaces} (h : HeapReach σ₀ σ)
    (hinit : ∃ level, SharedHeap σ₀ level) : ∃ level, SharedHeap σ level := by
  induction h with
  | refl => exact hinit
  | step _ hstep ih =>
    obtain ⟨level, hlevel⟩ := ih
    exact hlevel.step hstep

end Spaces

/-! ## The tables that are reserved -/

/-- The heap's entry of the boot loader's top table is present, or no frame is left for it. -/
def State.Reserved (s : State) : Prop :=
  present (s.mem (frameOf s.rootCr3) 511) ∨ ∀ f, ¬s.pmm.IsFree f

section Reserve

variable {s : State} {level : ℕ → ℕ} {virt : ℕ}

section

variable (h : Levelled s level) (htop : level (frameOf s.rootCr3) = 4)
  (hindex : virt / 2 ^ 39 % 512 = 511)
include h htop hindex

/-- A walk that links a table at an absent top entry goes on as from the state with that table. -/
theorem Levelled.present_of_alloc (hphys : s.allocFrame.1 ≠ 0)
    (habsent : present (s.mem (frameOf s.rootCr3) 511) = false) :
    present ((s.walkPt s.rootCr3 virt true false).2.mem (frameOf s.rootCr3) 511) := by
  obtain ⟨g, hzero, hlt, haddr, hg, _⟩ := h.fresh hphys
  have hplain := h.plain htop (show 511 < 512 by decide)
  have hlevel := s.walkLevel_new 0x40000000 0 hplain habsent
  rw [if_neg hphys, haddr, frameOf_ofFrame hlt] at hlevel
  obtain ⟨level1, h1, hgrows1, _⟩ := h.walkLevel 0x40000000 0 true (d := 2) htop le_rfl
    (show 511 < 512 by decide) (by decide)
  rw [hlevel] at h1 hgrows1
  have hentry : (s.allocFrame.2.linkTable (frameOf s.rootCr3) 511 (ofFrame g)).mem
      (frameOf s.rootCr3) 511 = ofFrame g ||| VMM_PRESENT ||| VMM_WRITE ||| VMM_USER :=
    Memory.write_self _ _ _ _
  generalize s.allocFrame.2.linkTable (frameOf s.rootCr3) 511 (ofFrame g) = s1 at *
  have htop1 := (hgrows1.levels (by omega)).trans htop
  have hpresent : present (s1.mem (frameOf s.rootCr3) 511) := by
    simp [hentry, show present VMM_PRESENT = true by decide]
  have htarget : target (s1.mem (frameOf s.rootCr3) 511) = g := by
    rw [hentry, target_or (by decide), target_or (by decide), target_or (by decide),
      target_ofFrame hlt]
  have hagain := s1.walkLevel_present 0x40000000 0 true (h1.plain htop1 (by decide)) hpresent
  rw [htarget, if_neg hzero] at hagain
  have hwalk : s.walkPt s.rootCr3 virt true false = s1.walkPt s.rootCr3 virt true false := by
    simp only [State.walkPt, hindex, hlevel, hagain]
  obtain ⟨_, _, hgrows, _⟩ := h1.walkPt virt true false htop1
  rw [hwalk, (hgrows.tops htop1 (by decide) _).1]
  · exact hpresent
  · rintro ⟨_, _, _, hgone⟩
    rw [hindex, hpresent] at hgone
    simp at hgone

/-- One page of `vmm_reserve_tables`. Frame 0 has the address of failure, so the first page may lose
it and leave the work to the next. -/
theorem Levelled.reserve :
    (s.Reserved → (s.walkPt s.rootCr3 virt true false).2.Reserved) ∧
      (¬s.pmm.IsFree 0 → (s.walkPt s.rootCr3 virt true false).2.Reserved) ∧
      ((s.walkPt s.rootCr3 virt true false).2.Reserved ∨
        ¬(s.walkPt s.rootCr3 virt true false).2.pmm.IsFree 0) := by
  obtain ⟨level', hlevelled, hgrows, _⟩ := h.walkPt virt true false htop
  have hroot := (s.sameSpace_walkPt s.rootCr3 virt true false).rootCr3
  have hfull : (∀ f, ¬s.pmm.IsFree f) → (s.walkPt s.rootCr3 virt true false).2.Reserved :=
    fun hnone ↦ .inr fun f hf ↦ hnone f (hgrows.free hf)
  cases hpresent : present (s.mem (frameOf s.rootCr3) 511) with
  | true =>
    have hdone : (s.walkPt s.rootCr3 virt true false).2.Reserved := by
      left
      rw [hroot, (hgrows.tops htop (by decide) _).1]
      · exact hpresent
      · rintro ⟨_, _, _, hgone⟩
        rw [hindex, hpresent] at hgone
        simp at hgone
    exact ⟨fun _ ↦ hdone, fun _ ↦ hdone, .inl hdone⟩
  | false =>
    by_cases hphys : s.allocFrame.1 = 0
    · have hwalk : (s.walkPt s.rootCr3 virt true false).2 = s.allocFrame.2 := by
        have hlevel := s.walkLevel_new 0x40000000 0 (h.plain htop (show 511 < 512 by decide)) hpresent
        rw [if_pos hphys] at hlevel
        simp only [State.walkPt, hindex, hlevel]
      rcases s.pmm.pmmAllocFrame_cases with ⟨_, hnone⟩ | ⟨i, hfree, htake⟩
      · exact ⟨fun _ ↦ hfull hnone, fun _ ↦ hfull hnone, .inl (hfull hnone)⟩
      · have hlt : i < 2 ^ 40 := by
          have hbound := hfree.1.trans_le h.total
          rw [MAX_FRAMES] at hbound
          omega
        obtain rfl : i = 0 := by
          rw [← ofFrame_eq_zero hlt]
          simpa [State.allocFrame, htake, Pmm.take] using hphys
        refine ⟨?_, fun hused ↦ absurd hfree hused, .inr ?_⟩
        · rintro (hthere | hnone)
          · simp [hpresent] at hthere
          · exact hfull hnone
        · rw [hwalk, State.allocFrame, htake, Pmm.isFree_take]
          exact fun hboth ↦ hboth.2 rfl
    · have hdone : (s.walkPt s.rootCr3 virt true false).2.Reserved := by
        left
        rw [hroot]
        exact h.present_of_alloc htop hindex hphys hpresent
      exact ⟨fun _ ↦ hdone, fun _ ↦ hdone, .inl hdone⟩

end

/-- The loop of `vmm_reserve_tables` over pages of the last entry of the top table. -/
theorem Levelled.reserveLoop {n : ℕ} (first : ℕ) (h : Levelled s level)
    (htop : level (frameOf s.rootCr3) = 4)
    (hpages : ∀ k < n, (first + k * 4096) / 2 ^ 39 % 512 = 511)
    (hready : s.Reserved ∨ (1 ≤ n ∧ ¬s.pmm.IsFree 0) ∨ 2 ≤ n) :
    ∃ level', Levelled (s.reserveLoop n first) level' ∧ level' (frameOf s.rootCr3) = 4 ∧
      State.SameSpace s (s.reserveLoop n first) ∧ (s.reserveLoop n first).Reserved := by
  induction n generalizing s level first with
  | zero =>
    refine ⟨level, h, htop, .refl s, ?_⟩
    rcases hready with hdone | hmore | hmore
    · exact hdone
    · exact absurd hmore.1 (by decide)
    · exact absurd hmore (by decide)
  | succ n ih =>
    have hindex : first / 2 ^ 39 % 512 = 511 := by simpa using hpages 0 n.succ_pos
    obtain ⟨level1, h1, hgrows, _⟩ := h.walkPt first true false htop
    obtain ⟨hstays, hnext, hfirst⟩ := h.reserve htop hindex
    have hspace := s.sameSpace_walkPt s.rootCr3 first true false
    have htop1 : level1 (frameOf s.rootCr3) = 4 := (hgrows.levels (by omega)).trans htop
    obtain ⟨level', hlevelled, htop', hspace', hreserved⟩ := ih (first + 4096) h1
      (by rwa [hspace.rootCr3]) (fun k hk ↦ by
        rw [← hpages (k + 1) (by omega)]
        congr 2
        ring)
      (by
        rcases hready with hdone | ⟨_, hused⟩ | hmore
        · exact .inl (hstays hdone)
        · exact .inl (hnext hused)
        · exact hfirst.imp_right fun hused ↦ .inl ⟨by omega, hused⟩)
    rw [hspace.rootCr3] at htop'
    exact ⟨level', hlevelled, htop', hspace.trans hspace', hreserved⟩

end Reserve

/-- The boot loader's space: no table has two levels or is free, and bit 7 is clear in the top one.
-/
structure BootSpace (s : State) : Prop where
  levels : ∀ {d d' t}, TableAt s.mem (frameOf s.rootCr3) d t →
    TableAt s.mem (frameOf s.rootCr3) d' t → d = d'
  plain : ∀ i < 512, large (s.mem (frameOf s.rootCr3) i) = false
  used : ∀ {d t}, TableAt s.mem (frameOf s.rootCr3) d t → ¬s.pmm.IsFree t
  total : s.pmm.totalFrames ≤ MAX_FRAMES
  loaded : s.cr3 = s.rootCr3

theorem BootSpace.levelled {s : State} (h : BootSpace s) :
    ∃ level, Levelled s level ∧ level (frameOf s.rootCr3) = 4 := by
  classical
  let level := fun t ↦
    if ht : ∃ d, TableAt s.mem (frameOf s.rootCr3) d t then ht.choose else 0
  have hlevel : ∀ {d t}, TableAt s.mem (frameOf s.rootCr3) d t → level t = d := by
    intro d t ht
    have hex : ∃ d, TableAt s.mem (frameOf s.rootCr3) d t := ⟨d, ht⟩
    simp only [level, dif_pos hex]
    exact h.levels hex.choose_spec ht
  have htable : ∀ {t}, level t ≠ 0 → TableAt s.mem (frameOf s.rootCr3) (level t) t := by
    intro t ht
    by_cases hex : ∃ d, TableAt s.mem (frameOf s.rootCr3) d t
    · simp only [level, dif_pos hex]
      exact hex.choose_spec
    · simp [level, hex] at ht
  refine ⟨level, ⟨?_, ?_, fun hf ↦ h.used (htable hf), h.total⟩, hlevel .top⟩
  · intro t i hi ht hpresent hlarge
    have hat := htable (t := t) (by omega)
    obtain ⟨d, hd⟩ : ∃ d, level t = d + 2 := ⟨level t - 2, by omega⟩
    rw [hd] at hat ⊢
    rw [hlevel (.next hat hi hpresent (by simpa using hlarge))]
  · intro t i ht hi
    have hat := htable (t := t) (by omega)
    rw [ht] at hat
    rw [hat.eq_top]
    exact h.plain i hi

namespace Spaces

variable {s : State}

theorem sharedHeap_reserved (h : BootSpace s) :
    ∃ level, SharedHeap ⟨s.vmmReserveTables VMM_KHEAP_BASE VMM_KHEAP_SIZE, []⟩ level := by
  have hpages : s.vmmReserveTables VMM_KHEAP_BASE VMM_KHEAP_SIZE =
      s.reserveLoop 16384 VMM_KHEAP_BASE := by
    simp only [State.vmmReserveTables, VMM_KHEAP_BASE, VMM_KHEAP_SIZE]
    norm_num
  obtain ⟨level, hlevelled, htop⟩ := h.levelled
  obtain ⟨level', hlevelled', htop', hspace, hreserved⟩ := hlevelled.reserveLoop (n := 16384)
    VMM_KHEAP_BASE htop (fun k hk ↦ by
      rw [VMM_KHEAP_BASE]
      omega) (.inr (.inr (by decide)))
  rw [hpages]
  generalize s.reserveLoop 16384 VMM_KHEAP_BASE = s' at *
  have htops : ∀ r ∈ (⟨s', []⟩ : Spaces).tops, r = frameOf s.rootCr3 := by
    intro r hr
    simpa [tops, all, hspace.rootCr3] using hr
  refine ⟨level', hlevelled', fun r hr ↦ by rw [htops r hr, htop'], ?_, ?_⟩
  · simp [all, hspace.cr3, hspace.rootCr3, h.loaded]
  · rcases hreserved with hpresent | hfull
    · refine .inl ⟨hpresent, fun r hr ↦ ?_⟩
      rw [htops r hr, hspace.rootCr3]
      exact ⟨rfl, rfl, rfl⟩
    · exact .inr ⟨rfl, hfull⟩

/-- **Every address space sees the same kernel heap**, in every state of a run after
`kmalloc_init`. -/
theorem heap_is_shared {s : State} {σ : Spaces} (hboot : BootSpace s)
    (hreach : HeapReach ⟨s.vmmReserveTables VMM_KHEAP_BASE VMM_KHEAP_SIZE, []⟩ σ)
    {a b : BitVec 64} (ha : a ∈ σ.all) (hb : b ∈ σ.all) {virt : ℕ} (hvirt : InHeap virt) :
    (σ.mm.vmmTranslateIn a virt).1 = (σ.mm.vmmTranslateIn b virt).1 := by
  obtain ⟨level, hlevel⟩ := hreach.sharedHeap (sharedHeap_reserved hboot)
  exact hlevel.translate_eq ha hb hvirt

/-- An entry that `walk_pt` follows and leaves as it is. -/
def Settled (e : BitVec 64) : Prop :=
  present e ∧ large e = false ∧ target e ≠ 0 ∧ e &&& ~~~PTE_NX = e

instance (e : BitVec 64) : Decidable (Settled e) := inferInstanceAs (Decidable (_ ∧ _))

theorem updateEntries_eq_self {update : BitVec 64 → BitVec 64} {entries : List (ℕ × ℕ)}
    (h : ∀ p ∈ entries, update (s.mem p.1 p.2) = s.mem p.1 p.2) :
    s.updateEntries update entries = s := by
  induction entries with
  | nil => rfl
  | cons p entries ih =>
    obtain ⟨t, i⟩ := p
    have hwrite : s.mem.write t i (update (s.mem t i)) = s.mem := by
      funext u j
      rw [h (t, i) mem_cons_self, Memory.write]
      split
      case isTrue hsame => rw [hsame.1, hsame.2]
      case isFalse => rfl
    rw [State.updateEntries, foldl_cons]
    simp only [hwrite]
    exact ih fun q hq ↦ h q (mem_cons_of_mem _ hq)

/-- `vmm_reserve_tables` does nothing to tables that are there. -/
theorem reserveTables_of_settled (e₀ e₁ e₂ : BitVec 64) (virt bytes : ℕ)
    (h₀ : ∀ i, s.mem (frameOf s.rootCr3) i = e₀) (h₁ : ∀ i, s.mem (target e₀) i = e₁)
    (h₂ : ∀ i, s.mem (target e₁) i = e₂) (hsettled : Settled e₀ ∧ Settled e₁ ∧ Settled e₂) :
    s.vmmReserveTables virt bytes = s := by
  obtain ⟨⟨hp₀, hl₀, ht₀, hnx₀⟩, ⟨hp₁, hl₁, ht₁, hnx₁⟩, ⟨hp₂, hl₂, ht₂, hnx₂⟩⟩ := hsettled
  have hwalk : ∀ page, (s.walkPt s.rootCr3 page true false).2 = s := by
    intro page
    have hlevel₀ := s.walkLevel_present (t := frameOf s.rootCr3) (i := page / 2 ^ 39 % 512) 0x40000000
      0 true (by rwa [h₀]) (by rwa [h₀])
    have hlevel₁ := s.walkLevel_present (t := target e₀) (i := page / 2 ^ 30 % 512) 0x200000
      PTE_LARGE true (by rwa [h₁]) (by rwa [h₁])
    have hlevel₂ := s.walkLevel_present (t := target e₁) (i := page / 2 ^ 21 % 512) 0x1000
      0 true (by rwa [h₂]) (by rwa [h₂])
    rw [h₀, if_neg ht₀] at hlevel₀
    rw [h₁, if_neg ht₁] at hlevel₁
    rw [h₂, if_neg ht₂] at hlevel₂
    simp only [State.walkPt, hlevel₀, hlevel₁, hlevel₂]
    rw [State.reflag, if_neg Bool.false_ne_true]
    apply updateEntries_eq_self
    simp only [mem_cons, not_mem_nil, or_false]
    rintro p (rfl | rfl | rfl)
    · rw [h₀, hnx₀]
    · rw [h₁, hnx₁]
    · rw [h₂, hnx₂]
  have hloop : ∀ n first, s.reserveLoop n first = s := by
    intro n
    induction n with
    | zero => exact fun _ ↦ rfl
    | succ n ih =>
      intro first
      rw [State.reserveLoop, hwalk]
      exact ih _
  exact hloop _ _

/-- Tables of the four levels in frames 1 to 4, all entries leading to the next one. -/
def layered : State where
  pmm := Pmm.pmmInit (Pmm.lowMemory 0x5000 0x10000)
  mem t _ := if 1 ≤ t ∧ t < 4 then ofFrame (t + 1) ||| USER_PAGE else 0
  cr3 := ofFrame 1
  rootCr3 := ofFrame 1

theorem layered_reserved (virt bytes : ℕ) : layered.vmmReserveTables virt bytes = layered :=
  reserveTables_of_settled (ofFrame 2 ||| USER_PAGE) (ofFrame 3 ||| USER_PAGE)
    (ofFrame 4 ||| USER_PAGE) virt bytes (fun _ ↦ rfl) (fun _ ↦ rfl) (fun _ ↦ rfl) (by decide)

theorem tableAt_layered {d t : ℕ} (h : TableAt layered.mem 1 d t) : t + d = 5 ∧ 1 ≤ t ∧ t ≤ 4 := by
  induction h with
  | top => decide
  | @next d t i _ _ hpresent _ ih =>
    have hlink : layered.mem t i = ofFrame (t + 1) ||| USER_PAGE := by
      simp only [layered]
      rw [if_pos (by omega)]
    rw [hlink, target_or (by decide), target_ofFrame (by omega)]
    omega

theorem bootSpace_layered : BootSpace layered where
  levels ht ht' := by
    have hsum := tableAt_layered ht
    have hsum' := tableAt_layered ht'
    omega
  plain _ _ := show large (ofFrame 2 ||| USER_PAGE) = false by decide
  used {d t} ht := by
    obtain ⟨_, hlow, hhigh⟩ := tableAt_layered ht
    obtain rfl | rfl | rfl | rfl : t = 1 ∨ t = 2 ∨ t = 3 ∨ t = 4 := by omega
    all_goals decide
  total := by decide
  loaded := rfl

/-- A space is cloned and loaded, and the kernel maps the first page of its heap. -/
def heapRun : Spaces :=
  ⟨((layered.vmmSpaceClone.2.vmmSpaceSwitch (ofFrame 5)).vmmMapPage VMM_KHEAP_BASE 0x9000
    VMM_WRITE).2, [ofFrame 5]⟩

theorem heap_is_shared_heapRun :
    (heapRun.mm.vmmTranslateIn (ofFrame 5) (VMM_KHEAP_BASE + 8)).1 =
      (heapRun.mm.vmmTranslateIn (ofFrame 1) (VMM_KHEAP_BASE + 8)).1 := by
  have hboot : HeapReach ⟨layered.vmmReserveTables VMM_KHEAP_BASE VMM_KHEAP_SIZE, []⟩
      ⟨layered, []⟩ := by
    rw [layered_reserved]
    exact .refl
  have hclone : HeapStep ⟨layered, []⟩ ⟨layered.vmmSpaceClone.2, [ofFrame 5]⟩ :=
    .clone (by decide)
  have hswitch : HeapStep ⟨layered.vmmSpaceClone.2, [ofFrame 5]⟩
      ⟨layered.vmmSpaceClone.2.vmmSpaceSwitch (ofFrame 5), [ofFrame 5]⟩ :=
    .switch (by decide)
  have hreach : HeapReach ⟨layered.vmmReserveTables VMM_KHEAP_BASE VMM_KHEAP_SIZE, []⟩ heapRun :=
    .step (.step (.step hboot hclone) hswitch) (.map _ _ _)
  exact heap_is_shared bootSpace_layered hreach (by decide) (by decide) (by
    constructor <;> decide)

example : (heapRun.mm.vmmTranslateIn (ofFrame 1) (VMM_KHEAP_BASE + 8)).1 = 0x9008 := by
  decide +kernel

/-- A top table that serves as the tables of all levels. -/
def selfMapped : State where
  pmm := Pmm.pmmInit (Pmm.lowMemory 0x2000 0x10000)
  mem t _ := if t = 1 then ofFrame 1 ||| USER_PAGE else 0
  cr3 := ofFrame 1
  rootCr3 := ofFrame 1

/-- Without large pages anywhere, unmapping a page of the heap clears the heap's entry of a top table
that is its own last table. The clone keeps the entry. -/
theorem self_map_splits_heap :
    (∀ v, NoLarge selfMapped.mem 1 v) ∧
      ∃ σ, HeapReach ⟨selfMapped.vmmReserveTables VMM_KHEAP_BASE VMM_KHEAP_SIZE, []⟩ σ ∧
        ofFrame 1 ∈ σ.all ∧ ofFrame 2 ∈ σ.all ∧
        (σ.mm.vmmTranslateIn (ofFrame 1) VMM_KHEAP_BASE).1 ≠
          (σ.mm.vmmTranslateIn (ofFrame 2) VMM_KHEAP_BASE).1 := by
  constructor
  · intro v n _ t _
    simp only [selfMapped]
    split <;> decide
  · have hreserved := reserveTables_of_settled (s := selfMapped) (ofFrame 1 ||| USER_PAGE)
      (ofFrame 1 ||| USER_PAGE) (ofFrame 1 ||| USER_PAGE) VMM_KHEAP_BASE VMM_KHEAP_SIZE
      (fun _ ↦ rfl) (fun _ ↦ rfl) (fun _ ↦ rfl) (by decide)
    have hclone : HeapStep ⟨selfMapped, []⟩ ⟨selfMapped.vmmSpaceClone.2, [ofFrame 2]⟩ :=
      .clone (by decide)
    rw [hreserved]
    refine ⟨⟨selfMapped.vmmSpaceClone.2.vmmUnmapPage 0xffffffff811ff000, [ofFrame 2]⟩,
      .step (.step .refl hclone) (.unmap _), ?_⟩
    decide +kernel

end Spaces

end ToastyUnix.Mm
