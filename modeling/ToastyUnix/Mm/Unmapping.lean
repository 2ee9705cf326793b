import ToastyUnix.Mm.TableCost

/-!
# Unmapping pages of a task

`sys_munmap` takes the pages of its range that are mapped out of the tables and returns their
frames to the allocator. It changes nothing else in the space: the tables stay, also when they have
become empty, and so do the contents of all other frames.
-/

namespace ToastyUnix.Mm

open Paging

/-- `r` is the top table of a space whose frames are owned, and frame 0 is not free. -/
structure TaskSpace (r : ℕ) (s : State) : Prop where
  owned : ∃ owner, Owned s owner ∧ owner r = .top
  zero : ¬s.pmm.IsFree 0

namespace TaskSpace

variable {r v f : ℕ} {s : State}

theorem walkable (h : TaskSpace r s) : Walkable r s := by
  obtain ⟨owner, howned, hr⟩ := h.owned
  obtain ⟨hsep, hsmall⟩ := howned.separated hr
  refine ⟨hsep, hsmall, fun {v n} hv hn ht ↦ ?_, h.zero⟩
  rcases (howned.tableOn_onPath hr hv (by omega) ht).held with ⟨hd, _⟩ | ⟨u, j, hentry⟩
  · omega
  · exact (howned.handed hentry).1 rfl

/-- The frame of a page is in use and no table. -/
theorem frameAt_used (h : TaskSpace r s) (hv : v < 2 ^ 35) (hf : frameAt s.mem r v = some f) :
    f ≠ 0 ∧ f < s.pmm.totalFrames ∧ f < 2 ^ 40 ∧ ¬s.pmm.IsFree f ∧ ¬LowerTable s.mem r f := by
  obtain ⟨owner, howned, hr⟩ := h.owned
  obtain ⟨u, _, _, _, hentry⟩ := howned.forest.frameAt_eq_some hr hv hf
  obtain ⟨hne, hlt⟩ := howned.handed hentry
  exact ⟨hne, hlt, hlt.trans_le (howned.total.trans (by decide)), howned.used (by simp [hentry]),
    howned.frameAt_data hr hv hf⟩

end TaskSpace

/-- `pages` of the lower half are no longer mapped and their frames free; nothing else changes. -/
structure Unmapped (r : ℕ) (pages : ℕ → Prop) (s s' : State) : Prop where
  gone : ∀ {v}, v < 2 ^ 35 → pages v → frameAt s'.mem r v = none
  others : ∀ {v}, v < 2 ^ 35 → ¬pages v → frameAt s'.mem r v = frameAt s.mem r v
  tables : ∀ {v n}, v < 2 ^ 35 → n ≤ 3 → tableOn s'.mem r v n = tableOn s.mem r v n
  data : ∀ {f}, ¬LowerTable s.mem r f → s'.mem f = s.mem f
  total : s'.pmm.totalFrames = s.pmm.totalFrames
  free : ∀ {f}, s'.pmm.IsFree f ↔
    s.pmm.IsFree f ∨ ∃ v < 2 ^ 35, pages v ∧ frameAt s.mem r v = some f

namespace Unmapped

variable {r : ℕ} {pages pages' : ℕ → Prop} {s s' s'' : State}

theorem lowerTable {f : ℕ} (h : Unmapped r pages s s') :
    LowerTable s'.mem r f ↔ LowerTable s.mem r f := by
  constructor
  · rintro ⟨v, n, hv, hn, hf⟩
    exact ⟨v, n, hv, hn, (h.tables hv hn).symm.trans hf⟩
  · rintro ⟨v, n, hv, hn, hf⟩
    exact ⟨v, n, hv, hn, (h.tables hv hn).trans hf⟩

theorem refl (r : ℕ) (s : State) : Unmapped r (fun _ ↦ False) s s :=
  ⟨fun _ hv ↦ hv.elim, fun _ _ ↦ rfl, fun _ _ ↦ rfl, fun _ ↦ rfl, rfl, by simp⟩

theorem trans (h : Unmapped r pages s s') (h' : Unmapped r pages' s' s'') :
    Unmapped r (fun v ↦ pages v ∨ pages' v) s s'' where
  gone {v} hv hin := by
    by_cases hlast : pages' v
    · exact h'.gone hv hlast
    · rw [h'.others hv hlast]
      exact h.gone hv (hin.resolve_right hlast)
  others hv hout := by
    rw [not_or] at hout
    rw [h'.others hv hout.2, h.others hv hout.1]
  tables hv hn := (h'.tables hv hn).trans (h.tables hv hn)
  data hf := (h'.data (h.lowerTable.not.mpr hf)).trans (h.data hf)
  total := h'.total.trans h.total
  free {f} := by
    rw [h'.free, h.free]
    constructor
    · rintro ((hf | ⟨v, hv, hin, hf⟩) | ⟨v, hv, hin, hf⟩)
      · exact .inl hf
      · exact .inr ⟨v, hv, .inl hin, hf⟩
      · have hout : ¬pages v := fun hin' ↦ by simp [h.gone hv hin'] at hf
        exact .inr ⟨v, hv, .inr hin, (h.others hv hout).symm.trans hf⟩
    · rintro (hf | ⟨v, hv, hin, hf⟩)
      · exact .inl (.inl hf)
      · by_cases hfirst : pages v
        · exact .inl (.inr ⟨v, hv, hfirst, hf⟩)
        · exact .inr ⟨v, hv, hin.resolve_left hfirst, (h.others hv hfirst).trans hf⟩

theorem congr (h : Unmapped r pages s s') (hpages : ∀ v, pages v ↔ pages' v) :
    Unmapped r pages' s s' := by
  obtain rfl : pages = pages' := funext fun v ↦ propext (hpages v)
  exact h

end Unmapped

namespace Walkable

variable {s : State} {cr3 : BitVec 64} {virt : ℕ}

theorem vmmTranslateIn (h : Walkable (frameOf cr3) s) (hv : pageOf virt < 2 ^ 35) :
    Unmapped (frameOf cr3) (fun _ ↦ False) s (s.vmmTranslateIn cr3 virt).2 := by
  have hlinks : s.SameLinks (s.vmmTranslateIn cr3 virt).2 :=
    (State.vmmTranslateIn_eq (h.small _ hv)).2.toSameLinks
  obtain ⟨_, hstep⟩ :=
    (Twin.refl (frameOf cr3) s).vmmTranslateIn h.separated hv (h.small _ hv)
  refine ⟨fun _ hin ↦ hin.elim, fun _ _ ↦ (hlinks.sameWalk _ _).frameAt,
    fun _ hn ↦ (hlinks.sameWalk _ _).tableOn (by omega), fun {f} hf ↦ (hstep.quiet ?_).1,
    by rw [hlinks.pmm], ?_⟩
  · rwa [Twin.lowerTable_congr fun w _ ↦ hlinks.sameWalk _ w]
  · simp [hlinks.pmm]

/-- `vmm_unmap_page_in` writes to the last table. -/
theorem vmmUnmapPageIn (h : Walkable (frameOf cr3) s) (hv : pageOf virt < 2 ^ 35) :
    (s.vmmUnmapPageIn cr3 virt).pmm = s.pmm ∧
      (∀ {w n}, w < 2 ^ 35 → n ≤ 3 → tableOn (s.vmmUnmapPageIn cr3 virt).mem (frameOf cr3) w n =
        tableOn s.mem (frameOf cr3) w n) ∧
      ∀ {f}, ¬LowerTable s.mem (frameOf cr3) f → (s.vmmUnmapPageIn cr3 virt).mem f = s.mem f := by
  have hlinks : s.SameLinks (s.walkPt cr3 virt false false).2 :=
    (s.walkPt_lookup false (h.small _ hv)).2.toSameLinks
  obtain ⟨_, hstep⟩ :=
    (Twin.refl (frameOf cr3) s).walkPt false false h.separated hv (h.small _ hv)
  obtain ⟨hsep, _, hfound, _⟩ := h.separated.walkPt false false ⟨rfl, hv⟩ (h.small _ hv)
  have htables := fun {w n : ℕ} (hn : n ≤ 3) ↦
    (hlinks.sameWalk (frameOf cr3) w).tableOn (show n ≤ 4 by omega)
  have hdata : ∀ {f}, ¬LowerTable s.mem (frameOf cr3) f →
      (s.walkPt cr3 virt false false).2.mem f = s.mem f := fun hf ↦ (hstep.quiet (by
    rwa [Twin.lowerTable_congr fun w _ ↦ hlinks.sameWalk _ w])).1
  unfold State.vmmUnmapPageIn
  split
  case h_1 s' heq =>
    rw [heq] at hlinks htables hdata
    exact ⟨hlinks.pmm, fun _ hn ↦ htables hn, hdata⟩
  case h_2 t i s' heq =>
    rw [heq] at hlinks htables hdata hsep hfound
    obtain ⟨rfl, ht, _⟩ := hfound t i rfl
    refine ⟨hlinks.pmm, fun {w n} hw hn ↦ ?_, fun {f} hf ↦ ?_⟩
    · exact (hsep.apart.tableOn_write ⟨rfl, hv⟩ ht
        (show Lower (frameOf cr3) (frameOf cr3) w from ⟨rfl, hw⟩) hn).trans (htables hn)
    · have hne : f ≠ t := by
        rintro rfl
        exact hf ⟨pageOf virt, 3, hv, le_rfl, (htables le_rfl).symm.trans ht⟩
      refine (funext fun j ↦ s'.mem.write_of_ne _ fun hsame ↦ hne hsame.1).trans (hdata hf)

end Walkable

namespace TaskSpace

variable {s : State} {cr3 : BitVec 64} {page : ℕ}

/-- One pass of the loop of `sys_munmap`. -/
theorem unmapPage (h : TaskSpace (frameOf cr3) s) (hv : pageOf page < 2 ^ 35)
    (halign : page % 4096 = 0) :
    ((s.vmmTranslateIn cr3 page).1 = 0 → TaskSpace (frameOf cr3) (s.vmmTranslateIn cr3 page).2 ∧
      Unmapped (frameOf cr3) (· = pageOf page) s (s.vmmTranslateIn cr3 page).2) ∧
    ((s.vmmTranslateIn cr3 page).1 ≠ 0 →
      TaskSpace (frameOf cr3) (((s.vmmTranslateIn cr3 page).2.vmmUnmapPageIn cr3 page).freeFrame
        ((s.vmmTranslateIn cr3 page).1 &&& ~~~0xFFF)) ∧ Unmapped (frameOf cr3) (· = pageOf page) s
        (((s.vmmTranslateIn cr3 page).2.vmmUnmapPageIn cr3 page).freeFrame
          ((s.vmmTranslateIn cr3 page).1 &&& ~~~0xFFF))) := by
  obtain ⟨owner, howned, hr⟩ := h.owned
  have hvalue := h.walkable.vmmTranslateIn_fst hv halign
  have hflags := h.walkable.vmmTranslateIn hv
  obtain ⟨owner1, howned1, hext, hfound⟩ := howned.vmmTranslateIn hr hv halign
  have hr1 := hext.keeps.top hr
  generalize s.vmmTranslateIn cr3 page = result at *
  obtain ⟨phys, s1⟩ := result
  dsimp only at hvalue hflags howned1 hext hfound ⊢
  have hspace : TaskSpace (frameOf cr3) s1 :=
    ⟨⟨owner1, howned1, hr1⟩, fun hz ↦ h.zero (hext.free 0 hz)⟩
  cases hpage : frameAt s.mem (frameOf cr3) (pageOf page) with
  | none =>
    rw [hpage] at hvalue
    have hnone : ∀ {v}, v = pageOf page → frameAt s.mem (frameOf cr3) v = none :=
      fun heq ↦ heq ▸ hpage
    refine ⟨fun _ ↦ ⟨hspace, fun hv heq ↦ (hflags.others hv id).trans (hnone heq),
      fun hv _ ↦ hflags.others hv id, hflags.tables, hflags.data, hflags.total, ?_⟩,
      fun hne ↦ absurd hvalue hne⟩
    intro f
    rw [hflags.free]
    refine or_congr Iff.rfl ⟨fun ⟨_, _, hin, _⟩ ↦ hin.elim, ?_⟩
    rintro ⟨v, _, heq, hf⟩
    simp [hnone heq] at hf
  | some g =>
    obtain ⟨hg, hlt, hbound, _, _⟩ := h.frameAt_used hv hpage
    rw [hpage] at hvalue
    have hphys : phys = ofFrame g := hvalue
    have hne : phys ≠ 0 := by
      rw [hphys]
      exact (ofFrame_eq_zero hbound).not.mpr hg
    refine ⟨fun hzero ↦ absurd hzero hne, fun _ ↦ ?_⟩
    obtain ⟨u, g', haddr, hlast, hentry⟩ := hfound hne
    obtain rfl : g' = g := by
      have hbound' : g' < 2 ^ 40 :=
        (howned1.handed hentry).2.trans_le (howned1.total.trans (by decide))
      rw [← frameOf_ofFrame hbound', ← haddr, hphys, frameOf_ofFrame hbound]
    obtain ⟨owner2, howned2, hedits, hleaf⟩ := howned1.vmmUnmapPageIn hr1 hv hlast hentry
    obtain ⟨hpmm, htables, hdata⟩ := hspace.walkable.vmmUnmapPageIn hv
    rw [hphys, ofFrame_and_not_low]
    have hfree : ∀ {f}, ((s1.vmmUnmapPageIn cr3 page).freeFrame (ofFrame g')).pmm.IsFree f ↔
        s.pmm.IsFree f ∨ f = g' := by
      intro f
      rw [State.freeFrame, Pmm.isFree_pmmFreeFrame, hpmm, frameOf_ofFrame hbound, hflags.free,
        hext.totalFrames]
      constructor
      · rintro ((hf | ⟨_, _, hin, _⟩) | ⟨_, rfl⟩)
        · exact .inl hf
        · exact hin.elim
        · exact .inr rfl
      · rintro (hf | rfl)
        · exact .inl (.inl hf)
        · exact .inr ⟨hlt, rfl⟩
    refine ⟨⟨⟨owner2, howned2, hedits.tops hr1⟩, ?_⟩, ?_, ?_, ?_, ?_, ?_, ?_⟩
    · rw [hfree, not_or]
      exact ⟨h.zero, fun hz ↦ hg hz.symm⟩
    · rintro v hv rfl
      rw [frameAt, hleaf]
      rfl
    · intro v hv hout
      rw [← hflags.others hv id, frameAt, frameAt,
        hedits.leaf (.inl hr1) (by omega) fun hin ↦ hout hin.2]
    · exact fun hv hn ↦ (htables hv hn).trans (hflags.tables hv hn)
    · exact fun hf ↦ (hdata (hflags.lowerTable.not.mpr hf)).trans (hflags.data hf)
    · rw [State.freeFrame, Pmm.totalFrames_pmmFreeFrame, hpmm, hflags.total]
    · intro f
      rw [hfree]
      refine or_congr Iff.rfl ⟨fun heq ↦ ⟨pageOf page, hv, rfl, heq ▸ hpage⟩, ?_⟩
      rintro ⟨v, _, rfl, hf⟩
      exact Option.some.inj (hf.symm.trans hpage)

theorem munmapLoop (n : ℕ) (h : TaskSpace (frameOf cr3) s) (halign : page % 4096 = 0)
    (hpages : UserPages page n) :
    TaskSpace (frameOf cr3) (s.munmapLoop cr3 n page) ∧
      Unmapped (frameOf cr3) (PagesFrom page n) s (s.munmapLoop cr3 n page) := by
  induction n generalizing s page with
  | zero => exact ⟨h, (Unmapped.refl _ s).congr fun v ↦ ⟨False.elim, fun ⟨k, hk, _⟩ ↦ by omega⟩⟩
  | succ n ih =>
    have hsplit : ∀ v, v = pageOf page ∨ PagesFrom (page + 4096) n v ↔
        PagesFrom page (n + 1) v := by
      intro v
      constructor
      · rintro (heq | hin)
        · exact pagesFrom_head heq
        · exact pagesFrom_tail hin
      · rintro ⟨_ | k, hk, hv⟩
        · exact .inl (by simpa using hv)
        · exact .inr ⟨k, by omega, by rw [hv]; congr 1; ring⟩
    obtain ⟨habsent, hmapped⟩ := h.unmapPage hpages.head halign
    simp only [State.munmapLoop]
    split
    case isTrue hzero =>
      obtain ⟨h1, hstep⟩ := habsent hzero
      obtain ⟨h2, hrest⟩ := ih h1 (by omega) hpages.tail
      exact ⟨h2, (hstep.trans hrest).congr hsplit⟩
    case isFalse hne =>
      obtain ⟨h1, hstep⟩ := hmapped hne
      obtain ⟨h2, hrest⟩ := ih h1 (by omega) hpages.tail
      exact ⟨h2, (hstep.trans hrest).congr hsplit⟩

end TaskSpace

end ToastyUnix.Mm
