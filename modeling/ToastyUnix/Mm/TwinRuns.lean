import ToastyUnix.Mm.PageMap
import ToastyUnix.Mm.UserMap

/-!
# Two runs that differ in the contents of frames

The functions that map pages in the lower half of a space read the tables of that half and the
bitmap, and write to tables only. Run twice on memories that agree on the tables (`Twin`), they
return the same, leave memories that agree on the tables, and leave every other frame of either
memory alone (`TwinStep`).
-/

namespace ToastyUnix.Mm

open Paging

/-- The pages of the lower half of space `r`. -/
def Lower (r r' v : ℕ) : Prop := r' = r ∧ v < 2 ^ 35

/-- Frame `t` is a table of the lower half of space `r`. -/
def LowerTable (mem : Memory) (r t : ℕ) : Prop :=
  ∃ v n, v < 2 ^ 35 ∧ n ≤ 3 ∧ tableOn mem r v n = some t

/-- Two states that agree on everything but the frames that are no tables of the lower half. -/
structure Twin (r : ℕ) (s s' : State) : Prop where
  pmm : s'.pmm = s.pmm
  cr3 : s'.cr3 = s.cr3
  rootCr3 : s'.rootCr3 = s.rootCr3
  tables : ∀ {t}, LowerTable s.mem r t → s'.mem t = s.mem t

/-- What an operation does in both runs: it writes to tables and takes frames. -/
structure TwinStep (r : ℕ) (s s' s₁ s₁' : State) : Prop where
  twin : Twin r s₁ s₁'
  kept : ∀ {t}, LowerTable s.mem r t → LowerTable s₁.mem r t
  quiet : ∀ {f}, ¬LowerTable s₁.mem r f → s₁.mem f = s.mem f ∧ s₁'.mem f = s'.mem f
  free : ∀ {f}, s₁.pmm.IsFree f → s.pmm.IsFree f

namespace TwinStep

variable {r : ℕ} {s s' s₁ s₁' s₂ s₂' : State}

theorem refl (h : Twin r s s') : TwinStep r s s' s s' :=
  ⟨h, fun ht ↦ ht, fun _ ↦ ⟨rfl, rfl⟩, fun hf ↦ hf⟩

theorem trans (h : TwinStep r s s' s₁ s₁') (h' : TwinStep r s₁ s₁' s₂ s₂') :
    TwinStep r s s' s₂ s₂' where
  twin := h'.twin
  kept ht := h'.kept (h.kept ht)
  quiet hf := by
    obtain ⟨hmem, hmem'⟩ := h.quiet (mt h'.kept hf)
    obtain ⟨hmem₁, hmem₁'⟩ := h'.quiet hf
    exact ⟨hmem₁.trans hmem, hmem₁'.trans hmem'⟩
  free hf := h.free (h'.free hf)

end TwinStep

namespace Twin

variable {r v n t : ℕ} {s s' : State}

theorem sameWalk (h : Twin r s s') (hv : v < 2 ^ 35) : SameWalk s.mem s'.mem r v := by
  intro n hn t ht
  rw [h.tables ⟨v, n, hv, hn, ht⟩]
  exact ⟨rfl, rfl, rfl⟩

theorem allocFrame (h : Twin r s s') :
    s'.allocFrame.1 = s.allocFrame.1 ∧ TwinStep r s s' s.allocFrame.2 s'.allocFrame.2 := by
  have halloc : s'.allocFrame = (s.allocFrame.1, { s' with pmm := s.allocFrame.2.pmm }) := by
    simp only [State.allocFrame, h.pmm]
  rw [halloc]
  exact ⟨rfl, ⟨rfl, h.cr3, h.rootCr3, h.tables⟩, fun ht ↦ ht, fun _ ↦ ⟨rfl, rfl⟩,
    Pmm.isFree_of_pmmAllocFrame⟩

/-- The same word is written to the same table, and the tables stay. -/
theorem write {i : ℕ} {e : BitVec 64} (h : Twin r s s') (ht : LowerTable s.mem r t)
    (hsame : ∀ {f}, LowerTable (s.mem.write t i e) r f ↔ LowerTable s.mem r f) :
    TwinStep r s s' { s with mem := s.mem.write t i e } { s' with mem := s'.mem.write t i e } where
  twin :=
    { pmm := h.pmm
      cr3 := h.cr3
      rootCr3 := h.rootCr3
      tables := fun {f} hf ↦ by
        funext j
        simp only [Memory.write, h.tables (hsame.mp hf)] }
  kept := hsame.mpr
  quiet {f} hf := by
    have hne : f ≠ t := by
      rintro rfl
      exact hf (hsame.mpr ht)
    exact ⟨funext fun j ↦ s.mem.write_frame_of_ne e hne j,
      funext fun j ↦ s'.mem.write_frame_of_ne e hne j⟩
  free hf := hf

/-- The same frame is cleared and linked below the same absent entry. -/
theorem linkTable {g : ℕ} (h : Twin r s s') (hsep : Separated s (Lower r) (Lower r))
    (hv : v < 2 ^ 35) (hn : n ≤ 2) (ht : tableOn s.mem r v n = some t)
    (habsent : present (s.mem t (digit v n)) = false) (hg : ¬LowerTable s.mem r g)
    (hused : ¬s.pmm.IsFree g) (hzero : g ≠ 0) (hlt : g < 2 ^ 40) :
    TwinStep r s s' (s.linkTable t (digit v n) (ofFrame g))
      (s'.linkTable t (digit v n) (ofFrame g)) := by
  have hfresh : ∀ {r' w m}, Lower r r' w → m ≤ 3 → tableOn s.mem r' w m ≠ some g := by
    rintro r' w m ⟨rfl, hw⟩ hm hf
    exact hg ⟨w, m, hw, hm, hf⟩
  obtain ⟨_, _, hnew, htables⟩ :=
    hsep.linkTable ⟨rfl, hv⟩ hn ht habsent hfresh hused hzero hlt
  have htable : LowerTable s.mem r t := ⟨v, n, hv, by omega, ht⟩
  have hmem := fun s : State ↦ s.linkTable_mem t (digit v n) hlt
  have hkept : ∀ {f}, LowerTable s.mem r f →
      LowerTable (s.linkTable t (digit v n) (ofFrame g)).mem r f := by
    rintro f ⟨w, m, hw, hm, hf⟩
    exact ⟨w, m, hw, hm, (htables ⟨rfl, hw⟩ hm).1 hf⟩
  refine ⟨⟨h.pmm, h.cr3, h.rootCr3, ?_⟩, hkept, ?_, fun hf ↦ hf⟩
  · rintro f ⟨w, m, hw, hm, hf⟩
    rw [hmem, hmem]
    funext j
    rcases (htables ⟨rfl, hw⟩ hm).2 hf with rfl | hold
    · simp only [Memory.write, Memory.fill_self]
    · have hrow := h.tables ⟨w, m, hw, hm, hold⟩
      simp only [Memory.write, Memory.fill, hrow]
  · intro f hf
    have hft : f ≠ t := by
      rintro rfl
      exact hf (hkept htable)
    have hfg : f ≠ g := by
      rintro rfl
      exact hf ⟨v, n + 1, hv, by omega, hnew⟩
    rw [hmem, hmem]
    constructor
    · funext j
      rw [Memory.write_frame_of_ne _ _ hft, Memory.fill_of_ne _ _ hfg]
    · funext j
      rw [Memory.write_frame_of_ne _ _ hft, Memory.fill_of_ne _ _ hfg]

theorem walkLevel (stride flag : BitVec 64) (allocate : Bool) (h : Twin r s s')
    (hsep : Separated s (Lower r) (Lower r)) (hv : v < 2 ^ 35) (hn : n ≤ 2)
    (ht : tableOn s.mem r v n = some t) (hno : NoLarge s.mem r v) :
    (s'.walkLevel t (digit v n) stride flag allocate).1 =
        (s.walkLevel t (digit v n) stride flag allocate).1 ∧
      TwinStep r s s' (s.walkLevel t (digit v n) stride flag allocate).2
        (s'.walkLevel t (digit v n) stride flag allocate).2 := by
  have htable : LowerTable s.mem r t := ⟨v, n, hv, by omega, ht⟩
  have hrow : s'.mem t (digit v n) = s.mem t (digit v n) := by rw [h.tables htable]
  have hlarge := hno n hn t ht
  have hlarge' : large (s'.mem t (digit v n)) = false := by rwa [hrow]
  cases hpresent : present (s.mem t (digit v n)) with
  | true =>
    rw [s.walkLevel_present _ _ _ hlarge hpresent,
      s'.walkLevel_present _ _ _ hlarge' (by rwa [hrow]), hrow]
    exact ⟨rfl, .refl h⟩
  | false =>
    have habsent' : present (s'.mem t (digit v n)) = false := by rwa [hrow]
    cases allocate with
    | false =>
      rw [s.walkLevel_absent _ _ hlarge hpresent, s'.walkLevel_absent _ _ hlarge' habsent']
      exact ⟨rfl, .refl h⟩
    | true =>
      obtain ⟨hphys, halloc⟩ := h.allocFrame
      rw [s.walkLevel_new _ _ hlarge hpresent, s'.walkLevel_new _ _ hlarge' habsent', hphys]
      by_cases hzero : s.allocFrame.1 = 0
      · rw [if_pos hzero, if_pos hzero]
        exact ⟨rfl, halloc⟩
      · obtain ⟨g, hne, hlt, haddr, hfree, hused⟩ := Pmm.pmmAllocFrame_eq_frame hsep.total hzero
        rw [if_neg hzero, if_neg hzero, show s.allocFrame.1 = ofFrame g from haddr]
        refine ⟨rfl, halloc.trans (halloc.twin.linkTable hsep.allocFrame.1 hv hn ht hpresent ?_ hused
          hne hlt)⟩
        rintro ⟨w, m, hw, hm, hg⟩
        exact hsep.fresh hfree ⟨rfl, hw⟩ hm hg

theorem lowerTable_congr {mem mem' : Memory} (h : ∀ v < 2 ^ 35, SameWalk mem mem' r v) {f : ℕ} :
    LowerTable mem' r f ↔ LowerTable mem r f := by
  constructor
  · rintro ⟨v, n, hv, hn, hf⟩
    exact ⟨v, n, hv, hn, ((h v hv).tableOn (by omega)).symm.trans hf⟩
  · rintro ⟨v, n, hv, hn, hf⟩
    exact ⟨v, n, hv, hn, ((h v hv).tableOn (by omega)).trans hf⟩

variable {entries : List (ℕ × ℕ)}

/-- Flags are changed in entries of tables. -/
theorem updateEntries {update : BitVec 64 → BitVec 64} (hupdate : ∀ e, SameLink e (update e))
    (h : Twin r s s') (hentries : ∀ p ∈ entries, LowerTable s.mem r p.1) :
    TwinStep r s s' (s.updateEntries update entries) (s'.updateEntries update entries) := by
  induction entries generalizing s s' with
  | nil => exact .refl h
  | cons p entries ih =>
    obtain ⟨t, i⟩ := p
    have htable := hentries (t, i) List.mem_cons_self
    have hrow : s'.mem t i = s.mem t i := by rw [h.tables htable]
    have hlinks := fun v (_ : v < 2 ^ 35) ↦
      (s.updateEntries_sameLinks hupdate [(t, i)]).sameWalk r v
    have hstep := h.write (i := i) (e := update (s.mem t i)) htable (lowerTable_congr hlinks)
    have hcons : ∀ s : State, s.updateEntries update ((t, i) :: entries) =
        { s with mem := s.mem.write t i (update (s.mem t i)) }.updateEntries update entries :=
      fun _ ↦ rfl
    rw [hcons, hcons, hrow]
    exact hstep.trans (ih hstep.twin fun q hq ↦ hstep.kept (hentries q (List.mem_cons_of_mem _ hq)))

theorem reflag (user : Bool) (h : Twin r s s') (hentries : ∀ p ∈ entries, LowerTable s.mem r p.1) :
    TwinStep r s s' (s.reflag user entries) (s'.reflag user entries) := by
  have hnx := h.updateEntries Owned.sameLink_and_not_PTE_NX hentries
  rw [State.reflag, State.reflag]
  split
  · exact hnx.trans (hnx.twin.updateEntries Owned.sameLink_or_VMM_USER
      fun p hp ↦ hnx.kept (hentries p hp))
  · exact hnx

section Pages

variable {cr3 : BitVec 64} {virt : ℕ}

/-- The walks of the two runs end at the same entry of the same table. -/
theorem walkPt (allocate user : Bool) (h : Twin (frameOf cr3) s s')
    (hsep : Separated s (Lower (frameOf cr3)) (Lower (frameOf cr3))) (hv : pageOf virt < 2 ^ 35)
    (hno : NoLarge s.mem (frameOf cr3) (pageOf virt)) :
    (s'.walkPt cr3 virt allocate user).1 = (s.walkPt cr3 virt allocate user).1 ∧
      TwinStep (frameOf cr3) s s' (s.walkPt cr3 virt allocate user).2
        (s'.walkPt cr3 virt allocate user).2 := by
  have hw : Lower (frameOf cr3) (frameOf cr3) (pageOf virt) := ⟨rfl, hv⟩
  simp only [State.walkPt, State.digit_pml4, State.digit_pdpt, State.digit_pd, State.digit_pt]
  -- first level
  obtain ⟨hsep1, hsame1, hfound1, _⟩ :=
    hsep.walkLevel 0x40000000 0 allocate hw (n := 0) (by decide) rfl hno
  obtain ⟨hresult1, hstep1⟩ := h.walkLevel 0x40000000 0 allocate hsep hv (n := 0) (by decide) rfl hno
  generalize s.walkLevel (frameOf cr3) (digit (pageOf virt) 0) 0x40000000 0 allocate = w1 at *
  generalize s'.walkLevel (frameOf cr3) (digit (pageOf virt) 0) 0x40000000 0 allocate = w1' at *
  obtain ⟨found1, s1⟩ := w1
  obtain ⟨_ | pdpt, s1'⟩ := w1'
  · obtain rfl : none = found1 := hresult1
    exact ⟨rfl, hstep1⟩
  obtain rfl : some pdpt = found1 := hresult1
  dsimp only at hsep1 hsame1 hfound1 hstep1 ⊢
  obtain ⟨_, ht1⟩ := hfound1 pdpt rfl
  have hno1 := hsame1.noLarge hw hno
  -- second level
  obtain ⟨hsep2, hsame2, hfound2, _⟩ :=
    hsep1.walkLevel 0x200000 PTE_LARGE allocate hw (n := 1) (by decide) ht1 hno1
  obtain ⟨hresult2, hstep2⟩ :=
    hstep1.twin.walkLevel 0x200000 PTE_LARGE allocate hsep1 hv (n := 1) (by decide) ht1 hno1
  generalize s1.walkLevel pdpt (digit (pageOf virt) 1) 0x200000 PTE_LARGE allocate = w2 at *
  generalize s1'.walkLevel pdpt (digit (pageOf virt) 1) 0x200000 PTE_LARGE allocate = w2' at *
  obtain ⟨found2, s2⟩ := w2
  obtain ⟨_ | pd, s2'⟩ := w2'
  · obtain rfl : none = found2 := hresult2
    exact ⟨rfl, hstep1.trans hstep2⟩
  obtain rfl : some pd = found2 := hresult2
  dsimp only at hsep2 hsame2 hfound2 hstep2 ⊢
  obtain ⟨_, ht2⟩ := hfound2 pd rfl
  have hno2 := hsame2.noLarge hw hno1
  -- third level
  obtain ⟨hsep3, hsame3, hfound3, _⟩ :=
    hsep2.walkLevel 0x1000 0 allocate hw (n := 2) (by decide) ht2 hno2
  obtain ⟨hresult3, hstep3⟩ :=
    hstep2.twin.walkLevel 0x1000 0 allocate hsep2 hv (n := 2) (by decide) ht2 hno2
  generalize s2.walkLevel pd (digit (pageOf virt) 2) 0x1000 0 allocate = w3 at *
  generalize s2'.walkLevel pd (digit (pageOf virt) 2) 0x1000 0 allocate = w3' at *
  obtain ⟨found3, s3⟩ := w3
  obtain ⟨_ | pt, s3'⟩ := w3'
  · obtain rfl : none = found3 := hresult3
    exact ⟨rfl, (hstep1.trans hstep2).trans hstep3⟩
  obtain rfl : some pt = found3 := hresult3
  dsimp only at hstep3 ⊢
  -- the flags
  have hstep := (hstep1.trans hstep2).trans hstep3
  refine ⟨rfl, hstep.trans (hstep.twin.reflag user ?_)⟩
  intro p hp
  simp only [List.mem_cons, List.not_mem_nil, or_false] at hp
  rcases hp with rfl | rfl | rfl
  · exact hstep.kept ⟨pageOf virt, 0, hv, by decide, rfl⟩
  · exact (hstep2.trans hstep3).kept ⟨pageOf virt, 1, hv, by decide, ht1⟩
  · exact hstep3.kept ⟨pageOf virt, 2, hv, by decide, ht2⟩

theorem vmmTranslateIn (h : Twin (frameOf cr3) s s')
    (hsep : Separated s (Lower (frameOf cr3)) (Lower (frameOf cr3))) (hv : pageOf virt < 2 ^ 35)
    (hno : NoLarge s.mem (frameOf cr3) (pageOf virt)) :
    (s'.vmmTranslateIn cr3 virt).1 = (s.vmmTranslateIn cr3 virt).1 ∧
      TwinStep (frameOf cr3) s s' (s.vmmTranslateIn cr3 virt).2 (s'.vmmTranslateIn cr3 virt).2 := by
  obtain ⟨hresult, hstep⟩ := h.walkPt false false hsep hv hno
  obtain ⟨_, _, hfound, _⟩ := hsep.walkPt false false ⟨rfl, hv⟩ hno
  unfold State.vmmTranslateIn
  generalize s.walkPt cr3 virt false false = w at *
  generalize s'.walkPt cr3 virt false false = w' at *
  obtain ⟨found, s1⟩ := w
  obtain ⟨_ | ⟨t, i⟩, s1'⟩ := w'
  · obtain rfl : none = found := hresult
    exact ⟨rfl, hstep⟩
  obtain rfl : some (t, i) = found := hresult
  dsimp only at hfound hstep ⊢
  obtain ⟨_, ht, _⟩ := hfound t i rfl
  have hrow : s1'.mem t i = s1.mem t i := by
    rw [hstep.twin.tables ⟨pageOf virt, 3, hv, le_rfl, ht⟩]
  rw [hrow]
  split
  · exact ⟨rfl, hstep⟩
  · exact ⟨rfl, hstep⟩

theorem vmmMapPageIn (phys flags : BitVec 64) (h : Twin (frameOf cr3) s s')
    (hsep : Separated s (Lower (frameOf cr3)) (Lower (frameOf cr3))) (hv : pageOf virt < 2 ^ 35)
    (hno : NoLarge s.mem (frameOf cr3) (pageOf virt)) :
    (s'.vmmMapPageIn cr3 virt phys flags).1 = (s.vmmMapPageIn cr3 virt phys flags).1 ∧
      TwinStep (frameOf cr3) s s' (s.vmmMapPageIn cr3 virt phys flags).2
        (s'.vmmMapPageIn cr3 virt phys flags).2 := by
  have hw : Lower (frameOf cr3) (frameOf cr3) (pageOf virt) := ⟨rfl, hv⟩
  obtain ⟨hresult, hstep⟩ := h.walkPt true (decide (flags &&& VMM_USER ≠ 0)) hsep hv hno
  obtain ⟨hsep1, _, hfound, _⟩ := hsep.walkPt true (decide (flags &&& VMM_USER ≠ 0)) hw hno
  unfold State.vmmMapPageIn
  split
  case isTrue => exact ⟨rfl, .refl h⟩
  case isFalse =>
  generalize s.walkPt cr3 virt true (decide (flags &&& VMM_USER ≠ 0)) = w at *
  generalize s'.walkPt cr3 virt true (decide (flags &&& VMM_USER ≠ 0)) = w' at *
  obtain ⟨found, s1⟩ := w
  obtain ⟨_ | ⟨t, i⟩, s1'⟩ := w'
  · obtain rfl : none = found := hresult
    exact ⟨rfl, hstep⟩
  obtain rfl : some (t, i) = found := hresult
  dsimp only at hsep1 hfound hstep ⊢
  obtain ⟨rfl, ht, _⟩ := hfound t i rfl
  refine ⟨rfl, hstep.trans (hstep.twin.write ⟨pageOf virt, 3, hv, le_rfl, ht⟩ fun {f} ↦ ?_)⟩
  have htables := fun {w m : ℕ} (hlow : w < 2 ^ 35) (hm : m ≤ 3) ↦
    hsep1.apart.tableOn_write (e := (phys &&& PTE_ADDR_MASK) ||| flags ||| VMM_PRESENT) hw ht
      (show Lower (frameOf cr3) (frameOf cr3) w from ⟨rfl, hlow⟩) hm
  constructor
  · rintro ⟨w, m, hlow, hm, hf⟩
    exact ⟨w, m, hlow, hm, (htables hlow hm).symm.trans hf⟩
  · rintro ⟨w, m, hlow, hm, hf⟩
    exact ⟨w, m, hlow, hm, (htables hlow hm).trans hf⟩

end Pages

end Twin

namespace Owned

variable {s : State} {owner : ℕ → Owner} {r v n t : ℕ}

section

variable (h : Owned s owner) (hr : owner r = .top)
include h hr

theorem tableOn_onPath (hv : v < 2 ^ 35) (hn : n ≤ 3)
    (ht : tableOn s.mem r v n = some t) : OnPath owner r v (4 - n) t := by
  induction n generalizing t with
  | zero =>
    obtain rfl := Option.some.inj ht
    exact onPath_top hr hv
  | succ n ih =>
    obtain ⟨u, hu, hpresent, _, rfl⟩ := tableOn_eq_some ht
    have hpath := ih (by omega) hu
    rw [show 4 - n = 3 - n + 1 by omega] at hpath
    rw [show 4 - (n + 1) = 3 - n by omega]
    exact h.forest.onPath_target hpath hv hpresent

theorem isTable_of_lowerTable (ht : LowerTable s.mem r t) : IsTable owner t := by
  obtain ⟨v, n, hv, hn, ht⟩ := ht
  have hpath := h.tableOn_onPath hr hv hn ht
  rw [show 4 - n = 3 - n + 1 by omega] at hpath
  exact (hpath.lowerEntry hv).isTable

/-- A space's lower half is apart from the free frames and has no large pages. -/
theorem separated :
    Separated s (Lower r) (Lower r) ∧ ∀ v < 2 ^ 35, NoLarge s.mem r v := by
  refine ⟨⟨fun _ _ hv ↦ hv, ?_, ?_, h.total⟩, ?_⟩
  · rintro r₁ v n t ⟨rfl, hv⟩ hn ht r' w m ⟨rfl, hw⟩ hm hu
    have hpath := h.tableOn_onPath hr hv hn ht
    have hpath' := h.tableOn_onPath hr hw hm hu
    obtain ⟨k, hk, horigin⟩ := hpath.origin_eq
    obtain ⟨k', hk', horigin'⟩ := hpath'.origin_eq
    have hdepth : 4 - n = 4 - m := by
      rcases hpath.held with ⟨hd, htop⟩ | ⟨u, j, hentry⟩ <;>
        rcases hpath'.held with ⟨hd', htop'⟩ | ⟨u', j', hentry'⟩ <;> simp_all
    obtain rfl : m = n := by omega
    obtain rfl : k = k' := by omega
    rw [horigin] at horigin'
    exact ⟨rfl, rfl, (Prod.mk.inj (Option.some.inj horigin')).2⟩
  · rintro f r' w m hf ⟨rfl, hw⟩ hm ht
    have htable := h.isTable_of_lowerTable hr ⟨w, m, hw, hm, ht⟩
    refine h.used ?_ hf
    rcases htable with hbase | htop | ⟨u, j, d, hentry⟩
    · simp [hbase]
    · simp [htop]
    · simp [hentry]
  · intro v hv n hn t ht
    have hpath := h.tableOn_onPath hr hv (by omega) ht
    rw [show 4 - n = 3 - n + 1 by omega] at hpath
    exact (h.forest.entries (hpath.lowerEntry hv)).1

end

end Owned

end ToastyUnix.Mm
