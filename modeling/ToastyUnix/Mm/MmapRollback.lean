import ToastyUnix.Mm.Unmapping
import ToastyUnix.Mm.UserMemory

/-!
# A failing `sys_mmap`

`sys_mmap` maps its pages one by one and calls `sys_munmap` on the pages before the one that fails.
Each of them is mapped to a fresh frame, whatever it was mapped to before, so the rollback leaves
all of them unmapped. A failing call thus leaves the task's memory as it was exactly when none of
the pages that the free frames suffice for was mapped (`failed_mmap_unchanged_iff`).
-/

namespace ToastyUnix.Mm

open Paging Finset

/-! ## Mapping fresh pages -/

/-- The tables stay and new ones come from free frames, frames are only taken, and used frames that
are no tables keep their contents. -/
structure Preserves (r : ℕ) (s s' : State) : Prop where
  kept : ∀ {v n t}, v < 2 ^ 35 → n ≤ 3 → tableOn s.mem r v n = some t →
    tableOn s'.mem r v n = some t
  fresh : ∀ {v n t}, v < 2 ^ 35 → n ≤ 3 → tableOn s'.mem r v n = some t →
    tableOn s.mem r v n = some t ∨ s.pmm.IsFree t
  total : s'.pmm.totalFrames = s.pmm.totalFrames
  free : ∀ {f}, s'.pmm.IsFree f → s.pmm.IsFree f
  data : ∀ {f}, ¬s.pmm.IsFree f → ¬LowerTable s'.mem r f → s'.mem f = s.mem f

namespace Preserves

variable {r : ℕ} {s s' s'' : State}

theorem refl (r : ℕ) (s : State) : Preserves r s s :=
  ⟨fun _ _ ht ↦ ht, fun _ _ ht ↦ .inl ht, rfl, fun hf ↦ hf, fun _ _ ↦ rfl⟩

theorem lowerTable {t : ℕ} (h : Preserves r s s') (ht : LowerTable s.mem r t) :
    LowerTable s'.mem r t := by
  obtain ⟨v, n, hv, hn, ht⟩ := ht
  exact ⟨v, n, hv, hn, h.kept hv hn ht⟩

theorem trans (h : Preserves r s s') (h' : Preserves r s' s'') : Preserves r s s'' where
  kept hv hn ht := h'.kept hv hn (h.kept hv hn ht)
  fresh hv hn ht := (h'.fresh hv hn ht).elim (h.fresh hv hn) fun hf ↦ .inr (h.free hf)
  total := h'.total.trans h.total
  free hf := h.free (h'.free hf)
  data hf ht := by
    rw [h'.data (fun hf' ↦ hf (h.free hf')) ht, h.data hf fun ht' ↦ ht (h'.lowerTable ht')]

end Preserves

variable {page v m n r start : ℕ} {s : State}

/-- The first `m` pages from `start` on are mapped to frames free before; what else was taken is a
table. -/
structure Laid (r start m : ℕ) (s s' : State) : Prop extends Preserves r s s' where
  space : TaskSpace r s'
  taken : ∀ {f}, s.pmm.IsFree f → s'.pmm.IsFree f ∨ LowerTable s'.mem r f ∨
    ∃ v < 2 ^ 35, PagesFrom start m v ∧ frameAt s'.mem r v = some f
  pages : ∀ {v}, v < 2 ^ 35 → PagesFrom start m v →
    ∃ g, frameAt s'.mem r v = some g ∧ s.pmm.IsFree g
  others : ∀ {v}, v < 2 ^ 35 → ¬PagesFrom start m v → frameAt s'.mem r v = frameAt s.mem r v

theorem pagesFrom_zero : ¬PagesFrom page 0 v := fun ⟨k, hk, _⟩ ↦ by omega

theorem pagesFrom_add :
    PagesFrom page (m + n) v ↔ PagesFrom page m v ∨ PagesFrom (page + 4096 * m) n v := by
  constructor
  · rintro ⟨k, hk, rfl⟩
    by_cases hlt : k < m
    · exact .inl ⟨k, hlt, rfl⟩
    · refine .inr ⟨k - m, by omega, ?_⟩
      rw [add_assoc, ← mul_add, Nat.add_sub_cancel' (by omega)]
  · rintro (⟨k, hk, rfl⟩ | ⟨k, hk, rfl⟩)
    · exact ⟨k, by omega, rfl⟩
    · exact ⟨m + k, by omega, by rw [add_assoc, ← mul_add]⟩

namespace Laid

variable {r start m n : ℕ} {s s' s'' : State}

theorem refl (h : TaskSpace r s) : Laid r start 0 s s where
  toPreserves := .refl r s
  space := h
  taken hf := .inl hf
  pages _ hin := (pagesFrom_zero hin).elim
  others _ _ := rfl

theorem trans (h : Laid r start m s s') (h' : Laid r (start + 4096 * m) n s' s'')
    (hapart : ∀ {v}, PagesFrom start m v → ¬PagesFrom (start + 4096 * m) n v) :
    Laid r start (m + n) s s'' where
  toPreserves := h.toPreserves.trans h'.toPreserves
  space := h'.space
  taken {f} hf := by
    rcases h.taken hf with hf | ht | ⟨v, hv, hin, hfv⟩
    · rcases h'.taken hf with hf | ht | ⟨v, hv, hin, hfv⟩
      · exact .inl hf
      · exact .inr (.inl ht)
      · exact .inr (.inr ⟨v, hv, pagesFrom_add.mpr (.inr hin), hfv⟩)
    · exact .inr (.inl (h'.lowerTable ht))
    · refine .inr (.inr ⟨v, hv, pagesFrom_add.mpr (.inl hin), ?_⟩)
      rw [h'.others hv (hapart hin), hfv]
  pages {v} hv hin := by
    rcases pagesFrom_add.mp hin with hin | hin
    · obtain ⟨g, hg, hfree⟩ := h.pages hv hin
      exact ⟨g, (h'.others hv (hapart hin)).trans hg, hfree⟩
    · obtain ⟨g, hg, hfree⟩ := h'.pages hv hin
      exact ⟨g, hg, h.free hfree⟩
  others hv hout := by
    rw [pagesFrom_add, not_or] at hout
    rw [h'.others hv hout.2, h.others hv hout.1]

end Laid

/-- The free frame `g` has been taken from the allocator and cleared. -/
structure Cleared (r g : ℕ) (s s' : State) : Prop where
  owned : ∃ owner, Owned s' owner ∧ owner r = .top ∧ Spare s' owner g
  zero : ¬s'.pmm.IsFree 0
  walks : ∀ w < 2 ^ 35, SameWalk s.mem s'.mem r w
  mem : ∀ {f}, f ≠ g → s'.mem f = s.mem f
  total : s'.pmm.totalFrames = s.pmm.totalFrames
  was_free : s.pmm.IsFree g
  free : ∀ {f}, s'.pmm.IsFree f ↔ s.pmm.IsFree f ∧ f ≠ g
  card : s'.pmm.freeFrames.card + 1 = s.pmm.freeFrames.card

theorem TaskSpace.cleared (h : TaskSpace r s) (hphys : s.allocFrame.1 ≠ 0) :
    ∃ g, s.allocFrame.1 = ofFrame g ∧
      Cleared r g s (s.allocFrame.2.clearFrame s.allocFrame.1) := by
  obtain ⟨owner, howned, hr⟩ := h.owned
  obtain ⟨g, _, hlt, haddr, hfree, hrest, hcard⟩ := h.walkable.allocFrame_ne_zero hphys
  obtain ⟨halloc, hext⟩ := howned.allocFrame
  have hspare : Spare s.allocFrame.2 owner g := by
    obtain ⟨g', hspare, haddr', _⟩ := howned.allocFrame_ne_zero hphys
    rwa [← frameOf_ofFrame (hspare.lt halloc), ← haddr', haddr, frameOf_ofFrame hlt] at hspare
  obtain ⟨hclear, hext'⟩ := halloc.clearFrame hspare
  have hmem : (s.allocFrame.2.clearFrame (ofFrame g)).mem = s.mem.fill g fun _ ↦ 0 := by
    rw [State.clearFrame, frameOf_ofFrame hlt]
    rfl
  rw [haddr]
  refine ⟨g, rfl, ⟨owner, hclear, hr, hext'.spare hspare⟩, fun hz ↦ h.zero ((hrest 0).mp hz).1, ?_,
    ?_, hext.totalFrames, hfree, fun {f} ↦ hrest f, hcard⟩
  · intro w hw
    rw [hmem]
    exact sameWalk_fill fun m hm ↦ h.walkable.separated.fresh hfree ⟨rfl, hw⟩ hm
  · intro f hne
    rw [hmem]
    exact funext fun i ↦ s.mem.fill_of_ne _ hne i

namespace Cleared

variable {r g v : ℕ} {s s1 s' : State}

theorem taskSpace (h : Cleared r g s s1) : TaskSpace r s1 := by
  obtain ⟨owner, howned, hr, _⟩ := h.owned
  exact ⟨⟨owner, howned, hr⟩, h.zero⟩

theorem missingTables_eq {pages : Finset ℕ} (h : Cleared r g s s1)
    (hpages : ∀ w ∈ pages, w < 2 ^ 35) :
    missingTables s1.mem r pages = missingTables s.mem r pages :=
  missingTables_congr fun w hw _ hn ↦ (h.walks w (hpages w hw)).tableOn (by omega)

theorem preserves (h : Cleared r g s s1) (hgrows : AddsTables r v s1 s')
    (hquiet : ∀ {f}, ¬LowerTable s'.mem r f → s'.mem f = s1.mem f) : Preserves r s s' where
  kept hw hn ht := hgrows.kept hw hn (((h.walks _ hw).tableOn (by omega)).trans ht)
  fresh hw hn ht := by
    rcases hgrows.fresh hw hn ht with ht | hf
    · exact .inl (((h.walks _ hw).tableOn (by omega)).symm.trans ht)
    · exact .inr (h.free.mp hf).1
  total := hgrows.total.trans h.total
  free hf := (h.free.mp (hgrows.free hf)).1
  data {f} hf ht := by
    have hne : f ≠ g := by
      rintro rfl
      exact hf h.was_free
    rw [hquiet ht, h.mem hne]

end Cleared

namespace TaskSpace

variable {s s1 s' : State} {cr3 : BitVec 64} {page g : ℕ} {status : ℤ}

/-- What `vmm_map_page_in` preserves, whether it succeeds or not. -/
theorem preserves_map (hclear : Cleared (frameOf cr3) g s s1) (hv : pageOf page < 2 ^ 35)
    (halign : page % 4096 = 0)
    (hmap : s1.vmmMapPageIn cr3 page (ofFrame g) USER_PAGE = (status, s')) :
    Preserves (frameOf cr3) s s' ∧ AddsTables (frameOf cr3) (pageOf page) s1 s' := by
  have hwalk := hclear.taskSpace.walkable
  obtain ⟨_, hgrows, _⟩ := hwalk.vmmMapPageIn (g := g) hv halign
  obtain ⟨_, hstep⟩ := (Twin.refl (frameOf cr3) s1).vmmMapPageIn (ofFrame g) USER_PAGE
    hwalk.separated hv (hwalk.small _ hv)
  rw [hmap] at hgrows hstep
  exact ⟨hclear.preserves hgrows fun ht ↦ (hstep.quiet ht).1, hgrows⟩

theorem pagesFrom_one {v : ℕ} : PagesFrom page 1 v ↔ v = pageOf page := by
  constructor
  · rintro ⟨k, hk, rfl⟩
    obtain rfl : k = 0 := by omega
    rfl
  · exact fun heq ↦ pagesFrom_head heq

section

variable (hclear : Cleared (frameOf cr3) g s s1) (hv : pageOf page < 2 ^ 35)
  (halign : page % 4096 = 0)
include hclear hv halign

/-- The page is mapped to the cleared frame. -/
theorem map_succeeds (hmap : s1.vmmMapPageIn cr3 page (ofFrame g) USER_PAGE = (0, s')) :
    Laid (frameOf cr3) page 1 s s' ∧
      (∀ n ≤ 3, tableOn s'.mem (frameOf cr3) (pageOf page) n ≠ none) ∧
      ∀ {pages : Finset ℕ}, pageOf page ∈ pages → (∀ w ∈ pages, w < 2 ^ 35) →
        s'.pmm.freeFrames.card + 1 + (missingTables s.mem (frameOf cr3) pages).card =
          s.pmm.freeFrames.card + (missingTables s'.mem (frameOf cr3) pages).card := by
  obtain ⟨hpreserves, hgrows⟩ := preserves_map hclear hv halign hmap
  obtain ⟨_, _, hdone, _⟩ := hclear.taskSpace.walkable.vmmMapPageIn (g := g) hv halign
  obtain ⟨owner, howned, hr, hspare⟩ := hclear.owned
  obtain ⟨owner', howned', hedits, hmapped, _⟩ :=
    howned.vmmMapPageIn hr hv halign (.inl hspare)
  rw [hmap] at hdone howned' hedits hmapped
  have hpage := hmapped rfl
  refine ⟨⟨hpreserves, ⟨⟨owner', howned', hedits.tops hr⟩, fun hz ↦ hclear.zero (hgrows.free hz)⟩,
    fun {f} hf ↦ ?_, fun {v} _ hin ↦ ?_, fun {v} hw hout ↦ ?_⟩, hdone rfl, fun hin hpages ↦ ?_⟩
  · by_cases hsame : f = g
    · exact .inr (.inr ⟨pageOf page, hv, pagesFrom_one.mpr rfl, hsame ▸ hpage⟩)
    · exact (hgrows.taken (hclear.free.mpr ⟨hf, hsame⟩)).imp_right .inl
  · rw [pagesFrom_one.mp hin]
    exact ⟨g, hpage, hclear.was_free⟩
  · rw [← (hclear.walks v hw).frameAt, frameAt, frameAt,
      hedits.leaf (.inl hr) (by omega) fun hin ↦ hout (pagesFrom_one.mpr hin.2)]
  · have hcount := hgrows.count hin hpages
    have hcard := hclear.card
    rw [hclear.missingTables_eq hpages] at hcount
    omega

/-- There are not enough frames for the tables, and the cleared frame is returned. -/
theorem map_fails (hne : status ≠ 0)
    (hmap : s1.vmmMapPageIn cr3 page (ofFrame g) USER_PAGE = (status, s')) :
    Laid (frameOf cr3) page 0 s (s'.freeFrame (ofFrame g)) ∧
      s.pmm.freeFrames.card < 1 + (missingTables s.mem (frameOf cr3) {pageOf page}).card := by
  obtain ⟨hpreserves, hgrows⟩ := preserves_map hclear hv halign hmap
  obtain ⟨_, _, _, hfail⟩ := hclear.taskSpace.walkable.vmmMapPageIn (g := g) hv halign
  obtain ⟨owner, howned, hr, hspare⟩ := hclear.owned
  obtain ⟨owner', howned', _, _, hundone⟩ := howned.vmmMapPageIn hr hv halign (.inl hspare)
  rw [hmap] at hfail howned' hundone
  dsimp only at hfail howned' hundone
  have hext := hundone hne
  have hspare' := hext.spare hspare
  have hlt := hspare.lt howned
  have hfreed : ∀ {f}, (s'.freeFrame (ofFrame g)).pmm.IsFree f ↔ s'.pmm.IsFree f ∨ f = g := by
    intro f
    rw [State.freeFrame, Pmm.isFree_pmmFreeFrame, frameOf_ofFrame hlt]
    refine or_congr Iff.rfl ⟨And.right, ?_⟩
    rintro rfl
    exact ⟨hspare'.lt_total, rfl⟩
  refine ⟨⟨{ hpreserves with total := ?_, free := ?_ },
    ⟨⟨owner', howned'.freeFrame hlt hspare'.nobody, hext.keeps.top hr⟩, ?_⟩, fun {f} hf ↦ ?_,
    fun _ hin ↦ (pagesFrom_zero hin).elim, fun {v} hw _ ↦ ?_⟩, ?_⟩
  · rw [State.freeFrame, Pmm.totalFrames_pmmFreeFrame, hpreserves.total]
  · intro f hf
    rcases hfreed.mp hf with hf | rfl
    · exact hpreserves.free hf
    · exact hclear.was_free
  · rw [hfreed, not_or]
    exact ⟨fun hz ↦ hclear.zero (hgrows.free hz), fun hz ↦ hspare.ne_zero hz.symm⟩
  · by_cases heq : f = g
    · exact .inl (hfreed.mpr (.inr heq))
    · rcases hgrows.taken (hclear.free.mpr ⟨hf, heq⟩) with hf | ht
      · exact .inl (hfreed.mpr (.inl hf))
      · exact .inr (.inl ht)
  · rw [← (hclear.walks v hw).frameAt, frameAt, frameAt, ← hext.view.leaf (.inl hr) (by omega)]
    rfl
  · obtain ⟨hempty, n, hn, hlack⟩ := hfail hne
    have hself : ∀ w ∈ ({pageOf page} : Finset ℕ), w < 2 ^ 35 := by
      intro w hw
      rwa [mem_singleton.mp hw]
    have hcount := hgrows.count (mem_singleton_self _) hself
    have hcard := hclear.card
    have hpos : 0 < (missingTables s'.mem (frameOf cr3) {pageOf page}).card :=
      card_pos.mpr ⟨_, mem_missingTables.mpr
        ⟨pageOf page, n + 1, mem_singleton_self _, by omega, by omega, hlack, rfl⟩⟩
    rw [hclear.missingTables_eq hself] at hcount
    omega

end

end TaskSpace

/-- The first `n` pages from `start` on. -/
def firstPages (start n : ℕ) : Finset ℕ := (Finset.range n).image fun i ↦ pageOf (start + 4096 * i)

/-- The frames that the first `n` pages from `start` on take: one each, and one for each missing
table. -/
def framesNeeded (mem : Memory) (r start n : ℕ) : ℕ :=
  n + (missingTables mem r (firstPages start n)).card

theorem mem_firstPages : v ∈ firstPages start n ↔ PagesFrom start n v := by
  simp [firstPages, PagesFrom, eq_comm]

theorem framesNeeded_mono {mem : Memory} (h : m ≤ n) :
    framesNeeded mem r start m ≤ framesNeeded mem r start n := by
  have hsub : missingTables mem r (firstPages start m) ⊆
      missingTables mem r (firstPages start n) := by
    intro x hx
    obtain ⟨v, k, hv, hrest⟩ := mem_missingTables.mp hx
    obtain ⟨i, hi, heq⟩ := mem_firstPages.mp hv
    exact mem_missingTables.mpr ⟨v, k, mem_firstPages.mpr ⟨i, by omega, heq⟩, hrest⟩
  have hcard := card_le_card hsub
  rw [framesNeeded, framesNeeded]
  omega

/-- What the loop of `sys_mmap` has done in its first `m` passes. -/
structure Passed (r start m : ℕ) (s s' : State) : Prop where
  laid : Laid r start m s s'
  filled : ∀ {v n}, PagesFrom start m v → n ≤ 3 → tableOn s'.mem r v n ≠ none
  count : ∀ {pages : Finset ℕ}, firstPages start m ⊆ pages → (∀ w ∈ pages, w < 2 ^ 35) →
    s'.pmm.freeFrames.card + m + (missingTables s.mem r pages).card =
      s.pmm.freeFrames.card + (missingTables s'.mem r pages).card

/-- What is left of a call that fails at page `m`: the pages before it are unmapped. -/
def RolledBack (r start m : ℕ) (s s' : State) : Prop :=
  TaskSpace r s' ∧ ∃ s1, Laid r start m s s1 ∧ Unmapped r (PagesFrom start m) s1 s'

theorem UserPages.of_pagesFrom (h : UserPages start n) (hv : PagesFrom start n v) : v < 2 ^ 35 := by
  obtain ⟨k, hk, rfl⟩ := hv
  exact h k hk

theorem pagesFrom_apart (hle : start + 4096 * (m + 1) ≤ USER_HALF_MAX) (hv : PagesFrom start m v) :
    ¬PagesFrom (start + 4096 * m) 1 v := by
  rintro ⟨j, hj, heq⟩
  obtain ⟨i, hi, rfl⟩ := hv
  rw [USER_HALF_MAX] at hle
  rw [pageOf, pageOf] at heq
  omega

namespace Passed

variable {r start m n : ℕ} {s s' : State}

theorem zero (h : TaskSpace r s) : Passed r start 0 s s where
  laid := .refl h
  filled hv := (pagesFrom_zero hv).elim
  count _ _ := rfl

theorem missingTables_next (h : Passed r start m s s') :
    missingTables s'.mem r (firstPages start (m + 1)) =
      missingTables s'.mem r {pageOf (start + 4096 * m)} := by
  ext x
  rw [mem_missingTables, mem_missingTables]
  constructor
  · rintro ⟨v, k, hv, hpos, hk, hlack, rfl⟩
    obtain ⟨i, hi, rfl⟩ := mem_firstPages.mp hv
    by_cases hlast : i = m
    · exact ⟨_, k, by rw [hlast]; exact mem_singleton_self _, hpos, hk, hlack, rfl⟩
    · exact absurd hlack (h.filled ⟨i, by omega, rfl⟩ hk)
  · rintro ⟨v, k, hv, hpos, hk, hlack, rfl⟩
    rw [mem_singleton] at hv
    exact ⟨v, k, mem_firstPages.mpr ⟨m, by omega, hv⟩, hpos, hk, hlack, rfl⟩

theorem framesNeeded_next (h : Passed r start m s s') (hpages : UserPages start (m + 1)) :
    s'.pmm.freeFrames.card + framesNeeded s.mem r start (m + 1) = s.pmm.freeFrames.card +
      (1 + (missingTables s'.mem r {pageOf (start + 4096 * m)}).card) := by
  have hsub : firstPages start m ⊆ firstPages start (m + 1) := by
    intro v hv
    obtain ⟨i, hi, heq⟩ := mem_firstPages.mp hv
    exact mem_firstPages.mpr ⟨i, by omega, heq⟩
  have hcount := h.count hsub fun w hw ↦ hpages.of_pagesFrom (mem_firstPages.mp hw)
  rw [h.missingTables_next] at hcount
  rw [framesNeeded]
  omega

end Passed

namespace TaskSpace

variable {s : State} {cr3 : BitVec 64} {start : ℕ}

/-- The call of `sys_munmap` after `m` pages. -/
theorem rollback {s1 : State} {m : ℕ} (h : Laid (frameOf cr3) start m s s1)
    (halign : start % 4096 = 0) (hle : start + 4096 * m ≤ USER_HALF_MAX) :
    RolledBack (frameOf cr3) start m s
      (s1.sysMunmap cr3 start (start + 4096 * m - start : ℕ)).2 := by
  rw [USER_HALF_MAX] at hle
  obtain ⟨hspace, hunmapped⟩ := h.space.munmapLoop m halign (userPages_of_le (by omega))
  have hstart : ((start : ℤ) % 2 ^ 64).toNat = start := by omega
  have hlen : pageUp ((start + 4096 * m - start : ℕ) : ℤ).toNat = 4096 * m := by
    rw [Int.toNat_natCast, pageUp, pageDown, wrap]
    omega
  unfold State.sysMunmap
  simp only [hstart, hlen]
  split
  case isTrue hargs =>
    obtain rfl : m = 0 := by omega
    exact ⟨h.space, s1, h, (Unmapped.refl _ s1).congr fun v ↦ (iff_false_intro pagesFrom_zero).symm⟩
  case isFalse =>
    have hrange : ¬(USER_HALF_MAX < wrap (start + 4096 * m) ∨ wrap (start + 4096 * m) < start) := by
      rw [USER_HALF_MAX, wrap]
      omega
    rw [if_neg hrange, Nat.mul_div_cancel_left _ (by decide)]
    exact ⟨hspace, s1, h, hunmapped⟩

/-- The loop maps all pages, or stops at the first without enough free frames. -/
theorem mmapLoop (m n : ℕ) {s1 s' : State} {ok : Bool} (h : Passed (frameOf cr3) start m s s1)
    (halign : start % 4096 = 0) (hle : start + 4096 * (m + n) ≤ USER_HALF_MAX)
    (hneeded : framesNeeded s.mem (frameOf cr3) start m ≤ s.pmm.freeFrames.card)
    (hloop : s1.mmapLoop cr3 start n (start + 4096 * m) = (ok, s')) :
    (ok = true → Laid (frameOf cr3) start (m + n) s s') ∧
    (ok = false → ∃ k < m + n, framesNeeded s.mem (frameOf cr3) start k ≤ s.pmm.freeFrames.card ∧
      s.pmm.freeFrames.card < framesNeeded s.mem (frameOf cr3) start (k + 1) ∧
      RolledBack (frameOf cr3) start k s s') := by
  induction n generalizing m s1 with
  | zero =>
    obtain ⟨rfl, rfl⟩ := Prod.mk.inj hloop
    exact ⟨fun _ ↦ h.laid, by simp⟩
  | succ n ih =>
    have hlim : start + 4096 * (m + 1) ≤ USER_HALF_MAX :=
      le_trans (Nat.add_le_add_left (Nat.mul_le_mul_left _ (by omega)) _) hle
    have hpages : UserPages start (m + 1) :=
      userPages_of_le (hlim.trans (by decide))
    have hv : pageOf (start + 4096 * m) < 2 ^ 35 := hpages m (by omega)
    have hnext := h.framesNeeded_next hpages
    have hfails : ∀ {s2}, Laid (frameOf cr3) start m s s2 →
        s1.pmm.freeFrames.card <
          1 + (missingTables s1.mem (frameOf cr3) {pageOf (start + 4096 * m)}).card →
        ok = false → s' = (s2.sysMunmap cr3 start (start + 4096 * m - start : ℕ)).2 →
        ∃ k < m + (n + 1), framesNeeded s.mem (frameOf cr3) start k ≤ s.pmm.freeFrames.card ∧
          s.pmm.freeFrames.card < framesNeeded s.mem (frameOf cr3) start (k + 1) ∧
          RolledBack (frameOf cr3) start k s s' := by
      intro s2 hlaid hless _ hs'
      rw [hs']
      exact ⟨m, by omega, hneeded, by omega, rollback hlaid halign (by omega)⟩
    simp only [State.mmapLoop] at hloop
    split at hloop
    case isTrue hzero =>
      obtain ⟨hok, hs'⟩ := Prod.mk.inj hloop
      obtain ⟨hsame, hcard⟩ := h.laid.space.walkable.allocFrame_eq_zero hzero
      rw [hsame] at hs'
      exact ⟨by simp [← hok], fun hfalse ↦ hfails h.laid (by omega) hfalse hs'.symm⟩
    case isFalse hphys =>
      obtain ⟨g, haddr, hclear⟩ := h.laid.space.cleared hphys
      rw [haddr] at hloop hclear
      generalize hmap : (s1.allocFrame.2.clearFrame (ofFrame g)).vmmMapPageIn cr3
        (start + 4096 * m) (ofFrame g) USER_PAGE = result at hloop
      obtain ⟨status, s2⟩ := result
      dsimp only at hloop
      split at hloop
      case isTrue hne =>
        obtain ⟨hok, hs'⟩ := Prod.mk.inj hloop
        obtain ⟨hlaid, hless⟩ := map_fails hclear hv (by omega) hne hmap
        have hboth := h.laid.trans hlaid fun _ ↦ pagesFrom_zero
        exact ⟨by simp [← hok], fun hfalse ↦ hfails hboth hless hfalse hs'.symm⟩
      case isFalse hok =>
        obtain rfl : status = 0 := by simpa using hok
        obtain ⟨hlaid, hfilled, hcount⟩ := map_succeeds hclear hv (by omega) hmap
        have hone : Passed (frameOf cr3) start (m + 1) s s2 := by
          refine ⟨h.laid.trans hlaid fun hin ↦ pagesFrom_apart hlim hin, ?_, ?_⟩
          · intro v k hin hk
            rcases pagesFrom_add.mp hin with hin | ⟨j, hj, rfl⟩
            · intro hlack
              obtain ⟨t, ht⟩ := Option.ne_none_iff_exists'.mp (h.filled hin hk)
              rw [hlaid.kept (hpages.of_pagesFrom (pagesFrom_add.mpr (.inl hin))) hk ht] at hlack
              simp at hlack
            · obtain rfl : j = 0 := by omega
              exact hfilled k hk
          · intro pages hsub hlow
            have hin : pageOf (start + 4096 * m) ∈ pages :=
              hsub (mem_firstPages.mpr ⟨m, by omega, rfl⟩)
            have hsub' : firstPages start m ⊆ pages := by
              intro v hin
              obtain ⟨i, hi, heq⟩ := mem_firstPages.mp hin
              exact hsub (mem_firstPages.mpr ⟨i, by omega, heq⟩)
            have hfirst := h.count hsub' hlow
            have hlast := hcount hin hlow
            omega
        have hself : ∀ w ∈ ({pageOf (start + 4096 * m)} : Finset ℕ), w < 2 ^ 35 := by
          intro w hw
          rwa [mem_singleton.mp hw]
        have hempty : missingTables s2.mem (frameOf cr3) {pageOf (start + 4096 * m)} = ∅ := by
          refine eq_empty_of_forall_notMem fun x hx ↦ ?_
          obtain ⟨v, k, hin, _, hk, hlack, _⟩ := mem_missingTables.mp hx
          rw [mem_singleton.mp hin] at hlack
          exact hfilled k hk hlack
        have hlast := hcount (mem_singleton_self _) hself
        rw [hempty, card_empty] at hlast
        have hrest := ih (m + 1) hone (by omega) (by omega)
          (by rwa [show start + 4096 * (m + 1) = start + 4096 * m + 4096 by ring])
        rwa [show m + 1 + n = m + (n + 1) by ring] at hrest

end TaskSpace

/-! ## What a failing call leaves -/

/-- The frames in use that are no tables of the space. -/
def dataFrames (r : ℕ) (s : State) : Set ℕ :=
  {f | f < s.pmm.totalFrames ∧ ¬s.pmm.IsFree f ∧ ¬LowerTable s.mem r f}

/-- The user pages of space `r` and their contents are as before, and as many frames hold data. -/
structure SameUserMemory (r : ℕ) (s s' : State) : Prop where
  frames : ∀ v < 2 ^ 35, frameAt s'.mem r v = frameAt s.mem r v
  contents : ∀ v < 2 ^ 35, ∀ f, frameAt s.mem r v = some f → s'.mem f = s.mem f
  used : (dataFrames r s').ncard = (dataFrames r s).ncard

theorem SameUserMemory.refl (r : ℕ) (s : State) : SameUserMemory r s s :=
  ⟨fun _ _ ↦ rfl, fun _ _ _ _ ↦ rfl, rfl⟩

namespace RolledBack

variable {r start m : ℕ} {s s' : State}

/-- No frame is lost: what was free is free again or a table. -/
theorem dataFrames_eq (h : RolledBack r start m s s') : dataFrames r s' = dataFrames r s := by
  obtain ⟨_, s1, hlaid, hunmapped⟩ := h
  ext f
  have hfree : s'.pmm.IsFree f → s.pmm.IsFree f := by
    intro hf
    rcases hunmapped.free.mp hf with hf | ⟨v, hv, hin, hfv⟩
    · exact hlaid.free hf
    · obtain ⟨g, hg, hfree⟩ := hlaid.pages hv hin
      exact Option.some.inj (hg.symm.trans hfv) ▸ hfree
  simp only [dataFrames, Set.mem_ofPred_eq, hunmapped.total, hlaid.total, hunmapped.lowerTable]
  refine and_congr_right fun _ ↦ ⟨fun ⟨hused, hdata⟩ ↦ ⟨fun hf ↦ ?_, fun ht ↦ ?_⟩,
    fun ⟨hused, hdata⟩ ↦ ⟨fun hf ↦ hused (hfree hf), fun ⟨v, n, hv, hn, ht⟩ ↦ ?_⟩⟩
  · rcases hlaid.taken hf with hf | ht | ⟨v, hv, hin, hfv⟩
    · exact hused (hunmapped.free.mpr (.inl hf))
    · exact hdata ht
    · exact hused (hunmapped.free.mpr (.inr ⟨v, hv, hin, hfv⟩))
  · exact hdata (hlaid.lowerTable ht)
  · rcases hlaid.fresh hv hn ht with ht | hf
    · exact hdata ⟨v, n, hv, hn, ht⟩
    · exact hused hf

/-- The memory is as before if none of the pages was mapped. -/
theorem sameUserMemory_iff (hspace : TaskSpace r s) (h : RolledBack r start m s s')
    (hpages : UserPages start m) :
    SameUserMemory r s s' ↔ ∀ v, PagesFrom start m v → frameAt s.mem r v = none := by
  have hused := h.dataFrames_eq
  obtain ⟨hspace', s1, hlaid, hunmapped⟩ := h
  constructor
  · intro hsame v hin
    have hv := hpages.of_pagesFrom hin
    rw [← hsame.frames v hv]
    exact hunmapped.gone hv hin
  · intro hnone
    have hframes : ∀ v < 2 ^ 35, frameAt s'.mem r v = frameAt s.mem r v := by
      intro v hv
      by_cases hin : PagesFrom start m v
      · rw [hnone v hin]
        exact hunmapped.gone hv hin
      · rw [hunmapped.others hv hin, hlaid.others hv hin]
    refine ⟨hframes, fun v hv f hf ↦ ?_, by rw [hused]⟩
    obtain ⟨_, _, _, hbusy, _⟩ := hspace.frameAt_used hv hf
    obtain ⟨_, _, _, _, hdata⟩ := hspace'.frameAt_used hv ((hframes v hv).trans hf)
    rw [hunmapped.lowerTable] at hdata
    rw [hunmapped.data hdata, hlaid.data hbusy hdata]

end RolledBack

/-- The arguments that `sys_mmap` does not refuse. -/
def MmapAccepts (mmapCur : ℕ) (addr len : ℤ) (flags : BitVec 64) : Prop :=
  0 < len ∧ flags &&& MAP_ANONYMOUS ≠ 0 ∧ mmapStart mmapCur addr % 4096 = 0 ∧
    wrap (mmapStart mmapCur addr + pageUp len.toNat) ≤ USER_HALF_MAX ∧
    mmapStart mmapCur addr ≤ wrap (mmapStart mmapCur addr + pageUp len.toNat)

instance (mmapCur : ℕ) (addr len : ℤ) (flags : BitVec 64) :
    Decidable (MmapAccepts mmapCur addr len flags) :=
  inferInstanceAs (Decidable (_ ∧ _ ∧ _ ∧ _ ∧ _))

namespace State

variable (s : State) (cr3 : BitVec 64) {mmapCur : ℕ} {addr len : ℤ} {flags : BitVec 64}

theorem sysMmap_of_accepts {ok : Bool} {s' : State} (h : MmapAccepts mmapCur addr len flags)
    (hloop : s.mmapLoop cr3 (mmapStart mmapCur addr) (pageUp len.toNat / 4096)
      (mmapStart mmapCur addr) = (ok, s')) :
    s.sysMmap cr3 mmapCur addr len flags =
      if ok then (((mmapStart mmapCur addr : ℕ) : ℤ), mmapStart mmapCur addr + pageUp len.toNat, s')
      else (-Errno.ENOMEM, mmapCur, s') := by
  obtain ⟨hlen, hflags, halign, hend, hwrap⟩ := h
  have hstart : (if addr % 2 ^ 64 = 0 then mmapCur else (addr % 2 ^ 64).toNat) =
      mmapStart mmapCur addr := rfl
  have hlen' : ¬len ≤ 0 := by omega
  have halign' : ¬mmapStart mmapCur addr % 4096 ≠ 0 := by omega
  have hrange : ¬(USER_HALF_MAX < wrap (mmapStart mmapCur addr + pageUp len.toNat) ∨
      wrap (mmapStart mmapCur addr + pageUp len.toNat) < mmapStart mmapCur addr) := by omega
  simp only [sysMmap, hstart, hlen', hflags, halign', hrange, if_false, hloop]
  cases ok <;> rfl

theorem sysMmap_of_not_accepts (h : ¬MmapAccepts mmapCur addr len flags) :
    ∃ error, s.sysMmap cr3 mmapCur addr len flags = (error, mmapCur, s) := by
  have hstart : (if addr % 2 ^ 64 = 0 then mmapCur else (addr % 2 ^ 64).toNat) =
      mmapStart mmapCur addr := rfl
  unfold sysMmap
  simp only [hstart]
  split_ifs with hlen hflags halign hrange
  · exact ⟨_, rfl⟩
  · exact ⟨_, rfl⟩
  · exact ⟨_, rfl⟩
  · exact ⟨_, rfl⟩
  · exact absurd ⟨by omega, hflags, by omega, by omega, by omega⟩ h

end State

/-- `sys_mmap` in a task's space refuses its arguments, maps all its pages, or is rolled back at the
first page without enough free frames. -/
theorem TaskSpace.sysMmap {cr3 : BitVec 64} {mmapCur : ℕ} {addr len : ℤ} {flags : BitVec 64}
    (h : TaskSpace (frameOf cr3) s) (hcur : mmapCur < 2 ^ 64)
    (haccepts : MmapAccepts mmapCur addr len flags) :
    UserPages (mmapStart mmapCur addr) (pageUp len.toNat / 4096) ∧
    ((s.sysMmap cr3 mmapCur addr len flags).1 = mmapStart mmapCur addr ∧
      Laid (frameOf cr3) (mmapStart mmapCur addr) (pageUp len.toNat / 4096) s
        (s.sysMmap cr3 mmapCur addr len flags).2.2 ∨
    (s.sysMmap cr3 mmapCur addr len flags).2.1 = mmapCur ∧ ∃ k < pageUp len.toNat / 4096,
        framesNeeded s.mem (frameOf cr3) (mmapStart mmapCur addr) k ≤ s.pmm.freeFrames.card ∧
        s.pmm.freeFrames.card < framesNeeded s.mem (frameOf cr3) (mmapStart mmapCur addr) (k + 1) ∧
        RolledBack (frameOf cr3) (mmapStart mmapCur addr) k s
          (s.sysMmap cr3 mmapCur addr len flags).2.2) := by
  have hargs := haccepts
  obtain ⟨_, _, halign, hend, hwrap⟩ := hargs
  have hstart : mmapStart mmapCur addr < 2 ^ 64 := by
    rw [mmapStart]
    split
    · exact hcur
    · omega
  have hbytes : pageUp len.toNat < 2 ^ 64 := by
    rw [pageUp, pageDown, wrap]
    omega
  have hle := userPages_of_range hstart hbytes (by omega)
  have hmod := pageUp_mod len.toNat
  have hrange : mmapStart mmapCur addr + 4096 * (0 + pageUp len.toNat / 4096) ≤
      USER_HALF_MAX := by omega
  refine ⟨?_, ?_⟩
  · rw [USER_HALF_MAX] at hle
    exact userPages_of_le (by omega)
  obtain ⟨⟨ok, s'⟩, hloop⟩ : ∃ outcome, s.mmapLoop cr3 (mmapStart mmapCur addr)
    (pageUp len.toNat / 4096) (mmapStart mmapCur addr) = outcome := ⟨_, rfl⟩
  obtain ⟨hdone, hfail⟩ := TaskSpace.mmapLoop 0 (pageUp len.toNat / 4096) (.zero h) halign hrange
    (by simp [framesNeeded, firstPages, missingTables, missing]) hloop
  rw [Nat.zero_add] at hdone hfail
  rw [s.sysMmap_of_accepts cr3 haccepts hloop]
  cases ok with
  | true => exact .inl ⟨rfl, hdone rfl⟩
  | false => exact .inr ⟨rfl, hfail rfl⟩

namespace TaskSpace

variable {s : State} {cr3 : BitVec 64}

variable {page : ℕ}

section

variable (n) (h : TaskSpace (frameOf cr3) s) (halign : page % 4096 = 0) (hpages : UserPages page n)
include h halign hpages

theorem mapStackLoop : ¬(s.mapStackLoop cr3 n page).2.pmm.IsFree 0 := by
  induction n generalizing s page with
  | zero => exact h.zero
  | succ n ih =>
    simp only [State.mapStackLoop]
    split
    case isTrue => exact fun hz ↦ h.zero (Pmm.isFree_of_pmmAllocFrame hz)
    case isFalse hphys =>
      obtain ⟨g, haddr, hclear⟩ := h.cleared hphys
      rw [haddr] at hclear ⊢
      generalize hmap : (s.allocFrame.2.clearFrame (ofFrame g)).vmmMapPageIn cr3 page (ofFrame g)
        USER_PAGE = result
      obtain ⟨status, s'⟩ := result
      dsimp only
      split
      case isTrue hne =>
        exact fun hz ↦ h.zero ((preserves_map hclear hpages.head halign hmap).1.free hz)
      case isFalse hok =>
        obtain rfl : status = 0 := by simpa using hok
        exact ih (map_succeeds hclear hpages.head halign hmap).1.space (by omega) hpages.tail

theorem tusAllocLoop : ¬(s.tusAllocLoop cr3 n page).2.pmm.IsFree 0 := by
  induction n generalizing s page with
  | zero => exact h.zero
  | succ n ih =>
    obtain ⟨owner, howned, hr⟩ := h.owned
    obtain ⟨owner1, h1, hext, hframe⟩ := howned.segmentFrame hr hpages.head halign
    have hr1 := hext.keeps.top hr
    have hspace : TaskSpace (frameOf cr3) (s.segmentFrame cr3 page).2 :=
      ⟨⟨owner1, h1, hr1⟩, fun hz ↦ h.zero (hext.free 0 hz)⟩
    simp only [State.tusAllocLoop]
    split
    case isTrue => exact hspace.zero
    case isFalse hne =>
      obtain ⟨g, hphys, hg⟩ := hframe hne
      obtain ⟨_, hgrows, _⟩ := hspace.walkable.vmmMapPageIn (g := g) hpages.head halign
      obtain ⟨owner2, h2, hedits, _⟩ := h1.vmmMapPageIn hr1 hpages.head halign hg
      rw [hphys, ofFrame_and_not_low]
      have hspace' : TaskSpace (frameOf cr3)
          ((s.segmentFrame cr3 page).2.vmmMapPageIn cr3 page (ofFrame g) USER_PAGE).2 :=
        ⟨⟨owner2, h2, hedits.tops hr1⟩, fun hz ↦ hspace.zero (hgrows.free hz)⟩
      split
      case isTrue => exact hspace'.zero
      case isFalse => exact ih hspace' (by omega) hpages.tail

end

theorem sysMunmap (addr len : ℤ) (h : TaskSpace (frameOf cr3) s) :
    ¬(s.sysMunmap cr3 addr len).2.pmm.IsFree 0 := by
  unfold State.sysMunmap
  simp only
  split
  case isTrue => exact h.zero
  case isFalse hargs =>
    split
    case isTrue => exact h.zero
    case isFalse hrange =>
      have hbytes : pageUp len.toNat < 2 ^ 64 := by
        rw [pageUp, pageDown, wrap]
        omega
      have hle := userPages_of_range (by omega) hbytes hrange
      rw [USER_HALF_MAX] at hle
      exact (h.munmapLoop _ (by omega) (userPages_of_le (by omega))).1.zero

end TaskSpace

namespace UserSystem

variable {σ : UserSystem}

theorem taskSpace {t : UserTask} (h : Invariant σ) (hzero : ¬σ.mm.pmm.IsFree 0)
    (ht : t ∈ σ.tasks) : TaskSpace (frameOf t.cr3) σ.mm ∧ t.mmapCur < 2 ^ 64 := by
  obtain ⟨owner, howned, htasks⟩ := h
  exact ⟨⟨⟨owner, howned, (htasks t ht).1⟩, hzero⟩, (htasks t ht).2⟩

theorem step_zero (h : Invariant σ) (hzero : ¬σ.mm.pmm.IsFree 0) (op : MapOp) :
    ¬(σ.step op).mm.pmm.IsFree 0 := by
  have hspace : ∀ {k : ℕ} {t : UserTask}, σ.tasks[k]? = some t → 
      TaskSpace (frameOf t.cr3) σ.mm ∧ t.mmapCur < 2 ^ 64 := fun ht ↦
    taskSpace h hzero (List.mem_of_getElem? ht)
  cases op with
  | spaceClone =>
    have hpmm : σ.mm.vmmSpaceClone.2.pmm = σ.mm.allocFrame.2.pmm := by
      simp only [State.vmmSpaceClone]
      split <;> rfl
    have hclone : ¬σ.mm.vmmSpaceClone.2.pmm.IsFree 0 := by
      rw [hpmm]
      exact fun hz ↦ hzero (Pmm.isFree_of_pmmAllocFrame hz)
    simp only [step]
    split <;> exact hclone
  | segment task virt size user =>
    simp only [step]
    split
    case h_1 => exact hzero
    case h_2 t ht =>
      have halign : pageDown virt % 4096 = 0 := by
        rw [pageDown]
        omega
      have hloop := (hspace ht).1.tusAllocLoop _ halign user
      simp only [State.tusAlloc]
      split
      case h_1 s' heq =>
        rw [heq] at hloop
        exact hloop
      case h_2 s' heq =>
        rw [heq] at hloop
        exact hloop
  | stack task =>
    simp only [step]
    split
    case h_1 => exact hzero
    case h_2 t ht =>
      exact (hspace ht).1.mapStackLoop _ (by decide) (userPages_of_le (by decide))
  | mmap task addr len flags =>
    simp only [step]
    split
    case h_1 => exact hzero
    case h_2 t ht =>
      by_cases haccepts : MmapAccepts t.mmapCur addr len flags
      · rcases ((hspace ht).1.sysMmap (hspace ht).2 haccepts).2 with
          ⟨_, hlaid⟩ | ⟨_, k, _, _, _, hback⟩
        · exact hlaid.space.zero
        · exact hback.1.zero
      · obtain ⟨error, hresult⟩ := σ.mm.sysMmap_of_not_accepts t.cr3 haccepts
        simp only [hresult]
        exact hzero
  | munmap task addr len =>
    simp only [step]
    split
    case h_1 => exact hzero
    case h_2 t ht => exact (hspace ht).1.sysMunmap addr len

theorem run_zero (hboot : Booted σ) (hzero : ¬σ.mm.pmm.IsFree 0) (ops : List MapOp) :
    ¬(σ.run ops).mm.pmm.IsFree 0 := by
  have hrun : ∀ τ, Invariant τ → ¬τ.mm.pmm.IsFree 0 → ¬(τ.run ops).mm.pmm.IsFree 0 := by
    induction ops with
    | nil => exact fun τ _ hτ ↦ hτ
    | cons op ops ih => exact fun τ hinv hτ ↦ ih _ (step_invariant hinv op) (step_zero hinv hτ op)
  exact hrun σ hboot.invariant hzero

/-- **When a failing `mmap` changes nothing.** In every run from boot on, with frame 0 reserved, a
call that fails leaves the pages of its task, their contents, the cursor and the number of data
frames as they were if and only if the call is refused for its arguments, or every page of the range
that was mapped before needs more frames, together with the pages in front of it and the tables that
are missing, than are free. -/
theorem failed_mmap_unchanged_iff (hboot : Booted σ) (hzero : ¬σ.mm.pmm.IsFree 0) (ops : List MapOp)
    {k : ℕ} {t : UserTask} (ht : (σ.run ops).tasks[k]? = some t) (addr len : ℤ) (flags : BitVec 64)
    (hfail : ((σ.run ops).mm.sysMmap t.cr3 t.mmapCur addr len flags).1 < 0) :
    (SameUserMemory (frameOf t.cr3) (σ.run ops).mm
        ((σ.run ops).mm.sysMmap t.cr3 t.mmapCur addr len flags).2.2 ∧
      ((σ.run ops).mm.sysMmap t.cr3 t.mmapCur addr len flags).2.1 = t.mmapCur) ↔
    (MmapAccepts t.mmapCur addr len flags → ∀ i < pageUp len.toNat / 4096,
      frameAt (σ.run ops).mm.mem (frameOf t.cr3) (pageOf (mmapStart t.mmapCur addr + 4096 * i)) ≠
        none → (σ.run ops).mm.pmm.freeFrames.card < framesNeeded (σ.run ops).mm.mem (frameOf t.cr3)
        (mmapStart t.mmapCur addr) (i + 1)) := by
  obtain ⟨hspace, hcur⟩ :=
    taskSpace (run_invariant hboot ops) (run_zero hboot hzero ops) (List.mem_of_getElem? ht)
  generalize (σ.run ops).mm = s at *
  by_cases haccepts : MmapAccepts t.mmapCur addr len flags
  · obtain ⟨hpages, ⟨hvalue, _⟩ | ⟨hsame, m, hm, henough, hlack, hback⟩⟩ :=
      hspace.sysMmap hcur haccepts
    · omega
    have huser : UserPages (mmapStart t.mmapCur addr) m := fun i hi ↦ hpages i (by omega)
    rw [hback.sameUserMemory_iff hspace huser]
    constructor
    · rintro ⟨hnone, _⟩ _ i hi hmapped
      have hle : m ≤ i := by
        by_contra hlt
        exact hmapped (hnone _ ⟨i, by omega, rfl⟩)
      exact hlack.trans_le (framesNeeded_mono (by omega))
    · intro hsafe
      refine ⟨?_, hsame⟩
      rintro v ⟨i, hi, rfl⟩
      by_contra hmapped
      have hless := hsafe haccepts i (by omega) hmapped
      have hmono : framesNeeded s.mem (frameOf t.cr3) (mmapStart t.mmapCur addr) (i + 1) ≤
          framesNeeded s.mem (frameOf t.cr3) (mmapStart t.mmapCur addr) m :=
        framesNeeded_mono (by omega)
      omega
  · obtain ⟨error, hresult⟩ := s.sysMmap_of_not_accepts t.cr3 haccepts
    rw [hresult]
    exact ⟨fun _ h ↦ absurd h haccepts, fun _ ↦ ⟨.refl _ s, rfl⟩⟩

/-- A first call for more pages than there are frames. -/
theorem failed_mmap_unchanged_iff_fresh :
    let s := (smallBoot.run [.spaceClone]).mm
    (s.sysMmap (ofFrame 2) MMAP_CURSOR_START 0 0x14000 MAP_ANONYMOUS).1 < 0 ∧
      SameUserMemory 2 s (s.sysMmap (ofFrame 2) MMAP_CURSOR_START 0 0x14000 MAP_ANONYMOUS).2.2 := by
  have hfail : ((smallBoot.run [.spaceClone]).mm.sysMmap (ofFrame 2) MMAP_CURSOR_START 0 0x14000
      MAP_ANONYMOUS).1 < 0 := by decide +kernel
  have hnone : ∀ i < 20, frameAt (smallBoot.run [.spaceClone]).mm.mem 2
      (pageOf (mmapStart MMAP_CURSOR_START 0 + 4096 * i)) = none := by decide +kernel
  have htask : (smallBoot.run [.spaceClone]).tasks[0]? =
      some ⟨ofFrame 2, MMAP_CURSOR_START⟩ := by decide +kernel
  have hsame := (failed_mmap_unchanged_iff booted_smallBoot (by decide +kernel) [.spaceClone] htask
    0 0x14000 MAP_ANONYMOUS hfail).mpr fun _ i hi hmapped ↦ absurd (hnone i hi) hmapped
  exact ⟨hfail, hsame.1⟩

/-- With one free frame, a call for a page that is mapped and the one behind it fails, and the first
of them is no longer mapped. -/
theorem failed_mmap_unmaps_page :
    let σ := smallBoot.run [.spaceClone, .mmap 0 0x40000000 0x1000 MAP_ANONYMOUS,
      .mmap 0 0x40100000 0x8000 MAP_ANONYMOUS]
    let result := σ.mm.sysMmap (ofFrame 2) 0x40108000 0x40000000 0x2000 MAP_ANONYMOUS
    Booted smallBoot ∧ ¬smallBoot.mm.pmm.IsFree 0 ∧ σ.tasks = [⟨ofFrame 2, 0x40108000⟩] ∧
      result.1 = -Errno.ENOMEM ∧ frameAt σ.mm.mem 2 0x40000 = some 3 ∧
      frameAt result.2.2.mem 2 0x40000 = none := by
  refine ⟨booted_smallBoot, ?_⟩
  decide +kernel

end UserSystem

end ToastyUnix.Mm
