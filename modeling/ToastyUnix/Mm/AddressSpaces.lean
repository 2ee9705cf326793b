import ToastyUnix.Mm.PageMap

/-!
# The address spaces of a run

The boot loader's space and the spaces cloned from it, under any sequence of the operations of the
virtual memory manager. Between the operations the frame allocator may change in any way that does
not hand out a frame that serves as a table. Every cloned space has the tables of its lower half to
itself, so that each operation acts on the translations as an update of a map.
-/

namespace ToastyUnix.Mm

open Paging List Option Memory

/-- Memory and the spaces that were cloned. -/
structure Spaces where
  mm : State
  clones : List (BitVec 64)

namespace Spaces

/-- All spaces: the boot loader's and the clones. -/
def all (σ : Spaces) : List (BitVec 64) := σ.mm.rootCr3 :: σ.clones

/-- The frames of the top tables. -/
def tops (σ : Spaces) : List ℕ := σ.all.map frameOf

/-- The pages whose translations are watched: all pages of all spaces. -/
def Watched (σ : Spaces) (r w : ℕ) : Prop := r ∈ σ.tops ∧ w < 2 ^ 36

/-- The pages that may be mapped: those of the lower halves of the clones. -/
def Edited (σ : Spaces) (r v : ℕ) : Prop := r ∈ σ.clones.map frameOf ∧ v < 2 ^ 35

/-- Frame `f` is a table on the way to some page. -/
def IsTable (σ : Spaces) (f : ℕ) : Prop :=
  ∃ r w m, σ.Watched r w ∧ m ≤ 3 ∧ tableOn σ.mm.mem r w m = some f

/-- The operations: `translate` in any space, the others in clones. -/
inductive Step (σ : Spaces) : Spaces → Prop
  | clone : σ.mm.vmmSpaceClone.1 ≠ 0 →
      Step σ ⟨σ.mm.vmmSpaceClone.2, σ.clones ++ [σ.mm.vmmSpaceClone.1]⟩
  | cloneFails : σ.mm.vmmSpaceClone.1 = 0 → Step σ ⟨σ.mm.vmmSpaceClone.2, σ.clones⟩
  | map {cr3 : BitVec 64} {virt : ℕ} (phys flags : BitVec 64) : cr3 ∈ σ.clones → virt < 2 ^ 47 →
      Step σ ⟨(σ.mm.vmmMapPageIn cr3 virt phys flags).2, σ.clones⟩
  | unmap {cr3 : BitVec 64} (virt : ℕ) : cr3 ∈ σ.clones →
      Step σ ⟨σ.mm.vmmUnmapPageIn cr3 virt, σ.clones⟩
  | translate {cr3 : BitVec 64} (virt : ℕ) : cr3 ∈ σ.all →
      Step σ ⟨(σ.mm.vmmTranslateIn cr3 virt).2, σ.clones⟩
  | allocator (pmm : Pmm) : pmm.totalFrames ≤ MAX_FRAMES → (∀ f, pmm.IsFree f → ¬σ.IsTable f) →
      Step σ ⟨{ σ.mm with pmm := pmm }, σ.clones⟩

/-- The states of a run. -/
inductive Reach (σ₀ : Spaces) : Spaces → Prop
  | refl : Reach σ₀ σ₀
  | step {σ σ' : Spaces} : Reach σ₀ σ → Step σ σ' → Reach σ₀ σ'

/-- A boot loader's space without large pages, whose tables the allocator will not hand out. -/
structure Initial (σ : Spaces) : Prop where
  clones : σ.clones = []
  noLarge : ∀ v < 2 ^ 36, NoLarge σ.mm.mem (frameOf σ.mm.rootCr3) v
  fresh : ∀ f, σ.mm.pmm.IsFree f → ¬σ.IsTable f
  total : σ.mm.pmm.totalFrames ≤ MAX_FRAMES

/-- What holds in every state of a run. -/
structure Inv (σ : Spaces) : Prop where
  separated : Separated σ.mm σ.Edited σ.Watched
  noLarge : ∀ {r w}, σ.Watched r w → NoLarge σ.mm.mem r w
  distinct : σ.tops.Nodup

theorem Initial.inv {σ : Spaces} (h : Initial σ) : Inv σ where
  separated :=
    { sub := fun r v hv ↦ by simp [Edited, h.clones] at hv
      apart := fun r v n t hv ↦ by simp [Edited, h.clones] at hv
      fresh := fun hf hw hm ht ↦ h.fresh _ hf ⟨_, _, _, hw, hm, ht⟩
      total := h.total }
  noLarge {r w} hw := by
    obtain ⟨hr, hlt⟩ := hw
    obtain rfl : r = frameOf σ.mm.rootCr3 := by simpa [tops, all, h.clones] using hr
    exact h.noLarge w hlt
  distinct := by simp [tops, all, h.clones]

theorem pageOf_lt (virt : ℕ) : pageOf virt < 2 ^ 36 := Nat.mod_lt _ (by decide)

section Steps

variable {σ : Spaces}

variable {cr3 : BitVec 64} {mm s : State}

theorem watched_of_mem (hcr3 : cr3 ∈ σ.all) (virt : ℕ) : σ.Watched (frameOf cr3) (pageOf virt) :=
  ⟨mem_map_of_mem hcr3, pageOf_lt virt⟩

theorem edited_of_mem (hcr3 : cr3 ∈ σ.clones) {virt : ℕ} (hvirt : virt < 2 ^ 47) :
    σ.Edited (frameOf cr3) (pageOf virt) := by
  refine ⟨mem_map_of_mem hcr3, ?_⟩
  rw [pageOf]
  omega

/-- The pages of a state with the same spaces. -/
theorem Inv.of_separated (h : Inv σ) (hroot : mm.rootCr3 = σ.mm.rootCr3)
    (hsep : Separated mm σ.Edited σ.Watched) (hno : ∀ {r w}, σ.Watched r w → NoLarge mm.mem r w) :
    Inv ⟨mm, σ.clones⟩ := by
  have htops : (⟨mm, σ.clones⟩ : Spaces).tops = σ.tops := by simp only [tops, all, hroot]
  have hwatched : (⟨mm, σ.clones⟩ : Spaces).Watched = σ.Watched := by
    funext r w
    simp only [Watched, htops]
  refine ⟨?_, ?_, ?_⟩
  · rw [hwatched]
    exact hsep
  · rw [hwatched]
    exact hno
  · rw [htops]
    exact h.distinct

theorem vmmSpaceClone_of_eq_zero (hzero : s.allocFrame.1 = 0) :
    s.vmmSpaceClone = (0, s.allocFrame.2) := by
  simp only [State.vmmSpaceClone, hzero, if_true]

theorem vmmSpaceClone_fails (hzero : s.vmmSpaceClone.1 = 0) :
    s.vmmSpaceClone.2 = s.allocFrame.2 := by
  by_cases hphys : s.allocFrame.1 = 0
  · rw [vmmSpaceClone_of_eq_zero hphys]
  · simp only [State.vmmSpaceClone, if_neg hphys] at hzero
    exact absurd hzero hphys

/-- The top table of a new space: the boot loader's upper half and an empty lower half. -/
def cloneTop (s : State) (i : ℕ) : BitVec 64 :=
  if 256 ≤ i ∧ i < 512 then s.mem (frameOf s.rootCr3) i else 0

theorem vmmSpaceClone_eq {g : ℕ} (haddr : s.allocFrame.1 = ofFrame g) (hg : g ≠ 0)
    (hlt : g < 2 ^ 40) (hroot : frameOf s.rootCr3 ≠ g) :
    s.vmmSpaceClone =
      (ofFrame g, { s.allocFrame.2 with mem := s.mem.fill g (cloneTop s) }) := by
  have hne : ofFrame g ≠ 0 := fun hzero ↦ hg ((ofFrame_eq_zero hlt).mp hzero)
  simp only [State.vmmSpaceClone, haddr, if_neg hne, State.clearFrame, frameOf_ofFrame hlt]
  congr 2
  funext t i
  by_cases ht : t = g
  · subst ht
    simp only [fill_self, cloneTop]
    rw [show s.allocFrame.2.rootCr3 = s.rootCr3 from rfl, fill_of_ne _ _ hroot]
    rfl
  · rw [fill_of_ne _ _ ht, fill_of_ne _ _ ht, fill_of_ne _ _ ht]
    rfl

theorem digit_zero_lt (w : ℕ) (hw : w < 2 ^ 36) : digit w 0 < 512 ∧ (256 ≤ digit w 0 ↔ 2 ^ 35 ≤ w) := by
  rw [digit]
  omega

/-- Pages of different halves have different digits in the top table. -/
theorem not_samePrefix {n v w : ℕ} (hn : 1 ≤ n) (hn3 : n ≤ 3) (hv : v < 2 ^ 35) (hw : 2 ^ 35 ≤ w) :
    ¬SamePrefix n v w := by
  rw [SamePrefix]
  obtain rfl | rfl | rfl : n = 1 ∨ n = 2 ∨ n = 3 := by omega
  · omega
  · omega
  · omega

section Clone

variable {g : ℕ}

section

variable (h : Inv σ) (hfree : σ.mm.pmm.IsFree g)
include h hfree

theorem Inv.tableOn_clone {w m : ℕ} (hw : w < 2 ^ 36) (hm : m ≤ 3) :
    tableOn (σ.mm.mem.fill g (cloneTop σ.mm)) g w m =
      if m = 0 then some g
      else if w < 2 ^ 35 then none
      else tableOn σ.mm.mem (frameOf σ.mm.rootCr3) w m := by
  have hroot : σ.Watched (frameOf σ.mm.rootCr3) w := ⟨by simp [tops, all], hw⟩
  obtain ⟨hlt, hupper⟩ := digit_zero_lt w hw
  cases m with
  | zero => rfl
  | succ m =>
    rw [if_neg (by omega)]
    split
    case isTrue hlow =>
      apply tableOn_absent
      rw [fill_self, cloneTop, if_neg (by omega)]
      exact present_zero
    case isFalse hhigh =>
      apply tableOn_copied _ (fun m hm ↦ h.separated.fresh hfree hroot hm) (by omega)
      rw [cloneTop, if_pos (by omega)]

/-- The walks of the old spaces do not notice the new one. -/
theorem Inv.sameWalk_clone {r w : ℕ}
    (hw : σ.Watched r w) : SameWalk σ.mm.mem (σ.mm.mem.fill g (cloneTop σ.mm)) r w :=
  sameWalk_fill fun _ hm ↦ h.separated.fresh hfree hw hm

theorem Inv.apart_clone :
    Apart (σ.mm.mem.fill g (cloneTop σ.mm))
      (fun r v ↦ σ.Edited r v ∨ (r = g ∧ v < 2 ^ 35))
      (fun r w ↦ σ.Watched r w ∨ (r = g ∧ w < 2 ^ 36)) := by
  have hroot : ∀ {w}, w < 2 ^ 36 → σ.Watched (frameOf σ.mm.rootCr3) w :=
    fun hw ↦ ⟨by simp [tops, all], hw⟩
  intro r v n t hv hn ht r' w m hw hm hu
  rcases hv with hv | ⟨rfl, hv⟩
  · have hvw := h.separated.sub _ _ hv
    rw [(h.sameWalk_clone hfree hvw).tableOn (by omega)] at ht
    rcases hw with hw | ⟨rfl, hw⟩
    · rw [(h.sameWalk_clone hfree hw).tableOn (by omega)] at hu
      exact h.separated.apart hv hn ht hw hm hu
    · -- the new space has tables of the boot loader's upper half only
      rw [h.tableOn_clone hfree hw hm] at hu
      split at hu
      case isTrue =>
        obtain rfl := some.inj hu
        exact absurd ht (h.separated.fresh hfree hvw hn)
      case isFalse hpos =>
        split at hu
        case isTrue => simp at hu
        case isFalse hhigh =>
          obtain ⟨rfl, _, hdigits⟩ := h.separated.apart hv hn ht (hroot hw) hm hu
          exact absurd hdigits (not_samePrefix (by omega) hm hv.2 (by omega))
  · rw [h.tableOn_clone hfree (by omega) hn] at ht
    split at ht
    case isTrue hzero =>
      subst hzero
      obtain rfl := some.inj ht
      rcases hw with hw | ⟨rfl, hw⟩
      · rw [(h.sameWalk_clone hfree hw).tableOn (by omega)] at hu
        exact absurd hu (h.separated.fresh hfree hw hm)
      · rw [h.tableOn_clone hfree hw hm] at hu
        split at hu
        case isTrue hzero => exact ⟨hzero, rfl, samePrefix_zero (by omega) hw⟩
        case isFalse =>
          split at hu
          case isTrue => simp at hu
          case isFalse => exact absurd hu (h.separated.fresh hfree (hroot hw) hm)
    case isFalse => simp at ht

theorem Inv.noLarge_clone {w : ℕ} (hw : w < 2 ^ 36) :
    NoLarge (σ.mm.mem.fill g (cloneTop σ.mm)) g w := by
  have hroot : σ.Watched (frameOf σ.mm.rootCr3) w := ⟨by simp [tops, all], hw⟩
  obtain ⟨hlt, hupper⟩ := digit_zero_lt w hw
  by_cases hlow : w < 2 ^ 35
  · intro n hn t ht
    rw [h.tableOn_clone hfree hw (by omega), if_pos hlow] at ht
    split at ht
    case isTrue hzero =>
      obtain rfl := some.inj ht
      rw [hzero, fill_self, cloneTop, if_neg (by omega)]
      exact large_zero
    case isFalse => simp at ht
  · apply noLarge_copied _ (fun m hm ↦ h.separated.fresh hfree hroot hm) (h.noLarge hroot)
    rw [cloneTop, if_pos (by omega)]

end

theorem Inv.clone (h : Inv σ) (hne : σ.mm.vmmSpaceClone.1 ≠ 0) :
    Inv ⟨σ.mm.vmmSpaceClone.2, σ.clones ++ [σ.mm.vmmSpaceClone.1]⟩ := by
  have halloc : σ.mm.allocFrame.1 ≠ 0 := by
    intro hzero
    rw [vmmSpaceClone_of_eq_zero hzero] at hne
    exact hne rfl
  obtain ⟨g, hzero, hlt, haddr, hfree, hused⟩ :=
    Pmm.pmmAllocFrame_eq_frame h.separated.total halloc
  have hnew : g ∉ σ.tops := fun hin ↦
    h.separated.fresh (m := 0) hfree ⟨hin, show 0 < 2 ^ 36 by decide⟩ (by decide) rfl
  have hroot : frameOf σ.mm.rootCr3 ≠ g := fun hsame ↦ hnew (by simp [tops, all, hsame])
  rw [vmmSpaceClone_eq haddr hzero hlt hroot]
  generalize hσ' : (⟨{ σ.mm.allocFrame.2 with mem := σ.mm.mem.fill g (cloneTop σ.mm) },
    σ.clones ++ [ofFrame g]⟩ : Spaces) = σ'
  have htops : σ'.tops = σ.tops ++ [g] := by
    simp [← hσ', tops, all, frameOf_ofFrame hlt, show σ.mm.allocFrame.2.rootCr3 = σ.mm.rootCr3
      from rfl]
  have hwatched : ∀ r w, σ'.Watched r w ↔ σ.Watched r w ∨ (r = g ∧ w < 2 ^ 36) := by
    intro r w
    simp only [Watched, htops, mem_append, mem_singleton, or_and_right]
  have hedited : ∀ r v, σ'.Edited r v ↔ σ.Edited r v ∨ (r = g ∧ v < 2 ^ 35) := by
    intro r v
    simp only [Edited, ← hσ', map_append, map_cons, map_nil, mem_append,
      mem_singleton, frameOf_ofFrame hlt, or_and_right]
  have hmem : σ'.mm.mem = σ.mm.mem.fill g (cloneTop σ.mm) := by rw [← hσ']
  refine ⟨⟨?_, ?_, ?_, ?_⟩, ?_, ?_⟩
  · intro r v hv
    exact (hwatched r v).mpr (((hedited r v).mp hv).imp (h.separated.sub r v)
      fun hg ↦ ⟨hg.1, by omega⟩)
  · intro r v n t hv hn ht r' w m hw hm hu
    rw [hmem] at ht hu
    exact h.apart_clone hfree ((hedited r v).mp hv) hn ht ((hwatched r' w).mp hw) hm hu
  · intro f r w m hf hw hm
    replace hf : σ.mm.pmm.pmmAllocFrame.2.IsFree f := by rwa [← hσ'] at hf
    have hfree' := Pmm.isFree_of_pmmAllocFrame hf
    rw [hmem]
    rcases (hwatched r w).mp hw with hw | ⟨rfl, hw⟩
    · rw [(h.sameWalk_clone hfree hw).tableOn (by omega)]
      exact h.separated.fresh hfree' hw hm
    · rw [h.tableOn_clone hfree hw hm]
      split
      · rintro hsame
        exact hused (some.inj hsame ▸ hf)
      · split
        · simp
        · exact h.separated.fresh hfree' ⟨by simp [tops, all], hw⟩ hm
  · simpa [← hσ', State.allocFrame] using h.separated.total
  · intro r w hw
    rw [hmem]
    rcases (hwatched r w).mp hw with hw | ⟨rfl, hw⟩
    · exact (h.sameWalk_clone hfree hw).noLarge (h.noLarge hw)
    · exact h.noLarge_clone hfree hw
  · rw [htops]
    exact nodup_append.mpr ⟨h.distinct, nodup_singleton g, by
      rintro a ha b hb rfl
      exact hnew (mem_singleton.mp hb ▸ ha)⟩

end Clone

theorem Inv.sameLinks (h : Inv σ) (hlinks : σ.mm.SameLinks mm) : Inv ⟨mm, σ.clones⟩ := by
  obtain ⟨hsep, hsame⟩ := h.separated.sameLinks hlinks
  exact h.of_separated hlinks.rootCr3 hsep fun hw ↦ hsame.noLarge hw (h.noLarge hw)

/-- Clearing an entry keeps the spaces apart, also an entry that they share. -/
theorem Inv.cleared (h : Inv σ) (t i : ℕ) :
    Inv ⟨{ σ.mm with mem := σ.mm.mem.write t i 0 }, σ.clones⟩ := by
  refine h.of_separated rfl ⟨h.separated.sub, ?_, ?_, h.separated.total⟩ ?_
  · intro r v n u hv hn hu r' w m hw hm hu'
    exact h.separated.apart hv hn (tableOn_of_cleared hu) hw hm (tableOn_of_cleared hu')
  · intro f r w m hf hw hm hu
    exact h.separated.fresh hf hw hm (tableOn_of_cleared hu)
  · exact fun hw ↦ noLarge_cleared (h.noLarge hw)

theorem Inv.unmap (h : Inv σ) (hcr3 : cr3 ∈ σ.all) (virt : ℕ) :
    Inv ⟨σ.mm.vmmUnmapPageIn cr3 virt, σ.clones⟩ := by
  obtain ⟨_, hlinks⟩ := σ.mm.walkPt_lookup false (h.noLarge (watched_of_mem hcr3 virt))
  have hwalked := h.sameLinks hlinks.toSameLinks
  unfold State.vmmUnmapPageIn
  split
  case h_1 s' heq =>
    rw [heq] at hwalked
    exact hwalked
  case h_2 t i s' heq =>
    rw [heq] at hwalked
    exact hwalked.cleared t i

theorem Inv.step {σ' : Spaces} (h : Inv σ) (hstep : Step σ σ') : Inv σ' := by
  cases hstep with
  | clone hne => exact h.clone hne
  | cloneFails hzero =>
    obtain ⟨hsep, _⟩ := h.separated.allocFrame
    rw [vmmSpaceClone_fails hzero]
    exact h.of_separated rfl hsep h.noLarge
  | @map cr3 virt phys flags hcr3 hvirt =>
    have hw := watched_of_mem (mem_cons_of_mem _ hcr3) virt
    obtain ⟨hsep, hothers, hlarge, _⟩ := h.separated.vmmMapPageIn phys flags
      (edited_of_mem hcr3 hvirt) (h.noLarge hw)
    exact h.of_separated hothers.rootCr3 hsep fun hw ↦ hlarge hw (h.noLarge hw)
  | unmap virt hcr3 => exact h.unmap (mem_cons_of_mem _ hcr3) virt
  | translate virt hcr3 =>
    exact h.sameLinks (State.vmmTranslateIn_eq (h.noLarge (watched_of_mem hcr3 virt))).2.toSameLinks
  | allocator pmm htotal hfresh =>
    refine h.of_separated rfl ⟨h.separated.sub, h.separated.apart, ?_, htotal⟩ h.noLarge
    exact fun hf hw hm hu ↦ hfresh _ hf ⟨_, _, _, hw, hm, hu⟩

end Steps

theorem Reach.inv {σ₀ σ : Spaces} (h : Reach σ₀ σ) (hinit : Initial σ₀) : Inv σ := by
  induction h with
  | refl => exact hinit.inv
  | step _ hstep ih => exact ih.step hstep

/-- The physical address of a byte of a page that is mapped to `phys`. -/
theorem physical_address {phys flags : BitVec 64} (hphys : phys.toNat < 2 ^ 52)
    (halign : phys &&& 0xFFF = 0) (hflags : flags &&& PTE_ADDR_MASK = 0) {off : ℕ}
    (hoff : off < 4096) :
    ofFrame (target ((phys &&& PTE_ADDR_MASK) ||| flags)) ||| BitVec.ofNat 64 off =
      phys + BitVec.ofNat 64 off := by
  have hlow : ∀ i < 12, phys.getLsbD i = false := by
    intro i hi
    have hbits : ∀ i : Fin 64, i.val < 12 → (0xFFF#64).getLsbD i = true := by decide
    have hbit := congrArg (·.getLsbD i) halign
    simpa [hbits ⟨i, by omega⟩ hi] using hbit
  have hmask : phys &&& addressMask = phys := by
    have hbits : ∀ i : Fin 64, addressMask.getLsbD i = decide (12 ≤ i.val ∧ i.val < 52) := by
      decide
    apply BitVec.eq_of_getLsbD_eq
    intro i hi
    rw [BitVec.getLsbD_and, hbits ⟨i, hi⟩]
    by_cases hsmall : i < 12
    · simp [hlow i hsmall]
    · by_cases hlarge : i < 52
      · simp [hlarge, Nat.le_of_not_lt hsmall]
      · have hzero : phys.getLsbD i = false := by
          apply Nat.testBit_lt_two_pow
          exact hphys.trans_le (Nat.pow_le_pow_right (by decide) (by omega))
        simp [hzero]
  have hdisjoint : phys &&& BitVec.ofNat 64 off = 0 := by
    apply BitVec.eq_of_getLsbD_eq
    intro i hi
    by_cases hsmall : i < 12
    · simp [hlow i hsmall]
    · have hzero : off.testBit i = false := by
        apply Nat.testBit_lt_two_pow
        exact hoff.trans_le (Nat.pow_le_pow_right (n := 2) (i := 12) (by decide) (by omega))
      simp [BitVec.getLsbD_ofNat, hzero]
  rw [target_or hflags, target_and (by decide), ofFrame_target, hmask,
    BitVec.add_eq_or_of_and_eq_zero _ _ hdisjoint]

variable {σ : Spaces}

variable {cr3 cr3' : BitVec 64}

section

variable (h : Inv σ) (hcr3 : cr3 ∈ σ.all)
include h hcr3

/-- What `vmm_translate_in` returns in any state of a run. -/
theorem Inv.translate_eq (virt : ℕ) :
    (σ.mm.vmmTranslateIn cr3 virt).1 = translation σ.mm.mem (frameOf cr3) virt :=
  (State.vmmTranslateIn_eq (h.noLarge (watched_of_mem hcr3 virt))).1

theorem Inv.frame_ne (hcr3' : cr3' ∈ σ.all) (hne : cr3' ≠ cr3) :
    frameOf cr3' ≠ frameOf cr3 :=
  fun hsame ↦ hne (inj_on_of_nodup_map h.distinct hcr3' hcr3 hsame)

/-- What `map` and `unmap` leave as it is: the translations of all pages but one. -/
theorem Inv.translate_other {mm : State} {virt : ℕ}
    (hinv : Inv ⟨mm, σ.clones⟩) (hroot : mm.rootCr3 = σ.mm.rootCr3)
    (hsame : SameMaps (fun r' w ↦ σ.Watched r' w ∧ ¬(r' = frameOf cr3 ∧ w = pageOf virt)) σ.mm mm)
    (hcr3' : cr3' ∈ σ.all) {w : ℕ} (hne : ¬(cr3' = cr3 ∧ pageOf w = pageOf virt)) :
    (mm.vmmTranslateIn cr3' w).1 = (σ.mm.vmmTranslateIn cr3' w).1 := by
  have hall : cr3' ∈ (⟨mm, σ.clones⟩ : Spaces).all := by rwa [all, hroot]
  rw [hinv.translate_eq hall, h.translate_eq hcr3']
  refine hsame.translation ⟨watched_of_mem hcr3' w, fun hboth ↦ hne ?_⟩
  refine ⟨?_, hboth.2⟩
  by_contra hother
  exact h.frame_ne hcr3 hcr3' hother hboth.1

end

/-- **Page-table operations act like map updates**, in every state of a run: a successful `map`
changes the translation of its page only, to the frame that it was given, `unmap` removes its page
and nothing else, and calls that fail and lookups change no translation. -/
theorem operations_update_translation {σ₀ : Spaces} (hinit : Initial σ₀) (hreach : Reach σ₀ σ)
    {cr3 : BitVec 64} (hcr3 : cr3 ∈ σ.clones) {virt : ℕ} (hvirt : virt < 2 ^ 47)
    (halign : virt % 4096 = 0) :
    (∀ phys flags, phys.toNat < 2 ^ 52 → flags &&& PTE_ADDR_MASK = 0 →
      (σ.mm.vmmMapPageIn cr3 virt phys flags).1 = 0 → (∀ off < 4096,
        ((σ.mm.vmmMapPageIn cr3 virt phys flags).2.vmmTranslateIn cr3 (virt + off)).1 =
          phys + BitVec.ofNat 64 off) ∧
      ∀ cr3' ∈ σ.all, ∀ w, ¬(cr3' = cr3 ∧ pageOf w = pageOf virt) →
        ((σ.mm.vmmMapPageIn cr3 virt phys flags).2.vmmTranslateIn cr3' w).1 =
          (σ.mm.vmmTranslateIn cr3' w).1) ∧
    (∀ phys flags, (σ.mm.vmmMapPageIn cr3 virt phys flags).1 ≠ 0 → ∀ cr3' ∈ σ.all, ∀ w,
      ((σ.mm.vmmMapPageIn cr3 virt phys flags).2.vmmTranslateIn cr3' w).1 =
        (σ.mm.vmmTranslateIn cr3' w).1) ∧
    ((∀ off < 4096, ((σ.mm.vmmUnmapPageIn cr3 virt).vmmTranslateIn cr3 (virt + off)).1 = 0) ∧
      ∀ cr3' ∈ σ.all, ∀ w, ¬(cr3' = cr3 ∧ pageOf w = pageOf virt) →
        ((σ.mm.vmmUnmapPageIn cr3 virt).vmmTranslateIn cr3' w).1 = (σ.mm.vmmTranslateIn cr3' w).1) ∧
    ∀ cr3'' ∈ σ.all, ∀ x, ∀ cr3' ∈ σ.all, ∀ w,
      ((σ.mm.vmmTranslateIn cr3'' x).2.vmmTranslateIn cr3' w).1 =
        (σ.mm.vmmTranslateIn cr3' w).1 := by
  have h := hreach.inv hinit
  have hall : cr3 ∈ σ.all := mem_cons_of_mem _ hcr3
  have hw := watched_of_mem hall virt
  have hedited := edited_of_mem hcr3 hvirt
  have hpage : ∀ {off}, off < 4096 → pageOf (virt + off) = pageOf virt := by
    intro off hoff
    rw [pageOf, pageOf]
    omega
  refine ⟨fun phys flags hphys hflags hzero ↦ ?_, fun phys flags hne cr3' hcr3' w ↦ ?_, ?_,
    fun cr3'' hcr3'' x cr3' hcr3' w ↦ ?_⟩
  · have hinv := h.step (.map phys flags hcr3 hvirt)
    obtain ⟨_, hothers, _, _, hdone⟩ := h.separated.vmmMapPageIn phys flags hedited (h.noLarge hw)
    obtain ⟨hlow, htranslate⟩ := hdone hzero
    have hroot := hothers.rootCr3
    refine ⟨fun off hoff ↦ ?_, fun cr3' hcr3' w hne ↦
      h.translate_other hall hinv hroot hothers hcr3' hne⟩
    rw [hinv.translate_eq (by rwa [all, hroot]), htranslate _ (hpage hoff)]
    rw [show (virt + off) % 4096 = off by omega]
    exact physical_address hphys hlow hflags hoff
  · have hinv := h.step (.map phys flags hcr3 hvirt)
    obtain ⟨_, _, _, hfailed, _⟩ := h.separated.vmmMapPageIn phys flags hedited (h.noLarge hw)
    have hsame := hfailed hne
    rw [hinv.translate_eq (by rwa [all, hsame.rootCr3]), h.translate_eq hcr3']
    exact hsame.translation (watched_of_mem hcr3' w)
  · have hinv := h.step (.unmap virt hcr3)
    obtain ⟨_, hothers, _, htranslate⟩ := h.separated.vmmUnmapPageIn hedited (h.noLarge hw)
    have hroot := hothers.rootCr3
    refine ⟨fun off hoff ↦ ?_, fun cr3' hcr3' w hne ↦
      h.translate_other hall hinv hroot hothers hcr3' hne⟩
    rw [hinv.translate_eq (by rwa [all, hroot])]
    exact htranslate _ (hpage hoff)
  · have hinv := h.step (.translate x hcr3'')
    obtain ⟨_, hlinks⟩ := State.vmmTranslateIn_eq (h.noLarge (watched_of_mem hcr3'' x))
    obtain ⟨_, hsame⟩ := h.separated.sameLinks hlinks.toSameLinks
    rw [hinv.translate_eq (by rwa [all, hlinks.rootCr3]), h.translate_eq hcr3']
    exact hsame.translation (watched_of_mem hcr3' w)

/-- A machine with 16 usable frames and no cloned space. -/
def emptyRoot : Spaces := ⟨.bare 0x10000, []⟩

theorem initial_emptyRoot : Initial emptyRoot where
  clones := rfl
  noLarge _ _ _ _ _ _ := large_zero
  fresh := by
    rintro f hfree ⟨r, w, m, ⟨hr, _⟩, _, ht⟩
    obtain rfl : r = 1 := by simpa [tops, all, emptyRoot, State.bare] using hr
    cases m with
    | zero =>
      obtain rfl : 1 = f := some.inj ht
      exact absurd hfree (by decide)
    | succ m =>
      rw [tableOn_absent present_zero] at ht
      simp at ht
  total := by decide

/-- The first space that is cloned. -/
def firstClone : Spaces := ⟨emptyRoot.mm.vmmSpaceClone.2, [ofFrame 2]⟩

theorem reach_firstClone : Reach emptyRoot firstClone := .step .refl (.clone (by decide))

theorem operations_update_translation_firstClone :
    ((firstClone.mm.vmmMapPageIn (ofFrame 2) 0x400000 0x9000 USER_PAGE).2.vmmTranslateIn (ofFrame 2)
      0x400005).1 = 0x9005 := by
  have hclone : ofFrame 2 ∈ firstClone.clones := by decide
  have hvirt : 0x400000 < 2 ^ 47 := by decide
  have hmaps := operations_update_translation initial_emptyRoot reach_firstClone hclone hvirt
    (by decide)
  exact (hmaps.1 0x9000 USER_PAGE (by decide) (by decide) (by decide)).1 5 (by decide)

/-- An address beyond the 52 bits of an entry is mapped as if its upper bits were not there. -/
theorem map_drops_upper_bits :
    (firstClone.mm.vmmMapPageIn (ofFrame 2) 0x400000 0x10000000000000 USER_PAGE).1 = 0 ∧
      ((firstClone.mm.vmmMapPageIn (ofFrame 2) 0x400000 0x10000000000000
        USER_PAGE).2.vmmTranslateIn (ofFrame 2) 0x400000).1 = 0 := by
  decide +kernel

end Spaces

end ToastyUnix.Mm
