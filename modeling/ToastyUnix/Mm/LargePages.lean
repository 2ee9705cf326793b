import ToastyUnix.Mm.PageMap

/-!
# Lookups and the hardware

What the operations on one address do to the translations of the hardware in the same space. The
split of a large page leaves bit 7 in the entry that now refers to the new table, so the hardware
takes the table for a large page. Where nothing is split the operations change the entry of their
own page, which shows on the other pages whose walks read it, and tables that were missing.
-/

namespace ToastyUnix.Mm

open Paging

/-- The physical address that the hardware finds for `addr`. -/
def hardware (mem : Memory) (r addr : ℕ) : Option (BitVec 64) :=
  (frameAt mem r (pageOf addr)).map fun f ↦ ofFrame f ||| BitVec.ofNat 64 (addr % 4096)

/-- The walk of the hardware to page `w` reads entry `i` of table `t`. -/
def Reads (mem : Memory) (r w t i : ℕ) : Prop :=
  ∃ n ≤ 3, tableOn mem r w n = some t ∧ digit w n = i

instance (mem : Memory) (r w t i : ℕ) : Decidable (Reads mem r w t i) :=
  inferInstanceAs (Decidable (∃ n ≤ 3, _ ∧ _))

section Reads

variable {mem mem' : Memory} {r v w t i : ℕ} {e : BitVec 64}

theorem frameAt_eq_frameBelow {n : ℕ} (hn : n ≤ 3) (ht : tableOn mem r w n = some t) :
    frameAt mem r w = frameBelow mem (4 - n) t w := by
  induction n generalizing t with
  | zero =>
    obtain rfl := Option.some.inj ht
    rfl
  | succ n ih =>
    obtain ⟨u, hu, hpresent, hlarge, rfl⟩ := tableOn_eq_some ht
    rw [ih (by omega) hu, show 4 - n = 2 - n + 2 by omega, frameBelow_next (by omega) hlarge,
      if_pos hpresent, show 4 - (n + 1) = 2 - n + 1 by omega]

/-- A write that the walk does not read does not show. -/
theorem sameWalk_write (h : ¬Reads mem r w t i) : SameWalk mem (mem.write t i e) r w := by
  intro n hn u hu
  have hother : ¬(u = t ∧ digit w n = i) := by
    rintro ⟨rfl, hdigit⟩
    exact h ⟨n, hn, hu, hdigit⟩
  rw [mem.write_of_ne e hother]
  exact ⟨rfl, rfl, rfl⟩

theorem reads_congr (h : SameWalk mem mem' r w) : Reads mem' r w t i ↔ Reads mem r w t i := by
  refine exists_congr fun n ↦ and_congr_right fun hn ↦ ?_
  rw [h.tableOn (by omega)]

/-- A walk that reads a written entry continues below the new one. -/
theorem Reads.frameAt_write (h : Reads mem r w t i) :
    ∃ n ≤ 3, tableOn mem r w n = some t ∧ digit w n = i ∧
      ∀ e, frameAt (mem.write t i e) r w = frameBelow (mem.write t i e) (4 - n) t w := by
  classical
  obtain ⟨hn, ht, hi⟩ := Nat.find_spec h
  refine ⟨Nat.find h, hn, ht, hi, fun e ↦ frameAt_eq_frameBelow hn (Eq.trans ?_ ht)⟩
  -- the first entry that the walk reads there: the tables above it are found as before
  have hfirst : ∀ m ≤ Nat.find h, tableOn (mem.write t i e) r w m = tableOn mem r w m := by
    intro m
    induction m with
    | zero => exact fun _ ↦ rfl
    | succ m ih =>
      intro hm
      replace ih := ih (by omega)
      cases hu : tableOn mem r w m with
      | none => rw [tableOn_none (ih.trans hu) (by omega), tableOn_none hu (by omega)]
      | some u =>
        have hother : ¬(u = t ∧ digit w m = i) := by
          rintro ⟨rfl, hdigit⟩
          exact Nat.find_min h (by omega) ⟨by omega, hu, hdigit⟩
        rw [tableOn_succ (ih.trans hu), tableOn_succ hu, mem.write_of_ne e hother]
  exact hfirst _ le_rfl

/-- Below the top table a walk ends at a large page of a whole gigabyte. -/
theorem Reads.frameAt_large (h : Reads mem r w t i) (htop : t ≠ r) :
    ∃ x < 2 ^ 18, ∀ e, present e → large e → 2 ^ 18 ∣ target e →
      frameAt (mem.write t i e) r w = some (target e + x) := by
  obtain ⟨n, hn, ht, rfl, heq⟩ := h.frameAt_write
  have hpos : n ≠ 0 := by
    rintro rfl
    exact htop (Option.some.inj ht).symm
  have hgiga : 512 ^ (3 - n) ∣ 2 ^ 18 := pow_dvd_pow 512 (show 3 - n ≤ 2 by omega)
  have hlt : w % 512 ^ (3 - n) < 512 ^ (3 - n) := Nat.mod_lt _ (by positivity)
  refine ⟨w % 512 ^ (3 - n), hlt.trans_le (Nat.le_of_dvd (by decide) hgiga),
    fun e hpresent hlarge htarget ↦ ?_⟩
  rw [heq, show 4 - n = 3 - n + 1 by omega, frameBelow_succ, ← digit, Memory.write_self]
  by_cases hlast : 3 - n = 0
  · simp [hpresent, hlast, Nat.mod_one]
  · simp [hpresent, hlarge, hlast, show 3 - n < 3 by omega,
      Nat.div_mul_cancel (hgiga.trans htarget)]

end Reads

/-- The software finds an entry for page `v`, and the walk of the hardware to page `w` reads it. -/
def Shares (mem : Memory) (r v w : ℕ) : Prop :=
  ¬StopsAtZero mem r v ∧ ∃ t ∈ tableOn mem r v 3, Reads mem r w t (digit v 3)

instance (mem : Memory) (r v w : ℕ) : Decidable (Shares mem r v w) :=
  inferInstanceAs (Decidable (_ ∧ _))

section

variable {s s' : State} {r t i addr : ℕ}

end

variable {s : State} {cr3 : BitVec 64} {virt addr : ℕ}

/-- Below the top table some call of `vmm_map_page_in` shows on the pages that read the entry. -/
theorem Shares.vmmMapPageIn (h : Shares s.mem (frameOf cr3) (pageOf virt) (pageOf addr))
    (hvirt : virt % 4096 = 0)
    (htop : tableOn s.mem (frameOf cr3) (pageOf virt) 3 ≠ some (frameOf cr3)) :
    ∃ phys flags, hardware (s.vmmMapPageIn cr3 virt phys flags).2.mem (frameOf cr3) addr ≠
      hardware s.mem (frameOf cr3) addr := by
  obtain ⟨hgoes, t, ht, hread⟩ := h
  have hway : tableOn s.mem (frameOf cr3) (pageOf virt) 3 ≠ none := by simp [Option.mem_def.mp ht]
  rcases s.walkPt_existing true false (.inr (.inr hway)) with
    ⟨hnone, _⟩ | ⟨_, t', s', ht', heq, hflags⟩
  · exact absurd hnone (not_or.mpr ⟨hgoes, hway⟩)
  obtain rfl := Option.some.inj (ht.symm.trans ht')
  obtain ⟨x, hx, hframe⟩ := ((reads_congr (hflags.sameWalk _ _)).mpr hread).frameAt_large
    fun htop' ↦ htop (htop' ▸ ht)
  -- large pages in the first and the second gigabyte cannot both be the old mapping
  have hmap : ∀ g : BitVec 64, g &&& 0xFFF = 0 →
      hardware (s.vmmMapPageIn cr3 virt g PTE_LARGE).2.mem (frameOf cr3) addr =
        hardware (s'.mem.write t (digit (pageOf virt) 3)
          ((g &&& PTE_ADDR_MASK) ||| PTE_LARGE ||| VMM_PRESENT)) (frameOf cr3) addr := by
    intro g hg
    rw [State.vmmMapPageIn, if_neg (not_or.mpr ⟨not_not.mpr hvirt, not_not.mpr hg⟩),
      show decide (PTE_LARGE &&& VMM_USER ≠ 0) = false by decide, heq]
  by_contra hall
  push Not at hall
  have h0 := (hmap 0 (by decide)).symm.trans (hall 0 PTE_LARGE)
  have h1 := (hmap (ofFrame (2 ^ 18)) (by decide)).symm.trans (hall _ PTE_LARGE)
  rw [hardware, hframe _ (by decide) (by decide) (by decide)] at h0 h1
  have hsame := Option.some.inj (h0.trans h1.symm)
  have hbit : ∀ f, (ofFrame f ||| BitVec.ofNat 64 (addr % 4096)).getLsbD 30 = f.testBit 18 := by
    intro f
    have hoff : (addr % 4096).testBit 30 = false :=
      Nat.testBit_lt_two_pow ((Nat.mod_lt _ (by decide)).trans (by decide))
    simp only [ofFrame, BitVec.getLsbD_or, BitVec.getLsbD_shiftLeft, BitVec.getLsbD_ofNat, hoff]
    simp
  have hbits := congrArg (·.getLsbD 30) hsame
  simp only [hbit] at hbits
  rw [show target (0 &&& PTE_ADDR_MASK ||| PTE_LARGE ||| VMM_PRESENT) = 0 by decide,
    show target (ofFrame (2 ^ 18) &&& PTE_ADDR_MASK ||| PTE_LARGE ||| VMM_PRESENT) = 2 ^ 18 by
      decide, Nat.zero_add, Nat.testBit_two_pow_add_eq, Nat.testBit_lt_two_pow hx] at hbits
  simp at hbits

end ToastyUnix.Mm
