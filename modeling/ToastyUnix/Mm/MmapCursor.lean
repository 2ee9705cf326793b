import ToastyUnix.Lib.Runs
import ToastyUnix.Mm.UserMemory

/-!
# The cursor of `mmap`

`sys_mmap` without an address takes the pages from the task's cursor on, and every successful call
moves the cursor to the end of its pages, also when it was given an address. The cursor is therefore
above all the pages that `mmap` has mapped as long as no call moves it down, and the pages it
yields are fresh as long as it does not reach those of the program image and the stack.
-/

namespace ToastyUnix.Mm

open Paging Errno List Option

/-- Page `v` is mapped in the space `cr3`. -/
def State.Mapped (s : State) (cr3 : BitVec 64) (v : ℕ) : Prop := leaf s.mem (frameOf cr3) v ≠ none

instance (s : State) (cr3 : BitVec 64) (v : ℕ) : Decidable (s.Mapped cr3 v) :=
  inferInstanceAs (Decidable (_ ≠ _))

/-- In the space `cr3` no page becomes mapped, and `pages` are not mapped afterwards. -/
def Unmaps (s s' : State) (cr3 : BitVec 64) (pages : ℕ → Prop) : Prop :=
  ∀ v < 2 ^ 36, s'.Mapped cr3 v → s.Mapped cr3 v ∧ ¬pages v

theorem pagesFrom_succ {page n v : ℕ} (h : PagesFrom page (n + 1) v) :
    v = pageOf page ∨ PagesFrom (page + 4096) n v := by
  obtain ⟨k, hk, rfl⟩ := h
  cases k with
  | zero => exact .inl rfl
  | succ k =>
    exact .inr ⟨k, by omega, by rw [show page + 4096 * (k + 1) = page + 4096 + 4096 * k by ring]⟩

namespace Owned

variable {s s' : State} {owner : ℕ → Owner} {cr3 : BitVec 64} {page : ℕ}

/-- A page that does not translate is not mapped. -/
theorem not_mapped_of_translate (h : Owned s owner) (hr : owner (frameOf cr3) = .top)
    (hv : pageOf page < 2 ^ 35) (halign : page % 4096 = 0)
    (hzero : (s.vmmTranslateIn cr3 page).1 = 0) : ¬s.Mapped cr3 (pageOf page) := by
  intro hmapped
  rw [State.Mapped, h.forest.leaf_eq hr hv] at hmapped
  cases hlast : lastTable s.mem 4 (frameOf cr3) (pageOf page) with
  | none => simp [hlast] at hmapped
  | some u =>
    have hpresent : present (s.mem u (pageOf page % 512)) := by
      by_contra habsent
      simp [hlast, habsent] at hmapped
    obtain ⟨owner', howned, hext, _⟩ := h.walkPt false false hr hv
    have hresult := h.walkPt_present false false hr hv hlast
    have hr' := hext.keeps.top hr
    have hlast' := h.forest.lastTable_of_sameView (hext.base ▸ howned.forest) hext.keeps hext.view
      (onPath_top hr hv) hv hlast
    -- the walk leaves the entry of the page as it is
    have hsame := hext.view.leaf (.inl hr) (v := pageOf page) (by omega)
    rw [howned.forest.leaf_eq hr' hv, h.forest.leaf_eq hr hv, hlast', hlast] at hsame
    generalize hwalk : s.walkPt cr3 page false false = result at *
    obtain ⟨found, s'⟩ := result
    have hpresent' : present (s'.mem u (pageOf page % 512)) := by
      by_contra habsent
      simp [hpresent, habsent] at hsame
    have hlower : LowerEntry owner' u (pageOf page % 512) 0 := by
      simpa using (howned.forest.lastTable_onPath (onPath_top hr' hv) hv hlast').lowerEntry hv
    have howner := (howned.forest.entries hlower).2 hpresent'
    have hentry : s'.mem u (pageOf page % 512) &&& VMM_PRESENT ≠ 0 :=
      and_VMM_PRESENT_ne_zero.mpr hpresent'
    simp only [State.vmmTranslateIn, hwalk, show found = _ from hresult, hentry, if_false, halign]
      at hzero
    have haddr : ofFrame (target (s'.mem u (pageOf page % 512))) = 0 := by
      rw [ofFrame_target, show addressMask = PTE_ADDR_MASK from rfl]
      simpa using hzero
    exact (howned.handed howner).1 ((ofFrame_eq_zero (target_lt _)).mp haddr)

theorem munmapLoop_unmaps (n : ℕ) (h : Owned s owner) (hr : owner (frameOf cr3) = .top)
    (halign : page % 4096 = 0) (hpages : UserPages page n) :
    Unmaps s (s.munmapLoop cr3 n page) cr3 (PagesFrom page n) := by
  induction n generalizing s owner page with
  | zero =>
    rintro v - hmapped
    refine ⟨hmapped, ?_⟩
    rintro ⟨k, hk, -⟩
    omega
  | succ n ih =>
    have hrest : ∀ s' owner', Owned s' owner' → owner' (frameOf cr3) = .top →
        (∀ v < 2 ^ 36, s'.Mapped cr3 v → s.Mapped cr3 v) → ¬s'.Mapped cr3 (pageOf page) →
        Unmaps s (s'.munmapLoop cr3 n (page + 4096)) cr3 (PagesFrom page (n + 1)) := by
      intro s' owner' h' hr' hless hhead v hv hmapped
      obtain ⟨hmapped', hout⟩ := ih h' hr' (by omega) hpages.tail v hv hmapped
      refine ⟨hless v hv hmapped', fun hin ↦ ?_⟩
      rcases pagesFrom_succ hin with rfl | htail
      · exact hhead hmapped'
      · exact hout htail
    obtain ⟨owner1, h1, hext, htranslate⟩ := h.vmmTranslateIn hr hpages.head halign
    have hr1 := hext.keeps.top hr
    have hless1 : ∀ v < 2 ^ 36, (s.vmmTranslateIn cr3 page).2.Mapped cr3 v → s.Mapped cr3 v := by
      intro v hv hmapped
      rwa [State.Mapped, hext.view.leaf (.inl hr) hv] at hmapped
    simp only [State.munmapLoop]
    split
    case isTrue hzero =>
      exact hrest _ _ h1 hr1 hless1 fun hmapped ↦
        h.not_mapped_of_translate hr hpages.head halign hzero
          (hless1 _ (hpages.head.trans (by decide)) hmapped)
    case isFalse hne =>
      obtain ⟨u, g, hphys, hlast, hg⟩ := htranslate hne
      obtain ⟨owner2, h2, hedits, hleaf⟩ := h1.vmmUnmapPageIn hr1 hpages.head hlast hg
      rw [hphys, ofFrame_and_not_low]
      refine hrest _ _ h2 (hedits.tops hr1) ?_ fun hmapped ↦ hmapped hleaf
      intro v hv hmapped
      by_cases hsame : v = pageOf page
      · exact absurd (hsame ▸ hleaf) hmapped
      · rw [State.Mapped, hedits.leaf (.inl hr1) hv fun hin ↦ hsame hin.2] at hmapped
        exact hless1 v hv hmapped

theorem sysMunmap_unmaps (addr len : ℤ) (h : Owned s owner) (hr : owner (frameOf cr3) = .top) :
    Unmaps s (s.sysMunmap cr3 addr len).2 cr3 fun _ ↦ False := by
  unfold State.sysMunmap
  simp only
  split
  case isTrue => exact fun v _ hmapped ↦ ⟨hmapped, id⟩
  case isFalse hargs =>
    split
    case isTrue => exact fun v _ hmapped ↦ ⟨hmapped, id⟩
    case isFalse hrange =>
      have hbytes : pageUp len.toNat < 2 ^ 64 := by
        rw [pageUp, pageDown, wrap]
        omega
      have hle := userPages_of_range (by omega) hbytes hrange
      rw [USER_HALF_MAX] at hle
      intro v hv hmapped
      exact ⟨(h.munmapLoop_unmaps _ hr (by omega) (userPages_of_le (by omega)) v hv hmapped).1, id⟩

/-- The rollback of `sys_mmap` unmaps the `m` pages that are mapped so far. -/
theorem rollback_unmaps {start : ℕ} (m : ℕ) (h : Owned s owner) (hr : owner (frameOf cr3) = .top)
    (halign : start % 4096 = 0) (hle : start + 4096 * m ≤ USER_HALF_MAX) :
    Unmaps s (s.sysMunmap cr3 start (start + 4096 * m - start : ℕ)).2 cr3 (PagesFrom start m) := by
  rw [USER_HALF_MAX] at hle
  have hstart : ((start : ℤ) % 2 ^ 64).toNat = start := by omega
  have hlen : pageUp ((start + 4096 * m - start : ℕ) : ℤ).toNat = 4096 * m := by
    rw [Int.toNat_natCast, pageUp, pageDown, wrap]
    omega
  simp only [State.sysMunmap, hstart, hlen]
  cases m with
  | zero =>
    rw [if_pos (by omega)]
    rintro v - hmapped
    refine ⟨hmapped, ?_⟩
    rintro ⟨k, hk, -⟩
    omega
  | succ m =>
    rw [if_neg (by omega), if_neg (by rw [wrap, USER_HALF_MAX]; omega),
      Nat.mul_div_cancel_left _ (by decide)]
    exact h.munmapLoop_unmaps _ hr halign (userPages_of_le (by omega))

/-- A loop of `sys_mmap` that fails leaves no page mapped that was not. -/
theorem mmapLoop_unmaps (start m n : ℕ) (h : Owned s owner) (hr : owner (frameOf cr3) = .top)
    (halign : start % 4096 = 0) (hle : start + 4096 * (m + n) ≤ USER_HALF_MAX)
    (hfailed : (s.mmapLoop cr3 start n (start + 4096 * m)).1 = false) :
    Unmaps s (s.mmapLoop cr3 start n (start + 4096 * m)).2 cr3 (PagesFrom start m) := by
  induction n generalizing s owner m with
  | zero => simp [State.mmapLoop] at hfailed
  | succ n ih =>
    obtain ⟨halloc, hext⟩ := h.allocFrame
    have hundo : ∀ s' owner', Owned s' owner' → owner' (frameOf cr3) = .top →
        (∀ v < 2 ^ 36, leaf s'.mem (frameOf cr3) v = leaf s.mem (frameOf cr3) v) →
        Unmaps s (s'.sysMunmap cr3 start (start + 4096 * m - start : ℕ)).2 cr3
          (PagesFrom start m) := by
      intro s' owner' h' hr' hsame v hv hmapped
      obtain ⟨hmapped', hout⟩ := h'.rollback_unmaps m hr' halign (by omega) v hv hmapped
      exact ⟨by rwa [State.Mapped, hsame v hv] at hmapped', hout⟩
    simp only [State.mmapLoop] at hfailed ⊢
    split
    case isTrue => exact hundo _ _ halloc hr fun v hv ↦ hext.view.leaf (.inl hr) hv
    case isFalse hne =>
      rw [if_neg hne] at hfailed
      obtain ⟨g, hg, haddr, _⟩ := h.allocFrame_ne_zero hne
      rw [haddr] at hfailed ⊢
      have hpage : pageOf (start + 4096 * m) < 2 ^ 35 := by
        rw [USER_HALF_MAX] at hle
        rw [pageOf]
        omega
      obtain ⟨owner', howned, hedits, hfail⟩ := halloc.mapFresh hr hpage (by omega) hg
      have hr' := hedits.tops hr
      split
      case isTrue hne =>
        have hspare := (hfail hne).spare hg
        have hfreed := howned.freeFrame (hspare.lt howned) hspare.nobody
        refine hundo _ _ hfreed hr' fun v hv ↦ ?_
        exact ((hfail hne).view.leaf (.inl hr) hv).trans (hext.view.leaf (.inl hr) hv)
      case isFalse hzero =>
        rw [if_neg hzero] at hfailed
        have hnext : start + 4096 * m + 4096 = start + 4096 * (m + 1) := by ring
        rw [hnext] at hfailed ⊢
        intro v hv hmapped
        obtain ⟨hmapped', hout⟩ := ih (m + 1) howned hr' (by omega) hfailed v hv hmapped
        have hother : v ≠ pageOf (start + 4096 * m) := fun hsame ↦ hout ⟨m, by omega, hsame⟩
        rw [State.Mapped, hedits.leaf (.inl hr) hv fun hin ↦ hother hin.2,
          hext.view.leaf (.inl hr) hv] at hmapped'
        refine ⟨hmapped', ?_⟩
        rintro ⟨k, hk, hkv⟩
        exact hout ⟨k, by omega, hkv⟩

/-- A failed `sys_mmap` keeps the cursor and maps nothing; a successful one maps its pages and moves
the cursor to their end. -/
theorem sysMmap_mapped {mmapCur : ℕ} (addr len : ℤ) (flags : BitVec 64) (h : Owned s owner)
    (hr : owner (frameOf cr3) = .top) (hcur : mmapCur < 2 ^ 64) :
    ((s.sysMmap cr3 mmapCur addr len flags).1 < 0 ∧
      (s.sysMmap cr3 mmapCur addr len flags).2.1 = mmapCur ∧
      ∀ v < 2 ^ 36, (s.sysMmap cr3 mmapCur addr len flags).2.2.Mapped cr3 v → s.Mapped cr3 v) ∨
    ((s.sysMmap cr3 mmapCur addr len flags).1 = mmapStart mmapCur addr ∧
      (s.sysMmap cr3 mmapCur addr len flags).2.1 = mmapStart mmapCur addr + pageUp len.toNat ∧
      mmapStart mmapCur addr % 4096 = 0 ∧
      mmapStart mmapCur addr + pageUp len.toNat ≤ USER_HALF_MAX ∧
      ∀ v < 2 ^ 36, (s.sysMmap cr3 mmapCur addr len flags).2.2.Mapped cr3 v →
        s.Mapped cr3 v ∨ PagesFrom (mmapStart mmapCur addr) (pageUp len.toNat / 4096) v) := by
  rcases s.sysMmap_cases cr3 hcur addr len flags with
    ⟨error, hneg, heq⟩ | ⟨halign, hle, s', ⟨hloop, heq⟩ | ⟨hloop, heq⟩⟩
  · rw [heq]
    exact .inl ⟨hneg, rfl, fun _ _ hmapped ↦ hmapped⟩
  · have hmod := pageUp_mod len.toNat
    have hunmaps := h.mmapLoop_unmaps (mmapStart mmapCur addr) 0 (pageUp len.toNat / 4096) hr
      halign (by omega)
    simp only [Nat.mul_zero, Nat.add_zero, hloop] at hunmaps
    rw [heq]
    exact .inl ⟨show -ENOMEM < 0 by decide, rfl, fun v hv hmapped ↦ (hunmaps trivial v hv hmapped).1⟩
  · have hmod := pageUp_mod len.toNat
    obtain ⟨owner', _, hedits⟩ := h.mmapLoop (mmapStart mmapCur addr) 0 (pageUp len.toNat / 4096) hr
      halign (by omega)
    simp only [Nat.mul_zero, Nat.add_zero, Nat.zero_add, hloop] at hedits
    rw [heq]
    refine .inr ⟨rfl, rfl, halign, hle, fun v hv hmapped ↦ ?_⟩
    by_cases hin : PagesFrom (mmapStart mmapCur addr) (pageUp len.toNat / 4096) v
    · exact .inr hin
    · rw [State.Mapped, hedits.leaf (.inl hr) hv fun hsame ↦ hin hsame.2] at hmapped
      exact .inl hmapped

theorem vmmSpaceClone_fresh (h : Owned s owner) (hne : s.vmmSpaceClone.1 ≠ 0) :
    owner (frameOf s.vmmSpaceClone.1) = .nobody := by
  have hphys : s.vmmSpaceClone.1 = s.allocFrame.1 := by
    unfold State.vmmSpaceClone
    simp only
    split
    case isTrue hzero => exact hzero.symm
    case isFalse => rfl
  rw [hphys] at hne ⊢
  obtain ⟨halloc, _⟩ := h.allocFrame
  obtain ⟨g, hg, haddr, _⟩ := h.allocFrame_ne_zero hne
  rw [haddr, frameOf_ofFrame (hg.lt halloc)]
  exact hg.nobody

end Owned

namespace UserSystem

/-- The step is not part of an exec of task `k`. -/
def NoExec (k : ℕ) : MapOp → Prop
  | .segment task _ _ _ => task ≠ k
  | .stack task => task ≠ k
  | _ => True

/-- Without an address the cursor of task `k` does not reach `image`, and with one `mmap` does not
move it down. -/
def CursorSafe (k : ℕ) (image : ℕ → Prop) (σ : UserSystem) : MapOp → Prop
  | .mmap task addr len _ =>
    task = k → ∀ t, σ.tasks[k]? = some t →
      if addr % 2 ^ 64 = 0 then ∀ v, PagesFrom t.mmapCur (pageUp len.toNat / 4096) v → ¬image v
      else t.mmapCur ≤ (addr % 2 ^ 64).toNat + pageUp len.toNat
  | _ => True

/-- Every step of the run meets the condition in the state in which it is made. -/
abbrev Meets (cond : UserSystem → MapOp → Prop) (σ : UserSystem) (ops : List MapOp) : Prop :=
  Runs.Meets step cond σ ops

/-- The frames are owned and no two tasks share a space. -/
structure SeparateSpaces (σ : UserSystem) : Prop where
  invariant : Invariant σ
  distinct : σ.spaces.Nodup

/-- Every mapped page of task `k` lies below its cursor, except for `image`. -/
def BelowCursor (k : ℕ) (image : ℕ → Prop) (σ : UserSystem) : Prop :=
  ∀ t, σ.tasks[k]? = some t → ∀ v < 2 ^ 35, σ.mm.Mapped t.cr3 v → image v ∨ 4096 * v < t.mmapCur

section Steps

variable {σ : UserSystem} {k : ℕ} {image : ℕ → Prop} {t : UserTask}

variable {u : UserTask} {j : ℕ} {op : MapOp}

theorem spaces_set (tasks : List UserTask) (j : ℕ) (hj : tasks[j]? = some u) (mmapCur : ℕ) :
    (tasks.set j { u with mmapCur := mmapCur }).map (fun t ↦ frameOf t.cr3) =
      tasks.map fun t ↦ frameOf t.cr3 := by
  obtain ⟨hlt, rfl⟩ := List.getElem?_eq_some_iff.mp hj
  rw [map_set]
  apply ext_getElem (by simp)
  intro i _ _
  rw [getElem_set]
  split
  case isTrue hi => simp [hi]
  case isFalse => rfl

theorem SeparateSpaces.step (h : SeparateSpaces σ) (op : MapOp) : SeparateSpaces (σ.step op) := by
  refine ⟨step_invariant h.invariant op, ?_⟩
  have hdistinct := h.distinct
  cases op with
  | spaceClone =>
    obtain ⟨owner, howned, htasks⟩ := h.invariant
    simp only [UserSystem.step]
    split
    case isTrue => exact hdistinct
    case isFalse hne =>
      have hfresh := howned.vmmSpaceClone_fresh hne
      simp only [spaces, map_append, map_cons, map_nil]
      refine nodup_append.mpr ⟨hdistinct, nodup_singleton _, ?_⟩
      intro r hr r' hr' hsame
      obtain ⟨t, ht, rfl⟩ := mem_map.mp hr
      obtain rfl := mem_singleton.mp hr'
      simp [← hsame, (htasks t ht).1] at hfresh
  | segment task virt size user =>
    simp only [UserSystem.step]
    split <;> exact hdistinct
  | stack task =>
    simp only [UserSystem.step]
    split <;> exact hdistinct
  | mmap task addr len flags =>
    simp only [UserSystem.step]
    split
    case h_1 => exact hdistinct
    case h_2 t ht =>
      rw [spaces, spaces_set _ _ ht]
      exact hdistinct
  | munmap task addr len =>
    simp only [UserSystem.step]
    split <;> exact hdistinct

theorem tasks_length_step (σ : UserSystem) (op : MapOp) :
    σ.tasks.length ≤ (σ.step op).tasks.length := by
  cases op with
  | spaceClone =>
    simp only [UserSystem.step]
    split <;> simp
  | segment task virt size user =>
    simp only [UserSystem.step]
    split <;> exact le_rfl
  | stack task =>
    simp only [UserSystem.step]
    split <;> exact le_rfl
  | mmap task addr len flags =>
    simp only [UserSystem.step]
    split <;> simp
  | munmap task addr len =>
    simp only [UserSystem.step]
    split <;> exact le_rfl

theorem SeparateSpaces.frame_ne (h : SeparateSpaces σ) (ht : σ.tasks[k]? = some t)
    (hu : σ.tasks[j]? = some u) (hne : j ≠ k) : frameOf t.cr3 ≠ frameOf u.cr3 := by
  intro hsame
  have hk : σ.spaces[k]? = some (frameOf t.cr3) := by simp [spaces, ht]
  have hj : σ.spaces[j]? = some (frameOf t.cr3) := by simp [spaces, hu, hsame]
  obtain ⟨hklt, hk⟩ := List.getElem?_eq_some_iff.mp hk
  obtain ⟨hjlt, hj⟩ := List.getElem?_eq_some_iff.mp hj
  exact hne ((h.distinct.getElem_inj_iff).mp (hj.trans hk.symm))

/-- What other tasks do leaves the pages of a task as they are. -/
theorem leaf_of_other (h : SeparateSpaces σ) {mm : State} {owner : ℕ → Owner} {pages : ℕ → Prop}
    (hspaces : HaveSpaces owner σ.tasks) (ht : σ.tasks[k]? = some t) (hu : σ.tasks[j]? = some u)
    (hne : j ≠ k) (hwithin : MapsWithin σ.mm mm owner u.cr3 pages) (v : ℕ) (hv : v < 2 ^ 36) :
    leaf mm.mem (frameOf t.cr3) v = leaf σ.mm.mem (frameOf t.cr3) v := by
  obtain ⟨owner', _, hedits⟩ := hwithin
  have hr := (hspaces t (mem_of_getElem? ht)).1
  exact hedits.leaf (.inl hr) hv fun hin ↦ h.frame_ne ht hu hne hin.1

/-- The step is not one of task `k`. -/
def OfOther (k : ℕ) : MapOp → Prop
  | .spaceClone => True
  | .segment task _ _ _ | .stack task | .mmap task _ _ _ | .munmap task _ _ => task ≠ k

theorem step_other (h : SeparateSpaces σ) (hop : OfOther k op) (ht : σ.tasks[k]? = some t) :
    (σ.step op).tasks[k]? = some t ∧
      ∀ v < 2 ^ 36, leaf (σ.step op).mm.mem (frameOf t.cr3) v =
        leaf σ.mm.mem (frameOf t.cr3) v := by
  obtain ⟨owner, howned, hspaces⟩ := h.invariant
  have htop : ∀ {j : ℕ} {u : UserTask}, σ.tasks[j]? = some u →
      owner (frameOf u.cr3) = .top ∧ u.mmapCur < 2 ^ 64 := fun hj ↦
    hspaces _ (mem_of_getElem? hj)
  cases op with
  | spaceClone =>
    obtain ⟨owner', _, _, _, _, hleaf, _⟩ := howned.vmmSpaceClone
    have hsame : ∀ v < 2 ^ 36, leaf σ.mm.vmmSpaceClone.2.mem (frameOf t.cr3) v =
        leaf σ.mm.mem (frameOf t.cr3) v := fun v hv ↦ hleaf _ v (.inl (htop ht).1) hv
    simp only [UserSystem.step]
    split
    case isTrue => exact ⟨ht, hsame⟩
    case isFalse =>
      refine ⟨?_, hsame⟩
      rw [getElem?_append_left (List.getElem?_eq_some_iff.mp ht).1, ht]
  | segment task virt size user =>
    simp only [UserSystem.step]
    split
    case h_1 => exact ⟨ht, fun _ _ ↦ rfl⟩
    case h_2 u hu =>
      exact ⟨ht, leaf_of_other h hspaces ht hu hop (howned.tusAlloc (htop hu).1 user)⟩
  | stack task =>
    simp only [UserSystem.step]
    split
    case h_1 => exact ⟨ht, fun _ _ ↦ rfl⟩
    case h_2 u hu => exact ⟨ht, leaf_of_other h hspaces ht hu hop (howned.mapStack (htop hu).1)⟩
  | mmap task addr len flags =>
    simp only [UserSystem.step]
    split
    case h_1 => exact ⟨ht, fun _ _ ↦ rfl⟩
    case h_2 u hu =>
      have hne : task ≠ k := hop
      have hwithin := (howned.sysMmap u.mmapCur addr len flags (htop hu).1 (htop hu).2).1
      exact ⟨by simp [getElem?_set_ne hne, ht], leaf_of_other h hspaces ht hu hop hwithin⟩
  | munmap task addr len =>
    simp only [UserSystem.step]
    split
    case h_1 => exact ⟨ht, fun _ _ ↦ rfl⟩
    case h_2 u hu =>
      exact ⟨ht, leaf_of_other h hspaces ht hu hop (howned.sysMunmap addr len (htop hu).1)⟩

theorem mul_pageOf {start i : ℕ} (halign : start % 4096 = 0)
    (hle : start + 4096 * i ≤ USER_HALF_MAX) :
    4096 * pageOf (start + 4096 * i) = start + 4096 * i := by
  rw [USER_HALF_MAX] at hle
  rw [pageOf]
  omega

theorem mmap_belowCursor (h : SeparateSpaces σ) (hbelow : BelowCursor k image σ)
    {addr len : ℤ} {flags : BitVec 64} (hsafe : CursorSafe k image σ (.mmap k addr len flags)) :
    BelowCursor k image (σ.step (.mmap k addr len flags)) := by
  obtain ⟨owner, howned, hspaces⟩ := h.invariant
  simp only [UserSystem.step]
  split
  case h_1 => exact hbelow
  case h_2 t ht =>
    obtain ⟨hr, hcur⟩ := hspaces t (mem_of_getElem? ht)
    intro t' ht'
    rw [getElem?_set_self (List.getElem?_eq_some_iff.mp ht).1, some.injEq] at ht'
    subst ht'
    intro v hv hmapped
    rcases howned.sysMmap_mapped addr len flags hr hcur with
      ⟨_, hcursor, hless⟩ | ⟨_, hcursor, halign, hle, hmaps⟩
    · simp only [hcursor]
      exact hbelow t ht v hv (hless v (by omega) hmapped)
    · simp only [hcursor]
      have hforward : t.mmapCur ≤ mmapStart t.mmapCur addr + pageUp len.toNat := by
        have hcond := hsafe rfl t ht
        rw [mmapStart]
        split at hcond
        case isTrue hzero =>
          rw [if_pos hzero]
          exact Nat.le_add_right _ _
        case isFalse hne =>
          rw [if_neg hne]
          exact hcond
      rcases hmaps v (by omega) hmapped with hold | ⟨i, hi, rfl⟩
      · exact (hbelow t ht v hv hold).imp_right fun hlt ↦ hlt.trans_le hforward
      · right
        rw [mul_pageOf halign (by omega)]
        omega

theorem step_belowCursor (h : SeparateSpaces σ) (ht : σ.tasks[k]? = some t)
    (hbelow : BelowCursor k image σ) (hexec : NoExec k op) (hsafe : CursorSafe k image σ op) :
    BelowCursor k image (σ.step op) := by
  have hother : OfOther k op → BelowCursor k image (σ.step op) := by
    intro hop u hu v hv hmapped
    obtain ⟨htask, hleaf⟩ := step_other h hop ht
    obtain rfl : t = u := some.inj (htask.symm.trans hu)
    rw [State.Mapped, hleaf v (by omega)] at hmapped
    exact hbelow t ht v hv hmapped
  cases op with
  | spaceClone => exact hother trivial
  | segment task virt size user => exact hother hexec
  | stack task => exact hother hexec
  | mmap task addr len flags =>
    by_cases htask : task = k
    · subst htask
      exact mmap_belowCursor h hbelow hsafe
    · exact hother htask
  | munmap task addr len =>
    by_cases htask : task = k
    · subst htask
      obtain ⟨owner, howned, hspaces⟩ := h.invariant
      have hr := (hspaces t (mem_of_getElem? ht)).1
      simp only [UserSystem.step, ht]
      intro u hu v hv hmapped
      obtain rfl : t = u := some.inj (ht.symm.trans hu)
      exact hbelow t ht v hv (howned.sysMunmap_unmaps addr len hr v (by omega) hmapped).1
    · exact hother htask

theorem run_belowCursor (h : SeparateSpaces σ) {ops : List MapOp} (hk : k < σ.tasks.length)
    (hbelow : BelowCursor k image σ) (hexec : ∀ op ∈ ops, NoExec k op)
    (hsafe : Meets (CursorSafe k image) σ ops) :
    SeparateSpaces (σ.run ops) ∧ BelowCursor k image (σ.run ops) := by
  induction ops generalizing σ with
  | nil => exact ⟨h, hbelow⟩
  | cons op ops ih =>
    obtain ⟨t, ht⟩ : ∃ t, σ.tasks[k]? = some t := ⟨_, getElem?_eq_getElem hk⟩
    refine ih (h.step op) ?_ ?_ (fun op' hop' ↦ hexec op' (mem_cons_of_mem _ hop')) hsafe.2
    · exact hk.trans_le (tasks_length_step σ op)
    · exact step_belowCursor h ht hbelow (hexec op mem_cons_self) hsafe.1

end Steps

variable {σ : UserSystem}

theorem Booted.separateSpaces (h : Booted σ) (ops : List MapOp) : SeparateSpaces (σ.run ops) := by
  have hrun : ∀ τ, SeparateSpaces τ → SeparateSpaces (τ.run ops) := by
    induction ops with
    | nil => exact fun τ hτ ↦ hτ
    | cons op ops ih => exact fun τ hτ ↦ ih _ (hτ.step op)
  exact hrun σ ⟨h.invariant, by simp [spaces, h.tasks]⟩

/-- **`mmap` without an address yields fresh pages.** After the exec of task `k`, in every run in
which its cursor is never moved down and does not reach the pages that the exec has mapped, the
pages that a successful call returns were not mapped. -/
theorem mmap_zero_fresh {σ : UserSystem} (hboot : Booted σ) (exec ops : List MapOp) {k : ℕ}
    {t₀ t : UserTask} (ht₀ : (σ.run exec).tasks[k]? = some t₀)
    (ht : ((σ.run exec).run ops).tasks[k]? = some t) (hexec : ∀ op ∈ ops, NoExec k op) (len : ℤ)
    (flags : BitVec 64) (hsafe : Meets (CursorSafe k ((σ.run exec).mm.Mapped t₀.cr3)) (σ.run exec)
      (ops ++ [.mmap k 0 len flags]))
    (hsuccess : 0 ≤ (((σ.run exec).run ops).mm.sysMmap t.cr3 t.mmapCur 0 len flags).1) (v : ℕ)
    (hv : PagesFrom (((σ.run exec).run ops).mm.sysMmap t.cr3 t.mmapCur 0 len flags).1.toNat
      (pageUp len.toNat / 4096) v) :
    ¬((σ.run exec).run ops).mm.Mapped t.cr3 v := by
  intro hmapped
  obtain ⟨hsafe, hlast, _⟩ := Runs.meets_append.mp hsafe
  have hinit : BelowCursor k ((σ.run exec).mm.Mapped t₀.cr3) (σ.run exec) := by
    intro u hu v _ hin
    obtain rfl : t₀ = u := some.inj (ht₀.symm.trans hu)
    exact .inl hin
  obtain ⟨hspaces, hbelow⟩ := run_belowCursor (hboot.separateSpaces exec)
    (List.getElem?_eq_some_iff.mp ht₀).1 hinit hexec hsafe
  obtain ⟨owner, howned, htasks⟩ := hspaces.invariant
  obtain ⟨hr, hcur⟩ := htasks t (mem_of_getElem? ht)
  rcases howned.sysMmap_mapped 0 len flags hr hcur with ⟨hneg, _⟩ | ⟨hstart, _, halign, hle, _⟩
  · omega
  · have hcursor : mmapStart t.mmapCur 0 = t.mmapCur := rfl
    rw [hcursor] at hstart halign hle
    rw [hstart, Int.toNat_natCast] at hv
    have havoid : ¬(σ.run exec).mm.Mapped t₀.cr3 v := hlast rfl t ht v hv
    obtain ⟨i, hi, rfl⟩ := hv
    have haddr : 4096 * pageOf (t.mmapCur + 4096 * i) = t.mmapCur + 4096 * i :=
      mul_pageOf halign (by omega)
    rw [USER_HALF_MAX] at hle
    rcases hbelow t ht _ (by omega) hmapped with himage | hlt
    · exact havoid himage
    · omega

/-- A machine with 32 usable frames and no task. -/
def mediumBoot : UserSystem := ⟨.bare 0x20000, []⟩

theorem booted_mediumBoot : Booted mediumBoot := booted_bare _

/-- A program with one page and its stack. -/
def execSmall : List MapOp :=
  [.spaceClone, .segment 0 0x10000000 1 (userPages_of_le (by decide)), .stack 0]

theorem mmap_zero_fresh_mediumBoot :
    let σ := (mediumBoot.run execSmall).run [.mmap 0 0x50000000 1 MAP_ANONYMOUS]
    (σ.mm.sysMmap (ofFrame 2) 0x50001000 0 1 MAP_ANONYMOUS).1 = 0x50001000 ∧
      ¬σ.mm.Mapped (ofFrame 2) 0x50001 := by
  have hexec : (mediumBoot.run execSmall).tasks = [⟨ofFrame 2, 0x40000000⟩] := by decide +kernel
  have htasks : ((mediumBoot.run execSmall).run [.mmap 0 0x50000000 1 MAP_ANONYMOUS]).tasks =
      [⟨ofFrame 2, 0x50001000⟩] := by decide +kernel
  have hresult : (((mediumBoot.run execSmall).run
      [.mmap 0 0x50000000 1 MAP_ANONYMOUS]).mm.sysMmap (ofFrame 2) 0x50001000 0 1
        MAP_ANONYMOUS).1 = 0x50001000 := by decide +kernel
  have hbefore : (mediumBoot.run execSmall).tasks[0]? = some ⟨ofFrame 2, 0x40000000⟩ := by
    rw [hexec]
    rfl
  have hafter : ((mediumBoot.run execSmall).run [.mmap 0 0x50000000 1 MAP_ANONYMOUS]).tasks[0]? =
      some ⟨ofFrame 2, 0x50001000⟩ := by
    rw [htasks]
    rfl
  refine ⟨hresult, ?_⟩
  refine mmap_zero_fresh booted_mediumBoot execSmall _ hbefore hafter ?_ 1 MAP_ANONYMOUS
    ⟨?_, ?_, trivial⟩ (by simp [hresult]) 0x50001 ?_
  · intro op hop
    rw [mem_singleton.mp hop]
    trivial
  · intro _ t ht
    obtain rfl : ⟨ofFrame 2, 0x40000000⟩ = t := some.inj (hbefore.symm.trans ht)
    rw [if_neg (by decide)]
    decide
  · intro _ t ht
    obtain rfl : ⟨ofFrame 2, 0x50001000⟩ = t := some.inj (hafter.symm.trans ht)
    rintro v ⟨i, hi, rfl⟩
    obtain rfl : i = 0 := by simpa [pageUp, pageDown, wrap] using hi
    decide +kernel
  · exact ⟨0, by decide, by rw [hresult]; decide⟩

/-- After a call just below the stack the cursor is at the stack, and the next call without an
address returns the first page of the stack. -/
theorem mmap_zero_takes_stack :
    let σ := (mediumBoot.run execSmall).run [.mmap 0 0x5ffff000 4096 MAP_ANONYMOUS]
    σ.tasks = [⟨ofFrame 2, 0x60000000⟩] ∧
      (σ.mm.sysMmap (ofFrame 2) 0x60000000 0 4096 MAP_ANONYMOUS).1 = 0x60000000 ∧
      σ.mm.Mapped (ofFrame 2) 0x60000 := by
  decide +kernel

end UserSystem

end ToastyUnix.Mm
