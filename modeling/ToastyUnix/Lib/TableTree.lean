import ToastyUnix.Lib.PageForest

/-!
# The tables on the way to a page

The walk to page `v` from a top table `r` visits a table after each link. What a write to a table
does to the walk of another page depends on the tables that the two walks have in common: pages of
which one may be edited are apart from the others (`Apart`) when their walks only share tables at
the same depth and under the same digits, in the same space. Then a new table below an absent
entry, or an entry of the last table, shows on the edited page only.
-/

namespace ToastyUnix.Paging

open Function Option

/-- The index of the entry for page `v` in the table after `n` links. -/
def digit (v n : ℕ) : ℕ := v / 512 ^ (3 - n) % 512

/-- The table that the walk to page `v` visits after `n` links. -/
def tableOn (mem : Memory) (r v : ℕ) : ℕ → Option ℕ
  | 0 => some r
  | n + 1 => (tableOn mem r v n).bind fun t ↦
      let e := mem t (digit v n)
      if present e ∧ large e = false then some (target e) else none

/-- The digits of pages `v` and `w` above the table after `n` links are equal. -/
def SamePrefix (n v w : ℕ) : Prop := v / 512 ^ (4 - n) = w / 512 ^ (4 - n)

instance (n v w : ℕ) : Decidable (SamePrefix n v w) := inferInstanceAs (Decidable (_ = _))

/-- The frame that page `v` is mapped to below a table of depth `d`. -/
def frameBelow (mem : Memory) (d t v : ℕ) : Option ℕ :=
  (walk mem d t v).map fun (d, e) ↦ target e / 512 ^ d * 512 ^ d + v % 512 ^ d

variable {mem mem' : Memory} {r v w n t : ℕ}

theorem tableOn_succ (ht : tableOn mem r v n = some t) :
    tableOn mem r v (n + 1) =
      if present (mem t (digit v n)) ∧ large (mem t (digit v n)) = false then
        some (target (mem t (digit v n)))
      else none := by
  rw [tableOn, ht]
  rfl

theorem tableOn_eq_some {u : ℕ} (h : tableOn mem r v (n + 1) = some u) :
    ∃ t, tableOn mem r v n = some t ∧ present (mem t (digit v n)) ∧
      large (mem t (digit v n)) = false ∧ target (mem t (digit v n)) = u := by
  cases ht : tableOn mem r v n with
  | none => simp [tableOn, ht] at h
  | some t =>
    rw [tableOn_succ ht] at h
    split at h
    case isTrue hentry => exact ⟨t, rfl, hentry.1, hentry.2, some.inj h⟩
    case isFalse => simp at h

theorem samePrefix_succ (hn : n ≤ 3) :
    SamePrefix (n + 1) v w ↔ SamePrefix n v w ∧ digit v n = digit w n := by
  have hpow : 512 ^ (4 - n) = 512 ^ (3 - n) * 512 := by
    rw [show 4 - n = 3 - n + 1 by omega, pow_succ]
  have hnext : 4 - (n + 1) = 3 - n := by omega
  simp only [SamePrefix, digit, hpow, hnext, ← Nat.div_div_eq_div_mul]
  omega

theorem samePrefix_four : SamePrefix 4 v w ↔ v = w := by
  simp [SamePrefix]

theorem samePrefix_zero (hv : v < 2 ^ 36) (hw : w < 2 ^ 36) : SamePrefix 0 v w := by
  rw [SamePrefix]
  omega

/-- The walk depends on the digits above its table only. -/
theorem tableOn_congr_prefix (hn : n ≤ 4) (h : SamePrefix n v w) :
    tableOn mem r v n = tableOn mem r w n := by
  induction n with
  | zero => rfl
  | succ n ih =>
    obtain ⟨hdigits, hdigit⟩ := (samePrefix_succ (by omega)).mp h
    rw [tableOn, tableOn, ih (by omega) hdigits, hdigit]

/-! ## Walks that see the same links -/

/-- The walk to page `v` finds in `mem'` the links that it finds in `mem`. -/
def SameWalk (mem mem' : Memory) (r v : ℕ) : Prop :=
  ∀ n ≤ 3, ∀ t, tableOn mem r v n = some t → SameLink (mem t (digit v n)) (mem' t (digit v n))

theorem SameWalk.tableOn (h : SameWalk mem mem' r v) (hn : n ≤ 4) :
    tableOn mem' r v n = tableOn mem r v n := by
  induction n with
  | zero => rfl
  | succ n ih =>
    cases ht : Paging.tableOn mem r v n with
    | none => rw [Paging.tableOn, Paging.tableOn, ih (by omega), ht]; rfl
    | some t =>
      obtain ⟨hpresent, hlarge, htarget⟩ := h n (by omega) t ht
      rw [tableOn_succ ht, tableOn_succ ((ih (by omega)).trans ht), hpresent, hlarge, htarget]

theorem frameBelow_succ (mem : Memory) (d t v : ℕ) :
    frameBelow mem (d + 1) t v =
      let e := mem t (v / 512 ^ d % 512)
      if !present e then none
      else if d = 0 then some (target e)
      else if large e then
        if d < 3 then some (target e / 512 ^ d * 512 ^ d + v % 512 ^ d) else none
      else frameBelow mem d (target e) v := by
  simp only [frameBelow, walk]
  split
  case isTrue => rfl
  case isFalse =>
  split
  case isTrue hd => simp [Nat.mod_one]
  case isFalse =>
  split
  case isTrue =>
    split <;> rfl
  case isFalse => rfl

variable {d : ℕ}

/-- Walks through entries that lead to the same place agree if they agree from there on. -/
theorem frameBelow_congr (hlink : SameLink (mem t (v / 512 ^ d % 512)) (mem' t (v / 512 ^ d % 512)))
    (hnext : present (mem t (v / 512 ^ d % 512)) → large (mem t (v / 512 ^ d % 512)) = false →
      frameBelow mem' d (target (mem t (v / 512 ^ d % 512))) v =
        frameBelow mem d (target (mem t (v / 512 ^ d % 512))) v) :
    frameBelow mem' (d + 1) t v = frameBelow mem (d + 1) t v := by
  obtain ⟨hpresent, hlarge, htarget⟩ := hlink
  simp only [frameBelow_succ, hpresent, hlarge, htarget]
  cases hp : present (mem t (v / 512 ^ d % 512)) with
  | false => simp
  | true =>
    cases hl : large (mem t (v / 512 ^ d % 512)) with
    | true => simp
    | false => simp [hnext hp hl]

theorem SameWalk.frameBelow (h : SameWalk mem mem' r v) (hd : n + d = 4)
    (ht : Paging.tableOn mem r v n = some t) : frameBelow mem' d t v = frameBelow mem d t v := by
  induction d generalizing n t with
  | zero => rfl
  | succ d ih =>
    obtain rfl : d = 3 - n := by omega
    refine frameBelow_congr (h n (by omega) t ht) fun hpresent hlarge ↦ ?_
    refine ih (n := n + 1) (by omega) ?_
    exact (tableOn_succ ht).trans (if_pos ⟨hpresent, hlarge⟩)

theorem SameWalk.frameAt (h : SameWalk mem mem' r v) : frameAt mem' r v = frameAt mem r v :=
  h.frameBelow (n := 0) rfl rfl

/-- No entry above the last table on the way to page `v` has bit 7 set. -/
def NoLarge (mem : Memory) (r v : ℕ) : Prop :=
  ∀ n ≤ 2, ∀ t, tableOn mem r v n = some t → large (mem t (digit v n)) = false

theorem SameWalk.noLarge (h : SameWalk mem mem' r v) (hno : NoLarge mem r v) :
    NoLarge mem' r v := by
  intro n hn t ht
  rw [h.tableOn (by omega)] at ht
  rw [(h n (by omega) t ht).2.1]
  exact hno n hn t ht

theorem tableOn_none {m : ℕ} (h : tableOn mem r v n = none) (hle : n ≤ m) :
    tableOn mem r v m = none := by
  induction m, hle using Nat.le_induction with
  | base => exact h
  | succ m _ ih => simp [tableOn, ih]

theorem frameBelow_one (hn : n = 3) :
    frameBelow mem 1 t v =
      if present (mem t (digit v n)) then some (target (mem t (digit v n))) else none := by
  subst hn
  rw [frameBelow_succ]
  cases hpresent : present (mem t (v / 512 ^ 0 % 512)) <;> simp_all [digit]

theorem frameBelow_next (hd : n + d = 2) (hlarge : large (mem t (digit v n)) = false) :
    frameBelow mem (d + 2) t v =
      if present (mem t (digit v n)) then frameBelow mem (d + 1) (target (mem t (digit v n))) v
      else none := by
  have hdigit : digit v n = v / 512 ^ (d + 1) % 512 := by
    rw [digit, show 3 - n = d + 1 by omega]
  rw [hdigit] at hlarge ⊢
  rw [frameBelow_succ]
  cases hpresent : present (mem t (v / 512 ^ (d + 1) % 512)) <;> simp [hpresent, hlarge]

/-- Without large pages the last table has the entry of the page. -/
theorem NoLarge.frameAt (h : NoLarge mem r v) :
    frameAt mem r v = (Paging.tableOn mem r v 3).bind fun t ↦
      if present (mem t (digit v 3)) then some (target (mem t (digit v 3))) else none := by
  have hbelow : ∀ {d n t}, n + d = 3 → Paging.tableOn mem r v n = some t →
      Paging.frameBelow mem (d + 1) t v = (Paging.tableOn mem r v 3).bind fun t ↦
        if present (mem t (digit v 3)) then some (target (mem t (digit v 3))) else none := by
    intro d
    induction d with
    | zero =>
      intro n t hn ht
      obtain rfl : n = 3 := hn
      rw [ht, frameBelow_one rfl]
      rfl
    | succ d ih =>
      intro n t hd ht
      have hlarge := h n (by omega) t ht
      have hnext := tableOn_succ ht
      rw [frameBelow_next (by omega) hlarge]
      split
      case isTrue hpresent =>
        rw [if_pos ⟨hpresent, hlarge⟩] at hnext
        exact ih (by omega) hnext
      case isFalse hpresent =>
        rw [if_neg fun hentry ↦ hpresent hentry.1] at hnext
        rw [tableOn_none hnext (by omega)]
        rfl
  exact hbelow (n := 0) rfl rfl

/-! ## Pages apart from each other -/

/-- The walks of the edited pages share tables with those of watched pages only at the same depth,
in the same space and under the same digits. -/
def Apart (mem : Memory) (edited watched : ℕ → ℕ → Prop) : Prop :=
  ∀ ⦃r v n t⦄, edited r v → n ≤ 3 → tableOn mem r v n = some t →
    ∀ ⦃r' w m⦄, watched r' w → m ≤ 3 → tableOn mem r' w m = some t →
      m = n ∧ r' = r ∧ SamePrefix n v w

section Edits

variable {edited watched : ℕ → ℕ → Prop} {r' m g : ℕ} {e : BitVec 64}

section

variable (h : Apart mem edited watched) (hv : edited r v) (ht : tableOn mem r v 3 = some t)
  (hw : watched r' w)
include h hv ht hw

/-- A write to the last table leaves the tables on the way to all pages. -/
theorem Apart.tableOn_write (hm : m ≤ 3) :
    tableOn (mem.write t (digit v 3) e) r' w m = tableOn mem r' w m := by
  induction m with
  | zero => rfl
  | succ m ih =>
    cases hu : tableOn mem r' w m with
    | none => simp [tableOn, ih (by omega), hu]
    | some u =>
      have hne : u ≠ t := by
        rintro rfl
        obtain ⟨rfl, _⟩ := h hv le_rfl ht hw (by omega) hu
        omega
      rw [tableOn_succ hu, tableOn_succ ((ih (by omega)).trans hu), mem.write_frame_of_ne e hne]

/-- A write to the last table shows on the edited page only. -/
theorem Apart.sameWalk_write (hne : ¬(r' = r ∧ w = v)) :
    SameWalk mem (mem.write t (digit v 3) e) r' w := by
  intro m hm u hu
  have hother : ¬(u = t ∧ digit w m = digit v 3) := by
    rintro ⟨rfl, hdigit⟩
    obtain ⟨rfl, rfl, hdigits⟩ := h hv le_rfl ht hw hm hu
    exact hne ⟨rfl, (samePrefix_four.mp ((samePrefix_succ le_rfl).mpr ⟨hdigits, hdigit.symm⟩)).symm⟩
  rw [mem.write_of_ne e hother]
  exact ⟨rfl, rfl, rfl⟩

end

theorem Apart.write (h : Apart mem edited watched) (hsub : ∀ r v, edited r v → watched r v)
    (hv : edited r v) (ht : tableOn mem r v 3 = some t) :
    Apart (mem.write t (digit v 3) e) edited watched := by
  intro r₁ v₁ n u hv₁ hn hu r' w m hw hm hu'
  rw [h.tableOn_write hv ht (hsub _ _ hv₁) hn] at hu
  rw [h.tableOn_write hv ht hw hm] at hu'
  exact h hv₁ hn hu hw hm hu'

theorem Apart.noLarge_write (h : Apart mem edited watched) (hv : edited r v)
    (ht : tableOn mem r v 3 = some t) (hw : watched r' w) (hno : NoLarge mem r' w) :
    NoLarge (mem.write t (digit v 3) e) r' w := by
  intro m hm u hu
  rw [h.tableOn_write hv ht hw (by omega)] at hu
  have hne : u ≠ t := by
    rintro rfl
    obtain ⟨rfl, _⟩ := h hv le_rfl ht hw (by omega) hu
    omega
  rw [mem.write_frame_of_ne e hne]
  exact hno m hm u hu

/-- A new empty table in frame `g`, below an absent entry on the way to page `v`. -/
structure NewTable (mem : Memory) (watched : ℕ → ℕ → Prop) (r v n t g : ℕ) (e : BitVec 64) :
    Prop where
  bound : n ≤ 2
  table : tableOn mem r v n = some t
  absent : present (mem t (digit v n)) = false
  fresh : ∀ {r' w m}, watched r' w → m ≤ 3 → tableOn mem r' w m ≠ some g
  empty : ∀ i, mem g i = 0
  present : present e
  large : large e = false
  target : target e = g

section

variable (hnew : NewTable mem watched r v n t g e) (h : SamePrefix (n + 1) v w)
include hnew h

theorem NewTable.tableOn_of_samePrefix : tableOn mem r w n = some t := by
  have hbound := hnew.bound
  rw [← tableOn_congr_prefix (by omega) ((samePrefix_succ (by omega)).mp h).1, hnew.table]

theorem NewTable.tableOn_eq_none : tableOn mem r w (n + 1) = none := by
  have hbound := hnew.bound
  rw [tableOn_succ (hnew.tableOn_of_samePrefix h), ← ((samePrefix_succ (by omega)).mp h).2,
    hnew.absent]
  rfl

end

section

variable (h : Apart mem edited watched) (hsub : ∀ r v, edited r v → watched r v) (hv : edited r v)
  (hnew : NewTable mem watched r v n t g e)
include h hsub hv hnew

theorem Apart.tableOn_newTable (hw : watched r' w) (hm : m ≤ 3) :
    tableOn (mem.write t (digit v n) e) r' w m =
      if r' = r ∧ m = n + 1 ∧ SamePrefix (n + 1) v w then some g else tableOn mem r' w m := by
  have hbound := hnew.bound
  have hgt : g ≠ t := by
    rintro rfl
    exact hnew.fresh (hsub _ _ hv) (by omega) hnew.table
  induction m with
  | zero =>
    rw [if_neg (by omega)]
    rfl
  | succ m ih =>
    replace ih := ih (by omega)
    split at ih
    case isTrue hbelow =>
      -- the walk has reached the new table, which is empty
      obtain ⟨rfl, rfl, hdigits⟩ := hbelow
      rw [if_neg (by omega), tableOn_succ ih, mem.write_frame_of_ne e hgt, hnew.empty,
        tableOn_none (hnew.tableOn_eq_none hdigits) (by omega)]
      rfl
    case isFalse =>
      cases hu : tableOn mem r' w m with
      | none =>
        have hnot : ¬(r' = r ∧ m + 1 = n + 1 ∧ SamePrefix (n + 1) v w) := by
          rintro ⟨rfl, hmn, hdigits⟩
          obtain rfl : m = n := by omega
          simp [hnew.tableOn_of_samePrefix hdigits] at hu
        rw [if_neg hnot]
        simp [tableOn, ih, hu]
      | some u =>
        rw [tableOn_succ (ih.trans hu), tableOn_succ hu]
        by_cases hentry : u = t ∧ digit w m = digit v n
        · obtain ⟨rfl, hdigit⟩ := hentry
          obtain ⟨rfl, rfl, hdigits⟩ := h hv (by omega) hnew.table hw (by omega) hu
          have hnext := (samePrefix_succ (by omega)).mpr ⟨hdigits, hdigit.symm⟩
          rw [hdigit, Memory.write_self, if_pos ⟨hnew.present, hnew.large⟩, hnew.target,
            if_pos ⟨rfl, rfl, hnext⟩]
        · have hnot : ¬(r' = r ∧ m + 1 = n + 1 ∧ SamePrefix (n + 1) v w) := by
            rintro ⟨rfl, hmn, hdigits⟩
            obtain rfl : m = n := by omega
            obtain ⟨_, hdigit⟩ := (samePrefix_succ (by omega)).mp hdigits
            have hsame := hu.symm.trans (hnew.tableOn_of_samePrefix hdigits)
            exact hentry ⟨some.inj hsame, hdigit.symm⟩
          rw [if_neg hnot, mem.write_of_ne e hentry]

theorem Apart.frameAt_newTable (hw : watched r' w) :
    frameAt (mem.write t (digit v n) e) r' w = frameAt mem r' w := by
  have hbound := hnew.bound
  have hgt : g ≠ t := by
    rintro rfl
    exact hnew.fresh (hsub _ _ hv) (by omega) hnew.table
  have hbelow : ∀ {d m u}, m + d = 4 → tableOn mem r' w m = some u →
      frameBelow (mem.write t (digit v n) e) d u w = frameBelow mem d u w := by
    intro d
    induction d with
    | zero => exact fun _ _ ↦ rfl
    | succ d ih =>
      intro m u hd hu
      obtain rfl : d = 3 - m := by omega
      by_cases hentry : u = t ∧ digit w m = digit v n
      · obtain ⟨rfl, hdigit⟩ := hentry
        obtain ⟨rfl, rfl, _⟩ := h hv (by omega) hnew.table hw (by omega) hu
        obtain ⟨d, hsucc⟩ : ∃ d, 3 - m = d + 1 := ⟨2 - m, by omega⟩
        have hnone : frameBelow (mem.write u (digit v m) e) (d + 1) g w = none := by
          rw [frameBelow_succ, mem.write_frame_of_ne e hgt, hnew.empty]
          rfl
        rw [frameBelow_succ, frameBelow_succ, ← digit]
        simp [hdigit, hnew.absent, hnew.large, hnew.target, hsucc, hnone]
      · have hsame : mem.write t (digit v n) e u (digit w m) = mem u (digit w m) :=
          mem.write_of_ne e hentry
        refine frameBelow_congr ?_ fun hpresent hlarge ↦ ?_
        · rw [← digit, hsame]
          exact ⟨rfl, rfl, rfl⟩
        · exact ih (m := m + 1) (by omega) ((tableOn_succ hu).trans (if_pos ⟨hpresent, hlarge⟩))
  exact hbelow (m := 0) rfl rfl

theorem Apart.newTable :
    Apart (mem.write t (digit v n) e) edited watched := by
  intro r₁ v₁ n₁ u hv₁ hn₁ hu r' w m hw hm hu'
  rw [h.tableOn_newTable hsub hv hnew (hsub _ _ hv₁) hn₁] at hu
  rw [h.tableOn_newTable hsub hv hnew hw hm] at hu'
  split at hu
  case isTrue hbelow =>
    obtain rfl := some.inj hu
    split at hu'
    case isTrue hbelow' =>
      obtain ⟨rfl, rfl, hdigits⟩ := hbelow
      obtain ⟨rfl, rfl, hdigits'⟩ := hbelow'
      exact ⟨rfl, rfl, hdigits.symm.trans hdigits'⟩
    case isFalse => exact absurd hu' (hnew.fresh hw hm)
  case isFalse =>
    split at hu'
    case isTrue =>
      obtain rfl := some.inj hu'
      exact absurd hu (hnew.fresh (hsub _ _ hv₁) hn₁)
    case isFalse => exact h hv₁ hn₁ hu hw hm hu'

theorem Apart.noLarge_newTable (hw : watched r' w) (hno : NoLarge mem r' w) :
    NoLarge (mem.write t (digit v n) e) r' w := by
  intro m hm u hu
  have hgt : g ≠ t := by
    rintro rfl
    exact hnew.fresh (hsub _ _ hv) (hnew.bound.trans (by decide)) hnew.table
  rw [h.tableOn_newTable hsub hv hnew hw (by omega)] at hu
  split at hu
  case isTrue =>
    obtain rfl := some.inj hu
    rw [mem.write_frame_of_ne e hgt, hnew.empty]
    exact large_zero
  case isFalse =>
    rw [Memory.write]
    split
    · exact hnew.large
    · exact hno m hm u hu

end

variable {words : ℕ → BitVec 64}

/-- A frame that is no table may hold anything. -/
theorem sameWalk_fill (hg : ∀ m ≤ 3, tableOn mem r w m ≠ some g) :
    SameWalk mem (mem.fill g words) r w := by
  intro m hm u hu
  have hne : u ≠ g := by
    rintro rfl
    exact hg m hm hu
  rw [mem.fill_of_ne _ hne]
  exact ⟨rfl, rfl, rfl⟩

/-- The walk from a new top table that has the entry of another one. -/
theorem tableOn_copied (hcopy : words (digit w 0) = mem r (digit w 0))
    (hg : ∀ m ≤ 3, tableOn mem r w m ≠ some g) (hm : m ≤ 3) :
    tableOn (mem.fill g words) g w (m + 1) = tableOn mem r w (m + 1) := by
  induction m with
  | zero => simp [tableOn, hcopy]
  | succ m ih =>
    cases hu : tableOn mem r w (m + 1) with
    | none => rw [tableOn_none hu (by omega), tableOn_none ((ih (by omega)).trans hu) (by omega)]
    | some u =>
      have hne : u ≠ g := by
        rintro rfl
        exact hg (m + 1) hm hu
      rw [tableOn_succ hu, tableOn_succ ((ih (by omega)).trans hu), mem.fill_of_ne _ hne]

theorem tableOn_absent (h : present (mem r (digit w 0)) = false) :
    tableOn mem r w (m + 1) = none := by
  refine tableOn_none (n := 1) ?_ (by omega)
  simp [tableOn, h]

theorem noLarge_copied (hcopy : words (digit w 0) = mem r (digit w 0))
    (hg : ∀ m ≤ 3, tableOn mem r w m ≠ some g) (hno : NoLarge mem r w) :
    NoLarge (mem.fill g words) g w := by
  intro m hm u hu
  cases m with
  | zero =>
    obtain rfl : g = u := some.inj hu
    rw [Memory.fill_self, hcopy]
    exact hno 0 (by decide) r rfl
  | succ m =>
    rw [tableOn_copied hcopy hg (by omega)] at hu
    have hne : u ≠ g := by
      rintro rfl
      exact hg (m + 1) (by omega) hu
    rw [mem.fill_of_ne _ hne]
    exact hno (m + 1) hm u hu

/-- Clearing entries can only shorten walks. -/
theorem tableOn_of_cleared {u : ℕ} (h : tableOn (mem.write t n 0) r w m = some u) :
    tableOn mem r w m = some u := by
  induction m generalizing u with
  | zero => exact h
  | succ m ih =>
    obtain ⟨x, hx, hpresent, hlarge, htarget⟩ := tableOn_eq_some h
    have hkept : mem.write t n 0 x (digit w m) = mem x (digit w m) := by
      rw [Memory.write] at hpresent ⊢
      split
      case isTrue hsame => simp [hsame] at hpresent
      case isFalse => rfl
    rw [hkept] at hpresent hlarge htarget
    rw [tableOn_succ (ih hx), if_pos ⟨hpresent, hlarge⟩, htarget]

theorem noLarge_cleared (hno : NoLarge mem r w) : NoLarge (mem.write t n 0) r w := by
  intro m hm u hu
  rw [Memory.write]
  split
  · exact large_zero
  · exact hno m hm u (tableOn_of_cleared hu)

end Edits

/-! ## Levels

A coarser view: every frame that serves as a table does so at one level, whatever refers to it. -/

/-- Every link from a table leads one level down. Level 0 is for frames that are no tables. -/
def Levels (mem : Memory) (level : ℕ → ℕ) : Prop :=
  ∀ ⦃t i⦄, i < 512 → 2 ≤ level t → present (mem t i) → large (mem t i) = false →
    level (target (mem t i)) + 1 = level t

section Levels

variable {level : ℕ → ℕ} {g i : ℕ} {e : BitVec 64}

theorem Levels.sameLink (h : Levels mem level) (hmem : ∀ t i, SameLink (mem t i) (mem' t i)) :
    Levels mem' level := by
  intro t i hi ht hpresent hlarge
  obtain ⟨hp, hl, htarget⟩ := hmem t i
  rw [htarget]
  exact h hi ht (hp ▸ hpresent) (hl ▸ hlarge)

theorem Levels.write (h : Levels mem level)
    (he : 2 ≤ level t → present e → large e = false → level (target e) + 1 = level t) :
    Levels (mem.write t i e) level := by
  intro u j hj hu hpresent hlarge
  rw [Memory.write] at hpresent hlarge ⊢
  split at hpresent
  case isTrue hsame =>
    obtain ⟨rfl, rfl⟩ := hsame
    simp only [and_self, if_true] at hlarge ⊢
    exact he hu hpresent hlarge
  case isFalse hother =>
    rw [if_neg hother] at hlarge ⊢
    exact h hj hu hpresent hlarge

/-- A frame that is no table becomes one, with links that fit its level. -/
theorem Levels.newTable {words : ℕ → BitVec 64} {d : ℕ} (h : Levels mem level) (hg : level g = 0)
    (hwords : 2 ≤ d → ∀ i < 512, present (words i) → large (words i) = false →
      level (target (words i)) + 1 = d) :
    Levels (mem.fill g words) (update level g d) := by
  have hother : ∀ {e c}, 2 ≤ c → level (target e) + 1 = c →
      update level g d (target e) + 1 = c := by
    intro e c hc hnext
    rwa [update_of_ne]
    intro hsame
    rw [hsame, hg] at hnext
    omega
  intro t i hi ht hpresent hlarge
  by_cases htg : t = g
  · subst htg
    rw [update_self] at ht ⊢
    rw [Memory.fill_self] at hpresent hlarge ⊢
    exact hother ht (hwords ht i hi hpresent hlarge)
  · rw [update_of_ne htg] at ht ⊢
    rw [mem.fill_of_ne _ htg] at hpresent hlarge ⊢
    exact hother ht (h hi ht hpresent hlarge)

end Levels

theorem TableAt.le_four (h : TableAt mem r d t) : d ≤ 4 := by
  induction h with
  | top => exact le_rfl
  | next _ _ _ _ ih => omega

theorem TableAt.eq_top (h : TableAt mem r 4 t) : t = r := by
  cases h with
  | top => rfl
  | next hprev => exact absurd hprev.le_four (by decide)

end ToastyUnix.Paging
