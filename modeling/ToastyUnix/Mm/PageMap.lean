import ToastyUnix.Lib.TableTree
import ToastyUnix.Mm.Ownership

/-!
# Address spaces as maps

Without large pages `vmm_translate_in` is a function of the tables on the way to the page, and the
operations of the virtual memory manager are updates of that function: they show on the page they
are called for and on no other page of any space that is apart from it (`Paging.Apart`).

The software stops at a table in frame 0, which the hardware does not: `table_fetch` returns 0 both
for such a table and for none.
-/

namespace ToastyUnix.Mm

open Paging Option

/-- One of the tables below the top table is in frame 0. -/
def StopsAtZero (mem : Memory) (r v : ℕ) : Prop :=
  tableOn mem r v 1 = some 0 ∨ tableOn mem r v 2 = some 0 ∨ tableOn mem r v 3 = some 0

instance (mem : Memory) (r v : ℕ) : Decidable (StopsAtZero mem r v) :=
  inferInstanceAs (Decidable (_ ∨ _))

theorem stopsAtZero_iff {mem : Memory} {r v : ℕ} :
    StopsAtZero mem r v ↔ ∃ m, 1 ≤ m ∧ m ≤ 3 ∧ tableOn mem r v m = some 0 := by
  constructor
  · rintro (hstop | hstop | hstop)
    exacts [⟨1, by decide, by decide, hstop⟩, ⟨2, by decide, by decide, hstop⟩,
      ⟨3, by decide, by decide, hstop⟩]
  · rintro ⟨m, hpos, hm, hstop⟩
    obtain rfl | rfl | rfl : m = 1 ∨ m = 2 ∨ m = 3 := by omega
    exacts [.inl hstop, .inr (.inl hstop), .inr (.inr hstop)]

/-- The physical address that the tables give for `virt`, or 0. -/
def translation (mem : Memory) (r virt : ℕ) : BitVec 64 :=
  if StopsAtZero mem r (pageOf virt) then 0
  else
    match frameAt mem r (pageOf virt) with
    | none => 0
    | some f => ofFrame f ||| BitVec.ofNat 64 (virt % 4096)

theorem translation_eq_zero {mem : Memory} {r v addr m : ℕ} (haddr : pageOf addr = v)
    (hno : NoLarge mem r v) (hpos : 1 ≤ m) (hm : m ≤ 3)
    (h : tableOn mem r v m = some 0 ∨ tableOn mem r v m = none) : translation mem r addr = 0 := by
  rw [translation, haddr]
  rcases h with hzero | hnone
  · rw [if_pos (stopsAtZero_iff.mpr ⟨m, hpos, hm, hzero⟩)]
  · rw [hno.frameAt, tableOn_none hnone hm]
    split <;> rfl

namespace State

variable {s : State} {cr3 : BitVec 64} {virt t n : ℕ}

theorem digit_pml4 (virt : ℕ) : virt / 2 ^ 39 % 512 = digit (pageOf virt) 0 := pml4Idx_eq virt
theorem digit_pdpt (virt : ℕ) : virt / 2 ^ 30 % 512 = digit (pageOf virt) 1 := pdptIdx_eq virt
theorem digit_pd (virt : ℕ) : virt / 2 ^ 21 % 512 = digit (pageOf virt) 2 := pdIdx_eq virt

theorem digit_pt (virt : ℕ) : virt / 2 ^ 12 % 512 = digit (pageOf virt) 3 := by
  rw [ptIdx_eq, digit, Nat.sub_self, pow_zero, Nat.div_one]

variable {i : ℕ} {update : BitVec 64 → BitVec 64}

/-- A level of the walk to an existing table. -/
theorem walkLevel_next {r v u : ℕ} (stride flag : BitVec 64) (allocate : Bool)
    (ht : tableOn s.mem r v n = some t) (hu : tableOn s.mem r v (n + 1) = some u) :
    s.walkLevel t (digit v n) stride flag allocate = (if u = 0 then none else some u, s) := by
  obtain ⟨t', ht', hpresent, hlarge, rfl⟩ := tableOn_eq_some hu
  obtain rfl := some.inj (ht'.symm.trans ht)
  exact walkLevel_present _ _ _ hlarge hpresent

/-- A level of a lookup where the next table is missing. -/
theorem walkLevel_missing {r v : ℕ} (stride flag : BitVec 64) (hno : NoLarge s.mem r v)
    (hn : n ≤ 2) (ht : tableOn s.mem r v n = some t) (hnone : tableOn s.mem r v (n + 1) = none) :
    s.walkLevel t (digit v n) stride flag false = (none, s) := by
  have hlarge := hno n hn t ht
  refine walkLevel_absent _ _ hlarge ?_
  simpa [tableOn_succ ht, hlarge] using hnone

/-- What an update keeps of an entry, a run of updates keeps of all. -/
theorem updateEntries_related {R : BitVec 64 → BitVec 64 → Prop} (hrefl : ∀ e, R e e)
    (htrans : ∀ {e e' e''}, R e e' → R e' e'' → R e e'')
    (hupdate : ∀ e, R e (update e)) (entries : List (ℕ × ℕ)) (t i : ℕ) :
    R (s.mem t i) ((s.updateEntries update entries).mem t i) := by
  induction entries generalizing s with
  | nil => exact hrefl _
  | cons p entries ih =>
    refine htrans ?_ (ih (s := { s with mem := s.mem.write p.1 p.2 (update (s.mem p.1 p.2)) }))
    simp only [Memory.write]
    split
    case isTrue hsame =>
      obtain ⟨rfl, rfl⟩ := hsame
      exact hupdate _
    case isFalse => exact hrefl _

/-- The states differ in the flags of table entries only. -/
structure SameLinks (s s' : State) : Prop where
  links : ∀ t i, SameLink (s.mem t i) (s'.mem t i)
  pmm : s'.pmm = s.pmm
  rootCr3 : s'.rootCr3 = s.rootCr3

/-- In addition entries that allow writes still do. -/
structure Reflagged (s s' : State) : Prop extends SameLinks s s' where
  writes : ∀ t i, (s.mem t i).getLsbD 1 → (s'.mem t i).getLsbD 1

theorem SameLinks.sameWalk {s' : State} (h : SameLinks s s') (r v : ℕ) :
    SameWalk s.mem s'.mem r v :=
  fun _ _ _ _ ↦ h.links _ _

theorem updateEntries_sameLinks (hupdate : ∀ e, SameLink e (update e)) (entries : List (ℕ × ℕ)) :
    SameLinks s (s.updateEntries update entries) := by
  refine ⟨updateEntries_related (fun _ ↦ ⟨rfl, rfl, rfl⟩) .trans hupdate entries, ?_, ?_⟩
  · induction entries generalizing s with
    | nil => rfl
    | cons p entries ih => exact ih
  · exact (s.sameSpace_updateEntries update entries).rootCr3

theorem updateEntries_reflagged (hupdate : ∀ e, SameLink e (update e))
    (hwrites : ∀ e : BitVec 64, e.getLsbD 1 → (update e).getLsbD 1) (entries : List (ℕ × ℕ)) :
    Reflagged s (s.updateEntries update entries) :=
  ⟨updateEntries_sameLinks hupdate entries,
    updateEntries_related (R := fun e e' ↦ e.getLsbD 1 → e'.getLsbD 1) (fun _ he ↦ he)
      (fun h h' he ↦ h' (h he)) hwrites entries⟩

theorem reflagged (user : Bool) (entries : List (ℕ × ℕ)) : Reflagged s (s.reflag user entries) := by
  have hnx := s.updateEntries_reflagged Owned.sameLink_and_not_PTE_NX
    (fun e he ↦ by rw [BitVec.getLsbD_and, he]; rfl) entries
  rw [reflag]
  split
  · have huser := (s.updateEntries (fun e ↦ e &&& ~~~PTE_NX) entries).updateEntries_reflagged
      Owned.sameLink_or_VMM_USER (fun e he ↦ by rw [BitVec.getLsbD_or, he]; rfl) entries
    exact ⟨⟨fun t i ↦ (hnx.links t i).trans (huser.links t i), huser.pmm.trans hnx.pmm,
      huser.rootCr3.trans hnx.rootCr3⟩, fun t i he ↦ huser.writes t i (hnx.writes t i he)⟩
  · exact hnx

/-- Without a new table `walk_pt` ends at the last table on the way and changes flags only. It
changes nothing where there is no such table, or where a table is in frame 0. -/
theorem walkPt_existing (allocate user : Bool)
    (h : allocate = false ∧ NoLarge s.mem (frameOf cr3) (pageOf virt) ∨
      StopsAtZero s.mem (frameOf cr3) (pageOf virt) ∨
      tableOn s.mem (frameOf cr3) (pageOf virt) 3 ≠ none) :
    (StopsAtZero s.mem (frameOf cr3) (pageOf virt) ∨
        tableOn s.mem (frameOf cr3) (pageOf virt) 3 = none) ∧
      s.walkPt cr3 virt allocate user = (none, s) ∨
    ¬StopsAtZero s.mem (frameOf cr3) (pageOf virt) ∧
      ∃ t s', tableOn s.mem (frameOf cr3) (pageOf virt) 3 = some t ∧
        s.walkPt cr3 virt allocate user = (some (t, digit (pageOf virt) 3), s') ∧
        Reflagged s s' := by
  refine (walkPt_rule virt allocate user (fun n t _ s1 ↦ s1 = s ∧
    tableOn s.mem (frameOf cr3) (pageOf virt) n = some t ∧
    ∀ m, 1 ≤ m → m ≤ n → tableOn s.mem (frameOf cr3) (pageOf virt) m ≠ some 0)
    (fun s1 ↦ s1 = s ∧ (StopsAtZero s.mem (frameOf cr3) (pageOf virt) ∨
      tableOn s.mem (frameOf cr3) (pageOf virt) 3 = none))
    ⟨rfl, rfl, by omega⟩ ?level).imp ?_ ?_
  case level =>
    rintro n t entries s1 result s2 stride flag hn - ⟨rfl, ht, hzero⟩ heq
    rw [← digit] at heq
    cases hu : tableOn s1.mem (frameOf cr3) (pageOf virt) (n + 1) with
    | none =>
      have hlast := tableOn_none hu (show n + 1 ≤ 3 by omega)
      rcases h with ⟨rfl, hno⟩ | hstop | hfound
      · rw [walkLevel_missing _ _ hno hn ht hu] at heq
        obtain ⟨rfl, rfl⟩ := Prod.mk.inj heq
        exact ⟨fun _ ↦ ⟨rfl, .inr hlast⟩, by simp⟩
      · obtain ⟨m, hpos, hm, hstop⟩ := stopsAtZero_iff.mp hstop
        by_cases hmn : m ≤ n
        · exact absurd hstop (hzero m hpos hmn)
        · simp [tableOn_none hu (show n + 1 ≤ m by omega)] at hstop
      · exact absurd hlast hfound
    | some u =>
      rw [walkLevel_next _ _ _ ht hu] at heq
      obtain ⟨rfl, rfl⟩ := Prod.mk.inj heq
      by_cases hstop : u = 0
      · subst hstop
        exact ⟨fun _ ↦ ⟨rfl, .inl (stopsAtZero_iff.mpr ⟨n + 1, by omega, by omega, hu⟩)⟩, by simp⟩
      · rw [if_neg hstop]
        refine ⟨by simp, fun u' hu' ↦ ⟨rfl, hu', fun m hpos hm ↦ ?_⟩⟩
        rcases Nat.le_succ_iff.mp hm with hm | rfl
        · exact hzero m hpos hm
        · rw [hu]
          exact fun heq ↦ hstop (some.inj heq)
  · rintro ⟨hresult, hsame, hstop⟩
    exact ⟨hstop, Prod.ext hresult hsame⟩
  · rintro ⟨t, entries, s1, ⟨rfl, ht, hzero⟩, heq⟩
    refine ⟨fun hstop ↦ ?_, t, _, ht, by simpa [digit] using heq, reflagged user entries⟩
    obtain ⟨m, hpos, hm, hstop⟩ := stopsAtZero_iff.mp hstop
    exact hzero m hpos hm hstop

/-- A lookup finds the last table unless it stops at frame 0, and changes flags only. -/
theorem walkPt_lookup (user : Bool) (hno : NoLarge s.mem (frameOf cr3) (pageOf virt)) :
    (s.walkPt cr3 virt false user).1 =
      (if StopsAtZero s.mem (frameOf cr3) (pageOf virt) then none
        else (tableOn s.mem (frameOf cr3) (pageOf virt) 3).map (·, digit (pageOf virt) 3)) ∧
    Reflagged s (s.walkPt cr3 virt false user).2 := by
  rcases s.walkPt_existing false user (.inl ⟨rfl, hno⟩) with
    ⟨hnone, heq⟩ | ⟨hgoes, t, s', ht, heq, hflags⟩
  · rw [heq]
    refine ⟨?_, ⟨⟨fun _ _ ↦ ⟨rfl, rfl, rfl⟩, rfl, rfl⟩, fun _ _ he ↦ he⟩⟩
    split
    case isTrue => rfl
    case isFalse hgoes => rw [hnone.resolve_left hgoes, map_none]
  · rw [if_neg hgoes, ht, heq]
    exact ⟨rfl, hflags⟩

/-- Without large pages on the way `vmm_translate_in` gives the tables' translation. -/
theorem vmmTranslateIn_eq (hno : NoLarge s.mem (frameOf cr3) (pageOf virt)) :
    (s.vmmTranslateIn cr3 virt).1 = translation s.mem (frameOf cr3) virt ∧
      Reflagged s (s.vmmTranslateIn cr3 virt).2 := by
  obtain ⟨hresult, hlinks⟩ := s.walkPt_lookup false hno
  have hframe := hno.frameAt
  rw [translation]
  unfold vmmTranslateIn
  split
  case h_1 s' heq =>
    rw [heq] at hresult hlinks
    refine ⟨?_, hlinks⟩
    split at hresult
    case isTrue hzero => rw [if_pos hzero]
    case isFalse hgoes =>
      rw [if_neg hgoes, hframe, map_eq_none_iff.mp hresult.symm]
      rfl
  case h_2 t i s' heq =>
    rw [heq] at hresult hlinks
    split at hresult
    case isTrue => simp at hresult
    case isFalse hgoes =>
      obtain ⟨u, hu, hti⟩ := map_eq_some_iff.mp hresult.symm
      obtain ⟨rfl, rfl⟩ := Prod.mk.inj hti
      obtain ⟨hpresent, _, htarget⟩ := hlinks.links u (digit (pageOf virt) 3)
      rw [if_neg hgoes, hframe, hu, bind_some]
      have haddr : s'.mem u (digit (pageOf virt) 3) &&& PTE_ADDR_MASK =
          ofFrame (target (s.mem u (digit (pageOf virt) 3))) := by
        rw [← htarget, ofFrame_target]
        rfl
      rw [haddr]
      by_cases hp : present (s.mem u (digit (pageOf virt) 3))
      · have hentry : ¬(s'.mem u (digit (pageOf virt) 3) &&& VMM_PRESENT = 0) :=
          and_VMM_PRESENT_ne_zero.mpr (hpresent.trans hp)
        rw [if_neg hentry, if_pos hp]
        exact ⟨rfl, hlinks⟩
      · have hentry : s'.mem u (digit (pageOf virt) 3) &&& VMM_PRESENT = 0 := by
          by_contra hne
          exact hp (hpresent.symm.trans (and_VMM_PRESENT_ne_zero.mp hne))
        rw [if_pos hentry, if_neg hp]
        exact ⟨rfl, hlinks⟩

end State

/-- The pages in `edited` are apart from `watched`, and no free frame is a table of one. -/
structure Separated (s : State) (edited watched : ℕ → ℕ → Prop) : Prop where
  sub : ∀ r v, edited r v → watched r v
  apart : Apart s.mem edited watched
  fresh : ∀ {f r w m}, s.pmm.IsFree f → watched r w → m ≤ 3 → tableOn s.mem r w m ≠ some f
  total : s.pmm.totalFrames ≤ MAX_FRAMES

/-- The watched pages are mapped in `s'` as they are in `s`. -/
structure SameMaps (watched : ℕ → ℕ → Prop) (s s' : State) : Prop where
  frameAt : ∀ {r w}, watched r w → frameAt s'.mem r w = frameAt s.mem r w
  zero : ∀ {r w m}, watched r w → m ≤ 3 →
    (tableOn s'.mem r w m = some 0 ↔ tableOn s.mem r w m = some 0)
  noLarge : ∀ {r w}, watched r w → NoLarge s.mem r w → NoLarge s'.mem r w
  rootCr3 : s'.rootCr3 = s.rootCr3

namespace SameMaps

variable {watched : ℕ → ℕ → Prop} {s s' s'' : State}

theorem refl (watched : ℕ → ℕ → Prop) (s : State) : SameMaps watched s s :=
  ⟨fun _ ↦ rfl, fun _ _ ↦ Iff.rfl, fun _ h ↦ h, rfl⟩

theorem trans (h : SameMaps watched s s') (h' : SameMaps watched s' s'') :
    SameMaps watched s s'' where
  frameAt hw := (h'.frameAt hw).trans (h.frameAt hw)
  zero hw hm := (h'.zero hw hm).trans (h.zero hw hm)
  noLarge hw hno := h'.noLarge hw (h.noLarge hw hno)
  rootCr3 := h'.rootCr3.trans h.rootCr3

theorem others {r v : ℕ} (h : SameMaps watched s s') :
    SameMaps (fun r' w ↦ watched r' w ∧ ¬(r' = r ∧ w = v)) s s' :=
  ⟨fun hw ↦ h.frameAt hw.1, fun hw ↦ h.zero hw.1, fun hw ↦ h.noLarge hw.1, h.rootCr3⟩

theorem translation {r virt : ℕ} (h : SameMaps watched s s') (hw : watched r (pageOf virt)) :
    translation s'.mem r virt = translation s.mem r virt := by
  have hzero : StopsAtZero s'.mem r (pageOf virt) ↔ StopsAtZero s.mem r (pageOf virt) :=
    or_congr (h.zero hw (by decide)) (or_congr (h.zero hw (by decide)) (h.zero hw (by decide)))
  simp only [Mm.translation, hzero, h.frameAt hw]

end SameMaps

namespace Separated

variable {s : State} {edited watched : ℕ → ℕ → Prop} {r v n t : ℕ}

section

variable (h : Separated s edited watched)
include h

/-- Memory in which the walks to the watched pages find the same links. -/
theorem setMemory {mem : Memory} (hwalk : ∀ r w, watched r w → SameWalk s.mem mem r w) :
    Separated { s with mem := mem } edited watched ∧ SameMaps watched s { s with mem := mem } where
  left :=
    { sub := h.sub
      apart := by
        intro r v n t hv hn ht r' w m hw hm hu
        rw [(hwalk _ _ (h.sub _ _ hv)).tableOn (by omega)] at ht
        rw [(hwalk _ _ hw).tableOn (by omega)] at hu
        exact h.apart hv hn ht hw hm hu
      fresh := by
        intro f r w m hf hw hm
        rw [(hwalk _ _ hw).tableOn (by omega)]
        exact h.fresh hf hw hm
      total := h.total }
  right :=
    { frameAt := fun hw ↦ (hwalk _ _ hw).frameAt
      zero := fun hw hm ↦ by rw [(hwalk _ _ hw).tableOn (by omega)]
      noLarge := fun hw hno ↦ (hwalk _ _ hw).noLarge hno
      rootCr3 := rfl }

theorem allocFrame :
    Separated s.allocFrame.2 edited watched ∧ SameMaps watched s s.allocFrame.2 where
  left :=
    { h with
      fresh := fun hf hw hm ↦ h.fresh (Pmm.isFree_of_pmmAllocFrame hf) hw hm
      total := by simpa [State.allocFrame] using h.total }
  right := ⟨fun _ ↦ rfl, fun _ _ ↦ Iff.rfl, fun _ hno ↦ hno, rfl⟩

theorem sameLinks {s' : State} (hlinks : s.SameLinks s') :
    Separated s' edited watched ∧ SameMaps watched s s' := by
  obtain ⟨hsep, hsame⟩ := h.setMemory fun r w _ ↦ hlinks.sameWalk r w
  refine ⟨⟨h.sub, hsep.apart, ?_, ?_⟩, ⟨hsame.frameAt, hsame.zero, hsame.noLarge, hlinks.rootCr3⟩⟩
  · rw [hlinks.pmm]
    exact hsep.fresh
  · rw [hlinks.pmm]
    exact h.total

/-- A new table below an absent entry on the way to an edited page. -/
theorem linkTable {g : ℕ} (hv : edited r v) (hn : n ≤ 2) (ht : tableOn s.mem r v n = some t)
    (habsent : present (s.mem t (digit v n)) = false)
    (hg : ∀ {r w m}, watched r w → m ≤ 3 → tableOn s.mem r w m ≠ some g) (hused : ¬s.pmm.IsFree g)
    (hzero : g ≠ 0) (hlt : g < 2 ^ 40) :
    Separated (s.linkTable t (digit v n) (ofFrame g)) edited watched ∧
      SameMaps watched s (s.linkTable t (digit v n) (ofFrame g)) ∧
      tableOn (s.linkTable t (digit v n) (ofFrame g)).mem r v (n + 1) = some g ∧
      ∀ {r' w m f}, watched r' w → m ≤ 3 →
        (tableOn s.mem r' w m = some f →
          tableOn (s.linkTable t (digit v n) (ofFrame g)).mem r' w m = some f) ∧
        (tableOn (s.linkTable t (digit v n) (ofFrame g)).mem r' w m = some f →
          f = g ∨ tableOn s.mem r' w m = some f) := by
  have hclear : ∀ r w, watched r w → SameWalk s.mem (s.mem.fill g fun _ ↦ 0) r w :=
    fun r w hw ↦ sameWalk_fill fun m hm ↦ hg hw hm
  obtain ⟨hsep, hsame⟩ := h.setMemory hclear
  have hgt : t ≠ g := by
    rintro rfl
    exact hg (h.sub _ _ hv) (by omega) ht
  have hnew : NewTable (s.mem.fill g fun _ ↦ 0) watched r v n t g (linkEntry g) :=
    { bound := hn
      table := by rwa [(hclear _ _ (h.sub _ _ hv)).tableOn (by omega)]
      absent := by rwa [s.mem.fill_of_ne _ hgt]
      fresh := fun hw hm ↦ by
        rw [(hclear _ _ hw).tableOn (by omega)]
        exact hg hw hm
      empty := fun i ↦ by simp
      present := present_linkEntry g
      large := large_linkEntry g
      target := target_linkEntry hlt }
  have hmem := s.linkTable_mem t (digit v n) hlt
  have htables := fun {r' w m : ℕ} (hw : watched r' w) (hm : m ≤ 3) ↦
    hsep.apart.tableOn_newTable h.sub hv hnew hw hm
  refine ⟨⟨h.sub, ?_, ?_, h.total⟩, hsame.trans ⟨?_, ?_, ?_, rfl⟩, ?_, ?_⟩
  · rw [hmem]
    exact hsep.apart.newTable h.sub hv hnew
  · intro f r' w m hf hw hm
    rw [hmem, htables hw hm]
    split
    · rintro hfg
      exact hused (some.inj hfg ▸ hf)
    · exact hsep.fresh hf hw hm
  · intro r' w hw
    rw [hmem]
    exact hsep.apart.frameAt_newTable h.sub hv hnew hw
  · intro r' w m hw hm
    rw [hmem, htables hw hm]
    split
    case isTrue hbelow =>
      obtain ⟨rfl, rfl, hdigits⟩ := hbelow
      have hold := hnew.tableOn_eq_none hdigits
      exact ⟨fun heq ↦ absurd (some.inj heq) hzero,
        fun heq ↦ absurd (hold.symm.trans heq) (by simp)⟩
    case isFalse => rfl
  · intro r' w hw hno
    rw [hmem]
    exact hsep.apart.noLarge_newTable h.sub hv hnew hw hno
  · rw [hmem, htables (h.sub _ _ hv) (by omega), if_pos ⟨rfl, rfl, rfl⟩]
  · intro r' w m f hw hm
    rw [hmem, htables hw hm, ← (hclear _ _ hw).tableOn (by omega)]
    split
    case isTrue hbelow =>
      obtain ⟨rfl, rfl, hdigits⟩ := hbelow
      rw [hnew.tableOn_eq_none hdigits]
      exact ⟨fun hf ↦ by simp at hf, fun hf ↦ .inl (some.inj hf).symm⟩
    case isFalse => exact ⟨fun hf ↦ hf, .inr⟩

end

/-- A level of the walk to an edited page ends in the next table, or the software would use none. -/
theorem walkLevel (stride flag : BitVec 64) (allocate : Bool) (h : Separated s edited watched)
    (hv : edited r v) (hn : n ≤ 2) (ht : tableOn s.mem r v n = some t) (hno : NoLarge s.mem r v) :
    Separated (s.walkLevel t (digit v n) stride flag allocate).2 edited watched ∧
      SameMaps watched s (s.walkLevel t (digit v n) stride flag allocate).2 ∧
      (∀ u, (s.walkLevel t (digit v n) stride flag allocate).1 = some u → u ≠ 0 ∧
        tableOn (s.walkLevel t (digit v n) stride flag allocate).2.mem r v (n + 1) = some u) ∧
      ((s.walkLevel t (digit v n) stride flag allocate).1 = none →
        tableOn s.mem r v (n + 1) = some 0 ∨ tableOn s.mem r v (n + 1) = none) := by
  have hlarge := hno n hn t ht
  have hnext := tableOn_succ ht
  cases hpresent : present (s.mem t (digit v n)) with
  | true =>
    rw [if_pos ⟨hpresent, hlarge⟩] at hnext
    rw [State.walkLevel_present _ _ _ hlarge hpresent]
    refine ⟨h, .refl _ _, ?_, ?_⟩
    · intro u hu
      split at hu
      case isTrue => simp at hu
      case isFalse hne =>
        obtain rfl := some.inj hu
        exact ⟨hne, hnext⟩
    · intro hnone
      split at hnone
      case isTrue hzero => exact .inl (hzero ▸ hnext)
      case isFalse => simp at hnone
  | false =>
    rw [if_neg (by simp [hpresent])] at hnext
    cases allocate with
    | false =>
      rw [State.walkLevel_absent _ _ hlarge hpresent]
      exact ⟨h, .refl _ _, by simp, fun _ ↦ .inr hnext⟩
    | true =>
      rw [State.walkLevel_new _ _ hlarge hpresent]
      obtain ⟨halloc, hsame⟩ := h.allocFrame
      split
      case isTrue => exact ⟨halloc, hsame, by simp, fun _ ↦ .inr hnext⟩
      case isFalse hphys =>
        obtain ⟨g, hzero, hlt, haddr, hfree, hused⟩ := Pmm.pmmAllocFrame_eq_frame h.total hphys
        obtain ⟨hlinked, hlinkedSame, hnew, _⟩ := halloc.linkTable hv hn ht hpresent
          (fun hw hm ↦ h.fresh hfree hw hm) hused hzero hlt
        rw [show s.allocFrame.1 = ofFrame g from haddr, frameOf_ofFrame hlt]
        refine ⟨hlinked, hsame.trans hlinkedSame, ?_, by simp⟩
        intro u hu
        obtain rfl := some.inj hu
        exact ⟨hzero, hnew⟩

section Pages

variable {cr3 : BitVec 64} {virt : ℕ}

/-- The walk to an edited page changes no page, and ends at its entry unless the page does not
translate. -/
theorem walkPt (allocate user : Bool) (h : Separated s edited watched)
    (hv : edited (frameOf cr3) (pageOf virt)) (hno : NoLarge s.mem (frameOf cr3) (pageOf virt)) :
    Separated (s.walkPt cr3 virt allocate user).2 edited watched ∧
      SameMaps watched s (s.walkPt cr3 virt allocate user).2 ∧
      (∀ t i, (s.walkPt cr3 virt allocate user).1 = some (t, i) → i = digit (pageOf virt) 3 ∧
        tableOn (s.walkPt cr3 virt allocate user).2.mem (frameOf cr3) (pageOf virt) 3 = some t ∧
        ¬StopsAtZero (s.walkPt cr3 virt allocate user).2.mem (frameOf cr3) (pageOf virt)) ∧
      ((s.walkPt cr3 virt allocate user).1 = none → ∀ addr, pageOf addr = pageOf virt →
        translation s.mem (frameOf cr3) addr = 0) := by
  have hw := h.sub _ _ hv
  refine (State.walkPt_rule virt allocate user (fun n t _ s1 ↦ Separated s1 edited watched ∧
    SameMaps watched s s1 ∧ tableOn s1.mem (frameOf cr3) (pageOf virt) n = some t ∧
    ∀ m, 1 ≤ m → m ≤ n → tableOn s1.mem (frameOf cr3) (pageOf virt) m ≠ some 0)
    (fun s1 ↦ Separated s1 edited watched ∧ SameMaps watched s s1 ∧
      ∀ addr, pageOf addr = pageOf virt → translation s.mem (frameOf cr3) addr = 0)
    ⟨h, .refl _ _, rfl, by omega⟩ ?level).elim ?_ ?_
  case level =>
    rintro n t entries s1 result s2 stride flag hn - ⟨h1, hsame1, ht, hzero⟩ heq
    have hno1 := hsame1.noLarge hw hno
    obtain ⟨h2, hsame2, hfound, hnone⟩ := h1.walkLevel stride flag allocate hv hn ht hno1
    rw [digit, heq] at h2 hsame2 hfound hnone
    refine ⟨fun hresult ↦ ⟨h2, hsame1.trans hsame2, fun addr haddr ↦ ?_⟩,
      fun u hu ↦ ⟨h2, hsame1.trans hsame2, (hfound u hu).2, fun m hpos hm ↦ ?_⟩⟩
    · rw [← hsame1.translation (haddr ▸ hw)]
      exact translation_eq_zero haddr hno1 (by omega) (by omega) (hnone hresult)
    · rcases Nat.le_succ_iff.mp hm with hm | rfl
      · exact (hsame2.zero hw (by omega)).not.mpr (hzero m hpos hm)
      · rw [(hfound u hu).2]
        exact fun heq ↦ (hfound u hu).1 (some.inj heq)
  · rintro ⟨hresult, h1, hsame1, htranslation⟩
    exact ⟨h1, hsame1, by simp [hresult], fun _ ↦ htranslation⟩
  · rintro ⟨t, entries, s1, ⟨h1, hsame1, ht, hzero⟩, heq⟩
    have hflags := s1.reflagged user entries
    have htables := hflags.sameWalk (frameOf cr3) (pageOf virt)
    obtain ⟨h2, hsame2⟩ := h1.sameLinks hflags.toSameLinks
    rw [heq]
    refine ⟨h2, hsame1.trans hsame2, fun t' i hti ↦ ?_, by simp⟩
    obtain ⟨rfl, rfl⟩ : t = t' ∧ pageOf virt % 512 = i := by simpa using hti
    refine ⟨by simp [digit], (htables.tableOn (by decide)).trans ht, ?_⟩
    intro hstop
    obtain ⟨m, hpos, hm, hstop⟩ := stopsAtZero_iff.mp hstop
    exact hzero m hpos hm ((htables.tableOn (by omega)).symm.trans hstop)

/-- Writing the entry of an edited page that the software reaches shows there only. -/
theorem writeLeaf {e : BitVec 64} (h : Separated s edited watched)
    (hv : edited r (pageOf virt)) (hno : NoLarge s.mem r (pageOf virt))
    (hgoes : ¬StopsAtZero s.mem r (pageOf virt)) (ht : tableOn s.mem r (pageOf virt) 3 = some t) :
    Separated { s with mem := s.mem.write t (digit (pageOf virt) 3) e } edited watched ∧
      SameMaps (fun r' w ↦ watched r' w ∧ ¬(r' = r ∧ w = pageOf virt)) s
        { s with mem := s.mem.write t (digit (pageOf virt) 3) e } ∧
      (∀ {r' w}, watched r' w → NoLarge s.mem r' w →
        NoLarge (s.mem.write t (digit (pageOf virt) 3) e) r' w) ∧
      ∀ addr, pageOf addr = pageOf virt →
        translation (s.mem.write t (digit (pageOf virt) 3) e) r addr =
          if present e then ofFrame (target e) ||| BitVec.ofNat 64 (addr % 4096) else 0 := by
  have htables := fun {r' w m : ℕ} (hw : watched r' w) (hm : m ≤ 3) ↦
    h.apart.tableOn_write (e := e) hv ht hw hm
  have hlarge := fun {r' w : ℕ} (hw : watched r' w) (hno : NoLarge s.mem r' w) ↦
    h.apart.noLarge_write (e := e) hv ht hw hno
  have hw := h.sub _ _ hv
  refine ⟨⟨h.sub, h.apart.write h.sub hv ht, ?_, h.total⟩, ⟨?_, ?_, ?_, rfl⟩, hlarge, ?_⟩
  · intro f r' w m hf hw hm
    rw [htables hw hm]
    exact h.fresh hf hw hm
  · exact fun hw ↦ (h.apart.sameWalk_write hv ht hw.1 hw.2).frameAt
  · exact fun hw hm ↦ by rw [htables hw.1 hm]
  · exact fun hw hno ↦ hlarge hw.1 hno
  · intro addr haddr
    have hgoes' : ¬StopsAtZero (s.mem.write t (digit (pageOf virt) 3) e) r (pageOf addr) := by
      simpa [StopsAtZero, htables hw, haddr] using hgoes
    rw [translation, if_neg hgoes', haddr, (hlarge hw hno).frameAt, htables hw le_rfl, ht,
      bind_some, Memory.write_self]
    cases present e <;> rfl

/-- `vmm_map_page_in` on an edited page. -/
theorem vmmMapPageIn (phys flags : BitVec 64) (h : Separated s edited watched)
    (hv : edited (frameOf cr3) (pageOf virt)) (hno : NoLarge s.mem (frameOf cr3) (pageOf virt)) :
    Separated (s.vmmMapPageIn cr3 virt phys flags).2 edited watched ∧
      SameMaps (fun r' w ↦ watched r' w ∧ ¬(r' = frameOf cr3 ∧ w = pageOf virt)) s
        (s.vmmMapPageIn cr3 virt phys flags).2 ∧
      (∀ {r' w}, watched r' w → NoLarge s.mem r' w →
        NoLarge (s.vmmMapPageIn cr3 virt phys flags).2.mem r' w) ∧
      ((s.vmmMapPageIn cr3 virt phys flags).1 ≠ 0 →
        SameMaps watched s (s.vmmMapPageIn cr3 virt phys flags).2) ∧
      ((s.vmmMapPageIn cr3 virt phys flags).1 = 0 → phys &&& 0xFFF = 0 ∧
        ∀ addr, pageOf addr = pageOf virt →
          translation (s.vmmMapPageIn cr3 virt phys flags).2.mem (frameOf cr3) addr =
            ofFrame (target ((phys &&& PTE_ADDR_MASK) ||| flags)) |||
              BitVec.ofNat 64 (addr % 4096)) := by
  have hw := h.sub _ _ hv
  obtain ⟨hsep, hsame, hfound, _⟩ := h.walkPt true (decide (flags &&& VMM_USER ≠ 0)) hv hno
  rw [State.vmmMapPageIn]
  split
  case isTrue =>
    exact ⟨h, (SameMaps.refl _ _).others, fun _ hno ↦ hno, fun _ ↦ .refl _ _, fun hz ↦ by simp at hz⟩
  case isFalse hargs =>
    split
    case h_1 s' heq =>
      rw [heq] at hsep hsame
      exact ⟨hsep, hsame.others, hsame.noLarge, fun _ ↦ hsame, fun hz ↦ by simp at hz⟩
    case h_2 t i s' heq =>
      rw [heq] at hsep hsame hfound
      obtain ⟨rfl, ht, hgoes⟩ := hfound t i rfl
      obtain ⟨hwritten, hothers, hlarge, htranslate⟩ := hsep.writeLeaf
        (e := (phys &&& PTE_ADDR_MASK) ||| flags ||| VMM_PRESENT) hv (hsame.noLarge hw hno) hgoes ht
      refine ⟨hwritten, hsame.others.trans hothers,
        fun hw hno ↦ hlarge hw (hsame.noLarge hw hno), fun hne ↦ absurd rfl hne, fun _ ↦ ?_⟩
      refine ⟨by tauto, fun addr haddr ↦ ?_⟩
      rw [htranslate addr haddr, if_pos (by simp [show present VMM_PRESENT = true by decide]),
        target_or (by decide)]

/-- `vmm_unmap_page_in` on an edited page. -/
theorem vmmUnmapPageIn (h : Separated s edited watched)
    (hv : edited (frameOf cr3) (pageOf virt)) (hno : NoLarge s.mem (frameOf cr3) (pageOf virt)) :
    Separated (s.vmmUnmapPageIn cr3 virt) edited watched ∧
      SameMaps (fun r' w ↦ watched r' w ∧ ¬(r' = frameOf cr3 ∧ w = pageOf virt)) s
        (s.vmmUnmapPageIn cr3 virt) ∧
      (∀ {r' w}, watched r' w → NoLarge s.mem r' w → NoLarge (s.vmmUnmapPageIn cr3 virt).mem r' w) ∧
      ∀ addr, pageOf addr = pageOf virt →
        translation (s.vmmUnmapPageIn cr3 virt).mem (frameOf cr3) addr = 0 := by
  have hw := h.sub _ _ hv
  obtain ⟨hsep, hsame, hfound, hnone⟩ := h.walkPt false false hv hno
  have hothers := hsame.others (r := frameOf cr3) (v := pageOf virt)
  unfold State.vmmUnmapPageIn
  split
  case h_1 s' heq =>
    rw [heq] at hsep hsame hothers hnone
    refine ⟨hsep, hothers, hsame.noLarge, fun addr haddr ↦ ?_⟩
    rw [hsame.translation (haddr ▸ hw)]
    exact hnone rfl addr haddr
  case h_2 t i s' heq =>
    rw [heq] at hsep hsame hothers hfound
    obtain ⟨rfl, ht, hgoes⟩ := hfound t i rfl
    obtain ⟨hwritten, hrest, hlarge, htranslate⟩ := hsep.writeLeaf (e := 0) hv
      (hsame.noLarge hw hno) hgoes ht
    refine ⟨hwritten, hothers.trans hrest, fun hw hno ↦ hlarge hw (hsame.noLarge hw hno), ?_⟩
    exact fun addr haddr ↦ htranslate addr haddr

end Pages

end Separated

end ToastyUnix.Mm
