import ToastyUnix.Lib.Paging

/-!
# Address spaces that keep their frames apart

A base space lends the upper half of its top table to every other space; the lower half of each
space is its own. `Forest` gives every frame an owner: a frame that an entry of a lower half refers
to is owned by that very entry. The owners lead from a frame back to the one page it is mapped at,
so no frame is mapped twice and no table is mapped at all.

`Forest.rewrite`, `Forest.congr_tables`, `Forest.adopt`, `Forest.release` and `Forest.addTop` are the edits
that preserve the forest. The lemmas after them say what those edits do to the mapped pages.
-/

namespace ToastyUnix.Paging

open Function Memory

/-- Who holds a frame: nobody, the base tables, a space as its top table, or entry `i` of table `t`,
which leads to depth `d`. -/
inductive Owner
  | nobody
  | base
  | top
  | entry (t i d : ℕ)
deriving DecidableEq

/-- Entry `i` of table `t` belongs to the lower half of a space and leads to depth `d`. -/
def LowerEntry (owner : ℕ → Owner) (t i d : ℕ) : Prop :=
  (owner t = .top ∧ i < 256 ∧ d = 3) ∨ (i < 512 ∧ ∃ u j, owner t = .entry u j (d + 1))

/-- Frame `t` is a table of some space. -/
def IsTable (owner : ℕ → Owner) (t : ℕ) : Prop :=
  owner t = .base ∨ owner t = .top ∨ ∃ u j d, owner t = .entry u j (d + 1)

/-- The lower halves of all spaces are trees without common frames. -/
structure Forest (mem : Memory) (base : ℕ) (owner : ℕ → Owner) : Prop where
  entries : ∀ {t i d}, LowerEntry owner t i d →
    large (mem t i) = false ∧ (present (mem t i) → owner (target (mem t i)) = .entry t i d)
  base_tables : ∀ {d t}, TableAt mem base d t → owner t = .base
  shared : ∀ {r i}, owner r = .top → 256 ≤ i → i < 512 → mem r i = mem base i

namespace LowerEntry

variable {owner : ℕ → Owner} {t i d : ℕ}

section

variable (h : LowerEntry owner t i d)
include h

theorem owner_ne_nobody : owner t ≠ .nobody := by
  rcases h with ⟨htop, _⟩ | ⟨_, u, j, hentry⟩
  · simp [htop]
  · simp [hentry]

theorem owner_ne_base : owner t ≠ .base := by
  rcases h with ⟨htop, _⟩ | ⟨_, u, j, hentry⟩
  · simp [htop]
  · simp [hentry]

theorem isTable : IsTable owner t := by
  rcases h with ⟨htop, _⟩ | ⟨_, u, j, hentry⟩
  · exact .inr (.inl htop)
  · exact .inr (.inr ⟨u, j, d, hentry⟩)

theorem index_lt_of_top (htop : owner t = .top) : i < 256 := by
  rcases h with ⟨_, hi, _⟩ | ⟨_, u, j, hentry⟩
  · exact hi
  · simp [htop] at hentry

theorem depth_unique {j d' : ℕ} (h' : LowerEntry owner t j d') : d = d' := by
  rcases h with ⟨htop, _, hd⟩ | ⟨_, u, k, hentry⟩ <;>
    rcases h' with ⟨htop', _, hd'⟩ | ⟨_, u', k', hentry'⟩ <;>
    simp_all

/-- Only the owner of the table itself matters. -/
theorem congr {owner' : ℕ → Owner} (howner : owner' t = owner t) : LowerEntry owner' t i d := by
  simpa only [LowerEntry, howner] using h

end

end LowerEntry

/-- The entries of a table owned by an entry. -/
theorem lowerEntry_of_entry {owner : ℕ → Owner} {t i d u j : ℕ}
    (h : owner t = .entry u j (d + 1)) (hi : i < 512) : LowerEntry owner t i d :=
  .inr ⟨hi, u, j, h⟩

namespace Forest

variable {mem : Memory} {base : ℕ} {owner : ℕ → Owner}

section

variable (h : Forest mem base owner)
include h

theorem base_owner : owner base = .base :=
  h.base_tables .top

/-- Memory that keeps the tables of the base space keeps their set. -/
theorem base_tables_congr {mem' : Memory} {d t : ℕ}
    (hmem : ∀ t i, owner t = .base → mem' t i = mem t i) (ht : TableAt mem' base d t) :
    owner t = .base :=
  h.base_tables (ht.congr fun _ u i hu ↦ hmem u i (h.base_tables hu))

variable {i g : ℕ}

/-- An entry of a lower half may be overwritten by one that refers to no frame or to one it owns. -/
theorem rewrite {t d : ℕ} {e : BitVec 64} (ht : LowerEntry owner t i d) (hlarge : large e = false)
    (hpresent : present e → owner (target e) = .entry t i d) :
    Forest (mem.write t i e) base owner where
  entries {u j k} hu := by
    by_cases hsame : u = t ∧ j = i
    · obtain ⟨rfl, rfl⟩ := hsame
      rw [write_self, hu.depth_unique ht]
      exact ⟨hlarge, hpresent⟩
    · rw [mem.write_of_ne e hsame]
      exact h.entries hu
  base_tables := by
    apply fun {_ _} ↦ h.base_tables_congr ?_
    intro u j hu
    apply mem.write_frame_of_ne
    rintro rfl
    exact ht.owner_ne_base hu
  shared {r j} hr hj hlt := by
    have hbase : base ≠ t := fun hsame ↦ ht.owner_ne_base (hsame ▸ h.base_owner)
    have hne : ¬(r = t ∧ j = i) := by
      rintro ⟨rfl, rfl⟩
      have := ht.index_lt_of_top hr
      omega
    rw [mem.write_of_ne e hne, mem.write_frame_of_ne e hbase, h.shared hr hj hlt]

/-- Frames that are no tables may hold anything. -/
theorem congr_tables {mem' : Memory} (hmem : ∀ t i, IsTable owner t → mem' t i = mem t i) :
    Forest mem' base owner where
  entries {u j k} hu := by
    rw [hmem u j hu.isTable]
    exact h.entries hu
  base_tables := by
    apply fun {_ _} ↦ h.base_tables_congr ?_
    exact fun u j hu ↦ hmem u j (.inl hu)
  shared {r j} hr hj hlt := by
    rw [hmem r j (.inr (.inl hr)), hmem base j (.inl h.base_owner), h.shared hr hj hlt]

theorem target_ne {t d : ℕ} (hg : owner g = .nobody) (ht : LowerEntry owner t i d)
    (hpresent : present (mem t i)) : target (mem t i) ≠ g := by
  intro hsame
  have howner := (h.entries ht).2 hpresent
  simp [hsame, hg] at howner

/-- A frame that nobody owns may be given to an entry; as a table it has to be empty. -/
theorem adopt {t d : ℕ} (hg : owner g = .nobody) (hempty : d ≠ 0 → ∀ j, mem g j = 0) :
    Forest mem base (update owner g (.entry t i d)) where
  entries {u j k} hu := by
    by_cases hsame : u = g
    · subst hsame
      have hd : d = k + 1 := by
        rcases hu with ⟨htop, _⟩ | ⟨_, u', j', hentry⟩
        · simp at htop
        · rw [update_self] at hentry
          injection hentry
      rw [hempty (by omega)]
      simp
    · have hold : LowerEntry owner u j k := hu.congr (by simp [hsame])
      refine ⟨(h.entries hold).1, fun hpresent ↦ ?_⟩
      rw [update_of_ne (h.target_ne hg hold hpresent)]
      exact (h.entries hold).2 hpresent
  base_tables {k u} hu := by
    have hbase := h.base_tables hu
    have hne : u ≠ g := by
      rintro rfl
      simp [hg] at hbase
    rwa [update_of_ne hne]
  shared {r j} hr hj hlt := by
    have hne : r ≠ g := by
      rintro rfl
      simp at hr
    rw [update_of_ne hne] at hr
    exact h.shared hr hj hlt

/-- A page that its entry no longer refers to may be given up. -/
theorem release {t : ℕ} (hg : owner g = .entry t i 0) (habsent : present (mem t i) = false) :
    Forest mem base (update owner g .nobody) where
  entries {u j k} hu := by
    have hne : u ≠ g := by
      rintro rfl
      exact hu.owner_ne_nobody (by simp)
    have hold : LowerEntry owner u j k := hu.congr (by simp [hne])
    refine ⟨(h.entries hold).1, fun hpresent ↦ ?_⟩
    have howner := (h.entries hold).2 hpresent
    have htarget : target (mem u j) ≠ g := by
      intro hsame
      rw [hsame, hg] at howner
      injection howner with ht hi _
      subst ht hi
      simp [habsent] at hpresent
    rwa [update_of_ne htarget]
  base_tables {k u} hu := by
    have hbase := h.base_tables hu
    have hne : u ≠ g := by
      rintro rfl
      simp [hg] at hbase
    rwa [update_of_ne hne]
  shared {r j} hr hj hlt := by
    have hne : r ≠ g := by
      rintro rfl
      simp at hr
    rw [update_of_ne hne] at hr
    exact h.shared hr hj hlt

/-- A frame that nobody owns becomes the top table of an empty lower half. -/
theorem addTop (hg : owner g = .nobody) (hlower : ∀ i < 256, mem g i = 0)
    (hupper : ∀ i, 256 ≤ i → i < 512 → mem g i = mem base i) :
    Forest mem base (update owner g .top) where
  entries {u j k} hu := by
    by_cases hsame : u = g
    · subst hsame
      rw [hlower j (hu.index_lt_of_top (by simp))]
      simp
    · have hold : LowerEntry owner u j k := hu.congr (by simp [hsame])
      refine ⟨(h.entries hold).1, fun hpresent ↦ ?_⟩
      rw [update_of_ne (h.target_ne hg hold hpresent)]
      exact (h.entries hold).2 hpresent
  base_tables {k u} hu := by
    have hbase := h.base_tables hu
    have hne : u ≠ g := by
      rintro rfl
      simp [hg] at hbase
    rwa [update_of_ne hne]
  shared {r j} hr hj hlt := by
    by_cases hsame : r = g
    · subst hsame
      exact hupper j hj hlt
    · rw [update_of_ne hsame] at hr
      exact h.shared hr hj hlt

end

end Forest

/-- The space and number that the owners lead to from a frame `n` levels below the top. -/
def origin (owner : ℕ → Owner) : ℕ → ℕ → Option (ℕ × ℕ)
  | 0, f => if owner f = .top then some (f, 0) else none
  | n + 1, f =>
    match owner f with
    | .entry t i _ => (origin owner n t).map fun (r, p) ↦ (r, p * 512 + i)
    | _ => none

/-- Frame `t` is the table of depth `d` on the way to page `v` of the space `r`. -/
structure OnPath (owner : ℕ → Owner) (r v d t : ℕ) : Prop where
  origin_eq : ∃ n, n + d = 4 ∧ origin owner n t = some (r, v / 512 ^ d)
  held : (d = 4 ∧ owner t = .top) ∨ ∃ u j, owner t = .entry u j d

variable {mem mem' : Memory} {base : ℕ} {owner : ℕ → Owner} {r v d t : ℕ}

theorem onPath_top (hr : owner r = .top) (hv : v < 2 ^ 35) : OnPath owner r v 4 r where
  origin_eq := by
    have hzero : 0 = v / 512 ^ 4 := by omega
    exact ⟨0, rfl, by simpa [origin, hr] using hzero⟩
  held := .inl ⟨rfl, hr⟩

theorem OnPath.lowerEntry (h : OnPath owner r v (d + 1) t) (hv : v < 2 ^ 35) :
    LowerEntry owner t (v / 512 ^ d % 512) d := by
  rcases h.held with ⟨hd, htop⟩ | ⟨u, j, hentry⟩
  · obtain rfl : d = 3 := by omega
    exact .inl ⟨htop, by omega, rfl⟩
  · exact lowerEntry_of_entry hentry (Nat.mod_lt _ (by decide))

theorem div_step (v d : ℕ) : v / 512 ^ (d + 1) * 512 + v / 512 ^ d % 512 = v / 512 ^ d := by
  rw [pow_succ, ← Nat.div_div_eq_div_mul]
  omega

theorem OnPath.next {f : ℕ} (h : OnPath owner r v (d + 1) t)
    (hf : owner f = .entry t (v / 512 ^ d % 512) d) : OnPath owner r v d f where
  origin_eq := by
    obtain ⟨n, hn, horigin⟩ := h.origin_eq
    refine ⟨n + 1, by omega, ?_⟩
    simp [origin, hf, horigin, div_step]
  held := .inr ⟨_, _, hf⟩

theorem OnPath.page_unique {r' v' : ℕ} (h : OnPath owner r v 1 t) (h' : OnPath owner r' v' 1 t)
    (hsame : v % 512 = v' % 512) : r = r' ∧ v = v' := by
  obtain ⟨n, hn, horigin⟩ := h.origin_eq
  obtain ⟨n', hn', horigin'⟩ := h'.origin_eq
  obtain rfl : n = n' := by omega
  rw [horigin] at horigin'
  simp only [Option.some.injEq, Prod.mk.injEq] at horigin'
  exact ⟨horigin'.1, by omega⟩

namespace Forest

section

variable (h : Forest mem base owner)
include h

theorem onPath_target (ht : OnPath owner r v (d + 1) t) (hv : v < 2 ^ 35)
    (hpresent : present (mem t (v / 512 ^ d % 512))) :
    OnPath owner r v d (target (mem t (v / 512 ^ d % 512))) :=
  ht.next ((h.entries (ht.lowerEntry hv)).2 hpresent)

theorem lastTable_onPath {u : ℕ} (ht : OnPath owner r v d t) (hv : v < 2 ^ 35)
    (hlast : lastTable mem d t v = some u) : OnPath owner r v 1 u := by
  induction d generalizing t with
  | zero => simp [lastTable] at hlast
  | succ d ih =>
    cases d with
    | zero =>
      obtain rfl : t = u := by simpa [lastTable] using hlast
      exact ht
    | succ d =>
      simp only [lastTable] at hlast
      split at hlast
      case isTrue hentry => exact ih (h.onPath_target ht hv hentry.1) hlast
      case isFalse => simp at hlast

/-- In a lower half the hardware finds a page in the last table on the way to it. -/
theorem walk_eq (ht : OnPath owner r v d t) (hv : v < 2 ^ 35) :
    walk mem d t v = (lastTable mem d t v).bind fun u ↦
      if present (mem u (v % 512)) then some (0, mem u (v % 512)) else none := by
  induction d generalizing t with
  | zero => rfl
  | succ d ih =>
    cases d with
    | zero => simp [walk_one, lastTable]
    | succ d =>
      have hlarge := (h.entries (ht.lowerEntry hv)).1
      by_cases hpresent : present (mem t (v / 512 ^ (d + 1) % 512))
      · rw [walk_next hpresent hlarge, ih (h.onPath_target ht hv hpresent)]
        simp [lastTable, hpresent, hlarge]
      · rw [walk_absent (by simpa using hpresent)]
        simp [lastTable, hpresent]

theorem leaf_eq (hr : owner r = .top) (hv : v < 2 ^ 35) :
    leaf mem r v = (lastTable mem 4 r v).bind fun u ↦
      if present (mem u (v % 512)) then some (0, mem u (v % 512)) else none :=
  h.walk_eq (onPath_top hr hv) hv

variable {f r' : ℕ}

/-- The frame of a mapped page is owned by the entry that maps it. -/
theorem frameAt_eq_some (hr : owner r = .top) (hv : v < 2 ^ 35) (hf : frameAt mem r v = some f) :
    ∃ u, OnPath owner r v 1 u ∧ present (mem u (v % 512)) ∧ target (mem u (v % 512)) = f ∧
      owner f = .entry u (v % 512) 0 := by
  rw [frameAt, h.leaf_eq hr hv] at hf
  simp only [Option.map_eq_some_iff, Option.bind_eq_some_iff] at hf
  obtain ⟨⟨k, e⟩, ⟨u, hu, he⟩, rfl⟩ := hf
  split at he
  case isFalse => simp at he
  case isTrue hpresent =>
    obtain ⟨rfl, rfl⟩ : 0 = k ∧ mem u (v % 512) = e := by simpa using he
    have hpath := h.lastTable_onPath (onPath_top hr hv) hv hu
    have hlower := hpath.lowerEntry hv
    rw [pow_zero, Nat.div_one] at hlower
    simp only [pow_zero, Nat.div_one, Nat.mul_one, Nat.mod_one, Nat.add_zero]
    exact ⟨u, hpath, hpresent, rfl, (h.entries hlower).2 hpresent⟩

/-- No frame is mapped at two pages of lower halves. -/
theorem frameAt_injective {v' : ℕ} (hr : owner r = .top) (hr' : owner r' = .top) (hv : v < 2 ^ 35)
    (hv' : v' < 2 ^ 35) (hf : frameAt mem r v = some f) (hf' : frameAt mem r' v' = some f) :
    r = r' ∧ v = v' := by
  obtain ⟨u, hpath, _, _, howner⟩ := h.frameAt_eq_some hr hv hf
  obtain ⟨u', hpath', _, _, howner'⟩ := h.frameAt_eq_some hr' hv' hf'
  rw [howner] at howner'
  injection howner' with hu hindex _
  subst hu
  exact hpath.page_unique hpath' hindex

/-- A table of a space is its top table, below an entry of the lower half, or of the base space. -/
theorem tableAt_cases (hr : owner r = .top) (ht : TableAt mem r d t) :
    (d = 4 ∧ t = r) ∨ (d ≠ 0 ∧ ∃ u j, owner t = .entry u j d) ∨ TableAt mem base d t := by
  induction ht with
  | top => exact .inl ⟨rfl, rfl⟩
  | @next d t i _ hi hpresent hlarge ih =>
    rcases ih with ⟨hd, rfl⟩ | ⟨_, u, j, hentry⟩ | hbase
    · obtain rfl : d = 2 := by omega
      by_cases hhalf : i < 256
      · have howner := (h.entries (.inl ⟨hr, hhalf, rfl⟩)).2 hpresent
        exact .inr (.inl ⟨by omega, _, _, howner⟩)
      · rw [h.shared hr (by omega) hi] at hpresent hlarge ⊢
        exact .inr (.inr (.next .top hi hpresent hlarge))
    · have howner := (h.entries (lowerEntry_of_entry hentry hi)).2 hpresent
      exact .inr (.inl ⟨by omega, _, _, howner⟩)
    · exact .inr (.inr (.next hbase hi hpresent hlarge))

theorem frameAt_ne_table (hr : owner r = .top) (hr' : owner r' = .top ∨ r' = base)
    (hv : v < 2 ^ 35) (ht : TableAt mem r' d t) (hf : frameAt mem r v = some f) : f ≠ t := by
  rintro rfl
  obtain ⟨u, _, _, _, howner⟩ := h.frameAt_eq_some hr hv hf
  have hbase : ¬TableAt mem base d f := fun hbase ↦ by simp [h.base_tables hbase] at howner
  rcases hr' with hr' | rfl
  · rcases h.tableAt_cases hr' ht with ⟨_, rfl⟩ | ⟨hd, u', j', hentry⟩ | htable
    · simp [hr'] at howner
    · rw [hentry] at howner
      injection howner with _ _ hzero
      exact hd hzero
    · exact hbase htable
  · exact hbase ht

end

end Forest

/-- Two entries that lead the walk to the same place. -/
def SameLink (e e' : BitVec 64) : Prop :=
  present e' = present e ∧ large e' = large e ∧ target e' = target e

theorem SameLink.trans {e e' e'' : BitVec 64} (h : SameLink e e') (h' : SameLink e' e'') :
    SameLink e e'' :=
  ⟨h'.1.trans h.1, h'.2.1.trans h.2.1, h'.2.2.trans h.2.2⟩

/-- The spaces of a forest map the same pages in `mem'` as in `mem`, and all links above the last
tables remain. -/
structure SameView (base : ℕ) (owner : ℕ → Owner) (mem mem' : Memory) : Prop where
  leaf : ∀ {r v}, owner r = .top ∨ r = base → v < 2 ^ 36 → leaf mem' r v = leaf mem r v
  links : ∀ {t i d}, LowerEntry owner t i (d + 1) → present (mem t i) →
    present (mem' t i) ∧ target (mem' t i) = target (mem t i)

/-- `owner'` gives every frame that has an owner in `owner` the same owner. -/
def Keeps (owner owner' : ℕ → Owner) : Prop := ∀ f, owner f ≠ .nobody → owner' f = owner f

theorem Keeps.refl (owner : ℕ → Owner) : Keeps owner owner := fun _ _ ↦ rfl

theorem Keeps.update {g : ℕ} (o : Owner) (hg : owner g = .nobody) :
    Keeps owner (update owner g o) := by
  intro f hf
  apply update_of_ne
  rintro rfl
  exact hf hg

variable {owner' : ℕ → Owner}

theorem Keeps.top (h : Keeps owner owner') (hr : owner r = .top) : owner' r = .top := by
  rw [h r (by simp [hr]), hr]

theorem Keeps.onPath (h : Keeps owner owner') (ht : OnPath owner r v d t) :
    OnPath owner' r v d t where
  origin_eq := by
    obtain ⟨n, hn, horigin⟩ := ht.origin_eq
    refine ⟨n, hn, ?_⟩
    clear hn ht
    generalize v / 512 ^ d = p at horigin
    induction n generalizing t p with
    | zero =>
      simp only [origin, Option.ite_none_right_eq_some] at horigin ⊢
      exact ⟨h.top horigin.1, horigin.2⟩
    | succ n ih =>
      simp only [origin] at horigin ⊢
      split at horigin
      case h_1 u i k hentry =>
        simp only [Option.map_eq_some_iff] at horigin
        obtain ⟨⟨r', p'⟩, hrec, hpair⟩ := horigin
        obtain ⟨rfl, rfl⟩ : r' = r ∧ p' * 512 + i = p := by simpa using hpair
        simp [h t (by simp [hentry]), hentry, ih p' hrec]
      case h_2 => simp at horigin
  held := by
    rcases ht.held with ⟨hd, htop⟩ | ⟨u, j, hentry⟩
    · exact .inl ⟨hd, h.top htop⟩
    · exact .inr ⟨u, j, by rw [h t (by simp [hentry]), hentry]⟩

theorem SameView.refl (base : ℕ) (owner : ℕ → Owner) (mem : Memory) :
    SameView base owner mem mem :=
  ⟨fun _ _ ↦ rfl, fun _ h ↦ ⟨h, rfl⟩⟩

theorem SameView.trans {mem'' : Memory} (h : SameView base owner mem mem')
    (h' : SameView base owner' mem' mem'') (hkeeps : Keeps owner owner') :
    SameView base owner mem mem'' where
  leaf hr hv := (h'.leaf (hr.imp_left hkeeps.top) hv).trans (h.leaf hr hv)
  links {t i d} ht hpresent := by
    obtain ⟨hp, htarget⟩ := h.links ht hpresent
    obtain ⟨hp', htarget'⟩ := h'.links (ht.congr (hkeeps t ht.owner_ne_nobody)) hp
    exact ⟨hp', htarget'.trans htarget⟩

namespace Forest

section

variable (h : Forest mem base owner)
include h

theorem leaf_upper (hr : owner r = .top) (hlow : 2 ^ 35 ≤ v) (hhigh : v < 2 ^ 36) :
    leaf mem r v = leaf mem base v := by
  have hindex : 256 ≤ v / 512 ^ 3 % 512 := by omega
  simp only [leaf, walk, h.shared hr hindex (Nat.mod_lt _ (by decide))]

theorem leaf_base_congr (hbase : ∀ t i, owner t = .base → mem' t i = mem t i) (v : ℕ) :
    leaf mem' base v = leaf mem base v :=
  walk_congr .top (fun _ t i ht ↦ hbase t i (h.base_tables ht)) v

/-- The tables on the way to a page survive. -/
theorem lastTable_of_sameView {owner' : ℕ → Owner} {w : ℕ} (h' : Forest mem' base owner')
    (hkeeps : Keeps owner owner') (hview : SameView base owner mem mem')
    (ht : OnPath owner r v d t) (hv : v < 2 ^ 35) (hlast : lastTable mem d t v = some w) :
    lastTable mem' d t v = some w := by
  induction d generalizing t with
  | zero => simp [lastTable] at hlast
  | succ d ih =>
    cases d with
    | zero => exact hlast
    | succ d =>
      simp only [lastTable] at hlast
      split at hlast
      case isFalse => simp at hlast
      case isTrue hold =>
        have hlower := ht.lowerEntry hv
        obtain ⟨hpresent, htarget⟩ := hview.links hlower hold.1
        have hlarge := (h'.entries ((hkeeps.onPath ht).lowerEntry hv)).1
        simp only [lastTable, hpresent, hlarge, htarget]
        exact ih (h.onPath_target ht hv hold.1) hlast

/-- It is enough to compare the lower halves of edited spaces. -/
theorem sameView_of_lower (h' : Forest mem' base owner)
    (hbase : ∀ t i, owner t = .base → mem' t i = mem t i)
    (hleaf : ∀ r v, owner r = .top → v < 2 ^ 35 → leaf mem' r v = leaf mem r v)
    (hlinks : ∀ t i d, LowerEntry owner t i (d + 1) → present (mem t i) →
      present (mem' t i) ∧ target (mem' t i) = target (mem t i)) :
    SameView base owner mem mem' where
  leaf {r v} hr hv := by
    rcases hr with hr | rfl
    · by_cases hlow : v < 2 ^ 35
      · exact hleaf r v hr hlow
      · rw [h'.leaf_upper hr (by omega) hv, h.leaf_upper hr (by omega) hv, h.leaf_base_congr hbase]
    · exact h.leaf_base_congr hbase v
  links := hlinks _ _ _

/-- The last table on a path only depends on the links above it. -/
theorem lastTable_congr
    (hlink : ∀ t i d, LowerEntry owner t i (d + 1) → SameLink (mem t i) (mem' t i))
    (ht : OnPath owner r v d t) (hv : v < 2 ^ 35) : lastTable mem' d t v = lastTable mem d t v := by
  induction d generalizing t with
  | zero => rfl
  | succ d ih =>
    cases d with
    | zero => rfl
    | succ d =>
      obtain ⟨hpresent, hlarge, htarget⟩ := hlink _ _ _ (ht.lowerEntry hv)
      simp only [lastTable, hpresent, hlarge, htarget]
      split
      case isTrue hentry => exact ih (h.onPath_target ht hv hentry.1)
      case isFalse => rfl

/-- Memory with the same links and the same entries of last tables shows the same pages. -/
theorem sameView_of_sameLink (h' : Forest mem' base owner)
    (hbase : ∀ t i, owner t = .base → mem' t i = mem t i)
    (hlink : ∀ t i d, LowerEntry owner t i (d + 1) → SameLink (mem t i) (mem' t i))
    (hlast : ∀ t i, LowerEntry owner t i 0 → mem' t i = mem t i) :
    SameView base owner mem mem' := by
  apply h.sameView_of_lower h' hbase
  · intro r v hr hv
    rw [h.leaf_eq hr hv, h'.leaf_eq hr hv, h.lastTable_congr hlink (onPath_top hr hv) hv]
    apply Option.bind_congr
    intro u hu
    have hlower := (h.lastTable_onPath (onPath_top hr hv) hv hu).lowerEntry hv
    rw [pow_zero, Nat.div_one] at hlower
    rw [hlast u _ hlower]
  · intro t i d ht hpresent
    obtain ⟨hp, _, htarget⟩ := hlink t i d ht
    exact ⟨hp.trans hpresent, htarget⟩

theorem sameView_congr (hmem : ∀ t i, IsTable owner t → mem' t i = mem t i) :
    SameView base owner mem mem' := by
  apply h.sameView_of_sameLink (h.congr_tables hmem)
  · exact fun t i ht ↦ hmem t i (.inl ht)
  · intro t i d ht
    rw [hmem t i ht.isTable]
    exact ⟨rfl, rfl, rfl⟩
  · exact fun t i ht ↦ hmem t i ht.isTable

variable {e : BitVec 64}

/-- Changing the other flags of an entry above the last tables shows nowhere. -/
theorem sameView_reflag {i : ℕ} (ht : LowerEntry owner t i (d + 1)) (he : SameLink (mem t i) e) :
    Forest (mem.write t i e) base owner ∧ SameView base owner mem (mem.write t i e) := by
  have hnew : Forest (mem.write t i e) base owner := by
    obtain ⟨hpresent, hlarge, htarget⟩ := he
    apply h.rewrite ht (hlarge.trans (h.entries ht).1)
    rw [hpresent, htarget]
    exact (h.entries ht).2
  refine ⟨hnew, h.sameView_of_sameLink hnew ?_ ?_ ?_⟩
  · intro u j hu
    apply mem.write_frame_of_ne
    rintro rfl
    exact ht.owner_ne_base hu
  · intro u j k hu
    by_cases hsame : u = t ∧ j = i
    · obtain ⟨rfl, rfl⟩ := hsame
      rwa [write_self]
    · rw [mem.write_of_ne e hsame]
      exact ⟨rfl, rfl, rfl⟩
  · intro u j hu
    apply mem.write_of_ne
    rintro ⟨rfl, rfl⟩
    have := hu.depth_unique ht
    omega

end

section Link

variable {i : ℕ} {e : BitVec 64}

section

variable (h : Forest mem base owner) (ht : LowerEntry owner t i (d + 1))
  (habsent : present (mem t i) = false) (hpresent : present e) (hlarge : large e = false)
  (howner : owner (target e) = .entry t i (d + 1)) (hempty : ∀ j, mem (target e) j = 0)
include h ht habsent hpresent hlarge howner hempty

/-- Walks do not notice an empty table that is put behind an absent entry. -/
private theorem walk_link {k u : ℕ} (hu : OnPath owner r v k u) (hv : v < 2 ^ 35) :
    walk (mem.write t i e) k u v = walk mem k u v := by
  induction k generalizing u with
  | zero => rfl
  | succ k ih =>
    have hlower := hu.lowerEntry hv
    by_cases hsame : u = t ∧ v / 512 ^ k % 512 = i
    · -- the walk runs into the new table and finds it empty
      obtain ⟨rfl, rfl⟩ := hsame
      obtain rfl : k = d + 1 := hlower.depth_unique ht
      have hne : target e ≠ u := by
        intro hself
        rw [hself] at howner
        have := ht.depth_unique (lowerEntry_of_entry (i := 0) howner (by decide))
        omega
      rw [walk_absent habsent, walk_next (by rwa [write_self])
        (by rwa [write_self]), write_self, walk_absent]
      rw [mem.write_frame_of_ne e hne, hempty]
      exact present_zero
    · have hentry := mem.write_of_ne e hsame
      cases k with
      | zero =>
        rw [pow_zero, Nat.div_one] at hentry
        rw [walk_one, walk_one, hentry]
      | succ k =>
        by_cases hold : present (mem u (v / 512 ^ (k + 1) % 512))
        · have hl := (h.entries hlower).1
          rw [walk_next hold hl, walk_next (by rwa [hentry]) (by rwa [hentry]), hentry,
            ih (h.onPath_target hu hv hold)]
        · have hnone : present (mem u (v / 512 ^ (k + 1) % 512)) = false := by simpa using hold
          rw [walk_absent hnone, walk_absent (by rwa [hentry])]

/-- Putting an empty table behind an absent entry shows nowhere. -/
theorem sameView_link :
    Forest (mem.write t i e) base owner ∧ SameView base owner mem (mem.write t i e) := by
  have hnew : Forest (mem.write t i e) base owner := h.rewrite ht hlarge fun _ ↦ howner
  refine ⟨hnew, h.sameView_of_lower hnew ?_ ?_ ?_⟩
  · intro u j hu
    apply mem.write_frame_of_ne
    rintro rfl
    exact ht.owner_ne_base hu
  · exact fun r v hr hv ↦
      h.walk_link ht habsent hpresent hlarge howner hempty (onPath_top hr hv) hv
  · intro u j k hu hold
    have hne : ¬(u = t ∧ j = i) := by
      rintro ⟨rfl, rfl⟩
      simp [habsent] at hold
    rw [mem.write_of_ne e hne]
    exact ⟨hold, rfl⟩

end

end Link

/-- Overwriting the entry of page `v` in the last table changes the mapping of `v` in `r` only. -/
theorem leaf_write {u : ℕ} (h : Forest mem base owner) (hr : owner r = .top) (hv : v < 2 ^ 35)
    (hu : lastTable mem 4 r v = some u) (hlarge : large e = false)
    (howner : present e → owner (target e) = .entry u (v % 512) 0) :
    Forest (mem.write u (v % 512) e) base owner ∧
    (∀ r' v', owner r' = .top ∨ r' = base → v' < 2 ^ 36 → leaf (mem.write u (v % 512) e) r' v' =
        if r' = r ∧ v' = v then if present e then some (0, e) else none else leaf mem r' v') ∧
    ∀ r' v', owner r' = .top → v' < 2 ^ 35 →
      lastTable (mem.write u (v % 512) e) 4 r' v' = lastTable mem 4 r' v' := by
  have hpath : OnPath owner r v 1 u := h.lastTable_onPath (onPath_top hr hv) hv hu
  have hlower : LowerEntry owner u (v % 512) 0 := by simpa using hpath.lowerEntry hv
  have hnew : Forest (mem.write u (v % 512) e) base owner := h.rewrite hlower hlarge howner
  have hlast : ∀ r' v', owner r' = .top → v' < 2 ^ 35 →
      lastTable (mem.write u (v % 512) e) 4 r' v' = lastTable mem 4 r' v' := by
    intro r' v' hr' hv'
    refine h.lastTable_congr (fun t i k ht ↦ ?_) (onPath_top hr' hv') hv'
    have hne : ¬(t = u ∧ i = v % 512) := by
      rintro ⟨rfl, rfl⟩
      have := ht.depth_unique hlower
      omega
    rw [mem.write_of_ne e hne]
    exact ⟨rfl, rfl, rfl⟩
  have hbase : ∀ t i, owner t = .base → mem.write u (v % 512) e t i = mem t i := by
    intro t i ht
    apply mem.write_frame_of_ne
    rintro rfl
    exact hlower.owner_ne_base ht
  refine ⟨hnew, ?_, hlast⟩
  intro r' v' hr' hv'
  rcases hr' with hr' | rfl
  · by_cases hlow : v' < 2 ^ 35
    · rw [h.leaf_eq hr' hlow, hnew.leaf_eq hr' hlow, hlast r' v' hr' hlow]
      by_cases hsame : r' = r ∧ v' = v
      · obtain ⟨rfl, rfl⟩ := hsame
        simp [hu]
      · rw [if_neg hsame]
        apply Option.bind_congr
        intro w hw
        have hne : ¬(w = u ∧ v' % 512 = v % 512) := by
          rintro ⟨rfl, hindex⟩
          exact hsame
            ((h.lastTable_onPath (onPath_top hr' hlow) hlow hw).page_unique hpath hindex)
        rw [mem.write_of_ne e hne]
    · have hne : ¬(r' = r ∧ v' = v) := by omega
      rw [if_neg hne, hnew.leaf_upper hr' (by omega) hv', h.leaf_upper hr' (by omega) hv',
        h.leaf_base_congr hbase]
  · have hne : ¬(r' = r ∧ v' = v) := by
      rintro ⟨rfl, _⟩
      simp [h.base_owner] at hr
    rw [if_neg hne, h.leaf_base_congr hbase]

end Forest

end ToastyUnix.Paging
