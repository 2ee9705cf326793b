import Mathlib

/-!
# Memory drawn tile by tile

A memory is cut into tiles by a function that gives the tile of every address, and a content is
drawn by a function that gives the value of every address of its tile. Drawing one tile leaves every
other tile alone. `Shows` says that the tiles of a region show given contents; two memories that
show the same contents and agree outside the region are equal.
-/

namespace ToastyUnix.Tiles

open List

variable {ι α β γ κ : Type*} (tile : α → ι) (render : γ → α → β)

/-- The tiles of a region show their contents. -/
def Shows (region : Set ι) (mem : α → β) (looks : ι → γ) : Prop :=
  ∀ a, tile a ∈ region → mem a = render (looks (tile a)) a

/-- Two memories agree outside a region. -/
def SameOutside (region : Set ι) (mem mem' : α → β) : Prop := ∀ a, tile a ∉ region → mem' a = mem a

variable {tile render} {region region' : Set ι} {mem mem' mem'' : α → β} {looks looks' : ι → γ}

theorem Shows.mono (h : Shows tile render region mem looks) (hregion : region' ⊆ region)
    (hlooks : ∀ i ∈ region', looks' i = looks i) : Shows tile render region' mem looks' := by
  intro a ha
  rw [h a (hregion ha), hlooks _ ha]

theorem SameOutside.refl (mem : α → β) : SameOutside tile region mem mem := fun _ _ ↦ rfl

theorem SameOutside.trans (h : SameOutside tile region mem mem')
    (h' : SameOutside tile region mem' mem'') : SameOutside tile region mem mem'' :=
  fun a ha ↦ (h' a ha).trans (h a ha)

/-- The contents of a region and the memory outside it determine the memory. -/
theorem Shows.eq_of_sameOutside (h : Shows tile render region mem looks)
    (h' : Shows tile render region mem' looks) (hout : SameOutside tile region mem mem') :
    mem' = mem := by
  funext a
  by_cases ha : tile a ∈ region
  · rw [h a ha, h' a ha]
  · exact hout a ha

variable [DecidableEq ι]

/-- The memory with a content drawn on one tile. -/
def paint (tile : α → ι) (render : γ → α → β) (mem : α → β) (i : ι) (look : γ) : α → β :=
  fun a ↦ if tile a = i then render look a else mem a

/-- Drawing a tile adds it to the region that shows its contents. -/
theorem Shows.paint (h : Shows tile render region mem looks) (i : ι) (look : γ) :
    Shows tile render (insert i region) (paint tile render mem i look)
      (Function.update looks i look) := by
  intro a ha
  unfold Tiles.paint
  by_cases htile : tile a = i
  · rw [if_pos htile, htile, Function.update_self]
  · rw [if_neg htile, Function.update_of_ne htile]
    exact h a (ha.resolve_left htile)

theorem sameOutside_paint {i : ι} (hi : i ∈ region) (look : γ) :
    SameOutside tile region mem (paint tile render mem i look) := by
  intro a ha
  apply if_neg
  rintro rfl
  exact ha hi

section Lists

variable (place : κ → ι) (look : κ → γ)

variable {l : List κ} {a : α}

/-- Drawings leave an address alone whose tile is not among the drawn ones. -/
theorem foldl_paint_of_notMem (ha : ∀ k ∈ l, tile a ≠ place k) :
    l.foldl (fun mem k ↦ paint tile render mem (place k) (look k)) mem a = mem a := by
  induction l generalizing mem with
  | nil => rfl
  | cons k l ih =>
    rw [forall_mem_cons] at ha
    rw [foldl_cons, ih ha.2]
    exact if_neg ha.1

/-- A list of drawings on different tiles shows each of its contents. -/
theorem foldl_paint_of_mem {k : κ} (hk : k ∈ l) (ha : tile a = place k)
    (hdistinct : ∀ j ∈ l, place j = place k → j = k) :
    l.foldl (fun mem k ↦ paint tile render mem (place k) (look k)) mem a = render (look k) a := by
  induction l using reverseRecOn with
  | nil => cases hk
  | append_singleton l j ih =>
    rw [foldl_append, foldl_cons, foldl_nil, paint]
    by_cases hj : place j = place k
    · rw [hdistinct j (by simp) hj, if_pos ha]
    · rw [if_neg fun h ↦ hj (h.symm.trans ha)]
      apply ih
      · rcases mem_append.1 hk with hk | hk
        · exact hk
        · rw [mem_singleton.1 hk] at hj
          exact absurd rfl hj
      · exact fun j hj ↦ hdistinct j (mem_append_left _ hj)

end Lists

end ToastyUnix.Tiles
