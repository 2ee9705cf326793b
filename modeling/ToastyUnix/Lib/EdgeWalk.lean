import Mathlib

/-!
# Labelled walks and one-edge updates

A partial function `step` from a vertex and a label to a vertex is a deterministic labelled graph;
`List.foldlM step root` follows a list of labels. Adding one edge to a vertex that has no edges
of its own changes the end of exactly one walk, provided the source of the edge is reached by one
list of labels only. Read backwards, the same statement covers the removal of such an edge.
-/

namespace ToastyUnix.EdgeWalk

open List

variable {V L : Type*} [DecidableEq V] [DecidableEq L]

/-- The graph with one more edge, from `source` along `label` to `target`. -/
def addEdge (step : V → L → Option V) (source : V) (label : L) (target : V) (v : V) (l : L) :
    Option V :=
  if v = source ∧ l = label then some target else step v l

variable {step : V → L → Option V} {source target v root : V} {label : L}

/-- The edges of the extended graph, when the new edge had no other target before. -/
theorem addEdge_eq_some {w : V} {l : L} (hnone : step source label = none) :
    addEdge step source label target v l = some w ↔
      (v = source ∧ l = label ∧ w = target) ∨ step v l = some w := by
  unfold addEdge
  by_cases hedge : v = source ∧ l = label
  · obtain ⟨rfl, rfl⟩ := hedge
    simp [hnone, eq_comm]
  · have hother : ¬ (v = source ∧ l = label ∧ w = target) := fun h ↦ hedge ⟨h.1, h.2.1⟩
    rw [if_neg hedge, or_iff_right hother]

/-- A walk that ends elsewhere does not use the new edge, whose target has no edges. -/
theorem foldlM_of_addEdge (hnone : step source label = none) (hsink : ∀ l, step target l = none)
    {walk : List L} (hv : v ≠ target)
    (hwalk : walk.foldlM (addEdge step source label target) root = some v) :
    walk.foldlM step root = some v := by
  induction walk using reverseRecOn generalizing v with
  | nil => simpa using hwalk
  | append_singleton walk l ih =>
    simp only [foldlM_append, foldlM_cons, foldlM_nil, bind_pure,
      Option.bind_eq_bind, Option.bind_eq_some_iff, addEdge_eq_some hnone] at hwalk ⊢
    obtain ⟨u, hu, ⟨-, -, rfl⟩ | hstep⟩ := hwalk
    · exact absurd rfl hv
    · have hut : u ≠ target := by
        rintro rfl
        simp [hsink] at hstep
      exact ⟨u, ih hut hu, hstep⟩

/-- Only the walk to the new edge ends differently. -/
theorem foldlM_addEdge {path : List L} (hpath : path.foldlM step root = some source)
    (hunique : ∀ other : List L, other.foldlM step root = some source → other = path)
    (hnone : step source label = none) (hsink : ∀ l, step target l = none) (hne : target ≠ source)
    (walk : List L) :
    walk.foldlM (addEdge step source label target) root =
      if walk = path ++ [label] then some target else walk.foldlM step root := by
  induction walk using reverseRecOn with
  | nil => simp
  | append_singleton walk l ih =>
    simp only [foldlM_append, ih, append_singleton_inj]
    by_cases hwalk : walk = path ++ [label]
    · -- The walk continues behind the new edge, where the graph has no edges.
      simp [hwalk, addEdge, hne, hsink, hpath, hnone]
    · rw [if_neg hwalk]
      cases hend : walk.foldlM step root with
      | none =>
        have : ¬ (walk = path ∧ l = label) := by
          rintro ⟨rfl, -⟩
          simp [hpath] at hend
        simp [this]
      | some v =>
        by_cases hedge : v = source ∧ l = label
        · obtain ⟨rfl, rfl⟩ := hedge
          simp [addEdge, hunique walk hend]
        · have : ¬ (walk = path ∧ l = label) := by
            rintro ⟨rfl, rfl⟩
            exact hedge ⟨Option.some.inj (hend.symm.trans hpath), rfl⟩
          simp [addEdge, hedge, this]

end ToastyUnix.EdgeWalk
