import Mathlib

/-!
# Singly linked lists threaded through cells

`next` gives the link stored in each cell. `Segment next head cells tail` says that following the
links from `head` visits `cells` in order and arrives at `tail`; a chain is a segment that ends in
the null link. `findLink` is the search loop that keeps a pointer to the link it came through, so
that the cell it stops at can be unlinked or a new one put before it. The lemmas say what such
edits of one link do to the list of cells.
-/

namespace ToastyUnix.Chain

open List Function

variable {α : Type*}

/-- Following `next` from `head` visits exactly `cells` and arrives at `tail`. -/
def Segment (next : α → Option α) : Option α → List α → Option α → Prop
  | head, [], tail => head = tail
  | head, cell :: cells, tail => head = some cell ∧ Segment next (next cell) cells tail

/-- Following `next` from `head` visits exactly `cells` and then ends. -/
def IsChain (next : α → Option α) (head : Option α) (cells : List α) : Prop :=
  Segment next head cells none

/-- Find the first cell that satisfies `stop`, with the cell whose link led to it. The search gives
up after `fuel` cells. -/
def findLink (next : α → Option α) (stop : α → Bool) :
    ℕ → Option α → Option α → Option (Option α × α)
  | 0, _, _ => none
  | _ + 1, _, none => none
  | fuel + 1, link, some cell =>
    if stop cell then some (link, cell) else findLink next stop fuel (some cell) (next cell)

variable {next : α → Option α} {head tail : Option α} {cell : α} {cells : List α} {stop : α → Bool}
  {fuel : ℕ}

/-- The cells of a chain, at most `fuel` of them. -/
def walk (next : α → Option α) : ℕ → Option α → List α
  | 0, _ => []
  | _ + 1, none => []
  | fuel + 1, some cell => cell :: walk next fuel (next cell)

@[simp]
theorem segment_nil :
    Segment next head [] tail ↔ head = tail := Iff.rfl

@[simp]
theorem segment_cons :
    Segment next head (cell :: cells) tail ↔
      head = some cell ∧ Segment next (next cell) cells tail := Iff.rfl

theorem segment_append {first second : List α} :
    Segment next head (first ++ second) tail ↔
      ∃ middle, Segment next head first middle ∧ Segment next middle second tail := by
  induction first generalizing head with
  | nil => simp
  | cons cell cells ih => simp [ih, and_assoc]

theorem Segment.congr {next' : α → Option α} (h : Segment next head cells tail)
    (hnext : ∀ cell ∈ cells, next' cell = next cell) : Segment next' head cells tail := by
  induction cells generalizing head with
  | nil => exact h
  | cons cell cells ih =>
    obtain ⟨hhead, htail⟩ := h
    refine ⟨hhead, ih ?_ fun c hc ↦ hnext c (mem_cons_of_mem _ hc)⟩
    rwa [hnext cell mem_cons_self]

theorem IsChain.unique {cells' : List α} (h : IsChain next head cells)
    (h' : IsChain next head cells') : cells = cells' := by
  induction cells generalizing head cells' with
  | nil =>
    cases cells' with
    | nil => rfl
    | cons cell' rest' =>
      have hnone : head = none := h
      have hsome : head = some cell' := h'.1
      simp [hnone] at hsome
  | cons cell rest ih =>
    cases cells' with
    | nil =>
      have hsome : head = some cell := h.1
      have hnone : head = none := h'
      simp [hnone] at hsome
    | cons cell' rest' =>
      have hsame : cell = cell' := Option.some.inj (h.1.symm.trans h'.1)
      subst hsame
      rw [ih h.2 h'.2]

theorem IsChain.walk_eq (h : IsChain next head cells) (fuel : ℕ) :
    walk next fuel head = cells.take fuel := by
  induction cells generalizing head fuel with
  | nil =>
    have hnone : head = none := h
    cases fuel <;> simp [walk, hnone]
  | cons cell cells ih =>
    obtain ⟨rfl, hrest⟩ := h
    cases fuel with
    | zero => rfl
    | succ fuel => rw [walk, ih hrest, take_succ_cons]

theorem IsChain.iterate (h : IsChain next head cells) (n : ℕ) :
    IsChain next ((fun link ↦ link.bind next)^[n] head) (cells.drop n) := by
  induction n generalizing head cells with
  | zero => exact h
  | succ n ih =>
    rw [iterate_succ_apply]
    cases cells with
    | nil =>
      obtain rfl : head = none := h
      have hnil : IsChain next (none : Option α) [] := rfl
      rw [drop_nil, ← drop_nil (i := n)]
      exact ih hnil
    | cons cell cells =>
      obtain ⟨rfl, hrest⟩ := h
      exact ih hrest

theorem getLast?_cons_or (first : α) (before : List α) (link : Option α) :
    (first :: before).getLast?.or link = before.getLast?.or (some first) := by
  rw [getLast?_cons]
  cases before.getLast? <;> rfl

/-- The search stops at the first cell that satisfies `stop` and reports the link before. -/
theorem findLink_some {before : List α} (h : Segment next head (before ++ [cell]) tail)
    (hstop : stop cell = true) (hbefore : ∀ other ∈ before, stop other = false)
    (hfuel : before.length < fuel) (link : Option α) :
    findLink next stop fuel link head = some (before.getLast?.or link, cell) := by
  induction before generalizing head fuel link with
  | nil =>
    obtain ⟨hhead, -⟩ := h
    obtain ⟨fuel, rfl⟩ := Nat.exists_eq_succ_of_ne_zero (by simp at hfuel; omega : fuel ≠ 0)
    simp [findLink, hhead, hstop]
  | cons other rest ih =>
    obtain ⟨hhead, hrest⟩ := h
    obtain ⟨fuel, rfl⟩ := Nat.exists_eq_succ_of_ne_zero (by simp at hfuel; omega : fuel ≠ 0)
    have htail := ih hrest (fun c hc ↦ hbefore c (mem_cons_of_mem _ hc))
      (by simp at hfuel; omega) (some other)
    simp only [findLink, hhead, hbefore other mem_cons_self, Bool.false_eq_true, if_false,
      htail, getLast?_cons_or]

/-- Every search result splits the chain at the reported cell. -/
theorem findLink_eq_some {link link' : Option α} (h : IsChain next head cells)
    (hfind : findLink next stop fuel link head = some (link', cell)) :
    ∃ before after, cells = before ++ cell :: after ∧ stop cell = true ∧
      (∀ other ∈ before, stop other = false) ∧ link' = before.getLast?.or link := by
  induction cells generalizing head fuel link with
  | nil =>
    have hnone : head = none := h
    cases fuel <;> simp [findLink, hnone] at hfind
  | cons first rest ih =>
    obtain ⟨hhead, hrest⟩ := h
    cases fuel with
    | zero => simp [findLink] at hfind
    | succ fuel =>
      simp only [findLink, hhead] at hfind
      split at hfind
      case isTrue hstop =>
        simp only [Option.some.injEq, Prod.mk.injEq] at hfind
        obtain ⟨rfl, rfl⟩ := hfind
        exact ⟨[], rest, rfl, hstop, by simp, by simp⟩
      case isFalse hstop =>
        obtain ⟨before, after, rfl, hcell, hbefore, hlink⟩ := ih hrest hfind
        refine ⟨first :: before, after, rfl, hcell, ?_, ?_⟩
        · intro other hother
          rcases mem_cons.mp hother with rfl | hother
          · simpa using hstop
          · exact hbefore other hother
        · rw [hlink, getLast?_cons_or]

section Edit

variable [DecidableEq α]

/-- Point the link of `prev` past its successor: the successor leaves the chain. -/
theorem IsChain.unlink {next : α → Option α} {head : Option α} {before after : List α}
    {prev cell : α} (h : IsChain next head (before ++ prev :: cell :: after))
    (hnodup : (before ++ prev :: cell :: after).Nodup) :
    IsChain (update next prev (next cell)) head (before ++ prev :: after) := by
  obtain ⟨middle, hbefore, hprev, hcell, hafter⟩ := segment_append.mp h
  rw [nodup_append] at hnodup
  obtain ⟨-, hrest, hdisjoint⟩ := hnodup
  simp only [nodup_cons, mem_cons, not_or] at hrest
  obtain ⟨⟨-, hprevAfter⟩, hcellAfter, -⟩ := hrest
  refine segment_append.mpr ⟨middle, hbefore.congr ?_, hprev, ?_⟩
  · intro c hc
    have hne : c ≠ prev := hdisjoint c hc prev mem_cons_self
    exact update_of_ne hne _ _
  · rw [update_self]
    refine hafter.congr fun c hc ↦ update_of_ne ?_ _ _
    rintro rfl
    exact hprevAfter hc

end Edit

end ToastyUnix.Chain
