import ToastyUnix.Lib.Chain
import ToastyUnix.Lib.Ctype
import ToastyUnix.Vfs.Model

/-!
# Path strings and lookup

A path is the list of its bytes before the terminating zero. The source scans paths in two ways:
`path_split` cuts at the last slash, and the loop of `vfs_lookup` walks component by component and
skips any run of slashes. Both are translated as they stand and related to `components`, the list
of non-empty pieces between slashes: `vfs_lookup` is a walk along the components, and a successful
split takes the last component off.
-/

namespace ToastyUnix.Vfs

open List Option

/-- The scan of `path_split` for the last slash, at position `i` with the last hit `found`. -/
def lastSlash (i : ℕ) (found : Option ℕ) : List UInt8 → Option ℕ
  | [] => found
  | c :: rest => lastSlash (i + 1) (if c = slash then some i else found) rest

/-- `path_split`: the parent path and the final name, or `none` for the result `-1`. -/
def pathSplit (path : List UInt8) (dirSize nameSize : ℕ) : Option (List UInt8 × List UInt8) :=
  match lastSlash 0 none path with
  | none => if nameSize ≤ path.length then none else some ([slash], path)
  | some dlen =>
    if dlen ≠ 0 ∧ dirSize ≤ dlen then none
    else
      let name := path.drop (dlen + 1)
      if name.length = 0 ∨ nameSize ≤ name.length then none
      else some (if dlen = 0 then [slash] else path.take dlen, name)

def siblingOf (nodes : Heap Node) (a : Addr) : Option Addr := (nodes.lookup a).bind Node.sibling

def childOf (nodes : Heap Node) (a : Addr) : Option Addr := (nodes.lookup a).bind Node.child

def isDir (nodes : Heap Node) (a : Addr) : Bool := (nodes.lookup a).any fun n ↦ n.type == .dir

/-- `strcmp(n->name, name) == 0`. -/
def nameIs (nodes : Heap Node) (name : List UInt8) (a : Addr) : Bool :=
  (nodes.lookup a).any fun n ↦ n.name == name

/-- `dir_find`. A list of siblings cannot have more entries than there are nodes. -/
def dirFind (nodes : Heap Node) (dir : Addr) (name : List UInt8) : Option Addr :=
  (Chain.findLink (siblingOf nodes) (nameIs nodes name) nodes.keys.card none
    (childOf nodes dir)).map Prod.snd

/-- The component loop of `vfs_lookup` at node `cur`, with the rest of the path. -/
def lookupLoop (nodes : Heap Node) : ℕ → Addr → List UInt8 → Option Addr
  | 0, cur, _ => some cur
  | _ + 1, cur, [] => some cur
  | fuel + 1, cur, c :: rest =>
    let name := (c :: rest).takeWhile (· != slash)
    if vfsNameMax ≤ name.length then none
    else if isDir nodes cur then
      match dirFind nodes cur name with
      | none => none
      | some next =>
        lookupLoop nodes fuel next
          (((c :: rest).dropWhile (· != slash)).dropWhile (· == slash))
    else none

/-- `vfs_lookup`. -/
def vfsLookup (s : State) (path : List UInt8) : Option Addr :=
  match path.dropWhile (· == slash) with
  | [] => some s.root
  | p => lookupLoop s.nodes p.length s.root p

/-- The non-empty pieces of a path between slashes. -/
def components (path : List UInt8) : List (List UInt8) :=
  (path.splitOn slash).filter (· ≠ [])

@[simp]
theorem components_nil : components [] = [] := by
  simp [components]

theorem components_append_slash (first second : List UInt8) :
    components (first ++ slash :: second) = components first ++ components second := by
  simp [components, splitOn_append_cons_self]

@[simp]
theorem components_slash (path : List UInt8) : components (slash :: path) = components path := by
  simpa using components_append_slash [] path

variable {name path dir : List UInt8} {dirSize nameSize : ℕ}

theorem components_of_notMem (hname : slash ∉ name) (hne : name ≠ []) :
    components name = [name] := by
  simp [components, splitOn_eq_singleton hname, hne]

theorem components_dropWhile (path : List UInt8) :
    components (path.dropWhile (· == slash)) = components path := by
  induction path with
  | nil => rfl
  | cons c rest ih =>
    by_cases hc : c = slash
    · subst hc
      simpa using ih
    · simp [hc]

/-- A leading run of other bytes is the first component. -/
theorem components_takeWhile (hne : path.takeWhile (· != slash) ≠ []) :
    components path =
      path.takeWhile (· != slash) :: components (path.dropWhile (· != slash)) := by
  have hname : slash ∉ path.takeWhile (· != slash) := by
    intro hmem
    simpa using mem_takeWhile_imp hmem
  cases hrest : path.dropWhile (· != slash) with
  | nil =>
    have hall : path.takeWhile (· != slash) = path := by
      simpa [hrest] using takeWhile_append_dropWhile (p := (· != slash)) (l := path)
    rw [hall] at hname hne ⊢
    simpa using components_of_notMem hname hne
  | cons c rest =>
    have hc : c = slash := by
      have := head_dropWhile_not (p := (· != slash)) (l := path)
      simpa [hrest] using this
    subst hc
    have hsplit := takeWhile_append_dropWhile (p := (· != slash)) (l := path)
    rw [hrest] at hsplit
    calc
      components path = components (path.takeWhile (· != slash) ++ slash :: rest) := by rw [hsplit]
      _ = components (path.takeWhile (· != slash)) ++ components rest :=
        components_append_slash _ _
      _ = _ := by rw [components_of_notMem hname hne, components_slash, singleton_append]

/-- One step of a lookup: the entry of that name in a directory. -/
def stepInto (nodes : Heap Node) (dir : Addr) (name : List UInt8) : Option Addr :=
  if vfsNameMax ≤ name.length then none
  else if isDir nodes dir then dirFind nodes dir name else none

/-- The node reached along a list of components. -/
def resolve (nodes : Heap Node) (root : Addr) (path : List (List UInt8)) : Option Addr :=
  path.foldlM (stepInto nodes) root

theorem length_dropWhile_lt {c : UInt8} (hc : c ≠ slash) (rest : List UInt8) :
    (((c :: rest).dropWhile (· != slash)).dropWhile (· == slash)).length ≤ rest.length := by
  have hinner : ((c :: rest).dropWhile (· != slash)).length ≤ rest.length := by
    simpa [hc] using (dropWhile_suffix (p := (· != slash)) (l := rest)).length_le
  exact (dropWhile_suffix _).length_le.trans hinner

theorem lookupLoop_eq_resolve (nodes : Heap Node) (fuel : ℕ) (cur : Addr) (path : List UInt8)
    (hfuel : path.length ≤ fuel) (hhead : path.head? ≠ some slash) :
    lookupLoop nodes fuel cur path = resolve nodes cur (components path) := by
  induction fuel generalizing cur path with
  | zero =>
    obtain rfl : path = [] := by simpa using hfuel
    simp [lookupLoop, resolve]
  | succ fuel ih =>
    cases path with
    | nil => simp [lookupLoop, resolve]
    | cons c rest =>
      have hc : c ≠ slash := by simpa using hhead
      have hname : (c :: rest).takeWhile (· != slash) ≠ [] := by simp [hc]
      rw [components_takeWhile hname]
      simp only [lookupLoop, resolve, foldlM_cons, stepInto]
      split
      · simp
      · split
        · cases dirFind nodes cur ((c :: rest).takeWhile (· != slash)) with
          | none => simp
          | some next =>
            have hrest := ih next _ ((length_dropWhile_lt hc rest).trans (by simpa using hfuel)) (by
                intro hslash
                have := head?_dropWhile_not (p := (· == slash))
                  (l := (c :: rest).dropWhile (· != slash))
                simp [hslash] at this)
            rw [components_dropWhile] at hrest
            simpa [resolve] using hrest
        · simp

theorem vfsLookup_eq_resolve (s : State) (path : List UInt8) :
    vfsLookup s path = resolve s.nodes s.root (components path) := by
  rw [← components_dropWhile path]
  unfold vfsLookup
  cases hpath : path.dropWhile (· == slash) with
  | nil => simp [resolve]
  | cons c rest =>
    apply lookupLoop_eq_resolve _ _ _ _ le_rfl
    have := head?_dropWhile_not (p := (· == slash)) (l := path)
    simpa [hpath] using this

theorem lastSlash_of_notMem (h : slash ∉ path) (i : ℕ) (found : Option ℕ) :
    lastSlash i found path = found := by
  induction path generalizing i with
  | nil => rfl
  | cons c rest ih =>
    simp only [mem_cons, not_or] at h
    simp [lastSlash, Ne.symm h.1, ih h.2]

theorem lastSlash_append (h : slash ∉ name) (i : ℕ) (found : Option ℕ) :
    lastSlash i found (dir ++ slash :: name) = some (i + dir.length) := by
  induction dir generalizing i found with
  | nil => simp [lastSlash, lastSlash_of_notMem h]
  | cons c rest ih =>
    simp only [cons_append, lastSlash, ih, length_cons]
    congr 1
    omega

theorem exists_lastSlash (h : slash ∈ path) :
    ∃ dir name, path = dir ++ slash :: name ∧ slash ∉ name := by
  induction path with
  | nil => simp at h
  | cons c rest ih =>
    by_cases hrest : slash ∈ rest
    · obtain ⟨dir, name, rfl, hname⟩ := ih hrest
      exact ⟨c :: dir, name, rfl, hname⟩
    · have hc : c = slash := by
        rcases mem_cons.mp h with hc | hmem
        · exact hc.symm
        · exact absurd hmem hrest
      exact ⟨[], rest, by rw [hc, nil_append], hrest⟩

/-- A successful split takes the last component off; the empty path has the empty name. -/
theorem pathSplit_eq_some (h : pathSplit path dirSize nameSize = some (dir, name)) :
    slash ∉ name ∧ name.length < nameSize ∧
      (name ≠ [] → components path = components dir ++ [name]) := by
  by_cases hslash : slash ∈ path
  · obtain ⟨first, last, rfl, hlast⟩ := exists_lastSlash hslash
    simp only [pathSplit, lastSlash_append hlast, Nat.zero_add] at h
    split at h
    · cases h
    · split at h
      · cases h
      case isFalse hlength =>
        have hdrop : (first ++ slash :: last).drop (first.length + 1) = last := by
          rw [drop_append]
          simp
        rw [hdrop] at h hlength
        simp only [some.injEq, Prod.mk.injEq] at h
        obtain ⟨rfl, rfl⟩ := h
        refine ⟨hlast, by omega, fun hne ↦ ?_⟩
        rw [components_append_slash, components_of_notMem hlast hne]
        congr 1
        split
        case isTrue hzero =>
          rw [length_eq_zero_iff.mp hzero]
          simp
        case isFalse => simp
  · simp only [pathSplit, lastSlash_of_notMem hslash] at h
    split at h
    · cases h
    · simp only [some.injEq, Prod.mk.injEq] at h
      obtain ⟨rfl, rfl⟩ := h
      exact ⟨hslash, by omega, fun hne ↦ by simp [components_of_notMem hslash hne]⟩

theorem pathSplit_name_nil (h : pathSplit path dirSize nameSize = some (dir, [])) : path = [] := by
  unfold pathSplit at h
  split at h
  · split at h
    · cases h
    · simp only [some.injEq, Prod.mk.injEq] at h
      exact h.2
  · split at h
    · cases h
    · simp only [ite_none_left_eq_some, some.injEq, Prod.mk.injEq] at h
      exact absurd (by simp [h.2.2]) h.1

end ToastyUnix.Vfs
