import ToastyUnix.Lib.BoundedStack
import ToastyUnix.Vfs.Rootfs

/-!
# The working directory of the shell

The file system knows absolute paths only, and `path_resolve` of `kernel/shell/cmd_fs.c` makes one
out of an argument and the working directory. Its array has room for 32 components and silently
drops what comes on top of them, so that a later `..` removes a component that should stay. The
result is right exactly when every excess is followed by a way back to the root
(`pathResolve_eq_iff`). `cmd_cd` then copies the path into a buffer for 127 bytes and cuts longer
ones.
-/

namespace ToastyUnix.Shell

open Vfs BoundedStack List

abbrev Path := List UInt8

def PATH_BUF : ℕ := 256

/-- The number of entries of `segs` and `lens`. -/
def SEGS : ℕ := 32

/-- What the loop of `path_resolve` does with a component. -/
def addSegment (segs : List Path) (s : Path) : List Path :=
  if s = [46] then segs
  else if s = [46, 46] then segs.dropLast
  else if segs.length < SEGS then segs ++ [s]
  else segs

/-- The loop that splits a path; a pass moves forward. -/
def splitLoop : ℕ → Path → List Path → List Path
  | 0, _, segs => segs
  | fuel + 1, p, segs =>
    let p := p.dropWhile (· == slash)
    if p = [] then segs
    else
      splitLoop fuel (p.dropWhile (· != slash)) (addSegment segs (p.takeWhile (· != slash)))

/-- The loop that rebuilds a path behind `w`, with `left` bytes of the buffer. -/
def rebuildLoop : List Path → ℕ → ℕ → Path → Path
  | [], _, _, w => w
  | s :: segs, i, left, w =>
    if left > 1 then
      let (w, left) := if i > 0 then (w ++ [slash], left - 1) else (w, left)
      let l := if s.length < left - 1 then s.length else left - 1
      rebuildLoop segs (i + 1) (left - l) (w ++ s.take l)
    else w

/-- `tmp`, unless the path is too long for it. -/
def tmpPath (cwd arg : Path) : Option Path :=
  if arg.head? = some slash then some (arg.take (PATH_BUF + 32 - 1))
  else if PATH_BUF + 32 ≤ cwd.length + 1 + arg.length then none
  else some (cwd ++ slash :: arg)

/-- `path_resolve`. -/
def pathResolve (cwd arg : Path) (outsz : ℕ) : Path :=
  match tmpPath cwd arg with
  | none => [slash]
  | some tmp => rebuildLoop (splitLoop tmp.length tmp []) 0 (outsz - 1) [slash]

/-- `g_cwd` and `g_oldpwd`. -/
structure Dirs where
  cwd : Path
  oldpwd : Path

/-- Open a path and read a record, which works for directories only. -/
def readsDirectory (s : State) (path : Path) (choice : Option Addr) : Bool × State :=
  match vfsOpen s (some path) O_RDONLY none choice with
  | (fd, s) =>
    if fd < 0 then (false, s)
    else
      match vfsReaddir s fd true direntSize with
      | (r, _, s) => (decide (0 ≤ r), (vfsClose s fd).2)

/-- The target that `cmd_cd` picks, with the arguments behind the name. -/
def cdTarget (d : Dirs) : List Path → Option Path
  | [] => some [slash]
  | arg :: _ =>
    if arg = [45] then if d.oldpwd = [] then none else some d.oldpwd
    else if arg = [126] then some [slash]
    else some arg

/-- `cmd_cd`; the result is its status. -/
def cmdCd (d : Dirs) (args : List Path) (s : State) (choice : Option Addr) : ℕ × Dirs × State :=
  match cdTarget d args with
  | none => (1, d, s)
  | some target =>
    let resolved := pathResolve d.cwd target PATH_BUF
    match readsDirectory s resolved choice with
    | (false, s) => (1, d, s)
    | (true, s) => (0, ⟨resolved.take 127, d.cwd.take 127⟩, s)

/-! ## What a path stands for -/

/-- The path with the working directory in front of a relative one. -/
def fullPath (cwd arg : Path) : Path :=
  if arg.head? = some slash then arg else cwd ++ slash :: arg

/-- Drop `.`, and let `..` remove the component before it. -/
def normalize (names : List Path) : List Path :=
  names.foldl
    (fun path name ↦
      if name = [46] then path else if name = [46, 46] then path.dropLast else path ++ [name]) []

def join (names : List Path) : Path := slash :: joined names

/-- The normalized path that an argument stands for. -/
def resolved (cwd arg : Path) : Path := join (normalize (components (fullPath cwd arg)))

/-- What a component does to the path in front of it. -/
def opOf (name : Path) : Op Path :=
  if name = [46] then .skip else if name = [46, 46] then .pop else .push name

theorem addSegment_eq (segs : List Path) (name : Path) :
    addSegment segs name = stepWithin SEGS segs (opOf name) := by
  rw [addSegment, opOf]
  split
  · rfl
  split <;> rfl

theorem normalize_eq (names : List Path) : normalize names = walk (names.map opOf) := by
  rw [normalize, walk, foldl_map]
  congr 1
  funext path name
  rw [opOf]
  split
  · rfl
  split <;> rfl

/-! ## Splitting and joining -/

theorem splitLoop_eq (fuel : ℕ) (p : Path) (segs : List Path) (hfuel : p.length ≤ fuel) :
    splitLoop fuel p segs = (components p).foldl addSegment segs := by
  induction fuel generalizing p segs with
  | zero =>
    obtain rfl : p = [] := length_eq_zero_iff.mp (Nat.le_zero.mp hfuel)
    rfl
  | succ fuel ih =>
    rw [splitLoop, ← components_dropWhile p]
    have hshort := (dropWhile_suffix (· == slash) (l := p)).length_le
    generalize hrest : p.dropWhile (· == slash) = rest at hshort ⊢
    cases rest with
    | nil => rfl
    | cons c rest =>
      have hc : c ≠ slash := by
        have hhead := head?_dropWhile_not (· == slash) p
        rw [hrest] at hhead
        simpa using hhead
      have hname : (c :: rest).takeWhile (· != slash) ≠ [] := by simp [hc]
      have hlen : ((c :: rest).dropWhile (· != slash)).length ≤ fuel := by
        have hle := (dropWhile_suffix (· != slash) (l := rest)).length_le
        rw [length_cons] at hshort
        have hdrop : (c :: rest).dropWhile (· != slash) = rest.dropWhile (· != slash) := by
          simp [hc]
        rw [hdrop]
        omega
      rw [if_neg (cons_ne_nil _ _), ih _ _ hlen, components_takeWhile hname, foldl_cons]

theorem splitLoop_eq_walkWithin (p : Path) :
    splitLoop p.length p [] = walkWithin SEGS ((components p).map opOf) := by
  rw [splitLoop_eq _ _ _ le_rfl, walkWithin, foldl_map]
  congr 1
  funext segs name
  exact addSegment_eq segs name

/-- The bytes of names with a slash in front of each. -/
def weight (names : List Path) : ℕ := (names.map fun name ↦ name.length + 1).sum

theorem weight_append (first second : List Path) :
    weight (first ++ second) = weight first + weight second := by
  simp [weight]

theorem weight_dropLast_le (names : List Path) : weight names.dropLast ≤ weight names := by
  rcases eq_nil_or_concat' names with rfl | ⟨names, name, rfl⟩
  · exact le_rfl
  · rw [dropLast_concat, weight_append]
    exact Nat.le_add_right _ _

theorem weight_addSegments_le (names segs : List Path) :
    weight (names.foldl addSegment segs) ≤ weight segs + weight names := by
  induction names generalizing segs with
  | nil => exact le_rfl
  | cons name names ih =>
    have hstep : weight (addSegment segs name) ≤ weight segs + weight [name] := by
      rw [addSegment]
      split
      · exact Nat.le_add_right _ _
      split
      · exact (weight_dropLast_le segs).trans (Nat.le_add_right _ _)
      split
      · rw [weight_append]
      · exact Nat.le_add_right _ _
    have hcons : weight (name :: names) = weight [name] + weight names := weight_append [name] names
    have hrest := ih (addSegment segs name)
    rw [foldl_cons]
    omega

/-- The first name of a path, and the rest from the slash behind it on. -/
theorem components_cases (p : Path) :
    components p = [] ∨ ∃ name rest, components p = name :: components rest ∧ name ≠ [] ∧
      slash ∉ name ∧ name.length + rest.length ≤ p.length ∧
      (rest = [] ∨ ∃ tail, rest = slash :: tail) := by
  rw [← components_dropWhile p]
  have hshort := (dropWhile_suffix (· == slash) (l := p)).length_le
  have hhead := head?_dropWhile_not (· == slash) p
  generalize p.dropWhile (· == slash) = start at hshort hhead ⊢
  cases start with
  | nil => exact .inl components_nil
  | cons c start =>
    have hc : c ≠ slash := by simpa using hhead
    have hname : (c :: start).takeWhile (· != slash) ≠ [] := by simp [hc]
    have hafter := head?_dropWhile_not (· != slash) (c :: start)
    refine .inr ⟨_, _, components_takeWhile hname, hname, fun hmem ↦ ?_, ?_, ?_⟩
    · simpa using mem_takeWhile_imp hmem
    · rwa [← length_append, takeWhile_append_dropWhile]
    · generalize (c :: start).dropWhile (· != slash) = rest at hafter ⊢
      cases rest with
      | nil => exact .inl rfl
      | cons d tail =>
        obtain rfl : d = slash := by simpa using hafter
        exact .inr ⟨tail, rfl⟩

theorem weight_components_le (p : Path) : weight (components p) ≤ p.length + 1 := by
  induction hn : p.length using Nat.strong_induction_on generalizing p with
  | _ n ih =>
    subst hn
    rcases components_cases p with hnil | ⟨name, rest, hcons, hname, -, hlen, hrest⟩
    · rw [hnil]
      exact Nat.zero_le _
    · have hpos := length_pos_iff.mpr hname
      have hweight : weight (components p) = name.length + 1 + weight (components rest) := by
        rw [hcons]
        exact weight_append [name] (components rest)
      rcases hrest with rfl | ⟨tail, rfl⟩
      · have hzero : weight (components []) = 0 := rfl
        omega
      · rw [components_slash] at hweight
        rw [length_cons] at hlen
        have hle := ih tail.length (by omega) tail rfl
        omega

variable {name cwd : Path} {names : List Path}

theorem mem_components {p : Path} (h : name ∈ components p) : name ≠ [] ∧ slash ∉ name := by
  induction hn : p.length using Nat.strong_induction_on generalizing p with
  | _ n ih =>
    subst hn
    rcases components_cases p with hnil | ⟨first, rest, hcons, hfirst, hslash, hlen, -⟩
    · rw [hnil] at h
      cases h
    · have hpos := length_pos_iff.mpr hfirst
      rw [hcons] at h
      rcases mem_cons.mp h with rfl | hmem
      · exact ⟨hfirst, hslash⟩
      · exact ih rest.length (by omega) hmem rfl

theorem join_cons (name : Path) (names : List Path) :
    join (name :: names) = slash :: (name ++ names.flatMap (slash :: ·)) := by
  induction names generalizing name with
  | nil => simp [join, joined]
  | cons next names ih =>
    have hnext : joined (next :: names) = next ++ names.flatMap (slash :: ·) :=
      tail_eq_of_cons_eq (ih next)
    have hsplit : joined ([name] ++ next :: names) =
        joined [name] ++ slash :: joined (next :: names) :=
      joined_append (cons_ne_nil _ _) (cons_ne_nil _ _)
    rw [hnext] at hsplit
    have hstart : name :: next :: names = [name] ++ next :: names := rfl
    rw [join, hstart, hsplit]
    simp [joined]

theorem rebuildLoop_eq (segs : List Path) (i left : ℕ) (w : Path) (hi : 0 < i)
    (hfits : weight segs < left) :
    rebuildLoop segs i left w = w ++ segs.flatMap (slash :: ·) := by
  induction segs generalizing i left w with
  | nil => simp [rebuildLoop]
  | cons s segs ih =>
    have hcons : weight (s :: segs) = s.length + 1 + weight segs := weight_append [s] segs
    rw [hcons] at hfits
    have hlen : (if s.length < left - 1 - 1 then s.length else left - 1 - 1) = s.length := by
      split <;> omega
    rw [rebuildLoop, if_pos (by omega), if_pos hi]
    simp only [hlen, take_length]
    rw [ih (i + 1) _ _ (Nat.succ_pos _) (by omega)]
    simp

theorem rebuildLoop_eq_join (segs : List Path) (left : ℕ) (hfits : weight segs ≤ left) :
    rebuildLoop segs 0 left [slash] = join segs := by
  cases segs with
  | nil => rfl
  | cons s segs =>
    have hcons : weight (s :: segs) = s.length + 1 + weight segs := weight_append [s] segs
    rw [hcons] at hfits
    rw [rebuildLoop, join_cons]
    by_cases hroom : left > 1
    · have hlen : (if s.length < left - 1 then s.length else left - 1) = s.length := by
        split <;> omega
      rw [if_pos hroom, if_neg (lt_irrefl 0)]
      simp only [hlen, take_length]
      rw [rebuildLoop_eq _ _ _ _ Nat.one_pos (by omega)]
      rfl
    · -- only an empty name leaves no room for a byte
      obtain rfl : s = [] := length_eq_zero_iff.mp (by omega)
      have hnone : weight segs = 0 := by omega
      obtain rfl : segs = [] := by
        cases segs with
        | nil => rfl
        | cons t segs => simp [weight] at hnone
      rw [if_neg hroom]
      rfl

/-! ## The resolved path -/

theorem mem_of_push (h : .push name ∈ names.map opOf) :
    name ∈ names ∧ name ≠ [46] ∧ name ≠ [46, 46] := by
  obtain ⟨origin, horigin, hop⟩ := mem_map.mp h
  rw [opOf] at hop
  split at hop
  · cases hop
  case isFalse hdot =>
    split at hop
    · cases hop
    case isFalse hdots =>
      cases hop
      exact ⟨horigin, hdot, hdots⟩

theorem components_join (h : ∀ name ∈ names, name ≠ [] ∧ slash ∉ name) :
    components (join names) = names := by
  rw [join, components_slash]
  exact components_joined_of_ne_nil (fun name hname ↦ (h name hname).1)
    fun name hname ↦ (h name hname).2

theorem head?_fullPath (hcwd : cwd.head? = some slash) (arg : Path) :
    (fullPath cwd arg).head? = some slash := by
  rw [fullPath]
  split
  · assumption
  · rw [head?_append, hcwd]
    rfl

theorem length_fullPath_le {arg : Path} (hlen : cwd.length ≤ 127) (harg : arg.length ≤ 127) :
    (fullPath cwd arg).length ≤ 255 := by
  rw [fullPath]
  split
  · omega
  · rw [length_append, length_cons]
    omega

section Resolve

variable {cwd arg : Path} (hcwd : cwd.head? = some slash) (hlen : cwd.length ≤ 127)
  (harg : arg.length ≤ 127)

include hcwd hlen harg

theorem weight_splitLoop_le :
    weight (splitLoop (fullPath cwd arg).length (fullPath cwd arg) []) ≤ 255 := by
  have hweight : weight (components (fullPath cwd arg)) ≤ 255 := by
    have hshort := length_fullPath_le hlen harg
    obtain ⟨tail, htail⟩ := head?_eq_some_iff.mp (head?_fullPath hcwd arg)
    rw [htail, components_slash]
    rw [htail, length_cons] at hshort
    have hle := weight_components_le tail
    omega
  rw [splitLoop_eq _ _ _ le_rfl]
  have hle := weight_addSegments_le (components (fullPath cwd arg)) []
  have hnil : weight [] = 0 := rfl
  omega

/-- The path is that of the components that are left. -/
theorem pathResolve_eq_join :
    pathResolve cwd arg PATH_BUF =
      join (walkWithin SEGS ((components (fullPath cwd arg)).map opOf)) := by
  have htmp : tmpPath cwd arg = some (fullPath cwd arg) := by
    rw [tmpPath, fullPath, PATH_BUF]
    split
    · rw [take_of_length_le (by omega)]
    · rw [if_neg (by omega)]
  rw [pathResolve, htmp, ← splitLoop_eq_walkWithin]
  exact rebuildLoop_eq_join _ _ (weight_splitLoop_le hcwd hlen harg)

theorem components_pathResolve :
    components (pathResolve cwd arg PATH_BUF) =
      walkWithin SEGS ((components (fullPath cwd arg)).map opOf) := by
  rw [pathResolve_eq_join hcwd hlen harg]
  exact components_join fun name hname ↦ mem_components (mem_of_push (mem_walkWithin hname)).1

/-- The path is right exactly when the walk comes back to the root after each time it was too deep.
-/
theorem pathResolve_eq_iff :
    pathResolve cwd arg PATH_BUF = resolved cwd arg ↔
      Recovers SEGS ((components (fullPath cwd arg)).map opOf) := by
  rw [← walkWithin_eq_iff, ← components_pathResolve hcwd hlen harg]
  have hnormal : components (resolved cwd arg) =
      walk ((components (fullPath cwd arg)).map opOf) := by
    rw [resolved, normalize_eq]
    exact components_join fun name hname ↦ mem_components (mem_of_push (mem_walk hname)).1
  constructor
  · intro h
    rw [h, hnormal]
  · intro h
    rw [pathResolve_eq_join hcwd hlen harg, ← components_pathResolve hcwd hlen harg, h, resolved,
      normalize_eq]

end Resolve

/-! ## Changing the directory -/

theorem cmdCd_eq {d : Dirs} {args : List Path} {target : Path}
    (htarget : cdTarget d args = some target) (s : State) (choice : Option Addr) :
    let path := pathResolve d.cwd target PATH_BUF
    ((cmdCd d args s choice).1 = 0 ↔ (readsDirectory s path choice).1 = true) ∧
      ((cmdCd d args s choice).1 = 0 → (cmdCd d args s choice).2.1.cwd = path.take 127) := by
  rw [cmdCd, htarget]
  dsimp only
  rcases readsDirectory s (pathResolve d.cwd target PATH_BUF) choice with ⟨_ | _, s'⟩
  · exact ⟨⟨fun h ↦ absurd h Nat.one_ne_zero, fun h ↦ absurd h Bool.false_ne_true⟩,
      fun h ↦ absurd h Nat.one_ne_zero⟩
  · exact ⟨⟨fun _ ↦ rfl, fun _ ↦ rfl⟩, fun _ ↦ rfl⟩

/-- A resolved path is the normalized one, and the working directory behind a `cd` is the directory
opened, exactly when the walk over the components comes back to the root after every time that it
was more than 32 levels deep, and no directory with a longer path than 127 bytes is opened. -/
theorem cd_exact_iff (d : Dirs) (target : Path) (s : State) (choice : Option Addr)
    (hcwd : d.cwd.head? = some slash) (hlen : d.cwd.length ≤ 127) (htarget : target.length ≤ 127) :
    (pathResolve d.cwd target PATH_BUF = resolved d.cwd target ∧
      ∀ args, cdTarget d args = some target → (cmdCd d args s choice).1 = 0 →
        (cmdCd d args s choice).2.1.cwd = pathResolve d.cwd target PATH_BUF) ↔
    Recovers SEGS ((components (fullPath d.cwd target)).map opOf) ∧
      ∀ args, cdTarget d args = some target →
        (readsDirectory s (resolved d.cwd target) choice).1 = true →
          (resolved d.cwd target).length ≤ 127 := by
  rw [pathResolve_eq_iff hcwd hlen htarget]
  refine and_congr_right fun hrecovers ↦ forall_congr' fun args ↦ forall_congr' fun hargs ↦ ?_
  rw [← (pathResolve_eq_iff hcwd hlen htarget).mpr hrecovers]
  obtain ⟨hstatus, hmoved⟩ := cmdCd_eq hargs s choice
  rw [← hstatus]
  refine forall_congr' fun hok ↦ ?_
  rw [hmoved hok, take_eq_self_iff]

/-- A tree with the directories `/a` and `/a/b`. -/
def twoDirs : State :=
  let nodes := dirAttach (emptyTree 0) 0 1 (freshNode [97] .dir 0o755 none)
  ⟨0, dirAttach nodes 1 2 (freshNode [98] .dir 0o755 none), ∅, ∅, fun _ ↦ none, some 0⟩

/-- `cd ../a/./b` in `/a` leads to `/a/b`. -/
theorem cd_exact_iff_twoDirs :
    let d : Dirs := ⟨ascii "/a", []⟩
    (cmdCd d [ascii "../a/./b"] twoDirs (some 5)).1 = 0 ∧
      (cmdCd d [ascii "../a/./b"] twoDirs (some 5)).2.1.cwd = ascii "/a/b" := by
  intro d
  have hrecovers : Recovers SEGS ((components (fullPath d.cwd (ascii "../a/./b"))).map opOf) :=
    (walkWithin_eq_iff _ _).mp (by decide +kernel)
  have hshort : (resolved d.cwd (ascii "../a/./b")).length ≤ 127 := by decide +kernel
  have h := (cd_exact_iff d (ascii "../a/./b") twoDirs (some 5) (by decide) (by decide)
    (by decide)).mpr ⟨hrecovers, fun _ _ _ ↦ hshort⟩
  have hok : (cmdCd d [ascii "../a/./b"] twoDirs (some 5)).1 = 0 := by decide +kernel
  exact ⟨hok, (h.2 [ascii "../a/./b"] rfl hok).trans (by decide +kernel)⟩
/-- The component on top of 32 others is dropped. -/
theorem pathResolve_drops_component :
    let arg : Path := (List.replicate 33 [97, slash]).flatten
    arg.length ≤ 127 ∧ pathResolve [slash] arg PATH_BUF ≠ resolved [slash] arg := by
  decide +kernel

end ToastyUnix.Shell
