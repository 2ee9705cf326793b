import ToastyUnix.Userspace.Doas

/-!
# The shadow file: passwd, login and doas

`main` of `userspace/passwd.c` with the functions that read and write the shadow file, and the two
programs that check a password against it, `authenticate` of `userspace/login.c` and
`check_password` of `userspace/doas.c`. The function `crypt` is a parameter.

The line of a user is rebuilt from its fields. `Entry.newLine` says when the new line is again one
line of that user, and `manage_entry` that `passwd` replaces the old one by it and nothing else.
-/

namespace ToastyUnix.Shadow

open Lines Doas List

/-! ## Reading the password files -/

def MAX_LINES : ℕ := 256

def LINE_MAXLEN : ℕ := 512

def colon : UInt8 := 58

/-- The mark of a locked account. -/
def bang : UInt8 := 33

/-- The strings in the buffer after each call of `fgets`. -/
def fgetsAll (content : Text) : List Text := (readAll newline (LINE_MAXLEN - 1) content).map cString

/-- The search of all three programs: the part behind the first colon of the first line with `user`
before it. -/
def findLine (user : Text) : List Text → Option Text
  | [] => none
  | line :: rest =>
    match splitColon line with
    | none => findLine user rest
    | some (name, fields) => if name = user then some fields else findLine user rest

/-- The text up to the next colon. -/
def upToColon (text : Text) : Text := text.takeWhile (· ≠ colon)

/-- `shadow_hash`; the file is `none` when it cannot be opened. -/
def shadowHash (shadow : Option Text) (user : Text) : Option Text :=
  shadow.bind fun content ↦ (findLine user (fgetsAll content)).map upToColon

/-- `authenticate`. -/
def authenticate (crypt : Text → Text → Option Text) (shadow : Option Text) (user pass : Text) :
    Bool :=
  match shadowHash shadow user with
  | none => false
  | some hash =>
    if hash = [] ∨ hash.head? = some bang then false else decide (crypt pass hash = some hash)

/-- `check_password`. -/
def checkPassword (crypt : Text → Text → Option Text) (shadow : Option Text) (user pass : Text) :
    Bool :=
  match shadow with
  | none => false
  | some content =>
    match findLine user (fgetsAll content) with
    | none => false
    | some fields =>
      if upToColon fields = [] ∨ (upToColon fields).head? = some bang then false
      else decide (crypt pass (upToColon fields) = some (upToColon fields))

/-! ## The options of passwd -/

/-- The variables that the command line sets. -/
structure Options where
  del : Bool := false
  lock : Bool := false
  unlock : Bool := false
  status : Bool := false
  min : ℤ := -1
  max : ℤ := -1
  warn : ℤ := -1
  inact : ℤ := -1
  user : Option Text := none

/-- How the loop over the arguments ends. An option without its value makes `atol` read address 0.
-/
inductive Parsed
  | fault
  | invalid
  | usage
  | ok (o : Options)

/-- The value of a string of digits. -/
def digits (s : Text) : ℤ :=
  (s.takeWhile isdigit).foldl (fun n c ↦ 10 * n + (c.toNat - 48 : ℤ)) 0

/-- The number at the start of a string, behind blanks and a sign. -/
def signed (s : Text) : ℤ :=
  match s.dropWhile isspace with
  | 45 :: rest => -digits rest
  | 43 :: rest => digits rest
  | rest => digits rest

/-- `atol`, whose arithmetic wraps. -/
def atol (s : Text) : ℤ := (signed s).bmod (2 ^ 64)

/-- The `switch` over the option letter. -/
def setOption (o : Options) (p : UInt8) (val : Option Text) : Parsed :=
  if p = 100 then .ok { o with del := true }
  else if p = 108 then .ok { o with lock := true }
  else if p = 117 then .ok { o with unlock := true }
  else if p = 83 then .ok { o with status := true }
  else if p = 110 then
    match val with
    | none => .fault
    | some v => .ok { o with min := atol v }
  else if p = 120 then
    match val with
    | none => .fault
    | some v => .ok { o with max := atol v }
  else if p = 119 then
    match val with
    | none => .fault
    | some v => .ok { o with warn := atol v }
  else if p = 105 then
    match val with
    | none => .fault
    | some v => .ok { o with inact := atol v }
  else .invalid

/-- The loop over the arguments. -/
def parse (o : Options) : List Text → Parsed
  | [] => .ok o
  | word :: rest =>
    match word with
    | 45 :: p :: value =>
      if value ≠ [] then
        match setOption o p (some value) with
        | .ok o => parse o rest
        | failed => failed
      else if p ∈ ascii "nxwi" then
        match rest with
        | [] => setOption o p none
        | v :: rest =>
          match setOption o p (some v) with
          | .ok o => parse o rest
          | failed => failed
      else
        match setOption o p none with
        | .ok o => parse o rest
        | failed => failed
    | _ =>
      match o.user with
      | none => parse { o with user := some word } rest
      | some _ => .usage

/-! ## Editing the shadow file -/

/-- `lines_load`: at most `MAX_LINES` strings. -/
def linesLoad (content : Text) : List Text := (fgetsAll content).take MAX_LINES

/-- The text that `lines_save` writes. -/
def linesSave (lines : List Text) : Text := lines.flatten

/-- How `lines_save` ends: all is written, `fopen` refuses and leaves the file alone, or something
fails behind the point where `fopen` cuts the file, and `left` is in it. -/
inductive Save
  | done
  | refused
  | cut (left : Text)
  deriving DecidableEq

/-- `lines_save`: its success, and the file. -/
def Save.write (save : Save) (file : Option Text) (lines : List Text) : Bool × Option Text :=
  match save with
  | .done => (true, some (linesSave lines))
  | .refused => (false, file)
  | .cut left => (false, some left)

/-- `shadow_fields`. -/
def shadowFields : ℕ → Text → List Text
  | 0, _ => []
  | n + 1, p =>
    match splitColon p with
    | none => [p]
    | some (field, rest) => field :: shadowFields n rest

/-- `shadow_get`: the first line of the user. -/
def shadowGet (user content : Text) : Option Text :=
  (findLine user (fgetsAll content)).map fun fields ↦ user ++ colon :: fields

/-- `snprintf` into a buffer of `size` bytes. -/
def snprintf (size : ℕ) (text : Text) : Text := text.take (size - 1)

/-- A hash without the mark of a locked account. -/
def unmarked (hash : Text) : Text := if hash.head? = some bang then hash.drop 1 else hash

/-- What the programs find: the two files (`none` when one cannot be opened), how saving the shadow
file ends, the names from `getlogin` and `$USER`, the effective user id, the answers to
the three prompts (`none` when nothing was typed) and a new salt. -/
structure Host where
  passwd : Option Text
  shadow : Option Text
  saves : Save
  getlogin : Option Text
  userVariable : Option Text
  euid : ℕ
  current : Option Text
  first : Option Text
  second : Option Text
  salt : Text

/-- The invoker has to know the current password, unless it is root. -/
def knowsPassword (crypt : Text → Text → Option Text) (host : Host) (hash : Text) : Bool :=
  match host.current with
  | none => false
  | some cur => hash ≠ [] ∧ hash.head? ≠ some bang ∧ crypt cur hash = some hash

/-- The hash that is stored: an exit code where no new password was accepted. -/
def newHash (crypt : Text → Text → Option Text) (host : Host) (o : Options) (hash : Text) :
    Except ℕ Text :=
  if o.del then .ok []
  else if o.lock then .ok (snprintf 128 (bang :: unmarked hash))
  else if o.unlock then .ok (snprintf 128 (unmarked hash))
  else if host.euid ≠ 0 ∧ knowsPassword crypt host hash = false then .error 1
  else
    match host.first, host.second with
    | some p1, some p2 =>
      if p1 ≠ p2 ∨ p1 = [] then .error 1
      else .ok (snprintf 128 ((crypt p1 host.salt).getD [bang]))
    | _, _ => .error 1

/-- Field `i` of the old line, or its default. -/
def agingField (fld : List Text) (i : ℕ) (default : Text) : Text :=
  snprintf 16 ((fld[i]?).getD default)

/-- An aging field, unless an option overrides it. -/
def overridden (value : ℤ) (field : Text) : Text :=
  if 0 ≤ value then snprintf 16 (ascii (toString value)) else field

/-- The five aging fields of the new line. -/
def aging (o : Options) (fld : List Text) : List Text :=
  [agingField fld 2 (ascii "0"), overridden o.min (agingField fld 3 (ascii "0")),
    overridden o.max (agingField fld 4 (ascii "99999")),
    overridden o.warn (agingField fld 5 (ascii "7")), overridden o.inact (agingField fld 6 [])]

/-- The text of the new line, with the format `"%s:%s:%s:%s:%s:%s:%s::\n"`. -/
def lineText (o : Options) (user newhash : Text) (fld : List Text) : Text :=
  [colon].intercalate (user :: newhash :: (aging o fld ++ [[], [newline]]))

/-- The new line as far as it fits the buffer. -/
def newLine (o : Options) (user newhash : Text) (fld : List Text) : Text :=
  snprintf LINE_MAXLEN (lineText o user newhash fld)

/-- The loop that replaces the line of the user. -/
def replaceLine (user new : Text) : List Text → List Text
  | [] => []
  | line :: rest =>
    match splitColon line with
    | none => line :: replaceLine user new rest
    | some (name, _) => if name = user then new :: rest else line :: replaceLine user new rest

/-- `main` after the account is known to exist: the exit code and the shadow file. -/
def manage (crypt : Text → Text → Option Text) (host : Host) (o : Options) (user : Text) :
    Option ℕ × Option Text :=
  match host.shadow with
  | none => (some 4, host.shadow)
  | some content =>
    match shadowGet user content with
    | none => (some 4, host.shadow)
    | some sh =>
      let fld := shadowFields 9 (sh.take (LINE_MAXLEN - 1))
      if o.status then (some 0, host.shadow)
      else
        match newHash crypt host o ((fld[1]?).getD []) with
        | .error code => (some code, host.shadow)
        | .ok newhash =>
          let (saved, shadow) := host.saves.write host.shadow
            (replaceLine user (newLine o user newhash fld) (linesLoad content))
          (some (if saved then 0 else 3), shadow)

/-- The account: the argument, or the login name of the invoker. -/
def account (host : Host) (o : Options) : Option Text :=
  match o.user with
  | some user => some user
  | none =>
    match host.getlogin.filter (· ≠ []) with
    | some user => some user
    | none => host.userVariable.filter (· ≠ [])

/-- `main` of `passwd`: the exit code, `none` after a fault, and the shadow file. -/
def main (crypt : Text → Text → Option Text) (host : Host) (argv : List Text) :
    Option ℕ × Option Text :=
  match parse {} argv with
  | .fault => (none, host.shadow)
  | .invalid => (some 6, host.shadow)
  | .usage => (some 2, host.shadow)
  | .ok o =>
    if o.del && (o.lock || o.unlock) then (some 2, host.shadow)
    else
      match account host o, host.passwd with
      | none, _ => (some 3, host.shadow)
      | some _, none => (some 4, host.shadow)
      | some user, some passwd =>
        if (findLine user (fgetsAll passwd)).isSome then manage crypt host o user
        else (some 1, host.shadow)

/-- The shadow file after `passwd -l`. -/
def locked (crypt : Text → Text → Option Text) (host : Host) (user : Text) : Option Text :=
  (main crypt host [ascii "-l", user]).2

/-- The shadow file after `passwd -l` and then `passwd -u`. -/
def unlocked (crypt : Text → Text → Option Text) (host : Host) (user : Text) : Option Text :=
  (main crypt { host with shadow := locked crypt host user } [ascii "-u", user]).2

/-! ## Fields and lines -/

theorem splitColon_append {name : Text} (hname : colon ∉ name) (rest : Text) :
    splitColon (name ++ colon :: rest) = some (name, rest) := by
  have htake : (name ++ colon :: rest).takeWhile (· ≠ 58) = name := by
    rw [takeWhile_append_of_pos]
    · simp [colon]
    · intro c hc
      simpa [colon] using fun heq : c = colon ↦ hname (heq ▸ hc)
  have hdrop : (name ++ colon :: rest).dropWhile (· ≠ 58) = colon :: rest := by
    rw [dropWhile_append_of_pos]
    · simp [colon]
    · intro c hc
      simpa [colon] using fun heq : c = colon ↦ hname (heq ▸ hc)
  rw [splitColon, hdrop, htake]

variable {line user : Text} {o : Options}

theorem splitColon_of_notMem (hline : colon ∉ line) : splitColon line = none := by
  have hdrop : line.dropWhile (· ≠ 58) = [] := by
    rw [dropWhile_eq_nil_iff]
    intro c hc
    simpa [colon] using fun heq : c = colon ↦ hline (heq ▸ hc)
  rw [splitColon, hdrop]

theorem upToColon_append {field : Text} (hfield : colon ∉ field) {rest : Text}
    (hrest : ∀ c ∈ rest.head?, c = colon) : upToColon (field ++ rest) = field := by
  rw [upToColon, takeWhile_append_of_pos]
  · cases rest with
    | nil => simp
    | cons c rest => simp [hrest c rfl]
  · intro c hc
    simpa using fun heq : c = colon ↦ hfield (heq ▸ hc)

theorem shadowFields_eq (n : ℕ) (p : Text) : shadowFields n p = (p.splitOn colon).take n := by
  induction n generalizing p with
  | zero => rfl
  | succ n ih =>
    rw [shadowFields]
    by_cases hp : colon ∈ p
    · obtain ⟨field, rest, rfl, hfield⟩ := eq_append_cons_of_mem hp
      rw [splitColon_append hfield, splitOn_append_cons rest hfield, take_succ_cons]
      exact congrArg (field :: ·) (ih rest)
    · rw [splitColon_of_notMem hp, splitOn_eq_singleton hp]
      simp

section FindLine

variable {user name fields : Text} {before after : List Text}

theorem findLine_append (v : Text) (before after : List Text) :
    findLine v (before ++ after) = (findLine v before).or (findLine v after) := by
  induction before with
  | nil => rfl
  | cons line before ih =>
    rw [cons_append, findLine, findLine]
    split
    · exact ih
    · split
      · rfl
      · exact ih

theorem findLine_cons (hname : colon ∉ name) (v fields : Text) (after : List Text) :
    findLine v ((name ++ colon :: fields) :: after) =
      if name = v then some fields else findLine v after := by
  rw [findLine, splitColon_append hname]

theorem replaceLine_append (hbefore : findLine user before = none) (huser : colon ∉ user)
    (new fields : Text) :
    replaceLine user new (before ++ (user ++ colon :: fields) :: after) =
      before ++ new :: after := by
  induction before with
  | nil => rw [nil_append, replaceLine, splitColon_append huser]; simp
  | cons line before ih =>
    rcases hline : splitColon line with - | ⟨name, rest⟩ <;>
      simp only [findLine, hline] at hbefore <;>
      simp only [cons_append, replaceLine, hline]
    · rw [ih hbefore]
    · split at hbefore
      · simp at hbefore
      · next hne => rw [if_neg hne, ih hbefore]

end FindLine

/-- The two programs that check a password agree. -/
theorem checkPassword_eq_authenticate (crypt : Text → Text → Option Text) (shadow : Option Text)
    (user pass : Text) :
    checkPassword crypt shadow user pass = authenticate crypt shadow user pass := by
  cases shadow with
  | none => rfl
  | some content =>
    rw [checkPassword, authenticate, shadowHash, Option.bind_some]
    cases findLine user (fgetsAll content) <;> rfl

/-- A file that was written piece by piece is read back as these pieces. -/
theorem fgetsAll_flatten {ps : List Text} (hps : ∀ p ∈ ps, IsPiece newline 511 p)
    (hzero : ∀ p ∈ ps, 0 ∉ p) : fgetsAll ps.flatten = ps := by
  have hread : readAll newline (LINE_MAXLEN - 1) ps.flatten = ps :=
    readAll_flatten (by decide) hps
  rw [fgetsAll, hread]
  calc ps.map cString = ps.map id := map_congr_left fun p hp ↦ takeWhile_ne_self (hzero p hp)
    _ = ps := map_id ps

/-- The part of field `i` that `passwd` copies. -/
def copied (i : ℕ) (field : Text) : Text := if i < 2 then field else snprintf 16 field

/-- The end of the line is not among the bytes that `passwd` copies. -/
def Closed (line : Text) : Prop :=
  ∀ i field, i < 7 → (line.splitOn colon)[i]? = some field → newline ∉ copied i field

/-- No option overrides an aging field. -/
def Options.KeepsAging (o : Options) : Prop := o.min < 0 ∧ o.max < 0 ∧ o.warn < 0 ∧ o.inact < 0

/-- The defaults of the aging fields. -/
def agingDefaults : List Text := [ascii "0", ascii "0", ascii "99999", ascii "7", []]

theorem aging_eq (ho : o.KeepsAging) (fld : List Text) :
    aging o fld = (agingDefaults.zipIdx 2).map fun d ↦ agingField fld d.2 d.1 := by
  obtain ⟨hmin, hmax, hwarn, hinact⟩ := ho
  simp [aging, agingDefaults, overridden, Int.not_le.mpr, hmin, hmax, hwarn, hinact]

/-- A byte that is in no default comes from a copied field. -/
theorem notMem_of_mem_aging (ho : o.KeepsAging) {x : UInt8} (hx : ∀ d ∈ agingDefaults, x ∉ d)
    {a : Text}
    (hfields : ∀ i field, i < 7 → (line.splitOn colon)[i]? = some field → x ∉ copied i field)
    (ha : a ∈ aging o (shadowFields 9 line)) : x ∉ a := by
  rw [aging_eq ho, mem_map] at ha
  obtain ⟨⟨d, i⟩, hd, rfl⟩ := ha
  have hmem : d ∈ agingDefaults := fst_mem_of_mem_zipIdx hd
  have hi : 2 ≤ i ∧ i < 7 := ⟨le_snd_of_mem_zipIdx hd, snd_lt_of_mem_zipIdx hd⟩
  rw [shadowFields_eq, agingField, getElem?_take_of_lt (by omega)]
  rcases hfield : (line.splitOn colon)[i]? with - | field
  · exact fun h ↦ hx d hmem (mem_of_mem_take h)
  · have := hfields i field hi.2 hfield
    rwa [copied, if_neg (by omega)] at this

theorem lineText_eq_append (o : Options) (user newhash : Text) (fld : List Text) :
    lineText o user newhash fld =
      [colon].intercalate (user :: newhash :: (aging o fld ++ [[], []])) ++ [newline] := by
  have happend :=
    intercalate_concat_append colon (user :: newhash :: (aging o fld ++ [[]])) [] [newline]
  simpa only [lineText, cons_append, append_assoc, nil_append] using happend

theorem lineText_eq_cons (o : Options) (user newhash : Text) (fld : List Text) :
    lineText o user newhash fld =
      user ++ colon :: (newhash ++ colon ::
        [colon].intercalate (aging o fld ++ [[], [newline]])) := by
  simp [lineText, aging, intercalate_cons_cons]

/-- The line of a user as the three programs read it. -/
structure Entry (user hash line : Text) : Prop where
  isPiece : IsPiece newline 511 line
  zero : 0 ∉ line
  closed : Closed line
  fields : ∃ fields, line = user ++ colon :: fields ∧ upToColon fields = hash

theorem newLine_isPiece {newhash : Text} {fld : List Text}
    (h : newline ∉ [colon].intercalate (user :: newhash :: (aging o fld ++ [[], []]))) :
    IsPiece newline 511 (newLine o user newhash fld) := by
  have htext := lineText_eq_append o user newhash fld
  rw [newLine, snprintf, htext]
  generalize [colon].intercalate (user :: newhash :: (aging o fld ++ [[], []])) = body at h
  by_cases hshort : body.length < 511
  · refine .inl ⟨body, h, hshort, take_of_length_le ?_⟩
    simpa [LINE_MAXLEN] using hshort
  · rw [take_append_of_le_length (by simpa [LINE_MAXLEN] using hshort)]
    refine .inr ⟨fun hmem ↦ h (mem_of_mem_take hmem), ?_⟩
    simp [LINE_MAXLEN]
    omega

section Entry

variable {user hash line : Text} {o : Options} {newhash : Text}

theorem splitOn_user (huser : colon ∉ user) (fields : Text) :
    (user ++ colon :: fields).splitOn colon = user :: fields.splitOn colon :=
  splitOn_append_cons fields huser

theorem copied_subset (i : ℕ) (field : Text) : copied i field ⊆ field := by
  rw [copied]
  split
  · exact Subset.refl field
  · exact take_subset _ field

variable {x : UInt8}

theorem notMem_copied (hx : x ∉ line) (i : ℕ) (field : Text) (_ : i < 7)
    (hfield : (line.splitOn colon)[i]? = some field) : x ∉ copied i field :=
  fun h ↦ hx (mem_of_mem_splitOn (mem_of_getElem? hfield) (copied_subset i field h))

/-- A byte of the new line is a colon, or from the name, the new hash or a copied field. -/
theorem notMem_intercalate (ho : o.KeepsAging) (hx : x ≠ colon) (huser : x ∉ user)
    (hnew : x ∉ newhash) (hdefaults : ∀ d ∈ agingDefaults, x ∉ d)
    (hfields : ∀ i field, i < 7 → (line.splitOn colon)[i]? = some field → x ∉ copied i field)
    {l : List Text} (hl : ∀ f ∈ l, x ∉ f) :
    x ∉ [colon].intercalate (user :: newhash :: (aging o (shadowFields 9 line) ++ l)) := by
  intro hmem
  rcases mem_of_mem_intercalate hmem with rfl | ⟨f, hf, hxf⟩
  · exact hx rfl
  · simp only [mem_cons, mem_append] at hf
    rcases hf with rfl | rfl | ha | hl'
    · exact huser hxf
    · exact hnew hxf
    · exact notMem_of_mem_aging ho hdefaults hfields ha hxf
    · exact hl f hl' hxf

theorem Entry.newline_notMem_user (h : Entry user hash line) (huser : colon ∉ user) :
    newline ∉ user := by
  obtain ⟨fields, rfl, -⟩ := h.fields
  exact h.closed 0 user (by decide) (by rw [splitOn_user huser]; rfl)

theorem Entry.zero_notMem_user (h : Entry user hash line) : 0 ∉ user := by
  obtain ⟨fields, rfl, -⟩ := h.fields
  exact fun hmem ↦ h.zero (mem_append_left _ hmem)

theorem newLine_closed (ho : o.KeepsAging) (hline : Closed line)
    (huser : colon ∉ user ∧ newline ∉ user) (hnew : colon ∉ newhash ∧ newline ∉ newhash) :
    Closed (newLine o user newhash (shadowFields 9 line)) := by
  have hdefaults : ∀ d ∈ agingDefaults, newline ∉ d := by decide
  have hcolon : ∀ a ∈ aging o (shadowFields 9 line), colon ∉ a := by
    intro a ha
    refine notMem_of_mem_aging ho (by decide) (fun i field _ hfield h ↦ ?_) ha
    exact notMem_of_mem_splitOn (mem_of_getElem? hfield) (copied_subset i field h)
  have hnewline : ∀ a ∈ aging o (shadowFields 9 line), newline ∉ a := fun a ha ↦
    notMem_of_mem_aging ho hdefaults hline ha
  by_cases hfits : (lineText o user newhash (shadowFields 9 line)).length ≤ 511
  · have hwhole : newLine o user newhash (shadowFields 9 line) =
        lineText o user newhash (shadowFields 9 line) := take_of_length_le hfits
    have hsplit : (lineText o user newhash (shadowFields 9 line)).splitOn colon =
        user :: newhash :: (aging o (shadowFields 9 line) ++ [[], [newline]]) := by
      apply splitOn_intercalate
      · simp only [mem_cons, mem_append]
        rintro l (rfl | rfl | ha | rfl | rfl | h)
        exacts [huser.1, hnew.1, hcolon l ha, by simp, by decide, by simp at h]
      · simp
    intro i field hi hfield
    rw [hwhole, hsplit, ← cons_append, ← cons_append,
      getElem?_append_left (by simpa [aging] using hi)] at hfield
    have hmem := mem_of_getElem? hfield
    simp only [mem_cons] at hmem
    intro h
    have h := copied_subset i field h
    rcases hmem with rfl | rfl | ha
    exacts [huser.2 h, hnew.2 h, hnewline field ha h]
  · -- the end of the line is cut off
    have hfree := notMem_intercalate ho (by decide) huser.2 hnew.2 hdefaults
      hline (by simp : ∀ f ∈ [([] : Text), []], newline ∉ f)
    refine notMem_copied fun h ↦ hfree ?_
    rw [lineText_eq_append, length_append, length_singleton] at hfits
    rw [newLine, lineText_eq_append, snprintf,
      take_append_of_le_length (by simpa [LINE_MAXLEN] using hfits)] at h
    exact mem_of_mem_take h

/-- The line that `passwd` writes holds the new hash, whatever was cut off. -/
theorem Entry.newLine (h : Entry user hash line) (ho : o.KeepsAging) (huser : colon ∉ user)
    (hcolon : colon ∉ newhash) (hnewline : newline ∉ newhash) (hzero : 0 ∉ newhash)
    (hfit : user.length + 1 + newhash.length ≤ 511) :
    Entry user newhash (newLine o user newhash (shadowFields 9 line)) where
  isPiece := by
    apply newLine_isPiece
    exact notMem_intercalate ho (by decide) (h.newline_notMem_user huser) hnewline (by decide)
      h.closed (by simp)
  zero := by
    have hfree : 0 ∉ lineText o user newhash (shadowFields 9 line) :=
      notMem_intercalate ho (by decide) h.zero_notMem_user hzero (by decide)
        (notMem_copied h.zero) (by decide)
    exact fun hmem ↦ hfree (mem_of_mem_take hmem)
  closed := newLine_closed ho h.closed ⟨huser, h.newline_notMem_user huser⟩ ⟨hcolon, hnewline⟩
  fields := by
    rw [Shadow.newLine, lineText_eq_cons, snprintf]
    generalize [colon].intercalate (aging o (shadowFields 9 line) ++ [[], [newline]]) = rest
    have huserFits : user.length ≤ LINE_MAXLEN - 1 := by
      simp only [LINE_MAXLEN]
      omega
    have hsize : LINE_MAXLEN - 1 - user.length = LINE_MAXLEN - 2 - user.length + 1 := by
      simp only [LINE_MAXLEN]
      omega
    have hnewFits : newhash.length ≤ LINE_MAXLEN - 2 - user.length := by
      simp only [LINE_MAXLEN]
      omega
    rw [take_append, take_of_length_le huserFits, hsize, take_succ_cons,
      take_append, take_of_length_le hnewFits]
    refine ⟨_, rfl, upToColon_append hcolon ?_⟩
    cases LINE_MAXLEN - 2 - user.length - newhash.length <;> simp

end Entry

/-! ## Locking and unlocking -/

/-- A word that `main` takes for an option. -/
def isOption : Text → Bool
  | 45 :: _ :: _ => true
  | _ => false

theorem parse_user (huser : isOption user = false) (ho : o.user = none) :
    parse o [user] = .ok { o with user := some user } := by
  have hword : ∀ p value, user = 45 :: p :: value → False := by
    rintro p value rfl
    simp [isOption] at huser
  rw [parse, ho]
  · rfl
  · exact hword

/-- An option without a value, in a word of its own. -/
theorem parse_flag {word : Text} {p : UInt8} {o' : Options} (hword : word = [45, p])
    (hletter : p ∉ ascii "nxwi") (hset : setOption o p none = .ok o') (rest : List Text) :
    parse o (word :: rest) = parse o' rest := by
  rw [hword]
  conv_lhs => unfold parse
  simp [hletter, hset]

/-- A shadow file as the pieces that `fgets` reads. -/
structure IsPieces (ps : List Text) : Prop where
  few : ps.length ≤ MAX_LINES
  isPiece : ∀ p ∈ ps, IsPiece newline 511 p
  zero : ∀ p ∈ ps, 0 ∉ p

/-- The account exists and the shadow file can be written. -/
structure Serves (host : Host) (user : Text) : Prop where
  saves : host.saves = .done
  exists_passwd : ∃ passwd, host.passwd = some passwd ∧ (findLine user (fgetsAll passwd)).isSome

section Edit

variable {user hash line newhash : Text} {before after : List Text} {host : Host} {o : Options}
  {crypt : Text → Text → Option Text}

theorem Entry.findLine_append (h : Entry user hash line) (huser : colon ∉ user)
    (hbefore : findLine user before = none) (after : List Text) :
    (findLine user (before ++ line :: after)).map upToColon = some hash := by
  obtain ⟨fields, rfl, hhash⟩ := h.fields
  rw [Shadow.findLine_append, hbefore, findLine_cons huser, if_pos rfl]
  exact congrArg some hhash

theorem Entry.findLine_append_of_ne (h : Entry user hash line) (huser : colon ∉ user) {v : Text}
    (hv : v ≠ user) (before after : List Text) :
    findLine v (before ++ line :: after) = (findLine v before).or (findLine v after) := by
  obtain ⟨fields, rfl, hhash⟩ := h.fields
  rw [Shadow.findLine_append, findLine_cons huser, if_neg hv.symm]

theorem IsPieces.shadowHash {ps : List Text} (hps : IsPieces ps) (v : Text) :
    shadowHash (some ps.flatten) v = (findLine v ps).map upToColon := by
  rw [Shadow.shadowHash, Option.bind_some, fgetsAll_flatten hps.isPiece hps.zero]

theorem head?_splitOn (fields : Text) :
    (fields.splitOn colon)[0]? = some (upToColon fields) := by
  by_cases hmem : colon ∈ fields
  · obtain ⟨field, rest, rfl, hfield⟩ := eq_append_cons_of_mem hmem
    rw [splitOn_append_cons rest hfield, upToColon_append hfield (by simp)]
    rfl
  · rw [splitOn_eq_singleton hmem]
    have hself : upToColon (fields ++ []) = fields := upToColon_append hmem (by simp)
    rw [append_nil] at hself
    rw [hself]
    rfl

/-- `passwd` with the options `o` replaces the line of the user. -/
theorem manage_entry (hhost : host.saves = .done) (hstatus : o.status = false)
    (huser : colon ∉ user)
    (hfields : ∃ fields, line = user ++ colon :: fields ∧ upToColon fields = hash)
    (hbefore : findLine user before = none) (hps : IsPieces (before ++ line :: after))
    (hnew : newHash crypt host o hash = .ok newhash)
    (hshadow : host.shadow = some (before ++ line :: after).flatten) :
    (manage crypt host o user).2 =
      some (before ++ newLine o user newhash (shadowFields 9 line) :: after).flatten := by
  obtain ⟨fields, hline, hhash⟩ := hfields
  have hread := fgetsAll_flatten hps.isPiece hps.zero
  have hget : shadowGet user (before ++ line :: after).flatten = some line := by
    rw [shadowGet, hread, Shadow.findLine_append, hbefore, hline, findLine_cons huser, if_pos rfl]
    rfl
  have htake : line.take (LINE_MAXLEN - 1) = line :=
    take_of_length_le (hps.isPiece line (by simp)).length_le
  have hfield : ((shadowFields 9 line)[1]?).getD [] = hash := by
    rw [shadowFields_eq, getElem?_take_of_lt (by decide), hline, splitOn_user huser,
      getElem?_cons_succ, head?_splitOn, hhash]
    rfl
  have hload : linesLoad (before ++ line :: after).flatten = before ++ line :: after := by
    rw [linesLoad, hread, take_of_length_le hps.few]
  simp only [manage, hshadow, hget, hstatus, htake, hfield, hnew, hhost, hload, Save.write,
    linesSave, Bool.false_eq_true, if_false]
  rw [hline, replaceLine_append hbefore huser]

/-- The whole program with one option word in front of the user. -/
theorem main_entry {word : Text} (hserves : Serves host user)
    (hparse : parse {} [word, user] = .ok o) (hdel : o.del = false) (ho : o.user = some user) :
    main crypt host [word, user] = manage crypt host o user := by
  obtain ⟨passwd, hpasswd, hfound⟩ := hserves.exists_passwd
  simp [main, hparse, hdel, account, ho, hpasswd, hfound]

end Edit

end ToastyUnix.Shadow
