import ToastyUnix.Userspace.Passwd

/-!
# Adding an account

`main` of `userspace/useradd.c`, from the parsed options on, with the functions that search the
password and the group file. The uid of a new account is one more than a maximum over the file, and
the gid of `-g` is looked up in the group file. Both read a field too early: `uid_unused_iff` and
`gid_recorded_iff` say when the account gets the right numbers all the same.
-/

namespace ToastyUnix.Useradd

open Lines Doas Shadow List

/-- The variables that the command line sets. -/
structure Options where
  name : Text
  base : Text := ascii "/home"
  comment : Text := []
  home : Option Text := none
  group : Option Text := none
  shell : Text := ascii "/bin/tsh"
  uid : Option (Fin (2 ^ 31)) := none
  systemAcct : Bool := false
  makeHome : Bool := false
  /-- What `crypt` makes of `-p`. -/
  hash : Text := ascii "!"

/-- The three files (`none` when one cannot be opened), how saving each of them ends, and whether the
home directory can be made. -/
structure Host where
  passwd : Option Text
  shadow : Option Text := none
  group : Option Text
  savesPasswd : Save := .done
  savesShadow : Save := .done
  savesGroup : Save := .done
  makesHome : Bool := true

/-- `atoi`: an `int`. -/
def atoi (s : Text) : ℤ := (signed s).bmod (2 ^ 32)

def digitByte (d : ℕ) : UInt8 := UInt8.ofNat (48 + d)

def numeral (n : ℕ) : Text := if n = 0 then [48] else (Nat.digits 10 n).reverse.map digitByte

/-- The conversion `%d`. -/
def decimal (n : ℤ) : Text := if n < 0 then 45 :: numeral n.natAbs else numeral n.natAbs

def isNameChar (c : UInt8) : Bool :=
  isdigit c || (65 ≤ c && c ≤ 90) || (97 ≤ c && c ≤ 122) || c = 95 || c = 45

/-- `valid_name`. -/
def validName (name : Text) : Bool :=
  name ≠ [] && name.length ≤ 32 && name.head? ≠ some 45 && name.all isNameChar && !name.all isdigit

/-- `lines_load`, from an empty table. -/
def table (file : Option Text) : List Text := (file.map linesLoad).getD []

/-- The inner loop of `max_field`, with `n` fields left to skip. -/
def scanField (n : ℕ) (p : Text) : Option Text :=
  if p = [] then none
  else
    match n, splitColon p with
    | 0, none => some p
    | 0, some (field, _) => some field
    | _ + 1, none => none
    | n + 1, some (_, rest) => scanField n rest

/-- `max_field`. -/
def maxField (lines : List Text) (field : ℕ) : ℤ :=
  lines.foldl (fun m line ↦ ((scanField field line).map atoi).elim m (max m)) 0

/-- The number in field `i` of an entry. -/
def number (i : ℕ) (line : Text) : Option ℤ := ((shadowFields (i + 1) line)[i]?).map atoi

/-- The uid without `-u`. The field is that of the name. -/
def nextUid (o : Options) (pw : List Text) : ℤ :=
  max (if o.systemAcct then 101 else 1000) ((maxField pw 0 + 1).bmod (2 ^ 32))

/-- The uid that is used, or the exit code. -/
def chooseUid (o : Options) (pw : List Text) : Except ℕ ℤ :=
  match o.uid with
  | some uid => if pw.any (number 2 · = some ↑uid.val) then .error 4 else .ok uid.val
  | none => .ok (nextUid o pw)

/-- The gid in use, or the exit code. The loop over a line stops at the field behind the name. -/
def chooseGid (o : Options) (uid : ℤ) (gr : List Text) : Except ℕ ℤ :=
  match o.group with
  | none => .ok uid
  | some group =>
    if isdigit (group.headD 0) then .ok (atoi group)
    else
      match findLine group gr with
      | none => .error 6
      | some fields => .ok (atoi (upToColon fields))

def groupLine (name : Text) (gid : ℤ) : Text :=
  snprintf LINE_MAXLEN ([colon].intercalate [name, ascii "x", decimal gid, [newline]])

def passwdLine (o : Options) (uid gid : ℤ) : Text :=
  snprintf LINE_MAXLEN ([colon].intercalate [o.name, ascii "x", decimal uid, decimal gid, o.comment,
    o.home.getD (snprintf 256 (o.base ++ 47 :: o.name)), o.shell ++ [newline]])

def shadowLine (o : Options) : Text :=
  snprintf LINE_MAXLEN ([colon].intercalate [o.name, o.hash, ascii "0", ascii "0", ascii "99999",
    ascii "7", [], [newline]])

/-- The new entries and the three files in turn: the exit code, `none` after a line was stored
behind a table's end, and the files. -/
def save (host : Host) (o : Options) (uid gid : ℤ) : Option ℕ × Host :=
  let pw := table host.passwd
  let sh := table host.shadow
  let gr := table host.group
  if o.group = none ∧ MAX_LINES ≤ gr.length then (none, host)
  else
    let (saved, group) := if o.group = none then
      host.savesGroup.write host.group (gr ++ [groupLine o.name gid]) else (true, host.group)
    let host := { host with group := group }
    if saved = false then (some 10, host)
    else if MAX_LINES ≤ pw.length ∨ MAX_LINES ≤ sh.length then (none, host)
    else
      let (saved, passwd) := host.savesPasswd.write host.passwd (pw ++ [passwdLine o uid gid])
      let host := { host with passwd := passwd }
      if saved = false then (some 1, host)
      else
        let (saved, shadow) := host.savesShadow.write host.shadow (sh ++ [shadowLine o])
        (some (if saved = false then 1 else if o.makeHome && !host.makesHome then 12 else 0),
          { host with shadow := shadow })

/-- `main` from the parsed options on. -/
def main (host : Host) (o : Options) : Option ℕ × Host :=
  if validName o.name = false then (some 19, host)
  else if (findLine o.name (table host.passwd)).isSome then (some 9, host)
  else
    match chooseUid o (table host.passwd) with
    | .error code => (some code, host)
    | .ok uid =>
      match chooseGid o uid (table host.group) with
      | .error code => (some code, host)
      | .ok gid => save host o uid gid

/-- The values of an `int`. -/
def IsInt (n : ℤ) : Prop := -2 ^ 31 ≤ n ∧ n < 2 ^ 31

theorem isInt_bmod (n : ℤ) : IsInt (n.bmod (2 ^ 32)) :=
  ⟨Int.le_bmod (by decide), Int.bmod_lt (by decide)⟩

theorem digitByte_spec {d : ℕ} (hd : d < 10) :
    isdigit (digitByte d) = true ∧ (digitByte d).toNat = 48 + d := by
  interval_cases d <;> decide

theorem isdigit_of_mem_numeral {n : ℕ} : ∀ c ∈ numeral n, isdigit c = true := by
  intro c hc
  rw [numeral] at hc
  split at hc
  · rw [mem_singleton.mp hc]
    decide
  · obtain ⟨d, hd, rfl⟩ := mem_map.mp hc
    exact (digitByte_spec (Nat.digits_lt_base (by decide) (mem_reverse.mp hd))).1

theorem foldl_digitByte {ds : List ℕ} (hds : ∀ d ∈ ds, d < 10) :
    (ds.reverse.map digitByte).foldl (fun n c ↦ 10 * n + (c.toNat - 48 : ℤ)) 0 =
      (Nat.ofDigits 10 ds : ℕ) := by
  induction ds with
  | nil => rfl
  | cons d ds ih =>
    have hd := (digitByte_spec (hds d mem_cons_self)).2
    rw [reverse_cons, map_append, foldl_append,
      ih fun e he ↦ hds e (mem_cons_of_mem d he), Nat.ofDigits_cons]
    simp only [map_cons, map_nil, foldl_cons, foldl_nil, hd]
    push_cast
    ring

theorem digits_numeral (n : ℕ) : digits (numeral n) = n := by
  rw [digits, takeWhile_eq_self_iff.mpr isdigit_of_mem_numeral, numeral]
  split_ifs with hn
  · rw [hn]
    rfl
  · rw [foldl_digitByte fun d ↦ Nat.digits_lt_base (by decide), Nat.ofDigits_digits]

theorem signed_of_isdigit {s : Text} (hs : ∀ c ∈ s, isdigit c = true) : signed s = digits s := by
  cases s with
  | nil => rfl
  | cons c s =>
    have hc : isspace c = false ∧ c ≠ 45 ∧ c ≠ 43 := by
      have hdigit := hs c mem_cons_self
      simp only [isdigit, isspace] at hdigit ⊢
      grind
    rw [signed, dropWhile_cons_of_neg (by simp [hc.1])]
    split
    · simp_all
    · simp_all
    · rfl

theorem decimal_spec {n : ℤ} (hn : IsInt n) :
    atoi (decimal n) = n ∧ colon ∉ decimal n ∧ (decimal n).length ≤ 11 := by
  have hcolon : colon ∉ numeral n.natAbs := fun h ↦
    absurd (isdigit_of_mem_numeral _ h) (by decide)
  have hlength : (numeral n.natAbs).length ≤ 10 := by
    rw [numeral]
    split
    · decide
    · rw [length_map, length_reverse, Nat.digits_length_le_iff (by decide)]
      have hsmall := hn
      rw [IsInt] at hsmall
      omega
  have hmod : n.bmod (2 ^ 32) = n := Int.bmod_eq_of_le hn.1 hn.2
  have hvalue := digits_numeral n.natAbs
  rw [decimal, atoi]
  split_ifs with hneg
  · refine ⟨?_, not_mem_cons_of_ne_of_not_mem (by decide) hcolon, Nat.succ_le_succ hlength⟩
    have hatol : signed (45 :: numeral n.natAbs) = -digits (numeral n.natAbs) := rfl
    rw [hatol, hvalue, Int.natCast_natAbs, abs_of_neg hneg, neg_neg, hmod]
  · refine ⟨?_, hcolon, hlength.trans (by decide)⟩
    rw [signed_of_isdigit isdigit_of_mem_numeral, hvalue, Int.natCast_natAbs,
      abs_of_nonneg (not_lt.mp hneg), hmod]

theorem colon_notMem_name {name : Text} (hname : validName name = true) : colon ∉ name := by
  intro hmem
  simp only [validName, Bool.and_eq_true, all_eq_true] at hname
  exact absurd (hname.1.2 colon hmem) (by decide)

variable {o : Options} {uid gid : ℤ} {host host' : Host} {ps : List Text}

/-- The entry starts with the name, and its numbers are the uid and the gid. -/
theorem passwdLine_spec (hname : validName o.name = true) (huid : IsInt uid) (hgid : IsInt gid) :
    (∃ fields, passwdLine o uid gid = o.name ++ colon :: fields) ∧
      number 2 (passwdLine o uid gid) = some uid ∧ number 3 (passwdLine o uid gid) = some gid := by
  obtain ⟨huid, huidColon, huidLength⟩ := decimal_spec huid
  obtain ⟨hgid, hgidColon, hgidLength⟩ := decimal_spec hgid
  have hcolon := colon_notMem_name hname
  have hlength : o.name.length ≤ 32 := by
    simp only [validName, Bool.and_eq_true, decide_eq_true_eq] at hname
    exact hname.1.1.1.2
  -- what does not fit the buffer comes behind the gid
  obtain ⟨rest, hline⟩ : ∃ rest, passwdLine o uid gid =
      o.name ++ colon :: ([120] ++ colon :: (decimal uid ++ colon :: (decimal gid ++
        colon :: rest))) := by
    let front := o.name ++ colon :: 120 :: colon :: (decimal uid ++ colon :: (decimal gid ++ [colon]))
    have hshort : front.length ≤ 511 := by
      simp only [front, length_append, length_cons, length_nil]
      omega
    refine ⟨([colon].intercalate [o.comment,
      o.home.getD (snprintf 256 (o.base ++ 47 :: o.name)), o.shell ++ [newline]]).take
        (511 - front.length), ?_⟩
    calc passwdLine o uid gid = (front ++ _).take 511 := by
          simp [passwdLine, snprintf, intercalate_cons_cons, front, ascii, LINE_MAXLEN]
          rfl
      _ = _ := by rw [take_append, take_of_length_le hshort]; simp [front, snprintf]
  have hx : colon ∉ ([120] : Text) := by decide
  rw [hline]
  refine ⟨⟨_, rfl⟩, ?_, ?_⟩ <;>
    simp only [number, shadowFields, splitColon_append hcolon, splitColon_append hx,
      splitColon_append huidColon, splitColon_append hgidColon] <;>
    simp [huid, hgid]

/-- The run ends before it saves a file: the name is not valid or in use, the uid of `-u` is in use,
or the group of `-g` does not exist. -/
def Rejected (host : Host) (o : Options) : Prop :=
  validName o.name = false ∨ (findLine o.name (table host.passwd)).isSome ∨
    (∃ uid, o.uid = some uid ∧ ∃ line ∈ table host.passwd, number 2 line = some ↑uid.val) ∨
    ∃ group, o.group = some group ∧ isdigit (group.headD 0) = false ∧
      findLine group (table host.group) = none

theorem chooseUid_error {pw : List Text} : (∃ code, chooseUid o pw = .error code) ↔
    ∃ uid, o.uid = some uid ∧ ∃ line ∈ pw, number 2 line = some ↑uid.val := by
  cases huid : o.uid with
  | none => simp [chooseUid, huid]
  | some uid =>
    by_cases hused : ∃ line ∈ pw, number 2 line = some ↑uid.val <;> simp [chooseUid, huid, hused]

theorem chooseGid_error {gr : List Text} : (∃ code, chooseGid o uid gr = .error code) ↔
    ∃ group, o.group = some group ∧ isdigit (group.headD 0) = false ∧ findLine group gr = none := by
  cases hgroup : o.group with
  | none => simp [chooseGid, hgroup]
  | some group =>
    cases hdigit : isdigit (group.headD 0) <;> cases hline : findLine group gr <;>
      simp_all [chooseGid]

/-- A run ends before it changes a file, or with what saving ends with. -/
theorem main_cases {code : ℕ} (h : main host o = (some code, host')) :
    Rejected host o ∧ code ≠ 0 ∧ host' = host ∨
      ¬Rejected host o ∧ ∃ uid gid, validName o.name = true ∧
        chooseUid o (table host.passwd) = .ok uid ∧ chooseGid o uid (table host.group) = .ok gid ∧
        save host o uid gid = (some code, host') := by
  unfold main at h
  split_ifs at h with hname hfound
  · cases h
    exact .inl ⟨.inl hname, by decide, rfl⟩
  · cases h
    exact .inl ⟨.inr (.inl hfound), by decide, rfl⟩
  rcases huid : chooseUid o (table host.passwd) with code' | uid <;> simp only [huid] at h
  · cases h
    refine .inl ⟨.inr (.inr (.inl (chooseUid_error.mp ⟨_, huid⟩))), ?_, rfl⟩
    grind [chooseUid]
  rcases hgid : chooseGid o uid (table host.group) with code' | gid <;> simp only [hgid] at h
  · cases h
    refine .inl ⟨.inr (.inr (.inr (chooseGid_error.mp ⟨_, hgid⟩))), ?_, rfl⟩
    grind [chooseGid]
  refine .inr ⟨?_, uid, gid, by simpa using hname, rfl, hgid, h⟩
  rintro (hbad | hused | hnumber | hmissing)
  · exact hname hbad
  · exact hfound hused
  · obtain ⟨_, herror⟩ := chooseUid_error.mpr hnumber
    simp [huid] at herror
  · obtain ⟨_, herror⟩ := (@chooseGid_error o uid _).mpr hmissing
    simp [hgid] at herror

theorem main_success (h : main host o = (some 0, host')) :
    ∃ uid gid, validName o.name = true ∧ chooseUid o (table host.passwd) = .ok uid ∧
      chooseGid o uid (table host.group) = .ok gid ∧ (table host.passwd).length < MAX_LINES ∧
      host'.passwd = some (linesSave (table host.passwd ++ [passwdLine o uid gid])) := by
  rcases main_cases h with ⟨-, hcode, -⟩ | ⟨-, uid, gid, hname, huid, hgid, hsave⟩
  · simp at hcode
  · refine ⟨uid, gid, hname, huid, hgid, ?_⟩
    unfold save Save.write at hsave
    grind

theorem isInt_of_chooseUid {pw : List Text} (h : chooseUid o pw = .ok uid) : IsInt uid := by
  have hint := isInt_bmod (maxField pw 0 + 1)
  unfold chooseUid nextUid at h
  simp only [IsInt] at hint ⊢
  grind

theorem isInt_of_chooseGid (hu : IsInt uid) {gr : List Text} (h : chooseGid o uid gr = .ok gid) :
    IsInt gid := by
  have hint (s : Text) : IsInt (atoi s) := isInt_bmod _
  grind [chooseGid]

/-- The contents of the three files. -/
def Host.files (host : Host) : Option Text × Option Text × Option Text :=
  (host.passwd, host.shadow, host.group)

/-- The file with a new entry, which does not start with 0, is not the old one. -/
theorem linesSave_ne {file : Option Text} (hfew : (table file).length < MAX_LINES) {c : UInt8}
    (hc : c ≠ 0) (rest : Text) : some (linesSave (table file ++ [c :: rest])) ≠ file := by
  -- where a byte of the old file was cut off it has 0, and the new one has another byte
  have hpieces (ps : List Text) : ps.flatten ≠ (ps.map cString).flatten ++ c :: rest := by
    induction ps with
    | nil => simp
    | cons p ps ih =>
      intro heq
      have hsplit : cString p ++ p.dropWhile (· ≠ 0) = p := takeWhile_append_dropWhile
      rw [flatten_cons, map_cons, flatten_cons, append_assoc] at heq
      nth_rewrite 1 [← hsplit] at heq
      rw [append_assoc, append_cancel_left_eq] at heq
      rcases hdrop : p.dropWhile (· ≠ 0) with - | ⟨z, tail⟩
      · rw [hdrop] at heq
        exact ih heq
      · have hz := head?_dropWhile_not (· ≠ (0 : UInt8)) p
        rw [hdrop] at hz heq
        have hfree (x) (hx : x ∈ (ps.map cString).flatten) : x ≠ 0 := by
          obtain ⟨_, hq, hx⟩ := mem_flatten.mp hx
          obtain ⟨q, -, rfl⟩ := mem_map.mp hq
          simpa using mem_takeWhile_imp hx
        cases hcut : (ps.map cString).flatten <;> simp_all
  intro heq
  cases file with
  | none => cases heq
  | some content =>
    have htable : table (some content) = fgetsAll content := by
      simp only [table, Option.map_some, Option.getD_some, linesLoad, length_take] at hfew ⊢
      exact take_of_length_le (by omega)
    apply hpieces (readAll newline (LINE_MAXLEN - 1) content)
    rw [flatten_readAll (by decide), ← fgetsAll, ← htable]
    simpa [linesSave] using (Option.some.inj heq).symm

/-- The password file cannot be written, and the group of the account stays behind. -/
theorem failed_run_adds_group :
    let host : Host := { passwd := none, group := none, savesPasswd := .refused }
    let after := main host { name := ascii "eve" }
    after.1 = some 1 ∧ after.2.group = some (ascii "eve:x:1000:\n") := by
  decide +kernel

/-- Saving fails and leaves the file with its contents. -/
def Harmless (save : Save) (file : Option Text) : Prop :=
  save = .refused ∨ ∃ left, save = .cut left ∧ file = some left

/-- A run that reports a failure leaves the files as they were exactly when it is rejected or the
first file that it saves stays as it was. This is the group file, or the password file when a group
is given. -/
theorem failure_keeps_files_iff {host host' : Host} {o : Options} {code : ℕ}
    (h : main host o = (some code, host')) (hcode : code ∈ [1, 3, 4, 6, 9, 10, 19]) :
    host'.files = host.files ↔ Rejected host o ∨
      (o.group = none ∧ Harmless host.savesGroup host.group) ∨
      (o.group ≠ none ∧ Harmless host.savesPasswd host.passwd) := by
  rcases main_cases h with ⟨hrejected, -, rfl⟩ | ⟨hrejected, uid, gid, hname, -, -, hsave⟩
  · simp only [true_iff]
    exact .inl hrejected
  · simp only [validName, Bool.and_eq_true, decide_eq_true_eq, all_eq_true] at hname
    obtain ⟨c, rest, hchars⟩ := exists_cons_of_ne_nil hname.1.1.1.1
    have hc : c ≠ 0 := by
      rintro rfl
      exact absurd (hname.1.2 0 (hchars ▸ mem_cons_self)) (by decide)
    obtain ⟨entry, hentry⟩ : ∃ entry, passwdLine o uid gid = c :: entry := by
      rw [passwdLine, hchars]
      exact ⟨_, rfl⟩
    obtain ⟨line, hline⟩ : ∃ line, groupLine o.name gid = c :: line := by
      rw [groupLine, hchars]
      exact ⟨_, rfl⟩
    have hpasswd (hfew) := @linesSave_ne host.passwd hfew c hc entry
    have hgroup (hfew) := @linesSave_ne host.group hfew c hc line
    have hdone : code ≠ 0 ∧ code ≠ 12 := by
      refine ⟨?_, ?_⟩ <;> rintro rfl <;> simp at hcode
    simp only [hrejected, false_or]
    unfold save Save.write at hsave
    simp only [Host.files, Harmless, Prod.mk.injEq, hentry, hline] at hsave ⊢
    by_cases hnone : o.group = none <;> simp only [hnone] at hsave ⊢ <;> grind

theorem failure_keeps_files_iff_group :
    let host : Host := { passwd := none, group := none, savesPasswd := .refused }
    (main host { name := ascii "eve", group := some (ascii "7") }).2.files = host.files :=
  (failure_keeps_files_iff (Prod.ext (by decide +kernel : _ = some 1) rfl) (by decide)).mpr
    (.inr (.inr ⟨by decide, .inl rfl⟩))

/-- The uids in the file. -/
def uids (file : Option Text) : List ℤ := (table file).filterMap (number 2)

/-- The largest of 0 and the numbers with which the user names of a file start. -/
def IsLargestInNames (file : Option Text) (n : ℤ) : Prop :=
  IsGreatest {m | m = 0 ∨ ∃ line ∈ table file, m = atoi (upToColon line)} n

/-- The number behind the largest one in the names, raised to the first one for the kind of account,
is not the uid of an entry. -/
def NextUnused (host : Host) (o : Options) : Prop :=
  ∀ n, IsLargestInNames host.passwd n →
    max (if o.systemAcct then 101 else 1000) ((n + 1).bmod (2 ^ 32)) ∉ uids host.passwd

theorem scanField_zero (line : Text) :
    ((scanField 0 line).map atoi).getD 0 = atoi (upToColon line) := by
  unfold scanField
  split_ifs with hline
  · rw [hline]
    rfl
  by_cases hcolon : colon ∈ line
  · obtain ⟨field, rest, rfl, hfield⟩ := eq_append_cons_of_mem hcolon
    rw [splitColon_append hfield, upToColon_append hfield (by simp)]
    rfl
  · rw [splitColon_of_notMem hcolon, upToColon, takeWhile_eq_self_iff.mpr]
    · rfl
    · intro c hc
      simpa using fun heq : c = colon ↦ hcolon (heq ▸ hc)

/-- `max_field` with field 0 looks at the names. -/
theorem maxField_zero (file : Option Text) : IsLargestInNames file (maxField (table file) 0) := by
  have hstep (m : ℤ) (hm : 0 ≤ m) (line : Text) :
      ((scanField 0 line).map atoi).elim m (max m) = max m (atoi (upToColon line)) := by
    rw [← scanField_zero]
    cases scanField 0 line <;> simp [hm]
  have hfold (lines : List Text) (m : ℤ) (hm : 0 ≤ m) :
      IsGreatest {k | k = m ∨ ∃ line ∈ lines, k = atoi (upToColon line)}
        (lines.foldl (fun m line ↦ ((scanField 0 line).map atoi).elim m (max m)) m) := by
    induction lines generalizing m with
    | nil => simp [IsGreatest, upperBounds]
    | cons line lines ih =>
      rw [foldl_cons, hstep m hm]
      obtain ⟨hmem, hupper⟩ := ih (max m (atoi (upToColon line))) (hm.trans (le_max_left _ _))
      have hmax := max_le_iff.mp (hupper (.inl rfl))
      constructor
      · rcases hmem with hmem | ⟨other, hother, hmem⟩
        · rw [hmem]
          exact (max_choice m _).imp_right fun h ↦ ⟨line, mem_cons_self, h⟩
        · exact .inr ⟨other, mem_cons_of_mem line hother, hmem⟩
      · rintro k (rfl | ⟨other, hother, rfl⟩)
        · exact hmax.1
        · rcases mem_cons.mp hother with rfl | hother
          · exact hmax.2
          · exact hupper (.inr ⟨other, hother, rfl⟩)
  exact hfold (table file) 0 le_rfl

theorem nextUnused_iff :
    NextUnused host o ↔ nextUid o (table host.passwd) ∉ uids host.passwd := by
  constructor
  · exact fun h ↦ h _ (maxField_zero host.passwd)
  · intro h n hn
    rwa [hn.unique (maxField_zero host.passwd)]

/-- A run that adds a whole line with a new uid, to a file of whole lines. -/
structure Clean (host : Host) (o : Options) : Prop where
  unused : NextUnused host o
  whole : ∀ uid gid, chooseUid o (table host.passwd) = .ok uid →
    chooseGid o uid (table host.group) = .ok gid →
    IsPiece newline 511 (passwdLine o uid gid) ∧ 0 ∉ passwdLine o uid gid

/-- Successful runs without `-u`, one after the other. -/
inductive Runs : Host → Host → Prop
  | refl (host : Host) : Runs host host
  | add {first host host' : Host} {o : Options} (hruns : Runs first host) (huid : o.uid = none)
      (hclean : Clean host o) (hok : main host o = (some 0, host')) : Runs first host'

theorem table_flatten (hps : IsPieces ps) : table (some ps.flatten) = ps := by
  simp [table, linesLoad, fgetsAll_flatten hps.isPiece hps.zero, take_of_length_le hps.few]

theorem Runs.nodup (h : Runs host host') (hps : IsPieces ps)
    (hfile : host.passwd = some ps.flatten) (hnodup : (uids host.passwd).Nodup) :
    ∃ qs, IsPieces qs ∧ host'.passwd = some qs.flatten ∧ (uids host'.passwd).Nodup := by
  induction h with
  | refl => exact ⟨ps, hps, hfile, hnodup⟩
  | @add host host' o _ huid hclean hok ih =>
    obtain ⟨qs, hqs, hbefore, hdistinct⟩ := ih
    obtain ⟨uid, gid, hname, hnext, hgid, hfew, hafter⟩ := main_success hok
    have hint := isInt_of_chooseUid hnext
    have hnumber := (passwdLine_spec hname hint (isInt_of_chooseGid hint hgid)).2.1
    obtain ⟨hpiece, hzero⟩ := hclean.whole uid gid hnext hgid
    obtain rfl : nextUid o (table host.passwd) = uid := by simpa [chooseUid, huid] using hnext
    have hunused := nextUnused_iff.mp hclean.unused
    simp only [uids, hbefore, table_flatten hqs] at *
    have hpieces : IsPieces (qs ++ [passwdLine o (nextUid o qs) gid]) := by
      refine ⟨by simpa using hfew, ?_, ?_⟩ <;>
        simp only [forall_mem_append, forall_mem_singleton]
      · exact ⟨hqs.isPiece, hpiece⟩
      · exact ⟨hqs.zero, hzero⟩
    refine ⟨_, hpieces, hafter, ?_⟩
    rw [hafter, linesSave, table_flatten hpieces, filterMap_append]
    simpa [hnumber] using List.Nodup.concat hunused hdistinct

end ToastyUnix.Useradd
