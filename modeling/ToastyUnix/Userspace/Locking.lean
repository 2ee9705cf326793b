import ToastyUnix.Userspace.Passwd

/-!
# Locking an account and unlocking it again

`passwd -l` and `passwd -u` against the two programs that check a password. A line of the shadow
file ends with a newline, which belongs to its last field. Where that field is one that `passwd`
copies, the new line is two lines: the second one has no name, and where it is cut off at the end of
the buffer it runs into the line of the next user (`locking_hides_next_account`).

`lock_is_reversible_iff` says for which lines the account can be locked and unlocked in every file.
-/

namespace ToastyUnix.Shadow

open Lines Doas List

/-! ## Files and what is expected -/

/-- The shadow file with the given lines. -/
def fileOf (lines : List Text) : Text := (lines.map (· ++ [newline])).flatten

/-- Fewer than 256 lines, each shorter than 511 bytes with its end, and no byte 0. -/
structure IsShadowFile (lines : List Text) : Prop where
  few : lines.length < 256
  short : ∀ line ∈ lines, line.length + 1 < 511
  single : ∀ line ∈ lines, newline ∉ line
  zero : ∀ line ∈ lines, 0 ∉ line

/-- A hash that can be locked. -/
structure Lockable (hash : Text) : Prop where
  ne_nil : hash ≠ []
  short : hash.length ≤ 126
  unmarked : hash.head? ≠ some bang

/-- Locking is effective in both programs, unlocking gives the hash back, and nothing changes for
other users of the file. -/
structure Reversible (crypt : Text → Text → Option Text) (host : Host) (user : Text) : Prop where
  rejected : ∀ pass, authenticate crypt (locked crypt host user) user pass = false ∧
    checkPassword crypt (locked crypt host user) user pass = false
  restored : shadowHash (unlocked crypt host user) user = shadowHash host.shadow user
  accepted : ∀ pass,
    authenticate crypt (unlocked crypt host user) user pass =
      authenticate crypt host.shadow user pass ∧
    checkPassword crypt (unlocked crypt host user) user pass =
      checkPassword crypt host.shadow user pass
  others : ∀ v, v ≠ user → (shadowHash host.shadow v).isSome →
    ∀ shadow ∈ [locked crypt host user, unlocked crypt host user], ∀ pass,
      authenticate crypt shadow v pass = authenticate crypt host.shadow v pass ∧
      checkPassword crypt shadow v pass = checkPassword crypt host.shadow v pass

/-- The line's end is behind the fields that `passwd` copies, or is cut off with a long aging field.
-/
def EndsLate (line : Text) : Prop :=
  8 ≤ (line.splitOn colon).length ∨
    3 ≤ (line.splitOn colon).length ∧ 15 ≤ ((line.splitOn colon).getLastD []).length

section Reversible

variable {user fields : Text} {lines before after : List Text} {host : Host}
  {crypt : Text → Text → Option Text}

theorem IsShadowFile.isPieces (h : IsShadowFile lines) :
    IsPieces (lines.map (· ++ [newline])) where
  few := by simpa [MAX_LINES] using h.few.le
  isPiece := by
    simp only [mem_map]
    rintro p ⟨line, hline, rfl⟩
    have hshort := h.short line hline
    exact .inl ⟨line, h.single line hline, by omega, rfl⟩
  zero := by
    simp only [mem_map]
    rintro p ⟨line, hline, rfl⟩
    simpa [newline] using h.zero line hline

theorem getLastD_splitOn_mem (line : Text) :
    (line.splitOn colon).getLastD [] ∈ line.splitOn colon := by
  have hne := splitOn_ne_nil colon line
  rw [getLastD_eq_getLast?, getLast?_eq_getLast_of_ne_nil hne]
  exact getLast_mem hne

theorem splitOn_concat_newline (line : Text) :
    (line ++ [newline]).splitOn colon =
      (line.splitOn colon).dropLast ++ [(line.splitOn colon).getLastD [] ++ [newline]] := by
  have hne := splitOn_ne_nil colon line
  have hfields : (line.splitOn colon).dropLast ++ [(line.splitOn colon).getLastD []] =
      line.splitOn colon := by
    rw [getLastD_eq_getLast?, getLast?_eq_getLast_of_ne_nil hne]
    exact dropLast_append_getLast hne
  have hjoin : [colon].intercalate (line.splitOn colon) = line := intercalate_splitOn colon
  conv_lhs => rw [← hjoin, ← hfields, ← intercalate_concat_append]
  apply splitOn_intercalate
  · intro f hf
    have hcolon : ∀ g ∈ line.splitOn colon, colon ∉ g := fun g ↦ notMem_of_mem_splitOn
    rcases mem_append.mp hf with hf | hf
    · exact hcolon f (mem_of_mem_dropLast hf)
    · rw [mem_singleton.mp hf, mem_append, not_or]
      exact ⟨hcolon _ (getLastD_splitOn_mem line), by decide⟩
  · simp

variable {line hash : Text}

theorem closed_of_endsLate (hnewline : newline ∉ line) (hline : EndsLate line) :
    Closed (line ++ [newline]) := by
  intro i field hi hfield
  have hfree : ∀ g ∈ line.splitOn colon, newline ∉ g := fun g hg h ↦
    hnewline (mem_of_mem_splitOn hg h)
  rw [splitOn_concat_newline] at hfield
  by_cases hlast : i < (line.splitOn colon).length - 1
  · rw [getElem?_append_left (by simpa using hlast)] at hfield
    have hmem := mem_of_mem_dropLast (mem_of_getElem? hfield)
    exact fun h ↦ hfree field hmem (copied_subset i field h)
  · rcases hline with hmany | ⟨hthree, hlong⟩
    · omega
    · have heq : field = (line.splitOn colon).getLastD [] ++ [newline] := by
        rw [getElem?_append_right (by simpa using hlast)] at hfield
        simpa using mem_of_getElem? hfield
      rw [copied, if_neg (by omega), heq, snprintf, take_append_of_le_length hlong]
      exact fun h ↦ hfree _ (getLastD_splitOn_mem line) (mem_of_mem_take h)

theorem upToColon_subset (text : Text) : upToColon text ⊆ text := takeWhile_subset _

theorem colon_notMem_upToColon (text : Text) : colon ∉ upToColon text := fun h ↦ by
  simpa using mem_takeWhile_imp h

/-- The line of a user that ends late is read by the three programs alike. -/
theorem entry_of_endsLate (hhash : upToColon (fields ++ [newline]) = hash)
    (hfile : IsShadowFile lines) (hmem : user ++ colon :: fields ∈ lines)
    (hline : EndsLate (user ++ colon :: fields)) :
    Entry user hash (user ++ colon :: (fields ++ [newline])) where
  isPiece := by
    have hpiece := hfile.isPieces.isPiece _ (mem_map_of_mem hmem)
    simpa using hpiece
  zero := by
    have hzero := hfile.isPieces.zero _ (mem_map_of_mem hmem)
    simpa using hzero
  closed := by
    have hclosed := closed_of_endsLate (hfile.single _ hmem) hline
    simpa using hclosed
  fields := ⟨_, rfl, hhash⟩

theorem Entry.notMem_hash (h : Entry user hash line) (huser : colon ∉ user) :
    colon ∉ hash ∧ newline ∉ hash ∧ 0 ∉ hash := by
  obtain ⟨rest, rfl, rfl⟩ := h.fields
  refine ⟨colon_notMem_upToColon rest, ?_, fun hmem ↦ h.zero ?_⟩
  · refine h.closed 1 (upToColon rest) (by decide) ?_
    rw [splitOn_user huser, getElem?_cons_succ]
    exact head?_splitOn rest
  · exact mem_append_right _ (mem_cons_of_mem _ (upToColon_subset rest hmem))

theorem authenticate_congr {s t : Option Text} {v : Text} (h : shadowHash s v = shadowHash t v)
    (pass : Text) : authenticate crypt s v pass = authenticate crypt t v pass := by
  rw [authenticate, authenticate, h]

theorem reversible_of_hashes (hash : Text)
    (hlocked : shadowHash (locked crypt host user) user = some (bang :: hash))
    (hunlocked : shadowHash (unlocked crypt host user) user = shadowHash host.shadow user)
    (hothers : ∀ v ≠ user, ∀ shadow ∈ [locked crypt host user, unlocked crypt host user],
      shadowHash shadow v = shadowHash host.shadow v) : Reversible crypt host user where
  rejected pass := by
    rw [checkPassword_eq_authenticate, and_self, authenticate, hlocked]
    simp
  restored := hunlocked
  accepted pass := by
    rw [checkPassword_eq_authenticate, checkPassword_eq_authenticate, and_self]
    exact authenticate_congr hunlocked pass
  others v hv _ shadow hshadow pass := by
    rw [checkPassword_eq_authenticate, checkPassword_eq_authenticate, and_self]
    exact authenticate_congr (hothers v hv shadow hshadow) pass

/-- An edit of one line keeps the file readable. -/
theorem IsPieces.replace {new : Text} (hps : IsPieces (before ++ line :: after))
    (hnew : IsPiece newline 511 new) (hzero : 0 ∉ new) : IsPieces (before ++ new :: after) where
  few := by simpa using hps.few
  isPiece := by
    have hpieces := hps.isPiece
    rw [forall_mem_append, forall_mem_cons] at hpieces ⊢
    exact ⟨hpieces.1, hnew, hpieces.2.2⟩
  zero := by
    have hfree := hps.zero
    rw [forall_mem_append, forall_mem_cons] at hfree ⊢
    exact ⟨hfree.1, hzero, hfree.2.2⟩

/-- The line of the user after `passwd -l`. -/
def lockedLine (user hash line : Text) : Text :=
  newLine { lock := true, user := some user } user (bang :: hash) (shadowFields 9 line)

/-- The line of the user after `passwd -u`. -/
def unlockedLine (user hash line : Text) : Text :=
  newLine { unlock := true, user := some user } user hash (shadowFields 9 line)

theorem locked_eq (crypt : Text → Text → Option Text) (hserves : Serves host user)
    (hoption : isOption user = false) (huser : colon ∉ user) (hlock : Lockable hash)
    (hbefore : findLine user before = none)
    (hline : ∃ fields, line = user ++ colon :: fields ∧ upToColon fields = hash)
    (hps : IsPieces (before ++ line :: after))
    (hshadow : host.shadow = some (before ++ line :: after).flatten) :
    locked crypt host user = some (before ++ lockedLine user hash line :: after).flatten := by
  have hparse : parse {} [ascii "-l", user] = .ok { lock := true, user := some user } := by
    rw [parse_flag (p := 108) (by decide) (by decide) rfl, parse_user hoption rfl]
  have hnew : newHash crypt host { lock := true, user := some user } hash =
      .ok (bang :: hash) := by
    have hshort : (bang :: hash).length ≤ 127 := Nat.succ_le_succ hlock.short
    simp [newHash, unmarked, hlock.unmarked, snprintf, take_of_length_le hshort]
  rw [locked, main_entry hserves hparse rfl rfl]
  exact manage_entry hserves.saves rfl huser hline hbefore hps hnew hshadow

theorem unlocked_eq (hserves : Serves host user) (hoption : isOption user = false)
    (huser : colon ∉ user) (hshort : hash.length ≤ 127) (hbefore : findLine user before = none)
    (hline : ∃ fields, line = user ++ colon :: fields ∧ upToColon fields = bang :: hash)
    (hps : IsPieces (before ++ line :: after))
    (hlocked : locked crypt host user = some (before ++ line :: after).flatten) :
    unlocked crypt host user = some (before ++ unlockedLine user hash line :: after).flatten := by
  have hparse : parse {} [ascii "-u", user] = .ok { unlock := true, user := some user } := by
    rw [parse_flag (p := 117) (by decide) (by decide) rfl, parse_user hoption rfl]
  have hnew : newHash crypt { host with shadow := locked crypt host user }
      { unlock := true, user := some user } (bang :: hash) = .ok hash := by
    simp [newHash, unmarked, snprintf, take_of_length_le hshort]
  have hserves' : Serves { host with shadow := locked crypt host user } user :=
    ⟨hserves.saves, hserves.exists_passwd⟩
  rw [unlocked, main_entry hserves' hparse rfl rfl]
  exact manage_entry hserves.saves rfl huser hline hbefore hps hnew hlocked

theorem findLine_map_concat (hbefore : ∀ line ∈ before, ∀ rest, line ≠ user ++ colon :: rest) :
    findLine user (before.map (· ++ [newline])) = none := by
  induction before with
  | nil => rfl
  | cons line before ih =>
    rw [forall_mem_cons] at hbefore
    rw [map_cons, findLine]
    by_cases hmem : colon ∈ line
    · obtain ⟨name, rest, rfl, hname⟩ := eq_append_cons_of_mem hmem
      have hne : name ≠ user := by
        rintro rfl
        exact hbefore.1 rest rfl
      rw [append_assoc, cons_append, splitColon_append hname]
      simpa [hne] using ih hbefore.2
    · rw [splitColon_of_notMem (by simpa [hmem] using (by decide : colon ≠ newline))]
      exact ih hbefore.2

/-- Where the line of the user ends late, locking and unlocking work. -/
theorem reversible_of_endsLate (huser : colon ∉ user) (hoption : isOption user = false)
    (hhash : Lockable (upToColon (fields ++ [newline])))
    (hline : EndsLate (user ++ colon :: fields))
    (hbefore : ∀ line ∈ before, ∀ rest, line ≠ user ++ colon :: rest)
    (hfile : IsShadowFile (before ++ (user ++ colon :: fields) :: after))
    (hserves : Serves host user)
    (hshadow : host.shadow = some (fileOf (before ++ (user ++ colon :: fields) :: after))) :
    Reversible crypt host user := by
  have hmem : user ++ colon :: fields ∈ before ++ (user ++ colon :: fields) :: after := by simp
  have h0 := entry_of_endsLate rfl hfile hmem hline
  have hps0 := hfile.isPieces
  have hfirst := findLine_map_concat hbefore
  rw [fileOf] at hshadow
  rw [map_append, map_cons, append_assoc, cons_append] at hps0 hshadow
  have hlength := hfile.short _ hmem
  have hsub : (upToColon (fields ++ [newline])).length ≤ (fields ++ [newline]).length :=
    (takeWhile_sublist _).length_le
  rw [length_append, length_singleton] at hsub
  rw [length_append, length_cons] at hlength
  generalize upToColon (fields ++ [newline]) = hash at *
  obtain ⟨hcolon, hnewline, hzero⟩ := h0.notMem_hash huser
  -- after `passwd -l`
  have h1 : Entry user (bang :: hash)
      (lockedLine user hash (user ++ colon :: (fields ++ [newline]))) :=
    h0.newLine (by simp [Options.KeepsAging]) huser (by simpa [colon, bang] using hcolon)
      (by simpa [newline, bang] using hnewline) (by simpa [bang] using hzero)
      (by rw [length_cons]; omega)
  have hlocked := locked_eq crypt hserves hoption huser hhash hfirst h0.fields hps0 hshadow
  have hps1 := hps0.replace h1.isPiece h1.zero
  -- after `passwd -u`
  have h2 : Entry user hash (unlockedLine user hash _) :=
    h1.newLine (by simp [Options.KeepsAging]) huser hcolon hnewline hzero (by omega)
  have hunlocked := unlocked_eq hserves hoption huser (hhash.short.trans (by decide)) hfirst
    h1.fields hps1 hlocked
  have hps2 := hps1.replace h2.isPiece h2.zero
  apply reversible_of_hashes hash
  · rw [hlocked, hps1.shadowHash, h1.findLine_append huser hfirst]
  · rw [hunlocked, hshadow, hps2.shadowHash, hps0.shadowHash, h2.findLine_append huser hfirst,
      h0.findLine_append huser hfirst]
  · simp only [mem_cons, not_mem_nil, or_false, forall_eq_or_imp, forall_eq]
    intro v hv
    rw [hlocked, hunlocked, hshadow, hps1.shadowHash, hps2.shadowHash, hps0.shadowHash,
      h0.findLine_append_of_ne huser hv, h1.findLine_append_of_ne huser hv,
      h2.findLine_append_of_ne huser hv, and_self]

end Reversible

/-! ## Lines that end early -/

/-- The line of the user has at most seven fields, and `passwd` copies its end. -/
structure Spills (user hash w : Text) (tail : List Text) (line : Text) : Prop where
  fields : line.splitOn colon = user :: hash :: tail
  few : tail.length ≤ 5
  copied : [colon].intercalate (hash :: tail.map (snprintf 16)) = w ++ [newline]
  free : newline ∉ w

/-- The text that `passwd` writes behind the copied fields. -/
def strayText (k : ℕ) : Text := [colon].intercalate (agingDefaults.drop k ++ [[], [newline]])

theorem strayText_eq {k : ℕ} (hk : k ≤ 5) : ∃ field rest, strayText k = field ++ colon :: rest ∧
    newline ∉ field ∧ colon ∉ field ∧ 0 ∉ field ∧ field.length ≤ 5 := by
  interval_cases k
  · exact ⟨ascii "0", _, rfl, by decide⟩
  · exact ⟨ascii "0", _, rfl, by decide⟩
  · exact ⟨ascii "99999", _, rfl, by decide⟩
  · exact ⟨ascii "7", _, rfl, by decide⟩
  · exact ⟨[], _, rfl, by decide⟩
  · exact ⟨[], _, rfl, by decide⟩

section Spills

variable {user hash w line : Text} {tail : List Text} {o : Options}

theorem aging_of_short (ho : o.KeepsAging) (hline : line.splitOn colon = user :: hash :: tail)
    (htail : tail.length ≤ 5) : aging o (shadowFields 9 line) =
      tail.map (snprintf 16) ++ agingDefaults.drop tail.length := by
  rw [aging_eq ho, shadowFields_eq, hline, take_of_length_le (by simp; omega)]
  rcases tail with _ | ⟨a, _ | ⟨b, _ | ⟨c, _ | ⟨d, _ | ⟨e, _ | ⟨f, t⟩⟩⟩⟩⟩⟩
  case cons.cons.cons.cons.cons.cons =>
    simp only [length_cons] at htail
    omega
  all_goals
    simp only [agingField, agingDefaults, zipIdx_cons, zipIdx_nil, map_cons,
      map_nil, getElem?_cons_succ, getElem?_cons_zero, getElem?_nil,
      Option.getD_some, Option.getD_none, Nat.reduceAdd]
    rfl

/-- The new line ends where the old one ended, and a stray line follows. -/
theorem lineText_of_spills {newhash : Text} (h : Spills user hash w tail line) (ho : o.KeepsAging) :
    lineText o user newhash (shadowFields 9 line) =
      user ++ colon :: ([colon].intercalate (newhash :: tail.map (snprintf 16)) ++
        colon :: strayText tail.length) := by
  have htext : lineText o user newhash (shadowFields 9 line) = [colon].intercalate
      ([user] ++ ((newhash :: tail.map (snprintf 16)) ++
        (agingDefaults.drop tail.length ++ [[], [newline]]))) := by
    simp [lineText, aging_of_short ho h.fields h.few]
  rw [htext, intercalate_append colon (by simp) (by simp),
    intercalate_append colon (by simp) (by simp), intercalate_singleton, strayText]

theorem length_intercalate_map_le (hash : Text) (tail : List Text) :
    ([colon].intercalate (hash :: tail.map (snprintf 16))).length ≤
      ([colon].intercalate (hash :: tail)).length := by
  induction tail generalizing hash with
  | nil => simp
  | cons f tail ih =>
    have hf : (snprintf 16 f).length ≤ f.length := length_take_le' _ _
    have := ih f
    cases tail with
    | nil =>
      simp only [map_cons, map_nil, intercalate_cons_cons, intercalate_singleton, length_append]
      omega
    | cons g tail =>
      simp only [map_cons, intercalate_cons_cons, length_append] at this ⊢
      omega

theorem Spills.length_le (h : Spills user hash w tail line) :
    user.length + 1 + (w.length + 1) ≤ line.length := by
  have hjoin : [colon].intercalate (line.splitOn colon) = line := intercalate_splitOn colon
  have hcopied := congrArg List.length h.copied
  have hle := length_intercalate_map_le hash tail
  rw [h.fields, intercalate_cons_cons] at hjoin
  rw [← hjoin]
  simp only [length_append, length_singleton] at hcopied ⊢
  omega

theorem exists_strayText_take {k : ℕ} (hk : k ≤ 5) (m : ℕ) (text : Text) :
    ∃ field rest, (strayText k).take m ++ colon :: text = field ++ colon :: rest ∧
      newline ∉ field ∧ colon ∉ field ∧ 0 ∉ field ∧ field.length ≤ 5 := by
  obtain ⟨field, rest, heq, hnewline, hcolon, hzero, hlength⟩ := strayText_eq hk
  rw [heq, take_append]
  cases hm : m - field.length with
  | zero =>
    refine ⟨field.take m, text, by simp, fun h ↦ hnewline (mem_of_mem_take h),
      fun h ↦ hcolon (mem_of_mem_take h), fun h ↦ hzero (mem_of_mem_take h), ?_⟩
    exact (length_take_le' m field).trans hlength
  | succ j =>
    rw [take_of_length_le (by omega)]
    exact ⟨field, rest.take j ++ colon :: text, by simp, hnewline, hcolon, hzero, hlength⟩

/-- The stray line is the first one without a name. -/
theorem shadowHash_of_stray {z field : Text} (huser : colon ∉ user) (hne : user ≠ [])
    (hnewline : newline ∉ user ++ colon :: z) (hzero : 0 ∉ user ++ colon :: z)
    (hshort : (user ++ colon :: z).length < 511)
    (hfield : newline ∉ field ∧ colon ∉ field ∧ 0 ∉ field ∧ field.length ≤ 5) (rest : Text) :
    shadowHash (some ((user ++ colon :: z) ++ newline :: colon :: (field ++ colon :: rest))) [] =
      some field := by
  obtain ⟨hfieldNewline, hfieldColon, hfieldZero, hfieldShort⟩ := hfield
  have hpiece : IsPiece newline (LINE_MAXLEN - 1) (user ++ colon :: z ++ [newline]) :=
    .inl ⟨_, hnewline, hshort, rfl⟩
  have hstray : newline ∉ colon :: field ++ [colon] := by
    simpa [hfieldNewline] using (by decide : newline ≠ colon)
  have hfits : (colon :: field ++ [colon]).length ≤ LINE_MAXLEN - 1 := by
    simp only [LINE_MAXLEN, length_append, length_cons, length_nil]
    omega
  have htext : user ++ colon :: z ++ newline :: colon :: (field ++ colon :: rest) =
      (user ++ colon :: z ++ [newline]) ++ (colon :: field ++ [colon] ++ rest) := by simp
  have hsecond := congrArg Prod.fst (readLine_append hstray hfits rest)
  rw [shadowHash, Option.bind_some, fgetsAll, htext, readAll_append (by decide) hpiece,
    readAll_of_ne_nil (by decide) (by simp), hsecond]
  generalize (readLine newline _ rest).1 = more
  have hfirst : cString (user ++ colon :: z ++ [newline]) =
      user ++ colon :: (z ++ [newline]) := by
    rw [cString, takeWhile_ne_self (by simpa [newline] using hzero)]
    simp
  have hcut : cString (colon :: field ++ [colon] ++ more) =
      [] ++ colon :: (field ++ colon :: cString more) := by
    rw [cString, takeWhile_append_of_pos]
    · simp [cString]
    · intro c hc
      simp only [cons_append, mem_cons, mem_append, not_mem_nil, or_false] at hc
      rcases hc with rfl | hc | rfl
      · decide
      · simpa using fun heq : c = 0 ↦ hfieldZero (heq ▸ hc)
      · decide
  rw [map_cons, map_cons, hfirst, hcut, findLine_cons huser, if_neg hne,
    findLine_cons (by simp), if_pos rfl, Option.map_some, upToColon_append hfieldColon (by simp)]

theorem exists_spills {fields : Text} (huser : colon ∉ user)
    (hnewline : newline ∉ user ++ colon :: fields) (hline : ¬ EndsLate (user ++ colon :: fields)) :
    ∃ w tail, Spills user (upToColon (fields ++ [newline])) w tail
      (user ++ colon :: (fields ++ [newline])) := by
  have hsplit := splitOn_concat_newline fields
  have hhead := head?_splitOn (fields ++ [newline])
  have hfree : ∀ f ∈ fields.splitOn colon, newline ∉ f := fun f hf h ↦
    hnewline (mem_append_right _ (mem_cons_of_mem _ (mem_of_mem_splitOn hf h)))
  have hlast := hfree _ (getLastD_splitOn_mem fields)
  have hlength : (fields.splitOn colon).dropLast.length + 1 = (fields.splitOn colon).length := by
    have := length_pos_iff.mpr (splitOn_ne_nil colon fields)
    rw [length_dropLast]
    omega
  have hdrop : ∀ f ∈ (fields.splitOn colon).dropLast, newline ∉ f := fun f hf ↦
    hfree f (mem_of_mem_dropLast hf)
  have hgetLast : (user :: fields.splitOn colon).getLastD [] =
      (fields.splitOn colon).getLastD [] := by
    obtain ⟨f, fs, hfs⟩ := exists_cons_of_ne_nil (splitOn_ne_nil colon fields)
    rw [hfs]
    simp
  rw [EndsLate, splitOn_user huser, hgetLast, length_cons, not_or, not_and] at hline
  rw [hsplit] at hhead
  generalize upToColon (fields ++ [newline]) = hash at *
  generalize (fields.splitOn colon).getLastD [] = last at *
  generalize (fields.splitOn colon).dropLast = init at *
  cases init with
  | nil =>
    obtain rfl : last ++ [newline] = hash := by simpa using hhead
    refine ⟨last, [], ?_, by simp, by simp, hlast⟩
    rw [splitOn_user huser, hsplit]
    rfl
  | cons f init =>
    obtain rfl : f = hash := by simpa using hhead
    have hshort : snprintf 16 (last ++ [newline]) = last ++ [newline] := by
      apply take_of_length_le
      rw [length_append, length_singleton]
      rw [length_cons] at hlength
      have := hline.2 (by omega)
      omega
    refine ⟨[colon].intercalate (f :: init.map (snprintf 16) ++ [last]),
      init ++ [last ++ [newline]], ?_, ?_, ?_, ?_⟩
    · rw [splitOn_user huser, hsplit]
      rfl
    · rw [length_append, length_singleton]
      rw [length_cons] at hlength
      omega
    · rw [map_append, map_singleton, hshort, ← cons_append, intercalate_concat_append]
    · intro hmem
      rcases mem_of_mem_intercalate hmem with h | ⟨g, hg, hx⟩
      · exact absurd h (by decide)
      · simp only [cons_append, mem_cons, mem_append, mem_map, not_mem_nil, or_false] at hg
        rcases hg with rfl | ⟨k, hk, rfl⟩ | rfl
        · exact hdrop g mem_cons_self hx
        · exact hdrop k (mem_cons_of_mem _ hk) (mem_of_mem_take hx)
        · exact hlast hx

end Spills

/-- A line for the account without a name. -/
def nameless : Text := ascii ":x"

section Refutation

variable {user hash w line newhash : Text} {tail : List Text} {o : Options} {host : Host}
  {crypt : Text → Text → Option Text}

theorem Spills.zero_notMem (h : Spills user hash w tail line) (hzero : 0 ∉ line) : 0 ∉ w := by
  have hfields : ∀ f ∈ hash :: tail, 0 ∉ f := fun f hf hx ↦ by
    have hmem : f ∈ line.splitOn colon := h.fields ▸ mem_cons_of_mem user hf
    exact hzero (mem_of_mem_splitOn hmem hx)
  intro hmem
  have hcopied : 0 ∈ [colon].intercalate (hash :: tail.map (snprintf 16)) := by
    rw [h.copied]
    exact mem_append_left _ hmem
  rcases mem_of_mem_intercalate hcopied with hx | ⟨f, hf, hx⟩
  · exact absurd hx (by decide)
  · rcases mem_cons.mp hf with rfl | hf
    · exact hfields f mem_cons_self hx
    · obtain ⟨g, hg, rfl⟩ := mem_map.mp hf
      exact hfields g (mem_cons_of_mem hash hg) (mem_of_mem_take hx)

/-- After an edit of a line that spills the account without a name has another hash. -/
theorem exists_shadowHash_newLine (h : Spills user hash w tail line) (ho : o.KeepsAging)
    (huser : colon ∉ user) (hne : user ≠ []) {z : Text}
    (hz : [colon].intercalate (newhash :: tail.map (snprintf 16)) = z ++ [newline])
    (hnewline : newline ∉ user ++ colon :: z) (hzero : 0 ∉ user ++ colon :: z)
    (hshort : (user ++ colon :: z).length ≤ 509) :
    ∃ field, newline ∉ field ∧
      shadowHash (some ([newLine o user newhash (shadowFields 9 line)] ++
        [nameless ++ [newline]]).flatten) [] = some field := by
  have hline : newLine o user newhash (shadowFields 9 line) = (user ++ colon :: z) ++
      newline :: colon :: (strayText tail.length).take (509 - (user ++ colon :: z).length) := by
    have htext : lineText o user newhash (shadowFields 9 line) =
        (user ++ colon :: z) ++ newline :: colon :: strayText tail.length := by
      rw [lineText_of_spills h ho, hz]
      simp
    have hsize : LINE_MAXLEN - 1 - (user ++ colon :: z).length =
        509 - (user ++ colon :: z).length + 1 + 1 := by
      simp only [LINE_MAXLEN]
      omega
    rw [newLine, snprintf, htext, take_append, take_of_length_le (by
      simp only [LINE_MAXLEN]; omega), hsize, take_succ_cons, take_succ_cons]
  obtain ⟨field, rest, heq, hfield⟩ := exists_strayText_take h.few
    (509 - (user ++ colon :: z).length) [120, newline]
  refine ⟨field, hfield.1, ?_⟩
  have hfile : ([newLine o user newhash (shadowFields 9 line)] ++ [nameless ++ [newline]]).flatten =
      (user ++ colon :: z) ++ newline :: colon :: (field ++ colon :: rest) := by
    rw [hline, ← heq]
    simp [nameless, ascii, colon]
  rw [hfile]
  exact shadowHash_of_stray huser hne hnewline hzero (by omega) hfield rest

/-- Another hash for the nameless account is another result for some `crypt`. -/
theorem not_reversible_of_shadowHash {shadow : Option Text} {field : Text}
    (hne : user ≠ []) (hbefore : shadowHash host.shadow [] = some (ascii "x\n"))
    (hmem : shadow ∈ [locked (fun _ _ ↦ some (ascii "x\n")) host user,
      unlocked (fun _ _ ↦ some (ascii "x\n")) host user])
    (hafter : shadowHash shadow [] = some field) (hfield : newline ∉ field) :
    ¬ Reversible (fun _ _ ↦ some (ascii "x\n")) host user := by
  intro h
  have hsame := (h.others [] hne.symm (by rw [hbefore]; rfl) shadow hmem []).1
  have htrue : authenticate (fun _ _ ↦ some (ascii "x\n")) host.shadow [] [] = true := by
    rw [authenticate, hbefore]
    decide
  have hdiff : ascii "x\n" ≠ field := by
    rintro rfl
    exact hfield (by decide)
  rw [htrue, authenticate, hafter] at hsame
  simp [hdiff] at hsame

theorem snprintf_snprintf (size : ℕ) (text : Text) :
    snprintf size (snprintf size text) = snprintf size text := by
  simp [snprintf, take_take]

/-- The line that `passwd` leaves when nothing fits after the copied end spills again. -/
theorem Spills.again (h : Spills user hash w tail line) (huser : colon ∉ user) :
    Spills user (bang :: hash) (bang :: w) (tail.map (snprintf 16))
      (user ++ colon :: (bang :: w ++ [newline])) where
  fields := by
    have hfields : ∀ f ∈ hash :: tail, colon ∉ f := fun f hf ↦
      notMem_of_mem_splitOn (s := line) (h.fields ▸ mem_cons_of_mem user hf)
    have hjoin : user ++ colon :: (bang :: w ++ [newline]) =
        [colon].intercalate (user :: (bang :: hash) :: tail.map (snprintf 16)) := by
      rw [intercalate_cons_cons, intercalate_cons_cons_left, h.copied]
      simp
    rw [hjoin]
    apply splitOn_intercalate
    · simp only [mem_cons, mem_map]
      rintro f (rfl | rfl | ⟨g, hg, rfl⟩)
      · exact huser
      · simpa [colon, bang] using hfields hash mem_cons_self
      · exact fun hx ↦ hfields g (mem_cons_of_mem hash hg) (mem_of_mem_take hx)
    · simp
  few := by simpa using h.few
  copied := by
    have hmap : (tail.map (snprintf 16)).map (snprintf 16) = tail.map (snprintf 16) := by
      simp [snprintf_snprintf]
    rw [hmap, intercalate_cons_cons_left, h.copied]
    rfl
  free := by simpa [newline, bang] using h.free

/-- Where the user's line spills, a file with a nameless account behind it is not safe. -/
theorem not_reversible_of_spills (h : Spills user hash w tail line) (huser : colon ∉ user)
    (hne : user ≠ []) (hoption : isOption user = false) (hhash : Lockable hash)
    (hserves : Serves host user) (hlength : line.length ≤ 510)
    (hline : ∃ fields, line = user ++ colon :: fields ∧ upToColon fields = hash)
    (hnewline : newline ∉ user) (hps : IsPieces ([] ++ line :: [nameless ++ [newline]]))
    (hshadow : host.shadow = some ([] ++ line :: [nameless ++ [newline]]).flatten) :
    ¬ Reversible (fun _ _ ↦ some (ascii "x\n")) host user := by
  have hzero : 0 ∉ line := hps.zero line (by simp)
  have hzero' : 0 ∉ user ∧ 0 ∉ w := by
    obtain ⟨fields, rfl, -⟩ := hline
    exact ⟨fun hx ↦ hzero (mem_append_left _ hx), h.zero_notMem hzero⟩
  have hbefore : shadowHash host.shadow [] = some (ascii "x\n") := by
    obtain ⟨fields, rfl, -⟩ := hline
    rw [hshadow, hps.shadowHash, nil_append, findLine_cons huser, if_neg hne]
    decide
  have hlocked := locked_eq (fun _ _ ↦ some (ascii "x\n")) hserves hoption huser hhash rfl
    hline hps hshadow
  have hlock : ({ lock := true, user := some user } : Options).KeepsAging := by
    simp [Options.KeepsAging]
  have hunlock : ({ unlock := true, user := some user } : Options).KeepsAging := by
    simp [Options.KeepsAging]
  have hmarked : [colon].intercalate ((bang :: hash) :: tail.map (snprintf 16)) =
      bang :: w ++ [newline] := by
    rw [intercalate_cons_cons_left, h.copied]
    rfl
  have hle := h.length_le
  have hfree : newline ∉ user ++ colon :: bang :: w := by
    simpa [newline, colon, bang] using ⟨hnewline, h.free⟩
  have hfree' : newline ∉ user ++ colon :: w := by
    simpa [newline, colon] using ⟨hnewline, h.free⟩
  have hmarkedZero : 0 ∉ user ++ colon :: bang :: w := by simpa [colon, bang] using hzero'
  have hmarkedZero' : 0 ∉ user ++ colon :: w := by simpa [colon] using hzero'
  by_cases hfits : (user ++ colon :: bang :: w).length ≤ 509
  · obtain ⟨field, hfield, hafter⟩ := exists_shadowHash_newLine h hlock huser hne hmarked
      hfree hmarkedZero hfits
    exact not_reversible_of_shadowHash hne hbefore mem_cons_self (hlocked ▸ hafter) hfield
  · -- the new line is cut off right behind the copied end: `passwd -u` is the one that spills
    rw [length_append, length_cons, length_cons] at hfits
    have hcut : lockedLine user hash line = user ++ colon :: (bang :: w ++ [newline]) := by
      have hwhole : (user ++ colon :: (bang :: w ++ [newline])).length = LINE_MAXLEN - 1 := by
        simp only [length_append, length_cons, length_nil, LINE_MAXLEN]
        omega
      have htext : lineText { lock := true, user := some user } user (bang :: hash)
          (shadowFields 9 line) =
          (user ++ colon :: (bang :: w ++ [newline])) ++ colon :: strayText tail.length := by
        rw [lineText_of_spills h hlock, hmarked]
        simp
      rw [lockedLine, newLine, snprintf, htext, take_append_of_le_length hwhole.ge,
        take_of_length_le hwhole.le]
    have hmarkedHash : upToColon (bang :: w ++ [newline]) = bang :: hash := by
      have hhead := head?_splitOn (bang :: w ++ [newline])
      have hfields := h.again huser |>.fields
      rw [splitOn_user huser, cons_inj_right] at hfields
      rw [hfields] at hhead
      simpa using hhead.symm
    have hps' : IsPieces ([] ++ lockedLine user hash line :: [nameless ++ [newline]]) := by
      apply hps.replace
      · rw [hcut]
        refine .inl ⟨user ++ colon :: bang :: w, hfree, ?_, by simp⟩
        rw [length_append, length_cons, length_cons]
        omega
      · rw [hcut]
        simpa [newline, colon, bang] using hzero'
    have hunlocked := unlocked_eq hserves hoption huser (hhash.short.trans (by decide)) rfl
      ⟨_, hcut, hmarkedHash⟩ hps' hlocked
    rw [hcut] at hunlocked
    have hcopied : [colon].intercalate
        (hash :: (tail.map (snprintf 16)).map (snprintf 16)) = w ++ [newline] := by
      rw [map_map, ← h.copied]
      simp [Function.comp_def, snprintf_snprintf]
    obtain ⟨field, hfield, hafter⟩ := exists_shadowHash_newLine (h.again huser) hunlock huser hne
      hcopied hfree' hmarkedZero' (by rw [length_append, length_cons]; omega)
    exact not_reversible_of_shadowHash hne hbefore (mem_cons_of_mem _ mem_cons_self)
      (hunlocked ▸ hafter) hfield

end Refutation

section Options

variable {user : Text} {o : Options}

theorem setOption_user {p : UInt8} {val : Option Text} {o' : Options}
    (h : setOption o p val = .ok o') : o'.user = o.user := by
  unfold setOption at h
  split_ifs at h <;> first
    | (cases h; rfl)
    | (cases val <;> cases h; rfl)

/-- A word that looks like an option is one, and not the account. -/
theorem parse_option (o : Options) (huser : isOption user = true) :
    ∃ p val, parse o [user] = setOption o p val := by
  rcases user with _ | ⟨c, _ | ⟨p, value⟩⟩
  · simp [isOption] at huser
  · simp [isOption] at huser
  obtain rfl : c = 45 := by
    by_contra hc
    simp [isOption, hc] at huser
  rw [parse]
  split_ifs
  · refine ⟨p, some value, ?_⟩
    cases setOption o p (some value) <;> rfl
  · exact ⟨p, none, rfl⟩
  · refine ⟨p, none, ?_⟩
    cases setOption o p none <;> rfl

/-- Where the name looks like an option and nobody is logged in, nothing is locked. -/
theorem locked_of_isOption {crypt : Text → Text → Option Text} {host : Host}
    (huser : isOption user = true) (hlogin : host.getlogin = none)
    (hvariable : host.userVariable = none) : locked crypt host user = host.shadow := by
  obtain ⟨p, val, hparse⟩ := parse_option { lock := true } huser
  have hlock : parse {} [ascii "-l", user] = parse { lock := true } [user] :=
    parse_flag (p := 108) (by decide) (by decide) rfl _
  rw [locked, main, hlock, hparse]
  rcases hset : setOption { lock := true } p val with _ | _ | _ | o
  · rfl
  · rfl
  · rfl
  · have haccount : account host o = none := by
      rw [account, setOption_user hset, hlogin, hvariable]
      rfl
    dsimp only
    rw [haccount]
    split <;> rfl

end Options

/-! ## Which lines can be locked -/

/-- Locking works in every shadow file in which this is the first line of the user. -/
def ReversibleInEveryFile (user fields : Text) : Prop :=
  ∀ (crypt : Text → Text → Option Text) (host : Host) (before after : List Text),
    (∀ line ∈ before, ∀ rest, line ≠ user ++ colon :: rest) →
    IsShadowFile (before ++ (user ++ colon :: fields) :: after) → Serves host user →
    host.shadow = some (fileOf (before ++ (user ++ colon :: fields) :: after)) →
    Reversible crypt host user

/-- A machine with one account and nobody logged in. -/
def soleHost (user : Text) (lines : List Text) : Host where
  passwd := some (user ++ ascii ":\n")
  shadow := some (fileOf lines)
  saves := .done
  getlogin := none
  userVariable := none
  euid := 0
  current := none
  first := none
  second := none
  salt := []

section Main

variable {user fields : Text}

theorem serves_soleHost (huser : colon ∉ user) (hnewline : newline ∉ user) (hzero : 0 ∉ user)
    (hshort : user.length < 510) (lines : List Text) : Serves (soleHost user lines) user where
  saves := rfl
  exists_passwd := by
    refine ⟨_, rfl, ?_⟩
    have hfile : user ++ ascii ":\n" = [user ++ colon :: [newline]].flatten := by
      simp [ascii, colon, newline]
    rw [hfile, fgetsAll_flatten, findLine_cons huser, if_pos rfl]
    · rfl
    · simp only [mem_singleton, forall_eq]
      refine .inl ⟨user ++ [colon], by simpa [newline, colon] using hnewline, ?_, by simp⟩
      rw [length_append, length_singleton]
      omega
    · simpa [newline, colon] using hzero

/-- **Which accounts can be locked.** A line that ends late, for a name that does not look like an
option, is locked and unlocked in every file; any other line of an account with a name is not, in
some file. -/
theorem lock_is_reversible_iff (huser : colon ∉ user)
    (hhash : Lockable (upToColon (fields ++ [newline]))) :
    (isOption user = false ∧ EndsLate (user ++ colon :: fields) →
      ReversibleInEveryFile user fields) ∧
    (user ≠ [] → IsShadowFile [user ++ colon :: fields] → ReversibleInEveryFile user fields →
      isOption user = false ∧ EndsLate (user ++ colon :: fields)) := by
  constructor
  · rintro ⟨hoption, hline⟩ crypt host before after hbefore hfile hserves hshadow
    exact reversible_of_endsLate huser hoption hhash hline hbefore hfile hserves hshadow
  intro hne hfile hreversible
  have hline := hfile.single _ mem_cons_self
  have hzero := hfile.zero _ mem_cons_self
  have hshort := hfile.short _ mem_cons_self
  simp only [mem_append, mem_cons, not_or] at hline hzero
  rw [length_append, length_cons] at hshort
  have hserves := serves_soleHost huser hline.1 hzero.1 (by omega)
  have hoption : isOption user = false := by
    by_contra hoption
    rw [Bool.not_eq_false] at hoption
    have h := hreversible (fun _ h ↦ some h) (soleHost user [user ++ colon :: fields]) [] []
      (by simp) hfile (hserves _) rfl
    have hrejected := (h.rejected []).1
    rw [locked_of_isOption hoption rfl rfl, authenticate] at hrejected
    have hsame : shadowHash (soleHost user [user ++ colon :: fields]).shadow user =
        some (upToColon (fields ++ [newline])) := by
      have hread := hfile.isPieces.shadowHash user
      rw [map_singleton, append_assoc, cons_append, findLine_cons huser, if_pos rfl] at hread
      simpa [soleHost, fileOf] using hread
    rw [hsame] at hrejected
    simp [hhash.ne_nil, hhash.unmarked] at hrejected
  refine ⟨hoption, ?_⟩
  by_contra hearly
  have hfile' : IsShadowFile [user ++ colon :: fields, nameless] :=
    ⟨by simp, forall_mem_cons.mpr ⟨hfile.short _ mem_cons_self, by decide⟩,
      forall_mem_cons.mpr ⟨hfile.single _ mem_cons_self, by decide⟩,
      forall_mem_cons.mpr ⟨hfile.zero _ mem_cons_self, by decide⟩⟩
  obtain ⟨w, tail, hspills⟩ := exists_spills huser (hfile.single _ mem_cons_self) hearly
  have hps := hfile'.isPieces
  rw [map_cons, map_singleton, append_assoc, cons_append] at hps
  refine not_reversible_of_spills hspills huser hne hoption hhash
    (hserves [user ++ colon :: fields, nameless]) ?_ ⟨_, rfl, rfl⟩ hline.1 hps ?_ ?_
  · simp only [length_append, length_cons, length_nil]
    omega
  · simp [soleHost, fileOf]
  · exact hreversible _ _ [] [nameless] (by simp) hfile' (hserves _) rfl

end Main

theorem lock_is_reversible_iff_bob :
    Reversible (fun _ h ↦ some h)
      (soleHost (ascii "bob") [ascii "al:z::::::", ascii "bob:x:1:0:99999:7:::"])
      (ascii "bob") := by
  have hiff := @lock_is_reversible_iff (ascii "bob") (ascii "x:1:0:99999:7:::") (by decide)
    ⟨by decide, by decide, by decide⟩
  refine hiff.1 ⟨rfl, ?_⟩ (fun _ h ↦ some h) _ [ascii "al:z::::::"] [] ?_ ?_ ?_ rfl
  · exact .inl (by decide)
  · intro line hline rest heq
    rw [mem_singleton.mp hline] at heq
    exact absurd (congrArg List.head? heq) (by simp [ascii])
  · exact ⟨by decide, by decide, by decide, by decide⟩
  · exact serves_soleHost (by decide) (by decide) (by decide) (by decide) _

/-! ### A locked account that hides another one -/

def longName : Text := List.replicate 495 97

def bobLines : List Text := [longName ++ ascii ":x:", ascii "bob:y:"]

/-- **A lost account.** The new line of an account with a long name does not fit the buffer, and
its tail swallows the name of the next account. -/
theorem locking_hides_next_account :
    IsShadowFile bobLines ∧ Lockable (upToColon (ascii "x:\n")) ∧
      Serves (soleHost longName bobLines) longName ∧
      ¬ Reversible (fun _ h ↦ some h) (soleHost longName bobLines) longName := by
  refine ⟨⟨by decide, by decide +kernel, by decide +kernel, by decide +kernel⟩,
    ⟨by decide, by decide, by decide⟩, ?_, fun h ↦ ?_⟩
  · exact serves_soleHost (by decide +kernel) (by decide +kernel) (by decide +kernel)
      (by decide +kernel) bobLines
  · have hsome : (shadowHash (soleHost longName bobLines).shadow (ascii "bob")).isSome = true := by
      decide +kernel
    have hsame := (h.others (ascii "bob") (by decide +kernel) hsome _ mem_cons_self []).1
    revert hsame
    decide +kernel

end ToastyUnix.Shadow
