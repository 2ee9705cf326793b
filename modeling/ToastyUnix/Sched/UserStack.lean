import ToastyUnix.Sched.Kernel

/-!
# The initial user stack

`task_create_user` of `kernel/sched/sched.c` and `exec_build_stack` of `kernel/elf/tus_elf.c` put
the arguments of a program in the top page of its stack: the strings downwards from the end of the
page, and below them the words that the startup code of the C library reads. Both functions have
their own text and constants for it. `decodeStack` is what the new program reads from its stack
pointer on, and the main result says that it finds its arguments there.
-/

namespace ToastyUnix.Sched

open Mm Paging List Memory

/-- The constants that one of the two functions uses. -/
structure StackLayout where
  base : ℕ
  size : ℕ
  maxArgs : ℕ
  atPagesz : BitVec 64

/-- The constants of `sched.c`. -/
def schedLayout : StackLayout := ⟨USER_STACK_BASE, USER_STACK_SIZE, 16, AT_PAGESZ⟩

def EXEC_USER_STACK : ℕ := 0x60000000
def EXEC_STACK_SIZE : ℕ := 65536
def EXEC_AT_PAGESZ : BitVec 64 := 6

/-- The constants of `tus_elf.c`. -/
def execLayout : StackLayout := ⟨EXEC_USER_STACK, EXEC_STACK_SIZE, EXEC_MAX_ARGS, EXEC_AT_PAGESZ⟩

/-- The sum `need`. -/
def stackNeed (args : List (List UInt8)) : ℕ :=
  8 + (args.length + 6) * 8 + (args.map fun arg ↦ arg.length + 1).sum

namespace StackLayout

def topPage (layout : StackLayout) : ℕ := layout.base + layout.size - 4096

/-- The array `args`. -/
def args (layout : StackLayout) (name : Option (List UInt8)) (argv : List (Option (List UInt8))) :
    List (List UInt8) :=
  (name.getD [] :: argv.map fun arg ↦ arg.getD []).take layout.maxArgs

/-- The words from the stack pointer on. -/
def words (layout : StackLayout) (starts : List ℕ) : List (BitVec 64) :=
  BitVec.ofNat 64 starts.length ::
    (starts.map (fun start ↦ BitVec.ofNat 64 (layout.topPage + start)) ++
      [0, 0, layout.atPagesz, 4096, 0])

/-- The stack pointer and the memory with the image in frame `f` of the top page, or a failure when
it is too small. The frame is mapped at a multiple of its size, so rounding addresses rounds
offsets. -/
def image (layout : StackLayout) (mem : Memory) (f : ℕ) (args : List (List UInt8)) :
    Option (ℕ × Memory) :=
  if 4096 < stackNeed args then none
  else
    let (starts, lowest, mem) := putStrings mem f 4096 args
    let init := lowest / 8 - (args.length + 6)
    some (layout.topPage + init * 8, putWords mem f init (layout.words starts))

end StackLayout

/-- The stack image of `task_create_user`. -/
def taskCreateUserImage (mem : Memory) (f : ℕ) (name : Option (List UInt8))
    (argv : List (Option (List UInt8))) : Option (ℕ × Memory) :=
  schedLayout.image mem f (schedLayout.args name argv)

/-- The stack image of `exec_build_stack`. -/
def execBuildStackImage (mem : Memory) (f : ℕ) (name : Option (List UInt8))
    (argv : List (Option (List UInt8))) : Option (ℕ × Memory) :=
  execLayout.image mem f (execLayout.args name argv)

/-! ## What the program reads -/

/-- The string at an offset of the page, up to its terminator and within `n` bytes. -/
def readString (mem : Memory) (f : ℕ) : ℕ → ℕ → Option (List UInt8)
  | 0, _ => none
  | n + 1, offset =>
    if mem.byte f offset = 0 then some []
    else (readString mem f n (offset + 1)).map (mem.byte f offset :: ·)

def readWords (mem : Memory) (f i n : ℕ) : List (BitVec 64) :=
  (List.range n).map fun j ↦ mem f (i + j)

/-- Read the argument count, addresses and strings, the two terminators and the auxiliary vector
from the stack pointer on, within the page at `topPage`. -/
def decodeStack (topPage : ℕ) (mem : Memory) (f rsp : ℕ) : Option (List (ℕ × List UInt8)) :=
  if rsp % 8 ≠ 0 ∨ rsp < topPage ∨ topPage + 4096 ≤ rsp then none
  else
    let i := (rsp - topPage) / 8
    let argc := (mem f i).toNat
    if 512 < i + argc + 6 ∨ readWords mem f (i + 1 + argc) 5 ≠ [0, 0, 6, 4096, 0] then none
    else
      (readWords mem f (i + 1) argc).mapM fun address ↦
        let offset := address.toNat - topPage
        (readString mem f (4096 - offset) offset).map (address.toNat, ·)

/-! ## Stores into a page -/

theorem byte_putBytes (mem : Memory) (f offset : ℕ) (bytes : List UInt8) (o : ℕ) :
    (putBytes mem f offset bytes).byte f o =
      if offset ≤ o ∧ o < offset + bytes.length then bytes.getD (o - offset) 0
      else mem.byte f o := by
  induction bytes generalizing mem offset with
  | nil => rw [putBytes, if_neg (by simp)]
  | cons b bytes ih =>
    rw [putBytes, ih, byte_writeByte, length_cons]
    by_cases hfirst : o = offset
    · subst hfirst
      simp
    · by_cases hin : offset + 1 ≤ o ∧ o < offset + 1 + bytes.length
      · obtain ⟨k, rfl⟩ : ∃ k, o = offset + 1 + k := ⟨o - (offset + 1), by omega⟩
        rw [if_pos hin, if_pos (by omega), show offset + 1 + k - offset = k + 1 by omega,
          show offset + 1 + k - (offset + 1) = k by omega, getD_cons_succ]
      · rw [if_neg hin, if_neg (by simp [hfirst]), if_neg (by omega)]

variable {mem mem' page : Memory} {f f' o offset n topPage rsp : ℕ} {args : List (List UInt8)}
  {layout : StackLayout}

theorem putBytes_congr (h : mem f = mem' f') (offset : ℕ) (bytes : List UInt8) :
    putBytes mem f offset bytes f = putBytes mem' f' offset bytes f' := by
  induction bytes generalizing mem mem' offset with
  | nil => exact h
  | cons b bytes ih =>
    refine ih ?_ (offset + 1)
    funext i
    simp [writeByte, write, h]

theorem putWords_apply (mem : Memory) (f i : ℕ) (words : List (BitVec 64)) (j : ℕ) :
    putWords mem f i words f j =
      if i ≤ j ∧ j < i + words.length then words.getD (j - i) 0 else mem f j := by
  induction words generalizing mem i with
  | nil => rw [putWords, if_neg (by simp)]
  | cons w words ih =>
    rw [putWords, ih, length_cons]
    by_cases hfirst : j = i
    · subst hfirst
      simp
    · by_cases hin : i + 1 ≤ j ∧ j < i + 1 + words.length
      · obtain ⟨k, rfl⟩ : ∃ k, j = i + 1 + k := ⟨j - (i + 1), by omega⟩
        rw [if_pos hin, if_pos (by omega), show i + 1 + k - i = k + 1 by omega,
          show i + 1 + k - (i + 1) = k by omega, getD_cons_succ]
      · rw [if_neg hin, if_neg (by omega), write_of_ne _ _ (by simp [hfirst])]

theorem putWords_congr (h : mem f = mem' f') (i : ℕ) (words : List (BitVec 64)) :
    putWords mem f i words f = putWords mem' f' i words f' := by
  funext j
  rw [putWords_apply, putWords_apply, h]

theorem byte_putWords_of_ge (mem : Memory) (f i : ℕ) (words : List (BitVec 64))
    (h : (i + words.length) * 8 ≤ o) : (putWords mem f i words).byte f o = mem.byte f o := by
  rw [byte, byte, putWords_apply, if_neg (by omega)]

/-- The bytes that the strings take. -/
def stringsSize (args : List (List UInt8)) : ℕ := (args.map fun arg ↦ arg.length + 1).sum

@[simp]
theorem stringsSize_cons (arg : List UInt8) (args : List (List UInt8)) :
    stringsSize (arg :: args) = arg.length + 1 + stringsSize args := by
  simp [stringsSize]

/-- Where the strings start, downwards from an offset. -/
def stringStarts : ℕ → List (List UInt8) → List ℕ
  | _, [] => []
  | offset, arg :: args =>
    (offset - (arg.length + 1)) :: stringStarts (offset - (arg.length + 1)) args

/-- The string with its terminator is stored at an offset of the page. -/
def HoldsString (mem : Memory) (f start : ℕ) (arg : List UInt8) : Prop :=
  ∀ k ≤ arg.length, mem.byte f (start + k) = (arg ++ [0]).getD k 0

theorem length_stringStarts (offset : ℕ) (args : List (List UInt8)) :
    (stringStarts offset args).length = args.length := by
  induction args generalizing offset with
  | nil => rfl
  | cons arg args ih => rw [stringStarts, length_cons, length_cons, ih]

theorem putStrings_starts (mem : Memory) (f offset : ℕ) (args : List (List UInt8)) :
    (putStrings mem f offset args).1 = stringStarts offset args := by
  induction args generalizing mem offset with
  | nil => rfl
  | cons arg args ih => exact congrArg _ (ih _ _)

theorem putStrings_lowest (mem : Memory) (f offset : ℕ) (args : List (List UInt8)) :
    (putStrings mem f offset args).2.1 = offset - stringsSize args := by
  induction args generalizing mem offset with
  | nil => rfl
  | cons arg args ih =>
    rw [stringsSize_cons, ← Nat.sub_sub]
    exact ih _ _

theorem putStrings_congr (h : mem f = mem' f') (offset : ℕ) (args : List (List UInt8)) :
    (putStrings mem f offset args).2.2 f = (putStrings mem' f' offset args).2.2 f' := by
  induction args generalizing mem mem' offset with
  | nil => exact h
  | cons arg args ih => exact ih (putBytes_congr h _ _) _

section

variable (mem : Memory) (f : ℕ) (args : List (List UInt8)) (hfit : stringsSize args ≤ offset)
include hfit

/-- The strings are stored below the offset. -/
theorem byte_putStrings_of_ge (ho : offset ≤ o) :
    (putStrings mem f offset args).2.2.byte f o = mem.byte f o := by
  induction args generalizing mem offset with
  | nil => rfl
  | cons arg args ih =>
    rw [stringsSize_cons] at hfit
    refine (ih _ (by omega) (by omega)).trans ?_
    rw [byte_putBytes, if_neg]
    simp only [length_append, length_singleton]
    omega

theorem putStrings_holds :
    List.Forall₂ (HoldsString (putStrings mem f offset args).2.2 f) (stringStarts offset args)
      args := by
  induction args generalizing mem offset with
  | nil => exact .nil
  | cons arg args ih =>
    rw [stringsSize_cons] at hfit
    refine .cons (fun k hk ↦ ?_) (ih _ (by omega))
    -- the strings behind this one are stored below it
    refine (byte_putStrings_of_ge _ f args (by omega) (by omega)).trans ?_
    rw [byte_putBytes, if_pos (by simp; omega), Nat.add_sub_cancel_left]

end

theorem readString_of_holds {start : ℕ} {arg : List UInt8} (h : HoldsString mem f start arg)
    (hnul : 0 ∉ arg) (hn : arg.length < n) : readString mem f n start = some arg := by
  induction arg generalizing start n with
  | nil =>
    obtain ⟨n, rfl⟩ := Nat.exists_eq_succ_of_ne_zero (Nat.ne_of_gt hn)
    have hend : mem.byte f start = 0 := h 0 le_rfl
    rw [readString, if_pos hend]
  | cons b arg ih =>
    obtain ⟨n, rfl⟩ := Nat.exists_eq_succ_of_ne_zero (Nat.ne_of_gt (Nat.zero_lt_of_lt hn))
    rw [mem_cons, not_or] at hnul
    have hfirst : mem.byte f start = b := h 0 (Nat.zero_le _)
    have hrest : HoldsString mem f (start + 1) arg := by
      intro k hk
      have hnext := h (k + 1) (Nat.succ_le_succ hk)
      rwa [cons_append, getD_cons_succ, ← Nat.add_assoc, Nat.add_right_comm] at hnext
    rw [readString, hfirst, if_neg (Ne.symm hnul.1),
      ih hrest hnul.2 (Nat.lt_of_succ_lt_succ hn), Option.map_some]

/-- Where a string lies: above all strings behind it, and below the offset. -/
theorem stringStarts_bounds (hfit : stringsSize args ≤ offset) :
    ∀ p ∈ (stringStarts offset args).zip args,
      offset - stringsSize args ≤ p.1 ∧ p.1 + (p.2.length + 1) ≤ offset := by
  induction args generalizing offset with
  | nil => intro p hp; cases hp
  | cons arg args ih =>
    rw [stringsSize_cons] at hfit ⊢
    intro p hp
    rw [stringStarts, zip_cons_cons, mem_cons] at hp
    obtain rfl | hp := hp
    · constructor <;> simp only <;> omega
    · have hb := ih (by omega) p hp
      omega

theorem readWords_putWords {i a : ℕ} {words : List (BitVec 64)} (h : a + n ≤ words.length) :
    readWords (putWords mem f i words) f (i + a) n = (words.drop a).take n := by
  apply ext_getElem
  · simp only [readWords, length_map, length_range, length_take, length_drop]
    omega
  · intro j hj hj'
    simp only [readWords, length_map, length_range] at hj
    simp only [readWords, getElem_map, getElem_range, getElem_take, getElem_drop, putWords_apply]
    rw [if_pos (by omega), show i + a + j - i = a + j by omega,
      getD_eq_getElem _ _ (by omega)]

theorem StackLayout.length_words (layout : StackLayout) (starts : List ℕ) :
    (layout.words starts).length = starts.length + 6 := by
  simp [StackLayout.words]

/-- Following the addresses of strings that the page holds gives the strings. -/
theorem mapM_readString {starts : List ℕ} (hholds : List.Forall₂ (HoldsString mem f) starts args)
    (hnul : ∀ arg ∈ args, 0 ∉ arg) (hfit : ∀ p ∈ starts.zip args, p.1 + (p.2.length + 1) ≤ 4096)
    (htop : topPage + 4096 ≤ 2 ^ 64) :
    ((starts.map fun start ↦ BitVec.ofNat 64 (topPage + start)).mapM fun address ↦
      (readString mem f (4096 - (address.toNat - topPage)) (address.toNat - topPage)).map
        (address.toNat, ·)) = some ((starts.map (topPage + ·)).zip args) := by
  induction hholds with
  | nil => rfl
  | @cons start arg starts args hfirst hrest ih =>
    rw [zip_cons_cons, forall_mem_cons] at hfit
    rw [forall_mem_cons] at hnul
    have hroom : start + (arg.length + 1) ≤ 4096 := hfit.1
    have haddress : (BitVec.ofNat 64 (topPage + start)).toNat = topPage + start := by
      rw [BitVec.toNat_ofNat, Nat.mod_eq_of_lt]
      omega
    rw [map_cons, mapM_cons, haddress, Nat.add_sub_cancel_left,
      readString_of_holds hfirst hnul.1 (by omega), ih hnul.2 hfit.2]
    rfl

/-! ## Spans of memory -/

/-- Two spans of memory, each a start and a length, do not overlap. -/
def Apart (a b : ℕ × ℕ) : Prop := a.1 + a.2 ≤ b.1 ∨ b.1 + b.2 ≤ a.1

/-- The strings with their terminators at the given addresses. -/
def stringSpans (addresses : List ℕ) (args : List (List UInt8)) : List (ℕ × ℕ) :=
  (addresses.zip args).map fun p ↦ (p.1, p.2.length + 1)

/-- The argument vector with its count and the terminators, the auxiliary vector, the strings. -/
def stackSpans (rsp : ℕ) (addresses : List ℕ) (args : List (List UInt8)) : List (ℕ × ℕ) :=
  (rsp, (args.length + 3) * 8) :: (rsp + (args.length + 3) * 8, 24) :: stringSpans addresses args

theorem mem_stringSpans {span : ℕ × ℕ} (hfit : stringsSize args ≤ offset)
    (h : span ∈ stringSpans ((stringStarts offset args).map (topPage + ·)) args) :
    topPage + (offset - stringsSize args) ≤ span.1 ∧ span.1 + span.2 ≤ topPage + offset := by
  rw [stringSpans, zip_map_left, map_map, mem_map] at h
  obtain ⟨p, hp, rfl⟩ := h
  have hb := stringStarts_bounds hfit p hp
  simp only [Function.comp_apply, Prod.map_fst, Prod.map_snd, id]
  omega

theorem pairwise_stringSpans (hfit : stringsSize args ≤ offset) :
    (stringSpans ((stringStarts offset args).map (topPage + ·)) args).Pairwise Apart := by
  induction args generalizing offset with
  | nil => exact .nil
  | cons arg args ih =>
    rw [stringsSize_cons] at hfit
    have hrest : stringsSize args ≤ offset - (arg.length + 1) := by omega
    exact .cons (fun span hspan ↦ .inr (mem_stringSpans hrest hspan).2) (ih hrest)

/-- The page of an image: the strings from the end on and the words below them. -/
structure StackPage (layout : StackLayout) (page : Memory) (f init : ℕ)
    (args : List (List UInt8)) : Prop where
  words : ∀ {a n : ℕ}, a + n ≤ args.length + 6 →
    readWords page f (init + a) n = ((layout.words (stringStarts 4096 args)).drop a).take n
  strings : List.Forall₂ (HoldsString page f) (stringStarts 4096 args) args

/-- The index of the word that the stack pointer points at. -/
def stackInit (args : List (List UInt8)) : ℕ := (4096 - stringsSize args) / 8 - (args.length + 6)

theorem stackInit_bounds (h : stackNeed args ≤ 4096) :
    stringsSize args ≤ 4096 ∧
      (stackInit args + (args.length + 6)) * 8 ≤ 4096 - stringsSize args := by
  have hsum : 8 + (args.length + 6) * 8 + stringsSize args ≤ 4096 := h
  unfold stackInit
  omega

theorem StackLayout.image_page (layout : StackLayout) (mem : Memory) (f : ℕ)
    (h : stackNeed args ≤ 4096) :
    ∃ page, layout.image mem f args = some (layout.topPage + stackInit args * 8, page) ∧
      StackPage layout page f (stackInit args) args := by
  obtain ⟨hsize, hroom⟩ := stackInit_bounds h
  have hlength : (layout.words (stringStarts 4096 args)).length = args.length + 6 := by
    rw [layout.length_words, length_stringStarts]
  refine ⟨putWords (putStrings mem f 4096 args).2.2 f (stackInit args)
    (layout.words (stringStarts 4096 args)), ?_, ?_, ?_⟩
  · rw [StackLayout.image, if_neg (by omega)]
    simp only [putStrings_starts, putStrings_lowest]
    rfl
  · intro a n han
    exact readWords_putWords (by omega)
  · -- the words end below the lowest string
    have hholds := putStrings_holds mem f args hsize
    have hbounds := stringStarts_bounds hsize
    rw [forall₂_iff_zip] at hholds ⊢
    refine ⟨hholds.1, fun {start arg} hp k hk ↦ ?_⟩
    have hb := hbounds (start, arg) hp
    rw [byte_putWords_of_ge _ _ _ _ (by rw [hlength]; omega)]
    exact hholds.2 hp k hk

theorem StackPage.decodes (h : StackPage layout page f (stackInit args) args)
    (hat : layout.atPagesz = 6) (htop : layout.topPage + 4096 ≤ 2 ^ 64)
    (haligned : layout.topPage % 8 = 0) (hneed : stackNeed args ≤ 4096)
    (hnul : ∀ arg ∈ args, 0 ∉ arg) :
    decodeStack layout.topPage page f (layout.topPage + stackInit args * 8) =
      some (((stringStarts 4096 args).map (layout.topPage + ·)).zip args) := by
  obtain ⟨hsize, hroom⟩ := stackInit_bounds hneed
  have hlength := length_stringStarts 4096 args
  have hindex : (layout.topPage + stackInit args * 8 - layout.topPage) / 8 = stackInit args := by
    omega
  have hargc : (page f (stackInit args)).toNat = args.length := by
    have hword : readWords page f (stackInit args + 0) 1 = _ := h.words (by omega)
    simp only [readWords, StackLayout.words, range_one, map_cons, map_nil,
      drop_zero, take_succ_cons, take_zero, Nat.add_zero, hlength] at hword
    rw [head_eq_of_cons_eq hword, BitVec.toNat_ofNat, Nat.mod_eq_of_lt (by omega)]
  have htail : readWords page f (stackInit args + (1 + args.length)) 5 = [0, 0, 6, 4096, 0] := by
    rw [h.words (by omega), StackLayout.words, Nat.add_comm 1, drop_succ_cons,
      drop_left' (by rw [length_map, hlength]), hat]
    rfl
  have haddresses : readWords page f (stackInit args + 1) args.length =
      (stringStarts 4096 args).map fun start ↦ BitVec.ofNat 64 (layout.topPage + start) := by
    rw [h.words (by omega), StackLayout.words, drop_succ_cons, drop_zero,
      take_left' (by rw [length_map, hlength])]
  rw [decodeStack, if_neg (by omega)]
  simp only [hindex, hargc, Nat.add_assoc, htail, haddresses]
  rw [if_neg (by simp; omega)]
  exact mapM_readString h.strings hnul
    (fun p hp ↦ (stringStarts_bounds hsize p hp).2) htop

theorem pairwise_stackSpans (hneed : stackNeed args ≤ 4096) :
    (stackSpans (topPage + stackInit args * 8)
      ((stringStarts 4096 args).map (topPage + ·)) args).Pairwise Apart := by
  obtain ⟨hsize, hroom⟩ := stackInit_bounds hneed
  refine .cons (fun span hspan ↦ ?_) (.cons (fun span hspan ↦ ?_) (pairwise_stringSpans hsize))
  · obtain rfl | hspan := mem_cons.mp hspan
    · exact .inl le_rfl
    · have hb := mem_stringSpans hsize hspan
      exact .inl (by omega)
  · have hb := mem_stringSpans hsize hspan
    exact .inl (by simp only; omega)

theorem stackSpans_inside (topPage : ℕ) (hneed : stackNeed args ≤ 4096) :
    ∀ span ∈ stackSpans (topPage + stackInit args * 8)
      ((stringStarts 4096 args).map (topPage + ·)) args,
      topPage ≤ span.1 ∧ span.1 + span.2 ≤ topPage + 4096 := by
  obtain ⟨hsize, hroom⟩ := stackInit_bounds hneed
  intro span hspan
  simp only [stackSpans, mem_cons] at hspan
  obtain rfl | rfl | hspan := hspan
  · constructor <;> simp only <;> omega
  · constructor <;> simp only <;> omega
  · have hb := mem_stringSpans hsize hspan
    omega

theorem StackLayout.args_some {name : List UInt8} {argv : List (List UInt8)}
    (h : argv.length + 1 ≤ layout.maxArgs) :
    layout.args (some name) (argv.map some) = name :: argv := by
  rw [StackLayout.args, Option.getD_some, map_map]
  have hid : (fun arg : Option (List UInt8) ↦ arg.getD []) ∘ some = id := rfl
  rw [hid, map_id, take_of_length_le (by simpa using h)]

theorem StackLayout.image_congr (layout : StackLayout) (h : mem f = mem' f')
    (himage : layout.image mem f args = some (rsp, page)) :
    ∃ page', layout.image mem' f' args = some (rsp, page') ∧ page f = page' f' := by
  unfold StackLayout.image at himage ⊢
  split_ifs at himage ⊢ with hneed
  simp only [Option.some.injEq, Prod.mk.injEq, putStrings_starts, putStrings_lowest] at himage ⊢
  obtain ⟨rfl, rfl⟩ := himage
  exact ⟨_, ⟨rfl, rfl⟩, putWords_congr (putStrings_congr h _ _) _ _⟩

/-- The top page of every user stack. -/
def stackTopPage : ℕ := USER_STACK_BASE + USER_STACK_SIZE - 4096

/-- The two functions write the same page when it fits, which decodes to the name and the arguments
and whose parts do not overlap, and fail alike when it does not fit. -/
theorem initial_stack_decodes {mem mem' : Memory} {f f' : ℕ} (hpage : mem f = mem' f')
    {name : List UInt8} {argv : List (List UInt8)} (hargs : argv.length + 1 ≤ 16)
    (hnul : ∀ arg ∈ name :: argv, 0 ∉ arg) :
    (stackNeed (name :: argv) ≤ 4096 → ∃ rsp page page' addresses,
        taskCreateUserImage mem f (some name) (argv.map some) = some (rsp, page) ∧
        execBuildStackImage mem' f' (some name) (argv.map some) = some (rsp, page') ∧
        page f = page' f' ∧ rsp % 8 = 0 ∧ stackTopPage ≤ rsp ∧ rsp < stackTopPage + 4096 ∧
        addresses.length = argv.length + 1 ∧
        decodeStack stackTopPage page f rsp = some (addresses.zip (name :: argv)) ∧
        (stackSpans rsp addresses (name :: argv)).Pairwise Apart ∧
        ∀ span ∈ stackSpans rsp addresses (name :: argv),
          stackTopPage ≤ span.1 ∧ span.1 + span.2 ≤ stackTopPage + 4096) ∧
    (4096 < stackNeed (name :: argv) →
      taskCreateUserImage mem f (some name) (argv.map some) = none ∧
        execBuildStackImage mem' f' (some name) (argv.map some) = none) := by
  have hlayouts : execLayout = schedLayout := rfl
  rw [taskCreateUserImage, execBuildStackImage, hlayouts, StackLayout.args_some hargs]
  have htop : schedLayout.topPage = stackTopPage := rfl
  constructor
  · intro hneed
    obtain ⟨page, himage, hstack⟩ := schedLayout.image_page mem f hneed
    obtain ⟨page', himage', hsame⟩ := schedLayout.image_congr hpage himage
    have hinside := stackSpans_inside stackTopPage hneed
    have hrsp := hinside _ mem_cons_self
    simp only [length_cons] at hrsp
    have haligned : (stackTopPage + stackInit (name :: argv) * 8) % 8 = 0 := by
      have : stackTopPage % 8 = 0 := by decide
      omega
    exact ⟨_, page, page', _, himage, himage', hsame, haligned, hrsp.1, by rw [htop]; omega,
      by rw [length_map, length_stringStarts, length_cons],
      hstack.decodes rfl (by decide) (by decide) hneed hnul, pairwise_stackSpans hneed, hinside⟩
  · intro hneed
    simp only [StackLayout.image, if_pos hneed, and_self]

theorem initial_stack_decodes_ls :
    ∃ rsp page, ∃ addresses : List ℕ,
      taskCreateUserImage (fun _ _ ↦ 0) 7 (some [108, 115]) [some [45, 97]] = some (rsp, page) ∧
      decodeStack stackTopPage page 7 rsp = some (addresses.zip [[108, 115], [45, 97]]) := by
  obtain ⟨rsp, page, -, addresses, himage, -, -, -, -, -, -, hdecode, -⟩ :=
    (@initial_stack_decodes (fun _ _ ↦ 0) (fun _ _ ↦ 0) 7 7 rfl [108, 115] [[45, 97]] (by decide)
      (by decide)).1 (by decide)
  exact ⟨rsp, page, addresses, himage, hdecode⟩

end ToastyUnix.Sched
