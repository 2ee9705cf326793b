import ToastyUnix.Lib.Runs
import ToastyUnix.Vfs.Io

/-!
# Growing the buffer of a file

`file_write` and `vfs_ftruncate` of `kernel/vfs/vfs.c` double the capacity of a buffer until the
data fits and then call `krealloc` of `kernel/mm/kmalloc.c`, which rounds the size up and keeps the
old block if it is large enough. This module follows one regular file with all its open
descriptions through any sequence of calls, together with the size of the block that its buffer
lies in (`growth_is_safe`).
-/

namespace ToastyUnix.Vfs

open Errno Function Option
open Runs (Always Meets)

/-! ## The doubling loop -/

/-- The doubling loop multiplies by a power of two, without wrapping, and stops once there is room.
-/
theorem growCapacity_exact {need : ℕ} (hneed : need ≤ 2 ^ 63) (fuel newcap : ℕ)
    (hfuel : need ≤ newcap * 2 ^ fuel) :
    ∃ j, growCapacity need fuel newcap = some (newcap * 2 ^ j) ∧ need ≤ newcap * 2 ^ j ∧
      (j = 0 ∨ newcap * 2 ^ j < 2 * need) := by
  induction fuel generalizing newcap with
  | zero =>
    have hle : need ≤ newcap := by simpa using hfuel
    exact ⟨0, by simp [growCapacity, hle], by simpa using hle, .inl rfl⟩
  | succ fuel ih =>
    by_cases hle : need ≤ newcap
    · exact ⟨0, by simp [growCapacity, hle], by simpa using hle, .inl rfl⟩
    · have hdouble : newcap * 2 % sizeMod = newcap * 2 := by
        rw [Nat.mod_eq_of_lt]
        unfold sizeMod
        omega
      obtain ⟨j, hloop, hroom, hleast⟩ := ih (newcap * 2) (by rwa [mul_assoc, ← pow_succ'])
      have hpow : newcap * 2 * 2 ^ j = newcap * 2 ^ (j + 1) := by rw [pow_succ', mul_assoc]
      rw [hpow] at hloop hroom hleast
      refine ⟨j + 1, by rw [growCapacity, if_neg hle, hdouble, hloop], hroom, .inr ?_⟩
      rcases hleast with rfl | hleast
      · omega
      · exact hleast

/-! ## The allocator -/

def ALIGN : ℕ := 16

/-- `sizeof(struct block)`. -/
def HEADER_SIZE : ℕ := 24

/-- `align_up`. -/
def alignUp (n : ℕ) : ℕ := (n + (ALIGN - 1)) % sizeMod / ALIGN * ALIGN

/-- What `kmalloc` finds: for each size the first free block that is large enough, once the arena
has grown, and whether there are frames for a large allocation. -/
structure Arena where
  fit : ℕ → Option ℕ
  le_of_fit : ∀ {size b}, fit size = some b → size ≤ b
  frames : ℕ → Bool

/-- `kmalloc`: the size of the payload of the block that it returns. -/
def Arena.kmalloc (heap : Arena) (size : ℕ) : Option ℕ :=
  let size := alignUp (if size = 0 then ALIGN else size)
  if 4096 - HEADER_SIZE < size then if heap.frames size then some size else none
  else (heap.fit size).map fun b ↦ if size + HEADER_SIZE + ALIGN ≤ b then size else b

/-- `krealloc`, where `ptr` is the payload size behind a pointer other than `NULL`. -/
def Arena.krealloc (heap : Arena) (ptr : Option ℕ) (size : ℕ) : Option ℕ :=
  match ptr with
  | none => heap.kmalloc size
  | some b => if alignUp size ≤ b then some b else heap.kmalloc (alignUp size)

/-- `kmalloc` succeeds only below `2^48` bytes. -/
def Arena.Limited (heap : Arena) : Prop :=
  ∀ size < sizeMod, (heap.kmalloc size).isSome → size < 2 ^ 48

/-- More than any block of a limited heap holds. -/
def blockLimit : ℕ := 2 ^ 49

theorem le_alignUp {n : ℕ} (hn : n + ALIGN ≤ sizeMod) : n ≤ alignUp n := by
  unfold alignUp ALIGN sizeMod at *
  omega

theorem alignUp_lt_sizeMod (n : ℕ) : alignUp n < sizeMod := by
  have hmod : (n + (ALIGN - 1)) % sizeMod < sizeMod := Nat.mod_lt _ (by unfold sizeMod; omega)
  unfold alignUp ALIGN at *
  omega

theorem alignUp_lt (n : ℕ) : alignUp n < n + ALIGN := by
  have hmod : (n + (ALIGN - 1)) % sizeMod ≤ n + (ALIGN - 1) := Nat.mod_le _ _
  unfold alignUp ALIGN at *
  omega

variable {heap : Arena} {size b : ℕ}

/-- A block has room for the bytes that were asked for, and little more. -/
theorem Arena.kmalloc_spec (hheap : heap.Limited) (hsize : size < sizeMod)
    (h : heap.kmalloc size = some b) : size ≤ b ∧ b < blockLimit := by
  have hlt : size < 2 ^ 48 := hheap size hsize (by rw [h]; rfl)
  have hge : size ≤ alignUp (if size = 0 then ALIGN else size) := by
    by_cases hzero : size = 0
    · simp [hzero]
    · rw [if_neg hzero]
      exact le_alignUp (by unfold ALIGN sizeMod; omega)
  have hup : alignUp (if size = 0 then ALIGN else size) < size + 2 * ALIGN := by
    by_cases hzero : size = 0
    · simp only [hzero, if_true]
      have := alignUp_lt ALIGN
      omega
    · rw [if_neg hzero]
      have := alignUp_lt size
      omega
  simp only [Arena.kmalloc] at h
  generalize alignUp (if size = 0 then ALIGN else size) = rounded at h hge hup
  unfold blockLimit
  unfold ALIGN HEADER_SIZE at *
  by_cases hlarge : 4096 - 24 < rounded
  · rw [if_pos hlarge] at h
    cases hframes : heap.frames rounded <;> simp [hframes] at h
    omega
  · rw [if_neg hlarge] at h
    obtain ⟨c, hc, rfl⟩ := map_eq_some_iff.mp h
    have hfit := heap.le_of_fit hc
    split_ifs <;> omega

/-- The same holds for `krealloc`, as long as rounding the size up does not wrap. -/
theorem Arena.krealloc_spec (hheap : heap.Limited) {ptr : Option ℕ}
    (hptr : ptr.getD 0 < blockLimit) (hsize : size + ALIGN ≤ sizeMod)
    (h : heap.krealloc ptr size = some b) : size ≤ b ∧ b < blockLimit := by
  have hge : size ≤ alignUp size := le_alignUp hsize
  cases ptr with
  | none => exact Arena.kmalloc_spec hheap (by unfold ALIGN at hsize; omega) h
  | some c =>
    simp only [Arena.krealloc] at h
    split_ifs at h with hfits
    · cases h
      exact ⟨hge.trans hfits, hptr⟩
    · have := Arena.kmalloc_spec hheap (alignUp_lt_sizeMod size) h
      omega

/-- A regular file at `addr`: its node, the size of its buffer's block (`none` when `data` is
`NULL`), and the open descriptions. -/
structure RegularFile where
  addr : Addr
  node : Node
  block : Option ℕ
  files : Addr → Option File

/-- The calls that change the file or a position in it. -/
inductive FileOp
  | openFile (a : Addr) (flags : BitVec 32)
  | close (a : Addr)
  | read (a : Addr) (count : ℕ)
  | write (a : Addr) (buf : List UInt8) (heap : Arena) (rest : ℕ → UInt8)
  | ftruncate (length : ℕ) (heap : Arena) (rest : ℕ → UInt8)

namespace RegularFile

/-- Where the doubling loop starts. -/
def firstCapacity (s : RegularFile) : ℕ := if s.node.capacity ≠ 0 then s.node.capacity else 64

/-- The block that `krealloc` returns for `need` bytes. -/
def grownBlock (s : RegularFile) (need : ℕ) (heap : Arena) : Option ℕ :=
  (growCapacity need 64 s.firstCapacity).bind (heap.krealloc s.block)

/-- The call has to grow the buffer, and `krealloc` fails. -/
def OutOfMemory (s : RegularFile) (need : ℕ) (heap : Arena) : Prop :=
  s.node.capacity < need ∧ s.grownBlock need heap = none

/-- What `krealloc` contributes to a call that needs room for `need` bytes. -/
def realloc (s : RegularFile) (need : ℕ) (heap : Arena) (rest : ℕ → UInt8) : Realloc :=
  ⟨(s.grownBlock need heap).isSome, rest⟩

/-- The block after a call that needs room for `need` bytes. -/
def nextBlock (s : RegularFile) (need : ℕ) (heap : Arena) : Option ℕ :=
  if s.node.capacity < need then (s.grownBlock need heap).or s.block else s.block

/-- `need` in `file_write`. -/
def writeEnd (f : File) (buf : List UInt8) : ℕ := (f.pos + buf.length) % sizeMod

def write (s : RegularFile) (f : File) (buf : List UInt8) (heap : Arena) (rest : ℕ → UInt8) :
    Option ℤ × File × Node :=
  fileWrite f s.node buf (s.realloc (writeEnd f buf) heap rest)

def truncate (s : RegularFile) (length : ℕ) (heap : Arena) (rest : ℕ → UInt8) :
    Option ℤ × Node :=
  nodeTruncate s.node length (s.realloc length heap rest)

/-- One call. Calls on a description that is not open do nothing. -/
def step (s : RegularFile) : FileOp → RegularFile
  | .openFile a flags =>
    if (s.files a).isSome then s
    else
      { s with
        node := truncateOnOpen s.node flags
        files := update s.files a
          (some (openFile s.addr (truncateOnOpen s.node flags) flags)) }
  | .close a => { s with files := update s.files a none }
  | .read a count =>
    match s.files a with
    | none => s
    | some f => { s with files := update s.files a (some (fileRead f s.node count).2.2) }
  | .write a buf heap rest =>
    match s.files a with
    | none => s
    | some f =>
      { s with
        node := (s.write f buf heap rest).2.2
        block := s.nextBlock (writeEnd f buf) heap
        files := update s.files a (some (s.write f buf heap rest).2.1) }
  | .ftruncate length heap rest =>
    { s with
      node := (s.truncate length heap rest).2
      block := if length < s.node.size then s.block else s.nextBlock length heap }

/-- A file just created by `vfs_create_file` or filled by `vfs_mount_rootfs`. Descriptions of an
earlier file at the address may still be open. -/
def Initial (s : RegularFile) : Prop :=
  (∀ a f, s.files a = some f → f.pos < blockLimit) ∧
  ((s.node.size = 0 ∧ s.node.capacity = 0 ∧ s.block = none) ∨
    ∃ heap : Arena, heap.Limited ∧ s.node.size = s.node.capacity ∧ s.node.capacity < sizeMod ∧
      s.block = heap.kmalloc s.node.capacity ∧ s.block ≠ none)

/-! ## What the calls guarantee -/

/-- The doubling loop for `need` bytes ends at a power of two times its start, below `2^64` and with
room. -/
def LoopEnds (s : RegularFile) (need : ℕ) : Prop :=
  ∃ j, growCapacity need 64 s.firstCapacity = some (s.firstCapacity * 2 ^ j) ∧
    need ≤ s.firstCapacity * 2 ^ j ∧ s.firstCapacity * 2 ^ j < sizeMod

/-- The call ends, touches no byte behind the buffer, and changes nothing when `krealloc` fails. -/
def Safe (s : RegularFile) : FileOp → Prop
  | .openFile .. | .close _ => True
  | .read a count => ∀ f, s.files a = some f →
      (fileRead f s.node count).2.1 = [] ∨
        f.pos + (fileRead f s.node count).2.1.length ≤ s.node.capacity
  | .write a buf heap rest => ∀ f, s.files a = some f →
      f.pos + buf.length < sizeMod ∧
      (s.node.capacity < f.pos + buf.length → s.LoopEnds (f.pos + buf.length)) ∧
      (s.OutOfMemory (f.pos + buf.length) heap →
        s.write f buf heap rest = (some (-ENOMEM), f, s.node)) ∧
      (¬ s.OutOfMemory (f.pos + buf.length) heap →
        (s.write f buf heap rest).1 = some (buf.length : ℤ) ∧
        f.pos + buf.length ≤ (s.write f buf heap rest).2.2.capacity)
  | .ftruncate length heap rest =>
      (s.node.capacity < length → s.LoopEnds length) ∧
      (s.OutOfMemory length heap → s.truncate length heap rest = (some (-ENOMEM), s.node)) ∧
      (¬ s.OutOfMemory length heap → (s.truncate length heap rest).1 = some 0 ∧
        length ≤ (s.truncate length heap rest).2.capacity)

/-- Buffers of at most `2^47` bytes, lengths of a non-negative `long`, a limited heap. -/
def Bounded (_ : RegularFile) : FileOp → Prop
  | .write _ buf heap _ => buf.length ≤ 2 ^ 47 ∧ heap.Limited
  | .ftruncate length heap _ => length < 2 ^ 63 ∧ heap.Limited
  | _ => True

/-- The contents fit in the capacity, the capacity in the block, and no position is far behind. -/
structure Inv (s : RegularFile) : Prop where
  size_le : s.node.size ≤ s.node.capacity
  capacity_le : s.node.capacity ≤ s.block.getD 0
  block_lt : s.block.getD 0 < blockLimit
  pos_lt : ∀ a f, s.files a = some f → f.pos < blockLimit

theorem Initial.inv {s : RegularFile} (h : s.Initial) : s.Inv := by
  obtain ⟨hpos, ⟨hsize, hcap, hblock⟩ | ⟨heap, hheap, hsize, hlt, hblock, hsome⟩⟩ := h
  · exact ⟨by omega, by omega, by simp [hblock, blockLimit], hpos⟩
  · obtain ⟨b, hb⟩ := ne_none_iff_exists'.mp hsome
    have hspec := Arena.kmalloc_spec hheap hlt (hblock ▸ hb)
    rw [hb] at hblock
    exact ⟨hsize.le, by simpa [hb] using hspec.1, by simpa [hb] using hspec.2, hpos⟩

section Growth

variable {s : RegularFile} {need : ℕ} {heap : Arena} {rest : ℕ → UInt8}

theorem Inv.loopEnds (hs : s.Inv) (hneed : need < 2 ^ 63) (hroom : s.node.capacity < need) :
    s.LoopEnds need := by
  have hfirst : 1 ≤ s.firstCapacity ∧ s.firstCapacity < sizeMod := by
    have := hs.capacity_le
    have := hs.block_lt
    unfold firstCapacity
    unfold blockLimit at *
    unfold sizeMod
    split_ifs <;> omega
  have hfuel : need ≤ s.firstCapacity * 2 ^ 64 := by omega
  obtain ⟨j, hloop, hge, hleast⟩ := growCapacity_exact hneed.le 64 s.firstCapacity hfuel
  refine ⟨j, hloop, hge, ?_⟩
  rcases hleast with rfl | hleast
  · simpa using hfirst.2
  · unfold sizeMod
    omega

/-- Rounding the new capacity up does not wrap: a large power of two times a number below `2^49` is
not among the last 16 values below `2^64`. -/
theorem Inv.capacity_add_align_le (hs : s.Inv) {j : ℕ} (hlt : s.firstCapacity * 2 ^ j < sizeMod) :
    s.firstCapacity * 2 ^ j + ALIGN ≤ sizeMod := by
  have hfirst : s.firstCapacity < 2 ^ 49 := by
    have := hs.capacity_le
    have := hs.block_lt
    unfold firstCapacity
    unfold blockLimit at *
    split_ifs <;> omega
  by_cases hj : j < 4
  · have hpow : 2 ^ j ≤ 2 ^ 4 := Nat.pow_le_pow_right (by norm_num) hj.le
    have hmul : s.firstCapacity * 2 ^ j ≤ s.firstCapacity * 2 ^ 4 := Nat.mul_le_mul_left _ hpow
    unfold ALIGN sizeMod
    omega
  · have hdvd : 2 ^ 4 ∣ s.firstCapacity * 2 ^ j :=
      Dvd.dvd.mul_left (pow_dvd_pow 2 (not_lt.mp hj)) _
    unfold ALIGN sizeMod at *
    omega

/-- Making room fails because `krealloc` does, or leaves a large enough buffer in its block. -/
theorem Inv.reserve (hs : s.Inv) (rest : ℕ → UInt8) (hneed : need < 2 ^ 63) (hheap : heap.Limited) :
    (s.OutOfMemory need heap → Vfs.reserve s.node need (s.realloc need heap rest) = .noMemory ∧
      s.nextBlock need heap = s.block) ∧
    (¬ s.OutOfMemory need heap → ∃ m, Vfs.reserve s.node need (s.realloc need heap rest) = .room m ∧
      m.size = s.node.size ∧ s.node.capacity ≤ m.capacity ∧ need ≤ m.capacity ∧
      m.capacity ≤ (s.nextBlock need heap).getD 0 ∧
      (s.nextBlock need heap).getD 0 < blockLimit) := by
  unfold Vfs.reserve nextBlock OutOfMemory
  by_cases hroom : s.node.capacity < need
  · obtain ⟨j, hloop, hge, hlt⟩ := hs.loopEnds hneed hroom
    have halign := hs.capacity_add_align_le hlt
    have hgrown : s.grownBlock need heap = heap.krealloc s.block (s.firstCapacity * 2 ^ j) := by
      rw [grownBlock, hloop, bind_some]
    simp only [hroom, if_true, true_and]
    rw [show (if s.node.capacity ≠ 0 then s.node.capacity else 64) = s.firstCapacity from rfl,
      hloop]
    simp only [realloc]
    rcases eq_none_or_eq_some (s.grownBlock need heap) with hblock | ⟨b, hblock⟩
    · simp only [hblock]
      exact ⟨fun _ ↦ ⟨rfl, rfl⟩, fun h ↦ absurd trivial h⟩
    · have hspec := Arena.krealloc_spec hheap hs.block_lt halign (hgrown ▸ hblock)
      simp only [hblock]
      exact ⟨nofun, fun _ ↦ ⟨_, rfl, rfl, hroom.le.trans hge, hge, hspec.1, hspec.2⟩⟩
  · simp only [hroom, if_false, false_and, IsEmpty.forall_iff, not_false_eq_true, true_and,
      forall_const]
    exact ⟨s.node, rfl, rfl, le_rfl, not_lt.mp hroom, hs.capacity_le, hs.block_lt⟩

end Growth

section Calls

variable {s : RegularFile} {heap : Arena} {rest : ℕ → UInt8}

variable {f : File} {buf : List UInt8}

theorem writeEnd_eq (hpos : f.pos < blockLimit) (hbuf : buf.length ≤ 2 ^ 47) :
    writeEnd f buf = f.pos + buf.length ∧ f.pos + buf.length < 2 ^ 63 := by
  unfold writeEnd
  unfold blockLimit at hpos
  unfold sizeMod
  omega

/-- A write fails without effect, or leaves contents and position inside the buffer. -/
theorem Inv.write (hs : s.Inv) (rest : ℕ → UInt8) (hpos : f.pos < blockLimit)
    (hbuf : buf.length ≤ 2 ^ 47) (hheap : heap.Limited) :
    (s.OutOfMemory (f.pos + buf.length) heap →
      s.write f buf heap rest = (some (-ENOMEM), f, s.node) ∧ s.nextBlock (writeEnd f buf) heap = s.block) ∧
    (¬ s.OutOfMemory (f.pos + buf.length) heap →
      ∃ m, s.write f buf heap rest =
        (some (buf.length : ℤ), { f with pos := f.pos + buf.length }, m) ∧
      m.size ≤ m.capacity ∧ f.pos + buf.length ≤ m.capacity ∧
      m.capacity ≤ (s.nextBlock (writeEnd f buf) heap).getD 0 ∧
      (s.nextBlock (writeEnd f buf) heap).getD 0 < blockLimit) := by
  obtain ⟨hend, hlt⟩ := writeEnd_eq hpos hbuf
  have hmod : (f.pos + buf.length) % sizeMod = f.pos + buf.length := hend
  obtain ⟨hfail, hok⟩ := hs.reserve rest hlt hheap
  simp only [RegularFile.write, fileWrite, hend, hmod]
  refine ⟨fun hnone ↦ ?_, fun hsome ↦ ?_⟩
  · rw [(hfail hnone).1]
    exact ⟨rfl, (hfail hnone).2⟩
  · obtain ⟨m, hm, hsize, hcap, hroom, hblock, hblock'⟩ := hok hsome
    have hle := hs.size_le
    rw [hm]
    refine ⟨_, rfl, ?_, hroom, hblock, hblock'⟩
    dsimp only
    split_ifs <;> omega

/-- The same for a change of the length. -/
theorem Inv.truncate (hs : s.Inv) (rest : ℕ → UInt8) {length : ℕ} (hlength : length < 2 ^ 63)
    (hheap : heap.Limited) :
    (s.OutOfMemory length heap → s.truncate length heap rest = (some (-ENOMEM), s.node)) ∧
    (¬ s.OutOfMemory length heap → (s.truncate length heap rest).1 = some 0 ∧
      length ≤ (s.truncate length heap rest).2.capacity) ∧
    (s.step (.ftruncate length heap rest)).Inv := by
  have hle := hs.size_le
  by_cases hshrink : length < s.node.size
  · have hmem : ¬ s.OutOfMemory length heap := fun h ↦ absurd h.1 (by omega)
    simp only [step, RegularFile.truncate, nodeTruncate, if_pos hshrink]
    exact ⟨fun h ↦ absurd h hmem, fun _ ↦ ⟨trivial, by omega⟩,
      ⟨hshrink.le.trans hle, hs.capacity_le, hs.block_lt, hs.pos_lt⟩⟩
  · obtain ⟨hfail, hok⟩ := hs.reserve rest hlength hheap
    simp only [step, RegularFile.truncate, nodeTruncate, if_neg hshrink]
    by_cases hmem : s.OutOfMemory length heap
    · rw [(hfail hmem).1, (hfail hmem).2]
      exact ⟨fun _ ↦ rfl, fun h ↦ absurd hmem h, hs⟩
    · obtain ⟨m, hm, hsize, hcap, hroom, hblock, hblock'⟩ := hok hmem
      rw [hm]
      refine ⟨fun h ↦ absurd h hmem, fun _ ↦ ?_, ?_⟩
      · dsimp only
        split_ifs <;> exact ⟨rfl, hroom⟩
      · dsimp only
        split_ifs
        · exact ⟨hroom, hblock, hblock', hs.pos_lt⟩
        · exact ⟨by dsimp only; omega, hblock, hblock', hs.pos_lt⟩

/-- A description with a small position in place of another. -/
theorem pos_lt_update {files : Addr → Option File} {a : Addr} {f : Option File}
    (hfiles : ∀ a f, files a = some f → f.pos < blockLimit) (hf : ∀ g ∈ f, g.pos < blockLimit) :
    ∀ b g, update files a f b = some g → g.pos < blockLimit := by
  intro b g hg
  by_cases hb : b = a
  · subst hb
    exact hf g (by simpa using hg)
  · rw [update_of_ne hb] at hg
    exact hfiles b g hg

theorem Inv.size_lt (hs : s.Inv) : s.node.size < blockLimit :=
  (hs.size_le.trans hs.capacity_le).trans_lt hs.block_lt

theorem Inv.next (hs : s.Inv) {op : FileOp} (hop : s.Bounded op) : (s.step op).Inv := by
  cases op with
  | openFile a flags =>
    simp only [step]
    split_ifs with hopen
    · exact hs
    · have hnode : (truncateOnOpen s.node flags).capacity = s.node.capacity ∧
          (truncateOnOpen s.node flags).size ≤ s.node.size := by
        unfold truncateOnOpen
        split_ifs <;> simp
      have hsize := hs.size_le
      have hlt := hs.size_lt
      refine ⟨by dsimp only; omega, hnode.1 ▸ hs.capacity_le, hs.block_lt,
        pos_lt_update hs.pos_lt ?_⟩
      rintro _ ⟨⟩
      unfold openFile
      dsimp only
      split_ifs <;> omega
  | close a => exact ⟨hs.size_le, hs.capacity_le, hs.block_lt, pos_lt_update hs.pos_lt nofun⟩
  | read a count =>
    simp only [step]
    cases hf : s.files a with
    | none => exact hs
    | some f =>
      refine ⟨hs.size_le, hs.capacity_le, hs.block_lt, pos_lt_update hs.pos_lt ?_⟩
      rintro _ ⟨⟩
      have hlt := hs.size_lt
      have hpos := hs.pos_lt a f hf
      have hread : (fileRead f s.node count).2.2.pos ≤ max f.pos s.node.size := by
        unfold fileRead
        split_ifs
        · exact le_max_left _ _
        · dsimp only
          split_ifs <;> omega
      omega
  | write a buf heap rest =>
    simp only [step]
    cases hf : s.files a with
    | none => exact hs
    | some f =>
      obtain ⟨hfail, hok⟩ := hs.write rest (hs.pos_lt a f hf) hop.1 hop.2
      by_cases hmem : s.OutOfMemory (f.pos + buf.length) heap
      · dsimp only
        rw [(hfail hmem).1, (hfail hmem).2]
        refine ⟨hs.size_le, hs.capacity_le, hs.block_lt, pos_lt_update hs.pos_lt ?_⟩
        rintro _ ⟨⟩
        exact hs.pos_lt a f hf
      · obtain ⟨m, hm, hsize, hroom, hblock, hblock'⟩ := hok hmem
        dsimp only
        rw [hm]
        refine ⟨hsize, hblock, hblock', pos_lt_update hs.pos_lt ?_⟩
        rintro _ ⟨⟩
        dsimp only
        omega
  | ftruncate length heap rest => exact (hs.truncate rest hop.1 hop.2).2.2

theorem Inv.safe (hs : s.Inv) {op : FileOp} (hop : s.Bounded op) : s.Safe op := by
  cases op with
  | openFile a flags => trivial
  | close a => trivial
  | read a count =>
    intro f _
    have hsize := hs.size_le
    unfold fileRead
    split_ifs with hend
    · exact .inl rfl
    · refine .inr ?_
      simp only [List.length_map, List.length_range]
      split_ifs <;> omega
  | write a buf heap rest =>
    intro f hf
    have hpos := hs.pos_lt a f hf
    obtain ⟨hend, hlt⟩ := writeEnd_eq hpos hop.1
    obtain ⟨hfail, hok⟩ := hs.write rest hpos hop.1 hop.2
    refine ⟨by unfold sizeMod; omega, hs.loopEnds hlt, fun h ↦ (hfail h).1, fun h ↦ ?_⟩
    obtain ⟨m, hm, -, hroom, -⟩ := hok h
    rw [hm]
    exact ⟨rfl, hroom⟩
  | ftruncate length heap rest =>
    obtain ⟨hfail, hok, -⟩ := hs.truncate rest hop.1 hop.2
    exact ⟨hs.loopEnds hop.1, hfail, hok⟩

end Calls

/-! ## The file in the file system -/

/-- The regular file that the file system holds at `r.addr`, with its descriptions. -/
structure InState (r : RegularFile) (s : State) : Prop where
  node : s.nodes.lookup r.addr = some r.node
  type : r.node.type = .file
  files : ∀ a f, r.files a = some f ↔
    s.files.lookup a = some f ∧ f.pipe = none ∧ f.node = some r.addr

section InState

variable {r : RegularFile} {s : State} {fd : ℤ} {a : Addr} {f : File}

theorem InState.nodeOf (h : r.InState s) (hf : r.files a = some f) :
    s.nodeOf f = some (r.addr, r.node) := by
  obtain ⟨-, hpipe, hnode⟩ := (h.files a f).mp hf
  simp [State.nodeOf, hpipe, hnode, h.node]

theorem InState.update (h : r.InState s) (hf : r.files a = some f) {g : File}
    (hpipe : g.pipe = f.pipe) (hnode : g.node = f.node) {n : Node} (htype : n.type = r.node.type)
    {block : Option ℕ} :
    InState ⟨r.addr, n, block, update r.files a (some g)⟩
      { s with files := s.files.insert a g, nodes := s.nodes.insert r.addr n } := by
  refine ⟨Finmap.lookup_insert _, htype.trans h.type, fun b k ↦ ?_⟩
  dsimp only
  by_cases hb : b = a
  · subst hb
    have hold := (h.files b f).mp hf
    rw [update_self, Finmap.lookup_insert]
    exact ⟨fun hk ↦ by cases hk; exact ⟨rfl, hpipe.trans hold.2.1, hnode.trans hold.2.2⟩,
      fun hk ↦ hk.1⟩
  · rw [update_of_ne hb, Finmap.lookup_insert_of_ne _ hb]
    exact h.files b k

theorem reserve_type {n m : Node} {need : ℕ} {alloc : Realloc}
    (h : Vfs.reserve n need alloc = .room m) : m.type = n.type := by
  unfold Vfs.reserve at h
  grind

theorem fileWrite_keeps (f : File) (n : Node) (buf : List UInt8) (alloc : Realloc) :
    (fileWrite f n buf alloc).2.1.pipe = f.pipe ∧ (fileWrite f n buf alloc).2.1.node = f.node ∧
    (fileWrite f n buf alloc).2.2.type = n.type := by
  simp only [fileWrite]
  split
  · exact ⟨rfl, rfl, rfl⟩
  · exact ⟨rfl, rfl, rfl⟩
  case h_3 m hm =>
    have htype : m.type = n.type := reserve_type hm
    exact ⟨rfl, rfl, htype⟩

/-- `vfs_write` through a descriptor of the file is its `write`. -/
theorem InState.vfsWrite (h : r.InState s) (hfd : s.fdGet fd = some a) (hf : r.files a = some f)
    (hflags : f.flags &&& 3 ≠ O_RDONLY) (buf : List UInt8) (driver : ℤ) (heap : Arena)
    (rest : ℕ → UInt8) :
    (Vfs.vfsWrite s fd (some buf) driver (r.realloc (writeEnd f buf) heap rest)).1 =
      (r.write f buf heap rest).1 ∧
    (r.step (.write a buf heap rest)).InState
      (Vfs.vfsWrite s fd (some buf) driver (r.realloc (writeEnd f buf) heap rest)).2 := by
  obtain ⟨hlookup, hpipe, hnode⟩ := (h.files a f).mp hf
  have hkeep := fileWrite_keeps f r.node buf (r.realloc (writeEnd f buf) heap rest)
  simp only [Vfs.vfsWrite, hfd, hlookup, if_neg hflags, hpipe, h.nodeOf hf, h.type, step, hf]
  exact ⟨rfl, h.update hf hkeep.1 hkeep.2.1 hkeep.2.2⟩

theorem nodeTruncate_type (n : Node) (length : ℕ) (alloc : Realloc) :
    (nodeTruncate n length alloc).2.type = n.type := by
  unfold nodeTruncate
  split_ifs
  · rfl
  · split
    · rfl
    · rfl
    case h_3 m hm =>
      have htype : m.type = n.type := reserve_type hm
      split_ifs
      · exact htype
      · exact htype

/-- `vfs_ftruncate` through a descriptor of the file is its `truncate`. -/
theorem InState.vfsFtruncate (h : r.InState s) (hfd : s.fdGet fd = some a)
    (hf : r.files a = some f) (length : ℕ) (heap : Arena) (rest : ℕ → UInt8) :
    (Vfs.vfsFtruncate s fd length (r.realloc length heap rest)).1 =
      (r.truncate length heap rest).1 ∧
    (r.step (.ftruncate length heap rest)).InState
      (Vfs.vfsFtruncate s fd length (r.realloc length heap rest)).2 := by
  obtain ⟨hlookup, -, -⟩ := (h.files a f).mp hf
  have hneg : ¬ (length : ℤ) < 0 := by omega
  simp only [Vfs.vfsFtruncate, hfd, hlookup, bind_some, h.nodeOf hf, h.type, ne_eq,
    not_true_eq_false, if_false, hneg, Int.toNat_natCast, step]
  exact ⟨rfl, Finmap.lookup_insert _, (nodeTruncate_type _ _ _).trans h.type, h.files⟩

end InState

/-- Growing a file cannot loop, wrap or corrupt: along every sequence of calls with bounded
arguments the contents stay within the capacity, and every call is safe. -/
theorem growth_is_safe {s : RegularFile} {ops : List FileOp} (hs : s.Initial)
    (hops : Meets step Bounded s ops) :
    Always step (fun s ↦ s.node.size ≤ s.node.capacity) s ops ∧ Meets step Safe s ops := by
  have halways : Always step Inv s ops :=
    hops.always hs.inv fun s op hop hinv ↦ hinv.next hop
  exact ⟨halways.mono fun _ hinv ↦ hinv.size_le, hops.imp_of_always halways fun _ _ hop hinv ↦
    hinv.safe hop⟩

/-- A heap with room for 1 MiB. -/
def oneMiB : Arena where
  fit size := if size = 0 then none else some size
  le_of_fit h := by
    split_ifs at h
    exact (some.inj h).le
  frames size := size ≤ 2 ^ 20

theorem oneMiB_limited : oneMiB.Limited := by
  intro size hsize h
  by_contra hlarge
  have hpos : size ≠ 0 := by omega
  -- Rounding up either keeps the size above 1 MiB or wraps to zero.
  have halign : alignUp size = 0 ∨ 2 ^ 20 < alignUp size := by
    unfold alignUp ALIGN
    unfold sizeMod at *
    omega
  simp only [Arena.kmalloc, oneMiB, if_neg hpos] at h
  rcases halign with hzero | hlarge
  · simp [hzero, HEADER_SIZE] at h
  · rw [if_pos (by unfold HEADER_SIZE; omega), if_neg (by simpa using hlarge)] at h
    simp at h

/-- A file of three bytes that came with the archive. -/
def threeBytes : RegularFile where
  addr := 1
  node := { freshNode [] .file 0 none with size := 3, capacity := 3 }
  block := some 16
  files _ := none

/-- Append to it, read past the end, ask for more memory than there is, and shrink it. -/
def growAndShrink : List FileOp :=
  [.openFile 2 (O_WRONLY ||| O_APPEND), .write 2 [65, 66] oneMiB fun _ ↦ 0, .read 2 100,
    .ftruncate (2 ^ 62) oneMiB fun _ ↦ 0, .ftruncate 1 oneMiB fun _ ↦ 0]

theorem growth_is_safe_threeBytes :
    threeBytes.Initial ∧ Meets step Bounded threeBytes growAndShrink ∧
    Always step (fun s ↦ s.node.size ≤ s.node.capacity) threeBytes growAndShrink ∧
    Meets step Safe threeBytes growAndShrink := by
  have hinitial : threeBytes.Initial :=
    ⟨nofun, .inr ⟨oneMiB, oneMiB_limited, rfl, by decide, by decide, nofun⟩⟩
  have hbounded : Meets step Bounded threeBytes growAndShrink :=
    ⟨trivial, ⟨by decide, oneMiB_limited⟩, trivial, ⟨by decide, oneMiB_limited⟩,
      ⟨by decide, oneMiB_limited⟩, trivial⟩
  exact ⟨hinitial, hbounded, growth_is_safe hinitial hbounded⟩

end RegularFile

end ToastyUnix.Vfs
