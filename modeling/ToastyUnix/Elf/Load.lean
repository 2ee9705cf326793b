import ToastyUnix.Mm.UserMap
import ToastyUnix.Vfs.Io

/-!
# Loading static executables

`kernel/elf/elfload.c` with the callbacks of `kernel/elf/tus_elf.c`. Headers are decoded from the
bytes that `vfs_pread` returns. Segments are stored byte by byte through the loaded address space;
a store that faults halts the machine. A `Load` records the segments that were mapped and the
addresses that were written on the way.

The fields of `el_ctx` for dynamic objects and for the physical load address are left out: only
`ET_EXEC` images get past `el_init`, and the load address is 0.
-/

namespace ToastyUnix.Elf

open Mm

/-- `el_status`. -/
inductive Status
  | EL_OK
  | EL_EIO
  | EL_ENOMEM
  | EL_NOTELF
  | EL_WRONGBITS
  | EL_WRONGENDIAN
  | EL_WRONGARCH
  | EL_NOTEXEC
  deriving DecidableEq

/-- A little-endian number. -/
def littleEndian (bytes : List UInt8) : ℕ := bytes.foldr (fun b n ↦ b.toNat + 256 * n) 0

/-- The number in the field of `size` bytes at `offset`. -/
def field (bytes : List UInt8) (offset size : ℕ) : ℕ :=
  littleEndian ((bytes.drop offset).take size)

/-- `Elf64_Ehdr`, as far as the loader reads it. -/
structure Ehdr where
  magic : List UInt8
  eiClass : ℕ
  eiData : ℕ
  eiVersion : ℕ
  eType : ℕ
  eMachine : ℕ
  eVersion : ℕ
  eEntry : ℕ
  ePhoff : ℕ
  ePhentsize : ℕ
  ePhnum : ℕ
  deriving DecidableEq

/-- `sizeof(Elf64_Ehdr)`. -/
def ehdrSize : ℕ := 64

def Ehdr.decode (bytes : List UInt8) : Ehdr where
  magic := bytes.take 4
  eiClass := field bytes 4 1
  eiData := field bytes 5 1
  eiVersion := field bytes 6 1
  eType := field bytes 16 2
  eMachine := field bytes 18 2
  eVersion := field bytes 20 4
  eEntry := field bytes 24 8
  ePhoff := field bytes 32 8
  ePhentsize := field bytes 54 2
  ePhnum := field bytes 56 2

/-- `Elf64_Phdr`, as far as the loader reads it. -/
structure Phdr where
  pType : ℕ
  pOffset : ℕ
  pVaddr : ℕ
  pFilesz : ℕ
  pMemsz : ℕ
  pAlign : ℕ
  deriving DecidableEq

/-- `sizeof(Elf64_Phdr)`. -/
def phdrSize : ℕ := 56

def Phdr.decode (bytes : List UInt8) : Phdr where
  pType := field bytes 0 4
  pOffset := field bytes 8 8
  pVaddr := field bytes 16 8
  pFilesz := field bytes 32 8
  pMemsz := field bytes 40 8
  pAlign := field bytes 48 8

def ELFCLASS64 : ℕ := 2
def ELFDATA2LSB : ℕ := 1
def EV_CURRENT : ℕ := 1
def ET_EXEC : ℕ := 2
def EM_AMD64 : ℕ := 62
def PT_LOAD : ℕ := 1

/-- `ELFMAG`. -/
def elfMagic : List UInt8 := [0x7f, 0x45, 0x4c, 0x46]

/-- `(long)n` for a `size_t`. -/
def toLong (n : ℕ) : ℤ := if n < 2 ^ 63 then n else n - 2 ^ 64

/-- The open file an image is read from. -/
structure Source where
  vfs : Vfs.State
  fd : ℤ

/-- `vfs_pread` into a buffer: the result and the bytes stored. -/
def Source.pread (src : Source) (nb offset : ℕ) : ℤ × List UInt8 :=
  Vfs.vfsPread src.vfs src.fd true nb offset

/-- `el_pread` of a header. -/
def Source.header (src : Source) (nb offset : ℕ) : Option (List UInt8) :=
  if (src.pread nb offset).1 = toLong nb then some (src.pread nb offset).2 else none

/-- The program header with number `i`. -/
def Source.phdr (src : Source) (ehdr : Ehdr) (i : ℕ) : Option Phdr :=
  (src.header phdrSize (wrap (ehdr.ePhoff + i * ehdr.ePhentsize))).map Phdr.decode

/-- `el_findphdr`: look for `PT_LOAD` among `n` program headers from number `i` on. -/
def Source.findPhdr (src : Source) (ehdr : Ehdr) : ℕ → ℕ → Except Status (Option (ℕ × Phdr))
  | 0, _ => .ok none
  | n + 1, i =>
    match src.phdr ehdr i with
    | none => .error Status.EL_EIO
    | some ph => if ph.pType = PT_LOAD then .ok (some (i, ph)) else src.findPhdr ehdr n (i + 1)

/-- What `el_init` computes: the header and the extents of the image. -/
structure Ctx where
  ehdr : Ehdr
  memsz : ℕ
  align : ℕ
  deriving DecidableEq

/-- The loop of `el_init` over the program headers from `i` on. A pass consumes at least one header,
so `ePhnum + 1` passes are enough. -/
def Source.initLoop (src : Source) : ℕ → ℕ → Ctx → Except Status Ctx
  | 0, _, ctx => .ok ctx
  | fuel + 1, i, ctx =>
    match src.findPhdr ctx.ehdr (ctx.ehdr.ePhnum - i) i with
    | .error st => .error st
    | .ok none => .ok ctx
    | .ok (some (j, ph)) =>
      let phend := wrap (ph.pVaddr + ph.pMemsz)
      src.initLoop fuel (j + 1)
        { ctx with memsz := max ctx.memsz phend, align := max ctx.align ph.pAlign }

/-- `el_init`. -/
def elInit (src : Source) : Except Status Ctx :=
  match src.header ehdrSize 0 with
  | none => .error Status.EL_EIO
  | some bytes =>
    let ehdr := Ehdr.decode bytes
    if ehdr.magic ≠ elfMagic then .error .EL_NOTELF
    else if ehdr.eiClass ≠ ELFCLASS64 then .error .EL_WRONGBITS
    else if ehdr.eiData ≠ ELFDATA2LSB then .error .EL_WRONGENDIAN
    else if ehdr.eiVersion ≠ EV_CURRENT then .error .EL_NOTELF
    else if ehdr.eType ≠ ET_EXEC then .error .EL_NOTEXEC
    else if ehdr.eMachine ≠ EM_AMD64 then .error .EL_WRONGARCH
    else if ehdr.eVersion ≠ EV_CURRENT then .error .EL_NOTELF
    else src.initLoop (ehdr.ePhnum + 1) 0 { ehdr := ehdr, memsz := 0, align := 1 }

/-- Memory during a load, with the segments mapped and addresses written so far. -/
structure Load where
  mm : State
  segments : List (ℕ × ℕ)
  written : List ℕ

/-- How a load ends. -/
inductive Outcome
  | returned (status : Status)
  | faulted
  deriving DecidableEq

namespace Load

/-- `rep movsb`: store bytes upwards from `virt`; `false` when a store faults. -/
def copy (load : Load) : ℕ → List UInt8 → Bool × Load
  | _, [] => (true, load)
  | virt, b :: bytes =>
    match load.mm.storeByte virt b with
    | none => (false, load)
    | some mm =>
      { load with mm := mm, written := virt :: load.written }.copy (wrap (virt + 1)) bytes

/-- `rep stosb`: store `n` zeros upwards from `virt`. -/
def clear (load : Load) : ℕ → ℕ → Bool × Load
  | _, 0 => (true, load)
  | virt, n + 1 =>
    match load.mm.storeByte virt 0 with
    | none => (false, load)
    | some mm => { load with mm := mm, written := virt :: load.written }.clear (wrap (virt + 1)) n

/-- The body of the loop of `el_load`: map a segment, read its bytes, clear the rest. Without an
outcome the loop goes on. -/
def segment (src : Source) (cr3 : BitVec 64) (ph : Phdr) (load : Load) :
    Option Outcome × Load :=
  match load.mm.tusAlloc cr3 ph.pVaddr ph.pMemsz with
  | (dest, mm) =>
    if dest = 0 then (some (.returned .EL_ENOMEM), { load with mm := mm })
    else
      let load := { load with mm := mm, segments := (ph.pVaddr, ph.pMemsz) :: load.segments }
      match load.copy dest (src.pread ph.pFilesz ph.pOffset).2 with
      | (false, load) => (some .faulted, load)
      | (true, load) =>
        if (src.pread ph.pFilesz ph.pOffset).1 ≠ toLong ph.pFilesz then
          (some (.returned Status.EL_EIO), load)
        else
          match load.clear (wrap (dest + ph.pFilesz))
            (wrap (ph.pMemsz + (2 ^ 64 - ph.pFilesz))) with
          | (false, load) => (some .faulted, load)
          | (true, load) => (none, load)

/-- The loop of `el_load` from program header `i` on. A pass consumes at least one header. -/
def loop (src : Source) (cr3 : BitVec 64) (ehdr : Ehdr) : ℕ → ℕ → Load → Outcome × Load
  | 0, _, load => (.returned .EL_OK, load)
  | fuel + 1, i, load =>
    match src.findPhdr ehdr (ehdr.ePhnum - i) i with
    | .error st => (.returned st, load)
    | .ok none => (.returned .EL_OK, load)
    | .ok (some (j, ph)) =>
      match segment src cr3 ph load with
      | (some outcome, load) => (outcome, load)
      | (none, load) => loop src cr3 ehdr fuel (j + 1) load

end Load

/-- `el_load` with the callback `tus_alloc` into the space `cr3`. -/
def elLoad (src : Source) (cr3 : BitVec 64) (ehdr : Ehdr) (mm : State) : Outcome × Load :=
  Load.loop src cr3 ehdr (ehdr.ePhnum + 1) 0 { mm := mm, segments := [], written := [] }

/-- `el_init` and `el_load` of an image into the loaded address space. -/
def loadImage (src : Source) (mm : State) : Outcome × Load :=
  match elInit src with
  | .error st => (.returned st, { mm := mm, segments := [], written := [] })
  | .ok ctx => elLoad src mm.cr3 ctx.ehdr mm

end ToastyUnix.Elf
