import SpidirWasm.Logic.Parts
import SpidirWasm.Logic.Records
import SpidirWasm.Logic.StringTable

/-! The structures of `elf64.h` in their order of fields, as far as a file without program
headers has them, and a reader of such files. -/

namespace SpidirWasm.Elf64

open Records
open StringTable (stringAt)

/-- `Elf64_Sym`. -/
structure Elf64Sym where
  name : BitVec 32
  info : BitVec 8
  other : BitVec 8
  shndx : BitVec 16
  value : BitVec 64
  size : BitVec 64
  deriving DecidableEq, Repr

/-- `Elf64_Rela`, whose symbol index and type share `r_info`. -/
structure Elf64Rela where
  offset : BitVec 64
  sym : ℕ
  type : ℕ
  addend : BitVec 64
  deriving DecidableEq, Repr

/-- `Elf64_Shdr`. -/
structure Elf64Shdr where
  name : BitVec 32 := 0
  type : BitVec 32 := 0
  flags : BitVec 64 := 0
  addr : BitVec 64 := 0
  offset : BitVec 64 := 0
  size : BitVec 64 := 0
  link : BitVec 32 := 0
  info : BitVec 32 := 0
  addralign : BitVec 64 := 0
  entsize : BitVec 64 := 0
  deriving DecidableEq, Repr

/-- `Elf64_Ehdr`. -/
structure Elf64Ehdr where
  ident : BitVec 128
  type : BitVec 16
  machine : BitVec 16
  version : BitVec 32
  entry : BitVec 64 := 0
  phoff : BitVec 64 := 0
  shoff : BitVec 64
  flags : BitVec 32 := 0
  ehsize : BitVec 16
  phentsize : BitVec 16 := 0
  phnum : BitVec 16 := 0
  shentsize : BitVec 16
  shnum : BitVec 16
  shstrndx : BitVec 16
  deriving DecidableEq, Repr

/-- `ELF64_ST_INFO`. -/
def stInfo (bind type : ℕ) : BitVec 8 := BitVec.ofNat 8 (bind * 16 + type % 16)

/-- `ELF64_ST_BIND`. -/
def Elf64Sym.bind (s : Elf64Sym) : ℕ := s.info.toNat / 16

def stbLocal : ℕ := 0

def stbGlobal : ℕ := 1

def sttNotype : ℕ := 0

def sttObject : ℕ := 1

def sttFunc : ℕ := 2

def sttSection : ℕ := 3

def shnUndef : BitVec 16 := 0

def shnAbs : BitVec 16 := 0xFFF1

def shtProgbits : BitVec 32 := 1

def shtSymtab : BitVec 32 := 2

def shtStrtab : BitVec 32 := 3

def shtRela : BitVec 32 := 4

def shfAlloc : BitVec 64 := 2

def shfExecinstr : BitVec 64 := 4

def shfInfoLink : BitVec 64 := 0x40

/-- `R_X86_64_64`. -/
def rX8664 : ℕ := 1

/-! ### Bytes -/

def Elf64Sym.bytes (s : Elf64Sym) : List UInt8 :=
  pack [(4, s.name.toNat), (1, s.info.toNat), (1, s.other.toNat), (2, s.shndx.toNat), (8, s.value.toNat), (8, s.size.toNat)]

/-- The info is `ELF64_R_INFO`. -/
def Elf64Rela.bytes (r : Elf64Rela) : List UInt8 :=
  pack [(8, r.offset.toNat), (8, r.sym * 2 ^ 32 + r.type % 2 ^ 32), (8, r.addend.toNat)]

def Elf64Shdr.bytes (s : Elf64Shdr) : List UInt8 :=
  pack [(4, s.name.toNat), (4, s.type.toNat), (8, s.flags.toNat), (8, s.addr.toNat), (8, s.offset.toNat), (8, s.size.toNat),
    (4, s.link.toNat), (4, s.info.toNat), (8, s.addralign.toNat), (8, s.entsize.toNat)]

def Elf64Ehdr.bytes (h : Elf64Ehdr) : List UInt8 :=
  pack [(16, h.ident.toNat), (2, h.type.toNat), (2, h.machine.toNat), (4, h.version.toNat), (8, h.entry.toNat), (8, h.phoff.toNat),
    (8, h.shoff.toNat), (4, h.flags.toNat), (2, h.ehsize.toNat), (2, h.phentsize.toNat), (2, h.phnum.toNat), (2, h.shentsize.toNat),
    (2, h.shnum.toNat), (2, h.shstrndx.toNat)]

@[simp] theorem Elf64Sym.length_bytes (s : Elf64Sym) : s.bytes.length = 24 := length_pack _

@[simp] theorem Elf64Shdr.length_bytes (s : Elf64Shdr) : s.bytes.length = 64 := length_pack _

@[simp] theorem Elf64Ehdr.length_bytes (h : Elf64Ehdr) : h.bytes.length = 64 := length_pack _

/-! ### A reader -/

def Elf64Shdr.ofBytes (bytes : List UInt8) : Option Elf64Shdr :=
  match unpack [4, 4, 8, 8, 8, 8, 4, 4, 8, 8] bytes with
  | [name, type, flags, addr, offset, size, link, info, addralign, entsize] => some
    ⟨.ofNat 32 name, .ofNat 32 type, .ofNat 64 flags, .ofNat 64 addr, .ofNat 64 offset, .ofNat 64 size, .ofNat 32 link, .ofNat 32 info,
      .ofNat 64 addralign, .ofNat 64 entsize⟩
  | _ => none

def Elf64Ehdr.ofBytes (bytes : List UInt8) : Option Elf64Ehdr :=
  match unpack [16, 2, 2, 4, 8, 8, 8, 4, 2, 2, 2, 2, 2, 2] bytes with
  | [ident, type, machine, version, entry, phoff, shoff, flags, ehsize, phentsize, phnum, shentsize, shnum, shstrndx] => some
    ⟨.ofNat 128 ident, .ofNat 16 type, .ofNat 16 machine, .ofNat 32 version, .ofNat 64 entry, .ofNat 64 phoff, .ofNat 64 shoff,
      .ofNat 32 flags, .ofNat 16 ehsize, .ofNat 16 phentsize, .ofNat 16 phnum, .ofNat 16 shentsize, .ofNat 16 shnum, .ofNat 16 shstrndx⟩
  | _ => none

theorem Elf64Shdr.ofBytes_bytes (s : Elf64Shdr) : ofBytes s.bytes = some s := by
  have fields := unpack_pack [(4, s.name.toNat), (4, s.type.toNat), (8, s.flags.toNat), (8, s.addr.toNat), (8, s.offset.toNat),
    (8, s.size.toNat), (4, s.link.toNat), (4, s.info.toNat), (8, s.addralign.toNat), (8, s.entsize.toNat)]
  simp only [List.map_cons, List.map_nil] at fields
  rw [ofBytes, bytes, fields]
  simp (disch := norm_num) only [ofNat_unpack]

theorem Elf64Ehdr.ofBytes_bytes (h : Elf64Ehdr) : ofBytes h.bytes = some h := by
  have fields := unpack_pack [(16, h.ident.toNat), (2, h.type.toNat), (2, h.machine.toNat), (4, h.version.toNat), (8, h.entry.toNat),
    (8, h.phoff.toNat), (8, h.shoff.toNat), (4, h.flags.toNat), (2, h.ehsize.toNat), (2, h.phentsize.toNat), (2, h.phnum.toNat),
    (2, h.shentsize.toNat), (2, h.shnum.toNat), (2, h.shstrndx.toNat)]
  simp only [List.map_cons, List.map_nil] at fields
  rw [ofBytes, bytes, fields]
  simp (disch := norm_num) only [ofNat_unpack]

/-- The header of a file. -/
def readEhdr (file : Memory UInt8) : Option Elf64Ehdr := (file.load 0 64).bind Elf64Ehdr.ofBytes

/-- A header in the section header table. -/
def readShdr (file : Memory UInt8) (ehdr : Elf64Ehdr) (i : ℕ) : Option Elf64Shdr :=
  (file.load (ehdr.shoff.toNat + i * ehdr.shentsize.toNat) 64).bind Elf64Shdr.ofBytes

/-- The contents of a section. -/
def Elf64Shdr.contents (s : Elf64Shdr) (file : Memory UInt8) : Option (List UInt8) := file.load s.offset.toNat s.size.toNat

/-- The name of a section. -/
def sectionName (file : Memory UInt8) (ehdr : Elf64Ehdr) (s : Elf64Shdr) : Option (List UInt8) :=
  (readShdr file ehdr ehdr.shstrndx.toNat).bind fun strings => (strings.contents file).map fun table => stringAt table s.name.toNat

/-! ### Files -/

/-- A section that a reader finds at an index. -/
structure Found (file : Memory UInt8) (ehdr : Elf64Ehdr) (i : ℕ) (name : List UInt8) (s : Elf64Shdr) : Prop where
  index : i < ehdr.shnum.toNat
  header : readShdr file ehdr i = some s
  name : sectionName file ehdr s = some name

/-- The range of a section's contents. -/
def Elf64Shdr.range (s : Elf64Shdr) : ℕ × ℕ := (s.offset.toNat, s.size.toNat)

/-- What is in a file: its header, the contents of its sections, and their headers. -/
def ranges (ehdr : Elf64Ehdr) (sections : List Elf64Shdr) : List (ℕ × ℕ) :=
  (0, ehdr.ehsize.toNat) :: sections.map Elf64Shdr.range ++ [(ehdr.shoff.toNat, ehdr.shnum.toNat * ehdr.shentsize.toNat)]

/-- A file with these sections: what is in it lies apart, inside and aligned. -/
structure Consistent (file : Memory UInt8) (size : ℕ) (ehdr : Elf64Ehdr) (sections : List Elf64Shdr) : Prop where
  mapped : ∀ a, (file a).isSome ↔ a < size
  header : readEhdr file = some ehdr
  count : ehdr.shnum.toNat = sections.length
  headers : ∀ (i : ℕ) (s : Elf64Shdr), sections[i]? = some s → readShdr file ehdr i = some s
  apart : (ranges ehdr sections).Pairwise Memory.Apart
  inside : ∀ r ∈ ranges ehdr sections, r.1 + r.2 ≤ size
  aligned : ∀ s ∈ sections, s.addralign.toNat ∣ s.offset.toNat

end SpidirWasm.Elf64
