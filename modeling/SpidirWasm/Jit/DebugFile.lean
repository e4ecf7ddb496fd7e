import SpidirWasm.Jit.DebugElf
import SpidirWasm.Jit.LinkRuns

/-! A reader of the debug ELF. Everything in the file lies behind what was put in front of it,
so that every part is read back as it was stored, and the headers name each other by the
indices that they got. -/

namespace SpidirWasm.Jit

open Elf64
open Memory (Stacked Apart storeAll)
open StringTable (stringAt)
open Wasm (WasmModule Name)

variable {debug : DebugInfo} {tables : DebugElf} {firstGlobal size i : ℕ} {code rodata : List UInt8} {file : Memory UInt8}
  {jit : WasmModuleJit}

/-! ### Offsets -/

/-- Every section starts behind the one in front of it, at a multiple of its alignment. -/
structure Offsets (debug : DebugInfo) (tables : DebugElf) (off : FileOffsets) : Prop where
  text : 64 ≤ off.text ∧ 16 ∣ off.text
  rodata : haveRodata debug = true → off.text + debug.codeSize ≤ off.rodata ∧ off.rodata + debug.rodataSize ≤ off.symtab ∧ 16 ∣ off.rodata
  symtab : off.text + debug.codeSize ≤ off.symtab ∧ 8 ∣ off.symtab
  strtab : off.symtab + tables.symtabBytes.length ≤ off.strtab
  rela : haveRela debug = true →
    off.strtab + tables.strtab.length ≤ off.rela ∧ off.rela + tables.relaBytes.length ≤ off.shstrtab ∧ 8 ∣ off.rela
  shstrtab : off.strtab + tables.strtab.length ≤ off.shstrtab
  shdrs : off.shstrtab + debug.names.table.length ≤ off.shdrs
  size : off.size = off.shdrs + debug.indices.shnum * 64

theorem fileOffsets_ok (debug : DebugInfo) (tables : DebugElf) : Offsets debug tables (fileOffsets debug tables) := by
  have up8 (n : ℕ) : n ≤ alignUp n 8 ∧ 8 ∣ alignUp n 8 := ⟨le_alignUp (by decide), dvd_alignUp n 8⟩
  have up16 (n : ℕ) : n ≤ alignUp n 16 ∧ 16 ∣ alignUp n 16 := ⟨le_alignUp (by decide), dvd_alignUp n 16⟩
  let off := fileOffsets debug tables
  have rodata (h : haveRodata debug = true) : off.rodata = alignUp (off.text + debug.codeSize) 16 := by
    simp only [off, fileOffsets, h, if_true]
  have symtab : off.symtab = alignUp (if haveRodata debug then off.rodata + debug.rodataSize else off.text + debug.codeSize) 8 := by
    cases h : haveRodata debug <;> simp only [off, fileOffsets, h, if_true, if_false, Bool.false_eq_true]
  have rela (h : haveRela debug = true) : off.rela = alignUp (off.strtab + tables.strtab.length) 8 := by
    simp only [off, fileOffsets, h, if_true]
  have shstrtab : off.shstrtab = if haveRela debug then off.rela + tables.relaBytes.length else off.strtab + tables.strtab.length := by
    cases h : haveRela debug <;> simp only [off, fileOffsets, h, if_true, if_false, Bool.false_eq_true]
  have atSymtab := up8 (if haveRodata debug then off.rodata + debug.rodataSize else off.text + debug.codeSize)
  have atRodata := up16 (off.text + debug.codeSize)
  have atRela := up8 (off.strtab + tables.strtab.length)
  rw [← symtab] at atSymtab
  refine ⟨up16 64, fun h => ?_, ⟨?_, atSymtab.2⟩, Nat.le_refl _, fun h => ?_, ?_, (up8 _).1, rfl⟩
  · rw [← rodata h] at atRodata
    rw [if_pos h] at atSymtab
    exact ⟨atRodata.1, atSymtab.1, atRodata.2⟩
  · refine Nat.le_trans ?_ atSymtab.1
    split_ifs with h
    · rw [← rodata h] at atRodata
      exact Nat.le_trans atRodata.1 (Nat.le_add_right _ _)
    · exact Nat.le_refl _
  · rw [← rela h] at atRela
    rw [if_pos h] at shstrtab
    exact ⟨atRela.1, shstrtab.ge, atRela.2⟩
  · show off.strtab + tables.strtab.length ≤ off.shstrtab
    rw [shstrtab]
    split_ifs with h
    · rw [← rela h] at atRela
      exact Nat.le_trans atRela.1 (Nat.le_add_right _ _)
    · exact Nat.le_refl _

/-- What is in front of the section headers. -/
theorem fileContents_stacked (tables : DebugElf) (hcode : code.length = debug.codeSize) (hrodata : rodata.length = debug.rodataSize) :
    Stacked 0 (fileContents debug tables code rodata) (fileOffsets debug tables).shdrs := by
  obtain ⟨text, rodataAt, symtab, strtab, relaAt, shstrtab, shdrs, -⟩ := fileOffsets_ok debug tables
  have header := (elfHeader debug tables).length_bytes
  cases hr : haveRodata debug <;> cases ha : haveRela debug <;> simp only [hr, ha, forall_const] at rodataAt relaAt <;>
    simp only [fileContents, hr, ha, if_true, if_false, Bool.false_eq_true, List.cons_append, List.nil_append, List.append_nil, Stacked] <;>
    omega

/-! ### Section headers -/

/-- The headers are stored at the indices that they are counted by. -/
theorem sectionHeaders_indices (debug : DebugInfo) (tables : DebugElf) (firstGlobal : ℕ) :
    (sectionHeaders debug tables firstGlobal).map Prod.fst = List.range debug.indices.shnum := by
  cases hr : haveRodata debug <;> cases ha : haveRela debug <;> simp [sectionHeaders, DebugInfo.indices, sectionIndices, hr, ha, List.range_succ]

/-- The headers of the sections. -/
def sections (debug : DebugInfo) (tables : DebugElf) (firstGlobal : ℕ) : List Elf64Shdr :=
  (sectionHeaders debug tables firstGlobal).map Prod.snd

theorem length_sections (debug : DebugInfo) (tables : DebugElf) (firstGlobal : ℕ) : (sections debug tables firstGlobal).length = debug.indices.shnum := by
  have indices := congrArg List.length (sectionHeaders_indices debug tables firstGlobal)
  rwa [List.length_map, List.length_range, ← List.length_map (f := Prod.snd)] at indices

theorem shnum_eq (debug : DebugInfo) (tables : DebugElf) : (elfHeader debug tables).shnum.toNat = debug.indices.shnum := by
  have small : debug.indices.shnum < 2 ^ 16 := by
    cases hr : haveRodata debug <;> cases ha : haveRela debug <;> simp [DebugInfo.indices, sectionIndices, hr, ha]
  show (BitVec.ofNat 16 debug.indices.shnum).toNat = _
  rw [BitVec.toNat_ofNat, Nat.mod_eq_of_lt small]

/-- A header is stored at its index. -/
theorem mem_headerTable {s : Elf64Shdr} (hs : (sections debug tables firstGlobal)[i]? = some s) :
    ((fileOffsets debug tables).shdrs + 64 * i, s.bytes) ∈ headerTable debug tables firstGlobal := by
  have hi : i < debug.indices.shnum := length_sections _ _ _ ▸ (List.getElem?_eq_some_iff.mp hs).1
  obtain ⟨h, hh, rfl⟩ := List.getElem?_map .. ▸ hs |> Option.map_eq_some_iff.mp
  have index := congrArg (·[i]?) (sectionHeaders_indices debug tables firstGlobal)
  simp only [List.getElem?_map, hh, Option.map_some, List.getElem?_range hi, Option.some.injEq] at index
  rw [← index]
  exact List.mem_map_of_mem (List.mem_of_getElem? hh)

/-- Headers that follow each other. -/
theorem headers_stacked (base : ℕ) (hs : List (ℕ × Elf64Shdr)) (i : ℕ) (h : hs.map Prod.fst = List.range' i hs.length) :
    Stacked (base + 64 * i) (hs.map fun h => (base + 64 * h.1, h.2.bytes)) (base + 64 * (i + hs.length)) := by
  induction hs generalizing i with
  | nil => exact Nat.le_refl _
  | cons first hs ih =>
    obtain ⟨rfl, hrest⟩ := List.cons.inj h
    refine ⟨Nat.le_refl _, ?_⟩
    have rest := ih (first.1 + 1) hrest
    rw [List.length_cons, Elf64Shdr.length_bytes]
    rwa [Nat.mul_add, ← Nat.add_assoc, Nat.add_right_comm first.1, Nat.add_assoc first.1] at rest

theorem headerTable_stacked (debug : DebugInfo) (tables : DebugElf) (firstGlobal : ℕ) :
    Stacked (fileOffsets debug tables).shdrs (headerTable debug tables firstGlobal) (fileOffsets debug tables).size := by
  have count : (sectionHeaders debug tables firstGlobal).length = debug.indices.shnum := by
    rw [← length_sections debug tables firstGlobal, sections, List.length_map]
  have stacked := headers_stacked (fileOffsets debug tables).shdrs (sectionHeaders debug tables firstGlobal) 0
    (by rw [sectionHeaders_indices, count, List.range_eq_range'])
  rw [Nat.mul_zero, Nat.add_zero, Nat.zero_add, count, Nat.mul_comm, ← (fileOffsets_ok debug tables).size] at stacked
  exact stacked

/-! ### Reading -/

/-- A file holds its parts, one behind the other. -/
structure Stitched (jit : WasmModuleJit) (tables : DebugElf) (firstGlobal : ℕ) (file : Memory UInt8) (size : ℕ) (code rodata : List UInt8) :
    Prop where
  whole : (fileOffsets jit.debug tables).size = size ∧ size < 2 ^ 64
  text : jit.image.load jit.debug.codeBase jit.debug.codeSize = some code
  constants : jit.image.load jit.debug.rodataBase jit.debug.rodataSize = some rodata
  mapped : file.Below size
  stacked : Stacked 0 (fileContents jit.debug tables code rodata ++ headerTable jit.debug tables firstGlobal) size
  parts : ∀ p ∈ fileContents jit.debug tables code rodata ++ headerTable jit.debug tables firstGlobal, file.load p.1 p.2.length = some p.2

theorem stitch_eq_some (h : stitch jit tables firstGlobal = some (file, size)) :
    ∃ code rodata, Stitched jit tables firstGlobal file size code rodata := by
  simp only [stitch, Option.bind_eq_bind, Option.pure_def, Option.bind_eq_some_iff, Option.guard_eq_some', Option.some.injEq] at h
  obtain ⟨_, hsize, code, hcode, rodata, hrodata, file', hfile, he⟩ := h
  obtain ⟨rfl, rfl⟩ := Prod.mk.inj he
  have stacked := (fileContents_stacked tables (Memory.load_eq_some.mp hcode).1 (Memory.load_eq_some.mp hrodata).1).append
    (headerTable_stacked jit.debug tables firstGlobal)
  refine ⟨code, rodata, ⟨rfl, hsize⟩, hcode, hrodata, fun a => ?_, stacked, fun p hp => Memory.storeAll_load hfile stacked.apart hp⟩
  have covers : file'.Covers a 1 ↔ (Memory.map 0 (fileOffsets jit.debug tables).size (0 : UInt8) fun _ => none).Covers a 1 :=
    Memory.storeAll_covers hfile
  have fresh : (Memory.map 0 (fileOffsets jit.debug tables).size (0 : UInt8) fun _ => none).Below (0 + (fileOffsets jit.debug tables).size) :=
    Memory.Below.empty.map
  simp only [Memory.Covers, Nat.lt_one_iff, forall_eq, Nat.add_zero] at covers
  rw [covers, fresh, Nat.zero_add]

/-- A file whose size fits in the address space is put together if the code and the constants can be read. -/
theorem stitch_isSome (firstGlobal : ℕ) (hsize : (fileOffsets jit.debug tables).size < 2 ^ 64) (hcode : (jit.image.load jit.debug.codeBase jit.debug.codeSize).isSome)
    (hrodata : (jit.image.load jit.debug.rodataBase jit.debug.rodataSize).isSome) : (stitch jit tables firstGlobal).isSome := by
  obtain ⟨code, hcode⟩ := Option.isSome_iff_exists.mp hcode
  obtain ⟨rodata, hrodata⟩ := Option.isSome_iff_exists.mp hrodata
  have stacked := (fileContents_stacked tables (Memory.load_eq_some.mp hcode).1 (Memory.load_eq_some.mp hrodata).1).append
    (headerTable_stacked jit.debug tables firstGlobal)
  have stored : (storeAll (fileContents jit.debug tables code rodata ++ headerTable jit.debug tables firstGlobal)
      (Memory.map 0 (fileOffsets jit.debug tables).size 0 fun _ => none)).isSome := by
    refine Memory.storeAll_isSome fun p hp i hi => ?_
    have inside := (stacked.inside hp).2
    rw [Memory.map_of_mem (Nat.zero_le _) (by omega), Option.isSome_some]
  obtain ⟨file, hfile⟩ := Option.isSome_iff_exists.mp stored
  simp only [stitch, hcode, hrodata, hsize, guard, if_true, Option.bind_eq_bind, Option.pure_def, Option.bind_some, hfile, Option.isSome_some]

namespace Stitched

variable (h : Stitched jit tables firstGlobal file size code rodata)
include h

theorem offset_lt {n : ℕ} {bytes : List UInt8}
    (hp : (n, bytes) ∈ fileContents jit.debug tables code rodata ++ headerTable jit.debug tables firstGlobal) :
    n < 2 ^ 64 ∧ bytes.length < 2 ^ 64 ∧ n + bytes.length ≤ size := by
  have inside : n + bytes.length ≤ size := (h.stacked.inside hp).2
  have fits := h.whole.2
  omega

/-- The header is read back. -/
theorem readEhdr_eq : readEhdr file = some (elfHeader jit.debug tables) := by
  have header := h.parts (0, (elfHeader jit.debug tables).bytes) (List.mem_append_left _ (List.mem_append_left _
    (List.mem_append_left _ (List.mem_append_left _ (List.mem_append_left _ List.mem_cons_self)))))
  rw [Elf64Ehdr.length_bytes] at header
  rw [readEhdr, header, Option.bind_some, Elf64Ehdr.ofBytes_bytes]

theorem shdrs_lt : (fileOffsets jit.debug tables).shdrs < 2 ^ 64 := by
  have whole := (fileOffsets_ok jit.debug tables).size
  have fits := h.whole
  omega

/-- The header of a section is read back. -/
theorem readShdr_eq {s : Elf64Shdr} (hs : (sections jit.debug tables firstGlobal)[i]? = some s) :
    readShdr file (elfHeader jit.debug tables) i = some s := by
  have header := h.parts _ (List.mem_append_right _ (mem_headerTable hs))
  have place : (elfHeader jit.debug tables).shoff.toNat + i * (elfHeader jit.debug tables).shentsize.toNat =
      (fileOffsets jit.debug tables).shdrs + 64 * i := by
    rw [Nat.mul_comm i]
    show (BitVec.ofNat 64 _).toNat + 64 * i = _
    rw [BitVec.toNat_ofNat, Nat.mod_eq_of_lt h.shdrs_lt]
  rw [Elf64Shdr.length_bytes] at header
  rw [readShdr, place, header, Option.bind_some, Elf64Shdr.ofBytes_bytes]

/-- The contents of a section that describes a part. -/
theorem contents_eq {s : Elf64Shdr} {n : ℕ} {bytes : List UInt8} (hp : (n, bytes) ∈ fileContents jit.debug tables code rodata)
    (hoffset : s.offset = BitVec.ofNat 64 n) (hsize : s.size = BitVec.ofNat 64 bytes.length) :
    s.contents file = some bytes ∧ s.range = Memory.range (n, bytes) := by
  have hp' := List.mem_append_left (headerTable jit.debug tables firstGlobal) hp
  obtain ⟨hn, hlength, -⟩ := h.offset_lt hp'
  have offset : s.offset.toNat = n := by rw [hoffset, BitVec.toNat_ofNat, Nat.mod_eq_of_lt hn]
  have length : s.size.toNat = bytes.length := by rw [hsize, BitVec.toNat_ofNat, Nat.mod_eq_of_lt hlength]
  rw [Elf64Shdr.contents, Elf64Shdr.range, offset, length]
  exact ⟨h.parts _ hp', rfl⟩

end Stitched

/-! ### Sections -/

/-- What a section is for: its name, its type, its contents, and the names of the sections that it refers to. -/
structure SectionSpec where
  name : Name
  type : BitVec 32
  contents : List UInt8
  link : Option Name := none
  info : Option Name := none

/-- An index in a header is that of the section with this name; without a name it is 0. -/
def RefersTo (file : Memory UInt8) (ehdr : Elf64Ehdr) (ref : BitVec 32) : Option Name → Prop
  | some name => ∃ s, Found file ehdr ref.toNat name s
  | none => ref = 0

/-- A section is read as what it is for. -/
structure ReadsAs (file : Memory UInt8) (ehdr : Elf64Ehdr) (spec : SectionSpec) (s : Elf64Shdr) : Prop where
  name : sectionName file ehdr s = some spec.name
  type : s.type = spec.type
  contents : s.contents file = some spec.contents
  link : RefersTo file ehdr s.link spec.link
  info : s.type ≠ shtSymtab → RefersTo file ehdr s.info spec.info

/-- A header with the place of a part, which is aligned. -/
structure Describes (p : ℕ × List UInt8) (s : Elf64Shdr) : Prop where
  offset : s.offset = BitVec.ofNat 64 p.1
  size : s.size = BitVec.ofNat 64 p.2.length
  aligned : s.addralign.toNat ∣ p.1

/-- The sections of a debug ELF: the live code and constants, and the tables. -/
def debugSections (debug : DebugInfo) (tables : DebugElf) (code rodata : List UInt8) : List SectionSpec :=
  [{ name := [], type := 0, contents := [] }, { name := ascii ".text", type := shtProgbits, contents := code }] ++
  (if haveRodata debug then [{ name := ascii ".rodata", type := shtProgbits, contents := rodata }] else []) ++
  [{ name := ascii ".symtab", type := shtSymtab, contents := tables.symtabBytes, link := some (ascii ".strtab") },
    { name := ascii ".strtab", type := shtStrtab, contents := tables.strtab }] ++
  (if haveRela debug then
    [{ name := ascii ".rela.text"
       type := shtRela
       contents := tables.relaBytes
       link := some (ascii ".symtab")
       info := some (ascii ".text") }] else []) ++
  [{ name := ascii ".shstrtab", type := shtStrtab, contents := debug.names.table }]

/-- The names of the sections are in their table. -/
theorem sectionNames_resolve : ∀ haveRodata haveRela : Bool,
    let n := sectionNames haveRodata haveRela
    stringAt n.table 0 = [] ∧ stringAt n.table n.text.toNat = ascii ".text" ∧
    (haveRodata = true → stringAt n.table n.rodata.toNat = ascii ".rodata") ∧ stringAt n.table n.symtab.toNat = ascii ".symtab" ∧
    stringAt n.table n.strtab.toNat = ascii ".strtab" ∧ (haveRela = true → stringAt n.table n.rela.toNat = ascii ".rela.text") ∧
    stringAt n.table n.shstrtab.toNat = ascii ".shstrtab" := by decide

namespace Stitched

variable (h : Stitched jit tables firstGlobal file size code rodata)
include h

/-- The last section holds the names. -/
theorem shstrtab_section : ∃ t, (sections jit.debug tables firstGlobal)[(elfHeader jit.debug tables).shstrndx.toNat]? = some t ∧
    t.name = jit.debug.names.shstrtab ∧ t.contents file = some jit.debug.names.table := by
  have last : ∃ t, (sections jit.debug tables firstGlobal)[(elfHeader jit.debug tables).shstrndx.toNat]? = some t ∧
      t.name = jit.debug.names.shstrtab ∧ t.offset = .ofNat 64 (fileOffsets jit.debug tables).shstrtab ∧
      t.size = .ofNat 64 jit.debug.names.table.length := by
    cases hr : haveRodata jit.debug <;> cases ha : haveRela jit.debug <;>
      simp [sections, sectionHeaders, elfHeader, DebugInfo.indices, sectionIndices, hr, ha]
  obtain ⟨t, ht, hname, hoffset, hsize⟩ := last
  exact ⟨t, ht, hname, (h.contents_eq (List.mem_append_right _ List.mem_cons_self) hoffset hsize).1⟩

/-- The names of sections are read off the last one. -/
theorem sectionName_eq {s : Elf64Shdr} {name : Name} (hs : stringAt jit.debug.names.table s.name.toNat = name) :
    sectionName file (elfHeader jit.debug tables) s = some name := by
  obtain ⟨t, ht, -, hcontents⟩ := h.shstrtab_section
  rw [sectionName, h.readShdr_eq ht, Option.bind_some, hcontents, Option.map_some, hs]

/-- A section is found at its index. -/
theorem found {s : Elf64Shdr} {name : Name} (hs : (sections jit.debug tables firstGlobal)[i]? = some s)
    (hname : stringAt jit.debug.names.table s.name.toNat = name) : Found file (elfHeader jit.debug tables) i name s := by
  have hi : i < jit.debug.indices.shnum := length_sections _ _ _ ▸ (List.getElem?_eq_some_iff.mp hs).1
  exact ⟨(shnum_eq _ _).symm ▸ hi, h.readShdr_eq hs, h.sectionName_eq hname⟩

theorem refersTo_text : RefersTo file (elfHeader jit.debug tables) (.ofNat 32 jit.debug.indices.text) (some (ascii ".text")) := by
  obtain ⟨-, htext, -⟩ := sectionNames_resolve (haveRodata jit.debug) (haveRela jit.debug)
  exact ⟨_, h.found (i := 1) rfl htext⟩

/-- The symbol table is found at its index, with the number of local symbols. -/
theorem symtab_section : ∃ s, Found file (elfHeader jit.debug tables) jit.debug.indices.symtab (ascii ".symtab") s ∧
    s.contents file = some tables.symtabBytes ∧ s.info = .ofNat 32 firstGlobal := by
  obtain ⟨-, -, -, hsymtab, -⟩ := sectionNames_resolve (haveRodata jit.debug) (haveRela jit.debug)
  have place : ∃ s, (sections jit.debug tables firstGlobal)[jit.debug.indices.symtab]? = some s ∧ s.name = jit.debug.names.symtab ∧
      s.info = .ofNat 32 firstGlobal ∧ s.offset = .ofNat 64 (fileOffsets jit.debug tables).symtab ∧
      s.size = .ofNat 64 tables.symtabBytes.length := by
    cases hr : haveRodata jit.debug <;> cases ha : haveRela jit.debug <;>
      simp [sections, sectionHeaders, DebugInfo.indices, sectionIndices, hr, ha]
  obtain ⟨s, hs, hname, hinfo, hoffset, hsize⟩ := place
  have part : ((fileOffsets jit.debug tables).symtab, tables.symtabBytes) ∈ fileContents jit.debug tables code rodata := by
    simp [fileContents]
  exact ⟨s, h.found hs (hname ▸ hsymtab), (h.contents_eq part hoffset hsize).1, hinfo⟩

/-- The string table is found at its index. -/
theorem strtab_section : ∃ s, Found file (elfHeader jit.debug tables) jit.debug.indices.strtab (ascii ".strtab") s ∧
    s.contents file = some tables.strtab := by
  obtain ⟨-, -, -, -, hstrtab, -⟩ := sectionNames_resolve (haveRodata jit.debug) (haveRela jit.debug)
  have place : ∃ s, (sections jit.debug tables firstGlobal)[jit.debug.indices.strtab]? = some s ∧ s.name = jit.debug.names.strtab ∧
      s.offset = .ofNat 64 (fileOffsets jit.debug tables).strtab ∧ s.size = .ofNat 64 tables.strtab.length := by
    cases hr : haveRodata jit.debug <;> cases ha : haveRela jit.debug <;>
      simp [sections, sectionHeaders, DebugInfo.indices, sectionIndices, hr, ha]
  obtain ⟨s, hs, hname, hoffset, hsize⟩ := place
  have part : ((fileOffsets jit.debug tables).strtab, tables.strtab) ∈ fileContents jit.debug tables code rodata := by
    simp [fileContents]
  exact ⟨s, h.found hs (hname ▸ hstrtab), (h.contents_eq part hoffset hsize).1⟩

/-- The relocations are found at their index, if there are any. -/
theorem rela_section (hrela : haveRela jit.debug = true) :
    ∃ s, Found file (elfHeader jit.debug tables) jit.debug.indices.rela (ascii ".rela.text") s ∧ s.contents file = some tables.relaBytes := by
  obtain ⟨-, -, -, -, -, hname, -⟩ := sectionNames_resolve (haveRodata jit.debug) (haveRela jit.debug)
  have place : ∃ s, (sections jit.debug tables firstGlobal)[jit.debug.indices.rela]? = some s ∧ s.name = jit.debug.names.rela ∧
      s.offset = .ofNat 64 (fileOffsets jit.debug tables).rela ∧ s.size = .ofNat 64 tables.relaBytes.length := by
    cases hr : haveRodata jit.debug <;> simp [sections, sectionHeaders, DebugInfo.indices, sectionIndices, hr, hrela]
  obtain ⟨s, hs, hname', hoffset, hsize⟩ := place
  have part : ((fileOffsets jit.debug tables).rela, tables.relaBytes) ∈ fileContents jit.debug tables code rodata := by
    simp [fileContents, hrela]
  exact ⟨s, h.found hs (hname' ▸ hname hrela), (h.contents_eq part hoffset hsize).1⟩

theorem refersTo_symtab : RefersTo file (elfHeader jit.debug tables) (.ofNat 32 jit.debug.indices.symtab) (some (ascii ".symtab")) := by
  obtain ⟨s, hs, -⟩ := h.symtab_section
  have index : (BitVec.ofNat 32 jit.debug.indices.symtab).toNat = jit.debug.indices.symtab := by
    cases hr : haveRodata jit.debug <;> simp [DebugInfo.indices, sectionIndices, hr]
  exact ⟨s, index.symm ▸ hs⟩

theorem refersTo_strtab : RefersTo file (elfHeader jit.debug tables) (.ofNat 32 jit.debug.indices.strtab) (some (ascii ".strtab")) := by
  obtain ⟨s, hs, -⟩ := h.strtab_section
  have index : (BitVec.ofNat 32 jit.debug.indices.strtab).toNat = jit.debug.indices.strtab := by
    cases hr : haveRodata jit.debug <;> simp [DebugInfo.indices, sectionIndices, hr]
  exact ⟨s, index.symm ▸ hs⟩

theorem refersTo_shstrtab :
    RefersTo file (elfHeader jit.debug tables) ((elfHeader jit.debug tables).shstrndx.setWidth 32) (some (ascii ".shstrtab")) := by
  obtain ⟨-, -, -, -, -, -, hshstrtab⟩ := sectionNames_resolve (haveRodata jit.debug) (haveRela jit.debug)
  obtain ⟨t, ht, hname, -⟩ := h.shstrtab_section
  refine ⟨t, h.found ?_ (hname ▸ hshstrtab)⟩
  rwa [BitVec.toNat_setWidth_of_le (by decide)]

/-- Every section is read as what it is for. -/
theorem sections_read : List.Forall₂ (ReadsAs file (elfHeader jit.debug tables)) (debugSections jit.debug tables code rodata)
    (sections jit.debug tables firstGlobal) := by
  obtain ⟨hnull, htext, hrodata, hsymtab, hstrtab, hrela, hshstrtab⟩ :=
    sectionNames_resolve (haveRodata jit.debug) (haveRela jit.debug)
  have codeSize := (Memory.load_eq_some.mp h.text).1
  have rodataSize := (Memory.load_eq_some.mp h.constants).1
  simp only [debugSections, sections, sectionHeaders, List.map_append, List.map_cons, List.map_nil]
  refine List.rel_append (List.rel_append (List.rel_append (List.rel_append (.cons ?null (.cons ?text .nil)) ?rodata)
    (.cons ?symtab (.cons ?strtab .nil))) ?rela) (.cons ?shstrtab .nil)
  case null => exact ⟨h.sectionName_eq hnull, rfl, rfl, rfl, fun _ => rfl⟩
  case text =>
    have part : ((fileOffsets jit.debug tables).text, code) ∈ fileContents jit.debug tables code rodata := by simp [fileContents]
    exact ⟨h.sectionName_eq htext, rfl, (h.contents_eq part rfl (by rw [codeSize])).1, rfl, fun _ => rfl⟩
  case rodata =>
    split_ifs with hr
    · have part : ((fileOffsets jit.debug tables).rodata, rodata) ∈ fileContents jit.debug tables code rodata := by
        simp [fileContents, hr]
      exact .cons ⟨h.sectionName_eq (hrodata hr), rfl, (h.contents_eq part rfl (by rw [rodataSize])).1, rfl, fun _ => rfl⟩ .nil
    · exact .nil
  case symtab =>
    have part : ((fileOffsets jit.debug tables).symtab, tables.symtabBytes) ∈ fileContents jit.debug tables code rodata := by
      simp [fileContents]
    exact ⟨h.sectionName_eq hsymtab, rfl, (h.contents_eq part rfl rfl).1, h.refersTo_strtab, fun hne => absurd rfl hne⟩
  case strtab =>
    have part : ((fileOffsets jit.debug tables).strtab, tables.strtab) ∈ fileContents jit.debug tables code rodata := by
      simp [fileContents]
    exact ⟨h.sectionName_eq hstrtab, rfl, (h.contents_eq part rfl rfl).1, rfl, fun _ => rfl⟩
  case rela =>
    split_ifs with ha
    · have part : ((fileOffsets jit.debug tables).rela, tables.relaBytes) ∈ fileContents jit.debug tables code rodata := by
        simp [fileContents, ha]
      exact .cons ⟨h.sectionName_eq (hrela ha), rfl, (h.contents_eq part rfl rfl).1, h.refersTo_symtab, fun _ => h.refersTo_text⟩ .nil
    · exact .nil
  case shstrtab =>
    have part : ((fileOffsets jit.debug tables).shstrtab, jit.debug.names.table) ∈ fileContents jit.debug tables code rodata := by
      simp [fileContents]
    exact ⟨h.sectionName_eq hshstrtab, rfl, (h.contents_eq part rfl rfl).1, rfl, fun _ => rfl⟩

/-- The contents that the headers describe. -/
theorem sections_describe : List.Forall₂ Describes (fileContents jit.debug tables code rodata).tail
    (sections jit.debug tables firstGlobal).tail := by
  obtain ⟨text, rodataAt, symtab, -, relaAt, -⟩ := fileOffsets_ok jit.debug tables
  have codeSize := (Memory.load_eq_some.mp h.text).1
  have rodataSize := (Memory.load_eq_some.mp h.constants).1
  simp only [fileContents, sections, sectionHeaders, List.map_append, List.map_cons, List.map_nil, List.cons_append, List.nil_append,
    List.tail_cons]
  refine .cons ⟨rfl, by rw [codeSize], text.2⟩ ?_
  refine List.rel_append (List.rel_append (List.rel_append ?rodata (.cons ⟨rfl, rfl, symtab.2⟩ (.cons ⟨rfl, rfl, ?_⟩ .nil))) ?rela)
    (.cons ⟨rfl, rfl, ?_⟩ .nil)
  case rodata =>
    split_ifs with hr
    · exact .cons ⟨rfl, by rw [rodataSize], (rodataAt hr).2.2⟩ .nil
    · exact .nil
  case rela =>
    split_ifs with ha
    · exact .cons ⟨rfl, rfl, (relaAt ha).2.2⟩ .nil
    · exact .nil
  all_goals exact Nat.one_dvd _

/-- The headers have the places of the contents, which are aligned. -/
theorem sections_placed : List.Forall₂ (fun p s => s.range = Memory.range p ∧ s.addralign.toNat ∣ s.offset.toNat)
    (fileContents jit.debug tables code rodata).tail (sections jit.debug tables firstGlobal).tail := by
  obtain ⟨hlength, hall⟩ := List.forall₂_iff_zip.mp h.sections_describe
  refine List.forall₂_iff_zip.mpr ⟨hlength, fun {p s} hps => ?_⟩
  obtain ⟨hoffset, hsize, haligned⟩ := hall hps
  have hp := List.mem_of_mem_tail (List.of_mem_zip hps).1
  have range := (h.contents_eq hp hoffset hsize).2
  have start : s.offset.toNat = p.1 := congrArg Prod.fst range
  exact ⟨range, start ▸ haligned⟩

theorem ranges_eq : ranges (elfHeader jit.debug tables) (sections jit.debug tables firstGlobal) =
    (0, 64) :: (0, 0) :: (fileContents jit.debug tables code rodata).tail.map Memory.range ++
      [((fileOffsets jit.debug tables).shdrs, 64 * jit.debug.indices.shnum)] := by
  have described : (sections jit.debug tables firstGlobal).tail.map Elf64Shdr.range =
      (fileContents jit.debug tables code rodata).tail.map Memory.range := by
    have ranges : List.Forall₂ Eq ((fileContents jit.debug tables code rodata).tail.map Memory.range)
        ((sections jit.debug tables firstGlobal).tail.map Elf64Shdr.range) :=
      List.rel_map (fun p s hps => hps.1.symm) h.sections_placed
    rw [List.forall₂_eq_eq_eq] at ranges
    exact ranges.symm
  have first : sections jit.debug tables firstGlobal = {} :: (sections jit.debug tables firstGlobal).tail := rfl
  have shoff : (elfHeader jit.debug tables).shoff.toNat = (fileOffsets jit.debug tables).shdrs := by
    show (BitVec.ofNat 64 _).toNat = _
    rw [BitVec.toNat_ofNat, Nat.mod_eq_of_lt h.shdrs_lt]
  rw [ranges, first, List.map_cons, described, shoff, Nat.mul_comm 64, shnum_eq]
  rfl

/-- What is in the file lies apart, inside and aligned. -/
theorem consistent : Consistent file size (elfHeader jit.debug tables) (sections jit.debug tables firstGlobal) := by
  have front := fileContents_stacked tables (Memory.load_eq_some.mp h.text).1 (Memory.load_eq_some.mp h.constants).1
  let table : ℕ × List UInt8 := ((fileOffsets jit.debug tables).shdrs, List.replicate (64 * jit.debug.indices.shnum) 0)
  have whole : Stacked 0 (fileContents jit.debug tables code rodata ++ [table]) size := by
    refine front.append ⟨Nat.le_refl _, ?_⟩
    rw [List.length_replicate, ← h.whole.1, (fileOffsets_ok jit.debug tables).size, Nat.mul_comm]
    exact Nat.le_refl _
  have first : fileContents jit.debug tables code rodata = (0, (elfHeader jit.debug tables).bytes) ::
      (fileContents jit.debug tables code rodata).tail := rfl
  have parts : (fileContents jit.debug tables code rodata ++ [table]).map Memory.range = (0, 64) ::
      ((fileContents jit.debug tables code rodata).tail.map Memory.range ++
        [((fileOffsets jit.debug tables).shdrs, 64 * jit.debug.indices.shnum)]) := by
    rw [first, List.cons_append, List.map_cons, List.map_append, List.map_singleton, Memory.range, Memory.range, Elf64Ehdr.length_bytes,
      List.length_replicate, List.tail_cons]
  have ranges : ranges (elfHeader jit.debug tables) (sections jit.debug tables firstGlobal) =
      (0, 64) :: (0, 0) :: ((fileContents jit.debug tables code rodata).tail.map Memory.range ++
        [((fileOffsets jit.debug tables).shdrs, 64 * jit.debug.indices.shnum)]) := h.ranges_eq
  have apart := whole.apart
  rw [parts] at apart
  obtain ⟨hheader, hrest⟩ := List.pairwise_cons.mp apart
  refine ⟨h.mapped, h.readEhdr_eq, (shnum_eq _ _).trans (length_sections _ _ _).symm, fun i s hs => h.readShdr_eq hs, ?_, ?_, ?_⟩
  · rw [ranges]
    exact .cons (List.forall_mem_cons.mpr ⟨.inr (Nat.zero_le _), hheader⟩) (.cons (fun r _ => .inl (Nat.zero_le _)) hrest)
  · have inside : ∀ r ∈ (fileContents jit.debug tables code rodata ++ [table]).map Memory.range, r.1 + r.2 ≤ size := by
      intro r hr
      obtain ⟨p, hp, rfl⟩ := List.mem_map.mp hr
      exact (whole.inside hp).2
    rw [parts, List.forall_mem_cons] at inside
    rw [ranges, List.forall_mem_cons, List.forall_mem_cons]
    exact ⟨inside.1, Nat.zero_le _, inside.2⟩
  · have null : sections jit.debug tables firstGlobal = {} :: (sections jit.debug tables firstGlobal).tail := rfl
    rw [null, List.forall_mem_cons]
    refine ⟨Nat.dvd_refl _, fun s hs => ?_⟩
    obtain ⟨hlength, hall⟩ := List.forall₂_iff_zip.mp h.sections_placed
    obtain ⟨i, hi, rfl⟩ := List.getElem_of_mem hs
    exact (hall (List.mem_iff_getElem.mpr ⟨i, by simpa [hlength] using hi, List.getElem_zip ..⟩)).2

end Stitched

/-- Whatever the module and its debug info are: what is in the file lies apart, inside and
aligned, and a reader finds exactly these sections, by their names, each with the contents
that were put in and with references to the sections that are meant. -/
theorem debug_elf_consistent {names : DebugNames} {m : WasmModule} (hrun : wasmJitEmitDebugElf names m jit = some (file, size)) :
    ∃ firstGlobal tables code rodata ehdr sections, emitTables names m jit.debug {} = some (firstGlobal, tables) ∧
      jit.image.load jit.debug.codeBase jit.debug.codeSize = some code ∧
      jit.image.load jit.debug.rodataBase jit.debug.rodataSize = some rodata ∧
      Consistent file size ehdr sections ∧ List.Forall₂ (ReadsAs file ehdr) (debugSections jit.debug tables code rodata) sections ∧
      RefersTo file ehdr (ehdr.shstrndx.setWidth 32) (some (ascii ".shstrtab")) := by
  obtain ⟨⟨firstGlobal, tables⟩, htables, hstitch⟩ := Option.bind_eq_some_iff.mp hrun
  obtain ⟨code, rodata, h⟩ := stitch_eq_some hstitch
  exact ⟨firstGlobal, tables, code, rodata, _, _, htables, h.text, h.constants, h.consistent, h.sections_read, h.refersTo_shstrtab⟩

/-- `recursiveModule` with an export that can be named. -/
def namedModule : WasmModule := { recursiveModule with exports := [{ name := some (ascii "f"), kind := .func, index := 0 }] }

def sampleNames : DebugNames := { host := sampleHost, libcallName := fun _ => none }

theorem debug_elf_consistent_named : ∃ ctx jit file size firstGlobal tables code rodata ehdr sections,
    jitEmitSpidir 2 (startContext namedModule fun _ _ _ => none) = some ([1, 2, 0], ctx) ∧
    jitCodegen sampleHost recursiveEmitter true 10 ctx = some jit ∧
    wasmJitEmitDebugElf sampleNames namedModule jit = some (file, size) ∧
    emitTables sampleNames namedModule jit.debug {} = some (firstGlobal, tables) ∧
      jit.image.load jit.debug.codeBase jit.debug.codeSize = some code ∧
      jit.image.load jit.debug.rodataBase jit.debug.rodataSize = some rodata ∧
      Consistent file size ehdr sections ∧ List.Forall₂ (ReadsAs file ehdr) (debugSections jit.debug tables code rodata) sections ∧
      RefersTo file ehdr (ehdr.shstrndx.setWidth 32) (some (ascii ".shstrtab")) := by
  have run : ((jitEmitSpidir 2 (startContext namedModule fun _ _ _ => none)).bind fun r =>
      (jitCodegen sampleHost recursiveEmitter true 10 r.2).bind fun jit =>
        (emitTables sampleNames namedModule jit.debug {}).map fun f => (r.1, decide ((fileOffsets jit.debug f.2).size < 2 ^ 64),
          (jit.image.load jit.debug.codeBase jit.debug.codeSize).isSome, (jit.image.load jit.debug.rodataBase jit.debug.rodataSize).isSome)) =
      some ([1, 2, 0], true, true, true) := by decide +kernel
  obtain ⟨⟨built, ctx⟩, hemit, run⟩ := Option.bind_eq_some_iff.mp run
  obtain ⟨jit, hjit, run⟩ := Option.bind_eq_some_iff.mp run
  obtain ⟨⟨firstGlobal, tables⟩, htables, run⟩ := Option.map_eq_some_iff.mp run
  simp only [Prod.mk.injEq, decide_eq_true_eq] at run
  obtain ⟨rfl, hsize, hcode, hrodata⟩ := run
  obtain ⟨⟨file, size⟩, hfile⟩ := Option.isSome_iff_exists.mp (stitch_isSome firstGlobal hsize hcode hrodata)
  have emitted : wasmJitEmitDebugElf sampleNames namedModule jit = some (file, size) := by
    simp only [wasmJitEmitDebugElf, htables, Option.bind_eq_bind, Option.bind_some, hfile]
  obtain ⟨_, _, code, rodata, ehdr, sections, h⟩ := debug_elf_consistent emitted
  exact ⟨ctx, jit, file, size, _, _, code, rodata, ehdr, sections, hemit, hjit, emitted, h⟩

end SpidirWasm.Jit
