import SpidirWasm.Jit.CodegenLayout
import SpidirWasm.Jit.CodegenClosure

/-! What the linker leaves in the binary. Every store is an `endbr64` in front of a function,
lies in the constants, or lies in the code of the function that is being linked, so that
nothing is written to a function's code behind its own turn. -/

namespace SpidirWasm.Jit

open Checked
open Util (Hmap)
open Spidir (Word)
open Relation (ReflTransGen)

/-- Where the code of a function starts. -/
def Linker.entry (l : Linker) (f : FunctionCodegen) : ℕ := l.binary + f.codeOffset

/-- A linker whose functions lie in the code part, where the map finds them. -/
structure Linker.Entries (l : Linker) : Prop where
  code : ∀ f ∈ l.codegen.functions, 4 ≤ l.entry f ∧ l.entry f + f.blob.code.length ≤ l.rodata
  index : ∀ id i, l.codegen.funcToIdx.lookup id = some i → l.codegen.functionAt i = some id
  fits : l.rodata + l.codegen.rodataSize ≤ 2 ^ 64

/-- A linker whose functions, constants and tables are where they should be. -/
structure Linker.Ok (l : Linker) : Prop where
  inside : ∀ f ∈ l.codegen.functions, 16 ∣ f.codeOffset ∧ 16 ≤ f.codeOffset ∧ f.codeOffset + f.blob.code.length ≤ l.codegen.codeSize
  apart : l.codegen.functions.Pairwise fun f g => f.codeOffset + f.blob.code.length + 16 ≤ g.codeOffset
  index : ∀ id i, l.codegen.funcToIdx.lookup id = some i → l.codegen.functionAt i = some id
  fits : l.rodata + l.codegen.rodataSize ≤ 2 ^ 64
  pools : ∀ f ∈ l.codegen.functions, f.blob.constpool.length ≠ 0 →
    f.constpoolOffset + f.blob.constpool.length ≤ l.codegen.rodataSize
  tables : ∀ (i : ℕ) (t : JitTable), l.ctx.tables[i]? = some t → t.used = true → ∀ offset,
    l.codegen.globalOffsets.lookup t.global = some offset → 8 ∣ offset ∧ offset + 8 * t.length ≤ l.codegen.rodataSize

/-- The stores of the linker on behalf of a function, or on behalf of none. -/
inductive ImageStep (l : Linker) (owner : Option FunctionCodegen) : Memory UInt8 → Memory UInt8 → Prop
  | stub (image : Memory UInt8) {f : FunctionCodegen} (hf : f ∈ l.codegen.functions) :
      ImageStep l owner image (image.write (l.entry f - 4) endbr64)
  | data (image : Memory UInt8) {a : ℕ} (bytes : List UInt8) (ha : l.rodata ≤ a) : ImageStep l owner image (image.write a bytes)
  | code (image : Memory UInt8) {f : FunctionCodegen} {a : ℕ} {bytes : List UInt8} (howner : owner = some f)
      (hf : f ∈ l.codegen.functions) (ha : l.entry f ≤ a) (hlast : a + bytes.length ≤ l.entry f + f.blob.code.length) :
      ImageStep l owner image (image.write a bytes)

variable {l : Linker} {owner : Option FunctionCodegen} {f g : FunctionCodegen} {image image' : Memory UInt8} {a : ℕ} {bytes : List UInt8}

/-- Different functions have a gap between them. -/
theorem Linker.Ok.gap (h : l.Ok) (hf : f ∈ l.codegen.functions) (hg : g ∈ l.codegen.functions) (hne : f ≠ g) :
    l.entry f + f.blob.code.length + 16 ≤ l.entry g ∨ l.entry g + g.blob.code.length + 16 ≤ l.entry f := by
  obtain ⟨i, hi, rfl⟩ := List.mem_iff_getElem.mp hf
  obtain ⟨j, hj, rfl⟩ := List.mem_iff_getElem.mp hg
  have apart := List.pairwise_iff_getElem.mp h.apart
  simp only [entry]
  obtain hlt | rfl | hgt := Nat.lt_trichotomy i j
  · have := apart i j hi hj hlt
    omega
  · exact absurd rfl hne
  · have := apart j i hj hi hgt
    omega

/-- A function's code, and the gap in front of it, lie in the code part. -/
theorem Linker.Ok.code (h : l.Ok) (hf : f ∈ l.codegen.functions) :
    l.binary + 16 ≤ l.entry f ∧ l.entry f + f.blob.code.length ≤ l.rodata := by
  obtain ⟨-, hstart, hstop⟩ := h.inside f hf
  simp only [entry, rodata]
  omega

theorem Linker.Ok.entries (h : l.Ok) : l.Entries := by
  refine ⟨fun f hf => ?_, h.index, h.fits⟩
  obtain ⟨hstart, hstop⟩ := h.code hf
  exact ⟨by omega, hstop⟩

theorem length_endbr64 : endbr64.length = 4 := rfl

/-- An `endbr64` in front of a function stays there. -/
theorem ImageStep.stub_kept (hs : ImageStep l owner image image') (h : l.Ok) (hf : f ∈ l.codegen.functions)
    (hstub : image.load (l.entry f - 4) 4 = some endbr64) : image'.load (l.entry f - 4) 4 = some endbr64 := by
  obtain ⟨hstart, hstop⟩ := h.code hf
  cases hs with
  | @stub g hg =>
    by_cases hfg : g = f
    · subst hfg
      exact Memory.load_write_self _ _ endbr64
    · have gap := h.gap hg hf hfg
      have hstart' := (h.code hg).1
      rw [Memory.load_write_of_disjoint (by rw [length_endbr64]; omega), hstub]
  | data bytes ha => rw [Memory.load_write_of_disjoint (by omega), hstub]
  | @code g a bytes _ hg ha hlast =>
    rw [Memory.load_write_of_disjoint, hstub]
    by_cases hfg : g = f
    · subst hfg
      omega
    · have gap := h.gap hg hf hfg
      omega

/-- The code of a function changes on its own behalf only. -/
theorem ImageStep.code_kept (hs : ImageStep l owner image image') (h : l.Ok) (hf : f ∈ l.codegen.functions) (hne : owner ≠ some f)
    (ha : l.entry f ≤ a) (hlast : a < l.entry f + f.blob.code.length) : image' a = image a := by
  obtain ⟨hstart, hstop⟩ := h.code hf
  cases hs with
  | @stub g hg =>
    apply Memory.write_of_not_mem
    have hstart' := (h.code hg).1
    rw [length_endbr64]
    by_cases hfg : g = f
    · subst hfg
      omega
    · have gap := h.gap hg hf hfg
      omega
  | data bytes ha' => exact Memory.write_of_not_mem (by omega)
  | @code g a' bytes howner hg ha' hlast' =>
    apply Memory.write_of_not_mem
    have hfg : g ≠ f := by
      rintro rfl
      exact hne howner
    have gap := h.gap hg hf hfg
    omega

variable {α : Type} {s t : Linked}

theorem stub_kept (hrun : ReflTransGen (ImageStep l owner) image image') (h : l.Ok) (hf : f ∈ l.codegen.functions)
    (hstub : image.load (l.entry f - 4) 4 = some endbr64) : image'.load (l.entry f - 4) 4 = some endbr64 := by
  induction hrun with
  | refl => exact hstub
  | tail _ hs ih => exact hs.stub_kept h hf ih

theorem code_kept (hrun : ReflTransGen (ImageStep l owner) image image') (h : l.Ok) (hf : f ∈ l.codegen.functions)
    (hne : owner ≠ some f) (ha : l.entry f ≤ a) (hlast : a < l.entry f + f.blob.code.length) : image' a = image a := by
  induction hrun with
  | refl => rfl
  | tail _ hs ih => exact (hs.code_kept h hf hne ha hlast).trans ih

/-! ### The operations -/

theorem poke_eq_some : poke l a bytes s = some ((), t) ↔
    (l.binary ≤ sizeT a ∧ sizeT a + bytes.length ≤ l.rodata + l.codegen.rodataSize) ∧
      t = { s with image := s.image.write (sizeT a) bytes } := by
  rw [poke, check_bind_eq_some, update_eq_some, Prod.mk.injEq]
  exact and_congr_right fun _ => and_iff_right rfl

/-- Without a wrap-around. -/
theorem poke_image (ha : a < 2 ^ 64) (hp : poke l a bytes s = some ((), t)) : t = { s with image := s.image.write a bytes } := by
  have := (poke_eq_some.mp hp).2
  rwa [sizeT_of_lt ha] at this

/-- A function that the map finds. -/
theorem Linker.Entries.found (h : l.Entries) {id i : ℕ} (hi : l.codegen.funcToIdx.lookup id = some i) (hf : l.codegen.functions[i]? = some f) :
    f ∈ l.codegen.functions ∧ f.function = id := by
  have := h.index id i hi
  rw [Codegen.functionAt, hf] at this
  exact ⟨List.mem_of_getElem? hf, Option.some.inj this⟩

theorem jitGetIndirect_eq_some (h : l.Entries) (hf : f ∈ l.codegen.functions) (hrun : jitGetIndirect l (l.entry f) s = some (a, t)) :
    a + 4 = l.entry f ∧ t = { s with image := s.image.write (l.entry f - 4) endbr64 } := by
  obtain ⟨_, u, hp, hret⟩ := (bind_eq_some _ _ _ _).mp hrun
  obtain ⟨rfl, rfl⟩ := Prod.mk.inj (Option.some.inj hret)
  obtain ⟨hstart, hstop⟩ := h.code f hf
  have fits := h.fits
  exact ⟨by omega, poke_image (by omega) hp⟩

/-- A published address of the function `id`: an `endbr64` in front of its first byte of code. -/
def Published (l : Linker) (image : Memory UInt8) (id a : ℕ) : Prop :=
  ∃ f ∈ l.codegen.functions, f.function = id ∧ a + 4 = l.entry f ∧ image.load a 4 = some endbr64

theorem Published.kept {id : ℕ} (hp : Published l image id a) (hrun : ReflTransGen (ImageStep l owner) image image') (h : l.Ok) :
    Published l image' id a := by
  obtain ⟨f, hf, hid, ha, hstub⟩ := hp
  have start : l.entry f - 4 = a := by omega
  refine ⟨f, hf, hid, ha, ?_⟩
  rw [← start] at hstub ⊢
  exact SpidirWasm.Jit.stub_kept hrun h hf hstub

/-- Taking the address of a function publishes it. -/
theorem jitGetInternalFunctionAddr_eq_some (h : l.Entries) {id : ℕ} (hrun : jitGetInternalFunctionAddr l id s = some (a, t)) :
    ∃ f ∈ l.codegen.functions, f.function = id ∧ a + 4 = l.entry f ∧
      t = { s with image := s.image.write (l.entry f - 4) endbr64 } ∧ Published l t.image id a := by
  simp only [jitGetInternalFunctionAddr, lift_bind_eq_some] at hrun
  obtain ⟨i, hi, f, hf, hget⟩ := hrun
  obtain ⟨hmem, hid⟩ := h.found hi hf
  obtain ⟨ha, rfl⟩ := jitGetIndirect_eq_some h hmem hget
  have start : l.entry f - 4 = a := by omega
  refine ⟨f, hmem, hid, ha, rfl, f, hmem, hid, ha, ?_⟩
  simp only [start]
  exact Memory.load_write_self _ _ endbr64

/-! ### Relocations -/

/-- The size of the field. -/
def RelocKind.size : RelocKind → ℕ
  | .pc32 => 4
  | .abs64 => 8

/-- What a relocation at `p` stores for a target. -/
def Reloc.fieldBytes (r : Reloc) (p target : ℕ) : List UInt8 :=
  match r.kind with
  | .pc32 => Word.toBytes 4 (BitVec.ofInt 64 (target + r.addend - p))
  | .abs64 => Word.toBytes 8 (BitVec.ofInt 64 (target + r.addend))

/-- The target that a relocation of `f` is linked against. -/
def Resolves (l : Linker) (f : FunctionCodegen) (r : Reloc) (target : ℕ) : Prop :=
  match r.target with
  | .constpool => target = l.rodata + f.constpoolOffset
  | .global id => ∃ offset, l.codegen.globalOffsets.lookup id = some offset ∧ target = sizeT (l.rodata + offset)
  | .internal id => ∃ g ∈ l.codegen.functions, g.function = id ∧ target = if r.kind = .abs64 then l.entry g - 4 else l.entry g
  | .external id => (jitHelperLookupAddress l.host l.ctx id).or (l.codegen.imports.lookup id) = some target
  | .libcall kind => l.host.resolveLibcall kind = some target

variable {r : Reloc} {target : ℕ}

theorem Reloc.length_fieldBytes (r : Reloc) (p target : ℕ) : (r.fieldBytes p target).length = r.kind.size := by
  cases h : r.kind <;> simp [Reloc.fieldBytes, RelocKind.size, h]

theorem relocTarget_eq_some (h : l.Ok) (hrun : relocTarget l f r s = some (target, t)) :
    Resolves l f r target ∧ (∀ owner, ReflTransGen (ImageStep l owner) s.image t.image) ∧
      (r.kind = .abs64 → ∀ id, r.target = .internal id → Published l t.image id target) := by
  rw [relocTarget] at hrun
  rw [Resolves]
  cases htarget : r.target with
  | constpool =>
    simp only [htarget] at hrun
    obtain ⟨rfl, rfl⟩ := Prod.mk.inj (Option.some.inj hrun)
    exact ⟨rfl, fun _ => .refl, fun _ id hid => by cases hid⟩
  | global id =>
    simp only [htarget, lift_bind_eq_some] at hrun
    obtain ⟨offset, hoffset, hret⟩ := hrun
    obtain ⟨rfl, rfl⟩ := Prod.mk.inj (Option.some.inj hret)
    exact ⟨⟨offset, hoffset, rfl⟩, fun _ => .refl, fun _ id hid => by cases hid⟩
  | internal id =>
    simp only [htarget, lift_bind_eq_some] at hrun
    obtain ⟨i, hi, g, hg, hrun⟩ := hrun
    obtain ⟨hmem, hid⟩ := h.entries.found hi hg
    split_ifs at hrun with hkind
    · obtain ⟨ha, rfl⟩ := jitGetIndirect_eq_some h.entries hmem hrun
      have start : l.entry g - 4 = target := by omega
      refine ⟨⟨g, hmem, hid, by rw [if_pos hkind, start]⟩, fun _ => .single (.stub s.image hmem), fun _ id' hid' => ?_⟩
      obtain rfl := RelocTarget.internal.inj hid'
      refine ⟨g, hmem, hid, ha, ?_⟩
      simp only [start]
      exact Memory.load_write_self _ _ endbr64
    · obtain ⟨rfl, rfl⟩ := Prod.mk.inj (Option.some.inj hrun)
      exact ⟨⟨g, hmem, hid, by rw [if_neg hkind, Linker.entry]⟩, fun _ => .refl, fun hk => absurd hk hkind⟩
  | external id =>
    simp only [htarget] at hrun
    cases hhelper : jitHelperLookupAddress l.host l.ctx id with
    | some address =>
      simp only [hhelper] at hrun
      obtain ⟨rfl, rfl⟩ := Prod.mk.inj (Option.some.inj hrun)
      exact ⟨by simp [hhelper], fun _ => .refl, fun _ id hid => by cases hid⟩
    | none =>
      simp only [hhelper] at hrun
      obtain ⟨a, ha, hret⟩ := (lift_eq_some _ _ _).mp hrun
      obtain ⟨rfl, rfl⟩ := Prod.mk.inj hret
      exact ⟨by simp [hhelper, ha], fun _ => .refl, fun _ id hid => by cases hid⟩
  | libcall kind =>
    simp only [htarget] at hrun
    obtain ⟨a, ha, hret⟩ := (lift_eq_some _ _ _).mp hrun
    obtain ⟨rfl, rfl⟩ := Prod.mk.inj hret
    exact ⟨ha, fun _ => .refl, fun _ id hid => by cases hid⟩

theorem ofInt_bmod (x : ℤ) : BitVec.ofInt 64 (x.bmod (2 ^ 64)) = BitVec.ofInt 64 x := by
  apply BitVec.eq_of_toInt_eq
  rw [BitVec.toInt_ofInt, BitVec.toInt_ofInt, Int.bmod_bmod]

/-- A relocation that is applied fills its field, which lies in the function's code. -/
theorem jitApplyReloc_eq_some (h : l.Entries) (hf : f ∈ l.codegen.functions)
    (hrun : jitApplyReloc l (l.entry f) f.blob.code.length r target s = some ((), t)) :
    r.offset + r.kind.size ≤ f.blob.code.length ∧
      t = { s with image := s.image.write (l.entry f + r.offset) (r.fieldBytes (l.entry f + r.offset) target) } := by
  obtain ⟨-, hstop⟩ := h.code f hf
  have fits := h.fits
  rw [jitApplyReloc] at hrun
  cases hkind : r.kind with
  | pc32 =>
    simp only [hkind, check_bind_eq_some] at hrun
    obtain ⟨hin, -, hp⟩ := hrun
    refine ⟨hin, ?_⟩
    rw [Reloc.fieldBytes, hkind]
    rw [ofInt_bmod] at hp
    exact poke_image (by omega) hp
  | abs64 =>
    simp only [hkind, check_bind_eq_some] at hrun
    obtain ⟨hin, hp⟩ := hrun
    refine ⟨hin, ?_⟩
    rw [Reloc.fieldBytes, hkind]
    exact poke_image (by omega) hp

theorem debugFunction_image {id : ℕ} {x : ℕ × Bool} (hrun : debugFunction l id s = some (x, t)) : t = s := by
  rw [debugFunction] at hrun
  cases hlookup : l.maps.funcToFuncidx.lookup id with
  | some funcidx =>
    simp only [hlookup] at hrun
    exact (Prod.mk.inj (Option.some.inj hrun)).2.symm
  | none =>
    simp only [hlookup, lift_bind_eq_some] at hrun
    obtain ⟨_, -, hret⟩ := hrun
    exact (Prod.mk.inj (Option.some.inj hret)).2.symm

theorem debugTarget_image {x : ℕ × Bool × ℕ} (hrun : debugTarget l r s = some (x, t)) : t = s := by
  rw [debugTarget] at hrun
  cases htarget : r.target with
  | internal id =>
    simp only [htarget] at hrun
    obtain ⟨y, u, hlookup, hret⟩ := (bind_eq_some _ _ _ _).mp hrun
    obtain rfl := debugFunction_image hlookup
    exact (Prod.mk.inj (Option.some.inj hret)).2.symm
  | _ =>
    simp only [htarget] at hrun
    exact (Prod.mk.inj (Option.some.inj hrun)).2.symm

/-- What is done for the capture alone leaves the binary as it is. -/
theorem captured_image {m : Checked Linked α} {otherwise x : α} (hm : ∀ x s t, m s = some (x, t) → t.image = s.image)
    (hrun : l.captured m otherwise s = some (x, t)) : t.image = s.image := by
  rw [Linker.captured] at hrun
  split_ifs at hrun
  · exact hm _ _ _ hrun
  · rw [← (Prod.mk.inj (Option.some.inj hrun)).2]

theorem recordLayout_image {x : ℕ × Bool} (hrun : recordLayout l f s = some (x, t)) : t.image = s.image := by
  obtain ⟨o, u, hlookup, hret⟩ := (bind_eq_some _ _ _ _).mp hrun
  obtain rfl := debugFunction_image hlookup
  rw [← (Prod.mk.inj (Option.some.inj hret)).2]

/-- One relocation: the target is resolved, and its field is filled. -/
theorem linkReloc_eq_some {o : ℕ × Bool} (h : l.Entries) (hf : f ∈ l.codegen.functions) (hrun : linkReloc l f o r s = some ((), t)) :
    ∃ target u, relocTarget l f r s = some (target, u) ∧ r.offset + r.kind.size ≤ f.blob.code.length ∧
      t.image = u.image.write (l.entry f + r.offset) (r.fieldBytes (l.entry f + r.offset) target) := by
  obtain ⟨target, u, htarget, hrun⟩ := (bind_eq_some _ _ _ _).mp hrun
  obtain ⟨debug, v, hdebug, hrun⟩ := (bind_eq_some _ _ _ _).mp hrun
  obtain ⟨_, w, happly, hrecord⟩ := (bind_eq_some _ _ _ _).mp hrun
  have sameDebug : v.image = u.image := captured_image (fun _ _ _ h => by rw [debugTarget_image h]) hdebug
  have sameRecord : t.image = w.image := captured_image (fun _ _ _ h => by rw [← (Prod.mk.inj (Option.some.inj h)).2]) hrecord
  obtain ⟨hin, rfl⟩ := jitApplyReloc_eq_some h hf happly
  refine ⟨target, u, htarget, hin, ?_⟩
  rw [sameRecord, sameDebug]

theorem copyBytes_image (ha : bytes.length ≠ 0 → a < 2 ^ 64) (hrun : copyBytes l a bytes s = some ((), t)) :
    t.image = s.image.write a bytes := by
  rw [copyBytes] at hrun
  split_ifs at hrun with hlength
  · rw [poke_image (ha hlength) hrun]
  · obtain rfl : bytes = [] := List.length_eq_zero_iff.mp (not_not.mp hlength)
    rw [Memory.write_nil, (Prod.mk.inj (Option.some.inj hrun)).2]

/-! ### A function -/

/-- The code of `f` when the relocations `done` have been applied: their fields hold the
resolved values, and every other byte is spidir's. -/
structure Relocated (l : Linker) (f : FunctionCodegen) (done : List Reloc) (image : Memory UInt8) : Prop where
  fields : ∀ r ∈ done, ∃ target, Resolves l f r target ∧ r.offset + r.kind.size ≤ f.blob.code.length ∧
    image.load (l.entry f + r.offset) r.kind.size = some (r.fieldBytes (l.entry f + r.offset) target) ∧
    (r.kind = .abs64 → ∀ id, r.target = .internal id → Published l image id target)
  rest : ∀ i < f.blob.code.length, (∀ r ∈ done, i < r.offset ∨ r.offset + r.kind.size ≤ i) →
    image (l.entry f + i) = f.blob.code[i]?

/-- The fields of two relocations do not overlap. -/
def FieldsApart (r r' : Reloc) : Prop := r.offset + r.kind.size ≤ r'.offset ∨ r'.offset + r'.kind.size ≤ r.offset

instance : DecidableRel FieldsApart := fun r r' => by unfold FieldsApart; infer_instance

/-- The stores of others keep it. -/
theorem Relocated.kept {done : List Reloc} (hr : Relocated l f done image) (hrun : ReflTransGen (ImageStep l owner) image image')
    (h : l.Ok) (hf : f ∈ l.codegen.functions) (hne : owner ≠ some f) : Relocated l f done image' := by
  refine ⟨fun r hmem => ?_, fun i hi hout => ?_⟩
  · obtain ⟨target, htarget, hin, hfield, hpublished⟩ := hr.fields r hmem
    refine ⟨target, htarget, hin, ?_, fun hk id hid => (hpublished hk id hid).kept hrun h⟩
    rw [← hfield]
    apply Memory.load_congr
    intro i hi
    exact code_kept hrun h hf hne (by omega) (by omega)
  · rw [code_kept hrun h hf hne (by omega) (by omega)]
    exact hr.rest i hi hout

/-- One more relocation. -/
theorem linkReloc_relocated {done : List Reloc} {o : ℕ × Bool} (h : l.Ok) (hf : f ∈ l.codegen.functions)
    (hr : Relocated l f done s.image) (hapart : ∀ r' ∈ done, FieldsApart r' r) (hrun : linkReloc l f o r s = some ((), t)) :
    Relocated l f (done ++ [r]) t.image ∧ ReflTransGen (ImageStep l (some f)) s.image t.image := by
  obtain ⟨target, u, htarget, hin, himage⟩ := linkReloc_eq_some h.entries hf hrun
  obtain ⟨hresolves, hsteps, hpublished⟩ := relocTarget_eq_some h htarget
  have before := hr.kept (hsteps none) h hf (by simp)
  have length := r.length_fieldBytes (l.entry f + r.offset) target
  have store : ImageStep l (some f) u.image t.image := by
    rw [himage]
    exact .code u.image rfl hf (by omega) (by omega)
  refine ⟨⟨fun r' hmem => ?_, fun i hi hout => ?_⟩, (hsteps (some f)).tail store⟩
  · obtain hmem | rfl := (List.mem_append.mp hmem).imp_right List.mem_singleton.mp
    · obtain ⟨target', htarget', hin', hfield, hpublished'⟩ := before.fields r' hmem
      refine ⟨target', htarget', hin', ?_, fun hk id hid => (hpublished' hk id hid).kept (.single store) h⟩
      have apart := hapart r' hmem
      rw [FieldsApart] at apart
      rw [himage, Memory.load_write_of_disjoint (by omega), hfield]
    · refine ⟨target, hresolves, hin, ?_, fun hk id hid => (hpublished hk id hid).kept (.single store) h⟩
      rw [himage, ← length]
      exact Memory.load_write_self _ _ _
  · have outside := hout r (List.mem_append_right _ List.mem_cons_self)
    rw [himage, Memory.write_of_not_mem (by omega)]
    exact before.rest i hi fun r' hmem => hout r' (List.mem_append_left _ hmem)

theorem linkRelocs_relocated {relocs done : List Reloc} {o : ℕ × Bool} (h : l.Ok) (hf : f ∈ l.codegen.functions)
    (hr : Relocated l f done s.image) (hapart : (done ++ relocs).Pairwise FieldsApart)
    (hrun : relocs.forM (linkReloc l f o) s = some ((), t)) :
    Relocated l f (done ++ relocs) t.image ∧ ReflTransGen (ImageStep l (some f)) s.image t.image := by
  induction relocs generalizing done s with
  | nil =>
    obtain ⟨-, rfl⟩ := Prod.mk.inj (Option.some.inj hrun)
    rw [List.append_nil]
    exact ⟨hr, .refl⟩
  | cons r relocs ih =>
    rw [List.forM_eq_forM, List.forM_cons] at hrun
    obtain ⟨_, u, hfirst, hrest⟩ := (bind_eq_some _ _ _ _).mp hrun
    have apart := (List.pairwise_append.mp hapart).2.2
    obtain ⟨hr', hsteps⟩ := linkReloc_relocated h hf hr (fun r' hmem => apart r' hmem r List.mem_cons_self) hfirst
    rw [List.append_cons] at hapart ⊢
    obtain ⟨hr'', hsteps'⟩ := ih hr' hapart hrest
    exact ⟨hr'', hsteps.trans hsteps'⟩

/-- Linking a function leaves its code relocated, and stores on its behalf only. -/
theorem linkFunction_relocated (h : l.Ok) (hf : f ∈ l.codegen.functions) (hapart : f.blob.relocs.Pairwise FieldsApart)
    (hrun : linkFunction l f s = some ((), t)) :
    Relocated l f f.blob.relocs t.image ∧ ReflTransGen (ImageStep l (some f)) s.image t.image := by
  obtain ⟨_, s₁, hcode, hrun⟩ := (bind_eq_some _ _ _ _).mp hrun
  obtain ⟨_, s₂, hpool, hrun⟩ := (bind_eq_some _ _ _ _).mp hrun
  obtain ⟨o, s₃, howner, hrelocs⟩ := (bind_eq_some _ _ _ _).mp hrun
  obtain ⟨hstart, hstop⟩ := h.code hf
  have fits := h.fits
  have copied : s₁.image = s.image.write (l.entry f) f.blob.code := copyBytes_image (fun _ => by omega) hcode
  have pooled : s₂.image = s₁.image.write (l.rodata + f.constpoolOffset) f.blob.constpool :=
    copyBytes_image (fun hpos => by have := h.pools f hf hpos; omega) hpool
  have recorded : s₃.image = s₂.image := captured_image (fun _ _ _ => recordLayout_image) howner
  have toCode : ImageStep l (some f) s.image s₁.image := by
    rw [copied]
    exact .code s.image rfl hf (Nat.le_refl _) (Nat.le_refl _)
  have toPool (owner : Option FunctionCodegen) : ImageStep l owner s₁.image s₃.image := by
    rw [recorded, pooled]
    exact .data s₁.image _ (Nat.le_add_right _ _)
  have copiedOnly : Relocated l f [] s₁.image := by
    refine ⟨fun r hmem => absurd hmem List.not_mem_nil, fun i hi _ => ?_⟩
    rw [copied, Memory.write, if_pos (by omega), Nat.add_sub_cancel_left]
  have code : Relocated l f [] s₃.image := copiedOnly.kept (.single (toPool none)) h hf (by simp)
  obtain ⟨hr, hsteps⟩ := linkRelocs_relocated h hf code (by simpa using hapart) hrelocs
  exact ⟨hr, .head toCode (.head (toPool (some f)) hsteps)⟩

/-- Linking some functions leaves each of them relocated, and the others as they were. -/
theorem linkFunctions_relocated {fs : List FunctionCodegen} (h : l.Ok) (hfs : ∀ f ∈ fs, f ∈ l.codegen.functions) (hne : fs.Pairwise (· ≠ ·))
    (hapart : ∀ f ∈ fs, f.blob.relocs.Pairwise FieldsApart) (hrun : fs.forM (linkFunction l) s = some ((), t)) :
    (∀ f ∈ fs, Relocated l f f.blob.relocs t.image) ∧
    ∀ g ∈ l.codegen.functions, g ∉ fs → ∀ done, Relocated l g done s.image → Relocated l g done t.image := by
  induction fs generalizing s with
  | nil =>
    obtain ⟨-, rfl⟩ := Prod.mk.inj (Option.some.inj hrun)
    exact ⟨by simp, fun _ _ _ _ hr => hr⟩
  | cons f fs ih =>
    rw [List.forM_eq_forM, List.forM_cons] at hrun
    obtain ⟨_, u, hfirst, hrest⟩ := (bind_eq_some _ _ _ _).mp hrun
    obtain ⟨hother, hne'⟩ := List.pairwise_cons.mp hne
    have hf := hfs f List.mem_cons_self
    obtain ⟨hr, hsteps⟩ := linkFunction_relocated h hf (hapart f List.mem_cons_self) hfirst
    obtain ⟨hall, hkept⟩ := ih (fun g hg => hfs g (List.mem_cons_of_mem f hg)) hne' (fun g hg => hapart g (List.mem_cons_of_mem f hg)) hrest
    refine ⟨List.forall_mem_cons.mpr ⟨hkept f hf (fun hmem => hother f hmem rfl) _ hr, hall⟩, fun g hg hnot done hr' => ?_⟩
    have hgf : some f ≠ some g := fun he => hnot (Option.some.inj he ▸ List.mem_cons_self)
    exact hkept g hg (fun hmem => hnot (List.mem_cons_of_mem f hmem)) done (hr'.kept hsteps h hg hgf)

/-! ### Exports and the start function -/

/-- The address of a function: an import's own, or a published one. -/
def Addressed (l : Linker) (image : Memory UInt8) (funcidx a : ℕ) : Prop :=
  ∃ func, l.ctx.functions[funcidx]? = some func ∧ func.inited = true ∧
    (func.spidir.external = true → a = func.address) ∧ (func.spidir.external = false → Published l image func.spidir.id a)

theorem Addressed.kept {funcidx : ℕ} (ha : Addressed l image funcidx a) (hrun : ReflTransGen (ImageStep l owner) image image') (h : l.Ok) :
    Addressed l image' funcidx a := by
  obtain ⟨func, hfunc, hinit, hext, hint⟩ := ha
  exact ⟨func, hfunc, hinit, hext, fun hi => (hint hi).kept hrun h⟩

theorem jitGetFunctionAddr_eq_some {funcidx : ℕ} (h : l.Ok) (hrun : jitGetFunctionAddr l funcidx s = some (a, t)) :
    Addressed l t.image funcidx a ∧ ReflTransGen (ImageStep l none) s.image t.image := by
  simp only [jitGetFunctionAddr, lift_bind_eq_some, check_bind_eq_some] at hrun
  obtain ⟨func, hfunc, hinit, hrun⟩ := hrun
  split_ifs at hrun with hext
  · obtain ⟨rfl, rfl⟩ := Prod.mk.inj (Option.some.inj hrun)
    exact ⟨⟨func, hfunc, hinit, fun _ => rfl, fun hi => absurd (hext.symm.trans hi) (by decide)⟩, .refl⟩
  · obtain ⟨f, hf, -, -, rfl, hpublished⟩ := jitGetInternalFunctionAddr_eq_some h.entries hrun
    exact ⟨⟨func, hfunc, hinit, fun he => absurd he hext, fun _ => hpublished⟩, .single (.stub s.image hf)⟩

theorem fillExports_eq_some {es : List Wasm.WasmExport} {xs : List JitExport} (h : l.Ok) (hrun : fillExports l es s = some (xs, t)) :
    (∀ (i : ℕ) (e : Wasm.WasmExport), es[i]? = some e → e.kind = .func →
      ∃ a, xs[i]? = some (.func a) ∧ Addressed l t.image e.index a) ∧ ReflTransGen (ImageStep l none) s.image t.image := by
  induction es generalizing s xs with
  | nil =>
    obtain ⟨rfl, rfl⟩ := Prod.mk.inj (Option.some.inj hrun)
    exact ⟨by simp, .refl⟩
  | cons e es ih =>
    obtain ⟨x, u, hfirst, hrun⟩ := (bind_eq_some _ _ _ _).mp hrun
    obtain ⟨others, v, hrest, hret⟩ := (bind_eq_some _ _ _ _).mp hrun
    obtain ⟨rfl, rfl⟩ := Prod.mk.inj (Option.some.inj hret)
    obtain ⟨hothers, hsteps'⟩ := ih hrest
    obtain ⟨hx, hsteps⟩ : (e.kind = .func → ∃ a, x = .func a ∧ Addressed l u.image e.index a) ∧
        ReflTransGen (ImageStep l none) s.image u.image := by
      rw [fillExport] at hfirst
      cases hkind : e.kind with
      | func =>
        simp only [hkind] at hfirst
        obtain ⟨a, w, haddr, hret'⟩ := (bind_eq_some _ _ _ _).mp hfirst
        obtain ⟨rfl, rfl⟩ := Prod.mk.inj (Option.some.inj hret')
        obtain ⟨hin, hsteps⟩ := jitGetFunctionAddr_eq_some h haddr
        exact ⟨fun _ => ⟨a, rfl, hin⟩, hsteps⟩
      | global =>
        simp only [hkind, lift_bind_eq_some] at hfirst
        obtain ⟨_, -, hret'⟩ := hfirst
        obtain ⟨-, rfl⟩ := Prod.mk.inj (Option.some.inj hret')
        exact ⟨fun hk => absurd hk (by decide), .refl⟩
      | memory =>
        simp only [hkind] at hfirst
        obtain ⟨-, rfl⟩ := Prod.mk.inj (Option.some.inj hfirst)
        exact ⟨fun hk => absurd hk (by decide), .refl⟩
      | table =>
        simp only [hkind] at hfirst
        cases hfirst
      | tag =>
        simp only [hkind] at hfirst
        cases hfirst
    refine ⟨fun i e' he hkind => ?_, hsteps.trans hsteps'⟩
    cases i with
    | zero =>
      obtain rfl := Option.some.inj he
      obtain ⟨a, rfl, hin⟩ := hx hkind
      exact ⟨a, rfl, hin.kept hsteps' h⟩
    | succ i => exact hothers i e' he hkind

theorem jitCodegenFillFunctions_eq_some {xs : List JitExport} {start : Option ℕ} (h : l.Ok)
    (hrun : jitCodegenFillFunctions l s = some ((xs, start), t)) :
    (∀ (i : ℕ) (e : Wasm.WasmExport), l.ctx.module.exports[i]? = some e → e.kind = .func →
      ∃ a, xs[i]? = some (.func a) ∧ Addressed l t.image e.index a) ∧
    (0 ≤ l.ctx.module.startFunc → ∃ a, start = some a ∧ Addressed l t.image l.ctx.module.startFunc.toNat a) ∧
    ReflTransGen (ImageStep l none) s.image t.image := by
  obtain ⟨exports, u, hexports, hrun⟩ := (bind_eq_some _ _ _ _).mp hrun
  obtain ⟨hall, hsteps⟩ := fillExports_eq_some h hexports
  split_ifs at hrun with hstart
  · obtain ⟨a, v, haddr, hret⟩ := (bind_eq_some _ _ _ _).mp hrun
    obtain ⟨he, rfl⟩ := Prod.mk.inj (Option.some.inj hret)
    obtain ⟨rfl, rfl⟩ := Prod.mk.inj he
    obtain ⟨hin, hsteps'⟩ := jitGetFunctionAddr_eq_some h haddr
    refine ⟨fun i e he hkind => ?_, fun _ => ⟨a, rfl, hin⟩, hsteps.trans hsteps'⟩
    obtain ⟨a', hx, hin'⟩ := hall i e he hkind
    exact ⟨a', hx, hin'.kept hsteps' h⟩
  · obtain ⟨he, rfl⟩ := Prod.mk.inj (Option.some.inj hrun)
    obtain ⟨rfl, rfl⟩ := Prod.mk.inj he
    exact ⟨hall, fun h => absurd h hstart, hsteps⟩

/-! ### Tables -/

/-- The bytes of an address in a slot. -/
def slotBytes (a : ℕ) : List UInt8 := Word.toBytes 8 (BitVec.ofNat 64 a)

/-- An entry of an element segment, with the address that is published for its thunk. -/
def TableEntry (l : Linker) (image : Memory UInt8) (a : ℕ) : Prop :=
  ∃ elem ∈ l.ctx.module.elems, ∃ funcidx ∈ elem.funcs, ∃ func, l.ctx.functions[funcidx]? = some func ∧ func.hasCfi = true ∧
    Published l image func.cfiThunk a

/-- The stores that fill the tables: a slot is written after its entry was published. -/
inductive FillStep (l : Linker) : Memory UInt8 → Memory UInt8 → Prop
  | stub (image : Memory UInt8) {f : FunctionCodegen} (hf : f ∈ l.codegen.functions) :
      FillStep l image (image.write (l.entry f - 4) endbr64)
  | slot (image : Memory UInt8) (k : ℕ) {a : ℕ} (ha : TableEntry l image a) :
      FillStep l image (image.write (l.rodata + 8 * k) (slotBytes a))

/-- A slot that holds an entry. -/
def SlotFilled (l : Linker) (image : Memory UInt8) (k : ℕ) : Prop :=
  ∃ a, TableEntry l image a ∧ image.load (l.rodata + 8 * k) 8 = some (slotBytes a)

theorem FillStep.imageStep (hs : FillStep l image image') : ImageStep l none image image' := by
  cases hs with
  | stub hf => exact .stub image hf
  | slot k ha => exact .data image _ (Nat.le_add_right _ _)

theorem TableEntry.kept (ha : TableEntry l image a) (hrun : ReflTransGen (ImageStep l owner) image image') (h : l.Ok) :
    TableEntry l image' a := by
  obtain ⟨elem, helem, funcidx, hi, func, hfunc, hcfi, hp⟩ := ha
  exact ⟨elem, helem, funcidx, hi, func, hfunc, hcfi, hp.kept hrun h⟩

theorem length_slotBytes (a : ℕ) : (slotBytes a).length = 8 := Word.length_toBytes 8 _

/-- Slots are whole: another store leaves a filled slot, or fills it again. -/
theorem FillStep.filled {k : ℕ} (hs : FillStep l image image') (h : l.Ok) (hk : SlotFilled l image k) : SlotFilled l image' k := by
  obtain ⟨a, ha, hload⟩ := hk
  have entries : ∀ b, TableEntry l image b → TableEntry l image' b := fun b hb => hb.kept (.single hs.imageStep) h
  cases hs with
  | @stub f hf =>
    obtain ⟨hstart, hstop⟩ := h.code hf
    refine ⟨a, entries a ha, ?_⟩
    rw [Memory.load_write_of_disjoint (by rw [length_endbr64]; omega), hload]
  | @slot k' a' ha' =>
    by_cases hkk : k' = k
    · subst hkk
      refine ⟨a', entries a' ha', ?_⟩
      have := Memory.load_write_self image (l.rodata + 8 * k') (slotBytes a')
      rwa [length_slotBytes] at this
    · refine ⟨a, entries a ha, ?_⟩
      rw [Memory.load_write_of_disjoint (by rw [length_slotBytes]; omega), hload]

theorem slot_kept {k : ℕ} (hrun : ReflTransGen (FillStep l) image image') (h : l.Ok) (hk : SlotFilled l image k) :
    SlotFilled l image' k := by
  induction hrun with
  | refl => exact hk
  | tail _ hs ih => exact hs.filled h ih

/-- The slots from `i` on hold the entries of a segment. -/
theorem fillSlots_eq_some {slots q i : ℕ} {funcs : List ℕ} {elem : Wasm.ElemSegment} (h : l.Ok) (helem : elem ∈ l.ctx.module.elems)
    (hfuncs : ∀ x ∈ funcs, x ∈ elem.funcs) (hslots : slots = l.rodata + 8 * q)
    (hfit : l.rodata + 8 * (q + i + funcs.length) ≤ 2 ^ 64) (hrun : fillSlots l slots i funcs s = some ((), t)) :
    ReflTransGen (FillStep l) s.image t.image ∧ ∀ j < funcs.length, SlotFilled l t.image (q + i + j) := by
  induction funcs generalizing i s with
  | nil =>
    obtain ⟨-, rfl⟩ := Prod.mk.inj (Option.some.inj hrun)
    exact ⟨.refl, by simp⟩
  | cons funcidx funcs ih =>
    simp only [fillSlots, lift_bind_eq_some, check_bind_eq_some] at hrun
    obtain ⟨func, hfunc, hcfi, hrun⟩ := hrun
    obtain ⟨a, u, haddr, hrun⟩ := (bind_eq_some _ _ _ _).mp hrun
    obtain ⟨_, v, hpoke, hrest⟩ := (bind_eq_some _ _ _ _).mp hrun
    rw [List.length_cons] at hfit
    obtain ⟨f, hf, -, -, rfl, hpublished⟩ := jitGetInternalFunctionAddr_eq_some h.entries haddr
    have hmem := hfuncs funcidx List.mem_cons_self
    have entry : TableEntry l (s.image.write (l.entry f - 4) endbr64) a := ⟨elem, helem, funcidx, hmem, func, hfunc, hcfi, hpublished⟩
    have place : slots + 8 * i = l.rodata + 8 * (q + i) := by omega
    rw [place] at hpoke
    have himage := congrArg Linked.image (poke_image (by omega) hpoke)
    have store : FillStep l (s.image.write (l.entry f - 4) endbr64) v.image := by
      rw [himage]
      exact .slot _ (q + i) entry
    obtain ⟨hsteps, hall⟩ := ih (fun x hx => hfuncs x (List.mem_cons_of_mem funcidx hx)) (by omega) hrest
    have filled : SlotFilled l v.image (q + i) := by
      refine ⟨a, entry.kept (.single store.imageStep) h, ?_⟩
      have := Memory.load_write_self (s.image.write (l.entry f - 4) endbr64) (l.rodata + 8 * (q + i)) (slotBytes a)
      rw [length_slotBytes] at this
      rw [himage]
      exact this
    refine ⟨.head (.stub s.image hf) (.head store hsteps), fun j hj => ?_⟩
    cases j with
    | zero => exact slot_kept hsteps h filled
    | succ j =>
      have := hall j (by simpa using hj)
      rwa [show q + (i + 1) + j = q + i + (j + 1) by omega] at this

/-- Where the slots of a segment are: those of a used table, from the segment's offset on. -/
def SegmentFilled (l : Linker) (image : Memory UInt8) (elem : Wasm.ElemSegment) : Prop :=
  ∃ table, l.ctx.tables[elem.tableidx]? = some table ∧ (table.used = true →
    ∃ q, l.codegen.globalOffsets.lookup table.global = some (8 * q) ∧ elem.offset + elem.funcs.length ≤ table.length ∧
      ∀ j < elem.funcs.length, SlotFilled l image (q + elem.offset + j))

theorem fillElem_eq_some {elem : Wasm.ElemSegment} (h : l.Ok) (helem : elem ∈ l.ctx.module.elems)
    (hrun : fillElem l elem s = some ((), t)) : ReflTransGen (FillStep l) s.image t.image ∧ SegmentFilled l t.image elem := by
  simp only [fillElem, lift_bind_eq_some, check_bind_eq_some] at hrun
  obtain ⟨-, table, htable, hrun⟩ := hrun
  split_ifs at hrun with hused
  · simp only [lift_bind_eq_some, check_bind_eq_some] at hrun
    obtain ⟨offset, hoffset, -, hend, hrun⟩ := hrun
    obtain ⟨⟨q, rfl⟩, hle⟩ := h.tables _ _ htable hused offset hoffset
    have fits := h.fits
    obtain ⟨hsteps, hall⟩ := fillSlots_eq_some h helem (fun _ hx => hx) rfl (by omega) hrun
    exact ⟨hsteps, table, htable, fun _ => ⟨q, hoffset, hend, hall⟩⟩
  · obtain ⟨-, rfl⟩ := Prod.mk.inj (Option.some.inj hrun)
    exact ⟨.refl, table, htable, fun hu => absurd hu hused⟩

theorem fillElems_eq_some {elems : List Wasm.ElemSegment} (h : l.Ok) (helems : ∀ elem ∈ elems, elem ∈ l.ctx.module.elems)
    (hrun : elems.forM (fillElem l) s = some ((), t)) :
    ReflTransGen (FillStep l) s.image t.image ∧ ∀ elem ∈ elems, SegmentFilled l t.image elem := by
  induction elems generalizing s with
  | nil =>
    obtain ⟨-, rfl⟩ := Prod.mk.inj (Option.some.inj hrun)
    exact ⟨.refl, by simp⟩
  | cons elem elems ih =>
    rw [List.forM_eq_forM, List.forM_cons] at hrun
    obtain ⟨_, u, hfirst, hrest⟩ := (bind_eq_some _ _ _ _).mp hrun
    obtain ⟨hsteps, table, htable, hfilled⟩ := fillElem_eq_some h (helems elem List.mem_cons_self) hfirst
    obtain ⟨hsteps', hall⟩ := ih (fun e he => helems e (List.mem_cons_of_mem elem he)) hrest
    refine ⟨hsteps.trans hsteps', List.forall_mem_cons.mpr ⟨⟨table, htable, fun hu => ?_⟩, hall⟩⟩
    obtain ⟨q, hq, hend, hslots⟩ := hfilled hu
    exact ⟨q, hq, hend, fun j hj => slot_kept hsteps' h (hslots j hj)⟩

end SpidirWasm.Jit
