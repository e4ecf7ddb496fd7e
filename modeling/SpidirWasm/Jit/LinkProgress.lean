import SpidirWasm.Jit.Capture
import SpidirWasm.Jit.CodegenProgress
import SpidirWasm.Jit.TableSlots

/-! When the linker succeeds. What its lookups need is there, what it stores lies in the
binary, and the fields of PC-relative relocations reach over a binary below 2 GiB. -/

namespace SpidirWasm.Jit

open Checked
open Spidir (Word)
open Util (Hmap)
open Wasm (WasmModule FuncType Name)

/-- What a target is looked up by is known. -/
def Linker.Knows (l : Linker) : RelocTarget → Prop
  | .constpool => True
  | .global id => (l.codegen.globalOffsets.lookup id).isSome
  | .internal id => ∃ i g, l.codegen.funcToIdx.lookup id = some i ∧ l.codegen.functions[i]? = some g
  | .external id => (jitHelperLookupAddress l.host l.ctx id).isSome ∨ (l.codegen.imports.lookup id).isSome
  | .libcall kind => (l.host.resolveLibcall kind).isSome

/-- A relocation that fits in the code of its function and reaches its target. -/
structure Linkable (l : Linker) (f : FunctionCodegen) (r : Reloc) : Prop where
  knows : l.Knows r.target
  field : r.offset + r.kind.size ≤ f.blob.code.length
  near : r.kind = .pc32 → ∀ target, Resolves l f r target → -2 ^ 31 ≤ (target + r.addend - (l.entry f + r.offset : ℕ) : ℤ).bmod (2 ^ 64) ∧
    (target + r.addend - (l.entry f + r.offset : ℕ) : ℤ).bmod (2 ^ 64) ≤ 2 ^ 31 - 1

/-- What the capture looks up is known, if there is one. -/
def Linker.Owns (l : Linker) (id : ℕ) : Prop := l.captureDebug = true → (l.owner id).isSome

variable {l : Linker} {f : FunctionCodegen} {r : Reloc} {a id : ℕ} {bytes : List UInt8} {α : Type}

/-- Any state will do. -/
abbrev Succeeds (m : Checked Linked α) : Prop := Achieves (fun _ => True) m fun _ _ => True

theorem poke_succeeds (h : l.Entries) (ha : l.binary ≤ a) (hlast : a + bytes.length ≤ l.rodata + l.codegen.rodataSize) (hlength : bytes ≠ []) :
    Succeeds (poke l a bytes) := by
  have fits := h.fits
  have pos := List.length_pos_of_ne_nil hlength
  have same : sizeT a = a := sizeT_of_lt (by omega)
  intro s _
  exact ⟨(), _, poke_eq_some.mpr ⟨by rw [same]; exact ⟨ha, hlast⟩, rfl⟩, trivial⟩

theorem copyBytes_succeeds (h : l.Entries) (ha : bytes ≠ [] → l.binary ≤ a ∧ a + bytes.length ≤ l.rodata + l.codegen.rodataSize) :
    Succeeds (copyBytes l a bytes) := by
  refine .ite (fun hlength => ?_) fun _ => .pure fun _ _ => trivial
  have ne : bytes ≠ [] := fun he => hlength (by rw [he]; rfl)
  exact poke_succeeds h (ha ne).1 (ha ne).2 ne

theorem captured_succeeds {m : Checked Linked α} {otherwise : α} (hm : l.captureDebug = true → Succeeds m) : Succeeds (l.captured m otherwise) :=
  .ite hm fun _ => .pure fun _ _ => trivial

theorem jitGetIndirect_succeeds (h : l.Ok) (hf : f ∈ l.codegen.functions) : Succeeds (jitGetIndirect l (l.entry f)) := by
  obtain ⟨-, hoffset, -⟩ := h.inside f hf
  obtain ⟨-, hstop⟩ := h.code hf
  have start : l.entry f = l.binary + f.codeOffset := rfl
  refine .bind (Q := fun _ _ => True) (poke_succeeds h.entries (by omega) ?_ (by decide)) fun _ => .pure fun _ _ => trivial
  rw [length_endbr64]
  omega

theorem jitGetInternalFunctionAddr_succeeds (h : l.Ok) (hid : l.Knows (.internal id)) : Succeeds (jitGetInternalFunctionAddr l id) := by
  obtain ⟨i, g, hi, hg⟩ := hid
  exact .liftBind hi (.liftBind hg (jitGetIndirect_succeeds h (List.mem_of_getElem? hg)))

/-! ### Relocations -/

theorem relocTarget_achieves (h : l.Ok) (hr : l.Knows r.target) : Achieves (fun _ => True) (relocTarget l f r) fun target _ => Resolves l f r target := by
  have succeeds : Succeeds (relocTarget l f r) := by
    rw [relocTarget]
    cases htarget : r.target with
    | constpool => exact .pure fun _ _ => trivial
    | global id =>
      rw [htarget] at hr
      obtain ⟨offset, hoffset⟩ := Option.isSome_iff_exists.mp hr
      exact .liftBind hoffset (.pure fun _ _ => trivial)
    | internal id =>
      rw [htarget] at hr
      obtain ⟨i, g, hi, hg⟩ := hr
      refine .liftBind hi (.liftBind hg (.ite (fun _ => ?_) fun _ => .pure fun _ _ => trivial))
      exact jitGetIndirect_succeeds h (List.mem_of_getElem? hg)
    | external id =>
      rw [htarget] at hr
      cases hhelper : jitHelperLookupAddress l.host l.ctx id with
      | some address =>
        simp only [hhelper]
        exact .pure fun _ _ => trivial
      | none =>
        obtain hsome | himport := hr
        · rw [hhelper] at hsome
          cases hsome
        · obtain ⟨address, haddress⟩ := Option.isSome_iff_exists.mp himport
          simp only [hhelper]
          exact .lift (Q := fun _ _ => True) haddress fun _ _ => trivial
    | libcall kind =>
      rw [htarget] at hr
      obtain ⟨address, haddress⟩ := Option.isSome_iff_exists.mp hr
      simp only
      exact .lift (Q := fun _ _ => True) haddress fun _ _ => trivial
  intro s hs
  obtain ⟨target, t, hrun, -⟩ := succeeds s hs
  exact ⟨target, t, hrun, (relocTarget_eq_some h hrun).1⟩

theorem debugFunction_succeeds (hid : (l.owner id).isSome) : Succeeds (debugFunction l id) := by
  obtain ⟨owner, howner⟩ := Option.isSome_iff_exists.mp hid
  intro s _
  exact ⟨owner, s, by rw [debugFunction_eq, howner]; rfl, trivial⟩

theorem debugTarget_succeeds (hr : ∀ id, r.target = .internal id → (l.owner id).isSome) : Succeeds (debugTarget l r) := by
  rw [debugTarget]
  cases htarget : r.target with
  | internal id => exact .bind (debugFunction_succeeds (hr id htarget)) fun _ => .pure fun _ _ => trivial
  | _ => exact .pure fun _ _ => trivial

theorem jitApplyReloc_succeeds {target : ℕ} (h : l.Entries) (hf : f ∈ l.codegen.functions) (hr : Linkable l f r) (htarget : Resolves l f r target) :
    Succeeds (jitApplyReloc l (l.entry f) f.blob.code.length r target) := by
  obtain ⟨-, hstop⟩ := h.code f hf
  have start : l.binary ≤ l.entry f := Nat.le_add_right _ _
  have field := hr.field
  rw [jitApplyReloc]
  cases hkind : r.kind with
  | pc32 =>
    rw [hkind, RelocKind.size] at field
    refine .checkBind field (.checkBind (hr.near hkind target htarget) (poke_succeeds h (by omega) ?_ ?_))
    · rw [Word.length_toBytes]
      omega
    · exact List.ne_nil_of_length_pos (by rw [Word.length_toBytes]; decide)
  | abs64 =>
    rw [hkind, RelocKind.size] at field
    refine .checkBind field (poke_succeeds h (by omega) ?_ ?_)
    · rw [Word.length_toBytes]
      omega
    · exact List.ne_nil_of_length_pos (by rw [Word.length_toBytes]; decide)

theorem linkReloc_succeeds {o : ℕ × Bool} (h : l.Ok) (hf : f ∈ l.codegen.functions) (hr : Linkable l f r)
    (howns : ∀ id, r.target = .internal id → l.Owns id) : Succeeds (linkReloc l f o r) := by
  refine .bind (relocTarget_achieves h hr.knows) fun target s htarget => ?_
  have rest : Succeeds (do
      let debug ← l.captured (debugTarget l r) noTarget
      jitApplyReloc l (l.binary + f.codeOffset) f.blob.code.length r target
      l.captured (recordReloc l f o r target debug) ()) := by
    refine .bind (captured_succeeds fun hdebug => debugTarget_succeeds fun id hid => howns id hid hdebug) fun debug => ?_
    refine .bind (jitApplyReloc_succeeds h.entries hf hr htarget) fun _ => ?_
    exact captured_succeeds fun _ => .update fun _ _ => trivial
  exact rest s trivial

/-! ### Functions -/

/-- The constants of a function lie behind the code. -/
theorem linkFunction_succeeds (h : l.Ok) (hf : f ∈ l.codegen.functions) (howns : l.Owns f.function)
    (hrelocs : ∀ r ∈ f.blob.relocs, Linkable l f r ∧ ∀ id, r.target = .internal id → l.Owns id) : Succeeds (linkFunction l f) := by
  obtain ⟨hlow, hstop⟩ := h.code hf
  have start : l.binary ≤ l.entry f := Nat.le_add_right _ _
  have behind : l.binary ≤ l.rodata := Nat.le_add_right _ _
  refine .bind (Q := fun _ _ => True) (copyBytes_succeeds h.entries fun _ => ⟨start, hstop.trans (Nat.le_add_right _ _)⟩) fun _ => ?_
  refine .bind (Q := fun _ _ => True) (copyBytes_succeeds h.entries fun hpool => ?_) fun _ => ?_
  · have inside := h.pools f hf (fun hlength => hpool (List.length_eq_zero_iff.mp hlength))
    omega
  refine .bind (Q := fun _ _ => True) (captured_succeeds fun hdebug => ?_) fun owner => ?_
  · exact .bind (debugFunction_succeeds (howns hdebug)) fun _ => .bind (Q := fun _ _ => True) (.update fun _ _ => trivial) fun _ => .pure fun _ _ => trivial
  · exact .forMem fun r hr => linkReloc_succeeds h hf (hrelocs r hr).1 (hrelocs r hr).2

theorem jitCodegenLink_succeeds (h : l.Ok) (howns : ∀ f ∈ l.codegen.functions, l.Owns f.function)
    (hrelocs : ∀ f ∈ l.codegen.functions, ∀ r ∈ f.blob.relocs, Linkable l f r ∧ ∀ id, r.target = .internal id → l.Owns id) :
    Succeeds (jitCodegenLink l) := .forMem fun f hf => linkFunction_succeeds h hf (howns f hf) (hrelocs f hf)

/-! ### Exports, start function and tables -/

/-- The address of a function can be taken. -/
def Linker.Addresses (l : Linker) (funcidx : ℕ) : Prop := ∃ f, l.ctx.functions[funcidx]? = some f ∧ f.inited = true ∧
  (f.spidir.external = false → l.Knows (.internal f.spidir.id))

theorem jitGetFunctionAddr_succeeds {funcidx : ℕ} (h : l.Ok) (hf : l.Addresses funcidx) : Succeeds (jitGetFunctionAddr l funcidx) := by
  obtain ⟨f, hf, hinit, hknows⟩ := hf
  refine .liftBind hf (.checkBind hinit (.ite (fun _ => .pure fun _ _ => trivial) fun hext => ?_))
  exact jitGetInternalFunctionAddr_succeeds h (hknows (Bool.eq_false_iff.mpr hext))

theorem fillExports_succeeds {exports : List Wasm.WasmExport} (h : l.Ok) (hkinds : ∀ e ∈ exports, e.kind = .func ∨ e.kind = .memory ∨ e.kind = .global)
    (hfuncs : ∀ e ∈ exports, e.kind = .func → l.Addresses e.index)
    (hglobals : ∀ e ∈ exports, e.kind = .global → e.index < l.ctx.globals.length) : Succeeds (fillExports l exports) := by
  induction exports with
  | nil => exact .pure fun _ _ => trivial
  | cons e exports ih =>
    have first : Succeeds (fillExport l e) := by
      rw [fillExport]
      obtain hkind | hkind | hkind := hkinds e List.mem_cons_self
      · rw [hkind]
        exact .bind (jitGetFunctionAddr_succeeds h (hfuncs e List.mem_cons_self hkind)) fun _ => .pure fun _ _ => trivial
      · rw [hkind]
        exact .pure fun _ _ => trivial
      · rw [hkind]
        have found := List.getElem?_eq_getElem (hglobals e List.mem_cons_self hkind)
        exact .liftBind found (.pure fun _ _ => trivial)
    refine .bind first fun _ => .bind (Q := fun _ _ => True) ?_ fun _ => .pure fun _ _ => trivial
    exact ih (fun e he => hkinds e (List.mem_cons_of_mem _ he)) (fun e he => hfuncs e (List.mem_cons_of_mem _ he))
      fun e he => hglobals e (List.mem_cons_of_mem _ he)

theorem jitCodegenFillFunctions_succeeds (h : l.Ok)
    (hexports : Succeeds (fillExports l l.ctx.module.exports)) (hstart : 0 ≤ l.ctx.module.startFunc → l.Addresses l.ctx.module.startFunc.toNat) :
    Succeeds (jitCodegenFillFunctions l) := by
  refine .bind hexports fun exports => .ite (fun hs => ?_) fun _ => .pure fun _ _ => trivial
  exact .bind (jitGetFunctionAddr_succeeds h (hstart hs)) fun _ => .pure fun _ _ => trivial

/-- The thunk of a function that a segment lists is known. -/
def Linker.Thunks (l : Linker) (funcidx : ℕ) : Prop :=
  ∃ f, l.ctx.functions[funcidx]? = some f ∧ f.hasCfi = true ∧ l.Knows (.internal f.cfiThunk)

theorem fillSlots_succeeds {slots i : ℕ} {funcs : List ℕ} (h : l.Ok) (hfuncs : ∀ j ∈ funcs, l.Thunks j) (hslots : l.binary ≤ slots)
    (hlast : slots + 8 * (i + funcs.length) ≤ l.rodata + l.codegen.rodataSize) : Succeeds (fillSlots l slots i funcs) := by
  induction funcs generalizing i with
  | nil => exact .pure fun _ _ => trivial
  | cons funcidx funcs ih =>
    obtain ⟨⟨f, hf, hcfi, hknows⟩, hrest⟩ := List.forall_mem_cons.mp hfuncs
    rw [List.length_cons] at hlast
    refine .liftBind hf (.checkBind hcfi (.bind (jitGetInternalFunctionAddr_succeeds h hknows) fun address => ?_))
    refine .bind (Q := fun _ _ => True) (poke_succeeds h.entries (by omega) ?_ ?_) fun _ => ih hrest (by omega)
    · rw [Word.length_toBytes]
      omega
    · exact List.ne_nil_of_length_pos (by rw [Word.length_toBytes]; decide)

/-- A segment that fits is stored. -/
theorem fillElem_succeeds {elem : Wasm.ElemSegment} (h : l.Ok) (hfits : SegmentFits l.ctx elem)
    (hcount : l.ctx.tables.length = l.ctx.module.tables.length) (hoffsets : ∀ (i : ℕ) (t : JitTable), l.ctx.tables[i]? = some t →
      t.used = true → (l.codegen.globalOffsets.lookup t.global).isSome) (hthunks : ∀ j ∈ elem.funcs, l.Thunks j) : Succeeds (fillElem l elem) := by
  obtain ⟨hindex, hend⟩ := hfits
  have htable := List.getElem?_eq_getElem (hcount ▸ hindex)
  refine .checkBind hindex (.liftBind htable (.ite (fun hused => ?_) fun _ => .pure fun _ _ => trivial))
  obtain ⟨offset, hoffset⟩ := Option.isSome_iff_exists.mp (hoffsets _ _ htable hused)
  have fits := h.fits
  have stop := (h.tables _ _ htable hused offset hoffset).2
  have last := hend _ htable hused
  refine .liftBind hoffset (.checkBind (by omega) (.checkBind last (fillSlots_succeeds h hthunks ?_ (by omega))))
  exact (Nat.le_add_right _ _).trans (Nat.le_add_right _ _)

end SpidirWasm.Jit
