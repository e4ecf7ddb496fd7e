import SpidirWasm.Jit.LinkRuns

/-! What the capture records. Behind a link there is one layout for every function that was
emitted and one record for every relocation, in the order of the functions and of their
relocations. -/

namespace SpidirWasm.Jit

open Checked
open Wasm (WasmModule FuncType Name)

variable {l : Linker} {f : FunctionCodegen} {r : Reloc} {s t : Linked} {α : Type}

/-- The function that an id stands for, and whether it is its thunk, as the maps have it. -/
def Linker.owner (l : Linker) (id : ℕ) : Option (ℕ × Bool) :=
  match l.maps.funcToFuncidx.lookup id with
  | some funcidx => some (funcidx, false)
  | none => (l.maps.cfiToFuncidx.lookup id).map (·, true)

theorem Linker.owner_of_func {id funcidx : ℕ} (h : l.maps.funcToFuncidx.lookup id = some funcidx) :
    l.owner id = some (funcidx, false) := by
  rw [Linker.owner, h]

theorem debugFunction_eq (l : Linker) (id : ℕ) (s : Linked) : debugFunction l id s = (l.owner id).map (·, s) := by
  rw [debugFunction, Linker.owner]
  cases l.maps.funcToFuncidx.lookup id with
  | some funcidx => rfl
  | none => cases l.maps.cfiToFuncidx.lookup id <;> rfl

/-- The layout that is recorded of a function. -/
structure LayoutOf (l : Linker) (f : FunctionCodegen) (fl : FuncLayout) : Prop where
  owner : ∃ funcidx, l.owner f.function = some (funcidx, fl.cfiThunk) ∧ fl.funcidx = uint32 funcidx
  address : fl.address = l.entry f
  codeSize : fl.codeSize = f.blob.code.length

/-- The record of a relocation of a function. -/
structure RecordOf (l : Linker) (p : FunctionCodegen × Reloc) (e : JitReloc) : Prop where
  target : ∃ s t, relocTarget l p.1 p.2 s = some (e.targetAddress, t)
  address : e.address = l.entry p.1 + p.2.offset
  addend : e.addend = p.2.addend
  kind : e.kind = p.2.kind
  targetKind : e.targetKind = p.2.target.kind

/-- What an absolute relocation is linked to. -/
def JitReloc.linked (e : JitReloc) : BitVec 64 := .ofInt 64 (e.targetAddress + e.addend)

/-- The relocation was applied against the target that is recorded. -/
def AppliedAs (l : Linker) (p : FunctionCodegen × Reloc) (e : JitReloc) : Prop :=
  ∃ s t, jitApplyReloc l (l.entry p.1) p.1.blob.code.length p.2 e.targetAddress s = some ((), t)

/-- The relocations of some functions. -/
def relocsOf (fs : List FunctionCodegen) : List (FunctionCodegen × Reloc) := fs.flatMap fun f => f.blob.relocs.map (f, ·)

/-- The records of some functions. -/
structure Captured (l : Linker) (fs : List FunctionCodegen) (funcs : List FuncLayout) (relocs : List JitReloc) : Prop where
  layouts : List.Forall₂ (LayoutOf l) fs funcs
  records : List.Forall₂ (RecordOf l) (relocsOf fs) relocs

/-! ### One function -/

/-- What is recorded. -/
def Linked.records (s : Linked) : List FuncLayout × List JitReloc := (s.funcs, s.relocs)

/-- A program that records nothing. -/
abbrev Unrecorded (m : Checked Linked α) : Prop := Moves (fun _ _ => False) Linked.records m

instance (l : Linker) (address : ℕ) (bytes : List UInt8) : Unrecorded (poke l address bytes) := by
  have image : Unrecorded (update fun s => { s with image := s.image.write (sizeT address) bytes }) := .still fun s _ t h => by
    obtain ⟨-, rfl⟩ := Prod.mk.inj (Option.some.inj h)
    rfl
  unfold poke
  infer_instance

instance (l : Linker) (func : ℕ) : Unrecorded (jitGetIndirect l func) := by unfold jitGetIndirect; infer_instance

instance (l : Linker) (f : FunctionCodegen) (r : Reloc) : Unrecorded (relocTarget l f r) := by
  unfold relocTarget
  split
  case h_4 => split <;> infer_instance
  all_goals infer_instance

instance (l : Linker) (code codeSize : ℕ) (r : Reloc) (target : ℕ) : Unrecorded (jitApplyReloc l code codeSize r target) := by
  unfold jitApplyReloc
  split <;> infer_instance

instance (l : Linker) (address : ℕ) (bytes : List UInt8) : Unrecorded (copyBytes l address bytes) := by unfold copyBytes; infer_instance

theorem captured_eq (hcapture : l.captureDebug = true) (m : Checked Linked α) (otherwise : α) : l.captured m otherwise = m := if_pos hcapture

/-- One relocation is recorded once. -/
theorem linkReloc_recorded {owner : ℕ × Bool} (hcapture : l.captureDebug = true) (hrun : linkReloc l f owner r s = some ((), t)) :
    ∃ e, t.funcs = s.funcs ∧ t.relocs = s.relocs ++ [e] ∧ RecordOf l (f, r) e ∧ AppliedAs l (f, r) e := by
  simp only [linkReloc, captured_eq hcapture] at hrun
  obtain ⟨target, s₁, htarget, hrun⟩ := (bind_eq_some _ _ _ _).mp hrun
  obtain ⟨debug, s₂, hdebug, hrun⟩ := (bind_eq_some _ _ _ _).mp hrun
  obtain ⟨_, s₃, happly, hrecord⟩ := (bind_eq_some _ _ _ _).mp hrun
  have targetStill : s₁.records = s.records := Moves.same inferInstance htarget
  obtain rfl := debugTarget_image hdebug
  have applyStill : s₃.records = s₂.records := Moves.same inferInstance happly
  obtain ⟨hfuncs, hrelocs⟩ := Prod.mk.inj (applyStill.trans targetStill)
  obtain ⟨-, rfl⟩ := Prod.mk.inj (Option.some.inj hrecord)
  refine ⟨_, hfuncs, congrArg (· ++ [_]) hrelocs, ⟨⟨s, s₂, htarget⟩, rfl, rfl, rfl, rfl⟩, s₂, s₃, happly⟩

theorem linkRelocs_recorded {relocs : List Reloc} {owner : ℕ × Bool} (hcapture : l.captureDebug = true)
    (hrun : relocs.forM (linkReloc l f owner) s = some ((), t)) :
    ∃ es, t.funcs = s.funcs ∧ t.relocs = s.relocs ++ es ∧
      List.Forall₂ (fun p e => RecordOf l p e ∧ AppliedAs l p e) (relocs.map (f, ·)) es := by
  induction relocs generalizing s with
  | nil =>
    obtain ⟨-, rfl⟩ := Prod.mk.inj (Option.some.inj hrun)
    exact ⟨[], rfl, (List.append_nil _).symm, .nil⟩
  | cons r relocs ih =>
    rw [List.forM_eq_forM, List.forM_cons] at hrun
    obtain ⟨_, u, hfirst, hrest⟩ := (bind_eq_some _ _ _ _).mp hrun
    obtain ⟨e, hfuncs, hrelocs, he⟩ := linkReloc_recorded hcapture hfirst
    obtain ⟨es, hfuncs', hrelocs', hes⟩ := ih hrest
    exact ⟨e :: es, hfuncs'.trans hfuncs, by rw [hrelocs', hrelocs, List.append_assoc, List.singleton_append], .cons he hes⟩

theorem recordLayout_recorded {owner : ℕ × Bool} (hrun : recordLayout l f s = some (owner, t)) :
    ∃ fl, t.funcs = s.funcs ++ [fl] ∧ t.relocs = s.relocs ∧ LayoutOf l f fl := by
  obtain ⟨o, u, howner, hrun⟩ := (bind_eq_some _ _ _ _).mp hrun
  rw [debugFunction_eq] at howner
  obtain ⟨_, ho', he⟩ := Option.map_eq_some_iff.mp howner
  obtain ⟨rfl, rfl⟩ := Prod.mk.inj he
  obtain ⟨rfl, rfl⟩ := Prod.mk.inj (Option.some.inj hrun)
  exact ⟨_, rfl, rfl, ⟨_, ho', rfl⟩, rfl, rfl⟩

/-- One function gets a layout and the records of its relocations. -/
theorem linkFunction_recorded (hcapture : l.captureDebug = true) (hrun : linkFunction l f s = some ((), t)) :
    ∃ fl es, t.funcs = s.funcs ++ [fl] ∧ t.relocs = s.relocs ++ es ∧ LayoutOf l f fl ∧
      List.Forall₂ (fun p e => RecordOf l p e ∧ AppliedAs l p e) (f.blob.relocs.map (f, ·)) es := by
  simp only [linkFunction, captured_eq hcapture] at hrun
  obtain ⟨_, s₁, hcode, hrun⟩ := (bind_eq_some _ _ _ _).mp hrun
  obtain ⟨_, s₂, hpool, hrun⟩ := (bind_eq_some _ _ _ _).mp hrun
  obtain ⟨owner, s₃, howner, hrelocs⟩ := (bind_eq_some _ _ _ _).mp hrun
  have codeStill : s₁.records = s.records := Moves.same inferInstance hcode
  have poolStill : s₂.records = s₁.records := Moves.same inferInstance hpool
  obtain ⟨hfuncs₂, hrelocs₂⟩ := Prod.mk.inj (poolStill.trans codeStill)
  obtain ⟨fl, hfuncs₃, hrelocs₃, hfl⟩ := recordLayout_recorded howner
  obtain ⟨es, hfuncs, hrelocs, hes⟩ := linkRelocs_recorded hcapture hrelocs
  exact ⟨fl, es, by rw [hfuncs, hfuncs₃, hfuncs₂], by rw [hrelocs, hrelocs₃, hrelocs₂], hfl, hes⟩

/-! ### A module -/

theorem linkFunctions_recorded {fs : List FunctionCodegen} (hcapture : l.captureDebug = true)
    (hrun : fs.forM (linkFunction l) s = some ((), t)) :
    ∃ funcs relocs, t.funcs = s.funcs ++ funcs ∧ t.relocs = s.relocs ++ relocs ∧ List.Forall₂ (LayoutOf l) fs funcs ∧
      List.Forall₂ (fun p e => RecordOf l p e ∧ AppliedAs l p e) (relocsOf fs) relocs := by
  induction fs generalizing s with
  | nil =>
    obtain ⟨-, rfl⟩ := Prod.mk.inj (Option.some.inj hrun)
    exact ⟨[], [], (List.append_nil _).symm, (List.append_nil _).symm, .nil, .nil⟩
  | cons f fs ih =>
    rw [List.forM_eq_forM, List.forM_cons] at hrun
    obtain ⟨_, u, hfirst, hrest⟩ := (bind_eq_some _ _ _ _).mp hrun
    obtain ⟨fl, es, hfuncs, hrelocs, hfl, hes⟩ := linkFunction_recorded hcapture hfirst
    obtain ⟨funcs, relocs, hfuncs', hrelocs', hlayouts, hrecords⟩ := ih hrest
    refine ⟨fl :: funcs, es ++ relocs, ?_, ?_, .cons hfl hlayouts, List.rel_append hes hrecords⟩
    · rw [hfuncs', hfuncs, List.append_assoc, List.singleton_append]
    · rw [hrelocs', hrelocs, List.append_assoc]

variable {host : JitHost} {emitter : Emitter} {ctx : JitContext} {fuel : ℕ} {jit : WasmModuleJit}

/-- The linker of a capture. -/
def captureLinker (host : JitHost) (ctx : JitContext) (cg : Codegen) (binary : ℕ) (maps : DebugMaps) : Linker :=
  { jitLinker host ctx cg binary with captureDebug := true, maps }

/-- The debug info of a module: the records of its functions, and where its code and its
constants are. -/
structure CapturedInfo (host : JitHost) (ctx : JitContext) (cg : Codegen) (maps : DebugMaps) (jit : WasmModuleJit) : Prop where
  records : Captured (captureLinker host ctx cg jit.binary maps) cg.functions jit.debug.funcs jit.debug.relocs
  codeBase : jit.debug.codeBase = jit.binary
  codeSize : jit.debug.codeSize = cg.codeSize
  rodataBase : jit.debug.rodataBase = (jitLinker host ctx cg jit.binary).rodata
  rodataSize : jit.debug.rodataSize = cg.rodataSize

theorem jitCodegen_recorded (hjit : jitCodegen host emitter true fuel ctx = some jit) :
    ∃ maps cg, jitCodegenPrepareDebugMaps ctx = some maps ∧ codegenAll emitter ctx fuel {} = some ((), cg) ∧
      CapturedInfo host ctx cg maps jit ∧
      List.Forall₂ (fun p e => RecordOf (captureLinker host ctx cg jit.binary maps) p e ∧
        AppliedAs (captureLinker host ctx cg jit.binary maps) p e) (relocsOf cg.functions) jit.debug.relocs := by
  simp only [jitCodegen, Option.bind_eq_bind, Option.pure_def, Option.bind_eq_some_iff, Option.some.injEq] at hjit
  obtain ⟨maps, hmaps, ⟨_, cg⟩, hcg, binary, -, ⟨_, s⟩, hlink, ⟨⟨exports, start⟩, t⟩, -, ⟨_, u⟩, -, _, -, rfl⟩ := hjit
  obtain ⟨funcs, relocs, hfuncs, hrelocs, hlayouts, hrecords⟩ := linkFunctions_recorded (l := captureLinker host ctx cg binary maps) rfl hlink
  rw [List.nil_append] at hfuncs hrelocs
  rw [← hfuncs] at hlayouts
  rw [← hrelocs] at hrecords
  exact ⟨maps, cg, hmaps, hcg, ⟨⟨hlayouts, hrecords.imp fun _ _ h => h.1⟩, rfl, rfl, rfl, rfl⟩, hrecords⟩

theorem jitCodegen_captured (hjit : jitCodegen host emitter true fuel ctx = some jit) :
    ∃ maps cg, jitCodegenPrepareDebugMaps ctx = some maps ∧ codegenAll emitter ctx fuel {} = some ((), cg) ∧
      CapturedInfo host ctx cg maps jit := by
  obtain ⟨maps, cg, hmaps, hcg, hinfo, -⟩ := jitCodegen_recorded hjit
  exact ⟨maps, cg, hmaps, hcg, hinfo⟩

end SpidirWasm.Jit
