import SpidirWasm.Wasm.FunctionNames
import SpidirWasm.Wasm.SectionOrder
import SpidirWasm.Wasm.Sections

/-! Custom sections. What the other sections make of a module does not depend on its
names, so a custom section behind the function section can only change those; it can
still stop the load, when it is a `name` section that is not well formed, and leave the
array of function names when that is too short. -/

namespace SpidirWasm.Wasm

open Keeping

/-! ### Parsers that do not see names -/

/-- Other names in a module. -/
def WasmModule.rename (mn : Option Name) (fn : Option (List (Option Name))) (m : WasmModule) : WasmModule :=
  { m with moduleName := mn, functionNames := fn }

/-- A parser that neither reads nor writes names. -/
def Nameless {α : Type} (x : Load α) : Prop := ∀ mn fn, Commutes (fun s => { s with module := s.module.rename mn fn }) x

namespace Nameless

variable {α β : Type} {x y : Load α} {f : α → Load β}

theorem pure (a : α) : Nameless (Pure.pure a) := fun _ _ => .pure a

theorem fail : Nameless (Keeping.fail : Load α) := fun _ _ => .fail

theorem check (p : Prop) [Decidable p] : Nameless (Keeping.check p) := fun _ _ => .check p

theorem lift (o : Option α) : Nameless (Keeping.lift o : Load α) := fun _ _ => .lift o

theorem bind (hx : Nameless x) (hf : ∀ a, Nameless (f a)) : Nameless (x >>= f) := fun mn fn => .bind (hx mn fn) fun a => hf a mn fn

theorem ite {p : Prop} [Decidable p] (hx : Nameless x) (hy : Nameless y) : Nameless (if p then x else y) :=
  fun mn fn => .ite (hx mn fn) (hy mn fn)

theorem forInt {f : ℕ → Load Unit} (h : ∀ i, Nameless (f i)) (n : ℕ) : Nameless (Keeping.forInt f 0 n) :=
  fun mn fn => .forInt (fun i => h i mn fn) 0 n

theorem collectInt (h : Nameless x) (n : ℕ) : Nameless (Keeping.collectInt x 0 n) := fun mn fn => .collectInt (h mn fn) 0 n

theorem pull (m : Pull α) : Nameless (Load.pull m) := fun _ _ =>
  .readThen (fun _ => rfl) fun _ => .bind (.lift _) fun _ => .bind (.update fun _ => rfl) fun _ => .pure _

theorem lenThen {f : ℕ → Load β} (hf : ∀ n, Nameless (f n)) : Nameless (Load.len >>= f) :=
  fun mn fn => .readThen (fun _ => rfl) fun n => hf n mn fn

/-- What is done with the module does not depend on its names. -/
theorem moduleThen {f : WasmModule → Load β} (h : ∀ m mn fn, f (m.rename mn fn) = f m) (hf : ∀ m, Nameless (f m)) :
    Nameless (Load.module >>= f) :=
  fun mn fn => .readThen (fun s => h s.module mn fn) fun m => hf m mn fn

theorem modify {f : WasmModule → WasmModule} (h : ∀ m mn fn, f (m.rename mn fn) = (f m).rename mn fn) : Nameless (Load.modify f) :=
  fun mn fn => .update fun s => by rw [h]

theorem atEnd : Nameless Load.atEnd := lenThen fun _ => check _

end Nameless

open Nameless

theorem wasmPullResultType_nameless : Nameless wasmPullResultType :=
  .bind (.pull _) fun _ => .lenThen fun _ => .bind (.check _) fun _ => .collectInt (.pull _) _

/-- The frame of an array section: a count, the array, its entries. -/
theorem entries_nameless {f : WasmModule → WasmModule} {entry : ℕ → Load Unit} {n : ℕ}
    (h : ∀ m mn fn, f (m.rename mn fn) = (f m).rename mn fn) (hentry : ∀ i, Nameless (entry i)) :
    Nameless (do
      Load.modify f
      Keeping.forInt entry 0 n
      Load.atEnd) :=
  .bind (.modify h) fun _ => .bind (.forInt hentry n) fun _ => .atEnd

theorem wasmParseTypeSection_nameless : Nameless wasmParseTypeSection := by
  refine .bind (.pull _) fun _ => .lenThen fun _ => .bind (.check _) fun _ => entries_nameless (fun _ _ _ => rfl) fun i => ?_
  refine .bind (.pull _) fun _ => .bind (.check _) fun _ => ?_
  exact .bind wasmPullResultType_nameless fun _ => .bind (.modify fun _ _ _ => rfl) fun _ =>
    .bind wasmPullResultType_nameless fun _ => .modify fun _ _ _ => rfl

theorem pullItemName_nameless : Nameless pullItemName := .bind (.pull _) fun _ => .bind (.check _) fun _ => .pure _

theorem wasmParseImportSection_nameless : Nameless wasmParseImportSection := by
  refine .bind (.pull _) fun _ => .lenThen fun _ => .bind (.check _) fun _ => entries_nameless (fun _ _ _ => rfl) fun i => ?_
  refine .bind pullItemName_nameless fun _ => .bind pullItemName_nameless fun _ => .bind (.pull _) fun _ => .bind (.pull _) fun _ => ?_
  exact .bind (.check _) fun _ => .moduleThen (fun _ _ _ => rfl) fun _ => .bind (.check _) fun _ => .modify fun _ _ _ => rfl

theorem wasmParseFunctionSection_nameless : Nameless wasmParseFunctionSection := by
  refine .bind (.pull _) fun _ => .lenThen fun _ => .bind (.check _) fun _ => entries_nameless (fun _ _ _ => rfl) fun i => ?_
  exact .bind (.pull _) fun _ => .moduleThen (fun _ _ _ => rfl) fun _ => .bind (.check _) fun _ => .modify fun _ _ _ => rfl

theorem pullMemoryLimits_nameless : Nameless pullMemoryLimits := by
  refine .bind (.pull _) fun _ => .ite ?_ (.ite ?_ (.ite ?_ .fail))
  · exact .bind (.pull _) fun _ => .modify fun _ _ _ => rfl
  · exact .bind (.pull _) fun _ => .bind (.pull _) fun _ => .modify fun _ _ _ => rfl
  · exact .bind (.pull _) fun _ => .bind (.pull _) fun _ => .modify fun _ _ _ => rfl

theorem wasmParseMemorySection_nameless : Nameless wasmParseMemorySection := by
  refine .bind (.pull _) fun _ => .bind (.check _) fun _ => .bind pullMemoryLimits_nameless fun _ => ?_
  refine .moduleThen (fun m mn fn => ?_) fun _ => .bind (.check _) fun _ => .bind (.check _) fun _ => .bind (.check _) fun _ => ?_
  · have same : (m.rename mn fn).memory = m.memory := rfl
    rw [same]
  · exact .bind (.modify fun _ _ _ => rfl) fun _ => .bind (.check _) fun _ => .bind (.check _) fun _ => .atEnd

theorem pullConstant_nameless (opcode : ℕ) : Nameless (pullConstant opcode) := by
  unfold pullConstant
  split
  all_goals first
    | exact .fail
    | exact .bind (.pull _) fun _ => .pure _

theorem wasmParseConstantExpr_nameless : Nameless wasmParseConstantExpr :=
  .bind (.pull _) fun _ => .bind (pullConstant_nameless _) fun _ => .bind (.pull _) fun _ => .bind (.check _) fun _ => .pure _

theorem wasmParseGlobalSection_nameless : Nameless wasmParseGlobalSection := by
  refine .bind (.pull _) fun _ => .lenThen fun _ => .bind (.check _) fun _ => entries_nameless (fun _ _ _ => rfl) fun i => ?_
  refine .bind (.pull _) fun _ => .bind (.pull _) fun _ => .bind (.check _) fun _ => ?_
  exact .bind wasmParseConstantExpr_nameless fun _ => .bind (.check _) fun _ => .modify fun _ _ _ => rfl

theorem pullTableLimits_nameless : Nameless pullTableLimits :=
  .bind (.pull _) fun _ => .ite (.bind (.pull _) fun _ => .pure _)
    (.ite (.bind (.pull _) fun _ => .bind (.pull _) fun _ => .pure _) .fail)

theorem wasmParseTableSection_nameless : Nameless wasmParseTableSection := by
  refine .bind (.pull _) fun _ => .lenThen fun _ => .bind (.check _) fun _ => entries_nameless (fun _ _ _ => rfl) fun i => ?_
  refine .bind (.pull _) fun _ => .bind (.check _) fun _ => .bind pullTableLimits_nameless fun _ => ?_
  exact .bind (.modify fun _ _ _ => rfl) fun _ => .check _

theorem pullFuncIndices_nameless (n : ℕ) : Nameless (pullFuncIndices n) := by
  refine .collectInt ?_ n
  exact .bind (.pull _) fun _ => .moduleThen (fun _ _ _ => rfl) fun _ => .bind (.check _) fun _ => .pure _

theorem wasmParseElementSection_nameless : Nameless wasmParseElementSection := by
  refine .bind (.pull _) fun _ => .lenThen fun _ => .bind (.check _) fun _ => entries_nameless (fun _ _ _ => rfl) fun i => ?_
  refine .bind (.pull _) fun _ => .bind (.check _) fun _ => .bind wasmParseConstantExpr_nameless fun _ => .bind (.check _) fun _ => ?_
  refine .bind (.pull _) fun _ => .lenThen fun _ => .bind (.check _) fun _ => .bind (pullFuncIndices_nameless _) fun _ => ?_
  exact .modify fun _ _ _ => rfl

theorem wasmParseDataSection_nameless : Nameless wasmParseDataSection := by
  refine .bind (.pull _) fun _ => .lenThen fun _ => .bind (.check _) fun _ => entries_nameless (fun _ _ _ => rfl) fun i => ?_
  refine .bind (.pull _) fun _ => .ite ?_ (.ite ?_ .fail)
  · refine .bind wasmParseConstantExpr_nameless fun _ => .bind (.check _) fun _ => .bind (.pull _) fun _ => .bind (.pull _) fun _ => ?_
    exact .modify fun _ _ _ => rfl
  · exact .bind (.pull _) fun _ => .bind (.pull _) fun _ => .modify fun _ _ _ => rfl

theorem exportKind_nameless (byte : UInt8) (index : ℕ) : Nameless (exportKind byte index) :=
  .moduleThen (fun _ _ _ => rfl) fun _ => .ite (.bind (.check _) fun _ => .pure _)
    (.ite (.bind (.check _) fun _ => .pure _) (.ite (.bind (.check _) fun _ => .pure _) .fail))

theorem wasmParseExportSection_nameless : Nameless wasmParseExportSection := by
  refine .bind (.pull _) fun _ => .lenThen fun _ => .bind (.check _) fun _ => entries_nameless (fun _ _ _ => rfl) fun i => ?_
  refine .bind pullItemName_nameless fun _ => .bind (.pull _) fun _ => .bind (.pull _) fun _ => ?_
  exact .bind (exportKind_nameless _ _) fun _ => .modify fun _ _ _ => rfl

theorem startTypeidx_nameless (m : WasmModule) (index : ℕ) : Nameless (startTypeidx m index) :=
  .ite (.bind (.lift _) fun _ => .bind (.check _) fun _ => .pure _) (.lift _)

theorem wasmParseStartSection_nameless : Nameless wasmParseStartSection := by
  refine .bind (.pull _) fun _ => .bind (.modify fun _ _ _ => rfl) fun _ => .bind .atEnd fun _ => .moduleThen (fun _ _ _ => rfl) fun m => ?_
  refine .bind (.check _) fun _ => .bind (startTypeidx_nameless m _) fun _ => .bind (.lift _) fun _ => ?_
  exact .bind (.check _) fun _ => .check _

theorem wasmParseCodeSection_nameless : Nameless wasmParseCodeSection := by
  refine .bind (.pull _) fun _ => .moduleThen (fun _ _ _ => rfl) fun _ => .bind (.check _) fun _ => ?_
  refine entries_nameless (fun _ _ _ => rfl) fun i => ?_
  exact .bind (.pull _) fun _ => .bind (.pull _) fun _ => .modify fun _ _ _ => rfl

/-- Only custom sections have to do with names. -/
theorem wasmParseSection_nameless {id : ℕ} (hid : id ≠ 0) : Nameless (wasmParseSection id) := by
  unfold wasmParseSection
  split
  · exact absurd rfl hid
  · exact wasmParseTypeSection_nameless
  · exact wasmParseImportSection_nameless
  · exact wasmParseFunctionSection_nameless
  · exact wasmParseTableSection_nameless
  · exact wasmParseMemorySection_nameless
  · exact wasmParseGlobalSection_nameless
  · exact wasmParseExportSection_nameless
  · exact wasmParseStartSection_nameless
  · exact wasmParseElementSection_nameless
  · exact wasmParseCodeSection_nameless
  · exact wasmParseDataSection_nameless
  · exact .pure _
  · exact .fail

/-! ### Well-formed `name` sections -/

/-- A name of this function is dropped, or has its place in the array, if there is one. -/
def WasmModule.nameFits (m : WasmModule) (funcidx : ℕ) : Bool :=
  decide (funcidx < m.totalFuncs → ∀ len ∈ m.functionNames.map List.length, funcidx < len)

/-- `n` pairs of a function index and a name; `fits` tells the indices that have their place. -/
def namePairs (fits : ℕ → Bool) : ℕ → Pull Unit
  | 0 => pure ()
  | n + 1 => do
    let funcidx ← bufferPullU32
    let _ ← bufferPullName
    Checked.check (fits funcidx = true)
    namePairs fits n

/-- Whether the module has a name behind a subsection, or `none` for a malformed one.
A module that has one already does not look at another. -/
def checkSubsection (fits : ℕ → Bool) (named : Bool) (id : UInt8) (contents : List UInt8) : Option Bool :=
  if id = 0 then
    if named then some true else (bufferPullName ⟨0, contents⟩).map fun r => decide (r.1.length ≠ 0)
  else if id = 1 then ((bufferPullU32 >>= namePairs fits) ⟨0, contents⟩).map fun _ => named
  else some named

/-- The next subsection of a `name` section: its id, its size and its contents. -/
def checkNext (fits : ℕ → Bool) (named : Bool) (b : Buffer) : Option (Bool × Buffer) := do
  let (id, b) ← bufferPullU8 b
  let (size, b) ← bufferPullU32 b
  let (contents, b) ← bufferPull size b
  (checkSubsection fits named id contents).map (·, b)

/-- All subsections of a `name` section. -/
def checkNames (fits : ℕ → Bool) : (fuel : ℕ) → (named : Bool) → Buffer → Option Bool
  | 0, named, _ => some named
  | fuel + 1, named, b =>
    if b.data.length = 0 then some named
    else (checkNext fits named b).bind fun r => checkNames fits fuel r.1 r.2

/-- A payload whose subsections can all be read, up to the module name of a module that
is named already, and whose function names do not leave the array that is there. -/
def nameSubsectionsOk (m : WasmModule) (payload : Buffer) : Bool :=
  (checkNames m.nameFits payload.data.length m.moduleName.isSome payload).isSome

theorem nameSectionCopyStr_eq (b : Buffer) : nameSectionCopyStr b =
    (bufferPullName b).map fun r => (if r.1.length = 0 then none else some r.1, r.2) := by
  rw [nameSectionCopyStr, Checked.bind_apply]
  cases bufferPullName b <;> rfl

/-- Where the names have their place depends on lengths only. -/
theorem nameFits_of_shape {m m' : WasmModule} (h : m.shape = m'.shape) : m.nameFits = m'.nameFits := by
  simp only [WasmModule.shape, Prod.mk.injEq] at h
  obtain ⟨h₁, h₂, h₃⟩ := h
  funext i
  rw [WasmModule.nameFits, WasmModule.nameFits, WasmModule.totalFuncs, WasmModule.totalFuncs, h₁, h₂, h₃]

theorem nameFits_congr {m : WasmModule} {fn : Option (List (Option Name))} (h : fn.map List.length = m.functionNames.map List.length) :
    WasmModule.nameFits { m with functionNames := fn } = m.nameFits :=
  nameFits_of_shape (Prod.ext rfl (Prod.ext rfl h))

/-- A fresh array has a place for every function. -/
theorem nameFits_fresh {m : WasmModule} (h : m.functionNames = none) :
    WasmModule.nameFits { m with functionNames := some (List.replicate m.totalFuncs none) } = m.nameFits := by
  funext i
  have here : m.nameFits i = true := by simp [WasmModule.nameFits, h]
  have there : WasmModule.nameFits { m with functionNames := some (List.replicate m.totalFuncs none) } i = true := by
    simp [WasmModule.nameFits, WasmModule.totalFuncs]
  rw [here, there]

theorem setFunctionName_run (funcidx : ℕ) (name : Option Name) (m : WasmModule) (b : Buffer) : ∃ fn,
    WasmModule.nameFits { m with functionNames := fn } = m.nameFits ∧
    (setFunctionName m.totalFuncs funcidx name).run ⟨m, b⟩ =
      if m.nameFits funcidx = true then some ((), ⟨{ m with functionNames := fn }, b⟩) else none := by
  by_cases hset : funcidx < m.totalFuncs ∧ m.functionNames ≠ none
  · obtain ⟨names, hnames⟩ := Option.ne_none_iff_exists'.mp hset.2
    refine ⟨some (names.set funcidx name), nameFits_congr (by simp [hnames]), ?_⟩
    have fits : m.nameFits funcidx = true ↔ ¬names.length ≤ funcidx := by simp [WasmModule.nameFits, hnames, hset.1]
    by_cases hshort : names.length ≤ funcidx <;>
      simp [setFunctionName, Load.module, Load.modify, hnames, hset.1, fits, hshort]
  · refine ⟨m.functionNames, rfl, ?_⟩
    have fits : m.nameFits funcidx = true := by
      rw [WasmModule.nameFits, decide_eq_true_eq]
      intro hlt len hlen
      have hnone : m.functionNames = none := by_contra fun hne => hset ⟨hlt, hne⟩
      simp [hnone] at hlen
    rw [setFunctionName, Load.module, run_bind, run_read, Option.bind_some, if_neg hset, if_pos fits]
    rfl

theorem parseFunctionNames_run (n : ℕ) (contents b : Buffer) (m : WasmModule) : ∃ fn,
    WasmModule.nameFits { m with functionNames := fn } = m.nameFits ∧
    (parseFunctionNames m.totalFuncs contents n).run ⟨m, b⟩ =
      (namePairs m.nameFits n contents).map fun _ => ((), ⟨{ m with functionNames := fn }, b⟩) := by
  induction n generalizing contents m with
  | zero => exact ⟨m.functionNames, rfl, rfl⟩
  | succ n ih =>
    rcases hi : bufferPullU32 contents with _ | ⟨funcidx, c₁⟩
    · exact ⟨m.functionNames, rfl, by simp [parseFunctionNames, namePairs, Checked.bind_apply, hi]⟩
    rcases hn : bufferPullName c₁ with _ | ⟨name, c₂⟩
    · exact ⟨m.functionNames, rfl, by simp [parseFunctionNames, namePairs, Checked.bind_apply, nameSectionCopyStr_eq, hi, hn]⟩
    have copied : nameSectionCopyStr c₁ = some (if name.length = 0 then none else some name, c₂) := by rw [nameSectionCopyStr_eq, hn, Option.map_some]
    obtain ⟨fn₁, hfits₁, hset⟩ := setFunctionName_run funcidx (if name.length = 0 then none else some name) m b
    have turn : (parseFunctionNames m.totalFuncs contents (n + 1)).run ⟨m, b⟩ =
        ((setFunctionName m.totalFuncs funcidx (if name.length = 0 then none else some name)).run ⟨m, b⟩).bind fun r =>
          (parseFunctionNames m.totalFuncs c₂ n).run r.2 := by
      simp only [parseFunctionNames, run_bind, run_lift, hi, copied, Option.map_some, Option.bind_some]
    have pair : namePairs m.nameFits (n + 1) contents = if m.nameFits funcidx = true then namePairs m.nameFits n c₂ else none := by
      by_cases hfit : m.nameFits funcidx = true <;> simp [namePairs, Checked.bind_apply, Checked.check, hi, hn, hfit]
    by_cases hfit : m.nameFits funcidx = true
    · obtain ⟨fn, hfits, h⟩ := ih c₂ { m with functionNames := fn₁ }
      have same : WasmModule.totalFuncs { m with functionNames := fn₁ } = m.totalFuncs := rfl
      rw [hfits₁, same] at h
      refine ⟨fn, hfits.trans hfits₁, ?_⟩
      rw [turn, hset, if_pos hfit, Option.bind_some, pair, if_pos hfit]
      exact h
    · refine ⟨m.functionNames, rfl, ?_⟩
      rw [turn, hset, if_neg hfit, pair, if_neg hfit]
      rfl

/-- Whether a loader state has a module name, and what is left to read. -/
def LoadState.named (s : LoadState) : Bool × Buffer := (s.module.moduleName.isSome, s.buffer)

/-- What a `name` section leaves as it is: the size of the function space, and where names have their place. -/
def LoadState.space (s : LoadState) : ℕ × (ℕ → Bool) := (s.module.totalFuncs, s.module.nameFits)

theorem allocFunctionNames_run (m : WasmModule) (b : Buffer) : ∃ fn,
    WasmModule.nameFits { m with functionNames := fn } = m.nameFits ∧
    (allocFunctionNames m.totalFuncs).run ⟨m, b⟩ = some ((), ⟨{ m with functionNames := fn }, b⟩) := by
  by_cases h : m.functionNames = none ∧ m.totalFuncs ≠ 0
  · refine ⟨some (List.replicate m.totalFuncs none), nameFits_fresh h.1, ?_⟩
    simp [allocFunctionNames, Load.module, Load.modify, run_ite, h]
  · refine ⟨m.functionNames, rfl, ?_⟩
    simp only [allocFunctionNames, Load.module, run_bind, run_read, Option.bind_some, if_neg h, run_pure]

theorem parseNameSubsection_run (m : WasmModule) (b : Buffer) :
    ((parseNameSubsection m.totalFuncs).run ⟨m, b⟩).map (fun r => (r.2.space, r.2.named)) =
      (checkNext m.nameFits m.moduleName.isSome b).map fun r => ((m.totalFuncs, m.nameFits), r) := by
  rcases hid : bufferPullU8 b with _ | ⟨id, b₁⟩
  · simp [parseNameSubsection, checkNext, Load.pull, hid]
  rcases hsize : bufferPullU32 b₁ with _ | ⟨size, b₂⟩
  · simp [parseNameSubsection, checkNext, Load.pull, hid, hsize]
  rcases hcontents : bufferPull size b₂ with _ | ⟨contents, b₃⟩
  · simp [parseNameSubsection, checkNext, Load.pull, hid, hsize, hcontents]
  simp only [parseNameSubsection, checkNext, Load.pull, run_bind, run_read, run_lift, run_update, run_pure, Option.bind_some, Option.map_some, hid,
    hsize, hcontents, checkSubsection, Option.bind_eq_bind]
  by_cases h₀ : id = 0
  · rcases hn : m.moduleName with _ | old
    · rcases hname : bufferPullName ⟨0, contents⟩ with _ | ⟨name, b₄⟩
      · simp [h₀, Load.module, hn, nameSectionCopyStr_eq, hname]
      · by_cases hlen : name = [] <;>
          simp [h₀, Load.module, Load.modify, hn, nameSectionCopyStr_eq, hname, hlen, LoadState.named, LoadState.space] <;> exact ⟨rfl, rfl⟩
    · simp [h₀, Load.module, hn, LoadState.named, LoadState.space]
  by_cases h₁ : id = 1
  · obtain ⟨fn, hfits, hfn⟩ := allocFunctionNames_run m b₃
    rcases hcount : bufferPullU32 ⟨0, contents⟩ with _ | ⟨count, b₄⟩
    · simp [h₁, hfn, hcount, Checked.bind_apply]
    · obtain ⟨fn', hfits', hfn'⟩ := parseFunctionNames_run count b₄ b₃ { m with functionNames := fn }
      rw [hfits] at hfits' hfn'
      have same : WasmModule.totalFuncs { m with functionNames := fn } = m.totalFuncs := rfl
      rw [same] at hfn'
      have space : LoadState.space ⟨{ m with functionNames := fn' }, b₃⟩ = (m.totalFuncs, m.nameFits) := Prod.ext rfl hfits'
      simp [h₁, hfn, hcount, hfn', Checked.bind_apply, LoadState.named, Function.comp_def, space]
  · simp [h₀, h₁, LoadState.named, LoadState.space]

/-- The subsection loop accepts what `checkNames` does. -/
theorem nameSubsections_run (fuel : ℕ) (m : WasmModule) (b : Buffer) :
    ((nameSubsections m.totalFuncs fuel).run ⟨m, b⟩).map (fun r => (r.2.space, r.2.module.moduleName.isSome)) =
      (checkNames m.nameFits fuel m.moduleName.isSome b).map fun named => ((m.totalFuncs, m.nameFits), named) := by
  induction fuel generalizing m b with
  | zero => rfl
  | succ fuel ih =>
    by_cases hlen : b.data.length = 0
    · simp [nameSubsections, checkNames, Load.len, hlen, LoadState.space]
    have one := parseNameSubsection_run m b
    rw [checkNames, if_neg hlen]
    rcases hp : (parseNameSubsection m.totalFuncs).run ⟨m, b⟩ with _ | ⟨_, ⟨m', b'⟩⟩
    · rw [hp, Option.map_none, eq_comm, Option.map_eq_none_iff] at one
      simp [nameSubsections, Load.len, hlen, hp, one]
    · rw [hp, Option.map_some, eq_comm] at one
      obtain ⟨r, hr, he⟩ := Option.map_eq_some_iff.mp one
      obtain ⟨hspace, rfl⟩ := Prod.mk.inj he
      obtain ⟨htotal, hfits⟩ := Prod.mk.inj hspace
      have rest := ih m' b'
      rw [← htotal, ← hfits] at rest
      rw [hr, Option.bind_some]
      simpa [nameSubsections, Load.len, hlen, hp, LoadState.named] using rest

variable {fits fits' : ℕ → Bool} {named named' later : Bool}

theorem namePairs_mono (hf : ∀ i, fits i = true → fits' i = true) {n : ℕ} {contents : Buffer} {r : Unit × Buffer}
    (hc : namePairs fits n contents = some r) : namePairs fits' n contents = some r := by
  induction n generalizing contents with
  | zero => exact hc
  | succ n ih =>
    obtain ⟨i, b₁, hi, hc⟩ := (Checked.bind_eq_some _ _ _ _).mp hc
    obtain ⟨name, b₂, hname, hc⟩ := (Checked.bind_eq_some _ _ _ _).mp hc
    obtain ⟨hfit, hc⟩ := (Checked.check_bind_eq_some _ _ _ _).mp hc
    rw [namePairs, Checked.bind_eq_some]
    refine ⟨i, b₁, hi, (Checked.bind_eq_some _ _ _ _).mpr ⟨name, b₂, hname, ?_⟩⟩
    exact (Checked.check_bind_eq_some _ _ _ _).mpr ⟨hf i hfit, ih hc⟩

theorem checkSubsection_mono (hf : ∀ i, fits i = true → fits' i = true) (h : named ≤ named') {id : UInt8} {contents : List UInt8}
    (hc : checkSubsection fits named id contents = some later) : ∃ later', checkSubsection fits' named' id contents = some later' ∧ later ≤ later' := by
  by_cases h₀ : id = 0
  · cases hn' : named' with
    | true => exact ⟨true, by simp [checkSubsection, h₀], Bool.le_true _⟩
    | false =>
      cases named with
      | false =>
        simp only [checkSubsection, if_pos h₀] at hc ⊢
        exact ⟨later, hc, Bool.le_refl _⟩
      | true => exact absurd (h rfl) (by simp [hn'])
  · simp only [checkSubsection, if_neg h₀] at hc ⊢
    split_ifs at hc ⊢
    · obtain ⟨r, hr, rfl⟩ := Option.map_eq_some_iff.mp hc
      obtain ⟨count, b, hcount, hr⟩ := (Checked.bind_eq_some _ _ _ _).mp hr
      have pairs := (Checked.bind_eq_some _ _ _ _).mpr ⟨count, b, hcount, namePairs_mono hf hr⟩
      exact ⟨named', Option.map_eq_some_iff.mpr ⟨r, pairs, rfl⟩, h⟩
    · exact ⟨named', rfl, Option.some.inj hc ▸ h⟩

/-- A module that has a name already, and more places for names, asks for less. -/
theorem checkNames_mono (hf : ∀ i, fits i = true → fits' i = true) (h : named ≤ named') {fuel : ℕ} {b : Buffer}
    (hc : checkNames fits fuel named b = some later) : ∃ later', checkNames fits' fuel named' b = some later' ∧ later ≤ later' := by
  induction fuel generalizing named named' b with
  | zero => exact ⟨named', rfl, Option.some.inj hc ▸ h⟩
  | succ fuel ih =>
    rw [checkNames] at hc ⊢
    split_ifs at hc ⊢ with hlen
    · exact ⟨named', rfl, Option.some.inj hc ▸ h⟩
    obtain ⟨⟨n, b₃⟩, hnext, hc⟩ := Option.bind_eq_some_iff.mp hc
    simp only [checkNext, Option.bind_eq_bind, Option.bind_eq_some_iff, Option.map_eq_some_iff, Prod.mk.injEq] at hnext
    obtain ⟨r, hid, r', hsize, r'', hcontents, _, hsub, rfl, rfl⟩ := hnext
    obtain ⟨n', hsub', hle⟩ := checkSubsection_mono hf h hsub
    obtain ⟨later', hc', hle'⟩ := ih hle hc
    refine ⟨later', ?_, hle'⟩
    simp only [checkNext, hid, hsize, hcontents, hsub', Option.bind_eq_bind, Option.bind_some, Option.map_some, hc']

theorem checkSubsection_le {id : UInt8} {contents : List UInt8} (hc : checkSubsection fits named id contents = some later) :
    named ≤ later := by
  simp only [checkSubsection] at hc
  split_ifs at hc with h₀ hn
  · exact Option.some.inj hc ▸ Bool.le_true _
  · exact Bool.eq_false_iff.mpr hn ▸ Bool.false_le _
  · obtain ⟨r, -, rfl⟩ := Option.map_eq_some_iff.mp hc
    exact Bool.le_refl _
  · exact Option.some.inj hc ▸ Bool.le_refl _

theorem checkNames_le {fuel : ℕ} {b : Buffer} (hc : checkNames fits fuel named b = some later) : named ≤ later := by
  induction fuel generalizing named b with
  | zero => exact Option.some.inj hc ▸ Bool.le_refl _
  | succ fuel ih =>
    rw [checkNames] at hc
    split_ifs at hc
    · exact Option.some.inj hc ▸ Bool.le_refl _
    obtain ⟨⟨n, b₃⟩, hnext, hc⟩ := Option.bind_eq_some_iff.mp hc
    simp only [checkNext, Option.bind_eq_bind, Option.bind_eq_some_iff, Option.map_eq_some_iff, Prod.mk.injEq] at hnext
    obtain ⟨_, -, _, -, _, -, _, hsub, rfl, -⟩ := hnext
    exact Bool.le_trans (checkSubsection_le hsub) (ih hc)

/-! ### Loading with other names -/

/-- The name of the section that names things. -/
def nameSection : Name := [0x6E, 0x61, 0x6D, 0x65]

/-- The run of a custom section accepts a `name` section that is well formed. -/
theorem customSection_run (m : WasmModule) (contents : List UInt8) :
    ((wasmParseSection 0).run ⟨m, ⟨0, contents⟩⟩).map (fun r => (r.2.space, r.2.module.moduleName.isSome)) =
      (bufferPullName ⟨0, contents⟩).bind fun r =>
        (if r.1 = nameSection then checkNames m.nameFits r.2.data.length m.moduleName.isSome r.2 else some m.moduleName.isSome).map
          fun named => ((m.totalFuncs, m.nameFits), named) := by
  rcases hname : bufferPullName ⟨0, contents⟩ with _ | ⟨name, b⟩
  · simp [wasmParseSection, Load.pull, hname]
  · by_cases h : name = nameSection
    · have loop := nameSubsections_run b.data.length m b
      simpa [wasmParseSection, Load.pull, hname, h, nameSection, wasmParseNameSection, Load.module, Load.len] using loop
    · have h' : ¬name = [0x6E, 0x61, 0x6D, 0x65] := h
      simp [wasmParseSection, Load.pull, hname, h, h', LoadState.space]

/-- Only names differ, a module with a name keeps having one, and names keep their places. -/
def Renamed (m m' : WasmModule) : Prop :=
  ∃ mn fn, m' = m.rename mn fn ∧ m.moduleName.isSome ≤ mn.isSome ∧ ∀ i, m.nameFits i = true → (m.rename mn fn).nameFits i = true

variable {m m' : WasmModule} {s : ℕ × WasmModule} {sec : ℕ × List UInt8} {secs : List (ℕ × List UInt8)}

/-- A custom section leaves a renamed module, in which names have the places they had. -/
theorem customSection_renames {contents : List UInt8} {t : LoadState} (h : (wasmParseSection 0).run ⟨m, ⟨0, contents⟩⟩ = some ((), t)) :
    (∃ mn fn, t.module = m.rename mn fn) ∧ t.module.nameFits = m.nameFits := by
  constructor
  · obtain ⟨seen, hr⟩ := run_eq_some.mp h
    obtain ⟨mn, fn, ht⟩ := (customSection_named (m := m) ⟨m, ⟨0, contents⟩⟩ ⟨m.moduleName, m.functionNames, rfl⟩).1
    rw [final, hr] at ht
    exact ⟨mn, fn, ht⟩
  · have hm := customSection_run m contents
    rw [h, Option.map_some, eq_comm] at hm
    obtain ⟨r, -, hm⟩ := Option.bind_eq_some_iff.mp hm
    obtain ⟨named, -, he⟩ := Option.map_eq_some_iff.mp hm
    exact (Prod.mk.inj (Prod.mk.inj he).1).2.symm

/-- Other sections leave the name of the module. -/
theorem nameless_keeps {id : ℕ} (hid : id ≠ 0) {b : Buffer} {t : LoadState} (hrun : (wasmParseSection id).run ⟨m, b⟩ = some ((), t)) :
    t.module.moduleName = m.moduleName := by
  have same := wasmParseSection_nameless hid m.moduleName m.functionNames ⟨m, b⟩
  have self : (⟨m.rename m.moduleName m.functionNames, b⟩ : LoadState) = ⟨m, b⟩ := rfl
  dsimp only at same
  rw [self, hrun, Option.map_some, Option.some.injEq, Prod.mk.injEq] at same
  rw [same.2]
  rfl

theorem customSection_loads {contents : List UInt8} {mn : Option Name} (fn : Option (List (Option Name))) {t : LoadState}
    (h : m.moduleName.isSome ≤ mn.isSome) (hfits : ∀ i, m.nameFits i = true → (m.rename mn fn).nameFits i = true)
    (hrun : (wasmParseSection 0).run ⟨m, ⟨0, contents⟩⟩ = some ((), t)) :
    ∃ t', (wasmParseSection 0).run ⟨m.rename mn fn, ⟨0, contents⟩⟩ = some ((), t') ∧ t.module.moduleName.isSome ≤ t'.module.moduleName.isSome := by
  have hm := customSection_run m contents
  rw [hrun, Option.map_some, eq_comm] at hm
  obtain ⟨⟨name, b⟩, hname, hm⟩ := Option.bind_eq_some_iff.mp hm
  obtain ⟨named, hnamed, he⟩ := Option.map_eq_some_iff.mp hm
  obtain rfl : named = t.module.moduleName.isSome := (Prod.mk.inj he).2
  have accepts : ∃ later, (if name = nameSection then checkNames (m.rename mn fn).nameFits b.data.length mn.isSome b else some mn.isSome) =
      some later ∧ t.module.moduleName.isSome ≤ later := by
    split_ifs at hnamed ⊢
    · exact checkNames_mono hfits h hnamed
    · exact ⟨_, rfl, Option.some.inj hnamed ▸ h⟩
  obtain ⟨later, haccepts, hle⟩ := accepts
  have hm' := customSection_run (m.rename mn fn) contents
  have same : (m.rename mn fn).moduleName = mn := rfl
  rw [hname, Option.bind_some, same, haccepts, Option.map_some] at hm'
  obtain ⟨⟨_, t'⟩, hrun', he'⟩ := Option.map_eq_some_iff.mp hm'
  obtain rfl := (Prod.mk.inj he').2
  exact ⟨t', hrun', hle⟩

/-- A section behind the function section that loads, loads under other names too. -/
theorem loadSection_renamed (h : Renamed m m') (hsec : sec.1 ≠ 2 ∧ sec.1 ≠ 3) {index : ℕ} (hl : loadSection (index, m) sec = some s) :
    ∃ m₁, loadSection (index, m') sec = some (s.1, m₁) ∧ Renamed s.2 m₁ := by
  obtain ⟨id, contents⟩ := sec
  obtain ⟨mn, fn, rfl, hle, hfits⟩ := h
  by_cases hid : id = 0
  · subst hid
    rw [loadSection_custom] at hl ⊢
    obtain ⟨⟨_, t⟩, hrun, rfl⟩ := Option.map_eq_some_iff.mp hl
    obtain ⟨⟨mn₁, fn₁, ht⟩, hspace⟩ := customSection_renames hrun
    obtain ⟨t', hrun', hle'⟩ := customSection_loads fn hle hfits hrun
    obtain ⟨⟨mn₂, fn₂, ht'⟩, hspace'⟩ := customSection_renames hrun'
    have other : t'.module = t.module.rename mn₂ fn₂ := by
      rw [ht', ht]
      rfl
    refine ⟨t'.module, by rw [hrun', Option.map_some], mn₂, fn₂, other, ?_, fun i hi => ?_⟩
    · rw [ht'] at hle'
      exact hle'
    · rw [← other, hspace']
      rw [hspace] at hi
      exact hfits i hi
  · rw [loadSection_ordered hid] at hl ⊢
    obtain ⟨p, hp, hl⟩ := Option.bind_eq_some_iff.mp hl
    obtain ⟨⟨_, t⟩, hrun, rfl⟩ := Option.map_eq_some_iff.mp hl
    have same := wasmParseSection_nameless hid mn fn ⟨m, ⟨0, contents⟩⟩
    dsimp only at same
    have shape : t.module.shape = m.shape :=
      (Ensures.of_preserves (wasmParseSection_keeps id hid hsec.1 hsec.2 m.shape)).of_run rfl hrun
    refine ⟨t.module.rename mn fn, ?_, mn, fn, rfl, ?_, fun i hi => ?_⟩
    · rw [hp, Option.bind_some, same, hrun, Option.map_some, Option.map_some]
    · rwa [nameless_keeps hid hrun]
    · have renamed : (t.module.rename mn fn).shape = (m.rename mn fn).shape :=
        Prod.ext (Prod.mk.inj shape).1 (Prod.ext (Prod.mk.inj (Prod.mk.inj shape).2).1 rfl)
      rw [nameFits_of_shape renamed]
      rw [nameFits_of_shape shape] at hi
      exact hfits i hi

theorem loadSections_renamed (h : Renamed m m') (hsecs : ∀ sec ∈ secs, sec.1 ≠ 2 ∧ sec.1 ≠ 3) {index : ℕ}
    (hl : secs.foldlM loadSection (index, m) = some s) : ∃ m₁, secs.foldlM loadSection (index, m') = some (s.1, m₁) ∧ Renamed s.2 m₁ := by
  induction secs generalizing index m m' with
  | nil => obtain rfl := Option.some.inj hl; exact ⟨m', rfl, h⟩
  | cons sec secs ih =>
    obtain ⟨⟨index₁, m₁⟩, hsec, hrest⟩ := Option.bind_eq_some_iff.mp hl
    obtain ⟨m₂, hsec', h₂⟩ := loadSection_renamed h (hsecs sec List.mem_cons_self) hsec
    obtain ⟨m₃, hrest', h₃⟩ := ih h₂ (fun sec' hm => hsecs sec' (List.mem_cons_of_mem _ hm)) hrest
    exact ⟨m₃, Option.bind_eq_some_iff.mpr ⟨_, hsec', hrest'⟩, h₃⟩

/-- The bytes of a loaded module behind a boundary between two sections. -/
theorem wasmLoadModule_boundary {a b : List UInt8} {A : List (ℕ × List UInt8)} {m : WasmModule} (ha : Split a A) :
    wasmLoadModule (magicVersion ++ a ++ b) = some m ↔ ∃ B s index, Split b B ∧ A.foldlM loadSection (0, {}) = some s ∧
      B.foldlM loadSection s = some (index, m) ∧ (0 < m.functions.length → m.code ≠ none) := by
  rw [wasmLoadModule_eq_some]
  constructor
  · rintro ⟨bs, secs, index, hdata, hsplit, hfold, hcode⟩
    obtain rfl : a ++ b = bs := by simpa using hdata
    obtain ⟨B, rfl, hB⟩ := ha.drop hsplit
    rw [List.foldlM_append] at hfold
    obtain ⟨s, hA, hfold⟩ := Option.bind_eq_some_iff.mp hfold
    exact ⟨B, s, index, hB, hA, hfold, hcode⟩
  · rintro ⟨B, s, index, hB, hA, hfold, hcode⟩
    refine ⟨a ++ b, A ++ B, index, by simp, ha.append hB, ?_, hcode⟩
    rw [List.foldlM_append, hA]
    exact hfold

/-- A custom section behind the function section changes nothing but names, unless it is a
`name` section that is not well formed, or names a function behind the end of an array
that was there before the function section: that one stops the load, or leaves the array. -/
theorem custom_section_inserted_iff {a b custom contents : List UInt8} {A : List (ℕ × List UInt8)} {index : ℕ} {before m : WasmModule}
    {name : Name} {payload : Buffer} (hload : wasmLoadModule (magicVersion ++ a ++ b) = some m)
    (ha : Split a A) (hfunctions : 3 ∈ A.map Prod.fst) (hbefore : A.foldlM loadSection (0, {}) = some (index, before))
    (hcustom : Split custom [(0, contents)]) (hname : bufferPullName ⟨0, contents⟩ = some (name, payload)) :
    (∃ mn fn, wasmLoadModule (magicVersion ++ a ++ (custom ++ b)) = some (m.rename mn fn)) ↔
      (name = nameSection → nameSubsectionsOk before payload) := by
  obtain ⟨B, s, index', hB, hA, hfold, hcode⟩ := (wasmLoadModule_boundary ha).mp hload
  obtain rfl : s = (index, before) := Option.some.inj (hA.symm.trans hbefore)
  have hrun := customSection_run before contents
  rw [hname, Option.bind_some] at hrun
  constructor
  · rintro ⟨mn, fn, hext⟩ hn
    obtain ⟨B', s', _, hB', hA', hfold', -⟩ := (wasmLoadModule_boundary ha).mp hext
    obtain rfl : s' = (index, before) := Option.some.inj (hA'.symm.trans hbefore)
    obtain ⟨C, rfl, -⟩ := hcustom.drop hB'
    obtain ⟨s₁, hs₁, -⟩ := Option.bind_eq_some_iff.mp hfold'
    rw [loadSection_custom] at hs₁
    obtain ⟨r, hr, -⟩ := Option.map_eq_some_iff.mp hs₁
    rw [hr, Option.map_some, if_pos hn, eq_comm] at hrun
    obtain ⟨named, hnamed, -⟩ := Option.map_eq_some_iff.mp hrun
    rw [nameSubsectionsOk, hnamed, Option.isSome_some]
  · intro hok
    have accepts : ∃ later, (if name = nameSection then checkNames before.nameFits payload.data.length before.moduleName.isSome payload
        else some before.moduleName.isSome) = some later ∧ before.moduleName.isSome ≤ later := by
      split_ifs with hn
      · obtain ⟨later, hlater⟩ := Option.isSome_iff_exists.mp (hok hn)
        exact ⟨later, hlater, checkNames_le hlater⟩
      · exact ⟨_, rfl, Bool.le_refl _⟩
    obtain ⟨later, haccepts, hle⟩ := accepts
    rw [haccepts, Option.map_some] at hrun
    obtain ⟨⟨_, t⟩, hrun', he⟩ := Option.map_eq_some_iff.mp hrun
    obtain rfl := (Prod.mk.inj he).2
    obtain ⟨⟨mn, fn, ht⟩, hspace⟩ := customSection_renames hrun'
    have renamed : Renamed before t.module := by
      refine ⟨mn, fn, ht, by rwa [ht] at hle, fun i hi => ?_⟩
      rw [← ht, hspace]
      exact hi
    have behind : ∀ sec ∈ B, sec.1 ≠ 2 ∧ sec.1 ≠ 3 := by
      have all : (A ++ B).foldlM loadSection (0, {}) = some (index', m) := by
        rw [List.foldlM_append, hbefore]
        exact hfold
      exact behind_functions all hfunctions
    obtain ⟨m', hfold', mn', fn', rfl, -⟩ := loadSections_renamed renamed behind hfold
    refine ⟨mn', fn', (wasmLoadModule_boundary ha).mpr ⟨(0, contents) :: B, (index, before), index', hcustom.append hB, hbefore, ?_, hcode⟩⟩
    rw [List.foldlM_cons, loadSection_custom, hrun']
    exact hfold'

/-- A type, a function and its code. -/
def oneFunction : List UInt8 := [0x01, 0x04, 0x01, 0x60, 0x00, 0x00, 0x03, 0x02, 0x01, 0x00, 0x0A, 0x04, 0x01, 0x02, 0x00, 0x0B]

theorem oneFunction_split : Split oneFunction [(1, [0x01, 0x60, 0x00, 0x00]), (3, [0x01, 0x00]), (10, [0x01, 0x02, 0x00, 0x0B])] :=
  .cons (p := 0) (q := 0x00) rfl (.cons (p := 0) (q := 0x00) rfl (.cons (p := 0) (q := 0x0B) rfl .nil))

/-- A `name` section with a module name and the name of the function. -/
def moduleNames : List UInt8 :=
  [0x00, 0x0F, 0x04, 0x6E, 0x61, 0x6D, 0x65, 0x00, 0x02, 0x01, 0x6D, 0x01, 0x04, 0x01, 0x00, 0x01, 0x66]

theorem custom_section_inserted_names : ∃ m mn fn, wasmLoadModule (magicVersion ++ oneFunction ++ []) = some m ∧
    wasmLoadModule (magicVersion ++ oneFunction ++ (moduleNames ++ [])) = some (m.rename mn fn) := by
  have loads : (wasmLoadModule (magicVersion ++ oneFunction ++ [])).isSome := by decide +kernel
  obtain ⟨m, hm⟩ := Option.isSome_iff_exists.mp loads
  obtain ⟨-, ⟨index, before⟩, -, -, hbefore, -⟩ := (wasmLoadModule_boundary oneFunction_split).mp hm
  have custom : Split moduleNames [(0, moduleNames.drop 2)] := .cons (p := 0) (q := 0x66) rfl .nil
  have name : bufferPullName ⟨0, moduleNames.drop 2⟩ = some (nameSection, ⟨0x65, moduleNames.drop 7⟩) := by decide +kernel
  have ok : ([(1, [0x01, 0x60, 0x00, 0x00]), (3, [0x01, 0x00]), (10, [0x01, 0x02, 0x00, 0x0B])].foldlM loadSection (0, {})).map
      (fun s => nameSubsectionsOk s.2 ⟨0x65, moduleNames.drop 7⟩) = some true := by decide +kernel
  rw [hbefore] at ok
  obtain ⟨mn, fn, h⟩ := (custom_section_inserted_iff hm oneFunction_split (by decide) hbefore custom name).mpr fun _ => Option.some.inj ok
  exact ⟨m, mn, fn, hm, h⟩

/-- A `name` section with one byte of a subsection. -/
def brokenNames : List UInt8 := [0x00, 0x06, 0x04, 0x6E, 0x61, 0x6D, 0x65, 0x00]

/-- A custom section behind the function section can stop a load that succeeded. -/
theorem custom_section_rejected : ¬∀ (a b custom contents : List UInt8) (A : List (ℕ × List UInt8)) (m : WasmModule) (name : Name)
    (payload : Buffer), wasmLoadModule (magicVersion ++ a ++ b) = some m → Split a A → 3 ∈ A.map Prod.fst →
    Split custom [(0, contents)] → bufferPullName ⟨0, contents⟩ = some (name, payload) →
    ∃ mn fn, wasmLoadModule (magicVersion ++ a ++ (custom ++ b)) = some (m.rename mn fn) := by
  intro h
  have loads : (wasmLoadModule (magicVersion ++ oneFunction ++ [])).isSome := by decide +kernel
  obtain ⟨m, hm⟩ := Option.isSome_iff_exists.mp loads
  have custom : Split brokenNames [(0, brokenNames.drop 2)] := .cons (p := 0) (q := 0x00) rfl .nil
  have name : bufferPullName ⟨0, brokenNames.drop 2⟩ = some (nameSection, ⟨0x65, [0x00]⟩) := by decide +kernel
  obtain ⟨mn, fn, hext⟩ := h _ _ _ _ _ m _ _ hm oneFunction_split (by decide) custom name
  have fails : (wasmLoadModule (magicVersion ++ oneFunction ++ (brokenNames ++ []))).isSome = false := by decide +kernel
  rw [hext] at fails
  cases fails

end SpidirWasm.Wasm
