import Mathlib.Logic.Relation
import SpidirWasm.Wasm.Load

/-! The size of the function-name array over the run of the loader. The array is
sized when the first function-names subsection is read; only an import or a
function section behind it can make the function space outgrow it. -/

namespace SpidirWasm.Wasm

open Keeping

/-- The array of function names, once allocated, has an entry for every function. -/
def NamesFit (m : WasmModule) : Prop := ∀ names, m.functionNames = some names → names.length = m.totalFuncs

/-- The lengths the property is about. -/
def WasmModule.shape (m : WasmModule) : ℕ × ℕ × Option ℕ :=
  (m.imports.length, m.functions.length, m.functionNames.map List.length)

theorem namesFit_of_shape {m m' : WasmModule} (h : m.shape = m'.shape) (hm : NamesFit m') : NamesFit m := by
  simp only [WasmModule.shape, Prod.mk.injEq] at h
  obtain ⟨h₁, h₂, h₃⟩ := h
  intro names hn
  rw [hn] at h₃
  obtain ⟨names', hn', hl⟩ := Option.map_eq_some_iff.mp h₃.symm
  rw [← hl, hm names' hn', WasmModule.totalFuncs, WasmModule.totalFuncs, h₁, h₂]

/-! ### Parsers that keep the shape -/

/-- `m` leaves all three lengths as they are, at every point. -/
def KeepsShape {α : Type} (m : Load α) : Prop := ∀ c, Preserves (fun s => s.module.shape = c) m

namespace KeepsShape

variable {α β : Type}

theorem pure (a : α) : KeepsShape (Pure.pure a : Load α) := fun _ => .pure a

theorem check (p : Prop) [Decidable p] : KeepsShape (Keeping.check p) := fun _ => .check p

theorem forbid (p : Prop) [Decidable p] : KeepsShape (Keeping.forbid p) := fun _ => .forbid p

theorem fail : KeepsShape (Keeping.fail : Load α) := fun _ => .fail

theorem read (f : LoadState → α) : KeepsShape (Keeping.read f) := fun _ => .read f

theorem lift (o : Option α) : KeepsShape (Keeping.lift o : Load α) := fun _ => .lift o

theorem bind {x : Load α} {f : α → Load β} (hx : KeepsShape x) (hf : ∀ a, KeepsShape (f a)) :
    KeepsShape (x >>= f) := fun c => .bind (hx c) fun a => hf a c

theorem ite {p : Prop} [Decidable p] {x y : Load α} (hx : KeepsShape x) (hy : KeepsShape y) :
    KeepsShape (if p then x else y) := fun c => .ite (hx c) (hy c)

theorem forInt {f : ℕ → Load Unit} (h : ∀ i, KeepsShape (f i)) (i n : ℕ) :
    KeepsShape (Keeping.forInt f i n) := fun c => .forInt (fun j => h j c) i n

theorem collectInt {m : Load α} (h : KeepsShape m) (i n : ℕ) : KeepsShape (Keeping.collectInt m i n) :=
  fun c => .collectInt (h c) i n

theorem pull (m : Pull α) : KeepsShape (Load.pull m) :=
  bind (read _) fun _ => bind (lift _) fun _ => bind (fun _ => .update fun _ h => h) fun _ => pure _

theorem modify {f : WasmModule → WasmModule} (h : ∀ m, (f m).shape = m.shape) :
    KeepsShape (Load.modify f) := fun _ => .update fun s hs => (h s.module).trans hs

theorem module : KeepsShape Load.module := read _

theorem len : KeepsShape Load.len := read _

theorem atEnd : KeepsShape Load.atEnd := bind len fun _ => check _

end KeepsShape

theorem pullFuncIndices_keeps (n : ℕ) : KeepsShape (pullFuncIndices n) :=
  .collectInt (.bind (.pull _) fun _ => .bind .module fun _ => .bind (.check _) fun _ => .pure _) 0 n

theorem wasmPullResultType_keeps : KeepsShape wasmPullResultType :=
  .bind (.pull _) fun _ => .bind .len fun _ => .bind (.check _) fun _ => .collectInt (.pull _) _ _

theorem pullItemName_keeps : KeepsShape pullItemName :=
  .bind (.pull _) fun _ => .bind (.check _) fun _ => .pure _

theorem pullConstant_keeps (opcode : ℕ) : KeepsShape (pullConstant opcode) := by
  unfold pullConstant
  split
  iterate 4 exact .bind (.pull _) fun _ => .pure _
  exact .fail

theorem wasmParseConstantExpr_keeps : KeepsShape wasmParseConstantExpr :=
  .bind (.pull _) fun _ => .bind (pullConstant_keeps _) fun _ => .bind (.pull _) fun _ =>
    .bind (.check _) fun _ => .pure _

/-- A section that counts its entries, makes room for them and then reads each. -/
theorem KeepsShape.entries (small : ℕ → ℕ → Prop) [∀ n l, Decidable (small n l)] {room : ℕ → WasmModule → WasmModule}
    {entry : ℕ → ℕ → Load Unit} {rest : Load Unit} (hroom : ∀ n m, (room n m).shape = m.shape)
    (hentry : ∀ n i, KeepsShape (entry n i)) (hrest : KeepsShape rest) :
    KeepsShape (do
      let count ← Load.pull bufferPullU32
      Keeping.check (small count (← Load.len))
      Load.modify (room count)
      Keeping.forInt (entry count) 0 count
      rest) :=
  .bind (.pull _) fun _ => .bind .len fun _ => .bind (.check _) fun _ => .bind (.modify (hroom _)) fun _ =>
    .bind (.forInt (hentry _) _ _) fun _ => hrest

theorem wasmParseTypeSection_keeps : KeepsShape wasmParseTypeSection := by
  refine .entries (· < ·) (fun _ _ => rfl) (fun _ i => ?_) .atEnd
  exact .bind (.pull _) fun _ => .bind (.check _) fun _ => .bind wasmPullResultType_keeps fun _ =>
    .bind (.modify fun _ => rfl) fun _ => .bind wasmPullResultType_keeps fun _ => .modify fun _ => rfl

theorem pullTableLimits_keeps : KeepsShape pullTableLimits :=
  .bind (.pull _) fun _ => .ite (.bind (.pull _) fun _ => .pure _)
    (.ite (.bind (.pull _) fun _ => .bind (.pull _) fun _ => .pure _) .fail)

theorem wasmParseTableSection_keeps : KeepsShape wasmParseTableSection := by
  refine .entries (· ≤ ·) (fun _ _ => rfl) (fun _ i => ?_) .atEnd
  exact .bind (.pull _) fun _ => .bind (.check _) fun _ => .bind pullTableLimits_keeps fun _ =>
    .bind (.modify fun _ => rfl) fun _ => .check _

theorem pullMemoryLimits_keeps : KeepsShape pullMemoryLimits := by
  refine .bind (.pull _) fun _ => .ite ?_ (.ite ?_ (.ite ?_ .fail))
  · exact .bind (.pull _) fun _ => .modify fun _ => rfl
  · exact .bind (.pull _) fun _ => .bind (.pull _) fun _ => .modify fun _ => rfl
  · exact .bind (.pull _) fun _ => .bind (.pull _) fun _ => .modify fun _ => rfl

theorem wasmParseMemorySection_keeps : KeepsShape wasmParseMemorySection :=
  .bind (.pull _) fun _ => .bind (.check _) fun _ => .bind pullMemoryLimits_keeps fun _ => .bind .module fun _ =>
    .bind (.check _) fun _ => .bind (.check _) fun _ => .bind (.check _) fun _ => .bind (.modify fun _ => rfl) fun _ =>
    .bind (.check _) fun _ => .bind (.check _) fun _ => .atEnd

theorem wasmParseGlobalSection_keeps : KeepsShape wasmParseGlobalSection := by
  refine .entries (· ≤ ·) (fun _ _ => rfl) (fun _ i => ?_) .atEnd
  exact .bind (.pull _) fun _ => .bind (.pull _) fun _ => .bind (.check _) fun _ =>
    .bind wasmParseConstantExpr_keeps fun _ => .bind (.check _) fun _ => .modify fun _ => rfl

theorem wasmParseElementSection_keeps : KeepsShape wasmParseElementSection := by
  refine .entries (· ≤ ·) (fun _ _ => rfl) (fun _ i => ?_) .atEnd
  exact .bind (.pull _) fun _ => .bind (.check _) fun _ => .bind wasmParseConstantExpr_keeps fun _ =>
    .bind (.check _) fun _ => .bind (.pull _) fun _ => .bind .len fun _ => .bind (.check _) fun _ =>
    .bind (pullFuncIndices_keeps _) fun _ => .modify fun _ => rfl

theorem wasmParseDataSection_keeps : KeepsShape wasmParseDataSection := by
  refine .entries (· ≤ ·) (fun _ _ => rfl) (fun _ i => .bind (.pull _) fun _ => .ite ?_ (.ite ?_ .fail)) .atEnd
  · exact .bind wasmParseConstantExpr_keeps fun _ => .bind (.check _) fun _ => .bind (.pull _) fun _ =>
      .bind (.pull _) fun _ => .modify fun _ => rfl
  · exact .bind (.pull _) fun _ => .bind (.pull _) fun _ => .modify fun _ => rfl

theorem exportKind_keeps (byte : UInt8) (index : ℕ) : KeepsShape (exportKind byte index) :=
  .bind .module fun _ => .ite (.bind (.check _) fun _ => .pure _) (.ite (.bind (.check _) fun _ => .pure _)
    (.ite (.bind (.check _) fun _ => .pure _) .fail))

theorem wasmParseExportSection_keeps : KeepsShape wasmParseExportSection := by
  refine .entries (· ≤ ·) (fun _ _ => rfl) (fun _ i => ?_) .atEnd
  exact .bind pullItemName_keeps fun _ => .bind (.pull _) fun _ => .bind (.pull _) fun _ =>
    .bind (exportKind_keeps _ _) fun _ => .modify fun _ => rfl

theorem startTypeidx_keeps (m : WasmModule) (index : ℕ) : KeepsShape (startTypeidx m index) :=
  .ite (.bind (.lift _) fun _ => .bind (.check _) fun _ => .pure _) (.lift _)

theorem wasmParseStartSection_keeps : KeepsShape wasmParseStartSection :=
  .bind (.pull _) fun _ => .bind (.modify fun _ => rfl) fun _ => .bind .atEnd fun _ => .bind .module fun _ =>
    .bind (.check _) fun _ => .bind (startTypeidx_keeps _ _) fun _ => .bind (.lift _) fun _ =>
    .bind (.check _) fun _ => .check _

theorem wasmParseCodeSection_keeps : KeepsShape wasmParseCodeSection := by
  refine .bind (.pull _) fun _ => .bind .module fun _ => .bind (.check _) fun _ => .bind (.modify fun _ => rfl) fun _ =>
    .bind (.forInt (fun i => ?_) _ _) fun _ => .atEnd
  exact .bind (.pull _) fun _ => .bind (.pull _) fun _ => .modify fun _ => rfl

/-! ### The name section -/

theorem setFunctionName_keeps (totalFuncs funcidx : ℕ) (name : Option Name) : KeepsShape (setFunctionName totalFuncs funcidx name) := by
  refine .bind .module fun _ => .ite (.bind (.forbid _) fun _ => .modify fun m => ?_) (.pure _)
  simp [WasmModule.shape, Function.comp_def]

theorem parseFunctionNames_keeps (totalFuncs : ℕ) (n : ℕ) (contents : Buffer) :
    KeepsShape (parseFunctionNames totalFuncs contents n) := by
  induction n generalizing contents with
  | zero => exact .pure _
  | succ n ih =>
    exact .bind (.lift _) fun _ => .bind (.lift _) fun _ => .bind (setFunctionName_keeps _ _ _) fun _ => ih _

/-- A module whose names fit a function space of this size. -/
def FitsTotal (totalFuncs : ℕ) (s : LoadState) : Prop :=
  NamesFit s.module ∧ s.module.totalFuncs = totalFuncs

theorem KeepsShape.fitsTotal {α : Type} {m : Load α} (h : KeepsShape m) (totalFuncs : ℕ) :
    Preserves (FitsTotal totalFuncs) m := by
  intro s hs
  have step : ∀ t : LoadState, t.module.shape = s.module.shape → FitsTotal totalFuncs t := by
    intro t ht
    refine ⟨namesFit_of_shape ht hs.1, ?_⟩
    simp only [WasmModule.shape, Prod.mk.injEq] at ht
    rw [← hs.2, WasmModule.totalFuncs, WasmModule.totalFuncs, ht.1, ht.2.1]
  exact ⟨step _ (h _ s rfl).1, fun t ht => step t ((h _ s rfl).2 t ht)⟩

theorem allocFunctionNames_fits (totalFuncs : ℕ) :
    Preserves (FitsTotal totalFuncs) (allocFunctionNames totalFuncs) := by
  refine .bind (KeepsShape.module.fitsTotal _) fun _ => .ite (.update fun s hs => ⟨fun names hn => ?_, hs.2⟩) (.pure _)
  -- the array gets the length it has to have
  obtain rfl := Option.some.inj hn
  exact List.length_replicate.trans hs.2.symm

theorem parseNameSubsection_fits (totalFuncs : ℕ) :
    Preserves (FitsTotal totalFuncs) (parseNameSubsection totalFuncs) := by
  refine .bind ((KeepsShape.pull _).fitsTotal _) fun _ => .bind ((KeepsShape.pull _).fitsTotal _) fun _ =>
    .bind ((KeepsShape.pull _).fitsTotal _) fun contents => .ite ?_ (.ite ?_ (.pure _))
  · have name : KeepsShape (do
        let copied ← Keeping.lift (nameSectionCopyStr ⟨0, contents⟩)
        Load.modify fun m => { m with moduleName := copied.1 }) :=
      .bind (.lift _) fun _ => .modify fun _ => rfl
    exact .bind (KeepsShape.module.fitsTotal _) fun _ => .ite (name.fitsTotal _) (.pure _)
  · exact .bind (allocFunctionNames_fits _) fun _ => .bind ((KeepsShape.lift _).fitsTotal _) fun _ =>
      (parseFunctionNames_keeps _ _ _).fitsTotal _

theorem nameSubsections_fits (totalFuncs fuel : ℕ) :
    Preserves (FitsTotal totalFuncs) (nameSubsections totalFuncs fuel) := by
  induction fuel with
  | zero => exact .pure _
  | succ fuel ih =>
    exact .bind (KeepsShape.len.fitsTotal _) fun _ =>
      .ite (.bind (parseNameSubsection_fits _) fun _ => ih) (.pure _)

/-! ### The two sections that size the function space -/

/-- The count an import or a function section stores, when it gets that far. -/
def storedCount (contents : Buffer) : Option ℕ := do
  let (count, rest) ← bufferPullU32 contents
  if count ≤ rest.data.length then some count else none

/-- A section changes the size of the function space when the names are already there. -/
def Resizes (id : ℕ) (contents : Buffer) (m : WasmModule) : Prop :=
  m.functionNames ≠ none ∧ ∃ count, storedCount contents = some count ∧
    (id = 2 ∧ count ≠ m.imports.length ∨ id = 3 ∧ count ≠ m.functions.length)

/-- A parser that stores a count into the module before it reads the entries. -/
def sized (room : ℕ → WasmModule → WasmModule) (rest : ℕ → Load Unit) : Load Unit := do
  let count ← Load.pull bufferPullU32
  check (count ≤ (← Load.len))
  Load.modify (room count)
  rest count

theorem pull_some {α : Type} {m : Pull α} {s : LoadState} {a : α} {b : Buffer} (h : m s.buffer = some (a, b)) :
    Load.pull m s = (.ok a, { s with buffer := b }, [{ s with buffer := b }]) := by
  rw [Load.pull, read_bind, h, lift_some_bind]
  rfl

theorem pull_none {α : Type} {m : Pull α} {s : LoadState} (h : m s.buffer = none) :
    Load.pull m s = (.failed, s, []) := by
  rw [Load.pull, read_bind, h, lift_none_bind]

/-- Without a count it can store, such a parser leaves the module alone. -/
theorem sized_reject (room : ℕ → WasmModule → WasmModule) (rest : ℕ → Load Unit) {s : LoadState}
    (h : storedCount s.buffer = none) :
    ((sized room rest).final s).module = s.module ∧ ∀ p ∈ (sized room rest).points s, p.module = s.module := by
  rcases hp : bufferPullU32 s.buffer with _ | ⟨count, b⟩
  · simp [final, points, sized, bind_failed (pull_none hp)]
  · have hc : ¬count ≤ b.data.length := by simpa [storedCount, hp] using h
    have run : sized room rest s = (.failed, { s with buffer := b }, [{ s with buffer := b }]) := by
      rw [sized, bind_ok (pull_some hp)]
      simp [Load.len, hc]
    simp [final, points, run]

/-- A stored count is in the module at a point, and the parser changes nothing more. -/
theorem sized_accept (room : ℕ → WasmModule → WasmModule) {rest : ℕ → Load Unit} {s : LoadState} {n : ℕ}
    (hrest : KeepsShape (rest n)) (h : storedCount s.buffer = some n) :
    ((sized room rest).final s).module.shape = (room n s.module).shape ∧
      (∃ p ∈ (sized room rest).points s, p.module = room n s.module) ∧
      ∀ p ∈ (sized room rest).points s, p.module = s.module ∨ p.module.shape = (room n s.module).shape := by
  rcases hp : bufferPullU32 s.buffer with _ | ⟨count, b⟩
  · simp [storedCount, hp] at h
  obtain ⟨hc, rfl⟩ : count ≤ b.data.length ∧ count = n := by
    simpa [storedCount, hp, Option.ite_none_right_eq_some] using h
  let t : LoadState := ⟨room count s.module, b⟩
  have run : sized room rest s = ((rest count t).1, (rest count t).2.1,
      { s with buffer := b } :: t :: (rest count t).2.2) := by
    rw [sized, bind_ok (pull_some hp)]
    simp [Load.len, hc, Load.modify, t]
  obtain ⟨h₁, h₂⟩ := hrest _ t rfl
  simp only [final, points, run, List.mem_cons]
  refine ⟨h₁, ⟨t, Or.inr (Or.inl rfl), rfl⟩, ?_⟩
  rintro p (rfl | rfl | hp')
  · exact Or.inl rfl
  · exact Or.inr rfl
  · exact Or.inr (h₂ p hp')

theorem wasmParseImportSection_sized : ∃ rest, (∀ n, KeepsShape (rest n)) ∧
    wasmParseImportSection = sized (fun n m => { m with imports := List.replicate n {} }) rest := by
  refine ⟨_, fun n => ?_, rfl⟩
  refine .bind (.forInt (fun i => ?_) _ _) fun _ => .atEnd
  refine .bind pullItemName_keeps fun _ => .bind pullItemName_keeps fun _ => .bind (.pull _) fun _ =>
    .bind (.pull _) fun _ => .bind (.check _) fun _ => .bind .module fun _ => .bind (.check _) fun _ =>
    .modify fun m => ?_
  simp [WasmModule.shape]

theorem wasmParseFunctionSection_sized : ∃ rest, (∀ n, KeepsShape (rest n)) ∧
    wasmParseFunctionSection = sized (fun n m => { m with functions := List.replicate n 0 }) rest := by
  refine ⟨_, fun n => ?_, rfl⟩
  refine .bind (.forInt (fun i => ?_) _ _) fun _ => .atEnd
  refine .bind (.pull _) fun _ => .bind .module fun _ => .bind (.check _) fun _ => .modify fun m => ?_
  simp [WasmModule.shape]

/-- Storing the count `n` over `cur m` keeps the names fitting exactly when there are none
or the count does not change. -/
theorem sized_fits {rest : ℕ → Load Unit} (room : ℕ → WasmModule → WasmModule) (cur : WasmModule → ℕ)
    (hrest : ∀ n, KeepsShape (rest n)) (hnames : ∀ n m, (room n m).functionNames = m.functionNames)
    (htotal : ∀ n m, (room n m).totalFuncs + cur m = m.totalFuncs + n) {s : LoadState} (hs : NamesFit s.module) :
    ((∀ p ∈ (sized room rest).points s, NamesFit p.module) ↔
      ¬(s.module.functionNames ≠ none ∧ ∃ n, storedCount s.buffer = some n ∧ n ≠ cur s.module)) ∧
    ((∀ p ∈ (sized room rest).points s, NamesFit p.module) → NamesFit ((sized room rest).final s).module) := by
  rcases hc : storedCount s.buffer with _ | n
  · obtain ⟨hf, hp⟩ := sized_reject room rest hc
    exact ⟨by simpa using fun p h => hp p h ▸ hs, fun _ => hf ▸ hs⟩
  obtain ⟨hf, ⟨q, hq, hqm⟩, hp⟩ := sized_accept room (hrest n) hc
  have hroom : NamesFit (room n s.module) ↔ (s.module.functionNames ≠ none → n = cur s.module) := by
    have ht := htotal n s.module
    rcases hn : s.module.functionNames with _ | names
    · simp [NamesFit, hnames, hn]
    · have hl := hs names hn
      simp [NamesFit, hnames, hn]
      omega
  have all : (∀ p ∈ (sized room rest).points s, NamesFit p.module) ↔ NamesFit (room n s.module) := by
    refine ⟨fun h => hqm ▸ h q hq, fun h p hpp => ?_⟩
    rcases hp p hpp with he | he
    · exact he ▸ hs
    · exact namesFit_of_shape he h
  refine ⟨?_, fun h => namesFit_of_shape hf (all.mp h)⟩
  rw [all, hroom]
  simp

theorem wasmParseNameSection_fits (totalFuncs : ℕ) : Preserves (FitsTotal totalFuncs) wasmParseNameSection := by
  intro t ht
  have run : wasmParseNameSection t = nameSubsections t.module.totalFuncs t.buffer.data.length t := by
    simp only [wasmParseNameSection, Load.module, Load.len, read_bind]
  obtain ⟨h₁, h₂⟩ := nameSubsections_fits t.module.totalFuncs t.buffer.data.length t ⟨ht.1, rfl⟩
  simp only [final, points, ← run] at h₁ h₂
  exact ⟨⟨h₁.1, h₁.2.trans ht.2⟩, fun u hu => ⟨(h₂ u hu).1, (h₂ u hu).2.trans ht.2⟩⟩

/-- Most sections have to do with neither. -/
theorem wasmParseSection_keeps : ∀ id, id ≠ 0 → id ≠ 2 → id ≠ 3 → KeepsShape (wasmParseSection id)
  | 0, h, _, _ => absurd rfl h
  | 1, _, _, _ => wasmParseTypeSection_keeps
  | 2, _, h, _ => absurd rfl h
  | 3, _, _, h => absurd rfl h
  | 4, _, _, _ => wasmParseTableSection_keeps
  | 5, _, _, _ => wasmParseMemorySection_keeps
  | 6, _, _, _ => wasmParseGlobalSection_keeps
  | 7, _, _, _ => wasmParseExportSection_keeps
  | 8, _, _, _ => wasmParseStartSection_keeps
  | 9, _, _, _ => wasmParseElementSection_keeps
  | 10, _, _, _ => wasmParseCodeSection_keeps
  | 11, _, _, _ => wasmParseDataSection_keeps
  | 12, _, _, _ => .pure _
  | _ + 13, _, _, _ => .fail

/-- And a custom section fits the names to the shape. -/
theorem wasmParseSection_fits (totalFuncs : ℕ) {id : ℕ} (h₂ : id ≠ 2) (h₃ : id ≠ 3) : Preserves (FitsTotal totalFuncs) (wasmParseSection id) := by
  by_cases h₀ : id = 0
  · subst h₀
    exact .bind ((KeepsShape.pull _).fitsTotal _) fun _ => .ite (wasmParseNameSection_fits _) (.pure _)
  · exact (wasmParseSection_keeps id h₀ h₂ h₃).fitsTotal _

/-- What one section does to the names. -/
theorem section_fits (id : ℕ) {s : LoadState} (hs : NamesFit s.module) :
    ((∀ p ∈ (wasmParseSection id).points s, NamesFit p.module) ↔ ¬Resizes id s.buffer s.module) ∧
    ((∀ p ∈ (wasmParseSection id).points s, NamesFit p.module) →
      NamesFit ((wasmParseSection id).final s).module) := by
  by_cases h₂ : id = 2
  · subst h₂
    obtain ⟨rest, hrest, he⟩ := wasmParseImportSection_sized
    have h := sized_fits (fun n m => { m with imports := List.replicate n {} })
      (fun m => m.imports.length) hrest (fun _ _ => rfl)
      (fun n m => by simp [WasmModule.totalFuncs]; omega) hs
    rw [show wasmParseSection 2 = wasmParseImportSection from rfl, he]
    simpa [Resizes] using h
  by_cases h₃ : id = 3
  · subst h₃
    obtain ⟨rest, hrest, he⟩ := wasmParseFunctionSection_sized
    have h := sized_fits (fun n m => { m with functions := List.replicate n 0 })
      (fun m => m.functions.length) hrest (fun _ _ => rfl)
      (fun n m => by simp [WasmModule.totalFuncs]; omega) hs
    rw [show wasmParseSection 3 = wasmParseFunctionSection from rfl, he]
    simpa [Resizes] using h
  obtain ⟨hf, hp⟩ := wasmParseSection_fits s.module.totalFuncs h₂ h₃ s ⟨hs, rfl⟩
  exact ⟨iff_of_true (fun p h => (hp p h).1) (by simp [Resizes, h₂, h₃]), fun _ => hf.1⟩

/-! ### The run -/

/-- The section the loader reads next, when it is in its place. -/
def nextSection (l : Loader) : Option (ℕ × List UInt8) := do
  let ((id, contents), _) ← wasmPullSection l.buffer
  if id = 0 ∨ (findSectionIndex id l.currentIndex).isSome then some (id, contents) else none

/-- One successful turn of the section loop. -/
def SectionStep (l l' : Loader) : Prop :=
  l.buffer.data ≠ [] ∧ (wasmLoadSection l).1 = .ok () ∧ l' = wasmLoadSection.final l

/-- The loader between two sections of the run on `data`. -/
def Reached (data : List UInt8) (l : Loader) : Prop :=
  ∃ start, loaderStart data = some start ∧ Relation.ReflTransGen SectionStep start l

/-- The next section would resize a function space that is already named. -/
def ResizesNext (l : Loader) : Prop :=
  l.buffer.data ≠ [] ∧ ∃ id contents, nextSection l = some (id, contents) ∧ Resizes id ⟨0, contents⟩ l.module

/-- A turn writes only copies of the module, until it runs the parser of the section. -/
theorem wasmLoadSection_apply (l : Loader) :
    (nextSection l = none ∧ (wasmLoadSection.final l).module = l.module ∧
      ∀ p ∈ wasmLoadSection.points l, p.module = l.module) ∨
    ∃ id contents, nextSection l = some (id, contents) ∧
      (wasmLoadSection.final l).module = ((wasmParseSection id).final ⟨l.module, ⟨0, contents⟩⟩).module ∧
      ∀ m, m ∈ (wasmLoadSection.points l).map Loader.module ↔
        m = l.module ∨ m ∈ ((wasmParseSection id).points ⟨l.module, ⟨0, contents⟩⟩).map LoadState.module := by
  rcases hp : wasmPullSection l.buffer with _ | ⟨⟨id, contents⟩, buffer⟩
  · left
    simp [nextSection, hp, final, points, wasmLoadSection]
  by_cases h₀ : id = 0
  · right
    refine ⟨id, contents, by simp [nextSection, hp, h₀], ?_, fun m => ?_⟩
    · simp [final, wasmLoadSection, hp, h₀, parseContents, zoom]
    · simp [points, wasmLoadSection, hp, h₀, parseContents, zoom, eq_comm]
  rcases hi : findSectionIndex id l.currentIndex with _ | index
  · left
    simp [nextSection, hp, h₀, hi, final, points, wasmLoadSection]
  · right
    refine ⟨id, contents, by simp [nextSection, hp, hi], ?_, fun m => ?_⟩
    · simp [final, wasmLoadSection, hp, h₀, hi, parseContents, zoom]
    · simp [points, wasmLoadSection, hp, h₀, hi, parseContents, zoom, eq_comm]

/-- `section_fits` for a turn of the loop. -/
theorem wasmLoadSection_fits {l : Loader} (hl : NamesFit l.module) (hne : l.buffer.data ≠ []) :
    ((∀ p ∈ wasmLoadSection.points l, NamesFit p.module) ↔ ¬ResizesNext l) ∧
    ((∀ p ∈ wasmLoadSection.points l, NamesFit p.module) → NamesFit (wasmLoadSection.final l).module) := by
  rcases wasmLoadSection_apply l with ⟨hn, hf, hp⟩ | ⟨id, contents, hn, hf, hp⟩
  · exact ⟨iff_of_true (fun p h => hp p h ▸ hl) (by simp [ResizesNext, hn]), fun _ => hf ▸ hl⟩
  · obtain ⟨h₁, h₂⟩ := section_fits id (s := ⟨l.module, ⟨0, contents⟩⟩) hl
    have all : (∀ p ∈ wasmLoadSection.points l, NamesFit p.module) ↔
        ∀ p ∈ (wasmParseSection id).points ⟨l.module, ⟨0, contents⟩⟩, NamesFit p.module := by
      simp only [List.mem_map] at hp
      constructor
      · intro h p hpp
        obtain ⟨q, hq, he⟩ := (hp p.module).mpr (Or.inr ⟨p, hpp, rfl⟩)
        exact he ▸ h q hq
      · intro h p hpp
        rcases (hp p.module).mp ⟨p, hpp, rfl⟩ with he | ⟨q, hq, he⟩
        · exact he ▸ hl
        · exact he ▸ h q hq
    rw [all, hf]
    exact ⟨h₁.trans (by simp [ResizesNext, hn, hne]), h₂⟩

theorem bufferPullU32_length {b b' : Buffer} {n : ℕ} (h : bufferPullU32 b = some (n, b')) :
    b'.data.length < b.data.length := by
  obtain ⟨⟨out, shift, last, rest⟩, hl, he⟩ := Option.map_eq_some_iff.mp h
  obtain ⟨used, hu, hd⟩ := lebLoop_suffix hl
  simp only [Prod.mk.injEq] at he
  have := List.length_pos_iff.mpr hu
  simp only [hd, ← he.2, List.length_append]
  omega

theorem wasmPullSection_length {b b' : Buffer} {r : ℕ × List UInt8} (h : wasmPullSection b = some (r, b')) :
    b'.data.length < b.data.length := by
  simp only [wasmPullSection, Checked.bind_eq_some, Checked.pure_eq_some, bufferPullU8_eq_some,
    bufferPull_eq_some, Prod.mk.injEq] at h
  obtain ⟨_, c, ⟨hc, -⟩, len, d, hd, _, _, ⟨-, -, rfl⟩, -, rfl⟩ := h
  have := bufferPullU32_length hd
  simp only [List.length_drop, hc, List.length_cons]
  omega

theorem SectionStep.length_lt {l l' : Loader} (h : SectionStep l l') :
    l'.buffer.data.length < l.buffer.data.length := by
  obtain ⟨-, hs, rfl⟩ := h
  rcases hp : wasmPullSection l.buffer with _ | ⟨⟨id, contents⟩, buffer⟩
  · simp [wasmLoadSection, hp] at hs
  have := wasmPullSection_length hp
  by_cases h₀ : id = 0
  · simpa [final, wasmLoadSection, hp, h₀, parseContents, zoom] using this
  rcases hi : findSectionIndex id l.currentIndex with _ | index
  · simp [wasmLoadSection, hp, h₀, hi] at hs
  · simpa [final, wasmLoadSection, hp, h₀, hi, parseContents, zoom] using this

/-- The points of the loop are those of its turns. -/
theorem mem_points_wasmLoadSections {fuel : ℕ} {l p : Loader} (hf : l.buffer.data.length ≤ fuel) :
    p ∈ (wasmLoadSections fuel).points l ↔
      ∃ l', Relation.ReflTransGen SectionStep l l' ∧ l'.buffer.data ≠ [] ∧ p ∈ wasmLoadSection.points l' := by
  induction fuel generalizing l with
  | zero =>
    have he : l.buffer.data = [] := List.eq_nil_of_length_eq_zero (by omega)
    refine iff_of_false (by simp [wasmLoadSections, points, Pure.pure]) ?_
    rintro ⟨l', hl', hne, -⟩
    rcases Relation.ReflTransGen.cases_head hl' with rfl | ⟨m, hm, -⟩
    · exact hne he
    · exact hm.1 he
  | succ fuel ih =>
    by_cases he : l.buffer.data = []
    · refine iff_of_false (by simp [wasmLoadSections, points, Pure.pure, he]) ?_
      rintro ⟨l', hl', hne, -⟩
      rcases Relation.ReflTransGen.cases_head hl' with rfl | ⟨m, hm, -⟩
      · exact hne he
      · exact hm.1 he
    have hpt : p ∈ (wasmLoadSections (fuel + 1)).points l ↔ p ∈ wasmLoadSection.points l ∨
        (wasmLoadSection l).1 = .ok () ∧ p ∈ (wasmLoadSections fuel).points (wasmLoadSection.final l) := by
      rcases hw : wasmLoadSection l with ⟨⟨⟩ | _ | _, t, seen⟩
      · simp [wasmLoadSections, points, final, he, bind_ok hw, hw]
      · simp [wasmLoadSections, points, final, he, bind_failed hw, hw]
      · simp [wasmLoadSections, points, final, he, bind_undefined hw, hw]
    rw [hpt]
    constructor
    · rintro (h | ⟨hs, h⟩)
      · exact ⟨l, .refl, he, h⟩
      · have step : SectionStep l (wasmLoadSection.final l) := ⟨he, hs, rfl⟩
        obtain ⟨l', hl', hne, hp⟩ := (ih (by have := step.length_lt; omega)).mp h
        exact ⟨l', .head step hl', hne, hp⟩
    · rintro ⟨l', hl', hne, hp⟩
      rcases Relation.ReflTransGen.cases_head hl' with rfl | ⟨m, hm, hl'⟩
      · exact Or.inl hp
      · refine Or.inr ⟨hm.2.1, ?_⟩
        have := hm.length_lt
        rw [← hm.2.2]
        exact (ih (by omega)).mpr ⟨l', hl', hne, hp⟩

/-- A loop that succeeds ends in a state it reached by turns. -/
theorem wasmLoadSections_reaches (fuel : ℕ) {l : Loader} (h : (wasmLoadSections fuel l).1 = .ok ()) :
    Relation.ReflTransGen SectionStep l ((wasmLoadSections fuel).final l) := by
  induction fuel generalizing l with
  | zero => exact .refl
  | succ fuel ih =>
    by_cases he : l.buffer.data = []
    · simp only [final, wasmLoadSections, he, read_bind]
      exact .refl
    rcases hw : wasmLoadSection l with ⟨⟨⟩ | _ | _, t, seen⟩
    · have step : SectionStep l t := ⟨he, by rw [hw], by rw [final, hw]⟩
      simp only [wasmLoadSections, read_bind, List.length_eq_zero_iff, ne_eq, he, not_false_eq_true, if_true,
        bind_ok hw] at h
      simpa [final, wasmLoadSections, he, bind_ok hw] using .head step (ih h)
    · simp [wasmLoadSections, he, bind_failed hw] at h
    · simp [wasmLoadSections, he, bind_undefined hw] at h

/-- The points of the whole run are the empty module and what the turns write. -/
theorem mem_loadPoints {data : List UInt8} {start : Loader} (h : loaderStart data = some start) {m : WasmModule} :
    m ∈ loadPoints data ↔ m = {} ∨ ∃ l, Relation.ReflTransGen SectionStep start l ∧ l.buffer.data ≠ [] ∧
      m ∈ (wasmLoadSection.points l).map Loader.module := by
  have run : wasmLoadModuleRun.points start = (wasmLoadSections start.buffer.data.length).points start := by
    simp only [points, wasmLoadModuleRun, read_bind]
    rcases hw : wasmLoadSections start.buffer.data.length start with ⟨⟨⟩ | _ | _, t, seen⟩
    · rw [bind_ok hw]; simp [check]
    · rw [bind_failed hw]
    · rw [bind_undefined hw]
  have loop : ∀ p, p ∈ (wasmLoadSections start.buffer.data.length).points start ↔ _ :=
    fun p => mem_points_wasmLoadSections (Nat.le_refl _)
  simp only [loadPoints, h, List.mem_cons, run, List.mem_map, loop]
  constructor
  · rintro (hm | ⟨p, ⟨l, hl, hne, hp⟩, rfl⟩)
    · exact Or.inl hm
    · exact Or.inr ⟨l, hl, hne, p, hp, rfl⟩
  · rintro (hm | ⟨l, hl, hne, p, hp, rfl⟩)
    · exact Or.inl hm
    · exact Or.inr ⟨p, ⟨l, hl, hne, hp⟩, rfl⟩

theorem loaderStart_module {data : List UInt8} {start : Loader} (h : loaderStart data = some start) :
    start.module = {} := by
  obtain ⟨r, -, rfl⟩ := Option.map_eq_some_iff.mp h
  rfl

/-- A module that is returned is the one of a reached loader. -/
theorem wasmLoadModule_reached {data : List UInt8} {m : WasmModule} (h : wasmLoadModule data = some m) :
    ∃ l, Reached data l ∧ l.module = m := by
  rcases hs : loaderStart data with _ | start
  · simp [wasmLoadModule, hs] at h
  simp only [wasmLoadModule, hs, Option.bind_eq_bind, Option.bind_some, wasmLoadModuleRun, read_bind] at h
  rcases hw : wasmLoadSections start.buffer.data.length start with ⟨⟨⟩ | _ | _, t, seen⟩
  · have reach := wasmLoadSections_reaches start.buffer.data.length (l := start) (by rw [hw])
    rw [final, hw] at reach
    refine ⟨t, ⟨start, hs, reach⟩, ?_⟩
    simp only [bind_ok hw, read_bind, check, Option.map_eq_some_iff] at h
    exact h.choose_spec.2
  · simp [bind_failed hw, Ending.result] at h
  · simp [bind_undefined hw, Ending.result] at h

theorem loaderStart_fits {data : List UInt8} {start : Loader} (h : loaderStart data = some start) :
    NamesFit start.module :=
  loaderStart_module h ▸ fun _ hn => by simp at hn

/-- Between two sections the names fit, as long as no section resized them. -/
theorem reached_fits {data : List UInt8} (h : ∀ l, Reached data l → ¬ResizesNext l) {l : Loader}
    (hl : Reached data l) : NamesFit l.module := by
  obtain ⟨start, hs, path⟩ := hl
  induction path with
  | refl => exact loaderStart_fits hs
  | @tail l l' path step ih =>
    have fits := wasmLoadSection_fits ih step.1
    exact step.2.2 ▸ fits.2 (fits.1.mpr (h l ⟨start, hs, path⟩))

/-- They also do as long as they fit at every point of the turns taken. -/
theorem fits_of_points {start l : Loader} (hs : NamesFit start.module) (path : Relation.ReflTransGen SectionStep start l)
    (h : ∀ l, Relation.ReflTransGen SectionStep start l → l.buffer.data ≠ [] →
      ∀ p ∈ wasmLoadSection.points l, NamesFit p.module) : NamesFit l.module := by
  induction path with
  | refl => exact hs
  | @tail l l' path step ih => exact step.2.2 ▸ (wasmLoadSection_fits ih step.1).2 (h l path step.1)

/-- The names fit the function space at every point of the run, and in the module it
returns, exactly when no section of the run resizes a function space already named. -/
theorem function_names_fit_iff (data : List UInt8) :
    ((∀ m ∈ loadPoints data, NamesFit m) ∧ ∀ m, wasmLoadModule data = some m → NamesFit m) ↔
      ∀ l, Reached data l → ¬ResizesNext l := by
  constructor
  · rintro ⟨hp, -⟩ l ⟨start, hs, path⟩ hr
    have turns : ∀ l, Relation.ReflTransGen SectionStep start l → l.buffer.data ≠ [] →
        ∀ p ∈ wasmLoadSection.points l, NamesFit p.module := fun l path hne p hpp =>
      hp _ ((mem_loadPoints hs).mpr (Or.inr ⟨l, path, hne, List.mem_map_of_mem hpp⟩))
    have fits := fits_of_points (loaderStart_fits hs) path turns
    exact (wasmLoadSection_fits fits hr.1).1.mp (turns l path hr.1) hr
  · intro h
    refine ⟨fun m hm => ?_, fun m hm => ?_⟩
    · rcases hs : loaderStart data with _ | start
      · simp only [loadPoints, hs, List.mem_singleton] at hm
        exact hm ▸ fun _ hn => by simp at hn
      rcases (mem_loadPoints hs).mp hm with rfl | ⟨l, path, hne, hl⟩
      · exact fun _ hn => by simp at hn
      · obtain ⟨p, hpp, rfl⟩ := List.mem_map.mp hl
        have reached : Reached data l := ⟨start, hs, path⟩
        exact (wasmLoadSection_fits (reached_fits h reached) hne).1.mpr (h l reached) p hpp
    · obtain ⟨l, hl, rfl⟩ := wasmLoadModule_reached hm
      exact reached_fits h hl

/-- A module with one import and one function whose names come between the two. -/
def namesBetween : List UInt8 :=
  [0x00, 0x61, 0x73, 0x6D, 0x01, 0x00, 0x00, 0x00,
   0x01, 0x04, 0x01, 0x60, 0x00, 0x00,
   0x02, 0x07, 0x01, 0x01, 0x6D, 0x01, 0x66, 0x00, 0x00,
   0x00, 0x08, 0x04, 0x6E, 0x61, 0x6D, 0x65, 0x01, 0x01, 0x00,
   0x03, 0x02, 0x01, 0x00,
   0x0A, 0x04, 0x01, 0x02, 0x00, 0x0B]

/-- It is loaded with an array of one entry for its two functions. -/
theorem function_names_short : ∃ m, wasmLoadModule namesBetween = some m ∧ ¬NamesFit m := by
  have run : (wasmLoadModule namesBetween).map (fun m => (m.functionNames, m.totalFuncs)) = some (some [none], 2) := by
    decide +kernel
  obtain ⟨m, hm, he⟩ := Option.map_eq_some_iff.mp run
  obtain ⟨hn, ht⟩ := Prod.mk.inj he
  exact ⟨m, hm, fun h => by simpa [ht] using h _ hn⟩

end SpidirWasm.Wasm
