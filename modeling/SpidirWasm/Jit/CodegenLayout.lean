import SpidirWasm.Jit.Link
import SpidirWasm.Logic.Moves

/-! Where the code generation puts things. As long as the code stays below 4 GiB and the
constants below 2^64 bytes, no size wraps around: the code of each function starts on a
multiple of 16 behind a gap of at least 16 bytes, and each used table has slots of its own. -/

namespace SpidirWasm.Jit

open Checked
open Util (Hmap)

/-- The end of the code of some blobs that are placed from `n` on. -/
def codeEnd (n : ℕ) (blobs : List Blob) : ℕ := blobs.foldl (fun n blob => alignUp n 16 + 16 + blob.code.length) n

/-- The end of their constants, with the gap in front of each. -/
def poolsEnd (n : ℕ) (blobs : List Blob) : ℕ :=
  blobs.foldl (fun n blob => if blob.constpool.length ≠ 0 then n + alignUp n blob.constpoolAlign + blob.constpool.length else n) n

/-- The end of the tables in use. -/
def tablesEnd (n : ℕ) (tables : List JitTable) : ℕ :=
  tables.foldl (fun n table => if table.used then alignUp n 8 + 8 * table.length else n) n

/-- The functions one behind the other, from `n` on. -/
def CodeLaid : ℕ → List FunctionCodegen → Prop
  | _, [] => True
  | n, f :: fs => f.codeOffset = alignUp n 16 + 16 ∧ CodeLaid (f.codeOffset + f.blob.code.length) fs

variable {emitter : Emitter} {cg cg' : Codegen} {ctx : JitContext} {n : ℕ} {blobs : List Blob} {fs : List FunctionCodegen}

theorem le_codeEnd (n : ℕ) (blobs : List Blob) : n ≤ codeEnd n blobs := by
  induction blobs generalizing n with
  | nil => exact Nat.le_refl n
  | cons blob blobs ih =>
    have first : n ≤ alignUp n 16 := le_alignUp (by decide)
    have rest : alignUp n 16 + 16 + blob.code.length ≤ codeEnd n (blob :: blobs) := ih _
    omega

theorem codeEnd_append (n : ℕ) (blobs : List Blob) (blob : Blob) :
    codeEnd n (blobs ++ [blob]) = alignUp (codeEnd n blobs) 16 + 16 + blob.code.length := by
  rw [codeEnd, codeEnd, List.foldl_append]
  rfl

theorem poolsEnd_append (n : ℕ) (blobs : List Blob) (blob : Blob) : poolsEnd n (blobs ++ [blob]) =
    if blob.constpool.length ≠ 0 then poolsEnd n blobs + alignUp (poolsEnd n blobs) blob.constpoolAlign + blob.constpool.length
    else poolsEnd n blobs := by
  rw [poolsEnd, poolsEnd, List.foldl_append]
  rfl

theorem tablesEnd_append (n : ℕ) (tables : List JitTable) (table : JitTable) : tablesEnd n (tables ++ [table]) =
    if table.used then alignUp (tablesEnd n tables) 8 + 8 * table.length else tablesEnd n tables := by
  rw [tablesEnd, tablesEnd, List.foldl_append]
  rfl

theorem le_tablesEnd (n : ℕ) (tables : List JitTable) : n ≤ tablesEnd n tables := by
  induction tables generalizing n with
  | nil => exact Nat.le_refl n
  | cons table tables ih =>
    have aligned : n ≤ alignUp n 8 := le_alignUp (by decide)
    refine le_trans ?_ (ih (if table.used then alignUp n 8 + 8 * table.length else n))
    split_ifs <;> omega

/-! ### Code -/

theorem CodeLaid.append {f : FunctionCodegen} (h : CodeLaid n fs)
    (hf : f.codeOffset = alignUp (codeEnd n (fs.map FunctionCodegen.blob)) 16 + 16) : CodeLaid n (fs ++ [f]) := by
  induction fs generalizing n with
  | nil => exact ⟨hf, trivial⟩
  | cons g fs ih =>
    obtain ⟨hg, hrest⟩ := h
    refine ⟨hg, ih hrest ?_⟩
    rw [hf, List.map_cons, codeEnd, List.foldl_cons, hg]
    rfl

/-- Every function is aligned, behind the start, and ends before the end. -/
theorem CodeLaid.inside (h : CodeLaid n fs) : ∀ f ∈ fs, 16 ∣ f.codeOffset ∧ n + 16 ≤ f.codeOffset ∧
    f.codeOffset + f.blob.code.length ≤ codeEnd n (fs.map FunctionCodegen.blob) := by
  induction fs generalizing n with
  | nil => simp
  | cons g fs ih =>
    obtain ⟨hg, hrest⟩ := h
    have behind : n ≤ alignUp n 16 := le_alignUp (by decide)
    have stop : codeEnd n ((g :: fs).map FunctionCodegen.blob) =
        codeEnd (g.codeOffset + g.blob.code.length) (fs.map FunctionCodegen.blob) := by
      rw [hg]
      rfl
    intro f hf
    rw [stop]
    obtain rfl | hf := List.mem_cons.mp hf
    · exact ⟨hg ▸ Nat.dvd_add (dvd_alignUp n 16) (dvd_refl 16), by omega, le_codeEnd _ _⟩
    · obtain ⟨haligned, hstart, hstop⟩ := ih hrest f hf
      exact ⟨haligned, by omega, hstop⟩

/-- Later functions lie behind earlier ones, and behind a gap. -/
theorem CodeLaid.pairwise (h : CodeLaid n fs) :
    fs.Pairwise fun f g => f.codeOffset + f.blob.code.length + 16 ≤ g.codeOffset := by
  induction fs generalizing n with
  | nil => exact .nil
  | cons f fs ih =>
    obtain ⟨hf, hrest⟩ := h
    exact .cons (fun g hg => (hrest.inside g hg).2.1) (ih hrest)

/-! ### The functions -/

/-- What of the context the layout is about. -/
def Codegen.layout (cg : Codegen) : Codegen := { cg with queue := [], funcToIdx := {}, imports := {} }

theorem place_layout (cg : Codegen) (function : ℕ) (blob : Blob) : (cg.place function blob).layout = cg.layout.place function blob := by
  by_cases h : blob.constpool.length = 0 <;> simp [Codegen.place, Codegen.layout, h]

/-- One more function is placed. -/
def PlaceStep (emitter : Emitter) (v v' : Codegen) : Prop := ∃ function blob, emitter function = some blob ∧ v' = v.place function blob

/-- A program that places functions. -/
abbrev Places (emitter : Emitter) {α : Type} (m : Checked Codegen α) : Prop := SpidirWasm.Moves (PlaceStep emitter) Codegen.layout m

instance (function : ℕ) : Places emitter (jitCodegenFunction emitter function) where
  moves cg _ cg' h := by
    obtain ⟨-, rfl⟩ | ⟨-, funcToIdx, blob, -, hemit, rfl⟩ := jitCodegenFunction_eq_some.mp h
    · exact .refl
    · obtain ⟨queue, hqueue⟩ := queueTargets_eq blob.relocs ({ cg with funcToIdx }.place function blob)
      rw [hqueue]
      exact .single ⟨function, blob, hemit, place_layout { cg with funcToIdx } function blob⟩

instance (funcidx : ℕ) : Places emitter (jitTryCodegenFunction emitter ctx funcidx) := by
  unfold jitTryCodegenFunction; infer_instance

instance (imports : Codegen → Hmap) : Places emitter (update fun cg => { cg with imports := imports cg }) := .still fun _ _ _ h => by
  cases h
  rfl

instance (queue : Codegen → List ℕ) : Places emitter (update fun cg => { cg with queue := queue cg }) := .still fun _ _ _ h => by
  cases h
  rfl

instance codegenImports_places (i : ℕ) (imports : List Wasm.WasmImport) : Places emitter (codegenImports ctx i imports) := by
  induction imports generalizing i with
  | nil => unfold codegenImports; infer_instance
  | cons item imports ih => unfold codegenImports; infer_instance

instance codegenQueue_places (fuel : ℕ) : Places emitter (codegenQueue emitter fuel) := by
  induction fuel with
  | zero => unfold codegenQueue; infer_instance
  | succ fuel ih =>
    unfold codegenQueue
    refine .seq inferInstance fun queue => ?_
    cases queue <;> infer_instance

instance (fuel : ℕ) : Places emitter (jitCodegenFunctions emitter ctx fuel) := by unfold jitCodegenFunctions; infer_instance

/-- The sizes are those of the functions placed so far, unless one wrapped around, and there
are no tables yet. -/
structure Unwrapped (v : Codegen) : Prop where
  code : codeEnd 0 (v.functions.map FunctionCodegen.blob) < 2 ^ 32 →
    CodeLaid 0 v.functions ∧ v.codeSize = codeEnd 0 (v.functions.map FunctionCodegen.blob)
  pools : poolsEnd 0 (v.functions.map FunctionCodegen.blob) < 2 ^ 64 → v.rodataSize = poolsEnd 0 (v.functions.map FunctionCodegen.blob) ∧
    ∀ f ∈ v.functions, f.blob.constpool.length ≠ 0 → f.constpoolOffset + f.blob.constpool.length ≤ v.rodataSize
  tables : v.globalOffsets = {}

theorem sizeT_of_lt {n : ℕ} (h : n < 2 ^ 64) : sizeT n = n := Nat.mod_eq_of_lt h

theorem uint32_of_lt {n : ℕ} (h : n < 2 ^ 32) : uint32 n = n := Nat.mod_eq_of_lt h

theorem placeCode_eq {blob : Blob} {n : ℕ} (h : alignUp n 16 + 16 + blob.code.length < 2 ^ 64) :
    placeCode n blob = (alignUp n 16 + 16, alignUp n 16 + 16 + blob.code.length) := by
  have aligned : sizeT (alignUp n 16) = alignUp n 16 := sizeT_of_lt (by omega)
  have start : sizeT (alignUp n 16 + 16) = alignUp n 16 + 16 := sizeT_of_lt (by omega)
  simp only [placeCode, aligned, start, sizeT_of_lt h]

theorem placePool_eq {blob : Blob} {n : ℕ} (h : n + alignUp n blob.constpoolAlign + blob.constpool.length < 2 ^ 64) :
    placePool n blob = (n + alignUp n blob.constpoolAlign, n + alignUp n blob.constpoolAlign + blob.constpool.length) := by
  have start : sizeT (n + alignUp n blob.constpoolAlign) = n + alignUp n blob.constpoolAlign := sizeT_of_lt (by omega)
  simp only [placePool, start, sizeT_of_lt h]

theorem place_sizes (cg : Codegen) (function : ℕ) (blob : Blob) : ∃ f : FunctionCodegen, f.blob = blob ∧
    f.codeOffset = uint32 (placeCode cg.codeSize blob).1 ∧
    (blob.constpool.length ≠ 0 → f.constpoolOffset = uint32 (placePool cg.rodataSize blob).1) ∧
    cg.place function blob = { cg with
      functions := cg.functions ++ [f]
      codeSize := (placeCode cg.codeSize blob).2
      rodataSize := if blob.constpool.length ≠ 0 then (placePool cg.rodataSize blob).2 else cg.rodataSize } := by
  by_cases h : blob.constpool.length = 0
  · refine ⟨⟨blob, function, uint32 (placeCode cg.codeSize blob).1, 2 ^ 32 - 1⟩, rfl, rfl, fun hne => absurd h hne, ?_⟩
    simp [Codegen.place, h]
  · refine ⟨⟨blob, function, uint32 (placeCode cg.codeSize blob).1, uint32 (placePool cg.rodataSize blob).1⟩, rfl, rfl, fun _ => rfl, ?_⟩
    simp [Codegen.place, h]

/-- One more function keeps the sizes. -/
theorem PlaceStep.unwrapped {v v' : Codegen} (hs : PlaceStep emitter v v') (h : Unwrapped v) : Unwrapped v' := by
  obtain ⟨function, blob, -, rfl⟩ := hs
  obtain ⟨f, rfl, hoffset, hpoolOffset, hplace⟩ := place_sizes v function blob
  rw [hplace]
  have blobs : (v.functions ++ [f]).map FunctionCodegen.blob = v.functions.map FunctionCodegen.blob ++ [f.blob] := by simp
  refine ⟨fun hlt => ?_, fun hlt => ?_, h.tables⟩
  · simp only [blobs, codeEnd_append] at hlt ⊢
    have behind : codeEnd 0 (v.functions.map FunctionCodegen.blob) ≤ alignUp (codeEnd 0 (v.functions.map FunctionCodegen.blob)) 16 :=
      le_alignUp (by decide)
    obtain ⟨hlaid, hsize⟩ := h.code (by omega)
    have placed := @placeCode_eq f.blob (codeEnd 0 (v.functions.map FunctionCodegen.blob)) (by omega)
    rw [hsize, placed]
    refine ⟨hlaid.append ?_, rfl⟩
    rw [hoffset, hsize, placed]
    exact uint32_of_lt (by omega)
  · simp only [blobs, poolsEnd_append] at hlt ⊢
    split_ifs at hlt ⊢ with hpool
    · obtain ⟨hsize, hinside⟩ := h.pools (by omega)
      have start := hpoolOffset hpool
      rw [hsize, placePool_eq hlt] at start
      rw [hsize, placePool_eq hlt]
      refine ⟨rfl, fun g hg hpool' => ?_⟩
      rcases List.mem_append.mp hg with hg | hg
      · have old := hinside g hg hpool'
        simp only
        omega
      · obtain rfl := List.mem_singleton.mp hg
        have small : uint32 (poolsEnd 0 (v.functions.map FunctionCodegen.blob) +
          alignUp (poolsEnd 0 (v.functions.map FunctionCodegen.blob)) g.blob.constpoolAlign) ≤ _ := Nat.mod_le _ _
        rw [start]
        exact Nat.add_le_add_right small _
    · obtain ⟨hsize, hinside⟩ := h.pools hlt
      refine ⟨hsize, fun g hg hpool' => ?_⟩
      rcases List.mem_append.mp hg with hg | hg
      · exact hinside g hg hpool'
      · exact absurd (List.mem_singleton.mp hg ▸ hpool') hpool

/-- Nothing is placed yet. -/
theorem unwrapped_start : Unwrapped {} := by
  refine ⟨fun _ => ⟨trivial, rfl⟩, fun _ => ⟨rfl, fun f hf => ?_⟩, rfl⟩
  cases hf

/-- The functions are aligned and in the code part, unless its size wrapped around. -/
def CodeInside (v : Codegen) : Prop := codeEnd 0 (v.functions.map FunctionCodegen.blob) < 2 ^ 64 →
  v.codeSize = codeEnd 0 (v.functions.map FunctionCodegen.blob) ∧
    ∀ f ∈ v.functions, 16 ∣ f.codeOffset ∧ f.codeOffset + f.blob.code.length ≤ v.codeSize

theorem codeInside_start : CodeInside {} := fun _ => ⟨rfl, fun _ hf => nomatch hf⟩

/-- One more function, whose offset may have been cut to 32 bits. -/
theorem PlaceStep.inside {v v' : Codegen} (hs : PlaceStep emitter v v') (h : CodeInside v) : CodeInside v' := by
  obtain ⟨function, blob, -, rfl⟩ := hs
  obtain ⟨f, rfl, hoffset, -, hplace⟩ := place_sizes v function blob
  rw [hplace]
  intro hlt
  have blobs : (v.functions ++ [f]).map FunctionCodegen.blob = v.functions.map FunctionCodegen.blob ++ [f.blob] := by simp
  simp only [blobs, codeEnd_append] at hlt ⊢
  have behind : codeEnd 0 (v.functions.map FunctionCodegen.blob) ≤ alignUp (codeEnd 0 (v.functions.map FunctionCodegen.blob)) 16 :=
    le_alignUp (by decide)
  obtain ⟨hsize, hall⟩ := h (by omega)
  rw [hsize, placeCode_eq hlt] at hoffset
  rw [hsize, placeCode_eq hlt]
  refine ⟨rfl, fun g hg => ?_⟩
  rcases List.mem_append.mp hg with hg | hg
  · obtain ⟨haligned, hstop⟩ := hall g hg
    exact ⟨haligned, by simp only; omega⟩
  · obtain rfl := List.mem_singleton.mp hg
    have aligned : 16 ∣ alignUp (codeEnd 0 (v.functions.map FunctionCodegen.blob)) 16 + 16 := Nat.dvd_add (dvd_alignUp _ 16) (dvd_refl 16)
    rw [hoffset]
    refine ⟨(Nat.dvd_mod_iff (by decide)).mpr aligned, Nat.add_le_add_right (Nat.mod_le _ _) _⟩

/-! ### The tables -/

/-- Placing the tables leaves the functions. -/
theorem codegenTables_kept {i n : ℕ} (hrun : forFrom (fun i => do codegenTable (← lift ctx.tables[i]?)) i n cg = some ((), cg')) :
    ∃ rodataSize globalOffsets, cg' = { cg with rodataSize, globalOffsets } := by
  induction n generalizing i cg with
  | zero =>
    obtain ⟨-, rfl⟩ := Prod.mk.inj (Option.some.inj hrun)
    exact ⟨cg.rodataSize, cg.globalOffsets, rfl⟩
  | succ n ih =>
    obtain ⟨_, cg₁, hfirst, hrest⟩ := (bind_eq_some _ _ _ _).mp hrun
    obtain ⟨table, -, hfirst⟩ := (lift_bind_eq_some _ _ _ _).mp hfirst
    obtain ⟨rodataSize, globalOffsets, rfl⟩ := ih hrest
    rw [codegenTable] at hfirst
    split_ifs at hfirst
    · simp only [read_bind, update_bind, lift_bind_eq_some, update_eq_some, Prod.mk.injEq, true_and] at hfirst
      obtain ⟨map, -, rfl⟩ := hfirst
      exact ⟨rodataSize, globalOffsets, rfl⟩
    · obtain ⟨-, rfl⟩ := Prod.mk.inj (Option.some.inj hfirst)
      exact ⟨rodataSize, globalOffsets, rfl⟩

/-- Where a used table starts, behind constants that end at `n`. -/
def tableStart (n : ℕ) (tables : List JitTable) (i : ℕ) : ℕ := alignUp (tablesEnd n (tables.take i)) 8

theorem tablesEnd_take {table : JitTable} {i : ℕ} (h : ctx.tables[i]? = some table) : tablesEnd n (ctx.tables.take (i + 1)) =
    if table.used then tableStart n ctx.tables i + 8 * table.length else tablesEnd n (ctx.tables.take i) := by
  obtain ⟨hlt, rfl⟩ := List.getElem?_eq_some_iff.mp h
  rw [List.take_succ_eq_append_getElem hlt, tablesEnd_append]
  rfl

theorem tablesEnd_take_mono {i j : ℕ} (h : i ≤ j) (tables : List JitTable) : tablesEnd n (tables.take i) ≤ tablesEnd n (tables.take j) := by
  have split : tables.take j = tables.take i ++ (tables.drop i).take (j - i) := by
    rw [← List.take_add, Nat.add_sub_cancel' h]
  rw [split, tablesEnd, tablesEnd, List.foldl_append]
  exact le_tablesEnd _ _

theorem le_tableStart (n : ℕ) (tables : List JitTable) (i : ℕ) : tablesEnd n (tables.take i) ≤ tableStart n tables i := le_alignUp (by decide)

/-- A table lies between the ends of the tables around it. -/
theorem tableStart_add_le {table : JitTable} {i j : ℕ} (h : ctx.tables[i]? = some table) (hused : table.used = true) (hij : i < j) :
    tableStart n ctx.tables i + 8 * table.length ≤ tablesEnd n (ctx.tables.take j) := by
  have next := tablesEnd_take (n := n) h
  rw [if_pos hused] at next
  exact next ▸ tablesEnd_take_mono hij ctx.tables

/-- The used tables among the first `i` have slots inside of the constants. -/
structure TablesLaid (ctx : JitContext) (i : ℕ) (cg : Codegen) : Prop where
  wf : cg.globalOffsets.Wf
  slots : ∀ j < i, ∀ t, ctx.tables[j]? = some t → t.used = true →
    ∃ offset, cg.globalOffsets.lookup t.global = some offset ∧ 8 ∣ offset ∧ offset + 8 * t.length ≤ cg.rodataSize

/-- The used tables among the first `i` are one behind the other, from `n` on. -/
structure TablesPlaced (n : ℕ) (ctx : JitContext) (i : ℕ) (cg : Codegen) : Prop where
  wf : cg.globalOffsets.Wf
  size : cg.rodataSize = tablesEnd n (ctx.tables.take i)
  slots : ∀ j < i, ∀ t, ctx.tables[j]? = some t → t.used = true → cg.globalOffsets.lookup t.global = some (tableStart n ctx.tables j)

theorem TablesPlaced.laid {i : ℕ} (h : TablesPlaced n ctx i cg) : TablesLaid ctx i cg := by
  refine ⟨h.wf, fun j hj t ht hused => ⟨_, h.slots j hj t ht hused, dvd_alignUp _ 8, ?_⟩⟩
  rw [h.size]
  exact tableStart_add_le ht hused hj

/-- One more table, whose global id is new. -/
theorem codegenTable_placed {i : ℕ} {table : JitTable} (h : TablesPlaced n ctx i cg) (htable : ctx.tables[i]? = some table)
    (hglobals : ∀ (j : ℕ) (t : JitTable), ctx.tables[j]? = some t → t.global = j)
    (hsize : tablesEnd n (ctx.tables.take (i + 1)) < 2 ^ 64) (hrun : codegenTable table cg = some ((), cg')) :
    TablesPlaced n ctx (i + 1) cg' := by
  have earlier : ∀ j < i + 1, ∀ t, ctx.tables[j]? = some t → j = i ∧ t = table ∨ j < i := by
    intro j hj t ht
    by_cases hi : j = i
    · subst hi
      exact .inl ⟨rfl, Option.some.inj (ht.symm.trans htable)⟩
    · exact .inr (by omega)
  rw [tablesEnd_take htable] at hsize
  rw [codegenTable] at hrun
  split_ifs at hrun hsize with hused
  · have start : sizeT (alignUp cg.rodataSize 8) = tableStart n ctx.tables i := by
      rw [h.size]
      exact sizeT_of_lt (lt_of_le_of_lt (Nat.le_add_right _ _) hsize)
    have whole : sizeT (tableStart n ctx.tables i + 8 * table.length) = tableStart n ctx.tables i + 8 * table.length := sizeT_of_lt hsize
    simp only [read_bind, update_bind, lift_bind_eq_some, update_eq_some, Prod.mk.injEq, true_and, start, whole] at hrun
    obtain ⟨map, hinsert, rfl⟩ := hrun
    obtain ⟨wf, found⟩ := Hmap.insert_eq_some h.wf hinsert
    refine ⟨wf, by rw [tablesEnd_take htable, if_pos hused], fun j hj t ht hu => ?_⟩
    simp only [found]
    obtain ⟨rfl, rfl⟩ | hj := earlier j hj t ht
    · exact if_pos rfl
    · have other : t.global ≠ table.global := by
        rw [hglobals j t ht, hglobals i table htable]
        omega
      rw [if_neg other, h.slots j hj t ht hu]
  · obtain ⟨-, rfl⟩ := Prod.mk.inj (Option.some.inj hrun)
    refine ⟨h.wf, by rw [tablesEnd_take htable, if_neg hused, h.size], fun j hj t ht hu => ?_⟩
    obtain ⟨rfl, rfl⟩ | hj := earlier j hj t ht
    · exact absurd hu hused
    · exact h.slots j hj t ht hu

theorem codegenTables_placed {i k : ℕ} (h : TablesPlaced n ctx i cg) (hk : i + k = ctx.tables.length)
    (hglobals : ∀ (j : ℕ) (t : JitTable), ctx.tables[j]? = some t → t.global = j) (hsize : tablesEnd n ctx.tables < 2 ^ 64)
    (hrun : forFrom (fun i => do codegenTable (← lift ctx.tables[i]?)) i k cg = some ((), cg')) :
    TablesPlaced n ctx ctx.tables.length cg' := by
  induction k generalizing i cg with
  | zero =>
    obtain ⟨-, rfl⟩ := Prod.mk.inj (Option.some.inj hrun)
    rwa [← hk]
  | succ k ih =>
    obtain ⟨_, cg₁, hfirst, hrest⟩ := (bind_eq_some _ _ _ _).mp hrun
    obtain ⟨table, htable, hfirst⟩ := (lift_bind_eq_some _ _ _ _).mp hfirst
    have whole : tablesEnd n (ctx.tables.take (i + 1)) ≤ tablesEnd n (ctx.tables.take ctx.tables.length) := tablesEnd_take_mono (by omega) _
    rw [List.take_length] at whole
    exact ih (codegenTable_placed h htable hglobals (by omega) hfirst) (by omega) hrest

end SpidirWasm.Jit
