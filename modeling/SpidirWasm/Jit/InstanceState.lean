import SpidirWasm.Jit.Context
import SpidirWasm.Logic.Layout
import SpidirWasm.Spidir.Semantics
import SpidirWasm.Wasm.Valid

/-! The state of an instance: a slot for every mutable global and for every passive data
segment. The code finds a slot by its offset, and an instance starts as a copy of the
image that the compiler builds. -/

namespace SpidirWasm.Jit

open Spidir
open Wasm (WasmModule WasmGlobal DataSegment)

/-- `jit_get_spidir_size`, which asserts on a type without one. -/
def jitGetSpidirSize : ValueType → Option ℕ
  | .f64 => some 8
  | .f32 => some 4
  | .i64 => some 8
  | .i32 => some 4
  | _ => none

/-- `sizeof(void*)`. -/
def pointerSize : ℕ := 8

/-- The loop of `jit_prepare_state` over the globals, from the running offset on. -/
def prepareGlobals (offset : ℕ) : List WasmGlobal → Option (List JitGlobal × ℕ)
  | [] => some ([], offset)
  | global :: globals => do
    let type ← jitGetSpidirValueType global.value.kind
    if global.mutable then
      let size ← jitGetSpidirSize type
      let offset := alignUp offset size
      let (rest, stop) ← prepareGlobals (offset + size) globals
      return (⟨some offset, type⟩ :: rest, stop)
    else
      let (rest, stop) ← prepareGlobals offset globals
      return (⟨none, type⟩ :: rest, stop)

/-- Its loop over the data segments. -/
def prepareData (offset : ℕ) : List DataSegment → List JitData × ℕ
  | [] => ([], offset)
  | data :: rest =>
    if !data.active then
      let offset := alignUp offset pointerSize
      let (rest, stop) := prepareData (offset + pointerSize) rest
      (⟨some offset⟩ :: rest, stop)
    else
      let (rest, stop) := prepareData offset rest
      (⟨none⟩ :: rest, stop)

/-- `jit_prepare_state`, with `state_size`. -/
def jitPrepareState (c : JitContext) : Option (JitContext × ℕ) := do
  let (globals, offset) ← prepareGlobals 0 c.module.globals
  let (data, stateSize) := prepareData offset c.module.data
  return ({ c with globals, data }, stateSize)

/-- How many bytes the initialiser pokes for a global. -/
def valueSize : Wasm.ValueType → Option ℕ
  | .f32 => some 4
  | .f64 => some 8
  | .i32 => some 4
  | .i64 => some 8
  | .invalid => none

/-- The initial value of a mutable global, in its slot. -/
def pokeGlobal (image : Memory UInt8) : WasmGlobal × JitGlobal → Option (Memory UInt8)
  | (global, jitGlobal) =>
    if !global.mutable then some image
    else do
      let size ← valueSize global.value.kind
      let offset ← jitGlobal.offset
      image.store offset (Word.toBytes size (BitVec.ofNat 64 global.value.bits))

/-- The pointer to the bytes of a passive segment, in its slot. -/
def pokeData (pointer : ℕ → Word) (image : Memory UInt8) : (DataSegment × JitData) × ℕ → Option (Memory UInt8)
  | ((data, jitData), i) =>
    if !data.active then do
      let offset ← jitData.offset
      image.store offset ((pointer i).toBytes pointerSize)
    else some image

/-- `jit_build_state_init`, by the addresses of the segments. The buffer starts as zeros,
and there is none for an empty state. -/
def jitBuildStateInit (c : JitContext) (stateSize : ℕ) (pointer : ℕ → Word) : Option (Memory UInt8) :=
  if stateSize = 0 then some fun _ => none
  else do
    let image := Memory.map 0 stateSize 0 fun _ => none
    let image ← (c.module.globals.zip c.globals).foldlM pokeGlobal image
    (c.module.data.zip c.data).zipIdx.foldlM (pokeData pointer) image

/-! ### The layout -/

/-- The slot of a global. -/
def JitGlobal.slot (g : JitGlobal) : Option (ℕ × ℕ) :=
  g.offset.bind fun offset => (jitGetSpidirSize g.type).map fun size => (offset, size)

/-- The slot of a segment. -/
def JitData.slot (d : JitData) : Option (ℕ × ℕ) := d.offset.map fun offset => (offset, pointerSize)

/-- The slots of the state, those of the globals first. -/
def JitContext.slots (c : JitContext) : List (Option (ℕ × ℕ)) :=
  c.globals.map JitGlobal.slot ++ c.data.map JitData.slot

section Layout

variable {offset stop size i : ℕ} {globals : List WasmGlobal} {gs : List JitGlobal} {data : List DataSegment} {c c' : JitContext}
  {type : ValueType} {g : JitGlobal} {global : WasmGlobal}

theorem jitGetSpidirSize_pos (h : jitGetSpidirSize type = some size) : 0 < size := by
  cases type <;> cases h <;> decide

theorem jitGetSpidirSize_of_value {kind : Wasm.ValueType} (h : jitGetSpidirValueType kind = some type) :
    jitGetSpidirSize type = valueSize kind := by
  cases kind <;> cases h <;> rfl

/-- A global as it is laid out. -/
structure Prepared (global : WasmGlobal) (g : JitGlobal) : Prop where
  type : jitGetSpidirValueType global.value.kind = some g.type
  offset : g.offset.isSome = global.mutable

theorem prepareGlobals_laid (h : prepareGlobals offset globals = some (gs, stop)) :
    Laid offset (gs.map JitGlobal.slot) stop ∧ List.Forall₂ Prepared globals gs := by
  induction globals generalizing offset gs stop with
  | nil =>
    cases h
    exact ⟨.nil _, .nil⟩
  | cons global globals ih =>
    simp only [prepareGlobals, Option.bind_eq_bind, Option.pure_def, Option.bind_eq_some_iff] at h
    obtain ⟨type, htype, h⟩ := h
    split_ifs at h with hmut
    · simp only [Option.bind_eq_some_iff, Option.some.injEq, Prod.mk.injEq] at h
      obtain ⟨size, hsize, ⟨rest, stop'⟩, hrest, rfl, rfl⟩ := h
      obtain ⟨hlaid, hall⟩ := ih hrest
      refine ⟨?_, .cons ⟨htype, by simp [hmut]⟩ hall⟩
      have slot : JitGlobal.slot ⟨some (alignUp offset size), type⟩ = some (alignUp offset size, size) := by
        simp [JitGlobal.slot, hsize]
      rw [List.map_cons, slot]
      exact .slot (le_alignUp (jitGetSpidirSize_pos hsize)) (dvd_alignUp _ _) hlaid
    · simp only [Option.bind_eq_some_iff, Option.some.injEq, Prod.mk.injEq] at h
      obtain ⟨⟨rest, stop'⟩, hrest, rfl, rfl⟩ := h
      obtain ⟨hlaid, hall⟩ := ih hrest
      exact ⟨.skip hlaid, .cons ⟨htype, by simp [hmut]⟩ hall⟩

/-- Every global of a number type has a place. -/
theorem prepareGlobals_isSome (h : ∀ g ∈ globals, g.value.kind.IsNumber) : ∃ r, prepareGlobals offset globals = some r := by
  induction globals generalizing offset with
  | nil => exact ⟨_, rfl⟩
  | cons global globals ih =>
    have number := h global List.mem_cons_self
    obtain ⟨type, htype⟩ : ∃ type, jitGetSpidirValueType global.value.kind = some type := by
      revert number
      cases global.value.kind <;> simp [Wasm.ValueType.IsNumber, jitGetSpidirValueType]
    obtain ⟨size, hsize⟩ : ∃ size, jitGetSpidirSize type = some size := by
      rw [jitGetSpidirSize_of_value htype]
      revert number
      cases global.value.kind <;> simp [Wasm.ValueType.IsNumber, valueSize]
    have rest : ∀ g ∈ globals, g.value.kind.IsNumber := fun g hg => h g (List.mem_cons_of_mem _ hg)
    simp only [prepareGlobals, htype, hsize, Option.bind_eq_bind, Option.bind_some, Option.pure_def]
    split_ifs
    · have later : ∃ r, prepareGlobals (alignUp offset size + size) globals = some r := ih rest
      obtain ⟨r, hr⟩ := later
      exact ⟨_, by rw [hr, Option.bind_some]⟩
    · have later : ∃ r, prepareGlobals offset globals = some r := ih rest
      obtain ⟨r, hr⟩ := later
      exact ⟨_, by rw [hr, Option.bind_some]⟩

theorem prepareData_laid : Laid offset ((prepareData offset data).1.map JitData.slot) (prepareData offset data).2 ∧
    List.Forall₂ (fun (d : DataSegment) (j : JitData) => j.offset.isSome = !d.active) data (prepareData offset data).1 := by
  induction data generalizing offset with
  | nil => exact ⟨.nil _, .nil⟩
  | cons d data ih =>
    cases hd : d.active with
    | true =>
      obtain ⟨hlaid, hall⟩ := @ih offset
      simp only [prepareData, hd, Bool.not_true, Bool.false_eq_true, if_false]
      exact ⟨.skip hlaid, .cons (by simp [hd]) hall⟩
    | false =>
      obtain ⟨hlaid, hall⟩ := @ih (alignUp offset pointerSize + pointerSize)
      simp only [prepareData, hd, Bool.not_false, if_true]
      exact ⟨.slot (le_alignUp (by decide)) (dvd_alignUp _ _) hlaid, .cons (by simp [hd]) hall⟩

/-- What a prepared context knows of its module's state. -/
structure JitContext.HasState (c : JitContext) (stateSize : ℕ) : Prop where
  laid : Laid 0 c.slots stateSize
  globals : List.Forall₂ Prepared c.module.globals c.globals
  data : List.Forall₂ (fun (d : DataSegment) (j : JitData) => j.offset.isSome = !d.active) c.module.data c.data

theorem jitPrepareState_hasState (h : jitPrepareState c = some (c', size)) : c'.module = c.module ∧ c'.HasState size := by
  simp only [jitPrepareState, Option.bind_eq_bind, Option.pure_def, Option.bind_eq_some_iff, Option.some.injEq,
    Prod.mk.injEq] at h
  obtain ⟨⟨gs, stop⟩, hglobals, rfl, rfl⟩ := h
  obtain ⟨hlaid, hall⟩ := prepareGlobals_laid hglobals
  obtain ⟨hlaid', hall'⟩ := @prepareData_laid stop c.module.data
  exact ⟨rfl, hlaid.append hlaid', hall, hall'⟩

/-- A valid module has a layout. -/
theorem jitPrepareState_isSome (h : c.module.Valid) : ∃ r, jitPrepareState c = some r := by
  have globals : ∃ r, prepareGlobals 0 c.module.globals = some r := prepareGlobals_isSome h.globals
  obtain ⟨r, hr⟩ := globals
  simp only [jitPrepareState, hr, Option.bind_eq_bind, Option.bind_some, Option.pure_def]
  exact ⟨_, rfl⟩

end Layout

/-! ### The image -/

/-- What the initialiser pokes for a global. -/
def globalPoke : WasmGlobal × JitGlobal → Option (ℕ × List UInt8)
  | (global, g) => g.slot.map fun slot => (slot.1, Word.toBytes slot.2 (BitVec.ofNat 64 global.value.bits))

/-- What it pokes for a segment. -/
def dataPoke (pointer : ℕ → Word) : (DataSegment × JitData) × ℕ → Option (ℕ × List UInt8)
  | ((_, j), i) => j.slot.map fun slot => (slot.1, (pointer i).toBytes slot.2)

section Image

variable {c : JitContext} {stateSize : ℕ} {pointer : ℕ → Word} {image : Memory UInt8}

theorem pokeGlobal_eq {global : WasmGlobal} {g : JitGlobal} (h : Prepared global g) :
    pokeGlobal image (global, g) = image.poke (globalPoke (global, g)) := by
  have size := jitGetSpidirSize_of_value h.type
  have mutable := h.offset
  rcases hoffset : g.offset with _ | offset
  · rw [hoffset] at mutable
    simp [pokeGlobal, globalPoke, JitGlobal.slot, hoffset, ← mutable, Memory.poke]
  · rw [hoffset] at mutable
    obtain ⟨k, hk⟩ : ∃ k, valueSize global.value.kind = some k := by
      have number := h.type
      revert number
      cases global.value.kind <;> simp [valueSize, jitGetSpidirValueType]
    rw [hk] at size
    simp [pokeGlobal, globalPoke, JitGlobal.slot, hoffset, ← mutable, Memory.poke, size, hk]

theorem pokeData_eq {d : DataSegment} {j : JitData} (h : j.offset.isSome = !d.active) (i : ℕ) :
    pokeData pointer image ((d, j), i) = image.poke (dataPoke pointer ((d, j), i)) := by
  rcases hoffset : j.offset with _ | offset
  · rw [hoffset] at h
    have active : d.active = true := by simpa using h
    simp [pokeData, dataPoke, JitData.slot, hoffset, active, Memory.poke]
  · rw [hoffset] at h
    have active : d.active = false := by simpa using h
    simp [pokeData, dataPoke, JitData.slot, hoffset, active, Memory.poke]

/-- Both loops together. -/
def JitContext.pokes (c : JitContext) (pointer : ℕ → Word) : List (Option (ℕ × List UInt8)) :=
  (c.module.globals.zip c.globals).map globalPoke ++ (c.module.data.zip c.data).zipIdx.map (dataPoke pointer)

theorem JitContext.HasState.pokes (h : c.HasState stateSize) (image : Memory UInt8) :
    ((c.module.globals.zip c.globals).foldlM pokeGlobal image).bind
      (fun image => (c.module.data.zip c.data).zipIdx.foldlM (pokeData pointer) image) =
      (c.pokes pointer).foldlM Memory.poke image := by
  have globals : ∀ x ∈ c.module.globals.zip c.globals, ∀ image, pokeGlobal image x = image.poke (globalPoke x) := by
    rintro ⟨global, g⟩ hx image
    exact pokeGlobal_eq ((List.forall₂_iff_zip.mp h.globals).2 hx)
  have data : ∀ x ∈ (c.module.data.zip c.data).zipIdx, ∀ image, pokeData pointer image x = image.poke (dataPoke pointer x) := by
    rintro ⟨⟨d, j⟩, i⟩ hx image
    exact pokeData_eq ((List.forall₂_iff_zip.mp h.data).2 (List.fst_mem_of_mem_zipIdx hx)) i
  rw [JitContext.pokes, List.foldlM_append, Memory.foldlM_poke globals]
  exact congrArg _ (funext fun image => Memory.foldlM_poke data image)

theorem JitContext.HasState.slots_pokes (h : c.HasState stateSize) : Memory.slots (c.pokes pointer) = c.slots := by
  have globals : (c.module.globals.zip c.globals).map Prod.snd = c.globals :=
    List.map_snd_zip h.globals.length_eq.ge
  have data : (c.module.data.zip c.data).map Prod.snd = c.data := List.map_snd_zip h.data.length_eq.ge
  rw [JitContext.pokes, Memory.slots, List.map_append, List.map_map, List.map_map, JitContext.slots]
  congr 1
  · conv_rhs => rw [← globals, List.map_map]
    apply List.map_congr_left
    rintro ⟨global, g⟩ -
    cases hslot : g.slot <;> simp [globalPoke, hslot]
  · conv_rhs => rw [← data, ← List.zipIdx_map_fst 0 (c.module.data.zip c.data), List.map_map, List.map_map]
    apply List.map_congr_left
    rintro ⟨⟨d, j⟩, i⟩ -
    cases hslot : j.slot <;> simp [dataPoke, hslot]

/-- The image has all its bytes, and every slot of it holds what was poked into it. -/
theorem jitBuildStateInit_image (h : c.HasState stateSize) (pointer : ℕ → Word) :
    ∃ image, jitBuildStateInit c stateSize pointer = some image ∧ image.Below stateSize ∧
      ∀ (i offset : ℕ) (bytes : List UInt8), (c.pokes pointer)[i]? = some (some (offset, bytes)) →
        image.load offset bytes.length = some bytes := by
  have laid : Laid 0 (Memory.slots (c.pokes pointer)) stateSize := by
    rw [h.slots_pokes]
    exact h.laid
  by_cases hempty : stateSize = 0
  · refine ⟨fun _ => none, if_pos hempty, ?_, fun i offset bytes hi => ?_⟩
    · rw [hempty]
      exact .empty
    · have slot : (Memory.slots (c.pokes pointer))[i]? = some (some (offset, bytes.length)) := by
        simp [Memory.slots, hi]
      have inside := (laid.inside slot).2.2
      have none : bytes = [] := List.length_eq_zero_iff.mp (by omega)
      rw [none]
      rfl
  · have zeros : ∀ a, ((Memory.map 0 stateSize 0 fun _ => none) a : Option UInt8).isSome ↔ a < stateSize := by
      intro a
      simp [Memory.map]
    have covered : ∀ a, 0 ≤ a → a < stateSize → ((Memory.map 0 stateSize 0 fun _ => none) a : Option UInt8).isSome :=
      fun a _ ha => (zeros a).mpr ha
    obtain ⟨image, he, -, hmapped, hslots⟩ := Memory.pokes laid covered
    refine ⟨image, ?_, fun a => ?_, hslots⟩
    · rw [jitBuildStateInit, if_neg hempty]
      exact (h.pokes _).trans he
    · rw [hmapped, zeros]

theorem JitContext.slots_global {i : ℕ} {g : JitGlobal} (h : c.globals[i]? = some g) : c.slots[i]? = some g.slot := by
  obtain ⟨hi, -⟩ := List.getElem?_eq_some_iff.mp h
  rw [JitContext.slots, List.getElem?_append_left (by simpa using hi), List.getElem?_map, h, Option.map_some]

theorem JitContext.slots_data {i : ℕ} {d : JitData} (h : c.data[i]? = some d) :
    c.slots[c.globals.length + i]? = some d.slot := by
  rw [JitContext.slots, List.getElem?_append_right (by simp), List.length_map, Nat.add_sub_cancel_left, List.getElem?_map, h,
    Option.map_some]

theorem JitContext.pokes_global {i : ℕ} {g : JitGlobal} {global : WasmGlobal} (h : c.module.globals[i]? = some global)
    (h' : c.globals[i]? = some g) : (c.pokes pointer)[i]? = some (globalPoke (global, g)) := by
  have zipped : (c.module.globals.zip c.globals)[i]? = some (global, g) := List.getElem?_zip_eq_some.mpr ⟨h, h'⟩
  obtain ⟨hi, -⟩ := List.getElem?_eq_some_iff.mp zipped
  rw [JitContext.pokes, List.getElem?_append_left (by simpa using hi), List.getElem?_map, zipped, Option.map_some]

theorem JitContext.HasState.pokes_data (hs : c.HasState stateSize) {i : ℕ} {d : DataSegment} {j : JitData}
    (h : c.module.data[i]? = some d) (h' : c.data[i]? = some j) :
    (c.pokes pointer)[c.globals.length + i]? = some (dataPoke pointer ((d, j), i)) := by
  have same := hs.globals.length_eq
  have zipped : (c.module.data.zip c.data)[i]? = some (d, j) := List.getElem?_zip_eq_some.mpr ⟨h, h'⟩
  rw [JitContext.pokes, List.getElem?_append_right (by simp [same]), List.getElem?_map]
  simp [same, zipped]

end Image

end SpidirWasm.Jit
