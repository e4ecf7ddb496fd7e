import Mathlib.Algebra.GroupWithZero.Nat
import Mathlib.Data.List.Forall2
import SpidirWasm.Jit.Function
import SpidirWasm.Util.Vec
import SpidirWasm.Wasm.Sections

/-! The locals vector as `jit_build_function` fills it, entry by entry in memory. The
counts of the declaration are numbers that the code chose, the length of the vector has
32 bits, and the loops count in `int`s. -/

namespace SpidirWasm.Jit

open Ending (Meets)
open Spidir (Builder Inst ValueType)
open Wasm (FuncType)

/-- What the prologue of `jit_build_function` works on. -/
structure LocalsState where
  code : Buffer
  builder : Builder
  locals : Vec JitValue := ⟨0, 0, fun _ => none⟩
  retType : ValueType := .none

/-- `locals[i] = (jit_value_t){ .type = type, .value = ... }` with a value built for it. -/
def storeLocal (i : ℕ) (type : ValueType) (inst : Inst) : Raw LocalsState Unit := fun s =>
  (s.locals.set i ⟨s.builder.handle inst, type⟩).bind fun locals =>
    .ok ((), { s with builder := s.builder.build inst, locals })

/-- `vec_add(&func.locals, n)`. -/
def addLocals (host : Allocator) (n : ℕ) : Raw LocalsState ℕ :=
  Raw.zoom LocalsState.locals (fun locals s => { s with locals }) (Vec.vecAdd host n)

def pullLocals {α : Type} (m : Pull α) : Raw LocalsState α :=
  Raw.zoom LocalsState.code (fun code s => { s with code }) m

/-- The parameters. -/
def setupParams (host : Allocator) (type : FuncType) : Raw LocalsState Unit := do
  let args ← addLocals host type.argTypes.length
  Raw.forInt (fun i => do
    let argType ← Raw.lift type.argTypes[i]?
    let valueType ← Raw.lift (jitGetSpidirValueType argType)
    -- `i + 2` is an `int` as well
    Raw.forbid (2 ^ 31 ≤ i + 2)
    storeLocal (args + i) valueType (.param (i + 2))) 0 type.argTypes.length

/-- One entry of the locals declaration. -/
def setupLocalGroup (host : Allocator) : Raw LocalsState Unit := do
  let count ← pullLocals bufferPullU32
  let valType ← pullLocals bufferPullValType
  let locals ← addLocals host count
  Raw.forInt (fun j => do
    let type ← Raw.lift (jitGetSpidirValueType valType)
    storeLocal (locals + j) type (localConst type)) 0 count

/-- `jit_build_function` up to its entry block. Nothing should run it by unfolding: the counts
are up to `2 ^ 32`. -/
@[irreducible] def setupLocals (host : Allocator) (type : FuncType) : Raw LocalsState Unit := do
  setupParams host type
  let retType ← Raw.lift (jitRetType type)
  Raw.update fun s => { s with retType }
  let localsCount ← pullLocals bufferPullU32
  Raw.forFrom (fun _ => setupLocalGroup host) 0 localsCount

/-! ### The declaration -/

/-- An entry of the declaration, read alone. -/
def pullLocalGroup : Pull (ℕ × ValueType) := do
  let count ← bufferPullU32
  let valType ← bufferPullValType
  let type ← Checked.lift (jitGetSpidirValueType valType)
  return (count, type)

/-- The entries up to the first malformed one, and the code behind them if there is none. -/
def readGroups : ℕ → Buffer → List (ℕ × ValueType) × Option Buffer
  | 0, code => ([], some code)
  | n + 1, code =>
    match pullLocalGroup code with
    | none => ([], none)
    | some (group, code) => (group :: (readGroups n code).1, (readGroups n code).2)

/-- The local declaration at the front of a function's code. -/
def declaredGroups (code : Buffer) : List (ℕ × ValueType) × Option Buffer :=
  match bufferPullU32 code with
  | none => ([], none)
  | some (n, code) => readGroups n code

/-- How many entries they declare. -/
def declaredCount (groups : List (ℕ × ValueType)) : ℕ := (groups.map Prod.fst).sum

/-- What the entries of the vector should hold: the wasm parameters behind the two hidden
ones, then a zero of its type for every declared local. -/
def localSpecs (args : List ValueType) (groups : List (ℕ × ValueType)) : List (ValueType × Inst) :=
  args.mapIdx (fun i t => (t, .param (i + 2))) ++
    groups.flatMap fun g => List.replicate g.1 (g.2, localConst g.2)

/-- A value of the declared type built by the given instruction. -/
structure Bound (b : Builder) (spec : ValueType × Inst) (v : JitValue) : Prop where
  type : v.type = spec.1
  built : ∃ n < b.nextValue, v.value = some n ∧ (b.node n).inst = spec.2

/-- The locals vector is as declared, and the whole declaration was read. -/
structure LocalsExact (type : FuncType) (code : Buffer) (s : LocalsState) : Prop where
  read : (declaredGroups code).2 = some s.code
  length : s.locals.length = type.argTypes.length + declaredCount (declaredGroups code).1
  fits : s.locals.length < 2 ^ 32
  entry : ∃ args, jitArgTypes type = some args ∧ ∀ i < s.locals.length, ∃ v, s.locals.elements i = some v ∧
    ∃ spec, (localSpecs args (declaredGroups code).1)[i]? = some spec ∧ Bound s.builder spec v

/-- The counts of a declaration are `int`s, and their total behind the parameters a `uint32_t`. -/
structure GroupsFit (before : ℕ) (groups : List (ℕ × ValueType)) : Prop where
  count : ∀ g ∈ groups, g.1 < 2 ^ 31
  total : before + declaredCount groups < 2 ^ 32

/-- Neither the length of the vector nor a counter overflows. -/
structure LocalsFit (type : FuncType) (code : Buffer) : Prop where
  args : type.argTypes.length + 2 ≤ 2 ^ 31
  groups : type.resultTypes.length ≤ 1 → GroupsFit type.argTypes.length (declaredGroups code).1

variable {host : Allocator} {type : FuncType} {s t : LocalsState} {e : EmitState} {specs todo : List (ValueType × Inst)}
  {spec : ValueType × Inst} {f : ℕ → Raw LocalsState Unit} {start i n : ℕ}

/-! ### Filling -/

theorem Bound.build {b : Builder} {v : JitValue} (h : Bound b spec v) (inst : Inst) : Bound (b.build inst) spec v := by
  obtain ⟨n, hn, hv, hinst⟩ := h.built
  refine ⟨h.type, n, ?_, hv, ?_⟩
  · rw [Builder.build_nextValue]
    exact Nat.lt_succ_of_lt hn
  · rw [Builder.build_node, Function.update_of_ne (Nat.ne_of_lt hn), hinst]

theorem bound_handle {type : ValueType} {inst : Inst} (h : inst.hasOutput = true) (b : Builder) :
    Bound (b.build inst) (type, inst) ⟨b.handle inst, type⟩ := by
  refine ⟨rfl, b.nextValue, ?_, if_pos h, ?_⟩
  · rw [Builder.build_nextValue]
    exact Nat.lt_succ_self _
  · rw [Builder.build_node, Function.update_self]

/-- A state with one more local. -/
def EmitState.addLocal (e : EmitState) (spec : ValueType × Inst) : EmitState :=
  (e.withBuilder (e.builder.build spec.2)).withLocals (e.func.locals ++ [⟨e.builder.handle spec.2, spec.1⟩])

/-- The vector starts with the locals of an emission state, of the given types and values. -/
structure Filled (s : LocalsState) (e : EmitState) (specs : List (ValueType × Inst)) : Prop where
  builder : s.builder = e.builder
  starts : ∀ i < e.func.locals.length, s.locals.elements i = e.func.locals[i]?
  bound : List.Forall₂ (Bound e.builder) specs e.func.locals

theorem Filled.length (h : Filled s e specs) : specs.length = e.func.locals.length := h.bound.length_eq

/-- What filling an entry leaves alone. -/
structure SameRoom (s t : LocalsState) : Prop where
  code : t.code = s.code
  length : t.locals.length = s.locals.length
  capacity : t.locals.capacity = s.locals.capacity

theorem SameRoom.trans {u : LocalsState} (h : SameRoom s t) (h' : SameRoom t u) : SameRoom s u :=
  ⟨h'.code.trans h.code, h'.length.trans h.length, h'.capacity.trans h.capacity⟩

/-- A state with an entry written. -/
def LocalsState.store (i : ℕ) (spec : ValueType × Inst) (s : LocalsState) : LocalsState := { s with
  builder := s.builder.build spec.2
  locals := { s.locals with
    elements := Function.update s.locals.elements i (some ⟨s.builder.handle spec.2, spec.1⟩) } }

theorem storeLocal_ok (h : i < s.locals.capacity) : storeLocal i spec.1 spec.2 s = .ok ((), s.store i spec) := by
  rw [storeLocal, Vec.set, if_pos h]
  rfl

theorem storeLocal_undefined (h : s.locals.capacity ≤ i) : storeLocal i spec.1 spec.2 s = .undefined := by
  rw [storeLocal, Vec.set, if_neg (Nat.not_lt.mpr h)]
  rfl

theorem LocalsState.store_sameRoom (i : ℕ) (spec : ValueType × Inst) (s : LocalsState) : SameRoom s (s.store i spec) := ⟨rfl, rfl, rfl⟩

theorem Filled.store (h : Filled s e specs) (hout : spec.2.hasOutput = true) :
    Filled (s.store specs.length spec) (e.addLocal spec) (specs ++ [spec]) := by
  have hbuilder : s.builder = e.builder := h.builder
  refine ⟨congrArg (·.build spec.2) h.builder, fun i hi => ?_, ?_⟩
  · change Function.update s.locals.elements _ _ i = (e.func.locals ++ [_])[i]?
    have hi : i < e.func.locals.length + 1 := by simpa [EmitState.addLocal] using hi
    by_cases hlast : i = e.func.locals.length
    · subst hlast
      rw [h.length, Function.update_self, List.getElem?_concat_length, hbuilder]
    · have hi : i < e.func.locals.length := by omega
      rw [Function.update_of_ne (by rw [h.length]; exact hlast), List.getElem?_append_left hi, h.starts i hi]
  · have old : List.Forall₂ (Bound (e.builder.build spec.2)) specs e.func.locals := h.bound.imp fun _ _ hb => hb.build _
    exact List.rel_append old (.cons (bound_handle hout e.builder) .nil)

/-- The loop that fills entries of an array with room for them. -/
theorem fill_run (hf : ∀ j, (hj : j < todo.length) → ∀ s, f (i + j) s = storeLocal (start + (i + j)) todo[j].1 todo[j].2 s)
    (hout : ∀ spec ∈ todo, spec.2.hasOutput = true) (hs : Filled s e specs) (hi : start + i = specs.length)
    (hcap : specs.length + todo.length ≤ s.locals.capacity) (hn : i + todo.length < 2 ^ 31) :
    ∃ t, Raw.forInt f i todo.length s = .ok ((), t) ∧ SameRoom s t ∧ Filled t (todo.foldl EmitState.addLocal e) (specs ++ todo) := by
  induction todo generalizing i s e specs with
  | nil => exact ⟨s, rfl, ⟨rfl, rfl, rfl⟩, by simpa using hs⟩
  | cons spec todo ih =>
    rw [List.length_cons] at hcap hn
    have first : f i s = .ok ((), s.store specs.length spec) := by
      have := hf 0 (Nat.succ_pos _) s
      rw [Nat.add_zero, hi] at this
      exact this.trans (storeLocal_ok (by omega))
    have rest (j : ℕ) (hj : j < todo.length) (s : LocalsState) :
        f (i + 1 + j) s = storeLocal (start + (i + 1 + j)) todo[j].1 todo[j].2 s := by
      have := hf (j + 1) (Nat.succ_lt_succ hj) s
      rw [Nat.add_assoc, Nat.add_comm 1 j]
      exact this
    have hlen : (specs ++ [spec]).length = specs.length + 1 := List.length_append
    obtain ⟨t, ht, hsame, hfilled⟩ := ih rest (fun sp hsp => hout sp (List.mem_cons_of_mem _ hsp))
      (hs.store (hout spec (List.mem_cons_self ..))) (by omega) (by rw [hlen]; change _ ≤ s.locals.capacity; omega) (by omega)
    refine ⟨t, (Raw.forInt_succ first (by omega)).trans ht, (s.store_sameRoom _ _).trans hsame, ?_⟩
    rwa [List.append_assoc] at hfilled

/-- A state between two steps of the prologue: the vector holds exactly the given entries. -/
structure Held (s : LocalsState) (e : EmitState) (specs : List (ValueType × Inst)) : Prop extends Filled s e specs where
  ok : s.locals.Ok
  full : s.locals.length = specs.length

variable {g : ℕ → ℕ → Raw LocalsState Unit} {w : Vec JitValue}

theorem addFill_failed (hadd : Vec.vecAdd host n s.locals = none) :
    (addLocals host n >>= fun start => Raw.forInt (g start) 0 n) s = .failed := Raw.bind_failed (Raw.zoom_none hadd) _

/-- Adding entries and filling them, while every count fits. -/
theorem addFill_run (hs : Held s e specs) (hadd : Vec.vecAdd host todo.length s.locals = some (start, w))
    (hg : ∀ j, (hj : j < todo.length) → ∀ s, g start j s = storeLocal (start + j) todo[j].1 todo[j].2 s)
    (hout : ∀ spec ∈ todo, spec.2.hasOutput = true) (hcount : todo.length < 2 ^ 31)
    (htotal : specs.length + todo.length < 2 ^ 32) :
    ∃ t, (addLocals host todo.length >>= fun start => Raw.forInt (g start) 0 todo.length) s = .ok ((), t) ∧
      t.code = s.code ∧ Held t (todo.foldl EmitState.addLocal e) (specs ++ todo) := by
  obtain ⟨hok, rfl, hlen, helem⟩ := Vec.vecAdd_eq_some hs.ok (hcount.trans (by decide)) hadd
  rw [hs.full, Nat.mod_eq_of_lt htotal] at hlen
  have grown : Filled { s with locals := w } e specs :=
    ⟨hs.builder, fun i hi => (congrFun helem i).trans (hs.starts i hi), hs.bound⟩
  have body (j : ℕ) (hj : j < todo.length) (s' : LocalsState) :
      g s.locals.length (0 + j) s' = storeLocal (s.locals.length + (0 + j)) todo[j].1 todo[j].2 s' := by
    rw [Nat.zero_add]
    exact hg j hj s'
  obtain ⟨t, ht, hsame, hfilled⟩ := fill_run body hout grown hs.full (hlen ▸ hok.allocated) (by omega)
  refine ⟨t, (Raw.bind_ok (Raw.zoom_some hadd) _).trans ht, hsame.code, hfilled, ⟨?_, ?_⟩, ?_⟩
  · rw [hsame.length, hsame.capacity]
    exact hok.allocated
  · rw [hsame.capacity]
    exact hok.fits
  · rw [hsame.length, List.length_append]
    exact hlen

/-- Filling them where a count does not fit. -/
theorem addFill_undefined (hadd : Vec.vecAdd host n s.locals = some (start, w)) (hn : 0 < n)
    (step : ∀ j < n, ∀ s, g start j s = .undefined ∨ ∃ spec : ValueType × Inst, g start j s = storeLocal (start + j) spec.1 spec.2 s)
    (wrong : 2 ^ 31 ≤ n ∨ w.capacity < start + n ∨ ∃ j < n, ∀ s, g start j s = .undefined) :
    (addLocals host n >>= fun start => Raw.forInt (g start) 0 n) s = .undefined := by
  refine (Raw.bind_ok (Raw.zoom_some hadd) _).trans ?_
  refine Raw.forInt_undefined (I := fun t => t.locals.capacity = w.capacity) hn rfl (fun j hj t ht => ?_) ?_
  · rw [Nat.zero_add]
    obtain h | ⟨spec, h⟩ := step j hj t
    · exact .inl h
    by_cases hcap : start + j < t.locals.capacity
    · exact .inr ⟨_, h.trans (storeLocal_ok hcap), ht⟩
    · exact .inl (h.trans (storeLocal_undefined (Nat.le_of_not_lt hcap)))
  · obtain h | h | ⟨j, hj, h⟩ := wrong
    · exact .inl (by rwa [Nat.zero_add])
    · -- the first entry past the allocation
      refine .inr ⟨w.capacity - start, by omega, fun t ht => ?_⟩
      rw [Nat.zero_add]
      obtain h | ⟨spec, h⟩ := step (w.capacity - start) (by omega) t
      · exact h
      · exact h.trans (storeLocal_undefined (by omega))
    · refine .inr ⟨j, hj, fun t _ => ?_⟩
      rw [Nat.zero_add]
      exact h t

/-! ### Parameters -/

theorem jitGetSpidirValueType_isSome {t : Wasm.ValueType} (h : t.IsNumber) : ∃ r, jitGetSpidirValueType t = some r := by
  cases t with
  | invalid => exact absurd rfl h
  | f64 | f32 | i64 | i32 => exact ⟨_, rfl⟩

theorem jitArgTypes_eq_some (h : type.Ok) : ∃ args, jitArgTypes type = some args := by
  obtain ⟨types, _⟩ := type
  obtain ⟨hargs, -⟩ := h
  unfold jitArgTypes
  dsimp only at hargs ⊢
  induction types with
  | nil => exact ⟨[], rfl⟩
  | cons argType rest ih =>
    obtain ⟨args, hrest⟩ := ih fun a ha => hargs a (List.mem_cons_of_mem _ ha)
    obtain ⟨t, ht⟩ := jitGetSpidirValueType_isSome (hargs argType (List.mem_cons_self ..))
    exact ⟨t :: args, by simp [List.mapM_cons, ht, hrest]⟩

/-- The entries of the parameters, from one of them on. -/
def paramSpecs (i : ℕ) (args : List ValueType) : List (ValueType × Inst) := args.mapIdx fun j t => (t, .param (i + j + 2))

theorem addParams_eq {types : List Wasm.ValueType} {args : List ValueType} (h : types.mapM jitGetSpidirValueType = some args)
    (i : ℕ) (e : EmitState) : addParams i types e = some ((), (paramSpecs i args).foldl EmitState.addLocal e) := by
  induction types generalizing args i e with
  | nil =>
    obtain rfl := Option.some.inj h
    rfl
  | cons argType rest ih =>
    simp only [List.mapM_cons, Option.bind_eq_bind, Option.bind_eq_some_iff, Option.pure_def, Option.some.injEq] at h
    obtain ⟨t, ht, args, hrest, rfl⟩ := h
    have shift : paramSpecs i (t :: args) = (t, .param (i + 2)) :: paramSpecs (i + 1) args := by
      simp only [paramSpecs, List.mapIdx_cons, Nat.add_assoc, Nat.add_comm 1]
    have head : addParams i (argType :: rest) e = addParams (i + 1) rest (e.addLocal (t, .param (i + 2))) := by
      rw [addParams, ht]
      rfl
    rw [head, ih hrest, shift, List.foldl_cons]

/-- What the loop of the parameters does with one of them. -/
def setupParam (type : FuncType) (args i : ℕ) : Raw LocalsState Unit := do
  let argType ← Raw.lift type.argTypes[i]?
  let valueType ← Raw.lift (jitGetSpidirValueType argType)
  Raw.forbid (2 ^ 31 ≤ i + 2)
  storeLocal (args + i) valueType (.param (i + 2))

theorem setupParams_eq : setupParams host type =
    addLocals host type.argTypes.length >>= fun args => Raw.forInt (setupParam type args) 0 type.argTypes.length := rfl

theorem setupParam_eq {args : List ValueType} (h : jitArgTypes type = some args) {i : ℕ} (hi : i < args.length)
    (s : LocalsState) : setupParam type start i s =
      if 2 ^ 31 ≤ i + 2 then .undefined else storeLocal (start + i) args[i] (.param (i + 2)) s := by
  have hget := (mapM_get h).2 i
  rw [List.getElem?_eq_getElem hi] at hget
  obtain ⟨argType, harg, ht⟩ := Option.bind_eq_some_iff.mp hget
  have hvalue : (Raw.lift type.argTypes[i]? : Raw LocalsState _) s = .ok (argType, s) := by rw [harg, Raw.lift_some]
  have htype : (Raw.lift (jitGetSpidirValueType argType) : Raw LocalsState _) s = .ok (args[i], s) := by rw [ht, Raw.lift_some]
  rw [setupParam, Raw.bind_ok hvalue, Raw.bind_ok htype]
  by_cases hbig : 2 ^ 31 ≤ i + 2
  · rw [if_pos hbig]
    exact Raw.bind_undefined (Raw.forbid_true hbig s) _
  · rw [if_neg hbig]
    exact Raw.bind_ok (Raw.forbid_false hbig s) _

theorem paramSpecs_getElem {args : List ValueType} {i : ℕ} (hi : i < args.length) (hi' : i < (paramSpecs 0 args).length) :
    (paramSpecs 0 args)[i] = (args[i], .param (i + 2)) := by
  simp [paramSpecs]

/-- The parameters are added, unless there are too many for an `int`. -/
theorem setupParams_run {args : List ValueType} (h : jitArgTypes type = some args) (hs : Held s e [])
    (hargs : type.argTypes.length + 2 ≤ 2 ^ 31) (hadd : Vec.vecAdd host type.argTypes.length s.locals = some (start, w)) :
    ∃ t, setupParams host type s = .ok ((), t) ∧ t.code = s.code ∧
      Held t ((paramSpecs 0 args).foldl EmitState.addLocal e) (paramSpecs 0 args) := by
  have hlen : (paramSpecs 0 args).length = type.argTypes.length := by rw [paramSpecs, List.length_mapIdx, (mapM_get h).1]
  rw [setupParams_eq]
  rw [← hlen] at hadd hargs ⊢
  refine addFill_run hs hadd (fun j hj s' => ?_) (fun spec hspec => ?_) (by omega) (by rw [List.length_nil]; omega)
  · have hj' : j < args.length := by rwa [hlen, ← (mapM_get h).1] at hj
    rw [setupParam_eq h hj', if_neg (by omega), paramSpecs_getElem hj']
  · obtain ⟨j, hj, rfl⟩ := List.mem_iff_getElem.mp hspec
    rw [paramSpecs_getElem (by rwa [paramSpecs, List.length_mapIdx] at hj)]
    rfl

theorem setupParams_undefined {args : List ValueType} (h : jitArgTypes type = some args)
    (hargs : 2 ^ 31 < type.argTypes.length + 2) (hadd : Vec.vecAdd host type.argTypes.length s.locals = some (start, w)) :
    setupParams host type s = .undefined := by
  have hlen := (mapM_get h).1
  rw [setupParams_eq]
  refine addFill_undefined hadd (by omega) (fun j hj s' => ?_) (.inr (.inr ⟨2 ^ 31 - 2, by omega, fun s' => ?_⟩))
  · rw [setupParam_eq h (hlen ▸ hj)]
    by_cases hbig : 2 ^ 31 ≤ j + 2
    · exact .inl (if_pos hbig)
    · exact .inr ⟨(args[j], .param (j + 2)), if_neg hbig⟩
  · rw [setupParam_eq h (by omega), if_pos (by omega)]

/-! ### Groups -/

/-- The entries of the groups. -/
def groupSpecs (groups : List (ℕ × ValueType)) : List (ValueType × Inst) :=
  groups.flatMap fun g => List.replicate g.1 (g.2, localConst g.2)

theorem localConst_hasOutput (type : ValueType) : (localConst type).hasOutput = true := by cases type <;> rfl

theorem pullLocalGroup_eq_some {count : ℕ} {type : ValueType} {code code' : Buffer} :
    pullLocalGroup code = some ((count, type), code') ↔ ∃ next valType, bufferPullU32 code = some (count, next) ∧
      bufferPullValType next = some (valType, code') ∧ jitGetSpidirValueType valType = some type := by
  simp only [pullLocalGroup, Checked.bind_eq_some, Checked.lift_eq_some, Checked.pure_eq_some, Prod.mk.injEq]
  constructor
  · rintro ⟨n, next, hn, valType, c, hv, t, c', ⟨t', ht, rfl, rfl⟩, ⟨rfl, rfl⟩, rfl⟩
    exact ⟨next, valType, hn, hv, ht⟩
  · rintro ⟨next, valType, hn, hv, ht⟩
    exact ⟨count, next, hn, valType, code', hv, type, code', ⟨type, ht, rfl, rfl⟩, ⟨rfl, rfl⟩, rfl⟩

/-- A group that cannot be read. -/
theorem setupLocalGroup_failed (h : pullLocalGroup s.code = none) : setupLocalGroup host s = .failed := by
  rw [setupLocalGroup]
  obtain hcount | ⟨⟨count, next⟩, hcount⟩ := Option.eq_none_or_eq_some (bufferPullU32 s.code)
  · exact Raw.bind_failed (Raw.zoom_none hcount) _
  refine (Raw.bind_ok (Raw.zoom_some hcount) _).trans ?_
  obtain htype | ⟨⟨valType, code⟩, htype⟩ := Option.eq_none_or_eq_some (bufferPullValType next)
  · exact Raw.bind_failed (Raw.zoom_none htype) _
  -- every type that can be read is one of the four
  obtain ⟨t, ht⟩ := jitGetSpidirValueType_isSome (Wasm.bufferPullValType_isNumber htype)
  exact absurd (h.symm.trans (pullLocalGroup_eq_some.mpr ⟨next, valType, hcount, htype, ht⟩)) (fun h => nomatch h)

/-- A group that can. -/
theorem setupLocalGroup_eq {count : ℕ} {type : ValueType} {code : Buffer} (h : pullLocalGroup s.code = some ((count, type), code)) :
    setupLocalGroup host s = (addLocals host count >>= fun start =>
      Raw.forInt (fun j => storeLocal (start + j) type (localConst type)) 0 count) { s with code } := by
  obtain ⟨next, valType, hcount, htype, ht⟩ := pullLocalGroup_eq_some.mp h
  rw [setupLocalGroup]
  refine (Raw.bind_ok (Raw.zoom_some hcount) _).trans ((Raw.bind_ok (Raw.zoom_some htype) _).trans ?_)
  have body (start : ℕ) : (fun j => (do
      let type ← Raw.lift (jitGetSpidirValueType valType)
      storeLocal (start + j) type (localConst type) : Raw LocalsState Unit)) =
        fun j => storeLocal (start + j) type (localConst type) := by
    funext j s
    rw [ht]
    exact Raw.bind_ok (Raw.lift_some type s) _
  simp only [body]

/-- A group is added, while its count fits. -/
theorem setupLocalGroup_run {count : ℕ} {type : ValueType} {code : Buffer} (hs : Held s e specs)
    (hgroup : pullLocalGroup s.code = some ((count, type), code)) (hadd : Vec.vecAdd host count s.locals = some (start, w))
    (hcount : count < 2 ^ 31) (htotal : specs.length + count < 2 ^ 32) :
    ∃ t, setupLocalGroup host s = .ok ((), t) ∧ t.code = code ∧
      Held t ((List.replicate count (type, localConst type)).foldl EmitState.addLocal e)
        (specs ++ List.replicate count (type, localConst type)) := by
  have hlen : (List.replicate count (type, localConst type)).length = count := List.length_replicate
  obtain ⟨t, ht, hcode, hheld⟩ := @addFill_run host { s with code } e specs (List.replicate count (type, localConst type)) start
    (fun start j => storeLocal (start + j) type (localConst type)) w ⟨⟨hs.builder, hs.starts, hs.bound⟩, hs.ok, hs.full⟩
    (by rw [hlen]; exact hadd) (fun j hj s' => by rw [List.getElem_replicate])
    (fun spec hspec => (List.eq_of_mem_replicate hspec) ▸ localConst_hasOutput type) (by rw [hlen]; exact hcount)
    (by rw [hlen]; exact htotal)
  rw [hlen] at ht
  exact ⟨t, (setupLocalGroup_eq hgroup).trans ht, hcode, hheld⟩

/-- The same group as the translator reads it. -/
theorem addLocalGroup_eq {t : JitState} {count : ℕ} {type : ValueType} {code : Buffer}
    (h : pullLocalGroup t.code = some ((count, type), code)) : addLocalGroup t = some ((), { t with
      code
      toEmitState := (List.replicate count (type, localConst type)).foldl EmitState.addLocal t.toEmitState }) := by
  obtain ⟨next, valType, hcount, htype, ht⟩ := pullLocalGroup_eq_some.mp h
  have fill (i n : ℕ) (e : EmitState) : Checked.forFrom (fun _ => addLocal type (localConst type)) i n e =
      some ((), (List.replicate n (type, localConst type)).foldl EmitState.addLocal e) := by
    induction n generalizing i e with
    | zero => rfl
    | succ n ih =>
      rw [List.replicate_succ, List.foldl_cons, ← ih (i + 1)]
      rfl
  rw [addLocalGroup, pull_bind_eq_some]
  refine ⟨count, next, hcount, ?_⟩
  rw [pull_bind_eq_some]
  refine ⟨valType, code, htype, ?_⟩
  rw [emit_eq_some]
  refine ⟨(), _, ?_, rfl⟩
  rw [Checked.lift_bind_eq_some]
  exact ⟨type, ht, fill 0 count _⟩

theorem readGroups_none (h : pullLocalGroup s.code = none) (n : ℕ) : readGroups (n + 1) s.code = ([], none) := by
  rw [readGroups, h]

theorem readGroups_some {group : ℕ × ValueType} {code code' : Buffer} (h : pullLocalGroup code = some (group, code')) (n : ℕ) :
    readGroups (n + 1) code = (group :: (readGroups n code').1, (readGroups n code').2) := by
  rw [readGroups, h]

theorem groupsFit_cons {before : ℕ} {group : ℕ × ValueType} {groups : List (ℕ × ValueType)} :
    GroupsFit before (group :: groups) ↔ group.1 < 2 ^ 31 ∧ GroupsFit (before + group.1) groups := by
  have total : declaredCount (group :: groups) = group.1 + declaredCount groups := List.sum_cons
  constructor
  · intro ⟨hcount, htotal⟩
    rw [total] at htotal
    exact ⟨hcount group (List.mem_cons_self ..), fun g hg => hcount g (List.mem_cons_of_mem _ hg), by omega⟩
  · intro ⟨hcount, hrest, htotal⟩
    refine ⟨fun g hg => ?_, by rw [total]; omega⟩
    obtain rfl | hg := List.mem_cons.mp hg
    · exact hcount
    · exact hrest g hg

/-- The groups are added, while their counts fit. -/
theorem groups_run {n : ℕ} {t : JitState} (hs : Held s t.toEmitState specs) (hcode : t.code = s.code)
    (fit : GroupsFit specs.length (readGroups n s.code).1) (i : ℕ) :
    (Raw.forFrom (fun _ => setupLocalGroup host) i n s).Meets fun r => ∃ u,
      Checked.forFrom (fun _ => addLocalGroup) i n t = some ((), u) ∧ u.code = r.2.code ∧
        (readGroups n s.code).2 = some r.2.code ∧
          Held r.2 u.toEmitState (specs ++ groupSpecs (readGroups n s.code).1) := by
  induction n generalizing i s t specs with
  | zero =>
    refine ⟨t, rfl, hcode, rfl, ?_⟩
    rw [show groupSpecs (readGroups 0 s.code).1 = [] from rfl, List.append_nil]
    exact hs
  | succ n ih =>
    obtain hgroup | ⟨⟨⟨count, type⟩, code⟩, hgroup⟩ := Option.eq_none_or_eq_some (pullLocalGroup s.code)
    · rw [Raw.forFrom, Raw.bind_failed (setupLocalGroup_failed hgroup)]
      trivial
    rw [readGroups_some hgroup] at fit ⊢
    obtain ⟨hcount, fit⟩ := groupsFit_cons.mp fit
    obtain hadd | ⟨⟨start, w⟩, hadd⟩ := Option.eq_none_or_eq_some (Vec.vecAdd host count s.locals)
    · rw [Raw.forFrom, Raw.bind_failed ((setupLocalGroup_eq hgroup).trans (addFill_failed hadd))]
      trivial
    have htotal := fit.total
    obtain ⟨s', hs', hcode', hheld⟩ := setupLocalGroup_run hs hgroup hadd hcount (by dsimp only at htotal; omega)
    rw [Raw.forFrom, Raw.bind_ok hs']
    obtain rfl : s'.code = code := hcode'
    refine (ih (t := { t with code := s'.code, toEmitState := _ }) hheld rfl (by rwa [List.length_append, List.length_replicate]) (i + 1)).mono ?_
    rintro ⟨_, r⟩ ⟨u, hu, hucode, hread, hheld⟩
    refine ⟨u, ?_, hucode, hread, ?_⟩
    · rw [Checked.forFrom, Checked.bind_apply, addLocalGroup_eq (hcode ▸ hgroup)]
      exact hu
    · rwa [List.append_assoc] at hheld

/-- A count that does not fit is never survived, where the host has the memory. -/
theorem groups_fit {P : Unit × LocalsState → Prop} (hs : Held s e specs)
    (h : (Raw.forFrom (fun _ => setupLocalGroup Vec.granting) i n s).Meets P) : GroupsFit specs.length (readGroups n s.code).1 := by
  induction n generalizing i s e specs with
  | zero => exact ⟨fun _ h => (nomatch h), hs.full ▸ hs.ok.allocated.trans_lt hs.ok.fits⟩
  | succ n ih =>
    obtain hgroup | ⟨⟨⟨count, type⟩, code⟩, hgroup⟩ := Option.eq_none_or_eq_some (pullLocalGroup s.code)
    · rw [readGroups_none hgroup]
      exact ⟨fun _ h => (nomatch h), hs.full ▸ hs.ok.allocated.trans_lt hs.ok.fits⟩
    rw [readGroups_some hgroup]
    obtain ⟨start, w, hadd⟩ := Vec.vecAdd_granting count s.locals
    obtain ⟨next, valType, hpull, -⟩ := pullLocalGroup_eq_some.mp hgroup
    have hfit : count < 2 ^ 31 ∧ specs.length + count < 2 ^ 32 := by
      by_contra hbad
      obtain ⟨hok, rfl, -⟩ := Vec.vecAdd_eq_some hs.ok (Wasm.bufferPullU32_lt hpull) hadd
      have hfull := hs.full
      have hlen := hs.ok.allocated.trans_lt hs.ok.fits
      have hcap := hok.fits
      have stuck := addFill_undefined (s := { s with code }) (g := fun start j => storeLocal (start + j) type (localConst type))
        hadd (by omega) (fun j hj s' => .inr ⟨(type, localConst type), rfl⟩) (by omega)
      rw [Raw.forFrom, Raw.bind_undefined ((setupLocalGroup_eq hgroup).trans stuck)] at h
      exact h
    obtain ⟨s', hs', hcode', hheld⟩ := setupLocalGroup_run hs hgroup hadd hfit.1 hfit.2
    rw [Raw.forFrom, Raw.bind_ok hs'] at h
    obtain rfl : s'.code = code := hcode'
    have rest := ih hheld h
    rw [List.length_append, List.length_replicate] at rest
    exact groupsFit_cons.mpr ⟨hfit.1, rest⟩

/-! ### The whole prologue -/

theorem jitRetType_eq_some (h : type.Ok) : (∃ ret, jitRetType type = some ret) ↔ type.resultTypes.length ≤ 1 := by
  obtain ⟨_, results⟩ := type
  obtain ⟨-, hresults⟩ := h
  rcases results with _ | ⟨result, _ | ⟨_, _⟩⟩
  · exact ⟨fun _ => Nat.zero_le 1, fun _ => ⟨_, rfl⟩⟩
  · exact ⟨fun _ => Nat.le_refl 1, fun _ => jitGetSpidirValueType_isSome (hresults result (List.mem_cons_self ..))⟩
  · exact ⟨fun ⟨_, h⟩ => (nomatch h), fun h => absurd h (by simp)⟩

theorem localSpecs_eq (args : List ValueType) (groups : List (ℕ × ValueType)) :
    localSpecs args groups = paramSpecs 0 args ++ groupSpecs groups := by
  simp [localSpecs, paramSpecs, groupSpecs]

theorem groupSpecs_length (groups : List (ℕ × ValueType)) : (groupSpecs groups).length = declaredCount groups := by
  simp [groupSpecs, declaredCount, List.length_flatMap]

theorem Held.entry (h : Held s e specs) {i : ℕ} (hi : i < s.locals.length) :
    ∃ v, s.locals.elements i = some v ∧ ∃ spec, specs[i]? = some spec ∧ Bound s.builder spec v := by
  have hspecs : i < specs.length := h.full ▸ hi
  have hlocals : i < e.func.locals.length := h.length ▸ hspecs
  refine ⟨e.func.locals[i], ?_, specs[i], List.getElem?_eq_getElem hspecs, ?_⟩
  · rw [h.starts i hlocals, List.getElem?_eq_getElem hlocals]
  · rw [h.builder]
    exact (List.forall₂_iff_get.mp h.bound).2 i hspecs hlocals

/-- The prologue with its vector ends where the translation of a body starts. -/
theorem setupLocals_run {t : JitState} {args : List ValueType} (h : jitArgTypes type = some args) (hs : Held s t.toEmitState [])
    (hcode : t.code = s.code) (hargs : type.argTypes.length + 2 ≤ 2 ^ 31)
    (hgroups : ∀ ret, jitRetType type = some ret → GroupsFit type.argTypes.length (declaredGroups s.code).1) :
    (setupLocals host type s).Meets fun r => ∃ u, jitEnterFunction type t = emit enterBody u ∧ u.code = r.2.code ∧
      (declaredGroups s.code).2 = some r.2.code ∧ Held r.2 u.toEmitState (localSpecs args (declaredGroups s.code).1) := by
  have hlen : (paramSpecs 0 args).length = type.argTypes.length := by rw [paramSpecs, List.length_mapIdx, (mapM_get h).1]
  obtain hadd | ⟨⟨start, w⟩, hadd⟩ := Option.eq_none_or_eq_some (Vec.vecAdd host type.argTypes.length s.locals)
  · rw [setupLocals, Raw.bind_failed ((congrFun setupParams_eq s).trans (addFill_failed hadd))]
    trivial
  obtain ⟨s', hs', hcode', hheld⟩ := setupParams_run h hs hargs hadd
  rw [setupLocals, Raw.bind_ok hs']
  obtain hret | ⟨ret, hret⟩ := Option.eq_none_or_eq_some (jitRetType type)
  · rw [hret]
    trivial
  rw [hret, Raw.bind_ok (Raw.lift_some ret s')]
  obtain hcount | ⟨⟨count, code⟩, hcount⟩ := Option.eq_none_or_eq_some (bufferPullU32 s'.code)
  · have stop : pullLocals bufferPullU32 { s' with retType := ret } = .failed := Raw.zoom_none hcount
    rw [Raw.bind_ok (show Raw.update _ s' = .ok ((), { s' with retType := ret }) from rfl), Raw.bind_failed stop]
    trivial
  have next : pullLocals bufferPullU32 { s' with retType := ret } = .ok (count, { s' with retType := ret, code }) :=
    Raw.zoom_some hcount
  have hread : declaredGroups s.code = readGroups count code := by rw [declaredGroups, ← hcode', hcount]
  rw [Raw.bind_ok (show Raw.update _ s' = .ok ((), { s' with retType := ret }) from rfl), Raw.bind_ok next, hread]
  -- the translator's state after the same parameters
  let e : EmitState := (paramSpecs 0 args).foldl EmitState.addLocal t.toEmitState
  let u : JitState := { t with code, toEmitState := { e with func := { e.func with retType := ret } } }
  have hu : Held { s' with retType := ret, code } u.toEmitState (paramSpecs 0 args) :=
    ⟨⟨hheld.builder, hheld.starts, hheld.bound⟩, hheld.ok, hheld.full⟩
  refine (groups_run (t := u) hu rfl (by rw [hlen, ← hread]; exact hgroups ret hret) 0).mono ?_
  rintro ⟨_, r⟩ ⟨v, hv, hcodes, hrest, hheld'⟩
  refine ⟨v, ?_, hcodes, hrest, by rwa [localSpecs_eq]⟩
  have params : (emit do
      addParams 0 type.argTypes
      let retType ← Checked.lift (jitRetType type)
      Checked.update fun s => { s with func := { s.func with retType } } : Handler Unit) t =
        some ((), { t with toEmitState := { e with func := { e.func with retType := ret } } }) := by
    refine (emit_eq_some _ _ _).mpr ⟨(), _, ?_, rfl⟩
    rw [Checked.bind_apply, addParams_eq h, hret]
    rfl
  have pulled : pull bufferPullU32 { t with toEmitState := { e with func := { e.func with retType := ret } } } = some (count, u) :=
    (pull_eq_some _ _ _).mpr ⟨count, code, (hcode.trans hcode'.symm) ▸ hcount, rfl⟩
  rw [jitEnterFunction, Checked.bind_apply, params, Option.bind_some, Checked.bind_apply, pulled, Option.bind_some,
    Checked.bind_apply, hv]
  rfl

/-- The state in which the prologue starts. -/
def localsStart (code : Buffer) (builder : Builder) : LocalsState := ⟨code, builder, ⟨0, 0, fun _ => none⟩, .none⟩

theorem held_start (code : Buffer) (builder : Builder) :
    Held (localsStart code builder) { functionState {} builder.params [] with code, builder }.toEmitState [] :=
  ⟨⟨rfl, fun i hi => absurd hi (Nat.not_lt_zero i), .nil⟩, Vec.ok_empty, rfl⟩

/-- A prologue that survives on a host with all the memory it asks for has counts that fit. -/
theorem locals_fit (h : type.Ok) {code : Buffer} {builder : Builder} {P : Unit × LocalsState → Prop}
    (hrun : (setupLocals Vec.granting type (localsStart code builder)).Meets P) : LocalsFit type code := by
  obtain ⟨args, hargs⟩ := jitArgTypes_eq_some h
  have start := held_start code builder
  obtain ⟨first, w, hadd⟩ := Vec.vecAdd_granting type.argTypes.length (localsStart code builder).locals
  have hfew : type.argTypes.length + 2 ≤ 2 ^ 31 := by
    by_contra hmany
    rw [setupLocals, Raw.bind_undefined (setupParams_undefined hargs (by omega) hadd)] at hrun
    exact hrun
  refine ⟨hfew, fun hresults => ?_⟩
  obtain ⟨ret, hret⟩ := (jitRetType_eq_some h).mpr hresults
  obtain ⟨s', hs', hcode', hheld⟩ := setupParams_run hargs start hfew hadd
  have hlen : (paramSpecs 0 args).length = type.argTypes.length := by rw [paramSpecs, List.length_mapIdx, (mapM_get hargs).1]
  rw [setupLocals, Raw.bind_ok hs', hret, Raw.bind_ok (Raw.lift_some ret s'),
    Raw.bind_ok (show Raw.update _ s' = .ok ((), { s' with retType := ret }) from rfl)] at hrun
  rw [declaredGroups, show code = s'.code from hcode'.symm]
  obtain hcount | ⟨⟨count, rest⟩, hcount⟩ := Option.eq_none_or_eq_some (bufferPullU32 s'.code)
  · rw [hcount]
    exact ⟨fun _ h => (nomatch h), hlen ▸ hheld.full ▸ hheld.ok.allocated.trans_lt hheld.ok.fits⟩
  · have next : pullLocals bufferPullU32 { s' with retType := ret } = .ok (count, { s' with retType := ret, code := rest }) :=
      Raw.zoom_some hcount
    rw [Raw.bind_ok next] at hrun
    have held : Held { s' with retType := ret, code := rest } _ (paramSpecs 0 args) :=
      ⟨⟨hheld.builder, hheld.starts, hheld.bound⟩, hheld.ok, hheld.full⟩
    rw [hcount, ← hlen]
    exact groups_fit held hrun
/-- Whatever the host grants, the locals vector holds a value for every parameter and every
declared local, in order, exactly if no count of them overflows. -/
theorem locals_exact (type : FuncType) (h : type.Ok) (code : Buffer) (builder : Builder) :
    (∀ host, (setupLocals host type (localsStart code builder)).Meets fun r => LocalsExact type code r.2) ↔
      LocalsFit type code := by
  obtain ⟨args, hargs⟩ := jitArgTypes_eq_some h
  constructor
  · exact fun hall => locals_fit h (hall Vec.granting)
  · intro fit host
    refine (setupLocals_run hargs (held_start code builder) rfl fit.args fun ret hret => fit.groups ((jitRetType_eq_some h).mp ⟨ret, hret⟩)).mono ?_
    rintro ⟨_, r⟩ ⟨_, -, -, hread, hheld⟩
    have hlen : r.locals.length = type.argTypes.length + declaredCount (declaredGroups code).1 := by
      rw [hheld.full, localSpecs_eq, List.length_append, groupSpecs_length, paramSpecs, List.length_mapIdx, (mapM_get hargs).1]
      rfl
    exact ⟨hread, hlen, hheld.ok.allocated.trans_lt hheld.ok.fits, args, hargs, fun i hi => hheld.entry hi⟩

/-- Two parameters, three `i64`s and an `f32`. -/
theorem locals_exact_two :
    (setupLocals Vec.granting ⟨[.i32, .f64], []⟩ (localsStart ⟨0, [2, 3, 0x7E, 1, 0x7D, 0x0B]⟩ {})).Meets fun r =>
      LocalsExact ⟨[.i32, .f64], []⟩ ⟨0, [2, 3, 0x7E, 1, 0x7D, 0x0B]⟩ r.2 := by
  have read : (declaredGroups ⟨0, [2, 3, 0x7E, 1, 0x7D, 0x0B]⟩).1 = [(3, .i64), (1, .f32)] := by decide +kernel
  have fit : LocalsFit ⟨[.i32, .f64], []⟩ ⟨0, [2, 3, 0x7E, 1, 0x7D, 0x0B]⟩ :=
    ⟨by decide, fun _ => read ▸ ⟨by simp, by decide⟩⟩
  exact (locals_exact ⟨[.i32, .f64], []⟩ ⟨by simp [Wasm.ValueType.IsNumber], by simp⟩ _ {}).mpr fit Vec.granting

/-- One `i32` and then `2 ^ 32 - 1` of them: the length wraps to 0 and the second fill leaves the array. -/
theorem locals_exact_fails : ¬(setupLocals Vec.granting ⟨[], []⟩
    (localsStart ⟨0, [2, 1, 0x7F, 0xFF, 0xFF, 0xFF, 0xFF, 0x0F, 0x7F, 0x0B]⟩ {})).Meets fun r =>
      LocalsExact ⟨[], []⟩ ⟨0, [2, 1, 0x7F, 0xFF, 0xFF, 0xFF, 0xFF, 0x0F, 0x7F, 0x0B]⟩ r.2 := by
  intro hrun
  have read : (declaredGroups ⟨0, [2, 1, 0x7F, 0xFF, 0xFF, 0xFF, 0xFF, 0x0F, 0x7F, 0x0B]⟩).1 =
      [(1, .i32), (4294967295, .i32)] := by decide +kernel
  have fit := (locals_fit ⟨by simp, by simp⟩ hrun).groups (Nat.zero_le 1)
  rw [read] at fit
  exact absurd (fit.count (4294967295, .i32) (by simp)) (by decide)

end SpidirWasm.Jit
