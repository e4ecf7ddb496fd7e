import Mathlib.Order.Nat
import SpidirWasm.Wasm.Load

/-! What each section parser leaves in the module: it fills its own field, every entry
of which passed the parser's checks, and touches nothing else. -/

namespace SpidirWasm.Wasm

open Keeping

variable {α β : Type} {m : WasmModule}

/-- The states of a parser with a given module. -/
def On (m : WasmModule) (s : LoadState) : Prop := s.module = m

/-- A part of a parser that leaves the module alone. -/
def Reads (m : WasmModule) (x : Load α) (Q : α → Prop) : Prop := Ensures (On m) x fun a s => On m s ∧ Q a

namespace Reads

variable {x : Load α} {f : α → Load β} {Q Q' : α → Prop} {R : β → Prop} {S : β → LoadState → Prop}

/-- A read, and what comes behind it. -/
theorem seq (hx : Reads m x Q) (hf : ∀ a, Q a → Ensures (On m) (f a) S) : Ensures (On m) (x >>= f) S :=
  Ensures.bind hx fun a => .assume (hf a)

theorem bind (hx : Reads m x Q) (hf : ∀ a, Q a → Reads m (f a) R) : Reads m (x >>= f) R := hx.seq hf

theorem weaken (hx : Reads m x Q) (h : ∀ a, Q a → Q' a) : Reads m x Q' :=
  Ensures.weaken hx (fun _ hs => hs) fun a _ hs => ⟨hs.1, h a hs.2⟩

/-- The last read of a parser. -/
theorem weaken' {S : α → LoadState → Prop} (hx : Reads m x Q) (h : ∀ a s, On m s → Q a → S a s) : Ensures (On m) x S :=
  Ensures.weaken hx (fun _ hs => hs) fun a s hs => h a s hs.1 hs.2

theorem pure (a : α) (h : Q a) : Reads m (Pure.pure a) Q := Ensures.pure a fun _ hs => ⟨hs, h⟩

theorem fail : Reads m (Keeping.fail : Load α) Q := Ensures.fail

theorem check (p : Prop) [Decidable p] : Reads m (Keeping.check p) fun _ => p := Ensures.check p

theorem lift (o : Option α) : Reads m (Keeping.lift o) fun a => o = some a := Ensures.lift o

theorem ite {p : Prop} [Decidable p] {y : Load α} (hx : p → Reads m x Q) (hy : ¬p → Reads m y Q) :
    Reads m (if p then x else y) Q := Ensures.ite hx hy

theorem collectInt {P : α → Prop} (hx : Reads m x P) (i n : ℕ) : Reads m (Keeping.collectInt x i n) fun as => ∀ a ∈ as, P a :=
  Ensures.collectInt hx i n

theorem module : Reads m Load.module (· = m) :=
  Ensures.weaken (Ensures.read _) (fun _ hs => hs) fun _ _ hs => ⟨hs.1, hs.2.trans hs.1⟩

theorem len : Reads m Load.len fun _ => True :=
  Ensures.weaken (Ensures.read _) (fun _ hs => hs) fun _ _ hs => ⟨hs.1, trivial⟩

theorem pull (p : Pull α) : Reads m (Load.pull p) fun a => ∃ b b', p b = some (a, b') := by
  have buffer : Reads m (Keeping.read LoadState.buffer) fun _ => True :=
    Ensures.weaken (Ensures.read _) (fun _ hs => hs) fun _ _ hs => ⟨hs.1, trivial⟩
  refine buffer.bind fun b _ => (lift _).bind fun r hr => ?_
  exact Ensures.bind (Q := fun _ => On m) (Ensures.update fun s hs => hs) fun _ => Ensures.pure _ fun s hs => ⟨hs, b, _, hr⟩

theorem atEnd : Reads m Load.atEnd fun _ => True := len.bind fun _ _ => (check _).weaken fun _ _ => trivial

end Reads

/-- A write is seen by what comes behind it. -/
theorem modify_then {f : WasmModule → WasmModule} {g : Unit → Load β} {S : β → LoadState → Prop}
    (h : Ensures (On (f m)) (g ()) S) : Ensures (On m) (Load.modify f >>= g) S :=
  Ensures.bind (Q := fun _ => On (f m)) (Ensures.update fun _ hs => congrArg f hs) fun _ => h

theorem modify_ensures {f : WasmModule → WasmModule} : Ensures (On m) (Load.modify f) fun _ => On (f m) :=
  Ensures.update fun _ hs => congrArg f hs

/-- The loop that fills a field: an array of defaults gets an entry of the right kind at
each index. -/
theorem fill {T : Type} {P : T → Prop} (put : List T → WasmModule → WasmModule) {default : T} {entry : ℕ → Load Unit} (n : ℕ)
    (hentry : ∀ i xs, Ensures (On (put xs m)) (entry i) fun _ s => ∃ x, P x ∧ On (put (xs.set i x) m) s) :
    Ensures (On m) (do
      Load.modify (put (List.replicate n default))
      forInt entry 0 n
      Load.atEnd) fun _ s => ∃ xs, xs.length = n ∧ (∀ x ∈ xs, P x) ∧ On (put xs m) s := by
  let I : ℕ → LoadState → Prop := fun i s => ∃ xs : List T, xs.length = n ∧ (∀ j x, j < i → xs[j]? = some x → P x) ∧ On (put xs m) s
  have turn : ∀ i, Ensures (I i) (entry i) fun _ => I (i + 1) := by
    rintro i s a t seen ⟨xs, hlen, hxs, hs⟩ hm
    obtain ⟨x, hx, ht⟩ := hentry i xs s a t seen hs hm
    refine ⟨xs.set i x, by simp [hlen], fun j y hj hy => ?_, ht⟩
    rw [List.getElem?_set] at hy
    split_ifs at hy with he hlt
    · exact Option.some.inj hy ▸ hx
    · exact hxs j y (by omega) hy
  refine modify_then ?_
  refine Ensures.bind ((Ensures.forInt turn 0 n).weaken (fun s hs => ?_) fun _ _ h => h) fun _ => ?_
  · exact ⟨List.replicate n default, by simp, by simp, hs⟩
  · rintro s a t seen ⟨xs, hlen, hxs, hs⟩ hm
    refine ⟨xs, hlen, fun x hx => ?_, (Reads.atEnd s a t seen hs hm).1⟩
    obtain ⟨j, hj⟩ := List.getElem?_of_mem hx
    exact hxs j x (by have := (List.getElem?_eq_some_iff.mp hj).1; omega) hj

/-! ### Values and types -/

/-- `lebLoop` accumulates `w` bits. -/
theorem lebLoop_lt {w limit result shift : ℕ} {bs rest : List UInt8} {out s : ℕ} {last : UInt8} (h : result < 2 ^ w)
    (hl : lebLoop w limit result shift bs = some (out, s, last, rest)) : out < 2 ^ w := by
  induction bs generalizing result shift with
  | nil => simp [lebLoop] at hl
  | cons byte bs ih =>
    have hmod := Nat.mod_lt (result ||| ((byte.toNat &&& 0x7f) <<< shift)) (Nat.two_pow_pos w)
    simp only [lebLoop] at hl
    split_ifs at hl
    · exact ih hmod hl
    · simp only [Option.some.injEq, Prod.mk.injEq] at hl
      exact hl.1 ▸ hmod

theorem bufferPullU32_lt {b b' : Buffer} {n : ℕ} (h : bufferPullU32 b = some (n, b')) : n < 2 ^ 32 := by
  simp only [bufferPullU32, pullUnsigned, Option.map_eq_some_iff, Prod.mk.injEq, Prod.exists] at h
  obtain ⟨out, s, last, rest, hl, rfl, -⟩ := h
  exact lebLoop_lt (Nat.two_pow_pos 32) hl

theorem bufferPullI32_lt {b b' : Buffer} {n : ℕ} (h : bufferPullI32 b = some (n, b')) : n < 2 ^ 32 := by
  simp only [bufferPullI32, pullSigned, Option.map_eq_some_iff, Prod.mk.injEq, Prod.exists] at h
  obtain ⟨out, s, last, rest, hl, rfl, -⟩ := h
  have hlt := lebLoop_lt (Nat.two_pow_pos 32) hl
  split_ifs
  · exact Nat.or_lt_two_pow hlt (Nat.mod_lt _ (Nat.two_pow_pos 32))
  · exact hlt

theorem bufferPull_length {b b' : Buffer} {n : ℕ} {bytes : List UInt8} (h : bufferPull n b = some (bytes, b')) : bytes.length = n := by
  obtain ⟨hle, he⟩ := (bufferPull_eq_some n b _).mp h
  rw [(Prod.mk.inj he).1, List.length_take, Nat.min_eq_left hle]

/-- One of the four number types. -/
def ValueType.IsNumber (t : ValueType) : Prop := t ≠ .invalid

theorem bufferPullValType_isNumber {b b' : Buffer} {t : ValueType} (h : bufferPullValType b = some (t, b')) : t.IsNumber := by
  simp only [bufferPullValType, Checked.bind_eq_some, Checked.lift_eq_some, Prod.mk.injEq] at h
  obtain ⟨byte, _, -, _, ht, rfl, -⟩ := h
  split at ht <;> simp only [Option.some.injEq, reduceCtorEq] at ht <;> subst ht <;> simp [ValueType.IsNumber]

theorem pullValTypes_reads (n : ℕ) : Reads m (pullValTypes n) fun ts => ∀ t ∈ ts, t.IsNumber :=
  .collectInt ((Reads.pull _).weaken fun _ ⟨_, _, h⟩ => bufferPullValType_isNumber h) 0 n

theorem wasmPullResultType_reads : Reads m wasmPullResultType fun ts => ∀ t ∈ ts, t.IsNumber :=
  (Reads.pull _).bind fun _ _ => Reads.len.bind fun _ _ => (Reads.check _).bind fun _ _ => pullValTypes_reads _

/-- A signature of number types. -/
def FuncType.Ok (t : FuncType) : Prop := (∀ a ∈ t.argTypes, a.IsNumber) ∧ ∀ r ∈ t.resultTypes, r.IsNumber

/-- Writing an entry in two steps writes it. -/
theorem modify_modify_set {T : Type} {f g : T → T} {x : T} (h : ∀ t, g (f t) = x) (xs : List T) (i : ℕ) :
    (xs.modify i f).modify i g = xs.set i x := by
  refine List.ext_getElem? fun j => ?_
  rw [List.modify_modify_eq, List.getElem?_modify, List.getElem?_set]
  by_cases hi : i = j
  · subst hi
    by_cases hlt : i < xs.length <;> simp [h, hlt]
  · simp [hi]

theorem wasmParseTypeSection_ensures : Ensures (On m) wasmParseTypeSection fun _ s =>
    ∃ types : List FuncType, (∀ t ∈ types, t.Ok) ∧ On { m with types } s := by
  refine (Reads.pull _).seq fun count _ => Reads.len.seq fun _ _ => (Reads.check _).seq fun _ _ => ?_
  refine (fill (P := FuncType.Ok) (fun types m => { m with types }) count fun i xs => ?_).weaken
    (fun _ h => h) fun _ s ⟨types, _, hok, hs⟩ => ⟨types, hok, hs⟩
  refine (Reads.pull _).seq fun _ _ => (Reads.check _).seq fun _ _ => wasmPullResultType_reads.seq fun args hargs => ?_
  refine modify_then <| wasmPullResultType_reads.seq fun results hresults => ?_
  refine modify_ensures.weaken (fun _ h => h) fun _ s hs => ⟨⟨args, results⟩, ⟨hargs, hresults⟩, ?_⟩
  rw [← modify_modify_set (f := fun t => { t with argTypes := args }) (g := fun t => { t with resultTypes := results }) fun _ => rfl]
  exact hs

theorem pullItemName_reads : Reads m pullItemName fun _ => True :=
  (Reads.pull _).bind fun _ _ => (Reads.check _).bind fun _ _ => .pure _ trivial

/-! ### Index spaces -/

theorem wasmParseImportSection_ensures : Ensures (On m) wasmParseImportSection fun _ s =>
    ∃ imports : List WasmImport, (∀ i ∈ imports, i.kind = .func ∧ i.index < m.types.length) ∧ On { m with imports } s := by
  refine (Reads.pull _).seq fun count _ => Reads.len.seq fun _ _ => (Reads.check _).seq fun _ _ => ?_
  refine (fill (P := fun i : WasmImport => i.kind = .func ∧ i.index < m.types.length) (fun imports m => { m with imports }) count
    fun i xs => ?_).weaken (fun _ h => h) fun _ s ⟨imports, _, hok, hs⟩ => ⟨imports, hok, hs⟩
  refine pullItemName_reads.seq fun _ _ => pullItemName_reads.seq fun _ _ => (Reads.pull _).seq fun _ _ =>
    (Reads.pull _).seq fun index _ => (Reads.check _).seq fun _ _ => Reads.module.seq fun m' hm' =>
    (Reads.check _).seq fun hi _ => ?_
  subst hm'
  exact modify_ensures.weaken (fun _ h => h) fun _ s hs => ⟨_, ⟨rfl, by assumption⟩, hs⟩

theorem wasmParseFunctionSection_ensures : Ensures (On m) wasmParseFunctionSection fun _ s =>
    ∃ functions : List ℕ, (∀ i ∈ functions, i < m.types.length) ∧ On { m with functions } s := by
  refine (Reads.pull _).seq fun count _ => Reads.len.seq fun _ _ => (Reads.check _).seq fun _ _ => ?_
  refine (fill (P := fun i => i < m.types.length) (fun functions m => { m with functions }) count
    fun i xs => ?_).weaken (fun _ h => h) fun _ s ⟨functions, _, hok, hs⟩ => ⟨functions, hok, hs⟩
  refine (Reads.pull _).seq fun typeidx _ => Reads.module.seq fun m' hm' => (Reads.check _).seq fun _ hi => ?_
  subst hm'
  exact modify_ensures.weaken (fun _ h => h) fun _ s hs => ⟨typeidx, hi, hs⟩

/-- Whole pages, at most 4 GiB of them. -/
structure WasmMemory.Ok (mem : WasmMemory) : Prop where
  min_le : mem.min ≤ mem.max
  max_le : mem.max ≤ 2 ^ 32
  min_pages : pageSize ∣ mem.min
  max_pages : pageSize ∣ mem.max

theorem pullMemoryLimits_ensures : Ensures (On m) pullMemoryLimits fun _ s => ∃ memory, On { m with memory } s := by
  refine (Reads.pull _).seq fun _ _ => .ite (fun _ => ?_) fun _ => .ite (fun _ => ?_) fun _ => .ite (fun _ => ?_) fun _ => .fail
  · exact (Reads.pull _).seq fun _ _ => modify_ensures.weaken (fun _ h => h) fun _ s hs => ⟨_, hs⟩
  · exact (Reads.pull _).seq fun _ _ => (Reads.pull _).seq fun _ _ => modify_ensures.weaken (fun _ h => h) fun _ s hs => ⟨_, hs⟩
  · exact (Reads.pull _).seq fun _ _ => (Reads.pull _).seq fun _ _ => modify_ensures.weaken (fun _ h => h) fun _ s hs => ⟨_, hs⟩

theorem wasmParseMemorySection_ensures : Ensures (On m) wasmParseMemorySection fun _ s =>
    ∃ memory : WasmMemory, memory.Ok ∧ On { m with memory } s := by
  refine (Reads.pull _).seq fun count _ => (Reads.check _).seq fun _ _ => pullMemoryLimits_ensures.bind fun _ => ?_
  rintro s a t seen ⟨memory, hs⟩
  revert s a t seen
  refine Reads.module.seq fun m' hm' => ?_
  subst hm'
  refine (Reads.check _).seq fun _ hle => (Reads.check _).seq fun _ _ => (Reads.check _).seq fun _ _ => modify_then ?_
  refine (Reads.check _).seq fun _ _ => (Reads.check _).seq fun _ hmax => Reads.atEnd.weaken' fun _ s hs _ => ?_
  exact ⟨_, ⟨Nat.mul_le_mul_right _ hle, hmax, Nat.dvd_mul_left .., Nat.dvd_mul_left ..⟩, hs⟩

theorem pullConstant_reads (opcode : ℕ) : Reads m (pullConstant opcode) fun v => v.kind = .i32 → v.bits < 2 ^ 32 := by
  unfold pullConstant
  split
  · exact (Reads.pull _).bind fun _ ⟨_, _, h⟩ => .pure _ fun _ => bufferPullI32_lt h
  iterate 3 exact (Reads.pull _).bind fun _ _ => .pure _ (by simp)
  exact .fail

theorem wasmParseConstantExpr_reads : Reads m wasmParseConstantExpr fun v => v.kind = .i32 → v.bits < 2 ^ 32 :=
  (Reads.pull _).bind fun _ _ => (pullConstant_reads _).bind fun _ h => (Reads.pull _).bind fun _ _ =>
    (Reads.check _).bind fun _ _ => .pure _ h

theorem wasmParseGlobalSection_ensures : Ensures (On m) wasmParseGlobalSection fun _ s =>
    ∃ globals : List WasmGlobal, (∀ g ∈ globals, g.value.kind.IsNumber) ∧ On { m with globals } s := by
  refine (Reads.pull _).seq fun count _ => Reads.len.seq fun _ _ => (Reads.check _).seq fun _ _ => ?_
  refine (fill (P := fun g : WasmGlobal => g.value.kind.IsNumber) (fun globals m => { m with globals }) count
    fun i xs => ?_).weaken (fun _ h => h) fun _ s ⟨globals, _, hok, hs⟩ => ⟨globals, hok, hs⟩
  refine (Reads.pull _).seq fun type ⟨_, _, htype⟩ => (Reads.pull _).seq fun _ _ => (Reads.check _).seq fun _ _ =>
    wasmParseConstantExpr_reads.seq fun value _ => (Reads.check _).seq fun _ hkind => ?_
  exact modify_ensures.weaken (fun _ h => h) fun _ s hs => ⟨_, hkind ▸ bufferPullValType_isNumber htype, hs⟩

theorem pullTableLimits_reads : Reads m pullTableLimits fun _ => True :=
  (Reads.pull _).bind fun _ _ => .ite (fun _ => (Reads.pull _).bind fun _ _ => .pure _ trivial) fun _ =>
    .ite (fun _ => (Reads.pull _).bind fun _ _ => (Reads.pull _).bind fun _ _ => .pure _ trivial) fun _ => .fail

theorem wasmParseTableSection_ensures : Ensures (On m) wasmParseTableSection fun _ s =>
    ∃ tables : List WasmTable, (∀ t ∈ tables, t.min ≤ t.max) ∧ On { m with tables } s := by
  refine (Reads.pull _).seq fun count _ => Reads.len.seq fun _ _ => (Reads.check _).seq fun _ _ => ?_
  refine (fill (P := fun t : WasmTable => t.min ≤ t.max) (fun tables m => { m with tables }) count
    fun i xs => ?_).weaken (fun _ h => h) fun _ s ⟨tables, _, hok, hs⟩ => ⟨tables, hok, hs⟩
  refine (Reads.pull _).seq fun _ _ => (Reads.check _).seq fun _ _ => pullTableLimits_reads.seq fun table _ => modify_then ?_
  exact (Reads.check _).weaken' fun _ s hs hle => ⟨table, hle, hs⟩

/-! ### Segments, exports and code -/

theorem totalFuncs32_le (m : WasmModule) : m.totalFuncs32 ≤ m.totalFuncs := Nat.mod_le _ _

theorem pullFuncIndices_reads (n : ℕ) : Reads m (pullFuncIndices n) fun funcs => ∀ f ∈ funcs, f < m.totalFuncs := by
  refine .collectInt ?_ 0 n
  exact (Reads.pull _).bind fun fidx _ => Reads.module.bind fun m' hm' => (Reads.check _).bind fun _ hlt =>
    .pure _ (hlt.trans_le (hm' ▸ totalFuncs32_le m'))

/-- An element segment of the only table, with functions that exist. -/
structure ElemSegment.Ok (totalFuncs : ℕ) (e : ElemSegment) : Prop where
  table : e.tableidx = 0
  offset : e.offset < 2 ^ 32
  funcs : ∀ f ∈ e.funcs, f < totalFuncs

theorem wasmParseElementSection_ensures : Ensures (On m) wasmParseElementSection fun _ s =>
    ∃ elems : List ElemSegment, (∀ e ∈ elems, e.Ok m.totalFuncs) ∧ On { m with elems } s := by
  refine (Reads.pull _).seq fun count _ => Reads.len.seq fun _ _ => (Reads.check _).seq fun _ _ => ?_
  refine (fill (P := ElemSegment.Ok m.totalFuncs) (fun elems m => { m with elems }) count
    fun i xs => ?_).weaken (fun _ h => h) fun _ s ⟨elems, _, hok, hs⟩ => ⟨elems, hok, hs⟩
  refine (Reads.pull _).seq fun _ _ => (Reads.check _).seq fun _ _ => wasmParseConstantExpr_reads.seq fun offset hoffset =>
    (Reads.check _).seq fun _ hkind => (Reads.pull _).seq fun _ _ => Reads.len.seq fun _ _ => (Reads.check _).seq fun _ _ =>
    (pullFuncIndices_reads _).seq fun funcs hfuncs => ?_
  exact modify_ensures.weaken (fun _ h => h) fun _ s hs => ⟨_, ⟨rfl, hoffset hkind, hfuncs⟩, hs⟩

/-- A data segment that fits the 32-bit fields it is read from. -/
structure DataSegment.Ok (d : DataSegment) : Prop where
  offset : d.offset < 2 ^ 32
  length : d.data.length < 2 ^ 32

theorem wasmParseDataSection_ensures : Ensures (On m) wasmParseDataSection fun _ s =>
    ∃ data : List DataSegment, (∀ d ∈ data, d.Ok) ∧ On { m with data } s := by
  refine (Reads.pull _).seq fun count _ => Reads.len.seq fun _ _ => (Reads.check _).seq fun _ _ => ?_
  refine (fill (P := DataSegment.Ok) (fun data m => { m with data }) count
    fun i xs => ?_).weaken (fun _ h => h) fun _ s ⟨data, _, hok, hs⟩ => ⟨data, hok, hs⟩
  refine (Reads.pull _).seq fun _ _ => .ite (fun _ => ?_) fun _ => .ite (fun _ => ?_) fun _ => .fail
  · refine wasmParseConstantExpr_reads.seq fun offset hoffset => (Reads.check _).seq fun _ hkind =>
      (Reads.pull _).seq fun len ⟨_, _, hlen⟩ => (Reads.pull _).seq fun bytes ⟨_, _, hbytes⟩ => ?_
    exact modify_ensures.weaken (fun _ h => h) fun _ s hs =>
      ⟨_, ⟨hoffset hkind, (bufferPull_length hbytes).trans_lt (bufferPullU32_lt hlen)⟩, hs⟩
  · refine (Reads.pull _).seq fun len ⟨_, _, hlen⟩ => (Reads.pull _).seq fun bytes ⟨_, _, hbytes⟩ => ?_
    exact modify_ensures.weaken (fun _ h => h) fun _ s hs =>
      ⟨_, ⟨by simp, (bufferPull_length hbytes).trans_lt (bufferPullU32_lt hlen)⟩, hs⟩

/-- An export of something that exists. -/
structure WasmExport.Ok (totalFuncs globals : ℕ) (e : WasmExport) : Prop where
  kind : e.kind = .func ∨ e.kind = .memory ∨ e.kind = .global
  func : e.kind = .func → e.index < totalFuncs
  memory : e.kind = .memory → e.index = 0
  global : e.kind = .global → e.index < globals

theorem exportKind_reads (byte : UInt8) (index : ℕ) (name : Option Name) :
    Reads m (exportKind byte index) fun kind => (⟨name, kind, index⟩ : WasmExport).Ok m.totalFuncs m.globals.length := by
  refine Reads.module.bind fun m' hm' => ?_
  subst hm'
  refine .ite (fun _ => ?_) fun _ => .ite (fun _ => ?_) fun _ => .ite (fun _ => ?_) fun _ => .fail
  · exact (Reads.check _).bind fun _ hlt => .pure _ ⟨by simp, fun _ => hlt.trans_le (totalFuncs32_le m'), by simp, by simp⟩
  · exact (Reads.check _).bind fun _ hz => .pure _ ⟨by simp, by simp, fun _ => hz, by simp⟩
  · exact (Reads.check _).bind fun _ hlt => .pure _ ⟨by simp, by simp, by simp, fun _ => hlt⟩

theorem wasmParseExportSection_ensures : Ensures (On m) wasmParseExportSection fun _ s =>
    ∃ exports : List WasmExport, (∀ e ∈ exports, e.Ok m.totalFuncs m.globals.length) ∧ On { m with exports } s := by
  refine (Reads.pull _).seq fun count _ => Reads.len.seq fun _ _ => (Reads.check _).seq fun _ _ => ?_
  refine (fill (P := WasmExport.Ok m.totalFuncs m.globals.length) (fun exports m => { m with exports }) count
    fun i xs => ?_).weaken (fun _ h => h) fun _ s ⟨exports, _, hok, hs⟩ => ⟨exports, hok, hs⟩
  refine pullItemName_reads.seq fun name _ => (Reads.pull _).seq fun byte _ => (Reads.pull _).seq fun index _ =>
    (exportKind_reads byte index (some name)).seq fun kind hkind => ?_
  exact modify_ensures.weaken (fun _ h => h) fun _ s hs => ⟨_, hkind, hs⟩

/-- A start function exists and has the empty signature. -/
def StartOk (m : WasmModule) (index : ℕ) : Prop :=
  index < m.totalFuncs ∧ ∃ type, m.getFunc index = some type ∧ type.argTypes = [] ∧ type.resultTypes = []

theorem startTypeidx_reads (index : ℕ) : Reads m (startTypeidx m index) fun typeidx => m.getFunc index = m.types[typeidx]? := by
  refine .ite (fun hi => ?_) fun hi => ?_
  · refine (Reads.lift _).bind fun item hitem => (Reads.check _).bind fun _ hkind => .pure _ ?_
    rw [WasmModule.getFunc, if_pos hi, hitem]
    exact if_pos hkind
  · refine (Reads.lift _).weaken fun typeidx htypeidx => ?_
    rw [WasmModule.getFunc, if_neg hi, htypeidx]

theorem wasmParseStartSection_ensures : Ensures (On m) wasmParseStartSection fun _ s =>
    ∃ index, StartOk m index ∧ On { m with startFunc := index } s := by
  refine (Reads.pull _).seq fun index _ => modify_then <| Reads.atEnd.seq fun _ _ => Reads.module.seq fun m' hm' => ?_
  subst hm'
  refine (Reads.check _).seq fun _ hlt => (startTypeidx_reads index).seq fun typeidx htypeidx => (Reads.lift _).seq fun type htype =>
    (Reads.check _).seq fun _ hargs => (Reads.check _).weaken' fun _ s hs hresults => ?_
  exact ⟨index, ⟨hlt.trans_le (totalFuncs32_le _), type, htypeidx.trans htype, List.length_eq_zero_iff.mp hargs,
    List.length_eq_zero_iff.mp hresults⟩, hs⟩

theorem wasmParseCodeSection_ensures : Ensures (On m) wasmParseCodeSection fun _ s =>
    ∃ code : List (List UInt8), code.length = m.functions.length ∧ (∀ c ∈ code, c.length < 2 ^ 32) ∧ On { m with code } s := by
  refine (Reads.pull _).seq fun count _ => Reads.module.seq fun m' hm' => (Reads.check _).seq fun _ hcount => ?_
  subst hm'
  refine (fill (P := fun c : List UInt8 => c.length < 2 ^ 32) (fun code m => { m with code := some code }) count
    fun i xs => ?_).weaken (fun _ h => h) fun _ s ⟨code, hlen, hok, hs⟩ => ⟨code, hlen.trans hcount, hok, hs⟩
  refine (Reads.pull _).seq fun len ⟨_, _, hlen⟩ => (Reads.pull _).seq fun bytes ⟨_, _, hbytes⟩ => ?_
  exact modify_ensures.weaken (fun _ h => h) fun _ s hs => ⟨bytes, (bufferPull_length hbytes).trans_lt (bufferPullU32_lt hlen), hs⟩

/-! ### Names -/

/-- The module but for its names. -/
def Named (m : WasmModule) (s : LoadState) : Prop := ∃ moduleName functionNames, On { m with moduleName, functionNames } s

theorem Named.modify {f : WasmModule → WasmModule}
    (h : ∀ m : WasmModule, ∃ moduleName functionNames, f m = { m with moduleName, functionNames }) :
    Preserves (Named m) (Load.modify f) := by
  refine .update fun s ⟨moduleName, functionNames, hs⟩ => ?_
  obtain ⟨mn, fn, hf⟩ := h s.module
  exact ⟨mn, fn, by rw [On, hf, show s.module = _ from hs]⟩

theorem Named.pull (p : Pull α) : Preserves (Named m) (Load.pull p) :=
  .bind (.read _) fun _ => .bind (.lift _) fun _ => .bind (.update fun _ h => h) fun _ => .pure _

theorem setFunctionName_named (totalFuncs funcidx : ℕ) (name : Option Name) :
    Preserves (Named m) (setFunctionName totalFuncs funcidx name) :=
  .bind (.read _) fun _ => .ite (.bind (.forbid _) fun _ => Named.modify fun m => ⟨m.moduleName, _, rfl⟩) (.pure _)

theorem parseFunctionNames_named (totalFuncs : ℕ) (contents : Buffer) (n : ℕ) :
    Preserves (Named m) (parseFunctionNames totalFuncs contents n) := by
  induction n generalizing contents with
  | zero => exact .pure _
  | succ n ih =>
    exact .bind (.lift _) fun _ => .bind (.lift _) fun _ => .bind (setFunctionName_named _ _ _) fun _ => ih _

theorem parseNameSubsection_named (totalFuncs : ℕ) : Preserves (Named m) (parseNameSubsection totalFuncs) := by
  refine .bind (Named.pull _) fun _ => .bind (Named.pull _) fun _ => .bind (Named.pull _) fun _ => .ite ?_ (.ite ?_ (.pure _))
  · exact .bind (.read _) fun _ => .ite (.bind (.lift _) fun _ => Named.modify fun m => ⟨_, m.functionNames, rfl⟩) (.pure _)
  · have alloc : Preserves (Named m) (allocFunctionNames totalFuncs) :=
      .bind (.read _) fun _ => .ite (Named.modify fun m => ⟨m.moduleName, _, rfl⟩) (.pure _)
    exact .bind alloc fun _ => .bind (.lift _) fun _ => parseFunctionNames_named _ _ _

theorem wasmParseNameSection_named : Preserves (Named m) wasmParseNameSection := by
  have loop : ∀ totalFuncs fuel, Preserves (Named m) (nameSubsections totalFuncs fuel) := by
    intro totalFuncs fuel
    induction fuel with
    | zero => exact .pure _
    | succ fuel ih => exact .bind (.read _) fun _ => .ite (.bind (parseNameSubsection_named _) fun _ => ih) (.pure _)
  exact .bind (.read _) fun _ => .bind (.read _) fun _ => loop _ _

/-- A custom section changes nothing but the names. -/
theorem customSection_named : Preserves (Named m) (wasmParseSection 0) :=
  .bind (Named.pull _) fun _ => .ite wasmParseNameSection_named (.pure _)

/-! ### What a section writes -/

/-- The field that the section of an id has to do with, and nothing else. -/
inductive SectionWrites (m : WasmModule) : ℕ → WasmModule → Prop
  | names (moduleName : Option Name) (functionNames : Option (List (Option Name))) : SectionWrites m 0 { m with moduleName, functionNames }
  | types (types : List FuncType) : SectionWrites m 1 { m with types }
  | imports (imports : List WasmImport) : SectionWrites m 2 { m with imports }
  | functions (functions : List ℕ) : SectionWrites m 3 { m with functions }
  | tables (tables : List WasmTable) : SectionWrites m 4 { m with tables }
  | memory (memory : WasmMemory) : SectionWrites m 5 { m with memory }
  | globals (globals : List WasmGlobal) : SectionWrites m 6 { m with globals }
  | exports (exports : List WasmExport) : SectionWrites m 7 { m with exports }
  | start (index : ℕ) : SectionWrites m 8 { m with startFunc := index }
  | elems (elems : List ElemSegment) : SectionWrites m 9 { m with elems }
  | code (code : List (List UInt8)) : SectionWrites m 10 { m with code }
  | data (data : List DataSegment) : SectionWrites m 11 { m with data }
  | dataCount : SectionWrites m 12 m

/-- A section that is accepted has written its field. -/
theorem section_writes {id : ℕ} {b : Buffer} {s : LoadState} (hrun : (wasmParseSection id).run ⟨m, b⟩ = some ((), s)) :
    SectionWrites m id s.module := by
  have wrote {x : Load Unit} (hx : Ensures (On m) x fun _ s => SectionWrites m id s.module) (hrun : x.run ⟨m, b⟩ = some ((), s)) :
      SectionWrites m id s.module := hx.of_run (show On m ⟨m, b⟩ from rfl) hrun
  match id with
  | 0 =>
    refine wrote ((Ensures.of_preserves (P := Named m) customSection_named).weaken (fun _ h => ⟨_, _, h⟩) ?_) hrun
    rintro _ s ⟨_, _, h⟩
    exact h ▸ .names _ _
  | 1 => exact wrote (wasmParseTypeSection_ensures.weaken (fun _ h => h) fun _ _ ⟨_, _, h⟩ => h ▸ .types _) hrun
  | 2 => exact wrote (wasmParseImportSection_ensures.weaken (fun _ h => h) fun _ _ ⟨_, _, h⟩ => h ▸ .imports _) hrun
  | 3 => exact wrote (wasmParseFunctionSection_ensures.weaken (fun _ h => h) fun _ _ ⟨_, _, h⟩ => h ▸ .functions _) hrun
  | 4 => exact wrote (wasmParseTableSection_ensures.weaken (fun _ h => h) fun _ _ ⟨_, _, h⟩ => h ▸ .tables _) hrun
  | 5 => exact wrote (wasmParseMemorySection_ensures.weaken (fun _ h => h) fun _ _ ⟨_, _, h⟩ => h ▸ .memory _) hrun
  | 6 => exact wrote (wasmParseGlobalSection_ensures.weaken (fun _ h => h) fun _ _ ⟨_, _, h⟩ => h ▸ .globals _) hrun
  | 7 => exact wrote (wasmParseExportSection_ensures.weaken (fun _ h => h) fun _ _ ⟨_, _, h⟩ => h ▸ .exports _) hrun
  | 8 => exact wrote (wasmParseStartSection_ensures.weaken (fun _ h => h) fun _ _ ⟨_, _, h⟩ => h ▸ .start _) hrun
  | 9 => exact wrote (wasmParseElementSection_ensures.weaken (fun _ h => h) fun _ _ ⟨_, _, h⟩ => h ▸ .elems _) hrun
  | 10 => exact wrote (wasmParseCodeSection_ensures.weaken (fun _ h => h) fun _ _ ⟨_, _, _, h⟩ => h ▸ .code _) hrun
  | 11 => exact wrote (wasmParseDataSection_ensures.weaken (fun _ h => h) fun _ _ ⟨_, _, h⟩ => h ▸ .data _) hrun
  | 12 => exact wrote (Ensures.pure _ fun _ h => h ▸ .dataCount) hrun
  | _ + 13 => exact wrote Ensures.fail hrun

end SpidirWasm.Wasm
