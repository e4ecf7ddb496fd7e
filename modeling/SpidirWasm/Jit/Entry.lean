import SpidirWasm.Jit.DataSteps
import SpidirWasm.Jit.Function

/-! The state in which the opcode loop starts: an empty entry block, and locals that
hold parameters and zeros. -/

namespace SpidirWasm.Jit

open Checked
open Spidir (Builder Inst Value ValueType)
open Wasm (FuncType)

/-- Only parameters and constants were built, and every local holds one of its type. -/
structure Fresh (ctx : JitContext) (params : List ValueType) (ret : ValueType) (s : EmitState) : Prop where
  ctx : s.ctx = ctx
  retType : s.func.retType = ret
  labels : s.func.labels = []
  params : s.builder.params = params
  nextBlock : s.builder.nextBlock = 0
  cur : s.builder.cur = none
  items : ∀ k, s.builder.items k = []
  edges : s.builder.edges = []
  locals : ∀ l ∈ s.func.locals, s.builder.Typed l.value l.type ∧ l.type ≠ .none
  nodes : ∀ n < s.builder.nextValue, s.builder.NodeOk (s.builder.node n) ∧ (s.builder.node n).inst.isFloating = true ∧
    (s.builder.node n).block = none

/-- Before the first opcode. -/
structure Entered (ctx : JitContext) (params : List ValueType) (ret : ValueType) (s : EmitState) : Prop where
  ctx : s.ctx = ctx
  retType : s.func.retType = ret
  labels : s.func.labels = [{}]
  params : s.builder.params = params
  nextBlock : s.builder.nextBlock = 1
  entry : s.builder.entry = some 0
  cur : s.builder.cur = some 0
  items : ∀ k, s.builder.items k = []
  edges : s.builder.edges = []
  locals : ∀ l ∈ s.func.locals, s.builder.Typed l.value l.type ∧ l.type ≠ .none
  nodes : ∀ n < s.builder.nextValue, s.builder.NodeOk (s.builder.node n) ∧ (s.builder.node n).inst.isFloating = true ∧
    (s.builder.node n).block = none

variable {ctx : JitContext} {params : List ValueType} {ret : ValueType}

/-- A parameter or a constant of a type. -/
def Initial (params : List ValueType) (type : ValueType) (i : Inst) : Prop :=
  (∃ n, i = .param n ∧ params[n]? = some type) ∨ i = localConst type ∧ type.IsInt ∨ i = localConst type ∧ type.IsFloat

theorem Initial.node {type : ValueType} {i : Inst} {b : Builder} (h : Initial params type i) (hp : b.params = params) :
    i.isFloating = true ∧ i.hasOutput = true ∧ b.instType i = type ∧ ∀ b' : Builder, b'.params = params → b'.NodeOk ⟨i, type, none⟩ := by
  rcases h with ⟨n, rfl, ht⟩ | ⟨rfl, rfl | rfl⟩ | ⟨rfl, rfl | rfl⟩
  · exact ⟨rfl, rfl, by simp [Builder.instType, Inst.resultType, hp, List.getD, ht], fun b' hb => by simp [Builder.NodeOk, hb, ht]⟩
  · exact ⟨rfl, rfl, rfl, fun _ _ => .iconst _ (.inl isInt_i32) _⟩
  · exact ⟨rfl, rfl, rfl, fun _ _ => .iconst _ (.inl isInt_i64) _⟩
  · exact ⟨rfl, rfl, rfl, fun _ _ => .fconst32 _⟩
  · exact ⟨rfl, rfl, rfl, fun _ _ => .fconst64 _⟩

theorem addLocal_fresh {type : ValueType} {i : Inst} (hi : Initial params type i) (ht : type ≠ .none) :
    Ensures (Fresh ctx params ret) (addLocal type i) fun _ => Fresh ctx params ret := by
  intro s a t hs h
  simp only [addLocal, build_bind, update_eq_some, Prod.mk.injEq, true_and] at h
  subst h
  obtain ⟨hfloat, hout, hty, hok⟩ := hi.node hs.params
  have hnode : (s.builder.build i).node s.builder.nextValue = ⟨i, type, none⟩ := by simp [hty, hs.cur]
  refine ⟨hs.ctx, hs.retType, hs.labels, by simpa using hs.params, by simpa using hs.nextBlock, by simpa using hs.cur, fun k => ?_,
    by simpa using hs.edges, fun l hl => ?_, fun n hn => ?_⟩
  · simp [Builder.build_items, hfloat, hs.items]
  · rcases List.mem_append.mp hl with hl | hl
    · exact ⟨(hs.locals l hl).1.build i, (hs.locals l hl).2⟩
    · obtain rfl := List.mem_singleton.mp hl
      exact ⟨⟨s.builder.nextValue, by simp [Builder.handle, hout], by simp, congrArg Spidir.Node.type hnode⟩, ht⟩
  · have hn' : n < s.builder.nextValue + 1 := by simpa using hn
    rcases Nat.lt_succ_iff_lt_or_eq.mp hn' with hn | rfl
    · have same : (s.builder.build i).node n = s.builder.node n := by simp [Function.update_of_ne (Nat.ne_of_lt hn)]
      obtain ⟨hok', hrest⟩ := hs.nodes n hn
      exact same ▸ ⟨hok'.mono (by simp) fun v t h => h.build i, hrest⟩
    · exact hnode ▸ ⟨hok _ (by simpa using hs.params), hfloat, rfl⟩

theorem addParams_fresh {args : List ValueType} (hp : params = .ptr :: .ptr :: args) {types : List Wasm.ValueType} {i : ℕ}
    (ht : types.mapM jitGetSpidirValueType = some (args.drop i)) :
    Ensures (Fresh ctx params ret) (addParams i types) fun _ => Fresh ctx params ret := by
  induction types generalizing i with
  | nil =>
    intro s a t hs h
    obtain ⟨-, rfl⟩ := Prod.mk.inj ((pure_eq_some _ _ _).mp h)
    exact hs
  | cons argType rest ih =>
    intro s a t hs h
    obtain ⟨type, htype, h⟩ := (lift_bind_eq_some _ _ _ _).mp h
    simp only [List.mapM_cons, htype, bind, Option.bind_some, Option.bind_eq_some_iff, pure, Option.some.injEq] at ht
    obtain ⟨types, hrest, hdrop⟩ := ht
    have hi : i < args.length := by
      by_contra hge
      rw [List.drop_eq_nil_of_le (by omega)] at hdrop
      exact absurd hdrop (by simp)
    rw [List.drop_eq_getElem_cons hi, List.cons.injEq] at hdrop
    have initial : Initial params type (.param (i + 2)) := .inl ⟨i + 2, rfl, by simp [hp, List.getElem?_eq_getElem hi, hdrop.1]⟩
    exact ((addLocal_fresh initial (jitGetSpidirValueType_ne htype)).bind fun _ => ih (hrest.trans (by rw [hdrop.2]))) s a t hs h

/-- A property of the emission state that a reader keeps. -/
theorem pull_ensures {α : Type} {P : EmitState → Prop} (m : Pull α) :
    Ensures (fun s : JitState => P s.toEmitState) (pull m) fun _ s => P s.toEmitState := by
  intro s a t hs h
  obtain ⟨b, code, -, he⟩ := (pull_eq_some m s _).mp h
  obtain ⟨-, rfl⟩ := Prod.mk.inj he
  exact hs

theorem emit_ensures {P Q : EmitState → Prop} {m : Emit Unit} (h : Ensures P m fun _ => Q) :
    Ensures (fun s : JitState => P s.toEmitState) (emit m) fun _ s => Q s.toEmitState := by
  intro s a t hs hm
  obtain ⟨b, e, he, ht⟩ := (emit_eq_some m s _).mp hm
  obtain ⟨-, rfl⟩ := Prod.mk.inj ht
  exact h _ _ _ hs he

theorem addLocalGroup_fresh :
    Ensures (fun s : JitState => Fresh ctx params ret s.toEmitState) addLocalGroup fun _ s => Fresh ctx params ret s.toEmitState := by
  refine (pull_ensures _).bind fun count => (pull_ensures _).bind fun valType => emit_ensures fun s a t hs h => ?_
  obtain ⟨type, htype, h⟩ := (lift_bind_eq_some _ _ _ _).mp h
  have initial : Initial params type (localConst type) := by
    cases valType <;> simp [jitGetSpidirValueType] at htype <;> subst htype
    · exact .inr (.inr ⟨rfl, .inr rfl⟩)
    · exact .inr (.inr ⟨rfl, .inl rfl⟩)
    · exact .inr (.inl ⟨rfl, .inr rfl⟩)
    · exact .inr (.inl ⟨rfl, .inl rfl⟩)
  exact Ensures.forFrom (fun _ => addLocal_fresh initial (jitGetSpidirValueType_ne htype)) 0 count s a t hs h

theorem jitEnterFunction_entered {type : FuncType} {code : List UInt8} {s : JitState} (hp : jitParams type = some params)
    (hr : jitRetType type = some ret) (h : jitEnterFunction type (functionState ctx params code) = some ((), s)) :
    Entered ctx params ret s.toEmitState := by
  obtain ⟨args, hargs, hp⟩ := Option.map_eq_some_iff.mp hp
  have start : Fresh ctx params .none (functionState ctx params code).toEmitState :=
    ⟨rfl, rfl, rfl, rfl, rfl, rfl, fun _ => rfl, rfl, by simp [functionState], by simp [functionState]⟩
  have enter : Ensures (Fresh ctx params ret) enterBody fun _ => Entered ctx params ret := by
    intro s a t hs h
    simp only [enterBody, createBlock_bind, update_bind, setBlock_bind, pushLabel, update_eq_some, Prod.mk.injEq, true_and] at h
    subst h
    exact ⟨hs.ctx, hs.retType, by simp [hs.labels], hs.params, by simp [hs.nextBlock, Builder.setEntryBlock],
      by simp [hs.nextBlock, Builder.setEntryBlock], by simp [hs.nextBlock], hs.items, hs.edges, hs.locals, hs.nodes⟩
  refine (Ensures.bind (emit_ensures (Q := Fresh ctx params ret) ?_) fun _ => (pull_ensures _).bind fun count =>
    (Ensures.forFrom (fun _ => addLocalGroup_fresh) 0 count).bind fun _ => emit_ensures enter) _ _ _ start h
  refine (addParams_fresh hp.symm (i := 0) hargs).bind fun _ s a t hs h => ?_
  obtain ⟨ret', hret, h⟩ := (lift_bind_eq_some _ _ _ _).mp h
  obtain ⟨-, rfl⟩ := Prod.mk.inj ((update_eq_some _ _ _).mp h)
  exact ⟨hs.ctx, Option.some.inj (hret.symm.trans hr), hs.labels, hs.params, hs.nextBlock, hs.cur, hs.items, hs.edges,
    hs.locals, hs.nodes⟩

theorem jitEnterFunction_retType {type : FuncType} {s t : JitState} (h : jitEnterFunction type s = some ((), t)) :
    ∃ ret, jitRetType type = some ret := by
  obtain ⟨_, _, h, -⟩ := (bind_eq_some _ _ _ _).mp h
  obtain ⟨_, _, h, -⟩ := (emit_eq_some _ _ _).mp h
  obtain ⟨_, _, -, h⟩ := (bind_eq_some _ _ _ _).mp h
  obtain ⟨ret, hret, -⟩ := (lift_bind_eq_some _ _ _ _).mp h
  exact ⟨ret, hret⟩

end SpidirWasm.Jit
