import SpidirWasm.Jit.Straight

/-! Every handler that stays in its block is a chain of primitive steps: what it
builds is typed by what it popped, and what it pushes was at hand. -/

namespace SpidirWasm.Jit

open Checked
open Spidir (Builder Inst Value ValueType FuncRef)

/-- A handler whose runs are chains of primitive steps. -/
def DataStep (m : Handler Unit) : Prop :=
  ∀ J s t, s.ctx.Ok → m s = some ((), t) → t.ctx.Ok ∧ ∃ Γ, Prims J {} s.toEmitState { hand := Γ } t.toEmitState

namespace DataStep

variable {α : Type}

theorem pull {m : Pull α} {f : α → Handler Unit} (hf : ∀ a, DataStep (f a)) : DataStep (Jit.pull m >>= f) := by
  intro J s t hs h
  obtain ⟨a, b, -, h⟩ := (zoom_bind_eq_some _ _ m f s _).mp h
  exact hf a J { s with code := b } t hs h

theorem emit {m : Emit Unit} (h : Emits ∅ m Done) : DataStep (Jit.emit m) := by
  intro J s t hs hm
  obtain ⟨_, e, he, hst⟩ := (zoom_eq_some _ _ m s _).mp hm
  obtain ⟨-, rfl⟩ := Prod.mk.inj hst
  obtain ⟨ht, Γ', -, hp⟩ := h J _ _ _ hs he
  exact ⟨ht, Γ', hp⟩

theorem ite {p : Prop} [Decidable p] {m m' : Handler Unit} (h : p → DataStep m) (h' : ¬p → DataStep m') :
    DataStep (if p then m else m') := by
  split_ifs with hp
  · exact h hp
  · exact h' hp

theorem fail : DataStep Checked.fail := fun J s t _ h => by simp at h

end DataStep

/-! ### Shared parts -/

variable {Γ : Hand} {τ : ValueType}

theorem isInt_i32 : ValueType.i32.IsInt := Or.inl rfl

theorem isInt_i64 : ValueType.i64.IsInt := Or.inr rfl

theorem AtomicWidth.type_isInt (w : AtomicWidth) : w.type.IsInt := by
  cases w
  · exact isInt_i32
  · exact isInt_i32
  · exact isInt_i32
  · exact isInt_i64

theorem isInt_ne {t : ValueType} (h : t.IsInt) : t ≠ .none := by
  rcases h with rfl | rfl <;> simp

theorem isFloat_ne {t : ValueType} (h : t.IsFloat) : t ≠ .none := by
  rcases h with rfl | rfl <;> simp

theorem jitGetSpidirValueType_ne {t : Wasm.ValueType} {r : ValueType} (h : jitGetSpidirValueType t = some r) :
    r ≠ .none := by
  cases t <;> simp [jitGetSpidirValueType] at h <;> simp [← h]

/-- The type an opcode works on is one of the two of its handler. -/
theorem opcodeRange_type {r r' : ℕ × ℕ} {t t' : ValueType} {opcode : ℕ} {p : ValueType × ℕ}
    (h : opcodeRange r r' t t' opcode = some p) : p.1 = t ∨ p.1 = t' := by
  simp only [opcodeRange] at h
  split_ifs at h <;> simp [← Option.some.inj h]

theorem opcodeRange_isInt {r r' : ℕ × ℕ} {opcode : ℕ} {p : ValueType × ℕ}
    (h : opcodeRange r r' .i32 .i64 opcode = some p) : p.1.IsInt := opcodeRange_type h

theorem opcodeRange_isFloat {r r' : ℕ × ℕ} {opcode : ℕ} {p : ValueType × ℕ}
    (h : opcodeRange r r' .f32 .f64 opcode = some p) : p.1.IsFloat := opcodeRange_type h

namespace Emits

/-- A build as the last step, from a larger hand. -/
theorem giving {m : Emit Value} {Γ₁ : Hand} (h : Emits Γ₁ m (Gives τ Γ₁)) (hsub : Γ ⊆ Γ₁) :
    Emits Γ₁ m (Gives τ Γ) :=
  h.weaken fun _ _ he => ⟨_, he ▸ Set.insert_subset_insert hsub, rfl⟩

theorem iconst (ht : τ.IsInt ∨ τ = .ptr) (c : BitVec 64) : Emits Γ (build (.iconst τ c)) (Gives τ Γ) :=
  node (.iconst τ ht c) rfl

theorem helper {k : HelperKind} {ret : ValueType} {args : List Value} {ts : List ValueType}
    (hk : helperDef k = some (ret, ts)) (hret : ret ≠ .none)
    (hargs : List.Forall₂ (fun v t => (⟨v, t⟩ : JitValue) ∈ Γ) args ts) :
    Emits Γ (callHelper k args) (Gives ret Γ) := by
  refine (context (P := fun f => helperDef k = some (f.ret, f.args)) fun c f c' hc h => jitGetHelper_ok h hc).bind ?_
  rintro f _ ⟨rfl, hf⟩
  obtain ⟨rfl, rfl⟩ := Prod.mk.inj (Option.some.inj (hk.symm.trans hf))
  exact node (.call hargs) (by simp [Inst.hasOutput, hret])

theorem helperEffect {k : HelperKind} {args : List Value} {ts : List ValueType}
    (hk : helperDef k = some (.none, ts))
    (hargs : List.Forall₂ (fun v t => (⟨v, t⟩ : JitValue) ∈ Γ) args ts) :
    Emits Γ (callHelper k args) (Stays Γ) := by
  refine (context (P := fun f => helperDef k = some (f.ret, f.args)) fun c f c' hc h => jitGetHelper_ok h hc).bind ?_
  rintro f _ ⟨rfl, hf⟩
  obtain ⟨hret, rfl⟩ := Prod.mk.inj (Option.some.inj (hk.symm.trans hf))
  exact effect (.call hargs) (by simp [Inst.hasOutput, ← hret])

theorem zext64 {v : Value} (hv : ⟨v, .i32⟩ ∈ Γ) : Emits Γ (jitEmitZext64 v) (Gives .i64 Γ) := by
  refine value (node (.unop (o := .iext) ⟨rfl, rfl⟩ hv) rfl) fun e => value (iconst (.inl isInt_i64) _) fun mask => ?_
  exact (node (.binop (o := .and) isInt_i64 (by simp) (by simp)) rfl).giving
    ((Set.subset_insert _ _).trans (Set.subset_insert _ _))

theorem slot (offset : ℕ) : Emits Γ (Jit.stateSlot offset) (Gives .ptr Γ) := by
  refine value (node (.param 1 (by decide)) rfl) fun base => value (iconst (.inl isInt_i64) _) fun off => ?_
  exact (node (.ptroff (by simp) (by simp)) rfl).giving ((Set.subset_insert _ _).trans (Set.subset_insert _ _))

theorem addOffset (memOffset : ℕ) {v : Value} (hv : ⟨v, .i64⟩ ∈ Γ) :
    Emits Γ (addMemOffset memOffset v) (Gives .i64 Γ) := by
  refine ite (fun _ => pure _ ⟨_, ?_, rfl⟩) fun _ => assume fun _ => value (iconst (.inl isInt_i64) _) fun c => ?_
  · exact Set.insert_subset hv subset_rfl
  · exact (node (.binop (o := .iadd) isInt_i64 (by simp [hv]) (by simp)) rfl).giving (Set.subset_insert _ _)

theorem addr (memArg : WasmMemArg) {v : Value} (hv : ⟨v, .i32⟩ ∈ Γ) :
    Emits Γ (jitWasmCalculateAddr memArg v) (Gives .ptr Γ) := by
  refine value (zext64 hv) fun _ => value (addOffset _ (by simp)) fun _ => value (node (.param 0 (by decide)) rfl) fun _ => ?_
  refine (node (.ptroff (by simp) (by simp)) rfl).giving ?_
  exact (Set.subset_insert _ _).trans ((Set.subset_insert _ _).trans (Set.subset_insert _ _))

theorem memory {base v : Value} (hb : ⟨base, .ptr⟩ ∈ Γ) (hv : ⟨v, .i32⟩ ∈ Γ) :
    Emits Γ (memoryPtr base v) (Gives .ptr Γ) :=
  value (zext64 hv) fun _ => (node (.ptroff (by simp [hb]) (by simp)) rfl).giving (Set.subset_insert _ _)

/-- The arguments of a call join the hand with the types of the parameters. -/
theorem args (types : List Wasm.ValueType) :
    Emits Γ (popArgs types) fun vs Γ' => Γ ⊆ Γ' ∧ ∃ ts, types.mapM jitGetSpidirValueType = some ts ∧
      List.Forall₂ (fun v t => (⟨v, t⟩ : JitValue) ∈ Γ') vs ts := by
  induction types with
  | nil => exact pure _ ⟨Γ, subset_rfl, subset_rfl, [], rfl, .nil⟩
  | cons type types ih =>
    refine ih.bind ?_
    rintro vs Γ' ⟨hsub, ts, hts, hvs⟩
    refine given fun t ht => value pop fun v => pure _ ⟨_, subset_rfl, ?_⟩
    refine ⟨hsub.trans (Set.subset_insert _ _), t :: ts, by simp [List.mapM_cons, ht, hts], ?_⟩
    exact .cons (by simp) (hvs.imp fun _ _ h => Set.mem_insert_of_mem _ h)

theorem result {v : Value} (hv : τ ≠ .none → ⟨v, τ⟩ ∈ Γ) : Emits Γ (pushResult τ v) Done :=
  ite (fun _ => (pure () ⟨Γ, subset_rfl, trivial⟩)) fun h => (push (hv h)).done

/-- The call itself, with its result pushed if it has one. -/
theorem callThen {i : Inst} {ret : ValueType} (hi : i.HasType (fun v t => ⟨v, t⟩ ∈ Γ) ret)
    (ho : i.hasOutput = decide (ret ≠ .none)) : Emits Γ (build i >>= pushResult ret) Done := by
  by_cases h : ret = .none
  · exact act (effect hi (by simp [ho, h])) fun _ => result fun hne => absurd h hne
  · exact value (node hi (by simp [ho, h])) fun _ => result fun _ => by simp

end Emits

open Emits

/-! ### Parametric instructions and calls -/

theorem jitWasmNop_step : DataStep jitWasmNop := by
  intro J s t hs h
  obtain ⟨-, rfl⟩ := Prod.mk.inj ((pure_eq_some _ _ _).mp h)
  exact ⟨hs, ∅, .refl⟩

theorem jitWasmDrop_step : DataStep jitWasmDrop :=
  .emit (popAny.bind fun _ _ _ => .pure _ ⟨_, subset_rfl, trivial⟩)

theorem jitWasmSelect_step : DataStep jitWasmSelect := by
  refine .emit (value pop fun c => popAny.bind fun v₂ _ h₂ => popAny.bind fun v₁ _ h₁ => assume fun ht => ?_)
  subst h₂ h₁
  exact value (node (.select (t := v₁.type) (by simp) (by simp) (by simp [ht])) rfl) fun v => (push (by simp)).done

/-- The callee was declared with the signature its type gives. -/
theorem JitContext.Ok.callee {c : JitContext} (hc : c.Ok) {i : ℕ} {f : JitFunction} {type : Wasm.FuncType}
    (hf : c.functions[i]? = some f) (hi : f.inited = true) (ht : wasmGetFuncType c.module i = some type)
    {ret : ValueType} {ts : List ValueType} (hret : jitRetType type = some ret) (hts : jitArgTypes type = some ts) :
    f.spidir.ret = ret ∧ f.spidir.args = .ptr :: .ptr :: ts := by
  obtain ⟨type', ht', hret', hargs'⟩ := hc.function i f hf hi
  obtain rfl := Option.some.inj (ht.symm.trans ht')
  simp only [jitParams, hts, Option.map_some, Option.some.injEq] at hargs'
  exact ⟨(Option.some.inj (hret.symm.trans hret')).symm, hargs'.symm⟩

theorem jitWasmCall_step : DataStep jitWasmCall := by
  refine .pull fun funcidx => .emit ?_
  intro J s a t hs h
  simp only [context, zoom_bind_eq_some, read_bind, lift_bind_eq_some] at h
  obtain ⟨_, c, hc, f, hf, type, ht, h⟩ := h
  obtain ⟨hok, hm, f', hf', hi⟩ := jitPrepareFunction_ok hc hs
  obtain rfl := Option.some.inj (hf.symm.trans hf')
  have rest : Emits ∅ (do
      let memBase ← build (.param 0)
      let stateBase ← build (.param 1)
      let args ← popArgs type.argTypes
      let retVal ← build (.call f.spidir (memBase :: stateBase :: args))
      let retType ← lift (jitRetType type)
      pushResult retType retVal) Done := by
    refine value (node (.param 0 (by decide)) rfl) fun mem => value (node (.param 1 (by decide)) rfl) fun st =>
      (args type.argTypes).bind ?_
    rintro vs Γ ⟨hsub, ts, hts, hvs⟩
    intro J u a v hu hrun
    -- the return type is looked up behind the call, so it is needed before
    obtain ⟨retVal, w, hw, hrun⟩ := (bind_eq_some _ _ _ _).mp hrun
    obtain ⟨ret, hret, hrun⟩ := (lift_bind_eq_some _ _ _ _).mp hrun
    obtain ⟨hr, hargs⟩ := hok.callee hf hi ht hret hts
    have hcall : (Inst.call f.spidir (mem :: st :: vs)).HasType (fun v t => (⟨v, t⟩ : JitValue) ∈ Γ) ret :=
      hr ▸ .call (hargs ▸ .cons (hsub (by simp)) (.cons (hsub (by simp)) hvs))
    exact callThen hcall (by simp [Inst.hasOutput, hr]) J u a v hu ((bind_eq_some _ _ _ _).mpr ⟨_, _, hw, hrun⟩)
  obtain ⟨hok', Γ', -, hp⟩ := rest J _ a t hok h
  exact ⟨hok', Γ', trivial, (Prim.context c).prims.trans hp⟩

/-- The two blocks behind a bounds check: the one that traps is complete, and the builder
is left in the other, where the same values are at hand. -/
theorem guard_prims {J : Branching} {Γ : Hand} {s : EmitState} {c : Value} {trap : FuncRef} (hc : ⟨c, .i32⟩ ∈ Γ)
    (hret : trap.ret = .none) (hargs : trap.args = []) :
    Prims J { hand := Γ } s { hand := Γ } (s.withBuilder ((((((s.builder.createBlock.createBlock.terminate
      (.brcond c s.builder.nextBlock (s.builder.nextBlock + 1))).setBlock (s.builder.nextBlock + 1)).build
      (.call trap [])).terminate .unreachable).setBlock s.builder.nextBlock))) := by
  have call : (Inst.call trap []).HasType (fun v t => (⟨v, t⟩ : JitValue) ∈ Γ) .none := hret ▸ .call (hargs ▸ .nil)
  have blocks := (Prim.block (J := J) (w := { hand := Γ }) (s := s) (subset_refl Γ)).prims.step (.block (subset_refl Γ))
  have branch := blocks.step (.term (t := .brcond c s.builder.nextBlock (s.builder.nextBlock + 1)) rfl (fun _ => .brcond hc)
    (.fresh (.tail _ (.head _)) (.fresh (.head _) (.nil _))))
  have trapped := ((branch.step (.enter rfl (.refl _) (by simp))).step (.effect rfl call (by simp [Inst.hasOutput, hret]))).step
    (.term (t := .unreachable) rfl (fun _ => .unreachable) (.nil _))
  exact trapped.step (.enter rfl (.refl _) (by simp))

theorem jitGuardIndex_emits {Γ : Hand} {length : ℕ} {idx : Value} (hidx : ⟨idx, .i32⟩ ∈ Γ) :
    Emits Γ (jitGuardIndex length idx) (Stays Γ) := by
  have guard : ∀ {Γ : Hand} {c : Value}, ⟨c, .i32⟩ ∈ Γ → Emits Γ (do
      let okBlock ← createBlock
      let trapBlock ← createBlock
      terminate (.brcond c okBlock trapBlock)
      setBlock trapBlock
      jitEmitTrap
      setBlock okBlock) (Stays Γ) := by
    intro Γ c hc J s a t hs h
    simp only [createBlock_bind, terminate_bind, setBlock_bind, jitEmitTrap, bind_assoc, context_bind_eq_some,
      build_bind, setBlock_eq_some, Prod.mk.injEq, true_and] at h
    obtain ⟨trap, c', htrap, rfl⟩ := h
    obtain ⟨hok, hk⟩ := jitGetHelper_ok htrap hs
    obtain ⟨hret, hargs⟩ := Prod.mk.inj (Option.some.inj hk)
    exact ⟨hok, Γ, rfl, (Prim.context c').prims.trans (guard_prims hc hret.symm hargs.symm)⟩
  refine value (iconst (.inl isInt_i32) _) fun _ => value (node (.icmp isInt_i32 isInt_i32 (by simp [hidx]) (by simp)) rfl) fun c => ?_
  exact (guard (by simp)).weaken fun _ _ h => ⟨Γ, h ▸ (Set.subset_insert _ _).trans (Set.subset_insert _ _), rfl⟩

theorem jitWasmCallIndirect_step : DataStep jitWasmCallIndirect := by
  refine .pull fun typeidx => .pull fun tableidx => .emit (readThen fun ctx => given fun type _ => assume fun _ =>
    given fun table _ => act (Γ := ∅) ?_ fun _ => value pop fun idx => act (jitGuardIndex_emits (by simp)) fun _ => ?_)
  · refine (Emits.context (P := fun _ => True) fun c a c' hc h => ⟨?_, trivial⟩).weaken fun _ Γ' h => ⟨Γ', subset_rfl, h.1⟩
    obtain ⟨-, rfl⟩ := Prod.mk.inj ((update_eq_some _ _ _).mp h)
    exact ⟨hc.function, hc.helper⟩
  refine value (node (.globaladdr _) rfl) fun ptr => value (zext64 (by simp)) fun idx64 =>
    value (iconst (.inl isInt_i64) _) fun eight => value (node (.binop (o := .imul) isInt_i64 (by simp) (by simp)) rfl) fun off =>
    value (node (.ptroff (by simp) (by simp)) rfl) fun slot => value (node (.load (by simp) (by simp)) rfl) fun target =>
    value (node (.param 0 (by decide)) rfl) fun mem => value (node (.param 1 (by decide)) rfl) fun st =>
    value (iconst (.inl isInt_i64) _) fun id => (args type.argTypes).bind ?_
  rintro vs Γ ⟨hsub, ts, hts, hvs⟩
  refine given fun argTypes hat => given fun ret hret => ?_
  obtain rfl := Option.some.inj (hat.symm.trans hts)
  exact callThen (.callind (hsub (by simp)) (.cons (hsub (by simp)) (.cons (hsub (by simp)) (.cons (hsub (by simp)) hvs)))) rfl

/-! ### Variable instructions -/

theorem jitWasmLocalGet_step : DataStep jitWasmLocalGet := by
  refine .pull fun index => .emit fun J s a t hs h => ?_
  simp only [read_bind, lift_bind_eq_some, check_bind_eq_some] at h
  obtain ⟨l, hl, hd, h⟩ := h
  obtain ⟨hok, Γ', -, hp⟩ := (push (Γ := insert l ∅) (by simp)) J s a t hs h
  exact ⟨hok, Γ', trivial, (Prim.getLocal hl hd).prims.trans hp⟩

/-- Storing a popped value keeps the local's type. -/
theorem setLocal_prim {J : Branching} {Γ : Hand} {s : EmitState} {index : ℕ} {l : JitValue} {v : Value}
    (hl : s.func.locals[index]? = some l) (hv : ⟨v, l.type⟩ ∈ Γ) :
    Prim J { hand := Γ } s { hand := Γ } (s.withLocals (s.func.locals.modify index fun l => { l with value := v })) := by
  have same : s.func.locals.modify index (fun l => { l with value := v }) = s.func.locals.set index ⟨v, l.type⟩ := by
    rw [List.modify_eq_set_getElem?, hl]
    rfl
  exact same ▸ .setLocal rfl rfl hl hv

theorem jitWasmLocalSet_step : DataStep jitWasmLocalSet := by
  refine .pull fun index => .emit fun J s a t hs h => ?_
  simp only [read_bind, lift_bind_eq_some, jitPop_bind_eq_some] at h
  obtain ⟨l, hl, v, lab, ls, rest, hlab, hv, h⟩ := h
  obtain ⟨-, rfl⟩ := Prod.mk.inj ((update_eq_some _ _ _).mp h)
  exact ⟨hs, _, trivial, (Prim.pop rfl hlab hv).prims.step (setLocal_prim hl (by simp))⟩

theorem jitWasmLocalTee_step : DataStep jitWasmLocalTee := by
  refine .pull fun index => .emit fun J s a t hs h => ?_
  simp only [read_bind, lift_bind_eq_some, jitPop_bind_eq_some, setLocal, update_bind] at h
  obtain ⟨l, hl, v, lab, ls, rest, hlab, hv, h⟩ := h
  obtain ⟨hok, Γ', -, hp⟩ := (push (Γ := insert ⟨v, l.type⟩ ∅) (by simp)) J _ a t (by exact hs) h
  have set := setLocal_prim (J := J) (Γ := insert ⟨v, l.type⟩ ∅) (v := v) (s := s.withLabels ({ lab with stack := rest } :: ls)) hl (by simp)
  exact ⟨hok, Γ', trivial, ((Prim.pop rfl hlab hv).prims.step set).trans hp⟩

theorem globalConst_hasType (R : Value → ValueType → Prop) {type : ValueType} {bits : ℕ} {i : Inst}
    (h : globalConst type bits = some i) : i.HasType R type ∧ i.hasOutput = true := by
  cases type <;> simp only [globalConst, Option.some.injEq, reduceCtorEq] at h <;> subst h
  · exact ⟨.iconst _ (.inl isInt_i32) _, rfl⟩
  · exact ⟨.iconst _ (.inl isInt_i64) _, rfl⟩
  · exact ⟨.fconst32 _, rfl⟩
  · exact ⟨.fconst64 _, rfl⟩

theorem jitGetSpidirMemSize_ne {t : ValueType} {size : Spidir.MemSize} (h : jitGetSpidirMemSize t = some size) :
    t ≠ .none := by
  rintro rfl
  simp [jitGetSpidirMemSize] at h

theorem readGlobal_emits (global : JitGlobal) (bits : ℕ) : Emits ∅ (readGlobal global bits) (Gives global.type ∅) := by
  unfold readGlobal
  split
  · exact given fun i hi => node (globalConst_hasType _ hi).1 (globalConst_hasType (fun _ _ => True) hi).2
  · refine value (slot _) fun base => given fun size hsize => ?_
    exact (node (.load (jitGetSpidirMemSize_ne hsize) (by simp)) rfl).giving (Set.subset_insert _ _)

theorem jitWasmGlobalGet_step : DataStep jitWasmGlobalGet :=
  .pull fun _ => .emit (readThen fun _ => given fun _ _ => given fun _ _ =>
    value (readGlobal_emits _ _) fun _ => (push (by simp)).done)

theorem jitWasmGlobalSet_step : DataStep jitWasmGlobalSet :=
  .pull fun _ => .emit (readThen fun _ => assume fun _ => given fun global _ => given fun _ _ => value (slot _) fun _ =>
    value pop fun _ => given fun _ _ => act (effect (.store (t := global.type) (by simp) (by simp)) rfl) fun _ =>
    .pure _ ⟨_, subset_rfl, trivial⟩)

/-! ### Memory instructions -/

theorem loadParams_type {opcode : ℕ} {type : ValueType} {size : Spidir.MemSize} {e : Extend}
    (h : loadParams opcode = some (type, size, e)) : type ≠ .none ∧ (e ≠ .full → type.IsInt) := by
  unfold loadParams at h
  split at h <;> simp only [Option.some.injEq, Prod.mk.injEq, reduceCtorEq] at h <;> obtain ⟨rfl, rfl, rfl⟩ := h <;>
    simp [ValueType.IsInt]

theorem jitEmitExtend_emits {Γ : Hand} {type : ValueType} {v : Value} {e : Extend} (hv : ⟨v, type⟩ ∈ Γ)
    (he : e ≠ .full → type.IsInt) : Emits Γ (jitEmitExtend type v e) (Gives type Γ) := by
  cases e with
  | full => exact .pure _ ⟨_, Set.insert_subset hv subset_rfl, rfl⟩
  | sign width => exact node (.unop (o := .sfill width) ⟨rfl, he (by simp)⟩ hv) rfl
  | zero width =>
    have hi := he (by simp)
    have mask : (if type = .i32 then ValueType.i32 else .i64) = type := by
      rcases hi with rfl | rfl <;> rfl
    simp only [jitEmitExtend, mask]
    refine value (iconst (.inl hi) _) fun _ => ?_
    exact (node (.binop (o := .and) hi (by simp [hv]) (by simp)) rfl).giving (Set.subset_insert _ _)

theorem jitWasmLoad_step : DataStep jitWasmLoad := by
  refine .pull fun _ => .pull fun _ => .emit (given fun p hp => ?_)
  obtain ⟨ht, he⟩ := loadParams_type hp
  exact value pop fun _ => value (addr _ (by simp)) fun _ => value (node (.load ht (by simp)) rfl) fun _ =>
    value (jitEmitExtend_emits (by simp) he) fun _ => (push (by simp)).done

theorem jitWasmStore_step : DataStep jitWasmStore :=
  .pull fun _ => .pull fun _ => .emit (given fun p _ => value pop fun _ => value pop fun _ =>
    value (addr _ (by simp)) fun _ => act (effect (.store (t := p.1) (by simp) (by simp)) rfl) fun _ => .pure _ ⟨_, subset_rfl, trivial⟩)

theorem jitWasmMemorySize_step : DataStep jitWasmMemorySize :=
  .pull fun _ => .emit (value (node (.param 0 (by decide)) rfl) fun _ => value (node (.param 1 (by decide)) rfl) fun _ =>
    value (helper rfl (by simp) (by simp)) fun _ => (push (by simp)).done)

theorem jitWasmMemoryGrow_step : DataStep jitWasmMemoryGrow :=
  .pull fun _ => .emit (value pop fun _ => value (node (.param 0 (by decide)) rfl) fun _ =>
    value (node (.param 1 (by decide)) rfl) fun _ => value (helper rfl (by simp) (by simp)) fun _ => (push (by simp)).done)

theorem dataOffset_then {Γ : Hand} {dataidx : ℕ} {f : ℕ → Emit Unit} (hf : ∀ offset, Emits Γ (f offset) Done) :
    Emits Γ (dataOffset dataidx >>= f) Done := by
  rw [dataOffset, bind_assoc]
  refine readThen fun _ => ?_
  rw [bind_assoc]
  refine assume fun _ => ?_
  rw [bind_assoc]
  exact given fun _ _ => given fun offset _ => hf offset

theorem jitWasmMemoryInit_step : DataStep jitWasmMemoryInit :=
  .pull fun _ => .pull fun _ => .emit (dataOffset_then fun _ => value pop fun _ => value pop fun _ => value pop fun _ =>
    value (slot _) fun _ => value (node (.load (by simp) (by simp)) rfl) fun _ => readThen fun _ => given fun _ _ =>
    value (node (.param 0 (by decide)) rfl) fun _ => value (iconst (.inl isInt_i32) _) fun _ =>
    value (memory (by simp) (by simp)) fun _ => act (helperEffect rfl (by simp)) fun _ => .pure _ ⟨_, subset_rfl, trivial⟩)

theorem jitWasmDataDrop_step : DataStep jitWasmDataDrop :=
  .pull fun _ => .emit (dataOffset_then fun _ => value (slot _) fun _ => value (iconst (.inr rfl) _) fun _ =>
    act (effect (.store (t := .ptr) (by simp) (by simp)) rfl) fun _ => .pure _ ⟨_, subset_rfl, trivial⟩)

theorem jitWasmMemoryCopy_step : DataStep jitWasmMemoryCopy :=
  .pull fun _ => .emit (value pop fun _ => value pop fun _ => value pop fun _ => value (node (.param 0 (by decide)) rfl) fun _ =>
    value (memory (by simp) (by simp)) fun _ => value (memory (by simp) (by simp)) fun _ =>
    act (helperEffect rfl (by simp)) fun _ => .pure _ ⟨_, subset_rfl, trivial⟩)

theorem jitWasmMemoryFill_step : DataStep jitWasmMemoryFill :=
  .pull fun _ => .emit (value pop fun _ => value pop fun _ => value pop fun _ => value (node (.param 0 (by decide)) rfl) fun _ =>
    value (memory (by simp) (by simp)) fun _ => act (helperEffect rfl (by simp)) fun _ => .pure _ ⟨_, subset_rfl, trivial⟩)

/-! ### Numeric instructions -/

theorem jitWasmI32Const_step : DataStep jitWasmI32Const :=
  .pull fun _ => .emit (value (iconst (.inl isInt_i32) _) fun _ => (push (by simp)).done)

theorem jitWasmI64Const_step : DataStep jitWasmI64Const :=
  .pull fun _ => .emit (value (iconst (.inl isInt_i64) _) fun _ => (push (by simp)).done)

theorem jitWasmF32Const_step : DataStep jitWasmF32Const :=
  .pull fun _ => .emit (value (node (.fconst32 _) rfl) fun _ => (push (by simp)).done)

theorem jitWasmF64Const_step : DataStep jitWasmF64Const :=
  .pull fun _ => .emit (value (node (.fconst64 _) rfl) fun _ => (push (by simp)).done)

theorem cmpiLeft_emits {Γ : Hand} {type : ValueType} (ht : type.IsInt) (op : ℕ) :
    Emits Γ (cmpiLeft type op) (Gives type Γ) :=
  .ite (fun _ => iconst (.inl ht) _) fun _ => pop

theorem jitWasmCmpi_step : DataStep jitWasmCmpi := by
  refine .pull fun _ => .emit (given fun p hp => ?_)
  have ht := opcodeRange_isInt hp
  refine value pop fun a₂ => value (cmpiLeft_emits ht _) fun a₁ => given fun k _ => value (τ := .i32) ?_ fun _ =>
    (push (by simp)).done
  obtain ⟨kind, swap⟩ := k
  cases swap
  · exact node (.icmp isInt_i32 ht (by simp) (by simp)) rfl
  · exact node (.icmp isInt_i32 ht (by simp) (by simp)) rfl

theorem jitWasmCmpf_step : DataStep jitWasmCmpf := by
  refine .pull fun _ => .emit (given fun p hp => ?_)
  have ht := opcodeRange_isFloat hp
  refine value pop fun a₂ => value pop fun a₁ => given fun k _ => value (τ := .i32) ?_ fun _ => (push (by simp)).done
  obtain ⟨kind, swap⟩ := k
  cases swap
  · exact node (.fcmp isInt_i32 ht (by simp) (by simp)) rfl
  · exact node (.fcmp isInt_i32 ht (by simp) (by simp)) rfl

theorem sfillParams_isInt {opcode : ℕ} {p : ValueType × ℕ} (h : sfillParams opcode = some p) : p.1.IsInt := by
  unfold sfillParams at h
  split at h <;> simp only [Option.some.injEq, reduceCtorEq] at h <;> subst h <;> simp [ValueType.IsInt]

theorem jitWasmIconv_step : DataStep jitWasmIconv := by
  refine .pull fun _ => .emit (.ite (fun _ => ?_) fun _ => .ite (fun _ => ?_) fun _ => .ite (fun _ => ?_) fun _ => ?_)
  · exact value pop fun _ => value (node (.unop (o := .itrunc) ⟨rfl, rfl⟩ (by simp)) rfl) fun _ => (push (by simp)).done
  · exact value pop fun _ => value (node (.unop (o := .iext) ⟨rfl, rfl⟩ (by simp)) rfl) fun _ =>
      value (node (.unop (o := .sfill 32) ⟨rfl, isInt_i64⟩ (by simp)) rfl) fun _ => (push (by simp)).done
  · exact value pop fun _ => value (zext64 (by simp)) fun _ => (push (by simp)).done
  · exact given fun p hp => value pop fun _ =>
      value (node (.unop (o := .sfill p.2) ⟨rfl, sfillParams_isInt hp⟩ (by simp)) rfl) fun _ => (push (by simp)).done

theorem intType_isInt (b : Bool) : (intType b).IsInt := by
  cases b <;> simp [intType, ValueType.IsInt]

theorem jitWasmTruncSat_step : DataStep jitWasmTruncSat :=
  .pull fun _ => .emit (given fun p _ => value pop fun _ =>
    value (helper rfl (isInt_ne (intType_isInt p.2.1)) (by simp)) fun _ => (push (by simp)).done)

theorem jitWasmItof_step : DataStep jitWasmItof := by
  refine .pull fun _ => .emit (given fun p hp => ?_)
  have hin : (if p.2 &&& 2 ≠ 0 then ValueType.i64 else .i32).IsInt := by split_ifs <;> simp [ValueType.IsInt]
  refine value pop fun v => value (τ := p.1) ?_ fun _ => (push (by simp)).done
  by_cases hs : p.2 &&& 1 ≠ 0
  · rw [if_pos hs]
    exact node (.unop (o := .uinttofloat p.1) ⟨hin, rfl, opcodeRange_isFloat hp⟩ (by simp)) rfl
  · rw [if_neg hs]
    exact node (.unop (o := .sinttofloat p.1) ⟨hin, rfl, opcodeRange_isFloat hp⟩ (by simp)) rfl

theorem jitWasmFconv_step : DataStep jitWasmFconv := by
  refine .pull fun _ => .emit (.ite (fun _ => ?_) fun _ => .ite (fun _ => ?_) fun _ => .fail)
  · exact value pop fun _ => value (node (.unop (o := .fnarrow) ⟨rfl, rfl⟩ (by simp)) rfl) fun _ => (push (by simp)).done
  · exact value pop fun _ => value (node (.unop (o := .fwiden) ⟨rfl, rfl⟩ (by simp)) rfl) fun _ => (push (by simp)).done

theorem bitcastParams_maps {opcode : ℕ} {p : ValueType × ValueType} (h : bitcastParams opcode = some p) :
    (Spidir.Unop.bitcast p.2).Maps p.1 p.2 := by
  unfold bitcastParams at h
  split at h <;> simp only [Option.some.injEq, reduceCtorEq] at h <;> subst h <;> simp [Spidir.Unop.Maps]

theorem jitWasmBitcast_step : DataStep jitWasmBitcast :=
  .pull fun _ => .emit (given fun _ hp => value pop fun _ =>
    value (node (.unop (bitcastParams_maps hp) (by simp)) rfl) fun _ => (push (by simp)).done)

theorem jitEmitRotate_emits {Γ : Hand} {f g : Spidir.Binop} {type : ValueType} {value shiftAmt mask : Value}
    (ht : type.IsInt) (h₁ : f.Accepts type) (h₂ : g.Accepts type) (hv : ⟨value, type⟩ ∈ Γ)
    (hs : ⟨shiftAmt, type⟩ ∈ Γ) (hm : ⟨mask, type⟩ ∈ Γ) (maskValue : ℕ) :
    Emits Γ (jitEmitRotate f g type maskValue value shiftAmt mask) (Gives type Γ) := by
  refine Emits.value (iconst (.inl ht) _) fun _ => Emits.value (node (.binop h₁ (by simp [hv]) (by simp [hs])) rfl) fun _ =>
    Emits.value (node (.binop (o := .isub) ht (by simp) (by simp [hs])) rfl) fun _ =>
    Emits.value (node (.binop (o := .and) ht (by simp [hm]) (by simp)) rfl) fun _ =>
    Emits.value (node (.binop h₂ (by simp [hv]) (by simp)) rfl) fun _ => ?_
  refine (node (.binop (o := .or) ht (by simp) (by simp)) rfl).giving fun x hx => ?_
  simp [hx]

theorem jitEmitShift_emits {Γ : Hand} {type : ValueType} {value shiftAmt mask : Value} (ht : type.IsInt)
    (hv : ⟨value, type⟩ ∈ Γ) (hs : ⟨shiftAmt, type⟩ ∈ Γ) (hm : ⟨mask, type⟩ ∈ Γ) (maskValue op : ℕ) :
    Emits Γ (jitEmitShift type maskValue op value shiftAmt mask) (Gives type Γ) := by
  unfold jitEmitShift
  split
  · exact node (.binop (o := .shl) ht hv hs) rfl
  · exact node (.binop (o := .ashr) ht hv hs) rfl
  · exact node (.binop (o := .lshr) ht hv hs) rfl
  · exact jitEmitRotate_emits (f := .shl) (g := .lshr) ht ht ht hv hs hm _
  · exact jitEmitRotate_emits (f := .lshr) (g := .shl) ht ht ht hv hs hm _
  · exact .fail

theorem jitWasmShift_step : DataStep jitWasmShift := by
  refine .pull fun _ => .emit (given fun p hp => ?_)
  have ht := opcodeRange_isInt hp
  exact value pop fun _ => value pop fun _ => value (iconst (.inl ht) _) fun _ =>
    value (node (.binop (o := .and) ht (by simp) (by simp)) rfl) fun _ =>
    value (jitEmitShift_emits ht (by simp) (by simp) (by simp) _ _) fun _ => (push (by simp)).done

theorem opcodeRange_floatType {r r' : ℕ × ℕ} {opcode : ℕ} {p : ValueType × ℕ}
    (h : opcodeRange r r' .f32 .f64 opcode = some p) : floatType (p.1 = .f64) = p.1 := by
  rcases opcodeRange_type h with h | h <;> simp [h, floatType]

theorem jitWasmUnaryopf_step : DataStep jitWasmUnaryopf := by
  refine .pull fun _ => .emit (given fun p hp => value pop fun arg => given fun op _ => value (τ := p.1) ?_ fun _ =>
    (push (by simp)).done)
  have ht := opcodeRange_floatType hp
  exact helper (k := .fUnary (p.1 = .f64) op) (by rw [helperDef, ht]) (isFloat_ne (opcodeRange_isFloat hp)) (by simp)

theorem jitEmitBinopf_emits {Γ : Hand} {type : ValueType} {a₁ a₂ : Value} {op : Spidir.Binop ⊕ FloatBinary} {n : ℕ}
    (ht : type.IsFloat) (hop : floatBinop n = some op) (h₁ : ⟨a₁, type⟩ ∈ Γ) (h₂ : ⟨a₂, type⟩ ∈ Γ) :
    Emits Γ (jitEmitBinopf type a₁ a₂ op) (Gives type Γ) := by
  have hf : floatType (type = .f64) = type := by rcases ht with rfl | rfl <;> rfl
  cases op with
  | inl node' =>
    have hacc : node'.Accepts type := by
      unfold floatBinop at hop
      split at hop <;> simp only [Option.some.injEq, Sum.inl.injEq, reduceCtorEq] at hop <;> subst hop <;> exact ht
    exact node (.binop hacc h₁ h₂) rfl
  | inr kind =>
    exact helper (k := .fBinary (type = .f64) kind) (by rw [helperDef, hf]) (isFloat_ne ht) (by simp [h₁, h₂])

theorem jitWasmBinopf_step : DataStep jitWasmBinopf :=
  .pull fun _ => .emit (given fun _ hp => value pop fun _ => value pop fun _ => given fun _ hop =>
    value (jitEmitBinopf_emits (opcodeRange_isFloat hp) hop (by simp) (by simp)) fun _ => (push (by simp)).done)

theorem intUnop_maps {type : ValueType} {n : ℕ} {op : Spidir.Unop} (ht : type.IsInt) (h : intUnop type n = some op) :
    op.Maps type type := by
  unfold intUnop at h
  split at h <;> simp only [Option.some.injEq, reduceCtorEq] at h <;> subst h <;> exact ⟨rfl, rfl, ht⟩

theorem jitWasmUnaryopi_step : DataStep jitWasmUnaryopi :=
  .pull fun _ => .emit (given fun _ hp => value pop fun _ => given fun _ hop =>
    value (node (.unop (intUnop_maps (opcodeRange_isInt hp) hop) (by simp)) rfl) fun _ => (push (by simp)).done)

theorem intBinop_accepts {type : ValueType} {n : ℕ} {op : Spidir.Binop} (ht : type.IsInt) (h : intBinop n = some op) :
    op.Accepts type := by
  unfold intBinop at h
  split at h <;> simp only [Option.some.injEq, reduceCtorEq] at h <;> subst h <;> exact ht

theorem jitEmitBinopi_emits {Γ : Hand} {type : ValueType} {op : Spidir.Binop} {a₁ a₂ : Value} (ht : type.IsInt)
    (hop : op.Accepts type) (h₁ : ⟨a₁, type⟩ ∈ Γ) (h₂ : ⟨a₂, type⟩ ∈ Γ) :
    Emits Γ (jitEmitBinopi type op a₁ a₂) (Gives type Γ) := by
  refine .ite (fun _ => ?_) fun _ => node (.binop hop h₁ h₂) rfl
  refine value (iconst (.inl ht) _) fun _ => value (node (.icmp ht ht (by simp [h₂]) (by simp)) rfl) fun _ =>
    value (iconst (.inl ht) _) fun _ => value (node (.binop (o := .isub) ht (by simp) (by simp)) rfl) fun _ =>
    value (node (.binop (o := .and) ht (by simp [h₁]) (by simp)) rfl) fun _ => ?_
  refine (node (.binop (o := .srem) ht (by simp) (by simp [h₂])) rfl).giving fun x hx => ?_
  simp [hx]

theorem jitWasmBinopi_step : DataStep jitWasmBinopi :=
  .pull fun _ => .emit (given fun _ hp => value pop fun _ => value pop fun _ => given fun _ hop =>
    value (jitEmitBinopi_emits (opcodeRange_isInt hp) (intBinop_accepts (opcodeRange_isInt hp) hop) (by simp) (by simp))
      fun _ => (push (by simp)).done)

/-! ### Atomic instructions -/

theorem jitWasmAtomicNotify_step : DataStep jitWasmAtomicNotify :=
  .pull fun _ => .emit (value pop fun _ => value pop fun _ => value (addr _ (by simp)) fun _ =>
    value (helper rfl (by simp) (by simp)) fun _ => (push (by simp)).done)

theorem waitParams_def {n : ℕ} {p : ValueType × HelperKind} (h : waitParams n = some p) :
    helperDef p.2 = some (.i32, [.ptr, p.1, .i64]) := by
  unfold waitParams at h
  split at h <;> simp only [Option.some.injEq, reduceCtorEq] at h <;> subst h <;> rfl

theorem jitWasmAtomicWait_step : DataStep jitWasmAtomicWait :=
  .pull fun _ => .pull fun _ => .emit (given fun _ hp => value pop fun _ => value pop fun _ => value pop fun _ =>
    value (addr _ (by simp)) fun _ => value (helper (waitParams_def hp) (by simp) (by simp)) fun _ => (push (by simp)).done)

theorem jitWasmAtomicStore_step : DataStep jitWasmAtomicStore :=
  .pull fun _ => .pull fun _ => .emit (assume fun _ => given fun w _ => value pop fun _ => value pop fun _ =>
    value (addr _ (by simp)) fun _ => act (helperEffect (k := .atomicStore w) rfl (by simp)) fun _ =>
    .pure _ ⟨_, subset_rfl, trivial⟩)

theorem jitWasmAtomicLoad_step : DataStep jitWasmAtomicLoad :=
  .pull fun _ => .pull fun _ => .emit (assume fun _ => given fun w _ => value pop fun _ => value (addr _ (by simp)) fun _ =>
    value (helper (k := .atomicLoad w) rfl (isInt_ne w.type_isInt) (by simp)) fun _ => (push (by simp)).done)

theorem jitWasmAtomicRmwCmpexchg_step : DataStep jitWasmAtomicRmwCmpexchg :=
  .pull fun _ => .pull fun _ => .emit (assume fun _ => given fun w _ => value pop fun _ => value pop fun _ => value pop fun _ =>
    value (addr _ (by simp)) fun _ =>
    value (helper (k := .atomicRmw .cmpxchg w) rfl (isInt_ne w.type_isInt) (by simp)) fun _ => (push (by simp)).done)

theorem rmwOp_def {n : ℕ} {op : RmwOp} (h : rmwOp n = some op) (w : AtomicWidth) :
    helperDef (.atomicRmw op w) = some (w.type, [.ptr, w.type]) := by
  unfold rmwOp at h
  split at h <;> simp only [Option.some.injEq, reduceCtorEq] at h <;> subst h <;> rfl

theorem jitWasmAtomicRmwBinop_step : DataStep jitWasmAtomicRmwBinop :=
  .pull fun _ => .pull fun _ => .emit (assume fun _ => given fun _ hop => given fun w _ => value pop fun _ =>
    value pop fun _ => value (addr _ (by simp)) fun _ =>
    value (helper (rmwOp_def hop w) (isInt_ne w.type_isInt) (by simp)) fun _ => (push (by simp)).done)

theorem jitWasmAtomicPrefix_step : DataStep jitWasmAtomicPrefix :=
  .pull fun _ => .ite (fun _ => jitWasmAtomicNotify_step) fun _ => .ite (fun _ => jitWasmAtomicWait_step) fun _ =>
    .ite (fun _ => jitWasmAtomicLoad_step) fun _ => .ite (fun _ => jitWasmAtomicStore_step) fun _ =>
    .ite (fun _ => jitWasmAtomicRmwBinop_step) fun _ => .ite (fun _ => jitWasmAtomicRmwCmpexchg_step) fun _ => .fail

theorem jitWasmFcPrefix_step : DataStep jitWasmFcPrefix :=
  .pull fun _ => .ite (fun _ => jitWasmTruncSat_step) fun _ => .ite (fun _ => jitWasmMemoryInit_step) fun _ =>
    .ite (fun _ => jitWasmDataDrop_step) fun _ => .ite (fun _ => jitWasmMemoryCopy_step) fun _ =>
    .ite (fun _ => jitWasmMemoryFill_step) fun _ => .fail

/-! ### All of them -/

/-- One case of the opcode switch. -/
theorem switch_case {p : Prop} [Decidable p] {P : Handler Unit → Prop} {a m : Handler Unit} {x : Option (Handler Unit)}
    (h : (if p then some a else x) = some m) (ha : p → P a) (hx : x = some m → P m) : P m := by
  split_ifs at h with hp
  · exact Option.some.inj h ▸ ha hp
  · exact hx h

/-- Every handler that stays in its block is a chain of primitive steps. -/
theorem dataHandler_step {opcode : ℕ} {m : Handler Unit} (h : dataHandler opcode = some m) : DataStep m := by
  refine switch_case h (fun _ => jitWasmNop_step) fun h => ?_
  refine switch_case h (fun _ => jitWasmDrop_step) fun h => ?_
  refine switch_case h (fun _ => jitWasmSelect_step) fun h => ?_
  refine switch_case h (fun _ => jitWasmCall_step) fun h => ?_
  refine switch_case h (fun _ => jitWasmCallIndirect_step) fun h => ?_
  refine switch_case h (fun _ => jitWasmLocalGet_step) fun h => ?_
  refine switch_case h (fun _ => jitWasmLocalSet_step) fun h => ?_
  refine switch_case h (fun _ => jitWasmLocalTee_step) fun h => ?_
  refine switch_case h (fun _ => jitWasmGlobalGet_step) fun h => ?_
  refine switch_case h (fun _ => jitWasmGlobalSet_step) fun h => ?_
  refine switch_case h (fun _ => jitWasmLoad_step) fun h => ?_
  refine switch_case h (fun _ => jitWasmStore_step) fun h => ?_
  refine switch_case h (fun _ => jitWasmMemorySize_step) fun h => ?_
  refine switch_case h (fun _ => jitWasmMemoryGrow_step) fun h => ?_
  refine switch_case h (fun _ => jitWasmI32Const_step) fun h => ?_
  refine switch_case h (fun _ => jitWasmI64Const_step) fun h => ?_
  refine switch_case h (fun _ => jitWasmF32Const_step) fun h => ?_
  refine switch_case h (fun _ => jitWasmF64Const_step) fun h => ?_
  refine switch_case h (fun _ => jitWasmCmpi_step) fun h => ?_
  refine switch_case h (fun _ => jitWasmCmpf_step) fun h => ?_
  refine switch_case h (fun _ => jitWasmUnaryopi_step) fun h => ?_
  refine switch_case h (fun _ => jitWasmBinopi_step) fun h => ?_
  refine switch_case h (fun _ => jitWasmShift_step) fun h => ?_
  refine switch_case h (fun _ => jitWasmUnaryopi_step) fun h => ?_
  refine switch_case h (fun _ => jitWasmBinopi_step) fun h => ?_
  refine switch_case h (fun _ => jitWasmShift_step) fun h => ?_
  refine switch_case h (fun _ => jitWasmUnaryopf_step) fun h => ?_
  refine switch_case h (fun _ => jitWasmBinopf_step) fun h => ?_
  refine switch_case h (fun _ => jitWasmUnaryopf_step) fun h => ?_
  refine switch_case h (fun _ => jitWasmBinopf_step) fun h => ?_
  refine switch_case h (fun _ => jitWasmIconv_step) fun h => ?_
  refine switch_case h (fun _ => jitWasmIconv_step) fun h => ?_
  refine switch_case h (fun _ => jitWasmItof_step) fun h => ?_
  refine switch_case h (fun _ => jitWasmFconv_step) fun h => ?_
  refine switch_case h (fun _ => jitWasmItof_step) fun h => ?_
  refine switch_case h (fun _ => jitWasmFconv_step) fun h => ?_
  refine switch_case h (fun _ => jitWasmBitcast_step) fun h => ?_
  refine switch_case h (fun _ => jitWasmIconv_step) fun h => ?_
  refine switch_case h (fun _ => jitWasmFcPrefix_step) fun h => ?_
  refine switch_case h (fun _ => jitWasmAtomicPrefix_step) fun h => ?_
  exact absurd h (by simp)

end SpidirWasm.Jit
