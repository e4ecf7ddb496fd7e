import SpidirWasm.Jit.Prim

/-! Rules that read a program of the emission state as a chain of primitive steps, for
the handlers that stay in their block: what such a handler has under way is only the
typed values it has at hand. -/

namespace SpidirWasm.Jit

open Checked
open Spidir (Builder Inst Value ValueType FuncRef)

/-! ### The context -/

/-- What is known of a prepared function and of a declared helper agrees with the
module and with the table of helpers. -/
structure JitContext.Ok (c : JitContext) : Prop where
  function : ∀ i f, c.functions[i]? = some f → f.inited = true → ∃ type,
    wasmGetFuncType c.module i = some type ∧ jitRetType type = some f.spidir.ret ∧ jitParams type = some f.spidir.args
  helper : ∀ k f, c.helpers k = some f → helperDef k = some (f.ret, f.args)

theorem wasmGetFuncType_of_getFunc {m : Wasm.WasmModule} {i : ℕ} {type : Wasm.FuncType}
    (h : m.getFunc i = some type) : wasmGetFuncType m i = some type := by
  unfold Wasm.WasmModule.getFunc at h
  unfold wasmGetFuncType
  split_ifs at h ⊢ with hi
  · rcases he : m.imports[i]? with _ | item
    · simp [he] at h
    · by_cases hk : item.kind = .func
      · simpa [he, hk] using h
      · simp [he, hk] at h
  · rcases he : m.functions[i - m.imports.length]? with _ | typeidx
    · simp [he] at h
    · simpa [he] using h

/-- Entering a prepared function at `i` keeps the context right. -/
theorem JitContext.Ok.prepared {c : JitContext} (hc : c.Ok) {i : ℕ} {f : JitFunction} {type : Wasm.FuncType}
    {ret : ValueType} {args : List ValueType} {g : JitFunction → JitFunction} {c' : JitContext}
    (htype : wasmGetFuncType c.module i = some type) (hret : jitRetType type = some ret)
    (hargs : jitParams type = some args) (hf : c.functions[i]? = some f)
    (hg : (g f).inited = true ∧ (g f).spidir.ret = ret ∧ (g f).spidir.args = args)
    (hm : c'.module = c.module) (hh : c'.helpers = c.helpers) (hfs : c'.functions = c.functions.modify i g) :
    c'.Ok ∧ c'.module = c.module ∧ ∃ f, c'.functions[i]? = some f ∧ f.inited = true := by
  have entry : ∀ j, c'.functions[j]? = if i = j then some (g f) else c.functions[j]? := by
    intro j
    rw [hfs, List.getElem?_modify]
    split_ifs with he
    · subst he; rw [hf]; rfl
    · cases c.functions[j]? <;> rfl
  refine ⟨⟨fun j f' hj hi => ?_, fun k f' h => hc.helper k f' (hh ▸ h)⟩, hm, g f, by rw [entry, if_pos rfl], hg.1⟩
  rw [hm]
  rw [entry] at hj
  split_ifs at hj with he
  · subst he
    obtain rfl := Option.some.inj hj
    exact ⟨type, htype, hg.2.1 ▸ hret, hg.2.2 ▸ hargs⟩
  · exact hc.function j f' hj hi

/-- `jit_prepare_function` leaves the function prepared and the context right. -/
theorem jitPrepareFunction_ok {i : ℕ} {c c' : JitContext} (h : jitPrepareFunction i c = some ((), c')) (hc : c.Ok) :
    c'.Ok ∧ c'.module = c.module ∧ ∃ f, c'.functions[i]? = some f ∧ f.inited = true := by
  simp only [jitPrepareFunction, read_bind, check_bind_eq_some, lift_bind_eq_some] at h
  obtain ⟨-, f, hf, h⟩ := h
  by_cases hi : f.inited
  · simp only [hi, if_true, pure_eq_some, Prod.mk.injEq, true_and] at h
    subst h
    exact ⟨hc, rfl, f, hf, hi⟩
  simp only [hi, Bool.false_eq_true, if_false, lift_bind_eq_some] at h
  obtain ⟨type, htype, ret, hret, args, hargs, h⟩ := h
  have htype := wasmGetFuncType_of_getFunc htype
  split_ifs at h
  · simp only [createExternFunction_bind, read_bind, check_bind_eq_some, lift_bind_eq_some, update_eq_some,
      Prod.mk.injEq, true_and] at h
    obtain ⟨item, -, -, addr, -, rfl⟩ := h
    exact hc.prepared htype hret hargs hf ⟨rfl, rfl, rfl⟩ rfl rfl rfl
  · simp only [createFunction_bind, update_eq_some, Prod.mk.injEq, true_and] at h
    subst h
    exact hc.prepared htype hret hargs hf ⟨rfl, rfl, rfl⟩ rfl rfl rfl

/-- `jit_get_helper` returns the helper with its declared signature. -/
theorem jitGetHelper_ok {k : HelperKind} {c c' : JitContext} {f : FuncRef}
    (h : jitGetHelper k c = some (f, c')) (hc : c.Ok) : c'.Ok ∧ helperDef k = some (f.ret, f.args) := by
  simp only [jitGetHelper, read_bind] at h
  rcases hk : c.helpers k with _ | g
  · simp only [hk, createExternFunction_bind, lift_bind_eq_some, update_bind,
      pure_eq_some, Prod.mk.injEq] at h
    obtain ⟨⟨ret, args⟩, hd, rfl, rfl⟩ := h
    refine ⟨⟨hc.function, fun k' f' h' => ?_⟩, hd⟩
    by_cases he : k' = k
    · subst he
      simp only [Function.update_self, Option.some.injEq] at h'
      exact h' ▸ hd
    · simp only [Function.update_of_ne he] at h'
      exact hc.helper k' f' h'
  · simp only [hk, pure_eq_some, Prod.mk.injEq] at h
    obtain ⟨rfl, rfl⟩ := h
    exact ⟨hc, hc.helper k f hk⟩

/-! ### Programs made of primitive steps -/

variable {α β : Type} {Γ Γ' : Hand} {s t : EmitState}

/-- Every successful run of `m` from the hand `Γ` is a chain of primitive steps to a hand
that `Q` allows; the context stays right. -/
def Emits (Γ : Hand) (m : Emit α) (Q : α → Hand → Prop) : Prop :=
  ∀ J s a t, s.ctx.Ok → m s = some (a, t) → t.ctx.Ok ∧ ∃ Γ', Q a Γ' ∧ Prims J { hand := Γ } s { hand := Γ' } t

/-- The result joins the hand with its type. -/
def Gives (τ : ValueType) (Γ : Hand) (v : Value) (Γ' : Hand) : Prop := Γ' = insert ⟨v, τ⟩ Γ

/-- The hand does not change. -/
def Stays (Γ : Hand) (_ : α) (Γ' : Hand) : Prop := Γ' = Γ

/-- At the end of a handler the hand no longer matters. -/
def Done (_ : α) (_ : Hand) : Prop := True

namespace Emits

variable {m : Emit α} {f : α → Emit β} {Q : α → Hand → Prop} {R : β → Hand → Prop} {τ : ValueType}

theorem weaken {Q' : α → Hand → Prop} (h : Emits Γ m Q) (hQ : ∀ a Γ', Q a Γ' → ∃ Γ'', Γ'' ⊆ Γ' ∧ Q' a Γ'') :
    Emits Γ m Q' := by
  intro J s a t hs hm
  obtain ⟨ht, Γ', hq, hp⟩ := h J s a t hs hm
  obtain ⟨Γ'', hsub, hq'⟩ := hQ a Γ' hq
  exact ⟨ht, Γ'', hq', hp.step (.forget hsub)⟩

theorem done (h : Emits Γ m Q) : Emits Γ m Done := h.weaken fun _ Γ' _ => ⟨Γ', subset_rfl, trivial⟩

theorem bind (hx : Emits Γ m Q) (hf : ∀ a Γ', Q a Γ' → Emits Γ' (f a) R) : Emits Γ (m >>= f) R := by
  intro J s b t hs h
  obtain ⟨a, u, h₁, h₂⟩ := (bind_eq_some m f s (b, t)).mp h
  obtain ⟨hu, Γ₁, hq, hp₁⟩ := hx J s a u hs h₁
  obtain ⟨ht, Γ₂, hr, hp₂⟩ := hf a Γ₁ hq J u b t hu h₂
  exact ⟨ht, Γ₂, hr, hp₁.trans hp₂⟩

/-- A part that gives a value, and the rest with the value at hand. -/
theorem value {m : Emit Value} {f : Value → Emit β} (hx : Emits Γ m (Gives τ Γ))
    (hf : ∀ v, Emits (insert ⟨v, τ⟩ Γ) (f v) R) : Emits Γ (m >>= f) R :=
  hx.bind fun v _ h => h ▸ hf v

/-- A part that leaves the hand alone. -/
theorem act (hx : Emits Γ m (Stays Γ)) (hf : ∀ a, Emits Γ (f a) R) : Emits Γ (m >>= f) R :=
  hx.bind fun a _ h => h ▸ hf a

theorem given {o : Option α} (hf : ∀ a, o = some a → Emits Γ (f a) R) : Emits Γ (lift o >>= f) R := by
  intro J s b t hs h
  obtain ⟨a, ho, h⟩ := (lift_bind_eq_some o f s (b, t)).mp h
  exact hf a ho J s b t hs h

theorem assume {p : Prop} [Decidable p] {f : Unit → Emit β} (hf : p → Emits Γ (f ()) R) :
    Emits Γ (check p >>= f) R := by
  intro J s b t hs h
  obtain ⟨hp, h⟩ := (check_bind_eq_some p f s (b, t)).mp h
  exact hf hp J s b t hs h

theorem readThen {g : EmitState → α} (hf : ∀ a, Emits Γ (f a) R) : Emits Γ (read g >>= f) R :=
  fun J s b t hs h => hf (g s) J s b t hs h

theorem pure (a : α) (h : ∃ Γ', Γ' ⊆ Γ ∧ Q a Γ') : Emits Γ (Pure.pure a : Emit α) Q := by
  intro J s b t hs hm
  obtain ⟨rfl, rfl⟩ := Prod.mk.inj ((pure_eq_some a s (b, t)).mp hm)
  obtain ⟨Γ', hsub, hq⟩ := h
  exact ⟨hs, Γ', hq, (Prim.forget hsub).prims⟩

theorem fail : Emits Γ (Checked.fail : Emit α) Q := by
  intro J s b t hs hm
  simp at hm

theorem ite {p : Prop} [Decidable p] {m' : Emit α} (h : p → Emits Γ m Q) (h' : ¬p → Emits Γ m' Q) :
    Emits Γ (if p then m else m') Q := by
  split_ifs with hp
  · exact h hp
  · exact h' hp

theorem popAny : Emits Γ jitPopAny (fun v Γ' => Γ' = insert v Γ) := by
  intro J s v t hs h
  obtain ⟨l, ls, rest, hl, hv, rfl⟩ := (jitPopAny_eq_some s (v, t)).mp h
  exact ⟨hs, _, rfl, (Prim.pop rfl hl hv).prims⟩

theorem pop : Emits Γ (jitPop τ) (Gives τ Γ) := by
  refine popAny.bind fun v _ h => h ▸ ?_
  refine assume fun hty => pure _ ⟨_, subset_rfl, ?_⟩
  subst hty
  rfl

theorem push {v : Value} (hv : ⟨v, τ⟩ ∈ Γ) : Emits Γ (jitPush τ v) (Stays Γ) := by
  intro J s a t hs h
  simp only [jitPush, modifyLabel, update_eq_some, Prod.mk.injEq, true_and] at h
  subst h
  rcases hl : s.func.labels with _ | ⟨l, ls⟩
  · refine ⟨hs, Γ, rfl, ?_⟩
    have same : s.withLabels [] = s := by
      obtain ⟨ctx, ⟨locals, retType, labels⟩, b⟩ := s
      cases hl
      rfl
    exact same ▸ (Prim.forget (subset_refl Γ)).prims
  · exact ⟨hs, Γ, rfl, (Prim.push rfl rfl hl hv).prims⟩

theorem node {i : Inst} (hi : i.HasType (fun v t => ⟨v, t⟩ ∈ Γ) τ) (ho : i.hasOutput = true) :
    Emits Γ (build i) (Gives τ Γ) := by
  intro J s v t hs h
  simp only [build, Option.some.injEq, Prod.mk.injEq, Builder.handle, ho, if_true] at h
  obtain ⟨rfl, rfl⟩ := h
  exact ⟨hs, _, rfl, (Prim.node rfl hi ho).prims⟩

theorem effect {i : Inst} (hi : i.HasType (fun v t => ⟨v, t⟩ ∈ Γ) τ) (ho : i.hasOutput = false) :
    Emits Γ (build i) (Stays Γ) := by
  intro J s v t hs h
  simp only [build, Option.some.injEq, Prod.mk.injEq] at h
  obtain ⟨-, rfl⟩ := h
  exact ⟨hs, _, rfl, (Prim.effect rfl hi ho).prims⟩

/-- A step of the context, from what it does to contexts. -/
theorem context {m : Checked JitContext α} {P : α → Prop}
    (h : ∀ c a c', c.Ok → m c = some (a, c') → c'.Ok ∧ P a) :
    Emits Γ (Jit.context m) (fun a Γ' => Γ' = Γ ∧ P a) := by
  intro J s a t hs hm
  simp only [Jit.context, zoom_eq_some, Prod.mk.injEq] at hm
  obtain ⟨b, c, hc, rfl, rfl⟩ := hm
  obtain ⟨hok, hp⟩ := h s.ctx a c hs hc
  exact ⟨hok, Γ, ⟨rfl, hp⟩, (Prim.context c).prims⟩

end Emits

end SpidirWasm.Jit
