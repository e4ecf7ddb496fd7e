import SpidirWasm.Jit.Operations

/-! What the translation of a function does to the module's context and to the graph: it
prepares callees, declares helpers, marks tables as used, and calls nothing but what it
prepared or declared. Every operation and every handler has an instance that says so, made
from those of its parts. -/

namespace SpidirWasm.Jit

open Checked
open Spidir (Builder Inst Term Value ValueType Block FuncRef)
open Relation (ReflTransGen)

/-- The ways in which a context changes under a handler. -/
inductive ContextStep : JitContext → JitContext → Prop
  | prepare {c c' : JitContext} {funcidx : ℕ} (h : jitPrepareFunction funcidx c = some ((), c')) : ContextStep c c'
  | helper {c c' : JitContext} {kind : HelperKind} {func : FuncRef} (h : jitGetHelper kind c = some (func, c')) : ContextStep c c'
  | useTable (c : JitContext) (tableidx : ℕ) :
      ContextStep c { c with tables := c.tables.modify tableidx fun t => { t with used := true } }

/-- A helper that was declared, or a function that was prepared. -/
def JitContext.Callable (c : JitContext) (callee : FuncRef) : Prop :=
  (∃ kind, c.helpers kind = some callee) ∨ ∃ f ∈ c.functions, f.inited = true ∧ f.spidir = callee

/-- The global of a table that is marked as used. -/
def JitContext.Addressable (c : JitContext) (id : ℕ) : Prop := ∃ t ∈ c.tables, t.used = true ∧ t.global = id

/-- What an instruction refers to is there. -/
def JitContext.Provides (c : JitContext) : Inst → Prop
  | .call callee _ => c.Callable callee
  | .globaladdr id => c.Addressable id
  | _ => True

/-- What the graph `b'` refers to, `b` refers to in the same place. -/
def RefsIn (b' b : Builder) : Prop := ∀ n, (b'.node n).inst.refers = true → (b.node n).inst = (b'.node n).inst

/-- The ways in which the context and the graph change under a handler. -/
inductive EmitStep : JitContext × Builder → JitContext × Builder → Prop
  | context {c c' : JitContext} (h : ContextStep c c') (b : Builder) : EmitStep (c, b) (c', b)
  | graph (c : JitContext) {b b' : Builder} (h : RefsIn b' b) : EmitStep (c, b) (c, b')
  | build {c : JitContext} (b : Builder) {i : Inst} (h : c.Provides i) : EmitStep (c, b) (c, b.build i)

/-- An emission that changes them only by these steps. -/
abbrev Emit.Moves {α : Type} (m : Emit α) : Prop := SpidirWasm.Moves EmitStep (fun s : EmitState => (s.ctx, s.builder)) m

/-- The same for a handler. -/
abbrev Handler.Moves {α : Type} (m : Handler α) : Prop :=
  SpidirWasm.Moves EmitStep (JitState.seen fun s : EmitState => (s.ctx, s.builder)) m

variable {α : Type}

theorem Emit.Moves.run {m : Emit α} (h : m.Moves) {s t : EmitState} {a : α} (hm : m s = some (a, t)) :
    ReflTransGen EmitStep (s.ctx, s.builder) (t.ctx, t.builder) := h.moves s a t hm

/-! ### Steps of the context -/

/-- A step of the context alone. -/
theorem context_moves {m : Checked JitContext α} (h : ∀ c a c', m c = some (a, c') → ContextStep c c') : Emit.Moves (context m) :=
  .single fun s a t hm => by
    obtain ⟨b, c, hc, he⟩ := (zoom_eq_some _ _ m s (a, t)).mp hm
    obtain ⟨-, rfl⟩ := Prod.mk.inj he
    exact .context (h _ _ _ hc) s.builder

instance (funcidx : ℕ) : Emit.Moves (context (jitPrepareFunction funcidx)) := context_moves fun _ _ _ h => .prepare h

instance (kind : HelperKind) : Emit.Moves (context (jitGetHelper kind)) := context_moves fun _ _ _ h => .helper h

instance (tableidx : ℕ) : Emit.Moves (context (update fun c : JitContext =>
    { c with tables := c.tables.modify tableidx fun t => { t with used := true } })) := context_moves fun c a d h => by
  obtain ⟨-, rfl⟩ := Prod.mk.inj ((update_eq_some _ c (a, d)).mp h)
  exact .useTable c tableidx

/-- What a preparation does: nothing to a function that is prepared, and else the function
gets the next external or internal id; an internal one is queued. -/
theorem jitPrepareFunction_cases {c c' : JitContext} {funcidx : ℕ} (h : jitPrepareFunction funcidx c = some ((), c')) :
    ∃ f, c.functions[funcidx]? = some f ∧ (f.inited = true ∧ c' = c ∨ f.inited = false ∧ ∃ g, g.inited = true ∧
      g.hasCfi = f.hasCfi ∧ g.cfiThunk = f.cfiThunk ∧ c'.functions = c.functions.set funcidx g ∧ c'.module = c.module ∧
      c'.helpers = c.helpers ∧ c'.tables = c.tables ∧
      (g.spidir.external = true ∧ g.spidir.id = c.spidir.externFunctions ∧
        c'.spidir = { c.spidir with externFunctions := c.spidir.externFunctions + 1 } ∧ c'.queue = c.queue ∨
      g.spidir.external = false ∧ g.spidir.id = c.spidir.functions ∧
        c'.spidir = { c.spidir with functions := c.spidir.functions + 1 } ∧ c'.queue = funcidx :: c.queue)) := by
  simp only [jitPrepareFunction, read_bind, check_bind_eq_some, lift_bind_eq_some] at h
  obtain ⟨-, f, hf, h⟩ := h
  refine ⟨f, hf, ?_⟩
  have modify : ∀ φ : JitFunction → JitFunction, c.functions.modify funcidx φ = c.functions.set funcidx (φ f) := fun φ => by
    rw [List.modify_eq_set, hf, Option.getD_some]
  cases hinit : f.inited with
  | true =>
    rw [hinit, if_pos rfl, pure_eq_some] at h
    exact .inl ⟨rfl, (Prod.mk.inj h).2⟩
  | false =>
    rw [hinit, if_neg Bool.false_ne_true] at h
    simp only [lift_bind_eq_some] at h
    obtain ⟨type, -, retType, -, args, -, h⟩ := h
    refine .inr ⟨rfl, ?_⟩
    split_ifs at h
    · simp only [lift_bind_eq_some, check_bind_eq_some, read_bind, createExternFunction_bind, update_eq_some, modify, Prod.mk.injEq,
        true_and] at h
      obtain ⟨item, -, -, addr, -, rfl⟩ := h
      exact ⟨{ f with spidir := ⟨true, c.spidir.externFunctions, retType, args⟩, address := addr, inited := true }, rfl, rfl, rfl, rfl,
        rfl, rfl, rfl, .inl ⟨rfl, rfl, rfl, rfl⟩⟩
    · simp only [createFunction_bind, update_eq_some, modify, Prod.mk.injEq, true_and] at h
      subst h
      exact ⟨{ f with spidir := ⟨false, c.spidir.functions, retType, args⟩, inited := true }, rfl, rfl, rfl, rfl, rfl, rfl, rfl,
        .inr ⟨rfl, rfl, rfl, rfl⟩⟩

/-- What a declaration does: at most an external function is created, for the kind. -/
theorem jitGetHelper_cases {c c' : JitContext} {kind : HelperKind} {func : FuncRef} (h : jitGetHelper kind c = some (func, c')) :
    c'.helpers kind = some func ∧ (c.helpers kind = some func ∧ c' = c ∨ c.helpers kind = none ∧ func.external = true ∧
      func.id = c.spidir.externFunctions ∧ c' = { c with
        spidir := { c.spidir with externFunctions := c.spidir.externFunctions + 1 }
        helpers := Function.update c.helpers kind (some func) }) := by
  rw [jitGetHelper, read_bind] at h
  cases hk : c.helpers kind with
  | some known =>
    simp only [hk, pure_eq_some, Prod.mk.injEq] at h
    obtain ⟨rfl, rfl⟩ := h
    exact ⟨hk, .inl ⟨rfl, rfl⟩⟩
  | none =>
    simp only [hk, lift_bind_eq_some, createExternFunction_bind, update_bind, pure_eq_some, Prod.mk.injEq] at h
    obtain ⟨⟨ret, args⟩, -, rfl, rfl⟩ := h
    exact ⟨Function.update_self _ _ _, .inr ⟨rfl, rfl, rfl, rfl⟩⟩

/-- What can be called stays callable. -/
theorem ContextStep.callable {c c' : JitContext} (h : ContextStep c c') {callee : FuncRef} (hc : c.Callable callee) :
    c'.Callable callee := by
  cases h with
  | @prepare _ funcidx h =>
    obtain ⟨f, hf, ⟨-, rfl⟩ | ⟨hinit, g, -, -, -, hfunctions, -, hhelpers, -⟩⟩ := jitPrepareFunction_cases h
    · exact hc
    · obtain ⟨kind, hk⟩ | ⟨f', hf', hinit', hspidir⟩ := hc
      · exact .inl ⟨kind, hhelpers ▸ hk⟩
      · obtain ⟨i, hi⟩ := List.mem_iff_getElem?.mp hf'
        have other : funcidx ≠ i := by
          rintro rfl
          rw [Option.some.inj (hf.symm.trans hi), hinit'] at hinit
          cases hinit
        refine .inr ⟨f', List.mem_iff_getElem?.mpr ⟨i, ?_⟩, hinit', hspidir⟩
        rw [hfunctions, List.getElem?_set_ne other, hi]
  | @helper _ kind func h =>
    obtain ⟨-, ⟨-, rfl⟩ | ⟨hnone, -, -, rfl⟩⟩ := jitGetHelper_cases h
    · exact hc
    · obtain ⟨kind', hk⟩ | hf := hc
      · have other : kind' ≠ kind := by
          rintro rfl
          rw [hnone] at hk
          cases hk
        exact .inl ⟨kind', (Function.update_of_ne other _ _).trans hk⟩
      · exact .inr hf
  | useTable tableidx => exact hc

/-- A table that is marked as used stays so. -/
theorem ContextStep.addressable {c c' : JitContext} (h : ContextStep c c') {id : ℕ} (hc : c.Addressable id) : c'.Addressable id := by
  cases h with
  | prepare h =>
    obtain ⟨_, _, ⟨-, rfl⟩ | ⟨-, _, -, -, -, -, -, -, htables, -⟩⟩ := jitPrepareFunction_cases h
    · exact hc
    · rwa [JitContext.Addressable, htables]
  | helper h =>
    obtain ⟨-, ⟨-, rfl⟩ | ⟨-, -, -, rfl⟩⟩ := jitGetHelper_cases h
    · exact hc
    · exact hc
  | useTable tableidx =>
    obtain ⟨t, ht, hused, hglobal⟩ := hc
    obtain ⟨i, hi⟩ := List.mem_iff_getElem?.mp ht
    have slot : (c.tables.modify tableidx fun t => { t with used := true })[i]? =
        some (if tableidx = i then { t with used := true } else t) := by
      rw [List.getElem?_modify, hi]
      rfl
    refine ⟨_, List.mem_of_getElem? slot, ?_⟩
    split_ifs
    · exact ⟨rfl, hglobal⟩
    · exact ⟨hused, hglobal⟩

/-- What is provided stays so. -/
theorem ContextStep.provides {c c' : JitContext} (h : ContextStep c c') {i : Inst} (hi : c.Provides i) : c'.Provides i := by
  cases i with
  | call callee args => exact h.callable hi
  | globaladdr id => exact h.addressable hi
  | _ => trivial

theorem EmitStep.provides {p q : JitContext × Builder} (h : EmitStep p q) {i : Inst} (hi : p.1.Provides i) : q.1.Provides i := by
  cases h with
  | context h _ => exact h.provides hi
  | graph _ _ => exact hi
  | build _ _ => exact hi

theorem provides_of_run {p q : JitContext × Builder} (h : ReflTransGen EmitStep p q) {i : Inst} (hi : p.1.Provides i) :
    q.1.Provides i := by
  induction h with
  | refl => exact hi
  | tail _ hstep ih => exact hstep.provides ih

theorem JitContext.provides_plain (c : JitContext) (i : Inst) [h : Plain i] : c.Provides i := by
  cases i with
  | call callee args => cases h.plain
  | globaladdr id => cases h.plain
  | _ => trivial

theorem prepared_inited {c c' : JitContext} {funcidx : ℕ} {f : JitFunction} (h : jitPrepareFunction funcidx c = some ((), c'))
    (hf : c'.functions[funcidx]? = some f) : f.inited = true := by
  obtain ⟨f', hf', ⟨hinit, rfl⟩ | ⟨-, g, hinit, -, -, hfunctions, -⟩⟩ := jitPrepareFunction_cases h
  · exact Option.some.inj (hf'.symm.trans hf) ▸ hinit
  · obtain ⟨hlt, -⟩ := List.getElem?_eq_some_iff.mp hf'
    rw [hfunctions, List.getElem?_set_self hlt] at hf
    exact Option.some.inj hf ▸ hinit

/-! ### The operations -/

theorem RefsIn.refl (b : Builder) : RefsIn b b := fun _ _ => rfl

theorem RefsIn.trans {b b' b'' : Builder} (h : RefsIn b'' b') (h' : RefsIn b' b) : RefsIn b'' b := fun n hn =>
  (h' n ((h n hn).symm ▸ hn)).trans (h n hn)

/-- A plain instruction refers to nothing. -/
theorem refsIn_build (b : Builder) (i : Inst) [h : Plain i] : RefsIn (b.build i) b := by
  intro n hn
  rw [Builder.build_node] at hn ⊢
  by_cases he : n = b.nextValue
  · subst he
    rw [Function.update_self, h.plain] at hn
    cases hn
  · rw [Function.update_of_ne he]

/-- A change of the graph that refers to nothing new. -/
theorem graph_moves {m : Emit α} (h : ∀ s a t, m s = some (a, t) → t.ctx = s.ctx ∧ RefsIn t.builder s.builder) : m.Moves :=
  .single fun s a t hm => by
    obtain ⟨hctx, hrefs⟩ := h s a t hm
    rw [hctx]
    exact .graph _ hrefs

instance (i : Inst) [Plain i] : (build i).Moves := .single fun s _ _ hm => by
  cases hm
  exact .build s.builder (s.ctx.provides_plain i)

instance (t : Term) : (terminate t).Moves := graph_moves fun s _ _ h => by
  cases h
  exact ⟨rfl, fun n _ => by simp⟩

instance : createBlock.Moves := graph_moves fun s _ _ h => by
  cases h
  exact ⟨rfl, .refl s.builder⟩

instance (k : Block) : (setBlock k).Moves := graph_moves fun s _ _ h => by
  cases h
  exact ⟨rfl, .refl s.builder⟩

instance (index : ℕ) (f : JitLabel → JitLabel) : (modifyLabel index f).Moves := .still fun _ _ _ h => by
  cases h
  rfl

instance (l : JitLabel) : (pushLabel l).Moves := .still fun _ _ _ h => by
  cases h
  rfl

instance (index : ℕ) (value : Value) : (setLocal index value).Moves := .still fun _ _ _ h => by
  cases h
  rfl

instance (locals : EmitState → List JitValue) : Emit.Moves (update fun s => s.withLocals (locals s)) := .still fun _ _ _ h => by
  cases h
  rfl

instance : jitPopAny.Moves := .still fun s v t h => by
  obtain ⟨l, ls, rest, -, -, rfl⟩ := (jitPopAny_eq_some s (v, t)).mp h
  rfl

/-- A helper is called as soon as it is declared. -/
instance (kind : HelperKind) (args : List Value) : (callHelper kind args).Moves where
  moves s a t h := by
    obtain ⟨func, c', hc, h⟩ := (context_bind_eq_some _ _ s (a, t)).mp h
    obtain ⟨-, rfl⟩ := Prod.mk.inj (Option.some.inj h)
    have declared : c'.Provides (.call func args) := .inl ⟨kind, (jitGetHelper_cases hc).1⟩
    exact .tail (.single (.context (.helper hc) s.builder)) (.build s.builder declared)

/-! ### Branches -/

theorem refsIn_addPhiInput (b : Builder) (p : ℕ) (v : Value) : RefsIn (b.addPhiInput p v) b := by
  intro n h
  simp only [Builder.addPhiInput] at h ⊢
  by_cases hn : n = p
  · subst hn
    rw [Function.update_self] at h ⊢
    cases hi : (b.node n).inst with
    | phi type inputs =>
      simp only [hi] at h
      cases h
    | _ => rfl
  · rw [Function.update_of_ne hn]

theorem refsIn_addPhiInputs (values : List Value) (b : Builder) (p : ℕ) :
    RefsIn (values.foldl (fun b v => b.addPhiInput p v) b) b := by
  induction values generalizing b with
  | nil => exact .refl b
  | cons v values ih => exact (ih _).trans (refsIn_addPhiInput b p v)

theorem refsIn_loopPhis (ls : List JitValue) (b : Builder) : RefsIn (loopPhis ls b).2.2 b := by
  induction ls generalizing b with
  | nil => exact .refl b
  | cons l ls ih => exact (ih _).trans (refsIn_build b _)

theorem refsIn_mergeValue (inputs : ℕ) (type : ValueType) (v : Value) (m : Merge) (b : Builder) :
    RefsIn (mergeValue inputs type v m b).2 b := by
  rw [mergeValue]
  split_ifs
  · exact .refl b
  · cases m.phi with
    | some p => exact refsIn_addPhiInput b p v
    | none => exact (refsIn_addPhiInput _ _ v).trans ((refsIn_addPhiInputs _ _ _).trans (refsIn_build b _))

theorem refsIn_mergeLocals (inputs : ℕ) (ls : List JitValue) (ms : List Merge) (b : Builder) :
    RefsIn (mergeLocals inputs ls ms b).2 b := by
  induction ls generalizing ms b with
  | nil => exact .refl b
  | cons l ls ih =>
    cases ms with
    | nil => exact .refl b
    | cons m ms => exact (ih _ _).trans (refsIn_mergeValue inputs l.type l.value m b)

theorem refsIn_arrive (target : JitLabel) (locals : List JitValue) (resultValue : Value) (b : Builder) :
    RefsIn (target.arrive locals resultValue b).2 b := by
  rw [JitLabel.arrive]
  cases target.locals with
  | none => exact .refl b
  | some merges =>
    have locals := refsIn_mergeLocals target.inputs locals merges (b.setBlock target.block)
    simp only
    split_ifs
    · exact (refsIn_mergeValue _ _ _ _ _).trans locals
    · exact locals

/-- A branch adds phis and their inputs. -/
instance (index : ℕ) (resultValue : Value) : (jitWasmPrepareBranch index resultValue).Moves := by
  refine .seq inferInstance fun target => graph_moves fun s a t h => ?_
  simp only [get_bind, check_bind_eq_some, set_bind, modifyLabel_eq_some, Prod.mk.injEq, true_and] at h
  obtain ⟨-, rfl⟩ := h
  exact ⟨rfl, refsIn_arrive target s.func.locals resultValue s.builder⟩

instance : Operations EmitStep fun s : EmitState => (s.ctx, s.builder) where
  build _ := inferInstance
  terminate _ := inferInstance
  createBlock := inferInstance
  setBlock _ := inferInstance
  push _ _ := inferInstanceAs (modifyLabel _ _).Moves
  popAny := inferInstance
  discard := inferInstance
  setTerminated := inferInstanceAs (modifyLabel _ _).Moves
  setLocal _ _ := inferInstance
  setLocals _ := inferInstance
  callHelper _ _ := inferInstance
  useTable _ := inferInstance
  prepareBranch _ _ := inferInstance

/-! ### Calls -/

variable {i j : Inst} {β : Type}

/-- A program that moves where what `i` refers to is there. -/
def MovesWith (i : Inst) (m : Emit α) : Prop :=
  ∀ s a t, s.ctx.Provides i → m s = some (a, t) → ReflTransGen EmitStep (s.ctx, s.builder) (t.ctx, t.builder)

theorem MovesWith.seq {m : Emit α} {k : α → Emit β} (hm : m.Moves) (hk : ∀ a, MovesWith i (k a)) : MovesWith i (m >>= k) := by
  intro s b u hs h
  obtain ⟨a, t, h₁, h₂⟩ := (bind_eq_some m k s (b, u)).mp h
  have toFirst : ReflTransGen EmitStep (s.ctx, s.builder) (t.ctx, t.builder) := hm.run h₁
  exact toFirst.trans (hk a t b u (provides_of_run toFirst hs) h₂)

theorem movesWith_build (hj : ∀ c : JitContext, c.Provides i → c.Provides j) (k : Value → Emit α) (hk : ∀ v, (k v).Moves) :
    MovesWith i (build j >>= k) := by
  intro s a t hs h
  rw [build_bind] at h
  exact .head (.build s.builder (hj _ hs)) ((hk _).run h)

/-- Between its preparation and its call a function stays callable. -/
instance : Handler.Moves jitWasmCall := by
  refine .seq inferInstance fun funcidx => emit_moves ⟨fun s a t h => ?_⟩
  obtain ⟨_, c, hc, h₁⟩ := (context_bind_eq_some _ _ s (a, t)).mp h
  simp only [read_bind, lift_bind_eq_some] at h₁
  obtain ⟨callee, hcallee, type, -, h₂⟩ := h₁
  have prepared : c.Provides (.call callee.spidir []) :=
    .inr ⟨callee, List.mem_of_getElem? hcallee, prepared_inited hc hcallee, rfl⟩
  refine .head (.context (.prepare hc) s.builder) ((?_ : MovesWith (.call callee.spidir []) _) _ _ _ prepared h₂)
  refine .seq inferInstance fun _ => .seq inferInstance fun _ => .seq inferInstance fun _ => ?_
  have callable : ∀ (c : JitContext) (args : List Value), c.Provides (.call callee.spidir []) → c.Provides (.call callee.spidir args) :=
    fun _ _ h => h
  exact movesWith_build (callable · _) _ fun _ => inferInstance

/-- A table is marked before its address is taken. -/
instance : Handler.Moves jitWasmCallIndirect := by
  refine .seq inferInstance fun typeidx => .seq inferInstance fun tableidx => emit_moves ⟨fun s a t h => ?_⟩
  simp only [read_bind, lift_bind_eq_some, check_bind_eq_some, context_bind_eq_some, update_eq_some, Prod.mk.injEq, true_and] at h
  obtain ⟨type, -, -, table, htable, _, c, rfl, h₁⟩ := h
  have slot : (s.ctx.tables.modify tableidx fun t => { t with used := true })[tableidx]? = some { table with used := true } := by
    rw [List.getElem?_modify_eq, htable]
    rfl
  have marked : JitContext.Provides { s.ctx with tables := s.ctx.tables.modify tableidx fun t => { t with used := true } }
      (.globaladdr table.global) := ⟨_, List.mem_of_getElem? slot, rfl, rfl⟩
  refine .head (.context (.useTable s.ctx tableidx) s.builder) ((?_ : MovesWith (.globaladdr table.global) _) _ _ _ marked h₁)
  refine .seq inferInstance fun _ => .seq inferInstance fun _ => movesWith_build (fun _ h => h) _ fun _ => ?_
  repeat refine .seq inferInstance fun _ => ?_
  infer_instance

end SpidirWasm.Jit
