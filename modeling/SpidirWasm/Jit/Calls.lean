import SpidirWasm.Jit.EmitSpidir
import SpidirWasm.Jit.Execution
import SpidirWasm.Jit.Shape
import SpidirWasm.Spidir.Control

/-! The two calls and the thunk between them, as they run. A direct call passes the bases and
the operands; an indirect call passes the id of its type besides, behind the bases, and the
thunk leaves it out again. -/

namespace SpidirWasm.Jit

open Checked
open Spidir

variable {helper : HelperKind → List Word → Store → Outcome Store (Word × Store)} {W : World} {w : View} {α β : Type}

/-- A result on the operand stack. -/
def results (ret : ValueType) (x : Word) : List (ValueType × Word) := if ret = .none then [] else [(ret, x)]

/-- What a call leaves behind. The callee is passed the bases and the operands, in the order
of its parameters, and its result is put on what was below them. -/
def callView (W : World) (callee : FuncRef) (operands below : List (ValueType × Word)) (shared : Store) : Outcome Store View :=
  (W.call callee (W.param 0 :: W.param 1 :: operands.map fun p => Word.fill p.1.width p.2 0) shared).bind fun p =>
    .done { stack := results callee.ret p.1 ++ below, shared := p.2 }

/-- The address of a slot of a table. -/
def tableSlot (W : World) (global : ℕ) (x : Word) : Word := W.global global + Word.zext32 x * 8

/-! ### Rules -/

namespace Runs

variable {R : β → Outcome Store View → Prop} {ret : ValueType} {v : Value}

/-- Popping the arguments, the last one first, makes their words known in the order of the parameters. -/
theorem popArgs {types : List Wasm.ValueType} {ts : List ValueType} {operands rest : List (ValueType × Word)} {f : List Value → Emit β}
    (hts : types.mapM jitGetSpidirValueType = some ts) (hops : operands.map Prod.fst = ts) (hw : w.stack = operands.reverse ++ rest)
    (hf : ∀ vs Γ, w.facts ⊆ Γ → List.Forall₂ (fun v (p : ValueType × Word) => ⟨v, p.1, p.1.width, p.2⟩ ∈ Γ) vs operands →
      Runs helper W { facts := Γ, stack := rest, shared := w.shared } (f vs) R) : Runs helper W w (Jit.popArgs types >>= f) R := by
  induction types generalizing ts operands rest f with
  | nil =>
    obtain rfl : [] = ts := Option.some.inj hts
    obtain rfl := List.map_eq_nil_iff.mp hops
    have same : ({ facts := w.facts, stack := rest, shared := w.shared } : View) = w := by rw [← List.nil_append rest, ← List.reverse_nil, ← hw]
    rw [Jit.popArgs, pure_bind, ← same]
    exact hf [] w.facts subset_rfl .nil
  | cons type types ih =>
    rw [List.mapM_cons] at hts
    obtain ⟨t, ht, hts⟩ := Option.bind_eq_some_iff.mp hts
    obtain ⟨ts', hts', he⟩ := Option.bind_eq_some_iff.mp hts
    obtain rfl := Option.some.inj he
    obtain ⟨p, ps, rfl, rfl, hps⟩ := List.map_eq_cons_iff.mp hops
    rw [Jit.popArgs, bind_assoc]
    have stack : w.stack = ps.reverse ++ (p :: rest) := by rw [hw, List.reverse_cons, List.append_assoc]; rfl
    apply ih hts' hps stack
    intro vs Γ hsub hvs
    rw [bind_assoc]
    apply given
    intro t' ht'
    obtain rfl := Option.some.inj (ht.symm.trans ht')
    rw [bind_assoc]
    apply bind (pop rfl)
    intro v
    rw [pure_bind]
    apply hf (v :: vs) _ (hsub.trans (Set.subset_insert _ _))
    exact .cons (Set.mem_insert _ _) (hvs.imp fun _ _ h => Set.mem_insert_of_mem _ h)

/-- The result of a call, if there is one, is pushed. -/
theorem pushResult (p : Word × Store) : Runs helper W (w.returned ret v p) (Jit.pushResult ret v) fun _ o =>
    o = .done { stack := results ret p.1 ++ w.stack, shared := p.2 } := by
  unfold Jit.pushResult results View.returned
  by_cases h : ret = .none
  · simp only [if_pos h]
    have still : Runs helper W { w with shared := p.2 } (Pure.pure () : Emit Unit) fun _ o => o = .done { w with shared := p.2 } := pure rfl
    exact still.leave
  · simp only [if_neg h]
    exact leave (push (Set.mem_insert _ _))

variable {callee : FuncRef} {type : Wasm.FuncType} {ts : List ValueType} {operands below : List (ValueType × Word)} {shared : Store}

/-- The code of a direct call. -/
theorem directCall (hret : jitRetType type = some callee.ret) (hts : jitArgTypes type = some ts) (hops : operands.map Prod.fst = ts)
    (hw : w.stack = operands.reverse ++ below) :
    Runs helper W w (do
      let memBase ← build (.param 0)
      let stateBase ← build (.param 1)
      let args ← Jit.popArgs type.argTypes
      let retVal ← build (.call callee (memBase :: stateBase :: args))
      let retType ← lift (jitRetType type)
      Jit.pushResult retType retVal) fun _ o => o = callView W callee operands below w.shared := by
  apply bind (param (by decide))
  intro mem
  apply bind (param (by decide))
  intro st
  refine popArgs hts hops hw fun vs Γ hsub hvs => ?_
  have known : List.Forall₂ (fun v (p : ValueType × Word) => ⟨v, p.1, p.1.width, p.2⟩ ∈ Γ) (mem :: st :: vs)
      ((.ptr, W.param 0) :: (.ptr, W.param 1) :: operands) := .cons (hsub (by simp)) (.cons (hsub (by simp)) hvs)
  have called : Runs helper W { facts := Γ, stack := below, shared := w.shared } (build (.call callee (mem :: st :: vs))) _ := call known
  have passed : (((.ptr, W.param 0) :: (.ptr, W.param 1) :: operands).map fun p : ValueType × Word => Word.fill p.1.width p.2 0) =
      W.param 0 :: W.param 1 :: operands.map fun p => Word.fill p.1.width p.2 0 := by simp
  rw [passed] at called
  refine outcome called fun retVal p => given fun retType hretType => ?_
  obtain rfl := Option.some.inj (hret.symm.trans hretType)
  exact pushResult p

theorem globaladdr (id : ℕ) : Runs helper W w (build (.globaladdr id)) fun v o => o = .done (w.learn ⟨v, .ptr, 64, W.global id⟩) :=
  compute rfl rfl (by decide) fun _ _ _ _ _ => ⟨rfl, _, rfl, rfl⟩

/-- A pointer is loaded from where it was stored. -/
theorem loadPtr {ptr : Value} {x a : Word} (hptr : ⟨ptr, .ptr, 64, x⟩ ∈ w.facts)
    (hmem : w.shared.mem.load x.toNat 8 = some (a.toBytes 8)) :
    Runs helper W w (build (.load .size8 .ptr ptr)) fun v o =>
      o = .done ({ w with shared := w.shared.touch x.toNat 8 }.learn ⟨v, .ptr, 64, a⟩) := by
  have loaded : Runs helper W w (build (.load .size8 .ptr ptr)) _ := load hptr (by decide)
  refine loaded.weaken fun v o ho => ho.trans ?_
  have found : w.shared.load x.toNat MemSize.size8.bytes = .done (a.toBytes 8, w.shared.touch x.toNat 8) := by
    rw [Store.load, show w.shared.mem.load x.toNat MemSize.size8.bytes = _ from hmem]
    rfl
  have word : Word.ofBytes (a.toBytes 8) = a := by
    rw [Word.ofBytes_toBytes, BitVec.setWidth_eq, BitVec.setWidth_eq]
  rw [found, Outcome.done_bind, word]
  rfl

/-- The code of an indirect call behind its bounds check. -/
theorem indirectCall {global : ℕ} (typeidx : ℕ) {idx : Value} {x a : Word} (hret : jitRetType type = some ret)
    (hts : jitArgTypes type = some ts) (hops : operands.map Prod.fst = ts) (hw : w.stack = operands.reverse ++ below)
    (hidx : ⟨idx, .i32, 32, x⟩ ∈ w.facts)
    (hslot : w.shared.mem.load (tableSlot W global x).toNat 8 = some (a.toBytes 8)) :
    Runs helper W w (do
      let tablePtr ← build (.globaladdr global)
      let idx64 ← jitEmitZext64 idx
      let slotOffset ← build (.binop .imul idx64 (← build (.iconst .i64 8)))
      let slotPtr ← build (.ptroff tablePtr slotOffset)
      let target ← build (.load .size8 .ptr slotPtr)
      let memBase ← build (.param 0)
      let stateBase ← build (.param 1)
      let typeId ← build (.iconst .i64 (BitVec.ofNat 64 typeidx))
      let args ← Jit.popArgs type.argTypes
      let argTypes ← lift (jitArgTypes type)
      let retType ← lift (jitRetType type)
      let ret ← build (.callind retType (.ptr :: .ptr :: .i64 :: argTypes) target (memBase :: stateBase :: typeId :: args))
      Jit.pushResult retType ret) fun _ o =>
        o = (W.callind a (W.param 0 :: W.param 1 :: BitVec.ofNat 64 typeidx :: operands.map fun p => Word.fill p.1.width p.2 0)
          (w.shared.touch (tableSlot W global x).toNat 8)).bind fun p =>
            .done { stack := results ret p.1 ++ below, shared := p.2 } := by
  apply bind (globaladdr global)
  intro table
  apply bind (zext64 (x := x) (by simp [hidx]))
  intro idx64
  apply bind (iconst64 8)
  intro eight
  have scaled : ∀ c d : Word, c.setWidth 64 = (Word.zext32 x).setWidth 64 → d.setWidth 64 = (8 : Word).setWidth 64 →
      Binop.imul.compute c d = .done (Word.zext32 x * 8) := by
    intro c d hc hd
    rw [BitVec.setWidth_eq, BitVec.setWidth_eq] at hc hd
    rw [hc, hd]
    rfl
  apply bind (binop64 (x := Word.zext32 x) (y := 8) rfl (by simp) (by simp) scaled)
  intro offset
  apply bind (ptroff (x := W.global global) (y := Word.zext32 x * 8) (by simp) (by simp))
  intro slot
  refine bind (loadPtr (x := tableSlot W global x) (a := a) ?_ ?_) fun target => ?_
  · simp [tableSlot]
  · exact hslot
  apply bind (param (by decide))
  intro mem
  apply bind (param (by decide))
  intro st
  apply bind (iconst64 _)
  intro id
  refine popArgs hts hops hw fun vs Γ hsub hvs => given fun argTypes _ => given fun retType hretType => ?_
  obtain rfl := Option.some.inj (hret.symm.trans hretType)
  have known : List.Forall₂ (fun v (p : ValueType × Word) => ⟨v, p.1, p.1.width, p.2⟩ ∈ Γ) (mem :: st :: id :: vs)
      ((.ptr, W.param 0) :: (.ptr, W.param 1) :: (.i64, BitVec.ofNat 64 typeidx) :: operands) :=
    .cons (hsub (by simp)) (.cons (hsub (by simp)) (.cons (hsub (by simp)) hvs))
  have passed : (((.ptr, W.param 0) :: (.ptr, W.param 1) :: (.i64, BitVec.ofNat 64 typeidx) :: operands).map
      fun p : ValueType × Word => Word.fill p.1.width p.2 0) =
      W.param 0 :: W.param 1 :: BitVec.ofNat 64 typeidx :: operands.map fun p => Word.fill p.1.width p.2 0 := by simp
  have haddr : ⟨target, .ptr, 64, a⟩ ∈ Γ := hsub (by simp)
  have called : Runs helper W { facts := Γ, stack := below, shared := w.shared.touch (tableSlot W global x).toNat 8 }
      (build (.callind ret (.ptr :: .ptr :: .i64 :: argTypes) _ (mem :: st :: id :: vs))) _ := callind haddr known
  rw [passed] at called
  exact outcome called fun _ p => pushResult p

end Runs

/-! ### The bounds check -/

variable {b B : Builder} {σ : Machine} {c : Value} {k : Block}

/-- The block that is created next is empty, and nothing is said to stand there. -/
structure NextFree (b : Builder) : Prop where
  cur : ∃ k, b.cur = some k ∧ k < b.nextBlock
  items : b.items b.nextBlock = []
  home : ∀ n < b.nextValue, (b.node n).block ≠ some b.nextBlock

theorem Shape.nextFree {owed due : List Block} {scopes : List JitLabel} {n : ℕ} (h : Shape b owed due scopes n) : NextFree b where
  cur := by
    obtain ⟨k, hk, hlt, -⟩ := h.cur
    exact ⟨k, hk, hlt⟩
  items := h.empty _ (.inl (Nat.le_refl _))
  home n hn hblock := Nat.lt_irrefl _ (h.home n hn _ hblock).1

theorem NextFree.build (h : NextFree b) (i : Inst) : NextFree (b.build i) := by
  obtain ⟨k, hk, hlt⟩ := h.cur
  have other : b.cur ≠ some b.nextBlock := by
    rw [hk]
    exact fun he => Nat.ne_of_lt hlt (Option.some.inj he)
  refine ⟨⟨k, by simpa using hk, by simpa using hlt⟩, ?_, fun n hn => ?_⟩
  · rw [Builder.build_nextBlock, Builder.build_items, if_neg fun he => other he.2]
    exact h.items
  · rw [Builder.build_node, Builder.build_nextBlock]
    rw [Builder.build_nextValue] at hn
    by_cases he : n = b.nextValue
    · subst he
      rw [Function.update_self]
      exact other
    · rw [Function.update_of_ne he]
      exact h.home n (by omega)

/-- The two blocks behind a bounds check: one that traps, and the one that goes on. -/
def guardBlocks (b : Builder) (c : Value) (trap : FuncRef) : Builder :=
  (((((b.createBlock.createBlock.terminate (.brcond c b.nextBlock (b.nextBlock + 1))).setBlock (b.nextBlock + 1)).build
    (.call trap [])).terminate .unreachable).setBlock b.nextBlock)

theorem extends_guardBlocks (b : Builder) (c : Value) (trap : FuncRef) : b.Extends (guardBlocks b c trap) :=
  ((((((Builder.extends_createBlock b).trans (Builder.extends_createBlock _)).trans (Builder.extends_terminate _ _)).trans
    (Builder.extends_setBlock _ _)).trans (Builder.extends_build _ _)).trans (Builder.extends_terminate _ _)).trans
    (Builder.extends_setBlock _ _)

/-- With an index in bounds the run goes on in the one, where the values are what they were. -/
theorem guardBlocks_runs {trap : FuncRef} (h : NextFree b) (hcur : b.cur = some k) (hB : (guardBlocks b c trap).Extends B)
    (hc : B.read σ c ≠ 0) :
    (guardBlocks b c trap).items b.nextBlock = [] ∧
    (∀ n < (guardBlocks b c trap).nextValue, (B.enter W ⟨k, true, b.nextBlock⟩ σ).reg n = σ.reg n) ∧
    ∀ fuel, B.runItems W (B.runEdge W (fuel + 1)) k ((B.items k).drop (b.items k).length) σ =
      B.runItems W (B.runEdge W fuel) b.nextBlock (B.items b.nextBlock) (B.enter W ⟨k, true, b.nextBlock⟩ σ) := by
  obtain ⟨k', hk', hlt⟩ := h.cur
  obtain rfl := Option.some.inj (hcur.symm.trans hk')
  have hk : k ≠ b.nextBlock := Nat.ne_of_lt hlt
  have branch : (guardBlocks b c trap).items k = b.items k ++ [.term (.brcond c b.nextBlock (b.nextBlock + 1))] := by
    have here : b.nextBlock + 1 ≠ k := Nat.ne_of_gt (Nat.lt_succ_of_lt hlt)
    simp [guardBlocks, Builder.terminate_items, Builder.build_items, hcur, here]
  have empty : (guardBlocks b c trap).items b.nextBlock = [] := by
    simp [guardBlocks, Builder.terminate_items, Builder.build_items, hcur, hk, h.items]
  refine ⟨empty, fun n hn => Builder.enter_reg ?_, fun fuel => ?_⟩
  · have grows := hB.node n hn
    rw [grows.inst.isPhi, grows.block]
    by_cases he : n = b.nextValue
    · subst he
      left
      simp [guardBlocks, Inst.isPhi]
    · right
      have old : n < b.nextValue := by
        have bound : (guardBlocks b c trap).nextValue = b.nextValue + 1 := by simp [guardBlocks]
        omega
      have same : (guardBlocks b c trap).node n = b.node n := by
        simp [guardBlocks, Function.update_of_ne he]
      rw [same]
      exact h.home n old
  · rw [Builder.runItems_term (branch ▸ hB.items k), Builder.runItems, if_neg hc]
    rfl

/-! ### The handlers -/

/-- In the graph `B` the code between two states runs, past `n` edges, to an outcome that the
view describes, and goes on from there. -/
def Leads (W : World) (B : Builder) (n : ℕ) (s t : EmitState) (σ : Machine) (o : Outcome Store View) : Prop :=
  ∃ k k' m, s.builder.cur = some k ∧ t.builder.cur = some k' ∧ Ends t o m ∧ ∀ fuel,
    B.runItems W (B.runEdge W (fuel + n)) k ((B.items k).drop (s.builder.items k).length) σ =
      m.bind (B.runItems W (B.runEdge W fuel) k' ((B.items k').drop (t.builder.items k').length))

/-- The helpers that a context declared. -/
def linked (W : World) (c : JitContext) (kind : HelperKind) : List Word → Store → Outcome Store (Word × Store) :=
  match c.helpers kind with
  | some f => W.call f
  | none => fun _ _ => .unknown

theorem links_linked (W : World) (c : JitContext) : Links (linked W c) W c := by
  intro k f hk
  rw [linked, hk]

variable {s t : EmitState}

/-- Straight-line code leads where it runs to. -/
theorem Runs.leads {m : Emit α} {a : α} {o : Outcome Store View} (h : ∀ helper, Runs helper W w m fun _ o' => o' = o) (hm : m s = some (a, t))
    (hw : w.Of s σ) (hB : t.builder.Extends B) (hf : B.Floats W σ) (hcur : s.builder.cur = some k) : Leads W B 0 s t σ o := by
  obtain ⟨hadds, hrun⟩ := h (linked W t.ctx) s a t hm
  obtain ⟨_, rfl, hends⟩ := hrun σ B hw hB (links_linked W t.ctx)
  exact ⟨k, k, _, hcur, hadds.builder.cur.trans hcur, hends, fun fuel => hadds.builder.runItems hB hcur hf⟩

/-- A prepared function is not prepared again. -/
theorem jitPrepareFunction_done {c c' : JitContext} {funcidx : ℕ} {f : JitFunction} (h : jitPrepareFunction funcidx c = some ((), c'))
    (hf : c.functions[funcidx]? = some f) (hinit : f.inited = true) : c' = c := by
  obtain ⟨g, hg, ⟨-, rfl⟩ | ⟨hinit', -⟩⟩ := jitPrepareFunction_cases h
  · rfl
  · rw [Option.some.inj (hg.symm.trans hf), hinit] at hinit'
    cases hinit'

variable {f : JitFunction} {type : Wasm.FuncType} {ts : List ValueType} {operands below : List (ValueType × Word)} {shared : Store}
  {d d' : JitState} {funcidx typeidx tableidx : ℕ} {code code' : Buffer}

/-- A direct call of a prepared function. -/
theorem jitWasmCall_leads (hpull : bufferPullU32 d.code = some (funcidx, code)) (h : jitWasmCall d = some ((), d'))
    (hf : d.ctx.functions[funcidx]? = some f) (hinit : f.inited = true) (htype : wasmGetFuncType d.ctx.module funcidx = some type)
    (hts : jitArgTypes type = some ts) (hops : operands.map Prod.fst = ts) (hcur : d.builder.cur = some k)
    (hw : View.Of { stack := operands.reverse ++ below, shared } d.toEmitState σ) (hB : d'.builder.Extends B) (hfloats : B.Floats W σ) :
    Leads W B 0 d.toEmitState d'.toEmitState σ (callView W f.spidir operands below shared) := by
  simp only [jitWasmCall, pull_bind_eq_some, emit_eq_some, Prod.mk.injEq] at h
  obtain ⟨_, _, hpull', _, e, he, -, rfl⟩ := h
  obtain ⟨rfl, rfl⟩ := Prod.mk.inj (Option.some.inj (hpull.symm.trans hpull'))
  simp only [context_bind_eq_some, read_bind, lift_bind_eq_some] at he
  obtain ⟨_, c, hprepare, f', hf', type', htype', hrest⟩ := he
  obtain rfl := jitPrepareFunction_done hprepare hf hinit
  obtain rfl := Option.some.inj (hf.symm.trans hf')
  obtain rfl := Option.some.inj (htype.symm.trans htype')
  obtain ⟨type', htype', hret, -⟩ := hw.ctx.function funcidx f hf hinit
  obtain rfl := Option.some.inj (htype.symm.trans htype')
  exact Runs.leads (fun _ => Runs.directCall hret hts hops rfl) hrest hw hB hfloats hcur

/-- The operand and the comparison of a bounds check. -/
def popBounded (length : ℕ) : Emit (Value × Value) := do
  let idx ← jitPop .i32
  let inBounds ← build (.icmp .ult .i32 idx (← build (.iconst .i32 (BitVec.ofNat 64 length))))
  return (idx, inBounds)

/-- What an index is, and that it is in bounds. -/
theorem Runs.popBounded {helper : HelperKind → List Word → Store → Outcome Store (Word × Store)} {length : ℕ} {x : Word}
    {rest : List (ValueType × Word)} (hw : w.stack = (.i32, x) :: rest) (hin : (x.setWidth 32).toNat < length % 2 ^ 32) :
    Runs helper W w (Jit.popBounded length) fun v o => ∃ n, o = .done ((({ w with stack := rest }.learn ⟨v.1, .i32, 32, x⟩).learn
      ⟨n, .i32, 32, BitVec.ofNat 64 length⟩).learn ⟨v.2, .i32, 32, 1⟩) := by
  have below : Icmp.ult.compute (x.setWidth 32) ((BitVec.ofNat 64 length).setWidth 32) = true := by
    have bound : ((BitVec.ofNat 64 length).setWidth 32).toNat = length % 2 ^ 32 := by
      rw [BitVec.toNat_setWidth, BitVec.toNat_ofNat, Nat.mod_mod_of_dvd length (by decide)]
    rw [Icmp.compute, BitVec.ult, bound]
    exact decide_eq_true hin
  apply bind (pop hw)
  intro idx
  apply bind (iconst _)
  intro n
  have known : ⟨idx, ValueType.i32, ValueType.i32.width, x⟩ ∈ (({ w with stack := rest }.learn ⟨idx, .i32, 32, x⟩).learn
      ⟨n, .i32, 32, BitVec.ofNat 64 length⟩).facts := by simp
  apply bind (icmp known (y := BitVec.ofNat 64 length) (Set.mem_insert _ _))
  intro c
  rw [ValueType.width_i32, below, if_pos rfl]
  exact pure ⟨n, rfl⟩

theorem popBounded_free {length : ℕ} {u : EmitState} {r : Value × Value} (h : popBounded length s = some (r, u)) (hs : NextFree s.builder) :
    NextFree u.builder := by
  simp only [popBounded, jitPop_bind_eq_some, build_bind, pure_eq_some, Prod.mk.injEq] at h
  obtain ⟨idx, l, ls, rest, -, -, -, rfl⟩ := h
  simp only [EmitState.withBuilder_builder, EmitState.withLabels_builder]
  exact (hs.build _).build _

/-- Popping an index and checking it leaves the block that was current for the one behind the check. -/
theorem guard_cases {β : Type} {length : ℕ} {f : Value → Emit β} {r : β × EmitState}
    (h : (do
      let idx ← jitPop .i32
      jitGuardIndex length idx
      f idx) s = some r) :
    ∃ idx c u trap ctx, popBounded length s = some ((idx, c), u) ∧ jitGetHelper .trap u.ctx = some (trap, ctx) ∧
      f idx { u with ctx, builder := guardBlocks u.builder c trap } = some r := by
  obtain ⟨idx, s₁, hpop, h⟩ := (bind_eq_some _ _ _ _).mp h
  simp only [jitGuardIndex, bind_assoc, build_bind, createBlock_bind, terminate_bind, setBlock_bind, jitEmitTrap, context_bind_eq_some] at h
  obtain ⟨trap, ctx, htrap, h⟩ := h
  refine ⟨idx, _, _, trap, ctx, (bind_eq_some _ _ _ _).mpr ⟨idx, s₁, hpop, rfl⟩, htrap, h⟩

/-- With an index in bounds a run reaches the block behind the check, where the operands are what they were. -/
theorem guard_leads {length : ℕ} {idx c : Value} {u : EmitState} {trap : FuncRef} {ctx : JitContext} {x : Word}
    {rest : List (ValueType × Word)} (hpop : popBounded length s = some ((idx, c), u)) (htrap : jitGetHelper .trap u.ctx = some (trap, ctx))
    (hfree : NextFree s.builder) (hcur : s.builder.cur = some k) (hw : w.Of s σ) (hstack : w.stack = (.i32, x) :: rest)
    (hin : (x.setWidth 32).toNat < length % 2 ^ 32) (hB : (guardBlocks u.builder c trap).Extends B) (hfloats : B.Floats W σ) :
    ∃ v : View, ∃ τ, v.Of { u with ctx, builder := guardBlocks u.builder c trap } τ ∧ v.stack = rest ∧ v.shared = w.shared ∧
      ⟨idx, .i32, 32, x⟩ ∈ v.facts ∧ B.Floats W τ ∧ ∀ fuel,
        B.runItems W (B.runEdge W (fuel + 1)) k ((B.items k).drop (s.builder.items k).length) σ =
          B.runItems W (B.runEdge W fuel) u.builder.nextBlock
            ((B.items u.builder.nextBlock).drop ((guardBlocks u.builder c trap).items u.builder.nextBlock).length) τ := by
  have extends' := extends_guardBlocks u.builder c trap
  have popped : Runs (linked W u.ctx) W w (popBounded length) _ := Runs.popBounded hstack hin
  obtain ⟨hadds, hrun⟩ := popped s (idx, c) u hpop
  obtain ⟨_, ⟨n, rfl⟩, hends⟩ := hrun σ B hw (extends'.trans hB) (links_linked W u.ctx)
  have exec (fuel : ℕ) : B.runItems W (B.runEdge W (fuel + 1)) k _ σ = _ := hadds.builder.runItems (extends'.trans hB) hcur hfloats
  rcases he : B.exec W (s.builder.since u.builder) σ with τ | _ | _ | _ <;> simp only [he, Ends] at hends
  have reached := hadds.builder.cur.trans hcur
  have taken : B.read τ c ≠ 0 := by
    have one := (hends.facts ⟨c, .i32, 32, 1⟩ (Set.mem_insert _ _)).keeps (extends'.trans hB)
    rw [one]
    decide
  obtain ⟨hempty, hregs, hgoes⟩ := guardBlocks_runs (W := W) (popBounded_free hpop hfree) reached hB taken
  obtain ⟨hok, -⟩ := jitGetHelper_ok htrap hends.ctx
  have older : ∀ m < u.builder.nextValue, (B.enter W ⟨k, true, u.builder.nextBlock⟩ τ).reg m = τ.reg m :=
    fun m hm => hregs m (hm.trans_le extends'.nextValue)
  refine ⟨_, _, hends.mono (t := { u with ctx, builder := guardBlocks u.builder c trap }) hok extends' rfl older, rfl, hends.shared,
    by simp, Builder.enter_floats (hfloats.exec he) _, fun fuel => ?_⟩
  rw [exec, he, Outcome.done_bind, hgoes, hempty]
  rfl

/-- An indirect call with an index in bounds calls what the slot holds. -/
theorem jitWasmCallIndirect_leads {s s' : JitState} {table : JitTable} {ret : ValueType} {x a : Word}
    (hpull : bufferPullU32 s.code = some (typeidx, code)) (hpull' : bufferPullU32 code = some (tableidx, code'))
    (h : jitWasmCallIndirect s = some ((), s')) (htype : s.ctx.module.types[typeidx]? = some type)
    (htable : s.ctx.tables[tableidx]? = some table) (hret : jitRetType type = some ret) (hts : jitArgTypes type = some ts)
    (hops : operands.map Prod.fst = ts) (hfree : NextFree s.builder)
    (hw : View.Of { stack := (.i32, x) :: (operands.reverse ++ below), shared } s.toEmitState σ) (hB : s'.builder.Extends B)
    (hfloats : B.Floats W σ) (hin : (x.setWidth 32).toNat < table.length % 2 ^ 32)
    (hslot : shared.mem.load (tableSlot W table.global x).toNat 8 = some (a.toBytes 8)) :
    Leads W B 1 s.toEmitState s'.toEmitState σ
      ((W.callind a (W.param 0 :: W.param 1 :: BitVec.ofNat 64 typeidx :: operands.map fun p => Word.fill p.1.width p.2 0)
        (shared.touch (tableSlot W table.global x).toNat 8)).bind fun p => .done { stack := results ret p.1 ++ below, shared := p.2 }) := by
  simp only [jitWasmCallIndirect, pull_bind_eq_some, emit_eq_some, Prod.mk.injEq] at h
  obtain ⟨_, _, hp, _, _, hp', _, e, he, -, rfl⟩ := h
  obtain ⟨rfl, rfl⟩ := Prod.mk.inj (Option.some.inj (hpull.symm.trans hp))
  obtain ⟨rfl, rfl⟩ := Prod.mk.inj (Option.some.inj (hpull'.symm.trans hp'))
  simp only [read_bind, lift_bind_eq_some, check_bind_eq_some, context_bind_eq_some, update_eq_some, Prod.mk.injEq, true_and,
    exists_eq_left] at he
  obtain ⟨type', htype', -, table', htable', he⟩ := he
  obtain rfl := Option.some.inj (htype.symm.trans htype')
  obtain rfl := Option.some.inj (htable.symm.trans htable')
  obtain ⟨_, he⟩ := he
  obtain ⟨idx, c, u, trap, ctx, hpop, htrap, hrest⟩ := guard_cases he
  set s₀ : EmitState := { s.toEmitState with
    ctx := { s.ctx with tables := s.ctx.tables.modify tableidx fun t => { t with used := true } } }
  have start : View.Of { stack := (.i32, x) :: (operands.reverse ++ below), shared } s₀ σ :=
    ⟨⟨hw.ctx.function, hw.ctx.helper⟩, hw.params, hw.facts, hw.stack, hw.shared⟩
  obtain ⟨k, hcur, -⟩ := hfree.cur
  have runs (v : View) (hstack : v.stack = operands.reverse ++ below) (hshared : v.shared = shared) (hidx : ⟨idx, .i32, 32, x⟩ ∈ v.facts)
      (helper) : Runs helper W v _ _ := Runs.indirectCall typeidx hret hts hops hstack hidx (hshared.symm ▸ hslot)
  have added := (runs { facts := {⟨idx, .i32, 32, x⟩}, stack := operands.reverse ++ below, shared } rfl rfl rfl (linked W e.ctx) _ _ _ hrest).1
  obtain ⟨v, τ, hv, hstack, hshared, hidx, hτ, hgoes⟩ := guard_leads hpop htrap hfree hcur start rfl hin (added.builder.grows.trans hB) hfloats
  obtain ⟨k₁, k', m, hk₁, hk', hends, hrun⟩ := Runs.leads (runs v hstack hshared hidx) hrest hv hB hτ rfl
  obtain rfl := Option.some.inj (hk₁.symm.trans (rfl : _ = some u.builder.nextBlock))
  rw [hshared] at hends
  exact ⟨k, k', m, hcur, hk', hends, fun fuel => (hgoes fuel).trans (hrun fuel)⟩

end SpidirWasm.Jit
