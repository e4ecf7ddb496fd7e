import SpidirWasm.Jit.Calls
import SpidirWasm.Jit.CfiThunk
import SpidirWasm.Jit.EmitModule
import SpidirWasm.Jit.MemoryAccess

/-! An indirect call against a direct one. Both deliver the bases and the operands to the
callee in the order of its parameters and leave its result on the same stack. -/

namespace SpidirWasm.Jit

open Checked
open Spidir
open Wasm (WasmModule FuncType Name)
open Relation (ReflTransGen)

/-- The immediate of a direct call, behind its opcode. -/
def pullCall : Pull ℕ := do
  let _ ← bufferPullU8
  bufferPullU32

/-- The immediates of an indirect call, behind its opcode. -/
def pullCallIndirect : Pull (ℕ × ℕ) := do
  let _ ← bufferPullU8
  let typeidx ← bufferPullU32
  let tableidx ← bufferPullU32
  return (typeidx, tableidx)

variable {W : World} {operands : List (ValueType × Word)} {ts : List ValueType} {s t : JitState} {code : Buffer} {funcidx typeidx tableidx : ℕ}

theorem jitWasmOpcode_call (hlive : s.live = true) (hop : s.code.data.head? = some 0x10) (hpull : pullCall s.code = some (funcidx, code))
    (h : jitWasmOpcode s = some ((), t)) :
    ∃ c, bufferPullU32 c = some (funcidx, code) ∧ jitWasmCall { s with code := c } = some ((), t) := by
  obtain ⟨opcode, c, hopcode, h⟩ := jitWasmOpcode_live hlive h
  obtain ⟨hdata, -⟩ := (bufferPullU8_eq_some _ _).mp hopcode
  obtain rfl : opcode = 0x10 := by simpa [hdata] using hop
  obtain ⟨_, c', hopcode', himm⟩ := (bind_eq_some _ _ _ _).mp hpull
  obtain ⟨rfl, rfl⟩ := Prod.mk.inj (Option.some.inj (hopcode.symm.trans hopcode'))
  exact ⟨c, himm, h⟩

theorem jitWasmOpcode_callIndirect (hlive : s.live = true) (hop : s.code.data.head? = some 0x11)
    (hpull : pullCallIndirect s.code = some ((typeidx, tableidx), code)) (h : jitWasmOpcode s = some ((), t)) :
    ∃ c c', bufferPullU32 c = some (typeidx, c') ∧ bufferPullU32 c' = some (tableidx, code) ∧
      jitWasmCallIndirect { s with code := c } = some ((), t) := by
  obtain ⟨opcode, c, hopcode, h⟩ := jitWasmOpcode_live hlive h
  obtain ⟨hdata, -⟩ := (bufferPullU8_eq_some _ _).mp hopcode
  obtain rfl : opcode = 0x11 := by simpa [hdata] using hop
  obtain ⟨_, c', hopcode', himm⟩ := (bind_eq_some _ _ _ _).mp hpull
  obtain ⟨rfl, rfl⟩ := Prod.mk.inj (Option.some.inj (hopcode.symm.trans hopcode'))
  obtain ⟨_, c', htypeidx, himm'⟩ := (bind_eq_some _ _ _ _).mp himm
  obtain ⟨_, c'', htableidx, himm''⟩ := (bind_eq_some _ _ _ _).mp himm'
  obtain ⟨he, rfl⟩ := Prod.mk.inj (Option.some.inj himm'')
  obtain ⟨rfl, rfl⟩ := Prod.mk.inj he
  exact ⟨c, c', htypeidx, htableidx, h⟩

/-- The table of an indirect call is there. -/
theorem jitWasmCallIndirect_table {c c' : Buffer} (htypeidx : bufferPullU32 c = some (typeidx, c'))
    (htableidx : bufferPullU32 c' = some (tableidx, code)) (h : jitWasmCallIndirect { s with code := c } = some ((), t)) :
    ∃ table, s.ctx.tables[tableidx]? = some table := by
  simp only [jitWasmCallIndirect, pull_bind_eq_some, emit_eq_some, Prod.mk.injEq] at h
  obtain ⟨_, _, hp, _, _, hp', _, e, he, -, -⟩ := h
  obtain ⟨rfl, rfl⟩ := Prod.mk.inj (Option.some.inj (htypeidx.symm.trans hp))
  obtain ⟨rfl, rfl⟩ := Prod.mk.inj (Option.some.inj (htableidx.symm.trans hp'))
  simp only [read_bind, lift_bind_eq_some, check_bind_eq_some] at he
  obtain ⟨_, -, -, table, htable, -⟩ := he
  exact ⟨table, htable⟩

/-- What the thunk reads back of the operands it is passed. -/
theorem passed_operands (hops : operands.map Prod.fst = ts) (bases : List Word) (hbases : bases.length = 3) (junk : ℕ → Word) :
    ((List.range ts.length).map fun j => Word.fill (ts.getD j .none).width
      ((W.inside (bases ++ operands.map fun p => Word.fill p.1.width p.2 0) junk).param (3 + j)) 0) =
      operands.map fun p => Word.fill p.1.width p.2 0 := by
  subst hops
  apply List.ext_getElem
  · simp
  intro j hj hj'
  have hlt : j < operands.length := by simpa using hj'
  have word : (bases ++ operands.map fun p => Word.fill p.1.width p.2 0).getD (3 + j) 0 =
      Word.fill operands[j].1.width operands[j].2 0 := by
    rw [List.getD_eq_getElem?_getD, List.getElem?_append_right (by omega), hbases, Nat.add_sub_cancel_left]
    simp [hlt]
  have type : (operands.map Prod.fst).getD j .none = operands[j].1 := by
    simp [List.getD_eq_getElem?_getD, hlt]
  rw [List.getElem_map, List.getElem_map, List.getElem_range, type]
  show Word.fill _ ((bases ++ operands.map fun p => Word.fill p.1.width p.2 0).getD (3 + j) 0) 0 = _
  rw [word]
  exact Word.fill_congr (Word.setWidth_fill _ _ _) 0

/-- The first context has nothing prepared. -/
theorem jitPrepareState_ok {m : WasmModule} {resolveImport : Option Name → Option Name → FuncType → Option ℕ} {stateSize : ℕ}
    {c : JitContext} (h : jitPrepareState (startContext m resolveImport) = some (c, stateSize)) : c.Ok := by
  simp only [jitPrepareState, Option.bind_eq_bind, Option.pure_def, Option.bind_eq_some_iff, Option.some.injEq, Prod.mk.injEq] at h
  obtain ⟨⟨globals, stop⟩, -, rfl, -⟩ := h
  refine ⟨fun i f hf hinit => ?_, fun k f hk => by cases hk⟩
  rw [List.eq_of_mem_replicate (List.mem_of_getElem? hf)] at hinit
  cases hinit

theorem wasmGetFuncType_of_index {m : WasmModule} {typeidx : ℕ} (h : funcTypeIndex m funcidx = some typeidx) :
    wasmGetFuncType m funcidx = m.types[typeidx]? := by
  unfold wasmGetFuncType
  unfold funcTypeIndex at h
  split_ifs at h ⊢ <;> simp [h]

/-- A result that was cut down to its type shows the same. -/
theorem Ends.uncut {x : Outcome Store (Word × Store)} {ret : ValueType} {below : List (ValueType × Word)} {t : EmitState}
    {o : Outcome Store Machine}
    (h : Ends t (x.bind fun p => .done { stack := results ret (Word.fill ret.width p.1 0) ++ below, shared := p.2 }) o) :
    Ends t (x.bind fun p => .done { stack := results ret p.1 ++ below, shared := p.2 }) o := by
  rcases x with ⟨r, u⟩ | u | u | _
  · rcases o with τ | _ | _ | _ <;> simp only [Outcome.done_bind, Ends] at h ⊢
    by_cases hret : ret = .none
    · simp only [results, if_pos hret] at h ⊢
      exact h
    · simp only [results, if_neg hret] at h ⊢
      obtain ⟨l, ls, hl, hstack⟩ := h.stack
      rw [List.cons_append] at hstack
      obtain ⟨v, vs, ⟨hv, n, hn, hlt, ht, hx⟩, hvs, he⟩ := List.forall₂_cons_right_iff.mp hstack
      refine ⟨h.ctx, h.params, h.facts, ⟨l, ls, hl, ?_⟩, h.shared⟩
      rw [he]
      exact .cons ⟨hv, n, hn, hlt, ht, hx.trans (Word.setWidth_fill _ _ _)⟩ hvs
  · exact h
  · exact h
  · exact h

theorem Leads.uncut {B : Builder} {n : ℕ} {σ : Machine} {x : Outcome Store (Word × Store)} {ret : ValueType}
    {below : List (ValueType × Word)} {s t : EmitState}
    (h : Leads W B n s t σ (x.bind fun p => .done { stack := results ret (Word.fill ret.width p.1 0) ++ below, shared := p.2 })) :
    Leads W B n s t σ (x.bind fun p => .done { stack := results ret p.1 ++ below, shared := p.2 }) := by
  obtain ⟨k, k', o, hk, hk', hends, hrun⟩ := h
  exact ⟨k, k', o, hk, hk', hends.uncut, hrun⟩

/-- In any run of the emission, an indirect call that reaches the thunk of a function with the id
of its type does what a direct call of the function does: the callee is passed the memory base, the
state base and the operands in the order of its parameters, and its result is left on the stack
below the operands. -/
theorem call_indirect_calls {m : WasmModule} {resolveImport : Option Name → Option Name → FuncType → Option ℕ} {stateSize : ℕ}
    {start c c₁ c' a b : JitContext} {id caller caller' : ℕ} {queue queue' : List ℕ} {d d' s s' : JitState} {code code' : Buffer}
    (hstart : jitPrepareState (startContext m resolveImport) = some (start, stateSize)) (hbefore : ReflTransGen ModuleStep start c)
    (hprepare : jitPrepareFunction funcidx c = some ((), c₁)) (hthunk : jitCreateCfiThunk funcidx c₁ = some (id, c'))
    -- a direct call in a function that is translated later
    (ha : ReflTransGen ModuleStep c' a) (hd : Between (fun _ _ => True) { a with queue } caller d) (hdlive : d.live = true)
    (hdop : d.code.data.head? = some 0x10) (hdpull : pullCall d.code = some (funcidx, code)) (hcall : jitWasmOpcode d = some ((), d'))
    -- and an indirect one, of the type that the function has
    (hb : ReflTransGen ModuleStep c' b) (hs : Between (fun _ _ => True) { b with queue := queue' } caller' s) (hslive : s.live = true)
    (hsop : s.code.data.head? = some 0x11) (hspull : pullCallIndirect s.code = some ((typeidx, tableidx), code'))
    (hcallind : jitWasmOpcode s = some ((), s')) (htype : funcTypeIndex m funcidx = some typeidx) :
    ∃ callee thunk type ts table, (c'.functions[funcidx]?).map JitFunction.spidir = some callee ∧ c'.spidir.bodies id = some thunk ∧
      m.types[typeidx]? = some type ∧ jitArgTypes type = some ts ∧ s.ctx.tables[tableidx]? = some table ∧
      ∀ (W V : World) (operands below : List (ValueType × Word)), operands.map Prod.fst = ts →
        (∀ B σ shared, View.Of { stack := operands.reverse ++ below, shared } d.toEmitState σ → d'.builder.Extends B → B.Floats W σ →
          Leads W B 0 d.toEmitState d'.toEmitState σ (callView W callee operands below shared)) ∧
        ∀ B σ x shared addr junk fuel, View.Of { stack := (.i32, x) :: (operands.reverse ++ below), shared } s.toEmitState σ →
          s'.builder.Extends B → B.Floats W σ → (x.setWidth 32).toNat < table.length % 2 ^ 32 →
          shared.mem.load (tableSlot W table.global x).toNat 8 = some (addr.toBytes 8) →
          V.call = W.call → (∀ args u, W.callind addr args u = thunk.run (V.inside args junk) (fuel + 1) u) →
          Leads W B 1 s.toEmitState s'.toEmitState σ
            (callView W callee operands below (shared.touch (tableSlot W table.global x).toNat 8)) := by
  have before : ReflTransGen ModuleStep start c₁ := hbefore.tail (.prepare hprepare)
  obtain ⟨hkept, hok⟩ := moduleRun_prepared before
  obtain ⟨-, hm, -, -, -⟩ := emission_start hstart
  have hmodule : c₁.module = m := hkept.module.trans hm
  obtain ⟨hok₁, -, f, hf, hinit⟩ := jitPrepareFunction_ok hprepare ((moduleRun_prepared hbefore).2 (jitPrepareState_ok hstart))
  obtain ⟨hchanges, type, typeId, ts, c₀, t, hget, htypeId, hts, ht, hbody⟩ := jitCreateCfiThunk_cases hf hthunk hinit
  obtain ⟨hkept₁, hok'⟩ := changes_prepared hchanges
  rw [hmodule] at hget htypeId
  obtain rfl := Option.some.inj (htype.symm.trans htypeId)
  obtain ⟨f', hf', hinit', hspidir⟩ := hkept₁.prepared funcidx f hf hinit
  have htypes : m.types[typeidx]? = some type := (wasmGetFuncType_of_index htype).symm.trans (wasmGetFuncType_of_getFunc hget)
  -- where the two calls are translated
  have reached {e : JitContext} {queue : List ℕ} {i : ℕ} {u : JitState} (he : ReflTransGen ModuleStep c' e)
      (hu : Between (fun _ _ => True) { e with queue } i u) : JitContext.Ok { e with queue } ∧ u.ctx.module = m ∧
      ∃ g, u.ctx.functions[funcidx]? = some g ∧ g.inited = true ∧ g.spidir = f.spidir := by
    obtain ⟨hkept₂, hok₂⟩ := moduleRun_prepared he
    have queued : e.Keeps { e with queue } := Keeps.of_eq rfl rfl
    have later := (hkept₂.trans queued).trans hu.keeps_prepared
    obtain ⟨g, hg, hginit, hgspidir⟩ := later.prepared funcidx f' hf' hinit'
    have hc := hok₂ (hok' hok₁)
    exact ⟨⟨hc.function, hc.helper⟩, (later.module.trans hkept₁.module).trans hmodule, g, hg, hginit, hgspidir.trans hspidir⟩
  obtain ⟨hdctx, hdmodule, g, hg, hginit, hgspidir⟩ := reached ha hd
  obtain ⟨hsctx, hsmodule, -⟩ := reached hb hs
  obtain ⟨hdcode, hdp, hdrun⟩ := jitWasmOpcode_call hdlive hdop hdpull hcall
  obtain ⟨scode, scode', hsp, hsp', hsrun⟩ := jitWasmOpcode_callIndirect hslive hsop hspull hcallind
  obtain ⟨table, htable⟩ := jitWasmCallIndirect_table hsp hsp' hsrun
  obtain ⟨trap, hthunkBody⟩ := jitBuildCfiThunk_eq ht
  obtain ⟨type', htype', hret, -⟩ := hok₁.function funcidx f hf hinit
  rw [hmodule, wasmGetFuncType_of_index htype, htypes] at htype'
  obtain rfl := Option.some.inj htype'
  refine ⟨f.spidir, t.builder, type, ts, table, by rw [hf', Option.map_some, hspidir], hbody, htypes, hts, htable,
    fun W V operands below hops => ⟨fun B σ shared hw hB hfloats => ?_, fun B σ x shared addr junk fuel hw hB hfloats hin hslot hV hind => ?_⟩⟩
  · obtain ⟨k, hcur, -⟩ := (hd.shaped hdctx).nextFree.cur
    have htyped : wasmGetFuncType d.ctx.module funcidx = some type := by rw [hdmodule, wasmGetFuncType_of_index htype, htypes]
    rw [← hgspidir]
    exact jitWasmCall_leads (d := { d with code := hdcode }) hdp hdrun hg hginit htyped hts hops hcur hw hB hfloats
  · have leads := jitWasmCallIndirect_leads (W := W) (s := { s with code := scode }) hsp hsp' hsrun (hsmodule ▸ htypes) htable hret hts hops
      (hs.shaped hsctx).nextFree hw hB hfloats hin hslot
    have thunk : Thunk ts typeidx type.argTypes.length f.spidir t.builder := by
      rw [hthunkBody]
      exact thunkGraph_thunk _ _ _ _ ts
    have same := passed_operands (W := V) hops [W.param 0, W.param 1, BitVec.ofNat 64 typeidx] rfl junk
    have called (u : Store) : W.callind addr (W.param 0 :: W.param 1 :: BitVec.ofNat 64 typeidx :: operands.map fun p => Word.fill p.1.width p.2 0) u =
        (W.call f.spidir (W.param 0 :: W.param 1 :: operands.map fun p => Word.fill p.1.width p.2 0) u).bind fun p =>
          .done (Word.fill f.spidir.ret.width p.1 0, p.2) := by
      rw [hind, thunk.run rfl, ← (mapM_get hts).1, ← hV]
      exact congrArg (fun args => (V.call f.spidir (W.param 0 :: W.param 1 :: args) u).bind _) same
    rw [called, Outcome.bind_assoc] at leads
    exact Leads.uncut leads

/-- A function in a table, one that calls it with 7, and one that does so through the table. -/
def callModule : WasmModule where
  types := [⟨[.i32], [.i32]⟩]
  functions := [0, 0, 0]
  tables := [⟨1, 1⟩]
  code := some [[0x00, 0x20, 0x00, 0x0B], [0x00, 0x41, 0x07, 0x10, 0x00, 0x0B], [0x00, 0x41, 0x07, 0x41, 0x00, 0x11, 0x00, 0x00, 0x0B]]

/-- The context behind the tables, with the slot of the function and what was created so far. -/
def callContext (f : JitFunction) (queue : List ℕ) (spidir : SpidirModule) : JitContext :=
  { startContext callModule fun _ _ _ => none with functions := [f, {}, {}], tables := [{ global := 0, length := 1 }], queue, spidir }

def addOne : FuncRef := ⟨false, 0, .i32, [.ptr, .ptr, .i32]⟩

def trapRef : FuncRef := ⟨true, 0, .none, []⟩

def calleeThunk : Builder := thunkGraph [.ptr, .ptr, .i64, .i32] 0 1 addOne trapRef

def afterThunk : JitContext := { callContext { spidir := addOne, inited := true, hasCfi := true, cfiThunk := 1 } [0]
    { functions := 2, externFunctions := 1, externGlobals := 1, bodies := Function.update (fun _ => none) 1 (some calleeThunk) } with
  helpers := Function.update (fun _ => none) .trap (some trapRef) }

theorem calleeThunk_made : jitCreateCfiThunk 0 (callContext { spidir := addOne, inited := true } [0] { functions := 1, externGlobals := 1 }) =
    some (1, afterThunk) := by
  set created := callContext { spidir := addOne, inited := true, hasCfi := true, cfiThunk := 1 } [0] { functions := 2, externGlobals := 1 }
  have trap : jitGetHelper .trap created = some (trapRef, _) := rfl
  have built : buildGraph [.ptr, .ptr, .i64, .i32] (jitBuildCfiThunk 0 1 addOne) created = some (calleeThunk, _) :=
    congrArg (Option.map fun r : Unit × EmitState => (r.2.builder, r.2.ctx)) (jitBuildCfiThunk_run trap)
  have rest : jitCreateCfiThunk 0 (callContext { spidir := addOne, inited := true } [0] { functions := 1, externGlobals := 1 }) =
      (buildGraph [.ptr, .ptr, .i64, .i32] (jitBuildCfiThunk 0 1 addOne) >>= fun body => setBody 1 body >>= fun _ => pure 1) created := rfl
  rw [rest]
  exact (bind_eq_some _ _ _ _).mpr ⟨calleeThunk, _, built, rfl⟩

/-- In front of the direct call, with 7 on the stack. -/
def beforeCall : JitState where
  ctx := { afterThunk with queue := [] }
  func := { locals := [⟨some 0, .i32⟩], retType := .i32, labels := [{ stack := [⟨some 1, .i32⟩] }] }
  builder := (((({ params := [.ptr, .ptr, .i32] } : Builder).build (.param 2)).createBlock.setEntryBlock 0).setBlock 0).build (.iconst .i32 7)
  code := ⟨7, [0x10, 0x00, 0x0B]⟩

/-- In front of the indirect call, with the index above. -/
def beforeCallIndirect : JitState where
  ctx := { afterThunk with queue := [] }
  func := { locals := [⟨some 0, .i32⟩], retType := .i32, labels := [{ stack := [⟨some 2, .i32⟩, ⟨some 1, .i32⟩] }] }
  builder := ((((({ params := [.ptr, .ptr, .i32] } : Builder).build (.param 2)).createBlock.setEntryBlock 0).setBlock 0).build
    (.iconst .i32 7)).build (.iconst .i32 0)
  code := ⟨0, [0x11, 0x00, 0x00, 0x0B]⟩

/-- The addOne adds one; the first slot of the table holds the address of its thunk. -/
def callWorld : World where
  call _ args s := .done (args.getD 2 0 + 1, s)
  callind _ args s := calleeThunk.run (World.inside { call := fun _ args s => .done (args.getD 2 0 + 1, s) } args fun _ => 0) 1 s

def callMemory : Store := { mem := fun a => (Word.toBytes 8 4096)[a]? }

theorem afterThunk_ok : JitContext.Ok { afterThunk with queue := [] } := by
  refine ⟨fun i f hf hinit => ?_, fun k f hk => ?_⟩
  · match i with
    | 0 =>
      cases hf
      exact ⟨⟨[.i32], [.i32]⟩, rfl, rfl, rfl⟩
    | 1 | 2 =>
      cases hf
      cases hinit
    | _ + 3 => cases hf
  · by_cases h : k = .trap
    · subst h
      cases hk
      rfl
    · have away : Function.update (fun _ => none) HelperKind.trap (some trapRef) k = none := Function.update_of_ne h _ _
      cases away.symm.trans hk

theorem call_indirect_calls_callee : ∃ d' s', jitWasmOpcode beforeCall = some ((), d') ∧ jitWasmOpcode beforeCallIndirect = some ((), s') ∧
    Leads callWorld d'.builder 0 beforeCall.toEmitState d'.toEmitState (d'.builder.start callWorld callMemory)
      (.done { stack := [(.i32, 8)], shared := callMemory }) ∧
    Leads callWorld s'.builder 1 beforeCallIndirect.toEmitState s'.toEmitState (s'.builder.start callWorld callMemory)
      (.done { stack := [(.i32, 8)], shared := callMemory.touch 0 8 }) := by
  have enter : Between (fun _ _ => True) { afterThunk with queue := [] } 1 _ := .enter rfl rfl rfl
  have hd : Between (fun _ _ => True) { afterThunk with queue := [] } 1 beforeCall :=
    .step enter (by decide) (by decide) (fun _ _ _ _ => trivial) rfl
  have enter' : Between (fun _ _ => True) { afterThunk with queue := [] } 2 _ := .enter rfl rfl rfl
  have const : Between (fun _ _ => True) { afterThunk with queue := [] } 2 _ :=
    .step enter' (by decide) (by decide) (fun _ _ _ _ => trivial) rfl
  have hs : Between (fun _ _ => True) { afterThunk with queue := [] } 2 beforeCallIndirect :=
    .step const (by decide) (by decide) (fun _ _ _ _ => trivial) rfl
  have start : jitPrepareState (startContext callModule fun _ _ _ => none) = some (startContext callModule fun _ _ _ => none, 0) := rfl
  have table : jitPrepareTable 0 (startContext callModule fun _ _ _ => none) = some ((), callContext {} [] { externGlobals := 1 }) := rfl
  have prepare : jitPrepareFunction 0 (callContext {} [] { externGlobals := 1 }) =
    some ((), callContext { spidir := addOne, inited := true } [0] { functions := 1, externGlobals := 1 }) := rfl
  have calls : (jitWasmOpcode beforeCall).map (fun r => ((r.2.builder.node 1).inst, (r.2.builder.node 1).type)) = some (.iconst .i32 7, .i32) := by decide +kernel
  have callsIndirect : (jitWasmOpcode beforeCallIndirect).map (fun r => (((r.2.builder.node 1).inst, (r.2.builder.node 1).type),
    (r.2.builder.node 2).inst, (r.2.builder.node 2).type)) = some ((.iconst .i32 7, .i32), .iconst .i32 0, .i32) := by decide +kernel
  obtain ⟨⟨_, d'⟩, hd', hseven⟩ := Option.map_eq_some_iff.mp calls
  obtain ⟨⟨_, s'⟩, hs', hnodes⟩ := Option.map_eq_some_iff.mp callsIndirect
  obtain ⟨hseven', hzero⟩ := Prod.mk.inj hnodes
  obtain ⟨f, thunk, type, ts, tab, hf, hthunk, htype, hts, htab, all⟩ := call_indirect_calls start (.single (.table table)) prepare
    calleeThunk_made .refl hd rfl rfl rfl hd' .refl hs rfl rfl rfl hs' rfl
  obtain rfl : addOne = f := Option.some.inj hf
  obtain rfl : calleeThunk = thunk := Option.some.inj hthunk
  obtain rfl : (⟨[.i32], [.i32]⟩ : FuncType) = type := Option.some.inj htype
  obtain rfl : [ValueType.i32] = ts := Option.some.inj hts
  obtain rfl : ({ global := 0, length := 1 } : JitTable) = tab := Option.some.inj htab
  obtain ⟨direct, indirect⟩ := all callWorld { call := callWorld.call } [(.i32, 7)] [] rfl
  refine ⟨d', s', hd', hs', ?_, ?_⟩
  · refine direct d'.builder _ callMemory ?_ (.refl _) (Builder.start_floats _)
    refine ⟨afterThunk_ok, ⟨rfl, rfl⟩, fun _ h => h.elim, ⟨_, _, rfl, .cons ⟨rfl, _, rfl, by decide, rfl, ?_⟩ .nil⟩, rfl⟩
    exact Builder.start_iconst _ hseven rfl
  · refine indirect s'.builder _ 0 callMemory 4096 (fun _ => 0) 0 ?_ (.refl _) (Builder.start_floats _) (by decide) ?_ rfl fun _ _ => rfl
    · refine ⟨afterThunk_ok, ⟨rfl, rfl⟩, fun _ h => h.elim,
        ⟨_, _, rfl, .cons ⟨rfl, _, rfl, by decide, rfl, ?_⟩ (.cons ⟨rfl, _, rfl, by decide, rfl, ?_⟩ .nil)⟩, rfl⟩
      · exact Builder.start_iconst _ hzero rfl
      · exact Builder.start_iconst _ hseven' rfl
    · rfl

end SpidirWasm.Jit
