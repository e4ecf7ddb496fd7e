import SpidirWasm.Jit.EmitSpidir

/-! Which functions the emission of a module builds. The ids that spidir has given out are
those of the bodies built so far and of the functions in the queue, each of them once; the
bodies refer to helpers, prepared functions and used tables only. -/

namespace SpidirWasm.Jit

open Checked
open Spidir (Builder Inst Value ValueType Block FuncRef)
open Wasm (WasmModule FuncType Name)
open Relation (ReflTransGen)

/-- The id that a function was prepared with. -/
def JitContext.functionId (c : JitContext) (funcidx : ℕ) : ℕ := (c.functions[funcidx]?.getD {}).spidir.id

/-- All that a graph refers to is there. -/
def RefsOk (c : JitContext) (b : Builder) : Prop := ∀ n, c.Provides (b.node n).inst

/-- Between two steps of the emission: the bodies of the functions `built` are there, and
those of the functions `pending` are being built. -/
structure Emission (pending built : List ℕ) (c : JitContext) : Prop where
  ids : (pending ++ built ++ c.queue.map c.functionId).Perm (List.range c.spidir.functions)
  bodies : ∀ id, (c.spidir.bodies id).isSome ↔ id ∈ built
  queued : ∀ i ∈ c.queue, ∃ f, c.functions[i]? = some f ∧ f.inited = true
  helpers : ∀ kind func, c.helpers kind = some func → func.external = true
  refs : ∀ id body, c.spidir.bodies id = some body → RefsOk c body

/-- The function has a thunk. -/
def JitContext.Thunked (c : JitContext) (funcidx : ℕ) : Prop := ∃ f, c.functions[funcidx]? = some f ∧ f.hasCfi = true

/-- Where a table is, and how long. -/
def JitTable.place (t : JitTable) : ℕ × ℕ := (t.global, t.length)

/-- What the emission of bodies does not take back. -/
structure JitContext.Grows (c c' : JitContext) : Prop where
  module : c'.module = c.module
  functions : c'.functions.length = c.functions.length
  globals : c'.spidir.externGlobals = c.spidir.externGlobals
  tables : c'.tables.map JitTable.place = c.tables.map JitTable.place
  thunked : ∀ i, c.Thunked i → c'.Thunked i

theorem JitContext.Grows.refl (c : JitContext) : c.Grows c := ⟨rfl, rfl, rfl, rfl, fun _ => id⟩

theorem JitContext.Grows.trans {c c' c'' : JitContext} (h : c.Grows c') (h' : c'.Grows c'') : c.Grows c'' :=
  ⟨h'.module.trans h.module, h'.functions.trans h.functions, h'.globals.trans h.globals, h'.tables.trans h.tables, fun i hi => h'.thunked i (h.thunked i hi)⟩

variable {c c' : JitContext} {pending built : List ℕ} {funcidx : ℕ}

/-- A queued function is prepared, so that a preparation does not change it. -/
theorem Emission.map_functionId (h : Emission pending built c) {f g : JitFunction} (hf : c.functions[funcidx]? = some f)
    (hinit : f.inited = false) (hfunctions : c'.functions = c.functions.set funcidx g) :
    c.queue.map c'.functionId = c.queue.map c.functionId ∧ ∀ i ∈ c.queue, c'.functions[i]? = c.functions[i]? := by
  have other : ∀ i ∈ c.queue, c'.functions[i]? = c.functions[i]? := by
    intro i hi
    obtain ⟨f', hf', hinit'⟩ := h.queued i hi
    have ne : funcidx ≠ i := by
      rintro rfl
      rw [Option.some.inj (hf.symm.trans hf'), hinit'] at hinit
      cases hinit
    rw [hfunctions, List.getElem?_set_ne ne]
  refine ⟨List.map_congr_left fun i hi => ?_, other⟩
  rw [JitContext.functionId, other i hi, JitContext.functionId]

/-- A step of the context keeps it. -/
theorem ContextStep.emission (hs : ContextStep c c') (h : Emission pending built c) : Emission pending built c' := by
  have bodies (spidir : c'.spidir.bodies = c.spidir.bodies) : ∀ id, (c'.spidir.bodies id).isSome ↔ id ∈ built := spidir ▸ h.bodies
  have refs (spidir : c'.spidir.bodies = c.spidir.bodies) : ∀ id body, c'.spidir.bodies id = some body → RefsOk c' body :=
    fun id body hbody n => hs.provides (h.refs id body (spidir ▸ hbody) n)
  cases hs with
  | @prepare _ funcidx hp =>
    obtain ⟨f, hf, ⟨-, rfl⟩ | ⟨hinit, g, hginit, -, -, hfunctions, -, hhelpers, -, hcase⟩⟩ := jitPrepareFunction_cases hp
    · exact h
    obtain ⟨hmap, hother⟩ := h.map_functionId hf hinit hfunctions
    have helpers : ∀ kind func, c'.helpers kind = some func → func.external = true := hhelpers ▸ h.helpers
    have queued : ∀ i ∈ c.queue, ∃ f, c'.functions[i]? = some f ∧ f.inited = true := fun i hi => by
      rw [hother i hi]
      exact h.queued i hi
    obtain ⟨-, -, hspidir, hqueue⟩ | ⟨-, hid, hspidir, hqueue⟩ := hcase
    · refine ⟨?_, bodies (by rw [hspidir]), hqueue ▸ queued, helpers, refs (by rw [hspidir])⟩
      rw [hqueue, hmap, hspidir]
      exact h.ids
    · obtain ⟨hlt, -⟩ := List.getElem?_eq_some_iff.mp hf
      have new : c'.functions[funcidx]? = some g := by rw [hfunctions, List.getElem?_set_self hlt]
      refine ⟨?_, bodies (by rw [hspidir]), ?_, helpers, refs (by rw [hspidir])⟩
      · rw [hqueue, List.map_cons, hmap, JitContext.functionId, new, Option.getD_some, hid, hspidir, List.range_succ]
        exact List.perm_middle.trans ((List.perm_append_singleton _ _).symm.trans (h.ids.append_right _))
      · rw [hqueue]
        exact List.forall_mem_cons.mpr ⟨⟨g, new, hginit⟩, queued⟩
  | helper hh =>
    obtain ⟨-, ⟨-, rfl⟩ | ⟨-, hext, -, rfl⟩⟩ := jitGetHelper_cases hh
    · exact h
    · refine ⟨h.ids, h.bodies, h.queued, fun kind func hk => ?_, refs rfl⟩
      simp only [Function.update_apply] at hk
      split_ifs at hk
      · exact Option.some.inj hk ▸ hext
      · exact h.helpers kind func hk
  | useTable tableidx => exact ⟨h.ids, h.bodies, h.queued, h.helpers, refs rfl⟩

theorem ContextStep.grows (hs : ContextStep c c') : c.Grows c' := by
  cases hs with
  | @prepare _ funcidx hp =>
    obtain ⟨f, hf, ⟨-, rfl⟩ | ⟨-, g, -, hcfi, -, hfunctions, hmodule, -, htables, hcase⟩⟩ := jitPrepareFunction_cases hp
    · exact .refl _
    have globals : c'.spidir.externGlobals = c.spidir.externGlobals := by
      obtain ⟨-, -, hspidir, -⟩ | ⟨-, -, hspidir, -⟩ := hcase <;> rw [hspidir]
    refine ⟨hmodule, by rw [hfunctions, List.length_set], globals, by rw [htables], fun i ⟨f', hf', hthunk⟩ => ?_⟩
    by_cases he : funcidx = i
    · subst he
      obtain ⟨hlt, -⟩ := List.getElem?_eq_some_iff.mp hf
      refine ⟨g, by rw [hfunctions, List.getElem?_set_self hlt], ?_⟩
      rw [hcfi, Option.some.inj (hf.symm.trans hf'), hthunk]
    · exact ⟨f', by rw [hfunctions, List.getElem?_set_ne he, hf'], hthunk⟩
  | helper hh =>
    obtain ⟨-, ⟨-, rfl⟩ | ⟨-, -, -, rfl⟩⟩ := jitGetHelper_cases hh
    · exact .refl _
    · exact ⟨rfl, rfl, rfl, rfl, fun _ => id⟩
  | useTable tableidx =>
    refine ⟨rfl, rfl, rfl, ?_, fun _ => id⟩
    show (c.tables.modify tableidx fun t => { t with used := true }).map JitTable.place = c.tables.map JitTable.place
    apply List.ext_getElem?
    intro i
    rw [List.getElem?_map, List.getElem?_map, List.getElem?_modify]
    cases c.tables[i]? with
    | none => rfl
    | some t => by_cases h : tableidx = i <;> simp [h, JitTable.place]

/-- What a run on a graph keeps: the emission and what the graph refers to. -/
theorem emitRun_keeps {p q : JitContext × Builder} (hrun : ReflTransGen EmitStep p q) (h : Emission pending built p.1)
    (hrefs : RefsOk p.1 p.2) : Emission pending built q.1 ∧ RefsOk q.1 q.2 ∧ p.1.Grows q.1 := by
  induction hrun with
  | refl => exact ⟨h, hrefs, .refl _⟩
  | tail _ hstep ih =>
    obtain ⟨he, hr, ht⟩ := ih
    cases hstep with
    | context hs b => exact ⟨hs.emission he, fun n => hs.provides (hr n), ht.trans hs.grows⟩
    | @graph c b b' hsub =>
      refine ⟨he, fun n => ?_, ht⟩
      by_cases hn : (b'.node n).inst.refers = true
      · exact hsub n hn ▸ hr n
      · have : Plain (b'.node n).inst := ⟨Bool.eq_false_iff.mpr hn⟩
        exact c.provides_plain _
    | build b hi =>
      refine ⟨he, fun n => ?_, ht⟩
      rw [Builder.build_node]
      by_cases hnew : n = b.nextValue
      · subst hnew
        rwa [Function.update_self]
      · rw [Function.update_of_ne hnew]
        exact hr n

/-! ### Bodies -/

/-- A finished graph is no longer pending. -/
theorem Emission.setBody {id : ℕ} {body : Builder} (h : Emission [id] built c) (hrefs : RefsOk c body) :
    Emission [] (id :: built) { c with
      spidir := { c.spidir with bodies := Function.update c.spidir.bodies id (some body) } } := by
  refine ⟨h.ids, fun i => ?_, h.queued, h.helpers, fun i b hb => ?_⟩
  · show (Function.update c.spidir.bodies id (some body) i).isSome ↔ i ∈ id :: built
    rw [Function.update_apply, List.mem_cons, ← h.bodies]
    split_ifs with hi <;> simp [hi]
  · replace hb : Function.update c.spidir.bodies id (some body) i = some b := hb
    rw [Function.update_apply] at hb
    split_ifs at hb
    · exact Option.some.inj hb ▸ hrefs
    · exact h.refs i b hb

/-- A new function is pending; its slot may be given a thunk. -/
theorem Emission.create {g : JitFunction → JitFunction} (h : Emission [] built c)
    (hg : ∀ f, (g f).spidir = f.spidir ∧ (g f).inited = f.inited) :
    Emission [c.spidir.functions] built { c with
      functions := c.functions.modify funcidx g
      spidir := { c.spidir with functions := c.spidir.functions + 1 } } := by
  set c' : JitContext := { c with
    functions := c.functions.modify funcidx g
    spidir := { c.spidir with functions := c.spidir.functions + 1 } }
  have slot (i : ℕ) (f : JitFunction) (hf : c.functions[i]? = some f) :
      ∃ f', c'.functions[i]? = some f' ∧ f'.spidir = f.spidir ∧ f'.inited = f.inited := by
    simp only [c', List.getElem?_modify, hf, Option.map_eq_map, Option.map_some]
    split_ifs
    · exact ⟨g f, rfl, hg f⟩
    · exact ⟨f, rfl, rfl, rfl⟩
  have provides : ∀ i, c.Provides i → c'.Provides i := by
    intro i hi
    cases i with
    | call callee args =>
      obtain hhelper | ⟨f, hf, hinit, hspidir⟩ := hi
      · exact .inl hhelper
      · obtain ⟨i, hi⟩ := List.mem_iff_getElem?.mp hf
        obtain ⟨f', hf', hs, hi'⟩ := slot i f hi
        exact .inr ⟨f', List.mem_of_getElem? hf', hi'.trans hinit, hs.trans hspidir⟩
    | globaladdr id => exact hi
    | _ => trivial
  refine ⟨?_, h.bodies, fun i hi => ?_, h.helpers, fun id body hbody n => provides _ (h.refs id body hbody n)⟩
  · have ids : c.queue.map c'.functionId = c.queue.map c.functionId := by
      refine List.map_congr_left fun i hi => ?_
      obtain ⟨f, hf, -⟩ := h.queued i hi
      obtain ⟨f', hf', hs, -⟩ := slot i f hf
      rw [JitContext.functionId, JitContext.functionId, hf, hf', Option.getD_some, Option.getD_some, hs]
    show ([c.spidir.functions] ++ built ++ c.queue.map c'.functionId).Perm (List.range (c.spidir.functions + 1))
    rw [ids, List.range_succ]
    exact (List.perm_append_singleton _ _).symm.trans (h.ids.append_right _)
  · obtain ⟨f, hf, hinit⟩ := h.queued i hi
    obtain ⟨f', hf', -, hi'⟩ := slot i f hf
    exact ⟨f', hf', hi'.trans hinit⟩

/-- The next function of the queue becomes pending. -/
theorem Emission.pop {queue : List ℕ} {f : JitFunction} (h : Emission [] built c) (hqueue : c.queue = funcidx :: queue)
    (hf : c.functions[funcidx]? = some f) : Emission [f.spidir.id] built { c with queue } := by
  have first : c.functionId funcidx = f.spidir.id := by rw [JitContext.functionId, hf, Option.getD_some]
  refine ⟨?_, h.bodies, fun i hi => h.queued i (hqueue ▸ List.mem_cons_of_mem _ hi), h.helpers, h.refs⟩
  have ids := h.ids
  rw [hqueue, List.map_cons, first] at ids
  exact (List.perm_middle).symm.trans ids

theorem Emission.perm {built' : List ℕ} (h : Emission pending built c) (hperm : built.Perm built') : Emission pending built' c :=
  ⟨(((hperm.append_left pending).append_right _).symm).trans h.ids, fun id => (h.bodies id).trans hperm.mem_iff, h.queued, h.helpers, h.refs⟩

/-- A change of a slot that leaves a thunk there. -/
theorem Grows.modify {g : JitFunction → JitFunction} (hg : ∀ f, f.hasCfi = true → (g f).hasCfi = true)
    (hmodule : c'.module = c.module) (hglobals : c'.spidir.externGlobals = c.spidir.externGlobals) (htables : c'.tables = c.tables)
    (hc : c'.functions = c.functions.modify funcidx g) : c.Grows c' := by
  refine ⟨hmodule, by rw [hc, List.length_modify], hglobals, by rw [htables], fun i ⟨f, hf, hthunk⟩ => ?_⟩
  rw [JitContext.Thunked, hc, List.getElem?_modify, hf]
  by_cases hi : funcidx = i
  · exact ⟨g f, by simp [hi], hg f hthunk⟩
  · exact ⟨f, by simp [hi], hthunk⟩

/-! ### Thunks -/

instance buildParams_moves (i n : ℕ) : (buildParams i n).Moves := by
  induction n generalizing i with
  | zero => unfold buildParams; infer_instance
  | succ n ih => unfold buildParams; infer_instance

theorem jitBuildCfiThunk_moves (typeId argCount : ℕ) (callee : FuncRef) :
    MovesWith (.call callee []) (jitBuildCfiThunk typeId argCount callee) := by
  unfold jitBuildCfiThunk
  have setEntry (entry : Block) : Emit.Moves (update fun s => s.withBuilder (s.builder.setEntryBlock entry)) :=
    graph_moves fun s a t h => by
      cases h
      exact ⟨rfl, .refl s.builder⟩
  repeat refine .seq inferInstance fun _ => ?_
  have callable : ∀ (c : JitContext) (args : List Value), c.Provides (.call callee []) → c.Provides (.call callee args) := fun _ _ h => h
  exact movesWith_build (callable · _) _ fun _ => inferInstance

theorem buildGraph_eq_some {params : List ValueType} {m : Emit Unit} {body : Builder} (h : buildGraph params m c = some (body, c')) :
    ∃ t : EmitState, m { ctx := c, builder := { params } } = some ((), t) ∧ t.builder = body ∧ t.ctx = c' := by
  obtain ⟨⟨_, t⟩, hm, he⟩ := Option.map_eq_some_iff.mp h
  obtain ⟨rfl, rfl⟩ := Prod.mk.inj he
  exact ⟨t, hm, rfl, rfl⟩

/-- An empty graph refers to nothing. -/
theorem refsOk_empty (c : JitContext) (params : List ValueType) : RefsOk c { params } := fun _ => trivial

theorem jitCreateCfiThunk_emission {id : ℕ} {f : JitFunction} (h : Emission [] built c) (hf : c.functions[funcidx]? = some f)
    (hinit : f.inited = true) (hrun : jitCreateCfiThunk funcidx c = some (id, c')) :
    Emission [] (id :: built) c' ∧ c'.Thunked funcidx ∧ c.Grows c' := by
  simp only [jitCreateCfiThunk, read_bind, lift_bind_eq_some, createFunction_bind, update_bind, hf, Option.some.injEq] at hrun
  obtain ⟨type, -, typeId, -, retType, -, args, -, _, rfl, hrun⟩ := hrun
  set g : JitFunction → JitFunction := fun f => { f with hasCfi := true, cfiThunk := c.spidir.functions }
  obtain ⟨body, c₁, hbuild, hrun⟩ := (bind_eq_some _ _ _ _).mp hrun
  obtain ⟨t, ht, rfl, rfl⟩ := buildGraph_eq_some hbuild
  obtain ⟨rfl, rfl⟩ := Prod.mk.inj (Option.some.inj hrun)
  set c₀ : JitContext := { c with
    functions := c.functions.modify funcidx g
    spidir := { c.spidir with functions := c.spidir.functions + 1 } }
  have created : Emission [c.spidir.functions] built c₀ := h.create fun _ => ⟨rfl, rfl⟩
  have slot : c₀.functions[funcidx]? = some (g f) := by
    simp [c₀, hf]
  have callable : c₀.Provides (.call f.spidir []) := .inr ⟨g f, List.mem_of_getElem? slot, hinit, rfl⟩
  obtain ⟨built', refs, grows⟩ := emitRun_keeps (jitBuildCfiThunk_moves _ _ _ _ _ _ callable ht) created (refsOk_empty c₀ _)
  have thunked : c.Grows c₀ := Grows.modify (fun _ _ => rfl) rfl rfl rfl rfl
  have whole := thunked.trans grows
  exact ⟨built'.setBody refs, grows.thunked funcidx ⟨g f, slot, rfl⟩, whole.module, whole.functions, whole.globals, whole.tables, whole.thunked⟩

theorem jitFunction_emission {f : JitFunction} {queue : List ℕ} (h : Emission [] built c) (hqueue : c.queue = funcidx :: queue)
    (hf : c.functions[funcidx]? = some f) (hrun : jitFunction funcidx { c with queue } = some ((), c')) :
    Emission [] (f.spidir.id :: built) c' ∧ c.Grows c' := by
  simp only [jitFunction, read_bind, lift_bind_eq_some, check_bind_eq_some, hf, Option.some.injEq] at hrun
  obtain ⟨_, rfl, -, -, hrun⟩ := hrun
  obtain ⟨body, c₁, hbuild, hrun⟩ := (bind_eq_some _ _ _ _).mp hrun
  obtain ⟨-, rfl⟩ := Prod.mk.inj (Option.some.inj hrun)
  obtain ⟨built', refs, grows⟩ := emitRun_keeps (jitBuildFunction_run hbuild) (h.pop hqueue hf) (refsOk_empty _ _)
  exact ⟨built'.setBody refs, grows.module, grows.functions, grows.globals, grows.tables, grows.thunked⟩

/-! ### The module -/

/-- A preparation keeps the emission, and the function is prepared. -/
theorem jitPrepareFunction_emission (h : Emission [] built c) (hrun : jitPrepareFunction funcidx c = some ((), c')) :
    Emission [] built c' ∧ c.Grows c' ∧ ∃ f, c'.functions[funcidx]? = some f ∧ f.inited = true := by
  have step : ContextStep c c' := .prepare hrun
  have grows := step.grows
  obtain ⟨f, hf, -⟩ := jitPrepareFunction_cases hrun
  obtain ⟨hlt, -⟩ := List.getElem?_eq_some_iff.mp hf
  have slot := List.getElem?_eq_getElem (grows.functions ▸ hlt)
  exact ⟨step.emission h, grows, _, slot, prepared_inited hrun slot⟩

/-- The tables get the next global ids, in order. -/
theorem jitPrepareTables_eq (i n : ℕ) (hrun : forFrom jitPrepareTable i n c = some ((), c')) :
    ∃ tables, c' = { c with tables, spidir := { c.spidir with externGlobals := c.spidir.externGlobals + n } } ∧
      tables.length = c.tables.length ∧ ∀ j t, tables[j]? = some t →
        if i ≤ j ∧ j < i + n then t.global = c.spidir.externGlobals + (j - i) else c.tables[j]? = some t := by
  induction n generalizing i c with
  | zero =>
    obtain ⟨-, rfl⟩ := Prod.mk.inj (Option.some.inj hrun)
    refine ⟨c.tables, rfl, rfl, fun j t ht => ?_⟩
    rwa [if_neg (by omega)]
  | succ n ih =>
    obtain ⟨_, d, hd, hrest⟩ := (bind_eq_some _ _ _ _).mp hrun
    simp only [jitPrepareTable, createExternGlobal, read_bind, lift_bind_eq_some, bind_assoc, update_bind, pure_bind, update_eq_some,
      Prod.mk.injEq, true_and] at hd
    obtain ⟨table, -, rfl⟩ := hd
    obtain ⟨tables, rfl, hlength, htables⟩ := ih (i + 1) hrest
    refine ⟨tables, ?_, ?_, fun j t ht => ?_⟩
    · simp only [Nat.add_assoc, Nat.add_comm 1]
    · rw [hlength, List.length_modify]
    · have later := htables j t ht
      by_cases hj : i + 1 ≤ j ∧ j < i + 1 + n
      · rw [if_pos hj] at later
        rw [if_pos (by omega), later]
        simp only
        omega
      · rw [if_neg hj, List.getElem?_modify] at later
        by_cases hi : i = j
        · subst hi
          rw [if_pos (by omega)]
          obtain ⟨t', -, rfl⟩ := Option.map_eq_some_iff.mp later
          simp
        · rw [if_neg (by omega)]
          simpa [hi] using later

theorem forM_emission {ι : Type} {f : ι → Checked JitContext Unit} (hf : ∀ i c c', Emission [] built c → f i c = some ((), c') →
    Emission [] built c' ∧ c.Grows c') (l : List ι) (h : Emission [] built c) (hrun : l.forM f c = some ((), c')) :
    Emission [] built c' ∧ c.Grows c' := by
  induction l generalizing c with
  | nil =>
    obtain ⟨-, rfl⟩ := Prod.mk.inj (Option.some.inj hrun)
    exact ⟨h, .refl _⟩
  | cons i l ih =>
    rw [List.forM_eq_forM, List.forM_cons] at hrun
    obtain ⟨_, d, hd, hrest⟩ := (bind_eq_some _ _ _ _).mp hrun
    obtain ⟨he, hgrows⟩ := hf i c d h hd
    obtain ⟨he', hgrows'⟩ := ih he hrest
    exact ⟨he', hgrows.trans hgrows'⟩

theorem emitElems_emission {l ids : List ℕ} (h : Emission [] built c) (hrun : emitElems l c = some (ids, c')) :
    Emission [] (ids ++ built) c' ∧ c.Grows c' ∧ ∀ i ∈ l, c'.Thunked i := by
  induction l generalizing built c ids with
  | nil =>
    obtain ⟨rfl, rfl⟩ := Prod.mk.inj (Option.some.inj hrun)
    exact ⟨h, .refl _, by simp⟩
  | cons funcidx l ih =>
    obtain ⟨_, c₁, hprepare, hrun₁⟩ := (bind_eq_some _ _ _ _).mp hrun
    obtain ⟨id, c₂, hthunk, hrun₂⟩ := (bind_eq_some _ _ _ _).mp hrun₁
    obtain ⟨rest, c₃, hrest, hrun₃⟩ := (bind_eq_some _ _ _ _).mp hrun₂
    obtain ⟨rfl, rfl⟩ := Prod.mk.inj (Option.some.inj hrun₃)
    obtain ⟨he₁, hgrows₁, f, hf, hinit⟩ := jitPrepareFunction_emission h hprepare
    obtain ⟨he₂, hthunked, hgrows₂⟩ := jitCreateCfiThunk_emission he₁ hf hinit hthunk
    obtain ⟨he₃, hgrows₃, hall⟩ := ih he₂ hrest
    refine ⟨he₃.perm List.perm_middle, (hgrows₁.trans hgrows₂).trans hgrows₃, fun i hi => ?_⟩
    obtain rfl | hi := List.mem_cons.mp hi
    · exact hgrows₃.thunked i hthunked
    · exact hall i hi

theorem emitQueue_emission {fuel : ℕ} {ids : List ℕ} (h : Emission [] built c) (hrun : emitQueue fuel c = some (ids, c')) :
    Emission [] (ids ++ built) c' ∧ c.Grows c' ∧ c'.queue = [] := by
  induction fuel generalizing built c ids with
  | zero => cases hrun
  | succ fuel ih =>
    rw [emitQueue, read_bind] at hrun
    cases hqueue : c.queue with
    | nil =>
      rw [hqueue] at hrun
      obtain ⟨rfl, rfl⟩ := Prod.mk.inj (Option.some.inj hrun)
      exact ⟨h, .refl _, hqueue⟩
    | cons funcidx queue =>
      simp only [hqueue, update_bind, read_bind, lift_bind_eq_some] at hrun
      obtain ⟨f, hf, hrun₁⟩ := hrun
      obtain ⟨_, c₁, hfunction, hrun₂⟩ := (bind_eq_some _ _ _ _).mp hrun₁
      obtain ⟨rest, c₂, hrest, hrun₃⟩ := (bind_eq_some _ _ _ _).mp hrun₂
      obtain ⟨rfl, rfl⟩ := Prod.mk.inj (Option.some.inj hrun₃)
      obtain ⟨he₁, hgrows₁⟩ := jitFunction_emission h hqueue hf hfunction
      obtain ⟨he₂, hgrows₂, hempty⟩ := ih he₁ hrest
      exact ⟨he₂.perm List.perm_middle, hgrows₁.trans hgrows₂, hempty⟩

/-- Nothing is built yet, and nothing is queued. -/
theorem emission_start {m : WasmModule} {resolveImport : Option Name → Option Name → FuncType → Option ℕ} {stateSize : ℕ}
    (h : jitPrepareState (startContext m resolveImport) = some (c, stateSize)) : Emission [] [] c ∧ c.module = m ∧
      c.functions.length = m.totalFuncs ∧ c.spidir.externGlobals = 0 ∧ c.tables.length = m.tables.length := by
  simp only [jitPrepareState, Option.bind_eq_bind, Option.pure_def, Option.bind_eq_some_iff, Option.some.injEq,
    Prod.mk.injEq] at h
  obtain ⟨⟨globals, stop⟩, -, rfl, -⟩ := h
  refine ⟨⟨.refl _, fun id => ?_, fun i hi => ?_, fun kind func hk => ?_, fun id body hbody => ?_⟩, rfl, ?_, rfl, ?_⟩
  · simp [startContext]
  · cases hi
  · cases hk
  · cases hbody
  · exact List.length_replicate
  · exact List.length_replicate

/-- The emission of a module builds the body of every function that it creates, once, and
leaves a thunk for every entry of an element segment. The tables have global ids of their own. -/
theorem jitEmitSpidir_emission {fuel : ℕ} {ids : List ℕ} (h : Emission [] [] c) (hrun : jitEmitSpidir fuel c = some (ids, c')) :
    Emission [] ids c' ∧ c'.module = c.module ∧ c'.functions.length = c.functions.length ∧ c'.queue = [] ∧
    (∀ elem ∈ c.module.elems, ∀ i ∈ elem.funcs, c'.Thunked i) ∧ c'.tables.length = c.tables.length ∧
    (c.tables.length = c.module.tables.length → ∀ (i : ℕ) (t : JitTable), c'.tables[i]? = some t → t.global = c.spidir.externGlobals + i) := by
  rw [jitEmitSpidir, read_bind] at hrun
  obtain ⟨_, c₁, hexports, hrun₁⟩ := (bind_eq_some _ _ _ _).mp hrun
  obtain ⟨_, c₂, htables, hrun₂⟩ := (bind_eq_some _ _ _ _).mp hrun₁
  obtain ⟨thunks, c₃, helems, hrun₃⟩ := (bind_eq_some _ _ _ _).mp hrun₂
  obtain ⟨he₁, hgrows₁⟩ := forM_emission (fun e d d' he hstep => by
    split_ifs at hstep
    · obtain ⟨he', hgrows, -⟩ := jitPrepareFunction_emission he hstep
      exact ⟨he', hgrows⟩
    · obtain ⟨-, rfl⟩ := Prod.mk.inj (Option.some.inj hstep)
      exact ⟨he, .refl _⟩) _ h hexports
  obtain ⟨tables, rfl, hlength, hplaced⟩ := jitPrepareTables_eq _ _ htables
  set c₂ : JitContext := { c₁ with
    tables, spidir := { c₁.spidir with externGlobals := c₁.spidir.externGlobals + c.module.tables.length } }
  have unbuilt (id : ℕ) (body : Builder) (hbody : c₂.spidir.bodies id = some body) : RefsOk c₂ body :=
    absurd ((he₁.bodies id).mp (Option.isSome_iff_exists.mpr ⟨body, hbody⟩)) List.not_mem_nil
  have he₂ : Emission [] [] c₂ := ⟨he₁.ids, he₁.bodies, he₁.queued, he₁.helpers, unbuilt⟩
  obtain ⟨he₃, hgrows₃, hthunks⟩ := emitElems_emission he₂ helems
  obtain ⟨c₄, functions, he₄, hgrows₄, hqueue, rfl⟩ : ∃ c₄ functions, Emission [] (thunks ++ []) c₄ ∧ c₃.Grows c₄ ∧
      emitQueue fuel c₄ = some (functions, c') ∧ ids = thunks ++ functions := by
    split_ifs at hrun₃
    · obtain ⟨_, c₄, hstart, hrun₄⟩ := (bind_eq_some _ _ _ _).mp hrun₃
      obtain ⟨functions, c₅, hqueue, hrun₅⟩ := (bind_eq_some _ _ _ _).mp hrun₄
      obtain ⟨rfl, rfl⟩ := Prod.mk.inj (Option.some.inj hrun₅)
      obtain ⟨he₄, hgrows₄, -⟩ := jitPrepareFunction_emission he₃ hstart
      exact ⟨c₄, functions, he₄, hgrows₄, hqueue, rfl⟩
    · obtain ⟨functions, c₅, hqueue, hrun₄⟩ := (bind_eq_some _ _ _ _).mp hrun₃
      obtain ⟨rfl, rfl⟩ := Prod.mk.inj (Option.some.inj hrun₄)
      exact ⟨c₃, functions, he₃, .refl _, hqueue, rfl⟩
  obtain ⟨he₅, hgrows₅, hempty⟩ := emitQueue_emission he₄ hqueue
  rw [List.append_nil] at he₅
  have later : c₂.Grows c' := (hgrows₃.trans hgrows₄).trans hgrows₅
  have count : tables.length = c.tables.length := by
    have := congrArg List.length hgrows₁.tables
    rw [List.length_map, List.length_map] at this
    rw [hlength, this]
  refine ⟨he₅.perm List.perm_append_comm, later.module.trans hgrows₁.module, later.functions.trans hgrows₁.functions, hempty, ?_, ?_,
    fun hc i t ht => ?_⟩
  · exact fun elem helem i hi => (hgrows₄.trans hgrows₅).thunked i (hthunks i (List.mem_flatMap.mpr ⟨elem, helem, hi⟩))
  · have := congrArg List.length later.tables
    rw [List.length_map, List.length_map] at this
    exact this.trans count
  · have same : (c'.tables.map JitTable.place)[i]? = (tables.map JitTable.place)[i]? := by rw [later.tables]
    rw [List.getElem?_map, List.getElem?_map, ht, Option.map_some] at same
    obtain ⟨t', ht', hplace⟩ := Option.map_eq_some_iff.mp same.symm
    obtain ⟨hlt, -⟩ := List.getElem?_eq_some_iff.mp ht'
    have inRange : 0 ≤ i ∧ i < 0 + c.module.tables.length := by omega
    have placed := hplaced i t' ht'
    rw [if_pos inRange, hgrows₁.globals] at placed
    have sameGlobal : t'.global = t.global := congrArg Prod.fst hplace
    rw [← sameGlobal]
    exact placed

end SpidirWasm.Jit
