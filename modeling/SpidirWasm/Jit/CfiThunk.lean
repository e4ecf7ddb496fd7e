import SpidirWasm.Jit.EmitClosure
import SpidirWasm.Spidir.Control

/-! The thunk that an indirect call of a function runs through. It compares the id it is
passed with that of the function's type, and calls the function with the other arguments in
their order. -/

namespace SpidirWasm.Jit

open Checked
open Spidir

/-! ### The graph -/

/-- References to `n` parameters, from the `i`-th on. -/
def paramRefs (b : Builder) : (i n : ℕ) → Builder
  | _, 0 => b
  | i, n + 1 => paramRefs (b.build (.param i)) (i + 1) n

theorem buildParams_eq (i n : ℕ) (s : EmitState) :
    buildParams i n s = some ((List.range' s.builder.nextValue n).map some, s.withBuilder (paramRefs s.builder i n)) := by
  induction n generalizing i s with
  | zero => rfl
  | succ n ih =>
    rw [buildParams, build_bind]
    refine (bind_eq_some _ _ _ _).mpr ⟨_, _, ih (i + 1) _, ?_⟩
    rw [pure_eq_some, EmitState.withBuilder_builder, Builder.build_nextValue, List.range'_succ]
    rfl

section

variable (b : Builder) (i n : ℕ)

@[simp] theorem paramRefs_cur : (paramRefs b i n).cur = b.cur := by
  induction n generalizing b i with
  | zero => rfl
  | succ n ih => rw [paramRefs, ih, Builder.build_cur]

@[simp] theorem paramRefs_entry : (paramRefs b i n).entry = b.entry := by
  induction n generalizing b i with
  | zero => rfl
  | succ n ih => rw [paramRefs, ih, Builder.build_entry]

@[simp] theorem paramRefs_nextValue : (paramRefs b i n).nextValue = b.nextValue + n := by
  induction n generalizing b i with
  | zero => rfl
  | succ n ih => rw [paramRefs, ih, Builder.build_nextValue, Nat.add_assoc, Nat.add_comm 1]

/-- They are in no block. -/
@[simp] theorem paramRefs_items : (paramRefs b i n).items = b.items := by
  induction n generalizing b i with
  | zero => rfl
  | succ n ih =>
    rw [paramRefs, ih]
    funext k
    rw [Builder.build_items, if_neg (by simp [Inst.isFloating])]

theorem paramRefs_node_of_lt {m : ℕ} (h : m < b.nextValue) : (paramRefs b i n).node m = b.node m := by
  induction n generalizing b i with
  | zero => rfl
  | succ n ih => rw [paramRefs, ih _ _ (by simp; omega), Builder.build_node, Function.update_of_ne (Nat.ne_of_lt h)]

/-- The `j`-th of them, with its type. -/
theorem paramRefs_node {j : ℕ} (h : j < n) :
    (paramRefs b i n).node (b.nextValue + j) = ⟨.param (i + j), b.params.getD (i + j) .none, b.cur⟩ := by
  induction n generalizing b i j with
  | zero => omega
  | succ n ih =>
    rw [paramRefs]
    cases j with
    | zero =>
      rw [paramRefs_node_of_lt _ _ _ (by simp), Builder.build_node, Nat.add_zero, Function.update_self]
      rfl
    | succ j =>
      have next := ih (b.build (.param i)) (i + 1) (Nat.lt_of_succ_lt_succ h)
      rw [Builder.build_nextValue, Builder.build_params, Builder.build_cur] at next
      rw [show b.nextValue + (j + 1) = b.nextValue + 1 + j by omega, next, show i + (j + 1) = i + 1 + j by omega]

end

/-- The block that compares the ids, and the one that traps. -/
def thunkCheck (params : List ValueType) (typeId : ℕ) (trap : FuncRef) : Builder :=
  let b := ((({ params } : Builder).createBlock.createBlock.createBlock.setEntryBlock 0).setBlock 0).build
    (.iconst .i64 (BitVec.ofNat 64 typeId))
  let b := ((b.build (.param 2)).build (.icmp .eq .i32 (some 0) (some 1))).terminate (.brcond (some 2) 2 1)
  (((b.setBlock 1).build (.call trap [])).terminate .unreachable).setBlock 2

/-- The call with all arguments but the id. -/
def thunkCall (argCount : ℕ) (callee : FuncRef) : Inst := .call callee (some 4 :: some 5 :: (List.range' 6 argCount).map some)

/-- The arguments of the call. -/
def thunkArgs (params : List ValueType) (typeId argCount : ℕ) (trap : FuncRef) : Builder :=
  paramRefs (((thunkCheck params typeId trap).build (.param 0)).build (.param 1)) 3 argCount

def thunkGraph (params : List ValueType) (typeId argCount : ℕ) (callee trap : FuncRef) : Builder :=
  let b := thunkArgs params typeId argCount trap
  (b.build (thunkCall argCount callee)).terminate (.ret (b.handle (thunkCall argCount callee)))

theorem jitBuildCfiThunk_eq {params : List ValueType} {typeId argCount : ℕ} {callee : FuncRef} {c : JitContext} {t : EmitState}
    (h : jitBuildCfiThunk typeId argCount callee { ctx := c, builder := { params } } = some ((), t)) :
    ∃ trap, t.builder = thunkGraph params typeId argCount callee trap := by
  simp only [jitBuildCfiThunk, jitEmitTrap, bind_assoc, createBlock_bind, update_bind, setBlock_bind, build_bind, terminate_bind,
    context_bind_eq_some] at h
  obtain ⟨trap, ctx, -, h⟩ := h
  obtain ⟨args, u, hargs, h⟩ := (bind_eq_some _ _ _ _).mp h
  rw [buildParams_eq] at hargs
  obtain ⟨rfl, rfl⟩ := Prod.mk.inj (Option.some.inj hargs)
  simp only [build_bind, terminate_eq_some, Prod.mk.injEq, true_and] at h
  subst h
  refine ⟨trap, ?_⟩
  simp [thunkGraph, thunkArgs, thunkCheck, thunkCall, Builder.handle, Inst.hasOutput, Builder.setEntryBlock]

/-- With the trap helper at hand the graph is built. -/
theorem jitBuildCfiThunk_run {params : List ValueType} {typeId argCount : ℕ} {callee trap : FuncRef} {c c' : JitContext}
    (h : jitGetHelper .trap c = some (trap, c')) : jitBuildCfiThunk typeId argCount callee { ctx := c, builder := { params } } =
      some ((), { ctx := c', builder := thunkGraph params typeId argCount callee trap }) := by
  simp only [jitBuildCfiThunk, jitEmitTrap, bind_assoc, createBlock_bind, update_bind, setBlock_bind, build_bind, terminate_bind]
  refine (context_bind_eq_some _ _ _ _).mpr ⟨trap, c', h, ?_⟩
  simp only [build_bind, terminate_bind, setBlock_bind]
  refine (bind_eq_some _ _ _ _).mpr ⟨_, _, buildParams_eq _ _ _, ?_⟩
  simp only [build_bind, terminate_eq_some, Prod.mk.injEq, true_and]
  simp [EmitState.withBuilder, thunkGraph, thunkArgs, thunkCheck, thunkCall, Builder.handle, Inst.hasOutput, Builder.setEntryBlock]

variable (params : List ValueType) (typeId argCount : ℕ) (callee trap : FuncRef)

@[simp] theorem thunkCheck_params : (thunkCheck params typeId trap).params = params := by simp [thunkCheck, Builder.setEntryBlock]

@[simp] theorem thunkCheck_nextValue : (thunkCheck params typeId trap).nextValue = 4 := by simp [thunkCheck, Builder.setEntryBlock]

@[simp] theorem thunkCheck_cur : (thunkCheck params typeId trap).cur = some 2 := by simp [thunkCheck]

@[simp] theorem thunkArgs_nextValue : (thunkArgs params typeId argCount trap).nextValue = 6 + argCount := by simp [thunkArgs]

@[simp] theorem thunkGraph_entry : (thunkGraph params typeId argCount callee trap).entry = some 0 := by
  simp [thunkGraph, thunkArgs, thunkCheck, Builder.setEntryBlock]

theorem thunkGraph_items_zero : (thunkGraph params typeId argCount callee trap).items 0 =
    [.inst 2, .term (.brcond (some 2) 2 1)] := by
  simp [thunkGraph, thunkArgs, thunkCheck, thunkCall, Builder.terminate_items, Builder.build_items, Builder.setEntryBlock, Inst.isFloating]

theorem thunkGraph_items_two : (thunkGraph params typeId argCount callee trap).items 2 =
    [.inst (6 + argCount), .term (.ret (if callee.ret = .none then none else some (6 + argCount)))] := by
  simp [thunkGraph, thunkArgs, thunkCheck, thunkCall, Builder.terminate_items, Builder.build_items, Builder.setEntryBlock, Inst.isFloating,
    Builder.handle, Inst.hasOutput]

/-- The nodes before the arguments. -/
theorem thunkGraph_node_of_lt {m : ℕ} (h : m < 6) : (thunkGraph params typeId argCount callee trap).node m =
    (((thunkCheck params typeId trap).build (.param 0)).build (.param 1)).node m := by
  rw [thunkGraph, Builder.terminate_node, Builder.build_node, thunkArgs_nextValue, Function.update_of_ne (by omega)]
  exact paramRefs_node_of_lt _ _ _ (by simpa using h)

/-- The comparison of the ids. -/
theorem thunkGraph_check : (thunkGraph params typeId argCount callee trap).node 0 = ⟨.iconst .i64 (BitVec.ofNat 64 typeId), .i64, some 0⟩ ∧
    (thunkGraph params typeId argCount callee trap).node 1 = ⟨.param 2, params.getD 2 .none, some 0⟩ ∧
    (thunkGraph params typeId argCount callee trap).node 2 = ⟨.icmp .eq .i32 (some 0) (some 1), .i32, some 0⟩ := by
  rw [thunkGraph_node_of_lt _ _ _ _ _ (by decide), thunkGraph_node_of_lt _ _ _ _ _ (by decide),
    thunkGraph_node_of_lt _ _ _ _ _ (by decide)]
  simp [thunkCheck, Builder.setEntryBlock, Builder.instType, Inst.resultType]

/-- The bases. -/
theorem thunkGraph_bases : (thunkGraph params typeId argCount callee trap).node 4 = ⟨.param 0, params.getD 0 .none, some 2⟩ ∧
    (thunkGraph params typeId argCount callee trap).node 5 = ⟨.param 1, params.getD 1 .none, some 2⟩ := by
  rw [thunkGraph_node_of_lt _ _ _ _ _ (by decide), thunkGraph_node_of_lt _ _ _ _ _ (by decide)]
  simp [Builder.instType, Inst.resultType]

/-- The arguments, from the fourth parameter on. -/
theorem thunkGraph_arg {j : ℕ} (h : j < argCount) :
    (thunkGraph params typeId argCount callee trap).node (6 + j) = ⟨.param (3 + j), params.getD (3 + j) .none, some 2⟩ := by
  set b := ((thunkCheck params typeId trap).build (.param 0)).build (.param 1)
  have next : b.nextValue = 6 := by simp [b]
  have arg := paramRefs_node b 3 argCount h
  rw [next] at arg
  rw [thunkGraph, Builder.terminate_node, Builder.build_node, thunkArgs_nextValue, Function.update_of_ne (by omega), thunkArgs, arg]
  simp [b]

/-- The call. -/
theorem thunkGraph_call :
    (thunkGraph params typeId argCount callee trap).node (6 + argCount) = ⟨thunkCall argCount callee, callee.ret, some 2⟩ := by
  rw [thunkGraph, Builder.terminate_node, Builder.build_node, thunkArgs_nextValue, Function.update_self]
  simp [thunkCall, thunkArgs, Builder.instType, Inst.resultType]

/-- What is seen of a thunk in its run. -/
structure Thunk (ts : List ValueType) (typeId argCount : ℕ) (callee : FuncRef) (B : Builder) : Prop where
  entry : B.entry = some 0
  checkItems : B.items 0 = [.inst 2, .term (.brcond (some 2) 2 1)]
  callItems : B.items 2 = [.inst (6 + argCount), .term (.ret (if callee.ret = .none then none else some (6 + argCount)))]
  expected : B.node 0 = ⟨.iconst .i64 (BitVec.ofNat 64 typeId), .i64, some 0⟩
  got : B.node 1 = ⟨.param 2, .i64, some 0⟩
  same : B.node 2 = ⟨.icmp .eq .i32 (some 0) (some 1), .i32, some 0⟩
  memBase : B.node 4 = ⟨.param 0, .ptr, some 2⟩
  stateBase : B.node 5 = ⟨.param 1, .ptr, some 2⟩
  arg : ∀ j < argCount, B.node (6 + j) = ⟨.param (3 + j), ts.getD j .none, some 2⟩
  call : B.node (6 + argCount) = ⟨thunkCall argCount callee, callee.ret, some 2⟩

theorem thunkGraph_thunk (ts : List ValueType) :
    Thunk ts typeId argCount callee (thunkGraph (.ptr :: .ptr :: .i64 :: ts) typeId argCount callee trap) where
  entry := thunkGraph_entry _ _ _ _ _
  checkItems := thunkGraph_items_zero _ _ _ _ _
  callItems := thunkGraph_items_two _ _ _ _ _
  expected := (thunkGraph_check _ _ _ _ _).1
  got := (thunkGraph_check _ _ _ _ _).2.1
  same := (thunkGraph_check _ _ _ _ _).2.2
  memBase := (thunkGraph_bases _ _ _ _ _).1
  stateBase := (thunkGraph_bases _ _ _ _ _).2
  arg j hj := by
    rw [thunkGraph_arg _ _ _ _ _ hj, Nat.add_comm 3 j]
    rfl
  call := thunkGraph_call _ _ _ _ _

/-! ### The run -/

variable {typeId argCount callee} {ts : List ValueType} {W : World} {B : Builder} {σ : Machine}

/-- What the thunk passes on. -/
theorem Thunk.reads (h : Thunk ts typeId argCount callee B) (hσ : B.Floats W σ) :
    (some 4 :: some 5 :: (List.range' 6 argCount).map some).map (B.read σ) = W.param 0 :: W.param 1 ::
      (List.range argCount).map fun j => Word.fill (ts.getD j .none).width (W.param (3 + j)) 0 := by
  have mem : B.read σ (some 4) = W.param 0 := by
    rw [hσ.read_param (by rw [h.memBase]), h.memBase]
    exact Word.fill_full _ _
  have state : B.read σ (some 5) = W.param 1 := by
    rw [hσ.read_param (by rw [h.stateBase]), h.stateBase]
    exact Word.fill_full _ _
  rw [List.map_cons, List.map_cons, mem, state, List.range'_eq_map_range, List.map_map, List.map_map]
  congr 2
  apply List.map_congr_left
  intro j hj
  have arg := h.arg j (List.mem_range.mp hj)
  show B.read σ (some (6 + j)) = _
  rw [hσ.read_param (by rw [arg]), arg]

/-- With the right id the thunk calls the function with the bases and the arguments in their
order, and returns its result. -/
theorem Thunk.run (h : Thunk ts typeId argCount callee B) (hid : W.param 2 = BitVec.ofNat 64 typeId) (fuel : ℕ) (s : Store) :
    B.run W (fuel + 1) s = (W.call callee (W.param 0 :: W.param 1 ::
      (List.range argCount).map fun j => Word.fill (ts.getD j .none).width (W.param (3 + j)) 0) s).bind fun p =>
        .done (Word.fill callee.ret.width p.1 0, p.2) := by
  have floats : B.Floats W (B.start W s) := Builder.start_floats s
  -- the ids agree
  have expected : B.read (B.start W s) (some 0) = BitVec.ofNat 64 typeId := by
    rw [floats.read_iconst (by rw [h.expected]), h.expected]
    exact Word.fill_full _ _
  have got : B.read (B.start W s) (some 1) = BitVec.ofNat 64 typeId := by
    rw [floats.read_param (by rw [h.got]), h.got, hid]
    exact Word.fill_full _ _
  have compared : B.step W 2 (B.start W s) = .done ((B.start W s).define W 2 ValueType.i32.width 1) := by
    apply Builder.step_of_compute
    rw [h.same, Inst.compute, expected, got]
    simp [Icmp.compute]
  have taken : B.read ((B.start W s).define W 2 ValueType.i32.width 1) (some 2) ≠ 0 := by
    have one : B.read ((B.start W s).define W 2 ValueType.i32.width 1) (some 2) = Word.fill ValueType.i32.width 1 0 := Builder.read_define (by rw [h.same]) 1
    rw [one]
    decide
  -- behind the edge
  have floats' : B.Floats W (B.enter W ⟨0, true, 2⟩ ((B.start W s).define W 2 ValueType.i32.width 1)) := Builder.enter_floats (floats.step compared) _
  have shared : (B.enter W ⟨0, true, 2⟩ ((B.start W s).define W 2 ValueType.i32.width 1)).toStore = s := rfl
  have entered : B.run W (fuel + 1) s =
      B.runItems W (B.runEdge W fuel) 2 (B.items 2) (B.enter W ⟨0, true, 2⟩ ((B.start W s).define W 2 ValueType.i32.width 1)) := by
    rw [Builder.run, h.entry]
    show B.runItems W (B.runEdge W (fuel + 1)) 0 (B.items 0) (B.start W s) = _
    rw [h.checkItems, Builder.runItems, compared, Outcome.done_bind, Builder.runItems, if_neg taken]
    rfl
  generalize B.enter W ⟨0, true, 2⟩ ((B.start W s).define W 2 ValueType.i32.width 1) = τ at floats' shared entered
  have called : B.step W (6 + argCount) τ = (W.call callee (W.param 0 :: W.param 1 ::
      (List.range argCount).map fun j => Word.fill (ts.getD j .none).width (W.param (3 + j)) 0) s).bind fun p =>
        .done ((τ.share p.2).define W (6 + argCount) callee.ret.width p.1) := by
    rw [← h.reads floats', ← shared]
    simp only [Builder.step, h.call, thunkCall]
  rw [entered, h.callItems, Builder.runItems, called, Outcome.bind_assoc]
  congr 1
  funext p
  rw [Outcome.done_bind, Builder.runItems]
  have result : B.read ((τ.share p.2).define W (6 + argCount) callee.ret.width p.1)
      (if callee.ret = .none then none else some (6 + argCount)) = Word.fill callee.ret.width p.1 0 := by
    by_cases hret : callee.ret = .none
    · have empty : p.1.setWidth 0 = 0#0 := BitVec.eq_nil _
      rw [if_pos hret, hret]
      simp [Builder.read, Word.fill, ValueType.width, empty]
    · rw [if_neg hret]
      exact Builder.read_define (by rw [h.call]) p.1
  rw [result]
  rfl

end SpidirWasm.Jit
