import SpidirWasm.Jit.Operations
import SpidirWasm.Jit.Reading
import SpidirWasm.Jit.Run

/-! Nesting is tracked in two ways: live code opens and closes labels, dead code counts in
its label. Between any two instructions the two together are what was opened and not yet
closed, so that a body is accepted only with its blocks balanced and nothing behind the
`end` that closes it. -/

namespace SpidirWasm.Jit

open Checked
open Spidir (Builder Inst Term Value ValueType Block)
open Wasm (FuncType)

/-- The depth of the dead code in every open label, the innermost first. -/
def EmitState.nesting (s : EmitState) : List ℕ := s.func.labels.map JitLabel.unreachableDepth

/-- How many blocks are open: the labels, and what is nested in the dead code of the innermost. -/
def EmitState.depth (s : EmitState) : ℕ := s.nesting.length + s.nesting.head?.getD 0

/-- Only the innermost label has dead code with blocks of its own. -/
structure Nested (s : EmitState) : Prop where
  below : ∀ d ∈ s.nesting.tail, d = 0
  live : s.live = true → ∀ d ∈ s.nesting.head?, d = 0

/-! ### Handlers that open and close no label -/

theorem eq_of_run {τ : Type} {a b : τ} (h : Relation.ReflTransGen Eq a b) : b = a := by
  induction h with
  | refl => rfl
  | tail _ hstep ih => rw [← hstep, ih]

theorem modify_depth {labels : List JitLabel} {f : JitLabel → JitLabel} {index : ℕ}
    (h : ∀ l ∈ labels[index]?, (f l).unreachableDepth = l.unreachableDepth) :
    (labels.modify index f).map JitLabel.unreachableDepth = labels.map JitLabel.unreachableDepth := by
  apply List.ext_getElem?
  intro i
  rw [List.getElem?_map, List.getElem?_map, List.getElem?_modify]
  by_cases hi : index = i
  · subst hi
    cases hl : labels[index]? with
    | none => simp
    | some l => simp [h l hl]
  · simp [hi]

theorem arrive_depth (target : JitLabel) (locals : List JitValue) (v : Value) (b : Builder) :
    (target.arrive locals v b).1.unreachableDepth = target.unreachableDepth := by
  rw [JitLabel.arrive]
  cases target.locals <;> rfl

theorem build_nesting (i : Inst) : Moves Eq EmitState.nesting (build i) := .still fun _ _ _ h => by
  cases h
  rfl

theorem context_nesting {α : Type} (m : Checked JitContext α) : Moves Eq EmitState.nesting (context m) := .still fun s a t h => by
  obtain ⟨_, _, -, he⟩ := (zoom_eq_some _ _ m s (a, t)).mp h
  obtain ⟨-, rfl⟩ := Prod.mk.inj he
  rfl

theorem modifyLabel_nesting {f : JitLabel → JitLabel} (hf : ∀ l, (f l).unreachableDepth = l.unreachableDepth) (index : ℕ) :
    Moves Eq EmitState.nesting (modifyLabel index f) := .still fun _ _ _ h => by
  cases h
  exact modify_depth fun l _ => hf l

instance : Operations Eq EmitState.nesting where
  build i := build_nesting i
  terminate _ := .still fun _ _ _ h => by cases h; rfl
  createBlock := .still fun _ _ _ h => by cases h; rfl
  setBlock _ := .still fun _ _ _ h => by cases h; rfl
  push _ _ := modifyLabel_nesting (by intro l; rfl) 0
  popAny := .still fun s v t h => by
    obtain ⟨l, ls, rest, hl, -, rfl⟩ := (jitPopAny_eq_some s (v, t)).mp h
    simp [EmitState.nesting, hl]
  discard := modifyLabel_nesting (by intro l; rfl) 0
  setTerminated := modifyLabel_nesting (by intro l; rfl) 0
  setLocal _ _ := .still fun _ _ _ h => by cases h; rfl
  setLocals _ := .still fun _ _ _ h => by cases h; rfl
  callHelper _ _ := .seq (context_nesting _) fun _ => build_nesting _
  useTable _ := context_nesting _
  prepareBranch index v := by
    refine .still fun s a t h => ?_
    simp only [jitWasmPrepareBranch, labelAt_bind_eq_some, get_bind, check_bind_eq_some, set_bind, modifyLabel_eq_some,
      Prod.mk.injEq] at h
    obtain ⟨target, hl, -, -, rfl⟩ := h
    exact modify_depth fun l hl' => by
      obtain rfl := Option.some.inj (hl.symm.trans hl')
      exact arrive_depth ..

instance : Moves Eq (JitState.seen EmitState.nesting) jitWasmCall := by
  unfold jitWasmCall
  refine .seq inferInstance fun funcidx => emit_moves (.seq (context_nesting _) fun _ => ?_)
  refine .seq inferInstance fun _ => .seq inferInstance fun _ => .seq inferInstance fun _ => .seq inferInstance fun _ => ?_
  refine .seq inferInstance fun _ => .seq inferInstance fun _ => .seq (build_nesting _) fun _ => ?_
  infer_instance

instance : Moves Eq (JitState.seen EmitState.nesting) jitWasmCallIndirect := by
  unfold jitWasmCallIndirect
  refine .seq inferInstance fun typeidx => .seq inferInstance fun tableidx => emit_moves ?_
  iterate 7 refine .seq inferInstance fun _ => ?_
  refine .seq (build_nesting _) fun _ => ?_
  repeat refine .seq inferInstance fun _ => ?_
  infer_instance

/-- Such a handler keeps the nesting. -/
theorem nesting_eq {α : Type} {m : Emit α} [h : Moves Eq EmitState.nesting m] {s t : EmitState} {a : α} (hm : m s = some (a, t)) :
    t.nesting = s.nesting := eq_of_run (h.moves s a t hm)

/-! ### One opcode -/

/-- The end of a label closes it and leaves the others. -/
theorem jitWasmEnd_nesting {s t : EmitState} (h : jitWasmEnd s = some ((), t)) : t.nesting = s.nesting.tail := by
  simp only [jitWasmEnd, labelAt_bind_eq_some, read_bind] at h
  obtain ⟨label, -, h⟩ := h
  obtain ⟨closing, u, hu, h⟩ := (bind_eq_some _ _ _ _).mp h
  simp only [labelAt_bind_eq_some, check_bind_eq_some, closeLabel, update_bind] at h
  obtain ⟨-, -, -, h⟩ := h
  have rest : Moves Eq EmitState.nesting (do
      handResult closing.push
      if closing.terminated then
        let _ ← labelAt 0
        setTerminated) := inferInstance
  rw [nesting_eq h, ← nesting_eq hu]
  simp [EmitState.nesting]

theorem openBlock_nesting {type : ValueType} {s t : EmitState} (h : openBlock type s = some ((), t)) :
    t.nesting = 0 :: s.nesting := by
  simp only [openBlock, createBlock_bind, pushLabel, update_eq_some, Prod.mk.injEq, true_and] at h
  subst h
  rfl

theorem openLoop_nesting {type : ValueType} {s t : EmitState} (h : openLoop type s = some ((), t)) :
    t.nesting = 0 :: s.nesting := by
  simp only [openLoop, createBlock_bind, terminate_bind, setBlock_bind, get_bind, set_bind, pushLabel, update_eq_some,
    Prod.mk.injEq, true_and] at h
  subst h
  rfl

/-- The opcodes that open a block, in live and in dead code. -/
def Opens (op : ℕ) : Prop := op = 0x02 ∨ op = 0x03 ∨ op = 0x04

instance (op : ℕ) : Decidable (Opens op) := inferInstanceAs (Decidable (_ ∨ _))

/-- The `end` opcode. -/
def Closes (op : ℕ) : Prop := op = 0x0B

instance (op : ℕ) : Decidable (Closes op) := inferInstanceAs (Decidable (_ = _))

/-- What an opcode does to the nesting in live code. -/
theorem jitLiveOpcode_nesting {op : ℕ} {s t : JitState} (h : jitLiveOpcode op s = some ((), t)) :
    (Closes op ∧ t.nesting = s.nesting.tail) ∨ (Opens op ∧ t.nesting = 0 :: s.nesting) ∨
      (¬Closes op ∧ ¬Opens op ∧ t.nesting = s.nesting) := by
  have still {m : Handler Unit} (hm : Moves Eq (JitState.seen EmitState.nesting) m) (h : m s = some ((), t)) :
      t.nesting = s.nesting := eq_of_run (hm.moves s () t h)
  unfold jitLiveOpcode at h
  split at h
  · exact .inl ⟨rfl, jitWasmEnd_nesting (emit_unit_eq_some h).1⟩
  · exact .inr (.inr ⟨by decide, by decide, still (by unfold jitWasmUnreachable; infer_instance) h⟩)
  · obtain ⟨type, -, he⟩ := pull_emit_eq_some h
    exact .inr (.inl ⟨.inl rfl, openBlock_nesting he⟩)
  · obtain ⟨type, -, he⟩ := pull_emit_eq_some h
    exact .inr (.inl ⟨.inr (.inl rfl), openLoop_nesting he⟩)
  · exact .inr (.inr ⟨by decide, by decide, still (by unfold jitWasmBr; infer_instance) h⟩)
  · exact .inr (.inr ⟨by decide, by decide, still (by unfold jitWasmBrIf; infer_instance) h⟩)
  · exact .inr (.inr ⟨by decide, by decide, still (by unfold jitWasmBrTable; infer_instance) h⟩)
  · exact .inr (.inr ⟨by decide, by decide, still (by unfold jitWasmReturn; infer_instance) h⟩)
  · rename_i op hend _ hblock hloop _ _ _ _
    refine .inr (.inr ⟨hend, ?_, still inferInstance h⟩)
    rintro (rfl | rfl | rfl)
    · exact hblock rfl
    · exact hloop rfl
    · -- there is no handler for `if`
      exact absurd h (by simp [dataHandler])

/-- What it does in dead code, which stays dead until the label is closed. -/
theorem jitSkipUnreachable_nesting {op d : ℕ} {ds : List ℕ} {s t : JitState} (hs : s.nesting = d :: ds)
    (h : jitSkipUnreachable op s = some ((), t)) :
    (Closes op ∧ d = 0 ∧ t.nesting = ds) ∨ (t.live = s.live ∧ ((Closes op ∧ d ≠ 0 ∧ t.nesting = (d - 1) :: ds) ∨
      (Opens op ∧ t.nesting = (d + 1) :: ds) ∨ (¬Closes op ∧ ¬Opens op ∧ t.nesting = d :: ds))) := by
  obtain ⟨l, ls, hl, rfl, rfl⟩ : ∃ l ls, s.func.labels = l :: ls ∧ l.unreachableDepth = d ∧ ls.map JitLabel.unreachableDepth = ds := by
    rw [EmitState.nesting, List.map_eq_cons_iff] at hs
    obtain ⟨l, ls, hl, hd, hds⟩ := hs
    exact ⟨l, ls, hl, hd, hds⟩
  have count {f : JitLabel → ℕ} {u : JitState} (hu : u.toEmitState = s.toEmitState)
      (h : emit (modifyLabel 0 fun l => { l with unreachableDepth := f l }) u = some ((), t)) :
      t.live = s.live ∧ t.nesting = f l :: ls.map JitLabel.unreachableDepth := by
    obtain ⟨he, -⟩ := emit_unit_eq_some h
    rw [modifyLabel_eq_some] at he
    obtain ⟨-, he⟩ := Prod.mk.inj he
    exact ⟨by simp [EmitState.live, he, hu, hl], by simp [EmitState.nesting, he, hu, hl]⟩
  unfold jitSkipUnreachable at h
  split_ifs at h with hopen hend
  · obtain ⟨_, code, -, h⟩ := (pull_bind_eq_some _ _ _ _).mp h
    obtain ⟨hlive, ht⟩ := count (u := { s with code }) (f := fun l => l.unreachableDepth + 1) rfl h
    exact .inr ⟨hlive, .inr (.inl ⟨hopen, ht⟩)⟩
  · simp only [emit_bind_eq_some, labelAt_eq_some, Prod.mk.injEq] at h
    obtain ⟨l', _, ⟨_, hl', rfl, rfl⟩, h⟩ := h
    obtain rfl : l = l' := by simpa [hl] using hl'
    split_ifs at h with hdepth
    · refine .inl ⟨hend, hdepth, ?_⟩
      rw [jitWasmEnd_nesting (emit_unit_eq_some h).1]
      simp [EmitState.nesting, hl]
    · obtain ⟨hlive, ht⟩ := count (f := fun l => l.unreachableDepth - 1) rfl h
      exact .inr ⟨hlive, .inl ⟨hend, hdepth, ht⟩⟩
  · obtain ⟨_, code, -, ht⟩ := (pull_eq_some _ _ _).mp h
    obtain ⟨-, rfl⟩ := Prod.mk.inj ht
    exact .inr ⟨rfl, .inr (.inr ⟨hend, hopen, by simp [EmitState.nesting, hl]⟩)⟩

/-- An opcode that was translated, and what it does in its kind of code. -/
theorem jitWasmOpcode_cases {s t : JitState} (h : jitWasmOpcode s = some ((), t)) : ∃ op rest, s.code.data = op :: rest ∧
    ∃ l ls, s.func.labels = l :: ls ∧ ∃ code,
      (l.terminated = true ∧ jitSkipUnreachable op.toNat { s with code } = some ((), t) ∨
        l.terminated = false ∧ jitLiveOpcode op.toNat { s with code } = some ((), t)) ∧ code.data = rest := by
  simp only [jitWasmOpcode, pull_bind_eq_some, emit_bind_eq_some, labelAt_eq_some, Prod.mk.injEq] at h
  obtain ⟨op, code, hop, l, _, ⟨_, hl, rfl, rfl⟩, h⟩ := h
  obtain ⟨ls, hls⟩ : ∃ ls, s.func.labels = l :: ls := by
    cases hs : s.func.labels with
    | nil => simp [hs] at hl
    | cons m ls => exact ⟨ls, by simpa [hs] using hl⟩
  refine ⟨op, code.data, ((bufferPullU8_eq_some _ _).mp hop).1, l, ls, hls, code, ?_, rfl⟩
  split_ifs at h with hd
  · exact .inl ⟨hd, h⟩
  · exact .inr ⟨by simpa using hd, h⟩

theorem depth_eq {s : EmitState} {n : ℕ} (hall : ∀ d ∈ s.nesting, d = 0) (hlen : s.nesting.length = n) : s.depth = n := by
  rw [EmitState.depth, hlen]
  cases hs : s.nesting with
  | nil => rfl
  | cons d ds =>
    rw [hall d (by simp [hs])]
    rfl

/-- One opcode changes the number of open blocks by what it opens and closes. -/
theorem jitWasmOpcode_nesting {s t : JitState} {op : UInt8} {rest : List UInt8} (hs : Nested s.toEmitState)
    (hcode : s.code.data = op :: rest) (h : jitWasmOpcode s = some ((), t)) :
    Nested t.toEmitState ∧ t.depth + (if Closes op.toNat then 1 else 0) = s.depth + if Opens op.toNat then 1 else 0 := by
  obtain ⟨_, _, hop, l, ls, hl, code, hrun, -⟩ := jitWasmOpcode_cases h
  obtain ⟨rfl, rfl⟩ := List.cons.inj (hcode.symm.trans hop)
  have hnesting : s.nesting = l.unreachableDepth :: ls.map JitLabel.unreachableDepth := by simp [EmitState.nesting, hl]
  have hbelow : ∀ d ∈ ls.map JitLabel.unreachableDepth, d = 0 := by
    have := hs.below
    rwa [hnesting] at this
  have disjoint : ¬(Closes op.toNat ∧ Opens op.toNat) := by
    unfold Closes Opens
    omega
  -- the nesting behind the opcode, whose labels below are those of before
  have settle {ds : List ℕ} (ht : t.nesting = ds) (hds : ∀ d ∈ ds, d = 0) : Nested t.toEmitState :=
    ⟨fun d hd => hds d (ht ▸ List.mem_of_mem_tail hd), fun _ d hd => hds d (ht ▸ List.mem_of_mem_head? hd)⟩
  have hdepth : s.depth = ls.length + 1 + l.unreachableDepth := by simp [EmitState.depth, hnesting]
  obtain ⟨hdead, hrun⟩ | ⟨hlive, hrun⟩ := hrun
  · have hdead : s.live = false := by simp [EmitState.live, hl, hdead]
    have still {d : ℕ} (ht : t.nesting = d :: ls.map JitLabel.unreachableDepth) (hlive : t.live = s.live) :
        Nested t.toEmitState ∧ t.depth = ls.length + 1 + d := by
      refine ⟨⟨by rwa [ht], fun h => ?_⟩, by simp [EmitState.depth, ht]⟩
      rw [hlive, hdead] at h
      cases h
    obtain ⟨hclose, hd, ht⟩ | ⟨hlive, ⟨hclose, hd, ht⟩ | ⟨hopen, ht⟩ | ⟨hclose, hopen, ht⟩⟩ :=
      jitSkipUnreachable_nesting (s := { s with code }) hnesting hrun
    · refine ⟨settle ht hbelow, ?_⟩
      have : t.depth = ls.length := depth_eq (ht ▸ hbelow) (by simp [ht])
      grind
    · obtain ⟨ht, hdt⟩ := still ht hlive
      exact ⟨ht, by grind⟩
    · obtain ⟨ht, hdt⟩ := still ht hlive
      exact ⟨ht, by grind⟩
    · obtain ⟨ht, hdt⟩ := still ht hlive
      exact ⟨ht, by grind⟩
  · have hzero : l.unreachableDepth = 0 := hs.live (by simp [EmitState.live, hl, hlive]) _ (by simp [hnesting])
    have hall : ∀ d ∈ s.nesting, d = 0 := by
      rw [hnesting, hzero]
      exact List.forall_mem_cons.mpr ⟨rfl, hbelow⟩
    obtain ⟨hclose, ht⟩ | ⟨hopen, ht⟩ | ⟨hclose, hopen, ht⟩ := jitLiveOpcode_nesting hrun
    · have hds : ∀ d ∈ s.nesting.tail, d = 0 := hs.below
      refine ⟨settle ht hds, ?_⟩
      have : t.depth = ls.length := depth_eq (ht ▸ hds) (by simp [ht, hnesting])
      grind
    · have hds : ∀ d ∈ 0 :: s.nesting, d = 0 := List.forall_mem_cons.mpr ⟨rfl, hall⟩
      refine ⟨settle ht hds, ?_⟩
      have : t.depth = ls.length + 2 := depth_eq (ht ▸ hds) (by simp [ht, hnesting])
      grind
    · refine ⟨settle ht hall, ?_⟩
      have : t.depth = ls.length + 1 := depth_eq (ht ▸ hall) (by simp [ht, hnesting])
      grind

/-! ### Bodies -/

/-- A stretch of a body, with the opcodes that were read in it. -/
inductive Translated (s : JitState) : List UInt8 → JitState → Prop
  | nil : Translated s [] s
  | snoc {t u : JitState} {ops rest : List UInt8} {op : UInt8} (ht : Translated s ops t) (hcode : t.code.data = op :: rest)
      (hlabels : t.func.labels ≠ []) (h : jitWasmOpcode t = some ((), u)) : Translated s (ops ++ [op]) u

/-- How many blocks the opcodes open. -/
def opened (ops : List UInt8) : ℕ := ops.countP fun op => Opens op.toNat

/-- How many blocks they close. -/
def closed (ops : List UInt8) : ℕ := ops.countP fun op => Closes op.toNat

variable {s t : JitState} {ops : List UInt8} {type : FuncType} {ctx : JitContext} {params : List ValueType} {code : List UInt8}

theorem Translated.nesting (h : Translated s ops t) (hs : Nested s.toEmitState) :
    Nested t.toEmitState ∧ t.depth + closed ops = s.depth + opened ops := by
  induction h with
  | nil => exact ⟨hs, rfl⟩
  | @snoc t u ops rest op _ hcode _ h ih =>
    obtain ⟨ht, hdepth⟩ := ih
    obtain ⟨hu, hstep⟩ := jitWasmOpcode_nesting ht hcode h
    refine ⟨hu, ?_⟩
    simp only [opened, closed, List.countP_append, List.countP_singleton, decide_eq_true_eq] at hdepth ⊢
    omega

theorem Translated.suffix (h : Translated s ops t) : t.code.data <:+ s.code.data := by
  induction h with
  | nil => exact List.suffix_refl _
  | @snoc t u _ _ _ _ _ _ h ih =>
    have opcode : Handler.Consumes jitWasmOpcode := inferInstance
    exact (opcode.suffix h).trans ih

instance (type : ValueType) (i : Inst) : Moves Eq EmitState.nesting (addLocal type i) := .seq (build_nesting i) fun _ => inferInstance

instance addParams_nesting (i : ℕ) (types : List Wasm.ValueType) : Moves Eq EmitState.nesting (addParams i types) := by
  induction types generalizing i with
  | nil => unfold addParams; infer_instance
  | cons type types ih => unfold addParams; infer_instance

instance : Moves Eq (JitState.seen EmitState.nesting) addLocalGroup := by unfold addLocalGroup; infer_instance

/-- A body starts in one label. -/
theorem jitEnterFunction_nesting (h : jitEnterFunction type (functionState ctx params code) = some ((), s)) : s.nesting = [0] := by
  obtain ⟨_, u, hu, h⟩ := (bind_eq_some _ _ _ _).mp h
  obtain ⟨n, v, hv, h⟩ := (bind_eq_some _ _ _ _).mp h
  obtain ⟨_, w, hw, h⟩ := (bind_eq_some _ _ _ _).mp h
  have params : Moves Eq EmitState.nesting (do
      addParams 0 type.argTypes
      let retType ← lift (jitRetType type)
      update fun s => { s with func := { s.func with retType } }) :=
    .seq inferInstance fun _ => .seq inferInstance fun _ => .still fun _ _ _ h => by
      cases h
      rfl
  have count : Moves Eq (JitState.seen EmitState.nesting) (pull bufferPullU32) := inferInstance
  have groups : Moves Eq (JitState.seen EmitState.nesting) (forFrom (fun _ => addLocalGroup) 0 n) := inferInstance
  have none : w.nesting = [] := calc
    w.nesting = v.nesting := eq_of_run (groups.moves _ _ _ hw)
    _ = u.nesting := eq_of_run (count.moves _ _ _ hv)
    _ = (functionState ctx _ code).nesting := eq_of_run ((emit_moves params).moves _ _ _ hu)
    _ = [] := rfl
  obtain ⟨he, -⟩ := emit_unit_eq_some h
  simp only [enterBody, createBlock_bind, update_bind, setBlock_bind, pushLabel, update_eq_some, Prod.mk.injEq, true_and] at he
  simp [EmitState.nesting, he] at none ⊢
  exact none

theorem jitEnterFunction_suffix (h : jitEnterFunction type (functionState ctx params code) = some ((), s)) : s.code.data <:+ code := by
  have enter : Handler.Consumes (jitEnterFunction type) := inferInstance
  exact enter.suffix h

/-- A finished body was read opcode by opcode. -/
theorem jitOpcodes_translated {fuel : ℕ} {u : JitState} (hs : Translated s ops t) (h : jitOpcodes fuel t = some ((), u)) :
    ∃ ops', Translated s ops' u := by
  induction fuel generalizing ops t with
  | zero =>
    obtain ⟨-, rfl⟩ := Prod.mk.inj ((pure_eq_some _ _ _).mp h)
    exact ⟨ops, hs⟩
  | succ fuel ih =>
    simp only [jitOpcodes, read_bind] at h
    split_ifs at h with hcode
    · simp only [read_bind, check_bind_eq_some] at h
      obtain ⟨hlabels, h⟩ := h
      obtain ⟨_, v, hv, h⟩ := (bind_eq_some _ _ _ _).mp h
      obtain ⟨op, rest, hop, -⟩ := jitWasmOpcode_cases hv
      exact ih (.snoc hs hop hlabels hv) h
    · obtain ⟨-, rfl⟩ := Prod.mk.inj ((pure_eq_some _ _ _).mp h)
      exact ⟨ops, hs⟩

/-- What an accepted body ends with: the `end` of the outermost label, which is the last byte. -/
structure Finished (ctx : JitContext) (params : List ValueType) (type : FuncType) (code : List UInt8) : Prop where
  last : code.getLast? = some 0x0B
  reads : ∃ s ops t u, jitEnterFunction type (functionState ctx params code) = some ((), s) ∧ Translated s ops t ∧
    t.code.data = [0x0B] ∧ t.func.labels.length = 1 ∧ t.depth = 1 ∧ opened ops = closed ops ∧
      jitWasmOpcode t = some ((), u) ∧ u.func.labels = [] ∧ u.code.data = []

/-- An `end` has no immediates. -/
theorem jitWasmOpcode_end {rest : List UInt8} (hcode : s.code.data = 0x0B :: rest) (h : jitWasmOpcode s = some ((), t)) :
    t.code.data = rest := by
  obtain ⟨op, _, hop, l, ls, hl, code, hrun, rfl⟩ := jitWasmOpcode_cases h
  obtain ⟨rfl, rfl⟩ := List.cons.inj (hcode.symm.trans hop)
  obtain ⟨-, hrun⟩ | ⟨-, hrun⟩ := hrun
  · rw [jitSkipUnreachable, if_neg (by decide), if_pos (by decide)] at hrun
    obtain ⟨l', e, -, hrun⟩ := (emit_bind_eq_some _ _ _ _).mp hrun
    split_ifs at hrun
    · rw [(emit_unit_eq_some hrun).2]
    · rw [(emit_unit_eq_some hrun).2]
  · rw [(emit_unit_eq_some hrun).2]

theorem jitBuildFunction_finished {funcidx : ℕ} {b : Builder} {ctx' : JitContext}
    (h : jitBuildFunction params funcidx ctx = some (b, ctx')) :
    ∃ type code, internalFunction ctx.module funcidx = some (type, code) ∧ Finished ctx params type code := by
  simp only [jitBuildFunction, Option.bind_eq_bind, Option.bind_eq_some_iff, Option.pure_def, Prod.exists] at h
  obtain ⟨type, code, hf, _, s, hs, _, u, hu, _, hg, -⟩ := h
  have done : u.code.data = [] ∧ u.func.labels = [] := by
    by_contra hne
    simp [guard, hne] at hg
  have start := jitEnterFunction_nesting hs
  have hnested : Nested s.toEmitState := ⟨by simp [start], by simp [start]⟩
  have hone : s.depth = 1 := by simp [EmitState.depth, start]
  obtain ⟨ops, hops⟩ := jitOpcodes_translated .nil hu
  refine ⟨type, code, hf, ?_⟩
  cases hops with
  | nil => simp [EmitState.nesting, done.2] at start
  | @snoc t _ ops rest op ht hcode hlabels hlast =>
    obtain ⟨hnested, hdepth⟩ := ht.nesting hnested
    obtain ⟨-, hstep⟩ := jitWasmOpcode_nesting hnested hcode hlast
    have hclosed : u.depth = 0 := by simp [EmitState.depth, EmitState.nesting, done.2]
    have hlen : t.depth = t.func.labels.length + t.nesting.head?.getD 0 := by simp [EmitState.depth, EmitState.nesting]
    have hpos : 0 < t.func.labels.length := List.length_pos_iff.mpr hlabels
    -- only an `end` takes the last open block away
    have hop : Closes op.toNat ∧ t.depth = 1 ∧ t.func.labels.length = 1 := by grind
    obtain ⟨hend, htop, hlen⟩ := hop
    obtain rfl : op = 0x0B := UInt8.toNat_inj.mp hend
    obtain rfl : rest = [] := (jitWasmOpcode_end hcode hlast).symm.trans done.1
    refine ⟨?_, s, ops, t, u, hs, ht, hcode, hlen, htop, by omega, hlast, done.2, done.1⟩
    obtain ⟨before, rfl⟩ := (hcode ▸ ht.suffix).trans (jitEnterFunction_suffix hs)
    simp

/-- Between any two instructions of a body the open labels, and what is open in the dead code of the innermost, are the function
body and what was opened and not closed. So an accepted body is balanced and ends with the `end` that closes it. -/
theorem nesting_tracked (ctx : JitContext) (params : List ValueType) :
    (∀ (type : FuncType) (code : List UInt8) (s : JitState) (ops : List UInt8) (t : JitState),
      jitEnterFunction type (functionState ctx params code) = some ((), s) → Translated s ops t →
        t.func.labels.length + (t.func.labels.head?.map JitLabel.unreachableDepth).getD 0 + closed ops = 1 + opened ops ∧
          ∀ l ∈ t.func.labels.tail, l.unreachableDepth = 0) ∧
    ∀ (funcidx : ℕ) (b : Builder) (ctx' : JitContext), jitBuildFunction params funcidx ctx = some (b, ctx') →
      ∃ type code, internalFunction ctx.module funcidx = some (type, code) ∧ Finished ctx params type code := by
  refine ⟨fun type code s ops t hs ht => ?_, fun funcidx b ctx' h => jitBuildFunction_finished h⟩
  have start := jitEnterFunction_nesting hs
  obtain ⟨hnested, hdepth⟩ := ht.nesting ⟨by simp [start], by simp [start]⟩
  have hone : s.depth = 1 := by simp [EmitState.depth, start]
  have htop : t.depth = t.func.labels.length + (t.func.labels.head?.map JitLabel.unreachableDepth).getD 0 := by
    simp [EmitState.depth, EmitState.nesting]
  refine ⟨by omega, fun l hl => hnested.below _ ?_⟩
  rw [EmitState.nesting, ← List.map_tail]
  exact List.mem_map_of_mem hl

/-- `block br 0 loop end end end`, whose loop is dead. -/
def deadLoop : JitContext :=
  { module := { types := [{}], functions := [0], code := some [[0x00, 0x02, 0x40, 0x0C, 0x00, 0x03, 0x40, 0x0B, 0x0B, 0x0B]] } }

theorem nesting_tracked_deadLoop :
    Finished deadLoop [.ptr, .ptr] {} [0x00, 0x02, 0x40, 0x0C, 0x00, 0x03, 0x40, 0x0B, 0x0B, 0x0B] := by
  have accepted : (jitBuildFunction [.ptr, .ptr] 0 deadLoop).isSome = true := by decide +kernel
  obtain ⟨⟨b, ctx'⟩, h⟩ := Option.isSome_iff_exists.mp accepted
  obtain ⟨type, code, hf, done⟩ := (nesting_tracked deadLoop [.ptr, .ptr]).2 0 b ctx' h
  obtain ⟨rfl, rfl⟩ := Prod.mk.inj (Option.some.inj hf)
  exact done

end SpidirWasm.Jit
