import SpidirWasm.Jit.History
import SpidirWasm.Spidir.WellTyped

/-! The graph of a body is typed where its branches are: every operand of a node, every input
of a phi and every value that is returned has the type that is declared for it. What `br_if`
peeks at and what `br_table` pops for its default target is not checked by the translator
against the targets it stands for, so that this is what has to be known of a body. -/

namespace SpidirWasm.Jit

open Checked
open Relation (ReflTransGen)
open Spidir (Builder Inst Term Value ValueType Block)

/-! ### Merges -/

/-- A merge of a type: its phi has that type, and so has its value, but a loop has none. -/
structure MergeOk (b : Builder) (loop : Bool) (type : ValueType) (m : Merge) : Prop where
  phi : ∀ p, m.phi = some p → p < b.nextValue ∧ ∃ inputs, (b.node p).inst = .phi type inputs
  looped : loop = true → m.phi ≠ none
  value : loop = false → b.Typed m.value type

variable {b b' : Builder} {isLoop : Bool} {type ret : ValueType} {m : Merge} {ms : List Merge} {v : Value} {ls : List JitValue}
  {inputs : ℕ}

theorem MergeOk.mono (h : MergeOk b isLoop type m) (hb : b.Extends b') : MergeOk b' isLoop type m where
  phi p hp := by
    obtain ⟨hlt, vs, hi⟩ := h.phi p hp
    refine ⟨hlt.trans_le hb.nextValue, ?_⟩
    have grows := (hb.node p hlt).inst
    rw [hi] at grows
    generalize (b'.node p).inst = i at grows ⊢
    cases grows with
    | refl => exact ⟨vs, rfl⟩
    | phi _ _ ws => exact ⟨vs ++ ws, rfl⟩
  looped := h.looped
  value hl := hb.typed (h.value hl)

/-- One more value of the type is merged. -/
theorem mergeValue_wellTyped (hm : MergeOk b isLoop type m) (hv : b.Typed v type) (ht : type ≠ .none) (hb : b.WellTyped ret) :
    (mergeValue inputs type v m b).2.WellTyped ret ∧ MergeOk (mergeValue inputs type v m b).2 isLoop type (mergeValue inputs type v m b).1 ∧
      b.Extends (mergeValue inputs type v m b).2 := by
  by_cases he : v = m.value
  · rw [mergeValue_eq he]
    exact ⟨hb, hm, .refl b⟩
  rcases hphi : m.phi with _ | p
  · rw [mergeValue_new he hphi]
    dsimp only
    have hloop : isLoop = false := Bool.eq_false_iff.mpr fun hl => hm.looped hl hphi
    have node : b.NodeOk ⟨.phi type (List.replicate inputs m.value ++ [v]), type, b.cur⟩ := by
      refine ⟨rfl, ht, fun w hw => ?_⟩
      rcases List.mem_append.mp hw with hw | hw
      · exact List.eq_of_mem_replicate hw ▸ hm.value hloop
      · exact List.mem_singleton.mp hw ▸ hv
    refine ⟨hb.build node, ⟨fun p hp => ?_, fun _ => Option.some_ne_none _, fun _ => ?_⟩, b.extends_build _⟩
    · obtain rfl := Option.some.inj hp
      exact ⟨by simp, _, by rw [Builder.build_node, Function.update_self]⟩
    · exact ⟨b.nextValue, rfl, by simp, by rw [Builder.build_node, Function.update_self]; rfl⟩
  · rw [mergeValue_input he hphi]
    obtain ⟨hlt, vs, hi⟩ := hm.phi p hphi
    have grows := b.extends_addPhiInput p v
    exact ⟨hb.addPhiInput hi hv, hm.mono grows, grows⟩

theorem mergeLocals_wellTyped (hm : List.Forall₂ (fun (l : JitValue) m => MergeOk b isLoop l.type m) ls ms)
    (hls : ∀ l ∈ ls, b.Typed l.value l.type ∧ l.type ≠ .none) (hb : b.WellTyped ret) :
    (mergeLocals inputs ls ms b).2.WellTyped ret ∧
      List.Forall₂ (fun (l : JitValue) m => MergeOk (mergeLocals inputs ls ms b).2 isLoop l.type m) ls (mergeLocals inputs ls ms b).1 := by
  induction ls generalizing ms b with
  | nil =>
    cases hm
    exact ⟨hb, .nil⟩
  | cons l ls ih =>
    obtain ⟨m, ms, hhead, htail, rfl⟩ := List.forall₂_cons_left_iff.mp hm
    obtain ⟨hv, ht⟩ := hls l List.mem_cons_self
    obtain ⟨hb', hm', hgrows⟩ := mergeValue_wellTyped hhead hv ht hb
    obtain ⟨hb'', hms⟩ := ih (htail.imp fun _ _ h => h.mono hgrows)
      (fun l hl => ⟨hgrows.typed (hls l (List.mem_cons_of_mem _ hl)).1, (hls l (List.mem_cons_of_mem _ hl)).2⟩) hb'
    exact ⟨hb'', .cons (hm'.mono mergeLocals_extends) hms⟩

/-- A loop starts with a phi for every local. -/
theorem loopPhis_wellTyped (hls : ∀ l ∈ ls, b.Typed l.value l.type ∧ l.type ≠ .none) (hb : b.WellTyped ret) :
    (loopPhis ls b).2.2.WellTyped ret ∧ b.Extends (loopPhis ls b).2.2 ∧
      (loopPhis ls b).1.map JitValue.type = ls.map JitValue.type ∧
      (∀ l ∈ (loopPhis ls b).1, (loopPhis ls b).2.2.Typed l.value l.type ∧ l.type ≠ .none) ∧
      List.Forall₂ (fun type m => MergeOk (loopPhis ls b).2.2 true type m) (ls.map JitValue.type) (loopPhis ls b).2.1 := by
  induction ls generalizing b with
  | nil => exact ⟨hb, .refl b, rfl, fun l hl => absurd hl List.not_mem_nil, .nil⟩
  | cons l ls ih =>
    obtain ⟨hv, ht⟩ := hls l List.mem_cons_self
    have node : b.NodeOk ⟨.phi l.type [l.value], l.type, b.cur⟩ := ⟨rfl, ht, fun w hw => List.mem_singleton.mp hw ▸ hv⟩
    have grows := b.extends_build (.phi l.type [l.value])
    obtain ⟨hb', hgrows, htypes, htyped, hms⟩ := ih
      (fun l hl => ⟨grows.typed (hls l (List.mem_cons_of_mem _ hl)).1, (hls l (List.mem_cons_of_mem _ hl)).2⟩) (hb.build node)
    have first : (b.build (.phi l.type [l.value])).node b.nextValue = ⟨.phi l.type [l.value], l.type, b.cur⟩ := by
      rw [Builder.build_node, Function.update_self]
      rfl
    have made : MergeOk (b.build (.phi l.type [l.value])) true l.type ⟨none, some b.nextValue⟩ :=
      ⟨fun p hp => by obtain rfl := Option.some.inj hp; exact ⟨by simp, _, congrArg Spidir.Node.inst first⟩,
        fun _ => Option.some_ne_none _, fun h => by cases h⟩
    refine ⟨hb', grows.trans hgrows, ?_, fun a ha => ?_, .cons (made.mono hgrows) hms⟩
    · exact congrArg (l.type :: ·) htypes
    · rcases List.mem_cons.mp ha with rfl | ha
      · exact ⟨hgrows.typed ⟨b.nextValue, rfl, by simp, congrArg Spidir.Node.type first⟩, ht⟩
      · exact htyped a ha

/-- Behind a block every local has the value that is merged for it. -/
theorem restoreLocals_wellTyped (hm : List.Forall₂ (fun (l : JitValue) m => MergeOk b false l.type m) ls ms) (hls : ∀ l ∈ ls, l.type ≠ .none) :
    (restoreLocals ls ms).map JitValue.type = ls.map JitValue.type ∧ ∀ a ∈ restoreLocals ls ms, b.Typed a.value a.type ∧ a.type ≠ .none := by
  induction hm with
  | nil => exact ⟨rfl, fun a ha => absurd ha List.not_mem_nil⟩
  | @cons l m ls ms hhead _ ih =>
    obtain ⟨htypes, htyped⟩ := ih fun l hl => hls l (List.mem_cons_of_mem _ hl)
    refine ⟨congrArg (l.type :: ·) htypes, fun a ha => ?_⟩
    rcases List.mem_cons.mp ha with rfl | ha
    · exact ⟨hhead.value rfl, hls l List.mem_cons_self⟩
    · exact htyped a ha

/-! ### States -/

/-- The types of what a branch to a label carries. -/
def JitLabel.mergeTypes (l : JitLabel) (locals : List JitValue) : List ValueType :=
  locals.map JitValue.type ++ if l.mergeResult then [l.resultType] else []

/-- Everything that an instruction may read is typed, and so is the graph. -/
structure TypedState (w : Work) (s : EmitState) : Prop where
  pointers : s.builder.Pointers
  graph : s.builder.WellTyped s.func.retType
  locals : ∀ l ∈ s.func.locals, s.builder.Typed l.value l.type ∧ l.type ≠ .none
  operands : ∀ l ∈ s.func.labels, ∀ v ∈ l.stack, s.builder.Typed v.value v.type
  hand : ∀ v ∈ w.hand, s.builder.Typed v.value v.type
  owed : ∀ p ∈ w.owed, ∀ v ∈ p.2, s.builder.Typed v.value v.type
  merges : ∀ l ∈ s.scopes, l.locals ≠ none →
    List.Forall₂ (fun type m => MergeOk s.builder l.loop type m) (l.mergeTypes s.func.locals) l.merges

namespace TypedState

variable {J : Branching} {w w' : Work} {s t : EmitState} {l p : JitLabel} {ms : List Merge} {k : List JitLabel}

theorem mergeTypes_congr {l l' : JitLabel} (h : l'.kind = l.kind) (locals : List JitValue) : l'.mergeTypes locals = l.mergeTypes locals := by
  have hm := mergeResult_congr h
  have ht : l'.resultType = l.resultType := congrArg (·.2.2) h
  rw [JitLabel.mergeTypes, JitLabel.mergeTypes]
  by_cases hr : l.mergeResult
  · rw [if_pos hr, if_pos (hm.mpr hr), ht]
  · rw [if_neg hr, if_neg fun hr' => hr (hm.mp hr')]

/-- What a branch carries has these types. -/
theorem mergeTypes_carried (l : JitLabel) (locals : List JitValue) (v : Value) :
    (l.carried locals v).map JitValue.type = l.mergeTypes locals := by
  rw [JitLabel.carried, JitLabel.mergeTypes]
  split_ifs <;> simp

/-- A larger graph that is typed. -/
theorem withBuilder (h : TypedState w s) {b : Builder} (hb : s.builder.Extends b) (hg : b.WellTyped s.func.retType) :
    TypedState w (s.withBuilder b) where
  pointers := by
    rw [Builder.Pointers, EmitState.withBuilder_builder, hb.params]
    exact h.pointers
  graph := hg
  locals l hl := ⟨hb.typed (h.locals l hl).1, (h.locals l hl).2⟩
  operands l hl v hv := hb.typed (h.operands l hl v hv)
  hand v hv := hb.typed (h.hand v hv)
  owed p hp v hv := hb.typed (h.owed p hp v hv)
  merges l hl hne := (h.merges l hl hne).imp fun _ _ hm => hm.mono hb

/-- Only the stack of the innermost label changes. -/
theorem withStack {ls : List JitLabel} {k : JitLabel} (h : TypedState w s) (hl : s.func.labels = l :: ls) (hb : k.bare = l.bare)
    (hstack : ∀ v ∈ k.stack, s.builder.Typed v.value v.type) : TypedState w (s.withLabels (k :: ls)) where
  pointers := h.pointers
  graph := h.graph
  locals := h.locals
  operands a ha v hv := by
    rcases List.mem_cons.mp ha with rfl | ha
    · exact hstack v hv
    · exact h.operands a (hl ▸ List.mem_cons_of_mem _ ha) v hv
  hand := h.hand
  owed := h.owed
  merges := by
    rw [scopes_withLabels hl hb]
    exact h.merges

/-- Other values at hand. -/
theorem withWork (h : TypedState w s) (hhand : ∀ v ∈ w'.hand, s.builder.Typed v.value v.type)
    (howed : ∀ p ∈ w'.owed, ∀ v ∈ p.2, s.builder.Typed v.value v.type) : TypedState w' s :=
  { h with hand := hhand, owed := howed }

theorem learn (h : TypedState w s) {v : JitValue} (hv : s.builder.Typed v.value v.type) :
    TypedState { w with hand := insert v w.hand } s :=
  h.withWork (fun a ha => (Set.mem_insert_iff.mp ha).elim (fun he => he ▸ hv) (h.hand a)) h.owed

/-- Other locals of the same types. -/
theorem withLocals {locals : List JitValue} (h : TypedState w s) (htypes : locals.map JitValue.type = s.func.locals.map JitValue.type)
    (hlocals : ∀ l ∈ locals, s.builder.Typed l.value l.type ∧ l.type ≠ .none) : TypedState w (s.withLocals locals) :=
  { h with
    locals := hlocals
    merges := fun l hl hne => by
      rw [JitLabel.mergeTypes, EmitState.withLocals_func_locals, htypes]
      exact h.merges l hl hne }

/-- A label is closed. -/
theorem close {ls : List JitLabel} (h : TypedState w s) (hl : s.func.labels = l :: p :: ls) : TypedState w (s.withLabels (p :: ls)) :=
  { h with
    operands := fun a ha => h.operands a (hl ▸ List.mem_cons_of_mem _ ha)
    merges := fun a ha => h.merges a (scopes_cons hl ▸ List.mem_cons_of_mem _ ha) }

/-- A value of the types of the nodes that may read it. -/
theorem hasType (h : TypedState w s) {i : Inst} {ty : ValueType} (hi : i.HasType (fun v t => (⟨v, t⟩ : JitValue) ∈ w.hand) ty) :
    i.HasType s.builder.Typed ty := hi.mono fun v t hv => h.hand ⟨v, t⟩ hv

/-- A node that reads values at hand. -/
theorem build (h : TypedState w s) {i : Inst} {ty : ValueType} (hi : i.HasType (fun v t => (⟨v, t⟩ : JitValue) ∈ w.hand) ty) :
    TypedState w (s.withBuilder (s.builder.build i)) ∧ s.builder.instType i = ty := by
  have typed := h.hasType hi
  have htype := Builder.instType_of_hasType h.pointers typed
  exact ⟨h.withBuilder (Builder.extends_build _ i) (h.graph.build (htype ▸ Builder.nodeOk_of_hasType h.pointers typed _)), htype⟩

/-- The merges of one of the labels, without its operands. -/
theorem mergesOf (h : TypedState w s) (hmem : l.bare ∈ s.scopes) (hne : l.locals ≠ none) :
    List.Forall₂ (fun type m => MergeOk s.builder l.loop type m) (l.mergeTypes s.func.locals) l.merges :=
  h.merges l.bare hmem hne

/-- A branch that carries a value of the type of its target. -/
theorem arrive {index : ℕ} {target : JitLabel} {v : Value} {due : List Block} (h : TypedState w s) (hs : Shaped w s)
    (hl : s.func.labels[index]? = some target) (hi : index + 1 < s.func.labels.length)
    (hv : target.mergeResult → s.builder.Typed v target.resultType) : TypedState { w with due } (s.arrive index target v) := by
  obtain ⟨pre, post, hpre, hpost⟩ := scopes_arrive (v := v) hl hi
  have mem : target.bare ∈ s.scopes := by simp [hpre]
  have merges := Merges.bare.mp (hs.merges target.bare mem)
  have carried : ∀ a ∈ target.carried s.func.locals v, s.builder.Typed a.value a.type ∧ a.type ≠ .none := by
    intro a ha
    rw [JitLabel.carried] at ha
    split_ifs at ha with hm
    · rcases List.mem_append.mp ha with ha | ha
      · exact h.locals a ha
      · obtain rfl := List.mem_singleton.mp ha
        exact ⟨hv hm, hm.1⟩
    · exact h.locals a ha
  -- what is built, and what the merges are behind it
  obtain ⟨graph, grows, merged⟩ : (target.arrive s.func.locals v s.builder).2.WellTyped s.func.retType ∧
      s.builder.Extends (target.arrive s.func.locals v s.builder).2 ∧
      List.Forall₂ (fun (a : JitValue) m => MergeOk (target.arrive s.func.locals v s.builder).2 target.loop a.type m)
        (target.carried s.func.locals v) (target.arrive s.func.locals v s.builder).1.merges := by
    rcases hlocals : target.locals with _ | ms
    · obtain ⟨hb, hm⟩ := arrive_none hlocals s.func.locals v s.builder
      have hloop : target.loop = false := Bool.eq_false_iff.mpr fun hloop => by
        obtain ⟨ms, hms, -⟩ := merges.loop hloop
        rw [hlocals] at hms
        cases hms
      rw [hb, hm, List.forall₂_map_right_iff, List.forall₂_same]
      exact ⟨h.graph, .refl _, fun a ha => ⟨fun p hp => (Option.some_ne_none p hp.symm).elim, fun hl => absurd hl (by simp [hloop]), fun _ => (carried a ha).1⟩⟩
    · obtain ⟨hb, hm⟩ := arrive_some hlocals (merges.length ms hlocals).symm v s.builder
      have start : List.Forall₂ (fun (a : JitValue) m => MergeOk (s.builder.setBlock target.block) target.loop a.type m)
          (target.carried s.func.locals v) target.merges := by
        have known := h.mergesOf mem (by rw [hlocals]; exact Option.some_ne_none ms)
        rw [← mergeTypes_carried target s.func.locals v, List.forall₂_map_left_iff] at known
        exact known.imp fun _ _ hm => hm.mono (s.builder.extends_setBlock _)
      obtain ⟨graph, merged⟩ := mergeLocals_wellTyped start
        (fun a ha => ⟨(s.builder.extends_setBlock _).typed (carried a ha).1, (carried a ha).2⟩) (h.graph.setBlock target.block)
      have grows := (s.builder.extends_setBlock target.block).trans (mergeLocals_extends :
        (s.builder.setBlock target.block).Extends
          (mergeLocals target.inputs (target.carried s.func.locals v) target.merges (s.builder.setBlock target.block)).2)
      have cur : ∀ b : Builder, b.Extends { b with cur := s.builder.cur } := fun b =>
        ⟨rfl, rfl, le_rfl, le_rfl, fun _ _ => .refl _, fun _ => List.prefix_rfl, List.prefix_rfl⟩
      rw [hb, hm]
      exact ⟨graph.withCur _, grows.trans (cur _), merged.imp fun _ _ hm => hm.mono (cur _)⟩
  have built := h.withBuilder grows graph
  exact {
    pointers := built.pointers
    graph := graph
    locals := built.locals
    operands := fun a ha x hx => by
      obtain ⟨i, hi⟩ := List.mem_iff_getElem?.mp ha
      simp only [EmitState.arrive, EmitState.withLabels_func_labels, List.getElem?_modify] at hi
      obtain ⟨a', ha', rfl⟩ := Option.map_eq_some_iff.mp hi
      refine built.operands a' (List.mem_of_getElem? ha') x ?_
      split_ifs at hx with he
      · subst he
        obtain rfl := Option.some.inj (hl.symm.trans ha')
        rwa [arrive_stack] at hx
      · exact hx
    hand := built.hand
    owed := built.owed
    merges := fun a ha hne => by
      rw [hpost] at ha
      rcases List.mem_append.mp ha with ha' | ha'
      · exact built.merges a (by simp only [EmitState.scopes] at hpre ⊢; exact hpre ▸ List.mem_append_left _ ha') hne
      · rcases List.mem_cons.mp ha' with rfl | ha'
        · have types : (target.arrive s.func.locals v s.builder).1.bare.mergeTypes s.func.locals = target.mergeTypes s.func.locals :=
            mergeTypes_congr (by simp [JitLabel.kind, JitLabel.bare]) _
          have hloop : (target.arrive s.func.locals v s.builder).1.bare.loop = target.loop := arrive_loop ..
          rw [hloop, show (s.arrive index target v).func.locals = s.func.locals from rfl, types,
            ← mergeTypes_carried target s.func.locals v, List.forall₂_map_left_iff]
          exact merged
        · exact built.merges a (by simp only [EmitState.scopes] at hpre ⊢; exact hpre ▸ List.mem_append_right _ (List.mem_cons_of_mem _ ha')) hne }

theorem openBlock {type : ValueType} (h : TypedState w s) (hl : s.func.labels ≠ []) : TypedState w (s.enterBlock type) := by
  have built := h.withBuilder (Builder.extends_createBlock s.builder) h.graph.createBlock
  have scopes : (s.enterBlock type).scopes = ({ block := s.builder.nextBlock, resultType := type } : JitLabel).bare :: s.scopes :=
    scopes_push (s := s) hl _
  exact {
    pointers := built.pointers
    graph := built.graph
    locals := built.locals
    operands := fun a ha v hv => by
      rcases List.mem_cons.mp ha with rfl | ha
      · cases hv
      · exact built.operands a ha v hv
    hand := built.hand
    owed := built.owed
    merges := fun a ha hne => by
      rcases List.mem_cons.mp (scopes ▸ ha) with rfl | ha
      · exact absurd rfl hne
      · exact built.merges a ha hne }

theorem loop {type : ValueType} (h : TypedState w s) (ho : w.owed = []) (hl : s.func.labels ≠ []) :
    TypedState { w with hand := ∅ } (s.enterLoop type) := by
  set b := (s.builder.createBlock.terminate (.branch s.builder.nextBlock)).setBlock s.builder.nextBlock with hb
  have grows : s.builder.Extends b := ((Builder.extends_createBlock _).trans (Builder.extends_terminate _ _)).trans (Builder.extends_setBlock _ _)
  have graph : b.WellTyped s.func.retType := (h.graph.createBlock.terminate (.branch _)).setBlock _
  obtain ⟨graph', grows', types, typed, phis⟩ := loopPhis_wellTyped
    (fun l hl => ⟨grows.typed (h.locals l hl).1, (h.locals l hl).2⟩) graph
  have built := h.withBuilder (grows.trans grows') graph'
  have scopes : (s.enterLoop type).scopes = _ :: s.scopes := scopes_push (s := s) hl _
  set inner : JitLabel := { block := s.builder.nextBlock, loop := true, resultType := type, locals := some (loopPhis s.func.locals b).2.1 }
  have merges : inner.bare.merges = (loopPhis s.func.locals b).2.1 := if_neg fun hm => Bool.noConfusion hm.2
  rw [← merges] at phis
  exact {
    pointers := built.pointers
    graph := graph'
    locals := typed
    operands := fun a ha v hv => by
      rcases List.mem_cons.mp ha with rfl | ha
      · cases hv
      · exact built.operands a ha v hv
    hand := fun v hv => absurd hv (Set.notMem_empty v)
    owed := fun p hp => by rw [ho] at hp; cases hp
    merges := fun a ha hne => by
      have same : (s.enterLoop type).func.locals.map JitValue.type = s.func.locals.map JitValue.type := types
      rw [JitLabel.mergeTypes, same]
      rcases List.mem_cons.mp (scopes ▸ ha) with rfl | ha
      · rw [if_neg fun hm => Bool.noConfusion hm.2, List.append_nil]
        exact phis
      · exact built.merges a ha hne }

/-- The locals and the result that are merged at the end of a block. -/
theorem join (h : TypedState w s) (hs : Shaped w s) {ls : List JitLabel} (ho : w.owed = []) (hl : s.func.labels = l :: p :: ls)
    (hloop : l.loop = false) (hm : l.locals = some ms) :
    TypedState { w with hand := l.joined, mode := .live }
      (((s.withLocals (restoreLocals s.func.locals ms)).withBuilder (s.builder.setBlock l.block)).withLabels (p :: ls)) := by
  have mem : l.bare ∈ s.scopes := scopes_cons hl ▸ List.mem_cons_self
  have merges := h.mergesOf mem (by rw [hm]; exact Option.some_ne_none ms)
  have some : l.merges = if l.mergeResult then ms ++ [l.result] else ms := by rw [JitLabel.merges, hm]
  rw [hloop, JitLabel.mergeTypes, some] at merges
  have hlen : ms.length = s.func.locals.length := (Merges.bare.mp (hs.merges l.bare mem)).length ms hm
  obtain ⟨locals, result⟩ : List.Forall₂ (MergeOk s.builder false) (s.func.locals.map JitValue.type) ms ∧
      (l.mergeResult → MergeOk s.builder false l.resultType l.result) := by
    by_cases hr : l.mergeResult
    · rw [if_pos hr, if_pos hr] at merges
      have front := List.forall₂_take_append _ _ _ merges
      have back := List.forall₂_drop_append _ _ _ merges
      rw [List.take_left' (by simp [hlen])] at front
      rw [List.drop_left' (by simp [hlen])] at back
      exact ⟨front, fun _ => (List.forall₂_cons.mp back).1⟩
    · rw [if_neg hr, if_neg hr, List.append_nil] at merges
      exact ⟨merges, fun hr' => absurd hr' hr⟩
  have restored := restoreLocals_wellTyped (List.forall₂_map_left_iff.mp locals) fun l hl => (h.locals l hl).2
  have entered := ((h.withLocals restored.1 restored.2).withBuilder (Builder.extends_setBlock s.builder l.block) (h.graph.setBlock l.block)).close
    hl
  refine entered.withWork (fun v hv => ?_) fun q hq => by rw [ho] at hq; cases hq
  obtain ⟨hne, rfl⟩ := hv
  exact (result ⟨hne, hloop⟩).value rfl

end TypedState

variable {J : Branching} {w w' : Work} {s t : EmitState}

/-- Every primitive step of an instruction that agrees with its targets on the types keeps it. -/
theorem Prim.typed (h : Prim J w s w' t) (hJ : J.strict) (hs : Shaped w s) (he : TypedState w s) : TypedState w' t := by
  cases h with
  | forget h => exact he.withWork (fun v hv => he.hand v (h hv)) he.owed
  | abandon _ hp => exact he.withWork he.hand fun q hq => he.owed q (hp.mem_iff.mpr (List.mem_cons_of_mem _ hq))
  | context => exact { he with }
  | @pop l ls v rest _ hl hv =>
    have mem : ∀ a ∈ v :: rest, s.builder.Typed a.value a.type := hv ▸ he.operands l (hl ▸ List.mem_cons_self)
    exact (he.withStack (k := { l with stack := rest }) hl rfl fun a ha => mem a (List.mem_cons_of_mem _ ha)).learn (mem v List.mem_cons_self)
  | @peek l ls v rest hl hv => exact he.learn (he.operands l (hl ▸ List.mem_cons_self) v (hv ▸ List.mem_cons_self))
  | @push l ls v _ _ hl hv =>
    refine he.withStack hl rfl fun a ha => ?_
    rcases List.mem_cons.mp ha with rfl | ha
    · exact he.hand a hv
    · exact he.operands l (hl ▸ List.mem_cons_self) a ha
  | discard _ hl => exact he.withStack hl rfl fun a ha => absurd ha List.not_mem_nil
  | @getLocal i v hv => exact he.learn (he.locals v (List.mem_of_getElem? hv)).1
  | @setLocal i l v _ _ hl hv =>
    have old := he.locals l (List.mem_of_getElem? hl)
    refine he.withLocals ?_ fun a ha => ?_
    · obtain ⟨hi, rfl⟩ := List.getElem?_eq_some_iff.mp hl
      rw [List.map_set, ← List.getElem_map JitValue.type (h := by simpa using hi)]
      exact List.set_getElem_self _
    · rcases List.mem_or_eq_of_mem_set ha with ha | rfl
      · exact he.locals a ha
      · exact ⟨he.hand _ hv, old.2⟩
  | @node i ty _ hi ho =>
    obtain ⟨built, htype⟩ := he.build hi
    refine built.learn ⟨s.builder.nextValue, rfl, by simp, ?_⟩
    simp [htype]
  | effect _ hi => exact (he.build hi).1
  | @block Γ h =>
    have built := he.withBuilder (Builder.extends_createBlock _) he.graph.createBlock
    refine built.withWork built.hand fun p hp => ?_
    rcases List.mem_cons.mp hp with rfl | hp
    · exact fun v hv => built.hand v (h hv)
    · exact built.owed p hp
  | @enter k Γ owed _ hk _ =>
    have built := he.withBuilder (Builder.extends_setBlock _ k) (he.graph.setBlock k)
    exact built.withWork (built.owed _ (hk.mem_iff.mpr List.mem_cons_self)) fun p hp => built.owed p (hk.mem_iff.mpr (List.mem_cons_of_mem _ hp))
  | @term tm due _ ht _ =>
    have built := he.withBuilder (Builder.extends_terminate _ tm)
      (he.graph.terminate ((ht hJ).mono fun v ty hv => he.hand ⟨v, ty⟩ hv))
    exact built.withWork built.hand built.owed
  | arrive _ hl hi _ hv => exact he.arrive hs hl hi fun hm => he.hand _ ((hv hm).2 hJ)
  | @mark l ls _ hl => exact { he.withStack (k := { l with terminated := true }) hl rfl (he.operands l (hl ▸ List.mem_cons_self)) with }
  | @skip l ls _ hl depth =>
    exact he.withStack (k := { l with unreachableDepth := depth }) hl rfl (he.operands l (hl ▸ List.mem_cons_self))
  | openBlock _ _ hl => exact he.openBlock hl
  | loop _ ho _ hl => exact he.loop ho hl
  | join _ ho _ hl hloop hm => exact he.join hs ho hl hloop hm
  | @deadJoin l p ls _ ho _ hl _ _ =>
    exact ((he.withBuilder (Builder.extends_setBlock _ l.block) (he.graph.setBlock l.block)).close hl).withWork
      (fun v hv => absurd hv (Set.notMem_empty v)) fun p hp => by rw [ho] at hp; cases hp
  | endLoop _ _ _ hl => exact { he.close hl with }
  | leave _ ho =>
    exact { he with
      operands := fun a ha => absurd ha List.not_mem_nil
      hand := fun v hv => absurd hv (Set.notMem_empty v)
      merges := fun a ha => absurd ha List.not_mem_nil }

theorem Prim.retType (h : Prim J w s w' t) : t.func.retType = s.func.retType := by
  cases h <;> rfl

/-- At the start the locals are typed, and there is nothing else. -/
theorem Entered.typed {ctx : JitContext} {type : Wasm.FuncType} {params : List ValueType} {ret : ValueType}
    (hp : jitParams type = some params) (h : Entered ctx params ret s) : TypedState {} s where
  pointers := by
    obtain ⟨args, -, rfl⟩ := Option.map_eq_some_iff.mp hp
    rw [Builder.Pointers, h.params]
    exact ⟨rfl, rfl⟩
  graph := ⟨fun n hn => (h.nodes n hn).1, fun k t ht => absurd ht (by simp [h.items])⟩
  locals := h.locals
  operands l hl v hv := by
    rw [h.labels, List.mem_singleton] at hl
    subst hl
    cases hv
  hand v hv := absurd hv (Set.notMem_empty v)
  owed p hp := absurd hp List.not_mem_nil
  merges l hl := by simp [EmitState.scopes, h.labels] at hl

/-- Every live `br_if` and `br_table` of a body agrees with its targets on the types. -/
def AgreesOnTypes (ctx : JitContext) (funcidx : ℕ) : Prop := EachLive (fun i s => i.Strict s) ctx funcidx

/-- Between any two opcodes of such a body everything is typed, by the type of the function. -/
theorem Reached.typed {ctx : JitContext} {funcidx : ℕ} {s : JitState} (hctx : ctx.Ok) (hagree : AgreesOnTypes ctx funcidx)
    (h : Reached ctx funcidx s) : TypedState s.idle s.toEmitState ∧
      ∃ type code, internalFunction ctx.module funcidx = some (type, code) ∧ jitRetType type = some s.func.retType :=
  hagree.keeps (I := fun w s => TypedState w s ∧
      ∃ type code, internalFunction ctx.module funcidx = some (type, code) ∧ jitRetType type = some s.func.retType) hctx
    (fun type code params ret s hf hp hret hs => ⟨hs.typed hp, type, code, hf, by rw [hs.retType, hret]⟩)
    (fun i s hlive hdead w u w' v step hs ⟨he, hret⟩ => by
      refine ⟨step.typed ?_ hs he, step.retType ▸ hret⟩
      show i.Strict s
      rcases hl : s.live with _ | _
      · rcases hdead hl with rfl | rfl <;> trivial
      · exact hlive hl)
    h

/-- The graph of a body whose live `br_if` and `br_table` agree with their targets on the types
is typed: every operand of a node and every input of a phi has the type that the node declares
for it, every condition is one, and every return has a value of the type that the function
returns, if it returns one. -/
theorem Translation.wellTyped (T : Translation) (h : AgreesOnTypes T.ctx T.funcidx) :
    ∃ type code ret, internalFunction T.ctx.module T.funcidx = some (type, code) ∧ jitRetType type = some ret ∧ T.graph.WellTyped ret := by
  obtain ⟨s, hs, -, -, hgraph, -⟩ := T.last
  obtain ⟨typed, type, code, hf, hret⟩ := hs.typed T.ok h
  exact ⟨type, code, _, hf, hret, hgraph ▸ typed.graph⟩

instance (s : EmitState) (i : Instr) : Decidable (i.Strict s) :=
  match i with
  | .brIf index => inferInstanceAs (Decidable (s.targetType index ≠ .none → (s.operand 1).map JitValue.type = some (s.targetType index)))
  | .brTable table default => inferInstanceAs (Decidable (∀ i ∈ table, s.targetType i = s.targetType default ∨
      s.targetType i = .none ∧ ¬isFuncbodyLabel s.func i))
  | .data | .unreachable | .block _ | .loop _ | .br _ | .ret | .fin => .isTrue trivial

theorem Translation.wellTyped_blockResult : Translation.blockResult.graph.WellTyped .i32 := by
  obtain ⟨type, code, ret, hf, hret, typed⟩ := Translation.blockResult.wellTyped (.of_replay (by decide +kernel))
  obtain ⟨rfl, -⟩ := Prod.mk.inj (Option.some.inj (hf.symm : some (type, code) = some (⟨[.i32], [.i32]⟩, _)))
  exact Option.some.inj hret ▸ typed

end SpidirWasm.Jit
