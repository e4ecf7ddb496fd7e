import SpidirWasm.Jit.History
import SpidirWasm.Spidir.Blocks

/-! Which blocks have a terminator. A block waits for one while a handler has still to enter
it, until the end of its label, and while it is the current one; every other block has one,
and nothing behind it. Only the case block of a live `br_table` without targets is left behind. -/

namespace SpidirWasm.Jit

open Checked
open Relation (ReflTransGen)
open Spidir (Builder Inst Term Value ValueType Block Item Edge)

variable {J : Branching} {w w' : Work} {s t : EmitState} {lost : Set Block}

/-- Merges that are all phis get inputs only. -/
theorem mergeLocals_inputs {inputs : ℕ} {ls : List JitValue} {ms : List Merge} {b : Builder} (h : ∀ m ∈ ms, m.phi ≠ none) :
    (mergeLocals inputs ls ms b).2.items = b.items ∧ (mergeLocals inputs ls ms b).2.nextValue = b.nextValue := by
  induction ls generalizing ms b with
  | nil => exact ⟨rfl, rfl⟩
  | cons l ls ih =>
    rcases ms with _ | ⟨m, ms⟩
    · exact ⟨rfl, rfl⟩
    obtain ⟨hitems, hnext⟩ := ih (b := (mergeValue inputs l.type l.value m b).2) fun m (hm : m ∈ ms) => h m (List.mem_cons_of_mem _ hm)
    have first : (mergeValue inputs l.type l.value m b).2.items = b.items ∧
        (mergeValue inputs l.type l.value m b).2.nextValue = b.nextValue := by
      by_cases he : l.value = m.value
      · rw [mergeValue_eq he]
        exact ⟨rfl, rfl⟩
      · obtain ⟨p, hp⟩ := Option.ne_none_iff_exists'.mp (h m List.mem_cons_self)
        rw [mergeValue_input he hp]
        exact ⟨rfl, rfl⟩
    exact ⟨hitems.trans first.1, hnext.trans first.2⟩

/-- A branch to a loop builds nothing in its block. -/
theorem arrive_loop_items {l : JitLabel} {locals : List JitValue} {b : Builder} (h : Merges b locals.length l) (hloop : l.loop = true)
    (v : Value) : (l.arrive locals v b).2.items = b.items := by
  obtain ⟨ms, hms, hall⟩ := h.loop hloop
  have merges : l.merges = ms := by
    rw [JitLabel.merges, hms]
    exact if_neg fun hm => by rw [hm.2] at hloop; cases hloop
  obtain ⟨hb, -⟩ := arrive_some hms (h.length ms hms).symm v b
  rw [hb, merges]
  exact (mergeLocals_inputs fun m hm => (hall m hm).2).1

/-! ### Blocks that wait for their terminator -/

/-- The blocks without a terminator, next to those that were given up. -/
def waiting (lost : Set Block) (w : Work) (s : EmitState) : Set Block :=
  { k | k ∈ w.owed.map Prod.fst ∨ k ∈ pending s.scopes ∨ k ∈ lost ∨ s.builder.cur = some k ∧ w.mode = .live }

/-- The blocks that wait have no terminator, all others do, and those that were given up
are never met again. -/
structure Completed (lost : Set Block) (w : Work) (s : EmitState) : Prop where
  blocks : s.builder.Sealing (waiting lost w s)
  lost : ∀ k ∈ lost, k < s.builder.nextBlock ∧ k ∉ w.owed.map Prod.fst ∧ k ∉ s.scopes.map JitLabel.block ∧ s.builder.cur ≠ some k

namespace Completed

variable {k c : Block} {l p : JitLabel} {ls : List JitLabel}

theorem current (hc : s.builder.cur = some c) (hm : w.mode = .live) : c ∈ waiting lost w s := .inr (.inr (.inr ⟨hc, hm⟩))

/-- A step that has nothing to do with the blocks. -/
theorem congr (h : Completed lost w s) (hb : t.builder = s.builder) (ho : w'.owed = w.owed) (hsc : t.scopes = s.scopes)
    (hm : w'.mode = .live ↔ w.mode = .live) : Completed lost w' t := by
  have same : waiting lost w' t = waiting lost w s := by
    ext j
    rw [waiting, waiting, Set.mem_ofPred_eq, Set.mem_ofPred_eq, hb, ho, hsc, hm]
  exact ⟨same ▸ hb ▸ h.blocks, by rw [hb, ho, hsc]; exact h.lost⟩

/-- A block is given up. -/
theorem abandon {q : Block × Hand} {owed : List (Block × Hand)} (h : Completed lost w s) (hs : Shaped w s) (hp : w.owed.Perm (q :: owed)) :
    Completed (insert q.1 lost) { w with owed } s := by
  have fst : (w.owed.map Prod.fst).Perm (q.1 :: owed.map Prod.fst) := hp.map Prod.fst
  have mem : q.1 ∈ w.owed.map Prod.fst := fst.mem_iff.mpr List.mem_cons_self
  obtain ⟨hnodup, -, apart⟩ := List.nodup_append.mp hs.blocks
  have gone : q.1 ∉ owed.map Prod.fst := (List.nodup_cons.mp (fst.nodup_iff.mp hnodup)).1
  have same : waiting (insert q.1 lost) { w with owed } s = waiting lost w s := by
    ext j
    rw [waiting, waiting, Set.mem_ofPred_eq, Set.mem_ofPred_eq, fst.mem_iff, List.mem_cons, Set.mem_insert_iff]
    tauto
  refine ⟨same ▸ h.blocks, fun j hj => ?_⟩
  rcases Set.mem_insert_iff.mp hj with rfl | hj
  · obtain ⟨c, hc, -, hco, -⟩ := hs.cur
    exact ⟨(hs.bound _ (List.mem_append_left _ mem)).2, gone, fun hsc => apart _ mem _ hsc rfl,
      fun hcur => hco (Option.some.inj (hcur.symm.trans hc) ▸ mem)⟩
  · obtain ⟨hlt, ho, hrest⟩ := h.lost j hj
    exact ⟨hlt, fun ho' => ho (fst.mem_iff.mpr (List.mem_cons_of_mem _ ho')), hrest⟩

theorem build (h : Completed lost w s) (hs : Shaped w s) (hm : w.mode = .live) (i : Inst) (hand : Hand) :
    Completed lost { w with hand } (s.withBuilder (s.builder.build i)) := by
  obtain ⟨c, hc, hlt, -, -⟩ := hs.cur
  have same : waiting lost { w with hand } (s.withBuilder (s.builder.build i)) = waiting lost w s := by
    ext j
    simp [waiting, EmitState.scopes]
  exact ⟨same ▸ h.blocks.build hc (current hc hm) hlt i, by simpa [EmitState.scopes] using h.lost⟩

theorem block (h : Completed lost w s) (Γ : Hand) :
    Completed lost { w with owed := (s.builder.nextBlock, Γ) :: w.owed } (s.withBuilder s.builder.createBlock) := by
  have same : waiting lost { w with owed := (s.builder.nextBlock, Γ) :: w.owed } (s.withBuilder s.builder.createBlock) =
      insert s.builder.nextBlock (waiting lost w s) := by
    ext j
    simp only [waiting, List.map_cons, List.mem_cons, Set.mem_ofPred_eq, Set.mem_insert_iff, EmitState.withBuilder_builder,
      Builder.createBlock_cur, or_assoc]
    rfl
  refine ⟨same ▸ h.blocks.createBlock, fun j hj => ?_⟩
  obtain ⟨hlt, ho, hrest⟩ := h.lost j hj
  refine ⟨hlt.trans (Nat.lt_succ_self _), ?_, hrest⟩
  rw [List.map_cons, List.mem_cons, not_or]
  exact ⟨hlt.ne, ho⟩

theorem enter {Γ : Hand} {owed : List (Block × Hand)} (h : Completed lost w s) (hm : w.mode = .sealed) (hk : w.owed.Perm ((k, Γ) :: owed)) :
    Completed lost { w with hand := Γ, owed, mode := .live } (s.withBuilder (s.builder.setBlock k)) := by
  have fst : (w.owed.map Prod.fst).Perm (k :: owed.map Prod.fst) := hk.map Prod.fst
  have same : waiting lost { w with hand := Γ, owed, mode := .live } (s.withBuilder (s.builder.setBlock k)) = waiting lost w s := by
    ext j
    have scopes : (s.withBuilder (s.builder.setBlock k)).scopes = s.scopes := rfl
    simp only [waiting, scopes, Set.mem_ofPred_eq, fst.mem_iff, List.mem_cons, EmitState.withBuilder_builder, Builder.setBlock_cur,
      Option.some.injEq, hm, reduceCtorEq, and_true, and_false, or_false, eq_comm (a := k)]
    tauto
  refine ⟨same ▸ h.blocks.setBlock k, fun j hj => ?_⟩
  obtain ⟨hlt, ho, hsc, -⟩ := h.lost j hj
  rw [fst.mem_iff, List.mem_cons, not_or] at ho
  exact ⟨hlt, ho.2, hsc, fun hcur => ho.1 (Option.some.inj hcur).symm⟩

theorem term {due : List Block} (h : Completed lost w s) (hs : Shaped w s) (hm : w.mode = .live) (t : Term) :
    Completed lost { w with due, mode := .sealed } (s.withBuilder (s.builder.terminate t)) := by
  obtain ⟨c, hc, hlt, hco, hcp⟩ := hs.cur
  have same : waiting lost { w with due, mode := .sealed } (s.withBuilder (s.builder.terminate t)) = waiting lost w s \ {c} := by
    ext j
    have scopes : (s.withBuilder (s.builder.terminate t)).scopes = s.scopes := rfl
    simp only [waiting, scopes, Set.mem_ofPred_eq, Set.mem_sdiff, Set.mem_singleton_iff, hm, hc, Option.some.injEq, reduceCtorEq, and_true,
      and_false, or_false]
    constructor
    · rintro hj
      refine ⟨by tauto, ?_⟩
      rintro rfl
      rcases hj with hj | hj | hj
      · exact hco hj
      · exact hcp hj
      · exact (h.lost _ hj).2.2.2 hc
    · rintro ⟨hj | hj | hj | rfl, hne⟩
      · exact .inl hj
      · exact .inr (.inl hj)
      · exact .inr (.inr hj)
      · exact absurd rfl hne
  refine ⟨same ▸ h.blocks.terminate hc (current hc hm) hlt t, fun j hj => ?_⟩
  rw [EmitState.withBuilder_builder, Builder.terminate_nextBlock, Builder.terminate_cur]
  exact h.lost j hj

theorem arrive {index : ℕ} {target : JitLabel} {v : Value} {due : List Block} (h : Completed lost w s) (hs : Shaped w s)
    (hl : s.func.labels[index]? = some target) (hi : index + 1 < s.func.labels.length) :
    Completed lost { w with due } (s.arrive index target v) := by
  obtain ⟨pre, post, hpre, hpost⟩ := scopes_arrive (v := v) hl hi
  have mem : target.bare ∈ s.scopes := by simp [hpre]
  have merges := Merges.bare.mp (hs.merges target.bare mem)
  obtain ⟨only, hcur⟩ := arrive_phisOnly (b := s.builder) (v := v) (fun ms hms => (merges.length ms hms).symm)
    fun p hp => ⟨(merges.phis p hp).1, (merges.phis p hp).2.1⟩
  have blocks : (s.arrive index target v).scopes.map JitLabel.block = s.scopes.map JitLabel.block := by
    simp [hpre, hpost, JitLabel.bare]
  have pend : pending (s.arrive index target v).scopes = pending s.scopes := by
    simp [pending, hpre, hpost, List.filter_cons, JitLabel.bare, apply_ite]
  have same : waiting lost { w with due } (s.arrive index target v) = waiting lost w s := by
    ext j
    rw [waiting, waiting, Set.mem_ofPred_eq, Set.mem_ofPred_eq, pend, show (s.arrive index target v).builder.cur = _ from hcur]
  obtain ⟨new, hnew, -⟩ := only.here
  have lt : target.block < s.builder.nextBlock :=
    (hs.bound target.block (List.mem_append_right _ (List.mem_map.mpr ⟨target.bare, mem, rfl⟩))).2
  refine ⟨?_, ?_⟩
  · rw [same]
    refine h.blocks.add (k := target.block) ?_ only.items only.edges only.nextBlock lt
    cases hloop : target.loop with
    | true => exact .inl (congrFun (arrive_loop_items merges hloop v) _)
    | false =>
      refine .inr ⟨.inr (.inl ?_), new, hnew⟩
      exact List.mem_map.mpr ⟨target.bare, List.mem_filter.mpr ⟨mem, by simp [JitLabel.bare, hloop]⟩, rfl⟩
  · intro j hj
    rw [blocks, show (s.arrive index target v).builder.nextBlock = _ from only.nextBlock, show (s.arrive index target v).builder.cur = _ from hcur]
    exact h.lost j hj

theorem openBlock {type : ValueType} (h : Completed lost w s) (ho : w.owed = []) (hl : s.func.labels ≠ []) :
    Completed lost w (s.enterBlock type) := by
  have scopes : (s.enterBlock type).scopes = ({ block := s.builder.nextBlock, resultType := type } : JitLabel).bare :: s.scopes :=
    scopes_push (s := s) hl _
  have same : waiting lost w (s.enterBlock type) = insert s.builder.nextBlock (waiting lost w s) := by
    ext j
    have pend : pending (s.enterBlock type).scopes = s.builder.nextBlock :: pending s.scopes := by
      rw [scopes]
      rfl
    have cur : (s.enterBlock type).builder.cur = s.builder.cur := rfl
    simp only [waiting, pend, cur, ho, List.map_nil, List.not_mem_nil, false_or, List.mem_cons, Set.mem_ofPred_eq, Set.mem_insert_iff, or_assoc]
  refine ⟨same ▸ h.blocks.createBlock, fun j hj => ?_⟩
  obtain ⟨hlt, ho', hsc, hcur⟩ := h.lost j hj
  refine ⟨hlt.trans (Nat.lt_succ_self _), ho', ?_, hcur⟩
  rw [scopes, List.map_cons, List.mem_cons, not_or]
  exact ⟨hlt.ne, hsc⟩

theorem loop {type : ValueType} {hand : Hand} (h : Completed lost w s) (hs : Shaped w s) (hm : w.mode = .live) (ho : w.owed = [])
    (hl : s.func.labels ≠ []) : Completed lost { w with hand } (s.enterLoop type) := by
  obtain ⟨c, hc, hlt, -, hcp⟩ := hs.cur
  obtain ⟨only, hcur⟩ := loopPhis_phisOnly s.func.locals (k := s.builder.nextBlock)
    (b := (s.builder.createBlock.terminate (.branch s.builder.nextBlock)).setBlock s.builder.nextBlock) rfl
  have scopes : (s.enterLoop type).scopes = _ :: s.scopes := scopes_push (s := s) hl _
  have same : waiting lost { w with hand } (s.enterLoop type) = insert s.builder.nextBlock (waiting lost w s) \ {c} := by
    ext j
    have pend : pending (s.enterLoop type).scopes = pending s.scopes := by
      rw [scopes]
      rfl
    have cur : (s.enterLoop type).builder.cur = some s.builder.nextBlock := hcur
    simp only [waiting, pend, cur, ho, hm, hc, List.map_nil, List.not_mem_nil, false_or, and_true, Option.some.injEq, Set.mem_ofPred_eq,
      Set.mem_sdiff, Set.mem_insert_iff, Set.mem_singleton_iff]
    constructor
    · rintro (hj | hj | rfl)
      · exact ⟨.inr (.inl hj), fun he => hcp (he ▸ hj)⟩
      · exact ⟨.inr (.inr (.inl hj)), fun he => (h.lost j hj).2.2.2 (he ▸ hc)⟩
      · exact ⟨.inl rfl, hlt.ne'⟩
    · rintro ⟨rfl | hj | hj | rfl, hne⟩
      · exact .inr (.inr rfl)
      · exact .inl hj
      · exact .inr (.inl hj)
      · exact absurd rfl hne
  have branched : ((s.builder.createBlock.terminate (.branch s.builder.nextBlock)).setBlock s.builder.nextBlock).Sealing _ :=
    (h.blocks.createBlock.terminate hc (.inr (current hc hm)) (hlt.trans (Nat.lt_succ_self _)) _).setBlock _
  obtain ⟨new, hnew, -⟩ := only.here
  refine ⟨?_, fun j hj => ?_⟩
  · rw [same]
    exact branched.add (.inr ⟨⟨.inl rfl, hlt.ne'⟩, new, hnew⟩) only.items only.edges only.nextBlock (by simp)
  · obtain ⟨hlt', ho', hsc, -⟩ := h.lost j hj
    have nextBlock : (s.enterLoop type).builder.nextBlock = s.builder.nextBlock + 1 := only.nextBlock.trans (by simp)
    rw [nextBlock, scopes, List.map_cons, List.mem_cons, not_or, show (s.enterLoop type).builder.cur = _ from hcur]
    exact ⟨hlt'.trans (Nat.lt_succ_self _), ho', ⟨hlt'.ne, hsc⟩, fun he => hlt'.ne (Option.some.inj he).symm⟩

/-- The end of a label whose block was not entered. -/
theorem close (h : Completed lost w s) (hm : w.mode ≠ .live) (ho : w.owed = []) (hl : s.func.labels = l :: p :: ls)
    (hloop : l.loop = false) (locals : List JitValue) (hand : Hand) : Completed lost { w with hand, mode := .live }
      (((s.withLocals locals).withBuilder (s.builder.setBlock l.block)).withLabels (p :: ls)) := by
  have scopes : s.scopes = l.bare :: (s.withLabels (p :: ls)).scopes := scopes_cons hl
  have pend : pending s.scopes = l.block :: pending (s.withLabels (p :: ls)).scopes := by
    simp [scopes, pending, JitLabel.bare, hloop]
  have rest : (((s.withLocals locals).withBuilder (s.builder.setBlock l.block)).withLabels (p :: ls)).scopes =
      (s.withLabels (p :: ls)).scopes := rfl
  have same : waiting lost { w with hand, mode := .live }
      (((s.withLocals locals).withBuilder (s.builder.setBlock l.block)).withLabels (p :: ls)) = waiting lost w s := by
    ext j
    simp only [waiting, pend, rest, ho, Set.mem_ofPred_eq, List.mem_cons, hm, EmitState.withLabels_builder, EmitState.withBuilder_builder,
      Builder.setBlock_cur, Option.some.injEq, and_true, and_false, or_false, eq_comm (a := l.block)]
    tauto
  refine ⟨same ▸ h.blocks.setBlock l.block, fun j hj => ?_⟩
  obtain ⟨hlt, ho', hsc, -⟩ := h.lost j hj
  rw [scopes, List.map_cons, List.mem_cons, not_or] at hsc
  exact ⟨hlt, ho', hsc.2, fun hcur => hsc.1 (Option.some.inj hcur).symm⟩

theorem endLoop {mode : Mode} (h : Completed lost w s) (hl : s.func.labels = l :: p :: ls) (hloop : l.loop = true)
    (hm : mode = .live ↔ w.mode = .live) : Completed lost { w with mode } (s.withLabels (p :: ls)) := by
  have scopes : s.scopes = l.bare :: (s.withLabels (p :: ls)).scopes := scopes_cons hl
  have pend : pending s.scopes = pending (s.withLabels (p :: ls)).scopes := by
    simp [scopes, pending, JitLabel.bare, hloop]
  have same : waiting lost { w with mode } (s.withLabels (p :: ls)) = waiting lost w s := by
    ext j
    rw [waiting, waiting, Set.mem_ofPred_eq, Set.mem_ofPred_eq, pend, hm]
    rfl
  refine ⟨same ▸ h.blocks, fun j hj => ?_⟩
  obtain ⟨hlt, ho', hsc, hcur⟩ := h.lost j hj
  rw [scopes, List.map_cons, List.mem_cons, not_or] at hsc
  exact ⟨hlt, ho', hsc.2, hcur⟩

end Completed

/-- Every primitive step keeps it, and gives up a block only where the instruction leaves one behind. -/
theorem Prim.completed (h : Prim J w s w' t) (hs : Shaped w s) (he : Completed lost w s) :
    ∃ lost', lost ⊆ lost' ∧ (¬J.leaks → lost' = lost) ∧ Completed lost' w' t := by
  have still : Completed lost w' t → ∃ lost', lost ⊆ lost' ∧ (¬J.leaks → lost' = lost) ∧ Completed lost' w' t :=
    fun he' => ⟨lost, subset_rfl, fun _ => rfl, he'⟩
  cases h with
  | abandon hleaks hp => exact ⟨_, Set.subset_insert _ _, fun hno => absurd hleaks hno, he.abandon hs hp⟩
  | forget | context | peek | getLocal => exact still (he.congr rfl rfl rfl .rfl)
  | pop _ hl | push _ _ hl | discard _ hl | skip _ hl => exact still (he.congr rfl rfl (scopes_withLabels hl rfl) .rfl)
  | mark hm hl => exact still (he.congr rfl rfl (scopes_withLabels hl rfl) (by simp [hm]))
  | setLocal => exact still (he.congr rfl rfl rfl .rfl)
  | node hm | effect hm => exact still (he.build hs hm _ _)
  | block => exact still (he.block _)
  | enter hm hk => exact still (he.enter hm hk)
  | term hm => exact still (he.term hs hm _)
  | arrive _ hl hi => exact still (he.arrive hs hl hi)
  | openBlock _ ho hl => exact still (he.openBlock ho hl)
  | loop hm ho _ hl => exact still (he.loop hs hm ho hl)
  | join hm ho _ hl hloop => exact still (he.close hm ho hl hloop _ _)
  | deadJoin hm ho _ hl hloop => exact still (he.close hm ho hl hloop s.func.locals _)
  | endLoop hm ho _ hl hloop => exact still (he.endLoop hl hloop (by split_ifs <;> simp_all))
  | leave hm _ _ hl => exact still (he.congr rfl rfl (by simp [EmitState.scopes, hl]) (by simp [hm]))

/-- So does any number of them. -/
theorem Prims.completed (h : Prims J w s w' t) (hs : Shaped w s) (he : Completed lost w s) :
    ∃ lost', lost ⊆ lost' ∧ (¬J.leaks → lost' = lost) ∧ Completed lost' w' t := by
  refine (h.keeps (I := fun w' t => Shaped w' t ∧ ∃ lost', lost ⊆ lost' ∧ (¬J.leaks → lost' = lost) ∧ Completed lost' w' t) ?_
    ⟨hs, lost, subset_rfl, fun _ => rfl, he⟩).2
  rintro w s w' t step ⟨hs, lost', hsub, hsame, he⟩
  obtain ⟨lost'', hsub', hsame', he'⟩ := step.completed hs he
  exact ⟨step.shaped hs, lost'', hsub.trans hsub', fun hno => (hsame' hno).trans (hsame hno), he'⟩

/-- At the start there is the entry block alone. -/
theorem Entered.completed {ctx : JitContext} {params : List ValueType} {ret : ValueType} (h : Entered ctx params ret s) : Completed ∅ {} s where
  blocks := by
    have empty : ∀ k, s.builder.Unclosed k := fun k => ⟨⟨[], h.items k⟩, by rw [Builder.edgesFrom, h.edges]; rfl⟩
    refine ⟨fun k _ => empty k, fun k hk hopen => absurd ?_ hopen, fun k _ => empty k⟩
    obtain rfl : k = 0 := by
      rw [h.nextBlock] at hk
      exact Nat.lt_one_iff.mp hk
    exact Completed.current h.cur rfl
  lost k hk := absurd hk (Set.notMem_empty k)

/-! ### A table without targets -/

theorem Act.brTable_emits {table : List ℕ} {default : ℕ} (h : Act (.brTable table default) s t) (hl : s.live = true) :
    emitBrTable table default s = some ((), t) := by
  cases h with
  | brTable _ h => exact h
  | skip _ hls hd => simp [EmitState.live, hls, hd] at hl

/-- A table without targets leaves an empty block behind, and an edge to it. -/
theorem emitBrTable_orphan {default : ℕ} (hs : s.live = true) (hshape : Shaped s.idle s) (h : emitBrTable [] default s = some ((), t)) :
    ∃ k, s.builder.nextBlock ≤ k ∧ k < t.builder.nextBlock ∧ t.builder.items k = [] ∧ ∃ e ∈ t.builder.edges, e.dst = k := by
  obtain ⟨_, u, hb, h⟩ := (bind_eq_some _ _ _ _).mp h
  obtain ⟨-, rfl⟩ := Prod.mk.inj ((setTerminated_eq_some _ _).mp h)
  simp only [brTableTargets, labelAt_bind_eq_some, read_bind, jitPop_bind_eq_some] at hb
  obtain ⟨defaultLabel, -, idx, l, ls, rest, hl, hv, hb⟩ := hb
  -- up to the comparison the handler only pops and prepares
  have pop := (Prim.pop (J := { locals := s.func.locals, uniform := False, strict := False }) (w := {}) rfl hl hv).prims
  obtain ⟨v, u₁, hp, hb₁⟩ := (bind_eq_some _ _ _ _).mp hb
  obtain ⟨Γ, -, popIf, -, -, frame⟩ := popIf_prims (J := { locals := s.func.locals, uniform := False, strict := False })
    (w := { hand := insert ⟨idx, .i32⟩ ∅ }) rfl hp
  obtain ⟨_, u₂, hu₂, hb₂⟩ := (bind_eq_some _ _ _ _).mp hb₁
  obtain ⟨-, rfl⟩ := Prod.mk.inj ((pure_eq_some _ _ _).mp hu₂)
  obtain ⟨_, u₃, hu₃, hb₃⟩ := (bind_eq_some _ _ _ _).mp hb₂
  obtain ⟨prepare, -⟩ := prepareTarget_prims (J := { locals := s.func.locals, uniform := False, strict := False }) (w := { hand := Γ }) hu₃ rfl
    frame.locals fun _ => by exact fun _ => ⟨False.elim, False.elim⟩
  obtain ⟨shape, grows⟩ := Prims.grows ((pop.trans popIf).trans prepare) (idle_of_live hs ▸ hshape)
  obtain ⟨c, hc, hlt, -⟩ := shape.cur
  have hnew : u₃.builder.items u₃.builder.nextBlock = [] := shape.empty _ (.inl le_rfl)
  simp only [createBlock_bind, build_bind] at hb₃
  obtain ⟨⟨target, rb⟩, u₄, hu₄, hb₄⟩ := (bind_eq_some _ _ _ _).mp hb₃
  -- the case block is the next one; only the return block may be created behind it
  have resolved : u₄.builder.cur = some c ∧ u₃.builder.nextBlock < u₄.builder.nextBlock ∧
      u₄.builder.items u₃.builder.nextBlock = [] ∧ ∀ b ∈ rb, b ≠ u₃.builder.nextBlock := by
    simp only [resolveTarget, read_bind] at hu₄
    split_ifs at hu₄
    · simp only [createBlock_bind, pure_eq_some, Prod.mk.injEq] at hu₄
      obtain ⟨⟨rfl, rfl⟩, rfl⟩ := hu₄
      refine ⟨?_, ?_, ?_, ?_⟩
      case refine_2 =>
        simp only [EmitState.withBuilder_builder, Builder.createBlock_nextBlock, Builder.build_nextBlock]
        omega
      all_goals simp [Builder.build_items, hc, hlt.ne, hnew]
    · simp only [labelAt_bind_eq_some, pure_eq_some, Prod.mk.injEq] at hu₄
      obtain ⟨_, -, ⟨rfl, rfl⟩, rfl⟩ := hu₄
      simp [Builder.build_items, hc, hlt.ne, hnew]
  obtain ⟨hcur, hnext, hitems, hrb⟩ := resolved
  simp only [terminate_bind, emitCases] at hb₄
  obtain ⟨rb', u₅, hu₅, hu⟩ := (bind_eq_some _ _ _ _).mp hb₄
  obtain ⟨rfl, same⟩ := Prod.mk.inj ((pure_eq_some _ _ _).mp hu₅)
  have next : u₃.builder.nextBlock < u₅.builder.nextBlock := by simpa [same] using hnext
  have items : u₅.builder.items u₃.builder.nextBlock = [] := by simpa [same, Builder.terminate_items, hcur, hlt.ne] using hitems
  have edge : (⟨c, true, u₃.builder.nextBlock⟩ : Edge) ∈ u₅.builder.edges := by
    simp [same, Builder.terminate_edges _ _ hcur, Term.targets]
  refine ⟨u₃.builder.nextBlock, grows.nextBlock, ?_⟩
  rcases rb' with _ | b
  · obtain ⟨-, rfl⟩ := Prod.mk.inj ((pure_eq_some _ _ _).mp hu)
    exact ⟨next, items, _, edge, rfl⟩
  · simp only [emitReturnBlock, setBlock_bind, terminate_eq_some, Prod.mk.injEq, true_and] at hu
    subst hu
    have grown := (u₅.builder.extends_setBlock b).trans (Builder.extends_terminate _ (.ret v))
    refine ⟨next.trans_le grown.nextBlock, ?_, _, grown.edges.subset edge, rfl⟩
    simpa [Builder.terminate_items, hrb b rfl] using items

/-! ### Whole bodies -/

variable {ctx : JitContext} {funcidx : ℕ}

/-- No live `br_table` without targets is translated. -/
def Leakless (ctx : JitContext) (funcidx : ℕ) : Prop := EachLive (fun i _ => ∀ default, i ≠ .brTable [] default) ctx funcidx

/-- One opcode ends its blocks, and gives one up only if it is such a `br_table`. -/
theorem Reached.completed_proceed {s t : JitState} (hctx : ctx.Ok) (h : Reached ctx funcidx s) (hst : Proceeds s t)
    (he : Completed lost s.idle s.toEmitState) : ∃ lost', lost ⊆ lost' ∧ (Leakless ctx funcidx → lost' = lost) ∧ Completed lost' t.idle t.toEmitState := by
  obtain ⟨i, -, hlive, hdead, steps⟩ := h.prims hctx hst
  obtain ⟨lost', hsub, hsame, he'⟩ := steps.completed (h.shaped hctx) he
  refine ⟨lost', hsub, fun hleak => hsame ?_, he'⟩
  rintro ⟨default, rfl⟩
  cases hl : s.live with
  | true =>
    obtain ⟨code, hcode⟩ := hlive hl
    exact hleak s h hst.1 hl _ code hcode default rfl
  | false => simpa using hdead hl

theorem Reached.completed_run {s t : JitState} (hctx : ctx.Ok) (h : Reached ctx funcidx s) (hst : ReflTransGen Proceeds s t)
    (he : Completed lost s.idle s.toEmitState) : ∃ lost', lost ⊆ lost' ∧ (Leakless ctx funcidx → lost' = lost) ∧ Completed lost' t.idle t.toEmitState := by
  induction hst with
  | refl => exact ⟨lost, subset_rfl, fun _ => rfl, he⟩
  | tail hrun step ih =>
    obtain ⟨lost', hsub, hsame, he'⟩ := ih
    obtain ⟨lost'', hsub', hsame', he''⟩ := (h.run hrun).completed_proceed hctx step he'
    exact ⟨lost'', hsub.trans hsub', fun hleak => (hsame' hleak).trans (hsame hleak), he''⟩

/-- Between two opcodes every block that does not wait for its terminator has one. -/
theorem Reached.completed {s : JitState} (hctx : ctx.Ok) (h : Reached ctx funcidx s) :
    ∃ lost, (Leakless ctx funcidx → lost = ∅) ∧ Completed lost s.idle s.toEmitState := by
  obtain ⟨type, code, params, first, hf, hp, hfirst, hrun⟩ := h.start
  obtain ⟨ret, hret⟩ := jitEnterFunction_retType hfirst
  have entered := jitEnterFunction_entered hp hret hfirst
  have live : first.live = true := by simp [EmitState.live, entered.labels]
  have start : Completed ∅ first.idle first.toEmitState := idle_of_live live ▸ entered.completed
  obtain ⟨lost, -, hsame, he⟩ := Reached.completed_run hctx (.enter hf hp hfirst) hrun start
  exact ⟨lost, hsame, he⟩

/-- A live table without targets leaves a block that is reached and has no terminator. -/
theorem Reached.orphan {s t : JitState} (hctx : ctx.Ok) (h : Reached ctx funcidx s) (hst : Proceeds s t) (hl : s.live = true)
    {default : ℕ} {code : Buffer} (hi : fetch s.code = some (.brTable [] default, code)) (he : Completed lost t.idle t.toEmitState) :
    ∃ k ∈ lost, ∃ e ∈ t.builder.edges, e.dst = k := by
  obtain ⟨i, act, hlive, -, -⟩ := h.prims hctx hst
  obtain ⟨code', hcode'⟩ := hlive hl
  obtain rfl : i = .brTable [] default := (Prod.mk.inj (Option.some.inj (hcode'.symm.trans hi))).1
  have hemit := act.brTable_emits hl
  obtain ⟨k, hge, hlt, hitems, hedge⟩ := emitBrTable_orphan hl (h.shaped hctx) hemit
  refine ⟨k, by_contra fun hlost => ?_, hedge⟩
  obtain ⟨_, u, hu, hmark⟩ := (bind_eq_some _ _ _ _).mp hemit
  obtain ⟨-, -, -, -, -, frame⟩ := brTableTargets_prims rfl hu
  have ht := (Prod.mk.inj ((setTerminated_eq_some _ _).mp hmark)).2
  have kinds : t.func.labels.map JitLabel.kind = s.func.labels.map JitLabel.kind := by
    rw [← (Prod.mk.inj frame.targets).1, ht]
    cases u.func.labels <;> rfl
  have blocks : t.scopes.map JitLabel.block = s.scopes.map JitLabel.block := by
    have both := congrArg (fun ks => (ks.map Prod.fst).dropLast) kinds
    simpa [EmitState.scopes, List.map_dropLast, Function.comp_def, JitLabel.kind, JitLabel.bare] using both
  have dead : t.live = false := by
    rw [EmitState.live, ht]
    cases u.func.labels <;> rfl
  -- so the block does not wait, and has a terminator
  obtain ⟨t', ht'⟩ := he.blocks.closed k hlt (by
    rintro (ho | hp | hlost' | ⟨-, hm⟩)
    · exact absurd ho (List.not_mem_nil)
    · have old : k ∈ s.scopes.map JitLabel.block := blocks ▸ Shape.pending_subset _ hp
      exact absurd ((h.shaped hctx).bound k (List.mem_append_right _ old)).2 (not_lt.mpr hge)
    · exact hlost hlost'
    · simp [EmitState.idle, dead] at hm)
  obtain ⟨ns, hns⟩ := ht'.items
  simp [hitems] at hns

/-- In the graph of a translated body every block has no terminator or has one, behind its
instructions and with the edges that it stands for. Every block that is reached by an edge has
one exactly if no live `br_table` without targets was translated, and then all blocks do. -/
theorem Translation.terminators (T : Translation) :
    (∀ k, T.graph.Unclosed k ∨ ∃ t, T.graph.ClosedBy k t) ∧
      ((∀ e ∈ T.graph.edges, ∃ t, T.graph.ClosedBy e.dst t) ↔ Leakless T.ctx T.funcidx) ∧
      (Leakless T.ctx T.funcidx → ∀ k < T.graph.nextBlock, ∃ t, T.graph.ClosedBy k t) := by
  obtain ⟨s, hs, hlabels, hcode, hgraph, -⟩ := T.last
  obtain ⟨idle, scopes⟩ := Translation.idle_last hlabels
  obtain ⟨lost, hnone, he⟩ := hs.completed T.ok
  have waits : ∀ k ∈ waiting lost s.idle s.toEmitState, k ∈ lost := by
    rintro k (hk | hk | hk | ⟨-, hm⟩)
    · simp [idle] at hk
    · simp [scopes, pending] at hk
    · exact hk
    · simp [idle] at hm
  have all : Leakless T.ctx T.funcidx → ∀ k < s.builder.nextBlock, ∃ t, s.builder.ClosedBy k t := by
    intro hleak k hk
    refine he.blocks.closed k hk fun hw => ?_
    have hlost := waits k hw
    rw [hnone hleak] at hlost
    exact hlost
  rw [← hgraph]
  refine ⟨fun k => ?_, ⟨fun hclosed => ?_, fun hleak e hedge => ?_⟩, all⟩
  · by_cases hk : k < s.builder.nextBlock
    · by_cases hw : k ∈ waiting lost s.idle s.toEmitState
      · exact .inl (he.blocks.unclosed k hw)
      · exact .inr (he.blocks.closed k hk hw)
    · exact .inl (he.blocks.fresh k (not_lt.mp hk))
  · rintro r hr hrcode hlive _ code hfetch default rfl
    obtain ⟨u, hru, hus⟩ := hr.earlier hs hrcode hcode
    have hu := hr.proceed hru
    obtain ⟨lost₁, -, he₁⟩ := hu.completed T.ok
    obtain ⟨k, hk, e, hedge, rfl⟩ := hr.orphan T.ok hru hlive hfetch he₁
    obtain ⟨lost₂, hsub, -, he₂⟩ := hu.completed_run T.ok hus he₁
    obtain ⟨t, ht⟩ := hclosed e ((hu.grows T.ok hus).edges.subset hedge)
    exact ht.not_unclosed (he₂.blocks.unclosed _ (.inr (.inr (.inl (hsub hk)))))
  · exact all hleak e.dst ((hs.shaped T.ok).edges e hedge).2

end SpidirWasm.Jit
