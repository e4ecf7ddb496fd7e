import Mathlib.Data.List.Perm.Subperm
import SpidirWasm.Jit.Merging
import SpidirWasm.Jit.Run

/-! The shape of a graph under construction: which blocks are entered, which ones wait
for a handler or for the end of their label, and what may already stand in them. It is
kept by every primitive step, whatever the code. -/

namespace SpidirWasm.Jit

open Spidir (Builder Inst Term Value ValueType Block Item Edge)

/-- A label without its operands and flags. -/
def JitLabel.bare (l : JitLabel) : JitLabel := { l with stack := [], terminated := false, unreachableDepth := 0 }

/-- The labels that branches go to, without their operands: all but the function body. -/
def EmitState.scopes (s : EmitState) : List JitLabel := (s.func.labels.map JitLabel.bare).dropLast

/-- The blocks that are entered when their label ends. -/
def pending (scopes : List JitLabel) : List Block := (scopes.filter fun l => !l.loop).map JitLabel.block

/-- A label with its merges: each has at most one phi, of its own and in the label's block,
and in a loop each has one from the start. -/
structure Merges (b : Builder) (locals : ℕ) (l : JitLabel) : Prop where
  length : ∀ ms, l.locals = some ms → ms.length = locals
  loop : l.loop = true → ∃ ms, l.locals = some ms ∧ ∀ m ∈ ms, m.value = none ∧ m.phi ≠ none
  phis : ∀ p ∈ phis l.merges, p < b.nextValue ∧ (b.node p).block = some l.block ∧ (b.node p).inst.isPhi = true
  distinct : (Jit.phis l.merges).Nodup

theorem Merges.mono {b b' : Builder} {n : ℕ} {l : JitLabel} (h : Merges b n l) (hb : b.Extends b') : Merges b' n l where
  length := h.length
  loop := h.loop
  phis p hp := by
    obtain ⟨hlt, hk, hphi⟩ := h.phis p hp
    have grows := hb.node p hlt
    exact ⟨hlt.trans_le hb.nextValue, grows.block.trans hk, grows.inst.isPhi.trans hphi⟩
  distinct := h.distinct

/-- The merges of a label have nothing to do with its operands. -/
theorem Merges.bare {b : Builder} {n : ℕ} {l : JitLabel} : Merges b n l.bare ↔ Merges b n l :=
  ⟨fun h => ⟨h.length, h.loop, h.phis, h.distinct⟩, fun h => ⟨h.length, h.loop, h.phis, h.distinct⟩⟩

theorem Merges.arrive {b : Builder} {locals : List JitValue} {l : JitLabel} (h : Merges b locals.length l) (v : Value) :
    Merges (l.arrive locals v b).2 locals.length (l.arrive locals v b).1 := by
  rcases hl : l.locals with _ | ms
  · obtain ⟨hb, hm⟩ := arrive_none hl locals v b
    have none : Jit.phis (l.arrive locals v b).1.merges = [] := by simp [hm, Jit.phis, List.filterMap_map]
    refine ⟨fun ms hms => ?_, fun hloop => ?_, by simp [none], by simp [none]⟩
    · simp only [JitLabel.arrive, hl, Option.some.injEq] at hms
      simp [← hms]
    · obtain ⟨ms, hms, -⟩ := h.loop (by simpa using hloop)
      simp [hl] at hms
  · have hlen := h.length ms hl
    obtain ⟨hb, hm⟩ := arrive_some hl hlen.symm v b
    have only := (arrive_phisOnly (b := b) (v := v) (fun ms' hms' => (h.length ms' hms').symm) fun p hp => ⟨(h.phis p hp).1, (h.phis p hp).2.1⟩).1
    obtain ⟨hnodup, hmem⟩ := mergeLocals_phis l.inputs (l.carried locals v) (b := b.setBlock l.block) h.distinct
      fun p hp => (h.phis p hp).1
    have locals' : (l.arrive locals v b).1.locals = some (mergeLocals l.inputs locals ms (b.setBlock l.block)).1 := by
      simp [JitLabel.arrive, hl]
    refine ⟨fun ms' hms' => ?_, fun hloop => ?_, fun p hp => ?_, hm ▸ hnodup⟩
    · rw [locals', Option.some.injEq] at hms'
      rw [← hms', mergeLocals_length, hlen]
    · obtain ⟨ms', hms', hall⟩ := h.loop (by simpa using hloop)
      obtain rfl := Option.some.inj (hl.symm.trans hms')
      exact ⟨ms, by rw [locals', mergeLocals_fixed fun m hm => (hall m hm).2], hall⟩
    · rw [arrive_block]
      rcases hmem p (hm ▸ hp) with hold | ⟨hge, hlt⟩
      · obtain ⟨hlt, hk, hphi⟩ := h.phis p hold
        have grows := only.ext.node p hlt
        exact ⟨hlt.trans_le only.ext.nextValue, grows.block.trans hk, grows.inst.isPhi.trans hphi⟩
      · have hlt' : p < (l.arrive locals v b).2.nextValue := by rw [hb]; exact hlt
        obtain ⟨hphi, hk⟩ := only.new p hge hlt'
        exact ⟨hlt', hk, hphi⟩

/-- The label of a loop that was just opened. -/
theorem Merges.enterLoop {b : Builder} {k : Block} (hk : b.cur = some k) (ls : List JitValue) (type : ValueType) :
    Merges (loopPhis ls b).2.2 ls.length { block := k, loop := true, resultType := type, locals := some (loopPhis ls b).2.1 } := by
  obtain ⟨-, hlen, hall, hphis, hnext⟩ := loopPhis_merges ls b
  have merges : ({ block := k, loop := true, resultType := type, locals := some (loopPhis ls b).2.1 } : JitLabel).merges =
      (loopPhis ls b).2.1 := by simp [JitLabel.merges, JitLabel.mergeResult]
  refine ⟨fun ms hms => Option.some.inj hms ▸ hlen, fun _ => ⟨_, rfl, hall⟩, fun p hp => ?_, ?_⟩
  · rw [merges, hphis, List.mem_range'_1] at hp
    obtain ⟨hphi, hk⟩ := (loopPhis_phisOnly ls hk).1.new p hp.1 (hnext ▸ hp.2)
    exact ⟨hnext ▸ hp.2, hk, hphi⟩
  · rw [merges, hphis]
    exact List.nodup_range'

/-- A graph with the blocks a handler still has to enter, those it prepared an edge to,
the open labels and the number of locals. -/
structure Shape (b : Builder) (owed due : List Block) (scopes : List JitLabel) (locals : ℕ) : Prop where
  entry : b.entry = some 0
  cur : ∃ c, b.cur = some c ∧ c < b.nextBlock ∧ c ∉ owed ∧ c ∉ pending scopes
  blocks : (owed ++ scopes.map JitLabel.block).Nodup
  bound : ∀ k ∈ owed ++ scopes.map JitLabel.block, 0 < k ∧ k < b.nextBlock
  due : ∀ k ∈ due, k ∈ scopes.map JitLabel.block
  edges : ∀ e ∈ b.edges, 0 < e.dst ∧ e.dst < b.nextBlock
  empty : ∀ k, b.nextBlock ≤ k ∨ k ∈ owed → b.items k = []
  open' : ∀ k ∈ pending scopes, ∀ t, .term t ∉ b.items k
  placed : ∀ k n, .inst n ∈ b.items k → n < b.nextValue ∧ (b.node n).block = some k ∧ (b.node n).inst.isFloating = false
  stands : ∀ n < b.nextValue, (b.node n).inst.isFloating = true ∨ ∃ k, (b.node n).block = some k ∧ .inst n ∈ b.items k
  home : ∀ n < b.nextValue, ∀ k, (b.node n).block = some k → k < b.nextBlock ∧ k ∉ owed
  merges : ∀ l ∈ scopes, Merges b locals l

namespace Shape

variable {b b' : Builder} {owed owed' due due' : List Block} {scopes scopes' : List JitLabel} {n : ℕ}

theorem pending_subset (scopes : List JitLabel) : pending scopes ⊆ scopes.map JitLabel.block :=
  List.map_subset _ (List.filter_subset_self _)

/-- Blocks that are given up, and labels that are closed. -/
theorem shrink (h : Shape b owed due scopes n) (ho : owed'.Subperm owed) (hs : scopes'.Sublist scopes)
    (hd : ∀ k ∈ due', k ∈ scopes'.map JitLabel.block) : Shape b owed' due' scopes' n := by
  have hp : (pending scopes').Sublist (pending scopes) := (hs.filter _).map _
  have all : (owed' ++ scopes'.map JitLabel.block).Subperm (owed ++ scopes.map JitLabel.block) :=
    ho.append (hs.map _).subperm
  obtain ⟨c, hc, hlt, hco, hcp⟩ := h.cur
  exact {
    entry := h.entry
    cur := ⟨c, hc, hlt, fun h' => hco (ho.subset h'), fun h' => hcp (hp.subset h')⟩
    blocks := by
      obtain ⟨l, hl, hsub⟩ := all
      exact hl.nodup_iff.mp (h.blocks.sublist hsub)
    bound := fun k hk => h.bound k (all.subset hk)
    due := hd
    edges := h.edges
    empty := fun k hk => h.empty k (hk.imp_right (ho.subset ·))
    open' := fun k hk => h.open' k (hp.subset hk)
    placed := h.placed
    stands := h.stands
    home := fun m hm k hk => ⟨(h.home m hm k hk).1, fun h' => (h.home m hm k hk).2 (ho.subset h')⟩
    merges := fun l hl => h.merges l (hs.subset hl) }

/-- A block that waits for nothing becomes the current one. -/
theorem setBlock (h : Shape b owed due scopes n) {k : Block} (hk : k < b.nextBlock) (ho : k ∉ owed) (hp : k ∉ pending scopes) :
    Shape (b.setBlock k) owed due scopes n :=
  { h with
    cur := ⟨k, rfl, hk, ho, hp⟩
    merges := fun l hl => (h.merges l hl).mono (b.extends_setBlock k) }

theorem build (h : Shape b owed due scopes n) (i : Inst) : Shape (b.build i) owed due scopes n := by
  obtain ⟨c, hc, hlt, hco, hcp⟩ := h.cur
  have old : ∀ m < b.nextValue, (b.build i).node m = b.node m := fun m hm => by
    simp [Function.update_of_ne (Nat.ne_of_lt hm)]
  have new : ∀ m < b.nextValue + 1, m < b.nextValue ∨ m = b.nextValue := fun m hm => Nat.lt_succ_iff_lt_or_eq.mp hm
  have items : ∀ k, (b.build i).items k = if i.isFloating = false ∧ c = k then b.items k ++ [.inst b.nextValue] else b.items k := by
    intro k; simp [Builder.build_items, hc]
  exact {
    entry := by simpa using h.entry
    cur := ⟨c, by simpa using hc, by simpa using hlt, hco, hcp⟩
    blocks := h.blocks
    bound := by simpa using h.bound
    due := h.due
    edges := by simpa using h.edges
    empty := fun k hk => by
      rw [Builder.build_nextBlock] at hk
      rw [items, if_neg, h.empty k hk]
      rintro ⟨-, rfl⟩
      rcases hk with hk | hk
      · exact absurd hlt (not_lt.mpr hk)
      · exact hco hk
    open' := fun k hk t ht => by
      rw [items] at ht
      split_ifs at ht
      · exact h.open' k hk t (by simpa using ht)
      · exact h.open' k hk t ht
    placed := fun k m hm => by
      have kept : .inst m ∈ b.items k → m < (b.build i).nextValue ∧ ((b.build i).node m).block = some k ∧
          ((b.build i).node m).inst.isFloating = false := by
        intro hm
        obtain ⟨hlt, hk, hf⟩ := h.placed k m hm
        rw [old m hlt]
        exact ⟨by simp; omega, hk, hf⟩
      rw [items] at hm
      split_ifs at hm with hi
      · rcases List.mem_append.mp hm with hm | hm
        · exact kept hm
        · obtain rfl : m = b.nextValue := by simpa using hm
          simp [hc, hi.1, hi.2]
      · exact kept hm
    stands := fun m hm => by
      rcases new m (by simpa using hm) with hm | rfl
      · rw [old m hm]
        refine (h.stands m hm).imp_right fun ⟨k, hk, hmem⟩ => ⟨k, hk, ?_⟩
        exact (b.extends_build i).items k |>.subset hmem
      · rcases hf : i.isFloating
        · exact .inr ⟨c, by simp [hc], by simp [items, hf]⟩
        · exact .inl (by simp [hf])
    home := fun m hm k hk => by
      rcases new m (by simpa using hm) with hm | rfl
      · rw [old m hm] at hk
        simpa using h.home m hm k hk
      · obtain rfl : c = k := by simpa [hc] using hk
        exact ⟨by simpa using hlt, hco⟩
    merges := fun l hl => (h.merges l hl).mono (b.extends_build i) }

theorem terminate (h : Shape b owed due scopes n) (t : Term) (ht : ∀ d ∈ t.targets.map Prod.snd, d ∈ owed ∨ d ∈ due)
    (hd : ∀ k ∈ due', k ∈ due) : Shape (b.terminate t) owed due' scopes n := by
  obtain ⟨c, hc, hlt, hco, hcp⟩ := h.cur
  have items : ∀ k, (b.terminate t).items k = if c = k then b.items k ++ [.term t] else b.items k := by
    intro k; simp [Builder.terminate_items, hc]
  exact {
    entry := by simpa using h.entry
    cur := ⟨c, by simpa using hc, by simpa using hlt, hco, hcp⟩
    blocks := h.blocks
    bound := by simpa using h.bound
    due := fun k hk => h.due k (hd k hk)
    edges := fun e he => by
      rw [Builder.terminate_edges b t hc, List.mem_append, List.mem_map] at he
      rw [Builder.terminate_nextBlock]
      rcases he with he | ⟨⟨taken, d⟩, hmem, rfl⟩
      · exact h.edges e he
      · refine h.bound d (List.mem_append.mpr ?_)
        exact (ht d (List.mem_map_of_mem (f := Prod.snd) hmem)).imp_right (h.due d)
    empty := fun k hk => by
      rw [Builder.terminate_nextBlock] at hk
      rw [items, if_neg, h.empty k hk]
      rintro rfl
      rcases hk with hk | hk
      · exact absurd hlt (not_lt.mpr hk)
      · exact hco hk
    open' := fun k hk t' ht' => by
      rw [items, if_neg fun he : c = k => hcp (he ▸ hk)] at ht'
      exact h.open' k hk t' ht'
    placed := fun k m hm => by
      rw [items] at hm
      rw [Builder.terminate_node, Builder.terminate_nextValue]
      split_ifs at hm
      · exact h.placed k m (by simpa using hm)
      · exact h.placed k m hm
    stands := fun m hm => by
      rw [Builder.terminate_node]
      refine (h.stands m (by simpa using hm)).imp_right fun ⟨k, hk, hmem⟩ => ⟨k, hk, ?_⟩
      exact (b.extends_terminate t).items k |>.subset hmem
    home := by simpa using h.home
    merges := fun l hl => (h.merges l hl).mono (b.extends_terminate t) }

/-- A new block, that a handler has still to enter. -/
theorem createBlock (h : Shape b owed due scopes n) : Shape b.createBlock (b.nextBlock :: owed) due scopes n := by
  obtain ⟨c, hc, hlt, hco, hcp⟩ := h.cur
  have fresh : b.nextBlock ∉ owed ++ scopes.map JitLabel.block := fun hm => lt_irrefl _ (h.bound _ hm).2
  have pos : 0 < b.nextBlock := Nat.zero_lt_of_lt hlt
  exact {
    entry := h.entry
    cur := ⟨c, hc, hlt.trans (Nat.lt_succ_self _), by simp [hco, hlt.ne], hcp⟩
    blocks := List.nodup_cons.mpr ⟨fresh, h.blocks⟩
    bound := fun k hk => by
      rcases List.mem_cons.mp hk with rfl | hk
      · exact ⟨pos, Nat.lt_succ_self _⟩
      · exact ⟨(h.bound k hk).1, (h.bound k hk).2.trans (Nat.lt_succ_self _)⟩
    due := h.due
    edges := fun e he => ⟨(h.edges e he).1, (h.edges e he).2.trans (Nat.lt_succ_self _)⟩
    empty := fun k hk => by
      refine h.empty k ?_
      rcases hk with hk | hk
      · exact .inl ((Nat.le_succ _).trans hk)
      · exact (List.mem_cons.mp hk).imp_left ge_of_eq
    open' := h.open'
    placed := h.placed
    stands := h.stands
    home := fun m hm k hk => by
      obtain ⟨hlt, hno⟩ := h.home m hm k hk
      exact ⟨hlt.trans (Nat.lt_succ_self _), by simp [hno, hlt.ne]⟩
    merges := fun l hl => (h.merges l hl).mono b.extends_createBlock }

/-- A block that a handler has to enter becomes that of a label. -/
theorem openLabel {k : Block} (h : Shape b (k :: owed) due scopes n) {l : JitLabel} (hl : Merges b n l) (hk : l.block = k) :
    Shape b owed due (l :: scopes) n := by
  obtain ⟨c, hc, hlt, hco, hcp⟩ := h.cur
  have perm : (owed ++ (l :: scopes).map JitLabel.block).Perm (k :: owed ++ scopes.map JitLabel.block) := by
    simp [hk]
  have pend : ∀ j ∈ pending (l :: scopes), j = k ∨ j ∈ pending scopes := by
    intro j hj
    rcases hloop : l.loop <;> simp_all [pending]
  exact {
    entry := h.entry
    cur := ⟨c, hc, hlt, fun hm => hco (List.mem_cons_of_mem _ hm), fun hm => (pend c hm).elim (fun he => hco (he ▸ .head _)) hcp⟩
    blocks := perm.nodup_iff.mpr h.blocks
    bound := fun j hj => h.bound j (perm.subset hj)
    due := fun j hj => List.mem_cons_of_mem _ (h.due j hj)
    edges := h.edges
    empty := fun j hj => h.empty j (hj.imp_right (List.mem_cons_of_mem _))
    open' := fun j hj t ht => by
      rcases pend j hj with rfl | hj
      · simp [h.empty j (.inr (.head _))] at ht
      · exact h.open' j hj t ht
    placed := h.placed
    stands := h.stands
    home := fun m hm j hj => ⟨(h.home m hm j hj).1, fun h' => (h.home m hm j hj).2 (List.mem_cons_of_mem _ h')⟩
    merges := fun l' hl' => by
      rcases List.mem_cons.mp hl' with rfl | hl'
      · exact hl
      · exact h.merges l' hl' }

/-- The block of a loop is entered at once. -/
theorem openLoop (h : Shape b owed due scopes n) {l : JitLabel} (hl : Merges b n l) (hloop : l.loop = true)
    (hfresh : l.block ∉ owed ++ scopes.map JitLabel.block) (hbound : 0 < l.block ∧ l.block < b.nextBlock) :
    Shape b owed due (l :: scopes) n := by
  have perm : (owed ++ (l :: scopes).map JitLabel.block).Perm (l.block :: (owed ++ scopes.map JitLabel.block)) := by simp
  have pend : pending (l :: scopes) = pending scopes := by simp [pending, hloop]
  exact {
    h with
    cur := pend ▸ h.cur
    blocks := perm.nodup_iff.mpr (List.nodup_cons.mpr ⟨hfresh, h.blocks⟩)
    bound := fun j hj => by
      rcases List.mem_cons.mp (perm.subset hj) with rfl | hj
      · exact hbound
      · exact h.bound j hj
    due := fun j hj => List.mem_cons_of_mem _ (h.due j hj)
    open' := pend ▸ h.open'
    merges := fun l' hl' => by
      rcases List.mem_cons.mp hl' with rfl | hl'
      · exact hl
      · exact h.merges l' hl' }

/-- Phis are built into a block that nothing was owed in. -/
theorem phisOnly {k : Block} (h : Shape b owed due scopes n) (hp : PhisOnly k b b') (hcur : b'.cur = b.cur) (hk : k < b.nextBlock)
    (ho : k ∉ owed) : Shape b' owed due scopes n := by
  obtain ⟨new, hnew, hmem⟩ := hp.here
  have split : ∀ m, m < b.nextValue ∨ b.nextValue ≤ m := fun m => lt_or_ge m _
  exact {
    entry := hp.ext.entry.trans h.entry
    cur := by simpa only [hcur, hp.nextBlock] using h.cur
    blocks := h.blocks
    bound := by simpa only [hp.nextBlock] using h.bound
    due := h.due
    edges := by simpa only [hp.edges, hp.nextBlock] using h.edges
    empty := fun j hj => by
      rw [hp.nextBlock] at hj
      rw [hp.items j, h.empty j hj]
      rintro rfl
      rcases hj with hj | hj
      · exact absurd hk (not_lt.mpr hj)
      · exact ho hj
    open' := fun j hj t ht => by
      by_cases he : j = k
      · subst he
        rw [hnew, List.mem_append, List.mem_map] at ht
        rcases ht with ht | ⟨_, -, ht⟩
        · exact h.open' j hj t ht
        · exact Item.noConfusion ht
      · exact h.open' j hj t (hp.items j he ▸ ht)
    placed := fun j m hm => by
      have kept : .inst m ∈ b.items j → m < b'.nextValue ∧ (b'.node m).block = some j ∧ (b'.node m).inst.isFloating = false := by
        intro hm
        obtain ⟨hlt, hj, hf⟩ := h.placed j m hm
        have grows := hp.ext.node m hlt
        refine ⟨hlt.trans_le hp.ext.nextValue, grows.block.trans hj, ?_⟩
        rcases hphi : (b.node m).inst.isPhi
        · rw [grows.inst.eq hphi]; exact hf
        · exact Inst.isFloating_of_isPhi (grows.inst.isPhi.trans hphi)
      by_cases he : j = k
      · subst he
        rw [hnew, List.mem_append, List.mem_map] at hm
        rcases hm with hm | ⟨m', hm', he⟩
        · exact kept hm
        · obtain rfl : m' = m := Item.inst.inj he
          obtain ⟨hge, hlt⟩ := (hmem m').mp hm'
          obtain ⟨hphi, hj⟩ := hp.new m' hge hlt
          exact ⟨hlt, hj, Inst.isFloating_of_isPhi hphi⟩
      · exact kept (hp.items j he ▸ hm)
    stands := fun m hm => by
      rcases split m with hlt | hge
      · have grows := hp.ext.node m hlt
        rcases h.stands m hlt with hf | ⟨j, hj, hmem⟩
        · left
          rw [grows.inst.eq]
          · exact hf
          · rcases hphi : (b.node m).inst.isPhi
            · rfl
            · simp [Inst.isFloating_of_isPhi hphi] at hf
        · exact .inr ⟨j, grows.block.trans hj, (hp.ext.items j).subset hmem⟩
      · exact .inr ⟨k, (hp.new m hge hm).2, by
          rw [hnew, List.mem_append, List.mem_map]
          exact .inr ⟨m, (hmem m).mpr ⟨hge, hm⟩, rfl⟩⟩
    home := fun m hm j hj => by
      rw [hp.nextBlock]
      rcases split m with hlt | hge
      · exact h.home m hlt j ((hp.ext.node m hlt).block ▸ hj)
      · obtain rfl : k = j := Option.some.inj ((hp.new m hge hm).2.symm.trans hj)
        exact ⟨hk, ho⟩
    merges := fun l hl => (h.merges l hl).mono hp.ext }

/-- A label keeps its block and its kind when its merges change. -/
theorem relabel (h : Shape b owed due scopes n) {pre post : List JitLabel} {l : JitLabel} (l' : JitLabel) (hs : scopes = pre ++ l :: post)
    (hblock : l'.block = l.block) (hloop : l'.loop = l.loop) (hl : Merges b n l') : Shape b owed due (pre ++ l' :: post) n := by
  subst hs
  have blocks : (pre ++ l' :: post).map JitLabel.block = (pre ++ l :: post).map JitLabel.block := by simp [hblock]
  have pend : pending (pre ++ l' :: post) = pending (pre ++ l :: post) := by simp [pending, List.filter_cons, hloop, apply_ite, hblock]
  exact {
    h with
    cur := pend ▸ h.cur
    blocks := blocks ▸ h.blocks
    bound := blocks ▸ h.bound
    due := blocks ▸ h.due
    open' := pend ▸ h.open'
    merges := fun a ha => by
      rcases List.mem_append.mp ha with ha' | ha'
      · exact h.merges a (List.mem_append_left _ ha')
      · rcases List.mem_cons.mp ha' with rfl | ha'
        · exact hl
        · exact h.merges a (List.mem_append_right _ (List.mem_cons_of_mem _ ha')) }

end Shape

/-! ### Every primitive step keeps the shape -/

variable {J : Branching} {w w' : Work} {s t : EmitState} {index : ℕ} {target l p : JitLabel} {ls : List JitLabel} {v : Value}

theorem scopes_cons (hl : s.func.labels = l :: p :: ls) : s.scopes = l.bare :: (s.withLabels (p :: ls)).scopes := by
  simp [EmitState.scopes, hl]

theorem scopes_withLabels {k : JitLabel} (hl : s.func.labels = l :: ls) (h : k.bare = l.bare) :
    (s.withLabels (k :: ls)).scopes = s.scopes := by
  simp [EmitState.scopes, hl, h]

theorem scopes_push (hl : s.func.labels ≠ []) (l : JitLabel) : (s.withLabels (l :: s.func.labels)).scopes = l.bare :: s.scopes := by
  simp [EmitState.scopes, List.dropLast_cons_of_ne_nil, hl]

theorem dropLast_middle {α : Type} {pre post : List α} {a : α} (h : post ≠ []) :
    (pre ++ a :: post).dropLast = pre ++ a :: post.dropLast := by
  rw [List.dropLast_append_of_ne_nil (List.cons_ne_nil _ _), List.dropLast_cons_of_ne_nil h]

/-- A branch changes one of the open labels. -/
theorem scopes_arrive (hl : s.func.labels[index]? = some target) (hi : index + 1 < s.func.labels.length) :
    ∃ pre post, s.scopes = pre ++ target.bare :: post ∧
      (s.arrive index target v).scopes = pre ++ (target.arrive s.func.locals v s.builder).1.bare :: post := by
  obtain ⟨hlt, rfl⟩ := List.getElem?_eq_some_iff.mp hl
  have hne : (s.func.labels.drop (index + 1)).map JitLabel.bare ≠ [] := by simpa using hi
  refine ⟨(s.func.labels.take index).map JitLabel.bare, ((s.func.labels.drop (index + 1)).map JitLabel.bare).dropLast, ?_, ?_⟩
  · have split : s.func.labels = s.func.labels.take index ++ s.func.labels[index] :: s.func.labels.drop (index + 1) := by simp
    rw [EmitState.scopes]
    nth_rw 1 [split]
    rw [List.map_append, List.map_cons, dropLast_middle hne]
  · simp only [EmitState.scopes, EmitState.arrive, EmitState.withLabels_func_labels, List.modify_eq_take_cons_drop hlt,
      List.map_append, List.map_cons, dropLast_middle hne]

/-- The shape of a state with work under way. -/
def Shaped (w : Work) (s : EmitState) : Prop :=
  Shape s.builder (w.owed.map Prod.fst) w.due s.scopes s.func.locals.length

theorem Settles.targets {owed : List (Block × Hand)} {due ds due' : List Block} (h : Settles owed due ds due') :
    (∀ d ∈ ds, d ∈ owed.map Prod.fst ∨ d ∈ due) ∧ ∀ k ∈ due', k ∈ due := by
  induction h with
  | nil due => exact ⟨by simp, fun k hk => hk⟩
  | fresh hd _ ih =>
    refine ⟨fun d hmem => ?_, ih.2⟩
    rcases List.mem_cons.mp hmem with rfl | hmem
    · exact .inl (List.mem_map_of_mem (f := Prod.fst) hd)
    · exact ih.1 d hmem
  | label hd _ ih =>
    refine ⟨fun d hmem => ?_, fun k hk => hd.mem_iff.mpr (List.mem_cons_of_mem _ (ih.2 k hk))⟩
    rcases List.mem_cons.mp hmem with rfl | hmem
    · exact .inr (hd.mem_iff.mpr (.head _))
    · exact (ih.1 d hmem).imp_right fun h => hd.mem_iff.mpr (List.mem_cons_of_mem _ h)

theorem subperm_of_perm {p : Block × Hand} {owed owed' : List (Block × Hand)} (h : owed.Perm (p :: owed')) :
    (owed'.map Prod.fst).Subperm (owed.map Prod.fst) :=
  (List.sublist_cons_self _ _).subperm.trans (h.map Prod.fst).symm.subperm

theorem Shaped.withLabels {l' : JitLabel} (h : Shaped w s) (hl : s.func.labels = l :: ls) (hb : l'.bare = l.bare) :
    Shaped w (s.withLabels (l' :: ls)) := by
  rw [Shaped, scopes_withLabels hl hb]
  exact h

/-- A label that ends is no longer waited for. -/
theorem Shaped.close (h : Shaped w s) (ho : w.owed = []) (hd : w.due = []) (hl : s.func.labels = l :: p :: ls) :
    Shape s.builder [] [] (s.withLabels (p :: ls)).scopes s.func.locals.length ∧
      l.block < s.builder.nextBlock ∧ l.block ∉ (s.withLabels (p :: ls)).scopes.map JitLabel.block := by
  have hs : Shape s.builder [] [] (l.bare :: (s.withLabels (p :: ls)).scopes) s.func.locals.length := by
    simpa [Shaped, ho, hd, scopes_cons hl] using h
  have hnodup := hs.blocks
  rw [List.nil_append, List.map_cons, List.nodup_cons] at hnodup
  exact ⟨hs.shrink (.refl _) (List.sublist_cons_self _ _) (by simp), (hs.bound l.block (by simp [JitLabel.bare])).2, hnodup.1⟩

theorem Prim.shaped (h : Prim J w s w' t) (hs : Shaped w s) : Shaped w' t := by
  cases h with
  | forget | context | peek | getLocal => exact hs
  | abandon _ hp => exact hs.shrink (subperm_of_perm hp) (.refl _) hs.due
  | pop _ hl | push _ _ hl | discard _ hl | mark _ hl | skip _ hl => exact hs.withLabels hl rfl
  | setLocal => simpa [Shaped, EmitState.scopes] using hs
  | node | effect => exact hs.build _
  | block => exact hs.createBlock
  | @enter k Γ owed _ hk =>
    have mem : k ∈ w.owed.map Prod.fst := List.mem_map_of_mem (f := Prod.fst) (hk.mem_iff.mpr (.head _))
    have nodup : (k :: owed.map Prod.fst).Nodup := (hk.map Prod.fst).nodup_iff.mp (hs.blocks.sublist (List.sublist_append_left _ _))
    have apart := List.nodup_append.mp hs.blocks |>.2.2
    exact (hs.shrink (subperm_of_perm hk) (.refl _) hs.due).setBlock (hs.bound k (List.mem_append_left _ mem)).2
      (List.nodup_cons.mp nodup).1 fun hp => apart k mem k (Shape.pending_subset _ hp) rfl
  | term _ _ hd => exact hs.terminate _ hd.targets.1 hd.targets.2
  | @arrive index target v _ hl hi =>
    obtain ⟨pre, post, hpre, hpost⟩ := scopes_arrive (v := v) hl hi
    have merges := Merges.bare.mp (hs.merges target.bare (by simp [hpre]))
    have block : target.block ∈ s.scopes.map JitLabel.block := by simp [hpre, JitLabel.bare]
    obtain ⟨only, hcur⟩ := arrive_phisOnly (b := s.builder) (v := v) (fun ms hms => (merges.length ms hms).symm)
      fun p hp => ⟨(merges.phis p hp).1, (merges.phis p hp).2.1⟩
    have apart := List.nodup_append.mp hs.blocks |>.2.2
    have arrived := (hs.phisOnly only hcur (hs.bound _ (List.mem_append_right _ block)).2 fun ho => apart _ ho _ block rfl).relabel
      (target.arrive s.func.locals v s.builder).1.bare hpre (by simp [JitLabel.bare]) (by simp [JitLabel.bare])
      (Merges.bare.mpr (merges.arrive v))
    exact { hpost ▸ arrived with
      due := fun k hk => by
        rcases List.mem_cons.mp hk with rfl | hk
        · simp [hpost, JitLabel.bare]
        · exact (hpost ▸ arrived).due k hk }
  | @openBlock type _ _ hl =>
    have opened := (Shape.createBlock hs).openLabel (l := { block := s.builder.nextBlock, resultType := type })
      ⟨by simp, by simp, by simp [JitLabel.merges, phis], by simp [JitLabel.merges, phis]⟩ rfl
    have scopes : (s.enterBlock type).scopes = _ :: s.scopes := scopes_push (s := s) hl _
    rw [Shaped, scopes]
    exact opened
  | @loop type _ ho hd hl =>
    have hs : Shape s.builder [] [] s.scopes s.func.locals.length := by simpa [Shaped, ho, hd] using hs
    have fresh : s.builder.nextBlock ∉ s.scopes.map JitLabel.block := fun hp => lt_irrefl _ (hs.bound _ (List.mem_append_right _ hp)).2
    have branched : Shape _ _ [] _ _ := hs.createBlock.terminate (.branch s.builder.nextBlock) (by simp [Term.targets]) (by simp)
    have settled : Shape _ [] [] _ _ := branched.shrink List.nil_subperm (.refl _) (by simp)
    have entered := settled.setBlock (k := s.builder.nextBlock) (by simp) (by simp) fun hp => fresh (Shape.pending_subset _ hp)
    obtain ⟨only, hcur⟩ := loopPhis_phisOnly s.func.locals (k := s.builder.nextBlock)
      (b := (s.builder.createBlock.terminate (.branch s.builder.nextBlock)).setBlock s.builder.nextBlock) rfl
    have bound : s.builder.nextBlock < (loopPhis s.func.locals
        ((s.builder.createBlock.terminate (.branch s.builder.nextBlock)).setBlock s.builder.nextBlock)).2.2.nextBlock := by
      simp [only.nextBlock]
    obtain ⟨c, -, hlt, -⟩ := hs.cur
    have opened := (entered.phisOnly only hcur (by simp) (by simp)).openLoop (Merges.enterLoop rfl s.func.locals type) rfl
      (by simpa using fresh) ⟨Nat.zero_lt_of_lt hlt, bound⟩
    rw [Shaped, ho, hd]
    have scopes : (s.enterLoop type).scopes = _ :: s.scopes := scopes_push (s := s) hl _
    have count : (s.enterLoop type).func.locals.length = s.func.locals.length := (loopPhis_merges _ _).1
    rw [scopes, count]
    exact opened
  | @join l p ls merges _ ho hd hl hloop hm =>
    obtain ⟨closed, hlt, hno⟩ := hs.close ho hd hl
    have hlen : merges.length = s.func.locals.length :=
      (hs.merges l.bare (by simp [scopes_cons hl])).length merges hm
    have entered := closed.setBlock hlt (by simp) fun hp => hno (Shape.pending_subset _ hp)
    simpa [Shaped, ho, hd, restoreLocals, hlen, EmitState.scopes] using entered
  | deadJoin _ ho hd hl =>
    obtain ⟨closed, hlt, hno⟩ := hs.close ho hd hl
    have entered := closed.setBlock hlt (by simp) fun hp => hno (Shape.pending_subset _ hp)
    simpa [Shaped, ho, hd, EmitState.scopes] using entered
  | endLoop _ ho hd hl => simpa [Shaped, ho, hd] using (hs.close ho hd hl).1
  | leave _ _ hd hl => exact hs.shrink (.refl _) (by simp [EmitState.scopes]) (by simp [hd])

/-- The entry block is the only one, and nothing stands in it. -/
theorem Entered.shaped {ctx : JitContext} {params : List ValueType} {ret : ValueType} (h : Entered ctx params ret s) : Shaped {} s where
  entry := h.entry
  cur := ⟨0, h.cur, by simp [h.nextBlock], by simp, by simp [EmitState.scopes, h.labels, pending]⟩
  blocks := by simp [EmitState.scopes, h.labels]
  bound := by simp [EmitState.scopes, h.labels]
  due := by simp
  edges := by simp [h.edges]
  empty k _ := h.items k
  open' k hk := by simp [h.items]
  placed k n hn := by simp [h.items] at hn
  stands n hn := .inl (h.nodes n hn).2.1
  home n hn k hk := by simp [(h.nodes n hn).2.2] at hk
  merges := by simp [EmitState.scopes, h.labels]

/-- The shape holds between any two opcodes. -/
theorem Between.shaped {P : Instr → EmitState → Prop} {ctx : JitContext} {funcidx : ℕ} {s : JitState} (hctx : ctx.Ok)
    (h : Between P ctx funcidx s) : Shaped s.idle s.toEmitState :=
  h.keeps hctx (fun _ _ _ he => he.shaped) fun _ _ _ => Prim.shaped

end SpidirWasm.Jit
