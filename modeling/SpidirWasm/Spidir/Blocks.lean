import Mathlib.Data.Set.Insert
import SpidirWasm.Spidir.Extends

/-! Which blocks are done. A block is closed by a terminator that stands behind its
instructions, and the edges out of it are that terminator's; up to then it has none. -/

namespace SpidirWasm.Spidir

/-- The edges of a terminator in a block. -/
def Term.edges (t : Term) (k : Block) : List Edge := t.targets.map fun (taken, dst) => ⟨k, taken, dst⟩

theorem Term.src_of_mem_edges {t : Term} {k : Block} {e : Edge} (h : e ∈ t.edges k) : e.src = k := by
  obtain ⟨⟨taken, dst⟩, -, rfl⟩ := List.mem_map.mp h
  rfl

namespace Builder

/-- The edges out of a block, in the order in which they were built. -/
def edgesFrom (b : Builder) (k : Block) : List Edge := b.edges.filter (·.src = k)

/-- Nothing but instructions stands in the block. -/
structure Unclosed (b : Builder) (k : Block) : Prop where
  items : ∃ ns : List ℕ, b.items k = ns.map .inst
  edges : b.edgesFrom k = []

/-- The terminator stands behind the instructions of the block. -/
structure ClosedBy (b : Builder) (k : Block) (t : Term) : Prop where
  items : ∃ ns : List ℕ, b.items k = ns.map .inst ++ [.term t]
  edges : b.edgesFrom k = t.edges k

/-- The blocks in a set have no terminator, and all others that were created do. -/
structure Sealing (b : Builder) (unsealed : Set Block) : Prop where
  unclosed : ∀ k ∈ unsealed, b.Unclosed k
  closed : ∀ k < b.nextBlock, k ∉ unsealed → ∃ t, b.ClosedBy k t
  fresh : ∀ k, b.nextBlock ≤ k → b.Unclosed k

variable {b b' : Builder} {k c : Block} {t : Term} {unsealed : Set Block}

/-- A block is not both. -/
theorem ClosedBy.not_unclosed (h : b.ClosedBy k t) : ¬b.Unclosed k := by
  intro h'
  obtain ⟨ns, hns⟩ := h.items
  obtain ⟨ms, hms⟩ := h'.items
  have hmem : .term t ∈ ms.map Item.inst := by
    rw [← hms, hns]
    simp
  simp at hmem

theorem edgesFrom_congr (h : b'.edges = b.edges) (k : Block) : b'.edgesFrom k = b.edgesFrom k := by
  rw [edgesFrom, edgesFrom, h]

theorem Unclosed.congr (h : b.Unclosed k) (hi : b'.items k = b.items k) (he : b'.edges = b.edges) : b'.Unclosed k where
  items := hi ▸ h.items
  edges := edgesFrom_congr he k ▸ h.edges

theorem ClosedBy.congr (h : b.ClosedBy k t) (hi : b'.items k = b.items k) (he : b'.edges = b.edges) : b'.ClosedBy k t where
  items := hi ▸ h.items
  edges := edgesFrom_congr he k ▸ h.edges

namespace Sealing

/-- Instructions are added to a block that is not closed. -/
theorem add (h : b.Sealing unsealed) (hk : b'.items k = b.items k ∨ k ∈ unsealed ∧ ∃ ns : List ℕ, b'.items k = b.items k ++ ns.map .inst)
    (hi : ∀ j, j ≠ k → b'.items j = b.items j) (he : b'.edges = b.edges) (hn : b'.nextBlock = b.nextBlock)
    (hlt : k < b.nextBlock) : b'.Sealing unsealed where
  unclosed j hj := by
    by_cases hjk : j = k
    · subst hjk
      rcases hk with hk | ⟨-, ns, hk⟩
      · exact (h.unclosed j hj).congr hk he
      · obtain ⟨ms, hms⟩ := (h.unclosed j hj).items
        exact ⟨⟨ms ++ ns, by rw [hk, hms, List.map_append]⟩, edgesFrom_congr he j ▸ (h.unclosed j hj).edges⟩
    · exact (h.unclosed j hj).congr (hi j hjk) he
  closed j hj hopen := by
    obtain ⟨t, ht⟩ := h.closed j (hn ▸ hj) hopen
    refine ⟨t, ht.congr ?_ he⟩
    by_cases hjk : j = k
    · subst hjk
      exact hk.resolve_right fun hk => hopen hk.1
    · exact hi j hjk
  fresh j hj := (h.fresh j (hn ▸ hj)).congr (hi j (ne_of_gt (hlt.trans_le (hn ▸ hj)))) he

theorem build (h : b.Sealing unsealed) (hc : b.cur = some c) (hopen : c ∈ unsealed) (hlt : c < b.nextBlock) (i : Inst) :
    (b.build i).Sealing unsealed := by
  refine h.add (k := c) ?_ (fun j hj => ?_) (by simp) (by simp) hlt
  · rw [build_items]
    split_ifs
    · exact .inr ⟨hopen, [b.nextValue], rfl⟩
    · exact .inl rfl
  · rw [build_items, if_neg fun hcur => hj (Option.some.inj (hcur.2.symm.trans hc))]

theorem setBlock (h : b.Sealing unsealed) (k : Block) : (b.setBlock k).Sealing unsealed where
  unclosed j hj := (h.unclosed j hj).congr rfl rfl
  closed j hj hopen := (h.closed j hj hopen).imp fun _ ht => ht.congr rfl rfl
  fresh j hj := (h.fresh j hj).congr rfl rfl

theorem createBlock (h : b.Sealing unsealed) : b.createBlock.Sealing (insert b.nextBlock unsealed) where
  unclosed j hj := by
    rcases Set.mem_insert_iff.mp hj with rfl | hj
    · exact (h.fresh _ le_rfl).congr rfl rfl
    · exact (h.unclosed j hj).congr rfl rfl
  closed j hj hopen := by
    rw [Set.mem_insert_iff, not_or] at hopen
    have hlt : j < b.nextBlock := lt_of_le_of_ne (Nat.le_of_lt_succ hj) hopen.1
    exact (h.closed j hlt hopen.2).imp fun _ ht => ht.congr rfl rfl
  fresh j hj := (h.fresh j ((Nat.le_succ _).trans hj)).congr rfl rfl

/-- The current block gets its terminator, with the edges of it. -/
theorem terminate (h : b.Sealing unsealed) (hc : b.cur = some c) (hopen : c ∈ unsealed) (hlt : c < b.nextBlock) (t : Term) :
    (b.terminate t).Sealing (unsealed \ {c}) := by
  have edges : ∀ j, (b.terminate t).edgesFrom j = b.edgesFrom j ++ if j = c then t.edges c else [] := by
    intro j
    rw [edgesFrom, terminate_edges b t hc, List.filter_append, edgesFrom]
    by_cases hj : j = c
    · subst hj
      rw [if_pos rfl]
      exact congrArg _ (List.filter_eq_self.mpr fun e he => decide_eq_true (Term.src_of_mem_edges he))
    · rw [if_neg hj]
      exact congrArg _ (List.filter_eq_nil_iff.mpr fun e he => by
        simpa [Term.src_of_mem_edges (t := t) (k := c) he] using Ne.symm hj)
  have others : ∀ j, j ≠ c → (b.terminate t).items j = b.items j ∧ (b.terminate t).edgesFrom j = b.edgesFrom j := by
    intro j hj
    rw [terminate_items, if_neg fun hcur => hj (Option.some.inj (hcur.symm.trans hc)), edges, if_neg hj, List.append_nil]
    exact ⟨rfl, rfl⟩
  exact {
    unclosed := fun j hj => by
      obtain ⟨hitems, hedges⟩ := others j hj.2
      exact ⟨hitems ▸ (h.unclosed j hj.1).items, hedges ▸ (h.unclosed j hj.1).edges⟩
    closed := fun j hj hnot => by
      by_cases hjc : j = c
      · subst hjc
        obtain ⟨ns, hns⟩ := (h.unclosed j hopen).items
        refine ⟨t, ⟨ns, by rw [terminate_items, if_pos hc, hns]⟩, ?_⟩
        rw [edges, if_pos rfl, (h.unclosed j hopen).edges, List.nil_append]
      · obtain ⟨t', ht'⟩ := h.closed j (by simpa using hj) fun hj' => hnot ⟨hj', hjc⟩
        obtain ⟨hitems, hedges⟩ := others j hjc
        exact ⟨t', hitems ▸ ht'.items, hedges ▸ ht'.edges⟩
    fresh := fun j hj => by
      rw [terminate_nextBlock] at hj
      obtain ⟨hitems, hedges⟩ := others j (ne_of_gt (hlt.trans_le hj))
      exact ⟨hitems ▸ (h.fresh j hj).items, hedges ▸ (h.fresh j hj).edges⟩ }

end Sealing

end Builder

end SpidirWasm.Spidir
