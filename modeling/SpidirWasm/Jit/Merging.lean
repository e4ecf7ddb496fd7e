import SpidirWasm.Jit.Control
import SpidirWasm.Spidir.Extends

/-! What a branch does to its target. A label has one merge for each local, and one for
its result; a branch carries a value for each of them, and only touches phis of the
target's block. -/

namespace SpidirWasm.Jit

open Spidir (Builder Inst Value ValueType Block Item)

/-- The merges of a label that a branch has reached: one for each local, and then one for
the result, if branches carry one. -/
def JitLabel.merges (l : JitLabel) : List Merge :=
  match l.locals with
  | none => []
  | some ms => if l.mergeResult then ms ++ [l.result] else ms

/-- What a branch carries to a label, in the order of its merges. -/
def JitLabel.carried (l : JitLabel) (locals : List JitValue) (v : Value) : List JitValue :=
  if l.mergeResult then locals ++ [⟨v, l.resultType⟩] else locals

variable {inputs : ℕ} {type : ValueType} {v : Value} {m : Merge} {ms : List Merge} {ls : List JitValue} {b : Builder}

/-! ### One merge -/

theorem addPhiInputs {p : ℕ} {t : ValueType} {vs : List Value} (ws : List Value) (h : (b.node p).inst = .phi t vs) :
    ws.foldl (·.addPhiInput p) b = { b with node := Function.update b.node p { b.node p with inst := .phi t (vs ++ ws) } } := by
  induction ws generalizing b vs with
  | nil => simp [← h]
  | cons w ws ih =>
    have hw : ((b.addPhiInput p w).node p).inst = .phi t (vs ++ [w]) := by simp [Builder.addPhiInput, h]
    rw [List.foldl_cons, ih hw]
    simp [Builder.addPhiInput, h]

theorem mergeValue_eq (h : v = m.value) : mergeValue inputs type v m b = (m, b) := if_pos h

theorem mergeValue_input {p : ℕ} (h : v ≠ m.value) (hp : m.phi = some p) :
    mergeValue inputs type v m b = (m, b.addPhiInput p v) := by simp [mergeValue, h, hp]

/-- A phi that is made late gets the inputs it missed, which were all the same. -/
theorem mergeValue_new (h : v ≠ m.value) (hp : m.phi = none) :
    mergeValue inputs type v m b =
      (⟨some b.nextValue, some b.nextValue⟩, b.build (.phi type (List.replicate inputs m.value ++ [v]))) := by
  have hphi : ((b.build (.phi type [])).node b.nextValue).inst = .phi type [] := by simp
  have fill := addPhiInputs (List.replicate inputs m.value ++ [v]) hphi
  simp only [List.foldl_append, List.foldl_cons, List.foldl_nil, List.nil_append] at fill
  simp only [mergeValue, if_neg h, hp, fill, Prod.mk.injEq]
  refine ⟨rfl, ?_⟩
  rcases hc : b.cur <;> simp [Builder.build, Builder.alloc, Builder.append, Inst.isFloating, Builder.instType, Inst.resultType, hc]

/-! ### All merges of a label -/

theorem mergeLocals_append {ls' : List JitValue} {ms' : List Merge} (h : ls.length = ms.length) :
    mergeLocals inputs (ls ++ ls') (ms ++ ms') b =
      let r := mergeLocals inputs ls ms b
      let r' := mergeLocals inputs ls' ms' r.2
      (r.1 ++ r'.1, r'.2) := by
  induction ls generalizing ms b with
  | nil => obtain rfl := List.length_eq_zero_iff.mp h.symm; simp [mergeLocals]
  | cons l ls ih =>
    rcases ms with _ | ⟨m, ms⟩
    · simp at h
    · simp only [List.cons_append, mergeLocals, ih (by simpa using h)]

/-- The first branch is only recorded. -/
theorem arrive_none {target : JitLabel} (h : target.locals = none) (locals : List JitValue) (v : Value) (b : Builder) :
    (target.arrive locals v b).2 = b ∧
      (target.arrive locals v b).1.merges = (target.carried locals v).map fun l => ⟨l.value, none⟩ := by
  simp only [JitLabel.arrive, h, JitLabel.merges, JitLabel.carried]
  refine ⟨trivial, ?_⟩
  by_cases hm : target.mergeResult
  · simp only [if_pos hm, List.map_append, List.map_cons, List.map_nil]
    exact if_pos hm
  · simp only [if_neg hm]
    exact if_neg hm

/-- A later one is merged, in the target's block. -/
theorem arrive_some {target : JitLabel} {ms : List Merge} (h : target.locals = some ms) {locals : List JitValue}
    (hlen : locals.length = ms.length) (v : Value) (b : Builder) :
    (target.arrive locals v b).2 =
        { (mergeLocals target.inputs (target.carried locals v) target.merges (b.setBlock target.block)).2 with cur := b.cur } ∧
      (target.arrive locals v b).1.merges =
        (mergeLocals target.inputs (target.carried locals v) target.merges (b.setBlock target.block)).1 := by
  by_cases hm : target.mergeResult
  · simp only [JitLabel.arrive, h, JitLabel.merges, JitLabel.carried, if_pos hm, mergeLocals_append hlen]
    exact ⟨rfl, if_pos hm⟩
  · simp only [JitLabel.arrive, h, JitLabel.merges, JitLabel.carried, if_neg hm]
    exact ⟨trivial, if_neg hm⟩

/-- The phis of a list of merges. -/
def phis (ms : List Merge) : List ℕ := ms.filterMap Merge.phi

theorem phis_cons_none (h : m.phi = none) : phis (m :: ms) = phis ms := List.filterMap_cons_none h

theorem phis_cons_some {p : ℕ} (h : m.phi = some p) : phis (m :: ms) = p :: phis ms := List.filterMap_cons_some h

/-- Merging builds phis and adds inputs to phis it finds. -/
theorem mergeLocals_keeps {I : Builder → Prop} (hb : ∀ b t vs, I b → I (b.build (.phi t vs)))
    (hp : ∀ b p v, p ∈ phis ms → I b → I (b.addPhiInput p v)) (h : I b) : I (mergeLocals inputs ls ms b).2 := by
  induction ls generalizing ms b with
  | nil => exact h
  | cons l ls ih =>
    rcases ms with _ | ⟨m, ms⟩
    · exact h
    · refine ih (b := (mergeValue inputs l.type l.value m b).2) (fun b p v hmem => hp b p v ?_) ?_
      · rcases hphi : m.phi <;> simp_all [phis]
      · by_cases he : l.value = m.value
        · rwa [mergeValue_eq he]
        · rcases hphi : m.phi with _ | p
          · rw [mergeValue_new he hphi]; exact hb _ _ _ h
          · rw [mergeValue_input he hphi]; exact hp _ _ _ (by simp [phis, hphi]) h

theorem loopPhis_keeps {I : Builder → Prop} (hb : ∀ b t vs, I b → I (b.build (.phi t vs))) (h : I b) : I (loopPhis ls b).2.2 := by
  induction ls generalizing b with
  | nil => exact h
  | cons l ls ih => exact ih (hb _ _ _ h)

theorem mergeValue_value (m : Merge) (h : v = m.value ∨ m.phi ≠ none) : (mergeValue inputs type v m b).1 = m := by
  unfold mergeValue
  split_ifs
  · rfl
  · rcases hp : m.phi with _ | p
    · simp_all
    · rfl

theorem mergeLocals_length : (mergeLocals inputs ls ms b).1.length = ms.length := by
  induction ls generalizing ms b with
  | nil => rfl
  | cons l ls ih => rcases ms with _ | ⟨m, ms⟩ <;> simp [mergeLocals, ih]

/-- A merge that is a phi stays what it is. -/
theorem mergeLocals_fixed (h : ∀ m ∈ ms, m.phi ≠ none) : (mergeLocals inputs ls ms b).1 = ms := by
  induction ls generalizing ms b with
  | nil => rfl
  | cons l ls ih =>
    rcases ms with _ | ⟨m, ms⟩
    · rfl
    · simp only [mergeLocals, ih fun m hm => h m (List.mem_cons_of_mem _ hm), mergeValue_value m (.inr (h m (.head _)))]

theorem mergeLocals_nextValue : b.nextValue ≤ (mergeLocals inputs ls ms b).2.nextValue :=
  mergeLocals_keeps (I := fun b' => b.nextValue ≤ b'.nextValue) (fun _ _ _ h => h.trans (by simp)) (fun _ _ _ _ h => h) le_rfl

/-- The phis of the merges are the old ones and new ones, each of its own merge. -/
theorem mergeLocals_phis (inputs : ℕ) (ls : List JitValue) (h : (phis ms).Nodup) (hp : ∀ p ∈ phis ms, p < b.nextValue) :
    (phis (mergeLocals inputs ls ms b).1).Nodup ∧ ∀ p ∈ phis (mergeLocals inputs ls ms b).1,
      p ∈ phis ms ∨ b.nextValue ≤ p ∧ p < (mergeLocals inputs ls ms b).2.nextValue := by
  induction ls generalizing ms b with
  | nil => exact ⟨h, fun p hp => .inl hp⟩
  | cons l ls ih =>
    rcases ms with _ | ⟨m, ms⟩
    · exact ⟨h, fun p hp => .inl hp⟩
    have tail : ∀ p ∈ phis ms, p ∈ phis (m :: ms) := by
      intro p hmem
      rcases hphi : m.phi <;> simp_all [phis]
    have nodup : (phis ms).Nodup := h.sublist (by rcases hphi : m.phi <;> simp [phis, hphi])
    -- a merge keeps its phi, or gets the next value
    have head : (∃ b', mergeValue inputs l.type l.value m b = (m, b') ∧ b'.nextValue = b.nextValue) ∨
        ∃ b', mergeValue inputs l.type l.value m b = (⟨some b.nextValue, some b.nextValue⟩, b') ∧ b'.nextValue = b.nextValue + 1 := by
      by_cases he : l.value = m.value
      · exact .inl ⟨_, mergeValue_eq he, rfl⟩
      · rcases hphi : m.phi with _ | p
        · exact .inr ⟨_, mergeValue_new he hphi, by simp⟩
        · exact .inl ⟨_, mergeValue_input he hphi, rfl⟩
    rcases head with ⟨b', hb, hnext⟩ | ⟨b', hb, hnext⟩
    · obtain ⟨hnodup, hmem⟩ := ih (b := b') nodup fun p hmem => hnext ▸ hp p (tail p hmem)
      simp only [mergeLocals, hb]
      rcases hphi : m.phi with _ | q
      · simp only [phis_cons_none hphi]
        exact ⟨hnodup, fun p h => hnext ▸ hmem p h⟩
      · simp only [phis_cons_some hphi, List.nodup_cons, List.mem_cons] at h hp ⊢
        refine ⟨⟨fun hq => ?_, hnodup⟩, ?_⟩
        · rcases hmem q hq with hq | ⟨hq, -⟩
          · exact h.1 hq
          · have := hp q (.inl rfl); omega
        · rintro p (rfl | h')
          · exact .inl (.inl rfl)
          · rcases hmem p h' with h' | h'
            · exact .inl (.inr h')
            · exact .inr (hnext ▸ h')
    · obtain ⟨hnodup, hmem⟩ := ih (b := b') nodup fun p hmem => hnext ▸ (hp p (tail p hmem)).trans (Nat.lt_succ_self _)
      have hle : b'.nextValue ≤ (mergeLocals inputs ls ms b').2.nextValue := mergeLocals_nextValue
      simp only [mergeLocals, hb]
      simp only [phis_cons_some (m := ⟨some b.nextValue, some b.nextValue⟩) rfl, List.nodup_cons, List.mem_cons]
      refine ⟨⟨fun hq => ?_, hnodup⟩, ?_⟩
      · rcases hmem _ hq with hq | ⟨hq, -⟩
        · exact absurd (hp _ (tail _ hq)) (lt_irrefl _)
        · omega
      · rintro p (rfl | h')
        · exact .inr ⟨le_rfl, by omega⟩
        · rcases hmem p h' with h' | h'
          · exact .inl (tail p h')
          · exact .inr ⟨by omega, h'.2⟩

theorem mergeValue_extends : b.Extends (mergeValue inputs type v m b).2 := by
  by_cases he : v = m.value
  · rw [mergeValue_eq he]
    exact .refl b
  rcases hphi : m.phi with _ | p
  · rw [mergeValue_new he hphi]
    exact b.extends_build (.phi type (List.replicate inputs m.value ++ [v]))
  · rw [mergeValue_input he hphi]
    exact b.extends_addPhiInput p v

theorem mergeLocals_extends : b.Extends (mergeLocals inputs ls ms b).2 :=
  mergeLocals_keeps (I := b.Extends) (fun b' _ _ h => h.trans (b'.extends_build _)) (fun b' p v _ h => h.trans (b'.extends_addPhiInput p v))
    (.refl b)

/-- A loop has a phi for every local from the start, in a row. -/
theorem loopPhis_merges (ls : List JitValue) (b : Builder) : (loopPhis ls b).1.length = ls.length ∧ (loopPhis ls b).2.1.length = ls.length ∧
    (∀ m ∈ (loopPhis ls b).2.1, m.value = none ∧ m.phi ≠ none) ∧
    phis (loopPhis ls b).2.1 = List.range' b.nextValue ls.length ∧ (loopPhis ls b).2.2.nextValue = b.nextValue + ls.length := by
  induction ls generalizing b with
  | nil => simp [loopPhis, phis]
  | cons l ls ih =>
    obtain ⟨h₁, h₂, h₃, h₄, h₅⟩ := ih (b := b.build (.phi l.type [l.value]))
    refine ⟨by simp [loopPhis, h₁], by simp [loopPhis, h₂], ?_, ?_, by simp [loopPhis, h₅]; omega⟩
    · simpa [loopPhis] using h₃
    · rw [List.length_cons, List.range'_succ, ← Builder.build_nextValue, ← h₄]
      exact phis_cons_some rfl

/-! ### The frame of a merge -/

/-- Only phis of the block `k` were built, and only phis of it got inputs. -/
structure PhisOnly (k : Block) (b b' : Builder) : Prop where
  ext : b.Extends b'
  nextBlock : b'.nextBlock = b.nextBlock
  edges : b'.edges = b.edges
  items : ∀ j, j ≠ k → b'.items j = b.items j
  here : ∃ new : List ℕ, b'.items k = b.items k ++ new.map .inst ∧ ∀ n, n ∈ new ↔ b.nextValue ≤ n ∧ n < b'.nextValue
  new : ∀ n, b.nextValue ≤ n → n < b'.nextValue → (b'.node n).inst.isPhi = true ∧ (b'.node n).block = some k
  old : ∀ n, n < b.nextValue → (b.node n).block ≠ some k → b'.node n = b.node n

theorem PhisOnly.refl (k : Block) (b : Builder) : PhisOnly k b b :=
  ⟨.refl b, rfl, rfl, fun _ _ => rfl, ⟨[], by simp, fun n => by simp⟩, fun n h h' => absurd h' (by omega), fun _ _ _ => rfl⟩

/-- Where the builder stands does not matter. -/
theorem PhisOnly.withCur {k : Block} {b b' : Builder} (h : PhisOnly k b b') (c c' : Option Block) :
    PhisOnly k { b with cur := c } { b' with cur := c' } :=
  ⟨⟨h.ext.params, h.ext.entry, h.ext.nextValue, h.ext.nextBlock, h.ext.node, h.ext.items, h.ext.edges⟩, h.nextBlock, h.edges,
    h.items, h.here, h.new, h.old⟩

theorem PhisOnly.build {k : Block} {b₀ b : Builder} (h : PhisOnly k b₀ b) (hc : b.cur = some k) (t : ValueType) (vs : List Value) :
    PhisOnly k b₀ (b.build (.phi t vs)) where
  ext := h.ext.trans (b.extends_build _)
  nextBlock := by simpa using h.nextBlock
  edges := by simpa using h.edges
  items j hj := by simpa [Builder.build_items, hc, Ne.symm hj] using h.items j hj
  here := by
    obtain ⟨new, hnew, hmem⟩ := h.here
    have := h.ext.nextValue
    refine ⟨new ++ [b.nextValue], by simp [Builder.build_items, hc, hnew, Inst.isFloating], fun n => ?_⟩
    simp only [List.mem_append, hmem, List.mem_singleton, Builder.build_nextValue]
    omega
  new n hn hn' := by
    rcases Nat.lt_succ_iff_lt_or_eq.mp (show n < b.nextValue + 1 by simpa using hn') with hlt | rfl
    · simpa [Function.update_of_ne (Nat.ne_of_lt hlt)] using h.new n hn hlt
    · simp [hc, Inst.isPhi]
  old n hn hk := by
    have hlt := hn.trans_le h.ext.nextValue
    simpa [Function.update_of_ne (Nat.ne_of_lt hlt)] using h.old n hn hk

theorem PhisOnly.addPhiInput {k : Block} {b₀ b : Builder} (h : PhisOnly k b₀ b) {p : ℕ} (hp : p < b₀.nextValue)
    (hk : (b₀.node p).block = some k) (v : Value) : PhisOnly k b₀ (b.addPhiInput p v) where
  ext := h.ext.trans (b.extends_addPhiInput p v)
  nextBlock := h.nextBlock
  edges := h.edges
  items := h.items
  here := h.here
  new n hn hn' := by
    have hne : n ≠ p := by omega
    simpa [Builder.addPhiInput, Function.update_of_ne hne] using h.new n hn hn'
  old n hn hk' := by
    have hne : n ≠ p := fun he => hk' (he ▸ hk)
    simpa [Builder.addPhiInput, Function.update_of_ne hne] using h.old n hn hk'

theorem mergeLocals_phisOnly {k : Block} (hc : b.cur = some k) (hp : ∀ p ∈ phis ms, p < b.nextValue ∧ (b.node p).block = some k) :
    PhisOnly k b (mergeLocals inputs ls ms b).2 :=
  (mergeLocals_keeps (I := fun b' => PhisOnly k b b' ∧ b'.cur = some k) (fun _ _ _ h => ⟨h.1.build h.2 _ _, by simpa using h.2⟩)
    (fun _ p v hmem h => ⟨h.1.addPhiInput (hp p hmem).1 (hp p hmem).2 v, h.2⟩) ⟨.refl k b, hc⟩).1

theorem loopPhis_phisOnly (ls : List JitValue) {k : Block} (hc : b.cur = some k) : PhisOnly k b (loopPhis ls b).2.2 ∧ (loopPhis ls b).2.2.cur = some k :=
  loopPhis_keeps (I := fun b' => PhisOnly k b b' ∧ b'.cur = some k) (fun _ _ _ h => ⟨h.1.build h.2 _ _, by simpa using h.2⟩)
    ⟨.refl k b, hc⟩

theorem arrive_phisOnly {target : JitLabel} {locals : List JitValue} (hlen : ∀ ms, target.locals = some ms → locals.length = ms.length)
    (hp : ∀ p ∈ phis target.merges, p < b.nextValue ∧ (b.node p).block = some target.block) :
    PhisOnly target.block b (target.arrive locals v b).2 ∧ (target.arrive locals v b).2.cur = b.cur := by
  rcases h : target.locals with _ | ms
  · rw [(arrive_none h locals v b).1]
    exact ⟨.refl _ _, rfl⟩
  · rw [(arrive_some h (hlen ms h) v b).1]
    have merged : PhisOnly target.block (b.setBlock target.block)
        (mergeLocals target.inputs (target.carried locals v) target.merges (b.setBlock target.block)).2 :=
      mergeLocals_phisOnly rfl hp
    exact ⟨merged.withCur b.cur b.cur, rfl⟩

end SpidirWasm.Jit
