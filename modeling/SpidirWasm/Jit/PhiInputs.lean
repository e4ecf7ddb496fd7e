import Mathlib.Data.List.GetD
import SpidirWasm.Jit.History
import SpidirWasm.Spidir.Phis

/-! What the phis of an open label have for inputs: one for each edge that was built into the
label's block, in the order of the edges, and each is what was carried where its branch stands.
While there is no phi, all the branches carried the value that is recorded. -/

namespace SpidirWasm.Jit

open Checked
open Relation (ReflTransGen)
open Spidir (Builder Inst Term Value ValueType Block Item Edge)

variable {b b' : Builder} {m : Merge} {ms : List Merge} {ls : List JitValue} {inputs n i : ℕ} {type : ValueType} {v : Value}

/-! ### What a merge has for a branch -/

/-- What the branch `i` carried to a merge. -/
def Merge.at (m : Merge) (b : Builder) (i : ℕ) : Value :=
  match m.phi with
  | none => m.value
  | some p => (b.inputs p).getD i none

theorem Merge.at_none (h : m.phi = none) : m.at b i = m.value := by rw [Merge.at, h]

theorem Merge.at_some {p : ℕ} (h : m.phi = some p) : m.at b i = (b.inputs p).getD i none := by rw [Merge.at, h]

/-- A merge of which the phi has one input for each of `n` branches. -/
structure Merge.Counts (b : Builder) (n : ℕ) (m : Merge) : Prop where
  lt : ∀ p, m.phi = some p → p < b.nextValue
  isPhi : ∀ p, m.phi = some p → (b.node p).inst.isPhi = true
  length : ∀ p, m.phi = some p → (b.inputs p).length = n

/-- The phi of the merge is left alone. -/
theorem Merge.at_congr (h : ∀ p, m.phi = some p → b'.inputs p = b.inputs p) : m.at b' i = m.at b i := by
  cases hp : m.phi with
  | none => rw [Merge.at_none hp, Merge.at_none hp]
  | some p => rw [Merge.at_some hp, Merge.at_some hp, h p hp]

theorem Merge.Counts.mono (h : m.Counts b n) (hb : b.Extends b') (hp : ∀ p, m.phi = some p → b'.inputs p = b.inputs p) : m.Counts b' n where
  lt p hm := (h.lt p hm).trans_le hb.nextValue
  isPhi p hm := (hb.node p (h.lt p hm)).inst.isPhi.trans (h.isPhi p hm)
  length p hm := (congrArg List.length (hp p hm)).trans (h.length p hm)

/-- One more branch: the ones before stay, and its value is the last. -/
theorem mergeValue_at (hm : m.Counts b n) (hin : m.phi = none → inputs = n) (hv : m.phi ≠ none → v ≠ m.value) :
    (mergeValue inputs type v m b).1.Counts (mergeValue inputs type v m b).2 (n + 1) ∧
      (∀ i < n, (mergeValue inputs type v m b).1.at (mergeValue inputs type v m b).2 i = m.at b i) ∧
      (mergeValue inputs type v m b).1.at (mergeValue inputs type v m b).2 n = v ∧
      ∀ q < b.nextValue, m.phi ≠ some q → (mergeValue inputs type v m b).2.inputs q = b.inputs q := by
  by_cases he : v = m.value
  · have none : m.phi = none := by_contra fun hp => hv hp he
    rw [mergeValue_eq he]
    refine ⟨⟨fun p hp => ?_, fun p hp => ?_, fun p hp => ?_⟩, fun _ _ => rfl, he ▸ Merge.at_none none, fun _ _ _ => rfl⟩ <;>
      exact absurd (none.symm.trans hp) (Option.some_ne_none p).symm
  rcases hphi : m.phi with _ | p
  · rw [mergeValue_new he hphi]
    have built : (b.build (.phi type (List.replicate inputs m.value ++ [v]))).inputs b.nextValue = List.replicate n m.value ++ [v] := by
      rw [Builder.inputs_built, hin hphi]
      rfl
    refine ⟨⟨fun p hp => ?_, fun p hp => ?_, fun p hp => ?_⟩, fun i hi => ?_, ?_, fun q hq _ => Builder.inputs_build hq _⟩
    · obtain rfl := Option.some.inj hp
      simp
    · obtain rfl := Option.some.inj hp
      simp [Inst.isPhi]
    · obtain rfl := Option.some.inj hp
      rw [built]
      simp
    · rw [Merge.at_some rfl, built, Merge.at_none hphi, List.getD_append _ _ _ _ (by simpa using hi)]
      simp [hi]
    · rw [Merge.at_some rfl, built, List.getD_append_right _ _ _ _ (by simp)]
      simp
  · rw [mergeValue_input he hphi]
    have added := Builder.inputs_addPhiInput (hm.isPhi p hphi) v
    have hlen := hm.length p hphi
    have grows := b.extends_addPhiInput p v
    refine ⟨⟨fun q hq => ?_, fun q hq => ?_, fun q hq => ?_⟩, fun i hi => ?_, ?_, fun q _ hne => ?_⟩
    · exact hm.lt q hq
    · exact (grows.node q (hm.lt q hq)).inst.isPhi.trans (hm.isPhi q hq)
    · obtain rfl := Option.some.inj (hphi.symm.trans hq)
      rw [added, List.length_append, hlen]
      rfl
    · rw [Merge.at_some hphi, Merge.at_some hphi, added, List.getD_append _ _ _ _ (hlen ▸ hi)]
    · rw [Merge.at_some hphi, added, List.getD_append_right _ _ _ _ hlen.le]
      simp [hlen]
    · exact Builder.inputs_addPhiInput_of_ne (fun h => hne (congrArg some h.symm)) v

/-- The merges one after the other: each has its own phi. -/
theorem mergeLocals_at (hms : ∀ m ∈ ms, m.Counts b n) (hin : ∀ m ∈ ms, m.phi = none → inputs = n) (hdistinct : (phis ms).Nodup)
    (hvs : List.Forall₂ (fun (l : JitValue) m => m.phi ≠ none → l.value ≠ m.value) ls ms) :
    (∀ m ∈ (mergeLocals inputs ls ms b).1, m.Counts (mergeLocals inputs ls ms b).2 (n + 1)) ∧
      (∀ i < n, (mergeLocals inputs ls ms b).1.map (·.at (mergeLocals inputs ls ms b).2 i) = ms.map (·.at b i)) ∧
      (mergeLocals inputs ls ms b).1.map (·.at (mergeLocals inputs ls ms b).2 n) = ls.map JitValue.value ∧
      ∀ q < b.nextValue, q ∉ phis ms → (mergeLocals inputs ls ms b).2.inputs q = b.inputs q := by
  induction hvs generalizing b with
  | nil => exact ⟨fun m hm => absurd hm List.not_mem_nil, fun _ _ => rfl, rfl, fun _ _ _ => rfl⟩
  | @cons l m ls ms hv _ ih =>
    obtain ⟨counts, before, last, apart⟩ := mergeValue_at (hms m List.mem_cons_self) (hin m List.mem_cons_self) hv
    have grows : b.Extends (mergeValue inputs l.type l.value m b).2 := mergeValue_extends
    -- the merges behind have other phis, and so has the one that was just made
    have others : ∀ a ∈ ms, ∀ p, a.phi = some p → p < b.nextValue ∧ m.phi ≠ some p := by
      intro a ha p hp
      refine ⟨(hms a (List.mem_cons_of_mem _ ha)).lt p hp, fun hm => ?_⟩
      rw [phis_cons_some hm, List.nodup_cons] at hdistinct
      exact hdistinct.1 (List.mem_filterMap.mpr ⟨a, ha, hp⟩)
    have rest : (phis ms).Nodup := by
      rcases hm : m.phi with _ | p
      · rwa [phis_cons_none hm] at hdistinct
      · exact (List.nodup_cons.mp (phis_cons_some hm ▸ hdistinct)).2
    have still : ∀ a ∈ ms, ∀ p, a.phi = some p → (mergeValue inputs l.type l.value m b).2.inputs p = b.inputs p :=
      fun a ha p hp => apart p (others a ha p hp).1 (others a ha p hp).2
    obtain ⟨counts', before', last', apart'⟩ := ih (fun a ha => (hms a (List.mem_cons_of_mem _ ha)).mono grows (still a ha))
      (fun a ha => hin a (List.mem_cons_of_mem _ ha)) rest
    have own : ∀ p, (mergeValue inputs l.type l.value m b).1.phi = some p → p ∉ phis ms := by
      intro p hp hmem
      obtain ⟨a, ha, hap⟩ := List.mem_filterMap.mp hmem
      obtain ⟨hlt, hne⟩ := others a ha p hap
      by_cases he : l.value = m.value
      · rw [mergeValue_eq he] at hp
        exact hne hp
      rcases hphi : m.phi with _ | q
      · rw [mergeValue_new he hphi] at hp
        exact absurd (Option.some.inj hp) hlt.ne'
      · rw [mergeValue_input he hphi] at hp
        exact hne hp
    have head : ∀ p, (mergeValue inputs l.type l.value m b).1.phi = some p →
        (mergeLocals inputs ls ms (mergeValue inputs l.type l.value m b).2).2.inputs p = (mergeValue inputs l.type l.value m b).2.inputs p :=
      fun p hp => apart' p (counts.lt p hp) (own p hp)
    refine ⟨fun a ha => ?_, fun i hi => ?_, ?_, fun q hq hmem => ?_⟩
    · rcases List.mem_cons.mp ha with rfl | ha
      · exact counts.mono mergeLocals_extends head
      · exact counts' a ha
    · exact congrArg₂ List.cons ((Merge.at_congr head).trans (before i hi))
        ((before' i hi).trans (List.map_congr_left fun a ha => Merge.at_congr (still a ha)))
    · exact congrArg₂ List.cons ((Merge.at_congr head).trans last) last'
    · have hne : m.phi ≠ some q := fun h => hmem (by rw [phis_cons_some h]; exact List.mem_cons_self)
      have htail : q ∉ phis ms := fun h => hmem (by
        rcases hm : m.phi with _ | p
        · rwa [phis_cons_none hm]
        · rw [phis_cons_some hm]
          exact List.mem_cons_of_mem _ h)
      exact (apart' q (hq.trans_le grows.nextValue) htail).trans (apart q hq hne)

/-! ### What a label has for a branch -/

/-- What the branch `i` carried to a label. -/
def JitLabel.row (l : JitLabel) (b : Builder) (i : ℕ) : List Value := l.merges.map (·.at b i)

theorem JitLabel.row_congr {l : JitLabel} (h : ∀ p ∈ phis l.merges, b'.inputs p = b.inputs p) : l.row b' i = l.row b i :=
  List.map_congr_left fun m hm => Merge.at_congr fun p hp => h p (List.mem_filterMap.mpr ⟨m, hm, hp⟩)

/-- A label with the phis in line with `n` branches. -/
structure JitLabel.InLine (b : Builder) (n : ℕ) (l : JitLabel) : Prop where
  counts : ∀ m ∈ l.merges, m.Counts b n
  inputs : l.loop = false → l.inputs = n
  first : l.locals = none → n = 0

theorem JitLabel.InLine.mono {l : JitLabel} (h : l.InLine b n) (hb : b.Extends b') (hp : ∀ p ∈ phis l.merges, b'.inputs p = b.inputs p) :
    l.InLine b' n :=
  { h with counts := fun m hm => (h.counts m hm).mono hb fun p hmp => hp p (List.mem_filterMap.mpr ⟨m, hm, hmp⟩) }

theorem JitLabel.arrive_inLine {l : JitLabel} {locals : List JitValue} (hm : Merges b locals.length l) (h : l.InLine b n)
    (hv : ∀ a ∈ l.carried locals v, ∀ m ∈ l.merges, m.phi ≠ none → a.value ≠ m.value) :
    (l.arrive locals v b).1.InLine (l.arrive locals v b).2 (n + 1) ∧
      (∀ i < n, (l.arrive locals v b).1.row (l.arrive locals v b).2 i = l.row b i) ∧
      (l.arrive locals v b).1.row (l.arrive locals v b).2 n = (l.carried locals v).map JitValue.value ∧
      ∀ q < b.nextValue, q ∉ phis l.merges → (l.arrive locals v b).2.inputs q = b.inputs q := by
  have count : (l.arrive locals v b).1.loop = false → (l.arrive locals v b).1.inputs = n + 1 := by
    rw [arrive_loop, arrive_inputs]
    exact fun hloop => congrArg (· + 1) (h.inputs hloop)
  have reached : (l.arrive locals v b).1.locals ≠ none := by
    rw [JitLabel.arrive]
    cases l.locals <;> exact Option.some_ne_none _
  rcases hlocals : l.locals with _ | ms
  · obtain ⟨hb, hrow⟩ := arrive_none hlocals locals v b
    obtain rfl := h.first hlocals
    have none : ∀ m ∈ (l.arrive locals v b).1.merges, m.phi = none := by
      rw [hrow]
      intro m hmem
      obtain ⟨_, -, rfl⟩ := List.mem_map.mp hmem
      rfl
    refine ⟨⟨fun m hmem => ⟨fun p hp => ?_, fun p hp => ?_, fun p hp => ?_⟩, count, fun hl => absurd hl reached⟩,
      fun i hi => absurd hi (Nat.not_lt_zero i), ?_, fun q _ _ => by rw [hb]⟩
    · exact absurd ((none m hmem).symm.trans hp) (Option.some_ne_none p).symm
    · exact absurd ((none m hmem).symm.trans hp) (Option.some_ne_none p).symm
    · exact absurd ((none m hmem).symm.trans hp) (Option.some_ne_none p).symm
    · rw [JitLabel.row, hrow, List.map_map]
      rfl
  · obtain ⟨hb, hrow⟩ := arrive_some hlocals (hm.length ms hlocals).symm v b
    have place : ∀ q, (b.setBlock l.block).inputs q = b.inputs q := fun _ => rfl
    have lengths : (l.carried locals v).length = l.merges.length := by
      have hlen := hm.length ms hlocals
      rw [JitLabel.carried, JitLabel.merges, hlocals]
      dsimp only
      split_ifs <;> simp [hlen]
    have late : ∀ m ∈ l.merges, m.phi = none → l.inputs = n := by
      intro m hmem hphi
      refine h.inputs (Bool.eq_false_iff.mpr fun hloop => ?_)
      obtain ⟨ms', hms', hall⟩ := hm.loop hloop
      have same : l.merges = ms' := by
        rw [JitLabel.merges, hms']
        exact if_neg fun hr => by rw [hr.2] at hloop; cases hloop
      exact (hall m (same ▸ hmem)).2 hphi
    obtain ⟨counts, before, last, apart⟩ := mergeLocals_at
      (fun m hmem => (h.counts m hmem).mono (b.extends_setBlock l.block) fun _ _ => rfl) late hm.distinct
      (List.forall₂_iff_get.mpr ⟨lengths, fun i hi hi' => hv _ (List.get_mem _ _) _ (List.get_mem _ _)⟩)
    have cur : ∀ (b' : Builder) q, ({ b' with cur := b.cur } : Builder).inputs q = b'.inputs q := fun _ _ => rfl
    have still : ∀ b' : Builder, b'.Extends { b' with cur := b.cur } := fun b' =>
      ⟨rfl, rfl, le_rfl, le_rfl, fun _ _ => .refl _, fun _ => List.prefix_rfl, List.prefix_rfl⟩
    refine ⟨⟨fun m hmem => ?_, count, fun hl => absurd hl reached⟩, fun i hi => ?_, ?_, fun q hq hmem => ?_⟩
    · rw [hrow] at hmem
      rw [hb]
      exact (counts m hmem).mono (still _) fun _ _ => rfl
    · rw [JitLabel.row, hrow, hb]
      exact before i hi
    · rw [JitLabel.row, hrow, hb]
      exact last
    · rw [hb]
      exact apart q hq hmem

/-- At the start of a loop the one branch to it carried the locals. -/
theorem loopPhis_inLine (ls : List JitValue) (b : Builder) :
    (∀ m ∈ (loopPhis ls b).2.1, m.Counts (loopPhis ls b).2.2 1) ∧
      (loopPhis ls b).2.1.map (·.at (loopPhis ls b).2.2 0) = ls.map JitValue.value ∧
      ∀ q < b.nextValue, (loopPhis ls b).2.2.node q = b.node q := by
  induction ls generalizing b with
  | nil => exact ⟨fun m hm => absurd hm List.not_mem_nil, rfl, fun _ _ => rfl⟩
  | cons l ls ih =>
    obtain ⟨counts, first, old⟩ := ih (b.build (.phi l.type [l.value]))
    have here : (loopPhis ls (b.build (.phi l.type [l.value]))).2.2.node b.nextValue = ⟨.phi l.type [l.value], l.type, b.cur⟩ := by
      rw [old _ (by simp), Builder.build_node, Function.update_self]
      rfl
    have inputs : (loopPhis ls (b.build (.phi l.type [l.value]))).2.2.inputs b.nextValue = [l.value] := by
      rw [Builder.inputs, here]
      rfl
    have next : b.nextValue < (loopPhis ls (b.build (.phi l.type [l.value]))).2.2.nextValue := by
      rw [(loopPhis_merges ls _).2.2.2.2, Builder.build_nextValue]
      omega
    refine ⟨fun m hm => ?_, ?_, fun q hq => ?_⟩
    · rcases List.mem_cons.mp hm with rfl | hm
      · refine ⟨fun p hp => ?_, fun p hp => ?_, fun p hp => ?_⟩ <;> obtain rfl := Option.some.inj hp
        · exact next
        · exact (congrArg (·.inst.isPhi) here).trans rfl
        · exact congrArg List.length inputs
      · exact counts m hm
    · exact congrArg₂ List.cons ((Merge.at_some rfl).trans (congrArg (fun vs => vs.getD 0 none) inputs)) first
    · rw [loopPhis]
      exact (old q (by simp; omega)).trans (by simp [Function.update_of_ne (Nat.ne_of_lt hq)])

/-! ### Values apart from the blocks to come -/

variable {pend pend' : List Block}

/-- A value that was built, and that is no phi of a block that is still to be entered. -/
def Apart (b : Builder) (pend : List Block) (v : Value) : Prop :=
  ∃ n, v = some n ∧ n < b.nextValue ∧ ∀ k ∈ pend, (b.node n).block ≠ some k

theorem Apart.mono (h : Apart b pend v) (hb : b.Extends b')
    (hp : ∀ k ∈ pend', k ∈ pend ∨ ∀ n < b.nextValue, (b.node n).block ≠ some k) : Apart b' pend' v := by
  obtain ⟨n, rfl, hn, hk⟩ := h
  refine ⟨n, rfl, hn.trans_le hb.nextValue, fun k hmem => (hb.node n hn).block ▸ ?_⟩
  rcases hp k hmem with hold | hnew
  · exact hk k hold
  · exact hnew n hn

theorem Apart.of_same (h : Apart b pend v) (hb : b.Extends b') : Apart b' pend v := h.mono hb fun _ hk => .inl hk

/-- What is recorded for a merge: the value that all branches carried, or its phi. -/
structure Merge.Kept (b : Builder) (pend : List Block) (m : Merge) : Prop where
  value : m.phi = none → Apart b pend m.value
  phi : ∀ p, m.phi = some p → m.value = some p

theorem Merge.Kept.mono (h : m.Kept b pend) (hv : ∀ v, Apart b pend v → Apart b' pend' v) : m.Kept b' pend' :=
  ⟨fun hp => hv _ (h.value hp), h.phi⟩

theorem mergeLocals_kept (hms : ∀ m ∈ ms, m.Kept b pend) : ∀ m ∈ (mergeLocals inputs ls ms b').1, m.Kept b pend := by
  induction ls generalizing ms b' with
  | nil => exact hms
  | cons l ls ih =>
    rcases ms with _ | ⟨m, ms⟩
    · exact hms
    intro a ha
    have both : a ∈ (mergeValue inputs l.type l.value m b').1 :: (mergeLocals inputs ls ms (mergeValue inputs l.type l.value m b').2).1 := ha
    rcases List.mem_cons.mp both with rfl | ha
    · by_cases he : l.value = m.value
      · rw [mergeValue_eq he]
        exact hms m List.mem_cons_self
      rcases hphi : m.phi with _ | p
      · rw [mergeValue_new he hphi]
        exact ⟨fun h => absurd h (Option.some_ne_none _), fun p hp => hp⟩
      · rw [mergeValue_input he hphi]
        exact hms m List.mem_cons_self
    · exact ih (fun m hm => hms m (List.mem_cons_of_mem _ hm)) a ha

variable {J : Branching} {w w' : Work} {s t : EmitState} {l p : JitLabel} {k : Block}

/-- No value that an instruction may read is a phi of a block that is still to be entered, and
nothing but its phis stands there. -/
structure Untouched (w : Work) (s : EmitState) : Prop where
  items : ∀ k ∈ pending s.scopes, ∀ it ∈ s.builder.items k, ∃ n, it = .inst n ∧ (s.builder.node n).inst.isPhi = true
  locals : ∀ l ∈ s.func.locals, Apart s.builder (pending s.scopes) l.value
  operands : ∀ l ∈ s.func.labels, ∀ v ∈ l.stack, Apart s.builder (pending s.scopes) v.value
  hand : ∀ v ∈ w.hand, Apart s.builder (pending s.scopes) v.value
  owed : ∀ q ∈ w.owed, ∀ v ∈ q.2, Apart s.builder (pending s.scopes) v.value
  merges : ∀ l ∈ s.scopes, l.loop = false → ∀ m ∈ l.merges, m.Kept s.builder (pending s.scopes)

namespace Untouched

/-- A larger graph in which the blocks to come have what they had. -/
theorem withBuilder (h : Untouched w s) {b : Builder} (hs : Shaped w s) (hb : s.builder.Extends b)
    (hitems : ∀ k ∈ pending s.scopes, b.items k = s.builder.items k) : Untouched w (s.withBuilder b) where
  items k hk it hit := by
    obtain ⟨n, rfl, hn⟩ := h.items k hk it (hitems k hk ▸ hit)
    have old := (hs.placed k n (hitems k hk ▸ hit)).1
    exact ⟨n, rfl, (hb.node n old).inst.isPhi.trans hn⟩
  locals l hl := (h.locals l hl).of_same hb
  operands l hl v hv := (h.operands l hl v hv).of_same hb
  hand v hv := (h.hand v hv).of_same hb
  owed q hq v hv := (h.owed q hq v hv).of_same hb
  merges l hl hloop m hm := (h.merges l hl hloop m hm).mono fun _ hv => hv.of_same hb

/-- Only the stack of the innermost label changes. -/
theorem withStack {ls : List JitLabel} {k : JitLabel} (h : Untouched w s) (hl : s.func.labels = l :: ls) (hb : k.bare = l.bare)
    (hstack : ∀ v ∈ k.stack, Apart s.builder (pending s.scopes) v.value) : Untouched w (s.withLabels (k :: ls)) := by
  have scopes := scopes_withLabels hl hb
  exact {
    items := scopes ▸ h.items
    locals := scopes ▸ h.locals
    operands := fun a ha v hv => by
      rw [scopes]
      rcases List.mem_cons.mp ha with rfl | ha
      · exact hstack v hv
      · exact h.operands a (hl ▸ List.mem_cons_of_mem _ ha) v hv
    hand := scopes ▸ h.hand
    owed := scopes ▸ h.owed
    merges := scopes ▸ h.merges }

/-- Other values at hand. -/
theorem withWork (h : Untouched w s) (hhand : ∀ v ∈ w'.hand, Apart s.builder (pending s.scopes) v.value)
    (howed : ∀ q ∈ w'.owed, ∀ v ∈ q.2, Apart s.builder (pending s.scopes) v.value) : Untouched w' s :=
  { h with hand := hhand, owed := howed }

theorem learn (h : Untouched w s) {v : JitValue} (hv : Apart s.builder (pending s.scopes) v.value) :
    Untouched { w with hand := insert v w.hand } s :=
  h.withWork (fun a ha => (Set.mem_insert_iff.mp ha).elim (fun he => he ▸ hv) (h.hand a)) h.owed

theorem withLocals {locals : List JitValue} (h : Untouched w s) (hlocals : ∀ l ∈ locals, Apart s.builder (pending s.scopes) l.value) :
    Untouched w (s.withLocals locals) :=
  { h with locals := hlocals }

/-- A label is closed. -/
theorem close {ls : List JitLabel} (h : Untouched w s) (hl : s.func.labels = l :: p :: ls) : Untouched w (s.withLabels (p :: ls)) := by
  have scopes : s.scopes = l.bare :: (s.withLabels (p :: ls)).scopes := scopes_cons hl
  have sub : ∀ k ∈ pending (s.withLabels (p :: ls)).scopes, k ∈ pending s.scopes := by
    intro k hk
    rw [pending, scopes, List.filter_cons]
    split_ifs
    · exact List.mem_cons_of_mem _ hk
    · exact hk
  have fewer : ∀ v, Apart s.builder (pending s.scopes) v → Apart s.builder (pending (s.withLabels (p :: ls)).scopes) v :=
    fun v hv => hv.mono (.refl _) fun k hk => .inl (sub k hk)
  exact {
    items := fun k hk => h.items k (sub k hk)
    locals := fun a ha => fewer _ (h.locals a ha)
    operands := fun a ha v hv => fewer _ (h.operands a (hl ▸ List.mem_cons_of_mem _ ha) v hv)
    hand := fun v hv => fewer _ (h.hand v hv)
    owed := fun q hq v hv => fewer _ (h.owed q hq v hv)
    merges := fun a ha hloop m hm => (h.merges a (scopes ▸ List.mem_cons_of_mem _ ha) hloop m hm).mono fewer }

/-- A branch whose value, if it carries one, was built. -/
theorem arrive {index : ℕ} {target : JitLabel} {v : Value} {due : List Block} (h : Untouched w s) (hs : Shaped w s)
    (hl : s.func.labels[index]? = some target) (hi : index + 1 < s.func.labels.length)
    (hv : target.mergeResult → Apart s.builder (pending s.scopes) v) : Untouched { w with due } (s.arrive index target v) := by
  obtain ⟨pre, post, hpre, hpost⟩ := scopes_arrive (v := v) hl hi
  have mem : target.bare ∈ s.scopes := by simp [hpre]
  have merges := Merges.bare.mp (hs.merges target.bare mem)
  have carried : ∀ a ∈ target.carried s.func.locals v, Apart s.builder (pending s.scopes) a.value := by
    intro a ha
    rw [JitLabel.carried] at ha
    split_ifs at ha with hm
    · rcases List.mem_append.mp ha with ha | ha
      · exact h.locals a ha
      · obtain rfl := List.mem_singleton.mp ha
        exact hv hm
    · exact h.locals a ha
  obtain ⟨only, -⟩ := arrive_phisOnly (b := s.builder) (v := v) (fun ms hms => (merges.length ms hms).symm)
    fun p hp => ⟨(merges.phis p hp).1, (merges.phis p hp).2.1⟩
  have same : pending (s.arrive index target v).scopes = pending s.scopes := by
    rw [hpre, hpost]
    simp [pending, List.filter_cons, JitLabel.bare, apply_ite]
  have grows : ∀ x, Apart s.builder (pending s.scopes) x →
      Apart (s.arrive index target v).builder (pending (s.arrive index target v).scopes) x := by
    rw [same]
    exact fun x hx => hx.of_same only.ext
  exact {
    items := fun k hk it hit => by
      obtain ⟨new, hnew, hmem⟩ := only.here
      have old : it ∈ s.builder.items k → ∃ n, it = .inst n ∧ ((s.arrive index target v).builder.node n).inst.isPhi = true := by
        intro hit
        obtain ⟨n, rfl, hn⟩ := h.items k (same ▸ hk) it hit
        exact ⟨n, rfl, (only.ext.node n (hs.placed k n hit).1).inst.isPhi.trans hn⟩
      by_cases hkt : k = target.block
      · subst hkt
        rcases List.mem_append.mp (hnew ▸ hit) with hit | hit
        · exact old hit
        · obtain ⟨n, hn, rfl⟩ := List.mem_map.mp hit
          obtain ⟨hge, hlt⟩ := (hmem n).mp hn
          exact ⟨n, rfl, (only.new n hge hlt).1⟩
      · exact old (only.items k hkt ▸ hit)
    locals := fun l hl => grows _ (h.locals l hl)
    operands := fun a ha x hx => by
      obtain ⟨i, hi⟩ := List.mem_iff_getElem?.mp ha
      simp only [EmitState.arrive, EmitState.withLabels_func_labels, List.getElem?_modify] at hi
      obtain ⟨a', ha', rfl⟩ := Option.map_eq_some_iff.mp hi
      refine grows _ (h.operands a' (List.mem_of_getElem? ha') x ?_)
      split_ifs at hx with he
      · subst he
        obtain rfl := Option.some.inj (hl.symm.trans ha')
        rwa [arrive_stack] at hx
      · exact hx
    hand := fun x hx => grows _ (h.hand x hx)
    owed := fun q hq x hx => grows _ (h.owed q hq x hx)
    merges := fun a ha hloop m hm => by
      refine Merge.Kept.mono ?_ grows
      rw [hpost] at ha
      rcases List.mem_append.mp ha with ha' | ha'
      · exact h.merges a (hpre ▸ List.mem_append_left _ ha') hloop m hm
      · rcases List.mem_cons.mp ha' with rfl | ha'
        · have known : ∀ m ∈ target.merges, m.Kept s.builder (pending s.scopes) :=
            h.merges target.bare mem ((arrive_loop target s.func.locals v s.builder).symm.trans hloop)
          have hm : m ∈ (target.arrive s.func.locals v s.builder).1.merges := hm
          rcases hlocals : target.locals with _ | ms
          · rw [(arrive_none hlocals s.func.locals v s.builder).2] at hm
            obtain ⟨a, ha, rfl⟩ := List.mem_map.mp hm
            exact ⟨fun _ => carried a ha, fun p hp => absurd hp (Option.some_ne_none p).symm⟩
          · rw [(arrive_some hlocals (merges.length ms hlocals).symm v s.builder).2] at hm
            exact mergeLocals_kept known m hm
        · exact h.merges a (hpre ▸ List.mem_append_right _ (List.mem_cons_of_mem _ ha')) hloop m hm }

/-- A block that was just created is no value's. -/
theorem openBlock {type : ValueType} (h : Untouched w s) (hs : Shaped w s) (hl : s.func.labels ≠ []) : Untouched w (s.enterBlock type) := by
  have scopes : (s.enterBlock type).scopes = ({ block := s.builder.nextBlock, resultType := type } : JitLabel).bare :: s.scopes :=
    scopes_push (s := s) hl _
  have pend : pending (s.enterBlock type).scopes = s.builder.nextBlock :: pending s.scopes := by
    rw [scopes]
    rfl
  have fresh : ∀ n < s.builder.nextValue, (s.builder.node n).block ≠ some s.builder.nextBlock :=
    fun n hn hk => lt_irrefl _ (hs.home n hn _ hk).1
  have grows : ∀ x, Apart s.builder (pending s.scopes) x → Apart (s.enterBlock type).builder (pending (s.enterBlock type).scopes) x := by
    rw [pend]
    refine fun x hx => hx.mono s.builder.extends_createBlock fun k hk => ?_
    rcases List.mem_cons.mp hk with rfl | hk
    · exact .inr fresh
    · exact .inl hk
  exact {
    items := fun k hk it hit => by
      have hit : it ∈ s.builder.items k := hit
      rcases List.mem_cons.mp (pend ▸ hk) with rfl | hk
      · rw [hs.empty _ (.inl le_rfl)] at hit
        cases hit
      · exact h.items k hk it hit
    locals := fun l hl => grows _ (h.locals l hl)
    operands := fun a ha x hx => by
      rcases List.mem_cons.mp ha with rfl | ha
      · cases hx
      · exact grows _ (h.operands a ha x hx)
    hand := fun x hx => grows _ (h.hand x hx)
    owed := fun q hq x hx => grows _ (h.owed q hq x hx)
    merges := fun a ha hloop m hm => by
      rcases List.mem_cons.mp (scopes ▸ ha) with rfl | ha
      · cases hm
      · exact (h.merges a ha hloop m hm).mono grows }

theorem loop {type : ValueType} (h : Untouched w s) (hs : Shaped w s) (ho : w.owed = []) (hl : s.func.labels ≠ []) :
    Untouched { w with hand := ∅ } (s.enterLoop type) := by
  set b := (s.builder.createBlock.terminate (.branch s.builder.nextBlock)).setBlock s.builder.nextBlock with hb
  obtain ⟨c, hc, hlt, -, hcp⟩ := hs.cur
  have start : s.builder.Extends b :=
    ((Builder.extends_createBlock _).trans (Builder.extends_terminate _ _)).trans (Builder.extends_setBlock _ _)
  obtain ⟨only, -⟩ := loopPhis_phisOnly s.func.locals (k := s.builder.nextBlock) (b := b) rfl
  have scopes : (s.enterLoop type).scopes = _ :: s.scopes := scopes_push (s := s) hl _
  have pend : pending (s.enterLoop type).scopes = pending s.scopes := by
    rw [scopes]
    rfl
  have new : s.builder.nextBlock ∉ pending s.scopes := fun hk =>
    lt_irrefl _ (hs.bound _ (List.mem_append_right _ (Shape.pending_subset _ hk))).2
  have built := h.withBuilder hs (start.trans only.ext) fun k hk => by
    rw [only.items k fun he => new (he ▸ hk)]
    exact (Builder.terminate_items ..).trans (if_neg fun he => hcp (Option.some.inj (hc.symm.trans he) ▸ hk))
  have grows : ∀ x, Apart s.builder (pending s.scopes) x → Apart (s.enterLoop type).builder (pending (s.enterLoop type).scopes) x := by
    rw [pend]
    exact fun x hx => hx.of_same (start.trans only.ext)
  -- the new locals are phis of the block of the loop, which is entered
  have phis : ∀ (ls : List JitValue) (b : Builder), ∀ a ∈ (loopPhis ls b).1, ∃ n, a.value = some n ∧ b.nextValue ≤ n ∧ n < (loopPhis ls b).2.2.nextValue := by
    intro ls
    induction ls with
    | nil => exact fun b a ha => absurd ha List.not_mem_nil
    | cons l ls ih =>
      intro b a ha
      have count := (loopPhis_merges ls (b.build (.phi l.type [l.value]))).2.2.2.2
      rcases List.mem_cons.mp (show a ∈ ⟨some b.nextValue, l.type⟩ :: (loopPhis ls (b.build (.phi l.type [l.value]))).1 from ha) with rfl | ha
      · exact ⟨_, rfl, le_rfl, by rw [loopPhis]; simp only [count, Builder.build_nextValue]; omega⟩
      · obtain ⟨n, hn, hge, hlt⟩ := ih _ a ha
        exact ⟨n, hn, by rw [Builder.build_nextValue] at hge; omega, hlt⟩
  exact {
    items := pend ▸ built.items
    locals := fun a ha => by
      obtain ⟨n, hn, hge, hlt⟩ := phis _ _ a ha
      refine ⟨n, hn, hlt, fun k hk hblock => new ?_⟩
      exact Option.some.inj ((only.new n hge hlt).2.symm.trans hblock) ▸ pend ▸ hk
    operands := fun a ha x hx => by
      rcases List.mem_cons.mp ha with rfl | ha
      · cases hx
      · exact grows _ (h.operands a ha x hx)
    hand := fun x hx => absurd hx (Set.notMem_empty x)
    owed := fun q hq => by rw [ho] at hq; cases hq
    merges := fun a ha hloop m hm => by
      rcases List.mem_cons.mp (scopes ▸ ha) with rfl | ha
      · cases hloop
      · exact (h.merges a ha hloop m hm).mono grows }

/-- Behind a block its merges are values that may be read. -/
theorem join {ls : List JitLabel} (h : Untouched w s) (hs : Shaped w s) (ho : w.owed = []) (hl : s.func.labels = l :: p :: ls)
    (hloop : l.loop = false) (hm : l.locals = some ms) :
    Untouched { w with hand := l.joined, mode := .live }
      (((s.withLocals (restoreLocals s.func.locals ms)).withBuilder (s.builder.setBlock l.block)).withLabels (p :: ls)) := by
  have scopes : s.scopes = l.bare :: (s.withLabels (p :: ls)).scopes := scopes_cons hl
  have mem : l.bare ∈ s.scopes := scopes ▸ List.mem_cons_self
  have merges := Merges.bare.mp (hs.merges l.bare mem)
  have gone : l.block ∉ pending (s.withLabels (p :: ls)).scopes := fun hk => by
    have nodup := (List.nodup_append.mp hs.blocks).2.1
    rw [scopes, List.map_cons, List.nodup_cons] at nodup
    exact nodup.1 (Shape.pending_subset _ hk)
  have closed := h.close hl
  have sub : ∀ k ∈ pending (s.withLabels (p :: ls)).scopes, k ∈ pending s.scopes ∨ ∀ n < s.builder.nextValue, (s.builder.node n).block ≠ some k := by
    intro k hk
    refine .inl ?_
    rw [pending, scopes, List.filter_cons]
    split_ifs
    · exact List.mem_cons_of_mem _ hk
    · exact hk
  have free : ∀ m ∈ l.merges, Apart s.builder (pending (s.withLabels (p :: ls)).scopes) m.value := by
    intro m hmem
    have kept := h.merges l.bare mem hloop m hmem
    rcases hphi : m.phi with _ | q
    · exact (kept.value hphi).mono (.refl _) sub
    · obtain ⟨hlt, hblock, -⟩ := merges.phis q (List.mem_filterMap.mpr ⟨m, hmem, hphi⟩)
      exact ⟨q, kept.phi q hphi, hlt, fun k hk he => gone (Option.some.inj (hblock.symm.trans he) ▸ hk)⟩
  have some : l.merges = if l.mergeResult then ms ++ [l.result] else ms := by rw [JitLabel.merges, hm]
  have front : ∀ m ∈ ms, m ∈ l.merges := by
    rw [some]
    intro m hmem
    split_ifs
    · exact List.mem_append_left _ hmem
    · exact hmem
  have restored : ∀ (ls : List JitValue) (ms : List Merge), ∀ a ∈ restoreLocals ls ms, ∃ m ∈ ms, a.value = m.value := by
    intro ls ms a ha
    obtain ⟨i, hi⟩ := List.mem_iff_getElem?.mp ha
    rw [restoreLocals, List.getElem?_zipWith_eq_some] at hi
    obtain ⟨x, m, -, hmi, rfl⟩ := hi
    exact ⟨m, List.mem_of_getElem? hmi, rfl⟩
  have named : ∀ a ∈ restoreLocals s.func.locals ms, Apart (s.withLabels (p :: ls)).builder (pending (s.withLabels (p :: ls)).scopes) a.value := by
    intro a ha
    obtain ⟨m, hmem, he⟩ := restored _ _ a ha
    exact he ▸ free m (front m hmem)
  have entered : Untouched { w with hand := l.joined, mode := .live } ((s.withLabels (p :: ls)).withLocals (restoreLocals s.func.locals ms)) :=
    (closed.withLocals named).withWork (fun v hv => ?_) fun q hq => by rw [ho] at hq; cases hq
  · exact {
      items := entered.items
      locals := entered.locals
      operands := entered.operands
      hand := entered.hand
      owed := entered.owed
      merges := fun a ha hloop m hm =>
        (entered.merges a ha hloop m hm).mono fun _ hv => hv.of_same (s.builder.extends_setBlock l.block) }
  · obtain ⟨hne, rfl⟩ := hv
    have hr : l.mergeResult := ⟨hne, hloop⟩
    exact free l.result (some ▸ by rw [if_pos hr]; exact List.mem_append_right _ (List.mem_singleton_self _))

end Untouched

/-- Every primitive step of an instruction that agrees with its targets on carrying a value keeps it. -/
theorem Prim.untouched (h : Prim J w s w' t) (hJ : J.uniform) (hs : Shaped w s) (he : Untouched w s) : Untouched w' t := by
  cases h with
  | forget h => exact he.withWork (fun v hv => he.hand v (h hv)) he.owed
  | abandon _ hp => exact he.withWork he.hand fun q hq => he.owed q (hp.mem_iff.mpr (List.mem_cons_of_mem _ hq))
  | context => exact { he with }
  | @pop l ls v rest _ hl hv =>
    have mem : ∀ a ∈ v :: rest, Apart s.builder (pending s.scopes) a.value := hv ▸ he.operands l (hl ▸ List.mem_cons_self)
    have popped := he.withStack (k := { l with stack := rest }) hl rfl fun a ha => mem a (List.mem_cons_of_mem _ ha)
    refine popped.learn ?_
    rw [scopes_withLabels (k := { l with stack := rest }) hl rfl]
    exact mem v List.mem_cons_self
  | @peek l ls v rest hl hv => exact he.learn (he.operands l (hl ▸ List.mem_cons_self) v (hv ▸ List.mem_cons_self))
  | @push l ls v _ _ hl hv =>
    refine he.withStack hl rfl fun a ha => ?_
    rcases List.mem_cons.mp ha with rfl | ha
    · exact he.hand a hv
    · exact he.operands l (hl ▸ List.mem_cons_self) a ha
  | discard _ hl => exact he.withStack hl rfl fun a ha => absurd ha List.not_mem_nil
  | @getLocal i v hv => exact he.learn (he.locals v (List.mem_of_getElem? hv))
  | @setLocal i l v _ _ hl hv =>
    refine he.withLocals fun a ha => ?_
    rcases List.mem_or_eq_of_mem_set ha with ha | rfl
    · exact he.locals a ha
    · exact he.hand _ hv
  | @node i ty hm _ _ | @effect i ty hm _ _ =>
    obtain ⟨c, hc, hlt, -, hcp⟩ := hs.cur
    have built := he.withBuilder hs (s.builder.extends_build i) fun k hk => by
      rw [Builder.build_items, if_neg]
      rintro ⟨-, h⟩
      exact hcp (Option.some.inj (hc.symm.trans h) ▸ hk)
    first
    | exact built.learn ⟨s.builder.nextValue, rfl, by simp, fun k hk he => hcp (by
        simp [hc] at he
        exact he ▸ hk)⟩
    | exact built
  | @block Γ h =>
    have built := he.withBuilder hs (Builder.extends_createBlock _) fun _ _ => rfl
    refine built.withWork built.hand fun p hp => ?_
    rcases List.mem_cons.mp hp with rfl | hp
    · exact fun v hv => built.hand v (h hv)
    · exact built.owed p hp
  | @enter k Γ owed _ hk _ =>
    have built := he.withBuilder hs (Builder.extends_setBlock _ k) fun _ _ => rfl
    exact built.withWork (built.owed _ (hk.mem_iff.mpr List.mem_cons_self)) fun p hp => built.owed p (hk.mem_iff.mpr (List.mem_cons_of_mem _ hp))
  | @term tm due _ _ _ =>
    obtain ⟨c, hc, -, -, hcp⟩ := hs.cur
    have built := he.withBuilder hs (Builder.extends_terminate _ tm) fun k hk =>
      (Builder.terminate_items ..).trans (if_neg fun h => hcp (Option.some.inj (hc.symm.trans h) ▸ hk))
    exact built.withWork built.hand built.owed
  | arrive _ hl hi _ hv =>
    refine he.arrive hs hl hi fun hm => ?_
    obtain ⟨-, ty, hty⟩ := (hv hm).1 hJ
    exact he.hand _ hty
  | @mark l ls _ hl => exact { he.withStack (k := { l with terminated := true }) hl rfl (he.operands l (hl ▸ List.mem_cons_self)) with }
  | @skip l ls _ hl depth =>
    exact he.withStack (k := { l with unreachableDepth := depth }) hl rfl (he.operands l (hl ▸ List.mem_cons_self))
  | openBlock _ _ hl => exact he.openBlock hs hl
  | loop _ ho _ hl => exact he.loop hs ho hl
  | join _ ho _ hl hloop hm => exact he.join hs ho hl hloop hm
  | @deadJoin l p ls _ ho _ hl _ _ =>
    exact ((he.withBuilder hs (Builder.extends_setBlock _ l.block) fun _ _ => rfl).close hl).withWork
      (fun v hv => absurd hv (Set.notMem_empty v)) fun p hp => by rw [ho] at hp; cases hp
  | endLoop _ _ _ hl => exact { he.close hl with }
  | leave _ ho =>
    exact {
      items := fun k hk => absurd hk List.not_mem_nil
      locals := fun l hl => (he.locals l hl).mono (.refl _) fun k hk => absurd hk List.not_mem_nil
      operands := fun a ha => absurd ha List.not_mem_nil
      hand := fun v hv => absurd hv (Set.notMem_empty v)
      owed := fun q hq => by rw [ho] at hq; cases hq
      merges := fun a ha => absurd ha List.not_mem_nil }

/-- At the start the locals are constants and parameters. -/
theorem Entered.untouched {ctx : JitContext} {params : List ValueType} {ret : ValueType} (h : Entered ctx params ret s) : Untouched {} s := by
  have none : s.scopes = [] := by simp [EmitState.scopes, h.labels]
  exact {
    items := fun k hk => by rw [none] at hk; cases hk
    locals := fun l hl => by
      obtain ⟨n, hn, hlt, -⟩ := (h.locals l hl).1
      exact ⟨n, hn, hlt, fun k hk => by rw [none] at hk; cases hk⟩
    operands := fun l hl v hv => by
      rw [h.labels, List.mem_singleton] at hl
      subst hl
      cases hv
    hand := fun v hv => absurd hv (Set.notMem_empty v)
    owed := fun q hq => absurd hq List.not_mem_nil
    merges := fun l hl => by rw [none] at hl; cases hl }

end SpidirWasm.Jit
