import Mathlib.Data.List.Nodup
import SpidirWasm.Jit.PhiInputs

/-! The inputs of the phis against the edges that were built. Every primitive step keeps
what a label has for the branches before the instruction, and what it adds is what the
instruction carries. -/

namespace SpidirWasm.Jit

open Checked
open Relation (ReflTransGen)
open Spidir (Builder Inst Term Value ValueType Block Item Edge)

/-- Block, loop or not, and type: what decides what branches to a label carry. -/
abbrev Kind := Block × Bool × ValueType

/-- What a branch to a label of a kind carries. -/
def carriedTo (kind : Kind) (locals : List JitValue) (v : Value) : List Value :=
  locals.map JitValue.value ++ if kind.2.2 ≠ .none ∧ kind.2.1 = false then [v] else []

variable {J : Branching} {w w' : Work} {s t : EmitState} {l p : JitLabel} {k : Block} {b : Builder} {base : Block → ℕ}
  {H H' : Kind → ℕ → List Value → Prop}

theorem carried_values (l : JitLabel) (locals : List JitValue) (v : Value) :
    (l.carried locals v).map JitValue.value = carriedTo l.kind locals v := by
  rw [JitLabel.carried, carriedTo]
  by_cases hm : l.mergeResult
  · rw [if_pos hm, if_pos (show l.kind.2.2 ≠ .none ∧ l.kind.2.1 = false from hm), List.map_append]
    rfl
  · rw [if_neg hm, if_neg (show ¬(l.kind.2.2 ≠ .none ∧ l.kind.2.1 = false) from hm), List.append_nil]

/-- The branches to a block, with those that are prepared for an edge still to be built. -/
def arrivals (w : Work) (s : EmitState) (k : Block) : ℕ := (s.builder.edgesInto k).length + w.due.count k

/-- A phi of a block with one input for each of `count` branches, each from what `H` says was carried. -/
def Fed (H : Kind → ℕ → List Value → Prop) (b : Builder) (count : ℕ) (k : Block) (q : ℕ) : Prop :=
  (b.inputs q).length = count ∧
    ∃ kind : Kind, kind.1 = k ∧ ∃ j : ℕ, ∀ n < count, ∃ vs, H kind n vs ∧ vs[j]? = some ((b.inputs q).getD n none)

/-- Every label is in line with the branches to it, of which there are at least as many as at the
start, and what it has for them is what `H` says. Its phis are those of its merges; the phis of
other blocks are done with. -/
structure Lined (H : Kind → ℕ → List Value → Prop) (base : Block → ℕ) (w : Work) (s : EmitState) : Prop where
  inLine : ∀ l ∈ s.scopes, l.InLine s.builder (arrivals w s l.block)
  grown : ∀ l ∈ s.scopes, base l.block ≤ arrivals w s l.block
  fresh : ∀ k, s.builder.nextBlock ≤ k → base k = 0
  rows : ∀ l ∈ s.scopes, ∀ n < arrivals w s l.block, H l.kind n (l.row s.builder n)
  owned : ∀ l ∈ s.scopes, ∀ q < s.builder.nextValue, (s.builder.node q).inst.isPhi = true → (s.builder.node q).block = some l.block →
    q ∈ phis l.merges
  closed : ∀ q < s.builder.nextValue, (s.builder.node q).inst.isPhi = true → ∀ k, (s.builder.node q).block = some k →
    k ∉ s.scopes.map JitLabel.block → Fed H s.builder (arrivals w s k) k q

namespace Lined

/-- An open label feeds its phis as well. -/
theorem fed (h : Lined H base w s) {q : ℕ} (hq : q < s.builder.nextValue) (hphi : (s.builder.node q).inst.isPhi = true)
    (hk : (s.builder.node q).block = some k) : Fed H s.builder (arrivals w s k) k q := by
  by_cases hmem : k ∈ s.scopes.map JitLabel.block
  · obtain ⟨l, hl, rfl⟩ := List.mem_map.mp hmem
    obtain ⟨m, hm, hmq⟩ := List.mem_filterMap.mp (h.owned l hl q hq hphi hk)
    obtain ⟨j, hj⟩ := List.mem_iff_getElem?.mp hm
    refine ⟨((h.inLine l hl).counts m hm).length q hmq, l.kind, rfl, j, fun n hn => ⟨_, h.rows l hl n hn, ?_⟩⟩
    rw [JitLabel.row, List.getElem?_map, hj, Option.map_some, Merge.at_some hmq]
  · exact h.closed q hq hphi k hk hmem

/-- Phis that are left alone, while nothing is decided about the branches. -/
theorem congr (h : Lined H base w s) (hs : Shaped w s) (hb : s.builder.Extends t.builder) (hsc : t.scopes ⊆ s.scopes)
    (hn : ∀ k, k ∉ w.owed.map Prod.fst → arrivals w' t k = arrivals w s k)
    (hold : ∀ q < s.builder.nextValue, t.builder.inputs q = s.builder.inputs q)
    (hnew : ∀ q, s.builder.nextValue ≤ q → q < t.builder.nextValue → (t.builder.node q).inst.isPhi = false) : Lined H base w' t := by
  have count : ∀ l ∈ t.scopes, arrivals w' t l.block = arrivals w s l.block := fun l hl => hn l.block fun ho =>
    (List.nodup_append.mp hs.blocks).2.2 _ ho _ (List.mem_map_of_mem (f := JitLabel.block) (hsc hl)) rfl
  have same : ∀ l ∈ t.scopes, ∀ q ∈ phis l.merges, t.builder.inputs q = s.builder.inputs q :=
    fun l hl q hq => hold q ((hs.merges l (hsc hl)).phis q hq).1
  have old : ∀ q < t.builder.nextValue, (t.builder.node q).inst.isPhi = true → q < s.builder.nextValue ∧
      (s.builder.node q).inst.isPhi = true ∧ (t.builder.node q).block = (s.builder.node q).block := by
    intro q hq hphi
    have hlt : q < s.builder.nextValue := by
      by_contra hge
      rw [hnew q (not_lt.mp hge) hq] at hphi
      cases hphi
    exact ⟨hlt, (hb.node q hlt).inst.isPhi.symm.trans hphi, (hb.node q hlt).block⟩
  exact {
    inLine := fun l hl => count l hl ▸ (h.inLine l (hsc hl)).mono hb (same l hl)
    grown := fun l hl => count l hl ▸ h.grown l (hsc hl)
    fresh := fun k hk => h.fresh k (hb.nextBlock.trans hk)
    rows := fun l hl n hn => JitLabel.row_congr (same l hl) ▸ h.rows l (hsc hl) n (count l hl ▸ hn)
    owned := fun l hl q hq hphi hk => by
      obtain ⟨hlt, hphi', hblock⟩ := old q hq hphi
      exact h.owned l (hsc hl) q hlt hphi' (hblock ▸ hk)
    closed := fun q hq hphi k hk _ => by
      obtain ⟨hlt, hphi', hblock⟩ := old q hq hphi
      rw [hblock] at hk
      rw [Fed, hold q hlt, hn k (hs.home q hlt k hk).2]
      exact h.fed hlt hphi' hk }

/-- A step that has nothing to do with the graph. -/
theorem same (h : Lined H base w s) (hs : Shaped w s) (hb : t.builder = s.builder) (hsc : t.scopes ⊆ s.scopes) (hd : w'.due = w.due) :
    Lined H base w' t :=
  h.congr hs (hb ▸ .refl _) hsc (fun k _ => by rw [arrivals, arrivals, hb, hd]) (fun _ _ => by rw [hb])
    fun q hge hlt => absurd (hb ▸ hlt) (not_lt.mpr hge)

theorem build (h : Lined H base w s) (hs : Shaped w s) {i : Inst} (hi : i.isPhi = false) (hand : Hand) :
    Lined H base { w with hand } (s.withBuilder (s.builder.build i)) := by
  refine h.congr hs (s.builder.extends_build i) (fun _ hl => hl) (fun k _ => by simp [arrivals, Builder.edgesInto])
    (fun q hq => Builder.inputs_build hq i) fun q hge hlt => ?_
  obtain rfl : q = s.builder.nextValue := by
    rw [EmitState.withBuilder_builder, Builder.build_nextValue] at hlt
    omega
  rw [EmitState.withBuilder_builder, Builder.build_node, Function.update_self]
  exact hi

/-- What is known may be weakened. -/
theorem mono (h : Lined H base w s) (hH : ∀ kind n vs, n < arrivals w s kind.1 → H kind n vs → H' kind n vs) : Lined H' base w s :=
  { h with
    rows := fun l hl n hn => hH _ n _ hn (h.rows l hl n hn)
    closed := fun q hq hphi k hk hmem => by
      obtain ⟨hlen, kind, rfl, j, hj⟩ := h.closed q hq hphi k hk hmem
      refine ⟨hlen, kind, rfl, j, fun n hn => ?_⟩
      obtain ⟨vs, hvs, hget⟩ := hj n hn
      exact ⟨vs, hH _ n _ hn hvs, hget⟩ }

end Lined

/-- Building edges settles what was prepared. -/
theorem Settles.count {owed : List (Block × Hand)} {due ds due' : List Block} (h : Settles owed due ds due')
    (hk : k ∉ owed.map Prod.fst) : ds.count k + due'.count k = due.count k := by
  induction h with
  | nil due => rw [List.count_nil, Nat.zero_add]
  | fresh hd _ ih =>
    rw [List.count_cons_of_ne, ih]
    rintro rfl
    exact hk (List.mem_map_of_mem (f := Prod.fst) hd)
  | label hd _ ih =>
    rw [hd.count_eq, List.count_cons, List.count_cons, ← ih]
    omega

/-- The edges of a terminator into a block are its targets that are this block. -/
theorem edgesInto_terminate {c : Block} (hc : b.cur = some c) (t : Term) :
    ((b.terminate t).edgesInto k).length = (b.edgesInto k).length + (t.targets.map Prod.snd).count k := by
  rw [Builder.edgesInto, Builder.terminate_edges b t hc, List.filter_append, List.length_append, ← Builder.edgesInto]
  congr 1
  induction t.targets with
  | nil => rfl
  | cons d ds ih =>
    rw [List.map_cons, List.filter_cons, List.map_cons, List.count_cons]
    by_cases hd : d.2 = k
    · simp [hd, ih]
    · simp [hd, ih]

theorem Lined.term {t : Term} {due : List Block} {mode : Mode} (h : Lined H base w s) (hs : Shaped w s)
    (hd : Settles w.owed w.due (t.targets.map Prod.snd) due) :
    Lined H base { w with due, mode } (s.withBuilder (s.builder.terminate t)) := by
  obtain ⟨c, hc, -⟩ := hs.cur
  have node : ∀ q, (s.withBuilder (s.builder.terminate t)).builder.node q = s.builder.node q := fun q => by
    rw [EmitState.withBuilder_builder, Builder.terminate_node]
  refine h.congr hs (Builder.extends_terminate _ t) (fun _ hl => hl) (fun k hk => ?_) (fun q _ => Builder.inputs_congr (node q))
    fun q hge hlt => absurd (by simpa using hlt) (not_lt.mpr hge)
  have settled := hd.count hk
  rw [arrivals, arrivals, EmitState.withBuilder_builder, edgesInto_terminate hc]
  dsimp only
  omega

/-- No edge goes to a block that is still to be created. -/
theorem arrivals_new (hs : Shaped w s) (hk : s.builder.nextBlock ≤ k) : arrivals w s k = 0 := by
  have none : s.builder.edgesInto k = [] :=
    List.filter_eq_nil_iff.mpr fun e he hdst => not_lt.mpr hk (of_decide_eq_true hdst ▸ (hs.edges e he).2)
  have free : k ∉ w.due := fun hd => not_lt.mpr hk (hs.bound k (List.mem_append_right _ (hs.due k hd))).2
  rw [arrivals, none, List.count_eq_zero_of_not_mem free]
  rfl

/-- The phis that are made are those of the merges. -/
theorem mergeLocals_covers {inputs : ℕ} {ls : List JitValue} {ms : List Merge} {b : Builder} :
    (∀ q ∈ phis ms, q ∈ phis (mergeLocals inputs ls ms b).1) ∧
      ∀ q, b.nextValue ≤ q → q < (mergeLocals inputs ls ms b).2.nextValue → q ∈ phis (mergeLocals inputs ls ms b).1 := by
  induction ls generalizing ms b with
  | nil => exact ⟨fun _ hq => hq, fun q hge hlt => absurd hlt (not_lt.mpr hge)⟩
  | cons l ls ih =>
    rcases ms with _ | ⟨m, ms⟩
    · exact ⟨fun _ hq => hq, fun q hge hlt => absurd hlt (not_lt.mpr hge)⟩
    obtain ⟨keeps, covers⟩ := ih (b := (mergeValue inputs l.type l.value m b).2)
    have cons : ∀ (a : Merge) (as : List Merge) (q : ℕ), q ∈ phis (a :: as) ↔ a.phi = some q ∨ q ∈ phis as := by
      intro a as q
      rw [phis, List.mem_filterMap, phis, List.mem_filterMap]
      simp
    -- the first merge keeps its phi, or gets the next value for one
    have head : (∀ q, m.phi = some q → (mergeValue inputs l.type l.value m b).1.phi = some q) ∧
        ∀ q, b.nextValue ≤ q → q < (mergeValue inputs l.type l.value m b).2.nextValue → (mergeValue inputs l.type l.value m b).1.phi = some q := by
      by_cases he : l.value = m.value
      · rw [mergeValue_eq he]
        exact ⟨fun _ hq => hq, fun q hge hlt => absurd hlt (not_lt.mpr hge)⟩
      rcases hphi : m.phi with _ | p
      · rw [mergeValue_new he hphi]
        refine ⟨fun q hq => absurd hq (Option.some_ne_none q).symm, fun q hge hlt => congrArg some ?_⟩
        rw [Builder.build_nextValue] at hlt
        omega
      · rw [mergeValue_input he hphi]
        exact ⟨fun q hq => hphi.trans hq, fun q hge hlt => absurd hlt (not_lt.mpr hge)⟩
    refine ⟨fun q hq => (cons _ _ q).mpr ?_, fun q hge hlt => (cons _ _ q).mpr ?_⟩
    · exact ((cons _ _ q).mp hq).imp (head.1 q) (keeps q)
    · rcases lt_or_ge q (mergeValue inputs l.type l.value m b).2.nextValue with hlt' | hge'
      · exact .inl (head.2 q hge hlt')
      · exact .inr (covers q hge' hlt)

theorem JitLabel.arrive_covers {l : JitLabel} {locals : List JitValue} {v : Value} (hm : Merges b locals.length l) :
    (∀ q ∈ phis l.merges, q ∈ phis (l.arrive locals v b).1.merges) ∧
      ∀ q, b.nextValue ≤ q → q < (l.arrive locals v b).2.nextValue → q ∈ phis (l.arrive locals v b).1.merges := by
  rcases hlocals : l.locals with _ | ms
  · obtain ⟨hb, -⟩ := arrive_none hlocals locals v b
    have none : l.merges = [] := by rw [JitLabel.merges, hlocals]
    rw [hb, none]
    exact ⟨fun q hq => absurd hq List.not_mem_nil, fun q hge hlt => absurd hlt (not_lt.mpr hge)⟩
  · obtain ⟨hb, hrow⟩ := arrive_some hlocals (hm.length ms hlocals).symm v b
    rw [hb, hrow]
    exact mergeLocals_covers

/-- What an instruction carries, behind the branches before it. -/
def CarriedSince (H : Kind → ℕ → List Value → Prop) (base : Block → ℕ) (J : Branching) : Prop :=
  ∀ kind n, base kind.1 ≤ n → H kind n (carriedTo kind J.locals J.operand)

theorem Lined.arrive {index : ℕ} {target : JitLabel} {v : Value} (h : Lined H base w s) (hs : Shaped w s) (hu : Untouched w s)
    (hH : CarriedSince H base J) (hl : s.func.labels[index]? = some target) (hi : index + 1 < s.func.labels.length)
    (hlocals : s.func.locals = J.locals) (hv : target.mergeResult → v = J.operand ∧ Apart s.builder (pending s.scopes) v) :
    Lined H base { w with due := target.block :: w.due } (s.arrive index target v) := by
  obtain ⟨pre, post, hpre, hpost⟩ := scopes_arrive (v := v) hl hi
  have mem : target.bare ∈ s.scopes := by simp [hpre]
  have merges := Merges.bare.mp (hs.merges target.bare mem)
  have inLine : target.InLine s.builder (arrivals w s target.block) := ⟨(h.inLine _ mem).counts, (h.inLine _ mem).inputs, (h.inLine _ mem).first⟩
  obtain ⟨only, -⟩ := arrive_phisOnly (b := s.builder) (v := v) (fun ms hms => (merges.length ms hms).symm)
    fun p hp => ⟨(merges.phis p hp).1, (merges.phis p hp).2.1⟩
  -- what is carried was there before, so it is no phi of the target
  have carried : ∀ a ∈ target.carried s.func.locals v, Apart s.builder (pending s.scopes) a.value := by
    intro a ha
    rw [JitLabel.carried] at ha
    split_ifs at ha with hm
    · rcases List.mem_append.mp ha with ha | ha
      · exact hu.locals a ha
      · obtain rfl := List.mem_singleton.mp ha
        exact (hv hm).2
    · exact hu.locals a ha
  have other : ∀ a ∈ target.carried s.func.locals v, ∀ m ∈ target.merges, m.phi ≠ none → a.value ≠ m.value := by
    intro a ha m hm hphi he
    obtain ⟨n, hn, -, hpend⟩ := carried a ha
    cases hloop : target.loop with
    | true =>
      obtain ⟨ms, hms, hall⟩ := merges.loop hloop
      have same : target.merges = ms := by
        rw [JitLabel.merges, hms]
        exact if_neg fun hr => by rw [hr.2] at hloop; cases hloop
      rw [(hall m (same ▸ hm)).1, hn] at he
      cases he
    | false =>
      obtain ⟨q, hq⟩ := Option.ne_none_iff_exists'.mp hphi
      have value := (hu.merges target.bare mem hloop m hm).phi q hq
      obtain rfl : n = q := Option.some.inj (hn.symm.trans (he.trans value))
      refine hpend target.block ?_ (merges.phis n (List.mem_filterMap.mpr ⟨m, hm, hq⟩)).2.1
      exact List.mem_map.mpr ⟨target.bare, List.mem_filter.mpr ⟨mem, by simp [JitLabel.bare, hloop]⟩, rfl⟩
  obtain ⟨grown, before, last, -⟩ := JitLabel.arrive_inLine merges inLine other
  obtain ⟨keeps, covers⟩ := JitLabel.arrive_covers (v := v) merges
  have count : ∀ k, arrivals { w with due := target.block :: w.due } (s.arrive index target v) k =
      arrivals w s k + if target.block = k then 1 else 0 := by
    intro k
    have edges : (s.arrive index target v).builder.edgesInto k = s.builder.edgesInto k := congrArg (List.filter _) only.edges
    rw [arrivals, arrivals, edges, List.count_cons]
    simp only [beq_iff_eq]
    omega
  -- the other labels have other blocks, and so other phis
  have blocks := (List.nodup_append.mp hs.blocks).2.1
  rw [hpre, List.map_append, List.map_cons] at blocks
  have differ : ∀ l, l ∈ pre ∨ l ∈ post → target.block ≠ l.block := by
    intro l hl he
    have nodup := List.nodup_middle.mp blocks
    rw [List.nodup_cons] at nodup
    refine nodup.1 (List.mem_append.mpr (hl.imp (fun hl => ?_) fun hl => ?_)) <;>
      exact List.mem_map.mpr ⟨l, hl, he.symm⟩
  have rest : ∀ l, l ∈ pre ∨ l ∈ post → l ∈ s.scopes := fun l hl => by
    rw [hpre]
    exact hl.elim (List.mem_append_left _) fun hl => List.mem_append_right _ (List.mem_cons_of_mem _ hl)
  have still : ∀ l, l ∈ pre ∨ l ∈ post → ∀ q ∈ phis l.merges, (s.arrive index target v).builder.inputs q = s.builder.inputs q := by
    intro l hl q hq
    obtain ⟨hlt, hblock, -⟩ := (hs.merges l (rest l hl)).phis q hq
    exact Builder.inputs_congr (only.old q hlt fun he => differ l hl (Option.some.inj (he.symm.trans hblock)))
  have cases : ∀ l ∈ (s.arrive index target v).scopes,
      l = (target.arrive s.func.locals v s.builder).1.bare ∨ (l ∈ pre ∨ l ∈ post) := by
    intro l hl
    rw [hpost] at hl
    rcases List.mem_append.mp hl with hl | hl
    · exact .inr (.inl hl)
    · exact (List.mem_cons.mp hl).imp_right .inr
  have block : (target.arrive s.func.locals v s.builder).1.bare.block = target.block := arrive_block ..
  have kind : (target.arrive s.func.locals v s.builder).1.bare.kind = target.kind := by simp [JitLabel.kind, JitLabel.bare]
  -- a phi of another block is an old one
  have old : ∀ q < (s.arrive index target v).builder.nextValue, ((s.arrive index target v).builder.node q).inst.isPhi = true →
      ∀ k, ((s.arrive index target v).builder.node q).block = some k → k = target.block ∧ s.builder.nextValue ≤ q ∨
        q < s.builder.nextValue ∧ (s.builder.node q).inst.isPhi = true ∧ (s.builder.node q).block = some k := by
    intro q hq hphi k hk
    rcases lt_or_ge q s.builder.nextValue with hlt | hge
    · have grows := only.ext.node q hlt
      exact .inr ⟨hlt, grows.inst.isPhi.symm.trans hphi, grows.block.symm.trans hk⟩
    · exact .inl ⟨Option.some.inj (hk.symm.trans (only.new q hge hq).2), hge⟩
  exact {
    inLine := fun l hl => by
      rw [count]
      rcases cases l hl with rfl | hl
      · rw [block, if_pos rfl]
        exact ⟨grown.counts, grown.inputs, grown.first⟩
      · rw [if_neg (differ l hl), Nat.add_zero]
        exact (h.inLine l (rest l hl)).mono only.ext (still l hl)
    grown := fun l hl => by
      rw [count]
      rcases cases l hl with rfl | hl
      · rw [block]
        exact (h.grown _ mem).trans (Nat.le_add_right _ _)
      · exact (h.grown l (rest l hl)).trans (Nat.le_add_right _ _)
    fresh := fun k hk => h.fresh k (only.ext.nextBlock.trans hk)
    rows := fun l hl n hn => by
      rw [count] at hn
      rcases cases l hl with rfl | hl
      · rw [block, if_pos rfl] at hn
        rw [kind]
        rcases Nat.lt_succ_iff_lt_or_eq.mp hn with hn | rfl
        · exact (before n hn).symm ▸ h.rows _ mem n hn
        · have carriedLast : (target.carried s.func.locals v).map JitValue.value = carriedTo target.kind J.locals J.operand := by
            rw [hlocals, ← carried_values]
            rw [JitLabel.carried, JitLabel.carried]
            by_cases hm : target.mergeResult
            · rw [if_pos hm, if_pos hm, (hv hm).1]
            · rw [if_neg hm, if_neg hm]
          exact (last.trans carriedLast).symm ▸ hH target.kind _ (h.grown target.bare mem)
      · rw [if_neg (differ l hl), Nat.add_zero] at hn
        exact (JitLabel.row_congr (still l hl)).symm ▸ h.rows l (rest l hl) n hn
    owned := fun l hl q hq hphi hk => by
      rcases cases l hl with rfl | hl
      · rw [block] at hk
        rcases old q hq hphi _ hk with ⟨-, hge⟩ | ⟨hlt, hphi', hk'⟩
        · exact covers q hge hq
        · exact keeps q (h.owned _ mem q hlt hphi' hk')
      · rcases old q hq hphi _ hk with ⟨he, -⟩ | ⟨hlt, hphi', hk'⟩
        · exact absurd he.symm (differ l hl)
        · exact h.owned l (rest l hl) q hlt hphi' hk'
    closed := fun q hq hphi k hk hmem => by
      have apart : k ≠ target.block := by
        rintro rfl
        refine hmem (List.mem_map.mpr ⟨(target.arrive s.func.locals v s.builder).1.bare, ?_, block⟩)
        rw [hpost]
        exact List.mem_append_right _ List.mem_cons_self
      rcases old q hq hphi k hk with ⟨he, -⟩ | ⟨hlt, hphi', hk'⟩
      · exact absurd he apart
      · have inputs : (s.arrive index target v).builder.inputs q = s.builder.inputs q :=
          Builder.inputs_congr (only.old q hlt fun he => apart (Option.some.inj (hk'.symm.trans he)))
        rw [Fed, inputs, count, if_neg apart.symm, Nat.add_zero]
        exact h.fed hlt hphi' hk' }

/-- No branch has reached a block that was just opened. -/
theorem Lined.openBlock {type : ValueType} (h : Lined H base w s) (hs : Shaped w s) (hl : s.func.labels ≠ []) :
    Lined H base w (s.enterBlock type) := by
  have scopes : (s.enterBlock type).scopes = ({ block := s.builder.nextBlock, resultType := type } : JitLabel).bare :: s.scopes :=
    scopes_push (s := s) hl _
  have zero : arrivals w s s.builder.nextBlock = 0 := arrivals_new hs le_rfl
  have old : Lined H base w (s.withBuilder s.builder.createBlock) :=
    h.congr hs (Builder.extends_createBlock _) (fun _ hl => hl) (fun _ _ => rfl) (fun _ _ => rfl)
      fun q hge hlt => absurd hlt (not_lt.mpr hge)
  exact {
    inLine := fun l hl => by
      rcases List.mem_cons.mp (scopes ▸ hl) with rfl | hl
      · exact ⟨fun m hm => absurd hm List.not_mem_nil, fun _ => zero.symm, fun _ => zero⟩
      · exact old.inLine l hl
    grown := fun l hl => by
      rcases List.mem_cons.mp (scopes ▸ hl) with rfl | hl
      · exact (h.fresh _ le_rfl).trans_le (Nat.zero_le _)
      · exact old.grown l hl
    fresh := old.fresh
    rows := fun l hl n hn => by
      rcases List.mem_cons.mp (scopes ▸ hl) with rfl | hl
      · exact absurd (zero ▸ hn : n < 0) (Nat.not_lt_zero n)
      · exact old.rows l hl n hn
    owned := fun l hl q hq hphi hk => by
      rcases List.mem_cons.mp (scopes ▸ hl) with rfl | hl
      · exact absurd (hs.home q hq _ hk).1 (lt_irrefl _)
      · exact old.owned l hl q hq hphi hk
    closed := fun q hq hphi k hk hmem => by
      refine old.closed q hq hphi k hk fun hmem' => hmem ?_
      rw [scopes]
      exact List.mem_cons_of_mem _ hmem' }

/-- The branch into a loop that was just opened carried the locals. -/
theorem Lined.loop {type : ValueType} (h : Lined H base w s) (hs : Shaped w s) (hH : CarriedSince H base J) (hl : s.func.labels ≠ [])
    (hlocals : s.func.locals = J.locals) : Lined H base { w with hand := ∅ } (s.enterLoop type) := by
  set b := (s.builder.createBlock.terminate (.branch s.builder.nextBlock)).setBlock s.builder.nextBlock with hb
  obtain ⟨c, hc, -⟩ := hs.cur
  have start : s.builder.Extends b :=
    ((Builder.extends_createBlock _).trans (Builder.extends_terminate _ _)).trans (Builder.extends_setBlock _ _)
  obtain ⟨only, -⟩ := loopPhis_phisOnly s.func.locals (k := s.builder.nextBlock) (b := b) rfl
  obtain ⟨counts, first, kept⟩ := loopPhis_inLine s.func.locals b
  have values : b.nextValue = s.builder.nextValue := by simp [hb]
  have grows : s.builder.Extends (s.enterLoop type).builder := start.trans only.ext
  set inner : JitLabel := { block := s.builder.nextBlock, loop := true, resultType := type, locals := some (loopPhis s.func.locals b).2.1 }
  have merges : inner.bare.merges = (loopPhis s.func.locals b).2.1 := if_neg fun hm => Bool.noConfusion hm.2
  have scopes : (s.enterLoop type).scopes = inner.bare :: s.scopes := scopes_push (s := s) hl _
  have edges : ∀ k, arrivals { w with hand := ∅ } (s.enterLoop type) k = arrivals w s k + if s.builder.nextBlock = k then 1 else 0 := by
    intro k
    have built : ((s.enterLoop type).builder.edgesInto k).length = (s.builder.edgesInto k).length + [s.builder.nextBlock].count k := by
      have same : (s.enterLoop type).builder.edgesInto k = (s.builder.createBlock.terminate (.branch s.builder.nextBlock)).edgesInto k :=
        congrArg (List.filter _) only.edges
      rw [same, edgesInto_terminate (b := s.builder.createBlock) (c := c) hc]
      rfl
    rw [arrivals, arrivals, built, List.count_singleton]
    simp only [beq_iff_eq]
    omega
  have zero : arrivals w s s.builder.nextBlock = 0 := arrivals_new hs le_rfl
  have one : arrivals { w with hand := ∅ } (s.enterLoop type) s.builder.nextBlock = 1 := by rw [edges, zero, if_pos rfl]
  have others : ∀ l ∈ s.scopes, s.builder.nextBlock ≠ l.block := fun l hl he =>
    lt_irrefl _ (he ▸ (hs.bound l.block (List.mem_append_right _ (List.mem_map_of_mem (f := JitLabel.block) hl))).2)
  have old : ∀ q < s.builder.nextValue, (s.enterLoop type).builder.node q = s.builder.node q := fun q hq =>
    (kept q (hq.trans_le start.nextValue)).trans (by simp [hb])
  have still : ∀ l ∈ s.scopes, ∀ q ∈ phis l.merges, (s.enterLoop type).builder.inputs q = s.builder.inputs q :=
    fun l hl q hq => Builder.inputs_congr (old q ((hs.merges l hl).phis q hq).1)
  -- what was built is a phi of the loop
  have made : ∀ q < (s.enterLoop type).builder.nextValue, ∀ k, ((s.enterLoop type).builder.node q).block = some k →
      k ≠ s.builder.nextBlock → q < s.builder.nextValue := by
    intro q hq k hk hne
    by_contra hge
    exact hne (Option.some.inj (hk.symm.trans (only.new q (values ▸ not_lt.mp hge) hq).2))
  exact {
    inLine := fun l hl => by
      rcases List.mem_cons.mp (scopes ▸ hl) with rfl | hl
      · exact ⟨fun m hm => one.symm ▸ counts m (merges ▸ hm), fun hloop => Bool.noConfusion hloop, fun hnone => absurd hnone (Option.some_ne_none _)⟩
      · rw [edges, if_neg (others l hl), Nat.add_zero]
        exact (h.inLine l hl).mono grows (still l hl)
    grown := fun l hl => by
      rcases List.mem_cons.mp (scopes ▸ hl) with rfl | hl
      · exact (h.fresh _ le_rfl).trans_le (Nat.zero_le _)
      · rw [edges]
        exact (h.grown l hl).trans (Nat.le_add_right _ _)
    fresh := fun k hk => h.fresh k (grows.nextBlock.trans hk)
    rows := fun l hl n hn => by
      rcases List.mem_cons.mp (scopes ▸ hl) with rfl | hl
      · obtain rfl : n = 0 := Nat.lt_one_iff.mp (one ▸ hn)
        have carried : inner.bare.row (s.enterLoop type).builder 0 = carriedTo inner.bare.kind J.locals J.operand := by
          rw [JitLabel.row, merges, carriedTo, if_neg fun hm => Bool.noConfusion hm.2, List.append_nil, ← hlocals]
          exact first
        exact carried.symm ▸ hH _ 0 (h.fresh _ le_rfl).le
      · rw [edges, if_neg (others l hl), Nat.add_zero] at hn
        exact (JitLabel.row_congr (still l hl)).symm ▸ h.rows l hl n hn
    owned := fun l hl q hq hphi hk => by
      rcases List.mem_cons.mp (scopes ▸ hl) with rfl | hl
      · obtain ⟨-, -, -, range, next⟩ := loopPhis_merges s.func.locals b
        rw [merges, range, List.mem_range'_1]
        refine ⟨?_, next ▸ hq⟩
        by_contra hlt
        rw [values, not_le] at hlt
        rw [old q hlt] at hk
        exact lt_irrefl _ (hs.home q hlt _ hk).1
      · have hlt := made q hq _ hk (others l hl).symm
        rw [old q hlt] at hphi hk
        exact h.owned l hl q hlt hphi hk
    closed := fun q hq hphi k hk hmem => by
      rw [scopes, List.map_cons, List.mem_cons, not_or] at hmem
      have hlt := made q hq k hk hmem.1
      rw [old q hlt] at hphi hk
      have differ : s.builder.nextBlock ≠ k := Ne.symm hmem.1
      rw [Fed, Builder.inputs_congr (old q hlt), edges, if_neg differ, Nat.add_zero]
      exact h.closed q hlt hphi k hk hmem.2 }

/-- Every primitive step of an instruction that agrees with its targets on carrying a value keeps it. -/
theorem Prim.lined (h : Prim J w s w' t) (hJ : J.uniform) (hs : Shaped w s) (hu : Untouched w s) (hH : CarriedSince H base J)
    (he : Lined H base w s) : Lined H base w' t := by
  cases h with
  | forget | abandon | context | peek | getLocal | setLocal => exact he.same hs rfl (fun _ hl => hl) rfl
  | @pop l _ _ _ _ hl | @push l _ _ _ _ hl | @discard l _ _ hl | @mark l _ _ hl | @skip l _ _ hl =>
    exact he.same hs rfl (by rw [scopes_withLabels hl (by rfl)]; exact fun _ hl => hl) rfl
  | node _ hi | effect _ hi => exact he.build hs (by cases hi <;> rfl) _
  | block =>
    exact he.congr hs (Builder.extends_createBlock _) (fun _ hl => hl) (fun _ _ => rfl) (fun _ _ => rfl)
      fun q hge hlt => absurd hlt (not_lt.mpr hge)
  | @enter k =>
    exact he.congr hs (Builder.extends_setBlock _ k) (fun _ hl => hl) (fun _ _ => rfl) (fun _ _ => rfl)
      fun q hge hlt => absurd hlt (not_lt.mpr hge)
  | term _ _ hd => exact he.term hs hd
  | arrive _ hl hi hlocals hv =>
    refine he.arrive hs hu hH hl hi hlocals fun hm => ?_
    obtain ⟨hop, ty, hty⟩ := (hv hm).1 hJ
    exact ⟨hop, hu.hand _ hty⟩
  | openBlock _ _ hl => exact he.openBlock hs hl
  | loop _ _ _ hl hlocals => exact he.loop hs hH hl hlocals
  | @join l _ _ _ _ _ _ hl | @deadJoin l _ _ _ _ _ hl =>
    refine he.congr hs (Builder.extends_setBlock _ l.block) ?_ (fun _ _ => rfl) (fun _ _ => rfl)
      fun q hge hlt => absurd hlt (not_lt.mpr hge)
    rw [scopes_cons hl]
    exact List.subset_cons_self _ _
  | endLoop _ _ _ hl =>
    refine he.same hs rfl ?_ rfl
    rw [scopes_cons hl]
    exact List.subset_cons_self _ _
  | leave => exact he.same hs rfl (List.nil_subset _) rfl

/-! ### Whole bodies -/

variable {ctx : JitContext} {funcidx : ℕ}

/-- Seen from here, everything so far is the past. -/
theorem Lined.rebase (h : Lined H base w s) (hs : Shaped w s) : Lined H (arrivals w s) w s :=
  { h with
    grown := fun _ _ => le_rfl
    fresh := fun _ hk => arrivals_new hs hk }

/-- Every live `br_table` of a body agrees with its targets on carrying a value. -/
def AgreesOnArity (ctx : JitContext) (funcidx : ℕ) : Prop := EachLive (fun i s => i.Uniform s) ctx funcidx

theorem Instr.Uniform.branching {i : Instr} (hlive : s.live = true → i.Uniform s) (hdead : s.live = false → i = .data ∨ i = .fin) :
    (i.branching s).uniform := by
  show i.Uniform s
  rcases hl : s.live with _ | _
  · rcases hdead hl with rfl | rfl <;> trivial
  · exact hlive hl

theorem Reached.untouched {s : JitState} (hctx : ctx.Ok) (hagree : AgreesOnArity ctx funcidx) (h : Reached ctx funcidx s) :
    Untouched s.idle s.toEmitState :=
  hagree.keeps hctx (fun _ _ _ _ _ _ _ _ hs => hs.untouched)
    (fun _ _ hlive hdead _ _ _ _ step hs hu => step.untouched (.branching hlive hdead) hs hu) h

/-- The branch `n` to a block was built by an instruction before `s`, and this is what it carried. -/
def CarriedAt (ctx : JitContext) (funcidx : ℕ) (s : JitState) (kind : Kind) (n : ℕ) (vs : List Value) : Prop :=
  ∃ u v i, Reached ctx funcidx u ∧ Proceeds u v ∧ ReflTransGen Proceeds v s ∧ (u.live = true → ∃ code, fetch u.code = some (i, code)) ∧
    (u.builder.edgesInto kind.1).length ≤ n ∧ n < (v.builder.edgesInto kind.1).length ∧
    vs = carriedTo kind u.func.locals (i.operand u.toEmitState)

/-- One opcode, for anything that is known of what was carried before it and of what it carries. -/
theorem Reached.lined_proceed {s t : JitState} (hctx : ctx.Ok) (hagree : AgreesOnArity ctx funcidx) (h : Reached ctx funcidx s)
    (hst : Proceeds s t) : ∃ i, (s.live = true → ∃ code, fetch s.code = some (i, code)) ∧
      ∀ H, CarriedSince H (arrivals s.idle s.toEmitState) (i.branching s.toEmitState) → Lined H (arrivals s.idle s.toEmitState) s.idle s.toEmitState →
        Lined H (arrivals s.idle s.toEmitState) t.idle t.toEmitState := by
  obtain ⟨i, -, hlive, hdead, steps⟩ := h.prims hctx hst
  have uniform := Instr.Uniform.branching (i := i) (fun hl => by
    obtain ⟨code, hcode⟩ := hlive hl
    exact hagree s h hst.1 hl i code hcode) hdead
  refine ⟨i, hlive, fun H hH hl => ?_⟩
  exact (steps.keeps (I := fun w t => Shaped w t ∧ Untouched w t ∧ Lined H (arrivals s.idle s.toEmitState) w t)
    (fun step ⟨hs, hu, hl⟩ => ⟨step.shaped hs, step.untouched uniform hs hu, step.lined uniform hs hu hH hl⟩)
    ⟨h.shaped hctx, h.untouched hctx hagree, hl⟩).2.2

/-- Between two opcodes of such a body every phi is fed by the instructions that built the edges into its block. -/
theorem Reached.lined {s : JitState} (hctx : ctx.Ok) (hagree : AgreesOnArity ctx funcidx) (h : Reached ctx funcidx s) :
    Lined (CarriedAt ctx funcidx s) (arrivals s.idle s.toEmitState) s.idle s.toEmitState := by
  induction h with
  | @enter type code params s hf hp h =>
    obtain ⟨ret, hret⟩ := jitEnterFunction_retType h
    have entered := jitEnterFunction_entered hp hret h
    have none : s.scopes = [] := by simp [EmitState.scopes, entered.labels]
    have noPhi : ∀ q < s.builder.nextValue, (s.builder.node q).inst.isPhi ≠ true := fun q hq hphi => by
      have floating := (entered.nodes q hq).2.1
      rw [Inst.isFloating_of_isPhi hphi] at floating
      cases floating
    have reached : Reached ctx funcidx s := .enter hf hp h
    exact {
      inLine := fun l hl => by rw [none] at hl; cases hl
      grown := fun _ _ => le_rfl
      fresh := fun k hk => arrivals_new (reached.shaped hctx) hk
      rows := fun l hl => by rw [none] at hl; cases hl
      owned := fun l hl => by rw [none] at hl; cases hl
      closed := fun q hq hphi => absurd hphi (noPhi q hq) }
  | @step s t hs hcode hlabels _ h ih =>
    have hst : Proceeds s t := ⟨hcode, hlabels, h⟩
    have now : ∀ k, arrivals s.idle s.toEmitState k = (s.builder.edgesInto k).length := fun _ => rfl
    obtain ⟨i, hlive, lined⟩ := Reached.lined_proceed hctx hagree hs hst
    have done := lined (fun kind n vs => CarriedAt ctx funcidx s kind n vs ∨
        (s.builder.edgesInto kind.1).length ≤ n ∧ vs = carriedTo kind s.func.locals (i.operand s.toEmitState))
      (fun kind n hn => .inr ⟨hn, rfl⟩) (ih.mono fun _ _ _ _ hvs => .inl hvs)
    refine (done.mono fun kind n vs hn hvs => ?_).rebase ((Reached.proceed hs hst).shaped hctx)
    rcases hvs with ⟨u, v, j, hu, huv, hrun, hj, hge, hlt, rfl⟩ | ⟨hge, rfl⟩
    · exact ⟨u, v, j, hu, huv, hrun.tail hst, hj, hge, hlt, rfl⟩
    · exact ⟨s, t, i, hs, hst, .refl, hlive, hge, hn, rfl⟩

/-- In the graph of a body whose live `br_table` agree with their targets on carrying a value, every phi has one input for
each edge into its block, and the input at a place is what one and the same local, or the operand that is carried, was
where the instruction stands that built the edge at this place. -/
theorem Translation.phis (T : Translation) (h : AgreesOnArity T.ctx T.funcidx) {q : ℕ} (hq : q < T.graph.nextValue)
    (hphi : (T.graph.node q).inst.isPhi = true) :
    ∃ k, (T.graph.node q).block = some k ∧ (T.graph.inputs q).length = (T.graph.edgesInto k).length ∧
      ∃ j : ℕ, ∀ n < (T.graph.edgesInto k).length, ∃ s t i, Reached T.ctx T.funcidx s ∧ Proceeds s t ∧
        (s.live = true → ∃ code, fetch s.code = some (i, code)) ∧
        (s.builder.edgesInto k).length ≤ n ∧ n < (t.builder.edgesInto k).length ∧
        (s.func.locals.map JitValue.value ++ [i.operand s.toEmitState])[j]? = some ((T.graph.inputs q).getD n none) := by
  obtain ⟨s, hs, hlabels, -, hgraph, -⟩ := T.last
  rw [← hgraph] at hq hphi ⊢
  obtain hfloat | ⟨k, hk, -⟩ := (hs.shaped T.ok).stands q hq
  · rw [Inst.isFloating_of_isPhi hphi] at hfloat
    cases hfloat
  have count : arrivals s.idle s.toEmitState k = (s.builder.edgesInto k).length := rfl
  obtain ⟨hlen, kind, rfl, j, hj⟩ := (hs.lined T.ok h).fed hq hphi hk
  refine ⟨kind.1, hk, hlen.trans count, j, fun n hn => ?_⟩
  obtain ⟨_, ⟨u, v, i, hu, huv, -, hi, hge, hlt, rfl⟩, hget⟩ := hj n (count ▸ hn)
  refine ⟨u, v, i, hu, huv, hi, hge, hlt, ?_⟩
  have front : carriedTo kind u.func.locals (i.operand u.toEmitState) <+: u.func.locals.map JitValue.value ++ [i.operand u.toEmitState] := by
    rw [carriedTo]
    split_ifs
    · exact List.prefix_rfl
    · rw [List.append_nil]
      exact List.prefix_append _ _
  obtain ⟨more, hmore⟩ := front
  rw [← hmore, List.getElem?_append_left (List.getElem?_eq_some_iff.mp hget).1]
  exact hget

instance (s : EmitState) (i : Instr) : Decidable (i.Uniform s) :=
  match i with
  | .brTable table default => inferInstanceAs (Decidable (∀ i ∈ table, s.targetType i = .none ↔ s.targetType default = .none))
  | .data | .unreachable | .block _ | .loop _ | .br _ | .brIf _ | .ret | .fin => .isTrue trivial

/-- The result of the block is a phi of the parameter and the constant. -/
theorem Translation.phis_blockResult : ∃ j : ℕ, ∀ n < 2, ∃ s t, ∃ i : Instr, Reached Jit.blockResult 0 s ∧ Proceeds s t ∧
    (s.func.locals.map JitValue.value ++ [i.operand s.toEmitState])[j]? = some (([some 0, some 1] : List Value).getD n none) := by
  obtain ⟨k, hk, -, j, hj⟩ := Translation.blockResult.phis (.of_replay (by decide +kernel)) (q := 2) (by decide +kernel) (by decide +kernel)
  have block : (Translation.blockResult.graph.node 2).block = some 1 := by decide +kernel
  obtain rfl : k = 1 := Option.some.inj (hk.symm.trans block)
  have edges : (Translation.blockResult.graph.edgesInto 1).length = 2 := by decide +kernel
  have inputs : Translation.blockResult.graph.inputs 2 = [some 0, some 1] := by decide +kernel
  refine ⟨j, fun n hn => ?_⟩
  obtain ⟨s, t, i, hs, hst, -, -, -, hget⟩ := hj n (edges ▸ hn)
  exact ⟨s, t, i, hs, hst, inputs ▸ hget⟩

end SpidirWasm.Jit
