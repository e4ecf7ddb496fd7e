import SpidirWasm.Jit.Numbering
import SpidirWasm.Jit.Link

/-! The maps of the capture from ids back to function indices. They hold the slots that were
prepared, each under its own id. -/

namespace SpidirWasm.Jit

open Checked
open Util (Hmap)

variable {num : JitFunction → Option ℕ} {fs : List JitFunction} {f : JitFunction} {t t' : Hmap} {i n id : ℕ} {c : JitContext}
  {maps maps' : DebugMaps}

/-- The map of the slots below `i` by their numbers. -/
structure SlotMap (num : JitFunction → Option ℕ) (fs : List JitFunction) (i : ℕ) (t : Hmap) : Prop where
  wf : t.Wf
  lookup : ∀ k j, t.lookup k = some j ↔ j < i ∧ ∃ f, fs[j]? = some f ∧ num f = some k

namespace SlotMap

theorem start : SlotMap num fs 0 {} := ⟨Hmap.empty_wf, fun k j => iff_of_false (by cases k <;> simp [Hmap.lookup, Hmap.findSlot]) (by omega)⟩

/-- A slot without a number. -/
theorem skip (h : SlotMap num fs i t) (hf : fs[i]? = some f) (hnum : num f = none) : SlotMap num fs (i + 1) t := by
  refine ⟨h.wf, fun k j => (h.lookup k j).trans ⟨fun ⟨hj, hk⟩ => ⟨by omega, hk⟩, fun ⟨hj, g, hg, hk⟩ => ⟨?_, g, hg, hk⟩⟩⟩
  by_contra hlt
  obtain rfl : j = i := by omega
  rw [Option.some.inj (hg.symm.trans hf), hnum] at hk
  cases hk

/-- A slot with a number of its own. -/
theorem insert (h : SlotMap num fs i t) (hcounted : Counted num n fs) (hf : fs[i]? = some f) (hnum : num f = some id)
    (hinsert : t.insert true id i = some t') : SlotMap num fs (i + 1) t' := by
  obtain ⟨wf, found⟩ := Hmap.insert_eq_some h.wf hinsert
  refine ⟨wf, fun k j => ?_⟩
  rw [found]
  split_ifs with hk
  · subst hk
    constructor
    · rintro he
      obtain rfl := Option.some.inj he
      exact ⟨Nat.lt_succ_self _, f, hf, hnum⟩
    · rintro ⟨-, g, hg, hg'⟩
      rw [hcounted.distinct i j f g k hf hg hnum hg']
  · rw [h.lookup]
    refine ⟨fun ⟨hj, hk'⟩ => ⟨by omega, hk'⟩, fun ⟨hj, g, hg, hk'⟩ => ⟨?_, g, hg, hk'⟩⟩
    by_contra hlt
    obtain rfl : j = i := by omega
    obtain rfl := Option.some.inj (hg.symm.trans hf)
    exact hk (Option.some.inj (hk'.symm.trans hnum))

end SlotMap

/-- The maps of the slots below `i`. -/
structure MapsOf (c : JitContext) (i : ℕ) (maps : DebugMaps) : Prop where
  func : SlotMap JitFunction.internalId c.functions i maps.funcToFuncidx
  external : SlotMap JitFunction.externalId c.functions i maps.externToFuncidx
  cfi : SlotMap JitFunction.thunkId c.functions i maps.cfiToFuncidx

/-- One slot. -/
theorem prepareDebugMap_maps (h : MapsOf c i maps) (hc : Numbered c) (hf : c.functions[i]? = some f) (hrun : prepareDebugMap maps i f = some maps') :
    MapsOf c (i + 1) maps' := by
  rw [prepareDebugMap] at hrun
  cases hinit : f.inited with
  | false =>
    simp only [hinit, Bool.not_false, if_true, Option.some.injEq] at hrun
    subst hrun
    have uncfi : f.hasCfi = false := Bool.eq_false_iff.mpr fun hcfi => by
      rw [hc.prepared i f hf hcfi] at hinit
      cases hinit
    obtain ⟨internal, external, thunk⟩ := ids_eq_none hinit uncfi
    exact ⟨h.func.skip hf internal, h.external.skip hf external, h.cfi.skip hf thunk⟩
  | true =>
    have thunk (maps₁ : DebugMaps) (hself : SlotMap JitFunction.internalId c.functions (i + 1) maps₁.funcToFuncidx ∧
        SlotMap JitFunction.externalId c.functions (i + 1) maps₁.externToFuncidx ∧ maps₁.cfiToFuncidx = maps.cfiToFuncidx)
        (hthunk : (if f.hasCfi then (maps₁.cfiToFuncidx.insert true f.cfiThunk i).map fun cfiToFuncidx => { maps₁ with cfiToFuncidx }
          else some maps₁) = some maps') : MapsOf c (i + 1) maps' := by
      obtain ⟨func, external, same⟩ := hself
      split_ifs at hthunk with hcfi
      · obtain ⟨t, ht, rfl⟩ := Option.map_eq_some_iff.mp hthunk
        exact ⟨func, external, h.cfi.insert hc.thunk hf (if_pos hcfi) (same ▸ ht)⟩
      · obtain rfl := Option.some.inj hthunk
        exact ⟨func, external, same ▸ h.cfi.skip hf (if_neg hcfi)⟩
    rw [hinit, Bool.not_true, if_neg Bool.false_ne_true] at hrun
    by_cases hext : f.spidir.external = true
    · rw [if_pos hext] at hrun
      obtain ⟨maps₁, hself, hthunk⟩ := Option.bind_eq_some_iff.mp hrun
      obtain ⟨t, ht, rfl⟩ := Option.map_eq_some_iff.mp hself
      exact thunk { maps with externToFuncidx := t }
        ⟨h.func.skip hf (if_neg (by simp [hext])), h.external.insert hc.external hf (if_pos ⟨hinit, hext⟩) ht, rfl⟩ hthunk
    · rw [if_neg hext] at hrun
      obtain ⟨maps₁, hself, hthunk⟩ := Option.bind_eq_some_iff.mp hrun
      obtain ⟨t, ht, rfl⟩ := Option.map_eq_some_iff.mp hself
      exact thunk { maps with funcToFuncidx := t } ⟨h.func.insert hc.internal hf (if_pos ⟨hinit, Bool.eq_false_iff.mpr hext⟩) ht,
        h.external.skip hf (if_neg (by simp [hext])), rfl⟩ hthunk

/-- The loop over the slots. -/
theorem prepareDebugMaps_maps {rest : List JitFunction} (h : MapsOf c i maps) (hc : Numbered c) (hrest : c.functions.drop i = rest)
    (hrun : prepareDebugMaps maps i rest = some maps') : MapsOf c c.functions.length maps' := by
  induction rest generalizing i maps with
  | nil =>
    obtain rfl := Option.some.inj hrun
    have past : c.functions.length ≤ i := List.drop_eq_nil_iff.mp hrest
    have cut {num : JitFunction → Option ℕ} {t : Hmap} (hmap : SlotMap num c.functions i t) : SlotMap num c.functions c.functions.length t :=
      ⟨hmap.wf, fun k j => (hmap.lookup k j).trans ⟨fun ⟨_, f, hf, hk⟩ => ⟨(List.getElem?_eq_some_iff.mp hf).1, f, hf, hk⟩,
        fun ⟨hj, hk⟩ => ⟨by omega, hk⟩⟩⟩
    exact ⟨cut h.func, cut h.external, cut h.cfi⟩
  | cons f rest ih =>
    obtain ⟨maps₁, hfirst, hrun⟩ := Option.bind_eq_some_iff.mp hrun
    obtain ⟨hf, later⟩ := of_drop_eq_cons hrest
    exact ih (prepareDebugMap_maps h hc hf hfirst) later hrun

/-- The maps of a context. -/
theorem prepareDebugMaps_lookup (hc : Numbered c) (hrun : jitCodegenPrepareDebugMaps c = some maps) (k j : ℕ) :
    (maps.funcToFuncidx.lookup k = some j ↔ ∃ f, c.functions[j]? = some f ∧ f.internalId = some k) ∧
    (maps.externToFuncidx.lookup k = some j ↔ ∃ f, c.functions[j]? = some f ∧ f.externalId = some k) ∧
    (maps.cfiToFuncidx.lookup k = some j ↔ ∃ f, c.functions[j]? = some f ∧ f.thunkId = some k) := by
  have h := prepareDebugMaps_maps (⟨.start, .start, .start⟩ : MapsOf c 0 {}) hc rfl hrun
  have inside {num : JitFunction → Option ℕ} {t : Hmap} (hmap : SlotMap num c.functions c.functions.length t) :
      t.lookup k = some j ↔ ∃ f, c.functions[j]? = some f ∧ num f = some k :=
    (hmap.lookup k j).trans ⟨fun h => h.2, fun ⟨f, hf, hk⟩ => ⟨(List.getElem?_eq_some_iff.mp hf).1, f, hf, hk⟩⟩
  exact ⟨inside h.func, inside h.external, inside h.cfi⟩

end SpidirWasm.Jit
