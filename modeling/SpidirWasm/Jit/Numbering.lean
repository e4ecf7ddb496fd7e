import SpidirWasm.Jit.EmitModule

/-! The ids that the emission gives out. Functions, thunks and external functions are counted up
from 0, so that no two slots have one id, and what is external is an import. -/

namespace SpidirWasm.Jit

open Checked
open Wasm (WasmModule FuncType Name)
open Relation (ReflTransGen)

variable {c c' : JitContext} {funcidx : ℕ} {num : JitFunction → Option ℕ} {fs : List JitFunction} {f g : JitFunction} {n : ℕ}

/-! ### Slots with numbers -/

/-- The numbers of slots are below the next one, and none is given twice. -/
structure Counted (num : JitFunction → Option ℕ) (n : ℕ) (fs : List JitFunction) : Prop where
  below : ∀ (i : ℕ) (f : JitFunction) (k : ℕ), fs[i]? = some f → num f = some k → k < n
  distinct : ∀ (i j : ℕ) (f g : JitFunction) (k : ℕ), fs[i]? = some f → fs[j]? = some g → num f = some k → num g = some k → i = j

/-- A slot behind a change is the changed one or an old one. -/
theorem slot_set {i : ℕ} {x : JitFunction} (hx : (fs.set funcidx g)[i]? = some x) : funcidx = i ∧ x = g ∨ fs[i]? = some x := by
  rw [List.getElem?_set] at hx
  split_ifs at hx with hi
  · exact .inl ⟨hi, (Option.some.inj hx).symm⟩
  · exact .inr hx

namespace Counted

/-- A slot that is changed, but not in its number. -/
theorem set_same (h : Counted num n fs) (hf : fs[funcidx]? = some f) (hnum : num g = num f) : Counted num n (fs.set funcidx g) := by
  have before : ∀ (i : ℕ) (x : JitFunction), (fs.set funcidx g)[i]? = some x → ∃ y, fs[i]? = some y ∧ num x = num y := by
    intro i x hx
    obtain ⟨rfl, rfl⟩ | hx := slot_set hx
    · exact ⟨f, hf, hnum⟩
    · exact ⟨x, hx, rfl⟩
  refine ⟨fun i x k hx hk => ?_, fun i j x y k hx hy hk hk' => ?_⟩
  · obtain ⟨x', hx', he⟩ := before i x hx
    exact h.below i x' k hx' (he ▸ hk)
  · obtain ⟨x', hx', he⟩ := before i x hx
    obtain ⟨y', hy', he'⟩ := before j y hy
    exact h.distinct i j x' y' k hx' hy' (he ▸ hk) (he' ▸ hk')

/-- A slot that gets the next number. -/
theorem set_next (h : Counted num n fs) (hnum : num g = some n) : Counted num (n + 1) (fs.set funcidx g) := by
  have before : ∀ (i : ℕ) (x : JitFunction) (k : ℕ), (fs.set funcidx g)[i]? = some x → num x = some k →
      funcidx = i ∧ k = n ∨ fs[i]? = some x ∧ k < n := by
    intro i x k hx hk
    obtain ⟨hi, rfl⟩ | hx := slot_set hx
    · exact .inl ⟨hi, Option.some.inj (hk.symm.trans hnum)⟩
    · exact .inr ⟨hx, h.below i x k hx hk⟩
  refine ⟨fun i x k hx hk => ?_, fun i j x y k hx hy hk hk' => ?_⟩
  · obtain ⟨-, rfl⟩ | ⟨-, hlt⟩ := before i x k hx hk <;> omega
  · obtain ⟨rfl, rfl⟩ | ⟨hx', hlt⟩ := before i x k hx hk
    · obtain ⟨rfl, -⟩ | ⟨-, hlt'⟩ := before j y _ hy hk'
      · rfl
      · exact absurd hlt' (Nat.lt_irrefl _)
    · obtain ⟨-, rfl⟩ | ⟨hy', -⟩ := before j y k hy hk'
      · exact absurd hlt (Nat.lt_irrefl _)
      · exact h.distinct i j x y k hx' hy' hk hk'

theorem mono {n' : ℕ} (h : Counted num n fs) (hn : n ≤ n') : Counted num n' fs :=
  ⟨fun i f k hf hk => Nat.lt_of_lt_of_le (h.below i f k hf hk) hn, h.distinct⟩

theorem start (hnum : num {} = none) (count : ℕ) : Counted num 0 (List.replicate count {}) := by
  have none : ∀ (i : ℕ) (f : JitFunction), (List.replicate count ({} : JitFunction))[i]? = some f → num f = none := by
    intro i f hf
    rw [List.getElem?_replicate] at hf
    split_ifs at hf
    obtain rfl := Option.some.inj hf
    exact hnum
  refine ⟨fun i f k hf hk => ?_, fun i j f g k hf _ hk _ => ?_⟩ <;> rw [none i f hf] at hk <;> cases hk

end Counted

/-! ### The ids of a context -/

/-- The id of a function that has a body. -/
def JitFunction.internalId (f : JitFunction) : Option ℕ := if f.inited = true ∧ f.spidir.external = false then some f.spidir.id else none

/-- The id of an import. -/
def JitFunction.externalId (f : JitFunction) : Option ℕ := if f.inited = true ∧ f.spidir.external = true then some f.spidir.id else none

/-- The id of a thunk. -/
def JitFunction.thunkId (f : JitFunction) : Option ℕ := if f.hasCfi then some f.cfiThunk else none

/-- The ids of a context: each is given once, thunks are those of prepared functions, and external functions are imports. -/
structure Numbered (c : JitContext) : Prop where
  internal : Counted JitFunction.internalId c.spidir.functions c.functions
  external : Counted JitFunction.externalId c.spidir.externFunctions c.functions
  thunk : Counted JitFunction.thunkId c.spidir.functions c.functions
  apart : ∀ (i j : ℕ) (f g : JitFunction) (k : ℕ), c.functions[i]? = some f → c.functions[j]? = some g →
    f.internalId = some k → g.thunkId ≠ some k
  prepared : ∀ (i : ℕ) (f : JitFunction), c.functions[i]? = some f → f.hasCfi = true → f.inited = true
  imported : ∀ (i : ℕ) (f : JitFunction), c.functions[i]? = some f → f.inited = true →
    if f.spidir.external = true then ∃ imp, c.module.imports[i]? = some imp ∧ imp.kind = .func else c.module.imports.length ≤ i

/-- Whether a function is prepared as an import. -/
theorem jitPrepareFunction_imported (h : jitPrepareFunction funcidx c = some ((), c')) (hf : c.functions[funcidx]? = some f)
    (hinit : f.inited = false) (hg : c'.functions[funcidx]? = some g) :
    if g.spidir.external = true then ∃ imp, c.module.imports[funcidx]? = some imp ∧ imp.kind = .func else c.module.imports.length ≤ funcidx := by
  simp only [jitPrepareFunction, read_bind, check_bind_eq_some, lift_bind_eq_some] at h
  obtain ⟨-, f', hf', h⟩ := h
  obtain rfl := Option.some.inj (hf.symm.trans hf')
  rw [hinit, if_neg Bool.false_ne_true] at h
  simp only [lift_bind_eq_some] at h
  obtain ⟨type, -, retType, -, args, -, h⟩ := h
  split_ifs at h with himport
  · simp only [lift_bind_eq_some, check_bind_eq_some, read_bind, createExternFunction_bind, update_eq_some, Prod.mk.injEq, true_and] at h
    obtain ⟨item, hitem, hkind, addr, -, rfl⟩ := h
    simp only [List.getElem?_modify_eq, hf, Option.map_eq_map, Option.map_some, Option.some.injEq] at hg
    subst hg
    exact ⟨item, hitem, hkind⟩
  · simp only [createFunction_bind, update_eq_some, Prod.mk.injEq, true_and] at h
    subst h
    simp only [List.getElem?_modify_eq, hf, Option.map_eq_map, Option.map_some, Option.some.injEq] at hg
    subst hg
    exact Nat.le_of_not_lt himport

/-- A slot without an id. -/
theorem ids_eq_none (hinit : f.inited = false) (hcfi : f.hasCfi = false) :
    f.internalId = none ∧ f.externalId = none ∧ f.thunkId = none := by
  simp [JitFunction.internalId, JitFunction.externalId, JitFunction.thunkId, hinit, hcfi]

/-- A preparation gives the next id of its kind. -/
theorem Numbered.prepare (h : Numbered c) (hp : jitPrepareFunction funcidx c = some ((), c')) : Numbered c' := by
  obtain ⟨f, hf, ⟨-, rfl⟩ | ⟨hinit, g, hginit, hcfi, hthunk, hfunctions, hmodule, -, -, hcase⟩⟩ := jitPrepareFunction_cases hp
  · exact h
  obtain ⟨hlt, -⟩ := List.getElem?_eq_some_iff.mp hf
  have kind := jitPrepareFunction_imported hp hf hinit (by rw [hfunctions, List.getElem?_set_self hlt])
  have unthunked : f.hasCfi = false := Bool.eq_false_iff.mpr fun hf' => by
    rw [h.prepared _ f hf hf'] at hinit
    cases hinit
  obtain ⟨nointernal, noexternal, nothunk⟩ := ids_eq_none hinit unthunked
  have thunk : g.thunkId = f.thunkId := by rw [JitFunction.thunkId, JitFunction.thunkId, hcfi, hthunk]
  have prepared : ∀ (i : ℕ) (x : JitFunction), c'.functions[i]? = some x → x.hasCfi = true → x.inited = true := by
    intro i x hx hxcfi
    obtain ⟨-, rfl⟩ | hx := slot_set (hfunctions ▸ hx)
    · exact hginit
    · exact h.prepared i x hx hxcfi
  have imported : ∀ (i : ℕ) (x : JitFunction), c'.functions[i]? = some x → x.inited = true →
      if x.spidir.external = true then ∃ imp, c'.module.imports[i]? = some imp ∧ imp.kind = .func else c'.module.imports.length ≤ i := by
    intro i x hx hxinit
    rw [hmodule]
    obtain ⟨rfl, rfl⟩ | hx := slot_set (hfunctions ▸ hx)
    · exact kind
    · exact h.imported i x hx hxinit
  have apart (hinternal : g.internalId = none ∨ g.internalId = some c.spidir.functions) : ∀ (i j : ℕ) (x y : JitFunction) (k : ℕ),
      c'.functions[i]? = some x → c'.functions[j]? = some y → x.internalId = some k → y.thunkId ≠ some k := by
    intro i j x y k hx hy hk hk'
    have old : c.functions[j]? = some y := by
      obtain ⟨-, rfl⟩ | hy := slot_set (hfunctions ▸ hy)
      · rw [thunk, nothunk] at hk'
        cases hk'
      · exact hy
    obtain ⟨-, rfl⟩ | hx := slot_set (hfunctions ▸ hx)
    · obtain hnone | hnext := hinternal
      · rw [hnone] at hk
        cases hk
      · have next := Option.some.inj (hnext.symm.trans hk)
        exact absurd (h.thunk.below j y k old hk') (by omega)
    · exact h.apart i j x y k hx old hk hk'
  obtain ⟨hext, hid, hspidir, -⟩ | ⟨hext, hid, hspidir, -⟩ := hcase
  · have internal : g.internalId = none := if_neg (by simp [hext])
    have external : g.externalId = some c.spidir.externFunctions := by rw [JitFunction.externalId, if_pos ⟨hginit, hext⟩, hid]
    refine ⟨?_, ?_, ?_, apart (.inl internal), prepared, imported⟩ <;> rw [hspidir, hfunctions]
    · exact h.internal.set_same hf (internal.trans nointernal.symm)
    · exact h.external.set_next external
    · exact h.thunk.set_same hf thunk
  · have internal : g.internalId = some c.spidir.functions := by rw [JitFunction.internalId, if_pos ⟨hginit, hext⟩, hid]
    have external : g.externalId = none := if_neg (by simp [hext])
    refine ⟨?_, ?_, ?_, apart (.inr internal), prepared, imported⟩ <;> rw [hspidir, hfunctions]
    · exact h.internal.set_next internal
    · exact h.external.set_same hf (external.trans noexternal.symm)
    · exact (h.thunk.set_same hf thunk).mono (Nat.le_succ _)

/-- A thunk gets the next id of a function. -/
theorem Numbered.create (h : Numbered c) (hf : c.functions[funcidx]? = some f) (hinit : f.inited = true) : Numbered { c with
    functions := c.functions.modify funcidx fun f => { f with hasCfi := true, cfiThunk := c.spidir.functions }
    spidir := { c.spidir with functions := c.spidir.functions + 1 } } := by
  set g : JitFunction := { f with hasCfi := true, cfiThunk := c.spidir.functions }
  have functions : c.functions.modify funcidx (fun f => { f with hasCfi := true, cfiThunk := c.spidir.functions }) =
      c.functions.set funcidx g := by rw [List.modify_eq_set, hf, Option.getD_some]
  have same : g.internalId = f.internalId := rfl
  rw [functions]
  refine ⟨(h.internal.set_same hf same).mono (Nat.le_succ _), h.external.set_same hf rfl, h.thunk.set_next rfl, fun i j x y k hx hy hk hk' => ?_,
    fun i x hx hcfi => ?_, fun i x hx hxinit => ?_⟩
  · have old : ∃ x', c.functions[i]? = some x' ∧ x'.internalId = some k := by
      obtain ⟨rfl, rfl⟩ | hx := slot_set hx
      · exact ⟨f, hf, hk⟩
      · exact ⟨x, hx, hk⟩
    obtain ⟨x', hx', hk''⟩ := old
    obtain ⟨-, rfl⟩ | hy := slot_set hy
    · have next : c.spidir.functions = k := Option.some.inj hk'
      exact absurd (h.internal.below i x' k hx' hk'') (by omega)
    · exact h.apart i j x' y k hx' hy hk'' hk'
  · obtain ⟨-, rfl⟩ | hx := slot_set hx
    · exact hinit
    · exact h.prepared i x hx hcfi
  · obtain ⟨rfl, rfl⟩ | hx := slot_set hx
    · exact h.imported _ f hf hinit
    · exact h.imported i x hx hxinit

/-- A change of the context gives no id twice. -/
theorem ContextChange.numbered (hchange : ContextChange c c') (h : Numbered c) : Numbered c' := by
  cases hchange with
  | context hs =>
    cases hs with
    | prepare hp => exact h.prepare hp
    | helper hh =>
      obtain ⟨-, ⟨-, rfl⟩ | ⟨-, -, -, rfl⟩⟩ := jitGetHelper_cases hh
      · exact h
      · exact ⟨h.internal, h.external.mono (Nat.le_succ _), h.thunk, h.apart, h.prepared, h.imported⟩
    | useTable tableidx => exact ⟨h.internal, h.external, h.thunk, h.apart, h.prepared, h.imported⟩
  | thunk hf hinit => exact h.create hf hinit
  | rest hmodule hfunctions _ hcreated hexterns _ =>
    refine ⟨?_, ?_, ?_, ?_, ?_, ?_⟩
    · rw [hcreated, hfunctions]
      exact h.internal
    · rw [hexterns, hfunctions]
      exact h.external
    · rw [hcreated, hfunctions]
      exact h.thunk
    · rw [hfunctions]
      exact h.apart
    · rw [hfunctions]
      exact h.prepared
    · rw [hmodule, hfunctions]
      exact h.imported

/-- Nothing has an id at the start. -/
theorem numbered_start {m : WasmModule} {resolveImport : Option Name → Option Name → FuncType → Option ℕ} {stateSize : ℕ}
    (h : jitPrepareState (startContext m resolveImport) = some (c, stateSize)) : Numbered c := by
  simp only [jitPrepareState, Option.bind_eq_bind, Option.pure_def, Option.bind_eq_some_iff, Option.some.injEq,
    Prod.mk.injEq] at h
  obtain ⟨⟨globals, stop⟩, -, rfl, -⟩ := h
  have empty : ∀ (i : ℕ) (f : JitFunction), (List.replicate m.totalFuncs ({} : JitFunction))[i]? = some f → f = {} := by
    intro i f hf
    rw [List.getElem?_replicate] at hf
    split_ifs at hf
    exact (Option.some.inj hf).symm
  refine ⟨.start rfl _, .start rfl _, .start rfl _, fun i j f g k hf _ hk _ => ?_, fun i f hf hcfi => ?_, fun i f hf hinit => ?_⟩
  · rw [empty i f hf] at hk
    cases hk
  · rw [empty i f hf] at hcfi
    cases hcfi
  · rw [empty i f hf] at hinit
    cases hinit

/-- The emission of a module gives no id twice. -/
theorem jitEmitSpidir_numbered {fuel : ℕ} {ids : List ℕ} (h : Numbered c) (hrun : jitEmitSpidir fuel c = some (ids, c')) : Numbered c' := by
  have changes := moduleRun_changes (jitEmitSpidir_run hrun)
  clear hrun
  induction changes with
  | refl => exact h
  | tail _ hchange ih => exact hchange.numbered ih

end SpidirWasm.Jit
