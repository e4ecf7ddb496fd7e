import SpidirWasm.Jit.Codegen

/-! The layout of the constant pools. The size of the constants so far is added to its own
rounding instead of being replaced by it, so every pool but the first starts behind a gap as
large as everything in front of it. -/

namespace SpidirWasm.Jit

open Checked

variable {emitter : Emitter} {cg cg' : Codegen} {function : ℕ} {ids : List ℕ}

/-- The pool of a function, when it has one: where it was put, and its size. -/
def FunctionCodegen.pool (f : FunctionCodegen) : Option (ℕ × ℕ) :=
  if f.blob.constpool.length ≠ 0 then some (f.constpoolOffset, f.blob.constpool.length) else none

/-- Pool sizes, each with its alignment less one. -/
def Codegen.allowance (cg : Codegen) : ℕ :=
  (cg.functions.map fun f => f.blob.constpool.length + f.blob.constpoolAlign - 1).sum

/-- The layout of the pools emitted so far is right. -/
structure PoolsOk (cg : Codegen) : Prop where
  aligned : ∀ f ∈ cg.functions, ∀ p ∈ f.pool, f.blob.constpoolAlign ∣ p.1
  inside : ∀ f ∈ cg.functions, ∀ p ∈ f.pool, p.1 + p.2 ≤ cg.rodataSize
  disjoint : cg.functions.Pairwise fun f g => ∀ p ∈ f.pool, ∀ q ∈ g.pool, p.1 + p.2 ≤ q.1 ∨ q.1 + q.2 ≤ p.1
  small : cg.rodataSize ≤ cg.allowance

/-- A call leaves a right layout, and records the pool where it was put. -/
def PoolsKept (emitter : Emitter) (cg : Codegen) (function : ℕ) (cg' : Codegen) : Prop :=
  PoolsOk cg' ∧ (jitCodegenVisitedFunction cg function = false → ∀ blob, emitter function = some blob → blob.constpool.length ≠ 0 →
    ∀ f ∈ cg'.functions.getLast?, f.constpoolOffset = (placePool cg.rodataSize blob).1)

/-- The size of the constants before a call is a multiple of the alignment, its double is a
32-bit number, and as much of the alignment allowance is left as the size is added once more. -/
def PoolFits (emitter : Emitter) (cg : Codegen) (function : ℕ) : Prop :=
  jitCodegenVisitedFunction cg function = false → ∀ blob, emitter function = some blob → blob.constpool.length ≠ 0 →
    blob.constpoolAlign ∣ cg.rodataSize ∧ 2 * cg.rodataSize < 2 ^ 32 ∧ 2 * cg.rodataSize + blob.constpool.length < 2 ^ 64 ∧
      2 * cg.rodataSize + 1 ≤ cg.allowance + blob.constpoolAlign

/-- A run of calls, each of them with a property. -/
inductive CodegenRun (emitter : Emitter) (P : Codegen → ℕ → Codegen → Prop) : List ℕ → Codegen → Prop
  | start : CodegenRun emitter P [] {}
  | call {ids : List ℕ} {cg cg' : Codegen} {function : ℕ} (h : CodegenRun emitter P ids cg)
      (hs : jitCodegenFunction emitter function cg = some ((), cg')) (hp : P cg function cg') : CodegenRun emitter P (function :: ids) cg'

/-! ### One call -/

variable {blob : Blob}

/-- The entry that a call adds. -/
theorem place_functions (cg : Codegen) (function : ℕ) (blob : Blob) : ∃ f : FunctionCodegen, f.blob = blob ∧
    (cg.place function blob).functions = cg.functions ++ [f] ∧
    (blob.constpool.length = 0 → f.pool = none ∧ (cg.place function blob).rodataSize = cg.rodataSize) ∧
    (blob.constpool.length ≠ 0 → f.constpoolOffset = uint32 (placePool cg.rodataSize blob).1 ∧
      f.pool = some (uint32 (placePool cg.rodataSize blob).1, blob.constpool.length) ∧
      (cg.place function blob).rodataSize = (placePool cg.rodataSize blob).2) := by
  by_cases h : blob.constpool.length = 0
  · refine ⟨⟨blob, function, uint32 (placeCode cg.codeSize blob).1, 2 ^ 32 - 1⟩, rfl, ?_, fun _ => ⟨?_, ?_⟩, fun hne => absurd h hne⟩
    · simp [Codegen.place, h]
    · simp [FunctionCodegen.pool, h]
    · simp [Codegen.place, h]
  · refine ⟨⟨blob, function, uint32 (placeCode cg.codeSize blob).1, uint32 (placePool cg.rodataSize blob).1⟩, rfl, ?_,
      fun he => absurd he h, fun _ => ⟨rfl, ?_, ?_⟩⟩
    · simp [Codegen.place, h]
    · simp [FunctionCodegen.pool, h]
    · simp [Codegen.place, h]

/-- What a call does to the pools. -/
theorem call_cases (h : jitCodegenFunction emitter function cg = some ((), cg')) :
    jitCodegenVisitedFunction cg function = true ∧ cg' = cg ∨
    jitCodegenVisitedFunction cg function = false ∧ ∃ blob f, emitter function = some blob ∧ f.blob = blob ∧
      cg'.functions = cg.functions ++ [f] ∧
      (blob.constpool.length = 0 → f.pool = none ∧ cg'.rodataSize = cg.rodataSize) ∧
      (blob.constpool.length ≠ 0 → f.constpoolOffset = uint32 (placePool cg.rodataSize blob).1 ∧
        f.pool = some (uint32 (placePool cg.rodataSize blob).1, blob.constpool.length) ∧
        cg'.rodataSize = (placePool cg.rodataSize blob).2) := by
  refine (jitCodegenFunction_eq_some.mp h).imp_right ?_
  rintro ⟨hv, funcToIdx, blob, -, hemit, rfl⟩
  obtain ⟨queue, hqueue⟩ := queueTargets_eq blob.relocs ({ cg with funcToIdx }.place function blob)
  obtain ⟨f, hf, hfunctions, hnone, hsome⟩ := place_functions { cg with funcToIdx } function blob
  rw [hqueue]
  exact ⟨hv, blob, f, hemit, hf, hfunctions, hnone, hsome⟩

theorem allowance_append {f : FunctionCodegen} (h : cg'.functions = cg.functions ++ [f]) :
    cg'.allowance = cg.allowance + (f.blob.constpool.length + f.blob.constpoolAlign - 1) := by
  simp [Codegen.allowance, h]

/-- The pools of a right layout with one more entry. -/
theorem PoolsOk.append {f : FunctionCodegen} (h : PoolsOk cg) (hf : cg'.functions = cg.functions ++ [f])
    (hle : cg.rodataSize ≤ cg'.rodataSize) (haligned : ∀ p ∈ f.pool, f.blob.constpoolAlign ∣ p.1)
    (hinside : ∀ p ∈ f.pool, cg.rodataSize ≤ p.1 ∧ p.1 + p.2 ≤ cg'.rodataSize) (hsmall : cg'.rodataSize ≤ cg'.allowance) :
    PoolsOk cg' := by
  refine ⟨fun g hg p hp => ?_, fun g hg p hp => ?_, ?_, hsmall⟩
  · rw [hf, List.mem_append, List.mem_singleton] at hg
    obtain hg | rfl := hg
    · exact h.aligned g hg p hp
    · exact haligned p hp
  · rw [hf, List.mem_append, List.mem_singleton] at hg
    obtain hg | rfl := hg
    · exact (h.inside g hg p hp).trans hle
    · exact (hinside p hp).2
  · rw [hf, List.pairwise_append]
    refine ⟨h.disjoint, List.pairwise_singleton _ _, fun g hg f' hf' p hp q hq => ?_⟩
    obtain rfl := List.mem_singleton.mp hf'
    exact .inl ((h.inside g hg p hp).trans (hinside q hq).1)

theorem placePool_fits (hpos : 0 < blob.constpoolAlign) {r : ℕ} (hdvd : blob.constpoolAlign ∣ r) (hsmall : 2 * r < 2 ^ 32)
    (hsize : 2 * r + blob.constpool.length < 2 ^ 64) : placePool r blob = (2 * r, 2 * r + blob.constpool.length) := by
  have start : sizeT (r + alignUp r blob.constpoolAlign) = 2 * r := by
    rw [alignUp_eq hpos hdvd, sizeT]
    omega
  simp only [placePool, start]
  rw [sizeT, Nat.mod_eq_of_lt hsize]

/-- A call that fits keeps the layout. -/
theorem call_keeps (haligns : ∀ id blob, emitter id = some blob → ∃ k < 64, blob.constpoolAlign = 2 ^ k) (h : PoolsOk cg)
    (hs : jitCodegenFunction emitter function cg = some ((), cg')) (hfits : PoolFits emitter cg function) :
    PoolsKept emitter cg function cg' := by
  obtain ⟨hv, rfl⟩ | ⟨hv, blob, f, hemit, rfl, hf, hnone, hsome⟩ := call_cases hs
  · exact ⟨h, fun hv' => absurd (hv.symm.trans hv') (by decide)⟩
  · obtain ⟨k, hk, halign⟩ := haligns _ _ hemit
    have pos : 0 < f.blob.constpoolAlign := halign ▸ Nat.two_pow_pos k
    have allowed := allowance_append hf
    by_cases hempty : f.blob.constpool.length = 0
    · obtain ⟨hpool, hsize⟩ := hnone hempty
      refine ⟨h.append hf hsize.ge (by simp [hpool]) (by simp [hpool]) ?_, fun _ blob' hblob' hne => ?_⟩
      · have small := h.small
        omega
      · obtain rfl := Option.some.inj (hemit.symm.trans hblob')
        exact absurd hempty hne
    · obtain ⟨hoffset, hpool, hsize⟩ := hsome hempty
      obtain ⟨hdvd, hsmall, hfit, hallow⟩ := hfits hv _ hemit hempty
      have place := placePool_fits pos hdvd hsmall hfit
      have keep : uint32 (2 * cg.rodataSize) = 2 * cg.rodataSize := Nat.mod_eq_of_lt hsmall
      rw [place] at hoffset hpool hsize
      simp only [keep] at hoffset hpool hsize
      refine ⟨h.append hf (by omega) (by simp [hpool, hdvd.mul_left]) ?_ (by omega), fun _ blob' hblob' _ f' hf' => ?_⟩
      · simp only [hpool, Option.mem_some_iff, forall_eq']
        omega
      · obtain rfl := Option.some.inj (hemit.symm.trans hblob')
        rw [hf, List.getLast?_concat, Option.mem_some_iff] at hf'
        rw [← hf', hoffset, place]

/-- The last pool ends where the constants do. -/
def Ended (cg : Codegen) : Prop :=
  cg.rodataSize = 0 ∨ ∃ f ∈ cg.functions, ∃ p ∈ f.pool, 0 < p.2 ∧ p.1 + p.2 = cg.rodataSize

/-- A call that keeps the layout fits: a pool that was put in front of another one would not
be inside the constants. -/
theorem call_fits (haligns : ∀ id blob, emitter id = some blob → ∃ k < 64, blob.constpoolAlign = 2 ^ k) (hend : Ended cg)
    (hs : jitCodegenFunction emitter function cg = some ((), cg')) (hk : PoolsKept emitter cg function cg') :
    PoolFits emitter cg function ∧ Ended cg' := by
  obtain ⟨hv, rfl⟩ | ⟨hv, blob, f, hemit, rfl, hf, hnone, hsome⟩ := call_cases hs
  · exact ⟨fun hv' => absurd (hv.symm.trans hv') (by decide), hend⟩
  · have new : f ∈ cg'.functions := hf ▸ List.mem_append_right _ (List.mem_singleton_self f)
    have old : ∀ g ∈ cg.functions, g ∈ cg'.functions := fun g hg => hf ▸ List.mem_append_left _ hg
    obtain ⟨k, hk64, halign⟩ := haligns _ _ hemit
    have pos : 0 < f.blob.constpoolAlign := halign ▸ Nat.two_pow_pos k
    have bound : f.blob.constpoolAlign ≤ 2 ^ 63 := halign ▸ Nat.pow_le_pow_right (by decide) (by omega)
    by_cases hempty : f.blob.constpool.length = 0
    · obtain ⟨-, hsize⟩ := hnone hempty
      refine ⟨fun _ blob' hblob' hne => ?_, ?_⟩
      · obtain rfl := Option.some.inj (hemit.symm.trans hblob')
        exact absurd hempty hne
      · exact hend.imp (fun h => hsize.trans h) fun ⟨g, hg, p, hp, hlt, he⟩ => ⟨g, old g hg, p, hp, hlt, he.trans hsize.symm⟩
    · obtain ⟨hoffset, hpool, hsize⟩ := hsome hempty
      obtain ⟨ok, newest⟩ := hk
      have recorded := newest hv _ hemit hempty f (by rw [hf, List.getLast?_concat, Option.mem_some_iff])
      set r := cg.rodataSize
      set o := (placePool r f.blob).1 with ho
      rw [hoffset] at recorded
      rw [recorded] at hpool
      have small : o < 2 ^ 32 := recorded ▸ Nat.mod_lt _ (by decide)
      have size : cg'.rodataSize = sizeT (o + f.blob.constpool.length) := hsize
      have inside : o + f.blob.constpool.length ≤ cg'.rodataSize := ok.inside f new _ hpool
      have fits : o + f.blob.constpool.length < 2 ^ 64 := by
        have lt : cg'.rodataSize < 2 ^ 64 := size ▸ Nat.mod_lt _ (by decide)
        omega
      have size : cg'.rodataSize = o + f.blob.constpool.length := by rw [size, sizeT, Nat.mod_eq_of_lt fits]
      have behind : r ≤ o := by
        obtain hzero | ⟨g, hg, p, hp, hlt, he⟩ := hend
        · omega
        · have within := ok.inside g (old g hg) p hp
          have pairs := ok.disjoint
          rw [hf, List.pairwise_append] at pairs
          have apart := pairs.2.2 g hg f (List.mem_singleton_self f) p hp _ hpool
          simp only at apart
          omega
      have rounded := alignUp_lt (n := r) pos
      have start : o = r + alignUp r f.blob.constpoolAlign := by
        rw [ho, placePool, sizeT, Nat.mod_eq_of_lt (by omega)]
      have dvd : f.blob.constpoolAlign ∣ r :=
        (Nat.dvd_add_left (dvd_alignUp r _)).mp (start ▸ ok.aligned f new (o, f.blob.constpool.length) hpool)
      rw [alignUp_eq pos dvd] at start
      refine ⟨fun _ blob' hblob' _ => ?_, .inr ⟨f, new, _, hpool, by simp only; omega, size.symm⟩⟩
      obtain rfl := Option.some.inj (hemit.symm.trans hblob')
      have allowed := allowance_append hf
      have total := ok.small
      exact ⟨dvd, by omega, by omega, by omega⟩

/-! ### Runs -/

theorem poolsOk_start : PoolsOk {} := ⟨by simp, by simp, by simp, by simp⟩

/-- Whatever the functions and in whatever order: the layout is right behind every call of a
run exactly when every call fits in front of it. -/
theorem pools_kept_iff (haligns : ∀ id blob, emitter id = some blob → ∃ k < 64, blob.constpoolAlign = 2 ^ k) :
    CodegenRun emitter (PoolsKept emitter) ids cg ↔ CodegenRun emitter (fun cg function _ => PoolFits emitter cg function) ids cg := by
  constructor
  · intro h
    have run : CodegenRun emitter (fun cg function _ => PoolFits emitter cg function) ids cg ∧ Ended cg := by
      induction h with
      | start => exact ⟨.start, .inl rfl⟩
      | call _ hs hp ih =>
        obtain ⟨fits, ended⟩ := call_fits haligns ih.2 hs hp
        exact ⟨.call ih.1 hs fits, ended⟩
    exact run.1
  · intro h
    have run : CodegenRun emitter (PoolsKept emitter) ids cg ∧ PoolsOk cg := by
      induction h with
      | start => exact ⟨.start, poolsOk_start⟩
      | call _ hs hp ih =>
        have kept := call_keeps haligns ih.2 hs hp
        exact ⟨.call ih.1 hs kept, kept.1⟩
    exact run.1

/-- Two functions: eight bytes of constants, and sixteen that have to be aligned to 16. -/
def twoPools : Emitter := fun id =>
  some { constpool := List.replicate (8 * (id + 1)) 0, constpoolAlign := 8 * 2 ^ (id % 2) }

theorem twoPools_aligns : ∀ id blob, twoPools id = some blob → ∃ k < 64, blob.constpoolAlign = 2 ^ k := by
  intro id blob h
  obtain rfl := Option.some.inj h
  exact ⟨3 + id % 2, by omega, by rw [pow_add]; rfl⟩

/-- Behind eight bytes of constants, 24 more with the same alignment. -/
theorem pools_kept_second : ∃ cg, CodegenRun twoPools (PoolsKept twoPools) [2, 0] cg ∧
    cg.functions.map FunctionCodegen.pool = [some (0, 8), some (16, 24)] := by
  refine ⟨_, (pools_kept_iff twoPools_aligns).mpr (.call (.call .start rfl ?_) rfl ?_), rfl⟩
  · intro _ blob hblob _
    obtain rfl := Option.some.inj hblob
    decide
  · intro _ blob hblob _
    obtain rfl := Option.some.inj hblob
    decide

/-- The second pool is put at 24. -/
theorem second_pool_misaligned : ¬∀ emitter : Emitter, (∀ id blob, emitter id = some blob → ∃ k < 64, blob.constpoolAlign = 2 ^ k) →
    ∀ ids cg, CodegenRun emitter (fun _ _ _ => True) ids cg → PoolsOk cg := by
  intro h
  have run : CodegenRun twoPools (fun _ _ _ => True) [1, 0] _ := .call (.call .start rfl trivial) rfl trivial
  have aligned := (h twoPools twoPools_aligns _ _ run).aligned _ (List.mem_of_getElem? (i := 1) rfl) (24, 16) rfl
  exact absurd aligned (by decide)

end SpidirWasm.Jit
