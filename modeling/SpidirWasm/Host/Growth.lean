import SpidirWasm.Host.Runtime

/-! `memory.size` and `memory.grow`. Growth maps the pages behind the present ones and
nothing else, so every run keeps the mapped part an initial segment, whose bytes are
what was stored last or what they started with. -/

namespace SpidirWasm.Host

open Wasm

/-- `wasm_host_memory_size`. -/
def wasmHostMemorySize (s : Runtime) : BitVec 32 := BitVec.ofNat 32 (s.size / pageSize)

/-- `wasm_host_memory_grow`, by whether its `mmap` succeeds. The counts are `size_t`s far
below `2 ^ 64`. -/
def wasmHostMemoryGrow (newPageCount : BitVec 32) (mapped : Bool) (s : Runtime) : BitVec 32 × Runtime :=
  if newPageCount.toInt < 0 then (-1, s)
  else
    let oldCount := s.size / pageSize
    let newCount := oldCount + newPageCount.toNat
    if s.module.memory.max < newCount * pageSize then (-1, s)
    else if newPageCount ≠ 0 then
      if !mapped then (-1, s)
      else (BitVec.ofNat 32 oldCount, { s with
        memory := mmapFixed (oldCount * pageSize) (newPageCount.toNat * pageSize) s.memory
        size := newCount * pageSize })
    else (BitVec.ofNat 32 oldCount, { s with size := newCount * pageSize })

/-- What the generated code asks of its memory. -/
inductive Op where
  | size
  | grow (newPageCount : BitVec 32) (mapped : Bool)
  | store (addr : ℕ) (bytes : List UInt8)

/-- One request; only a store outside the mapped memory faults. -/
def Op.step (s : Runtime) : Op → Option Runtime
  | .size => some s
  | .grow n mapped => some (wasmHostMemoryGrow n mapped s).2
  | .store addr bytes => (s.memory.store addr bytes).map fun memory => { s with memory }

/-- A run without a fault. -/
def run (ops : List Op) (s : Runtime) : Option Runtime := ops.foldlM Op.step s

/-- The byte a request stores at an address. -/
def Op.stored (a : ℕ) : Op → Option UInt8
  | .store addr bytes => if addr ≤ a then bytes[a - addr]? else none
  | _ => none

/-- The last byte a run stores at an address. -/
def lastStored (ops : List Op) (a : ℕ) : Option UInt8 := ops.reverse.findSome? (Op.stored a)

/-- `n` more pages are allowed, and can be mapped. -/
def Runtime.CanGrow (s : Runtime) (n : BitVec 32) (mapped : Bool) : Prop :=
  0 ≤ n.toInt ∧ s.size + n.toNat * pageSize ≤ s.module.memory.max ∧ (n ≠ 0 → mapped)

/-- Whole pages within the limits, all of them mapped and nothing else. -/
structure Runtime.Ok (s : Runtime) : Prop where
  limits : s.module.memory.Ok
  pages : pageSize ∣ s.size
  min_le : s.module.memory.min ≤ s.size
  le_max : s.size ≤ s.module.memory.max
  below : s.memory.Below s.size

variable {s t : Runtime} {n : BitVec 32} {mapped : Bool} {op : Op} {ops : List Op} {data : List UInt8} {m : WasmModule}

/-- The arithmetic of a growth, on whole pages. -/
theorem Runtime.Ok.newSize (hs : s.Ok) (n : ℕ) : (s.size / pageSize + n) * pageSize = s.size + n * pageSize := by
  rw [Nat.add_mul, Nat.div_mul_cancel hs.pages]

/-- A growth that is possible. -/
theorem wasmHostMemoryGrow_grows (hs : s.Ok) (h : s.CanGrow n mapped) : wasmHostMemoryGrow n mapped s =
    (BitVec.ofNat 32 (s.size / pageSize), { s with
      memory := s.memory.map s.size (n.toNat * pageSize) 0
      size := s.size + n.toNat * pageSize }) := by
  obtain ⟨hn, hmax, hmap⟩ := h
  simp only [wasmHostMemoryGrow, hs.newSize, if_neg (Int.not_lt.mpr hn), if_neg (Nat.not_lt.mpr hmax)]
  by_cases h0 : n = 0
  · subst h0
    simp
  · rw [if_pos h0, hmap h0, Nat.div_mul_cancel hs.pages, mmapFixed_eq (Nat.dvd_mul_left _ _)]
    rfl

/-- A growth that is not. -/
theorem wasmHostMemoryGrow_refuses (hs : s.Ok) (h : ¬s.CanGrow n mapped) : wasmHostMemoryGrow n mapped s = (-1, s) := by
  simp only [wasmHostMemoryGrow, hs.newSize]
  by_cases hn : n.toInt < 0
  · rw [if_pos hn]
  by_cases hmax : s.module.memory.max < s.size + n.toNat * pageSize
  · rw [if_neg hn, if_pos hmax]
  have hmap : ¬(n ≠ 0 → mapped) := fun hmap => h ⟨Int.not_lt.mp hn, Nat.not_lt.mp hmax, hmap⟩
  obtain ⟨h0, hm⟩ := Classical.not_imp.mp hmap
  rw [if_neg hn, if_neg hmax, if_pos h0, if_pos (by simpa using hm)]

/-- A request keeps the memory in order. -/
theorem Op.step_ok (hs : s.Ok) (h : op.step s = some t) : t.Ok ∧ t.module = s.module ∧ s.size ≤ t.size := by
  cases op with
  | size =>
    obtain rfl := Option.some.inj h
    exact ⟨hs, rfl, Nat.le_refl _⟩
  | grow n mapped =>
    obtain rfl := Option.some.inj h
    by_cases hg : s.CanGrow n mapped
    · rw [wasmHostMemoryGrow_grows hs hg]
      exact ⟨⟨hs.limits, Nat.dvd_add hs.pages (Nat.dvd_mul_left _ _), Nat.le_add_right_of_le hs.min_le, hg.2.1, hs.below.map⟩, rfl,
        Nat.le_add_right _ _⟩
    · rw [wasmHostMemoryGrow_refuses hs hg]
      exact ⟨hs, rfl, Nat.le_refl _⟩
  | store addr bytes =>
    obtain ⟨memory, hstore, rfl⟩ := Option.map_eq_some_iff.mp h
    obtain ⟨hc, rfl⟩ := Memory.store_eq_some.mp hstore
    exact ⟨⟨hs.limits, hs.pages, hs.min_le, hs.le_max, hs.below.write hc⟩, rfl, Nat.le_refl _⟩

/-- So does a run. -/
theorem run_ok (hs : s.Ok) (h : run ops s = some t) : t.Ok ∧ t.module = s.module ∧ s.size ≤ t.size := by
  induction ops generalizing s with
  | nil =>
    obtain rfl := Option.some.inj h
    exact ⟨hs, rfl, Nat.le_refl _⟩
  | cons op ops ih =>
    obtain ⟨u, hu, h⟩ := Option.bind_eq_some_iff.mp h
    obtain ⟨hu', hmodule, hsize⟩ := op.step_ok hs hu
    obtain ⟨ht, hmodule', hsize'⟩ := ih hu' h
    exact ⟨ht, hmodule'.trans hmodule, Nat.le_trans hsize hsize'⟩

/-! ### Contents -/

/-- What a byte of a mapped memory holds, zero where nothing was mapped before. -/
def Runtime.byte (s : Runtime) (a : ℕ) : UInt8 := (s.memory a).getD 0

/-- A request changes the bytes it stores. -/
theorem Op.step_byte (hs : s.Ok) (h : op.step s = some t) (a : ℕ) : t.byte a = (op.stored a).getD (s.byte a) := by
  cases op with
  | size =>
    obtain rfl := Option.some.inj h
    rfl
  | grow n mapped =>
    obtain rfl := Option.some.inj h
    by_cases hg : s.CanGrow n mapped
    · rw [wasmHostMemoryGrow_grows hs hg]
      by_cases ha : s.size ≤ a ∧ a < s.size + n.toNat * pageSize
      · have none : s.memory a = none := by
          have := (hs.below a).not.mpr (Nat.not_lt.mpr ha.1)
          simpa using this
        simp [Runtime.byte, Op.stored, Memory.map_of_mem ha.1 ha.2, none]
      · simp only [Runtime.byte, Op.stored, Option.getD_none, Memory.map_of_not_mem (by omega : a < s.size ∨ s.size + n.toNat * pageSize ≤ a)]
    · rw [wasmHostMemoryGrow_refuses hs hg]
      rfl
  | store addr bytes =>
    obtain ⟨memory, hstore, rfl⟩ := Option.map_eq_some_iff.mp h
    obtain ⟨-, rfl⟩ := Memory.store_eq_some.mp hstore
    by_cases ha : addr ≤ a ∧ a < addr + bytes.length
    · simp [Runtime.byte, Op.stored, Memory.write_of_mem ha.1 ha.2, ha.1, List.getElem?_eq_getElem (by omega : a - addr < bytes.length)]
    · have stored : (Op.store addr bytes).stored a = none := by
        rw [Op.stored, ite_eq_right_iff]
        exact fun hle => List.getElem?_eq_none (by omega)
      simp only [stored, Runtime.byte, Memory.write_of_not_mem (by omega : a < addr ∨ addr + bytes.length ≤ a), Option.getD_none]

/-- A byte is the last one stored there, or what it started with. -/
theorem run_byte (hs : s.Ok) (h : run ops s = some t) (a : ℕ) : t.byte a = (lastStored ops a).getD (s.byte a) := by
  induction ops generalizing s with
  | nil =>
    obtain rfl := Option.some.inj h
    rfl
  | cons op ops ih =>
    obtain ⟨u, hu, h⟩ := Option.bind_eq_some_iff.mp h
    rw [ih (op.step_ok hs hu).1 h, op.step_byte hs hu, lastStored, lastStored, List.reverse_cons, List.findSome?_append,
      List.findSome?_singleton]
    cases ops.reverse.findSome? (Op.stored a) <;> rfl

/-! ### Runs of an instance -/

theorem runtimeInit_ok {reserved committed : Bool} (hload : wasmLoadModule data = some m) (hinit : runtimeInit m reserved committed = .done s) :
    s.Ok ∧ s.module = m := by
  obtain ⟨l, hl, rfl, -⟩ := wasmLoadModule_staged hload
  rw [runtimeInit_eq] at hinit
  split_ifs at hinit with hmap
  obtain ⟨hfit, rfl⟩ := (install_eq_done hl.memory.min_pages).mp hinit
  exact ⟨⟨hl.memory, hl.memory.min_pages, Nat.le_refl _, hl.memory.min_le, applySegments_below (fresh_below hl.memory.min_pages) hfit⟩, rfl⟩

/-- `memory.size` is the number of pages. -/
theorem wasmHostMemorySize_toNat (hs : s.Ok) : (wasmHostMemorySize s).toNat = s.size / pageSize := by
  have hmax := hs.limits.max_le
  have hsize := hs.le_max
  rw [wasmHostMemorySize, BitVec.toNat_ofNat, Nat.mod_eq_of_lt]
  simp only [pageSize]
  omega

/-- What `memory.grow` returns and leaves: the old number of pages and that many more of
zeros, or -1 and nothing new. -/
theorem wasmHostMemoryGrow_spec {result : BitVec 32} (hs : s.Ok) (h : wasmHostMemoryGrow n mapped s = (result, t)) :
    (result.toNat = s.size / pageSize ∧ t.size = s.size + n.toNat * pageSize ↔ s.CanGrow n mapped) ∧
    (¬s.CanGrow n mapped → result = -1 ∧ t = s) ∧
    (∀ a < s.size, t.memory a = s.memory a) ∧ ∀ a, s.size ≤ a → a < t.size → t.memory a = some 0 := by
  have count := wasmHostMemorySize_toNat hs
  by_cases hg : s.CanGrow n mapped
  · rw [wasmHostMemoryGrow_grows hs hg] at h
    obtain ⟨rfl, rfl⟩ := Prod.mk.inj h
    refine ⟨iff_of_true ⟨count, rfl⟩ hg, fun hn => absurd hg hn, fun a ha => ?_, fun a hle hlt => ?_⟩
    · exact Memory.map_of_not_mem (.inl ha)
    · exact Memory.map_of_mem hle hlt
  · rw [wasmHostMemoryGrow_refuses hs hg] at h
    obtain ⟨rfl, rfl⟩ := Prod.mk.inj h
    refine ⟨iff_of_false ?_ hg, fun _ => ⟨rfl, rfl⟩, fun _ _ => rfl, fun a hle hlt => absurd hlt (Nat.not_lt.mpr hle)⟩
    rintro ⟨hresult, -⟩
    have hmax := hs.limits.max_le
    have hsize := hs.le_max
    have : (-1 : BitVec 32).toNat = 2 ^ 32 - 1 := by decide
    rw [this] at hresult
    simp only [pageSize] at hresult
    omega

/-- Runs of an instance: the size stays within the limits and never shrinks, a growth adds
the pages that it may or changes nothing, and a byte is what was stored there last. -/
theorem memory_runs {reserved committed : Bool} {s₀ : Runtime} (hload : wasmLoadModule data = some m)
    (hinit : runtimeInit m reserved committed = .done s₀) (hrun : run ops s₀ = some s) :
    s.module = m ∧ pageSize ∣ s.size ∧ m.memory.min ≤ s.size ∧ s.size ≤ m.memory.max ∧
    (∀ later t, run later s = some t → s.size ≤ t.size) ∧
    (wasmHostMemorySize s).toNat = s.size / pageSize ∧
    s.memory.Below s.size ∧
    (∀ a < s.size, s.memory a = some ((lastStored ops a).getD (s₀.byte a))) ∧
    ∀ n mapped result t, wasmHostMemoryGrow n mapped s = (result, t) →
      (result.toNat = s.size / pageSize ∧ t.size = s.size + n.toNat * pageSize ↔ s.CanGrow n mapped) ∧
      (¬s.CanGrow n mapped → result = -1 ∧ t = s) ∧
      (∀ a < s.size, t.memory a = s.memory a) ∧ ∀ a, s.size ≤ a → a < t.size → t.memory a = some 0 := by
  obtain ⟨hs₀, hm₀⟩ := runtimeInit_ok hload hinit
  obtain ⟨hs, hm, -⟩ := run_ok hs₀ hrun
  rw [hm₀] at hm
  refine ⟨hm, hs.pages, hm ▸ hs.min_le, hm ▸ hs.le_max, fun later t h => (run_ok hs h).2.2, wasmHostMemorySize_toNat hs, hs.below,
    fun a ha => ?_, fun n mapped result t h => wasmHostMemoryGrow_spec hs h⟩
  obtain ⟨byte, hbyte⟩ := Option.isSome_iff_exists.mp ((hs.below a).mpr ha)
  rw [← run_byte hs₀ hrun a, Runtime.byte, hbyte, Option.getD_some]

/-- A memory of one page that may have four. -/
def growingModule : List UInt8 := [0x00, 0x61, 0x73, 0x6D, 0x01, 0x00, 0x00, 0x00, 0x05, 0x04, 0x01, 0x01, 0x01, 0x04]

theorem memory_runs_growing : ∃ m s₀ s, wasmLoadModule growingModule = some m ∧ runtimeInit m true true = .done s₀ ∧
    run [.store 5 [7], .grow 2 true, .grow 9 true, .store 70000 [1, 2]] s₀ = some s ∧
    s.size = 3 * pageSize ∧ s.memory 5 = some 7 ∧ s.memory 70002 = some 0 := by
  have loads : wasmLoadModule growingModule = some { memory := ⟨65536, 262144, false⟩ } := by decide +kernel
  have init : runtimeInit { memory := ⟨65536, 262144, false⟩ } true true = .done (Runtime.fresh { memory := ⟨65536, 262144, false⟩ }) := rfl
  have runs : (run [.store 5 [7], .grow 2 true, .grow 9 true, .store 70000 [1, 2]] (Runtime.fresh { memory := ⟨65536, 262144, false⟩ })).map
      Runtime.size = some (3 * pageSize) := by decide +kernel
  obtain ⟨s, hs, hsize⟩ := Option.map_eq_some_iff.mp runs
  obtain ⟨-, -, -, -, -, -, -, hbytes, -⟩ := memory_runs loads init hs
  exact ⟨_, _, s, loads, init, hs, hsize, hbytes 5 (by rw [hsize]; decide), hbytes 70002 (by rw [hsize]; decide)⟩

end SpidirWasm.Host
