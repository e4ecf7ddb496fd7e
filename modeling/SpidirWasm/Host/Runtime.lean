import SpidirWasm.Logic.Memory
import SpidirWasm.Wasm.Valid

/-! The linear memory of `runtime.c`, by its distance from the base: what `runtime_init`
maps and what it installs there. The process dies of a fault, so a fault leaves no
state behind. -/

namespace SpidirWasm.Wasm

/-- `wasm_module_init_memory`: the active segments in order, each by one `memcpy`. -/
def wasmModuleInitMemory (m : WasmModule) (mem : Memory UInt8) : Option (Memory UInt8) :=
  m.data.foldlM (fun mem d => if d.active then mem.store d.offset d.data else some mem) mem

/-- What active segments leave in memory. -/
def applySegments (segments : List DataSegment) (mem : Memory UInt8) : Memory UInt8 :=
  segments.foldl (fun mem d => if d.active then mem.write d.offset d.data else mem) mem

/-- An active segment lies in the first `n` bytes; one without bytes lies anywhere. -/
def DataSegment.Fits (d : DataSegment) (n : ℕ) : Prop := d.active → d.data ≠ [] → d.offset + d.data.length ≤ n

variable {segments : List DataSegment} {mem mem' : Memory UInt8} {n : ℕ}

theorem DataSegment.fits_iff {d : DataSegment} (h : mem.Below n) : d.Fits n ↔ (d.active → mem.Covers d.offset d.data.length) := by
  rw [DataSegment.Fits, h.covers_iff, List.length_eq_zero_iff]
  grind

/-- Segments are installed if they all fit, and fault otherwise. -/
theorem initMemory_eq_some (h : mem.Below n) :
    segments.foldlM (fun mem d => if d.active then mem.store d.offset d.data else some mem) mem = some mem' ↔
      (∀ d ∈ segments, d.Fits n) ∧ applySegments segments mem = mem' := by
  induction segments generalizing mem with
  | nil => simp [applySegments]
  | cons d segments ih =>
    rw [List.foldlM_cons, Option.bind_eq_bind, List.forall_mem_cons, d.fits_iff h, applySegments, List.foldl_cons]
    by_cases ha : d.active
    · rw [if_pos ha, if_pos ha]
      by_cases hc : mem.Covers d.offset d.data.length
      · rw [Memory.store, if_pos hc, Option.bind_some, ih (h.write hc)]
        simp [hc, applySegments]
      · simp [Memory.store, ha, hc]
    · rw [if_neg ha, if_neg ha, Option.bind_some, ih h]
      simp [ha, applySegments]

theorem applySegments_below (h : mem.Below n) (hfit : ∀ d ∈ segments, d.Fits n) : (applySegments segments mem).Below n := by
  induction segments generalizing mem with
  | nil => exact h
  | cons d segments ih =>
    rw [List.forall_mem_cons, d.fits_iff h] at hfit
    rw [applySegments, List.foldl_cons]
    split_ifs with ha
    · exact ih (h.write (hfit.1 ha)) hfit.2
    · exact ih h hfit.2

end SpidirWasm.Wasm

namespace SpidirWasm.Host

open Wasm

/-- `MEMORY_RESERVE_SIZE`. -/
def memoryReserveSize : ℕ := 8 * 1024 * 1024 * 1024

/-- The unit in which `mmap` maps. -/
def osPageSize : ℕ := 4096

/-- `mmap` of readable and writable zeros over part of the reservation, in whole pages. -/
def mmapFixed (start len : ℕ) (mem : Memory UInt8) : Memory UInt8 :=
  mem.map start ((len + osPageSize - 1) / osPageSize * osPageSize) 0

theorem mmapFixed_eq {len : ℕ} (h : pageSize ∣ len) (start : ℕ) (mem : Memory UInt8) : mmapFixed start len mem = mem.map start len 0 := by
  obtain ⟨n, rfl⟩ := h
  have : (pageSize * n + osPageSize - 1) / osPageSize * osPageSize = pageSize * n := by
    simp only [pageSize, osPageSize]
    omega
  rw [mmapFixed, this]

/-- The live instance: `m_module`, the memory behind `m_memory_base` and `m_memory_size`. -/
structure Runtime where
  module : WasmModule := {}
  memory : Memory UInt8 := fun _ => none
  size : ℕ := 0

/-- How `runtime_init` ends. -/
inductive Init where
  | done (s : Runtime)
  | error
  | fault

/-- The data segments, over what `runtime_init` has mapped. -/
def install (s : Runtime) : Init :=
  match wasmModuleInitMemory s.module s.memory with
  | none => .fault
  | some memory => .done { s with memory }

/-- `runtime_init` in a fresh process, by whether its two `mmap` calls succeed. -/
def runtimeInit (m : WasmModule) (reserved committed : Bool) : Init :=
  if !reserved then .error
  else if m.memory.min ≠ 0 then
    if !committed then .error
    else install { module := m, memory := mmapFixed 0 m.memory.min fun _ => none, size := m.memory.min }
  else install { module := m }

/-- The runtime before its data segments. -/
def Runtime.fresh (m : WasmModule) : Runtime :=
  { module := m, memory := mmapFixed 0 m.memory.min fun _ => none, size := m.memory.min }

variable {data : List UInt8} {m : WasmModule} {s : Runtime} {reserved committed : Bool}

theorem fresh_below (h : pageSize ∣ m.memory.min) : (Runtime.fresh m).memory.Below m.memory.min := by
  have below : Memory.Below (Memory.map 0 m.memory.min (0 : UInt8) fun _ => none) (0 + m.memory.min) := Memory.Below.empty.map
  rw [Nat.zero_add, ← mmapFixed_eq h] at below
  exact below

/-- `runtime_init` fails where `mmap` does, and else depends on the segments. -/
theorem runtimeInit_eq (m : WasmModule) (reserved committed : Bool) : runtimeInit m reserved committed =
    if reserved ∧ (m.memory.min ≠ 0 → committed) then install (Runtime.fresh m) else .error := by
  by_cases hmin : m.memory.min = 0
  · have : Runtime.fresh m = { module := m } := by
      simp [Runtime.fresh, hmin, mmapFixed, osPageSize]
    cases reserved <;> simp [runtimeInit, hmin, this]
  · cases reserved <;> cases committed <;> simp [runtimeInit, hmin, Runtime.fresh]

theorem install_ne_error (s : Runtime) : install s ≠ .error := by
  unfold install
  split <;> simp

theorem install_eq_done (hm : pageSize ∣ m.memory.min) : install (Runtime.fresh m) = .done s ↔
    (∀ d ∈ m.data, d.Fits m.memory.min) ∧ s = { Runtime.fresh m with memory := applySegments m.data (Runtime.fresh m).memory } := by
  have hrun : ∀ {memory}, wasmModuleInitMemory m (Runtime.fresh m).memory = some memory ↔
      (∀ d ∈ m.data, d.Fits m.memory.min) ∧ applySegments m.data (Runtime.fresh m).memory = memory := initMemory_eq_some (fresh_below hm)
  have hmodule : (Runtime.fresh m).module = m := rfl
  rw [install, hmodule]
  rcases hr : wasmModuleInitMemory m (Runtime.fresh m).memory with _ | memory
  · have unfit : ¬∀ d ∈ m.data, d.Fits m.memory.min := fun hfit => by simp [hrun.mpr ⟨hfit, rfl⟩] at hr
    simp [unfit]
  · obtain ⟨hfit, rfl⟩ := hrun.mp hr
    rw [Init.done.injEq]
    exact ⟨fun hs => ⟨hfit, hs.symm⟩, fun hs => hs.2.symm⟩

/-- Instantiation installs the data segments inside the initial memory or reports an
error, unless it gets as far as a segment that does not fit: then it faults. -/
theorem runtimeInit_segments_iff (h : wasmLoadModule data = some m) (reserved committed : Bool) :
    (runtimeInit m reserved committed = .error ∨ ∃ s, runtimeInit m reserved committed = .done s ∧ s.memory.Below m.memory.min ∧
      s.memory = applySegments m.data (Runtime.fresh m).memory) ↔
    (reserved ∧ (m.memory.min ≠ 0 → committed) → ∀ d ∈ m.data, d.Fits m.memory.min) := by
  obtain ⟨l, hl, rfl, -⟩ := wasmLoadModule_staged h
  have hm := hl.memory.min_pages
  rw [runtimeInit_eq]
  by_cases hmap : reserved ∧ (l.module.memory.min ≠ 0 → committed)
  · simp only [if_pos hmap, install_eq_done hm]
    constructor
    · rintro (herr | ⟨s, ⟨hfit, -⟩, -⟩) -
      · exact absurd herr (install_ne_error _)
      · exact hfit
    · intro hfit
      exact .inr ⟨_, ⟨hfit hmap, rfl⟩, applySegments_below (fresh_below hm) (hfit hmap), rfl⟩
  · simp [hmap]

/-- A page of memory, and a segment of two bytes at its end. -/
def atTheEnd : List UInt8 :=
  [0x00, 0x61, 0x73, 0x6D, 0x01, 0x00, 0x00, 0x00,
   0x05, 0x03, 0x01, 0x00, 0x01,
   0x0B, 0x0A, 0x01, 0x00, 0x41, 0xFE, 0xFF, 0x03, 0x0B, 0x02, 0x61, 0x62]

theorem runtimeInit_segments_atTheEnd : ∃ m, wasmLoadModule atTheEnd = some m ∧ m.data = [⟨65534, [0x61, 0x62], true⟩] ∧
    (runtimeInit m true true = .error ∨ ∃ s, runtimeInit m true true = .done s ∧ s.memory.Below m.memory.min ∧
      s.memory = applySegments m.data (Runtime.fresh m).memory) := by
  have loads : (wasmLoadModule atTheEnd).map (fun m => (m.memory.min, m.data)) = some (65536, [⟨65534, [0x61, 0x62], true⟩]) := by
    decide +kernel
  obtain ⟨m, hm, he⟩ := Option.map_eq_some_iff.mp loads
  obtain ⟨hmin, hdata⟩ := Prod.mk.inj he
  refine ⟨m, hm, hdata, (runtimeInit_segments_iff hm true true).mpr fun _ d hd => ?_⟩
  rw [hdata] at hd
  obtain rfl := List.mem_singleton.mp hd
  rw [hmin]
  exact fun _ _ => by decide

/-- A page of memory, and a segment of two bytes at its last byte. -/
def pastTheEnd : List UInt8 :=
  [0x00, 0x61, 0x73, 0x6D, 0x01, 0x00, 0x00, 0x00,
   0x05, 0x03, 0x01, 0x00, 0x01,
   0x0B, 0x0A, 0x01, 0x00, 0x41, 0xFF, 0xFF, 0x03, 0x0B, 0x02, 0x61, 0x62]

/-- A data segment that leaves the initial memory is neither installed nor refused. -/
theorem runtimeInit_pastTheEnd : ∃ m, wasmLoadModule pastTheEnd = some m ∧ ¬(runtimeInit m true true = .error ∨
    ∃ s, runtimeInit m true true = .done s ∧ s.memory.Below m.memory.min ∧ s.memory = applySegments m.data (Runtime.fresh m).memory) := by
  have loads : (wasmLoadModule pastTheEnd).map (fun m => (m.memory.min, m.data)) = some (65536, [⟨65535, [0x61, 0x62], true⟩]) := by
    decide +kernel
  obtain ⟨m, hm, he⟩ := Option.map_eq_some_iff.mp loads
  obtain ⟨hmin, hdata⟩ := Prod.mk.inj he
  refine ⟨m, hm, ?_⟩
  rw [runtimeInit_eq, if_pos ⟨rfl, fun _ => rfl⟩]
  rintro (herr | ⟨s, hs, -⟩)
  · exact install_ne_error _ herr
  · obtain ⟨hfit, -⟩ := (install_eq_done (hmin ▸ (by decide : pageSize ∣ 65536))).mp hs
    have outside := hfit ⟨65535, [0x61, 0x62], true⟩ (by simp [hdata]) rfl (by simp)
    rw [hmin] at outside
    exact absurd outside (by decide)

end SpidirWasm.Host
