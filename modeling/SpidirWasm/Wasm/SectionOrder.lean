import Mathlib.Data.List.Basic
import SpidirWasm.Wasm.SectionList

/-! The order of the sections. A search from a moving place accepts a list of ids exactly
if the list can be read off the expected order from left to right, so that the check of
the order is a condition on the module's sections alone. -/

namespace SpidirWasm.Wasm

open Keeping

section Search

variable {α : Type} [DecidableEq α]

/-- The first place of the first element leaves the most for the others. -/
theorem cons_sublist_iff_idxOf? (a : α) (rest l : List α) :
    (a :: rest).Sublist l ↔ ∃ i, l.idxOf? a = some i ∧ rest.Sublist (l.drop (i + 1)) := by
  induction l with
  | nil => simp
  | cons x l ih =>
    by_cases hx : x = a
    · subst hx
      simp [List.idxOf?_cons]
    · have hne : a ≠ x := fun h => hx h.symm
      rw [List.idxOf?_cons, if_neg (by simpa using hx)]
      constructor
      · intro h
        cases h with
        | cons _ h =>
          obtain ⟨i, hi, hrest⟩ := ih.mp h
          exact ⟨i + 1, by rw [hi, Option.map_some], hrest⟩
        | cons_cons _ h => exact absurd rfl hne
      · rintro ⟨j, hj, hrest⟩
        obtain ⟨i, hi, rfl⟩ := Option.map_eq_some_iff.mp hj
        exact .cons x (ih.mpr ⟨i, hi, hrest⟩)

end Search

/-- The ids of the sections whose order is checked. -/
def sectionIds (secs : List (ℕ × List UInt8)) : List ℕ := (secs.map Prod.fst).filter (· ≠ 0)

/-- The place behind sections of these ids, which are looked for from place `index` on. -/
def placeBehind (index : ℕ) (ids : List ℕ) : Option ℕ := ids.foldlM (fun i id => (findSectionIndex id i).map (· + 1)) index

/-- The sections are found one behind the other exactly if the expected order has them in this order. -/
theorem placeBehind_isSome (index : ℕ) (ids : List ℕ) :
    (placeBehind index ids).isSome ↔ ids.Sublist (expectedSectionOrder.drop index) := by
  induction ids generalizing index with
  | nil => simp [placeBehind]
  | cons id ids ih =>
    rw [cons_sublist_iff_idxOf?, placeBehind, List.foldlM_cons, findSectionIndex]
    cases hi : (expectedSectionOrder.drop index).idxOf? id with
    | none => simp
    | some i =>
      simp only [Option.map_some, Option.bind_eq_bind, Option.bind_some, Option.some.injEq, exists_eq_left', List.drop_drop]
      exact ih _

/-- One section without the check of its place. -/
def parseSection (m : WasmModule) (sec : ℕ × List UInt8) : Option WasmModule :=
  ((wasmParseSection sec.1).run ⟨m, ⟨0, sec.2⟩⟩).map fun r => r.2.module

@[simp] theorem placeBehind_nil (index : ℕ) : placeBehind index [] = some index := rfl

theorem placeBehind_append (index : ℕ) (ids others : List ℕ) :
    placeBehind index (ids ++ others) = (placeBehind index ids).bind fun i => placeBehind i others := List.foldlM_append

theorem placeBehind_singleton (index id : ℕ) : placeBehind index [id] = (findSectionIndex id index).map (· + 1) := by
  rw [placeBehind, List.foldlM_cons]
  cases findSectionIndex id index <;> rfl

theorem sectionIds_append (secs others : List (ℕ × List UInt8)) : sectionIds (secs ++ others) = sectionIds secs ++ sectionIds others := by
  rw [sectionIds, List.map_append, List.filter_append]
  rfl

theorem sectionIds_custom (contents : List UInt8) : sectionIds [(0, contents)] = [] := rfl

theorem sectionIds_ordered {id : ℕ} (hid : id ≠ 0) (contents : List UInt8) : sectionIds [(id, contents)] = [id] := by
  simp [sectionIds, hid]

/-- A section is loaded if its place is behind the others and its parser succeeds. -/
theorem loadSection_eq (index : ℕ) (m : WasmModule) (sec : ℕ × List UInt8) : loadSection (index, m) sec =
    (placeBehind index (sectionIds [sec])).bind fun i => (parseSection m sec).map fun m => (i, m) := by
  obtain ⟨id, contents⟩ := sec
  by_cases hid : id = 0
  · subst hid
    rw [loadSection_custom, parseSection, sectionIds_custom]
    cases (wasmParseSection 0).run ⟨m, ⟨0, contents⟩⟩ <;> rfl
  · rw [loadSection_ordered hid, parseSection, sectionIds_ordered hid, placeBehind_singleton]
    cases findSectionIndex id index with
    | none => rfl
    | some i => cases (wasmParseSection id).run ⟨m, ⟨0, contents⟩⟩ <;> rfl

/-- The sections are loaded if they are in order and their parsers succeed. -/
theorem foldlM_loadSection (index : ℕ) (m : WasmModule) (secs : List (ℕ × List UInt8)) : secs.foldlM loadSection (index, m) =
    (placeBehind index (sectionIds secs)).bind fun i => (secs.foldlM parseSection m).map fun m => (i, m) := by
  induction secs generalizing index m with
  | nil => rfl
  | cons sec secs ih =>
    have ids : sectionIds (sec :: secs) = sectionIds [sec] ++ sectionIds secs := sectionIds_append [sec] secs
    rw [List.foldlM_cons, loadSection_eq, ids, placeBehind_append, List.foldlM_cons]
    cases placeBehind index (sectionIds [sec]) with
    | none => rfl
    | some i =>
      cases parseSection m sec with
      | none => cases hrest : placeBehind i (sectionIds secs) <;> simp [hrest]
      | some m => simp [ih]

/-- Behind the function section there is no import and no function section. -/
theorem behind_functions {A B : List (ℕ × List UInt8)} {s : ℕ × WasmModule} (h : (A ++ B).foldlM loadSection (0, {}) = some s)
    (hA : 3 ∈ A.map Prod.fst) : ∀ sec ∈ B, sec.1 ≠ 2 ∧ sec.1 ≠ 3 := by
  rw [foldlM_loadSection] at h
  obtain ⟨i, hplace, -⟩ := Option.bind_eq_some_iff.mp h
  have order : (sectionIds A ++ sectionIds B).Sublist expectedSectionOrder := by
    rw [← sectionIds_append]
    exact (placeBehind_isSome 0 _).mp (by rw [hplace, Option.isSome_some])
  have first : 3 ∈ sectionIds A := List.mem_filter.mpr ⟨hA, rfl⟩
  intro sec hsec
  by_cases hid : sec.1 = 0
  · simp [hid]
  have second : sec.1 ∈ sectionIds B := List.mem_filter.mpr ⟨List.mem_map_of_mem hsec, by simpa using hid⟩
  have pair : [3, sec.1].Sublist expectedSectionOrder :=
    ((List.singleton_sublist.mpr first).append (List.singleton_sublist.mpr second)).trans order
  constructor
  · intro h2
    rw [h2] at pair
    exact absurd pair (by decide)
  · intro h3
    rw [h3] at pair
    exact absurd pair (by decide)

/-! ### Every state of the loader -/

/-- The loader has parsed these sections, also where it fails later on. -/
inductive Loader.Reached (data : List UInt8) : List (ℕ × List UInt8) → Loader → Prop
  | start {l : Loader} (h : loaderStart data = some l) : Reached data [] l
  | turn {l l' : Loader} {secs : List (ℕ × List UInt8)} {sec : ℕ × List UInt8} {rest : Buffer} (h : Reached data secs l)
      (hpull : wasmPullSection l.buffer = some (sec, rest)) (hrun : wasmLoadSection.run l = some ((), l')) :
      Reached data (secs ++ [sec]) l'

/-- The check of the order that the loader makes for a section. -/
def Loader.InOrder (l : Loader) (sec : ℕ × List UInt8) : Prop := sec.1 = 0 ∨ (findSectionIndex sec.1 l.currentIndex).isSome

theorem inOrder_iff (l : Loader) (sec : ℕ × List UInt8) : l.InOrder sec ↔ (placeBehind l.currentIndex (sectionIds [sec])).isSome := by
  obtain ⟨id, contents⟩ := sec
  by_cases hid : id = 0
  · subst hid
    simp [Loader.InOrder, sectionIds_custom]
  · simp [Loader.InOrder, sectionIds_ordered hid, placeBehind_singleton, hid]

theorem Loader.Reached.place {data : List UInt8} {secs : List (ℕ × List UInt8)} {l : Loader} (h : Reached data secs l) :
    placeBehind 0 (sectionIds secs) = some l.currentIndex := by
  induction h with
  | start h =>
    obtain ⟨bs, -, rfl⟩ := loaderStart_eq_some.mp h
    rfl
  | turn h hpull hrun ih =>
    rw [wasmLoadSection_run, hpull, Option.bind_some, loadSection_eq] at hrun
    obtain ⟨s, hs, hl⟩ := Option.map_eq_some_iff.mp hrun
    obtain ⟨i, hplace, hparse⟩ := Option.bind_eq_some_iff.mp hs
    obtain ⟨m, hm, rfl⟩ := Option.map_eq_some_iff.mp hparse
    rw [sectionIds_append, placeBehind_append, ih, Option.bind_some, hplace, ← (Prod.mk.inj hl).2]

/-- A module is loaded exactly if its sections are in the expected order, each at most once, the parsers succeed on them in this
order, and functions come with a code section. On the way, the check of the order fails exactly for a section that does not follow
those in front of it. -/
theorem sections_ordered (data : List UInt8) :
    (∀ m, wasmLoadModule data = some m ↔ ∃ bs secs, data = magicVersion ++ bs ∧ Split bs secs ∧
      (sectionIds secs).Sublist expectedSectionOrder ∧ secs.foldlM parseSection {} = some m ∧ (0 < m.functions.length → m.code ≠ none)) ∧
    ∀ secs l, Loader.Reached data secs l → (sectionIds secs).Sublist expectedSectionOrder ∧ (sectionIds secs).Nodup ∧
      ∀ sec, l.InOrder sec ↔ (sectionIds (secs ++ [sec])).Sublist expectedSectionOrder := by
  have place (ids : List ℕ) : (placeBehind 0 ids).isSome ↔ ids.Sublist expectedSectionOrder := placeBehind_isSome 0 ids
  constructor
  · intro m
    rw [wasmLoadModule_eq_some]
    constructor
    · rintro ⟨bs, secs, index, hdata, hsplit, hfold, hcode⟩
      rw [foldlM_loadSection] at hfold
      obtain ⟨i, hplace, hparse⟩ := Option.bind_eq_some_iff.mp hfold
      obtain ⟨m', hm, he⟩ := Option.map_eq_some_iff.mp hparse
      obtain ⟨-, rfl⟩ := Prod.mk.inj he
      exact ⟨bs, secs, hdata, hsplit, (place _).mp (by rw [hplace, Option.isSome_some]), hm, hcode⟩
    · rintro ⟨bs, secs, hdata, hsplit, hsub, hparse, hcode⟩
      obtain ⟨i, hplace⟩ := Option.isSome_iff_exists.mp ((place _).mpr hsub)
      refine ⟨bs, secs, i, hdata, hsplit, ?_, hcode⟩
      rw [foldlM_loadSection, hplace, Option.bind_some, hparse, Option.map_some]
  · intro secs l hl
    have reached := hl.place
    have sub : (sectionIds secs).Sublist expectedSectionOrder := (place _).mp (by rw [reached, Option.isSome_some])
    refine ⟨sub, sub.nodup (by decide), fun sec => ?_⟩
    rw [inOrder_iff, ← place, sectionIds_append, placeBehind_append, reached, Option.bind_some]

end SpidirWasm.Wasm
