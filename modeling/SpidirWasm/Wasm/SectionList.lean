import SpidirWasm.Wasm.Load

/-! A module as the list of its sections. The loader is a fold over that list, and the
list of two pieces of bytes is the two lists behind each other. -/

namespace SpidirWasm.Wasm

open Keeping

/-! ### Readers and what stands behind them -/

/-- What a reader returns does not depend on the byte before it or on the bytes behind. -/
def Framed {α : Type} (m : Pull α) : Prop :=
  ∀ {p bs a q rest}, m ⟨p, bs⟩ = some (a, ⟨q, rest⟩) → ∀ p' tail, ∃ q', m ⟨p', bs ++ tail⟩ = some (a, ⟨q', rest ++ tail⟩)

namespace Framed

variable {α β : Type} {m : Pull α}

theorem pure (a : α) : Framed (Pure.pure a : Pull α) := by
  intro p bs b q rest h p' tail
  obtain ⟨rfl, he⟩ := Prod.mk.inj ((Checked.pure_eq_some a _ _).mp h)
  obtain ⟨-, rfl⟩ := Buffer.mk.inj he
  exact ⟨p', rfl⟩

theorem bind {f : α → Pull β} (hm : Framed m) (hf : ∀ a, Framed (f a)) : Framed (m >>= f) := by
  intro p bs b q rest h p' tail
  obtain ⟨a, ⟨q₁, rest₁⟩, h₁, h₂⟩ := (Checked.bind_eq_some _ _ _ _).mp h
  obtain ⟨q', h₁'⟩ := hm h₁ p' tail
  obtain ⟨q'', h₂'⟩ := hf a h₂ q' tail
  exact ⟨q'', (Checked.bind_eq_some _ _ _ _).mpr ⟨a, _, h₁', h₂'⟩⟩

theorem byte : Framed bufferPullU8 := by
  intro p bs a q rest h p' tail
  rcases bs with _ | ⟨b, bs⟩
  · simp [bufferPullU8] at h
  · simp only [bufferPullU8, Option.some.injEq, Prod.mk.injEq, Buffer.mk.injEq] at h
    obtain ⟨rfl, -, rfl⟩ := h
    exact ⟨b, rfl⟩

theorem bytes (n : ℕ) : Framed (bufferPull n) := by
  intro p bs a q rest h p' tail
  obtain ⟨hle, he⟩ := (bufferPull_eq_some n _ _).mp h
  simp only [Prod.mk.injEq, Buffer.mk.injEq] at he hle
  obtain ⟨rfl, -, rfl⟩ := he
  refine ⟨(bs.take n).getLast?.getD p', (bufferPull_eq_some n _ _).mpr ⟨by simp; omega, ?_⟩⟩
  simp only [List.take_append_of_le_length hle, List.drop_append_of_le_length hle]

theorem unsigned (w limit : ℕ) : Framed (pullUnsigned w limit) := by
  have loop : ∀ {bs result shift out s last rest}, lebLoop w limit result shift bs = some (out, s, last, rest) → ∀ tail,
      lebLoop w limit result shift (bs ++ tail) = some (out, s, last, rest ++ tail) := by
    intro bs
    induction bs with
    | nil => simp [lebLoop]
    | cons b bs ih =>
      intro result shift out s last rest h tail
      simp only [lebLoop, List.cons_append] at h ⊢
      split_ifs at h ⊢
      · exact ih h tail
      · simp only [Option.some.injEq, Prod.mk.injEq] at h ⊢
        exact ⟨h.1, h.2.1, h.2.2.1, congrArg (· ++ tail) h.2.2.2⟩
  intro p bs a q rest h p' tail
  simp only [pullUnsigned, Option.map_eq_some_iff, Prod.exists, Prod.mk.injEq, Buffer.mk.injEq] at h ⊢
  obtain ⟨out, s, last, r, hl, rfl, rfl, rfl⟩ := h
  exact ⟨_, _, _, _, _, loop hl tail, rfl, rfl, rfl⟩

theorem section_ : Framed wasmPullSection :=
  bind byte fun _ => bind (unsigned 32 28) fun _ => bind (bytes _) fun _ => pure _

end Framed

theorem wasmPullSection_nil {p : UInt8} {r : (ℕ × List UInt8) × Buffer} : wasmPullSection ⟨p, []⟩ ≠ some r := by
  intro h
  obtain ⟨_, _, h, -⟩ := (Checked.bind_eq_some _ _ _ _).mp h
  simp [bufferPullU8] at h

/-- A section takes at least its id. -/
theorem wasmPullSection_shrinks {b b' : Buffer} {sec : ℕ × List UInt8} (h : wasmPullSection b = some (sec, b')) :
    b'.data.length < b.data.length := by
  simp only [wasmPullSection, Checked.bind_eq_some, bufferPullU8_eq_some, bufferPull_eq_some, Prod.mk.injEq] at h
  obtain ⟨id, b₁, ⟨hid, -⟩, len, b₂, hlen, contents, b₃, ⟨-, -, rfl⟩, hp⟩ := h
  obtain ⟨-, rfl⟩ := Prod.mk.inj ((Checked.pure_eq_some _ _ _).mp hp)
  simp only [bufferPullU32, pullUnsigned, Option.map_eq_some_iff, Prod.exists, Prod.mk.injEq] at hlen
  obtain ⟨out, s, last, rest, hl, -, rfl⟩ := hlen
  obtain ⟨used, -, hused⟩ := lebLoop_suffix hl
  have := congrArg List.length hid
  have := congrArg List.length hused
  simp only [List.length_cons, List.length_append, List.length_drop] at *
  omega

/-! ### The list of sections -/

/-- Bytes that are whole sections. -/
inductive Split : List UInt8 → List (ℕ × List UInt8) → Prop
  | nil : Split [] []
  | cons {p q : UInt8} {bs rest : List UInt8} {sec : ℕ × List UInt8} {secs : List (ℕ × List UInt8)}
      (h : wasmPullSection ⟨p, bs⟩ = some (sec, ⟨q, rest⟩)) (hs : Split rest secs) : Split bs (sec :: secs)

variable {a b : List UInt8} {A B secs : List (ℕ × List UInt8)}

theorem Split.append (ha : Split a A) (hb : Split b B) : Split (a ++ b) (A ++ B) := by
  induction ha with
  | nil => exact hb
  | @cons p q bs rest sec secs h hs ih =>
    obtain ⟨q', h'⟩ := Framed.section_ h p b
    exact .cons h' ih

/-- Behind whole sections, the rest is whole sections too. -/
theorem Split.drop (ha : Split a A) (h : Split (a ++ b) secs) : ∃ B, secs = A ++ B ∧ Split b B := by
  induction ha generalizing secs with
  | nil => exact ⟨secs, rfl, h⟩
  | @cons p q bs rest sec A' hsec hs ih =>
    cases h' : bs ++ b with
    | nil =>
      obtain ⟨rfl, -⟩ := List.append_eq_nil_iff.mp h'
      exact absurd hsec wasmPullSection_nil
    | cons x xs =>
      rw [h'] at h
      cases h with
      | @cons p' q' _ rest' sec' secs' hsec' hs' =>
        obtain ⟨q'', hsec''⟩ := Framed.section_ hsec p' b
        rw [h', hsec'] at hsec''
        obtain ⟨rfl, he⟩ := Prod.mk.inj (Option.some.inj hsec'')
        obtain ⟨-, rfl⟩ := Buffer.mk.inj he
        obtain ⟨B, rfl, hB⟩ := ih hs'
        exact ⟨B, rfl, hB⟩

/-! ### The loader as a fold -/

/-- The place and the module behind one more section. -/
def loadSection (s : ℕ × WasmModule) (sec : ℕ × List UInt8) : Option (ℕ × WasmModule) := do
  let index ← if sec.1 = 0 then some s.1 else (findSectionIndex sec.1 s.1).map (· + 1)
  let (_, t) ← (wasmParseSection sec.1).run ⟨s.2, ⟨0, sec.2⟩⟩
  return (index, t.module)

theorem loadSection_custom (index : ℕ) (m : WasmModule) (contents : List UInt8) : loadSection (index, m) (0, contents) =
    ((wasmParseSection 0).run ⟨m, ⟨0, contents⟩⟩).map fun r => (index, r.2.module) := by
  rcases hr : (wasmParseSection 0).run ⟨m, ⟨0, contents⟩⟩ with _ | ⟨_, t⟩ <;> simp [loadSection, hr]

theorem loadSection_ordered {id : ℕ} (hid : id ≠ 0) (index : ℕ) (m : WasmModule) (contents : List UInt8) :
    loadSection (index, m) (id, contents) = (findSectionIndex id index).bind fun p =>
      ((wasmParseSection id).run ⟨m, ⟨0, contents⟩⟩).map fun r => (p + 1, r.2.module) := by
  rcases hp : findSectionIndex id index with _ | p
  · simp [loadSection, hid, hp]
  · rcases hr : (wasmParseSection id).run ⟨m, ⟨0, contents⟩⟩ with _ | ⟨_, t⟩ <;> simp [loadSection, hid, hp, hr]

theorem parseContents_run (contents : List UInt8) (x : Load Unit) (l : Loader) :
    (parseContents contents x).run l = (x.run ⟨l.module, ⟨0, contents⟩⟩).map fun r => (r.1, { l with module := r.2.module }) :=
  run_zoom _ _ _ _

theorem wasmLoadSection_run (l : Loader) : wasmLoadSection.run l = (wasmPullSection l.buffer).bind fun r =>
    (loadSection (l.currentIndex, l.module) r.1).map fun s => ((), ⟨s.2, r.2, s.1⟩) := by
  rcases hp : wasmPullSection l.buffer with _ | ⟨⟨id, contents⟩, buffer⟩
  · simp [wasmLoadSection, hp]
  · by_cases hid : id = 0
    · subst hid
      rcases hr : (wasmParseSection 0).run ⟨l.module, ⟨0, contents⟩⟩ with _ | ⟨_, t⟩ <;>
        simp [wasmLoadSection, hp, parseContents_run, loadSection, hr]
    · rcases hi : findSectionIndex id l.currentIndex with _ | index
      · simp [wasmLoadSection, hp, hid, hi, loadSection]
      · rcases hr : (wasmParseSection id).run ⟨l.module, ⟨0, contents⟩⟩ with _ | ⟨_, t⟩ <;>
          simp [wasmLoadSection, hp, hid, hi, parseContents_run, loadSection, hr]

theorem wasmLoadSections_run_nil {fuel : ℕ} {l : Loader} (hnil : l.buffer.data = []) :
    (wasmLoadSections fuel).run l = some ((), l) := by
  cases fuel <;> simp [wasmLoadSections, hnil]

theorem wasmLoadSections_run_succ {fuel : ℕ} {l : Loader} (hne : l.buffer.data ≠ []) :
    (wasmLoadSections (fuel + 1)).run l = (wasmPullSection l.buffer).bind fun r =>
      (loadSection (l.currentIndex, l.module) r.1).bind fun s => (wasmLoadSections fuel).run ⟨s.2, r.2, s.1⟩ := by
  have hlen : l.buffer.data.length ≠ 0 := fun h => hne (List.length_eq_zero_iff.mp h)
  simp only [wasmLoadSections, run_bind, run_read, Option.bind_some, ne_eq, hlen, not_false_eq_true, if_true, wasmLoadSection_run,
    Option.bind_assoc, Option.bind_map, Function.comp_def]

theorem wasmLoadSections_iff_nil {fuel : ℕ} {l : Loader} (hnil : l.buffer.data = []) {r : ℕ × WasmModule} :
    (∃ l', (wasmLoadSections fuel).run l = some ((), l') ∧ (l'.currentIndex, l'.module) = r) ↔
      ∃ secs, Split l.buffer.data secs ∧ secs.foldlM loadSection (l.currentIndex, l.module) = some r := by
  rw [wasmLoadSections_run_nil hnil, hnil]
  constructor
  · rintro ⟨l', h, rfl⟩
    obtain ⟨-, rfl⟩ := Prod.mk.inj (Option.some.inj h)
    exact ⟨[], .nil, rfl⟩
  · rintro ⟨secs, hs, hr⟩
    cases hs with
    | nil => exact ⟨l, rfl, Option.some.inj hr⟩
    | cons h => exact absurd h wasmPullSection_nil

/-- The section loop reads the list of sections to its end. -/
theorem wasmLoadSections_run {fuel : ℕ} {l : Loader} (hfuel : l.buffer.data.length ≤ fuel) {r : ℕ × WasmModule} :
    (∃ l', (wasmLoadSections fuel).run l = some ((), l') ∧ (l'.currentIndex, l'.module) = r) ↔
      ∃ secs, Split l.buffer.data secs ∧ secs.foldlM loadSection (l.currentIndex, l.module) = some r := by
  induction fuel generalizing l with
  | zero =>
    have hnil : l.buffer.data = [] := List.length_eq_zero_iff.mp (by omega)
    exact wasmLoadSections_iff_nil hnil
  | succ fuel ih =>
    by_cases hnil : l.buffer.data = []
    · exact wasmLoadSections_iff_nil hnil
    rw [wasmLoadSections_run_succ hnil]
    constructor
    · rintro ⟨l', h, hr⟩
      obtain ⟨⟨sec, rest⟩, hp, h⟩ := Option.bind_eq_some_iff.mp h
      obtain ⟨s, hs, h⟩ := Option.bind_eq_some_iff.mp h
      have hlt := wasmPullSection_shrinks hp
      obtain ⟨secs, hsecs, hfold⟩ := (ih (l := ⟨s.2, rest, s.1⟩) (by simp only; omega)).mp ⟨l', h, hr⟩
      exact ⟨sec :: secs, .cons hp hsecs, by simpa only [List.foldlM_cons, hs, Option.bind_eq_bind, Option.bind_some] using hfold⟩
    · rintro ⟨secs, hsecs, hfold⟩
      obtain ⟨m, ⟨p, bs⟩, index⟩ := l
      cases hsecs with
      | nil => exact absurd rfl hnil
      | @cons _ _ _ rest sec secs hsec hs =>
        obtain ⟨q, hp⟩ := Framed.section_ hsec p []
        simp only [List.append_nil] at hp
        have hlt := wasmPullSection_shrinks hp
        obtain ⟨s, hload, hfold⟩ := Option.bind_eq_some_iff.mp hfold
        obtain ⟨l', h, hr⟩ := (ih (l := ⟨s.2, ⟨q, rest⟩, s.1⟩) (by simp only at hlt hfuel ⊢; omega)).mpr ⟨secs, hs, hfold⟩
        exact ⟨l', by simp only [hp, hload, Option.bind_some, h], hr⟩

/-- The bytes in front of the sections. -/
def magicVersion : List UInt8 := [0x00, 0x61, 0x73, 0x6D, 0x01, 0x00, 0x00, 0x00]

theorem loaderStart_eq_some {data : List UInt8} {l : Loader} :
    loaderStart data = some l ↔ ∃ bs, data = magicVersion ++ bs ∧ l = { buffer := ⟨0, bs⟩ } := by
  simp only [loaderStart, modulePullMagicVersion, Option.map_eq_some_iff, Checked.bind_eq_some, Checked.check_eq_some,
    bufferPull_eq_some, Prod.exists, Prod.mk.injEq]
  constructor
  · rintro ⟨_, _, ⟨_, _, ⟨-, rfl, rfl⟩, hmagic, -, rfl⟩, rfl⟩
    refine ⟨data.drop 8, ?_, ?_⟩
    · rw [magicVersion, ← hmagic, List.take_append_drop]
    · rw [hmagic]
      rfl
  · rintro ⟨bs, rfl, rfl⟩
    exact ⟨(), _, ⟨_, _, ⟨by simp [magicVersion], rfl, rfl⟩, by simp [magicVersion], trivial, rfl⟩, by simp [magicVersion]⟩

theorem wasmLoadModule_run (data : List UInt8) : wasmLoadModule data = (loaderStart data).bind fun start =>
    (wasmLoadModuleRun.run start).map fun r => r.2.module := by
  rcases h : loaderStart data with _ | start
  · simp [wasmLoadModule, h]
  · rcases hr : wasmLoadModuleRun start with ⟨⟨⟩ | _ | _, l, seen⟩ <;> simp [wasmLoadModule, h, run, hr, Ending.result]

/-- A module is loaded from its sections, which are parsed in order. -/
theorem wasmLoadModule_eq_some {data : List UInt8} {m : WasmModule} : wasmLoadModule data = some m ↔
    ∃ bs secs index, data = magicVersion ++ bs ∧ Split bs secs ∧ secs.foldlM loadSection (0, {}) = some (index, m) ∧
      (0 < m.functions.length → m.code ≠ none) := by
  simp only [wasmLoadModule_run, Option.bind_eq_some_iff, loaderStart_eq_some]
  constructor
  · rintro ⟨_, ⟨bs, rfl, rfl⟩, h⟩
    obtain ⟨⟨_, l⟩, hrun, rfl⟩ := Option.map_eq_some_iff.mp h
    simp only [wasmLoadModuleRun, run_bind, run_read, Option.bind_some] at hrun
    obtain ⟨⟨_, l'⟩, hsecs, hcheck⟩ := Option.bind_eq_some_iff.mp hrun
    rw [run_check] at hcheck
    split_ifs at hcheck with hcode
    obtain ⟨-, rfl⟩ := Prod.mk.inj (Option.some.inj hcheck)
    obtain ⟨secs, hsplit, hfold⟩ := (wasmLoadSections_run (l := { buffer := ⟨0, bs⟩ }) (Nat.le_refl _)).mp ⟨l', hsecs, rfl⟩
    exact ⟨bs, secs, l'.currentIndex, rfl, hsplit, hfold, hcode⟩
  · rintro ⟨bs, secs, index, rfl, hsecs, hfold, hcode⟩
    obtain ⟨l, hrun, hl⟩ := (wasmLoadSections_run (l := { buffer := ⟨0, bs⟩ }) (Nat.le_refl _)).mpr ⟨secs, hsecs, hfold⟩
    obtain ⟨-, rfl⟩ := Prod.mk.inj hl
    refine ⟨_, ⟨bs, rfl, rfl⟩, Option.map_eq_some_iff.mpr ⟨((), l), ?_, rfl⟩⟩
    simp only [wasmLoadModuleRun, run_bind, run_read, Option.bind_some, hrun, run_check, if_pos hcode]

end SpidirWasm.Wasm
