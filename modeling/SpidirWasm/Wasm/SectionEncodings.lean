import SpidirWasm.Host.Growth
import SpidirWasm.Wasm.EntryFormat

/-! The type, element and memory sections against their format: what a parser yields from
the encodings of a list, and what it accepts beside them. -/

namespace SpidirWasm.Wasm

open Keeping

variable {m m' : WasmModule} {b b' : Buffer} {bs : List UInt8}

/-- On these contents the parser turns the module `m` into `m'`. -/
def Yields (parse : Load Unit) (bs : List UInt8) (m m' : WasmModule) : Prop :=
  ∃ b, parse.run ⟨m, ⟨0, bs⟩⟩ = some ((), ⟨m', b⟩)

/-! ### Types -/

/-- An `int` counts the types, and the parameters and the results of each. -/
def TypesCountable (types : List FuncType) : Prop := types.length < 2 ^ 31 ∧ ∀ t ∈ types, t.Countable

theorem typeSection_yields_iff : Yields wasmParseTypeSection bs m m' ↔
    ∃ types, (types ≠ [] ∧ (∀ t ∈ types, t.Ok) ∧ TypesCountable types) ∧ Whole (typeSectionTokens types) bs ∧ m' = { m with types } := by
  simp only [Yields, wasmParseTypeSection_run, @whole_iff _ _ 0, Prod.mk.injEq, true_and, LoadState.mk.injEq]
  constructor
  · rintro ⟨b, types, b', hne, hcount, hok, htaken, hend, rfl, rfl⟩
    exact ⟨types, ⟨hne, fun t ht => (hok t ht).1, hcount, fun t ht => (hok t ht).2⟩, ⟨b, htaken, hend⟩, rfl⟩
  · rintro ⟨types, ⟨hne, hok, hcount, hcounts⟩, ⟨b, htaken, hend⟩, rfl⟩
    exact ⟨b, types, b, hne, hcount, fun t ht => ⟨hok t ht, hcounts t ht⟩, htaken, hend, rfl, rfl⟩

/-- The type section yields every list from its encodings, and accepts nothing else,
unless it encodes the empty list, a vector that is too long for an `int`, or a count with
bits beyond its width: the check of the count of the types asks for a byte more than it
needs, and the loops overflow. -/
theorem typeSection_encodings_iff (m : WasmModule) (bs : List UInt8) :
    ((∀ types : List FuncType, (∀ t ∈ types, t.Ok) → Encodes (typeSectionTokens types) bs →
        Yields wasmParseTypeSection bs m { m with types }) ∧
      ∀ m', Yields wasmParseTypeSection bs m m' → m' = { m with types := m'.types } ∧ Encodes (typeSectionTokens m'.types) bs) ↔
    ¬Encodes (typeSectionTokens []) bs ∧
      (∀ types : List FuncType, (∀ t ∈ types, t.Ok) → Encodes (typeSectionTokens types) bs → TypesCountable types) ∧
      ∀ types : List FuncType, types ≠ [] → (∀ t ∈ types, t.Ok) → TypesCountable types → Plain (typeSectionTokens types) bs := by
  have yields : ∀ types : List FuncType, Yields wasmParseTypeSection bs m { m with types } ↔
      (types ≠ [] ∧ (∀ t ∈ types, t.Ok) ∧ TypesCountable types) ∧ Whole (typeSectionTokens types) bs := by
    intro types
    rw [typeSection_yields_iff]
    constructor
    · rintro ⟨types', haccepts, hwhole, he⟩
      obtain rfl : types = types' := congrArg WasmModule.types he
      exact ⟨haccepts, hwhole⟩
    · rintro ⟨haccepts, hwhole⟩
      exact ⟨types, haccepts, hwhole, rfl⟩
  have sound : (∀ m', Yields wasmParseTypeSection bs m m' → m' = { m with types := m'.types } ∧ Encodes (typeSectionTokens m'.types) bs) ↔
      ∀ types, Yields wasmParseTypeSection bs m { m with types } → Encodes (typeSectionTokens types) bs := by
    constructor
    · intro h types hy
      exact (h _ hy).2
    · intro h m' hy
      obtain ⟨types, -, -, rfl⟩ := typeSection_yields_iff.mp hy
      exact ⟨rfl, h types hy⟩
  rw [sound, yields_encodings_iff yields, ← and_assoc]
  refine and_congr ⟨fun h => ⟨fun hempty => ?_, fun types hok htypes => ?_⟩, fun h types hok htypes => ⟨?_, hok, ?_⟩⟩
    (forall_congr' fun types => by rw [and_imp, and_imp])
  · exact (h [] (by simp) hempty).1 rfl
  · exact (h types hok htypes).2.2
  · rintro rfl
    exact h.1 htypes
  · exact h.2 types hok htypes

/-- The encoding of no types is rejected. -/
theorem typeSection_rejects_empty : Encodes (typeSectionTokens []) [0x00] ∧ ∀ m', ¬Yields wasmParseTypeSection [0x00] {} m' := by
  have zero : Leb128.Unsigned 32 [0x00] (0x00 : UInt8).toNat := .last (by decide) (by decide)
  refine ⟨⟨[[0x00]], .cons zero .nil, rfl⟩, ?_⟩
  rintro m' ⟨b, h⟩
  have rejected : wasmParseTypeSection.run ⟨{}, ⟨0, [0x00]⟩⟩ = none := by rfl
  rw [rejected] at h
  cases h

/-! ### Elements -/

def elementSectionTokens (segs : List ElemSegment) : List Token := .u32 segs.length :: segs.flatMap elementTokens

/-- As many segments as an `int` counts, each in range. -/
def InRange (m : WasmModule) (segs : List ElemSegment) : Prop := segs.length < 2 ^ 31 ∧ ∀ e ∈ segs, e.InRange m

/-- The tokens up to the indices of the last segment. -/
def lastHead (init : List ElemSegment) (last : ElemSegment) : List Token :=
  .u32 (init ++ [last]).length :: (init.flatMap elementTokens ++ elementHead last)

/-- If there is a last segment, one of its indices takes more than a byte. -/
def LongIndex (segs : List ElemSegment) (bs : List UInt8) : Prop :=
  ∀ init last head indices, segs = init ++ [last] → List.Forall₂ Token.Read (lastHead init last) head →
    List.Forall₂ Token.Read (last.funcs.map .u32) indices → bs = head.flatten ++ indices.flatten → ∃ p ∈ indices, 1 < p.length

/-- Behind the count of the last segment there are more bytes than indices. -/
def RoomFor (segs : List ElemSegment) (bs : List UInt8) : Prop :=
  ∀ init last c, segs = init ++ [last] → Taken (lastHead init last) ⟨0, bs⟩ c → last.funcs.length < c.data.length

theorem length_lt_flatten_iff {pieces : List (List UInt8)} (h : ∀ p ∈ pieces, p ≠ []) :
    pieces.length < pieces.flatten.length ↔ ∃ p ∈ pieces, 1 < p.length := by
  have le : ∀ {pieces : List (List UInt8)}, (∀ p ∈ pieces, p ≠ []) → pieces.length ≤ pieces.flatten.length := by
    intro pieces
    induction pieces with
    | nil => simp
    | cons p pieces ih =>
      intro h
      obtain ⟨hp, hpieces⟩ := List.forall_mem_cons.mp h
      have pos := List.length_pos_iff.mpr hp
      have rest := ih hpieces
      rw [List.flatten_cons, List.length_append, List.length_cons]
      omega
  induction pieces with
  | nil => simp
  | cons p pieces ih =>
    obtain ⟨hp, hpieces⟩ := List.forall_mem_cons.mp h
    have pos := List.length_pos_iff.mpr hp
    have rest := le hpieces
    have split : (∃ q ∈ p :: pieces, 1 < q.length) ↔ 1 < p.length ∨ pieces.length < pieces.flatten.length := by
      simp only [List.mem_cons, exists_eq_or_imp, ih hpieces]
    rw [split, List.flatten_cons, List.length_append, List.length_cons]
    omega

theorem pieces_ne_nil {funcs : List ℕ} {pieces : List (List UInt8)} (h : List.Forall₂ Token.Read (funcs.map .u32) pieces) :
    ∀ p ∈ pieces, p ≠ [] := by
  induction funcs generalizing pieces with
  | nil =>
    cases h
    simp
  | cons f funcs ih =>
    cases h with
    | cons hp hpieces => exact List.forall_mem_cons.mpr ⟨hp.ne_nil trivial, ih hpieces⟩

/-- The two say the same of bytes that are read to the end. -/
theorem roomFor_iff {segs : List ElemSegment} (h : Whole (elementSectionTokens segs) bs) : RoomFor segs bs ↔ LongIndex segs bs := by
  constructor
  · rintro hroom init last head indices rfl hhead hindices rfl
    have room := hroom init last ⟨_, indices.flatten⟩ rfl (taken_iff.mpr ⟨head, hhead, rfl, rfl⟩)
    have count := hindices.length_eq
    rw [List.length_map] at count
    rw [count] at room
    exact (length_lt_flatten_iff (pieces_ne_nil hindices)).mp room
  · rintro hlong init last c rfl hc
    obtain ⟨b', htaken, hend⟩ := (whole_iff (p := 0)).mp h
    have split : elementSectionTokens (init ++ [last]) = lastHead init last ++ last.funcs.map .u32 := by
      simp [elementSectionTokens, lastHead, elementTokens]
    rw [split] at htaken
    obtain ⟨c', hc', hb'⟩ := Path.append_iff.mp htaken
    obtain rfl := Taken.unique hc hc'
    obtain ⟨head, hhead, hdata, -⟩ := taken_iff.mp hc
    obtain ⟨indices, hindices, hdata', -⟩ := taken_iff.mp hb'
    rw [hend, List.append_nil] at hdata'
    have count := hindices.length_eq
    rw [List.length_map] at count
    rw [hdata', count]
    exact (length_lt_flatten_iff (pieces_ne_nil hindices)).mpr (hlong init last head indices rfl hhead hindices (hdata' ▸ hdata))

theorem indices_room {funcs : List ℕ} (h : Taken (funcs.map .u32) b b') : b'.data.length + funcs.length ≤ b.data.length := by
  have long : ∀ t ∈ funcs.map Token.u32, t.Long := by simp [Token.Long]
  simpa using Taken.length_le long h

/-- In front of another byte every segment has room. -/
theorem elementEntries_taken {segs : List ElemSegment} (hb' : 0 < b'.data.length) :
    Path (ElementEntry m) segs b b' ↔ (∀ e ∈ segs, e.InRange m) ∧ Taken (segs.flatMap elementTokens) b b' := by
  induction segs generalizing b with
  | nil => simp
  | cons e segs ih =>
    simp only [Path.cons_iff, ih, List.flatMap_cons, Path.append_iff, List.forall_mem_cons, elementTokens]
    constructor
    · rintro ⟨u, ⟨hrange, c, hc, -, hu⟩, hsegs, htaken⟩
      exact ⟨⟨hrange, hsegs⟩, u, ⟨c, hc, hu⟩, htaken⟩
    · rintro ⟨⟨hrange, hsegs⟩, u, ⟨c, hc, hu⟩, htaken⟩
      have room := indices_room hu
      have rest := Taken.le htaken
      exact ⟨u, ⟨hrange, c, hc, by omega, hu⟩, hsegs, htaken⟩

/-- The last segment needs room of its own. -/
theorem elementEntries_iff {segs : List ElemSegment} : Entries (ElementEntry m) segs b b' ↔
    InRange m segs ∧ (Taken (segs.flatMap elementTokens) b b' ∧ b'.data = []) ∧ ∀ init last c, segs = init ++ [last] →
      Taken (init.flatMap elementTokens ++ elementHead last) b c → last.funcs.length < c.data.length := by
  rcases segs.eq_nil_or_concat with rfl | ⟨init, last, rfl⟩
  · simp [Entries, InRange]
  simp only [List.concat_eq_append, Entries, InRange, Path.append_iff, Path.single_iff, List.forall_mem_append,
    List.forall_mem_singleton, List.flatMap_append, List.flatMap_singleton, elementTokens]
  constructor
  · rintro ⟨⟨v, hinit, hlast, c, hc, hroom, hb'⟩, hcount, hend⟩
    have more : 0 < v.data.length := (Nat.zero_lt_succ _).trans_le (Taken.shorter hc trivial)
    obtain ⟨hrange, htaken⟩ := (elementEntries_taken more).mp hinit
    refine ⟨⟨hcount, hrange, hlast⟩, ⟨⟨v, htaken, c, hc, hb'⟩, hend⟩, ?_⟩
    rintro init' last' c' he ⟨v', hv', hc'⟩
    obtain ⟨rfl, rfl⟩ := List.append_singleton_inj.mp he
    obtain rfl := Taken.unique htaken hv'
    obtain rfl := Taken.unique hc hc'
    exact hroom
  · rintro ⟨⟨hcount, hrange, hlast⟩, ⟨⟨v, htaken, c, hc, hb'⟩, hend⟩, hroom⟩
    have more : 0 < v.data.length := (Nat.zero_lt_succ _).trans_le (Taken.shorter hc trivial)
    exact ⟨⟨v, (elementEntries_taken more).mpr ⟨hrange, htaken⟩, hlast, c, hc, hroom init last c rfl ⟨v, htaken, hc⟩, hb'⟩, hcount, hend⟩

theorem elementSection_yields_iff : Yields wasmParseElementSection bs m m' ↔
    ∃ segs, (InRange m segs ∧ LongIndex segs bs) ∧ Whole (elementSectionTokens segs) bs ∧ m' = { m with elems := segs } := by
  have room : ∀ segs, (InRange m segs ∧ LongIndex segs bs) ∧ Whole (elementSectionTokens segs) bs ↔
      (InRange m segs ∧ RoomFor segs bs) ∧ Whole (elementSectionTokens segs) bs :=
    fun segs => and_congr_left fun h => by rw [roomFor_iff h]
  simp only [← and_assoc (c := m' = _), room]
  simp only [Yields, wasmParseElementSection_run, @whole_iff _ _ 0, elementEntries_iff, Prod.mk.injEq, true_and, LoadState.mk.injEq,
    Path.single_iff]
  constructor
  · rintro ⟨b, segs, u, hu, b', ⟨hrange, ⟨htaken, hend⟩, hroom⟩, rfl, rfl⟩
    refine ⟨segs, ⟨⟨hrange, ?_⟩, ⟨b, ⟨u, hu, htaken⟩, hend⟩⟩, rfl⟩
    rintro init last c rfl ⟨u', hu', hc⟩
    obtain rfl := Taken.unique (Path.single_iff.mpr hu) (Path.single_iff.mpr hu')
    exact hroom init last c rfl hc
  · rintro ⟨segs, ⟨⟨hrange, hroom⟩, ⟨b, ⟨u, hu, htaken⟩, hend⟩⟩, rfl⟩
    refine ⟨b, segs, u, hu, b, ⟨hrange, ⟨htaken, hend⟩, ?_⟩, rfl, rfl⟩
    rintro init last c rfl hc
    exact hroom init last c rfl ⟨u, hu, hc⟩

/-- The element section yields every list from its encodings, and accepts nothing else,
when the last segment of what it reads has an index of more than a byte, the indices are
below the 32-bit sum that they are compared with, an `int` counts the segments and the
functions of each, and no integer has bits beyond its width: the check of the count asks
for a byte more than it needs. -/
theorem elementSection_encodings_iff (m : WasmModule) (bs : List UInt8) :
    ((∀ segs : List ElemSegment, (∀ e ∈ segs, e.Ok m.totalFuncs) → Encodes (elementSectionTokens segs) bs →
        Yields wasmParseElementSection bs m { m with elems := segs }) ∧
      ∀ m', Yields wasmParseElementSection bs m m' → m' = { m with elems := m'.elems } ∧ Encodes (elementSectionTokens m'.elems) bs) ↔
    (∀ segs : List ElemSegment, (∀ e ∈ segs, e.Ok m.totalFuncs) → Encodes (elementSectionTokens segs) bs →
        InRange m segs ∧ LongIndex segs bs) ∧
      ∀ segs, InRange m segs → LongIndex segs bs → Plain (elementSectionTokens segs) bs := by
  have yields : ∀ segs : List ElemSegment, Yields wasmParseElementSection bs m { m with elems := segs } ↔
      (InRange m segs ∧ LongIndex segs bs) ∧ Whole (elementSectionTokens segs) bs := by
    intro segs
    rw [elementSection_yields_iff]
    constructor
    · rintro ⟨segs', haccepts, hwhole, he⟩
      obtain rfl : segs = segs' := congrArg WasmModule.elems he
      exact ⟨haccepts, hwhole⟩
    · rintro ⟨haccepts, hwhole⟩
      exact ⟨segs, haccepts, hwhole, rfl⟩
  have sound : (∀ m', Yields wasmParseElementSection bs m m' → m' = { m with elems := m'.elems } ∧
      Encodes (elementSectionTokens m'.elems) bs) ↔
      ∀ segs, Yields wasmParseElementSection bs m { m with elems := segs } → Encodes (elementSectionTokens segs) bs := by
    constructor
    · intro h segs hy
      exact (h _ hy).2
    · intro h m' hy
      obtain ⟨segs, -, -, rfl⟩ := elementSection_yields_iff.mp hy
      exact ⟨rfl, h segs hy⟩
  rw [sound, yields_encodings_iff yields]
  exact and_congr_right fun _ => forall_congr' fun segs => and_imp

/-- A byte below 128 spells itself. -/
theorem byte_spelled {x : UInt8} (hx : x.toNat < 128) : (Token.u32 x.toNat).Spelled [x] ∧ (Token.u64 x.toNat).Spelled [x] :=
  ⟨.last hx (hx.trans (by decide)), .last hx (hx.trans (by decide))⟩

/-- A last segment of the function 0, in one byte, is rejected. -/
theorem elementSection_rejects_last : ∃ m : WasmModule, (∀ e ∈ [(⟨0, 0, [0]⟩ : ElemSegment)], e.Ok m.totalFuncs) ∧
    Encodes (elementSectionTokens [⟨0, 0, [0]⟩]) [0x01, 0x00, 0x41, 0x00, 0x0B, 0x01, 0x00] ∧
    ∀ m', ¬Yields wasmParseElementSection [0x01, 0x00, 0x41, 0x00, 0x0B, 0x01, 0x00] m m' := by
  refine ⟨{ types := [{}], functions := [0] }, ?_, ⟨[[0x01], [0x00], [0x41], [0x00], [0x0B], [0x01], [0x00]], ?_, rfl⟩, ?_⟩
  · intro e he
    obtain rfl := List.mem_singleton.mp he
    exact ⟨rfl, by decide, by decide⟩
  · have unsigned : ∀ x : UInt8, x.toNat < 128 → (Token.u32 x.toNat).Spelled [x] := fun x hx => (byte_spelled hx).1
    have offset : (Token.i32 0).Spelled [0x00] := ⟨0, Leb128.Signed.pos (b := 0x00) (by decide) (by decide), by decide⟩
    exact .cons (unsigned 0x01 (by decide)) (.cons (unsigned 0x00 (by decide)) (.cons rfl (.cons offset (.cons rfl
      (.cons (unsigned 0x01 (by decide)) (.cons (unsigned 0x00 (by decide)) .nil))))))
  · rintro m' ⟨b, h⟩
    have rejected : wasmParseElementSection.run ⟨{ types := [{}], functions := [0] },
      ⟨0, [0x01, 0x00, 0x41, 0x00, 0x0B, 0x01, 0x00]⟩⟩ = none := by rfl
    rw [rejected] at h
    cases h

/-! ### Memory -/

/-- A memory section with one entry. Behind a flag that stands for no limits there may be
anything. -/
def memorySectionTokens (flag : UInt8) (min max : ℕ) (rest : List UInt8) : List Token :=
  .u32 1 :: .raw [flag] :: if flag = 0 then [.u64 min] else if flag = 1 ∨ flag = 3 then [.u64 min, .u64 max] else [.raw rest]

/-- The maximum in pages, as the format has it: without one it is 4 GiB. -/
def declaredMax (flag : UInt8) (max : ℕ) : ℕ := if flag = 0 then 65536 else max

/-- The maximum as the parser has it. -/
def parsedMax (flag : UInt8) (max : ℕ) : ℕ := if flag = 0 then implicitMax else max

theorem u64_unique {v v' : ℕ} {c : Buffer} (h : (Token.u64 v).Takes b b') (h' : (Token.u64 v').Takes b c) : v = v' ∧ b' = c := by
  rw [← bufferPullU64_iff] at h h'
  exact Prod.mk.inj (Option.some.inj (h.symm.trans h'))

theorem raw_byte_unique {x y : UInt8} {c : Buffer} (h : (Token.raw [x]).Takes b b') (h' : (Token.raw [y]).Takes b c) : x = y ∧ b' = c := by
  rw [← bufferPullU8_iff] at h h'
  exact Prod.mk.inj (Option.some.inj (h.symm.trans h'))

variable {flag : UInt8} {min max : ℕ} {rest : List UInt8}

theorem limits_tokens (hflag : LimitFlag flag) :
    (if flag = 0 then [.u64 min] else if flag = 1 ∨ flag = 3 then [.u64 min, .u64 max] else [.raw rest]) =
      Token.u64 min :: if flag = 0 then [] else [.u64 max] := by
  rcases hflag with rfl | rfl | rfl <;> rfl

theorem memorySection_yields_iff (h : Encodes (memorySectionTokens flag min max rest) bs) : Yields wasmParseMemorySection bs m m' ↔
    LimitFlag flag ∧ min ≤ parsedMax flag max ∧ parsedMax flag max ≤ 65536 ∧
      m' = { m with memory := ⟨min * pageSize, parsedMax flag max * pageSize, flag = 0x03⟩ } := by
  obtain ⟨d, htaken, hend⟩ := (whole_iff (p := 0)).mp h.whole
  obtain ⟨u, hu, v, hv, hrest⟩ := htaken
  simp only [Yields, wasmParseMemorySection_run, Prod.mk.injEq, true_and, LoadState.mk.injEq]
  constructor
  · rintro ⟨b, flag', min', max', b', hflag, hmax, ⟨u', hu', v', hv', w', hw', hd'⟩, hend', hle, h4, rfl, rfl⟩
    obtain rfl := Taken.unique (Path.single_iff.mpr hu) (Path.single_iff.mpr hu')
    obtain ⟨rfl, rfl⟩ := raw_byte_unique hv hv'
    rw [limits_tokens hflag] at hrest
    obtain ⟨w, hw, hd⟩ := hrest
    obtain ⟨rfl, rfl⟩ := u64_unique hw hw'
    have same : max' = parsedMax flag max := by
      rw [parsedMax]
      split_ifs with h0
      · exact hmax h0
      · rw [if_neg h0] at hd hd'
        exact (u64_unique (Path.single_iff.mp hd') (Path.single_iff.mp hd)).1
    subst same
    exact ⟨hflag, hle, h4, rfl⟩
  · rintro ⟨hflag, hle, h4, rfl⟩
    rw [limits_tokens hflag] at hrest
    refine ⟨d, flag, min, parsedMax flag max, d, hflag, fun h0 => if_pos h0, ⟨u, hu, v, hv, ?_⟩, hend, hle, h4, rfl, rfl⟩
    obtain ⟨w, hw, hd⟩ := hrest
    refine ⟨w, hw, ?_⟩
    rw [parsedMax]
    split_ifs at hd ⊢ with h0
    · exact hd
    · exact hd

/-- The memory section follows the format exactly where there is a maximum, or a minimum
that is rejected either way: a memory without a maximum gets 65534 pages, not 65536. -/
theorem memorySection_limits_iff (m : WasmModule) (h : Encodes (memorySectionTokens flag min max rest) bs) :
    (((∃ m', Yields wasmParseMemorySection bs m m') ↔ LimitFlag flag ∧ min ≤ declaredMax flag max ∧ declaredMax flag max ≤ 65536) ∧
      (∀ m', Yields wasmParseMemorySection bs m m' →
        m' = { m with memory := ⟨min * pageSize, declaredMax flag max * pageSize, flag = 0x03⟩ } ∧
        (flag = 0 → ∀ s : Host.Runtime, s.Ok → s.module.memory = m'.memory →
          ∃ n, (Host.wasmHostMemoryGrow n true s).2.size = 2 ^ 32))) ↔
    flag ≠ 0 ∨ 65536 < min := by
  simp only [memorySection_yields_iff h]
  by_cases h0 : flag = 0
  · subst h0
    have implicit : parsedMax 0 max = 65534 := rfl
    have declared : declaredMax 0 max = 65536 := rfl
    have zero : LimitFlag 0 := .inl rfl
    simp only [implicit, declared, zero, true_and, ne_eq, not_true, false_or]
    constructor
    · rintro ⟨haccept, hvalue⟩
      by_contra hmin
      obtain ⟨m', hle, -, -⟩ := haccept.mpr ⟨by omega, le_rfl⟩
      obtain ⟨he, -⟩ := hvalue _ ⟨hle, by decide, rfl⟩
      have same := congrArg (fun m : WasmModule => m.memory.max) he
      simp only [pageSize] at same
      omega
    · intro hmin
      refine ⟨⟨?_, fun h => by omega⟩, fun m' h => by omega⟩
      rintro ⟨_, hle, -⟩
      omega
  · have parsed : parsedMax flag max = max := if_neg h0
    have declared : declaredMax flag max = max := if_neg h0
    simp only [parsed, declared, h0, ne_eq, not_false_eq_true, true_or, iff_true, false_imp_iff, and_true]
    refine ⟨⟨?_, ?_⟩, ?_⟩
    · rintro ⟨_, hflag, hle, h4, -⟩
      exact ⟨hflag, hle, h4⟩
    · rintro ⟨hflag, hle, h4⟩
      exact ⟨_, hflag, hle, h4, rfl⟩
    · rintro m' ⟨-, -, -, rfl⟩
      rfl

/-- A memory of one page that may have four. -/
theorem memorySection_limits_four : ∃ m', Yields wasmParseMemorySection [0x01, 0x01, 0x01, 0x04] {} m' ∧
    m'.memory = ⟨65536, 262144, false⟩ := by
  have encodes : Encodes (memorySectionTokens 1 1 4 []) [0x01, 0x01, 0x01, 0x04] :=
    ⟨[[0x01], [0x01], [0x01], [0x04]], .cons (@byte_spelled 1 (by decide)).1 (.cons rfl (.cons (@byte_spelled 1 (by decide)).2
      (.cons (@byte_spelled 4 (by decide)).2 .nil))), rfl⟩
  obtain ⟨accepts, values⟩ := (memorySection_limits_iff {} encodes).mpr (.inl (by decide))
  obtain ⟨m', hm'⟩ := accepts.mpr ⟨.inr (.inl rfl), by decide, by decide⟩
  exact ⟨m', hm', by rw [(values m' hm').1]; rfl⟩

/-- A memory of one page without a maximum gets a maximum below 4 GiB, and no growth
leads there. -/
theorem memorySection_noMax : Encodes (memorySectionTokens 0 1 0 []) [0x01, 0x00, 0x01] ∧
    Yields wasmParseMemorySection [0x01, 0x00, 0x01] {} { memory := ⟨65536, 65534 * 65536, false⟩ } ∧
    ∀ s : Host.Runtime, s.Ok → s.module.memory = ⟨65536, 65534 * 65536, false⟩ →
      ∀ n mapped, (Host.wasmHostMemoryGrow n mapped s).2.size < 2 ^ 32 := by
  have encodes : Encodes (memorySectionTokens 0 1 0 []) [0x01, 0x00, 0x01] :=
    ⟨[[0x01], [0x00], [0x01]], .cons (@byte_spelled 1 (by decide)).1 (.cons rfl (.cons (@byte_spelled 1 (by decide)).2 .nil)), rfl⟩
  refine ⟨encodes, (memorySection_yields_iff encodes).mpr ⟨.inl rfl, by decide, by decide, rfl⟩, ?_⟩
  intro s hs hmemory n mapped
  obtain ⟨ht, hmodule, -⟩ := (Host.Op.grow n mapped).step_ok hs rfl
  have hmax := ht.le_max
  rw [hmodule, hmemory] at hmax
  exact hmax.trans_lt (by decide)

end SpidirWasm.Wasm
