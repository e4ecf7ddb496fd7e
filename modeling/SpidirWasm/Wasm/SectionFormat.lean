import SpidirWasm.Wasm.Format
import SpidirWasm.Wasm.Sections

/-! What each section parser accepts: the tokens of its entries, with the checks of the
parser, up to the end of the section. -/

namespace SpidirWasm.Wasm

open Keeping

variable {α β : Type} {m : WasmModule} {b b' : Buffer} {s s' : LoadState}

/-! ### Readers and their tokens -/

theorem takes_iff_getLast? {t : Token} (hlong : t.Long) : t.Takes b b' ↔
    ∃ p, t.Read p ∧ b.data = p ++ b'.data ∧ p.getLast? = some b'.prev := by
  refine exists_congr fun p => and_congr_right fun hp => and_congr_right fun _ => ?_
  obtain ⟨last, hlast⟩ := Option.ne_none_iff_exists'.mp (mt List.getLast?_eq_none_iff.mp (hp.ne_nil hlong))
  rw [hlast, Option.getD_some, Option.some.injEq, eq_comm]

theorem bufferPullU32_iff {v : ℕ} : bufferPullU32 b = some (v, b') ↔ (Token.u32 v).Takes b b' := by
  rw [bufferPullU32, pullUnsigned_iff, takes_iff_getLast? (t := .u32 v) trivial]
  exact exists_congr fun p => by simp only [Token.Read]; tauto

theorem bufferPullU64_iff {v : ℕ} : bufferPullU64 b = some (v, b') ↔ (Token.u64 v).Takes b b' := by
  rw [bufferPullU64, pullUnsigned_iff, takes_iff_getLast? (t := .u64 v) trivial]
  exact exists_congr fun p => by simp only [Token.Read]; tauto

theorem bufferPullI32_iff {v : ℕ} : bufferPullI32 b = some (v, b') ↔ (Token.i32 v).Takes b b' := by
  rw [bufferPullI32, pullSigned_iff, takes_iff_getLast? (t := .i32 v) trivial]
  exact exists_congr fun p => by simp only [Token.Read]; tauto

theorem bufferPullI64_iff {v : ℕ} : bufferPullI64 b = some (v, b') ↔ (Token.i64 v).Takes b b' := by
  rw [bufferPullI64, pullSigned_iff, takes_iff_getLast? (t := .i64 v) trivial]
  exact exists_congr fun p => by simp only [Token.Read]; tauto

theorem raw_takes_iff {bytes : List UInt8} : (Token.raw bytes).Takes b b' ↔
    b.data = bytes ++ b'.data ∧ b'.prev = bytes.getLast?.getD b.prev := by
  simp only [Token.Takes, Token.Read, exists_eq_left]

theorem bufferPullU8_iff {x : UInt8} : bufferPullU8 b = some (x, b') ↔ (Token.raw [x]).Takes b b' := by
  rw [bufferPullU8_eq_some, raw_takes_iff]
  rfl

theorem bufferPull_iff {n : ℕ} {bytes : List UInt8} : bufferPull n b = some (bytes, b') ↔
    bytes.length = n ∧ (Token.raw bytes).Takes b b' := by
  rw [bufferPull_eq_some, raw_takes_iff]
  obtain ⟨prev, data⟩ := b
  obtain ⟨prev', data'⟩ := b'
  constructor
  · rintro ⟨hle, he⟩
    simp only [Prod.mk.injEq, Buffer.mk.injEq] at he hle
    obtain ⟨rfl, rfl, rfl⟩ := he
    exact ⟨List.length_take_of_le hle, (List.take_append_drop n data).symm, rfl⟩
  · rintro ⟨rfl, hdata, hprev⟩
    simp only at hdata hprev
    subst hdata hprev
    simp

/-- The two tokens of a name. -/
def nameTokens (name : Name) : List Token := [.u32 name.length, .raw name]

theorem bufferPullName_iff {name : Name} : bufferPullName b = some (name, b') ↔
    isValidUtf8 name = true ∧ Taken (nameTokens name) b b' := by
  simp only [bufferPullName, Checked.bind_eq_some, bufferPullU32_iff, bufferPull_iff, Checked.check_eq_some, Checked.pure_eq_some,
    Prod.mk.injEq, nameTokens, Path.cons_iff, Path.nil_iff]
  constructor
  · rintro ⟨_, u, hu, _, v, ⟨rfl, hv⟩, _, _, ⟨hvalid, -, rfl⟩, rfl, rfl⟩
    exact ⟨hvalid, u, hu, b', hv, rfl⟩
  · rintro ⟨hvalid, u, hu, v, hv, rfl⟩
    exact ⟨_, u, hu, name, b', ⟨rfl, hv⟩, (), b', ⟨hvalid, trivial, rfl⟩, rfl, rfl⟩

/-- The byte of a number type. -/
def valTypeByte : ValueType → UInt8
  | .invalid => 0x00
  | .f64 => 0x7C
  | .f32 => 0x7D
  | .i64 => 0x7E
  | .i32 => 0x7F

theorem bufferPullValType_iff {t : ValueType} : bufferPullValType b = some (t, b') ↔
    t.IsNumber ∧ (Token.raw [valTypeByte t]).Takes b b' := by
  simp only [bufferPullValType, Checked.bind_eq_some, bufferPullU8_iff, Checked.lift_eq_some, Prod.mk.injEq]
  constructor
  · rintro ⟨x, u, hu, t', ht, rfl, rfl⟩
    have found : ∀ t : ValueType, t.IsNumber → x.toNat = (valTypeByte t).toNat → t.IsNumber ∧ (Token.raw [valTypeByte t]).Takes b b' :=
      fun t ht hx => ⟨ht, UInt8.toNat_inj.mp hx ▸ hu⟩
    split at ht
    case h_5 => cases ht
    all_goals
      rename_i hx
      obtain rfl := Option.some.inj ht
      exact found _ (by simp [ValueType.IsNumber]) hx
  · rintro ⟨ht, hu⟩
    refine ⟨_, b', hu, t, ?_, rfl, rfl⟩
    cases t with
    | invalid => exact absurd rfl ht
    | f64 | f32 | i64 | i32 => rfl

/-! ### Runs of a parser -/

theorem bind_run_iff {x : Load α} {f : α → Load β} {r : β × LoadState} :
    (x >>= f).run s = some r ↔ ∃ a t, x.run s = some (a, t) ∧ (f a).run t = some r := by
  simp [Option.bind_eq_some_iff]

theorem pure_run_iff {a : α} {r : α × LoadState} : (pure a : Load α).run s = some r ↔ r = (a, s) := by
  rw [run_pure, Option.some.injEq, eq_comm]

theorem check_run_iff {p : Prop} {_ : Decidable p} {r : Unit × LoadState} : (check p).run s = some r ↔ p ∧ r = ((), s) := by
  rw [run_check]
  split_ifs with h <;> simp [h, eq_comm]

theorem pull_run_iff {x : Pull α} {r : α × LoadState} : (Load.pull x).run s = some r ↔
    ∃ u, x s.buffer = some (r.1, u) ∧ r.2 = ⟨s.module, u⟩ := by
  obtain ⟨a, t⟩ := r
  simp only [Load.pull, run_bind, run_read, run_lift, run_update, run_pure, Option.bind_some, Option.bind_eq_some_iff,
    Option.map_eq_some_iff, Prod.exists, Option.some.injEq, Prod.mk.injEq]
  grind

theorem modify_run {f : WasmModule → WasmModule} : (Load.modify f).run s = some ((), ⟨f s.module, s.buffer⟩) := rfl

theorem check_bind_run_iff {p : Prop} {_ : Decidable p} {f : Unit → Load β} {r : β × LoadState} :
    (check p >>= f).run s = some r ↔ p ∧ (f ()).run s = some r := by
  rw [bind_run_iff]
  constructor
  · rintro ⟨_, _, hcheck, h⟩
    obtain ⟨hp, he⟩ := check_run_iff.mp hcheck
    obtain ⟨-, rfl⟩ := Prod.mk.inj he
    exact ⟨hp, h⟩
  · rintro ⟨hp, h⟩
    exact ⟨(), s, check_run_iff.mpr ⟨hp, rfl⟩, h⟩

theorem ite_run_iff {p : Prop} {_ : Decidable p} {x y : Load α} {r : α × LoadState} :
    (if p then x else y).run s = some r ↔ p ∧ x.run s = some r ∨ ¬p ∧ y.run s = some r := by
  split_ifs with h <;> simp [h]

theorem fail_run_iff {r : α × LoadState} : (fail : Load α).run s = some r ↔ False := by
  rw [run_fail]
  simp

theorem pull_bind_run_iff {x : Pull α} {f : α → Load β} {r : β × LoadState} : (Load.pull x >>= f).run s = some r ↔
    ∃ a u, x s.buffer = some (a, u) ∧ (f a).run ⟨s.module, u⟩ = some r := by
  rw [bind_run_iff]
  simp [pull_run_iff]

theorem len_bind_run {f : ℕ → Load β} : (Load.len >>= f).run s = (f s.buffer.data.length).run s := by
  rw [Load.len, run_bind, run_read, Option.bind_some]

theorem module_bind_run {f : WasmModule → Load β} : (Load.module >>= f).run s = (f s.module).run s := by
  rw [Load.module, run_bind, run_read, Option.bind_some]

theorem forbid_bind_run_iff {p : Prop} {_ : Decidable p} {f : Unit → Load β} {r : β × LoadState} :
    (forbid p >>= f).run s = some r ↔ ¬p ∧ (f ()).run s = some r := by
  rw [run_bind, run_forbid]
  split_ifs with hp <;> simp [hp]

/-- A check of the module, and of the bytes left. -/
theorem module_check_bind_run_iff {p : WasmModule → Prop} {_ : ∀ m, Decidable (p m)} {f : Unit → Load β} {r : β × LoadState} :
    (Load.module >>= fun m => check (p m) >>= f).run s = some r ↔ p s.module ∧ (f ()).run s = some r := by
  rw [module_bind_run, check_bind_run_iff]

theorem len_check_bind_run_iff {p : ℕ → Prop} {_ : ∀ n, Decidable (p n)} {f : Unit → Load β} {r : β × LoadState} :
    (Load.len >>= fun n => check (p n) >>= f).run s = some r ↔ p s.buffer.data.length ∧ (f ()).run s = some r := by
  rw [len_bind_run, check_bind_run_iff]

theorem modify_bind_run {g : WasmModule → WasmModule} {f : Unit → Load β} :
    (Load.modify g >>= f).run s = (f ()).run ⟨g s.module, s.buffer⟩ := by
  rw [run_bind, modify_run, Option.bind_some]

theorem atEnd_run_iff {r : Unit × LoadState} : Load.atEnd.run s = some r ↔ s.buffer.data = [] ∧ r = ((), s) := by
  rw [Load.atEnd, len_bind_run, check_run_iff, List.length_eq_zero_iff]

/-! ### Vectors -/

/-- The entries of a section, as many as an `int` counts, behind each other and up to its end. -/
def Entries {T : Type} (entry : T → Buffer → Buffer → Prop) (xs : List T) (b b' : Buffer) : Prop :=
  Path entry xs b b' ∧ xs.length < 2 ^ 31 ∧ b'.data = []

/-- The loop that fills a field of the module, one entry at each index. -/
theorem entries_run {T : Type} (put : List T → WasmModule → WasmModule) {default : T} {turn : ℕ → Load Unit} {n : ℕ}
    {entry : T → Buffer → Buffer → Prop}
    (hturn : ∀ i xs b r, (turn i).run ⟨put xs m, b⟩ = some r ↔ ∃ x b', entry x b b' ∧ r = ((), ⟨put (xs.set i x) m, b'⟩))
    {r : Unit × LoadState} :
    (do Load.modify (put (List.replicate n default)); forInt turn 0 n; Load.atEnd).run ⟨m, b⟩ = some r ↔
      ∃ xs b', xs.length = n ∧ Entries entry xs b b' ∧ r = ((), ⟨put xs m, b'⟩) := by
  have loop : ∀ k (done : List T) b r, (forInt turn done.length k).run ⟨put (done ++ List.replicate k default) m, b⟩ = some r ↔
      ∃ xs b', xs.length = k ∧ (k = 0 ∨ done.length + k < 2 ^ 31) ∧ Path entry xs b b' ∧ r = ((), ⟨put (done ++ xs) m, b'⟩) := by
    intro k
    induction k with
    | zero =>
      intro done b r
      simp [forInt, eq_comm]
    | succ k ih =>
      intro done b r
      have next : ∀ x, (done ++ List.replicate (k + 1) default).set done.length x = (done ++ [x]) ++ List.replicate k default := by
        intro x
        rw [List.set_append_right _ _ (Nat.le_refl _), Nat.sub_self, List.replicate_succ, List.set_cons_zero, List.append_assoc]
        rfl
      simp only [forInt, ↓forbid_bind_run_iff, bind_run_iff, hturn, next]
      constructor
      · rintro ⟨_, _, ⟨x, u, hx, he⟩, hi, hrest⟩
        obtain ⟨-, rfl⟩ := Prod.mk.inj he
        have index : done.length + 1 = (done ++ [x]).length := by simp
        rw [index, ih] at hrest
        obtain ⟨xs, b', rfl, hbound, hxs, rfl⟩ := hrest
        exact ⟨x :: xs, b', rfl, .inr (by omega), ⟨u, hx, hxs⟩, by simp⟩
      · rintro ⟨xs, b', hlen, hbound, hxs, rfl⟩
        obtain ⟨x, xs, rfl⟩ := List.exists_cons_of_length_eq_add_one hlen
        obtain ⟨u, hx, hxs⟩ := hxs
        refine ⟨(), _, ⟨x, u, hx, rfl⟩, by omega, ?_⟩
        have index : done.length + 1 = (done ++ [x]).length := by simp
        rw [index, ih]
        exact ⟨xs, b', by simpa using hlen, by omega, hxs, by simp⟩
  rw [modify_bind_run, bind_run_iff]
  simp only [show ∀ b r, (forInt turn 0 n).run ⟨put (List.replicate n default) m, b⟩ = some r ↔ _ from loop n [], atEnd_run_iff]
  constructor
  · rintro ⟨_, _, ⟨xs, b', hlen, hbound, hxs, he⟩, hend, rfl⟩
    obtain ⟨-, rfl⟩ := Prod.mk.inj he
    have counted : xs.length < 2 ^ 31 := by
      rw [List.length_nil] at hbound
      omega
    exact ⟨xs, b', hlen, ⟨hxs, counted, hend⟩, rfl⟩
  · rintro ⟨xs, b', rfl, ⟨hxs, hcounted, hend⟩, rfl⟩
    exact ⟨(), _, ⟨xs, b', rfl, .inr (by simpa using hcounted), hxs, rfl⟩, hend, rfl⟩

/-- Items that leave the module as it is, collected one behind the other. -/
theorem collectInt_run {T : Type} {item : Load T} {n : ℕ} {E : T → Buffer → Buffer → Prop}
    (hitem : ∀ b x s', item.run ⟨m, b⟩ = some (x, s') ↔ ∃ b', E x b b' ∧ s' = ⟨m, b'⟩) {xs : List T} :
    (collectInt item 0 n).run ⟨m, b⟩ = some (xs, s') ↔ ∃ b', xs.length = n ∧ xs.length < 2 ^ 31 ∧ Path E xs b b' ∧ s' = ⟨m, b'⟩ := by
  have paths : ∀ (xs : List T) b s', Path (fun x s t => item.run s = some (x, t)) xs ⟨m, b⟩ s' ↔ ∃ b', Path E xs b b' ∧ s' = ⟨m, b'⟩ := by
    intro xs
    induction xs with
    | nil => simp
    | cons x xs ih =>
      intro b s'
      simp only [Path.cons_iff, hitem]
      constructor
      · rintro ⟨_, ⟨u, hx, rfl⟩, hxs⟩
        obtain ⟨b', hrest, rfl⟩ := (ih u s').mp hxs
        exact ⟨b', ⟨u, hx, hrest⟩, rfl⟩
      · rintro ⟨b', ⟨u, hx, hxs⟩, rfl⟩
        exact ⟨⟨m, u⟩, ⟨u, hx, rfl⟩, (ih u _).mpr ⟨b', hxs, rfl⟩⟩
  rw [run_collectInt, paths]
  constructor
  · rintro ⟨rfl, hbound, b', hxs, rfl⟩
    exact ⟨b', rfl, by omega, hxs, rfl⟩
  · rintro ⟨b', rfl, hbound, hxs, rfl⟩
    exact ⟨rfl, .inr (by omega), b', hxs, rfl⟩

/-- A section that is a vector: its count, checked against the bytes left, and as many
entries. Entries that are not empty pass the check. -/
theorem vector_run {T : Type} (put : List T → WasmModule → WasmModule) {default : T} {turn : ℕ → Load Unit}
    {entry : T → Buffer → Buffer → Prop}
    (hturn : ∀ i xs b r, (turn i).run ⟨put xs m, b⟩ = some r ↔ ∃ x b', entry x b b' ∧ r = ((), ⟨put (xs.set i x) m, b'⟩))
    (hlong : ∀ x b b', entry x b b' → b'.data.length + 1 ≤ b.data.length) {r : Unit × LoadState} :
    (do
      let count ← Load.pull bufferPullU32
      check (count ≤ (← Load.len))
      Load.modify (put (List.replicate count default))
      forInt turn 0 count
      Load.atEnd).run ⟨m, b⟩ = some r ↔
        ∃ xs b', Taken [.u32 xs.length] b b' ∧ ∃ b'', Entries entry xs b' b'' ∧ r = ((), ⟨put xs m, b''⟩) := by
  simp only [↓pull_bind_run_iff, bufferPullU32_iff, ↓len_bind_run, ↓check_bind_run_iff, entries_run put hturn, Path.single_iff]
  constructor
  · rintro ⟨_, u, hu, -, xs, b'', rfl, hxs, rfl⟩
    exact ⟨xs, u, hu, b'', hxs, rfl⟩
  · rintro ⟨xs, u, hu, b'', hxs, rfl⟩
    have bound := @Path.length_le _ _ _ _ _ _ (fun b : Buffer => b.data.length) (fun x _ c d => hlong x c d) hxs.1
    exact ⟨_, u, hu, (Nat.le_add_left _ _).trans bound, xs, b'', rfl, hxs, rfl⟩

/-! ### Types -/

def resultTokens (types : List ValueType) : List Token := .u32 types.length :: types.map fun t => .raw [valTypeByte t]

def typeTokens (t : FuncType) : List Token := .raw [0x60] :: (resultTokens t.argTypes ++ resultTokens t.resultTypes)

theorem pullValTypes_run {n : ℕ} {types : List ValueType} : (pullValTypes n).run ⟨m, b⟩ = some (types, s') ↔
    ∃ b', types.length = n ∧ types.length < 2 ^ 31 ∧ (∀ t ∈ types, t.IsNumber) ∧
      Taken (types.map fun t => .raw [valTypeByte t]) b b' ∧ s' = ⟨m, b'⟩ := by
  rw [pullValTypes, collectInt_run (E := fun t b b' => t.IsNumber ∧ (Token.raw [valTypeByte t]).Takes b b')]
  · simp only [Path.and_iff, Path.map_iff, and_assoc]
  · simp [pull_run_iff, bufferPullValType_iff, and_assoc]

/-- The bound on the count lets every vector of one-byte entries pass; the loop counts with an `int`. -/
theorem wasmPullResultType_run {types : List ValueType} : wasmPullResultType.run ⟨m, b⟩ = some (types, s') ↔
    ∃ b', types.length < 2 ^ 31 ∧ (∀ t ∈ types, t.IsNumber) ∧ Taken (resultTokens types) b b' ∧ s' = ⟨m, b'⟩ := by
  simp only [wasmPullResultType, pull_bind_run_iff, bufferPullU32_iff, len_bind_run, check_bind_run_iff, pullValTypes_run]
  constructor
  · rintro ⟨_, u, hu, -, b', rfl, hcounted, hts, htaken, rfl⟩
    exact ⟨b', hcounted, hts, ⟨u, hu, htaken⟩, rfl⟩
  · rintro ⟨b', hcounted, hts, ⟨u, hu, htaken⟩, rfl⟩
    have bound : types.length ≤ u.data.length := by
      have long : ∀ t ∈ types.map fun t => Token.raw [valTypeByte t], t.Long := by simp [Token.Long]
      simpa using (Nat.le_add_left _ _).trans (Taken.length_le long htaken)
    exact ⟨_, u, hu, bound, b', rfl, hcounted, hts, htaken, rfl⟩

/-- An `int` counts the parameters and the results. -/
def FuncType.Countable (t : FuncType) : Prop := t.argTypes.length < 2 ^ 31 ∧ t.resultTypes.length < 2 ^ 31

/-- One turn of the loop over the types. -/
theorem typeTurn_run {i : ℕ} {types : List FuncType} {r : Unit × LoadState} : (do
    let type ← Load.pull bufferPullU8
    check (type = 0x60)
    let args ← wasmPullResultType
    Load.modify fun m => { m with types := m.types.modify i fun t => { t with argTypes := args } }
    let results ← wasmPullResultType
    Load.modify fun m => { m with types := m.types.modify i fun t => { t with resultTypes := results } }).run ⟨{ m with types }, b⟩ =
      some r ↔ ∃ t b', ((t.Ok ∧ t.Countable) ∧ Taken (typeTokens t) b b') ∧ r = ((), ⟨{ m with types := types.set i t }, b'⟩) := by
  have both : ∀ args results, (types.modify i fun t => { t with argTypes := args }).modify i (fun t => { t with resultTypes := results }) =
      types.set i ⟨args, results⟩ := by
    intro args results
    apply modify_modify_set
    intro t
    rfl
  simp only [↓pull_bind_run_iff, bufferPullU8_iff, ↓check_bind_run_iff, bind_run_iff, ↓modify_bind_run, wasmPullResultType_run,
    modify_run, typeTokens, Path.cons_iff, Path.append_iff]
  constructor
  · rintro ⟨_, u, hu, rfl, args, _, ⟨v, hcount, hargs, hv, rfl⟩, results, _, ⟨w, hcount', hresults, hw, rfl⟩, he⟩
    rw [both] at he
    exact ⟨⟨args, results⟩, w, ⟨⟨⟨hargs, hresults⟩, hcount, hcount'⟩, u, hu, v, hv, hw⟩, (Option.some.inj he).symm⟩
  · rintro ⟨⟨args, results⟩, w, ⟨⟨⟨hargs, hresults⟩, hcount, hcount'⟩, u, hu, v, hv, hw⟩, rfl⟩
    refine ⟨_, u, hu, rfl, args, _, ⟨v, hcount, hargs, hv, rfl⟩, results, _, ⟨w, hcount', hresults, hw, rfl⟩, ?_⟩
    rw [both]

def typeSectionTokens (types : List FuncType) : List Token := .u32 types.length :: types.flatMap typeTokens

theorem typeEntries_iff {types : List FuncType} : Entries (fun t b b' => (t.Ok ∧ t.Countable) ∧ Taken (typeTokens t) b b') types b b' ↔
    (∀ t ∈ types, t.Ok ∧ t.Countable) ∧ Taken (types.flatMap typeTokens) b b' ∧ types.length < 2 ^ 31 ∧ b'.data = [] := by
  rw [Entries, Path.and_iff, and_assoc, ← Path.flatMap_iff]

/-- A signature takes more than one byte. -/
theorem typeTokens_length {t : FuncType} (h : Taken (typeTokens t) b b') : b'.data.length + 2 ≤ b.data.length := by
  simp only [typeTokens, resultTokens, Path.cons_iff, Path.append_iff] at h
  obtain ⟨u, hu, v, ⟨w, hw, hv⟩, x, hx, hb'⟩ := h
  have long : ∀ (types : List ValueType), ∀ tok ∈ types.map fun t => Token.raw [valTypeByte t], tok.Long := by simp [Token.Long]
  have form := hu.length (List.cons_ne_nil _ _)
  have argCount := hw.length trivial
  have args := Taken.length_le (long _) hv
  have resultCount := hx.length trivial
  have results := Taken.length_le (long _) hb'
  omega

/-- The type section is read as a list of signatures, but the check of its count rejects
the empty list. -/
theorem wasmParseTypeSection_run {r : Unit × LoadState} : wasmParseTypeSection.run ⟨m, b⟩ = some r ↔
    ∃ types b', types ≠ [] ∧ types.length < 2 ^ 31 ∧ (∀ t ∈ types, t.Ok ∧ t.Countable) ∧ Taken (typeSectionTokens types) b b' ∧
      b'.data = [] ∧ r = ((), ⟨{ m with types }, b'⟩) := by
  have loop := fun n b r => @entries_run m b _ (fun types m => { m with types }) {} _ n _ (fun i types b r => typeTurn_run) r
  rw [wasmParseTypeSection]
  simp only [↓pull_bind_run_iff, bufferPullU32_iff, ↓len_bind_run, ↓check_bind_run_iff, loop, typeEntries_iff]
  constructor
  · rintro ⟨_, u, hu, hlt, types, b', rfl, ⟨hok, htaken, hcount, hend⟩, rfl⟩
    refine ⟨types, b', ?_, hcount, hok, ⟨u, hu, htaken⟩, hend, rfl⟩
    rintro rfl
    obtain rfl : b' = u := htaken
    simp [hend] at hlt
  · rintro ⟨types, b', hne, hcount, hok, ⟨u, hu, htaken⟩, hend, rfl⟩
    refine ⟨_, u, hu, ?_, types, b', rfl, ⟨hok, htaken, hcount, hend⟩, rfl⟩
    obtain ⟨t, types, rfl⟩ := List.exists_cons_of_ne_nil hne
    rw [List.flatMap_cons] at htaken
    obtain ⟨v, hv, hrest⟩ := Path.append_iff.mp htaken
    have first := typeTokens_length hv
    have entries := Path.flatMap_iff.mp hrest
    have rest := @Path.length_le _ _ _ _ _ _ (fun b : Buffer => b.data.length)
      (fun t _ c d h => (Nat.le_succ _).trans (typeTokens_length h)) entries
    simp only [List.length_cons] at rest ⊢
    omega

/-! ### Memory -/

/-- The entry of the memory section; the flag 0 stands for no maximum. -/
def memoryTokens (flag : UInt8) (min max : ℕ) : List Token :=
  [.u32 1, .raw [flag], .u64 min] ++ if flag = 0 then [] else [.u64 max]

/-- The flags of the limits: no maximum, a maximum, and a maximum of a shared memory. -/
def LimitFlag (flag : UInt8) : Prop := flag = 0x00 ∨ flag = 0x01 ∨ flag = 0x03

/-- The pages that a memory without a maximum gets as its maximum. -/
def implicitMax : ℕ := (2 ^ 32 - 1) / pageSize - 1

theorem pullMemoryLimits_run {r : Unit × LoadState} : pullMemoryLimits.run ⟨m, b⟩ = some r ↔
    ∃ flag min max b', LimitFlag flag ∧ (flag = 0 → max = implicitMax) ∧
      Taken ([.raw [flag], .u64 min] ++ if flag = 0 then [] else [.u64 max]) b b' ∧
      r = ((), ⟨{ m with memory := ⟨min, max, flag = 0x03⟩ }, b'⟩) := by
  rw [pullMemoryLimits]
  simp only [↓pull_bind_run_iff, bufferPullU8_iff, ↓ite_run_iff, bufferPullU64_iff, modify_run, fail_run_iff]
  constructor
  · rintro ⟨flag, u, hu, ⟨rfl, min, v, hv, he⟩ | ⟨-, ⟨rfl, min, v, hv, max, w, hw, he⟩ | ⟨-, ⟨rfl, min, v, hv, max, w, hw, he⟩ | h⟩⟩⟩
    · exact ⟨0, min, _, v, .inl rfl, fun _ => rfl, ⟨u, hu, v, hv, rfl⟩, (Option.some.inj he).symm⟩
    · exact ⟨1, min, max, w, .inr (.inl rfl), fun h => absurd h (by decide), ⟨u, hu, v, hv, w, hw, rfl⟩, (Option.some.inj he).symm⟩
    · exact ⟨3, min, max, w, .inr (.inr rfl), fun h => absurd h (by decide), ⟨u, hu, v, hv, w, hw, rfl⟩, (Option.some.inj he).symm⟩
    · exact h.2.elim
  · rintro ⟨flag, min, max, b', rfl | rfl | rfl, hmax, ⟨u, hu, v, hv, h⟩, rfl⟩
    · obtain rfl : b' = v := h
      obtain rfl := hmax rfl
      exact ⟨0, u, hu, .inl ⟨rfl, min, b', hv, rfl⟩⟩
    · obtain ⟨w, hw, rfl⟩ := h
      exact ⟨1, u, hu, .inr ⟨by decide, .inl ⟨rfl, min, v, hv, max, b', hw, rfl⟩⟩⟩
    · obtain ⟨w, hw, rfl⟩ := h
      exact ⟨3, u, hu, .inr ⟨by decide, .inr ⟨by decide, .inl ⟨rfl, min, v, hv, max, b', hw, rfl⟩⟩⟩⟩

/-- The memory section is read as limits in pages, which end up in bytes. -/
theorem wasmParseMemorySection_run {r : Unit × LoadState} : wasmParseMemorySection.run ⟨m, b⟩ = some r ↔
    ∃ flag min max b', LimitFlag flag ∧ (flag = 0 → max = implicitMax) ∧ Taken (memoryTokens flag min max) b b' ∧ b'.data = [] ∧
      min ≤ max ∧ max ≤ 65536 ∧ r = ((), ⟨{ m with memory := ⟨min * pageSize, max * pageSize, flag = 0x03⟩ }, b'⟩) := by
  constructor
  · intro h
    obtain ⟨_, u, hu, h₁⟩ := pull_bind_run_iff.mp h
    obtain ⟨rfl, h₂⟩ := check_bind_run_iff.mp h₁
    obtain ⟨_, t, hlimits, h₃⟩ := bind_run_iff.mp h₂
    obtain ⟨flag, min, max, b', hflag, hmax, htaken, he⟩ := pullMemoryLimits_run.mp hlimits
    obtain ⟨-, rfl⟩ := Prod.mk.inj he
    rw [module_bind_run] at h₃
    obtain ⟨hle, h₄⟩ := check_bind_run_iff.mp h₃
    obtain ⟨-, h₅⟩ := check_bind_run_iff.mp h₄
    obtain ⟨-, h₆⟩ := check_bind_run_iff.mp h₅
    rw [modify_bind_run] at h₆
    obtain ⟨-, h₇⟩ := check_bind_run_iff.mp h₆
    obtain ⟨h₈, h₉⟩ := check_bind_run_iff.mp h₇
    obtain ⟨hend, rfl⟩ := atEnd_run_iff.mp h₉
    have bytes : max * pageSize ≤ 2 ^ 32 := h₈
    rw [pageSize] at bytes
    exact ⟨flag, min, max, b', hflag, hmax, ⟨u, bufferPullU32_iff.mp hu, htaken⟩, hend, hle, by omega, rfl⟩
  · rintro ⟨flag, min, max, b', hflag, hmax, ⟨u, hu, htaken⟩, hend, hle, h4, rfl⟩
    have limits : pullMemoryLimits.run ⟨m, u⟩ = _ := pullMemoryLimits_run.mpr ⟨flag, min, max, b', hflag, hmax, htaken, rfl⟩
    have maxBytes : max * pageSize ≤ 2 ^ 32 := by rw [pageSize]; omega
    have minBytes : min * pageSize ≤ 2 ^ 32 := (Nat.mul_le_mul_right pageSize hle).trans maxBytes
    have wide : 2 ^ 32 < 2 ^ 64 := by decide
    refine pull_bind_run_iff.mpr ⟨1, u, bufferPullU32_iff.mpr hu, check_bind_run_iff.mpr ⟨rfl, ?_⟩⟩
    refine bind_run_iff.mpr ⟨(), _, limits, ?_⟩
    rw [module_bind_run]
    refine check_bind_run_iff.mpr ⟨hle, check_bind_run_iff.mpr ⟨minBytes.trans_lt wide, check_bind_run_iff.mpr ⟨maxBytes.trans_lt wide, ?_⟩⟩⟩
    rw [modify_bind_run]
    exact check_bind_run_iff.mpr ⟨minBytes, check_bind_run_iff.mpr ⟨maxBytes, atEnd_run_iff.mpr ⟨hend, rfl⟩⟩⟩

/-! ### Constants -/

/-- The little-endian bytes of a number. -/
def leBytes : ℕ → ℕ → List UInt8
  | 0, _ => []
  | n + 1, v => UInt8.ofNat v :: leBytes n (v / 256)

theorem leBytes_length (n v : ℕ) : (leBytes n v).length = n := by
  induction n generalizing v with
  | zero => rfl
  | succ n ih => rw [leBytes, List.length_cons, ih]

theorem leBits_iff {n v : ℕ} {bytes : List UInt8} : bytes.length = n ∧ v = leBits bytes ↔ bytes = leBytes n v ∧ v < 256 ^ n := by
  induction n generalizing v bytes with
  | zero =>
    rw [leBytes, List.length_eq_zero_iff, pow_zero, Nat.lt_one_iff]
    refine and_congr_right fun h => ?_
    rw [h, leBits]
  | succ n ih =>
    cases bytes with
    | nil => simp [leBytes]
    | cons x bytes =>
      have byte := x.toNat_lt
      rw [List.length_cons, Nat.add_right_cancel_iff, leBits, leBytes, List.cons.injEq, pow_succ]
      constructor
      · rintro ⟨rfl, rfl⟩
        have low : x = UInt8.ofNat (x.toNat + 256 * leBits bytes) := by
          rw [← UInt8.toNat_inj, UInt8.toNat_ofNat']
          omega
        have high : (x.toNat + 256 * leBits bytes) / 256 = leBits bytes := by omega
        obtain ⟨rest, bound⟩ := ih.mp ⟨rfl, rfl⟩
        exact ⟨⟨low, by rw [high]; exact rest⟩, by omega⟩
      · rintro ⟨⟨rfl, hrest⟩, hlt⟩
        obtain ⟨hlen, hbits⟩ := ih.mpr ⟨hrest, by omega⟩
        rw [← hbits, UInt8.toNat_ofNat']
        exact ⟨hlen, by omega⟩

def constOpcode : ValueType → UInt8
  | .invalid => 0x00
  | .f64 => 0x44
  | .f32 => 0x43
  | .i64 => 0x42
  | .i32 => 0x41

def constToken (v : WasmValue) : Token :=
  match v.kind with
  | .invalid => .raw []
  | .f64 => .raw (leBytes 8 v.bits)
  | .f32 => .raw (leBytes 4 v.bits)
  | .i64 => .i64 v.bits
  | .i32 => .i32 v.bits

def constantTokens (v : WasmValue) : List Token := [.raw [constOpcode v.kind], constToken v, .raw [0x0B]]

/-- The bits of a float have its width; those of an integer have it by their encoding. -/
structure WasmValue.Ok (v : WasmValue) : Prop where
  number : v.kind.IsNumber
  f32_lt : v.kind = .f32 → v.bits < 2 ^ 32
  f64_lt : v.kind = .f64 → v.bits < 2 ^ 64

theorem pullConstant_run {x : UInt8} {v : WasmValue} : (pullConstant x.toNat).run ⟨m, b⟩ = some (v, s') ↔
    ∃ b', v.Ok ∧ x = constOpcode v.kind ∧ (constToken v).Takes b b' ∧ s' = ⟨m, b'⟩ := by
  have opcode : ∀ {kind}, x.toNat = (constOpcode kind).toNat → x = constOpcode kind := UInt8.toNat_inj.mp
  constructor
  · intro h
    unfold pullConstant at h
    split at h
    case h_5 => exact (fail_run_iff.mp h).elim
    case h_1 hx =>
      obtain ⟨bits, u, hu, he⟩ := pull_bind_run_iff.mp h
      obtain ⟨rfl, rfl⟩ := Prod.mk.inj (pure_run_iff.mp he)
      exact ⟨u, ⟨by simp [ValueType.IsNumber], by simp, by simp⟩, @opcode .i32 hx, bufferPullI32_iff.mp hu, rfl⟩
    case h_2 hx =>
      obtain ⟨bits, u, hu, he⟩ := pull_bind_run_iff.mp h
      obtain ⟨rfl, rfl⟩ := Prod.mk.inj (pure_run_iff.mp he)
      exact ⟨u, ⟨by simp [ValueType.IsNumber], by simp, by simp⟩, @opcode .i64 hx, bufferPullI64_iff.mp hu, rfl⟩
    case h_3 hx =>
      obtain ⟨bytes, u, hu, he⟩ := pull_bind_run_iff.mp h
      obtain ⟨rfl, rfl⟩ := Prod.mk.inj (pure_run_iff.mp he)
      obtain ⟨hlen, htakes⟩ := bufferPull_iff.mp hu
      obtain ⟨hbytes, hlt⟩ := leBits_iff.mp ⟨hlen, rfl⟩
      have bound : leBits bytes < 2 ^ 32 := hlt.trans_eq (by norm_num)
      have token : constToken ⟨.f32, leBits bytes⟩ = .raw bytes := congrArg Token.raw hbytes.symm
      exact ⟨u, ⟨by simp [ValueType.IsNumber], fun _ => bound, by simp⟩, @opcode .f32 hx, token ▸ htakes, rfl⟩
    case h_4 hx =>
      obtain ⟨bytes, u, hu, he⟩ := pull_bind_run_iff.mp h
      obtain ⟨rfl, rfl⟩ := Prod.mk.inj (pure_run_iff.mp he)
      obtain ⟨hlen, htakes⟩ := bufferPull_iff.mp hu
      obtain ⟨hbytes, hlt⟩ := leBits_iff.mp ⟨hlen, rfl⟩
      have bound : leBits bytes < 2 ^ 64 := hlt.trans_eq (by norm_num)
      have token : constToken ⟨.f64, leBits bytes⟩ = .raw bytes := congrArg Token.raw hbytes.symm
      exact ⟨u, ⟨by simp [ValueType.IsNumber], by simp, fun _ => bound⟩, @opcode .f64 hx, token ▸ htakes, rfl⟩
  · obtain ⟨kind, bits⟩ := v
    rintro ⟨b', hok, rfl, htakes, rfl⟩
    cases kind with
    | invalid => exact absurd rfl hok.number
    | i32 => exact pull_bind_run_iff.mpr ⟨bits, b', bufferPullI32_iff.mpr htakes, rfl⟩
    | i64 => exact pull_bind_run_iff.mpr ⟨bits, b', bufferPullI64_iff.mpr htakes, rfl⟩
    | f32 =>
      have bound : bits < 256 ^ 4 := (hok.f32_lt rfl).trans_eq (by norm_num)
      obtain ⟨hlen, hbits⟩ := leBits_iff.mpr ⟨rfl, bound⟩
      refine pull_bind_run_iff.mpr ⟨leBytes 4 bits, b', bufferPull_iff.mpr ⟨hlen, htakes⟩, pure_run_iff.mpr ?_⟩
      rw [← hbits]
    | f64 =>
      have bound : bits < 256 ^ 8 := (hok.f64_lt rfl).trans_eq (by norm_num)
      obtain ⟨hlen, hbits⟩ := leBits_iff.mpr ⟨rfl, bound⟩
      refine pull_bind_run_iff.mpr ⟨leBytes 8 bits, b', bufferPull_iff.mpr ⟨hlen, htakes⟩, pure_run_iff.mpr ?_⟩
      rw [← hbits]

theorem wasmParseConstantExpr_run {v : WasmValue} : wasmParseConstantExpr.run ⟨m, b⟩ = some (v, s') ↔
    ∃ b', v.Ok ∧ Taken (constantTokens v) b b' ∧ s' = ⟨m, b'⟩ := by
  rw [wasmParseConstantExpr]
  simp only [↓pull_bind_run_iff, bufferPullU8_iff, ↓check_bind_run_iff, bind_run_iff, pullConstant_run, pure_run_iff, Prod.mk.injEq,
    constantTokens, Path.cons_iff, Path.nil_iff]
  constructor
  · rintro ⟨_, u, hu, v, _, ⟨w, hok, rfl, hw, rfl⟩, _, b', hb', rfl, rfl, rfl⟩
    exact ⟨b', hok, ⟨u, hu, w, hw, b', hb', rfl⟩, rfl⟩
  · rintro ⟨b', hok, ⟨u, hu, w, hw, _, hb', rfl⟩, rfl⟩
    exact ⟨_, u, hu, v, _, ⟨w, hok, rfl, hw, rfl⟩, _, b', hb', rfl, rfl, rfl⟩

end SpidirWasm.Wasm
