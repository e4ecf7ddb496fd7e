import SpidirWasm.Jit.Isolation
import SpidirWasm.Logic.Bits
import SpidirWasm.Wasm.Accesses

/-! Loads and stores against the linear memory. The code for one moves exactly the bytes that
WebAssembly says, lowest first, and makes of them the number that it says. -/

namespace SpidirWasm.Jit

open Checked
open Spidir
open Wasm (LoadInstr StoreInstr leBytes leBytes_length)

/-! ### Words and numbers -/

/-- The bytes of a word are those of its number. -/
theorem toBytes_eq (n : ℕ) (x : Word) : x.toBytes n = leBytes n x.toNat := by
  induction n generalizing x with
  | zero => rfl
  | succ n ih =>
    rw [Word.toBytes, leBytes, ih, BitVec.toNat_ushiftRight, Nat.shiftRight_eq_div_pow]
    congr 1

theorem leBits_lt (bytes : List UInt8) : leBits bytes < 256 ^ bytes.length := (Wasm.leBits_iff.mp ⟨rfl, rfl⟩).2

/-- The word of some bytes is their number. -/
theorem toNat_ofBytes {bytes : List UInt8} (h : bytes.length ≤ 8) : (Word.ofBytes bytes).toNat = leBits bytes := by
  induction bytes with
  | nil => rfl
  | cons byte bytes ih =>
    have hrest : bytes.length ≤ 7 := Nat.le_of_succ_le_succ h
    have bound : leBits bytes < 2 ^ 56 := (leBits_lt bytes).trans_le (Nat.pow_le_pow_right (by decide) hrest)
    have byteBound : byte.toNat < 2 ^ 8 := byte.toNat_lt
    have low : (byte.toBitVec.setWidth 64 : Word).toNat = byte.toNat := by
      rw [BitVec.toNat_setWidth]
      exact Nat.mod_eq_of_lt (byteBound.trans (by decide))
    have high : (Word.ofBytes bytes <<< 8 : Word).toNat = leBits bytes <<< 8 := by
      rw [BitVec.toNat_shiftLeft, ih (Nat.le_succ_of_le hrest), Nat.mod_eq_of_lt]
      rw [Nat.shiftLeft_eq]
      omega
    rw [Word.ofBytes, BitVec.toNat_or, low, high, Nat.or_comm, ← Nat.shiftLeft_add_eq_or_of_lt byteBound, Nat.shiftLeft_eq, leBits]
    omega

/-- Whether a widened number has a sign. -/
def Extend.signed : Extend → Bool
  | .sign _ => true
  | .full | .zero _ => false

/-- What is loaded is the number of the bytes. -/
theorem Extend.word_value {type : ValueType} {size : MemSize} {extend : Extend} {i : LoadInstr} {bytes : List UInt8}
    (hfit : extend.Fits type size) (hsigned : i.signed = extend.signed) (hbytes : i.bytes = size.bytes) (hlen : bytes.length = i.bytes) :
    (extend.word (Word.ofBytes bytes)).setWidth type.width = BitVec.ofInt type.width (i.value bytes) := by
  have hsize : 8 * size.bytes ≤ 64 := by cases size <;> decide
  have number : (Word.ofBytes bytes).toNat = leBits bytes := toNat_ofBytes (by omega)
  have bound : leBits bytes < 2 ^ (8 * size.bytes) := by
    rw [pow_mul]
    exact (leBits_lt bytes).trans_eq (by rw [hlen, hbytes]; rfl)
  cases extend with
  | full =>
    rw [LoadInstr.value, if_neg (by simp [hsigned, Extend.signed]), Extend.word, BitVec.ofInt_natCast]
    apply BitVec.eq_of_toNat_eq
    rw [BitVec.toNat_setWidth, number, BitVec.toNat_ofNat]
  | zero n =>
    obtain ⟨rfl, hle, -⟩ := hfit
    rw [LoadInstr.value, if_neg (by simp [hsigned, Extend.signed]), Extend.word, BitVec.ofInt_natCast]
    apply BitVec.eq_of_toNat_eq
    rw [BitVec.toNat_setWidth, BitVec.toNat_setWidth, BitVec.toNat_setWidth, number, BitVec.toNat_ofNat, Nat.mod_eq_of_lt bound,
      Nat.mod_eq_of_lt (bound.trans_le (Nat.pow_le_pow_right (by decide) hsize))]
  | sign n =>
    obtain ⟨rfl, hle, -⟩ := hfit
    have low : ((Word.ofBytes bytes).setWidth (8 * size.bytes)).toNat = leBits bytes := by
      rw [BitVec.toNat_setWidth, number, Nat.mod_eq_of_lt bound]
    have signed : i.value bytes = ((Word.ofBytes bytes).setWidth (8 * size.bytes)).toInt := by
      rw [LoadInstr.value, BitVec.toInt_eq_toNat_cond, low, hsigned, hbytes]
      by_cases hneg : 2 * leBits bytes < 2 ^ (8 * size.bytes)
      · rw [if_pos hneg, if_neg fun h => Nat.not_lt.mpr h.2 hneg]
      · rw [if_neg hneg, if_pos ⟨rfl, Nat.not_lt.mp hneg⟩]
        norm_cast
    rw [signed, Extend.word, Bits.setWidth_signExtend _ type.width_le]
    rfl

/-! ### Opcodes -/

/-- The parameters of a load by its opcode. -/
theorem loadParams_ofOpcode {opcode : ℕ} {i : LoadInstr} (h : LoadInstr.ofOpcode opcode = some i) :
    0x28 ≤ opcode ∧ opcode ≤ 0x35 ∧ ∃ type size extend, loadParams opcode = some (type, size, extend) ∧
      jitGetSpidirValueType i.type = some type ∧ i.bytes = size.bytes ∧ i.signed = extend.signed := by
  unfold LoadInstr.ofOpcode at h
  split_ifs at h with hlo
  have hhi : opcode - 0x28 < 14 := (List.getElem?_eq_some_iff.mp h).1
  obtain ⟨k, rfl⟩ := Nat.exists_eq_add_of_le hlo
  rw [Nat.add_sub_cancel_left] at h hhi
  refine ⟨hlo, by omega, ?_⟩
  match k with
  | 0 | 1 | 2 | 3 | 4 | 5 | 6 | 7 | 8 | 9 | 10 | 11 | 12 | 13 =>
    cases h
    exact ⟨_, _, _, rfl, rfl, rfl, rfl⟩
  | k + 14 => cases h

/-- The parameters of a store. -/
theorem storeParams_ofOpcode {opcode : ℕ} {i : StoreInstr} (h : StoreInstr.ofOpcode opcode = some i) :
    0x36 ≤ opcode ∧ opcode ≤ 0x3E ∧ ∃ type size, storeParams opcode = some (type, size) ∧
      jitGetSpidirValueType i.type = some type ∧ i.bytes = size.bytes := by
  unfold StoreInstr.ofOpcode at h
  split_ifs at h with hlo
  have hhi : opcode - 0x36 < 9 := (List.getElem?_eq_some_iff.mp h).1
  obtain ⟨k, rfl⟩ := Nat.exists_eq_add_of_le hlo
  rw [Nat.add_sub_cancel_left] at h hhi
  refine ⟨hlo, by omega, ?_⟩
  match k with
  | 0 | 1 | 2 | 3 | 4 | 5 | 6 | 7 | 8 =>
    cases h
    exact ⟨_, _, rfl, rfl, rfl⟩
  | k + 9 => cases h

/-! ### Memory -/

/-- The immediate of a memory instruction. -/
def pullMemArg : Pull WasmMemArg := do
  let _ ← bufferPullU8
  jitPullMemarg

/-- In the code between two states, the value on the stack goes to the bytes at the effective
address, if these lie in the memory, and all other bytes stay. -/
def StoresBytes (s t : JitState) (memArg : WasmMemArg) (i : StoreInstr) : Prop :=
  ∀ (W : World) (B : Builder) (σ : Machine) (type : ValueType) (value addr : Word) (rest : List (ValueType × Word)) (shared : Store)
    (linear : Memory UInt8) (size : ℕ), jitGetSpidirValueType i.type = some type →
      View.Of { stack := (type, value) :: (.i32, addr) :: rest, shared } s.toEmitState σ → t.builder.Extends B →
      Placed (W.param 0) linear shared.mem → linear.Below size → size ≤ 2 ^ 32 → effectiveAddress memArg addr + i.bytes ≤ size →
      ∃ u, Ends t.toEmitState (.done { stack := rest, shared := u }) (B.exec W (s.builder.since t.builder) σ) ∧
        Placed (W.param 0) (linear.write (effectiveAddress memArg addr) (i.bytesOf value.toNat)) u.mem ∧
        u.mem = shared.mem.write ((W.param 0).toNat + effectiveAddress memArg addr) (i.bytesOf value.toNat)

/-- The code between two states leaves the number that the bytes at the effective address stand
for, if these lie in the memory. -/
def LoadsNumber (s t : JitState) (memArg : WasmMemArg) (i : LoadInstr) : Prop :=
  ∀ (W : World) (B : Builder) (σ : Machine) (type : ValueType) (addr : Word) (rest : List (ValueType × Word)) (shared : Store)
    (linear : Memory UInt8) (size : ℕ), jitGetSpidirValueType i.type = some type →
      View.Of { stack := (.i32, addr) :: rest, shared } s.toEmitState σ → t.builder.Extends B →
      Placed (W.param 0) linear shared.mem → linear.Below size → size ≤ 2 ^ 32 → effectiveAddress memArg addr + i.bytes ≤ size →
      ∃ bytes x u, linear.load (effectiveAddress memArg addr) i.bytes = some bytes ∧
        x.setWidth type.width = BitVec.ofInt type.width (i.value bytes) ∧
        Ends t.toEmitState (.done { stack := (type, x) :: rest, shared := u }) (B.exec W (s.builder.since t.builder) σ) ∧
        u.mem = shared.mem

/-- What a store left is what a load finds, in the bytes that both access; the others are what
they were. The two may be anywhere in the code of the module. -/
def StoreThenLoad (s t s' t' : JitState) (memArg memArg' : WasmMemArg) (i : StoreInstr) (j : LoadInstr) : Prop :=
  ∀ (W : World) (B : Builder) (σ : Machine) (type : ValueType) (value addr : Word) (rest : List (ValueType × Word)) (shared : Store)
    (linear : Memory UInt8) (size : ℕ), jitGetSpidirValueType i.type = some type →
      View.Of { stack := (type, value) :: (.i32, addr) :: rest, shared } s.toEmitState σ → t.builder.Extends B →
      Placed (W.param 0) linear shared.mem → linear.Below size → size ≤ 2 ^ 32 → effectiveAddress memArg addr + i.bytes ≤ size →
      ∃ u, Ends t.toEmitState (.done { stack := rest, shared := u }) (B.exec W (s.builder.since t.builder) σ) ∧
        ∀ (W' : World) (B' : Builder) (σ' : Machine) (type' : ValueType) (addr' : Word) (rest' : List (ValueType × Word)) (shared' : Store),
          jitGetSpidirValueType j.type = some type' → W'.param 0 = W.param 0 → shared'.mem = u.mem →
          View.Of { stack := (.i32, addr') :: rest', shared := shared' } s'.toEmitState σ' → t'.builder.Extends B' →
          effectiveAddress memArg' addr' + j.bytes ≤ size →
          ∃ bytes x u', bytes.length = j.bytes ∧
            (∀ k < j.bytes, bytes[k]? =
              if effectiveAddress memArg addr ≤ effectiveAddress memArg' addr' + k ∧
                  effectiveAddress memArg' addr' + k < effectiveAddress memArg addr + i.bytes then
                (i.bytesOf value.toNat)[effectiveAddress memArg' addr' + k - effectiveAddress memArg addr]?
              else linear (effectiveAddress memArg' addr' + k)) ∧
            x.setWidth type'.width = BitVec.ofInt type'.width (j.value bytes) ∧
            Ends t'.toEmitState (.done { stack := (type', x) :: rest', shared := u' }) (B'.exec W' (s'.builder.since t'.builder) σ') ∧
            u'.mem = u.mem

section Runs

variable {s t s' t' : JitState} {opcode opcode' : UInt8}

theorem Placed.write {base : Word} {linear mem : Memory UInt8} {a : ℕ} {bytes : List UInt8} (h : Placed base linear mem) :
    Placed base (linear.write a bytes) (mem.write (base.toNat + a) bytes) := by
  refine ⟨h.fits, fun b hb => ?_⟩
  rw [Memory.write, Memory.write, h.bytes b hb]
  congr 1
  · rw [eq_iff_iff]
    omega
  · congr 1
    omega

/-- The bytes of an access that stays in the memory. -/
theorem Placed.found {base : Word} {linear mem : Memory UInt8} {a k n : ℕ} (h : Placed base linear mem) (hbelow : linear.Below n)
    (hn : n ≤ 2 ^ 32) (hfit : a + k ≤ n) : ∃ bytes, linear.load a k = some bytes ∧ mem.load (base.toNat + a) k = some bytes := by
  have covers := hbelow.covers_iff.mpr (.inr hfit)
  obtain ⟨bytes, hbytes⟩ := Option.isSome_iff_exists.mp (Memory.load_isSome.mpr covers)
  exact ⟨bytes, hbytes, by rw [h.load ((hfit.trans hn).trans (by decide)), hbytes]⟩

theorem jitWasmOpcode_stores {i : StoreInstr} (hlive : s.live = true) (hopcode : s.code.data.head? = some opcode)
    (hi : StoreInstr.ofOpcode opcode.toNat = some i) (h : jitWasmOpcode s = some ((), t)) :
    ∃ memArg, pullMemArg s.code = some (memArg, t.code) ∧ StoresBytes s t memArg i := by
  obtain ⟨opcode', code, hpull, h⟩ := jitWasmOpcode_live hlive h
  obtain ⟨hdata, hprev⟩ := (bufferPullU8_eq_some _ _).mp hpull
  obtain rfl : opcode' = opcode := by simpa [hdata] using hopcode
  obtain ⟨hlo, hhi, type, size, hparams, htype, hbytes⟩ := storeParams_ofOpcode hi
  rw [jitLiveOpcode_store ⟨hlo, hhi⟩] at h
  obtain ⟨memArg, type', size', hmem, hparams', he⟩ := jitWasmStore_eq_some h
  rw [hprev, hparams] at hparams'
  cases hparams'
  refine ⟨memArg, (bind_eq_some _ _ _ _).mpr ⟨_, code, hpull, hmem⟩, ?_⟩
  intro W B σ type' value addr rest shared linear n htype' hview hB hplaced hbelow hn hfit
  obtain rfl := Option.some.inj (htype.symm.trans htype')
  obtain ⟨o, ⟨hoff, rfl⟩, hends⟩ := (Runs.storeAt (w := { stack := (type, value) :: (.i32, addr) :: rest, shared })
    (storeParams_fits hparams).2 rfl _ _ _ he).2 σ B hview hB (links_call W t.ctx)
  obtain ⟨bytes, -, hfound⟩ := hplaced.found hbelow hn hfit
  have hout : value.toBytes size.bytes = i.bytesOf value.toNat := by rw [toBytes_eq, ← hbytes, StoreInstr.bytesOf]
  rw [hplaced.address hoff, hout, MemoryOp.store_of_load hfound (i.length_bytesOf _), Outcome.done_bind] at hends
  exact ⟨_, hends, hplaced.write, rfl⟩

theorem jitWasmOpcode_loads {i : LoadInstr} (hlive : s.live = true) (hopcode : s.code.data.head? = some opcode)
    (hi : LoadInstr.ofOpcode opcode.toNat = some i) (h : jitWasmOpcode s = some ((), t)) :
    ∃ memArg, pullMemArg s.code = some (memArg, t.code) ∧ LoadsNumber s t memArg i := by
  obtain ⟨opcode', code, hpull, h⟩ := jitWasmOpcode_live hlive h
  obtain ⟨hdata, hprev⟩ := (bufferPullU8_eq_some _ _).mp hpull
  obtain rfl : opcode' = opcode := by simpa [hdata] using hopcode
  obtain ⟨hlo, hhi, type, size, extend, hparams, htype, hbytes, hsigned⟩ := loadParams_ofOpcode hi
  rw [jitLiveOpcode_load ⟨hlo, hhi⟩] at h
  obtain ⟨memArg, type', size', extend', hmem, hparams', he⟩ := jitWasmLoad_eq_some h
  rw [hprev, hparams] at hparams'
  cases hparams'
  refine ⟨memArg, (bind_eq_some _ _ _ _).mpr ⟨_, code, hpull, hmem⟩, ?_⟩
  intro W B σ type' addr rest shared linear n htype' hview hB hplaced hbelow hn hfit
  obtain rfl := Option.some.inj (htype.symm.trans htype')
  have fits := loadParams_fits hparams
  obtain ⟨o, ⟨hoff, rfl⟩, hends⟩ := (Runs.loadAt (w := { stack := (.i32, addr) :: rest, shared }) fits rfl _ _ _ he).2 σ B hview hB
    (links_call W t.ctx)
  obtain ⟨bytes, hlinear, hfound⟩ := hplaced.found hbelow hn hfit
  have hlen : bytes.length = i.bytes := (Memory.load_eq_some.mp hlinear).1
  rw [hplaced.address hoff, ← hbytes, MemoryOp.load_found hfound, Outcome.done_bind] at hends
  exact ⟨bytes, _, _, hlinear, Extend.word_value fits hsigned hbytes hlen, hends, rfl⟩

theorem StoresBytes.thenLoad {memArg memArg' : WasmMemArg} {i : StoreInstr} {j : LoadInstr} (hs : StoresBytes s t memArg i)
    (hl : LoadsNumber s' t' memArg' j) : StoreThenLoad s t s' t' memArg memArg' i j := by
  intro W B σ type value addr rest shared linear n htype hview hB hplaced hbelow hn hfit
  obtain ⟨u, hends, hplaced', -⟩ := hs W B σ type value addr rest shared linear n htype hview hB hplaced hbelow hn hfit
  refine ⟨u, hends, fun W' B' σ' type' addr' rest' shared' htype' hW hmem hview' hB' hfit' => ?_⟩
  have covers : linear.Covers (effectiveAddress memArg addr) (i.bytesOf value.toNat).length := by
    rw [i.length_bytesOf]
    exact hbelow.covers_iff.mpr (.inr hfit)
  rw [← hmem, ← hW] at hplaced'
  obtain ⟨bytes, x, u', hbytes, hx, hends', hu⟩ := hl W' B' σ' type' addr' rest' shared' _ n htype' hview' hB' hplaced'
    (hbelow.write covers) hn hfit'
  obtain ⟨hlen, hget⟩ := Memory.load_eq_some.mp hbytes
  refine ⟨bytes, x, u', hlen, fun k hk => ?_, hx, hends', hu.trans hmem⟩
  rw [← hget k hk, Memory.write, i.length_bytesOf]

/-- Every store and every load that is accepted moves the bytes of its width, lowest first, and a load makes of them the
number that WebAssembly prescribes, also of those that a store left. -/
theorem stores_and_loads {i : StoreInstr} {j : LoadInstr} (hlive : s.live = true) (hopcode : s.code.data.head? = some opcode)
    (hi : StoreInstr.ofOpcode opcode.toNat = some i) (h : jitWasmOpcode s = some ((), t)) (hlive' : s'.live = true)
    (hopcode' : s'.code.data.head? = some opcode') (hj : LoadInstr.ofOpcode opcode'.toNat = some j)
    (h' : jitWasmOpcode s' = some ((), t')) :
    ∃ memArg memArg', pullMemArg s.code = some (memArg, t.code) ∧ pullMemArg s'.code = some (memArg', t'.code) ∧
      StoresBytes s t memArg i ∧ LoadsNumber s' t' memArg' j ∧ StoreThenLoad s t s' t' memArg memArg' i j := by
  obtain ⟨memArg, hpull, hs⟩ := jitWasmOpcode_stores hlive hopcode hi h
  obtain ⟨memArg', hpull', hl⟩ := jitWasmOpcode_loads hlive' hopcode' hj h'
  exact ⟨memArg, memArg', hpull, hpull', hs, hl, hs.thenLoad hl⟩

/-- In front of `i64.store`, with an address and a value on the stack. -/
def beforeStore : JitState where
  code := ⟨0, [0x37, 3, 0]⟩
  func := { labels := [{ stack := [⟨some 1, .i64⟩, ⟨some 0, .i32⟩] }] }
  builder := (((({ params := [.ptr, .ptr] } : Builder).createBlock.setBlock 0).build (.iconst .i32 0x80))).build (.iconst .i64 0x80)

/-- In front of `i32.load8_s`, with an address on the stack. -/
def beforeLoad8 : JitState where
  code := ⟨0, [0x2C, 0, 0]⟩
  func := { labels := [{ stack := [⟨some 0, .i32⟩] }] }
  builder := (({ params := [.ptr, .ptr] } : Builder).createBlock.setBlock 0).build (.iconst .i32 0x80)

def onePage : Memory UInt8 := fun a => if a < 65536 then some 0 else none

theorem onePage_below : onePage.Below 65536 := by
  intro a
  unfold onePage
  split_ifs with h <;> simp [h]

theorem stores_and_loads_sign : ∃ t t' u u' x, jitWasmOpcode beforeStore = some ((), t) ∧ jitWasmOpcode beforeLoad8 = some ((), t') ∧
    Ends t.toEmitState (.done { stack := [], shared := u })
      (t.builder.exec {} (beforeStore.builder.since t.builder) { mem := onePage, reg := fun _ => 0x80 }) ∧
    Ends t'.toEmitState (.done { stack := [(.i32, x)], shared := u' })
      (t'.builder.exec {} (beforeLoad8.builder.since t'.builder) { mem := u.mem, reg := fun _ => 0x80 }) ∧ x.setWidth 32 = -128 := by
  have accepted : (jitWasmOpcode beforeStore).map (fun p => p.2.code.data) = some [] := rfl
  have accepted' : (jitWasmOpcode beforeLoad8).map (fun p => p.2.code.data) = some [] := rfl
  obtain ⟨⟨_, t⟩, ht, -⟩ := Option.map_eq_some_iff.mp accepted
  obtain ⟨⟨_, t'⟩, ht', -⟩ := Option.map_eq_some_iff.mp accepted'
  have store : StoreInstr.ofOpcode (0x37 : UInt8).toNat = some ⟨.i64, 8⟩ := rfl
  have load : LoadInstr.ofOpcode (0x2C : UInt8).toNat = some ⟨.i32, 1, true⟩ := rfl
  have immediate : pullMemArg beforeStore.code = some (⟨0, 3, 0⟩, ⟨0, []⟩) := by decide +kernel
  have immediate' : pullMemArg beforeLoad8.code = some (⟨0, 0, 0⟩, ⟨0, []⟩) := by decide +kernel
  obtain ⟨memArg, memArg', hpull, hpull', -, -, both⟩ := stores_and_loads (s := beforeStore) (t := t) rfl rfl store ht rfl rfl load ht'
  obtain ⟨rfl, -⟩ := Prod.mk.inj (Option.some.inj (immediate.symm.trans hpull))
  obtain ⟨rfl, -⟩ := Prod.mk.inj (Option.some.inj (immediate'.symm.trans hpull'))
  have placed : Placed ((({} : World).param 0)) onePage onePage := ⟨by decide, fun a _ => congrArg onePage (Nat.zero_add a)⟩
  have view : View.Of { stack := [(.i64, 0x80), (.i32, 0x80)], shared := { mem := onePage } } beforeStore.toEmitState
      { mem := onePage, reg := fun _ => 0x80 } := by
    refine ⟨ok_of_nothing rfl fun _ => rfl, ⟨rfl, rfl⟩, fun f hf => False.elim hf, ?_, rfl⟩
    exact ⟨_, [], rfl, .cons ⟨rfl, 1, rfl, Nat.one_lt_two, rfl, Word.setWidth_fill 64 _ 0⟩
      (.cons ⟨rfl, 0, rfl, Nat.two_pos, rfl, Word.setWidth_fill 32 _ 0⟩ .nil)⟩
  obtain ⟨u, hends, loads⟩ := both {} t.builder _ .i64 0x80 0x80 [] _ onePage 65536 rfl view (.refl _) placed onePage_below (by decide)
    (by decide)
  have view' : View.Of { stack := [(.i32, 0x80)], shared := { mem := u.mem } } beforeLoad8.toEmitState
      { mem := u.mem, reg := fun _ => 0x80 } := by
    refine ⟨ok_of_nothing rfl fun _ => rfl, ⟨rfl, rfl⟩, fun f hf => False.elim hf, ?_, rfl⟩
    exact ⟨_, [], rfl, .cons ⟨rfl, 0, rfl, Nat.one_pos, rfl, Word.setWidth_fill 32 _ 0⟩ .nil⟩
  obtain ⟨bytes, x, u', hlen, hbytes, hx, hends', -⟩ := loads {} t'.builder _ .i32 0x80 [] { mem := u.mem } rfl rfl rfl view' (.refl _) (by decide)
  obtain ⟨byte, rfl⟩ := List.length_eq_one_iff.mp hlen
  have first : some byte = some 0x80 := hbytes 0 (by decide)
  obtain rfl := Option.some.inj first
  have negative : BitVec.ofInt 32 ((⟨.i32, 1, true⟩ : LoadInstr).value [0x80]) = -128 := by decide
  exact ⟨t, t', u, u', x, ht, ht', hends, hends', hx.trans negative⟩

end Runs

end SpidirWasm.Jit
