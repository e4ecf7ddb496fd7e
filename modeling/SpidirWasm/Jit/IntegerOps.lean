import SpidirWasm.Jit.MemoryAccess
import SpidirWasm.Logic.Bits
import SpidirWasm.Spidir.Control
import SpidirWasm.Wasm.Integers

/-! The integer instructions. The code that is built for one computes what WebAssembly
prescribes, whatever the operands are and whatever spidir leaves open: bits above the type,
shifts by the width or more, and the one remainder that does not fit. -/

namespace SpidirWasm.Jit

open Checked
open Spidir
open Wasm (IUnop IBinop IRelop IntInstr intBits)

/-- The operations that have a handler each, in the order of their opcodes. -/
def intUnops : List IUnop := [.clz, .ctz, .popcnt]

def intBinops : List IBinop := [.add, .sub, .mul, .divS, .divU, .remS, .remU, .and, .or, .xor]

def intShifts : List IBinop := [.shl, .shrS, .shrU, .rotl, .rotr]

/-- What an instruction leaves, over the operands `rest`. -/
def intOutcome (i : IntInstr) (operands rest : List (ValueType × Word)) (s : Store) : Outcome Store View :=
  match i.eval (operands.map Prod.snd) with
  | some r => .done { stack := (intType i.ret, r) :: rest, shared := s }
  | none => .trap s

/-- A program that takes the operands of an instruction off the stack and leaves its result. -/
def Evaluates (e : Emit Unit) (i : IntInstr) : Prop :=
  ∀ helper W w operands rest, operands.map Prod.fst = i.args.map intType → w.stack = operands.reverse ++ rest →
    Runs helper W w e fun _ o => o = intOutcome i operands rest w.shared

variable {helper : HelperKind → List Word → Store → Outcome Store (Word × Store)} {W : World} {w : View} {is64 : Bool}
  {i : IntInstr} {e : Emit Unit}

theorem intType_width (is64 : Bool) : (intType is64).width = intBits is64 := by cases is64 <;> rfl

namespace Evaluates

/-- One operand. -/
theorem one {f : Value → Emit Unit} (hargs : i.args = [is64])
    (h : ∀ helper W w v x rest, w.stack = rest → ⟨v, intType is64, (intType is64).width, x⟩ ∈ w.facts →
      Runs helper W w (f v) fun _ o => o = intOutcome i [(intType is64, x)] rest w.shared) :
    Evaluates (do let v ← jitPop (intType is64); f v) i := by
  intro helper W w operands rest hops hstack
  rw [hargs] at hops
  obtain ⟨⟨τ, x⟩, rfl, ht⟩ := List.map_eq_singleton_iff.mp hops
  change τ = intType is64 at ht
  subst ht
  apply Runs.bind (Runs.pop hstack)
  intro v
  exact h helper W _ v x rest rfl (by simp)

/-- Two operands, the second one above the first. -/
theorem two {f : Value → Value → Emit Unit} (hargs : i.args = [is64, is64])
    (h : ∀ helper W w v₂ v₁ x y rest, w.stack = rest → ⟨v₁, intType is64, (intType is64).width, x⟩ ∈ w.facts →
      ⟨v₂, intType is64, (intType is64).width, y⟩ ∈ w.facts →
      Runs helper W w (f v₂ v₁) fun _ o => o = intOutcome i [(intType is64, x), (intType is64, y)] rest w.shared) :
    Evaluates (do
      let v₂ ← jitPop (intType is64)
      let v₁ ← jitPop (intType is64)
      f v₂ v₁) i := by
  intro helper W w operands rest hops hstack
  rw [hargs] at hops
  obtain ⟨⟨τ, x⟩, operands, rfl, ht, hops⟩ := List.map_eq_cons_iff.mp hops
  obtain ⟨⟨τ', y⟩, rfl, ht'⟩ := List.map_eq_singleton_iff.mp hops
  change τ = intType is64 at ht
  change τ' = intType is64 at ht'
  subst ht ht'
  apply Runs.bind (Runs.pop hstack)
  intro v₂
  apply Runs.bind (Runs.pop rfl)
  intro v₁
  exact h helper W _ v₂ v₁ x y rest rfl (by simp) (by simp)

end Evaluates

theorem View.new {f : Fact} : f ∈ (w.learn f).facts := Set.mem_insert _ _

theorem View.old {f g : Fact} (h : g ∈ w.facts) : g ∈ (w.learn f).facts := Set.mem_insert_of_mem _ h

/-- The result is pushed. -/
theorem Runs.result {v : Value} {r : Word} {operands rest : List (ValueType × Word)}
    (hv : ⟨v, intType i.ret, (intType i.ret).width, r⟩ ∈ w.facts) (hstack : w.stack = rest)
    (heval : i.eval (operands.map Prod.snd) = some r) :
    Runs helper W w (jitPush (intType i.ret) v) fun _ o => o = intOutcome i operands rest w.shared := by
  subst hstack
  rw [intOutcome, heval]
  exact Runs.leave (Runs.push hv)

/-! ### Comparisons -/

/-- A comparison by its kind, with the arguments swapped where that is said. -/
theorem icmpKind_relop {k : ℕ} {op : IRelop}
    (h : [IRelop.eq, .ne, .ltS, .ltU, .gtS, .gtU, .leS, .leU, .geS, .geU][k]? = some op) :
    ∃ kind swap, icmpKind (k + 1) = some (kind, swap) ∧
      ∀ (n : ℕ) (x y : BitVec n), (if swap then kind.compute y x else kind.compute x y) = op.eval x y := by
  match k with
  | 0 | 1 | 2 | 3 | 4 | 5 | 6 | 7 | 8 | 9 =>
    cases h
    exact ⟨_, _, rfl, fun n x y => rfl⟩
  | k + 10 => cases h

theorem cmpi_evaluates {op : ℕ} (h : (IntInstr.tests is64)[op]? = some i) : Evaluates (do
    let arg2 ← jitPop (intType is64)
    let arg1 ← cmpiLeft (intType is64) op
    let (kind, swap) ← lift (icmpKind op)
    let value ← build (if swap then .icmp kind .i32 arg2 arg1 else .icmp kind .i32 arg1 arg2)
    jitPush .i32 value) i := by
  cases op with
  | zero =>
    obtain rfl : IntInstr.eqz is64 = i := Option.some.inj h
    refine .one rfl fun helper W w v x rest hstack hv => ?_
    apply Runs.bind (Runs.iconst 0)
    intro zero
    apply Runs.given
    rintro ⟨kind, swap⟩ hkind
    obtain ⟨rfl, rfl⟩ := Prod.mk.inj (Option.some.inj hkind)
    apply Runs.bind (Runs.icmp View.new (View.old hv))
    intro value
    refine Runs.result (i := .eqz is64) (Set.mem_insert _ _) hstack ?_
    rw [List.map_singleton, IntInstr.eval, ← intType_width]
    simp [Icmp.compute, eq_comm]
  | succ k =>
    obtain ⟨op, hop, rfl⟩ : ∃ op, [IRelop.eq, .ne, .ltS, .ltU, .gtS, .gtU, .leS, .leU, .geS, .geU][k]? = some op ∧
        .relop is64 op = i := by
      rw [IntInstr.tests, List.getElem?_cons_succ, List.getElem?_map] at h
      exact Option.map_eq_some_iff.mp h
    refine .two rfl fun helper W w v₂ v₁ x y rest hstack hx hy => ?_
    obtain ⟨kind, swap, hkind, same⟩ := icmpKind_relop hop
    apply Runs.given
    rintro ⟨kind', swap'⟩ hkind'
    obtain ⟨rfl, rfl⟩ := Prod.mk.inj (Option.some.inj (hkind.symm.trans hkind'))
    cases swap with
    | true =>
      apply Runs.bind (Runs.icmp hy hx)
      intro value
      refine Runs.result (i := .relop is64 op) (Set.mem_insert _ _) hstack ?_
      have swapped := same _ (x.setWidth (intType is64).width) (y.setWidth (intType is64).width)
      simp only [if_true] at swapped
      rw [List.map_cons, List.map_singleton, IntInstr.eval, ← intType_width, swapped]
    | false =>
      apply Runs.bind (Runs.icmp hx hy)
      intro value
      refine Runs.result (i := .relop is64 op) (Set.mem_insert _ _) hstack ?_
      have straight := same _ (x.setWidth (intType is64).width) (y.setWidth (intType is64).width)
      simp only [Bool.false_eq_true, if_false] at straight
      rw [List.map_cons, List.map_singleton, IntInstr.eval, ← intType_width, straight]

/-! ### Unary operations -/

/-- A unary node computes the operation on its type. -/
def Unop.Is (node : Unop) (u : IUnop) (type : ValueType) : Prop :=
  ∀ (W : World) (b : Builder) (v : Value) (x : Word), b.typeOf v = type → b.instType (.unop node v) = type ∧
    ∃ y : Word, node.compute W type x = (type.width, y) ∧ y.setWidth type.width = u.eval (x.setWidth type.width)

/-- A number in a word and back. -/
theorem setWidth_word {type : ValueType} (r : BitVec type.width) : ((r.setWidth 64 : Word).setWidth type.width) = r := by
  rw [BitVec.setWidth_setWidth_of_le _ type.width_le, BitVec.setWidth_eq]

theorem intUnop_is {op : ℕ} {u : IUnop} {type : ValueType} (h : intUnops[op]? = some u) :
    ∃ node, intUnop type op = some node ∧ Unop.Is node u type := by
  match op with
  | 0 | 1 | 2 =>
    cases h
    exact ⟨_, rfl, fun W b v x hv => ⟨rfl, _, rfl, setWidth_word _⟩⟩
  | op + 3 => cases h

/-- An extension in a type fills up from a lower bit. -/
theorem sfill_is {bits : ℕ} {type : ValueType} (hbits : bits ≤ type.width) : Unop.Is (.sfill bits) (.extendS bits) type := by
  refine fun W b v x hv => ⟨hv, _, rfl, ?_⟩
  rw [IUnop.eval, BitVec.setWidth_setWidth_of_le _ hbits, Bits.setWidth_signExtend _ type.width_le]

/-- The code of a unary operation. -/
theorem Runs.unop {node : Unop} {u : IUnop} {type : ValueType} {v : Value} {x : Word} (hnode : Unop.Is node u type)
    (hv : ⟨v, type, type.width, x⟩ ∈ w.facts) : Runs helper W w (build (.unop node v)) fun v o =>
      o = .done (w.learn ⟨v, type, type.width, (u.eval (x.setWidth type.width)).setWidth 64⟩) := by
  refine compute rfl rfl (Nat.le_refl _) fun s σ B hw hB => ?_
  have known : (B.read σ v).setWidth type.width = x.setWidth type.width := (hw.facts _ hv).read hB
  obtain ⟨htype, y, hcompute, hy⟩ := hnode W s.builder v (B.read σ v) (hw.facts _ hv).typeOf
  rw [known] at hy
  exact ⟨htype, y, congrArg Outcome.done hcompute, hy.trans (setWidth_word _).symm⟩

theorem unaryopi_evaluates {op : ℕ} {u : IUnop} (h : intUnops[op]? = some u) : Evaluates (do
    let arg ← jitPop (intType is64)
    let node ← lift (intUnop (intType is64) op)
    jitPush (intType is64) (← build (.unop node arg))) (.unop is64 u) := by
  refine .one rfl fun helper W w v x rest hstack hv => ?_
  obtain ⟨node, hnode, his⟩ : ∃ node, intUnop (intType is64) op = some node ∧ Unop.Is node u (intType is64) := intUnop_is h
  apply Runs.given
  intro node' hnode'
  obtain rfl := Option.some.inj (hnode.symm.trans hnode')
  apply Runs.bind (Runs.unop his hv)
  intro value
  refine Runs.result (i := .unop is64 u) (Set.mem_insert _ _) hstack ?_
  rw [List.map_singleton, IntInstr.eval, ← intType_width]

/-! ### Binary operations -/

/-- A node that computes the operation, and traps where it does. -/
def Binop.Is (node : Binop) (op : IBinop) : Prop := node.isFloat = false ∧ ∀ (n : ℕ) (x y : BitVec n), 0 < n →
  node.compute x y = match op.eval x y with
    | some r => .done r
    | none => .trap ()

/-- The binary operations but for the signed remainder are nodes. -/
theorem intBinop_is {k : ℕ} {op : IBinop} {node : Binop}
    (h : intBinops[k]? = some op) (hnode : intBinop k = some node)
    (hrem : node ≠ .srem) : Binop.Is node op := by
  match k with
  | 0 | 1 | 2 | 7 | 8 | 9 =>
    cases h
    cases hnode
    exact ⟨rfl, fun n x y _ => rfl⟩
  | 3 =>
    cases h
    cases hnode
    refine ⟨rfl, fun n x y hn => ?_⟩
    rw [Binop.compute, IBinop.eval, Bits.sdiv_eq]
    simp only [Bits.tdiv_eq_two_pow_iff hn]
    by_cases h0 : y = 0
    · rw [if_pos (.inl h0), if_pos h0]
    · by_cases hover : x = BitVec.intMin n ∧ y = BitVec.allOnes n
      · rw [if_pos (.inr hover), if_neg h0, if_pos hover]
      · rw [if_neg (not_or.mpr ⟨h0, hover⟩), if_neg h0, if_neg hover]
  | 4 =>
    cases h
    cases hnode
    refine ⟨rfl, fun n x y hn => ?_⟩
    rw [Binop.compute, IBinop.eval, Bits.udiv_eq]
    split_ifs <;> rfl
  | 6 =>
    cases h
    cases hnode
    refine ⟨rfl, fun n x y hn => ?_⟩
    rw [Binop.compute, IBinop.eval, Bits.umod_eq]
    split_ifs <;> rfl
  | 5 =>
    cases hnode
    exact absurd rfl hrem
  | k + 10 => cases h

/-- What a binary operation leaves. -/
theorem intOutcome_binop (op : IBinop) (x y : Word) (rest : List (ValueType × Word)) (s : Store) :
    intOutcome (.binop is64 op) [(intType is64, x), (intType is64, y)] rest s =
      match op.eval (x.setWidth (intType is64).width) (y.setWidth (intType is64).width) with
      | some r => .done { stack := (intType is64, r.setWidth 64) :: rest, shared := s }
      | none => .trap s := by
  unfold intOutcome
  rw [List.map_cons, List.map_singleton, IntInstr.eval, ← intType_width]
  cases op.eval (x.setWidth (intType is64).width) (y.setWidth (intType is64).width) <;> rfl

/-- The code of a binary operation that is one node. -/
theorem Runs.binopIs {node : Binop} {op : IBinop} {v₁ v₂ : Value} {x y : Word} {rest : List (ValueType × Word)}
    (hnode : Binop.Is node op) (hstack : w.stack = rest) (hx : ⟨v₁, intType is64, (intType is64).width, x⟩ ∈ w.facts)
    (hy : ⟨v₂, intType is64, (intType is64).width, y⟩ ∈ w.facts) :
    Runs helper W w (do jitPush (intType is64) (← build (.binop node v₁ v₂))) fun _ o =>
      o = intOutcome (.binop is64 op) [(intType is64, x), (intType is64, y)] rest w.shared := by
  have hpos : 0 < (intType is64).width := by cases is64 <;> decide
  have run : Runs helper W w (build (.binop node v₁ v₂)) _ := Runs.binop hnode.1 hx hy
  rw [hnode.2 _ _ _ hpos] at run
  subst hstack
  refine (Runs.outcome (k := fun r => .done { stack := (intType is64, r.setWidth 64) :: w.stack, shared := w.shared }) run
    fun v r => Runs.leave (Runs.push (Set.mem_insert _ _))).weaken fun _ o ho => ho.trans ?_
  rw [intOutcome_binop]
  cases op.eval (x.setWidth (intType is64).width) (y.setWidth (intType is64).width) <;> rfl

/-- A signed remainder of a dividend that is masked out where the divisor is -1. -/
theorem srem_masked {n : ℕ} (hn : 0 < n) (a b : BitVec n) :
    Binop.srem.compute (a &&& ((if b = BitVec.allOnes n then 1 else 0) - 1)) b = match IBinop.remS.eval a b with
      | some r => .done r
      | none => .trap () := by
  rw [Bits.masked_dividend, Binop.compute, IBinop.eval]
  by_cases h0 : b = 0
  · rw [if_pos h0, if_pos h0]
  rw [if_neg h0, if_neg h0]
  by_cases hones : b = BitVec.allOnes n
  · have least : (0 : BitVec n) ≠ BitVec.intMin n := by
      intro h
      have zero := congrArg BitVec.toInt h
      rw [BitVec.toInt_intMin_of_pos hn] at zero
      have big : (0 : ℤ) < 2 ^ (n - 1) := Int.pow_pos (by decide)
      have none : (0 : BitVec n).toInt = 0 := BitVec.toInt_zero
      omega
    rw [if_pos hones, if_neg fun h => least h.1, Bits.srem_eq, hones, BitVec.toInt_allOnes, if_pos hn]
    simp
  · rw [if_neg hones, if_neg fun h => hones h.2, Bits.srem_eq]

/-- The code of a signed remainder: the dividend is masked out where the divisor is -1. -/
theorem Runs.srem {v₁ v₂ : Value} {x y : Word} {rest : List (ValueType × Word)} (hstack : w.stack = rest)
    (hx : ⟨v₁, intType is64, (intType is64).width, x⟩ ∈ w.facts) (hy : ⟨v₂, intType is64, (intType is64).width, y⟩ ∈ w.facts) :
    Runs helper W w (do jitPush (intType is64) (← jitEmitSrem (intType is64) v₁ v₂)) fun _ o =>
      o = intOutcome (.binop is64 .remS) [(intType is64, x), (intType is64, y)] rest w.shared := by
  have hpos : 0 < (intType is64).width := by cases is64 <;> decide
  have ones : (if intType is64 = .i32 then 0xFFFFFFFF else 0xFFFFFFFFFFFFFFFF : Word).setWidth (intType is64).width =
      BitVec.allOnes (intType is64).width := by cases is64 <;> decide
  have one : (1 : Word).setWidth (intType is64).width = 1 := by cases is64 <;> decide
  unfold jitEmitSrem
  simp only [bind_assoc]
  apply Runs.bind (Runs.iconst _)
  intro minusOne
  apply Runs.bind (Runs.icmp (View.old hy) View.new)
  intro isNegOne
  apply Runs.bind (Runs.iconst 1)
  intro unit
  refine Runs.bind (Runs.binopDone rfl (View.old View.new) View.new rfl) fun mask => ?_
  refine Runs.bind (Runs.binopDone rfl (View.old (View.old (View.old (View.old hx)))) View.new rfl) fun masked => ?_
  refine (Runs.outcome (k := fun r => .done { stack := (intType is64, r.setWidth 64) :: w.stack, shared := w.shared })
    (Runs.binop rfl View.new (View.old (View.old (View.old (View.old (View.old hy))))))
    fun v r => Runs.leave (Runs.push View.new)).weaken fun _ o ho => ho.trans ?_
  subst hstack
  have bit (p : Prop) [Decidable p] : (if p then 1 else 0 : Word).setWidth (intType is64).width =
      if p then 1 else 0 := by
    split_ifs
    · exact one
    · exact BitVec.setWidth_zero _ _
  rw [setWidth_word, setWidth_word, ones, Icmp.compute]
  simp only [decide_eq_true_eq]
  rw [bit, one, srem_masked hpos, intOutcome_binop]
  cases IBinop.remS.eval (x.setWidth (intType is64).width) (y.setWidth (intType is64).width) <;> rfl

theorem binopi_evaluates {k : ℕ} {op : IBinop} (h : intBinops[k]? = some op) :
    Evaluates (do
      let arg2 ← jitPop (intType is64)
      let arg1 ← jitPop (intType is64)
      let node ← lift (intBinop k)
      let value ← jitEmitBinopi (intType is64) node arg1 arg2
      jitPush (intType is64) value) (.binop is64 op) := by
  refine .two rfl fun helper W w v₂ v₁ x y rest hstack hx hy => ?_
  apply Runs.given
  intro node hnode
  unfold jitEmitBinopi
  by_cases hrem : node = .srem
  · subst hrem
    obtain rfl : op = .remS := by
      match k with
      | 5 => exact (Option.some.inj h).symm
      | 0 | 1 | 2 | 3 | 4 | 6 | 7 | 8 | 9 => cases hnode
      | k + 10 => cases hnode
    rw [if_pos rfl]
    exact Runs.srem hstack hx hy
  · rw [if_neg hrem]
    exact Runs.binopIs (intBinop_is h hnode hrem) hstack hx hy

/-! ### Shifts and rotations -/

/-- The mask of a count. -/
def countMask (type : ValueType) : ℕ := if type = .i32 then 31 else 63

theorem toNat_count (is64 : Bool) (y : BitVec (intType is64).width) :
    (y &&& (BitVec.ofNat 64 (countMask (intType is64)) : Word).setWidth (intType is64).width).toNat = y.toNat % (intType is64).width := by
  cases is64 with
  | false => exact Bits.toNat_and_mask (n := 32) (k := 5) y (by decide)
  | true => exact Bits.toNat_and_mask (n := 64) (k := 6) y (by decide)

theorem toNat_rest (is64 : Bool) {s : BitVec (intType is64).width} (hs : s.toNat < (intType is64).width) :
    ((BitVec.ofNat 64 (countMask (intType is64)) : Word).setWidth (intType is64).width &&&
      ((BitVec.ofNat 64 (countMask (intType is64) + 1) : Word).setWidth (intType is64).width - s)).toNat =
        ((intType is64).width - s.toNat) % (intType is64).width := by
  cases is64 with
  | false => exact Bits.toNat_mask_sub (k := 5) hs
  | true => exact Bits.toNat_mask_sub (k := 6) hs

/-- A node that shifts by less than the width. -/
structure Binop.Shifts (node : Binop) (f : ∀ n : ℕ, BitVec n → ℕ → BitVec n) : Prop where
  int : node.isFloat = false
  compute : ∀ (n : ℕ) (x s : BitVec n), s.toNat < n → node.compute x s = .done (f n x s.toNat)

theorem shl_shifts : Binop.Shifts .shl fun _ x s => x <<< s := ⟨rfl, fun _ _ _ h => if_neg (Nat.not_le.mpr h)⟩

theorem lshr_shifts : Binop.Shifts .lshr fun _ x s => x >>> s := ⟨rfl, fun _ _ _ h => if_neg (Nat.not_le.mpr h)⟩

theorem ashr_shifts : Binop.Shifts .ashr fun _ x s => x.sshiftRight s := ⟨rfl, fun _ _ _ h => if_neg (Nat.not_le.mpr h)⟩

section Shifts

variable {node first second : Binop} {f g : ∀ n : ℕ, BitVec n → ℕ → BitVec n} {value shiftAmt mask : Value} {x : Word}
  {s : BitVec (intType is64).width}

/-- The code of a shift. -/
theorem Runs.shift (hnode : Binop.Shifts node f) (hs : s.toNat < (intType is64).width)
    (hx : ⟨value, intType is64, (intType is64).width, x⟩ ∈ w.facts)
    (hamt : ⟨shiftAmt, intType is64, (intType is64).width, s.setWidth 64⟩ ∈ w.facts) :
    Runs helper W w (build (.binop node value shiftAmt)) fun v o =>
      o = .done (w.learn ⟨v, intType is64, (intType is64).width, (f _ (x.setWidth (intType is64).width) s.toNat).setWidth 64⟩) := by
  refine Runs.binopDone hnode.int hx hamt ?_
  rw [setWidth_word]
  exact hnode.compute _ _ _ hs

/-- The code of a rotation, by a shift and one the other way. -/
theorem Runs.rotate (hfirst : Binop.Shifts first f) (hsecond : Binop.Shifts second g) (hs : s.toNat < (intType is64).width)
    (hx : ⟨value, intType is64, (intType is64).width, x⟩ ∈ w.facts)
    (hamt : ⟨shiftAmt, intType is64, (intType is64).width, s.setWidth 64⟩ ∈ w.facts)
    (hmask : ⟨mask, intType is64, (intType is64).width, BitVec.ofNat 64 (countMask (intType is64))⟩ ∈ w.facts) :
    Runs helper W w (jitEmitRotate first second (intType is64) (countMask (intType is64)) value shiftAmt mask) fun v o =>
      o = .done (w.learn ⟨v, intType is64, (intType is64).width, (f _ (x.setWidth (intType is64).width) s.toNat |||
        g _ (x.setWidth (intType is64).width) (((intType is64).width - s.toNat) % (intType is64).width)).setWidth 64⟩) := by
  have hrest := toNat_rest is64 hs
  have hless := hrest.trans_lt (Nat.mod_lt _ (Nat.zero_lt_of_lt hs))
  unfold jitEmitRotate
  apply Runs.bind (Runs.iconst _)
  intro bitCount
  apply Runs.bind (Runs.shift hfirst hs (View.old hx) (View.old hamt))
  intro one
  refine Runs.bind (Runs.binopDone rfl (View.old View.new) (View.old (View.old hamt)) rfl) fun rest => ?_
  refine Runs.bind (Runs.binopDone rfl (View.old (View.old (View.old hmask))) View.new rfl) fun rest' => ?_
  rw [setWidth_word, setWidth_word]
  refine Runs.bind (Runs.shift hsecond hless (View.old (View.old (View.old (View.old hx)))) View.new) fun other => ?_
  refine (Runs.binopDone rfl (View.old (View.old (View.old View.new))) View.new ?_).giving ?_ rfl rfl
  · rw [setWidth_word, setWidth_word, hrest]
    rfl
  · exact fun _ h => View.old (View.old (View.old (View.old (View.old h))))

/-- The code of an operation that goes by a count which was reduced modulo the width. -/
theorem Runs.shiftOp {k : ℕ} {op : IBinop} {y : BitVec (intType is64).width} (hop : intShifts[k]? = some op)
    (hs : s.toNat = y.toNat % (intType is64).width) (hx : ⟨value, intType is64, (intType is64).width, x⟩ ∈ w.facts)
    (hamt : ⟨shiftAmt, intType is64, (intType is64).width, s.setWidth 64⟩ ∈ w.facts)
    (hmask : ⟨mask, intType is64, (intType is64).width, BitVec.ofNat 64 (countMask (intType is64))⟩ ∈ w.facts) :
    ∃ r, op.eval (x.setWidth (intType is64).width) y = some r ∧
      Runs helper W w (jitEmitShift (intType is64) (countMask (intType is64)) k value shiftAmt mask) fun v o =>
        o = .done (w.learn ⟨v, intType is64, (intType is64).width, r.setWidth 64⟩) := by
  have hpos : 0 < (intType is64).width := by cases is64 <;> decide
  have hless : s.toNat < (intType is64).width := hs.trans_lt (Nat.mod_lt _ hpos)
  match k with
  | 0 =>
    cases hop
    exact ⟨_, congrArg some (congrArg _ hs.symm), Runs.shift shl_shifts hless hx hamt⟩
  | 1 =>
    cases hop
    exact ⟨_, congrArg some (congrArg _ hs.symm), Runs.shift ashr_shifts hless hx hamt⟩
  | 2 =>
    cases hop
    exact ⟨_, congrArg some (congrArg _ hs.symm), Runs.shift lshr_shifts hless hx hamt⟩
  | 3 =>
    cases hop
    refine ⟨_, congrArg some ?_, Runs.rotate shl_shifts lshr_shifts hless hx hamt hmask⟩
    rw [← hs, Bits.rotateLeft_eq _ hless]
  | 4 =>
    cases hop
    refine ⟨_, congrArg some ?_, Runs.rotate lshr_shifts shl_shifts hless hx hamt hmask⟩
    rw [← hs, Bits.rotateRight_eq _ hless]
  | k + 5 => cases hop

end Shifts

theorem shift_evaluates {k : ℕ} {op : IBinop} (h : intShifts[k]? = some op) : Evaluates (do
    let shiftAmt ← jitPop (intType is64)
    let value ← jitPop (intType is64)
    let mask ← build (.iconst (intType is64) (BitVec.ofNat 64 (countMask (intType is64))))
    let shiftAmt ← build (.binop .and shiftAmt mask)
    let result ← jitEmitShift (intType is64) (countMask (intType is64)) k value shiftAmt mask
    jitPush (intType is64) result) (.binop is64 op) := by
  refine .two rfl fun helper W w v₂ v₁ x y rest hstack hx hy => ?_
  apply Runs.bind (Runs.iconst _)
  intro mask
  refine Runs.bind (Runs.binopDone rfl (View.old hy) View.new rfl) fun shiftAmt => ?_
  obtain ⟨r, heval, run⟩ : ∃ r, op.eval (x.setWidth (intType is64).width) (y.setWidth (intType is64).width) = some r ∧
      Runs helper W _ _ fun v o => o = .done (View.learn _ ⟨v, intType is64, (intType is64).width, r.setWidth 64⟩) :=
    Runs.shiftOp h (toNat_count is64 _) (View.old (View.old hx)) View.new (View.old View.new)
  apply Runs.bind run
  intro result
  refine Runs.result (i := .binop is64 op) View.new hstack ?_
  rw [List.map_cons, List.map_singleton, IntInstr.eval, ← intType_width, heval]
  rfl

/-! ### Conversions -/

theorem wrap_evaluates : Evaluates (do
    let v ← jitPop .i64
    jitPush .i32 (← build (.unop .itrunc v))) .wrap := by
  refine @Evaluates.one true _ _ rfl fun helper W w v x rest hstack hv => ?_
  have cut : Runs helper W w (build (.unop .itrunc v)) fun v o =>
      o = .done (w.learn ⟨v, .i32, ValueType.i32.width, (x.setWidth 32).setWidth 64⟩) := by
    refine Runs.compute rfl rfl (Nat.le_refl _) fun s σ B hw hB => ⟨rfl, _, rfl, ?_⟩
    have known : (B.read σ v).setWidth 64 = x.setWidth 64 := (hw.facts _ hv).read hB
    rw [BitVec.setWidth_eq, BitVec.setWidth_eq] at known
    exact (congrArg (BitVec.setWidth 32) known).trans (@setWidth_word .i32 _).symm
  apply Runs.bind cut
  intro value
  exact Runs.result (i := .wrap) View.new hstack rfl

theorem extendS_evaluates : Evaluates (do
    let v ← jitPop .i32
    let e ← build (.unop .iext v)
    jitPush .i64 (← build (.unop (.sfill 32) e))) (.extend true) := by
  refine @Evaluates.one false _ _ rfl fun helper W w v x rest hstack hv => ?_
  apply Runs.bind (Runs.iext hv)
  intro e
  have fill : Runs helper W (w.learn ⟨e, .i64, 32, x⟩) (build (.unop (.sfill 32) e)) fun v o =>
      o = .done ((w.learn ⟨e, .i64, 32, x⟩).learn ⟨v, .i64, ValueType.i64.width, (x.setWidth 32).signExtend 64⟩) := by
    refine Runs.compute rfl rfl (Nat.le_refl _) fun s σ B hw hB => ?_
    have known : (B.read σ e).setWidth 32 = x.setWidth 32 := (hw.facts _ View.new).read hB
    refine ⟨(hw.facts _ View.new).typeOf, _, rfl, ?_⟩
    rw [known]
  apply Runs.bind fill
  intro value
  exact Runs.result (i := .extend true) View.new hstack rfl

theorem extendU_evaluates : Evaluates (do
    let v ← jitPop .i32
    jitPush .i64 (← jitEmitZext64 v)) (.extend false) := by
  refine @Evaluates.one false _ _ rfl fun helper W w v x rest hstack hv => ?_
  apply Runs.bind (Runs.zext64 hv)
  intro e
  exact Runs.result (i := .extend false) View.new hstack rfl

theorem sfill_evaluates {bits : ℕ} (hbits : bits ≤ (intType is64).width) : Evaluates (do
    let v ← jitPop (intType is64)
    jitPush (intType is64) (← build (.unop (.sfill bits) v))) (.unop is64 (.extendS bits)) := by
  refine .one rfl fun helper W w v x rest hstack hv => ?_
  apply Runs.bind (Runs.unop (sfill_is hbits) hv)
  intro value
  refine Runs.result (i := .unop is64 (.extendS bits)) View.new hstack ?_
  rw [List.map_singleton, IntInstr.eval, ← intType_width]

/-- The extensions in a type by their opcodes. -/
theorem sfillParams_extensions {opcode : ℕ} (hlo : 0xC0 ≤ opcode) (h : IntInstr.extensions[opcode - 0xC0]? = some i) :
    ∃ is64 bits, sfillParams opcode = some (intType is64, bits) ∧ bits ≤ (intType is64).width ∧ i = .unop is64 (.extendS bits) := by
  obtain ⟨k, rfl⟩ := Nat.exists_eq_add_of_le hlo
  rw [Nat.add_sub_cancel_left] at h
  match k with
  | 0 | 1 =>
    cases h
    exact ⟨false, _, rfl, by decide, rfl⟩
  | 2 | 3 | 4 =>
    cases h
    exact ⟨true, _, rfl, by decide, rfl⟩
  | k + 5 => cases h

/-! ### Opcodes -/

/-- What an option gives may be looked up before. -/
theorem Evaluates.given {α : Type} {o : Option α} {a : α} {f : α → Emit Unit} (ho : o = some a) (h : Evaluates (f a) i) :
    Evaluates (lift o >>= f) i := by
  intro helper W w operands rest hops hstack
  apply Runs.given
  intro a' ha'
  obtain rfl := Option.some.inj (ho.symm.trans ha')
  exact h helper W w operands rest hops hstack

/-- A handler that is reached with its opcode behind the cursor evaluates the instruction. -/
def Lowers (m : Handler Unit) (opcode : UInt8) (i : IntInstr) : Prop :=
  ∀ s t, s.code.prev = opcode → m s = some ((), t) → ∃ e : Emit Unit, e s.toEmitState = some ((), t.toEmitState) ∧ Evaluates e i

theorem Lowers.prev {f : UInt8 → Emit Unit} {opcode : UInt8} (h : Evaluates (f opcode) i) :
    Lowers (do let opcode ← pull bufferPrev; emit (f opcode)) opcode i := by
  rintro s t rfl hm
  simp only [pull_bind_eq_some, bufferPrev, read_eq_some, emit_eq_some] at hm
  obtain ⟨_, _, hprev, _, e, he, ht⟩ := hm
  obtain ⟨rfl, rfl⟩ := Prod.mk.inj hprev
  obtain ⟨-, rfl⟩ := Prod.mk.inj ht
  exact ⟨_, he, h⟩

/-- The arithmetic of a type is split up between three handlers. -/
theorem arithmetic_cases {k : ℕ} (h : (IntInstr.arithmetic is64)[k]? = some i) :
    (∃ op, k < 3 ∧ intUnops[k]? = some op ∧ .unop is64 op = i) ∨
    (∃ op, 3 ≤ k ∧ k < 13 ∧ intBinops[k - 3]? = some op ∧ .binop is64 op = i) ∨
    ∃ op, 13 ≤ k ∧ k < 18 ∧ intShifts[k - 13]? = some op ∧ .binop is64 op = i := by
  have split : IntInstr.arithmetic is64 =
      intUnops.map (.unop is64) ++ (intBinops.map (.binop is64) ++ intShifts.map (.binop is64)) := rfl
  rw [split, List.getElem?_append, List.getElem?_append, List.getElem?_map, List.getElem?_map, List.getElem?_map] at h
  simp only [List.length_map] at h
  split_ifs at h with hun hbin
  · obtain ⟨op, hop, hi⟩ := Option.map_eq_some_iff.mp h
    exact .inl ⟨op, hun, hop, hi⟩
  · obtain ⟨op, hop, hi⟩ := Option.map_eq_some_iff.mp h
    have hlo : ¬k < 3 := hun
    have hhi : k - 3 < 10 := hbin
    exact .inr (.inl ⟨op, by omega, by omega, hop, hi⟩)
  · obtain ⟨op, hop, hi⟩ := Option.map_eq_some_iff.mp h
    have hlo : ¬k < 3 := hun
    have hmid : ¬k - 3 < 10 := hbin
    have hhi : k - 3 - 10 < 5 := (List.getElem?_eq_some_iff.mp hop).1
    refine .inr (.inr ⟨op, by omega, by omega, ?_, hi⟩)
    rwa [Nat.sub_sub] at hop

/-- A handler in a live label. -/
theorem jitLiveOpcode_data {opcode : ℕ} {m : Handler Unit} (hop : 0x0F < opcode) (h : dataHandler opcode = some m) :
    jitLiveOpcode opcode = m := by
  unfold jitLiveOpcode
  split <;> first | omega | rw [h, Option.getD_some]

theorem jitLiveOpcode_cmpi {opcode : ℕ} (h : 0x45 ≤ opcode ∧ opcode ≤ 0x5A) : jitLiveOpcode opcode = jitWasmCmpi := by
  refine jitLiveOpcode_data (by omega) ?_
  unfold dataHandler
  iterate 18 rw [if_neg (by omega)]
  exact if_pos h

theorem jitLiveOpcode_unaryopi {opcode : ℕ} (h : 0x67 ≤ opcode ∧ opcode ≤ 0x69 ∨ 0x79 ≤ opcode ∧ opcode ≤ 0x7B) :
    jitLiveOpcode opcode = jitWasmUnaryopi := by
  refine jitLiveOpcode_data (by omega) ?_
  unfold dataHandler
  iterate 20 rw [if_neg (by omega)]
  rcases h with h | h
  · exact if_pos h
  · iterate 3 rw [if_neg (by omega)]
    exact if_pos h

theorem jitLiveOpcode_binopi {opcode : ℕ} (h : 0x6A ≤ opcode ∧ opcode ≤ 0x73 ∨ 0x7C ≤ opcode ∧ opcode ≤ 0x85) :
    jitLiveOpcode opcode = jitWasmBinopi := by
  refine jitLiveOpcode_data (by omega) ?_
  unfold dataHandler
  iterate 21 rw [if_neg (by omega)]
  rcases h with h | h
  · exact if_pos h
  · iterate 3 rw [if_neg (by omega)]
    exact if_pos h

theorem jitLiveOpcode_shift {opcode : ℕ} (h : 0x74 ≤ opcode ∧ opcode ≤ 0x78 ∨ 0x86 ≤ opcode ∧ opcode ≤ 0x8A) :
    jitLiveOpcode opcode = jitWasmShift := by
  refine jitLiveOpcode_data (by omega) ?_
  unfold dataHandler
  iterate 22 rw [if_neg (by omega)]
  rcases h with h | h
  · exact if_pos h
  · iterate 3 rw [if_neg (by omega)]
    exact if_pos h

theorem jitLiveOpcode_iconv {opcode : ℕ} (h : opcode = 0xA7 ∨ opcode = 0xAC ∨ opcode = 0xAD ∨ 0xC0 ≤ opcode ∧ opcode ≤ 0xC4) :
    jitLiveOpcode opcode = jitWasmIconv := by
  refine jitLiveOpcode_data (by omega) ?_
  unfold dataHandler
  iterate 30 rw [if_neg (by omega)]
  rcases h with rfl | rfl | rfl | h
  · rfl
  · rfl
  · rfl
  · iterate 7 rw [if_neg (by omega)]
    exact if_pos h

variable {opcode : UInt8} {k : ℕ}

theorem jitWasmCmpi_lowers (hrange : opcodeRange (0x45, 0x4F) (0x50, 0x5A) .i32 .i64 opcode.toNat = some (intType is64, k))
    (h : (IntInstr.tests is64)[k]? = some i) : Lowers jitWasmCmpi opcode i :=
  .prev (.given hrange (cmpi_evaluates h))

theorem jitWasmUnaryopi_lowers {op : IUnop}
    (hrange : opcodeRange (0x67, 0x69) (0x79, 0x7B) .i32 .i64 opcode.toNat = some (intType is64, k)) (h : intUnops[k]? = some op) :
    Lowers jitWasmUnaryopi opcode (.unop is64 op) :=
  .prev (.given hrange (unaryopi_evaluates h))

theorem jitWasmBinopi_lowers {op : IBinop}
    (hrange : opcodeRange (0x6A, 0x73) (0x7C, 0x85) .i32 .i64 opcode.toNat = some (intType is64, k)) (h : intBinops[k]? = some op) :
    Lowers jitWasmBinopi opcode (.binop is64 op) :=
  .prev (.given hrange (binopi_evaluates h))

theorem jitWasmShift_lowers {op : IBinop}
    (hrange : opcodeRange (0x74, 0x78) (0x86, 0x8A) .i32 .i64 opcode.toNat = some (intType is64, k)) (h : intShifts[k]? = some op) :
    Lowers jitWasmShift opcode (.binop is64 op) :=
  .prev (.given hrange (shift_evaluates h))

/-- The first opcode of the arithmetic of a type. -/
def firstArithmetic (is64 : Bool) : ℕ := if is64 then 0x79 else 0x67

/-- Where an arithmetic opcode lies in the ranges of its handler, which take up the opcodes from `lo` on. -/
theorem opcodeRange_arithmetic {n : ℕ} (lo m : ℕ) (h : n = firstArithmetic is64 + (lo + k)) (hk : k < m) (hm : lo + m ≤ 18) :
    opcodeRange (0x67 + lo, 0x67 + lo + m - 1) (0x79 + lo, 0x79 + lo + m - 1) .i32 .i64 n = some (intType is64, k) := by
  unfold opcodeRange
  subst h
  cases is64 with
  | false =>
    have first : firstArithmetic false = 0x67 := rfl
    rw [first, if_pos (by simp only; omega)]
    simp only [← Nat.add_assoc, Nat.add_sub_cancel_left]
    rfl
  | true =>
    have first : firstArithmetic true = 0x79 := rfl
    rw [first, if_neg (by simp only; omega), if_pos (by simp only; omega)]
    simp only [← Nat.add_assoc, Nat.add_sub_cancel_left]
    rfl

theorem arithmetic_lowers (hopcode : opcode.toNat = firstArithmetic is64 + k) (h : (IntInstr.arithmetic is64)[k]? = some i) :
    Lowers (jitLiveOpcode opcode.toNat) opcode i := by
  have first : firstArithmetic is64 = 0x67 ∨ firstArithmetic is64 = 0x79 := by cases is64 <;> decide
  obtain ⟨op, hk, hop, rfl⟩ | ⟨op, hlo, hhi, hop, rfl⟩ | ⟨op, hlo, hhi, hop, rfl⟩ := arithmetic_cases h
  · rw [jitLiveOpcode_unaryopi (by omega)]
    exact jitWasmUnaryopi_lowers (opcodeRange_arithmetic 0 3 (by omega) hk (by decide)) hop
  · rw [jitLiveOpcode_binopi (by omega)]
    exact jitWasmBinopi_lowers (opcodeRange_arithmetic 3 10 (by omega) (by omega) (by decide)) hop
  · rw [jitLiveOpcode_shift (by omega)]
    exact jitWasmShift_lowers (opcodeRange_arithmetic 13 5 (by omega) (by omega) (by decide)) hop

theorem jitWasmIconv_sfill {bits : ℕ} (hopcode : 0xC0 ≤ opcode.toNat) (hparams : sfillParams opcode.toNat = some (intType is64, bits))
    (hbits : bits ≤ (intType is64).width) : Lowers jitWasmIconv opcode (.unop is64 (.extendS bits)) := by
  have other (c : UInt8) (hc : c.toNat < 0xC0) : opcode ≠ c := by
    rintro rfl
    omega
  refine .prev ?_
  simp only [if_neg (other 0xA7 (by decide)), if_neg (other 0xAC (by decide)), if_neg (other 0xAD (by decide))]
  exact .given hparams (sfill_evaluates hbits)

/-- An integer instruction is lowered by the handler of its opcode. -/
theorem ofOpcode_lowers (h : IntInstr.ofOpcode opcode.toNat = some i) : Lowers (jitLiveOpcode opcode.toNat) opcode i := by
  unfold IntInstr.ofOpcode at h
  split_ifs at h with h₁ h₂ h₃ h₄ h₅ h₆ h₇ h₈
  · rw [jitLiveOpcode_cmpi (by omega)]
    refine jitWasmCmpi_lowers ?_ h
    exact if_pos h₁
  · rw [jitLiveOpcode_cmpi (by omega)]
    refine jitWasmCmpi_lowers ?_ h
    exact (if_neg h₁).trans (if_pos h₂)
  · refine arithmetic_lowers ?_ h
    show opcode.toNat = 0x67 + (opcode.toNat - 0x67)
    omega
  · refine arithmetic_lowers ?_ h
    show opcode.toNat = 0x79 + (opcode.toNat - 0x79)
    omega
  · obtain rfl : opcode = 0xA7 := UInt8.toNat_inj.mp h₅
    obtain rfl := Option.some.inj h
    exact .prev wrap_evaluates
  · obtain rfl : opcode = 0xAC := UInt8.toNat_inj.mp h₆
    obtain rfl := Option.some.inj h
    exact .prev extendS_evaluates
  · obtain rfl : opcode = 0xAD := UInt8.toNat_inj.mp h₇
    obtain rfl := Option.some.inj h
    exact .prev extendU_evaluates
  · obtain ⟨is64, bits, hparams, hbits, rfl⟩ := sfillParams_extensions h₈.1 h
    rw [jitLiveOpcode_iconv (by omega)]
    exact jitWasmIconv_sfill h₈.1 hparams hbits

/-- An integer instruction that is accepted adds code which leaves the result that WebAssembly prescribes for its
operands, whatever they are, and traps if there is none. -/
theorem integer_instr_evaluates {s t : JitState} (hlive : s.live = true) (hopcode : s.code.data.head? = some opcode)
    (hi : IntInstr.ofOpcode opcode.toNat = some i) (h : jitWasmOpcode s = some ((), t)) :
    Adds s.toEmitState t.toEmitState ∧ ∀ (W : World) (operands rest : List (ValueType × Word)) (shared : Store) (B : Builder) (σ : Machine),
      operands.map Prod.fst = i.args.map intType → View.Of { stack := operands.reverse ++ rest, shared } s.toEmitState σ →
        t.builder.Extends B → Ends t.toEmitState (intOutcome i operands rest shared) (B.exec W (s.builder.since t.builder) σ) := by
  obtain ⟨opcode', code, hpull, h⟩ := jitWasmOpcode_live hlive h
  obtain ⟨hdata, hprev⟩ := (bufferPullU8_eq_some _ _).mp hpull
  obtain rfl : opcode' = opcode := by simpa [hdata] using hopcode
  obtain ⟨e, he, evaluates⟩ := ofOpcode_lowers hi _ t hprev h
  constructor
  · have typed : (i.args.map fun is64 => (intType is64, (0 : Word))).map Prod.fst = i.args.map intType := by
      rw [List.map_map]
      rfl
    exact (evaluates (fun _ _ _ => .unknown) {} { stack := (i.args.map fun is64 => (intType is64, 0)).reverse ++ [] }
      _ [] typed rfl _ _ _ he).1
  · intro W operands rest shared B σ hops hview hB
    obtain ⟨-, run⟩ := evaluates _ W { stack := operands.reverse ++ rest, shared } operands rest hops rfl _ _ _ he
    obtain ⟨o, rfl, ends⟩ := run σ B hview hB (links_call W t.ctx)
    exact ends

/-- In front of an operation on the least number and -1. -/
def beforeDivision (opcode : UInt8) : JitState where
  ctx := { module := {} }
  func := { labels := [{ stack := [⟨some 1, .i32⟩, ⟨some 0, .i32⟩] }] }
  builder := (((({ params := [.ptr, .ptr] } : Builder).createBlock.setEntryBlock 0).setBlock 0).build (.iconst .i32 0x80000000)).build
    (.iconst .i32 0xFFFFFFFF)
  code := ⟨0, [opcode, 0x0B]⟩

theorem beforeDivision_view {B : Builder} (opcode : UInt8) (W : World)
    (hB : (((B.node 0).inst, (B.node 0).type), (B.node 1).inst, (B.node 1).type) =
      ((.iconst .i32 0x80000000, .i32), .iconst .i32 0xFFFFFFFF, .i32)) :
    View.Of { stack := [(.i32, 0xFFFFFFFF), (.i32, 0x80000000)] } (beforeDivision opcode).toEmitState (B.start W {}) := by
  obtain ⟨hleast, hones⟩ := Prod.mk.inj hB
  refine ⟨⟨fun i f hf => ?_, fun k f hf => ?_⟩, ⟨rfl, rfl⟩, fun _ h => h.elim,
    ⟨_, _, rfl, .cons ⟨rfl, _, rfl, Nat.one_lt_two, rfl, ?_⟩ (.cons ⟨rfl, _, rfl, Nat.two_pos, rfl, ?_⟩ .nil)⟩, rfl⟩
  · cases hf
  · cases hf
  · exact Builder.start_iconst _ hones rfl
  · exact Builder.start_iconst _ hleast rfl

theorem integer_instr_evaluates_least : ∃ t t', jitWasmOpcode (beforeDivision 0x6D) = some ((), t) ∧
    jitWasmOpcode (beforeDivision 0x6F) = some ((), t') ∧
    Ends t.toEmitState (.trap {}) (t.builder.exec {} ((beforeDivision 0x6D).builder.since t.builder) (t.builder.start {} {})) ∧
    Ends t'.toEmitState (.done { stack := [(.i32, 0)] })
      (t'.builder.exec {} ((beforeDivision 0x6F).builder.since t'.builder) (t'.builder.start {} {})) := by
  have div : (jitWasmOpcode (beforeDivision 0x6D)).map (fun r => (((r.2.builder.node 0).inst, (r.2.builder.node 0).type),
      (r.2.builder.node 1).inst, (r.2.builder.node 1).type)) = some ((.iconst .i32 0x80000000, .i32), .iconst .i32 0xFFFFFFFF, .i32) := by
    decide +kernel
  have rem : (jitWasmOpcode (beforeDivision 0x6F)).map (fun r => (((r.2.builder.node 0).inst, (r.2.builder.node 0).type),
      (r.2.builder.node 1).inst, (r.2.builder.node 1).type)) = some ((.iconst .i32 0x80000000, .i32), .iconst .i32 0xFFFFFFFF, .i32) := by
    decide +kernel
  obtain ⟨⟨_, t⟩, ht, hnodes⟩ := Option.map_eq_some_iff.mp div
  obtain ⟨⟨_, t'⟩, ht', hnodes'⟩ := Option.map_eq_some_iff.mp rem
  have divides := (integer_instr_evaluates (i := .binop false .divS) rfl rfl rfl ht).2 {} [(.i32, 0x80000000), (.i32, 0xFFFFFFFF)] [] {}
    t.builder _ rfl (beforeDivision_view 0x6D {} hnodes) (.refl _)
  have remains := (integer_instr_evaluates (i := .binop false .remS) rfl rfl rfl ht').2 {} [(.i32, 0x80000000), (.i32, 0xFFFFFFFF)] [] {}
    t'.builder _ rfl (beforeDivision_view 0x6F {} hnodes') (.refl _)
  exact ⟨t, t', ht, ht', divides, remains⟩

end SpidirWasm.Jit
