import SpidirWasm.Logic.Memory
import SpidirWasm.Spidir.Extends

/-! What a graph computes. A value is a word in which the low bits of its type count.
The others, and those that a node leaves open, come from an oracle: the upper half of a
widened integer, and what a narrow load does not read. Functions outside the graph are
parameters, and so is float arithmetic. -/

namespace SpidirWasm.Spidir

/-! ### Words -/

abbrev Word := BitVec 64

namespace Word

/-- The low `n` bits of one word below the upper bits of another. -/
def fill (n : ℕ) (x junk : Word) : Word := junk >>> n <<< n ||| (x.setWidth n).setWidth 64

/-- The word of some bytes, the lowest first. -/
def ofBytes : List UInt8 → Word
  | [] => 0
  | byte :: bytes => byte.toBitVec.setWidth 64 ||| ofBytes bytes <<< 8

/-- The low bytes of a word, the lowest first. -/
def toBytes : ℕ → Word → List UInt8
  | 0, _ => []
  | n + 1, x => ⟨x.setWidth 8⟩ :: toBytes n (x >>> 8)

@[simp] theorem fill_full (x junk : Word) : fill 64 x junk = x := by
  have gone : junk >>> 64 = 0 := BitVec.ushiftRight_eq_zero (Nat.le_refl 64)
  simp [fill, gone]

/-- The bits that count are kept. -/
@[simp] theorem setWidth_fill (n : ℕ) (x junk : Word) : (fill n x junk).setWidth n = x.setWidth n := by
  ext i hi
  simp only [fill, BitVec.getElem_setWidth, BitVec.getLsbD_or, BitVec.getLsbD_shiftLeft, BitVec.getLsbD_setWidth, hi, decide_true,
    Bool.not_true, Bool.and_false, Bool.false_and, Bool.false_or, Bool.true_and]
  by_cases h : i < 64
  · simp [h]
  · simp [h, BitVec.getLsbD_of_ge _ _ (Nat.le_of_not_lt h)]

/-- So are fewer bits. -/
theorem setWidth_fill_of_le {n m : ℕ} (h : n ≤ m) (x junk : Word) : (fill m x junk).setWidth n = x.setWidth n := by
  rw [← BitVec.setWidth_setWidth_of_le _ h, setWidth_fill, BitVec.setWidth_setWidth_of_le _ h]

/-- Words that agree in the bits that count are filled up to the same word. -/
theorem fill_congr {n : ℕ} {x y : Word} (h : x.setWidth n = y.setWidth n) (junk : Word) : fill n x junk = fill n y junk := by
  rw [fill, fill, h]

/-- The low half of a word alone. -/
def zext32 (x : Word) : Word := (x.setWidth 32).setWidth 64

theorem toNat_zext32 (x : Word) : (zext32 x).toNat = x.toNat % 2 ^ 32 := by
  rw [zext32, BitVec.toNat_setWidth, BitVec.toNat_setWidth]
  exact Nat.mod_eq_of_lt ((Nat.mod_lt _ (by decide)).trans_le (by decide))

/-- The mask that takes it. -/
theorem and_mask32 {x y : Word} (h : x.setWidth 32 = y.setWidth 32) : x &&& 0xFFFFFFFF = zext32 y := by
  apply BitVec.eq_of_toNat_eq
  have low := congrArg BitVec.toNat h
  rw [BitVec.toNat_setWidth, BitVec.toNat_setWidth] at low
  rw [toNat_zext32, BitVec.toNat_and, ← low]
  exact Nat.and_two_pow_sub_one_eq_mod x.toNat 32

@[simp] theorem length_toBytes (n : ℕ) (x : Word) : (toBytes n x).length = n := by
  induction n generalizing x with
  | zero => rfl
  | succ n ih => rw [toBytes, List.length_cons, ih]

/-- The bytes of a word depend on the bits they are made of. -/
theorem toBytes_congr {n : ℕ} {x y : Word} (h : x.setWidth (8 * n) = y.setWidth (8 * n)) : toBytes n x = toBytes n y := by
  induction n generalizing x y with
  | zero => rfl
  | succ n ih =>
    have bits : ∀ i < 8 * (n + 1), x.getLsbD i = y.getLsbD i := by
      intro i hi
      simpa [hi] using congrArg (fun z => z.getLsbD i) h
    rw [toBytes, toBytes]
    congr 1
    · congr 1
      ext i hi
      simpa using bits i (by omega)
    · apply ih
      ext i hi
      simpa using bits (8 + i) (by omega)

/-- Reading back what was written. -/
theorem ofBytes_toBytes (n : ℕ) (x : Word) : ofBytes (toBytes n x) = (x.setWidth (8 * n)).setWidth 64 := by
  induction n generalizing x with
  | zero =>
    ext i hi
    simp [toBytes, ofBytes]
  | succ n ih =>
    rw [toBytes, ofBytes, ih]
    ext i hi
    simp only [BitVec.getElem_or, BitVec.getElem_setWidth, BitVec.getElem_shiftLeft, BitVec.getLsbD_setWidth, BitVec.getLsbD_ushiftRight]
    by_cases h : i < 8
    · simp [h, show i < 8 * (n + 1) by omega]
    · have back : 8 + (i - 8) = i := by omega
      have bound : i - 8 < 8 * n ↔ i < 8 * (n + 1) := by omega
      simp [h, back, bound]

end Word

/-- The bits of a type that count. -/
def ValueType.width : ValueType → ℕ
  | .none => 0
  | .i32 | .f32 => 32
  | .i64 | .ptr | .f64 => 64

@[simp] theorem ValueType.width_i32 : ValueType.i32.width = 32 := rfl

@[simp] theorem ValueType.width_i64 : ValueType.i64.width = 64 := rfl

@[simp] theorem ValueType.width_ptr : ValueType.ptr.width = 64 := rfl

theorem ValueType.width_le (type : ValueType) : type.width ≤ 64 := by
  cases type <;> decide

/-- The bytes of an access. -/
def MemSize.bytes : MemSize → ℕ
  | .size1 => 1
  | .size2 => 2
  | .size4 => 4
  | .size8 => 8

/-! ### Outcomes -/

/-- How a computation ends: with a result, in a trap, never, or in a way that nothing is
said about. -/
inductive Outcome (σ α : Type) where
  | done (a : α)
  | trap (s : σ)
  | diverge (s : σ)
  | unknown
  deriving DecidableEq, Repr

namespace Outcome

variable {σ τ α β : Type}

def bind (o : Outcome σ α) (f : α → Outcome σ β) : Outcome σ β :=
  match o with
  | done a => f a
  | trap s => trap s
  | diverge s => diverge s
  | unknown => unknown

/-- What a trap leaves behind. -/
def trapIn (s : τ) : Outcome σ α → Outcome τ α
  | done a => done a
  | trap _ => trap s
  | diverge _ => diverge s
  | unknown => unknown

/-- What a trap left behind, if there was one. -/
def trapped : Outcome σ α → Option σ
  | trap s => some s
  | _ => none

/-- An outcome that leaves something behind, of which `P` holds. -/
def Leaves (P : σ → Prop) (shared : α → σ) : Outcome σ α → Prop
  | done a => P (shared a)
  | trap s | diverge s => P s
  | unknown => False

@[simp] theorem done_bind (a : α) (f : α → Outcome σ β) : (done a : Outcome σ α).bind f = f a := rfl

@[simp] theorem trap_bind (s : σ) (f : α → Outcome σ β) : (trap s : Outcome σ α).bind f = trap s := rfl

@[simp] theorem diverge_bind (s : σ) (f : α → Outcome σ β) : (diverge s : Outcome σ α).bind f = diverge s := rfl

@[simp] theorem unknown_bind (f : α → Outcome σ β) : (unknown : Outcome σ α).bind f = unknown := rfl

theorem bind_assoc {γ : Type} (o : Outcome σ α) (f : α → Outcome σ β) (g : β → Outcome σ γ) :
    (o.bind f).bind g = o.bind fun a => (f a).bind g := by
  cases o <;> rfl

end Outcome

/-! ### Integers -/

/-- What a binary node computes on integers of a width. A division traps, and a remainder
or a shift is left open, where the result would not be a number of that width. -/
def Binop.compute {n : ℕ} (op : Binop) (a b : BitVec n) : Outcome Unit (BitVec n) :=
  match op with
  | .iadd => .done (a + b)
  | .isub => .done (a - b)
  | .imul => .done (a * b)
  | .sdiv => if b = 0 ∨ a = BitVec.intMin n ∧ b = BitVec.allOnes n then .trap () else .done (a.sdiv b)
  | .udiv => if b = 0 then .trap () else .done (a / b)
  | .srem => if b = 0 then .trap () else if a = BitVec.intMin n ∧ b = BitVec.allOnes n then .unknown else .done (a.srem b)
  | .urem => if b = 0 then .trap () else .done (a % b)
  | .and => .done (a &&& b)
  | .or => .done (a ||| b)
  | .xor => .done (a ^^^ b)
  | .shl => if n ≤ b.toNat then .unknown else .done (a <<< b.toNat)
  | .lshr => if n ≤ b.toNat then .unknown else .done (a >>> b.toNat)
  | .ashr => if n ≤ b.toNat then .unknown else .done (a.sshiftRight b.toNat)
  | .fadd | .fsub | .fmul | .fdiv => .unknown

def Icmp.compute {n : ℕ} (kind : Icmp) (a b : BitVec n) : Bool :=
  match kind with
  | .eq => a = b
  | .ne => a ≠ b
  | .slt => a.slt b
  | .sle => a.sle b
  | .ult => a.ult b
  | .ule => a.ule b

/-! ### Worlds -/

/-- One access, by the addresses it touches. -/
structure Access where
  start : ℕ
  len : ℕ
  deriving DecidableEq, Repr

/-- What a graph shares with the functions it calls: the memory, and the accesses so far,
the last one at the end. -/
structure Store where
  mem : Memory UInt8 := fun _ => none
  trace : List Access := []
  deriving Inhabited

namespace Store

/-- One more access, whether or not it succeeds. -/
def touch (s : Store) (start len : ℕ) : Store := { s with trace := s.trace ++ [⟨start, len⟩] }

def load (s : Store) (start len : ℕ) : Outcome Store (List UInt8 × Store) :=
  match s.mem.load start len with
  | some bytes => .done (bytes, s.touch start len)
  | none => .trap (s.touch start len)

def store (s : Store) (start : ℕ) (bytes : List UInt8) : Outcome Store Store :=
  match s.mem.store start bytes with
  | some mem => .done { s.touch start bytes.length with mem }
  | none => .trap (s.touch start bytes.length)

end Store

/-- Float arithmetic, by the type of the result. -/
structure Floats where
  binop : Binop → ValueType → Word → Word → Word := fun _ _ _ _ => 0
  unop : Unop → ValueType → Word → Word := fun _ _ _ => 0
  fcmp : Fcmp → Word → Word → Bool := fun _ _ _ => false

/-- What surrounds one activation of a graph. -/
structure World where
  junk : ℕ → Word := fun _ => 0
  param : ℕ → Word := fun _ => 0
  global : ℕ → Word := fun _ => 0
  float : Floats := {}
  call : FuncRef → List Word → Store → Outcome Store (Word × Store) := fun _ _ _ => .unknown
  callind : Word → List Word → Store → Outcome Store (Word × Store) := fun _ _ _ => .unknown

/-! ### Nodes -/

/-- What a unary node computes, and how many bits of it count. -/
def Unop.compute (W : World) (type : ValueType) (op : Unop) (x : Word) : ℕ × Word :=
  let n := type.width
  match op with
  | .lzcount _ => (n, (x.setWidth n).clz.setWidth 64)
  | .tzcount _ => (n, (x.setWidth n).ctz.setWidth 64)
  | .popcount _ => (n, (x.setWidth n).cpop.setWidth 64)
  | .iext | .itrunc => (32, x)
  | .sfill width => (n, (x.setWidth width).signExtend 64)
  | .bitcast _ => (n, x)
  | .sinttofloat _ | .uinttofloat _ | .fnarrow | .fwiden => (n, W.float.unop op type x)

/-- Whether a node is float arithmetic. -/
def Binop.isFloat : Binop → Bool
  | .fadd | .fsub | .fmul | .fdiv => true
  | _ => false

/-- What a pure node of a type computes, and how many bits of it count. -/
def Inst.compute (W : World) (typeOf : Value → ValueType) (read : Value → Word) (type : ValueType) :
    Inst → Outcome Unit (ℕ × Word)
  | .param i => .done (64, W.param i)
  | .iconst _ c => .done (type.width, c)
  | .fconst32 bits => .done (32, bits.setWidth 64)
  | .fconst64 bits => .done (64, bits)
  | .select c t f => .done (type.width, if read c = 0 then read f else read t)
  | .binop op a b =>
    if op.isFloat then .done (type.width, W.float.binop op type (read a) (read b))
    else (op.compute ((read a).setWidth type.width) ((read b).setWidth type.width)).bind fun r =>
      .done (type.width, r.setWidth 64)
  | .unop op a => .done (op.compute W type (read a))
  | .icmp kind _ a b =>
    let n := (typeOf a).width
    .done (type.width, if kind.compute ((read a).setWidth n) ((read b).setWidth n) then 1 else 0)
  | .fcmp kind _ a b => .done (type.width, if W.float.fcmp kind (read a) (read b) then 1 else 0)
  | .ptroff base off => .done (64, read base + read off)
  | .globaladdr id => .done (64, W.global id)
  | .phi _ _ | .load _ _ _ | .store _ _ _ | .call _ _ | .callind _ _ _ _ => .unknown

/-- Integer arithmetic on whole words. -/
theorem Inst.compute_i64 {W : World} {typeOf : Value → ValueType} {read : Value → Word} {op : Binop} {a b : Value} {r : Word}
    (hop : op.isFloat = false) (h : op.compute (read a) (read b) = .done r) :
    (Inst.binop op a b).compute W typeOf read .i64 = .done (64, r) := by
  show (if op.isFloat then _ else (op.compute ((read a).setWidth 64) ((read b).setWidth 64)).bind
    fun r : BitVec 64 => .done (64, r.setWidth 64)) = _
  rw [hop, if_neg Bool.false_ne_true, BitVec.setWidth_eq, BitVec.setWidth_eq, h, Outcome.done_bind, BitVec.setWidth_eq]

/-- The registers of the values so far, and what is shared. -/
structure Machine extends Store where
  reg : ℕ → Word := fun _ => 0

namespace Machine

/-- The value `n` is computed, as far as its low `bits` bits go. -/
def define (W : World) (n bits : ℕ) (x : Word) (σ : Machine) : Machine :=
  { σ with reg := Function.update σ.reg n (Word.fill bits x (W.junk n)) }

def share (s : Store) (σ : Machine) : Machine := { σ with toStore := s }

end Machine

namespace Builder

/-- A value as its users see it: what its type leaves of its register. -/
def read (b : Builder) (σ : Machine) : Value → Word
  | some n => Word.fill (b.node n).type.width (σ.reg n) 0
  | none => 0

/-- Compute the value `n`. A phi was computed when its block was entered. -/
def step (b : Builder) (W : World) (n : ℕ) (σ : Machine) : Outcome Store Machine :=
  let type := (b.node n).type
  match (b.node n).inst with
  | .phi _ _ => .done σ
  | .load size _ addr => (σ.load (b.read σ addr).toNat size.bytes).bind fun (bytes, s) =>
    .done ((σ.share s).define W n (8 * size.bytes) (Word.ofBytes bytes))
  | .store size value addr => (σ.store (b.read σ addr).toNat ((b.read σ value).toBytes size.bytes)).bind fun s => .done (σ.share s)
  | .call callee args => (W.call callee (args.map (b.read σ)) σ.toStore).bind fun (r, s) =>
    .done ((σ.share s).define W n type.width r)
  | .callind _ _ target args => (W.callind (b.read σ target) (args.map (b.read σ)) σ.toStore).bind fun (r, s) =>
    .done ((σ.share s).define W n type.width r)
  | i => ((i.compute W b.typeOf (b.read σ) type).trapIn σ.toStore).bind fun (bits, x) => .done (σ.define W n bits x)

/-- Compute some values in order. -/
def exec (b : Builder) (W : World) : List ℕ → Machine → Outcome Store Machine
  | [], σ => .done σ
  | n :: ns, σ => (b.step W n σ).bind (b.exec W ns)

variable (b : Builder) (W : World) {b' : Builder} {σ τ : Machine} {n : ℕ}

@[simp] theorem exec_nil : b.exec W [] σ = .done σ := rfl

@[simp] theorem exec_singleton : b.exec W [n] σ = b.step W n σ := by
  rw [exec]
  cases b.step W n σ <;> rfl

theorem exec_append (ns ms : List ℕ) : b.exec W (ns ++ ms) σ = (b.exec W ns σ).bind (b.exec W ms) := by
  induction ns generalizing σ with
  | nil => rfl
  | cons n ns ih =>
    rw [List.cons_append, exec, exec]
    cases b.step W n σ with
    | done τ => exact ih
    | trap s => rfl
    | diverge s => rfl
    | unknown => rfl

variable {b W}

/-- A value keeps its reading in a larger graph. -/
theorem Extends.read (h : b.Extends b') (hn : n < b.nextValue) : b'.read σ (some n) = b.read σ (some n) := by
  rw [Builder.read, Builder.read, (h.node n hn).type]

/-- A node that computes something is computed. -/
theorem step_of_compute {bits : ℕ} {x : Word} (h : (b.node n).inst.compute W b.typeOf (b.read σ) (b.node n).type = .done (bits, x)) :
    b.step W n σ = .done (σ.define W n bits x) := by
  unfold step
  rcases hi : (b.node n).inst <;> rw [hi] at h <;> first | (simp only [h]; rfl) | cases h

/-- A step writes one register. -/
theorem step_reg (h : b.step W n σ = .done τ) {k : ℕ} (hk : k ≠ n) : τ.reg k = σ.reg k := by
  have bound : ∀ {α : Type} {o : Outcome Store α} {f : α → Machine}, o.bind (fun a => .done (f a)) = .done τ → ∃ a, τ = f a := by
    intro α o f h
    cases o with
    | done a => exact ⟨a, (Outcome.done.inj h).symm⟩
    | trap s => simp at h
    | diverge s => simp at h
    | unknown => simp at h
  unfold step at h
  simp only at h
  split at h
  · exact congrArg (fun τ : Machine => τ.reg k) (Outcome.done.inj h).symm
  all_goals
    obtain ⟨a, rfl⟩ := bound h
    simp [Machine.define, Machine.share, Function.update_of_ne hk]

/-- Straight-line code leaves the registers of earlier values alone. -/
theorem exec_reg {ns : List ℕ} (h : b.exec W ns σ = .done τ) {k : ℕ} (hk : k ∉ ns) : τ.reg k = σ.reg k := by
  induction ns generalizing σ with
  | nil => rw [Outcome.done.inj h]
  | cons n ns ih =>
    rw [exec] at h
    rcases hs : b.step W n σ with υ | s | s | _ <;> rw [hs] at h
    · exact (ih h (List.not_mem_of_not_mem_cons hk)).trans (step_reg hs (List.ne_of_not_mem_cons hk))
    · simp at h
    · simp at h
    · simp at h

/-- The code of a node that was just built, in a larger graph. -/
theorem exec_build {i : Inst} (h : (b.build i).Extends b') (hi : i.isPhi = false) :
    (b'.node b.nextValue).inst = i ∧ (b'.node b.nextValue).type = b.instType i ∧
      b'.exec W (b.since (b.build i)) σ = b'.step W b.nextValue σ := by
  have grown := h.node b.nextValue (by simp)
  simp only [build_node, Function.update_self] at grown
  have one : b.since (b.build i) = [b.nextValue] := by simp [since]
  exact ⟨grown.inst.eq hi, grown.type, by rw [one, exec_singleton]⟩

end Builder

end SpidirWasm.Spidir
