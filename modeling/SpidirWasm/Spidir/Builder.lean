import Mathlib.Algebra.Group.Int.Defs
import Mathlib.Algebra.Group.Nat.Defs
import Mathlib.Data.Nat.Notation
import Mathlib.Logic.Function.Basic
import Mathlib.Tactic.Common
import Mathlib.Tactic.Simps.Basic

/-! The function builder of spidir, as far as the translator uses it. A function
under construction is a growing graph: numbered values, numbered blocks holding
what was emitted into them in order, and the edges in the order in which the
branches were built. Handles are the numbers; a block keeps everything emitted
into it, so that a second terminator or an instruction behind one stays visible. -/

namespace SpidirWasm.Spidir

/-- `spidir_value_type_t`. -/
inductive ValueType where
  | none | i32 | i64 | ptr | f32 | f64
  deriving DecidableEq, Repr, Inhabited

/-- `spidir_value_t`; `none` is `SPIDIR_VALUE_INVALID`. -/
abbrev Value := Option ℕ

/-- `spidir_block_t`. -/
abbrev Block := ℕ

/-- `spidir_mem_size_t`, by its width in bytes. -/
inductive MemSize where
  | size1 | size2 | size4 | size8
  deriving DecidableEq, Repr, Inhabited

/-- `spidir_icmp_kind_t`. -/
inductive Icmp where
  | eq | ne | slt | sle | ult | ule
  deriving DecidableEq, Repr, Inhabited

/-- `spidir_fcmp_kind_t`, the kinds in use. -/
inductive Fcmp where
  | oeq | une | olt | ole
  deriving DecidableEq, Repr, Inhabited

inductive Binop where
  | iadd | isub | imul | sdiv | udiv | srem | urem | and | or | xor | shl | lshr | ashr
  | fadd | fsub | fmul | fdiv
  deriving DecidableEq, Repr, Inhabited

inductive Unop where
  | lzcount (type : ValueType)
  | tzcount (type : ValueType)
  | popcount (type : ValueType)
  | iext
  | itrunc
  | sfill (width : ℕ)
  | sinttofloat (type : ValueType)
  | uinttofloat (type : ValueType)
  | fnarrow
  | fwiden
  | bitcast (type : ValueType)
  deriving DecidableEq, Repr, Inhabited

/-- `spidir_funcref_t`: an internal or external function with the signature it was
declared with. -/
structure FuncRef where
  external : Bool := false
  id : ℕ := 0
  ret : ValueType := .none
  args : List ValueType := []
  deriving DecidableEq, Repr, Inhabited

/-- What a build call emits. -/
inductive Inst where
  | param (index : ℕ)
  | iconst (type : ValueType) (value : BitVec 64)
  | fconst32 (bits : BitVec 32)
  | fconst64 (bits : BitVec 64)
  | phi (type : ValueType) (inputs : List Value)
  | select (c t f : Value)
  | binop (op : Binop) (a b : Value)
  | unop (op : Unop) (a : Value)
  | icmp (kind : Icmp) (type : ValueType) (a b : Value)
  | fcmp (kind : Fcmp) (type : ValueType) (a b : Value)
  | ptroff (base off : Value)
  | globaladdr (id : ℕ)
  | load (size : MemSize) (type : ValueType) (addr : Value)
  | store (size : MemSize) (value addr : Value)
  | call (callee : FuncRef) (args : List Value)
  | callind (ret : ValueType) (argTypes : List ValueType) (target : Value) (args : List Value)
  deriving DecidableEq, Repr

instance : Inhabited Inst := ⟨.param 0⟩

namespace Inst

/-- Constants and parameter references belong to no block. -/
def isFloating : Inst → Bool
  | param _ | iconst _ _ | fconst32 _ | fconst64 _ => true
  | _ => false

def isPhi : Inst → Bool
  | phi _ _ => true
  | _ => false

theorem isFloating_of_isPhi {i : Inst} (h : i.isPhi = true) : i.isFloating = false := by
  cases i <;> first | rfl | simp [isPhi] at h

/-- Whether a build call returns a value; a store and a call without a result do not. -/
def hasOutput : Inst → Bool
  | store _ _ _ => false
  | call callee _ => callee.ret ≠ .none
  | callind ret _ _ _ => ret ≠ .none
  | _ => true

/-- Whether an instruction refers to something of its module, a function or a global. -/
def refers : Inst → Bool
  | call _ _ | globaladdr _ => true
  | _ => false

/-- The type of the result. A parameter has the one of the signature, and most
nodes take theirs from an operand. -/
def resultType (params : List ValueType) (typeOf : Value → ValueType) : Inst → ValueType
  | param i => params.getD i .none
  | iconst t _ | phi t _ | icmp _ t _ _ | fcmp _ t _ _ | load _ t _ | callind t _ _ _ => t
  | fconst32 _ => .f32
  | fconst64 _ => .f64
  | select _ a _ => typeOf a
  | binop _ a _ => typeOf a
  | unop op a =>
    match op with
    | .lzcount t | .tzcount t | .popcount t | .sinttofloat t | .uinttofloat t | .bitcast t => t
    | .iext => .i64
    | .itrunc => .i32
    | .sfill _ => typeOf a
    | .fnarrow => .f32
    | .fwiden => .f64
  | ptroff _ _ | globaladdr _ => .ptr
  | store _ _ _ => .none
  | call callee _ => callee.ret

end Inst

/-- A block's terminator. -/
inductive Term where
  | branch (dest : Block)
  | brcond (c : Value) (t f : Block)
  | ret (value : Value)
  | unreachable
  deriving DecidableEq, Repr, Inhabited

namespace Term

/-- The targets, the first one tagged `true`. -/
def targets : Term → List (Bool × Block)
  | branch d => [(true, d)]
  | brcond _ t f => [(true, t), (false, f)]
  | ret _ | unreachable => []

end Term

/-- One emission into a block. -/
inductive Item where
  | inst (id : ℕ)
  | term (t : Term)
  deriving DecidableEq, Repr, Inhabited

/-- A numbered value: what it is, its type, and the block current when it was built. -/
structure Node where
  inst : Inst := .param 0
  type : ValueType := .none
  block : Option Block := none
  deriving DecidableEq, Repr, Inhabited

/-- An edge, by the branch it comes from. `taken` tells the two of a `brcond` apart. -/
structure Edge where
  src : Block
  taken : Bool
  dst : Block
  deriving DecidableEq, Repr, Inhabited

/-- A function under construction, with the types its signature gives its parameters. -/
structure Builder where
  params : List ValueType := []
  nextValue : ℕ := 0
  node : ℕ → Node := fun _ => {}
  nextBlock : ℕ := 0
  items : Block → List Item := fun _ => []
  edges : List Edge := []
  entry : Option Block := none
  cur : Option Block := none

namespace Builder

/-- The type of a value; an invalid one has none. -/
def typeOf (b : Builder) : Value → ValueType
  | some n => (b.node n).type
  | none => .none

/-- The type an instruction gets here. -/
def instType (b : Builder) (i : Inst) : ValueType := i.resultType b.params b.typeOf

/-- Append to the current block. -/
def append (b : Builder) (it : Item) : Builder :=
  match b.cur with
  | none => b
  | some c => { b with items := Function.update b.items c (b.items c ++ [it]) }

/-- Number a new value, without placing it. -/
def alloc (b : Builder) (i : Inst) : Builder :=
  { b with
    nextValue := b.nextValue + 1
    node := Function.update b.node b.nextValue ⟨i, b.instType i, b.cur⟩ }

/-- A `spidir_builder_build_*` call that is no terminator: the new graph. -/
def build (b : Builder) (i : Inst) : Builder :=
  if i.isFloating then b.alloc i else (b.alloc i).append (.inst b.nextValue)

/-- The handle such a call returns, invalid when there is no result. -/
def handle (b : Builder) (i : Inst) : Value :=
  if i.hasOutput then some b.nextValue else none

/-- A terminator: the current block's edges are built with it. -/
def terminate (b : Builder) (t : Term) : Builder :=
  match b.cur with
  | none => b
  | some c =>
    { b.append (.term t) with edges := b.edges ++ t.targets.map fun (taken, dst) => ⟨c, taken, dst⟩ }

/-- `spidir_builder_create_block`: the handle is the old `nextBlock`. -/
@[simps]
def createBlock (b : Builder) : Builder := { b with nextBlock := b.nextBlock + 1 }

@[simps]
def setBlock (b : Builder) (k : Block) : Builder := { b with cur := some k }

def setEntryBlock (b : Builder) (k : Block) : Builder := { b with entry := some k }

/-- `spidir_builder_add_phi_input`. -/
@[simps params nextValue nextBlock items edges entry cur]
def addPhiInput (b : Builder) (p : ℕ) (v : Value) : Builder :=
  { b with
    node := Function.update b.node p
      { b.node p with
        inst := match (b.node p).inst with
          | .phi t inputs => .phi t (inputs ++ [v])
          | i => i } }

/-- The edges into a block, in the order in which they were built. -/
def edgesInto (b : Builder) (k : Block) : List Edge := b.edges.filter (·.dst = k)

/-! ### What each operation leaves alone, and what it adds -/

variable (b : Builder) (i : Inst) (t : Term) (it : Item) (k : Block)

@[simp] theorem append_params : (b.append it).params = b.params := by unfold append; split <;> rfl

@[simp] theorem append_nextValue : (b.append it).nextValue = b.nextValue := by unfold append; split <;> rfl

@[simp] theorem append_node : (b.append it).node = b.node := by unfold append; split <;> rfl

@[simp] theorem append_nextBlock : (b.append it).nextBlock = b.nextBlock := by unfold append; split <;> rfl

@[simp] theorem append_edges : (b.append it).edges = b.edges := by unfold append; split <;> rfl

@[simp] theorem append_entry : (b.append it).entry = b.entry := by unfold append; split <;> rfl

@[simp] theorem append_cur : (b.append it).cur = b.cur := by unfold append; split <;> rfl

theorem append_items : (b.append it).items k = if b.cur = some k then b.items k ++ [it] else b.items k := by
  unfold append
  split
  · next h => simp [h]
  · next c h =>
    by_cases hk : k = c
    · subst hk; simp [h]
    · simp [Function.update_of_ne hk, h, Ne.symm hk]

@[simp] theorem build_params : (b.build i).params = b.params := by unfold build; split_ifs <;> simp [alloc]

@[simp] theorem build_nextValue : (b.build i).nextValue = b.nextValue + 1 := by unfold build; split_ifs <;> simp [alloc]

@[simp] theorem build_node : (b.build i).node = Function.update b.node b.nextValue ⟨i, b.instType i, b.cur⟩ := by
  unfold build; split_ifs <;> simp [alloc]

@[simp] theorem build_nextBlock : (b.build i).nextBlock = b.nextBlock := by unfold build; split_ifs <;> simp [alloc]

@[simp] theorem build_edges : (b.build i).edges = b.edges := by unfold build; split_ifs <;> simp [alloc]

@[simp] theorem build_entry : (b.build i).entry = b.entry := by unfold build; split_ifs <;> simp [alloc]

@[simp] theorem build_cur : (b.build i).cur = b.cur := by unfold build; split_ifs <;> simp [alloc]

theorem build_items : (b.build i).items k =
    if i.isFloating = false ∧ b.cur = some k then b.items k ++ [.inst b.nextValue] else b.items k := by
  unfold build
  by_cases h : i.isFloating
  · simp [h, alloc]
  · simp [h, append_items, alloc]

@[simp] theorem terminate_params : (b.terminate t).params = b.params := by unfold terminate; split <;> simp

@[simp] theorem terminate_nextValue : (b.terminate t).nextValue = b.nextValue := by unfold terminate; split <;> simp

@[simp] theorem terminate_node : (b.terminate t).node = b.node := by unfold terminate; split <;> simp

@[simp] theorem terminate_nextBlock : (b.terminate t).nextBlock = b.nextBlock := by unfold terminate; split <;> simp

@[simp] theorem terminate_entry : (b.terminate t).entry = b.entry := by unfold terminate; split <;> simp

@[simp] theorem terminate_cur : (b.terminate t).cur = b.cur := by unfold terminate; split <;> simp

theorem terminate_items : (b.terminate t).items k = if b.cur = some k then b.items k ++ [.term t] else b.items k := by
  unfold terminate
  split
  · next h => simp [h]
  · simp [append_items]

theorem terminate_edges {c : Block} (h : b.cur = some c) :
    (b.terminate t).edges = b.edges ++ t.targets.map fun (taken, dst) => ⟨c, taken, dst⟩ := by
  simp [terminate, h]

end Builder

end SpidirWasm.Spidir
