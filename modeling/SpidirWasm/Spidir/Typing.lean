import Mathlib.Data.List.Forall2
import SpidirWasm.Spidir.Builder

/-! What types the instructions and terminators declare for their operands. The
judgement is over any assignment of types to values, so that it can be used for the
values a handler has at hand as well as for the values of a finished graph. -/

namespace SpidirWasm.Spidir

namespace ValueType

def IsInt (t : ValueType) : Prop := t = i32 ∨ t = i64

def IsFloat (t : ValueType) : Prop := t = f32 ∨ t = f64

end ValueType

/-- The operand types a binary node works on. -/
def Binop.Accepts : Binop → ValueType → Prop
  | .fadd | .fsub | .fmul | .fdiv => ValueType.IsFloat
  | _ => ValueType.IsInt

/-- From and to which types a unary node goes. -/
def Unop.Maps : Unop → ValueType → ValueType → Prop
  | .lzcount t, a, r | .tzcount t, a, r | .popcount t, a, r => a = t ∧ r = t ∧ t.IsInt
  | .iext, a, r => a = .i32 ∧ r = .i64
  | .itrunc, a, r => a = .i64 ∧ r = .i32
  | .sfill _, a, r => a = r ∧ r.IsInt
  | .sinttofloat t, a, r | .uinttofloat t, a, r => a.IsInt ∧ r = t ∧ t.IsFloat
  | .fnarrow, a, r => a = .f64 ∧ r = .f32
  | .fwiden, a, r => a = .f32 ∧ r = .f64
  | .bitcast t, a, r => r = t ∧ (a = .f32 ∧ t = .i32 ∨ a = .f64 ∧ t = .i64 ∨ a = .i32 ∧ t = .f32 ∨ a = .i64 ∧ t = .f64)

variable {R R' : Value → ValueType → Prop}

/-- The operands have the types the instruction declares, and its result has type `t`. -/
inductive Inst.HasType (R : Value → ValueType → Prop) : Inst → ValueType → Prop
  | param (i : ℕ) (hi : i < 2) : HasType R (.param i) .ptr
  | iconst (t : ValueType) (ht : t.IsInt ∨ t = .ptr) (c : BitVec 64) : HasType R (.iconst t c) t
  | fconst32 (c : BitVec 32) : HasType R (.fconst32 c) .f32
  | fconst64 (c : BitVec 64) : HasType R (.fconst64 c) .f64
  | select {c a b : Value} {t : ValueType} (hc : R c .i32) (ha : R a t) (hb : R b t) : HasType R (.select c a b) t
  | binop {o : Binop} {a b : Value} {t : ValueType} (hop : o.Accepts t) (ha : R a t) (hb : R b t) :
      HasType R (.binop o a b) t
  | unop {o : Unop} {a : Value} {u t : ValueType} (hop : o.Maps u t) (ha : R a u) : HasType R (.unop o a) t
  | icmp {k : Icmp} {a b : Value} {u t : ValueType} (ht : t.IsInt) (hu : u.IsInt) (ha : R a u) (hb : R b u) :
      HasType R (.icmp k t a b) t
  | fcmp {k : Fcmp} {a b : Value} {u t : ValueType} (ht : t.IsInt) (hu : u.IsFloat) (ha : R a u) (hb : R b u) :
      HasType R (.fcmp k t a b) t
  | ptroff {base off : Value} (hb : R base .ptr) (ho : R off .i64) : HasType R (.ptroff base off) .ptr
  | globaladdr (id : ℕ) : HasType R (.globaladdr id) .ptr
  | load {size : MemSize} {t : ValueType} {addr : Value} (ht : t ≠ .none) (ha : R addr .ptr) :
      HasType R (.load size t addr) t
  | store {size : MemSize} {v addr : Value} {t : ValueType} (hv : R v t) (ha : R addr .ptr) :
      HasType R (.store size v addr) .none
  | call {callee : FuncRef} {args : List Value} (hargs : List.Forall₂ R args callee.args) :
      HasType R (.call callee args) callee.ret
  | callind {ret : ValueType} {argTypes : List ValueType} {target : Value} {args : List Value}
      (ht : R target .ptr) (hargs : List.Forall₂ R args argTypes) : HasType R (.callind ret argTypes target args) ret

/-- A return carries a value of the return type, and none when that is no type. -/
inductive Term.WellTyped (R : Value → ValueType → Prop) (ret : ValueType) : Term → Prop
  | branch (d : Block) : WellTyped R ret (.branch d)
  | brcond {c : Value} {t f : Block} (hc : R c .i32) : WellTyped R ret (.brcond c t f)
  | retNone (h : ret = .none) : WellTyped R ret (.ret none)
  | retSome {v : Value} (h : ret ≠ .none) (hv : R v ret) : WellTyped R ret (.ret v)
  | unreachable : WellTyped R ret .unreachable

namespace Inst

theorem HasType.mono (hR : ∀ v t, R v t → R' v t) {i : Inst} {t : ValueType} (h : HasType R i t) :
    HasType R' i t := by
  cases h with
  | param i hi => exact .param i hi
  | iconst t ht c => exact .iconst t ht c
  | fconst32 c => exact .fconst32 c
  | fconst64 c => exact .fconst64 c
  | select hc ha hb => exact .select (hR _ _ hc) (hR _ _ ha) (hR _ _ hb)
  | binop hop ha hb => exact .binop hop (hR _ _ ha) (hR _ _ hb)
  | unop hop ha => exact .unop hop (hR _ _ ha)
  | icmp ht hta ha hb => exact .icmp ht hta (hR _ _ ha) (hR _ _ hb)
  | fcmp ht hta ha hb => exact .fcmp ht hta (hR _ _ ha) (hR _ _ hb)
  | ptroff hb ho => exact .ptroff (hR _ _ hb) (hR _ _ ho)
  | globaladdr id => exact .globaladdr id
  | load ht ha => exact .load ht (hR _ _ ha)
  | store hv ha => exact .store (hR _ _ hv) (hR _ _ ha)
  | call hargs => exact .call (hargs.imp hR)
  | callind ht hargs => exact .callind (hR _ _ ht) (hargs.imp hR)

/-- The type a builder computes for a typed instruction is the declared one. -/
theorem HasType.resultType {params : List ValueType} {typeOf : Value → ValueType} {i : Inst} {t : ValueType}
    (h : HasType (fun v tv => typeOf v = tv) i t) (hp : ∀ i < 2, params.getD i .none = .ptr) :
    i.resultType params typeOf = t := by
  cases h with
  | param i hi => exact hp i hi
  | select hc ha hb => exact ha
  | binop hop ha hb => exact ha
  | @unop op a ta t hop ha =>
    cases op <;> simp only [Unop.Maps] at hop <;> simp_all [Inst.resultType]
  | _ => rfl

end Inst

namespace Builder

/-- A value that was built, with its type. -/
def Typed (b : Builder) (v : Value) (t : ValueType) : Prop := ∃ n, v = some n ∧ n < b.nextValue ∧ (b.node n).type = t

/-- A node is typed by its operands, a parameter by the signature, and every input of a
phi has the phi's type. -/
def NodeOk (b : Builder) (x : Node) : Prop :=
  match x.inst with
  | .phi t inputs => x.type = t ∧ t ≠ .none ∧ ∀ v ∈ inputs, b.Typed v t
  | .param i => b.params[i]? = some x.type
  | i => i.HasType b.Typed x.type

theorem NodeOk.mono {b b' : Builder} {x : Node} (h : b.NodeOk x) (hp : b'.params = b.params)
    (ht : ∀ v t, b.Typed v t → b'.Typed v t) : b'.NodeOk x := by
  obtain ⟨i, type, block⟩ := x
  cases i with
  | phi t inputs => exact ⟨h.1, h.2.1, fun v hv => ht v t (h.2.2 v hv)⟩
  | param i => exact (congrArg (·[i]?) hp).trans h
  | _ => exact Inst.HasType.mono ht h

/-- A value that was built keeps its type when another one is. -/
theorem Typed.build {b : Builder} {v : Value} {t : ValueType} (h : b.Typed v t) (i : Inst) : (b.build i).Typed v t := by
  obtain ⟨n, rfl, hn, ht⟩ := h
  exact ⟨n, rfl, by simp; omega, by simp [Function.update_of_ne (Nat.ne_of_lt hn), ht]⟩

end Builder

end SpidirWasm.Spidir
