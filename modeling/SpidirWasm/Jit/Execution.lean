import Mathlib.Data.Set.Insert
import SpidirWasm.Jit.Straight
import SpidirWasm.Spidir.Semantics

/-! What the code that a handler adds computes. A view of a run says which words the
values at hand and the operands on the innermost stack show, and the rules below carry a
view through the operations that a handler of straight-line code is made of. -/

namespace SpidirWasm.Jit

open Checked
open Spidir

/-- A value of a type, of which the low bits are known. -/
structure Fact where
  value : Value
  type : ValueType
  bits : ℕ
  word : Word

/-- The fact holds of a value that was built. -/
def Fact.Holds (b : Builder) (σ : Machine) (f : Fact) : Prop :=
  ∃ n, f.value = some n ∧ n < b.nextValue ∧ (b.node n).type = f.type ∧
    (b.read σ (some n)).setWidth f.bits = f.word.setWidth f.bits

/-- An operand shows a word of its type. -/
def JitValue.Shows (b : Builder) (σ : Machine) (v : JitValue) (x : ValueType × Word) : Prop :=
  v.type = x.1 ∧ Fact.Holds b σ ⟨v.value, x.1, x.1.width, x.2⟩

/-- What is known of a run: some values, the operands of the innermost label, and what is
shared. -/
structure View where
  facts : Set Fact := ∅
  stack : List (ValueType × Word) := []
  shared : Store := {}

structure View.Of (w : View) (s : EmitState) (σ : Machine) : Prop where
  ctx : s.ctx.Ok
  params : s.builder.params[0]? = some .ptr ∧ s.builder.params[1]? = some .ptr
  facts : ∀ f ∈ w.facts, f.Holds s.builder σ
  stack : ∃ l ls, s.func.labels = l :: ls ∧ List.Forall₂ (JitValue.Shows s.builder σ) l.stack w.stack
  shared : σ.toStore = w.shared

/-- One more value that is known. -/
def View.learn (w : View) (f : Fact) : View := { w with facts := insert f w.facts }

/-- What is known behind a call: its result, if it has one. -/
def View.returned (w : View) (ret : ValueType) (v : Value) (p : Word × Store) : View :=
  if ret = .none then { w with shared := p.2 } else { w with shared := p.2 }.learn ⟨v, ret, ret.width, p.1⟩

/-- A run of the code up to `t` ends as the view says. -/
def Ends (t : EmitState) : Outcome Store View → Outcome Store Machine → Prop
  | .done w, .done σ => w.Of t σ
  | .trap s, .trap s' => s = s'
  | .diverge s, .diverge s' => s = s'
  | .unknown, .unknown => True
  | _, _ => False

/-- The helpers that the context declared are called where their references are. -/
def Links (helper : HelperKind → List Word → Store → Outcome Store (Word × Store)) (W : World) (c : JitContext) : Prop :=
  ∀ k f, c.helpers k = some f → W.call f = helper k

/-- The helpers are whatever their references call. -/
theorem links_call (W : World) (c : JitContext) : Links (fun k => (c.helpers k).elim (fun _ _ => .unknown) W.call) W c := by
  intro k f hf
  show W.call f = (c.helpers k).elim _ _
  rw [hf, Option.elim_some]

/-- Code is only added, in the current block, and no helper is forgotten. -/
structure Adds (s t : EmitState) : Prop where
  builder : s.builder.Appends t.builder
  helpers : ∀ k f, s.ctx.helpers k = some f → t.ctx.helpers k = some f

variable {helper : HelperKind → List Word → Store → Outcome Store (Word × Store)} {W : World}

theorem Adds.refl (s : EmitState) : Adds s s := ⟨.refl _, fun _ _ h => h⟩

theorem Adds.trans {s t u : EmitState} (h : Adds s t) (h' : Adds t u) : Adds s u :=
  ⟨h.builder.trans h'.builder, fun k f hf => h'.helpers k f (h.helpers k f hf)⟩

theorem Adds.links {s t : EmitState} (h : Adds s t) (hl : Links helper W t.ctx) : Links helper W s.ctx :=
  fun k f hf => hl k f (h.helpers k f hf)

/-- From a state that the view describes, the program adds straight-line code to the current
block, and in every larger graph that code runs to an outcome that `Q` allows. -/
def Runs (helper : HelperKind → List Word → Store → Outcome Store (Word × Store)) (W : World) {α : Type} (w : View) (m : Emit α)
    (Q : α → Outcome Store View → Prop) : Prop :=
  ∀ s a t, m s = some (a, t) → Adds s t ∧ ∀ σ B, w.Of s σ → t.builder.Extends B → Links helper W t.ctx →
    ∃ o, Q a o ∧ Ends t o (B.exec W (s.builder.since t.builder) σ)

/-! ### What survives -/

variable {α β : Type} {w w' : View} {s t : EmitState} {σ τ : Machine} {b b' : Builder} {f : Fact}

/-- A fact survives where the registers that were built before do. -/
theorem Fact.Holds.mono (h : f.Holds b σ) (hb : b.Extends b') (hr : ∀ n < b.nextValue, τ.reg n = σ.reg n) : f.Holds b' τ := by
  obtain ⟨n, hv, hn, ht, hx⟩ := h
  refine ⟨n, hv, hn.trans_le hb.nextValue, (hb.node n hn).type.trans ht, ?_⟩
  have same : b'.read τ (some n) = b.read σ (some n) := by
    rw [hb.read hn, Builder.read, Builder.read, hr n hn]
  rw [same]
  exact hx

/-- So does a view, if the labels stay. -/
theorem View.Of.mono (h : w.Of s σ) (hc : t.ctx.Ok) (hb : s.builder.Extends t.builder) (hl : t.func.labels = s.func.labels)
    (hr : ∀ n < s.builder.nextValue, τ.reg n = σ.reg n) : ({ w with shared := τ.toStore } : View).Of t τ where
  ctx := hc
  params := by rw [hb.params]; exact h.params
  facts f hf := (h.facts f hf).mono hb hr
  stack := by
    obtain ⟨l, ls, hls, hv⟩ := h.stack
    exact ⟨l, ls, hl.trans hls, hv.imp fun _ _ hx => ⟨hx.1, hx.2.mono hb hr⟩⟩
  shared := rfl

/-- A view may forget facts. -/
theorem View.Of.forget {Γ : Set Fact} (h : w.Of s σ) (hsub : Γ ⊆ w.facts) : ({ w with facts := Γ } : View).Of s σ :=
  ⟨h.ctx, h.params, fun f hf => h.facts f (hsub hf), h.stack, h.shared⟩

@[simp] theorem View.mem_learn (w : View) (f g : Fact) : g ∈ (w.learn f).facts ↔ g = f ∨ g ∈ w.facts := Set.mem_insert_iff

@[simp] theorem View.learn_stack (w : View) (f : Fact) : (w.learn f).stack = w.stack := rfl

@[simp] theorem View.learn_shared (w : View) (f : Fact) : (w.learn f).shared = w.shared := rfl

/-- What a fact says of the value in a larger graph. -/
theorem Fact.Holds.read (h : f.Holds b σ) (hb : b.Extends b') : (b'.read σ f.value).setWidth f.bits = f.word.setWidth f.bits := by
  obtain ⟨n, hv, hn, -, hx⟩ := h
  rw [hv, hb.read hn]
  exact hx

theorem Fact.Holds.typeOf (h : f.Holds b σ) : b.typeOf f.value = f.type := by
  obtain ⟨n, hv, -, ht, -⟩ := h
  rw [hv]
  exact ht

/-- A value that is known as far as its type goes is read as that word. -/
theorem Fact.Holds.keeps {v : Value} {type : ValueType} {x : Word} (h : Fact.Holds b σ ⟨v, type, type.width, x⟩) (hb : b.Extends b') :
    b'.read σ v = Word.fill type.width x 0 := by
  obtain ⟨n, rfl, hn, ht, hx⟩ := h
  have known := hb.read (σ := σ) hn ▸ hx
  rw [Builder.read, (hb.node n hn).type, ht] at known ⊢
  rw [Word.setWidth_fill] at known
  exact Word.fill_congr known 0

/-- Values that are known are read as their words. -/
theorem View.Of.words {args : List Value} {operands : List (ValueType × Word)} {B : Builder} (h : w.Of s σ)
    (hargs : List.Forall₂ (fun v (p : ValueType × Word) => ⟨v, p.1, p.1.width, p.2⟩ ∈ w.facts) args operands)
    (hB : s.builder.Extends B) : args.map (B.read σ) = operands.map fun p => Word.fill p.1.width p.2 0 := by
  induction hargs with
  | nil => rfl
  | cons hv _ ih => rw [List.map_cons, List.map_cons, ih, (h.facts _ hv).keeps hB]

/-- A value that was just built. -/
theorem View.Of.built {i : Inst} {type : ValueType} {bits : ℕ} {x y : Word} (h : w.Of s σ) (htype : s.builder.instType i = type)
    (hbits : bits ≤ type.width) (hx : y.setWidth bits = x.setWidth bits) (u : Store) :
    (({ w with shared := u } : View).learn ⟨some s.builder.nextValue, type, bits, x⟩).Of (s.withBuilder (s.builder.build i))
      ((σ.share u).define W s.builder.nextValue bits y) := by
  have older : ∀ n < s.builder.nextValue, ((σ.share u).define W s.builder.nextValue bits y).reg n = σ.reg n :=
    fun n hn => Function.update_of_ne (Nat.ne_of_lt hn) _ _
  have kept := h.mono (t := s.withBuilder (s.builder.build i)) h.ctx (Builder.extends_build _ i) rfl older
  refine ⟨kept.ctx, kept.params, fun f hf => ?_, kept.stack, rfl⟩
  rcases Set.mem_insert_iff.mp hf with rfl | hf
  · refine ⟨s.builder.nextValue, rfl, by simp, by simpa using htype, ?_⟩
    simp only [Builder.read, EmitState.withBuilder_builder, Builder.build_node, Function.update_self, Machine.define, htype]
    rw [Word.setWidth_fill_of_le hbits, Word.setWidth_fill, hx]
  · exact kept.facts f hf

/-- The node of a call ends with what the callee leaves behind. -/
theorem View.Of.ends_call {i : Inst} {ret : ValueType} (h : w.Of s σ) (htype : s.builder.instType i = ret)
    (hout : i.hasOutput = decide (ret ≠ .none)) (x : Outcome Store (Word × Store)) :
    Ends (s.withBuilder (s.builder.build i)) (x.bind fun p => .done (w.returned ret (s.builder.handle i) p))
      (x.bind fun p => .done ((σ.share p.2).define W s.builder.nextValue ret.width p.1)) := by
  rcases x with ⟨r, u⟩ | u | u | _
  · rw [Outcome.done_bind, Outcome.done_bind, View.returned]
    by_cases hnone : ret = .none
    · rw [if_pos hnone]
      have older : ∀ n < s.builder.nextValue, ((σ.share u).define W s.builder.nextValue ret.width r).reg n = σ.reg n :=
        fun n hn => Function.update_of_ne (Nat.ne_of_lt hn) _ _
      exact h.mono (t := s.withBuilder (s.builder.build i)) h.ctx (Builder.extends_build s.builder i) rfl older
    · rw [if_neg hnone, Builder.handle, if_pos (by simpa [hout] using hnone)]
      exact h.built htype (Nat.le_refl _) rfl u
  · rfl
  · rfl
  · trivial

/-! ### Rules -/

namespace Runs

variable {m : Emit α} {f : α → Emit β} {Q Q' : α → Outcome Store View → Prop} {R : β → Outcome Store View → Prop}

theorem weaken (h : Runs helper W w m Q) (hQ : ∀ a o, Q a o → Q' a o) : Runs helper W w m Q' := by
  intro s a t hm
  obtain ⟨hadds, hrun⟩ := h s a t hm
  refine ⟨hadds, fun σ B hw hB hlinks => ?_⟩
  obtain ⟨o, hq, ho⟩ := hrun σ B hw hB hlinks
  exact ⟨o, hQ a o hq, ho⟩

theorem pure {a : α} (h : Q a (.done w)) : Runs helper W w (Pure.pure a) Q := by
  intro s a' t hm
  obtain ⟨rfl, rfl⟩ := Prod.mk.inj ((pure_eq_some _ _ _).mp hm)
  refine ⟨.refl _, fun σ B hw hB hlinks => ⟨_, h, ?_⟩⟩
  simpa [Ends] using hw

/-- A part and the rest of the code, which runs only behind the parts that end. Where the
first part ends depends on a parameter. -/
theorem seq {ρ : Type} [Nonempty ρ] {g : α → ρ → View} {S : α → ρ → β → Outcome Store View → Prop} (h : Runs helper W w m Q)
    (hf : ∀ a p, Runs helper W (g a p) (f a) (S a p))
    (hQ : ∀ a o, Q a o → (∃ p, o = .done (g a p) ∧ ∀ b o', S a p b o' → R b o') ∨ (∃ s, o = .trap s ∧ ∀ b, R b (.trap s)) ∨
      (∃ s, o = .diverge s ∧ ∀ b, R b (.diverge s)) ∨ o = .unknown ∧ ∀ b, R b .unknown) : Runs helper W w (m >>= f) R := by
  intro s b u hm
  obtain ⟨a, t, hm, hrest⟩ := (bind_eq_some _ _ _ _).mp hm
  obtain ⟨hadds, hrun⟩ := h s a t hm
  have hadds' := (hf a (Classical.arbitrary ρ) t b u hrest).1
  refine ⟨hadds.trans hadds', fun σ B hw hB hlinks => ?_⟩
  obtain ⟨o, hq, ho⟩ := hrun σ B hw (hadds'.builder.grows.trans hB) (hadds'.links hlinks)
  rw [hadds.builder.since hadds'.builder, Builder.exec_append]
  rcases hQ a o hq with ⟨p, rfl, hS⟩ | ⟨s', rfl, hR⟩ | ⟨s', rfl, hR⟩ | ⟨rfl, hR⟩
  · rcases he : B.exec W (s.builder.since t.builder) σ with τ | _ | _ | _ <;> simp only [he, Ends] at ho
    obtain ⟨o', hq', ho'⟩ := (hf a p t b u hrest).2 τ B ho hB hlinks
    exact ⟨o', hS b o' hq', ho'⟩
  · rcases he : B.exec W (s.builder.since t.builder) σ with _ | s'' | _ | _ <;> simp only [he, Ends] at ho
    exact ⟨_, hR b, ho⟩
  · rcases he : B.exec W (s.builder.since t.builder) σ with _ | _ | s'' | _ <;> simp only [he, Ends] at ho
    exact ⟨_, hR b, ho⟩
  · rcases he : B.exec W (s.builder.since t.builder) σ with _ | _ | _ | _ <;> simp only [he, Ends] at ho
    exact ⟨_, hR b, trivial⟩

/-- A part whose run always ends. -/
theorem bind {g : α → View} (h : Runs helper W w m fun a o => o = .done (g a)) (hf : ∀ a, Runs helper W (g a) (f a) R) :
    Runs helper W w (m >>= f) R :=
  seq (ρ := Unit) (g := fun a _ => g a) h (fun a _ => hf a) fun _ _ ho => .inl ⟨(), ho, fun _ _ h => h⟩

/-- A part that ends where `x` does, and the rest of the code from there. -/
theorem outcome {ρ : Type} [Nonempty ρ] {x : Outcome Store ρ} {g : α → ρ → View} {k : ρ → Outcome Store View}
    (h : Runs helper W w m fun a o => o = x.bind fun p => .done (g a p)) (hf : ∀ a p, Runs helper W (g a p) (f a) fun _ o => o = k p) :
    Runs helper W w (m >>= f) fun _ o => o = x.bind k := by
  refine seq h hf ?_
  rintro a o rfl
  rcases x with p | s | s | _
  · exact .inl ⟨p, rfl, fun _ _ h => h⟩
  · exact .inr (.inl ⟨s, rfl, fun _ => rfl⟩)
  · exact .inr (.inr (.inl ⟨s, rfl, fun _ => rfl⟩))
  · exact .inr (.inr (.inr ⟨rfl, fun _ => rfl⟩))

/-- What the first part checks may be used for the whole. -/
theorem require {p : Prop} (hp : ∀ s r, m s = some r → p) (h : p → Runs helper W w (m >>= f) R) : Runs helper W w (m >>= f) R := by
  intro s b t hm
  obtain ⟨a, u, hu, -⟩ := (bind_eq_some _ _ _ _).mp hm
  exact h (hp s (a, u) hu) s b t hm

/-- At the end the values at hand no longer matter. -/
theorem leave {w' : View} (h : Runs helper W w m fun _ o => o = .done w') :
    Runs helper W w m fun _ o => o = .done { w' with facts := ∅ } := by
  intro s a t hm
  obtain ⟨hadds, hrun⟩ := h s a t hm
  refine ⟨hadds, fun σ B hw hB hlinks => ⟨_, rfl, ?_⟩⟩
  obtain ⟨o, rfl, ho⟩ := hrun σ B hw hB hlinks
  rcases he : B.exec W (s.builder.since t.builder) σ with τ | _ | _ | _ <;> simp only [he, Ends] at ho ⊢
  exact ho.forget (Set.empty_subset _)

theorem given {o : Option α} (hf : ∀ a, o = some a → Runs helper W w (f a) R) : Runs helper W w (lift o >>= f) R := by
  intro s b t h
  obtain ⟨a, ho, h⟩ := (lift_bind_eq_some o f s (b, t)).mp h
  exact hf a ho s b t h

theorem assume {p : Prop} [Decidable p] {f : Unit → Emit β} (hf : p → Runs helper W w (f ()) R) :
    Runs helper W w (check p >>= f) R := by
  intro s b t h
  obtain ⟨hp, h⟩ := (check_bind_eq_some p f s (b, t)).mp h
  exact hf hp s b t h

theorem ite {p : Prop} [Decidable p] {m' : Emit α} (h : p → Runs helper W w m Q) (h' : ¬p → Runs helper W w m' Q) :
    Runs helper W w (if p then m else m') Q := by
  split_ifs with hp
  · exact h hp
  · exact h' hp

/-! The operand stack. -/

variable {x : Word} {type : ValueType} {rest : List (ValueType × Word)}

/-- Popping an operand makes its word known. -/
theorem pop (hw : w.stack = (type, x) :: rest) :
    Runs helper W w (jitPop type) fun v o => o = .done ({ w with stack := rest }.learn ⟨v, type, type.width, x⟩) := by
  intro s v t hm
  obtain ⟨l, ls, vs, hl, hv, rfl⟩ := (jitPop_eq_some type s (v, t)).mp hm
  refine ⟨⟨.refl _, fun _ _ h => h⟩, fun σ B ho hB hlinks => ⟨_, rfl, ?_⟩⟩
  obtain ⟨l', ls', hl', hstack⟩ := ho.stack
  obtain ⟨rfl, rfl⟩ := List.cons.inj (hl.symm.trans hl')
  rw [hv, hw, List.forall₂_cons] at hstack
  simp only [EmitState.withLabels_builder, Builder.since_self, Builder.exec_nil]
  refine ⟨ho.ctx, ho.params, fun f hf => ?_, ⟨_, _, rfl, hstack.2⟩, ho.shared⟩
  rcases Set.mem_insert_iff.mp hf with rfl | hf
  · exact hstack.1.2
  · exact ho.facts f hf

/-- Pushing a value whose word is known. -/
theorem push {v : Value} (hv : ⟨v, type, type.width, x⟩ ∈ w.facts) :
    Runs helper W w (jitPush type v) fun _ o => o = .done { w with stack := (type, x) :: w.stack } := by
  intro s a t hm
  obtain rfl := (Prod.mk.inj ((modifyLabel_eq_some _ _ _ _).mp hm)).2
  refine ⟨⟨.refl _, fun _ _ h => h⟩, fun σ B ho hB hlinks => ⟨_, rfl, ?_⟩⟩
  obtain ⟨l, ls, hl, hstack⟩ := ho.stack
  simp only [EmitState.withLabels_builder, Builder.since_self, Builder.exec_nil]
  refine ⟨ho.ctx, ho.params, ho.facts, ⟨{ l with stack := ⟨v, type⟩ :: l.stack }, ls, by simp [hl], ?_⟩, ho.shared⟩
  exact .cons ⟨rfl, ho.facts _ hv⟩ hstack

/-! Nodes. -/

/-- The code of one node. -/
theorem node {i : Inst} {Q : Value → Outcome Store View → Prop} (hi : i.isPhi = false)
    (h : ∀ s σ B, w.Of s σ → s.builder.Extends B → (B.node s.builder.nextValue).inst = i →
      (B.node s.builder.nextValue).type = s.builder.instType i → Links helper W s.ctx →
      ∃ o, Q (s.builder.handle i) o ∧ Ends (s.withBuilder (s.builder.build i)) o (B.step W s.builder.nextValue σ)) :
    Runs helper W w (build i) Q := by
  intro s v t hm
  simp only [build, Option.some.injEq, Prod.mk.injEq] at hm
  obtain ⟨rfl, rfl⟩ := hm
  refine ⟨⟨Builder.appends_build _ i, fun _ _ h => h⟩, fun σ B hw hB hlinks => ?_⟩
  obtain ⟨hinst, ht, hstep⟩ := Builder.exec_build (W := W) (σ := σ) hB hi
  rw [EmitState.withBuilder_builder, hstep]
  exact h s σ B hw ((Builder.extends_build _ i).trans hB) hinst ht hlinks

/-- A node that computes the word `x`, as far as its low bits go. -/
theorem compute {i : Inst} {type : ValueType} {bits : ℕ} (hi : i.isPhi = false) (hout : i.hasOutput = true) (hbits : bits ≤ type.width)
    (h : ∀ s σ B, w.Of s σ → s.builder.Extends B → s.builder.instType i = type ∧
      ∃ y, i.compute W B.typeOf (B.read σ) type = .done (bits, y) ∧ y.setWidth bits = x.setWidth bits) :
    Runs helper W w (build i) fun v o => o = .done (w.learn ⟨v, type, bits, x⟩) := by
  refine node hi fun s σ B hw hB hinst ht hlinks => ?_
  obtain ⟨htype, y, hy, hx⟩ := h s σ B hw hB
  have step : B.step W s.builder.nextValue σ = .done (σ.define W s.builder.nextValue bits y) := by
    apply Builder.step_of_compute
    rw [hinst, ht, htype]
    exact hy
  have same : ({ w with shared := σ.toStore } : View) = w := by rw [hw.shared]
  have built := hw.built (W := W) htype hbits hx σ.toStore
  rw [same] at built
  refine ⟨_, rfl, ?_⟩
  rw [step, Builder.handle, if_pos hout]
  exact built

variable {v base off ptr : Value} {y : Word} {k : ℕ}

/-- A node of integer arithmetic, which may trap. -/
theorem binop {op : Binop} {a b : Value} (hop : op.isFloat = false) (ha : ⟨a, type, type.width, x⟩ ∈ w.facts)
    (hb : ⟨b, type, type.width, y⟩ ∈ w.facts) : Runs helper W w (build (.binop op a b)) fun v o =>
      o = ((op.compute (x.setWidth type.width) (y.setWidth type.width)).trapIn w.shared).bind fun r =>
        .done (w.learn ⟨v, type, type.width, r.setWidth 64⟩) := by
  refine node rfl fun s σ B hw hB hinst ht hlinks => ⟨_, rfl, ?_⟩
  have htype : s.builder.instType (.binop op a b) = type := (hw.facts _ ha).typeOf
  have hx : (B.read σ a).setWidth type.width = x.setWidth type.width := (hw.facts _ ha).read hB
  have hy : (B.read σ b).setWidth type.width = y.setWidth type.width := (hw.facts _ hb).read hB
  have step : B.step W s.builder.nextValue σ =
      ((op.compute (x.setWidth type.width) (y.setWidth type.width)).trapIn w.shared).bind fun r =>
        .done (σ.define W s.builder.nextValue type.width (r.setWidth 64)) := by
    have compute : (Inst.binop op a b).compute W B.typeOf (B.read σ) type =
        (op.compute (x.setWidth type.width) (y.setWidth type.width)).bind fun r => .done (type.width, r.setWidth 64) := by
      rw [Inst.compute, hop, if_neg Bool.false_ne_true, hx, hy]
    simp only [Builder.step, hinst]
    rw [ht.trans htype, compute, hw.shared]
    cases op.compute (x.setWidth type.width) (y.setWidth type.width) <;> rfl
  have same : ({ w with shared := σ.toStore } : View) = w := by rw [hw.shared]
  rw [step]
  cases op.compute (x.setWidth type.width) (y.setWidth type.width) with
  | done r =>
    have built := hw.built (W := W) htype (Nat.le_refl _) (rfl : (r.setWidth 64 : Word).setWidth type.width = _) σ.toStore
    rw [same] at built
    exact built
  | trap _ => rfl
  | diverge _ => rfl
  | unknown => trivial

/-- A node of integer arithmetic that has a result. -/
theorem binopDone {op : Binop} {a b : Value} {r : BitVec type.width} (hop : op.isFloat = false) (ha : ⟨a, type, type.width, x⟩ ∈ w.facts)
    (hb : ⟨b, type, type.width, y⟩ ∈ w.facts) (hr : op.compute (x.setWidth type.width) (y.setWidth type.width) = .done r) :
    Runs helper W w (build (.binop op a b)) fun v o => o = .done (w.learn ⟨v, type, type.width, r.setWidth 64⟩) := by
  have run : Runs helper W w (build (.binop op a b)) _ := binop hop ha hb
  rw [hr] at run
  exact run

/-- A comparison. -/
theorem icmp {kind : Icmp} {ret : ValueType} {a b : Value} (ha : ⟨a, type, type.width, x⟩ ∈ w.facts)
    (hb : ⟨b, type, type.width, y⟩ ∈ w.facts) : Runs helper W w (build (.icmp kind ret a b)) fun v o =>
      o = .done (w.learn ⟨v, ret, ret.width, if kind.compute (x.setWidth type.width) (y.setWidth type.width) then 1 else 0⟩) := by
  refine compute rfl rfl (Nat.le_refl _) fun s σ B hw hB => ⟨rfl, _, ?_, rfl⟩
  have typeOf : B.typeOf a = type := ((hw.facts _ ha).mono hB fun _ _ => rfl).typeOf
  have hx : (B.read σ a).setWidth type.width = x.setWidth type.width := (hw.facts _ ha).read hB
  have hy : (B.read σ b).setWidth type.width = y.setWidth type.width := (hw.facts _ hb).read hB
  rw [Inst.compute, typeOf, hx, hy]

/-- The first two parameters are pointers. -/
theorem param (hk : k < 2) : Runs helper W w (build (.param k)) fun v o => o = .done (w.learn ⟨v, .ptr, 64, W.param k⟩) := by
  refine compute rfl rfl (by decide) fun s σ B hw hB => ⟨?_, W.param k, rfl, rfl⟩
  have known : s.builder.params[k]? = some .ptr := by
    rcases Nat.le_one_iff_eq_zero_or_eq_one.mp (Nat.le_of_lt_succ hk) with rfl | rfl
    · exact hw.params.1
    · exact hw.params.2
  rw [Builder.instType, Inst.resultType, List.getD_eq_getElem?_getD, known, Option.getD_some]

theorem iconst (c : BitVec 64) : Runs helper W w (build (.iconst type c)) fun v o => o = .done (w.learn ⟨v, type, type.width, c⟩) :=
  compute rfl rfl (Nat.le_refl _) fun _ _ _ _ _ => ⟨rfl, c, rfl, rfl⟩

theorem iconst64 (c : BitVec 64) : Runs helper W w (build (.iconst .i64 c)) fun v o => o = .done (w.learn ⟨v, .i64, 64, c⟩) := iconst c

theorem iext (hv : ⟨v, .i32, 32, x⟩ ∈ w.facts) :
    Runs helper W w (build (.unop .iext v)) fun v o => o = .done (w.learn ⟨v, .i64, 32, x⟩) :=
  compute rfl rfl (by decide) fun _ _ _ hw hB => ⟨rfl, _, rfl, (hw.facts _ hv).read hB⟩

theorem ptroff (hb : ⟨base, .ptr, 64, x⟩ ∈ w.facts) (ho : ⟨off, .i64, 64, y⟩ ∈ w.facts) :
    Runs helper W w (build (.ptroff base off)) fun v o => o = .done (w.learn ⟨v, .ptr, 64, x + y⟩) := by
  refine compute rfl rfl (by decide) fun s σ B hw hB => ⟨rfl, _, rfl, ?_⟩
  have hx := (hw.facts _ hb).read hB
  have hy := (hw.facts _ ho).read hB
  simp only [BitVec.setWidth_eq] at hx hy ⊢
  rw [hx, hy]

/-- A sum or a conjunction of two integers of 64 bits, of which some are known. -/
theorem binop64 {op : Binop} {bits bits' : ℕ} {x' : Word} (hop : op.isFloat = false)
    (ha : ⟨base, .i64, bits, x⟩ ∈ w.facts) (hb : ⟨off, .i64, bits', y⟩ ∈ w.facts)
    (hx : ∀ a b : Word, a.setWidth bits = x.setWidth bits → b.setWidth bits' = y.setWidth bits' → op.compute a b = .done x') :
    Runs helper W w (build (.binop op base off)) fun v o => o = .done (w.learn ⟨v, .i64, 64, x'⟩) := by
  exact compute rfl rfl (by decide) fun s σ B hw hB => ⟨(hw.facts _ ha).typeOf, x',
    Inst.compute_i64 hop (hx _ _ ((hw.facts _ ha).read hB) ((hw.facts _ hb).read hB)), rfl⟩

/-- A value built from a view that knows more than is needed behind it. -/
theorem giving {w' : View} {m : Emit Value} {f : Value → Fact} (h : Runs helper W w' m fun v o => o = .done (w'.learn (f v)))
    (hfacts : w.facts ⊆ w'.facts) (hstack : w'.stack = w.stack) (hshared : w'.shared = w.shared) :
    Runs helper W w' m fun v o => o = .done (w.learn (f v)) := by
  intro s v t hm
  obtain ⟨hadds, hrun⟩ := h s v t hm
  refine ⟨hadds, fun σ B hw hB hlinks => ⟨_, rfl, ?_⟩⟩
  obtain ⟨o, rfl, ho⟩ := hrun σ B hw hB hlinks
  rcases he : B.exec W (s.builder.since t.builder) σ with τ | _ | _ | _ <;> simp only [he, Ends] at ho ⊢
  have same : w.learn (f v) = { w'.learn (f v) with facts := insert (f v) w.facts } := by
    rw [View.learn, View.learn, hstack, hshared]
  rw [same]
  exact ho.forget (Set.insert_subset_insert hfacts)

theorem zext64 (hv : ⟨v, .i32, 32, x⟩ ∈ w.facts) :
    Runs helper W w (jitEmitZext64 v) fun v o => o = .done (w.learn ⟨v, .i64, 64, Word.zext32 x⟩) := by
  apply bind (iext hv)
  intro e
  apply bind (iconst64 _)
  intro mask
  have both : ∀ a b : Word, a.setWidth 32 = x.setWidth 32 → b.setWidth 64 = (0xFFFFFFFF : Word).setWidth 64 →
      Binop.and.compute a b = .done (Word.zext32 x) := by
    intro a b ha hb
    rw [BitVec.setWidth_eq, BitVec.setWidth_eq] at hb
    rw [hb]
    exact congrArg Outcome.done (Word.and_mask32 ha)
  refine giving (binop64 rfl (by simp) (by simp) both) ?_ rfl rfl
  exact (Set.subset_insert _ _).trans (Set.subset_insert _ _)

theorem addOffset (memOffset : ℕ) (hv : ⟨v, .i64, 64, x⟩ ∈ w.facts) :
    Runs helper W w (addMemOffset memOffset v) fun v o => o = .done (w.learn ⟨v, .i64, 64, x + BitVec.ofNat 64 memOffset⟩) := by
  apply ite
  · rintro rfl
    apply pure
    rw [BitVec.add_zero, View.learn, Set.insert_eq_of_mem hv]
  · intro _
    apply assume
    intro _
    apply bind (iconst64 _)
    intro c
    have both : ∀ a b : Word, a.setWidth 64 = x.setWidth 64 → b.setWidth 64 = (BitVec.ofNat 64 memOffset).setWidth 64 →
        Binop.iadd.compute a b = .done (x + BitVec.ofNat 64 memOffset) := by
      intro a b ha hb
      rw [BitVec.setWidth_eq, BitVec.setWidth_eq] at ha hb
      rw [ha, hb]
      rfl
    exact giving (binop64 rfl (by simp [hv]) (by simp) both) (Set.subset_insert _ _) rfl rfl

/-- The address of an access: the base of the memory and, in 64 bits, the operand and the constant. -/
theorem addr (memArg : WasmMemArg) (hv : ⟨v, .i32, 32, x⟩ ∈ w.facts) :
    Runs helper W w (jitWasmCalculateAddr memArg v) fun v o =>
      o = .done (w.learn ⟨v, .ptr, 64, W.param 0 + (Word.zext32 x + BitVec.ofNat 64 memArg.offset)⟩) := by
  apply bind (zext64 hv)
  intro off
  apply bind (addOffset (x := Word.zext32 x) _ (by simp))
  intro off'
  apply bind (param (by decide))
  intro base
  refine giving (ptroff (by simp) (by simp)) ?_ rfl rfl
  exact (Set.subset_insert _ _).trans ((Set.subset_insert _ _).trans (Set.subset_insert _ _))

/-- The address of an operand. -/
theorem memory (hb : ⟨base, .ptr, 64, x⟩ ∈ w.facts) (hv : ⟨v, .i32, 32, y⟩ ∈ w.facts) :
    Runs helper W w (memoryPtr base v) fun v o => o = .done (w.learn ⟨v, .ptr, 64, x + Word.zext32 y⟩) := by
  apply bind (zext64 hv)
  intro off
  exact giving (ptroff (by simp [hb]) (by simp)) (Set.subset_insert _ _) rfl rfl

/-- The address of a slot of the state. -/
theorem slot (offset : ℕ) :
    Runs helper W w (stateSlot offset) fun v o => o = .done (w.learn ⟨v, .ptr, 64, W.param 1 + BitVec.ofNat 64 offset⟩) := by
  apply bind (param (by decide))
  intro base
  apply bind (iconst64 _)
  intro off
  exact giving (ptroff (by simp) (by simp)) ((Set.subset_insert _ _).trans (Set.subset_insert _ _)) rfl rfl

/-- A load that the type can hold. -/
theorem load {size : MemSize} (ha : ⟨ptr, .ptr, 64, x⟩ ∈ w.facts) (hsize : 8 * size.bytes ≤ type.width) :
    Runs helper W w (build (.load size type ptr)) fun v o => o = (w.shared.load x.toNat size.bytes).bind fun p =>
      .done ({ w with shared := p.2 }.learn ⟨v, type, 8 * size.bytes, Word.ofBytes p.1⟩) := by
  refine node rfl fun s σ B hw hB hinst ht hlinks => ⟨_, rfl, ?_⟩
  have hptr : B.read σ ptr = x := by simpa using (hw.facts _ ha).read hB
  have step : B.step W s.builder.nextValue σ = (w.shared.load x.toNat size.bytes).bind fun p =>
      .done ((σ.share p.2).define W s.builder.nextValue (8 * size.bytes) (Word.ofBytes p.1)) := by
    rw [← hw.shared, ← hptr]
    simp only [Builder.step, hinst]
  rw [step]
  rcases w.shared.load x.toNat size.bytes with ⟨bytes, u⟩ | u | u | _
  · have htype : s.builder.instType (.load size type ptr) = type := rfl
    exact hw.built htype hsize rfl u
  · rfl
  · rfl
  · trivial

/-- A store of the low bytes of a value. -/
theorem store {size : MemSize} {bits : ℕ} (ha : ⟨ptr, .ptr, 64, x⟩ ∈ w.facts) (hv : ⟨v, type, bits, y⟩ ∈ w.facts)
    (hsize : 8 * size.bytes ≤ bits) :
    Runs helper W w (build (.store size v ptr)) fun _ o => o = (w.shared.store x.toNat (y.toBytes size.bytes)).bind fun u =>
      .done { w with shared := u } := by
  refine node rfl fun s σ B hw hB hinst ht hlinks => ⟨_, rfl, ?_⟩
  have hptr : B.read σ ptr = x := by simpa using (hw.facts _ ha).read hB
  have hbytes : (B.read σ v).toBytes size.bytes = y.toBytes size.bytes := by
    apply Word.toBytes_congr
    have known := congrArg (BitVec.setWidth (8 * size.bytes)) ((hw.facts _ hv).read hB)
    rwa [BitVec.setWidth_setWidth_of_le _ hsize, BitVec.setWidth_setWidth_of_le _ hsize] at known
  have step : B.step W s.builder.nextValue σ = (w.shared.store x.toNat (y.toBytes size.bytes)).bind fun u => .done (σ.share u) := by
    rw [← hw.shared, ← hptr, ← hbytes]
    simp only [Builder.step, hinst]
  rw [step]
  rcases w.shared.store x.toNat (y.toBytes size.bytes) with u | u | u | _
  · have kept := hw.mono (t := s.withBuilder (s.builder.build (.store size v ptr))) (τ := σ.share u) hw.ctx
      (Builder.extends_build s.builder (.store size v ptr)) rfl fun _ _ => rfl
    exact kept
  · rfl
  · rfl
  · trivial

/-! Calls. -/

variable {args : List Value} {operands : List (ValueType × Word)} {ret : ValueType}

/-- A call passes what the types of its arguments leave of them, and its result joins what is known. -/
theorem call {callee : FuncRef}
    (hargs : List.Forall₂ (fun v (p : ValueType × Word) => ⟨v, p.1, p.1.width, p.2⟩ ∈ w.facts) args operands) :
    Runs helper W w (build (.call callee args)) fun v o =>
      o = (W.call callee (operands.map fun p => Word.fill p.1.width p.2 0) w.shared).bind fun p => .done (w.returned callee.ret v p) := by
  refine node rfl fun s σ B hw hB hinst ht hlinks => ⟨_, rfl, ?_⟩
  have step : B.step W s.builder.nextValue σ = (W.call callee (operands.map fun p => Word.fill p.1.width p.2 0) w.shared).bind fun p =>
      .done ((σ.share p.2).define W s.builder.nextValue callee.ret.width p.1) := by
    have type : (B.node s.builder.nextValue).type = callee.ret := ht
    rw [← hw.words hargs hB, ← hw.shared, ← type]
    simp only [Builder.step, hinst]
  rw [step]
  exact hw.ends_call rfl rfl _

/-- A call of an address. -/
theorem callind {types : List ValueType} {target : Value} {a : Word} (htarget : ⟨target, .ptr, 64, a⟩ ∈ w.facts)
    (hargs : List.Forall₂ (fun v (p : ValueType × Word) => ⟨v, p.1, p.1.width, p.2⟩ ∈ w.facts) args operands) :
    Runs helper W w (build (.callind ret types target args)) fun v o =>
      o = (W.callind a (operands.map fun p => Word.fill p.1.width p.2 0) w.shared).bind fun p => .done (w.returned ret v p) := by
  refine node rfl fun s σ B hw hB hinst ht hlinks => ⟨_, rfl, ?_⟩
  have known : B.read σ target = a := by simpa using (hw.facts _ htarget).read hB
  have step : B.step W s.builder.nextValue σ = (W.callind a (operands.map fun p => Word.fill p.1.width p.2 0) w.shared).bind fun p =>
      .done ((σ.share p.2).define W s.builder.nextValue ret.width p.1) := by
    have type : (B.node s.builder.nextValue).type = ret := ht
    rw [← hw.words hargs hB, ← hw.shared, ← known, ← type]
    simp only [Builder.step, hinst]
  rw [step]
  exact hw.ends_call rfl rfl _

theorem jitGetHelper_links {k : HelperKind} {c c' : JitContext} {f : FuncRef} (h : jitGetHelper k c = some (f, c')) :
    c'.helpers k = some f ∧ ∀ k' f', c.helpers k' = some f' → c'.helpers k' = some f' := by
  simp only [jitGetHelper, read_bind] at h
  rcases hk : c.helpers k with _ | g
  · simp only [hk, createExternFunction_bind, lift_bind_eq_some, update_bind, pure_eq_some, Prod.mk.injEq] at h
    obtain ⟨⟨ret, args⟩, -, rfl, rfl⟩ := h
    refine ⟨Function.update_self .., fun k' f' h' => ?_⟩
    have other : k' ≠ k := fun he => by simp [he, hk] at h'
    exact (Function.update_of_ne other _ _).trans h'
  · simp only [hk, pure_eq_some, Prod.mk.injEq] at h
    obtain ⟨rfl, rfl⟩ := h
    exact ⟨hk, fun _ _ h => h⟩

/-- A helper is declared and then called. -/
theorem callHelper {k : HelperKind} {types : List ValueType} (hk : helperDef k = some (ret, types))
    (hargs : List.Forall₂ (fun v (p : ValueType × Word) => ⟨v, p.1, p.1.width, p.2⟩ ∈ w.facts) args operands) :
    Runs helper W w (Jit.callHelper k args) fun v o =>
      o = (helper k (operands.map fun p => Word.fill p.1.width p.2 0) w.shared).bind fun p => .done (w.returned ret v p) := by
  intro s v t hm
  simp only [Jit.callHelper, context_bind_eq_some] at hm
  obtain ⟨f, ctx, hf, hm⟩ := hm
  obtain ⟨hnew, hold⟩ := jitGetHelper_links hf
  have called : Runs helper W w (build (.call f args)) _ := call hargs
  obtain ⟨hadds, hrun⟩ := called { s with ctx } v t hm
  refine ⟨⟨hadds.builder, fun k f h => hadds.helpers k f (hold k f h)⟩, fun σ B hw hB hlinks => ?_⟩
  obtain ⟨hok, hdef⟩ := jitGetHelper_ok hf hw.ctx
  obtain ⟨rfl, -⟩ := Prod.mk.inj (Option.some.inj (hk.symm.trans hdef))
  obtain ⟨o, ho, hends⟩ := hrun σ B ⟨hok, hw.params, hw.facts, hw.stack, hw.shared⟩ hB hlinks
  rw [hlinks k f (hadds.helpers k f hnew)] at ho
  exact ⟨o, ho, hends⟩

/-- A helper with a result. -/
theorem callValue {k : HelperKind} {types : List ValueType}
    (hk : helperDef k = some (ret, types)) (hret : ret ≠ .none)
    (hargs : List.Forall₂ (fun v (p : ValueType × Word) => ⟨v, p.1, p.1.width, p.2⟩ ∈ w.facts) args operands) :
    Runs helper W w (Jit.callHelper k args) fun v o =>
      o = (helper k (operands.map fun p => Word.fill p.1.width p.2 0) w.shared).bind fun p =>
        .done ({ w with shared := p.2 }.learn ⟨v, ret, ret.width, p.1⟩) := by
  have called : Runs helper W w (Jit.callHelper k args) _ := callHelper hk hargs
  simp only [View.returned, if_neg hret] at called
  exact called

/-- A helper without one. -/
theorem callEffect {k : HelperKind} {types : List ValueType}
    (hk : helperDef k = some (.none, types))
    (hargs : List.Forall₂ (fun v (p : ValueType × Word) => ⟨v, p.1, p.1.width, p.2⟩ ∈ w.facts) args operands) :
    Runs helper W w (Jit.callHelper k args) fun _ o =>
      o = (helper k (operands.map fun p => Word.fill p.1.width p.2 0) w.shared).bind fun p => .done { w with shared := p.2 } := by
  have called : Runs helper W w (Jit.callHelper k args) _ := callHelper hk hargs
  simp only [View.returned, if_true] at called
  exact called

end Runs

end SpidirWasm.Jit
