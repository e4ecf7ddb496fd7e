import Mathlib.Data.Set.Insert
import Mathlib.Logic.Relation
import SpidirWasm.Jit.Control
import SpidirWasm.Spidir.Typing

/-! What an instruction does to the emission state, as a chain of primitive steps. The
steps carry what the handler has under way, since most properties of the graph are
broken in the middle of a handler and put right at its end: a block is created before
it is entered, and an edge is prepared before it is built. A property of the state and
of the work under way that every primitive step keeps is kept by every instruction. -/

namespace SpidirWasm.Jit

open Spidir (Builder Inst Term Value ValueType Block)

/-- The typed values a handler has at hand. -/
abbrev Hand := Set JitValue

/-- The current block takes instructions, or has its terminator, or the label itself is
marked as terminated. -/
inductive Mode where
  | live | sealed | dead
  deriving DecidableEq, Repr

/-- What a handler has under way: the values at hand in the current block, the blocks it
created and has still to enter, each with the values it will find there, and the blocks of
the labels it prepared for an edge that is not built yet. -/
structure Work where
  hand : Hand := ∅
  owed : List (Block × Hand) := []
  due : List Block := []
  mode : Mode := .live

/-- What the branches of one instruction have in common: the locals, the operand they
carry, whether its targets agree on carrying one and on its type, and whether it leaves
behind a block that is never entered. -/
structure Branching where
  locals : List JitValue := []
  operand : Value := none
  uniform : Prop := True
  strict : Prop := True
  leaks : Prop := False

namespace EmitState

/-- Whether the innermost label can be reached. -/
def live (s : EmitState) : Bool := s.func.labels.head?.any fun l => !l.terminated

/-- Nothing under way, between two instructions. -/
def idle (s : EmitState) : Work := { mode := if s.live then .live else .dead }

/-- One more branch to the label at `index`. -/
def arrive (s : EmitState) (index : ℕ) (target : JitLabel) (v : Value) : EmitState :=
  (s.withBuilder (target.arrive s.func.locals v s.builder).2).withLabels
    (s.func.labels.modify index fun _ => (target.arrive s.func.locals v s.builder).1)

/-- The state inside a block that was just opened. -/
def enterBlock (s : EmitState) (resultType : ValueType) : EmitState :=
  (s.withBuilder s.builder.createBlock).withLabels ({ block := s.builder.nextBlock, resultType } :: s.func.labels)

/-- The state inside a loop that was just opened. -/
def enterLoop (s : EmitState) (resultType : ValueType) : EmitState :=
  let block := s.builder.nextBlock
  let (locals, merges, b) := loopPhis s.func.locals ((s.builder.createBlock.terminate (.branch block)).setBlock block)
  ((s.withLocals locals).withBuilder b).withLabels
    ({ block, loop := true, resultType, locals := some merges } :: s.func.labels)

end EmitState

/-- The targets of a terminator are blocks still to be entered, or prepared labels, one
preparation for each edge. -/
inductive Settles (owed : List (Block × Hand)) : List Block → List Block → List Block → Prop
  | nil (due : List Block) : Settles owed due [] due
  | fresh {due due' ds : List Block} {d : Block} {Γ : Hand} (hd : (d, Γ) ∈ owed) (h : Settles owed due ds due') :
      Settles owed due (d :: ds) due'
  | label {due due₁ due' ds : List Block} {d : Block} (hd : due.Perm (d :: due₁)) (h : Settles owed due₁ ds due') :
      Settles owed due (d :: ds) due'

/-- The value of a merged result, if the label has one. -/
def JitLabel.joined (l : JitLabel) : Hand := { v | l.resultType ≠ .none ∧ v = ⟨l.result.value, l.resultType⟩ }

/-- One primitive step. A node reads only values at hand, of the types it declares, and
only values at hand become operands or locals. -/
inductive Prim (J : Branching) : Work → EmitState → Work → EmitState → Prop
  | forget {w : Work} {s : EmitState} {Γ : Hand} (h : Γ ⊆ w.hand) : Prim J w s { w with hand := Γ } s
  | abandon {w : Work} {s : EmitState} {p : Block × Hand} {owed : List (Block × Hand)} (h : J.leaks)
      (hp : w.owed.Perm (p :: owed)) : Prim J w s { w with owed } s
  | context {w : Work} {s : EmitState} (ctx : JitContext) : Prim J w s w { s with ctx }
  | pop {w : Work} {s : EmitState} {l : JitLabel} {ls : List JitLabel} {v : JitValue} {rest : List JitValue}
      (ho : w.owed = []) (hl : s.func.labels = l :: ls) (hv : l.stack = v :: rest) :
      Prim J w s { w with hand := insert v w.hand } (s.withLabels ({ l with stack := rest } :: ls))
  | peek {w : Work} {s : EmitState} {l : JitLabel} {ls : List JitLabel} {v : JitValue} {rest : List JitValue}
      (hl : s.func.labels = l :: ls) (hv : l.stack = v :: rest) : Prim J w s { w with hand := insert v w.hand } s
  | push {w : Work} {s : EmitState} {l : JitLabel} {ls : List JitLabel} {v : JitValue}
      (hm : w.mode = .live) (ho : w.owed = []) (hl : s.func.labels = l :: ls) (hv : v ∈ w.hand) :
      Prim J w s w (s.withLabels ({ l with stack := v :: l.stack } :: ls))
  | discard {w : Work} {s : EmitState} {l : JitLabel} {ls : List JitLabel} (ho : w.owed = []) (hl : s.func.labels = l :: ls) :
      Prim J w s w (s.withLabels ({ l with stack := [] } :: ls))
  | getLocal {w : Work} {s : EmitState} {i : ℕ} {v : JitValue} (hv : s.func.locals[i]? = some v) (hd : v.value ≠ none) :
      Prim J w s { w with hand := insert v w.hand } s
  | setLocal {w : Work} {s : EmitState} {i : ℕ} {l : JitValue} {v : Value} (hm : w.mode = .live) (ho : w.owed = [])
      (hl : s.func.locals[i]? = some l) (hv : ⟨v, l.type⟩ ∈ w.hand) :
      Prim J w s w (s.withLocals (s.func.locals.set i ⟨v, l.type⟩))
  | node {w : Work} {s : EmitState} {i : Inst} {ty : ValueType} (hm : w.mode = .live)
      (hi : i.HasType (fun v t => ⟨v, t⟩ ∈ w.hand) ty) (ho : i.hasOutput = true) :
      Prim J w s { w with hand := insert ⟨some s.builder.nextValue, ty⟩ w.hand } (s.withBuilder (s.builder.build i))
  | effect {w : Work} {s : EmitState} {i : Inst} {ty : ValueType} (hm : w.mode = .live)
      (hi : i.HasType (fun v t => ⟨v, t⟩ ∈ w.hand) ty) (ho : i.hasOutput = false) :
      Prim J w s w (s.withBuilder (s.builder.build i))
  | block {w : Work} {s : EmitState} {Γ : Hand} (h : Γ ⊆ w.hand) :
      Prim J w s { w with owed := (s.builder.nextBlock, Γ) :: w.owed } (s.withBuilder s.builder.createBlock)
  | enter {w : Work} {s : EmitState} {k : Block} {Γ : Hand} {owed : List (Block × Hand)} (hm : w.mode = .sealed)
      (hk : w.owed.Perm ((k, Γ) :: owed)) (hsub : ∀ p ∈ owed, p.2 ⊆ Γ) :
      Prim J w s { w with hand := Γ, owed, mode := .live } (s.withBuilder (s.builder.setBlock k))
  | term {w : Work} {s : EmitState} {t : Term} {due : List Block} (hm : w.mode = .live)
      (ht : J.strict → t.WellTyped (fun v ty => ⟨v, ty⟩ ∈ w.hand) s.func.retType)
      (hd : Settles w.owed w.due (t.targets.map Prod.snd) due) :
      Prim J w s { w with due, mode := .sealed } (s.withBuilder (s.builder.terminate t))
  | arrive {w : Work} {s : EmitState} {index : ℕ} {target : JitLabel} {v : Value} (hm : w.mode = .live)
      (hl : s.func.labels[index]? = some target) (hi : index + 1 < s.func.labels.length)
      (hlocals : s.func.locals = J.locals)
      (hv : target.mergeResult → (J.uniform → v = J.operand ∧ ∃ ty, ⟨v, ty⟩ ∈ w.hand) ∧
        (J.strict → ⟨v, target.resultType⟩ ∈ w.hand)) :
      Prim J w s { w with due := target.block :: w.due } (s.arrive index target v)
  | mark {w : Work} {s : EmitState} {l : JitLabel} {ls : List JitLabel} (hm : w.mode = .sealed)
      (hl : s.func.labels = l :: ls) : Prim J w s { w with mode := .dead } (s.withLabels ({ l with terminated := true } :: ls))
  | skip {w : Work} {s : EmitState} {l : JitLabel} {ls : List JitLabel} (hm : w.mode = .dead)
      (hl : s.func.labels = l :: ls) (depth : ℕ) :
      Prim J w s w (s.withLabels ({ l with unreachableDepth := depth } :: ls))
  | openBlock {w : Work} {s : EmitState} {type : ValueType} (hm : w.mode = .live) (ho : w.owed = [])
      (hl : s.func.labels ≠ []) : Prim J w s w (s.enterBlock type)
  | loop {w : Work} {s : EmitState} {type : ValueType} (hm : w.mode = .live) (ho : w.owed = []) (hd : w.due = [])
      (hl : s.func.labels ≠ []) (hlocals : s.func.locals = J.locals) : Prim J w s { w with hand := ∅ } (s.enterLoop type)
  /-- The end of a block whose continuation is reached. -/
  | join {w : Work} {s : EmitState} {l p : JitLabel} {ls : List JitLabel} {merges : List Merge} (hm : w.mode ≠ .live)
      (ho : w.owed = []) (hd : w.due = []) (hl : s.func.labels = l :: p :: ls) (hloop : l.loop = false)
      (hmerges : l.locals = some merges) :
      Prim J w s { w with hand := l.joined, mode := .live }
        (((s.withLocals (restoreLocals s.func.locals merges)).withBuilder (s.builder.setBlock l.block)).withLabels (p :: ls))
  /-- The end of a block whose continuation is not. -/
  | deadJoin {w : Work} {s : EmitState} {l p : JitLabel} {ls : List JitLabel} (hm : w.mode ≠ .live)
      (ho : w.owed = []) (hd : w.due = []) (hl : s.func.labels = l :: p :: ls) (hloop : l.loop = false)
      (hmerges : l.locals = none) :
      Prim J w s { w with hand := ∅, mode := .live }
        ((s.withBuilder (s.builder.setBlock l.block)).withLabels (p :: ls))
  | endLoop {w : Work} {s : EmitState} {l p : JitLabel} {ls : List JitLabel} (hm : w.mode ≠ .sealed) (ho : w.owed = [])
      (hd : w.due = []) (hl : s.func.labels = l :: p :: ls) (hloop : l.loop = true) :
      Prim J w s { w with mode := if w.mode = .live then .live else .sealed } (s.withLabels (p :: ls))
  | leave {w : Work} {s : EmitState} {l : JitLabel} (hm : w.mode ≠ .live) (ho : w.owed = []) (hd : w.due = [])
      (hl : s.func.labels = [l]) : Prim J w s { w with hand := ∅, mode := .dead } (s.withLabels [])

/-- Any number of primitive steps. -/
def Prims (J : Branching) (w : Work) (s : EmitState) (w' : Work) (s' : EmitState) : Prop :=
  Relation.ReflTransGen (fun p q : Work × EmitState => Prim J p.1 p.2 q.1 q.2) (w, s) (w', s')

variable {J : Branching} {w w' w'' : Work} {s t u : EmitState}

theorem Prim.prims (h : Prim J w s w' t) : Prims J w s w' t := .single h

theorem Prims.trans (h : Prims J w s w' t) (h' : Prims J w' t w'' u) : Prims J w s w'' u :=
  Relation.ReflTransGen.trans h h'

theorem Prims.step (h : Prims J w s w' t) (h' : Prim J w' t w'' u) : Prims J w s w'' u := .tail h h'

/-- A property of the work and the state that every primitive step keeps is kept by any
number of them. -/
theorem Prims.keeps {I : Work → EmitState → Prop} (hI : ∀ {w s w' t}, Prim J w s w' t → I w s → I w' t)
    (h : Prims J w s w' t) (hs : I w s) : I w' t := by
  have key : ∀ q, Relation.ReflTransGen (fun p q : Work × EmitState => Prim J p.1 p.2 q.1 q.2) (w, s) q → I q.1 q.2 := by
    intro q hq
    induction hq with
    | refl => exact hs
    | tail _ step ih => exact hI step ih
  exact key _ h

/-! A branch changes nothing in its target but the merges. -/

section

variable (target : JitLabel) (locals : List JitValue) (v : Value) (b : Builder)

@[simp] theorem arrive_block : (target.arrive locals v b).1.block = target.block := by
  unfold JitLabel.arrive; split <;> rfl

@[simp] theorem arrive_stack : (target.arrive locals v b).1.stack = target.stack := by
  unfold JitLabel.arrive; split <;> rfl

@[simp] theorem arrive_loop : (target.arrive locals v b).1.loop = target.loop := by
  unfold JitLabel.arrive; split <;> rfl

@[simp] theorem arrive_terminated : (target.arrive locals v b).1.terminated = target.terminated := by
  unfold JitLabel.arrive; split <;> rfl

@[simp] theorem arrive_resultType : (target.arrive locals v b).1.resultType = target.resultType := by
  unfold JitLabel.arrive; split <;> rfl

@[simp] theorem arrive_inputs : (target.arrive locals v b).1.inputs = target.inputs + 1 := by
  unfold JitLabel.arrive; split <;> rfl

end

/-- What a branch leaves alone in its target, it leaves alone in the list of labels. -/
theorem arrive_map {α : Type} {f : JitLabel → α} {index : ℕ} {target : JitLabel} {v : Value}
    (hl : s.func.labels[index]? = some target) (hf : f (target.arrive s.func.locals v s.builder).1 = f target) :
    (s.arrive index target v).func.labels.map f = s.func.labels.map f := by
  refine List.ext_getElem? fun i => ?_
  simp only [EmitState.arrive, EmitState.withLabels_func_labels, List.getElem?_map, List.getElem?_modify]
  by_cases hi : index = i
  · subst hi; simp [hl, hf]
  · simp [hi]

/-! ### Which labels are terminated -/

/-- Only the innermost label can be terminated, and it is when the mode says so. -/
structure Tidy (w : Work) (s : EmitState) : Prop where
  nil : s.func.labels = [] → w.mode = .dead
  head : ∀ l ∈ s.func.labels.head?, l.terminated = decide (w.mode = .dead)
  tail : ∀ l ∈ s.func.labels.tail, l.terminated = false

/-- A change that leaves the flags alone, and a mode that is as dead as before. -/
theorem Tidy.of_map (h : Tidy w s) (ht : t.func.labels.map JitLabel.terminated = s.func.labels.map JitLabel.terminated)
    (hm : w'.mode = .dead ↔ w.mode = .dead) : Tidy w' t := by
  obtain ⟨hnil, hhead, htail⟩ := h
  rcases hs : s.func.labels with _ | ⟨l, ls⟩ <;> rcases hls : t.func.labels with _ | ⟨l', ls'⟩ <;>
    simp only [hs, hls, List.map_nil, List.map_cons, List.cons.injEq, reduceCtorEq] at ht
  · exact ⟨fun _ => hm.mpr (hnil hs), by simp [hls], by simp [hls]⟩
  · refine ⟨by simp [hls], by simpa [hls, ht.1, hm] using hhead l (by simp [hs]), fun m hm' => ?_⟩
    have : m.terminated ∈ ls.map JitLabel.terminated := ht.2 ▸ List.mem_map_of_mem (by simpa [hls] using hm')
    obtain ⟨m', hm'', he⟩ := List.mem_map.mp this
    exact he ▸ htail m' (by simpa [hs] using hm'')

/-- Every primitive step keeps the flags in order. -/
theorem Prim.tidy (h : Prim J w s w' t) (hs : Tidy w s) : Tidy w' t := by
  cases h with
  | forget | abandon | context | peek | getLocal | setLocal | block => exact hs.of_map rfl .rfl
  | pop _ hl _ | push _ _ hl _ | discard _ hl | skip _ hl _ => exact hs.of_map (by simp [hl]) .rfl
  | node | effect => exact hs.of_map rfl .rfl
  | enter hm | term hm => exact hs.of_map rfl (by simp [hm])
  | arrive _ hl => exact hs.of_map (arrive_map hl (arrive_terminated ..)) .rfl
  | mark hm hl => exact ⟨by simp, by simp, by simpa [hl] using hs.tail⟩
  | openBlock hm _ hl =>
    refine ⟨by simp [EmitState.enterBlock], by simp [EmitState.enterBlock, hm], fun l hl' => ?_⟩
    rcases hls : s.func.labels with _ | ⟨m, ls⟩
    · exact absurd hls hl
    · rcases List.mem_cons.mp (by simpa [EmitState.enterBlock, hls] using hl') with rfl | hl'
      · simpa [hm] using hs.head l (by simp [hls])
      · exact hs.tail l (by simpa [hls] using hl')
  | loop hm _ _ hl =>
    refine ⟨by simp [EmitState.enterLoop], by simp [EmitState.enterLoop, hm], fun l hl' => ?_⟩
    rcases hls : s.func.labels with _ | ⟨m, ls⟩
    · exact absurd hls hl
    · rcases List.mem_cons.mp (by simpa [EmitState.enterLoop, hls] using hl') with rfl | hl'
      · simpa [hm] using hs.head l (by simp [hls])
      · exact hs.tail l (by simpa [hls] using hl')
  | @join l p ls _ _ _ _ hl | @deadJoin l p ls _ _ _ hl =>
    refine ⟨by simp, ?_, fun m hm => hs.tail m (by rw [hl]; exact List.mem_cons_of_mem _ hm)⟩
    simpa using hs.tail p (by simp [hl])
  | @endLoop l p ls _ _ _ hl =>
    refine ⟨by simp, ?_, fun m hm => hs.tail m (by rw [hl]; exact List.mem_cons_of_mem _ hm)⟩
    have := hs.tail p (by simp [hl])
    split_ifs <;> simpa using this
  | leave => exact ⟨fun _ => rfl, by simp, by simp⟩

theorem Prims.tidy (h : Prims J w s w' t) (hs : Tidy w s) : Tidy w' t := h.keeps Prim.tidy hs

/-- A settled state has only the hand of its work left, which can be let go. -/
theorem Prims.idle (h : Prims J w s w' t) (hs : Tidy w s) (ho : w'.owed = []) (hd : w'.due = []) (hm : w'.mode ≠ .sealed) :
    Prims J w s t.idle t := by
  have ht := h.tidy hs
  suffices { w' with hand := ∅ } = t.idle from this ▸ h.step (.forget (Set.empty_subset _))
  obtain ⟨hand, owed, due, mode⟩ := w'
  simp only at ho hd hm
  subst ho hd
  have hmode : mode = if t.live then .live else .dead := by
    unfold EmitState.live
    rcases hl : t.func.labels with _ | ⟨l, ls⟩
    · simpa using ht.nil hl
    · have := ht.head l (by simp [hl])
      cases mode <;> simp_all
  simp [EmitState.idle, hmode]

end SpidirWasm.Jit
