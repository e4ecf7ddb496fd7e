import Mathlib.Order.Nat
import SpidirWasm.Spidir.Typing

/-! How a graph grows. Nothing is ever taken back: a value keeps its type and its
block, a phi may get more inputs, and blocks and edges are only added. -/

namespace SpidirWasm.Spidir

/-- An instruction stays what it is, but a phi may get more inputs. -/
inductive Inst.Grows : Inst → Inst → Prop
  | refl (i : Inst) : Grows i i
  | phi (t : ValueType) (vs ws : List Value) : Grows (.phi t vs) (.phi t (vs ++ ws))

theorem Inst.Grows.trans {i j k : Inst} (h : i.Grows j) (h' : j.Grows k) : i.Grows k := by
  cases h with
  | refl => exact h'
  | phi t vs ws =>
    cases h' with
    | refl => exact .phi t vs ws
    | phi _ _ ws' => exact List.append_assoc vs ws ws' ▸ .phi t vs (ws ++ ws')

theorem Inst.Grows.isPhi {i j : Inst} (h : i.Grows j) : j.isPhi = i.isPhi := by
  cases h <;> rfl

/-- Only a phi changes. -/
theorem Inst.Grows.eq {i j : Inst} (h : i.Grows j) (hi : i.isPhi = false) : j = i := by
  cases h with
  | refl => rfl
  | phi => simp [Inst.isPhi] at hi

structure Node.Grows (x y : Node) : Prop where
  inst : x.inst.Grows y.inst
  type : y.type = x.type
  block : y.block = x.block

theorem Node.Grows.refl (x : Node) : x.Grows x := ⟨.refl _, rfl, rfl⟩

theorem Node.Grows.trans {x y z : Node} (h : x.Grows y) (h' : y.Grows z) : x.Grows z :=
  ⟨h.inst.trans h'.inst, h'.type.trans h.type, h'.block.trans h.block⟩

namespace Builder

/-- `b'` is a later state of the graph `b`. -/
structure Extends (b b' : Builder) : Prop where
  params : b'.params = b.params
  entry : b'.entry = b.entry
  nextValue : b.nextValue ≤ b'.nextValue
  nextBlock : b.nextBlock ≤ b'.nextBlock
  node : ∀ n < b.nextValue, (b.node n).Grows (b'.node n)
  items : ∀ k, b.items k <+: b'.items k
  edges : b.edges <+: b'.edges

variable {b b' b'' : Builder}

theorem Extends.refl (b : Builder) : b.Extends b :=
  ⟨rfl, rfl, le_rfl, le_rfl, fun _ _ => .refl _, fun _ => List.prefix_rfl, List.prefix_rfl⟩

theorem Extends.trans (h : b.Extends b') (h' : b'.Extends b'') : b.Extends b'' where
  params := h'.params.trans h.params
  entry := h'.entry.trans h.entry
  nextValue := h.nextValue.trans h'.nextValue
  nextBlock := h.nextBlock.trans h'.nextBlock
  node n hn := (h.node n hn).trans (h'.node n (hn.trans_le h.nextValue))
  items k := (h.items k).trans (h'.items k)
  edges := h.edges.trans h'.edges

theorem Extends.typed (h : b.Extends b') {v : Value} {t : ValueType} (hv : b.Typed v t) : b'.Typed v t := by
  obtain ⟨n, rfl, hn, ht⟩ := hv
  exact ⟨n, rfl, hn.trans_le h.nextValue, (h.node n hn).type.trans ht⟩

theorem extends_build (b : Builder) (i : Inst) : b.Extends (b.build i) where
  params := by simp
  entry := by simp
  nextValue := by simp
  nextBlock := by simp
  node n hn := by simpa [Function.update_of_ne (Nat.ne_of_lt hn)] using .refl _
  items k := by rw [build_items]; split_ifs <;> simp
  edges := by simp

theorem extends_terminate (b : Builder) (t : Term) : b.Extends (b.terminate t) where
  params := by simp
  entry := by simp
  nextValue := by simp
  nextBlock := by simp
  node n _ := by simpa using .refl _
  items k := by rw [terminate_items]; split_ifs <;> simp
  edges := by unfold terminate; split <;> simp

theorem extends_createBlock (b : Builder) : b.Extends b.createBlock where
  params := rfl
  entry := rfl
  nextValue := le_rfl
  nextBlock := by simp
  node _ _ := .refl _
  items _ := List.prefix_rfl
  edges := List.prefix_rfl

theorem extends_setBlock (b : Builder) (k : Block) : b.Extends (b.setBlock k) :=
  ⟨rfl, rfl, le_rfl, le_rfl, fun _ _ => .refl _, fun _ => List.prefix_rfl, List.prefix_rfl⟩

theorem extends_addPhiInput (b : Builder) (p : ℕ) (v : Value) : b.Extends (b.addPhiInput p v) where
  params := rfl
  entry := rfl
  nextValue := le_rfl
  nextBlock := le_rfl
  node n _ := by
    by_cases h : n = p
    · subst h
      rcases hx : b.node n with ⟨i, t, k⟩
      cases i <;> simp only [addPhiInput, Function.update_self, hx] <;>
        first | exact ⟨.refl _, rfl, rfl⟩ | exact ⟨.phi _ _ [v], rfl, rfl⟩
    · simpa [addPhiInput, Function.update_of_ne h] using .refl _
  items _ := List.prefix_rfl
  edges := List.prefix_rfl

/-- A well-typed node that does not change stays well typed in a larger graph. -/
theorem Extends.nodeOk (h : b.Extends b') {x : Node} (hx : b.NodeOk x) : b'.NodeOk x :=
  hx.mono h.params fun _ _ => h.typed

/-! ### Straight-line code -/

/-- The values built since `b`, in order. -/
def since (b b' : Builder) : List ℕ := List.range' b.nextValue (b'.nextValue - b.nextValue)

/-- `b'` is `b` with more nodes behind it, all of them in the current block. -/
structure Appends (b b' : Builder) : Prop where
  grows : b.Extends b'
  cur : b'.cur = b.cur
  kept : ∀ n < b.nextValue, b'.node n = b.node n
  items : ∀ k, b'.items k =
    if b.cur = some k then b.items k ++ ((b.since b').filter fun n => !(b'.node n).inst.isFloating).map .inst else b.items k

@[simp] theorem since_self (b : Builder) : b.since b = [] := by simp [since]

theorem Appends.refl (b : Builder) : b.Appends b := ⟨.refl b, rfl, fun _ _ => rfl, fun k => by simp⟩

theorem since_trans (h : b.nextValue ≤ b'.nextValue) (h' : b'.nextValue ≤ b''.nextValue) :
    b.since b'' = b.since b' ++ b'.since b'' := by
  have start : b'.nextValue = b.nextValue + 1 * (b'.nextValue - b.nextValue) := by omega
  have total : b''.nextValue - b.nextValue = (b'.nextValue - b.nextValue) + (b''.nextValue - b'.nextValue) := by omega
  rw [since, total, ← List.range'_append, ← start]
  rfl

theorem Appends.since (h : b.Appends b') (h' : b'.Appends b'') : b.since b'' = b.since b' ++ b'.since b'' :=
  since_trans h.grows.nextValue h'.grows.nextValue

theorem Appends.trans (h : b.Appends b') (h' : b'.Appends b'') : b.Appends b'' where
  grows := h.grows.trans h'.grows
  cur := h'.cur.trans h.cur
  kept n hn := (h'.kept n (hn.trans_le h.grows.nextValue)).trans (h.kept n hn)
  items k := by
    have same : (b.since b').filter (fun n => !(b''.node n).inst.isFloating) =
        (b.since b').filter fun n => !(b'.node n).inst.isFloating := by
      apply List.filter_congr
      intro n hn
      have bounds := List.mem_range'.mp hn
      rw [h'.kept n (by omega)]
    rw [h'.items, h.items, h.cur, h.since h', List.filter_append, same]
    split_ifs
    · rw [List.map_append, List.append_assoc]
    · rfl

theorem appends_build (b : Builder) (i : Inst) : b.Appends (b.build i) where
  grows := extends_build b i
  cur := by simp
  kept n hn := by simp [Function.update_of_ne (Nat.ne_of_lt hn)]
  items k := by
    rw [build_items, Builder.since, build_nextValue, Nat.add_sub_cancel_left]
    cases h : i.isFloating <;> by_cases hc : b.cur = some k <;> simp [h, hc]

end Builder

end SpidirWasm.Spidir
