import SpidirWasm.Spidir.Extends

/-! The inputs of a phi. They only get more, and a node that is built or another phi that
gets an input leaves them alone. -/

namespace SpidirWasm.Spidir

/-- The inputs of a phi, and none of anything else. -/
def Inst.inputs : Inst → List Value
  | .phi _ vs => vs
  | _ => []

theorem Inst.Grows.inputs {i j : Inst} (h : i.Grows j) : i.inputs <+: j.inputs := by
  cases h with
  | refl => exact List.prefix_rfl
  | phi t vs ws => exact List.prefix_append vs ws

namespace Builder

variable {b b' : Builder} {p q : ℕ} {v : Value}

def inputs (b : Builder) (p : ℕ) : List Value := (b.node p).inst.inputs

theorem inputs_congr (h : b'.node p = b.node p) : b'.inputs p = b.inputs p := by rw [inputs, inputs, h]

theorem Extends.inputs (h : b.Extends b') (hp : p < b.nextValue) : b.inputs p <+: b'.inputs p := (h.node p hp).inst.inputs

theorem inputs_build (hp : p < b.nextValue) (i : Inst) : (b.build i).inputs p = b.inputs p :=
  inputs_congr (by rw [build_node, Function.update_of_ne (Nat.ne_of_lt hp)])

theorem inputs_built (i : Inst) : (b.build i).inputs b.nextValue = i.inputs := by
  rw [inputs, build_node, Function.update_self]

theorem inputs_addPhiInput_of_ne (h : q ≠ p) (v : Value) : (b.addPhiInput p v).inputs q = b.inputs q :=
  inputs_congr (Function.update_of_ne h _ _)

theorem inputs_addPhiInput (h : (b.node p).inst.isPhi = true) (v : Value) : (b.addPhiInput p v).inputs p = b.inputs p ++ [v] := by
  obtain ⟨t, vs, hi⟩ : ∃ t vs, (b.node p).inst = .phi t vs := by
    cases hi : (b.node p).inst <;> rw [hi] at h <;> first | exact ⟨_, _, rfl⟩ | cases h
  simp [inputs, Builder.addPhiInput, hi, Inst.inputs]

end Builder

end SpidirWasm.Spidir
