import SpidirWasm.Spidir.Extends

/-! Graphs in which every operand has the type that its consumer declares. Growing keeps
what is typed, so that only the node or the terminator that is added has to be looked at. -/

namespace SpidirWasm.Spidir

theorem Term.WellTyped.mono {R R' : Value → ValueType → Prop} {ret : ValueType} {t : Term} (h : t.WellTyped R ret)
    (hR : ∀ v ty, R v ty → R' v ty) : t.WellTyped R' ret := by
  cases h with
  | branch d => exact .branch d
  | brcond hc => exact .brcond (hR _ _ hc)
  | retNone h => exact .retNone h
  | retSome h hv => exact .retSome h (hR _ _ hv)
  | unreachable => exact .unreachable

namespace Builder

/-- The nodes are typed by their operands, and the terminators by the type a function returns. -/
structure WellTyped (b : Builder) (ret : ValueType) : Prop where
  nodes : ∀ n < b.nextValue, b.NodeOk (b.node n)
  terms : ∀ k t, .term t ∈ b.items k → t.WellTyped b.Typed ret

/-- The first two parameters are pointers. -/
def Pointers (b : Builder) : Prop := b.params[0]? = some .ptr ∧ b.params[1]? = some .ptr

variable {b b' : Builder} {ret : ValueType}

theorem Typed.typeOf {v : Value} {t : ValueType} (h : b.Typed v t) : b.typeOf v = t := by
  obtain ⟨n, rfl, -, ht⟩ := h
  exact ht

theorem Pointers.get (h : b.Pointers) {i : ℕ} (hi : i < 2) : b.params[i]? = some .ptr := by
  rcases Nat.le_one_iff_eq_zero_or_eq_one.mp (Nat.le_of_lt_succ hi) with rfl | rfl
  · exact h.1
  · exact h.2

/-- The type that is computed for a typed instruction is its own. -/
theorem instType_of_hasType (hp : b.Pointers) {i : Inst} {t : ValueType} (h : i.HasType b.Typed t) : b.instType i = t :=
  (h.mono fun _ _ => Typed.typeOf).resultType fun i hi => by rw [List.getD_eq_getElem?_getD, hp.get hi, Option.getD_some]

/-- So it makes a node that is in order. -/
theorem nodeOk_of_hasType (hp : b.Pointers) {i : Inst} {t : ValueType} (h : i.HasType b.Typed t) (k : Option Block) :
    b.NodeOk ⟨i, t, k⟩ := by
  have typed := h
  cases h with
  | param i hi => exact hp.get hi
  | _ => exact typed

namespace WellTyped

/-- A graph that grew by nodes that are in order, where no terminator was added. -/
theorem grow (h : b.WellTyped ret) (hb : b.Extends b') (hold : ∀ n < b.nextValue, b'.NodeOk (b'.node n))
    (hnew : ∀ n < b'.nextValue, b.nextValue ≤ n → b'.NodeOk (b'.node n)) (ht : ∀ k t, .term t ∈ b'.items k → .term t ∈ b.items k) :
    b'.WellTyped ret where
  nodes n hn := (lt_or_ge n b.nextValue).elim (hold n) (hnew n hn)
  terms k t hmem := (h.terms k t (ht k t hmem)).mono fun _ _ => hb.typed

theorem build (h : b.WellTyped ret) {i : Inst} (hi : b.NodeOk ⟨i, b.instType i, b.cur⟩) : (b.build i).WellTyped ret := by
  refine h.grow (extends_build b i) (fun n hn => ?_) (fun n hn hge => ?_) fun k t hmem => ?_
  · have same : (b.build i).node n = b.node n := by simp [Function.update_of_ne (Nat.ne_of_lt hn)]
    exact same ▸ (extends_build b i).nodeOk (h.nodes n hn)
  · obtain rfl : n = b.nextValue := by
      rw [build_nextValue] at hn
      omega
    rw [build_node, Function.update_self]
    exact (extends_build b i).nodeOk hi
  · rw [build_items] at hmem
    split_ifs at hmem
    · simpa using hmem
    · exact hmem

theorem terminate (h : b.WellTyped ret) {t : Term} (ht : t.WellTyped b.Typed ret) : (b.terminate t).WellTyped ret where
  nodes n hn := by
    rw [terminate_node]
    exact (extends_terminate b t).nodeOk (h.nodes n (by simpa using hn))
  terms k t' hmem := by
    refine Term.WellTyped.mono ?_ fun _ _ => (extends_terminate b t).typed
    rw [terminate_items] at hmem
    split_ifs at hmem
    · rcases List.mem_append.mp hmem with hmem | hmem
      · exact h.terms k t' hmem
      · obtain rfl : t' = t := by simpa using hmem
        exact ht
    · exact h.terms k t' hmem

theorem createBlock (h : b.WellTyped ret) : b.createBlock.WellTyped ret :=
  h.grow (extends_createBlock b) (fun n hn => (extends_createBlock b).nodeOk (h.nodes n hn))
    (fun _ hn hge => absurd hn (not_lt.mpr hge)) fun _ _ => id

theorem setBlock (h : b.WellTyped ret) (k : Block) : (b.setBlock k).WellTyped ret :=
  h.grow (extends_setBlock b k) (fun n hn => (extends_setBlock b k).nodeOk (h.nodes n hn))
    (fun _ hn hge => absurd hn (not_lt.mpr hge)) fun _ _ => id

/-- Where the builder stands has nothing to do with it. -/
theorem withCur (h : b.WellTyped ret) (cur : Option Block) : ({ b with cur } : Builder).WellTyped ret :=
  have grows : b.Extends { b with cur } := ⟨rfl, rfl, le_rfl, le_rfl, fun _ _ => .refl _, fun _ => List.prefix_rfl, List.prefix_rfl⟩
  h.grow grows (fun n hn => grows.nodeOk (h.nodes n hn)) (fun _ hn hge => absurd hn (not_lt.mpr hge)) fun _ _ => id

theorem addPhiInput (h : b.WellTyped ret) {p : ℕ} {v : Value} {t : ValueType} {inputs : List Value} (hp : (b.node p).inst = .phi t inputs)
    (hv : b.Typed v t) : (b.addPhiInput p v).WellTyped ret := by
  refine h.grow (extends_addPhiInput b p v) (fun n hn => ?_) (fun n hn hge => absurd hn (not_lt.mpr hge)) fun _ _ => id
  refine (extends_addPhiInput b p v).nodeOk ?_
  by_cases hnp : n = p
  · subst hnp
    have here : (b.addPhiInput n v).node n = { b.node n with inst := .phi t (inputs ++ [v]) } := by simp [Builder.addPhiInput, hp]
    have old := h.nodes n hn
    rw [NodeOk, hp] at old
    rw [here]
    refine ⟨old.1, old.2.1, fun w hw => ?_⟩
    rcases List.mem_append.mp hw with hw | hw
    · exact old.2.2 w hw
    · exact List.mem_singleton.mp hw ▸ hv
  · have other : (b.addPhiInput p v).node n = b.node n := by simp [Builder.addPhiInput, Function.update_of_ne hnp]
    exact other ▸ h.nodes n hn

end WellTyped

end Builder

end SpidirWasm.Spidir
