import SpidirWasm.Spidir.Semantics

/-! Runs of a whole graph. Constants and parameters are there from the start. A block runs
its items in order, up to its terminator, which ends the run or takes an edge; behind an edge
the phis of the block take its inputs. -/

namespace SpidirWasm.Spidir

/-- Growing does not make an instruction float. -/
theorem Inst.Grows.isFloating {i j : Inst} (h : i.Grows j) : j.isFloating = i.isFloating := by
  cases h <;> rfl

/-- What surrounds a function that is called with arguments. -/
def World.inside (W : World) (args : List Word) (junk : ℕ → Word) : World := { W with junk, param := fun i => args.getD i 0 }

namespace Builder

variable (B : Builder) (W : World)

/-- What a constant or a parameter holds from the start. -/
def floating (n : ℕ) : Word :=
  match (B.node n).inst.compute W (fun _ => .none) (fun _ => 0) (B.node n).type with
  | .done (bits, x) => Word.fill bits x (W.junk n)
  | _ => 0

/-- Before the first item. -/
def start (s : Store) : Machine := { toStore := s, reg := fun n => if (B.node n).inst.isFloating then B.floating W n else 0 }

/-- The phis of a block take the inputs of the edge. -/
def enter (e : Edge) (σ : Machine) : Machine := { σ with
  reg := fun n => match (B.node n).inst with
    | .phi type inputs =>
      if (B.node n).block = some e.dst then
        Word.fill type.width (B.read σ (inputs.getD ((B.edgesInto e.dst).idxOf e) none)) (W.junk n)
      else σ.reg n
    | _ => σ.reg n }

/-- The items of a block, from one of them on; `go` is what happens behind an edge. -/
def runItems (go : Edge → Machine → Outcome Store (Word × Store)) (k : Block) : List Item → Machine → Outcome Store (Word × Store)
  | [], _ => .unknown
  | .inst n :: items, σ => (B.step W n σ).bind (runItems go k items)
  | .term (.branch d) :: _, σ => go ⟨k, true, d⟩ σ
  | .term (.brcond c t f) :: _, σ => if B.read σ c = 0 then go ⟨k, false, f⟩ σ else go ⟨k, true, t⟩ σ
  | .term (.ret v) :: _, σ => .done (B.read σ v, σ.toStore)
  | .term .unreachable :: _, _ => .unknown

/-- Behind an edge, for at most `fuel` blocks. -/
def runEdge : (fuel : ℕ) → Edge → Machine → Outcome Store (Word × Store)
  | 0, _, _ => .unknown
  | fuel + 1, e, σ => B.runItems W (runEdge fuel) e.dst (B.items e.dst) (B.enter W e σ)

/-- The result of a graph, and what it leaves of what is shared. -/
def run (fuel : ℕ) (s : Store) : Outcome Store (Word × Store) :=
  match B.entry with
  | none => .unknown
  | some k => B.runItems W (B.runEdge W fuel) k (B.items k) (B.start W s)

/-! ### Floating values -/

/-- The constants and the parameters hold what they should. -/
def Floats (σ : Machine) : Prop := ∀ n, (B.node n).inst.isFloating = true → σ.reg n = B.floating W n

variable {B W} {b b' : Builder} {σ τ : Machine} {n : ℕ} {k : Block} {e : Edge} {go : Edge → Machine → Outcome Store (Word × Store)}

theorem start_floats (s : Store) : B.Floats W (B.start W s) := fun _ hn => if_pos hn

/-- Entering a block changes its phis only. -/
theorem enter_reg (h : (B.node n).inst.isPhi = false ∨ (B.node n).block ≠ some e.dst) : (B.enter W e σ).reg n = σ.reg n := by
  simp only [enter]
  cases hi : (B.node n).inst with
  | phi type inputs =>
    rcases h with h | h
    · simp [hi, Inst.isPhi] at h
    · exact if_neg h
  | _ => rfl

theorem enter_floats (h : B.Floats W σ) (e : Edge) : B.Floats W (B.enter W e σ) := by
  intro n hn
  have still : (B.node n).inst.isPhi = false := by
    cases hi : (B.node n).inst.isPhi with
    | false => rfl
    | true => rw [Inst.isFloating_of_isPhi hi] at hn; cases hn
  rw [enter_reg (.inl still), h n hn]

theorem Floats.read_param {i : ℕ} (h : B.Floats W σ) (hn : (B.node n).inst = .param i) :
    B.read σ (some n) = Word.fill (B.node n).type.width (W.param i) 0 := by
  rw [read, h n (by rw [hn]; rfl), floating, hn]
  simp [Inst.compute]

theorem Floats.read_iconst {type : ValueType} {c : BitVec 64} (h : B.Floats W σ) (hn : (B.node n).inst = .iconst type c) :
    B.read σ (some n) = Word.fill (B.node n).type.width c 0 := by
  rw [read, h n (by rw [hn]; rfl), floating, hn]
  exact Word.fill_congr (Word.setWidth_fill _ c _) 0

/-- At the start a constant of a smaller graph is the value that it is. -/
theorem start_iconst {b : Builder} {type : ValueType} {c : BitVec 64} (s : Store)
    (hB : ((B.node n).inst, (B.node n).type) = (.iconst type c, type)) (hb : (b.node n).type = type) :
    (b.read (B.start W s) (some n)).setWidth type.width = c.setWidth type.width := by
  obtain ⟨hinst, htype⟩ := Prod.mk.inj hB
  have same : b.read (B.start W s) (some n) = B.read (B.start W s) (some n) := by rw [read, read, hb, htype]
  rw [same, (start_floats s).read_iconst hinst, htype]
  exact Word.setWidth_fill type.width c 0

/-- A value that was just computed. -/
theorem read_define {type : ValueType} (ht : (B.node n).type = type) (x : Word) :
    B.read (σ.define W n type.width x) (some n) = Word.fill type.width x 0 := by
  have written : (σ.define W n type.width x).reg n = Word.fill type.width x (W.junk n) := Function.update_self ..
  rw [read, ht, written]
  exact Word.fill_congr (Word.setWidth_fill _ x _) 0

theorem step_floating (hn : (B.node n).inst.isFloating = true) :
    B.step W n σ = .done { σ with reg := Function.update σ.reg n (B.floating W n) } := by
  unfold step floating
  cases hi : (B.node n).inst <;> simp only [hi, Inst.isFloating] at hn <;> first | rfl | cases hn

/-- What a step does keeps them. -/
theorem Floats.step (h : B.Floats W σ) (hs : B.step W n σ = .done τ) : B.Floats W τ := by
  intro m hm
  by_cases hmn : m = n
  · subst hmn
    rw [step_floating hm] at hs
    obtain rfl := Outcome.done.inj hs
    exact Function.update_self ..
  · rw [step_reg hs hmn, h m hm]

theorem Floats.exec {ns : List ℕ} (h : B.Floats W σ) (hs : B.exec W ns σ = .done τ) : B.Floats W τ := by
  induction ns generalizing σ with
  | nil => exact Outcome.done.inj hs ▸ h
  | cons n ns ih =>
    rw [Builder.exec] at hs
    rcases hn : B.step W n σ with υ | s | s | _ <;> rw [hn] at hs
    · exact ih (h.step hn) hs
    all_goals cases hs

/-! ### Straight-line code in its block -/

/-- The values of a stretch of a block are computed in their order, where the floating ones
do not count. -/
theorem runItems_exec (h : B.Floats W σ) (ns : List ℕ) (items : List Item) :
    B.runItems W go k ((ns.filter fun n => !(B.node n).inst.isFloating).map .inst ++ items) σ =
      (B.exec W ns σ).bind (B.runItems W go k items) := by
  induction ns generalizing σ with
  | nil => rfl
  | cons n ns ih =>
    rw [Builder.exec]
    cases hn : (B.node n).inst.isFloating with
    | true =>
      have same : B.step W n σ = .done σ := by
        rw [step_floating hn, ← h n hn, Function.update_eq_self]
      rw [List.filter_cons_of_neg (by simp [hn]), same, ih h]
      rfl
    | false =>
      rw [List.filter_cons_of_pos (by simp [hn]), List.map_cons, List.cons_append, runItems]
      rcases hs : B.step W n σ with υ | s | s | _
      · exact ih (h.step hs)
      all_goals rfl

/-- What was added to the current block runs there, in every larger graph. -/
theorem Appends.runItems (h : b.Appends b') (hB : b'.Extends B) (hcur : b.cur = some k) (hf : B.Floats W σ) :
    B.runItems W go k ((B.items k).drop (b.items k).length) σ =
      (B.exec W (b.since b') σ).bind (B.runItems W go k ((B.items k).drop (b'.items k).length)) := by
  obtain ⟨items, hitems⟩ := hB.items k
  have added : b'.items k = b.items k ++ ((b.since b').filter fun n => !(b'.node n).inst.isFloating).map .inst := by
    rw [h.items, if_pos hcur]
  have same : (b.since b').filter (fun n => !(b'.node n).inst.isFloating) = (b.since b').filter fun n => !(B.node n).inst.isFloating := by
    apply List.filter_congr
    intro n hn
    have bounds := List.mem_range'.mp hn
    rw [(hB.node n (by have := h.grows.nextValue; omega)).inst.isFloating]
  rw [← hitems, List.drop_left, added, List.append_assoc, List.drop_left, same]
  exact runItems_exec hf _ _

/-- The terminator behind it. -/
theorem runItems_term {t : Term} (h : b.items k ++ [.term t] <+: B.items k) :
    B.runItems W go k ((B.items k).drop (b.items k).length) σ = B.runItems W go k [.term t] σ := by
  obtain ⟨items, hitems⟩ := h
  rw [← hitems, List.append_assoc, List.drop_left]
  cases t <;> rfl

end Builder

end SpidirWasm.Spidir
