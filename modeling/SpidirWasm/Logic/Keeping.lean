import SpidirWasm.Logic.Checked
import SpidirWasm.Logic.Ending
import SpidirWasm.Logic.Path

/-! Programs that keep their state when they fail, as C code does when it jumps
to its cleanup, and that record every state they pass through. A property of
states that every write keeps holds at every point of a run, failed or not, up
to where it does something undefined. -/

namespace SpidirWasm

/-- A state transformer: how it ends, its last state, and the states after each write. -/
def Keeping (σ α : Type) := σ → Ending α × σ × List σ

namespace Keeping

variable {σ τ α β : Type}

instance : Monad (Keeping σ) where
  pure a := fun s => (.ok a, s, [])
  bind x f := fun s =>
    match x s with
    | (.ok a, t, seen) => ((f a t).1, (f a t).2.1, seen ++ (f a t).2.2)
    | (.failed, t, seen) => (.failed, t, seen)
    | (.undefined, t, seen) => (.undefined, t, seen)

def check (p : Prop) [Decidable p] : Keeping σ Unit := fun s => (if p then .ok () else .failed, s, [])

/-- Undefined where `p` holds. -/
def forbid (p : Prop) [Decidable p] : Keeping σ Unit := fun s => (if p then .undefined else .ok (), s, [])

def fail : Keeping σ α := fun s => (.failed, s, [])

def read (f : σ → α) : Keeping σ α := fun s => (.ok (f s), s, [])

def lift (o : Option α) : Keeping σ α := fun s => (.ofOption o, s, [])

def update (f : σ → σ) : Keeping σ Unit := fun s => (.ok (), f s, [f s])

/-- Run a program on one component of the state. -/
def zoom (get : σ → τ) (put : τ → σ → σ) (m : Keeping τ α) : Keeping σ α := fun s =>
  ((m (get s)).1, put (m (get s)).2.1 s, (m (get s)).2.2.map (put · s))

/-- Run a program that leaves no state behind its failures on one component, which stays as it was then. -/
def within (get : σ → τ) (put : τ → σ → σ) (m : Checked τ α) : Keeping σ α := fun s =>
  match m (get s) with
  | some (a, t) => (.ok a, put t s, [put t s])
  | none => (.failed, s, [])

/-- `f i`, ..., `f (i + n - 1)` in order, with an `int` for the counter, which must not pass `2 ^ 31 - 1`. -/
def forInt (f : ℕ → Keeping σ Unit) : ℕ → ℕ → Keeping σ Unit
  | _, 0 => pure ()
  | i, n + 1 => do
    f i
    forbid (2 ^ 31 ≤ i + 1)
    forInt f (i + 1) n

/-- What `n` runs return, counted by an `int` from `i` on. -/
def collectInt (m : Keeping σ α) : ℕ → ℕ → Keeping σ (List α)
  | _, 0 => pure []
  | i, n + 1 => do
    let a ← m
    forbid (2 ^ 31 ≤ i + 1)
    let as ← collectInt m (i + 1) n
    return a :: as

/-- The last state of a run. -/
def final (m : Keeping σ α) (s : σ) : σ := (m s).2.1

/-- The states a run writes. -/
def points (m : Keeping σ α) (s : σ) : List σ := (m s).2.2

theorem bind_apply (x : Keeping σ α) (f : α → Keeping σ β) (s : σ) :
    (x >>= f) s = match x s with
      | (.ok a, t, seen) => ((f a t).1, (f a t).2.1, seen ++ (f a t).2.2)
      | (.failed, t, seen) => (.failed, t, seen)
      | (.undefined, t, seen) => (.undefined, t, seen) := rfl

theorem bind_ok {x : Keeping σ α} {s t : σ} {a : α} {seen : List σ} (h : x s = (.ok a, t, seen))
    (f : α → Keeping σ β) : (x >>= f) s = ((f a t).1, (f a t).2.1, seen ++ (f a t).2.2) := by
  rw [bind_apply, h]

theorem bind_failed {x : Keeping σ α} {s t : σ} {seen : List σ} (h : x s = (.failed, t, seen))
    (f : α → Keeping σ β) : (x >>= f) s = (.failed, t, seen) := by
  rw [bind_apply, h]

theorem bind_undefined {x : Keeping σ α} {s t : σ} {seen : List σ} (h : x s = (.undefined, t, seen))
    (f : α → Keeping σ β) : (x >>= f) s = (.undefined, t, seen) := by
  rw [bind_apply, h]

@[simp] theorem check_bind (p : Prop) [Decidable p] (f : Unit → Keeping σ β) (s : σ) :
    (check p >>= f) s = if p then f () s else (.failed, s, []) := by
  by_cases h : p <;> simp [bind_apply, check, h]

@[simp] theorem update_bind (g : σ → σ) (f : Unit → Keeping σ β) (s : σ) :
    (update g >>= f) s = ((f () (g s)).1, (f () (g s)).2.1, g s :: (f () (g s)).2.2) := rfl

@[simp] theorem read_bind (g : σ → α) (f : α → Keeping σ β) (s : σ) : (read g >>= f) s = f (g s) s := rfl

@[simp] theorem lift_some_bind (a : α) (f : α → Keeping σ β) (s : σ) :
    ((lift (some a) : Keeping σ α) >>= f) s = f a s := rfl

@[simp] theorem lift_none_bind (f : α → Keeping σ β) (s : σ) :
    ((lift none : Keeping σ α) >>= f) s = (.failed, s, []) := rfl

/-- `m` takes states with `P` to states with `P`, at every point. -/
def Preserves (P : σ → Prop) (m : Keeping σ α) : Prop :=
  ∀ s, P s → P (m.final s) ∧ ∀ t ∈ m.points s, P t

namespace Preserves

variable {P : σ → Prop}

theorem pure (a : α) : Preserves P (Pure.pure a : Keeping σ α) := fun _ h => ⟨h, by simp [points, Pure.pure]⟩

theorem check (p : Prop) [Decidable p] : Preserves P (Keeping.check p) :=
  fun _ h => ⟨h, by simp [points, Keeping.check]⟩

theorem forbid (p : Prop) [Decidable p] : Preserves P (Keeping.forbid p) :=
  fun _ h => ⟨h, by simp [points, Keeping.forbid]⟩

theorem fail : Preserves P (Keeping.fail : Keeping σ α) := fun _ h => ⟨h, by simp [points, Keeping.fail]⟩

theorem read (f : σ → α) : Preserves P (Keeping.read f) := fun _ h => ⟨h, by simp [points, Keeping.read]⟩

theorem lift (o : Option α) : Preserves P (Keeping.lift o : Keeping σ α) :=
  fun _ h => ⟨h, by simp [points, Keeping.lift]⟩

theorem update {f : σ → σ} (h : ∀ s, P s → P (f s)) : Preserves P (Keeping.update f) :=
  fun s hs => ⟨h s hs, by simpa [points, Keeping.update] using h s hs⟩

theorem bind {x : Keeping σ α} {f : α → Keeping σ β} (hx : Preserves P x)
    (hf : ∀ a, Preserves P (f a)) : Preserves P (x >>= f) := by
  intro s hs
  have h := hx s hs
  simp only [final, points, bind_apply] at h ⊢
  rcases hm : x s with ⟨a | _ | _, t, seen⟩
  · rw [hm] at h
    have h' := hf a t h.1
    refine ⟨h'.1, fun u hu => ?_⟩
    rcases List.mem_append.mp hu with hu | hu
    · exact h.2 u hu
    · exact h'.2 u hu
  · rw [hm] at h; exact h
  · rw [hm] at h; exact h

theorem ite {p : Prop} [Decidable p] {x y : Keeping σ α} (hx : Preserves P x)
    (hy : Preserves P y) : Preserves P (if p then x else y) := by
  split_ifs
  · exact hx
  · exact hy

theorem forInt {f : ℕ → Keeping σ Unit} (h : ∀ i, Preserves P (f i)) (i n : ℕ) :
    Preserves P (Keeping.forInt f i n) := by
  induction n generalizing i with
  | zero => exact pure ()
  | succ n ih => exact bind (h i) fun _ => bind (forbid _) fun _ => ih (i + 1)

theorem collectInt {m : Keeping σ α} (h : Preserves P m) (i n : ℕ) : Preserves P (Keeping.collectInt m i n) := by
  induction n generalizing i with
  | zero => exact pure []
  | succ n ih => exact bind h fun _ => bind (forbid _) fun _ => bind (ih (i + 1)) fun _ => pure _

end Preserves

/-! ### Successful runs -/

/-- The result and the last state of a run that neither fails nor does something undefined. -/
def run (m : Keeping σ α) (s : σ) : Option (α × σ) := (m s).1.result.map fun a => (a, (m s).2.1)

theorem run_eq_some {m : Keeping σ α} {s t : σ} {a : α} : m.run s = some (a, t) ↔ ∃ seen, m s = (.ok a, t, seen) := by
  rcases hm : m s with ⟨b | _ | _, u, seen⟩ <;> simp [run, hm, Ending.result]

@[simp] theorem run_pure (a : α) (s : σ) : (pure a : Keeping σ α).run s = some (a, s) := rfl

@[simp] theorem run_bind (x : Keeping σ α) (f : α → Keeping σ β) (s : σ) :
    (x >>= f).run s = (x.run s).bind fun r => (f r.1).run r.2 := by
  rcases h : x s with ⟨a | _ | _, t, seen⟩ <;> simp [run, bind_apply, h, Ending.result]

@[simp] theorem run_check (p : Prop) [Decidable p] (s : σ) : (check p).run s = if p then some ((), s) else none := by
  by_cases h : p <;> simp [run, check, h, Ending.result]

@[simp] theorem run_forbid (p : Prop) [Decidable p] (s : σ) : (forbid p).run s = if p then none else some ((), s) := by
  by_cases h : p <;> simp [run, forbid, h, Ending.result]

@[simp] theorem run_fail (s : σ) : (fail : Keeping σ α).run s = none := rfl

@[simp] theorem run_read (f : σ → α) (s : σ) : (read f).run s = some (f s, s) := rfl

@[simp] theorem run_lift (o : Option α) (s : σ) : (lift o : Keeping σ α).run s = o.map fun a => (a, s) := by
  rw [run, lift, Ending.result_ofOption]

@[simp] theorem run_update (f : σ → σ) (s : σ) : (update f).run s = some ((), f s) := rfl

@[simp] theorem run_zoom (get : σ → τ) (put : τ → σ → σ) (m : Keeping τ α) (s : σ) :
    (zoom get put m).run s = (m.run (get s)).map fun r => (r.1, put r.2 s) := by
  simp [run, zoom, Function.comp_def]

theorem run_ite {p : Prop} [Decidable p] (x y : Keeping σ α) (s : σ) :
    (if p then x else y).run s = if p then x.run s else y.run s := by
  split_ifs <;> rfl

/-- What is collected comes from one run behind the other. -/
theorem run_collectInt {m : Keeping σ α} {i n : ℕ} {s t : σ} {as : List α} : (collectInt m i n).run s = some (as, t) ↔
    as.length = n ∧ (n = 0 ∨ i + n < 2 ^ 31) ∧ Path (fun a s t => m.run s = some (a, t)) as s t := by
  induction n generalizing i s as with
  | zero =>
    rw [collectInt, run_pure, Option.some.injEq, Prod.mk.injEq]
    constructor
    · rintro ⟨rfl, rfl⟩
      exact ⟨rfl, .inl rfl, rfl⟩
    · rintro ⟨hlen, -, hpath⟩
      obtain rfl := List.length_eq_zero_iff.mp hlen
      exact ⟨rfl, hpath.symm⟩
  | succ n ih =>
    simp only [collectInt, run_bind, run_forbid, run_pure, Option.bind_eq_some_iff, Prod.exists]
    constructor
    · rintro ⟨a, u, ha, _, v, hforbid, as', w, hrest, he⟩
      split_ifs at hforbid with hi
      obtain ⟨-, rfl⟩ := Prod.mk.inj (Option.some.inj hforbid)
      obtain ⟨rfl, rfl⟩ := Prod.mk.inj (Option.some.inj he)
      obtain ⟨rfl, hbound, hpath⟩ := ih.mp hrest
      exact ⟨rfl, .inr (by omega), u, ha, hpath⟩
    · rintro ⟨hlen, hbound, hpath⟩
      obtain ⟨a, as, rfl⟩ := List.exists_cons_of_length_eq_add_one hlen
      obtain ⟨u, ha, hpath⟩ := hpath
      have hi : ¬2 ^ 31 ≤ i + 1 := by omega
      exact ⟨a, u, ha, (), u, if_neg hi, as, t, ih.mpr ⟨Nat.succ.inj hlen, by omega, hpath⟩, rfl⟩

/-! ### Programs that do not see a change -/

/-- `m` runs the same behind the change `act` of the state, which stays in place. -/
def Commutes (act : σ → σ) (m : Keeping σ α) : Prop := ∀ s, m.run (act s) = (m.run s).map fun r => (r.1, act r.2)

namespace Commutes

variable {act : σ → σ}

theorem pure (a : α) : Commutes act (Pure.pure a) := fun _ => rfl

theorem fail : Commutes act (Keeping.fail : Keeping σ α) := fun _ => rfl

theorem check (p : Prop) [Decidable p] : Commutes act (Keeping.check p) := by
  intro s
  rw [run_check, run_check]
  split_ifs <;> rfl

theorem forbid (p : Prop) [Decidable p] : Commutes act (Keeping.forbid p) := by
  intro s
  rw [run_forbid, run_forbid]
  split_ifs <;> rfl

theorem lift (o : Option α) : Commutes act (Keeping.lift o) := by
  intro s
  cases o <;> rfl

theorem update {f : σ → σ} (h : ∀ s, f (act s) = act (f s)) : Commutes act (Keeping.update f) := by
  intro s
  rw [run_update, run_update, h, Option.map_some]

theorem bind {x : Keeping σ α} {f : α → Keeping σ β} (hx : Commutes act x) (hf : ∀ a, Commutes act (f a)) : Commutes act (x >>= f) := by
  intro s
  rw [run_bind, run_bind, hx s]
  rcases x.run s with _ | ⟨a, t⟩
  · rfl
  · exact hf a t

/-- A value that is read may differ, as long as what is done with it does not. -/
theorem readThen {g : σ → α} {f : α → Keeping σ β} (h : ∀ s, f (g (act s)) = f (g s)) (hf : ∀ a, Commutes act (f a)) :
    Commutes act (Keeping.read g >>= f) := by
  intro s
  rw [run_bind, run_bind, run_read, run_read, Option.bind_some, Option.bind_some, h]
  exact hf _ s

theorem ite {p : Prop} [Decidable p] {x y : Keeping σ α} (hx : Commutes act x) (hy : Commutes act y) :
    Commutes act (if p then x else y) := by
  split_ifs
  · exact hx
  · exact hy

theorem forInt {f : ℕ → Keeping σ Unit} (h : ∀ i, Commutes act (f i)) (i n : ℕ) : Commutes act (Keeping.forInt f i n) := by
  induction n generalizing i with
  | zero => exact pure ()
  | succ n ih => exact bind (h i) fun _ => bind (forbid _) fun _ => ih (i + 1)

theorem collectInt {m : Keeping σ α} (h : Commutes act m) (i n : ℕ) : Commutes act (Keeping.collectInt m i n) := by
  induction n generalizing i with
  | zero => exact pure []
  | succ n ih => exact bind h fun _ => bind (forbid _) fun _ => bind (ih (i + 1)) fun _ => pure _

end Commutes

/-! ### Triples -/

/-- Every successful run of `m` from a state with `P` ends with `Q`. -/
def Ensures (P : σ → Prop) (m : Keeping σ α) (Q : α → σ → Prop) : Prop :=
  ∀ s a t seen, P s → m s = (.ok a, t, seen) → Q a t

namespace Ensures

variable {P P' : σ → Prop} {Q Q' : α → σ → Prop} {R : β → σ → Prop}

theorem weaken {m : Keeping σ α} (h : Ensures P m Q) (hP : ∀ s, P' s → P s) (hQ : ∀ a s, Q a s → Q' a s) :
    Ensures P' m Q' := fun s a t seen hs hm => hQ a t (h s a t seen (hP s hs) hm)

theorem bind {x : Keeping σ α} {f : α → Keeping σ β} (hx : Ensures P x Q) (hf : ∀ a, Ensures (Q a) (f a) R) :
    Ensures P (x >>= f) R := by
  intro s b t seen hs h
  rw [bind_apply] at h
  rcases hm : x s with ⟨a | _ | _, u, seen'⟩ <;> rw [hm] at h
  · simp only [Prod.mk.injEq] at h
    exact hf a u b t _ (hx s a u seen' hs hm) (Prod.ext h.1 (Prod.ext h.2.1 rfl))
  · simp at h
  · simp at h

theorem pure (a : α) (h : ∀ s, P s → Q a s) : Ensures P (Pure.pure a : Keeping σ α) Q := by
  intro s b t seen hs hm
  simp only [Pure.pure, Prod.mk.injEq, Ending.ok.injEq] at hm
  obtain ⟨rfl, rfl, -⟩ := hm
  exact h s hs

theorem fail : Ensures P (Keeping.fail : Keeping σ α) Q := by
  intro s b t seen hs hm
  simp [Keeping.fail] at hm

theorem check (p : Prop) [Decidable p] : Ensures P (Keeping.check p) fun _ s => P s ∧ p := by
  intro s b t seen hs hm
  by_cases hp : p
  · simp only [Keeping.check, if_pos hp, Prod.mk.injEq] at hm
    exact ⟨hm.2.1 ▸ hs, hp⟩
  · simp [Keeping.check, hp] at hm

theorem forbid (p : Prop) [Decidable p] : Ensures P (Keeping.forbid p) fun _ s => P s ∧ ¬p := by
  intro s b t seen hs hm
  by_cases hp : p
  · simp [Keeping.forbid, hp] at hm
  · simp only [Keeping.forbid, if_neg hp, Prod.mk.injEq] at hm
    exact ⟨hm.2.1 ▸ hs, hp⟩

theorem read (f : σ → α) : Ensures P (Keeping.read f) fun a s => P s ∧ a = f s := by
  intro s b t seen hs hm
  simp only [Keeping.read, Prod.mk.injEq, Ending.ok.injEq] at hm
  obtain ⟨rfl, rfl, -⟩ := hm
  exact ⟨hs, rfl⟩

theorem lift (o : Option α) : Ensures P (Keeping.lift o : Keeping σ α) fun a s => P s ∧ o = some a := by
  intro s b t seen hs hm
  simp only [Keeping.lift, Prod.mk.injEq] at hm
  refine ⟨hm.2.1 ▸ hs, ?_⟩
  rw [← Ending.result_ofOption o, hm.1]
  rfl

theorem update {f : σ → σ} {Q : σ → Prop} (h : ∀ s, P s → Q (f s)) : Ensures P (Keeping.update f) fun _ => Q := by
  intro s b t seen hs hm
  simp only [Keeping.update, Prod.mk.injEq] at hm
  exact hm.2.1 ▸ h s hs

theorem ite {p : Prop} [Decidable p] {x y : Keeping σ α} (hx : p → Ensures P x Q) (hy : ¬p → Ensures P y Q) :
    Ensures P (if p then x else y) Q := by
  split_ifs with hp
  · exact hx hp
  · exact hy hp

theorem zoom {get : σ → τ} {put : τ → σ → σ} {m : Keeping τ α} {R : τ → Prop} {R' : α → τ → Prop} (hm : Ensures R m R')
    (hget : ∀ s, P s → R (get s)) (hput : ∀ s a t, P s → R' a t → Q a (put t s)) : Ensures P (Keeping.zoom get put m) Q := by
  intro s a t seen hs h
  simp only [Keeping.zoom, Prod.mk.injEq] at h
  obtain ⟨ha, rfl, -⟩ := h
  exact hput s a _ hs (hm _ a _ _ (hget s hs) (Prod.ext ha rfl))

/-- A property that a turn passes from each index to the next. -/
theorem forInt {I : ℕ → σ → Prop} {f : ℕ → Keeping σ Unit} (h : ∀ i, Ensures (I i) (f i) fun _ => I (i + 1)) (i n : ℕ) :
    Ensures (I i) (Keeping.forInt f i n) fun _ => I (i + n) := by
  induction n generalizing i with
  | zero => exact pure () fun s hs => hs
  | succ n ih =>
    have counted : Ensures (I (i + 1)) (Keeping.forbid (2 ^ 31 ≤ i + 1)) fun _ => I (i + 1) :=
      (forbid _).weaken (fun _ h => h) fun _ _ hs => hs.1
    exact (bind (h i) fun _ => bind counted fun _ => ih (i + 1)).weaken (fun _ h => h) fun _ s hs => by rwa [Nat.add_right_comm] at hs

/-- What holds behind a run that succeeds. -/
theorem of_run {m : Keeping σ α} {s t : σ} {a : α} (h : Ensures P m Q) (hs : P s) (hrun : m.run s = some (a, t)) : Q a t := by
  obtain ⟨seen, hm⟩ := run_eq_some.mp hrun
  exact h s a t seen hs hm

/-- What every write keeps holds at the end. -/
theorem of_preserves {m : Keeping σ α} (h : Preserves P m) : Ensures P m fun _ => P := by
  intro s a t seen hs hm
  have := (h s hs).1
  rwa [final, hm] at this

/-- What a precondition says of all its states. -/
theorem assume {m : Keeping σ α} {p : Prop} (h : p → Ensures P m Q) : Ensures (fun s => P s ∧ p) m Q :=
  fun s a t seen hs hm => h hs.2 s a t seen hs.1 hm

/-- What every run returns, and leaves in place. -/
theorem collectInt {m : Keeping σ α} {p : α → Prop} (h : Ensures P m fun a s => P s ∧ p a) (i n : ℕ) :
    Ensures P (Keeping.collectInt m i n) fun as s => P s ∧ ∀ a ∈ as, p a := by
  induction n generalizing i with
  | zero => exact pure [] fun s hs => ⟨hs, fun _ h => absurd h List.not_mem_nil⟩
  | succ n ih =>
    refine bind h fun a => assume fun ha => ?_
    refine bind ((forbid _).weaken (fun _ h => h) fun _ _ hs => hs.1) fun _ => bind (ih (i + 1)) fun as => ?_
    exact pure _ fun s hs => ⟨hs.1, List.forall_mem_cons.mpr ⟨ha, hs.2⟩⟩

end Ensures

/-! ### Failures -/

/-- From `s` a success ends with `Q`, and a failure with `E`; nothing is undefined. -/
def Ends (m : Keeping σ α) (Q : α → σ → Prop) (E : σ → Prop) (s : σ) : Prop :=
  match (m s).1 with
  | .ok a => Q a (m.final s)
  | .failed => E (m.final s)
  | .undefined => False

section Ends

variable {ι : Type} {Q Q' : α → σ → Prop} {R : β → σ → Prop} {E E' : σ → Prop} {s : σ}

theorem Ends.bind {x : Keeping σ α} {f : α → Keeping σ β} (hx : Ends x Q E s) (hf : ∀ a t, Q a t → Ends (f a) R E t) :
    Ends (x >>= f) R E s := by
  simp only [Ends, final, bind_apply] at hx ⊢
  rcases hm : x s with ⟨a | _ | _, t, seen⟩
  · rw [hm] at hx
    exact hf a t hx
  · rw [hm] at hx
    exact hx
  · rw [hm] at hx
    exact hx

theorem ends_read_bind (g : σ → α) (f : α → Keeping σ β) : Ends (read g >>= f) R E s ↔ Ends (f (g s)) R E s := Iff.rfl

theorem ends_update_bind (g : σ → σ) (f : Unit → Keeping σ β) : Ends (update g >>= f) R E s ↔ Ends (f ()) R E (g s) := Iff.rfl

theorem ends_check_bind (p : Prop) [Decidable p] (f : Unit → Keeping σ β) :
    Ends (check p >>= f) R E s ↔ (p → Ends (f ()) R E s) ∧ (¬p → E s) := by
  simp only [Ends, final, check_bind]
  by_cases hp : p <;> simp [hp]

theorem ends_lift_bind (o : Option α) (f : α → Keeping σ β) :
    Ends (lift o >>= f) R E s ↔ (∀ a, o = some a → Ends (f a) R E s) ∧ (o = none → E s) := by
  cases o with
  | none => simp [Ends, final]
  | some a =>
    simp only [Ends, final, lift_some_bind]
    simp

/-- What a failure leaves alone. -/
theorem Ends.within {get : σ → τ} {put : τ → σ → σ} {m : Checked τ α} (h : ∀ a t, m (get s) = some (a, t) → Q a (put t s)) (he : E s) :
    Ends (within get put m) Q E s := by
  simp only [Ends, final, Keeping.within]
  cases hm : m (get s) with
  | none => exact he
  | some r => exact h r.1 r.2 hm

/-- A loop whose body keeps an invariant. -/
theorem Ends.forM {P : σ → Prop} {f : ι → Keeping σ Unit} (h : ∀ x t, P t → Ends (f x) (fun _ => P) E t) (l : List ι) (hs : P s) :
    Ends (l.forM f) (fun _ => P) E s := by
  induction l generalizing s with
  | nil => exact hs
  | cons x l ih => exact Ends.bind (h x s hs) fun _ _ ht => ih ht

end Ends

/-! ### Programs that keep no state -/

/-- On one component a program does what `k` does, as far as its successes go. -/
def Tracks (get : σ → τ) (m : Keeping σ α) (k : Checked τ α) : Prop := ∀ s, (m.run s).map (fun r => (r.1, get r.2)) = k (get s)

namespace Tracks

variable {ι : Type} {get : σ → τ}

theorem pure (a : α) : Tracks get (Pure.pure a) (Pure.pure a) := fun _ => rfl

theorem fail : Tracks get (Keeping.fail : Keeping σ α) Checked.fail := fun _ => rfl

theorem lift (o : Option α) : Tracks get (Keeping.lift o) (Checked.lift o) := by
  intro s
  cases o <;> rfl

theorem check (p : Prop) [Decidable p] : Tracks get (Keeping.check p) (Checked.check p) := by
  intro s
  rw [run_check, Checked.check]
  split_ifs <;> rfl

theorem update {f : σ → σ} {g : τ → τ} (h : ∀ s, get (f s) = g (get s)) : Tracks get (Keeping.update f) (Checked.update g) :=
  fun s => congrArg (fun t => some ((), t)) (h s)

theorem within {put : τ → σ → σ} (h : ∀ t s, get (put t s) = t) (k : Checked τ α) : Tracks get (Keeping.within get put k) k := by
  intro s
  rw [run, Keeping.within]
  cases hk : k (get s) with
  | none => rfl
  | some r => exact congrArg (fun t => some (r.1, t)) (h r.2 s)

theorem bind {x : Keeping σ α} {f : α → Keeping σ β} {y : Checked τ α} {g : α → Checked τ β} (hx : Tracks get x y)
    (hf : ∀ a, Tracks get (f a) (g a)) : Tracks get (x >>= f) (y >>= g) := by
  intro s
  rw [run_bind, Checked.bind_apply, ← hx s]
  cases x.run s with
  | none => rfl
  | some r => exact hf r.1 r.2

/-- What is read of the component. -/
theorem read {g : τ → α} {f : α → Keeping σ β} {k : α → Checked τ β} (hf : ∀ a, Tracks get (f a) (k a)) :
    Tracks get (Keeping.read (fun s => g (get s)) >>= f) (Checked.read g >>= k) := fun s => hf (g (get s)) s

theorem forM {f : ι → Keeping σ Unit} {g : ι → Checked τ Unit} (h : ∀ x, Tracks get (f x) (g x)) (l : List ι) :
    Tracks get (l.forM f) (l.forM g) := by
  induction l with
  | nil => exact pure ()
  | cons x l ih => exact bind (h x) fun _ => ih

theorem ite {p : Prop} [Decidable p] {x y : Keeping σ α} {x' y' : Checked τ α} (hx : Tracks get x x') (hy : Tracks get y y') :
    Tracks get (if p then x else y) (if p then x' else y') := by
  split_ifs
  · exact hx
  · exact hy

end Tracks

end Keeping

end SpidirWasm
