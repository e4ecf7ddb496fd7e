import SpidirWasm.Util.HmapRuns

/-! The hash table under a host whose allocations may fail. A rehash fills a second table
and swaps it in at the end, so a call that gives up has written nothing; and a delete that
could not shrink leaves a table with tombstones, which is a table like any other. -/

namespace SpidirWasm.Util.Hmap

/-- A call on `*table`, which leaves a table whether or not it returns an error. -/
abbrev Call := EStateM Unit Hmap Unit

/-- What checks all it needs before it writes. -/
def attempt (f : Hmap → Option Hmap) : Call := fun t =>
  match f t with
  | some t' => .ok () t'
  | none => .error () t

/-- `hmap_insert_new`. -/
def hmapInsertNew (key value : ℕ) : Call := attempt fun t => t.insertNew key value

/-- `hmap_rehash`. -/
def hmapRehash (allocated : Bool) (newCapOrder : ℕ) : Call := attempt fun t => t.rehash allocated newCapOrder

/-- `hmap_insert`. -/
def hmapInsert (allocated : Bool) (key value : ℕ) : Call := fun t =>
  match t.findSlot key false with
  | some j => .ok () (t.setSlot j { t.slot j with value })
  | none =>
    let insert : Call := do
      if t.shouldGrow then hmapRehash allocated (t.capOrder + 1)
      hmapInsertNew key value
    insert t

variable {t t' u : Hmap} {m : ℕ → Option ℕ} {key value : ℕ} {allocated : Bool} {f : Hmap → Option Hmap} {next : Call}

theorem attempt_bind_some (h : f t = some u) : (attempt f >>= fun _ => next) t = next u := by
  change EStateM.bind (attempt f) _ t = _
  rw [EStateM.bind, attempt, h]

theorem attempt_bind_none (h : f t = none) : (attempt f >>= fun _ => next) t = .error () t := by
  change EStateM.bind (attempt f) _ t = _
  rw [EStateM.bind, attempt, h]

/-! ### One insert -/

/-- A new key needs a larger table, and there is none. -/
def Refused (allocated : Bool) (t : Hmap) (key : ℕ) : Prop :=
  t.lookup key = none ∧ t.shouldGrow ∧ (allocated = false ∨ 25 ≤ t.capOrder)

theorem rehash_refused {order : ℕ} (h : allocated = false ∨ 25 < order) : t.rehash allocated order = none := by
  rw [Option.eq_none_iff_forall_ne_some]
  intro t' ht'
  obtain ⟨hallocated, horder⟩ := rehash_allocated ht'
  rcases h with h | h
  · exact absurd (h.symm.trans hallocated) Bool.false_ne_true
  · omega

/-- A refused insert returns before it writes. -/
theorem hmapInsert_refused (h : t.Refused allocated key) : hmapInsert allocated key value t = .error () t := by
  obtain ⟨habsent, hgrow, hrefused⟩ := h
  have missing : t.findSlot key false = none := by simpa [lookup] using habsent
  have refused : t.rehash allocated (t.capOrder + 1) = none := rehash_refused (hrefused.imp_right Nat.lt_succ_of_le)
  simp only [hmapInsert, missing, if_pos hgrow]
  exact attempt_bind_none refused

/-- An insert succeeds where it does with an allocation that does. -/
theorem hmapInsert_granted (hgranted : ¬t.Refused allocated key) (h : t.insert true key value = some t') :
    hmapInsert allocated key value t = .ok () t' := by
  rw [insert] at h
  rw [hmapInsert]
  cases hfind : t.findSlot key false with
  | some j =>
    simp only [hfind, Option.some.injEq] at h
    simp only [h]
  | none =>
    have habsent : t.lookup key = none := by rw [lookup, hfind, Option.map_none]
    simp only [hfind, Option.bind_eq_some_iff] at h
    obtain ⟨u, hu, h⟩ := h
    have last : hmapInsertNew key value u = .ok () t' := by rw [hmapInsertNew, attempt, h]
    rw [grow] at hu
    simp only
    split_ifs at hu ⊢ with hgrow
    · have hallocated : allocated = true := by
        by_contra hfalse
        exact hgranted ⟨habsent, hgrow, .inl (Bool.eq_false_of_not_eq_true hfalse)⟩
      rw [← last]
      exact attempt_bind_some (by rw [hallocated, hu])
    · rw [← Option.some.inj hu] at last
      exact last

/-- An insert is refused and leaves the table as it is, or it sets its key. -/
theorem hmapInsert_cases (allocated : Bool) (key value : ℕ) (h : t.Ok) :
    t.Refused allocated key ∧ hmapInsert allocated key value t = .error () t ∨
    ¬t.Refused allocated key ∧ ∃ t', hmapInsert allocated key value t = .ok () t' ∧ t'.Ok ∧
      ∀ k, t'.lookup k = if k = key then some value else t.lookup k := by
  by_cases hrefused : t.Refused allocated key
  · exact .inl ⟨hrefused, hmapInsert_refused hrefused⟩
  · have below : t.lookup key = none → t.shouldGrow → t.capOrder < 25 := by
      intro habsent hgrow
      by_contra hmax
      exact hrefused ⟨habsent, hgrow, .inr (Nat.le_of_not_lt hmax)⟩
    obtain ⟨t', ht', ok, found⟩ := insert_ok h below
    exact .inr ⟨hrefused, t', hmapInsert_granted hrefused ht', ok, found⟩

/-! ### Runs -/

/-- The tables that calls on an empty one lead to, whatever becomes of their allocations,
and the map that the successful inserts and the deletes make. -/
inductive Leads : (ℕ → Option ℕ) → Hmap → Prop
  | start : Leads (fun _ => none) {}
  | insert {m : ℕ → Option ℕ} {t t' : Hmap} {allocated : Bool} {key value : ℕ} (h : Leads m t)
      (hc : hmapInsert allocated key value t = .ok () t') : Leads (Function.update m key (some value)) t'
  | refused {m : ℕ → Option ℕ} {t t' : Hmap} {allocated : Bool} {key value : ℕ} (h : Leads m t)
      (hc : hmapInsert allocated key value t = .error () t') : Leads m t'
  | delete {m : ℕ → Option ℕ} {t : Hmap} {key : ℕ} (allocated : Bool) (h : Leads m t) :
      Leads (Function.update m key none) (t.delete allocated key)

/-- A table that stands for a map. -/
structure Represents (t : Hmap) (m : ℕ → Option ℕ) : Prop where
  ok : t.Ok
  behaves : t.Behaves m

theorem represents_iff : t.Represents m ↔ t.Ok ∧ t.lookup = m := by
  constructor
  · rintro ⟨ok, behaves⟩
    exact ⟨ok, funext behaves.lookup⟩
  · rintro ⟨ok, rfl⟩
    exact ⟨ok, ok.behaves⟩

theorem Represents.insert (h : t.Represents m) (hc : hmapInsert allocated key value t = .ok () t') :
    t'.Represents (Function.update m key (some value)) := by
  obtain ⟨ok, rfl⟩ := represents_iff.mp h
  rcases hmapInsert_cases allocated key value ok with ⟨-, herror⟩ | ⟨-, u, hu, ok', found⟩
  · rw [herror] at hc
    cases hc
  · rw [hu] at hc
    cases hc
    exact represents_iff.mpr ⟨ok', funext fun k => by rw [found, Function.update_apply]⟩

theorem Represents.refused (h : t.Represents m) (hc : hmapInsert allocated key value t = .error () t') :
    t' = t ∧ t.Refused allocated key := by
  rcases hmapInsert_cases allocated key value h.ok with ⟨hrefused, herror⟩ | ⟨-, u, hu, -⟩
  · rw [herror] at hc
    cases hc
    exact ⟨rfl, hrefused⟩
  · rw [hu] at hc
    cases hc

theorem Represents.delete (allocated : Bool) (h : t.Represents m) :
    (t.delete allocated key).Represents (Function.update m key none) := by
  obtain ⟨ok, rfl⟩ := represents_iff.mp h
  obtain ⟨ok', found⟩ := @delete_ok t key allocated ok
  exact represents_iff.mpr ⟨ok', funext fun k => by rw [found, Function.update_apply]⟩

theorem Leads.represents (h : Leads m t) : t.Represents m := by
  induction h with
  | start => exact represents_iff.mpr ⟨empty_ok, rfl⟩
  | insert _ hc ih => exact ih.insert hc
  | refused _ hc ih =>
    obtain ⟨rfl, -⟩ := ih.refused hc
    exact ih
  | delete allocated _ ih => exact ih.delete allocated

/-- Whatever allocations fail on the way, the table behaves as the map that the calls made, and
it goes on to: an insert returns an error exactly when its key is new and the larger table
it needs is not to be had, and leaves the table as it is; a delete takes out its key even
if the table cannot shrink. -/
theorem hmap_errors (h : Leads m t) : t.Represents m ∧
    (∀ allocated key value t', hmapInsert allocated key value t = .error () t' → t' = t) ∧
    (∀ allocated key value, (∃ t', hmapInsert allocated key value t = .error () t') ↔
      m key = none ∧ t.shouldGrow ∧ (allocated = false ∨ 25 ≤ t.capOrder)) ∧
    (∀ allocated key value t', hmapInsert allocated key value t = .ok () t' →
      t'.Represents (Function.update m key (some value))) ∧
    ∀ allocated key, (t.delete allocated key).Represents (Function.update m key none) := by
  have here := h.represents
  refine ⟨here, fun _ _ _ _ hc => (here.refused hc).1, fun allocated key value => ?_, fun _ _ _ _ hc => here.insert hc,
    fun allocated _ => here.delete allocated⟩
  rw [← here.behaves.lookup key]
  constructor
  · rintro ⟨t', ht'⟩
    exact (here.refused ht').2
  · intro hrefused
    exact ⟨t, hmapInsert_refused hrefused⟩

theorem hmap_errors_tombstone : ∃ t, Leads (Function.update (Function.update (fun _ => none) 5 (some 7)) 5 none) t ∧
    t.Represents (Function.update (Function.update (fun _ => none) 5 (some 7)) 5 none) := by
  have first : Leads (fun _ => none) _ := @Leads.refused _ {} _ false 5 6 .start rfl
  have second : Leads (Function.update (fun _ => none) 5 (some 7)) _ := @Leads.insert _ {} _ true 5 7 first rfl
  have third := @Leads.delete _ _ 5 false second
  exact ⟨_, third, (hmap_errors third).1⟩

end SpidirWasm.Util.Hmap
