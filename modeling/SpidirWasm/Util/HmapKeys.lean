import SpidirWasm.Util.HmapRuns

/-! How many keys fit. A table that only inserts have made grows when four fifths of its
slots are taken, up to the maximum order; so an insert succeeds as long as the keys are no
more than that, and no such table has more. -/

namespace SpidirWasm.Util.Hmap

/-- The most keys that inserts bring into one table: four fifths of 2^25 slots, rounded up. -/
def maxKeys : ℕ := 26843546

/-- A table that only inserts have made. -/
structure Grown (t : Hmap) : Prop extends Ok t where
  null : t.slots = none → t.capOrder = 0
  size_le : t.size ≤ maxKeys

variable {t t' : Hmap} {key value : ℕ} {allocated : Bool}

theorem empty_grown : Grown {} := ⟨empty_ok, fun _ => rfl, Nat.zero_le _⟩

/-- With less than the most keys, a table that has to grow is not of the maximum order. -/
theorem Grown.below (h : t.Grown) (hsize : t.size < maxKeys) (hgrow : t.shouldGrow) : t.capOrder < 25 := by
  cases hs : t.slots with
  | none =>
    rw [h.null hs]
    decide
  | some slots =>
    by_contra horder
    have order : t.capOrder = 25 := le_antisymm (h.order (by rw [hs]; rfl)).2 (not_lt.mp horder)
    have load : t.capacity * 4 ≤ t.size * 5 := by simpa [shouldGrow, hs] using hgrow
    rw [capacity, order] at load
    rw [maxKeys] at hsize
    omega

/-- A table that is asked to grow has room for a key behind it, below the most keys. -/
theorem grow_lt (h : t.Grown) (hg : t.grow allocated = some t') : t'.Ok ∧ t'.size = t.size ∧ t'.slots.isSome ∧ t.size < maxKeys := by
  rw [grow] at hg
  split_ifs at hg with hgrow
  · have hrehash := hg
    simp only [rehash, Option.bind_eq_bind, Option.bind_eq_some_iff, Option.guard_eq_some'] at hg
    obtain ⟨-, ⟨horder, hallocated⟩, -⟩ := hg
    subst hallocated
    have room : t.used ≤ 2 ^ max (t.capOrder + 1) 3 := (used_le h.toWf).trans (Nat.pow_le_pow_right (by decide) (by omega))
    obtain ⟨u, hu, ok, -, count, -, slotted⟩ := rehash_ok h.toOk (by omega) room
    obtain rfl := Option.some.inj (hrehash.symm.trans hu)
    refine ⟨ok, by rw [ok.size, count, h.size], slotted, ?_⟩
    have small : t.capacity ≤ 2 ^ 24 := Nat.pow_le_pow_right (by decide) (by omega)
    have load := used_le h.toWf
    rw [h.size, maxKeys]
    omega
  · obtain rfl := Option.some.inj hg
    obtain ⟨hnull, hload⟩ : ¬t.slots = none ∧ t.size * 5 < t.capacity * 4 := by simpa [shouldGrow] using hgrow
    have slotted : t.slots.isSome := Option.isSome_iff_ne_none.mpr hnull
    have cap : t.capacity ≤ 2 ^ 25 := Nat.pow_le_pow_right (by decide) (h.order slotted).2
    refine ⟨h.toOk, rfl, slotted, ?_⟩
    rw [maxKeys]
    omega

/-- A key that is there is only given its value. -/
theorem insert_present (h : t.Wf) (hkey : t.lookup key ≠ none) : ∃ j s, t.Holds j key ∧ s.state = .used ∧
    t.insert allocated key value = some (t.setSlot j s) := by
  cases hfind : t.findSlot key false with
  | some j =>
    have hold := (findSlot_iff h).mp hfind
    exact ⟨j, { t.slot j with value }, hold, hold.1, by rw [insert, hfind]⟩
  | none =>
    rw [lookup, hfind] at hkey
    exact absurd rfl hkey

/-- Inserts keep the table. -/
theorem Grown.insert (h : t.Grown) (hi : t.insert allocated key value = some t') :
    t'.Grown ∧ ∀ k, t'.lookup k = if k = key then some value else t.lookup k := by
  obtain ⟨wf, found⟩ := insert_eq_some h.toWf hi
  refine ⟨?_, found⟩
  by_cases hkey : t.lookup key = none
  · rw [Hmap.insert] at hi
    cases hfind : t.findSlot key false with
    | some j =>
      rw [lookup, hfind] at hkey
      cases hkey
    | none =>
      simp only [hfind, Option.bind_eq_some_iff] at hi
      obtain ⟨u, hu, hi⟩ := hi
      obtain ⟨ok, same, slotted, room⟩ := grow_lt h hu
      obtain ⟨count, size, order, slotted'⟩ := insertNew_used ok.toWf hi
      refine ⟨⟨wf, by rw [size, count, ok.size], fun _ => order ▸ ok.order slotted⟩, fun hnull => ?_, by omega⟩
      rw [hnull] at slotted'
      cases slotted'
  · obtain ⟨j, s, hold, hused, he⟩ := @insert_present t key value allocated h.toWf hkey
    obtain rfl := Option.some.inj (hi.symm.trans he)
    have slotted : t.slots.isSome := by
      by_contra hnull
      rw [Option.not_isSome_iff_eq_none] at hnull
      have free := hold.1
      simp [slot, hnull] at free
    have count := @used_setSlot t j s h.toWf (lt_of_holds h.toWf hold) slotted
    rw [if_pos hold.1, if_pos hused] at count
    refine ⟨⟨wf, h.size.trans (Nat.add_right_cancel count).symm, fun _ => h.order slotted⟩, fun hnull => ?_, h.size_le⟩
    simp only [setSlot, Option.map_eq_none_iff] at hnull
    rw [hnull] at slotted
    cases slotted

/-- All that is found are `keys`. -/
structure Within (keys : Finset ℕ) (t : Hmap) : Prop extends Grown t where
  mem : ∀ k, t.lookup k ≠ none → k ∈ keys

theorem empty_within (keys : Finset ℕ) : Within keys {} := ⟨empty_grown, fun _ hk => absurd rfl hk⟩

theorem Within.size_le_card {keys : Finset ℕ} (h : t.Within keys) : t.size ≤ keys.card := by
  obtain ⟨all, hall, hcard⟩ := h.behaves.size
  rw [← hcard]
  exact Finset.card_le_card fun k hk => h.mem k (Option.isSome_iff_ne_none.mp ((hall k).mp hk))

/-- One of the keys can be inserted when they all fit. -/
theorem Within.insert {keys : Finset ℕ} (h : t.Within keys) (hfit : keys.card ≤ maxKeys) (hkey : key ∈ keys) (value : ℕ) :
    ∃ t', t.insert true key value = some t' ∧ t'.Within keys ∧ ∀ k, t'.lookup k = if k = key then some value else t.lookup k := by
  have success : ∃ t', t.insert true key value = some t' := by
    by_cases hpresent : t.lookup key = none
    · have smaller : t.Within (keys.erase key) := ⟨h.toGrown, fun k hk => Finset.mem_erase.mpr ⟨by
        rintro rfl
        exact hk hpresent, h.mem k hk⟩⟩
      have card := Finset.card_erase_lt_of_mem hkey
      have room : t.size < maxKeys := smaller.size_le_card.trans_lt (card.trans_le hfit)
      obtain ⟨t', ht', -⟩ := @insert_ok t key value h.toOk fun _ => h.below room
      exact ⟨t', ht'⟩
    · obtain ⟨j, s, -, -, he⟩ := @insert_present t key value true h.toWf hpresent
      exact ⟨_, he⟩
  obtain ⟨t', ht'⟩ := success
  obtain ⟨grown, found⟩ := h.toGrown.insert ht'
  refine ⟨t', ht', ⟨grown, fun k hk => ?_⟩, found⟩
  rw [found] at hk
  split_ifs at hk with he
  · exact he ▸ hkey
  · exact h.mem k hk

end SpidirWasm.Util.Hmap
