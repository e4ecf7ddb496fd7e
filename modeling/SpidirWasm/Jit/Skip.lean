import SpidirWasm.Jit.Run

/-! The bytes a live handler reads are the bytes that skipping reads. The two decoders
share only the memory argument; every other immediate is pulled by one and stepped
over by the other. -/

namespace SpidirWasm.Jit

open Checked

variable {α : Type}

/-- Every run of `m` reads what `p` reads. -/
def Reads (m : Handler α) (p : Pull Unit) : Prop := ∀ s a t, m s = some (a, t) → p s.code = some ((), t.code)

/-- Where `m` pulls something, `p` steps over it. -/
def Covers (m : Pull α) (p : Pull Unit) : Prop := ∀ b a b', m b = some (a, b') → p b = some ((), b')

namespace Covers

theorem void (m : Pull α) : Covers m (do let _ ← m) := by
  intro b a b' h
  exact (bind_eq_some m _ b _).mpr ⟨a, b', h, rfl⟩

end Covers

namespace Reads

variable {p q : Pull Unit}

theorem emit (m : Emit α) : Reads (Jit.emit m) (pure ()) := by
  intro s a t h
  obtain ⟨_, _, -, hr⟩ := (emit_eq_some m s _).mp h
  obtain ⟨-, rfl⟩ := Prod.mk.inj hr
  rfl

theorem fail : Reads (Checked.fail : Handler α) p := fun s a t h => by simp at h

theorem ite {c : Prop} [Decidable c] {m m' : Handler α} (h : c → Reads m p) (h' : ¬c → Reads m' p) :
    Reads (if c then m else m') p := by
  split_ifs with hc
  · exact h hc
  · exact h' hc

/-- Reading the opcode back reads nothing. -/
theorem prev {f : UInt8 → Handler α} (hf : ∀ op, Reads (f op) p) : Reads (pull bufferPrev >>= f) p :=
  fun s a t h => hf s.code.prev s a t h

theorem pullThen {β : Type} {m : Pull β} {f : β → Handler α} (hm : Covers m p) (hf : ∀ b, Reads (f b) q) :
    Reads (pull m >>= f) (p >>= fun _ => q) := by
  intro s a t h
  obtain ⟨b, code, hb, h⟩ := (pull_bind_eq_some m f s _).mp h
  exact (bind_eq_some p _ _ _).mpr ⟨(), code, hm _ _ _ hb, hf b _ a t h⟩

/-- The same reader on both sides, which may go on as it has read. -/
theorem pullSame {β : Type} {m : Pull β} {f : β → Handler α} {g : β → Pull Unit} (hf : ∀ b, Reads (f b) (g b)) :
    Reads (pull m >>= f) (m >>= g) := by
  intro s a t h
  obtain ⟨b, code, hb, h⟩ := (pull_bind_eq_some m f s _).mp h
  exact (bind_eq_some m g _ _).mpr ⟨b, code, hb, hf b _ a t h⟩

theorem iteBoth {c : Prop} [Decidable c] {m m' : Handler α} (h : c → Reads m p) (h' : ¬c → Reads m' q) :
    Reads (if c then m else m') (if c then p else q) := by
  split_ifs with hc
  · exact h hc
  · exact h' hc

/-- One immediate, and nothing behind it. -/
theorem pullLast {β : Type} {m : Pull β} {f : β → Handler α} (hm : Covers m p) (hf : ∀ b, Reads (f b) (pure ())) :
    Reads (pull m >>= f) p := by
  intro s a t h
  obtain ⟨b, code, hb, h⟩ := (pull_bind_eq_some m f s _).mp h
  obtain ⟨-, hc⟩ := Prod.mk.inj ((pure_eq_some _ _ _).mp (hf b _ a t h))
  exact hc ▸ hm _ _ _ hb

end Reads

/-! ### Immediates -/

theorem lebLoop_skip {w limit result shift : ℕ} {bs rest : List UInt8} {out n : ℕ} {last : UInt8}
    (h : lebLoop w limit result shift bs = some (out, n, last, rest)) : skipLeb bs = some (last, rest) := by
  induction bs generalizing result shift with
  | nil => simp [lebLoop] at h
  | cons byte bs ih =>
    simp only [lebLoop] at h
    split_ifs at h with h₁ h₂
    · simpa [skipLeb, h₂] using ih h
    · simp only [Option.some.injEq, Prod.mk.injEq] at h
      obtain ⟨-, -, rfl, rfl⟩ := h
      rw [skipLeb, if_neg h₂]

theorem pullUnsigned_covers (w limit : ℕ) : Covers (pullUnsigned w limit) jitSkipLeb := by
  intro b a b' h
  obtain ⟨⟨out, n, last, rest⟩, hl, he⟩ := Option.map_eq_some_iff.mp h
  obtain ⟨-, rfl⟩ := Prod.mk.inj he
  simp [jitSkipLeb, lebLoop_skip hl]

theorem pullSigned_covers (w limit : ℕ) : Covers (pullSigned w limit) jitSkipLeb := by
  intro b a b' h
  obtain ⟨⟨out, n, last, rest⟩, hl, he⟩ := Option.map_eq_some_iff.mp h
  obtain ⟨-, rfl⟩ := Prod.mk.inj he
  simp [jitSkipLeb, lebLoop_skip hl]

theorem bufferPullU32_covers : Covers bufferPullU32 jitSkipLeb := pullUnsigned_covers 32 28

/-- A byte pulled as such is one byte stepped over. -/
theorem bufferPull_one {b b' : Buffer} {byte : UInt8} (h : bufferPullU8 b = some (byte, b')) :
    bufferPull 1 b = some ([byte], b') := by
  obtain ⟨hd, hp⟩ := (bufferPullU8_eq_some b _).mp h
  obtain ⟨prev, data⟩ := b
  obtain ⟨prev', data'⟩ := b'
  simp only at hd hp
  subst hd hp
  simp [bufferPull]

theorem pullMemidx_byte {b b' : Buffer} (h : pullMemidx b = some ((), b')) : ∃ byte, bufferPullU8 b = some (byte, b') := by
  simp only [pullMemidx, bind_eq_some, check_eq_some, Prod.mk.injEq, true_and] at h
  obtain ⟨byte, b₁, hb, -, rfl⟩ := h
  exact ⟨byte, hb⟩

theorem pullMemidx_covers_byte : Covers pullMemidx (do let _ ← bufferPullU8) := by
  intro b _ b' h
  obtain ⟨byte, hb⟩ := pullMemidx_byte h
  exact (bind_eq_some _ _ _ _).mpr ⟨byte, b', hb, rfl⟩

theorem pullMemidx_covers : Covers pullMemidx (do let _ ← bufferPull 1) := by
  intro b _ b' h
  obtain ⟨byte, hb⟩ := pullMemidx_byte h
  exact (bind_eq_some _ _ _ _).mpr ⟨_, b', bufferPull_one hb, rfl⟩

theorem pullMemidx_twice : Covers (do pullMemidx; pullMemidx) (do let _ ← bufferPull 2) := by
  intro b _ b' h
  obtain ⟨_, b₁, h₁, h₂⟩ := (bind_eq_some _ _ _ _).mp h
  obtain ⟨x, hx⟩ := pullMemidx_byte h₁
  obtain ⟨y, hy⟩ := pullMemidx_byte h₂
  refine (bind_eq_some _ _ _ _).mpr ⟨[x, y], b', ?_, rfl⟩
  obtain ⟨hd, hp⟩ := (bufferPullU8_eq_some b _).mp hx
  obtain ⟨hd', hp'⟩ := (bufferPullU8_eq_some b₁ _).mp hy
  obtain ⟨prev, data⟩ := b
  obtain ⟨prev₁, data₁⟩ := b₁
  obtain ⟨prev', data'⟩ := b'
  simp only at hd hp hd' hp'
  subst hd hp hd' hp'
  simp [bufferPull]

/-! ### What is skipped, by opcode -/

section

variable {op : ℕ}

theorem skip_leb (h : op = 0x0C ∨ op = 0x0D ∨ op = 0x10 ∨ (0x20 ≤ op ∧ op ≤ 0x24) ∨ op = 0x41 ∨ op = 0x42) :
    jitSkipImmediates op = jitSkipLeb := by
  rw [jitSkipImmediates, if_pos h]

theorem skip_memarg (h : 0x28 ≤ op ∧ op ≤ 0x3E) : jitSkipImmediates op = (do let _ ← jitPullMemarg) := by
  rw [jitSkipImmediates, if_neg (by omega), if_neg (by omega), if_neg (by omega), if_pos h]

theorem skip_memidx (h : op = 0x3F ∨ op = 0x40) : jitSkipImmediates op = (do let _ ← bufferPullU8) := by
  rw [jitSkipImmediates, if_neg (by omega), if_neg (by omega), if_neg (by omega), if_neg (by omega), if_pos h]

theorem skip_none (h : op = 0x00 ∨ op = 0x01 ∨ op = 0x05 ∨ op = 0x0F ∨ op = 0x1A ∨ op = 0x1B ∨ (0x45 ≤ op ∧ op ≤ 0xC4)) :
    jitSkipImmediates op = pure () := by
  rw [jitSkipImmediates, if_neg (by omega), if_neg (by omega), if_neg (by omega), if_neg (by omega), if_neg (by omega),
    if_neg (by omega), if_neg (by omega), if_pos h]

end

/-! ### The handlers -/

theorem memarg_reads {f : WasmMemArg → Emit Unit} : Reads (do let memArg ← pull jitPullMemarg; emit (f memArg))
    (do let _ ← jitPullMemarg) := .pullLast (.void _) fun _ => .emit _

theorem jitWasmFcPrefix_reads : Reads jitWasmFcPrefix (jitSkipImmediates 0xFC) := by
  refine .pullSame (m := bufferPullU32) fun sub => .iteBoth (fun _ => .prev fun _ => .emit _) fun _ => .iteBoth (fun _ => ?_) fun _ =>
    .iteBoth (fun _ => ?_) fun _ => .iteBoth (fun _ => ?_) fun _ => .iteBoth (fun _ => ?_) fun _ => .fail
  · exact .pullThen bufferPullU32_covers fun _ => .pullLast pullMemidx_covers fun _ => .emit _
  · exact .pullLast bufferPullU32_covers fun _ => .emit _
  · exact .pullLast pullMemidx_twice fun _ => .emit _
  · exact .pullLast pullMemidx_covers fun _ => .emit _

theorem jitWasmAtomicPrefix_reads : Reads jitWasmAtomicPrefix (jitSkipImmediates 0xFE) := by
  refine .pullSame (m := bufferPullU32) fun sub => ?_
  have memarg : ∀ {m : Handler Unit}, (sub ≤ 0x02 ∨ (0x10 ≤ sub ∧ sub ≤ 0x4E)) → Reads m (do let _ ← jitPullMemarg) →
      Reads m (do check (sub ≤ 0x02 ∨ (0x10 ≤ sub ∧ sub ≤ 0x4E)); let _ ← jitPullMemarg) :=
    fun hsub hm s a t h => (check_bind_eq_some _ _ _ _).mpr ⟨hsub, hm s a t h⟩
  refine .ite (fun h => memarg (by omega) ?_) fun _ => .ite (fun h => memarg (by omega) ?_) fun _ =>
    .ite (fun h => memarg (by omega) ?_) fun _ => .ite (fun h => memarg (by omega) ?_) fun _ =>
    .ite (fun h => memarg (by omega) ?_) fun _ => .ite (fun h => memarg (by omega) ?_) fun _ => .fail
  · exact memarg_reads
  all_goals exact .prev fun _ => memarg_reads

/-- A handler that stays in its block reads what is skipped for its opcode. -/
theorem dataHandler_reads {op : ℕ} {m : Handler Unit} (h : dataHandler op = some m) : Reads m (jitSkipImmediates op) := by
  have next : ∀ {c : Prop} [Decidable c] {a : Handler Unit} {x : Option (Handler Unit)}, (if c then some a else x) = some m →
      (c → Reads a (jitSkipImmediates op)) → (x = some m → Reads m (jitSkipImmediates op)) → Reads m (jitSkipImmediates op) :=
    fun h ha hx => switch_case (P := fun m => Reads m (jitSkipImmediates op)) h ha hx
  have bare : ∀ {m : Handler Unit}, Reads m (pure ()) → (op = 0x01 ∨ op = 0x1A ∨ op = 0x1B ∨ (0x45 ≤ op ∧ op ≤ 0xC4)) →
      Reads m (jitSkipImmediates op) := fun hm hop => by rwa [skip_none (by omega)]
  have leb : ∀ {β : Type} {m : Pull β} {f : β → Emit Unit}, Covers m jitSkipLeb →
      (op = 0x10 ∨ (0x20 ≤ op ∧ op ≤ 0x24) ∨ op = 0x41 ∨ op = 0x42) →
      Reads (do let x ← pull m; emit (f x)) (jitSkipImmediates op) :=
    fun hm hop => by rw [skip_leb (by omega)]; exact .pullLast hm fun _ => .emit _
  refine next h (fun hop => bare (fun s a t h => ?_) (by omega)) fun h => ?_
  · obtain ⟨-, rfl⟩ := Prod.mk.inj ((pure_eq_some _ _ _).mp h); rfl
  iterate 2
    refine next h (fun hop => bare (.emit _) (by omega)) fun h => ?_
  refine next h (fun hop => leb bufferPullU32_covers (by omega)) fun h => ?_
  refine next h (fun hop => hop ▸ .pullThen bufferPullU32_covers fun _ =>
    .pullLast bufferPullU32_covers fun _ => .emit _) fun h => ?_
  iterate 5
    refine next h (fun hop => leb bufferPullU32_covers (by omega)) fun h => ?_
  iterate 2
    refine next h (fun hop => by rw [skip_memarg (by omega)]; exact .prev fun _ => memarg_reads) fun h => ?_
  iterate 2
    refine next h (fun hop => by rw [skip_memidx (by omega)]; exact .pullLast pullMemidx_covers_byte fun _ => .emit _)
      fun h => ?_
  iterate 2
    refine next h (fun hop => leb (pullSigned_covers _ _) (by omega)) fun h => ?_
  iterate 2
    refine next h (fun hop => hop ▸ .pullLast (p := do let _ ← bufferPull _) (.void _) fun _ => .emit _) fun h => ?_
  iterate 20
    refine next h (fun hop => bare (.prev fun _ => .emit _) (by omega)) fun h => ?_
  refine next h (fun hop => hop ▸ jitWasmFcPrefix_reads) fun h => ?_
  refine next h (fun hop => hop ▸ jitWasmAtomicPrefix_reads) fun h => ?_
  exact absurd h (by simp)

/-! ### Tables -/

theorem forFrom_snoc {σ : Type} {m : Checked σ Unit} {i n : ℕ} {s t u : σ} (h : forFrom (fun _ => m) i n s = some ((), t))
    (h' : m t = some ((), u)) : forFrom (fun _ => m) i (n + 1) s = some ((), u) := by
  induction n generalizing i s with
  | zero =>
    obtain ⟨-, rfl⟩ := Prod.mk.inj ((pure_eq_some _ _ _).mp h)
    exact (bind_eq_some _ _ _ _).mpr ⟨(), u, h', rfl⟩
  | succ n ih =>
    obtain ⟨_, r, hr, h⟩ := (bind_eq_some _ _ _ _).mp h
    exact (bind_eq_some _ _ _ _).mpr ⟨(), r, hr, ih h⟩

theorem bufferPullU32_shrinks {b b' : Buffer} {n : ℕ} (h : bufferPullU32 b = some (n, b')) :
    b'.data.length < b.data.length := by
  obtain ⟨⟨out, shift, last, rest⟩, hl, he⟩ := Option.map_eq_some_iff.mp h
  obtain ⟨-, rfl⟩ := Prod.mk.inj he
  obtain ⟨used, hne, hb⟩ := lebLoop_suffix hl
  have := List.length_pos_iff.mpr hne
  simp [hb]
  omega

/-- The labels of a `br_table` take a byte each at least. -/
theorem fetchTargets_skip {n i : ℕ} {b b' : Buffer} {table : List ℕ} (h : fetchTargets n b = some (table, b')) :
    forFrom (fun _ => jitSkipLeb) i n b = some ((), b') ∧ n + b'.data.length ≤ b.data.length := by
  induction n generalizing i b table with
  | zero =>
    obtain ⟨-, rfl⟩ := Prod.mk.inj ((pure_eq_some _ _ _).mp h)
    exact ⟨rfl, by omega⟩
  | succ n ih =>
    obtain ⟨index, b₁, h₁, h⟩ := (bind_eq_some _ _ _ _).mp h
    obtain ⟨rest, b₂, h₂, h⟩ := (bind_eq_some _ _ _ _).mp h
    obtain ⟨-, rfl⟩ := Prod.mk.inj ((pure_eq_some _ _ _).mp h)
    obtain ⟨hskip, hlen⟩ := ih (i := i + 1) h₂
    have := bufferPullU32_shrinks h₁
    exact ⟨(bind_eq_some _ _ _ _).mpr ⟨(), b₁, bufferPullU32_covers _ _ _ h₁, hskip⟩, by omega⟩

theorem jitWasmBrTable_skip {s t : JitState} (h : jitWasmBrTable s = some ((), t)) (hlen : s.code.data.length < 2 ^ 32) :
    jitSkipImmediates 0x0E s.code = some ((), t.code) := by
  obtain ⟨n, code, hn, h⟩ := (pull_bind_eq_some _ _ _ _).mp h
  obtain ⟨table, u, hu, h⟩ := (bind_eq_some _ _ _ _).mp h
  obtain ⟨default, hd, -⟩ := pull_emit_eq_some h
  obtain ⟨hf, -⟩ := pullTargets_fetch hu
  obtain ⟨hskip, hshort⟩ := fetchTargets_skip (i := 0) hf
  simp only at hshort
  have := bufferPullU32_shrinks hn
  refine (bind_eq_some _ _ _ _).mpr ⟨n, code, hn, (check_bind_eq_some _ _ _ _).mpr ⟨by omega, ?_⟩⟩
  exact forFrom_snoc hskip (bufferPullU32_covers _ _ _ hd)

/-! ### The end of a terminated label -/

/-- The outermost label is no loop. -/
def Grounded (s : EmitState) : Prop := ∀ b ∈ (s.func.labels.map JitLabel.loop).getLast?, b = false

theorem Prim.grounded {J : Branching} {w w' : Work} {s t : EmitState} (h : Prim J w s w' t) (hs : Grounded s) : Grounded t := by
  have cons : ∀ {l : JitLabel} {ls : List JitLabel}, ls ≠ [] → (((l :: ls).map JitLabel.loop).getLast? = (ls.map JitLabel.loop).getLast?) := by
    intro l ls hne
    rcases ls with _ | ⟨p, ls⟩
    · exact absurd rfl hne
    · rfl
  cases h with
  | forget | abandon | context | peek | getLocal | setLocal | block | node | effect | enter | term => exact hs
  | pop _ hl _ | push _ _ hl _ | discard _ hl | skip _ hl _ | mark _ hl => simpa [Grounded, hl] using hs
  | arrive _ hl => simpa only [Grounded, arrive_map hl (arrive_loop ..)] using hs
  | openBlock _ _ hl => simpa only [Grounded, EmitState.enterBlock, EmitState.withLabels_func_labels, cons hl] using hs
  | loop _ _ _ hl => simpa only [Grounded, EmitState.enterLoop, EmitState.withLabels_func_labels, EmitState.withBuilder_func,
      EmitState.withLocals_func_labels, cons hl] using hs
  | join _ _ _ hl | deadJoin _ _ _ hl | endLoop _ _ _ hl =>
    simpa only [Grounded, EmitState.withLabels_func_labels, hl, cons (List.cons_ne_nil _ _)] using hs
  | leave => simp [Grounded]

theorem Between.grounded {P : Instr → EmitState → Prop} {ctx : JitContext} {funcidx : ℕ} {s : JitState} (hctx : ctx.Ok)
    (h : Between P ctx funcidx s) : Grounded s.toEmitState :=
  h.keeps (I := fun _ s => Grounded s) hctx (fun _ _ _ he => by simp [Grounded, he.labels]) fun _ _ _ => Prim.grounded

/-- Nothing is checked at the end of a terminated label but that the function body is no
loop. -/
theorem jitWasmEnd_dead {s : EmitState} {l : JitLabel} {ls : List JitLabel} (hl : s.func.labels = l :: ls)
    (hd : l.terminated = true) (hs : Grounded s) : ∃ t, jitWasmEnd s = some ((), t) := by
  have head : ∀ {c : Closing} {u : EmitState}, u.func.labels = l :: ls → (c = {} ∨ ls ≠ []) →
      ∃ t, (do
        let label ← labelAt 0
        check (label.terminated = true ∨ label.stack = [])
        closeLabel c : Emit Unit) u = some ((), t) := by
    intro c u hu hc
    rcases ls with _ | ⟨p, ls⟩
    · obtain rfl : c = {} := by simpa using hc
      exact ⟨_, by simp [hu, hd, closeLabel, handResult]; rfl⟩
    · obtain ⟨_ | v, _ | _⟩ := c <;>
        exact ⟨_, by simp [hu, hd, closeLabel, handResult, jitPush, setTerminated]; rfl⟩
  have rest : ∃ c u, endLabel l (s.func.labels.length) s = some (c, u) ∧ u.func.labels = l :: ls ∧ (c = {} ∨ ls ≠ []) := by
    rcases ls with _ | ⟨p, ls⟩
    · have hloop : l.loop = false := hs _ (by simp [hl])
      refine ⟨{}, _, by
        simp only [endLabel, hl, List.length_singleton, if_true, endFuncbody, unlessTerminated, hd]
        exact (check_bind_eq_some _ _ _ _).mpr ⟨hloop, rfl⟩, ?_, .inl rfl⟩
      exact hl
    have hlen : (l :: p :: ls).length ≠ 1 := by simp
    by_cases hloop : l.loop = true
    · refine ⟨{ terminated := true }, _, by
        simp only [endLabel, hl, hlen, if_false, hloop, if_true, endLoop, createBlock_bind, hd, setBlock_bind, terminate_bind]
        rfl, ?_, .inr (by simp)⟩
      exact hl
    rcases hm : l.locals with _ | merges
    · refine ⟨{ terminated := true }, _, by
        simp only [endLabel, hl, hlen, if_false, hloop, endBlock, unlessTerminated, hd, if_true, pure_bind]
        exact (labelAt_bind_eq_some _ _ _ _).mpr ⟨l, by simp [hl], by
          simp only [hm, setBlock_bind, terminate_bind]; rfl⟩, ?_, .inr (by simp)⟩
      exact hl
    · refine ⟨closingResult l.resultType l.result.value, _, by
        simp only [endLabel, hl, hlen, if_false, hloop, endBlock, unlessTerminated, hd, if_true, pure_bind]
        exact (labelAt_bind_eq_some _ _ _ _).mpr ⟨l, by simp [hl], by
          simp only [hm, update_bind, setBlock_bind]; rfl⟩, ?_, .inr (by simp)⟩
      exact hl
  obtain ⟨c, u, hu, hlabels, hc⟩ := rest
  obtain ⟨t, ht⟩ := head hlabels hc
  refine ⟨t, (labelAt_bind_eq_some _ _ _ _).mpr ⟨l, by simp [hl], ?_⟩⟩
  rw [read_bind]
  exact (bind_eq_some _ _ _ _).mpr ⟨c, u, hu, ht⟩

/-! ### The two decoders -/

theorem skip_immediates {op : ℕ} {d : JitState} {b : Buffer} (hop : op ≠ 0x02 ∧ op ≠ 0x03 ∧ op ≠ 0x04 ∧ op ≠ 0x0B)
    (h : jitSkipImmediates op d.code = some ((), b)) : jitSkipUnreachable op d = some ((), { d with code := b }) := by
  rw [jitSkipUnreachable, if_neg (by omega), if_neg (by omega)]
  exact (pull_eq_some _ _ _).mpr ⟨(), b, h, rfl⟩

/-- What a live handler reads, the skipping of its opcode reads. -/
theorem jitLiveOpcode_skip {op : ℕ} {s t d : JitState} {l : JitLabel} {ls : List JitLabel}
    (h : jitLiveOpcode op s = some ((), t)) (hlen : s.code.data.length < 2 ^ 32) (hcode : d.code = s.code)
    (hl : d.func.labels = l :: ls) (hd : l.terminated = true) (hg : Grounded d.toEmitState) :
    ∃ d', jitSkipUnreachable op d = some ((), d') ∧ d'.code = t.code := by
  have skip : ∀ {op : ℕ}, op ≠ 0x02 ∧ op ≠ 0x03 ∧ op ≠ 0x04 ∧ op ≠ 0x0B → jitSkipImmediates op s.code = some ((), t.code) →
      ∃ d', jitSkipUnreachable op d = some ((), d') ∧ d'.code = t.code := fun hop hr =>
    ⟨_, skip_immediates hop (by rw [hcode]; exact hr), rfl⟩
  -- a block that would have been opened is counted
  have nested : ∀ {op : ℕ} {f : Spidir.ValueType → Emit Unit}, op = 0x02 ∨ op = 0x03 → (do let type ← pull jitWasmPullBlockType; emit (f type)) s = some ((), t) →
      ∃ d', jitSkipUnreachable op d = some ((), d') ∧ d'.code = t.code := by
    intro op f hop h
    obtain ⟨type, htype, -⟩ := pull_emit_eq_some h
    rw [jitSkipUnreachable, if_pos (by omega)]
    exact ⟨_, (pull_bind_eq_some _ _ _ _).mpr ⟨type, t.code, by rw [hcode]; exact htype,
      (emit_eq_some _ _ _).mpr ⟨(), _, (modifyLabel_eq_some _ _ _ _).mpr rfl, rfl⟩⟩, rfl⟩
  unfold jitLiveOpcode at h
  split at h
  · have same := (emit_unit_eq_some h).2
    rw [jitSkipUnreachable, if_neg (by decide), if_pos rfl]
    have label : emit (labelAt 0) d = some (l, d) :=
      (emit_eq_some _ _ _).mpr ⟨l, d.toEmitState, (labelAt_eq_some _ _ _).mpr ⟨l, by simp [hl], rfl⟩, rfl⟩
    by_cases hdepth : l.unreachableDepth = 0
    · obtain ⟨e, he⟩ := jitWasmEnd_dead hl hd hg
      exact ⟨{ d with toEmitState := e }, (bind_eq_some _ _ _ _).mpr ⟨l, d, label, by
        rw [if_pos hdepth]; exact (emit_eq_some _ _ _).mpr ⟨(), e, he, rfl⟩⟩, hcode.trans same.symm⟩
    · refine ⟨_, (bind_eq_some _ _ _ _).mpr ⟨l, d, label, by
        rw [if_neg hdepth]
        exact (emit_eq_some _ _ _).mpr ⟨(), _, (modifyLabel_eq_some _ _ _ _).mpr rfl, rfl⟩⟩, ?_⟩
      exact hcode.trans same.symm
  · exact skip (by decide) (Reads.emit _ s _ t h)
  · exact nested (.inl rfl) h
  · exact nested (.inr rfl) h
  · exact skip (by decide) (Reads.pullLast bufferPullU32_covers (fun _ => .emit _) s _ t h)
  · exact skip (by decide) (Reads.pullLast bufferPullU32_covers (fun _ => .emit _) s _ t h)
  · exact skip (by decide) (jitWasmBrTable_skip h hlen)
  · exact skip (by decide) (Reads.emit _ s _ t h)
  · rcases hm : dataHandler op with _ | m
    · simp [hm] at h
    · refine skip ?_ (dataHandler_reads hm s _ t (by simpa [hm] using h))
      refine ⟨?_, ?_, ?_, ?_⟩ <;> rintro rfl
      · exact absurd hm (show (none : Option (Handler Unit)) ≠ some m from (Option.some_ne_none m).symm)
      · exact absurd hm (show (none : Option (Handler Unit)) ≠ some m from (Option.some_ne_none m).symm)
      · exact absurd hm (show (none : Option (Handler Unit)) ≠ some m from (Option.some_ne_none m).symm)
      · exact absurd hm (show (none : Option (Handler Unit)) ≠ some m from (Option.some_ne_none m).symm)

theorem jitWasmOpcode_skip {s t d : JitState} (hs : s.live = true) (h : jitWasmOpcode s = some ((), t))
    (hlen : s.code.data.length < 2 ^ 32) (hcode : d.code.data = s.code.data) (hd : d.live = false) (hl : d.func.labels ≠ [])
    (hg : Grounded d.toEmitState) : ∃ d', jitWasmOpcode d = some ((), d') ∧ d'.code = t.code := by
  simp only [jitWasmOpcode, pull_bind_eq_some, emit_bind_eq_some, labelAt_eq_some, Prod.mk.injEq] at h
  obtain ⟨op, code, hop, a, _, ⟨_, ha, rfl, rfl⟩, h⟩ := h
  have hlive : a.terminated = false := by
    obtain ⟨l, ls, hls, hterm⟩ := live_labels hs
    simp [hls] at ha
    exact ha ▸ hterm
  rw [if_neg (by simp [hlive])] at h
  obtain ⟨hdata, hprev⟩ := (bufferPullU8_eq_some _ _).mp hop
  have hop' : bufferPullU8 d.code = some (op, code) := (bufferPullU8_eq_some _ _).mpr ⟨hcode.trans hdata, hprev⟩
  rcases hls : d.func.labels with _ | ⟨l, ls⟩
  · exact absurd hls hl
  have hterm : l.terminated = true := by simpa [EmitState.live, hls] using hd
  have hlen' : code.data.length < 2 ^ 32 := by
    simp only [hdata, List.length_cons] at hlen
    omega
  obtain ⟨d', hd', hc'⟩ := jitLiveOpcode_skip (d := { d with code }) h hlen' rfl hls hterm hg
  refine ⟨d', ?_, hc'⟩
  simp only [jitWasmOpcode, pull_bind_eq_some, emit_bind_eq_some, labelAt_eq_some, Prod.mk.injEq]
  exact ⟨op, code, hop', l, d.toEmitState, ⟨l, by simp [hls], rfl, rfl⟩, by rw [if_pos hterm]; exact hd'⟩

/-- Some live handler reads the instruction in front of the code that is left. -/
def LiveReads (code rest : List UInt8) : Prop :=
  ∃ s t : JitState, s.live = true ∧ s.code.data = code ∧ jitWasmOpcode s = some ((), t) ∧ t.code.data = rest

/-- `n` opcodes of dead code. -/
inductive Skips : ℕ → JitState → JitState → Prop
  | refl (s : JitState) : Skips 0 s s
  | step {n : ℕ} {s t u : JitState} (hs : s.live = false) (h : jitWasmOpcode s = some ((), t)) (ht : Skips n t u) : Skips (n + 1) s u

/-- A reader leaves no more bytes than it found. -/
def Shrinks (m : Pull α) : Prop := ∀ b a b', m b = some (a, b') → b'.data.length ≤ b.data.length

namespace Shrinks

variable {β : Type} {m : Pull α} {f : α → Pull β}

theorem pure (a : α) : Shrinks (Pure.pure a) := by
  intro b x b' h
  rw [(Prod.mk.inj ((pure_eq_some _ _ _).mp h)).2]

theorem fail : Shrinks (Checked.fail : Pull α) := fun b x b' h => by simp at h

theorem bind (hm : Shrinks m) (hf : ∀ a, Shrinks (f a)) : Shrinks (m >>= f) := by
  intro b x b' h
  obtain ⟨a, b₁, h₁, h₂⟩ := (bind_eq_some _ _ _ _).mp h
  exact (hf a _ _ _ h₂).trans (hm _ _ _ h₁)

theorem check (p : Prop) [Decidable p] : Shrinks (Checked.check p) := by
  intro b x b' h
  rw [(Prod.mk.inj ((check_eq_some _ _ _).mp h).2).2]

theorem ite {c : Prop} [Decidable c] {m m' : Pull α} (h : Shrinks m) (h' : Shrinks m') : Shrinks (if c then m else m') := by
  split_ifs
  · exact h
  · exact h'

theorem forFrom {m : Pull Unit} (hm : Shrinks m) (i n : ℕ) : Shrinks (Checked.forFrom (fun _ => m) i n) := by
  induction n generalizing i with
  | zero => exact pure ()
  | succ n ih => exact bind hm fun _ => ih (i + 1)

theorem byte : Shrinks bufferPullU8 := by
  intro b x b' h
  simp [((bufferPullU8_eq_some _ _).mp h).1]

theorem bytes (n : ℕ) : Shrinks (bufferPull n) := by
  intro b x b' h
  obtain ⟨-, he⟩ := (bufferPull_eq_some _ _ _).mp h
  rw [(Prod.mk.inj he).2]
  simp

theorem unsigned (w limit : ℕ) : Shrinks (pullUnsigned w limit) := by
  intro b x b' h
  obtain ⟨⟨out, shift, last, rest⟩, hl, he⟩ := Option.map_eq_some_iff.mp h
  obtain ⟨used, -, hb⟩ := lebLoop_suffix hl
  rw [← (Prod.mk.inj he).2, hb]
  simp

theorem leb : Shrinks jitSkipLeb := by
  have loop : ∀ {bs rest : List UInt8} {last : UInt8}, skipLeb bs = some (last, rest) → rest.length ≤ bs.length := by
    intro bs
    induction bs with
    | nil => simp [skipLeb]
    | cons byte bs ih =>
      intro rest last h
      rw [skipLeb] at h
      split_ifs at h
      · exact (ih h).trans (by simp)
      · simp [(Prod.mk.inj (Option.some.inj h)).2]
  intro b x b' h
  obtain ⟨⟨last, rest⟩, hl, he⟩ := Option.map_eq_some_iff.mp h
  rw [← (Prod.mk.inj he).2]
  exact loop hl

theorem memarg : Shrinks jitPullMemarg :=
  bind (unsigned 32 28) fun _ => ite (bind (unsigned 32 28) fun _ => bind (check _) fun _ => bind (unsigned 64 63) fun _ => pure _)
    (bind (unsigned 64 63) fun _ => pure _)

theorem immediates (op : ℕ) : Shrinks (jitSkipImmediates op) := by
  have dropBytes : ∀ n, Shrinks (do let _ ← bufferPull n) := fun n => bind (bytes n) fun _ => pure _
  refine ite leb (ite (bind (unsigned 32 28) fun n => bind (check _) fun _ => forFrom leb 0 (n + 1)) (ite (bind leb fun _ => leb)
    (ite (bind memarg fun _ => pure _) (ite (bind byte fun _ => pure _) (ite (dropBytes 4) (ite (dropBytes 8) (ite (pure _)
    (ite (bind (unsigned 32 28) fun sub => ?_) (ite (bind (unsigned 32 28) fun sub => bind (check _) fun _ => bind memarg fun _ => pure _)
    fail)))))))))
  exact ite (pure _) (ite (bind leb fun _ => dropBytes 1) (ite leb (ite (dropBytes 2) (ite (dropBytes 1) fail))))

end Shrinks

theorem jitSkipUnreachable_shrinks {op : ℕ} {d d' : JitState} (h : jitSkipUnreachable op d = some ((), d')) :
    d'.code.data.length ≤ d.code.data.length := by
  unfold jitSkipUnreachable at h
  split_ifs at h
  · obtain ⟨type, htype, -⟩ := pull_emit_eq_some h
    exact Shrinks.bind .byte (fun _ b x b' h => by
      obtain ⟨_, -, he⟩ := (lift_eq_some _ _ _).mp h
      rw [(Prod.mk.inj he).2]) _ _ _ htype
  · obtain ⟨l, e, -, h⟩ := (emit_bind_eq_some _ _ _ _).mp h
    split_ifs at h
    · rw [(emit_unit_eq_some h).2]
    · rw [(emit_unit_eq_some h).2]
  · obtain ⟨_, code, hcode, he⟩ := (pull_eq_some _ _ _).mp h
    rw [(Prod.mk.inj he).2]
    exact Shrinks.immediates op _ _ _ hcode

theorem jitWasmOpcode_dead_shrinks {d d' : JitState} (hd : d.live = false) (h : jitWasmOpcode d = some ((), d')) :
    d'.code.data.length < d.code.data.length := by
  simp only [jitWasmOpcode, pull_bind_eq_some, emit_bind_eq_some, labelAt_eq_some, Prod.mk.injEq] at h
  obtain ⟨op, code, hop, l, _, ⟨_, hl, rfl, rfl⟩, h⟩ := h
  have hterm : l.terminated = true := by
    rcases hls : d.func.labels with _ | ⟨m, ls⟩ <;> simp [hls] at hl
    simpa [EmitState.live, hls, hl] using hd
  rw [if_pos hterm] at h
  rw [((bufferPullU8_eq_some _ _).mp hop).1]
  exact Nat.lt_succ_of_le (jitSkipUnreachable_shrinks h)

/-- In a terminated label the bytes of any instruction that a live handler accepts are
skipped, and exactly those; so after `k` opcodes of dead code the decoder stands where the
`k`-th instruction starts, up to the end of the dead stretch. -/
theorem dead_code_aligned {ctx : JitContext} {funcidx : ℕ} {d : JitState} (hctx : ctx.Ok)
    (hd : Between (fun _ _ => True) ctx funcidx d) (hlen : d.code.data.length < 2 ^ 32) :
    (d.live = false → d.func.labels ≠ [] → ∀ s t : JitState, s.live = true → s.code.data = d.code.data →
      jitWasmOpcode s = some ((), t) → ∃ d', jitWasmOpcode d = some ((), d') ∧ d'.code.data = t.code.data) ∧
    ∀ (n : ℕ) (code : ℕ → List UInt8), code 0 = d.code.data → (∀ i < n, LiveReads (code i) (code (i + 1))) →
      ∃ k ≤ n, ∃ d', Skips k d d' ∧ d'.code.data = code k ∧ (k = n ∨ d'.live = true ∨ d'.func.labels = []) := by
  have one : ∀ {d s t : JitState}, Between (fun _ _ => True) ctx funcidx d → d.code.data.length < 2 ^ 32 → d.live = false →
      d.func.labels ≠ [] → s.live = true → s.code.data = d.code.data → jitWasmOpcode s = some ((), t) →
      ∃ d', jitWasmOpcode d = some ((), d') ∧ d'.code.data = t.code.data := by
    intro d s t hd hlen hdead hl hs hcode h
    obtain ⟨d', hd', hc⟩ := jitWasmOpcode_skip hs h (hcode ▸ hlen) hcode.symm hdead hl (hd.grounded hctx)
    exact ⟨d', hd', congrArg Buffer.data hc⟩
  refine ⟨fun hdead hl s t => one hd hlen hdead hl, fun n => ?_⟩
  induction n generalizing d with
  | zero => exact fun code h0 _ => ⟨0, le_rfl, d, .refl d, h0.symm, .inl rfl⟩
  | succ n ih =>
    intro code h0 hreads
    by_cases stopped : d.live = true ∨ d.func.labels = []
    · exact ⟨0, by omega, d, .refl d, h0.symm, .inr stopped⟩
    · obtain ⟨hdead, hl⟩ := not_or.mp stopped
      have hdead : d.live = false := by simpa using hdead
      obtain ⟨s, t, hs, hcode, h, ht⟩ := hreads 0 (by omega)
      obtain ⟨d', hd', hc⟩ := one hd hlen hdead hl hs (hcode.trans h0) h
      have hne : d.code.data ≠ [] := by
        intro he
        simp [jitWasmOpcode, hcode, h0, he, bufferPullU8_eq_some] at h
      have hshort := jitWasmOpcode_dead_shrinks hdead hd'
      obtain ⟨k, hk, e, hskips, he, hover⟩ := ih (.step hd hne hl (fun _ _ _ _ => trivial) hd') (by omega)
        (fun i => code (i + 1)) (ht.symm.trans hc.symm) fun i hi => hreads (i + 1) (by omega)
      exact ⟨k + 1, by omega, e, .step hdead hd' hskips, he, hover.imp_left (congrArg (· + 1))⟩

/-- `unreachable i32.const 5 drop end` in a function without parameters and results. -/
def deadConst : JitContext :=
  { module := { types := [{}], functions := [0], code := some [[0x00, 0x00, 0x41, 0x05, 0x1A, 0x0B]] } }

theorem dead_code_aligned_const : ∃ d : JitState, d.live = false ∧ d.code.data = [0x41, 0x05, 0x1A, 0x0B] ∧
    ∃ k ≤ 2, ∃ d', Skips k d d' ∧ d'.code.data = [[0x41, 0x05, 0x1A, 0x0B], [0x1A, 0x0B], [0x0B]].getD k [] ∧
      (k = 2 ∨ d'.live = true ∨ d'.func.labels = []) := by
  have ok : deadConst.Ok := ⟨fun i f h => by simp [deadConst] at h, fun k f h => by simp [deadConst] at h⟩
  have enter : Between (fun _ _ => True) deadConst 0 _ := .enter rfl rfl rfl
  have dead : Between (fun _ _ => True) deadConst 0 _ := .step enter (by decide) (by decide) (fun _ _ _ _ => trivial) rfl
  refine ⟨_, ?_, ?_, (dead_code_aligned ok dead (by decide)).2 2 (fun k => [[0x41, 0x05, 0x1A, 0x0B], [0x1A, 0x0B], [0x0B]].getD k [])
    rfl fun i hi => ?_⟩
  · rfl
  · rfl
  · let live (code : List UInt8) (stack : List JitValue) : JitState := { code := ⟨0, code⟩, func := { labels := [{ stack }] } }
    rcases i with _ | _ | i
    · exact ⟨live [0x41, 0x05, 0x1A, 0x0B] [], _, rfl, rfl, rfl, rfl⟩
    · exact ⟨live [0x1A, 0x0B] [⟨some 0, .i32⟩], _, rfl, rfl, rfl, rfl⟩
    · omega

end SpidirWasm.Jit
