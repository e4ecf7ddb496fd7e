import SpidirWasm.Jit.Nesting

/-! Dead code is read and leaves nothing behind: from a terminator to the `end` of its
label, one balanced sequence of instructions is as good as another. -/

namespace SpidirWasm.Jit

open Checked
open Spidir (Builder ValueType)
open Wasm (FuncType)

/-- The opcode loop, with the fuel that `jit_build_function` gives it. -/
def jitBody (s : JitState) : Option (Unit × JitState) := jitOpcodes s.code.data.length s

/-- The rest of `jit_build_function`, from an opcode on. -/
def jitFinishBody (s : JitState) : Option (Builder × JitContext) := do
  let (_, s) ← jitBody s
  guard (s.code.data = [] ∧ s.func.labels = [])
  return (s.builder, s.ctx)

/-- `jit_build_function` on the code of a function. -/
def jitBuildBody (ctx : JitContext) (params : List ValueType) (type : FuncType) (code : List UInt8) : Option (Builder × JitContext) :=
  (jitEnterFunction type (functionState ctx params code)).bind fun (_, s) => jitFinishBody s

theorem jitFinishBody_congr {s t : JitState} (h : jitBody s = jitBody t) : jitFinishBody s = jitFinishBody t := by
  rw [jitFinishBody, h, jitFinishBody]

theorem jitBuildFunction_eq (params : List ValueType) (funcidx : ℕ) (ctx : JitContext) : jitBuildFunction params funcidx ctx =
    (internalFunction ctx.module funcidx).bind fun (type, code) => jitBuildBody ctx params type code := rfl

/-- What `jit_skip_unreachable` reads of an instruction nested `depth` deep in dead code, and
the depth behind it; not the `end` of the label itself. -/
def skipInstruction (depth : ℕ) : Pull ℕ := do
  let op ← bufferPullU8
  if Opens op.toNat then
    let _ ← jitWasmPullBlockType
    return depth + 1
  else if Closes op.toNat then
    check (depth ≠ 0)
    return depth - 1
  else
    jitSkipImmediates op.toNat
    return depth

/-- Instructions that can be skipped, from a depth on, and that close what they open. -/
inductive DeadStretch : ℕ → Buffer → Prop
  | done {b : Buffer} (h : b.data = []) : DeadStretch 0 b
  | step {depth depth' : ℕ} {b b' : Buffer} (h : skipInstruction depth b = some (depth', b')) (hrest : DeadStretch depth' b') :
      DeadStretch depth b

/-- A balanced sequence of instructions that can be skipped. -/
def Skippable (code : List UInt8) : Prop := DeadStretch 0 ⟨0, code⟩

/-- In a label that was just terminated. -/
def JustDead (s : JitState) : Prop := ∃ l ls, s.func.labels = l :: ls ∧ l.terminated = true ∧ l.unreachableDepth = 0

instance (depth : ℕ) : Pull.Consumes (skipInstruction depth) := by unfold skipInstruction; infer_instance

variable {s t d : JitState} {ops post : List UInt8} {l : JitLabel} {ls : List JitLabel} {depth fuel : ℕ} {b code : Buffer}
  {ctx : JitContext} {params : List ValueType} {type : FuncType}

/-- The byte before the cursor does not matter to the next instruction. -/
theorem DeadStretch.prev (h : DeadStretch depth b) (p : UInt8) : DeadStretch depth ⟨p, b.data⟩ := by
  cases h with
  | done h => exact .done h
  | @step _ depth' _ b' h hrest =>
    refine .step (show _ = some (depth', b') from ?_) hrest
    obtain ⟨prev, data⟩ := b
    cases data with
    | nil => cases h
    | cons byte data => exact h

/-- One instruction of dead code changes the cursor and the depth. -/
theorem jitWasmOpcode_dead (hl : s.func.labels = l :: ls) (hd : l.terminated = true)
    (h : skipInstruction l.unreachableDepth s.code = some (depth, code)) :
    jitWasmOpcode s = some ((), { s with code, toEmitState := s.withLabels ({ l with unreachableDepth := depth } :: ls) }) := by
  obtain ⟨op, next, hop, h⟩ := (bind_eq_some _ _ _ _).mp h
  simp only [jitWasmOpcode, pull_bind_eq_some, emit_bind_eq_some, labelAt_eq_some, Prod.mk.injEq]
  refine ⟨op, next, hop, l, s.toEmitState, ⟨l, by simp [hl], rfl, rfl⟩, ?_⟩
  rw [if_pos hd, jitSkipUnreachable]
  have count (code : Buffer) (f : JitLabel → ℕ) :
      emit (modifyLabel 0 fun l => { l with unreachableDepth := f l }) { s with code } =
        some ((), { s with code, toEmitState := s.withLabels ({ l with unreachableDepth := f l } :: ls) }) :=
    (emit_eq_some _ _ _).mpr ⟨(), _, (modifyLabel_eq_some _ _ _ _).mpr rfl, by simp [hl]⟩
  split_ifs at h with hopen hclose
  · obtain ⟨type, code', htype, h⟩ := (bind_eq_some _ _ _ _).mp h
    obtain ⟨rfl, rfl⟩ := Prod.mk.inj ((pure_eq_some _ _ _).mp h)
    rw [if_pos (show op.toNat = 0x02 ∨ op.toNat = 0x03 ∨ op.toNat = 0x04 from hopen)]
    exact (pull_bind_eq_some _ _ _ _).mpr ⟨type, code, htype, count code fun l => l.unreachableDepth + 1⟩
  · obtain ⟨hdepth, h⟩ := (check_bind_eq_some _ _ _ _).mp h
    obtain ⟨rfl, rfl⟩ := Prod.mk.inj ((pure_eq_some _ _ _).mp h)
    rw [if_neg (show ¬(op.toNat = 0x02 ∨ op.toNat = 0x03 ∨ op.toNat = 0x04) from hopen), if_pos (show op.toNat = 0x0B from hclose)]
    refine (emit_bind_eq_some _ _ _ _).mpr ⟨l, s.toEmitState, (labelAt_eq_some _ _ _).mpr ⟨l, by simp [hl], rfl⟩, ?_⟩
    rw [if_neg hdepth]
    exact count code fun l => l.unreachableDepth - 1
  · obtain ⟨_, code', hskip, h⟩ := (bind_eq_some _ _ _ _).mp h
    obtain ⟨rfl, rfl⟩ := Prod.mk.inj ((pure_eq_some _ _ _).mp h)
    rw [if_neg (show ¬(op.toNat = 0x02 ∨ op.toNat = 0x03 ∨ op.toNat = 0x04) from hopen), if_neg (show ¬op.toNat = 0x0B from hclose)]
    refine (pull_eq_some _ _ _).mpr ⟨(), code, hskip, ?_⟩
    rw [← hl]
    rfl

/-! ### The opcode loop -/

theorem jitOpcodes_nil (h : s.code.data = []) : jitOpcodes fuel s = some ((), s) := by
  cases fuel with
  | zero => rfl
  | succ fuel =>
    rw [jitOpcodes, read_bind, if_neg (not_not_intro h)]
    rfl

theorem jitOpcodes_cons (hcode : s.code.data ≠ []) : jitOpcodes (fuel + 1) s =
    (if s.func.labels ≠ [] then some ((), s) else none).bind fun _ => (jitWasmOpcode s).bind fun (_, t) => jitOpcodes fuel t := by
  rw [jitOpcodes, read_bind, if_pos hcode, read_bind, check_bind]
  split_ifs <;> rfl

/-- An opcode is at least a byte. -/
theorem jitWasmOpcode_shorter (h : jitWasmOpcode s = some ((), t)) : t.code.data.length < s.code.data.length := by
  obtain ⟨op, rest, hop, l, ls, -, code, hrun, rfl⟩ := jitWasmOpcode_cases h
  have dead : Handler.Consumes (jitSkipUnreachable op.toNat) := inferInstance
  have live : Handler.Consumes (jitLiveOpcode op.toNat) := inferInstance
  have hsuffix : t.code.data <:+ code.data := by
    obtain ⟨-, hrun⟩ | ⟨-, hrun⟩ := hrun
    · exact dead.suffix hrun
    · exact live.suffix hrun
  rw [hop]
  exact Nat.lt_succ_of_le hsuffix.length_le

/-- More fuel than the code is long changes nothing. -/
theorem jitOpcodes_fuel {n m : ℕ} (hn : s.code.data.length ≤ n) (hm : s.code.data.length ≤ m) : jitOpcodes n s = jitOpcodes m s := by
  induction n generalizing m s with
  | zero =>
    have hnil : s.code.data = [] := List.length_eq_zero_iff.mp (Nat.le_zero.mp hn)
    rw [jitOpcodes_nil hnil, jitOpcodes_nil hnil]
  | succ n ih =>
    by_cases hcode : s.code.data = []
    · rw [jitOpcodes_nil hcode, jitOpcodes_nil hcode]
    obtain ⟨m, rfl⟩ : ∃ k, m = k + 1 := Nat.exists_eq_succ_of_ne_zero fun h0 =>
      hcode (List.length_eq_zero_iff.mp (Nat.le_zero.mp (h0 ▸ hm)))
    rw [jitOpcodes_cons hcode, jitOpcodes_cons hcode]
    congr 1
    funext _
    cases h : jitWasmOpcode s with
    | none => rfl
    | some r =>
      have hlt := jitWasmOpcode_shorter h
      exact ih (by omega) (by omega)

/-- The loop goes on behind an opcode. -/
theorem jitBody_step (hlabels : s.func.labels ≠ []) (h : jitWasmOpcode s = some ((), t)) : jitBody s = jitBody t := by
  have hlt := jitWasmOpcode_shorter h
  have hcode : s.code.data ≠ [] := List.ne_nil_of_length_pos (by omega)
  calc jitBody s
    _ = jitOpcodes (s.code.data.length - 1 + 1) s := jitOpcodes_fuel le_rfl (by omega)
    _ = jitOpcodes (s.code.data.length - 1) t := by
      rw [jitOpcodes_cons hcode, if_pos hlabels, h]
      rfl
    _ = jitBody t := jitOpcodes_fuel (by omega) le_rfl

theorem Translated.jitBody_eq (h : Translated s ops t) : jitBody s = jitBody t := by
  induction h with
  | nil => rfl
  | snoc _ _ hlabels h ih => exact ih.trans (jitBody_step hlabels h)

/-- What was translated is translated in front of any other code. -/
theorem Translated.consumes (h : Translated s ops t) : ∃ used, s.unread = used ++ t.unread ∧
    ∀ rest, Translated (s.withUnread (used ++ rest)) ops (t.withUnread rest) := by
  induction h with
  | nil => exact ⟨[], rfl, fun _ => .nil⟩
  | @snoc t u ops rest op _ hcode hlabels h ih =>
    obtain ⟨used, hs, run⟩ := ih
    have opcode : Handler.Consumes jitWasmOpcode := inferInstance
    obtain ⟨used', ht, run'⟩ := opcode.consumes t () u h
    refine ⟨used ++ used', by rw [hs, ht, List.append_assoc], fun rest' => ?_⟩
    have start : ∃ bytes, used' = op :: bytes := by
      cases used' with
      | nil =>
        obtain ⟨_, _, hnil, -⟩ := jitWasmOpcode_cases (run' [])
        cases hnil
      | cons byte bytes =>
        have : t.unread = op :: rest := hcode
        exact ⟨bytes, by rw [(List.cons.inj (this.symm.trans ht)).1]⟩
    obtain ⟨bytes, rfl⟩ := start
    rw [List.append_assoc]
    exact .snoc (run _) rfl hlabels (run' rest')

/-! ### A stretch of dead code -/

/-- The byte before the cursor does not matter to the next instruction. -/
theorem jitBody_prev (e : EmitState) (p q op : UInt8) : jitBody ⟨e, p, op :: post⟩ = jitBody ⟨e, q, op :: post⟩ := by
  have step : jitWasmOpcode ⟨e, p, op :: post⟩ = jitWasmOpcode ⟨e, q, op :: post⟩ := rfl
  have hcode : op :: post ≠ [] := List.cons_ne_nil op post
  change jitOpcodes (post.length + 1) _ = jitOpcodes (post.length + 1) _
  rw [jitOpcodes_cons (s := ⟨e, p, op :: post⟩) hcode, jitOpcodes_cons (s := ⟨e, q, op :: post⟩) hcode, step]
  by_cases hlabels : e.func.labels ≠ []
  · rw [if_pos hlabels, if_pos hlabels]
    rfl
  · rw [if_neg hlabels, if_neg hlabels]

/-- Dead code is read to its end, and the label is as dead as before. -/
theorem DeadStretch.jitBody_eq (h : DeadStretch depth b) (hl : s.func.labels = l :: ls) (hd : l.terminated = true)
    (hdepth : l.unreachableDepth = depth) (hcode : s.code = withData (b.data ++ post) b) :
    ∃ p, jitBody s = jitBody { s with code := ⟨p, post⟩, toEmitState := s.withLabels ({ l with unreachableDepth := 0 } :: ls) } := by
  induction h generalizing s l with
  | @done b h =>
    refine ⟨b.prev, congrArg jitBody ?_⟩
    have hlabel : { l with unreachableDepth := 0 } = l := by
      rw [← hdepth]
    have hat : s.code = ⟨b.prev, post⟩ := by
      rw [hcode, h]
      rfl
    rw [hlabel, ← hl, ← hat]
    rfl
  | @step depth depth' b b' h _ ih =>
    have skip : Pull.Consumes (skipInstruction depth) := inferInstance
    obtain ⟨used, hb, run⟩ := skip.consumes b depth' b' h
    have hread : skipInstruction l.unreachableDepth s.code = some (depth', withData (b'.data ++ post) b') := by
      rw [hdepth, hcode, hb, List.append_assoc]
      exact run (b'.data ++ post)
    obtain ⟨p, hrest⟩ := ih (s := { s with
      code := withData (b'.data ++ post) b', toEmitState := s.withLabels ({ l with unreachableDepth := depth' } :: ls) }) rfl hd rfl rfl
    refine ⟨p, ?_⟩
    rw [jitBody_step (by simp [hl]) (jitWasmOpcode_dead hl hd hread)]
    exact hrest

theorem Skippable.jitBody_eq {x : List UInt8} (hx : Skippable x) (hd : JustDead d) (hread : d.code.data = x ++ 0x0B :: post) :
    jitBody d = jitBody (d.withUnread (0x0B :: post)) := by
  obtain ⟨l, ls, hl, hdead, hdepth⟩ := hd
  have hcode : d.code = withData (x ++ 0x0B :: post) ⟨d.code.prev, x⟩ := by
    rw [withData, ← hread]
  obtain ⟨p, h⟩ := (DeadStretch.prev hx d.code.prev).jitBody_eq hl hdead hdepth hcode
  have hlabel : { l with unreachableDepth := 0 } = l := by
    rw [← hdepth]
  rw [hlabel, ← hl] at h
  exact h.trans (jitBody_prev _ _ _ _)

/-- A body that starts as another did is translated as that one, from there on. -/
theorem jitBuildBody_front {code : List UInt8} (hs : jitEnterFunction type (functionState ctx params code) = some ((), s))
    (hd : Translated s ops d) : ∃ used, code = used ++ d.unread ∧
      ∀ rest, jitBuildBody ctx params type (used ++ rest) = jitFinishBody (d.withUnread rest) := by
  have enter : Handler.Consumes (jitEnterFunction type) := inferInstance
  obtain ⟨used, hcode, run⟩ := enter.consumes _ () s hs
  obtain ⟨used', hunread, run'⟩ := hd.consumes
  refine ⟨used ++ used', ?_, fun rest => ?_⟩
  · rw [List.append_assoc, ← hunread]
    exact hcode
  · have hrun : jitEnterFunction type (functionState ctx params (used ++ used' ++ rest)) = some ((), s.withUnread (used' ++ rest)) := by
      rw [List.append_assoc]
      exact run (used' ++ rest)
    rw [jitBuildBody, hrun, Option.bind_some]
    exact jitFinishBody_congr (run' rest).jitBody_eq

/-- From a terminated label to the `end` that closes it, every balanced sequence of instructions that can be skipped is as good as
another: the function, the prepared functions, the used tables and the acceptance of the body are the same. -/
theorem dead_code_replaced (ctx : JitContext) (params : List ValueType) (funcidx : ℕ) (type : FuncType) (pre x y post : List UInt8)
    (s d : JitState) (ops : List UInt8) (hf : internalFunction ctx.module funcidx = some (type, pre ++ x ++ 0x0B :: post))
    (hs : jitEnterFunction type (functionState ctx params (pre ++ x ++ 0x0B :: post)) = some ((), s)) (hd : Translated s ops d)
    (hread : d.code.data = x ++ 0x0B :: post) (hdead : JustDead d) (hx : Skippable x) (hy : Skippable y) :
    jitBuildBody ctx params type (pre ++ y ++ 0x0B :: post) = jitBuildFunction params funcidx ctx := by
  obtain ⟨used, hcode, run⟩ := jitBuildBody_front hs hd
  have hused : pre = used := by
    have hunread : d.unread = x ++ 0x0B :: post := hread
    rw [hunread, List.append_assoc] at hcode
    exact List.append_cancel_right hcode
  subst hused
  have skipped {z : List UInt8} (hz : Skippable z) :
      jitBuildBody ctx params type (pre ++ z ++ 0x0B :: post) = jitFinishBody (d.withUnread (0x0B :: post)) := by
    rw [List.append_assoc, run]
    exact jitFinishBody_congr (hz.jitBody_eq (d := d.withUnread (z ++ 0x0B :: post)) hdead rfl)
  rw [jitBuildFunction_eq, hf, Option.bind_some, skipped hy]
  exact (skipped hx).symm

/-- `unreachable` and two bytes of dead code. -/
def deadDrop : JitContext := { module := { types := [{}], functions := [0], code := some [[0x00, 0x00, 0x01, 0x1A, 0x0B]] } }

/-- `nop drop` is replaced by a block with a call of a function that there is not. -/
theorem dead_code_replaced_deadDrop :
    jitBuildBody deadDrop [.ptr, .ptr] {} [0x00, 0x00, 0x02, 0x40, 0x10, 0x07, 0x0B, 0x0B] =
      jitBuildFunction [.ptr, .ptr] 0 deadDrop := by
  have enter : ∃ s d, jitEnterFunction {} (functionState deadDrop [.ptr, .ptr] [0x00, 0x00, 0x01, 0x1A, 0x0B]) = some ((), s) ∧
      Translated s [0x00] d ∧ d.code.data = [0x01, 0x1A, 0x0B] ∧ JustDead d :=
    ⟨_, _, rfl, .snoc .nil rfl (List.cons_ne_nil _ _) rfl, rfl, _, _, rfl, rfl, rfl⟩
  obtain ⟨s, d, hs, hd, hread, hdead⟩ := enter
  have dropped : Skippable [0x01, 0x1A] :=
    .step (show _ = some (0, ⟨0x01, [0x1A]⟩) from rfl) (.step (show _ = some (0, ⟨0x1A, []⟩) from rfl) (.done rfl))
  have block : Skippable [0x02, 0x40, 0x10, 0x07, 0x0B] :=
    .step (show _ = some (1, ⟨0x40, [0x10, 0x07, 0x0B]⟩) from rfl)
      (.step (show _ = some (1, ⟨0x07, [0x0B]⟩) from rfl) (.step (show _ = some (0, ⟨0x0B, []⟩) from rfl) (.done rfl)))
  exact dead_code_replaced deadDrop [.ptr, .ptr] 0 {} [0x00, 0x00] [0x01, 0x1A] [0x02, 0x40, 0x10, 0x07, 0x0B] [] s d [0x00]
    rfl hs hd hread hdead dropped block

end SpidirWasm.Jit
