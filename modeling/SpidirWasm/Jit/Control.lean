import SpidirWasm.Jit.Data

/-! The control instructions of `inst.c`, the skipping of dead code and the opcode
switch. A branch merges the current locals, and the value it carries, into its
target: values that agree so far are only recorded, and a phi is made in the
target's block once two of them differ. -/

namespace SpidirWasm.Jit

open Checked
open Spidir (Builder Inst Value ValueType Block)

/-! A handler with immediates is its reads and then what it emits, which has a name of
its own. -/

def emitUnreachable : Emit Unit := do
  jitEmitTrap
  setTerminated

def jitWasmUnreachable : Handler Unit := emit emitUnreachable

/-- `jit_wasm_pull_block_type`. -/
def jitWasmPullBlockType : Pull ValueType := do
  let byte ← bufferPullU8
  lift (match byte.toNat with
    | 0x40 => some .none
    | 0x7F => some .i32
    | 0x7E => some .i64
    | 0x7D => some .f32
    | 0x7C => some .f64
    | _ => none)

/-- Open a label. -/
def pushLabel (l : JitLabel) : Emit Unit := update fun s => s.withLabels (l :: s.func.labels)

def openBlock (resultType : ValueType) : Emit Unit := do
  let block ← createBlock
  pushLabel { block, resultType }

def jitWasmBlock : Handler Unit := do
  let resultType ← pull jitWasmPullBlockType
  emit (openBlock resultType)

/-- Give every local a phi with its present value as the first input. -/
def loopPhis : List JitValue → Builder → List JitValue × List Merge × Builder
  | [], b => ([], [], b)
  | l :: ls, b =>
    let i := Inst.phi l.type [l.value]
    let (ls, merges, b') := loopPhis ls (b.build i)
    (⟨b.handle i, l.type⟩ :: ls, ⟨none, some b.nextValue⟩ :: merges, b')

def openLoop (resultType : ValueType) : Emit Unit := do
  let block ← createBlock
  terminate (.branch block)
  setBlock block
  let s ← get
  let (locals, merges, builder) := loopPhis s.func.locals s.builder
  set ((s.withLocals locals).withBuilder builder)
  -- an invalid value differs from every later one, so each branch adds its input
  pushLabel { block, loop := true, resultType, locals := some merges }

def jitWasmLoop : Handler Unit := do
  let resultType ← pull jitWasmPullBlockType
  emit (openLoop resultType)

/-- Merge a value into one place of a target whose earlier `inputs` branches agreed
unless there is a phi; the builder stands in the target's block. -/
def mergeValue (inputs : ℕ) (type : ValueType) (v : Value) (m : Merge) (b : Builder) : Merge × Builder :=
  if v = m.value then (m, b)
  else match m.phi with
    | some p => (m, b.addPhiInput p v)
    | none =>
      let p := b.nextValue
      let phi := Inst.phi type []
      let b' := (List.replicate inputs m.value).foldl (·.addPhiInput p) (b.build phi)
      (⟨b.handle phi, some p⟩, b'.addPhiInput p v)

/-- `mergeValue` local by local. -/
def mergeLocals (inputs : ℕ) : List JitValue → List Merge → Builder → List Merge × Builder
  | l :: ls, m :: ms, b =>
    let (m, b) := mergeValue inputs l.type l.value m b
    let (ms, b) := mergeLocals inputs ls ms b
    (m :: ms, b)
  | _, ms, b => (ms, b)

/-- Whether a branch to the label carries a value to merge; a loop returns its value
at its end instead. -/
def JitLabel.mergeResult (target : JitLabel) : Prop := target.resultType ≠ .none ∧ target.loop = false

instance (target : JitLabel) : Decidable target.mergeResult := inferInstanceAs (Decidable (_ ∧ _))

/-- One more branch to a label, with the locals and the value it carries: the first is
only recorded, a later one is merged in the label's block before the builder is
switched back. -/
def JitLabel.arrive (target : JitLabel) (locals : List JitValue) (resultValue : Value) (b : Builder) :
    JitLabel × Builder :=
  match target.locals with
  | none =>
    ({ target with
        locals := some (locals.map fun l => ⟨l.value, none⟩)
        result := if target.mergeResult then ⟨resultValue, none⟩ else target.result
        inputs := target.inputs + 1 }, b)
  | some merges =>
    let (merges, b₁) := mergeLocals target.inputs locals merges (b.setBlock target.block)
    let (result, b₂) :=
      if target.mergeResult then mergeValue target.inputs target.resultType resultValue target.result b₁
      else (target.result, b₁)
    ({ target with locals := some merges, result, inputs := target.inputs + 1 }, { b₂ with cur := b.cur })

/-- `jit_wasm_prepare_branch`. -/
def jitWasmPrepareBranch (index : ℕ) (resultValue : Value) : Emit Unit := do
  let target ← labelAt index
  let s ← get
  check (target.locals ≠ none → s.builder.cur ≠ none)
  let (label, b) := target.arrive s.func.locals resultValue s.builder
  set (s.withBuilder b)
  modifyLabel index fun _ => label

/-- The type of the value a branch to a label carries. -/
def JitLabel.branchType (target : JitLabel) : ValueType :=
  if target.loop then .none else target.resultType

/-- The branch itself: to the function body it is a return. -/
def brTarget (index : ℕ) : Emit Unit := do
  let target ← labelAt index
  let func ← read (·.func)
  if isFuncbodyLabel func index then
    let value ← jitPopIf func.retType
    terminate (.ret value)
  else
    let result ← jitPopIf target.branchType
    jitWasmPrepareBranch index result
    terminate (.branch target.block)

def emitBr (index : ℕ) : Emit Unit := do
  brTarget index
  setTerminated

def jitWasmBr : Handler Unit := do
  let index ← pull bufferPullU32
  emit (emitBr index)

/-- The branch itself, taken or not, once the condition is popped. -/
def brIfTarget (index : ℕ) (c : Value) (continuation : Block) : Emit Unit := do
  let target ← labelAt index
  let func ← read (·.func)
  if isFuncbodyLabel func index then
    let value ← jitPeekIf func.retType
    let retBlock ← createBlock
    terminate (.brcond c retBlock continuation)
    setBlock retBlock
    terminate (.ret value)
  else
    let result ← jitPeekIf target.branchType
    jitWasmPrepareBranch index result
    terminate (.brcond c target.block continuation)

def emitBrIf (index : ℕ) : Emit Unit := do
  let _ ← labelAt index
  let c ← jitPop .i32
  let continuation ← createBlock
  brIfTarget index c continuation
  setBlock continuation

def jitWasmBrIf : Handler Unit := do
  let index ← pull bufferPullU32
  emit (emitBrIf index)

/-- The label indices of a `br_table`, each checked as it is read. -/
def pullTargets : ℕ → Handler (List ℕ)
  | 0 => return []
  | n + 1 => do
    let index ← pull bufferPullU32
    let _ ← emit (labelAt index)
    let rest ← pullTargets n
    return index :: rest

/-- One `jit_wasm_prepare_branch` of `jit_wasm_br_table`. -/
def prepareTarget (branchValue : Value) (index : ℕ) : Emit Unit := do
  let func ← read (·.func)
  if isFuncbodyLabel func index then return
  let target ← labelAt index
  jitWasmPrepareBranch index (if target.loop then none else branchValue)

def prepareTargets (branchValue : Value) : List ℕ → Emit Unit
  | [] => return
  | index :: rest => do
    prepareTarget branchValue index
    prepareTargets branchValue rest

/-- `RESOLVE_TARGET`: the shared return block is created for the first target that
needs it. -/
def resolveTarget (retBlock : Option Block) (index : ℕ) : Emit (Block × Option Block) := do
  let func ← read (·.func)
  if isFuncbodyLabel func index then
    match retBlock with
    | some b => return (b, some b)
    | none =>
      let b ← createBlock
      return (b, some b)
  else
    let target ← labelAt index
    return (target.block, retBlock)

/-- The chain of cases from the `i`-th on, in the block `tryNextCase`. -/
def emitCases (index : Value) : ℕ → List ℕ → Block → Option Block → Emit (Option Block)
  | _, [], _, retBlock => return retBlock
  | i, case :: rest, tryNextCase, retBlock => do
    setBlock tryNextCase
    let (target, retBlock) ← resolveTarget retBlock case
    if rest = [] then
      terminate (.branch target)
      return retBlock
    else
      let next ← createBlock
      let cond ← build (.icmp .eq .i32 index (← build (.iconst .i32 (BitVec.ofNat 64 i))))
      terminate (.brcond cond target next)
      emitCases index (i + 1) rest next retBlock

/-- The type of the operand `jit_wasm_br_table` pops on behalf of all targets. -/
def branchOperandType (func : FuncCtx) (target : JitLabel) (index : ℕ) : ValueType :=
  if isFuncbodyLabel func index then func.retType else target.branchType

/-- The shared return block carries the operand popped for all targets. -/
def emitReturnBlock (branchValue : Value) : Option Block → Emit Unit
  | none => return
  | some b => do
    setBlock b
    terminate (.ret branchValue)

/-- The edges of a `br_table`, all targets prepared before the first is built. -/
def brTableTargets (table : List ℕ) (defaultIndex : ℕ) : Emit Unit := do
  let defaultLabel ← labelAt defaultIndex
  let func ← read (·.func)
  let index ← jitPop .i32
  let branchValue ← jitPopIf (branchOperandType func defaultLabel defaultIndex)
  prepareTargets branchValue table
  prepareTarget branchValue defaultIndex
  let tryNextCase ← createBlock
  let cond ← build (.icmp .ult .i32 index (← build (.iconst .i32 (BitVec.ofNat 64 table.length))))
  let (target, retBlock) ← resolveTarget none defaultIndex
  terminate (.brcond cond tryNextCase target)
  let retBlock ← emitCases index 0 table tryNextCase retBlock
  emitReturnBlock branchValue retBlock

def emitBrTable (table : List ℕ) (defaultIndex : ℕ) : Emit Unit := do
  brTableTargets table defaultIndex
  setTerminated

def jitWasmBrTable : Handler Unit := do
  let tableSize ← pull bufferPullU32
  let table ← pullTargets tableSize
  let defaultIndex ← pull bufferPullU32
  emit (emitBrTable table defaultIndex)

def emitReturn : Emit Unit := do
  let func ← read (·.func)
  let value ← jitPopIf func.retType
  modifyLabel 0 fun l => { l with stack := [] }
  terminate (.ret value)
  setTerminated

def jitWasmReturn : Handler Unit := emit emitReturn

/-! ### End -/

/-- What the enclosing label gets when a label is closed: a result, or that it is
terminated as well. -/
structure Closing where
  push : Option JitValue := none
  terminated : Bool := false
  deriving DecidableEq, Repr, Inhabited

/-- The result handed to the enclosing label. -/
def closingResult (type : ValueType) (value : Value) : Closing :=
  { push := if type = .none then none else some ⟨value, type⟩ }

/-- What only a label that is still live does at its end. -/
def unlessTerminated (label : JitLabel) (m : Emit Unit) : Emit Unit :=
  if label.terminated then return else m

def endFuncbody (label : JitLabel) : Emit Closing := do
  check (label.loop = false)
  unlessTerminated label do
    let value ← jitPopIf (← read (·.func.retType))
    terminate (.ret value)
  return {}

/-- `func->locals` as merged. -/
def restoreLocals (locals : List JitValue) (merges : List Merge) : List JitValue :=
  locals.zipWith (fun l m => { l with value := m.value }) merges

def endBlock (label : JitLabel) : Emit Closing := do
  unlessTerminated label do
    let result ← jitPopIf label.resultType
    jitWasmPrepareBranch 0 result
    terminate (.branch label.block)
  let merged ← labelAt 0
  match merged.locals with
  | none =>
    -- no branch reaches the continuation
    setBlock label.block
    terminate .unreachable
    return { terminated := true }
  | some merges =>
    update fun s => s.withLocals (restoreLocals s.func.locals merges)
    setBlock label.block
    return closingResult merged.resultType merged.result.value

def endLoop (label : JitLabel) : Emit Closing := do
  let nextBlock ← createBlock
  if label.terminated then
    setBlock nextBlock
    terminate .unreachable
    return { terminated := true }
  else
    let result ← jitPopIf label.resultType
    terminate (.branch nextBlock)
    setBlock nextBlock
    return closingResult label.resultType result

/-- The three kinds of label: the function body, a block and a loop. -/
def endLabel (label : JitLabel) (labelsCount : ℕ) : Emit Closing :=
  if labelsCount = 1 then endFuncbody label
  else if label.loop then endLoop label
  else endBlock label

/-- Push the result into the enclosing label. -/
def handResult : Option JitValue → Emit Unit
  | some v => do
    let _ ← labelAt 0
    jitPush v.type v.value
  | none => return

/-- Pop the label and give the enclosing one its due. -/
def closeLabel (c : Closing) : Emit Unit := do
  update fun s => s.withLabels s.func.labels.tail
  handResult c.push
  if c.terminated then
    let _ ← labelAt 0
    setTerminated

/-- `jit_wasm_end`. -/
def jitWasmEnd : Emit Unit := do
  let label ← labelAt 0
  let closing ← endLabel label (← read (·.func.labels.length))
  let label ← labelAt 0
  check (label.terminated = true ∨ label.stack = [])
  closeLabel closing

/-! ### Dead code -/

/-- `jit_skip_leb`. -/
def skipLeb : List UInt8 → Option (UInt8 × List UInt8)
  | [] => none
  | byte :: rest => if byte.toNat &&& 0x80 ≠ 0 then skipLeb rest else some (byte, rest)

def jitSkipLeb : Pull Unit := fun b =>
  (skipLeb b.data).map fun (last, rest) => ((), ⟨last, rest⟩)

/-- The bytes after the opcode that belong to an instruction without a nested body. At
`UINT32_MAX` targets the counter of `br_table` wraps and the loop only ends by failing. -/
def jitSkipImmediates (opcode : ℕ) : Pull Unit := do
  if opcode = 0x0C ∨ opcode = 0x0D ∨ opcode = 0x10 ∨ (0x20 ≤ opcode ∧ opcode ≤ 0x24) ∨
      opcode = 0x41 ∨ opcode = 0x42 then jitSkipLeb
  else if opcode = 0x0E then
    let count ← bufferPullU32
    check (count ≠ 2 ^ 32 - 1)
    forFrom (fun _ => jitSkipLeb) 0 (count + 1)
  else if opcode = 0x11 then
    jitSkipLeb
    jitSkipLeb
  else if 0x28 ≤ opcode ∧ opcode ≤ 0x3E then
    let _ ← jitPullMemarg
  else if opcode = 0x3F ∨ opcode = 0x40 then
    let _ ← bufferPullU8
  else if opcode = 0x43 then
    let _ ← bufferPull 4
  else if opcode = 0x44 then
    let _ ← bufferPull 8
  else if opcode = 0x00 ∨ opcode = 0x01 ∨ opcode = 0x05 ∨ opcode = 0x0F ∨ opcode = 0x1A ∨ opcode = 0x1B ∨
      (0x45 ≤ opcode ∧ opcode ≤ 0xC4) then return
  else if opcode = 0xFC then
    let sub ← bufferPullU32
    if sub ≤ 7 then return
    else if sub = 8 then
      jitSkipLeb
      let _ ← bufferPull 1
    else if sub = 9 then jitSkipLeb
    else if sub = 10 then
      let _ ← bufferPull 2
    else if sub = 11 then
      let _ ← bufferPull 1
    else fail
  else if opcode = 0xFE then
    let sub ← bufferPullU32
    check (sub ≤ 0x02 ∨ (0x10 ≤ sub ∧ sub ≤ 0x4E))
    let _ ← jitPullMemarg
  else fail

/-- `jit_skip_unreachable`. -/
def jitSkipUnreachable (opcode : ℕ) : Handler Unit := do
  if opcode = 0x02 ∨ opcode = 0x03 ∨ opcode = 0x04 then
    let _ ← pull jitWasmPullBlockType
    emit (modifyLabel 0 fun l => { l with unreachableDepth := l.unreachableDepth + 1 })
  else if opcode = 0x0B then
    let label ← emit (labelAt 0)
    if label.unreachableDepth = 0 then emit jitWasmEnd
    else emit (modifyLabel 0 fun l => { l with unreachableDepth := l.unreachableDepth - 1 })
  else pull (jitSkipImmediates opcode)

/-! ### The opcode switch -/

/-- The handlers that stay in their block, by opcode; `none` is an unknown opcode. -/
def dataHandler (opcode : ℕ) : Option (Handler Unit) :=
  if opcode = 0x01 then some jitWasmNop
  else if opcode = 0x1A then some jitWasmDrop
  else if opcode = 0x1B then some jitWasmSelect
  else if opcode = 0x10 then some jitWasmCall
  else if opcode = 0x11 then some jitWasmCallIndirect
  else if opcode = 0x20 then some jitWasmLocalGet
  else if opcode = 0x21 then some jitWasmLocalSet
  else if opcode = 0x22 then some jitWasmLocalTee
  else if opcode = 0x23 then some jitWasmGlobalGet
  else if opcode = 0x24 then some jitWasmGlobalSet
  else if 0x28 ≤ opcode ∧ opcode ≤ 0x35 then some jitWasmLoad
  else if 0x36 ≤ opcode ∧ opcode ≤ 0x3E then some jitWasmStore
  else if opcode = 0x3F then some jitWasmMemorySize
  else if opcode = 0x40 then some jitWasmMemoryGrow
  else if opcode = 0x41 then some jitWasmI32Const
  else if opcode = 0x42 then some jitWasmI64Const
  else if opcode = 0x43 then some jitWasmF32Const
  else if opcode = 0x44 then some jitWasmF64Const
  else if 0x45 ≤ opcode ∧ opcode ≤ 0x5A then some jitWasmCmpi
  else if 0x5B ≤ opcode ∧ opcode ≤ 0x66 then some jitWasmCmpf
  else if 0x67 ≤ opcode ∧ opcode ≤ 0x69 then some jitWasmUnaryopi
  else if 0x6A ≤ opcode ∧ opcode ≤ 0x73 then some jitWasmBinopi
  else if 0x74 ≤ opcode ∧ opcode ≤ 0x78 then some jitWasmShift
  else if 0x79 ≤ opcode ∧ opcode ≤ 0x7B then some jitWasmUnaryopi
  else if 0x7C ≤ opcode ∧ opcode ≤ 0x85 then some jitWasmBinopi
  else if 0x86 ≤ opcode ∧ opcode ≤ 0x8A then some jitWasmShift
  else if 0x8B ≤ opcode ∧ opcode ≤ 0x91 then some jitWasmUnaryopf
  else if 0x92 ≤ opcode ∧ opcode ≤ 0x98 then some jitWasmBinopf
  else if 0x99 ≤ opcode ∧ opcode ≤ 0x9F then some jitWasmUnaryopf
  else if 0xA0 ≤ opcode ∧ opcode ≤ 0xA6 then some jitWasmBinopf
  else if opcode = 0xA7 then some jitWasmIconv
  else if 0xAC ≤ opcode ∧ opcode ≤ 0xAD then some jitWasmIconv
  else if 0xB2 ≤ opcode ∧ opcode ≤ 0xB5 then some jitWasmItof
  else if opcode = 0xB6 then some jitWasmFconv
  else if 0xB7 ≤ opcode ∧ opcode ≤ 0xBA then some jitWasmItof
  else if opcode = 0xBB then some jitWasmFconv
  else if 0xBC ≤ opcode ∧ opcode ≤ 0xBF then some jitWasmBitcast
  else if 0xC0 ≤ opcode ∧ opcode ≤ 0xC4 then some jitWasmIconv
  else if opcode = 0xFC then some jitWasmFcPrefix
  else if opcode = 0xFE then some jitWasmAtomicPrefix
  else none

/-- The switch of `jit_wasm_opcode` in a live label. -/
def jitLiveOpcode (opcode : ℕ) : Handler Unit :=
  match opcode with
  | 0x0B => emit jitWasmEnd
  | 0x00 => jitWasmUnreachable
  | 0x02 => jitWasmBlock
  | 0x03 => jitWasmLoop
  | 0x0C => jitWasmBr
  | 0x0D => jitWasmBrIf
  | 0x0E => jitWasmBrTable
  | 0x0F => jitWasmReturn
  | op => (dataHandler op).getD fail

/-- `jit_wasm_opcode`. -/
def jitWasmOpcode : Handler Unit := do
  let opcode ← pull bufferPullU8
  let label ← emit (labelAt 0)
  if label.terminated then jitSkipUnreachable opcode.toNat else jitLiveOpcode opcode.toNat

end SpidirWasm.Jit
