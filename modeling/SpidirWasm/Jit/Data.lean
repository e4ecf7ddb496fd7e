import SpidirWasm.Jit.State

/-! The handlers of `inst.c` that stay in their block: parametric, variable, memory,
numeric and atomic instructions and the two calls. A handler that serves several
opcodes reads the one it was called for back from the byte before the cursor. -/

namespace SpidirWasm.Jit

open Checked
open Spidir (Inst Value ValueType MemSize Icmp Fcmp Binop Unop)

/-! ### Parametric instructions -/

def jitWasmNop : Handler Unit := pure ()

def jitWasmDrop : Handler Unit := emit do
  let _ ← jitPopAny

def jitWasmSelect : Handler Unit := emit do
  let c ← jitPop .i32
  let val2 ← jitPopAny
  let val1 ← jitPopAny
  check (val1.type = val2.type)
  let value ← build (.select c val1.value val2.value)
  jitPush val1.type value

/-! ### Calls -/

/-- Push the result of a call that has one. -/
def pushResult (retType : ValueType) (value : Value) : Emit Unit :=
  if retType = .none then return else jitPush retType value

def jitWasmCall : Handler Unit := do
  let funcidx ← pull bufferPullU32
  emit do
    context (jitPrepareFunction funcidx)
    let ctx ← read EmitState.ctx
    let callee ← lift ctx.functions[funcidx]?
    let type ← lift (wasmGetFuncType ctx.module funcidx)
    let memBase ← build (.param 0)
    let stateBase ← build (.param 1)
    let args ← popArgs type.argTypes
    let retVal ← build (.call callee.spidir (memBase :: stateBase :: args))
    let retType ← lift (jitRetType type)
    pushResult retType retVal

/-- The bounds check of `jit_wasm_call_indirect`, which leaves the current block for
one that is reached only with an index inside the table. -/
def jitGuardIndex (length : ℕ) (idx : Value) : Emit Unit := do
  let inBounds ← build (.icmp .ult .i32 idx (← build (.iconst .i32 (BitVec.ofNat 64 length))))
  let okBlock ← createBlock
  let trapBlock ← createBlock
  terminate (.brcond inBounds okBlock trapBlock)
  setBlock trapBlock
  jitEmitTrap
  setBlock okBlock

/-- The type id of `jit_cfi_get_type_id` is the type's index. -/
def jitWasmCallIndirect : Handler Unit := do
  let typeidx ← pull bufferPullU32
  let tableidx ← pull bufferPullU32
  emit do
    let ctx ← read EmitState.ctx
    let type ← lift ctx.module.types[typeidx]?
    check (tableidx < ctx.module.tables.length)
    let table ← lift ctx.tables[tableidx]?
    context (update fun c => { c with tables := c.tables.modify tableidx fun t => { t with used := true } })
    let idx ← jitPop .i32
    jitGuardIndex table.length idx
    let tablePtr ← build (.globaladdr table.global)
    let idx64 ← jitEmitZext64 idx
    let slotOffset ← build (.binop .imul idx64 (← build (.iconst .i64 8)))
    let slotPtr ← build (.ptroff tablePtr slotOffset)
    let target ← build (.load .size8 .ptr slotPtr)
    let memBase ← build (.param 0)
    let stateBase ← build (.param 1)
    let typeId ← build (.iconst .i64 (BitVec.ofNat 64 typeidx))
    let args ← popArgs type.argTypes
    let argTypes ← lift (jitArgTypes type)
    let retType ← lift (jitRetType type)
    let ret ← build (.callind retType (.ptr :: .ptr :: .i64 :: argTypes) target
      (memBase :: stateBase :: typeId :: args))
    pushResult retType ret

/-! ### Variable instructions -/

def jitWasmLocalGet : Handler Unit := do
  let index ← pull bufferPullU32
  emit do
    let l ← lift (← read (·.func.locals))[index]?
    check (l.value ≠ none)
    jitPush l.type l.value

/-- Store into a local that keeps its type. -/
def setLocal (index : ℕ) (value : Value) : Emit Unit :=
  update fun s => s.withLocals (s.func.locals.modify index fun l => { l with value })

def jitWasmLocalSet : Handler Unit := do
  let index ← pull bufferPullU32
  emit do
    let l ← lift (← read (·.func.locals))[index]?
    let value ← jitPop l.type
    setLocal index value

def jitWasmLocalTee : Handler Unit := do
  let index ← pull bufferPullU32
  emit do
    let l ← lift (← read (·.func.locals))[index]?
    let value ← jitPop l.type
    setLocal index value
    jitPush l.type value

/-- The constant an immutable global is replaced by. -/
def globalConst (type : ValueType) (bits : ℕ) : Option Inst :=
  match type with
  | .i32 => some (.iconst .i32 (BitVec.ofNat 64 bits))
  | .i64 => some (.iconst .i64 (BitVec.ofNat 64 bits))
  | .f32 => some (.fconst32 (BitVec.ofNat 32 bits))
  | .f64 => some (.fconst64 (BitVec.ofNat 64 bits))
  | _ => none

/-- The address of a slot of the state. -/
def stateSlot (offset : ℕ) : Emit Value := do
  let stateBase ← build (.param 1)
  build (.ptroff stateBase (← build (.iconst .i64 (BitVec.ofNat 64 offset))))

/-- An immutable global is its constant, any other is loaded from its slot. -/
def readGlobal (global : JitGlobal) (bits : ℕ) : Emit Value :=
  match global.offset with
  | none => do build (← lift (globalConst global.type bits))
  | some offset => do
    let globalsBase ← stateSlot offset
    build (.load (← lift (jitGetSpidirMemSize global.type)) global.type globalsBase)

def jitWasmGlobalGet : Handler Unit := do
  let index ← pull bufferPullU32
  emit do
    let ctx ← read EmitState.ctx
    let wasmGlobal ← lift ctx.module.globals[index]?
    let global ← lift ctx.globals[index]?
    let value ← readGlobal global wasmGlobal.value.bits
    jitPush global.type value

def jitWasmGlobalSet : Handler Unit := do
  let index ← pull bufferPullU32
  emit do
    let ctx ← read EmitState.ctx
    check (index < ctx.module.globals.length)
    let global ← lift ctx.globals[index]?
    let offset ← lift global.offset
    let globalsBase ← stateSlot offset
    let value ← jitPop global.type
    let _ ← build (.store (← lift (jitGetSpidirMemSize global.type)) value globalsBase)

/-! ### Memory instructions -/

/-- `wasm_mem_arg_t`. -/
structure WasmMemArg where
  index : ℕ := 0
  align : ℕ := 0
  offset : ℕ := 0
  deriving DecidableEq, Repr, Inhabited

/-- `jit_pull_memarg`: an alignment from 64 on announces a memory index. -/
def jitPullMemarg : Pull WasmMemArg := do
  let align ← bufferPullU32
  if 64 ≤ align then
    let index ← bufferPullU32
    check (align - 64 < 64)
    let offset ← bufferPullU64
    return ⟨index, align - 64, offset⟩
  else
    let offset ← bufferPullU64
    return ⟨0, align, offset⟩

/-- The constant part of an address, which has to fit 32 bits. -/
def addMemOffset (memOffset : ℕ) (offset : Value) : Emit Value :=
  if memOffset = 0 then return offset
  else do
    check (memOffset ≤ 2 ^ 32 - 1)
    build (.binop .iadd offset (← build (.iconst .i64 (BitVec.ofNat 64 memOffset))))

/-- `jit_wasm_calculate_addr`. -/
def jitWasmCalculateAddr (memArg : WasmMemArg) (offset : Value) : Emit Value := do
  let offset ← jitEmitZext64 offset
  let offset ← addMemOffset memArg.offset offset
  let memBase ← build (.param 0)
  build (.ptroff memBase offset)

/-- What is done to a loaded value. -/
inductive Extend where
  | full | sign (width : ℕ) | zero (width : ℕ)
  deriving DecidableEq, Repr

def loadParams : ℕ → Option (ValueType × MemSize × Extend)
  | 0x28 => some (.i32, .size4, .full)
  | 0x29 => some (.i64, .size8, .full)
  | 0x2A => some (.f32, .size4, .full)
  | 0x2B => some (.f64, .size8, .full)
  | 0x2C => some (.i32, .size1, .sign 8)
  | 0x2D => some (.i32, .size1, .zero 8)
  | 0x2E => some (.i32, .size2, .sign 16)
  | 0x2F => some (.i32, .size2, .zero 16)
  | 0x30 => some (.i64, .size1, .sign 8)
  | 0x31 => some (.i64, .size1, .zero 8)
  | 0x32 => some (.i64, .size2, .sign 16)
  | 0x33 => some (.i64, .size2, .zero 16)
  | 0x34 => some (.i64, .size4, .sign 32)
  | 0x35 => some (.i64, .size4, .zero 32)
  | _ => none

/-- Widen a loaded value to its type. -/
def jitEmitExtend (type : ValueType) (value : Value) : Extend → Emit Value
  | .full => return value
  | .sign width => build (.unop (.sfill width) value)
  | .zero width => do
    let mask ← build (.iconst (if type = .i32 then .i32 else .i64) (BitVec.ofNat 64 (2 ^ width - 1)))
    build (.binop .and value mask)

def jitWasmLoad : Handler Unit := do
  let opcode ← pull bufferPrev
  let memArg ← pull jitPullMemarg
  emit do
    let (type, memSize, extend) ← lift (loadParams opcode.toNat)
    let offset ← jitPop .i32
    let addr ← jitWasmCalculateAddr memArg offset
    let value ← build (.load memSize type addr)
    let value ← jitEmitExtend type value extend
    jitPush type value

def storeParams : ℕ → Option (ValueType × MemSize)
  | 0x36 => some (.i32, .size4)
  | 0x37 => some (.i64, .size8)
  | 0x38 => some (.f32, .size4)
  | 0x39 => some (.f64, .size8)
  | 0x3A => some (.i32, .size1)
  | 0x3B => some (.i32, .size2)
  | 0x3C => some (.i64, .size1)
  | 0x3D => some (.i64, .size2)
  | 0x3E => some (.i64, .size4)
  | _ => none

def jitWasmStore : Handler Unit := do
  let opcode ← pull bufferPrev
  let memArg ← pull jitPullMemarg
  emit do
    let (type, memSize) ← lift (storeParams opcode.toNat)
    let value ← jitPop type
    let offset ← jitPop .i32
    let addr ← jitWasmCalculateAddr memArg offset
    let _ ← build (.store memSize value addr)

/-- A memory index byte, which has to be zero. -/
def pullMemidx : Pull Unit := do
  let byte ← bufferPullU8
  check (byte = 0)

/-- Declare a helper and call it. -/
def callHelper (kind : HelperKind) (args : List Value) : Emit Value := do
  let helper ← context (jitGetHelper kind)
  build (.call helper args)

def jitWasmMemorySize : Handler Unit := do
  pull pullMemidx
  emit do
    let memBase ← build (.param 0)
    let stateBase ← build (.param 1)
    let result ← callHelper .memorySize [memBase, stateBase]
    jitPush .i32 result

def jitWasmMemoryGrow : Handler Unit := do
  pull pullMemidx
  emit do
    let n ← jitPop .i32
    let memBase ← build (.param 0)
    let stateBase ← build (.param 1)
    let result ← callHelper .memoryGrow [memBase, stateBase, n]
    jitPush .i32 result

/-- The slot of a passive data segment; an active one has none. -/
def dataOffset (dataidx : ℕ) : Emit ℕ := do
  let ctx ← read EmitState.ctx
  check (dataidx < ctx.module.data.length)
  let data ← lift ctx.data[dataidx]?
  lift data.offset

/-- A wasm address as a pointer. -/
def memoryPtr (memBase addr : Value) : Emit Value := do
  build (.ptroff memBase (← jitEmitZext64 addr))

def jitWasmMemoryInit : Handler Unit := do
  let dataidx ← pull bufferPullU32
  pull pullMemidx
  emit do
    let offset ← dataOffset dataidx
    let n ← jitPop .i32
    let srcOffset ← jitPop .i32
    let dst ← jitPop .i32
    let slot ← stateSlot offset
    let dataPtr ← build (.load .size8 .ptr slot)
    let segment ← lift (← read (·.ctx.module.data))[dataidx]?
    let memBase ← build (.param 0)
    let dataLen ← build (.iconst .i32 (BitVec.ofNat 64 segment.data.length))
    let dst ← memoryPtr memBase dst
    let _ ← callHelper .memoryInit [dst, dataPtr, dataLen, srcOffset, n]

def jitWasmDataDrop : Handler Unit := do
  let dataidx ← pull bufferPullU32
  emit do
    let offset ← dataOffset dataidx
    let slot ← stateSlot offset
    let null ← build (.iconst .ptr 0)
    let _ ← build (.store .size8 null slot)

def jitWasmMemoryCopy : Handler Unit := do
  pull (do pullMemidx; pullMemidx)
  emit do
    let n ← jitPop .i32
    let src ← jitPop .i32
    let dst ← jitPop .i32
    let memBase ← build (.param 0)
    let dst ← memoryPtr memBase dst
    let src ← memoryPtr memBase src
    let _ ← callHelper .memoryCopy [dst, src, n]

def jitWasmMemoryFill : Handler Unit := do
  pull pullMemidx
  emit do
    let n ← jitPop .i32
    let val ← jitPop .i32
    let dst ← jitPop .i32
    let memBase ← build (.param 0)
    let dst ← memoryPtr memBase dst
    let _ ← callHelper .memoryFill [dst, val, n]

/-! ### Numeric instructions -/

def jitWasmI32Const : Handler Unit := do
  let value ← pull bufferPullI32
  emit do
    jitPush .i32 (← build (.iconst .i32 (BitVec.ofNat 64 value)))

def jitWasmI64Const : Handler Unit := do
  let value ← pull bufferPullI64
  emit do
    jitPush .i64 (← build (.iconst .i64 (BitVec.ofNat 64 value)))

def jitWasmF32Const : Handler Unit := do
  let bytes ← pull (bufferPull 4)
  emit do
    jitPush .f32 (← build (.fconst32 (BitVec.ofNat 32 (leBits bytes))))

def jitWasmF64Const : Handler Unit := do
  let bytes ← pull (bufferPull 8)
  emit do
    jitPush .f64 (← build (.fconst64 (BitVec.ofNat 64 (leBits bytes))))

/-- The switch that opens a numeric handler: the type of an opcode in one of two
ranges, and its distance from the first of its range. -/
def opcodeRange (range32 range64 : ℕ × ℕ) (type32 type64 : ValueType) (opcode : ℕ) :
    Option (ValueType × ℕ) :=
  if range32.1 ≤ opcode ∧ opcode ≤ range32.2 then some (type32, opcode - range32.1)
  else if range64.1 ≤ opcode ∧ opcode ≤ range64.2 then some (type64, opcode - range64.1)
  else none

/-- The compare of `jit_wasm_cmpi`, and whether its arguments are swapped. -/
def icmpKind : ℕ → Option (Icmp × Bool)
  | 0 | 1 => some (.eq, false)
  | 2 => some (.ne, false)
  | 3 => some (.slt, false)
  | 4 => some (.ult, false)
  | 5 => some (.slt, true)
  | 6 => some (.ult, true)
  | 7 => some (.sle, false)
  | 8 => some (.ule, false)
  | 9 => some (.sle, true)
  | 10 => some (.ule, true)
  | _ => none

/-- The left argument of a compare; `eqz` compares with zero. -/
def cmpiLeft (type : ValueType) (op : ℕ) : Emit Value :=
  if op = 0 then build (.iconst type 0) else jitPop type

def jitWasmCmpi : Handler Unit := do
  let opcode ← pull bufferPrev
  emit do
    let (type, op) ← lift (opcodeRange (0x45, 0x4F) (0x50, 0x5A) .i32 .i64 opcode.toNat)
    let arg2 ← jitPop type
    let arg1 ← cmpiLeft type op
    let (kind, swap) ← lift (icmpKind op)
    let value ← build (if swap then .icmp kind .i32 arg2 arg1 else .icmp kind .i32 arg1 arg2)
    jitPush .i32 value

/-- The compare of `jit_wasm_cmpf`, and whether its arguments are swapped. -/
def fcmpKind : ℕ → Option (Fcmp × Bool)
  | 0 => some (.oeq, false)
  | 1 => some (.une, false)
  | 2 => some (.olt, false)
  | 3 => some (.olt, true)
  | 4 => some (.ole, false)
  | 5 => some (.ole, true)
  | _ => none

def jitWasmCmpf : Handler Unit := do
  let opcode ← pull bufferPrev
  emit do
    let (type, op) ← lift (opcodeRange (0x5B, 0x60) (0x61, 0x66) .f32 .f64 opcode.toNat)
    let arg2 ← jitPop type
    let arg1 ← jitPop type
    let (kind, swap) ← lift (fcmpKind op)
    let value ← build (if swap then .fcmp kind .i32 arg2 arg1 else .fcmp kind .i32 arg1 arg2)
    jitPush .i32 value

/-- The type and the width of `extend8_s`, `extend16_s` and `extend32_s`. -/
def sfillParams : ℕ → Option (ValueType × ℕ)
  | 0xC0 => some (.i32, 8)
  | 0xC1 => some (.i32, 16)
  | 0xC2 => some (.i64, 8)
  | 0xC3 => some (.i64, 16)
  | 0xC4 => some (.i64, 32)
  | _ => none

def jitWasmIconv : Handler Unit := do
  let opcode ← pull bufferPrev
  emit do
    if opcode = 0xA7 then
      let v ← jitPop .i64
      jitPush .i32 (← build (.unop .itrunc v))
    else if opcode = 0xAC then
      let v ← jitPop .i32
      let e ← build (.unop .iext v)
      jitPush .i64 (← build (.unop (.sfill 32) e))
    else if opcode = 0xAD then
      let v ← jitPop .i32
      jitPush .i64 (← jitEmitZext64 v)
    else
      let (type, width) ← lift (sfillParams opcode.toNat)
      let v ← jitPop type
      jitPush type (← build (.unop (.sfill width) v))

/-- `in64`, `out64` and the signedness of a saturating truncation, by sub-opcode. -/
def truncSatParams : ℕ → Option (Bool × Bool × Bool)
  | 0 => some (false, false, false)
  | 1 => some (false, false, true)
  | 2 => some (true, false, false)
  | 3 => some (true, false, true)
  | 4 => some (false, true, false)
  | 5 => some (false, true, true)
  | 6 => some (true, true, false)
  | 7 => some (true, true, true)
  | _ => none

def jitWasmTruncSat : Handler Unit := do
  let sub ← pull bufferPrev
  emit do
    let (in64, out64, unsigned) ← lift (truncSatParams sub.toNat)
    let arg ← jitPop (floatType in64)
    let res ← callHelper (.truncSat out64 in64 unsigned) [arg]
    jitPush (intType out64) res

def jitWasmItof : Handler Unit := do
  let opcode ← pull bufferPrev
  emit do
    let (outType, op) ← lift (opcodeRange (0xB2, 0xB5) (0xB7, 0xBA) .f32 .f64 opcode.toNat)
    let value ← jitPop (if op &&& 2 ≠ 0 then .i64 else .i32)
    let result ← build (.unop (if op &&& 1 ≠ 0 then .uinttofloat outType else .sinttofloat outType) value)
    jitPush outType result

def jitWasmFconv : Handler Unit := do
  let opcode ← pull bufferPrev
  emit do
    if opcode = 0xB6 then
      let v ← jitPop .f64
      jitPush .f32 (← build (.unop .fnarrow v))
    else if opcode = 0xBB then
      let v ← jitPop .f32
      jitPush .f64 (← build (.unop .fwiden v))
    else fail

/-- From and to which type a bitcast goes. -/
def bitcastParams : ℕ → Option (ValueType × ValueType)
  | 0xBC => some (.f32, .i32)
  | 0xBD => some (.f64, .i64)
  | 0xBE => some (.i32, .f32)
  | 0xBF => some (.i64, .f64)
  | _ => none

def jitWasmBitcast : Handler Unit := do
  let opcode ← pull bufferPrev
  emit do
    let (fromType, toType) ← lift (bitcastParams opcode.toNat)
    let value ← jitPop fromType
    jitPush toType (← build (.unop (.bitcast toType) value))

/-- A rotation as `(x << n) | (x >> (mask & (bit_count - n)))`, or the other way round. -/
def jitEmitRotate (first second : Binop) (type : ValueType) (maskValue : ℕ) (value shiftAmt mask : Value) :
    Emit Value := do
  let bitCount ← build (.iconst type (BitVec.ofNat 64 (maskValue + 1)))
  let one ← build (.binop first value shiftAmt)
  let rest ← build (.binop .isub bitCount shiftAmt)
  let rest ← build (.binop .and mask rest)
  let other ← build (.binop second value rest)
  build (.binop .or one other)

/-- The shift itself, by an amount already masked. -/
def jitEmitShift (type : ValueType) (maskValue op : ℕ) (value shiftAmt mask : Value) : Emit Value :=
  match op with
  | 0 => build (.binop .shl value shiftAmt)
  | 1 => build (.binop .ashr value shiftAmt)
  | 2 => build (.binop .lshr value shiftAmt)
  | 3 => jitEmitRotate .shl .lshr type maskValue value shiftAmt mask
  | 4 => jitEmitRotate .lshr .shl type maskValue value shiftAmt mask
  | _ => fail

def jitWasmShift : Handler Unit := do
  let opcode ← pull bufferPrev
  emit do
    let (type, op) ← lift (opcodeRange (0x74, 0x78) (0x86, 0x8A) .i32 .i64 opcode.toNat)
    let maskValue := if type = .i32 then 31 else 63
    let shiftAmt ← jitPop type
    let value ← jitPop type
    let mask ← build (.iconst type (BitVec.ofNat 64 maskValue))
    let shiftAmt ← build (.binop .and shiftAmt mask)
    let result ← jitEmitShift type maskValue op value shiftAmt mask
    jitPush type result

def floatUnary : ℕ → Option FloatUnary
  | 0 => some .abs
  | 1 => some .neg
  | 2 => some .ceil
  | 3 => some .floor
  | 4 => some .trunc
  | 5 => some .nearest
  | 6 => some .sqrt
  | _ => none

def jitWasmUnaryopf : Handler Unit := do
  let opcode ← pull bufferPrev
  emit do
    let (type, op) ← lift (opcodeRange (0x8B, 0x91) (0x99, 0x9F) .f32 .f64 opcode.toNat)
    let arg ← jitPop type
    let helper ← lift (floatUnary op)
    let value ← callHelper (.fUnary (type = .f64) helper) [arg]
    jitPush type value

/-- The node of a binary float operation, or the helper spidir has no node for. -/
def floatBinop : ℕ → Option (Binop ⊕ FloatBinary)
  | 0 => some (.inl .fadd)
  | 1 => some (.inl .fsub)
  | 2 => some (.inl .fmul)
  | 3 => some (.inl .fdiv)
  | 4 => some (.inr .min)
  | 5 => some (.inr .max)
  | 6 => some (.inr .copysign)
  | _ => none

/-- Build the node, or call the helper. -/
def jitEmitBinopf (type : ValueType) (arg1 arg2 : Value) : Binop ⊕ FloatBinary → Emit Value
  | .inl node => build (.binop node arg1 arg2)
  | .inr helper => callHelper (.fBinary (type = .f64) helper) [arg1, arg2]

def jitWasmBinopf : Handler Unit := do
  let opcode ← pull bufferPrev
  emit do
    let (type, op) ← lift (opcodeRange (0x92, 0x98) (0xA0, 0xA6) .f32 .f64 opcode.toNat)
    let arg2 ← jitPop type
    let arg1 ← jitPop type
    let result ← jitEmitBinopf type arg1 arg2 (← lift (floatBinop op))
    jitPush type result

def intUnop (type : ValueType) : ℕ → Option Unop
  | 0 => some (.lzcount type)
  | 1 => some (.tzcount type)
  | 2 => some (.popcount type)
  | _ => none

def jitWasmUnaryopi : Handler Unit := do
  let opcode ← pull bufferPrev
  emit do
    let (type, op) ← lift (opcodeRange (0x67, 0x69) (0x79, 0x7B) .i32 .i64 opcode.toNat)
    let arg ← jitPop type
    let node ← lift (intUnop type op)
    jitPush type (← build (.unop node arg))

/-- `(arg1 & ((arg2 == -1) - 1)) % arg2`, since spidir leaves `INT_MIN % -1` undefined. -/
def jitEmitSrem (type : ValueType) (arg1 arg2 : Value) : Emit Value := do
  let minusOne ← build (.iconst type (if type = .i32 then 0xFFFFFFFF else 0xFFFFFFFFFFFFFFFF))
  let isNegOne ← build (.icmp .eq type arg2 minusOne)
  let mask ← build (.binop .isub isNegOne (← build (.iconst type 1)))
  let arg1 ← build (.binop .and arg1 mask)
  build (.binop .srem arg1 arg2)

/-- A binary integer operation; only the remainder is more than its node. -/
def jitEmitBinopi (type : ValueType) (node : Binop) (arg1 arg2 : Value) : Emit Value :=
  if node = .srem then jitEmitSrem type arg1 arg2 else build (.binop node arg1 arg2)

def intBinop : ℕ → Option Binop
  | 0 => some .iadd
  | 1 => some .isub
  | 2 => some .imul
  | 3 => some .sdiv
  | 4 => some .udiv
  | 5 => some .srem
  | 6 => some .urem
  | 7 => some .and
  | 8 => some .or
  | 9 => some .xor
  | _ => none

def jitWasmBinopi : Handler Unit := do
  let opcode ← pull bufferPrev
  emit do
    let (type, op) ← lift (opcodeRange (0x6A, 0x73) (0x7C, 0x85) .i32 .i64 opcode.toNat)
    let arg2 ← jitPop type
    let arg1 ← jitPop type
    let node ← lift (intBinop op)
    let value ← jitEmitBinopi type node arg1 arg2
    jitPush type value

/-! ### Atomic instructions -/

def jitWasmAtomicNotify : Handler Unit := do
  let memArg ← pull jitPullMemarg
  emit do
    let count ← jitPop .i32
    let offset ← jitPop .i32
    let addr ← jitWasmCalculateAddr memArg offset
    jitPush .i32 (← callHelper .atomicNotify [addr, count])

/-- What `wait32` and `wait64` compare, and their helpers. -/
def waitParams : ℕ → Option (ValueType × HelperKind)
  | 0x01 => some (.i32, .atomicWait4)
  | 0x02 => some (.i64, .atomicWait8)
  | _ => none

def jitWasmAtomicWait : Handler Unit := do
  let sub ← pull bufferPrev
  let memArg ← pull jitPullMemarg
  emit do
    let (type, kind) ← lift (waitParams sub.toNat)
    let timeout ← jitPop .i64
    let expected ← jitPop type
    let offset ← jitPop .i32
    let addr ← jitWasmCalculateAddr memArg offset
    jitPush .i32 (← callHelper kind [addr, expected, timeout])

/-- The four widths in the order of the sub-opcodes of a family. -/
def atomicWidth : ℕ → Option AtomicWidth
  | 0 => some .w4
  | 1 => some .w8
  | 2 => some .w1
  | 3 => some .w2
  | _ => none

def jitWasmAtomicStore : Handler Unit := do
  let sub ← pull bufferPrev
  let memArg ← pull jitPullMemarg
  emit do
    check (0x17 ≤ sub.toNat)
    let w ← lift (atomicWidth (sub.toNat - 0x17))
    let value ← jitPop w.type
    let offset ← jitPop .i32
    let addr ← jitWasmCalculateAddr memArg offset
    let _ ← callHelper (.atomicStore w) [addr, value]

def jitWasmAtomicLoad : Handler Unit := do
  let sub ← pull bufferPrev
  let memArg ← pull jitPullMemarg
  emit do
    check (0x10 ≤ sub.toNat)
    let w ← lift (atomicWidth (sub.toNat - 0x10))
    let offset ← jitPop .i32
    let addr ← jitWasmCalculateAddr memArg offset
    jitPush w.type (← callHelper (.atomicLoad w) [addr])

def jitWasmAtomicRmwCmpexchg : Handler Unit := do
  let sub ← pull bufferPrev
  let memArg ← pull jitPullMemarg
  emit do
    check (0x48 ≤ sub.toNat)
    let w ← lift (atomicWidth (sub.toNat - 0x48))
    let replacement ← jitPop w.type
    let expected ← jitPop w.type
    let offset ← jitPop .i32
    let addr ← jitWasmCalculateAddr memArg offset
    jitPush w.type (← callHelper (.atomicRmw .cmpxchg w) [addr, expected, replacement])

/-- The operations of `jit_wasm_atomic_rmw_binop`, seven sub-opcodes apart. -/
def rmwOp : ℕ → Option RmwOp
  | 0 => some .add
  | 1 => some .sub
  | 2 => some .and
  | 3 => some .or
  | 4 => some .xor
  | 5 => some .xchg
  | _ => none

def jitWasmAtomicRmwBinop : Handler Unit := do
  let sub ← pull bufferPrev
  let memArg ← pull jitPullMemarg
  emit do
    check (0x1E ≤ sub.toNat)
    let op ← lift (rmwOp ((sub.toNat - 0x1E) / 7))
    let w ← lift (atomicWidth ((sub.toNat - 0x1E) % 7))
    let arg2 ← jitPop w.type
    let offset ← jitPop .i32
    let addr ← jitWasmCalculateAddr memArg offset
    jitPush w.type (← callHelper (.atomicRmw op w) [addr, arg2])

def jitWasmAtomicPrefix : Handler Unit := do
  let sub ← pull bufferPullU32
  if sub = 0x00 then jitWasmAtomicNotify
  else if 0x01 ≤ sub ∧ sub ≤ 0x02 then jitWasmAtomicWait
  else if 0x10 ≤ sub ∧ sub ≤ 0x16 then jitWasmAtomicLoad
  else if 0x17 ≤ sub ∧ sub ≤ 0x1D then jitWasmAtomicStore
  else if 0x1E ≤ sub ∧ sub ≤ 0x47 then jitWasmAtomicRmwBinop
  else if 0x48 ≤ sub ∧ sub ≤ 0x4E then jitWasmAtomicRmwCmpexchg
  else fail

def jitWasmFcPrefix : Handler Unit := do
  let sub ← pull bufferPullU32
  if sub ≤ 7 then jitWasmTruncSat
  else if sub = 8 then jitWasmMemoryInit
  else if sub = 9 then jitWasmDataDrop
  else if sub = 10 then jitWasmMemoryCopy
  else if sub = 11 then jitWasmMemoryFill
  else fail

end SpidirWasm.Jit
