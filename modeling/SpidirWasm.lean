import SpidirWasm.Logic.Moves
import SpidirWasm.Wasm.FunctionNames
import SpidirWasm.Jit.Function
import SpidirWasm.Jit.Skip
import SpidirWasm.Wasm.Valid
import SpidirWasm.Wasm.CustomSections
import SpidirWasm.Jit.Shape
import SpidirWasm.Host.Growth
import SpidirWasm.Host.Futex
import SpidirWasm.Jit.Reservation
import SpidirWasm.Jit.StateRuns
import SpidirWasm.Jit.EmitRuns
import SpidirWasm.Util.HmapRuns
import SpidirWasm.Util.HmapErrors
import SpidirWasm.Util.HmapProbes
import SpidirWasm.Util.VecGrowth
import SpidirWasm.Leb
import SpidirWasm.Wasm.ModuleFormat
import SpidirWasm.Jit.SubOpcodes
import SpidirWasm.Jit.ConstPools
import SpidirWasm.Jit.CodegenClosure
import SpidirWasm.Jit.LinkRuns
import SpidirWasm.Wasm.Exports
import SpidirWasm.Jit.Relocation
import SpidirWasm.Jit.MemArg
import SpidirWasm.Jit.LocalsVector
import SpidirWasm.Jit.Nesting
import SpidirWasm.Jit.DeadCode
import SpidirWasm.Jit.TableSlots
import SpidirWasm.Jit.IndirectCall
import SpidirWasm.Jit.Blobs
import SpidirWasm.Jit.IntegerOps
import SpidirWasm.Jit.LoadStore
import SpidirWasm.Jit.AtomicUpdates
import SpidirWasm.Jit.Alignment
import SpidirWasm.Jit.TruncSat
import SpidirWasm.Util.Elf64
import SpidirWasm.Jit.Capture
import SpidirWasm.Jit.DebugElf
import SpidirWasm.Jit.DebugFile
import SpidirWasm.Jit.DebugSymbols
import SpidirWasm.Jit.DebugSymtab
import SpidirWasm.Jit.DebugRelocs
import SpidirWasm.Jit.DebugExports
import SpidirWasm.Jit.CodegenSuccess
import SpidirWasm.Jit.Terminators
import SpidirWasm.Jit.WellTyped
import SpidirWasm.Jit.EdgeRows
