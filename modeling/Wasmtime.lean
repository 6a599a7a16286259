import Wasmtime.Api.Externals
import Wasmtime.Api.ImportBinding
import Wasmtime.Api.Marshalling
import Wasmtime.Api.ModuleReading
import Wasmtime.Api.TableReads
import Wasmtime.Cache.Cleanup
import Wasmtime.Cache.Config
import Wasmtime.Cache.Worker
import Wasmtime.Cache.Listing
import Wasmtime.Cache.Locks
import Wasmtime.Cache.Paths
import Wasmtime.Cache.Settings
import Wasmtime.Cache.Store
import Wasmtime.Debug.Attribution
import Wasmtime.Debug.BaseTypeName
import Wasmtime.Debug.CloneUnit
import Wasmtime.Debug.Dependencies
import Wasmtime.Debug.Expression
import Wasmtime.Debug.LineProgram
import Wasmtime.Debug.LookupIndex
import Wasmtime.Debug.RangeInfo
import Wasmtime.Debug.RangeTermination
import Wasmtime.Debug.Simulate
import Wasmtime.Debug.TranslateRanges
import Wasmtime.Debug.ValueLabelRanges
import Wasmtime.Environ.HashForCache
import Wasmtime.Environ.Module
import Wasmtime.Environ.ModuleEnviron
import Wasmtime.Environ.Plan
import Wasmtime.Environ.VmOffsets
import Wasmtime.InterfaceTypes.Bindings
import Wasmtime.InterfaceTypes.Strings
import Wasmtime.Jit.Accessors
import Wasmtime.Jit.CallIndirect
import Wasmtime.Jit.CodeMemory
import Wasmtime.Jit.HeapBound
import Wasmtime.Jit.ImportStyle
import Wasmtime.Jit.Instantiate
import Wasmtime.Jit.Link
import Wasmtime.Jit.Liveness
import Wasmtime.Jit.Matching
import Wasmtime.Jit.Relocate
import Wasmtime.Jit.SegmentStart
import Wasmtime.Jit.Trampoline
import Wasmtime.Jit.TrapGuards
import Wasmtime.Jit.World
import Wasmtime.Lib.Acyclic
import Wasmtime.Lib.Blocks
import Wasmtime.Lib.Buffer
import Wasmtime.Lib.EndToEnd
import Wasmtime.Lib.Extent
import Wasmtime.Lib.Fallible
import Wasmtime.Lib.LastWrite
import Wasmtime.Lib.Links
import Wasmtime.Lib.LittleEndian
import Wasmtime.Lib.LongestPrefix
import Wasmtime.Lib.Pathname
import Wasmtime.Lib.RefCount
import Wasmtime.Lib.Residue
import Wasmtime.Lib.Runs
import Wasmtime.Lib.Triple
import Wasmtime.Lib.Worklist
import Wasmtime.Lib.Writes
import Wasmtime.Lightbeam.Backend
import Wasmtime.Lightbeam.Emit
import Wasmtime.Lightbeam.Flow
import Wasmtime.Lightbeam.Labels
import Wasmtime.Lightbeam.Meaning
import Wasmtime.Lightbeam.Microwasm
import Wasmtime.Lightbeam.Moves
import Wasmtime.Lightbeam.Semantics
import Wasmtime.Lightbeam.Simulation
import Wasmtime.Lightbeam.Spill
import Wasmtime.Lightbeam.Wasm
import Wasmtime.Lightbeam.X86
import Wasmtime.Obj.Context
import Wasmtime.Obj.Functions
import Wasmtime.Runtime.Alignment
import Wasmtime.Runtime.Initialize
import Wasmtime.Runtime.Instance
import Wasmtime.Runtime.JitInt
import Wasmtime.Runtime.Layout
import Wasmtime.Runtime.Memory
import Wasmtime.Runtime.MemoryGrow
import Wasmtime.Runtime.Mmap
import Wasmtime.Runtime.SigRegistry
import Wasmtime.Runtime.Table
import Wasmtime.Runtime.TrapHandlers
import Wasmtime.Wasi.Args
import Wasmtime.Wasi.DirectoryRights
import Wasmtime.Wasi.FdTable
import Wasmtime.Wasi.Holding
import Wasmtime.Wasi.Iovec
import Wasmtime.Wasi.LockDiscipline
import Wasmtime.Wasi.PathGet
import Wasmtime.Wasi.PathLease
import Wasmtime.Wasi.PollOneoff
import Wasmtime.Wasi.RandomUniform
import Wasmtime.Wasi.Readdir
import Wasmtime.Wasi.Rights
import Wasmtime.Wasi.Syscalls
import Wasmtime.Wasi.TableInvariant
import Wasmtime.Wasi.TableRuns
import Wasmtime.Wasi.Translate
import Wasmtime.Wast.Runner
