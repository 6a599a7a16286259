import Mathlib
import Wasmtime.Api.Marshalling

/-!
# Reading the imports and exports of a module

Model of `Module::new` and `read_imports_and_exports` (`wasmtime-api/src/module.rs`) over the types of
`wasmtime-api/src/types.rs`.

* `decode` stands for the readers of `wasmparser`: what `ModuleReader` yields for a byte string, section by
  section and entry by entry, each of which may be an error. It says nothing of the order of sections or of
  indices, which the readers do not check.
* `none` and `Stop.panic` are panics: an `assert!`, an `unimplemented!`, or an index out of bounds.
  `reserve_exact` is left out, on a 64-bit host it has no effect but on memory.
* `Represents`: what a type of the API says of a type of a module, read from the API's type back.
* `WasmModule`: the declarations of a module whose sections are in the order of the standard.

Nothing is validated before it is read, so the code panics on indices that have nothing before them and on
types it does not know.

Results: `Indexed.isSome_push` and `Stands.push` (one entry: it is read exactly when it is fine, and the lists
stay the index spaces, the imports and the exports of the entries before), `fine_of_valid` (a valid module
without shared memories and with numbers in its signatures is read), and the headline `readsExactly_iff`.
-/

namespace Wasmtime.Api.ReadModule

open Wasmtime.Marshal (ValType FuncType)

/-! ## What the readers yield -/

/-- `wasmparser::Type`. -/
inductive WasmType where
  | i32 | i64 | f32 | f64 | v128 | anyFunc | anyRef | func | emptyBlockType
  deriving DecidableEq, Repr

/-- `wasmparser::FuncType`. -/
structure WasmFuncType where
  form : WasmType
  params : List WasmType
  returns : List WasmType
  deriving DecidableEq, Repr

/-- `ResizableLimits`. -/
structure ResizableLimits where
  initial : UInt32
  maximum : Option UInt32
  deriving DecidableEq, Repr

/-- `wasmparser::TableType`. -/
structure WasmTableType where
  elementType : WasmType
  limits : ResizableLimits
  deriving DecidableEq, Repr

/-- `wasmparser::MemoryType`. -/
structure WasmMemoryType where
  limits : ResizableLimits
  shared : Bool
  deriving DecidableEq, Repr

/-- `wasmparser::GlobalType`. -/
structure WasmGlobalType where
  contentType : WasmType
  mutable : Bool
  deriving DecidableEq, Repr

/-- `ImportSectionEntryType`. -/
inductive ImportSectionEntryType where
  | function (index : UInt32)
  | table (tt : WasmTableType)
  | memory (mt : WasmMemoryType)
  | global (gt : WasmGlobalType)
  deriving DecidableEq, Repr

/-- `wasmparser::Import`. -/
structure Import where
  module : String
  field : String
  ty : ImportSectionEntryType
  deriving DecidableEq, Repr

/-- `ExternalKind`. -/
inductive ExternalKind where
  | function | table | memory | global
  deriving DecidableEq, Repr

/-- `wasmparser::Export`. -/
structure Export where
  field : String
  kind : ExternalKind
  index : UInt32
  deriving DecidableEq, Repr

/-- A section: its reader may not be had, and each of its entries may be an error. -/
inductive Section (E : Type) where
  | memory (reader : Except E (List (Except E WasmMemoryType)))
  | type (reader : Except E (List (Except E WasmFuncType)))
  | function (reader : Except E (List (Except E UInt32)))
  | global (reader : Except E (List (Except E WasmGlobalType)))
  | table (reader : Except E (List (Except E WasmTableType)))
  | «import» (reader : Except E (List (Except E Import)))
  | «export» (reader : Except E (List (Except E Export)))
  | other

/-- What `ModuleReader` yields. -/
abbrev Decoded (E : Type) := Except E (List (Except E (Section E)))

/-! ## The types of the API -/

/-- `Mutability`. -/
inductive Mutability where
  | const | var
  deriving DecidableEq, Repr

/-- `Limits`. -/
structure Limits where
  min : UInt32
  max : UInt32
  deriving DecidableEq, Repr

/-- `GlobalType`. -/
structure GlobalType where
  content : ValType
  mutability : Mutability
  deriving DecidableEq, Repr

/-- `TableType`. -/
structure TableType where
  element : ValType
  limits : Limits
  deriving DecidableEq, Repr

/-- `MemoryType`. -/
structure MemoryType where
  limits : Limits
  deriving DecidableEq, Repr

/-- `ExternType`. -/
inductive ExternType where
  | externFunc (ty : FuncType)
  | externGlobal (ty : GlobalType)
  | externTable (ty : TableType)
  | externMemory (ty : MemoryType)
  deriving DecidableEq, Repr

/-- `ImportType`. -/
structure ImportType where
  module : String
  name : String
  type : ExternType
  deriving DecidableEq, Repr

/-- `ExportType`. -/
structure ExportType where
  name : String
  type : ExternType
  deriving DecidableEq, Repr

/-! ## From one to the other -/

/-- `Limits::new` of the limits of a module, a missing maximum being `u32::MAX`. -/
def intoLimits (limits : ResizableLimits) : Limits :=
  ⟨limits.initial, limits.maximum.getD 4294967295⟩

/-- `into_memory_type`, with its assert. -/
def intoMemoryType (mt : WasmMemoryType) : Option MemoryType :=
  if mt.shared then none else some ⟨intoLimits mt.limits⟩

/-- `into_valtype`; `none` is its `unimplemented!`. -/
def intoValtype : WasmType → Option ValType
  | .i32 => some .i32
  | .i64 => some .i64
  | .f32 => some .f32
  | .f64 => some .f64
  | .v128 => some .v128
  | .anyFunc => some .funcRef
  | .anyRef => some .anyRef
  | .func => none
  | .emptyBlockType => none

/-- `into_global_type`. -/
def intoGlobalType (gt : WasmGlobalType) : Option GlobalType :=
  (intoValtype gt.contentType).map fun content => ⟨content, if gt.mutable then .var else .const⟩

/-- `into_func_type`, with its assert. -/
def intoFuncType (mt : WasmFuncType) : Option FuncType :=
  if mt.form = .func then
    (mt.params.mapM intoValtype).bind fun params =>
      (mt.returns.mapM intoValtype).bind fun returns => FuncType.new params returns
  else none

/-- `into_table_type`, with its assert. -/
def intoTableType (tt : WasmTableType) : Option TableType :=
  if tt.elementType = .anyFunc ∨ tt.elementType = .anyRef then
    (intoValtype tt.elementType).map fun ty => ⟨ty, intoLimits tt.limits⟩
  else none

/-! ## The loop -/

/-- The lists of `read_imports_and_exports`. -/
structure Reading where
  imports : List ImportType
  exports : List ExportType
  memories : List MemoryType
  tables : List TableType
  funcSig : List UInt32
  sigs : List FuncType
  globals : List GlobalType

/-- All of them empty. -/
def Reading.empty : Reading := ⟨[], [], [], [], [], [], []⟩

/-- An entry of one of the sections that are read. -/
inductive Item where
  | memory (mt : WasmMemoryType)
  | type (mt : WasmFuncType)
  | function (index : UInt32)
  | global (gt : WasmGlobalType)
  | table (tt : WasmTableType)
  | «import» (entry : Import)
  | «export» (entry : Export)
  deriving DecidableEq, Repr

namespace Reading

variable (st : Reading)

/-- The `r#type` of an entry of the section of imports, and the list that it grows. -/
def pushImport : ImportSectionEntryType → Option (Reading × ExternType)
  | .function index =>
    st.sigs[index.toNat]?.map fun sig =>
      ({ st with funcSig := st.funcSig ++ [index] }, .externFunc sig)
  | .table tt =>
    (intoTableType tt).map fun table =>
      ({ st with tables := st.tables ++ [table] }, .externTable table)
  | .memory mt =>
    (intoMemoryType mt).map fun memory =>
      ({ st with memories := st.memories ++ [memory] }, .externMemory memory)
  | .global gt =>
    (intoGlobalType gt).map fun global =>
      ({ st with globals := st.globals ++ [global] }, .externGlobal global)

/-- The `r#type` of an entry of the section of exports. -/
def exportType (entry : Export) : Option ExternType :=
  match entry.kind with
  | .function =>
    st.funcSig[entry.index.toNat]?.bind fun sigIndex =>
      st.sigs[sigIndex.toNat]?.map .externFunc
  | .table => st.tables[entry.index.toNat]?.map .externTable
  | .memory => st.memories[entry.index.toNat]?.map .externMemory
  | .global => st.globals[entry.index.toNat]?.map .externGlobal

/-- The body of the loop over the entries of a section. -/
def push : Item → Option Reading
  | .memory mt =>
    (intoMemoryType mt).map fun memory => { st with memories := st.memories ++ [memory] }
  | .type mt => (intoFuncType mt).map fun sig => { st with sigs := st.sigs ++ [sig] }
  | .function index => some { st with funcSig := st.funcSig ++ [index] }
  | .global gt =>
    (intoGlobalType gt).map fun global => { st with globals := st.globals ++ [global] }
  | .table tt => (intoTableType tt).map fun table => { st with tables := st.tables ++ [table] }
  | .import entry =>
    (st.pushImport entry.ty).map fun p =>
      { p.1 with imports := p.1.imports ++ [⟨entry.module, entry.field, p.2⟩] }
  | .export entry =>
    (st.exportType entry).map fun type =>
      { st with exports := st.exports ++ [⟨entry.field, type⟩] }

end Reading

/-- Why the code stops before the end: it returns an error, or it panics. -/
inductive Stop (E : Type) where
  | err (e : E)
  | panic
  deriving DecidableEq, Repr

section Loop

variable {E α : Type}

/-- The operator `?`. -/
def orReturn (r : Except E α) : Except (Stop E) α := r.mapError .err

/-- A value, or a panic. -/
def orPanic : Option α → Except (Stop E) α
  | some a => .ok a
  | none => .error .panic

/-- `for entry in section`. -/
def readEntries (item : α → Item) (st : Reading) (reader : Except E (List (Except E α))) :
    Except (Stop E) Reading := do
  let entries ← orReturn reader
  entries.foldlM (fun st entry => do
    let entry ← orReturn entry
    orPanic (st.push (item entry))) st

/-- The `match` on `section.code`. -/
def readSection (st : Reading) : Section E → Except (Stop E) Reading
  | .memory reader => readEntries .memory st reader
  | .type reader => readEntries .type st reader
  | .function reader => readEntries .function st reader
  | .global reader => readEntries .global st reader
  | .table reader => readEntries .table st reader
  | .import reader => readEntries .import st reader
  | .export reader => readEntries .export st reader
  | .other => pure st

/-- `read_imports_and_exports`. -/
def readImportsAndExports (decode : List UInt8 → Decoded E) (binary : List UInt8) :
    Except (Stop E) (List ImportType × List ExportType) := do
  let reader ← orReturn (decode binary)
  let st ← reader.foldlM (fun st sec => do
    let sec ← orReturn sec
    readSection st sec) Reading.empty
  pure (st.imports, st.exports)

end Loop

/-- `Module`. -/
structure Module (Store : Type) where
  store : Store
  binary : List UInt8
  imports : List ImportType
  exports : List ExportType

/-- `Module::new`. -/
def Module.new {E Store : Type} (decode : List UInt8 → Decoded E) (store : Store)
    (binary : List UInt8) : Except (Stop E) (Module Store) := do
  let r ← readImportsAndExports decode binary
  pure ⟨store, binary, r.1, r.2⟩

/-! ## What a module declares -/

/-- The type of an import or an export. -/
inductive WasmExtern where
  | func (ty : WasmFuncType)
  | table (ty : WasmTableType)
  | memory (ty : WasmMemoryType)
  | global (ty : WasmGlobalType)
  deriving DecidableEq, Repr

/-- The types, and the index spaces. A function is the index of its type. -/
structure Spaces where
  types : List WasmFuncType
  funcs : List UInt32
  tables : List WasmTableType
  memories : List WasmMemoryType
  globals : List WasmGlobalType

namespace Spaces

/-- The type of the item that an index denotes. -/
def denotes (sp : Spaces) (index : UInt32) : ExternalKind → Option WasmExtern
  | .function =>
    sp.funcs[index.toNat]?.bind fun sig => sp.types[sig.toNat]?.map .func
  | .table => sp.tables[index.toNat]?.map .table
  | .memory => sp.memories[index.toNat]?.map .memory
  | .global => sp.globals[index.toNat]?.map .global

/-- The type of an entry of the section of imports. -/
def importType (sp : Spaces) : ImportSectionEntryType → Option WasmExtern
  | .function index => sp.types[index.toNat]?.map .func
  | .table tt => some (.table tt)
  | .memory mt => some (.memory mt)
  | .global gt => some (.global gt)

/-- The items of one after those of the other. -/
def append (sp sp' : Spaces) : Spaces :=
  ⟨sp.types ++ sp'.types, sp.funcs ++ sp'.funcs, sp.tables ++ sp'.tables,
    sp.memories ++ sp'.memories, sp.globals ++ sp'.globals⟩

end Spaces

/-- The index of the type of an imported function. -/
def ImportSectionEntryType.func : ImportSectionEntryType → Option UInt32
  | .function index => some index
  | .table _ => none
  | .memory _ => none
  | .global _ => none

/-- An imported table. -/
def ImportSectionEntryType.table? : ImportSectionEntryType → Option WasmTableType
  | .function _ => none
  | .table tt => some tt
  | .memory _ => none
  | .global _ => none

/-- An imported memory. -/
def ImportSectionEntryType.memory? : ImportSectionEntryType → Option WasmMemoryType
  | .function _ => none
  | .table _ => none
  | .memory mt => some mt
  | .global _ => none

/-- An imported global. -/
def ImportSectionEntryType.global? : ImportSectionEntryType → Option WasmGlobalType
  | .function _ => none
  | .table _ => none
  | .memory _ => none
  | .global gt => some gt

/-- The declarations of a module. -/
structure WasmModule where
  types : List WasmFuncType
  imports : List Import
  functions : List UInt32
  tables : List WasmTableType
  memories : List WasmMemoryType
  globals : List WasmGlobalType
  exports : List Export

namespace WasmModule

variable (m : WasmModule)

/-- The index spaces of a module, in which imports come first. -/
def spaces : Spaces where
  types := m.types
  funcs := m.imports.filterMap (·.ty.func) ++ m.functions
  tables := m.imports.filterMap (·.ty.table?) ++ m.tables
  memories := m.imports.filterMap (·.ty.memory?) ++ m.memories
  globals := m.imports.filterMap (·.ty.global?) ++ m.globals

/-- The entries of the sections of a module in the order of the standard. -/
def items : List Item :=
  m.types.map .type ++ m.imports.map .import ++ m.functions.map .function ++ m.tables.map .table ++
    m.memories.map .memory ++ m.globals.map .global ++ m.exports.map .export

end WasmModule

/-! ## The entries that are reached -/

section Entries

variable {E α : Type}

/-- The entries of a section, and what is not one of them. -/
def Section.entriesWith (item : α → Item) : Except E (List (Except E α)) → List (Except E Item)
  | .error e => [.error e]
  | .ok entries => entries.map (Except.map item)

/-- The entries of a section that is read. -/
def Section.entries : Section E → List (Except E Item)
  | .memory reader => entriesWith .memory reader
  | .type reader => entriesWith .type reader
  | .function reader => entriesWith .function reader
  | .global reader => entriesWith .global reader
  | .table reader => entriesWith .table reader
  | .import reader => entriesWith .import reader
  | .export reader => entriesWith .export reader
  | .other => []

/-- The entries of what may be a section. -/
def entriesOf : Except E (Section E) → List (Except E Item)
  | .error e => [.error e]
  | .ok sec => sec.entries

/-- The entries of the sections of a module, in their order. -/
def Decoded.entries : Decoded E → List (Except E Item)
  | .error e => [.error e]
  | .ok sections => sections.flatMap entriesOf

/-- The entries before the first error. -/
def reached : List (Except E Item) → List Item
  | [] => []
  | .error _ :: _ => []
  | .ok item :: rest => item :: reached rest

end Entries

/-! ## When they are read -/

/-- A number or a vector. -/
def WasmType.IsNumber : WasmType → Prop
  | .i32 | .i64 | .f32 | .f64 | .v128 => True
  | .anyFunc | .anyRef | .func | .emptyBlockType => False

/-- A type that a value can have. -/
def WasmType.IsValue : WasmType → Prop
  | .i32 | .i64 | .f32 | .f64 | .v128 | .anyFunc | .anyRef => True
  | .func | .emptyBlockType => False

/-- A signature over numbers and vectors. -/
def WasmFuncType.Known (mt : WasmFuncType) : Prop :=
  mt.form = .func ∧ (∀ ty ∈ mt.params, ty.IsNumber) ∧ ∀ ty ∈ mt.returns, ty.IsNumber

/-- A table of references. -/
def WasmTableType.Known (tt : WasmTableType) : Prop :=
  tt.elementType = .anyFunc ∨ tt.elementType = .anyRef

/-- A memory of one thread. -/
def WasmMemoryType.Known (mt : WasmMemoryType) : Prop := mt.shared = false

/-- A global of a type of values. -/
def WasmGlobalType.Known (gt : WasmGlobalType) : Prop := gt.contentType.IsValue

/-- An entry of the section of imports is fine after items with the index spaces `sp`. -/
def ImportSectionEntryType.Fine (sp : Spaces) : ImportSectionEntryType → Prop
  | .function index => index.toNat < sp.types.length
  | .table tt => tt.Known
  | .memory mt => mt.Known
  | .global gt => gt.Known

/-- An entry is fine after items with the index spaces `sp`: its types are known, and its indices denote
items. -/
def Item.Fine (sp : Spaces) : Item → Prop
  | .memory mt => mt.Known
  | .type mt => mt.Known
  | .function _ => True
  | .global gt => gt.Known
  | .table tt => tt.Known
  | .import entry => entry.ty.Fine sp
  | .export entry => ∃ ty, sp.denotes entry.index entry.kind = some ty

/-- The item that an entry adds to the index spaces. -/
def Item.spaces : Item → Spaces
  | .memory mt => ⟨[], [], [], [mt], []⟩
  | .type mt => ⟨[mt], [], [], [], []⟩
  | .function index => ⟨[], [index], [], [], []⟩
  | .global gt => ⟨[], [], [], [], [gt]⟩
  | .table tt => ⟨[], [], [tt], [], []⟩
  | .import entry =>
    ⟨[], entry.ty.func.toList, entry.ty.table?.toList, entry.ty.memory?.toList, entry.ty.global?.toList⟩
  | .export _ => ⟨[], [], [], [], []⟩

/-- Every entry is fine after those before it. -/
def AllFine (sp : Spaces) : List Item → Prop
  | [] => True
  | item :: rest => item.Fine sp ∧ AllFine (sp.append item.spaces) rest

/-- No items. -/
def Spaces.empty : Spaces := ⟨[], [], [], [], []⟩

/-! ## Types that stand for types -/

/-- The type of a module that a `ValType` stands for. -/
def wasmType : ValType → WasmType
  | .i32 => .i32
  | .i64 => .i64
  | .f32 => .f32
  | .f64 => .f64
  | .v128 => .v128
  | .anyRef => .anyRef
  | .funcRef => .anyFunc

/-- Limits say the same, `u32::MAX` being no maximum. -/
structure LimitsFor (limits : ResizableLimits) (l : Limits) : Prop where
  min : l.min = limits.initial
  max : l.max = limits.maximum.getD (-1)

/-- Types of the API, and the types of a module that they stand for. -/
inductive Represents : WasmExtern → ExternType → Prop
  | func {mt : WasmFuncType} {ft : FuncType} (form : mt.form = .func)
      (params : ft.params.map wasmType = mt.params) (results : ft.results.map wasmType = mt.returns)
      (signature : FuncType.fromCraneliftSignature ft.signature = some ft) :
      Represents (.func mt) (.externFunc ft)
  | table {tt : WasmTableType} {ty : TableType} (element : wasmType ty.element = tt.elementType)
      (limits : LimitsFor tt.limits ty.limits) : Represents (.table tt) (.externTable ty)
  | memory {mt : WasmMemoryType} {ty : MemoryType} (limits : LimitsFor mt.limits ty.limits) :
      Represents (.memory mt) (.externMemory ty)
  | global {gt : WasmGlobalType} {ty : GlobalType} (content : wasmType ty.content = gt.contentType)
      (mutability : ty.mutability = .var ↔ gt.mutable = true) : Represents (.global gt) (.externGlobal ty)

/-- The import is the declared one. -/
structure ImportFor (sp : Spaces) (entry : Import) (i : ImportType) : Prop where
  module : i.module = entry.module
  name : i.name = entry.field
  type : ∃ ty, sp.importType entry.ty = some ty ∧ Represents ty i.type

/-- The export is the declared one. -/
structure ExportFor (sp : Spaces) (entry : Export) (e : ExportType) : Prop where
  name : e.name = entry.field
  type : ∃ ty, sp.denotes entry.index entry.kind = some ty ∧ Represents ty e.type

/-! ## Conversions -/

theorem intoValtype_eq_some {ty : WasmType} {v : ValType} (h : intoValtype ty = some v) :
    wasmType v = ty := by
  cases ty <;> cases h <;> rfl

theorem intoValtype_eq_none_iff (ty : WasmType) : intoValtype ty = none ↔ ¬ ty.IsValue := by
  cases ty <;> simp [intoValtype, WasmType.IsValue]

/-- The types that `FuncType::new` takes are numbers and vectors. -/
theorem intoValtype_bind_eq_none_iff (ty : WasmType) :
    (intoValtype ty).bind ValType.getCraneliftType = none ↔ ¬ ty.IsNumber := by
  cases ty <;> simp [intoValtype, WasmType.IsNumber, ValType.getCraneliftType]

theorem mapM_intoValtype {tys : List WasmType} {vs : List ValType}
    (h : tys.mapM intoValtype = some vs) : vs.map wasmType = tys := by
  induction tys generalizing vs with
  | nil => cases h; rfl
  | cons ty tys ih =>
    rw [List.mapM_cons] at h
    obtain ⟨v, hv, h⟩ := Option.bind_eq_some_iff.mp h
    obtain ⟨vs', hvs, h⟩ := Option.bind_eq_some_iff.mp h
    cases h
    rw [List.map_cons, intoValtype_eq_some hv, ih hvs]

/-- A list of types goes through both conversions when each of its types does. -/
theorem mapM_intoValtype_known (tys : List WasmType) :
    (∃ vs, tys.mapM intoValtype = some vs ∧ (vs.mapM ValType.getCraneliftType).isSome) ↔
      ∀ ty ∈ tys, ty.IsNumber := by
  induction tys with
  | nil => simp
  | cons ty tys ih =>
    have hone := not_congr (intoValtype_bind_eq_none_iff ty)
    rw [not_not, ← ne_eq, Option.ne_none_iff_exists'] at hone
    rw [List.forall_mem_cons, ← ih, ← hone]
    constructor
    · rintro ⟨vs, hvs, hc⟩
      rw [List.mapM_cons] at hvs
      obtain ⟨v, hv, hvs⟩ := Option.bind_eq_some_iff.mp hvs
      obtain ⟨vs', hvs', hvs⟩ := Option.bind_eq_some_iff.mp hvs
      cases hvs
      obtain ⟨cs, hcs⟩ := Option.isSome_iff_exists.mp hc
      rw [List.mapM_cons] at hcs
      obtain ⟨c, hc, hcs⟩ := Option.bind_eq_some_iff.mp hcs
      obtain ⟨cs', hcs', -⟩ := Option.bind_eq_some_iff.mp hcs
      exact ⟨⟨c, by rw [hv]; exact hc⟩, vs', hvs', by rw [hcs']; rfl⟩
    · rintro ⟨⟨c, hc⟩, vs, hvs, hcs⟩
      obtain ⟨v, hv, hc⟩ := Option.bind_eq_some_iff.mp hc
      obtain ⟨cs, hcs⟩ := Option.isSome_iff_exists.mp hcs
      refine ⟨v :: vs, ?_, ?_⟩
      · rw [List.mapM_cons, hv, hvs]
        rfl
      · rw [List.mapM_cons, hc, hcs]
        rfl

/-- `FuncType::new` needs nothing but known types. -/
theorem isSome_new (params results : List ValType) :
    (FuncType.new params results).isSome ↔
      (params.mapM ValType.getCraneliftType).isSome ∧
        (results.mapM ValType.getCraneliftType).isSome := by
  rw [FuncType.new]
  cases params.mapM ValType.getCraneliftType <;> cases results.mapM ValType.getCraneliftType <;> simp

theorem new_eq_some {params results : List ValType} {ft : FuncType}
    (h : FuncType.new params results = some ft) : ft.params = params ∧ ft.results = results := by
  obtain ⟨ps, -, h⟩ := Option.bind_eq_some_iff.mp h
  obtain ⟨rs, -, rfl⟩ := Option.map_eq_some_iff.mp h
  exact ⟨rfl, rfl⟩

theorem intoFuncType_eq_some {mt : WasmFuncType} {ft : FuncType} (h : intoFuncType mt = some ft) :
    Represents (.func mt) (.externFunc ft) := by
  rw [intoFuncType] at h
  split at h
  case isFalse => cases h
  case isTrue hform =>
    obtain ⟨params, hparams, h⟩ := Option.bind_eq_some_iff.mp h
    obtain ⟨results, hresults, h⟩ := Option.bind_eq_some_iff.mp h
    obtain ⟨hp, hr⟩ := new_eq_some h
    refine .func hform ?_ ?_ (FuncType.fromCraneliftSignature_new h)
    · rw [hp, mapM_intoValtype hparams]
    · rw [hr, mapM_intoValtype hresults]

theorem isSome_intoFuncType (mt : WasmFuncType) : (intoFuncType mt).isSome ↔ mt.Known := by
  rw [WasmFuncType.Known, ← mapM_intoValtype_known, ← mapM_intoValtype_known, intoFuncType]
  constructor
  · intro h
    obtain ⟨ft, h⟩ := Option.isSome_iff_exists.mp h
    split at h
    case isFalse => cases h
    case isTrue hform =>
      obtain ⟨params, hparams, h⟩ := Option.bind_eq_some_iff.mp h
      obtain ⟨results, hresults, h⟩ := Option.bind_eq_some_iff.mp h
      have hnew := (isSome_new params results).mp (by rw [h]; rfl)
      exact ⟨hform, ⟨params, hparams, hnew.1⟩, results, hresults, hnew.2⟩
  · rintro ⟨hform, ⟨params, hparams, hp⟩, results, hresults, hr⟩
    rw [if_pos hform, hparams, Option.bind_some, hresults, Option.bind_some]
    exact (isSome_new params results).mpr ⟨hp, hr⟩

theorem intoLimits_for (limits : ResizableLimits) : LimitsFor limits (intoLimits limits) :=
  ⟨rfl, rfl⟩

theorem intoMemoryType_eq_some {mt : WasmMemoryType} {ty : MemoryType}
    (h : intoMemoryType mt = some ty) : Represents (.memory mt) (.externMemory ty) := by
  rw [intoMemoryType] at h
  split at h
  · cases h
  · cases h
    exact .memory (intoLimits_for _)

theorem isSome_intoMemoryType (mt : WasmMemoryType) : (intoMemoryType mt).isSome ↔ mt.Known := by
  rw [intoMemoryType, WasmMemoryType.Known]
  cases mt.shared <;> simp

theorem intoTableType_eq_some {tt : WasmTableType} {ty : TableType}
    (h : intoTableType tt = some ty) : Represents (.table tt) (.externTable ty) := by
  rw [intoTableType] at h
  split at h
  · obtain ⟨v, hv, rfl⟩ := Option.map_eq_some_iff.mp h
    exact .table (intoValtype_eq_some hv) (intoLimits_for _)
  · cases h

theorem isSome_intoTableType (tt : WasmTableType) : (intoTableType tt).isSome ↔ tt.Known := by
  rw [intoTableType, WasmTableType.Known]
  split
  case isTrue h =>
    rcases h with h | h <;> simp [h, intoValtype]
  case isFalse h => simp [h]

theorem intoGlobalType_eq_some {gt : WasmGlobalType} {ty : GlobalType}
    (h : intoGlobalType gt = some ty) : Represents (.global gt) (.externGlobal ty) := by
  obtain ⟨v, hv, rfl⟩ := Option.map_eq_some_iff.mp h
  refine .global (intoValtype_eq_some hv) ?_
  cases gt.mutable <;> simp

theorem isSome_intoGlobalType (gt : WasmGlobalType) : (intoGlobalType gt).isSome ↔ gt.Known := by
  rw [intoGlobalType, WasmGlobalType.Known, Option.isSome_map, ← not_iff_not,
    Option.not_isSome_iff_eq_none, intoValtype_eq_none_iff]

/-! ## Index spaces -/

/-- The index spaces of a list of entries. -/
def spacesOf : List Item → Spaces
  | [] => .empty
  | item :: rest => item.spaces.append (spacesOf rest)

/-- The entry, when it is an import. -/
def Item.imports : Item → List Import
  | .memory _ => []
  | .type _ => []
  | .function _ => []
  | .global _ => []
  | .table _ => []
  | .import entry => [entry]
  | .export _ => []

/-- The entry, when it is an export. -/
def Item.exports : Item → List Export
  | .memory _ => []
  | .type _ => []
  | .function _ => []
  | .global _ => []
  | .table _ => []
  | .import _ => []
  | .export entry => [entry]

namespace Spaces

@[simp] theorem empty_append (sp : Spaces) : empty.append sp = sp := rfl

@[simp] theorem append_empty (sp : Spaces) : sp.append empty = sp := by
  simp [append, empty]

theorem append_assoc (sp sp' sp'' : Spaces) :
    (sp.append sp').append sp'' = sp.append (sp'.append sp'') := by
  simp [append]

/-- What an index denotes does not change when items are added. -/
theorem denotes_append {sp : Spaces} {index : UInt32} {kind : ExternalKind} {ty : WasmExtern}
    (h : sp.denotes index kind = some ty) (sp' : Spaces) :
    (sp.append sp').denotes index kind = some ty := by
  cases kind with
  | function =>
    obtain ⟨sig, hsig, h⟩ := Option.bind_eq_some_iff.mp h
    obtain ⟨mt, hmt, rfl⟩ := Option.map_eq_some_iff.mp h
    simp only [denotes, append]
    rw [List.getElem?_append_left (List.getElem?_eq_some_iff.mp hsig).1, hsig, Option.bind_some,
      List.getElem?_append_left (List.getElem?_eq_some_iff.mp hmt).1, hmt]
    rfl
  | table =>
    obtain ⟨tt, htt, rfl⟩ := Option.map_eq_some_iff.mp h
    simp only [denotes, append]
    rw [List.getElem?_append_left (List.getElem?_eq_some_iff.mp htt).1, htt]
    rfl
  | memory =>
    obtain ⟨mt, hmt, rfl⟩ := Option.map_eq_some_iff.mp h
    simp only [denotes, append]
    rw [List.getElem?_append_left (List.getElem?_eq_some_iff.mp hmt).1, hmt]
    rfl
  | global =>
    obtain ⟨gt, hgt, rfl⟩ := Option.map_eq_some_iff.mp h
    simp only [denotes, append]
    rw [List.getElem?_append_left (List.getElem?_eq_some_iff.mp hgt).1, hgt]
    rfl

theorem importType_append {sp : Spaces} {entry : ImportSectionEntryType} {ty : WasmExtern}
    (h : sp.importType entry = some ty) (sp' : Spaces) :
    (sp.append sp').importType entry = some ty := by
  cases entry with
  | function index =>
    obtain ⟨mt, hmt, rfl⟩ := Option.map_eq_some_iff.mp h
    simp only [importType, append]
    rw [List.getElem?_append_left (List.getElem?_eq_some_iff.mp hmt).1, hmt]
    rfl
  | table tt => exact h
  | memory mt => exact h
  | global gt => exact h

end Spaces

theorem ImportFor.append {sp : Spaces} {entry : Import} {i : ImportType} (h : ImportFor sp entry i)
    (sp' : Spaces) : ImportFor (sp.append sp') entry i where
  module := h.module
  name := h.name
  type := h.type.imp fun _ ht => ⟨Spaces.importType_append ht.1 sp', ht.2⟩

theorem ExportFor.append {sp : Spaces} {entry : Export} {e : ExportType} (h : ExportFor sp entry e)
    (sp' : Spaces) : ExportFor (sp.append sp') entry e where
  name := h.name
  type := h.type.imp fun _ ht => ⟨Spaces.denotes_append ht.1 sp', ht.2⟩

theorem spacesOf_append (items items' : List Item) :
    spacesOf (items ++ items') = (spacesOf items).append (spacesOf items') := by
  induction items with
  | nil => rfl
  | cons item items ih =>
    rw [List.cons_append, spacesOf, ih, spacesOf, Spaces.append_assoc]

/-- A list of entries that each add one item to one index space. -/
theorem spacesOf_map {α : Type} (item : α → Item) (sp : List α → Spaces) (hnil : sp [] = .empty)
    (hcons : ∀ a l, (item a).spaces.append (sp l) = sp (a :: l)) (l : List α) :
    spacesOf (l.map item) = sp l := by
  induction l with
  | nil => exact hnil.symm
  | cons a l ih => rw [List.map_cons, spacesOf, ih, hcons]

/-- The index spaces of a module are those of its entries. -/
theorem spacesOf_items (m : WasmModule) : spacesOf m.items = m.spaces := by
  have himports := spacesOf_map .import
    (fun l : List Import => ⟨[], l.filterMap (·.ty.func), l.filterMap (·.ty.table?),
      l.filterMap (·.ty.memory?), l.filterMap (·.ty.global?)⟩) rfl
    (fun a l => by rcases a with ⟨_, _, _ | _ | _ | _⟩ <;> rfl) m.imports
  simp only [WasmModule.items, spacesOf_append]
  rw [spacesOf_map .type (fun l => ⟨l, [], [], [], []⟩) rfl (fun _ _ => rfl), himports,
    spacesOf_map .function (fun l => ⟨[], l, [], [], []⟩) rfl (fun _ _ => rfl),
    spacesOf_map .table (fun l => ⟨[], [], l, [], []⟩) rfl (fun _ _ => rfl),
    spacesOf_map .memory (fun l => ⟨[], [], [], l, []⟩) rfl (fun _ _ => rfl),
    spacesOf_map .global (fun l => ⟨[], [], [], [], l⟩) rfl (fun _ _ => rfl),
    spacesOf_map .export (fun _ => .empty) rfl (fun _ _ => rfl)]
  simp [Spaces.append, WasmModule.spaces, Spaces.empty]

theorem flatMap_none {α β : Type} (l : List α) : l.flatMap (fun _ => ([] : List β)) = [] :=
  List.flatMap_eq_nil_iff.mpr fun _ _ => rfl

theorem imports_items (m : WasmModule) : m.items.flatMap Item.imports = m.imports := by
  simp [WasmModule.items, List.flatMap_map, Item.imports, flatMap_none]

theorem exports_items (m : WasmModule) : m.items.flatMap Item.exports = m.exports := by
  simp [WasmModule.items, List.flatMap_map, Item.exports, flatMap_none]

/-! ## One entry -/

/-- The lists of the loop stand for index spaces. -/
structure Reading.Indexed (sp : Spaces) (st : Reading) : Prop where
  sigs : List.Forall₂ (fun mt ft => Represents (.func mt) (.externFunc ft)) sp.types st.sigs
  funcSig : st.funcSig = sp.funcs
  tables : List.Forall₂ (fun tt ty => Represents (.table tt) (.externTable ty)) sp.tables st.tables
  memories :
    List.Forall₂ (fun mt ty => Represents (.memory mt) (.externMemory ty)) sp.memories st.memories
  globals :
    List.Forall₂ (fun gt ty => Represents (.global gt) (.externGlobal ty)) sp.globals st.globals

/-- **What the loop keeps.** Its lists are the index spaces, the imports and the exports of the entries
before. -/
structure Reading.Stands (sp : Spaces) (imports : List Import) (exports : List Export)
    (st : Reading) : Prop where
  indexed : st.Indexed sp
  imports : List.Forall₂ (ImportFor sp) imports st.imports
  exports : List.Forall₂ (ExportFor sp) exports st.exports

/-- What stands for an item is at its index. -/
theorem getElem?_forall₂ {α β : Type} {R : α → β → Prop} {l : List α} {l' : List β}
    (h : List.Forall₂ R l l') {i : Nat} {a : α} (ha : l[i]? = some a) :
    ∃ b, l'[i]? = some b ∧ R a b := by
  induction h generalizing i with
  | nil => simp at ha
  | cons hab _ ih =>
    cases i with
    | zero =>
      obtain rfl : _ = a := by simpa using ha
      exact ⟨_, rfl, hab⟩
    | succ i => exact ih (by simpa using ha)

theorem getElem?_forall₂_none {α β : Type} {R : α → β → Prop} {l : List α} {l' : List β}
    (h : List.Forall₂ R l l') {i : Nat} (ha : l[i]? = none) : l'[i]? = none := by
  rw [List.getElem?_eq_none_iff] at ha ⊢
  rwa [← h.length_eq]

namespace Reading

section Indexed

variable {sp : Spaces} {st : Reading}

theorem Indexed.grow (h : st.Indexed sp) (new : Spaces) (q : Reading) (hq : q.Indexed new) :
    Indexed (sp.append new) ⟨st.imports, st.exports, st.memories ++ q.memories,
      st.tables ++ q.tables, st.funcSig ++ q.funcSig, st.sigs ++ q.sigs, st.globals ++ q.globals⟩ where
  sigs := List.rel_append h.sigs hq.sigs
  funcSig := by rw [h.funcSig, hq.funcSig]; rfl
  tables := List.rel_append h.tables hq.tables
  memories := List.rel_append h.memories hq.memories
  globals := List.rel_append h.globals hq.globals

theorem Indexed.memory (h : st.Indexed sp) {mt : WasmMemoryType} {memory : MemoryType}
    (hm : intoMemoryType mt = some memory) :
    Indexed (sp.append ⟨[], [], [], [mt], []⟩) { st with memories := st.memories ++ [memory] } := by
  have hmt := intoMemoryType_eq_some hm
  simpa using h.grow ⟨[], [], [], [mt], []⟩ ⟨[], [], [memory], [], [], [], []⟩
    ⟨.nil, rfl, .nil, .cons hmt .nil, .nil⟩

theorem Indexed.table (h : st.Indexed sp) {tt : WasmTableType} {table : TableType}
    (ht : intoTableType tt = some table) :
    Indexed (sp.append ⟨[], [], [tt], [], []⟩) { st with tables := st.tables ++ [table] } := by
  have htt := intoTableType_eq_some ht
  simpa using h.grow ⟨[], [], [tt], [], []⟩ ⟨[], [], [], [table], [], [], []⟩
    ⟨.nil, rfl, .cons htt .nil, .nil, .nil⟩

theorem Indexed.global (h : st.Indexed sp) {gt : WasmGlobalType} {global : GlobalType}
    (hg : intoGlobalType gt = some global) :
    Indexed (sp.append ⟨[], [], [], [], [gt]⟩) { st with globals := st.globals ++ [global] } := by
  have hgt := intoGlobalType_eq_some hg
  simpa using h.grow ⟨[], [], [], [], [gt]⟩ ⟨[], [], [], [], [], [], [global]⟩
    ⟨.nil, rfl, .nil, .nil, .cons hgt .nil⟩

theorem Indexed.sig (h : st.Indexed sp) {mt : WasmFuncType} {sig : FuncType}
    (hs : intoFuncType mt = some sig) :
    Indexed (sp.append ⟨[mt], [], [], [], []⟩) { st with sigs := st.sigs ++ [sig] } := by
  have hmt := intoFuncType_eq_some hs
  simpa using h.grow ⟨[mt], [], [], [], []⟩ ⟨[], [], [], [], [], [sig], []⟩
    ⟨.cons hmt .nil, rfl, .nil, .nil, .nil⟩

theorem Indexed.func (h : st.Indexed sp) (index : UInt32) :
    Indexed (sp.append ⟨[], [index], [], [], []⟩) { st with funcSig := st.funcSig ++ [index] } := by
  simpa using h.grow ⟨[], [index], [], [], []⟩ ⟨[], [], [], [], [index], [], []⟩
    ⟨.nil, rfl, .nil, .nil, .nil⟩

/-- What an export denotes is found in the lists. -/
theorem Indexed.exportType (h : st.Indexed sp) {entry : Export} {ty : WasmExtern}
    (hty : sp.denotes entry.index entry.kind = some ty) :
    ∃ type, st.exportType entry = some type ∧ Represents ty type := by
  rw [Reading.exportType]
  cases hkind : entry.kind with
  | function =>
    rw [hkind] at hty
    obtain ⟨sig, hsig, hty⟩ := Option.bind_eq_some_iff.mp hty
    obtain ⟨mt, hmt, rfl⟩ := Option.map_eq_some_iff.mp hty
    obtain ⟨ft, hft, hrep⟩ := getElem?_forall₂ h.sigs hmt
    refine ⟨_, ?_, hrep⟩
    simp only [h.funcSig, hsig, Option.bind_some, hft, Option.map_some]
  | table =>
    rw [hkind] at hty
    obtain ⟨tt, htt, rfl⟩ := Option.map_eq_some_iff.mp hty
    obtain ⟨table, htable, hrep⟩ := getElem?_forall₂ h.tables htt
    exact ⟨_, by simp only [htable, Option.map_some], hrep⟩
  | memory =>
    rw [hkind] at hty
    obtain ⟨mt, hmt, rfl⟩ := Option.map_eq_some_iff.mp hty
    obtain ⟨memory, hmemory, hrep⟩ := getElem?_forall₂ h.memories hmt
    exact ⟨_, by simp only [hmemory, Option.map_some], hrep⟩
  | global =>
    rw [hkind] at hty
    obtain ⟨gt, hgt, rfl⟩ := Option.map_eq_some_iff.mp hty
    obtain ⟨global, hglobal, hrep⟩ := getElem?_forall₂ h.globals hgt
    exact ⟨_, by simp only [hglobal, Option.map_some], hrep⟩

/-- An index that denotes nothing is out of bounds. -/
theorem Indexed.exportType_none (h : st.Indexed sp) {entry : Export}
    (hty : sp.denotes entry.index entry.kind = none) : st.exportType entry = none := by
  rw [Reading.exportType]
  cases hkind : entry.kind with
  | function =>
    rw [hkind, Spaces.denotes] at hty
    simp only [h.funcSig]
    cases hsig : sp.funcs[entry.index.toNat]? with
    | none => rfl
    | some sig =>
      rw [hsig, Option.bind_some, Option.map_eq_none_iff] at hty
      rw [Option.bind_some, getElem?_forall₂_none h.sigs hty]
      rfl
  | table =>
    rw [hkind, Spaces.denotes, Option.map_eq_none_iff] at hty
    simp only [getElem?_forall₂_none h.tables hty, Option.map_none]
  | memory =>
    rw [hkind, Spaces.denotes, Option.map_eq_none_iff] at hty
    simp only [getElem?_forall₂_none h.memories hty, Option.map_none]
  | global =>
    rw [hkind, Spaces.denotes, Option.map_eq_none_iff] at hty
    simp only [getElem?_forall₂_none h.globals hty, Option.map_none]

/-- The item that an import adds to the index spaces. -/
theorem Indexed.pushImport (h : st.Indexed sp) {entry : Import} {p : Reading × ExternType}
    (hp : st.pushImport entry.ty = some p) :
    p.1.Indexed (sp.append (Item.import entry).spaces) ∧ p.1.imports = st.imports ∧
      p.1.exports = st.exports ∧ ∃ ty, sp.importType entry.ty = some ty ∧ Represents ty p.2 := by
  obtain ⟨module, field, ty⟩ := entry
  cases ty with
  | function index =>
    obtain ⟨sig, hsig, rfl⟩ := Option.map_eq_some_iff.mp hp
    have hlt : index.toNat < sp.types.length := by
      rw [h.sigs.length_eq]
      exact (List.getElem?_eq_some_iff.mp hsig).1
    obtain ⟨ft, hft, hrep⟩ := getElem?_forall₂ h.sigs (List.getElem?_eq_getElem hlt)
    obtain rfl : sig = ft := Option.some.inj (hsig.symm.trans hft)
    refine ⟨h.func index, rfl, rfl, _, ?_, hrep⟩
    simp only [Spaces.importType, List.getElem?_eq_getElem hlt, Option.map_some]
  | table tt =>
    obtain ⟨table, htable, rfl⟩ := Option.map_eq_some_iff.mp hp
    exact ⟨h.table htable, rfl, rfl, _, rfl, intoTableType_eq_some htable⟩
  | memory mt =>
    obtain ⟨memory, hmemory, rfl⟩ := Option.map_eq_some_iff.mp hp
    exact ⟨h.memory hmemory, rfl, rfl, _, rfl, intoMemoryType_eq_some hmemory⟩
  | global gt =>
    obtain ⟨global, hglobal, rfl⟩ := Option.map_eq_some_iff.mp hp
    exact ⟨h.global hglobal, rfl, rfl, _, rfl, intoGlobalType_eq_some hglobal⟩

theorem Indexed.isSome_pushImport (h : st.Indexed sp) (entry : ImportSectionEntryType) :
    (st.pushImport entry).isSome ↔ entry.Fine sp := by
  cases entry with
  | function index =>
    rw [Reading.pushImport, Option.isSome_map, ImportSectionEntryType.Fine, h.sigs.length_eq]
    simp
  | table tt => rw [Reading.pushImport, Option.isSome_map, isSome_intoTableType]; rfl
  | memory mt => rw [Reading.pushImport, Option.isSome_map, isSome_intoMemoryType]; rfl
  | global gt => rw [Reading.pushImport, Option.isSome_map, isSome_intoGlobalType]; rfl

/-- **The body of the loop goes through exactly for the entries that are fine.** -/
theorem Indexed.isSome_push (h : st.Indexed sp) (item : Item) :
    (st.push item).isSome ↔ item.Fine sp := by
  cases item with
  | memory mt => rw [push, Option.isSome_map, isSome_intoMemoryType]; rfl
  | type mt => rw [push, Option.isSome_map, isSome_intoFuncType]; rfl
  | function index => exact ⟨fun _ => trivial, fun _ => rfl⟩
  | global gt => rw [push, Option.isSome_map, isSome_intoGlobalType]; rfl
  | table tt => rw [push, Option.isSome_map, isSome_intoTableType]; rfl
  | «import» entry => rw [push, Option.isSome_map, h.isSome_pushImport]; rfl
  | «export» entry =>
    rw [push, Option.isSome_map, Item.Fine]
    cases hty : sp.denotes entry.index entry.kind with
    | none =>
      rw [h.exportType_none hty]
      simp
    | some ty =>
      obtain ⟨type, htype, -⟩ := h.exportType hty
      rw [htype]
      simp

end Indexed

section Step

variable {sp : Spaces} {is : List Import} {es : List Export} {st st' : Reading}

theorem Stands.empty : Stands .empty [] [] Reading.empty :=
  ⟨⟨.nil, rfl, .nil, .nil, .nil⟩, .nil, .nil⟩

/-- An entry that is neither an import nor an export. -/
theorem Stands.other (h : st.Stands sp is es) (new : Spaces) (hi : st'.Indexed (sp.append new))
    (himports : st'.imports = st.imports) (hexports : st'.exports = st.exports) :
    st'.Stands (sp.append new) (is ++ []) (es ++ []) := by
  rw [List.append_nil, List.append_nil]
  refine ⟨hi, ?_, ?_⟩
  · rw [himports]
    exact h.imports.imp fun _ _ h => h.append new
  · rw [hexports]
    exact h.exports.imp fun _ _ h => h.append new

/-- **The body of the loop keeps what the lists stand for.** -/
theorem Stands.push (h : st.Stands sp is es) {item : Item} (hpush : st.push item = some st') :
    st'.Stands (sp.append item.spaces) (is ++ item.imports) (es ++ item.exports) := by
  cases item with
  | memory mt =>
    obtain ⟨memory, hm, rfl⟩ := Option.map_eq_some_iff.mp hpush
    exact h.other _ (h.indexed.memory hm) rfl rfl
  | type mt =>
    obtain ⟨sig, hs, rfl⟩ := Option.map_eq_some_iff.mp hpush
    exact h.other _ (h.indexed.sig hs) rfl rfl
  | function index =>
    cases hpush
    exact h.other _ (h.indexed.func index) rfl rfl
  | global gt =>
    obtain ⟨global, hg, rfl⟩ := Option.map_eq_some_iff.mp hpush
    exact h.other _ (h.indexed.global hg) rfl rfl
  | table tt =>
    obtain ⟨table, ht, rfl⟩ := Option.map_eq_some_iff.mp hpush
    exact h.other _ (h.indexed.table ht) rfl rfl
  | «import» entry =>
    obtain ⟨p, hp, rfl⟩ := Option.map_eq_some_iff.mp hpush
    obtain ⟨hi, himports, hexports, ty, hty, hrep⟩ := h.indexed.pushImport hp
    have hstands := h.other _ hi himports hexports
    have hentry : ImportFor (sp.append (Item.import entry).spaces) entry
        ⟨entry.module, entry.field, p.2⟩ :=
      ⟨rfl, rfl, ty, Spaces.importType_append hty _, hrep⟩
    refine ⟨⟨hi.sigs, hi.funcSig, hi.tables, hi.memories, hi.globals⟩, ?_, hstands.exports⟩
    exact List.rel_append (by simpa using hstands.imports) (.cons hentry .nil)
  | «export» entry =>
    obtain ⟨type, htype, rfl⟩ := Option.map_eq_some_iff.mp hpush
    have hi : st.Indexed (sp.append (Item.export entry).spaces) := by
      simpa [Item.spaces, Spaces.append] using h.indexed
    have hstands := h.other _ hi rfl rfl
    have hentry : ExportFor (sp.append (Item.export entry).spaces) entry ⟨entry.field, type⟩ := by
      cases hty : sp.denotes entry.index entry.kind with
      | none =>
        rw [h.indexed.exportType_none hty] at htype
        cases htype
      | some ty =>
        obtain ⟨type', htype', hrep⟩ := h.indexed.exportType hty
        obtain rfl : type = type' := Option.some.inj (htype.symm.trans htype')
        exact ⟨rfl, ty, Spaces.denotes_append hty _, hrep⟩
    refine ⟨⟨hi.sigs, hi.funcSig, hi.tables, hi.memories, hi.globals⟩, hstands.imports, ?_⟩
    exact List.rel_append (by simpa using hstands.exports) (.cons hentry .nil)

end Step

end Reading

/-! ## The whole module -/

section Run

variable {E : Type}

/-- One entry, or the error in its place. -/
def readEntry (st : Reading) (entry : Except E Item) : Except (Stop E) Reading := do
  let item ← orReturn entry
  orPanic (st.push item)

theorem readEntries_eq {α : Type} (item : α → Item) (st : Reading)
    (reader : Except E (List (Except E α))) :
    readEntries item st reader = (Section.entriesWith item reader).foldlM readEntry st := by
  cases reader with
  | error e => rfl
  | ok entries =>
    rw [Section.entriesWith, List.foldlM_map]
    have hbody : (fun st entry => (do
        let entry ← orReturn entry
        orPanic (Reading.push st (item entry)) : Except (Stop E) Reading)) =
        fun st (entry : Except E α) => readEntry st (entry.map item) := by
      funext st entry
      cases entry <;> rfl
    exact congrArg (fun f => List.foldlM f st entries) hbody

theorem readSection_eq (st : Reading) (sec : Section E) :
    readSection st sec = sec.entries.foldlM readEntry st := by
  cases sec with
  | other => rfl
  | memory reader => exact readEntries_eq .memory st reader
  | type reader => exact readEntries_eq .type st reader
  | function reader => exact readEntries_eq .function st reader
  | global reader => exact readEntries_eq .global st reader
  | table reader => exact readEntries_eq .table st reader
  | «import» reader => exact readEntries_eq .import st reader
  | «export» reader => exact readEntries_eq .export st reader

theorem readSections_eq (sections : List (Except E (Section E))) (st : Reading) :
    (sections.foldlM (fun st sec => do
      let sec ← orReturn sec
      readSection st sec) st : Except (Stop E) Reading) =
      (sections.flatMap entriesOf).foldlM readEntry st := by
  induction sections generalizing st with
  | nil => rfl
  | cons sec sections ih =>
    rw [List.foldlM_cons, List.flatMap_cons, List.foldlM_append]
    have hsec : (do
        let sec ← orReturn sec
        readSection st sec : Except (Stop E) Reading) = (entriesOf sec).foldlM readEntry st := by
      cases sec with
      | error e => rfl
      | ok sec => exact readSection_eq st sec
    rw [hsec]
    exact bind_congr ih

/-- The two loops are one over all entries. -/
theorem readImportsAndExports_eq (decode : List UInt8 → Decoded E) (binary : List UInt8) :
    readImportsAndExports decode binary =
      ((decode binary).entries.foldlM readEntry Reading.empty).map fun st =>
        (st.imports, st.exports) := by
  rw [readImportsAndExports]
  cases decode binary with
  | error e => rfl
  | ok sections =>
    change (sections.foldlM _ Reading.empty >>= fun st =>
      (pure (st.imports, st.exports) : Except (Stop E) _)) = _
    rw [readSections_eq, Decoded.entries]
    cases (sections.flatMap entriesOf).foldlM readEntry Reading.empty <;> rfl

variable {sp : Spaces} {is : List Import} {es : List Export} {st : Reading}

/-- The loop panics exactly when an entry that it reaches is not fine. -/
theorem readEntries_panic_iff (entries : List (Except E Item)) (h : st.Stands sp is es) :
    entries.foldlM readEntry st = .error .panic ↔ ¬ AllFine sp (reached entries) := by
  induction entries generalizing sp is es st with
  | nil => simp [reached, AllFine, pure, Except.pure]
  | cons entry entries ih =>
    rw [List.foldlM_cons]
    cases entry with
    | error e => simp [readEntry, orReturn, Except.mapError, reached, AllFine, bind, Except.bind]
    | ok item =>
      rw [reached, AllFine, ← h.indexed.isSome_push item]
      cases hpush : st.push item with
      | none =>
        simp [readEntry, orReturn, Except.mapError, orPanic, hpush, bind, Except.bind]
      | some st' =>
        have hnext := ih (h.push hpush)
        simpa [readEntry, orReturn, Except.mapError, orPanic, hpush, bind, Except.bind] using hnext

/-- Entries without an error are read to the end. -/
theorem readEntries_ok (items : List Item) (h : st.Stands sp is es) (hfine : AllFine sp items) :
    ∃ st', (items.map Except.ok).foldlM (readEntry (E := E)) st = .ok st' ∧
      st'.Stands (sp.append (spacesOf items)) (is ++ items.flatMap Item.imports)
        (es ++ items.flatMap Item.exports) := by
  induction items generalizing sp is es st with
  | nil =>
    refine ⟨st, rfl, ?_⟩
    simpa [spacesOf] using h
  | cons item items ih =>
    obtain ⟨hitem, hrest⟩ := hfine
    obtain ⟨st₁, hpush⟩ := Option.isSome_iff_exists.mp ((h.indexed.isSome_push item).mpr hitem)
    obtain ⟨st', hrun, hstands⟩ := ih (h.push hpush) hrest
    refine ⟨st', ?_, ?_⟩
    · rw [List.map_cons, List.foldlM_cons]
      simpa [readEntry, orReturn, Except.mapError, orPanic, hpush, bind, Except.bind] using hrun
    · rwa [Spaces.append_assoc, List.append_assoc, List.append_assoc] at hstands

end Run

/-! ## Modules -/

theorem allFine_append (sp : Spaces) (items items' : List Item) :
    AllFine sp (items ++ items') ↔ AllFine sp items ∧ AllFine (sp.append (spacesOf items)) items' := by
  induction items generalizing sp with
  | nil => simp [AllFine, spacesOf]
  | cons item items ih =>
    rw [List.cons_append, AllFine, ih, AllFine, spacesOf, Spaces.append_assoc, and_assoc]

theorem Item.Fine.append {sp : Spaces} {item : Item} (h : item.Fine sp) (sp' : Spaces) :
    item.Fine (sp.append sp') := by
  cases item with
  | memory mt => exact h
  | type mt => exact h
  | function index => exact h
  | global gt => exact h
  | table tt => exact h
  | «import» entry =>
    obtain ⟨module, field, ty⟩ := entry
    cases ty with
    | function index =>
      have hlt : index.toNat < sp.types.length := h
      simp only [Item.Fine, ImportSectionEntryType.Fine, Spaces.append, List.length_append]
      omega
    | table tt => exact h
    | memory mt => exact h
    | global gt => exact h
  | «export» entry => exact h.imp fun _ hty => Spaces.denotes_append hty sp'

/-- Entries that are fine before all of them. -/
theorem allFine_of_forall {sp : Spaces} {items : List Item} (h : ∀ item ∈ items, item.Fine sp) :
    AllFine sp items := by
  induction items generalizing sp with
  | nil => trivial
  | cons item items ih =>
    rw [List.forall_mem_cons] at h
    exact ⟨h.1, ih fun item' hitem' => (h.2 item' hitem').append item.spaces⟩

/-- What the standard asks of the types and the indices of a module. -/
structure WasmModule.Valid (m : WasmModule) : Prop where
  types : ∀ mt ∈ m.types, mt.form = .func
  functions : ∀ index ∈ m.spaces.funcs, index.toNat < m.types.length
  tables : ∀ tt ∈ m.spaces.tables, tt.Known
  globals : ∀ gt ∈ m.spaces.globals, gt.Known
  exports : ∀ entry ∈ m.exports, ∃ ty, m.spaces.denotes entry.index entry.kind = some ty

/-- Signatures are over numbers and vectors, and no memory is shared. -/
structure WasmModule.Plain (m : WasmModule) : Prop where
  params : ∀ mt ∈ m.types, ∀ ty ∈ mt.params, ty.IsNumber
  returns : ∀ mt ∈ m.types, ∀ ty ∈ mt.returns, ty.IsNumber
  memories : ∀ mt ∈ m.spaces.memories, mt.Known

/-- The imports of a valid module are fine after its types. -/
theorem WasmModule.Valid.fine_import {m : WasmModule} (h : m.Valid) (hplain : m.Plain)
    {entry : Import} (hentry : entry ∈ m.imports) :
    (Item.import entry).Fine ⟨m.types, [], [], [], []⟩ := by
  have hmem {α : Type} {f : ImportSectionEntryType → Option α} {a : α} (ha : f entry.ty = some a)
      (declared : List α) : a ∈ m.imports.filterMap (fun i => f i.ty) ++ declared :=
    List.mem_append_left _ (List.mem_filterMap.mpr ⟨entry, hentry, ha⟩)
  change entry.ty.Fine _
  cases hty : entry.ty with
  | function index => exact h.functions index (hmem (f := ImportSectionEntryType.func) (by rw [hty]; rfl) _)
  | table tt => exact h.tables tt (hmem (f := ImportSectionEntryType.table?) (by rw [hty]; rfl) _)
  | memory mt => exact hplain.memories mt (hmem (f := ImportSectionEntryType.memory?) (by rw [hty]; rfl) _)
  | global gt => exact h.globals gt (hmem (f := ImportSectionEntryType.global?) (by rw [hty]; rfl) _)

/-- **A valid module without shared memories or references in its signatures is read.** -/
theorem fine_of_valid {m : WasmModule} (h : m.Valid) (hplain : m.Plain) :
    AllFine .empty m.items := by
  have hspaces := spacesOf_items m
  rw [WasmModule.items, spacesOf_append,
    spacesOf_map .export (fun _ => .empty) rfl (fun _ _ => rfl), Spaces.append_empty] at hspaces
  rw [WasmModule.items, allFine_append, Spaces.empty_append, hspaces]
  refine ⟨?_, allFine_of_forall ?_⟩
  · simp only [List.append_assoc]
    rw [allFine_append, Spaces.empty_append,
      spacesOf_map .type (fun l => ⟨l, [], [], [], []⟩) rfl (fun _ _ => rfl)]
    refine ⟨allFine_of_forall ?_, allFine_of_forall ?_⟩
    · rintro item hitem
      obtain ⟨mt, hmt, rfl⟩ := List.mem_map.mp hitem
      exact ⟨h.types mt hmt, hplain.params mt hmt, hplain.returns mt hmt⟩
    · rintro item hitem
      simp only [List.mem_append, List.mem_map] at hitem
      rcases hitem with ⟨entry, hentry, rfl⟩ | ⟨index, -, rfl⟩ | ⟨tt, htt, rfl⟩ | ⟨mt, hmt, rfl⟩ |
        ⟨gt, hgt, rfl⟩
      · exact h.fine_import hplain hentry
      · trivial
      · exact h.tables tt (List.mem_append_right _ htt)
      · exact hplain.memories mt (List.mem_append_right _ hmt)
      · exact h.globals gt (List.mem_append_right _ hgt)
  · rintro item hitem
    obtain ⟨entry, hentry, rfl⟩ := List.mem_map.mp hitem
    exact h.exports entry hentry

/-! ## Total and exact -/

section Exact

variable {E Store : Type}

/-- The module is the declared one. -/
structure Module.Declares (md : Module Store) (m : WasmModule) : Prop where
  imports : List.Forall₂ (ImportFor m.spaces) m.imports md.imports
  exports : List.Forall₂ (ExportFor m.spaces) m.exports md.exports

/-- `Module::new` does not panic, and reads a valid module as it is declared. -/
structure ReadsExactly (decode : List UInt8 → Decoded E) (store : Store) (binary : List UInt8) :
    Prop where
  total : Module.new decode store binary ≠ .error .panic
  exact : ∀ m : WasmModule, m.Valid → (decode binary).entries = m.items.map .ok →
    ∃ md, Module.new decode store binary = .ok md ∧ md.Declares m

variable (decode : List UInt8 → Decoded E) (store : Store) (binary : List UInt8)

theorem new_eq : Module.new decode store binary =
    ((decode binary).entries.foldlM readEntry Reading.empty).map fun st =>
      ⟨store, binary, st.imports, st.exports⟩ := by
  rw [Module.new, readImportsAndExports_eq]
  cases (decode binary).entries.foldlM readEntry Reading.empty <;> rfl

theorem new_panic_iff : Module.new decode store binary = .error .panic ↔
    ¬ AllFine .empty (reached (decode binary).entries) := by
  rw [← readEntries_panic_iff _ Reading.Stands.empty, new_eq]
  cases (decode binary).entries.foldlM readEntry Reading.empty <;> simp [Except.map]

theorem reached_map_ok (items : List Item) :
    reached (items.map (Except.ok : Item → Except E Item)) = items := by
  induction items with
  | nil => rfl
  | cons item items ih => rw [List.map_cons, reached, ih]

/-- What is read without a panic is what is declared, whether or not the module is valid. -/
theorem new_declares {m : WasmModule} (hfine : AllFine .empty m.items)
    (hdecode : (decode binary).entries = m.items.map .ok) :
    ∃ md, Module.new decode store binary = .ok md ∧ md.Declares m := by
  obtain ⟨st, hrun, hstands⟩ := readEntries_ok (E := E) m.items Reading.Stands.empty hfine
  rw [Spaces.empty_append, spacesOf_items, imports_items, exports_items] at hstands
  refine ⟨⟨store, binary, st.imports, st.exports⟩, ?_, hstands.imports, hstands.exports⟩
  rw [new_eq, hdecode, hrun]
  rfl

/-- **A byte string is read without a panic, and as it is declared, exactly when every entry that is
reached is fine.** -/
theorem readsExactly_iff : ReadsExactly decode store binary ↔
    AllFine .empty (reached (decode binary).entries) := by
  constructor
  · rintro h
    by_contra hfine
    exact h.total ((new_panic_iff decode store binary).mpr hfine)
  · intro hfine
    refine ⟨fun hpanic => (new_panic_iff decode store binary).mp hpanic hfine, ?_⟩
    intro m _ hdecode
    rw [hdecode, reached_map_ok] at hfine
    exact new_declares decode store binary hfine hdecode

end Exact

/-- A module with nothing but an export of its function 0, which it does not have. -/
def nothingExported : List UInt8 := [0, 97, 115, 109, 1, 0, 0, 0, 7, 5, 1, 1, 102, 0, 0]

/-- What is read from it. -/
def decodeNothingExported (binary : List UInt8) : Decoded String :=
  if binary = nothingExported then .ok [.ok (.export (.ok [.ok ⟨"f", .function, 0⟩]))]
  else .error "Bad magic number"

/-- There is no function to export, and the code panics. -/
theorem not_readsExactly_nothingExported :
    ¬ ReadsExactly decodeNothingExported () nothingExported := by
  intro h
  exact h.total rfl

end Wasmtime.Api.ReadModule
