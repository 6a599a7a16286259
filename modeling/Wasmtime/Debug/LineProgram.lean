import Mathlib
import Wasmtime.Debug.TranslateRanges
import Wasmtime.Lib.Fallible

/-!
# Cloning line programs

Model of `clone_line_program` (`wasmtime-debug/src/transform/line_program.rs`): the rows of a wasm line program
are saved by their addresses, and every function with code gets a sequence of those that its instructions fall
on.

* What `gimli` reads is given: the attributes of the root as `clone_attr_string` leaves them, the header, and
  the rows. `rows = none` is an error in the middle of them.
* What it writes is the calls that are made to it. The id of a directory or of a file is what it stands for.
* A register without a value is 0, as in the source: the line, and the column of `LeftEdge`.
* Subtractions stay above 0, by what `get_function_address_map` promises (`FunctionAddressMap.Laid`).

The first row of a sequence starts at 0 and the last stays in force up to its end: no row ends where a gap of
the wasm program begins. The end is `map.offset + map.len - 1`, where the rows count from `map.offset`.

Results: `inForce_rows` (the row in force anywhere in a sequence), `sequences_cloned` (a sequence for each
function with code), and the headline `follows_iff`.
-/

namespace Wasmtime.Debug.LineProgram

open Fallible (bind_eq_ok exists_of_mapM mem_of_mapM)

/-! ## What is read -/

/-- `gimli::LineRow`. -/
structure LineRow where
  address : Nat
  opIndex : Nat
  fileIndex : Nat
  line : Option Nat
  /-- `none` for `ColumnType::LeftEdge`. -/
  column : Option Nat
  discriminator : Nat
  isStmt : Bool
  basicBlock : Bool
  endSequence : Bool
  prologueEnd : Bool
  epilogueBegin : Bool
  isa : Nat
  deriving DecidableEq

/-- `SavedLineProgramRow::Normal`. -/
structure SavedRow where
  address : Nat
  opIndex : Nat
  fileIndex : Nat
  line : Nat
  column : Nat
  discriminator : Nat
  isStmt : Bool
  basicBlock : Bool
  prologueEnd : Bool
  epilogueBegin : Bool
  isa : Nat
  deriving DecidableEq

/-- `SavedLineProgramRow`. -/
inductive SavedLineProgramRow where
  | normal (row : SavedRow)
  | endOfSequence (address : Nat)
  deriving DecidableEq

inductive ReadLineProgramState where
  | sequenceEnded
  | readSequence
  | ignoreSequence
  deriving DecidableEq

/-- The variables of the loop that reads. -/
structure Reading where
  state : ReadLineProgramState
  savedRows : Std.TreeMap Nat SavedLineProgramRow

def LineRow.saved (row : LineRow) : SavedRow where
  address := row.address
  opIndex := row.opIndex
  fileIndex := row.fileIndex
  line := row.line.getD 0
  column := row.column.getD 0
  discriminator := row.discriminator
  isStmt := row.isStmt
  basicBlock := row.basicBlock
  prologueEnd := row.prologueEnd
  epilogueBegin := row.epilogueBegin
  isa := row.isa

/-- One round of the loop that reads. -/
def Reading.next (r : Reading) (row : LineRow) : Reading :=
  if r.state = .ignoreSequence then
    if row.endSequence then { r with state := .sequenceEnded } else r
  else if row.endSequence then
    ⟨.sequenceEnded, r.savedRows.insert row.address (.endOfSequence row.address)⟩
  -- discard sequences for non-existent code
  else if r.state = .sequenceEnded ∧ row.address = 0 then { r with state := .ignoreSequence }
  else ⟨.readSequence, r.savedRows.insert row.address (.normal row.saved)⟩

/-- `saved_rows`. -/
def savedRows (rows : List LineRow) : List (Nat × SavedLineProgramRow) :=
  (rows.foldl Reading.next ⟨.sequenceEnded, ∅⟩).savedRows.toList

/-! ## What is written -/

/-- `write::FileId`. -/
structure FileId where
  name : String
  directory : String
  deriving DecidableEq

/-- A row, but for its address. -/
structure Registers where
  opIndex : Nat
  file : FileId
  line : Nat
  column : Nat
  discriminator : Nat
  isStatement : Bool
  basicBlock : Bool
  prologueEnd : Bool
  epilogueBegin : Bool
  isa : Nat
  deriving DecidableEq

/-- A row that is generated. -/
structure OutRow where
  addressOffset : Nat
  registers : Registers
  deriving DecidableEq

/-- The rows from `begin_sequence` to `end_sequence`. -/
structure Sequence where
  symbol : Nat
  rows : List OutRow
  endAddress : Nat
  deriving DecidableEq

/-- `LineEncoding`. -/
structure LineEncoding where
  minimumInstructionLength : Nat
  maximumOperationsPerInstruction : Nat
  defaultIsStmt : Bool
  lineBase : Int
  lineRange : Nat
  deriving DecidableEq

/-- `write::LineProgram`. -/
structure OutProgram where
  encoding : LineEncoding
  compDir : String
  compName : String
  directories : List String
  files : List FileId
  sequences : List Sequence
  deriving DecidableEq

/-! ## `clone_line_program` -/

/-- An `Err`, or a panic. -/
inductive Failure where
  | error
  | panic
  deriving DecidableEq

/-- The line program, with its header. -/
structure Program where
  version : Nat
  encoding : LineEncoding
  includeDirectories : List (Except Failure String)
  fileNames : List (Except Failure String × Nat)
  rows : Option (List LineRow)

/-- What is read of a unit. An attribute that is missing makes `expect` panic. -/
structure LineUnit where
  stmtList : Option Nat
  compDir : Except Failure String
  compName : Except Failure String
  program : Option Program

/-- `files[(file_index - 1) as usize]`, and the rest of a row. -/
def SavedRow.registers (files : List FileId) (row : SavedRow) : Except Failure Registers :=
  if row.fileIndex = 0 then .error .panic
  else (files[row.fileIndex - 1]?).elim (.error .panic) fun file => .ok
    { opIndex := row.opIndex
      file := file
      line := row.line
      column := row.column
      discriminator := row.discriminator
      isStatement := row.isStmt
      basicBlock := row.basicBlock
      prologueEnd := row.prologueEnd
      epilogueBegin := row.epilogueBegin
      isa := row.isa }

/-- The variables of the loop over the instructions. -/
structure Emitting where
  lastAddress : Option Nat
  rows : List OutRow

section

variable (bs : BinarySearch) (files : List FileId) (saved : List (Nat × SavedLineProgramRow))

/-- One round of the loop over the instructions. -/
def Emitting.next (baseAddr : Nat) (s : Emitting) (a : AddressMap) : Except Failure Emitting :=
  match floorEntry bs saved a.wasm with
  | some (_, .normal row) =>
    -- ignore duplicates
    if some row.address = s.lastAddress then .ok s
    else do
      let registers ← row.registers files
      -- extend the first entry to the function declaration
      let addressOffset := if s.lastAddress.isNone then 0 else a.generated - baseAddr
      .ok ⟨some row.address, s.rows ++ [⟨addressOffset, registers⟩]⟩
  | _ => .ok s

/-- The sequence of a function. -/
def cloneFunction (entry : FunctionMap × Nat) : Except Failure Sequence := do
  let s ← entry.1.addresses.foldlM (Emitting.next bs files saved entry.1.offset) ⟨none, []⟩
  .ok ⟨entry.2, s.rows, entry.1.offset + entry.1.len - 1⟩

end

/-- `add_file` of an entry of the header. -/
def cloneFile (dirs : List String) (entry : Except Failure String × Nat) : Except Failure FileId := do
  let directory ← (dirs[entry.2]?).elim (.error .panic) .ok
  let name ← entry.1
  .ok ⟨name, directory⟩

/-- The program that is written for a program that is read, with the ids of its files. -/
def cloneProgram (bs : BinarySearch) (compDir compName : String) (program : Program) (map : List FunctionMap) :
    Except Failure (OutProgram × List FileId) := do
  let includeDirectories ← program.includeDirectories.mapM id
  let files ← program.fileNames.mapM (cloneFile (compDir :: includeDirectories))
  let rows ← program.rows.elim (.error .error) .ok
  let sequences ← (map.zipIdx.filter fun entry => decide (entry.1.len ≠ 0)).mapM
    (cloneFunction bs files (savedRows rows))
  .ok (⟨program.encoding, compDir, compName, compDir :: includeDirectories, files, sequences⟩, files)

/-- `clone_line_program`. -/
def cloneLineProgram (bs : BinarySearch) (unit : LineUnit) (addrTr : AddressTransform) :
    Except Failure (OutProgram × Nat × List FileId) := do
  let offset ← unit.stmtList.elim (.error .error) .ok
  let compDir ← unit.compDir
  let compName ← unit.compName
  let program ← unit.program.elim (.error .error) .ok
  if program.version > 4 then .error .panic
  else do
    let (out, files) ← cloneProgram bs compDir compName program addrTr.map
    .ok (out, offset, files)

/-! ## What a sequence is to be -/

def SavedLineProgramRow.normal? : SavedLineProgramRow → Option SavedRow
  | normal row => some row
  | endOfSequence _ => none

/-- The saved row with the greatest address that does not exceed a wasm offset; there is none in a gap. -/
def expected (saved : List (Nat × SavedLineProgramRow)) (wasm : Nat) : Option SavedRow :=
  (saved.filter fun e => decide (e.1 ≤ wasm)).getLast?.bind fun e => e.2.normal?

/-- The row in force at an address. -/
def Sequence.inForce (seq : Sequence) (address : Nat) : Option Registers :=
  if address < seq.endAddress then
    (seq.rows.filter fun r => decide (r.addressOffset ≤ address)).getLast?.map OutRow.registers
  else none

/-- The addresses do not decrease, from the start of the body to its end, and at every instruction the saved
row is in force. -/
structure Sequence.Follows (seq : Sequence) (files : List FileId) (saved : List (Nat × SavedLineProgramRow))
    (map : FunctionMap) : Prop where
  ordered : (seq.rows.map OutRow.addressOffset ++ [seq.endAddress]).Pairwise (· ≤ ·)
  starts : ∀ r ∈ seq.rows.head?, r.addressOffset = 0
  ends : seq.endAddress = map.len
  inForce : ∀ a ∈ map.addresses, (seq.inForce (a.generated - map.offset)).map Except.ok =
    (expected saved a.wasm).map (SavedRow.registers files)

/-- When the code does so: the body begins at 1; no instruction has a saved row, or all in the body do;
instructions at one address agree. -/
structure Coherent (files : List FileId) (saved : List (Nat × SavedLineProgramRow)) (map : FunctionMap) :
    Prop where
  offset : map.offset = 1
  uniform : (∀ a ∈ map.addresses, expected saved a.wasm = none) ∨
    ∀ a ∈ map.addresses, (expected saved a.wasm).isSome ↔ a.generated < map.offset + map.len
  agree : ∀ a ∈ map.addresses, ∀ b ∈ map.addresses, a.generated = b.generated →
    (expected saved a.wasm).map (SavedRow.registers files) =
      (expected saved b.wasm).map (SavedRow.registers files)

/-! ## The saved rows -/

section

variable {saved : List (Nat × SavedLineProgramRow)}

/-- What `saved_rows` is: in the order of the addresses, each row under its own. -/
structure Saved (saved : List (Nat × SavedLineProgramRow)) : Prop where
  sorted : saved.Pairwise fun d e => d.1 < e.1
  keyed : ∀ e ∈ saved, ∀ row, e.2 = .normal row → row.address = e.1

theorem Saved.ext_key (h : Saved saved) {d e : Nat × SavedLineProgramRow} (hd : d ∈ saved) (he : e ∈ saved)
    (heq : d.1 = e.1) : d = e := by
  obtain ⟨m, hm, rfl⟩ := List.getElem_of_mem hd
  obtain ⟨n, hn, rfl⟩ := List.getElem_of_mem he
  rcases Nat.lt_trichotomy m n with hlt | rfl | hlt
  · exact absurd heq (Nat.ne_of_lt (List.pairwise_iff_getElem.mp h.sorted m n hm hn hlt))
  · rfl
  · exact absurd heq.symm (Nat.ne_of_lt (List.pairwise_iff_getElem.mp h.sorted n m hn hm hlt))

/-- Every row is under its own address. -/
def Reading.Keyed (r : Reading) : Prop :=
  ∀ (k : Nat) (row : SavedRow), r.savedRows[k]? = some (.normal row) → row.address = k

theorem Reading.Keyed.next {r : Reading} (h : r.Keyed) (row : LineRow) : (r.next row).Keyed := by
  unfold Reading.next
  split
  · split
    · exact h
    · exact h
  · split
    · intro k saved' hget
      rw [Std.TreeMap.getElem?_insert] at hget
      split at hget
      · cases Option.some.inj hget
      · exact h k saved' hget
    · split
      · exact h
      · intro k saved' hget
        rw [Std.TreeMap.getElem?_insert] at hget
        split at hget
        · next heq =>
          obtain rfl := SavedLineProgramRow.normal.inj (Option.some.inj hget)
          exact Nat.compare_eq_eq.mp heq
        · exact h k saved' hget

theorem saved_savedRows (rows : List LineRow) : Saved (savedRows rows) := by
  have hempty : Reading.Keyed ⟨.sequenceEnded, ∅⟩ := fun k row h => by
    rw [Std.TreeMap.getElem?_emptyc] at h
    cases h
  have hkeyed : (rows.foldl Reading.next ⟨.sequenceEnded, ∅⟩).Keyed :=
    List.foldlRecOn rows _ hempty fun r hr row _ => hr.next row
  refine ⟨toList_sorted _, fun e he row hrow => hkeyed e.1 row ?_⟩
  rw [← hrow]
  exact Std.TreeMap.mem_toList_iff_getElem?_eq_some.mp he

/-- The last of the rows that are not behind is the greatest. -/
theorem greatest_of_getLast? (h : Saved saved) {wasm : Nat} {e : Nat × SavedLineProgramRow}
    (he : (saved.filter fun e => decide (e.1 ≤ wasm)).getLast? = some e) :
    e ∈ saved ∧ e.1 ≤ wasm ∧ ∀ d ∈ saved, d.1 ≤ wasm → d.1 ≤ e.1 := by
  obtain ⟨hmem, hle⟩ := List.mem_filter.mp (List.mem_of_getLast? he)
  refine ⟨hmem, of_decide_eq_true hle, fun d hd hdle => ?_⟩
  obtain ⟨front, hfront⟩ := List.getLast?_eq_some_iff.mp he
  have hdmem : d ∈ saved.filter fun e => decide (e.1 ≤ wasm) := List.mem_filter.mpr ⟨hd, decide_eq_true hdle⟩
  have hsorted := h.sorted.filter fun e => decide (e.1 ≤ wasm)
  rw [hfront] at hdmem hsorted
  rcases List.mem_append.mp hdmem with hd | hd
  · exact Nat.le_of_lt ((List.pairwise_append.mp hsorted).2.2 d hd e (List.mem_singleton_self e))
  · rw [List.mem_singleton.mp hd]

/-- The search finds it. -/
theorem floorEntry_eq (bs : BinarySearch) (h : Saved saved) (wasm : Nat) :
    floorEntry bs saved wasm = (saved.filter fun e => decide (e.1 ≤ wasm)).getLast? := by
  cases hlast : (saved.filter fun e => decide (e.1 ≤ wasm)).getLast? with
  | some e =>
    obtain ⟨he, hle, hmax⟩ := greatest_of_getLast? h hlast
    obtain ⟨f, hf, hfloor, hfle, hfmax⟩ := floorEntry_spec bs h.sorted he hle
    rw [hfloor, h.ext_key hf he (Nat.le_antisymm (hmax f hf hfle) (hfmax e he hle))]
  | none =>
    have hgt : ∀ e ∈ saved, wasm < e.1 := fun e he => by
      by_contra hle
      have hmem : e ∈ saved.filter fun e => decide (e.1 ≤ wasm) :=
        List.mem_filter.mpr ⟨he, decide_eq_true (Nat.le_of_not_lt hle)⟩
      rw [List.getLast?_eq_none_iff.mp hlast] at hmem
      cases hmem
    have hkeys : (saved.map Prod.fst).Pairwise (· ≤ ·) :=
      List.pairwise_map.mpr (h.sorted.imp fun h => Nat.le_of_lt h)
    unfold floorEntry
    cases hrun : bs.run (saved.map Prod.fst) wasm with
    | ok i =>
      obtain ⟨e, he, heq⟩ := List.mem_map.mp (List.mem_of_getElem? (bs.ok hkeys hrun))
      have := hgt e he
      omega
    | error i =>
      obtain ⟨hlen, hbelow, -⟩ := bs.error hkeys hrun
      refine if_neg fun hi => ?_
      rw [List.length_map] at hlen
      have hfirst : saved[0].1 ∈ (saved.map Prod.fst).take i :=
        List.mem_take_iff_getElem.mpr ⟨0, by simp; omega, by simp⟩
      have := hbelow _ hfirst
      have := hgt saved[0] (List.getElem_mem _)
      omega

theorem mem_of_expected (h : Saved saved) {wasm : Nat} {row : SavedRow} (hrow : expected saved wasm = some row) :
    (row.address, .normal row) ∈ saved := by
  obtain ⟨⟨k, r⟩, hlast, hnormal⟩ := Option.bind_eq_some_iff.mp hrow
  obtain ⟨hmem, -, -⟩ := greatest_of_getLast? h hlast
  cases r with
  | endOfSequence _ => cases hnormal
  | normal row' =>
    obtain rfl := Option.some.inj hnormal
    rwa [h.keyed _ hmem row' rfl]

theorem expected_inj (h : Saved saved) {wasm wasm' : Nat} {row row' : SavedRow}
    (hrow : expected saved wasm = some row) (hrow' : expected saved wasm' = some row')
    (heq : row.address = row'.address) : row = row' := by
  have := h.ext_key (mem_of_expected h hrow) (mem_of_expected h hrow') heq
  simp only [Prod.mk.injEq, SavedLineProgramRow.normal.injEq] at this
  exact this.2

end

/-! ## The rows of a sequence -/

/-- The instructions that have a saved row, with it. -/
def hits (saved : List (Nat × SavedLineProgramRow)) (addresses : List AddressMap) :
    List (AddressMap × SavedRow) :=
  addresses.filterMap fun a => (expected saved a.wasm).map fun row => (a, row)

/-- The row of the last instruction up to an address, or else of the first one. -/
def hitAt (baseAddr : Nat) (hits : List (AddressMap × SavedRow)) (address : Nat) : Option SavedRow :=
  ((hits.filter fun h => decide (h.1.generated - baseAddr ≤ address)).getLast?.or hits.head?).map Prod.snd

/-- What the loop has written once it has gone through some instructions. -/
structure Emitted (files : List FileId) (baseAddr : Nat) (hits : List (AddressMap × SavedRow))
    (s : Emitting) : Prop where
  last : s.lastAddress = hits.getLast?.map fun h => h.2.address
  empty : s.rows = [] ↔ hits = []
  inForce : ∀ address,
    ((s.rows.filter fun r => decide (r.addressOffset ≤ address)).getLast?.map fun r =>
      (Except.ok r.registers : Except Failure Registers)) =
        (hitAt baseAddr hits address).map (SavedRow.registers files)
  offsets : ∀ r ∈ s.rows, r.addressOffset = 0 ∨ ∃ h ∈ hits, r.addressOffset = h.1.generated - baseAddr
  ordered : s.rows.Pairwise fun r r' => r.addressOffset ≤ r'.addressOffset
  starts : ∀ r ∈ s.rows.head?, r.addressOffset = 0

section

variable {bs : BinarySearch} {files : List FileId} {saved : List (Nat × SavedLineProgramRow)}
  {baseAddr : Nat} {s s' : Emitting} {a : AddressMap} {row : SavedRow}
  {done : List (AddressMap × SavedRow)}

theorem next_of_none (h : Saved saved) (hrow : expected saved a.wasm = none) :
    s.next bs files saved baseAddr a = .ok s := by
  unfold Emitting.next
  rw [floorEntry_eq bs h]
  rw [expected] at hrow
  split
  · next hlast =>
    rw [hlast] at hrow
    cases hrow
  · rfl

theorem next_of_some (h : Saved saved) (hrow : expected saved a.wasm = some row) :
    s.next bs files saved baseAddr a =
      if some row.address = s.lastAddress then .ok s
      else (row.registers files).bind fun registers => .ok ⟨some row.address,
        s.rows ++ [⟨if s.lastAddress.isNone then 0 else a.generated - baseAddr, registers⟩]⟩ := by
  unfold Emitting.next
  rw [floorEntry_eq bs h]
  rw [expected] at hrow
  obtain ⟨⟨k, r⟩, hlast, hnormal⟩ := Option.bind_eq_some_iff.mp hrow
  rw [hlast]
  cases r with
  | endOfSequence _ => cases hnormal
  | normal row' =>
    obtain rfl := Option.some.inj hnormal
    rfl

theorem hitAt_append (hne : done ≠ []) (address : Nat) : hitAt baseAddr (done ++ [(a, row)]) address =
    if a.generated - baseAddr ≤ address then some row else hitAt baseAddr done address := by
  rw [hitAt, hitAt, List.filter_append, List.head?_append_of_ne_nil _ hne]
  split
  · next hle =>
    have hlast : [(a, row)].filter (fun h => decide (h.1.generated - baseAddr ≤ address)) = [(a, row)] := by
      simp [Nat.sub_le_iff_le_add.mp hle]
    rw [hlast, List.getLast?_concat]
    rfl
  · next hle =>
    have hnil : [(a, row)].filter (fun h => decide (h.1.generated - baseAddr ≤ address)) = [] := by
      simpa using Nat.lt_of_not_le (mt Nat.sub_le_iff_le_add.mpr hle)
    rw [hnil, List.append_nil]

/-- All instructions up to one that is not behind count. -/
theorem hitAt_of_le (hsorted : ∀ h ∈ done, h.1.generated ≤ a.generated) {address : Nat}
    (hle : a.generated - baseAddr ≤ address) (hne : done ≠ []) :
    hitAt baseAddr done address = done.getLast?.map Prod.snd := by
  have hall : done.filter (fun h => decide (h.1.generated - baseAddr ≤ address)) = done :=
    List.filter_eq_self.mpr fun h hh => by
      have := hsorted h hh
      exact decide_eq_true (by omega)
  have hsome : (done.getLast?.or done.head?) = done.getLast? := by
    rw [List.getLast?_eq_some_getLast hne]
    rfl
  rw [hitAt, hall, hsome]

theorem Emitted.first {registers : Registers}
    (hregisters : row.registers files = .ok registers) :
    Emitted files baseAddr [(a, row)] ⟨some row.address, [⟨0, registers⟩]⟩ where
  last := rfl
  empty := by simp
  inForce address := by
    have hat : hitAt baseAddr [(a, row)] address = some row := by
      rw [hitAt]
      by_cases hle : a.generated - baseAddr ≤ address
      · simp [Nat.sub_le_iff_le_add.mp hle]
      · simp [mt Nat.sub_le_iff_le_add.mpr hle]
    rw [hat, Option.map_some, hregisters]
    simp
  offsets r hr := by
    rw [List.mem_singleton.mp hr]
    exact .inl rfl
  ordered := List.pairwise_singleton _ _
  starts r hr := by
    obtain rfl := Option.some.inj hr
    rfl

/-- A row for an instruction that does not lie before the others. -/
theorem Emitted.add (h : Emitted files baseAddr done s) (hne : done ≠ [])
    (hsorted : ∀ d ∈ done, d.1.generated ≤ a.generated) {registers : Registers}
    (hregisters : row.registers files = .ok registers) :
    Emitted files baseAddr (done ++ [(a, row)])
      ⟨some row.address, s.rows ++ [⟨a.generated - baseAddr, registers⟩]⟩ where
  last := by rw [List.getLast?_concat, Option.map_some]
  empty := by simp
  inForce address := by
    rw [hitAt_append hne, List.filter_append]
    split
    · next hle =>
      have hlast : [OutRow.mk (a.generated - baseAddr) registers].filter (fun r =>
          decide (r.addressOffset ≤ address)) = [⟨a.generated - baseAddr, registers⟩] := by
        simp [Nat.sub_le_iff_le_add.mp hle]
      rw [hlast, List.getLast?_concat, Option.map_some, Option.map_some, hregisters]
    · next hle =>
      have hnil : [OutRow.mk (a.generated - baseAddr) registers].filter (fun r =>
          decide (r.addressOffset ≤ address)) = [] := by
        simpa using Nat.lt_of_not_le hle
      rw [hnil, List.append_nil]
      exact h.inForce address
  offsets r hr := by
    rcases List.mem_append.mp hr with hr | hr
    · refine (h.offsets r hr).imp_right fun ⟨d, hd, heq⟩ => ⟨d, List.mem_append_left _ hd, heq⟩
    · rw [List.mem_singleton.mp hr]
      exact .inr ⟨(a, row), List.mem_append_right _ (List.mem_singleton_self _), rfl⟩
  ordered := by
    refine List.pairwise_append.mpr ⟨h.ordered, List.pairwise_singleton _ _, fun r hr r' hr' => ?_⟩
    rw [List.mem_singleton.mp hr']
    rcases h.offsets r hr with heq | ⟨d, hd, heq⟩
    · rw [heq]
      exact Nat.zero_le _
    · rw [heq]
      exact Nat.sub_le_sub_right (hsorted d hd) baseAddr
  starts r hr := by
    rw [List.head?_append_of_ne_nil _ (mt h.empty.mp hne)] at hr
    exact h.starts r hr

/-- Nothing is written for the row that is in force already. -/
theorem Emitted.skip (h : Emitted files baseAddr done s) (hne : done ≠ [])
    (hsorted : ∀ d ∈ done, d.1.generated ≤ a.generated)
    (hsame : done.getLast?.map Prod.snd = some row) : Emitted files baseAddr (done ++ [(a, row)]) s where
  last := by
    rw [h.last, List.getLast?_concat, Option.map_some]
    obtain ⟨d, hd, rfl⟩ := Option.map_eq_some_iff.mp hsame
    rw [hd, Option.map_some]
  empty := iff_of_false (mt h.empty.mp hne) (by simp)
  inForce address := by
    rw [hitAt_append hne, h.inForce address]
    split
    · next hle => rw [hitAt_of_le hsorted hle hne, hsame]
    · rfl
  offsets r hr := (h.offsets r hr).imp_right fun ⟨d, hd, heq⟩ => ⟨d, List.mem_append_left _ hd, heq⟩
  ordered := h.ordered
  starts := h.starts

theorem hits_append (p q : List AddressMap) : hits saved (p ++ q) = hits saved p ++ hits saved q :=
  List.filterMap_append

theorem mem_hits {p : List AddressMap} {h : AddressMap × SavedRow} :
    h ∈ hits saved p ↔ h.1 ∈ p ∧ expected saved h.1.wasm = some h.2 := by
  rw [hits, List.mem_filterMap]
  constructor
  · rintro ⟨a, ha, hmap⟩
    obtain ⟨row, hrow, rfl⟩ := Option.map_eq_some_iff.mp hmap
    exact ⟨ha, hrow⟩
  · rintro ⟨ha, hrow⟩
    exact ⟨h.1, ha, by rw [hrow]; rfl⟩

/-- **One round keeps what is written in step with the instructions.** -/
theorem Emitted.next {p : List AddressMap} (hsaved : Saved saved)
    (h : Emitted files baseAddr (hits saved p) s) (hsorted : ∀ b ∈ p, b.generated ≤ a.generated)
    (hnext : s.next bs files saved baseAddr a = .ok s') :
    Emitted files baseAddr (hits saved (p ++ [a])) s' := by
  rw [hits_append]
  cases hrow : expected saved a.wasm with
  | none =>
    have hnone : hits saved [a] = [] := by simp [hits, hrow]
    rw [next_of_none hsaved hrow] at hnext
    obtain rfl := Except.ok.inj hnext
    rwa [hnone, List.append_nil]
  | some row =>
    have hsome : hits saved [a] = [(a, row)] := by simp [hits, hrow]
    have hbehind : ∀ d ∈ hits saved p, d.1.generated ≤ a.generated := fun d hd =>
      hsorted d.1 (mem_hits.mp hd).1
    rw [next_of_some hsaved hrow, h.last] at hnext
    rw [hsome]
    by_cases hne : hits saved p = []
    · have hrows := h.empty.mpr hne
      rw [hne] at hnext ⊢
      rw [hrows] at hnext
      cases hregisters : row.registers files with
      | error e =>
        rw [hregisters] at hnext
        cases hnext
      | ok registers =>
        rw [hregisters] at hnext
        obtain rfl := Except.ok.inj hnext
        exact .first hregisters
    · obtain ⟨d, hd⟩ : ∃ d, (hits saved p).getLast? = some d := ⟨_, List.getLast?_eq_some_getLast hne⟩
      have hdrow := (mem_hits.mp (List.mem_of_getLast? hd)).2
      rw [hd, Option.map_some] at hnext
      split at hnext
      · next heq =>
        obtain rfl := Except.ok.inj hnext
        refine h.skip hne hbehind ?_
        rw [hd, Option.map_some, expected_inj hsaved hdrow hrow (Option.some.inj heq).symm]
      · cases hregisters : row.registers files with
        | error e =>
          rw [hregisters] at hnext
          cases hnext
        | ok registers =>
          rw [hregisters] at hnext
          obtain rfl := Except.ok.inj hnext
          exact h.add hne hbehind hregisters

/-- **The rows of a sequence.** -/
theorem Emitted.run {p : List AddressMap} (hsaved : Saved saved) (rest : List AddressMap)
    (h : Emitted files baseAddr (hits saved p) s)
    (hsorted : (p ++ rest).Pairwise fun a b => a.generated ≤ b.generated)
    (hrun : rest.foldlM (Emitting.next bs files saved baseAddr) s = .ok s') :
    Emitted files baseAddr (hits saved (p ++ rest)) s' := by
  induction rest generalizing p s with
  | nil =>
    obtain rfl := Except.ok.inj hrun
    rwa [List.append_nil]
  | cons a rest ih =>
    rw [List.foldlM_cons] at hrun
    cases hnext : s.next bs files saved baseAddr a with
    | error e =>
      rw [hnext] at hrun
      cases hrun
    | ok s₁ =>
      rw [hnext] at hrun
      have hstep := h.next hsaved (fun b hb =>
        (List.pairwise_append.mp hsorted).2.2 b hb a List.mem_cons_self) hnext
      rw [List.append_cons] at hsorted ⊢
      exact ih hstep hsorted hrun

theorem Emitted.nil : Emitted files baseAddr [] ⟨none, []⟩ where
  last := rfl
  empty := iff_of_true rfl rfl
  inForce _ := rfl
  offsets r hr := by cases hr
  ordered := List.Pairwise.nil
  starts r hr := by cases hr

end

/-! ## The sequence of a function -/

section

variable {bs : BinarySearch} {files : List FileId} {saved : List (Nat × SavedLineProgramRow)}
  {map : FunctionMap} {seq : Sequence} {i : Nat}

/-- What the address map of a function promises. -/
structure Laid (map : FunctionMap) : Prop where
  within : ∀ a ∈ map.addresses, map.offset ≤ a.generated ∧ a.generated ≤ map.offset + map.len
  sorted : map.addresses.Pairwise fun a b => a.generated ≤ b.generated

theorem laid_of_mem {functions : List FunctionAddressMap} {codeSectionOffset : UInt64}
    (hlaid : ∀ ft ∈ functions, ft.Laid) (hmap : map ∈ buildFunctionAddrMap functions codeSectionOffset) :
    Laid map := by
  obtain ⟨ft, hft, rfl⟩ := List.mem_map.mp hmap
  refine ⟨fun a ha => ?_, ?_⟩
  · obtain ⟨t, ht, rfl⟩ := List.mem_map.mp ha
    obtain ⟨hle, hlast⟩ := (hlaid ft hft).within t (List.mem_filter.mp ht).1
    exact ⟨hle, by simp only; omega⟩
  · refine List.pairwise_map.mpr (((hlaid ft hft).ordered.filter _).imp fun h => ?_)
    simp only
    omega

/-- **What is in force in a sequence**: the row of the last instruction up to the address, and before the first
one that has a row, its row. -/
theorem inForce_rows (hsaved : Saved saved) (hlaid : Laid map)
    (hrun : cloneFunction bs files saved (map, i) = .ok seq) :
    seq.symbol = i ∧ seq.endAddress = map.offset + map.len - 1 ∧
      (∀ address, (seq.inForce address).map Except.ok = if address < seq.endAddress then
        (hitAt map.offset (hits saved map.addresses) address).map (SavedRow.registers files) else none) ∧
      (seq.rows.Pairwise fun r r' => r.addressOffset ≤ r'.addressOffset) ∧
      (∀ r ∈ seq.rows.head?, r.addressOffset = 0) ∧
      ∀ r ∈ seq.rows, r.addressOffset = 0 ∨
        ∃ h ∈ hits saved map.addresses, r.addressOffset = h.1.generated - map.offset := by
  rw [cloneFunction] at hrun
  cases hfold : map.addresses.foldlM (Emitting.next bs files saved map.offset) ⟨none, []⟩ with
  | error e =>
    rw [hfold] at hrun
    cases hrun
  | ok s =>
    rw [hfold] at hrun
    obtain rfl := Except.ok.inj hrun
    have h : Emitted files map.offset (hits saved map.addresses) s :=
      Emitted.run (p := []) hsaved map.addresses .nil hlaid.sorted hfold
    refine ⟨rfl, rfl, fun address => ?_, h.ordered, h.starts, h.offsets⟩
    rw [Sequence.inForce]
    split
    · rw [Option.map_map]
      exact h.inForce address
    · rfl

theorem hits_sorted (hlaid : Laid map) :
    (hits saved map.addresses).Pairwise fun h h' => h.1.generated ≤ h'.1.generated := by
  refine List.pairwise_filterMap.mpr (hlaid.sorted.imp fun hle h hh h' hh' => ?_)
  obtain ⟨_, -, rfl⟩ := Option.map_eq_some_iff.mp hh
  obtain ⟨_, -, rfl⟩ := Option.map_eq_some_iff.mp hh'
  exact hle

/-- At an instruction that has a saved row, that of an instruction at the same address is in force. -/
theorem hitAt_self (hlaid : Laid map) {a : AddressMap} {row : SavedRow} (ha : a ∈ map.addresses)
    (hrow : expected saved a.wasm = some row) : ∃ b ∈ map.addresses, b.generated = a.generated ∧
      hitAt map.offset (hits saved map.addresses) (a.generated - map.offset) = expected saved b.wasm := by
  have hmem : (a, row) ∈ (hits saved map.addresses).filter fun h =>
      decide (h.1.generated - map.offset ≤ a.generated - map.offset) :=
    List.mem_filter.mpr ⟨(mem_hits).mpr ⟨ha, hrow⟩, decide_eq_true (Nat.le_refl _)⟩
  have hlast := List.getLast?_eq_some_getLast (List.ne_nil_of_mem hmem)
  obtain ⟨b, hb⟩ : ∃ b, ((hits saved map.addresses).filter fun h =>
    decide (h.1.generated - map.offset ≤ a.generated - map.offset)).getLast? = some b := ⟨_, hlast⟩
  obtain ⟨hbmem, hble⟩ := List.mem_filter.mp (List.mem_of_getLast? hb)
  obtain ⟨hbaddr, hbrow⟩ := (mem_hits).mp hbmem
  refine ⟨b.1, hbaddr, Nat.le_antisymm ?_ ?_, ?_⟩
  · have := of_decide_eq_true hble
    have := (hlaid.within a ha).1
    have := (hlaid.within b.1 hbaddr).1
    omega
  · -- it is the last of them
    obtain ⟨front, hfront⟩ := List.getLast?_eq_some_iff.mp hb
    have hsorted : ((hits saved map.addresses).filter fun h =>
        decide (h.1.generated - map.offset ≤ a.generated - map.offset)).Pairwise fun h h' =>
          h.1.generated ≤ h'.1.generated := (hits_sorted hlaid).filter _
    rw [hfront] at hmem hsorted
    rcases List.mem_append.mp hmem with hmem | hmem
    · exact (List.pairwise_append.mp hsorted).2.2 _ hmem b (List.mem_singleton_self b)
    · rw [← List.mem_singleton.mp hmem]
  · rw [hitAt, hb, hbrow]
    rfl

theorem hitAt_eq_none (h : ∀ a ∈ map.addresses, expected saved a.wasm = none) (address : Nat) :
    hitAt map.offset (hits saved map.addresses) address = none := by
  have hnil : hits saved map.addresses = [] :=
    List.filterMap_eq_nil_iff.mpr fun a ha => by rw [h a ha]; rfl
  rw [hnil]
  rfl

/-- Once an instruction has a saved row, some row is in force everywhere. -/
theorem hitAt_isSome {a : AddressMap} {row : SavedRow} (ha : a ∈ map.addresses)
    (hrow : expected saved a.wasm = some row) (address : Nat) :
    (hitAt map.offset (hits saved map.addresses) address).isSome := by
  have hmem : (a, row) ∈ hits saved map.addresses := (mem_hits).mpr ⟨ha, hrow⟩
  have hne := List.ne_nil_of_mem hmem
  rw [hitAt, List.head?_eq_some_head hne, Option.isSome_map, Option.isSome_or]
  simp

/-- **A sequence follows the wasm program exactly when the function is coherent.** -/
theorem follows_of_cloneFunction (hsaved : Saved saved) (hlaid : Laid map) (hlen : map.len ≠ 0)
    (hrun : cloneFunction bs files saved (map, i) = .ok seq) :
    seq.Follows files saved map ↔ Coherent files saved map := by
  obtain ⟨-, hend, hforce, hordered, hstarts, hoffsets⟩ := inForce_rows hsaved hlaid hrun
  constructor
  · intro h
    have hoffset : map.offset = 1 := by
      have := h.ends
      omega
    have hlt (a : AddressMap) (ha : a ∈ map.addresses) :
        a.generated - map.offset < seq.endAddress ↔ a.generated < map.offset + map.len := by
      have := (hlaid.within a ha).1
      omega
    refine ⟨hoffset, ?_, fun a ha b hb heq => ?_⟩
    · by_cases hnone : ∀ a ∈ map.addresses, expected saved a.wasm = none
      · exact .inl hnone
      · refine .inr fun a ha => ?_
        rw [not_forall₂] at hnone
        obtain ⟨b, hb, hrow⟩ := hnone
        obtain ⟨row, hrow⟩ := Option.ne_none_iff_exists'.mp hrow
        have hforce' := (hforce (a.generated - map.offset)).symm.trans (h.inForce a ha)
        rw [← hlt a ha]
        split at hforce'
        · next hinside =>
          refine iff_of_true ?_ hinside
          rw [← Option.isSome_map, ← hforce', Option.isSome_map]
          exact hitAt_isSome hb hrow _
        · next houtside =>
          refine iff_of_false ?_ houtside
          rw [Option.isSome_iff_ne_none]
          exact not_not_intro (Option.map_eq_none_iff.mp hforce'.symm)
    · rw [← h.inForce a ha, ← h.inForce b hb, heq]
  · rintro ⟨hoffset, huniform, hagree⟩
    have hlt (a : AddressMap) (ha : a ∈ map.addresses) :
        a.generated - map.offset < seq.endAddress ↔ a.generated < map.offset + map.len := by
      have := (hlaid.within a ha).1
      omega
    refine ⟨?_, hstarts, by omega, fun a ha => ?_⟩
    · refine List.pairwise_append.mpr ⟨List.pairwise_map.mpr hordered, List.pairwise_singleton _ _,
        fun x hx y hy => ?_⟩
      obtain ⟨r, hr, rfl⟩ := List.mem_map.mp hx
      rw [List.mem_singleton.mp hy]
      rcases hoffsets r hr with heq | ⟨h, hh, heq⟩
      · omega
      · have := (hlaid.within h.1 (mem_hits.mp hh).1).2
        omega
    · rw [hforce]
      rcases huniform with hnone | hsome
      · rw [hnone a ha, hitAt_eq_none hnone]
        split <;> rfl
      · cases hrow : expected saved a.wasm with
        | none =>
          rw [if_neg, Option.map_none]
          rw [hlt a ha, ← hsome a ha, hrow]
          simp
        | some row =>
          obtain ⟨b, hb, hgenerated, hhit⟩ := hitAt_self hlaid ha hrow
          rw [if_pos, hhit, hagree b hb a ha hgenerated, hrow]
          rw [hlt a ha, ← hsome a ha, hrow]
          rfl

end

/-! ## The whole program -/

section

variable {bs : BinarySearch} {unit : LineUnit} {addrTr : AddressTransform} {program : Program}
  {rows : List LineRow} {out : OutProgram} {offset : Nat} {files : List FileId}

/-- Every function with code gets a sequence, and nothing else does. -/
theorem sequences_cloned (hprogram : unit.program = some program) (hrows : program.rows = some rows)
    (hclone : cloneLineProgram bs unit addrTr = .ok (out, offset, files)) :
    (∀ i fm, addrTr.map[i]? = some fm → fm.len ≠ 0 →
      ∃ seq ∈ out.sequences, cloneFunction bs files (savedRows rows) (fm, i) = .ok seq) ∧
    ∀ seq ∈ out.sequences, ∃ i fm, addrTr.map[i]? = some fm ∧ fm.len ≠ 0 ∧
      cloneFunction bs files (savedRows rows) (fm, i) = .ok seq := by
  rw [cloneLineProgram] at hclone
  obtain ⟨_, -, hclone⟩ := bind_eq_ok hclone
  obtain ⟨compDir, -, hclone⟩ := bind_eq_ok hclone
  obtain ⟨compName, -, hclone⟩ := bind_eq_ok hclone
  rw [hprogram] at hclone
  obtain ⟨_, hsome, hclone⟩ := bind_eq_ok hclone
  obtain rfl := Except.ok.inj hsome
  split at hclone
  · cases hclone
  · obtain ⟨⟨out', files'⟩, hcloned, hclone⟩ := bind_eq_ok hclone
    simp only [Except.ok.injEq, Prod.mk.injEq] at hclone
    obtain ⟨rfl, -, rfl⟩ := hclone
    rw [cloneProgram] at hcloned
    obtain ⟨dirs, -, hcloned⟩ := bind_eq_ok hcloned
    obtain ⟨files'', -, hcloned⟩ := bind_eq_ok hcloned
    rw [hrows] at hcloned
    obtain ⟨_, hsome, hcloned⟩ := bind_eq_ok hcloned
    obtain rfl := Except.ok.inj hsome
    obtain ⟨sequences, hsequences, hcloned⟩ := bind_eq_ok hcloned
    simp only [Except.ok.injEq, Prod.mk.injEq] at hcloned
    obtain ⟨rfl, rfl⟩ := hcloned
    refine ⟨fun i fm hi hlen => ?_, fun seq hseq => ?_⟩
    · exact exists_of_mapM hsequences (List.mem_filter.mpr
        ⟨List.mem_zipIdx_iff_getElem?.mpr hi, decide_eq_true hlen⟩)
    · obtain ⟨⟨fm, i⟩, hmem, hseq⟩ := mem_of_mapM hsequences hseq
      obtain ⟨hi, hlen⟩ := List.mem_filter.mp hmem
      exact ⟨i, fm, List.mem_zipIdx_iff_getElem?.mp hi, of_decide_eq_true hlen, hseq⟩

/-- **The sequence of a function follows the wasm program exactly when the function is coherent.** -/
theorem follows_iff {functions : List FunctionAddressMap} {codeSectionOffset : UInt64} {i : Nat}
    {fm : FunctionMap} (hnew : AddressTransform.new functions codeSectionOffset = some addrTr)
    (hlaid : ∀ ft ∈ functions, ft.Laid) (hprogram : unit.program = some program)
    (hrows : program.rows = some rows) (hclone : cloneLineProgram bs unit addrTr = .ok (out, offset, files))
    (hi : addrTr.map[i]? = some fm) (hlen : fm.len ≠ 0) :
    (∃ seq ∈ out.sequences, seq.symbol = i ∧ seq.Follows files (savedRows rows) fm) ↔
      Coherent files (savedRows rows) fm := by
  obtain ⟨_, -, rfl⟩ := Option.map_eq_some_iff.mp hnew
  have hlaid' : Laid fm := laid_of_mem hlaid (List.mem_of_getElem? hi)
  have hsaved := saved_savedRows rows
  obtain ⟨hleft, hright⟩ := sequences_cloned hprogram hrows hclone
  constructor
  · rintro ⟨seq, hseq, rfl, hfollows⟩
    obtain ⟨j, fm', hj, -, hrun⟩ := hright seq hseq
    have hlaid'' : Laid fm' := laid_of_mem hlaid (List.mem_of_getElem? hj)
    have hsymbol := (inForce_rows hsaved hlaid'' hrun).1
    rw [hsymbol, hj] at hi
    obtain rfl := Option.some.inj hi
    exact (follows_of_cloneFunction hsaved hlaid' hlen hrun).mp hfollows
  · intro hcoherent
    obtain ⟨seq, hseq, hrun⟩ := hleft i fm hi hlen
    exact ⟨seq, hseq, (inForce_rows hsaved hlaid' hrun).1,
      (follows_of_cloneFunction hsaved hlaid' hlen hrun).mpr hcoherent⟩

end

/-- A row of a file, or the end of a sequence. -/
def sampleRow (address line : Nat) (endSequence : Bool) : LineRow :=
  ⟨address, 0, 1, some line, none, 0, true, false, endSequence, false, false, 0⟩

/-- A program with one file whose row 3 holds from 5 up to 8. -/
def sampleProgram : Program where
  version := 4
  encoding := ⟨1, 1, true, -5, 14⟩
  includeDirectories := []
  fileNames := [(.ok "a.c", 0)]
  rows := some [sampleRow 5 3 false, sampleRow 8 3 true]

def sampleUnit : LineUnit := ⟨some 0, .ok "/", .ok "a.c", some sampleProgram⟩

/-- A body of 10 bytes, with code at 5 and at a later offset. -/
def sampleFunction (bodyOffset : Nat) (later : UInt32) : FunctionAddressMap where
  instructions := [⟨5, bodyOffset, 4⟩, ⟨later, bodyOffset + 4, 6⟩]
  startSrcloc := 4
  endSrcloc := 10
  bodyOffset := bodyOffset
  bodyLen := 10

/-- The one row of its sequence. -/
def sampleOut (endAddress : Nat) : OutProgram :=
  ⟨⟨1, 1, true, -5, 14⟩, "/", "a.c", ["/"], [⟨"a.c", "/"⟩],
    [⟨0, [⟨0, ⟨0, ⟨"a.c", "/"⟩, 3, 0, 0, true, false, false, false, 0⟩⟩], endAddress⟩]⟩

theorem laid_sampleFunction (bodyOffset : Nat) (later : UInt32) : (sampleFunction bodyOffset later).Laid := by
  constructor
  · simp [sampleFunction]
  · simp [sampleFunction]

/-- A function whose body begins at 1, with both instructions in the row. -/
theorem follows_sample : ∃ addrTr, AddressTransform.new [sampleFunction 1 7] 0 = some addrTr ∧
    ∃ fm, addrTr.map[0]? = some fm ∧ cloneLineProgram .last sampleUnit addrTr =
      .ok (sampleOut 10, 0, [⟨"a.c", "/"⟩]) ∧
        ∃ seq ∈ (sampleOut 10).sequences, seq.symbol = 0 ∧ seq.Follows [⟨"a.c", "/"⟩]
          (savedRows [sampleRow 5 3 false, sampleRow 8 3 true]) fm := by
  refine ⟨_, rfl, _, rfl, rfl, ?_⟩
  have hlaid : ∀ ft ∈ [sampleFunction 1 7], ft.Laid := fun ft hft =>
    List.mem_singleton.mp hft ▸ laid_sampleFunction 1 7
  refine (@follows_iff .last sampleUnit _ sampleProgram _ (sampleOut 10) 0 _ [sampleFunction 1 7] 0 0 _ rfl hlaid
    rfl rfl rfl rfl (by decide)).mpr ?_
  exact ⟨rfl, .inr (by decide), by decide⟩

/-- With the body at 0 the sequence ends at 9, and the row is in force at code from after its end. -/
theorem not_follows_sample : ∃ addrTr, AddressTransform.new [sampleFunction 0 9] 0 = some addrTr ∧
    ∃ fm, addrTr.map[0]? = some fm ∧ cloneLineProgram .last sampleUnit addrTr =
      .ok (sampleOut 9, 0, [⟨"a.c", "/"⟩]) ∧
        ¬ ∃ seq ∈ (sampleOut 9).sequences, seq.symbol = 0 ∧ seq.Follows [⟨"a.c", "/"⟩]
          (savedRows [sampleRow 5 3 false, sampleRow 8 3 true]) fm := by
  refine ⟨_, rfl, _, rfl, rfl, ?_⟩
  rintro ⟨seq, hseq, -, hfollows⟩
  obtain rfl := List.mem_singleton.mp hseq
  exact absurd hfollows.ends (by decide)

end Wasmtime.Debug.LineProgram
