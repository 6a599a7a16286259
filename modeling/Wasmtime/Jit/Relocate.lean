import Mathlib
import Wasmtime.Environ.Module
import Wasmtime.Lib.LittleEndian
import Wasmtime.Lib.Writes

/-!
# Relocations

Model of `relocate` (`wasmtime-jit/src/link.rs`), which writes the addresses of functions, of library
calls and of jump tables into the code of a module.

* The host has pointers of four or eight bytes, which decides the kinds that are supported.
* `RelocationTarget` and `Relocation` are those of `wasmtime-environ/src/compilation.rs`; the library calls
  that have no symbol in `relocate` are `LibCall.other`. The addresses of the symbols are a parameter.
* Memory is a function from addresses to bytes. `none` is a panic: a target without an address, a kind that
  is not supported, or an addition that overflows.

Results: `relocate_eq` (the loops as one list of writes) and `relocates_iff`.
-/

namespace Wasmtime.Jit

open Environ Writes LittleEndian

/-! ## Relocations -/

/-- `target_pointer_width`. -/
inductive PointerWidth where
  | w32
  | w64
  deriving DecidableEq, Repr

/-- The bits of a pointer. -/
def PointerWidth.bits : PointerWidth → Nat
  | w32 => 32
  | w64 => 64

/-- `Reloc`. -/
inductive Reloc where
  | abs4
  | abs8
  | x86PCRel4
  | x86PCRelRodata4
  | x86CallPCRel4
  | x86CallPLTRel4
  | x86GOTPCRel4
  | arm32Call
  | arm64Call
  | riscvCall
  deriving DecidableEq, Repr

/-- `LibCall`. -/
inductive LibCall where
  | probestack
  | ceilF32
  | floorF32
  | truncF32
  | nearestF32
  | ceilF64
  | floorF64
  | truncF64
  | nearestF64
  | other (name : String)
  deriving DecidableEq, Repr

/-- `RelocationTarget`. -/
inductive RelocationTarget where
  | userFunc (index : Nat)
  | libCall (libcall : LibCall)
  | memory32Grow
  | importedMemory32Grow
  | memory32Size
  | importedMemory32Size
  | jumpTable (funcIndex jt : Nat)
  deriving DecidableEq, Repr

/-- `Relocation`. -/
structure Relocation where
  reloc : Reloc
  relocTarget : RelocationTarget
  offset : UInt32
  addend : Int64

/-- The addresses of the functions of `libcalls`, and of the stack probe. -/
structure Symbols where
  memory32Grow : Nat
  memory32Size : Nat
  importedMemory32Grow : Nat
  importedMemory32Size : Nat
  ceilF32 : Nat
  floorF32 : Nat
  truncF32 : Nat
  nearestF32 : Nat
  ceilF64 : Nat
  floorF64 : Nat
  truncF64 : Nat
  nearestF64 : Nat
  probestack : Nat

/-- The arm for library calls; `none` is `unexpected libcall`. -/
def Symbols.libCall (s : Symbols) : LibCall → Option Nat
  | .ceilF32 => some s.ceilF32
  | .floorF32 => some s.floorF32
  | .truncF32 => some s.truncF32
  | .nearestF32 => some s.nearestF32
  | .ceilF64 => some s.ceilF64
  | .floorF64 => some s.floorF64
  | .truncF64 => some s.truncF64
  | .nearestF64 => some s.nearestF64
  | .probestack => some s.probestack
  | .other _ => none

/-- The arguments of `relocate` other than the relocations, and the symbols of the process. -/
structure Linkage (Sig : Type) where
  width : PointerWidth
  symbols : Symbols
  allocatedFunctions : List Extent
  jtOffsets : List (List UInt32)
  module : Module Sig

section

variable {Sig : Type} (l : Linkage Sig)

/-- `target_func_address`. -/
def targetFuncAddress : RelocationTarget → Option Nat
  | .userFunc index =>
    -- "direct call to import"
    (l.module.definedFuncIndex index).bind fun f => l.allocatedFunctions[f]?.map Extent.start
  | .memory32Grow => some l.symbols.memory32Grow
  | .memory32Size => some l.symbols.memory32Size
  | .importedMemory32Grow => some l.symbols.importedMemory32Grow
  | .importedMemory32Size => some l.symbols.importedMemory32Size
  | .libCall libcall => l.symbols.libCall libcall
  | .jumpTable funcIndex jt =>
    (l.module.definedFuncIndex funcIndex).bind fun f =>
      (l.jtOffsets[f]?.bind fun ofs => ofs[jt]?).bind fun offset =>
        l.allocatedFunctions[f]?.bind fun fatptr =>
          if fatptr.start + offset.toNat < 2 ^ l.width.bits then some (fatptr.start + offset.toNat)
          else none

/-- `checked_add`, at a width in bits. -/
def checkedAdd (bits a b : Nat) : Option Nat := if a + b < 2 ^ bits then some (a + b) else none

/-- `addend as isize as u64` or, with pointers of four bytes, `addend as isize as u32`. -/
def Relocation.unsignedAddend (bits : Nat) (r : Relocation) : Nat :=
  (r.addend.toBitVec.setWidth bits).toNat

/-- What is written for a relocation at an address: nothing for a kind that is ignored. -/
def patch (relocAddress target : Nat) (r : Relocation) : Option (Option (Nat × List UInt8)) :=
  match l.width, r.reloc with
  | .w64, .abs8 =>
    (checkedAdd 64 target (r.unsignedAddend 64)).map fun relocAbs =>
      some (relocAddress, leBytes 8 relocAbs)
  | .w32, .x86PCRel4 =>
    (checkedAdd 32 ((target + (2 ^ 32 - relocAddress % 2 ^ 32)) % 2 ^ 32)
      (r.unsignedAddend 32)).map fun relocDelta => some (relocAddress, leBytes 4 relocDelta)
  | .w32, .x86CallPCRel4 => some none
  | _, .x86PCRelRodata4 => some none
  -- "unsupported reloc kind"
  | _, _ => none

/-- The body of the inner loop: what the relocation of a function writes. -/
def relocation (i : Nat) (r : Relocation) : Option (Option (Nat × List UInt8)) :=
  (targetFuncAddress l r.relocTarget).bind fun target =>
    l.allocatedFunctions[i]?.bind fun body => patch l (body.start + r.offset.toNat) target r

/-- The inner loop. -/
def relocateFunction (i : Nat) : List Relocation → (Nat → UInt8) → Option (Nat → UInt8)
  | [], mem => some mem
  | r :: relocs, mem =>
    (relocation l i r).bind fun write => relocateFunction i relocs (storeAll mem write.toList)

/-- `relocate`: the relocations of the functions from the `i`-th on. -/
def relocateFrom (i : Nat) : List (List Relocation) → (Nat → UInt8) → Option (Nat → UInt8)
  | [], mem => some mem
  | relocs :: relocations, mem =>
    (relocateFunction l i relocs mem).bind fun mem => relocateFrom (i + 1) relocations mem

/-- `relocate`. -/
def relocate (relocations : List (List Relocation)) (mem : Nat → UInt8) : Option (Nat → UInt8) :=
  relocateFrom l 0 relocations mem

/-! ## What relocating is to do -/

/-- The kinds that a host supports. -/
def Supported : PointerWidth → Reloc → Prop
  | .w64, k => k = .abs8 ∨ k = .x86PCRelRodata4
  | .w32, k => k = .x86PCRel4 ∨ k = .x86CallPCRel4 ∨ k = .x86PCRelRodata4

/-- The bytes of a site. -/
def Reloc.width : Reloc → Nat
  | .abs8 => 8
  | .x86PCRel4 => 4
  | _ => 0

/-- The relocations with the functions they belong to, from the `i`-th function on. -/
def entriesFrom (i : Nat) : List (List Relocation) → List (Nat × Relocation)
  | [] => []
  | relocs :: relocations => relocs.map (i, ·) ++ entriesFrom (i + 1) relocations

/-- The relocations with the functions they belong to. -/
def entries (relocations : List (List Relocation)) : List (Nat × Relocation) := entriesFrom 0 relocations

/-- Where the relocation of a function goes. -/
def site (p : Nat × Relocation) : Option Extent :=
  l.allocatedFunctions[p.1]?.map fun body => ⟨body.start + p.2.offset.toNat, p.2.reloc.width⟩

/-- Every site holds what it should, and the rest of memory is as it was. -/
structure Relocated (relocations : List (List Relocation)) (mem mem' : Nat → UInt8) : Prop where
  abs8 : ∀ p ∈ entries relocations, p.2.reloc = .abs8 →
    ∃ target e, targetFuncAddress l p.2.relocTarget = some target ∧ site l p = some e ∧
      (ofLeBytes (loadAt mem' e.start 8) : Int) = (target + p.2.addend.toInt) % 2 ^ 64
  pcRel4 : ∀ p ∈ entries relocations, p.2.reloc = .x86PCRel4 →
    ∃ target e, targetFuncAddress l p.2.relocTarget = some target ∧ site l p = some e ∧
      (ofLeBytes (loadAt mem' e.start 4) : Int) = (target - e.start + p.2.addend.toInt) % 2 ^ 32
  frame : ∀ a, (∀ p ∈ entries relocations, ∀ e, site l p = some e → ¬ e.Covers a) → mem' a = mem a

/-- `relocate` does not panic, and relocates. -/
def Relocates (relocations : List (List Relocation)) (mem : Nat → UInt8) : Prop :=
  ∃ mem', relocate l relocations mem = some mem' ∧ Relocated l relocations mem mem'

/-- The target has an address, and the sum with the addend, taken as unsigned, is below the width. -/
def Fits (p : Nat × Relocation) : Prop :=
  ∃ target e, targetFuncAddress l p.2.relocTarget = some target ∧ site l p = some e ∧
    (p.2.reloc = .abs8 → target + p.2.unsignedAddend 64 < 2 ^ 64) ∧
    (p.2.reloc = .x86PCRel4 →
      (target + (2 ^ 32 - e.start % 2 ^ 32)) % 2 ^ 32 + p.2.unsignedAddend 32 < 2 ^ 32)

/-! ## The loops as one list of writes -/

/-- The relocations one after the other. -/
def relocateEntries : List (Nat × Relocation) → (Nat → UInt8) → Option (Nat → UInt8)
  | [], mem => some mem
  | p :: ps, mem =>
    (relocation l p.1 p.2).bind fun write => relocateEntries ps (storeAll mem write.toList)

theorem relocateEntries_append (ps qs : List (Nat × Relocation)) (mem : Nat → UInt8) :
    relocateEntries l (ps ++ qs) mem = (relocateEntries l ps mem).bind (relocateEntries l qs) := by
  induction ps generalizing mem with
  | nil => rfl
  | cons p ps ih =>
    rw [List.cons_append, relocateEntries, relocateEntries, Option.bind_assoc]
    exact congrArg _ (funext fun write => ih _)

theorem relocateFunction_eq (i : Nat) (relocs : List Relocation) (mem : Nat → UInt8) :
    relocateFunction l i relocs mem = relocateEntries l (relocs.map (i, ·)) mem := by
  induction relocs generalizing mem with
  | nil => rfl
  | cons r relocs ih =>
    rw [relocateFunction, List.map_cons, relocateEntries]
    exact congrArg _ (funext fun write => ih _)

theorem relocateFrom_eq (i : Nat) (relocations : List (List Relocation)) (mem : Nat → UInt8) :
    relocateFrom l i relocations mem = relocateEntries l (entriesFrom i relocations) mem := by
  induction relocations generalizing i mem with
  | nil => rfl
  | cons relocs relocations ih =>
    rw [relocateFrom, entriesFrom, relocateEntries_append, relocateFunction_eq]
    exact congrArg _ (funext fun mem => ih (i + 1) mem)

/-- What the relocations write. -/
def writes (ps : List (Nat × Relocation)) : List (Nat × List UInt8) :=
  ps.filterMap fun p => (relocation l p.1 p.2).join

theorem relocateEntries_eq {ps : List (Nat × Relocation)} {mem : Nat → UInt8}
    (h : ∀ p ∈ ps, (relocation l p.1 p.2).isSome) :
    relocateEntries l ps mem = some (storeAll mem (writes l ps)) := by
  induction ps generalizing mem with
  | nil => rfl
  | cons p ps ih =>
    obtain ⟨write, hwrite⟩ := Option.isSome_iff_exists.mp (h p List.mem_cons_self)
    rw [relocateEntries, hwrite, Option.bind_some, ih fun q hq => h q (List.mem_cons_of_mem _ hq)]
    cases write with
    | none =>
      rw [writes, writes, List.filterMap_cons_none (by rw [hwrite]; rfl)]
      rfl
    | some w =>
      rw [writes, writes, List.filterMap_cons_some (by rw [hwrite]; rfl)]
      rfl

theorem isSome_of_relocateEntries {ps : List (Nat × Relocation)} {mem mem' : Nat → UInt8}
    (h : relocateEntries l ps mem = some mem') : ∀ p ∈ ps, (relocation l p.1 p.2).isSome := by
  induction ps generalizing mem with
  | nil => exact fun p hp => absurd hp List.not_mem_nil
  | cons p ps ih =>
    obtain ⟨write, hwrite, hrest⟩ := Option.bind_eq_some_iff.mp h
    intro q hq
    rcases List.mem_cons.mp hq with rfl | hq
    · rw [hwrite]
      rfl
    · exact ih hrest q hq

/-- `relocate` panics or makes the writes of its relocations. -/
theorem relocate_eq {relocations : List (List Relocation)} {mem mem' : Nat → UInt8} :
    relocate l relocations mem = some mem' ↔
      (∀ p ∈ entries relocations, (relocation l p.1 p.2).isSome) ∧
        mem' = storeAll mem (writes l (entries relocations)) := by
  rw [relocate, relocateFrom_eq]
  constructor
  · intro h
    have hsome := isSome_of_relocateEntries l h
    refine ⟨hsome, ?_⟩
    exact Option.some.inj (h.symm.trans (relocateEntries_eq l hsome))
  · rintro ⟨hsome, rfl⟩
    exact relocateEntries_eq l hsome

/-! ## One relocation -/

section

variable {l} {a target : Nat} {r : Relocation}

theorem patch_abs8 (hw : l.width = .w64) (hr : r.reloc = .abs8) :
    patch l a target r =
      (checkedAdd 64 target (r.unsignedAddend 64)).map fun v => some (a, leBytes 8 v) := by
  rw [patch, hw, hr]

theorem patch_pcRel4 (hw : l.width = .w32) (hr : r.reloc = .x86PCRel4) :
    patch l a target r =
      (checkedAdd 32 ((target + (2 ^ 32 - a % 2 ^ 32)) % 2 ^ 32)
        (r.unsignedAddend 32)).map fun v => some (a, leBytes 4 v) := by
  rw [patch, hw, hr]

/-- The kinds that are supported and ignored. -/
theorem patch_ignored (hs : Supported l.width r.reloc) (h8 : r.reloc ≠ .abs8)
    (h4 : r.reloc ≠ .x86PCRel4) : patch l a target r = some none := by
  rw [patch]
  cases hw : l.width with
  | w64 =>
    rw [hw] at hs
    rw [hs.resolve_left h8]
  | w32 =>
    rw [hw] at hs
    rcases hs.resolve_left h4 with h | h <;> rw [h]

theorem checkedAdd_eq_some {bits a b v : Nat} :
    checkedAdd bits a b = some v ↔ a + b < 2 ^ bits ∧ v = a + b := by
  rw [checkedAdd]
  split
  · next h => exact ⟨fun he => ⟨h, (Option.some.inj he).symm⟩, fun he => by rw [he.2]⟩
  · next h => exact ⟨(fun he => by cases he), fun he => absurd he.1 h⟩

theorem width_of_abs8 (hs : Supported l.width r.reloc) (hr : r.reloc = .abs8) : l.width = .w64 := by
  cases hw : l.width with
  | w64 => rfl
  | w32 =>
    rw [hw, hr] at hs
    rcases hs with h | h | h <;> cases h

theorem width_of_pcRel4 (hs : Supported l.width r.reloc) (hr : r.reloc = .x86PCRel4) :
    l.width = .w32 := by
  cases hw : l.width with
  | w32 => rfl
  | w64 =>
    rw [hw, hr] at hs
    rcases hs with h | h <;> cases h

/-- The eight bytes of a sum with the unsigned addend are those of the sum modulo `2 ^ 64`. -/
theorem abs8_value (target : Nat) (r : Relocation) :
    (ofLeBytes (leBytes 8 (target + r.unsignedAddend 64)) : Int) =
      (target + r.addend.toInt) % 2 ^ 64 := by
  have hu : r.unsignedAddend 64 = r.addend.toBitVec.toNat := by
    rw [Relocation.unsignedAddend, BitVec.setWidth_eq]
  have hi : r.addend.toInt = r.addend.toBitVec.toInt := rfl
  rw [ofLeBytes_leBytes, hi, BitVec.toInt_eq_toNat_cond]
  rw [hu]
  have hlt := r.addend.toBitVec.isLt
  split <;> omega

/-- And the four bytes of a distance are those modulo `2 ^ 32`. -/
theorem pcRel4_value (target a : Nat) (r : Relocation) :
    (ofLeBytes (leBytes 4 ((target + (2 ^ 32 - a % 2 ^ 32)) % 2 ^ 32 + r.unsignedAddend 32)) : Int) =
      (target - a + r.addend.toInt) % 2 ^ 32 := by
  have hu : r.unsignedAddend 32 = r.addend.toBitVec.toNat % 2 ^ 32 := by
    rw [Relocation.unsignedAddend, BitVec.toNat_setWidth]
  have hi : r.addend.toInt = r.addend.toBitVec.toInt := rfl
  rw [ofLeBytes_leBytes, hi, BitVec.toInt_eq_toNat_cond]
  rw [hu]
  have hlt := r.addend.toBitVec.isLt
  split <;> omega

end

section

variable {l} {p : Nat × Relocation} {e : Extent}

theorem relocation_eq (he : site l p = some e) :
    relocation l p.1 p.2 =
      (targetFuncAddress l p.2.relocTarget).bind fun target => patch l e.start target p.2 := by
  obtain ⟨body, hbody, rfl⟩ := Option.map_eq_some_iff.mp he
  rw [relocation, hbody]
  rfl

theorem site_width (he : site l p = some e) : e.len = p.2.reloc.width := by
  obtain ⟨body, -, rfl⟩ := Option.map_eq_some_iff.mp he
  rfl

/-- A relocation does not panic exactly when its sum fits. -/
theorem relocation_isSome (hs : Supported l.width p.2.reloc) (he : site l p = some e) :
    (relocation l p.1 p.2).isSome ↔ Fits l p := by
  rw [relocation_eq he]
  cases ht : targetFuncAddress l p.2.relocTarget with
  | none =>
    refine iff_of_false (by simp) ?_
    rintro ⟨target, -, htarget, -⟩
    rw [ht] at htarget
    cases htarget
  | some target =>
    have hfits : Fits l p ↔ (p.2.reloc = .abs8 → target + p.2.unsignedAddend 64 < 2 ^ 64) ∧
        (p.2.reloc = .x86PCRel4 →
          (target + (2 ^ 32 - e.start % 2 ^ 32)) % 2 ^ 32 + p.2.unsignedAddend 32 < 2 ^ 32) := by
      constructor
      · rintro ⟨target', e', htarget, he', h⟩
        obtain rfl := Option.some.inj (ht.symm.trans htarget)
        obtain rfl := Option.some.inj (he.symm.trans he')
        exact h
      · exact fun h => ⟨target, e, ht, he, h⟩
    rw [hfits, Option.bind_some]
    by_cases h8 : p.2.reloc = .abs8
    · rw [patch_abs8 (width_of_abs8 hs h8) h8, Option.isSome_map, Option.isSome_iff_exists]
      simp only [checkedAdd_eq_some, exists_and_left, exists_eq, and_true, h8, true_implies]
      simp
    · by_cases h4 : p.2.reloc = .x86PCRel4
      · rw [patch_pcRel4 (width_of_pcRel4 hs h4) h4, Option.isSome_map, Option.isSome_iff_exists]
        simp only [checkedAdd_eq_some, exists_and_left, exists_eq, and_true, h4, true_implies]
        simp
      · rw [patch_ignored hs h8 h4]
        exact iff_of_true rfl ⟨fun h => absurd h h8, fun h => absurd h h4⟩

/-- A write goes to the site of its relocation. -/
theorem extent_of_relocation (hs : Supported l.width p.2.reloc) (he : site l p = some e)
    {w : Nat × List UInt8} (h : relocation l p.1 p.2 = some (some w)) : extent w = e := by
  have hlen := site_width he
  rw [relocation_eq he] at h
  obtain ⟨target, -, hpatch⟩ := Option.bind_eq_some_iff.mp h
  by_cases h8 : p.2.reloc = .abs8
  · rw [patch_abs8 (width_of_abs8 hs h8) h8] at hpatch
    obtain ⟨v, -, hv⟩ := Option.map_eq_some_iff.mp hpatch
    obtain rfl := Option.some.inj hv
    rw [h8] at hlen
    exact Extent.ext rfl ((length_leBytes _ _).trans hlen.symm)
  · by_cases h4 : p.2.reloc = .x86PCRel4
    · rw [patch_pcRel4 (width_of_pcRel4 hs h4) h4] at hpatch
      obtain ⟨v, -, hv⟩ := Option.map_eq_some_iff.mp hpatch
      obtain rfl := Option.some.inj hv
      rw [h4] at hlen
      exact Extent.ext rfl ((length_leBytes _ _).trans hlen.symm)
    · rw [patch_ignored hs h8 h4] at hpatch
      cases hpatch

end

/-! ## All relocations -/

variable {l} {relocations : List (List Relocation)}

theorem entriesFrom_lt {i : Nat} {p : Nat × Relocation} (hp : p ∈ entriesFrom i relocations) :
    p.1 < i + relocations.length := by
  induction relocations generalizing i with
  | nil => exact absurd hp List.not_mem_nil
  | cons relocs relocations ih =>
    rw [List.length_cons]
    rcases List.mem_append.mp hp with hp | hp
    · obtain ⟨r, -, rfl⟩ := List.mem_map.mp hp
      exact Nat.lt_add_of_pos_right (Nat.succ_pos _)
    · have := ih hp
      omega

/-- Every relocation has a site. -/
theorem exists_site (hlen : relocations.length = l.allocatedFunctions.length) {p : Nat × Relocation}
    (hp : p ∈ entries relocations) : ∃ e, site l p = some e := by
  have hlt := entriesFrom_lt hp
  rw [Nat.zero_add, hlen] at hlt
  exact ⟨_, by rw [site, List.getElem?_eq_getElem hlt, Option.map_some]⟩

/-- Writes go to sites, so they are pairwise apart when the sites are. -/
theorem writes_pairwise {ps : List (Nat × Relocation)}
    (hs : ∀ p ∈ ps, Supported l.width p.2.reloc ∧ ∃ e, site l p = some e)
    (hsites : (ps.filterMap (site l)).Pairwise Extent.Apart) :
    (writes l ps).Pairwise fun w w' => (extent w).Apart (extent w') := by
  have hwrite {p : Nat × Relocation} {w : Nat × List UInt8} (hp : p ∈ ps)
      (hw : (relocation l p.1 p.2).join = some w) : site l p = some (extent w) := by
    obtain ⟨hsupp, e, he⟩ := hs p hp
    rw [he, extent_of_relocation hsupp he (Option.join_eq_some_iff.mp hw)]
  rw [writes, List.pairwise_filterMap]
  rw [List.pairwise_filterMap] at hsites
  refine hsites.imp_of_mem fun {p q} hp hq h w hw w' hw' => ?_
  exact h _ (hwrite hp hw) _ (hwrite hq hw')

theorem fits_pcRel4 {p : Nat × Relocation} {target : Nat} {e : Extent}
    (hr : p.2.reloc = .x86PCRel4) (ht : targetFuncAddress l p.2.relocTarget = some target) (he : site l p = some e)
    (hlt : (target + (2 ^ 32 - e.start % 2 ^ 32)) % 2 ^ 32 + p.2.unsignedAddend 32 < 2 ^ 32) : Fits l p := by
  refine ⟨target, e, ht, he, fun h => ?_, fun _ => hlt⟩
  rw [hr] at h
  cases h

/-- **Relocation arithmetic.** For relocations of kinds that the host supports, at sites that are pairwise
apart, `relocate` leaves each site with what it should hold, and the rest as it was, exactly when every
target has an address and no sum with an addend, taken as an unsigned number, overflows. -/
theorem relocates_iff {mem : Nat → UInt8}
    (hlen : relocations.length = l.allocatedFunctions.length)
    (hsupp : ∀ p ∈ entries relocations, Supported l.width p.2.reloc)
    (hsites : ((entries relocations).filterMap (site l)).Pairwise Extent.Apart) :
    Relocates l relocations mem ↔ ∀ p ∈ entries relocations, Fits l p := by
  constructor
  · rintro ⟨mem', hrun, -⟩ p hp
    obtain ⟨e, he⟩ := exists_site hlen hp
    exact (relocation_isSome (hsupp p hp) he).mp ((relocate_eq l).mp hrun |>.1 p hp)
  · intro hfits
    have hsome (p : Nat × Relocation) (hp : p ∈ entries relocations) :
        (relocation l p.1 p.2).isSome := by
      obtain ⟨e, he⟩ := exists_site hlen hp
      exact (relocation_isSome (hsupp p hp) he).mpr (hfits p hp)
    have hpair := writes_pairwise (fun p hp => ⟨hsupp p hp, exists_site hlen hp⟩) hsites
    have hload {p : Nat × Relocation} {e : Extent} {bytes : List UInt8}
        (hp : p ∈ entries relocations)
        (hrel : relocation l p.1 p.2 = some (some (e.start, bytes))) :
        loadAt (storeAll mem (writes l (entries relocations))) e.start bytes.length = bytes :=
      @loadAt_storeAll _ _ mem hpair (e.start, bytes)
        (List.mem_filterMap.mpr ⟨p, hp, by rw [hrel]; rfl⟩)
    refine ⟨_, (relocate_eq l).mpr ⟨hsome, rfl⟩, fun p hp h8 => ?_, fun p hp h4 => ?_, fun a ha => ?_⟩
    · obtain ⟨target, e, ht, he, hlt, -⟩ := hfits p hp
      have hrel : relocation l p.1 p.2 =
          some (some (e.start, leBytes 8 (target + p.2.unsignedAddend 64))) := by
        rw [relocation_eq he, ht, Option.bind_some, patch_abs8 (width_of_abs8 (hsupp p hp) h8) h8,
          checkedAdd_eq_some.mpr ⟨hlt h8, rfl⟩]
        rfl
      have hbytes := hload hp hrel
      rw [length_leBytes] at hbytes
      exact ⟨target, e, ht, he, by rw [hbytes, abs8_value]⟩
    · obtain ⟨target, e, ht, he, -, hlt⟩ := hfits p hp
      have hrel : relocation l p.1 p.2 = some (some (e.start, leBytes 4
          ((target + (2 ^ 32 - e.start % 2 ^ 32)) % 2 ^ 32 + p.2.unsignedAddend 32))) := by
        rw [relocation_eq he, ht, Option.bind_some, patch_pcRel4 (width_of_pcRel4 (hsupp p hp) h4) h4,
          checkedAdd_eq_some.mpr ⟨hlt h4, rfl⟩]
        rfl
      have hbytes := hload hp hrel
      rw [length_leBytes] at hbytes
      exact ⟨target, e, ht, he, by rw [hbytes, pcRel4_value]⟩
    · refine storeAll_frame fun w hw => ?_
      obtain ⟨p, hp, hjoin⟩ := List.mem_filterMap.mp hw
      obtain ⟨e, he⟩ := exists_site hlen hp
      rw [extent_of_relocation (hsupp p hp) he (Option.join_eq_some_iff.mp hjoin)]
      exact ha p hp e he

end

/-- Two functions of sixteen bytes, at 4096 and at 4112, on a host with pointers of four bytes. -/
def twoFunctions : Linkage Unit where
  width := .w32
  symbols := ⟨0, 0, 0, 0, 0, 0, 0, 0, 0, 0, 0, 0, 0⟩
  allocatedFunctions := [⟨4096, 16⟩, ⟨4112, 16⟩]
  jtOffsets := [[], []]
  module := { (Module.new : Module Unit) with functions := [0, 0] }

/-- The first function refers to itself and to the second, and the second to the first, with addends of either
sign. -/
def eachOther : List (List Relocation) :=
  [[⟨.x86PCRel4, .userFunc 0, 0, -4⟩, ⟨.x86PCRel4, .userFunc 1, 8, 4⟩], [⟨.x86PCRel4, .userFunc 0, 4, 4⟩]]

theorem relocates_eachOther : ∃ mem, relocate twoFunctions eachOther (fun _ => 0) = some mem ∧
    Relocated twoFunctions eachOther (fun _ => 0) mem ∧
      loadAt mem 4096 4 = [0xfc, 0xff, 0xff, 0xff] ∧ loadAt mem 4104 4 = [12, 0, 0, 0] ∧
        loadAt mem 4116 4 = [0xf0, 0xff, 0xff, 0xff] := by
  have hentries : entries eachOther = [(0, ⟨.x86PCRel4, .userFunc 0, 0, -4⟩),
    (0, ⟨.x86PCRel4, .userFunc 1, 8, 4⟩), (1, ⟨.x86PCRel4, .userFunc 0, 4, 4⟩)] := rfl
  have hsupported : ∀ p ∈ entries eachOther, Supported twoFunctions.width p.2.reloc := by
    rw [hentries]
    simp [Supported, twoFunctions]
  have hsites : ((entries eachOther).filterMap (site twoFunctions)).Pairwise Extent.Apart := by
    have hstop : [(⟨4096, 4⟩ : Extent), ⟨4104, 4⟩, ⟨4116, 4⟩].Pairwise fun e f => e.stop ≤ f.start := by decide
    exact hstop.imp Extent.apart_of_stop_le
  have hfits : ∀ p ∈ entries eachOther, Fits twoFunctions p := by
    rw [hentries, List.forall_mem_cons, List.forall_mem_cons, List.forall_mem_singleton]
    refine ⟨?_, ?_, ?_⟩
    · exact fits_pcRel4 rfl rfl rfl (by decide)
    · exact fits_pcRel4 rfl rfl rfl (by decide)
    · exact fits_pcRel4 rfl rfl rfl (by decide)
  obtain ⟨mem, hrun, hrelocated⟩ := (relocates_iff (l := twoFunctions) rfl hsupported hsites).mpr hfits
  refine ⟨mem, hrun, hrelocated, ?_⟩
  obtain rfl := Option.some.inj hrun
  exact ⟨by decide, by decide, by decide⟩
/-- A module with one function, of sixteen bytes at address 4096, on a host with pointers of eight bytes. -/
def oneFunction : Linkage Unit where
  width := .w64
  symbols := ⟨0, 0, 0, 0, 0, 0, 0, 0, 0, 0, 0, 0, 0⟩
  allocatedFunctions := [⟨4096, 16⟩]
  jtOffsets := [[]]
  module := { (Module.new : Module Unit) with functions := [0] }

/-- Its address is written to its offset 8. -/
def toItself (addend : Int64) : List (List Relocation) := [[⟨.abs8, .userFunc 0, 8, addend⟩]]

theorem supported_toItself (addend : Int64) :
    ∀ p ∈ entries (toItself addend), Supported oneFunction.width p.2.reloc := by
  intro p hp
  obtain rfl := List.mem_singleton.mp hp
  exact .inl rfl

/-- An addend of -4 overflows the checked addition. -/
theorem not_relocates_negative : (∀ p ∈ entries (toItself (-4)), Supported oneFunction.width p.2.reloc) ∧
    ((entries (toItself (-4))).filterMap (site oneFunction)).Pairwise Extent.Apart ∧
    ¬ Relocates oneFunction (toItself (-4)) fun _ => 0 := by
  refine ⟨supported_toItself (-4), List.pairwise_singleton _ _, ?_⟩
  rintro ⟨mem', hrun, -⟩
  obtain ⟨hsome, -⟩ := (relocate_eq oneFunction).mp hrun
  have hpanic : relocation oneFunction 0 ⟨.abs8, .userFunc 0, 8, -4⟩ = none := by decide
  have := hsome (0, ⟨.abs8, .userFunc 0, 8, -4⟩) List.mem_cons_self
  rw [hpanic] at this
  cases this

end Wasmtime.Jit
