import Mathlib.Data.List.Nodup
import Wasmtime.Environ.ModuleEnviron
import Wasmtime.Jit.Link

/-!
# Imports by position

What `Instance::new` (`wasmtime-api/src/instance.rs`) binds the imports of a module to.

* A binary is the callbacks of its translation, in order; `Module::imports` lists the imports among them in
  the same order, and `link_module` goes through them kind by kind.
* An extern is the `Export` that `get_wasmtime_export` gives.
* `Instance::new` zips the imports with the externs and throws away the positions; `SimpleResolver` looks for
  the first entry of the names.

Results:
* `linkModule_iff`: what `link_module` binds, by the positions of the imports.
* `bindsByPosition_iff`: imports are bound by position exactly when the first of the imports that share their
  names makes no difference; `agrees_of_nodup`: it makes none when no two imports share their names.
-/

namespace Wasmtime.Api

open Environ Wasmtime.Runtime Wasmtime.Jit

variable {Sig : Type}

/-! ## The imports of a binary -/

/-- An entry of the import section. -/
structure ImportEntry where
  kind : Kind
  module : String
  field : String
  deriving DecidableEq, Repr

/-- The import that a callback declares. -/
def importEntry : Declaration Sig → Option ImportEntry
  | .funcImport _ module field => some ⟨.function, module, field⟩
  | .tableImport _ module field => some ⟨.table, module, field⟩
  | .memoryImport _ module field => some ⟨.memory, module, field⟩
  | .globalImport _ module field => some ⟨.global, module, field⟩
  | _ => none

/-- `Module::imports`. -/
def imports (ds : List (Declaration Sig)) : List ImportEntry := ds.filterMap importEntry

/-- `translate_module`: the callbacks in order. -/
def declareAll (translateSignature : Sig → Sig) :
    ModuleTranslation Sig → List (Declaration Sig) → Option (ModuleTranslation Sig)
  | t, [] => some t
  | t, d :: ds => (t.declare translateSignature d).bind fun t => declareAll translateSignature t ds

/-- The imports of a kind in a `Module`. -/
def importedOf (m : Module Sig) : Kind → List (String × String)
  | .function => m.importedFuncs
  | .table => m.importedTables
  | .memory => m.importedMemories
  | .global => m.importedGlobals

/-- The names of an entry, if it is of a kind. -/
def namesIf (kind : Kind) (e : ImportEntry) : Option (String × String) :=
  if e.kind = kind then some (e.module, e.field) else none

/-- The names of the entries of a kind. -/
def namesOf (kind : Kind) (es : List ImportEntry) : List (String × String) :=
  es.filterMap (namesIf kind)

/-- The index of the `k`-th entry among those of its kind. -/
def slot (es : List ImportEntry) (kind : Kind) (k : Nat) : Nat := (namesOf kind (es.take k)).length

/-! ## `Instance::new` -/

/-- `SimpleResolver::resolve`, on the imports zipped with the externs. -/
def simpleResolver (es : List ImportEntry) (externs : List (ExportValue Sig)) : Resolver Sig :=
  fun name field =>
    ((es.zip externs).find? fun p => name = p.1.module ∧ field = p.1.field).map Prod.snd

/-- What `instantiate` links for `Instance::new`. -/
def instanceNew [DecidableEq Sig] (m : Module Sig) (es : List ImportEntry)
    (externs : List (ExportValue Sig)) : Linked Imports :=
  linkModule (simpleResolver es externs) m

/-! ## What an import is bound to -/

/-- What is recorded for an import. -/
inductive Bound where
  | function (imp : VMFunctionImport)
  | table (imp : VMImport)
  | memory (imp : VMImport)
  | global (p : DefinitionPtr)
  deriving DecidableEq, Repr

/-- The record at an index of a kind. -/
def boundAt (imports : Imports) : Kind → Nat → Option Bound
  | .function, i => imports.functions[i]?.map .function
  | .table, i => imports.tables[i]?.map .table
  | .memory, i => imports.memories[i]?.map .memory
  | .global, i => imports.globals[i]?.map .global

/-- The number of records of a kind. -/
def boundCount (imports : Imports) : Kind → Nat
  | .function => imports.functions.length
  | .table => imports.tables.length
  | .memory => imports.memories.length
  | .global => imports.globals.length

/-- The link of one import, given the export it is resolved to. -/
def linkImport [DecidableEq Sig] (m : Module Sig) (e : ImportEntry) (index : Nat)
    (resolved : Option (ExportValue Sig)) : Linked Bound :=
  match e.kind with
  | .function => (linkFunction (fun _ _ => resolved) m index e.module e.field).bind (.ok ∘ .function)
  | .table => (linkTable (fun _ _ => resolved) m index e.module e.field).bind (.ok ∘ .table)
  | .memory => (linkMemory (fun _ _ => resolved) m index e.module e.field).bind (.ok ∘ .memory)
  | .global => (linkGlobal (fun _ _ => resolved) m index e.module e.field).bind (.ok ∘ .global)

section

variable [DecidableEq Sig] (m : Module Sig) (es : List ImportEntry)

/-- The `k`-th import is recorded as what the `k`-th export of `pick` gives. -/
structure Links (pick : Nat → Option (ExportValue Sig)) (imports : Imports) : Prop where
  count : ∀ kind, boundCount imports kind = (namesOf kind es).length
  bound : ∀ k e, es[k]? = some e → ∃ b, linkImport m e (slot es e.kind k) (pick k) = .ok b ∧
    boundAt imports e.kind (slot es e.kind k) = some b

/-- Imports are bound by position. -/
structure BindsByPosition (externs : List (ExportValue Sig)) : Prop where
  position : ∀ imports, instanceNew m es externs = .ok imports ↔ Links m es (externs[·]?) imports
  fewer : externs.length < es.length → ∀ imports, instanceNew m es externs ≠ .ok imports

/-- Two entries have the same names. -/
def SameNames (e d : ImportEntry) : Prop := e.module = d.module ∧ e.field = d.field

instance instDecidableSameNames (e d : ImportEntry) : Decidable (SameNames e d) :=
  inferInstanceAs (Decidable (_ ∧ _))

/-- The position of the first entry with the names of the `k`-th. -/
def firstOf (k : Nat) : Nat :=
  match es[k]? with
  | some e => es.findIdx fun d => SameNames e d
  | none => k

/-- An export fits the `k`-th import. -/
def Fits (k : Nat) (resolved : Option (ExportValue Sig)) : Prop :=
  ∀ e, es[k]? = some e → ∃ b, linkImport m e (slot es e.kind k) resolved = .ok b

/-- For no import does it make a difference that the first of its names is taken: each export fits and is
recorded the same, or neither the exports of the positions nor those of the names all fit. -/
def BoundAlike (externs : List (ExportValue Sig)) : Prop :=
  (∀ k e, es[k]? = some e → ∃ b, linkImport m e (slot es e.kind k) externs[k]? = .ok b ∧
    linkImport m e (slot es e.kind k) externs[firstOf es k]? = .ok b) ∨
  (¬ ∀ k, Fits m es k externs[k]?) ∧ ¬ ∀ k, Fits m es k externs[firstOf es k]?

end

/-! ## The kinds of a binary -/

theorem declare_importedOf {translateSignature : Sig → Sig} {t t' : ModuleTranslation Sig}
    {d : Declaration Sig} (h : t.declare translateSignature d = some t') (kind : Kind) :
    importedOf t'.module kind = importedOf t.module kind ++ namesOf kind (imports [d]) := by
  cases d with
  | funcImport sigIndex module field =>
    rw [ModuleTranslation.declare] at h
    split at h
    · obtain rfl := Option.some.inj h
      cases kind <;> simp [importedOf, imports, importEntry, namesOf, namesIf]
    · cases h
  | tableImport table module field =>
    rw [ModuleTranslation.declare] at h
    split at h
    · obtain rfl := Option.some.inj h
      cases kind <;> simp [importedOf, imports, importEntry, namesOf, namesIf]
    · cases h
  | memoryImport memory module field =>
    rw [ModuleTranslation.declare] at h
    split at h
    · obtain ⟨plan, -, rfl⟩ := Option.map_eq_some_iff.mp h
      cases kind <;> simp [importedOf, imports, importEntry, namesOf, namesIf]
    · cases h
  | globalImport global module field =>
    rw [ModuleTranslation.declare] at h
    split at h
    · obtain rfl := Option.some.inj h
      cases kind <;> simp [importedOf, imports, importEntry, namesOf, namesIf]
    · cases h
  | memory memory =>
    obtain ⟨plan, -, rfl⟩ := Option.map_eq_some_iff.mp h
    cases kind <;> simp [importedOf, imports, importEntry, namesOf]
  | startFunc index =>
    rw [ModuleTranslation.declare] at h
    split at h
    · obtain rfl := Option.some.inj h
      cases kind <;> simp [importedOf, imports, importEntry, namesOf]
    · cases h
  | signature _ | funcType _ | table _ | global _ | exported _ _ | tableElements _ | functionBody _ =>
    obtain rfl := Option.some.inj h
    cases kind <;> simp [importedOf, imports, importEntry, namesOf]

theorem declareAll_importedOf {translateSignature : Sig → Sig} {ds : List (Declaration Sig)}
    {t t' : ModuleTranslation Sig} (h : declareAll translateSignature t ds = some t') (kind : Kind) :
    importedOf t'.module kind = importedOf t.module kind ++ namesOf kind (imports ds) := by
  induction ds generalizing t with
  | nil =>
    obtain rfl := Option.some.inj h
    exact (List.append_nil _).symm
  | cons d ds ih =>
    obtain ⟨t₁, hd, h⟩ := Option.bind_eq_some_iff.mp h
    have happend : namesOf kind (imports (d :: ds)) =
        namesOf kind (imports [d]) ++ namesOf kind (imports ds) := by
      rw [namesOf, namesOf, namesOf, ← List.filterMap_append, imports, imports, imports,
        ← List.filterMap_append, List.singleton_append]
    rw [ih h, declare_importedOf hd, happend, List.append_assoc]

/-- The imports of a translated module are those of the binary, kind by kind. -/
theorem importedOf_eq {translateSignature : Sig → Sig} {tunables : Tunables}
    {ds : List (Declaration Sig)} {t : ModuleTranslation Sig}
    (h : declareAll translateSignature (.new tunables) ds = some t) (kind : Kind) :
    importedOf t.module kind = namesOf kind (imports ds) := by
  rw [declareAll_importedOf h]
  cases kind <;> rfl

/-! ## Positions and slots -/

section

variable {es : List ImportEntry} {e d : ImportEntry} {k l : Nat}

theorem namesOf_split (h : es[k]? = some e) (kind : Kind) :
    namesOf kind es = namesOf kind (es.take k) ++ namesOf kind (e :: es.drop (k + 1)) := by
  obtain ⟨hk, rfl⟩ := List.getElem?_eq_some_iff.mp h
  rw [namesOf, namesOf, namesOf, ← List.filterMap_append, ← List.drop_eq_getElem_cons hk,
    List.take_append_drop]

theorem namesOf_cons_self (es : List ImportEntry) :
    namesOf e.kind (e :: es) = (e.module, e.field) :: namesOf e.kind es := by
  rw [namesOf, List.filterMap_cons, namesIf, if_pos rfl]
  rfl

/-- The `k`-th entry is the one of its slot. -/
theorem namesOf_slot (h : es[k]? = some e) :
    (namesOf e.kind es)[slot es e.kind k]? = some (e.module, e.field) := by
  rw [slot, namesOf_split h, List.getElem?_append_right (Nat.le_refl _), Nat.sub_self, namesOf_cons_self]
  rfl

theorem slot_lt_slot (h : es[k]? = some e) (hkl : k < l) : slot es e.kind k < slot es e.kind l := by
  have htake : (es.take l)[k]? = some e := by
    rw [List.getElem?_take_of_lt hkl, h]
  have hlen := congrArg List.length (namesOf_split htake e.kind)
  rw [List.take_take, Nat.min_eq_left (Nat.le_of_lt hkl), List.length_append, namesOf_cons_self,
    List.length_cons] at hlen
  rw [slot, slot, hlen]
  omega

/-- Entries of one kind and slot are the same. -/
theorem slot_inj (hk : es[k]? = some e) (hl : es[l]? = some d) (hkind : e.kind = d.kind)
    (h : slot es e.kind k = slot es d.kind l) : k = l := by
  rcases Nat.lt_trichotomy k l with hlt | heq | hgt
  · have := slot_lt_slot hk hlt
    rw [hkind] at this h
    omega
  · exact heq
  · have := slot_lt_slot hl hgt
    rw [hkind] at h
    omega

/-- Every slot is that of an entry. -/
theorem exists_position {kind : Kind} {j : Nat} {p : String × String}
    (h : (namesOf kind es)[j]? = some p) :
    ∃ k e, es[k]? = some e ∧ e.kind = kind ∧ (e.module, e.field) = p ∧ slot es kind k = j := by
  induction es generalizing j with
  | nil => cases h
  | cons d es ih =>
    by_cases hd : d.kind = kind
    · subst hd
      rw [namesOf_cons_self] at h
      cases j with
      | zero => exact ⟨0, d, rfl, rfl, Option.some.inj h, rfl⟩
      | succ j =>
        obtain ⟨k, e, hk, hkind, hp, hslot⟩ := ih h
        refine ⟨k + 1, e, hk, hkind, hp, ?_⟩
        rw [slot, List.take_succ_cons, namesOf_cons_self, List.length_cons, ← slot, hslot]
    · have hcons (es : List ImportEntry) : namesOf kind (d :: es) = namesOf kind es := by
        rw [namesOf, List.filterMap_cons, namesIf, if_neg hd]
        rfl
      rw [hcons] at h
      obtain ⟨k, e, hk, hkind, hp, hslot⟩ := ih h
      refine ⟨k + 1, e, hk, hkind, hp, ?_⟩
      rw [slot, List.take_succ_cons, hcons, ← slot, hslot]

end

/-! ## Linking by position -/

section

variable {α : Type} {link : Nat → String → String → Linked α} {k : Nat}
  {names : List (String × String)} {as : List α}

theorem linkAll_eq_ok : linkAll link k names = .ok as ↔ as.length = names.length ∧
    ∀ (j : Nat) p, names[j]? = some p → ∃ a, link (k + j) p.1 p.2 = .ok a ∧ as[j]? = some a := by
  constructor
  · intro h
    have hlen := linkAll_length h
    refine ⟨hlen, fun j p hj => ?_⟩
    obtain ⟨hlt, -⟩ := List.getElem?_eq_some_iff.mp hj
    obtain ⟨module, field, hname, hlink⟩ :=
      linkAll_ok h j as[j] (List.getElem?_eq_getElem (hlen ▸ hlt))
    obtain rfl := Option.some.inj (hj.symm.trans hname)
    exact ⟨as[j], hlink, List.getElem?_eq_getElem _⟩
  · rintro ⟨hlen, h⟩
    induction names generalizing k as with
    | nil =>
      rw [List.length_eq_zero_iff.mp hlen]
      rfl
    | cons p names ih =>
      obtain ⟨b, hb, hzero⟩ := h 0 p rfl
      cases as with
      | nil => cases hzero
      | cons a as =>
        obtain rfl := Option.some.inj hzero
        rw [Nat.add_zero] at hb
        have hrest := ih (k := k + 1) (Nat.succ.inj hlen) fun j p hj => by
          obtain ⟨c, hc, hj⟩ := h (j + 1) p hj
          exact ⟨c, by rw [← hc]; congr 1; omega, hj⟩
        rw [linkAll, hb, Ending.ok_bind, hrest, Ending.ok_bind]

end

section

variable [DecidableEq Sig] {m : Module Sig} {es : List ImportEntry} {resolve : Resolver Sig}
  {imports : Imports}

theorem bind_eq_ok_iff {α : Type} {l : Linked α} {f : α → Bound} {b : Bound} :
    l.bind (.ok ∘ f) = .ok b ↔ ∃ a, l = .ok a ∧ f a = b := by
  constructor
  · intro h
    obtain ⟨a, ha, h⟩ := Ending.bind_eq_ok.mp h
    exact ⟨a, ha, Ending.ok.inj h⟩
  · rintro ⟨a, rfl, rfl⟩
    rfl

/-- One loop of `link_module`, by the positions of its imports: `link` is the round, `f` the record. -/
theorem linkAll_iff {α : Type} {link : Nat → String → String → Linked α} {f : α → Bound}
    (hf : Function.Injective f) {kind : Kind} {as : List α} :
    linkAll link 0 (namesOf kind es) = .ok as ↔ as.length = (namesOf kind es).length ∧
      ∀ k e, es[k]? = some e → e.kind = kind →
        ∃ b, (link (slot es kind k) e.module e.field).bind (.ok ∘ f) = .ok b ∧
          as[slot es kind k]?.map f = some b := by
  rw [linkAll_eq_ok]
  refine and_congr_right fun _ => ⟨?_, ?_⟩
  · rintro h k e hk rfl
    obtain ⟨a, ha, hj⟩ := h _ _ (namesOf_slot hk)
    rw [Nat.zero_add] at ha
    exact ⟨f a, bind_eq_ok_iff.mpr ⟨a, ha, rfl⟩, by rw [hj]; rfl⟩
  · intro h j p hj
    obtain ⟨k, e, hk, rfl, rfl, rfl⟩ := exists_position hj
    obtain ⟨b, hb, hslot⟩ := h k e hk rfl
    obtain ⟨a, ha, rfl⟩ := bind_eq_ok_iff.mp hb
    obtain ⟨a', ha', hf'⟩ := Option.map_eq_some_iff.mp hslot
    rw [Nat.zero_add]
    exact ⟨a, ha, hf hf' ▸ ha'⟩

theorem linkModule_eq_ok : linkModule resolve m = .ok imports ↔
    linkAll (linkFunction resolve m) 0 m.importedFuncs = .ok imports.functions ∧
    linkAll (linkTable resolve m) 0 m.importedTables = .ok imports.tables ∧
    linkAll (linkMemory resolve m) 0 m.importedMemories = .ok imports.memories ∧
    linkAll (linkGlobal resolve m) 0 m.importedGlobals = .ok imports.globals := by
  constructor
  · intro h
    obtain ⟨functions, hfunctions, h⟩ := Ending.bind_eq_ok.mp h
    obtain ⟨tables, htables, h⟩ := Ending.bind_eq_ok.mp h
    obtain ⟨memories, hmemories, h⟩ := Ending.bind_eq_ok.mp h
    obtain ⟨globals, hglobals, h⟩ := Ending.bind_eq_ok.mp h
    obtain rfl := Ending.ok.inj h
    exact ⟨hfunctions, htables, hmemories, hglobals⟩
  · rintro ⟨hfunctions, htables, hmemories, hglobals⟩
    rw [linkModule, hfunctions, Ending.ok_bind, htables, Ending.ok_bind, hmemories, Ending.ok_bind,
      hglobals, Ending.ok_bind]

/-- What `link_module` binds. -/
theorem linkModule_iff (hm : ∀ kind, importedOf m kind = namesOf kind es) :
    linkModule resolve m = .ok imports ↔
      Links m es (fun k => (es[k]?).bind fun e => resolve e.module e.field) imports := by
  have hfunction := hm .function
  have htable := hm .table
  have hmemory := hm .memory
  have hglobal := hm .global
  simp only [importedOf] at hfunction htable hmemory hglobal
  rw [linkModule_eq_ok, hfunction, htable, hmemory, hglobal,
    linkAll_iff (f := Bound.function) fun _ _ => Bound.function.inj,
    linkAll_iff (f := Bound.table) fun _ _ => Bound.table.inj,
    linkAll_iff (f := Bound.memory) fun _ _ => Bound.memory.inj,
    linkAll_iff (f := Bound.global) fun _ _ => Bound.global.inj]
  constructor
  · rintro ⟨⟨hf, hfs⟩, ⟨ht, hts⟩, ⟨hm, hms⟩, hg, hgs⟩
    refine ⟨fun kind => by cases kind <;> assumption, fun k e hk => ?_⟩
    rw [hk, Option.bind_some, linkImport]
    cases hkind : e.kind with
    | function => exact hfs k e hk hkind
    | table => exact hts k e hk hkind
    | memory => exact hms k e hk hkind
    | global => exact hgs k e hk hkind
  · rintro ⟨hcount, hbound⟩
    have hround (kind : Kind) (k : Nat) (e : ImportEntry) (hk : es[k]? = some e) (hkind : e.kind = kind) :
        ∃ b, linkImport m e (slot es kind k) (resolve e.module e.field) = .ok b ∧
          boundAt imports kind (slot es kind k) = some b := by
      have := hbound k e hk
      rwa [hk, Option.bind_some, hkind] at this
    simp only [linkImport] at hround
    refine ⟨⟨hcount .function, fun k e hk hkind => ?_⟩, ⟨hcount .table, fun k e hk hkind => ?_⟩,
      ⟨hcount .memory, fun k e hk hkind => ?_⟩, hcount .global, fun k e hk hkind => ?_⟩
    all_goals
      have := hround _ k e hk hkind
      rw [hkind] at this
      exact this

theorem Links.congr {p q : Nat → Option (ExportValue Sig)}
    (h : ∀ k e, es[k]? = some e → p k = q k) (hp : Links m es p imports) : Links m es q imports :=
  ⟨hp.count, fun k e hk => by rw [← h k e hk]; exact hp.bound k e hk⟩

theorem exists_list {α : Type} {P : Nat → α → Prop} {n : Nat} (h : ∀ j < n, ∃ a, P j a) :
    ∃ as : List α, as.length = n ∧ ∀ (j : Nat) a, as[j]? = some a → P j a := by
  choose f hf using fun j : Fin n => h j j.isLt
  refine ⟨List.ofFn f, List.length_ofFn, fun j a hj => ?_⟩
  obtain ⟨hlt, rfl⟩ := List.getElem?_eq_some_iff.mp hj
  rw [List.getElem_ofFn]
  exact hf ⟨j, by rwa [List.length_ofFn] at hlt⟩

/-- The records of a kind, when every export fits. -/
theorem exists_records {α : Type} {f : α → Bound} {kind : Kind} {pick : Nat → Option (ExportValue Sig)}
    (h : ∀ k e, es[k]? = some e → e.kind = kind →
      ∃ a, linkImport m e (slot es kind k) (pick k) = .ok (f a)) :
    ∃ as : List α, as.length = (namesOf kind es).length ∧ ∀ k e, es[k]? = some e → e.kind = kind →
      ∃ a, linkImport m e (slot es kind k) (pick k) = .ok (f a) ∧ as[slot es kind k]? = some a := by
  obtain ⟨as, hlen, has⟩ := @exists_list α (fun j a => ∀ k e, es[k]? = some e → e.kind = kind →
    slot es kind k = j → linkImport m e j (pick k) = .ok (f a)) (namesOf kind es).length fun j hj => by
      obtain ⟨k, e, hk, hkind, -, rfl⟩ := exists_position (List.getElem?_eq_getElem hj)
      obtain ⟨a, ha⟩ := h k e hk hkind
      refine ⟨a, fun l d hl hkind' hslot => ?_⟩
      subst hkind
      obtain rfl := slot_inj hl hk hkind' (by rw [hkind']; exact hslot)
      obtain rfl := Option.some.inj (hk.symm.trans hl)
      exact ha
  refine ⟨as, hlen, fun k e hk hkind => ?_⟩
  subst hkind
  obtain ⟨hlt, -⟩ := List.getElem?_eq_some_iff.mp (namesOf_slot hk)
  have hget := List.getElem?_eq_getElem (hlen ▸ hlt)
  exact ⟨_, has _ _ hget k e hk rfl rfl, hget⟩

/-- Exports that all fit are what some link records. -/
theorem exists_links {pick : Nat → Option (ExportValue Sig)} (h : ∀ k, Fits m es k (pick k)) :
    ∃ imports, Links m es pick imports := by
  have hfit (k : Nat) (e : ImportEntry) (hk : es[k]? = some e) (kind : Kind) (hkind : e.kind = kind) :
      ∃ b, linkImport m e (slot es kind k) (pick k) = .ok b := by
    obtain ⟨b, hb⟩ := h k e hk
    exact ⟨b, hkind ▸ hb⟩
  obtain ⟨functions, hf, hfs⟩ := @exists_records _ _ m es _ Bound.function .function pick
    fun k e hk hkind => by
      obtain ⟨b, hb⟩ := hfit k e hk _ hkind
      rw [linkImport, hkind] at hb ⊢
      obtain ⟨a, -, rfl⟩ := bind_eq_ok_iff.mp hb
      exact ⟨a, hb⟩
  obtain ⟨tables, ht, hts⟩ := @exists_records _ _ m es _ Bound.table .table pick
    fun k e hk hkind => by
      obtain ⟨b, hb⟩ := hfit k e hk _ hkind
      rw [linkImport, hkind] at hb ⊢
      obtain ⟨a, -, rfl⟩ := bind_eq_ok_iff.mp hb
      exact ⟨a, hb⟩
  obtain ⟨memories, hm, hms⟩ := @exists_records _ _ m es _ Bound.memory .memory pick
    fun k e hk hkind => by
      obtain ⟨b, hb⟩ := hfit k e hk _ hkind
      rw [linkImport, hkind] at hb ⊢
      obtain ⟨a, -, rfl⟩ := bind_eq_ok_iff.mp hb
      exact ⟨a, hb⟩
  obtain ⟨globals, hg, hgs⟩ := @exists_records _ _ m es _ Bound.global .global pick
    fun k e hk hkind => by
      obtain ⟨b, hb⟩ := hfit k e hk _ hkind
      rw [linkImport, hkind] at hb ⊢
      obtain ⟨a, -, rfl⟩ := bind_eq_ok_iff.mp hb
      exact ⟨a, hb⟩
  refine ⟨⟨functions, tables, memories, globals⟩, fun kind => by cases kind <;> assumption,
    fun k e hk => ?_⟩
  cases hkind : e.kind with
  | function =>
    obtain ⟨a, ha, hslot⟩ := hfs k e hk hkind
    exact ⟨_, ha, by rw [boundAt, hslot]; rfl⟩
  | table =>
    obtain ⟨a, ha, hslot⟩ := hts k e hk hkind
    exact ⟨_, ha, by rw [boundAt, hslot]; rfl⟩
  | memory =>
    obtain ⟨a, ha, hslot⟩ := hms k e hk hkind
    exact ⟨_, ha, by rw [boundAt, hslot]; rfl⟩
  | global =>
    obtain ⟨a, ha, hslot⟩ := hgs k e hk hkind
    exact ⟨_, ha, by rw [boundAt, hslot]; rfl⟩

theorem Links.fits {pick : Nat → Option (ExportValue Sig)} (h : Links m es pick imports) (k : Nat) :
    Fits m es k (pick k) := fun e hk => by
  obtain ⟨b, hb, -⟩ := h.bound k e hk
  exact ⟨b, hb⟩

end

/-! ## The first of the names -/

/-- A search in a zip is a search in its first list. -/
theorem find?_zip {α β : Type} {q : α → Bool} {as : List α} {bs : List β} (h : ∃ a ∈ as, q a = true) :
    ((as.zip bs).find? fun p => q p.1).map Prod.snd = bs[as.findIdx q]? := by
  induction as generalizing bs with
  | nil => exact absurd h (by simp)
  | cons a as ih =>
    cases bs with
    | nil => rfl
    | cons b bs =>
      rw [List.zip_cons_cons, List.find?_cons, List.findIdx_cons]
      cases hq : q a with
      | true => rfl
      | false =>
        obtain ⟨d, hd, hqd⟩ := h
        rcases List.mem_cons.mp hd with rfl | hd
        · exact absurd (hq.symm.trans hqd) Bool.false_ne_true
        · exact ih ⟨d, hd, hqd⟩

section

variable [DecidableEq Sig] {m : Module Sig} {es : List ImportEntry} {externs : List (ExportValue Sig)}

omit [DecidableEq Sig] in
theorem simpleResolver_eq {k : Nat} {e : ImportEntry} (hk : es[k]? = some e) :
    simpleResolver es externs e.module e.field = externs[firstOf es k]? := by
  rw [firstOf, hk]
  exact find?_zip (q := fun d => SameNames e d)
    ⟨e, List.mem_of_getElem? hk, decide_eq_true ⟨rfl, rfl⟩⟩

/-- What `Instance::new` binds: the externs of the names. -/
theorem instanceNew_iff (hm : ∀ kind, importedOf m kind = namesOf kind es) {imports : Imports} :
    instanceNew m es externs = .ok imports ↔
      Links m es (fun k => externs[firstOf es k]?) imports := by
  have heq (k : Nat) (e : ImportEntry) (hk : es[k]? = some e) :
      ((es[k]?).bind fun e => simpleResolver es externs e.module e.field) =
        externs[firstOf es k]? := by
    rw [hk, Option.bind_some, simpleResolver_eq hk]
  rw [instanceNew, linkModule_iff hm]
  exact ⟨Links.congr heq, Links.congr fun k e hk => (heq k e hk).symm⟩

/-- Fewer externs than imports do not fit. -/
theorem not_fits_of_fewer (h : externs.length < es.length) : ¬ ∀ k, Fits m es k externs[k]? := by
  intro hfits
  obtain ⟨b, hb⟩ := hfits externs.length es[externs.length] (List.getElem?_eq_getElem h)
  rw [List.getElem?_eq_none (Nat.le_refl _), linkImport] at hb
  split at hb <;> cases hb

/-- For a module whose imports are those of the binary, kind by kind. -/
theorem bindsByPosition_of_importedOf (hm : ∀ kind, importedOf m kind = namesOf kind es) :
    BindsByPosition m es externs ↔ BoundAlike m es externs := by
  constructor
  · rintro ⟨hposition, -⟩
    by_cases hnames : ∀ k, Fits m es k externs[firstOf es k]?
    · obtain ⟨imports, hlinks⟩ := exists_links hnames
      have hlinks' := (hposition imports).mp ((instanceNew_iff hm).mpr hlinks)
      refine Or.inl fun k e hk => ?_
      obtain ⟨b, hb, hat⟩ := hlinks.bound k e hk
      obtain ⟨b', hb', hat'⟩ := hlinks'.bound k e hk
      obtain rfl := Option.some.inj (hat.symm.trans hat')
      exact ⟨b, hb', hb⟩
    · refine Or.inr ⟨fun hpositions => hnames ?_, hnames⟩
      obtain ⟨imports, hlinks⟩ := exists_links hpositions
      exact ((instanceNew_iff hm).mp ((hposition imports).mpr hlinks)).fits
  · intro h
    have hposition (imports : Imports) : instanceNew m es externs = .ok imports ↔
        Links m es (externs[·]?) imports := by
      rw [instanceNew_iff hm]
      rcases h with h | ⟨hpositions, hnames⟩
      · constructor
        · rintro ⟨hcount, hbound⟩
          refine ⟨hcount, fun k e hk => ?_⟩
          obtain ⟨b, hb, hat⟩ := hbound k e hk
          obtain ⟨b', hb', hfirst⟩ := h k e hk
          obtain rfl := Ending.ok.inj (hb.symm.trans hfirst)
          exact ⟨b, hb', hat⟩
        · rintro ⟨hcount, hbound⟩
          refine ⟨hcount, fun k e hk => ?_⟩
          obtain ⟨b, hb, hat⟩ := hbound k e hk
          obtain ⟨b', hb', hfirst⟩ := h k e hk
          obtain rfl := Ending.ok.inj (hb.symm.trans hb')
          exact ⟨b, hfirst, hat⟩
      · exact iff_of_false (fun hlinks => hnames hlinks.fits) fun hlinks => hpositions hlinks.fits
    refine ⟨hposition, fun hlt imports himports => ?_⟩
    exact not_fits_of_fewer hlt ((hposition imports).mp himports).fits

theorem firstOf_of_nodup (h : (es.map fun e => (e.module, e.field)).Nodup) {k : Nat} {e : ImportEntry}
    (hk : es[k]? = some e) : firstOf es k = k := by
  obtain ⟨hlt, rfl⟩ := List.getElem?_eq_some_iff.mp hk
  have hfirst : es.findIdx (fun d => SameNames es[k] d) < es.length :=
    List.findIdx_lt_length_of_exists ⟨es[k], List.getElem_mem hlt, decide_eq_true ⟨rfl, rfl⟩⟩
  have hsame := of_decide_eq_true (List.findIdx_getElem (w := hfirst))
  rw [firstOf, hk]
  refine (@List.Nodup.getElem_inj_iff _ _ h _ (by rwa [List.length_map]) _ (by rwa [List.length_map])).mp ?_
  rw [List.getElem_map, List.getElem_map, hsame.1, hsame.2]

/-- When no two imports share their names, nothing depends on the first of the names. -/
theorem agrees_of_nodup (h : (es.map fun e => (e.module, e.field)).Nodup) : BoundAlike m es externs := by
  have hfits : (∀ k, Fits m es k externs[firstOf es k]?) ↔ ∀ k, Fits m es k externs[k]? := by
    refine forall_congr' fun k => forall_congr' fun e => forall_congr' fun hk => ?_
    rw [firstOf_of_nodup h hk]
  by_cases hpositions : ∀ k, Fits m es k externs[k]?
  · refine Or.inl fun k e hk => ?_
    obtain ⟨b, hb⟩ := hpositions k e hk
    exact ⟨b, hb, by rw [firstOf_of_nodup h hk, hb]⟩
  · exact Or.inr ⟨hpositions, fun hnames => hpositions (hfits.mp hnames)⟩

/-- **Imports are bound by position** exactly when, import by import, the extern in the position of the
first import with the same names fits and is recorded as the one in its own position is, or neither all
externs in their own positions fit nor all in those of the first of the names. -/
theorem bindsByPosition_iff {translateSignature : Sig → Sig} {tunables : Tunables}
    {ds : List (Declaration Sig)} {t : ModuleTranslation Sig}
    (h : declareAll translateSignature (.new tunables) ds = some t) :
    BindsByPosition t.module (imports ds) externs ↔ BoundAlike t.module (imports ds) externs :=
  bindsByPosition_of_importedOf (importedOf_eq h)

end

/-- A module that imports two globals under one name. -/
def twice : List (Declaration Nat) :=
  [.globalImport ⟨0, false, .imported⟩ "m" "g", .globalImport ⟨0, false, .imported⟩ "m" "g"]

/-- The translation of `twice`. -/
def twiceTranslated : ModuleTranslation Nat where
  module := { Module.new with
    importedGlobals := [("m", "g"), ("m", "g")]
    globals := [⟨0, false, .imported⟩, ⟨0, false, .imported⟩] }
  functionBodyInputs := []
  tunables := .default

/-- Two globals of the type that `twice` asks for. -/
def twoGlobals : List (ExportValue Nat) :=
  [.global ⟨0, 0⟩ 0 ⟨0, false, .i32Const 1⟩, .global ⟨0, 1⟩ 0 ⟨0, false, .i32Const 2⟩]

/-- With the same extern in both positions. -/
theorem bindsByPosition_twice :
    declareAll id (.new .default) twice = some twiceTranslated ∧
      BindsByPosition twiceTranslated.module (imports twice) [twoGlobals[0], twoGlobals[0]] := by
  refine ⟨rfl, (@bindsByPosition_iff _ _ _ id .default twice _ rfl).mpr (.inl fun k e hk => ?_)⟩
  rcases k with _ | _ | k
  · obtain rfl := Option.some.inj hk
    exact ⟨_, rfl, rfl⟩
  · obtain rfl := Option.some.inj hk
    exact ⟨_, rfl, rfl⟩
  · cases hk

/-- The second of two imports with one name is bound to the extern of the first. -/
theorem not_bindsByPosition_twice :
    declareAll id (.new .default) twice = some twiceTranslated ∧
      ¬ BindsByPosition twiceTranslated.module (imports twice) twoGlobals := by
  refine ⟨rfl, fun h => ?_⟩
  have hlinks := (h.position ⟨[], [], [], [⟨0, 0⟩, ⟨0, 0⟩]⟩).mp rfl
  obtain ⟨b, hb, hat⟩ := hlinks.bound 1 ⟨.global, "m", "g"⟩ rfl
  obtain rfl := Option.some.inj hat
  cases hb

end Wasmtime.Api
