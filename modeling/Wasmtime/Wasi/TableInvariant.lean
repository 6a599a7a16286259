import Mathlib
import Wasmtime.Wasi.Holding

/-!
# The invariant of the descriptor table

`Inv` says what holds between calls of the tables of `posix.c`: the counter, the load factor, the
reference counts, and which host descriptors are open. `outside` are the open ones the table knows
nothing of.

* Specifications of `fd_table_grow`, `fd_table_attach`, `fd_table_detach`, `fd_table_unused` and
  `fd_object_release`, for tables that are `Sound`.
* What keeps the invariant: a new entry (`Inv.insert`), a removed one (`Inv.remove`), other rights
  (`Inv.setRights`), and an object or a host descriptor that never gets an entry (`Inv.discard`,
  `Inv.close`).
* `fd_table_insert_existing` and `fd_table_insert_fd` keep it, with every failure of an allocation.
-/

namespace Wasmtime.Wasi.Posix

open Triple

/-! ## The invariant -/

/-- How many entries are occupied. -/
def occupied (entries : List FdEntry) : Nat := entries.countP fun fe => fe.object.isSome

/-- How many entries point to an object. -/
def pointers (entries : List FdEntry) (fo : Nat) : Nat := entries.countP fun fe => fe.object = some fo

/-- The counters of a table are right, at most half of it is in use, and it fits into memory. -/
structure FdTable.Sound (ft : FdTable) : Prop where
  used : ft.used.toNat = occupied ft.entries
  load : 2 * occupied ft.entries ≤ ft.entries.length
  sized : 24 * ft.entries.length < 2 ^ 63

/-- The host descriptor of an object that is there. -/
def World.Open (w : World) (n : Nat) : Prop :=
  ∃ (fo : Nat) (o : FdObject), w.objects[fo]? = some o ∧ o.freed = false ∧ o.number = n

/-- What holds between calls. `outside` are the host descriptors that are open and that the table knows
nothing of. -/
structure Inv (outside : Set Nat) (w : World) : Prop where
  table : w.table.Sound
  prestats : 8 * w.prestats.length < 2 ^ 63
  object : ∀ fe ∈ w.table.entries, ∀ fo, fe.object = some fo → fo < w.objects.length
  counts : ∀ (fo : Nat) (o : FdObject), w.objects[fo]? = some o →
    o.refcount = pointers w.table.entries fo ∧ (o.freed = true ↔ pointers w.table.entries fo = 0)
  numbers : ∀ (fo fo' : Nat) (o o' : FdObject), w.objects[fo]? = some o → w.objects[fo']? = some o' →
    o.freed = false → o'.freed = false → o.number = o'.number → fo = fo'
  host : ∀ n, n ∈ w.hostOpen ↔ w.Open n ∨ n ∈ outside
  apart : ∀ n, w.Open n → n ∉ outside

theorem pointers_pos {entries : List FdEntry} {fe : FdEntry} {fo : Nat} (h : fe ∈ entries)
    (hfo : fe.object = some fo) : 0 < pointers entries fo :=
  List.countP_pos_iff.mpr ⟨fe, h, by simpa using hfo⟩

theorem exists_of_pointers {entries : List FdEntry} {fo : Nat} (h : pointers entries fo ≠ 0) :
    ∃ fe ∈ entries, fe.object = some fo := by
  obtain ⟨fe, hfe, hfo⟩ := List.countP_pos_iff.mp (Nat.pos_of_ne_zero h)
  exact ⟨fe, hfe, by simpa using hfo⟩

section

variable {outside : Set Nat} {w : World}

theorem Inv.live (h : Inv outside w) : w.Live := by
  intro fe hfe fo hfo
  have hlt : fo < w.objects.length := h.object fe hfe fo hfo
  have hget : w.objects[fo]? = some w.objects[fo] := List.getElem?_eq_getElem hlt
  obtain ⟨hcount, hfreed⟩ := h.counts fo _ hget
  have hpos := pointers_pos hfe hfo
  have hlive : w.objects[fo].freed = false := by
    by_contra hne
    have := hfreed.mp (by simpa using hne)
    omega
  exact ⟨_, hget, hlive, by omega, (h.host _).mpr (.inl ⟨fo, _, hget, hlive, rfl⟩)⟩

/-- The host descriptor is behind some entry. -/
def World.Held (w : World) (n : Nat) : Prop :=
  ∃ fe ∈ w.table.entries, ∃ fo o, fe.object = some fo ∧ w.objects[fo]? = some o ∧ o.number = n

theorem Inv.held_iff (h : Inv outside w) (n : Nat) : w.Held n ↔ w.Open n := by
  constructor
  · rintro ⟨fe, hfe, fo, o, hfo, ho, hn⟩
    obtain ⟨o', ho', hfreed, -⟩ := h.live fe hfe fo hfo
    obtain rfl := Option.some.inj (ho.symm.trans ho')
    exact ⟨fo, o, ho, hfreed, hn⟩
  · rintro ⟨fo, o, ho, hfreed, hn⟩
    have hpointers : pointers w.table.entries fo ≠ 0 := by
      intro hzero
      exact absurd ((h.counts fo o ho).2.mpr hzero) (by simp [hfreed])
    obtain ⟨fe, hfe, hfo⟩ := exists_of_pointers hpointers
    exact ⟨fe, hfe, fo, o, hfo, ho, hn⟩

/-- A call that leaves the table alone keeps the invariant; what it leaves open belongs to nobody. -/
theorem Holding.inv {w₀ : World} {temps : List Nat} (h : Holding w₀ [] temps w)
    (hinv : Inv outside w₀) (htemps : ∀ n ∈ temps, n ∉ w₀.hostOpen) :
    Inv (outside ∪ {n | n ∈ temps}) w := by
  have hback : ∀ (fo : Nat) (o : FdObject), w.objects[fo]? = some o →
      ∃ o₀, w₀.objects[fo]? = some o₀ ∧ o.refcount = o₀.refcount ∧ o.freed = o₀.freed ∧
        o.number = o₀.number := by
    intro fo o ho
    have hlt : fo < w₀.objects.length := h.length ▸ (List.getElem?_eq_some_iff.mp ho).choose
    have ho₀ : w₀.objects[fo]? = some w₀.objects[fo] := List.getElem?_eq_getElem hlt
    obtain ⟨handle, hsame⟩ := h.objects fo _ ho₀
    obtain rfl := Option.some.inj (ho.symm.trans hsame)
    exact ⟨_, ho₀, by simp, rfl, rfl⟩
  have hopen : ∀ n, w.Open n ↔ w₀.Open n := by
    intro n
    constructor
    · rintro ⟨fo, o, ho, hfreed, hn⟩
      obtain ⟨o₀, ho₀, -, hfreed₀, hn₀⟩ := hback fo o ho
      exact ⟨fo, o₀, ho₀, hfreed₀ ▸ hfreed, hn₀ ▸ hn⟩
    · rintro ⟨fo, o, ho, hfreed, hn⟩
      obtain ⟨handle, hsame⟩ := h.objects fo o ho
      exact ⟨fo, _, hsame, hfreed, hn⟩
  constructor
  case table => exact h.table ▸ hinv.table
  case prestats => exact h.prestats ▸ hinv.prestats
  case object => simpa only [h.table, h.length] using hinv.object
  case counts =>
    intro fo o ho
    obtain ⟨o₀, ho₀, hcount, hfreed, -⟩ := hback fo o ho
    rw [h.table, hcount, hfreed]
    exact hinv.counts fo o₀ ho₀
  case numbers =>
    intro fo fo' o o' ho ho' hfreed hfreed' heq
    obtain ⟨o₀, ho₀, -, hf, hn⟩ := hback fo o ho
    obtain ⟨o₀', ho₀', -, hf', hn'⟩ := hback fo' o' ho'
    exact hinv.numbers fo fo' o₀ o₀' ho₀ ho₀' (hf ▸ hfreed) (hf' ▸ hfreed') (hn ▸ hn' ▸ heq)
  case host =>
    intro n
    rw [h.host n, hinv.host n, hopen n, or_assoc]
    rfl
  case apart =>
    intro n hn
    rw [hopen n] at hn
    rintro (hout | htemp)
    · exact hinv.apart n hn hout
    · exact htemps n htemp ((hinv.host n).mpr (.inl hn))

end

/-! ## Changing one entry -/

section

variable {entries : List FdEntry} {fd : Nat} {fe fe' : FdEntry}

theorem countP_set_add {p : FdEntry → Bool} (h : entries[fd]? = some fe) :
    (entries.set fd fe').countP p + (if p fe then 1 else 0) =
      entries.countP p + (if p fe' then 1 else 0) := by
  obtain ⟨hlt, rfl⟩ := List.getElem?_eq_some_iff.mp h
  rw [List.countP_set hlt]
  by_cases hp : p entries[fd] = true
  · have hpos : 0 < entries.countP p := List.countP_pos_iff.mpr ⟨_, List.getElem_mem hlt, hp⟩
    simp only [if_pos hp]
    omega
  · simp only [if_neg hp]
    omega

theorem occupied_set (h : entries[fd]? = some fe) :
    occupied (entries.set fd fe') + (if fe.object.isSome then 1 else 0) =
      occupied entries + (if fe'.object.isSome then 1 else 0) :=
  countP_set_add h

theorem pointers_set (h : entries[fd]? = some fe) (fo : Nat) :
    pointers (entries.set fd fe') fo + (if fe.object = some fo then 1 else 0) =
      pointers entries fo + (if fe'.object = some fo then 1 else 0) := by
  have := @countP_set_add entries fd fe fe' (fun fe => fe.object = some fo) h
  simp only [decide_eq_true_eq] at this
  exact this

end

/-! ## Growing -/

/-- The loop of `fd_table_grow` ends, and doubles only what is still too small. -/
theorem growSize_spec {min need : Nat} (hmin : min < 2 ^ 62) (hneed : need ≤ 2 ^ 62) (fuel : Nat)
    {size : Nat} (hpos : 0 < size) (hfuel : min + 1 ≤ size * 2 ^ fuel ∧ need ≤ size * 2 ^ fuel) :
    ∃ size', growSize min need (fuel + 1) size = some size' ∧ min < size' ∧ need ≤ size' ∧
      size ≤ size' ∧ (size' = size ∨ ∃ t, size' = 2 * t ∧ (t ≤ min ∨ t < need)) := by
  induction fuel generalizing size with
  | zero =>
    rw [growSize, if_neg (by omega)]
    exact ⟨size, rfl, by omega, by omega, le_rfl, .inl rfl⟩
  | succ fuel ih =>
    rw [growSize]
    by_cases hsmall : size ≤ min ∨ size < need
    · rw [if_pos hsmall, Nat.mod_eq_of_lt (by omega)]
      have hdouble : size * 2 * 2 ^ fuel = size * 2 ^ (fuel + 1) := by ring
      obtain ⟨size', hsome, h₁, h₂, h₃, h₄⟩ := @ih (size * 2) (by omega) (by rwa [hdouble])
      refine ⟨size', hsome, h₁, h₂, by omega, .inr ?_⟩
      obtain rfl | h₄ := h₄
      · exact ⟨size, by omega, hsmall⟩
      · exact h₄
    · rw [if_neg hsmall]
      exact ⟨size, rfl, by omega, by omega, le_rfl, .inl rfl⟩

/-- An entry that was never used. -/
def FdEntry.empty : FdEntry := ⟨none, 0, 0⟩

/-- A table with room for the number and for one more entry, and with nothing new in it. -/
structure Grown (min : Nat) (ft ft' : FdTable) : Prop where
  sound : ft'.Sound
  entries : ∃ k, ft'.entries = ft.entries ++ List.replicate k FdEntry.empty
  room : min < ft'.entries.length
  load : 2 * (occupied ft'.entries + 1) ≤ ft'.entries.length

theorem countP_grown {p : FdEntry → Bool} (hp : p FdEntry.empty = false) (entries : List FdEntry) (k : Nat) :
    (entries ++ List.replicate k FdEntry.empty).countP p = entries.countP p := by
  rw [List.countP_append, List.countP_replicate, hp]
  rfl

/-- What a function that changes only the table leaves alone. -/
structure OnTable (w w' : World) : Prop where
  prestats : w'.prestats = w.prestats
  objects : w'.objects = w.objects
  hostOpen : w'.hostOpen = w.hostOpen

theorem writeTable_spec (w : World) (ft : FdTable) :
    Returns (writeTable ft) w fun _ w' => OnTable w w' ∧ w'.table = ft :=
  ⟨(), _, rfl, ⟨rfl, rfl, rfl⟩, rfl⟩

theorem fdTableGrow_spec {w : World} {min : Nat} {realloc : Nat → Bool} (h : w.table.Sound)
    (hmin : min < 2 ^ 32) (hrealloc : ∀ n, realloc n = true → n < 2 ^ 63) :
    Returns (fdTableGrow realloc min 1) w fun b w' => OnTable w w' ∧
      (b = false ∧ w'.table = w.table ∨ b = true ∧ Grown min w.table w'.table) := by
  obtain ⟨hused, hload, hsized⟩ := id h
  have hneed : ((w.table.used + BitVec.ofNat 64 1) * 2).toNat = 2 * (occupied w.table.entries + 1) := by
    have htwo : BitVec.toNat (2 : BitVec 64) = 2 := rfl
    rw [BitVec.toNat_mul, BitVec.toNat_add, hused, htwo]
    simp only [BitVec.toNat_ofNat]
    omega
  unfold fdTableGrow
  refine Returns.get_bind ?_
  simp only [hneed]
  by_cases hsmall : w.table.entries.length ≤ min ∨ w.table.entries.length < 2 * (occupied w.table.entries + 1)
  · rw [if_pos hsmall]
    obtain ⟨size', hsome, hroom, hneed', hge, hdouble⟩ := @growSize_spec min
      (2 * (occupied w.table.entries + 1)) (by omega) (by omega) 65
      (if w.table.entries.length = 0 then 1 else w.table.entries.length) (by split <;> omega)
      (by split <;> omega)
    simp only [hsome]
    have hle : w.table.entries.length ≤ size' := by
      split at hge
      · omega
      · exact hge
    have hsmall' : 24 * size' < 2 ^ 64 := by
      obtain rfl | ⟨t, rfl, ht⟩ := hdouble
      · split <;> omega
      · omega
    by_cases hok : realloc (24 * size' % 2 ^ 64) = true
    · rw [if_pos hok]
      have hsized' := hrealloc _ hok
      rw [Nat.mod_eq_of_lt hsmall'] at hsized'
      refine (writeTable_spec w _).bind fun _ w' hw' => Returns.pure ⟨hw'.1, .inr ⟨rfl, ?_⟩⟩
      have hentries : w'.table.entries =
          w.table.entries ++ List.replicate (size' - w.table.entries.length) .empty := by
        rw [hw'.2, List.take_of_length_le hle]
        rfl
      have hlength : w'.table.entries.length = size' := by
        rw [hentries, List.length_append, List.length_replicate]
        omega
      have hocc : occupied w'.table.entries = occupied w.table.entries := by
        rw [hentries]
        exact countP_grown rfl _ _
      have hused' : w'.table.used = w.table.used := by rw [hw'.2]
      refine ⟨⟨?_, ?_, ?_⟩, ⟨_, hentries⟩, ?_, ?_⟩
      · rw [hused', hocc, hused]
      · rw [hocc, hlength]
        omega
      · rwa [hlength]
      · rwa [hlength]
      · rwa [hocc, hlength]
    · rw [if_neg hok]
      exact Returns.pure ⟨⟨rfl, rfl, rfl⟩, .inl ⟨rfl, rfl⟩⟩
  · rw [if_neg hsmall]
    refine Returns.pure ⟨⟨rfl, rfl, rfl⟩, .inr ⟨rfl, h, ⟨0, by simp⟩, by omega, by omega⟩⟩

/-! ## Attaching, detaching and letting go -/

section

variable {w : World} {fd fo : Nat} {fe : FdEntry} {rightsBase rightsInheriting : Rights}

theorem FdTable.Sound.attach {ft : FdTable} (h : ft.Sound) (hget : ft.entries[fd]? = some fe)
    (hfree : fe.object = none) (hload : 2 * (occupied ft.entries + 1) ≤ ft.entries.length) :
    FdTable.Sound ⟨ft.entries.set fd ⟨some fo, rightsBase, rightsInheriting⟩, ft.used + 1⟩ := by
  have hocc := @occupied_set ft.entries fd fe ⟨some fo, rightsBase, rightsInheriting⟩ hget
  simp only [hfree, Option.isSome_none, Option.isSome_some, if_true, Bool.false_eq_true, if_false] at hocc
  have hsized := h.sized
  refine ⟨?_, ?_, ?_⟩
  · have hone : BitVec.toNat (1 : BitVec 64) = 1 := rfl
    rw [BitVec.toNat_add, h.used, hone, Nat.mod_eq_of_lt (by omega)]
    exact hocc.symm
  · dsimp only
    rw [List.length_set]
    omega
  · rwa [List.length_set]

/-- Room for one more entry is what the assertion of `fd_table_attach` asks for. -/
theorem FdTable.Sound.room {ft : FdTable} (h : ft.Sound)
    (hload : 2 * (occupied ft.entries + 1) ≤ ft.entries.length) :
    ((ft.used + 1) * 2).toNat ≤ ft.entries.length := by
  have hone : BitVec.toNat (1 : BitVec 64) = 1 := rfl
  have htwo : BitVec.toNat (2 : BitVec 64) = 2 := rfl
  have hsized := h.sized
  rw [BitVec.toNat_mul, BitVec.toNat_add, h.used, hone, htwo]
  omega

theorem fdTableAttach_spec (hget : w.table.entries[fd]? = some fe) (hfree : fe.object = none)
    (hroom : ((w.table.used + 1) * 2).toNat ≤ w.table.entries.length) :
    Returns (fdTableAttach fd fo rightsBase rightsInheriting) w fun _ w' => OnTable w w' ∧
      w'.table = ⟨w.table.entries.set fd ⟨some fo, rightsBase, rightsInheriting⟩, w.table.used + 1⟩ := by
  unfold fdTableAttach
  refine Returns.get_bind ?_
  simp only [hget, hfree]
  refine (writeTable_spec w _).bind fun _ w' hw' => ?_
  rw [if_neg (not_not.mpr hroom)]
  exact Returns.pure hw'

theorem FdTable.Sound.detach {ft : FdTable} (h : ft.Sound) (hget : ft.entries[fd]? = some fe)
    (hobj : fe.object = some fo) :
    FdTable.Sound ⟨ft.entries.set fd { fe with object := none }, ft.used - 1⟩ ∧ ft.used ≠ 0 := by
  have hocc := @occupied_set ft.entries fd fe { fe with object := none } hget
  simp only [hobj, Option.isSome_none, Option.isSome_some, if_true, Bool.false_eq_true, if_false] at hocc
  have hload := h.load
  have hused : 1 ≤ ft.used.toNat := by rw [h.used]; omega
  refine ⟨⟨?_, ?_, ?_⟩, fun hzero => ?_⟩
  · have hone : BitVec.toNat (1 : BitVec 64) = 1 := rfl
    rw [BitVec.toNat_sub_of_le (BitVec.le_def.mpr (hone ▸ hused)), h.used, hone]
    dsimp only
    omega
  · dsimp only
    rw [List.length_set]
    omega
  · rw [List.length_set]
    exact h.sized
  · rw [hzero] at hused
    exact absurd hused (by decide)

theorem fdTableDetach_spec (hget : w.table.entries[fd]? = some fe) (hobj : fe.object = some fo)
    (hused : w.table.used ≠ 0) :
    Returns (fdTableDetach fd) w fun r w' => fo = r ∧ OnTable w w' ∧
      w'.table = ⟨w.table.entries.set fd { fe with object := none }, w.table.used - 1⟩ := by
  unfold fdTableDetach
  refine Returns.get_bind ?_
  simp only [hget, hobj, if_neg hused]
  exact (writeTable_spec w _).bind fun _ w' hw' => Returns.pure ⟨rfl, hw'⟩

/-- A table that can take one more entry has a free slot, and the search finds one. -/
theorem fdTableUnused_spec (random : Random) (h : w.table.Sound)
    (hload : 2 * (occupied w.table.entries + 1) ≤ w.table.entries.length) :
    Returns (fdTableUnused random) w fun fd w' => w' = w ∧
      ∃ fe, w.table.entries[fd]? = some fe ∧ fe.object = none := by
  have hfree : ∃ fe ∈ w.table.entries, fe.object = none := by
    by_contra hall
    push Not at hall
    have hfull : occupied w.table.entries = w.table.entries.length :=
      List.countP_eq_length.mpr fun fe hfe => Option.isSome_iff_ne_none.mpr (hall fe hfe)
    omega
  obtain ⟨⟨object, base, inheriting⟩, hget, rfl⟩ := random.pick_free _ hfree
  unfold fdTableUnused
  refine Returns.get_bind ?_
  rw [if_neg (by rw [h.used]; omega)]
  simp only [hget]
  exact Returns.pure ⟨rfl, _, hget, rfl⟩

/-- An object with one reference less. -/
def FdObject.dropped (o : FdObject) : FdObject :=
  { o with refcount := o.refcount - 1, freed := o.freed || decide (o.refcount = 1) }

theorem fdObjectRelease_spec {o : FdObject} (ho : w.objects[fo]? = some o) (hfreed : o.freed = false)
    (hpos : 0 < o.refcount) :
    Returns (fdObjectRelease fo) w fun _ w' => w'.table = w.table ∧ w'.prestats = w.prestats ∧
      w'.objects = w.objects.set fo o.dropped ∧
      w'.hostOpen = if o.refcount = 1 then w.hostOpen.filter (· != o.number) else w.hostOpen := by
  have hfollow : fdObject fo w = .ok o w := by
    rw [fdObject, ho]
    simp [hfreed]
  have hlt : fo < w.objects.length := (List.getElem?_eq_some_iff.mp ho).choose
  unfold fdObjectRelease
  refine Returns.bind (Q := fun a s => o = a ∧ w = s) ⟨o, w, hfollow, rfl, rfl⟩ ?_
  rintro _ _ ⟨rfl, rfl⟩
  rw [if_neg (by omega)]
  by_cases hlast : o.refcount = 1
  · rw [if_pos hlast]
    refine ⟨(), _, rfl, rfl, rfl, ?_, (if_pos hlast).symm⟩
    simp [FdObject.dropped, hlast]
  · rw [if_neg hlast]
    refine ⟨(), _, rfl, rfl, rfl, ?_, (if_neg hlast).symm⟩
    simp [FdObject.dropped, hlast]

end

/-! ## Entries that come and go -/

section

variable {outside : Set Nat} {w w' : World} {fd fo number : Nat} {type : Filetype}
  {fe : FdEntry} {rightsBase rightsInheriting : Rights}

/-- An object of a host descriptor the table knew nothing of. -/
def FdObject.new (type : Filetype) (number : Nat) : FdObject := ⟨1, type, number, false, false⟩

theorem Inv.pointers_new (h : Inv outside w) : pointers w.table.entries w.objects.length = 0 := by
  by_contra hne
  obtain ⟨fe, hfe, hfo⟩ := exists_of_pointers hne
  exact absurd (h.object fe hfe _ hfo) (lt_irrefl _)

theorem getElem?_append_one {objects : List FdObject} {o₁ o : FdObject} {k : Nat}
    (h : (objects ++ [o₁])[k]? = some o) : objects[k]? = some o ∨ k = objects.length ∧ o = o₁ := by
  rw [List.getElem?_append] at h
  split at h
  · exact .inl h
  · right
    rw [List.getElem?_singleton] at h
    split at h
    · exact ⟨by omega, (Option.some.inj h).symm⟩
    · cases h

/-- A new entry for a new object. -/
theorem Inv.insert (type : Filetype) {ft : FdTable} {min : Nat} (h : Inv outside w) (hn : number ∈ outside)
    (hg : Grown min w.table ft) (hget : ft.entries[fd]? = some fe) (hfree : fe.object = none)
    (hprestats : w'.prestats = w.prestats) (hhost : w'.hostOpen = w.hostOpen)
    (hobjects : w'.objects = w.objects ++ [FdObject.new type number])
    (htable : w'.table =
      ⟨ft.entries.set fd ⟨some w.objects.length, rightsBase, rightsInheriting⟩, ft.used + 1⟩) :
    Inv (outside \ {number}) w' := by
  obtain ⟨k, hk⟩ := hg.entries
  have hpointers : ∀ fo, pointers w'.table.entries fo =
      pointers w.table.entries fo + if w.objects.length = fo then 1 else 0 := by
    intro fo
    have hset := @pointers_set ft.entries fd fe ⟨some w.objects.length, rightsBase, rightsInheriting⟩ hget fo
    have hgrown : pointers ft.entries fo = pointers w.table.entries fo := by
      rw [hk]
      exact countP_grown rfl _ _
    rw [hfree, hgrown] at hset
    rw [htable]
    simpa using hset
  have hold : ∀ (k : Nat) (o : FdObject), w'.objects[k]? = some o →
      w.objects[k]? = some o ∨ k = w.objects.length ∧ o = FdObject.new type number := by
    intro k o ho
    rw [hobjects] at ho
    exact getElem?_append_one ho
  have hopen : ∀ n, w'.Open n ↔ w.Open n ∨ n = number := by
    intro n
    constructor
    · rintro ⟨k, o, ho, hfreed, rfl⟩
      obtain ho | ⟨-, rfl⟩ := hold k o ho
      · exact .inl ⟨k, o, ho, hfreed, rfl⟩
      · exact .inr rfl
    · rintro (⟨k, o, ho, hfreed, rfl⟩ | rfl)
      · refine ⟨k, o, ?_, hfreed, rfl⟩
        rw [hobjects, List.getElem?_append_left (List.getElem?_eq_some_iff.mp ho).choose, ho]
      · exact ⟨w.objects.length, FdObject.new type n, by simp [hobjects], rfl, rfl⟩
  have hnew : ∀ n, w.Open n → n ≠ number := fun n ho heq => h.apart n ho (heq ▸ hn)
  constructor
  case table => exact htable ▸ hg.sound.attach hget hfree hg.load
  case prestats => exact hprestats ▸ h.prestats
  case object =>
    intro fe' hfe' fo hfo
    have hpos := pointers_pos hfe' hfo
    rw [hpointers fo] at hpos
    rw [hobjects, List.length_append, List.length_singleton]
    split at hpos
    · omega
    · obtain ⟨fe'', hfe'', hfo''⟩ := exists_of_pointers (Nat.pos_iff_ne_zero.mp hpos)
      exact Nat.lt_succ_of_lt (h.object fe'' hfe'' fo hfo'')
  case counts =>
    intro k o ho
    rw [hpointers k]
    obtain ho | ⟨rfl, rfl⟩ := hold k o ho
    · have hlt := (List.getElem?_eq_some_iff.mp ho).choose
      rw [if_neg (by omega), Nat.add_zero]
      exact h.counts k o ho
    · rw [if_pos rfl, h.pointers_new]
      simp [FdObject.new]
  case numbers =>
    intro k k' o o' ho ho' hfreed hfreed' heq
    obtain ho | ⟨rfl, rfl⟩ := hold k o ho <;> obtain ho' | ⟨rfl, rfl⟩ := hold k' o' ho'
    · exact h.numbers k k' o o' ho ho' hfreed hfreed' heq
    · exact absurd heq (hnew _ ⟨k, o, ho, hfreed, rfl⟩)
    · exact absurd heq.symm (hnew _ ⟨k', o', ho', hfreed', rfl⟩)
    · rfl
  case host =>
    intro n
    rw [hhost, h.host n, hopen n]
    by_cases heq : n = number
    · subst heq
      simp [hn]
    · simp [heq]
  case apart =>
    intro n hn'
    obtain hn' | rfl := (hopen n).mp hn'
    · exact fun hmem => h.apart n hn' hmem.1
    · exact fun hmem => hmem.2 rfl

/-- A descriptor the table knows nothing of is closed. -/
theorem Inv.close (h : Inv outside w) (hn : number ∈ outside) (htable : w'.table = w.table)
    (hprestats : w'.prestats = w.prestats) (hobjects : w'.objects = w.objects)
    (hhost : w'.hostOpen = w.hostOpen.filter (· != number)) : Inv (outside \ {number}) w' := by
  have hopen : ∀ n, w'.Open n ↔ w.Open n := fun n => by rw [World.Open, World.Open, hobjects]
  constructor
  case table => exact htable ▸ h.table
  case prestats => exact hprestats ▸ h.prestats
  case object => simpa only [htable, hobjects] using h.object
  case counts => simpa only [htable, hobjects] using h.counts
  case numbers => simpa only [hobjects] using h.numbers
  case host =>
    intro n
    rw [hhost, hopen n, List.mem_filter, h.host n]
    by_cases heq : n = number
    · subst heq
      have hclosed : ¬ w.Open n := fun ho => h.apart n ho hn
      simp [hclosed]
    · simp [heq]
  case apart => exact fun n ho hmem => h.apart n ((hopen n).mp ho) hmem.1

/-- An object that was let go of before any entry pointed to it. -/
theorem Inv.discard {o : FdObject} (h : Inv outside w) (hcount : o.refcount = 0) (hfreed : o.freed = true)
    (htable : w'.table = w.table) (hprestats : w'.prestats = w.prestats)
    (hhost : w'.hostOpen = w.hostOpen) (hobjects : w'.objects = w.objects ++ [o]) : Inv outside w' := by
  have hold : ∀ (k : Nat) (o' : FdObject), w'.objects[k]? = some o' →
      w.objects[k]? = some o' ∨ k = w.objects.length ∧ o' = o := by
    intro k o' ho'
    rw [hobjects] at ho'
    exact getElem?_append_one ho'
  have hlive : ∀ (k : Nat) (o' : FdObject), w'.objects[k]? = some o' → o'.freed = false →
      w.objects[k]? = some o' := by
    intro k o' ho' hfreed'
    obtain ho' | ⟨-, rfl⟩ := hold k o' ho'
    · exact ho'
    · exact absurd hfreed' (by simp [hfreed])
  have hopen : ∀ n, w'.Open n ↔ w.Open n := by
    intro n
    constructor
    · rintro ⟨k, o', ho', hfreed', rfl⟩
      exact ⟨k, o', hlive k o' ho' hfreed', hfreed', rfl⟩
    · rintro ⟨k, o', ho', hfreed', rfl⟩
      refine ⟨k, o', ?_, hfreed', rfl⟩
      rw [hobjects, List.getElem?_append_left (List.getElem?_eq_some_iff.mp ho').choose, ho']
  constructor
  case table => exact htable ▸ h.table
  case prestats => exact hprestats ▸ h.prestats
  case object =>
    rw [htable, hobjects, List.length_append, List.length_singleton]
    exact fun fe hfe fo hfo => Nat.lt_succ_of_lt (h.object fe hfe fo hfo)
  case counts =>
    intro k o' ho'
    rw [htable]
    obtain ho' | ⟨rfl, rfl⟩ := hold k o' ho'
    · exact h.counts k o' ho'
    · rw [h.pointers_new]
      simp [hcount, hfreed]
  case numbers =>
    intro k k' o₁ o₂ ho₁ ho₂ hf₁ hf₂ heq
    exact h.numbers k k' o₁ o₂ (hlive k o₁ ho₁ hf₁) (hlive k' o₂ ho₂ hf₂) hf₁ hf₂ heq
  case host =>
    intro n
    rw [hhost, hopen n, h.host n]
  case apart => exact fun n ho => h.apart n ((hopen n).mp ho)

/-- An entry that goes away, and the reference it had. -/
theorem Inv.remove {o : FdObject} (h : Inv outside w) (hget : w.table.entries[fd]? = some fe)
    (hobj : fe.object = some fo) (ho : w.objects[fo]? = some o)
    (htable : w'.table = ⟨w.table.entries.set fd { fe with object := none }, w.table.used - 1⟩)
    (hprestats : w'.prestats = w.prestats) (hobjects : w'.objects = w.objects.set fo o.dropped)
    (hhost : w'.hostOpen =
      if o.refcount = 1 then w.hostOpen.filter (· != o.number) else w.hostOpen) :
    Inv outside w' := by
  obtain ⟨o₁, ho₁, hlive, hpos, -⟩ := h.live fe (List.mem_of_getElem? hget) fo hobj
  obtain rfl := Option.some.inj (ho.symm.trans ho₁)
  clear ho₁
  have hlt : fo < w.objects.length := (List.getElem?_eq_some_iff.mp ho).choose
  have hpointers : ∀ k, pointers w'.table.entries k + (if fo = k then 1 else 0) =
      pointers w.table.entries k := by
    intro k
    have hset := @pointers_set w.table.entries fd fe { fe with object := none } hget k
    rw [htable]
    simpa [hobj] using hset
  have hother : ∀ (k : Nat), k ≠ fo → w'.objects[k]? = w.objects[k]? := by
    intro k hk
    rw [hobjects, List.getElem?_set_ne (Ne.symm hk)]
  have hself : w'.objects[fo]? = some o.dropped := by
    rw [hobjects, List.getElem?_set_self hlt]
  have hback : ∀ (k : Nat) (o' : FdObject), w'.objects[k]? = some o' → o'.freed = false →
      ∃ o₀, w.objects[k]? = some o₀ ∧ o₀.freed = false ∧ o₀.number = o'.number := by
    intro k o' ho' hfreed'
    by_cases hk : k = fo
    · subst hk
      obtain rfl := Option.some.inj (hself.symm.trans ho')
      exact ⟨o, ho, hlive, rfl⟩
    · exact ⟨o', (hother k hk) ▸ ho', hfreed', rfl⟩
  have hopen : ∀ n, w'.Open n ↔ w.Open n ∧ ¬ (o.refcount = 1 ∧ n = o.number) := by
    intro n
    constructor
    · rintro ⟨k, o', ho', hfreed', rfl⟩
      obtain ⟨o₀, ho₀, hfreed₀, hnumber⟩ := hback k o' ho' hfreed'
      refine ⟨⟨k, o₀, ho₀, hfreed₀, hnumber⟩, ?_⟩
      rintro ⟨hlast, heq⟩
      have hk := h.numbers k fo o₀ o ho₀ ho hfreed₀ hlive (hnumber.trans heq)
      subst hk
      obtain rfl := Option.some.inj (hself.symm.trans ho')
      simp [FdObject.dropped, hlast] at hfreed'
    · rintro ⟨⟨k, o', ho', hfreed', rfl⟩, hkeep⟩
      by_cases hk : k = fo
      · subst hk
        obtain rfl := Option.some.inj (ho.symm.trans ho')
        refine ⟨k, o.dropped, hself, ?_, rfl⟩
        have hmore : o.refcount ≠ 1 := fun hlast => hkeep ⟨hlast, rfl⟩
        simp [FdObject.dropped, hlive, hmore]
      · exact ⟨k, o', (hother k hk).trans ho', hfreed', rfl⟩
  constructor
  case table => exact htable ▸ (h.table.detach hget hobj).1
  case prestats => exact hprestats ▸ h.prestats
  case object =>
    intro fe' hfe' k hk
    have hpos' := pointers_pos hfe' hk
    have hsum := hpointers k
    obtain ⟨fe'', hfe'', hk''⟩ := @exists_of_pointers w.table.entries k (by omega)
    rw [hobjects, List.length_set]
    exact h.object fe'' hfe'' k hk''
  case counts =>
    intro k o' ho'
    have hsum := hpointers k
    by_cases hk : k = fo
    · subst hk
      obtain rfl := Option.some.inj (hself.symm.trans ho')
      obtain ⟨hcount, -⟩ := h.counts k o ho
      rw [if_pos rfl] at hsum
      refine ⟨?_, ?_⟩
      · simp only [FdObject.dropped]
        omega
      · simp only [FdObject.dropped, hlive, Bool.false_or, decide_eq_true_eq]
        omega
    · rw [if_neg (Ne.symm hk), Nat.add_zero] at hsum
      rw [hsum]
      exact h.counts k o' ((hother k hk) ▸ ho')
  case numbers =>
    intro k k' o₁ o₂ ho₁ ho₂ hf₁ hf₂ heq
    obtain ⟨o₁', ho₁', hf₁', hn₁⟩ := hback k o₁ ho₁ hf₁
    obtain ⟨o₂', ho₂', hf₂', hn₂⟩ := hback k' o₂ ho₂ hf₂
    exact h.numbers k k' o₁' o₂' ho₁' ho₂' hf₁' hf₂' (hn₁.trans (heq.trans hn₂.symm))
  case host =>
    intro n
    rw [hopen n, hhost]
    have happart : n = o.number → n ∉ outside := by
      rintro rfl
      exact h.apart _ ⟨fo, o, ho, hlive, rfl⟩
    split
    · next hlast =>
      rw [List.mem_filter, h.host n]
      by_cases heq : n = o.number
      · simp [heq, hlast, heq ▸ happart heq]
      · simp [heq]
    · next hmore =>
      rw [h.host n]
      simp [hmore]
  case apart => exact fun n hn => h.apart n ((hopen n).mp hn).1

/-- Other rights for an entry. -/
theorem Inv.setRights (h : Inv outside w) (hget : w.table.entries[fd]? = some fe)
    (hobj : fe.object = some fo)
    (htable : w'.table = { w.table with
      entries := w.table.entries.set fd ⟨some fo, rightsBase, rightsInheriting⟩ })
    (hprestats : w'.prestats = w.prestats) (hobjects : w'.objects = w.objects)
    (hhost : w'.hostOpen = w.hostOpen) : Inv outside w' := by
  have hpointers : ∀ k, pointers w'.table.entries k = pointers w.table.entries k := by
    intro k
    have hset := @pointers_set w.table.entries fd fe ⟨some fo, rightsBase, rightsInheriting⟩ hget k
    rw [htable]
    simpa [hobj] using hset
  have hoccupied : occupied w'.table.entries = occupied w.table.entries := by
    have hset := @occupied_set w.table.entries fd fe ⟨some fo, rightsBase, rightsInheriting⟩ hget
    rw [htable]
    simpa [hobj] using hset
  have hlength : w'.table.entries.length = w.table.entries.length := by
    rw [htable, List.length_set]
  have hopen : ∀ n, w'.Open n ↔ w.Open n := fun n => by rw [World.Open, World.Open, hobjects]
  constructor
  case table =>
    refine ⟨?_, ?_, ?_⟩
    · rw [hoccupied, ← h.table.used, htable]
    · rw [hoccupied, hlength]
      exact h.table.load
    · rw [hlength]
      exact h.table.sized
  case prestats => exact hprestats ▸ h.prestats
  case object =>
    intro fe' hfe' k hk
    have hpos := pointers_pos hfe' hk
    rw [hpointers k] at hpos
    obtain ⟨fe'', hfe'', hk''⟩ := exists_of_pointers (Nat.pos_iff_ne_zero.mp hpos)
    exact hobjects ▸ h.object fe'' hfe'' k hk''
  case counts => simpa only [hpointers, hobjects] using h.counts
  case numbers => simpa only [hobjects] using h.numbers
  case host => exact fun n => by rw [hhost, hopen n, h.host n]
  case apart => exact fun n hn => h.apart n ((hopen n).mp hn)

/-- Occupied entries stay as they are. -/
def Kept (ft ft' : FdTable) : Prop :=
  ∀ (fd : Nat) (fe : FdEntry), ft.entries[fd]? = some fe → fe.object ≠ none → ft'.entries[fd]? = some fe

/-- The world with a new object that nothing points to yet. -/
structure Added (type : Filetype) (number : Nat) (w w' : World) : Prop where
  table : w'.table = w.table
  prestats : w'.prestats = w.prestats
  objects : w'.objects = w.objects ++ [FdObject.new type number]
  hostOpen : w'.hostOpen = w.hostOpen

theorem fdObjectNew_spec (w : World) (type : Filetype) (number : Nat) :
    Returns (fdObjectNew type number) w fun fo w' => fo = w.objects.length ∧ Added type number w w' :=
  ⟨_, _, rfl, rfl, rfl, rfl, rfl, rfl⟩

theorem Added.log (h : Added type number w w') (e : Event) :
    Returns (Posix.log e) w' fun _ w₁ => Added type number w w₁ :=
  ⟨(), _, rfl, h.table, h.prestats, h.objects, h.hostOpen⟩

/-- The new object is let go of, and its descriptor closed. -/
theorem Added.release (h : Added type number w w') (hinv : Inv outside w) (hn : number ∈ outside) :
    Returns (fdObjectRelease w.objects.length) w' fun _ w₁ =>
      Inv (outside \ {number}) w₁ ∧ w₁.table = w.table := by
  have hget : w'.objects[w.objects.length]? = some (FdObject.new type number) := by simp [h.objects]
  refine (fdObjectRelease_spec hget rfl Nat.one_pos).mono ?_
  rintro _ w₁ ⟨htable, hprestats, hobjects, hhost⟩
  have hclosed : Inv (outside \ {number}) { w with hostOpen := w.hostOpen.filter (· != number) } :=
    hinv.close hn rfl rfl rfl rfl
  refine ⟨hclosed.discard (o := (FdObject.new type number).dropped) rfl rfl ?_ ?_ ?_ ?_, ?_⟩
  · exact htable.trans h.table
  · exact hprestats.trans h.prestats
  · rw [hhost, h.hostOpen]
    rfl
  · rw [hobjects, h.objects]
    simp
  · exact htable.trans h.table

/-- The new object gets an entry. -/
theorem Added.attach {min : Nat} {w₁ : World} (h : Added type number w w') (hinv : Inv outside w)
    (hn : number ∈ outside) (honly : OnTable w' w₁) (hg : Grown min w'.table w₁.table)
    (hget : w₁.table.entries[fd]? = some fe) (hfree : fe.object = none) :
    Returns (fdTableAttach fd w.objects.length rightsBase rightsInheriting) w₁ fun _ w₂ =>
      Inv (outside \ {number}) w₂ ∧ Kept w.table w₂.table := by
  refine (fdTableAttach_spec hget hfree (hg.sound.room hg.load)).mono ?_
  rintro _ w₂ ⟨hsame, htable⟩
  rw [h.table] at hg
  refine ⟨hinv.insert type hn hg hget hfree ?_ ?_ ?_ htable, fun k fe' hfe' hsome => ?_⟩
  · rw [hsame.prestats, honly.prestats, h.prestats]
  · rw [hsame.hostOpen, honly.hostOpen, h.hostOpen]
  · rw [hsame.objects, honly.objects, h.objects]
  · obtain ⟨n, hn⟩ := hg.entries
    have hk : w₁.table.entries[k]? = some fe' := by
      rw [hn, List.getElem?_append_left (List.getElem?_eq_some_iff.mp hfe').choose, hfe']
    have hne : fd ≠ k := by
      rintro rfl
      obtain rfl := Option.some.inj (hget.symm.trans hk)
      exact hsome hfree
    rw [htable]
    dsimp only
    rw [List.getElem?_set_ne hne, hk]

/-- What a function that adds an entry, or fails to, leaves behind. -/
structure Inserted (outside : Set Nat) (w : World) (failed : Prop) (w' : World) : Prop where
  inv : Inv outside w'
  failed : failed → w'.table = w.table
  kept : Kept w.table w'.table

theorem Inserted.of_same {failed : Prop} (hinv : Inv outside w') (h : w'.table = w.table) :
    Inserted outside w failed w' :=
  ⟨hinv, fun _ => h, fun _ _ hfe _ => h ▸ hfe⟩

theorem Inserted.log {failed : Prop} (h : Inserted outside w failed w') (e : Event) :
    Returns (Posix.log e) w' fun _ w₁ => Inserted outside w failed w₁ := by
  have hinv := h.inv
  exact ⟨(), _, rfl, ⟨hinv.table, hinv.prestats, hinv.object, hinv.counts, hinv.numbers, hinv.host,
    hinv.apart⟩, h.failed, h.kept⟩

theorem Added.of_onTable {w₁ : World} (h : Added type number w w') (honly : OnTable w' w₁)
    (hsame : w₁.table = w'.table) : Added type number w w₁ where
  table := hsame.trans h.table
  prestats := honly.prestats.trans h.prestats
  objects := honly.objects.trans h.objects
  hostOpen := honly.hostOpen.trans h.hostOpen

/-- A slot that was free, or not there yet, is free in the grown table. -/
theorem Grown.free {ft ft' : FdTable} {min : Nat} (h : Grown min ft ft')
    (hfree : ∀ fe, ft.entries[fd]? = some fe → fe.object = none) (hget : ft'.entries[fd]? = some fe) :
    fe.object = none := by
  obtain ⟨k, hk⟩ := h.entries
  rw [hk, List.getElem?_append] at hget
  split at hget
  · exact hfree fe hget
  · rw [List.getElem?_replicate] at hget
    split at hget
    · obtain rfl := Option.some.inj hget
      rfl
    · cases hget

theorem stat_of_determined {described : Described} {found : Filetype × Rights × Rights}
    (h : fdDetermineTypeRights described = .ok found) : ∃ stat, described.stat = .ok stat := by
  cases hstat : described.stat with
  | error e => simp [fdDetermineTypeRights, hstat] at h
  | ok stat => exact ⟨stat, rfl⟩

theorem Inv.fdTableInsertExisting {alloc : Allocator} {described : Described} (h : Inv outside w)
    (halloc : ∀ n, alloc.realloc n = true → n < 2 ^ 63) (hfd : fd < 2 ^ 32)
    (hfree : ∀ fe, w.table.entries[fd]? = some fe → fe.object = none)
    (hn : ∀ stat, described.stat = .ok stat → number ∈ outside) :
    Returns (Posix.fdTableInsertExisting alloc fd number described) w fun b w' =>
      ∃ outside' ⊆ outside, Inserted outside' w (b = false) w' := by
  have hsub : outside \ {number} ⊆ outside := Set.sdiff_subset
  unfold Posix.fdTableInsertExisting
  cases hfound : fdDetermineTypeRights described with
  | error e => exact Returns.pure ⟨outside, subset_rfl, .of_same h rfl⟩
  | ok found =>
    obtain ⟨stat, hstat⟩ := stat_of_determined hfound
    replace hn := hn stat hstat
    obtain ⟨type, rightsBase, rightsInheriting⟩ := found
    dsimp only
    by_cases hmalloc : alloc.malloc = false
    · rw [if_pos (by simp [hmalloc])]
      exact Returns.pure ⟨outside, subset_rfl, .of_same h rfl⟩
    rw [if_neg (by simpa using hmalloc)]
    refine (fdObjectNew_spec w type number).bind ?_
    rintro _ w₁ ⟨rfl, h₁⟩
    refine (h₁.log _).bind fun _ w₂ h₂ => ?_
    refine (fdTableGrow_spec (h₂.table ▸ h.table) hfd halloc).bind ?_
    rintro b w₃ ⟨honly, ⟨rfl, hsame⟩ | ⟨rfl, hg⟩⟩
    · refine ((h₂.of_onTable honly hsame).log _).bind fun _ w₄ h₄ => ?_
      refine (h₄.release h hn).bind fun _ w₅ h₅ => ?_
      exact Returns.pure ⟨_, hsub, .of_same h₅.1 h₅.2⟩
    · have hroom : fd < w₃.table.entries.length := hg.room
      have hget : w₃.table.entries[fd]? = some w₃.table.entries[fd] := List.getElem?_eq_getElem hroom
      have hempty := hg.free (h₂.table ▸ hfree) hget
      refine (h₂.attach h hn honly hg hget hempty).bind fun _ w₄ h₄ => ?_
      have h₄' : Inserted (outside \ {number}) w (true = false) w₄ := ⟨h₄.1, nofun, h₄.2⟩
      exact (h₄'.log _).bind fun _ w₅ h₅ => Returns.pure ⟨_, hsub, h₅⟩

theorem Inv.fdTableInsertFd {alloc : Allocator} {e : Errno} (h : Inv outside w)
    (halloc : ∀ n, alloc.realloc n = true → n < 2 ^ 63) (hn : number ∈ outside) :
    Returns (Posix.fdTableInsertFd alloc e number type rightsBase rightsInheriting) w fun r w' =>
      Inserted (outside \ {number}) w (∃ e, r = .error e) w' := by
  unfold Posix.fdTableInsertFd
  by_cases hmalloc : alloc.malloc = false
  · rw [if_pos (by simp [hmalloc])]
    refine Returns.bind (Q := fun _ w' => Inserted (outside \ {number}) w True w') ?_ ?_
    · exact ⟨(), _, rfl, .of_same (h.close hn rfl rfl rfl rfl) rfl⟩
    · exact fun _ w' h' => Returns.pure ⟨h'.inv, fun _ => h'.failed trivial, h'.kept⟩
  rw [if_neg (by simpa using hmalloc)]
  refine (fdObjectNew_spec w type number).bind ?_
  rintro _ w₁ ⟨rfl, h₁⟩
  unfold Posix.fdTableInsert
  refine (h₁.log _).bind fun _ w₂ h₂ => ?_
  refine (fdTableGrow_spec (h₂.table ▸ h.table) (by omega) halloc).bind ?_
  rintro b w₃ ⟨honly, ⟨rfl, hsame⟩ | ⟨rfl, hg⟩⟩
  · refine ((h₂.of_onTable honly hsame).log _).bind fun _ w₄ h₄ => ?_
    refine (h₄.release h hn).bind fun _ w₅ h₅ => ?_
    exact Returns.pure (.of_same h₅.1 h₅.2)
  · refine (fdTableUnused_spec alloc.random hg.sound hg.load).bind ?_
    rintro fd _ ⟨rfl, fe, hget, hempty⟩
    refine (h₂.attach h hn honly hg hget hempty).bind fun _ w₄ h₄ => ?_
    have h₄' : Inserted (outside \ {number}) w (∃ e, (.ok fd : Except Errno Nat) = .error e) w₄ :=
      ⟨h₄.1, (fun hfail => nomatch hfail), h₄.2⟩
    exact (h₄'.log _).bind fun _ w₅ h₅ => Returns.pure h₅

end

end Wasmtime.Wasi.Posix
