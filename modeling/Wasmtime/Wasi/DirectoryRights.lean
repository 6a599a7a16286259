import Mathlib
import Wasmtime.Wasi.Rights

/-!
# Directories and `FD_READDIR`

Which descriptors may be listed, over whole runs of the calls of `posix.c`.

* `World.DirectoriesOnly`: an entry with the right `FD_READDIR` refers to a directory.
* `Sound`: a judgement on programs that keep it, never change the type of an object, and never read a
  directory's lock or handle where none was initialized. One lemma for each function.
* `Syscall.OffDevices`: no block device and no character device that is not a terminal is inserted, and none
  is opened with `FD_READDIR`. Their maximum rights are `RIGHTS_ALL`.

Results: `reachable_directoriesOnly` and `not_directoriesOnly_device`.
-/

namespace Wasmtime.Wasi.Posix

open Triple

/-! ## Types of objects -/

/-- An object has a type. -/
def World.TypeIs (w : World) (fo : Nat) (type : Filetype) : Prop :=
  ∃ o, w.objects[fo]? = some o ∧ o.type = type

/-- Objects keep their type. -/
def TypesKept (w w' : World) : Prop := ∀ fo type, w.TypeIs fo type → w'.TypeIs fo type

/-- An entry with the right `FD_READDIR` refers to a directory. -/
def World.DirectoriesOnly (w : World) : Prop :=
  ∀ fe ∈ w.table.entries, ∀ fo, fe.object = some fo → has fe.rightsBase rightFdReaddir = true →
    w.TypeIs fo .directory

theorem TypesKept.refl (w : World) : TypesKept w w := fun _ _ h => h

theorem TypesKept.trans {w w' w'' : World} (h : TypesKept w w') (h' : TypesKept w' w'') :
    TypesKept w w'' := fun fo type hty => h' fo type (h fo type hty)

theorem has_readdir_iff {rights : Rights} :
    has rights rightFdReaddir = true ↔ rights.getLsbD 14 = true := by
  have hmask : rightFdReaddir = BitVec.twoPow 64 14 := rfl
  rw [has, decide_eq_true_iff, hmask, BitVec.and_twoPow]
  cases rights.getLsbD 14 <;> decide

/-! ## The judgement -/

/-- From `w` the program keeps `DirectoriesOnly` and the types of objects, and never stops at what was not
initialized; `Q` holds when it returns. -/
def Sound {α : Type} (w : World) (m : M α) (Q : α → World → Prop) : Prop :=
  w.DirectoriesOnly →
    (∀ a w', m w = .ok a w' → w'.DirectoriesOnly ∧ TypesKept w w' ∧ Q a w') ∧
      ∀ e w', m w = .error e w' → e ≠ .uninitialized

/-- From every world. -/
def Harmless {α : Type} (m : M α) : Prop := ∀ w, Sound w m fun _ _ => True

section

variable {α β : Type} {w : World} {m : M α} {f : α → M β} {Q : α → World → Prop} {R : β → World → Prop}

theorem Sound.pure {a : α} (h : Q a w) : Sound w (Pure.pure a : M α) Q := fun hw => by
  refine ⟨fun b w' hb => ?_, fun e w' he => by cases he⟩
  obtain ⟨rfl, rfl⟩ := EStateM.Result.ok.inj hb
  exact ⟨hw, .refl _, h⟩

theorem Sound.throw {e : Stop} (h : e ≠ .uninitialized) : Sound w (throw e : M α) Q := fun _ => by
  refine ⟨(fun b w' hb => by cases hb), fun e' w' he => ?_⟩
  obtain ⟨rfl, -⟩ := EStateM.Result.error.inj he
  exact h

theorem Sound.bind (hm : Sound w m Q) (hf : ∀ a w', TypesKept w w' → Q a w' → Sound w' (f a) R) :
    Sound w (m >>= f) R := fun hw => by
  obtain ⟨hok, herror⟩ := hm hw
  cases hrun : m w with
  | error e w₁ =>
    rw [bind_of_error hrun]
    refine ⟨(fun b w' hb => by cases hb), fun e' w' he => ?_⟩
    obtain ⟨rfl, -⟩ := EStateM.Result.error.inj he
    exact herror _ _ hrun
  | ok a w₁ =>
    rw [bind_of_ok hrun]
    obtain ⟨hw₁, hkept, hQ⟩ := hok a w₁ hrun
    obtain ⟨hok', herror'⟩ := hf a w₁ hkept hQ hw₁
    refine ⟨fun b w' hb => ?_, herror'⟩
    obtain ⟨hw', hkept', hR⟩ := hok' b w' hb
    exact ⟨hw', hkept.trans hkept', hR⟩

theorem Sound.get_bind {f : World → M β} (h : Sound w (f w) R) : Sound w (get >>= f) R := h

theorem Sound.mono {Q' : α → World → Prop} (hm : Sound w m Q) (h : ∀ a w', Q a w' → Q' a w') :
    Sound w m Q' := fun hw => by
  obtain ⟨hok, herror⟩ := hm hw
  refine ⟨fun a w' ha => ?_, herror⟩
  obtain ⟨hw', hkept, hQ⟩ := hok a w' ha
  exact ⟨hw', hkept, h a w' hQ⟩

theorem Sound.ite {p : Prop} [Decidable p] {m m' : M α} (hm : p → Sound w m Q)
    (hm' : ¬ p → Sound w m' Q) : Sound w (if p then m else m') Q := by
  split
  · next h => exact hm h
  · next h => exact hm' h

/-- A program that returns in one step. -/
theorem Sound.of_ok {a : α} {w' : World} (hrun : m w = .ok a w') (hkept : TypesKept w w')
    (hw' : w.DirectoriesOnly → w'.DirectoriesOnly) (hQ : Q a w') : Sound w m Q := fun hw => by
  refine ⟨fun b w₁ hb => ?_, fun e w₁ he => by rw [hrun] at he; cases he⟩
  obtain ⟨rfl, rfl⟩ := EStateM.Result.ok.inj (hrun.symm.trans hb)
  exact ⟨hw' hw, hkept, hQ⟩

theorem Harmless.pure (a : α) : Harmless (Pure.pure a : M α) := fun _ => Sound.pure trivial

theorem Harmless.throw {e : Stop} (h : e ≠ .uninitialized) : Harmless (throw e : M α) := fun _ =>
  Sound.throw h

theorem Harmless.bind (hm : Harmless m) (hf : ∀ a, Harmless (f a)) : Harmless (m >>= f) := fun w =>
  (hm w).bind fun a w' _ _ => hf a w'

theorem Harmless.get_bind {f : World → M β} (h : ∀ w, Harmless (f w)) : Harmless (get >>= f) := fun w =>
  h w w

theorem Harmless.ite {p : Prop} [Decidable p] {m m' : M α} (hm : Harmless m) (hm' : Harmless m') :
    Harmless (if p then m else m') := by
  split
  · exact hm
  · exact hm'

/-- A program that leaves the table and the objects alone. -/
theorem harmless_of_same (h : ∀ w, ∃ a w', m w = .ok a w' ∧ w'.table = w.table ∧ w'.objects = w.objects) :
    Harmless m := fun w => by
  obtain ⟨a, w', hrun, htable, hobjects⟩ := h w
  have htypes {fo : Nat} {type : Filetype} (hty : w.TypeIs fo type) : w'.TypeIs fo type := by
    rwa [World.TypeIs, hobjects]
  refine Sound.of_ok hrun (fun fo type => htypes) (fun hw fe hfe fo hfo hreaddir => ?_) trivial
  rw [htable] at hfe
  exact htypes (hw fe hfe fo hfo hreaddir)

end

/-! ## Objects -/

section

variable {w : World} {fo : Nat}

theorem harmless_log (e : Event) : Harmless (log e) := harmless_of_same fun _ => ⟨_, _, rfl, rfl, rfl⟩

theorem harmless_closeHost (number : Nat) : Harmless (closeHost number) :=
  harmless_of_same fun _ => ⟨_, _, rfl, rfl, rfl⟩

theorem harmless_openHost (number : Nat) : Harmless (openHost number) :=
  harmless_of_same fun _ => ⟨_, _, rfl, rfl, rfl⟩

theorem sound_fdObject : Sound w (fdObject fo) fun o w' => w'.TypeIs fo o.type := by
  intro hw
  unfold fdObject
  cases hfo : w.objects[fo]? with
  | none =>
    refine ⟨(fun a w' ha => by cases ha), fun e w' he => ?_⟩
    obtain ⟨rfl, -⟩ := EStateM.Result.error.inj he
    exact fun h => by cases h
  | some o =>
    by_cases hfreed : o.freed = true
    · refine ⟨fun a w' ha => by simp [hfreed] at ha, fun e w' he => ?_⟩
      simp only [hfreed, if_true] at he
      obtain ⟨rfl, -⟩ := EStateM.Result.error.inj he
      exact fun h => by cases h
    · refine ⟨fun a w' ha => ?_, fun e w' he => by simp [hfreed] at he⟩
      simp only [hfreed] at ha
      obtain ⟨rfl, rfl⟩ := EStateM.Result.ok.inj ha
      exact ⟨hw, .refl _, _, hfo, rfl⟩

theorem typesKept_set {o : FdObject} (h : w.TypeIs fo o.type) :
    TypesKept w { w with objects := w.objects.set fo o } := by
  rintro k type ⟨ok, hok, rfl⟩
  obtain ⟨old, hold, htype⟩ := h
  by_cases hk : fo = k
  · subst hk
    obtain rfl := Option.some.inj (hold.symm.trans hok)
    refine ⟨o, ?_, htype.symm⟩
    rw [List.getElem?_set_self (List.getElem?_eq_some_iff.mp hold).choose]
  · exact ⟨ok, by rw [List.getElem?_set_ne hk, hok], rfl⟩

theorem sound_setObject {o : FdObject} {type : Filetype} (h : w.TypeIs fo type) (htype : o.type = type) :
    Sound w (setObject fo o) fun _ _ => True := by
  have hkept := typesKept_set (htype ▸ h)
  exact Sound.of_ok rfl hkept (fun hw fe hfe fo' hfo' hreaddir => hkept _ _ (hw fe hfe fo' hfo' hreaddir)) trivial

theorem harmless_refcountAcquire (fo : Nat) : Harmless (refcountAcquire fo) := fun _ =>
  sound_fdObject.bind fun _ _ _ htype => sound_setObject htype rfl

theorem harmless_fdObject (fo : Nat) : Harmless (fdObject fo) := fun _ =>
  sound_fdObject.mono fun _ _ _ => trivial

theorem harmless_fdObjectRelease (fo : Nat) : Harmless (fdObjectRelease fo) := by
  intro w
  unfold fdObjectRelease
  refine sound_fdObject.bind fun o w₁ _ htype => ?_
  refine Sound.ite (fun _ => Sound.throw fun h => by cases h) fun _ => ?_
  dsimp only
  refine Sound.bind (sound_setObject htype rfl) fun _ w₂ hkept₂ _ => ?_
  refine Sound.ite (fun _ => ?_) fun _ => Sound.pure trivial
  refine (harmless_closeHost _ w₂).bind fun _ w₃ hkept₃ _ => ?_
  exact sound_setObject (hkept₃ _ _ (hkept₂ _ _ htype)) rfl

theorem sound_fdObjectNew (type : Filetype) (number : Nat) :
    Sound w (fdObjectNew type number) fun fo w' => w'.TypeIs fo type := by
  have hkept : TypesKept w { w with objects := w.objects ++ [⟨1, type, number, false, false⟩] } := by
    rintro k t ⟨o, ho, htype⟩
    exact ⟨o, by rw [List.getElem?_append_left (List.getElem?_eq_some_iff.mp ho).choose, ho], htype⟩
  refine Sound.of_ok rfl hkept (fun hw fe hfe fo hfo hreaddir => hkept _ _ (hw fe hfe fo hfo hreaddir)) ?_
  exact ⟨⟨1, type, number, false, false⟩, List.getElem?_concat_length, rfl⟩

end

/-! ## The table -/

section

variable {w : World} {fd fo : Nat} {base inheriting : Rights}

theorem sound_writeTable {ft : FdTable} (h : w.DirectoriesOnly →
    ∀ fe ∈ ft.entries, ∀ fo, fe.object = some fo → has fe.rightsBase rightFdReaddir = true →
      w.TypeIs fo .directory) : Sound w (writeTable ft) fun _ _ => True := by
  unfold writeTable
  refine Sound.of_ok rfl (fun _ _ hty => hty) (fun hw => ?_) trivial
  exact h hw

theorem harmless_fdTableGrow (realloc : Nat → Bool) (min incr : Nat) :
    Harmless (fdTableGrow realloc min incr) := by
  intro w
  unfold fdTableGrow
  refine Sound.get_bind (Sound.ite (fun _ => ?_) fun _ => Sound.pure trivial)
  split
  · exact Sound.throw fun h => by cases h
  · refine Sound.ite (fun _ => ?_) fun _ => Sound.pure trivial
    refine (sound_writeTable fun hw fe hfe fo hfo hreaddir => ?_).bind fun _ _ _ _ => Sound.pure trivial
    rcases List.mem_append.mp hfe with hfe | hfe
    · exact hw fe (List.mem_of_mem_take hfe) fo hfo hreaddir
    · obtain rfl := List.eq_of_mem_replicate hfe
      cases hfo

theorem sound_fdTableAttach (h : has base rightFdReaddir = true → w.TypeIs fo .directory) :
    Sound w (fdTableAttach fd fo base inheriting) fun _ _ => True := by
  unfold fdTableAttach
  refine Sound.get_bind ?_
  dsimp only
  split
  · exact Sound.throw fun h => by cases h
  · split
    · exact Sound.throw fun h => by cases h
    · refine (sound_writeTable fun hw fe hfe fo' hfo' hreaddir => ?_).bind fun _ _ _ _ => ?_
      · rcases List.mem_or_eq_of_mem_set hfe with hfe | rfl
        · exact hw fe hfe fo' hfo' hreaddir
        · obtain rfl := Option.some.inj hfo'
          exact h hreaddir
      · split
        · exact Sound.throw fun h => by cases h
        · exact Sound.pure trivial

theorem harmless_fdTableDetach (fd : Nat) : Harmless (fdTableDetach fd) := by
  intro w
  unfold fdTableDetach
  refine Sound.get_bind ?_
  dsimp only
  split
  · exact Sound.throw fun h => by cases h
  · split
    · exact Sound.throw fun h => by cases h
    · split
      · exact Sound.throw fun h => by cases h
      · refine (sound_writeTable fun hw fe hfe fo' hfo' hreaddir => ?_).bind fun _ _ _ _ => Sound.pure trivial
        rcases List.mem_or_eq_of_mem_set hfe with hfe | rfl
        · exact hw fe hfe fo' hfo' hreaddir
        · cases hfo'

theorem harmless_fdTableUnused (random : Random) : Harmless (fdTableUnused random) := by
  unfold fdTableUnused
  refine Harmless.get_bind fun w => Harmless.ite (Harmless.throw fun h => by cases h) ?_
  split
  · exact Harmless.pure _
  · exact Harmless.throw fun h => by cases h

/-- A lookup that asks for `FD_READDIR` finds a directory. -/
theorem sound_fdObjectGetLocked : Sound w (fdObjectGetLocked fd base inheriting) fun r w' =>
    ∀ fo, r = .ok fo → has base rightFdReaddir = true → w'.TypeIs fo .directory := by
  intro hw
  revert hw
  unfold fdObjectGetLocked
  refine Sound.get_bind ?_
  cases hg : fdTableGetEntry w.table fd base inheriting with
  | error e => exact Sound.pure fun fo hfo => by cases hfo
  | ok p =>
    obtain ⟨fe, fo⟩ := p
    obtain ⟨hget, hobj, hbase, -⟩ := fdTableGetEntry_ok hg
    intro hw
    refine ((harmless_refcountAcquire fo w).bind fun _ w₁ hkept _ => Sound.pure fun fo' hfo' hreaddir => ?_) hw
    obtain rfl := Except.ok.inj hfo'
    refine hkept _ _ (hw fe (List.mem_of_getElem? hget) fo hobj ?_)
    exact has_readdir_iff.mpr (within_iff.mp hbase 14 (has_readdir_iff.mp hreaddir))

theorem harmless_fdObjectGetLocked (fd : Nat) (base inheriting : Rights) :
    Harmless (fdObjectGetLocked fd base inheriting) := fun _ => sound_fdObjectGetLocked.mono fun _ _ _ => trivial

theorem sound_fdObjectGet : Sound w (fdObjectGet fd base inheriting) fun r w' =>
    ∀ fo, r = .ok fo → has base rightFdReaddir = true → w'.TypeIs fo .directory := by
  unfold fdObjectGet
  refine (harmless_log _ w).bind fun _ w₁ _ _ => sound_fdObjectGetLocked.bind fun r w₂ _ hr => ?_
  refine (harmless_log _ w₂).bind fun _ w₃ hkept _ => Sound.pure fun fo hfo hreaddir => ?_
  exact hkept _ _ (hr fo hfo hreaddir)

theorem harmless_fdObjectGet (fd : Nat) (base inheriting : Rights) :
    Harmless (fdObjectGet fd base inheriting) := fun _ => sound_fdObjectGet.mono fun _ _ _ => trivial

/-- The maximum rights by type contain `FD_READDIR` only for directories and devices. -/
theorem readdir_of_typeRights {stat : Mode.Stat} {type : Filetype} {base inheriting : Rights}
    (h : typeRights stat = .ok (type, base, inheriting)) (hreaddir : base.getLsbD 14 = true) :
    type = .directory ∨ stat = .blk ∨ stat = .chr false := by
  cases stat with
  | blk => exact .inr (.inl rfl)
  | dir =>
    obtain ⟨rfl, -⟩ := Prod.mk.inj (Except.ok.inj h)
    exact .inl rfl
  | reg =>
    obtain ⟨-, h⟩ := Prod.mk.inj (Except.ok.inj h)
    rw [← (Prod.mk.inj h).1] at hreaddir
    exact absurd hreaddir (by decide)
  | chr tty =>
    cases tty with
    | false => exact .inr (.inr rfl)
    | true =>
      obtain ⟨-, h⟩ := Prod.mk.inj (Except.ok.inj h)
      rw [← (Prod.mk.inj h).1] at hreaddir
      exact absurd hreaddir (by decide)
  | sock socktype =>
    have hbase : base = rightsSocketBase := by
      cases socktype with
      | error e => cases h
      | ok socktype =>
        cases socktype with
        | other => cases h
        | _ =>
          obtain ⟨-, h⟩ := Prod.mk.inj (Except.ok.inj h)
          exact (Prod.mk.inj h).1.symm
    rw [hbase] at hreaddir
    exact absurd hreaddir (by decide)
  | fifo =>
    obtain ⟨-, h⟩ := Prod.mk.inj (Except.ok.inj h)
    rw [← (Prod.mk.inj h).1] at hreaddir
    exact absurd hreaddir (by decide)
  | other => cases h

/-- A descriptor of a device: of a block device, or of a character device that is not a terminal. -/
def Described.Device (d : Described) : Prop := d.stat = .ok .blk ∨ d.stat = .ok (.chr false)

theorem readdir_of_determined {described : Described} {type : Filetype} {base inheriting : Rights}
    (h : fdDetermineTypeRights described = .ok (type, base, inheriting)) (hoff : ¬ described.Device)
    (hreaddir : has base rightFdReaddir = true) : type = .directory := by
  rw [has_readdir_iff] at hreaddir
  unfold fdDetermineTypeRights at h
  cases hstat : described.stat with
  | error e =>
    rw [hstat] at h
    cases h
  | ok stat =>
    rw [hstat] at h
    dsimp only at h
    cases hrights : typeRights stat with
    | error e =>
      rw [hrights] at h
      cases haccess : described.access <;> rw [haccess] at h <;> cases h
    | ok found =>
      obtain ⟨type', base', inheriting'⟩ := found
      rw [hrights] at h
      have hfound : type' = type ∧ base'.getLsbD 14 = true := by
        cases haccess : described.access with
        | rdwr =>
          rw [haccess] at h
          obtain ⟨htype, hrest⟩ := Prod.mk.inj (Except.ok.inj h)
          exact ⟨htype, (Prod.mk.inj hrest).1 ▸ hreaddir⟩
        | _ =>
          rw [haccess] at h
          obtain ⟨htype, hrest⟩ := Prod.mk.inj (Except.ok.inj h)
          rw [← (Prod.mk.inj hrest).1, BitVec.getLsbD_and, Bool.and_eq_true] at hreaddir
          exact ⟨htype, hreaddir.1⟩
      rcases readdir_of_typeRights hrights hfound.2 with hdir | hblk | hchr
      · exact hfound.1 ▸ hdir
      · exact absurd (.inl (hblk ▸ hstat)) hoff
      · exact absurd (.inr (hchr ▸ hstat)) hoff

end

/-! ## The calls -/

/-- No call inserts a device, and none opens one with `FD_READDIR`. -/
def Syscall.OffDevices : Syscall → Prop
  | .insertExisting _ _ _ described => ¬ described.Device
  | .pathOpen req host => host.described.Device → has req.rightsBase rightFdReaddir = false
  | _ => True

section

variable {w : World}

theorem harmless_onObject (fd : Nat) (rights : Rights) (host : Host) : Harmless (onObject fd rights host) := by
  unfold onObject
  refine (harmless_fdObjectGet fd rights 0).bind fun r => ?_
  cases r with
  | error e => exact Harmless.pure _
  | ok fo =>
    exact (harmless_fdObject fo).bind fun _ => (harmless_fdObjectRelease fo).bind fun _ => Harmless.pure _

theorem harmless_fdFdstatGet (fd : Nat) (host : Host) : Harmless (fdFdstatGet fd host) := by
  unfold fdFdstatGet
  refine (harmless_log _).bind fun _ => Harmless.get_bind fun w => ?_
  split
  · exact (harmless_log _).bind fun _ => Harmless.pure _
  · exact (harmless_fdObject _).bind fun _ => (harmless_log _).bind fun _ => Harmless.pure _

theorem harmless_fdFdstatSetRights (fd : Nat) (base inheriting : Rights) :
    Harmless (fdFdstatSetRights fd base inheriting) := by
  intro w
  unfold fdFdstatSetRights
  refine (harmless_log _ w).bind fun _ w₁ _ _ => Sound.get_bind ?_
  dsimp only
  cases hg : fdTableGetEntry w₁.table fd base inheriting with
  | error e => exact (harmless_log _ w₁).bind fun _ _ _ _ => Sound.pure trivial
  | ok p =>
    obtain ⟨fe, fo⟩ := p
    obtain ⟨hget, hobj, hbase, -⟩ := fdTableGetEntry_ok hg
    refine (sound_writeTable fun hw fe' hfe' fo' hfo' hreaddir => ?_).bind fun _ w₂ _ _ =>
      (harmless_log _ w₂).bind fun _ _ _ _ => Sound.pure trivial
    rcases List.mem_or_eq_of_mem_set hfe' with hfe' | rfl
    · exact hw fe' hfe' fo' hfo' hreaddir
    · obtain rfl := Option.some.inj hfo'
      refine hw fe (List.mem_of_getElem? hget) _ hobj ?_
      exact has_readdir_iff.mpr (within_iff.mp hbase 14 (has_readdir_iff.mp hreaddir))

theorem harmless_fdPrestatGet (fd : Nat) : Harmless (fdPrestatGet fd) := by
  unfold fdPrestatGet
  refine (harmless_log _).bind fun _ => Harmless.get_bind fun w => ?_
  split
  · exact (harmless_log _).bind fun _ => Harmless.pure _
  · exact (harmless_log _).bind fun _ => Harmless.pure _

theorem harmless_fdPrestatDirName (fd pathLen : Nat) : Harmless (fdPrestatDirName fd pathLen) := by
  unfold fdPrestatDirName
  refine (harmless_log _).bind fun _ => Harmless.get_bind fun w => ?_
  split
  · exact (harmless_log _).bind fun _ => Harmless.pure _
  · refine Harmless.ite ?_ ?_
    · exact (harmless_log _).bind fun _ => Harmless.pure _
    · exact (harmless_log _).bind fun _ => Harmless.pure _

theorem harmless_fdPrestatsInsert (realloc : Nat → Bool) (fd : Nat) (dir : Option Nat) :
    Harmless (fdPrestatsInsert realloc fd dir) := by
  have hset (f : World → List (Option Nat)) :
      Harmless (modify fun w => { w with prestats := f w } : M Unit) :=
    harmless_of_same fun _ => ⟨_, _, rfl, rfl, rfl⟩
  unfold fdPrestatsInsert
  refine (harmless_log _).bind fun _ => Harmless.get_bind fun w => Harmless.ite ?_ ?_
  · split
    · exact Harmless.throw fun h => by cases h
    · refine Harmless.ite ?_ ?_
      · exact (hset _).bind fun _ => (harmless_log _).bind fun _ => Harmless.pure _
      · exact (harmless_log _).bind fun _ => Harmless.pure _
  · exact (hset _).bind fun _ => (harmless_log _).bind fun _ => Harmless.pure _

theorem harmless_fdClose (fd : Nat) : Harmless (fdClose fd) := by
  unfold fdClose
  refine (harmless_log _).bind fun _ => Harmless.get_bind fun w => (harmless_log _).bind fun _ => ?_
  split
  · exact Harmless.pure _
  · refine (harmless_log _).bind fun _ => Harmless.get_bind fun w => ?_
    split
    · exact (harmless_log _).bind fun _ => Harmless.pure _
    · refine (harmless_fdTableDetach fd).bind fun fo => (harmless_log _).bind fun _ => ?_
      exact (harmless_fdObjectRelease fo).bind fun _ => Harmless.pure _

/-- The entry that `fd_renumber` follows. -/
theorem sound_followEntry (fd : Nat) : Sound w (followEntry fd) fun p w' =>
    w'.DirectoriesOnly ∧ p.1 ∈ w'.table.entries ∧ p.1.object = some p.2 := by
  intro hw
  revert hw
  unfold followEntry
  refine Sound.get_bind ?_
  split
  · exact Sound.throw fun h => by cases h
  · next fe hfe =>
    split
    · exact Sound.throw fun h => by cases h
    · next fo hfo => exact fun hw => Sound.pure ⟨hw, List.mem_of_getElem? hfe, hfo⟩ hw

theorem harmless_fdRenumber (source target : Nat) : Harmless (fdRenumber source target) := by
  unfold fdRenumber
  refine (harmless_log _).bind fun _ => Harmless.get_bind fun w => (harmless_log _).bind fun _ => ?_
  dsimp only
  split
  · exact Harmless.pure _
  · refine (harmless_log _).bind fun _ => Harmless.get_bind fun w => ?_
    split
    · exact (harmless_log _).bind fun _ => Harmless.pure _
    · refine Harmless.get_bind fun w => ?_
      split
      · exact (harmless_log _).bind fun _ => Harmless.pure _
      · have hrest : Harmless (do
            fdObjectRelease (← fdTableDetach source)
            let ft := (← get).table
            writeTable { ft with used := ft.used - 1 }
            log (.unlock .table)
            return .ok () : M Host) := by
          refine (harmless_fdTableDetach source).bind fun fo => (harmless_fdObjectRelease fo).bind fun _ w => ?_
          refine Sound.get_bind ?_
          refine Sound.bind (sound_writeTable fun hw fe hfe fo hfo => hw fe hfe fo hfo) fun _ w₁ _ _ => ?_
          exact (harmless_log _ w₁).bind fun _ _ _ _ => Sound.pure trivial
        refine (harmless_fdTableDetach target).bind fun fo w => ?_
        refine (sound_followEntry source).bind ?_
        rintro ⟨fe, moved⟩ w₁ - ⟨hw₁, hfe, hmoved⟩
        refine (harmless_refcountAcquire moved w₁).bind fun _ w₂ hkept₂ _ => ?_
        refine (sound_fdTableAttach fun hreaddir => hkept₂ _ _ (hw₁ fe hfe moved hmoved hreaddir)).bind
          fun _ w₃ _ _ => ?_
        refine (harmless_log _ w₃).bind fun _ w₄ _ _ => ?_
        exact (harmless_fdObjectRelease fo w₄).bind fun _ w₅ _ _ => hrest w₅

theorem harmless_pathGet (fd : Nat) (base inheriting : Rights) (p : PathHost) :
    Harmless (pathGet fd base inheriting p) := by
  unfold pathGet
  split
  · exact Harmless.pure _
  · refine (harmless_fdObjectGet fd base inheriting).bind fun r => ?_
    cases r with
    | error e => exact Harmless.pure _
    | ok fo =>
      dsimp only
      split
      · exact (harmless_fdObjectRelease fo).bind fun _ => Harmless.pure _
      · exact (harmless_openHost _).bind fun _ => Harmless.pure _
      · exact (harmless_fdObject fo).bind fun _ => Harmless.pure _

theorem harmless_pathPut (pa : PathAccess) : Harmless (pathPut pa) := by
  unfold pathPut
  refine (harmless_fdObject _).bind fun o => Harmless.ite ?_ (harmless_fdObjectRelease _)
  exact (harmless_closeHost _).bind fun _ => harmless_fdObjectRelease _

theorem harmless_onPath (fd : Nat) (rights : Rights) (p : PathHost) (host : Host) :
    Harmless (onPath fd rights p host) := by
  unfold onPath
  refine (harmless_pathGet fd rights 0 p).bind fun r => ?_
  cases r with
  | error e => exact Harmless.pure _
  | ok pa => exact (harmless_pathPut pa).bind fun _ => Harmless.pure _

theorem harmless_onPaths (oldFd : Nat) (oldRights : Rights) (old : PathHost) (newFd : Nat)
    (newRights : Rights) (new : PathHost) (host : Host) :
    Harmless (onPaths oldFd oldRights old newFd newRights new host) := by
  unfold onPaths
  refine (harmless_pathGet oldFd oldRights 0 old).bind fun r => ?_
  cases r with
  | error e => exact Harmless.pure _
  | ok oldPa =>
    refine (harmless_pathGet newFd newRights 0 new).bind fun r => ?_
    cases r with
    | error e => exact (harmless_pathPut oldPa).bind fun _ => Harmless.pure _
    | ok newPa =>
      exact (harmless_pathPut oldPa).bind fun _ => (harmless_pathPut newPa).bind fun _ => Harmless.pure _

theorem harmless_fdTableInsertExisting {alloc : Allocator} {fd out : Nat} {described : Described}
    (hoff : ¬ described.Device) : Harmless (fdTableInsertExisting alloc fd out described) := by
  intro w
  unfold fdTableInsertExisting
  cases hfound : fdDetermineTypeRights described with
  | error e => exact Sound.pure trivial
  | ok found =>
    obtain ⟨type, base, inheriting⟩ := found
    refine Sound.ite (fun _ => Sound.pure trivial) fun _ => ?_
    refine Sound.bind (sound_fdObjectNew type out) fun fo w₁ _ htype => ?_
    refine (harmless_log _ w₁).bind fun _ w₂ hkept₂ _ => ?_
    refine (harmless_fdTableGrow _ _ _ w₂).bind fun b w₃ hkept₃ _ => Sound.ite (fun _ => ?_) fun _ => ?_
    · refine (harmless_log _ w₃).bind fun _ w₄ _ _ => ?_
      exact (harmless_fdObjectRelease fo w₄).bind fun _ _ _ _ => Sound.pure trivial
    · refine Sound.bind (sound_fdTableAttach fun hreaddir => ?_) fun _ w₄ _ _ =>
        (harmless_log _ w₄).bind fun _ _ _ _ => Sound.pure trivial
      obtain rfl := readdir_of_determined hfound hoff hreaddir
      exact hkept₃ _ _ (hkept₂ _ _ htype)

theorem harmless_fdTableInsertFd {alloc : Allocator} {e : Errno} {number : Nat} {type : Filetype}
    {base inheriting : Rights} (h : has base rightFdReaddir = true → type = .directory) :
    Harmless (fdTableInsertFd alloc e number type base inheriting) := by
  intro w
  unfold fdTableInsertFd
  refine Sound.ite (fun _ => ?_) fun _ => ?_
  · exact (harmless_closeHost number w).bind fun _ _ _ _ => Sound.pure trivial
  · refine Sound.bind (sound_fdObjectNew type number) fun fo w₁ _ htype => ?_
    unfold fdTableInsert
    refine (harmless_log _ w₁).bind fun _ w₂ hkept₂ _ => ?_
    refine (harmless_fdTableGrow _ _ _ w₂).bind fun b w₃ hkept₃ _ => Sound.ite (fun _ => ?_) fun _ => ?_
    · refine (harmless_log _ w₃).bind fun _ w₄ _ _ => ?_
      exact (harmless_fdObjectRelease fo w₄).bind fun _ _ _ _ => Sound.pure trivial
    · refine (harmless_fdTableUnused _ w₃).bind fun n w₄ hkept₄ _ => ?_
      refine Sound.bind (sound_fdTableAttach fun hreaddir => ?_) fun _ w₅ _ _ =>
        (harmless_log _ w₅).bind fun _ _ _ _ => Sound.pure trivial
      obtain rfl := h hreaddir
      exact hkept₄ _ _ (hkept₃ _ _ (hkept₂ _ _ htype))

theorem harmless_pathOpen {req : OpenRequest} {host : OpenHost}
    (hoff : host.described.Device → has req.rightsBase rightFdReaddir = false) :
    Harmless (pathOpen req host) := by
  unfold pathOpen
  refine (harmless_pathGet _ _ _ _).bind fun r => ?_
  cases r with
  | error e => exact Harmless.pure _
  | ok pa =>
    dsimp only
    split
    · exact (harmless_pathPut pa).bind fun _ => Harmless.pure _
    · refine (harmless_openHost _).bind fun _ => (harmless_pathPut pa).bind fun _ => ?_
      cases hfound : fdDetermineTypeRights host.described with
      | error e => exact (harmless_closeHost _).bind fun _ => Harmless.pure _
      | ok found =>
        obtain ⟨type, maxBase, maxInheriting⟩ := found
        refine harmless_fdTableInsertFd fun hreaddir => ?_
        rw [has_readdir_iff, BitVec.getLsbD_and, Bool.and_eq_true] at hreaddir
        have hrequested := has_readdir_iff.mpr hreaddir.1
        refine readdir_of_determined hfound (fun hdevice => ?_) (has_readdir_iff.mpr hreaddir.2)
        rw [hoff hdevice] at hrequested
        cases hrequested

/-- `fd_readdir` only reads what was initialized. -/
theorem harmless_fdReaddir (fd nbyte : Nat) (fdopendir : Host)
    (answers : List (Except (Option Errno) Nat)) : Harmless (fdReaddir fd nbyte fdopendir answers) := by
  intro w
  unfold fdReaddir
  refine sound_fdObjectGet.bind fun r w₁ _ hdirectory => ?_
  cases r with
  | error e => exact Sound.pure trivial
  | ok fo =>
    have hrelease (r : Host) : Harmless (do log (.mutexUnlock fo); fdObjectRelease fo; return r) :=
      (harmless_log _).bind fun _ => (harmless_fdObjectRelease fo).bind fun _ => Harmless.pure _
    have hdir := hdirectory fo rfl (by decide)
    refine sound_fdObject.bind fun o w₂ hkept₂ htype => ?_
    have hsame : o.type = .directory := by
      obtain ⟨o₁, ho₁, h₁⟩ := htype
      obtain ⟨o₂, ho₂, h₂⟩ := hkept₂ _ _ hdir
      obtain rfl := Option.some.inj (ho₁.symm.trans ho₂)
      exact h₁.symm.trans h₂
    refine Sound.ite (fun hne => absurd hsame hne) fun _ => ?_
    refine (harmless_log _ w₂).bind fun _ w₃ hkept₃ _ => ?_
    refine Sound.ite (fun _ => ?_) fun _ => hrelease _ w₃
    cases fdopendir with
    | error e => exact hrelease _ w₃
    | ok _ => exact Sound.bind (sound_setObject (hkept₃ _ _ htype) rfl) fun _ w₄ _ _ => hrelease _ w₄

theorem harmless_pollSubscribeAll (subs : List Subscription) (s : PollState) (i : Nat) :
    Harmless (pollSubscribeAll s i subs) := by
  induction subs generalizing s i with
  | nil => exact Harmless.pure _
  | cons sub subs ih =>
    have hfd (fd : Nat) : Harmless (pollSubscribe.subscribeFd s i fd) := by
      unfold pollSubscribe.subscribeFd
      refine (harmless_fdObjectGetLocked fd _ 0).bind fun r => ?_
      cases r with
      | error e => exact Harmless.pure _
      | ok fo => exact (harmless_fdObject fo).bind fun _ => Harmless.pure _
    have hone : Harmless (pollSubscribe s i sub) := by
      cases sub with
      | fdRead fd => exact hfd fd
      | fdWrite fd => exact hfd fd
      | clock abstime => exact Harmless.ite (Harmless.pure _) (Harmless.pure _)
      | other => exact Harmless.pure _
    exact hone.bind fun s' => ih s' (i + 1)

theorem harmless_releaseAll (fos : List (Option Nat)) : Harmless (releaseAll fos) := by
  induction fos with
  | nil => exact Harmless.pure _
  | cons fo fos ih =>
    cases fo with
    | none => exact ih
    | some fo => exact (harmless_fdObjectRelease fo).bind fun _ => ih

theorem harmless_pollOneoff (subs : List Subscription) (host : PollHost) :
    Harmless (pollOneoff subs host) := by
  unfold pollOneoff
  split
  · exact Harmless.pure _
  · refine Harmless.ite (Harmless.pure _) ((harmless_log _).bind fun _ => ?_)
    refine (harmless_pollSubscribeAll subs _ _).bind fun s => (harmless_log _).bind fun _ => ?_
    refine (harmless_releaseAll s.fos).bind fun _ => ?_
    split
    · exact Harmless.pure _
    · exact Harmless.pure _

theorem Harmless.status {α : Type} {m : M (Except Errno α)} (hm : Harmless m) : Harmless (Posix.status m) :=
  hm.bind fun r => by
    cases r with
    | error e => exact Harmless.pure _
    | ok a => exact Harmless.pure _

theorem Harmless.ofBool {m : M Bool} (hm : Harmless m) : Harmless (Posix.ofBool m) :=
  hm.bind fun _ => Harmless.ite (Harmless.pure _) (Harmless.pure _)

/-- Every call that keeps off devices. -/
theorem Syscall.harmless {c : Syscall} (h : c.OffDevices) : Harmless c.run := by
  cases c with
  | insertExisting alloc fd out described => exact (harmless_fdTableInsertExisting h).ofBool
  | prestatsInsert realloc fd dir => exact (harmless_fdPrestatsInsert _ _ _).ofBool
  | hostOnly host => exact Harmless.pure _
  | fdPread fd iovcnt host => exact Harmless.ite (Harmless.pure _) (harmless_onObject _ _ _)
  | fdPwrite fd iovcnt host => exact Harmless.ite (Harmless.pure _) (harmless_onObject _ _ _)
  | fdSeek fd offset whence host => exact Harmless.ite (harmless_onObject _ _ _) (Harmless.pure _)
  | fdAdvise fd advice host => exact Harmless.ite (harmless_onObject _ _ _) (Harmless.pure _)
  | fdFilestatSetTimes fd fstflags host => exact Harmless.ite (harmless_onObject _ _ _) (Harmless.pure _)
  | sockShutdown sock how host => exact Harmless.ite (harmless_onObject _ _ _) (Harmless.pure _)
  | fdFdstatGet fd host => exact harmless_fdFdstatGet _ _
  | fdFdstatSetRights fd base inheriting => exact harmless_fdFdstatSetRights _ _ _
  | fdPrestatGet fd => exact harmless_fdPrestatGet _
  | fdPrestatDirName fd pathLen => exact harmless_fdPrestatDirName _ _
  | fdClose fd => exact harmless_fdClose _
  | fdRenumber source target => exact harmless_fdRenumber _ _
  | pathLink oldFd old newFd new host => exact harmless_onPaths _ _ _ _ _ _ _
  | pathRename oldFd old newFd new host => exact harmless_onPaths _ _ _ _ _ _ _
  | pathFilestatSetTimes fd fstflags p host => exact Harmless.ite (harmless_onPath _ _ _ _) (Harmless.pure _)
  | pathSymlink copied fd p host =>
    cases copied with
    | error e => exact Harmless.pure _
    | ok _ => exact harmless_onPath _ _ _ _
  | pathOpen req host => exact (harmless_pathOpen h).status
  | fdReaddir fd nbyte fdopendir answers => exact harmless_fdReaddir _ _ _ _
  | pollOneoff subs host => exact (harmless_pollOneoff _ _).status
  | pathCreateDirectory _ _ _ | pathReadlink _ _ _ | pathFilestatGet _ _ _ | pathUnlinkFile _ _ _
  | pathRemoveDirectory _ _ _ => exact harmless_onPath _ _ _ _
  | _ => exact harmless_onObject _ _ _

end

/-! ## Runs -/

/-- **Directory state is only used on directories.** In every run whose calls insert no device and open none
with `FD_READDIR`, every entry with that right refers to a directory, and no further such call reads the lock,
the handle or the offset of a directory where none was initialized. -/
theorem reachable_directoriesOnly {w : World} (h : Reachable (fun _ c => c.OffDevices) w) :
    w.DirectoriesOnly ∧ ∀ c : Syscall, c.OffDevices → ∀ w', c.run w.enter ≠ .error .uninitialized w' := by
  have hw : w.DirectoriesOnly := by
    induction h with
    | init hostOpen => exact fun fe hfe => by cases hfe
    | @call w w' c r h hvalid hoff hrun ih => exact ((Syscall.harmless hoff w.enter ih).1 _ _ hrun).1
    | host h hostOpen hheld ih => exact ih
  refine ⟨hw, fun c hoff w' hrun => ?_⟩
  exact (Syscall.harmless hoff w.enter hw).2 _ _ hrun rfl

theorem reachable_directoriesOnly_twoFiles :
    World.twoFiles.DirectoriesOnly ∧ ∀ c : Syscall, c.OffDevices →
      ∀ w', c.run World.twoFiles.enter ≠ .error .uninitialized w' := by
  have hfile {fd out : Nat} : (Syscall.insertFile fd out).OffDevices := fun h => by
    rcases h with h | h <;> cases h
  exact reachable_directoriesOnly (reachable_twoFiles hfile hfile)

/-- A character device, the host's 10, as descriptor 0. -/
def Syscall.insertDevice : Syscall := .insertExisting .ample 0 10 ⟨.ok (.chr false), .rdwr⟩

/-- What the table is then. -/
def World.oneDevice : World :=
  ⟨⟨[⟨some 0, rightsAll, rightsAll⟩, .empty], 1⟩, [], [⟨1, .characterDevice, 10, false, false⟩],
    [10], [.wrlock .table, .write, .write, .unlock .table]⟩

/-- A character device has `FD_READDIR`, and `fd_readdir` reads the lock that it does not have. -/
theorem not_directoriesOnly_device :
    Reachable (fun _ _ => True) .oneDevice ∧ ¬ World.oneDevice.DirectoriesOnly ∧
      ∃ w', (Syscall.fdReaddir 0 100 (.ok ()) []).run World.oneDevice.enter = .error .uninitialized w' := by
  have hvalid : Syscall.insertDevice.Valid (.init [10]) :=
    ⟨(fun n hn => by cases hn), List.nodup_nil, fun n hn => of_decide_eq_true hn, by decide,
      fun n hn => Option.some.inj hn ▸ List.mem_cons_self⟩
  refine ⟨.call (.init [10]) hvalid trivial rfl, fun h => ?_, _, rfl⟩
  obtain ⟨o, ho, htype⟩ := h ⟨some 0, rightsAll, rightsAll⟩ List.mem_cons_self 0 rfl (by decide)
  obtain rfl := Option.some.inj ho
  cases htype

end Wasmtime.Wasi.Posix
