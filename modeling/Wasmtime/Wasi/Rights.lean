import Mathlib
import Wasmtime.Wasi.LockDiscipline

/-!
# Rights never grow

What the calls of `posix.c` do to the rights in the descriptor table. Nothing is assumed of the table
they start with, and nothing is said of calls that stop.

* `Within`: containment of rights. `World.entry`: the occupied entries.
* `onReturn_*` for each call that changes the table: `fd_fdstat_set_rights`, `fd_close`, `fd_renumber`,
  `path_open`; and what `poll_oneoff` reports.
* `Syscall.requires`, `Syscall.demands`: a call succeeds only with the rights it names.
* `rights_confined`: along every run each descriptor keeps to the rights of the entry it comes from,
  through any number of opens and renumbers.
-/

namespace Wasmtime.Wasi.Posix

open Triple

/-! ## Rights and entries -/

/-- Every right of `a` is one of `b`. -/
def Within (a b : Rights) : Prop := ~~~b &&& a = 0

theorem within_iff {a b : Rights} : Within a b ↔ ∀ i, a.getLsbD i = true → b.getLsbD i = true := by
  unfold Within
  constructor
  · intro h i hi
    have hlt : i < 64 := BitVec.lt_of_getLsbD hi
    have hbit : (~~~b &&& a).getLsbD i = false := by
      rw [h]
      exact BitVec.getLsbD_zero
    rw [BitVec.getLsbD_and, BitVec.getLsbD_not, hi, decide_eq_true hlt] at hbit
    simpa using hbit
  · intro h
    ext i hi
    have := h i
    simp only [BitVec.getLsbD_eq_getElem hi] at this
    simp only [BitVec.getElem_and, BitVec.getElem_not]
    cases ha : a[i] <;> cases hb : b[i] <;> simp_all

theorem Within.trans {a b c : Rights} (h : Within a b) (h' : Within b c) : Within a c := by
  rw [within_iff] at h h' ⊢
  exact fun i hi => h' i (h i hi)

theorem Within.refl (a : Rights) : Within a a := by
  rw [within_iff]
  exact fun _ h => h

theorem Within.of_or_left {a b c : Rights} (h : Within (a ||| b) c) : Within a c := by
  rw [within_iff] at h ⊢
  exact fun i hi => h i (by simp [hi])

theorem Within.of_or_right {a b c : Rights} (h : Within (a ||| b) c) : Within b c := by
  rw [within_iff] at h ⊢
  exact fun i hi => h i (by simp [hi])

theorem Within.and_left {a b c : Rights} (h : Within a c) : Within (a &&& b) c := by
  rw [within_iff] at h ⊢
  exact fun i hi => h i (by simp_all)

/-- The occupied entry of a number. -/
def FdTable.entry (ft : FdTable) (fd : Nat) : Option FdEntry :=
  ft.entries[fd]?.filter fun fe => fe.object.isSome

/-- The occupied entries of a world. -/
def World.entry (w : World) : Nat → Option FdEntry := w.table.entry

theorem entry_eq_some {ft : FdTable} {fd : Nat} {fe : FdEntry} :
    ft.entry fd = some fe ↔ ft.entries[fd]? = some fe ∧ fe.object.isSome = true := by
  rw [FdTable.entry, Option.filter_eq_some_iff]

theorem entry_set {ft : FdTable} {fd : Nat} {fe new : FdEntry} {used : BitVec 64}
    (h : ft.entries[fd]? = some fe) :
    FdTable.entry ⟨ft.entries.set fd new, used⟩ =
      Function.update ft.entry fd (if new.object.isSome then some new else none) := by
  have hlt : fd < ft.entries.length := (List.getElem?_eq_some_iff.mp h).choose
  funext k
  unfold FdTable.entry
  dsimp only
  by_cases hk : k = fd
  · subst hk
    rw [Function.update_self, List.getElem?_set_self hlt, Option.filter_some]
  · rw [Function.update_of_ne hk, List.getElem?_set_ne (Ne.symm hk)]

theorem entry_attach {ft : FdTable} {fd fo : Nat} {fe : FdEntry} {base inheriting : Rights}
    {used : BitVec 64} (h : ft.entries[fd]? = some fe) :
    FdTable.entry ⟨ft.entries.set fd ⟨some fo, base, inheriting⟩, used⟩ =
      Function.update ft.entry fd (some ⟨some fo, base, inheriting⟩) :=
  entry_set h

theorem entry_detach {ft : FdTable} {fd : Nat} {fe : FdEntry} {used : BitVec 64}
    (h : ft.entries[fd]? = some fe) :
    FdTable.entry ⟨ft.entries.set fd { fe with object := none }, used⟩ =
      Function.update ft.entry fd none :=
  entry_set h

theorem entry_grown (entries : List FdEntry) (k : Nat) (used used' : BitVec 64) :
    FdTable.entry ⟨entries ++ List.replicate k FdEntry.empty, used⟩ = FdTable.entry ⟨entries, used'⟩ := by
  funext fd
  unfold FdTable.entry
  dsimp only
  by_cases hlt : fd < entries.length
  · rw [List.getElem?_append_left hlt]
  · rw [List.getElem?_append_right (by omega), List.getElem?_replicate,
      List.getElem?_eq_none (by omega : entries.length ≤ fd)]
    split
    · rfl
    · rfl

/-- An occupied entry has the rights. -/
def FdTable.Allows (ft : FdTable) (fd : Nat) (base inheriting : Rights) : Prop :=
  ∃ fe, ft.entry fd = some fe ∧ Within base fe.rightsBase ∧ Within inheriting fe.rightsInheriting

theorem entry_of_ok {ft : FdTable} {fd fo : Nat} {base inheriting : Rights} {fe : FdEntry}
    (h : fdTableGetEntry ft fd base inheriting = .ok (fe, fo)) :
    ft.entry fd = some fe ∧ Within base fe.rightsBase ∧ Within inheriting fe.rightsInheriting := by
  obtain ⟨hget, hobj, hbase, hinheriting⟩ := fdTableGetEntry_ok h
  exact ⟨entry_eq_some.mpr ⟨hget, by simp [hobj]⟩, hbase, hinheriting⟩

/-! ## What a lookup asks for -/

section

variable {w : World} {fd : Nat} {base inheriting : Rights}

theorem onReturn_of {α : Type} {m : M α} {Q : α → World → Prop} (h : ∀ a w', Q a w') : OnReturn m w Q :=
  ⟨fun a w' _ => h a w', fun _ _ _ => trivial⟩

theorem onReturn_fdObjectGetLocked :
    OnReturn (fdObjectGetLocked fd base inheriting) w fun r w' => w'.table = w.table ∧
      ∀ fo, r = .ok fo → w.table.Allows fd base inheriting := by
  unfold fdObjectGetLocked
  refine Always.get_bind ?_
  cases hg : fdTableGetEntry w.table fd base inheriting with
  | error e => exact Always.pure ⟨rfl, fun fo hfo => nomatch hfo⟩
  | ok p =>
    obtain ⟨fe, fo⟩ := p
    refine onReturn_refcountAcquire.bind ?_
    rintro _ w₁ ⟨htable, -⟩
    exact Always.pure ⟨htable, fun _ _ => ⟨fe, entry_of_ok hg⟩⟩

theorem onReturn_fdObjectGet :
    OnReturn (fdObjectGet fd base inheriting) w fun r _ =>
      ∀ fo, r = .ok fo → w.table.Allows fd base inheriting := by
  unfold fdObjectGet
  refine (onReturn_log _).bind ?_
  rintro _ w₁ ⟨htable₁, -⟩
  refine onReturn_fdObjectGetLocked.bind ?_
  rintro r w₂ ⟨-, hallows⟩
  refine (onReturn_log _).bind fun _ w₃ _ => Always.pure ?_
  rwa [htable₁] at hallows

theorem onReturn_pathGet {p : PathHost} :
    OnReturn (pathGet fd base inheriting p) w fun r _ =>
      ∀ pa, r = .ok pa → w.table.Allows fd base inheriting := by
  unfold pathGet
  split
  · exact Always.pure fun pa hpa => nomatch hpa
  · refine onReturn_fdObjectGet.bind fun r w₁ hallows => ?_
    cases r with
    | error e => exact Always.pure fun pa hpa => nomatch hpa
    | ok fo => exact onReturn_of fun _ _ _ _ => hallows fo rfl

/-- The call succeeds only if the descriptor has the rights. -/
def Demands (m : M Host) (fd : Nat) (base inheriting : Rights) : Prop :=
  ∀ w : World, w.held = some .none → OnReturn m w fun r _ => r = .ok () → w.table.Allows fd base inheriting

theorem demands_onObject (fd : Nat) (rights : Rights) (host : Host) :
    Demands (onObject fd rights host) fd rights 0 := by
  intro w _
  unfold onObject
  refine onReturn_fdObjectGet.bind fun r w₁ hallows => ?_
  cases r with
  | error e => exact Always.pure fun he => nomatch he
  | ok fo => exact onReturn_of fun _ _ _ => hallows fo rfl

theorem demands_onPath (fd : Nat) (rights : Rights) (p : PathHost) (host : Host) :
    Demands (onPath fd rights p host) fd rights 0 := by
  intro w _
  unfold onPath
  refine onReturn_pathGet.bind fun r w₁ hallows => ?_
  cases r with
  | error e => exact Always.pure fun he => nomatch he
  | ok pa => exact onReturn_of fun _ _ _ => hallows pa rfl

theorem demands_onPaths (oldFd : Nat) (oldRights : Rights) (old : PathHost) (newFd : Nat)
    (newRights : Rights) (new : PathHost) (host : Host) :
    Demands (onPaths oldFd oldRights old newFd newRights new host) oldFd oldRights 0 ∧
      Demands (onPaths oldFd oldRights old newFd newRights new host) newFd newRights 0 := by
  constructor
  · intro w _
    unfold onPaths
    refine onReturn_pathGet.bind fun r w₁ hallows => ?_
    cases r with
    | error e => exact Always.pure fun he => nomatch he
    | ok pa => exact onReturn_of fun _ _ _ => hallows pa rfl
  · intro w hw
    unfold onPaths
    have hkeeps := @balanced_pathGet (fun ft _ => ft = w.table) oldFd oldRights 0 old w ⟨hw, rfl⟩
    refine (hkeeps.weaken fun _ _ => trivial).bind ?_
    rintro r w₁ ⟨-, htable⟩
    cases r with
    | error e => exact Always.pure fun he => nomatch he
    | ok pa =>
      refine onReturn_pathGet.bind fun r w₂ hallows => ?_
      cases r with
      | error e =>
        refine Always.bind (onReturn_of fun _ _ => trivial) fun _ w₃ _ => ?_
        exact Always.pure fun he => nomatch he
      | ok pa' => exact onReturn_of fun _ _ _ => htable ▸ hallows pa' rfl

theorem demands_fdReaddir (fd nbyte : Nat) (fdopendir : Host)
    (answers : List (Except (Option Errno) Nat)) :
    Demands (fdReaddir fd nbyte fdopendir answers) fd rightFdReaddir 0 := by
  intro w _
  unfold fdReaddir
  refine onReturn_fdObjectGet.bind fun r w₁ hallows => ?_
  cases r with
  | error e => exact Always.pure fun he => nomatch he
  | ok fo => exact onReturn_of fun _ _ _ => hallows fo rfl

theorem demands_pathOpen (req : OpenRequest) (host : OpenHost) :
    Demands (status (pathOpen req host)) req.dirfd req.neededBase req.neededInheriting := by
  intro w _
  have hopen : OnReturn (pathOpen req host) w fun r _ =>
      ∀ n, r = .ok n → w.table.Allows req.dirfd req.neededBase req.neededInheriting := by
    unfold pathOpen
    refine onReturn_pathGet.bind fun r w₁ hallows => ?_
    cases r with
    | error e => exact Always.pure fun n he => nomatch he
    | ok pa => exact onReturn_of fun _ _ _ _ => hallows pa rfl
  refine hopen.bind fun r w₁ hallows => ?_
  cases r with
  | error e => exact Always.pure fun he => nomatch he
  | ok n => exact Always.pure fun _ => hallows n rfl

theorem Demands.ite {p : Prop} [Decidable p] {m m' : M Host} (hm : Demands m fd base inheriting)
    (hm' : Demands m' fd base inheriting) : Demands (if p then m else m') fd base inheriting := by
  split
  · exact hm
  · exact hm'

theorem demands_error (e : Errno) : Demands (return .error e) fd base inheriting :=
  fun _ _ => Always.pure fun he => nomatch he

/-- What `fd_fdstat_set_rights` does: it fails, or takes rights away. -/
theorem onReturn_fdFdstatSetRights :
    OnReturn (fdFdstatSetRights fd base inheriting) w fun r w' =>
      (∃ e, r = .error e) ∧ w'.entry = w.entry ∨
        r = .ok () ∧ ∃ fe, w.entry fd = some fe ∧ Within base fe.rightsBase ∧
          Within inheriting fe.rightsInheriting ∧
          w'.entry = Function.update w.entry fd
            (some { fe with rightsBase := base, rightsInheriting := inheriting }) := by
  unfold fdFdstatSetRights
  refine (onReturn_log _).bind ?_
  rintro _ w₁ ⟨htable₁, -⟩
  refine Always.get_bind ?_
  dsimp only
  rw [htable₁]
  cases hg : fdTableGetEntry w.table fd base inheriting with
  | error e =>
    refine (onReturn_log _).bind ?_
    rintro _ w₂ ⟨htable₂, -⟩
    refine Always.pure (.inl ⟨⟨e, rfl⟩, ?_⟩)
    rw [World.entry, htable₂, htable₁]
    rfl
  | ok p =>
    obtain ⟨fe, fo⟩ := p
    obtain ⟨hget, hobj, -⟩ := fdTableGetEntry_ok hg
    obtain ⟨hentry, hbase, hinheriting⟩ := entry_of_ok hg
    refine (onReturn_writeTable _).bind ?_
    rintro _ w₂ ⟨htable₂, -⟩
    refine (onReturn_log _).bind ?_
    rintro _ w₃ ⟨htable₃, -⟩
    refine Always.pure (.inr ⟨rfl, fe, hentry, hbase, hinheriting, ?_⟩)
    rw [World.entry, htable₃, htable₂, entry_attach hget, ← hobj]
    rfl

/-- What `fd_close` does: it fails, or one entry goes away. -/
theorem onReturn_fdClose :
    OnReturn (fdClose fd) w fun r w' => (∃ e, r = .error e) ∧ w'.entry = w.entry ∨
      r = .ok () ∧ w'.entry = Function.update w.entry fd none := by
  unfold fdClose
  refine (onReturn_log _).bind ?_
  rintro _ w₁ ⟨htable₁, -⟩
  refine Always.get_bind ?_
  dsimp only
  refine (onReturn_log _).bind ?_
  rintro _ w₂ ⟨htable₂, -⟩
  split
  · refine Always.pure (.inl ⟨⟨_, rfl⟩, ?_⟩)
    rw [World.entry, htable₂, htable₁]
    rfl
  · refine (onReturn_log _).bind ?_
    rintro _ w₃ ⟨htable₃, -⟩
    have htable : w₃.table = w.table := htable₃.trans (htable₂.trans htable₁)
    refine Always.get_bind ?_
    split
    · refine (onReturn_log _).bind ?_
      rintro _ w₄ ⟨htable₄, -⟩
      refine Always.pure (.inl ⟨⟨_, rfl⟩, ?_⟩)
      rw [World.entry, htable₄, htable]
      rfl
    · refine onReturn_fdTableDetach.bind ?_
      rintro fo w₄ ⟨fe, hget, hobj, -, htable₄, -⟩
      refine (onReturn_log _).bind ?_
      rintro _ w₅ ⟨htable₅, -⟩
      refine onReturn_fdObjectRelease.bind ?_
      rintro _ w₆ ⟨htable₆, -⟩
      refine Always.pure (.inr ⟨rfl, ?_⟩)
      rw [World.entry, htable₆, htable₅, htable₄, entry_detach hget, htable]
      rfl

/-- What the part of `fd_renumber` that changes the table does. -/
theorem onReturn_renumberLocked_entry {source target : Nat} :
    OnReturn (renumberLocked source target) w fun _ w' => w'.prestats = w.prestats ∧
      ∃ fe, w.entry source = some fe ∧ w'.entry = Function.update w.entry target (some fe) := by
  unfold renumberLocked
  refine onReturn_fdTableDetach.bind ?_
  rintro fo' w₁ ⟨fe', htarget, -, -, htable₁, hprestats₁, -⟩
  refine onReturn_followEntry.bind ?_
  rintro ⟨fe, fo⟩ _ ⟨rfl, hfrom, hfo⟩
  have hlt : target < w.table.entries.length := (List.getElem?_eq_some_iff.mp htarget).choose
  have hdistinct : target ≠ source := by
    rintro rfl
    rw [htable₁, List.getElem?_set_self hlt] at hfrom
    obtain rfl := Option.some.inj hfrom
    exact nomatch hfo
  rw [htable₁, List.getElem?_set_ne hdistinct] at hfrom
  refine onReturn_refcountAcquire.bind ?_
  rintro _ w₂ ⟨htable₂, hprestats₂, -⟩
  refine onReturn_fdTableAttach.bind ?_
  rintro _ w₃ ⟨htable₃, hprestats₃, -⟩
  refine (onReturn_log _).bind ?_
  rintro _ w₄ ⟨htable₄, hprestats₄, -⟩
  refine onReturn_fdObjectRelease.mono ?_
  rintro _ w₅ ⟨htable₅, hprestats₅, -⟩
  have hsame : (⟨some fo, fe.rightsBase, fe.rightsInheriting⟩ : FdEntry) = fe := by rw [← hfo]
  refine ⟨?_, fe, entry_eq_some.mpr ⟨hfrom, by simp only at hfo; simp [hfo]⟩, ?_⟩
  · rw [hprestats₅, hprestats₄, hprestats₃, hprestats₂, hprestats₁]
  · rw [World.entry, htable₅, htable₄, htable₃, htable₂, htable₁]
    dsimp only
    rw [List.set_set, entry_attach htarget, hsame]
    rfl

/-- What the rest of it does. -/
theorem onReturn_renumberUnlocked_entry {source : Nat} :
    OnReturn (renumberUnlocked source) w fun r w' => r = .ok () ∧ w'.prestats = w.prestats ∧
      w'.entry = Function.update w.entry source none := by
  unfold renumberUnlocked
  refine onReturn_fdTableDetach.bind ?_
  rintro fo w₁ ⟨fe, hget, -, -, htable₁, hprestats₁, -⟩
  refine onReturn_fdObjectRelease.bind ?_
  rintro _ w₂ ⟨htable₂, hprestats₂, -⟩
  refine Always.get_bind ?_
  refine (onReturn_writeTable _).bind ?_
  rintro _ w₃ ⟨htable₃, hprestats₃, -⟩
  refine (onReturn_log _).bind ?_
  rintro _ w₄ ⟨htable₄, hprestats₄, -⟩
  refine Always.pure ⟨rfl, ?_, ?_⟩
  · rw [hprestats₄, hprestats₃, hprestats₂, hprestats₁]
  · rw [World.entry, htable₄, htable₃, htable₂, htable₁, entry_detach hget]
    rfl

/-- Where the checks of `fd_renumber` do not pass, it fails. -/
theorem onReturn_fdRenumber_refused {source target : Nat} (h : ¬ w.Renumbers source target) :
    OnReturn (fdRenumber source target) w fun r _ => ∃ e, r = .error e := by
  unfold fdRenumber
  refine (onReturn_log _).bind ?_
  rintro _ w₁ ⟨htable₁, hprestats₁, -⟩
  refine Always.get_bind ?_
  dsimp only
  rw [hprestats₁]
  refine (onReturn_log _).bind ?_
  rintro _ w₂ ⟨htable₂, -⟩
  cases htarget : fdPrestatsGetEntry w.prestats target with
  | ok len => exact Always.pure ⟨_, rfl⟩
  | error e =>
    cases hsource : fdPrestatsGetEntry w.prestats source with
    | ok len => exact Always.pure ⟨_, rfl⟩
    | error e' =>
      refine (onReturn_log _).bind ?_
      rintro _ w₃ ⟨htable₃, -⟩
      refine Always.get_bind ?_
      rw [htable₃, htable₂, htable₁]
      cases hfrom : fdTableGetEntry w.table source 0 0 with
      | error e => exact Always.bind (onReturn_of fun _ _ => trivial) fun _ _ _ => Always.pure ⟨_, rfl⟩
      | ok p =>
        refine Always.get_bind ?_
        rw [htable₃, htable₂, htable₁]
        cases hto : fdTableGetEntry w.table target 0 0 with
        | error e => exact Always.bind (onReturn_of fun _ _ => trivial) fun _ _ _ => Always.pure ⟨_, rfl⟩
        | ok p' => exact absurd ⟨⟨e, htarget⟩, ⟨e', hsource⟩, ⟨p, hfrom⟩, ⟨p', hto⟩⟩ h

/-- What `fd_renumber` does: it fails, or the target becomes the source, and the source goes away. -/
theorem onReturn_fdRenumber {source target : Nat} (hw : w.held = some .none) :
    OnReturn (fdRenumber source target) w fun r w' =>
      w'.prestats = w.prestats ∧
      ((∃ e, r = .error e) ∧ w'.entry = w.entry ∨
        r = .ok () ∧ w.Renumbers source target ∧ ∃ fe, w.entry source = some fe ∧
          w'.entry = Function.update (Function.update w.entry target (some fe)) source none) := by
  by_cases h : w.Renumbers source target
  · obtain ⟨w₁, htable, hprestats, -, -, heq⟩ := fdRenumber_checked h hw
    have hentry : w₁.entry = w.entry := by rw [World.entry, htable]; rfl
    rw [OnReturn, Always, heq]
    refine onReturn_renumberLocked_entry.bind ?_
    rintro _ w₂ ⟨hprestats₂, fe, hsource, hentry₂⟩
    refine onReturn_renumberUnlocked_entry.mono ?_
    rintro r w₃ ⟨rfl, hprestats₃, hentry₃⟩
    refine ⟨hprestats₃.trans (hprestats₂.trans hprestats), .inr ⟨rfl, h, fe, hentry ▸ hsource, ?_⟩⟩
    rw [hentry₃, hentry₂, hentry]
  · have hkeeps := balanced_fdRenumber h w ⟨hw, rfl, rfl⟩
    refine ((hkeeps.and (onReturn_fdRenumber_refused h)).mono ?_).weaken fun _ _ => trivial
    rintro r w' ⟨⟨-, htable, hprestats⟩, hfailed⟩
    refine ⟨hprestats, .inl ⟨hfailed, ?_⟩⟩
    rw [World.entry, htable]
    rfl

/-! ## Opening -/

theorem growSize_ge {min need : Nat} (fuel : Nat) {size size' : Nat}
    (h : growSize min need fuel size = some size') : min < size' ∧ need ≤ size' := by
  induction fuel generalizing size with
  | zero => cases h
  | succ fuel ih =>
    rw [growSize] at h
    split at h
    · exact ih h
    · next hlarge =>
      obtain rfl := Option.some.inj h
      omega

/-- Growing never loses an entry, whatever the counter says. -/
theorem onReturn_fdTableGrow {realloc : Nat → Bool} {min incr : Nat} :
    OnReturn (fdTableGrow realloc min incr) w fun _ w' => w'.entry = w.entry := by
  unfold fdTableGrow
  refine Always.get_bind ?_
  dsimp only
  split
  · next hsmall =>
    split
    · exact Always.throw trivial
    · next size' hsome =>
      have hge := growSize_ge _ hsome
      split
      · refine (onReturn_writeTable _).bind ?_
        rintro _ w₁ ⟨htable, -⟩
        refine Always.pure ?_
        rw [World.entry, htable, List.take_of_length_le (by omega)]
        exact entry_grown _ _ _ _
      · exact Always.pure rfl
  · exact Always.pure rfl

theorem onReturn_fdTableUnused {random : Random} :
    OnReturn (fdTableUnused random) w fun fd w' => w' = w ∧ w.entry fd = none := by
  unfold fdTableUnused
  refine Always.get_bind ?_
  dsimp only
  split
  · exact Always.throw trivial
  · split
    · next base inheriting hget =>
      refine Always.pure ⟨rfl, ?_⟩
      rw [World.entry, FdTable.entry, hget]
      rfl
    · exact Always.throw trivial

/-- What inserting does: it fails, or a number that was free has an entry with the rights. -/
theorem onReturn_fdTableInsertFd {alloc : Allocator} {e : Errno} {number : Nat} {type : Filetype} :
    OnReturn (fdTableInsertFd alloc e number type base inheriting) w fun r w' =>
      (∃ e, r = .error e) ∧ w'.entry = w.entry ∨
        ∃ n fo, r = .ok n ∧ w.entry n = none ∧
          w'.entry = Function.update w.entry n (some ⟨some fo, base, inheriting⟩) := by
  unfold fdTableInsertFd
  split
  · refine (Always.of_returns ⟨(), _, rfl, rfl⟩ :
      OnReturn (closeHost number) w fun _ w' => w'.table = w.table).bind ?_
    intro _ w₁ htable
    refine Always.pure (.inl ⟨⟨_, rfl⟩, ?_⟩)
    rw [World.entry, htable]
    rfl
  · refine (Always.of_returns ⟨_, _, rfl, rfl⟩ :
      OnReturn (fdObjectNew type number) w fun _ w' => w'.table = w.table).bind ?_
    intro fo w₁ htable₁
    unfold fdTableInsert
    refine (onReturn_log _).bind ?_
    rintro _ w₂ ⟨htable₂, -⟩
    refine onReturn_fdTableGrow.bind ?_
    intro b w₃ hentry₃
    have hentry : w₃.entry = w.entry := by
      rw [hentry₃, World.entry, htable₂, htable₁]
      rfl
    split
    · refine (onReturn_log _).bind ?_
      rintro _ w₄ ⟨htable₄, -⟩
      refine onReturn_fdObjectRelease.bind ?_
      rintro _ w₅ ⟨htable₅, -⟩
      refine Always.pure (.inl ⟨⟨_, rfl⟩, ?_⟩)
      rw [World.entry, htable₅, htable₄]
      exact hentry
    · refine onReturn_fdTableUnused.bind ?_
      rintro n _ ⟨rfl, hfree⟩
      refine onReturn_fdTableAttach.bind ?_
      rintro _ w₄ ⟨htable₄, -, -, ⟨fe, hget, -⟩, -⟩
      refine (onReturn_log _).bind ?_
      rintro _ w₅ ⟨htable₅, -⟩
      refine Always.pure (.inr ⟨n, fo, rfl, hentry ▸ hfree, ?_⟩)
      rw [World.entry, htable₅, htable₄, entry_attach hget, ← hentry]
      rfl

/-- What `path_open` does: it fails, or a number that was free has an entry with rights that the
directory passes on. -/
theorem onReturn_pathOpen {req : OpenRequest} {host : OpenHost} (hw : w.held = some .none) :
    OnReturn (pathOpen req host) w fun r w' => (∃ e, r = .error e) ∧ w'.entry = w.entry ∨
      ∃ n dir fe, r = .ok n ∧ w.entry req.dirfd = some dir ∧ w.entry n = none ∧
        Within fe.rightsBase dir.rightsInheriting ∧ Within fe.rightsInheriting dir.rightsInheriting ∧
        w'.entry = Function.update w.entry n (some fe) ∧ fe.object.isSome = true := by
  have hpinned : ∀ {w' : World}, w'.table = w.table → w'.entry = w.entry := by
    intro w' htable
    rw [World.entry, htable]
    rfl
  have hput : ∀ (w₁ : World) (pa : PathAccess), w₁.held = some .none → w₁.table = w.table →
      OnReturn (pathPut pa) w₁ fun _ w₂ => w₂.held = some .none ∧ w₂.table = w.table := by
    intro w₁ pa hheld htable
    exact (@balanced_pathPut (fun ft _ => ft = w.table) pa w₁ ⟨hheld, htable⟩).weaken fun _ _ => trivial
  unfold pathOpen
  have hget := @balanced_pathGet (fun ft _ => ft = w.table) req.dirfd req.neededBase
    req.neededInheriting host.path w ⟨hw, rfl⟩
  refine ((hget.and onReturn_pathGet).weaken fun _ _ => trivial).bind ?_
  rintro r w₁ ⟨⟨hheld₁, htable₁⟩, hallows⟩
  cases r with
  | error e => exact Always.pure (.inl ⟨⟨e, rfl⟩, hpinned htable₁⟩)
  | ok pa =>
    obtain ⟨dir, hdir, -, hinheriting⟩ := hallows pa rfl
    cases host.openat with
    | error e =>
      refine (hput w₁ pa hheld₁ htable₁).bind ?_
      rintro _ w₂ ⟨-, htable₂⟩
      exact Always.pure (.inl ⟨⟨_, rfl⟩, hpinned htable₂⟩)
    | ok nfd =>
      refine (Always.of_returns ⟨(), _, rfl, hheld₁, htable₁⟩ :
        OnReturn (openHost nfd) w₁ fun _ w' => w'.held = some .none ∧ w'.table = w.table).bind ?_
      rintro _ w₂ ⟨hheld₂, htable₂⟩
      refine (hput w₂ pa hheld₂ htable₂).bind ?_
      rintro _ w₃ ⟨-, htable₃⟩
      cases fdDetermineTypeRights host.described with
      | error e =>
        refine (Always.of_returns ⟨(), _, rfl, htable₃⟩ :
          OnReturn (closeHost nfd) w₃ fun _ w' => w'.table = w.table).bind fun _ w₄ htable₄ => ?_
        exact Always.pure (.inl ⟨⟨_, rfl⟩, hpinned htable₄⟩)
      | ok found =>
        obtain ⟨type, maxBase, maxInheriting⟩ := found
        refine onReturn_fdTableInsertFd.mono ?_
        rintro r w₄ (⟨hfailed, hentry⟩ | ⟨n, fo, rfl, hfree, hentry⟩)
        · exact .inl ⟨hfailed, hentry.trans (hpinned htable₃)⟩
        · rw [hpinned htable₃] at hfree hentry
          have hrights : Within (req.rightsBase ||| req.rightsInheriting) dir.rightsInheriting :=
            hinheriting.of_or_left.of_or_left.of_or_left
          exact .inr ⟨n, dir, _, rfl, hdir, hfree, hrights.of_or_left.and_left,
            hrights.of_or_right.and_left, hentry, rfl⟩

/-! ## Polling -/

/-- A subscription to a descriptor is only taken with the right. -/
def Subscription.Allowed (ft : FdTable) (sub : Subscription) : Prop :=
  ∀ fd, sub = .fdRead fd ∨ sub = .fdWrite fd → ft.Allows fd rightPollFdReadwrite 0

/-- The first loop of `poll_oneoff` after the subscriptions in `done`. -/
structure Subscribed (ft : FdTable) (done : List Subscription) (s : PollState) : Prop where
  length : s.fos.length = done.length
  allowed : ∀ (k fo : Nat) (sub : Subscription), s.fos[k]? = some (some fo) → done[k]? = some sub →
    sub.Allowed ft
  clock : ∀ k, s.clock = some k → ∃ abstime, done[k]? = some (.clock abstime)
  failed : ∀ ev ∈ s.events, ev.error ≠ none

theorem Subscribed.snoc {ft : FdTable} {done : List Subscription} {s : PollState}
    {sub : Subscription} {fo : Option Nat} (h : Subscribed ft done s)
    (hallowed : fo.isSome = true → sub.Allowed ft) {s' : PollState} (hfos : s'.fos = s.fos ++ [fo])
    (hclock : s'.clock = s.clock ∨ s'.clock = some done.length ∧ ∃ abstime, sub = .clock abstime)
    (hevents : s'.events = s.events ∨ ∃ e, s'.events = s.events ++ [⟨done.length, some e⟩]) :
    Subscribed ft (done ++ [sub]) s' := by
  constructor
  case length => simp [hfos, h.length]
  case allowed =>
    intro k fo' sub' hk hsub
    rw [hfos] at hk
    by_cases hlt : k < done.length
    · rw [List.getElem?_append_left (by rw [h.length]; exact hlt)] at hk
      rw [List.getElem?_append_left hlt] at hsub
      exact h.allowed k fo' sub' hk hsub
    · rw [List.getElem?_append_right (by rw [h.length]; omega), List.getElem?_singleton] at hk
      rw [List.getElem?_append_right (by omega), List.getElem?_singleton] at hsub
      split at hsub
      · obtain rfl := Option.some.inj hsub
        split at hk
        · refine hallowed ?_
          rw [Option.some.inj hk]
          rfl
        · cases hk
      · cases hsub
  case clock =>
    intro k hk
    obtain hsame | ⟨hnew, abstime, rfl⟩ := hclock
    · obtain ⟨abstime, hget⟩ := h.clock k (hsame ▸ hk)
      exact ⟨abstime, by rw [List.getElem?_append_left (List.getElem?_eq_some_iff.mp hget).choose, hget]⟩
    · obtain rfl := Option.some.inj (hnew.symm.trans hk)
      exact ⟨abstime, by simp⟩
  case failed =>
    obtain hsame | ⟨e, hnew⟩ := hevents
    · rw [hsame]
      exact h.failed
    · rw [hnew]
      intro ev hev
      obtain hev | hev := List.mem_append.mp hev
      · exact h.failed ev hev
      · obtain rfl := List.mem_singleton.mp hev
        exact Option.some_ne_none e

theorem onReturn_pollSubscribe {ft : FdTable} {done : List Subscription} {s : PollState}
    (h : Subscribed ft done s) (htable : w.table = ft) (sub : Subscription) :
    OnReturn (pollSubscribe s done.length sub) w fun s' w' =>
      Subscribed ft (done ++ [sub]) s' ∧ w'.table = ft := by
  have hfd : ∀ fd, sub = .fdRead fd ∨ sub = .fdWrite fd →
      OnReturn (pollSubscribe.subscribeFd s done.length fd) w fun s' w' =>
        Subscribed ft (done ++ [sub]) s' ∧ w'.table = ft := by
    intro fd hsub
    unfold pollSubscribe.subscribeFd
    refine onReturn_fdObjectGetLocked.bind ?_
    rintro r w₁ ⟨htable₁, hallows⟩
    cases r with
    | error e =>
      refine Always.pure ⟨h.snoc (by simp) rfl (.inl rfl) (.inr ⟨e, rfl⟩), ?_⟩
      exact htable₁.trans htable
    | ok fo =>
      refine onReturn_fdObject.bind ?_
      rintro o _ ⟨rfl, -⟩
      refine Always.pure ⟨h.snoc (fun _ => ?_) rfl (.inl rfl) (.inl rfl), htable₁.trans htable⟩
      intro fd' hsub'
      have heq : fd' = fd := by
        obtain rfl | rfl := hsub <;> obtain hs | hs := hsub' <;> cases hs <;> rfl
      exact heq ▸ htable ▸ hallows fo rfl
  cases sub with
  | fdRead fd => exact hfd fd (.inl rfl)
  | fdWrite fd => exact hfd fd (.inr rfl)
  | clock abstime =>
    simp only [pollSubscribe]
    split
    · refine Always.pure ⟨h.snoc (by simp) rfl (.inr ⟨rfl, abstime, rfl⟩) (.inl rfl), htable⟩
    · exact Always.pure ⟨h.snoc (by simp) rfl (.inl rfl) (.inr ⟨_, rfl⟩), htable⟩
  | other => exact Always.pure ⟨h.snoc (by simp) rfl (.inl rfl) (.inr ⟨_, rfl⟩), htable⟩

theorem onReturn_pollSubscribeAll {ft : FdTable} (subs : List Subscription) {done : List Subscription}
    {s : PollState} {i : Nat} (h : Subscribed ft done s) (hi : i = done.length) (htable : w.table = ft) :
    OnReturn (pollSubscribeAll s i subs) w fun s' _ => Subscribed ft (done ++ subs) s' := by
  induction subs generalizing done s i w with
  | nil => exact Always.pure (by rwa [List.append_nil])
  | cons sub subs ih =>
    subst hi
    refine (onReturn_pollSubscribe h htable sub).bind ?_
    rintro s' w' ⟨h', htable'⟩
    rw [List.append_cons]
    exact ih h' (by simp) htable'

/-- An event without an error is for a clock, or for a descriptor with the right. -/
theorem Subscribed.events {ft : FdTable} {subs : List Subscription} {s : PollState}
    (h : Subscribed ft subs s) (revents : List Revents) {ev : PollEvent}
    (hev : ev ∈ pollEvents s revents) (herror : ev.error = none) {sub : Subscription}
    (hsub : subs[ev.subscription]? = some sub) : sub.Allowed ft := by
  have hready : ev ∈ pollEvents.ready s revents → sub.Allowed ft := by
    intro hev
    obtain hev | hev := List.mem_append.mp hev
    · exact absurd herror (h.failed ev hev)
    · obtain ⟨⟨⟨fo, r⟩, k⟩, hmem, hsome⟩ := List.mem_filterMap.mp hev
      cases fo with
      | none => cases hsome
      | some fo =>
        have hk : ev.subscription = k := by
          dsimp only [Option.isSome_some] at hsome
          rw [if_pos rfl] at hsome
          cases r <;> cases hsome <;> rfl
        have hzip : (s.fos.zip revents)[k]? = some (some fo, r) := List.mem_zipIdx_iff_getElem?.mp hmem
        obtain ⟨hfo, -⟩ := List.getElem?_zip_eq_some.mp hzip
        exact h.allowed k fo sub hfo (hk ▸ hsub)
  have hclock : ∀ k, s.clock = some k → ev.subscription = k → sub.Allowed ft := by
    intro k hk heq fd hfd
    obtain ⟨abstime, hget⟩ := h.clock k hk
    rw [heq, hget] at hsub
    obtain rfl := Option.some.inj hsub
    obtain hfd | hfd := hfd <;> cases hfd
  unfold pollEvents at hev
  cases hc : s.clock with
  | none => exact hready (by rwa [hc] at hev)
  | some k =>
    rw [hc] at hev
    dsimp only at hev
    split at hev
    · obtain rfl := List.mem_singleton.mp hev
      exact hclock k hc rfl
    · exact hready hev

theorem onReturn_pollOneoff {subs : List Subscription} {host : PollHost} :
    OnReturn (pollOneoff subs host) w fun r _ => ∀ events, r = .ok events → ∀ ev ∈ events,
      ev.error = none → ∀ sub, subs[ev.subscription]? = some sub → sub.Allowed w.table := by
  unfold pollOneoff
  split
  · refine Always.pure ?_
    rintro _ ⟨⟩ ev hev - sub hsub fd hfd
    obtain rfl := List.mem_singleton.mp hev
    obtain rfl := Option.some.inj hsub
    obtain hfd | hfd := hfd <;> cases hfd
  · split
    · exact Always.pure fun events he => nomatch he
    · refine (onReturn_log _).bind ?_
      rintro _ w₁ ⟨htable₁, -⟩
      have hstart : Subscribed w.table [] ⟨[], none, []⟩ :=
        ⟨rfl, (fun _ _ _ hk => nomatch hk), (fun _ hk => nomatch hk), fun _ hev => nomatch hev⟩
      refine (onReturn_pollSubscribeAll subs hstart rfl htable₁).bind fun s w₂ hs => ?_
      refine (onReturn_log _).bind fun _ w₃ _ => ?_
      refine Always.bind (onReturn_of fun _ _ => trivial) fun _ w₄ _ => ?_
      split
      · exact Always.pure fun events he => nomatch he
      · refine Always.pure ?_
        rintro _ ⟨⟩ ev hev herror sub hsub
        exact Subscribed.events hs _ hev herror hsub

end

/-! ## Every call -/

/-- The descriptors a call acts on, with the rights it names for them. `poll_oneoff` looks at each of its
subscriptions by itself. -/
def Syscall.requires : Syscall → List (Nat × Rights × Rights)
  | .fdDatasync fd _ => [(fd, rightFdDatasync, 0)]
  | .fdPread fd _ _ => [(fd, rightFdRead ||| rightFdSeek, 0)]
  | .fdPwrite fd _ _ => [(fd, rightFdWrite ||| rightFdSeek, 0)]
  | .fdRead fd _ => [(fd, rightFdRead, 0)]
  | .fdSeek fd offset whence _ =>
    [(fd, if offset = 0 ∧ whence = 0 then rightFdTell else rightFdSeek ||| rightFdTell, 0)]
  | .fdTell fd _ => [(fd, rightFdTell, 0)]
  | .fdFdstatSetFlags fd _ => [(fd, rightFdFdstatSetFlags, 0)]
  | .fdFdstatSetRights fd base inheriting => [(fd, base, inheriting)]
  | .fdSync fd _ => [(fd, rightFdSync, 0)]
  | .fdWrite fd _ => [(fd, rightFdWrite, 0)]
  | .fdAdvise fd _ _ => [(fd, rightFdAdvise, 0)]
  | .fdAllocate fd _ => [(fd, rightFdAllocate, 0)]
  | .fdFilestatGet fd _ => [(fd, rightFdFilestatGet, 0)]
  | .fdFilestatSetSize fd _ => [(fd, rightFdFilestatSetSize, 0)]
  | .fdFilestatSetTimes fd _ _ => [(fd, rightFdFilestatSetTimes, 0)]
  | .sockRecv sock _ => [(sock, rightFdRead, 0)]
  | .sockSend sock _ => [(sock, rightFdWrite, 0)]
  | .sockShutdown sock _ _ => [(sock, rightSockShutdown, 0)]
  | .pathCreateDirectory fd _ _ => [(fd, rightPathCreateDirectory, 0)]
  | .pathLink oldFd _ newFd _ _ => [(oldFd, rightPathLinkSource, 0), (newFd, rightPathLinkTarget, 0)]
  | .pathReadlink fd _ _ => [(fd, rightPathReadlink, 0)]
  | .pathRename oldFd _ newFd _ _ => [(oldFd, rightPathRenameSource, 0), (newFd, rightPathRenameTarget, 0)]
  | .pathFilestatGet fd _ _ => [(fd, rightPathFilestatGet, 0)]
  | .pathFilestatSetTimes fd _ _ _ => [(fd, rightPathFilestatSetTimes, 0)]
  | .pathSymlink _ fd _ _ => [(fd, rightPathSymlink, 0)]
  | .pathUnlinkFile fd _ _ => [(fd, rightPathUnlinkFile, 0)]
  | .pathRemoveDirectory fd _ _ => [(fd, rightPathRemoveDirectory, 0)]
  | .pathOpen req _ => [(req.dirfd, req.neededBase, req.neededInheriting)]
  | .fdReaddir fd _ _ _ => [(fd, rightFdReaddir, 0)]
  | _ => []

theorem demands_of_mem {fd : Nat} {base inheriting : Rights} {m : M Host} {q : Nat × Rights × Rights}
    (h : Demands m fd base inheriting) (hq : q ∈ [(fd, base, inheriting)]) : Demands m q.1 q.2.1 q.2.2 := by
  obtain rfl := List.mem_singleton.mp hq
  exact h

theorem demands_of_mem_pair {fd fd' : Nat} {base base' inheriting inheriting' : Rights} {m : M Host}
    {q : Nat × Rights × Rights} (h : Demands m fd base inheriting ∧ Demands m fd' base' inheriting')
    (hq : q ∈ [(fd, base, inheriting), (fd', base', inheriting')]) : Demands m q.1 q.2.1 q.2.2 := by
  obtain rfl | hq := List.mem_cons.mp hq
  · exact h.1
  · exact demands_of_mem h.2 hq

/-- A call succeeds only with the rights it names. -/
theorem Syscall.demands (c : Syscall) {q : Nat × Rights × Rights} (hq : q ∈ c.requires) :
    Demands c.run q.1 q.2.1 q.2.2 := by
  cases c with
  | fdDatasync fd host => exact demands_of_mem (demands_onObject _ _ _) hq
  | fdPread fd iovcnt host =>
    exact demands_of_mem (.ite (demands_error _) (demands_onObject _ _ _)) hq
  | fdPwrite fd iovcnt host =>
    exact demands_of_mem (.ite (demands_error _) (demands_onObject _ _ _)) hq
  | fdRead fd host => exact demands_of_mem (demands_onObject _ _ _) hq
  | fdSeek fd offset whence host =>
    exact demands_of_mem (.ite (demands_onObject _ _ _) (demands_error _)) hq
  | fdTell fd host => exact demands_of_mem (demands_onObject _ _ _) hq
  | fdFdstatSetFlags fd host => exact demands_of_mem (demands_onObject _ _ _) hq
  | fdFdstatSetRights fd base inheriting =>
    refine demands_of_mem (fun w _ => onReturn_fdFdstatSetRights.mono ?_) hq
    rintro _ w' (⟨⟨e, rfl⟩, -⟩ | ⟨rfl, fe, hentry, hbase, hinheriting, -⟩) hok
    · cases hok
    · exact ⟨fe, hentry, hbase, hinheriting⟩
  | fdSync fd host => exact demands_of_mem (demands_onObject _ _ _) hq
  | fdWrite fd host => exact demands_of_mem (demands_onObject _ _ _) hq
  | fdAdvise fd advice host =>
    exact demands_of_mem (.ite (demands_onObject _ _ _) (demands_error _)) hq
  | fdAllocate fd host => exact demands_of_mem (demands_onObject _ _ _) hq
  | fdFilestatGet fd host => exact demands_of_mem (demands_onObject _ _ _) hq
  | fdFilestatSetSize fd host => exact demands_of_mem (demands_onObject _ _ _) hq
  | fdFilestatSetTimes fd fstflags host =>
    exact demands_of_mem (.ite (demands_onObject _ _ _) (demands_error _)) hq
  | sockRecv sock host => exact demands_of_mem (demands_onObject _ _ _) hq
  | sockSend sock host => exact demands_of_mem (demands_onObject _ _ _) hq
  | sockShutdown sock how host =>
    exact demands_of_mem (.ite (demands_onObject _ _ _) (demands_error _)) hq
  | pathCreateDirectory fd p host => exact demands_of_mem (demands_onPath _ _ _ _) hq
  | pathLink oldFd old newFd new host => exact demands_of_mem_pair (demands_onPaths _ _ _ _ _ _ _) hq
  | pathReadlink fd p host => exact demands_of_mem (demands_onPath _ _ _ _) hq
  | pathRename oldFd old newFd new host => exact demands_of_mem_pair (demands_onPaths _ _ _ _ _ _ _) hq
  | pathFilestatGet fd p host => exact demands_of_mem (demands_onPath _ _ _ _) hq
  | pathFilestatSetTimes fd fstflags p host =>
    exact demands_of_mem (.ite (demands_onPath _ _ _ _) (demands_error _)) hq
  | pathSymlink copied fd p host =>
    cases copied with
    | error e => exact demands_of_mem (demands_error e) hq
    | ok _ => exact demands_of_mem (demands_onPath _ _ _ _) hq
  | pathUnlinkFile fd p host => exact demands_of_mem (demands_onPath _ _ _ _) hq
  | pathRemoveDirectory fd p host => exact demands_of_mem (demands_onPath _ _ _ _) hq
  | pathOpen req host => exact demands_of_mem (demands_pathOpen _ _) hq
  | fdReaddir fd nbyte fdopendir answers => exact demands_of_mem (demands_fdReaddir _ _ _ _) hq
  | _ => cases hq

/-- The system calls proper, without the calls of the embedder that set the tables up. -/
def Syscall.Guest : Syscall → Prop
  | .insertExisting .. => False
  | .prestatsInsert .. => False
  | _ => True

/-- What a call does to the rights, and what it asks for. -/
structure Stepped (c : Syscall) (w : World) (r : Host) (w' : World) : Prop where
  opens : ∀ req host n, c = .pathOpen req host → pathOpen req host w.enter = .ok (.ok n) w' →
    ∃ dir fe, w.entry req.dirfd = some dir ∧ w.entry n = none ∧
      Within fe.rightsBase dir.rightsInheriting ∧ Within fe.rightsInheriting dir.rightsInheriting ∧
      w'.entry = Function.update w.entry n (some fe)
  setsRights : ∀ fd base inheriting, c = .fdFdstatSetRights fd base inheriting → r = .ok () →
    ∃ fe, w.entry fd = some fe ∧ Within base fe.rightsBase ∧ Within inheriting fe.rightsInheriting ∧
      w'.entry = Function.update w.entry fd
        (some { fe with rightsBase := base, rightsInheriting := inheriting })
  renumbers : ∀ source target, c = .fdRenumber source target → r = .ok () →
    ∃ fe, w.entry source = some fe ∧
      w'.entry = Function.update (Function.update w.entry target (some fe)) source none
  closes : ∀ fd, c = .fdClose fd → r = .ok () → w'.entry = Function.update w.entry fd none
  others : c.changes = false ∨ (∃ e, r = .error e) → w'.entry = w.entry
  requires : r = .ok () → ∀ q ∈ c.requires, w.table.Allows q.1 q.2.1 q.2.2
  polls : ∀ subs host events, c = .pollOneoff subs host →
    pollOneoff subs host w.enter = .ok (.ok events) w' → ∀ ev ∈ events, ev.error = none →
    ∀ sub, subs[ev.subscription]? = some sub → sub.Allowed w.table
  prestats : w'.prestats = w.prestats

theorem status_ok {α : Type} {m : M (Except Errno α)} {w w' : World} {r : Host}
    (h : status m w = .ok r w') :
    (∃ e, r = .error e ∧ m w = .ok (.error e) w') ∨ ∃ a, r = .ok () ∧ m w = .ok (.ok a) w' := by
  unfold status at h
  cases hm : m w with
  | error e w₁ =>
    rw [bind_of_error hm] at h
    cases h
  | ok r₁ w₁ =>
    rw [bind_of_ok hm] at h
    cases r₁ with
    | error e =>
      obtain ⟨rfl, rfl⟩ := EStateM.Result.ok.inj h
      exact .inl ⟨e, rfl, rfl⟩
    | ok a =>
      obtain ⟨rfl, rfl⟩ := EStateM.Result.ok.inj h
      exact .inr ⟨a, rfl, rfl⟩

/-- **One call.** `path_open` and `fd_fdstat_set_rights` give rights within those there are, `fd_renumber` and
`fd_close` move and remove an entry, every other call leaves the entries, and a call that succeeds had the rights
it asks for. -/
theorem Syscall.stepped {c : Syscall} (hc : c.Guest) {w w' : World} {r : Host}
    (hrun : c.run w.enter = .ok r w') : Stepped c w r w' := by
  have henter : w.enter.held = some .none := rfl
  constructor
  case opens =>
    rintro req host n rfl hopen
    obtain ⟨⟨e, he⟩, -⟩ | ⟨n', dir, fe, hn, hdir, hfree, hbase, hinheriting, hentry, -⟩ :=
      (onReturn_pathOpen henter).1 _ _ hopen
    · cases he
    · obtain rfl := Except.ok.inj hn
      exact ⟨dir, fe, hdir, hfree, hbase, hinheriting, hentry⟩
  case setsRights =>
    rintro fd base inheriting rfl rfl
    obtain ⟨⟨e, he⟩, -⟩ | ⟨-, h⟩ := onReturn_fdFdstatSetRights.1 _ _ hrun
    · cases he
    · exact h
  case renumbers =>
    rintro source target rfl rfl
    obtain ⟨-, ⟨⟨e, he⟩, -⟩ | ⟨-, -, h⟩⟩ := (onReturn_fdRenumber henter).1 _ _ hrun
    · cases he
    · exact h
  case closes =>
    rintro fd rfl rfl
    obtain ⟨⟨e, he⟩, -⟩ | ⟨-, h⟩ := onReturn_fdClose.1 _ _ hrun
    · cases he
    · exact h
  case others =>
    intro hother
    by_cases hchanges : c.changes = false
    · have hkeeps := @Syscall.balanced_of_not_changes (fun ft _ => ft = w.table) c hchanges w.enter
        ⟨henter, rfl⟩
      rw [World.entry, (hkeeps.1 _ _ hrun).2]
      rfl
    · obtain ⟨e, rfl⟩ := hother.resolve_left hchanges
      cases c with
      | insertExisting alloc fd out described => exact hc.elim
      | prestatsInsert realloc fd dir => exact hc.elim
      | fdFdstatSetRights fd base inheriting =>
        obtain ⟨-, h⟩ | ⟨he, -⟩ := onReturn_fdFdstatSetRights.1 _ _ hrun
        · exact h
        · cases he
      | fdClose fd =>
        obtain ⟨-, h⟩ | ⟨he, -⟩ := onReturn_fdClose.1 _ _ hrun
        · exact h
        · cases he
      | fdRenumber source target =>
        obtain ⟨-, ⟨-, h⟩ | ⟨he, -⟩⟩ := (onReturn_fdRenumber henter).1 _ _ hrun
        · exact h
        · cases he
      | pathOpen req host =>
        obtain ⟨e', -, hopen⟩ | ⟨a, he, -⟩ := status_ok hrun
        · obtain ⟨-, h⟩ | ⟨n, dir, fe, hn, -⟩ := (onReturn_pathOpen henter).1 _ _ hopen
          · exact h
          · cases hn
        · cases he
      | _ => exact absurd rfl hchanges
  case requires => exact fun hr q hq => (c.demands hq w.enter henter).1 _ _ hrun hr
  case polls =>
    rintro subs host events rfl hpoll
    exact onReturn_pollOneoff.1 _ _ hpoll events rfl
  case prestats =>
    by_cases hrenumber : ∃ source target, c = .fdRenumber source target
    · obtain ⟨source, target, rfl⟩ := hrenumber
      exact ((onReturn_fdRenumber henter).1 _ _ hrun).1
    · have hinsert : ∀ realloc fd dir, c ≠ .prestatsInsert realloc fd dir := by
        rintro realloc fd dir rfl
        exact hc
      have hkeeps := @Syscall.balanced_of_prestats (· = w.prestats) c
        (fun source target heq => hrenumber ⟨source, target, heq⟩) hinsert w.enter ⟨henter, rfl⟩
      exact (hkeeps.1 _ _ hrun).2

/-! ## Runs -/

/-- Where a descriptor comes from: an entry of the first table, and whether by some `path_open`. -/
structure Origin where
  root : Nat
  opened : Bool
  deriving DecidableEq, Repr

/-- Where the descriptors come from after a call. -/
def Syscall.origins (c : Syscall) (w : World) (p : Nat → Origin) : Nat → Origin :=
  match c with
  | .pathOpen req host =>
    match Posix.pathOpen req host w.enter with
    | .ok (.ok n) _ => Function.update p n ⟨(p req.dirfd).root, true⟩
    | _ => p
  | .fdRenumber source target =>
    match Posix.fdRenumber source target w.enter with
    | .ok (.ok ()) _ => Function.update p target (p source)
    | _ => p
  | _ => p

/-- The runs of system calls from a first world, with where each descriptor comes from. -/
inductive Run (w₀ : World) : World → (Nat → Origin) → Prop
  | start : Run w₀ w₀ fun fd => ⟨fd, false⟩
  | call {w w' : World} {p : Nat → Origin} {c : Syscall} {r : Host} (h : Run w₀ w p) (hc : c.Guest)
      (hrun : c.run w.enter = .ok r w') : Run w₀ w' (c.origins w p)

/-- What a descriptor may have: after some `path_open` nothing beyond what its root passes on, before
it nothing beyond what its root has and passes on. What comes from a preopened descriptor and is not
that descriptor has been opened. -/
structure Derived (w₀ : World) (fd : Nat) (o : Origin) (fe : FdEntry) : Prop where
  root : ∃ root, w₀.entry o.root = some root ∧ Within fe.rightsInheriting root.rightsInheriting ∧
    Within fe.rightsBase (if o.opened then root.rightsInheriting else root.rightsBase)
  preopened : ∀ len, w₀.prestats[o.root]? = some (some len) → fd ≠ o.root → o.opened = true

section

variable {w₀ w w' : World} {p : Nat → Origin}

theorem Derived.mono {fd : Nat} {o : Origin} {fe fe' : FdEntry} (h : Derived w₀ fd o fe)
    (hbase : Within fe'.rightsBase fe.rightsBase)
    (hinheriting : Within fe'.rightsInheriting fe.rightsInheriting) : Derived w₀ fd o fe' := by
  obtain ⟨root, hroot, hi, hb⟩ := h.root
  exact ⟨⟨root, hroot, hinheriting.trans hi, hbase.trans hb⟩, h.preopened⟩

/-- What a directory passes on keeps to what its root passes on. -/
theorem Derived.opened {fd n : Nat} {o : Origin} {dir fe : FdEntry} (h : Derived w₀ fd o dir)
    (hbase : Within fe.rightsBase dir.rightsInheriting)
    (hinheriting : Within fe.rightsInheriting dir.rightsInheriting) :
    Derived w₀ n ⟨o.root, true⟩ fe := by
  obtain ⟨root, hroot, hi, -⟩ := h.root
  exact ⟨⟨root, hroot, hinheriting.trans hi, hbase.trans hi⟩, fun _ _ _ => rfl⟩

/-- Another number for a descriptor that is not preopened. -/
theorem Derived.moved {fd n : Nat} {o : Origin} {fe : FdEntry} (h : Derived w₀ fd o fe)
    (hfree : ∀ len, w₀.prestats[fd]? ≠ some (some len)) : Derived w₀ n o fe := by
  refine ⟨h.root, fun len hlen _ => ?_⟩
  by_cases hroot : fd = o.root
  · exact absurd (hroot ▸ hlen) (hfree len)
  · exact h.preopened len hlen hroot

/-- Every descriptor has an origin whose rights contain its own. -/
theorem Run.derived (h : Run w₀ w p) :
    w.prestats = w₀.prestats ∧ ∀ fd fe, w.entry fd = some fe → Derived w₀ fd (p fd) fe := by
  induction h with
  | start => exact ⟨rfl, fun fd fe hfe =>
      ⟨⟨fe, hfe, .refl _, .refl _⟩, fun len _ hne => absurd rfl hne⟩⟩
  | @call w w' p c r h hc hrun ih =>
    obtain ⟨hprestats, hderived⟩ := ih
    have hstep := c.stepped hc hrun
    refine ⟨hstep.prestats.trans hprestats, fun fd fe hfe => ?_⟩
    have hkept : w'.entry = w.entry → Derived w₀ fd (p fd) fe := fun heq =>
      hderived fd fe (heq ▸ hfe)
    by_cases hother : c.changes = false
    · have horigins : c.origins w p = p := by cases c <;> first | rfl | cases hother
      rw [horigins]
      exact hkept (hstep.others (.inl hother))
    cases c with
    | insertExisting alloc fd out described => exact hc.elim
    | prestatsInsert realloc fd dir => exact hc.elim
    | fdFdstatSetRights fd' base inheriting =>
      cases r with
      | error e => exact hkept (hstep.others (.inr ⟨e, rfl⟩))
      | ok _ =>
        obtain ⟨old, hold, hbase, hinheriting, hentry⟩ := hstep.setsRights fd' base inheriting rfl rfl
        rw [hentry] at hfe
        by_cases hfd : fd = fd'
        · subst hfd
          rw [Function.update_self] at hfe
          obtain rfl := Option.some.inj hfe
          exact (hderived fd old hold).mono hbase hinheriting
        · rw [Function.update_of_ne hfd] at hfe
          exact hderived fd fe hfe
    | fdClose fd' =>
      cases r with
      | error e => exact hkept (hstep.others (.inr ⟨e, rfl⟩))
      | ok _ =>
        rw [hstep.closes fd' rfl rfl] at hfe
        by_cases hfd : fd = fd'
        · subst hfd
          rw [Function.update_self] at hfe
          cases hfe
        · rw [Function.update_of_ne hfd] at hfe
          exact hderived fd fe hfe
    | fdRenumber source target =>
      have horigins : Syscall.origins (.fdRenumber source target) w p =
          match fdRenumber source target w.enter with
          | .ok (.ok ()) _ => Function.update p target (p source)
          | _ => p := rfl
      rw [horigins, show fdRenumber source target w.enter = .ok r w' from hrun]
      cases r with
      | error e => exact hkept (hstep.others (.inr ⟨e, rfl⟩))
      | ok _ =>
        obtain ⟨old, hold, hentry⟩ := hstep.renumbers source target rfl rfl
        rw [hentry] at hfe
        have hsource : fd ≠ source := by
          rintro rfl
          rw [Function.update_self] at hfe
          cases hfe
        rw [Function.update_of_ne hsource] at hfe
        by_cases hfd : fd = target
        · subst hfd
          rw [Function.update_self] at hfe
          obtain rfl := Option.some.inj hfe
          dsimp only
          rw [Function.update_self]
          refine (hderived source old hold).moved fun len hlen => ?_
          obtain ⟨-, ⟨⟨e, he⟩, -⟩ | ⟨-, hrenumbers, -⟩⟩ := (onReturn_fdRenumber rfl).1 _ _ hrun
          · cases he
          · obtain ⟨-, ⟨e, he⟩, -⟩ := hrenumbers
            have hprestats' : w.enter.prestats = w₀.prestats := hprestats
            rw [hprestats', fdPrestatsGetEntry, hlen] at he
            cases he
        · rw [Function.update_of_ne hfd] at hfe
          dsimp only
          rw [Function.update_of_ne hfd]
          exact hderived fd fe hfe
    | pathOpen req host =>
      have horigins : Syscall.origins (.pathOpen req host) w p =
          match pathOpen req host w.enter with
          | .ok (.ok n) _ => Function.update p n ⟨(p req.dirfd).root, true⟩
          | _ => p := rfl
      rw [horigins]
      obtain ⟨e, rfl, hopen⟩ | ⟨n, rfl, hopen⟩ := status_ok hrun
      · rw [hopen]
        exact hkept (hstep.others (.inr ⟨e, rfl⟩))
      · obtain ⟨dir, new, hdir, -, hbase, hinheriting, hentry⟩ := hstep.opens req host n rfl hopen
        rw [hopen]
        rw [hentry] at hfe
        dsimp only
        by_cases hfd : fd = n
        · subst hfd
          rw [Function.update_self] at hfe ⊢
          obtain rfl := Option.some.inj hfe
          exact (hderived req.dirfd dir hdir).opened hbase hinheriting
        · rw [Function.update_of_ne hfd] at hfe ⊢
          exact hderived fd fe hfe
    | _ => exact absurd rfl hother

end

/-- **Rights never grow.** Along every run of system calls from any first table, every descriptor keeps
to the rights of the entry it comes from, and every call makes no right but those it may. -/
theorem rights_confined {w₀ w : World} {p : Nat → Origin} (h : Run w₀ w p) :
    (∀ fd fe, w.entry fd = some fe → Derived w₀ fd (p fd) fe) ∧
      ∀ (c : Syscall) (r : Host) (w' : World), c.Guest → c.run w.enter = .ok r w' → Stepped c w r w' :=
  ⟨h.derived.2, fun _ _ _ hc hrun => Syscall.stepped hc hrun⟩

theorem rights_confined_twoFiles :
    ∃ w p, Run .twoFiles w p ∧ (∀ fd fe, w.entry fd = some fe → Derived .twoFiles fd (p fd) fe) ∧
      Stepped (.fdClose 0) w (.ok ()) { w with
        table := ⟨[⟨none, rightFdRead, 0⟩, ⟨some 1, rightsRegularFileBase, 0⟩, .empty, .empty], 1⟩
        objects := [⟨0, .regularFile, 10, false, true⟩, ⟨1, .regularFile, 11, false, false⟩]
        hostOpen := [11]
        trace := [.rdlock .prestats, .unlock .prestats, .wrlock .table, .write, .unlock .table] } := by
  have h : Run .twoFiles _ _ :=
    Run.call (c := .fdFdstatSetRights 0 rightFdRead 0) (r := .ok ()) .start trivial rfl
  exact ⟨_, _, h, (rights_confined h).1, (rights_confined h).2 (.fdClose 0) _ _ trivial rfl⟩

end Wasmtime.Wasi.Posix
