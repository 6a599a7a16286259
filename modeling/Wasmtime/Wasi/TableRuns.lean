import Mathlib
import Wasmtime.Wasi.TableInvariant

/-!
# Runs of system calls

The descriptor table of `posix.c` over whole runs, from `fd_table_init` on.

* `Inv.run`: a call that meets its condition returns and keeps the invariant. The condition leaves out
  `fd_renumber` where its checks pass: it counts an entry too few, and follows `NULL` when both numbers
  are the same.
* `reachable_consistent`: in every run whose calls meet the condition, the tables are consistent in every
  state between calls, host descriptors are closed exactly when their last entry goes, a call that fails
  changes no entry, and preopened descriptors keep their object.
* `not_consistent_renumbered`: one `fd_renumber` is enough to break this.
-/

namespace Wasmtime.Wasi.Posix

open Triple

/-! ## The calls that change the tables -/

/-- Preopened descriptors keep their object. -/
def Preopened (w w' : World) : Prop :=
  ∀ (fd len fo : Nat) (fe : FdEntry), w.prestats[fd]? = some (some len) →
    w.table.entries[fd]? = some fe → fe.object = some fo →
    ∃ fe', w'.table.entries[fd]? = some fe' ∧ fe'.object = some fo

/-- What a call leaves behind. -/
structure Outcome (outside : Set Nat) (w : World) (r : Host) (w' : World) : Prop where
  inv : ∃ outside' ⊆ outside, Inv outside' w'
  failed : ∀ e, r = .error e → w'.table = w.table
  preopened : Preopened w w'

section

variable {outside : Set Nat} {w : World} {r : Host}

theorem Outcome.of_same {w' : World} (h : Inv outside w') (htable : w'.table = w.table) :
    Outcome outside w r w' where
  inv := ⟨outside, subset_rfl, h⟩
  failed _ _ := htable
  preopened _ _ _ fe _ hfe hfo := ⟨fe, htable ▸ hfe, hfo⟩

theorem Outcome.of_holding {w' : World} (h : Inv outside w) (hw : Holding w [] [] w') :
    Outcome outside w r w' := by
  refine .of_same ?_ hw.table
  have hinv := hw.inv h fun n hn => nomatch hn
  simpa using hinv

theorem Inv.quiet {m : M Host} (h : Inv outside w) (hm : Quiet w m) :
    Returns m w (Outcome outside w) :=
  hm.mono fun _ _ hw => .of_holding h hw

theorem Outcome.of_inserted {w' : World} {outside' : Set Nat} (hsub : outside' ⊆ outside)
    (h : Inserted outside' w (∃ e, r = .error e) w') : Outcome outside w r w' where
  inv := ⟨outside', hsub, h.inv⟩
  failed e he := h.failed ⟨e, he⟩
  preopened fd _ fo fe _ hfe hfo := ⟨fe, h.kept fd fe hfe (by simp [hfo]), hfo⟩

theorem Inv.logged (h : Inv outside w) (e : Event) :
    Returns (log e) w fun _ w' => Inv outside w' ∧ w'.table = w.table ∧ w'.prestats = w.prestats :=
  ⟨(), _, rfl, ⟨h.table, h.prestats, h.object, h.counts, h.numbers, h.host, h.apart⟩, rfl, rfl⟩

theorem Inv.fdFdstatSetRights (h : Inv outside w) (fd : Nat) (base inheriting : Rights) :
    Returns (Posix.fdFdstatSetRights fd base inheriting) w (Outcome outside w) := by
  unfold Posix.fdFdstatSetRights
  refine (h.logged _).bind ?_
  rintro _ w₁ ⟨h₁, htable, -⟩
  refine Returns.get_bind ?_
  dsimp only
  cases hg : fdTableGetEntry w₁.table fd base inheriting with
  | error e =>
    refine (h₁.logged _).bind ?_
    rintro _ w₂ ⟨h₂, htable', -⟩
    exact Returns.pure (.of_same h₂ (htable'.trans htable))
  | ok p =>
    obtain ⟨fe, fo⟩ := p
    obtain ⟨hget, hobj, -⟩ := fdTableGetEntry_ok hg
    dsimp only
    refine (writeTable_spec w₁ _).bind ?_
    rintro _ w₂ ⟨honly, htable₂⟩
    have h₂ : Inv outside w₂ :=
      h₁.setRights hget hobj htable₂ honly.prestats honly.objects honly.hostOpen
    refine (h₂.logged _).bind ?_
    rintro _ w₃ ⟨h₃, htable₃, -⟩
    refine Returns.pure ⟨⟨outside, subset_rfl, h₃⟩, nofun, fun k _ fo' fe' _ hfe' hfo' => ?_⟩
    rw [htable₃, htable₂]
    dsimp only
    rw [← htable] at hfe'
    rw [List.getElem?_set]
    by_cases hk : fd = k
    · subst hk
      obtain rfl := Option.some.inj (hget.symm.trans hfe')
      rw [if_pos rfl, if_pos (List.getElem?_eq_some_iff.mp hget).choose]
      exact ⟨_, rfl, hobj.symm.trans hfo'⟩
    · rw [if_neg hk]
      exact ⟨fe', hfe', hfo'⟩

theorem Inv.fdClose (h : Inv outside w) (fd : Nat) :
    Returns (Posix.fdClose fd) w (Outcome outside w) := by
  unfold Posix.fdClose
  refine (h.logged _).bind ?_
  rintro _ w₁ ⟨h₁, htable₁, hpre₁⟩
  refine Returns.get_bind ?_
  refine (h₁.logged _).bind ?_
  rintro _ w₂ ⟨h₂, htable₂, hpre₂⟩
  cases hpre : fdPrestatsGetEntry w₁.prestats fd with
  | ok len => exact Returns.pure (.of_same h₂ (htable₂.trans htable₁))
  | error e =>
    refine (h₂.logged _).bind ?_
    rintro _ w₃ ⟨h₃, htable₃, hpre₃⟩
    have htable : w₃.table = w.table := htable₃.trans (htable₂.trans htable₁)
    refine Returns.get_bind ?_
    cases hg : fdTableGetEntry w₃.table fd 0 0 with
    | error e =>
      refine (h₃.logged _).bind ?_
      rintro _ w₄ ⟨h₄, htable₄, -⟩
      exact Returns.pure (.of_same h₄ (htable₄.trans htable))
    | ok p =>
      obtain ⟨fe, fo⟩ := p
      obtain ⟨hget, hobj, -⟩ := fdTableGetEntry_ok hg
      obtain ⟨o, ho, hfreed, hpos, -⟩ := h₃.live fe (List.mem_of_getElem? hget) fo hobj
      refine (fdTableDetach_spec hget hobj (h₃.table.detach hget hobj).2).bind ?_
      rintro _ w₄ ⟨rfl, honly, htable₄⟩
      refine Returns.bind (Q := fun _ w₅ => OnTable w₃ w₅ ∧ w₅.table = w₄.table) ?_ ?_
      · exact ⟨(), _, rfl, ⟨honly.prestats, honly.objects, honly.hostOpen⟩, rfl⟩
      rintro _ w₅ ⟨honly₅, htable₅⟩
      have ho₅ : w₅.objects[fo]? = some o := honly₅.objects ▸ ho
      refine (fdObjectRelease_spec ho₅ hfreed hpos).bind ?_
      rintro _ w₆ ⟨htable₆, hpre₆, hobjects₆, hhost₆⟩
      have htable' : w₆.table =
          ⟨w₃.table.entries.set fd { fe with object := none }, w₃.table.used - 1⟩ := by
        rw [htable₆, htable₅, htable₄]
      have h₆ : Inv outside w₆ := by
        refine h₃.remove hget hobj ho htable' ?_ ?_ ?_
        · rw [hpre₆, honly₅.prestats]
        · rw [hobjects₆, honly₅.objects]
        · rw [hhost₆, honly₅.hostOpen]
      refine Returns.pure ⟨⟨outside, subset_rfl, h₆⟩, nofun, fun k len fo' fe' hlen hfe' hfo' => ?_⟩
      rw [htable']
      dsimp only
      have hne : fd ≠ k := by
        rintro rfl
        rw [← hpre₁] at hlen
        simp [fdPrestatsGetEntry, hlen] at hpre
      rw [List.getElem?_set_ne hne, htable]
      exact ⟨fe', hfe', hfo'⟩

theorem Inv.fdPrestatsInsert {realloc : Nat → Bool} {fd : Nat} (h : Inv outside w) (dir : Option Nat)
    (hrealloc : ∀ n, realloc n = true → n < 2 ^ 63) (hfd : fd < 2 ^ 32) :
    Returns (Posix.fdPrestatsInsert realloc fd dir) w fun _ w' => Inv outside w' ∧ w'.table = w.table := by
  have hset : ∀ {w₁ : World} (prestats : List (Option Nat)), Inv outside w₁ → w₁.table = w.table →
      8 * prestats.length < 2 ^ 63 →
      Returns (do
        modify fun w => { w with prestats }
        log (.unlock .prestats)
        return true : M Bool) w₁ fun _ w' => Inv outside w' ∧ w'.table = w.table := by
    intro w₁ prestats h₁ htable hsize
    exact ⟨true, _, rfl, ⟨h₁.table, hsize, h₁.object, h₁.counts, h₁.numbers, h₁.host, h₁.apart⟩, htable⟩
  unfold Posix.fdPrestatsInsert
  refine (h.logged _).bind ?_
  rintro _ w₁ ⟨h₁, htable, -⟩
  refine Returns.get_bind ?_
  dsimp only
  have hsized := h₁.prestats
  by_cases hsmall : w₁.prestats.length ≤ fd ∨ w₁.prestats.length < 2
  · rw [if_pos hsmall]
    obtain ⟨size', hsome, hroom, -, hge, hdouble⟩ := @growSize_spec fd 2 (by omega) (by omega) 65
      (if w₁.prestats.length = 0 then 1 else w₁.prestats.length) (by split <;> omega)
      (by split <;> omega)
    simp only [hsome]
    have hsmall' : 8 * size' < 2 ^ 64 := by
      obtain rfl | ⟨t, rfl, ht⟩ := hdouble
      · split <;> omega
      · omega
    have hle : w₁.prestats.length ≤ size' := by
      split at hge
      · omega
      · exact hge
    by_cases hok : realloc (8 * size' % 2 ^ 64) = true
    · rw [if_pos hok]
      have hsized' := hrealloc _ hok
      rw [Nat.mod_eq_of_lt hsmall'] at hsized'
      refine hset _ h₁ htable ?_
      rw [List.length_set, List.length_append, List.length_take, List.length_replicate]
      omega
    · rw [if_neg hok]
      refine (h₁.logged _).bind ?_
      rintro _ w₂ ⟨h₂, htable₂, -⟩
      exact Returns.pure ⟨h₂, htable₂.trans htable⟩
  · rw [if_neg hsmall]
    exact hset _ h₁ htable (by rwa [List.length_set])

/-- `path_open` up to the table: the new host descriptor is open, and nothing else is held. -/
theorem Inv.pathOpen {req : OpenRequest} {host : OpenHost} (h : Inv outside w)
    (halloc : ∀ n, host.alloc.realloc n = true → n < 2 ^ 63)
    (hpath : ∀ n ∈ host.path.opened, n ∉ w.hostOpen)
    (hopen : ∀ n, host.openat = .ok n → n ∉ w.hostOpen ∧ n ∉ host.path.opened) :
    Returns (Posix.pathOpen req host) w fun r w' => Inserted outside w (∃ e, r = .error e) w' := by
  have hsame : ∀ {w' : World} {failed : Prop}, Holding w [] [] w' → Inserted outside w failed w' := by
    intro w' failed hw'
    have hinv := hw'.inv h fun n hn => absurd hn List.not_mem_nil
    exact .of_same (by simpa using hinv) hw'.table
  unfold Posix.pathOpen
  refine ((Holding.refl w).pathGet h.live _ _ _ fun n hn => ⟨hpath n hn, List.not_mem_nil⟩).bind
    fun r w₁ h₁ => ?_
  obtain ⟨e, rfl, h₁⟩ | ⟨fe, pa, o, temps, rfl, -, hfo, ho, hlease, htemps, h₁⟩ := h₁
  · exact Returns.pure (hsame h₁)
  obtain ⟨o', ho', -, -, hnumber⟩ := id hfo
  obtain rfl := Option.some.inj (ho.symm.trans ho')
  have hfilter := hlease.filter hnumber
  cases hopenat : host.openat with
  | error e =>
    refine (h₁.pathPut hfo ho List.mem_cons_self hlease).bind fun _ w₂ h₂ => ?_
    rw [erase_head, hfilter] at h₂
    exact Returns.pure (hsame h₂)
  | ok nfd =>
    obtain ⟨hnew, hnew'⟩ := hopen nfd hopenat
    refine (h₁.openHost nfd).bind fun _ w₂ h₂ => ?_
    refine (h₂.pathPut hfo ho List.mem_cons_self hlease).bind fun _ w₃ h₃ => ?_
    have hkeep : nfd ∉ pa.leased o := by
      rw [PathAccess.leased]
      split
      · exact List.not_mem_nil
      · next hne =>
        rw [List.mem_singleton]
        rintro rfl
        obtain ⟨heq, -⟩ | ⟨-, -, rfl⟩ := hlease
        · exact hne heq
        · obtain hmem | hmem := htemps _ List.mem_cons_self
          · exact absurd hmem List.not_mem_nil
          · exact hnew' hmem
    rw [erase_head, List.filter_cons_of_pos (by simpa using hkeep), hfilter] at h₃
    have hinv₃ := h₃.inv h (by simpa using hnew)
    have hmem : nfd ∈ outside ∪ {n | n ∈ [nfd]} := .inr List.mem_cons_self
    have hback : (outside ∪ {n | n ∈ [nfd]}) \ {nfd} = outside := by
      have hout : nfd ∉ outside := fun hout => hnew ((h.host nfd).mpr (.inr hout))
      ext n
      by_cases heq : n = nfd
      · simp [heq, hout]
      · simp [heq]
    cases fdDetermineTypeRights host.described with
    | error e =>
      refine Returns.bind (Q := fun _ w' => Inserted outside w True w') ?_ ?_
      · refine ⟨(), _, rfl, .of_same ?_ h₃.table⟩
        exact hback ▸ hinv₃.close hmem rfl rfl rfl rfl
      · exact fun _ w' h' => Returns.pure ⟨h'.inv, fun _ => h'.failed trivial, h'.kept⟩
    | ok found =>
      obtain ⟨type, maxBase, maxInheriting⟩ := found
      refine (hinv₃.fdTableInsertFd halloc hmem).mono fun r w' h' => ?_
      rw [hback] at h'
      exact ⟨h'.inv, fun hfail => (h'.failed hfail).trans h₃.table, h₃.table ▸ h'.kept⟩

end

/-! ## One call -/

/-- What `fd_renumber` asks of the tables before it changes them: neither number is preopened, and both
are open. -/
def World.Renumbers (w : World) (source target : Nat) : Prop :=
  (∃ e, fdPrestatsGetEntry w.prestats target = .error e) ∧
    (∃ e, fdPrestatsGetEntry w.prestats source = .error e) ∧
    (∃ p, fdTableGetEntry w.table source 0 0 = .ok p) ∧ ∃ p, fdTableGetEntry w.table target 0 0 = .ok p

/-- The host descriptors that the host opens in a call. -/
def Syscall.opens : Syscall → List Nat
  | .pathCreateDirectory _ h _ => h.opened
  | .pathLink _ old _ new _ => old.opened ++ new.opened
  | .pathReadlink _ h _ => h.opened
  | .pathRename _ old _ new _ => old.opened ++ new.opened
  | .pathFilestatGet _ h _ => h.opened
  | .pathFilestatSetTimes _ _ h _ => h.opened
  | .pathSymlink _ _ h _ => h.opened
  | .pathUnlinkFile _ h _ => h.opened
  | .pathRemoveDirectory _ h _ => h.opened
  | .pathOpen _ h =>
    h.path.opened ++ match h.openat with
      | .ok n => [n]
      | .error _ => []
  | _ => []

/-- What `realloc` answers in a call. -/
def Syscall.realloc : Syscall → Nat → Bool
  | .insertExisting alloc _ _ _ => alloc.realloc
  | .prestatsInsert realloc _ _ => realloc
  | .pathOpen _ h => h.alloc.realloc
  | _ => fun _ => false

/-- The number that a call names and that may be beyond the end of the table. -/
def Syscall.number : Syscall → Nat
  | .insertExisting _ fd _ _ => fd
  | .prestatsInsert _ fd _ => fd
  | _ => 0

/-- The host descriptor that a call describes, if `fstat` finds it. -/
def Syscall.described : Syscall → Option Nat
  | .insertExisting _ _ out described => if described.stat.toBool then some out else none
  | _ => none

/-- What the host keeps to, and the types of the arguments: it opens descriptors that are not open yet,
`realloc` never gives more than half of the address space, a `__wasi_fd_t` has 32 bits, and `fstat`
succeeds only for what is open. -/
structure Syscall.Valid (w : World) (c : Syscall) : Prop where
  fresh : ∀ n ∈ c.opens, n ∉ w.hostOpen
  nodup : c.opens.Nodup
  realloc : ∀ n, c.realloc n = true → n < 2 ^ 63
  number : c.number < 2 ^ 32
  described : ∀ n, c.described = some n → n ∈ w.hostOpen

/-- Where the code does what it is meant to: the embedder gives away a number that is free and a host
descriptor that is not in the table, `fd_readdir` is asked of directories, and `fd_renumber` fails. -/
def Syscall.Meets (w : World) : Syscall → Prop
  | .insertExisting _ fd out _ =>
    (∀ fe, w.table.entries[fd]? = some fe → fe.object = none) ∧ ¬ w.Held out
  | .fdReaddir fd _ _ _ => w.Lists fd
  | .fdRenumber source target => ¬ w.Renumbers source target
  | _ => True

section

variable {outside : Set Nat} {w : World}

theorem quiet_fdRenumber {source target : Nat} (h : ¬ w.Renumbers source target) :
    Quiet w (Posix.fdRenumber source target) := by
  unfold Quiet Posix.fdRenumber
  refine ((Holding.refl w).log _).bind fun _ w₁ h₁ => ?_
  refine Returns.get_bind ?_
  refine (h₁.log _).bind fun _ w₂ h₂ => ?_
  rw [h₁.prestats]
  cases htarget : fdPrestatsGetEntry w.prestats target with
  | ok len => exact Returns.pure h₂
  | error e =>
    cases hsource : fdPrestatsGetEntry w.prestats source with
    | ok len => exact Returns.pure h₂
    | error e' =>
      refine (h₂.log _).bind fun _ w₃ h₃ => ?_
      refine Returns.get_bind ?_
      rw [h₃.table]
      cases hfrom : fdTableGetEntry w.table source 0 0 with
      | error e => exact (h₃.log _).bind fun _ w₄ h₄ => Returns.pure h₄
      | ok p =>
        refine Returns.get_bind ?_
        rw [h₃.table]
        cases hto : fdTableGetEntry w.table target 0 0 with
        | error e => exact (h₃.log _).bind fun _ w₄ h₄ => Returns.pure h₄
        | ok p' => exact absurd ⟨⟨e, htarget⟩, ⟨e', hsource⟩, ⟨p, hfrom⟩, ⟨p', hto⟩⟩ h

theorem quiet_pure (host : Host) : Quiet w (return host) := Returns.pure (Holding.refl w)

theorem quiet_ite {p : Prop} [Decidable p] {m m' : M Host} (hm : p → Quiet w m) (hm' : ¬ p → Quiet w m') :
    Quiet w (if p then m else m') := by
  split
  · next h => exact hm h
  · next h => exact hm' h

theorem returns_status {α : Type} {m : M (Except Errno α)} {Q : Except Errno α → World → Prop}
    {R : Host → World → Prop} (h : Returns m w Q) (herror : ∀ e w', Q (.error e) w' → R (.error e) w')
    (hok : ∀ a w', Q (.ok a) w' → R (.ok ()) w') : Returns (status m) w R := by
  unfold status
  refine h.bind fun r w' hw' => ?_
  cases r with
  | error e => exact Returns.pure (herror e w' hw')
  | ok a => exact Returns.pure (hok a w' hw')

theorem returns_ofBool {m : M Bool} {Q : Bool → World → Prop} {R : Host → World → Prop}
    (h : Returns m w Q) (hfalse : ∀ w', Q false w' → R (.error .enomem) w')
    (htrue : ∀ w', Q true w' → R (.ok ()) w') : Returns (ofBool m) w R := by
  unfold ofBool
  refine h.bind fun b w' hw' => ?_
  cases b with
  | false => exact Returns.pure (hfalse w' hw')
  | true => exact Returns.pure (htrue w' hw')

theorem Inv.onPaths (h : Inv outside w) {oldFd newFd : Nat} {oldRights newRights : Rights}
    {old new : PathHost} (host : Host) (hfresh : ∀ n ∈ old.opened ++ new.opened, n ∉ w.hostOpen)
    (hnodup : (old.opened ++ new.opened).Nodup) :
    Returns (Posix.onPaths oldFd oldRights old newFd newRights new host) w (Outcome outside w) := by
  have hdisjoint := List.disjoint_of_nodup_append hnodup
  refine h.quiet (h.live.onPaths _ _ _ _ _ (fun n hn => hfresh n (List.mem_append_left _ hn)) ?_)
  exact fun n hn => ⟨hfresh n (List.mem_append_right _ hn), fun hmem => hdisjoint hmem hn⟩

/-- **One call.** It returns, and keeps the invariant. -/
theorem Inv.run (h : Inv outside w) {c : Syscall} (hv : c.Valid w) (hm : c.Meets w) :
    Returns c.run w (Outcome outside w) := by
  have hlive := h.live
  cases c with
  | insertExisting alloc fd out described =>
    have hout : ∀ stat, described.stat = .ok stat → out ∈ outside := by
      intro stat hstat
      have hmem : out ∈ w.hostOpen := hv.described out (by simp [Syscall.described, hstat, Except.toBool])
      obtain hopen | hmem := (h.host out).mp hmem
      · exact absurd ((h.held_iff out).mpr hopen) hm.2
      · exact hmem
    refine returns_ofBool (h.fdTableInsertExisting hv.realloc hv.number hm.1 hout) ?_ ?_
    · rintro w' ⟨outside', hsub, hw'⟩
      exact .of_inserted hsub ⟨hw'.inv, fun _ => hw'.failed rfl, hw'.kept⟩
    · rintro w' ⟨outside', hsub, hw'⟩
      exact .of_inserted hsub ⟨hw'.inv, (fun he => nomatch he), hw'.kept⟩
  | prestatsInsert realloc fd dir =>
    refine returns_ofBool (h.fdPrestatsInsert dir hv.realloc hv.number) ?_ ?_
    · exact fun w' hw' => .of_same hw'.1 hw'.2
    · exact fun w' hw' => .of_same hw'.1 hw'.2
  | hostOnly host => exact h.quiet (quiet_pure host)
  | fdDatasync fd host => exact h.quiet (hlive.onObject _ _ _)
  | fdPread fd iovcnt host =>
    exact h.quiet (quiet_ite (fun _ => quiet_pure _) fun _ => hlive.onObject _ _ _)
  | fdPwrite fd iovcnt host =>
    exact h.quiet (quiet_ite (fun _ => quiet_pure _) fun _ => hlive.onObject _ _ _)
  | fdRead fd host => exact h.quiet (hlive.onObject _ _ _)
  | fdSeek fd offset whence host =>
    exact h.quiet (quiet_ite (fun _ => hlive.onObject _ _ _) fun _ => quiet_pure _)
  | fdTell fd host => exact h.quiet (hlive.onObject _ _ _)
  | fdFdstatGet fd host => exact h.quiet (hlive.fdFdstatGet fd host)
  | fdFdstatSetFlags fd host => exact h.quiet (hlive.onObject _ _ _)
  | fdFdstatSetRights fd base inheriting => exact h.fdFdstatSetRights fd base inheriting
  | fdSync fd host => exact h.quiet (hlive.onObject _ _ _)
  | fdWrite fd host => exact h.quiet (hlive.onObject _ _ _)
  | fdAdvise fd advice host =>
    exact h.quiet (quiet_ite (fun _ => hlive.onObject _ _ _) fun _ => quiet_pure _)
  | fdAllocate fd host => exact h.quiet (hlive.onObject _ _ _)
  | fdFilestatGet fd host => exact h.quiet (hlive.onObject _ _ _)
  | fdFilestatSetSize fd host => exact h.quiet (hlive.onObject _ _ _)
  | fdFilestatSetTimes fd fstflags host =>
    exact h.quiet (quiet_ite (fun _ => hlive.onObject _ _ _) fun _ => quiet_pure _)
  | sockRecv sock host => exact h.quiet (hlive.onObject _ _ _)
  | sockSend sock host => exact h.quiet (hlive.onObject _ _ _)
  | sockShutdown sock how host =>
    exact h.quiet (quiet_ite (fun _ => hlive.onObject _ _ _) fun _ => quiet_pure _)
  | fdPrestatGet fd => exact h.quiet (quiet_fdPrestatGet w fd)
  | fdPrestatDirName fd pathLen => exact h.quiet (quiet_fdPrestatDirName w fd pathLen)
  | fdClose fd => exact h.fdClose fd
  | fdRenumber source target => exact h.quiet (quiet_fdRenumber hm)
  | pathCreateDirectory fd p host => exact h.quiet (hlive.onPath _ _ _ hv.fresh)
  | pathLink oldFd old newFd new host => exact h.onPaths host hv.fresh hv.nodup
  | pathReadlink fd p host => exact h.quiet (hlive.onPath _ _ _ hv.fresh)
  | pathRename oldFd old newFd new host => exact h.onPaths host hv.fresh hv.nodup
  | pathFilestatGet fd p host => exact h.quiet (hlive.onPath _ _ _ hv.fresh)
  | pathFilestatSetTimes fd fstflags p host =>
    exact h.quiet (quiet_ite (fun _ => hlive.onPath _ _ _ hv.fresh) fun _ => quiet_pure _)
  | pathSymlink copied fd p host =>
    cases copied with
    | error e => exact h.quiet (quiet_pure _)
    | ok _ => exact h.quiet (hlive.onPath _ _ _ hv.fresh)
  | pathUnlinkFile fd p host => exact h.quiet (hlive.onPath _ _ _ hv.fresh)
  | pathRemoveDirectory fd p host => exact h.quiet (hlive.onPath _ _ _ hv.fresh)
  | pathOpen req host =>
    have hdisjoint := List.disjoint_of_nodup_append hv.nodup
    have hopenat : ∀ n, host.openat = .ok n → n ∉ w.hostOpen ∧ n ∉ host.path.opened := by
      intro n hn
      have hmem : n ∈ Syscall.opens (.pathOpen req host) := by simp [Syscall.opens, hn]
      exact ⟨hv.fresh n hmem, fun hpath => hdisjoint hpath (by simp [hn])⟩
    have hpath : ∀ n ∈ host.path.opened, n ∉ w.hostOpen := fun n hn =>
      hv.fresh n (List.mem_append_left _ hn)
    refine returns_status (h.pathOpen hv.realloc hpath hopenat) ?_ ?_
    · exact fun e w' hw' => .of_inserted subset_rfl ⟨hw'.inv, fun _ => hw'.failed ⟨e, rfl⟩, hw'.kept⟩
    · exact fun a w' hw' => .of_inserted subset_rfl ⟨hw'.inv, (fun he => nomatch he), hw'.kept⟩
  | fdReaddir fd nbyte fdopendir answers => exact h.quiet (hlive.fdReaddir hm nbyte fdopendir answers)
  | pollOneoff subs host =>
    refine returns_status (hlive.pollOneoff subs host) ?_ ?_
    · exact fun e w' hw' => .of_holding h hw'
    · exact fun a w' hw' => .of_holding h hw'

end

/-! ## Runs -/

/-- `fd_table_init` and `fd_prestats_init`, with what the embedder has open. -/
def World.init (hostOpen : List Nat) : World := ⟨⟨[], 0⟩, [], [], hostOpen, []⟩

/-- The world at the entry of a call: its trace begins there. -/
def World.enter (w : World) : World := { w with trace := [] }

/-- The worlds between the calls of a run whose calls all satisfy a condition. Between calls the
embedder opens and closes descriptors of its own. -/
inductive Reachable (condition : World → Syscall → Prop) : World → Prop
  | init (hostOpen : List Nat) : Reachable condition (.init hostOpen)
  | call {w w' : World} {c : Syscall} {r : Host} (h : Reachable condition w) (hvalid : c.Valid w)
      (hcondition : condition w c) (hrun : c.run w.enter = .ok r w') : Reachable condition w'
  | host {w : World} (h : Reachable condition w) (hostOpen : List Nat)
      (hheld : ∀ n ∈ w.hostOpen, w.Held n → n ∈ hostOpen) :
      Reachable condition { w with hostOpen }

/-- The state of the tables between calls. -/
structure World.Consistent (w : World) : Prop where
  used : w.table.used.toNat = occupied w.table.entries
  load : 2 * w.table.used.toNat ≤ w.table.entries.length
  there : ∀ fe ∈ w.table.entries, ∀ fo, fe.object = some fo →
    ∃ o, w.objects[fo]? = some o ∧ o.freed = false
  counts : ∀ (fo : Nat) (o : FdObject), w.objects[fo]? = some o →
    o.refcount = pointers w.table.entries fo
  held : ∀ n, w.Held n → n ∈ w.hostOpen

/-- What a call does: a host descriptor that was in the table is closed when its last entry is gone and
not before, what the call leaves open is in the table, a call that fails leaves the entries as they were,
and preopened descriptors keep their object. -/
structure Served (w : World) (r : Host) (w' : World) : Prop where
  closed : ∀ n, w.Held n → (n ∈ w'.hostOpen ↔ w'.Held n)
  opened : ∀ n ∈ w'.hostOpen, w'.Held n ∨ n ∈ w.hostOpen
  failed : ∀ e, r = .error e → w'.table = w.table
  preopened : Preopened w w'

section

variable {outside : Set Nat} {w : World}

theorem Inv.enter (h : Inv outside w) : Inv outside w.enter :=
  ⟨h.table, h.prestats, h.object, h.counts, h.numbers, h.host, h.apart⟩

theorem Inv.consistent (h : Inv outside w) : w.Consistent where
  used := h.table.used
  load := by
    rw [h.table.used]
    exact h.table.load
  there fe hfe fo hfo := by
    obtain ⟨o, ho, hfreed, -⟩ := h.live fe hfe fo hfo
    exact ⟨o, ho, hfreed⟩
  counts fo o ho := (h.counts fo o ho).1
  held n hn := (h.host n).mpr (.inl ((h.held_iff n).mp hn))

theorem Outcome.served {r : Host} {w' : World} (h : Inv outside w) (ho : Outcome outside w.enter r w') :
    Served w r w' := by
  obtain ⟨outside', hsub, h'⟩ := ho.inv
  constructor
  case closed =>
    intro n hn
    have hout : n ∉ outside' := fun hmem => h.apart n ((h.held_iff n).mp hn) (hsub hmem)
    rw [h'.host n, h'.held_iff n, or_iff_left hout]
  case opened =>
    intro n hn
    obtain hopen | hmem := (h'.host n).mp hn
    · exact .inl ((h'.held_iff n).mpr hopen)
    · exact .inr ((h.host n).mpr (.inr (hsub hmem)))
  case failed => exact ho.failed
  case preopened => exact ho.preopened

theorem Syscall.Valid.enter {c : Syscall} (h : c.Valid w) : c.Valid w.enter :=
  ⟨h.fresh, h.nodup, h.realloc, h.number, h.described⟩

theorem Syscall.Meets.enter {c : Syscall} (h : c.Meets w) : c.Meets w.enter := by
  cases c <;> exact h

theorem inv_init (hostOpen : List Nat) : Inv {n | n ∈ hostOpen} (.init hostOpen) := by
  have hopen : ∀ n, ¬ (World.init hostOpen).Open n := by
    rintro n ⟨fo, o, ho, -⟩
    simp [World.init] at ho
  constructor
  case table => exact ⟨rfl, le_rfl, Nat.two_pow_pos 63⟩
  case prestats => exact Nat.two_pow_pos 63
  case object => exact fun fe hfe => nomatch hfe
  case counts =>
    intro fo o ho
    simp [World.init] at ho
  case numbers =>
    intro fo fo' o o' ho
    simp [World.init] at ho
  case host =>
    intro n
    rw [or_iff_right (hopen n)]
    rfl
  case apart => exact fun n hn => absurd hn (hopen n)

/-- The embedder opens and closes descriptors of its own. -/
theorem Inv.host_step (h : Inv outside w) {hostOpen : List Nat}
    (hheld : ∀ n ∈ w.hostOpen, w.Held n → n ∈ hostOpen) :
    Inv {n | n ∈ hostOpen ∧ ¬ w.Open n} { w with hostOpen } := by
  constructor
  case table => exact h.table
  case prestats => exact h.prestats
  case object => exact h.object
  case counts => exact h.counts
  case numbers => exact h.numbers
  case host =>
    intro n
    have hopen : World.Open { w with hostOpen } n ↔ w.Open n := Iff.rfl
    rw [hopen]
    constructor
    · intro hn
      by_cases ho : w.Open n
      · exact .inl ho
      · exact .inr ⟨hn, ho⟩
    · rintro (ho | ⟨hn, -⟩)
      · exact hheld n ((h.host n).mpr (.inl ho)) ((h.held_iff n).mpr ho)
      · exact hn
  case apart => exact fun n hn hmem => hmem.2 hn

/-- The invariant holds along every run that meets the condition. -/
theorem Reachable.inv (h : Reachable Syscall.Meets w) : ∃ outside, Inv outside w := by
  induction h with
  | init hostOpen => exact ⟨_, inv_init hostOpen⟩
  | call h hvalid hmeets hrun ih =>
    obtain ⟨outside, hinv⟩ := ih
    obtain ⟨r', w'', hrun', hout⟩ := hinv.enter.run hvalid.enter hmeets.enter
    obtain ⟨rfl, rfl⟩ := EStateM.Result.ok.inj (hrun.symm.trans hrun')
    obtain ⟨outside', -, hinv'⟩ := hout.inv
    exact ⟨outside', hinv'⟩
  | host h hostOpen hheld ih =>
    obtain ⟨outside, hinv⟩ := ih
    exact ⟨_, hinv.host_step hheld⟩

end

/-- **The descriptor table over runs.** In every run whose calls meet the condition, the tables are
consistent between calls, and every further call returns: no assertion fails, no pointer is followed that
leads nowhere, and the loops end. -/
theorem reachable_consistent {w : World} (h : Reachable Syscall.Meets w) :
    w.Consistent ∧ ∀ c : Syscall, c.Valid w → c.Meets w → Returns c.run w.enter (Served w) := by
  obtain ⟨outside, hinv⟩ := h.inv
  refine ⟨hinv.consistent, fun c hvalid hmeets => ?_⟩
  exact (hinv.enter.run hvalid.enter hmeets.enter).mono fun r w' ho => ho.served hinv

/-- The first free slot. -/
def Random.first : Random where
  pick entries := entries.findIdx fun fe => fe.object.isNone
  pick_free entries h := by
    have hlt : entries.findIdx (fun fe => fe.object.isNone) < entries.length := by
      rw [List.findIdx_lt_length]
      obtain ⟨fe, hfe, hnone⟩ := h
      exact ⟨fe, hfe, by simp [hnone]⟩
    refine ⟨_, List.getElem?_eq_getElem hlt, ?_⟩
    simpa using @List.findIdx_getElem _ (fun fe : FdEntry => fe.object.isNone) entries hlt

/-- An allocator that never runs out. -/
def Allocator.ample : Allocator := ⟨true, fun n => n < 2 ^ 63, .first⟩

/-- A regular file as descriptor `fd`. -/
def Syscall.insertFile (fd out : Nat) : Syscall := .insertExisting .ample fd out ⟨.ok .reg, .rdwr⟩

/-- One file, the host's 10, as descriptor 0. -/
def World.oneFile : World :=
  ⟨⟨[⟨some 0, rightsRegularFileBase, 0⟩, .empty], 1⟩, [], [⟨1, .regularFile, 10, false, false⟩],
    [10, 11], [.wrlock .table, .write, .write, .unlock .table]⟩

/-- And another, the host's 11, as descriptor 1. -/
def World.twoFiles : World :=
  ⟨⟨[⟨some 0, rightsRegularFileBase, 0⟩, ⟨some 1, rightsRegularFileBase, 0⟩, .empty, .empty], 2⟩, [],
    [⟨1, .regularFile, 10, false, false⟩, ⟨1, .regularFile, 11, false, false⟩], [10, 11],
    [.wrlock .table, .write, .write, .unlock .table]⟩

theorem Syscall.insertFile_valid {w : World} {fd out : Nat} (hfd : fd < 2 ^ 32) (hout : out ∈ w.hostOpen) :
    (Syscall.insertFile fd out).Valid w where
  fresh n hn := nomatch hn
  nodup := List.nodup_nil
  realloc n hn := of_decide_eq_true hn
  number := hfd
  described n hn := by
    obtain rfl := Option.some.inj hn
    exact hout

theorem reachable_twoFiles {condition : World → Syscall → Prop}
    (hfirst : condition (.init [10, 11]) (.insertFile 0 10))
    (hsecond : condition .oneFile (.insertFile 1 11)) : Reachable condition .twoFiles := by
  have h₁ : Reachable condition .oneFile :=
    .call (.init [10, 11]) (Syscall.insertFile_valid (by decide) (by decide)) hfirst rfl
  exact .call h₁ (Syscall.insertFile_valid (by decide) (by decide)) hsecond rfl

/-- A call that opens nothing and allocates nothing asks nothing of the host. -/
theorem Syscall.valid_of_plain {w : World} {c : Syscall} (hopens : c.opens = [])
    (hrealloc : ∀ n, c.realloc n = false) (hnumber : c.number = 0) (hdescribed : c.described = none) :
    c.Valid w where
  fresh n hn := by simp [hopens] at hn
  nodup := hopens ▸ List.nodup_nil
  realloc n hn := by simp [hrealloc] at hn
  number := by omega
  described n hn := by simp [hdescribed] at hn

theorem reachable_consistent_twoFiles :
    Reachable Syscall.Meets .twoFiles ∧ World.twoFiles.Consistent ∧
      Returns (Syscall.run (.fdClose 0)) World.twoFiles.enter (Served .twoFiles) := by
  have hfirst : (Syscall.insertFile 0 10).Meets (.init [10, 11]) := by
    constructor
    · exact fun fe hfe => nomatch hfe
    · rintro ⟨fe, hfe, -⟩
      exact nomatch hfe
  have hsecond : (Syscall.insertFile 1 11).Meets .oneFile := by
    constructor
    · intro fe hfe
      obtain rfl : FdEntry.empty = fe := Option.some.inj hfe
      rfl
    · simp [World.Held, World.oneFile, FdEntry.empty]
  have h := reachable_twoFiles hfirst hsecond
  have hvalid : (Syscall.fdClose 0).Valid .twoFiles := Syscall.valid_of_plain rfl (fun _ => rfl) rfl rfl
  exact ⟨h, (reachable_consistent h).1, (reachable_consistent h).2 _ hvalid trivial⟩

/-- After `fd_renumber` the table counts one entry too few. -/
theorem not_consistent_renumbered :
    ¬ ∀ w, Reachable (fun _ _ => True) w → w.Consistent := by
  intro hall
  have hvalid : (Syscall.fdRenumber 0 1).Valid .twoFiles :=
    Syscall.valid_of_plain rfl (fun _ => rfl) rfl rfl
  have htwo : Reachable (fun _ _ => True) .twoFiles := reachable_twoFiles trivial trivial
  have hused := (hall _ (.call htwo hvalid trivial rfl)).used
  revert hused
  decide

end Wasmtime.Wasi.Posix
