import Mathlib
import Wasmtime.Wasi.Syscalls

/-!
# Calls that leave the table alone

Most calls of `posix.c` look descriptors up, hold references to their objects while they work, and give
them back. `Holding` relates the world within such a call to the one it has started in: the table is the
same, the objects in `pending` have one more reference for each time they are in it, and the host
descriptors in `temps` are open as well.

Results: one lemma for each step a call takes (`Holding.get`, `Holding.release`, `Holding.pathGet`,
`Holding.pathPut`, ..), and `Quiet` for the calls that end holding nothing: `onObject`, `onPath`,
`onPaths`, `fd_readdir`, `poll_oneoff` and the rest. All of them return, whatever the host answers, as
long as the entries point to objects that are there (`World.Live`).
-/

namespace Wasmtime.Wasi.Posix

open Triple

/-! ## Between calls -/

/-- An object can be followed, other references than those of a call keep it, and its host descriptor
is open. -/
def World.LiveObject (w : World) (fo : Nat) : Prop :=
  ∃ o, w.objects[fo]? = some o ∧ o.freed = false ∧ 0 < o.refcount ∧ o.number ∈ w.hostOpen

/-- The entries of a table point to objects that are there. -/
def World.Live (w : World) : Prop :=
  ∀ fe ∈ w.table.entries, ∀ fo, fe.object = some fo → w.LiveObject fo

/-! ## Within a call that leaves the table alone -/

/-- A world within a call: the table is the one the call has started with, the objects in `pending` are
held once more for each time they are in it, and the host descriptors in `temps` are open as well. -/
structure Holding (w₀ : World) (pending temps : List Nat) (w : World) : Prop where
  table : w.table = w₀.table
  prestats : w.prestats = w₀.prestats
  length : w.objects.length = w₀.objects.length
  objects : ∀ (fo : Nat) (o : FdObject), w₀.objects[fo]? = some o → ∃ handle,
    w.objects[fo]? = some { o with refcount := o.refcount + pending.count fo, handle }
  host : ∀ n, n ∈ w.hostOpen ↔ n ∈ w₀.hostOpen ∨ n ∈ temps

section

variable {w₀ w : World} {pending temps : List Nat}

theorem Holding.refl (w : World) : Holding w [] [] w where
  table := rfl
  prestats := rfl
  length := rfl
  objects fo o ho := ⟨o.handle, by simpa using ho⟩
  host n := by simp

theorem Holding.log (h : Holding w₀ pending temps w) (e : Event) :
    Returns (Posix.log e) w fun _ w' => Holding w₀ pending temps w' :=
  ⟨(), _, rfl, h.table, h.prestats, h.length, h.objects, h.host⟩

/-- An object that the call holds, or that an entry points to, can be followed. -/
theorem Holding.fdObject {fo : Nat} {o : FdObject} (h : Holding w₀ pending temps w)
    (ho : w₀.objects[fo]? = some o) (hlive : o.freed = false) :
    Returns (Posix.fdObject fo) w fun o' w' => w' = w ∧ w.objects[fo]? = some o' ∧
      o'.number = o.number ∧ o'.type = o.type ∧ o'.freed = false ∧
      o'.refcount = o.refcount + pending.count fo := by
  obtain ⟨handle, hget⟩ := h.objects fo o ho
  refine ⟨_, w, ?_, rfl, hget, rfl, rfl, hlive, rfl⟩
  rw [Posix.fdObject, hget]
  simp [hlive]

/-- Another count for an object. -/
theorem Holding.setCount {fo : Nat} {o o' : FdObject} {pending' : List Nat}
    (h : Holding w₀ pending temps w) (ho : w₀.objects[fo]? = some o)
    (hothers : ∀ k, k ≠ fo → pending'.count k = pending.count k)
    (ho' : ∃ handle, o' = { o with refcount := o.refcount + pending'.count fo, handle }) :
    Returns (setObject fo o') w fun _ w' => Holding w₀ pending' temps w' := by
  obtain ⟨handle, rfl⟩ := ho'
  have hlt : fo < w.objects.length := by
    rw [h.length]
    exact (List.getElem?_eq_some_iff.mp ho).choose
  refine ⟨(), _, rfl, h.table, h.prestats, by simpa using h.length, fun k ok hk => ?_, h.host⟩
  rw [List.getElem?_set]
  by_cases hfo : fo = k
  · subst hfo
    obtain rfl := Option.some.inj (ho.symm.trans hk)
    exact ⟨handle, by simp [hlt]⟩
  · obtain ⟨handle', hget⟩ := h.objects k ok hk
    refine ⟨handle', ?_⟩
    rw [if_neg hfo, hget, hothers k (Ne.symm hfo)]

theorem Holding.acquire {fo : Nat} {o : FdObject} (h : Holding w₀ pending temps w)
    (ho : w₀.objects[fo]? = some o) (hlive : o.freed = false) :
    Returns (refcountAcquire fo) w fun _ w' => Holding w₀ (fo :: pending) temps w' := by
  obtain ⟨handle, hget⟩ := h.objects fo o ho
  refine (h.fdObject ho hlive).bind ?_
  rintro o' w' ⟨rfl, hget', -⟩
  obtain rfl := Option.some.inj (hget.symm.trans hget')
  refine h.setCount ho (fun k hk => List.count_cons_of_ne (Ne.symm hk)) ⟨handle, ?_⟩
  rw [List.count_cons_self, ← Nat.add_assoc]

theorem Holding.release {fo : Nat} (h : Holding w₀ pending temps w) (hfo : w₀.LiveObject fo)
    (hmem : fo ∈ pending) :
    Returns (fdObjectRelease fo) w fun _ w' => Holding w₀ (pending.erase fo) temps w' := by
  obtain ⟨o, ho, hlive, hcount, -⟩ := hfo
  have hpos : 0 < pending.count fo := List.count_pos_iff.mpr hmem
  obtain ⟨handle, hget⟩ := h.objects fo o ho
  unfold fdObjectRelease
  refine (h.fdObject ho hlive).bind ?_
  rintro o' w' ⟨rfl, hget', -, -, -, -⟩
  obtain rfl := Option.some.inj (hget.symm.trans hget')
  rw [if_neg (by simp only; omega)]
  refine Returns.bind (Q := fun _ w' => Holding w₀ (pending.erase fo) temps w') ?_ ?_
  · refine h.setCount ho (fun k hk => List.count_erase_of_ne hk) ⟨handle, ?_⟩
    simp only [List.count_erase_self]
    congr 1
    omega
  · intro _ w' hw'
    rw [if_neg (by simp only; omega)]
    exact Returns.pure hw'

theorem fdTableGetEntry_ok {ft : FdTable} {fd fo : Nat} {rightsBase rightsInheriting : Rights}
    {fe : FdEntry} (h : fdTableGetEntry ft fd rightsBase rightsInheriting = .ok (fe, fo)) :
    ft.entries[fd]? = some fe ∧ fe.object = some fo ∧ ~~~fe.rightsBase &&& rightsBase = 0 ∧
      ~~~fe.rightsInheriting &&& rightsInheriting = 0 := by
  unfold fdTableGetEntry at h
  cases hget : ft.entries[fd]? with
  | none => simp [hget] at h
  | some fe' =>
    cases hobj : fe'.object with
    | none => simp [hget, hobj] at h
    | some fo' =>
      simp only [hget, hobj] at h
      split at h
      · cases h
      · next hrights =>
        obtain ⟨rfl, rfl⟩ := Prod.mk.inj (Except.ok.inj h)
        rw [not_or, not_not, not_not] at hrights
        exact ⟨rfl, hobj, hrights⟩

theorem World.Live.liveObject (hlive : w.Live) {fd fo : Nat} {rightsBase rightsInheriting : Rights}
    {fe : FdEntry} (h : fdTableGetEntry w.table fd rightsBase rightsInheriting = .ok (fe, fo)) :
    w.LiveObject fo := by
  obtain ⟨hget, hobj, -⟩ := fdTableGetEntry_ok h
  exact hlive fe (List.mem_of_getElem? hget) fo hobj

/-- What a lookup that also takes a reference leaves behind. -/
def Got (w₀ : World) (fd : Nat) (rightsBase rightsInheriting : Rights) (pending temps : List Nat)
    (r : Except Errno Nat) (w : World) : Prop :=
  (∃ e, r = .error e ∧ fdTableGetEntry w₀.table fd rightsBase rightsInheriting = .error e ∧
      Holding w₀ pending temps w) ∨
    ∃ fe fo, r = .ok fo ∧ fdTableGetEntry w₀.table fd rightsBase rightsInheriting = .ok (fe, fo) ∧
      w₀.LiveObject fo ∧ Holding w₀ (fo :: pending) temps w

theorem Holding.getLocked (h : Holding w₀ pending temps w) (hlive : w₀.Live) (fd : Nat)
    (rightsBase rightsInheriting : Rights) :
    Returns (fdObjectGetLocked fd rightsBase rightsInheriting) w
      (Got w₀ fd rightsBase rightsInheriting pending temps) := by
  unfold fdObjectGetLocked
  refine Returns.get_bind ?_
  rw [h.table]
  cases hg : fdTableGetEntry w₀.table fd rightsBase rightsInheriting with
  | error e => exact Returns.pure (.inl ⟨e, rfl, hg, h⟩)
  | ok p =>
    obtain ⟨o, ho, hfreed, -⟩ := hlive.liveObject hg
    refine (h.acquire ho hfreed).bind fun _ w' hw' => ?_
    exact Returns.pure (.inr ⟨p.1, p.2, rfl, hg, hlive.liveObject hg, hw'⟩)

theorem Holding.get (h : Holding w₀ pending temps w) (hlive : w₀.Live)
    (fd : Nat) (rightsBase rightsInheriting : Rights) :
    Returns (fdObjectGet fd rightsBase rightsInheriting) w
      (Got w₀ fd rightsBase rightsInheriting pending temps) := by
  unfold fdObjectGet
  refine (h.log _).bind fun _ w₁ h₁ => ?_
  refine (h₁.getLocked hlive fd rightsBase rightsInheriting).bind fun r w₂ h₂ => ?_
  obtain ⟨e, rfl, hg, h₂⟩ | ⟨fe, fo, rfl, hg, ho, h₂⟩ := h₂
  · exact (h₂.log _).bind fun _ w₃ h₃ => Returns.pure (.inl ⟨e, rfl, hg, h₃⟩)
  · exact (h₂.log _).bind fun _ w₃ h₃ => Returns.pure (.inr ⟨fe, fo, rfl, hg, ho, h₃⟩)

/-- A call that leaves nothing behind. -/
def Quiet (w₀ : World) (m : M Host) : Prop :=
  Returns m w₀ fun _ w => Holding w₀ [] [] w

theorem erase_head {fo : Nat} {pending : List Nat} : (fo :: pending).erase fo = pending :=
  List.erase_cons_head ..

theorem World.Live.onObject (h : w.Live) (fd : Nat) (rights : Rights) (host : Host) :
    Quiet w (Posix.onObject fd rights host) := by
  unfold Quiet Posix.onObject
  refine ((Holding.refl w).get h fd rights 0).bind fun r w₁ h₁ => ?_
  obtain ⟨e, rfl, -, h₁⟩ | ⟨fe, fo, rfl, -, hfo, h₁⟩ := h₁
  · exact Returns.pure h₁
  · obtain ⟨o, ho, hfreed, -⟩ := id hfo
    refine (h₁.fdObject ho hfreed).bind ?_
    rintro o' w' ⟨rfl, -⟩
    refine (h₁.release hfo List.mem_cons_self).bind fun _ w₂ h₂ => ?_
    rw [erase_head] at h₂
    exact Returns.pure h₂

theorem World.Live.fdFdstatGet (h : w.Live) (fd : Nat) (host : Host) :
    Quiet w (Posix.fdFdstatGet fd host) := by
  unfold Quiet Posix.fdFdstatGet
  refine ((Holding.refl w).log _).bind fun _ w₁ h₁ => ?_
  refine Returns.get_bind ?_
  rw [h₁.table]
  cases hg : fdTableGetEntry w.table fd 0 0 with
  | error e => exact (h₁.log _).bind fun _ w₂ h₂ => Returns.pure h₂
  | ok p =>
    obtain ⟨o, ho, hfreed, -⟩ := h.liveObject hg
    refine (h₁.fdObject ho hfreed).bind ?_
    rintro o' w' ⟨rfl, -⟩
    exact (h₁.log _).bind fun _ w₂ h₂ => Returns.pure h₂

theorem quiet_fdPrestatGet (w : World) (fd : Nat) : Quiet w (Posix.fdPrestatGet fd) := by
  unfold Quiet Posix.fdPrestatGet
  refine ((Holding.refl w).log _).bind fun _ w₁ h₁ => ?_
  refine Returns.get_bind ?_
  cases fdPrestatsGetEntry _ fd with
  | error e => exact (h₁.log _).bind fun _ w₂ h₂ => Returns.pure h₂
  | ok len => exact (h₁.log _).bind fun _ w₂ h₂ => Returns.pure h₂

theorem quiet_fdPrestatDirName (w : World) (fd pathLen : Nat) :
    Quiet w (Posix.fdPrestatDirName fd pathLen) := by
  unfold Quiet Posix.fdPrestatDirName
  refine ((Holding.refl w).log _).bind fun _ w₁ h₁ => ?_
  refine Returns.get_bind ?_
  cases fdPrestatsGetEntry _ fd with
  | error e => exact (h₁.log _).bind fun _ w₂ h₂ => Returns.pure h₂
  | ok len =>
    by_cases hlen : pathLen ≠ len
    · simp only [if_pos hlen]
      exact (h₁.log _).bind fun _ w₂ h₂ => Returns.pure h₂
    · simp only [if_neg hlen]
      exact (h₁.log _).bind fun _ w₂ h₂ => Returns.pure h₂

/-! ## Calls on paths -/

theorem Holding.openHost (h : Holding w₀ pending temps w) (n : Nat) :
    Returns (Posix.openHost n) w fun _ w' => Holding w₀ pending (n :: temps) w' := by
  refine ⟨(), _, rfl, h.table, h.prestats, h.length, h.objects, fun k => ?_⟩
  simp only [List.mem_cons, h.host k]
  tauto

theorem Holding.closeHost (h : Holding w₀ pending temps w) {n : Nat} (hn : n ∉ w₀.hostOpen) :
    Returns (Posix.closeHost n) w fun _ w' =>
      Holding w₀ pending (temps.filter (· != n)) w' := by
  refine ⟨(), _, rfl, h.table, h.prestats, h.length, h.objects, fun k => ?_⟩
  simp only [List.mem_filter, h.host k, bne_iff_ne]
  constructor
  · rintro ⟨hk | hk, hne⟩
    · exact .inl hk
    · exact .inr ⟨hk, hne⟩
  · rintro (hk | ⟨hk, hne⟩)
    · exact ⟨.inl hk, fun heq => hn (heq ▸ hk)⟩
    · exact ⟨.inr hk, hne⟩

/-- The host descriptor of a `path_access`: the object's own, or one that was opened for it. -/
def Leases (w₀ : World) (o : FdObject) (pa : PathAccess) (temps temps' : List Nat) : Prop :=
  (pa.fd = o.number ∧ temps' = temps) ∨
    (pa.fd ∉ w₀.hostOpen ∧ pa.fd ∉ temps ∧ temps' = pa.fd :: temps)

/-- The host descriptors that resolving a path leaves open. -/
def PathHost.opened (h : PathHost) : List Nat :=
  match h.resolved with
  | .ok (some n, _) => [n]
  | _ => []

/-- What `path_get` leaves behind. -/
def GotPath (w₀ : World) (fd : Nat) (rightsBase rightsInheriting : Rights) (p : PathHost)
    (pending temps : List Nat) (r : Except Errno PathAccess) (w : World) : Prop :=
  (∃ e, r = .error e ∧ Holding w₀ pending temps w) ∨
    ∃ fe pa o temps', r = .ok pa ∧
      fdTableGetEntry w₀.table fd rightsBase rightsInheriting = .ok (fe, pa.object) ∧
      w₀.LiveObject pa.object ∧ w₀.objects[pa.object]? = some o ∧ Leases w₀ o pa temps temps' ∧
      (∀ n ∈ temps', n ∈ temps ∨ n ∈ p.opened) ∧ Holding w₀ (pa.object :: pending) temps' w

theorem Holding.pathGet (h : Holding w₀ pending temps w) (hlive : w₀.Live)
    (fd : Nat) (rightsBase rightsInheriting : Rights) {p : PathHost}
    (hp : ∀ n ∈ p.opened, n ∉ w₀.hostOpen ∧ n ∉ temps) :
    Returns (Posix.pathGet fd rightsBase rightsInheriting p) w
      (GotPath w₀ fd rightsBase rightsInheriting p pending temps) := by
  unfold Posix.pathGet
  cases hterm : p.terminated with
  | error e => exact Returns.pure (.inl ⟨e, rfl, h⟩)
  | ok _ =>
    refine (h.get hlive fd rightsBase rightsInheriting).bind fun r w₁ h₁ => ?_
    obtain ⟨e, rfl, -, h₁⟩ | ⟨fe, fo, rfl, hg, hfo, h₁⟩ := h₁
    · exact Returns.pure (.inl ⟨e, rfl, h₁⟩)
    · obtain ⟨o, ho, hfreed, -⟩ := id hfo
      cases hres : p.resolved with
      | error e =>
        refine (h₁.release hfo List.mem_cons_self).bind fun _ w₂ h₂ => ?_
        rw [erase_head] at h₂
        exact Returns.pure (.inl ⟨e, rfl, h₂⟩)
      | ok opened =>
        obtain ⟨opened, follow⟩ := opened
        cases opened with
        | some n =>
          have hn : n ∈ p.opened := by
            rw [PathHost.opened, hres]
            exact List.mem_singleton_self n
          refine (h₁.openHost n).bind fun _ w₂ h₂ => Returns.pure (.inr ?_)
          refine ⟨fe, ⟨fo, n, follow⟩, o, n :: temps, rfl, hg, hfo, ho,
            .inr ⟨(hp n hn).1, (hp n hn).2, rfl⟩, fun k hk => ?_, h₂⟩
          obtain rfl | hk := List.mem_cons.mp hk
          · exact .inr hn
          · exact .inl hk
        | none =>
          refine (h₁.fdObject ho hfreed).bind ?_
          rintro o' w' ⟨rfl, -, hnumber, -⟩
          refine Returns.pure (.inr ?_)
          exact ⟨fe, ⟨fo, o'.number, follow⟩, o, temps, rfl, hg, hfo, ho, .inl ⟨hnumber, rfl⟩,
            fun k hk => .inl hk, h₁⟩

/-- What `path_put` gives back. -/
def PathAccess.leased (pa : PathAccess) (o : FdObject) : List Nat :=
  if pa.fd = o.number then [] else [pa.fd]

theorem Holding.pathPut {pa : PathAccess} {o : FdObject} {base opened : List Nat}
    (h : Holding w₀ pending temps w) (hfo : w₀.LiveObject pa.object)
    (ho : w₀.objects[pa.object]? = some o) (hmem : pa.object ∈ pending)
    (hlease : Leases w₀ o pa base opened) :
    Returns (Posix.pathPut pa) w fun _ w' => Holding w₀ (pending.erase pa.object)
      (temps.filter (· ∉ pa.leased o)) w' := by
  obtain ⟨o', ho', hfreed, -⟩ := id hfo
  obtain rfl := Option.some.inj (ho.symm.trans ho')
  unfold Posix.pathPut
  refine (h.fdObject ho hfreed).bind ?_
  rintro o' w' ⟨rfl, -, hnumber, -⟩
  rw [hnumber, PathAccess.leased]
  by_cases hown : pa.fd = o.number
  · rw [if_neg (fun h => h hown.symm), if_pos hown]
    simp only [List.not_mem_nil, not_false_eq_true, decide_true, List.filter_true]
    exact h.release hfo hmem
  · rw [if_pos (fun h => hown h.symm), if_neg hown]
    have hn : pa.fd ∉ w₀.hostOpen := by
      obtain ⟨heq, -⟩ | ⟨hn, -⟩ := hlease
      · exact absurd heq hown
      · exact hn
    have hsame : (fun n => decide (n ∉ [pa.fd])) = (· != pa.fd) := by
      funext n
      by_cases heq : n = pa.fd <;> simp [heq]
    rw [hsame]
    exact (h.closeHost hn).bind fun _ w₁ h₁ => h₁.release hfo hmem

/-- What was opened for a `path_access` is what `path_put` gives back. -/
theorem Leases.filter {pa : PathAccess} {o : FdObject} {temps' : List Nat}
    (h : Leases w₀ o pa temps temps') (hopen : o.number ∈ w₀.hostOpen) :
    temps'.filter (· ∉ pa.leased o) = temps := by
  rw [PathAccess.leased]
  obtain ⟨heq, rfl⟩ | ⟨hn, hnew, rfl⟩ := h
  · simp [heq]
  · have hne : pa.fd ≠ o.number := fun heq => hn (heq ▸ hopen)
    rw [if_neg hne, List.filter_cons_of_neg (by simp), List.filter_eq_self]
    intro n hmem
    simpa using fun heq : n = pa.fd => hnew (heq ▸ hmem)

theorem World.Live.onPath (h : w.Live) (fd : Nat) (rights : Rights) {p : PathHost} (host : Host)
    (hp : ∀ n ∈ p.opened, n ∉ w.hostOpen) : Quiet w (Posix.onPath fd rights p host) := by
  unfold Quiet Posix.onPath
  refine ((Holding.refl w).pathGet h fd rights 0 fun n hn => ⟨hp n hn, List.not_mem_nil⟩).bind
    fun r w₁ h₁ => ?_
  obtain ⟨e, rfl, h₁⟩ | ⟨fe, pa, o, temps, rfl, -, hfo, ho, hlease, -, h₁⟩ := h₁
  · exact Returns.pure h₁
  · refine (h₁.pathPut hfo ho List.mem_cons_self hlease).bind fun _ w₂ h₂ => ?_
    obtain ⟨o', ho', -, -, hopen⟩ := hfo
    obtain rfl := Option.some.inj (ho.symm.trans ho')
    rw [erase_head, hlease.filter hopen] at h₂
    exact Returns.pure h₂

theorem World.Live.onPaths (h : w.Live) (oldFd : Nat) (oldRights : Rights) {old : PathHost} (newFd : Nat)
    (newRights : Rights) {new : PathHost} (host : Host) (hold : ∀ n ∈ old.opened, n ∉ w.hostOpen)
    (hnew : ∀ n ∈ new.opened, n ∉ w.hostOpen ∧ n ∉ old.opened) :
    Quiet w (Posix.onPaths oldFd oldRights old newFd newRights new host) := by
  unfold Quiet Posix.onPaths
  refine ((Holding.refl w).pathGet h oldFd oldRights 0
    fun n hn => ⟨hold n hn, List.not_mem_nil⟩).bind fun r w₁ h₁ => ?_
  obtain ⟨e, rfl, h₁⟩ | ⟨fe, pa, o, temps, rfl, -, hfo, ho, hlease, htemps, h₁⟩ := h₁
  · exact Returns.pure h₁
  obtain ⟨o', ho', -, -, hopen⟩ := id hfo
  obtain rfl := Option.some.inj (ho.symm.trans ho')
  have hfresh : ∀ n ∈ temps, n ∈ old.opened := by
    intro n hn
    obtain hn | hn := htemps n hn
    · exact nomatch hn
    · exact hn
  refine (h₁.pathGet h newFd newRights 0
    fun n hn => ⟨(hnew n hn).1, fun hmem => (hnew n hn).2 (hfresh n hmem)⟩).bind fun r w₂ h₂ => ?_
  obtain ⟨e, rfl, h₂⟩ | ⟨fe', pa', o', temps', rfl, -, hfo', ho', hlease', -, h₂⟩ := h₂
  · refine (h₂.pathPut hfo ho List.mem_cons_self hlease).bind fun _ w₃ h₃ => ?_
    rw [erase_head, hlease.filter hopen] at h₃
    exact Returns.pure h₃
  · refine (h₂.pathPut hfo ho (List.mem_cons_of_mem _ List.mem_cons_self) hlease).bind
      fun _ w₃ h₃ => ?_
    have hmem : pa'.object ∈ [pa'.object, pa.object].erase pa.object := by
      by_cases heq : pa'.object = pa.object
      · rw [heq, erase_head]
        exact List.mem_cons_self
      · exact (List.mem_erase_of_ne heq).mpr List.mem_cons_self
    refine (h₃.pathPut hfo' ho' hmem hlease').bind fun _ w₄ h₄ => ?_
    have hpending : ([pa'.object, pa.object].erase pa.object).erase pa'.object = [] := by
      rw [List.erase_comm, erase_head, erase_head]
    obtain ⟨o'', ho'', -, -, hopen'⟩ := hfo'
    obtain rfl := Option.some.inj (ho'.symm.trans ho'')
    have htemps' : ((temps'.filter (· ∉ pa.leased o)).filter (· ∉ pa'.leased o')) = [] := by
      rw [List.filter_comm, hlease'.filter hopen',
        hlease.filter hopen]
    rw [hpending, htemps'] at h₄
    exact Returns.pure h₄

/-! ## Directories and polling -/

/-- A descriptor that `fd_readdir` accepts is a directory. -/
def World.Lists (w : World) (fd : Nat) : Prop :=
  ∀ fe fo o, fdTableGetEntry w.table fd rightFdReaddir 0 = .ok (fe, fo) → w.objects[fo]? = some o →
    o.type = .directory

theorem World.Live.fdReaddir (h : w.Live) {fd : Nat} (hdir : w.Lists fd) (nbyte : Nat) (fdopendir : Host)
    (answers : List (Except (Option Errno) Nat)) :
    Quiet w (Posix.fdReaddir fd nbyte fdopendir answers) := by
  unfold Quiet Posix.fdReaddir
  refine ((Holding.refl w).get h fd rightFdReaddir 0).bind fun r w₁ h₁ => ?_
  obtain ⟨e, rfl, -, h₁⟩ | ⟨fe, fo, rfl, hg, hfo, h₁⟩ := h₁
  · exact Returns.pure h₁
  obtain ⟨o, ho, hfreed, -⟩ := id hfo
  obtain ⟨handle, hget⟩ := h₁.objects fo o ho
  refine (h₁.fdObject ho hfreed).bind ?_
  rintro o' w' ⟨rfl, hget', -, -, -, -⟩
  obtain rfl := Option.some.inj (hget.symm.trans hget')
  have hrelease : ∀ {w₂ : World} (r : Host), Holding w [fo] [] w₂ →
      Returns (do log (.mutexUnlock fo); fdObjectRelease fo; return r) w₂
        fun _ w₃ => Holding w [] [] w₃ := by
    intro w₂ r h₂
    refine (h₂.log _).bind fun _ w₃ h₃ => ?_
    refine (h₃.release hfo List.mem_cons_self).bind fun _ w₄ h₄ => ?_
    rw [erase_head] at h₄
    exact Returns.pure h₄
  rw [if_neg (by simp [hdir fe fo o hg ho])]
  refine (h₁.log _).bind fun _ w₂ h₂ => ?_
  by_cases hhandle : handle = true
  · rw [if_neg (by simp [hhandle])]
    exact hrelease _ h₂
  · rw [if_pos (by simpa using hhandle)]
    cases fdopendir with
    | error e => exact hrelease _ h₂
    | ok _ =>
      refine Returns.bind (h₂.setCount ho (fun _ _ => rfl) ⟨true, rfl⟩) fun _ w₃ h₃ => ?_
      exact hrelease _ h₃

/-- The references that `fos` stands for. -/
def pendingOf (fos : List (Option Nat)) : List Nat := fos.filterMap id

theorem Holding.perm {pending' : List Nat} (h : Holding w₀ pending temps w)
    (hperm : pending.Perm pending') : Holding w₀ pending' temps w where
  table := h.table
  prestats := h.prestats
  length := h.length
  objects fo o ho := by
    rw [← hperm.count_eq]
    exact h.objects fo o ho
  host := h.host

/-- The state of the first loop of `poll_oneoff`. -/
structure Polling (w₀ : World) (s : PollState) (w : World) : Prop where
  holding : Holding w₀ (pendingOf s.fos) [] w
  live : ∀ fo ∈ pendingOf s.fos, w₀.LiveObject fo

theorem Polling.none {s s' : PollState} (h : Polling w₀ s w) (hfos : s'.fos = s.fos ++ [none]) :
    Polling w₀ s' w := by
  have hsame : pendingOf s'.fos = pendingOf s.fos := by simp [pendingOf, hfos]
  exact ⟨hsame ▸ h.holding, hsame ▸ h.live⟩

theorem Polling.subscribe {s : PollState} (h : Polling w₀ s w) (hlive : w₀.Live) (i : Nat)
    (sub : Subscription) :
    Returns (pollSubscribe s i sub) w fun s' w' => Polling w₀ s' w' := by
  have hfd : ∀ fd, Returns (pollSubscribe.subscribeFd s i fd) w fun s' w' => Polling w₀ s' w' := by
    intro fd
    unfold pollSubscribe.subscribeFd
    refine (h.holding.getLocked hlive fd rightPollFdReadwrite 0).bind fun r w₁ h₁ => ?_
    obtain ⟨e, rfl, -, h₁⟩ | ⟨fe, fo, rfl, -, hfo, h₁⟩ := h₁
    · exact Returns.pure (Polling.none ⟨h₁, h.live⟩ rfl)
    · obtain ⟨o, ho, hfreed, -⟩ := id hfo
      refine (h₁.fdObject ho hfreed).bind ?_
      rintro o' w' ⟨rfl, -⟩
      have hcons : pendingOf (s.fos ++ [some fo]) = pendingOf s.fos ++ [fo] := by simp [pendingOf]
      refine Returns.pure ⟨h₁.perm ?_, ?_⟩
      · simp only [hcons]
        exact (List.perm_append_singleton fo _).symm
      · simp only [hcons, List.mem_append, List.mem_singleton]
        rintro k (hk | rfl)
        · exact h.live k hk
        · exact hfo
  cases sub with
  | fdRead fd => exact hfd fd
  | fdWrite fd => exact hfd fd
  | clock abstime =>
    simp only [pollSubscribe]
    split
    · exact Returns.pure (h.none rfl)
    · exact Returns.pure (h.none rfl)
  | other => exact Returns.pure (h.none rfl)

theorem Polling.subscribeAll (subs : List Subscription) {s : PollState} (hlive : w₀.Live) {i : Nat}
    (h : Polling w₀ s w) :
    Returns (pollSubscribeAll s i subs) w fun s' w' => Polling w₀ s' w' := by
  induction subs generalizing s i w with
  | nil => exact Returns.pure h
  | cons sub subs ih => exact (h.subscribe hlive i sub).bind fun s' w' h' => ih h'

theorem Holding.releaseAll {fos : List (Option Nat)} (h : Holding w₀ (pendingOf fos) temps w)
    (hlive : ∀ fo ∈ pendingOf fos, w₀.LiveObject fo) :
    Returns (Posix.releaseAll fos) w fun _ w' => Holding w₀ [] temps w' := by
  induction fos generalizing w with
  | nil => exact Returns.pure h
  | cons fo fos ih =>
    cases fo with
    | none => exact ih h hlive
    | some fo =>
      refine (h.release (hlive fo List.mem_cons_self) List.mem_cons_self).bind fun _ w₁ h₁ => ?_
      have htail : (pendingOf (some fo :: fos)).erase fo = pendingOf fos := erase_head
      rw [htail] at h₁
      exact ih h₁ fun k hk => hlive k (List.mem_cons_of_mem _ hk)

theorem World.Live.pollOneoff (h : w.Live) (subs : List Subscription) (host : PollHost) :
    Returns (Posix.pollOneoff subs host) w fun _ w' => Holding w [] [] w' := by
  unfold Posix.pollOneoff
  split
  · exact Returns.pure (Holding.refl w)
  · split
    · exact Returns.pure (Holding.refl w)
    · refine ((Holding.refl w).log _).bind fun _ w₁ h₁ => ?_
      have hstart : Polling w ⟨[], none, []⟩ w₁ :=
        ⟨h₁, fun _ hk => nomatch hk⟩
      refine (hstart.subscribeAll subs h).bind fun s w₂ h₂ => ?_
      refine (h₂.holding.log _).bind fun _ w₃ h₃ => ?_
      refine (h₃.releaseAll h₂.live).bind fun _ w₄ h₄ => ?_
      cases host.poll with
      | error e => exact Returns.pure h₄
      | ok revents => exact Returns.pure h₄

end

end Wasmtime.Wasi.Posix
