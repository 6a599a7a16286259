import Mathlib
import Wasmtime.Lib.Fallible
import Wasmtime.Lib.Links
import Wasmtime.Lib.Runs

/-!
# The debugger's list of code images

Model of `wasmtime-runtime/src/jit_int.rs`: the list of `JITCodeEntry` that a debugger reads in the memory of the
process, `GdbJitImageRegistration::register`, and its `drop`.

* The heap holds the boxes of the entries; `none` is the address of no entry. A pointer is an address or null.
* An access to an entry that is not there is undefined behaviour, and ends the run with `none`.
* A debugger stops the process in `__jit_debug_register_code` and reads it there (`Notice`). It may follow these
  calls from the start (`follow`), or come later and walk the list (`listed`).
* Registrations are shared by `Rc`, so they are dropped in any order, each once. The code that registers and drops
  runs in one thread.

Results:
* `Ok`: the entries are linked in both directions, and are those of the registrations that are alive.
* `step_safe`: no event leaves that, or touches an entry that is not there.
* `follow_eq_listed`: whether it followed the calls or came later, a debugger knows the images that are alive.
-/

namespace Wasmtime.Runtime.JitInt

/-! ## The list in the memory of the process -/

/-- `JITCodeEntry`. -/
structure JITCodeEntry where
  nextEntry : Option Nat
  prevEntry : Option Nat
  symfileAddr : Nat
  symfileSize : UInt64
  deriving DecidableEq, Repr

/-- `JIT_NOACTION`. -/
def jitNoaction : UInt32 := 0

/-- `JIT_REGISTER_FN`. -/
def jitRegisterFn : UInt32 := 1

/-- `JIT_UNREGISTER_FN`. -/
def jitUnregisterFn : UInt32 := 2

/-- `JITDescriptor`. -/
structure JITDescriptor where
  version : UInt32
  actionFlag : UInt32
  relevantEntry : Option Nat
  firstEntry : Option Nat
  deriving DecidableEq, Repr

/-- The entries, and `__jit_debug_descriptor`. -/
structure Memory where
  entries : Nat → Option JITCodeEntry
  descriptor : JITDescriptor

/-- The memory before the first registration. -/
def Memory.new : Memory := ⟨fun _ => none, ⟨1, jitNoaction, none, none⟩⟩

/-- A `Vec<u8>` with an image: where it is, and what is in it. -/
structure File where
  addr : Nat
  bytes : List UInt8
  bytes_lt : bytes.length < 2 ^ 63
  deriving DecidableEq, Repr

/-- `register_gdb_jit_image`, with the address of the new box: the memory at the call of
`__jit_debug_register_code`, and at the end. -/
def registerGdbJitImage (entry : Nat) (file : File) (m : Memory) : Option (Memory × Memory) :=
  let entries := Function.update m.entries entry (some {
    nextEntry := m.descriptor.firstEntry
    prevEntry := none
    symfileAddr := file.addr
    symfileSize := UInt64.ofNat file.bytes.length })
  -- Add it to the linked list in the JIT descriptor.
  (match m.descriptor.firstEntry with
    | none => some entries
    | some first => Links.modify entries first fun e => { e with prevEntry := some entry }).map fun entries =>
      let descriptor := { m.descriptor with firstEntry := some entry, relevantEntry := some entry }
      (⟨entries, { descriptor with actionFlag := jitRegisterFn }⟩,
        ⟨entries, { descriptor with actionFlag := jitNoaction, relevantEntry := none }⟩)

/-- `unregister_gdb_jit_image`: the memory at the call of `__jit_debug_register_code`, and at the end. -/
def unregisterGdbJitImage (entry : Nat) (m : Memory) : Option (Memory × Memory) :=
  (m.entries entry).bind fun e =>
    -- Remove the code entry corresponding to the code from the linked list.
    (match e.prevEntry with
      | some prev => (Links.modify m.entries prev fun p => { p with nextEntry := e.nextEntry }).map fun entries =>
        (⟨entries, m.descriptor⟩ : Memory)
      | none => some ⟨m.entries, { m.descriptor with firstEntry := e.nextEntry }⟩).bind fun m =>
        (m.entries entry).bind fun e =>
          (match e.nextEntry with
            | some next => Links.modify m.entries next fun n => { n with prevEntry := e.prevEntry }
            | none => some m.entries).map fun entries =>
              let descriptor := { m.descriptor with relevantEntry := some entry }
              -- The box is freed at the end.
              (⟨entries, { descriptor with actionFlag := jitUnregisterFn }⟩,
                ⟨Function.update entries entry none,
                  { descriptor with actionFlag := jitNoaction, relevantEntry := none }⟩)

/-! ## What a debugger reads -/

/-- An image, by the address of its entry: where its file is, and how long it is. -/
abbrev Image := Nat × Nat × Nat

/-- How an entry holds its links. -/
def entryLinks : Links Nat JITCodeEntry (Nat × Nat) where
  next := JITCodeEntry.nextEntry
  prev := JITCodeEntry.prevEntry
  val := fun e => (e.symfileAddr, e.symfileSize.toNat)
  setNext := fun q e => { e with nextEntry := q }
  setPrev := fun q e => { e with prevEntry := q }
  next_setNext := fun _ _ => rfl
  prev_setNext := fun _ _ => rfl
  val_setNext := fun _ _ => rfl
  next_setPrev := fun _ _ => rfl
  prev_setPrev := fun _ _ => rfl
  val_setPrev := fun _ _ => rfl

/-- The image of an entry. -/
def Memory.image (m : Memory) (p : Nat) : Option Image := (entryLinks.vals m.entries p).map fun file => (p, file)

/-- The images of the list, in at most `fuel` steps. -/
def Memory.listed (m : Memory) (fuel : Nat) : Option (List Image) :=
  (entryLinks.walk m.entries fuel m.descriptor.firstEntry).bind fun ps => ps.mapM m.image

/-- What a debugger reads when it stops the process in `__jit_debug_register_code`. -/
structure Notice where
  actionFlag : UInt32
  relevant : Option Image
  listed : Option (List Image)
  deriving DecidableEq, Repr

def Memory.notice (m : Memory) (fuel : Nat) : Notice :=
  ⟨m.descriptor.actionFlag, m.descriptor.relevantEntry.bind m.image, m.listed fuel⟩

/-- What a debugger that follows the calls makes of one. -/
def follow (known : List Image) (n : Notice) : List Image :=
  if n.actionFlag = jitRegisterFn then n.relevant.toList ++ known
  else if n.actionFlag = jitUnregisterFn then known.filter fun i => ∀ r ∈ n.relevant, i.1 ≠ r.1
  else known

/-- What it knows after some. -/
def followAll (notices : List Notice) : List Image := notices.foldl follow []

/-! ## Runs -/

/-- `GdbJitImageRegistration`. -/
structure GdbJitImageRegistration where
  entry : Nat
  file : File
  deriving DecidableEq, Repr

/-- The image of a registration. -/
def GdbJitImageRegistration.image (r : GdbJitImageRegistration) : Image := (r.entry, r.file.addr, r.file.bytes.length)

@[simp] theorem GdbJitImageRegistration.image_fst (r : GdbJitImageRegistration) : r.image.1 = r.entry := rfl

/-- A process: its memory, the registrations that are alive, and the calls so far. -/
structure Process where
  memory : Memory
  registrations : List GdbJitImageRegistration
  notices : List Notice

/-- A process before the first registration. -/
def Process.new : Process := ⟨.new, [], []⟩

/-- `register`, with the address of the new box; or the drop of a registration. -/
inductive Event where
  | register (entry : Nat) (file : File)
  | drop (k : Nat)
  deriving DecidableEq, Repr

/-- One event. There are as many entries to walk as registrations. -/
def Process.step (s : Process) : Event → Option Process
  | .register entry file => (registerGdbJitImage entry file s.memory).map fun m =>
    ⟨m.2, ⟨entry, file⟩ :: s.registrations, s.notices ++ [m.1.notice (s.registrations.length + 1)]⟩
  | .drop k =>
    match s.registrations[k]? with
    | none => some s
    | some r => (unregisterGdbJitImage r.entry s.memory).map fun m =>
      ⟨m.2, s.registrations.eraseIdx k, s.notices ++ [m.1.notice s.registrations.length]⟩

/-- A run ends at undefined behaviour. -/
def step (s : Option Process) (e : Event) : Option Process := s.bind fun s => s.step e

/-- What the allocator promises: the address of a new box is that of no other. -/
def Fresh (s : Option Process) (e : Event) : Prop :=
  ∀ s' ∈ s, ∀ entry file, e = .register entry file → s'.memory.entries entry = none

/-! ## The two functions and the list -/

variable {m : Memory} {s : Process} {entry fuel : Nat} {file : File} {rs : List GdbJitImageRegistration}

/-- `register_gdb_jit_image` links an entry in at the front. -/
theorem registerGdbJitImage_eq : registerGdbJitImage entry file m =
    (entryLinks.pushFront m.entries m.descriptor.firstEntry entry
      ⟨m.descriptor.firstEntry, none, file.addr, UInt64.ofNat file.bytes.length⟩).map fun entries =>
        (⟨entries, { m.descriptor with
            firstEntry := some entry, relevantEntry := some entry, actionFlag := jitRegisterFn }⟩,
          ⟨entries, { m.descriptor with
            firstEntry := some entry, actionFlag := jitNoaction, relevantEntry := none }⟩) := by
  unfold registerGdbJitImage Links.pushFront
  cases m.descriptor.firstEntry <;> rfl

/-- `unregister_gdb_jit_image` takes an entry out. -/
theorem unregisterGdbJitImage_eq : unregisterGdbJitImage entry m =
    (entryLinks.unlink m.entries m.descriptor.firstEntry entry).map fun q =>
      (⟨q.1, { m.descriptor with
          firstEntry := q.2, relevantEntry := some entry, actionFlag := jitUnregisterFn }⟩,
        ⟨Function.update q.1 entry none, { m.descriptor with
          firstEntry := q.2, actionFlag := jitNoaction, relevantEntry := none }⟩) := by
  unfold unregisterGdbJitImage Links.unlink
  cases he : m.entries entry with
  | none => rfl
  | some e =>
    obtain ⟨next, prev, addr, size⟩ := e
    cases prev with
    | none =>
      simp only [Option.bind_some, entryLinks, Links.modifyAt, he]
      cases next with
      | none => rfl
      | some next =>
        simp only [Links.modify]
        cases m.entries next <;> rfl
    | some prev =>
      simp only [Option.bind_some, entryLinks, Links.modifyAt, Links.modify]
      cases hp : m.entries prev with
      | none => rfl
      | some p =>
        simp only [Option.map_some, Option.bind_some]
        cases Function.update m.entries prev (some { p with nextEntry := next }) entry with
        | none => rfl
        | some e =>
          obtain ⟨next, prev, addr, size⟩ := e
          cases next with
          | none => rfl
          | some next =>
            simp only [Option.bind_some]
            cases Function.update m.entries _ _ next <;> rfl

/-- The entries of registrations are linked, and hold their files. -/
structure Holds (m : Memory) (rs : List GdbJitImageRegistration) : Prop where
  linked : entryLinks.Linked m.entries m.descriptor.firstEntry (rs.map GdbJitImageRegistration.entry)
  files : ∀ r ∈ rs, m.image r.entry = some r.image

/-- A walk finds them. -/
theorem Holds.listed (h : Holds m rs) (hfuel : rs.length ≤ fuel) :
    m.listed fuel = some (rs.map GdbJitImageRegistration.image) := by
  have hwalk : entryLinks.walk m.entries fuel m.descriptor.firstEntry = some _ :=
    h.linked.walk_eq (by rw [List.length_map]; exact hfuel)
  rw [Memory.listed, hwalk, Option.bind_some, Fallible.mapM_eq_some, List.map_map, List.map_map]
  exact List.map_congr_left h.files

/-- An image is read from the entry it belongs to. -/
theorem image_eq_some {p : Nat} {i : Image} (h : m.image p = some i) : (m.entries p).isSome := by
  rw [Memory.image, Links.vals, Option.map_map] at h
  rw [← Option.isSome_map, h]
  rfl

/-- An image depends on the values of the entries. -/
theorem image_congr {m' : Memory} (h : entryLinks.vals m'.entries = entryLinks.vals m.entries) (p : Nat) :
    m'.image p = m.image p := by
  unfold Memory.image
  rw [h]

/-- What a call to the debugger finds, and what it leaves. -/
structure Called (m seen after : Memory) (flag : UInt32) (entry : Nat) (rs : List GdbJitImageRegistration) : Prop where
  flag : seen.descriptor.actionFlag = flag
  relevant : seen.descriptor.relevantEntry = some entry
  atCall : Holds seen rs
  atEnd : Holds after rs
  idle : after.descriptor.version = m.descriptor.version ∧ after.descriptor.actionFlag = jitNoaction ∧
    after.descriptor.relevantEntry = none

/-- What registering an image does. -/
theorem registerGdbJitImage_spec (h : Holds m rs) (hfree : m.entries entry = none) (file : File) :
    ∃ seen after, registerGdbJitImage entry file m = some (seen, after) ∧
      Called m seen after jitRegisterFn entry (⟨entry, file⟩ :: rs) ∧
      ∀ p, (after.entries p).isSome → p = entry ∨ (m.entries p).isSome := by
  obtain ⟨entries, hpush, hlinked, hvals⟩ := Links.linked_pushFront (L := entryLinks) (p := entry)
    (n := ⟨m.descriptor.firstEntry, none, file.addr, UInt64.ofNat file.bytes.length⟩) h.linked hfree rfl rfl
  have hsize : (UInt64.ofNat file.bytes.length).toNat = file.bytes.length :=
    UInt64.toNat_ofNat_of_lt' (Nat.lt_trans file.bytes_lt (by decide))
  have hfiles : ∀ (d : JITDescriptor), ∀ r ∈ GdbJitImageRegistration.mk entry file :: rs,
      (⟨entries, d⟩ : Memory).image r.entry = some r.image := by
    intro d r hr
    rw [Memory.image, hvals]
    rcases List.mem_cons.mp hr with rfl | hr
    · rw [Function.update_self, Option.map_some]
      show some (entry, file.addr, (UInt64.ofNat file.bytes.length).toNat) = _
      rw [hsize]
      rfl
    · have hne : r.entry ≠ entry := by
        intro he
        have hsome := image_eq_some (h.files r hr)
        rw [he, hfree] at hsome
        exact Bool.false_ne_true hsome
      rw [Function.update_of_ne hne]
      exact h.files r hr
  refine ⟨_, _, Eq.trans (registerGdbJitImage_eq) (congrArg (Option.map _) hpush),
    ⟨rfl, rfl, ⟨hlinked, hfiles _⟩, ⟨hlinked, hfiles _⟩, rfl, rfl, rfl⟩, ?_⟩
  intro p hp
  by_cases he : p = entry
  · exact Or.inl he
  · refine Or.inr ?_
    have hval := congrFun hvals p
    rw [Function.update_of_ne he] at hval
    rw [← Option.isSome_map (f := entryLinks.val), ← Links.vals, ← hval, Links.vals, Option.isSome_map]
    exact hp

/-- What dropping a registration does. -/
theorem unregisterGdbJitImage_spec {xs ys : List GdbJitImageRegistration} {r : GdbJitImageRegistration}
    (h : Holds m (xs ++ r :: ys)) : ∃ seen after, unregisterGdbJitImage r.entry m = some (seen, after) ∧
      Called m seen after jitUnregisterFn r.entry (xs ++ ys) ∧ seen.image r.entry = some r.image ∧
      ∀ p, (after.entries p).isSome → p ≠ r.entry ∧ (m.entries p).isSome := by
  have hlinked := h.linked
  rw [List.map_append, List.map_cons] at hlinked
  obtain ⟨entries, first, hunlink, hlinked', hvals⟩ := Links.linked_unlink hlinked
  have hnot : r.entry ∉ (xs ++ ys).map GdbJitImageRegistration.entry := by
    rw [List.map_append]
    exact (List.nodup_cons.mp (List.nodup_middle.mp hlinked.nodup)).1
  have himage : ∀ (d : JITDescriptor), ∀ q ∈ xs ++ r :: ys,
      (⟨entries, d⟩ : Memory).image q.entry = some q.image := by
    intro d q hq
    rw [image_congr (m := m) hvals]
    exact h.files q hq
  have hfiles : ∀ (d : JITDescriptor), ∀ q ∈ xs ++ ys,
      (⟨Function.update entries r.entry none, d⟩ : Memory).image q.entry = some q.image := by
    intro d q hq
    have hne : q.entry ≠ r.entry := by
      intro he
      exact hnot (he ▸ List.mem_map_of_mem hq)
    rw [← himage d q (by rw [List.mem_append] at hq ⊢; exact hq.imp_right (List.mem_cons_of_mem r))]
    simp only [Memory.image, Links.vals, Function.update_of_ne hne]
  rw [← List.map_append] at hlinked'
  refine ⟨_, _, Eq.trans (unregisterGdbJitImage_eq) (congrArg (Option.map _) hunlink),
    ⟨rfl, rfl, ⟨hlinked', ?_⟩, ⟨hlinked'.congr (Links.update_of_notMem hnot), hfiles _⟩, rfl, rfl, rfl⟩,
    himage _ r (by simp), ?_⟩
  · intro q hq
    refine himage _ q ?_
    rw [List.mem_append] at hq ⊢
    exact hq.imp_right (List.mem_cons_of_mem r)
  · intro p hp
    have hne : p ≠ r.entry := by
      rintro rfl
      simp at hp
    refine ⟨hne, ?_⟩
    rw [← Option.isSome_map (f := entryLinks.val), ← Links.vals, ← congrFun hvals p, Links.vals, Option.isSome_map]
    simpa only [Function.update_of_ne hne] using hp

/-! ## Runs -/

/-- What every run keeps. -/
structure Ok (s : Process) : Prop where
  holds : Holds s.memory s.registrations
  /-- No entry is left behind. -/
  only : ∀ p, (s.memory.entries p).isSome → p ∈ s.registrations.map GdbJitImageRegistration.entry
  idle : s.memory.descriptor.version = 1 ∧ s.memory.descriptor.actionFlag = jitNoaction ∧
    s.memory.descriptor.relevantEntry = none
  followed : followAll s.notices = s.registrations.map GdbJitImageRegistration.image
  /-- At every call the list is what a debugger that followed the calls knows. -/
  heard : ∀ (i : Nat) n, s.notices[i]? = some n → n.listed = some (followAll (s.notices.take (i + 1)))

theorem ok_new : Ok .new where
  holds := ⟨Links.linked_nil _, fun r hr => absurd hr List.not_mem_nil⟩
  only := fun p hp => absurd hp Bool.false_ne_true
  idle := ⟨rfl, rfl, rfl⟩
  followed := rfl
  heard := fun i n hn => absurd hn (by simp [Process.new])

theorem followAll_append (notices : List Notice) (n : Notice) :
    followAll (notices ++ [n]) = follow (followAll notices) n := List.foldl_append ..

/-- One more call. -/
theorem heard_append {notices : List Notice} {n : Notice}
    (h : ∀ (i : Nat) n, notices[i]? = some n → n.listed = some (followAll (notices.take (i + 1))))
    (hn : n.listed = some (followAll (notices ++ [n]))) (i : Nat) (n' : Notice)
    (hn' : (notices ++ [n])[i]? = some n') : n'.listed = some (followAll ((notices ++ [n]).take (i + 1))) := by
  by_cases hi : i < notices.length
  · rw [List.getElem?_append_left hi] at hn'
    rw [List.take_append_of_le_length hi]
    exact h i n' hn'
  · rw [List.getElem?_append_right (Nat.not_lt.mp hi)] at hn'
    obtain ⟨hlt, rfl⟩ := List.getElem?_eq_some_iff.mp hn'
    rw [List.length_singleton] at hlt
    rw [List.take_of_length_le (by rw [List.length_append, List.length_singleton]; omega), List.getElem_singleton]
    exact hn

/-- An event that told the debugger what is alive then. -/
theorem Ok.called {seen after : Memory} {flag : UInt32} (h : Ok s) (hcalled : Called s.memory seen after flag entry rs)
    (hfuel : rs.length ≤ fuel)
    (hfollow : follow (s.registrations.map GdbJitImageRegistration.image) (seen.notice fuel) =
      rs.map GdbJitImageRegistration.image)
    (honly : ∀ p, (after.entries p).isSome → p ∈ rs.map GdbJitImageRegistration.entry) :
    Ok ⟨after, rs, s.notices ++ [seen.notice fuel]⟩ := by
  have hfollowed : followAll (s.notices ++ [seen.notice fuel]) = rs.map GdbJitImageRegistration.image := by
    rw [followAll_append, h.followed, hfollow]
  refine ⟨hcalled.atEnd, honly, ⟨hcalled.idle.1.trans h.idle.1, hcalled.idle.2⟩, hfollowed, heard_append h.heard ?_⟩
  rw [hfollowed]
  exact hcalled.atCall.listed hfuel

/-- **Registering keeps it.** -/
theorem Ok.register (h : Ok s) (hfree : s.memory.entries entry = none) (file : File) :
    ∃ s', s.step (.register entry file) = some s' ∧ Ok s' := by
  obtain ⟨seen, after, hreg, hcalled, honly⟩ := registerGdbJitImage_spec h.holds hfree file
  have hstep : s.step (.register entry file) = some ⟨after, ⟨entry, file⟩ :: s.registrations,
      s.notices ++ [seen.notice (s.registrations.length + 1)]⟩ := by
    rw [Process.step, hreg, Option.map_some]
  refine ⟨_, hstep, h.called hcalled (by rw [List.length_cons]) ?_ ?_⟩
  · unfold follow Memory.notice
    rw [if_pos hcalled.flag, hcalled.relevant, Option.bind_some, hcalled.atCall.files _ List.mem_cons_self]
    rfl
  · intro p hp
    rcases honly p hp with rfl | hp
    · exact List.mem_cons_self
    · exact List.mem_cons_of_mem _ (h.only p hp)

/-- **Dropping keeps it.** -/
theorem Ok.drop (h : Ok s) (k : Nat) : ∃ s', s.step (.drop k) = some s' ∧ Ok s' := by
  cases hk : s.registrations[k]? with
  | none => exact ⟨s, by rw [Process.step, hk], h⟩
  | some r =>
    obtain ⟨hlt, hget⟩ := List.getElem?_eq_some_iff.mp hk
    obtain ⟨xs, hxs⟩ : ∃ xs, xs = s.registrations.take k := ⟨_, rfl⟩
    obtain ⟨ys, hys⟩ : ∃ ys, ys = s.registrations.drop (k + 1) := ⟨_, rfl⟩
    have hsplit : s.registrations = xs ++ r :: ys := by
      rw [hxs, hys, ← hget, List.getElem_cons_drop, List.take_append_drop]
    have herase : s.registrations.eraseIdx k = xs ++ ys := by
      rw [hxs, hys, List.eraseIdx_eq_take_drop_succ]
    have hall := h.holds
    rw [hsplit] at hall
    obtain ⟨seen, after, hunreg, hcalled, himage, honly⟩ := unregisterGdbJitImage_spec hall
    have hnodup := hall.linked.nodup
    rw [List.map_append, List.map_cons, List.nodup_middle, ← List.map_append] at hnodup
    have hother : ∀ q ∈ xs ++ ys, q.entry ≠ r.entry := by
      intro q hq he
      exact (List.nodup_cons.mp hnodup).1 (he ▸ List.mem_map_of_mem hq)
    have hstep : s.step (.drop k) = some ⟨after, xs ++ ys, s.notices ++ [seen.notice s.registrations.length]⟩ := by
      simp only [Process.step, hk, hunreg, Option.map_some, herase]
    refine ⟨_, hstep, h.called hcalled ?_ ?_ ?_⟩
    · rw [hsplit, List.length_append, List.length_append, List.length_cons]
      omega
    · have hflag : ¬ seen.descriptor.actionFlag = jitRegisterFn := by
        rw [hcalled.flag]
        decide
      unfold follow Memory.notice
      rw [if_neg hflag, if_pos hcalled.flag, hcalled.relevant, Option.bind_some, himage, hsplit, List.map_append,
        List.map_cons, List.filter_append, List.filter_cons_of_neg (by simp), ← List.filter_append,
        ← List.map_append, List.filter_eq_self]
      intro i hi
      obtain ⟨q, hq, rfl⟩ := List.mem_map.mp hi
      simpa using hother q hq
    · intro p hp
      obtain ⟨hne, hp⟩ := honly p hp
      have hmem := h.only p hp
      rw [hsplit, List.map_append, List.map_cons, List.mem_append, List.mem_cons] at hmem
      rw [List.map_append, List.mem_append]
      exact hmem.imp_right fun hmem => hmem.resolve_left hne

/-- A run that has touched no entry that is not there. -/
def Safe (s : Option Process) : Prop := ∃ s', s = some s' ∧ Ok s'

/-- No event leaves it. -/
theorem step_safe {e : Event} {s : Option Process} (h : Safe s) (hfresh : Fresh s e) : Safe (step s e) := by
  obtain ⟨s, rfl, hok⟩ := h
  cases e with
  | register entry file => exact hok.register (hfresh s rfl entry file rfl) file
  | drop k => exact hok.drop k

/-- **What a debugger knows.** No order of registrations and drops touches an entry that is not there. Whether a
debugger followed the calls from the start or walks the list at the end, it finds the images that are alive, and the
list it could have walked at a call is what the calls up to it say. -/
theorem follow_eq_listed {events : List Event} (hfresh : Runs.Along step Fresh (some .new) events) :
    ∃ s, Runs.run step (some .new) events = some s ∧
      followAll s.notices = s.registrations.map GdbJitImageRegistration.image ∧
      (∀ fuel, s.registrations.length ≤ fuel →
        s.memory.listed fuel = some (s.registrations.map GdbJitImageRegistration.image)) ∧
      (∀ p, (s.memory.entries p).isSome ↔ p ∈ s.registrations.map GdbJitImageRegistration.entry) ∧
      ∀ (i : Nat) n, s.notices[i]? = some n → n.listed = some (followAll (s.notices.take (i + 1))) := by
  have hsafe : Safe (Runs.run step (some .new) events) :=
    hfresh.inv ⟨_, rfl, ok_new⟩ fun _ _ hs he => step_safe hs he
  obtain ⟨s, hs, hok⟩ := hsafe
  exact ⟨s, hs, hok.followed, fun fuel hfuel => hok.holds.listed hfuel,
    fun p => ⟨hok.only p, hok.holds.linked.isSome p⟩, hok.heard⟩

/-- Two images, the older one dropped, and a third in its place. -/
def threeImages : List Event :=
  [.register 8 ⟨100, [1, 2], by decide⟩, .register 16 ⟨200, [], by decide⟩, .drop 1,
    .register 8 ⟨300, [3], by decide⟩]

example : ((Runs.run step (some .new) threeImages).bind fun s => s.memory.listed 2) =
    some [(8, 300, 1), (16, 200, 0)] := by decide

theorem follow_eq_listed_threeImages : ∃ s, Runs.run step (some .new) threeImages = some s ∧
    followAll s.notices = s.registrations.map GdbJitImageRegistration.image ∧
    (∀ fuel, s.registrations.length ≤ fuel →
      s.memory.listed fuel = some (s.registrations.map GdbJitImageRegistration.image)) ∧
    (∀ p, (s.memory.entries p).isSome ↔ p ∈ s.registrations.map GdbJitImageRegistration.entry) ∧
    ∀ (i : Nat) n, s.notices[i]? = some n → n.listed = some (followAll (s.notices.take (i + 1))) := by
  refine follow_eq_listed ⟨?_, ?_, ?_, ?_, trivial⟩
  · rintro s hs entry file ⟨⟩
    obtain rfl := Option.some.inj hs
    rfl
  · rintro s hs entry file ⟨⟩
    obtain rfl := Option.some.inj hs
    decide
  · rintro s hs entry file ⟨⟩
  · rintro s hs entry file ⟨⟩
    obtain rfl := Option.some.inj hs
    decide

end Wasmtime.Runtime.JitInt
