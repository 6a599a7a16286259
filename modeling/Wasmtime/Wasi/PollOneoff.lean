import Mathlib
import Wasmtime.Wasi.Holding
import Wasmtime.Wasi.Translate

/-!
# `poll_oneoff` end to end

Model of `wasmtime_ssp_poll_oneoff`
(`src/wasmtime-wasi-c/sandboxed-system-primitives/src/posix.c`) and of its shim
(`src/wasmtime-wasi-c/src/syscalls.rs`), from the subscriptions in guest memory to the events there.

* The host answers `malloc`, `clock_nanosleep`, `poll` and `ioctl` as it likes. `poll` returns any number
  and any `revents`.
* `fos`, `pfds` and `out` are lists that the first loop extends, one element for each subscription or
  event.
* `due` says which events there are to report, each with its subscription, without the loops.

Results: `wasmtimeSspPollOneoff_spec` (the loops report what is due, and every reference is given back),
`due_accounts` (what is due accounts for the subscriptions), and the headline:

* `endToEnd_iff`: a call serves the guest exactly when each event after the first is in its slot all the
  same; the encoder writes event `i` at 32 times its offset.
-/

namespace Wasmtime.Wasi.PollOneoff

open Posix hiding Subscription Event pollOneoff
open Triple Writes LittleEndian Translate

/-! ## The host -/

/-- `clockid_t`. -/
inductive ClockId where
  | monotonic | processCputime | realtime | threadCputime
  deriving DecidableEq, Repr

/-- `convert_clockid`. -/
def convertClockid (clockId : BitVec 32) : Option ClockId :=
  if clockId = 1 then some .monotonic
  else if clockId = 2 then some .processCputime
  else if clockId = 0 then some .realtime
  else if clockId = 3 then some .threadCputime
  else none

/-- `struct pollfd`, less `revents`. -/
structure Pollfd where
  fd : Option Nat
  events : BitVec 16
  deriving DecidableEq, Repr

/-- What the host answers. An error number comes out of `convert_errno`, which never gives success. -/
structure Host where
  mallocFos : Bool
  mallocPfds : Bool
  clockNanosleep : ClockId → Bool → BitVec 64 → Option Posix.Errno
  poll : List Pollfd → Int → Except Posix.Errno (Nat × (Nat → BitVec 16))
  /-- `FIONREAD` for a subscription and its host descriptor. -/
  ioctl : Nat → Nat → Option (BitVec 32)

def pollerr : BitVec 16 := 0x8
def pollhup : BitVec 16 := 0x10
def pollnval : BitVec 16 := 0x20
def pollrdnorm : BitVec 16 := 0x40
def pollwrnorm : BitVec 16 := 0x100

/-- `__WASI_SUBSCRIPTION_CLOCK_ABSTIME`. -/
def subscriptionClockAbstime : BitVec 16 := 1

/-- `__WASI_EVENT_FD_READWRITE_HANGUP`. -/
def eventFdReadwriteHangup : BitVec 16 := 1

/-- `__WASI_EIO`. -/
def eio : Posix.Errno := .host 29

/-! ## Sleeping -/

/-- The error of an event: none is success. -/
def errorField (e : Option Posix.Errno) : BitVec 16 := e.elim 0 errnoCode

/-- The event of a subscription that only has an error. -/
def eventOf (s : Subscription) (e : Option Posix.Errno) : Event := ⟨s.userdata, errorField e, s.type, 0, 0⟩

/-- The event of a subscription that is a clock and the only one. -/
def sleep (h : Host) (s : Subscription) (clockId : BitVec 32) (timeout : BitVec 64)
    (flags : BitVec 16) : Event :=
  match convertClockid clockId with
  | some clock =>
    eventOf s (h.clockNanosleep clock (flags &&& subscriptionClockAbstime ≠ 0) timeout)
  | none => eventOf s (some .enotsup)

/-- `nsubscriptions == 1 && in[0].type == __WASI_EVENTTYPE_CLOCK`, with the event there is then. -/
def soleClock (h : Host) : List Subscription → Option Event
  | [s] =>
    match s.condition with
    | .clock _ clockId timeout _ flags => some (sleep h s clockId timeout flags)
    | _ => none
  | _ => none

/-! ## Conversion -/

/-- The variables of the first loop. -/
structure Conversion where
  fos : List (Option Nat)
  pfds : List Pollfd
  clockSubscription : Option Subscription
  out : List Event

/-- A subscription that gets its event in the first loop. -/
def Conversion.reject (c : Conversion) (s : Subscription) (e : Posix.Errno) : Conversion :=
  { c with
    fos := c.fos ++ [none]
    pfds := c.pfds ++ [⟨none, 0⟩]
    out := c.out ++ [eventOf s (some e)] }

/-- The round of a `__WASI_EVENTTYPE_FD_READ` or `__WASI_EVENTTYPE_FD_WRITE`. -/
def convertFd (c : Conversion) (s : Subscription) (fd : BitVec 32) (events : BitVec 16) :
    M Conversion := do
  match ← fdObjectGetLocked fd.toNat rightPollFdReadwrite 0 with
  | .ok fo =>
    let o ← fdObject fo
    return { c with fos := c.fos ++ [some fo], pfds := c.pfds ++ [⟨some o.number, events⟩] }
  | .error e => return c.reject s e

/-- One round of the first loop. -/
def convert (c : Conversion) (s : Subscription) : M Conversion :=
  match s.condition with
  | .fdRead fd => convertFd c s fd pollrdnorm
  | .fdWrite fd => convertFd c s fd pollwrnorm
  | .clock _ _ _ _ flags =>
    if c.clockSubscription = none ∧ flags &&& subscriptionClockAbstime = 0 then
      return { c with
        fos := c.fos ++ [none]
        pfds := c.pfds ++ [⟨none, 0⟩]
        clockSubscription := some s }
    else return c.reject s .enosys
  | .other _ => return c.reject s .enosys

/-- The first loop. -/
def convertAll : Conversion → List Subscription → M Conversion
  | c, [] => return c
  | c, s :: subs => do
    let c ← convert c s
    convertAll c subs

/-- The timeout of a subscription that is a clock, in milliseconds. -/
def millis (s : Subscription) : Int :=
  match s.condition with
  | .clock _ _ timeout _ _ =>
    let ts := timeout.toNat / 1000000
    if ts > 2 ^ 31 - 1 then -1 else ts
  | _ => -1

/-- The timeout of `poll`. -/
def pollTimeout (out : List Event) (clockSubscription : Option Subscription) : Int :=
  if out ≠ [] then 0
  else match clockSubscription with
    | some s => millis s
    | none => -1

/-! ## Collection -/

/-- The event of a descriptor that has been polled. -/
def answer (s : Subscription) (nbytes : BitVec 64) (revents : BitVec 16) : Option Event :=
  if revents &&& pollnval ≠ 0 then some (eventOf s (some .ebadf))
  else if revents &&& pollerr ≠ 0 then some (eventOf s (some eio))
  else if revents &&& pollhup ≠ 0 then
    some { eventOf s none with nbytes, flags := eventFdReadwriteHangup }
  else if revents &&& (pollrdnorm ||| pollwrnorm) ≠ 0 then some { eventOf s none with nbytes }
  else none

/-- The bytes that can be read from a descriptor: `int l` as a `__wasi_filesize_t`. -/
def fionread (h : Host) (i : Nat) (s : Subscription) (number : Nat) : BitVec 64 :=
  match s.condition with
  | .fdRead _ => (h.ioctl i number).elim 0 (BitVec.signExtend 64)
  | _ => 0

/-- The second loop, from subscription `i` on. -/
def collect (h : Host) (revents : Nat → BitVec 16) : Nat → List Subscription → List (Option Nat) →
    List Pollfd → List Event → M (List Event)
  | i, s :: subs, fo :: fos, pfd :: pfds, out =>
    match pfd.fd, fo with
    | none, _ => collect h revents (i + 1) subs fos pfds out
    | some _, none => throw .null
    | some _, some fo => do
      let o ← fdObject fo
      collect h revents (i + 1) subs fos pfds
        (out ++ (answer s (fionread h i s o.number) (revents i)).toList)
  | _, _, _, _, out => return out

/-- What follows a `poll` that has not failed. -/
def results (h : Host) (subs : List Subscription) (c : Conversion) (ret : Nat)
    (revents : Nat → BitVec 16) : M (List Event) :=
  if ret = 0 ∧ c.out = [] then
    match c.clockSubscription with
    | some s => return [eventOf s none]
    | none => collect h revents 0 subs c.fos c.pfds c.out
  else collect h revents 0 subs c.fos c.pfds c.out

/-- `wasmtime_ssp_poll_oneoff`: an error, or `out` up to `*nevents`. -/
def wasmtimeSspPollOneoff (h : Host) (subs : List Subscription) : M (Except Posix.Errno (List Event)) :=
  match soleClock h subs with
  | some e => return .ok [e]
  | none =>
    if !h.mallocFos then return .error .enomem
    else if !h.mallocPfds then return .error .enomem
    else do
      log (.rdlock .table)
      let c ← convertAll ⟨[], [], none, []⟩ subs
      log (.unlock .table)
      match h.poll c.pfds (pollTimeout c.out c.clockSubscription) with
      | .error e =>
        releaseAll c.fos
        return .error e
      | .ok (ret, revents) =>
        let out ← results h subs c ret revents
        releaseAll c.fos
        return .ok out

/-! ## The shim -/

/-- What a call leaves the guest with. -/
structure Reply where
  result : Except Posix.Errno (List Event)
  memory : Nat → UInt8

/-- The guest's arguments. -/
structure Args where
  subscriptions : BitVec 32
  out : BitVec 32
  nsubscriptions : BitVec 32
  nevents : BitVec 32

/-- The decoding of the arguments. -/
def decodeArgs (g : Guest) (a : Args) : Except Posix.Errno (List Subscription) := do
  let subs ← decodeSubscriptionSlice g a.subscriptions.toNat a.nsubscriptions.toNat
  let _ ← decodeSliceOf g eventSize 8 a.out.toNat a.nsubscriptions.toNat
  let _ ← decodePtr g a.nevents.toNat 4 4
  return subs

/-- `encode_usize_byref`. -/
def encodeUsizeByref (m : Nat → UInt8) (ptr n : Nat) : Nat → UInt8 := storeAt m (ptr, leBytes 4 n)

/-- What the shim does with the events: `encode_usize` unwraps, and `encode_event` panics for an event
without a type. -/
def writeBack (g : Guest) (a : Args) (events : List Event) : M Reply :=
  if 2 ^ 32 ≤ events.length then throw .assertion
  else
    let m := encodeUsizeByref g.memory a.nevents.toNat events.length
    match encodeEventSlice a.out.toNat 0 events m with
    | none => throw .assertion
    | some memory => return ⟨.ok events, memory⟩

/-- `poll_oneoff`. -/
def pollOneoff (h : Host) (g : Guest) (a : Args) : M Reply :=
  match decodeArgs g a with
  | .error e => return ⟨.error e, g.memory⟩
  | .ok subs =>
    if subs.length ≠ a.nsubscriptions.toNat then throw .assertion
    else do
      match ← wasmtimeSspPollOneoff h subs with
      | .error e => return ⟨.error e, g.memory⟩
      | .ok events => writeBack g a events

/-! ## What there is to report -/

/-- The descriptor of a subscription. -/
def fdOf (s : Subscription) : Option (BitVec 32) :=
  match s.condition with
  | .fdRead fd => some fd
  | .fdWrite fd => some fd
  | _ => none

/-- What is polled for. -/
def pollEventsOf (s : Subscription) : BitVec 16 :=
  match s.condition with
  | .fdRead _ => pollrdnorm
  | _ => pollwrnorm

/-- A timeout: a clock that is not absolute. -/
def IsTimeout (s : Subscription) : Bool :=
  match s.condition with
  | .clock _ _ _ _ flags => flags &&& subscriptionClockAbstime = 0
  | _ => false

/-- How the lookup of a subscription's descriptor ends. -/
def lookup (w : World) (s : Subscription) : Option (Except Posix.Errno Nat) :=
  (fdOf s).map fun fd => (Posix.fdTableGetEntry w.table fd.toNat rightPollFdReadwrite 0).map Prod.snd

/-- The object of a subscription. -/
def objectOf (w : World) (s : Subscription) : Option Nat :=
  match lookup w s with
  | some (.ok fo) => some fo
  | _ => none

/-- The host descriptor of an object. -/
def numberOf (w : World) (fo : Nat) : Option Nat := (w.objects[fo]?).map FdObject.number

/-- What `poll` is asked about a subscription. -/
def pollfdOf (w : World) (s : Subscription) : Pollfd :=
  match objectOf w s with
  | some fo => ⟨numberOf w fo, pollEventsOf s⟩
  | none => ⟨none, 0⟩

/-- The error a subscription gets without a poll, after those before it: its descriptor is missing or
may not be polled, or it is neither a descriptor nor the first timeout. -/
def refusal (w : World) (earlier : List Subscription) (s : Subscription) : Option Posix.Errno :=
  match lookup w s with
  | some (.error e) => some e
  | some (.ok _) => none
  | none => if IsTimeout s && !earlier.any IsTimeout then none else some .enosys

/-- The events of a list of subscriptions, each with its position. -/
def eventsFrom (f : Nat → Subscription → Option Event) (i : Nat) (subs : List Subscription) :
    List (Nat × Event) :=
  (subs.zipIdx i).filterMap fun p => (f p.2 p.1).map (Prod.mk p.2)

/-- The subscriptions that get an event without a poll. -/
def refused (w : World) (subs : List Subscription) : List (Nat × Event) :=
  eventsFrom (fun i s => (refusal w (subs.take i) s).map fun e => eventOf s (some e)) 0 subs

/-- What `poll` says of a subscription with a descriptor. -/
def answerOf (h : Host) (w : World) (revents : Nat → BitVec 16) (i : Nat) (s : Subscription) :
    Option Event :=
  ((objectOf w s).bind (numberOf w)).bind fun number => answer s (fionread h i s number) (revents i)

/-- The events once `poll` has returned. -/
def reported (h : Host) (w : World) (subs : List Subscription) (ret : Nat)
    (revents : Nat → BitVec 16) : List (Nat × Event) :=
  if ret = 0 ∧ refused w subs = [] then
    match subs.findIdx? IsTimeout, subs.find? IsTimeout with
    | some i, some s => [(i, eventOf s none)]
    | _, _ => eventsFrom (answerOf h w revents) 0 subs
  else refused w subs ++ eventsFrom (answerOf h w revents) 0 subs

/-- **What there is to report**: the events with their subscriptions, or the error of the call. -/
def due (h : Host) (w : World) (subs : List Subscription) : Except Posix.Errno (List (Nat × Event)) :=
  match soleClock h subs with
  | some e => .ok [(0, e)]
  | none =>
    if !h.mallocFos || !h.mallocPfds then .error .enomem
    else
      (h.poll (subs.map (pollfdOf w))
          (pollTimeout ((refused w subs).map Prod.snd) (subs.find? IsTimeout))).map
        fun r => reported h w subs r.1 r.2

/-! ## Positions -/

section

variable {f g : Nat → Subscription → Option Event} {i n : Nat} {subs : List Subscription} {e : Event}

theorem mem_eventsFrom :
    (i, e) ∈ eventsFrom f 0 subs ↔ ∃ s, subs[i]? = some s ∧ f i s = some e := by
  rw [eventsFrom, List.mem_filterMap]
  constructor
  · rintro ⟨⟨s, j⟩, hp, hf⟩
    obtain ⟨e', he', heq⟩ := Option.map_eq_some_iff.mp hf
    obtain ⟨rfl, rfl⟩ := Prod.mk.inj heq
    exact ⟨s, List.mem_zipIdx_iff_getElem?.mp hp, he'⟩
  · rintro ⟨s, hs, he⟩
    exact ⟨(s, i), List.mem_zipIdx_iff_getElem?.mpr hs, by simp only [he, Option.map_some]⟩

theorem eventsFrom_cons (s : Subscription) :
    eventsFrom f n (s :: subs) = ((f n s).map (Prod.mk n)).toList ++ eventsFrom f (n + 1) subs := by
  rw [eventsFrom, List.zipIdx_cons, List.filterMap_cons]
  cases f n s with
  | none => rfl
  | some e => rfl

theorem le_of_mem_eventsFrom {p : Nat × Event} (h : p ∈ eventsFrom f n subs) : n ≤ p.1 := by
  obtain ⟨q, hq, hf⟩ := List.mem_filterMap.mp h
  obtain ⟨e', -, rfl⟩ := Option.map_eq_some_iff.mp hf
  exact List.le_snd_of_mem_zipIdx hq

/-- Each subscription has one event at most. -/
theorem nodup_eventsFrom (f : Nat → Subscription → Option Event) (n : Nat) (subs : List Subscription) :
    ((eventsFrom f n subs).map Prod.fst).Nodup := by
  induction subs generalizing n with
  | nil => exact List.nodup_nil
  | cons s subs ih =>
    rw [eventsFrom_cons]
    cases f n s with
    | none => exact ih (n + 1)
    | some e =>
      refine List.nodup_cons.mpr ⟨fun hmem => ?_, ih (n + 1)⟩
      obtain ⟨p, hp, hn⟩ := List.mem_map.mp hmem
      exact absurd (le_of_mem_eventsFrom hp) (by simp only at hn; omega)

theorem eventsFrom_append (subs' : List Subscription) :
    eventsFrom f n (subs ++ subs') = eventsFrom f n subs ++ eventsFrom f (n + subs.length) subs' := by
  rw [eventsFrom, List.zipIdx_append, List.filterMap_append]
  rfl

end

/-! ## The first loop -/

section

variable {w₀ w : World} {pre : List Subscription} {s : Subscription}

/-- The variables of the first loop after some subscriptions. -/
def conversionOf (w : World) (pre : List Subscription) : Conversion where
  fos := pre.map (objectOf w)
  pfds := pre.map (pollfdOf w)
  clockSubscription := pre.find? IsTimeout
  out := (refused w pre).map Prod.snd

theorem refused_append (w : World) (pre : List Subscription) (s : Subscription) :
    refused w (pre ++ [s]) = refused w pre ++
      ((refusal w pre s).map fun e => (pre.length, eventOf s (some e))).toList := by
  rw [refused, eventsFrom_append]
  congr 1
  · rw [refused, eventsFrom, eventsFrom]
    refine List.filterMap_congr fun p hp => ?_
    obtain ⟨hlt, -⟩ := List.getElem?_eq_some_iff.mp (List.mem_zipIdx_iff_getElem?.mp hp)
    rw [List.take_append_of_le_length hlt.le]
  · rw [eventsFrom_cons, Nat.zero_add, List.take_left]
    cases refusal w pre s <;> rfl

theorem any_eq_false_of_find? (h : pre.find? IsTimeout = none) : pre.any IsTimeout = false := by
  rw [List.any_eq_false]
  exact List.find?_eq_none.mp h

theorem any_of_find? (h : pre.find? IsTimeout ≠ none) : pre.any IsTimeout = true := by
  obtain ⟨s, hs⟩ := Option.ne_none_iff_exists'.mp h
  exact List.any_eq_true.mpr ⟨s, List.mem_of_find?_eq_some hs, List.find?_some hs⟩

theorem find?_append_one (h : IsTimeout s = true → pre.find? IsTimeout ≠ none) :
    (pre ++ [s]).find? IsTimeout = pre.find? IsTimeout := by
  rw [List.find?_append]
  cases hpre : pre.find? IsTimeout with
  | some s' => rfl
  | none =>
    cases hs : IsTimeout s with
    | true => exact absurd hpre (h hs)
    | false => simp [List.find?, hs]

/-- A subscription that gets its event in the first loop. -/
theorem conversionOf_reject {e : Posix.Errno} (hobj : objectOf w s = none) (he : refusal w pre s = some e)
    (htimeout : IsTimeout s = true → pre.find? IsTimeout ≠ none) :
    conversionOf w (pre ++ [s]) = (conversionOf w pre).reject s e := by
  have hpfd : pollfdOf w s = ⟨none, 0⟩ := by rw [pollfdOf, hobj]
  rw [conversionOf, conversionOf, Conversion.reject, find?_append_one htimeout, refused_append, he]
  simp [hobj, hpfd]

/-- The first loop after some subscriptions: it holds their objects. -/
structure Converted (w₀ : World) (pre : List Subscription) (c : Conversion) (w : World) : Prop where
  eq : c = conversionOf w₀ pre
  holding : Holding w₀ (pendingOf (pre.map (objectOf w₀))) [] w

theorem pendingOf_append (fos : List (Option Nat)) (fo : Option Nat) :
    pendingOf (fos ++ [fo]) = pendingOf fos ++ fo.toList := by
  rw [pendingOf, List.filterMap_append]
  cases fo <;> rfl

theorem objectOf_live (hlive : w.Live) {fo : Nat} (h : objectOf w s = some fo) : w.LiveObject fo := by
  rw [objectOf, lookup] at h
  cases hfd : fdOf s with
  | none =>
    rw [hfd] at h
    cases h
  | some fd =>
    rw [hfd, Option.map_some] at h
    cases hg : Posix.fdTableGetEntry w.table fd.toNat rightPollFdReadwrite 0 with
    | error e =>
      rw [hg] at h
      cases h
    | ok p =>
      rw [hg] at h
      obtain rfl : p.2 = fo := Option.some.inj h
      exact hlive.liveObject hg

theorem pendingOf_live (hlive : w.Live) {fo : Nat} (h : fo ∈ pendingOf (pre.map (objectOf w))) :
    w.LiveObject fo := by
  obtain ⟨o, ho, rfl⟩ := List.mem_filterMap.mp h
  obtain ⟨s, -, hs⟩ := List.mem_map.mp ho
  exact objectOf_live hlive hs

theorem Converted.reject {c : Conversion} {e : Posix.Errno} (h : Converted w₀ pre c w)
    (hobj : objectOf w₀ s = none) (he : refusal w₀ pre s = some e)
    (htimeout : IsTimeout s = true → pre.find? IsTimeout ≠ none) :
    Converted w₀ (pre ++ [s]) (c.reject s e) w := by
  refine ⟨by rw [h.eq, conversionOf_reject hobj he htimeout], ?_⟩
  rw [List.map_append, List.map_singleton, hobj, pendingOf_append, Option.toList_none, List.append_nil]
  exact h.holding

theorem convertFd_spec (hlive : w₀.Live) {c : Conversion} {fd : BitVec 32} {events : BitVec 16}
    (h : Converted w₀ pre c w) (hfd : fdOf s = some fd) (hevents : pollEventsOf s = events)
    (htimeout : IsTimeout s = false) :
    Returns (convertFd c s fd events) w (Converted w₀ (pre ++ [s])) := by
  have hnone : IsTimeout s = true → pre.find? IsTimeout ≠ none := by
    intro ht
    rw [htimeout] at ht
    cases ht
  unfold convertFd
  refine (h.holding.getLocked hlive fd.toNat rightPollFdReadwrite 0).bind fun r w₁ h₁ => ?_
  obtain ⟨e, rfl, hg, h₁⟩ | ⟨fe, fo, rfl, hg, hfo, h₁⟩ := h₁
  · have hlookup : lookup w₀ s = some (.error e) := by rw [lookup, hfd, Option.map_some, hg]; rfl
    have hobj : objectOf w₀ s = none := by rw [objectOf, hlookup]
    refine Returns.pure (Converted.reject ⟨h.eq, h₁⟩ hobj ?_ hnone)
    rw [refusal, hlookup]
  · have hlookup : lookup w₀ s = some (.ok fo) := by rw [lookup, hfd, Option.map_some, hg]; rfl
    have hobj : objectOf w₀ s = some fo := by rw [objectOf, hlookup]
    obtain ⟨o, ho, hfreed, -⟩ := id hfo
    refine (h₁.fdObject ho hfreed).bind ?_
    rintro o' w' ⟨rfl, -, hnumber, -⟩
    refine Returns.pure ⟨?_, ?_⟩
    · have hpfd : pollfdOf w₀ s = ⟨some o'.number, events⟩ := by
        rw [pollfdOf, hobj, hevents]
        simp only [numberOf, ho, Option.map_some, hnumber]
      have hrefusal : refusal w₀ pre s = none := by rw [refusal, hlookup]
      rw [h.eq, conversionOf, conversionOf, find?_append_one hnone, refused_append, hrefusal]
      simp [hobj, hpfd]
    · rw [List.map_append, List.map_singleton, hobj, pendingOf_append]
      exact h₁.perm (List.perm_append_singleton fo _).symm

theorem convert_spec (hlive : w₀.Live) {c : Conversion} (h : Converted w₀ pre c w) (s : Subscription) :
    Returns (convert c s) w (Converted w₀ (pre ++ [s])) := by
  obtain ⟨userdata, condition⟩ := s
  cases condition with
  | fdRead fd => exact convertFd_spec hlive h rfl rfl rfl
  | fdWrite fd => exact convertFd_spec hlive h rfl rfl rfl
  | other type => exact Returns.pure (h.reject rfl rfl fun ht => absurd ht Bool.false_ne_true)
  | clock identifier clockId timeout precision flags =>
    have hclock : c.clockSubscription = pre.find? IsTimeout := by rw [h.eq, conversionOf]
    simp only [convert]
    split
    · next hfirst =>
      have htimeout : IsTimeout ⟨userdata, .clock identifier clockId timeout precision flags⟩ = true :=
        decide_eq_true hfirst.2
      have hnone := hclock.symm.trans hfirst.1
      have hrefusal : refusal w₀ pre ⟨userdata, .clock identifier clockId timeout precision flags⟩ = none := by
        rw [refusal, htimeout, any_eq_false_of_find? hnone]
        rfl
      refine Returns.pure ⟨?_, ?_⟩
      · rw [h.eq, conversionOf, conversionOf, refused_append, hrefusal, List.find?_append, hnone]
        simp [htimeout, objectOf, pollfdOf, lookup, fdOf]
      · rw [List.map_append, List.map_singleton, pendingOf_append]
        exact (List.append_nil (pendingOf (pre.map (objectOf w₀)))).symm ▸ h.holding
    · next hlater =>
      have hearlier : IsTimeout ⟨userdata, .clock identifier clockId timeout precision flags⟩ = true →
          pre.find? IsTimeout ≠ none := fun ht hnone =>
        hlater ⟨hclock.trans hnone, of_decide_eq_true ht⟩
      refine Returns.pure (h.reject rfl ?_ hearlier)
      show (if _ then none else some Posix.Errno.enosys) = _
      refine if_neg fun hand => ?_
      obtain ⟨ht, hany⟩ := Bool.and_eq_true_iff.mp hand
      rw [any_of_find? (hearlier ht)] at hany
      cases hany

theorem convertAll_spec (hlive : w₀.Live) (subs : List Subscription) {c : Conversion}
    (h : Converted w₀ pre c w) : Returns (convertAll c subs) w (Converted w₀ (pre ++ subs)) := by
  induction subs generalizing pre c w with
  | nil => exact Returns.pure (by rwa [List.append_nil])
  | cons s subs ih =>
    refine (convert_spec hlive h s).bind fun c' w' h' => ?_
    have hall := ih h'
    rwa [List.append_assoc, List.singleton_append] at hall

end

/-! ## The second loop -/

section

variable {w₀ w : World} {pending : List Nat} {h : Host} {revents : Nat → BitVec 16}

theorem collect_spec (hlive : w₀.Live) (hw : Holding w₀ pending [] w) (i : Nat)
    (subs : List Subscription) (out : List Event) :
    Returns (collect h revents i subs (subs.map (objectOf w₀)) (subs.map (pollfdOf w₀)) out) w
      fun out' w' => out' = out ++ (eventsFrom (answerOf h w₀ revents) i subs).map Prod.snd ∧ w' = w := by
  induction subs generalizing i out with
  | nil => exact Returns.pure ⟨(List.append_nil out).symm, rfl⟩
  | cons s subs ih =>
    rw [List.map_cons, List.map_cons, eventsFrom_cons, List.map_append]
    cases hobj : objectOf w₀ s with
    | none =>
      have hanswer : answerOf h w₀ revents i s = none := by
        rw [answerOf, hobj]
        rfl
      have hpfd : pollfdOf w₀ s = ⟨none, 0⟩ := by rw [pollfdOf, hobj]
      rw [hanswer, hpfd]
      exact ih (i + 1) out
    | some fo =>
      obtain ⟨o, ho, hfreed, -⟩ := objectOf_live hlive hobj
      have hnumber : numberOf w₀ fo = some o.number := by rw [numberOf, ho, Option.map_some]
      have hanswer : answerOf h w₀ revents i s = answer s (fionread h i s o.number) (revents i) := by
        rw [answerOf, hobj, Option.bind_some, hnumber, Option.bind_some]
      have hpfd : pollfdOf w₀ s = ⟨some o.number, pollEventsOf s⟩ := by
        rw [pollfdOf, hobj]
        simp only [hnumber]
      rw [hanswer, hpfd]
      refine Returns.bind (hw.fdObject ho hfreed) ?_
      rintro o' w' ⟨rfl, -, hsame, -⟩
      rw [hsame]
      refine (ih (i + 1) _).mono ?_
      rintro out' w'' ⟨rfl, rfl⟩
      refine ⟨?_, rfl⟩
      cases answer s (fionread h i s o.number) (revents i) <;> simp

theorem results_spec (hlive : w₀.Live) (hw : Holding w₀ pending [] w) (subs : List Subscription)
    (ret : Nat) :
    Returns (results h subs (conversionOf w₀ subs) ret revents) w fun out w' =>
      out = (reported h w₀ subs ret revents).map Prod.snd ∧ w' = w := by
  rw [results, reported]
  have hall : Returns (collect h revents 0 subs (subs.map (objectOf w₀)) (subs.map (pollfdOf w₀))
      ((refused w₀ subs).map Prod.snd)) w _ := collect_spec hlive hw 0 subs _
  have hempty : (conversionOf w₀ subs).out = [] ↔ refused w₀ subs = [] := List.map_eq_nil_iff
  by_cases hnone : ret = 0 ∧ refused w₀ subs = []
  · rw [if_pos hnone, if_pos ⟨hnone.1, hempty.mpr hnone.2⟩]
    cases hfind : subs.find? IsTimeout with
    | some s =>
      have hclock : (conversionOf w₀ subs).clockSubscription = some s := hfind
      obtain ⟨i, hi⟩ : ∃ i, subs.findIdx? IsTimeout = some i := by
        rw [← Option.isSome_iff_exists, List.findIdx?_isSome]
        exact any_of_find? (by simp [hfind])
      rw [hclock, hi]
      exact Returns.pure ⟨rfl, rfl⟩
    | none =>
      have hclock : (conversionOf w₀ subs).clockSubscription = none := hfind
      rw [hclock]
      refine hall.mono ?_
      rintro out w' ⟨rfl, rfl⟩
      rw [hnone.2]
      exact ⟨by cases subs.findIdx? IsTimeout <;> rfl, rfl⟩
  · rw [if_neg hnone, if_neg fun hboth => hnone ⟨hboth.1, hempty.mp hboth.2⟩, List.map_append]
    exact hall

/-- **The two loops report what is due**, and every reference is given back, whatever the host does. -/
theorem wasmtimeSspPollOneoff_spec (hlive : w.Live) (h : Host) (subs : List Subscription) :
    Returns (wasmtimeSspPollOneoff h subs) w fun r w' =>
      r = (due h w subs).map (List.map Prod.snd) ∧ Holding w [] [] w' := by
  unfold wasmtimeSspPollOneoff due
  cases hsole : soleClock h subs with
  | some e => exact Returns.pure ⟨rfl, Holding.refl w⟩
  | none =>
    cases hfos : h.mallocFos with
    | false => exact Returns.pure ⟨rfl, Holding.refl w⟩
    | true =>
      cases hpfds : h.mallocPfds with
      | false => exact Returns.pure ⟨rfl, Holding.refl w⟩
      | true =>
        refine ((Holding.refl w).log (.rdlock .table)).bind fun _ w₁ h₁ => ?_
        have hstart : Converted w [] ⟨[], [], none, []⟩ w₁ := ⟨rfl, h₁⟩
        refine (convertAll_spec hlive subs hstart).bind ?_
        rintro c w₂ ⟨rfl, h₂⟩
        refine (h₂.log (.unlock .table)).bind fun _ w₃ h₃ => ?_
        have hrelease : ∀ {w₄ : World} (r : Except Posix.Errno (List Event)),
            Holding w (pendingOf (subs.map (objectOf w))) [] w₄ →
            Returns (do releaseAll (conversionOf w ([] ++ subs)).fos; return r) w₄
              fun r' w' => r' = r ∧ Holding w [] [] w' := by
          intro w₄ r h₄
          refine (h₄.releaseAll fun fo hfo => pendingOf_live hlive hfo).bind fun _ w₅ h₅ => ?_
          exact Returns.pure ⟨rfl, h₅⟩
        have hpoll : h.poll (subs.map (pollfdOf w))
            (pollTimeout ((refused w subs).map Prod.snd) (subs.find? IsTimeout)) =
            h.poll (conversionOf w ([] ++ subs)).pfds (pollTimeout (conversionOf w ([] ++ subs)).out
              (conversionOf w ([] ++ subs)).clockSubscription) := rfl
        rw [hpoll]
        cases h.poll (conversionOf w ([] ++ subs)).pfds (pollTimeout (conversionOf w ([] ++ subs)).out
            (conversionOf w ([] ++ subs)).clockSubscription) with
        | error e => exact hrelease (.error e) h₃
        | ok r =>
          refine (results_spec hlive h₃ subs r.1).bind ?_
          rintro out w₄ ⟨rfl, rfl⟩
          exact hrelease (.ok _) h₃

end

/-! ## Which events there are -/

/-- Subscriptions of the three types there are; the shim refuses any other. -/
def Typed (subs : List Subscription) : Prop := ∀ s ∈ subs, ∀ type, s.condition ≠ .other type

/-- Events that account for the subscriptions they are listed with. -/
structure Accounts (w : World) (subs : List Subscription) (ds : List (Nat × Event)) : Prop where
  /-- Distinct events come from distinct subscriptions. -/
  distinct : (ds.map Prod.fst).Nodup
  /-- An event carries the userdata and the type of its subscription. -/
  carries : ∀ i e, (i, e) ∈ ds → ∃ s, subs[i]? = some s ∧ e.userdata = s.userdata ∧ e.type = s.type
  /-- The event of a clock has nothing in its union. -/
  union : ∀ i e, (i, e) ∈ ds → e.type = eventtypeClock → e.nbytes = 0 ∧ e.flags = 0
  /-- A subscription whose descriptor is missing or may not be polled has one event, with that error. -/
  failing : ∀ i s error, subs[i]? = some s → lookup w s = some (.error error) →
    ∃ e, (i, e) ∈ ds ∧ e.error = errnoCode error ∧ ∀ e', (i, e') ∈ ds → e' = e
  /-- That a clock has run out is reported alone. -/
  clock : ∀ i e s, (i, e) ∈ ds → subs[i]? = some s → s.type = eventtypeClock → e.error = 0 →
    ds.length = 1

section

variable {h : Host} {w : World} {subs : List Subscription} {s : Subscription} {i : Nat} {e : Event}
  {ds : List (Nat × Event)} {revents : Nat → BitVec 16} {ret : Nat}

theorem soleClock_some (hsole : soleClock h subs = some e) :
    ∃ s error, subs = [s] ∧ e = eventOf s error ∧ fdOf s = none ∧ s.type = eventtypeClock := by
  cases subs with
  | nil => cases hsole
  | cons s rest =>
    cases rest with
    | cons s' rest => cases hsole
    | nil =>
      obtain ⟨userdata, condition⟩ := s
      cases condition with
      | clock identifier clockId timeout precision flags =>
        obtain rfl := Option.some.inj hsole
        refine ⟨⟨userdata, .clock identifier clockId timeout precision flags⟩, ?_⟩
        rw [sleep]
        cases convertClockid clockId with
        | some clock => exact ⟨_, rfl, rfl, rfl, rfl⟩
        | none => exact ⟨_, rfl, rfl, rfl, rfl⟩
      | fdRead fd => cases hsole
      | fdWrite fd => cases hsole
      | other type => cases hsole

theorem mem_refused : (i, e) ∈ refused w subs ↔
    ∃ s error, subs[i]? = some s ∧ refusal w (subs.take i) s = some error ∧
      e = eventOf s (some error) := by
  rw [refused, mem_eventsFrom]
  constructor
  · rintro ⟨s, hs, he⟩
    obtain ⟨error, herror, rfl⟩ := Option.map_eq_some_iff.mp he
    exact ⟨s, error, hs, herror, rfl⟩
  · rintro ⟨s, error, hs, herror, rfl⟩
    exact ⟨s, hs, by rw [herror, Option.map_some]⟩

/-- An answer is about a descriptor, and carries the userdata and the type of its subscription. -/
theorem answerOf_some (he : answerOf h w revents i s = some e) :
    (∃ fo, lookup w s = some (.ok fo)) ∧ e.userdata = s.userdata ∧ e.type = s.type := by
  obtain ⟨number, hnumber, hanswer⟩ := Option.bind_eq_some_iff.mp he
  obtain ⟨fo, hfo, -⟩ := Option.bind_eq_some_iff.mp hnumber
  refine ⟨⟨fo, ?_⟩, ?_⟩
  · rw [objectOf] at hfo
    split at hfo
    · next fo' hlookup =>
      obtain rfl := Option.some.inj hfo
      exact hlookup
    · cases hfo
  · rw [answer] at hanswer
    split_ifs at hanswer <;> (obtain rfl := Option.some.inj hanswer; exact ⟨rfl, rfl⟩)

theorem lookup_eq_none : lookup w s = none ↔ fdOf s = none := Option.map_eq_none_iff

theorem type_of_fdOf (hfd : fdOf s ≠ none) : s.type = eventtypeFdRead ∨ s.type = eventtypeFdWrite := by
  obtain ⟨userdata, condition⟩ := s
  cases condition with
  | fdRead fd => exact Or.inl rfl
  | fdWrite fd => exact Or.inr rfl
  | clock _ _ _ _ _ => exact absurd rfl hfd
  | other type => exact absurd rfl hfd

theorem not_clock_of_lookup {r : Except Posix.Errno Nat} (hlookup : lookup w s = some r) :
    s.type ≠ eventtypeClock := by
  have hfd : fdOf s ≠ none := fun hnone => by
    rw [lookup_eq_none.mpr hnone] at hlookup
    cases hlookup
  rcases type_of_fdOf hfd with htype | htype <;> (rw [htype]; decide)

/-- No subscription is both refused and polled. -/
theorem refused_disjoint (w : World) (subs : List Subscription) :
    ((refused w subs).map Prod.fst).Disjoint
      ((eventsFrom (answerOf h w revents) 0 subs).map Prod.fst) := by
  intro i hr ha
  obtain ⟨⟨i', e⟩, hmem, rfl⟩ := List.mem_map.mp hr
  obtain ⟨⟨j, e'⟩, hmem', hij⟩ := List.mem_map.mp ha
  obtain rfl : j = i' := hij
  obtain ⟨s, error, hs, hrefusal, -⟩ := mem_refused.mp hmem
  obtain ⟨s', hs', he'⟩ := mem_eventsFrom.mp hmem'
  obtain rfl := Option.some.inj (hs.symm.trans hs')
  obtain ⟨⟨fo, hfo⟩, -⟩ := answerOf_some he'
  rw [refusal, hfo] at hrefusal
  cases hrefusal

/-- Nothing is lost: a lookup that has failed is in the list of the refused. -/
theorem mem_refused_of_lookup {error : Posix.Errno} (hs : subs[i]? = some s)
    (hlookup : lookup w s = some (.error error)) : (i, eventOf s (some error)) ∈ refused w subs :=
  mem_refused.mpr ⟨s, error, hs, by rw [refusal, hlookup], rfl⟩

/-- The events of the refused and of the polled. -/
theorem accounts_append (w : World) (subs : List Subscription) :
    Accounts w subs (refused w subs ++ eventsFrom (answerOf h w revents) 0 subs) := by
  have hdistinct : ((refused w subs ++ eventsFrom (answerOf h w revents) 0 subs).map Prod.fst).Nodup := by
    rw [List.map_append]
    exact List.Nodup.append (nodup_eventsFrom _ 0 subs) (nodup_eventsFrom _ 0 subs)
      (refused_disjoint w subs)
  refine ⟨hdistinct, ?_, ?_, ?_, ?_⟩
  · intro i e hmem
    rcases List.mem_append.mp hmem with hmem | hmem
    · obtain ⟨s, error, hs, -, rfl⟩ := mem_refused.mp hmem
      exact ⟨s, hs, rfl, rfl⟩
    · obtain ⟨s, hs, he⟩ := mem_eventsFrom.mp hmem
      exact ⟨s, hs, (answerOf_some he).2⟩
  · intro i e hmem htype
    rcases List.mem_append.mp hmem with hmem | hmem
    · obtain ⟨s, error, -, -, rfl⟩ := mem_refused.mp hmem
      exact ⟨rfl, rfl⟩
    · obtain ⟨s, -, he⟩ := mem_eventsFrom.mp hmem
      obtain ⟨⟨fo, hfo⟩, -, hsame⟩ := answerOf_some he
      exact absurd (hsame.symm.trans htype) (not_clock_of_lookup hfo)
  · intro i s error hs hlookup
    have hmem : (i, eventOf s (some error)) ∈
        refused w subs ++ eventsFrom (answerOf h w revents) 0 subs :=
      List.mem_append_left _ (mem_refused_of_lookup hs hlookup)
    exact ⟨_, hmem, rfl, fun e' he' =>
      congrArg Prod.snd (List.inj_on_of_nodup_map hdistinct he' hmem rfl)⟩
  · intro i e s hmem hs htype herror
    rcases List.mem_append.mp hmem with hmem | hmem
    · obtain ⟨s', error, hs', hrefusal, rfl⟩ := mem_refused.mp hmem
      obtain rfl := Option.some.inj (hs.symm.trans hs')
      rw [refusal] at hrefusal
      cases hlookup : lookup w s with
      | some r => exact absurd htype (not_clock_of_lookup hlookup)
      | none =>
        -- a clock that is refused is refused with `ENOSYS`, which is not 0
        have henosys : errnoCode .enosys ≠ 0 := by decide
        simp only [hlookup] at hrefusal
        split_ifs at hrefusal
        obtain rfl := Option.some.inj hrefusal
        exact absurd herror henosys
    · obtain ⟨s', hs', he⟩ := mem_eventsFrom.mp hmem
      obtain rfl := Option.some.inj (hs.symm.trans hs')
      obtain ⟨⟨fo, hfo⟩, -⟩ := answerOf_some he
      exact absurd htype (not_clock_of_lookup hfo)

/-- A clock that is the only one to have an event. -/
theorem accounts_single {error : Option Posix.Errno} (hs : subs[i]? = some s)
    (hnone : ∀ s ∈ subs, ∀ error, lookup w s ≠ some (.error error)) :
    Accounts w subs [(i, eventOf s error)] where
  distinct := List.nodup_singleton i
  carries j e hmem := by
    obtain ⟨rfl, rfl⟩ := Prod.mk.inj (List.mem_singleton.mp hmem)
    exact ⟨s, hs, rfl, rfl⟩
  union j e hmem _ := by
    obtain ⟨rfl, rfl⟩ := Prod.mk.inj (List.mem_singleton.mp hmem)
    exact ⟨rfl, rfl⟩
  failing j s' error' hs' hlookup := absurd hlookup (hnone s' (List.mem_of_getElem? hs') error')
  clock _ _ _ _ _ _ _ := rfl

theorem reported_accounts (h : Host) (w : World) (subs : List Subscription) (ret : Nat)
    (revents : Nat → BitVec 16) : Accounts w subs (reported h w subs ret revents) := by
  rw [reported]
  split
  · next hnone =>
    have hlookup : ∀ s ∈ subs, ∀ error, lookup w s ≠ some (.error error) := by
      intro s hs error hlookup
      obtain ⟨j, hj⟩ := List.mem_iff_getElem?.mp hs
      have hmem := mem_refused_of_lookup hj hlookup
      rw [hnone.2] at hmem
      cases hmem
    split
    · next i s hi hs =>
      refine accounts_single ?_ hlookup
      rwa [List.find?_eq_bind_findIdx?_getElem?, hi, Option.bind_some] at hs
    · have happend : Accounts w subs (refused w subs ++ eventsFrom (answerOf h w revents) 0 subs) :=
        accounts_append w subs
      rwa [hnone.2, List.nil_append] at happend
  · exact accounts_append w subs

/-- **What is due accounts for the subscriptions.** -/
theorem due_accounts (hdue : due h w subs = .ok ds) : Accounts w subs ds := by
  rw [due] at hdue
  cases hsole : soleClock h subs with
  | some e =>
    rw [hsole] at hdue
    obtain rfl := Except.ok.inj hdue
    obtain ⟨s, error, rfl, rfl, hfd, -⟩ := soleClock_some hsole
    refine accounts_single rfl fun s' hs' error' hlookup => ?_
    obtain rfl := List.mem_singleton.mp hs'
    rw [lookup_eq_none.mpr hfd] at hlookup
    cases hlookup
  | none =>
    rw [hsole] at hdue
    simp only at hdue
    split at hdue
    · cases hdue
    · cases hpoll : h.poll (subs.map (pollfdOf w))
          (pollTimeout ((refused w subs).map Prod.snd) (subs.find? IsTimeout)) with
      | error e =>
        rw [hpoll] at hdue
        cases hdue
      | ok r =>
        rw [hpoll] at hdue
        obtain rfl := Except.ok.inj hdue
        exact reported_accounts h w subs r.1 r.2

/-- There are as many events as subscriptions at most. -/
theorem Accounts.length_le (hds : Accounts w subs ds) : ds.length ≤ subs.length := by
  have hsub : ds.map Prod.fst ⊆ List.range subs.length := by
    intro i hi
    obtain ⟨⟨j, e⟩, hmem, rfl⟩ := List.mem_map.mp hi
    obtain ⟨s, hs, -⟩ := hds.carries j e hmem
    exact List.mem_range.mpr (List.getElem?_eq_some_iff.mp hs).choose
  have hle := (List.subperm_of_subset hds.distinct hsub).length_le
  rwa [List.length_map, List.length_range] at hle

/-- The shim encodes every event as it is. -/
theorem Accounts.encodes (hds : Accounts w subs ds) (htyped : Typed subs) {p : Nat × Event}
    (hp : p ∈ ds) : encodeEvent p.2 = some p.2 := by
  obtain ⟨i, e⟩ := p
  obtain ⟨s, hs, -, htype⟩ := hds.carries i e hp
  rw [encodeEvent]
  by_cases hclock : e.type = eventtypeClock
  · obtain ⟨hnbytes, hflags⟩ := hds.union i e hp hclock
    rw [if_pos hclock, ← hnbytes, ← hflags]
  · have hfd : fdOf s ≠ none := by
      intro hnone
      have hother := htyped s (List.mem_of_getElem? hs)
      obtain ⟨userdata, condition⟩ := s
      cases condition with
      | clock _ _ _ _ _ => exact hclock htype
      | fdRead fd => cases hnone
      | fdWrite fd => cases hnone
      | other type => exact hother type rfl
    rw [if_neg hclock, htype, if_pos (type_of_fdOf hfd)]

end

/-! ## The whole call -/

section

variable {h : Host} {g : Guest} {a : Args} {w : World}

theorem mapM_decodeSubscription {l subs : List Subscription}
    (hl : l.mapM decodeSubscription = .ok subs) : subs = l ∧ Typed subs := by
  induction l generalizing subs with
  | nil =>
    obtain rfl : [] = subs := Except.ok.inj hl
    exact ⟨rfl, fun s hs => absurd hs List.not_mem_nil⟩
  | cons s l ih =>
    rw [List.mapM_cons] at hl
    cases hs : decodeSubscription s with
    | error e =>
      rw [hs] at hl
      cases hl
    | ok s' =>
      cases hrest : l.mapM decodeSubscription with
      | error e =>
        rw [hs, hrest] at hl
        cases hl
      | ok rest =>
        rw [hs, hrest] at hl
        obtain rfl : s' :: rest = subs := Except.ok.inj hl
        obtain ⟨rfl, htyped⟩ := ih hrest
        have hsame : s' = s ∧ ∀ type, s.condition ≠ .other type := by
          rw [decodeSubscription] at hs
          split at hs
          · cases hs
          · next hother => exact ⟨(Except.ok.inj hs).symm, hother⟩
        obtain ⟨rfl, hother⟩ := hsame
        refine ⟨rfl, fun s hs => ?_⟩
        rcases List.mem_cons.mp hs with rfl | hs
        · exact hother
        · exact htyped s hs

theorem decodeArgs_ok {subs : List Subscription} (hargs : decodeArgs g a = .ok subs) :
    subs.length = a.nsubscriptions.toNat ∧ Typed subs := by
  rw [decodeArgs] at hargs
  cases hslice : decodeSubscriptionSlice g a.subscriptions.toNat a.nsubscriptions.toNat with
  | error e =>
    rw [hslice] at hargs
    cases hargs
  | ok subs' =>
    have hsame : subs' = subs := by
      rw [hslice] at hargs
      cases hout : decodeSliceOf g eventSize 8 a.out.toNat a.nsubscriptions.toNat with
      | error e =>
        rw [hout] at hargs
        cases hargs
      | ok out =>
        rw [hout] at hargs
        cases hnevents : decodePtr g a.nevents.toNat 4 4 with
        | error e =>
          rw [hnevents] at hargs
          cases hargs
        | ok nevents =>
          rw [hnevents] at hargs
          exact Except.ok.inj hargs
    subst hsame
    rw [decodeSubscriptionSlice] at hslice
    cases hptr : decodeSliceOf g subscriptionSize 8 a.subscriptions.toNat a.nsubscriptions.toNat with
    | error e =>
      rw [hptr] at hslice
      cases hslice
    | ok ptr =>
      rw [hptr] at hslice
      obtain ⟨rfl, htyped⟩ := mapM_decodeSubscription hslice
      exact ⟨by rw [List.length_map, List.length_range], htyped⟩

/-- What a call leaves the guest with, given what is due. -/
def replyOf (h : Host) (g : Guest) (w : World) (a : Args) : Reply :=
  match decodeArgs g a with
  | .error e => ⟨.error e, g.memory⟩
  | .ok subs =>
    match due h w subs with
    | .error e => ⟨.error e, g.memory⟩
    | .ok ds =>
      ⟨.ok (ds.map Prod.snd), storeAll (encodeUsizeByref g.memory a.nevents.toNat ds.length)
        (eventWrites a.out.toNat 0 (ds.map Prod.snd))⟩

/-- **A call** returns what is due and gives back every reference, on every path. -/
theorem pollOneoff_spec (hlive : w.Live) (h : Host) (g : Guest) (a : Args) :
    Returns (pollOneoff h g a) w fun r w' => r = replyOf h g w a ∧ Holding w [] [] w' := by
  unfold pollOneoff replyOf
  cases hargs : decodeArgs g a with
  | error e => exact Returns.pure ⟨rfl, Holding.refl w⟩
  | ok subs =>
    obtain ⟨hlength, htyped⟩ := decodeArgs_ok hargs
    simp only [hlength, ne_eq, not_true_eq_false, ↓reduceIte]
    refine (wasmtimeSspPollOneoff_spec hlive h subs).bind ?_
    rintro r w' ⟨rfl, hw'⟩
    cases hdue : due h w subs with
    | error e => exact Returns.pure ⟨rfl, hw'⟩
    | ok ds =>
      have hds := due_accounts hdue
      have hshort : ¬ 2 ^ 32 ≤ (ds.map Prod.snd).length := by
        rw [List.length_map, not_le]
        exact lt_of_le_of_lt (hds.length_le.trans hlength.le) a.nsubscriptions.isLt
      have hevery : ∀ e ∈ ds.map Prod.snd, encodeEvent e = some e := by
        intro e he
        obtain ⟨p, hp, rfl⟩ := List.mem_map.mp he
        exact hds.encodes htyped hp
      have hencode : encodeEventSlice a.out.toNat 0 (ds.map Prod.snd)
          (encodeUsizeByref g.memory a.nevents.toNat ds.length) = _ := encodeEventSlice_eq 0 hevery
      show Returns (writeBack g a (ds.map Prod.snd)) w' _
      rw [writeBack, if_neg hshort]
      simp only [List.length_map, hencode]
      exact Returns.pure ⟨rfl, hw'⟩

/-- What a call owes the guest when it succeeds. -/
structure Serves (w : World) (a : Args) (subs : List Subscription) (events : List Event)
    (memory : Nat → UInt8) : Prop where
  count : events.length ≤ a.nsubscriptions.toNat
  accounts : ∃ ds, ds.map Prod.snd = events ∧ Accounts w subs ds
  /-- Event `i` is in slot `i`. -/
  found : ∀ i e, events[i]? = some e → readEvent memory (a.out.toNat + eventSize * i) = e

/-- A call returns holding nothing, and serves the guest if it succeeds. -/
def EndToEnd (h : Host) (g : Guest) (w : World) (a : Args) : Prop :=
  Returns (pollOneoff h g a) w fun r w' => Holding w [] [] w' ∧
    ∀ subs events, decodeArgs g a = .ok subs → r.result = .ok events →
      Serves w a subs events r.memory

/-- Every event but the first that is due is in its slot all the same: a slot whose number is a
multiple of 32 gets an equal event, and any other slot has held the event before. -/
def SlotsCoincide (h : Host) (g : Guest) (w : World) (a : Args) : Prop :=
  ∀ subs ds, decodeArgs g a = .ok subs → due h w subs = .ok ds → ∀ i d, 0 < i → ds[i]? = some d →
    if eventSize ∣ i then (ds[i / eventSize]?).map Prod.snd = some d.2
    else readEvent (encodeUsizeByref g.memory a.nevents.toNat ds.length)
      (a.out.toNat + eventSize * i) = d.2

/-- What is in the slots of a call's events. -/
theorem found_iff {m : Nat → UInt8} {out : Nat} {ds : List (Nat × Event)} :
    (∀ i e, (ds.map Prod.snd)[i]? = some e →
        readEvent (storeAll m (eventWrites out 0 (ds.map Prod.snd))) (out + eventSize * i) = e) ↔
      ∀ i d, 0 < i → ds[i]? = some d →
        if eventSize ∣ i then (ds[i / eventSize]?).map Prod.snd = some d.2
        else readEvent m (out + eventSize * i) = d.2 := by
  have hslot : ∀ i d, ds[i]? = some d →
      some (readEvent (storeAll m (eventWrites out 0 (ds.map Prod.snd))) (out + eventSize * i)) =
        if eventSize ∣ i then (ds[i / eventSize]?).map Prod.snd
        else some (readEvent m (out + eventSize * i)) := by
    intro i d hd
    have hi : i < (ds.map Prod.snd).length := by
      rw [List.length_map]
      exact (List.getElem?_eq_some_iff.mp hd).choose
    rw [readEvent_eventWrites hi, List.getElem?_map]
  constructor
  · intro hfound i d _ hd
    have hread := hfound i d.2 (by rw [List.getElem?_map, hd, Option.map_some])
    have hsome := hslot i d hd
    rw [hread] at hsome
    split
    · next hdvd => rw [hsome, if_pos hdvd]
    · next hdvd =>
      rw [if_neg hdvd] at hsome
      exact (Option.some.inj hsome).symm
  · intro hall i e he
    rw [List.getElem?_map] at he
    obtain ⟨d, hd, rfl⟩ := Option.map_eq_some_iff.mp he
    refine Option.some.inj ((hslot i d hd).trans ?_)
    rcases Nat.eq_zero_or_pos i with rfl | hi
    · rw [if_pos (Nat.dvd_zero eventSize), Nat.zero_div, hd, Option.map_some]
    · have hslot' := hall i d hi hd
      split
      · next hdvd => rwa [if_pos hdvd] at hslot'
      · next hdvd =>
        rw [if_neg hdvd] at hslot'
        rw [hslot']

/-- **`poll_oneoff` serves the guest** exactly when every event after the first is in its slot all the
same, in particular when one event at most is due. -/
theorem endToEnd_iff (hlive : w.Live) : EndToEnd h g w a ↔ SlotsCoincide h g w a := by
  obtain ⟨r, w', hrun, rfl, hw'⟩ := pollOneoff_spec hlive h g a
  constructor
  · rintro ⟨r', w'', hrun', -, hserves⟩ subs ds hargs hdue
    obtain ⟨rfl, rfl⟩ := EStateM.Result.ok.inj (hrun.symm.trans hrun')
    have hreply : replyOf h g w a =
        ⟨.ok (ds.map Prod.snd), storeAll (encodeUsizeByref g.memory a.nevents.toNat ds.length)
          (eventWrites a.out.toNat 0 (ds.map Prod.snd))⟩ := by
      simp only [replyOf, hargs, hdue]
    have hfound := (hserves subs (ds.map Prod.snd) hargs (by rw [hreply])).found
    rw [hreply] at hfound
    exact found_iff.mp hfound
  · intro hslots
    refine ⟨replyOf h g w a, w', hrun, hw', fun subs events hargs hresult => ?_⟩
    cases hdue : due h w subs with
    | error e =>
      simp only [replyOf, hargs, hdue] at hresult
      cases hresult
    | ok ds =>
      simp only [replyOf, hargs, hdue] at hresult ⊢
      obtain rfl := Except.ok.inj hresult
      have hds := due_accounts hdue
      refine ⟨?_, ⟨ds, rfl, hds⟩, found_iff.mpr (hslots subs ds hargs hdue)⟩
      rw [List.length_map, ← (decodeArgs_ok hargs).1]
      exact hds.length_le

end

/-- A process with two devices, the host's 10 and 11, as its descriptors 0 and 1. -/
def twoTerminals : World :=
  ⟨⟨[⟨some 0, rightPollFdReadwrite, 0⟩, ⟨some 1, rightPollFdReadwrite, 0⟩], 2⟩, [],
    [⟨1, .characterDevice, 10, false, false⟩, ⟨1, .characterDevice, 11, false, false⟩], [10, 11], []⟩

theorem twoTerminals_live : twoTerminals.Live := by
  intro fe hfe fo hfo
  rcases List.mem_cons.mp hfe with rfl | hfe
  · obtain rfl := Option.some.inj hfo
    exact ⟨_, rfl, rfl, Nat.one_pos, by decide⟩
  · obtain rfl := List.mem_singleton.mp hfe
    obtain rfl := Option.some.inj hfo
    exact ⟨_, rfl, rfl, Nat.one_pos, by decide⟩

/-- The arguments for two subscriptions. -/
def twoArgs : Args := ⟨0, 128, 2, 120⟩

/-- A host on which five bytes can be read and some written. -/
def ready : Host where
  mallocFos := true
  mallocPfds := true
  clockNanosleep _ _ _ := none
  poll _ _ := .ok (2, fun i => if i = 0 then pollrdnorm else pollwrnorm)
  ioctl _ _ := some 5

/-- A guest that waits to read descriptor 0, with the userdata 1, and to write descriptor 1, with the userdata 2.
Its second slot still has the event of an earlier call. -/
def rewriter : Guest where
  memory a :=
    if a = 0 then 1 else if a = 8 then 1
    else if a = 56 then 2 else if a = 64 then 2 else if a = 72 then 1
    else if a = 160 then 2 else if a = 170 then 2 else 0
  currentLength := some 65536

/-- Both subscriptions are due, and the guest finds the event of the second one in its slot. -/
theorem endToEnd_twoTerminals : twoTerminals.Live ∧
    due ready twoTerminals [⟨1, .fdRead 0⟩, ⟨2, .fdWrite 1⟩] =
      .ok [(0, ⟨1, 0, 1, 5, 0⟩), (1, ⟨2, 0, 2, 0, 0⟩)] ∧
    EndToEnd ready rewriter twoTerminals twoArgs := by
  have hdue : due ready twoTerminals [⟨1, .fdRead 0⟩, ⟨2, .fdWrite 1⟩] =
      .ok [(0, ⟨1, 0, 1, 5, 0⟩), (1, ⟨2, 0, 2, 0, 0⟩)] := by rfl
  have hargs : decodeArgs rewriter twoArgs = .ok [⟨1, .fdRead 0⟩, ⟨2, .fdWrite 1⟩] := by rfl
  refine ⟨twoTerminals_live, hdue, (endToEnd_iff twoTerminals_live).mpr fun subs ds hargs' hdue' i d hi hd => ?_⟩
  obtain rfl := Except.ok.inj (hargs.symm.trans hargs')
  obtain rfl := Except.ok.inj (hdue.symm.trans hdue')
  obtain rfl | hlt : i = 1 ∨ 2 ≤ i := by omega
  · obtain rfl := Option.some.inj hd
    rw [if_neg (by decide)]
    rfl
  · rw [List.getElem?_eq_none hlt] at hd
    cases hd

/-- A process without descriptors. -/
def bare : World := ⟨⟨[], 0⟩, [], [], [], []⟩

theorem bare_live : bare.Live := fun _ hfe => absurd hfe List.not_mem_nil

/-- A host that polls nothing. -/
def quiet : Host where
  mallocFos := true
  mallocPfds := true
  clockNanosleep _ _ _ := none
  poll _ _ := .ok (0, fun _ => 0)
  ioctl _ _ := none

/-- A guest that waits to read descriptor 0, with the userdata 1 and again with the userdata 2. -/
def reader : Guest where
  memory a := if a = 0 then 1 else if a = 8 then 1 else if a = 56 then 2 else if a = 64 then 1 else 0
  currentLength := some 65536

/-- Two descriptors are missing; the event of the second is not in the second slot. -/
theorem not_endToEnd_two : ¬ EndToEnd quiet reader bare twoArgs := by
  rintro ⟨r, w', hrun, -, hserves⟩
  obtain ⟨r', w'', hrun', rfl, -⟩ := pollOneoff_spec bare_live quiet reader twoArgs
  obtain ⟨rfl, rfl⟩ := EStateM.Result.ok.inj (hrun'.symm.trans hrun)
  have hargs : decodeArgs reader twoArgs = .ok [⟨1, .fdRead 0⟩, ⟨2, .fdRead 0⟩] := by rfl
  have hdue : due quiet bare [⟨1, .fdRead 0⟩, ⟨2, .fdRead 0⟩] =
      .ok [(0, ⟨1, 8, 1, 0, 0⟩), (1, ⟨2, 8, 1, 0, 0⟩)] := by rfl
  have hfound := (hserves _ [⟨1, 8, 1, 0, 0⟩, ⟨2, 8, 1, 0, 0⟩] hargs (by
    simp only [replyOf, hargs, hdue, List.map_cons, List.map_nil])).found
  simp only [replyOf, hargs, hdue] at hfound
  have hslot := (@found_iff _ _ [(0, ⟨1, 8, 1, 0, 0⟩), (1, ⟨2, 8, 1, 0, 0⟩)]).mp hfound 1 _
    Nat.one_pos rfl
  rw [if_neg (by decide)] at hslot
  exact absurd (congrArg Event.userdata hslot) (by decide)

end Wasmtime.Wasi.PollOneoff
