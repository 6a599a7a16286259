import Wasmtime.Lib.Extent
import Wasmtime.Runtime.Mmap

/-!
# Code memory

Model of `CodeMemory` (`wasmtime-jit/src/code_memory.rs`): bump allocation of executable code.

* A mapping is an `Mmap` of the runtime with the protection of its bytes. `region::protect` is called on
  whole mappings only.
* A call returns `Ok` or `Err` and leaves a state (`Called.ret`), or panics; a panic ends the run. The
  text of an `Err` is the host's.
* A block is an extent in the current mapping while it is written, and an extent of addresses when it is
  handed out (`viewAsMutVmfuncSlice`).
* `Run`: any calls in any order, with any answers of the host. The host does not map over what is mapped
  already (`MapsApart`).

Results: `Inv` and its step lemmas, one for each path of the code, and `run_sound`.
-/

namespace Wasmtime.Jit.Code

open Wasmtime.Runtime

/-! ## Mappings of code -/

/-- The protections that code memory uses. -/
inductive Protection where
  | readWrite
  | readExecute
  deriving DecidableEq, Repr

/-- An `Mmap`, with the protection of its bytes. -/
structure CodeMmap extends Mmap where
  protection : Nat → Protection

namespace CodeMmap

/-- A new mapping is readable and writable. -/
def ofMmap (m : Mmap) : CodeMmap := ⟨m, fun _ => .readWrite⟩

/-- `Mmap::new`. -/
def new : CodeMmap := ofMmap Mmap.new

/-- The addresses of a mapping. -/
def extent (m : CodeMmap) : Extent := ⟨m.ptr, m.len⟩

/-- `copy_from_slice`, into a block of the same length. -/
def copyFromSlice (m : CodeMmap) (start : Nat) (slice : List UInt8) : CodeMmap :=
  { m with bytes := fun i => if start ≤ i then slice.getD (i - start) (m.bytes i) else m.bytes i }

/-- The body of the loop of `publish`: `region::protect` with `ReadExecute`, unless the mapping is
empty. -/
def protect (m : CodeMmap) : CodeMmap :=
  if m.len ≠ 0 then
    { m with protection := fun i => if i < m.len then .readExecute else m.protection i }
  else m

/-- Every byte may be executed. -/
def Executable (m : CodeMmap) : Prop := ∀ i < m.len, m.protection i = .readExecute

end CodeMmap

/-! ## The allocator -/

/-- `CodeMemory`. -/
structure CodeMemory where
  current : CodeMmap
  mmaps : List CodeMmap
  position : Nat
  published : Nat

/-- What a call ends with: `Ok` or `Err` and the state it leaves, or a panic. -/
inductive Called (α : Type) where
  | ret (r : Option α) (c : CodeMemory)
  | panic

/-- `?` on a result. -/
def Called.andThen {α β : Type} (r : Called α) (f : α → CodeMemory → Called β) : Called β :=
  match r with
  | .ret (some a) c => f a c
  | .ret none c => .ret none c
  | .panic => .panic

namespace CodeMemory

/-- `CodeMemory::new`. -/
def new : CodeMemory where
  current := .new
  mmaps := []
  position := 0
  published := 0

/-- The end of `allocate`: the next `size` bytes of the current mapping. Slicing beyond its end is a
panic. -/
def take (c : CodeMemory) (size : Nat) : Called Extent :=
  let oldPosition := c.position
  let position := c.position + size
  if position ≤ c.current.len then .ret (some ⟨oldPosition, size⟩) { c with position } else .panic

/-- `CodeMemory::allocate`. -/
def allocate (host : Host) (os : Os) (c : CodeMemory) (size : Nat) : Called Extent :=
  if c.current.len - c.position < size then
    -- the `?` is evaluated before anything is replaced
    match Mmap.withAtLeast host os (max 0x10000 size) with
    | .ok m =>
      take { c with mmaps := c.mmaps ++ [c.current], current := .ofMmap m, position := 0 } size
    | .err _ => .ret none c
    | .panic _ => .panic
  else c.take size

/-- `view_as_mut_vmfunc_slice`: the addresses of a block of the current mapping. -/
def viewAsMutVmfuncSlice (c : CodeMemory) (block : Extent) : Extent :=
  ⟨c.current.ptr + block.start, block.len⟩

/-- The state after `copy_from_slice` into a block of the current mapping. -/
def copyFromSlice (c : CodeMemory) (block : Extent) (slice : List UInt8) : CodeMemory :=
  { c with current := c.current.copyFromSlice block.start slice }

/-- `CodeMemory::allocate_copy_of_byte_slice`. -/
def allocateCopyOfByteSlice (host : Host) (os : Os) (c : CodeMemory) (slice : List UInt8) :
    Called Extent :=
  (c.allocate host os slice.length).andThen fun new c =>
    .ret (some (c.viewAsMutVmfuncSlice new)) (c.copyFromSlice new slice)

/-- The loop of `allocate_copy_of_byte_slices`. `split_at_mut` panics when the slice is longer than the
tail. -/
def copyBlocks (c : CodeMemory) (tail : Extent) : List (List UInt8) → Called (List Extent)
  | [] => .ret (some []) c
  | slice :: slices =>
    if slice.length ≤ tail.len then
      let block : Extent := ⟨tail.start, slice.length⟩
      let nextTail : Extent := ⟨tail.start + slice.length, tail.len - slice.length⟩
      (copyBlocks (c.copyFromSlice block slice) nextTail slices).andThen fun result c =>
        .ret (some (c.viewAsMutVmfuncSlice block :: result)) c
    else .panic

/-- The `fold` over the lengths. The sum wraps in a release build. -/
def totalLen (slices : List (List UInt8)) : Nat :=
  slices.foldl (fun acc slice => (acc + slice.length) % 2 ^ 64) 0

/-- `CodeMemory::allocate_copy_of_byte_slices`. -/
def allocateCopyOfByteSlices (host : Host) (os : Os) (c : CodeMemory)
    (slices : List (List UInt8)) : Called (List Extent) :=
  (c.allocate host os (totalLen slices)).andThen fun new c => c.copyBlocks new slices

/-- `CodeMemory::publish`. A refused `region::protect` is a panic. -/
def publish (os : Os) (c : CodeMemory) : Called Unit :=
  let mmaps := c.mmaps ++ [c.current]
  let unpublished := mmaps.drop c.published
  if os.protect || unpublished.all (·.len == 0) then
    .ret (some ())
      { current := .new
        mmaps := mmaps.take c.published ++ unpublished.map CodeMmap.protect
        position := 0
        published := mmaps.length }
  else .panic

/-- The mappings that are not dropped. -/
def live (c : CodeMemory) : List CodeMmap := c.mmaps ++ [c.current]

end CodeMemory

/-! ## Runs -/

/-- A call on a `CodeMemory`. -/
inductive CodeCall where
  | allocateCopyOfByteSlice (slice : List UInt8)
  | allocateCopyOfByteSlices (slices : List (List UInt8))
  | publish

/-- A slice that was handed out, with the bytes copied into it. -/
structure Handed where
  slice : Extent
  bytes : List UInt8

namespace CodeCall

/-- What a call hands out. -/
def run (host : Host) (os : Os) (c : CodeMemory) : CodeCall → Called (List Handed)
  | allocateCopyOfByteSlice bytes =>
    (c.allocateCopyOfByteSlice host os bytes).andThen fun slice c => .ret (some [⟨slice, bytes⟩]) c
  | allocateCopyOfByteSlices slices =>
    (c.allocateCopyOfByteSlices host os slices).andThen fun result c =>
      .ret (some (List.zipWith Handed.mk result slices)) c
  | publish => (c.publish os).andThen fun _ c => .ret (some []) c

/-- The bytes a call asks for. -/
def size : CodeCall → Nat
  | allocateCopyOfByteSlice bytes => bytes.length
  | allocateCopyOfByteSlices slices => CodeMemory.totalLen slices
  | publish => 0

end CodeCall

/-- The host maps apart from what is mapped. -/
def MapsApart (host : Host) (os : Os) (c : CodeMemory) (size : Nat) : Prop :=
  ∀ ptr, os.mmap = some ptr → ∀ m ∈ c.live,
    Extent.Apart ⟨ptr, Mmap.roundUpToPageSize (max 0x10000 size) host.pageSize⟩ m.extent

/-- The states that calls lead to, with everything handed out on the way. -/
inductive Run (host : Host) : CodeMemory → List Handed → Prop where
  | new : Run host .new []
  | step {c c' : CodeMemory} {handed : List Handed} {os : Os} {call : CodeCall}
      {r : Option (List Handed)} (h : Run host c handed) (hos : MapsApart host os c call.size)
      (hret : call.run host os c = .ret r c') : Run host c' (handed ++ r.getD [])

/-- The bytes of a slice are in a mapping. -/
structure CodeMmap.Holds (m : CodeMmap) (x : Handed) : Prop where
  len : x.slice.len = x.bytes.length
  within : x.slice.Within m.extent
  bytes : ∀ (k : Nat) (b : UInt8), x.bytes[k]? = some b → m.bytes (x.slice.start + k - m.ptr) = b

/-- What is right in a state, given everything handed out so far. -/
structure CodeMemory.Sound (c : CodeMemory) (handed : List Handed) : Prop where
  /-- No two slices share a byte. -/
  apart : handed.Pairwise fun x y => x.slice.Apart y.slice
  /-- Every slice is in a mapping, and still has its bytes. -/
  kept : ∀ x ∈ handed, ∃ m ∈ c.live, m.Holds x

/-- What is right about a call that returns. -/
structure CodeCall.Sound (call : CodeCall) (r : Option (List Handed)) (c c' : CodeMemory) :
    Prop where
  /-- A failed call changes nothing. -/
  failed : r = none → c' = c
  /-- What a call hands out is in the current mapping, which is not executable anywhere. -/
  writable : ∀ hs, r = some hs → ∀ x ∈ hs,
    x.slice.Within c'.current.extent ∧ ∀ i, c'.current.protection i = .readWrite
  /-- The slices of one call follow one another in the order of their sources. -/
  contiguous : ∀ slices hs, call = .allocateCopyOfByteSlices slices → r = some hs →
    ∃ start, hs.map Handed.slice = Extent.consecutive start (slices.map List.length) ∧
      hs.map Handed.bytes = slices
  /-- After `publish` every mapping is executable. -/
  published : call = .publish → ∀ m ∈ c'.live, m.Executable

/-! ## The invariant -/

/-- Everything handed out is in the mappings before the current one, or below `top` in it. -/
structure Inv (c : CodeMemory) (top : Nat) (handed : List Handed) : Prop where
  top_le : top ≤ c.position
  position_le : c.position ≤ c.current.len
  published_le : c.published ≤ c.mmaps.length
  live_apart : c.live.Pairwise fun m m' => m.extent.Apart m'.extent
  executable : ∀ m ∈ c.mmaps.take c.published, m.Executable
  writable : ∀ i, c.current.protection i = .readWrite
  apart : handed.Pairwise fun x y => x.slice.Apart y.slice
  placed : ∀ x ∈ handed, (∃ m ∈ c.mmaps, m.Holds x) ∨
    c.current.Holds x ∧ x.slice.stop ≤ c.current.ptr + top

variable {host : Host} {os : Os} {c c' : CodeMemory} {top : Nat} {handed : List Handed}

namespace Inv

theorem new : Inv .new 0 [] where
  top_le := Nat.le_refl _
  position_le := Nat.le_refl _
  published_le := Nat.le_refl _
  live_apart := List.pairwise_singleton ..
  executable := fun _ hm => absurd hm List.not_mem_nil
  writable := fun _ => rfl
  apart := .nil
  placed := fun _ hx => absurd hx List.not_mem_nil

/-- The invariant gives what is right in a state. -/
theorem sound (h : Inv c top handed) : c.Sound handed := by
  refine ⟨h.apart, fun x hx => ?_⟩
  obtain ⟨m, hm, hholds⟩ | ⟨hholds, -⟩ := h.placed x hx
  · exact ⟨m, List.mem_append_left _ hm, hholds⟩
  · exact ⟨c.current, List.mem_append_right _ (List.mem_singleton_self _), hholds⟩

/-- Nothing is handed out above `top`. -/
theorem raise (h : Inv c top handed) {top' : Nat} (hle : top ≤ top') (hle' : top' ≤ c.position) :
    Inv c top' handed := by
  refine { h with top_le := hle', placed := fun x hx => (h.placed x hx).imp_right ?_ }
  exact fun hp => ⟨hp.1, Nat.le_trans hp.2 (Nat.add_le_add_left hle _)⟩

/-- The position may move over free bytes. -/
theorem reserve (h : Inv c top handed) {position : Nat} (hle : top ≤ position)
    (hle' : position ≤ c.current.len) : Inv { c with position } top handed :=
  { h with top_le := hle, position_le := hle' }

/-- A mapping apart from all others becomes the current one. -/
theorem grow (h : Inv c top handed) {m : Mmap}
    (hm : ∀ m' ∈ c.live, Extent.Apart ⟨m.ptr, m.len⟩ m'.extent) :
    Inv { c with mmaps := c.mmaps ++ [c.current], current := .ofMmap m, position := 0 } 0 handed where
  top_le := Nat.le_refl _
  position_le := Nat.zero_le _
  published_le := by
    rw [List.length_append]
    exact Nat.le_add_right_of_le h.published_le
  live_apart := by
    refine List.pairwise_append.mpr ⟨h.live_apart, List.pairwise_singleton .., ?_⟩
    intro m' hm' new hnew
    rw [List.mem_singleton.mp hnew]
    exact (hm m' hm').symm
  executable := by
    rw [List.take_append_of_le_length h.published_le]
    exact h.executable
  writable := fun _ => rfl
  apart := h.apart
  placed := fun x hx => .inl (h.sound.kept x hx)

end Inv

/-! ## Copying -/

/-- Copying at `start` leaves the bytes below. -/
theorem CodeMmap.Holds.copyFromSlice {m : CodeMmap} {x : Handed} {start : Nat}
    (h : m.Holds x) (hstop : x.slice.stop ≤ m.ptr + start) (slice : List UInt8) :
    (m.copyFromSlice start slice).Holds x := by
  refine ⟨h.len, h.within, fun k b hb => ?_⟩
  have hk : k < x.bytes.length := (List.getElem?_eq_some_iff.mp hb).1
  have hbelow : ¬ start ≤ x.slice.start + k - m.ptr := by
    have hlen := h.len
    have hptr : m.ptr ≤ x.slice.start := h.within.1
    rw [Extent.stop] at hstop
    omega
  exact (if_neg hbelow).trans (h.bytes k b hb)

/-- What was copied is there. -/
theorem CodeMmap.holds_copyFromSlice {m : CodeMmap} {start : Nat} {slice : List UInt8}
    (hfit : start + slice.length ≤ m.len) :
    (m.copyFromSlice start slice).Holds ⟨⟨m.ptr + start, slice.length⟩, slice⟩ := by
  refine ⟨rfl, ⟨Nat.le_add_right _ _, ?_⟩, fun k b hb => ?_⟩
  · simp only [Extent.stop, CodeMmap.extent, CodeMmap.copyFromSlice]
    omega
  · have hoff : m.ptr + start + k - m.ptr = start + k := by omega
    have hk : start + k - start = k := Nat.add_sub_cancel_left ..
    simp only [CodeMmap.copyFromSlice]
    rw [hoff, if_pos (Nat.le_add_right _ _), hk, List.getD_eq_getElem?_getD]
    change (slice[k]?).getD _ = b
    rw [hb, Option.getD_some]

/-- The next block is handed out, with its bytes copied into it. -/
theorem Inv.copy (h : Inv c top handed) {slice : List UInt8}
    (hfit : top + slice.length ≤ c.position) :
    Inv (c.copyFromSlice ⟨top, slice.length⟩ slice) (top + slice.length)
      (handed ++ [⟨c.viewAsMutVmfuncSlice ⟨top, slice.length⟩, slice⟩]) where
  top_le := hfit
  position_le := h.position_le
  published_le := h.published_le
  live_apart := by
    have hlive := List.pairwise_append.mp h.live_apart
    refine List.pairwise_append.mpr ⟨hlive.1, List.pairwise_singleton .., ?_⟩
    intro m hm new hnew
    rw [List.mem_singleton.mp hnew]
    exact hlive.2.2 m hm c.current (List.mem_singleton_self _)
  executable := h.executable
  writable := h.writable
  apart := by
    refine List.pairwise_append.mpr ⟨h.apart, List.pairwise_singleton .., fun x hx y hy => ?_⟩
    rw [List.mem_singleton.mp hy]
    obtain ⟨m, hm, hholds⟩ | ⟨-, hstop⟩ := h.placed x hx
    · have hapart := (List.pairwise_append.mp h.live_apart).2.2 m hm c.current
        (List.mem_singleton_self _)
      exact hapart.mono hholds.within
        (CodeMmap.holds_copyFromSlice (Nat.le_trans hfit h.position_le)).within
    · exact Extent.apart_of_stop_le hstop
  placed := by
    intro x hx
    obtain hx | hx := List.mem_append.mp hx
    · refine (h.placed x hx).imp_right fun hp => ⟨hp.1.copyFromSlice hp.2 slice, ?_⟩
      exact Nat.le_trans hp.2 (Nat.add_le_add_left (Nat.le_add_right _ _) _)
    · rw [List.mem_singleton.mp hx]
      refine .inr ⟨CodeMmap.holds_copyFromSlice (Nat.le_trans hfit h.position_le), ?_⟩
      exact Nat.le_of_eq (Nat.add_assoc ..)

/-! ## The calls -/

theorem Called.andThen_eq_some {α β : Type} {r : Called α} {f : α → CodeMemory → Called β} {b : β}
    (h : r.andThen f = .ret (some b) c') : ∃ a c, r = .ret (some a) c ∧ f a c = .ret (some b) c' := by
  unfold Called.andThen at h
  split at h
  · exact ⟨_, _, rfl, h⟩
  · cases h
  · cases h

/-- An error is that of the call, if what follows cannot fail. -/
theorem Called.andThen_eq_none {α β : Type} {r : Called α} {f : α → CodeMemory → Called β}
    (hf : ∀ a c, f a c ≠ .ret none c') (h : r.andThen f = .ret none c') : r = .ret none c' := by
  unfold Called.andThen at h
  split at h
  · exact absurd h (hf _ _)
  · cases h
    rfl
  · cases h

theorem take_eq (c : CodeMemory) (size : Nat) : c.take size =
    if c.position + size ≤ c.current.len then
      .ret (some ⟨c.position, size⟩) { c with position := c.position + size }
    else .panic := rfl

/-- What is taken lies from `top` on, and is in the mapping. -/
theorem Inv.take (h : Inv c c.position handed) {size : Nat} {new : Extent}
    (hret : c.take size = .ret (some new) c') :
    Inv c' new.start handed ∧ new.len = size ∧ new.stop = c'.position := by
  rw [take_eq] at hret
  split at hret
  · rename_i hfit
    cases hret
    exact ⟨h.reserve (Nat.le_add_right _ _) hfit, rfl, rfl⟩
  · cases hret

/-- The free bytes of the current mapping, or those of a new one. -/
theorem Inv.allocate (h : Inv c c.position handed) {size : Nat} (hos : MapsApart host os c size)
    {new : Extent} (hret : c.allocate host os size = .ret (some new) c') :
    Inv c' new.start handed ∧ new.len = size ∧ new.stop = c'.position := by
  unfold CodeMemory.allocate at hret
  split at hret
  · split at hret
    · rename_i m hm
      have hapart : ∀ m' ∈ c.live, Extent.Apart ⟨m.ptr, m.len⟩ m'.extent := by
        obtain hempty | hptr := Mmap.withAtLeast_ptr hm
        · intro m' _ x hx
          rw [hempty] at hx
          exact absurd hx.2 (Nat.not_lt.mpr hx.1)
        · rw [Mmap.withAtLeast_len hm]
          exact hos m.ptr hptr
      exact (h.grow hapart).take hret
    · cases hret
    · cases hret
  · exact h.take hret

/-- A failed allocation changes nothing. -/
theorem allocate_none {size : Nat} (hret : c.allocate host os size = .ret none c') : c' = c := by
  have htake : ∀ d : CodeMemory, d.take size ≠ .ret none c' := by
    intro d hd
    rw [take_eq] at hd
    split at hd <;> cases hd
  unfold CodeMemory.allocate at hret
  split at hret
  · split at hret
    · exact absurd hret (htake _)
    · cases hret
      rfl
    · cases hret
  · exact absurd hret (htake _)

theorem copyBlocks_ne_none {tail : Extent} {slices : List (List UInt8)} :
    c.copyBlocks tail slices ≠ .ret none c' := by
  induction slices generalizing c tail with
  | nil =>
    intro h
    cases h
  | cons slice slices ih =>
    intro h
    unfold CodeMemory.copyBlocks at h
    split at h
    · refine ih (Called.andThen_eq_none (fun a d hd => ?_) h)
      cases hd
    · cases h

/-- The loop keeps the mapping and the position. -/
structure SameRoom (c c' : CodeMemory) : Prop where
  extent : c'.current.extent = c.current.extent
  position : c'.position = c.position

/-- `split_at_mut` does not let the slices exceed the tail. -/
theorem sum_le_of_copyBlocks {tail : Extent} {slices : List (List UInt8)} {result : List Extent}
    (hret : c.copyBlocks tail slices = .ret (some result) c') :
    (slices.map List.length).sum ≤ tail.len := by
  induction slices generalizing c tail result with
  | nil => exact Nat.zero_le _
  | cons slice slices ih =>
    unfold CodeMemory.copyBlocks at hret
    split at hret
    · obtain ⟨rest, d, hrest, hd⟩ := Called.andThen_eq_some hret
      cases hd
      have hsum := ih hrest
      change (slices.map List.length).sum ≤ tail.len - slice.length at hsum
      rw [List.map_cons, List.sum_cons]
      omega
    · cases hret

/-- The slices are copied one after the other, from `top` on. -/
theorem Inv.copyBlocks {tail : Extent} (h : Inv c tail.start handed)
    {slices : List (List UInt8)} (hfit : tail.stop ≤ c.position) {result : List Extent}
    (hret : c.copyBlocks tail slices = .ret (some result) c') :
    (∃ top', Inv c' top' (handed ++ List.zipWith Handed.mk result slices)) ∧ SameRoom c c' ∧
      result = Extent.consecutive (c.current.ptr + tail.start) (slices.map List.length) := by
  induction slices generalizing c tail handed result with
  | nil =>
    cases hret
    rw [List.zipWith_nil_right, List.append_nil]
    exact ⟨⟨_, h⟩, ⟨rfl, rfl⟩, rfl⟩
  | cons slice slices ih =>
    unfold CodeMemory.copyBlocks at hret
    split at hret
    · rename_i hlen
      obtain ⟨rest, d, hrest, hd⟩ := Called.andThen_eq_some hret
      cases hd
      rw [Extent.stop] at hfit
      have hcopy := h.copy (Nat.le_trans (Nat.add_le_add_left hlen _) hfit)
      have hnext : tail.start + slice.length + (tail.len - slice.length) ≤ c.position := by omega
      obtain ⟨⟨top', hinv⟩, hsame, hresult⟩ := @ih _ _
        ⟨tail.start + slice.length, tail.len - slice.length⟩ hcopy hnext _ hrest
      have hptr : c'.current.ptr = c.current.ptr := congrArg Extent.start hsame.extent
      have hview : c'.viewAsMutVmfuncSlice ⟨tail.start, slice.length⟩ =
          c.viewAsMutVmfuncSlice ⟨tail.start, slice.length⟩ := by
        rw [CodeMemory.viewAsMutVmfuncSlice, hptr]
        rfl
      rw [hview]
      refine ⟨⟨top', ?_⟩, ⟨hsame.extent, hsame.position⟩, ?_⟩
      · rw [List.zipWith_cons_cons, List.append_cons]
        exact hinv
      · rw [hresult, List.map_cons, Extent.consecutive, ← Nat.add_assoc]
        rfl
    · cases hret

/-! ## Publishing -/

namespace CodeMmap

theorem protect_eq (m : CodeMmap) : ∃ protection, m.protect = { m with protection } := by
  unfold protect
  split
  · exact ⟨_, rfl⟩
  · exact ⟨m.protection, rfl⟩

theorem protect_extent (m : CodeMmap) : m.protect.extent = m.extent := by
  obtain ⟨_, h⟩ := m.protect_eq
  rw [h]
  rfl

theorem protect_executable (m : CodeMmap) : m.protect.Executable := by
  unfold protect
  split
  · exact fun i hi => if_pos hi
  · rename_i hempty
    exact fun i hi => absurd hi (by omega)

theorem Holds.protect {m : CodeMmap} {x : Handed} (h : m.Holds x) : m.protect.Holds x := by
  obtain ⟨_, heq⟩ := m.protect_eq
  rw [heq]
  exact ⟨h.len, h.within, h.bytes⟩

theorem new_executable : new.Executable := fun _ hi => absurd hi (Nat.not_lt_zero _)

end CodeMmap

/-- The mappings after `publish`. -/
def publishedMmaps (c : CodeMemory) : List CodeMmap :=
  c.live.take c.published ++ (c.live.drop c.published).map CodeMmap.protect

theorem publishedMmaps_extent (c : CodeMemory) :
    (publishedMmaps c).map CodeMmap.extent = c.live.map CodeMmap.extent := by
  have hprotect : CodeMmap.extent ∘ CodeMmap.protect = CodeMmap.extent :=
    funext CodeMmap.protect_extent
  rw [publishedMmaps, List.map_append, List.map_map, hprotect, ← List.map_append,
    List.take_append_drop]

theorem publishedMmaps_length (c : CodeMemory) : (publishedMmaps c).length = c.live.length := by
  have h := congrArg List.length (publishedMmaps_extent c)
  rwa [List.length_map, List.length_map] at h

theorem publish_eq (os : Os) (c : CodeMemory) : c.publish os =
    if os.protect || (c.live.drop c.published).all (·.len == 0) then
      .ret (some ()) ⟨.new, publishedMmaps c, 0, c.live.length⟩
    else .panic := rfl

/-- Every mapping is executable once it is published. -/
theorem Inv.publishedMmaps_executable (h : Inv c top handed) :
    ∀ m ∈ publishedMmaps c, m.Executable := by
  intro m hm
  obtain hm | hm := List.mem_append.mp hm
  · rw [CodeMemory.live, List.take_append_of_le_length h.published_le] at hm
    exact h.executable m hm
  · obtain ⟨m₀, -, rfl⟩ := List.mem_map.mp hm
    exact m₀.protect_executable

/-- What a mapping holds it holds after `publish`. -/
theorem publishedMmaps_holds {x : Handed} (h : ∃ m ∈ c.live, m.Holds x) :
    ∃ m ∈ publishedMmaps c, m.Holds x := by
  obtain ⟨m, hm, hholds⟩ := h
  rw [← List.take_append_drop c.published c.live] at hm
  obtain hm | hm := List.mem_append.mp hm
  · exact ⟨m, List.mem_append_left _ hm, hholds⟩
  · exact ⟨_, List.mem_append_right _ (List.mem_map_of_mem hm), hholds.protect⟩

/-- After `publish` every mapping is executable, and the next one is empty. -/
theorem Inv.publish (h : Inv c top handed) {u : Unit} (hret : c.publish os = .ret (some u) c') :
    Inv c' 0 handed ∧ c'.position = 0 ∧ ∀ m ∈ c'.live, m.Executable := by
  rw [publish_eq] at hret
  split at hret
  · cases hret
    refine ⟨?_, rfl, fun m hm => ?_⟩
    · constructor
      · exact Nat.le_refl _
      · exact Nat.le_refl _
      · exact Nat.le_of_eq (publishedMmaps_length c).symm
      · refine List.pairwise_append.mpr ⟨?_, List.pairwise_singleton .., fun m _ new hnew => ?_⟩
        · have hextents := List.pairwise_map.mpr h.live_apart
          rw [← publishedMmaps_extent] at hextents
          exact List.pairwise_map.mp hextents
        · rw [List.mem_singleton.mp hnew]
          exact fun x _ hx => absurd hx.2 (Nat.not_lt.mpr hx.1)
      · exact fun m hm => h.publishedMmaps_executable m (List.mem_of_mem_take hm)
      · exact fun _ => rfl
      · exact h.apart
      · exact fun x hx => .inl (publishedMmaps_holds (h.sound.kept x hx))
    · obtain hm | hm := List.mem_append.mp hm
      · exact h.publishedMmaps_executable m hm
      · rw [List.mem_singleton.mp hm]
        exact CodeMmap.new_executable
  · cases hret

/-! ## Runs -/

theorem map_slice_zipWith {result : List Extent} {slices : List (List UInt8)}
    (hlen : result.length = slices.length) :
    (List.zipWith Handed.mk result slices).map Handed.slice = result := by
  have hzip : (result.zip slices).map Prod.fst = result := List.map_fst_zip (Nat.le_of_eq hlen)
  rw [List.map_zip_eq_zipWith] at hzip
  rw [List.map_zipWith]
  exact hzip

theorem map_bytes_zipWith {result : List Extent} {slices : List (List UInt8)}
    (hlen : result.length = slices.length) :
    (List.zipWith Handed.mk result slices).map Handed.bytes = slices := by
  have hzip : (result.zip slices).map Prod.snd = slices := List.map_snd_zip (Nat.le_of_eq hlen.symm)
  rw [List.map_zip_eq_zipWith] at hzip
  rw [List.map_zipWith]
  exact hzip

/-- A call that fails leaves the state as it was, and is no `publish`. -/
theorem run_none {call : CodeCall} (hret : call.run host os c = .ret none c') :
    c' = c ∧ call ≠ .publish := by
  cases call with
  | allocateCopyOfByteSlice bytes =>
    have hcopy := Called.andThen_eq_none (fun _ _ hd => by cases hd) hret
    refine ⟨allocate_none (Called.andThen_eq_none (fun _ _ hd => by cases hd) hcopy), ?_⟩
    exact fun h => by cases h
  | allocateCopyOfByteSlices slices =>
    have hcopy := Called.andThen_eq_none (fun _ _ hd => by cases hd) hret
    refine ⟨allocate_none (Called.andThen_eq_none (fun _ _ => copyBlocks_ne_none) hcopy), ?_⟩
    exact fun h => by cases h
  | publish =>
    have hpublish := Called.andThen_eq_none (fun _ _ hd => by cases hd) hret
    rw [publish_eq] at hpublish
    split at hpublish <;> cases hpublish

theorem Inv.allocateCopyOfByteSlice (h : Inv c c.position handed) {bytes : List UInt8}
    (hos : MapsApart host os c bytes.length) {slice : Extent}
    (hret : c.allocateCopyOfByteSlice host os bytes = .ret (some slice) c') :
    Inv c' c'.position (handed ++ [⟨slice, bytes⟩]) ∧ slice.Within c'.current.extent := by
  obtain ⟨new, d, hnew, hd⟩ := Called.andThen_eq_some hret
  obtain ⟨hinv, hlen, hstop⟩ := h.allocate hos hnew
  cases hd
  have hnewEq : new = ⟨new.start, bytes.length⟩ := Extent.ext rfl hlen
  rw [Extent.stop, hlen] at hstop
  have hfit : new.start + bytes.length ≤ d.position := Nat.le_of_eq hstop
  rw [hnewEq]
  refine ⟨(hinv.copy hfit).raise hfit (Nat.le_refl _), ?_⟩
  exact (CodeMmap.holds_copyFromSlice (Nat.le_trans hfit hinv.position_le)).within

theorem Inv.allocateCopyOfByteSlices (h : Inv c c.position handed) {slices : List (List UInt8)}
    (hos : MapsApart host os c (CodeMemory.totalLen slices)) {result : List Extent}
    (hret : c.allocateCopyOfByteSlices host os slices = .ret (some result) c') :
    Inv c' c'.position (handed ++ List.zipWith Handed.mk result slices) ∧
      (∀ e ∈ result, e.Within c'.current.extent) ∧
      ∃ start, result = Extent.consecutive start (slices.map List.length) := by
  obtain ⟨new, d, hnew, hblocks⟩ := Called.andThen_eq_some hret
  obtain ⟨hinv, -, hstop⟩ := h.allocate hos hnew
  obtain ⟨⟨top', hinv'⟩, hsame, hresult⟩ := hinv.copyBlocks (Nat.le_of_eq hstop) hblocks
  have hsum := sum_le_of_copyBlocks hblocks
  refine ⟨hinv'.raise hinv'.top_le (Nat.le_refl _), fun e he => ?_, _, hresult⟩
  rw [hresult] at he
  refine (Extent.consecutive_within he).trans ?_
  rw [hsame.extent]
  refine ⟨Nat.le_add_right _ _, ?_⟩
  have hposition := hinv.position_le
  rw [Extent.stop] at hstop
  simp only [Extent.stop, CodeMmap.extent]
  omega

/-- What a call that returns does. -/
theorem Inv.run (h : Inv c c.position handed) {call : CodeCall}
    (hos : MapsApart host os c call.size) {r : Option (List Handed)}
    (hret : call.run host os c = .ret r c') :
    Inv c' c'.position (handed ++ r.getD []) ∧ call.Sound r c c' := by
  cases r with
  | none =>
    obtain ⟨rfl, hcall⟩ := run_none hret
    rw [Option.getD_none, List.append_nil]
    refine ⟨h, fun _ => rfl, fun hs hr => ?_, fun slices hs _ hr => ?_, fun hpublish => absurd hpublish hcall⟩
    · cases hr
    · cases hr
  | some handed' =>
    rw [Option.getD_some]
    cases call with
    | allocateCopyOfByteSlice bytes =>
      obtain ⟨slice, d, hslice, hd⟩ := Called.andThen_eq_some hret
      cases hd
      obtain ⟨hinv, hwithin⟩ := h.allocateCopyOfByteSlice hos hslice
      refine ⟨hinv, fun hr => ?_, fun hs hr x hx => ?_, fun slices hs hcall => ?_, fun hcall => ?_⟩
      · cases hr
      · cases hr
        rw [List.mem_singleton.mp hx]
        exact ⟨hwithin, hinv.writable⟩
      · cases hcall
      · cases hcall
    | allocateCopyOfByteSlices slices =>
      obtain ⟨result, d, hresult, hd⟩ := Called.andThen_eq_some hret
      cases hd
      obtain ⟨hinv, hwithin, start, hcons⟩ := h.allocateCopyOfByteSlices hos hresult
      have hlen : result.length = slices.length := by
        have hlens := congrArg List.length (Extent.consecutive_map_len start (slices.map List.length))
        rwa [← hcons, List.length_map, List.length_map] at hlens
      refine ⟨hinv, fun hr => ?_, fun hs hr x hx => ?_, fun slices' hs hcall hr => ?_, fun hcall => ?_⟩
      · cases hr
      · cases hr
        have hmem := List.mem_map_of_mem (f := Handed.slice) hx
        rw [map_slice_zipWith hlen] at hmem
        exact ⟨hwithin x.slice hmem, hinv.writable⟩
      · cases hcall
        cases hr
        exact ⟨start, (map_slice_zipWith hlen).trans hcons, map_bytes_zipWith hlen⟩
      · cases hcall
    | publish =>
      obtain ⟨u, d, hpublish, hd⟩ := Called.andThen_eq_some hret
      cases hd
      obtain ⟨hinv, hposition, hexec⟩ := h.publish hpublish
      rw [List.append_nil, hposition]
      refine ⟨hinv, fun hr => ?_, fun hs hr x hx => ?_, fun slices hs hcall => ?_, fun _ => hexec⟩
      · cases hr
      · cases hr
        exact absurd hx List.not_mem_nil
      · cases hcall

theorem Run.inv (h : Run host c handed) : Inv c c.position handed := by
  induction h with
  | new => exact .new
  | step _ hos hret ih => exact (ih.run hos hret).1

/-- **Code memory over any run.** In every state that calls lead to, the slices handed out so far are
apart and keep their bytes; every further call that returns is right. -/
theorem run_sound (h : Run host c handed) :
    c.Sound handed ∧
      ∀ (os : Os) (call : CodeCall) (r : Option (List Handed)) (c' : CodeMemory),
        MapsApart host os c call.size → call.run host os c = .ret r c' → call.Sound r c c' :=
  ⟨h.inv.sound, fun _ _ _ _ hos hret => (h.inv.run hos hret).2⟩

theorem pageBits_le : 12 ≤ 16 := by decide

/-- A host with pages of 4 KiB. -/
def pages : Host := ⟨12, pageBits_le⟩

/-- A host that maps above what is mapped. -/
theorem mapsApart_of_stop_le {ptr size : Nat} {protect : Bool} (h : ∀ m ∈ c.live, m.extent.stop ≤ ptr) :
    MapsApart host ⟨some ptr, protect⟩ c size := by
  intro ptr' hptr m hm
  obtain rfl := Option.some.inj hptr
  exact (Extent.apart_of_stop_le (h m hm)).symm

/-- Two functions in a mapping at 64 KiB, and after `publish` a third one in a mapping at 192 KiB. -/
def threeFunctions : List Handed :=
  [⟨⟨0x10000, 2⟩, [0x0f, 0x0b]⟩, ⟨⟨0x10002, 1⟩, [0xc3]⟩, ⟨⟨0x30000, 1⟩, [0xc3]⟩]

/-- The run up to the third function. -/
theorem run_threeFunctions : ∃ c, Run pages c threeFunctions ∧
    ∃ c', CodeCall.publish.run pages ⟨none, true⟩ c = .ret (some []) c' ∧
      c'.live.map CodeMmap.extent = [⟨1, 0⟩, ⟨0x10000, 0x10000⟩, ⟨1, 0⟩, ⟨0x30000, 0x10000⟩, ⟨1, 0⟩] := by
  have hcopied := @Run.step pages _ _ _ ⟨some 0x10000, true⟩
    (.allocateCopyOfByteSlices [[0x0f, 0x0b], [0xc3]]) (some _) .new
    (mapsApart_of_stop_le (by decide)) rfl
  have hpublished := @Run.step pages _ _ _ ⟨none, true⟩ .publish (some []) hcopied
    (fun _ h => by cases h) rfl
  have hthird := @Run.step pages _ _ _ ⟨some 0x30000, true⟩ (.allocateCopyOfByteSlice [0xc3]) (some _)
    hpublished (mapsApart_of_stop_le (by decide)) rfl
  exact ⟨_, hthird, _, rfl, rfl⟩

theorem run_sound_threeFunctions : ∃ c, Run pages c threeFunctions ∧ c.Sound threeFunctions ∧
    ∃ c', CodeCall.publish.run pages ⟨none, true⟩ c = .ret (some []) c' ∧
      c'.live.map CodeMmap.extent = [⟨1, 0⟩, ⟨0x10000, 0x10000⟩, ⟨1, 0⟩, ⟨0x30000, 0x10000⟩, ⟨1, 0⟩] ∧
      ∀ m ∈ c'.live, m.Executable := by
  obtain ⟨c, hrun, c', hpublish, hextents⟩ := run_threeFunctions
  obtain ⟨hsound, hcalls⟩ := run_sound hrun
  refine ⟨c, hrun, hsound, c', hpublish, hextents, ?_⟩
  exact (hcalls _ .publish _ _ (fun _ h => by cases h) hpublish).published rfl

end Wasmtime.Jit.Code
