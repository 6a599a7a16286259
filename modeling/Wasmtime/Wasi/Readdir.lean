import Mathlib
import Wasmtime.Lib.LittleEndian
import Wasmtime.Wasi.FdTable

/-!
# Listing a directory

Model of `fd_readdir_put` and `wasmtime_ssp_fd_readdir`
(`src/wasmtime-wasi-c/sandboxed-system-primitives/src/posix.c`), and of a guest that lists a directory
with them.

* A directory does not change: its entries are a list, and a stream stands before one of them or at the
  end. `telldir` numbers the positions, the start being `__WASI_DIRCOOKIE_START`, and `seekdir` goes back
  to the position of a number.
* Of the object there are the handle, which may be missing, and the cached offset. The lookup of the
  object, its lock and its release are in `Posix.fdReaddir`.
* The buffer is the list of the bytes written to it so far, so `*bufused` is its length.
* `fdopendir` and any `readdir` may fail, a failing `readdir` leaving the stream where it is.
* A guest reads the entries that are in a buffer completely, and goes on after the last one of them or
  starts again.

Results: `fdReaddir_spec` (a call writes the next entries of the directory, cut off at the size of the
buffer, and keeps the offset), `parse_take` (which of them a guest can read), and the headline:

* `session_lists`: in every session the guest has the first entries of the directory, in order, and has
  more of them after each call that it gives room for the next one.
-/

namespace Wasmtime.Wasi.Readdir

open LittleEndian Posix

/-! ## Directories -/

/-- `d_type`. -/
inductive DType where
  | blk | chr | dir | fifo | lnk | reg | sock | unknown
  deriving DecidableEq, Repr

/-- The `d_type` of a `__wasi_dirent_t`. -/
def DType.filetype : DType → BitVec 8
  | .blk => 1
  | .chr => 2
  | .dir => 3
  | .fifo => 6
  | .lnk => 7
  | .reg => 4
  | .sock => 6
  | .unknown => 0

/-- `struct dirent`. The name fits its array. -/
structure Dirent where
  ino : BitVec 64
  type : DType
  name : List UInt8
  name_lt : name.length < 2 ^ 32

/-- A directory that does not change. -/
structure Directory where
  entries : List Dirent
  telldir : Nat → BitVec 64
  seekdir : BitVec 64 → Nat
  telldir_zero : telldir 0 = 0
  seekdir_telldir : ∀ i, i ≤ entries.length → seekdir (telldir i) = i

/-- `directory.handle` and `directory.offset`, and where the stream is. -/
structure Stream where
  handle : Bool
  offset : BitVec 64
  position : Nat
  deriving DecidableEq, Repr

/-! ## Records -/

/-- `__wasi_dirent_t` and the name. -/
structure Record where
  next : BitVec 64
  ino : BitVec 64
  type : BitVec 8
  name : List UInt8
  deriving DecidableEq, Repr

/-- `sizeof(__wasi_dirent_t)`. -/
def headerSize : Nat := 24

/-- The bytes of a `__wasi_dirent_t`, its padding being zeros. -/
def header (r : Record) : List UInt8 :=
  leBytes 8 r.next.toNat ++ leBytes 8 r.ino.toNat ++ leBytes 4 r.name.length ++ leBytes 1 r.type.toNat ++
    leBytes 3 0

/-- The record of the entry before a position. -/
def recordOf (d : Directory) (position : Nat) (de : Dirent) : Record :=
  ⟨d.telldir position, de.ino, de.type.filetype, de.name⟩

/-! ## The call -/

/-- `fd_readdir_put`. -/
def fdReaddirPut (bufsize : Nat) (buf elem : List UInt8) : List UInt8 :=
  buf ++ elem.take (bufsize - buf.length)

/-- The arguments of a call, and which steps of it fail. -/
structure Call where
  nbyte : Nat
  fdopendir : Option Posix.Errno
  readdir : Nat → Option Posix.Errno

/-- What a call leaves behind. -/
structure Reply where
  stream : Stream
  buf : List UInt8
  error : Option Posix.Errno

theorem length_lt_fdReaddirPut {bufsize : Nat} {buf elem : List UInt8} (h : buf.length < bufsize)
    (helem : elem ≠ []) : buf.length < (fdReaddirPut bufsize buf elem).length := by
  have hpos := List.length_pos_iff.mpr helem
  rw [fdReaddirPut, List.length_append, List.length_take]
  omega

theorem length_le_fdReaddirPut (bufsize : Nat) (buf elem : List UInt8) :
    buf.length ≤ (fdReaddirPut bufsize buf elem).length := by
  rw [fdReaddirPut, List.length_append]
  exact Nat.le_add_right _ _

theorem header_ne_nil (r : Record) : header r ≠ [] := by
  intro h
  have hlength := congrArg List.length h
  simp [header] at hlength

/-- A record is copied out, its header and then its name. -/
def putRecord (bufsize : Nat) (buf : List UInt8) (r : Record) : List UInt8 :=
  fdReaddirPut bufsize (fdReaddirPut bufsize buf (header r)) r.name

theorem length_lt_putRecord {bufsize : Nat} {buf : List UInt8} (h : buf.length < bufsize) (r : Record) :
    buf.length < (putRecord bufsize buf r).length :=
  lt_of_lt_of_le (length_lt_fdReaddirPut h (header_ne_nil r)) (length_le_fdReaddirPut _ _ _)

/-- The loop, at its `k`-th `readdir`. -/
def readLoop (d : Directory) (c : Call) (s : Stream) (buf : List UInt8) (k : Nat) : Reply :=
  if buf.length < c.nbyte then
    match c.readdir k with
    | some e => ⟨s, buf, if 0 < buf.length then none else some e⟩
    | none =>
      match d.entries[s.position]? with
      | none => ⟨s, buf, none⟩
      | some de =>
        readLoop d c { s with position := s.position + 1, offset := d.telldir (s.position + 1) }
          (putRecord c.nbyte buf (recordOf d (s.position + 1) de)) (k + 1)
  else ⟨s, buf, none⟩
termination_by c.nbyte - buf.length
decreasing_by
  have hlt := length_lt_putRecord ‹buf.length < c.nbyte› (recordOf d (s.position + 1) de)
  omega

/-- The position a cookie asks for. -/
def seek (d : Directory) (cookie : BitVec 64) (s : Stream) : Stream :=
  if s.offset ≠ cookie then
    { s with position := if cookie = 0 then 0 else d.seekdir cookie, offset := cookie }
  else s

/-- `fd_readdir`. -/
def fdReaddir (d : Directory) (c : Call) (cookie : BitVec 64) (s : Stream) : Reply :=
  if s.handle then readLoop d c (seek d cookie s) [] 0
  else
    match c.fdopendir with
    | some e => ⟨s, [], some e⟩
    | none => readLoop d c (seek d cookie ⟨true, 0, 0⟩) [] 0

/-! ## The guest -/

/-- The records that are in a buffer completely. -/
def parse (buf : List UInt8) : List Record :=
  let namlen := ofLeBytes ((buf.drop 16).take 4)
  if headerSize + namlen ≤ buf.length then
    ⟨BitVec.ofNat 64 (ofLeBytes (buf.take 8)), BitVec.ofNat 64 (ofLeBytes ((buf.drop 8).take 8)),
        BitVec.ofNat 8 (ofLeBytes ((buf.drop 20).take 1)), (buf.drop headerSize).take namlen⟩ ::
      parse (buf.drop (headerSize + namlen))
  else []
termination_by buf.length
decreasing_by
  rename_i h
  rw [List.length_drop]
  simp only [headerSize] at h ⊢
  omega

/-- A guest that lists a directory: the records since it has last started, and the cookie to go on
with. -/
structure Session where
  stream : Stream
  received : List Record
  cookie : BitVec 64

/-- A call of the guest, from the start or from where it is. -/
structure Request extends Call where
  restart : Bool

/-- Where a request starts. -/
def Session.start (s : Session) (q : Request) : Session :=
  if q.restart then { s with received := [], cookie := 0 } else s

/-- The cookie after some records. -/
def cookieAfter (cookie : BitVec 64) (rs : List Record) : BitVec 64 :=
  (rs.getLast?.map Record.next).getD cookie

/-- The reply to a request. -/
def Session.reply (d : Directory) (s : Session) (q : Request) : Reply :=
  fdReaddir d q.toCall (s.start q).cookie s.stream

/-- A request is served. -/
def Session.step (d : Directory) (s : Session) (q : Request) : Session :=
  let r := s.reply d q
  let rs := if r.error = none then parse r.buf else []
  ⟨r.stream, (s.start q).received ++ rs, cookieAfter (s.start q).cookie rs⟩

/-- A session before its first request. -/
def Session.init : Session := ⟨⟨false, 0, 0⟩, [], 0⟩

/-- A session after some requests. -/
def Session.run (d : Directory) (qs : List Request) : Session := qs.foldl (Session.step d) .init

/-! ## What a call writes -/

/-- The records of a directory. -/
def listing (d : Directory) : List Record := d.entries.zipIdx.map fun p => recordOf d (p.2 + 1) p.1

/-- Records as bytes. -/
def bytes (rs : List Record) : List UInt8 := rs.flatMap fun r => header r ++ r.name

theorem bytes_cons (r : Record) (rs : List Record) :
    bytes (r :: rs) = header r ++ r.name ++ bytes rs := List.flatMap_cons

/-- Nothing fails. -/
def Call.Sound (c : Call) : Prop := c.fdopendir = none ∧ ∀ k, c.readdir k = none

section

variable {d : Directory} {c : Call} {s : Stream} {buf : List UInt8} {k i j : Nat}

theorem length_listing (d : Directory) : (listing d).length = d.entries.length := by
  rw [listing, List.length_map, List.length_zipIdx]

theorem listing_getElem? (d : Directory) (i : Nat) :
    (listing d)[i]? = (d.entries[i]?).map (recordOf d (i + 1)) := by
  rw [listing, List.getElem?_map, List.getElem?_zipIdx, Nat.zero_add, Option.map_map]
  rfl

theorem name_lt_of_mem {r : Record} (hr : r ∈ listing d) : r.name.length < 2 ^ 32 := by
  obtain ⟨p, -, rfl⟩ := List.mem_map.mp hr
  exact p.1.name_lt

theorem drop_listing {de : Dirent} (hde : d.entries[i]? = some de) :
    (listing d).drop i = recordOf d (i + 1) de :: (listing d).drop (i + 1) := by
  have hr : (listing d)[i]? = some (recordOf d (i + 1) de) := by
    rw [listing_getElem?, hde, Option.map_some]
  obtain ⟨hlt, hget⟩ := List.getElem?_eq_some_iff.mp hr
  rw [List.drop_eq_getElem_cons hlt, hget]

theorem take_take_append {α : Type} (x y : List α) (n : Nat) :
    (x.take n ++ y).take n = (x ++ y).take n := by
  rw [List.take_append, List.take_append, List.take_take, Nat.min_self, List.length_take]
  rcases Nat.le_total x.length n with hle | hle
  · rw [Nat.min_eq_right hle]
  · rw [Nat.min_eq_left hle, Nat.sub_self, Nat.sub_eq_zero_of_le hle]

theorem fdReaddirPut_eq {n : Nat} (hbuf : buf.length ≤ n) (elem : List UInt8) :
    fdReaddirPut n buf elem = (buf ++ elem).take n := by
  rw [fdReaddirPut, List.take_append, List.take_of_length_le hbuf]

theorem putRecord_eq {n : Nat} (hbuf : buf.length ≤ n) (r : Record) :
    putRecord n buf r = (buf ++ (header r ++ r.name)).take n := by
  have hle : (fdReaddirPut n buf (header r)).length ≤ n := by
    rw [fdReaddirPut_eq hbuf]
    exact List.length_take_le ..
  rw [putRecord, fdReaddirPut_eq hle, fdReaddirPut_eq hbuf, take_take_append, List.append_assoc]

/-- What the loop leaves behind: it has read `m` more entries. -/
structure Looped (d : Directory) (c : Call) (i : Nat) (before : List UInt8) (m : Nat) (r : Reply) :
    Prop where
  handle : r.stream.handle = true
  position : r.stream.position = i + m
  position_le : i + m ≤ d.entries.length
  offset : r.stream.offset = d.telldir (i + m)
  buf : r.buf = (before ++ bytes (((listing d).drop i).take m)).take c.nbyte
  stops : (∀ k, c.readdir k = none) →
    r.error = none ∧ (r.buf.length = c.nbyte ∨ i + m = d.entries.length)

theorem looped_nil {r : Reply} (hhandle : s.handle = true) (hs : s.position ≤ d.entries.length)
    (hoffset : s.offset = d.telldir s.position) (hbuf : buf.length ≤ c.nbyte) (hstream : r.stream = s)
    (hrbuf : r.buf = buf) (hstops : (∀ k, c.readdir k = none) →
      r.error = none ∧ (buf.length = c.nbyte ∨ s.position = d.entries.length)) :
    Looped d c s.position buf 0 r where
  handle := hstream ▸ hhandle
  position := hstream ▸ rfl
  position_le := hs
  offset := hstream ▸ hoffset
  buf := by
    rw [hrbuf, List.take_zero, bytes, List.flatMap_nil, List.append_nil, List.take_of_length_le hbuf]
  stops h := hrbuf ▸ hstops h

theorem readLoop_spec (hhandle : s.handle = true) (hs : s.position ≤ d.entries.length)
    (hoffset : s.offset = d.telldir s.position) (hbuf : buf.length ≤ c.nbyte) (k : Nat) :
    ∃ m, Looped d c s.position buf m (readLoop d c s buf k) := by
  fun_induction readLoop d c s buf k with
  | case1 s buf k hlt e he =>
    refine ⟨0, looped_nil hhandle hs hoffset hbuf rfl rfl fun hsound => ?_⟩
    rw [hsound k] at he
    cases he
  | case2 s buf k hlt he hend =>
    refine ⟨0, looped_nil hhandle hs hoffset hbuf rfl rfl fun _ => ⟨rfl, Or.inr ?_⟩⟩
    exact le_antisymm hs (List.getElem?_eq_none_iff.mp hend)
  | case3 s buf k hlt he de hde ih =>
    have hle : s.position + 1 ≤ d.entries.length := (List.getElem?_eq_some_iff.mp hde).choose
    have hput : (putRecord c.nbyte buf (recordOf d (s.position + 1) de)).length ≤ c.nbyte := by
      rw [putRecord_eq hbuf]
      exact List.length_take_le ..
    obtain ⟨m, hm⟩ := ih hhandle hle rfl hput
    have hstep : s.position + (m + 1) = s.position + 1 + m := by omega
    refine ⟨m + 1, hm.handle, hstep ▸ hm.position, hstep ▸ hm.position_le, hstep ▸ hm.offset, ?_,
      hstep ▸ hm.stops⟩
    rw [hm.buf, putRecord_eq hbuf, take_take_append, drop_listing hde, List.take_succ_cons, bytes_cons,
      List.append_assoc buf]
  | case4 s buf k hge =>
    refine ⟨0, looped_nil hhandle hs hoffset hbuf rfl rfl fun _ => ⟨rfl, Or.inl ?_⟩⟩
    exact le_antisymm hbuf (Nat.not_lt.mp hge)

/-! ## Seeking -/

theorem telldir_inj (hi : i ≤ d.entries.length) (hj : j ≤ d.entries.length)
    (h : d.telldir i = d.telldir j) : i = j := by
  rw [← d.seekdir_telldir i hi, h, d.seekdir_telldir j hj]

/-- The cached offset is where the stream is. -/
structure Stream.InStep (d : Directory) (s : Stream) : Prop where
  offset : s.offset = d.telldir s.position
  position_le : s.position ≤ d.entries.length

theorem seek_spec (hs : s.InStep d) (hi : i ≤ d.entries.length) :
    seek d (d.telldir i) s = ⟨s.handle, d.telldir i, i⟩ := by
  rw [seek]
  split
  · have hposition : (if d.telldir i = 0 then 0 else d.seekdir (d.telldir i)) = i := by
      split
      · next hzero =>
        exact telldir_inj (Nat.zero_le _) hi (d.telldir_zero.trans hzero.symm)
      · exact d.seekdir_telldir i hi
    rw [hposition]
  · next hsame =>
    have hoffset : s.offset = d.telldir i := not_not.mp hsame
    have hposition := telldir_inj hs.position_le hi (hs.offset.symm.trans hoffset)
    rw [← hposition, ← hs.offset]

/-- What a call leaves behind: it has written `m` entries, or what there is room for. -/
structure Served (d : Directory) (c : Call) (i m : Nat) (r : Reply) : Prop where
  inStep : r.stream.InStep d
  le : i + m ≤ d.entries.length
  buf : r.buf = (bytes (((listing d).drop i).take m)).take c.nbyte
  stops : c.Sound → r.error = none ∧ (r.buf.length = c.nbyte ∨ i + m = d.entries.length)

theorem Looped.served {m : Nat} {r : Reply} (h : Looped d c i [] m r) : Served d c i m r where
  inStep := ⟨by rw [h.offset, h.position], h.position ▸ h.position_le⟩
  le := h.position_le
  buf := h.buf
  stops hsound := h.stops hsound.2

/-- **A call** writes the entries after its cookie, cut off at the size of the buffer. -/
theorem fdReaddir_spec (hs : s.InStep d) (c : Call) (hi : i ≤ d.entries.length) :
    ∃ m, Served d c i m (fdReaddir d c (d.telldir i) s) := by
  have hempty : ([] : List UInt8).length ≤ c.nbyte := Nat.zero_le _
  obtain ⟨m, hm⟩ := readLoop_spec (s := ⟨true, d.telldir i, i⟩) rfl hi rfl hempty 0
  rw [fdReaddir]
  split
  · next hhandle =>
    rw [seek_spec hs hi, hhandle]
    exact ⟨m, hm.served⟩
  · split
    · next e he =>
      have hnone : bytes [] = [] := rfl
      refine ⟨0, hs, hi, by rw [List.take_zero, hnone, List.take_nil], fun hsound => ?_⟩
      rw [hsound.1] at he
      cases he
    · have hstart : Stream.InStep d ⟨true, 0, 0⟩ := ⟨d.telldir_zero.symm, Nat.zero_le _⟩
      rw [seek_spec hstart hi]
      exact ⟨m, hm.served⟩

end

/-! ## What the guest reads -/

section

variable {d : Directory} {r : Record} {rs : List Record}

theorem length_header (r : Record) : (header r).length = headerSize := by
  simp only [header, List.length_append, length_leBytes, headerSize]

/-- The length of a name is in its header. -/
theorem namlen_eq (hname : r.name.length < 2 ^ 32) (rest : List UInt8) {n : Nat} (hn : 20 ≤ n) :
    ofLeBytes ((((header r ++ rest).take n).drop 16).take 4) = r.name.length := by
  have hfield : ((header r ++ rest).drop 16).take 4 = leBytes 4 r.name.length := rfl
  rw [List.drop_take, List.take_take, Nat.min_eq_left (by omega), hfield, ofLeBytes_leBytes,
    Nat.mod_eq_of_lt (lt_of_lt_of_eq hname (by decide))]

theorem ofNat_field {w n : Nat} (x : BitVec w) (h : 2 ^ w = 256 ^ n) :
    BitVec.ofNat w (ofLeBytes (leBytes n x.toNat)) = x := by
  rw [ofLeBytes_leBytes, ← h, Nat.mod_eq_of_lt x.isLt, BitVec.ofNat_toNat, BitVec.setWidth_eq]

/-- A record that is there completely is read, and then what follows. -/
theorem parse_cons (hname : r.name.length < 2 ^ 32) (rest : List UInt8) :
    parse (header r ++ r.name ++ rest) = r :: parse rest := by
  have hlength : (header r ++ r.name ++ rest).length = headerSize + r.name.length + rest.length := by
    rw [List.length_append, List.length_append, length_header]
  have hnamlen : ofLeBytes (((header r ++ r.name ++ rest).drop 16).take 4) = r.name.length := by
    have h := namlen_eq hname (r.name ++ rest) (n := (header r ++ r.name ++ rest).length)
      (by rw [hlength, headerSize]; omega)
    rwa [← List.append_assoc, List.take_length] at h
  have hdrop : (header r ++ r.name ++ rest).drop (headerSize + r.name.length) = rest := by
    rw [← length_header r, ← List.length_append, List.drop_left]
  have hfields : ((header r ++ r.name ++ rest).drop headerSize).take r.name.length = r.name := by
    rw [← length_header r, List.append_assoc, List.drop_left, List.take_left]
  have hnext : (header r ++ r.name ++ rest).take 8 = leBytes 8 r.next.toNat := rfl
  have hino : ((header r ++ r.name ++ rest).drop 8).take 8 = leBytes 8 r.ino.toNat := rfl
  have htype : ((header r ++ r.name ++ rest).drop 20).take 1 = leBytes 1 r.type.toNat := rfl
  rw [parse]
  simp only [hnamlen]
  rw [if_pos (by omega), hdrop, hfields, hnext, hino, htype, ofNat_field _ (by decide),
    ofNat_field _ (by decide), ofNat_field _ (by decide)]

/-- A record that is cut off is not read. -/
theorem parse_short (hname : r.name.length < 2 ^ 32) (rest : List UInt8) {n : Nat}
    (hn : n < headerSize + r.name.length) : parse ((header r ++ rest).take n) = [] := by
  rw [parse]
  refine if_neg fun hle => ?_
  have hlength : ((header r ++ rest).take n).length ≤ n := List.length_take_le ..
  rcases Nat.lt_or_ge n 20 with hlt | hge
  · simp only [headerSize] at hle
    omega
  · rw [namlen_eq hname rest hge] at hle
    omega

/-- **What the guest can read** of records that are cut off somewhere: the first ones, and the very first
when there is room for it. -/
theorem parse_take (hnames : ∀ r ∈ rs, r.name.length < 2 ^ 32) (n : Nat) :
    ∃ j, j ≤ rs.length ∧ parse ((bytes rs).take n) = rs.take j ∧
      ∀ r, rs[0]? = some r → headerSize + r.name.length ≤ n → 0 < j := by
  induction rs generalizing n with
  | nil =>
    have hempty : parse [] = [] := by
      rw [parse]
      exact if_neg (by simp [headerSize])
    refine ⟨0, Nat.le_refl _, ?_, fun r hr => by cases hr⟩
    rw [bytes, List.flatMap_nil, List.take_nil, hempty, List.take_nil]
  | cons r rs ih =>
    have hname := hnames r List.mem_cons_self
    rw [bytes_cons]
    rcases Nat.lt_or_ge n (headerSize + r.name.length) with hlt | hge
    · refine ⟨0, Nat.zero_le _, ?_, fun r' hr' hroom => ?_⟩
      · rw [List.append_assoc, parse_short hname _ hlt, List.take_zero]
      · obtain rfl := Option.some.inj hr'
        exact absurd hroom hlt.not_ge
    · obtain ⟨j, hj, hparse, -⟩ := ih (fun r' hr' => hnames r' (List.mem_cons_of_mem _ hr'))
        (n - (headerSize + r.name.length))
      have hlength : (header r ++ r.name).length = headerSize + r.name.length := by
        rw [List.length_append, length_header]
      refine ⟨j + 1, Nat.succ_le_succ hj, ?_, fun _ _ _ => Nat.succ_pos j⟩
      rw [List.take_append, hlength, List.take_of_length_le (hlength.le.trans hge), parse_cons hname,
        hparse, List.take_succ_cons]

end

/-! ## Sessions -/

/-- What holds between two requests. -/
structure Session.Good (d : Directory) (s : Session) : Prop where
  inStep : s.stream.InStep d
  length_le : s.received.length ≤ d.entries.length
  received : s.received = (listing d).take s.received.length
  cookie : s.cookie = d.telldir s.received.length

/-- A request that can bring the guest further: nothing fails, and the buffer holds the next entry. -/
def Session.Roomy (d : Directory) (s : Session) (q : Request) : Prop :=
  q.toCall.Sound ∧ ∀ r, (listing d)[(s.start q).received.length]? = some r →
    headerSize + r.name.length ≤ q.nbyte

/-- Requests that go on, each of which can bring the guest further. -/
def Session.AllRoomy (d : Directory) : Session → List Request → Prop
  | _, [] => True
  | s, q :: qs => q.restart = false ∧ s.Roomy d q ∧ AllRoomy d (s.step d q) qs

section

variable {d : Directory} {s : Session} {q : Request} {i j : Nat}

theorem Session.Good.init (d : Directory) : Session.Good d .init where
  inStep := ⟨d.telldir_zero.symm, Nat.zero_le _⟩
  length_le := Nat.zero_le _
  received := rfl
  cookie := d.telldir_zero.symm

theorem Session.Good.start (hs : s.Good d) (q : Request) : (s.start q).Good d := by
  rw [Session.start]
  split
  · exact ⟨hs.inStep, Nat.zero_le _, rfl, d.telldir_zero.symm⟩
  · exact hs

theorem cookieAfter_take (hi : i + j ≤ d.entries.length) :
    cookieAfter (d.telldir i) (((listing d).drop i).take j) = d.telldir (i + j) := by
  cases j with
  | zero => rfl
  | succ j =>
    have hlt : i + j < d.entries.length := by omega
    have hlast : (((listing d).drop i).take (j + 1)).getLast? =
        some (recordOf d (i + j + 1) d.entries[i + j]) := by
      have hlength : (((listing d).drop i).take (j + 1)).length = j + 1 := by
        rw [List.length_take, List.length_drop, length_listing]
        omega
      rw [List.getLast?_eq_getElem?, hlength, Nat.add_sub_cancel,
        List.getElem?_take_of_lt (Nat.lt_succ_self j), List.getElem?_drop, listing_getElem?,
        List.getElem?_eq_getElem hlt, Option.map_some]
    rw [cookieAfter, hlast]
    rfl

/-- A request reads the next `j` entries, and one at least when it can bring the guest further. -/
theorem Session.Good.step (hs : s.Good d) (q : Request) :
    ∃ j, (s.step d q).Good d ∧ (s.step d q).received.length = (s.start q).received.length + j ∧
      (s.Roomy d q → (s.start q).received.length < d.entries.length → 0 < j) := by
  obtain ⟨hinStep, hle, hreceived, hcookie⟩ := hs.start q
  obtain ⟨m, hm⟩ := fdReaddir_spec hs.inStep q.toCall hle
  rw [← hcookie] at hm
  have hnames : ∀ r ∈ ((listing d).drop (s.start q).received.length).take m, r.name.length < 2 ^ 32 :=
    fun r hr => name_lt_of_mem (List.mem_of_mem_drop (List.mem_of_mem_take hr))
  obtain ⟨j, hj, hparse, hfirst⟩ := parse_take hnames q.nbyte
  have hjm : j ≤ m := hj.trans (List.length_take_le ..)
  have hread : ∃ j', j' ≤ m ∧ (if (s.reply d q).error = none then parse (s.reply d q).buf else []) =
      ((listing d).drop (s.start q).received.length).take j' ∧
      ((s.reply d q).error = none → j' = j) := by
    split
    · refine ⟨j, hjm, ?_, fun _ => rfl⟩
      rw [Session.reply, hm.buf, hparse, List.take_take, Nat.min_eq_left hjm]
    · next herror => exact ⟨0, Nat.zero_le _, rfl, fun hnone => absurd hnone herror⟩
  obtain ⟨j', hj', hrecords, hsame⟩ := hread
  have hroom : (s.start q).received.length + j' ≤ d.entries.length :=
    (Nat.add_le_add_left hj' _).trans hm.le
  have hstep : (s.step d q).received = (listing d).take ((s.start q).received.length + j') := by
    rw [Session.step, List.take_add, ← hreceived, hrecords]
  have hlength : (s.step d q).received.length = (s.start q).received.length + j' := by
    rw [hstep, List.length_take, length_listing, Nat.min_eq_left hroom]
  refine ⟨j', ⟨hm.inStep, hlength ▸ hroom, by rw [hlength, ← hstep], ?_⟩, hlength, fun hroomy hlt => ?_⟩
  · have hnext := cookieAfter_take hroom
    rw [← hcookie, ← hrecords] at hnext
    rw [hlength, ← hnext]
    rfl
  · obtain ⟨herror, hstops⟩ := hm.stops hroomy.1
    rw [hsame herror]
    have hr : (listing d)[(s.start q).received.length]? =
        some (recordOf d ((s.start q).received.length + 1) d.entries[(s.start q).received.length]) := by
      rw [listing_getElem?, List.getElem?_eq_getElem hlt, Option.map_some]
    have hfits := hroomy.2 _ hr
    have hm0 : 0 < m := by
      rcases Nat.eq_zero_or_pos m with rfl | hpos
      · have hnil : (fdReaddir d q.toCall (s.start q).cookie s.stream).buf.length = 0 := by
          rw [hm.buf, List.take_zero, bytes, List.flatMap_nil, List.take_nil, List.length_nil]
        simp only [headerSize] at hfits
        omega
      · exact hpos
    refine hfirst _ ?_ hfits
    rw [List.getElem?_take_of_lt hm0, List.getElem?_drop, Nat.add_zero, hr]

theorem Session.Good.run (d : Directory) (qs : List Request) : (Session.run d qs).Good d := by
  induction qs using List.reverseRecOn with
  | nil => exact .init d
  | append_singleton qs q ih =>
    rw [Session.run, List.foldl_append]
    obtain ⟨j, hgood, -⟩ := ih.step q
    exact hgood

/-- Requests that go on and can bring the guest further bring it further, one entry each at least. -/
theorem Session.Good.progress (hs : s.Good d) {qs : List Request} (hqs : s.AllRoomy d qs) :
    (qs.foldl (Session.step d) s).Good d ∧
      min d.entries.length (s.received.length + qs.length) ≤
        (qs.foldl (Session.step d) s).received.length := by
  induction qs generalizing s with
  | nil => exact ⟨hs, Nat.min_le_right _ _⟩
  | cons q qs ih =>
    obtain ⟨hgo, hroomy, hrest⟩ := hqs
    obtain ⟨j, hgood, hlength, hmore⟩ := hs.step q
    have hstart : s.start q = s := by
      rw [Session.start, hgo]
      rfl
    rw [hstart] at hlength hmore
    obtain ⟨hgood', hle⟩ := ih hgood hrest
    refine ⟨hgood', le_trans ?_ hle⟩
    rw [List.length_cons]
    rcases Nat.lt_or_ge s.received.length d.entries.length with hlt | hge
    · have := hmore hroomy hlt
      omega
    · omega

end

/-- What the guest can rely on in a session. -/
structure Session.Lists (d : Directory) (s : Session) : Prop where
  /-- The guest has the first entries of the directory, each once and in order. -/
  received : s.received = (listing d).take s.received.length
  /-- The cached offset is the position of the stream. -/
  offset : s.stream.offset = d.telldir s.stream.position
  /-- A call never says that it has used more than the buffer. -/
  bufused : ∀ q, (s.reply d q).buf.length ≤ q.nbyte
  /-- A call writes the next entries, and fills the buffer where it cuts the last of them off. -/
  truncated : ∀ q, ∃ m, let rs := ((listing d).drop (s.start q).received.length).take m
    (s.reply d q).buf = (bytes rs).take q.nbyte ∧
      ((s.reply d q).buf ≠ bytes rs → (s.reply d q).buf.length = q.nbyte)
  /-- After a restart, requests that hold the next entry each give the whole directory in the end. -/
  complete : ∀ q qs, q.restart = true → s.Roomy d q → (s.step d q).AllRoomy d qs →
    d.entries.length ≤ qs.length + 1 → (qs.foldl (Session.step d) (s.step d q)).received = listing d

/-- **Every session lists the directory.** -/
theorem session_lists (d : Directory) (qs : List Request) : (Session.run d qs).Lists d := by
  have hs := Session.Good.run d qs
  have hserved : ∀ q, ∃ m, Served d q.toCall ((Session.run d qs).start q).received.length m
      ((Session.run d qs).reply d q) := by
    intro q
    have hstart := hs.start q
    obtain ⟨m, hm⟩ := fdReaddir_spec hs.inStep q.toCall hstart.length_le
    rw [← hstart.cookie] at hm
    exact ⟨m, hm⟩
  refine ⟨hs.received, hs.inStep.offset, fun q => ?_, fun q => ?_, fun q qs' hrestart hroomy hqs hle => ?_⟩
  · obtain ⟨m, hm⟩ := hserved q
    rw [hm.buf]
    exact List.length_take_le ..
  · obtain ⟨m, hm⟩ := hserved q
    refine ⟨m, hm.buf, fun hcut => ?_⟩
    rw [hm.buf] at hcut ⊢
    rw [List.length_take]
    refine Nat.min_eq_left (Nat.not_lt.mp fun hlt => hcut ?_)
    exact List.take_of_length_le hlt.le
  · obtain ⟨j, hgood, hlength, hmore⟩ := hs.step q
    obtain ⟨hgood', hprogress⟩ := hgood.progress hqs
    have hzero : ((Session.run d qs).start q).received.length = 0 := by
      rw [Session.start, hrestart]
      rfl
    rw [hzero] at hlength hmore
    have hall : d.entries.length ≤
        (qs'.foldl (Session.step d) ((Session.run d qs).step d q)).received.length := by
      rcases Nat.eq_zero_or_pos d.entries.length with hnone | hpos
      · omega
      · have := hmore hroomy hpos
        omega
    rw [hgood'.received, List.take_of_length_le (by rw [length_listing]; exact hall)]

/-! ### A directory with numbered positions -/

/-- `.`, `ab` and `c`. -/
def shelfEntries : List Dirent :=
  [⟨11, .dir, [46], Nat.le_of_ble_eq_true rfl⟩, ⟨12, .reg, [97, 98], Nat.le_of_ble_eq_true rfl⟩,
    ⟨13, .lnk, [99], Nat.le_of_ble_eq_true rfl⟩]

theorem shelf_seekdir (i : Nat) (hi : i ≤ shelfEntries.length) :
    (BitVec.ofNat 64 (512 * i)).toNat / 512 = i := by
  have hle : i ≤ 3 := hi
  rw [BitVec.toNat_ofNat, Nat.mod_eq_of_lt (by omega)]
  omega

/-- Its `telldir` counts in steps of 512. -/
def shelf : Directory where
  entries := shelfEntries
  telldir i := BitVec.ofNat 64 (512 * i)
  seekdir cookie := cookie.toNat / 512
  telldir_zero := rfl
  seekdir_telldir := shelf_seekdir

/-- A request with a buffer of this size. -/
def request (restart : Bool) (nbyte : Nat) : Request := ⟨⟨nbyte, none, fun _ => none⟩, restart⟩

theorem shelf_names (r : Record) (hr : r ∈ listing shelf) : headerSize + r.name.length ≤ 26 := by
  revert r
  decide

theorem roomy_request (s : Session) (restart : Bool) : s.Roomy shelf (request restart 26) :=
  ⟨⟨rfl, fun _ => rfl⟩, fun r hr => shelf_names r (List.mem_of_getElem? hr)⟩

theorem reply_cut : Session.init.reply shelf (request false 40) =
    ⟨⟨true, 1024, 2⟩, (bytes (listing shelf)).take 40, none⟩ := by
  simp [Session.reply, fdReaddir, seek, readLoop, shelf, shelfEntries, request, Session.start, Session.init,
    putRecord, fdReaddirPut, header, recordOf]
  decide

theorem parse_cut : parse ((bytes (listing shelf)).take 40) = (listing shelf).take 1 := by
  rw [parse, parse]
  decide

/-- The first request is cut off in the header of the second entry. Another starts again, and two more go on
to the end. -/
theorem session_lists_shelf :
    (Session.init.reply shelf (request false 40)).buf = (bytes (listing shelf)).take 40 ∧
      (Session.run shelf [request false 40]).received = (listing shelf).take 1 ∧
      ([request false 26, request false 26].foldl (Session.step shelf)
        ((Session.run shelf [request false 40]).step shelf (request true 26))).received = listing shelf := by
  refine ⟨by rw [reply_cut], ?_, ?_⟩
  · change (Session.init.step shelf (request false 40)).received = _
    rw [Session.step, reply_cut, if_pos rfl, parse_cut]
    rfl
  · exact (session_lists shelf [request false 40]).complete (request true 26) _ rfl (roomy_request _ _)
      ⟨rfl, roomy_request _ _, rfl, roomy_request _ _, trivial⟩ (Nat.le_refl 3)

end Wasmtime.Wasi.Readdir
