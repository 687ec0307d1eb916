-- How the kernel reads an entry, for the ten calls whose fields mean something
-- else in each of them, and which calls it reads as the caller meant them.
import Iouring.Prepare

open counter machine

namespace iouring.submit_queue

/-! ## The reader -/

/-- The memory of the process, which the kernel reads where a field is an address. -/
def Memory : Type := UInt64 → UInt8

/-- Four bytes as a number, the least significant one first. -/
def word32 (b0 b1 b2 b3 : UInt8) : UInt32 :=
  UInt32.ofNat (b0.toNat + 2 ^ 8 * b1.toNat + 2 ^ 16 * b2.toNat + 2 ^ 24 * b3.toNat)

def Memory.uint32 (mem : Memory) (a : UInt64) : UInt32 :=
  word32 (mem a) (mem (a + 1)) (mem (a + 2)) (mem (a + 3))

def Memory.int64 (mem : Memory) (a : UInt64) : Int64 :=
  (UInt64.ofNat ((mem.uint32 a).toNat + 2 ^ 32 * (mem.uint32 (a + 4)).toNat)).toInt64

/-- The bytes of a string. -/
def Memory.bytes (mem : Memory) : UInt64 → Nat → List UInt8
  | _, 0 => []
  | a, n + 1 => mem a :: mem.bytes (a + 1) n

/-- The bytes up to the first NUL, if there is one in the next `n`. -/
def Memory.cstring (mem : Memory) : Nat → UInt64 → Option (List UInt8)
  | 0, _ => none
  | n + 1, a => if mem a = 0 then some [] else (mem.cstring n (a + 1)).map (mem a :: ·)

/-- What the caller asks for. An address is that of the object. -/
inductive Request where
  | accept (fd : Int64) (addr : UInt64) (addrlen : UInt32) (flags : Int64)
  | connect (fd : Int64) (addr addrlen : UInt64)
  | fallocate (fd : Int64) (mode : UInt32) (offset length : Int64)
  | fadvise (fd : Int64) (offset : UInt64) (length : UInt32) (advice : Int64)
  | fsync (fd flags : Int64)
  | pollAdd (fd events : Int64)
  | timeout (timespec : UInt64) (count flags : Int64)
  | timeoutRemove (target : UInt64) (flags : Int64)
  | statx (dirfd : Int64) (path : List UInt8) (flags mask : Int64) (buffer : UInt64)
  | splice (fdIn offIn fdOut offOut length flags : Int64)
  deriving DecidableEq, Repr

/-- How the kernel reads an entry. Bytes 44 to 47 are those from 4 on of `Anon0`. -/
def decode (mem : Memory) (e : SubmitEntry) : Option Request :=
  let fd := e.fd.toInt64
  let len := e.len.toUInt64.toInt64
  let flags := e.uflags.toInt64
  if e.opcode = Opcode.accept.code then some (.accept fd e.addr (mem.uint32 e.offset) flags)
  else if e.opcode = Opcode.connect.code then
    if e.len = 0 then some (.connect fd e.addr e.offset) else none
  else if e.opcode = Opcode.fallocate.code then
    some (.fallocate fd e.len e.offset.toInt64 e.addr.toInt64)
  else if e.opcode = Opcode.fadvise.code then some (.fadvise fd e.offset e.len flags)
  else if e.opcode = Opcode.fsync.code then some (.fsync fd flags)
  else if e.opcode = Opcode.pollAdd.code then some (.pollAdd fd flags)
  else if e.opcode = Opcode.timeout.code then
    if e.len = 1 then some (.timeout e.addr e.offset.toInt64 flags) else none
  else if e.opcode = Opcode.timeoutRemove.code then some (.timeoutRemove e.addr flags)
  else if e.opcode = Opcode.statx.code then
    if e.addr = 0 then none
    else (mem.cstring (2 ^ 64) e.addr).map fun path => .statx fd path flags len e.offset
  else if e.opcode = Opcode.splice.code then
    let fdIn := word32 e.anon0[4] e.anon0[5] e.anon0[6] e.anon0[7]
    some (.splice fdIn.toInt32.toInt64 e.addr.toInt64 fd e.offset.toInt64 len flags)
  else none

/-! ## What the caller means -/

/-- The offset that a parameter of `PrepareSplice` stands for, -1 for nil. -/
def Memory.offset (mem : Memory) (r : Ref) : Int64 := if r.obj = 0 then -1 else mem.int64 r.obj

/-- The request of a call, for the ten calls. -/
def Prepare.request (mem : Memory) : Prepare → Option Request
  | .accept fd addr socklen flags => some (.accept fd addr.obj socklen flags)
  | .connect fd addr socklen => some (.connect fd addr.obj socklen.toUInt64)
  | .fallocate fd mode offset n => some (.fallocate fd mode offset n)
  | .fadvise fd offset n advise => some (.fadvise fd offset n advise)
  | .fsync fd flags => some (.fsync fd flags)
  | .pollAdd fd mask => some (.pollAdd fd mask)
  | .timeout ts count flags => some (.timeout ts count flags)
  | .timeoutRemove data flags => some (.timeoutRemove data flags)
  | .statx dirfd path flags mask buf =>
    some (.statx dirfd (mem.bytes path.data path.len) flags mask buf)
  | .splice inFd inOff outFd outOff n flags =>
    some (.splice inFd (mem.offset inOff) outFd (mem.offset outOff) n flags)
  | _ => none

/-- An `int` that goes into a signed field of 32 bits. -/
def Signed32 (x : Int64) : Prop := -2 ^ 31 ≤ x.toInt ∧ x.toInt < 2 ^ 31

/-- An `int` that goes into an unsigned field of 32 bits. -/
def Unsigned32 (x : Int64) : Prop := 0 ≤ x.toInt ∧ x.toInt < 2 ^ 32

instance (x : Int64) : Decidable (Signed32 x) := inferInstanceAs (Decidable (_ ∧ _))

instance (x : Int64) : Decidable (Unsigned32 x) := inferInstanceAs (Decidable (_ ∧ _))

/-- The arguments fit the fields they go to. -/
def Prepare.Fits : Prepare → Prop
  | .accept fd _ _ flags => Signed32 fd ∧ Signed32 flags
  | .connect fd _ _ => Signed32 fd
  | .fallocate fd _ _ _ => Signed32 fd
  | .fadvise fd _ _ advise => Signed32 fd ∧ Signed32 advise
  | .fsync fd flags => Signed32 fd ∧ Signed32 flags
  | .pollAdd fd mask => Signed32 fd ∧ Signed32 mask
  | .timeout _ _ flags => Signed32 flags
  | .timeoutRemove _ flags => Signed32 flags
  | .statx dirfd path flags mask _ =>
    Signed32 dirfd ∧ path.len < 2 ^ 63 ∧ Signed32 flags ∧ Unsigned32 mask
  | .splice inFd _ outFd _ n flags =>
    Signed32 inFd ∧ Signed32 outFd ∧ Unsigned32 n ∧ Signed32 flags
  | _ => True

/-- The string is followed by a NUL and has none inside. -/
def Memory.Terminated (mem : Memory) (path : Slice) : Prop :=
  (∀ i < path.len, mem (path.data + UInt64.ofNat i) ≠ 0) ∧
    mem (path.data + UInt64.ofNat path.len) = 0

/-- The kernel is given what the caller means. An accept and a connect need the
parameter and its object at one address, and a length that stands in memory at
the address it is, or that is 0; a `statx` needs a terminated path; a splice
needs offsets that are the addresses of their parameters. -/
def Prepare.Faithful (mem : Memory) : Prepare → Prop
  | .accept _ addr socklen _ => addr.var = addr.obj ∧ mem.uint32 socklen.toUInt64 = socklen
  | .connect _ addr socklen => addr.var = addr.obj ∧ socklen = 0
  | .statx _ path _ _ _ => 0 < path.len ∧ path.data ≠ 0 ∧ mem.Terminated path
  | .splice _ inOff _ outOff _ _ =>
    (inOff.obj ≠ 0 ∧ inOff.var.toInt64 = mem.int64 inOff.obj) ∧
      (outOff.obj ≠ 0 ∧ outOff.var.toInt64 = mem.int64 outOff.obj)
  | _ => True

/-! ## Fields and arguments -/

theorem signed32_roundtrip {x : Int64} (h : Signed32 x) : x.toInt32.toInt64 = x := by
  apply Int64.toInt_inj.mp
  rw [Int32.toInt_toInt64, Int64.toInt_toInt32]
  unfold Signed32 at h
  apply Int.bmod_eq_of_le <;> omega

/-- The two ways to cut an `int` to 32 bits leave the same bits. -/
theorem toUInt32_toInt32 (x : Int64) : x.toUInt64.toUInt32.toInt32 = x.toInt32 := by
  apply Int32.toBitVec_inj.mp
  rw [Int64.toBitVec_toInt32, BitVec.signExtend_eq_setWidth_of_le _ (by decide)]
  rfl

theorem unsigned32_roundtrip {x : Int64} (h : Unsigned32 x) :
    x.toUInt64.toUInt32.toUInt64.toInt64 = x := by
  have hsmall : x.toUInt64.toNat < 2 ^ 32 := by
    have hint : x.toInt = (x.toUInt64.toNat : Int).bmod (2 ^ 64) := BitVec.toInt_eq_toNat_bmod _
    have hlt := x.toUInt64.toNat_lt
    unfold Unsigned32 at h
    rw [hint, Int.bmod_def] at h
    omega
  have hsame : x.toUInt64.toUInt32.toUInt64 = x.toUInt64 := by
    apply UInt64.toNat_inj.mp
    rw [UInt32.toNat_toUInt64, UInt64.toNat_toUInt32, Nat.mod_eq_of_lt hsmall]
  rw [hsame]
  rfl

/-- The bytes that `PutUint32` writes read as the number it was given. -/
theorem word32_roundtrip (v : UInt32) :
    word32 v.toUInt8 (v >>> 8).toUInt8 (v >>> 16).toUInt8 (v >>> 24).toUInt8 = v := by
  apply UInt32.toNat_inj.mp
  have hlt := v.toNat_lt
  simp only [word32, UInt32.toNat_toUInt8, UInt32.toNat_shiftRight, UInt32.toNat_ofNat',
    UInt32.toNat_ofNat, Nat.shiftRight_eq_div_pow]
  simp only [Nat.reduceMod, Nat.reducePow] at *
  omega

/-- A string reads as the bytes it has exactly if it is terminated. -/
theorem cstring_eq_bytes_iff (mem : Memory) {fuel len : Nat} (h : len < fuel) (a : UInt64) :
    mem.cstring fuel a = some (mem.bytes a len) ↔
      (∀ i < len, mem (a + UInt64.ofNat i) ≠ 0) ∧ mem (a + UInt64.ofNat len) = 0 := by
  induction len generalizing fuel a with
  | zero =>
    obtain ⟨n, rfl⟩ : ∃ n, fuel = n + 1 := ⟨fuel - 1, by omega⟩
    unfold Memory.cstring Memory.bytes
    by_cases hzero : mem a = 0
    · simp [hzero]
    · simp [hzero]
  | succ len ih =>
    obtain ⟨n, rfl⟩ : ∃ n, fuel = n + 1 := ⟨fuel - 1, by omega⟩
    have hnext : ∀ i, a + UInt64.ofNat (i + 1) = a + 1 + UInt64.ofNat i := by
      intro i
      rw [UInt64.ofNat_add, UInt64.add_assoc, UInt64.add_comm (UInt64.ofNat i)]
      rfl
    unfold Memory.cstring Memory.bytes
    by_cases hzero : mem a = 0
    · simp only [hzero, if_true, Option.some.injEq, List.nil_eq, reduceCtorEq, false_iff]
      rintro ⟨hne, -⟩
      exact hne 0 (Nat.succ_pos len) (by simpa using hzero)
    · simp only [hzero, if_false, Option.map_eq_some_iff, List.cons.injEq, true_and,
        exists_eq_right]
      rw [ih (by omega) (a + 1), hnext len]
      constructor
      · rintro ⟨hne, hend⟩
        refine ⟨fun i hi => ?_, hend⟩
        cases i with
        | zero => simpa using hzero
        | succ i =>
          rw [hnext]
          exact hne i (by omega)
      · rintro ⟨hne, hend⟩
        refine ⟨fun i hi => ?_, hend⟩
        rw [← hnext]
        exact hne (i + 1) (by omega)

/-! ## The calls that pass an address or a string -/

theorem decode_accept_iff (mem : Memory) {fd flags : Int64} (addr : Ref) (socklen : UInt32)
    (hfd : Signed32 fd) (hflags : Signed32 flags) (id : UInt64) (e : SubmitEntry) :
    decode mem (filledEntry e (prepareAccept fd addr socklen flags id)) =
        some (.accept fd addr.obj socklen flags) ↔
      addr.var = addr.obj ∧ mem.uint32 socklen.toUInt64 = socklen := by
  have hdecode : decode mem (filledEntry e (prepareAccept fd addr socklen flags id)) =
      some (.accept fd.toInt32.toInt64 addr.var (mem.uint32 socklen.toUInt64)
        flags.toInt32.toInt64) := rfl
  rw [hdecode, signed32_roundtrip hfd, signed32_roundtrip hflags]
  simp

/-- `PrepareConnect` leaves the address length in `Len`, which the kernel wants to be 0. -/
theorem decode_connect_iff (mem : Memory) {fd : Int64} (addr : Ref) (socklen : UInt32)
    (hfd : Signed32 fd) (id : UInt64) (e : SubmitEntry) :
    decode mem (filledEntry e (prepareConnect fd addr socklen id)) =
        some (.connect fd addr.obj socklen.toUInt64) ↔
      addr.var = addr.obj ∧ socklen = 0 := by
  have hdecode : decode mem (filledEntry e (prepareConnect fd addr socklen id)) =
      if socklen = 0 then some (.connect fd.toInt32.toInt64 addr.var 0) else none := rfl
  rw [hdecode, signed32_roundtrip hfd]
  by_cases hlen : socklen = 0
  · simp [hlen]
  · simp [hlen]

/-- `PrepareStatx` gives the address of the bytes, and none for the empty path. -/
theorem decode_statx_iff (mem : Memory) {dirfd flags mask : Int64} (path : Slice) (buf : UInt64)
    (hdirfd : Signed32 dirfd) (hpath : path.len < 2 ^ 63) (hflags : Signed32 flags)
    (hmask : Unsigned32 mask) (id : UInt64) (e : SubmitEntry) :
    decode mem (filledEntry e (prepareStatx dirfd path flags mask buf id)) =
        some (.statx dirfd (mem.bytes path.data path.len) flags mask buf) ↔
      0 < path.len ∧ path.data ≠ 0 ∧ mem.Terminated path := by
  by_cases hlen : 0 < path.len
  · have hfirst : path.first = some path.data := if_pos hlen
    have hdecode : decode mem (filledEntry e (prepareStatx dirfd path flags mask buf id)) =
        if path.data = 0 then none
        else (mem.cstring (2 ^ 64) path.data).map fun path =>
          .statx dirfd.toInt32.toInt64 path flags.toInt32.toInt64
            mask.toUInt64.toUInt32.toUInt64.toInt64 buf := by
      unfold prepareStatx
      rw [hfirst]
      rfl
    rw [hdecode, signed32_roundtrip hdirfd, signed32_roundtrip hflags, unsigned32_roundtrip hmask]
    by_cases hnil : path.data = 0
    · simp [hnil]
    · simp only [hnil, if_false, Option.map_eq_some_iff, Request.statx.injEq, true_and, and_true,
        exists_eq_right]
      rw [cstring_eq_bytes_iff mem (by omega)]
      simp [Memory.Terminated, hlen, hnil]
  · have hfirst : path.first = none := if_neg hlen
    have hdecode : decode mem (filledEntry e (prepareStatx dirfd path flags mask buf id)) =
        none := by
      unfold prepareStatx
      rw [hfirst]
      rfl
    rw [hdecode]
    simp [hlen]

/-- An offset of a splice arrives as what it stands for exactly if the parameter
is at the address that the offset is. -/
theorem spliceOffset_iff (mem : Memory) (r : Ref) :
    (if r.obj ≠ 0 then r.var else 0).toInt64 = mem.offset r ↔
      r.obj ≠ 0 ∧ r.var.toInt64 = mem.int64 r.obj := by
  unfold Memory.offset
  by_cases hnil : r.obj = 0
  · simp [hnil]
  · simp [hnil]

theorem decode_of_splice (mem : Memory) {e : SubmitEntry} (h : e.opcode = Opcode.splice.code) :
    decode mem e =
      some (.splice (word32 e.anon0[4] e.anon0[5] e.anon0[6] e.anon0[7]).toInt32.toInt64
        e.addr.toInt64 e.fd.toInt64 e.offset.toInt64 e.len.toUInt64.toInt64
        e.uflags.toInt64) := by
  unfold decode
  rw [h]
  rfl

theorem decode_splice_iff (mem : Memory) {inFd outFd n flags : Int64} (inOff outOff : Ref)
    (hinFd : Signed32 inFd) (houtFd : Signed32 outFd) (hn : Unsigned32 n)
    (hflags : Signed32 flags) (id : UInt64) (e : SubmitEntry) :
    decode mem (filledEntry e (prepareSplice inFd inOff outFd outOff n flags id)) =
        some (.splice inFd (mem.offset inOff) outFd (mem.offset outOff) n flags) ↔
      (inOff.obj ≠ 0 ∧ inOff.var.toInt64 = mem.int64 inOff.obj) ∧
        (outOff.obj ≠ 0 ∧ outOff.var.toInt64 = mem.int64 outOff.obj) := by
  have hdecode : decode mem (filledEntry e (prepareSplice inFd inOff outFd outOff n flags id)) =
      some (.splice inFd.toUInt64.toUInt32.toInt32.toInt64
        (if inOff.obj ≠ 0 then inOff.var else 0).toInt64 outFd.toInt32.toInt64
        (if outOff.obj ≠ 0 then outOff.var else 0).toInt64
        n.toUInt64.toUInt32.toUInt64.toInt64 flags.toInt32.toInt64) := by
    rw [decode_of_splice mem rfl, ← word32_roundtrip inFd.toUInt64.toUInt32]
    rfl
  rw [hdecode, toUInt32_toInt32, signed32_roundtrip hinFd, signed32_roundtrip houtFd,
    signed32_roundtrip hflags, unsigned32_roundtrip hn, ← spliceOffset_iff, ← spliceOffset_iff]
  simp

/-! ## The law -/

/-- An entry that a call prepares, over any earlier contents, is read as the
request of the call exactly if the call is faithful to it. -/
theorem a_prepared_entry_is_read_as_the_request_iff (mem : Memory) (c : Prepare) (req : Request)
    (hreq : c.request mem = some req) (hfits : c.Fits) (id : UInt64) (ws : List FieldWrite)
    (hws : c.writes id = some ws) (e : SubmitEntry) :
    decode mem (filledEntry e ws) = some req ↔ c.Faithful mem := by
  cases c with
  | accept fd addr socklen flags =>
    cases hreq
    cases hws
    exact decode_accept_iff mem addr socklen hfits.1 hfits.2 id e
  | connect fd addr socklen =>
    cases hreq
    cases hws
    exact decode_connect_iff mem addr socklen hfits id e
  | statx dirfd path flags mask buf =>
    cases hreq
    cases hws
    exact decode_statx_iff mem path buf hfits.1 hfits.2.1 hfits.2.2.1 hfits.2.2.2 id e
  | splice inFd inOff outFd outOff n flags =>
    cases hreq
    cases hws
    exact decode_splice_iff mem inOff outOff hfits.1 hfits.2.1 hfits.2.2.1 hfits.2.2.2 id e
  | fallocate fd mode offset n =>
    cases hreq
    cases hws
    have hdecode : decode mem (filledEntry e (prepareFallocate fd mode offset n id)) =
        some (.fallocate fd.toInt32.toInt64 mode offset n) := rfl
    rw [hdecode, signed32_roundtrip hfits]
    simp [Prepare.Faithful]
  | fadvise fd offset n advise =>
    cases hreq
    cases hws
    have hdecode : decode mem (filledEntry e (prepareFadvise fd offset n advise id)) =
        some (.fadvise fd.toInt32.toInt64 offset n advise.toInt32.toInt64) := rfl
    rw [hdecode, signed32_roundtrip hfits.1, signed32_roundtrip hfits.2]
    simp [Prepare.Faithful]
  | fsync fd flags =>
    cases hreq
    cases hws
    have hdecode : decode mem (filledEntry e (prepareFsync fd flags id)) =
        some (.fsync fd.toInt32.toInt64 flags.toInt32.toInt64) := rfl
    rw [hdecode, signed32_roundtrip hfits.1, signed32_roundtrip hfits.2]
    simp [Prepare.Faithful]
  | pollAdd fd mask =>
    cases hreq
    cases hws
    have hdecode : decode mem (filledEntry e (preparePollAdd fd mask id)) =
        some (.pollAdd fd.toInt32.toInt64 mask.toInt32.toInt64) := rfl
    rw [hdecode, signed32_roundtrip hfits.1, signed32_roundtrip hfits.2]
    simp [Prepare.Faithful]
  | timeout ts count flags =>
    cases hreq
    cases hws
    have hdecode : decode mem (filledEntry e (prepareTimeout ts count flags id)) =
        some (.timeout ts count flags.toInt32.toInt64) := rfl
    rw [hdecode, signed32_roundtrip hfits]
    simp [Prepare.Faithful]
  | timeoutRemove data flags =>
    cases hreq
    cases hws
    have hdecode : decode mem (filledEntry e (prepareTimeoutRemove data flags id)) =
        some (.timeoutRemove data flags.toInt32.toInt64) := rfl
    rw [hdecode, signed32_roundtrip hfits]
    simp [Prepare.Faithful]
  | _ => cases hreq

/-- A `statx` of the path "/" at address 64, with a NUL after it. -/
theorem a_terminated_path_is_read :
    decode (fun a => if a = 64 then 47 else 0) (filledEntry .zero (prepareStatx (-100) ⟨64, 1⟩ 0 7
        128 9)) = some (.statx (-100) [47] 0 7 128) :=
  (a_prepared_entry_is_read_as_the_request_iff (fun a => if a = 64 then 47 else 0)
    (.statx (-100) ⟨64, 1⟩ 0 7 128) _ rfl ⟨by decide, by decide, by decide, by decide⟩ 9 _ rfl
    .zero).mpr ⟨by decide, by decide, by decide, by decide⟩

/-- With all of memory zero: a connect to an address of 16 bytes is refused, a
splice without offsets reads as one from offset 0 to offset 0, an accept has the
address of the parameter and no length, and the empty path has no address. -/
theorem four_calls_are_read_otherwise :
    decode (fun _ => 0) (filledEntry .zero (prepareConnect 3 ⟨64, 128⟩ 16 1)) = none ∧
    decode (fun _ => 0) (filledEntry .zero (prepareSplice 3 ⟨64, 0⟩ 4 ⟨72, 0⟩ 10 0 1)) =
      some (.splice 3 0 4 0 10 0) ∧
    Prepare.request (fun _ => 0) (.splice 3 ⟨64, 0⟩ 4 ⟨72, 0⟩ 10 0) =
      some (.splice 3 (-1) 4 (-1) 10 0) ∧
    decode (fun _ => 0) (filledEntry .zero (prepareAccept 3 ⟨64, 128⟩ 16 0 1)) =
      some (.accept 3 64 0 0) ∧
    Prepare.request (fun _ => 0) (.accept 3 ⟨64, 128⟩ 16 0) = some (.accept 3 128 16 0) ∧
    decode (fun _ => 0) (filledEntry .zero (prepareStatx 3 ⟨0, 0⟩ 0 0 128 1)) = none := by
  decide

end iouring.submit_queue
