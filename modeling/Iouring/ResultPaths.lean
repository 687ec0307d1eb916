-- What a caller makes of a completion. The blocking operations of the ring get it
-- through `Ring.complete`, which gives them `Res` and `Flags` in this order; files,
-- connections and `Ring.getCqe` look it up in the queue. `Splice` returns the second
-- value of `complete` as its count, which is `Flags`.
import Iouring.EntryBy
import Iouring.FioResults
import Iouring.FioScan
import Iouring.OnEntry

open counter
open iouring.completion_queue (CompletionEntry CompletionQueue errnoOf)
open iouring.ring (CompletionRequest Handled Inflight Keyed firstWith onEntry)
open iouring.slot_loops

namespace iouring.result_paths

/-! ## The operations -/

/-- What an operation returns: its count, if it has one, and its error. -/
structure Returned where
  count : Option Int
  err : Option UInt64
  deriving DecidableEq, Repr

/-- The end of `Ring.complete`: what it reads from its request once that is done. -/
def complete (req : CompletionRequest) : Int32 × UInt32 := (req.res, req.flags)

/-- `errno, _ := r.complete(id)`, and an error if `errno` is negative. -/
def errorOnly (result : Int32 × UInt32) : Returned :=
  if result.1 < 0 then ⟨none, some (errnoOf result.1)⟩ else ⟨none, none⟩

/-- `Ring.Close`. -/
def close := errorOnly
/-- `Ring.Fadvise`. -/
def fadvise := errorOnly
/-- `Ring.Fallocate`. -/
def fallocate := errorOnly
/-- `Ring.Fsync`. -/
def fsync := errorOnly
/-- `Ring.Nop`. -/
def nop := errorOnly
/-- `Ring.PollAdd`. -/
def pollAdd := errorOnly
/-- `Ring.Statx`. -/
def statx := errorOnly
/-- `Ring.Send`. -/
def send := errorOnly
/-- `Ring.Recv`. -/
def recv := errorOnly

/-- `Ring.Splice`: `errno, res := r.complete(id)`, and `res` is the count. -/
def splice (result : Int32 × UInt32) : Returned :=
  if result.1 < 0 then ⟨some 0, some (errnoOf result.1)⟩ else ⟨some result.2.toNat, none⟩

/-- The operations on `Ring.complete`. -/
inductive Blocking where
  | close
  | fadvise
  | fallocate
  | fsync
  | nop
  | pollAdd
  | splice
  | statx
  | send
  | recv
  deriving DecidableEq, Repr

def Blocking.returns : Blocking → Int32 × UInt32 → Returned
  | .close => result_paths.close
  | .fadvise => result_paths.fadvise
  | .fallocate => result_paths.fallocate
  | .fsync => result_paths.fsync
  | .nop => result_paths.nop
  | .pollAdd => result_paths.pollAdd
  | .splice => result_paths.splice
  | .statx => result_paths.statx
  | .send => result_paths.send
  | .recv => result_paths.recv

/-! ## The lookups -/

/-- What `ringFIO.getCqe` returns for an entry that it has found. -/
def fioFound (cqe : CompletionEntry) : Returned :=
  if cqe.res < 0 then ⟨some 0, some (errnoOf cqe.res)⟩ else ⟨some cqe.res.toInt, none⟩

/-- The result of a call in the model of `ringFIO`. -/
def Returned.result (r : Returned) : ring_fio.Result :=
  match r.err with
  | some e => .errno e
  | none => .count (r.count.getD 0)

/-- `Ring.getCqe` returns this, and the flags next to it. -/
def ringFound (cqe : CompletionEntry) : Returned × UInt32 :=
  if cqe.res < 0 then (⟨some 0, some (errnoOf cqe.res)⟩, 0)
  else (⟨some cqe.res.toInt, none⟩, cqe.flags)

/-- How one pass of `Ring.getCqe` ends. -/
inductive PassEnd where
  | returned (r : Returned) (flags : UInt32)
  | again
  -- errCQEMissing
  | missing
  deriving DecidableEq, Repr

/-- One pass of `Ring.getCqe`. Its loops are those of `ringFIO.getCqe`, but it gives up
behind the second one. -/
def ringGetCqe (z : Size) (cq : CompletionQueue) (reqID : UInt64) : PassEnd :=
  let first := (cq.head &&& z.mask).toNat
  let last := (cq.tail &&& z.mask).toNat
  match ring_fio.firstLoop cq.entries reqID last (z.slots - first) first with
  | .found x => .returned (ringFound (cq.entries x)).1 (ringFound (cq.entries x)).2
  | .again => .again
  | .past =>
    match ring_fio.firstLoop cq.entries reqID last last 0 with
    | .found x => .returned (ringFound (cq.entries x)).1 (ringFound (cq.entries x)).2
    | .again => .again
    | .past => .missing

/-- What `ringConn.getCqe` returns for the entry that `EntryBy` has found. -/
def connFound (cqe : CompletionEntry) : Returned :=
  let res := cqe.res.toInt64
  if res < 0 then ⟨some 0, some (-res).toUInt64⟩ else ⟨some res.toInt, none⟩

/-! ## The paths -/

/-- The path from a completion to its caller. -/
inductive Path where
  | blocking (op : Blocking)
  | fio
  | ring
  | conn
  deriving DecidableEq, Repr

/-- On a path, the entry `cqe` is delivered for a request, and the caller gets `r`:
- `onEntry` gives it to the request of a blocking operation;
- a pass of `ringFIO.getCqe`, of `Ring.getCqe` or of `EntryBy` finds it. -/
inductive Delivered (z : Size) (size : UInt32) : Path → CompletionEntry → Returned → Prop
  | blocking {op cq cq' inflight heap} {k : Handled} {u req cqe}
      (hkeys : Keyed (.start inflight heap)) (hcall : onEntry z cq inflight heap = some (cq', k))
      (hreq : inflight.lookup u = some req)
      (hcqe : firstWith cq.entries (visited z cq.head cq.tail) u = some cqe) :
      Delivered z size (.blocking op) cqe (op.returns (complete (k.heap req)))
  | fio {cq reqID x} (h : ring_fio.findCqe z cq reqID = some x) :
      Delivered z size .fio (cq.entries x) (fioFound (cq.entries x))
  | ring {cq reqID x r flags} (hx : ring_fio.findCqe z cq reqID = some x)
      (h : ringGetCqe z cq reqID = .returned r flags) : Delivered z size .ring (cq.entries x) r
  | conn {cq reqID x} (h : (entry_by.entryBy z size cq reqID).2 = some x) :
      Delivered z size .conn (cq.entries x)
        (connFound ((entry_by.entryBy z size cq reqID).1.entries x))

/-- What every caller should get: the error if `Res` is negative, and otherwise no error
and, if there is a count, `Res`. -/
def Decoded (cqe : CompletionEntry) (r : Returned) : Prop :=
  if cqe.res.toInt < 0 then ∃ e, r.err = some e ∧ (e.toNat : Int) = -cqe.res.toInt
  else r.err = none ∧ ∀ n ∈ r.count, n = cqe.res.toInt

variable {z : Size} {size : UInt32} {cqe : CompletionEntry} {r : Returned}

/-- The error of a negative result. -/
theorem errnoOf_toNat {res : Int32} (hneg : res.toInt < 0) (hmin : -2 ^ 31 < res.toInt) :
    ((errnoOf res).toNat : Int) = -res.toInt := by
  have hint : (-res).toInt64.toInt = ((errnoOf res).toNat : Int).bmod (2 ^ 64) :=
    BitVec.toInt_eq_toNat_bmod _
  have hlt := (errnoOf res).toNat_lt
  rw [Int32.toInt_toInt64, Int32.toInt_neg, Int.bmod_def, Int.bmod_def] at hint
  omega

/-- The same by way of 64 bits. -/
theorem errno64_toNat {res : Int32} (hneg : res.toInt < 0) :
    ((-res.toInt64).toUInt64.toNat : Int) = -res.toInt := by
  have hint : (-res.toInt64).toInt = ((-res.toInt64).toUInt64.toNat : Int).bmod (2 ^ 64) :=
    BitVec.toInt_eq_toNat_bmod _
  have hlt := (-res.toInt64).toUInt64.toNat_lt
  have hle := res.le_toInt
  rw [Int64.toInt_neg, Int32.toInt_toInt64, Int.bmod_def, Int.bmod_def] at hint
  omega

theorem res_neg_iff {res : Int32} : res < 0 ↔ res.toInt < 0 := Int32.lt_iff_toInt_lt

theorem decoded_of_neg (hneg : cqe.res.toInt < 0) (hmin : -2 ^ 31 < cqe.res.toInt)
    (h : r.err = some (errnoOf cqe.res)) : Decoded cqe r := by
  unfold Decoded
  rw [if_pos hneg]
  exact ⟨_, h, errnoOf_toNat hneg hmin⟩

theorem decoded_of_nonneg (hpos : ¬ cqe.res.toInt < 0) :
    Decoded cqe r ↔ r.err = none ∧ ∀ n ∈ r.count, n = cqe.res.toInt := by
  unfold Decoded
  rw [if_neg hpos]

theorem decoded_errorOnly (hmin : -2 ^ 31 < cqe.res.toInt) (flags : UInt32) :
    Decoded cqe (errorOnly (cqe.res, flags)) := by
  by_cases hneg : cqe.res.toInt < 0
  · apply decoded_of_neg hneg hmin
    simp [errorOnly, res_neg_iff, hneg]
  · rw [decoded_of_nonneg hneg]
    simp [errorOnly, res_neg_iff, hneg]

/-- A splice gives its caller the flags. -/
theorem decoded_splice_iff (hmin : -2 ^ 31 < cqe.res.toInt) :
    Decoded cqe (splice (cqe.res, cqe.flags)) ↔
      cqe.res.toInt < 0 ∨ (cqe.flags.toNat : Int) = cqe.res.toInt := by
  by_cases hneg : cqe.res.toInt < 0
  · refine ⟨fun _ => Or.inl hneg, fun _ => decoded_of_neg hneg hmin ?_⟩
    simp [splice, res_neg_iff, hneg]
  · rw [decoded_of_nonneg hneg]
    simp [splice, res_neg_iff, hneg]

theorem decoded_fioFound (hmin : -2 ^ 31 < cqe.res.toInt) : Decoded cqe (fioFound cqe) := by
  by_cases hneg : cqe.res.toInt < 0
  · apply decoded_of_neg hneg hmin
    simp [fioFound, res_neg_iff, hneg]
  · rw [decoded_of_nonneg hneg]
    simp [fioFound, res_neg_iff, hneg]

/-- It is the result with which the calls of `ringFIO` return in its runs. -/
theorem fioFound_result (cqe : CompletionEntry) :
    (fioFound cqe).result = ring_fio.decode cqe := by
  unfold fioFound ring_fio.decode
  split_ifs <;> rfl

/-- `Ring.getCqe` decodes an entry as `ringFIO.getCqe` does. -/
theorem ringFound_fst (cqe : CompletionEntry) : (ringFound cqe).1 = fioFound cqe := by
  unfold ringFound fioFound
  split_ifs <;> rfl

theorem ringGetCqe_of_found {cq : CompletionQueue} {reqID : UInt64} {x : Nat}
    (h : ring_fio.findCqe z cq reqID = some x) :
    ringGetCqe z cq reqID =
      .returned (ringFound (cq.entries x)).1 (ringFound (cq.entries x)).2 := by
  unfold ring_fio.findCqe at h
  unfold ringGetCqe
  dsimp only at h ⊢
  cases hfirst : ring_fio.firstLoop cq.entries reqID _ (z.slots - _) _ with
  | found y =>
    rw [hfirst] at h
    cases h
    rfl
  | again =>
    rw [hfirst] at h
    cases h
  | past =>
    rw [hfirst] at h
    dsimp only at h ⊢
    cases hsecond : ring_fio.firstLoop cq.entries reqID _ _ 0 with
    | found y =>
      rw [hsecond] at h
      cases h
      rfl
    | again | past =>
      rw [hsecond] at h
      cases h

/-- The mark of `EntryBy` leaves the result. -/
theorem entryBy_res (cq : CompletionQueue) (reqID : UInt64) (x : Nat) :
    ((entry_by.entryBy z size cq reqID).1.entries x).res = (cq.entries x).res := by
  obtain ⟨flags, h⟩ := entry_by.entryBy_entries z size cq reqID x
  rw [h]

theorem decoded_connFound {cqe' : CompletionEntry} (h : cqe'.res = cqe.res) :
    Decoded cqe (connFound cqe') := by
  unfold Decoded connFound
  rw [h]
  have hneg : cqe.res.toInt64 < 0 ↔ cqe.res.toInt < 0 := by
    rw [Int64.lt_iff_toInt_lt, Int32.toInt_toInt64]
    rfl
  by_cases hres : cqe.res.toInt < 0
  · simp only [hneg, hres, if_true]
    exact ⟨_, rfl, errno64_toNat hres⟩
  · simp [hneg, hres]

/-- The request of a blocking operation has got `Res` and `Flags` of its entry. -/
theorem complete_of_onEntry {cq cq' : CompletionQueue} {inflight : Inflight}
    {heap : Nat → CompletionRequest} {k : Handled} {u : UInt64} {req : Nat}
    (hkeys : Keyed (.start inflight heap)) (hcall : onEntry z cq inflight heap = some (cq', k))
    (hreq : inflight.lookup u = some req)
    (hcqe : firstWith cq.entries (visited z cq.head cq.tail) u = some cqe) :
    complete (k.heap req) = (cqe.res, cqe.flags) := by
  have hgiven := (ring.onEntry_delivers hkeys hcall).given u req hreq
  rw [hgiven, hcqe]
  rfl

/-- A path that decodes an entry rightly whatever its flags are. -/
theorem decoded_iff_of_ne {p : Path} {q : Prop} (hp : p ≠ .blocking .splice)
    (h : Decoded cqe r) : Decoded cqe r ↔ (p = .blocking .splice → q) :=
  ⟨fun _ heq => absurd heq hp, fun _ => h⟩

/-- For every entry with `Res` above -2^31 that is delivered for a request, on any path and
over any queue: its caller gets the error of a negative `Res`, and otherwise no error and
`Res` for a count, exactly if the path is not `Splice`, or `Res` is negative, or `Flags`
happens to be `Res`. -/
theorem completions_are_decoded_alike_iff (z : Size) (size : UInt32) (p : Path)
    (cqe : CompletionEntry) (r : Returned) (h : Delivered z size p cqe r)
    (hmin : -2 ^ 31 < cqe.res.toInt) :
    Decoded cqe r ↔
      (p = .blocking .splice →
        cqe.res.toInt < 0 ∨ (cqe.flags.toNat : Int) = cqe.res.toInt) := by
  cases h with
  | @blocking op _ _ _ _ _ _ _ _ hkeys hcall hreq hcqe =>
    rw [complete_of_onEntry hkeys hcall hreq hcqe]
    cases op with
    | splice =>
      have hsplice := decoded_splice_iff hmin
      exact ⟨fun hd _ => hsplice.mp hd, fun hq => hsplice.mpr (hq rfl)⟩
    | _ => exact decoded_iff_of_ne nofun (decoded_errorOnly hmin _)
  | fio hx => exact decoded_iff_of_ne nofun (decoded_fioFound hmin)
  | ring hx hcall =>
    rw [ringGetCqe_of_found hx] at hcall
    cases hcall
    rw [ringFound_fst]
    exact decoded_iff_of_ne nofun (decoded_fioFound hmin)
  | conn hx => exact decoded_iff_of_ne nofun (decoded_connFound (entryBy_res ..))

/-- A ring of four with one completion, of the request 1, for eight bytes. -/
def eightBytes : CompletionQueue := ⟨0, 1, Function.update (fun _ => ⟨0, 0, 0⟩) 0 ⟨1, 8, 0⟩⟩

/-- A `Read` of these eight bytes returns 8. -/
theorem a_read_returns_its_count :
    Decoded (eightBytes.entries 0) (fioFound (eightBytes.entries 0)) := by
  have hfound : ring_fio.findCqe ⟨2, by decide⟩ eightBytes 1 = some 0 := by decide
  exact (completions_are_decoded_alike_iff ⟨2, by decide⟩ 64 .fio _ _ (.fio hfound)
    (by decide)).mpr nofun

/-- A `Splice` of eight bytes: `onEntry` gives its request the result 8 with no flags, and
the caller gets a count of 0 and no error. -/
theorem a_splice_returns_the_flags :
    Delivered ⟨2, by decide⟩ 64 (.blocking .splice) ⟨1, 8, 0⟩ ⟨some 0, none⟩ ∧
      ¬ Decoded ⟨1, 8, 0⟩ ⟨some 0, none⟩ := by
  have hkeys : Keyed (.start (ring.oneInflight 1) fun _ => ⟨1, 0, 0, 0⟩) :=
    fun _ _ h => ring.oneInflight_key h
  have hsome : (onEntry ⟨2, by decide⟩ eightBytes (ring.oneInflight 1)
      fun _ => ⟨1, 0, 0, 0⟩).isSome := by decide
  obtain ⟨⟨cq', k⟩, hcall⟩ := Option.isSome_iff_exists.mp hsome
  have hreq : (ring.oneInflight 1).lookup 1 = some 0 := by decide
  have hcqe : firstWith eightBytes.entries
      (visited ⟨2, by decide⟩ eightBytes.head eightBytes.tail) 1 = some ⟨1, 8, 0⟩ := by decide
  have hgets : Delivered _ 64 (.blocking .splice) _ _ := .blocking hkeys hcall hreq hcqe
  rw [complete_of_onEntry hkeys hcall hreq hcqe] at hgets
  exact ⟨hgets, by simp [Decoded]⟩

end iouring.result_paths
