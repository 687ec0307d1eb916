-- The blocking operations of `ops.go`: each prepares an entry, hands its id to
-- `Ring.complete` and waits. One goroutine makes one call after the other, next to
-- `Ring.run` and the kernel. The two goroutines share the submission queue, but `Ring.run`
-- enters only while the caller waits, so their calls on it do not overlap.
import Iouring.CompleteCalls
import Iouring.FileIo
import Iouring.ResultPaths
import Iouring.UserData

open counter machine

namespace iouring.blocking

open submit_queue (EnterGetEvents Prepare SubmitEntry Slice Op opStep filledEntry)
open result_paths (Blocking Returned)

/-! ## The calls -/

/-- The operation that waits for the entry of a `Prepare` function. The other functions have
no such operation. -/
def operation : Prepare → Option Blocking
  | .close _ => some .close
  | .fadvise _ _ _ _ => some .fadvise
  | .fallocate _ _ _ _ => some .fallocate
  | .fsync _ _ => some .fsync
  | .nop => some .nop
  | .pollAdd _ _ => some .pollAdd
  | .splice _ _ _ _ _ _ => some .splice
  | .statx _ _ _ _ _ => some .statx
  | .send _ _ _ => some .send
  | .recv _ _ _ => some .recv
  | _ => none

/-! ## The ring, the caller and the kernel -/

/-- The queues and the counter of `Ring.ID`; the id of an entry that is committed and not yet
handed to `complete`; whether the `Enter` for the request under way has failed. The calls so
far are kept for the laws only. -/
structure State where
  sq : submit_queue.State Unit
  ring : ring.State Unit
  idx : UInt64
  committed : Option UInt64
  refused : Bool
  calls : List Prepare

def init (start : UInt64) : State :=
  ⟨submit_queue.init Unit, ring.init Unit, start, none, false, []⟩

/-- What can happen next: a call prepares its entry, then calls `complete` with the request
that the pool gives; it takes its next step; `Ring.run` chooses a case or takes its next
step; its `Enter` returns, or fails; the kernel completes the `k`-th entry it has taken. -/
inductive Act where
  | call (c : Prepare)
  | complete (pick : Option Nat)
  | caller
  | takeCompletion
  | takeRetry
  | run
  | enter
  | enterFails
  | answer (k : Nat) (res : Int32) (flags : UInt32)
  deriving DecidableEq, Repr

/-- `r.Enter(uint(len(inflight)), 0, EnterGetEvents, nil)`. -/
def State.enterCall (s : State) : submit_queue.EnterCall :=
  ⟨s.ring.inflight.entries.length, 0, EnterGetEvents⟩

/-- The same call up to its end, when the syscall fails. -/
def failedEnterActs (c : submit_queue.EnterCall) : List (submit_queue.Act Unit) :=
  .enter () c :: List.replicate 3 (.step ()) ++ [.fail (), .step ()]

def State.ringStep (zc : Size) (s : State) (a : ring.Act Unit) : Option State :=
  (ring.step zc s.ring a).map fun r => { s with ring := r }

def step (zs zc : Size) (s : State) : Act → Option State
  | .call c =>
    if s.committed = none ∧ s.ring.callers () = .idle ∧ (operation c).isSome then
      (c.writes (s.idx + 1)).bind fun ws =>
        (opStep zs s.sq (.submit () ws)).map fun q =>
          { s with
            sq := q
            idx := s.idx + 1
            committed := some (s.idx + 1)
            calls := s.calls ++ [c] }
    else none
  | .complete pick =>
    s.committed.bind fun id =>
      { s with committed := none }.ringStep zc (.complete () id pick)
  | .caller => s.ringStep zc (.caller ())
  | .takeCompletion => s.ringStep zc .takeCompletion
  | .takeRetry => s.ringStep zc .takeRetry
  | .run => if s.ring.run = .enter then none else s.ringStep zc .run
  | .enter =>
    if s.ring.run = .enter then
      (opStep zs s.sq (.enter () s.enterCall)).bind fun q => { s with sq := q }.ringStep zc .run
    else none
  | .enterFails =>
    if s.ring.run = .enter then
      (run (submit_queue.step zs) s.sq (failedEnterActs s.enterCall)).bind fun q =>
        { s with sq := q, refused := true }.ringStep zc .run
    else none
  | .answer k res flags =>
    (s.sq.hist.executed[k]?).bind fun x => s.ringStep zc (.post ⟨x.2.userData, res, flags⟩)

/-- What the calls have returned, in their order. -/
def State.returned (s : State) : List (Option Returned) :=
  List.zipWith (fun c x => (operation c).map fun op => op.returns x.2) s.calls s.ring.results

end iouring.blocking
