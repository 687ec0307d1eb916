-- `Ring.complete`, `Ring.run` and `onEntry`, for any number of goroutines that
-- call `complete`, next to `completer.run` and the kernel. Every operation on
-- memory that two of them share is a step of its own: a word of the queue, a
-- slot, a field of a request, a channel, the pool.
import Iouring.CompletionQueue
import Mathlib.Data.List.AList

open counter machine
open iouring.completion_queue (CompletionEntry)

namespace iouring.ring

/-! ## The requests and their callers -/

/-- `completionRequest`. `done` is the number of tokens in the channel. -/
structure CompletionRequest where
  id : UInt64
  res : Int32
  flags : UInt32
  done : Nat
  deriving DecidableEq, Repr

/-- The buffer of `done`, from `make(chan struct{}, 8)`. -/
def doneCap : Nat := 8

/-- The buffer of `retry`, from `make(chan struct{}, 2)`. -/
def retryCap : Nat := 2

/-- Where a call of `complete(id)` stands that works on the request `r`. -/
inductive Caller where
  | idle
  | setId (r : Nat) (id : UInt64)
  | setRes (r : Nat) (id : UInt64)
  | setFlags (r : Nat) (id : UInt64)
  | send (r : Nat) (id : UInt64)
  | wait (r : Nat) (id : UInt64)
  | readRes (r : Nat) (id : UInt64)
  | readFlags (r : Nat) (id : UInt64) (res : Int32)
  | put (r : Nat) (id : UInt64) (res : Int32) (flags : UInt32)
  deriving DecidableEq, Repr

/-! ## The loop -/

/-- What `onEntry` keeps while it scans: the loaded words, the loop it is in,
the index, and its count of slots to release. -/
structure Scan where
  head : UInt32
  tail : UInt32
  second : Bool
  i : Nat
  seen : Bool
  seenIdx : UInt32
  deriving DecidableEq, Repr

/-- Where `Ring.run` stands. `r.stop` is not among the cases of its select: no
code of the package sends on it. -/
inductive RunPc where
  | select
  -- the inner select of the retry case
  | poll
  | insert (r : Nat)
  | enter
  -- onEntry
  | loadHead
  | loadTail (head : UInt32)
  | slot (k : Scan)
  | setRes (k : Scan) (r : Nat) (cqe : CompletionEntry)
  | setFlags (k : Scan) (r : Nat) (cqe : CompletionEntry)
  | done (k : Scan) (r : Nat) (cqe : CompletionEntry)
  | delete (k : Scan) (r : Nat) (cqe : CompletionEntry)
  | storeHead (k : Scan)
  -- back in run
  | lenInflight
  | sendRetry
  deriving DecidableEq, Repr

/-- The ring. Requests are numbered: those below `fresh` exist. What has been
asked for, delivered and returned so far is kept for the laws only. -/
structure State (ι : Type) where
  queue : completion_queue.State
  heap : Nat → CompletionRequest
  fresh : Nat
  completionPool : List Nat
  callers : ι → Caller
  completions : List Nat
  run : RunPc
  inflight : AList fun _ : UInt64 => Nat
  retry : Nat
  asked : List UInt64
  delivered : List UInt64
  results : List (UInt64 × Int32 × UInt32)

def init (ι : Type) : State ι where
  queue := completion_queue.init
  heap := fun _ => ⟨0, 0, 0, 0⟩
  fresh := 0
  completionPool := []
  callers := fun _ => .idle
  completions := []
  run := .select
  inflight := ∅
  retry := 0
  asked := []
  delivered := []
  results := []

variable {ι : Type}

def State.setRequest (s : State ι) (r : Nat) (q : CompletionRequest) : State ι :=
  { s with heap := Function.update s.heap r q }

/-! ## `Ring.run` and `onEntry` -/

/-- The start of the first loop. -/
def Scan.start (z : Size) (head tail : UInt32) : Scan :=
  ⟨head, tail, false, (head &&& z.mask).toNat, true, 0⟩

/-- The end of a turn of either loop, after the slot `i` has been dealt with. -/
def Scan.advance (z : Size) (k : Scan) : RunPc :=
  let last := (k.tail &&& z.mask).toNat
  if k.second then
    if k.i + 1 < last then .slot { k with i := k.i + 1 } else .storeHead k
  else if k.i = last then .storeHead k
  else if k.i + 1 < z.slots then .slot { k with i := k.i + 1 }
  else if 0 < last then .slot { k with second := true, seen := true, i := 0 }
  else .storeHead { k with second := true, seen := true, i := 0 }

/-- One look into a slot. -/
def readSlot (z : Size) (s : State ι) (k : Scan) : RunPc :=
  let cqe := s.queue.cq.entries k.i
  match s.inflight.lookup cqe.userData with
  | some r => .setRes { k with seenIdx := if k.seen then k.seenIdx + 1 else k.seenIdx } r cqe
  | none => Scan.advance z { k with seen := false }

/-- The next step of `Ring.run` once its select has chosen. -/
def runStep (z : Size) (s : State ι) : Option (State ι) :=
  match s.run with
  | .select => none
  | .poll =>
    match s.completions with
    | [] => some { s with run := .loadHead }
    | r :: rest => some { s with completions := rest, run := .insert r }
  | .insert r =>
    some { s with inflight := s.inflight.insert (s.heap r).id r, run := .enter }
  | .enter => some { s with run := .loadHead }
  | .loadHead => some { s with run := .loadTail s.queue.cq.head }
  | .loadTail head => some { s with run := .slot (Scan.start z head s.queue.cq.tail) }
  | .slot k => some { s with run := readSlot z s k }
  | .setRes k r cqe =>
    some { s.setRequest r { s.heap r with res := cqe.res } with run := .setFlags k r cqe }
  | .setFlags k r cqe =>
    some { s.setRequest r { s.heap r with flags := cqe.flags } with run := .done k r cqe }
  | .done k r cqe =>
    if (s.heap r).done < doneCap then
      some { s.setRequest r { s.heap r with done := (s.heap r).done + 1 } with
        run := .delete k r cqe
        delivered := s.delivered ++ [cqe.userData] }
    else none
  | .delete k r _ =>
    some { s with inflight := s.inflight.erase (s.heap r).id, run := Scan.advance z k }
  | .storeHead k =>
    some { s with
      queue := { s.queue with cq := { s.queue.cq with head := k.head + k.seenIdx } }
      run := .lenInflight }
  | .lenInflight =>
    if s.inflight.entries.length > 0 then some { s with run := .sendRetry }
    else some { s with run := .select }
  | .sendRetry =>
    if s.retry < retryCap then some { s with retry := s.retry + 1, run := .select } else none

/-! ## `Ring.complete` -/

variable [DecidableEq ι]

def State.goto (s : State ι) (g : ι) (c : Caller) : State ι :=
  { s with callers := Function.update s.callers g c }

/-- `completionPool.Get`: a request out of the pool, or a new one. -/
def getRequest (s : State ι) : Option Nat → Option (Nat × State ι)
  | some r =>
    if r ∈ s.completionPool then
      some (r, { s with completionPool := s.completionPool.erase r })
    else none
  | none => some (s.fresh, { s with fresh := s.fresh + 1 })

/-- The next step of a call of `complete`. -/
def callerStep (z : Size) (s : State ι) (g : ι) : Option (State ι) :=
  match s.callers g with
  | .idle => none
  | .setId r id => some ((s.setRequest r { s.heap r with id := id }).goto g (.setRes r id))
  | .setRes r id => some ((s.setRequest r { s.heap r with res := 0 }).goto g (.setFlags r id))
  | .setFlags r id => some ((s.setRequest r { s.heap r with flags := 0 }).goto g (.send r id))
  | .send r id =>
    if s.completions.length < z.slots then
      some ({ s with completions := s.completions ++ [r] }.goto g (.wait r id))
    else none
  | .wait r id =>
    if 0 < (s.heap r).done then
      some ((s.setRequest r { s.heap r with done := (s.heap r).done - 1 }).goto g (.readRes r id))
    else none
  | .readRes r id => some (s.goto g (.readFlags r id (s.heap r).res))
  | .readFlags r id res => some (s.goto g (.put r id res (s.heap r).flags))
  | .put r id res flags =>
    some ({ s with
      completionPool := s.completionPool ++ [r]
      results := s.results ++ [(id, res, flags)] }.goto g .idle)

/-! ## The steps -/

/-- What can happen next: the kernel posts an entry; another consumer
acknowledges a position; the completer takes a step; a goroutine calls
`complete`, or takes the next step of its call; the select of `Ring.run`
chooses a case; `Ring.run` takes its next step. -/
inductive Act (ι : Type) where
  | post (cqe : CompletionEntry)
  | ack (p : Nat)
  | completer
  | complete (g : ι) (id : UInt64) (pick : Option Nat)
  | caller (g : ι)
  | takeCompletion
  | takeRetry
  | run
  deriving DecidableEq, Repr

/-- Ids are never asked for twice, and an entry has one consumer: `complete`
or the one that acknowledges it. -/
def step (z : Size) (s : State ι) : Act ι → Option (State ι)
  | .post cqe => (completion_queue.post z s.queue cqe).map fun q => { s with queue := q }
  | .ack p =>
    if ∃ id ∈ s.asked, s.queue.idAt p = some id then none
    else (completion_queue.ack z s.queue p).map fun q => { s with queue := q }
  | .completer => (completion_queue.completerStep z s.queue).map fun q => { s with queue := q }
  | .complete g id pick =>
    if s.callers g = .idle ∧ id ∉ s.asked ∧ ∀ p ∈ s.queue.acked, s.queue.idAt p ≠ some id then
      (getRequest s pick).map fun (r, s') =>
        { s' with asked := s'.asked ++ [id] }.goto g (.setId r id)
    else none
  | .caller g => callerStep z s g
  | .takeCompletion =>
    match s.run, s.completions with
    | .select, r :: rest => some { s with completions := rest, run := .insert r }
    | _, _ => none
  | .takeRetry =>
    if s.run = .select ∧ 0 < s.retry then some { s with retry := s.retry - 1, run := .poll }
    else none
  | .run => runStep z s

end iouring.ring
