-- The operations of the package that submit an entry, each as the lines it runs
-- between `SubmitEntry` and the closure, over the submission queue and the counter
-- of `Ring.ID`. Most of them draw a number and write it to `UserData`; some read it
-- back from the slot, and `onListen` takes its numbers from elsewhere.
import Iouring.Prepare

open counter machine

namespace iouring.prepare_calls

open submit_queue (FieldWrite SubmitEntry Prepare Opcode Slice Reserved Pc EnterCall slotOf
  prepareTransfer)

/-! ## The operations -/

/-- One line of a caller that has the entry. -/
inductive Fill where
  -- `r.ID()`
  | draw
  | set (w : FieldWrite)
  -- `sqe.UserData = id`
  | setId
  -- `&b[0]` of an empty slice
  | panic
  deriving DecidableEq, Repr

/-- The lines of a `Prepare` function, from its writes. `sqe.UserData = r.ID()` is two. -/
def lines (ws : List FieldWrite) : List Fill :=
  ws.flatMap fun w =>
    match w with
    | .userData _ => [.draw, .setId]
    | w => [.set w]

/-- The writes before the address of an empty slice is taken. -/
def transferBefore (op : Opcode) (fd : Int32) (offset : UInt64) (flags : UInt8) :
    List FieldWrite :=
  [.opcode op.code, .userData 0, .fd fd, .len 0, .flags flags, .offset offset]

def vectorBefore (op : Opcode) (fd : Int64) : List FieldWrite :=
  [.opcode op.code, .userData 0, .fd fd.toInt32]

def bufferBefore (op : Opcode) (fd : Int64) (flags : UInt8) : List FieldWrite :=
  [.opcode op.code, .userData 0, .fd fd.toInt32, .len 0, .flags flags]

/-- What a call of a `Prepare` function has written when it panics. -/
def beforePanic : Prepare → List FieldWrite
  | .readv fd _ _ => vectorBefore .readv fd
  | .writev fd _ _ => vectorBefore .writev fd
  | .read fd _ offset flags => transferBefore .read fd.toInt32 offset flags
  | .write fd _ offset flags => transferBefore .write fd.toInt32 offset flags
  | .fioRead fd _ fOffset flags => transferBefore .read fd fOffset.toUInt64 flags
  | .fioWrite fd _ fOffset flags => transferBefore .write fd fOffset.toUInt64 flags
  | .readFixed fd _ flags => bufferBefore .readFixed fd flags
  | .writeFixed fd _ flags => bufferBefore .writeFixed fd flags
  | .send fd _ flags => bufferBefore .send fd flags
  | .recv fd _ flags => bufferBefore .recv fd flags
  | _ => []

/-- The lines with their writes, or those up to the panic. -/
def linesOr (ws : Option (List FieldWrite)) (before : List FieldWrite) : List Fill :=
  match ws with
  | some ws => lines ws
  | none => lines before ++ [.panic]

/-- `sqe.Addr = &b[0]`. -/
def address (b : Slice) : List Fill :=
  match b.first with
  | some first => [.set (.addr first)]
  | none => [.panic]

def POLLIN : Int32 := 1

/-- `sqe.Opcode = PollAdd` and the two lines that follow it. -/
def pollAdd (fd : Int64) : List Fill :=
  [.set (.opcode Opcode.pollAdd.code), .set (.fd fd.toInt32), .set (.uflags POLLIN)]

/-- What submits an entry: the `Prepare` functions of `Ring` and `ringFIO`, `WriteAt` and
`ReadAt` of `ringFIO`, `Read`, `Write`, `rePoll` and `run` of `ringConn`, and `run` and the two
polls of `onListen` of `ringListener`. -/
inductive Operation where
  | prepare (c : Prepare)
  | writeAt (fd : Int32) (b : Slice) (o : Int64)
  | readAt (fd : Int32) (b : Slice) (o : Int64)
  | connRead (fd : Int64) (b : Slice)
  | connWrite (fd : Int64) (b : Slice)
  | rePoll (fd : Int64)
  | connRun (fd : Int64)
  | listenerRun (fd : Int64)
  | listenNew (fd : Int64)
  | listenOld (fd : Int64)
  deriving DecidableEq, Repr

/-- The lines between `SubmitEntry` and the closure. -/
def Operation.fills : Operation → List Fill
  | .prepare c => linesOr (c.writes 0) (beforePanic c)
  | .writeAt fd b o =>
    linesOr (prepareTransfer .write fd b o.toUInt64 0 0) (transferBefore .write fd o.toUInt64 0)
  | .readAt fd b o =>
    linesOr (prepareTransfer .read fd b o.toUInt64 0 0) (transferBefore .read fd o.toUInt64 0)
  | .connRead fd b =>
    [.set (.opcode Opcode.readFixed.code), .set (.fd fd.toInt32),
      .set (.len (UInt32.ofNat b.len)), .set (.flags 0)] ++ address b ++ [.draw, .setId]
  | .connWrite fd b =>
    [.set (.opcode Opcode.writeFixed.code), .set (.fd fd.toInt32),
      .set (.len (UInt32.ofNat b.len))] ++ address b ++ [.draw, .setId]
  | .rePoll fd | .listenerRun fd => pollAdd fd ++ [.setId]
  | .connRun fd =>
    [.set (.opcode Opcode.pollRemove.code), .set (.fd fd.toInt32), .setId]
  -- newConnInfo.id is never set
  | .listenNew fd => pollAdd fd ++ [.set (.userData 0)]
  | .listenOld fd => pollAdd fd ++ [.set (.userData fd.toUInt64)]

/-- The operation draws its number before it calls `SubmitEntry`. -/
def Operation.drawsFirst : Operation → Bool
  | .rePoll _ | .connRun _ | .listenerRun _ => true
  | _ => false

/-- The number of an operation that does not draw one. -/
def Operation.fixed : Operation → Option UInt64
  | .listenNew _ => some 0
  | .listenOld fd => some fd.toUInt64
  | _ => none

/-- When an operation reads `sqe.UserData` back from the slot. -/
inductive ReadsBack where
  | never
  | beforeClosure
  | afterClosure
  deriving DecidableEq, Repr

def Operation.readsBack : Operation → ReadsBack
  | .prepare (.fioRead ..) | .prepare (.fioWrite ..) => .beforeClosure
  | .prepare _ | .writeAt .. | .readAt .. => .afterClosure
  | _ => .never

/-! ## The calls -/

/-- Where a goroutine stands in an operation. While it is inside `SubmitEntry` or the
closure, the submission queue says where. -/
inductive Job where
  | idle
  | drawFirst (op : Operation)
  | fill (back : ReadsBack) (num : Option UInt64) (todo : List Fill)
  | close (back : ReadsBack) (num : Option UInt64)
  | readBack (num : Option UInt64) (r : Reserved)
  | panicked
  deriving DecidableEq, Repr

/-- The queue, the counter of `Ring.ID` and the operations under way. -/
structure State (ι : Type) where
  queue : submit_queue.State ι
  idx : UInt64
  jobs : ι → Job
  /-- How many numbers have been drawn. No step reads this or what follows. -/
  draws : Nat
  /-- The numbers of the polls of `onListen` whose completion is not consumed. -/
  listens : List UInt64
  /-- `UserData` of each committed entry whose completion is not consumed. -/
  out : List UInt64
  /-- What has been read back, next to the number of the operation. -/
  returned : List (Option UInt64 × UInt64)

/-- A new ring; `start` is the value of `WithID`, or 0. -/
def init (ι : Type) (start : UInt64) : State ι :=
  ⟨submit_queue.init ι, start, fun _ => .idle, 0, [], [], []⟩

variable {ι : Type}

/-- The entry of a reservation. -/
def State.entry (z : Size) (s : State ι) (r : Reserved) : SubmitEntry :=
  s.queue.mem.entries (slotOf z r.tail)

/-- What can happen next: a goroutine starts an operation or an enter, or takes its next step;
the syscall fails; the kernel sets the flags word; or the completion of an entry that the
kernel has read is consumed. -/
inductive Act (ι : Type) where
  | call (g : ι) (op : Operation)
  | enter (g : ι) (c : EnterCall)
  | step (g : ι)
  | fail (g : ι)
  | setFlags (v : UInt32)
  | consumed (id : UInt64)
  deriving DecidableEq, Repr

variable [DecidableEq ι]

def State.goto (s : State ι) (g : ι) (j : Job) : State ι :=
  { s with jobs := Function.update s.jobs g j }

/-- `Ring.ID`. -/
def State.draw (s : State ι) : State ι := { s with idx := s.idx + 1, draws := s.draws + 1 }

/-- A step of the submission queue. -/
def queueStep (z : Size) (s : State ι) (b : submit_queue.Act ι) : Option (State ι) :=
  (submit_queue.step z s.queue b).map fun q => { s with queue := q }

/-- The next line of a caller that has the entry of `r`. -/
def fillStep (z : Size) (s : State ι) (g : ι) (r : Reserved) (back : ReadsBack)
    (num : Option UInt64) : List Fill → Option (State ι)
  | [] =>
    match back with
    | .beforeClosure =>
      some { s.goto g (.fill .never num []) with
        returned := s.returned ++ [(num, (s.entry z r).userData)] }
    | back => queueStep z (s.goto g (.close back num)) (.commit g)
  | .draw :: todo => some (s.draw.goto g (.fill back (some (s.idx + 1)) todo))
  | .set w :: todo => queueStep z (s.goto g (.fill back num todo)) (.write g w)
  | .setId :: todo =>
    match num with
    | none => none
    | some id => queueStep z (s.goto g (.fill back num todo)) (.write g (.userData id))
  | .panic :: _ => some (s.goto g .panicked)

/-- The end of the closure: the entry is committed. -/
def store (z : Size) (s : State ι) (g : ι) (r : Reserved) (back : ReadsBack)
    (num : Option UInt64) : Option (State ι) :=
  let job := if back = .afterClosure then .readBack num r else .idle
  queueStep z { s.goto g job with out := s.out ++ [(s.entry z r).userData] } (.step g)

/-- The next step of a goroutine. -/
def stepJob (z : Size) (s : State ι) (g : ι) : Option (State ι) :=
  match s.jobs g with
  | .idle => queueStep z s (.step g)
  | .drawFirst op =>
    queueStep z (s.draw.goto g (.fill op.readsBack (some (s.idx + 1)) op.fills)) (.submitEntry g)
  | .fill back num todo =>
    match s.queue.pc g with
    | .holding r => fillStep z s g r back num todo
    | _ => queueStep z s (.step g)
  | .close back num =>
    match s.queue.pc g with
    | .storeArray r => store z s g r back num
    | _ => queueStep z s (.step g)
  | .readBack num r =>
    some { s.goto g .idle with returned := s.returned ++ [(num, (s.entry z r).userData)] }
  | .panicked => none

def step (z : Size) (s : State ι) : Act ι → Option (State ι)
  | .call g op =>
    if s.jobs g = .idle ∧ s.queue.pc g = .idle then
      if op.drawsFirst then some (s.goto g (.drawFirst op))
      else
        queueStep z { s.goto g (.fill op.readsBack op.fixed op.fills) with
          listens := s.listens ++ op.fixed.toList } (.submitEntry g)
    else none
  | .enter g c => if s.jobs g = .idle then queueStep z s (.enter g c) else none
  | .step g => stepJob z s g
  | .fail g => queueStep z s (.fail g)
  | .setFlags v => queueStep z s (.setFlags v)
  | .consumed id =>
    if id ∈ s.out ∧ id ∈ s.queue.hist.executed.map (fun p => p.2.userData) then
      some { s with out := s.out.erase id, listens := s.listens.erase id }
    else none

end iouring.prepare_calls
