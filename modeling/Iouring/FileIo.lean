-- `Read`, `Write` and `Seek` of a `ringFIO` by one goroutine, down to the bytes: the
-- submission of an entry, the kernel that executes it on the file and on the
-- caller's memory, the search for its completion next to the completer, and
-- what the call answers.
import Iouring.Abi
import Iouring.CursorFile
import Iouring.FioResults
import Iouring.SubmitRounds

open counter machine
open cursor_file (Answer Event Op Outcome overwrite slice)
open iouring.completion_queue (errnoOf publish)
open iouring.submit_queue (EnterGetEvents FieldWrite Memory Opcode Slice SubmitEntry fioPrepareRead
  fioPrepareWrite opStep)

namespace iouring.submit_queue

/-- The memory after `bytes` were copied to `a`. -/
def Memory.store (mem : Memory) (a : UInt64) (bytes : List UInt8) : Memory :=
  fun x => (bytes[(x - a).toNat]?).getD (mem x)

end iouring.submit_queue

namespace iouring.file_io

/-! ## The calls -/

/-- An error: the one that the kernel gives to the operation, or the one of `Enter`. -/
inductive Failure where
  | errno (e : UInt64)
  | enter
  deriving DecidableEq, Repr

/-- A call on the file. The data of a write stand at `addr` when it is called. -/
inductive Call where
  | read (b : Slice)
  | write (addr : UInt64) (data : List UInt8)
  | seekStart (o : Int64)
  | seekCurrent (d : Int64)
  deriving DecidableEq, Repr

/-- The call as one on a file with a cursor. -/
def Call.op : Call → Op UInt8
  | .read b => .read b.len
  | .write _ data => .write data
  | .seekStart o => .seekStart o.toInt.toNat
  | .seekCurrent d => .seekCurrent d.toInt

/-- Buffers are not empty and their lengths fit `Len`, and no seek leaves a negative
cursor. -/
def Call.Ok (fOffset : Int64) : Call → Prop
  | .read b => 0 < b.len ∧ b.len < 2 ^ 32
  | .write _ data => 0 < data.length ∧ data.length < 2 ^ 32
  | .seekStart o => 0 ≤ o.toInt
  | .seekCurrent d => 0 ≤ (fOffset + d).toInt

instance (fOffset : Int64) : ∀ c : Call, Decidable (c.Ok fOffset)
  | .read b => inferInstanceAs (Decidable (0 < b.len ∧ b.len < 2 ^ 32))
  | .write _ data => inferInstanceAs (Decidable (0 < data.length ∧ data.length < 2 ^ 32))
  | .seekStart o => inferInstanceAs (Decidable (0 ≤ o.toInt))
  | .seekCurrent d => inferInstanceAs (Decidable (0 ≤ (fOffset + d).toInt))

/-- The cursor that `Seek` stores. -/
def Call.seek (fOffset : Int64) : Call → Option Int64
  | .seekStart o => some o
  | .seekCurrent d => some (fOffset + d)
  | .read _ | .write _ _ => none

/-- What `PrepareRead` or `PrepareWrite` writes to the entry. -/
def Call.prepare (fd : Int32) (fOffset : Int64) (id : UInt64) : Call → Option (List FieldWrite)
  | .read b => fioPrepareRead fd b fOffset 0 id
  | .write addr data => fioPrepareWrite fd ⟨addr, data.length⟩ fOffset 0 id
  | .seekStart _ | .seekCurrent _ => none

/-- The caller's buffer when it calls. -/
def Call.fill (mem : Memory) : Call → Memory
  | .write addr data => mem.store addr data
  | _ => mem

/-- What `Read` and `Write` make of the result of `getCqe`. -/
def answer (mem : Memory) (c : Call) : ring_fio.Result → Answer UInt8 Failure
  | .errno e => ⟨0, some (.failed (.errno e)), []⟩
  | .enterFailed => ⟨0, some (.failed .enter), []⟩
  | .count n =>
    match c with
    | .read b => if n = 0 then ⟨n, some .eof, []⟩ else ⟨n, none, mem.bytes b.data n.toNat⟩
    | _ => ⟨n, none, []⟩

/-! ## The ring, the file and the memory -/

/-- The queues, the next id, the file and the memory; the entries that the kernel
has taken and not completed; and the call under way. What the kernel has done
for it and the calls that have returned are kept for the laws only. -/
structure State where
  sq : submit_queue.State Unit
  fio : ring_fio.State Unit
  idx : UInt64
  file : List UInt8
  mem : Memory
  kernel : List SubmitEntry
  call : Option Call
  outcome : Option (Outcome Failure)
  log : List (Event UInt8 Failure)

/-- `fileReadWriter` on a file with the given contents: the cursor is 0. -/
def init (idx : UInt64) (contents : List UInt8) (mem : Memory) : State :=
  ⟨submit_queue.init Unit, ring_fio.init Unit, idx, contents, mem, [], none, none, []⟩

def State.fOffset (s : State) : Int64 := s.fio.fOffset 0

/-- What can happen next: a call; the `Enter` of the call, or its failure; the kernel
executes the `i`-th of the entries it has taken and transfers `k` bytes, or gives it
an error; the completer takes a step; the call takes its next step. -/
inductive Act where
  | call (c : Call)
  | enter
  | enterFails
  | execute (i k : Nat) (flags : UInt32)
  | refuse (i : Nat) (res : Int32) (flags : UInt32)
  | completer
  | step
  deriving DecidableEq, Repr

/-- The kernel transfers `k` bytes for an entry: the file and the memory afterwards.
A file is shorter than 2^63 bytes, and `Res` holds less than 2^31. -/
def transfer (fd : Int32) (file : List UInt8) (mem : Memory) (e : SubmitEntry) (k : Nat) :
    Option (List UInt8 × Memory) :=
  let o := e.offset.toNat
  if e.fd = fd ∧ k ≤ e.len.toNat ∧ k < 2 ^ 31 then
    if e.opcode = Opcode.read.code then
      if if k = 0 then file.length ≤ o else o + k ≤ file.length then
        some (file, mem.store e.addr (slice file o k))
      else none
    else if e.opcode = Opcode.write.code ∧ o + k < 2 ^ 63 then
      some (overwrite file o (mem.bytes e.addr k), mem)
    else none
  else none

/-! ## The steps -/

/-- `Enter(1, 1, EnterGetEvents)` up to its end, when the syscall fails. -/
def failedEnterActs : List (submit_queue.Act Unit) :=
  .enter () ⟨1, 1, EnterGetEvents⟩ :: List.replicate 3 (.step ()) ++ [.fail (), .step ()]

/-- The call returns with the last result of `getCqe`. -/
def State.ret (s : State) (f : ring_fio.State Unit) : State :=
  match s.call, f.results.getLast? with
  | some c, some (_, r) =>
    { s with
      fio := f
      call := none
      outcome := none
      log := s.log ++ [⟨c.op, s.outcome, answer s.mem c r⟩] }
  | _, _ => { s with fio := f }

/-- A call of `Read` or `Write`, up to the `Enter` in `getCqe`. -/
def start (zs : Size) (fd : Int32) (s : State) (c : Call) : Option State :=
  let id := s.idx + 1
  (c.prepare fd s.fOffset id).bind fun ws =>
    (opStep zs s.sq (.submit () ws)).map fun q =>
      { s with
        sq := q
        fio := { s.fio.goto () (.enter ⟨0, id, 1, 1⟩) with asked := s.fio.asked ++ [id] }
        idx := id
        mem := c.fill s.mem
        call := some c }

/-- The kernel posts the completion of the `i`-th of its entries. -/
def post (zc : Size) (s : State) (i : Nat) (e : SubmitEntry) (res : Int32) (flags : UInt32) :
    Option State :=
  (publish zc s.fio.queue ⟨e.userData, res, flags⟩).map fun q =>
    { s with fio := { s.fio with queue := q }, kernel := s.kernel.eraseIdx i }

def step (zs zc : Size) (fd : Int32) (s : State) : Act → Option State
  | .call c =>
    if s.call = none ∧ c.Ok s.fOffset then
      match c.seek s.fOffset with
      | some o =>
        some { s with
          fio := { s.fio with fOffset := Function.update s.fio.fOffset 0 o }
          log := s.log ++ [⟨c.op, some (.done 0), ⟨0, none, []⟩⟩] }
      | none => start zs fd s c
    else none
  | .enter =>
    match s.fio.pc () with
    | .enter c =>
      (opStep zs s.sq (.enter () ⟨1, 1, EnterGetEvents⟩)).map fun q =>
        { s with
          sq := q
          fio := s.fio.goto () (.loadHead c)
          kernel := s.kernel ++ (q.hist.executed.drop s.sq.hist.executed.length).map (·.2) }
    | _ => none
  | .enterFails =>
    match s.fio.pc () with
    | .enter c =>
      (run (submit_queue.step zs) s.sq failedEnterActs).map fun q =>
        { s with sq := q }.ret (s.fio.ret () c .enterFailed)
    | _ => none
  | .execute i k flags =>
    (s.kernel[i]?).bind fun e =>
      (transfer fd s.file s.mem e k).bind fun (file, mem) =>
        post zc { s with file := file, mem := mem, outcome := some (.done k) } i e (.ofNat k) flags
  | .refuse i res flags =>
    if res < 0 then
      (s.kernel[i]?).bind fun e =>
        post zc { s with outcome := some (.fail (.errno (errnoOf res))) } i e res flags
    else none
  | .completer =>
    (completion_queue.completerStep zc s.fio.queue).map fun q =>
      { s with fio := { s.fio with queue := q } }
  | .step =>
    match s.fio.pc () with
    | .enter _ => none
    | _ =>
      (ring_fio.stepPc zc s.fio ()).map fun f =>
        if f.pc () = .idle then s.ret f else { s with fio := f }

end iouring.file_io
