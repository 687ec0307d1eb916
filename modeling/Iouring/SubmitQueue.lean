-- The submission queue: `Ring.SubmitEntry` and the closure it returns,
-- `Ring.Enter`, `enterLock`, `enterUnlock` and `completeWrite`, for any
-- number of goroutines. Every atomic operation and every plain write is a
-- step of its own, so a run of the machine is an interleaving of the calls.
import Iouring.Machine
import Iouring.Counter
import Mathlib.Logic.Function.Basic

open counter machine

namespace iouring.submit_queue

/-! ## The entries -/

/-- `Nop`, the opcode of a reset entry. -/
def Nop : UInt8 := 0

/-- `SubmitEntry` of `types.go`. -/
structure SubmitEntry where
  opcode : UInt8
  flags : UInt8
  ioprio : UInt16
  fd : Int32
  offset : UInt64
  addr : UInt64
  len : UInt32
  uflags : Int32
  userData : UInt64
  anon0 : Vector UInt8 24
  deriving DecidableEq, Repr

/-- One plain write to a field of an entry. -/
inductive FieldWrite where
  | opcode (v : UInt8)
  | flags (v : UInt8)
  | ioprio (v : UInt16)
  | fd (v : Int32)
  | offset (v : UInt64)
  | addr (v : UInt64)
  | len (v : UInt32)
  | uflags (v : Int32)
  | userData (v : UInt64)
  | anon0 (v : Vector UInt8 24)
  deriving DecidableEq, Repr

def FieldWrite.apply (e : SubmitEntry) : FieldWrite → SubmitEntry
  | .opcode v => { e with opcode := v }
  | .flags v => { e with flags := v }
  | .ioprio v => { e with ioprio := v }
  | .fd v => { e with fd := v }
  | .offset v => { e with offset := v }
  | .addr v => { e with addr := v }
  | .len v => { e with len := v }
  | .uflags v => { e with uflags := v }
  | .userData v => { e with userData := v }
  | .anon0 v => { e with anon0 := v }

/-- The writes of `SubmitEntry.Reset`, in their order. `Anon0` keeps what it held. -/
def resetWrites : List FieldWrite :=
  [.opcode Nop, .flags 0, .ioprio 0, .fd (-1), .offset 0, .addr 0, .len 0, .uflags 0,
    .userData 0]

/-- The entry that `mmap` gives: all bytes zero. -/
def SubmitEntry.zero : SubmitEntry :=
  ⟨0, 0, 0, 0, 0, 0, 0, 0, 0, Vector.replicate 24 0⟩

/-! ## The shared words -/

/-- The words of `SubmitQueue` that the calls share. `Mask` and the length of
`Entries` come from the ring size and never change. -/
structure SubmitQueue where
  head : UInt32
  tail : UInt32
  flags : UInt32
  array : Nat → UInt32
  entries : Nat → SubmitEntry
  entered : UInt32
  writes : UInt32

def SqNeedWakeup : UInt32 := 1

def EnterSqWakeup : UInt64 := 2

def EnterGetEvents : UInt64 := 1

/-- `next := tail&mask + 1` of `SubmitEntry`. -/
def next (z : Size) (tail : UInt32) : UInt32 := (tail &&& z.mask) + 1

/-- The index `tail&mask` of the entry that a tail value stands for. -/
def slotOf (z : Size) (tail : UInt32) : Nat := (tail &&& z.mask).toNat

/-! ## The goroutines -/

/-- What a call of `SubmitEntry` keeps once its CAS on `Tail` has gone
through. The ticket numbers the CAS among all that have gone through. -/
structure Reserved where
  tail : UInt32
  head : UInt32
  ticket : Nat
  deriving DecidableEq, Repr

/-- The arguments of `Ring.Enter`. -/
structure EnterCall where
  toSubmit : Nat
  minComplete : Nat
  flags : UInt64
  deriving DecidableEq, Repr

/-- Where a goroutine stands. Each value names the step that comes next. -/
inductive Pc where
  | idle
  -- Ring.SubmitEntry
  | loadTail
  | loadHead (tail : UInt32)
  | casTail (tail head : UInt32)
  | restart (tail : UInt32)
  | loadEntered (r : Reserved)
  | addWrites (r : Reserved)
  | reset (r : Reserved) (todo : List FieldWrite)
  -- the caller has the entry and the closure
  | holding (r : Reserved)
  -- the closure: completeWrite, then the store to Array
  | loadWrites (r : Reserved)
  | casWrites (r : Reserved) (w : UInt32)
  | storeArray (r : Reserved)
  | panicked (r : Reserved)
  -- Ring.Enter
  | needWakeup (c : EnterCall)
  | lockWrites (c : EnterCall)
  | lockEntered (c : EnterCall)
  | lockCas (c : EnterCall)
  | syscall (c : EnterCall)
  | unlock (c : EnterCall) (completed : Option Nat)
  deriving DecidableEq, Repr

/-- What has happened so far. No step reads it. -/
structure History (ι : Type) where
  /-- How often a CAS has moved `Tail`. -/
  tickets : Nat
  /-- How many entries `SubmitEntry` has returned. -/
  returned : Nat
  /-- How often the current call of each goroutine has moved `Tail`. -/
  advanced : ι → Nat
  /-- The tickets whose place in the queue the kernel has not passed. -/
  unread : List Nat
  /-- The tickets whose caller has filled the entry and called the closure. -/
  filled : List Nat
  /-- The tickets whose closure has stored to `Array`. -/
  stored : List Nat
  /-- The tickets that are committed and whose entry the kernel has not read. -/
  pending : List Nat
  /-- The committed entries, with their slots, oldest first. -/
  prepared : List (Nat × SubmitEntry)
  /-- The entries that the kernel has read, with their slots, oldest first. -/
  executed : List (Nat × SubmitEntry)

structure State (ι : Type) where
  mem : SubmitQueue
  pc : ι → Pc
  hist : History ι

def SubmitQueue.zero : SubmitQueue :=
  ⟨0, 0, 0, fun _ => 0, fun _ => SubmitEntry.zero, 0, 0⟩

def init (ι : Type) : State ι :=
  ⟨SubmitQueue.zero, fun _ => .idle, ⟨0, 0, fun _ => 0, [], [], [], [], [], []⟩⟩

/-! ## The kernel -/

/-- How many entries an enter with `toSubmit` takes from the queue. -/
def consumable (z : Size) (m : SubmitQueue) (toSubmit : Nat) : Nat :=
  min toSubmit (min (m.tail - m.head).toNat z.slots)

variable {ι : Type}

/-- The kernel takes the entry at its head: it reads `Array` there, then the
entry that `Array` names, and moves on. -/
def consumeOne (z : Size) (s : State ι) : State ι :=
  let place := slotOf z s.mem.head
  let slot := (s.mem.array place).toNat
  { s with
    mem := { s.mem with head := s.mem.head + 1 }
    hist := { s.hist with
      unread := s.hist.unread.filter fun k => k % z.slots ≠ place
      pending := s.hist.pending.filter fun k => k % z.slots ≠ slot
      executed := s.hist.executed ++ [(slot, s.mem.entries slot)] } }

def consume (z : Size) : Nat → State ι → State ι
  | 0, s => s
  | c + 1, s => consume z c (consumeOne z s)

/-! ## The steps -/

def State.setEntry (s : State ι) (slot : Nat) (e : SubmitEntry) : State ι :=
  { s with mem := { s.mem with entries := Function.update s.mem.entries slot e } }

variable [DecidableEq ι]

def State.goto (s : State ι) (g : ι) (p : Pc) : State ι :=
  { s with pc := Function.update s.pc g p }

/-- The CAS on `Tail` of `SubmitEntry`. -/
def casTail (z : Size) (s : State ι) (g : ι) (tail head : UInt32) : State ι :=
  if s.mem.tail = tail then
    { s with
      mem := { s.mem with tail := next z tail }
      pc := Function.update s.pc g (.loadEntered ⟨tail, head, s.hist.tickets⟩)
      hist := { s.hist with
        tickets := s.hist.tickets + 1
        advanced := Function.update s.hist.advanced g (s.hist.advanced g + 1)
        unread := s.hist.unread ++ [s.hist.tickets] } }
  else s.goto g .loadTail

/-- The last line of the closure, `r.sq.Array[next-1] = head & mask`. -/
def storeArray (z : Size) (s : State ι) (g : ι) (r : Reserved) : State ι :=
  { s with
    mem := { s.mem with
      array := Function.update s.mem.array (next z r.tail - 1).toNat (r.head &&& z.mask) }
    pc := Function.update s.pc g .idle
    hist := { s.hist with
      stored := s.hist.stored ++ [r.ticket]
      pending := s.hist.pending ++ [r.ticket]
      prepared := s.hist.prepared ++ [(slotOf z r.tail, s.mem.entries (slotOf z r.tail))] } }

/-- The next step of a goroutine that is inside a call. -/
def stepPc (z : Size) (s : State ι) (g : ι) : Option (State ι) :=
  match s.pc g with
  | .idle | .holding _ | .panicked _ => none
  | .loadTail => some (s.goto g (.loadHead s.mem.tail))
  | .loadHead tail =>
    if next z tail ≤ UInt32.ofNat z.slots then some (s.goto g (.casTail tail s.mem.head))
    else some (s.goto g (.restart tail))
  | .casTail tail head => some (casTail z s g tail head)
  | .restart tail =>
    some { s with
      mem := { s.mem with tail := if s.mem.tail = tail then 0 else s.mem.tail }
      pc := Function.update s.pc g .loadTail }
  | .loadEntered r =>
    if s.mem.entered ≠ 0 then some (s.goto g .loadTail) else some (s.goto g (.addWrites r))
  | .addWrites r =>
    some { s with
      mem := { s.mem with writes := s.mem.writes + 1 }
      pc := Function.update s.pc g (.reset r resetWrites) }
  | .reset r [] =>
    some { s with
      pc := Function.update s.pc g (.holding r)
      hist := { s.hist with returned := s.hist.returned + 1 } }
  | .reset r (w :: todo) =>
    let slot := slotOf z r.tail
    some ((s.setEntry slot (w.apply (s.mem.entries slot))).goto g (.reset r todo))
  | .loadWrites r =>
    if s.mem.writes = 0 then some (s.goto g (.panicked r))
    else some (s.goto g (.casWrites r s.mem.writes))
  | .casWrites r w =>
    if s.mem.writes = w then
      some { s with
        mem := { s.mem with writes := w - 1 }
        pc := Function.update s.pc g (.storeArray r) }
    else some (s.goto g (.loadWrites r))
  | .storeArray r => some (storeArray z s g r)
  | .needWakeup c =>
    if s.mem.flags &&& SqNeedWakeup ≠ 0 then
      some (s.goto g (.lockWrites { c with flags := c.flags ||| EnterSqWakeup }))
    else some (s.goto g (.lockWrites c))
  -- enterLock spins only while both words are set
  | .lockWrites c =>
    if s.mem.writes ≠ 0 then some (s.goto g (.lockEntered c)) else some (s.goto g (.lockCas c))
  | .lockEntered c =>
    if s.mem.entered = 1 then some (s.goto g (.lockWrites c)) else some (s.goto g (.lockCas c))
  | .lockCas c =>
    if s.mem.entered = 0 then
      some { s with
        mem := { s.mem with entered := 1 }
        pc := Function.update s.pc g (.syscall c) }
    else some (s.goto g (.lockWrites c))
  | .syscall c =>
    let k := consumable z s.mem c.toSubmit
    some ((consume z k s).goto g (.unlock c (some k)))
  | .unlock _ _ =>
    some { s with
      mem := { s.mem with entered := 0 }
      pc := Function.update s.pc g .idle }

/-- What can happen next: a goroutine starts a call, writes to the entry it
holds, runs the closure, or takes the next step of its call; the syscall
fails; or the kernel sets the flags word. -/
inductive Act (ι : Type) where
  | submitEntry (g : ι)
  | write (g : ι) (w : FieldWrite)
  | commit (g : ι)
  | enter (g : ι) (c : EnterCall)
  | step (g : ι)
  | fail (g : ι)
  | setFlags (v : UInt32)
  deriving DecidableEq, Repr

def step (z : Size) (s : State ι) : Act ι → Option (State ι)
  | .submitEntry g =>
    match s.pc g with
    | .idle =>
      some { s with
        pc := Function.update s.pc g .loadTail
        hist := { s.hist with advanced := Function.update s.hist.advanced g 0 } }
    | _ => none
  | .write g w =>
    match s.pc g with
    | .holding r =>
      some (s.setEntry (slotOf z r.tail) (w.apply (s.mem.entries (slotOf z r.tail))))
    | _ => none
  | .commit g =>
    match s.pc g with
    | .holding r =>
      some { s with
        pc := Function.update s.pc g (.loadWrites r)
        hist := { s.hist with filled := s.hist.filled ++ [r.ticket] } }
    | _ => none
  | .enter g c =>
    match s.pc g with
    | .idle => some (s.goto g (.needWakeup c))
    | _ => none
  | .step g => stepPc z s g
  | .fail g =>
    match s.pc g with
    | .syscall c => some (s.goto g (.unlock c none))
    | _ => none
  | .setFlags v => some { s with mem := { s.mem with flags := v } }

/-! ## Calls that nobody disturbs -/

/-- A call of `SubmitEntry` that gets its entry at the first try. -/
def submitEntryActs (g : ι) : List (Act ι) := .submitEntry g :: List.replicate 15 (.step g)

/-- A call of the closure whose CAS goes through at once. -/
def commitActs (g : ι) : List (Act ι) := .commit g :: List.replicate 3 (.step g)

/-- A call of `Ring.Enter` that finds no writer and no other enter. -/
def enterActs (g : ι) (c : EnterCall) : List (Act ι) := .enter g c :: List.replicate 5 (.step g)

end iouring.submit_queue
