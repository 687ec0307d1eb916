-- What a listener finds in the completion queue: `walkCq` looks for the completion of a poll
-- that the map of `run` knows, marks it and may move `Head`.
import Iouring.CompletionQueue

open machine counter

namespace iouring.listener

open completion_queue (CompletionEntry CompletionQueue)

/-! ## The listener -/

/-- `CqSeenFlag` of `types.go`. -/
def CqSeenFlag : UInt32 := 1

/-- `connInfo`, as far as the listener uses it. -/
structure ConnInfo where
  fd : Int32
  id : UInt64
  deriving DecidableEq, Repr

/-- The completion queue, and the map that `run` builds. -/
structure State where
  cq : CompletionQueue
  conns : UInt64 → Option ConnInfo

/-- The state after the first `PollAdd` of `run`, on a ring that is new. -/
def start (fd : Int32) (id : UInt64) : State :=
  { cq := ⟨0, 0, fun _ => .zero⟩
    conns := fun k => if k = id then some ⟨fd, id⟩ else none }

/-- `CompletionEntry.IsZero`. -/
def isZero (c : CompletionEntry) : Bool := c.userData == 0 && c.res == 0 && c.flags == 0

/-- One of the two loops of `walkCq`, from slot `i` on for `turns` slots: the slot
of the first entry that `conns` knows, what `seenIdx` is there, and the
connection. -/
def scan (conns : UInt64 → Option ConnInfo) (entries : Nat → CompletionEntry) :
    Nat → Nat → Nat → Bool → Option (Nat × Nat × ConnInfo)
  | 0, _, _, _ => none
  | turns + 1, i, seenIdx, seenEnd =>
    let cqe := entries i
    let seen := (cqe.flags &&& CqSeenFlag == CqSeenFlag || isZero cqe) && !seenEnd
    let seenIdx := if seen then i else seenIdx
    match conns cqe.userData with
    | none => scan conns entries turns (i + 1) seenIdx (seenEnd || !seen)
    | some cInfo => some (i, seenIdx, cInfo)

/-- What `walkCq` does at a hit before it calls `onListen`: it marks the entry and
moves `Head` up to `seenIdx`. -/
def mark (cq : CompletionQueue) (i seenIdx : Nat) : CompletionQueue :=
  let cqe := cq.entries i
  { cq with
    head := if cq.head < UInt32.ofNat seenIdx then UInt32.ofNat seenIdx else cq.head
    entries := Function.update cq.entries i { cqe with flags := cqe.flags ||| CqSeenFlag } }

/-- The hit of `walkCq`. The first loop does nothing when the window wraps. -/
def hit (z : Size) (s : State) : Option (Nat × Nat × ConnInfo) :=
  let first := (s.cq.head &&& z.mask).toNat
  let last := (s.cq.tail &&& z.mask).toNat
  if first = last then none
  else
    (scan s.conns s.cq.entries (last + 1 - first) first first false).or
      (scan s.conns s.cq.entries (last + 1) 0 0 false)

/-- `ringListener.walkCq`, and the connection that it calls `onListen` with. -/
def walkCq (z : Size) (s : State) : State × Option ConnInfo :=
  match hit z s with
  | none => (s, none)
  | some (i, seenIdx, cInfo) => ({ s with cq := mark s.cq i seenIdx }, some cInfo)

/-- What happens to the queue beside the walks: the kernel posts an entry, or another user of
the ring moves `Head`. -/
inductive Act where
  | post (c : CompletionEntry)
  | moveHead (head : UInt32)
  deriving DecidableEq, Repr

def step (z : Size) (s : State) : Act → Option State
  | .post c => (s.cq.publish z c).map fun cq => { s with cq := cq }
  | .moveHead head => some { s with cq := { s.cq with head := head } }

/-- A hit is an entry that the map knows. -/
theorem scan_conns {conns : UInt64 → Option ConnInfo} {entries : Nat → CompletionEntry}
    {turns i seenIdx j k : Nat} {seenEnd : Bool} {cInfo : ConnInfo}
    (h : scan conns entries turns i seenIdx seenEnd = some (j, k, cInfo)) :
    conns (entries j).userData = some cInfo := by
  induction turns generalizing i seenIdx seenEnd with
  | zero => cases h
  | succ turns ih =>
    unfold scan at h
    cases hc : conns (entries i).userData with
    | none =>
      simp only [hc] at h
      exact ih h
    | some c =>
      simp only [hc, Option.some.injEq, Prod.mk.injEq] at h
      obtain ⟨rfl, -, rfl⟩ := h
      exact hc

theorem hit_conns {z : Size} {s : State} {j k : Nat} {cInfo : ConnInfo}
    (h : hit z s = some (j, k, cInfo)) : s.conns (s.cq.entries j).userData = some cInfo := by
  unfold hit at h
  simp only [Option.ite_none_left_eq_some, Option.or_eq_some_iff] at h
  rcases h.2 with h | ⟨-, h⟩
  · exact scan_conns h
  · exact scan_conns h

/-- Nothing but `run` writes to the map. -/
theorem step_conns {z : Size} {s s' : State} {a : Act} (h : step z s a = some s') :
    s'.conns = s.conns := by
  cases a with
  | post c =>
    obtain ⟨cq, -, rfl⟩ := Option.map_eq_some_iff.mp h
    rfl
  | moveHead head =>
    cases h
    rfl

theorem walkCq_conns (z : Size) (s : State) : (walkCq z s).1.conns = s.conns := by
  unfold walkCq
  cases hit z s <;> rfl

/-- `walkCq` calls `onListen` with a connection of the map. -/
theorem walkCq_known {z : Size} {s : State} {cInfo : ConnInfo} (h : (walkCq z s).2 = some cInfo) :
    ∃ id, s.conns id = some cInfo := by
  unfold walkCq at h
  cases hh : hit z s with
  | none =>
    rw [hh] at h
    cases h
  | some x =>
    obtain ⟨i, k, c⟩ := x
    rw [hh] at h
    cases h
    exact ⟨_, hit_conns hh⟩

end iouring.listener
