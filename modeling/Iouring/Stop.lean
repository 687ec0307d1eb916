-- `Ring.Stop` next to the two goroutines that `New` starts. `Stop` signals
-- neither of them: nobody sends on `r.stop`, and nobody calls `completer.stop`.
-- Each step that reaches the queues is listed with the queues it touches.
import Iouring.RingSteps

open counter machine

namespace iouring.ring_stop

/-! ## The queues and who touches them -/

inductive Queue where
  | sq
  | cq
  deriving DecidableEq, Repr

/-- The mapping of a queue, and the field of `Ring` that points to it. -/
structure Mapping where
  unmapped : Bool
  isNil : Bool
  deriving DecidableEq, Repr

/-- Where `Ring.run` stands in `Enter`. -/
inductive EnterPc where
  | needWakeup
  | enterLock
  | syscall
  | enterUnlock
  deriving DecidableEq, Repr

/-- Where `Stop` stands. -/
inductive StopPc where
  | idle
  -- closeSq
  | checkSq
  | munmapSq
  | nilSq
  -- closeCq
  | checkCq
  | munmapCq
  | nilCq
  | close
  deriving DecidableEq, Repr

structure State (ι : Type) where
  ring : ring.State ι
  enter : EnterPc
  stop : StopPc
  sq : Mapping
  cq : Mapping

def init (ι : Type) : State ι :=
  ⟨ring.init ι, .needWakeup, .idle, ⟨false, false⟩, ⟨false, false⟩⟩

variable {ι : Type}

/-- The queue is unmapped, or its field is nil. -/
def State.closed (s : State ι) : Queue → Bool
  | .sq => s.sq.unmapped || s.sq.isNil
  | .cq => s.cq.unmapped || s.cq.isNil

/-- What can happen next: `Stop` is called or takes its next step, where `errno` is
the answer if that is a `munmap`; `enterLock` takes one more turn; or any other
step of the ring. -/
inductive Act (ι : Type) where
  | stop (errno : UInt64)
  | spin
  | ring (a : ring.Act ι)
  deriving DecidableEq, Repr

/-- The queue that a step of `Ring.run` touches, through `r.sq` or `r.cq`. -/
def runTouches (s : State ι) : List Queue :=
  match s.ring.run with
  | .enter =>
    match s.enter with
    | .needWakeup | .enterLock | .enterUnlock => [.sq]
    | .syscall => []
  | .loadHead | .loadTail _ | .slot _ | .storeHead _ => [.cq]
  | _ => []

/-- The queue that a step of `completer.run` touches, through its own `c.cq`. -/
def completerTouches (s : State ι) : List Queue :=
  match s.ring.queue.completer.pc with
  | .recv => []
  | .loadHead | .addHead _ => [.cq]

def touches (s : State ι) : Act ι → List Queue
  | .spin => if s.ring.run = .enter then [.sq] else []
  | .ring .run => runTouches s
  | .ring .completer => completerTouches s
  | _ => []

/-! ## The steps -/

/-- The next step of `Stop`. With `FeatSingleMmap` both queues are in the one mapping
that `closeSq` unmaps, and `closeCq` is not called. Otherwise `closeCq` unmaps what
`cq.ptr` points to: `MmapRing` never sets it, so that is not the queue. -/
def stopStep (singleMmap : Bool) (s : State ι) (errno : UInt64) : State ι :=
  match s.stop with
  | .idle => { s with stop := .checkSq }
  | .checkSq =>
    { s with stop := if s.sq.isNil then (if singleMmap then .close else .checkCq) else .munmapSq }
  | .munmapSq =>
    if errno = 0 then
      { s with
        sq := { s.sq with unmapped := true }
        cq := { s.cq with unmapped := s.cq.unmapped || singleMmap }
        stop := .nilSq }
    else { s with stop := .idle }
  | .nilSq =>
    { s with
      sq := { s.sq with isNil := true }
      stop := if singleMmap then .close else .checkCq }
  | .checkCq => { s with stop := if s.cq.isNil then .close else .munmapCq }
  | .munmapCq => { s with stop := if errno = 0 then .nilCq else .idle }
  | .nilCq => { s with cq := { s.cq with isNil := true }, stop := .close }
  | .close => { s with stop := .idle }

variable [DecidableEq ι]

/-- The next step of `Ring.run`. -/
def runStep (z : Size) (s : State ι) : Option (State ι) :=
  if s.ring.run = .enter then
    match s.enter with
    | .needWakeup => some { s with enter := .enterLock }
    | .enterLock => some { s with enter := .syscall }
    | .syscall => some { s with enter := .enterUnlock }
    | .enterUnlock =>
      (ring.step z s.ring .run).map fun r => { s with ring := r, enter := .needWakeup }
  else (ring.step z s.ring .run).map fun r => { s with ring := r }

def step (z : Size) (singleMmap : Bool) (s : State ι) : Act ι → Option (State ι)
  | .stop errno => some (stopStep singleMmap s errno)
  | .spin => if s.ring.run = .enter ∧ s.enter = .enterLock then some s else none
  | .ring .run => runStep z s
  | .ring a => (ring.step z s.ring a).map fun r => { s with ring := r }

/-! ## The law and the steps that keep it -/

/-- No step of the two goroutines touches a queue that is closed. -/
def SafeStep (s : State ι) (a : Act ι) : Prop := ∀ q ∈ touches s a, s.closed q = false

instance (s : State ι) (a : Act ι) : Decidable (SafeStep s a) :=
  inferInstanceAs (Decidable (∀ q ∈ touches s a, s.closed q = false))

/-- Both goroutines wait in their selects, and there is nothing for them to take. -/
def Idle (s : ring.State ι) : Prop :=
  s.run = .select ∧ s.completions = [] ∧ s.retry = 0 ∧
    s.queue.completer.pc = .recv ∧ s.queue.completer.seen = []

instance (s : ring.State ι) : Decidable (Idle s) := inferInstanceAs (Decidable (_ ∧ _))

/-- The call is about to send its request to `Ring.run`. -/
def sends : ring.Caller → Bool
  | .send _ _ => true
  | _ => false

/-- `Stop` unmaps when both goroutines are idle, and from then on nobody sends a
request or acknowledges an entry. -/
def StopsIdle (s : State ι) : Act ι → Prop
  | .stop _ => s.stop = .munmapSq → Idle s.ring
  | .ring (.caller g) => s.closed .sq = true → sends (s.ring.callers g) = false
  | .ring (.ack _) => s.closed .sq = false
  | _ => True

instance (s : State ι) : ∀ a, Decidable (StopsIdle s a)
  | .stop _ => inferInstanceAs (Decidable (s.stop = .munmapSq → Idle s.ring))
  | .ring (.caller g) =>
    inferInstanceAs (Decidable (s.closed .sq = true → sends (s.ring.callers g) = false))
  | .ring (.ack _) => inferInstanceAs (Decidable (s.closed .sq = false))
  | .spin | .ring (.post _) | .ring .completer | .ring (.complete _ _ _)
  | .ring .takeCompletion | .ring .takeRetry | .ring .run => isTrue trivial

/-! ## The invariant -/

/-- The completion queue is not closed before the submit queue, and from then on
the goroutines are idle. -/
structure StopInv (s : State ι) : Prop where
  first : s.closed .cq = true → s.closed .sq = true
  after : s.stop = .nilSq ∨ s.stop = .checkCq ∨ s.stop = .munmapCq ∨ s.stop = .nilCq →
    s.closed .sq = true
  idle : s.closed .sq = true → Idle s.ring

omit [DecidableEq ι] in
theorem stopInv_init : StopInv (init ι) where
  first := fun h => by cases h
  after := by simp [init]
  idle := fun h => by cases h

/-- Idle goroutines stay idle as long as nobody sends to them. -/
theorem Idle.move {z : Size} {s s' : ring.State ι} {a : ring.Act ι} (h : Idle s)
    (hack : ∀ p, a ≠ .ack p) (hcaller : ∀ g, a = .caller g → sends (s.callers g) = false)
    (hm : ring.Move z s a s') : Idle s' := by
  obtain ⟨hrun, hcompletions, hretry, hpc, hseen⟩ := h
  cases hm with
  | post hq =>
    obtain ⟨-, rfl⟩ := completion_queue.post_eq hq
    exact ⟨hrun, hcompletions, hretry, hpc, hseen⟩
  | ack hfree hq => exact absurd rfl (hack _)
  | completer hq =>
    unfold completion_queue.completerStep at hq
    rw [hpc, hseen] at hq
    cases hq
  | @send g r id hc hroom =>
    have hsends := hcaller g rfl
    rw [hc] at hsends
    cases hsends
  | takeCompletion hsel hc => rw [hcompletions] at hc; cases hc
  | takeRetry hsel hpos => rw [hretry] at hpos; cases hpos
  | getPooled hc hid hnew hr | getFresh hc hid hnew | setId hc | setRes hc | setFlags hc
  | wake hc hdone | readRes hc | readFlags hc | put hc =>
    exact ⟨hrun, hcompletions, hretry, hpc, hseen⟩
  -- `Ring.run` takes no step of its own from the select
  | pollNone h | pollTake h | insert h | enter h | loadHead h | loadTail h | slotMiss h
  | slotHit h | giveRes h | giveFlags h | signal h | delete h | storeHead h | someInflight h
  | noneInflight h | sendRetry h =>
    rw [hrun] at h
    cases h

omit [DecidableEq ι] in
/-- A step of `Stop` after the first `munmap` closes no queue that the goroutines use. -/
theorem StopInv.stop {s : State ι} (hi : StopInv s) (single : Bool) (errno : UInt64)
    (hidle : s.stop = .munmapSq → Idle s.ring) : StopInv (stopStep single s errno) := by
  have hafter := hi.after
  unfold stopStep
  cases hpc : s.stop with
  | idle => exact ⟨hi.first, by simp, hi.idle⟩
  | checkSq =>
    refine ⟨hi.first, fun hstop => ?_, hi.idle⟩
    cases hnil : s.sq.isNil <;> simp [hnil] at hstop
    simp [State.closed, hnil]
  | munmapSq =>
    simp only
    split
    · refine ⟨fun _ => ?_, fun _ => ?_, fun _ => hidle hpc⟩ <;> simp [State.closed]
    · exact ⟨hi.first, by simp, hi.idle⟩
  | nilSq =>
    have hsq := hafter (Or.inl hpc)
    refine ⟨fun _ => ?_, fun _ => ?_, fun _ => hi.idle hsq⟩ <;> simp [State.closed]
  | checkCq =>
    have hsq := hafter (Or.inr (Or.inl hpc))
    exact ⟨hi.first, fun _ => hsq, hi.idle⟩
  | munmapCq =>
    have hsq := hafter (Or.inr (Or.inr (Or.inl hpc)))
    exact ⟨hi.first, fun _ => hsq, hi.idle⟩
  | nilCq =>
    have hsq := hafter (Or.inr (Or.inr (Or.inr hpc)))
    exact ⟨fun _ => hsq, fun _ => hsq, hi.idle⟩
  | close => exact ⟨hi.first, by simp, hi.idle⟩

omit [DecidableEq ι] in
/-- A step of the goroutines or of a caller. -/
theorem StopInv.ring {s : State ι} (hi : StopInv s) {r : ring.State ι} {e : EnterPc}
    (hidle : Idle s.ring → Idle r) : StopInv { s with ring := r, enter := e } :=
  ⟨hi.first, hi.after, fun hclosed => hidle (hi.idle hclosed)⟩

/-- `Ring.run` takes no step while it is idle. -/
theorem StopInv.run {z : Size} {s s' : State ι} (hi : StopInv s) (hs : runStep z s = some s') :
    StopInv s' := by
  unfold runStep at hs
  split at hs
  · rename_i hrun
    have hbusy : Idle s.ring → Idle s'.ring := fun h => by rw [h.1] at hrun; cases hrun
    cases hpc : s.enter with
    | enterUnlock =>
      rw [hpc] at hs
      obtain ⟨r, -, rfl⟩ := Option.map_eq_some_iff.mp hs
      exact hi.ring hbusy
    | _ =>
      rw [hpc] at hs
      cases hs
      exact hi.ring hbusy
  · obtain ⟨r, hr, rfl⟩ := Option.map_eq_some_iff.mp hs
    exact hi.ring fun h => h.move (by simp) (by simp) (ring.step_move hr)

theorem stopInv_step {z : Size} {single : Bool} {s s' : State ι} {a : Act ι} (hi : StopInv s)
    (hok : StopsIdle s a) (hs : step z single s a = some s') : StopInv s' := by
  cases a with
  | stop errno =>
    cases hs
    exact hi.stop single errno hok
  | spin =>
    simp only [step, Option.ite_none_right_eq_some] at hs
    obtain ⟨-, hs⟩ := hs
    cases hs
    exact hi
  | ring a =>
    by_cases hrun : a = .run
    · subst hrun
      exact hi.run hs
    · have hmap : (ring.step z s.ring a).map (fun r => { s with ring := r }) = some s' := by
        cases a <;> first | exact hs | exact absurd rfl hrun
      obtain ⟨r, hr, rfl⟩ := Option.map_eq_some_iff.mp hmap
      refine ⟨hi.first, hi.after, fun hclosed => ?_⟩
      refine (hi.idle hclosed).move ?_ ?_ (ring.step_move hr)
      · rintro p rfl
        exact absurd (hclosed.symm.trans hok) (by simp)
      · rintro g rfl
        exact hok hclosed

omit [DecidableEq ι] in
theorem touches_of_idle {s : State ι} (h : Idle s.ring) (a : Act ι) : touches s a = [] := by
  obtain ⟨hrun, -, -, hpc, -⟩ := h
  cases a with
  | stop errno => rfl
  | spin => simp [touches, hrun]
  | ring a => cases a <;> simp [touches, runTouches, completerTouches, hrun, hpc]

omit [DecidableEq ι] in
theorem StopInv.safe {s : State ι} (hi : StopInv s) (a : Act ι) : SafeStep s a := by
  intro q hq
  rw [← Bool.not_eq_true]
  intro hclosed
  have hsq : s.closed .sq = true := by
    cases q with
    | sq => exact hclosed
    | cq => exact hi.first hclosed
  rw [touches_of_idle (hi.idle hsq)] at hq
  cases hq

/-- In every run in which `Stop` unmaps only when both goroutines are idle, and
nobody sends to them afterwards, neither touches a queue that is closed. -/
theorem stop_on_an_idle_ring_is_safe (z : Size) (single : Bool) (as : List (Act ι))
    (h : Along (step z single) StopsIdle (init ι) as) :
    Along (step z single) SafeStep (init ι) as := by
  have hstep : ∀ (s : State ι) a s', StopInv s → StopsIdle s a → step z single s a = some s' →
      StopInv s' := fun _ _ _ hi hok hs => stopInv_step hi hok hs
  exact Along.imp hstep (fun _ a hi _ => hi.safe a) stopInv_init h

/-- A request that is served, on a ring of four: the call, the iteration with its
entry, and the end of the call. -/
def servedActs : List (Act (Fin 1)) :=
  ((ring.askActs 0 1).map Act.ring) ++ [Act.ring .takeCompletion, .ring .run] ++
    List.replicate 4 (Act.ring .run) ++ [Act.ring (.post ⟨1, 7, 0⟩)] ++
    List.replicate 10 (Act.ring .run) ++ List.replicate 4 (Act.ring (.caller 0))

/-- `Stop` after a request that is served. -/
theorem stop_after_a_served_request :
    Along (step ⟨2, by decide⟩ false) SafeStep (init (Fin 1))
        (servedActs ++ List.replicate 8 (Act.stop 0)) ∧
      (run (step ⟨2, by decide⟩ false) (init (Fin 1))
        (servedActs ++ List.replicate 8 (Act.stop 0))).map
        (fun s => (s.ring.results, s.sq, s.cq, s.stop)) =
        some ([(1, 7, 0)], ⟨true, true⟩, ⟨false, true⟩, .idle) :=
  ⟨stop_on_an_idle_ring_is_safe _ _ _ (by decide), by decide⟩

/-- `Stop` with a request in flight, on a ring of four: the token that `Ring.run` has
sent to itself wakes it up, and `onEntry` loads through `r.cq`, which is nil; with
`FeatSingleMmap` it loads from memory that is unmapped. -/
theorem the_loop_polls_a_closed_queue :
    ¬ Along (step ⟨2, by decide⟩ false) SafeStep (init (Fin 1))
        ((ring.askActs 0 1).map Act.ring ++ [Act.ring .takeCompletion] ++
          List.replicate 11 (Act.ring .run) ++ List.replicate 8 (Act.stop 0) ++
          [Act.ring .takeRetry, .ring .run, .ring .run]) ∧
      ¬ Along (step ⟨2, by decide⟩ true) SafeStep (init (Fin 1))
        ((ring.askActs 0 1).map Act.ring ++ [Act.ring .takeCompletion] ++
          List.replicate 11 (Act.ring .run) ++ List.replicate 8 (Act.stop 0) ++
          [Act.ring .takeRetry, .ring .run, .ring .run]) := by
  decide

end iouring.ring_stop
