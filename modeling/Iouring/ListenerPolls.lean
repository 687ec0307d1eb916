-- The polls of a listener on their way through the submission queue. `run` submits one before
-- its loop, `onListen` two in a row: one on the connection it has accepted and one on its own
-- socket. Which id the last one has, and whether it reaches the kernel at all, decides
-- whether the listener hears of another connection.
import Iouring.Listener
import Iouring.PrepareFailures
import Iouring.PrepareSteps
import Iouring.SubmitRounds

open counter machine

namespace iouring.prepare_calls

open submit_queue (FieldWrite Reserved slotOf handedOut filledEntry)

variable {ι : Type} [DecidableEq ι]

/-! ## A submission that nobody disturbs -/

variable {z : Size} {s : State ι} {g : ι} {r : Reserved} {num : Option UInt64}

/-- The lines of a caller that has its number, up to the closure. -/
theorem writes_follow {back : ReadsBack} {todo : List Fill} {ws : List FieldWrite}
    (hws : todo.mapM (Fill.write num) = some ws) (hjob : s.jobs g = .fill back num todo)
    (hpc : s.queue.pc g = .holding r) :
    Follows (step z) (.step g) s { s.goto g (.fill back num []) with
      queue := s.queue.setEntry (slotOf z r.tail)
        (ws.foldl FieldWrite.apply (s.queue.mem.entries (slotOf z r.tail))) } := by
  induction todo generalizing s ws with
  | nil =>
    obtain rfl : [] = ws := Option.some.inj hws
    have hsame : { s.goto g (.fill back num []) with
        queue := s.queue.setEntry (slotOf z r.tail) (s.queue.mem.entries (slotOf z r.tail)) } =
          s := by
      simp [State.goto, ← hjob, submit_queue.State.setEntry]
    rw [List.foldl_nil, hsame]
  | cons line todo ih =>
    simp only [List.mapM_cons, Option.bind_eq_bind, Option.bind_eq_some_iff] at hws
    obtain ⟨w, hw, ws', hws', hcons⟩ := hws
    cases hcons
    refine .head (write_step hjob hpc hw) ?_
    have hrest := ih (s := { s.goto g (.fill back num todo) with
      queue := s.queue.setEntry (slotOf z r.tail)
        (w.apply (s.queue.mem.entries (slotOf z r.tail))) }) hws' (Function.update_self ..) hpc
    simpa [State.goto, submit_queue.State.setEntry] using hrest

/-- The closure, for an operation that reads nothing back. -/
theorem commit_follows (hjob : s.jobs g = .fill .never num []) (hpc : s.queue.pc g = .holding r)
    (hw : s.queue.mem.writes ≠ 0) :
    ∃ s', Follows (step z) (.step g) s s' ∧ s'.jobs g = .idle ∧
      s'.queue = submit_queue.storeArray z { s.queue with
        mem := { s.queue.mem with writes := s.queue.mem.writes - 1 }
        hist := { s.queue.hist with filled := s.queue.hist.filled ++ [r.ticket] } } g r := by
  have hclosure := closure_step (z := z) (by decide) hjob hpc
  have hlower := completeWrite_follows (z := z)
    (s := { s.goto g (.close .never num) with queue := { s.queue with
      pc := Function.update s.queue.pc g (.loadWrites r)
      hist := { s.queue.hist with filled := s.queue.hist.filled ++ [r.ticket] } } })
    (Function.update_self ..) (Function.update_self ..) hw
  have hstore := store_step (z := z)
    (s := { s.goto g (.close .never num) with queue := { s.queue with
      mem := { s.queue.mem with writes := s.queue.mem.writes - 1 }
      pc := Function.update (Function.update s.queue.pc g (.loadWrites r)) g (.storeArray r)
      hist := { s.queue.hist with filled := s.queue.hist.filled ++ [r.ticket] } } })
    (Function.update_self ..) (Function.update_self ..)
  refine ⟨_, .head hclosure (.tail hlower hstore), ?_, ?_⟩
  · simp [State.goto]
  · simp [submit_queue.storeArray]

/-- The words that a submission finds when nobody is in a call and nothing is in the queue. -/
structure Free (z : Size) (q : submit_queue.State ι) : Prop where
  empty : q.mem.head &&& z.mask = q.mem.tail &&& z.mask
  entered : q.mem.entered = 0
  writes : q.mem.writes = 0

/-- A submission from `SubmitEntry` to the end of the closure. -/
theorem submission_follows {todo : List Fill} {ws : List FieldWrite}
    (hws : todo.mapM (Fill.write num) = some ws) (hjob : s.jobs g = .fill .never num todo)
    {q : submit_queue.State ι} (hidle : q.pc g = .idle) (hfree : Free z q)
    (hq : submit_queue.step z q (.submitEntry g) = some s.queue) :
    ∃ s', Follows (step z) (.step g) s s' ∧ s'.jobs g = .idle ∧ s'.queue.pc g = .idle ∧
      submit_queue.Queued z s'.queue.mem q.mem.head.toNat
        (filledEntry (q.mem.entries (slotOf z q.mem.tail)) ws) := by
  obtain ⟨q1, h1, hrest⟩ := run_cons_inv (submit_queue.submitEntry_solo z hidle hfree.entered)
  rw [hq] at h1
  cases h1
  have hsubmit := follows_inside hjob (Follows.of_run hrest)
  have hwrites := writes_follow (z := z) (s := { s with queue := handedOut z q g }) hws hjob
    (Function.update_self ..)
  have hjobs := Function.update_self g (.fill .never num []) s.jobs
  obtain ⟨s', hcommit, hjob', hqueue⟩ := commit_follows (z := z)
    (s := { s.goto g (.fill .never num []) with
      queue := (handedOut z q g).setEntry (slotOf z q.mem.tail)
        (ws.foldl FieldWrite.apply ((handedOut z q g).mem.entries (slotOf z q.mem.tail))) })
    (r := ⟨q.mem.tail, q.mem.head, q.hist.tickets⟩) hjobs
    (Function.update_self ..) (by simp [submit_queue.State.setEntry, handedOut, hfree.writes])
  refine ⟨s', (hsubmit.trans hwrites).trans hcommit, hjob', ?_, ?_⟩
  · rw [hqueue]
    exact Function.update_self ..
  · have hslot : slotOf z q.mem.tail = q.mem.head.toNat % z.slots := by
      rw [slotOf, ← hfree.empty, z.and_mask]
    rw [hqueue]
    refine ⟨(word_of_toNat _).symm, ?_, ?_, ?_⟩
    · simp only [submit_queue.storeArray, submit_queue.State.setEntry, handedOut]
      rw [submit_queue.next_toNat, ← z.and_mask, ← slotOf, hslot]
    · simp only [submit_queue.storeArray, submit_queue.next_sub_one, hslot, Function.update_self]
      exact z.and_mask _
    · simp only [submit_queue.storeArray, submit_queue.State.setEntry, handedOut, hslot,
        Function.update_self, filledEntry]

end iouring.prepare_calls

namespace iouring.listener_polls

open submit_queue (EnterGetEvents Opcode SubmitEntry reads consumable)
open prepare_calls (Operation Free)
open listener (ConnInfo walkCq)

/-! ## The listener and its queues -/

/-- A `PollAdd`, as far as the kernel answers it. -/
structure Poll where
  fd : Int32
  userData : UInt64
  deriving DecidableEq, Repr

/-- The poll that an entry asks for. -/
def pollOf (e : SubmitEntry) : Option Poll :=
  if e.opcode = Opcode.pollAdd.code then some ⟨e.fd, e.userData⟩ else none

/-- Where the goroutine of `ringListener.run` stands: before its first poll, in it, at the top
of its loop, in `Enter`, or in one of the parts of `walkCq` and `onListen`. While it is inside a
call on the submission queue, that queue says where. -/
inductive RunPc where
  | start
  | drawId
  | firstPoll (cInfo : ConnInfo)
  | select
  | enter
  | walk
  | accept (cInfo : ConnInfo)
  | newPoll (cInfo : ConnInfo)
  | oldPoll (cInfo : ConnInfo)
  deriving DecidableEq, Repr

/-- It submits the poll on its own socket. -/
def RunPc.arming : RunPc → Bool
  | .firstPoll _ | .oldPoll _ => true
  | _ => false

/-- The submission queue with its callers, where `none` is the goroutine of the listener, the
completion queue with the map of `run`, and the polls that the kernel has taken and not
completed yet. -/
structure State (ι : Type) where
  calls : prepare_calls.State (Option ι)
  listener : listener.State
  run : RunPc
  polls : List Poll

/-- A new ring; `idx` is the value of `WithID`, or 0. -/
def init (ι : Type) (idx : UInt64) : State ι :=
  ⟨prepare_calls.init (Option ι) idx, ⟨⟨0, 0, fun _ => .zero⟩, fun _ => none⟩, .start, []⟩

/-- What can happen next: the listener takes its next step, `Accept4` gives it a connection, or
its syscall fails; another goroutine acts on the submission queue; the kernel completes a poll
or posts something else; or somebody moves `Head` of the completion queue. -/
inductive Act (ι : Type) where
  | run
  | accept4 (newFd : Int32)
  | fail
  | other (a : prepare_calls.Act (Option ι))
  | fire (i : Nat) (res : Int32) (flags : UInt32)
  | cq (a : listener.Act)
  deriving DecidableEq, Repr

variable {ι : Type}

/-- The listener is in no call on the submission queue. -/
def State.between (s : State ι) : Bool :=
  s.calls.jobs none = .idle ∧ s.calls.queue.pc none = .idle

variable [DecidableEq ι]

/-- An act on the submission queue. The kernel has the polls that it takes in the course of
it. -/
def State.call (zs : Size) (s : State ι) (a : prepare_calls.Act (Option ι)) (pc : RunPc) :
    Option (State ι) :=
  (prepare_calls.step zs s.calls a).map fun c =>
    { s with
      calls := c
      run := pc
      polls := s.polls ++ (c.queue.hist.executed.drop
        s.calls.queue.hist.executed.length).filterMap fun x => pollOf x.2 }

/-- The next step of `ringListener.run`, `walkCq` or `onListen`. -/
def State.runStep (zs zc : Size) (fd : Int32) (s : State ι) : Option (State ι) :=
  match s.run with
  | .start => s.call zs (.call none (.listenerRun fd.toInt64)) .drawId
  | .drawId => s.call zs (.step none) (.firstPoll ⟨fd, s.calls.idx + 1⟩)
  | .firstPoll cInfo =>
    if s.between then
      some { s with
        run := .select
        listener := { s.listener with
          conns := fun k => if k = cInfo.id then some cInfo else none } }
    else s.call zs (.step none) s.run
  | .select => s.call zs (.enter none ⟨1024, 1, EnterGetEvents⟩) .enter
  | .enter =>
    match s.calls.queue.pc none with
    -- an error goes to the handler, and the loop starts anew
    | .unlock _ completed =>
      s.call zs (.step none) (if completed.isSome then .walk else .select)
    | _ => s.call zs (.step none) .enter
  | .walk =>
    let w := walkCq zc s.listener
    some { s with
      listener := w.1
      run := match w.2 with
        | some cInfo => .accept cInfo
        | none => .select }
  | .accept _ => none
  | .newPoll cInfo =>
    if s.between then s.call zs (.call none (.listenOld cInfo.fd.toInt64)) (.oldPoll cInfo)
    else s.call zs (.step none) s.run
  | .oldPoll _ => if s.between then some { s with run := .select } else s.call zs (.step none) s.run

def step (zs zc : Size) (fd : Int32) (s : State ι) : Act ι → Option (State ι)
  | .run => s.runStep zs zc fd
  | .accept4 newFd =>
    match s.run with
    | .accept cInfo => s.call zs (.call none (.listenNew newFd.toInt64)) (.newPoll cInfo)
    | _ => none
  | .fail => if s.run = .enter then s.call zs (.fail none) .enter else none
  | .other a => if a.caller ≠ none ∧ a.caller ≠ some none then s.call zs a s.run else none
  | .fire i res flags =>
    match s.polls[i]? with
    | none => none
    | some p =>
      (listener.step zc s.listener (.post ⟨p.userData, res, flags⟩)).map fun l =>
        { s with listener := l, polls := s.polls.eraseIdx i }
  | .cq a => (listener.step zc s.listener a).map fun l => { s with listener := l }

/-! ## The law -/

/-- The polls that the kernel has, and those that the next `Enter` of the listener brings it. -/
def State.outstanding (zs : Size) (s : State ι) : List Poll :=
  s.polls ++ (reads zs s.calls.queue.mem (consumable zs s.calls.queue.mem 1024)).filterMap
    fun x => pollOf x.2

/-- There is a poll on the listening socket that `walkCq` will know. -/
def Armed (zs : Size) (fd : Int32) (s : State ι) : Prop :=
  ∃ p ∈ s.outstanding zs, p.fd = fd ∧
    ∃ cInfo, s.listener.conns p.userData = some cInfo ∧ cInfo.fd = fd

/-- So it is when the first poll of `run` is submitted, and at the end of every `onListen`. -/
def ArmedAfter (zs zc : Size) (fd : Int32) (s : State ι) : Act ι → Prop
  | .run => s.run.arming = true → ∀ s', s.runStep zs zc fd = some s' → s'.run = .select →
      Armed zs fd s'
  | _ => True

/-- The number that `run` draws is the descriptor. When the listener calls `SubmitEntry` for
the poll on its own socket, the queue is empty and nobody is in a call on it, and nobody starts
one before the poll is committed. -/
def Undisturbed (zs : Size) (fd : Int32) (s : State ι) : Act ι → Prop
  | .run =>
    match s.run with
    | .drawId => s.calls.idx + 1 = fd.toInt64.toUInt64 ∧ Free zs s.calls.queue
    | .newPoll _ => s.between = true → Free zs s.calls.queue
    | _ => True
  | .other _ => s.run.arming = false
  | _ => True

instance (z : Size) (q : submit_queue.State ι) : Decidable (Free z q) :=
  decidable_of_iff
    (q.mem.head &&& z.mask = q.mem.tail &&& z.mask ∧ q.mem.entered = 0 ∧ q.mem.writes = 0)
    ⟨fun h => ⟨h.1, h.2.1, h.2.2⟩, fun h => ⟨h.empty, h.entered, h.writes⟩⟩

instance (zs : Size) (fd : Int32) (s : State ι) : (a : Act ι) → Decidable (Undisturbed zs fd s a)
  | .run => by
    dsimp only [Undisturbed]
    split <;> infer_instance
  | .other _ => inferInstanceAs (Decidable (_ = _))
  | .accept4 _ | .fail | .fire .. | .cq _ => instDecidableTrue

instance (zs : Size) (fd : Int32) (s : State ι) : Decidable (Armed zs fd s) :=
  decidable_of_iff
    (∃ p ∈ s.outstanding zs, p.fd = fd ∧ ((s.listener.conns p.userData).map (·.fd)) = some fd)
    (by simp [Armed, Option.map_eq_some_iff])

instance (zs zc : Size) (fd : Int32) (s : State ι) (a : Act ι) :
    Decidable (ArmedAfter zs zc fd s a) :=
  match a with
  | .run =>
    match h : s.runStep zs zc fd with
    | none => isTrue fun _ s' h' => by rw [h] at h'; cases h'
    | some s1 =>
      decidable_of_iff (s.run.arming = true → s1.run = .select → Armed zs fd s1)
        ⟨fun ha harm s' h' => by rw [h] at h'; cases h'; exact ha harm, fun ha harm => ha harm s1 h⟩
  | .accept4 _ | .fail | .other _ | .fire _ _ _ | .cq _ => isTrue trivial

/-! ## Undisturbed listeners -/

/-- The key that `onListen` takes for the listening socket. -/
def key (fd : Int32) : UInt64 := fd.toInt64.toUInt64

/-- The connection that the listener has in hand. -/
def RunPc.inHand : RunPc → Option ConnInfo
  | .firstPoll cInfo | .accept cInfo | .newPoll cInfo | .oldPoll cInfo => some cInfo
  | _ => none

/-- The first poll is not submitted yet. -/
def RunPc.starting : RunPc → Bool
  | .start | .drawId | .firstPoll _ => true
  | _ => false

/-- On its own, the listener comes to the end of its submission, and the poll on its socket is
in the queue then. -/
def Arms (zs : Size) (fd : Int32) (c : prepare_calls.State (Option ι)) : Prop :=
  ∃ c', Follows (prepare_calls.step zs) (.step none) c c' ∧
    prepare_calls.step zs c' (.step none) = none ∧
    ∃ m e, submit_queue.Queued zs c'.queue.mem m e ∧ pollOf e = some ⟨fd, key fd⟩

structure ArmInv (zs : Size) (fd : Int32) (s : State ι) : Prop where
  phases : prepare_calls.InPhase s.calls
  drawing : s.run = .drawId → s.calls.jobs none = .drawFirst (.listenerRun fd.toInt64) ∧
    s.calls.queue.pc none = .idle
  inHand : ∀ cInfo, s.run.inHand = some cInfo → cInfo = ⟨fd, key fd⟩
  keyed : s.run.starting = false →
    s.listener.conns = fun k => if k = key fd then some ⟨fd, key fd⟩ else none
  arms : s.run.arming = true → Arms zs fd s.calls

theorem armInv_init (zs : Size) (fd : Int32) (idx : UInt64) : ArmInv zs fd (init ι idx) where
  phases := fun _ => rfl
  drawing := fun h => by cases h
  inHand := fun _ h => by cases h
  keyed := fun h => by cases h
  arms := fun h => by cases h

section

variable {zs zc : Size} {fd : Int32} {s s' : State ι}

theorem call_eq_some {a : prepare_calls.Act (Option ι)} {pc : RunPc}
    (h : s.call zs a pc = some s') :
    prepare_calls.step zs s.calls a = some s'.calls ∧ s'.run = pc ∧ s'.listener = s.listener := by
  obtain ⟨c, hc, rfl⟩ := Option.map_eq_some_iff.mp h
  exact ⟨hc, rfl, rfl⟩

/-- The submission of a poll on the listening socket, from its `SubmitEntry` on. -/
theorem arms_of_submitEntry {c : prepare_calls.State (Option ι)}
    {q : submit_queue.State (Option ι)} {num : Option UInt64} {todo : List prepare_calls.Fill}
    (hfills : todo.mapM (prepare_calls.Fill.write num) =
      some [.opcode Opcode.pollAdd.code, .fd fd.toInt64.toInt32, .uflags prepare_calls.POLLIN,
        .userData (key fd)])
    (hjob : c.jobs none = .fill .never num todo) (hidle : q.pc none = .idle) (hfree : Free zs q)
    (hq : submit_queue.step zs q (.submitEntry none) = some c.queue) : Arms zs fd c := by
  obtain ⟨c', hfollows, hjob', hpc', hqueued⟩ :=
    prepare_calls.submission_follows hfills hjob hidle hfree hq
  refine ⟨c', hfollows, prepare_calls.step_of_ended (.inl ⟨hjob', hpc'⟩), _, _, hqueued, ?_⟩
  simp [pollOf, submit_queue.filledEntry, submit_queue.FieldWrite.apply]

/-- A step of the listener on its way. -/
theorem Arms.next {c c1 : prepare_calls.State (Option ι)} (h : Arms zs fd c)
    (h1 : prepare_calls.step zs c (.step none) = some c1) : Arms zs fd c1 := by
  obtain ⟨c', hfollows, hend, hqueued⟩ := h
  exact ⟨c', hfollows.next hend h1, hend, hqueued⟩

/-- The poll is in the queue when the listener is at the end. -/
theorem Arms.outstanding (hz : 2 ≤ zs.slots) (h : Arms zs fd s.calls) (hend : s.between = true) :
    ⟨fd, key fd⟩ ∈ s.outstanding zs := by
  obtain ⟨c', hfollows, -, m, e, hqueued, hpoll⟩ := h
  have hnone : prepare_calls.step zs s.calls (.step none) = none :=
    prepare_calls.step_of_ended (.inl (of_decide_eq_true hend))
  rw [← hfollows.eq_of_end hnone] at hqueued
  refine List.mem_append_right _ (List.mem_filterMap.mpr ⟨(m % zs.slots, e), ?_, hpoll⟩)
  exact hqueued.mem_reads hz (by decide)

/-- An act on the submission queue after which the listener has what it had in hand, and is
not in the course of arming. -/
theorem ArmInv.call (hi : ArmInv zs fd s) {a : prepare_calls.Act (Option ι)} {pc : RunPc}
    (h : s.call zs a pc = some s') (hinHand : pc.inHand = s.run.inHand)
    (hstarting : pc.starting = s.run.starting) (hdraw : pc ≠ .drawId)
    (harms : pc.arming = true → Arms zs fd s'.calls) : ArmInv zs fd s' := by
  obtain ⟨hc, hrun, hlistener⟩ := call_eq_some h
  refine ⟨prepare_calls.inPhase_move hi.phases (prepare_calls.step_move hi.phases hc), ?_, ?_, ?_,
    ?_⟩
  · rw [hrun]
    exact fun hd => absurd hd hdraw
  · rw [hrun, hinHand]
    exact hi.inHand
  · rw [hrun, hstarting, hlistener]
    exact hi.keyed
  · rw [hrun]
    exact harms

/-- `run` is about to draw the number of its first poll. -/
theorem ArmInv.plan (hi : ArmInv zs fd s)
    (h : s.call zs (.call none (.listenerRun fd.toInt64)) .drawId = some s') :
    ArmInv zs fd s' := by
  obtain ⟨hc, hrun, -⟩ := call_eq_some h
  refine ⟨prepare_calls.inPhase_move hi.phases (prepare_calls.step_move hi.phases hc), fun _ => ?_,
    fun _ hh => ?_, fun hs => ?_, fun ha => ?_⟩
  · simp only [prepare_calls.step, Option.ite_none_right_eq_some] at hc
    obtain ⟨⟨-, hidle⟩, hc⟩ := hc
    rw [← Option.some.inj hc]
    exact ⟨by simp [prepare_calls.State.goto], hidle⟩
  all_goals
    rw [hrun] at *
    contradiction

/-- The number is drawn, and `SubmitEntry` is called for the first poll. -/
theorem ArmInv.draw (hi : ArmInv zs fd s) (hrun : s.run = .drawId)
    (hid : s.calls.idx + 1 = key fd) (hfree : Free zs s.calls.queue)
    (h : s.call zs (.step none) (.firstPoll ⟨fd, s.calls.idx + 1⟩) = some s') :
    ArmInv zs fd s' := by
  obtain ⟨hc, hrun', -⟩ := call_eq_some h
  obtain ⟨hjob, hidle⟩ := hi.drawing hrun
  refine ⟨prepare_calls.inPhase_move hi.phases (prepare_calls.step_move hi.phases hc), ?_, ?_, ?_,
    fun _ => ?_⟩
  · rw [hrun']
    exact fun hd => by cases hd
  · rw [hrun', hid]
    rintro cInfo ⟨⟩
    rfl
  · rw [hrun']
    exact fun hs => by cases hs
  · simp only [prepare_calls.step, prepare_calls.stepJob, hjob] at hc
    obtain ⟨q, hq, hc⟩ := prepare_calls.queueStep_eq_some hc
    have hfill : s'.calls.jobs none = .fill .never (some (s.calls.idx + 1))
        (Operation.listenerRun fd.toInt64).fills := by
      simp [hc, prepare_calls.State.goto, Operation.readsBack]
    refine arms_of_submitEntry ?_ hfill hidle hfree (by rw [hc]; exact hq)
    rw [hid]
    rfl

/-- `SubmitEntry` is called for the second poll of `onListen`. -/
theorem ArmInv.rearm (hi : ArmInv zs fd s) {cInfo : ConnInfo} (hrun : s.run = .newPoll cInfo)
    (hbetween : s.between = true) (hfree : Free zs s.calls.queue)
    (h : s.call zs (.call none (.listenOld cInfo.fd.toInt64)) (.oldPoll cInfo) = some s') :
    ArmInv zs fd s' := by
  refine hi.call h (by rw [hrun]; rfl) (by rw [hrun]; rfl) (by simp) fun _ => ?_
  obtain ⟨hc, -, -⟩ := call_eq_some h
  have hidle : s.calls.jobs none = .idle ∧ s.calls.queue.pc none = .idle :=
    of_decide_eq_true hbetween
  obtain rfl := hi.inHand cInfo (by rw [hrun]; rfl)
  simp only [prepare_calls.step, if_pos hidle, Operation.drawsFirst, Bool.false_eq_true,
    if_false] at hc
  obtain ⟨q, hq, hc⟩ := prepare_calls.queueStep_eq_some hc
  have hfill : s'.calls.jobs none = .fill .never (some (key fd))
      (Operation.listenOld fd.toInt64).fills := by
    simp [hc, prepare_calls.State.goto, Operation.readsBack, Operation.fixed, key]
  exact arms_of_submitEntry rfl hfill hidle.2 hfree (by rw [hc]; exact hq)

/-- A step of the listener inside one of its submissions. -/
theorem ArmInv.inside (hi : ArmInv zs fd s) (hdraw : s.run ≠ .drawId)
    (h : s.call zs (.step none) s.run = some s') : ArmInv zs fd s' :=
  hi.call h rfl rfl hdraw fun ha => (hi.arms ha).next (call_eq_some h).1

/-- A step that leaves the submission queue alone. -/
theorem ArmInv.frame (hi : ArmInv zs fd s) (hcalls : s'.calls = s.calls) (hrun : s'.run = s.run)
    (hconns : s'.listener.conns = s.listener.conns) : ArmInv zs fd s' := by
  refine ⟨hcalls ▸ hi.phases, ?_, ?_, ?_, ?_⟩
  · rw [hrun, hcalls]
    exact hi.drawing
  · rw [hrun]
    exact hi.inHand
  · rw [hrun, hconns]
    exact hi.keyed
  · rw [hrun, hcalls]
    exact hi.arms

/-- The listener is back at the top of its loop, or at `Accept4` for a connection of its
map. -/
theorem ArmInv.goto (hi : ArmInv zs fd s) {pc : RunPc} {l : listener.State}
    (hconns : l.conns = fun k => if k = key fd then some ⟨fd, key fd⟩ else none)
    (hpc : pc = .select ∨ ∃ cInfo id, pc = .accept cInfo ∧ l.conns id = some cInfo) :
    ArmInv zs fd { s with run := pc, listener := l } := by
  refine ⟨hi.phases, ?_, ?_, fun _ => hconns, ?_⟩
  · rcases hpc with rfl | ⟨cInfo, id, rfl, -⟩ <;> exact fun h => by cases h
  · rcases hpc with rfl | ⟨cInfo, id, rfl, hid⟩
    · exact fun _ h => by cases h
    · rintro c ⟨⟩
      rw [hconns] at hid
      exact (Option.some.inj (Option.ite_none_right_eq_some.mp hid).2).symm
  · rcases hpc with rfl | ⟨cInfo, id, rfl, -⟩ <;> exact fun h => by cases h

theorem ArmInv.runStep (hi : ArmInv zs fd s) (hok : Undisturbed zs fd s .run)
    (h : s.runStep zs zc fd = some s') : ArmInv zs fd s' := by
  unfold Undisturbed at hok
  unfold State.runStep at h
  -- outside of the submissions an act on the queue takes nothing along
  have hcall : ∀ {a pc}, s.call zs a pc = some s' → pc.inHand = s.run.inHand →
      pc.starting = s.run.starting → pc.arming = false → pc ≠ .drawId → ArmInv zs fd s' :=
    fun h hin hstart harm hdraw => hi.call h hin hstart hdraw fun ha => by simp [harm] at ha
  cases hrun : s.run with
  | start =>
    simp only [hrun] at h
    exact hi.plan h
  | drawId =>
    simp only [hrun] at h hok
    exact hi.draw hrun hok.1 hok.2 h
  | firstPoll cInfo =>
    simp only [hrun] at h
    split_ifs at h with hbetween
    · cases h
      obtain rfl := hi.inHand cInfo (by rw [hrun]; rfl)
      exact hi.goto rfl (.inl rfl)
    · exact hi.inside (by simp [hrun]) (by rw [hrun]; exact h)
  | select =>
    simp only [hrun] at h
    exact hcall h (by rw [hrun]; rfl) (by rw [hrun]; rfl) rfl (by simp)
  | enter =>
    simp only [hrun] at h
    split at h
    · next completed _ =>
      cases completed with
      | none => exact hcall h (by rw [hrun]; rfl) (by rw [hrun]; rfl) rfl (by simp)
      | some k => exact hcall h (by rw [hrun]; rfl) (by rw [hrun]; rfl) rfl (by simp)
    · exact hcall h (by rw [hrun]) (by rw [hrun]) rfl (by simp)
  | walk =>
    simp only [hrun, Option.some.injEq] at h
    subst h
    have hconns := (listener.walkCq_conns zc s.listener).trans (hi.keyed (by rw [hrun]; rfl))
    refine hi.goto hconns ?_
    cases hw : (walkCq zc s.listener).2 with
    | none => exact .inl rfl
    | some cInfo =>
      obtain ⟨id, hid⟩ := listener.walkCq_known hw
      exact .inr ⟨cInfo, id, rfl, by rwa [listener.walkCq_conns]⟩
  | accept cInfo => simp [hrun] at h
  | newPoll cInfo =>
    simp only [hrun] at h hok
    split_ifs at h with hbetween
    · exact hi.rearm hrun hbetween (hok hbetween) h
    · exact hi.inside (by simp [hrun]) (by rw [hrun]; exact h)
  | oldPoll cInfo =>
    simp only [hrun] at h
    split_ifs at h with hbetween
    · cases h
      exact hi.goto (hi.keyed (by rw [hrun]; rfl)) (.inl rfl)
    · exact hi.inside (by simp [hrun]) (by rw [hrun]; exact h)

theorem armInv_step {a : Act ι} (hi : ArmInv zs fd s) (hok : Undisturbed zs fd s a)
    (h : step zs zc fd s a = some s') : ArmInv zs fd s' := by
  cases a with
  | run => exact hi.runStep hok h
  | accept4 newFd =>
    simp only [step] at h
    cases hrun : s.run with
    | accept cInfo =>
      simp only [hrun] at h
      exact hi.call h (by rw [hrun]; rfl) (by rw [hrun]; rfl) (by simp) (fun ha => by cases ha)
    | _ => simp [hrun] at h
  | fail =>
    simp only [step, Option.ite_none_right_eq_some] at h
    obtain ⟨hrun, h⟩ := h
    exact hi.call h (by rw [hrun]) (by rw [hrun]) (by simp) (fun ha => by cases ha)
  | other a =>
    simp only [step, Option.ite_none_right_eq_some] at h
    obtain ⟨⟨-, hcaller⟩, h⟩ := h
    obtain ⟨hc, hrun, hlistener⟩ := call_eq_some h
    have hm := prepare_calls.step_move hi.phases hc
    obtain ⟨hjob, hpc⟩ := prepare_calls.other_goroutine hm hcaller
    refine ⟨prepare_calls.inPhase_move hi.phases hm, ?_, ?_, ?_, ?_⟩
    · rw [hrun, hjob, hpc]
      exact hi.drawing
    · rw [hrun]
      exact hi.inHand
    · rw [hrun, hlistener]
      exact hi.keyed
    · rw [hrun, show s.run.arming = false from hok]
      exact fun ha => by cases ha
  | fire i res flags =>
    simp only [step] at h
    cases hp : s.polls[i]? with
    | none => simp [hp] at h
    | some p =>
      simp only [hp] at h
      obtain ⟨l, hl, rfl⟩ := Option.map_eq_some_iff.mp h
      exact hi.frame rfl rfl (listener.step_conns hl)
  | cq a =>
    obtain ⟨l, hl, rfl⟩ := Option.map_eq_some_iff.mp h
    exact hi.frame rfl rfl (listener.step_conns hl)

/-- The listener returns from a submission of its poll with the poll in the queue. -/
theorem ArmInv.armedAfter (hz : 2 ≤ zs.slots) (hi : ArmInv zs fd s)
    (a : Act ι) : ArmedAfter zs zc fd s a := by
  cases a with
  | run =>
    intro harming s' h hselect
    have harms := hi.arms harming
    unfold State.runStep at h
    cases hrun : s.run with
    | firstPoll cInfo =>
      simp only [hrun] at h
      split_ifs at h with hbetween
      · cases h
        obtain rfl := hi.inHand cInfo (by rw [hrun]; rfl)
        exact ⟨_, harms.outstanding hz hbetween, rfl, ⟨fd, key fd⟩, if_pos rfl, rfl⟩
      · rw [(call_eq_some h).2.1] at hselect
        cases hselect
    | oldPoll cInfo =>
      simp only [hrun] at h
      split_ifs at h with hbetween
      · cases h
        refine ⟨_, harms.outstanding hz hbetween, rfl, ⟨fd, key fd⟩, ?_, rfl⟩
        simp [hi.keyed (by rw [hrun]; rfl)]
      · rw [(call_eq_some h).2.1] at hselect
        cases hselect
    | _ => simp [hrun, RunPc.arming] at harming
  | _ => trivial

end

/-- On a submission queue of two slots or more, a listener whose first poll has its descriptor
for an id, and whose polls are each submitted to an empty queue that nobody else is at, is armed
after its first poll and after every `onListen` of every run. -/
theorem an_undisturbed_listener_stays_armed (zs zc : Size) (hz : 1 ≤ zs.exp) (fd : Int32)
    (idx : UInt64) (as : List (Act ι))
    (h : Along (step zs zc fd) (Undisturbed zs fd) (init ι idx) as) :
    Along (step zs zc fd) (ArmedAfter zs zc fd) (init ι idx) as := by
  have hslots : 2 ≤ zs.slots := Nat.pow_le_pow_right (n := 2) (by decide) hz
  exact Along.imp (fun _ _ _ hi hok hs => armInv_step hi hok hs)
    (fun _ a hi _ => hi.armedAfter hslots a) (armInv_init zs fd idx) h

/-- The first poll of `run`, and its `Enter`, during which a connection arrives. -/
def firstActs : List (Act ι) := List.replicate 31 Act.run ++ [Act.fire 0 1 0, .run, .run]

/-- An `onListen` for a connection, with what happens between its two polls. -/
def onListenActs (newFd : Int32) (meanwhile : List (Act ι)) : List (Act ι) :=
  [Act.accept4 newFd] ++ List.replicate 23 Act.run ++ meanwhile ++ List.replicate 25 Act.run

/-- An `Enter` of another goroutine, for one entry. -/
def enterActs (g : ι) : List (Act ι) :=
  Act.other (.enter (some g) ⟨1, 0, 0⟩) :: List.replicate 5 (.other (.step (some g)))

/-- The first poll of socket 5 has id 5, and another goroutine enters between the two polls of
`onListen`: the kernel has the poll on the new connection, and the poll on the socket is the
next one that it takes. -/
theorem an_enter_between_the_polls :
    Along (step ⟨2, by decide⟩ ⟨3, by decide⟩ 5) (ArmedAfter ⟨2, by decide⟩ ⟨3, by decide⟩ 5)
        (init (Fin 1) 4) (firstActs ++ onListenActs 6 (enterActs 0)) ∧
      (run (step ⟨2, by decide⟩ ⟨3, by decide⟩ 5) (init (Fin 1) 4)
        (firstActs ++ onListenActs 6 (enterActs 0))).map
          (fun s => (s.run, s.polls, s.outstanding ⟨2, by decide⟩)) =
        some (.select, [⟨6, 0⟩], [⟨6, 0⟩, ⟨5, 5⟩]) :=
  ⟨an_undisturbed_listener_stays_armed _ _ (by decide) _ _ _ (by decide +kernel),
    by decide +kernel⟩

/-- A listener alone on its ring, after its first connection. With id 1 for the first poll, and
with id 5, what the next `Enter` brings to the kernel is the poll on the new connection, twice;
on a queue of two it is nothing. -/
theorem the_second_poll_is_lost :
    (run (step ⟨2, by decide⟩ ⟨3, by decide⟩ 5) (init (Fin 1) 0)
        (firstActs ++ onListenActs 6 [])).map
          (fun s => (s.run, s.outstanding ⟨2, by decide⟩, s.listener.conns 5)) =
        some (.select, [⟨6, 0⟩, ⟨6, 0⟩], none) ∧
      (run (step ⟨2, by decide⟩ ⟨3, by decide⟩ 5) (init (Fin 1) 4)
        (firstActs ++ onListenActs 6 [])).map
          (fun s => (s.run, s.outstanding ⟨2, by decide⟩, s.listener.conns 5)) =
        some (.select, [⟨6, 0⟩, ⟨6, 0⟩], some ⟨5, 5⟩) ∧
      (run (step ⟨1, by decide⟩ ⟨2, by decide⟩ 5) (init (Fin 1) 4)
        (firstActs ++ onListenActs 6 [])).map (fun s => (s.run, s.outstanding ⟨1, by decide⟩)) =
        some (.select, []) ∧
      ¬ Along (step ⟨2, by decide⟩ ⟨3, by decide⟩ 5) (ArmedAfter ⟨2, by decide⟩ ⟨3, by decide⟩ 5)
        (init (Fin 1) 0) (firstActs ++ onListenActs 6 []) ∧
      ¬ Along (step ⟨2, by decide⟩ ⟨3, by decide⟩ 5) (ArmedAfter ⟨2, by decide⟩ ⟨3, by decide⟩ 5)
        (init (Fin 1) 4) (firstActs ++ onListenActs 6 []) := by
  refine ⟨?_, ?_, ?_, ?_, ?_⟩ <;> decide +kernel

end iouring.listener_polls
