-- A ring with a poll thread (`SetupSQPoll`). The kernel's thread takes the entries from
-- the queue and goes to sleep when it finds none, and `io_uring_enter` only wakes it.
-- `Ring.Enter` asks `NeedWakeup` before it takes the enter lock, so between its look at
-- `Flags` and its syscall the thread and any number of goroutines go on.
import Iouring.SubmitSteps
import Iouring.WakeUp

open counter machine

namespace iouring.sq_poll

open submit_queue

/-- The queue and the goroutines, and the thread. No step reads `due`: the goroutine that has
moved `Tail` last, if no call of `Ring.Enter` has asked `NeedWakeup` since. -/
structure State (ι : Type) where
  queue : submit_queue.State ι
  thread : wake_up.Worker
  due : Option ι

def init (ι : Type) : State ι := ⟨submit_queue.init ι, .awake, none⟩

/-- Steps of the goroutines, and of the thread: it takes entries, it sets `SqNeedWakeup`
before it sleeps, it looks at the queue once more, and it gets up when it has been woken. -/
inductive Act (ι : Type) where
  | goroutine (a : submit_queue.Act ι)
  | take (count : Nat)
  | raise
  | recheck
  | rise
  deriving DecidableEq, Repr

end iouring.sq_poll

namespace iouring.submit_queue

/-- The syscall is told to wake the thread. -/
def EnterCall.wakes (c : EnterCall) : Bool := decide (c.flags &&& EnterSqWakeup ≠ 0)

/-- A call of `Ring.Enter` that will tell the syscall to wake the thread. -/
def Pc.wakes : Pc → Bool
  | .lockWrites c | .lockEntered c | .lockCas c | .syscall c => c.wakes
  | _ => false

def SubmitQueue.setFlags (m : SubmitQueue) (v : UInt32) : SubmitQueue := { m with flags := v }

end iouring.submit_queue

namespace iouring.sq_poll

open submit_queue

variable {ι : Type} [DecidableEq ι]

def State.setFlags (s : State ι) (v : UInt32) : State ι :=
  { s with queue := { s.queue with mem := s.queue.mem.setFlags v } }

/-- A goroutine's step. The syscall takes no entry: it wakes the thread if it is told to, and
reports the entries it was asked to submit. -/
def goroutine (z : Size) (s : State ι) : submit_queue.Act ι → Option (State ι)
  | .step g =>
    match s.queue.pc g with
    | .needWakeup _ => (stepPc z s.queue g).map fun q => { s with queue := q, due := none }
    | .syscall c =>
      some { s with
        queue := s.queue.goto g (.unlock c (some c.toSubmit))
        thread := if c.wakes then s.thread.hear else s.thread }
    | _ =>
      (stepPc z s.queue g).map fun q =>
        { s with queue := q, due := if q.mem.tail = s.queue.mem.tail then s.due else some g }
  -- the other bits of the word, SqCqOverflow among them
  | .setFlags v =>
    if v &&& SqNeedWakeup = s.queue.mem.flags &&& SqNeedWakeup then some (s.setFlags v) else none
  | a => (submit_queue.step z s.queue a).map fun q => { s with queue := q }

def step (z : Size) (s : State ι) : Act ι → Option (State ι)
  | .goroutine a => goroutine z s a
  | .take count =>
    if s.thread = .awake ∧ consumable z s.queue.mem count = count then
      some { s with queue := consume z count s.queue }
    else none
  | .raise =>
    if s.thread = .awake then
      some { s.setFlags (s.queue.mem.flags ||| SqNeedWakeup) with thread := .flagged false }
    else none
  | .recheck =>
    match s.thread with
    | .flagged rung =>
      if s.queue.mem.tail ≠ s.queue.mem.head then
        some { s.setFlags (s.queue.mem.flags &&& ~~~SqNeedWakeup) with thread := .awake }
      else some { s with thread := if rung then .woken else .asleep }
    | _ => none
  | .rise =>
    if s.thread = .woken then
      some { s.setFlags (s.queue.mem.flags &&& ~~~SqNeedWakeup) with thread := .awake }
    else none

/-! ## The bits -/

def needsWakeup (flags : UInt32) : Bool := decide (flags &&& SqNeedWakeup ≠ 0)

theorem or_and_self {w : Nat} (x y : BitVec w) : (x ||| y) &&& y = y := by
  ext i
  simp only [BitVec.getElem_and, BitVec.getElem_or]
  cases y[i] <;> simp

theorem needsWakeup_set (flags : UInt32) : needsWakeup (flags ||| SqNeedWakeup) = true := by
  have hbit : (flags ||| SqNeedWakeup) &&& SqNeedWakeup = SqNeedWakeup :=
    UInt32.toBitVec_inj.mp (or_and_self _ _)
  rw [needsWakeup, hbit]
  rfl

theorem needsWakeup_clear (flags : UInt32) : needsWakeup (flags &&& ~~~SqNeedWakeup) = false := by
  have hbit : ~~~SqNeedWakeup &&& SqNeedWakeup = 0 := by decide
  rw [needsWakeup, UInt32.and_assoc, hbit, UInt32.and_zero]
  rfl

theorem wakes_set (c : EnterCall) : { c with flags := c.flags ||| EnterSqWakeup }.wakes = true := by
  have hbit : (c.flags ||| EnterSqWakeup) &&& EnterSqWakeup = EnterSqWakeup :=
    UInt64.toBitVec_inj.mp (or_and_self _ _)
  rw [EnterCall.wakes, hbit]
  rfl

/-! ## The wake-up protocol -/

/-- What the wake-up protocol sees of the ring. -/
def protocol (s : State ι) : wake_up.State ι where
  worker := s.thread
  flag := needsWakeup s.queue.mem.flags
  work := decide (s.queue.mem.tail ≠ s.queue.mem.head)
  due := s.due
  ringing := Pc.wakes ∘ s.queue.pc

/-- A goroutine goes to a place where its call tells the syscall the same. -/
theorem comp_wakes_goto {pc : ι → Pc} {g : ι} {p : Pc} (h : p.wakes = (pc g).wakes) :
    Pc.wakes ∘ Function.update pc g p = Pc.wakes ∘ pc := by
  rw [Function.comp_update]
  exact Function.update_eq_self_iff.mpr h

/-- A step of a call that does not look at `Flags` and is not the syscall. -/
theorem move_keeps {z : Size} {q q' : submit_queue.State ι} {g : ι} (hm : Move z q (.step g) q')
    (hlook : ∀ c, q.pc g ≠ .needWakeup c) (hcall : ∀ c, q.pc g ≠ .syscall c) :
    q'.mem.head = q.mem.head ∧ q'.mem.flags = q.mem.flags ∧
      Pc.wakes ∘ q'.pc = Pc.wakes ∘ q.pc := by
  cases hm with
  | needWakeup c' h => exact absurd h (hlook _)
  | syscall h => exact absurd h (hcall _)
  | _ =>
    rename_i h
    exact ⟨rfl, rfl, comp_wakes_goto (by simp [*, Pc.wakes])⟩

/-- `NeedWakeup` is a look at the flag. -/
theorem needWakeup_looks {z : Size} {s s' : State ι} {g : ι} {c : EnterCall}
    (hpc : s.queue.pc g = .needWakeup c) (h : goroutine z s (.step g) = some s') :
    wake_up.step (protocol s) (.look g c.wakes) = some (protocol s') := by
  simp only [goroutine, hpc, stepPc, Option.map_eq_some_iff] at h
  obtain ⟨q, hq, rfl⟩ := h
  have hgoto : ∃ c', q = s.queue.goto g (.lockWrites c') ∧
      c'.wakes = (needsWakeup s.queue.mem.flags || c.wakes) := by
    by_cases hflag : s.queue.mem.flags &&& SqNeedWakeup ≠ 0
    · rw [if_pos hflag] at hq
      cases hq
      refine ⟨_, rfl, ?_⟩
      rw [wakes_set, needsWakeup, decide_eq_true hflag, Bool.true_or]
    · rw [if_neg hflag] at hq
      cases hq
      refine ⟨_, rfl, ?_⟩
      rw [needsWakeup, decide_eq_false hflag, Bool.false_or]
  obtain ⟨c', rfl, hwakes⟩ := hgoto
  simp only [wake_up.step, protocol, goto_mem, goto_pc, Function.comp_update, ← hwakes]
  rfl

/-- The syscall of a call that was told to rings the bell, and no other syscall does anything
to the thread. -/
theorem syscall_rings {z : Size} {s s' : State ι} {g : ι} {c : EnterCall}
    (hpc : s.queue.pc g = .syscall c) (h : goroutine z s (.step g) = some s') :
    protocol s' = protocol s ∨ wake_up.step (protocol s) (.ring g) = some (protocol s') := by
  simp only [goroutine, hpc, Option.some.injEq] at h
  subst h
  have hring : (protocol s).ringing g = c.wakes := by
    simp only [protocol, Function.comp, hpc, Pc.wakes]
  cases hwakes : c.wakes with
  | false =>
    left
    simp only [protocol, goto_mem, goto_pc, Bool.false_eq_true, if_false]
    rw [comp_wakes_goto (p := .unlock c (some c.toSubmit)) (hring.trans hwakes).symm]
    rfl
  | true =>
    right
    rw [wake_up.step, if_pos (hring.trans hwakes)]
    simp only [protocol, goto_mem, goto_pc, Function.comp_update, if_true]
    rfl

/-- A syscall that fails and was not told to wake the thread is not seen. -/
theorem fail_unseen {z : Size} {s s' : State ι} {g : ι} (hok : (s.queue.pc g).wakes = false)
    (h : goroutine z s (.fail g) = some s') : protocol s' = protocol s := by
  obtain ⟨q, hq, rfl⟩ := Option.map_eq_some_iff.mp h
  cases step_move hq
  rename_i c hpc
  simp only [protocol, goto_mem, goto_pc]
  rw [comp_wakes_goto (p := .unlock c none) hok.symm]
  rfl

/-- Any other step of a call leaves work when it moves `Tail`, and is not seen otherwise. -/
theorem step_leaves {z : Size} {s s' : State ι} {g : ι} (hlook : ∀ c, s.queue.pc g ≠ .needWakeup c)
    (hcall : ∀ c, s.queue.pc g ≠ .syscall c) (h : goroutine z s (.step g) = some s') :
    protocol s' = protocol s ∨
      ∃ work, wake_up.step (protocol s) (.leave g work) = some (protocol s') := by
  have hstep : ∃ q, stepPc z s.queue g = some q ∧
      { s with
        queue := q
        due := if q.mem.tail = s.queue.mem.tail then s.due else some g } = s' := by
    simp only [goroutine] at h
    exact Option.map_eq_some_iff.mp h
  obtain ⟨q, hq, rfl⟩ := hstep
  obtain ⟨hhead, hflags, hwakes⟩ := move_keeps (stepPc_move hq) hlook hcall
  by_cases htail : q.mem.tail = s.queue.mem.tail
  · left
    simp only [protocol, htail, if_true, hhead, hflags, hwakes]
  · right
    refine ⟨decide (q.mem.tail ≠ q.mem.head), ?_⟩
    simp only [wake_up.step, protocol, hflags, hwakes, htail, if_false]

/-- No `Enter` fails that was told to wake the thread. -/
def NoWakerFails (s : State ι) : Act ι → Prop
  | .goroutine (.fail g) => (s.queue.pc g).wakes = false
  | _ => True

instance (s : State ι) : ∀ a, Decidable (NoWakerFails s a)
  | .goroutine (.fail g) => inferInstanceAs (Decidable ((s.queue.pc g).wakes = false))
  | .goroutine (.step _) | .goroutine (.submitEntry _) | .goroutine (.write _ _)
  | .goroutine (.commit _) | .goroutine (.enter _ _) | .goroutine (.setFlags _)
  | .take _ | .raise | .recheck | .rise => isTrue trivial

theorem goroutine_simulates {z : Size} {s s' : State ι} {a : submit_queue.Act ι}
    (hok : NoWakerFails s (.goroutine a)) (h : goroutine z s a = some s') :
    protocol s' = protocol s ∨ ∃ b, wake_up.step (protocol s) b = some (protocol s') := by
  cases a with
  | step g =>
    by_cases hlook : ∃ c, s.queue.pc g = .needWakeup c
    · obtain ⟨c, hpc⟩ := hlook
      exact Or.inr ⟨_, needWakeup_looks hpc h⟩
    by_cases hcall : ∃ c, s.queue.pc g = .syscall c
    · obtain ⟨c, hpc⟩ := hcall
      exact (syscall_rings hpc h).imp_right fun hr => ⟨_, hr⟩
    · push Not at hlook hcall
      exact (step_leaves hlook hcall h).imp_right fun ⟨work, hw⟩ => ⟨_, hw⟩
  | fail g => exact Or.inl (fail_unseen hok h)
  | setFlags v =>
    left
    simp only [goroutine, Option.ite_none_right_eq_some, Option.some.injEq] at h
    obtain ⟨hbit, rfl⟩ := h
    simp only [protocol, State.setFlags, SubmitQueue.setFlags, needsWakeup, hbit]
    rfl
  | write g w =>
    left
    obtain ⟨q, hq, rfl⟩ := Option.map_eq_some_iff.mp h
    cases step_move hq
    rfl
  -- the calls that start
  | submitEntry g | commit g | enter g c =>
    left
    obtain ⟨q, hq, rfl⟩ := Option.map_eq_some_iff.mp h
    cases step_move hq
    rename_i hpc
    simp only [protocol, goto_mem, goto_pc]
    congr 1
    exact comp_wakes_goto (by rw [hpc]; rfl)

theorem simulates_wake_up (z : Size) :
    Simulates (step z) wake_up.step (protocol : State ι → wake_up.State ι) NoWakerFails := by
  intro s a s' hok h
  cases a with
  | goroutine a => exact goroutine_simulates hok h
  | take count =>
    right
    simp only [step, Option.ite_none_right_eq_some, Option.some.injEq] at h
    obtain ⟨⟨hawake, -⟩, rfl⟩ := h
    refine ⟨.take (decide (s.queue.mem.tail ≠ (consume z count s.queue).mem.head)), ?_⟩
    simp only [wake_up.step, protocol, hawake, if_true, consume_mem, consume_pc]
  | raise =>
    right
    simp only [step, Option.ite_none_right_eq_some, Option.some.injEq] at h
    obtain ⟨hawake, rfl⟩ := h
    refine ⟨.raise, ?_⟩
    simp only [wake_up.step, protocol, hawake, if_true, State.setFlags, SubmitQueue.setFlags,
      needsWakeup_set]
  | recheck =>
    right
    refine ⟨.recheck, ?_⟩
    cases hthread : s.thread with
    | flagged rung =>
      simp only [step, hthread] at h
      by_cases hwork : s.queue.mem.tail ≠ s.queue.mem.head
      · rw [if_pos hwork] at h
        cases h
        simp only [wake_up.step, protocol, hthread]
        rw [if_pos (decide_eq_true hwork)]
        simp only [State.setFlags, SubmitQueue.setFlags, needsWakeup_clear]
        rfl
      · rw [if_neg hwork] at h
        cases h
        simp only [wake_up.step, protocol, hthread]
        rw [if_neg (by rw [decide_eq_true_iff]; exact hwork)]
    | awake | asleep | woken => simp [step, hthread] at h
  | rise =>
    right
    simp only [step, Option.ite_none_right_eq_some, Option.some.injEq] at h
    obtain ⟨hwoken, rfl⟩ := h
    refine ⟨.rise, ?_⟩
    simp only [wake_up.step, protocol, hwoken, if_true, State.setFlags, SubmitQueue.setFlags,
      needsWakeup_clear]

/-- `SqNeedWakeup` is set while the thread sleeps. While it sleeps on entries, some call of
`Ring.Enter` is about to wake it, or a goroutine has moved `Tail` in `SubmitEntry` and no call
of `Ring.Enter` has asked `NeedWakeup` since, so that the one which follows is still to come. -/
structure NoWakeupLost (s : State ι) : Prop where
  flagged : s.thread = .asleep → needsWakeup s.queue.mem.flags = true
  attended : s.thread = .asleep → s.queue.mem.tail ≠ s.queue.mem.head →
    ∃ g, s.due = some g ∨ (s.queue.pc g).wakes = true

omit [DecidableEq ι] in
theorem noWakeupLost_of_attended {s : State ι} (h : wake_up.Attended (protocol s)) :
    NoWakeupLost s := by
  refine ⟨fun hasleep => h.flag ?_, fun hasleep hwork => h.attended hasleep ?_⟩
  · rw [protocol, hasleep]
    nofun
  · exact decide_eq_true hwork

/-- However the goroutines and the thread interleave: if no `Enter` fails that was told to
wake the thread, then no wake-up is lost. -/
theorem no_wakeup_is_lost (z : Size) (as : List (Act ι))
    (hok : Along (step z) NoWakerFails (init ι) as) :
    Always (step z) NoWakeupLost (init ι) as := by
  have hinit : wake_up.Attended (protocol (init ι)) := ⟨fun hne => absurd rfl hne, nofun⟩
  exact (simulates_wake_up z).always (fun _ _ _ => wake_up.attended_step)
    (fun _ => noWakeupLost_of_attended) hinit hok

omit [DecidableEq ι] in
/-- The thread goes to sleep while a goroutine is in `SubmitEntry`; another one then enters,
and its syscall is the given step. -/
def wakeActs (g g' : ι) (syscall : submit_queue.Act ι) : List (Act ι) :=
  [Act.raise, Act.goroutine (.submitEntry g), Act.recheck] ++
    (List.replicate 15 (submit_queue.Act.step g) ++ commitActs g ++
      [submit_queue.Act.enter g' ⟨1, 0, 0⟩, submit_queue.Act.step g', submit_queue.Act.step g',
        submit_queue.Act.step g', syscall, submit_queue.Act.step g']).map Act.goroutine

theorem an_enter_wakes_the_thread :
    Always (step ⟨2, by decide⟩) NoWakeupLost (init (Fin 2)) (wakeActs 0 1 (.step 1)) :=
  no_wakeup_is_lost ⟨2, by decide⟩ (wakeActs 0 1 (.step 1)) (by decide +kernel)

-- where that syscall fails, the thread sleeps on an entry and nobody is in a call
example : (run (step ⟨2, by decide⟩) (init (Fin 2)) (wakeActs 0 1 (.fail 1))).map
    (fun s => (s.thread, s.queue.mem.tail, s.queue.mem.head, s.due, s.queue.pc 0, s.queue.pc 1)) =
      some (.asleep, 1, 0, none, .idle, .idle) :=
  rfl

end iouring.sq_poll
