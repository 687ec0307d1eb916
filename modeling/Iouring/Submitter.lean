-- The submitter of a ring with a deadline: `ringSubmitter.run` counts the work
-- that comes in, arms a timer at the first piece, and enters the ring at the
-- tick. The flag that says whether the timer runs, the timer itself and the
-- counters are written in different cases of the select.
import Iouring.Machine

open machine

namespace iouring.submitter

/-! ## The timer -/

/-- A timer of package `time`: it is armed or not, and its channel holds a tick or not. -/
structure Timer where
  armed : Bool
  tick : Bool
  deriving DecidableEq, Repr

/-- A receive from the channel will end. -/
def Timer.comes (t : Timer) : Bool := t.armed || t.tick

theorem Timer.comes_eq_true {t : Timer} : t.comes = true ↔ t.armed = true ∨ t.tick = true :=
  Bool.or_eq_true_iff

theorem Timer.comes_eq_false {t : Timer} : t.comes = false ↔ t.armed = false ∧ t.tick = false :=
  Bool.or_eq_false_iff

/-! ## The loop -/

/-- Where `run` stands. Each value names what comes next. -/
inductive Pc where
  -- before the loop: timer.Stop and, if it returns false, the receive
  | stopNew
  | drainNew
  | select
  | enter
  -- the case of done
  | stopDone
  | drainDone
  | returned
  deriving DecidableEq, Repr

/-- The variables of `run`, and how many sends the channel `work` holds. -/
structure State where
  pc : Pc
  timer : Timer
  count : Int64
  seen : Int64
  timerActive : Bool
  work : Nat
  deriving DecidableEq, Repr

/-- The timer that `run` makes is armed. -/
def start : State := ⟨.stopNew, ⟨true, false⟩, 0, 0, false, 0⟩

/-- The capacity of the channel `work`. -/
def workCap : Nat := 128

/-- `if !timer.Stop()`: the receive comes next when the timer was not armed. -/
def State.stopTimer (s : State) (after drain : Pc) : State :=
  { s with
    timer := { s.timer with armed := false }
    pc := if s.timer.armed then after else drain }

/-- What `<-timer.C` leaves. -/
def State.drained (s : State) (after : Pc) : State :=
  { s with timer := { s.timer with tick := false }, pc := after }

/-- `<-timer.C`, which waits for a tick. -/
def State.recvTick (s : State) (after : Pc) : Option State :=
  if s.timer.tick then some (s.drained after) else none

/-- `timer.Reset` with the flag. -/
def State.activate (s : State) : State :=
  if s.timerActive then s
  else { s with timerActive := true, timer := { s.timer with armed := true } }

/-- The case of `work`. -/
def State.onWork (s : State) : State :=
  { s.activate with work := s.work - 1, count := s.count + 1 }

/-- What follows the call of `Enter` at the tick: `continue` after an error, and
otherwise the next enter or the end of the batch. -/
def State.afterEnter (s : State) : Option Int64 → State
  | none => { s with pc := .select }
  | some n =>
    let seen := s.seen + n
    if seen < s.count then { s with seen := seen, pc := .enter }
    else { s with seen := 0, count := 0, timerActive := false, pc := .select }

/-- What can happen next: a caller of `submit` sends to `work`; the timer fires; the
select takes the tick, a piece of work, or the send of `stop`; `Enter` returns a
number or an error; or `run` takes the step at its `timer.Stop` or the receive behind it. -/
inductive Act where
  | submit
  | fire
  | tick
  | work
  | done
  | enter (n : Option Int64)
  | step
  deriving DecidableEq, Repr

def step (s : State) : Act → Option State
  | .submit => if s.work < workCap then some { s with work := s.work + 1 } else none
  | .fire => if s.timer.armed then some { s with timer := ⟨false, true⟩ } else none
  | .tick => if s.pc = .select then s.recvTick .enter else none
  | .work => if s.pc = .select ∧ 0 < s.work then some s.onWork else none
  | .done => if s.pc = .select then some { s with pc := .stopDone } else none
  | .enter n => if s.pc = .enter then some (s.afterEnter n) else none
  | .step =>
    match s.pc with
    | .stopNew => some (s.stopTimer .select .drainNew)
    | .drainNew => s.recvTick .select
    | .stopDone => some (s.stopTimer .returned .drainDone)
    | .drainDone => s.recvTick .returned
    | _ => none

/-! ## The moves -/

theorem recvTick_some {s s' : State} {after : Pc} (h : s.recvTick after = some s') :
    s.timer.tick = true ∧ s' = s.drained after := by
  unfold State.recvTick at h
  split at h
  · exact ⟨‹_›, (Option.some.inj h).symm⟩
  · cases h

/-- One step, case by case: where `run` stood and what the step found. -/
inductive Move (s : State) : Act → State → Prop
  | submit : Move s .submit { s with work := s.work + 1 }
  | fire (h : s.timer.armed = true) : Move s .fire { s with timer := ⟨false, true⟩ }
  | tick (hat : s.pc = .select) (h : s.timer.tick = true) : Move s .tick (s.drained .enter)
  | work (hat : s.pc = .select) : Move s .work s.onWork
  | done (hat : s.pc = .select) : Move s .done { s with pc := .stopDone }
  | enter (n : Option Int64) (hat : s.pc = .enter) : Move s (.enter n) (s.afterEnter n)
  | stopNew (hat : s.pc = .stopNew) : Move s .step (s.stopTimer .select .drainNew)
  | drainNew (hat : s.pc = .drainNew) (h : s.timer.tick = true) :
      Move s .step (s.drained .select)
  | stopDone (hat : s.pc = .stopDone) : Move s .step (s.stopTimer .returned .drainDone)
  | drainDone (hat : s.pc = .drainDone) (h : s.timer.tick = true) :
      Move s .step (s.drained .returned)

theorem ownStep_move {s s' : State} (h : step s .step = some s') : Move s .step s' := by
  simp only [step] at h
  split at h <;> rename_i hat
  · cases h
    exact .stopNew hat
  · obtain ⟨htick, rfl⟩ := recvTick_some h
    exact .drainNew hat htick
  · cases h
    exact .stopDone hat
  · obtain ⟨htick, rfl⟩ := recvTick_some h
    exact .drainDone hat htick
  · cases h

theorem step_move {s s' : State} {a : Act} (h : step s a = some s') : Move s a s' := by
  cases a with
  | step => exact ownStep_move h
  | tick =>
    simp only [step, Option.ite_none_right_eq_some] at h
    obtain ⟨htick, rfl⟩ := recvTick_some h.2
    exact .tick h.1 htick
  | submit =>
    simp only [step, Option.ite_none_right_eq_some, Option.some.injEq] at h
    obtain ⟨-, rfl⟩ := h
    exact .submit
  | fire =>
    simp only [step, Option.ite_none_right_eq_some, Option.some.injEq] at h
    obtain ⟨harmed, rfl⟩ := h
    exact .fire harmed
  | work =>
    simp only [step, Option.ite_none_right_eq_some, Option.some.injEq] at h
    obtain ⟨⟨hat, -⟩, rfl⟩ := h
    exact .work hat
  | done =>
    simp only [step, Option.ite_none_right_eq_some, Option.some.injEq] at h
    obtain ⟨hat, rfl⟩ := h
    exact .done hat
  | enter n =>
    simp only [step, Option.ite_none_right_eq_some, Option.some.injEq] at h
    obtain ⟨hat, rfl⟩ := h
    exact .enter n hat

/-! ## The law -/

/-- At the select the flag says whether a tick is to come, and it is set while
work is counted. The receive of the done case waits for a tick that comes. -/
structure TimerRuns (s : State) : Prop where
  flag : s.pc = .select → (s.timerActive = true ↔ s.timer.armed = true ∨ s.timer.tick = true)
  queued : s.pc = .select → 0 < s.count → s.timerActive = true
  drained : s.pc = .drainDone → s.timer.armed = true ∨ s.timer.tick = true

/-- No `Enter` fails, and the timer of the done case is stopped only while the
flag is set. -/
def Served (s : State) (a : Act) : Prop :=
  a ≠ .enter none ∧ (a = .step → s.pc = .stopDone → s.timerActive = true)

/-- What holds at each place of `run`. -/
def TimerInv (s : State) : Prop :=
  (s.timer.armed && s.timer.tick) = false ∧
  match s.pc with
  | .stopNew => s.timer.comes = true ∧ s.timerActive = false ∧ s.count = 0
  | .drainNew => s.timer.tick = true ∧ s.timerActive = false ∧ s.count = 0
  | .select => s.timerActive = s.timer.comes ∧ (s.count ≠ 0 → s.timerActive = true)
  | .enter => s.timerActive = true ∧ s.timer.comes = false
  | .stopDone => s.timerActive = s.timer.comes
  | .drainDone => s.timer.tick = true
  | .returned => True

theorem timerInv_start : TimerInv start := ⟨rfl, rfl, rfl, rfl⟩

/-- The timer goes off: the tick that was to come is there. -/
theorem TimerInv.fire {s : State} (hi : TimerInv s) (h : s.timer.armed = true) :
    TimerInv { s with timer := ⟨false, true⟩ } := by
  obtain ⟨-, hpc⟩ := hi
  have hcomes : s.timer.comes = true := Timer.comes_eq_true.mpr (Or.inl h)
  refine ⟨rfl, ?_⟩
  cases hat : s.pc with
  | drainDone => rfl
  | returned => trivial
  | drainNew =>
    rw [hat] at hpc
    exact ⟨rfl, hpc.2⟩
  | _ =>
    rw [hat] at hpc
    rw [hcomes] at hpc
    exact hpc

/-- While the channel holds a tick, the timer is not armed. -/
theorem TimerInv.not_armed {s : State} (hi : TimerInv s) (h : s.timer.tick = true) :
    s.timer.armed = false := by
  have hexcl := hi.1
  rw [h, Bool.and_true] at hexcl
  exact hexcl

/-- A `timer.Stop` that finds the timer armed needs no receive, and one that does not
leaves the tick to the receive. -/
theorem TimerInv.armed_or_tick {s : State} (hi : TimerInv s) (hcomes : s.timer.comes = true) :
    (s.timer.armed = true ∧ s.timer.tick = false) ∨
    (s.timer.armed = false ∧ s.timer.tick = true) := by
  have hexcl := hi.1
  rcases Timer.comes_eq_true.mp hcomes with harmed | htick
  · rw [harmed] at hexcl
    exact Or.inl ⟨harmed, hexcl⟩
  · exact Or.inr ⟨hi.not_armed htick, htick⟩

theorem TimerInv.onWork {s : State} (hi : TimerInv s) (hat : s.pc = .select) :
    TimerInv s.onWork := by
  obtain ⟨hexcl, hpc⟩ := hi
  rw [hat] at hpc
  obtain ⟨hflag, -⟩ := hpc
  unfold State.onWork State.activate
  cases hactive : s.timerActive with
  | true =>
    rw [if_pos rfl]
    refine ⟨hexcl, ?_⟩
    simp only [hat]
    exact ⟨hflag, fun _ => hactive⟩
  | false =>
    -- no tick is to come, so the timer that is armed now has an empty channel
    obtain ⟨-, htick⟩ := Timer.comes_eq_false.mp (hflag.symm.trans hactive)
    rw [if_neg Bool.false_ne_true]
    refine ⟨?_, ?_⟩
    · simp only [htick, Bool.and_false]
    · simp only [hat]
      exact ⟨rfl, fun _ => trivial⟩

theorem TimerInv.afterEnter {s : State} (hi : TimerInv s) (hat : s.pc = .enter) (n : Int64) :
    TimerInv (s.afterEnter (some n)) := by
  obtain ⟨hexcl, hpc⟩ := hi
  rw [hat] at hpc
  unfold State.afterEnter
  simp only
  split
  · exact ⟨hexcl, hpc⟩
  · exact ⟨hexcl, hpc.2.symm, fun h => absurd rfl h⟩

theorem timerInv_move {s s' : State} {a : Act} (hi : TimerInv s) (hok : Served s a)
    (hm : Move s a s') : TimerInv s' := by
  have hexcl := hi.1
  have hpc := hi.2
  cases hm with
  | submit => exact hi
  | fire h => exact hi.fire h
  | work hat => exact hi.onWork hat
  | tick hat h =>
    rw [hat] at hpc
    have hflag : s.timerActive = true := hpc.1.trans (Timer.comes_eq_true.mpr (Or.inr h))
    simp [State.drained, TimerInv, Timer.comes, hi.not_armed h, hflag]
  | done hat =>
    rw [hat] at hpc
    exact ⟨hexcl, hpc.1⟩
  | enter n hat =>
    cases n with
    | none => exact absurd rfl hok.1
    | some n => exact hi.afterEnter hat n
  | stopNew hat =>
    rw [hat] at hpc
    obtain ⟨hcomes, hflag, hcount⟩ := hpc
    rcases hi.armed_or_tick hcomes with ⟨harmed, htick⟩ | ⟨harmed, htick⟩
    · simp [State.stopTimer, TimerInv, Timer.comes, harmed, htick, hflag, hcount]
    · simp [State.stopTimer, TimerInv, harmed, htick, hflag, hcount]
  | drainNew hat h =>
    rw [hat] at hpc
    obtain ⟨-, hflag, hcount⟩ := hpc
    simp [State.drained, TimerInv, Timer.comes, hi.not_armed h, hflag, hcount]
  | stopDone hat =>
    rw [hat] at hpc
    have hcomes : s.timer.comes = true := hpc.symm.trans (hok.2 rfl hat)
    rcases hi.armed_or_tick hcomes with ⟨harmed, htick⟩ | ⟨harmed, htick⟩
    · simp [State.stopTimer, TimerInv, harmed]
    · simp [State.stopTimer, TimerInv, harmed, htick]
  | drainDone hat h => simp [State.drained, TimerInv]

theorem TimerInv.timerRuns {s : State} (hi : TimerInv s) : TimerRuns s := by
  obtain ⟨-, hpc⟩ := hi
  refine ⟨fun hat => ?_, fun hat hcount => ?_, fun hat => ?_⟩
  · rw [hat] at hpc
    rw [hpc.1]
    exact Timer.comes_eq_true
  · rw [hat] at hpc
    apply hpc.2
    intro h0
    rw [h0] at hcount
    exact absurd hcount (by decide)
  · rw [hat] at hpc
    exact Or.inr hpc

/-- After a failed enter no tick is to come although the flag is set, and a timer
that is stopped without one leaves the receive to wait for nothing. -/
theorem served_of_timerRuns {s s' : State} {a : Act} (hi : TimerInv s) (hm : Move s a s')
    (hruns : TimerRuns s') : Served s a := by
  have hpc := hi.2
  constructor
  · rintro rfl
    cases hm with
    | enter n hat =>
      rw [hat] at hpc
      have hcomes := Timer.comes_eq_true.mpr ((hruns.flag rfl).mp hpc.1)
      exact Bool.false_ne_true (hpc.2.symm.trans hcomes)
  · rintro rfl hat
    rw [hat] at hpc
    by_contra hflag
    rw [Bool.not_eq_true] at hflag
    obtain ⟨harmed, htick⟩ := Timer.comes_eq_false.mp (hpc.symm.trans hflag)
    cases hm with
    | stopDone _ =>
      have hcomes := hruns.drained (by simp [State.stopTimer, harmed])
      simp [State.stopTimer, htick] at hcomes
    | _ => simp_all

/-- In a run the flag, the timer and the counter agree at every select, and no
receive of the done case waits for a tick that cannot come, exactly if no `Enter`
fails and every stop finds the flag set. -/
theorem the_timer_runs_iff (as : List Act) :
    Always step TimerRuns start as ↔ Along step Served start as :=
  always_iff_along (fun _ _ _ hi hok h => timerInv_move hi hok (step_move h))
    (fun _ hi => hi.timerRuns) (fun _ _ _ hi h => served_of_timerRuns hi (step_move h))
    timerInv_start as

/-- An enter that fails leaves the flag set, one piece of work counted and no tick to
come. A stop with nothing to do waits for a tick of a timer that was never armed. -/
theorem a_failed_enter_and_an_idle_stop :
    (∃ s, run step start [.step, .submit, .work, .fire, .tick, .enter none] = some s ∧
      s.pc = .select ∧ s.count = 1 ∧ s.timerActive = true ∧ s.timer = ⟨false, false⟩ ∧
      ¬ TimerRuns s) ∧
    ∃ s, run step start [.step, .done, .step] = some s ∧
      s.pc = .drainDone ∧ s.timer = ⟨false, false⟩ ∧ step s .step = none ∧ ¬ TimerRuns s := by
  refine ⟨⟨⟨.select, ⟨false, false⟩, 1, 0, true, 0⟩, by decide, rfl, rfl, rfl, rfl, ?_⟩,
    ⟨⟨.drainDone, ⟨false, false⟩, 0, 0, false, 0⟩, by decide, rfl, rfl, rfl, ?_⟩⟩
  · intro h
    have := (h.flag rfl).mp rfl
    simp at this
  · intro h
    have := h.drained rfl
    simp at this

/-! ## After a failed enter -/

/-- The flag is set and no tick is to come. -/
structure Stuck (s : State) : Prop where
  place : s.pc = .select ∨ s.pc = .stopDone ∨ s.pc = .drainDone
  flag : s.timerActive = true
  armed : s.timer.armed = false
  tick : s.timer.tick = false

/-- Work that comes in does not arm the timer, since the flag is set. -/
theorem Stuck.onWork {s : State} (h : Stuck s) : Stuck s.onWork := by
  have hsame : s.activate = s := if_pos h.flag
  rw [State.onWork, hsame]
  exact ⟨h.place, h.flag, h.armed, h.tick⟩

theorem stuck_move {s s' : State} {a : Act} (hs : Stuck s) (hm : Move s a s') : Stuck s' := by
  have hnone : ¬ s.timer.tick = true := by
    rw [hs.tick]
    exact Bool.false_ne_true
  cases hm with
  | submit => exact ⟨hs.place, hs.flag, hs.armed, hs.tick⟩
  | fire h =>
    rw [hs.armed] at h
    cases h
  | tick hat h => exact absurd h hnone
  | work hat => exact hs.onWork
  | done hat => exact ⟨Or.inr (Or.inl rfl), hs.flag, hs.armed, hs.tick⟩
  | stopDone hat =>
    refine ⟨Or.inr (Or.inr ?_), hs.flag, rfl, hs.tick⟩
    simp [State.stopTimer, hs.armed]
  | drainNew hat h => exact absurd h hnone
  | drainDone hat h => exact absurd h hnone
  | enter n hat => rcases hs.place with h | h | h <;> rw [hat] at h <;> cases h
  | stopNew hat => rcases hs.place with h | h | h <;> rw [hat] at h <;> cases h

/-- The first enter that fails is the last one: `run` neither enters again nor
returns, whatever is submitted and whoever calls `stop`. -/
theorem nothing_follows_a_failed_enter {as : List Act} {s s1 : State}
    (hserved : Along step Served start as) (hrun : run step start as = some s)
    (hfail : step s (.enter none) = some s1) (bs : List Act) :
    Always step (fun s => s.pc ≠ .enter ∧ s.pc ≠ .returned) s1 bs := by
  have hi : TimerInv s :=
    run_invariant (fun _ _ _ hi hok h => timerInv_move hi hok (step_move h)) timerInv_start
      hserved hrun
  simp only [step, Option.ite_none_right_eq_some, Option.some.injEq] at hfail
  obtain ⟨hat, rfl⟩ := hfail
  have hpc := hi.2
  rw [hat] at hpc
  obtain ⟨harmed, htick⟩ := Timer.comes_eq_false.mp hpc.2
  have hstuck : Stuck (s.afterEnter none) := ⟨Or.inl rfl, hpc.1, harmed, htick⟩
  refine always_of_invariant (fun _ _ _ hs h => stuck_move hs (step_move h)) (fun s hs => ?_)
    hstuck bs
  rcases hs.place with hat | hat | hat <;> rw [hat] <;> decide

end iouring.submitter
