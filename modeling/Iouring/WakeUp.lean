-- A worker that goes to sleep when it finds no work, and parties that leave work for
-- it. Before it sleeps it raises a flag and looks once more; after work has been left,
-- some party looks at the flag and rings if it is up. In whatever order the steps of the
-- parties and of the worker come, no work is left to a worker that sleeps on.
import Iouring.Machine

open machine

namespace wake_up

/-- Where the worker stands. Between the flag and its last look the bell may have rung. -/
inductive Worker where
  | awake
  | flagged (rung : Bool)
  | asleep
  | woken
  deriving DecidableEq, Repr

structure State (ι : Type*) where
  worker : Worker
  flag : Bool
  work : Bool
  /-- The party that has left work last, if no party has looked at the flag since. -/
  due : Option ι
  /-- The party has seen the flag up and not rung yet. -/
  ringing : ι → Bool

/-- What can happen next. Steps of a party: it leaves work, or takes it back; it looks at the
flag, and goes on to ring in any case if it `insists`; it rings. Steps of the worker: it
changes the work; it raises the flag; it looks once more; it gets up. -/
inductive Act (ι : Type*) where
  | leave (g : ι) (work : Bool)
  | look (g : ι) (insists : Bool)
  | ring (g : ι)
  | take (work : Bool)
  | raise
  | recheck
  | rise

/-- The bell reaches a worker that is not awake. -/
def Worker.hear : Worker → Worker
  | .awake => .awake
  | .flagged _ => .flagged true
  | .asleep | .woken => .woken

variable {ι : Type*} [DecidableEq ι]

def step (s : State ι) : Act ι → Option (State ι)
  | .leave g work => some { s with work := work, due := some g }
  | .look g insists =>
    some { s with due := none, ringing := Function.update s.ringing g (s.flag || insists) }
  | .ring g =>
    if s.ringing g = true then
      some { s with worker := s.worker.hear, ringing := Function.update s.ringing g false }
    else none
  | .take work => if s.worker = .awake then some { s with work := work } else none
  | .raise =>
    if s.worker = .awake then some { s with worker := .flagged false, flag := true } else none
  | .recheck =>
    match s.worker with
    | .flagged rung =>
      if s.work = true then some { s with worker := .awake, flag := false }
      else some { s with worker := if rung then .woken else .asleep }
    | _ => none
  | .rise => if s.worker = .woken then some { s with worker := .awake, flag := false } else none

/-- The flag is up while the worker is not awake, and while it sleeps on work somebody is
about to ring, or the one who has left it has yet to look. -/
structure Attended (s : State ι) : Prop where
  flag : s.worker ≠ .awake → s.flag = true
  attended : s.worker = .asleep → s.work = true → ∃ g, s.due = some g ∨ s.ringing g = true

theorem hear_eq_awake {w : Worker} : w.hear = .awake ↔ w = .awake := by
  cases w <;> simp [Worker.hear]

theorem hear_ne_asleep (w : Worker) : w.hear ≠ .asleep := by
  cases w <;> simp [Worker.hear]

theorem attended_step {s s' : State ι} {a : Act ι} (hi : Attended s) (h : step s a = some s') :
    Attended s' := by
  cases a with
  | leave g work =>
    cases h
    exact ⟨hi.flag, fun _ _ => ⟨g, Or.inl rfl⟩⟩
  | look g insists =>
    cases h
    refine ⟨hi.flag, fun hasleep _ => ⟨g, Or.inr ?_⟩⟩
    -- the worker sleeps, so the flag is up and the party goes on to ring
    have hasleep : s.worker = .asleep := hasleep
    have hflag := hi.flag (by rw [hasleep]; nofun)
    simp only [Function.update_self, hflag, Bool.true_or]
  | ring g =>
    simp only [step, Option.ite_none_right_eq_some, Option.some.injEq] at h
    obtain ⟨-, rfl⟩ := h
    refine ⟨fun hw => hi.flag fun hawake => hw (hear_eq_awake.mpr hawake), fun hasleep => ?_⟩
    exact absurd hasleep (hear_ne_asleep _)
  | take work =>
    simp only [step, Option.ite_none_right_eq_some, Option.some.injEq] at h
    obtain ⟨hawake, rfl⟩ := h
    exact ⟨hi.flag, fun hasleep => by simp [hawake] at hasleep⟩
  | raise =>
    simp only [step, Option.ite_none_right_eq_some, Option.some.injEq] at h
    obtain ⟨-, rfl⟩ := h
    exact ⟨fun _ => rfl, nofun⟩
  | recheck =>
    cases hw : s.worker with
    | flagged rung =>
      have hflag := hi.flag (by rw [hw]; nofun)
      simp only [step, hw] at h
      by_cases hwork : s.work = true
      · rw [if_pos hwork] at h
        cases h
        exact ⟨fun hne => absurd rfl hne, nofun⟩
      · rw [if_neg hwork] at h
        cases h
        exact ⟨fun _ => hflag, fun _ hleft => absurd hleft hwork⟩
    | awake | asleep | woken => simp [step, hw] at h
  | rise =>
    simp only [step, Option.ite_none_right_eq_some, Option.some.injEq] at h
    obtain ⟨-, rfl⟩ := h
    exact ⟨fun hne => absurd rfl hne, nofun⟩

end wake_up
