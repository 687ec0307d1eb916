-- `Ring.run` next to the submission queue: which entries the kernel gets from its `Enter`.
-- `toSubmit` is the size of the map of requests in flight, what `Enter` answers is dropped, and
-- a retry calls `Enter` only if a new request waits. The entries are those of the operations
-- that other goroutines have under way, each in its steps on the queue.
import Iouring.PrepareSteps
import Iouring.Requests
import Iouring.SubmitSolo

open counter machine

namespace iouring.submit_queue

variable {ι : Type} [DecidableEq ι]

/-- The kernel never forgets an entry that it has taken. -/
theorem executed_move {z : Size} {s s' : State ι} {a : Act ι} (hm : Move z s a s') :
    s.hist.executed <+: s'.hist.executed := by
  cases hm with
  | syscall h =>
    rw [goto_hist, consume_executed]
    exact List.prefix_append ..
  | _ => exact List.prefix_refl _

/-- A call of `Enter` comes to its end in the syscall. -/
theorem unlock_move {z : Size} {s s' : State ι} {g : ι} {c : EnterCall} {k : Option Nat}
    (hm : Move z s (.step g) s') (h : s'.pc g = .unlock c k) :
    s.pc g = .syscall c ∧
      s' = (consume z (consumable z s.mem c.toSubmit) s).goto g
        (.unlock c (some (consumable z s.mem c.toSubmit))) := by
  cases hm with
  | syscall hpc =>
    rw [goto_pc, Function.update_self] at h
    cases h
    exact ⟨hpc, rfl⟩
  | _ => simp [State.goto, storeArray] at h

end iouring.submit_queue

namespace iouring.prepare_calls

theorem executed_move {ι : Type} [DecidableEq ι] {z : Size} {s s' : State ι} {a : Act ι}
    (hm : Move z s a s') : s.queue.hist.executed <+: s'.queue.hist.executed := by
  cases hm with
  | submit hjob hop hq | drawFirst hjob hq | write hjob hpc ht hq | commit hjob hpc hq
  | store hjob hpc hnext hq | queue hb hcaller hstep hq =>
    exact submit_queue.executed_move (submit_queue.step_move hq)
  | _ => exact List.prefix_refl _

end iouring.prepare_calls

namespace iouring.run_submits

open completion_queue (CompletionEntry publish)
open submit_queue (EnterGetEvents consume consumable reads)
open prepare_calls (phase)

/-! ## The loop and the queue -/

/-- The submission queue with its callers, where `none` is the goroutine of `Ring.run`, and the
ring. -/
structure State (ι : Type) where
  calls : prepare_calls.State (Option ι)
  ring : ring.State ι

/-- A new ring; `idx` is the value of `WithID`, or 0. -/
def init (ι : Type) (idx : UInt64) : State ι :=
  ⟨prepare_calls.init (Option ι) idx, ring.init ι⟩

/-- What can happen next: a goroutine acts on the submission queue; the syscall of a call of
`Enter` takes `k` of the entries that it could take; `Ring.run` takes its next step, or its
syscall fails; the kernel posts a completion; or any other step of the ring. -/
inductive Act (ι : Type) where
  | calls (a : prepare_calls.Act (Option ι))
  | takes (g : Option ι) (k : Nat)
  | run
  | fails
  | post (cqe : CompletionEntry)
  | ring (a : ring.Act ι)
  deriving DecidableEq, Repr

variable {ι : Type}

/-- The ids of the entries that the kernel has taken. -/
def State.executed (s : State ι) : List UInt64 :=
  s.calls.queue.hist.executed.map (·.2.userData)

/-- The ids of the entries that an `Enter` for `n` entries takes. -/
def State.reach (zs : Size) (s : State ι) (n : Nat) : List UInt64 :=
  (reads zs s.calls.queue.mem (consumable zs s.calls.queue.mem n)).map (·.2.userData)

/-- A goroutine that is not in `complete` starts an operation that draws its id, or goes on
with it, as long as the ids of `Ring.ID` last: so no two entries have one id. -/
def Elsewhere (s : State ι) (a : prepare_calls.Act (Option ι)) : Prop :=
  s.calls.draws + 1 < 2 ^ 64 ∧
    match a with
    | .call (some g) op => s.ring.callers g = .idle ∧ op.fixed = none
    | .enter (some g) _ | .step (some g) | .fail (some g) => s.ring.callers g = .idle
    | .setFlags _ | .consumed _ => True
    | .call none _ | .enter none _ | .step none | .fail none => False

/-- A goroutine calls `complete` with an id that an operation has returned. The steps of
`Ring.run` and of the kernel are none of these. -/
def Allowed (s : State ι) : ring.Act ι → Prop
  | .complete g id _ =>
    s.calls.jobs (some g) = .idle ∧ s.calls.queue.pc (some g) = .idle ∧
      id ∈ s.calls.returned.map (·.2)
  | .post _ | .run => False
  | _ => True

instance (s : State ι) : (a : prepare_calls.Act (Option ι)) → Decidable (Elsewhere s a)
  | .call (some _) _ | .enter (some _) _ | .step (some _) | .fail (some _) =>
    inferInstanceAs (Decidable (_ ∧ _))
  | .setFlags _ | .consumed _ => inferInstanceAs (Decidable (_ ∧ True))
  | .call none _ | .enter none _ | .step none | .fail none =>
    inferInstanceAs (Decidable (_ ∧ False))

instance (s : State ι) : (a : ring.Act ι) → Decidable (Allowed s a)
  | .complete .. => inferInstanceAs (Decidable (_ ∧ _ ∧ _))
  | .post _ | .run => instDecidableFalse
  | .ack _ | .completer | .caller _ | .takeCompletion | .takeRetry => instDecidableTrue

variable [DecidableEq ι]

/-- The syscall takes `k` entries, for whatever reason not more. -/
def take (zs : Size) (q : submit_queue.State ι) (g : ι) (k : Nat) :
    Option (submit_queue.State ι) :=
  match q.pc g with
  | .syscall c =>
    if k ≤ consumable zs q.mem c.toSubmit then
      some ((consume zs k q).goto g (.unlock c (some k)))
    else none
  | _ => none

def State.call (zs : Size) (s : State ι) (a : prepare_calls.Act (Option ι)) :
    Option (State ι) :=
  (prepare_calls.step zs s.calls a).map fun c => { s with calls := c }

/-- The next step of `Ring.run`. At `r.Enter(uint(len(inflight)), 0, EnterGetEvents, nil)` it is
a step of that call, and its answer is dropped. -/
def State.runStep (zs zc : Size) (s : State ι) : Option (State ι) :=
  if s.ring.run = .enter then
    match s.calls.queue.pc none with
    | .idle => s.call zs (.enter none ⟨s.ring.inflight.entries.length, 0, EnterGetEvents⟩)
    | .unlock _ _ =>
      (s.call zs (.step none)).bind fun s' =>
        (ring.step zc s.ring .run).map fun r => { s' with ring := r }
    | _ => s.call zs (.step none)
  else (ring.step zc s.ring .run).map fun r => { s with ring := r }

def step (zs zc : Size) (s : State ι) : Act ι → Option (State ι)
  | .calls a => if Elsewhere s a then s.call zs a else none
  | .takes g k =>
    (take zs s.calls.queue g k).map fun q => { s with calls := { s.calls with queue := q } }
  | .run => s.runStep zs zc
  | .fails => if s.ring.run = .enter then s.call zs (.fail none) else none
  -- an entry that the kernel has taken twice is completed twice
  | .post cqe =>
    if cqe.userData ∈ s.executed then
      (publish zc s.ring.queue cqe).map fun q => { s with ring := { s.ring with queue := q } }
    else none
  | .ring a =>
    if Allowed s a then (ring.step zc s.ring a).map fun r => { s with ring := r } else none

/-! ## The law -/

/-- The `toSubmit` of the `Enter` that the retry case makes from here, if it makes
one: three steps from the select it stands at `Enter`, or it has passed it. -/
def retrySubmit (zc : Size) (r : ring.State ι) : Option Nat :=
  (run (ring.step zc) r [.takeRetry, .run, .run]).bind fun r' =>
    if r'.run = .enter then some r'.inflight.entries.length else none

/-- At the top of the loop, the next retry reaches the entry of every request in flight that
the kernel has not taken. -/
def RetryReaches (zs zc : Size) (s : State ι) : Prop :=
  s.ring.run = .select → ∀ id ∈ s.ring.inflight.keys, id ∉ s.executed →
    ∃ n, retrySubmit zc s.ring = some n ∧ id ∈ s.reach zs n

/-- No `Enter` of `Ring.run` fails or takes less than it can, and those that it does take have
with them the entry of every request in flight that the kernel has not taken before. -/
def FullEnter (zs : Size) (s : State ι) : Act ι → Prop
  | .fails => False
  | .takes g _ => g ≠ none
  | .run =>
    match s.calls.queue.pc none with
    | .syscall c => ∀ id ∈ s.ring.inflight.keys, id ∈ s.executed ∨ id ∈ s.reach zs c.toSubmit
    | _ => True
  | _ => True

instance (zs : Size) (s : State ι) : (a : Act ι) → Decidable (FullEnter zs s a)
  | .fails => instDecidableFalse
  | .takes .. => inferInstanceAs (Decidable (_ ≠ _))
  | .run => by
    dsimp only [FullEnter]
    split
    · exact List.decidableBAll _ _
    · exact instDecidableTrue
  | .calls _ | .post _ | .ring _ => instDecidableTrue

/-! ## The entries of the requests in flight -/

/-- The goroutine of `Ring.run` is in no operation, and in a call on the queue only at its
`Enter`. When that call has made its syscall, and outside of it, the kernel has taken the
entries of all requests in flight. -/
structure SubmitInv (s : State ι) : Prop where
  phases : prepare_calls.InPhase s.calls
  job : s.calls.jobs none = .idle
  outside : s.ring.run ≠ .enter → s.calls.queue.pc none = .idle
  taken : (s.ring.run ≠ .enter ∨ ∃ c k, s.calls.queue.pc none = .unlock c k) →
    ∀ id ∈ s.ring.inflight, id ∈ s.executed

omit [DecidableEq ι] in
theorem submitInv_init (idx : UInt64) : SubmitInv (init ι idx) where
  phases := fun _ => rfl
  job := rfl
  outside := fun _ => rfl
  taken := fun _ id h => by simp [init, ring.init] at h

/-- Outside of `Enter` and of the insert before it, a step puts no request in flight. -/
theorem inflight_move {z : Size} {s s' : ring.State ι} {a : ring.Act ι}
    (hm : ring.Move z s a s') (hafter : s'.run ≠ .enter) : ∀ id ∈ s'.inflight, id ∈ s.inflight := by
  cases hm with
  | insert h => exact absurd rfl hafter
  | delete h => exact fun id hid => (AList.mem_erase.mp hid).2
  | _ => exact fun id hid => hid

section

variable {zs zc : Size} {s s' : State ι}

theorem call_eq_some {a : prepare_calls.Act (Option ι)} (h : s.call zs a = some s') :
    prepare_calls.step zs s.calls a = some s'.calls ∧ s'.ring = s.ring := by
  obtain ⟨c, hc, rfl⟩ := Option.map_eq_some_iff.mp h
  exact ⟨hc, rfl⟩

/-- An act on the queue only adds to what the kernel has taken. -/
theorem executed_call {a : prepare_calls.Act (Option ι)} (hi : SubmitInv s)
    (h : s.call zs a = some s') : s.executed ⊆ s'.executed := by
  have hm := prepare_calls.step_move hi.phases (call_eq_some h).1
  exact List.map_subset _ (prepare_calls.executed_move hm).subset

/-- An act of another goroutine on the queue. -/
theorem SubmitInv.elsewhere (hi : SubmitInv s) {a : prepare_calls.Act (Option ι)}
    (ha : Elsewhere s a) (h : s.call zs a = some s') : SubmitInv s' := by
  have hcaller : a.caller ≠ some none := by
    rcases a with ⟨g, op⟩ | ⟨g, c⟩ | g | g | v | id
    case setFlags | consumed => simp [prepare_calls.Act.caller]
    all_goals
      cases g with
      | none => exact ha.2.elim
      | some g => simp [prepare_calls.Act.caller]
  obtain ⟨hc, hring⟩ := call_eq_some h
  have hm := prepare_calls.step_move hi.phases hc
  obtain ⟨hjob, hpc⟩ := prepare_calls.other_goroutine hm hcaller
  refine ⟨prepare_calls.inPhase_move hi.phases hm, hjob.trans hi.job, ?_, ?_⟩
  · rw [hring, hpc]
    exact hi.outside
  · rw [hring, hpc]
    exact fun h' id hid => executed_call hi h (hi.taken h' id hid)

/-- Another goroutine's `Enter` takes some entries. -/
theorem SubmitInv.takes (hi : SubmitInv s) {g : ι} {k : Nat} {q : submit_queue.State (Option ι)}
    (h : take zs s.calls.queue (some g) k = some q) :
    SubmitInv { s with calls := { s.calls with queue := q } } := by
  unfold take at h
  split at h
  · next c hpc =>
    obtain ⟨-, h⟩ := Option.ite_none_right_eq_some.mp h
    cases h
    have hpcs : ∀ g',
        phase (((consume zs k s.calls.queue).goto (some g) (.unlock c (some k))).pc g') =
          phase (s.calls.queue.pc g') := by
      intro g'
      rw [submit_queue.goto_pc, submit_queue.consume_pc]
      exact update_same (by rw [hpc]; rfl) g'
    have hnone : ((consume zs k s.calls.queue).goto (some g) (.unlock c (some k))).pc none =
        s.calls.queue.pc none := by
      rw [submit_queue.goto_pc, submit_queue.consume_pc]
      exact Function.update_of_ne (by simp) _ _
    refine ⟨fun g' => (hi.phases g').trans (hpcs g').symm, hi.job, ?_, ?_⟩
    · dsimp only
      rw [hnone]
      exact hi.outside
    · dsimp only
      rw [hnone]
      intro h' id hid
      refine List.map_subset _ ?_ (hi.taken h' id hid)
      rw [submit_queue.goto_hist, submit_queue.consume_executed]
      exact List.subset_append_left ..
  · cases h

/-- A step of the ring other than those of `Ring.run` at its `Enter`. -/
theorem SubmitInv.ring_step (hi : SubmitInv s) {a : ring.Act ι} {r : ring.State ι}
    (ha : a = .run → s.ring.run ≠ .enter) (hs : ring.step zc s.ring a = some r) :
    SubmitInv { s with ring := r } := by
  have hm := ring.step_move hs
  -- no step but that of `Enter` leaves it
  have hbefore : r.run ≠ .enter → s.ring.run ≠ .enter := by
    intro hafter
    cases hm with
    | post h | ack hfree h | completer h | getPooled h hnew hack hr | getFresh h hnew hack
    | setId h | setRes h | setFlags h | send h hroom | wake h hdone | readRes h | readFlags h
    | put h => exact hafter
    | takeCompletion h hc => rw [h]; simp
    | takeRetry h hretry => rw [h]; simp
    | _ => exact ha rfl
  refine ⟨hi.phases, hi.job, fun hafter => hi.outside (hbefore hafter), ?_⟩
  intro h id hid
  by_cases hafter : r.run = .enter
  · -- `Enter` has made its syscall, and nobody else changes the map
    have hunlock := h.resolve_left (not_not_intro hafter)
    have henter : s.ring.run = .enter := by
      by_contra hne
      obtain ⟨c, k, hpc⟩ := hunlock
      cases (hi.outside hne).symm.trans hpc
    have hsame : r.inflight = s.ring.inflight := by
      cases hm with
      | insert h | delete h => exact absurd henter (ha rfl)
      | _ => rfl
    exact hi.taken (.inr hunlock) id (hsame ▸ hid)
  · exact hi.taken (.inl (hbefore hafter)) id (inflight_move hm hafter id hid)

/-- A step of `Ring.run` in its call of `Enter`. -/
theorem SubmitInv.enter (hi : SubmitInv s) (hrun : s.ring.run = .enter)
    {a : prepare_calls.Act (Option ι)} (hcall : s.call zs a = some s')
    (hjob : s'.calls.jobs none = .idle)
    (htaken : ∀ c k, s'.calls.queue.pc none = .unlock c k →
      ∀ id ∈ s.ring.inflight, id ∈ s'.executed) : SubmitInv s' := by
  obtain ⟨hc, hring⟩ := call_eq_some hcall
  have hm := prepare_calls.step_move hi.phases hc
  refine ⟨prepare_calls.inPhase_move hi.phases hm, hjob, ?_, ?_⟩
  · rw [hring]
    exact fun hne => absurd hrun hne
  · rw [hring]
    rintro (hne | ⟨c, k, hpc⟩)
    · exact absurd hrun hne
    · exact htaken c k hpc

/-- In its call, `Ring.run` takes the steps of the queue. -/
theorem SubmitInv.call_step (hi : SubmitInv s) (h : s.call zs (.step none) = some s') :
    submit_queue.step zs s.calls.queue (.step none) = some s'.calls.queue ∧
      s'.calls.jobs none = .idle := by
  obtain ⟨hc, -⟩ := call_eq_some h
  simp only [prepare_calls.step, prepare_calls.stepJob, hi.job] at hc
  obtain ⟨q, hq, hc⟩ := prepare_calls.queueStep_eq_some hc
  rw [hc]
  exact ⟨hq, hi.job⟩

theorem SubmitInv.runStep (hi : SubmitInv s) (hfull : FullEnter zs s .run)
    (h : s.runStep zs zc = some s') : SubmitInv s' := by
  unfold State.runStep at h
  split_ifs at h with hrun
  · split at h
    · -- the call
      next hidle =>
      obtain ⟨hc, -⟩ := call_eq_some h
      simp only [prepare_calls.step, hi.job, if_true] at hc
      obtain ⟨q, hq, hc⟩ := prepare_calls.queueStep_eq_some hc
      refine hi.enter hrun h (by rw [hc]; exact hi.job) fun c k hpc => ?_
      simp only [submit_queue.step, hidle, Option.some.injEq] at hq
      rw [hc, ← hq] at hpc
      simp [submit_queue.State.goto] at hpc
    · -- the return
      next c k hpc =>
      obtain ⟨s1, h1, h⟩ := Option.bind_eq_some_iff.mp h
      obtain ⟨r, hr, rfl⟩ := Option.map_eq_some_iff.mp h
      obtain ⟨hq, hjob⟩ := hi.call_step h1
      have hm := prepare_calls.step_move hi.phases (call_eq_some h1).1
      simp only [ring.step, ring.runStep, hrun, Option.some.injEq] at hr
      subst hr
      refine ⟨prepare_calls.inPhase_move hi.phases hm, hjob, fun _ => ?_, fun _ id hid => ?_⟩
      · simp only [submit_queue.step, submit_queue.stepPc, hpc, Option.some.injEq] at hq
        simp [← hq]
      · exact executed_call hi h1 (hi.taken (.inr ⟨c, k, hpc⟩) id hid)
    · -- the way to the syscall, and the syscall
      next hidle hunlock =>
      obtain ⟨hq, hjob⟩ := hi.call_step h
      refine hi.enter hrun h hjob fun c k hpc => ?_
      obtain ⟨hsyscall, hq⟩ := submit_queue.unlock_move (submit_queue.step_move hq) hpc
      simp only [FullEnter, hsyscall] at hfull
      intro id hid
      rw [State.executed, hq, submit_queue.goto_hist, submit_queue.consume_executed,
        List.map_append]
      exact List.mem_append.mpr (hfull id (AList.mem_keys.mp hid))
  · obtain ⟨r, hr, rfl⟩ := Option.map_eq_some_iff.mp h
    exact hi.ring_step (fun _ => hrun) hr

theorem submitInv_step {a : Act ι} (hi : SubmitInv s) (hfull : FullEnter zs s a)
    (hs : step zs zc s a = some s') : SubmitInv s' := by
  cases a with
  | calls a =>
    obtain ⟨ha, hs⟩ := Option.ite_none_right_eq_some.mp hs
    exact hi.elsewhere ha hs
  | takes g k =>
    obtain ⟨q, hq, rfl⟩ := Option.map_eq_some_iff.mp hs
    cases g with
    | none => exact absurd rfl hfull
    | some g => exact hi.takes hq
  | run => exact hi.runStep hfull hs
  | fails => exact hfull.elim
  | post cqe =>
    obtain ⟨-, hs⟩ := Option.ite_none_right_eq_some.mp hs
    obtain ⟨q, -, rfl⟩ := Option.map_eq_some_iff.mp hs
    exact ⟨hi.phases, hi.job, hi.outside, hi.taken⟩
  | ring a =>
    obtain ⟨ha, hs⟩ := Option.ite_none_right_eq_some.mp hs
    obtain ⟨r, hr, rfl⟩ := Option.map_eq_some_iff.mp hs
    refine hi.ring_step (fun hrun => ?_) hr
    subst hrun
    exact ha.elim

end

/-- A call of `PrepareNop`. -/
def prepareNopActs (g : ι) : List (Act ι) :=
  Act.calls (.call (some g) (.prepare .nop)) :: List.replicate 24 (.calls (.step (some g)))

/-- A goroutine's own `Enter` for one entry. -/
def enterActs (g : ι) : List (Act ι) :=
  Act.calls (.enter (some g) ⟨1, 0, 0⟩) :: List.replicate 5 (.calls (.step (some g)))

/-- A call of `complete` up to where it waits, and the iteration of `Ring.run` that takes its
request, up to the syscall of its `Enter`. -/
def requestActs (g : ι) (id : UInt64) : List (Act ι) :=
  (ring.askActs g id).map Act.ring ++ [Act.ring .takeCompletion] ++ List.replicate 5 .run

/-- The syscall and the rest of the iteration, when `onEntry` reads a single slot without a
match. -/
def submitActs : List (Act ι) := List.replicate 8 .run

end iouring.run_submits
