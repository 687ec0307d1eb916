-- What one step of an operation can do, said once: which line of the operation it
-- is, what the submission queue does for it, and what it leaves alone.
import Iouring.PrepareCalls

open counter machine

namespace iouring.prepare_calls

open submit_queue (FieldWrite Reserved Pc slotOf)

variable {ι : Type}

/-! ## Where a goroutine stands -/

/-- Outside of the entries, between the start of `SubmitEntry` and the closure, or in it. -/
inductive Phase where
  | outside
  | filling
  | closing
  deriving DecidableEq, Repr

def phase : Pc → Phase
  | .idle | .needWakeup _ | .lockWrites _ | .lockEntered _ | .lockCas _ | .syscall _
  | .unlock _ _ => .outside
  | .loadTail | .loadHead _ | .casTail _ _ | .restart _ | .loadEntered _ | .addWrites _
  | .reset _ _ | .holding _ => .filling
  | .loadWrites _ | .casWrites _ _ | .storeArray _ | .panicked _ => .closing

def Job.phase : Job → Phase
  | .idle | .drawFirst _ | .readBack _ _ => .outside
  | .fill _ _ _ | .panicked => .filling
  | .close _ _ => .closing

/-- The reservation of a goroutine that has not returned from its operation. -/
def State.held (s : State ι) (g : ι) : Option Reserved :=
  match s.jobs g with
  | .readBack _ r => some r
  | _ => (s.queue.pc g).reserved

/-- What an act of the queue does for a goroutine whose operation has a line of its own
for it. The other acts leave the operations as they are. -/
def ownLine (q : submit_queue.State ι) : submit_queue.Act ι → Bool
  | .submitEntry _ | .write _ _ | .commit _ => true
  | .step g => (q.pc g matches .storeArray _)
  | _ => false

theorem reserved_of_outside {p : Pc} (h : phase p = .outside) : p.reserved = none := by
  cases p <;> first | rfl | cases h

variable [DecidableEq ι]

/-- A step of the queue moves a goroutine to another phase only where its operation
moves on too. -/
theorem phase_move {z : Size} {q q' : submit_queue.State ι} {b : submit_queue.Act ι}
    (hm : submit_queue.Move z q b q') (hb : ownLine q b = false) (g : ι) :
    phase (q'.pc g) = phase (q.pc g) := by
  cases hm with
  | submitEntry h => cases hb
  | write w h => cases hb
  | commit h => cases hb
  | storeArray h => simp [ownLine, h] at hb
  | setFlags v => rfl
  | syscall h =>
    rw [submit_queue.goto_pc, submit_queue.consume_pc]
    exact update_same (by rw [h]; rfl) g
  | _ =>
    rename_i h
    exact update_same (by simp [*, phase]) g

/-! ## The steps -/

/-- The goroutine that an act belongs to. -/
def Act.caller : Act ι → Option ι
  | .call g _ | .enter g _ | .step g | .fail g => some g
  | .setFlags _ | .consumed _ => none

/-- One step, case by case: what the operation does, and what the queue does for it. -/
inductive Move (z : Size) (s : State ι) : Act ι → State ι → Prop
  | plan {g : ι} {op : Operation} (hjob : s.jobs g = .idle) (hop : op.drawsFirst = true) :
      Move z s (.call g op) (s.goto g (.drawFirst op))
  | submit {g : ι} {op : Operation} {q : submit_queue.State ι} (hjob : s.jobs g = .idle)
      (hop : op.drawsFirst = false) (hq : submit_queue.step z s.queue (.submitEntry g) = some q) :
      Move z s (.call g op) { s.goto g (.fill op.readsBack op.fixed op.fills) with
        queue := q
        listens := s.listens ++ op.fixed.toList }
  | drawFirst {g : ι} {op : Operation} {q : submit_queue.State ι} (hjob : s.jobs g = .drawFirst op)
      (hq : submit_queue.step z s.queue (.submitEntry g) = some q) :
      Move z s (.step g) { s.draw.goto g (.fill op.readsBack (some (s.idx + 1)) op.fills) with
        queue := q }
  | queue {a : Act ι} {b : submit_queue.Act ι} {q : submit_queue.State ι}
      (hb : ownLine s.queue b = false)
      (hcaller : b.caller = a.caller) (hstep : ∀ g, b = .step g → a = .step g)
      (hq : submit_queue.step z s.queue b = some q) : Move z s a { s with queue := q }
  | draw {g : ι} {r : Reserved} {back : ReadsBack} {num : Option UInt64} {todo : List Fill}
      (hjob : s.jobs g = .fill back num (.draw :: todo)) (hpc : s.queue.pc g = .holding r) :
      Move z s (.step g) (s.draw.goto g (.fill back (some (s.idx + 1)) todo))
  | write {g : ι} {r : Reserved} {back : ReadsBack} {num : Option UInt64} {t : Fill}
      {todo : List Fill} {w : FieldWrite} {q : submit_queue.State ι}
      (hjob : s.jobs g = .fill back num (t :: todo)) (hpc : s.queue.pc g = .holding r)
      (ht : t = .set w ∨ t = .setId ∧ ∃ id, num = some id ∧ w = .userData id)
      (hq : submit_queue.step z s.queue (.write g w) = some q) :
      Move z s (.step g) { s.goto g (.fill back num todo) with queue := q }
  | returnEarly {g : ι} {r : Reserved} {num : Option UInt64}
      (hjob : s.jobs g = .fill .beforeClosure num []) (hpc : s.queue.pc g = .holding r) :
      Move z s (.step g) { s.goto g (.fill .never num []) with
        returned := s.returned ++ [(num, (s.entry z r).userData)] }
  | commit {g : ι} {r : Reserved} {back : ReadsBack} {num : Option UInt64}
      {q : submit_queue.State ι} (hjob : s.jobs g = .fill back num [])
      (hpc : s.queue.pc g = .holding r)
      (hq : submit_queue.step z s.queue (.commit g) = some q) :
      Move z s (.step g) { s.goto g (.close back num) with queue := q }
  | panic {g : ι} {r : Reserved} {back : ReadsBack} {num : Option UInt64} {todo : List Fill}
      (hjob : s.jobs g = .fill back num (.panic :: todo)) (hpc : s.queue.pc g = .holding r) :
      Move z s (.step g) (s.goto g .panicked)
  | store {g : ι} {r : Reserved} {back : ReadsBack} {num : Option UInt64} {job : Job}
      {q : submit_queue.State ι} (hjob : s.jobs g = .close back num)
      (hpc : s.queue.pc g = .storeArray r) (hnext : job = .readBack num r ∨ job = .idle)
      (hq : submit_queue.step z s.queue (.step g) = some q) :
      Move z s (.step g) { s.goto g job with
        queue := q
        out := s.out ++ [(s.entry z r).userData] }
  | readBack {g : ι} {num : Option UInt64} {r : Reserved} (hjob : s.jobs g = .readBack num r) :
      Move z s (.step g) { s.goto g .idle with
        returned := s.returned ++ [(num, (s.entry z r).userData)] }
  | consumed {id : UInt64} (hid : id ∈ s.out) :
      Move z s (.consumed id) { s with out := s.out.erase id, listens := s.listens.erase id }

theorem queueStep_eq_some {z : Size} {s s' : State ι} {b : submit_queue.Act ι}
    (h : queueStep z s b = some s') :
    ∃ q, submit_queue.step z s.queue b = some q ∧ s' = { s with queue := q } := by
  obtain ⟨q, hq, rfl⟩ := Option.map_eq_some_iff.mp h
  exact ⟨q, hq, rfl⟩

theorem fillStep_move {z : Size} {s s' : State ι} {g : ι} {r : Reserved} {back : ReadsBack}
    {num : Option UInt64} {todo : List Fill} (hjob : s.jobs g = .fill back num todo)
    (hpc : s.queue.pc g = .holding r) (h : fillStep z s g r back num todo = some s') :
    Move z s (.step g) s' := by
  cases todo with
  | nil =>
    cases back with
    | beforeClosure => cases h; exact .returnEarly hjob hpc
    | never | afterClosure =>
      obtain ⟨q, hq, rfl⟩ := queueStep_eq_some h
      exact .commit hjob hpc hq
  | cons t todo =>
    cases t with
    | draw => cases h; exact .draw hjob hpc
    | panic => cases h; exact .panic hjob hpc
    | set w =>
      obtain ⟨q, hq, rfl⟩ := queueStep_eq_some h
      exact .write hjob hpc (Or.inl rfl) hq
    | setId =>
      cases num with
      | none => cases h
      | some id =>
        obtain ⟨q, hq, rfl⟩ := queueStep_eq_some h
        exact .write hjob hpc (Or.inr ⟨rfl, id, rfl, rfl⟩) hq

/-- A step of the queue for a goroutine that is not at the end of the closure. -/
theorem queue_move {z : Size} {s s' : State ι} {g : ι} (hpc : ∀ r, s.queue.pc g ≠ .storeArray r)
    (h : queueStep z s (.step g) = some s') : Move z s (.step g) s' := by
  obtain ⟨q, hq, rfl⟩ := queueStep_eq_some h
  refine .queue ?_ rfl (fun g' hg' => by cases hg'; rfl) hq
  cases hg : s.queue.pc g with
  | storeArray r => exact absurd hg (hpc r)
  | _ => simp [ownLine, hg]

/-- An act of the queue that is no step of a goroutine. -/
theorem other_queue_move {z : Size} {s s' : State ι} {a : Act ι} {b : submit_queue.Act ι}
    (hb : ownLine s.queue b = false) (hcaller : b.caller = a.caller) (hstep : ∀ g, b ≠ .step g)
    (h : queueStep z s b = some s') : Move z s a s' := by
  obtain ⟨q, hq, rfl⟩ := queueStep_eq_some h
  exact .queue hb hcaller (fun g hg => absurd hg (hstep g)) hq

/-- Operation and queue agree on the phase of each goroutine. -/
def InPhase (s : State ι) : Prop := ∀ g, (s.jobs g).phase = phase (s.queue.pc g)

theorem stepJob_move {z : Size} {s s' : State ι} {g : ι} (hp : InPhase s)
    (h : stepJob z s g = some s') : Move z s (.step g) s' := by
  have hpg := hp g
  unfold stepJob at h
  cases hjob : s.jobs g with
  | idle =>
    simp only [hjob] at h
    rw [hjob] at hpg
    refine queue_move (fun r hr => ?_) h
    rw [hr] at hpg
    cases hpg
  | drawFirst op =>
    simp only [hjob] at h
    obtain ⟨q, hq, rfl⟩ := queueStep_eq_some h
    exact .drawFirst hjob hq
  | fill back num todo =>
    simp only [hjob] at h
    cases hpc : s.queue.pc g with
    | holding r =>
      simp only [hpc] at h
      exact fillStep_move hjob hpc h
    | storeArray r =>
      rw [hjob, hpc] at hpg
      cases hpg
    | _ =>
      simp only [hpc] at h
      exact queue_move (fun r hr => by rw [hpc] at hr; cases hr) h
  | close back num =>
    simp only [hjob] at h
    cases hpc : s.queue.pc g with
    | storeArray r =>
      simp only [hpc] at h
      obtain ⟨q, hq, rfl⟩ := queueStep_eq_some h
      refine .store hjob hpc ?_ hq
      by_cases hback : back = .afterClosure
      · exact Or.inl (if_pos hback)
      · exact Or.inr (if_neg hback)
    | _ =>
      simp only [hpc] at h
      exact queue_move (fun r hr => by rw [hpc] at hr; cases hr) h
  | readBack num r =>
    simp only [hjob] at h
    cases h
    exact .readBack hjob
  | panicked => simp [hjob] at h

theorem step_move {z : Size} {s s' : State ι} {a : Act ι} (hp : InPhase s)
    (h : step z s a = some s') : Move z s a s' := by
  cases a with
  | call g op =>
    simp only [step, Option.ite_none_right_eq_some] at h
    obtain ⟨⟨hjob, -⟩, h⟩ := h
    cases hop : op.drawsFirst with
    | true =>
      simp only [hop, if_true] at h
      cases h
      exact .plan hjob hop
    | false =>
      simp only [hop, Bool.false_eq_true, if_false] at h
      obtain ⟨q, hq, rfl⟩ := queueStep_eq_some h
      exact .submit hjob hop hq
  | enter g c =>
    simp only [step, Option.ite_none_right_eq_some] at h
    exact other_queue_move rfl rfl (fun _ hg => by cases hg) h.2
  | step g => exact stepJob_move hp h
  | fail g => exact other_queue_move rfl rfl (fun _ hg => by cases hg) h
  | setFlags v => exact other_queue_move rfl rfl (fun _ hg => by cases hg) h
  | consumed id =>
    simp only [step, Option.ite_none_right_eq_some, Option.some.injEq] at h
    obtain ⟨⟨hid, -⟩, rfl⟩ := h
    exact .consumed hid

/-! ## What a step leaves alone -/

/-- A step of somebody else leaves the goroutine where it is. -/
theorem other_goroutine {z : Size} {s s' : State ι} {a : Act ι} {g : ι} (hm : Move z s a s')
    (ha : a.caller ≠ some g) : s'.jobs g = s.jobs g ∧ s'.queue.pc g = s.queue.pc g := by
  have hother : ∀ {g' : ι}, some g' ≠ some g → g ≠ g' := fun h he => h (congrArg some he.symm)
  have hqueue : ∀ {b : submit_queue.Act ι} {q : submit_queue.State ι},
      submit_queue.step z s.queue b = some q → b.caller ≠ some g → q.pc g = s.queue.pc g :=
    fun hq hb => submit_queue.other_pc (submit_queue.step_move hq) hb
  cases hm with
  | plan | draw | returnEarly | panic | readBack =>
    exact ⟨Function.update_of_ne (hother ha) _ _, rfl⟩
  | submit hjob hop hq | drawFirst hjob hq | write hjob hpc ht hq | commit hjob hpc hq
  | store hjob hpc hnext hq =>
    exact ⟨Function.update_of_ne (hother ha) _ _, hqueue hq ha⟩
  | queue hb hcaller hstep hq => exact ⟨rfl, hqueue hq (by rw [hcaller]; exact ha)⟩
  | consumed hid => exact ⟨rfl, rfl⟩

omit [DecidableEq ι] in
theorem held_congr {s s' : State ι} {g : ι} (hjob : s'.jobs g = s.jobs g)
    (hpc : s'.queue.pc g = s.queue.pc g) : s'.held g = s.held g := by
  unfold State.held
  rw [hjob, hpc]

omit [DecidableEq ι] in
/-- Inside of the entries, a goroutine holds the reservation that the queue gives it. -/
theorem held_of_phase {s : State ι} {g : ι} (hp : InPhase s)
    (hphase : phase (s.queue.pc g) ≠ .outside) : s.held g = (s.queue.pc g).reserved := by
  have hg := hp g
  unfold State.held
  cases hjob : s.jobs g with
  | readBack num r =>
    rw [hjob] at hg
    exact absurd hg.symm hphase
  | _ => rfl

/-- A step writes to no entry but that of the reservation of its goroutine. -/
theorem entries_move {z : Size} {s s' : State ι} {a : Act ι} {slot : Nat} (hp : InPhase s)
    (hm : Move z s a s')
    (hslot : ∀ g r, a.caller = some g → s.held g = some r → slotOf z r.tail ≠ slot) :
    s'.queue.mem.entries slot = s.queue.mem.entries slot := by
  have hqueue : ∀ {b : submit_queue.Act ι} {q : submit_queue.State ι},
      b.caller = a.caller → submit_queue.step z s.queue b = some q →
        q.mem.entries slot = s.queue.mem.entries slot := by
    intro b q hcaller hq
    refine submit_queue.other_entry (submit_queue.step_move hq) fun hw => ?_
    cases b with
    | write g w =>
      cases hpc : s.queue.pc g with
      | holding r =>
        have hheld : s.held g = some r := by
          rw [held_of_phase hp (by simp [hpc, phase]), hpc]; rfl
        simp only [submit_queue.writesTo, hpc, Option.some.injEq] at hw
        exact hslot g r hcaller.symm hheld hw
      | _ => simp [submit_queue.writesTo, hpc] at hw
    | step g =>
      cases hpc : s.queue.pc g with
      | reset r todo =>
        have hheld : s.held g = some r := by
          rw [held_of_phase hp (by simp [hpc, phase]), hpc]; rfl
        cases todo with
        | nil => simp [submit_queue.writesTo, hpc] at hw
        | cons w todo =>
          simp only [submit_queue.writesTo, hpc, Option.some.injEq] at hw
          exact hslot g r hcaller.symm hheld hw
      | _ => simp [submit_queue.writesTo, hpc] at hw
    | _ => simp [submit_queue.writesTo] at hw
  cases hm with
  | plan | draw | returnEarly | panic | readBack | consumed => rfl
  | submit hjob hop hq | drawFirst hjob hq | write hjob hpc ht hq | commit hjob hpc hq
  | store hjob hpc hnext hq => exact hqueue rfl hq
  | queue hb hcaller hstep hq => exact hqueue hcaller hq

/-! ## What the queue does for an operation -/

theorem submitEntry_eq {z : Size} {q q' : submit_queue.State ι} {g : ι}
    (h : submit_queue.step z q (.submitEntry g) = some q') :
    q.pc g = .idle ∧ q'.pc g = .loadTail ∧ q'.hist.tickets = q.hist.tickets := by
  cases submit_queue.step_move h with
  | submitEntry hidle => exact ⟨hidle, Function.update_self .., rfl⟩

theorem write_eq {z : Size} {q q' : submit_queue.State ι} {g : ι} {r : Reserved} {w : FieldWrite}
    (hpc : q.pc g = .holding r) (h : submit_queue.step z q (.write g w) = some q') :
    q' = q.setEntry (slotOf z r.tail) (w.apply (q.mem.entries (slotOf z r.tail))) := by
  simp only [submit_queue.step, hpc, Option.some.injEq] at h
  exact h.symm

theorem commit_eq {z : Size} {q q' : submit_queue.State ι} {g : ι} {r : Reserved}
    (hpc : q.pc g = .holding r) (h : submit_queue.step z q (.commit g) = some q') :
    q'.pc g = .loadWrites r ∧ q'.mem = q.mem ∧ q'.hist.tickets = q.hist.tickets := by
  simp only [submit_queue.step, hpc, Option.some.injEq] at h
  subst h
  exact ⟨Function.update_self .., rfl, rfl⟩

theorem store_eq {z : Size} {q q' : submit_queue.State ι} {g : ι} {r : Reserved}
    (hpc : q.pc g = .storeArray r) (h : submit_queue.step z q (.step g) = some q') :
    q'.pc g = .idle ∧ q'.mem.entries = q.mem.entries ∧ q'.hist.tickets = q.hist.tickets := by
  simp only [submit_queue.step, submit_queue.stepPc, hpc, Option.some.injEq] at h
  subst h
  exact ⟨Function.update_self .., rfl, rfl⟩

theorem inPhase_move {z : Size} {s s' : State ι} {a : Act ι} (hp : InPhase s)
    (hm : Move z s a s') : InPhase s' := by
  intro g
  by_cases hg : a.caller = some g
  · -- the goroutine that takes the step
    cases hm with
    | plan hjob hop =>
      cases hg
      have hold := hp g
      rw [hjob] at hold
      simpa [State.goto, Job.phase] using hold
    | submit hjob hop hq | drawFirst hjob hq =>
      cases hg
      simp [State.goto, Job.phase, (submitEntry_eq hq).2.1, phase]
    | queue hb hcaller hstep hq =>
      rw [phase_move (submit_queue.step_move hq) hb]
      exact hp g
    | draw hjob hpc | returnEarly hjob hpc | panic hjob hpc =>
      cases hg
      simp [State.goto, State.draw, Job.phase, hpc, phase]
    | write hjob hpc ht hq =>
      cases hg
      rw [write_eq hpc hq]
      simp [State.goto, Job.phase, hpc, phase]
    | commit hjob hpc hq =>
      cases hg
      simp [State.goto, Job.phase, (commit_eq hpc hq).1, phase]
    | store hjob hpc hnext hq =>
      cases hg
      rcases hnext with rfl | rfl <;>
        simp [State.goto, Job.phase, (store_eq hpc hq).1, phase]
    | readBack hjob =>
      cases hg
      have hold := hp g
      rw [hjob] at hold
      simpa [State.goto, Job.phase] using hold
    | consumed hid => cases hg
  · obtain ⟨hjob, hpc⟩ := other_goroutine hm hg
    rw [hjob, hpc]
    exact hp g

end iouring.prepare_calls
