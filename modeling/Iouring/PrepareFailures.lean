-- What a preparation leaves behind when it fails. `SubmitEntry` moves `Tail` and
-- raises the counter of writes before the buffer is looked at, so a call that
-- panics at `&b[0]` keeps both.
import Iouring.PrepareCalls
import Iouring.SubmitSolo

open counter machine

namespace iouring.prepare_calls

open submit_queue (FieldWrite Slice Reserved Pc next slotOf)

variable {ι : Type}

/-! ## The law -/

/-- The buffer, or the iovecs, of a `Prepare` function of `Ring` or `ringFIO`, or of
`WriteAt` and `ReadAt`. -/
def Operation.slice : Operation → Option Slice
  | .prepare (.read _ b _ _) | .prepare (.write _ b _ _) => some b
  | .prepare (.readFixed _ b _) | .prepare (.writeFixed _ b _) => some b
  | .prepare (.send _ b _) | .prepare (.recv _ b _) => some b
  | .prepare (.readv _ iovecs _) | .prepare (.writev _ iovecs _) => some iovecs
  | .prepare (.fioRead _ b _ _) | .prepare (.fioWrite _ b _ _) => some b
  | .writeAt _ b _ | .readAt _ b _ => some b
  | _ => none

/-- The call of `g` has returned: it has reserved one entry, its closure has committed
that entry, and the counter of writes is back. -/
structure Returned (g : ι) (s s' : State ι) : Prop where
  job : s'.jobs g = .idle
  pc : s'.queue.pc g = .idle
  reserved : s'.queue.hist.tickets = s.queue.hist.tickets + 1
  committed : s'.queue.hist.stored = s.queue.hist.stored ++ [s.queue.hist.tickets]
  writes : s'.queue.mem.writes = s.queue.mem.writes

/-- The goroutine has panicked, at a line of its own or in `completeWrite`. -/
def Panicked (g : ι) (s : State ι) : Prop :=
  s.jobs g = .panicked ∨
    ∃ back num r, s.jobs g = .close back num ∧ s.queue.pc g = .panicked r

/-- The call of `g` has failed, and `Tail` and the counter of writes are as before. -/
structure Failed (g : ι) (s s' : State ι) : Prop where
  panicked : Panicked g s'
  tail : s'.queue.mem.tail = s.queue.mem.tail
  writes : s'.queue.mem.writes = s.queue.mem.writes

variable [DecidableEq ι]

/-- A call that `g` makes while the others stand still comes to an end, and it has
returned with its entry committed, or it has failed and left the queue as it was. -/
def CallRight (z : Size) (s : State ι) (g : ι) (op : Operation) : Prop :=
  ∃ s1 s', step z s (.call g op) = some s1 ∧ Follows (step z) (.step g) s1 s' ∧
    (Returned g s s' ∨ Failed g s s')

/-- A call that has returned or panicked takes no further step. -/
theorem step_of_ended {z : Size} {g : ι} {s : State ι}
    (h : (s.jobs g = .idle ∧ s.queue.pc g = .idle) ∨ Panicked g s) :
    step z s (.step g) = none := by
  simp only [step, stepJob]
  rcases h with ⟨hjob, hpc⟩ | hjob | ⟨back, num, r, hjob, hpc⟩
  · simp [hjob, queueStep, submit_queue.step, submit_queue.stepPc, hpc]
  · simp [hjob]
  · simp [hjob, queueStep, submit_queue.step, submit_queue.stepPc, hpc]

/-- A call is right if the state that it ends in is. -/
theorem callRight_iff {z : Size} {s s1 s' : State ι} {g : ι} {op : Operation}
    (hcall : step z s (.call g op) = some s1) (hsteps : Follows (step z) (.step g) s1 s')
    (hend : step z s' (.step g) = none) :
    CallRight z s g op ↔ Returned g s s' ∨ Failed g s s' := by
  constructor
  · rintro ⟨t1, t, hcall', hsteps', hright⟩
    rw [hcall] at hcall'
    cases hcall'
    have hend' : step z t (.step g) = none := by
      apply step_of_ended
      rcases hright with hret | hfail
      · exact Or.inl ⟨hret.job, hret.pc⟩
      · exact Or.inr hfail.panicked
    rw [hsteps.unique hend hsteps' hend']
    exact hright
  · intro hright
    exact ⟨s1, s', hcall, hsteps, hright⟩

/-! ## The parts of a call -/

/-- What the law reads of the queue is as before. -/
structure Kept (s s' : State ι) : Prop where
  tail : s'.queue.mem.tail = s.queue.mem.tail
  writes : s'.queue.mem.writes = s.queue.mem.writes
  tickets : s'.queue.hist.tickets = s.queue.hist.tickets
  stored : s'.queue.hist.stored = s.queue.hist.stored

omit [DecidableEq ι] in
theorem Kept.trans {s s1 s' : State ι} (h1 : Kept s s1) (h2 : Kept s1 s') : Kept s s' :=
  ⟨h2.tail.trans h1.tail, h2.writes.trans h1.writes, h2.tickets.trans h1.tickets,
    h2.stored.trans h1.stored⟩

variable {z : Size} {s : State ι} {g : ι} {r : Reserved} {back : ReadsBack}
  {num : Option UInt64}

/-- Inside `SubmitEntry` the operation takes the steps of the queue. -/
theorem step_inside {todo : List Fill} {q : submit_queue.State ι}
    (hjob : s.jobs g = .fill back num todo)
    (hq : submit_queue.step z s.queue (.step g) = some q) :
    step z s (.step g) = some { s with queue := q } := by
  simp only [step, stepJob, hjob]
  split
  · next r hpc => simp [submit_queue.step, submit_queue.stepPc, hpc] at hq
  · simp [queueStep, hq]

theorem follows_inside {todo : List Fill} {q : submit_queue.State ι}
    (hjob : s.jobs g = .fill back num todo)
    (h : Follows (submit_queue.step z) (.step g) s.queue q) :
    Follows (step z) (.step g) s { s with queue := q } := by
  apply Relation.ReflTransGen.lift (p := fun s1 s2 => step z s1 (.step g) = some s2)
    (fun q => { s with queue := q }) _ _ _ h
  intro q1 q2 hq
  exact step_inside (s := { s with queue := q1 }) hjob hq

/-- The call of an operation that does not draw its number first. -/
theorem call_eq {op : Operation} {b : Slice} (hb : op.slice = some b) (hjob : s.jobs g = .idle)
    (hpc : s.queue.pc g = .idle) :
    step z s (.call g op) =
      queueStep z (s.goto g (.fill op.readsBack none op.fills)) (.submitEntry g) := by
  have hplain : op.drawsFirst = false ∧ op.fixed = none := by
    cases op <;> simp_all [Operation.slice, Operation.drawsFirst, Operation.fixed]
  simp only [step, hjob, hpc, hplain.1, hplain.2, and_self, if_true, Option.toList_none,
    List.append_nil]
  rfl

/-- `SubmitEntry` up to the entry: `Tail` has moved and the counter is raised. -/
theorem submitEntry_follows {op : Operation} {b : Slice} (hb : op.slice = some b)
    (hjob : s.jobs g = .idle) (hpc : s.queue.pc g = .idle) (he : s.queue.mem.entered = 0) :
    ∃ s1, step z s (.call g op) = some s1 ∧ Follows (step z) (.step g) s1
      { s.goto g (.fill op.readsBack none op.fills) with
        queue := submit_queue.handedOut z s.queue g } := by
  rw [call_eq hb hjob hpc]
  obtain ⟨q1, h1, hrest⟩ := run_cons_inv (submit_queue.submitEntry_solo z hpc he)
  refine ⟨{ s.goto g (.fill op.readsBack none op.fills) with queue := q1 }, ?_, ?_⟩
  · simp only [queueStep, State.goto, h1, Option.map_some]
  · exact follows_inside (s := { s.goto g _ with queue := q1 }) (Function.update_self ..)
      (.of_run hrest)

/-- What a line writes to the entry, for a caller that has its number. -/
def Fill.write (num : Option UInt64) : Fill → Option FieldWrite
  | .set w => some w
  | .setId => num.map .userData
  | .draw | .panic => none

/-- One line that writes to the entry. -/
theorem write_step {w : FieldWrite} {line : Fill} {todo : List Fill}
    (hjob : s.jobs g = .fill back num (line :: todo)) (hpc : s.queue.pc g = .holding r)
    (hw : line.write num = some w) :
    step z s (.step g) = some { s.goto g (.fill back num todo) with
      queue := s.queue.setEntry (slotOf z r.tail)
        (w.apply (s.queue.mem.entries (slotOf z r.tail))) } := by
  cases line with
  | set v =>
    cases hw
    simp [step, stepJob, hjob, hpc, fillStep, queueStep, submit_queue.step, State.goto]
  | setId =>
    obtain ⟨id, rfl, rfl⟩ := Option.map_eq_some_iff.mp hw
    simp [step, stepJob, hjob, hpc, fillStep, queueStep, submit_queue.step, State.goto]
  | draw | panic => cases hw

theorem write_line {w : FieldWrite} {line : Fill} {todo : List Fill}
    (hjob : s.jobs g = .fill back num (line :: todo)) (hpc : s.queue.pc g = .holding r)
    (hw : line.write num = some w) :
    ∃ s', step z s (.step g) = some s' ∧ s'.jobs g = .fill back num todo ∧
      s'.queue.pc g = .holding r ∧ Kept s s' :=
  ⟨_, write_step hjob hpc hw, Function.update_self .., hpc, ⟨rfl, rfl, rfl, rfl⟩⟩

/-- The line that draws a number. -/
theorem draw_line {todo : List Fill} (hjob : s.jobs g = .fill back num (.draw :: todo))
    (hpc : s.queue.pc g = .holding r) :
    ∃ s', step z s (.step g) = some s' ∧ s'.jobs g = .fill back (some (s.idx + 1)) todo ∧
      s'.queue.pc g = .holding r ∧ Kept s s' := by
  refine ⟨s.draw.goto g (.fill back (some (s.idx + 1)) todo), ?_, Function.update_self .., hpc, ?_⟩
  · simp [step, stepJob, hjob, hpc, fillStep]
  · exact ⟨rfl, rfl, rfl, rfl⟩

/-- The lines of a list of writes. -/
theorem lines_follow (ws : List FieldWrite) {rest : List Fill}
    (hjob : s.jobs g = .fill back num (lines ws ++ rest)) (hpc : s.queue.pc g = .holding r) :
    ∃ s' num', Follows (step z) (.step g) s s' ∧ s'.jobs g = .fill back num' rest ∧
      s'.queue.pc g = .holding r ∧ Kept s s' := by
  induction ws generalizing s num with
  | nil => exact ⟨s, num, .refl, hjob, hpc, ⟨rfl, rfl, rfl, rfl⟩⟩
  | cons w ws ih =>
    -- the line that writes, and then the rest
    have hwrite : ∀ {s : State ι} {num : Option UInt64} {line : Fill} {w : FieldWrite},
        s.jobs g = .fill back num (line :: (lines ws ++ rest)) → s.queue.pc g = .holding r →
        line.write num = some w →
        ∃ s' num', Follows (step z) (.step g) s s' ∧ s'.jobs g = .fill back num' rest ∧
          s'.queue.pc g = .holding r ∧ Kept s s' := by
      intro s num line w hjob hpc hline
      obtain ⟨s1, hstep, hjob1, hpc1, hkept1⟩ := write_line hjob hpc hline
      obtain ⟨s', num', hsteps, hjob', hpc', hkept'⟩ := ih hjob1 hpc1
      exact ⟨s', num', .head hstep hsteps, hjob', hpc', hkept1.trans hkept'⟩
    cases w with
    | userData v =>
      obtain ⟨s1, hstep, hjob1, hpc1, hkept1⟩ := draw_line hjob hpc
      obtain ⟨s', num', hsteps, hjob', hpc', hkept'⟩ :=
        hwrite hjob1 hpc1 rfl
      exact ⟨s', num', .head hstep hsteps, hjob', hpc', hkept1.trans hkept'⟩
    | _ => exact hwrite hjob hpc rfl

/-- The line that takes the address of an empty slice. -/
theorem panic_line {todo : List Fill} (hjob : s.jobs g = .fill back num (.panic :: todo))
    (hpc : s.queue.pc g = .holding r) :
    ∃ s', step z s (.step g) = some s' ∧ s'.jobs g = .panicked ∧ Kept s s' := by
  refine ⟨s.goto g .panicked, ?_, Function.update_self .., ⟨rfl, rfl, rfl, rfl⟩⟩
  simp [step, stepJob, hjob, hpc, fillStep]

/-- The call of the closure, for an operation that does not return before it. -/
theorem closure_step (hback : back ≠ .beforeClosure) (hjob : s.jobs g = .fill back num [])
    (hpc : s.queue.pc g = .holding r) :
    step z s (.step g) = some { s.goto g (.close back num) with queue := { s.queue with
      pc := Function.update s.queue.pc g (.loadWrites r)
      hist := { s.queue.hist with filled := s.queue.hist.filled ++ [r.ticket] } } } := by
  cases back with
  | beforeClosure => exact absurd rfl hback
  | never | afterClosure =>
    simp [step, stepJob, hjob, hpc, fillStep, queueStep, submit_queue.step, State.goto]

theorem closure_line (hback : back ≠ .beforeClosure) (hjob : s.jobs g = .fill back num [])
    (hpc : s.queue.pc g = .holding r) :
    ∃ s', step z s (.step g) = some s' ∧ s'.jobs g = .close back num ∧
      s'.queue.pc g = .loadWrites r ∧ Kept s s' :=
  ⟨_, closure_step hback hjob hpc, Function.update_self .., Function.update_self ..,
    ⟨rfl, rfl, rfl, rfl⟩⟩

/-- The functions of `ringFIO` return `UserData` before the closure is called. -/
theorem return_line (hjob : s.jobs g = .fill .beforeClosure num [])
    (hpc : s.queue.pc g = .holding r) :
    ∃ s', step z s (.step g) = some s' ∧ s'.jobs g = .fill .never num [] ∧
      s'.queue.pc g = .holding r ∧ Kept s s' := by
  refine ⟨{ s.goto g (.fill .never num []) with
    returned := s.returned ++ [(num, (s.entry z r).userData)] }, ?_,
    Function.update_self .., hpc, ⟨rfl, rfl, rfl, rfl⟩⟩
  simp [step, stepJob, hjob, hpc, fillStep]

theorem closure_follows (hjob : s.jobs g = .fill back num []) (hpc : s.queue.pc g = .holding r) :
    ∃ s' back', Follows (step z) (.step g) s s' ∧ s'.jobs g = .close back' num ∧
      s'.queue.pc g = .loadWrites r ∧ Kept s s' := by
  by_cases hback : back = .beforeClosure
  · subst hback
    obtain ⟨s1, hstep1, hjob1, hpc1, hkept1⟩ := return_line (z := z) hjob hpc
    obtain ⟨s', hstep, hjob', hpc', hkept⟩ := closure_line (z := z) (by decide) hjob1 hpc1
    exact ⟨s', .never, .head hstep1 (.single hstep), hjob', hpc', hkept1.trans hkept⟩
  · obtain ⟨s', hstep, hjob', hpc', hkept⟩ := closure_line hback hjob hpc
    exact ⟨s', back, .single hstep, hjob', hpc', hkept⟩

/-- `completeWrite` panics when it finds the counter at 0. -/
theorem completeWrite_panics (hjob : s.jobs g = .close back num)
    (hpc : s.queue.pc g = .loadWrites r) (hw : s.queue.mem.writes = 0) :
    ∃ s', step z s (.step g) = some s' ∧ Panicked g s' ∧ Kept s s' := by
  refine ⟨{ s with queue := s.queue.goto g (.panicked r) }, ?_, Or.inr ⟨back, num, r, hjob, ?_⟩,
    ⟨rfl, rfl, rfl, rfl⟩⟩
  · simp [step, stepJob, hjob, hpc, queueStep, submit_queue.step, submit_queue.stepPc, hw]
  · exact Function.update_self ..

/-- Otherwise it lowers the counter. -/
theorem completeWrite_follows (hjob : s.jobs g = .close back num)
    (hpc : s.queue.pc g = .loadWrites r) (hw : s.queue.mem.writes ≠ 0) :
    Follows (step z) (.step g) s { s with queue := { s.queue with
      mem := { s.queue.mem with writes := s.queue.mem.writes - 1 }
      pc := Function.update s.queue.pc g (.storeArray r) } } := by
  have hload : step z s (.step g) =
      some { s with queue := s.queue.goto g (.casWrites r s.queue.mem.writes) } := by
    simp [step, stepJob, hjob, hpc, queueStep, submit_queue.step, submit_queue.stepPc, hw]
  refine .head hload (.single ?_)
  simp [step, stepJob, hjob, queueStep, submit_queue.step, submit_queue.stepPc,
    submit_queue.State.goto]

/-- The read of `UserData` behind the closure. -/
theorem readBack_line (hjob : s.jobs g = .readBack num r) :
    ∃ s', step z s (.step g) = some s' ∧ s'.jobs g = .idle ∧ s'.queue = s.queue := by
  refine ⟨{ s.goto g .idle with
    returned := s.returned ++ [(num, (s.entry z r).userData)] }, ?_, Function.update_self .., rfl⟩
  simp [step, stepJob, hjob]

/-- The last line of the closure: the entry is committed. -/
theorem store_step (hjob : s.jobs g = .close back num) (hpc : s.queue.pc g = .storeArray r) :
    step z s (.step g) = some
      { s.goto g (if back = .afterClosure then .readBack num r else .idle) with
        out := s.out ++ [(s.entry z r).userData]
        queue := submit_queue.storeArray z s.queue g r } := by
  simp [step, stepJob, hjob, hpc, store, queueStep, submit_queue.step, submit_queue.stepPc,
    State.goto]

/-- The end of the call. -/
theorem store_follows (hjob : s.jobs g = .close back num) (hpc : s.queue.pc g = .storeArray r) :
    ∃ s', Follows (step z) (.step g) s s' ∧ s'.jobs g = .idle ∧ s'.queue.pc g = .idle ∧
      s'.queue.hist.tickets = s.queue.hist.tickets ∧
      s'.queue.hist.stored = s.queue.hist.stored ++ [r.ticket] ∧
      s'.queue.mem.writes = s.queue.mem.writes := by
  have hstore := store_step (z := z) hjob hpc
  by_cases hback : back = .afterClosure
  · rw [if_pos hback] at hstore
    obtain ⟨s', hread, hjob', hqueue⟩ := readBack_line (z := z)
      (s := { s.goto g (.readBack num r) with
        out := s.out ++ [(s.entry z r).userData]
        queue := submit_queue.storeArray z s.queue g r }) (Function.update_self ..)
    refine ⟨s', .head hstore (.single hread), hjob', ?_⟩
    rw [hqueue]
    exact ⟨Function.update_self .., rfl, rfl, rfl⟩
  · rw [if_neg hback] at hstore
    exact ⟨_, .single hstore, Function.update_self .., Function.update_self .., rfl, rfl, rfl⟩

/-! ## The ends of a call -/

/-- With an element in the slice no line panics, without one the last line does. -/
theorem fills_of_slice {op : Operation} {b : Slice} (hb : op.slice = some b) :
    ∃ ws, op.fills = if 0 < b.len then lines ws else lines ws ++ [.panic] := by
  have hlines : ∀ {f : UInt64 → List FieldWrite} {before : List FieldWrite},
      ∃ ws, linesOr (b.first.map f) before =
        if 0 < b.len then lines ws else lines ws ++ [.panic] := by
    intro f before
    unfold Slice.first
    by_cases hlen : 0 < b.len
    · exact ⟨f b.data, by simp [hlen, linesOr]⟩
    · exact ⟨before, by simp [hlen, linesOr]⟩
  cases op with
  | prepare c => cases c <;> cases hb <;> exact hlines
  | writeAt fd b' o | readAt fd b' o =>
    cases hb
    exact hlines
  | _ => cases hb

/-- While the ring is entered, `SubmitEntry` goes round and round. -/
def Circling (g : ι) (s : State ι) : Prop :=
  s.queue.mem.entered ≠ 0 ∧ (∃ back num todo, s.jobs g = .fill back num todo) ∧
    (s.queue.pc g = .loadTail ∨ (∃ tail, s.queue.pc g = .loadHead tail) ∨
      (∃ tail head, s.queue.pc g = .casTail tail head) ∨ ∃ r, s.queue.pc g = .loadEntered r)

theorem circling_step {s' : State ι} (h : Circling g s) (hstep : step z s (.step g) = some s') :
    Circling g s' := by
  obtain ⟨he, ⟨back, num, todo, hjob⟩, hpc⟩ := h
  -- the steps of the queue, which leave the job and the flag
  have hqueue : ∀ q, submit_queue.step z s.queue (.step g) = some q →
      q.mem.entered = s.queue.mem.entered →
      (q.pc g = .loadTail ∨ (∃ tail, q.pc g = .loadHead tail) ∨
        (∃ tail head, q.pc g = .casTail tail head) ∨ ∃ r, q.pc g = .loadEntered r) →
      Circling g s' := by
    intro q hq hentered hpcs
    rw [step_inside hjob hq] at hstep
    cases hstep
    exact ⟨by rwa [hentered], ⟨back, num, todo, hjob⟩, hpcs⟩
  rcases hpc with hpc | ⟨tail, hpc⟩ | ⟨tail, head, hpc⟩ | ⟨r, hpc⟩
  · refine hqueue (s.queue.goto g (.loadHead s.queue.mem.tail)) ?_ rfl ?_
    · simp [submit_queue.step, submit_queue.stepPc, hpc]
    · simp [submit_queue.State.goto]
  · refine hqueue (s.queue.goto g (.casTail tail s.queue.mem.head)) ?_ rfl ?_
    · simp [submit_queue.step, submit_queue.stepPc, hpc, submit_queue.next_le]
    · simp [submit_queue.State.goto]
  · refine hqueue (submit_queue.casTail z s.queue g tail head) ?_ ?_ ?_
    · simp [submit_queue.step, submit_queue.stepPc, hpc]
    · unfold submit_queue.casTail
      split_ifs <;> rfl
    · unfold submit_queue.casTail
      split_ifs <;> simp [submit_queue.State.goto]
  · refine hqueue (s.queue.goto g .loadTail) ?_ rfl ?_
    · simp [submit_queue.step, submit_queue.stepPc, hpc, he]
    · simp [submit_queue.State.goto]

/-- While the ring is entered, no call comes to an end. -/
theorem not_callRight_of_entered {op : Operation} {b : Slice} (hb : op.slice = some b)
    (hjob : s.jobs g = .idle) (hpc : s.queue.pc g = .idle) (he : s.queue.mem.entered ≠ 0) :
    ¬ CallRight z s g op := by
  rintro ⟨s1, s', hcall, hsteps, hright⟩
  rw [call_eq hb hjob hpc] at hcall
  simp only [queueStep, State.goto, submit_queue.step, hpc, Option.map_some,
    Option.some.injEq] at hcall
  have hstart : Circling g s1 := by
    subst hcall
    exact ⟨he, ⟨_, _, _, Function.update_self ..⟩, Or.inl (Function.update_self ..)⟩
  obtain ⟨-, ⟨back, num, todo, hfill⟩, -⟩ :=
    hsteps.invariant (fun _ _ => circling_step) hstart
  rcases hright with hret | hfail
  · rw [hret.job] at hfill
    cases hfill
  · rcases hfail.panicked with hend | ⟨_, _, _, hend, -⟩
    · rw [hend] at hfill
      cases hfill
    · rw [hend] at hfill
      cases hfill

/-- A call with an empty slice panics with the counter raised. -/
theorem not_callRight_of_empty {op : Operation} {b : Slice} (hb : op.slice = some b)
    (hjob : s.jobs g = .idle) (hpc : s.queue.pc g = .idle) (he : s.queue.mem.entered = 0)
    (hlen : ¬ 0 < b.len) : ¬ CallRight z s g op := by
  obtain ⟨s1, hcall, hsubmit⟩ := submitEntry_follows (z := z) hb hjob hpc he
  obtain ⟨ws, hfills⟩ := fills_of_slice hb
  rw [if_neg hlen] at hfills
  rw [hfills] at hsubmit
  obtain ⟨s2, num, hlines, hjob2, hpc2, hkept2⟩ := lines_follow (z := z) ws
    (s := { s.goto g (.fill op.readsBack none (lines ws ++ [.panic])) with
      queue := submit_queue.handedOut z s.queue g })
    (Function.update_self ..) (Function.update_self ..)
  obtain ⟨s', hpanic, hjob', hkept'⟩ := panic_line (z := z) hjob2 hpc2
  have hkept := hkept2.trans hkept'
  have hend : step z s' (.step g) = none := step_of_ended (Or.inr (Or.inl hjob'))
  rw [callRight_iff hcall ((hsubmit.trans hlines).tail hpanic) hend]
  rintro (hret | hfail)
  · rw [hret.job] at hjob'
    cases hjob'
  · have hwrites := hkept.writes
    rw [hfail.writes] at hwrites
    have hone : (1 : UInt32) = 0 := UInt32.add_eq_left.mp hwrites.symm
    cases hone

/-- A call with an element in its slice gets to the closure with `Tail` moved once and
the counter raised by one. -/
theorem closure_reached {op : Operation} {b : Slice} (hb : op.slice = some b)
    (hjob : s.jobs g = .idle) (hpc : s.queue.pc g = .idle) (he : s.queue.mem.entered = 0)
    (hlen : 0 < b.len) :
    ∃ s1 s' back num r, step z s (.call g op) = some s1 ∧
      Follows (step z) (.step g) s1 s' ∧ s'.jobs g = .close back num ∧
      s'.queue.pc g = .loadWrites r ∧ r.ticket = s.queue.hist.tickets ∧
      s'.queue.mem.writes = s.queue.mem.writes + 1 ∧
      s'.queue.hist.tickets = s.queue.hist.tickets + 1 ∧
      s'.queue.hist.stored = s.queue.hist.stored := by
  obtain ⟨s1, hcall, hsubmit⟩ := submitEntry_follows (z := z) hb hjob hpc he
  obtain ⟨ws, hfills⟩ := fills_of_slice hb
  rw [if_pos hlen, ← List.append_nil (lines ws)] at hfills
  rw [hfills] at hsubmit
  obtain ⟨s2, num, hlines, hjob2, hpc2, hkept2⟩ := lines_follow (z := z) ws
    (s := { s.goto g (.fill op.readsBack none (lines ws ++ [])) with
      queue := submit_queue.handedOut z s.queue g })
    (Function.update_self ..) (Function.update_self ..)
  obtain ⟨s', back, hclosure, hjob', hpc', hkept'⟩ := closure_follows (z := z) hjob2 hpc2
  have hkept := hkept2.trans hkept'
  exact ⟨s1, s', back, num, _, hcall, (hsubmit.trans hlines).trans hclosure, hjob', hpc', rfl,
    hkept.writes, hkept.tickets, hkept.stored⟩

theorem callRight_iff_of_pos {op : Operation} {b : Slice} (hb : op.slice = some b)
    (hjob : s.jobs g = .idle) (hpc : s.queue.pc g = .idle) (he : s.queue.mem.entered = 0)
    (hlen : 0 < b.len) : CallRight z s g op ↔ s.queue.mem.writes + 1 ≠ 0 := by
  obtain ⟨s1, s2, back, num, r, hcall, hsteps, hjob2, hpc2, hticket, hwrites, htickets, hstored⟩ :=
    closure_reached (z := z) hb hjob hpc he hlen
  by_cases hover : s.queue.mem.writes + 1 = 0
  · -- the counter has run over, and `completeWrite` panics
    obtain ⟨s', hpanic, hend, hkept⟩ :=
      completeWrite_panics (z := z) hjob2 hpc2 (hwrites.trans hover)
    rw [callRight_iff hcall (hsteps.tail hpanic) (step_of_ended (Or.inr hend))]
    refine ⟨?_, fun hne => absurd hover hne⟩
    rintro (hret | hfail)
    · rcases hend with hjob' | ⟨_, _, _, hjob', -⟩
      · rw [hret.job] at hjob'
        cases hjob'
      · rw [hret.job] at hjob'
        cases hjob'
    · have hsame := hfail.writes
      rw [hkept.writes, hwrites] at hsame
      have hone : (1 : UInt32) = 0 := UInt32.add_eq_left.mp hsame
      cases hone
  · have hne : s2.queue.mem.writes ≠ 0 := by rwa [hwrites]
    obtain ⟨s', hstore, hjob', hpc', htickets', hstored', hwrites'⟩ := store_follows (z := z)
      (s := { s2 with queue := { s2.queue with
        mem := { s2.queue.mem with writes := s2.queue.mem.writes - 1 }
        pc := Function.update s2.queue.pc g (.storeArray r) } }) hjob2 (Function.update_self ..)
    have hfollows := (hsteps.trans (completeWrite_follows hjob2 hpc2 hne)).trans hstore
    refine ⟨fun _ => hover, fun _ => ⟨s1, s', hcall, hfollows, Or.inl ?_⟩⟩
    refine ⟨hjob', hpc', htickets'.trans htickets, ?_, ?_⟩
    · rw [hstored', ← hticket, ← hstored]
    · rw [hwrites']
      dsimp only
      rw [hwrites]
      exact UInt32.add_sub_cancel ..

/-- For every slice, in every state of the ring: a call of `PrepareRead`, `PrepareWrite`,
`PrepareReadFixed`, `PrepareWriteFixed`, `PrepareSend`, `PrepareRecv`, `PrepareReadv`,
`PrepareWritev` of `Ring` or of a function of `ringFIO`, made while the other goroutines
stand still, returns with one entry reserved and committed, or fails with `Tail` and the
counter of writes as before, exactly if
- the slice is not empty;
- no enter is under way, or `SubmitEntry` never returns;
- the counter of writes does not run over. -/
theorem a_failed_preparation_leaves_the_queue_iff (z : Size) (s : State ι) (g : ι)
    (op : Operation) (b : Slice) (hb : op.slice = some b) (hjob : s.jobs g = .idle)
    (hpc : s.queue.pc g = .idle) :
    CallRight z s g op ↔
      0 < b.len ∧ s.queue.mem.entered = 0 ∧ s.queue.mem.writes + 1 ≠ 0 := by
  by_cases he : s.queue.mem.entered = 0
  · by_cases hlen : 0 < b.len
    · rw [callRight_iff_of_pos hb hjob hpc he hlen]
      exact ⟨fun h => ⟨hlen, he, h⟩, fun h => h.2.2⟩
    · exact ⟨fun h => absurd h (not_callRight_of_empty hb hjob hpc he hlen),
        fun h => absurd h.1 hlen⟩
  · exact ⟨fun h => absurd h (not_callRight_of_entered hb hjob hpc he), fun h => absurd h.2.1 he⟩

/-- A read of eight bytes on a new ring of two. -/
theorem a_read_is_prepared :
    CallRight ⟨1, by decide⟩ (init (Fin 1) 0) 0 (.prepare (.read 3 ⟨4096, 8⟩ 0 0)) :=
  (a_failed_preparation_leaves_the_queue_iff _ _ 0 _ ⟨4096, 8⟩ rfl rfl rfl).mpr
    ⟨by decide, rfl, by decide⟩

/-- A read into an empty buffer there: after the call and 23 steps it has panicked, with
`Tail` at 1 and a write counted that nobody will complete. -/
theorem an_empty_read_leaves_its_entry :
    ((run (step ⟨1, by decide⟩) (init (Fin 1) 0)
        (.call 0 (.prepare (.read 3 ⟨4096, 0⟩ 0 0)) :: List.replicate 23 (.step 0))).map fun s =>
      (s.jobs 0, s.queue.mem.tail, s.queue.mem.writes, s.queue.hist.stored)) =
      some (.panicked, 1, 1, []) := by
  decide

end iouring.prepare_calls
