-- Which value a `Prepare` function returns. It is read from the slot after the
-- closure has run, when the slot belongs to nobody: the laws here say that it is
-- the number of the call as long as no reservation comes round to the slot of a
-- call that has not returned.
import Iouring.EnterExclusion
import Iouring.PrepareSteps

open counter machine

namespace iouring.prepare_calls

open submit_queue (FieldWrite SubmitEntry Prepare Reserved slotOf TicketInv Reserves)

variable {ι : Type}

variable [DecidableEq ι]

/-! ## The slots of the calls -/

/-- A CAS on `Tail` comes round to no slot of a call that has not returned. -/
def KeepsSlots (z : Size) (s : State ι) (a : Act ι) : Prop :=
  ∀ g, a = .step g → Reserves s.queue (.step g) →
    ∀ g', ∀ r ∈ s.held g', s.queue.hist.tickets < r.ticket + z.slots

/-- The reservations of the calls that have not returned: no two have a ticket in common,
and all are at most a lap old. -/
structure SlotInv (z : Size) (s : State ι) : Prop where
  tickets : TicketInv z s.queue
  phases : InPhase s
  slot : ∀ g r, s.held g = some r → slotOf z r.tail = r.ticket % z.slots
  lap : ∀ g r, s.held g = some r →
    r.ticket < s.queue.hist.tickets ∧ s.queue.hist.tickets ≤ r.ticket + z.slots
  inj : ∀ g g' r r', s.held g = some r → s.held g' = some r' → r.ticket = r'.ticket → g = g'

omit [DecidableEq ι] in
theorem slotInv_init (z : Size) (start : UInt64) : SlotInv z (init ι start) := by
  have hnone : ∀ g, (init ι start).held g = none := fun _ => rfl
  refine ⟨submit_queue.ticketInv_init z, fun _ => rfl, ?_, ?_, ?_⟩
  · intro g r hr
    rw [hnone] at hr
    cases hr
  · intro g r hr
    rw [hnone] at hr
    cases hr
  · intro g g' r r' hr
    rw [hnone] at hr
    cases hr

omit [DecidableEq ι] in
/-- Two calls that have not returned have different slots. -/
theorem SlotInv.apart {z : Size} {s : State ι} (hi : SlotInv z s) {g g' : ι} {r r' : Reserved}
    (hr : s.held g = some r) (hr' : s.held g' = some r')
    (h : slotOf z r.tail = slotOf z r'.tail) : g = g' := by
  obtain ⟨h1, h2⟩ := hi.lap g r hr
  obtain ⟨h1', h2'⟩ := hi.lap g' r' hr'
  rw [hi.slot g r hr, hi.slot g' r' hr'] at h
  exact hi.inj g g' r r' hr hr' (counter.slot_inj (a := s.queue.hist.tickets - z.slots)
    (by omega) (by omega) (by omega) (by omega) h)

/-- The goroutine that takes a step keeps what it holds or drops it; so do all then. -/
theorem kept_of_caller {z : Size} {s s' : State ι} {a : Act ι} {g : ι} (hm : Move z s a s')
    (hg : a.caller = some g) (h : s'.held g = s.held g ∨ s'.held g = none) (g' : ι) :
    s'.held g' = s.held g' ∨ s'.held g' = none := by
  by_cases hg' : g' = g
  · rw [hg']
    exact h
  · have hne : a.caller ≠ some g' := by
      rw [hg]
      exact fun he => hg' (Option.some.inj he).symm
    obtain ⟨hjob, hpc⟩ := other_goroutine hm hne
    exact Or.inl (held_congr hjob hpc)

/-- What the queue's own steps do to the reservations. -/
theorem held_queue {z : Size} {s : State ι} {b : submit_queue.Act ι} {q : submit_queue.State ι}
    (ht : TicketInv z s.queue) (hp : InPhase s)
    (hq : submit_queue.step z s.queue b = some q) :
    (q.hist.tickets = s.queue.hist.tickets ∧
      ∀ g, ({ s with queue := q } : State ι).held g = s.held g ∨
        ({ s with queue := q } : State ι).held g = none) ∨
    (∃ g r, b = .step g ∧ Reserves s.queue (.step g) ∧ r.ticket = s.queue.hist.tickets ∧
      q.hist.tickets = s.queue.hist.tickets + 1 ∧
      ({ s with queue := q } : State ι).held g = some r ∧ (q.pc g).reserved = some r ∧
      ∀ g', g' ≠ g → ({ s with queue := q } : State ι).held g' = s.held g') := by
  have hkeep : ∀ g, ((q.pc g).reserved = (s.queue.pc g).reserved ∨ (q.pc g).reserved = none) →
      ({ s with queue := q } : State ι).held g = s.held g ∨
        ({ s with queue := q } : State ι).held g = none := by
    intro g h
    unfold State.held
    cases s.jobs g with
    | readBack num r => exact Or.inl rfl
    | _ => exact h
  rcases submit_queue.move_tickets (submit_queue.step_move hq) ht.no_restart with
    ⟨g, tail, head, rfl, hpc, htail, -, htk, -, hpc'⟩ | ⟨g, r, -, -, htk, -, hpc'⟩ |
    ⟨-, htk, -, hres⟩
  · right
    refine ⟨g, ⟨tail, head, s.queue.hist.tickets⟩, rfl, ⟨g, rfl, ?_⟩, rfl, htk, ?_, ?_, ?_⟩
    · rw [hpc, htail]; rfl
    · have hjob := hp g
      unfold State.held
      cases hj : s.jobs g with
      | readBack num r =>
        rw [hj, hpc] at hjob
        cases hjob
      | _ => simp only [hpc', Function.update_self, submit_queue.Pc.reserved]
    · rw [hpc', Function.update_self]; rfl
    · intro g' hg'
      exact held_congr rfl (by simp only [hpc', Function.update_of_ne hg'])
  · refine Or.inl ⟨htk, fun g' => hkeep g' ?_⟩
    rw [hpc']
    by_cases hg' : g' = g
    · subst hg'
      exact Or.inr (by rw [Function.update_self]; rfl)
    · exact Or.inl (by rw [Function.update_of_ne hg'])
  · exact Or.inl ⟨htk, fun g => hkeep g (hres g)⟩

/-- A step takes a new ticket, or the goroutines keep what they hold or drop it. -/
theorem held_move {z : Size} {s s' : State ι} {a : Act ι} (hi : SlotInv z s)
    (hm : Move z s a s') :
    (s'.queue.hist.tickets = s.queue.hist.tickets ∧
      ∀ g, s'.held g = s.held g ∨ s'.held g = none) ∨
    (∃ g r, a = .step g ∧ Reserves s.queue (.step g) ∧ r.ticket = s.queue.hist.tickets ∧
      s'.queue.hist.tickets = s.queue.hist.tickets + 1 ∧ s'.held g = some r ∧
      (s'.queue.pc g).reserved = some r ∧ ∀ g', g' ≠ g → s'.held g' = s.held g') := by
  have hcaller := fun g => @kept_of_caller ι _ z s s' a g hm
  cases hm with
  | queue hb hsame hstep hq =>
    rcases held_queue hi.tickets hi.phases hq with hkept | ⟨g, r, hbg, hr, h⟩
    · exact Or.inl hkept
    · exact Or.inr ⟨g, r, hstep g hbg, hr, h⟩
  | consumed hid => exact Or.inl ⟨rfl, fun _ => Or.inl rfl⟩
  | @plan g op hjob hop =>
    refine Or.inl ⟨rfl, hcaller g rfl (Or.inl ?_)⟩
    simp [State.held, State.goto, hjob]
  | @submit g op q hjob hop hq =>
    obtain ⟨hidle, hload, htk⟩ := submitEntry_eq hq
    refine Or.inl ⟨htk, hcaller g rfl (Or.inr ?_)⟩
    simp [State.held, State.goto, hload, submit_queue.Pc.reserved]
  | @drawFirst g op q hjob hq =>
    obtain ⟨hidle, hload, htk⟩ := submitEntry_eq hq
    refine Or.inl ⟨htk, hcaller g rfl (Or.inr ?_)⟩
    simp [State.held, State.goto, hload, submit_queue.Pc.reserved]
  | @draw g r back num todo hjob hpc =>
    refine Or.inl ⟨rfl, hcaller g rfl (Or.inl ?_)⟩
    simp [State.held, State.goto, State.draw, hjob]
  | @write g r back num t todo w q hjob hpc ht hq =>
    have heq := write_eq hpc hq
    have hsame : q.pc = s.queue.pc := by rw [heq]; rfl
    have htk : q.hist.tickets = s.queue.hist.tickets := by rw [heq]; rfl
    refine Or.inl ⟨htk, hcaller g rfl (Or.inl ?_)⟩
    simp [State.held, State.goto, hjob, hsame]
  | @returnEarly g r num hjob hpc =>
    refine Or.inl ⟨rfl, hcaller g rfl (Or.inl ?_)⟩
    simp [State.held, State.goto, hjob]
  | @commit g r back num q hjob hpc hq =>
    obtain ⟨hload, -, htk⟩ := commit_eq hpc hq
    refine Or.inl ⟨htk, hcaller g rfl (Or.inl ?_)⟩
    simp [State.held, State.goto, hjob, hpc, hload, submit_queue.Pc.reserved]
  | @panic g r back num todo hjob hpc =>
    refine Or.inl ⟨rfl, hcaller g rfl (Or.inl ?_)⟩
    simp [State.held, State.goto, hjob]
  | @store g r back num job q hjob hpc hnext hq =>
    obtain ⟨hidle, -, htk⟩ := store_eq hpc hq
    refine Or.inl ⟨htk, hcaller g rfl ?_⟩
    rcases hnext with rfl | rfl
    · left
      simp [State.held, State.goto, hjob, hpc, submit_queue.Pc.reserved]
    · right
      simp [State.held, State.goto, hidle, submit_queue.Pc.reserved]
  | @readBack g num r hjob =>
    have hpc : (s.queue.pc g).reserved = none := by
      refine reserved_of_outside ?_
      rw [← hi.phases g, hjob]
      rfl
    refine Or.inl ⟨rfl, hcaller g rfl (Or.inr ?_)⟩
    simp [State.held, State.goto, hpc]

/-- The tickets of the queue stay in order whatever the calls do. -/
theorem ticketInv_move {z : Size} {s s' : State ι} {a : Act ι} (ht : TicketInv z s.queue)
    (hm : Move z s a s') : TicketInv z s'.queue := by
  have hqueue : ∀ {b : submit_queue.Act ι} {q : submit_queue.State ι},
      submit_queue.step z s.queue b = some q → TicketInv z q :=
    fun hq => submit_queue.ticketInv_move ht (submit_queue.step_move hq)
  cases hm with
  | plan | draw | returnEarly | panic | readBack | consumed => exact ht
  | submit hjob hop hq | drawFirst hjob hq | write hjob hpc h hq | commit hjob hpc hq
  | store hjob hpc hnext hq | queue hb hcaller hstep hq => exact hqueue hq

theorem slotInv_move {z : Size} {s s' : State ι} {a : Act ι} (hi : SlotInv z s)
    (hok : KeepsSlots z s a) (hm : Move z s a s') : SlotInv z s' := by
  have ht := ticketInv_move hi.tickets hm
  have hp := inPhase_move hi.phases hm
  rcases held_move hi hm with ⟨htk, hkept⟩ | ⟨g, r, rfl, hres, hnew, htk, hg, hres', hothers⟩
  · -- what is held was held before
    have hold : ∀ g r, s'.held g = some r → s.held g = some r := by
      intro g r hr
      rcases hkept g with h | h
      · rw [← h, hr]
      · rw [h] at hr; cases hr
    refine ⟨ht, hp, fun g r hr => hi.slot g r (hold g r hr), ?_, ?_⟩
    · intro g r hr
      rw [htk]
      exact hi.lap g r (hold g r hr)
    · exact fun g g' r r' hr hr' => hi.inj g g' r r' (hold g r hr) (hold g' r' hr')
  · -- `g` takes the next ticket
    have hcases : ∀ g' r', s'.held g' = some r' →
        (g' = g ∧ r' = r) ∨ (g' ≠ g ∧ s.held g' = some r') := by
      intro g' r' hr'
      by_cases hg' : g' = g
      · subst hg'
        rw [hg] at hr'
        exact Or.inl ⟨rfl, (Option.some.inj hr').symm⟩
      · rw [hothers g' hg'] at hr'
        exact Or.inr ⟨hg', hr'⟩
    have hlt : ∀ g' r', s.held g' = some r' → r'.ticket < r.ticket := by
      intro g' r' hr'
      rw [hnew]
      exact (hi.lap g' r' hr').1
    refine ⟨ht, hp, ?_, ?_, ?_⟩
    · intro g' r' hr'
      rcases hcases g' r' hr' with ⟨rfl, rfl⟩ | ⟨-, hold⟩
      · exact ht.slot g' r' hres'
      · exact hi.slot g' r' hold
    · intro g' r' hr'
      rw [htk]
      rcases hcases g' r' hr' with ⟨rfl, rfl⟩ | ⟨-, hold⟩
      · have := z.slots_pos
        omega
      · have h1 := (hi.lap g' r' hold).1
        have h2 := hok g rfl hres g' r' hold
        omega
    · intro g1 g2 r1 r2 h1 h2 he
      rcases hcases g1 r1 h1 with ⟨rfl, rfl⟩ | ⟨-, hold1⟩ <;>
        rcases hcases g2 r2 h2 with ⟨rfl, rfl⟩ | ⟨-, hold2⟩
      · rfl
      · have := hlt g2 r2 hold2
        omega
      · have := hlt g1 r1 hold1
        omega
      · exact hi.inj g1 g2 r1 r2 hold1 hold2 he

/-! ## The entries of the calls -/

/-- After the lines that are left, the entry has the number of the operation. -/
def WillHold : Option UInt64 → List Fill → SubmitEntry → Prop
  | num, [], e => num = some e.userData
  | _, .draw :: todo, e => ∀ id, WillHold (some id) todo e
  | num, .set w :: todo, e => WillHold num todo (w.apply e)
  | num, .setId :: todo, e => ∀ id, num = some id → WillHold num todo { e with userData := id }
  | _, .panic :: _, _ => True

/-- Lines that set `UserData` leave the number drawn for it, and no other line undoes that. -/
theorem lines_willHold {ws : List FieldWrite} {num : Option UInt64} {e : SubmitEntry}
    (h : (∃ v, .userData v ∈ ws) ∨ num = some e.userData) : WillHold num (lines ws) e := by
  induction ws generalizing num e with
  | nil =>
    rcases h with ⟨v, hv⟩ | h
    · cases hv
    · exact h
  | cons w ws ih =>
    cases w with
    | userData v =>
      rintro id _ ⟨⟩
      exact ih (Or.inr rfl)
    | _ =>
      refine ih ?_
      rcases h with ⟨v, hv⟩ | h
      · rcases List.mem_cons.mp hv with hv | hv
        · cases hv
        · exact Or.inl ⟨v, hv⟩
      · exact Or.inr h

theorem panic_willHold (ws : List FieldWrite) (num : Option UInt64) (e : SubmitEntry) :
    WillHold num (lines ws ++ [.panic]) e := by
  induction ws generalizing num e with
  | nil => trivial
  | cons w ws ih =>
    cases w with
    | userData v => exact fun id _ _ => ih (some id) _
    | _ => exact ih num _

theorem linesOr_willHold {ws : Option (List FieldWrite)} (before : List FieldWrite)
    (h : ∀ l, ws = some l → ∃ v, .userData v ∈ l) (num : Option UInt64) (e : SubmitEntry) :
    WillHold num (linesOr ws before) e := by
  cases ws with
  | none => exact panic_willHold before num e
  | some l => exact lines_willHold (Or.inl (h l rfl))

/-- Every `Prepare` function that does not panic sets `UserData`. -/
theorem writes_userData {c : Prepare} {id : UInt64} {ws : List FieldWrite}
    (h : c.writes id = some ws) : .userData id ∈ ws := by
  cases c with
  | statx dirfd path flags mask buf =>
    cases h
    simp [submit_queue.prepareStatx]
  | readv | writev | read | write | readFixed | writeFixed | send | recv | fioRead | fioWrite =>
    obtain ⟨first, -, rfl⟩ := Option.map_eq_some_iff.mp h
    simp
  | _ =>
    cases h
    simp [submit_queue.prepareAccept, submit_queue.prepareClose, submit_queue.prepareConnect,
      submit_queue.prepareFadvise, submit_queue.prepareFallocate, submit_queue.prepareFsync,
      submit_queue.prepareNop, submit_queue.preparePollAdd, submit_queue.prepareRecvmsg,
      submit_queue.prepareSplice, submit_queue.prepareTimeout, submit_queue.prepareTimeoutRemove]

theorem address_willHold (b : submit_queue.Slice) (num : Option UInt64) (e : SubmitEntry) :
    WillHold num (address b ++ [.draw, .setId]) e := by
  unfold address
  cases b.first with
  | none => trivial
  | some first => rintro id _ ⟨⟩; rfl

theorem fills_willHold {op : Operation} (h : op.drawsFirst = false) (e : SubmitEntry) :
    WillHold op.fixed op.fills e := by
  cases op with
  | prepare c =>
    exact linesOr_willHold _ (fun l hl => ⟨0, writes_userData hl⟩) _ e
  | writeAt fd b o | readAt fd b o =>
    refine linesOr_willHold _ (fun l hl => ⟨0, ?_⟩) _ e
    obtain ⟨first, -, rfl⟩ := Option.map_eq_some_iff.mp hl
    simp
  | connRead fd b | connWrite fd b => exact address_willHold b _ _
  | listenNew fd | listenOld fd => rfl
  | rePoll | connRun | listenerRun => cases h

theorem fills_willHold_drawn {op : Operation} (h : op.drawsFirst = true) (id : UInt64)
    (e : SubmitEntry) : WillHold (some id) op.fills e := by
  cases op with
  | rePoll fd | connRun fd | listenerRun fd => rintro _ ⟨⟩; rfl
  | _ => cases h

/-- What the entry of a goroutine holds, or will hold when its lines have run. While it is
inside `SubmitEntry`, that has to be so whatever the entry holds. -/
structure EntryInv (z : Size) (s : State ι) (g : ι) : Prop where
  plan : ∀ op, s.jobs g = .drawFirst op → op.drawsFirst = true
  waiting : ∀ back num todo, s.jobs g = .fill back num todo → (∀ r, s.queue.pc g ≠ .holding r) →
    ∀ e, WillHold num todo e
  filling : ∀ back num todo r, s.jobs g = .fill back num todo → s.queue.pc g = .holding r →
    WillHold num todo (s.entry z r)
  closing : ∀ back num r, s.jobs g = .close back num → (s.queue.pc g).reserved = some r →
    num = some (s.entry z r).userData
  readBack : ∀ num r, s.jobs g = .readBack num r → num = some (s.entry z r).userData

omit [DecidableEq ι] in
/-- A goroutine without an entry. -/
theorem entryInv_free {z : Size} {s : State ι} {g : ι}
    (h : s.jobs g = .idle ∨ s.jobs g = .panicked ∨
      ∃ op, s.jobs g = .drawFirst op ∧ op.drawsFirst = true) : EntryInv z s g := by
  rcases h with h | h | ⟨op, h, hop⟩
  · refine ⟨?_, ?_, ?_, ?_, ?_⟩ <;> simp [h]
  · refine ⟨?_, ?_, ?_, ?_, ?_⟩ <;> simp [h]
  · refine ⟨fun op' hj => ?_, ?_, ?_, ?_, ?_⟩
    · rw [h] at hj
      cases hj
      exact hop
    all_goals simp [h]

omit [DecidableEq ι] in
/-- The goroutine stands still and its entry stays as it is. -/
theorem EntryInv.congr {z : Size} {s s' : State ι} {g : ι} (h : EntryInv z s g) (hp : InPhase s)
    (hjob : s'.jobs g = s.jobs g) (hpc : s'.queue.pc g = s.queue.pc g)
    (hentry : ∀ r, s.held g = some r → s'.entry z r = s.entry z r) : EntryInv z s' g := by
  refine ⟨?_, ?_, ?_, ?_, ?_⟩
  · rw [hjob]
    exact h.plan
  · rw [hjob, hpc]
    exact h.waiting
  · intro back num todo r hj hr
    rw [hjob] at hj
    rw [hpc] at hr
    have hheld : s.held g = some r := by
      rw [held_of_phase hp (by simp [hr, phase]), hr]; rfl
    rw [hentry r hheld]
    exact h.filling back num todo r hj hr
  · intro back num r hj hr
    rw [hjob] at hj
    rw [hpc] at hr
    have hheld : s.held g = some r := by
      unfold State.held
      rw [hj]
      exact hr
    rw [hentry r hheld]
    exact h.closing back num r hj hr
  · intro num r hj
    rw [hjob] at hj
    have hheld : s.held g = some r := by
      unfold State.held
      rw [hj]
    rw [hentry r hheld]
    exact h.readBack num r hj

/-- A goroutine that has the entry takes no step of the queue's own. -/
theorem caller_not_holding {z : Size} {q q' : submit_queue.State ι} {b : submit_queue.Act ι}
    {g : ι} (hm : submit_queue.Move z q b q') (hb : ownLine q b = false)
    (hg : b.caller = some g) (r : Reserved) : q.pc g ≠ .holding r := by
  intro hpc
  cases hm <;> simp_all [submit_queue.Act.caller, ownLine]

/-- Outside of `SubmitEntry`, the queue's own steps write to no entry, and a goroutine in
the closure keeps its reservation. -/
theorem caller_not_filling {z : Size} {q q' : submit_queue.State ι} {b : submit_queue.Act ι}
    {g : ι} (hm : submit_queue.Move z q b q') (hb : ownLine q b = false)
    (hg : b.caller = some g) (hphase : phase (q.pc g) ≠ .filling) :
    q'.mem.entries = q.mem.entries ∧ (q'.pc g).reserved = (q.pc g).reserved := by
  cases hm with
  | setFlags v => cases hg
  | submitEntry h => cases hb
  | write w h => cases hb
  | commit h => cases hb
  | storeArray h => simp [ownLine, h] at hb
  | loadTail h | loadHead h hn | wrap h hn | casTail h ht | casTailLost h ht | restart h
  | retry h he | pass h he | addWrites h | reset h | handOut h =>
    cases hg
    exact absurd (by rw [h]; rfl) hphase
  | syscall h =>
    cases hg
    refine ⟨?_, ?_⟩
    · rw [submit_queue.goto_mem, submit_queue.consume_mem]
    · rw [submit_queue.goto_pc, Function.update_self, h]
      rfl
  | _ =>
    cases hg
    refine ⟨rfl, ?_⟩
    simp [*, submit_queue.Pc.reserved]

/-- The queue's own step of a goroutine. -/
theorem EntryInv.queue {z : Size} {s : State ι} {b : submit_queue.Act ι}
    {q : submit_queue.State ι} {g : ι} (h : EntryInv z s g) (hp : InPhase s)
    (hb : ownLine s.queue b = false) (hg : b.caller = some g)
    (hq : submit_queue.step z s.queue b = some q) : EntryInv z { s with queue := q } g := by
  have hm := submit_queue.step_move hq
  have hnot := caller_not_holding hm hb hg
  have hpg := hp g
  refine ⟨h.plan, ?_, ?_, ?_, ?_⟩
  · intro back num todo hj _
    exact h.waiting back num todo hj hnot
  · -- `SubmitEntry` has just returned
    intro back num todo r hj _
    exact h.waiting back num todo hj hnot _
  · intro back num r hj hr
    rw [hj] at hpg
    obtain ⟨hentries, hres⟩ := caller_not_filling hm hb hg (by simp [← hpg, Job.phase])
    have hentry : ({ s with queue := q } : State ι).entry z r = s.entry z r :=
      congrFun hentries _
    rw [hentry]
    exact h.closing back num r hj (hres.symm.trans hr)
  · intro num r hj
    rw [hj] at hpg
    obtain ⟨hentries, -⟩ := caller_not_filling hm hb hg (by simp [← hpg, Job.phase])
    have hentry : ({ s with queue := q } : State ι).entry z r = s.entry z r :=
      congrFun hentries _
    rw [hentry]
    exact h.readBack num r hj

omit [DecidableEq ι] in
/-- A goroutine in `SubmitEntry` whose lines leave the number in any entry. -/
theorem entryInv_waiting {z : Size} {s : State ι} {g : ι} {back : ReadsBack} {num : Option UInt64}
    {todo : List Fill} (hjob : s.jobs g = .fill back num todo)
    (hpc : ∀ r, s.queue.pc g ≠ .holding r) (h : ∀ e, WillHold num todo e) : EntryInv z s g := by
  refine ⟨by simp [hjob], fun back' num' todo' hj _ => ?_, fun _ _ _ r _ hr => ?_,
    by simp [hjob], by simp [hjob]⟩
  · rw [hjob] at hj
    cases hj
    exact h
  · exact absurd hr (hpc r)

omit [DecidableEq ι] in
/-- A goroutine that has the entry. -/
theorem entryInv_filling {z : Size} {s : State ι} {g : ι} {back : ReadsBack} {num : Option UInt64}
    {todo : List Fill} {r : Reserved} (hjob : s.jobs g = .fill back num todo)
    (hpc : s.queue.pc g = .holding r) (h : WillHold num todo (s.entry z r)) : EntryInv z s g := by
  refine ⟨by simp [hjob], fun _ _ _ _ hnot => ?_, fun back' num' todo' r' hj hr => ?_,
    by simp [hjob], by simp [hjob]⟩
  · exact absurd hpc (hnot r)
  · rw [hjob] at hj
    rw [hpc] at hr
    cases hj
    cases hr
    exact h

omit [DecidableEq ι] in
/-- A goroutine in the closure. -/
theorem entryInv_closing {z : Size} {s : State ι} {g : ι} {back : ReadsBack} {num : Option UInt64}
    {r : Reserved} (hjob : s.jobs g = .close back num) (hpc : (s.queue.pc g).reserved = some r)
    (h : num = some (s.entry z r).userData) : EntryInv z s g := by
  refine ⟨by simp [hjob], by simp [hjob], by simp [hjob], fun back' num' r' hj hr => ?_,
    by simp [hjob]⟩
  rw [hjob] at hj
  rw [hpc] at hr
  cases hj
  cases hr
  exact h

omit [DecidableEq ι] in
/-- A goroutine whose closure has run. -/
theorem entryInv_readBack {z : Size} {s : State ι} {g : ι} {num : Option UInt64} {r : Reserved}
    (hjob : s.jobs g = .readBack num r) (h : num = some (s.entry z r).userData) :
    EntryInv z s g := by
  refine ⟨by simp [hjob], by simp [hjob], by simp [hjob], by simp [hjob], fun num' r' hj => ?_⟩
  rw [hjob] at hj
  cases hj
  exact h

/-- The goroutine that takes the step. -/
theorem entryInv_caller {z : Size} {s s' : State ι} {a : Act ι} {g : ι} (h : EntryInv z s g)
    (hp : InPhase s) (hm : Move z s a s') (hg : a.caller = some g) : EntryInv z s' g := by
  cases hm with
  | consumed hid => cases hg
  | queue hb hcaller hstep hq => exact h.queue hp hb (hcaller.trans hg) hq
  | plan hjob hop =>
    cases hg
    exact entryInv_free (Or.inr (Or.inr ⟨_, Function.update_self .., hop⟩))
  | submit hjob hop hq =>
    cases hg
    refine entryInv_waiting (Function.update_self ..) (fun r hr => ?_) (fills_willHold hop)
    rw [(submitEntry_eq hq).2.1] at hr
    cases hr
  | drawFirst hjob hq =>
    cases hg
    refine entryInv_waiting (Function.update_self ..) (fun r hr => ?_)
      (fills_willHold_drawn (h.plan _ hjob) _)
    rw [(submitEntry_eq hq).2.1] at hr
    cases hr
  | draw hjob hpc =>
    cases hg
    exact entryInv_filling (Function.update_self ..) hpc (h.filling _ _ _ _ hjob hpc _)
  | @write _ r back num t todo w q hjob hpc ht hq =>
    cases hg
    have hwill := h.filling _ _ _ _ hjob hpc
    have heq := write_eq hpc hq
    refine entryInv_filling (Function.update_self ..) (r := r) (by rw [heq]; exact hpc) ?_
    have hentry : ({ s.goto g (.fill back num todo) with queue := q } : State ι).entry z r =
        w.apply (s.entry z r) := by
      simp only [heq, State.entry, submit_queue.State.setEntry, Function.update_self]
    rw [hentry]
    rcases ht with rfl | ⟨rfl, id, hnum, rfl⟩
    · exact hwill
    · exact hwill id hnum
  | returnEarly hjob hpc =>
    cases hg
    exact entryInv_filling (Function.update_self ..) hpc (h.filling _ _ _ _ hjob hpc)
  | @commit _ r back num q hjob hpc hq =>
    cases hg
    have hwill := h.filling _ _ _ _ hjob hpc
    obtain ⟨hpc', hmem, -⟩ := commit_eq hpc hq
    have hentry : ({ s.goto g (.close back num) with queue := q } : State ι).entry z r =
        s.entry z r := by
      simp only [State.entry, hmem]
    refine entryInv_closing (Function.update_self ..) (r := r) (by rw [hpc']; rfl) ?_
    rw [hentry]
    exact hwill
  | panic hjob hpc =>
    cases hg
    exact entryInv_free (Or.inr (Or.inl (Function.update_self ..)))
  | @store _ r back num job q hjob hpc hnext hq =>
    cases hg
    have hnum := h.closing _ _ r hjob (by rw [hpc]; rfl)
    obtain ⟨-, hentries, -⟩ := store_eq hpc hq
    rcases hnext with rfl | rfl
    · refine entryInv_readBack (Function.update_self ..) ?_
      simp only [State.entry, hentries]
      exact hnum
    · exact entryInv_free (Or.inl (Function.update_self ..))
  | readBack hjob =>
    cases hg
    exact entryInv_free (Or.inl (Function.update_self ..))

/-! ## The law -/

/-- Every value read back is the number of its operation. -/
def ReturnsOwn (s : State ι) : Prop := ∀ p ∈ s.returned, p.1 = some p.2

structure CallInv (z : Size) (s : State ι) : Prop where
  slots : SlotInv z s
  entries : ∀ g, EntryInv z s g
  own : ReturnsOwn s

omit [DecidableEq ι] in
theorem callInv_init (z : Size) (start : UInt64) : CallInv z (init ι start) := by
  refine ⟨slotInv_init z start, fun g => entryInv_free (Or.inl rfl), ?_⟩
  intro p hp
  cases hp

theorem returnsOwn_move {z : Size} {s s' : State ι} {a : Act ι} (hi : CallInv z s)
    (hm : Move z s a s') : ReturnsOwn s' := by
  have hadd : ∀ (num : Option UInt64) (v : UInt64), num = some v →
      ∀ p ∈ s.returned ++ [(num, v)], p.1 = some p.2 := by
    intro num v hv p hp
    rcases List.mem_append.mp hp with hp | hp
    · exact hi.own p hp
    · rw [List.mem_singleton.mp hp]
      exact hv
  cases hm with
  | @returnEarly g r num hjob hpc =>
    exact hadd num _ ((hi.entries g).filling _ _ _ _ hjob hpc)
  | @readBack g num r hjob => exact hadd num _ ((hi.entries g).readBack num r hjob)
  | _ => exact hi.own

theorem callInv_move {z : Size} {s s' : State ι} {a : Act ι} (hi : CallInv z s)
    (hok : KeepsSlots z s a) (hm : Move z s a s') : CallInv z s' := by
  refine ⟨slotInv_move hi.slots hok hm, fun g => ?_, returnsOwn_move hi hm⟩
  by_cases hg : a.caller = some g
  · exact entryInv_caller (hi.entries g) hi.slots.phases hm hg
  · -- the slot of `g` is not the one that the step writes to
    obtain ⟨hjob, hpc⟩ := other_goroutine hm hg
    refine (hi.entries g).congr hi.slots.phases hjob hpc fun r hr => ?_
    refine entries_move hi.slots.phases hm fun g' r' hg' hr' he => hg ?_
    rw [hg', hi.slots.apart hr' hr he]

/-- As long as no reservation comes round to the slot of a call that has not returned,
every value that is read back from a slot is the number that the call has drawn. -/
theorem calls_return_their_own_numbers (z : Size) (start : UInt64) (as : List (Act ι))
    (h : Along (step z) (KeepsSlots z) (init ι start) as) :
    Always (step z) ReturnsOwn (init ι start) as := by
  have hstep : ∀ (s : State ι) a s', CallInv z s → KeepsSlots z s a → step z s a = some s' →
      CallInv z s' := by
    intro s a s' hi hok hs
    exact callInv_move hi hok (step_move hi.slots.phases hs)
  exact Along.always hstep (fun _ hi => hi.own) (callInv_init z start) h

instance [Fintype ι] (z : Size) (s : State ι) (a : Act ι) : Decidable (KeepsSlots z s a) :=
  inferInstanceAs (Decidable (∀ g, a = .step g → Reserves s.queue (.step g) →
    ∀ g', ∀ r ∈ s.held g', s.queue.hist.tickets < r.ticket + z.slots))

/-- A call of `PrepareNop` with its first `n` steps. It takes 24 when nobody is in its way. -/
def nopActs (g : ι) (n : Nat) : List (Act ι) :=
  .call g (.prepare .nop) :: List.replicate n (.step g)

/-- Two calls of `PrepareNop` on a ring of two, one inside the other. -/
def nestedNops : List (Act (Fin 2)) := nopActs 0 23 ++ nopActs 1 24 ++ [Act.step 0]

theorem nested_calls_return_their_own_numbers :
    Along (step ⟨1, by decide⟩) (KeepsSlots ⟨1, by decide⟩) (init (Fin 2) 0) nestedNops ∧
      Always (step ⟨1, by decide⟩) ReturnsOwn (init (Fin 2) 0) nestedNops ∧
      (run (step ⟨1, by decide⟩) (init (Fin 2) 0) nestedNops).map State.returned =
        some [(some 2, 2), (some 1, 1)] := by
  have h : Along (step ⟨1, by decide⟩) (KeepsSlots ⟨1, by decide⟩) (init (Fin 2) 0)
      nestedNops := by decide +kernel
  exact ⟨h, calls_return_their_own_numbers _ 0 nestedNops h, by decide⟩

/-- A call that has run its closure, and two more calls on a ring of two before it reads
the slot: the second one has got the slot and reset it. -/
theorem a_call_returns_the_number_of_a_reset_slot :
    ∃ s, run (step ⟨1, by decide⟩) (init (Fin 2) 0)
        (nopActs 0 23 ++ nopActs 1 24 ++ Act.enter 1 ⟨2, 0, 0⟩ :: List.replicate 5 (.step 1) ++
          nopActs 1 15 ++ [Act.step 0]) = some s ∧
      s.returned = [(some 2, 2), (some 1, 0)] ∧ ¬ ReturnsOwn s := by
  have h : (run (step ⟨1, by decide⟩) (init (Fin 2) 0)
      (nopActs 0 23 ++ nopActs 1 24 ++ Act.enter 1 ⟨2, 0, 0⟩ :: List.replicate 5 (.step 1) ++
        nopActs 1 15 ++ [Act.step 0])).map State.returned =
          some [(some 2, 2), (some 1, 0)] := by decide
  obtain ⟨s, hrun, hs⟩ := Option.map_eq_some_iff.mp h
  refine ⟨s, hrun, hs, fun hown => ?_⟩
  rw [ReturnsOwn, hs] at hown
  have hbad := hown (some 1, 0) (by decide)
  exact absurd hbad (by decide)

end iouring.prepare_calls
