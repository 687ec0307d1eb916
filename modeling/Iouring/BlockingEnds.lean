-- How a blocking call ends. Wherever the calls of one goroutine, `Ring.run` and the kernel
-- stand, the call under way can still return, unless the `Enter` for its entry has failed:
-- the error is dropped, nobody enters for the entry again, and the call waits forever.
import Iouring.BlockingRuns
import Iouring.RunReturns

open counter machine

namespace iouring.blocking

open prepare_calls (nth)

variable {zs zc : Size} {start : UInt64} {s s' : State} {a : Act} {r : Nat} {id : UInt64}

/-! ## The invariant -/

structure EndInv (zs zc : Size) (start : UInt64) (s : State) : Prop
    extends CallInv zs zc start s where
  returns : ring.ReturnInv s.ring

theorem endInv_init (zs zc : Size) (start : UInt64) : EndInv zs zc start (init start) :=
  ⟨callInv_init zs zc start, ring.returnInv_init⟩

/-- A step starts a call, or is a step of the ring that starts none. No step takes back that
an `Enter` has failed. -/
theorem step_cases (h : step zs zc s a = some s') :
    (∃ c, a = .call c ∧ s'.ring = s.ring ∧ s'.refused = s.refused) ∨
      (s'.calls = s.calls ∧ (s.refused = true → s'.refused = true) ∧
        ∃ b, ring.Move zc s.ring b s'.ring) := by
  have hring : ∀ (t : State) b, t.ring = s.ring → t.calls = s.calls →
      (s.refused = true → t.refused = true) → t.ringStep zc b = some s' →
      s'.calls = s.calls ∧ (s.refused = true → s'.refused = true) ∧
        ∃ b, ring.Move zc s.ring b s'.ring := by
    intro t b ht hcalls hrefused hb
    obtain ⟨r', hm, rfl⟩ := ringStep_eq hb
    exact ⟨hcalls, hrefused, b, ht ▸ hm⟩
  cases a with
  | call c =>
    simp only [step, Option.ite_none_right_eq_some] at h
    obtain ⟨ws, -, h⟩ := Option.bind_eq_some_iff.mp h.2
    obtain ⟨q, -, rfl⟩ := Option.map_eq_some_iff.mp h
    exact Or.inl ⟨c, rfl, rfl, rfl⟩
  | complete pick =>
    obtain ⟨id, -, h⟩ := Option.bind_eq_some_iff.mp h
    exact Or.inr (hring { s with committed := none } _ rfl rfl (fun hr => hr) h)
  | enter =>
    simp only [step, Option.ite_none_right_eq_some] at h
    obtain ⟨q, -, h⟩ := Option.bind_eq_some_iff.mp h.2
    exact Or.inr (hring { s with sq := q } _ rfl rfl (fun hr => hr) h)
  | enterFails =>
    simp only [step, Option.ite_none_right_eq_some] at h
    obtain ⟨q, -, h⟩ := Option.bind_eq_some_iff.mp h.2
    exact Or.inr (hring { s with sq := q, refused := true } _ rfl rfl (fun _ => rfl) h)
  | answer k res flags =>
    obtain ⟨x, -, h⟩ := Option.bind_eq_some_iff.mp h
    exact Or.inr (hring s _ rfl rfl (fun hr => hr) h)
  | run =>
    simp only [step, Option.ite_none_left_eq_some] at h
    exact Or.inr (hring s _ rfl rfl (fun hr => hr) h.2)
  | caller | takeCompletion | takeRetry => exact Or.inr (hring s _ rfl rfl (fun hr => hr) h)

theorem endInv_step (hz : 2 ≤ zs.slots) (hi : EndInv zs zc start s) (hok : Orderly s a)
    (h : step zs zc s a = some s') : EndInv zs zc start s' := by
  refine ⟨callInv_step hz hi.toCallInv hok h, ?_⟩
  rcases step_cases h with ⟨c, -, hsame, -⟩ | ⟨-, -, b, hm⟩
  · rw [hsame]
    exact hi.returns
  · exact ring.returnInv_move hi.solo hi.returns hm

/-! ## `Ring.run` on its own -/

def Act.starts : Act → Bool
  | .call _ => true
  | _ => false

/-- An orderly step that starts no call. -/
def Onward (s : State) (a : Act) : Prop := Orderly s a ∧ a.starts = false

/-- Away from its select, `Ring.run` can take its next step, `Enter` included. -/
theorem EndInv.run_step (hi : EndInv zs zc start s) (hrun : s.ring.run ≠ .select) :
    ∃ a s', step zs zc s a = some s' ∧ Onward s a ∧ s'.refused = s.refused ∧
      s'.committed = s.committed ∧ ring.Move zc s.ring .run s'.ring := by
  by_cases henter : s.ring.run = .enter
  · obtain ⟨-, -, -, -, r, e, -, -, hloaded, -⟩ := hi.at_enter henter
    obtain ⟨hq, -⟩ := submit_queue.opStep_quiet zs hloaded.quiet (.enter () s.enterCall)
    have hstep : step zs zc s .enter = some { s with
        sq := submit_queue.afterOp zs s.sq (.enter () s.enterCall)
        ring := { s.ring with run := .loadHead } } := by
      simp only [step, if_pos henter, hq, Option.bind_some]
      exact ringStep_enter henter
    exact ⟨.enter, _, hstep, ⟨trivial, rfl⟩, rfl, rfl, .enter henter⟩
  · obtain ⟨r', hr'⟩ := ring.run_goes_on hi.solo hi.returns hrun
    have hstep : step zs zc s .run = some { s with ring := r' } := by
      simp only [step, if_neg henter, State.ringStep, hr', Option.map_some]
    exact ⟨.run, _, hstep, ⟨trivial, rfl⟩, rfl, rfl, ring.step_move hr'⟩

/-- On its own, `Ring.run` comes back to its select with what its steps keep. -/
theorem EndInv.to_select (hz : 2 ≤ zs.slots) (hi : EndInv zs zc start s)
    (hr : s.refused = false) {Q : ring.State Unit → Prop}
    (hQ : ∀ t t', ring.SoloInv zc t → Q t → ring.Move zc t .run t' → Q t') (hs : Q s.ring) :
    ∃ s', Leads (step zs zc) Onward s s' ∧ EndInv zs zc start s' ∧ s'.refused = false ∧
      s'.committed = s.committed ∧ s'.ring.run = .select ∧ Q s'.ring := by
  have hstep : ∀ t, (EndInv zs zc start t ∧ t.refused = false ∧ t.committed = s.committed ∧
        Q t.ring) → ¬ t.ring.run = .select →
      ∃ a t', step zs zc t a = some t' ∧ Onward t a ∧ (EndInv zs zc start t' ∧
        t'.refused = false ∧ t'.committed = s.committed ∧ Q t'.ring) ∧
        t'.ring.run.rank zc < t.ring.run.rank zc := by
    rintro t ⟨hi, hr, hc, hq⟩ hrun
    obtain ⟨a, t', h, hok, hr', hc', hm⟩ := hi.run_step hrun
    exact ⟨a, t', h, hok, ⟨endInv_step hz hi hok.1 h, hr'.trans hr, hc'.trans hc,
      hQ _ _ hi.solo hq hm⟩, ring.rank_move hm⟩
  obtain ⟨s', hleads, ⟨hi', hr', hc', hq'⟩, hsel⟩ := leads_to_end hstep ⟨hi, hr, rfl, hs⟩
  exact ⟨s', hleads, hi', hr', hc', hsel, hq'⟩

/-! ## The caller on its own -/

/-- The next step of a call that is not blocked. -/
theorem EndInv.caller_step (hz : 2 ≤ zs.slots) (hi : EndInv zs zc start s)
    (hcall : s.ring.callers () ≠ .idle)
    (hwait : ∀ r id, s.ring.callers () = .wait r id → (s.ring.heap r).done ≠ 0)
    (hok : ring.renamesEarly s.ring (.caller ()) = false) :
    ∃ r', step zs zc s .caller = some { s with ring := r' } ∧ Onward s .caller ∧
      EndInv zs zc start { s with ring := r' } ∧ ring.Move zc s.ring (.caller ()) r' := by
  obtain ⟨r', hr'⟩ := ring.caller_goes_on hi.solo hcall hwait
  have hstep : step zs zc s .caller = some { s with ring := r' } := by
    simp only [step, State.ringStep, hr', Option.map_some]
  exact ⟨r', hstep, ⟨hok, rfl⟩, endInv_step (a := .caller) hz hi hok hstep,
    ring.step_move hr'⟩

/-- A call that has its entry committed can hand it to `complete`. -/
theorem EndInv.complete_step (hz : 2 ≤ zs.slots) (hi : EndInv zs zc start s)
    (hc : s.committed = some id) :
    ∃ r', step zs zc s (.complete none) = some { s with committed := none, ring := r' } ∧
      EndInv zs zc start { s with committed := none, ring := r' } ∧ r'.run = s.ring.run ∧
      ∃ r, r'.callers () = .setId r id := by
  have hidle : s.ring.callers () = .idle := hi.idle (by rw [hc]; nofun)
  have hnew : id ∉ s.ring.asked := by
    have hasked := hi.asked
    rw [hc] at hasked
    have hnodup : ((List.range s.calls.length).map fun k => nth start (k + 1)).Nodup := by
      refine List.Nodup.map_on (fun j hj k hk h => ?_) List.nodup_range
      exact hi.index_unique (List.mem_range.mp hj) (List.mem_range.mp hk) h
    rw [← hasked, Option.toList_some, List.nodup_append] at hnodup
    exact fun hmem => hnodup.2.2 id hmem id (List.mem_singleton_self id) rfl
  have hack : ∀ p ∈ s.ring.queue.acked, s.ring.queue.idAt p ≠ some id := by
    intro p _ hat
    obtain ⟨c, hc', rfl⟩ := Option.map_eq_some_iff.mp hat
    rcases hi.solo.answers c (List.mem_of_getElem? hc') with hdel | hkey
    · exact hnew (hi.solo.toWaitInv.asked _ hdel)
    · obtain ⟨r, hr⟩ := Option.isSome_iff_exists.mp hkey
      exact hnew (hi.solo.key_asked hr)
  have hstep : step zs zc s (.complete none) = some { s with
      committed := none
      ring := { s.ring with
        fresh := s.ring.fresh + 1
        asked := s.ring.asked ++ [id]
        callers := Function.update s.ring.callers () (.setId s.ring.fresh id) } } := by
    simp only [step, hc, Option.bind_some, State.ringStep, ring.step,
      if_pos (And.intro hidle (And.intro hnew hack)), ring.getRequest, Option.map_some]
    rfl
  exact ⟨_, hstep, endInv_step (a := .complete none) hz hi trivial hstep, rfl, s.ring.fresh,
    by simp⟩

/-- The steps that a call has left, from its entry on. -/
def State.callRank (s : State) : Nat :=
  (if s.committed.isSome then 9 else 0) + (s.ring.callers ()).rank

/-- While `Ring.run` stays at its select, a call gets as far as its wait. -/
theorem EndInv.hand_over (hz : 2 ≤ zs.slots) (hi : EndInv zs zc start s) (hr : s.refused = false)
    (hsel : s.ring.run = .select) :
    ∃ s', Leads (step zs zc) Onward s s' ∧ (EndInv zs zc start s' ∧ s'.refused = false ∧
      s'.ring.run = .select) ∧ s'.committed = none ∧ (s'.ring.callers ()).early = none := by
  have hstep : ∀ t, (EndInv zs zc start t ∧ t.refused = false ∧ t.ring.run = .select) →
      ¬ (t.committed = none ∧ (t.ring.callers ()).early = none) →
      ∃ a t', step zs zc t a = some t' ∧ Onward t a ∧ (EndInv zs zc start t' ∧
        t'.refused = false ∧ t'.ring.run = .select) ∧ t'.callRank < t.callRank := by
    rintro t ⟨hi, hr, hsel⟩ hmore
    cases hc : t.committed with
    | some id =>
      obtain ⟨r', h, hi', hrun, r, hcall⟩ := hi.complete_step hz hc
      have hidle : t.ring.callers () = .idle := hi.idle (by rw [hc]; nofun)
      refine ⟨_, _, h, ⟨trivial, rfl⟩, ⟨hi', hr, hrun.trans hsel⟩, ?_⟩
      simp [State.callRank, hc, hcall, hidle, ring.Caller.rank]
    | none =>
      have hearly : (t.ring.callers ()).early ≠ none := fun h => hmore ⟨hc, h⟩
      obtain ⟨r', h, hok, hi', hm⟩ := hi.caller_step hz
        (fun h => hearly (by rw [h]; rfl)) (fun r id h => absurd (by rw [h]; rfl) hearly)
        (by cases hcall : t.ring.callers () <;> simp [ring.renamesEarly, hcall, hsel])
      refine ⟨_, _, h, hok, ⟨hi', hr, ?_⟩, ?_⟩
      · cases hm <;> exact hsel
      · have := ring.rank_caller hm
        simpa [State.callRank, hc] using this
  exact leads_to_end hstep ⟨hi, hr, hsel⟩

/-- A call that has its answer returns. -/
theorem EndInv.return_from (hz : 2 ≤ zs.slots) (hi : EndInv zs zc start s)
    (hc : s.committed = none) (hearly : (s.ring.callers ()).early = none)
    (hwait : ∀ r id, s.ring.callers () = .wait r id → (s.ring.heap r).done ≠ 0) :
    ∃ s', Leads (step zs zc) Onward s s' ∧ EndInv zs zc start s' ∧ s'.committed = none ∧
      s'.ring.callers () = .idle := by
  have hstep : ∀ t, (EndInv zs zc start t ∧ t.committed = none ∧
        (t.ring.callers ()).early = none ∧
        ∀ r id, t.ring.callers () = .wait r id → (t.ring.heap r).done ≠ 0) →
      ¬ t.ring.callers () = .idle →
      ∃ a t', step zs zc t a = some t' ∧ Onward t a ∧ (EndInv zs zc start t' ∧
        t'.committed = none ∧ (t'.ring.callers ()).early = none ∧
        ∀ r id, t'.ring.callers () = .wait r id → (t'.ring.heap r).done ≠ 0) ∧
        (t'.ring.callers ()).rank < (t.ring.callers ()).rank := by
    rintro t ⟨hi, hc, hearly, hwait⟩ hcall
    obtain ⟨r', hnext, hok, hi', hm⟩ := hi.caller_step hz hcall hwait (by
      cases hcall : t.ring.callers () with
      | setId r id =>
        rw [hcall] at hearly
        cases hearly
      | _ => simp [ring.renamesEarly, hcall])
    refine ⟨_, _, hnext, hok, ⟨hi', hc, ?_⟩, ring.rank_caller hm⟩
    cases hm with
    | setId h | setRes h | setFlags h | send h =>
      rw [h] at hearly
      cases hearly
    | wake h | readRes h | readFlags h | put h => simp [ring.Caller.early]
  obtain ⟨s', hleads, ⟨hi', hc', -⟩, hidle⟩ := leads_to_end hstep ⟨hi, hc, hearly, hwait⟩
  exact ⟨s', hleads, hi', hc', hidle⟩

/-! ## A call that waits -/

/-- `Ring.run` is at its select and has taken the request `r` of the call, which waits for the
answer to the entry `id`. -/
structure Waits (zs zc : Size) (start : UInt64) (r : Nat) (id : UInt64) (s : State) : Prop
    extends EndInv zs zc start s where
  accepted : s.refused = false
  handed : s.committed = none
  select : s.ring.run = .select
  caller : s.ring.callers () = .wait r id
  taken : s.ring.completions = []

/-- `Ring.run` takes the request of a call that waits. -/
theorem EndInv.taken_over (hz : 2 ≤ zs.slots) (hi : EndInv zs zc start s) (hr : s.refused = false)
    (hc : s.committed = none) (hsel : s.ring.run = .select)
    (hw : s.ring.callers () = .wait r id) :
    ∃ s', Leads (step zs zc) Onward s s' ∧ Waits zs zc start r id s' := by
  cases hq : s.ring.completions with
  | nil => exact ⟨s, .refl s, hi, hr, hc, hsel, hw, hq⟩
  | cons r1 rest =>
    have hrest : rest = [] := by
      have howner : ∀ r' ∈ s.ring.completions, r' = r := by
        intro r' hr'
        obtain ⟨g, id', hw', -⟩ := hi.solo.queued r' hr'
        rw [hw] at hw'
        cases hw'
        rfl
      have hnodup := hi.solo.queue_nodup
      rw [hq] at howner hnodup
      by_contra hne
      obtain ⟨r2, hr2⟩ := List.exists_mem_of_ne_nil _ hne
      rw [howner r1 List.mem_cons_self, ← howner r2 (List.mem_cons_of_mem _ hr2)] at hnodup
      exact (List.nodup_cons.mp hnodup).1 hr2
    have hstep : step zs zc s .takeCompletion =
        some { s with ring := { s.ring with completions := rest, run := .insert r1 } } := by
      simp only [step, State.ringStep, ring.step, hsel, hq, Option.map_some]
    have hkeep : ∀ t t', ring.SoloInv zc t → (t.callers () = .wait r id ∧ t.completions = []) →
        ring.Move zc t .run t' → t'.callers () = .wait r id ∧ t'.completions = [] := by
      rintro t t' - ⟨hcall, hnone⟩ hm
      cases hm with
      | pollTake h hc =>
        rw [hnone] at hc
        cases hc
      | _ => exact ⟨hcall, hnone⟩
    obtain ⟨s', hleads, hi', hr', hc', hsel', hw', hnone⟩ :=
      (endInv_step (a := .takeCompletion) hz hi trivial hstep).to_select hz hr hkeep ⟨hw, hrest⟩
    exact ⟨s', .head hstep ⟨trivial, rfl⟩ hleads, hi', hr', hc'.trans hc, hsel', hw', hnone⟩

/-- What a call waits for at that point is in flight, and the kernel has its entry. -/
theorem Waits.in_flight (h : Waits zs zc start r id s) (hnew : id ∉ s.ring.delivered) :
    ∃ (k slot : Nat) (e : submit_queue.SubmitEntry), s.sq.hist.executed[k]? = some (slot, e) ∧
      e.userData = id ∧ (s.ring.inflight.lookup id).isSome := by
  have hpending : s.pending = false := by
    simp [State.pending, ring.State.unsubmitted, h.accepted, h.handed, h.select, h.caller, h.taken,
      ring.Caller.early, ring.RunPc.submits]
  obtain ⟨-, hall⟩ := h.ready hpending
  obtain ⟨-, hid, hpos⟩ := h.last_id h.caller
  have hlen : s.sq.hist.executed.length = s.calls.length := by
    rw [← hall]
    exact h.filled.length
  have hx := List.getElem?_eq_getElem (by omega : s.calls.length - 1 < s.sq.hist.executed.length)
  obtain ⟨-, hxid⟩ := h.executed_userData hx
  rw [Nat.sub_add_cancel hpos, ← hid] at hxid
  refine ⟨_, _, _, hx, hxid, ?_⟩
  have := h.submitted _ (List.mem_of_getElem? hx)
  rw [hxid] at this
  exact this.resolve_left hnew

/-- The kernel completes the entry. -/
theorem Waits.answered (hz : 2 ≤ zs.slots) (h : Waits zs zc start r id s)
    (hnew : id ∉ s.ring.delivered) :
    ∃ s', Leads (step zs zc) Onward s s' ∧ Waits zs zc start r id s' ∧
      id ∈ s'.ring.queue.posted.map (·.userData) ∧ (s'.ring.inflight.lookup id).isSome := by
  obtain ⟨k, slot, e, hx, hid, hkey⟩ := h.in_flight hnew
  by_cases hposted : id ∈ s.ring.queue.posted.map (·.userData)
  · exact ⟨s, .refl s, h, hposted, hkey⟩
  · have hroom := (ownAnswers_of_callInv h.toCallInv).room k slot e 0 0 hx (by rwa [hid])
    obtain ⟨s', hstep⟩ := Option.isSome_iff_exists.mp hroom
    have hi' := endInv_step (a := .answer k 0 0) hz h.toEndInv trivial hstep
    refine ⟨s', .head hstep ⟨trivial, rfl⟩ (.refl s'), ?_⟩
    obtain ⟨x, hx', hpost⟩ := Option.bind_eq_some_iff.mp hstep
    obtain ⟨r', hm, rfl⟩ := ringStep_eq hpost
    cases hm with
    | post hq =>
      obtain ⟨-, hq⟩ := completion_queue.post_eq hq
      rw [hx] at hx'
      cases hx'
      refine ⟨⟨hi', h.accepted, h.handed, h.select, h.caller, h.taken⟩, ?_, hkey⟩
      rw [hq]
      simp [hid]

/-- The retry token starts the scan that delivers the answer. -/
theorem Waits.delivered (hz : 2 ≤ zs.slots) (h : Waits zs zc start r id s)
    (hposted : id ∈ s.ring.queue.posted.map (·.userData))
    (hkey : (s.ring.inflight.lookup id).isSome) :
    ∃ s', Leads (step zs zc) Onward s s' ∧ EndInv zs zc start s' ∧ s'.committed = none ∧
      s'.ring.callers () = .wait r id ∧ (s'.ring.heap r).done ≠ 0 := by
  have hsome : s.ring.inflight.entries ≠ [] := by
    intro hnone
    rw [ring.lookup_eq_none_of_entries hnone] at hkey
    cases hkey
  have htoken := h.returns.kept h.select hsome
  have hstep : step zs zc s .takeRetry = some { s with
      ring := { s.ring with retry := s.ring.retry - 1, run := .poll } } := by
    simp only [step, State.ringStep, ring.step, Option.map_some,
      if_pos (And.intro h.select (htoken ▸ Nat.zero_lt_one : 0 < s.ring.retry))]
  have hkeep : ∀ t t', ring.SoloInv zc t → (t.callers () = .wait r id ∧ ring.Finds id t) →
      ring.Move zc t .run t' → t'.callers () = .wait r id ∧ ring.Finds id t' := by
    rintro t t' hs ⟨hcall, hfinds⟩ hm
    refine ⟨?_, ring.finds_move hs hfinds hm⟩
    cases hm <;> exact hcall
  obtain ⟨s', hleads, hi', -, hc', hsel', hw', hfinds⟩ :=
    (endInv_step (a := .takeRetry) hz h.toEndInv trivial hstep).to_select hz h.accepted hkeep
      ⟨h.caller, Or.inr ⟨hkey, hposted, h.taken, trivial⟩⟩
  refine ⟨s', .head hstep ⟨trivial, rfl⟩ hleads, hi', hc'.trans h.handed, hw', ?_⟩
  rcases hfinds with hdel | ⟨-, -, -, hfinds⟩
  · exact hi'.returns.signalled r id hw' hdel
  · rw [hsel'] at hfinds
    exact hfinds.elim

/-- A call that waits gets its token. -/
theorem EndInv.signalled (hz : 2 ≤ zs.slots) (hi : EndInv zs zc start s) (hr : s.refused = false)
    (hc : s.committed = none) (hsel : s.ring.run = .select)
    (hw : s.ring.callers () = .wait r id) :
    ∃ s', Leads (step zs zc) Onward s s' ∧ EndInv zs zc start s' ∧ s'.committed = none ∧
      s'.ring.callers () = .wait r id ∧ (s'.ring.heap r).done ≠ 0 := by
  obtain ⟨s1, h1, hwaits⟩ := hi.taken_over hz hr hc hsel hw
  by_cases hdel : id ∈ s1.ring.delivered
  · exact ⟨s1, h1, hwaits.toEndInv, hwaits.handed, hwaits.caller,
      hwaits.returns.signalled r id hwaits.caller hdel⟩
  · obtain ⟨s2, h2, hwaits, hposted, hkey⟩ := hwaits.answered hz hdel
    obtain ⟨s3, h3, hend⟩ := hwaits.delivered hz hposted hkey
    exact ⟨s3, h1.trans (h2.trans h3), hend⟩

/-! ## The law -/

theorem EndInv.can_end (hz : 2 ≤ zs.slots) (hi : EndInv zs zc start s) (hr : s.refused = false) :
    ∃ s', Leads (step zs zc) Onward s s' ∧ EndInv zs zc start s' ∧ s'.committed = none ∧
      s'.ring.callers () = .idle := by
  obtain ⟨s1, h1, hi1, hr1, -, hsel1, -⟩ := hi.to_select (Q := fun _ => True) hz hr
    (fun _ _ _ _ _ => trivial) trivial
  obtain ⟨s2, h2, ⟨hi2, hr2, hsel2⟩, hc2, hearly2⟩ := hi1.hand_over hz hr1 hsel1
  have h12 := h1.trans h2
  by_cases hwait : ∃ r id, s2.ring.callers () = .wait r id
  · obtain ⟨r, id, hw⟩ := hwait
    obtain ⟨s3, h3, hi3, hc3, hw3, hdone⟩ := hi2.signalled hz hr2 hc2 hsel2 hw
    obtain ⟨s4, h4, hend⟩ := hi3.return_from hz hc3 (by rw [hw3]; rfl) (by
      intro r' id' hw'
      rw [hw3] at hw'
      cases hw'
      exact hdone)
    exact ⟨s4, h12.trans (h3.trans h4), hend⟩
  · obtain ⟨s3, h3, hend⟩ := hi2.return_from hz hc2 hearly2
      fun r id hw => absurd ⟨r, id, hw⟩ hwait
    exact ⟨s3, h12.trans h3, hend⟩

/-- Every call has returned exactly if none is under way. -/
theorem CallInv.returned_length (hi : CallInv zs zc start s) :
    s.returned.length = s.calls.length ↔ s.committed = none ∧ s.ring.callers () = .idle := by
  have hasked := congrArg List.length hi.asked
  have hresults := congrArg List.length hi.results
  simp only [List.length_append, List.length_map, List.length_range] at hasked hresults
  have hlen : s.returned.length = min s.calls.length s.ring.results.length :=
    List.length_zipWith
  rw [hlen]
  constructor
  · intro h
    have hc : s.committed.toList.length = 0 := by omega
    have hh : ((s.ring.callers ()).holds.map (·.2)).toList.length = 0 := by omega
    refine ⟨by simpa using hc, ?_⟩
    cases hcall : s.ring.callers () with
    | idle => rfl
    | _ => simp [hcall, ring.Caller.holds] at hh
  · rintro ⟨hc, hidle⟩
    simp only [hc, hidle, ring.Caller.holds, Option.map_none, Option.toList_none,
      List.length_nil] at hasked hresults
    omega

end iouring.blocking
