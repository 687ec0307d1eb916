-- What a failed file operation does to the ring. Its call returns without giving the slot
-- back, so `Head` never passes its entry: the kernel has room for as many entries as the queue
-- has slots from there on, and when they are there, the queue is full. A search takes a full
-- queue for an empty one and looks at the failed entry only, so no search ends any more.
import Iouring.FioAcks

open counter machine
open iouring.completion_queue (CompletionEntry Window)

namespace iouring.ring_fio

variable {ι : Type} {z : Size} {s s' : State ι} {a : Act ι}

/-! ## Calls that have returned -/

/-- Nobody is in a call for an id whose call has returned, and if it has returned an error, its
entry is not acknowledged. -/
structure EndedInv (z : Size) (s : State ι) : Prop extends FioInv z s where
  ended : ∀ x ∈ s.results, x.1 ∈ s.asked ∧ ∀ g c, (s.pc g).call = some c → c.reqID ≠ x.1
  left : ∀ id e, (id, Result.errno e) ∈ s.results →
    ∀ p, s.queue.idAt p = some id → p ∉ s.queue.acked

theorem endedInv_init (z : Size) : EndedInv z (init ι) where
  toFioInv := fioInv_init z
  ended := by simp [init]
  left := by simp [init]

variable [DecidableEq ι]

/-- A call returns: nobody else is in a call for its id. -/
theorem EndedInv.ended_return (hi : EndedInv z s) {g : ι} {c : Call}
    (hcall : (s.pc g).call = some c) (r : Result) :
    ∀ x ∈ s.results ++ [(c.reqID, r)], x.1 ∈ s.asked ∧
      ∀ g' c', (Function.update s.pc g .idle g').call = some c' → c'.reqID ≠ x.1 := by
  have hother : ∀ g' c', (Function.update s.pc g .idle g').call = some c' →
      g' ≠ g ∧ (s.pc g').call = some c' := by
    intro g' c' hc'
    rcases update_cases hc' with ⟨-, hc'⟩ | h
    · cases hc'
    · exact h
  refine List.forall_mem_append.mpr ⟨fun x hx => ?_, List.forall_mem_singleton.mpr ?_⟩
  · obtain ⟨hasked, hapart⟩ := hi.ended x hx
    exact ⟨hasked, fun g' c' hc' => hapart g' c' (hother g' c' hc').2⟩
  · refine ⟨hi.asked hcall, fun g' c' hc' heq => ?_⟩
    obtain ⟨hne, hc'⟩ := hother g' c' hc'
    exact hne (hi.distinct hc' hcall heq)

theorem EndedInv.ended_move (hi : EndedInv z s) (hm : Move z s a s') :
    ∀ x ∈ s'.results, x.1 ∈ s'.asked ∧ ∀ g c, (s'.pc g).call = some c → c.reqID ≠ x.1 := by
  -- a goroutine goes on in its call
  have hsame : ∀ {g p}, p.call = (s.pc g).call → ∀ x ∈ s.results, x.1 ∈ s.asked ∧
      ∀ g' c', (Function.update s.pc g p g').call = some c' → c'.reqID ≠ x.1 := by
    intro g p hp x hx
    obtain ⟨hasked, hapart⟩ := hi.ended x hx
    refine ⟨hasked, fun g' c' hc' => hapart g' c' ?_⟩
    rwa [update_same hp] at hc'
  cases hm with
  | post | completer => exact hi.ended
  | @start g c p h hid hp hrange hhit =>
    intro x hx
    obtain ⟨hasked, hapart⟩ := hi.ended x hx
    refine ⟨List.mem_append_left _ hasked, fun g' c' hc' heq => ?_⟩
    rcases update_cases hc' with ⟨-, hc'⟩ | ⟨-, hc'⟩
    · rw [hp] at hc'
      cases hc'
      exact hid (heq ▸ hasked)
    · exact hapart g' c' hc' heq
  | search h hp => exact hsame (hp.trans h.symm)
  | find h => exact hsame (Pc.call_of_looks h).symm
  | loadOffset h | storeOffset h => exact hsame (by rw [h]; rfl)
  | fail h | complete h => exact hi.ended_return (by rw [h]; rfl) _
  | findError h => exact hi.ended_return (Pc.call_of_looks h) _

theorem EndedInv.left_move (hi : EndedInv z s) (hm : Move z s a s') :
    ∀ id e, (id, Result.errno e) ∈ s'.results →
      ∀ p, s'.queue.idAt p = some id → p ∉ s'.queue.acked := by
  obtain ⟨H, hw⟩ := hi.window
  cases hm with
  | @post cqe q h =>
    obtain ⟨-, rfl⟩ := completion_queue.post_eq h
    intro id e hx p hat hacked
    have hlt := hw.acked_lt p hacked
    refine hi.left id e hx p ?_ hacked
    rwa [completion_queue.State.idAt, List.getElem?_append_left hlt] at hat
  | completer h =>
    obtain ⟨hposted, hacked, -⟩ := completion_queue.completerStep_frame h
    simp only [completion_queue.State.idAt, hposted, hacked]
    exact hi.left
  | @fail g c h =>
    intro id e hx
    rcases List.mem_append.mp hx with hx | hx
    · exact hi.left id e hx
    · cases List.mem_singleton.mp hx
  | @findError g c x h hid hres =>
    intro id e hx
    rcases List.mem_append.mp hx with hx | hx
    · exact hi.left id e hx
    · intro p hat
      cases List.mem_singleton.mp hx
      exact hi.not_acked (Pc.call_of_looks h) hat
  | @complete g c x cqe q h hq =>
    obtain ⟨p0, -, -, hat0, hposted, hidx, hack⟩ := hi.send h hq
    obtain ⟨-, heq⟩ := completion_queue.ack_eq hack
    have hacked : q.acked ++ [p0] = s.queue.acked ++ [p0] := congrArg (·.acked) heq
    intro id e hx p hat
    have hold : (id, Result.errno e) ∈ s.results := by
      rcases List.mem_append.mp hx with hx | hx
      · exact hx
      · cases List.mem_singleton.mp hx
    have hat' : s.queue.idAt p = some id := by
      simpa only [completion_queue.State.idAt, hposted] using hat
    simp only [hposted, hidx, hacked, List.mem_append, List.mem_singleton, not_or]
    refine ⟨hi.left id e hold p hat', ?_⟩
    -- what is acknowledged now is the entry of a call that was running
    rintro rfl
    rw [hat0] at hat'
    cases hat'
    exact (hi.ended _ hold).2 g c (by rw [h]; rfl) rfl
  | _ => exact hi.left

theorem endedInv_move (hi : EndedInv z s) (hok : WrittenStep s a) (hm : Move z s a s') :
    EndedInv z s' :=
  ⟨fioInv_move hi.toFioInv hok hm, hi.ended_move hm, hi.left_move hm⟩

/-! ## The entry of a failed call -/

section

variable {p : Nat} {id : UInt64} {g : ι} {c : Call}

/-- The entry at `p` is that of a call for `id` that has returned an error. -/
structure FailedAt (z : Size) (p : Nat) (id : UInt64) (s : State ι) : Prop
    extends EndedInv z s where
  entry : s.queue.idAt p = some id
  failed : ∃ e, (id, Result.errno e) ∈ s.results

/-- `Head` does not pass the entry, and the kernel has room for as many entries as the queue
has slots from it on. -/
structure Limited (z : Size) (p : Nat) (s : State ι) : Prop where
  head : s.queue.headPos ≤ p
  room : s.queue.posted.length ≤ p + z.slots

omit [DecidableEq ι] in
theorem FailedAt.window_at (hf : FailedAt z p id s) :
    ∃ H, Window z (fun _ => False) s.queue H ∧ H ≤ p := by
  obtain ⟨H, hw⟩ := hf.window
  obtain ⟨e, he⟩ := hf.failed
  exact ⟨H, hw, hw.head_le_of (hf.left id e he p hf.entry) not_false⟩

omit [DecidableEq ι] in
theorem FailedAt.limited (hf : FailedAt z p id s) : Limited z p s := by
  obtain ⟨H, hw, hle⟩ := hf.window_at
  have hroom := hw.room
  exact ⟨by rw [hw.headPos_eq]; exact hle, by omega⟩

/-- Entries and results only come in addition. -/
theorem grows_move (hm : Move z s a s') :
    (∃ l, s'.queue.posted = s.queue.posted ++ l) ∧ ∃ l, s'.results = s.results ++ l := by
  cases hm with
  | post h =>
    obtain ⟨-, rfl⟩ := completion_queue.post_eq h
    exact ⟨⟨_, rfl⟩, [], (List.append_nil _).symm⟩
  | completer h =>
    obtain ⟨hposted, -⟩ := completion_queue.completerStep_frame h
    exact ⟨⟨[], by rw [hposted, List.append_nil]⟩, [], (List.append_nil _).symm⟩
  | complete h hq =>
    simp only [completion_queue.complete, Option.ite_none_right_eq_some, Option.some.injEq] at hq
    obtain ⟨-, rfl⟩ := hq
    exact ⟨⟨[], (List.append_nil _).symm⟩, _, rfl⟩
  | fail | findError => exact ⟨⟨[], (List.append_nil _).symm⟩, _, rfl⟩
  | _ => exact ⟨⟨[], (List.append_nil _).symm⟩, [], (List.append_nil _).symm⟩

theorem failedAt_move (hf : FailedAt z p id s) (hok : WrittenStep s a) (hm : Move z s a s') :
    FailedAt z p id s' := by
  obtain ⟨⟨l, hposted⟩, l', hresults⟩ := grows_move hm
  obtain ⟨e, he⟩ := hf.failed
  refine ⟨endedInv_move hf.toEndedInv hok hm, completion_queue.idAt_append hposted hf.entry, e, ?_⟩
  rw [hresults]
  exact List.mem_append_left _ he

/-! ## A search in the full queue -/

/-- Where a search stands that sees the slot of position `p` only. -/
def Pc.circles (z : Size) (p : Nat) (c : Call) (pc : Pc) : Prop :=
  pc = .loadHead c ∨ pc = .loadTail c (word p) ∨ pc = .first c (p % z.slots) (p % z.slots)

theorem Pc.call_of_circles {pc : Pc} (h : pc.circles z p c) : pc.call = some c := by
  rcases h with rfl | rfl | rfl <;> rfl

/-- The queue is full from the failed entry on, and a call is in its search. -/
structure Circling (z : Size) (p : Nat) (id : UInt64) (g : ι) (c : Call) (s : State ι) : Prop
    extends FailedAt z p id s where
  full : s.queue.posted.length = p + z.slots
  circles : (s.pc g).circles z p c

omit [DecidableEq ι] in
theorem Circling.words (h : Circling z p id g c s) :
    s.queue.cq.head = word p ∧ (s.queue.cq.tail &&& z.mask).toNat = p % z.slots ∧
      (s.queue.cq.entries (p % z.slots)).userData = id := by
  obtain ⟨H, hw, hle⟩ := h.window_at
  have hroom := hw.room
  have hfull := h.full
  obtain rfl : H = p := by omega
  refine ⟨hw.head, ?_, ?_⟩
  · rw [hw.tail, word_slot, hfull, Nat.add_mod_right]
  · obtain ⟨cqe, hcqe, rfl⟩ := Option.map_eq_some_iff.mp h.entry
    rw [hw.slot H cqe hcqe hw.room]

theorem Circling.own_step (h : Circling z p id g c s) (hs : stepPc z s g = some s') :
    (s'.pc g).circles z p c := by
  obtain ⟨hhead, htail, hid⟩ := h.words
  obtain ⟨e, he⟩ := h.failed
  have hne : c.reqID ≠ id := (h.ended _ he).2 g c (Pc.call_of_circles h.circles)
  unfold stepPc at hs
  rcases h.circles with hpc | hpc | hpc <;> rw [hpc] at hs
  · cases hs
    simp [State.goto, Pc.circles, hhead]
  · cases hs
    simp only [State.goto, Function.update_self, Pc.circles, htail, word_slot, or_true]
  · have hmiss : (s.queue.cq.entries (p % z.slots)).userData ≠ c.reqID := by
      rw [hid]
      exact hne.symm
    simp only [look, if_neg hmiss, if_true] at hs
    cases hs
    simp [State.goto, Pc.circles]

/-- The steps of the others leave the search where it stands. -/
theorem Circling.other_step (h : Circling z p id g c s) (ha : a ≠ .step g) (hm : Move z s a s') :
    s'.pc g = s.pc g := by
  have hcall := Pc.call_of_circles h.circles
  cases hm with
  | post | completer => rfl
  | @start g' c' p' hidle =>
    refine Function.update_of_ne ?_ ..
    rintro rfl
    rw [hidle] at hcall
    cases hcall
  | @fail g' c' hpc =>
    -- a call whose enter fails has not started its search
    refine Function.update_of_ne ?_ ..
    rintro rfl
    rcases h.circles with h' | h' | h' <;> rw [hpc] at h' <;> cases h'
  | _ =>
    refine Function.update_of_ne ?_ ..
    rintro rfl
    exact ha rfl

theorem circling_step (h : Circling z p id g c s) (hok : WrittenStep s a)
    (hs : step z s a = some s') : Circling z p id g c s' := by
  have hm := step_move hs
  have hf := failedAt_move h.toFailedAt hok hm
  refine ⟨hf, ?_, ?_⟩
  · obtain ⟨⟨l, hposted⟩, -⟩ := grows_move hm
    have hroom := hf.limited.room
    have hfull := h.full
    rw [hposted, List.length_append] at hroom ⊢
    omega
  · by_cases ha : a = .step g
    · subst ha
      exact h.own_step hs
    · rw [h.other_step ha hm]
      exact h.circles

end

/-! ## The law -/

/-- For any number of goroutines, after a call has returned an error for the entry at position
`p`: in every run from there, the kernel never posts more than as many entries as the queue has
slots from `p` on; and once it has posted them, no call whose search starts over ends. -/
theorem a_failed_call_jams_the_ring (z : Size) (as : List (Act ι)) {s : State ι}
    (hok : Along (step z) WrittenStep (init ι) as) (hrun : run (step z) (init ι) as = some s)
    {p : Nat} {cqe : CompletionEntry} {e : UInt64} (hp : s.queue.posted[p]? = some cqe)
    (hfailed : (cqe.userData, .errno e) ∈ s.results) (bs : List (Act ι))
    (hoks : Along (step z) WrittenStep s bs) :
    Always (step z) (Limited z p) s bs ∧
      (s.queue.posted.length = p + z.slots → ∀ g c, s.pc g = .loadHead c →
        Always (step z) (fun s' => (s'.pc g).call = some c) s bs) := by
  have hended : EndedInv z s := run_invariant
    (fun _ _ _ hi hok h => endedInv_move hi hok (step_move h)) (endedInv_init z) hok hrun
  have hf : FailedAt z p cqe.userData s :=
    ⟨hended, by rw [completion_queue.State.idAt, hp]; rfl, e, hfailed⟩
  constructor
  · exact Along.always (fun _ _ _ hi hok h => failedAt_move hi hok (step_move h))
      (fun _ hi => hi.limited) hf hoks
  · intro hfull g c hpc
    exact Along.always (fun _ _ _ hi hok h => circling_step hi hok h)
      (fun _ hi => Pc.call_of_circles hi.circles) ⟨hf, hfull, Or.inl hpc⟩ hoks

/-- The first call on a ring of two fails. The entry of the second call is there, and the call
is still in its search eight steps later. -/
theorem a_failed_call_on_a_ring_of_two :
    ∃ s, run (step ⟨1, by decide⟩) (init (Fin 1)) (callActs 0 1 (-5) 4 ++ callActs 0 2 7 4) =
        some s ∧
      s.queue.posted = [⟨1, -5, 0⟩, ⟨2, 7, 0⟩] ∧ s.results = [(1, .errno 5)] ∧
      Always (step ⟨1, by decide⟩) (Limited ⟨1, by decide⟩ 0) s (List.replicate 8 (Act.step 0)) ∧
      Always (step ⟨1, by decide⟩) (fun s' => (s'.pc 0).call = some ⟨0, 2, 1, 1⟩) s
        (List.replicate 8 (Act.step 0)) := by
  obtain ⟨s, hrun, hposted, hresults, hpc, hoks⟩ :
      ∃ s, run (step ⟨1, by decide⟩) (init (Fin 1)) (callActs 0 1 (-5) 4 ++ callActs 0 2 7 4) =
          some s ∧ s.queue.posted = [⟨1, -5, 0⟩, ⟨2, 7, 0⟩] ∧ s.results = [(1, .errno 5)] ∧
        s.pc 0 = .loadHead ⟨0, 2, 1, 1⟩ ∧
        Along (step ⟨1, by decide⟩) WrittenStep s (List.replicate 8 (Act.step 0)) :=
    ⟨_, rfl, by decide, by decide, by decide, by decide⟩
  have hentry : s.queue.posted[0]? = some ⟨1, -5, 0⟩ := by rw [hposted]; rfl
  have hfailed : ((1 : UInt64), Result.errno 5) ∈ s.results := by rw [hresults]; decide
  obtain ⟨hlimited, hjam⟩ :=
    a_failed_call_jams_the_ring ⟨1, by decide⟩ _ (by decide) hrun hentry hfailed _ hoks
  exact ⟨s, hrun, hposted, hresults, hlimited, hjam (by rw [hposted]; rfl) 0 _ hpc⟩

end iouring.ring_fio
