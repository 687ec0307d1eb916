-- Which completion slots `getCqe` gives back. A call that returns a count sends
-- its slot to the completer; a call that returns an error does not, and the
-- completer then waits for the slot forever.
import Iouring.FioResults

open counter machine
open iouring.completion_queue (CompletionEntry Window errnoOf)

namespace iouring.ring_fio

variable {ι : Type}

/-! ## The law and the steps that break it -/

/-- The entry of a call that has returned is acknowledged, once, by the slot it
is in; so when all calls have returned, nothing of theirs holds the head. -/
def GivenBack (z : Size) (s : State ι) : Prop :=
  (∀ x ∈ s.results, ∀ p, s.queue.idAt p = some x.1 → s.queue.acked.count p = 1) ∧
  (∀ g c x cqe, s.pc g = .complete c x cqe → Holds z s c.reqID x cqe) ∧
  ((∀ g, s.pc g = .idle) → ∀ p id, s.queue.idAt p = some id → id ∈ s.asked →
    s.queue.acked.count p = 1)

/-- A step that leaves an entry in the queue for good: a call finds a negative
result, the enter of a call fails though its entry is there, or the kernel posts
the entry of a call whose enter failed. -/
def leavesEntry (s : State ι) : Act ι → Bool
  | .post cqe => decide ((cqe.userData, Result.enterFailed) ∈ s.results)
  | .step g =>
    match (s.pc g).looks with
    | some (c, x) =>
      decide ((s.queue.cq.entries x).userData = c.reqID) && decide ((s.queue.cq.entries x).res < 0)
    | none => false
  | .fail g =>
    match (s.pc g).call with
    | some c => decide (c.reqID ∈ s.queue.posted.map (·.userData))
    | none => false
  | _ => false

def AckedStep (s : State ι) (a : Act ι) : Prop := leavesEntry s a = false

instance (s : State ι) (a : Act ι) : Decidable (AckedStep s a) :=
  inferInstanceAs (Decidable (_ = _))

/-! ## The invariant -/

/-- A goroutine is in the call for the id. -/
def Running (pc : ι → Pc) (id : UInt64) : Prop := ∃ g c, (pc g).call = some c ∧ c.reqID = id

structure AckInv (z : Size) (s : State ι) : Prop extends FioInv z s where
  /-- A call that was made runs or has returned. -/
  made : ∀ id ∈ s.asked, Running s.pc id ∨ id ∈ s.results.map (·.1)
  given : ∀ id ∈ s.results.map (·.1), ∀ p, s.queue.idAt p = some id → p ∈ s.queue.acked
  once : s.queue.acked.Nodup

theorem ackInv_init (z : Size) : AckInv z (init ι) where
  toFioInv := fioInv_init z
  made := by simp [init]
  given := by simp [init]
  once := List.nodup_nil

theorem givenBack_of_ackInv {z : Size} {s : State ι} (hi : AckInv z s) : GivenBack z s := by
  have honce : ∀ id ∈ s.results.map (·.1), ∀ p, s.queue.idAt p = some id →
      s.queue.acked.count p = 1 :=
    fun id hid p hat => List.count_eq_one_of_mem hi.once (hi.given id hid p hat)
  refine ⟨?_, ?_, ?_⟩
  · intro x hx
    exact honce x.1 (List.mem_map_of_mem hx)
  · intro g c x cqe h
    exact (hi.hit (g := g) (by rw [h]; rfl)).1
  · intro hidle p id hat hasked
    rcases hi.made id hasked with ⟨g, c, hcall, -⟩ | hid
    · rw [hidle g] at hcall
      cases hcall
    · exact honce id hid p hat

theorem mem_of_count_eq_one {l : List Nat} {p : Nat} (h : l.count p = 1) : p ∈ l := by
  apply List.count_pos_iff.mp
  rw [h]
  exact Nat.one_pos

/-- An id has an entry exactly if it was posted. -/
theorem exists_idAt_iff {q : completion_queue.State} {id : UInt64} :
    id ∈ q.posted.map (·.userData) ↔ ∃ p, q.idAt p = some id := by
  simp only [completion_queue.State.idAt, ← List.getElem?_map, List.mem_iff_getElem?]

/-- A call that has returned with an entry was found one in the queue. -/
theorem FioInv.posted_of_result {z : Size} {s : State ι} (hi : FioInv z s) {x : UInt64 × Result}
    (hx : x ∈ s.results) (hne : x.2 ≠ .enterFailed) : x.1 ∈ s.queue.posted.map (·.userData) := by
  obtain ⟨cqe, hcqe, hid, -⟩ := hi.results x hx hne
  rw [← hid]
  exact List.mem_map_of_mem hcqe

/-- The kernel posts an entry of a call that has not returned. -/
theorem AckInv.given_post {z : Size} {s : State ι} (hi : AckInv z s) {cqe : CompletionEntry}
    {q : completion_queue.State} (hq : completion_queue.post z s.queue cqe = some q)
    (hok : AckedStep s (.post cqe)) :
    ∀ id ∈ s.results.map (·.1), ∀ p, q.idAt p = some id → p ∈ q.acked := by
  obtain ⟨⟨-, hnew⟩, rfl⟩ := completion_queue.post_eq hq
  intro id hid p hat
  obtain ⟨x, hx, rfl⟩ := List.mem_map.mp hid
  rw [completion_queue.State.idAt, ← List.getElem?_map, List.map_append] at hat
  by_cases hlt : p < (s.queue.posted.map (·.userData)).length
  · rw [List.getElem?_append_left hlt, List.getElem?_map] at hat
    exact hi.given x.1 hid p hat
  · -- the new entry would be one of a call that has returned
    rw [List.getElem?_append_right (Nat.le_of_not_lt hlt)] at hat
    have heq : cqe.userData = x.1 := by
      simpa [eq_comm] using List.mem_of_getElem? hat
    exfalso
    by_cases hfail : x.2 = .enterFailed
    · have hmem : (cqe.userData, Result.enterFailed) ∈ s.results := by
        rw [heq, ← hfail]
        exact hx
      simp [AckedStep, leavesEntry, hmem] at hok
    · exact hnew (heq ▸ hi.posted_of_result hx hfail)

variable [DecidableEq ι]

/-- One goroutine moves on in its call, or its call has returned. -/
theorem made_update {s : State ι} {g : ι} {p : Pc} {results : List (UInt64 × Result)}
    (h : ∀ id ∈ s.asked, Running s.pc id ∨ id ∈ s.results.map (·.1))
    (hsub : s.results ⊆ results)
    (hcall : ∀ c, (s.pc g).call = some c → p.call = some c ∨ c.reqID ∈ results.map (·.1)) :
    ∀ id ∈ s.asked, Running (Function.update s.pc g p) id ∨ id ∈ results.map (·.1) := by
  intro id hid
  rcases h id hid with ⟨g', c, hc, rfl⟩ | hdone
  · by_cases hg : g' = g
    · subst hg
      rcases hcall c hc with hp | hdone
      · exact Or.inl ⟨g', c, by rwa [Function.update_self], rfl⟩
      · exact Or.inr hdone
    · exact Or.inl ⟨g', c, by rwa [Function.update_of_ne hg], rfl⟩
  · exact Or.inr (List.map_subset _ hsub hdone)

/-- A step of a call that returns nothing yet. -/
theorem AckInv.of_pc {z : Size} {s s' : State ι} (hi : AckInv z s) (hf : FioInv z s') {g : ι}
    {p : Pc} (hpc : s'.pc = Function.update s.pc g p) (hp : p.call = (s.pc g).call)
    (hqueue : s'.queue = s.queue) (hasked : s'.asked = s.asked)
    (hresults : s'.results = s.results) : AckInv z s' := by
  refine { hf with made := ?_, given := ?_, once := ?_ }
  · rw [hasked, hpc, hresults]
    exact made_update hi.made (List.Subset.refl _) fun c hc => Or.inl (hp.trans hc)
  · rw [hresults, hqueue]
    exact hi.given
  · rw [hqueue]
    exact hi.once

theorem ackInv_move {z : Size} {s s' : State ι} {a : Act ι} (hi : AckInv z s)
    (hwritten : WrittenStep s a) (hok : AckedStep s a) (hm : Move z s a s') : AckInv z s' := by
  have hf := fioInv_move hi.toFioInv hwritten hm
  cases hm with
  | @post cqe q hq =>
    refine { hf with made := hi.made, given := hi.given_post hq hok, once := ?_ }
    obtain ⟨-, rfl⟩ := completion_queue.post_eq hq
    exact hi.once
  | @completer q hq =>
    obtain ⟨hposted, hacked, -, -⟩ := completion_queue.completerStep_frame hq
    refine { hf with made := hi.made, given := ?_, once := ?_ }
    · simp only [completion_queue.State.idAt, hposted, hacked]
      exact hi.given
    · rw [hacked]
      exact hi.once
  | @start g c p h hid hp hrange hhit =>
    refine { hf with made := ?_, given := hi.given, once := hi.once }
    have hold := made_update (p := p) hi.made (List.Subset.refl _) (g := g) fun c' hc' => by
      rw [h] at hc'
      cases hc'
    refine List.forall_mem_append.mpr ⟨hold, List.forall_mem_singleton.mpr (Or.inl ?_)⟩
    exact ⟨g, c, by simpa only [Function.update_self] using hp, rfl⟩
  | @search g c p h hp hrange hhit => exact hi.of_pc hf rfl (hp.trans h.symm) rfl rfl rfl
  | @fail g c h =>
    refine { hf with made := ?_, given := ?_, once := hi.once }
    · refine made_update hi.made (List.subset_append_left ..) fun c' hc' => Or.inr ?_
      rw [h] at hc'
      cases hc'
      simp
    · rw [List.map_append]
      refine List.forall_mem_append.mpr ⟨hi.given, List.forall_mem_singleton.mpr fun p hat => ?_⟩
      have hmem := exists_idAt_iff.mpr ⟨p, hat⟩
      simp [AckedStep, leavesEntry, h, Pc.call, List.mem_map.mp hmem] at hok
  | @findError g c x h hid hres => simp [AckedStep, leavesEntry, h, hid, hres] at hok
  | @find g c x h hid hres =>
    exact hi.of_pc hf rfl (Pc.call_of_looks h).symm rfl rfl rfl
  | @loadOffset g c x cqe h => exact hi.of_pc hf rfl (by rw [h]; rfl) rfl rfl rfl
  | @storeOffset g c x cqe offset h => exact hi.of_pc hf rfl (by rw [h]; rfl) rfl rfl rfl
  | @complete g c x cqe q h hq =>
    obtain ⟨p, hp, hid, hat, hposted, hidx, hack⟩ := hi.send h hq
    obtain ⟨⟨hlt, hnew⟩, heq⟩ := completion_queue.ack_eq hack
    have hacked : q.acked = s.queue.acked := by
      have := congrArg (·.acked) heq
      simpa using this
    obtain ⟨H, hw⟩ := hi.window
    refine { hf with made := ?_, given := ?_, once := ?_ }
    · refine made_update hi.made (List.subset_append_left ..) fun c' hc' => Or.inr ?_
      rw [h] at hc'
      cases hc'
      simp
    · simp only [completion_queue.State.idAt, hposted, hacked, hidx, List.map_append]
      refine List.forall_mem_append.mpr ⟨?_, List.forall_mem_singleton.mpr ?_⟩
      · intro id hdone p' hat'
        exact List.mem_append_left _ (hi.given id hdone p' hat')
      · intro p' hat'
        have hp' : p' = p := (hw.idxOf_idAt hat').symm.trans hidx
        rw [hp']
        simp
    · rw [hposted, hidx, hacked]
      exact List.nodup_append.mpr ⟨hi.once, List.nodup_singleton _, by
        rintro a ha b hb rfl
        rw [List.mem_singleton.mp hb] at ha
        exact hnew ha⟩

/-! ## The law -/

/-- A call that finds a negative result returns it at once. -/
theorem stepPc_findError {z : Size} {s : State ι} {g : ι} {c : Call} {x : Nat}
    (h : (s.pc g).looks = some (c, x)) (hid : (s.queue.cq.entries x).userData = c.reqID)
    (hres : (s.queue.cq.entries x).res < 0) :
    stepPc z s g = some { s with
      found := s.found ++ [c.reqID]
      pc := Function.update s.pc g .idle
      results := s.results ++ [(c.reqID, Result.errno (errnoOf (s.queue.cq.entries x).res))] } := by
  cases hpc : s.pc g <;> rw [hpc] at h <;> cases h
  · simp only [stepPc, hpc, look, hid, if_true, hres]
    rfl
  · simp only [stepPc, hpc, look, hid, if_true, hres]
    rfl

/-- A step to a state in which every returned call has given its slot back is
none of those that leave an entry. -/
theorem ackedStep_of_givenBack {z : Size} {s s' : State ι} {a : Act ι} (hi : AckInv z s)
    (hwritten : WrittenStep s a) (hs : step z s a = some s') (hgiven : GivenBack z s') :
    AckedStep s a := by
  unfold AckedStep
  rw [← Bool.not_eq_true]
  intro hleaves
  cases a with
  | post cqe =>
    simp only [leavesEntry, decide_eq_true_eq] at hleaves
    obtain ⟨q, hq, rfl⟩ := Option.map_eq_some_iff.mp hs
    obtain ⟨-, rfl⟩ := completion_queue.post_eq hq
    have hcount := hgiven.1 _ hleaves s.queue.posted.length (by simp [completion_queue.State.idAt])
    obtain ⟨H, hw⟩ := hi.window
    exact Nat.lt_irrefl _ (hw.acked_lt _ (mem_of_count_eq_one hcount))
  | completer => cases hleaves
  | getCqe g c => cases hleaves
  | step g =>
    cases hlooks : (s.pc g).looks with
    | none => simp [leavesEntry, hlooks] at hleaves
    | some cx =>
      obtain ⟨c, x⟩ := cx
      simp only [leavesEntry, hlooks, Bool.and_eq_true, decide_eq_true_eq] at hleaves
      obtain ⟨hid, hres⟩ := hleaves
      have hstep := stepPc_findError (z := z) hlooks hid hres
      obtain rfl : _ = s' := Option.some.inj (hstep.symm.trans hs)
      obtain ⟨-, p, hp, -⟩ := hi.holds_of_match hwritten hlooks hid
      have hat : s.queue.idAt p = some c.reqID := by
        rw [completion_queue.State.idAt, hp, ← hid]
        rfl
      have hcount :=
        hgiven.1 (c.reqID, Result.errno (errnoOf (s.queue.cq.entries x).res)) (by simp) p hat
      exact hi.not_acked (Pc.call_of_looks hlooks) hat (mem_of_count_eq_one hcount)
  | fail g =>
    cases step_move hs with
    | @fail _ c h =>
      simp only [leavesEntry, h, Pc.call, decide_eq_true_eq] at hleaves
      obtain ⟨p, hat⟩ := exists_idAt_iff.mp hleaves
      have hcount := hgiven.1 (c.reqID, .enterFailed) (by simp) p hat
      exact hi.not_acked (g := g) (by rw [h]; rfl) hat (mem_of_count_eq_one hcount)

/-- Among the runs in which no call for id 0 compares a slot that the kernel
never wrote to, every call that has returned has given its slot back exactly if
no call found an error, and no enter failed of a call whose entry was posted. -/
theorem slots_are_given_back_iff_no_call_fails (z : Size) (as : List (Act ι))
    (h : Along (step z) WrittenStep (init ι) as) :
    Always (step z) (GivenBack z) (init ι) as ↔ Along (step z) AckedStep (init ι) as := by
  have hstep : ∀ (s : State ι) a s', AckInv z s → WrittenStep s a → AckedStep s a →
      step z s a = some s' → AckInv z s' :=
    fun s a s' hi hw hok hs => ackInv_move hi hw hok (step_move hs)
  have hback : ∀ (s : State ι) a s', AckInv z s → WrittenStep s a → step z s a = some s' →
      GivenBack z s' → AckedStep s a :=
    fun s a s' hi hw hs hg => ackedStep_of_givenBack hi hw hs hg
  exact always_iff_along_of hstep (fun _ => givenBack_of_ackInv) hback (ackInv_init z) h

/-- A call for an id whose entry the kernel posts at once, with the steps that the
call takes. -/
def callActs (g : ι) (id : UInt64) (res : Int32) (steps : Nat) : List (Act ι) :=
  [Act.getCqe g ⟨0, id, 1, 1⟩, .post ⟨id, res, 0⟩] ++ List.replicate steps (Act.step g)

/-- Three calls without an error on a ring of two: every slot is given back, and
the third entry finds room. -/
theorem calls_without_errors_give_their_slots_back :
    Always (step ⟨1, by decide⟩) (GivenBack ⟨1, by decide⟩) (init (Fin 1))
        (callActs 0 1 5 7 ++ List.replicate 3 Act.completer ++ callActs 0 2 6 7 ++
          List.replicate 3 Act.completer ++ callActs 0 3 7 7) ∧
      (run (step ⟨1, by decide⟩) (init (Fin 1))
        (callActs 0 1 5 7 ++ List.replicate 3 Act.completer ++ callActs 0 2 6 7 ++
          List.replicate 3 Act.completer ++ callActs 0 3 7 7)).map
        (fun s => (s.results, s.queue.acked)) =
        some ([(1, .count 5), (2, .count 6), (3, .count 7)], [0, 1, 2]) :=
  ⟨(slots_are_given_back_iff_no_call_fails _ _ (by decide)).mpr (by decide), by decide⟩

/-- A call that fails on a ring of two has returned its error and not sent its
slot, so the entry of the next call fills the queue. The next call compares
slot 0 only and is back at the start of its search, the completer has nothing to
do and the kernel has no room. -/
theorem a_failed_call_holds_the_head :
    (run (step ⟨1, by decide⟩) (init (Fin 1)) (callActs 0 1 (-5) 4 ++ callActs 0 2 7 4)).map
      (fun s => (s.results, s.queue.acked, s.pc 0,
        (completion_queue.completerStep ⟨1, by decide⟩ s.queue).isNone,
        (completion_queue.post ⟨1, by decide⟩ s.queue ⟨3, 0, 0⟩).isNone)) =
      some ([(1, .errno 5)], [], .loadHead ⟨0, 2, 1, 1⟩, true, true) := by
  decide

end iouring.ring_fio
