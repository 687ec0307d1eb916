-- A call of `onEntry` that nobody interrupts, as steps of `Ring.run`: they leave
-- the ring as the function of the call says.
import Iouring.OnEntry

open counter machine
open iouring.completion_queue (CompletionEntry CompletionQueue)

namespace iouring.ring

variable {ι : Type} [DecidableEq ι] {z : Size} {s : State ι} {k k' : Handled}

/-- The four steps of a delivery. -/
theorem give_repeats {sc : Scan} {r : Nat} {cqe : CompletionEntry} (h : s.run = .setRes sc r cqe)
    (hroom : (s.heap r).done < doneCap) :
    Repeats (step z) .run s { s with
      heap := Function.update s.heap r ((s.heap r).given cqe)
      inflight := s.inflight.erase (s.heap r).id
      delivered := s.delivered ++ [cqe.userData]
      run := Scan.advance z sc } := by
  have hres : step z s .run = some { s with
      heap := Function.update s.heap r { s.heap r with res := cqe.res }
      run := .setFlags sc r cqe } := by
    simp only [step, runStep, h]
    rfl
  have hflags : step z { s with
      heap := Function.update s.heap r { s.heap r with res := cqe.res }
      run := .setFlags sc r cqe } .run = some { s with
        heap := Function.update s.heap r { s.heap r with res := cqe.res, flags := cqe.flags }
        run := .done sc r cqe } := by
    simp [step, runStep, State.setRequest]
  have hdone : step z { s with
      heap := Function.update s.heap r { s.heap r with res := cqe.res, flags := cqe.flags }
      run := .done sc r cqe } .run = some { s with
        heap := Function.update s.heap r ((s.heap r).given cqe)
        delivered := s.delivered ++ [cqe.userData]
        run := .delete sc r cqe } := by
    simp [step, runStep, State.setRequest, hroom, CompletionRequest.given]
  have hdelete : step z { s with
      heap := Function.update s.heap r ((s.heap r).given cqe)
      delivered := s.delivered ++ [cqe.userData]
      run := .delete sc r cqe } .run = some { s with
        heap := Function.update s.heap r ((s.heap r).given cqe)
        inflight := s.inflight.erase (s.heap r).id
        delivered := s.delivered ++ [cqe.userData]
        run := Scan.advance z sc } := by
    simp [step, runStep, CompletionRequest.given]
  exact .head hres (.head hflags (.head hdone (.single hdelete)))

/-- The ring while `onEntry` has come as far as `k` says. -/
def State.handled (s : State ι) (k : Handled) (p : RunPc) : State ι :=
  { s with
    inflight := k.inflight
    heap := k.heap
    delivered := s.delivered ++ k.slots.map fun x => (s.queue.cq.entries x).userData
    run := p }

/-- The scan of the steps that belongs to a loop at index `i`. -/
abbrev Handled.scan (k : Handled) (cq : CompletionQueue) (second : Bool) (i : Nat) : Scan :=
  ⟨cq.head, cq.tail, second, i, k.seen, k.seenIdx⟩

/-- The body of a loop as steps. -/
theorem deliver_repeats (second : Bool) {i : Nat}
    (h : deliver s.queue.cq.entries k i = some k') :
    Repeats (step z) .run (s.handled k (.slot (k.scan s.queue.cq second i)))
      (s.handled k' (Scan.advance z (k'.scan s.queue.cq second i))) := by
  cases hl : k.inflight.lookup (s.queue.cq.entries i).userData with
  | none =>
    rw [deliver_of_none hl] at h
    cases h
    apply Relation.TransGen.single
    simp only [step, runStep, State.handled]
    rw [readSlot_miss hl]
  | some r =>
    rw [deliver_of_some hl, Option.ite_none_right_eq_some] at h
    obtain ⟨hroom, h⟩ := h
    cases h
    have hslot : step z (s.handled k (.slot (k.scan s.queue.cq second i))) .run =
        some (s.handled k (.setRes { k.scan s.queue.cq second i with
          seenIdx := if k.seen then k.seenIdx + 1 else k.seenIdx } r (s.queue.cq.entries i))) := by
      simp only [step, runStep, State.handled]
      rw [readSlot_hit hl]
    refine .head hslot ?_
    have hgive := give_repeats (z := z) (s := s.handled k (.setRes
      { k.scan s.queue.cq second i with
        seenIdx := if k.seen then k.seenIdx + 1 else k.seenIdx } r (s.queue.cq.entries i)))
      rfl hroom
    simpa [State.handled, List.append_assoc] using hgive

/-- The ring after `onEntry`. -/
def State.stored (s : State ι) (k : Handled) : State ι :=
  { s.handled k .lenInflight with queue := { s.queue with cq := (k.store s.queue.cq).1 } }

theorem storeHead_repeats {second : Bool} {i : Nat} :
    Repeats (step z) .run (s.handled k (.storeHead (k.scan s.queue.cq second i))) (s.stored k) :=
  .single rfl

section Advance

variable {cq : CompletionQueue} {i : Nat}

/-- The end of a turn of the first loop at the slot of `Tail`. -/
theorem advance_last (hi : i = (cq.tail &&& z.mask).toNat) :
    Scan.advance z (k.scan cq false i) = .storeHead (k.scan cq false i) := by
  simp only [Scan.advance, Bool.false_eq_true, if_false, if_pos hi]

theorem advance_next (hi : i ≠ (cq.tail &&& z.mask).toNat) (hlt : i + 1 < z.slots) :
    Scan.advance z (k.scan cq false i) = .slot (k.scan cq false (i + 1)) := by
  simp only [Scan.advance, Bool.false_eq_true, if_false, if_neg hi, if_pos hlt]

/-- The end of the first loop. -/
theorem advance_wrap (hi : i ≠ (cq.tail &&& z.mask).toNat) (hlt : ¬ i + 1 < z.slots) :
    Scan.advance z (k.scan cq false i) =
      if 0 < (cq.tail &&& z.mask).toNat then .slot ({ k with seen := true }.scan cq true 0)
      else .storeHead ({ k with seen := true }.scan cq true 0) := by
  simp only [Scan.advance, Bool.false_eq_true, if_false, if_neg hi, if_neg hlt]

theorem advance_second :
    Scan.advance z (k.scan cq true i) =
      if i + 1 < (cq.tail &&& z.mask).toNat then .slot (k.scan cq true (i + 1))
      else .storeHead (k.scan cq true i) := by
  simp only [Scan.advance, if_true]

end Advance

/-- The first loop as steps: they come to the end of the call or to the second
loop. -/
theorem firstLoop_repeats {turns i : Nat} {last : Bool} (hturns : 0 < turns)
    (hi : i + turns = z.slots)
    (h : firstLoop s.queue.cq.entries (s.queue.cq.tail &&& z.mask).toNat turns i k =
      some (k', last)) :
    Repeats (step z) .run (s.handled k (.slot (k.scan s.queue.cq false i)))
      (if last then s.stored k'
      else if 0 < (s.queue.cq.tail &&& z.mask).toNat then
        s.handled { k' with seen := true } (.slot ({ k' with seen := true }.scan s.queue.cq true 0))
      else s.stored { k' with seen := true }) := by
  induction turns generalizing i k with
  | zero => omega
  | succ turns ih =>
    rw [firstLoop] at h
    cases h1 : deliver s.queue.cq.entries k i with
    | none => simp [h1] at h
    | some k1 =>
      have hbody := deliver_repeats (z := z) false h1
      simp only [h1] at h
      by_cases hend : i = (s.queue.cq.tail &&& z.mask).toNat
      · rw [if_pos hend, Option.some.injEq, Prod.mk.injEq] at h
        obtain ⟨rfl, rfl⟩ := h
        rw [advance_last hend] at hbody
        exact hbody.trans storeHead_repeats
      · rw [if_neg hend] at h
        cases turns with
        | zero =>
          cases h
          rw [advance_wrap hend (by omega)] at hbody
          simp only [Bool.false_eq_true, if_false]
          by_cases hpos : 0 < (s.queue.cq.tail &&& z.mask).toNat
          · rw [if_pos hpos] at hbody ⊢
            exact hbody
          · rw [if_neg hpos] at hbody ⊢
            exact hbody.trans (storeHead_repeats (k := { k' with seen := true }))
        | succ turns =>
          rw [advance_next hend (by omega)] at hbody
          exact hbody.trans (ih (by omega) (by omega) h)

/-- The second loop as steps. -/
theorem secondLoop_repeats {turns i : Nat} (hturns : 0 < turns)
    (hi : i + turns = (s.queue.cq.tail &&& z.mask).toNat)
    (h : secondLoop s.queue.cq.entries turns i k = some k') :
    Repeats (step z) .run (s.handled k (.slot (k.scan s.queue.cq true i))) (s.stored k') := by
  induction turns generalizing i k with
  | zero => omega
  | succ turns ih =>
    rw [secondLoop] at h
    cases h1 : deliver s.queue.cq.entries k i with
    | none => simp [h1] at h
    | some k1 =>
      have hbody := deliver_repeats (z := z) true h1
      simp only [h1] at h
      rw [advance_second] at hbody
      cases turns with
      | zero =>
        cases h
        rw [if_neg (by omega)] at hbody
        exact hbody.trans storeHead_repeats
      | succ turns =>
        rw [if_pos (by omega)] at hbody
        exact hbody.trans (ih (by omega) (by omega) h)

/-- Alone, `Ring.run` makes the call that `onEntry` says. -/
theorem onEntry_repeats {cq' : CompletionQueue} (hrun : s.run = .loadHead)
    (h : onEntry z s.queue.cq s.inflight s.heap = some (cq', k)) :
    Repeats (step z) .run s (s.stored k) ∧ (s.stored k).queue.cq = cq' := by
  have hmask := z.and_mask_lt s.queue.cq.head
  have hhead : step z s .run = some { s with run := .loadTail s.queue.cq.head } := by
    simp only [step, runStep, hrun]
  have htail : step z { s with run := .loadTail s.queue.cq.head } .run =
      some (s.handled (.start s.inflight s.heap) (.slot
        ((Handled.start s.inflight s.heap).scan s.queue.cq false
          (s.queue.cq.head &&& z.mask).toNat))) := by
    simp only [step, runStep, State.handled, Handled.start, List.map_nil, List.append_nil]
    rfl
  unfold onEntry at h
  dsimp only at h
  cases h1 : firstLoop s.queue.cq.entries (s.queue.cq.tail &&& z.mask).toNat
      (z.slots - (s.queue.cq.head &&& z.mask).toNat) (s.queue.cq.head &&& z.mask).toNat
      (.start s.inflight s.heap) with
  | none =>
    rw [h1] at h
    cases h
  | some x =>
    obtain ⟨k1, last⟩ := x
    have hfirst : Repeats (step z) .run s _ :=
      .head hhead (.head htail (firstLoop_repeats (by omega) (by omega) h1))
    cases last with
    | true =>
      simp only [h1, Option.some.injEq, Prod.mk.injEq] at h
      obtain ⟨rfl, rfl⟩ := h
      exact ⟨hfirst, rfl⟩
    | false =>
      simp only [h1] at h
      simp only [Bool.false_eq_true, if_false] at hfirst
      cases h2 : secondLoop s.queue.cq.entries (s.queue.cq.tail &&& z.mask).toNat 0
          { k1 with seen := true } with
      | none =>
        rw [h2] at h
        cases h
      | some k2 =>
        simp only [h2, Option.some.injEq, Prod.mk.injEq] at h
        obtain ⟨rfl, rfl⟩ := h
        refine ⟨?_, rfl⟩
        by_cases hpos : 0 < (s.queue.cq.tail &&& z.mask).toNat
        · rw [if_pos hpos] at hfirst
          exact hfirst.trans (secondLoop_repeats hpos (Nat.zero_add _) h2)
        · rw [if_neg hpos] at hfirst
          rw [Nat.eq_zero_of_not_pos hpos] at h2
          cases h2
          exact hfirst

end iouring.ring
