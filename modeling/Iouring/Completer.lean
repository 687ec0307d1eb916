-- The completer against every order of posts and acknowledgements: it is the
-- only writer of `Head`, the ids of the entries play no part, and what it
-- releases has been read.
import Iouring.CompletionQueue

open machine counter

namespace iouring.completer

open completion_queue

/-! ## The kernel, the consumers and the completer -/

inductive Act where
  /-- The kernel posts an entry. -/
  | post (c : CompletionEntry)
  /-- A consumer is done with the entry at a position. -/
  | ack (p : Nat)
  /-- `completer.run` takes its next step. -/
  | run

def step (z : Size) (s : State) : Act → Option State
  | .post c => publish z s c
  | .ack p => ack z s p
  | .run => completerStep z s

/-- Nobody but the completer moves `Head`, so no position is ever gone otherwise. -/
def Kept (z : Size) (s : State) : Prop := ∃ H, Span z (fun _ => False) s H

theorem kept_step {z : Size} {s s' : State} {a : Act} (h : Kept z s) (hs : step z s a = some s') :
    Kept z s' := by
  obtain ⟨H, hspan⟩ := h
  cases a with
  | post c => exact ⟨H, hspan.publish hs⟩
  | ack p => exact ⟨H, hspan.ack not_false hs⟩
  | run =>
    obtain ⟨H', -, -, hspan'⟩ := hspan.completerStep hs
    exact ⟨H', hspan'⟩

theorem kept_of_reachable {z : Size} {s : State} (h : Reachable (step z) init s) : Kept z s := by
  have hstep : ∀ (s : State) a s', Kept z s → step z s a = some s' → Kept z s' :=
    fun _ _ _ hk hs => kept_step hk hs
  exact reachable_invariant hstep ⟨0, span_init z _⟩ h

/-! ## What the indices stand for -/

/-- An index that waits in `unacked` is the slot of one acknowledged entry of the window. -/
theorem index_unique {z : Size} {gone : Nat → Prop} {s : State} {H i : Nat}
    (h : Span z gone s H) (hi : i ∈ s.completer.unacked) :
    ∃! p, p ∈ s.acked ∧ H ≤ p ∧ p < s.posted.length ∧ p % z.slots = i := by
  obtain ⟨p, hp, hle, hslot⟩ := h.index i (Or.inr hi)
  refine ⟨p, ⟨hp, by omega, h.acked_lt p hp, hslot⟩, ?_⟩
  rintro q ⟨hq, hq', hlt, hslot'⟩
  apply h.eq_of_slot hq' hlt (by omega) (h.acked_lt p hp)
  rw [hslot, hslot']

/-- Whatever the order and the delay of the acknowledgements, and however often
the two words have wrapped: `Head` is the word of a position `H` that is not
past `Tail` and at most one lap behind it, every entry below `H` has been
acknowledged, and the indices that wait name one acknowledged entry each. -/
theorem no_unread_entry_is_released (z : Size) (s : State) (h : Reachable (step z) init s) :
    ∃ H, s.cq.head = word H ∧ s.cq.tail = word s.posted.length ∧
      H ≤ s.posted.length ∧ s.posted.length ≤ H + z.slots ∧
      (∀ p < H, p ∈ s.acked) ∧
      ∀ i ∈ s.completer.unacked,
        ∃! p, p ∈ s.acked ∧ H ≤ p ∧ p < s.posted.length ∧ p % z.slots = i := by
  obtain ⟨H, hspan⟩ := kept_of_reachable h
  refine ⟨H, hspan.head, hspan.tail, hspan.head_le, hspan.room, ?_, ?_⟩
  · intro p hp
    rcases hspan.below p hp with hack | hgone
    · exact hack
    · exact hgone.elim
  · intro i hi
    exact index_unique hspan hi

/-- Three entries of one id on a ring of two: the later one of the first lap is
acknowledged first and waits; the third entry is posted to slot 0 once the other
one is acknowledged too. -/
theorem entries_acked_out_of_order :
    ∃ s, Reachable (step ⟨1, by decide⟩) init s ∧
      (s.cq.head, s.cq.tail, s.acked, s.completer.seen) = (2, 3, [1, 0, 2], [0]) ∧
      ∃ H, s.cq.head = word H ∧ s.cq.tail = word s.posted.length ∧
        H ≤ s.posted.length ∧ s.posted.length ≤ H + 2 ∧ (∀ p < H, p ∈ s.acked) ∧
        ∀ i ∈ s.completer.unacked,
          ∃! p, p ∈ s.acked ∧ H ≤ p ∧ p < s.posted.length ∧ p % 2 = i := by
  have hrun : (run (step ⟨1, by decide⟩) init
      [.post ⟨7, 0, 0⟩, .post ⟨7, 1, 0⟩, .ack 1, .run, .run, .run, .ack 0, .run, .run, .run,
        .post ⟨7, 2, 0⟩, .ack 2]).map
      (fun s => (s.cq.head, s.cq.tail, s.acked, s.completer.seen)) =
        some (2, 3, [1, 0, 2], [0]) := by
    decide
  obtain ⟨s, hs, hfields⟩ := Option.map_eq_some_iff.mp hrun
  exact ⟨s, ⟨_, hs⟩, hfields, no_unread_entry_is_released ⟨1, by decide⟩ s ⟨_, hs⟩⟩

end iouring.completer
