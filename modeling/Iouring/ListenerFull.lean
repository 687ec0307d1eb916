-- A listener whose ring nobody else takes completions from. The first completion is that of
-- its poll and stays in slot 0: every walk starts there, finds it again and moves `Head`
-- nowhere. So the queue fills up once, and a walk over a full queue finds nothing any more.
import Iouring.ListenerWalk

open machine counter
open iouring.completion_queue (CompletionEntry CompletionQueue)
open iouring.listener (scan hit mark walkCq)

namespace iouring.listener_walk

/-- The first completion that comes to the ring is that of the listener's first poll. -/
def FirstPosted (id : UInt64) (s : State) : Act → Prop
  | .post c => s.listener.cq.tail = 0 → c.userData = id
  | .walk => True

instance (id : UInt64) (s : State) (a : Act) : Decidable (FirstPosted id s a) :=
  match a with
  | .post _ => inferInstanceAs (Decidable (_ → _))
  | .walk => isTrue trivial

/-- `Head` has not moved, and the first completion is where it was posted. -/
structure FullInv (z : Size) (id : UInt64) (s : State) : Prop where
  known : (s.listener.conns id).isSome = true
  head : s.listener.cq.head = 0
  tail : s.listener.cq.tail.toNat ≤ z.slots
  first : 0 < s.listener.cq.tail.toNat → (s.listener.cq.entries 0).userData = id

theorem fullInv_start (z : Size) (fd : Int32) (id : UInt64) :
    FullInv z id (start (listener.start fd id)) where
  known := by simp [start, listener.start]
  head := rfl
  tail := Nat.zero_le _
  first := fun h => absurd h (Nat.lt_irrefl 0)

section

variable {z : Size} {id : UInt64} {s s' : State}

/-- With `Head` at 0 the walk looks at slot 0 first. -/
theorem FullInv.hit_first (hi : FullInv z id s) (hpos : 0 < s.listener.cq.tail.toNat)
    (hroom : s.listener.cq.tail.toNat < z.slots) :
    ∃ cInfo, hit z s.listener = some (0, 0, cInfo) := by
  obtain ⟨cInfo, hknown⟩ := Option.isSome_iff_exists.mp hi.known
  rw [← hi.first hpos] at hknown
  have hfirst : (s.listener.cq.head &&& z.mask).toNat = 0 := by simp [hi.head]
  have hlast : (s.listener.cq.tail &&& z.mask).toNat = s.listener.cq.tail.toNat := by
    rw [z.and_mask, Nat.mod_eq_of_lt hroom]
  refine ⟨cInfo, ?_⟩
  rw [hit, hfirst, hlast, if_neg (Nat.ne_of_lt hpos), Nat.sub_zero, scan]
  simp only [hknown, ite_self, Option.some_or]

/-- An empty queue and a full one have `Head` and `Tail` at the same slot. -/
theorem FullInv.dispatches_none (hi : FullInv z id s)
    (h : s.listener.cq.tail.toNat = 0 ∨ s.listener.cq.tail.toNat = z.slots) :
    dispatches z s.listener = none := by
  refine dispatches_of_eq ?_
  rw [z.and_mask, z.and_mask, hi.head]
  rcases h with h | h
  · rw [h, UInt32.toNat_zero]
  · rw [h, Nat.mod_self, UInt32.toNat_zero, Nat.zero_mod]

theorem FullInv.post (hi : FullInv z id s) {c : CompletionEntry}
    (hfirst : FirstPosted id s (.post c)) (h : step z s (.post c) = some s') :
    FullInv z id s' := by
  obtain ⟨cq, hcq, rfl⟩ := Option.map_eq_some_iff.mp h
  obtain ⟨hroom, rfl⟩ := CompletionQueue.publish_eq hcq
  rw [hi.head, UInt32.sub_zero] at hroom
  have hslots := z.slots_lt
  have htail : (s.listener.cq.tail + 1).toNat = s.listener.cq.tail.toNat + 1 := by
    rw [UInt32.toNat_add, UInt32.toNat_one]
    omega
  have hslot : (s.listener.cq.tail &&& z.mask).toNat = s.listener.cq.tail.toNat := by
    rw [z.and_mask, Nat.mod_eq_of_lt hroom]
  refine ⟨hi.known, hi.head, htail ▸ hroom, fun _ => ?_⟩
  dsimp only
  rw [hslot]
  rcases Nat.eq_zero_or_pos s.listener.cq.tail.toNat with hzero | hpos
  · rw [hzero, Function.update_self]
    exact hfirst (UInt32.toNat_inj.mp hzero)
  · rw [Function.update_of_ne (Nat.ne_of_lt hpos)]
    exact hi.first hpos

/-- What a walk finds in slot 0 it marks and leaves there. -/
theorem FullInv.walk (hi : FullInv z id s) (h : step z s .walk = some s') : FullInv z id s' := by
  cases h
  by_cases hsame : s.listener.cq.tail.toNat = 0 ∨ s.listener.cq.tail.toNat = z.slots
  · have hhit : hit z s.listener = none := Option.map_eq_none_iff.mp (hi.dispatches_none hsame)
    simp only [walkCq, hhit]
    exact ⟨hi.known, hi.head, hi.tail, hi.first⟩
  · have hle := hi.tail
    obtain ⟨cInfo, hhit⟩ := hi.hit_first (by omega) (by omega)
    simp only [walkCq, hhit]
    refine ⟨hi.known, ?_, hi.tail, fun hpos => ?_⟩
    · simp [mark, hi.head]
    · simp only [mark, Function.update_self]
      exact hi.first hpos

theorem fullInv_step {a : Act} (hi : FullInv z id s) (ha : FirstPosted id s a)
    (h : step z s a = some s') : FullInv z id s' := by
  cases a with
  | post c => exact hi.post ha h
  | walk => exact hi.walk h

end

/-- The listener never releases a completion. As long as its queue is neither empty nor full,
a walk calls `onListen` for the first completion, however often it has done so already. Once
the queue is full no walk calls it and the kernel cannot post. -/
structure FillsUp (z : Size) (s : State) : Prop where
  head : s.listener.cq.head = 0
  tail : s.listener.cq.tail.toNat ≤ z.slots
  again : 0 < s.listener.cq.tail.toNat → s.listener.cq.tail.toNat < z.slots →
    dispatches z s.listener = some 0
  full : s.listener.cq.tail.toNat = z.slots →
    dispatches z s.listener = none ∧ ∀ c, step z s (.post c) = none

theorem FullInv.fillsUp {z : Size} {id : UInt64} {s : State} (hi : FullInv z id s) :
    FillsUp z s where
  head := hi.head
  tail := hi.tail
  again := by
    intro hpos hroom
    obtain ⟨cInfo, hhit⟩ := hi.hit_first hpos hroom
    rw [dispatches, hhit, Option.map_some]
  full := by
    intro hfull
    refine ⟨hi.dispatches_none (.inr hfull), fun c => ?_⟩
    rw [step, CompletionQueue.publish, hi.head, UInt32.sub_zero, hfull,
      if_neg (Nat.lt_irrefl _), Option.map_none]

/-- On every ring, whatever the kernel posts after the completion of the first poll: the
listener dispatches that one completion on every walk until the queue is full, and nothing
from then on. -/
theorem a_listener_fills_its_queue (z : Size) (fd : Int32) (id : UInt64) (as : List Act)
    (h : Along (step z) (FirstPosted id) (start (listener.start fd id)) as) :
    Always (step z) (FillsUp z) (start (listener.start fd id)) as :=
  Along.always (fun _ _ _ hi ha hs => fullInv_step hi ha hs) (fun _ hi => hi.fillsUp)
    (fullInv_start z fd id) h

/-- A queue of eight. Every walk accepts a connection for the first completion, and the polls
on those connections, which all have id 0 and each come twice, fill the queue; the fifth walk
finds nothing. -/
theorem a_listener_on_a_full_queue :
    Always (step ⟨3, by decide⟩) (FillsUp ⟨3, by decide⟩) (start (listener.start 5 1))
        [.post ⟨1, 1, 0⟩, .walk, .post ⟨0, 1, 0⟩, .post ⟨0, 1, 0⟩, .walk, .post ⟨0, 1, 0⟩,
          .post ⟨0, 1, 0⟩, .walk, .post ⟨0, 1, 0⟩, .post ⟨0, 1, 0⟩, .walk, .post ⟨0, 1, 0⟩, .walk] ∧
      (run (step ⟨3, by decide⟩) (start (listener.start 5 1))
        [.post ⟨1, 1, 0⟩, .walk, .post ⟨0, 1, 0⟩, .post ⟨0, 1, 0⟩, .walk, .post ⟨0, 1, 0⟩,
          .post ⟨0, 1, 0⟩, .walk, .post ⟨0, 1, 0⟩, .post ⟨0, 1, 0⟩, .walk, .post ⟨0, 1, 0⟩,
          .walk]).map (fun s => (s.listener.cq.head, s.listener.cq.tail, s.times 0)) =
        some (0, 8, 4) :=
  ⟨a_listener_fills_its_queue _ _ _ _ (by decide), by decide⟩

end iouring.listener_walk
