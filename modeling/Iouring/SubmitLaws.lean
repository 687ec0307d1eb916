-- The laws of the submission queue that hold in every run, whatever the
-- interleaving: the slots are reserved in turn, the write counter counts the
-- open entries, and one goroutine at most is inside the syscall.
import Iouring.EnterExclusion

open counter machine

namespace iouring.submit_queue

variable {ι : Type} [DecidableEq ι]

/-! ## The slots -/

/-- The slot that a step reserves, if it is a CAS that moves `Tail`. -/
def reservedSlot (z : Size) (s : State ι) : Act ι → List Nat
  | .step g =>
    match s.pc g with
    | .casTail tail _ => if s.mem.tail = tail then [slotOf z tail] else []
    | _ => []
  | _ => []

/-- A queue with no call under way and `Tail` at 0. Its other words hold anything. -/
def fromZero (ι : Type) (m : SubmitQueue) : State ι :=
  { init ι with mem := { m with tail := 0 } }

omit [DecidableEq ι] in
theorem ticketInv_fromZero (z : Size) (m : SubmitQueue) : TicketInv z (fromZero ι m) := by
  have h := ticketInv_init (ι := ι) z
  exact ⟨rfl, h.no_restart, h.slot, h.lt, h.inj, h.pending_lt, h.pending_free⟩

/-- A step that reserves a slot takes the next ticket, and no other step does. -/
theorem reservedSlot_move {z : Size} {s s' : State ι} {a : Act ι} (hi : TicketInv z s)
    (hm : Move z s a s') :
    (reservedSlot z s a = [s.hist.tickets % z.slots] ∧
      s'.hist.tickets = s.hist.tickets + 1) ∨
    (reservedSlot z s a = [] ∧ s'.hist.tickets = s.hist.tickets) := by
  cases hm with
  | casTail h ht =>
    left
    refine ⟨?_, rfl⟩
    simp only [reservedSlot, h, if_pos ht]
    rw [← ht, slotOf, z.and_mask, hi.tail, tailAt_mod]
  | casTailLost h ht =>
    right
    refine ⟨?_, rfl⟩
    simp only [reservedSlot, h, if_neg ht]
  | syscall h =>
    right
    refine ⟨?_, (consume_hist z _ s).1⟩
    simp only [reservedSlot, h]
  | _ =>
    right
    refine ⟨?_, rfl⟩
    simp [reservedSlot, *]

/-- From the next ticket on, the slots go round. -/
theorem seen_reservedSlot {z : Size} {s : State ι} (hi : TicketInv z s) (as : List (Act ι)) :
    ∃ k, seen (step z) (reservedSlot z) s as =
      (List.range' s.hist.tickets k).map (· % z.slots) := by
  induction as generalizing s with
  | nil => exact ⟨0, rfl⟩
  | cons a as ih =>
    rcases hstep : step z s a with _ | s1
    · refine ⟨0, ?_⟩
      simp only [seen, hstep]
      rfl
    · obtain ⟨k, hk⟩ := ih (ticketInv_move hi (step_move hstep))
      rw [seen_cons_of _ hstep, hk]
      rcases reservedSlot_move hi (step_move hstep) with ⟨hslot, htk⟩ | ⟨hslot, htk⟩
      · refine ⟨k + 1, ?_⟩
        rw [hslot, htk, List.range'_succ]
        rfl
      · refine ⟨k, ?_⟩
        rw [hslot, htk]
        rfl

/-- `Tail` is in its range, nobody is about to set it back to 0, and the indices
that a reservation uses are those of a slot. -/
structure InRange (z : Size) (s : State ι) : Prop where
  tail : s.mem.tail.toNat ≤ z.slots
  no_restart : ∀ g tail, s.pc g ≠ .restart tail
  entry : ∀ g r, (s.pc g).reserved = some r → slotOf z r.tail < z.slots
  array : ∀ g r, (s.pc g).reserved = some r → (next z r.tail - 1).toNat < z.slots

omit [DecidableEq ι] in
theorem tailAt_le (z : Size) (k : Nat) : tailAt z k ≤ z.slots := by
  have := Nat.mod_lt (k - 1) z.slots_pos
  unfold tailAt
  split
  · exact Nat.zero_le _
  · omega

omit [DecidableEq ι] in
theorem TicketInv.inRange {z : Size} {s : State ι} (hi : TicketInv z s) : InRange z s := by
  refine ⟨?_, hi.no_restart, fun _ r _ => z.and_mask_lt r.tail, fun _ r _ => ?_⟩
  · rw [hi.tail]
    exact tailAt_le z _
  · simp only [next, UInt32.add_sub_cancel]
    exact z.and_mask_lt r.tail

/-- In every run from `Tail = 0`, the `i`-th CAS that moves `Tail` reserves slot
`i` modulo the ring size, so reservations within a lap have different slots. -/
theorem slots_are_reserved_in_turn (z : Size) (m : SubmitQueue) (as : List (Act ι)) :
    Always (step z) (InRange z) (fromZero ι m) as ∧
    (∃ k, seen (step z) (reservedSlot z) (fromZero ι m) as =
      (List.range k).map (· % z.slots)) ∧
    ∀ i, (((seen (step z) (reservedSlot z) (fromZero ι m) as).drop i).take z.slots).Nodup := by
  have hstart : TicketInv z (fromZero ι m) := ticketInv_fromZero z m
  obtain ⟨k, hk⟩ := seen_reservedSlot hstart as
  have hk0 : seen (step z) (reservedSlot z) (fromZero ι m) as =
      (List.range k).map (· % z.slots) := by
    rw [hk, List.range_eq_range']
    rfl
  refine ⟨?_, ⟨k, hk0⟩, fun i => ?_⟩
  · exact always_of_invariant (fun _ _ _ hi h => ticketInv_move hi (step_move h))
      (fun _ hi => hi.inRange) hstart as
  · have hlap : ∀ p ∈ ((List.range k).drop i).take z.slots, i ≤ p ∧ p < i + z.slots := by
      intro p hp
      obtain ⟨j, hj, rfl⟩ := List.mem_take_iff_getElem.mp hp
      rw [List.getElem_drop, List.getElem_range]
      omega
    rw [hk0, ← List.map_drop, ← List.map_take]
    apply List.Nodup.map_on
    · intro p hp q hq heq
      obtain ⟨hp1, hp2⟩ := hlap p hp
      obtain ⟨hq1, hq2⟩ := hlap q hq
      exact slot_inj hp1 hq1 hp2 hq2 heq
    · exact (List.nodup_range.drop).take

/-! ## The write counter -/

section Counts

variable [Fintype ι]

omit [DecidableEq ι] in
/-- With fewer than 2^32 goroutines the word is the number. -/
theorem WritesInv.toNat {s : State ι} (hi : WritesInv s) (hcard : Fintype.card ι < 2 ^ 32) :
    s.mem.writes.toNat = tally Pc.counted s.pc := by
  have hle := tally_le_card Pc.counted s.pc
  rw [hi, word_toNat]
  exact Nat.mod_eq_of_lt (by omega)

/-- The counter is the number of open entries, and no closure has panicked. -/
structure CountsWriters (s : State ι) : Prop where
  writes : s.mem.writes.toNat = tally Pc.counted s.pc
  no_panic : ∀ g r, s.pc g ≠ .panicked r

/-- No step moves the counter by more than one. -/
def MovesByOne (z : Size) (s : State ι) (a : Act ι) : Prop :=
  ∀ s', step z s a = some s' →
    s'.mem.writes.toNat = s.mem.writes.toNat ∨
    s'.mem.writes.toNat = s.mem.writes.toNat + 1 ∨
    s'.mem.writes.toNat + 1 = s.mem.writes.toNat

omit [Fintype ι] in
/-- A step moves one goroutine at most. -/
theorem move_pc {z : Size} {s s' : State ι} {a : Act ι} (hm : Move z s a s') :
    s'.pc = s.pc ∨ ∃ g p, s'.pc = Function.update s.pc g p := by
  cases hm with
  | setFlags v => exact Or.inl rfl
  | write w h => exact Or.inl rfl
  | syscall h =>
    right
    rw [goto_pc, consume_pc]
    exact ⟨_, _, rfl⟩
  | _ => exact Or.inr ⟨_, _, rfl⟩

/-- A closure that is about to decrement finds its own entry counted. -/
theorem no_panic_move {z : Size} {s s' : State ι} {a : Act ι} (hi : CountsWriters s)
    (hm : Move z s a s') : ∀ g r, s'.pc g ≠ .panicked r := by
  have hother : ∀ (g : ι) (p : Pc), (∀ r, p ≠ .panicked r) →
      ∀ g' r, Function.update s.pc g p g' ≠ .panicked r := by
    intro g p hp
    rw [Function.forall_update_iff s.pc fun _ p => ∀ r, p ≠ .panicked r]
    exact ⟨hp, fun g' _ => hi.no_panic g'⟩
  cases hm with
  | @panic g r h hw =>
    have hcounted : 0 < tally Pc.counted s.pc := tally_pos (i := g) (by rw [h]; rfl)
    rw [← hi.writes, hw] at hcounted
    exact absurd hcounted (Nat.lt_irrefl 0)
  | setFlags v => exact hi.no_panic
  | write w h => exact hi.no_panic
  | syscall h =>
    rw [goto_pc, consume_pc]
    exact hother _ _ (by simp)
  | _ => exact hother _ _ (by simp)

theorem countsWriters_move {z : Size} (hcard : Fintype.card ι < 2 ^ 32) {s s' : State ι}
    {a : Act ι} (hi : WritesInv s ∧ CountsWriters s) (hm : Move z s a s') :
    WritesInv s' ∧ CountsWriters s' := by
  have hw := writesInv_move hi.1 hm
  exact ⟨hw, hw.toNat hcard, no_panic_move hi.2 hm⟩

/-- The counter moves with the goroutine that moves. -/
theorem movesByOne_move {z : Size} (hcard : Fintype.card ι < 2 ^ 32) {s : State ι} {a : Act ι}
    (hi : WritesInv s ∧ CountsWriters s) : MovesByOne z s a := by
  intro s' hstep
  have hm := step_move hstep
  rw [(countsWriters_move hcard hi hm).2.writes, hi.2.writes]
  rcases move_pc hm with hpc | ⟨g, p, hpc⟩
  · rw [hpc]
    exact Or.inl rfl
  · have ht := tally_update Pc.counted s.pc g p
    have h1 := Bool.toNat_le (Pc.counted (s.pc g))
    have h2 := Bool.toNat_le p.counted
    rw [hpc]
    omega

/-- In every run of fewer than 2^32 goroutines `writes` is the number of entries
that are handed out and not yet taken off again, from the `AddUint32` of
`SubmitEntry` to the CAS of `completeWrite`. No closure panics and the counter never wraps. -/
theorem writes_counts_the_open_entries (z : Size) (hcard : Fintype.card ι < 2 ^ 32)
    (as : List (Act ι)) :
    Always (step z) CountsWriters (init ι) as ∧
    Along (step z) (MovesByOne z) (init ι) as := by
  have hstart : WritesInv (init ι) ∧ CountsWriters (init ι) :=
    ⟨writesInv_init, writesInv_init.toNat hcard, fun _ _ h => by cases h⟩
  have hstep : ∀ (s : State ι) a s', WritesInv s ∧ CountsWriters s →
      step z s a = some s' → WritesInv s' ∧ CountsWriters s' :=
    fun _ _ _ hi h => countsWriters_move hcard hi (step_move h)
  constructor
  · exact always_of_invariant hstep (fun _ hi => hi.2) hstart as
  · exact along_of_invariant hstep (fun _ _ hi => movesByOne_move hcard hi) hstart as

/-- Two goroutines with an entry each. -/
theorem two_open_entries_are_counted :
    (run (step ⟨1, by decide⟩) (init (Fin 2)) (submitEntryActs 0 ++ submitEntryActs 1)).map
      (fun s => (s.mem.writes, tally Pc.counted s.pc)) = some (2, 2) ∧
    Always (step ⟨1, by decide⟩) CountsWriters (init (Fin 2))
      (submitEntryActs 0 ++ submitEntryActs 1) :=
  ⟨by decide, (writes_counts_the_open_entries ⟨1, by decide⟩ (by decide) _).1⟩

/-! ## The enter lock -/

/-- `entered` counts the goroutines between the CAS of `enterLock` and
`enterUnlock`, and there are no two. -/
structure OneInside (s : State ι) : Prop where
  word : s.mem.entered = 0 ∨ s.mem.entered = 1
  count : s.mem.entered.toNat = tally Pc.inside s.pc
  one : ∀ g g', (s.pc g).inside = true → (s.pc g').inside = true → g = g'

theorem LockInv.oneInside {s : State ι} (hi : LockInv s) : OneInside s := by
  obtain ⟨hword, hle⟩ := hi
  refine ⟨?_, hword, fun _ _ hg hg' => tally_unique hle hg hg'⟩
  rcases Nat.le_one_iff_eq_zero_or_eq_one.mp hle with h0 | h1
  · left
    apply UInt32.toNat_inj.mp
    rw [hword, h0]
    rfl
  · right
    apply UInt32.toNat_inj.mp
    rw [hword, h1]
    rfl

/-- In every run at most one goroutine is inside the syscall. -/
theorem at_most_one_goroutine_is_inside (z : Size) (as : List (Act ι)) :
    Always (step z) OneInside (init ι) as :=
  always_of_invariant (fun _ _ _ hi h => lockInv_move hi (step_move h))
    (fun _ hi => hi.oneInside) lockInv_init as

end Counts

end iouring.submit_queue
