-- One entry at a time: a goroutine alone on the submission queue that enters
-- after every entry. `Tail` is cut at every lap and `Head` is not, and `Array`
-- gets the head, but with one entry in the queue the kernel still takes that
-- entry or, on a ring of one slot, none.
import Iouring.SubmitCounters

open counter machine

namespace iouring.submit_queue

variable {ι : Type}

/-- The kernel has taken all of the `m` entries so far. -/
structure Ready (z : Size) (s : State ι) (m : Nat) : Prop where
  quiet : Quiet s
  head : s.mem.head = word m
  tail : s.mem.tail.toNat % z.slots = m % z.slots

/-- After `m` entries that the kernel has taken, the entry `e` is in the queue. -/
structure Queued (z : Size) (q : SubmitQueue) (m : Nat) (e : SubmitEntry) : Prop where
  head : q.head = word m
  tail : q.tail.toNat = m % z.slots + 1
  array : (q.array (m % z.slots)).toNat = m % z.slots
  entry : q.entries (m % z.slots) = e

/-- So it is, and no call is under way. -/
structure Loaded (z : Size) (s : State ι) (m : Nat) (e : SubmitEntry) : Prop
    extends Queued z s.mem m e where
  quiet : Quiet s

theorem ready_init (z : Size) : Ready z (init ι) 0 :=
  ⟨⟨fun _ => rfl, rfl, rfl⟩, rfl, rfl⟩

theorem Ready.round [DecidableEq ι] {z : Size} {s : State ι} {m : Nat} (h : Ready z s m) (g : ι)
    (ws : List FieldWrite) :
    Loaded z (afterRound z s g ws) m (filledEntry (s.mem.entries (m % z.slots)) ws) := by
  have hslot : slotOf z s.mem.tail = m % z.slots := by
    rw [slotOf, z.and_mask, h.tail]
  refine ⟨⟨h.head, ?_, ?_, ?_⟩, quiet_afterRound z h.quiet g ws⟩
  · simp only [afterRound]
    rw [next_toNat, h.tail]
  · simp only [afterRound, hslot, Function.update_self]
    rw [h.head, word_slot]
  · simp only [afterRound, hslot, Function.update_self]

/-- The kernel takes the entry that is in the queue. -/
theorem Loaded.consume_one {z : Size} {s : State ι} {m : Nat} {e : SubmitEntry}
    (h : Loaded z s m e) :
    (consume z 1 s).hist.executed = s.hist.executed ++ [(m % z.slots, e)] ∧
      Ready z (consume z 1 s) (m + 1) := by
  have hplace : slotOf z s.mem.head = m % z.slots := by
    rw [slotOf, h.head, word_slot]
  refine ⟨?_, quiet_consume z h.quiet 1, ?_, ?_⟩
  · simp only [consume, consumeOne, hplace, h.array, h.entry]
  · rw [consume_mem, h.head]
    exact word_add m 1
  · rw [consume_mem]
    simp only [h.tail]
    rw [Nat.mod_add_mod]

/-- An enter for one entry takes the entry that is in the queue, or nothing. -/
theorem Loaded.enter {z : Size} {s : State ι} {m : Nat} {e : SubmitEntry} (h : Loaded z s m e) :
    consume z (consumable z s.mem 1) s = s ∨
      ((consume z (consumable z s.mem 1) s).hist.executed =
          s.hist.executed ++ [(m % z.slots, e)] ∧
        Ready z (consume z (consumable z s.mem 1) s) (m + 1)) := by
  have hle : consumable z s.mem 1 ≤ 1 := Nat.min_le_left ..
  rcases Nat.le_one_iff_eq_zero_or_eq_one.mp hle with hnone | hone
  · left
    rw [hnone]
    rfl
  · right
    rw [hone]
    exact h.consume_one

/-! ## Rings of two slots and more -/

/-- `Tail` is never the word that `Head` is at, in whatever lap the two are. -/
theorem Queued.tail_ne_head {z : Size} {q : SubmitQueue} {m : Nat} {e : SubmitEntry}
    (h : Queued z q m e) (hz : 2 ≤ z.slots) : q.tail ≠ q.head := by
  intro heq
  have htail : q.tail.toNat % z.slots = (m + 1) % z.slots := by
    rw [h.tail, Nat.mod_add_mod]
  have hhead : q.head.toNat % z.slots = m % z.slots := by
    rw [h.head, word_mod]
  rw [heq, hhead] at htail
  have := slot_inj (a := m) (by omega) (by omega) (by omega) (by omega) htail
  omega

/-- So an enter that asks for entries takes one or more. -/
theorem Queued.consumable_pos {z : Size} {q : SubmitQueue} {m n : Nat} {e : SubmitEntry}
    (h : Queued z q m e) (hz : 2 ≤ z.slots) (hn : 0 < n) : 0 < consumable z q n := by
  have hdist : (q.tail - q.head).toNat ≠ 0 := by
    intro h0
    apply h.tail_ne_head hz
    apply UInt32.toNat_inj.mp
    have h1 := q.tail.toNat_lt
    have h2 := q.head.toNat_lt
    rw [UInt32.toNat_sub] at h0
    omega
  rw [consumable]
  omega

theorem Queued.consumable_one {z : Size} {q : SubmitQueue} {m : Nat} {e : SubmitEntry}
    (h : Queued z q m e) (hz : 2 ≤ z.slots) : consumable z q 1 = 1 :=
  Nat.le_antisymm (Nat.min_le_left ..) (h.consumable_pos hz Nat.one_pos)

/-- The entry is among those that such an enter reads. -/
theorem Queued.mem_reads {z : Size} {q : SubmitQueue} {m n : Nat} {e : SubmitEntry}
    (h : Queued z q m e) (hz : 2 ≤ z.slots) (hn : 0 < n) :
    (m % z.slots, e) ∈ reads z q (consumable z q n) := by
  refine List.mem_map.mpr ⟨0, List.mem_range.mpr (h.consumable_pos hz hn), ?_⟩
  simp only [Nat.add_zero, h.head, word_mod, h.array, h.entry]

/-- One round of `ringFIO`: the writes to the entry, the flags word that the enter
finds, and what else the enter asks for. -/
structure Round where
  writes : List FieldWrite
  sqFlags : UInt32
  minComplete : Nat
  flags : UInt64
  deriving DecidableEq, Repr

/-- `Ring.Enter` for one entry. -/
def Round.enterActs (g : ι) (r : Round) : List (Act ι) :=
  .setFlags r.sqFlags :: submit_queue.enterActs g ⟨1, r.minComplete, r.flags⟩

def Round.acts (g : ι) (r : Round) : List (Act ι) := roundActs g r.writes ++ r.enterActs g

/-- What the round leaves in slot `m`. -/
def Round.entry (z : Size) (s : State ι) (m : Nat) (r : Round) : Nat × SubmitEntry :=
  (m % z.slots, filledEntry (s.mem.entries (m % z.slots)) r.writes)

variable [DecidableEq ι]

/-- The entry of a round is in the queue, and nothing else is. -/
theorem Ready.submit {z : Size} {s : State ι} {m : Nat} (h : Ready z s m) (g : ι) (r : Round) :
    ∃ s1, run (step z) s (roundActs g r.writes) = some s1 ∧
      Loaded z s1 m (r.entry z s m).2 ∧
      s1.hist.prepared = s.hist.prepared ++ [r.entry z s m] ∧
      s1.hist.executed = s.hist.executed := by
  refine ⟨afterRound z s g r.writes, round_solo z h.quiet g r.writes, h.round g r.writes, ?_, rfl⟩
  have hslot : slotOf z s.mem.tail = m % z.slots := by
    rw [slotOf, z.and_mask, h.tail]
  simp only [afterRound, Round.entry, hslot]

/-- An enter for one takes it. -/
theorem Loaded.enterActs {z : Size} {s : State ι} {m : Nat} {e : SubmitEntry}
    (h : Loaded z s m e) (hz : 2 ≤ z.slots) (g : ι) (r : Round) :
    ∃ s', run (step z) s (r.enterActs g) = some s' ∧ Ready z s' (m + 1) ∧
      s'.hist.prepared = s.hist.prepared ∧
      s'.hist.executed = s.hist.executed ++ [(m % z.slots, e)] := by
  have hflags : Loaded z { s with mem := { s.mem with flags := r.sqFlags } } m e :=
    ⟨⟨h.head, h.tail, h.array, h.entry⟩, ⟨h.quiet.idle, h.quiet.entered, h.quiet.writes⟩⟩
  have henter := enter_solo z hflags.quiet g ⟨1, r.minComplete, r.flags⟩
  rw [hflags.consumable_one hz] at henter
  obtain ⟨hexec, hready⟩ := hflags.consume_one
  obtain ⟨-, -, -, -, -, hprepared, -⟩ :=
    consume_hist z 1 { s with mem := { s.mem with flags := r.sqFlags } }
  exact ⟨_, run_cons_of rfl henter, hready, hprepared, hexec⟩

/-- After any number of rounds the kernel has executed the entries that were
prepared, each one once, and is ready for the next one. -/
theorem Ready.rounds {z : Size} {s : State ι} {m : Nat} (h : Ready z s m) (hz : 2 ≤ z.slots)
    (g : ι) (rounds : List Round) (hall : s.hist.executed = s.hist.prepared) :
    ∃ s', run (step z) s (rounds.flatMap (Round.acts g)) = some s' ∧
      Ready z s' (m + rounds.length) ∧ s'.hist.executed = s'.hist.prepared ∧
      s'.hist.executed.length = s.hist.executed.length + rounds.length := by
  induction rounds generalizing s m with
  | nil => exact ⟨s, rfl, h, hall, rfl⟩
  | cons r rounds ih =>
    obtain ⟨s1, hrun1, hloaded, hprep1, hexec1⟩ := h.submit g r
    obtain ⟨s2, hrun2, hready, hprep2, hexec2⟩ := hloaded.enterActs hz g r
    have hall2 : s2.hist.executed = s2.hist.prepared := by
      rw [hexec2, hprep2, hexec1, hprep1, hall]
      rfl
    obtain ⟨s', hrun, hready', hall', hlen⟩ := ih hready hall2
    refine ⟨s', ?_, ?_, hall', ?_⟩
    · exact run_append_of (run_append_of hrun1 hrun2) hrun
    · rwa [List.length_cons, Nat.add_comm rounds.length, ← Nat.add_assoc]
    · rw [hlen, hexec2, hexec1, List.length_append, List.length_singleton, List.length_cons]
      omega

/-- One entry at a time on a new ring of two slots or more, for any number of
rounds: in each of them the enter takes one entry, the one that was filled in
that round. `Tail` stays in its lap, and `Head` counts the rounds. -/
theorem every_enter_takes_the_entry_of_its_round (z : Size) (hz : 1 ≤ z.exp) (g : ι)
    (rounds : List Round) (r : Round) :
    ∃ s s1 s2, run (step z) (init ι) (rounds.flatMap (Round.acts g)) = some s ∧
      run (step z) s (roundActs g r.writes) = some s1 ∧
      run (step z) s1 (r.enterActs g) = some s2 ∧
      (s.hist.executed = s.hist.prepared ∧ s.hist.executed.length = rounds.length) ∧
      s1.hist.prepared = s.hist.prepared ++ [r.entry z s rounds.length] ∧
      s2.hist.executed = s.hist.executed ++ [r.entry z s rounds.length] ∧
      (s1.mem.tail.toNat = rounds.length % z.slots + 1 ∧
        s1.mem.head = word rounds.length ∧ s2.mem.head = word (rounds.length + 1)) := by
  have hslots : 2 ≤ z.slots := Nat.pow_le_pow_right (n := 2) (by decide) hz
  obtain ⟨s, hrun, hready, hall, hlen⟩ := (ready_init z).rounds hslots g rounds rfl
  rw [Nat.zero_add] at hready
  obtain ⟨s1, hrun1, hloaded, hprep1, hexec1⟩ := hready.submit g r
  obtain ⟨s2, hrun2, hready2, -, hexec2⟩ := hloaded.enterActs hslots g r
  refine ⟨s, s1, s2, hrun, hrun1, hrun2, ⟨hall, ?_⟩, hprep1, ?_, hloaded.tail, hloaded.head,
    hready2.head⟩
  · rw [hlen]
    exact Nat.zero_add _
  · rw [hexec2, hexec1]
    rfl

/-- The third round on a ring of two: `Tail` is back at 1 while `Head` is at 2. -/
theorem the_third_round_on_a_ring_of_two :
    ∃ s s1 s2, run (step ⟨1, by decide⟩) (init (Fin 1))
        ([⟨[.userData 1], 0, 1, 1⟩, ⟨[.userData 2], 1, 1, 1⟩].flatMap (Round.acts 0)) = some s ∧
      run (step ⟨1, by decide⟩) s (roundActs 0 [.userData 3]) = some s1 ∧
      run (step ⟨1, by decide⟩) s1 (Round.enterActs 0 ⟨[.userData 3], 0, 1, 1⟩) = some s2 ∧
      s1.mem.tail.toNat = 1 ∧ s1.mem.head = 2 ∧
      s2.hist.executed = s.hist.executed ++ [(0, filledEntry (s.mem.entries 0) [.userData 3])] := by
  obtain ⟨s, s1, s2, hrun, hrun1, hrun2, -, -, hexec, htail, hhead, -⟩ :=
    every_enter_takes_the_entry_of_its_round ⟨1, by decide⟩ (by decide) (0 : Fin 1)
      [⟨[.userData 1], 0, 1, 1⟩, ⟨[.userData 2], 1, 1, 1⟩] ⟨[.userData 3], 0, 1, 1⟩
  exact ⟨s, s1, s2, hrun, hrun1, hrun2, htail, hhead, hexec⟩

end iouring.submit_queue
