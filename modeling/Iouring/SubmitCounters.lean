-- `Tail` against `Head` over a sequence of whole calls. `SubmitEntry` cuts
-- `Tail` to the ring size at every lap and the kernel never cuts `Head`, so
-- the two words count the same entries in the first lap only.
import Iouring.SubmitSolo

open counter machine

namespace iouring.submit_queue

variable {ι : Type} [DecidableEq ι]

/-! ## Whole calls as steps -/

/-- A call that runs to its end: `SubmitEntry` with the caller's writes and the
closure, or `Ring.Enter`. -/
inductive Op (ι : Type) where
  | submit (g : ι) (ws : List FieldWrite)
  | enter (g : ι) (c : EnterCall)
  deriving DecidableEq, Repr

def Op.acts : Op ι → List (Act ι)
  | .submit g ws => roundActs g ws
  | .enter g c => enterActs g c

def opStep (z : Size) (s : State ι) (op : Op ι) : Option (State ι) := run (step z) s op.acts

/-- The state after a whole call. -/
def afterOp (z : Size) (s : State ι) : Op ι → State ι
  | .submit g ws => afterRound z s g ws
  | .enter _ c => consume z (consumable z s.mem c.toSubmit) s

theorem opStep_quiet (z : Size) {s : State ι} (hq : Quiet s) (op : Op ι) :
    opStep z s op = some (afterOp z s op) ∧ Quiet (afterOp z s op) := by
  cases op with
  | submit g ws => exact ⟨round_solo z hq g ws, quiet_afterRound z hq g ws⟩
  | enter g c => exact ⟨enter_solo z hq g c, quiet_consume z hq _⟩

/-- Calls that follow each other all return. -/
theorem ops_return (z : Size) {s : State ι} (hq : Quiet s) (ops : List (Op ι)) :
    ∃ s', run (opStep z) s ops = some s' := by
  induction ops generalizing s with
  | nil => exact ⟨s, rfl⟩
  | cons op ops ih =>
    obtain ⟨hstep, hq'⟩ := opStep_quiet z hq op
    obtain ⟨s', hrun⟩ := ih hq'
    exact ⟨s', run_cons_of hstep hrun⟩

/-! ## What the two counters should say -/

/-- The distance of the counters is the number of entries that are handed out
and not consumed, and an enter passes over the places of such entries only. -/
def CountersAgree (z : Size) (s : State ι) : Prop :=
  (s.mem.tail - s.mem.head).toNat = s.hist.unread.length ∧
  ∀ t, ∀ j < consumable z s.mem t,
    ∃ k ∈ s.hist.unread, k % z.slots = (s.mem.head.toNat + j) % z.slots

/-- The slots that an enter executes are slots of entries that are committed
and not executed yet, each one once. -/
def ReadsFresh (z : Size) (s : State ι) : Prop :=
  ∀ t, ((reads z s.mem (consumable z s.mem t)).map Prod.fst).Nodup ∧
    ∀ a ∈ (reads z s.mem (consumable z s.mem t)).map Prod.fst,
      ∃ k ∈ s.hist.pending, k % z.slots = a

/-- `SubmitEntry` is called with `Tail` short of the ring size. -/
def InFirstLap (z : Size) (s : State ι) : Op ι → Prop
  | .submit _ _ => s.mem.tail.toNat < z.slots
  | .enter _ _ => True

/-- `SubmitEntry` is called with `Tail` short of the ring size and with
nothing left in the queue. -/
def OneInFirstLap (z : Size) (s : State ι) : Op ι → Prop
  | .submit _ _ => s.mem.tail.toNat < z.slots ∧ s.mem.head = s.mem.tail
  | .enter _ _ => True

/-! ## The first lap -/

/-- In the first lap the tickets that the kernel has not passed are those from
`Head` to `Tail`. -/
structure Lap (z : Size) (s : State ι) : Prop where
  quiet : Quiet s
  head_le : s.mem.head.toNat ≤ s.mem.tail.toNat
  tail_le : s.mem.tail.toNat ≤ z.slots
  tickets : s.hist.tickets = s.mem.tail.toNat
  unread : s.hist.unread = List.range' s.mem.head.toNat (s.mem.tail.toNat - s.mem.head.toNat)

omit [DecidableEq ι] in
theorem lap_init (z : Size) : Lap z (init ι) :=
  ⟨⟨fun _ => rfl, rfl, rfl⟩, Nat.le_refl _, Nat.zero_le _, rfl, rfl⟩

theorem lap_afterRound {z : Size} {s : State ι} (h : Lap z s)
    (hlt : s.mem.tail.toNat < z.slots) (g : ι) (ws : List FieldWrite) :
    Lap z (afterRound z s g ws) := by
  have hle := h.head_le
  have htail : (next z s.mem.tail).toNat = s.mem.tail.toNat + 1 := by
    rw [next_toNat, Nat.mod_eq_of_lt hlt]
  refine ⟨quiet_afterRound z h.quiet g ws, ?_, ?_, ?_, ?_⟩
  · simp only [afterRound, htail]
    omega
  · simp only [afterRound, htail]
    omega
  · simp only [afterRound, htail, h.tickets]
  · simp only [afterRound, htail, h.tickets, h.unread]
    rw [Nat.sub_add_comm hle, List.range'_1_concat, Nat.add_sub_cancel' hle]

omit [DecidableEq ι] in
/-- Where the queue is not empty, the head word does not wrap. -/
theorem head_succ {z : Size} {s : State ι} (h : Lap z s)
    (hlt : s.mem.head.toNat < s.mem.tail.toNat) :
    (s.mem.head + 1).toNat = s.mem.head.toNat + 1 := by
  have h1 := h.tail_le
  have h2 := z.slots_lt
  rw [UInt32.toNat_add, UInt32.toNat_one]
  omega

theorem range'_filter_first {z : Size} {a m : Nat} (h : a + m ≤ z.slots) (hm : 0 < m) :
    (List.range' a m).filter (fun k => k % z.slots ≠ a) = List.range' (a + 1) (m - 1) := by
  obtain ⟨m, rfl⟩ : ∃ k, m = k + 1 := ⟨m - 1, by omega⟩
  rw [List.range'_succ, List.filter_cons_of_neg, List.filter_eq_self.mpr]
  · rfl
  · intro k hk
    have := List.mem_range'_1.mp hk
    rw [decide_eq_true_eq, Nat.mod_eq_of_lt (by omega)]
    omega
  · rw [decide_eq_true_eq, Nat.mod_eq_of_lt (by omega)]
    exact not_not_intro rfl

omit [DecidableEq ι] in
theorem lap_consumeOne {z : Size} {s : State ι} (h : Lap z s)
    (hlt : s.mem.head.toNat < s.mem.tail.toNat) : Lap z (consumeOne z s) := by
  have hle := h.tail_le
  have hplace : slotOf z s.mem.head = s.mem.head.toNat := by
    rw [slotOf, z.and_mask, Nat.mod_eq_of_lt (by omega)]
  refine ⟨quiet_consume z h.quiet 1, ?_, h.tail_le, h.tickets, ?_⟩
  · simp only [consumeOne, head_succ h hlt]
    omega
  · simp only [consumeOne, head_succ h hlt, hplace, h.unread]
    rw [range'_filter_first (by omega) (by omega)]
    congr 1

omit [DecidableEq ι] in
theorem lap_consume {z : Size} {s : State ι} (h : Lap z s) {c : Nat}
    (hc : s.mem.head.toNat + c ≤ s.mem.tail.toNat) : Lap z (consume z c s) := by
  induction c generalizing s with
  | zero => exact h
  | succ c ih =>
    apply ih (lap_consumeOne h (by omega))
    simp only [consumeOne, head_succ h (by omega)]
    omega

omit [DecidableEq ι] in
theorem lap_distance {z : Size} {s : State ι} (h : Lap z s) :
    (s.mem.tail - s.mem.head).toNat = s.mem.tail.toNat - s.mem.head.toNat := by
  have h1 := h.head_le
  have h2 := s.mem.tail.toNat_lt
  rw [← word_of_toNat s.mem.tail, ← word_of_toNat s.mem.head, word_sub]
  · simp [word_of_toNat]
  · omega
  · omega

omit [DecidableEq ι] in
/-- No enter goes past `Tail`. -/
theorem lap_consumable {z : Size} {s : State ι} (h : Lap z s) (t : Nat) :
    s.mem.head.toNat + consumable z s.mem t ≤ s.mem.tail.toNat := by
  have h1 := h.head_le
  rw [consumable, lap_distance h]
  omega

omit [DecidableEq ι] in
theorem countersAgree_of_lap {z : Size} {s : State ι} (h : Lap z s) : CountersAgree z s := by
  refine ⟨?_, fun t j hj => ⟨s.mem.head.toNat + j, ?_, rfl⟩⟩
  · rw [lap_distance h, h.unread, List.length_range']
  · have := lap_consumable h t
    rw [h.unread, List.mem_range'_1]
    omega

theorem lap_afterOp {z : Size} {s : State ι} (h : Lap z s) {op : Op ι}
    (hok : InFirstLap z s op) : Lap z (afterOp z s op) := by
  cases op with
  | submit g ws => exact lap_afterRound h hok g ws
  | enter g c => exact lap_consume h (lap_consumable h _)

/-- The round that starts the next lap puts `Tail` behind `Head`. -/
theorem inFirstLap_of_countersAgree {z : Size} {s : State ι} (h : Lap z s) {op : Op ι}
    (hagree : CountersAgree z (afterOp z s op)) : InFirstLap z s op := by
  cases op with
  | enter g c => trivial
  | submit g ws =>
    have h1 := h.head_le
    have h2 := h.tail_le
    have h3 := z.slots_lt
    have h4 := z.slots_pos
    by_contra hlap
    obtain hn : s.mem.tail.toNat = z.slots := by
      simp only [InFirstLap] at hlap
      omega
    have hcount := hagree.1
    simp only [afterOp, afterRound, UInt32.toNat_sub, next_toNat, hn, Nat.mod_self, h.unread,
      List.length_append, List.length_range', List.length_singleton] at hcount
    omega

/-! ## One entry at a time -/

/-- The first lap with at most one entry in the queue. Only then does the
closure store the right slot in `Array`. -/
structure LapOfOne (z : Size) (s : State ι) : Prop extends Lap z s where
  one : s.mem.tail.toNat ≤ s.mem.head.toNat + 1
  pending : s.hist.pending = s.hist.unread
  array : s.mem.head.toNat < s.mem.tail.toNat →
    (s.mem.array s.mem.head.toNat).toNat = s.mem.head.toNat

omit [DecidableEq ι] in
theorem lapOfOne_init (z : Size) : LapOfOne z (init ι) :=
  ⟨lap_init z, Nat.zero_le _, rfl, fun h => absurd h (Nat.lt_irrefl _)⟩

theorem lapOfOne_afterRound {z : Size} {s : State ι} (h : LapOfOne z s)
    (hlt : s.mem.tail.toNat < z.slots) (heq : s.mem.head = s.mem.tail) (g : ι)
    (ws : List FieldWrite) : LapOfOne z (afterRound z s g ws) := by
  have hslot : (s.mem.tail &&& z.mask).toNat = s.mem.tail.toNat := by
    rw [z.and_mask, Nat.mod_eq_of_lt hlt]
  refine ⟨lap_afterRound h.toLap hlt g ws, ?_, ?_, fun _ => ?_⟩
  · simp only [afterRound, next_toNat, Nat.mod_eq_of_lt hlt, heq]
    exact Nat.le_refl _
  · simp only [afterRound, h.pending]
  · simp only [afterRound, heq, slotOf, hslot, Function.update_self]

omit [DecidableEq ι] in
theorem lapOfOne_consumeOne {z : Size} {s : State ι} (h : LapOfOne z s)
    (hlt : s.mem.head.toNat < s.mem.tail.toNat) : LapOfOne z (consumeOne z s) := by
  have hone := h.one
  have hle := h.tail_le
  have hplace : slotOf z s.mem.head = s.mem.head.toNat := by
    rw [slotOf, z.and_mask, Nat.mod_eq_of_lt (by omega)]
  refine ⟨lap_consumeOne h.toLap hlt, ?_, ?_, fun hlt' => ?_⟩
  · simp only [consumeOne, head_succ h.toLap hlt]
    omega
  · simp only [consumeOne, hplace, h.array hlt, h.pending]
  · simp only [consumeOne, head_succ h.toLap hlt] at hlt'
    omega

omit [DecidableEq ι] in
theorem lapOfOne_consume {z : Size} {s : State ι} (h : LapOfOne z s) {c : Nat}
    (hc : s.mem.head.toNat + c ≤ s.mem.tail.toNat) : LapOfOne z (consume z c s) := by
  have hone := h.one
  rcases c with _ | _ | c
  · exact h
  · exact lapOfOne_consumeOne h (by omega)
  · omega

theorem lapOfOne_afterOp {z : Size} {s : State ι} (h : LapOfOne z s) {op : Op ι}
    (hok : OneInFirstLap z s op) : LapOfOne z (afterOp z s op) := by
  cases op with
  | submit g ws => exact lapOfOne_afterRound h hok.1 hok.2 g ws
  | enter g c => exact lapOfOne_consume h (lap_consumable h.toLap _)

omit [DecidableEq ι] in
theorem readsFresh_of_lapOfOne {z : Size} {s : State ι} (h : LapOfOne z s) : ReadsFresh z s := by
  intro t
  have hc := lap_consumable h.toLap t
  have hone := h.one
  have hle := h.tail_le
  generalize consumable z s.mem t = c at hc
  rcases c with _ | _ | c
  · simp [reads]
  · have hlt : s.mem.head.toNat < s.mem.tail.toNat := by omega
    have hmod : s.mem.head.toNat % z.slots = s.mem.head.toNat := Nat.mod_eq_of_lt (by omega)
    have hread : (reads z s.mem (0 + 1)).map Prod.fst = [s.mem.head.toNat] := by
      simp [reads, hmod, h.array hlt]
    rw [hread]
    refine ⟨List.nodup_singleton _, fun a ha => ⟨a, ?_, ?_⟩⟩
    · rw [List.mem_singleton.mp ha, h.pending, h.unread]
      exact List.mem_range'_1.mpr (by omega)
    · rw [List.mem_singleton.mp ha, hmod]
  · omega

/-- A second entry in the queue gets the slot of the first one in `Array`. -/
theorem head_eq_tail_of_readsFresh {z : Size} {s : State ι} (h : LapOfOne z s) {g : ι}
    {ws : List FieldWrite} (hlt : s.mem.tail.toNat < z.slots)
    (hfresh : ReadsFresh z (afterRound z s g ws)) : s.mem.head = s.mem.tail := by
  have hle := h.head_le
  have hone := h.one
  by_contra hne
  have htail : s.mem.tail.toNat = s.mem.head.toNat + 1 := by
    have hwords : s.mem.head.toNat ≠ s.mem.tail.toNat := fun he => hne (UInt32.toNat_inj.mp he)
    omega
  have hmod : s.mem.head.toNat % z.slots = s.mem.head.toNat := Nat.mod_eq_of_lt (by omega)
  have hmod' : (s.mem.head.toNat + 1) % z.slots = s.mem.head.toNat + 1 :=
    Nat.mod_eq_of_lt (by omega)
  have hslot : slotOf z s.mem.tail = s.mem.head.toNat + 1 := by
    rw [slotOf, z.and_mask, htail, hmod']
  have hlap := lap_afterRound h.toLap hlt g ws
  have htwo : consumable z (afterRound z s g ws).mem 2 = 2 := by
    rw [consumable, lap_distance hlap]
    simp only [afterRound, next_toNat, htail, hmod']
    omega
  have hnodup := (hfresh 2).1
  rw [htwo] at hnodup
  have hfirst : (s.mem.array s.mem.head.toNat).toNat = s.mem.head.toNat := h.array (by omega)
  simp [reads, List.range_succ, afterRound, hslot, hmod, hmod', hfirst,
    z.and_mask] at hnodup

theorem oneInFirstLap_of_agree {z : Size} {s : State ι} (h : LapOfOne z s) {op : Op ι}
    (hagree : CountersAgree z (afterOp z s op)) (hfresh : ReadsFresh z (afterOp z s op)) :
    OneInFirstLap z s op := by
  have hlap := inFirstLap_of_countersAgree h.toLap hagree
  cases op with
  | submit g ws => exact ⟨hlap, head_eq_tail_of_readsFresh h hlap hfresh⟩
  | enter g c => trivial

/-! ## The law -/

/-- Over any sequence of whole calls, all of which return: the counters count
the entries in the queue in every state exactly if every `SubmitEntry` finds
`Tail` short of the ring size, and no enter, however large, executes a stale
slot exactly if in addition every `SubmitEntry` finds the queue empty. -/
theorem the_counters_agree_iff (z : Size) (ops : List (Op ι)) :
    (∃ s, run (opStep z) (init ι) ops = some s) ∧
    (Always (opStep z) (CountersAgree z) (init ι) ops ↔
      Along (opStep z) (InFirstLap z) (init ι) ops) ∧
    (Always (opStep z) (fun s => CountersAgree z s ∧ ReadsFresh z s) (init ι) ops ↔
      Along (opStep z) (OneInFirstLap z) (init ι) ops) := by
  have hafter : ∀ {s s' : State ι} {op : Op ι}, Lap z s → opStep z s op = some s' →
      s' = afterOp z s op := by
    intro s s' op h hstep
    rw [(opStep_quiet z h.quiet op).1] at hstep
    exact (Option.some.inj hstep).symm
  have hlap : ∀ (s : State ι) op s', Lap z s → InFirstLap z s op → opStep z s op = some s' →
      Lap z s' := by
    intro s op s' h hok hstep
    rw [hafter h hstep]
    exact lap_afterOp h hok
  have hlap' : ∀ (s : State ι) op s', Lap z s → opStep z s op = some s' → CountersAgree z s' →
      InFirstLap z s op := by
    intro s op s' h hstep hagree
    rw [hafter h hstep] at hagree
    exact inFirstLap_of_countersAgree h hagree
  have hone : ∀ (s : State ι) op s', LapOfOne z s → OneInFirstLap z s op →
      opStep z s op = some s' → LapOfOne z s' := by
    intro s op s' h hok hstep
    rw [hafter h.toLap hstep]
    exact lapOfOne_afterOp h hok
  have hone' : ∀ (s : State ι) op s', LapOfOne z s → opStep z s op = some s' →
      CountersAgree z s' ∧ ReadsFresh z s' → OneInFirstLap z s op := by
    intro s op s' h hstep hagree
    rw [hafter h.toLap hstep] at hagree
    exact oneInFirstLap_of_agree h hagree.1 hagree.2
  refine ⟨ops_return z (lap_init z).quiet ops, ?_, ?_⟩
  · exact always_iff_along hlap (fun _ => countersAgree_of_lap) hlap' (lap_init z) ops
  · exact always_iff_along hone
      (fun _ h => ⟨countersAgree_of_lap h.toLap, readsFresh_of_lapOfOne h⟩) hone'
      (lapOfOne_init z) ops

/-- Three rounds on a ring of two, each one entered for. The third one starts
the second lap: it leaves `Tail` at 1 while `Head` goes on to 3. The next enter
for 1024 takes two more entries although none is in the queue, and the kernel
executes both slots again. -/
theorem an_enter_in_the_second_lap_executes_stale_slots :
    (run (opStep ⟨1, by decide⟩) (init (Fin 1))
        [.submit 0 [.userData 1], .enter 0 ⟨1, 0, 0⟩, .submit 0 [.userData 2], .enter 0 ⟨1, 0, 0⟩,
          .submit 0 [.userData 3], .enter 0 ⟨1, 0, 0⟩]).map
      (fun s => (s.mem.tail, s.mem.head, s.hist.unread)) = some (1, 3, []) ∧
    (run (opStep ⟨1, by decide⟩) (init (Fin 1))
        [.submit 0 [.userData 1], .enter 0 ⟨1, 0, 0⟩, .submit 0 [.userData 2], .enter 0 ⟨1, 0, 0⟩,
          .submit 0 [.userData 3], .enter 0 ⟨1, 0, 0⟩, .enter 0 ⟨1024, 0, 0⟩]).map
      (fun s => s.hist.executed.map fun p => (p.1, p.2.userData)) =
      some [(0, 1), (1, 2), (0, 3), (1, 2), (0, 3)] := by
  decide

end iouring.submit_queue
