-- One goroutine alone on the submission queue: what a whole round of
-- `SubmitEntry`, fill and commit does, what a whole `Ring.Enter` does, and
-- what then reaches the kernel.
import Iouring.SubmitSteps

open counter machine

namespace iouring.submit_queue

variable {ι : Type}

/-! ## What the kernel reads -/

/-- The entries that an enter of `c` entries reads: the `j`-th is the entry
that `Array` names at `Head + j`. -/
def reads (z : Size) (m : SubmitQueue) (c : Nat) : List (Nat × SubmitEntry) :=
  (List.range c).map fun j =>
    let slot := (m.array ((m.head.toNat + j) % z.slots)).toNat
    (slot, m.entries slot)

theorem consume_executed (z : Size) (c : Nat) (s : State ι) :
    (consume z c s).hist.executed = s.hist.executed ++ reads z s.mem c := by
  induction c generalizing s with
  | zero => simp [consume, reads]
  | succ c ih =>
    rw [consume, ih]
    have hplace : ∀ j, ((s.mem.head + 1).toNat + j) % z.slots =
        (s.mem.head.toNat + (j + 1)) % z.slots := by
      intro j
      rw [← word_of_toNat s.mem.head, word_succ, Nat.add_mod, word_mod, ← Nat.add_mod,
        Nat.add_mod (word s.mem.head.toNat).toNat, word_mod, ← Nat.add_mod]
      congr 1
      omega
    simp only [reads, consumeOne, slotOf, z.and_mask, List.range_succ_eq_map, List.map_cons,
      List.map_map, Nat.add_zero, List.append_assoc, List.cons_append, List.nil_append,
      Function.comp_def, hplace]

/-- The lock word and the places of the goroutines are nothing to the kernel. -/
theorem consume_frame (z : Size) (c : Nat) (s : State ι) (e : UInt32) (p : ι → Pc) :
    consume z c ⟨{ s.mem with entered := e }, p, s.hist⟩ =
      ⟨{ (consume z c s).mem with entered := e }, p, (consume z c s).hist⟩ := by
  induction c generalizing s with
  | zero => rfl
  | succ c ih =>
    rw [consume, consume, ← ih]
    rfl

/-! ## Whole calls -/

/-- All goroutines are between two calls. -/
structure Quiet (s : State ι) : Prop where
  idle : ∀ g, s.pc g = .idle
  entered : s.mem.entered = 0
  writes : s.mem.writes = 0

theorem quiet_consume (z : Size) {s : State ι} (hq : Quiet s) (c : Nat) :
    Quiet (consume z c s) := by
  refine ⟨fun g => ?_, ?_, ?_⟩
  · rw [consume_pc, hq.idle]
  · rw [consume_mem, hq.entered]
  · rw [consume_mem, hq.writes]

/-- A reachable state with no call under way has both counters at 0. -/
theorem quiet_of_idle [Fintype ι] [DecidableEq ι] {z : Size} {s : State ι}
    (hr : Reachable (step z) (init ι) s) (hidle : ∀ g, s.pc g = .idle) : Quiet s := by
  have hlock : LockInv s :=
    reachable_invariant (fun _ _ _ hi h => lockInv_move hi (step_move h)) lockInv_init hr
  have hwrites : WritesInv s :=
    reachable_invariant (fun _ _ _ hi h => writesInv_move hi (step_move h)) writesInv_init hr
  have h1 : tally Pc.inside s.pc = 0 := tally_eq_zero fun g => by rw [hidle]; rfl
  have h2 : tally Pc.counted s.pc = 0 := tally_eq_zero fun g => by rw [hidle]; rfl
  refine ⟨hidle, ?_, ?_⟩
  · apply UInt32.toNat_inj.mp
    rw [hlock.1, h1]
    rfl
  · rw [hwrites, h2]
    rfl

variable [DecidableEq ι]

/-- The entry that a caller leaves in a slot: reset, then its own writes. -/
def filledEntry (e : SubmitEntry) (ws : List FieldWrite) : SubmitEntry :=
  ws.foldl FieldWrite.apply (resetWrites.foldl FieldWrite.apply e)

/-- A call of `SubmitEntry`, the caller's writes to the entry, and the closure. -/
def roundActs (g : ι) (ws : List FieldWrite) : List (Act ι) :=
  submitEntryActs g ++ ws.map (.write g) ++ commitActs g

/-- The state after a round. `Array` gets the head, not the slot. -/
def afterRound (z : Size) (s : State ι) (g : ι) (ws : List FieldWrite) : State ι :=
  let slot := slotOf z s.mem.tail
  let e := filledEntry (s.mem.entries slot) ws
  { s with
    mem := { s.mem with
      tail := next z s.mem.tail
      array := Function.update s.mem.array slot (s.mem.head &&& z.mask)
      entries := Function.update s.mem.entries slot e }
    hist := { s.hist with
      tickets := s.hist.tickets + 1
      returned := s.hist.returned + 1
      advanced := Function.update s.hist.advanced g 1
      unread := s.hist.unread ++ [s.hist.tickets]
      filled := s.hist.filled ++ [s.hist.tickets]
      stored := s.hist.stored ++ [s.hist.tickets]
      pending := s.hist.pending ++ [s.hist.tickets]
      prepared := s.hist.prepared ++ [(slot, e)] } }

/-- The state in which the caller has the entry of a fresh call. -/
def handedOut (z : Size) (s : State ι) (g : ι) : State ι :=
  let slot := slotOf z s.mem.tail
  { mem := { s.mem with
      tail := next z s.mem.tail
      writes := s.mem.writes + 1
      entries := Function.update s.mem.entries slot
        (resetWrites.foldl FieldWrite.apply (s.mem.entries slot)) }
    pc := Function.update s.pc g (.holding ⟨s.mem.tail, s.mem.head, s.hist.tickets⟩)
    hist := { s.hist with
      tickets := s.hist.tickets + 1
      returned := s.hist.returned + 1
      advanced := Function.update s.hist.advanced g 1
      unread := s.hist.unread ++ [s.hist.tickets] } }

/-- The writes of `Reset`, one step each. -/
theorem reset_solo (z : Size) {s : State ι} {g : ι} {r : Reserved} {todo : List FieldWrite}
    (hpc : s.pc g = .reset r todo) :
    run (step z) s (List.replicate todo.length (.step g)) =
      some ((s.setEntry (slotOf z r.tail)
        (todo.foldl FieldWrite.apply (s.mem.entries (slotOf z r.tail)))).goto g (.reset r [])) := by
  induction todo generalizing s with
  | nil => simp [State.setEntry, State.goto, ← hpc]
  | cons w todo ih =>
    simp only [List.length_cons, List.replicate_succ, run_cons, step, stepPc, hpc,
      Option.bind_some]
    rw [ih (by simp [State.goto])]
    simp [State.setEntry, State.goto]

/-- The steps of `SubmitEntry` up to `Reset`. -/
theorem reserve_solo (z : Size) {s : State ι} {g : ι} (hidle : s.pc g = .idle)
    (he : s.mem.entered = 0) :
    run (step z) s (.submitEntry g :: List.replicate 5 (.step g)) =
      some { s with
        mem := { s.mem with tail := next z s.mem.tail, writes := s.mem.writes + 1 }
        pc := Function.update s.pc g (.reset ⟨s.mem.tail, s.mem.head, s.hist.tickets⟩ resetWrites)
        hist := { s.hist with
          tickets := s.hist.tickets + 1
          advanced := Function.update s.hist.advanced g 1
          unread := s.hist.unread ++ [s.hist.tickets] } } := by
  have hsplit : (Act.submitEntry g :: List.replicate 5 (.step g) : List (Act ι)) =
      [.submitEntry g, .step g, .step g] ++ List.replicate 3 (.step g) := rfl
  have hload : run (step z) s [.submitEntry g, .step g, .step g] =
      some { s with
        pc := Function.update s.pc g (.casTail s.mem.tail s.mem.head)
        hist := { s.hist with advanced := Function.update s.hist.advanced g 0 } } := by
    simp only [run_cons, run_nil, step, stepPc, hidle, State.goto, next_le, Option.bind_some,
      Function.update_self, Function.update_idem, if_true]
  rw [hsplit]
  apply run_append_of hload
  simp only [List.replicate, run_cons, run_nil, step, stepPc, State.goto, casTail, he,
    Option.bind_some, Function.update_self, Function.update_idem, if_true, ne_eq,
    not_true_eq_false, if_false]

theorem submitEntry_solo (z : Size) {s : State ι} {g : ι} (hidle : s.pc g = .idle)
    (he : s.mem.entered = 0) :
    run (step z) s (submitEntryActs g) = some (handedOut z s g) := by
  have hsplit : submitEntryActs g = (Act.submitEntry g :: List.replicate 5 (.step g)) ++
      (List.replicate resetWrites.length (Act.step g) ++ [Act.step g]) := rfl
  rw [hsplit]
  apply run_append_of (reserve_solo z hidle he)
  apply run_append_of (reset_solo z (Function.update_self ..))
  simp only [run_cons, run_nil, step, stepPc, State.goto, State.setEntry, Function.update_self,
    Function.update_idem, Option.bind_some, handedOut]

/-- The caller's writes go to the entry it holds. -/
theorem writes_solo (z : Size) {s : State ι} {g : ι} {r : Reserved} (hpc : s.pc g = .holding r)
    (ws : List FieldWrite) :
    run (step z) s (ws.map (.write g)) =
      some (s.setEntry (slotOf z r.tail)
        (ws.foldl FieldWrite.apply (s.mem.entries (slotOf z r.tail)))) := by
  induction ws generalizing s with
  | nil => simp [State.setEntry]
  | cons w ws ih =>
    simp only [List.map_cons, run_cons, step, hpc, Option.bind_some]
    rw [ih (by simpa [State.setEntry] using hpc)]
    simp [State.setEntry]

theorem commit_solo (z : Size) {s : State ι} {g : ι} {r : Reserved} (hpc : s.pc g = .holding r)
    (hw : s.mem.writes ≠ 0) :
    run (step z) s (commitActs g) =
      some (storeArray z { s with
        mem := { s.mem with writes := s.mem.writes - 1 }
        hist := { s.hist with filled := s.hist.filled ++ [r.ticket] } } g r) := by
  have hload : run (step z) s [.commit g, .step g] =
      some { s with
        pc := Function.update s.pc g (.casWrites r s.mem.writes)
        hist := { s.hist with filled := s.hist.filled ++ [r.ticket] } } := by
    simp only [run_cons, run_nil, step, stepPc, hpc, State.goto, hw, Option.bind_some,
      Function.update_self, Function.update_idem, if_false]
  have hsplit : commitActs g = [Act.commit g, .step g] ++ [Act.step g, .step g] := rfl
  rw [hsplit]
  apply run_append_of hload
  simp only [run_cons, run_nil, step, stepPc, Option.bind_some, Function.update_self,
    Function.update_idem, if_true, storeArray]

omit [DecidableEq ι] in
theorem next_sub_one (z : Size) (tail : UInt32) : (next z tail - 1).toNat = slotOf z tail := by
  simp [next, slotOf]

/-- A whole round by one goroutine while nobody else is in a call. -/
theorem round_solo (z : Size) {s : State ι} (hq : Quiet s) (g : ι) (ws : List FieldWrite) :
    run (step z) s (roundActs g ws) = some (afterRound z s g ws) := by
  have hheld : (handedOut z s g).pc g = .holding ⟨s.mem.tail, s.mem.head, s.hist.tickets⟩ :=
    Function.update_self ..
  apply run_append_of (run_append_of (submitEntry_solo z (hq.idle g) hq.entered)
    (writes_solo z hheld ws))
  rw [commit_solo z (s := (handedOut z s g).setEntry _ _) hheld
    (by simp [State.setEntry, handedOut, hq.writes])]
  have hpc : Function.update s.pc g .idle = s.pc := by
    rw [← hq.idle g, Function.update_eq_self]
  simp [storeArray, State.setEntry, handedOut, afterRound, filledEntry, next_sub_one, hpc]

theorem quiet_afterRound (z : Size) {s : State ι} (hq : Quiet s) (g : ι) (ws : List FieldWrite) :
    Quiet (afterRound z s g ws) :=
  ⟨hq.idle, hq.entered, hq.writes⟩

/-- The steps of `Ring.Enter` up to the syscall. A wakeup changes the flags of
the syscall and nothing else. -/
theorem lock_solo (z : Size) {s : State ι} (hq : Quiet s) (g : ι) (c : EnterCall) :
    ∃ c' : EnterCall, c'.toSubmit = c.toSubmit ∧
      run (step z) s (.enter g c :: List.replicate 3 (.step g)) =
        some ⟨{ s.mem with entered := 1 }, Function.update s.pc g (.syscall c'), s.hist⟩ := by
  have hwake : ∃ c' : EnterCall, c'.toSubmit = c.toSubmit ∧
      run (step z) s [.enter g c, .step g] = some (s.goto g (.lockWrites c')) := by
    by_cases hf : s.mem.flags &&& SqNeedWakeup = 0
    · refine ⟨c, rfl, ?_⟩
      simp only [run_cons, run_nil, step, stepPc, hq.idle, State.goto, hf, Option.bind_some,
        Function.update_self, Function.update_idem, ne_eq, not_true_eq_false, if_false]
    · refine ⟨{ c with flags := c.flags ||| EnterSqWakeup }, rfl, ?_⟩
      simp only [run_cons, run_nil, step, stepPc, hq.idle, State.goto, hf, Option.bind_some,
        Function.update_self, Function.update_idem, ne_eq, not_false_eq_true, if_true]
  obtain ⟨c', hc', hwake⟩ := hwake
  refine ⟨c', hc', ?_⟩
  have hsplit : (Act.enter g c :: List.replicate 3 (.step g) : List (Act ι)) =
      [.enter g c, .step g] ++ [.step g, .step g] := rfl
  rw [hsplit]
  apply run_append_of hwake
  simp only [run_cons, run_nil, step, stepPc, State.goto, hq.writes, hq.entered, Option.bind_some,
    Function.update_self, Function.update_idem, if_true, if_false, ne_eq, not_true_eq_false]

/-- A whole `Ring.Enter` by one goroutine while nobody else is in a call. -/
theorem enter_solo (z : Size) {s : State ι} (hq : Quiet s) (g : ι) (c : EnterCall) :
    run (step z) s (enterActs g c) = some (consume z (consumable z s.mem c.toSubmit) s) := by
  obtain ⟨c', hc', hlock⟩ := lock_solo z hq g c
  have hsplit : enterActs g c =
      (Act.enter g c :: List.replicate 3 (.step g)) ++ List.replicate 2 (Act.step g) := rfl
  rw [hsplit]
  apply run_append_of hlock
  have hpc : Function.update s.pc g .idle = (consume z (consumable z s.mem c.toSubmit) s).pc := by
    rw [consume_pc, ← hq.idle g, Function.update_eq_self]
  have hentered : (0 : UInt32) = (consume z (consumable z s.mem c.toSubmit) s).mem.entered := by
    rw [consume_mem, hq.entered]
  have hk : consumable z { s.mem with entered := 1 } c'.toSubmit =
      consumable z s.mem c.toSubmit := by
    rw [hc']
    rfl
  simp only [List.replicate, run_cons, run_nil, step, stepPc, State.goto, Option.bind_some,
    Function.update_self, hk, consume_frame, Function.update_idem]
  rw [hpc, hentered]

/-! ## A batch -/

/-- One round for each list of writes. -/
def batchActs (g : ι) (fills : List (List FieldWrite)) : List (Act ι) :=
  fills.flatMap (roundActs g)

/-- What `k` rounds from `s0` on have left in `s`. -/
structure Batched (z : Size) (s0 s : State ι) (k : Nat) : Prop where
  quiet : Quiet s
  head : s.mem.head = s0.mem.head
  tail : s.mem.tail.toNat = s0.mem.tail.toNat + k
  array : ∀ j < k, s.mem.array (s0.mem.tail.toNat + j) = s0.mem.head &&& z.mask
  prepared : s.hist.prepared = s0.hist.prepared ++
    (List.range k).map fun j => (s0.mem.tail.toNat + j, s.mem.entries (s0.mem.tail.toNat + j))
  executed : s.hist.executed = s0.hist.executed

theorem batched_afterRound {z : Size} {s0 s : State ι} {k : Nat} (h : Batched z s0 s k)
    (hk : s0.mem.tail.toNat + k < z.slots) (g : ι) (ws : List FieldWrite) :
    Batched z s0 (afterRound z s g ws) (k + 1) := by
  have hslot : slotOf z s.mem.tail = s0.mem.tail.toNat + k := by
    rw [slotOf, z.and_mask, h.tail, Nat.mod_eq_of_lt hk]
  have hother : ∀ j < k, s0.mem.tail.toNat + j ≠ s0.mem.tail.toNat + k := by
    intro j hj
    omega
  refine ⟨quiet_afterRound z h.quiet g ws, h.head, ?_, ?_, ?_, h.executed⟩
  · simp only [afterRound]
    rw [next_toNat, h.tail, Nat.mod_eq_of_lt hk]
    rfl
  · intro j hj
    simp only [afterRound, hslot]
    rcases Nat.lt_succ_iff_lt_or_eq.mp hj with hlt | rfl
    · rw [Function.update_of_ne (hother j hlt), h.array j hlt]
    · rw [Function.update_self, h.head]
  · simp only [afterRound, hslot, List.range_succ, List.map_append, List.map_cons, List.map_nil,
      Function.update_self, h.prepared, List.append_assoc]
    congr 2
    apply List.map_congr_left
    intro j hj
    rw [Function.update_of_ne (hother j (List.mem_range.mp hj))]

theorem batch_solo {z : Size} {s0 s : State ι} {k : Nat} (h : Batched z s0 s k) (g : ι)
    (fills : List (List FieldWrite)) (hfit : s0.mem.tail.toNat + k + fills.length ≤ z.slots) :
    ∃ s', run (step z) s (batchActs g fills) = some s' ∧ Batched z s0 s' (k + fills.length) := by
  induction fills generalizing s k with
  | nil => exact ⟨s, rfl, h⟩
  | cons ws fills ih =>
    rw [List.length_cons] at hfit ⊢
    obtain ⟨s', hrun, hs'⟩ := ih (batched_afterRound h (by omega) g ws) (by omega)
    refine ⟨s', run_append_of (round_solo z h.quiet g ws) hrun, ?_⟩
    rwa [Nat.add_assoc, Nat.add_comm 1] at hs'

omit [DecidableEq ι] in
/-- After a batch, every place that the kernel reads names the first slot. -/
theorem reads_batched {z : Size} {s0 s : State ι} {k : Nat} (h : Batched z s0 s k)
    (heq : s0.mem.head = s0.mem.tail) (hfit : s0.mem.tail.toNat + k ≤ z.slots)
    (hlt : s0.mem.tail.toNat < z.slots) :
    reads z s.mem k = (List.range k).map fun _ =>
      (s0.mem.tail.toNat, s.mem.entries s0.mem.tail.toNat) := by
  apply List.map_congr_left
  intro j hj
  have hj := List.mem_range.mp hj
  simp only
  rw [h.head, heq, Nat.mod_eq_of_lt (by omega), h.array j hj, heq, z.and_mask,
    Nat.mod_eq_of_lt hlt]

omit [DecidableEq ι] in
theorem consumable_batched {z : Size} {s0 s : State ι} {k : Nat} (h : Batched z s0 s k)
    (heq : s0.mem.head = s0.mem.tail) (hfit : s0.mem.tail.toNat + k ≤ z.slots) :
    consumable z s.mem k = k := by
  have hsize := z.slots_lt
  have hdist : (s.mem.tail - s.mem.head).toNat = k := by
    rw [← word_of_toNat s.mem.tail, h.tail, h.head, heq, ← word_of_toNat s0.mem.tail, word_toNat,
      Nat.mod_eq_of_lt s0.mem.tail.toNat_lt, word_sub (by omega) (by omega)]
    omega
  rw [consumable, hdist]
  omega

/-- One goroutine submits a batch and enters for all of it, from a state with
no call under way and `Head = Tail`. The kernel gets the entries of the batch,
each one once and in their order, exactly if the batch has at most one. -/
theorem a_batch_reaches_the_kernel_iff [Fintype ι] (z : Size) {s : State ι}
    (hr : Reachable (step z) (init ι) s) (hidle : ∀ g, s.pc g = .idle)
    (heq : s.mem.head = s.mem.tail) (hlt : s.mem.tail.toNat < z.slots) (g : ι)
    (fills : List (List FieldWrite)) (hfit : s.mem.tail.toNat + fills.length ≤ z.slots)
    (minComplete : Nat) (flags : UInt64) :
    ∃ s', run (step z) s
        (batchActs g fills ++ enterActs g ⟨fills.length, minComplete, flags⟩) = some s' ∧
      ((∃ batch, s'.hist.prepared = s.hist.prepared ++ batch ∧
          s'.hist.executed = s.hist.executed ++ batch) ↔ fills.length ≤ 1) := by
  have hstart : Batched z s s 0 :=
    ⟨quiet_of_idle hr hidle, rfl, rfl, fun j hj => absurd hj (Nat.not_lt_zero j),
      (List.append_nil _).symm, rfl⟩
  obtain ⟨s1, hrun, hb⟩ := batch_solo hstart g fills (by omega)
  rw [Nat.zero_add] at hb
  refine ⟨_, run_append_of hrun (enter_solo z hb.quiet g _), ?_⟩
  obtain ⟨-, -, -, -, -, hprepared, -⟩ := consume_hist z fills.length s1
  rw [consumable_batched hb heq hfit, hprepared, consume_executed, hb.executed, hb.prepared,
    reads_batched hb heq hfit hlt]
  constructor
  · rintro ⟨batch, h1, h2⟩
    have hsame := (List.append_cancel_left h1).trans (List.append_cancel_left h2).symm
    -- the second place names the first slot
    by_contra hmany
    have hsecond := List.map_eq_map_iff.mp hsame 1 (List.mem_range.mpr (by omega))
    simp at hsecond
  · intro hone
    refine ⟨_, rfl, ?_⟩
    congr 1
    apply List.map_congr_left
    intro j hj
    obtain rfl : j = 0 := by
      have := List.mem_range.mp hj
      omega
    rfl

/-- A batch of one entry on a fresh ring of two. -/
theorem a_batch_of_one_reaches_the_kernel :
    ∃ s', run (step ⟨1, by decide⟩) (init (Fin 1))
        (batchActs 0 [[.userData 7]] ++ enterActs 0 ⟨1, 1, 0⟩) = some s' ∧
      ∃ batch, s'.hist.prepared = [] ++ batch ∧ s'.hist.executed = [] ++ batch := by
  obtain ⟨s', hrun, hiff⟩ := a_batch_reaches_the_kernel_iff ⟨1, by decide⟩
    (s := init (Fin 1)) ⟨[], rfl⟩ (fun _ => rfl) rfl (by decide) 0 [[.userData 7]] (by decide) 1 0
  exact ⟨s', hrun, hiff.mpr (by decide)⟩

/-- Two entries on a fresh ring of two: the kernel reads the first one twice
and the second one never. -/
theorem a_batch_of_two_runs_the_first_twice :
    (run (step ⟨1, by decide⟩) (init (Fin 1))
        (batchActs 0 [[.userData 7], [.userData 8]] ++ enterActs 0 ⟨2, 2, 0⟩)).map
      (fun s => (s.hist.prepared.map fun p => (p.1, p.2.userData),
        s.hist.executed.map fun p => (p.1, p.2.userData))) =
      some ([(0, 7), (1, 8)], [(0, 7), (0, 7)]) := by
  decide

end iouring.submit_queue
