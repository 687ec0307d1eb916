-- The calls of one goroutine on a `ringFIO`, one after the other, with the queues under them.
-- What a call leaves in the queues is there for the next one: behind a call whose `Enter`
-- fails, the next `Enter` takes the entry that it left; and a call with a negative `Res` does
-- not give its completion slot back, so that after some more calls the queue is full and
-- none of them returns.
import Iouring.FioCalls

open counter machine
open iouring.completion_queue (CompletionQueue complete completerStep publish sweep)
open iouring.file_io (failedEnterActs)
open iouring.slot_loops
open iouring.submit_queue (EnterGetEvents FieldWrite Opcode Ready Slice SubmitEntry filledEntry
  opStep prepareTransfer submitEntryActs)

namespace iouring.submit_queue

/-! ## The one field that `Reset` keeps -/

/-- What is left of the last entry in a filled one is `Anon0`. -/
theorem filledEntry_congr {e e' : SubmitEntry} (h : e.anon0 = e'.anon0) (ws : List FieldWrite) :
    filledEntry e ws = filledEntry e' ws := by
  have hreset : resetWrites.foldl FieldWrite.apply e = resetWrites.foldl FieldWrite.apply e' := by
    simp only [resetWrites, List.foldl_cons, List.foldl_nil, FieldWrite.apply, h]
  rw [filledEntry, filledEntry, hreset]

end iouring.submit_queue

namespace iouring.fio_calls

variable {ω : Type}

/-! ## Runs with positional calls -/

/-- A call that goes by the cursor, a positional one, or a change of the bytes in the file
as a `WriteAt` makes it, but from elsewhere. -/
inductive Act (ω : Type) where
  | call (c : Call ω)
  | readAt (b : Slice) (o : Int64) (kernel : ω → SubmitEntry → Reply)
  | writeAt (b : Slice) (o : Int64) (kernel : ω → SubmitEntry → ω × Reply)
  | change (b : Slice) (o : Int64) (kernel : ω → SubmitEntry → ω × Reply)

/-- The state after a call that returns. -/
def step (s : State ω) : Act ω → State ω
  | .call c => (s.call c).state
  | .readAt b o kernel => (s.readAt b o kernel).state
  | .writeAt b o kernel => (s.writeAt b o kernel).state
  | .change b o kernel => { s with file := (s.writeAt b o kernel).state.file }

/-! ## The queues under the calls -/

/-- What a call asks the kernel for, and what the kernel makes of it. -/
structure Transfer (ω : Type) where
  op : Opcode
  b : Slice
  offset : UInt64
  kernel : ω → SubmitEntry → ω × Reply

def transfer (s : State ω) : Act ω → Option (Transfer ω)
  | .call (.read b kernel) =>
    some ⟨.read, b, s.fOffset.toUInt64, fun file e => (file, kernel file e)⟩
  | .call (.write b kernel) => some ⟨.write, b, s.fOffset.toUInt64, kernel⟩
  | .readAt b o kernel => some ⟨.read, b, o.toUInt64, fun file e => (file, kernel file e)⟩
  | .writeAt b o kernel => some ⟨.write, b, o.toUInt64, kernel⟩
  | .call (.seek _ _ _) | .change _ _ _ => none

/-- What comes of the entry; there is none if the buffer is empty. -/
def Transfer.reply (t : Transfer ω) (s : State ω) : Option Reply :=
  (entry t.op s.fd t.b t.offset).map fun e => (t.kernel s.file e).2

/-- The `Res` of the completion, if there is one. -/
def Transfer.res (t : Transfer ω) (s : State ω) : Option Int32 :=
  match t.reply s with
  | some (.done res _) => some res
  | some .enterFails | none => none

/-- The fields that are written before the address of an empty buffer is taken. -/
def Transfer.begun (t : Transfer ω) (fd : Int32) (id : UInt64) : List FieldWrite :=
  [.opcode t.op.code, .userData id, .fd fd, .len (UInt32.ofNat t.b.len), .flags 0,
    .offset t.offset]

/-- The submission queue after the call. There is none if the call does not return: what its
`Enter` has taken is not its own entry, so the completion that it looks for does not come. -/
def Transfer.submit (zs : Size) (t : Transfer ω) (s : State ω) (sq : submit_queue.State Unit)
    (id : UInt64) : Option (submit_queue.State Unit) :=
  match prepareTransfer t.op s.fd t.b t.offset 0 id with
  -- the panic leaves a slot that is reserved and not committed
  | none => run (submit_queue.step zs) sq (submitEntryActs () ++ (t.begun s.fd id).map (.write ()))
  | some ws =>
    (opStep zs sq (.submit () ws)).bind fun q =>
      if t.reply s = some .enterFails then run (submit_queue.step zs) q failedEnterActs
      else
        (opStep zs q (.enter () ⟨1, 1, EnterGetEvents⟩)).bind fun q' =>
          if (q'.hist.executed.drop q.hist.executed.length).map (·.2) = [filledEntry .zero ws] then
            some q'
          else none

/-- The completion queue after a completion with this id and `Res`. The kernel posts it, a pass
of `getCqe` finds it, and unless it is an error its slot goes to the completer, which is back at
its channel before the next call. There is none if the kernel has no room to post, or the pass
does not find the completion: nobody moves `Head` then, and the call does not return. -/
def reap (zc : Size) (cq : completion_queue.State) (id : UInt64) (res : Int32) :
    Option completion_queue.State :=
  let x := (cq.cq.tail &&& zc.mask).toNat
  (publish zc cq ⟨id, res, 0⟩).bind fun q =>
    if ring_fio.findCqe zc q.cq id = some x then
      if res < 0 then some q
      else
        (complete q x).bind fun q1 =>
          (completerStep zc q1).bind fun q2 => (completerStep zc q2).bind (completerStep zc)
    else none

/-- The `ringFIO` on a ring that nobody else uses, with the queues and the last id. -/
structure Session (ω : Type) where
  fio : State ω
  sq : submit_queue.State Unit
  cq : completion_queue.State
  idx : UInt64

def Session.start (s : State ω) (idx : UInt64) : Session ω :=
  ⟨s, submit_queue.init Unit, completion_queue.init, idx⟩

/-- A call, with what it does to the queues. -/
def Session.step (zs zc : Size) (s : Session ω) (a : Act ω) : Option (Session ω) :=
  let fio := fio_calls.step s.fio a
  match transfer s.fio a with
  | none => some { s with fio := fio }
  | some t =>
    (t.submit zs s.fio s.sq (s.idx + 1)).bind fun sq =>
      match t.res s.fio with
      | none => some ⟨fio, sq, s.cq, s.idx + 1⟩
      | some res => (reap zc s.cq (s.idx + 1) res).map fun cq => ⟨fio, sq, cq, s.idx + 1⟩

/-! ## Calls that are served -/

/-- The completions that are pending. -/
def Session.pending (s : Session ω) : Nat := (s.cq.cq.tail - s.cq.cq.head).toNat

/-- A call that transfers has a buffer, its `Enter` succeeds, and it finds the completion queue
empty or with room for two. -/
def Served (zc : Size) (s : Session ω) (a : Act ω) : Prop :=
  ∀ t ∈ transfer s.fio a, 0 < t.b.len ∧ t.reply s.fio ≠ some .enterFails ∧
    (s.pending = 0 ∨ s.pending + 1 < zc.slots)

instance (zc : Size) (s : Session ω) (a : Act ω) : Decidable (Served zc s a) :=
  inferInstanceAs (Decidable (∀ t ∈ transfer s.fio a, 0 < t.b.len ∧
    t.reply s.fio ≠ some .enterFails ∧ (s.pending = 0 ∨ s.pending + 1 < zc.slots)))

theorem Transfer.res_of_served {t : Transfer ω} {s : State ω} (hb : 0 < t.b.len)
    (hreply : t.reply s ≠ some .enterFails) : ∃ res, t.res s = some res := by
  unfold Transfer.res
  unfold Transfer.reply at hreply ⊢
  simp only [entry, prepareTransfer, Slice.first, hb, if_true, Option.map_some] at hreply ⊢
  split
  · exact ⟨_, rfl⟩
  · next h => exact absurd h hreply
  · next h => cases h

/-! ## The submission queue -/

/-- The kernel has taken every entry so far, and no slot holds anything in the field that
`Reset` does not write. -/
def Clean (zs : Size) (q : submit_queue.State Unit) : Prop :=
  (∃ m, Ready zs q m) ∧ ∀ x, (q.mem.entries x).anon0 = SubmitEntry.zero.anon0

theorem prepareTransfer_anon0 {op : Opcode} {fd : Int32} {b : Slice} {offset id : UInt64}
    {ws : List FieldWrite} (h : prepareTransfer op fd b offset 0 id = some ws) (e : SubmitEntry) :
    (filledEntry e ws).anon0 = e.anon0 := by
  obtain ⟨first, -, rfl⟩ := Option.map_eq_some_iff.mp h
  rfl

/-- A call whose `Enter` succeeds has its entry taken, and leaves the queue as it was. -/
theorem Clean.submit {zs : Size} {q : submit_queue.State Unit} (h : Clean zs q)
    (hz : 2 ≤ zs.slots) {t : Transfer ω} {s : State ω} (hb : 0 < t.b.len)
    (hreply : t.reply s ≠ some .enterFails) (id : UInt64) :
    ∃ q', t.submit zs s q id = some q' ∧ Clean zs q' := by
  obtain ⟨⟨m, hready⟩, hanon⟩ := h
  obtain ⟨ws, hws⟩ : ∃ ws, prepareTransfer t.op s.fd t.b t.offset 0 id = some ws := by
    simp [prepareTransfer, Slice.first, hb]
  have hloaded := hready.round () ws
  obtain ⟨hexec, hready'⟩ := hloaded.consume_one
  have hsubmit := (submit_queue.opStep_quiet zs hready.quiet (.submit () ws)).1
  have henter :=
    (submit_queue.opStep_quiet zs hloaded.quiet (.enter () ⟨1, 1, EnterGetEvents⟩)).1
  simp only [submit_queue.afterOp] at hsubmit henter
  rw [hloaded.consumable_one hz] at henter
  have htaken :
      ((submit_queue.consume zs 1 (submit_queue.afterRound zs q () ws)).hist.executed.drop
        (submit_queue.afterRound zs q () ws).hist.executed.length).map (·.2) =
          [filledEntry .zero ws] := by
    rw [hexec, List.drop_left, List.map_singleton, submit_queue.filledEntry_congr (hanon _) ws]
  refine ⟨submit_queue.consume zs 1 (submit_queue.afterRound zs q () ws), ?_, ⟨m + 1, hready'⟩, ?_⟩
  · simp only [Transfer.submit, hws, hsubmit, Option.bind_some, if_neg hreply, henter, htaken,
      if_true]
  · intro x
    rw [submit_queue.consume_mem]
    simp only [submit_queue.afterRound, Function.update_apply]
    split_ifs
    · rw [prepareTransfer_anon0 hws, hanon]
    · exact hanon x

/-! ## The completion queue -/

/-- The completions that are pending after one with this `Res`: none, unless it is an error or
others are pending before it. -/
def pendingAfter (n : Nat) (res : Int32) : Nat := if n = 0 ∧ ¬ res < 0 then 0 else n + 1

/-- The pending completions are those of the last `n` ids. -/
structure LastIds (zc : Size) (cq : CompletionQueue) (idx : UInt64) (n : Nat) : Prop where
  length : (cq.tail - cq.head).toNat = n
  ids : ∀ j < n, (cq.entries ((cq.head.toNat + j) % zc.slots)).userData +
    UInt64.ofNat (n - 1 - j) = idx

section Posts

variable {zc : Size} {cq cq' : CompletionQueue} {idx : UInt64} {n : Nat} {res : Int32}

theorem LastIds.tail_slot (h : LastIds zc cq idx n) :
    (cq.tail &&& zc.mask).toNat = (cq.head.toNat + n) % zc.slots := by
  rw [zc.and_mask, counter.tail_slot zc cq.head cq.tail, h.length]

/-- A pending completion is in another slot than the next one. -/
theorem LastIds.slot_ne (h : LastIds zc cq idx n) (hn : n < zc.slots) {j : Nat} (hj : j < n) :
    (cq.head.toNat + j) % zc.slots ≠ (cq.tail &&& zc.mask).toNat := by
  rw [h.tail_slot]
  intro hslot
  have := slot_inj (a := cq.head.toNat) (by omega) (by omega) (by omega) (by omega) hslot
  omega

theorem LastIds.publish (h : LastIds zc cq idx n)
    (hpost : cq.publish zc ⟨idx + 1, res, 0⟩ = some cq') : LastIds zc cq' (idx + 1) (n + 1) := by
  obtain ⟨hroom, rfl⟩ := CompletionQueue.publish_eq hpost
  rw [h.length] at hroom
  have hlt := zc.slots_lt
  refine ⟨?_, fun j hj => ?_⟩
  · rw [sub_succ (by rw [h.length]; omega), h.length]
  · dsimp only
    rcases Nat.lt_succ_iff_lt_or_eq.mp hj with hj | rfl
    · have hlast : n + 1 - 1 - j = (n - 1 - j) + 1 := by omega
      rw [Function.update_of_ne (h.slot_ne hroom hj), hlast, UInt64.ofNat_add, ← UInt64.add_assoc,
        h.ids j hj]
      rfl
    · rw [← h.tail_slot, Function.update_self, Nat.add_sub_cancel, Nat.sub_self]
      exact UInt64.add_zero _

/-- The next id is not among the last ones. -/
theorem LastIds.ne_next (h : LastIds zc cq idx n) (hn : n < zc.slots) {j : Nat} (hj : j < n) :
    (cq.entries ((cq.head.toNat + j) % zc.slots)).userData ≠ idx + 1 := by
  intro hid
  have hlast := congrArg UInt64.toNat (h.ids j hj)
  have hlt := zc.slots_lt
  have := idx.toNat_lt
  rw [hid, UInt64.toNat_add, UInt64.toNat_add, UInt64.toNat_ofNat', UInt64.toNat_one] at hlast
  omega

/-- A pass over a queue that was empty, or had room for two, finds what was posted last. -/
theorem LastIds.found (h : LastIds zc cq idx n) (hroom : n = 0 ∨ n + 1 < zc.slots)
    (hpost : cq.publish zc ⟨idx + 1, res, 0⟩ = some cq') :
    ring_fio.findCqe zc cq' (idx + 1) = some (cq.tail &&& zc.mask).toNat := by
  obtain ⟨hlt, rfl⟩ := CompletionQueue.publish_eq hpost
  rw [h.length] at hlt
  obtain ⟨rest, hvisited⟩ := visited_succ (z := zc) (by rw [h.length]; exact hroom)
  have hothers : (window zc cq.head cq.tail).find? (ring_fio.Answers (Function.update cq.entries
      (cq.tail &&& zc.mask).toNat ⟨idx + 1, res, 0⟩) (idx + 1)) = none := by
    rw [List.find?_eq_none]
    intro x hx
    obtain ⟨j, hj, rfl⟩ := List.mem_map.mp hx
    rw [List.mem_range, h.length] at hj
    simp only [ring_fio.Answers, Function.update_of_ne (h.slot_ne hlt hj), decide_eq_true_eq]
    exact h.ne_next hlt hj
  rw [ring_fio.findCqe_eq, hvisited, List.find?_append, hothers, Option.none_or]
  exact List.find?_cons_of_pos (by simp [ring_fio.Answers])

end Posts

/-- Between two calls: the completer is at its channel, and as long as completions are pending,
the first of them has not been given back. -/
structure Resting (zc : Size) (q : completion_queue.State) (idx : UInt64) (n : Nat) : Prop
    extends LastIds zc q.cq idx n where
  recv : q.completer.pc = .recv
  seen : q.completer.seen = []
  held : (q.cq.head &&& zc.mask).toNat ∉ q.completer.unacked
  unacked : n = 0 → q.completer.unacked = ∅

theorem resting_init (zc : Size) (idx : UInt64) : Resting zc completion_queue.init idx 0 where
  length := rfl
  ids := fun j hj => absurd hj (Nat.not_lt_zero j)
  recv := rfl
  seen := rfl
  held := Finset.notMem_empty _
  unacked := fun _ => rfl

section Rests

variable {zc : Size} {q q' : completion_queue.State} {idx : UInt64} {n : Nat} {x : Nat}

/-- The completer takes a slot up and comes back to its channel. -/
theorem completer_round (hrecv : q.completer.pc = .recv) (hseen : q.completer.seen = []) :
    let swept := sweep (q.cq.head &&& zc.mask).toNat (insert x q.completer.unacked).card 0
      (insert x q.completer.unacked)
    (complete q x).bind (fun q1 =>
        (completerStep zc q1).bind fun q2 => (completerStep zc q2).bind (completerStep zc)) =
      some { q with
        cq := { q.cq with head := q.cq.head + UInt32.ofNat swept.1 }
        completer := ⟨[], swept.2, .recv⟩ } := by
  simp [complete, completion_queue.seenCap, hseen, completerStep, hrecv]

/-- A slot that is not the first one of the window waits there. -/
theorem sweep_of_notMem {i turns : Nat} {u : Finset Nat} (h : i ∉ u) :
    sweep i turns 0 u = (0, u) := by
  cases turns with
  | zero => rfl
  | succ turns => rw [sweep, Nat.add_zero, if_neg h]

theorem sweep_singleton (i : Nat) : sweep i 1 0 {i} = (1, ∅) := by
  simp [sweep]

/-- The slot of the last completion comes to the completer. -/
theorem Resting.complete (h : Resting zc q idx (n + 1)) (hn : n < zc.slots)
    (hempty : n = 0 → q.completer.unacked = ∅)
    (hx : x = (q.cq.head.toNat + n) % zc.slots) :
    ∃ q', (complete q x).bind (fun q1 =>
        (completerStep zc q1).bind fun q2 => (completerStep zc q2).bind (completerStep zc)) =
      some q' ∧ Resting zc q' idx (if n = 0 then 0 else n + 1) := by
  rw [completer_round h.recv h.seen]
  refine ⟨_, rfl, ?_⟩
  by_cases hzero : n = 0
  · subst hzero
    have hfirst : x = (q.cq.head &&& zc.mask).toNat := by rw [hx, zc.and_mask, Nat.add_zero]
    have hswept : sweep (q.cq.head &&& zc.mask).toNat (insert x q.completer.unacked).card 0
        (insert x q.completer.unacked) = (1, ∅) := by
      rw [hempty rfl, hfirst, LawfulSingleton.insert_empty_eq, Finset.card_singleton,
        sweep_singleton]
    simp only [hswept, if_true]
    refine ⟨⟨?_, nofun⟩, rfl, rfl, Finset.notMem_empty _, fun _ => rfl⟩
    have hmove : (q.cq.head + 1 - q.cq.head).toNat = 1 := by
      rw [UInt32.add_comm, UInt32.add_sub_cancel]
      rfl
    have hleft : (q.cq.tail - (q.cq.head + 1)).toNat =
        (q.cq.tail - q.cq.head).toNat - (q.cq.head + 1 - q.cq.head).toNat :=
      sub_of_move (Nat.le_of_eq (hmove.trans h.length.symm))
    rw [hmove, h.length] at hleft
    exact hleft
  · have hfirst : (q.cq.head &&& zc.mask).toNat ∉ insert x q.completer.unacked := by
      rw [Finset.mem_insert, not_or]
      refine ⟨fun hslot => hzero ?_, h.held⟩
      rw [zc.and_mask, hx] at hslot
      have := slot_inj (a := q.cq.head.toNat) (by omega) (by omega) (by omega) (by omega) hslot
      omega
    rw [sweep_of_notMem hfirst, if_neg hzero]
    have hhead : q.cq.head + UInt32.ofNat 0 = q.cq.head := UInt32.add_zero _
    simp only [hhead]
    exact ⟨h.toLastIds, rfl, rfl, hfirst, nofun⟩

/-- After a call with a `Res`, if the completion queue was empty or had room for two. -/
theorem Resting.reap (h : Resting zc q idx n) (hroom : n = 0 ∨ n + 1 < zc.slots) (res : Int32) :
    ∃ q', reap zc q (idx + 1) res = some q' ∧ Resting zc q' (idx + 1) (pendingAfter n res) := by
  have hlt : n < zc.slots := by
    have := zc.slots_pos
    omega
  obtain ⟨cq', hpost⟩ : ∃ cq', q.cq.publish zc ⟨idx + 1, res, 0⟩ = some cq' := by
    simp [CompletionQueue.publish, h.length, hlt]
  have hhead : cq'.head = q.cq.head := by rw [(CompletionQueue.publish_eq hpost).2]
  have hkept : Resting zc { q with cq := cq', posted := q.posted ++ [⟨idx + 1, res, 0⟩] } (idx + 1)
      (n + 1) :=
    ⟨h.toLastIds.publish hpost, h.recv, h.seen, by rw [hhead]; exact h.held,
      fun hn => absurd hn (Nat.succ_ne_zero n)⟩
  simp only [fio_calls.reap, completion_queue.publish, hpost, Option.map_some, Option.bind_some,
    h.found hroom hpost, if_true]
  by_cases hneg : res < 0
  · refine ⟨_, if_pos hneg, ?_⟩
    rw [pendingAfter, if_neg (fun hboth => hboth.2 hneg)]
    exact hkept
  · have hslot := h.tail_slot
    rw [← hhead] at hslot
    simp only [pendingAfter, hneg, not_false_eq_true, and_true]
    exact hkept.complete hlt h.unacked hslot

end Rests

/-! ## Sessions of calls that are served -/

section Sessions

variable {zs zc : Size} {s t : Session ω} {a : Act ω}

/-- Between two calls the queues are at rest. -/
def Rests (zs zc : Size) (s : Session ω) : Prop :=
  Clean zs s.sq ∧ Resting zc s.cq s.idx s.pending

theorem rests_start (zs zc : Size) (s : State ω) (idx : UInt64) :
    Rests zs zc (Session.start s idx) := by
  have hpending : (Session.start s idx).pending = 0 := (resting_init zc idx).length
  refine ⟨⟨⟨0, submit_queue.ready_init zs⟩, fun _ => rfl⟩, ?_⟩
  rw [hpending]
  exact resting_init zc idx

/-- The completions that are pending after a call that is served. -/
def Session.pendingBy (s : Session ω) (a : Act ω) : Nat :=
  match (transfer s.fio a).bind fun t => t.res s.fio with
  | none => s.pending
  | some res => pendingAfter s.pending res

theorem Session.le_pendingBy (s : Session ω) (a : Act ω) : s.pending ≤ s.pendingBy a := by
  unfold pendingBy pendingAfter
  split
  · exact Nat.le_refl _
  · split_ifs <;> omega

theorem Session.pendingBy_mono (hfio : s.fio = t.fio) (hle : t.pending ≤ s.pending) (a : Act ω) :
    t.pendingBy a ≤ s.pendingBy a := by
  unfold pendingBy
  rw [hfio]
  cases (transfer t.fio a).bind fun t' => t'.res t.fio with
  | none => exact hle
  | some res =>
    by_cases hneg : res < 0
    · simp only [pendingAfter, hneg, not_true_eq_false, and_false, if_false]
      omega
    · simp only [pendingAfter, hneg, not_false_eq_true, and_true]
      split_ifs <;> omega

/-- A call that is served returns, as it does without the queues, and leaves them at rest. -/
theorem Rests.step (h : Rests zs zc s) (hz : 2 ≤ zs.slots) (hok : Served zc s a) :
    ∃ s', Session.step zs zc s a = some s' ∧ s'.fio = fio_calls.step s.fio a ∧ Rests zs zc s' ∧
      s'.pending = s.pendingBy a := by
  unfold Session.step Session.pendingBy
  cases ht : transfer s.fio a with
  | none => exact ⟨_, rfl, rfl, h, rfl⟩
  | some t =>
    obtain ⟨hb, hreply, hroom⟩ := hok t ht
    obtain ⟨sq, hsq, hclean⟩ := h.1.submit hz hb hreply (s.idx + 1)
    obtain ⟨res, hres⟩ := Transfer.res_of_served hb hreply
    obtain ⟨cq, hcq, hresting⟩ := h.2.reap hroom res
    simp only [hsq, Option.bind_some, hres, hcq, Option.map_some]
    have hpending := hresting.length
    refine ⟨_, rfl, rfl, ⟨hclean, ?_⟩, hpending⟩
    rw [Session.pending, hpending]
    exact hresting

/-- A session that does what another one does, with no more completions pending. -/
structure Alike (zs zc : Size) (s t : Session ω) : Prop where
  fio : s.fio = t.fio
  left : Rests zs zc s
  right : Rests zs zc t
  pending : t.pending ≤ s.pending

theorem Alike.served (h : Alike zs zc s t) (hok : Served zc s a) : Served zc t a := by
  intro x hx
  rw [← h.fio] at hx ⊢
  obtain ⟨hb, hreply, hroom⟩ := hok x hx
  have := h.pending
  exact ⟨hb, hreply, by omega⟩

/-- Both make a call. -/
theorem Alike.step (h : Alike zs zc s t) (hz : 2 ≤ zs.slots) (hok : Served zc s a) :
    ∃ s' t', Session.step zs zc s a = some s' ∧ Session.step zs zc t a = some t' ∧
      Alike zs zc s' t' := by
  obtain ⟨s', hs, hfio, hrests, hpending⟩ := h.left.step hz hok
  obtain ⟨t', ht, hfio', hrests', hpending'⟩ := h.right.step hz (h.served hok)
  refine ⟨s', t', hs, ht, ?_, hrests, hrests', ?_⟩
  · rw [hfio, hfio', h.fio]
  · rw [hpending, hpending']
    exact Session.pendingBy_mono h.fio h.pending a

end Sessions

end iouring.fio_calls
