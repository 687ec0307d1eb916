-- What one step of the ring does, each step with its guard, and the first
-- law that follows: the tokens that `Ring.run` sends to itself.
import Iouring.Ring

open counter machine
open iouring.completion_queue (CompletionEntry)

namespace iouring.ring

variable {ι : Type} [DecidableEq ι]

/-! ## The steps -/

/-- The steps of the ring, one case for each. -/
inductive Move (z : Size) (s : State ι) : Act ι → State ι → Prop
  | post {cqe q} (h : completion_queue.post z s.queue cqe = some q) :
      Move z s (.post cqe) { s with queue := q }
  | ack {p q} (hfree : ∀ id ∈ s.asked, s.queue.idAt p ≠ some id)
      (h : completion_queue.ack z s.queue p = some q) : Move z s (.ack p) { s with queue := q }
  | completer {q} (h : completion_queue.completerStep z s.queue = some q) :
      Move z s .completer { s with queue := q }
  | getPooled {g id r} (h : s.callers g = .idle) (hid : id ∉ s.asked)
      (hack : ∀ p ∈ s.queue.acked, s.queue.idAt p ≠ some id) (hr : r ∈ s.completionPool) :
      Move z s (.complete g id (some r)) { s with
        completionPool := s.completionPool.erase r
        asked := s.asked ++ [id]
        callers := Function.update s.callers g (.setId r id) }
  | getFresh {g id} (h : s.callers g = .idle) (hid : id ∉ s.asked)
      (hack : ∀ p ∈ s.queue.acked, s.queue.idAt p ≠ some id) :
      Move z s (.complete g id none) { s with
        fresh := s.fresh + 1
        asked := s.asked ++ [id]
        callers := Function.update s.callers g (.setId s.fresh id) }
  | setId {g r id} (h : s.callers g = .setId r id) :
      Move z s (.caller g) { s with
        heap := Function.update s.heap r { s.heap r with id := id }
        callers := Function.update s.callers g (.setRes r id) }
  | setRes {g r id} (h : s.callers g = .setRes r id) :
      Move z s (.caller g) { s with
        heap := Function.update s.heap r { s.heap r with res := 0 }
        callers := Function.update s.callers g (.setFlags r id) }
  | setFlags {g r id} (h : s.callers g = .setFlags r id) :
      Move z s (.caller g) { s with
        heap := Function.update s.heap r { s.heap r with flags := 0 }
        callers := Function.update s.callers g (.send r id) }
  | send {g r id} (h : s.callers g = .send r id) (hroom : s.completions.length < z.slots) :
      Move z s (.caller g) { s with
        completions := s.completions ++ [r]
        callers := Function.update s.callers g (.wait r id) }
  | wake {g r id} (h : s.callers g = .wait r id) (hdone : 0 < (s.heap r).done) :
      Move z s (.caller g) { s with
        heap := Function.update s.heap r { s.heap r with done := (s.heap r).done - 1 }
        callers := Function.update s.callers g (.readRes r id) }
  | readRes {g r id} (h : s.callers g = .readRes r id) :
      Move z s (.caller g) { s with
        callers := Function.update s.callers g (.readFlags r id (s.heap r).res) }
  | readFlags {g r id res} (h : s.callers g = .readFlags r id res) :
      Move z s (.caller g) { s with
        callers := Function.update s.callers g (.put r id res (s.heap r).flags) }
  | put {g r id res flags} (h : s.callers g = .put r id res flags) :
      Move z s (.caller g) { s with
        completionPool := s.completionPool ++ [r]
        results := s.results ++ [(id, res, flags)]
        callers := Function.update s.callers g .idle }
  | takeCompletion {r rest} (h : s.run = .select) (hc : s.completions = r :: rest) :
      Move z s .takeCompletion { s with completions := rest, run := .insert r }
  | takeRetry (h : s.run = .select) (hretry : 0 < s.retry) :
      Move z s .takeRetry { s with retry := s.retry - 1, run := .poll }
  | pollNone (h : s.run = .poll) (hc : s.completions = []) :
      Move z s .run { s with run := .loadHead }
  | pollTake {r rest} (h : s.run = .poll) (hc : s.completions = r :: rest) :
      Move z s .run { s with completions := rest, run := .insert r }
  | insert {r} (h : s.run = .insert r) :
      Move z s .run { s with inflight := s.inflight.insert (s.heap r).id r, run := .enter }
  | enter (h : s.run = .enter) : Move z s .run { s with run := .loadHead }
  | loadHead (h : s.run = .loadHead) : Move z s .run { s with run := .loadTail s.queue.cq.head }
  | loadTail {head} (h : s.run = .loadTail head) :
      Move z s .run { s with run := .slot (Scan.start z head s.queue.cq.tail) }
  | slotMiss {k} (h : s.run = .slot k)
      (hmiss : s.inflight.lookup (s.queue.cq.entries k.i).userData = none) :
      Move z s .run { s with run := Scan.advance z { k with seen := false } }
  | slotHit {k r} (h : s.run = .slot k)
      (hhit : s.inflight.lookup (s.queue.cq.entries k.i).userData = some r) :
      Move z s .run { s with
        run := .setRes { k with seenIdx := if k.seen then k.seenIdx + 1 else k.seenIdx } r
          (s.queue.cq.entries k.i) }
  | giveRes {k r cqe} (h : s.run = .setRes k r cqe) :
      Move z s .run { s with
        heap := Function.update s.heap r { s.heap r with res := cqe.res }
        run := .setFlags k r cqe }
  | giveFlags {k r cqe} (h : s.run = .setFlags k r cqe) :
      Move z s .run { s with
        heap := Function.update s.heap r { s.heap r with flags := cqe.flags }
        run := .done k r cqe }
  | signal {k r cqe} (h : s.run = .done k r cqe) (hcap : (s.heap r).done < doneCap) :
      Move z s .run { s with
        heap := Function.update s.heap r { s.heap r with done := (s.heap r).done + 1 }
        run := .delete k r cqe
        delivered := s.delivered ++ [cqe.userData] }
  | delete {k r cqe} (h : s.run = .delete k r cqe) :
      Move z s .run { s with
        inflight := s.inflight.erase (s.heap r).id
        run := Scan.advance z k }
  | storeHead {k} (h : s.run = .storeHead k) :
      Move z s .run { s with
        queue := { s.queue with cq := { s.queue.cq with head := k.head + k.seenIdx } }
        run := .lenInflight }
  | someInflight (h : s.run = .lenInflight) (hlen : s.inflight.entries.length > 0) :
      Move z s .run { s with run := .sendRetry }
  | noneInflight (h : s.run = .lenInflight) (hlen : ¬ s.inflight.entries.length > 0) :
      Move z s .run { s with run := .select }
  | sendRetry (h : s.run = .sendRetry) (hroom : s.retry < retryCap) :
      Move z s .run { s with retry := s.retry + 1, run := .select }

omit [DecidableEq ι] in
theorem readSlot_hit {z : Size} {s : State ι} {k : Scan} {r : Nat}
    (h : s.inflight.lookup (s.queue.cq.entries k.i).userData = some r) :
    readSlot z s k = .setRes { k with seenIdx := if k.seen then k.seenIdx + 1 else k.seenIdx } r
      (s.queue.cq.entries k.i) := by
  simp only [readSlot, h]

omit [DecidableEq ι] in
theorem readSlot_miss {z : Size} {s : State ι} {k : Scan}
    (h : s.inflight.lookup (s.queue.cq.entries k.i).userData = none) :
    readSlot z s k = Scan.advance z { k with seen := false } := by
  simp only [readSlot, h]

theorem runStep_move {z : Size} {s s' : State ι} (h : runStep z s = some s') :
    Move z s .run s' := by
  unfold runStep at h
  split at h
  case h_1 => cases h
  case h_2 hrun =>
    split at h
    · cases h; exact .pollNone hrun ‹_›
    · cases h; exact .pollTake hrun ‹_›
  case h_3 hrun => cases h; exact .insert hrun
  case h_4 hrun => cases h; exact .enter hrun
  case h_5 hrun => cases h; exact .loadHead hrun
  case h_6 hrun => cases h; exact .loadTail hrun
  case h_7 k hrun =>
    cases h
    cases hl : s.inflight.lookup (s.queue.cq.entries k.i).userData with
    | none => rw [readSlot_miss hl]; exact .slotMiss hrun hl
    | some r => rw [readSlot_hit hl]; exact .slotHit hrun hl
  case h_8 hrun => cases h; exact .giveRes hrun
  case h_9 hrun => cases h; exact .giveFlags hrun
  case h_10 hrun =>
    split at h
    · cases h; exact .signal hrun ‹_›
    · cases h
  case h_11 hrun => cases h; exact .delete hrun
  case h_12 hrun => cases h; exact .storeHead hrun
  case h_13 hrun =>
    split at h
    · cases h; exact .someInflight hrun ‹_›
    · cases h; exact .noneInflight hrun ‹_›
  case h_14 hrun =>
    split at h
    · cases h; exact .sendRetry hrun ‹_›
    · cases h

theorem callerStep_move {z : Size} {s s' : State ι} {g : ι} (h : callerStep z s g = some s') :
    Move z s (.caller g) s' := by
  unfold callerStep at h
  split at h
  case h_1 => cases h
  case h_2 hc => cases h; exact .setId hc
  case h_3 hc => cases h; exact .setRes hc
  case h_4 hc => cases h; exact .setFlags hc
  case h_5 hc =>
    split at h
    · cases h; exact .send hc ‹_›
    · cases h
  case h_6 hc =>
    split at h
    · cases h; exact .wake hc ‹_›
    · cases h
  case h_7 hc => cases h; exact .readRes hc
  case h_8 hc => cases h; exact .readFlags hc
  case h_9 hc => cases h; exact .put hc

theorem step_move {z : Size} {s s' : State ι} {a : Act ι} (h : step z s a = some s') :
    Move z s a s' := by
  cases a with
  | post cqe =>
    obtain ⟨q, hq, rfl⟩ := Option.map_eq_some_iff.mp h
    exact .post hq
  | ack p =>
    simp only [step, Option.ite_none_left_eq_some] at h
    obtain ⟨hfree, h⟩ := h
    obtain ⟨q, hq, rfl⟩ := Option.map_eq_some_iff.mp h
    exact .ack (fun id hid he => hfree ⟨id, hid, he⟩) hq
  | completer =>
    obtain ⟨q, hq, rfl⟩ := Option.map_eq_some_iff.mp h
    exact .completer hq
  | complete g id pick =>
    simp only [step, Option.ite_none_right_eq_some] at h
    obtain ⟨⟨hidle, hid, hack⟩, h⟩ := h
    obtain ⟨⟨r, s1⟩, hget, rfl⟩ := Option.map_eq_some_iff.mp h
    cases pick with
    | none =>
      cases hget
      exact .getFresh hidle hid hack
    | some r' =>
      simp only [getRequest, Option.ite_none_right_eq_some] at hget
      obtain ⟨hr, hget⟩ := hget
      cases hget
      exact .getPooled hidle hid hack hr
  | caller g => exact callerStep_move h
  | takeCompletion =>
    simp only [step] at h
    split at h
    · cases h; exact .takeCompletion ‹_› ‹_›
    · cases h
  | takeRetry =>
    simp only [step, Option.ite_none_right_eq_some] at h
    obtain ⟨⟨hrun, hretry⟩, h⟩ := h
    cases h
    exact .takeRetry hrun hretry
  | run => exact runStep_move h

/-! ## The retry tokens -/

/-- Where `Ring.run` is about to send to itself, the channel has room. -/
def RetryHasRoom (s : State ι) : Prop := s.run = .sendRetry → s.retry < retryCap

/-- Select takes the completions case only while the retry channel has room. -/
def TakesWithRoom (s : State ι) : Act ι → Prop
  | .takeCompletion => s.retry < retryCap
  | _ => True

instance (s : State ι) (a : Act ι) : Decidable (TakesWithRoom s a) :=
  match a with
  | .takeCompletion => inferInstanceAs (Decidable (s.retry < retryCap))
  | .post _ | .ack _ | .completer | .complete _ _ _ | .caller _ | .takeRetry | .run =>
    isTrue trivial

/-- Between two selects there is room for one more token. -/
structure RetryInv (s : State ι) : Prop where
  le : s.retry ≤ retryCap
  room : s.run ≠ .select → s.retry < retryCap

omit [DecidableEq ι] in
theorem retryInv_init : RetryInv (init ι) := ⟨Nat.zero_le _, fun _ => Nat.zero_lt_two⟩

omit [DecidableEq ι] in
/-- A step inside an iteration leaves the tokens alone. -/
theorem RetryInv.inside {s s' : State ι} (hi : RetryInv s) (hrun : s.run ≠ .select)
    (hretry : s'.retry = s.retry) : RetryInv s' := by
  have hroom := hi.room hrun
  refine ⟨?_, fun _ => ?_⟩
  · rw [hretry]
    exact Nat.le_of_lt hroom
  · rwa [hretry]

theorem retryInv_move {z : Size} {s s' : State ι} {a : Act ι} (hi : RetryInv s)
    (hok : TakesWithRoom s a) (hm : Move z s a s') : RetryInv s' := by
  cases hm with
  | takeCompletion h hc => exact ⟨hi.le, fun _ => hok⟩
  | takeRetry h hretry =>
    have hle := hi.le
    refine ⟨?_, fun _ => ?_⟩
    · simp only
      omega
    · simp only
      omega
  | sendRetry h hroom => exact ⟨hroom, fun hne => absurd rfl hne⟩
  | post h | ack hfree h | completer h | getPooled h hid hack hr | getFresh h hid hack
  | setId h | setRes h | setFlags h | send h hroom | wake h hdone | readRes h | readFlags h
  | put h => exact ⟨hi.le, hi.room⟩
  | _ => exact hi.inside (by simp [*]) rfl

/-- In every run in which select takes a completion only while the retry
channel has room, `Ring.run` never blocks on its own channel. -/
theorem the_loop_never_blocks_on_itself (z : Size) (as : List (Act ι))
    (h : Along (step z) TakesWithRoom (init ι) as) :
    Always (step z) RetryHasRoom (init ι) as := by
  have hstep : ∀ (s : State ι) a s', RetryInv s → TakesWithRoom s a → step z s a = some s' →
      RetryInv s' := fun s a s' hi hok hs => retryInv_move hi hok (step_move hs)
  have hroom : ∀ s : State ι, RetryInv s → RetryHasRoom s := by
    intro s hi hrun
    exact hi.room (by rw [hrun]; simp)
  exact Along.always hstep hroom retryInv_init h

/-- A call of `complete` up to where it waits, with a new request. -/
def askActs (g : ι) (id : UInt64) : List (Act ι) :=
  .complete g id none :: List.replicate 4 (.caller g)

/-- An iteration of `Ring.run` up to where it has looked at `len(inflight)`,
when it takes a completion and `onEntry` reads a single slot without a match. -/
def takeActs : List (Act ι) := .takeCompletion :: List.replicate 7 .run

/-- Two completions on a ring of four, each one taken while there is room. -/
theorem two_completions_leave_room :
    Always (step ⟨2, by decide⟩) RetryHasRoom (init (Fin 3))
        (askActs 0 1 ++ askActs 1 2 ++ takeActs ++ [Act.run] ++ takeActs) ∧
      (run (step ⟨2, by decide⟩) (init (Fin 3))
        (askActs 0 1 ++ askActs 1 2 ++ takeActs ++ [Act.run] ++ takeActs)).map
        (fun s => (s.run, s.retry)) = some (.sendRetry, 1) :=
  ⟨the_loop_never_blocks_on_itself _ _ (by decide), by decide⟩

/-- Three completions in a row on a ring of four, with nothing posted: the
third one leaves `Ring.run` at its send with both tokens in the channel, and
nobody else receives from it. -/
theorem three_completions_in_a_row_block_the_loop :
    (run (step ⟨2, by decide⟩) (init (Fin 3))
        (askActs 0 1 ++ askActs 1 2 ++ askActs 2 3 ++ takeActs ++ [Act.run] ++ takeActs ++
          [Act.run] ++ takeActs)).map
      (fun s => (s.run, s.retry, (step ⟨2, by decide⟩ s .run).isSome)) =
      some (.sendRetry, 2, false) := by
  decide

end iouring.ring
