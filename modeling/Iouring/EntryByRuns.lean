-- Runs of posts and calls of `EntryBy`. A call stores a slot number in `Head`, while
-- `Tail` runs on through the laps: what it stores is right in the first lap of `Head`,
-- and in the last one before the word wraps, but in no other.
import Iouring.EntryBy
import Iouring.ListenerWalk

open counter machine
open iouring.completion_queue (CompletionEntry CompletionQueue)
open iouring.listener_walk (InRange)

namespace iouring.entry_by

/-! ## Runs of posts and calls -/

/-- The queue, and for each slot whether a call has returned the entry in it since it
was posted. -/
structure State where
  cq : CompletionQueue
  returned : Nat → Bool

/-- The queue of a new ring. -/
def State.new : State := ⟨⟨0, 0, fun _ => .zero⟩, fun _ => false⟩

inductive Act where
  | post (c : CompletionEntry)
  | call (userData : UInt64)
  deriving DecidableEq, Repr

/-- The state after a call of `EntryBy`. -/
def State.call (z : Size) (size : UInt32) (s : State) (userData : UInt64) : State :=
  match entryBy z size s.cq userData with
  | (cq, none) => { s with cq := cq }
  | (cq, some i) => ⟨cq, Function.update s.returned i true⟩

def step (z : Size) (size : UInt32) (s : State) : Act → Option State
  | .post c =>
    (s.cq.publish z c).map fun cq =>
      ⟨cq, Function.update s.returned (s.cq.tail &&& z.mask).toNat false⟩
  | .call userData => some (s.call z size userData)

/-- A call moves `Head` no further than to `Tail`, and only over entries that have been
returned, by this call or before. -/
def HeadRight (z : Size) (size : UInt32) (s : State) : Act → Prop
  | .post _ => True
  | .call userData =>
    let s' := s.call z size userData
    (s'.cq.head - s.cq.head).toNat ≤ (s.cq.tail - s.cq.head).toNat ∧
      ∀ x ∈ window z s.cq.head s'.cq.head, s'.returned x

/-! ## What a call stores -/

variable {z : Size} {size : UInt32} {s : State} {userData : UInt64}

/-- The slot after those that count as read one after the other, from slot `a` on and up to
slot `i`. -/
def afterMarked (entries : Nat → CompletionEntry) (a i : Nat) : Nat :=
  a + ((List.range' a (i + 1 - a)).takeWhile (Marked entries)).length

/-- It is slot 0 if it has the number `Size`, which counts bytes. -/
def newHead (size : UInt32) (entries : Nat → CompletionEntry) (a i : Nat) : Nat :=
  if afterMarked entries a i = size.toNat then 0 else afterMarked entries a i

theorem afterMarked_of_marked {entries : Nat → CompletionEntry} {a i : Nat}
    (hm : Marked entries a = true) (h : a ≤ i) :
    afterMarked entries a i = afterMarked entries (a + 1) i := by
  unfold afterMarked
  rw [show i + 1 - a = (i + 1 - (a + 1)) + 1 by omega, List.range'_succ,
    List.takeWhile_cons_of_pos hm, List.length_cons]
  omega

theorem afterMarked_of_not {entries : Nat → CompletionEntry} {a i : Nat}
    (hm : ¬ Marked entries a = true) (h : a ≤ i) : afterMarked entries a i = a := by
  unfold afterMarked
  rw [show i + 1 - a = (i + 1 - (a + 1)) + 1 by omega, List.range'_succ,
    List.takeWhile_cons_of_neg hm, List.length_nil, Nat.add_zero]

theorem afterMarked_le {entries : Nat → CompletionEntry} {a i : Nat} (h : a ≤ i) :
    afterMarked entries a i ≤ i + 1 := by
  have hle := (List.takeWhile_sublist (l := List.range' a (i + 1 - a)) (Marked entries)).length_le
  rw [List.length_range'] at hle
  unfold afterMarked
  omega

/-- Behind the first entry that does not count as read, a loop keeps `seenIdx`. -/
theorem entryLoop_of_seenEnd (entries : Nat → CompletionEntry) (turns i : Nat) {k : Scan}
    (hk : k.seenEnd = true) :
    entryLoop entries userData turns i k =
      ((List.range' i turns).find? (Has entries userData)).map fun j => (j, k.seenIdx) := by
  induction turns generalizing i k with
  | zero => rfl
  | succ turns ih =>
    have hturn : (k.turn (Marked entries i) i).seenEnd = true ∧
        (k.turn (Marked entries i) i).seenIdx = k.seenIdx := by
      simp [Scan.turn, hk]
    rw [List.range'_succ, List.find?_cons, entryLoop]
    by_cases hid : (entries i).userData = userData
    · simp [Has, hid, hturn.2]
    · simp only [Has, hid, decide_false, if_false]
      rw [ih _ hturn.1, hturn.2]

/-- A loop finds the first slot with the user data, and its `seenIdx` is the slot after those
that count as read. -/
theorem entryLoop_eq (entries : Nat → CompletionEntry) (turns a : Nat) (seen : Bool) :
    entryLoop entries userData turns a ⟨a, seen, false⟩ =
      ((List.range' a turns).find? (Has entries userData)).map fun i =>
        (i, afterMarked entries a i) := by
  induction turns generalizing a seen with
  | zero => rfl
  | succ turns ih =>
    have hafter : ∀ i, (List.range' (a + 1) turns).find? (Has entries userData) = some i →
        a ≤ i := by
      intro i hi
      have hmem := List.mem_of_find?_eq_some hi
      rw [List.mem_range'_1] at hmem
      omega
    rw [List.range'_succ, List.find?_cons, entryLoop]
    by_cases hid : (entries a).userData = userData
    · by_cases hm : Marked entries a = true
      · simp [Has, hid, hm, afterMarked, Scan.turn]
      · simp [Has, hid, hm, afterMarked, Scan.turn]
    · simp only [Has, hid, decide_false, if_false]
      by_cases hm : Marked entries a = true
      · have hturn : Scan.turn ⟨a, seen, false⟩ (Marked entries a) a = ⟨a + 1, true, false⟩ := by
          simp [Scan.turn, hm]
        rw [hturn, ih]
        exact Option.map_congr fun i hi => by rw [afterMarked_of_marked hm (hafter i hi)]
      · have hturn : Scan.turn ⟨a, seen, false⟩ (Marked entries a) a = ⟨a, false, true⟩ := by
          simp [Scan.turn, hm]
        rw [hturn, entryLoop_of_seenEnd _ _ _ rfl]
        exact Option.map_congr fun i hi => by rw [afterMarked_of_not hm (hafter i hi)]

/-- What a call finds, in terms of the slots. -/
theorem hit_eq (userData : UInt64)
    (h : (s.cq.head &&& z.mask).toNat ≠ (s.cq.tail &&& z.mask).toNat) :
    hit z s.cq userData =
      (((List.range' (s.cq.head &&& z.mask).toNat (z.slots - (s.cq.head &&& z.mask).toNat)).find?
        (Has s.cq.entries userData)).map fun i =>
          (i, afterMarked s.cq.entries (s.cq.head &&& z.mask).toNat i)).or
      (((List.range' 0 ((s.cq.tail &&& z.mask).toNat + 1)).find?
        (Has s.cq.entries userData)).map fun i => (i, afterMarked s.cq.entries 0 i)) := by
  rw [hit, if_neg h, Scan.start, Scan.start, entryLoop_eq, entryLoop_eq]

theorem call_of_hit {i k : Nat} (h : hit z s.cq userData = some (i, k)) :
    s.call z size userData = ⟨mark size s.cq i k, Function.update s.returned i true⟩ := by
  simp only [State.call, entryBy, h]

theorem call_of_miss (h : hit z s.cq userData = none) : s.call z size userData = s := by
  simp only [State.call, entryBy, h]

/-- A call moves `Head` to the slot after those that count as read. -/
theorem mark_head {a i : Nat} (hi : i < z.slots) (ha : a ≤ i) :
    (mark size s.cq i (afterMarked s.cq.entries a i)).head =
      word (newHead size s.cq.entries a i) := by
  have hle : afterMarked s.cq.entries a i ≤ i + 1 := afterMarked_le ha
  have hslots := z.slots_lt
  have hiff : UInt32.ofNat (afterMarked s.cq.entries a i) = size ↔
      afterMarked s.cq.entries a i = size.toNat := by
    rw [← UInt32.toNat_inj, UInt32.toNat_ofNat', Nat.mod_eq_of_lt (by omega)]
  simp only [mark, newHead, hiff]
  split_ifs
  · rfl
  · rfl

theorem newHead_le {a i : Nat} (hi : i < z.slots) (ha : a ≤ i) :
    newHead size s.cq.entries a i ≤ z.slots := by
  have hle : afterMarked s.cq.entries a i ≤ i + 1 := afterMarked_le ha
  unfold newHead
  split_ifs <;> omega

/-! ## The law -/

/-- The slot number `k` is right for `Head` when slot `i` is returned:
- `Head` is in its first lap and at most `k`, at least as many entries are pending as lie
  between them, and the slots between them have been returned;
- or `Head` is in the last lap before its word wraps, at least as many entries are pending
  as lie from there to slot `k` of the next lap, and these slots have been returned. -/
def PlaceRight (z : Size) (s : State) (i k : Nat) : Prop :=
  let head := s.cq.head.toNat
  let pending := (s.cq.tail - s.cq.head).toNat
  let returned := Function.update s.returned i true
  (head ≤ k ∧ k - head ≤ pending ∧ ∀ x ∈ List.range' head (k - head), returned x) ∨
    (2 ^ 32 ≤ head + z.slots ∧ 2 ^ 32 - head + k ≤ pending ∧
      ∀ x ∈ List.range' (head % z.slots) (2 ^ 32 - head) ++ List.range' 0 k, returned x)

/-- What has to hold of the queue when a call looks for an id, unless `Head` and `Tail` have the
same slot. If a slot from that of `Head` up to the end of the ring has the id, the first of
them is returned, and the slot after those that count as read from `Head` up to it has to be
right for `Head`. If none has it, the same goes for the first slot with the id from slot 0 up
to that of `Tail`, and for those that count as read from slot 0 on. -/
def MarksRight (z : Size) (size : UInt32) (s : State) : Act → Prop
  | .post _ => True
  | .call userData =>
    let first := (s.cq.head &&& z.mask).toNat
    let last := (s.cq.tail &&& z.mask).toNat
    let upper := (List.range' first (z.slots - first)).find? (Has s.cq.entries userData)
    let lower := (List.range' 0 (last + 1)).find? (Has s.cq.entries userData)
    first ≠ last →
      (∀ i ∈ upper, PlaceRight z s i (newHead size s.cq.entries first i)) ∧
        (upper = none → ∀ i ∈ lower, PlaceRight z s i (newHead size s.cq.entries 0 i))

instance (z : Size) (s : State) (i k : Nat) : Decidable (PlaceRight z s i k) :=
  inferInstanceAs (Decidable (_ ∨ _))

instance (z : Size) (size : UInt32) (s : State) : ∀ a, Decidable (MarksRight z size s a)
  | .post _ => isTrue trivial
  | .call _ => inferInstanceAs (Decidable (_ → _ ∧ _))

/-- A call that returns slot `i` is right, exactly if what it stores is. -/
theorem headRight_iff_placeRight (h : InRange z s.cq) {a i : Nat} (hi : i < z.slots) (ha : a ≤ i)
    (hhit : hit z s.cq userData = some (i, afterMarked s.cq.entries a i)) :
    HeadRight z size s (.call userData) ↔
      PlaceRight z s i (newHead size s.cq.entries a i) := by
  have hk : newHead size s.cq.entries a i ≤ z.slots := newHead_le hi ha
  unfold HeadRight PlaceRight
  unfold InRange at h
  dsimp only
  simp only [call_of_hit hhit, mark_head hi ha]
  generalize newHead size s.cq.entries a i = k at hk ⊢
  constructor
  · rintro ⟨hmove, hreturned⟩
    rcases lap_of_slot hk (Nat.le_trans hmove h) with hfirst | ⟨hlast, hfit⟩
    · rw [word_sub_first hk hfirst] at hmove
      rw [window_first hk hfirst] at hreturned
      exact Or.inl ⟨hfirst, hmove, hreturned⟩
    · rw [word_sub_last hlast hfit] at hmove
      rw [window_last hlast hfit] at hreturned
      exact Or.inr ⟨hlast, hmove, hreturned⟩
  · rintro (⟨hfirst, hmove, hreturned⟩ | ⟨hlast, hmove, hreturned⟩)
    · rw [word_sub_first hk hfirst, window_first hk hfirst]
      exact ⟨hmove, hreturned⟩
    · have hfit := Nat.le_trans hmove h
      rw [word_sub_last hlast hfit, window_last hlast hfit]
      exact ⟨hmove, hreturned⟩

/-- A call that finds nothing leaves `Head` where it is. -/
theorem headRight_of_miss (hhit : hit z s.cq userData = none) :
    HeadRight z size s (.call userData) := by
  unfold HeadRight
  dsimp only
  rw [call_of_miss hhit]
  simp [window_empty]

theorem headRight_iff_marksRight (h : InRange z s.cq) (a : Act) :
    HeadRight z size s a ↔ MarksRight z size s a := by
  cases a with
  | post c => exact Iff.rfl
  | call userData =>
    unfold MarksRight
    dsimp only
    by_cases hslot : (s.cq.head &&& z.mask).toNat = (s.cq.tail &&& z.mask).toNat
    · have hhit : hit z s.cq userData = none := by rw [hit, if_pos hslot]
      exact iff_of_true (headRight_of_miss hhit) fun hne => absurd hslot hne
    · have hhit := hit_eq userData hslot
      have hlast := z.and_mask_lt s.cq.tail
      simp only [ne_eq, hslot, not_false_eq_true, true_implies]
      cases hupper : (List.range' (s.cq.head &&& z.mask).toNat
          (z.slots - (s.cq.head &&& z.mask).toNat)).find? (Has s.cq.entries userData) with
      | some i =>
        rw [hupper, Option.map_some, Option.some_or] at hhit
        have hmem := List.mem_range'_1.mp (List.mem_of_find?_eq_some hupper)
        rw [headRight_iff_placeRight h (by omega) hmem.1 hhit]
        simp
      | none =>
        rw [hupper, Option.map_none, Option.none_or] at hhit
        cases hlower : (List.range' 0 ((s.cq.tail &&& z.mask).toNat + 1)).find?
            (Has s.cq.entries userData) with
        | some i =>
          rw [hlower, Option.map_some] at hhit
          have hmem := List.mem_range'_1.mp (List.mem_of_find?_eq_some hlower)
          rw [headRight_iff_placeRight h (by omega) hmem.1 hhit]
          simp
        | none =>
          rw [hlower, Option.map_none] at hhit
          exact iff_of_true (headRight_of_miss hhit) (by simp)

/-- A call whose store is right, and every post, keeps the pending entries within the
ring. -/
theorem inRange_step {a : Act} {s' : State} (h : InRange z s.cq) (hok : HeadRight z size s a)
    (hstep : step z size s a = some s') : InRange z s'.cq := by
  cases a with
  | post c =>
    simp only [step, Option.map_eq_some_iff] at hstep
    obtain ⟨cq, hpublish, rfl⟩ := hstep
    exact InRange.publish hpublish
  | call userData =>
    cases hstep
    have htail : (s.call z size userData).cq.tail = s.cq.tail := by
      cases hhit : hit z s.cq userData with
      | none => rw [call_of_miss hhit]
      | some r => rw [call_of_hit hhit]; rfl
    unfold InRange at h ⊢
    rw [htail, sub_of_move hok.1]
    omega

/-- Over every run of posts and calls of `EntryBy`, on a ring of any size, from any state
where the pending entries fit into the ring and with any `Size`: every store moves `Head`
to a place up to `Tail` and only over entries that have been returned, and the pending
entries always fit into the ring, exactly if every call finds the marks of the slots such that
the slot after them is the place in the lap that `Head` is in. -/
theorem entry_by_keeps_the_head_iff (z : Size) (size : UInt32) (s : State) (as : List Act)
    (h : InRange z s.cq) :
    (Along (step z size) (HeadRight z size) s as ∧
        Always (step z size) (fun s => InRange z s.cq) s as) ↔
      Along (step z size) (MarksRight z size) s as := by
  have hsame : Along (step z size) (HeadRight z size) s as ↔
      Along (step z size) (MarksRight z size) s as :=
    along_congr (fun _ _ _ => inRange_step) (fun _ a hin => headRight_iff_marksRight hin a) h as
  rw [← hsame]
  constructor
  · exact fun hboth => hboth.1
  · intro hhead
    exact ⟨hhead, hhead.always (fun _ _ _ => inRange_step) (fun _ hin => hin) h⟩

/-- Each of the requests 1 to `n` is posted and then returned. -/
def oneByOne (n : Nat) : List Act :=
  (List.range n).flatMap fun i => [.post ⟨(i + 1).toUInt64, 1, 0⟩, .call (i + 1).toUInt64]

/-- On a new ring of four, in the first lap. -/
theorem the_first_lap_is_kept :
    Along (step ⟨2, by decide⟩ 128) (HeadRight ⟨2, by decide⟩ 128) .new (oneByOne 4) ∧
      Always (step ⟨2, by decide⟩ 128) (fun s => InRange ⟨2, by decide⟩ s.cq) .new (oneByOne 4) :=
  (entry_by_keeps_the_head_iff _ _ .new (oneByOne 4) (Nat.zero_le _)).mpr (by decide)

/-- With a fifth request: the second loop stores 0 in `Head`, which was 3, and five entries
are pending on a ring of four. -/
theorem the_second_lap_moves_the_head_back :
    ((run (step ⟨2, by decide⟩ 128) .new (oneByOne 4)).map fun s => s.cq.head) = some 3 ∧
      ∃ s, run (step ⟨2, by decide⟩ 128) .new (oneByOne 5) = some s ∧
        s.cq.head = 0 ∧ s.cq.tail = 5 ∧ ¬ InRange ⟨2, by decide⟩ s.cq := by
  refine ⟨by decide, _, rfl, by decide, by decide, ?_⟩
  unfold InRange
  decide

end iouring.entry_by
