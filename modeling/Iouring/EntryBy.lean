-- `CompletionQueue.EntryBy`, which `ringConn` looks up its completions with. It
-- marks what it returns, but does not ask for the mark when it looks; it looks at
-- slots outside of the window; and it takes a full queue for an empty one.
import Iouring.Listener
import Iouring.Search
import Iouring.SlotLoops

open counter search
open iouring.completion_queue (CompletionEntry CompletionQueue)
open iouring.listener (CqSeenFlag isZero)
open iouring.slot_loops

namespace iouring.entry_by

/-! ## The call -/

/-- The entry counts as read: it is marked, or all zero. -/
def Marked (entries : Nat → CompletionEntry) (x : Nat) : Bool :=
  (entries x).flags &&& CqSeenFlag == CqSeenFlag || isZero (entries x)

/-- What a loop of `EntryBy` keeps from turn to turn. -/
structure Scan where
  seenIdx : Nat
  seen : Bool
  seenEnd : Bool
  deriving DecidableEq, Repr

def Scan.start (i : Nat) : Scan := ⟨i, false, false⟩

/-- A turn at slot `i`, whose entry counts as read or not. -/
def Scan.turn (k : Scan) (marked : Bool) (i : Nat) : Scan :=
  let seen := if marked then true else if !k.seenEnd then false else k.seen
  let seenEnd := if marked then k.seenEnd else true
  ⟨if seen && !seenEnd then i + 1 else k.seenIdx, seen, seenEnd⟩

/-- One of the two loops of `EntryBy`, from slot `i` on for `turns` slots: the slot of
the first entry with the user data, and what `seenIdx` is there. -/
def entryLoop (entries : Nat → CompletionEntry) (userData : UInt64) :
    Nat → Nat → Scan → Option (Nat × Nat)
  | 0, _, _ => none
  | turns + 1, i, k =>
    let k' := k.turn (Marked entries i) i
    if (entries i).userData = userData then some (i, k'.seenIdx)
    else entryLoop entries userData turns (i + 1) k'

/-- What `EntryBy` does to the queue when it has found an entry. `size` is `c.Size`,
the length of the mapping in bytes. -/
def mark (size : UInt32) (cq : CompletionQueue) (i seenIdx : Nat) : CompletionQueue :=
  let cqe := cq.entries i
  { cq with
    head := if UInt32.ofNat seenIdx = size then 0 else UInt32.ofNat seenIdx
    entries := Function.update cq.entries i { cqe with flags := cqe.flags ||| CqSeenFlag } }

/-- The slot that `EntryBy` finds, and the `seenIdx` there. -/
def hit (z : Size) (cq : CompletionQueue) (userData : UInt64) : Option (Nat × Nat) :=
  let first := (cq.head &&& z.mask).toNat
  let last := (cq.tail &&& z.mask).toNat
  if first = last then none
  else
    (entryLoop cq.entries userData (z.slots - first) first (.start first)).or
      (entryLoop cq.entries userData (last + 1) 0 (.start 0))

/-- `CompletionQueue.EntryBy`: the queue after the call, and the slot that the returned
pointer points to, or `none` for `ErrEntryNotFound`. -/
def entryBy (z : Size) (size : UInt32) (cq : CompletionQueue) (userData : UInt64) :
    CompletionQueue × Option Nat :=
  match hit z cq userData with
  | none => (cq, none)
  | some (i, seenIdx) => (mark size cq i seenIdx, some i)

/-- The slot has the user data. -/
def Has (entries : Nat → CompletionEntry) (userData : UInt64) (x : Nat) : Bool :=
  (entries x).userData = userData

/-- A loop finds the first slot with the user data, whatever the marks are. -/
theorem entryLoop_fst (entries : Nat → CompletionEntry) (userData : UInt64)
    (turns i : Nat) (k : Scan) :
    (entryLoop entries userData turns i k).map Prod.fst =
      (List.range' i turns).find? (Has entries userData) := by
  induction turns generalizing i k with
  | zero => rfl
  | succ turns ih =>
    rw [List.range'_succ, List.find?_cons, entryLoop]
    by_cases hid : (entries i).userData = userData
    · simp [Has, hid]
    · simp only [Has, hid, decide_false, if_false]
      exact ih ..

/-- The slots that `EntryBy` looks at. -/
def looked (z : Size) (head tail : UInt32) : List Nat :=
  List.range' (head &&& z.mask).toNat (z.slots - (head &&& z.mask).toNat) ++
    List.range' 0 ((tail &&& z.mask).toNat + 1)

variable {z : Size} {size : UInt32} {cq : CompletionQueue} {userData : UInt64}

/-- A call changes nothing of an entry but its flags. -/
theorem entryBy_entries (z : Size) (size : UInt32) (cq : CompletionQueue) (userData : UInt64)
    (x : Nat) :
    ∃ flags, (entryBy z size cq userData).1.entries x = { cq.entries x with flags := flags } := by
  unfold entryBy
  cases hit z cq userData with
  | none => exact ⟨_, rfl⟩
  | some r =>
    by_cases hx : x = r.1
    · exact ⟨(cq.entries x).flags ||| CqSeenFlag, by simp [mark, hx]⟩
    · exact ⟨(cq.entries x).flags, by simp [mark, hx]⟩

/-- The call returns the slot that it finds. -/
theorem entryBy_snd : (entryBy z size cq userData).2 = (hit z cq userData).map Prod.fst := by
  unfold entryBy
  cases hit z cq userData with
  | none => rfl
  | some r => rfl

theorem entryBy_of_eq (h : (cq.head &&& z.mask).toNat = (cq.tail &&& z.mask).toNat) :
    (entryBy z size cq userData).2 = none := by
  rw [entryBy_snd, hit, if_pos h, Option.map_none]

theorem entryBy_of_ne (h : (cq.head &&& z.mask).toNat ≠ (cq.tail &&& z.mask).toNat) :
    (entryBy z size cq userData).2 =
      (looked z cq.head cq.tail).find? (Has cq.entries userData) := by
  rw [entryBy_snd, hit, if_neg h, Option.map_or, entryLoop_fst, entryLoop_fst, looked,
    List.find?_append]

theorem range_split {a b n : Nat} (hab : a ≤ b) (hbn : b ≤ n) :
    List.range' a (n - a) = List.range' a (b - a) ++ List.range' b (n - b) := by
  obtain ⟨p, rfl⟩ := Nat.exists_eq_add_of_le hab
  obtain ⟨q, rfl⟩ := Nat.exists_eq_add_of_le hbn
  rw [Nat.add_sub_cancel_left, Nat.add_sub_cancel_left, List.range'_append_1]
  congr 1
  omega

/-- A window that does not wrap: the first loop runs on to the end of `Entries`, and
the second one walks the slots up to `Tail` once more. -/
theorem looked_of_lt (h : (cq.tail - cq.head).toNat ≤ z.slots)
    (hlt : (cq.head &&& z.mask).toNat < (cq.tail &&& z.mask).toNat) :
    ∃ rest, looked z cq.head cq.tail = window z cq.head cq.tail ++ rest ∧
      ∀ x, x < z.slots ↔ x ∈ window z cq.head cq.tail ∨ x ∈ rest := by
  have hlast := z.and_mask_lt cq.tail
  have hwindow := window_of_lt h (by rwa [← z.and_mask, ← z.and_mask])
  rw [← z.and_mask, ← z.and_mask] at hwindow
  refine ⟨List.range' (cq.tail &&& z.mask).toNat (z.slots - (cq.tail &&& z.mask).toNat) ++
    List.range' 0 ((cq.tail &&& z.mask).toNat + 1), ?_, fun x => ?_⟩
  · rw [hwindow, ← List.append_assoc, looked,
      range_split (Nat.le_of_lt hlt) (Nat.le_of_lt hlast)]
  · rw [hwindow, List.mem_append, List.mem_range'_1, List.mem_range'_1, List.mem_range'_1]
    omega

/-- A window that wraps is looked at up to one slot past its end. -/
theorem looked_of_gt (h : (cq.tail - cq.head).toNat ≤ z.slots)
    (hlt : (cq.tail &&& z.mask).toNat < (cq.head &&& z.mask).toNat) :
    looked z cq.head cq.tail = window z cq.head cq.tail ++ [(cq.tail &&& z.mask).toNat] := by
  rw [← visited_of_lt h hlt, visited, if_neg (Nat.not_le_of_lt hlt), looked, List.append_assoc]
  congr 1
  rw [List.range'_concat, Nat.zero_add, Nat.one_mul]

/-! ## The law -/

/-- A call returns an entry if and only if a pending one has the user data that was
not returned before, and the entry that it returns is such a one. -/
def EntryByRight (z : Size) (size : UInt32) (cq : CompletionQueue) (returned : Nat → Prop)
    (userData : UInt64) : Prop :=
  ((entryBy z size cq userData).2.isSome ↔
      ∃ x ∈ window z cq.head cq.tail, (cq.entries x).userData = userData ∧ ¬ returned x) ∧
    ∀ x, (entryBy z size cq userData).2 = some x →
      x ∈ window z cq.head cq.tail ∧ (cq.entries x).userData = userData ∧ ¬ returned x

theorem entryByRight_iff_right {returned : Nat → Prop} :
    EntryByRight z size cq returned userData ↔ Right (window z cq.head cq.tail) returned
      (Has cq.entries userData) (entryBy z size cq userData).2 := by
  unfold EntryByRight Right
  cases (entryBy z size cq userData).2 with
  | none => simp [Has]
  | some x =>
    simp only [Has, decide_eq_true_eq, Option.isSome_some, true_iff, Option.some.injEq,
      forall_eq', reduceCtorEq, false_implies, and_true]
    exact ⟨fun h => h.2, fun h => ⟨⟨x, h⟩, h⟩⟩

/-- Over every queue, with any words and any slots, any user data and any set of
slots whose pending entries were returned before: a call of `EntryBy` is right,
exactly if
- when the queue is full, all pending entries with the user data were returned;
- when it is not full, the first pending entry with the user data was not returned;
- when it is neither full nor empty and does not wrap, and no pending entry has the
  user data, no slot at all has it;
- when it wraps, and no pending entry has the user data, the slot of `Tail` does not
  have it either. -/
theorem entry_by_finds_the_unread_iff (z : Size) (size : UInt32) (cq : CompletionQueue)
    (returned : Nat → Prop) (userData : UInt64) (h : (cq.tail - cq.head).toNat ≤ z.slots) :
    EntryByRight z size cq returned userData ↔
      ((cq.tail - cq.head).toNat = z.slots → ∀ x ∈ window z cq.head cq.tail,
        (cq.entries x).userData = userData → returned x) ∧
      ((cq.tail - cq.head).toNat < z.slots → ∀ x,
        (window z cq.head cq.tail).find? (Has cq.entries userData) = some x → ¬ returned x) ∧
      ((cq.head &&& z.mask).toNat < (cq.tail &&& z.mask).toNat →
        (∀ x ∈ window z cq.head cq.tail, (cq.entries x).userData ≠ userData) →
        ∀ x < z.slots, (cq.entries x).userData ≠ userData) ∧
      ((cq.tail &&& z.mask).toNat < (cq.head &&& z.mask).toNat →
        (∀ x ∈ window z cq.head cq.tail, (cq.entries x).userData ≠ userData) →
        (cq.entries (cq.tail &&& z.mask).toNat).userData ≠ userData) := by
  rw [entryByRight_iff_right]
  cases shape h with
  | full hfull =>
    -- the call takes the queue for empty
    have heq := (visited_of_full hfull).1
    rw [entryBy_of_eq heq.symm]
    generalize (cq.head &&& z.mask).toNat = first at heq ⊢
    generalize (cq.tail &&& z.mask).toNat = last at heq ⊢
    simp [Right, Has, hfull, heq]
  | straight hroom hle =>
    rcases Nat.eq_or_lt_of_le hle with heq | hlt
    · rw [entryBy_of_eq heq, window_of_eq hroom heq]
      generalize (cq.head &&& z.mask).toNat = first at heq ⊢
      generalize (cq.tail &&& z.mask).toNat = last at heq ⊢
      simp [Right, heq]
    · -- the second loop looks at every slot again
      obtain ⟨rest, hlooked, hall⟩ := looked_of_lt h hlt
      rw [entryBy_of_ne (Nat.ne_of_lt hlt), hlooked,
        @right_iff _ _ (window z cq.head cq.tail) rest [] _ _ (by simp) (by simp)]
      have hrest : (∀ x ∈ window z cq.head cq.tail, (cq.entries x).userData ≠ userData) →
          ((∀ x ∈ rest, (cq.entries x).userData ≠ userData) ↔
            ∀ x < z.slots, (cq.entries x).userData ≠ userData) := by
        intro hnone
        refine ⟨fun h x hx => ((hall x).mp hx).elim (hnone x) (h x), fun h x hx => h x ?_⟩
        exact (hall x).mpr (Or.inr hx)
      generalize (cq.head &&& z.mask).toNat = first at hlt ⊢
      generalize (cq.tail &&& z.mask).toNat = last at hlt ⊢
      simp only [hroom, Nat.ne_of_lt hroom, hlt, Nat.lt_asymm hlt, Has, List.find?_eq_none,
        decide_eq_true_eq, List.not_mem_nil, false_implies, implies_true, and_true, true_implies,
        true_and]
      exact and_congr_right fun _ => forall_congr' hrest
  | wrapped hroom hgt =>
    rw [entryBy_of_ne (Nat.ne_of_gt hgt), looked_of_gt h hgt,
      @right_iff _ _ (window z cq.head cq.tail) _ [] _ _ (by simp) (by simp)]
    generalize (cq.head &&& z.mask).toNat = first at hgt ⊢
    generalize (cq.tail &&& z.mask).toNat = last at hgt ⊢
    simp [Has, hroom, Nat.ne_of_lt hroom, hgt, Nat.lt_asymm hgt]

/-- Two pending entries on a ring of four, in slots 3 and 0, none of them returned
before: the call for the one in slot 0 is right. -/
theorem an_unread_entry_is_found :
    EntryByRight ⟨2, by decide⟩ 64 ⟨3, 5, numbered⟩ (fun _ => False) 0 ∧
      (entryBy ⟨2, by decide⟩ 64 ⟨3, 5, numbered⟩ 0).2 = some 0 :=
  ⟨(entry_by_finds_the_unread_iff _ _ _ _ _ (by decide)).mpr (by decide), by decide⟩

/-- Two pending entries on a ring of four, in slots 0 and 1: two calls for the id in
slot 1 return the same entry, which stays pending. A full ring of four: no call
returns anything. And a call for the id in slot 3, which is not pending, returns
that slot. -/
theorem entry_by_returns_an_entry_twice :
    (entryBy ⟨2, by decide⟩ 64 ⟨0, 2, numbered⟩ 1).2 = some 1 ∧
      (entryBy ⟨2, by decide⟩ 64 (entryBy ⟨2, by decide⟩ 64 ⟨0, 2, numbered⟩ 1).1 1).2 = some 1 ∧
      (entryBy ⟨2, by decide⟩ 64 ⟨0, 4, numbered⟩ 1).2 = none ∧
      1 ∈ window ⟨2, by decide⟩ 0 4 ∧
      (entryBy ⟨2, by decide⟩ 64 ⟨0, 2, numbered⟩ 3).2 = some 3 ∧
      3 ∉ window ⟨2, by decide⟩ 0 2 := by
  decide

end iouring.entry_by
