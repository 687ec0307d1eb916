-- One call of `onEntry` as a function of the queue and the map, with nobody else
-- writing meanwhile: which requests it signals, and how far it moves `Head`.
import Iouring.RingSteps
import Iouring.SlotLoops

open counter machine
open iouring.completion_queue (CompletionEntry CompletionQueue)
open iouring.slot_loops

namespace iouring.ring

/-! ## The call -/

/-- The map type of `inflight`. -/
abbrev Inflight := AList fun _ : UInt64 => Nat

/-- What a call of `onEntry` works on: the map, the requests, its flag and its
count. The slots whose entries it has delivered are kept for the laws only. -/
structure Handled where
  inflight : Inflight
  heap : Nat → CompletionRequest
  seen : Bool
  seenIdx : UInt32
  slots : List Nat

/-- A request with the result of an entry and one more token. -/
def CompletionRequest.given (q : CompletionRequest) (cqe : CompletionEntry) : CompletionRequest :=
  { q with res := cqe.res, flags := cqe.flags, done := q.done + 1 }

/-- The body of both loops for the slot `i`, or `none` when the send blocks. -/
def deliver (entries : Nat → CompletionEntry) (k : Handled) (i : Nat) : Option Handled :=
  let cqe := entries i
  match k.inflight.lookup cqe.userData with
  | none => some { k with seen := false }
  | some r =>
    if (k.heap r).done < doneCap then
      some { k with
        inflight := k.inflight.erase (k.heap r).id
        heap := Function.update k.heap r ((k.heap r).given cqe)
        seenIdx := if k.seen then k.seenIdx + 1 else k.seenIdx
        slots := k.slots ++ [i] }
    else none

/-- The first loop from index `i` on, with `turns` indices left. The flag says
whether it came to the slot of `Tail`. -/
def firstLoop (entries : Nat → CompletionEntry) (last : Nat) :
    Nat → Nat → Handled → Option (Handled × Bool)
  | 0, _, k => some (k, false)
  | turns + 1, i, k =>
    match deliver entries k i with
    | none => none
    | some k' => if i = last then some (k', true) else firstLoop entries last turns (i + 1) k'

/-- The second loop. -/
def secondLoop (entries : Nat → CompletionEntry) : Nat → Nat → Handled → Option Handled
  | 0, _, k => some k
  | turns + 1, i, k =>
    match deliver entries k i with
    | none => none
    | some k' => secondLoop entries turns (i + 1) k'

/-- A call starts with the flag set and nothing counted. -/
def Handled.start (inflight : Inflight) (heap : Nat → CompletionRequest) : Handled :=
  ⟨inflight, heap, true, 0, []⟩

/-- `Ring.onEntry`, or `none` when one of its sends blocks. -/
def onEntry (z : Size) (cq : CompletionQueue) (inflight : Inflight)
    (heap : Nat → CompletionRequest) : Option (CompletionQueue × Handled) :=
  let first := (cq.head &&& z.mask).toNat
  let last := (cq.tail &&& z.mask).toNat
  match firstLoop cq.entries last (z.slots - first) first (.start inflight heap) with
  | none => none
  | some (k, true) => some ({ cq with head := cq.head + k.seenIdx }, k)
  | some (k, false) =>
    match secondLoop cq.entries last 0 { k with seen := true } with
    | none => none
    | some k' => some ({ cq with head := cq.head + k'.seenIdx }, k')

/-! ## The loops over the slots they visit -/

/-- The body of the loops for a list of slots, one after the other. -/
def walk (entries : Nat → CompletionEntry) : List Nat → Handled → Option Handled
  | [], k => some k
  | i :: xs, k => (deliver entries k i).bind (walk entries xs)

section Loops

variable {entries : Nat → CompletionEntry} {last : Nat}

theorem firstLoop_of_le {turns i : Nat} (hi : i ≤ last) (hlast : last < i + turns) (k : Handled) :
    firstLoop entries last turns i k =
      (walk entries (List.range' i (last + 1 - i)) k).map fun k' => (k', true) := by
  induction turns generalizing i k with
  | zero => omega
  | succ turns ih =>
    obtain ⟨m, hm⟩ := Nat.exists_eq_succ_of_ne_zero (by omega : last + 1 - i ≠ 0)
    rw [hm, List.range'_succ, firstLoop, walk]
    cases deliver entries k i with
    | none => rfl
    | some k' =>
      by_cases hend : i = last
      · have hm0 : m = 0 := by omega
        simp [hend, hm0, walk]
      · have hm' : m = last + 1 - (i + 1) := by omega
        simp only [if_neg hend, Option.bind_some]
        rw [hm']
        exact ih (by omega) (by omega) k'

theorem firstLoop_of_ne {turns i : Nat} (hlast : ∀ y, i ≤ y → y < i + turns → y ≠ last)
    (k : Handled) :
    firstLoop entries last turns i k =
      (walk entries (List.range' i turns) k).map fun k' => (k', false) := by
  induction turns generalizing i k with
  | zero => rfl
  | succ turns ih =>
    rw [List.range'_succ, firstLoop, walk]
    cases deliver entries k i with
    | none => rfl
    | some k' =>
      simp only [if_neg (hlast i (Nat.le_refl i) (by omega)), Option.bind_some]
      exact ih (fun y hy hy' => hlast y (by omega) (by omega)) k'

theorem secondLoop_eq (turns i : Nat) (k : Handled) :
    secondLoop entries turns i k = walk entries (List.range' i turns) k := by
  induction turns generalizing i k with
  | zero => rfl
  | succ turns ih =>
    rw [List.range'_succ, secondLoop, walk]
    cases deliver entries k i with
    | none => rfl
    | some k' => exact ih (i + 1) k'

end Loops

/-- What a call leaves behind when its loops are over. -/
def Handled.store (cq : CompletionQueue) (k : Handled) : CompletionQueue × Handled :=
  ({ cq with head := cq.head + k.seenIdx }, k)

/-- The slots of the first walk of a call that wraps. -/
def upperSlots (z : Size) (cq : CompletionQueue) : List Nat :=
  List.range' (cq.head &&& z.mask).toNat (z.slots - (cq.head &&& z.mask).toNat)

/-- The slots of the second walk. -/
def lowerSlots (z : Size) (cq : CompletionQueue) : List Nat :=
  List.range' 0 (cq.tail &&& z.mask).toNat

variable {z : Size} {cq : CompletionQueue} {inflight : Inflight}
  {heap : Nat → CompletionRequest}

/-- A call on a queue that does not wrap is one walk over the visited slots. -/
theorem onEntry_of_le (hle : (cq.head &&& z.mask).toNat ≤ (cq.tail &&& z.mask).toNat) :
    onEntry z cq inflight heap =
      (walk cq.entries (visited z cq.head cq.tail) (.start inflight heap)).map
        (Handled.store cq) := by
  have hlast := z.and_mask_lt cq.tail
  unfold onEntry visited
  dsimp only
  rw [if_pos hle, firstLoop_of_le hle (by omega)]
  cases walk cq.entries _ _ <;> rfl

/-- A call on a queue that wraps is two walks, with the flag set again between
them. -/
theorem onEntry_of_lt (hlt : (cq.tail &&& z.mask).toNat < (cq.head &&& z.mask).toNat) :
    onEntry z cq inflight heap =
      ((walk cq.entries (upperSlots z cq) (.start inflight heap)).bind fun k =>
        walk cq.entries (lowerSlots z cq) { k with seen := true }).map (Handled.store cq) := by
  unfold onEntry
  dsimp only
  rw [firstLoop_of_ne (fun y _ _ => by omega), ← upperSlots]
  cases walk cq.entries (upperSlots z cq) _ with
  | none => rfl
  | some k =>
    simp only [Option.map_some, Option.bind_some, secondLoop_eq]
    rw [← lowerSlots]
    cases walk cq.entries (lowerSlots z cq) _ <;> rfl

theorem visited_eq_append (hlt : (cq.tail &&& z.mask).toNat < (cq.head &&& z.mask).toNat) :
    visited z cq.head cq.tail = upperSlots z cq ++ lowerSlots z cq := by
  rw [visited, if_neg (Nat.not_le_of_lt hlt)]
  rfl

/-! ## What a walk does to the requests -/

section Deliveries

variable {entries : Nat → CompletionEntry} {xs ys : List Nat} {k k' k1 : Handled}

/-- Every request is in the map under its own id. -/
def Keyed (k : Handled) : Prop := ∀ u r, k.inflight.lookup u = some r → (k.heap r).id = u

/-- The first entry with an id in a list of slots. -/
def firstWith (entries : Nat → CompletionEntry) (xs : List Nat) (u : UInt64) :
    Option CompletionEntry :=
  (xs.map entries).find? fun c => c.userData == u

/-- What the requests get from the entries in a list of slots. -/
structure Delivers (entries : Nat → CompletionEntry) (xs : List Nat) (k k' : Handled) : Prop where
  lookup : ∀ u, k'.inflight.lookup u =
    if (firstWith entries xs u).isSome then none else k.inflight.lookup u
  given : ∀ u r, k.inflight.lookup u = some r →
    k'.heap r = ((firstWith entries xs u).map (k.heap r).given).getD (k.heap r)
  others : ∀ r, (∀ u, k.inflight.lookup u ≠ some r) → k'.heap r = k.heap r

/-- Every request with an entry in a list of slots has room for one more token. -/
def Room (entries : Nat → CompletionEntry) (xs : List Nat) (k : Handled) : Prop :=
  ∀ u r, k.inflight.lookup u = some r → (firstWith entries xs u).isSome →
    (k.heap r).done < doneCap

theorem firstWith_append (u : UInt64) :
    firstWith entries (xs ++ ys) u = (firstWith entries xs u).or (firstWith entries ys u) := by
  rw [firstWith, List.map_append, List.find?_append]
  rfl

theorem firstWith_isSome {u : UInt64} :
    (firstWith entries xs u).isSome ↔ ∃ x ∈ xs, (entries x).userData = u := by
  simp [firstWith, List.find?_isSome]

theorem firstWith_singleton (i : Nat) (u : UInt64) :
    firstWith entries [i] u = if (entries i).userData = u then some (entries i) else none := by
  simp [firstWith, List.find?_singleton]

theorem Keyed.inj (h : Keyed k) {u u' : UInt64} {r : Nat} (hu : k.inflight.lookup u = some r)
    (hu' : k.inflight.lookup u' = some r) : u = u' := by
  rw [← h u r hu, ← h u' r hu']

theorem Delivers.of_lookup (h : Delivers entries xs k k') {u : UInt64} {r : Nat}
    (hu : k'.inflight.lookup u = some r) :
    firstWith entries xs u = none ∧ k.inflight.lookup u = some r := by
  rw [h.lookup] at hu
  split_ifs at hu with hsome
  exact ⟨Option.not_isSome_iff_eq_none.mp hsome, hu⟩

theorem Delivers.keyed (h : Delivers entries xs k k') (hk : Keyed k) : Keyed k' := by
  intro u r hu
  obtain ⟨hnone, hu⟩ := h.of_lookup hu
  rw [h.given u r hu, hnone]
  exact hk u r hu

theorem Delivers.nil (k : Handled) : Delivers entries [] k k where
  lookup := fun _ => rfl
  given := fun _ _ _ => rfl
  others := fun _ _ => rfl

theorem Delivers.append (h1 : Delivers entries xs k k1) (h2 : Delivers entries ys k1 k')
    (hk : Keyed k) : Delivers entries (xs ++ ys) k k' where
  lookup := by
    intro u
    rw [h2.lookup, h1.lookup, firstWith_append]
    cases firstWith entries xs u <;> cases firstWith entries ys u <;> rfl
  given := by
    intro u r hu
    rw [firstWith_append]
    cases hxs : firstWith entries xs u with
    | none =>
      have hu1 : k1.inflight.lookup u = some r := by
        rw [h1.lookup, hxs]
        exact hu
      have hsame : k1.heap r = k.heap r := by
        rw [h1.given u r hu, hxs]
        rfl
      rw [h2.given u r hu1, hsame, Option.none_or]
    | some c =>
      -- the request has left the map, and no other key stands for it
      have hgone : ∀ u', k1.inflight.lookup u' ≠ some r := by
        intro u' hu'
        obtain ⟨hnone, hu'⟩ := h1.of_lookup hu'
        rw [hk.inj hu' hu, hxs] at hnone
        cases hnone
      rw [h2.others r hgone, h1.given u r hu, hxs, Option.some_or]
  others := by
    intro r hr
    have hr1 : ∀ u, k1.inflight.lookup u ≠ some r := fun u hu => hr u (h1.of_lookup hu).2
    rw [h2.others r hr1, h1.others r hr]

theorem deliver_of_none {i : Nat} (h : k.inflight.lookup (entries i).userData = none) :
    deliver entries k i = some { k with seen := false } := by
  simp only [deliver, h]

theorem deliver_of_some {i r : Nat} (h : k.inflight.lookup (entries i).userData = some r) :
    deliver entries k i =
      if (k.heap r).done < doneCap then
        some { k with
          inflight := k.inflight.erase (k.heap r).id
          heap := Function.update k.heap r ((k.heap r).given (entries i))
          seenIdx := if k.seen then k.seenIdx + 1 else k.seenIdx
          slots := k.slots ++ [i] }
      else none := by
  simp only [deliver, h]

/-- One turn of a loop. -/
theorem deliver_delivers {i : Nat} (hk : Keyed k) (h : deliver entries k i = some k') :
    Delivers entries [i] k k' := by
  cases hl : k.inflight.lookup (entries i).userData with
  | none =>
    rw [deliver_of_none hl] at h
    cases h
    refine ⟨fun u => ?_, fun u r hu => ?_, fun _ _ => rfl⟩
    · by_cases hid : (entries i).userData = u
      · rw [firstWith_singleton, if_pos hid, ← hid]
        exact hl
      · rw [firstWith_singleton, if_neg hid]
        rfl
    · have hid : (entries i).userData ≠ u := by
        rintro rfl
        rw [hl] at hu
        cases hu
      rw [firstWith_singleton, if_neg hid]
      rfl
  | some r =>
    rw [deliver_of_some hl, Option.ite_none_right_eq_some] at h
    obtain ⟨-, h⟩ := h
    cases h
    rw [hk _ r hl]
    refine ⟨fun u => ?_, fun u r' hu => ?_, fun r' hr' => ?_⟩
    · by_cases hid : (entries i).userData = u
      · rw [firstWith_singleton, if_pos hid, ← hid]
        exact AList.lookup_erase _ _
      · rw [firstWith_singleton, if_neg hid]
        exact AList.lookup_erase_ne (Ne.symm hid)
    · by_cases hid : (entries i).userData = u
      · rw [← hid, hl] at hu
        cases hu
        rw [firstWith_singleton, if_pos hid]
        exact Function.update_self ..
      · rw [firstWith_singleton, if_neg hid]
        refine Function.update_of_ne ?_ ..
        rintro rfl
        exact hid (hk.inj hl hu)
    · refine Function.update_of_ne ?_ ..
      rintro rfl
      exact hr' _ hl

theorem walk_delivers (hk : Keyed k) (h : walk entries xs k = some k') :
    Delivers entries xs k k' := by
  induction xs generalizing k with
  | nil =>
    cases h
    exact .nil _
  | cons i xs ih =>
    obtain ⟨k1, h1, h⟩ := Option.bind_eq_some_iff.mp h
    have hd := deliver_delivers hk h1
    exact hd.append (ih (hd.keyed hk) h) hk

theorem room_append (h1 : Delivers entries xs k k1) :
    Room entries (xs ++ ys) k ↔ Room entries xs k ∧ Room entries ys k1 := by
  constructor
  · intro h
    refine ⟨fun u r hu hsome => h u r hu ?_, fun u r hu hsome => ?_⟩
    · rw [firstWith_append, Option.isSome_or, hsome, Bool.true_or]
    · obtain ⟨hnone, hu⟩ := h1.of_lookup hu
      rw [h1.given u r hu, hnone]
      refine h u r hu ?_
      rw [firstWith_append, hnone]
      exact hsome
  · rintro ⟨hx, hy⟩ u r hu hsome
    rw [firstWith_append] at hsome
    cases hxs : firstWith entries xs u with
    | some c => exact hx u r hu (by rw [hxs]; rfl)
    | none =>
      rw [hxs] at hsome
      have hu1 : k1.inflight.lookup u = some r := by
        rw [h1.lookup, hxs]
        exact hu
      have hroom := hy u r hu1 hsome
      rw [h1.given u r hu, hxs] at hroom
      exact hroom

theorem deliver_isSome {i : Nat} : (deliver entries k i).isSome ↔ Room entries [i] k := by
  cases hl : k.inflight.lookup (entries i).userData with
  | none =>
    rw [deliver_of_none hl]
    refine ⟨fun _ u r hu hsome => ?_, fun _ => rfl⟩
    obtain ⟨j, hj, rfl⟩ := firstWith_isSome.mp hsome
    rw [List.mem_singleton.mp hj, hl] at hu
    cases hu
  | some r =>
    rw [deliver_of_some hl]
    constructor
    · intro h u r' hu hsome
      obtain ⟨j, hj, rfl⟩ := firstWith_isSome.mp hsome
      rw [List.mem_singleton.mp hj, hl] at hu
      cases hu
      by_contra hfull
      rw [if_neg hfull] at h
      cases h
    · intro h
      rw [if_pos (h _ r hl (firstWith_isSome.mpr ⟨i, List.mem_singleton_self i, rfl⟩))]
      rfl

/-- No send of a walk blocks, exactly if there is room for all its tokens. -/
theorem walk_isSome (hk : Keyed k) : (walk entries xs k).isSome ↔ Room entries xs k := by
  induction xs generalizing k with
  | nil => exact ⟨fun _ u r _ h => (by cases h), fun _ => rfl⟩
  | cons i xs ih =>
    rw [walk]
    cases h1 : deliver entries k i with
    | none =>
      refine ⟨fun h => (by cases h), fun h => ?_⟩
      have hroom : Room entries [i] k := by
        intro u r hu hsome
        refine h u r hu ?_
        rw [← List.singleton_append, firstWith_append, Option.isSome_or, hsome, Bool.true_or]
      rw [← deliver_isSome, h1] at hroom
      cases hroom
    | some k1 =>
      have hd := deliver_delivers hk h1
      rw [Option.bind_some, ih (hd.keyed hk), ← List.singleton_append, room_append hd,
        ← deliver_isSome, h1]
      exact ⟨fun h => ⟨rfl, h⟩, fun h => h.2⟩

theorem firstWith_append_left {u : UInt64} (h : (firstWith entries xs u).isSome) :
    firstWith entries (xs ++ ys) u = firstWith entries xs u := by
  obtain ⟨c, hc⟩ := Option.isSome_iff_exists.mp h
  rw [firstWith_append, hc, Option.some_or]

/-- Two lists of slots give the requests the same, exactly if they hold the same
ids of the map, when they agree on the ids that both hold. -/
theorem delivers_iff (h : Delivers entries xs k k')
    (hboth : ∀ u, (firstWith entries xs u).isSome → (firstWith entries ys u).isSome →
      firstWith entries xs u = firstWith entries ys u) :
    Delivers entries ys k k' ↔ ∀ u r, k.inflight.lookup u = some r →
      ((firstWith entries xs u).isSome ↔ (firstWith entries ys u).isSome) := by
  constructor
  · intro h' u r hu
    have heq := h.lookup u
    rw [h'.lookup u, hu] at heq
    by_cases hxs : (firstWith entries xs u).isSome <;>
      by_cases hys : (firstWith entries ys u).isSome <;> simp [hxs, hys] at heq ⊢
  · intro hsame
    have heq : ∀ u r, k.inflight.lookup u = some r →
        firstWith entries xs u = firstWith entries ys u := by
      intro u r hu
      cases hys : firstWith entries ys u with
      | none =>
        have hxs := (hsame u r hu).not.mpr (by rw [hys]; simp)
        exact Option.not_isSome_iff_eq_none.mp hxs
      | some c =>
        have hsome : (firstWith entries ys u).isSome := by rw [hys]; rfl
        rw [hboth u ((hsame u r hu).mpr hsome) hsome, hys]
    refine ⟨fun u => ?_, fun u r hu => ?_, h.others⟩
    · cases hu : k.inflight.lookup u with
      | none =>
        rw [h.lookup, hu]
        split_ifs <;> rfl
      | some r => rw [h.lookup, heq u r hu, hu]
    · rw [h.given u r hu, heq u r hu]

end Deliveries

theorem onEntry_delivers {cq' : CompletionQueue} {k : Handled}
    (hk : Keyed (.start inflight heap)) (h : onEntry z cq inflight heap = some (cq', k)) :
    Delivers cq.entries (visited z cq.head cq.tail) (.start inflight heap) k := by
  rcases Nat.lt_or_ge (cq.tail &&& z.mask).toNat (cq.head &&& z.mask).toNat with hlt | hle
  · rw [onEntry_of_lt hlt] at h
    obtain ⟨k2, h, hstore⟩ := Option.map_eq_some_iff.mp h
    obtain ⟨k1, h1, h2⟩ := Option.bind_eq_some_iff.mp h
    cases hstore
    have hupper := walk_delivers hk h1
    have hlower := walk_delivers (k := { k1 with seen := true }) (hupper.keyed hk) h2
    rw [visited_eq_append hlt]
    exact hupper.append ⟨hlower.lookup, hlower.given, hlower.others⟩ hk
  · rw [onEntry_of_le hle] at h
    obtain ⟨k1, h1, hstore⟩ := Option.map_eq_some_iff.mp h
    cases hstore
    exact walk_delivers hk h1

theorem onEntry_isSome (hk : Keyed (.start inflight heap)) :
    (onEntry z cq inflight heap).isSome ↔
      Room cq.entries (visited z cq.head cq.tail) (.start inflight heap) := by
  rcases Nat.lt_or_ge (cq.tail &&& z.mask).toNat (cq.head &&& z.mask).toNat with hlt | hle
  · rw [onEntry_of_lt hlt, visited_eq_append hlt, Option.isSome_map]
    cases h1 : walk cq.entries (upperSlots z cq) (.start inflight heap) with
    | none =>
      refine ⟨fun h => (by cases h), fun h => ?_⟩
      have hroom : Room cq.entries (upperSlots z cq) (.start inflight heap) := by
        intro u r hu hsome
        refine h u r hu ?_
        rw [firstWith_append, Option.isSome_or, hsome, Bool.true_or]
      rw [← walk_isSome hk, h1] at hroom
      cases hroom
    | some k1 =>
      have hupper := walk_delivers hk h1
      have hkeyed : Keyed { k1 with seen := true } := hupper.keyed hk
      rw [Option.bind_some, walk_isSome hkeyed, room_append hupper, ← walk_isSome hk, h1]
      exact ⟨fun h => ⟨rfl, h⟩, fun h => h.2⟩
  · rw [onEntry_of_le hle, Option.isSome_map, walk_isSome hk]

/-! ## The law of the deliveries -/

/-- A call of `onEntry` returns and gives the requests what the pending entries
hold for them: a request leaves the map if and only if a pending entry has its
id, and then it has got the result of the first such entry and one token; the
other requests are as they were. -/
def DeliversPending (z : Size) (cq : CompletionQueue) (inflight : Inflight)
    (heap : Nat → CompletionRequest) : Prop :=
  ∃ cq' k, onEntry z cq inflight heap = some (cq', k) ∧
    Delivers cq.entries (window z cq.head cq.tail) (.start inflight heap) k

/-- What a call gives is what the visited slots hold. -/
theorem deliversPending_iff (hk : Keyed (.start inflight heap))
    (hboth : ∀ u, (firstWith cq.entries (visited z cq.head cq.tail) u).isSome →
      (firstWith cq.entries (window z cq.head cq.tail) u).isSome →
      firstWith cq.entries (visited z cq.head cq.tail) u =
        firstWith cq.entries (window z cq.head cq.tail) u) :
    DeliversPending z cq inflight heap ↔
      Room cq.entries (window z cq.head cq.tail) (.start inflight heap) ∧
        ∀ u r, inflight.lookup u = some r →
          ((firstWith cq.entries (visited z cq.head cq.tail) u).isSome ↔
            (firstWith cq.entries (window z cq.head cq.tail) u).isSome) := by
  constructor
  · rintro ⟨cq', k, h, hd⟩
    have hroom := (onEntry_isSome hk).mp (by rw [h]; rfl)
    have hsame := (delivers_iff (onEntry_delivers hk h) hboth).mp hd
    exact ⟨fun u r hu hsome => hroom u r hu ((hsame u r hu).mpr hsome), hsame⟩
  · rintro ⟨hroom, hsame⟩
    have hsome := (onEntry_isSome hk).mpr fun u r hu hv => hroom u r hu ((hsame u r hu).mp hv)
    obtain ⟨⟨cq', k⟩, h⟩ := Option.isSome_iff_exists.mp hsome
    exact ⟨cq', k, h, (delivers_iff (onEntry_delivers hk h) hboth).mpr hsame⟩

theorem mem_inflight_iff {u : UInt64} : u ∈ inflight ↔ ∃ r, inflight.lookup u = some r := by
  rw [← AList.lookup_isSome, Option.isSome_iff_exists]

section Shapes

variable (hkeys : ∀ u r, inflight.lookup u = some r → (heap r).id = u)
include hkeys

/-- The walk over a full window sees its first slot only. -/
theorem deliversPending_of_full (hfull : (cq.tail - cq.head).toNat = z.slots) :
    DeliversPending z cq inflight heap ↔
      Room cq.entries (window z cq.head cq.tail) (.start inflight heap) ∧
        ∀ x ∈ window z cq.head cq.tail, (cq.entries x).userData ∈ inflight →
          (cq.entries x).userData = (cq.entries (cq.head &&& z.mask).toNat).userData := by
  obtain ⟨rest, hwindow, -⟩ := window_of_full hfull
  have hvisited := (visited_of_full hfull).2
  have hfirst : (cq.head &&& z.mask).toNat ∈ window z cq.head cq.tail := by
    rw [hwindow]
    exact List.mem_cons_self
  rw [deliversPending_iff hkeys]
  · refine and_congr_right fun _ => ⟨fun hsame x hx hid => ?_, fun hids u r hu => ?_⟩
    · obtain ⟨r, hr⟩ := mem_inflight_iff.mp hid
      have hin := (hsame _ r hr).mpr (firstWith_isSome.mpr ⟨x, hx, rfl⟩)
      rw [hvisited, firstWith_isSome] at hin
      obtain ⟨y, hy, heq⟩ := hin
      rw [← heq, List.mem_singleton.mp hy]
    · rw [hvisited, firstWith_isSome, firstWith_isSome]
      constructor
      · rintro ⟨y, hy, heq⟩
        rw [List.mem_singleton.mp hy] at heq
        exact ⟨_, hfirst, heq⟩
      · rintro ⟨x, hx, rfl⟩
        exact ⟨_, List.mem_singleton_self _, (hids x hx (mem_inflight_iff.mpr ⟨r, hu⟩)).symm⟩
  · intro u hv _
    rw [hvisited] at hv ⊢
    rw [hwindow]
    exact (firstWith_append_left hv).symm

/-- The walk over a window that does not wrap sees the slot behind it as well. -/
theorem deliversPending_of_le (hroom : (cq.tail - cq.head).toNat < z.slots)
    (hle : (cq.head &&& z.mask).toNat ≤ (cq.tail &&& z.mask).toNat) :
    DeliversPending z cq inflight heap ↔
      Room cq.entries (window z cq.head cq.tail) (.start inflight heap) ∧
        ((cq.entries (cq.tail &&& z.mask).toNat).userData ∈ inflight →
          ∃ x ∈ window z cq.head cq.tail,
            (cq.entries x).userData = (cq.entries (cq.tail &&& z.mask).toNat).userData) := by
  have hvisited := visited_of_le hroom hle
  rw [deliversPending_iff hkeys]
  · refine and_congr_right fun _ => ⟨fun hsame hid => ?_, fun htail u r hu => ?_⟩
    · obtain ⟨r, hr⟩ := mem_inflight_iff.mp hid
      refine firstWith_isSome.mp ((hsame _ r hr).mp (firstWith_isSome.mpr ⟨_, ?_, rfl⟩))
      rw [hvisited]
      exact List.mem_append_right _ (List.mem_singleton_self _)
    · rw [hvisited, firstWith_append, Option.isSome_or, Bool.or_eq_true]
      refine ⟨fun hor => hor.elim id fun hone => ?_, Or.inl⟩
      obtain ⟨y, hy, rfl⟩ := firstWith_isSome.mp hone
      rw [List.mem_singleton.mp hy] at hu ⊢
      exact firstWith_isSome.mpr (htail (mem_inflight_iff.mpr ⟨r, hu⟩))
  · intro u _ hw
    rw [hvisited, firstWith_append_left hw]

/-- The walk over a window that wraps sees the window. -/
theorem deliversPending_of_lt (h : (cq.tail - cq.head).toNat ≤ z.slots)
    (hgt : (cq.tail &&& z.mask).toNat < (cq.head &&& z.mask).toNat) :
    DeliversPending z cq inflight heap ↔
      Room cq.entries (window z cq.head cq.tail) (.start inflight heap) := by
  have hvisited := visited_of_lt h hgt
  rw [deliversPending_iff hkeys (by rw [hvisited]; exact fun _ _ _ => rfl), hvisited]
  exact ⟨fun hboth => hboth.1, fun hroom => ⟨hroom, fun _ _ _ => Iff.rfl⟩⟩

end Shapes

/-- Over every queue, with any words and any slots, and every map that holds each
request under its id: a call of `onEntry` delivers exactly the pending entries,
exactly if
- each request with a pending entry has room for a token;
- when the queue is full, no pending entry has an id of the map other than the id
  of the first one;
- when it is not full and does not wrap, and the slot of `Tail` has an id of the
  map, a pending entry has that id. -/
theorem on_entry_delivers_the_pending_iff (z : Size) (cq : CompletionQueue) (inflight : Inflight)
    (heap : Nat → CompletionRequest)
    (hkeys : ∀ u r, inflight.lookup u = some r → (heap r).id = u)
    (h : (cq.tail - cq.head).toNat ≤ z.slots) :
    DeliversPending z cq inflight heap ↔
      (∀ u r, inflight.lookup u = some r →
        (∃ x ∈ window z cq.head cq.tail, (cq.entries x).userData = u) →
        (heap r).done < doneCap) ∧
      ((cq.tail - cq.head).toNat = z.slots → ∀ x ∈ window z cq.head cq.tail,
        (cq.entries x).userData ∈ inflight →
        (cq.entries x).userData = (cq.entries (cq.head &&& z.mask).toNat).userData) ∧
      ((cq.tail - cq.head).toNat < z.slots →
        (cq.head &&& z.mask).toNat ≤ (cq.tail &&& z.mask).toNat →
        (cq.entries (cq.tail &&& z.mask).toNat).userData ∈ inflight →
        ∃ x ∈ window z cq.head cq.tail,
          (cq.entries x).userData = (cq.entries (cq.tail &&& z.mask).toNat).userData) := by
  have hroom : Room cq.entries (window z cq.head cq.tail) (.start inflight heap) ↔
      ∀ u r, inflight.lookup u = some r →
        (∃ x ∈ window z cq.head cq.tail, (cq.entries x).userData = u) →
        (heap r).done < doneCap := by
    simp only [Room, firstWith_isSome, Handled.start]
  rw [← hroom]
  cases shape h with
  | full hfull =>
    rw [deliversPending_of_full hkeys hfull]
    refine and_congr_right fun _ => ⟨fun hids => ⟨fun _ => hids, fun hlt => ?_⟩, fun h => h.1 hfull⟩
    exact absurd hfull (Nat.ne_of_lt hlt)
  | straight hlt hle =>
    rw [deliversPending_of_le hkeys hlt hle]
    refine and_congr_right fun _ =>
      ⟨fun htail => ⟨fun hfull => ?_, fun _ _ => htail⟩, fun h => h.2 hlt hle⟩
    exact absurd hfull (Nat.ne_of_lt hlt)
  | wrapped hlt hgt =>
    rw [deliversPending_of_lt hkeys h hgt]
    refine ⟨fun hr => ⟨hr, fun hfull => ?_, fun _ hle => ?_⟩, fun h => h.1⟩
    · exact absurd hfull (Nat.ne_of_lt hlt)
    · exact absurd hgt (Nat.not_lt_of_le hle)

/-- A map with one request, which waits for the id `id`. -/
def oneInflight (id : UInt64) : Inflight := AList.singleton id 0

theorem oneInflight_key {id u : UInt64} {r : Nat} (h : (oneInflight id).lookup u = some r) :
    id = u := by
  have hmem : u ∈ oneInflight id := AList.lookup_isSome.mp (by rw [h]; rfl)
  simpa [oneInflight, AList.mem_keys, eq_comm] using hmem

/-- Two pending entries on a ring of four, in slots 3 and 0, and a request for the
one in slot 0. -/
theorem a_wrapped_window_is_delivered :
    DeliversPending ⟨2, by decide⟩ ⟨3, 5, numbered⟩ (oneInflight 0) fun _ => ⟨0, 0, 0, 0⟩ := by
  refine (on_entry_delivers_the_pending_iff _ _ _ _ ?_ (by decide)).mpr ⟨?_, by decide, by decide⟩
  · exact fun _ _ h => oneInflight_key h
  · exact fun _ _ _ _ => (by decide : 0 < doneCap)

/-- A full ring of four, and a request for the id in its second slot: the request
gets nothing. An empty ring where slot 1 still holds the id 1 and `Tail` is there:
the request for 1 gets the result of the old entry. -/
theorem a_full_queue_is_not_delivered :
    (onEntry ⟨2, by decide⟩ ⟨0, 4, numbered⟩ (oneInflight 1) fun _ => ⟨1, 0, 0, 0⟩).map
        (fun r => (r.2.slots, r.2.heap 0, (r.2.inflight.lookup 1).isSome)) =
        some ([], ⟨1, 0, 0, 0⟩, true) ∧
      1 ∈ window ⟨2, by decide⟩ 0 4 ∧
      (onEntry ⟨2, by decide⟩ ⟨5, 5, numbered⟩ (oneInflight 1) fun _ => ⟨1, 0, 0, 0⟩).map
        (fun r => (r.2.slots, r.2.heap 0, (r.2.inflight.lookup 1).isSome)) =
        some ([1], ⟨1, 1, 0, 1⟩, false) ∧
      window ⟨2, by decide⟩ 5 5 = [] := by
  decide

end iouring.ring
