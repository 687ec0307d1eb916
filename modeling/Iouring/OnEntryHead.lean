-- How far one call of `onEntry` moves `Head`. Its two loops count the entries
-- that they deliver without a gap, each loop for itself, so the count of the
-- second one is added even when the first one left a gap.
import Iouring.OnEntry

open counter
open iouring.completion_queue (CompletionEntry CompletionQueue)
open iouring.slot_loops

namespace iouring.ring

/-! ## How far a walk counts -/

/-- How many slots of a list come before the first one that is not in `D`. -/
def prefixIn (D : List Nat) (xs : List Nat) : Nat := (xs.takeWhile fun x => decide (x ∈ D)).length

section Counts

variable {D D' : List Nat} {xs ys : List Nat}

theorem prefixIn_cons_of_mem {x : Nat} (h : x ∈ D) : prefixIn D (x :: xs) = prefixIn D xs + 1 := by
  simp [prefixIn, h]

theorem prefixIn_cons_of_notMem {x : Nat} (h : x ∉ D) : prefixIn D (x :: xs) = 0 := by
  simp [prefixIn, h]

theorem prefixIn_le (D xs : List Nat) : prefixIn D xs ≤ xs.length :=
  (List.takeWhile_prefix _).length_le

theorem prefixIn_congr (h : ∀ x ∈ xs, x ∈ D ↔ x ∈ D') : prefixIn D xs = prefixIn D' xs := by
  induction xs with
  | nil => rfl
  | cons x xs ih =>
    have hrest := ih fun y hy => h y (List.mem_cons_of_mem x hy)
    by_cases hx : x ∈ D
    · rw [prefixIn_cons_of_mem hx, prefixIn_cons_of_mem ((h x List.mem_cons_self).mp hx), hrest]
    · rw [prefixIn_cons_of_notMem hx,
        prefixIn_cons_of_notMem fun hx' => hx ((h x List.mem_cons_self).mpr hx')]

theorem prefixIn_append_of_forall (h : ∀ x ∈ xs, x ∈ D) :
    prefixIn D (xs ++ ys) = xs.length + prefixIn D ys := by
  induction xs with
  | nil => simp
  | cons x xs ih =>
    rw [List.cons_append, prefixIn_cons_of_mem (h x List.mem_cons_self),
      ih fun y hy => h y (List.mem_cons_of_mem x hy), List.length_cons]
    omega

theorem prefixIn_of_forall (h : ∀ x ∈ xs, x ∈ D) : prefixIn D xs = xs.length := by
  rw [← List.append_nil xs, prefixIn_append_of_forall h]
  simp [prefixIn]

theorem prefixIn_append_of_not (h : ¬ ∀ x ∈ xs, x ∈ D) :
    prefixIn D (xs ++ ys) = prefixIn D xs := by
  induction xs with
  | nil => exact absurd (fun x hx => (by cases hx)) h
  | cons x xs ih =>
    rw [List.cons_append]
    by_cases hx : x ∈ D
    · rw [prefixIn_cons_of_mem hx, prefixIn_cons_of_mem hx, ih]
      intro hall
      exact h (List.forall_mem_cons.mpr ⟨hx, hall⟩)
    · rw [prefixIn_cons_of_notMem hx, prefixIn_cons_of_notMem hx]

theorem prefixIn_eq_zero (h : ∀ x ∈ xs, x ∉ D) : prefixIn D xs = 0 := by
  cases xs with
  | nil => rfl
  | cons x xs => exact prefixIn_cons_of_notMem (h x List.mem_cons_self)

/-- What a walk delivers, and what it counts when it starts with the flag set: the
slots before the first one that it does not deliver. -/
theorem walk_counts {entries : Nat → CompletionEntry} {k k' : Handled} (hxs : xs.Nodup)
    (h : walk entries xs k = some k') :
    ∃ D, k'.slots = k.slots ++ D ∧ (∀ x ∈ D, x ∈ xs) ∧
      k'.seenIdx = k.seenIdx + word (if k.seen then prefixIn D xs else 0) := by
  induction xs generalizing k with
  | nil =>
    cases h
    exact ⟨[], by simp, by simp, by simp [prefixIn, word]⟩
  | cons i xs ih =>
    obtain ⟨k1, h1, h⟩ := Option.bind_eq_some_iff.mp h
    obtain ⟨hi, hxs⟩ := List.nodup_cons.mp hxs
    obtain ⟨D, hslots, hsub, hidx⟩ := ih hxs h
    cases hl : k.inflight.lookup (entries i).userData with
    | none =>
      rw [deliver_of_none hl] at h1
      cases h1
      refine ⟨D, hslots, fun x hx => List.mem_cons_of_mem i (hsub x hx), ?_⟩
      rw [hidx, prefixIn_cons_of_notMem fun hD => hi (hsub i hD)]
      simp
    | some r =>
      rw [deliver_of_some hl, Option.ite_none_right_eq_some] at h1
      obtain ⟨-, h1⟩ := h1
      cases h1
      have hcount : prefixIn (i :: D) (i :: xs) = prefixIn D xs + 1 := by
        rw [prefixIn_cons_of_mem List.mem_cons_self]
        congr 1
        apply prefixIn_congr
        intro x hx
        rw [List.mem_cons, or_iff_right]
        rintro rfl
        exact hi hx
      refine ⟨i :: D, ?_, ?_, ?_⟩
      · rw [hslots, List.append_assoc]
        rfl
      · exact List.forall_mem_cons.mpr
          ⟨List.mem_cons_self, fun x hx => List.mem_cons_of_mem i (hsub x hx)⟩
      · rw [hidx, hcount]
        cases k.seen with
        | false => rfl
        | true =>
          simp only [if_true, ← word_succ]
          rw [UInt32.add_assoc, UInt32.add_comm 1]

/-- A prefix of the slots in `D` that is not followed by another slot in `D`. -/
theorem eq_prefixIn_iff {n : Nat} :
    n = prefixIn D xs ↔ n ≤ xs.length ∧ (∀ j < n, ∃ x ∈ D, xs[j]? = some x) ∧
      ∀ x ∈ D, xs[n]? ≠ some x := by
  induction xs generalizing n with
  | nil =>
    constructor
    · rintro rfl
      exact ⟨Nat.le_refl _, fun j hj => absurd hj (Nat.not_lt_zero j), fun x _ => by simp⟩
    · rintro ⟨hle, -⟩
      exact Nat.le_zero.mp hle
  | cons y xs ih =>
    by_cases hy : y ∈ D
    · rw [prefixIn_cons_of_mem hy]
      cases n with
      | zero =>
        refine ⟨fun h => absurd h (Nat.succ_ne_zero _).symm, fun h => ?_⟩
        exact absurd rfl (h.2.2 y hy)
      | succ n =>
        rw [Nat.add_right_cancel_iff, ih, List.length_cons, Nat.add_le_add_iff_right,
          List.getElem?_cons_succ]
        refine and_congr_right fun _ => and_congr_left fun _ => ⟨fun h j hj => ?_, fun h j hj => ?_⟩
        · cases j with
          | zero => exact ⟨y, hy, rfl⟩
          | succ j => exact h j (Nat.lt_of_succ_lt_succ hj)
        · exact h (j + 1) (Nat.succ_lt_succ hj)
    · rw [prefixIn_cons_of_notMem hy]
      constructor
      · rintro rfl
        refine ⟨Nat.zero_le _, fun j hj => absurd hj (Nat.not_lt_zero j), fun x hx h => hy ?_⟩
        cases h
        exact hx
      · rintro ⟨-, h, -⟩
        refine Nat.eq_zero_of_not_pos fun hpos => hy ?_
        obtain ⟨x, hx, h0⟩ := h 0 hpos
        cases h0
        exact hx

end Counts

/-! ## The entries that answer a request -/

/-- The entries in a list of slots that find a request in the map, each with the request,
when a request that is found leaves the map under its id. -/
def answers (entries : Nat → CompletionEntry) (id : Nat → UInt64) :
    List Nat → Inflight → List (Nat × Nat)
  | [], _ => []
  | x :: xs, inflight =>
    match inflight.lookup (entries x).userData with
    | none => answers entries id xs inflight
    | some r => (x, r) :: answers entries id xs (inflight.erase (id r))

/-- A request after a list of answers: each of those to it has left its `Res` and `Flags` and
one token. -/
def received (entries : Nat → CompletionEntry) (r : Nat) (as : List (Nat × Nat))
    (q : CompletionRequest) : CompletionRequest :=
  as.foldl (fun q a => if a.2 = r then q.given (entries a.1) else q) q

/-- The entries that answer a request in the order in which the slots are visited. -/
def queueAnswers (z : Size) (cq : CompletionQueue) (inflight : Inflight)
    (heap : Nat → CompletionRequest) : List (Nat × Nat) :=
  answers cq.entries (fun r => (heap r).id) (visited z cq.head cq.tail) inflight

section Answers

variable {entries : Nat → CompletionEntry} {id : Nat → UInt64} {xs ys : List Nat}

theorem answers_append (inflight : Inflight) :
    answers entries id (xs ++ ys) inflight = answers entries id xs inflight ++
      answers entries id ys
        ((answers entries id xs inflight).foldl (fun m a => m.erase (id a.2)) inflight) := by
  induction xs generalizing inflight with
  | nil => rfl
  | cons x xs ih =>
    rw [List.cons_append]
    cases hl : inflight.lookup (entries x).userData with
    | none =>
      simp only [answers, hl]
      exact ih inflight
    | some r =>
      simp only [answers, hl, List.cons_append, List.foldl_cons]
      rw [ih]

/-- What a walk does to the map and to the requests: its slots are those of the answers, the
requests that are answered have left the map, and each request has what it was answered. -/
structure AfterAnswers (entries : Nat → CompletionEntry) (as : List (Nat × Nat)) (k k' : Handled) :
    Prop where
  slots : k'.slots = k.slots ++ as.map Prod.fst
  inflight : k'.inflight = as.foldl (fun m a => m.erase (k.heap a.2).id) k.inflight
  heap : ∀ r, k'.heap r = received entries r as (k.heap r)

theorem received_id (r : Nat) (as : List (Nat × Nat)) (q : CompletionRequest) :
    (received entries r as q).id = q.id := by
  induction as generalizing q with
  | nil => rfl
  | cons a as ih =>
    rw [received, List.foldl_cons, ← received, ih]
    split_ifs <;> rfl

theorem AfterAnswers.ids {k k' : Handled} {as : List (Nat × Nat)}
    (h : AfterAnswers entries as k k') :
    (fun r => (k'.heap r).id) = fun r => (k.heap r).id := by
  funext r
  rw [h.heap, received_id]

theorem AfterAnswers.append {k k1 k' : Handled} {as bs : List (Nat × Nat)}
    (h1 : AfterAnswers entries as k k1) (h2 : AfterAnswers entries bs k1 k') :
    AfterAnswers entries (as ++ bs) k k' where
  slots := by rw [h2.slots, h1.slots, List.map_append, List.append_assoc]
  inflight := by
    have hid : ∀ r, (k1.heap r).id = (k.heap r).id := congrFun h1.ids
    rw [h2.inflight, h1.inflight, List.foldl_append]
    simp only [hid]
  heap := by
    intro r
    rw [h2.heap, h1.heap, received, received, received, List.foldl_append]

/-- One turn of a loop. -/
theorem deliver_afterAnswers {k k' : Handled} {x : Nat} (h : deliver entries k x = some k') :
    AfterAnswers entries (answers entries (fun r => (k.heap r).id) [x] k.inflight) k k' := by
  cases hl : k.inflight.lookup (entries x).userData with
  | none =>
    rw [deliver_of_none hl] at h
    cases h
    simp only [answers, hl]
    exact ⟨by simp, rfl, fun _ => rfl⟩
  | some r =>
    rw [deliver_of_some hl, Option.ite_none_right_eq_some] at h
    obtain ⟨-, h⟩ := h
    cases h
    simp only [answers, hl]
    refine ⟨rfl, rfl, fun r' => ?_⟩
    by_cases hr : r' = r
    · simp [received, hr]
    · simp [received, hr, Ne.symm hr]

theorem walk_afterAnswers {k k' : Handled} (h : walk entries xs k = some k') :
    AfterAnswers entries (answers entries (fun r => (k.heap r).id) xs k.inflight) k k' := by
  induction xs generalizing k with
  | nil =>
    cases h
    exact ⟨by simp [answers], rfl, fun _ => rfl⟩
  | cons x xs ih =>
    obtain ⟨k1, h1, h⟩ := Option.bind_eq_some_iff.mp h
    have hone := deliver_afterAnswers h1
    have hrest := ih h
    rw [hone.ids, hone.inflight] at hrest
    rw [← List.singleton_append, answers_append]
    exact hone.append hrest

/-- In a map that has each request under its id, an entry answers a request if its user data is
a key, and it is the first one with that user data. -/
theorem mem_answers_of_keyed {inflight : Inflight}
    (hkeys : ∀ u r, inflight.lookup u = some r → id r = u) {x r : Nat} :
    (x, r) ∈ answers entries id xs inflight ↔
      inflight.lookup (entries x).userData = some r ∧
        xs.find? (fun y => (entries y).userData = (entries x).userData) = some x := by
  induction xs generalizing inflight with
  | nil => simp [answers]
  | cons y xs ih =>
    rw [List.find?_cons]
    cases hl : inflight.lookup (entries y).userData with
    | none =>
      simp only [answers, hl]
      rw [ih hkeys]
      by_cases hid : (entries y).userData = (entries x).userData
      · rw [← hid, hl]
        simp
      · simp [hid]
    | some r' =>
      -- the key is gone for the rest of the list
      have hkey := hkeys _ _ hl
      have hrest : ∀ u r, (inflight.erase (id r')).lookup u = some r → id r = u := by
        intro u r hu
        by_cases hu' : u = id r'
        · rw [hu', AList.lookup_erase] at hu
          cases hu
        · exact hkeys u r (by rwa [AList.lookup_erase_ne hu'] at hu)
      simp only [answers, hl, List.mem_cons, Prod.mk.injEq]
      rw [ih hrest, hkey]
      by_cases hid : (entries y).userData = (entries x).userData
      · rw [← hid, AList.lookup_erase, hl]
        simp [eq_comm, and_comm]
      · rw [AList.lookup_erase_ne (Ne.symm hid)]
        have hne : x ≠ y := fun h => hid (by rw [h])
        simp [hid, hne]

end Answers

/-! ## The law of the head -/

/-- The entry in a slot answers a request. -/
def HasAnswer (z : Size) (cq : CompletionQueue) (inflight : Inflight)
    (heap : Nat → CompletionRequest) (x : Nat) : Prop :=
  x ∈ (queueAnswers z cq inflight heap).map Prod.fst

instance (z : Size) (cq : CompletionQueue) (inflight : Inflight)
    (heap : Nat → CompletionRequest) (x : Nat) : Decidable (HasAnswer z cq inflight heap x) :=
  inferInstanceAs (Decidable (_ ∈ _))

/-- In a map that has each request under its id, that is: its user data is a key, and no slot
that is visited before has the same. -/
theorem hasAnswer_of_keyed {z : Size} {cq : CompletionQueue} {inflight : Inflight}
    {heap : Nat → CompletionRequest}
    (hkeys : ∀ u r, inflight.lookup u = some r → (heap r).id = u) {x : Nat} :
    HasAnswer z cq inflight heap x ↔
      (inflight.lookup (cq.entries x).userData).isSome ∧
        (visited z cq.head cq.tail).find?
          (fun y => (cq.entries y).userData = (cq.entries x).userData) = some x := by
  simp only [HasAnswer, queueAnswers, List.mem_map, Prod.exists, exists_and_right, exists_eq_right]
  rw [Option.isSome_iff_exists, ← exists_and_right]
  exact exists_congr fun r => mem_answers_of_keyed hkeys

/-- The entry in a slot was delivered: it answers a request, and the request has what it was
answered. -/
def DeliveredBy (z : Size) (cq : CompletionQueue) (inflight : Inflight)
    (heap : Nat → CompletionRequest) (k : Handled) (x : Nat) : Prop :=
  ∃ r, (x, r) ∈ queueAnswers z cq inflight heap ∧
    k.heap r = received cq.entries r (queueAnswers z cq inflight heap) (heap r)

/-- The positions that a call moves `Head` over are pending and hold entries that it delivered,
and the next position, if it is pending, holds one that it did not deliver. -/
def ReleasesDelivered (z : Size) (cq cq' : CompletionQueue) (inflight : Inflight)
    (heap : Nat → CompletionRequest) (k : Handled) : Prop :=
  let released := (cq'.head - cq.head).toNat
  released ≤ (cq.tail - cq.head).toNat ∧
    (∀ j < released, DeliveredBy z cq inflight heap k ((cq.head.toNat + j) % z.slots)) ∧
    (released < (cq.tail - cq.head).toNat →
      ¬ DeliveredBy z cq inflight heap k ((cq.head.toNat + released) % z.slots))

variable {z : Size} {cq cq' : CompletionQueue} {inflight : Inflight}
  {heap : Nat → CompletionRequest} {k : Handled}

theorem onEntry_afterAnswers (h : onEntry z cq inflight heap = some (cq', k)) :
    AfterAnswers cq.entries (queueAnswers z cq inflight heap) (.start inflight heap) k := by
  rcases Nat.lt_or_ge (cq.tail &&& z.mask).toNat (cq.head &&& z.mask).toNat with hlt | hle
  · rw [onEntry_of_lt hlt] at h
    obtain ⟨k2, h, hstore⟩ := Option.map_eq_some_iff.mp h
    obtain ⟨k1, h1, h2⟩ := Option.bind_eq_some_iff.mp h
    cases hstore
    have hupper := walk_afterAnswers h1
    -- the flag that is set between the walks is nothing to the answers
    have hlower : AfterAnswers cq.entries
        (answers cq.entries (fun r => (k1.heap r).id) (lowerSlots z cq) k1.inflight) k1 k :=
      ⟨(walk_afterAnswers h2).slots, (walk_afterAnswers h2).inflight, (walk_afterAnswers h2).heap⟩
    rw [hupper.ids, hupper.inflight] at hlower
    rw [queueAnswers, visited_eq_append hlt, answers_append]
    exact hupper.append hlower
  · rw [onEntry_of_le hle] at h
    obtain ⟨k1, h1, hstore⟩ := Option.map_eq_some_iff.mp h
    cases hstore
    exact walk_afterAnswers h1

/-- A call delivers the entries that answer a request. -/
theorem hasAnswer_iff (h : onEntry z cq inflight heap = some (cq', k)) {x : Nat} :
    HasAnswer z cq inflight heap x ↔ x ∈ k.slots := by
  rw [(onEntry_afterAnswers h).slots, Handled.start, List.nil_append, HasAnswer]

theorem deliveredBy_iff (h : onEntry z cq inflight heap = some (cq', k)) {x : Nat} :
    DeliveredBy z cq inflight heap k x ↔ x ∈ k.slots := by
  have ha := onEntry_afterAnswers h
  rw [ha.slots, Handled.start, List.nil_append, List.mem_map]
  constructor
  · rintro ⟨r, hmem, -⟩
    exact ⟨(x, r), hmem, rfl⟩
  · rintro ⟨⟨x', r⟩, hmem, rfl⟩
    exact ⟨r, hmem, ha.heap r⟩

theorem releasesDelivered_iff (h : onEntry z cq inflight heap = some (cq', k)) :
    ReleasesDelivered z cq cq' inflight heap k ↔
      (cq'.head - cq.head).toNat = prefixIn k.slots (window z cq.head cq.tail) := by
  unfold ReleasesDelivered
  dsimp only
  have hslot : ∀ j, (window z cq.head cq.tail)[j]? =
      if j < (cq.tail - cq.head).toNat then some ((cq.head.toNat + j) % z.slots) else none := by
    intro j
    by_cases hj : j < (cq.tail - cq.head).toNat <;> simp [window, hj]
  have hlength : (window z cq.head cq.tail).length = (cq.tail - cq.head).toNat := by
    simp [window]
  simp only [eq_prefixIn_iff, deliveredBy_iff h, hslot, hlength]
  refine and_congr_right fun hle => and_congr ?_ ?_
  · refine forall₂_congr fun j hj => ?_
    simp [Nat.lt_of_lt_of_le hj hle]
  · by_cases hlt : (cq'.head - cq.head).toNat < (cq.tail - cq.head).toNat
    · simp only [hlt, true_implies, if_true, ne_eq, Option.some.injEq]
      exact ⟨fun hnot x hx heq => hnot (heq ▸ hx), fun hnot hmem => hnot _ hmem rfl⟩
    · simp [hlt]

theorem head_store (cq : CompletionQueue) (k : Handled) :
    (k.store cq).1.head - cq.head = k.seenIdx := by
  simp only [Handled.store]
  rw [UInt32.add_comm, UInt32.add_sub_cancel]

theorem visited_of_head_le (hle : (cq.head &&& z.mask).toNat ≤ (cq.tail &&& z.mask).toNat) :
    (visited z cq.head cq.tail).Nodup ∧ (visited z cq.head cq.tail).length ≤ z.slots := by
  have := z.and_mask_lt cq.tail
  rw [visited, if_pos hle]
  refine ⟨List.nodup_range' .., ?_⟩
  rw [List.length_range']
  omega

/-- Where a call on a queue that does not wrap leaves the head. -/
theorem onEntry_head_of_le (hle : (cq.head &&& z.mask).toNat ≤ (cq.tail &&& z.mask).toNat)
    (h : onEntry z cq inflight heap = some (cq', k)) :
    (∀ x ∈ k.slots, x ∈ visited z cq.head cq.tail) ∧
      (cq'.head - cq.head).toNat = prefixIn k.slots (visited z cq.head cq.tail) := by
  obtain ⟨hnodup, hlen⟩ := visited_of_head_le hle
  rw [onEntry_of_le hle] at h
  obtain ⟨k1, h1, hstore⟩ := Option.map_eq_some_iff.mp h
  obtain ⟨D, hslots, hsub, hidx⟩ := walk_counts hnodup h1
  have hhead := head_store cq k1
  rw [hstore] at hhead
  cases hstore
  rw [Handled.start, List.nil_append] at hslots
  rw [hslots, hhead, hidx]
  refine ⟨hsub, ?_⟩
  have hle : prefixIn D (visited z cq.head cq.tail) < 2 ^ 32 := by
    have := prefixIn_le D (visited z cq.head cq.tail)
    have := z.slots_lt
    omega
  simp only [Handled.start, if_true, UInt32.zero_add, word_toNat]
  exact Nat.mod_eq_of_lt hle

theorem mem_upperSlots {x : Nat} :
    x ∈ upperSlots z cq ↔ (cq.head &&& z.mask).toNat ≤ x ∧ x < z.slots := by
  have := z.and_mask_lt cq.head
  rw [upperSlots, List.mem_range'_1]
  omega

theorem mem_lowerSlots {x : Nat} : x ∈ lowerSlots z cq ↔ x < (cq.tail &&& z.mask).toNat := by
  rw [lowerSlots, List.mem_range'_1]
  omega

/-- Where a call on a queue that wraps leaves the head: the two walks count each
for themselves. -/
theorem onEntry_head_of_lt (hlt : (cq.tail &&& z.mask).toNat < (cq.head &&& z.mask).toNat)
    (h : onEntry z cq inflight heap = some (cq', k)) :
    (∀ x ∈ k.slots, x ∈ visited z cq.head cq.tail) ∧
      (cq'.head - cq.head).toNat =
        prefixIn k.slots (upperSlots z cq) + prefixIn k.slots (lowerSlots z cq) := by
  rw [onEntry_of_lt hlt] at h
  obtain ⟨k2, h, hstore⟩ := Option.map_eq_some_iff.mp h
  obtain ⟨k1, h1, h2⟩ := Option.bind_eq_some_iff.mp h
  obtain ⟨D1, hslots1, hsub1, hidx1⟩ := walk_counts (List.nodup_range' ..) h1
  obtain ⟨D2, hslots2, hsub2, hidx2⟩ := walk_counts (List.nodup_range' ..) h2
  have hhead := head_store cq k2
  rw [hstore] at hhead
  cases hstore
  have hslots : k.slots = D1 ++ D2 := by
    rw [hslots2]
    simp [hslots1, Handled.start]
  have hupper : prefixIn k.slots (upperSlots z cq) = prefixIn D1 (upperSlots z cq) := by
    apply prefixIn_congr
    intro x hx
    rw [hslots, List.mem_append, or_iff_left]
    intro hx2
    have := mem_upperSlots.mp hx
    have := mem_lowerSlots.mp (hsub2 x hx2)
    omega
  have hlower : prefixIn k.slots (lowerSlots z cq) = prefixIn D2 (lowerSlots z cq) := by
    apply prefixIn_congr
    intro x hx
    rw [hslots, List.mem_append, or_iff_right]
    intro hx1
    have := mem_upperSlots.mp (hsub1 x hx1)
    have := mem_lowerSlots.mp hx
    omega
  refine ⟨fun x hx => ?_, ?_⟩
  · rw [hslots, List.mem_append] at hx
    rw [visited_eq_append hlt, List.mem_append]
    exact hx.imp (hsub1 x) (hsub2 x)
  · have hle1 := prefixIn_le D1 (upperSlots z cq)
    have hle2 := prefixIn_le D2 (lowerSlots z cq)
    rw [upperSlots, List.length_range'] at hle1
    rw [lowerSlots, List.length_range'] at hle2
    have := z.slots_lt
    have := z.and_mask_lt cq.head
    rw [hupper, hlower, hhead, hidx2, if_pos rfl]
    simp only [hidx1, Handled.start, if_true, UInt32.zero_add]
    rw [word_add, word_toNat]
    exact Nat.mod_eq_of_lt (by omega)

/-- The second walk counts nothing, exactly if slot 0 is not delivered. -/
theorem prefixIn_lowerSlots (hlt : (cq.tail &&& z.mask).toNat < (cq.head &&& z.mask).toNat)
    (hsub : ∀ x ∈ k.slots, x ∈ visited z cq.head cq.tail) :
    prefixIn k.slots (lowerSlots z cq) = 0 ↔ 0 ∉ k.slots := by
  rw [visited_eq_append hlt] at hsub
  by_cases hzero : 0 ∈ k.slots
  · have hlast : 0 < (cq.tail &&& z.mask).toNat := by
      rcases List.mem_append.mp (hsub 0 hzero) with hupper | hlower
      · have := mem_upperSlots.mp hupper
        omega
      · exact mem_lowerSlots.mp hlower
    obtain ⟨m, hm⟩ := Nat.exists_eq_succ_of_ne_zero (Nat.ne_of_gt hlast)
    rw [lowerSlots, hm, List.range'_succ, prefixIn_cons_of_mem hzero]
    simp [hzero]
  · refine ⟨fun _ => hzero, fun _ => ?_⟩
    unfold lowerSlots
    cases (cq.tail &&& z.mask).toNat with
    | zero => rfl
    | succ m => exact prefixIn_cons_of_notMem hzero

/-- Of a full window no slot but the first one is delivered, and `Head` counts it. -/
theorem releasesDelivered_of_full (hfull : (cq.tail - cq.head).toNat = z.slots)
    (h : onEntry z cq inflight heap = some (cq', k)) :
    ReleasesDelivered z cq cq' inflight heap k := by
  obtain ⟨heq, hvisited⟩ := visited_of_full hfull
  obtain ⟨rest, hwin, hrest⟩ := window_of_full hfull
  obtain ⟨hsub, hhead⟩ := onEntry_head_of_le (Nat.le_of_eq heq.symm) h
  rw [hvisited] at hsub hhead
  have hnone : prefixIn k.slots rest = 0 := by
    apply prefixIn_eq_zero
    intro x hx hD
    rw [List.mem_singleton.mp (hsub x hD)] at hx
    exact hrest hx
  rw [releasesDelivered_iff h, hhead, hwin]
  by_cases hfirst : (cq.head &&& z.mask).toNat ∈ k.slots
  · rw [prefixIn_cons_of_mem hfirst, prefixIn_cons_of_mem hfirst, hnone]
    rfl
  · rw [prefixIn_cons_of_notMem hfirst, prefixIn_cons_of_notMem hfirst]

/-- When the window does not wrap, the walk counts on into the slot behind it. -/
theorem releasesDelivered_of_le (hroom : (cq.tail - cq.head).toNat < z.slots)
    (hle : (cq.head &&& z.mask).toNat ≤ (cq.tail &&& z.mask).toNat)
    (h : onEntry z cq inflight heap = some (cq', k)) :
    ReleasesDelivered z cq cq' inflight heap k ↔
      ¬ ((∀ x ∈ window z cq.head cq.tail, x ∈ k.slots) ∧
        (cq.tail &&& z.mask).toNat ∈ k.slots) := by
  rw [releasesDelivered_iff h, (onEntry_head_of_le hle h).2, visited_of_le hroom hle]
  by_cases hall : ∀ x ∈ window z cq.head cq.tail, x ∈ k.slots
  · rw [prefixIn_append_of_forall hall, prefixIn_of_forall hall]
    by_cases hlast : (cq.tail &&& z.mask).toNat ∈ k.slots
    · rw [prefixIn_cons_of_mem hlast]
      exact ⟨fun heq => (by omega), fun hno => absurd ⟨hall, hlast⟩ hno⟩
    · rw [prefixIn_cons_of_notMem hlast]
      exact ⟨fun _ hboth => hlast hboth.2, fun _ => rfl⟩
  · rw [prefixIn_append_of_not hall]
    exact ⟨fun _ hboth => hall hboth.1, fun _ => rfl⟩

/-- When the window wraps, the second walk counts whatever the first one left out. -/
theorem releasesDelivered_of_lt (hwindow : (cq.tail - cq.head).toNat ≤ z.slots)
    (hlt : (cq.tail &&& z.mask).toNat < (cq.head &&& z.mask).toNat)
    (h : onEntry z cq inflight heap = some (cq', k)) :
    ReleasesDelivered z cq cq' inflight heap k ↔
      (∀ x, (cq.head &&& z.mask).toNat ≤ x → x < z.slots → x ∈ k.slots) ∨ 0 ∉ k.slots := by
  obtain ⟨hsub, hhead⟩ := onEntry_head_of_lt hlt h
  rw [releasesDelivered_iff h, hhead, ← visited_of_lt hwindow hlt, visited_eq_append hlt]
  have hupper : (∀ x, (cq.head &&& z.mask).toNat ≤ x → x < z.slots → x ∈ k.slots) ↔
      ∀ x ∈ upperSlots z cq, x ∈ k.slots := by
    simp only [mem_upperSlots, and_imp]
  rw [hupper]
  by_cases hall : ∀ x ∈ upperSlots z cq, x ∈ k.slots
  · rw [prefixIn_append_of_forall hall, prefixIn_of_forall hall]
    exact ⟨fun _ => Or.inl hall, fun _ => rfl⟩
  · rw [prefixIn_append_of_not hall, Nat.add_eq_left, prefixIn_lowerSlots hlt hsub]
    exact ⟨Or.inr, fun hor => hor.resolve_left hall⟩

/-- Over every queue, with any words and any slots, and every map: a call of
`onEntry` moves `Head` over the longest prefix of the window that it delivered, exactly if
- when the queue is not full and does not wrap, not all of the pending entries and
  the slot of `Tail` answer a request;
- when it wraps, the entries up to the end of the ring all answer one, or the
  one in slot 0 does not. -/
theorem on_entry_releases_the_delivered_iff (z : Size) (cq cq' : CompletionQueue)
    (inflight : Inflight) (heap : Nat → CompletionRequest) (k : Handled)
    (hwindow : (cq.tail - cq.head).toNat ≤ z.slots)
    (h : onEntry z cq inflight heap = some (cq', k)) :
    ReleasesDelivered z cq cq' inflight heap k ↔
      ((cq.tail - cq.head).toNat < z.slots →
        (cq.head &&& z.mask).toNat ≤ (cq.tail &&& z.mask).toNat →
        ¬ ((∀ x ∈ window z cq.head cq.tail, HasAnswer z cq inflight heap x) ∧
          HasAnswer z cq inflight heap (cq.tail &&& z.mask).toNat)) ∧
      ((cq.tail &&& z.mask).toNat < (cq.head &&& z.mask).toNat →
        (∀ x, (cq.head &&& z.mask).toNat ≤ x → x < z.slots → HasAnswer z cq inflight heap x) ∨
          ¬ HasAnswer z cq inflight heap 0) := by
  simp only [hasAnswer_iff h]
  cases shape hwindow with
  | full hfull =>
    have heq := (visited_of_full hfull).1
    refine ⟨fun _ => ⟨fun hroom => ?_, fun hlt => ?_⟩, fun _ => releasesDelivered_of_full hfull h⟩
    · exact absurd hfull (Nat.ne_of_lt hroom)
    · exact absurd heq (Nat.ne_of_lt hlt)
  | straight hroom hle =>
    rw [releasesDelivered_of_le hroom hle h]
    refine ⟨fun hno => ⟨fun _ _ => hno, fun hlt => ?_⟩, fun hcond => hcond.1 hroom hle⟩
    exact absurd hlt (Nat.not_lt_of_le hle)
  | wrapped hroom hgt =>
    rw [releasesDelivered_of_lt hwindow hgt h]
    refine ⟨fun hor => ⟨fun _ hle => ?_, fun _ => hor⟩, fun hcond => hcond.2 hgt⟩
    exact absurd hgt (Nat.not_lt_of_le hle)

/-- Two requests, which wait for the ids `u` and `v`. -/
def twoInflight (u v : UInt64) : Inflight := (AList.singleton v 1).insert u 0

/-- What a call for the requests `u` and `v` leaves on a ring of four whose slots 3 and 0
are pending. -/
def wrappedCall (u v : UInt64) : Option (CompletionQueue × Handled) :=
  onEntry ⟨2, by decide⟩ ⟨3, 5, numbered⟩ (twoInflight u v)
    fun r => ⟨if r = 0 then u else v, 0, 0, 0⟩

/-- The call delivers both entries, each to its request, and moves the head over them. -/
theorem delivered_entries_are_released :
    ∃ cq' k, wrappedCall 3 0 = some (cq', k) ∧ cq'.head = 5 ∧
      (k.heap 0, k.heap 1) = (⟨3, 1, 0, 1⟩, ⟨0, 1, 0, 1⟩) ∧
      ReleasesDelivered ⟨2, by decide⟩ ⟨3, 5, numbered⟩ cq' (twoInflight 3 0)
        (fun r => ⟨if r = 0 then 3 else 0, 0, 0, 0⟩) k :=
  ⟨_, _, rfl, by decide, by decide,
    (on_entry_releases_the_delivered_iff _ _ _ _ _ _ (by decide) rfl).mpr (by decide)⟩

/-- The call delivers the entry in slot 0 to its request, and moves the head over the one in
slot 3, which belongs to somebody else and was given to no request. -/
theorem a_foreign_entry_is_released :
    (wrappedCall 0 7).map (fun r => (r.1.head, r.2.heap 0, r.2.heap 1)) =
        some (4, ⟨0, 1, 0, 1⟩, ⟨7, 0, 0, 0⟩) ∧
      (window ⟨2, by decide⟩ 3 5).head? = some 3 ∧ (numbered 3).userData = 3 := by
  decide

end iouring.ring
