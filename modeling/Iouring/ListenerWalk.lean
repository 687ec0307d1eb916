-- The walks of a listener over whole runs of posts and walks: each completion of
-- its polls should reach `onListen` once. `walkCq` marks what it has dispatched,
-- but never asks for the mark; it sees only a part of a window that wraps, the
-- slot of `Tail` and slots of earlier laps, and nothing of a full queue.
import Iouring.Listener
import Iouring.Search
import Iouring.SlotLoops

open machine counter search
open iouring.completion_queue (CompletionEntry CompletionQueue)
open iouring.listener (ConnInfo scan hit mark walkCq)
open iouring.slot_loops

namespace iouring.listener_walk

/-! ## Runs of posts and walks -/

/-- The listener, and how often the entry in each slot has been passed to
`onListen` since it was posted. -/
structure State where
  listener : listener.State
  times : Nat → Nat

/-- A listener that has dispatched nothing yet. -/
def start (l : listener.State) : State := ⟨l, fun _ => 0⟩

inductive Act where
  | post (c : CompletionEntry)
  | walk
  deriving DecidableEq, Repr

/-- The slot that a walk dispatches. -/
def dispatches (z : Size) (l : listener.State) : Option Nat := (hit z l).map Prod.fst

def step (z : Size) (s : State) : Act → Option State
  | .post c =>
    (s.listener.cq.publish z c).map fun cq =>
      ⟨{ s.listener with cq := cq },
        Function.update s.times (s.listener.cq.tail &&& z.mask).toNat 0⟩
  | .walk =>
    some ⟨(walkCq z s.listener).1,
      match dispatches z s.listener with
      | none => s.times
      | some i => Function.update s.times i (s.times i + 1)⟩

/-! ## What a walk dispatches -/

/-- The slot holds a completion of a poll that the listener knows. -/
def Known (l : listener.State) (x : Nat) : Bool := (l.conns (l.cq.entries x).userData).isSome

theorem scan_fst (conns : UInt64 → Option ConnInfo) (entries : Nat → CompletionEntry)
    (turns i seenIdx : Nat) (seenEnd : Bool) :
    (scan conns entries turns i seenIdx seenEnd).map Prod.fst =
      (List.range' i turns).find? fun x => (conns (entries x).userData).isSome := by
  induction turns generalizing i seenIdx seenEnd with
  | zero => rfl
  | succ turns ih =>
    rw [List.range'_succ, List.find?_cons, scan]
    cases hc : conns (entries i).userData with
    | none =>
      simp only [Option.isSome_none]
      exact ih ..
    | some cInfo => rfl

/-- The slots that a walk looks at, unless `Head` and `Tail` have the same slot. -/
def looked (z : Size) (head tail : UInt32) : List Nat :=
  let first := (head &&& z.mask).toNat
  let last := (tail &&& z.mask).toNat
  List.range' first (last + 1 - first) ++ List.range' 0 (last + 1)

variable {z : Size} {l : listener.State}

theorem dispatches_of_eq (h : (l.cq.head &&& z.mask).toNat = (l.cq.tail &&& z.mask).toNat) :
    dispatches z l = none := by
  simp only [dispatches, hit, if_pos h, Option.map_none]

theorem dispatches_of_ne (h : (l.cq.head &&& z.mask).toNat ≠ (l.cq.tail &&& z.mask).toNat) :
    dispatches z l = (looked z l.cq.head l.cq.tail).find? (Known l) := by
  simp only [dispatches, hit, if_neg h]
  rw [looked, List.find?_append, Option.map_or, scan_fst, scan_fst]
  rfl

theorem looked_of_lt (h : (l.cq.tail - l.cq.head).toNat ≤ z.slots)
    (hlt : (l.cq.head &&& z.mask).toNat < (l.cq.tail &&& z.mask).toNat) :
    ∃ rest, looked z l.cq.head l.cq.tail = window z l.cq.head l.cq.tail ++ rest ∧
      ∀ x, x ∈ rest ↔ x ≤ (l.cq.tail &&& z.mask).toNat := by
  have hwindow := window_of_lt h (by rwa [← z.and_mask, ← z.and_mask])
  rw [← z.and_mask, ← z.and_mask] at hwindow
  refine ⟨(l.cq.tail &&& z.mask).toNat :: List.range' 0 ((l.cq.tail &&& z.mask).toNat + 1),
    ?_, fun x => ?_⟩
  · rw [hwindow, looked, Nat.sub_add_comm (Nat.le_of_lt hlt), List.range'_concat,
      List.append_assoc, Nat.one_mul, Nat.add_sub_cancel' (Nat.le_of_lt hlt)]
    rfl
  · rw [List.mem_cons, List.mem_range'_1]
    omega

theorem looked_of_gt (hlt : (l.cq.tail &&& z.mask).toNat < (l.cq.head &&& z.mask).toNat) :
    looked z l.cq.head l.cq.tail =
      List.range' 0 (l.cq.tail &&& z.mask).toNat ++ [(l.cq.tail &&& z.mask).toNat] := by
  rw [looked, Nat.sub_eq_zero_of_le hlt, List.range'_concat, Nat.zero_add, Nat.one_mul]
  rfl

/-! ## The law of one walk -/

/-- What has to hold of the queue for a walk to be right, where `done` are the slots
whose entries have been dispatched:
- when the queue is full, all known pending entries are done;
- when it does not wrap, the first known pending entry is not done, and when there is
  none, no slot up to the one of `Tail` holds a known entry;
- when it wraps, the first known entry from slot 0 on is not done, and when there is
  none before the slot of `Tail`, that slot holds none either, and the known entries
  from `Head` up to the end of the ring are done. -/
def WalkCond (z : Size) (l : listener.State) (done : Nat → Prop) : Prop :=
  let first := (l.cq.head &&& z.mask).toNat
  let last := (l.cq.tail &&& z.mask).toNat
  ((l.cq.tail - l.cq.head).toNat = z.slots →
    ∀ x ∈ window z l.cq.head l.cq.tail, Known l x → done x) ∧
  (first < last →
    (∀ x, (window z l.cq.head l.cq.tail).find? (Known l) = some x → ¬ done x) ∧
      ((∀ x ∈ window z l.cq.head l.cq.tail, ¬ Known l x) → ∀ x ≤ last, ¬ Known l x)) ∧
  (last < first →
    (∀ x, (List.range' 0 last).find? (Known l) = some x → ¬ done x) ∧
      ((∀ x < last, ¬ Known l x) →
        ¬ Known l last ∧ ∀ x, first ≤ x → x < z.slots → Known l x → done x))

variable {done : Nat → Prop}

/-- A walk over a full queue takes it for empty and dispatches nothing. -/
theorem right_of_full (hfull : (l.cq.tail - l.cq.head).toNat = z.slots) :
    Right (window z l.cq.head l.cq.tail) done (Known l) (dispatches z l) ↔
      ∀ x ∈ window z l.cq.head l.cq.tail, Known l x → done x := by
  rw [dispatches_of_eq (visited_of_full hfull).1.symm]
  exact ⟨fun h => h.2 rfl, fun h => ⟨nofun, fun _ => h⟩⟩

/-- A walk over an empty queue dispatches nothing, and that is right. -/
theorem right_of_eq (hroom : (l.cq.tail - l.cq.head).toNat < z.slots)
    (heq : (l.cq.head &&& z.mask).toNat = (l.cq.tail &&& z.mask).toNat) :
    Right (window z l.cq.head l.cq.tail) done (Known l) (dispatches z l) := by
  rw [dispatches_of_eq heq, window_of_eq hroom heq]
  exact ⟨nofun, nofun⟩

/-- A walk over a window that does not wrap goes on over the slots up to `Tail`. -/
theorem right_of_lt (h : (l.cq.tail - l.cq.head).toNat ≤ z.slots)
    (hlt : (l.cq.head &&& z.mask).toNat < (l.cq.tail &&& z.mask).toNat) :
    Right (window z l.cq.head l.cq.tail) done (Known l) (dispatches z l) ↔
      (∀ x, (window z l.cq.head l.cq.tail).find? (Known l) = some x → ¬ done x) ∧
        ((∀ x ∈ window z l.cq.head l.cq.tail, ¬ Known l x) →
          ∀ x ≤ (l.cq.tail &&& z.mask).toNat, ¬ Known l x) := by
  obtain ⟨rest, hlooked, hrest⟩ := looked_of_lt h hlt
  rw [dispatches_of_ne (Nat.ne_of_lt hlt), hlooked,
    @right_iff _ _ (window z l.cq.head l.cq.tail) rest [] _ _ (by simp) (by simp)]
  simp only [List.find?_eq_none, hrest, List.not_mem_nil, false_implies, implies_true, and_true]

/-- A walk over a window that wraps sees only the part of it that starts at slot 0. -/
theorem right_of_gt (h : (l.cq.tail - l.cq.head).toNat ≤ z.slots)
    (hgt : (l.cq.tail &&& z.mask).toNat < (l.cq.head &&& z.mask).toNat) :
    Right (window z l.cq.head l.cq.tail) done (Known l) (dispatches z l) ↔
      (∀ x, (List.range' 0 (l.cq.tail &&& z.mask).toNat).find? (Known l) = some x → ¬ done x) ∧
        ((∀ x < (l.cq.tail &&& z.mask).toNat, ¬ Known l x) →
          ¬ Known l (l.cq.tail &&& z.mask).toNat ∧
            ∀ x, (l.cq.head &&& z.mask).toNat ≤ x → x < z.slots → Known l x → done x) := by
  have hwindow := visited_of_lt h hgt
  rw [visited, if_neg (Nat.not_le_of_lt hgt)] at hwindow
  have hhead := z.and_mask_lt l.cq.head
  rw [dispatches_of_ne (Nat.ne_of_gt hgt), looked_of_gt hgt, ← hwindow,
    @right_iff _ _ (List.range' 0 (l.cq.tail &&& z.mask).toNat) [_]
      (List.range' (l.cq.head &&& z.mask).toNat (z.slots - (l.cq.head &&& z.mask).toNat)) _ _
      (fun x => by rw [List.mem_append, or_comm])
      (fun x hx => by rw [List.mem_singleton.mp hx, List.mem_range'_1]; omega)]
  simp only [List.find?_eq_none, List.mem_range'_1, Nat.zero_le, true_and, Nat.zero_add,
    List.forall_mem_singleton, Nat.add_sub_cancel' (Nat.le_of_lt hhead), and_imp]

theorem right_iff_walkCond (h : (l.cq.tail - l.cq.head).toNat ≤ z.slots) :
    Right (window z l.cq.head l.cq.tail) done (Known l) (dispatches z l) ↔ WalkCond z l done := by
  unfold WalkCond
  cases shape h with
  | full hfull =>
    have heq := (visited_of_full hfull).1
    rw [right_of_full hfull]
    refine ⟨fun hall => ⟨fun _ => hall, fun hlt => ?_, fun hgt => ?_⟩, fun hcond => hcond.1 hfull⟩
    · exact absurd heq (Nat.ne_of_gt hlt)
    · exact absurd heq (Nat.ne_of_lt hgt)
  | straight hroom hle =>
    have hnot := Nat.ne_of_lt hroom
    rcases Nat.eq_or_lt_of_le hle with heq | hlt
    · refine ⟨fun _ => ⟨fun hfull => absurd hfull hnot, fun hlt => ?_, fun hgt => ?_⟩, fun _ => ?_⟩
      · exact absurd heq (Nat.ne_of_lt hlt)
      · exact absurd heq (Nat.ne_of_gt hgt)
      · exact right_of_eq hroom heq
    · rw [right_of_lt h hlt]
      refine ⟨fun hboth => ⟨fun hfull => absurd hfull hnot, fun _ => hboth, fun hgt => ?_⟩,
        fun hcond => hcond.2.1 hlt⟩
      exact absurd hgt (Nat.not_lt_of_le hle)
  | wrapped hroom hgt =>
    rw [right_of_gt h hgt]
    refine ⟨fun hboth => ⟨fun hfull => ?_, fun hlt => ?_, fun _ => hboth⟩,
      fun hcond => hcond.2.2 hgt⟩
    · exact absurd hfull (Nat.ne_of_lt hroom)
    · exact absurd hlt (Nat.lt_asymm hgt)

/-! ## The law of a run -/

/-- The pending entries fit into the ring. -/
def InRange (z : Size) (cq : CompletionQueue) : Prop := (cq.tail - cq.head).toNat ≤ z.slots

theorem scan_seenIdx {conns : UInt64 → Option ConnInfo} {entries : Nat → CompletionEntry}
    {turns i seenIdx j k : Nat} {seenEnd : Bool} {cInfo : ConnInfo}
    (h : scan conns entries turns i seenIdx seenEnd = some (j, k, cInfo)) :
    k = seenIdx ∨ k < i + turns := by
  induction turns generalizing i seenIdx seenEnd with
  | zero => cases h
  | succ turns ih =>
    unfold scan at h
    dsimp only at h
    cases hc : conns (entries i).userData with
    | none =>
      simp only [hc] at h
      rcases ih h with hk | hk
      · split_ifs at hk <;> omega
      · omega
    | some c =>
      simp only [hc, Option.some.injEq, Prod.mk.injEq] at h
      obtain ⟨-, hk, -⟩ := h
      split_ifs at hk <;> omega

/-- A walk never moves `Head` past the slot of `Tail`. -/
theorem hit_seenIdx {j k : Nat} {cInfo : ConnInfo} (h : hit z l = some (j, k, cInfo)) :
    k ≤ (l.cq.tail &&& z.mask).toNat := by
  simp only [hit, Option.ite_none_left_eq_some, Option.or_eq_some_iff] at h
  obtain ⟨-, h | ⟨-, h⟩⟩ := h
  · by_cases hle : (l.cq.head &&& z.mask).toNat ≤ (l.cq.tail &&& z.mask).toNat
    · rcases scan_seenIdx h with hk | hk <;> omega
    · rw [Nat.sub_eq_zero_of_le (by omega)] at h
      cases h
  · rcases scan_seenIdx h with hk | hk <;> omega

theorem InRange.mark {cq : CompletionQueue} {i k : Nat} (h : InRange z cq)
    (hk : k ≤ (cq.tail &&& z.mask).toNat) : InRange z (mark cq i k) := by
  have hlast := z.and_mask_lt cq.tail
  have hslots := z.slots_lt
  have hword : (UInt32.ofNat k).toNat = k := by
    rw [UInt32.toNat_ofNat']
    exact Nat.mod_eq_of_lt (by omega)
  unfold InRange listener.mark
  dsimp only
  split_ifs with hmove
  · -- then `Head` is in the first lap, and so is `Tail`
    rw [UInt32.lt_iff_toNat_lt, hword] at hmove
    rw [z.and_mask] at hk hlast
    have hfirst : cq.head.toNat % z.slots = cq.head.toNat := Nat.mod_eq_of_lt (by omega)
    have hslot := distance_of_lt h (by omega)
    have htail := tail_toNat cq.head cq.tail
    rw [UInt32.toNat_sub, hword]
    omega
  · exact h

theorem InRange.publish {cq cq' : CompletionQueue} {c : CompletionEntry}
    (h : cq.publish z c = some cq') : InRange z cq' := by
  have hslots := z.slots_lt
  obtain ⟨hroom, rfl⟩ := CompletionQueue.publish_eq h
  unfold InRange
  dsimp only
  rw [UInt32.toNat_sub] at hroom ⊢
  rw [UInt32.toNat_add]
  have := cq.tail.toNat_lt
  have := cq.head.toNat_lt
  have h1 : (1 : UInt32).toNat = 1 := rfl
  omega

/-- A walk dispatches only pending entries, and one that has not been dispatched as
long as there is one. -/
def Dispatches (z : Size) (s : State) : Act → Prop
  | .post _ => True
  | .walk =>
    (∀ x, dispatches z s.listener = some x →
      x ∈ window z s.listener.cq.head s.listener.cq.tail) ∧
    (dispatches z s.listener = none →
      ∀ x ∈ window z s.listener.cq.head s.listener.cq.tail, Known s.listener x →
        s.times x ≠ 0)

/-- No entry is dispatched twice, nothing but pending entries is dispatched, and a
walk dispatches one as long as one is due. -/
def DispatchedOnce (z : Size) (s : State) (as : List Act) : Prop :=
  Always (step z) (fun s => ∀ x, s.times x ≤ 1) s as ∧ Along (step z) (Dispatches z) s as

/-- Every walk of the run finds the queue as `WalkCond` says. -/
def WalksRight (z : Size) (s : State) : Act → Prop
  | .post _ => True
  | .walk => WalkCond z s.listener fun x => s.times x ≠ 0

instance (z : Size) (l : listener.State) (done : Nat → Prop) [DecidablePred done] :
    Decidable (WalkCond z l done) :=
  inferInstanceAs (Decidable (_ ∧ _ ∧ _))

instance (z : Size) (s : State) (a : Act) : Decidable (WalksRight z s a) :=
  match a with
  | .post _ => isTrue trivial
  | .walk => inferInstanceAs (Decidable (WalkCond _ _ _))

theorem known_of_dispatches {i : Nat} (h : dispatches z l = some i) : Known l i = true := by
  obtain ⟨⟨j, k, cInfo⟩, hhit, rfl⟩ := Option.map_eq_some_iff.mp h
  rw [Known, listener.hit_conns hhit]
  rfl

/-- A walk keeps the law, exactly if it finds the queue as `WalkCond` says. -/
theorem walk_iff {s s' : State} (hrange : InRange z s.listener.cq) (htimes : ∀ x, s.times x ≤ 1)
    (h : step z s .walk = some s') :
    Dispatches z s .walk ∧ (∀ x, s'.times x ≤ 1) ↔ WalksRight z s .walk := by
  rw [WalksRight, ← right_iff_walkCond hrange]
  cases h
  simp only [Dispatches, Right]
  cases hd : dispatches z s.listener with
  | none => simp [htimes]
  | some i =>
    have honce : (∀ x, Function.update s.times i (s.times i + 1) x ≤ 1) ↔ s.times i = 0 := by
      constructor
      · intro h
        have := h i
        rw [Function.update_self] at this
        omega
      · intro h x
        by_cases hx : x = i
        · rw [hx, Function.update_self, h]
        · rw [Function.update_of_ne hx]
          exact htimes x
    simp [honce, known_of_dispatches hd]

theorem step_inRange {s s' : State} {a : Act} (hrange : InRange z s.listener.cq)
    (h : step z s a = some s') : InRange z s'.listener.cq := by
  cases a with
  | post c =>
    obtain ⟨cq, hcq, rfl⟩ := Option.map_eq_some_iff.mp h
    exact InRange.publish hcq
  | walk =>
    cases h
    dsimp only [walkCq]
    cases hhit : hit z s.listener with
    | none => exact hrange
    | some x =>
      obtain ⟨i, k, cInfo⟩ := x
      exact hrange.mark (hit_seenIdx hhit)

theorem post_times {s s' : State} {c : CompletionEntry} (htimes : ∀ x, s.times x ≤ 1)
    (h : step z s (.post c) = some s') (x : Nat) : s'.times x ≤ 1 := by
  obtain ⟨cq, -, rfl⟩ := Option.map_eq_some_iff.mp h
  dsimp only
  by_cases hx : x = (s.listener.cq.tail &&& z.mask).toNat
  · rw [hx, Function.update_self]
    exact Nat.zero_le 1
  · rw [Function.update_of_ne hx]
    exact htimes x

/-- The law of a run, step by step. -/
theorem dispatchedOnce_iff {s : State} (hrange : InRange z s.listener.cq)
    (htimes : ∀ x, s.times x ≤ 1) (as : List Act) :
    DispatchedOnce z s as ↔ Along (step z) (WalksRight z) s as := by
  induction as generalizing s with
  | nil => exact ⟨fun _ => trivial, fun _ => ⟨htimes, trivial⟩⟩
  | cons a as ih =>
    constructor
    · rintro ⟨halways, halong⟩ s' h
      obtain ⟨hd, hrest⟩ := halong s' h
      have htimes' := (halways.2 s' h).head
      refine ⟨?_, (ih (step_inRange hrange h) htimes').mp ⟨halways.2 s' h, hrest⟩⟩
      cases a with
      | post c => trivial
      | walk => exact (walk_iff hrange htimes h).mp ⟨hd, htimes'⟩
    · intro halong
      have hstep : ∀ s', step z s a = some s' →
          Dispatches z s a ∧ DispatchedOnce z s' as := by
        intro s' h
        obtain ⟨hok, hrest⟩ := halong s' h
        have hboth : Dispatches z s a ∧ ∀ x, s'.times x ≤ 1 := by
          cases a with
          | post c => exact ⟨trivial, post_times htimes h⟩
          | walk => exact (walk_iff hrange htimes h).mpr hok
        exact ⟨hboth.1, (ih (step_inRange hrange h) hboth.2).mpr hrest⟩
      exact ⟨⟨htimes, fun s' h => (hstep s' h).2.1⟩,
        fun s' h => ⟨(hstep s' h).1, (hstep s' h).2.2⟩⟩

/-- Over every run of posts and walks, from any queue with any words and slots, and
for any map: the completions of the listener are dispatched exactly once, exactly if
every walk finds the queue as `WalkCond` says. -/
theorem completions_are_dispatched_once_iff (z : Size) (l : listener.State)
    (h : (l.cq.tail - l.cq.head).toNat ≤ z.slots) (as : List Act) :
    DispatchedOnce z (start l) as ↔ Along (step z) (WalksRight z) (start l) as := by
  have hrange : InRange z (start l).listener.cq := h
  have htimes : ∀ x, (start l).times x ≤ 1 := fun _ => Nat.zero_le 1
  exact dispatchedOnce_iff hrange htimes as

/-- A new ring of four with a poll that has the id 1: its completion is posted behind
one of somebody else, and the walk dispatches it. -/
theorem one_walk_dispatches_once :
    DispatchedOnce ⟨2, by decide⟩ (start (listener.start 5 1))
        [.post ⟨7, 1, 0⟩, .post ⟨1, 1, 0⟩, .walk] ∧
      (run (step ⟨2, by decide⟩) (start (listener.start 5 1))
        [.post ⟨7, 1, 0⟩, .post ⟨1, 1, 0⟩, .walk]).map (fun s => s.times 1) = some 1 :=
  ⟨(completions_are_dispatched_once_iff _ _ (by decide) _).mpr (by decide), by decide⟩

/-- The completion of the poll is posted to a new ring of four, and two walks
dispatch it twice. -/
theorem two_walks_dispatch_twice :
    (run (step ⟨2, by decide⟩) (start (listener.start 5 1))
      [.post ⟨1, 1, 0⟩, .walk, .walk]).map (fun s => s.times 0) = some 2 := by
  decide

end iouring.listener_walk
