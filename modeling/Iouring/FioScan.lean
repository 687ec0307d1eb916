-- One pass of the search in `ringFIO.getCqe`, over a queue that nobody else
-- writes to meanwhile. What it finds against what is pending: the walk looks at
-- the slot of `Tail` too, and takes a full queue for an empty one.
import Iouring.RingFio
import Iouring.Search
import Iouring.SlotLoops

open counter machine search
open iouring.completion_queue (CompletionEntry CompletionQueue)
open iouring.slot_loops

namespace iouring.ring_fio

/-! ## The loops -/

/-- How a loop ends: at the slot with the id, with `goto findCqe`, or at its bound. -/
inductive LoopEnd where
  | found (x : Nat)
  | again
  | past
  deriving DecidableEq, Repr

/-- The first loop from index `x` on, with `turns` indices left. -/
def firstLoop (entries : Nat → CompletionEntry) (reqID : UInt64) (last : Nat) :
    Nat → Nat → LoopEnd
  | 0, _ => .past
  | turns + 1, x =>
    if (entries x).userData = reqID then .found x
    else if x = last then .again
    else firstLoop entries reqID last turns (x + 1)

/-- One pass from the label `findCqe` on: the slot that it finds, or `none` when it
goes back to the label. The second loop is the first one with another bound, and
behind it there is a `goto findCqe` too. -/
def findCqe (z : Size) (cq : CompletionQueue) (reqID : UInt64) : Option Nat :=
  let first := (cq.head &&& z.mask).toNat
  let last := (cq.tail &&& z.mask).toNat
  match firstLoop cq.entries reqID last (z.slots - first) first with
  | .found x => some x
  | .again => none
  | .past =>
    match firstLoop cq.entries reqID last last 0 with
    | .found x => some x
    | .again | .past => none

/-- The slot holds a completion of the request. -/
def Answers (entries : Nat → CompletionEntry) (reqID : UInt64) (x : Nat) : Bool :=
  (entries x).userData = reqID

variable {entries : Nat → CompletionEntry} {reqID : UInt64} {last : Nat}

/-- The loop when its indices run past `last`: it stops there. -/
theorem firstLoop_of_le {turns x : Nat} (hx : x ≤ last) (hlast : last < x + turns) :
    firstLoop entries reqID last turns x =
      match (List.range' x (last + 1 - x)).find? (Answers entries reqID) with
      | some y => .found y
      | none => .again := by
  induction turns generalizing x with
  | zero => omega
  | succ turns ih =>
    obtain ⟨m, hm⟩ := Nat.exists_eq_succ_of_ne_zero (by omega : last + 1 - x ≠ 0)
    rw [hm, List.range'_succ, firstLoop, List.find?_cons]
    by_cases hid : (entries x).userData = reqID
    · simp [Answers, hid]
    · by_cases hend : x = last
      · subst hend
        have hm0 : m = 0 := by omega
        simp [Answers, hid, hm0]
      · have hm' : m = last + 1 - (x + 1) := by omega
        simp only [Answers, hid, decide_false, if_false, if_neg hend]
        rw [hm']
        exact ih (by omega) (by omega)

/-- The loop when it never comes to `last`: it looks at all its indices. -/
theorem firstLoop_of_ne {turns x : Nat} (hlast : ∀ y, x ≤ y → y < x + turns → y ≠ last) :
    firstLoop entries reqID last turns x =
      match (List.range' x turns).find? (Answers entries reqID) with
      | some y => .found y
      | none => .past := by
  induction turns generalizing x with
  | zero => rfl
  | succ turns ih =>
    rw [List.range'_succ, firstLoop, List.find?_cons]
    by_cases hid : (entries x).userData = reqID
    · simp [Answers, hid]
    · simp only [Answers, hid, decide_false, if_false,
        if_neg (hlast x (Nat.le_refl x) (by omega))]
      exact ih fun y hy hy' => hlast y (by omega) (by omega)

/-- A pass finds the first slot with the id among those that it visits. -/
theorem findCqe_eq (z : Size) (cq : CompletionQueue) (reqID : UInt64) :
    findCqe z cq reqID = (visited z cq.head cq.tail).find? (Answers cq.entries reqID) := by
  have hfirst := z.and_mask_lt cq.head
  have hlast := z.and_mask_lt cq.tail
  unfold findCqe visited
  dsimp only
  by_cases hle : (cq.head &&& z.mask).toNat ≤ (cq.tail &&& z.mask).toNat
  · rw [if_pos hle, firstLoop_of_le hle (by omega)]
    cases (List.range' _ _).find? _ <;> rfl
  · rw [if_neg hle, firstLoop_of_ne (fun y _ _ => by omega),
      firstLoop_of_ne (fun y _ _ => by omega), List.find?_append]
    cases (List.range' (cq.head &&& z.mask).toNat _).find? _ with
    | some x => rfl
    | none => cases (List.range' 0 _).find? _ <;> rfl

/-! ## The pass as steps of a call -/

section Steps

variable {ι : Type} [DecidableEq ι] {z : Size} {s : State ι} {g : ι} {c : Call}

@[simp] theorem goto_pc (s : State ι) (g : ι) (p : Pc) : (s.goto g p).pc g = p := by
  simp [State.goto]

@[simp] theorem goto_goto (s : State ι) (g : ι) (p q : Pc) :
    (s.goto g p).goto g q = s.goto g q := by
  simp [State.goto]

theorem look_goto (s : State ι) (g : ι) (p : Pc) (c : Call) (x : Nat) (miss : Pc) :
    look (s.goto g p) g c x miss = look s g c x miss := by
  simp [look, State.ret, State.goto]

theorem look_hit {x : Nat} (h : (s.queue.cq.entries x).userData = c.reqID) (miss miss' : Pc) :
    look s g c x miss = look s g c x miss' := by
  simp [look, h]

theorem look_miss {x : Nat} (h : (s.queue.cq.entries x).userData ≠ c.reqID) (miss : Pc) :
    look s g c x miss = s.goto g miss := by
  simp [look, h]

theorem stepPc_first (z : Size) (s : State ι) (g : ι) (c : Call) (x last : Nat) :
    stepPc z (s.goto g (.first c x last)) g =
      some (look s g c x (if x = last then .loadHead c
        else if x + 1 < z.slots then .first c (x + 1) last else .reloadTail c)) := by
  simp only [stepPc, goto_pc, look_goto]

theorem stepPc_second (z : Size) (s : State ι) (g : ι) (c : Call) (x last : Nat) :
    stepPc z (s.goto g (.second c x last)) g =
      some (look s g c x (if x = last then .loadHead c
        else if x + 1 < last then .second c (x + 1) last else .loadHead c)) := by
  simp only [stepPc, goto_pc, look_goto]

/-- Where a call stands after a loop. -/
def afterLoop (s : State ι) (g : ι) (c : Call) (past : Pc) : LoopEnd → State ι
  | .found x => look s g c x (.loadHead c)
  | .again => s.goto g (.loadHead c)
  | .past => s.goto g past

/-- A loop of the source is a run of steps, when `here` is where a call stands in
the loop and a step goes on as the loop does. -/
theorem firstLoop_run (here : Nat → Pc) (past : Pc) {last turns x : Nat} (hturns : 0 < turns)
    (hhere : ∀ y, y < x + turns → stepPc z (s.goto g (here y)) g =
      some (look s g c y (if y = last then .loadHead c
        else if y + 1 < x + turns then here (y + 1) else past))) :
    Repeats (step z) (.step g) (s.goto g (here x))
      (afterLoop s g c past (firstLoop s.queue.cq.entries c.reqID last turns x)) := by
  induction turns generalizing x with
  | zero => omega
  | succ turns ih =>
    have hstep : step z (s.goto g (here x)) (.step g) = _ := hhere x (by omega)
    rw [firstLoop]
    by_cases hid : (s.queue.cq.entries x).userData = c.reqID
    · rw [look_hit hid _ (.loadHead c)] at hstep
      rw [if_pos hid]
      exact .single hstep
    · rw [look_miss hid] at hstep
      rw [if_neg hid]
      by_cases hend : x = last
      · rw [if_pos hend] at hstep ⊢
        exact .single hstep
      · rw [if_neg hend] at hstep ⊢
        cases turns with
        | zero =>
          rw [if_neg (by omega)] at hstep
          exact .single hstep
        | succ turns =>
          rw [if_pos (by omega)] at hstep
          refine .head hstep (ih (by omega) fun y hy => ?_)
          rw [hhere y (by omega), show x + 1 + (turns + 1) = x + (turns + 1 + 1) by omega]

/-- Alone, a call that stands at `findCqe` makes the pass that `findCqe` says: it
comes to the slot, or back to the label with nothing changed. -/
theorem findCqe_repeats (h : s.pc g = .loadHead c) :
    Repeats (step z) (.step g) s
      (match findCqe z s.queue.cq c.reqID with
        | some x => look s g c x (.loadHead c)
        | none => s) := by
  have hback : s.goto g (.loadHead c) = s := by
    simp [State.goto, ← h]
  have hmask := z.and_mask_lt s.queue.cq.head
  generalize hfirst : (s.queue.cq.head &&& z.mask).toNat = first at hmask
  generalize hlast : (s.queue.cq.tail &&& z.mask).toNat = last
  have hloop : Repeats (step z) (.step g) s
      (afterLoop s g c (.reloadTail c)
        (firstLoop s.queue.cq.entries c.reqID last (z.slots - first) first)) := by
    have hload : step z s (.step g) = some (s.goto g (.loadTail c s.queue.cq.head)) := by
      simp only [step, stepPc, h]
    have henter : step z (s.goto g (.loadTail c s.queue.cq.head)) (.step g) =
        some (s.goto g (.first c first last)) := by
      simp only [step, stepPc, goto_pc, goto_goto, ← hfirst, ← hlast]
      rfl
    refine .head hload (.head henter ?_)
    apply firstLoop_run (.first c · last) (.reloadTail c) (by omega)
    intro y _
    rw [Nat.add_sub_cancel' (Nat.le_of_lt hmask)]
    exact stepPc_first z s g c y last
  simp only [findCqe, hfirst, hlast]
  cases hend : firstLoop s.queue.cq.entries c.reqID last (z.slots - first) first with
  | found x =>
    rw [hend] at hloop
    exact hloop
  | again =>
    rw [hend, afterLoop, hback] at hloop
    exact hloop
  | past =>
    rw [hend, afterLoop] at hloop
    have hreload : step z (s.goto g (.reloadTail c)) (.step g) =
        some (s.goto g (if 0 < last then .second c 0 last else .loadHead c)) := by
      simp only [step, stepPc, goto_pc, goto_goto, ← hlast]
      rfl
    by_cases hpos : 0 < last
    · rw [if_pos hpos] at hreload
      have hsecond : Repeats (step z) (.step g) (s.goto g (.second c 0 last))
          (afterLoop s g c (.loadHead c)
            (firstLoop s.queue.cq.entries c.reqID last last 0)) := by
        apply firstLoop_run (.second c · last) (.loadHead c) hpos
        intro y _
        rw [Nat.zero_add]
        exact stepPc_second z s g c y last
      have hall := hloop.trans (.head hreload hsecond)
      dsimp only
      cases hend2 : firstLoop s.queue.cq.entries c.reqID last last 0 with
      | found x =>
        rw [hend2] at hall
        exact hall
      | again | past =>
        rw [hend2, afterLoop, hback] at hall
        exact hall
    · have h0 : last = 0 := by omega
      rw [if_neg hpos, hback] at hreload
      rw [h0]
      exact hloop.trans (.single hreload)

end Steps

/-! ## The law -/

/-- A pass finds the request if and only if a pending entry has its id, and the
slot that it finds, which is the one that is acknowledged, is the slot of such
an entry. -/
def PassRight (z : Size) (cq : CompletionQueue) (reqID : UInt64) : Prop :=
  ((findCqe z cq reqID).isSome ↔
      ∃ x ∈ window z cq.head cq.tail, (cq.entries x).userData = reqID) ∧
    ∀ x, findCqe z cq reqID = some x →
      x ∈ window z cq.head cq.tail ∧ (cq.entries x).userData = reqID

theorem passRight_iff_right (z : Size) (cq : CompletionQueue) (reqID : UInt64) :
    PassRight z cq reqID ↔ Right (window z cq.head cq.tail) (fun _ => False)
      (Answers cq.entries reqID) (findCqe z cq reqID) := by
  unfold PassRight Right
  cases findCqe z cq reqID with
  | none => simp [Answers]
  | some x =>
    simp only [Answers, decide_eq_true_eq, not_false_eq_true, and_true, Option.isSome_some,
      true_iff, Option.some.injEq, forall_eq', reduceCtorEq, false_implies]
    exact ⟨fun h => h.2, fun h => ⟨⟨x, h⟩, h⟩⟩

/-- Over every queue, with any words and any slots: one pass is right for an id,
exactly if
- when the queue is full, no pending entry has the id, or the first one has it;
- when it is not full and does not wrap, and no pending entry has the id, the slot
  of `Tail` does not have it either. -/
theorem one_pass_covers_the_window_iff (z : Size) (cq : CompletionQueue) (reqID : UInt64)
    (h : (cq.tail - cq.head).toNat ≤ z.slots) :
    PassRight z cq reqID ↔
      ((cq.tail - cq.head).toNat = z.slots →
        (cq.entries (cq.head &&& z.mask).toNat).userData ≠ reqID →
        ∀ x ∈ window z cq.head cq.tail, (cq.entries x).userData ≠ reqID) ∧
      ((cq.tail - cq.head).toNat < z.slots →
        (cq.head &&& z.mask).toNat ≤ (cq.tail &&& z.mask).toNat →
        (∀ x ∈ window z cq.head cq.tail, (cq.entries x).userData ≠ reqID) →
        (cq.entries (cq.tail &&& z.mask).toNat).userData ≠ reqID) := by
  rw [passRight_iff_right, findCqe_eq]
  cases shape h with
  | full hfull =>
    -- the walk sees the first pending slot only
    obtain ⟨rest, hwindow, -⟩ := window_of_full hfull
    rw [(visited_of_full hfull).2, hwindow, ← List.append_nil [_],
      @right_iff _ _ [(cq.head &&& z.mask).toNat] [] rest _ _ (by simp) (by simp)]
    generalize (cq.head &&& z.mask).toNat = first
    simp only [List.find?_singleton, Answers, decide_eq_true_eq, List.not_mem_nil,
      not_false_eq_true, implies_true, true_and, imp_false, hfull, Nat.lt_irrefl, false_implies,
      and_true, true_implies, List.forall_mem_cons, ite_eq_right_iff, reduceCtorEq]
    exact ⟨fun hrest hne => ⟨hne, hrest hne⟩, fun hall hne => (hall hne).2⟩
  | straight hroom hle =>
    -- the walk sees the window and the slot behind it
    rw [visited_of_le hroom hle, @right_iff _ _ (window z cq.head cq.tail) _ [] _ _
      (by simp) (by simp)]
    generalize (cq.head &&& z.mask).toNat = first at hle ⊢
    generalize (cq.tail &&& z.mask).toNat = last at hle ⊢
    simp [Nat.ne_of_lt hroom, hroom, hle, Answers]
  | wrapped hroom hgt =>
    -- the walk is the window
    rw [visited_of_lt h hgt]
    nth_rewrite 2 [← List.append_nil (window z cq.head cq.tail)]
    rw [@right_iff _ _ (window z cq.head cq.tail) [] [] _ _ (by simp) (by simp)]
    generalize (cq.head &&& z.mask).toNat = first at hgt ⊢
    generalize (cq.tail &&& z.mask).toNat = last at hgt ⊢
    simp [Nat.ne_of_lt hroom, Nat.not_le_of_lt hgt]

/-- Two pending entries on a ring of four, in slots 3 and 0: the pass is right for
the id in slot 0. -/
theorem a_wrapped_window_is_covered :
    PassRight ⟨2, by decide⟩ ⟨3, 5, numbered⟩ 0 ∧
      findCqe ⟨2, by decide⟩ ⟨3, 5, numbered⟩ 0 = some 0 :=
  ⟨(one_pass_covers_the_window_iff _ _ _ (by decide)).mpr (by decide), by decide⟩

/-- A full ring of four, with the id 1 in its second slot: the pass looks at the
first slot only and starts again. An empty ring where slot 1 still holds 1 and
`Tail` is there: the pass finds it. -/
theorem a_full_queue_is_not_covered :
    (findCqe ⟨2, by decide⟩ ⟨0, 4, numbered⟩ 1 = none ∧
        1 ∈ window ⟨2, by decide⟩ 0 4 ∧ (numbered 1).userData = 1) ∧
      findCqe ⟨2, by decide⟩ ⟨5, 5, numbered⟩ 1 = some 1 ∧ window ⟨2, by decide⟩ 5 5 = [] := by
  decide

end iouring.ring_fio
