-- How far the completer comes with each acknowledgement: to the first entry that
-- it has not taken an acknowledgement for, unless the run of acknowledged entries
-- crosses the end of `Entries`. It probes the indices without the mask, and the
-- index behind the last slot is never there.
import Iouring.Completer

open machine counter

namespace iouring.completer

open completion_queue

/-! ## What the completer has taken -/

/-- The acknowledgements that the completer has received: all but those that wait in
its channel. -/
def processed (s : State) : List Nat := s.acked.take (s.acked.length - s.completer.seen.length)

/-- `Head` stands at the first position whose acknowledgement has not been processed,
and at `Tail` once all posted entries are acknowledged and processed. -/
def Released (s : State) : Prop :=
  s.completer.pc = .recv →
    s.cq.head = word s.headPos ∧ s.headPos ∉ processed s ∧ (∀ p < s.headPos, p ∈ processed s) ∧
      ((∀ p < s.posted.length, p ∈ processed s) → s.cq.head = s.cq.tail)

/-- The entries from `Head` to the end of the lap and the first one of the next lap
have all been processed. -/
def Crosses (z : Size) (s : State) : Prop :=
  ∀ p ∈ List.range' s.headPos (z.slots - s.headPos % z.slots + 1), p ∈ processed s

/-- The completer is about to add to `Head`. -/
def adds : CompleterPc → Bool
  | .addHead _ => true
  | _ => false

/-- When the completer moves `Head`, no run of processed entries crosses the end of
the ring. -/
def NoCrossing (z : Size) (s : State) : Act → Prop
  | .run => adds s.completer.pc = true → ¬ Crosses z s
  | _ => True

instance (z : Size) (s : State) (a : Act) : Decidable (NoCrossing z s a) :=
  match a with
  | .run => inferInstanceAs (Decidable (_ → ¬ ∀ p ∈ List.range' _ _, _))
  | .post _ | .ack _ => isTrue trivial

/-- The inner loop stops at an index that is not there. -/
theorem sweep_stops (curHead turns seen : Nat) (u : Finset Nat) (h : u.card ≤ turns) :
    curHead + (sweep curHead turns seen u).1 ∉ u := by
  induction turns generalizing seen u with
  | zero =>
    rw [Finset.card_eq_zero.mp (Nat.le_zero.mp h)]
    exact Finset.notMem_empty _
  | succ turns ih =>
    rw [sweep]
    split
    · rename_i hmem
      have hcard := Finset.card_erase_of_mem hmem
      have hstop := ih (seen + 1) (u.erase (curHead + seen)) (by omega)
      obtain ⟨hge, -⟩ := sweep_spec curHead turns (seen + 1) (u.erase (curHead + seen))
      intro hin
      exact hstop (Finset.mem_erase.mpr ⟨by omega, hin⟩)
    · assumption

/-! ## The invariant -/

/-- Where the completer stands: `done` are the acknowledgements that it has taken, in
order, and `wait` those that are in its channel. -/
structure Taken (z : Size) (s : State) (H : Nat) (done wait : List Nat) : Prop
    extends Span z (fun _ => False) s H where
  acked : s.acked = done ++ wait
  seen : s.completer.seen = wait.map (· % z.slots)
  nodup : s.acked.Nodup
  passed : ∀ p < H + s.completer.pc.count, p ∈ done
  held : ∀ i, i ∈ s.completer.unacked ↔ ∃ p ∈ done, H + s.completer.pc.count ≤ p ∧ p % z.slots = i
  /-- Between two acknowledgements `Head` stands at the first entry that is not
  done. -/
  idle : s.completer.pc = .recv → H ∉ done
  /-- The loop stops there too, or at the end of the ring. -/
  stop : ∀ k, s.completer.pc = .addHead k →
    H % z.slots + k ≤ z.slots ∧ (H + k ∉ done ∨ H % z.slots + k = z.slots)

variable {z : Size} {s s' : State} {H : Nat} {done wait : List Nat}

theorem Taken.processed_eq (h : Taken z s H done wait) : processed s = done := by
  rw [processed, h.seen, h.acked, List.length_append, List.length_map, Nat.add_sub_cancel,
    List.take_left']
  rfl

theorem taken_init (z : Size) : Taken z init 0 [] [] where
  toSpan := span_init z _
  acked := rfl
  seen := rfl
  nodup := List.nodup_nil
  passed := fun p hp => absurd hp (Nat.not_lt_zero p)
  held := fun i => by simp [init]
  idle := fun _ => List.not_mem_nil
  stop := fun k hk => by cases hk

theorem Taken.released (h : Taken z s H done wait) : Released s := by
  intro hpc
  rw [h.processed_eq, h.headPos_eq]
  refine ⟨h.head, h.idle hpc, fun p hp => h.passed p (by omega), fun hall => ?_⟩
  have hle := h.head_le
  have hH : H = s.posted.length := by
    by_contra hne
    exact h.idle hpc (hall H (by omega))
  rw [h.head, h.tail, hH]

/-- A post touches neither the acknowledgements nor the completer. -/
theorem Taken.post (h : Taken z s H done wait) {c : CompletionEntry}
    (hs : publish z s c = some s') : Taken z s' H done wait := by
  have hspan := h.toSpan.publish hs
  obtain ⟨-, rfl⟩ := publish_eq hs
  exact { h with toSpan := hspan }

theorem Taken.ack (h : Taken z s H done wait) {p : Nat} (hs : ack z s p = some s') :
    Taken z s' H done (wait ++ [p]) := by
  have hspan := h.toSpan.ack not_false hs
  obtain ⟨⟨-, hnew⟩, rfl⟩ := ack_eq hs
  refine { h with toSpan := hspan, acked := ?_, seen := ?_, nodup := ?_ }
  · simp only [h.acked, List.append_assoc]
  · simp only [h.seen, List.map_append, List.map_cons, List.map_nil]
  · simp only
    refine List.nodup_append.mpr ⟨h.nodup, List.nodup_singleton p, ?_⟩
    rintro a ha b hb rfl
    rw [List.mem_singleton.mp hb] at ha
    exact hnew ha

/-- The completer receives an index. -/
theorem Taken.recv (h : Taken z s H done wait) {id : Nat} {rest : List Nat}
    (hpc : s.completer.pc = .recv) (hseen : s.completer.seen = id :: rest) :
    ∃ p wait', wait = p :: wait' ∧
      Taken z { s with completer := ⟨rest, insert id s.completer.unacked, .loadHead⟩ } H
        (done ++ [p]) wait' := by
  have hspan := h.toSpan.recv hpc hseen
  have hcount : s.completer.pc.count = 0 := by rw [hpc]; rfl
  have hmap := h.seen
  rw [hseen] at hmap
  cases wait with
  | nil => cases hmap
  | cons p wait' =>
    rw [List.map_cons, List.cons.injEq] at hmap
    obtain ⟨rfl, rfl⟩ := hmap
    have hnodup := h.nodup
    rw [h.acked] at hnodup
    -- what waits has not been passed
    have hp : H ≤ p := by
      by_contra hlt
      have hdone := h.passed p (by omega)
      exact (List.nodup_append.mp hnodup).2.2 p hdone p List.mem_cons_self rfl
    refine ⟨p, wait', rfl, { h with
      toSpan := hspan, acked := ?_, seen := rfl, passed := ?_, held := ?_, idle := ?_,
      stop := ?_ }⟩
    · simp only [h.acked, List.append_assoc, List.singleton_append]
    · intro q hq
      exact List.mem_append_left _ (h.passed q (by simp only [CompleterPc.count] at hq; omega))
    · intro i
      have hold := h.held i
      rw [hcount] at hold
      simp only [Finset.mem_insert, hold, CompleterPc.count, List.mem_append, List.mem_singleton]
      constructor
      · rintro (rfl | ⟨q, hq, hle, hslot⟩)
        · exact ⟨p, Or.inr rfl, by omega, rfl⟩
        · exact ⟨q, Or.inl hq, hle, hslot⟩
      · rintro ⟨q, hq | rfl, hle, hslot⟩
        · exact Or.inr ⟨q, hq, hle, hslot⟩
        · exact Or.inl hslot.symm
    · intro hrecv
      cases hrecv
    · intro k hk
      cases hk

/-- The completer takes the indices out of its set. -/
theorem Taken.loadHead (h : Taken z s H done wait) (hpc : s.completer.pc = .loadHead)
    {swept : Nat × Finset Nat}
    (hswept : swept = sweep (s.cq.head &&& z.mask).toNat s.completer.unacked.card 0
      s.completer.unacked) :
    Taken z { s with completer := ⟨s.completer.seen, swept.2, .addHead swept.1⟩ } H done wait := by
  have hspan := h.toSpan.loadHead hpc hswept
  obtain ⟨-, hin, hout⟩ := sweep_spec (s.cq.head &&& z.mask).toNat s.completer.unacked.card 0
    s.completer.unacked
  have hstop := sweep_stops (s.cq.head &&& z.mask).toNat s.completer.unacked.card 0
    s.completer.unacked (Nat.le_refl _)
  rw [← hswept, h.head, word_slot] at hin hout hstop
  have hhead := Nat.mod_lt H z.slots_pos
  have hroom := h.room
  have hcount : s.completer.pc.count = 0 := by rw [hpc]; rfl
  have hpassed := h.passed
  have hheld := h.held
  rw [hcount] at hpassed
  simp only [hcount, Nat.add_zero] at hheld hpassed
  have hdone : ∀ p ∈ done, p < s.posted.length := by
    intro p hp
    apply h.acked_lt
    rw [h.acked]
    exact List.mem_append_left _ hp
  -- the index that the loop finds at curHead + j is the slot of H + j
  have hpos : ∀ j < swept.1, H + j ∈ done ∧ (H + j) % z.slots = H % z.slots + j := by
    intro j hj
    obtain ⟨p, hp, hle, hslot⟩ := (hheld _).mp (hin j (Nat.zero_le j) hj)
    have hlt := hdone p hp
    have hsmall : H % z.slots + j < z.slots := hslot ▸ Nat.mod_lt p z.slots_pos
    have hslot' : (H + j) % z.slots = H % z.slots + j := by
      rw [shift_slot z H (by omega), if_pos hsmall]
    have hpj : p = H + j :=
      slot_inj (a := H) hle (by omega) (by omega) (by omega) (hslot.trans hslot'.symm)
    exact ⟨hpj ▸ hp, hslot'⟩
  refine { h with toSpan := hspan, passed := ?_, held := ?_, idle := ?_, stop := ?_ }
  · intro p hp
    simp only [CompleterPc.count] at hp
    by_cases hlt : p < H
    · exact hpassed p hlt
    · obtain ⟨j, rfl⟩ : ∃ j, p = H + j := ⟨p - H, by omega⟩
      exact (hpos j (by omega)).1
  · intro i
    simp only [hout, hheld, CompleterPc.count]
    constructor
    · rintro ⟨⟨p, hp, hle, hslot⟩, hnot⟩
      refine ⟨p, hp, ?_, hslot⟩
      by_contra hlt
      obtain ⟨j, rfl⟩ : ∃ j, p = H + j := ⟨p - H, by omega⟩
      have := (hpos j (by omega)).2
      omega
    · rintro ⟨p, hp, hle, hslot⟩
      refine ⟨⟨p, hp, by omega, hslot⟩, fun hswept => ?_⟩
      obtain ⟨j, rfl⟩ : ∃ j, i = H % z.slots + j := ⟨i - H % z.slots, by omega⟩
      have hlt := hdone p hp
      have hj := (hpos j (by omega)).2
      have := slot_inj (a := H) (by omega) (by omega) (by omega) (by omega) (hslot.trans hj.symm)
      omega
  · intro hrecv
    cases hrecv
  · intro k hk
    cases hk
    -- the loop never passes the last slot, and stops there or at an index that is missing
    have hle : H % z.slots + swept.1 ≤ z.slots := by
      by_contra hgt
      have hlast := (hpos (swept.1 - 1) (by omega)).2
      have := Nat.mod_lt (H + (swept.1 - 1)) z.slots_pos
      omega
    refine ⟨hle, ?_⟩
    rcases Nat.eq_or_lt_of_le hle with heq | hlt
    · exact Or.inr heq
    · refine Or.inl fun hmem => hstop ((hheld _).mpr ⟨_, hmem, by omega, ?_⟩)
      rw [shift_slot z H (by omega), if_pos hlt]

/-- The completer moves `Head`. -/
theorem Taken.addHead (h : Taken z s H done wait) {k : Nat} (hpc : s.completer.pc = .addHead k)
    (hstop : H + k ∉ done) :
    Taken z { s with
      cq := { s.cq with head := s.cq.head + UInt32.ofNat k }
      completer := { s.completer with pc := .recv } } (H + k) done wait := by
  have hspan := h.toSpan.addHead hpc
  have hcount : s.completer.pc.count = k := by rw [hpc]; rfl
  have hpassed := h.passed
  have hheld := h.held
  rw [hcount] at hpassed
  simp only [hcount] at hheld
  exact { h with
    toSpan := hspan, passed := hpassed, held := hheld, idle := fun _ => hstop,
    stop := fun k hk => by cases hk }

/-- No run crosses the end of the ring, exactly if the loop stopped at an entry that
is not done. -/
theorem Taken.crosses_iff (h : Taken z s H done wait) {k : Nat}
    (hpc : s.completer.pc = .addHead k) : ¬ Crosses z s ↔ H + k ∉ done := by
  have hhead := Nat.mod_lt H z.slots_pos
  have hcount : s.completer.pc.count = k := by rw [hpc]; rfl
  have hpassed := h.passed
  rw [hcount] at hpassed
  obtain ⟨hle, hstop⟩ := h.stop k hpc
  rw [Crosses, h.processed_eq, h.headPos_eq, not_iff_not]
  constructor
  · intro hall
    apply hall
    rw [List.mem_range'_1]
    omega
  · intro hmem p hp
    rw [List.mem_range'_1] at hp
    have hend := hstop.resolve_left (not_not_intro hmem)
    by_cases hlt : p < H + k
    · exact hpassed p hlt
    · rwa [show p = H + k by omega]

/-! ## The law -/

/-- The completer has taken some acknowledgements, and others wait. -/
def Runs (z : Size) (s : State) : Prop := ∃ H done wait, Taken z s H done wait

theorem runs_step {a : Act} (h : Runs z s) (hok : NoCrossing z s a) (hs : step z s a = some s') :
    Runs z s' := by
  obtain ⟨H, done, wait, h⟩ := h
  cases a with
  | post c => exact ⟨H, done, wait, h.post hs⟩
  | ack p => exact ⟨H, done, wait ++ [p], h.ack hs⟩
  | run =>
    simp only [step, completerStep] at hs
    cases hpc : s.completer.pc with
    | recv =>
      simp only [hpc] at hs
      cases hseen : s.completer.seen with
      | nil => simp [hseen] at hs
      | cons id rest =>
        simp only [hseen, Option.some.injEq] at hs
        obtain ⟨p, wait', -, h'⟩ := h.recv hpc hseen
        exact ⟨H, done ++ [p], wait', hs ▸ h'⟩
    | loadHead =>
      simp only [hpc, Option.some.injEq] at hs
      exact ⟨H, done, wait, hs ▸ h.loadHead hpc rfl⟩
    | addHead k =>
      simp only [hpc, Option.some.injEq] at hs
      have hstop := (h.crosses_iff hpc).mp (hok (by rw [hpc]; rfl))
      exact ⟨H + k, done, wait, hs ▸ h.addHead hpc hstop⟩

/-- A step that leaves the completer with the law has met the condition. -/
theorem noCrossing_of_released {a : Act} (h : Runs z s) (hs : step z s a = some s')
    (hreleased : Released s') : NoCrossing z s a := by
  obtain ⟨H, done, wait, h⟩ := h
  cases a with
  | post c => trivial
  | ack p => trivial
  | run =>
    intro hadds
    cases hpc : s.completer.pc with
    | recv | loadHead =>
      rw [hpc] at hadds
      cases hadds
    | addHead k =>
      rw [h.crosses_iff hpc]
      simp only [step, completerStep, hpc, Option.some.injEq] at hs
      subst hs
      obtain ⟨-, hnot, -⟩ := hreleased rfl
      rw [(h.toSpan.addHead hpc).headPos_eq] at hnot
      have hprocessed := h.processed_eq
      rw [processed] at hprocessed hnot
      rw [hprocessed] at hnot
      exact hnot

/-- Over every run of posts, acknowledgements in any order and steps of the completer:
after each acknowledgement `Head` stands at the first entry whose acknowledgement has
not been processed, exactly if no run of processed entries crosses the end of the ring
when the completer moves `Head`. -/
theorem acked_runs_are_released_iff (z : Size) (as : List Act) :
    Always (step z) Released init as ↔ Along (step z) (NoCrossing z) init as := by
  have hstep : ∀ s a s', Runs z s → NoCrossing z s a → step z s a = some s' → Runs z s' :=
    fun s a s' h hok hs => runs_step h hok hs
  have hlaw : ∀ s, Runs z s → Released s := by
    rintro s ⟨H, done, wait, h⟩
    exact h.released
  have hok : ∀ s a s', Runs z s → step z s a = some s' → Released s' → NoCrossing z s a :=
    fun s a s' h hs hreleased => noCrossing_of_released h hs hreleased
  exact always_iff_along hstep hlaw hok ⟨0, [], [], taken_init z⟩ as

/-- Three entries on a ring of two. When `Head` has passed the first one, the third one
is acknowledged, and then the second one: `Head` stops behind the second one, although
all three are acknowledged and processed. -/
theorem a_run_across_the_end_is_not_released :
    (run (step ⟨1, by decide⟩) init
      [.post ⟨1, 0, 0⟩, .ack 0, .run, .run, .run, .post ⟨2, 0, 0⟩, .post ⟨3, 0, 0⟩,
        .ack 2, .run, .run, .run, .ack 1, .run, .run, .run]).map
      (fun s => (s.cq.head, s.cq.tail, processed s, s.completer.pc)) =
        some (2, 3, [0, 2, 1], .recv) := by
  decide

end iouring.completer
