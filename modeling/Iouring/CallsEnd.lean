-- A goroutine that is inside a call of the submission queue while nobody is inside the
-- syscall, and that runs alone from there on, comes to the end of its call: `SubmitEntry` never
-- waits for room, the closure never waits for the enter lock, and `Enter` waits for no writer.
import Iouring.SubmitSteps

open counter machine

namespace iouring.submit_queue

variable {ι : Type}

/-- The goroutine is in no call, or has its entry. -/
def Pc.atRest : Pc → Bool
  | .idle | .holding _ => true
  | _ => false

theorem Pc.inside_of_atRest {p : Pc} (h : p.atRest = true) : p.inside = false := by
  cases p with
  | syscall | unlock => cases h
  | _ => rfl

/-- How many steps the goroutine needs at most, if it runs alone: one more round for a value of
`Tail` or `writes` that is no longer the current one. -/
def stepsLeft (s : State ι) (g : ι) : Nat :=
  match s.pc g with
  | .idle | .holding _ | .restart _ | .panicked _ => 0
  | .loadTail => 15
  | .loadHead tail => if s.mem.tail = tail then 14 else 17
  | .casTail tail _ => if s.mem.tail = tail then 13 else 16
  | .loadEntered _ => 12
  | .addWrites _ => 11
  | .reset _ todo => todo.length + 1
  | .loadWrites _ => 3
  | .casWrites _ w => if s.mem.writes = w then 2 else 4
  | .storeArray _ => 1
  | .needWakeup _ => 6
  | .lockWrites _ => 5
  | .lockEntered _ => 4
  | .lockCas _ => 3
  | .syscall _ => 2
  | .unlock _ _ => 1

/-- A place that goroutines come to: the branch of `SubmitEntry` that sets `Tail` back is dead,
and the closure does not panic. -/
def Pc.sound : Pc → Bool
  | .restart _ | .panicked _ => false
  | .reset _ todo => todo.length ≤ 9
  | _ => true

theorem stepsLeft_le {s : State ι} {g : ι} (h : (s.pc g).sound = true) : stepsLeft s g ≤ 17 := by
  unfold stepsLeft
  cases hpc : s.pc g with
  | reset r todo =>
    rw [hpc] at h
    have : todo.length ≤ 9 := of_decide_eq_true h
    dsimp only
    omega
  | loadHead tail =>
    dsimp only
    split <;> omega
  | casTail tail head =>
    dsimp only
    split <;> omega
  | casWrites r w =>
    dsimp only
    split <;> omega
  | _ => simp

variable [Fintype ι]

structure SoundInv (s : State ι) : Prop where
  lock : LockInv s
  writes : WritesInv s
  sound : ∀ g, (s.pc g).sound = true

theorem soundInv_init : SoundInv (init ι) := ⟨lockInv_init, writesInv_init, fun _ => rfl⟩

variable [DecidableEq ι] {z : Size} {s s' : State ι} {g : ι}

/-- The write counter is not 0 while a goroutine is in it. -/
theorem WritesInv.ne_zero (hi : WritesInv s) (hcard : Fintype.card ι < 2 ^ 32)
    (hg : (s.pc g).counted = true) : s.mem.writes ≠ 0 := by
  intro h
  have hpos := tally_pos hg
  have hle := tally_le_card Pc.counted s.pc
  have hword := congrArg UInt32.toNat (hi.symm.trans h)
  rw [word, UInt32.toNat_ofNat', UInt32.toNat_zero, Nat.mod_eq_of_lt (by omega)] at hword
  omega

theorem soundInv_move {a : Act ι} (hi : SoundInv s) (hcard : Fintype.card ι < 2 ^ 32)
    (hm : Move z s a s') : SoundInv s' := by
  refine ⟨lockInv_move hi.lock hm, writesInv_move hi.writes hm, ?_⟩
  have hother : ∀ (g : ι) (p : Pc), p.sound = true →
      ∀ g', (Function.update s.pc g p g').sound = true := by
    intro g p hp
    rw [Function.forall_update_iff s.pc fun _ p => p.sound = true]
    exact ⟨hp, fun g' _ => hi.sound g'⟩
  cases hm with
  | panic h hw => exact absurd hw (hi.writes.ne_zero hcard (by rw [h]; rfl))
  | wrap h hn => exact absurd (next_le z _) hn
  | reset h =>
    rename_i g r w todo
    have hold := hi.sound g
    rw [h] at hold
    have hlen : todo.length + 1 ≤ 9 := of_decide_eq_true hold
    exact hother _ _ (decide_eq_true (by omega))
  | setFlags v => exact hi.sound
  | write w h => exact hi.sound
  | syscall h =>
    rw [goto_pc, consume_pc]
    exact hother _ _ rfl
  | _ => exact hother _ _ rfl

/-- Nobody but `g` is inside. -/
structure AloneInv (g : ι) (s : State ι) : Prop where
  sound : SoundInv s
  free : s.mem.entered = 0 ∨ (s.pc g).inside = true

omit [Fintype ι] in
/-- A goroutine in the middle of a call can take its next step. -/
theorem stepPc_of_not_atRest (hrest : (s.pc g).atRest = false) (hsound : (s.pc g).sound = true) :
    ∃ s', stepPc z s g = some s' := by
  unfold stepPc
  cases hpc : s.pc g with
  | idle | holding r =>
    rw [hpc] at hrest
    cases hrest
  | panicked r =>
    rw [hpc] at hsound
    cases hsound
  | reset r todo => cases todo <;> exact ⟨_, rfl⟩
  | _ =>
    dsimp only
    first
      | exact ⟨_, rfl⟩
      | split <;> exact ⟨_, rfl⟩

/-- A step of `g` brings it nearer to its end. -/
theorem AloneInv.move (hi : AloneInv g s) (hcard : Fintype.card ι < 2 ^ 32)
    (hm : Move z s (.step g) s') : AloneInv g s' ∧ stepsLeft s' g < stepsLeft s g := by
  have hsound := soundInv_move hi.sound hcard hm
  have hfree : (s.pc g).inside = false → s.mem.entered = 0 := by
    intro h
    rcases hi.free with hfree | hin
    · exact hfree
    · rw [h] at hin
      cases hin
  cases hm with
  | retry h he => exact absurd (hfree (by rw [h]; rfl)) he
  | lockCasLost h he => exact absurd (hfree (by rw [h]; rfl)) he
  | lockSpin h he =>
    rw [hfree (by rw [h]; rfl)] at he
    cases he
  | wrap h hn => exact absurd (next_le z _) hn
  | restart h =>
    have hsound := hi.sound.sound g
    rw [h] at hsound
    cases hsound
  | panic h hw => exact absurd hw (hi.sound.writes.ne_zero hcard (by rw [h]; rfl))
  | loadHead h hn =>
    rename_i tail
    refine ⟨⟨hsound, Or.inl (hfree (by rw [h]; rfl))⟩, ?_⟩
    by_cases htail : s.mem.tail = tail <;> simp [stepsLeft, h, htail]
  | lockCas h he => exact ⟨⟨hsound, Or.inr (by simp [Pc.inside])⟩, by simp [stepsLeft, h]⟩
  | syscall h => exact ⟨⟨hsound, Or.inr (by simp [Pc.inside])⟩, by simp [stepsLeft, h]⟩
  | unlock h => exact ⟨⟨hsound, Or.inl rfl⟩, by simp [stepsLeft, h]⟩
  | _ =>
    rename_i h
    refine ⟨⟨hsound, Or.inl (hfree (by simp [*, Pc.inside]))⟩, ?_⟩
    simp [*, stepsLeft, storeArray, State.setEntry, State.goto, resetWrites]

/-- For any number of goroutines below 2^32 and in every state of every run in which nobody is
inside the syscall: a goroutine that runs alone ends its call in 17 steps at most. `SubmitEntry`
gives it an entry, a closure or an `Enter` returns, and nobody is inside then. -/
theorem a_goroutine_alone_ends_its_call (z : Size) (hcard : Fintype.card ι < 2 ^ 32) {s : State ι}
    (hreach : Reachable (step z) (init ι) s) (hfree : s.mem.entered = 0) (g : ι) :
    ∃ k ≤ 17, ∃ s', run (step z) s (List.replicate k (.step g)) = some s' ∧
      (s'.pc g).atRest = true ∧ s'.mem.entered = 0 := by
  have hsound : SoundInv s :=
    reachable_invariant (fun _ _ _ hi h => soundInv_move hi hcard (step_move h)) soundInv_init
      hreach
  have hstep : ∀ s, AloneInv g s → ¬ (s.pc g).atRest = true →
      ∃ s', step z s (.step g) = some s' ∧ AloneInv g s' ∧ stepsLeft s' g < stepsLeft s g := by
    intro s hi hrest
    obtain ⟨s', h⟩ := stepPc_of_not_atRest (z := z) (Bool.eq_false_of_not_eq_true hrest)
      (hi.sound.sound g)
    exact ⟨s', h, hi.move hcard (stepPc_move h)⟩
  obtain ⟨k, hk, s', hrun, hi, hrest⟩ := run_to_end hstep ⟨hsound, Or.inl hfree⟩
  refine ⟨k, hk.trans (stepsLeft_le (hsound.sound g)), s', hrun, hrest, ?_⟩
  rcases hi.free with hfree' | hin
  · exact hfree'
  · rw [Pc.inside_of_atRest hrest] at hin
    cases hin

/-- A goroutine stands at its CAS when another one has moved `Tail`. -/
theorem a_late_submission_ends :
    ∃ s : State (Fin 2),
      run (step ⟨1, by decide⟩) (init (Fin 2))
        (Act.submitEntry 0 :: List.replicate 2 (.step 0) ++ submitEntryActs 1) = some s ∧
      s.mem.tail = 1 ∧ s.pc 0 = .casTail 0 0 ∧
      ∃ k ≤ 17, ∃ s', run (step ⟨1, by decide⟩) s (List.replicate k (.step 0)) = some s' ∧
        (s'.pc 0).atRest = true ∧ s'.mem.entered = 0 := by
  have h : (run (step ⟨1, by decide⟩) (init (Fin 2))
      (Act.submitEntry 0 :: List.replicate 2 (.step 0) ++ submitEntryActs 1)).map
        (fun s => (s.mem.tail, s.pc 0, s.mem.entered)) = some (1, .casTail 0 0, 0) := by decide
  obtain ⟨s, hrun, hs⟩ := Option.map_eq_some_iff.mp h
  simp only [Prod.mk.injEq] at hs
  exact ⟨s, hrun, hs.1, hs.2.1,
    a_goroutine_alone_ends_its_call _ (by decide) ⟨_, hrun⟩ hs.2.2 0⟩

end iouring.submit_queue
