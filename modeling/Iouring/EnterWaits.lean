-- What stands still while an `Enter` waits in the kernel for its completions. `entered` is
-- 1 all the time, so every `SubmitEntry` that comes to look at it starts over, and every other
-- `Enter` spins. A goroutine that waits for a completion which another goroutine's entry has to
-- bring about waits for ever.
import Iouring.SubmitSteps

open counter machine

namespace iouring.submit_queue

variable {ι : Type}

/-- `SubmitEntry` has seen `entered` at 0 and has not returned. -/
def Pc.passed : Pc → Bool
  | .addWrites _ | .reset _ _ => true
  | _ => false

/-- `SubmitEntry` has seen `entered` at 0, and the closure has not run to its end. -/
def Pc.served : Pc → Bool
  | .addWrites _ | .reset _ _ | .holding _ | .loadWrites _ | .casWrites _ _ | .storeArray _
  | .panicked _ => true
  | _ => false

variable [Fintype ι]

/-- What the ring has come to since `s₀`: the kernel has taken nothing, no goroutine that had
no entry has got one, and no more entries were handed out than were on their way. -/
structure HeldUp (s₀ s : State ι) : Prop where
  head : s.mem.head = s₀.mem.head
  executed : s.hist.executed = s₀.hist.executed
  unserved : ∀ g, (s₀.pc g).served = false → (s.pc g).served = false
  returned : s.hist.returned ≤ s₀.hist.returned + tally Pc.passed s₀.pc

/-- The goroutine `g` waits in the syscall, and the ring stands still. -/
structure WaitInv (s₀ : State ι) (g : ι) (c : EnterCall) (k : Option Nat) (s : State ι) :
    Prop where
  lock : LockInv s
  waits : s.pc g = .unlock c k
  head : s.mem.head = s₀.mem.head
  executed : s.hist.executed = s₀.hist.executed
  unserved : ∀ g, (s₀.pc g).served = false → (s.pc g).served = false
  count : s.hist.returned + tally Pc.passed s.pc = s₀.hist.returned + tally Pc.passed s₀.pc

variable {s₀ s s' : State ι} {g : ι} {c : EnterCall} {k : Option Nat}

theorem WaitInv.heldUp (hi : WaitInv s₀ g c k s) : HeldUp s₀ s :=
  ⟨hi.head, hi.executed, hi.unserved, by have := hi.count; omega⟩

theorem WaitInv.inside (hi : WaitInv s₀ g c k s) : (s.pc g).inside = true := by
  rw [hi.waits]
  rfl

variable [DecidableEq ι]

/-- Only `g` is inside. -/
theorem WaitInv.alone (hi : WaitInv s₀ g c k s) {g' : ι} (h : (s.pc g').inside = true) : g' = g :=
  tally_unique hi.lock.2 h hi.inside

theorem WaitInv.entered (hi : WaitInv s₀ g c k s) : s.mem.entered ≠ 0 := by
  intro h
  have hpos := tally_pos hi.inside
  have hword := hi.lock.1
  rw [h] at hword
  simp only [UInt32.toNat_zero] at hword
  omega

/-- A step of another goroutine that is not inside. -/
theorem WaitInv.other (hi : WaitInv s₀ g c k s) {g' : ι} {p : Pc} (hl : LockInv s')
    (hout : (s.pc g').inside = false) (hpc : s'.pc = Function.update s.pc g' p)
    (hhead : s'.mem.head = s.mem.head) (hexec : s'.hist.executed = s.hist.executed)
    (hserved : p.served = true → (s.pc g').served = true)
    (hcount : s'.hist.returned + p.passed.toNat =
      s.hist.returned + (s.pc g').passed.toNat) : WaitInv s₀ g c k s' := by
  have hne : g ≠ g' := by
    rintro rfl
    rw [hi.inside] at hout
    cases hout
  refine ⟨hl, ?_, hhead.trans hi.head, hexec.trans hi.executed, ?_, ?_⟩
  · rw [hpc, Function.update_of_ne hne]
    exact hi.waits
  · intro g1 h1
    have hs := hi.unserved g1 h1
    rw [hpc]
    by_cases hg : g1 = g'
    · subst hg
      rw [Function.update_self]
      by_contra hp
      rw [hserved (Bool.eq_true_of_not_eq_false hp)] at hs
      cases hs
    · rw [Function.update_of_ne hg]
      exact hs
  · have htally := tally_update Pc.passed s.pc g' p
    have := hi.count
    rw [hpc]
    omega

/-- Whatever the others do, `g` waits on and the ring stands still. -/
theorem waitInv_move {z : Size} {a : Act ι} (hi : WaitInv s₀ g c k s) (ha : a ≠ .step g)
    (hm : Move z s a s') : WaitInv s₀ g c k s' := by
  have hl := lockInv_move hi.lock hm
  have hentered := hi.entered
  cases hm with
  | write w h => exact ⟨hl, hi.waits, hi.head, hi.executed, hi.unserved, hi.count⟩
  | setFlags v => exact ⟨hl, hi.waits, hi.head, hi.executed, hi.unserved, hi.count⟩
  | fail h =>
    -- its syscall is over
    have hwaits := hi.waits
    rw [← hi.alone (by rw [h]; rfl), h] at hwaits
    cases hwaits
  | syscall h => exact absurd (congrArg Act.step (hi.alone (by rw [h]; rfl))) ha
  | unlock h => exact absurd (congrArg Act.step (hi.alone (by rw [h]; rfl))) ha
  | pass h he => exact absurd he hentered
  | lockCas h he => exact absurd he hentered
  | handOut h =>
    exact hi.other hl (by rw [h]; rfl) rfl rfl rfl (fun _ => by rw [h]; rfl) (by rw [h]; rfl)
  | _ =>
    refine hi.other hl (by simp [*, Pc.inside]) rfl rfl rfl ?_ ?_
    · simp [*, Pc.served]
    · simp [*, Pc.passed, storeArray, State.setEntry]

end iouring.submit_queue
