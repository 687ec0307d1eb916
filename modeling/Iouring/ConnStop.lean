-- The stop channel of a `ringConn`. Every call of `Read` and `Write` puts a token
-- into it, `Close` puts one, and its `run` goroutine takes one out, puts one in
-- itself and is gone.
import Iouring.Machine

open machine

namespace iouring.ring_conn

/-! ## The connection -/

/-- The buffer of `stop`, from `make(chan struct{}, 2)` in `onListen`. -/
def stopCap : Nat := 2

/-- Where a goroutine stands in `Read`, `Write` or `Close`. A submission is one step: what
the ring does for it plays no part here. -/
inductive Call where
  | idle
  -- Read and Write, with the length of the buffer
  | rePoll (len : Nat)
  | rePollEnter (len : Nat)
  | submit (len : Nat)
  -- getCqe
  | enter
  | send
  | entryBy
  -- Close
  | closeSend
  | closeFd
  deriving DecidableEq, Repr

/-- Where `ringConn.run` stands. -/
inductive RunPc where
  | recv
  | submit
  | enter
  | send
  | entryBy
  | returned
  deriving DecidableEq, Repr

/-- A connection with its callers. How many sends on `stop` have been reached so far
is kept for the laws only. -/
structure State (ι : Type) where
  calls : ι → Call
  run : RunPc
  stop : Nat
  reached : Nat

/-- A connection that `onListen` has just made. -/
def start (ι : Type) : State ι := ⟨fun _ => .idle, .recv, 0, 0⟩

variable {ι : Type} [DecidableEq ι]

def State.goto (s : State ι) (g : ι) (c : Call) : State ι :=
  { s with calls := Function.update s.calls g c }

/-- A goroutine comes to a send on `stop`. -/
def State.reach (s : State ι) : State ι := { s with reached := s.reached + 1 }

/-- The next step of a call. An empty buffer ends it with a panic at `&b[0]`, and
`EntryBy` ends it whatever it returns. -/
def callStep (s : State ι) (g : ι) : Option (State ι) :=
  match s.calls g with
  | .idle => none
  | .rePoll len => some (s.goto g (.rePollEnter len))
  -- rePoll does not look at the error of its Enter
  | .rePollEnter len => some (s.goto g (.submit len))
  | .submit len => some (s.goto g (if len = 0 then .idle else .enter))
  | .enter => some (s.goto g .send).reach
  | .send =>
    if s.stop < stopCap then some { s.goto g .entryBy with stop := s.stop + 1 } else none
  | .entryBy => some (s.goto g .idle)
  | .closeSend =>
    if s.stop < stopCap then some { s.goto g .closeFd with stop := s.stop + 1 } else none
  | .closeFd => some (s.goto g .idle)

/-- The next step of `ringConn.run`. -/
def runStep (s : State ι) : Option (State ι) :=
  match s.run with
  | .recv => if 0 < s.stop then some { s with stop := s.stop - 1, run := .submit } else none
  | .submit => some { s with run := .enter }
  | .enter => some { s with run := .send }.reach
  | .send => if s.stop < stopCap then some { s with stop := s.stop + 1, run := .entryBy } else none
  | .entryBy => some { s with run := .returned }
  | .returned => none

/-- What can happen next: a goroutine calls `Read`, `Write` or `Close`, takes the next
step of its call, or the enter of its `getCqe` fails; `run` takes its next step, or its
enter fails. -/
inductive Act (ι : Type) where
  | read (g : ι) (len : Nat)
  | write (g : ι) (len : Nat)
  | close (g : ι)
  | step (g : ι)
  | enterFails (g : ι)
  | run
  | runEnterFails
  deriving DecidableEq, Repr

def step (s : State ι) : Act ι → Option (State ι)
  | .read g len => if s.calls g = .idle then some (s.goto g (.rePoll len)) else none
  | .write g len => if s.calls g = .idle then some (s.goto g (.submit len)) else none
  | .close g => if s.calls g = .idle then some (s.goto g .closeSend).reach else none
  | .step g => callStep s g
  | .enterFails g => if s.calls g = .enter then some (s.goto g .idle) else none
  | .run => runStep s
  | .runEnterFails => if s.run = .enter then some { s with run := .returned } else none

/-! ## One step -/

/-- The goroutine stands at a send on `stop`. -/
def Call.sends : Call → Bool
  | .send | .closeSend => true
  | _ => false

/-- The step brings a goroutine to a send on `stop`. -/
def reachesSend (s : State ι) : Act ι → Bool
  | .close _ => true
  | .step g => s.calls g = .enter
  | .run => s.run = .enter
  | _ => false

/-- The steps of a connection, with whether they bring a goroutine to a send. Those that
leave the channel alone are one case for the callers and one for `run`. -/
inductive Move (s : State ι) : Bool → State ι → Prop
  | other (g : ι) (c : Call) (hold : (s.calls g).sends = false) (hnew : c.sends = false) :
      Move s false (s.goto g c)
  | reach (g : ι) (c : Call) (hold : (s.calls g).sends = false) (hnew : c.sends = true) :
      Move s true (s.goto g c).reach
  | send (g : ι) (c : Call) (hold : (s.calls g).sends = true) (hnew : c.sends = false)
      (hroom : s.stop < stopCap) : Move s false { s.goto g c with stop := s.stop + 1 }
  | runRecv (h : s.run = .recv) (hstop : 0 < s.stop) :
      Move s false { s with stop := s.stop - 1, run := .submit }
  | runOther (p : RunPc) (hold : s.run ≠ .recv ∧ s.run ≠ .send) (hnew : p ≠ .recv ∧ p ≠ .send) :
      Move s false { s with run := p }
  | runReach (h : s.run = .enter) : Move s true { s with run := .send }.reach
  | runSend (h : s.run = .send) (hroom : s.stop < stopCap) :
      Move s false { s with stop := s.stop + 1, run := .entryBy }

theorem callStep_move {s s' : State ι} {g : ι} (h : callStep s g = some s') :
    Move s (s.calls g = .enter) s' := by
  unfold callStep at h
  cases hc : s.calls g with
  | idle => simp [hc] at h
  | rePoll len | rePollEnter len | entryBy | closeFd =>
    simp only [hc, Option.some.injEq] at h
    subst h
    refine .other g _ ?_ ?_
    · rw [hc]; rfl
    · rfl
  | submit len =>
    simp only [hc, Option.some.injEq] at h
    subst h
    refine .other g _ ?_ ?_
    · rw [hc]; rfl
    · by_cases hlen : len = 0
      · rw [if_pos hlen]; rfl
      · rw [if_neg hlen]; rfl
  | enter =>
    simp only [hc, Option.some.injEq] at h
    subst h
    refine .reach g .send ?_ rfl
    rw [hc]; rfl
  | send | closeSend =>
    simp only [hc, Option.ite_none_right_eq_some, Option.some.injEq] at h
    obtain ⟨hroom, rfl⟩ := h
    refine .send g _ ?_ ?_ hroom
    · rw [hc]; rfl
    · rfl

theorem runStep_move {s s' : State ι} (h : runStep s = some s') :
    Move s (s.run = .enter) s' := by
  unfold runStep at h
  cases hr : s.run with
  | recv =>
    simp only [hr, Option.ite_none_right_eq_some, Option.some.injEq] at h
    obtain ⟨hstop, rfl⟩ := h
    exact .runRecv hr hstop
  | submit | entryBy =>
    simp only [hr, Option.some.injEq] at h
    subst h
    refine .runOther _ ?_ (by decide)
    rw [hr]; decide
  | enter =>
    simp only [hr, Option.some.injEq] at h
    subst h
    exact .runReach hr
  | send =>
    simp only [hr, Option.ite_none_right_eq_some, Option.some.injEq] at h
    obtain ⟨hroom, rfl⟩ := h
    exact .runSend hr hroom
  | returned => simp [hr] at h

theorem step_move {s s' : State ι} {a : Act ι} (h : step s a = some s') :
    Move s (reachesSend s a) s' := by
  cases a with
  | read g len | write g len =>
    simp only [step, Option.ite_none_right_eq_some, Option.some.injEq] at h
    obtain ⟨hidle, rfl⟩ := h
    refine .other g _ ?_ rfl
    rw [hidle]; rfl
  | close g =>
    simp only [step, Option.ite_none_right_eq_some, Option.some.injEq] at h
    obtain ⟨hidle, rfl⟩ := h
    refine .reach g .closeSend ?_ rfl
    rw [hidle]; rfl
  | step g => exact callStep_move h
  | enterFails g =>
    simp only [step, Option.ite_none_right_eq_some, Option.some.injEq] at h
    obtain ⟨henter, rfl⟩ := h
    refine .other g _ ?_ rfl
    rw [henter]; rfl
  | run => exact runStep_move h
  | runEnterFails =>
    simp only [step, Option.ite_none_right_eq_some, Option.some.injEq] at h
    obtain ⟨henter, rfl⟩ := h
    refine .runOther _ ?_ (by decide)
    rw [henter]; decide

/-! ## The law -/

/-- Some goroutine stands at a send on `stop`. -/
def Pending (s : State ι) : Prop := (∃ g, (s.calls g).sends = true) ∨ s.run = .send

/-- A pending send finds room in the buffer, or `run` can still receive. -/
def CanSend (s : State ι) : Prop := Pending s → s.stop < stopCap ∨ s.run = .recv

/-- A goroutine comes to a send only while fewer than three sends have been reached: two
fit into the buffer, and one token is received. -/
def FewSends (s : State ι) (a : Act ι) : Prop := reachesSend s a = true → s.reached < stopCap + 1

instance (s : State ι) (a : Act ι) : Decidable (FewSends s a) :=
  inferInstanceAs (Decidable (reachesSend s a = true → s.reached < stopCap + 1))

/-! ## The balance of the channel -/

/-- The tokens `run` has received. -/
def RunPc.received : RunPc → Nat
  | .recv => 0
  | _ => 1

/-- The sends `run` stands at. -/
def RunPc.sends : RunPc → Nat
  | .send => 1
  | _ => 0

/-- A send that has been reached is in the buffer, was received, or is pending at one of
the goroutines in `callers` or at `run`. -/
structure Balance (callers : Finset ι) (s : State ι) : Prop where
  pending : ∀ g, g ∈ callers ↔ (s.calls g).sends = true
  total : s.reached = s.stop + s.run.received + callers.card + s.run.sends
  few : s.reached ≤ stopCap + 1

omit [DecidableEq ι] in
theorem balance_start : Balance ∅ (start ι) :=
  ⟨fun g => by simp [start, Call.sends], rfl, Nat.zero_le _⟩

theorem balance_step {callers : Finset ι} {s s' : State ι} {a : Act ι} (hb : Balance callers s)
    (hok : FewSends s a) (h : step s a = some s') : ∃ callers', Balance callers' s' := by
  have hmove := step_move h
  unfold FewSends at hok
  obtain ⟨hpend, htotal, hfew⟩ := hb
  generalize reachesSend s a = reaches at hok hmove
  cases hmove with
  | other g c hold hnew =>
    refine ⟨callers, fun g' => ?_, htotal, hfew⟩
    rw [hpend, State.goto, update_same (hnew.trans hold.symm)]
  | reach g c hold hnew =>
    have hnot : g ∉ callers := by rw [hpend, hold]; decide
    refine ⟨insert g callers, fun g' => ?_, ?_, hok rfl⟩
    · rw [Finset.mem_insert, hpend]
      by_cases hg : g' = g
      · simp [State.reach, State.goto, hg, hnew]
      · simp [State.reach, State.goto, hg]
    · rw [Finset.card_insert_of_notMem hnot]
      simp only [State.reach, State.goto]
      omega
  | send g c hold hnew hroom =>
    have hmem : g ∈ callers := (hpend g).mpr hold
    refine ⟨callers.erase g, fun g' => ?_, ?_, hfew⟩
    · rw [Finset.mem_erase, hpend]
      by_cases hg : g' = g
      · simp [State.goto, hg, hnew]
      · simp [State.goto, hg]
    · have hcard := Finset.card_erase_add_one hmem
      simp only [State.goto]
      omega
  | runRecv hr hstop =>
    refine ⟨callers, hpend, ?_, hfew⟩
    simp only [hr, RunPc.received, RunPc.sends] at htotal ⊢
    omega
  | runOther p hold hnew =>
    have hsame : p.received = s.run.received ∧ p.sends = s.run.sends := by
      revert hold hnew
      generalize s.run = q
      cases p <;> cases q <;> decide
    refine ⟨callers, hpend, ?_, hfew⟩
    rw [hsame.1, hsame.2]
    exact htotal
  | runReach hr =>
    refine ⟨callers, hpend, ?_, hok rfl⟩
    simp only [hr, State.reach, RunPc.received, RunPc.sends] at htotal ⊢
    omega
  | runSend hr hroom =>
    refine ⟨callers, hpend, ?_, hfew⟩
    simp only [hr, RunPc.received, RunPc.sends] at htotal ⊢
    omega

omit [DecidableEq ι] in
/-- With at most three sends reached, a pending one leaves at most two for the buffer and
for `run`. -/
theorem Balance.canSend {callers : Finset ι} {s : State ι} (hb : Balance callers s) :
    CanSend s := by
  intro hpending
  have hone : 1 ≤ callers.card + s.run.sends := by
    rcases hpending with ⟨g, hg⟩ | hrun
    · have := Finset.card_pos.mpr ⟨g, (hb.pending g).mpr hg⟩
      omega
    · rw [hrun]
      exact Nat.le_add_left 1 _
  have htotal := hb.total
  have hfew := hb.few
  by_cases hr : s.run = .recv
  · exact Or.inr hr
  · have hreceived : s.run.received = 1 := by
      revert hr
      cases s.run <;> simp [RunPc.received]
    left
    omega

/-- A connection on which at most three sends are reached never wedges. -/
theorem three_sends_never_wedge (as : List (Act ι)) (h : Along step FewSends (start ι) as) :
    Always step CanSend (start ι) as := by
  have hstep : ∀ (s : State ι) a s', (∃ callers, Balance callers s) → FewSends s a →
      step s a = some s' → ∃ callers, Balance callers s' := by
    rintro s a s' ⟨callers, hb⟩ hok hs
    exact balance_step hb hok hs
  have hsend : ∀ s : State ι, (∃ callers, Balance callers s) → CanSend s := by
    rintro s ⟨callers, hb⟩
    exact hb.canSend
  exact Along.always hstep hsend ⟨∅, balance_start⟩ h

/-- A `Read` and a `Write` of two goroutines, `run` behind the first of them, and no
`Close`: the tokens of all three go in. -/
def readAndWrite : List (Act Bool) :=
  [.read true 8, .step true, .step true, .step true, .step true, .step true, .run, .run,
    .write false 4, .step false, .step false, .run, .step false, .run, .step true, .step false,
    .run]

theorem a_read_and_a_write_never_wedge :
    Along step FewSends (start Bool) readAndWrite ∧
      Always step CanSend (start Bool) readAndWrite ∧
      (run step (start Bool) readAndWrite).map (fun s => (s.stop, s.run)) =
        some (2, .returned) := by
  have h : Along step FewSends (start Bool) readAndWrite := by decide
  exact ⟨h, three_sends_never_wedge readAndWrite h, by decide⟩

/-! ## A wedged call -/

/-- The buffer is full, `run` has received its token, and `g` stands at a send. -/
structure Wedged (g : ι) (c : Call) (s : State ι) : Prop where
  call : s.calls g = c
  sends : c.sends = true
  full : s.stop = stopCap
  received : s.run ≠ .recv

/-- No step frees a wedged call: a send finds no room, and nobody receives. -/
theorem wedged_step {g : ι} {c : Call} {s s' : State ι} {a : Act ι} (hw : Wedged g c s)
    (h : step s a = some s') : Wedged g c s' := by
  have hmove := step_move h
  obtain ⟨hcall, hsends, hfull, hrecv⟩ := hw
  have hstay : ∀ {g' : ι} {c' : Call}, (s.calls g').sends = false →
      Function.update s.calls g' c' g = c := by
    intro g' c' hold
    have hne : g ≠ g' := by
      rintro rfl
      rw [hcall, hsends] at hold
      cases hold
    rw [Function.update_of_ne hne, hcall]
  generalize reachesSend s a = reaches at hmove
  cases hmove with
  | other g' c' hold hnew => exact ⟨hstay hold, hsends, hfull, hrecv⟩
  | reach g' c' hold hnew => exact ⟨hstay hold, hsends, hfull, hrecv⟩
  | send g' c' hold hnew hroom => omega
  | runRecv hr hstop => exact absurd hr hrecv
  | runOther p hold hnew => exact ⟨hcall, hsends, hfull, hnew.1⟩
  | runReach hr => exact ⟨hcall, hsends, hfull, by simp [State.reach]⟩
  | runSend hr hroom => omega

/-- A wedged call never takes another step. -/
theorem wedged_forever {g : ι} {c : Call} {s s' : State ι} (hw : Wedged g c s)
    (hr : Reachable step s s') : s'.calls g = c :=
  (reachable_invariant (fun _ _ _ => wedged_step) hw hr).call

/-- One `Read` that returns, with `run` idle. -/
def readActs : List (Act Unit) :=
  [.read () 8, .step (), .step (), .step (), .step (), .step (), .step ()]

/-- Three `Read` calls of one goroutine, one after the other, and `run` between the first
two. The third one is at its send. -/
def threeReads : List (Act Unit) :=
  readActs ++ [Act.run, .run, .run, .run, .run] ++ readActs ++
    [Act.read () 8, .step (), .step (), .step (), .step ()]

/-- The third `Read` of a connection blocks at its send and never takes another step. -/
theorem the_third_read_blocks_forever :
    ∃ s, run step (start Unit) threeReads = some s ∧ ¬ CanSend s ∧
      ∀ s', Reachable step s s' → s'.calls () = .send := by
  refine ⟨_, rfl, ?_, ?_⟩
  · intro h
    rcases h (Or.inl ⟨(), rfl⟩) with hroom | hrecv
    · exact absurd hroom (by decide)
    · cases hrecv
  · intro s' hr
    refine wedged_forever ⟨rfl, rfl, rfl, ?_⟩ hr
    decide

end iouring.ring_conn
