-- The mappings of a ring from `New` to `Stop`. `Stop` gives back the mapping of the
-- submit queue; nothing gives back that of the entries, and what `closeCq` unmaps
-- is not the completion queue. A `New` that fails gives nothing back.
import Iouring.Machine
import Iouring.MmapRing

open machine
open iouring.mmap_ring

namespace iouring.mappings

/-! ## What the kernel has done -/

/-- The descriptors and mappings that the package asked for, and those it gave back. -/
structure World where
  opened : List UInt64
  closed : List UInt64
  mapped : List Region
  unmapped : List Region
  deriving DecidableEq, Repr

def World.munmap (w : World) (r : Region) : World := { w with unmapped := w.unmapped ++ [r] }

/-- Every mapping was unmapped once, with its address and length, and nothing else was. -/
def World.Balanced (w : World) : Prop := w.unmapped.Perm w.mapped

/-! ## New -/

/-- `Ring`, with the fields that `Stop` reads. A queue is `none` when its pointer is nil;
of the submitter only matters whether there is one. -/
structure Ring where
  fd : UInt64
  p : Params
  sq : Option SubmitQueue
  cq : Option CompletionQueue
  submitter : Bool
  deriving DecidableEq, Repr

/-- The options with the answers that they get. Four of them set a field that `Stop` does
not read. An option that the caller wrote can only succeed or fail, since the fields of
`Ring` are not exported. -/
inductive RingOption where
  | debug
  | fileRegistry
  | id
  | enterErrHandler
  | eventFd (created registered : Ret)
  | deadline
  | custom (err : Option UInt64)
  deriving DecidableEq, Repr

/-- The error of an option. That of the registration is compared as an unsigned number. -/
def RingOption.error : RingOption → Option UInt64
  | .eventFd created registered =>
    if created.errno ≠ 0 then some created.errno
    else if registered.errno < 0 then some registered.errno
    else none
  | .custom err => err
  | _ => none

def RingOption.set (r : Ring) : RingOption → Ring
  | .deadline => { r with submitter := true }
  | _ => r

/-- The loop over the options in `New`. -/
def applyOptions (r : Ring) : List RingOption → Except Error Ring
  | [] => .ok r
  | opt :: opts =>
    match opt.error with
    | some e => .error (.errno e)
    | none => applyOptions (opt.set r) opts

/-- `New`, with the answer of `Setup` and the parameters as the kernel has left them. -/
def new (setup : Ret) (p : Params) (k : Mmaps) (opts : List RingOption) :
    World × Except Error Ring :=
  if setup.errno ≠ 0 then (⟨[], [], [], []⟩, .error (.errno setup.errno))
  else
    let (regions, queues) := mmapRing p k .zero
    let w : World := ⟨[setup.r1], [], regions, []⟩
    match queues with
    | .error e => (w, .error e)
    | .ok (sq, cq) => (w, applyOptions ⟨setup.r1, p, some sq, some cq, false⟩ opts)

/-! ## Stop -/

structure State where
  ring : Ring
  world : World
  deriving DecidableEq, Repr

/-- The answers that a `Stop` gets, and whether the submitter takes its signal. -/
structure StopAnswers where
  sq : UInt64
  cq : UInt64
  done : Bool
  close : UInt64
  deriving DecidableEq, Repr

/-- How `Stop` ends. Without anyone to take the signal for the submitter it never does. -/
inductive StopEnd where
  | ok
  | error (e : Error)
  | blocked
  deriving DecidableEq, Repr

def closeSq (s : State) (errno : UInt64) : Option Error × State :=
  match s.ring.sq with
  | none => (none, s)
  | some sq =>
    if errno ≠ 0 then (some (.wrap "failed to munmap sq ring" errno), s)
    else (none, ⟨{ s.ring with sq := none }, s.world.munmap ⟨sq.ptr, sq.size.toUInt64⟩⟩)

def closeCq (s : State) (errno : UInt64) : Option Error × State :=
  match s.ring.cq with
  | none => (none, s)
  | some cq =>
    if errno ≠ 0 then (some (.wrap "failed to munmap cq ring" errno), s)
    else (none, ⟨{ s.ring with cq := none }, s.world.munmap ⟨cq.ptr, cq.size.toUInt64⟩⟩)

/-- The end of `Stop`: the submitter and the descriptor. -/
def closeFd (s : State) (a : StopAnswers) : StopEnd × State :=
  if s.ring.submitter && !a.done then (.blocked, s)
  else if a.close ≠ 0 then (.error (.errno a.close), s)
  else (.ok, { s with world := { s.world with closed := s.world.closed ++ [s.ring.fd] } })

/-- `Ring.Stop`. -/
def stop (s : State) (a : StopAnswers) : StopEnd × State :=
  match closeSq s a.sq with
  | (some e, s1) => (.error e, s1)
  | (none, s1) =>
    if singleMmap s1.ring.p then closeFd s1 a
    else
      match closeCq s1 a.cq with
      | (some e, s2) => (.error e, s2)
      | (none, s2) => closeFd s2 a

/-- The caller may go on after any end of a `Stop`. -/
def step (s : State) (a : StopAnswers) : Option State := some (stop s a).2

/-! ## The law -/

/-- After a `New` that succeeds, whatever Stops came before, a `Stop` that returns nil
leaves the mappings balanced; a `New` that fails leaves no mapping and no descriptor. -/
def MappingsBalanced (setup : Ret) (p : Params) (k : Mmaps) (opts : List RingOption) : Prop :=
  match new setup p k opts with
  | (w, .ok r) =>
    ∀ s a s', Reachable step ⟨r, w⟩ s → stop s a = (.ok, s') → s'.world.Balanced
  | (w, .error _) => w.Balanced ∧ w.closed = w.opened

/-- What `closeCq` unmaps: from address zero on, as long as the completion queue. -/
def cqRange (p : Params) : Region := ⟨0, (sizes p).2.toUInt64⟩

/-- What `Stop` unmaps next to the submit queue. -/
def otherRanges (p : Params) : List Region := if singleMmap p then [] else [cqRange p]

/-- `Setup` fails, or nothing that `New` looks at fails and the other calls of `mmap`
have mapped nothing but what `Stop` unmaps. -/
def Released (setup : Ret) (p : Params) (k : Mmaps) (opts : List RingOption) : Prop :=
  setup.errno ≠ 0 ∨
    (k.sq.errno = 0 ∧ (∀ opt ∈ opts, opt.error = none) ∧ others p k = otherRanges p)

/-! ## The options -/

theorem applyOptions_ok_iff {opts : List RingOption} {r r' : Ring} :
    applyOptions r opts = .ok r' ↔
      (∀ opt ∈ opts, opt.error = none) ∧ r' = opts.foldl RingOption.set r := by
  induction opts generalizing r with
  | nil => simp [applyOptions, eq_comm]
  | cons opt opts ih =>
    unfold applyOptions
    cases herr : opt.error with
    | some e => simp [herr]
    | none => simp [herr, ih]

/-- The options leave alone what `Stop` unmaps and closes. -/
theorem foldl_set (opts : List RingOption) (r : Ring) :
    ∃ b, opts.foldl RingOption.set r = { r with submitter := b } := by
  induction opts generalizing r with
  | nil => exact ⟨r.submitter, rfl⟩
  | cons opt opts ih =>
    obtain ⟨b, hb⟩ := ih (opt.set r)
    refine ⟨b, ?_⟩
    rw [List.foldl_cons, hb]
    cases opt <;> rfl

/-! ## The Stops -/

/-- The range of the submit queue. -/
def sqRange (p : Params) (sqPtr : UInt64) : Region := ⟨sqPtr, (sizes p).1.toUInt64⟩

/-- A state that some Stops lead to: a queue whose pointer is nil has been unmapped, the
submit queue first, and nothing else has. -/
structure Stopped (p : Params) (sqPtr : UInt64) (mapped : List Region) (s : State) : Prop where
  params : s.ring.p = p
  mapped : s.world.mapped = mapped
  sq : ∀ sq, s.ring.sq = some sq → ⟨sq.ptr, sq.size.toUInt64⟩ = sqRange p sqPtr
  cq : ∀ cq, s.ring.cq = some cq → ⟨cq.ptr, cq.size.toUInt64⟩ = cqRange p
  inOrder : s.ring.sq ≠ none → s.ring.cq ≠ none
  single : singleMmap p = true → s.ring.cq ≠ none
  unmapped : s.world.unmapped =
    (if s.ring.sq = none then [sqRange p sqPtr] else []) ++
      (if s.ring.cq = none then [cqRange p] else [])

variable {p : Params} {sqPtr : UInt64} {mapped : List Region} {s s' : State}

theorem closeSq_stopped (h : Stopped p sqPtr mapped s) (errno : UInt64) :
    Stopped p sqPtr mapped (closeSq s errno).2 ∧
      ((closeSq s errno).1 = none → (closeSq s errno).2.ring.sq = none) := by
  unfold closeSq
  cases hsq : s.ring.sq with
  | none => exact ⟨h, fun _ => hsq⟩
  | some sq =>
    have hcq : s.ring.cq ≠ none := h.inOrder (by simp [hsq])
    by_cases herr : errno ≠ 0
    · simp only [if_pos herr]
      exact ⟨h, fun h => by cases h⟩
    · simp only [if_neg herr]
      refine ⟨⟨h.params, h.mapped, ?_, h.cq, ?_, h.single, ?_⟩, fun _ => trivial⟩
      · intro _ hnone
        cases hnone
      · intro hnone
        exact absurd rfl hnone
      · simp [World.munmap, h.unmapped, hsq, hcq, h.sq sq hsq]

theorem closeCq_stopped (h : Stopped p sqPtr mapped s) (hsingle : singleMmap p = false)
    (hsq : s.ring.sq = none) (errno : UInt64) :
    Stopped p sqPtr mapped (closeCq s errno).2 ∧ (closeCq s errno).2.ring.sq = none ∧
      ((closeCq s errno).1 = none → (closeCq s errno).2.ring.cq = none) := by
  unfold closeCq
  cases hcq : s.ring.cq with
  | none => exact ⟨h, hsq, fun _ => hcq⟩
  | some cq =>
    by_cases herr : errno ≠ 0
    · simp only [if_pos herr]
      exact ⟨h, hsq, fun h => by cases h⟩
    · simp only [if_neg herr]
      refine ⟨⟨h.params, h.mapped, h.sq, ?_, ?_, ?_, ?_⟩, hsq, fun _ => trivial⟩
      · intro _ hnone
        cases hnone
      · intro hsome
        exact absurd hsq hsome
      · intro hs
        rw [hsingle] at hs
        cases hs
      · simp [World.munmap, h.unmapped, hsq, hcq, h.cq cq hcq]

theorem closeFd_stopped (h : Stopped p sqPtr mapped s) (a : StopAnswers) :
    Stopped p sqPtr mapped (closeFd s a).2 ∧ (closeFd s a).2.ring = s.ring := by
  unfold closeFd
  split_ifs
  · exact ⟨h, rfl⟩
  · exact ⟨h, rfl⟩
  · exact ⟨⟨h.params, h.mapped, h.sq, h.cq, h.inOrder, h.single, h.unmapped⟩, rfl⟩

theorem stop_stopped (h : Stopped p sqPtr mapped s) (a : StopAnswers) :
    Stopped p sqPtr mapped (stop s a).2 ∧
      ((stop s a).1 = .ok → (stop s a).2.ring.sq = none ∧
        (singleMmap p = false → (stop s a).2.ring.cq = none)) := by
  have hsq := closeSq_stopped h a.sq
  rcases hq : closeSq s a.sq with ⟨_ | e, s1⟩
  · rw [hq] at hsq
    obtain ⟨h1, hnone⟩ := hsq
    have hsq1 : s1.ring.sq = none := hnone rfl
    have hp : s1.ring.p = p := h1.params
    cases hsingle : singleMmap p with
    | true =>
      have hstop : stop s a = closeFd s1 a := by simp [stop, hq, hp, hsingle]
      obtain ⟨h2, hring⟩ := closeFd_stopped h1 a
      rw [hstop]
      exact ⟨h2, fun _ => ⟨by rw [hring]; exact hsq1, fun hs => by cases hs⟩⟩
    | false =>
      have hcq := closeCq_stopped h1 hsingle hsq1 a.cq
      dsimp only at hcq
      rcases hc : closeCq s1 a.cq with ⟨_ | e, s2⟩
      · have hstop : stop s a = closeFd s2 a := by simp [stop, hq, hp, hsingle, hc]
        rw [hc] at hcq
        obtain ⟨h2, hsq2, hcq2⟩ := hcq
        obtain ⟨h3, hring⟩ := closeFd_stopped h2 a
        rw [hstop]
        exact ⟨h3, fun _ => ⟨by rw [hring]; exact hsq2, fun _ => by rw [hring]; exact hcq2 rfl⟩⟩
      · have hstop : stop s a = (.error e, s2) := by simp [stop, hq, hp, hsingle, hc]
        rw [hc] at hcq
        rw [hstop]
        exact ⟨hcq.1, fun hok => by cases hok⟩
  · have hstop : stop s a = (.error e, s1) := by simp [stop, hq]
    rw [hq] at hsq
    rw [hstop]
    exact ⟨hsq.1, fun hok => by cases hok⟩

/-- What has been unmapped when a `Stop` returns nil. -/
theorem unmapped_of_stop_ok (h : Stopped p sqPtr mapped s) {a : StopAnswers}
    (hok : stop s a = (.ok, s')) :
    s'.world.unmapped = sqRange p sqPtr :: otherRanges p ∧ s'.world.mapped = mapped := by
  have hstop := stop_stopped h a
  rw [hok] at hstop
  obtain ⟨hs', hends⟩ := hstop
  obtain ⟨hsq, hcq⟩ := hends rfl
  refine ⟨?_, hs'.mapped⟩
  rw [hs'.unmapped, if_pos hsq, List.singleton_append]
  unfold otherRanges
  cases hsingle : singleMmap p with
  | true => rw [if_neg (hs'.single hsingle)]; rfl
  | false => rw [if_pos (hcq hsingle)]; rfl

theorem closeSq_zero (s : State) : (closeSq s 0).1 = none := by
  unfold closeSq
  cases s.ring.sq <;> rfl

theorem closeCq_zero (s : State) : (closeCq s 0).1 = none := by
  unfold closeCq
  cases s.ring.cq <;> rfl

/-- A `Stop` to which every answer is good returns nil. -/
theorem stop_ok (s : State) : (stop s ⟨0, 0, true, 0⟩).1 = .ok := by
  have hsq := closeSq_zero s
  have hfd : ∀ s1 : State, (closeFd s1 ⟨0, 0, true, 0⟩).1 = .ok := by
    intro s1
    simp [closeFd]
  unfold stop
  generalize closeSq s 0 = closed at hsq ⊢
  obtain ⟨e, s1⟩ := closed
  subst hsq
  have hcq := closeCq_zero s1
  dsimp only
  generalize closeCq s1 0 = closed at hcq ⊢
  obtain ⟨e, s2⟩ := closed
  subst hcq
  split_ifs
  · exact hfd s1
  · exact hfd s2

/-! ## New and Stop -/

/-- The ring that `New` makes once `Setup` and the first `mmap` have succeeded, before
the options. -/
def freshRing (fd : UInt64) (p : Params) (k : Mmaps) : Ring :=
  ⟨fd, p, some (layoutSq p k.sq.r1 k.sqes.r1), some (layoutCq p (cqPtr p k) .zero), false⟩

/-- What the kernel has done by then. -/
def freshWorld (fd : UInt64) (p : Params) (k : Mmaps) : World :=
  ⟨[fd], [], sqRange p k.sq.r1 :: others p k, []⟩

theorem new_of_sq_mapped {setup : Ret} {k : Mmaps} (hsetup : setup.errno = 0)
    (hsq : k.sq.errno = 0) (opts : List RingOption) :
    new setup p k opts =
      (freshWorld setup.r1 p k, applyOptions (freshRing setup.r1 p k) opts) := by
  unfold new
  rw [if_neg (not_not_intro hsetup), mmapRing_of_sq_mapped hsq]
  rfl

theorem freshRing_stopped (fd : UInt64) (p : Params) (k : Mmaps) (opts : List RingOption) :
    Stopped p k.sq.r1 (sqRange p k.sq.r1 :: others p k)
      ⟨opts.foldl RingOption.set (freshRing fd p k), freshWorld fd p k⟩ := by
  obtain ⟨b, hb⟩ := foldl_set opts (freshRing fd p k)
  rw [hb]
  refine ⟨rfl, rfl, ?_, ?_, ?_, ?_, rfl⟩
  · rintro sq ⟨⟩
    rfl
  · rintro cq ⟨⟩
    rfl
  · intro _ hnone
    cases hnone
  · intro _ hnone
    cases hnone

/-- From a state with the invariant, all Stops that return nil leave the mappings
balanced exactly if the other mappings are the other ranges. -/
theorem stops_balanced_iff {k : Mmaps}
    (h : Stopped p sqPtr (sqRange p sqPtr :: others p k) s) :
    (∀ s1 a s', Reachable step s s1 → stop s1 a = (.ok, s') → s'.world.Balanced) ↔
      others p k = otherRanges p := by
  have hkeep : ∀ s a s', Stopped p sqPtr (sqRange p sqPtr :: others p k) s →
      step s a = some s' → Stopped p sqPtr (sqRange p sqPtr :: others p k) s' := by
    rintro s a s' hs ⟨⟩
    exact (stop_stopped hs a).1
  have hone : ∀ s1 a s', Reachable step s s1 → stop s1 a = (.ok, s') →
      (s'.world.Balanced ↔ (otherRanges p).Perm (others p k)) := by
    intro s1 a s' hreach hok
    obtain ⟨hun, hmap⟩ := unmapped_of_stop_ok (reachable_invariant hkeep h hreach) hok
    rw [World.Balanced, hun, hmap, List.perm_cons]
  have hperm : (otherRanges p).Perm (others p k) ↔ others p k = otherRanges p := by
    unfold otherRanges
    cases singleMmap p with
    | true => exact List.nil_perm
    | false => exact List.singleton_perm.trans eq_comm
  constructor
  · intro hall
    have hok : stop s ⟨0, 0, true, 0⟩ = (.ok, (stop s ⟨0, 0, true, 0⟩).2) :=
      Prod.ext (stop_ok s) rfl
    have hstart : Reachable step s s := ⟨[], rfl⟩
    exact hperm.mp ((hone s _ _ hstart hok).mp (hall s _ _ hstart hok))
  · intro heq s1 a s' hreach hok
    exact (hone s1 a s' hreach hok).mpr (hperm.mpr heq)

/-- A `New` that opened the ring and then fails gives it back in no case. -/
theorem opened_of_new_error {setup : Ret} {k : Mmaps} {opts : List RingOption} {w : World}
    {e : Error} (hsetup : setup.errno = 0) (hnew : new setup p k opts = (w, .error e)) :
    w.opened = [setup.r1] ∧ w.closed = [] := by
  by_cases hsq : k.sq.errno = 0
  · rw [new_of_sq_mapped hsetup hsq, Prod.mk.injEq] at hnew
    obtain ⟨rfl, -⟩ := hnew
    exact ⟨rfl, rfl⟩
  · unfold new at hnew
    rw [if_neg (not_not_intro hsetup), mmapRing_of_sq_failed hsq, Prod.mk.injEq] at hnew
    obtain ⟨rfl, -⟩ := hnew
    exact ⟨rfl, rfl⟩

/-- The mappings of a ring are balanced exactly if `Setup` fails, or nothing that `New`
looks at fails and the calls of `mmap` behind the first have mapped what `Stop` unmaps:
nothing with a single mapping, and otherwise one range at address zero. -/
theorem mappings_are_balanced_iff (setup : Ret) (p : Params) (k : Mmaps)
    (opts : List RingOption) : MappingsBalanced setup p k opts ↔ Released setup p k opts := by
  unfold MappingsBalanced Released
  by_cases hsetup : setup.errno = 0
  · rw [or_iff_right (not_not_intro hsetup)]
    rcases hnew : new setup p k opts with ⟨w, e | r⟩
    · -- the descriptor stays open
      obtain ⟨hopened, hclosed⟩ := opened_of_new_error hsetup hnew
      simp only [hopened, hclosed]
      constructor
      · rintro ⟨-, hfd⟩
        cases hfd
      · rintro ⟨hsq, hopts, -⟩
        rw [new_of_sq_mapped hsetup hsq, applyOptions_ok_iff.mpr ⟨hopts, rfl⟩] at hnew
        cases hnew
    · have hsq : k.sq.errno = 0 := by
        by_contra hsq
        unfold new at hnew
        rw [if_neg (not_not_intro hsetup), mmapRing_of_sq_failed hsq] at hnew
        cases hnew
      rw [new_of_sq_mapped hsetup hsq, Prod.mk.injEq, applyOptions_ok_iff] at hnew
      obtain ⟨rfl, hopts, rfl⟩ := hnew
      dsimp only
      rw [stops_balanced_iff (freshRing_stopped setup.r1 p k opts)]
      exact ⟨fun heq => ⟨hsq, hopts, heq⟩, fun h => h.2.2⟩
  · have hnew : new setup p k opts = (⟨[], [], [], []⟩, .error (.errno setup.errno)) :=
      if_pos hsetup
    rw [hnew]
    exact ⟨fun _ => Or.inl hsetup, fun _ => ⟨List.Perm.nil, rfl⟩⟩

/-- Every answer is good, and still `Stop` leaves two of the three mappings and unmaps a
range at address zero. -/
theorem a_stopped_ring_keeps_two_mappings :
    ¬ MappingsBalanced ⟨3, 0⟩ smallRing threeMaps [] ∧
      ∃ w r s', new ⟨3, 0⟩ smallRing threeMaps [] = (w, .ok r) ∧
        stop ⟨r, w⟩ ⟨0, 0, true, 0⟩ = (.ok, s') ∧
        s'.world.mapped = [⟨0x10000, 464⟩, ⟨0x20000, 256⟩, ⟨0x30000, 448⟩] ∧
        s'.world.unmapped = [⟨0x10000, 464⟩, ⟨0, 448⟩] := by
  refine ⟨fun h => ?_, _, _, _, rfl, rfl, rfl, rfl⟩
  have hbalanced := h _ ⟨0, 0, true, 0⟩ _ ⟨[], rfl⟩ rfl
  exact absurd hbalanced (by unfold World.Balanced; decide)

end iouring.mappings
