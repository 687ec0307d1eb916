-- What `Read` and `Write` of connections return. The calls of any number of goroutines on any
-- number of connections share one ring with the listener that has made them: each submits its
-- entry under a number of its own, waits in `Enter`, looks its completion up with `EntryBy`,
-- which takes no lock, and then reads `Res` through the pointer that it got, which points into
-- the queue. What the entries hold is in `PrepareCalls`, the stop channel by itself in `ConnStop`.
import Iouring.ConnStop
import Iouring.ResultPaths

open counter machine
open iouring.completion_queue (CompletionEntry CompletionQueue)
open iouring.entry_by (Marked Scan entryBy entryLoop)
open iouring.listener (CqSeenFlag)
open iouring.result_paths (Returned connFound)
open iouring.ring_conn (stopCap)

namespace iouring.conn_calls

/-! ## The calls -/

/-- A loop of `EntryBy`: which one it is, how many turns are left, the slot, and what it
keeps. -/
structure Loop where
  second : Bool
  turns : Nat
  i : Nat
  scan : Scan
  deriving DecidableEq, Repr

/-- Where a goroutine stands: a caller of `Read`, `Write` or `Close`, or the goroutine of
`run` of a connection. -/
inductive Pc (κ : Type) where
  | idle
  -- Read and Write, with the length of the buffer
  | rePoll (c : κ) (len : Nat)
  | rePollEnter (c : κ) (len : Nat)
  | submit (c : κ) (len : Nat)
  -- run, with its token
  | pollRemove (c : κ)
  -- getCqe
  | enter (c : κ) (reqID : UInt64)
  | send (c : κ) (reqID : UInt64)
  -- EntryBy
  | loadHead (reqID : UInt64)
  | loadTail (reqID : UInt64) (head : UInt32)
  | look (reqID : UInt64) (l : Loop)
  | reload (reqID : UInt64)
  | mark (reqID : UInt64) (slot seenIdx : Nat)
  | storeHead (reqID : UInt64) (slot seenIdx : Nat)
  -- getCqe, with the pointer that EntryBy has returned
  | readRes (reqID : UInt64) (slot : Nat)
  -- Close
  | closeSend (c : κ)
  | closeFd
  deriving DecidableEq, Repr

/-- What `getCqe` returns: the error of `Enter`, `ErrEntryNotFound`, or what it makes of `Res`. -/
inductive Answer where
  | enterFails
  | notFound
  | found (r : Returned)
  deriving DecidableEq, Repr

/-- The completion queue, the last number that `ID` has given, the numbers of the entries that
have been submitted, and the user data of those that others have submitted without a number of
`ID`; the goroutines; for each connection the tokens in its stop channel, and whether its `run`
waits for one. The completions of the entries with a number, and what `getCqe` has returned are
kept for the laws only. -/
structure State (ι κ : Type) where
  cq : CompletionQueue
  idx : UInt64
  out : List UInt64
  foreign : List UInt64
  pc : ι → Pc κ
  stop : κ → Nat
  running : κ → Bool
  posted : List CompletionEntry
  answers : List (UInt64 × Answer)

/-- A new ring. -/
def init (ι κ : Type) (idx : UInt64) : State ι κ :=
  ⟨⟨0, 0, fun _ => .zero⟩, idx, [], [], fun _ => .idle, fun _ => 0, fun _ => true, [], []⟩

/-- What can happen next: a goroutine calls `Read`, `Write` or `Close`, the `run` of a connection
takes its token, a goroutine takes the next step of its call, or its `Enter` fails; somebody else
submits an entry with a number of `ID`, or with user data of its own as the listener does, or
moves `Head`; the kernel completes the `i`-th of the entries, of either kind. It may do so more
than once, since `Array` may name a slot twice. -/
inductive Act (ι κ : Type) where
  | read (g : ι) (c : κ) (len : Nat)
  | write (g : ι) (c : κ) (len : Nat)
  | close (g : ι) (c : κ)
  | run (g : ι) (c : κ)
  | step (g : ι)
  | enterFails (g : ι)
  | other
  | foreign (userData : UInt64)
  | moveHead (head : UInt32)
  | post (i : Nat) (res : Int32) (flags : UInt32)
  | postForeign (i : Nat) (res : Int32) (flags : UInt32)
  deriving DecidableEq, Repr

variable {ι κ : Type}

/-- An entry is submitted under the next number. -/
def State.draw (s : State ι κ) : State ι κ :=
  { s with idx := s.idx + 1, out := s.out ++ [s.idx + 1] }

section Steps

variable [DecidableEq ι] [DecidableEq κ]

def State.goto (s : State ι κ) (g : ι) (p : Pc κ) : State ι κ :=
  { s with pc := Function.update s.pc g p }

/-- `getCqe` returns. -/
def State.ret (s : State ι κ) (g : ι) (reqID : UInt64) (a : Answer) : State ι κ :=
  { s.goto g .idle with answers := s.answers ++ [(reqID, a)] }

/-- A token is put into a stop channel. -/
def State.token (s : State ι κ) (c : κ) : Option (State ι κ) :=
  if s.stop c < stopCap then some { s with stop := Function.update s.stop c (s.stop c + 1) }
  else none

/-- `c.Entries[i].Flags |= CqSeenFlag` -/
def setSeen (cq : CompletionQueue) (i : Nat) : CompletionQueue :=
  let cqe := cq.entries i
  { cq with
    entries := Function.update cq.entries i { cqe with flags := cqe.flags ||| CqSeenFlag } }

/-- The next step of a call. -/
def callStep (z : Size) (size : UInt32) (s : State ι κ) (g : ι) : Option (State ι κ) :=
  match s.pc g with
  | .idle => none
  | .rePoll c len => some (s.draw.goto g (.rePollEnter c len))
  -- rePoll does not look at the error of its Enter
  | .rePollEnter c len => some (s.goto g (.submit c len))
  -- an empty buffer ends the call with a panic at &b[0]
  | .submit c len =>
    if len = 0 then some (s.goto g .idle) else some (s.draw.goto g (.enter c (s.idx + 1)))
  | .pollRemove c => some (s.draw.goto g (.enter c (s.idx + 1)))
  | .enter c reqID => some (s.goto g (.send c reqID))
  | .send c reqID => (s.token c).map fun s => s.goto g (.loadHead reqID)
  | .loadHead reqID => some (s.goto g (.loadTail reqID s.cq.head))
  | .loadTail reqID head =>
    let first := (head &&& z.mask).toNat
    if first = (s.cq.tail &&& z.mask).toNat then some (s.ret g reqID .notFound)
    else some (s.goto g (.look reqID ⟨false, z.slots - first, first, .start first⟩))
  | .look reqID l =>
    match l.turns with
    | 0 => if l.second then some (s.ret g reqID .notFound) else some (s.goto g (.reload reqID))
    | turns + 1 =>
      let scan := l.scan.turn (Marked s.cq.entries l.i) l.i
      if (s.cq.entries l.i).userData = reqID then some (s.goto g (.mark reqID l.i scan.seenIdx))
      else some (s.goto g (.look reqID ⟨l.second, turns, l.i + 1, scan⟩))
  | .reload reqID =>
    some (s.goto g (.look reqID ⟨true, (s.cq.tail &&& z.mask).toNat + 1, 0, .start 0⟩))
  | .mark reqID i seenIdx =>
    some ({ s with cq := setSeen s.cq i }.goto g (.storeHead reqID i seenIdx))
  | .storeHead reqID i seenIdx =>
    let head := if UInt32.ofNat seenIdx = size then 0 else UInt32.ofNat seenIdx
    some ({ s with cq := { s.cq with head := head } }.goto g (.readRes reqID i))
  | .readRes reqID i => some (s.ret g reqID (.found (connFound (s.cq.entries i))))
  | .closeSend c => (s.token c).map fun s => s.goto g .closeFd
  | .closeFd => some (s.goto g .idle)

/-- A goroutine that stands idle starts a call. -/
def State.call (s : State ι κ) (g : ι) (p : Pc κ) : Option (State ι κ) :=
  if s.pc g = .idle then some (s.goto g p) else none

def step (z : Size) (size : UInt32) (s : State ι κ) : Act ι κ → Option (State ι κ)
  | .read g c len => s.call g (.rePoll c len)
  | .write g c len => s.call g (.submit c len)
  | .close g c => s.call g (.closeSend c)
  | .run g c =>
    if s.running c ∧ 0 < s.stop c then
      { s with
        running := Function.update s.running c false
        stop := Function.update s.stop c (s.stop c - 1) }.call g (.pollRemove c)
    else none
  | .step g => callStep z size s g
  | .enterFails g =>
    match s.pc g with
    | .enter _ reqID => some (s.ret g reqID .enterFails)
    | _ => none
  | .other => some s.draw
  | .foreign userData => some { s with foreign := s.foreign ++ [userData] }
  | .moveHead head => some { s with cq := { s.cq with head := head } }
  | .post i res flags =>
    (s.out[i]?).bind fun id =>
      (s.cq.publish z ⟨id, res, flags⟩).map fun cq =>
        { s with cq := cq, posted := s.posted ++ [⟨id, res, flags⟩] }
  | .postForeign i res flags =>
    (s.foreign[i]?).bind fun userData =>
      (s.cq.publish z ⟨userData, res, flags⟩).map fun cq => { s with cq := cq }

end Steps

/-! ## EntryBy without anybody else -/

section EntryBy

variable [DecidableEq ι] [DecidableEq κ] {z : Size} {size : UInt32} {s : State ι κ} {g : ι}
  {reqID : UInt64}

omit [DecidableEq κ] in
theorem goto_goto (s : State ι κ) (g : ι) (p p' : Pc κ) : (s.goto g p).goto g p' = s.goto g p' := by
  simp [State.goto]

omit [DecidableEq κ] in
theorem goto_pc (s : State ι κ) (g : ι) (p : Pc κ) : (s.goto g p).pc g = p := by
  simp [State.goto]

/-- A loop runs to the entry that it finds, or to its end. -/
theorem look_follows {second : Bool} {turns i : Nat} {scan : Scan}
    (hpc : s.pc g = .look reqID ⟨second, turns, i, scan⟩) :
    (∀ j seenIdx, entryLoop s.cq.entries reqID turns i scan = some (j, seenIdx) →
      Follows (step z size) (.step g) s (s.goto g (.mark reqID j seenIdx))) ∧
    (entryLoop s.cq.entries reqID turns i scan = none → ∃ i' scan',
      Follows (step z size) (.step g) s (s.goto g (.look reqID ⟨second, 0, i', scan'⟩))) := by
  induction turns generalizing s i scan with
  | zero =>
    refine ⟨nofun, fun _ => ⟨i, scan, ?_⟩⟩
    rw [← hpc, State.goto, Function.update_eq_self]
  | succ turns ih =>
    rw [entryLoop]
    by_cases hid : (s.cq.entries i).userData = reqID
    · simp only [hid, if_true, Option.some.injEq, Prod.mk.injEq, reduceCtorEq, false_implies,
        and_true]
      rintro j seenIdx ⟨rfl, rfl⟩
      apply Relation.ReflTransGen.single
      simp [step, callStep, hpc, hid]
    · have hturn : step z size s (.step g) = some (s.goto g (.look reqID
          ⟨second, turns, i + 1, scan.turn (Marked s.cq.entries i) i⟩)) := by
        simp [step, callStep, hpc, hid]
      obtain ⟨hfound, hnone⟩ := @ih (s.goto g (.look reqID
        ⟨second, turns, i + 1, scan.turn (Marked s.cq.entries i) i⟩)) _ _ (goto_pc ..)
      simp only [goto_goto] at hfound hnone
      simp only [hid, if_false]
      refine ⟨fun j seenIdx hloop => .head hturn (hfound j seenIdx hloop), fun hloop => ?_⟩
      obtain ⟨i', scan', hfollows⟩ := hnone hloop
      exact ⟨i', scan', .head hturn hfollows⟩

/-- A call that has found an entry marks it and stores `Head`. -/
theorem mark_follows (s : State ι κ) (g : ι) (reqID : UInt64) (i seenIdx : Nat) :
    ∃ s', Follows (step z size) (.step g) (s.goto g (.mark reqID i seenIdx)) s' ∧
      s'.cq = entry_by.mark size s.cq i seenIdx ∧ s'.pc g = .readRes reqID i ∧
      s'.answers = s.answers := by
  have hmark : step z size (s.goto g (.mark reqID i seenIdx)) (.step g) =
      some ({ s with cq := setSeen s.cq i }.goto g (.storeHead reqID i seenIdx)) := by
    simp [step, callStep, State.goto]
  have hstore : step z size ({ s with cq := setSeen s.cq i }.goto g (.storeHead reqID i seenIdx))
      (.step g) = some ({ s with cq := entry_by.mark size s.cq i seenIdx }.goto g
        (.readRes reqID i)) := by
    simp [step, callStep, State.goto, setSeen, entry_by.mark]
  exact ⟨_, .head hmark (.single hstore), rfl, goto_pc .., rfl⟩

/-- The steps of an `EntryBy` that nobody disturbs are the call as one. -/
theorem entryBy_follows (hpc : s.pc g = .loadHead reqID) :
    ∃ s', Follows (step z size) (.step g) s s' ∧ s'.cq = (entryBy z size s.cq reqID).1 ∧
      match (entryBy z size s.cq reqID).2 with
      | some i => s'.pc g = .readRes reqID i ∧ s'.answers = s.answers
      | none => s'.pc g = .idle ∧ s'.answers = s.answers ++ [(reqID, .notFound)] := by
  generalize hfirst : (s.cq.head &&& z.mask).toNat = first
  generalize hlast : (s.cq.tail &&& z.mask).toNat = last
  have hload : step z size s (.step g) = some (s.goto g (.loadTail reqID s.cq.head)) := by
    simp [step, callStep, hpc]
  unfold entryBy entry_by.hit
  rw [hfirst, hlast]
  by_cases hempty : first = last
  · have hret : step z size (s.goto g (.loadTail reqID s.cq.head)) (.step g) =
        some (s.ret g reqID .notFound) := by
      simp [step, callStep, State.goto, State.ret, hfirst, hlast, hempty]
    rw [if_pos hempty]
    exact ⟨_, .head hload (.single hret), rfl, goto_pc .., rfl⟩
  have hone : step z size (s.goto g (.loadTail reqID s.cq.head)) (.step g) =
      some (s.goto g (.look reqID ⟨false, z.slots - first, first, .start first⟩)) := by
    simp [step, callStep, State.goto, hfirst, hlast, hempty]
  have htwo : ∀ i scan, Follows (step z size) (.step g)
      (s.goto g (.look reqID ⟨false, 0, i, scan⟩))
      (s.goto g (.look reqID ⟨true, last + 1, 0, .start 0⟩)) := by
    intro i scan
    refine .head (b := s.goto g (.reload reqID)) ?_ (.single ?_)
    · simp [step, callStep, State.goto]
    · simp [step, callStep, State.goto, hlast]
  have hnone : ∀ i scan, step z size (s.goto g (.look reqID ⟨true, 0, i, scan⟩)) (.step g) =
      some (s.ret g reqID .notFound) := by
    intro i scan
    simp [step, callStep, State.goto, State.ret]
  obtain ⟨hfound1, hend1⟩ := @look_follows _ _ _ _ z size
    (s.goto g (.look reqID ⟨false, z.slots - first, first, .start first⟩)) g reqID _ _ _ _
    (goto_pc ..)
  obtain ⟨hfound2, hend2⟩ := @look_follows _ _ _ _ z size
    (s.goto g (.look reqID ⟨true, last + 1, 0, .start 0⟩)) g reqID _ _ _ _ (goto_pc ..)
  simp only [goto_goto] at hfound1 hend1 hfound2 hend2
  rw [if_neg hempty]
  have hstart : Follows (step z size) (.step g) s
      (s.goto g (.look reqID ⟨false, z.slots - first, first, .start first⟩)) :=
    .head hload (.single hone)
  cases h1 : entryLoop s.cq.entries reqID (z.slots - first) first (.start first) with
  | some r =>
    obtain ⟨s', hmark, hcq, hend⟩ := mark_follows s g reqID r.1 r.2
    exact ⟨s', (hstart.trans (hfound1 r.1 r.2 h1)).trans hmark, hcq, hend⟩
  | none =>
    obtain ⟨i, scan, hto⟩ := hend1 h1
    have hsecond := (hstart.trans hto).trans (htwo i scan)
    cases h2 : entryLoop s.cq.entries reqID (last + 1) 0 (.start 0) with
    | some r =>
      obtain ⟨s', hmark, hcq, hend⟩ := mark_follows s g reqID r.1 r.2
      exact ⟨s', (hsecond.trans (hfound2 r.1 r.2 h2)).trans hmark, hcq, hend⟩
    | none =>
      obtain ⟨i', scan', hto'⟩ := hend2 h2
      exact ⟨_, (hsecond.trans hto').tail (hnone i' scan'), rfl, goto_pc .., rfl⟩

end EntryBy

/-! ## The law -/

/-- The call has found its completion in a slot and not read its `Res` yet. -/
def Pc.holds : Pc κ → Option (UInt64 × Nat)
  | .mark reqID i _ | .storeHead reqID i _ | .readRes reqID i => some (reqID, i)
  | _ => none

/-- The next step of the call takes a number. -/
def Pc.draws : Pc κ → Bool
  | .rePoll _ _ | .pollRemove _ => true
  | .submit _ len => len ≠ 0
  | _ => false

/-- Every entry has a number of its own, and what `getCqe` has returned of a `Res` is that of a
completion of its own entry. -/
structure OwnAnswers (s : State ι κ) : Prop where
  numbers : s.out.Nodup
  own : ∀ reqID r, (reqID, Answer.found r) ∈ s.answers →
    ∃ c ∈ s.posted, c.userData = reqID ∧ r = connFound c

/-- The next number is new: they do not come round, and nobody has used it without asking. -/
def Fresh (s : State ι κ) : Prop := s.idx + 1 ≠ 0 ∧ s.idx + 1 ∉ s.foreign

/-- No completion is posted into a slot that a call has found its completion in and not read
yet. -/
def Unread (z : Size) (s : State ι κ) : Prop :=
  ∀ g, (s.pc g).holds.map (·.2) ≠ some (s.cq.tail &&& z.mask).toNat

/-- The numbers are new, the user data of the others is 0 or no number, and no slot is used again
before it is read. -/
def Kept (z : Size) (s : State ι κ) : Act ι κ → Prop
  | .post _ _ _ | .postForeign _ _ _ => Unread z s
  | .step g => (s.pc g).draws = true → Fresh s
  | .other => Fresh s
  | .foreign userData => userData = 0 ∨ userData ∉ s.out
  | _ => True

/-! ## The invariant -/

/-- The number that a call looks for. -/
def Pc.reqID : Pc κ → Option UInt64
  | .enter _ reqID | .send _ reqID | .loadHead reqID | .loadTail reqID _ | .look reqID _
  | .reload reqID | .mark reqID _ _ | .storeHead reqID _ _ | .readRes reqID _ => some reqID
  | _ => none

/-- The completion of a request, with this result. -/
def Posted (s : State ι κ) (reqID : UInt64) (res : Int32) : Prop :=
  ∃ c ∈ s.posted, c.userData = reqID ∧ c.res = res

structure CallInv (s : State ι κ) : Prop where
  known : ∀ id ∈ s.out, id ≤ s.idx
  numbers : s.out.Nodup
  apart : ∀ id ∈ s.foreign, id = 0 ∨ id ∉ s.out
  entries : ∀ i, (s.cq.entries i).userData = 0 ∨ (s.cq.entries i).userData ∈ s.foreign ∨
    Posted s (s.cq.entries i).userData (s.cq.entries i).res
  asked : ∀ g reqID, (s.pc g).reqID = some reqID → reqID ≠ 0 ∧ reqID ∈ s.out
  held : ∀ g reqID i, (s.pc g).holds = some (reqID, i) → Posted s reqID (s.cq.entries i).res
  own : ∀ reqID r, (reqID, Answer.found r) ∈ s.answers →
    ∃ c ∈ s.posted, c.userData = reqID ∧ r = connFound c

variable {z : Size} {size : UInt32} {s s' : State ι κ} {g : ι}

theorem callInv_init (idx : UInt64) : CallInv (init ι κ idx) where
  known := nofun
  numbers := List.nodup_nil
  apart := nofun
  entries := fun _ => Or.inl rfl
  asked := nofun
  held := nofun
  own := nofun

theorem CallInv.ownAnswers (hi : CallInv s) : OwnAnswers s :=
  ⟨hi.numbers, hi.own⟩

theorem connFound_congr {cqe cqe' : CompletionEntry} (h : cqe.res = cqe'.res) :
    connFound cqe = connFound cqe' := by
  unfold connFound
  rw [h]

/-- The next number is not in use. -/
theorem CallInv.draw (hi : CallInv s) (hnew : Fresh s) : CallInv s.draw := by
  have hsucc : (s.idx + 1).toNat = s.idx.toNat + 1 := by
    have hlt := s.idx.toNat_lt
    rw [UInt64.toNat_add, UInt64.toNat_one]
    refine Nat.mod_eq_of_lt ?_
    by_contra hge
    apply hnew.1
    apply UInt64.toNat_inj.mp
    rw [UInt64.toNat_add, UInt64.toNat_one, UInt64.toNat_zero]
    omega
  have hold : ∀ id ∈ s.out, id < s.idx + 1 := by
    intro id h
    have hle := UInt64.le_iff_toNat_le.mp (hi.known id h)
    rw [UInt64.lt_iff_toNat_lt]
    omega
  refine ⟨?_, ?_, ?_, hi.entries, ?_, hi.held, hi.own⟩
  · intro id h
    rcases List.mem_append.mp h with h | h
    · exact UInt64.le_of_lt (hold id h)
    · rw [List.mem_singleton.mp h]
      exact UInt64.le_refl _
  · refine List.nodup_append.mpr ⟨hi.numbers, List.nodup_singleton _, ?_⟩
    rintro id hid id' hid' rfl
    rw [List.mem_singleton.mp hid'] at hid
    exact UInt64.lt_irrefl _ (hold _ hid)
  · intro id hid
    refine (hi.apart id hid).imp_right fun hno h => ?_
    rcases List.mem_append.mp h with h | h
    · exact hno h
    · rw [List.mem_singleton.mp h] at hid
      exact hnew.2 hid
  · intro g reqID h
    obtain ⟨hne, hmem⟩ := hi.asked g reqID h
    exact ⟨hne, List.mem_append_left _ hmem⟩

/-- The words of the queue change, or the marks of its entries. -/
theorem CallInv.queue (hi : CallInv s) {cq : CompletionQueue}
    (huser : ∀ i, (cq.entries i).userData = (s.cq.entries i).userData)
    (hres : ∀ i, (cq.entries i).res = (s.cq.entries i).res) : CallInv { s with cq := cq } := by
  refine ⟨hi.known, hi.numbers, hi.apart, ?_, hi.asked, ?_, hi.own⟩
  · intro i
    rw [huser, hres]
    exact hi.entries i
  · intro g reqID i h
    rw [hres]
    exact hi.held g reqID i h

theorem CallInv.seen (hi : CallInv s) (i : Nat) :
    CallInv { s with cq := setSeen s.cq i } := by
  refine hi.queue (fun x => ?_) fun x => ?_ <;>
  · simp only [setSeen, Function.update_apply]
    split_ifs with hx
    · rw [hx]
    · rfl

/-- A completion is posted into a slot that no call is about to read: one that is kept with
those of the numbers, or one with the user data of somebody else. -/
theorem CallInv.publish (hi : CallInv s) {c : CompletionEntry} {cq : CompletionQueue}
    {posted : List CompletionEntry} (hkept : Unread z s) (h : s.cq.publish z c = some cq)
    (hold : ∀ c ∈ s.posted, c ∈ posted) (hc : c.userData ∈ s.foreign ∨ c ∈ posted) :
    CallInv { s with cq := cq, posted := posted } := by
  obtain ⟨-, rfl⟩ := CompletionQueue.publish_eq h
  have hgrow : ∀ reqID r, Posted s reqID r →
      ∃ c ∈ posted, c.userData = reqID ∧ c.res = r := by
    rintro reqID r ⟨c, hc, hown⟩
    exact ⟨c, hold c hc, hown⟩
  refine ⟨hi.known, hi.numbers, hi.apart, ?_, hi.asked, ?_, ?_⟩
  · intro x
    by_cases hx : x = (s.cq.tail &&& z.mask).toNat
    · simp only [hx, Function.update_self]
      exact Or.inr (hc.imp_right fun hmem => ⟨c, hmem, rfl, rfl⟩)
    · simp only [Function.update_of_ne hx]
      exact (hi.entries x).imp_right fun hor => hor.imp_right (hgrow _ _)
  · intro g reqID x hx
    have hne : x ≠ (s.cq.tail &&& z.mask).toNat := by
      rintro rfl
      have hx : (s.pc g).holds = some (reqID, (s.cq.tail &&& z.mask).toNat) := hx
      exact hkept g (by rw [hx]; rfl)
    simp only [Function.update_of_ne hne]
    exact hgrow _ _ (hi.held g reqID x hx)
  · intro reqID r hr
    obtain ⟨c, hc, hown⟩ := hi.own reqID r hr
    exact ⟨c, hold c hc, hown⟩

/-- An entry with the number of a call is its completion. -/
theorem CallInv.posted_of_userData (hi : CallInv s) {reqID : UInt64} {i : Nat}
    (hasked : (s.pc g).reqID = some reqID) (h : (s.cq.entries i).userData = reqID) :
    Posted s reqID (s.cq.entries i).res := by
  obtain ⟨hne, hmem⟩ := hi.asked g reqID hasked
  have hentry := hi.entries i
  rw [h] at hentry
  rcases hentry with hzero | hforeign | hposted
  · exact absurd hzero hne
  · exact absurd hmem ((hi.apart reqID hforeign).resolve_left hne)
  · exact hposted

variable [DecidableEq ι]

/-- A goroutine goes on to a place. What it holds there is its completion. -/
theorem CallInv.goto (hi : CallInv s) {p : Pc κ}
    (hp : ∀ reqID, p.reqID = some reqID → reqID ≠ 0 ∧ reqID ∈ s.out)
    (hheld : ∀ reqID i, p.holds = some (reqID, i) → Posted s reqID (s.cq.entries i).res) :
    CallInv (s.goto g p) := by
  refine ⟨hi.known, hi.numbers, hi.apart, hi.entries, ?_, ?_, hi.own⟩
  · intro g' reqID h
    rcases update_cases h with ⟨-, h⟩ | ⟨-, h⟩
    · exact hp reqID h
    · exact hi.asked g' reqID h
  · intro g' reqID i h
    rcases update_cases h with ⟨-, h⟩ | ⟨-, h⟩
    · exact hheld reqID i h
    · exact hi.held g' reqID i h

/-- It keeps what it looks for, and the slot if it holds one. -/
theorem CallInv.goes_on (hi : CallInv s) {p p' : Pc κ} (hpc : s.pc g = p)
    (hid : p'.reqID = p.reqID) (hheld : p'.holds = none ∨ p'.holds = p.holds) :
    CallInv (s.goto g p') := by
  subst hpc
  refine hi.goto (fun reqID h => hi.asked g reqID (hid ▸ h)) fun reqID i h => ?_
  rcases hheld with hnone | hsame
  · rw [hnone] at h
    cases h
  · exact hi.held g reqID i (hsame ▸ h)

/-- `getCqe` returns, and what it has found is its own. -/
theorem CallInv.ret (hi : CallInv s) {reqID : UInt64} {a : Answer}
    (ha : ∀ r, a = .found r → ∃ c ∈ s.posted, c.userData = reqID ∧ r = connFound c) :
    CallInv (s.ret g reqID a) := by
  have hidle : CallInv (s.goto g .idle) := hi.goto nofun nofun
  refine ⟨hi.known, hi.numbers, hi.apart, hi.entries, hidle.asked, hidle.held, ?_⟩
  intro reqID' r h
  rcases List.mem_append.mp h with h | h
  · exact hi.own reqID' r h
  · cases List.mem_singleton.mp h
    exact ha r rfl

/-- A call takes the next number and enters. -/
theorem CallInv.submits (hi : CallInv s) (hnew : Fresh s) (c : κ) :
    CallInv (s.draw.goto g (.enter c (s.idx + 1))) := by
  refine (hi.draw hnew).goto ?_ nofun
  rintro reqID ⟨⟩
  exact ⟨hnew.1, List.mem_append_right _ List.mem_cons_self⟩

variable [DecidableEq κ]

omit [DecidableEq ι] in
/-- A token is put into a stop channel. -/
theorem CallInv.token (hi : CallInv s) {c : κ} (h : s.token c = some s') :
    CallInv s' ∧ s'.pc = s.pc := by
  simp only [State.token, Option.ite_none_right_eq_some, Option.some.injEq] at h
  obtain ⟨-, rfl⟩ := h
  exact ⟨⟨hi.known, hi.numbers, hi.apart, hi.entries, hi.asked, hi.held, hi.own⟩, rfl⟩

theorem CallInv.callStep (hi : CallInv s) (hnew : (s.pc g).draws = true → Fresh s)
    (h : callStep z size s g = some s') : CallInv s' := by
  unfold conn_calls.callStep at h
  cases hpc : s.pc g with
  | idle =>
    simp only [hpc] at h
    cases h
  | rePoll c len =>
    simp only [hpc, Option.some.injEq] at h
    subst h
    exact (hi.draw (hnew (by rw [hpc]; rfl))).goto nofun nofun
  | rePollEnter _ _ | closeFd =>
    simp only [hpc, Option.some.injEq] at h
    subst h
    exact hi.goto nofun nofun
  | submit c len =>
    simp only [hpc] at h
    split at h <;> cases h
    · exact hi.goto nofun nofun
    · rename_i hlen
      exact hi.submits (hnew (by rw [hpc]; exact decide_eq_true hlen)) c
  | pollRemove c =>
    simp only [hpc, Option.some.injEq] at h
    subst h
    exact hi.submits (hnew (by rw [hpc]; rfl)) c
  | enter _ _ | loadHead _ | reload _ =>
    simp only [hpc, Option.some.injEq] at h
    subst h
    exact hi.goes_on hpc rfl (Or.inl rfl)
  | send c reqID =>
    simp only [hpc] at h
    obtain ⟨s1, h1, rfl⟩ := Option.map_eq_some_iff.mp h
    obtain ⟨hi1, hpc1⟩ := hi.token h1
    exact hi1.goes_on ((congrFun hpc1 g).trans hpc) rfl (Or.inl rfl)
  | loadTail reqID head =>
    simp only [hpc] at h
    split at h <;> cases h
    · exact hi.ret nofun
    · exact hi.goes_on hpc rfl (Or.inl rfl)
  | look reqID l =>
    simp only [hpc] at h
    split at h
    · split at h <;> cases h
      · exact hi.ret nofun
      · exact hi.goes_on hpc rfl (Or.inl rfl)
    · split at h <;> cases h
      · -- the entry has the number of the call
        rename_i huser
        have hasked : (s.pc g).reqID = some reqID := by rw [hpc]; rfl
        refine hi.goto (fun id hid => hi.asked g id (hasked.trans hid)) ?_
        rintro id i ⟨⟩
        exact hi.posted_of_userData hasked huser
      · exact hi.goes_on hpc rfl (Or.inl rfl)
  | mark reqID i seenIdx =>
    simp only [hpc, Option.some.injEq] at h
    subst h
    exact (hi.seen i).goes_on hpc rfl (Or.inr rfl)
  | storeHead reqID i seenIdx =>
    simp only [hpc, Option.some.injEq] at h
    subst h
    have hstored : CallInv { s with cq := { s.cq with
        head := if UInt32.ofNat seenIdx = size then 0 else UInt32.ofNat seenIdx } } :=
      hi.queue (fun _ => rfl) fun _ => rfl
    exact hstored.goes_on hpc rfl (Or.inr rfl)
  | readRes reqID i =>
    simp only [hpc, Option.some.injEq] at h
    subst h
    obtain ⟨c, hc, hcid, hcres⟩ := hi.held g reqID i (by rw [hpc]; rfl)
    refine hi.ret fun r hr => ⟨c, hc, hcid, ?_⟩
    cases hr
    exact connFound_congr hcres.symm
  | closeSend c =>
    simp only [hpc] at h
    obtain ⟨s1, h1, rfl⟩ := Option.map_eq_some_iff.mp h
    exact (hi.token h1).1.goto nofun nofun

/-- A goroutine starts a call. -/
theorem CallInv.call (hi : CallInv s) {p : Pc κ} (hp : p.reqID = none) (hheld : p.holds = none)
    (h : s.call g p = some s') : CallInv s' := by
  simp only [State.call, Option.ite_none_right_eq_some, Option.some.injEq] at h
  obtain ⟨-, rfl⟩ := h
  refine hi.goto (fun reqID hid => ?_) fun reqID i hid => ?_
  · rw [hp] at hid
    cases hid
  · rw [hheld] at hid
    cases hid

theorem callInv_step {a : Act ι κ} (hi : CallInv s) (hkept : Kept z s a)
    (h : step z size s a = some s') : CallInv s' := by
  cases a with
  | read g c len => exact hi.call rfl rfl h
  | write g c len => exact hi.call rfl rfl h
  | close g c => exact hi.call rfl rfl h
  | run g c =>
    simp only [step, Option.ite_none_right_eq_some] at h
    obtain ⟨-, h⟩ := h
    have hi' : CallInv { s with
        running := Function.update s.running c false
        stop := Function.update s.stop c (s.stop c - 1) } :=
      ⟨hi.known, hi.numbers, hi.apart, hi.entries, hi.asked, hi.held, hi.own⟩
    exact hi'.call rfl rfl h
  | step g => exact hi.callStep hkept h
  | enterFails g =>
    simp only [step] at h
    split at h <;> cases h
    exact hi.ret nofun
  | other =>
    cases h
    exact hi.draw hkept
  | foreign userData =>
    cases h
    refine ⟨hi.known, hi.numbers, ?_, ?_, hi.asked, hi.held, hi.own⟩
    · intro id hid
      rcases List.mem_append.mp hid with hid | hid
      · exact hi.apart id hid
      · rw [List.mem_singleton.mp hid]
        exact hkept
    · exact fun i => (hi.entries i).imp_right fun hor => hor.imp_left (List.mem_append_left _)
  | moveHead head =>
    cases h
    exact hi.queue (fun _ => rfl) fun _ => rfl
  | post i res flags =>
    obtain ⟨id, -, h⟩ := Option.bind_eq_some_iff.mp h
    obtain ⟨cq, hcq, rfl⟩ := Option.map_eq_some_iff.mp h
    exact hi.publish hkept hcq (fun _ => List.mem_append_left _) (Or.inr (by simp))
  | postForeign i res flags =>
    obtain ⟨userData, hid, h⟩ := Option.bind_eq_some_iff.mp h
    obtain ⟨cq, hcq, rfl⟩ := Option.map_eq_some_iff.mp h
    exact hi.publish hkept hcq (fun _ h => h) (Or.inl (List.mem_of_getElem? hid))

omit [DecidableEq ι] [DecidableEq κ] in
instance (s : State ι κ) : Decidable (Fresh s) :=
  inferInstanceAs (Decidable (_ ∧ _))

omit [DecidableEq ι] [DecidableEq κ] in
instance [Fintype ι] (z : Size) (s : State ι κ) : ∀ a, Decidable (Kept z s a)
  | .post _ _ _ | .postForeign _ _ _ =>
    inferInstanceAs (Decidable (∀ g,
      (s.pc g).holds.map (·.2) ≠ some (s.cq.tail &&& z.mask).toNat))
  | .step g => inferInstanceAs (Decidable ((s.pc g).draws = true → Fresh s))
  | .other => inferInstanceAs (Decidable (Fresh s))
  | .foreign userData => inferInstanceAs (Decidable (userData = 0 ∨ userData ∉ s.out))
  | .read _ _ _ | .write _ _ _ | .close _ _ | .run _ _ | .enterFails _ | .moveHead _ =>
    isTrue trivial

/-- Two writers on a ring of four. When the second one has found its entry, `EntryBy` has moved
`Head` over the entry of the first one, which is marked, and the fifth completion is posted there
before the first writer reads its `Res`. And a writer with the number 5 next to a listener with
the descriptor 5 gets the poll of the listener. -/
theorem a_writer_gets_the_count_of_somebody_else :
    let as : List (Act (Fin 2) (Fin 2)) :=
      [Act.write 0 0 5, Act.step 0, Act.write 1 1 7, Act.step 1, Act.other, Act.other, Act.other,
        Act.post 0 5 0, Act.post 1 7 0] ++ List.replicate 7 (Act.step 0) ++
        List.replicate 8 (Act.step 1) ++ [Act.post 2 1 0, Act.post 3 1 0, Act.post 4 9 0,
        Act.step 0]
    let bs : List (Act (Fin 2) (Fin 2)) :=
      [Act.foreign 5, Act.write 0 0 7, Act.step 0, Act.postForeign 0 1 0] ++
        List.replicate 8 (Act.step 0)
    (∃ s, run (step ⟨2, by decide⟩ 128) (init (Fin 2) (Fin 2) 0) as = some s ∧
      s.answers = [(1, .found ⟨some 9, none⟩)] ∧ ¬ OwnAnswers s) ∧
    ∃ s, run (step ⟨2, by decide⟩ 128) (init (Fin 2) (Fin 2) 4) bs = some s ∧
      s.answers = [(5, .found ⟨some 1, none⟩)] ∧ s.posted = [] := by
  intro as bs
  refine ⟨?_, _, rfl, rfl, rfl⟩
  have h : (run (step ⟨2, by decide⟩ 128) (init (Fin 2) (Fin 2) 0) as).map
      (fun s => (s.answers, s.posted)) = some ([(1, .found ⟨some 9, none⟩)],
        [⟨1, 5, 0⟩, ⟨2, 7, 0⟩, ⟨3, 1, 0⟩, ⟨4, 1, 0⟩, ⟨5, 9, 0⟩]) := by decide +kernel
  obtain ⟨s, hrun, hs⟩ := Option.map_eq_some_iff.mp h
  simp only [Prod.mk.injEq] at hs
  refine ⟨s, hrun, hs.1, fun hown => ?_⟩
  obtain ⟨c, hc, hid, hr⟩ := hown.own 1 ⟨some 9, none⟩ (by rw [hs.1]; decide)
  rw [hs.2] at hc
  revert c
  decide

end iouring.conn_calls
