-- `ringFIO.Seek` against the law of `io.Seeker`, over runs of `Read`, `Write` and
-- `Seek`. It returns 0 whatever it has done, takes no position for negative, and
-- counts back from the end of the file.
import Iouring.FioCalls

open machine
open iouring.submit_queue (Opcode Slice SubmitEntry filledEntry prepareTransfer)

namespace iouring.fio_calls

variable {ω : Type}

/-! ## Runs of reads, writes and seeks -/

/-- The position that a `Seek` asks for. There is none if `Stat` fails, or if nobody
knows the `whence`. -/
def target (s : State ω) (offset whence : Int64) (stat : ω → Option Int64) : Option Int :=
  if whence = SeekStart then some offset.toInt
  else if whence = SeekCurrent then some (s.fOffset.toInt + offset.toInt)
  else if whence = SeekEnd then (stat s.file).map fun size => size.toInt + offset.toInt
  else none

/-- The bytes that a call has transferred. -/
def Answer.transferred : Answer → Int
  | .returned n _ => n
  | .panicked => 0

/-- The `ringFIO`; the position that the last `Seek` has gone to, until something is
transferred; and the last position that was set, with the bytes that have been
transferred since. -/
structure Seeker (ω : Type) where
  fio : State ω
  sought : Option Int
  position : Int

def Seeker.start (s : State ω) : Seeker ω := ⟨s, none, s.fOffset.toInt⟩

/-- After a transfer. -/
def Seeker.moved (s : Seeker ω) (done : Done ω) : Seeker ω :=
  ⟨done.state, if done.sent.isSome then none else s.sought,
    s.position + done.answer.transferred⟩

/-- After a `Seek` that asked for a position. -/
def Seeker.set (s : Seeker ω) (done : Done ω) (aim : Option Int) : Seeker ω :=
  match done.answer with
  | .returned _ none => ⟨done.state, aim, aim.getD s.position⟩
  | _ => { s with fio := done.state }

def seekStep (s : Seeker ω) : Call ω → Option (Seeker ω)
  | .read b kernel => some (s.moved (s.fio.read b kernel))
  | .write b kernel => some (s.moved (s.fio.write b kernel))
  | .seek offset whence stat =>
    some (s.set (s.fio.seek offset whence stat) (target s.fio offset whence stat))

/-! ## The law -/

/-- The transfer is performed where the last `Seek` has gone to. -/
def Performed (s : Seeker ω) (sent : Option SubmitEntry) : Prop :=
  ∀ p ∈ s.sought, ∀ e ∈ sent, (e.offset.toNat : Int) = p

/-- A `Seek` that succeeds sets the cursor to the position it asks for, and returns it.
One that asks for a negative position fails and leaves the cursor. -/
def Reached (s : Seeker ω) (done : Done ω) (aim : Option Int) : Prop :=
  (∀ n, done.answer = .returned n none → aim = some n ∧ done.state.fOffset.toInt = n) ∧
    ∀ p ∈ aim, p < 0 → (∃ n err, done.answer = .returned n (some err)) ∧
      done.state.fOffset = s.fio.fOffset

/-- The law of one call. In addition, `Seek(0, SeekCurrent)` returns the last position with
what was transferred since, and the first transfer after a `Seek` is performed at its
position. -/
def SeekRight (s : Seeker ω) : Call ω → Prop
  | .read b kernel => Performed s (s.fio.read b kernel).sent
  | .write b kernel => Performed s (s.fio.write b kernel).sent
  | .seek offset whence stat =>
    Reached s (s.fio.seek offset whence stat) (target s.fio offset whence stat) ∧
      (whence = SeekCurrent → offset = 0 →
        (s.fio.seek offset whence stat).answer = .returned s.position none)

/-- A `Seek` goes to 0, from the start or from the cursor; or to the end of an empty
file; or it fails. -/
def SeekOk (s : Seeker ω) : Call ω → Prop
  | .seek offset whence stat =>
    (whence = SeekStart → offset = 0) ∧
      (whence = SeekCurrent → s.fio.fOffset.toInt + offset.toInt = 0 ∧
        (offset = 0 → s.position = 0)) ∧
      (whence = SeekEnd → ∀ size ∈ stat s.fio.file, size = 0 ∧ offset = 0)
  | _ => True

variable {s : Seeker ω} {done : Done ω} {p : Int}

theorem toInt_eq_zero {v : Int64} : v.toInt = 0 ↔ v = 0 := by
  rw [← Int64.toInt_zero, Int64.toInt_inj]

/-- As 0 is what it returns, a `Seek` without an error is right at the position 0 alone. -/
theorem reached_iff (h : done.answer = .returned 0 none) :
    Reached s done (some p) ↔ p = 0 ∧ done.state.fOffset = 0 := by
  unfold Reached
  rw [h]
  constructor
  · rintro ⟨hset, -⟩
    obtain ⟨hp, hcursor⟩ := hset 0 rfl
    exact ⟨Option.some.inj hp, toInt_eq_zero.mp hcursor⟩
  · rintro ⟨rfl, hcursor⟩
    refine ⟨?_, ?_⟩
    · rintro n ⟨⟩
      exact ⟨rfl, toInt_eq_zero.mpr hcursor⟩
    · rintro p ⟨⟩ hneg
      exact absurd hneg (Int.lt_irrefl 0)

/-- A `Seek` that fails with no position to go to is right. -/
theorem reached_of_error {n : Int} {err : Error} (h : done.answer = .returned n (some err)) :
    Reached s done none := by
  refine ⟨?_, nofun⟩
  intro n hn
  rw [h] at hn
  cases hn

theorem sum_eq_zero {v w : Int64} (h : v.toInt + w.toInt = 0) : v + w = 0 := by
  rw [← toInt_eq_zero, Int64.toInt_add, h]
  rfl

/-- The end of the file less the offset is 0, and so is the end with the offset. -/
theorem end_eq_zero_iff {size offset : Int64} :
    (size.toInt + offset.toInt = 0 ∧ size - offset = 0) ↔ size = 0 ∧ offset = 0 := by
  constructor
  · rintro ⟨hsum, hdiff⟩
    obtain rfl : size = offset := by
      rw [← Int64.sub_add_cancel size offset, hdiff, Int64.zero_add]
    have hzero : size = 0 := toInt_eq_zero.mp (by omega)
    exact ⟨hzero, hzero⟩
  · rintro ⟨rfl, rfl⟩
    exact ⟨rfl, rfl⟩

theorem seekRight_seek_iff (offset whence : Int64) (stat : ω → Option Int64) :
    SeekRight s (.seek offset whence stat) ↔ SeekOk s (.seek offset whence stat) := by
  simp only [SeekRight, SeekOk, State.seek, target]
  by_cases hstart : whence = SeekStart
  · subst hstart
    simp only [if_true]
    rw [reached_iff rfl, toInt_eq_zero]
    simp [SeekStart, SeekCurrent, SeekEnd]
  by_cases hcurrent : whence = SeekCurrent
  · subst hcurrent
    simp only [hstart, if_true, if_false]
    rw [reached_iff rfl]
    simp only [SeekCurrent, SeekEnd, Answer.returned.injEq, and_true, true_implies]
    constructor
    · rintro ⟨⟨hsum, -⟩, hzero⟩
      exact ⟨nofun, ⟨hsum, fun ho => (hzero ho).symm⟩, nofun⟩
    · rintro ⟨-, ⟨hsum, hzero⟩, -⟩
      exact ⟨⟨hsum, sum_eq_zero hsum⟩, fun ho => (hzero ho).symm⟩
  by_cases hend : whence = SeekEnd
  · subst hend
    simp only [hstart, hcurrent, if_true, if_false]
    cases hstat : stat s.fio.file with
    | none =>
      simp only [Option.map_none, false_implies, and_true, implies_true, Option.not_mem_none,
        iff_true]
      exact reached_of_error rfl
    | some size =>
      rw [Option.map_some, reached_iff rfl, end_eq_zero_iff]
      simp
  · simp only [hstart, hcurrent, hend, if_false, false_implies, and_true, iff_true]
    exact reached_of_error rfl

/-- Where the last `Seek` has gone to, there the cursor is. -/
def AtSought (s : Seeker ω) : Prop := ∀ p ∈ s.sought, s.fio.fOffset.toInt = p ∧ 0 ≤ p

theorem entry_offset {op : Opcode} {fd : Int32} {b : Slice} {offset : UInt64} {e : SubmitEntry}
    (h : entry op fd b offset = some e) : e.offset = offset := by
  unfold entry prepareTransfer at h
  simp only [Option.map_map, Option.map_eq_some_iff] at h
  obtain ⟨first, -, rfl⟩ := h
  rfl

/-- A transfer at the cursor is performed where the last `Seek` has gone to. -/
theorem AtSought.performed (h : AtSought s) {op : Opcode} {b : Slice} :
    Performed s (entry op s.fio.fd b s.fio.fOffset.toUInt64) := by
  intro p hp e he
  obtain ⟨hcursor, hle⟩ := h p hp
  have hnonneg : (0 : Int64) ≤ s.fio.fOffset := by
    rw [Int64.le_iff_toInt_le, hcursor]
    exact hle
  have hclamp : s.fio.fOffset.toNatClampNeg = s.fio.fOffset.toInt.toNat := rfl
  rw [entry_offset he, Int64.toNat_toUInt64_of_le hnonneg, hclamp]
  omega

theorem submit_sent (s : State ω) (sent : Option SubmitEntry)
    (kernel : ω → SubmitEntry → ω × Reply) (finish : ring_fio.Result → Answer) :
    (s.submit sent kernel finish).sent = sent := by
  cases sent with
  | none => rfl
  | some e => rfl

theorem seekRight_iff_seekOk (h : AtSought s) (c : Call ω) : SeekRight s c ↔ SeekOk s c := by
  cases c with
  | read b kernel =>
    simp only [SeekRight, SeekOk, State.read, submit_sent, iff_true]
    exact h.performed
  | write b kernel =>
    simp only [SeekRight, SeekOk, State.write, submit_sent, iff_true]
    exact h.performed
  | seek offset whence stat => exact seekRight_seek_iff offset whence stat

/-- A transfer forgets where the last `Seek` has gone to, or changes nothing at all. -/
theorem AtSought.submit (h : AtSought s) (sent : Option SubmitEntry)
    (kernel : ω → SubmitEntry → ω × Reply) (finish : ring_fio.Result → Answer) :
    AtSought (s.moved (s.fio.submit sent kernel finish)) := by
  cases sent with
  | none => exact h
  | some e => exact nofun

theorem AtSought.set (h : AtSought s) {aim : Option Int} (hreached : Reached s done aim)
    (hfail : ∀ n err, done.answer = .returned n (some err) → done.state = s.fio)
    (hpanic : done.answer ≠ .panicked) : AtSought (s.set done aim) := by
  unfold Seeker.set
  cases hanswer : done.answer with
  | panicked => exact absurd hanswer hpanic
  | returned n err =>
    cases err with
    | some err =>
      dsimp only
      rw [hfail n err hanswer]
      exact h
    | none =>
      obtain ⟨haim, hcursor⟩ := hreached.1 n hanswer
      intro p hp
      dsimp only at hp
      rw [haim] at hp
      cases hp
      refine ⟨hcursor, ?_⟩
      by_contra hneg
      obtain ⟨⟨m, err, herr⟩, -⟩ := hreached.2 n haim (by omega)
      rw [hanswer] at herr
      cases herr

/-- A `Seek` that fails leaves everything, and none panics. -/
theorem seek_fails (s : State ω) (offset whence : Int64) (stat : ω → Option Int64) :
    (∀ n err, (s.seek offset whence stat).answer = .returned n (some err) →
      (s.seek offset whence stat).state = s) ∧
      (s.seek offset whence stat).answer ≠ .panicked := by
  unfold State.seek
  split_ifs
  · exact ⟨nofun, nofun⟩
  · exact ⟨nofun, nofun⟩
  · cases stat s.file with
    | none => exact ⟨fun _ _ _ => rfl, nofun⟩
    | some size => exact ⟨nofun, nofun⟩
  · exact ⟨fun _ _ _ => rfl, nofun⟩

theorem atSought_step {s' : Seeker ω} {c : Call ω} (h : AtSought s) (hright : SeekRight s c)
    (hstep : seekStep s c = some s') : AtSought s' := by
  cases c with
  | read b kernel =>
    cases hstep
    exact h.submit _ _ _
  | write b kernel =>
    cases hstep
    exact h.submit _ _ _
  | seek offset whence stat =>
    cases hstep
    obtain ⟨hfail, hpanic⟩ := seek_fails s.fio offset whence stat
    exact h.set hright.1 hfail hpanic

/-- Over every run of `Read`, `Write` and `Seek`, from any cursor, with any offsets, sizes
and contents of the file and whatever the kernel answers: the law of `io.Seeker` holds,
exactly if every `Seek`
- from the start has the offset 0;
- from the cursor goes to 0, and if its offset is 0, the last position with what was
  transferred since is 0 too;
- from the end has the offset 0 and an empty file, or `Stat` fails;
- or has a `whence` that nobody knows. -/
theorem seek_obeys_the_law_iff (s : State ω) (cs : List (Call ω)) :
    Along seekStep SeekRight (.start s) cs ↔ Along seekStep SeekOk (.start s) cs := by
  have hstart : AtSought (.start s) := by
    intro p hp
    cases hp
  exact along_congr (fun _ _ _ => atSought_step) (fun _ c h => seekRight_iff_seekOk h c) hstart cs

/-- `Seek(5, SeekStart)` goes to 5 and returns 0; `Seek(-3, SeekEnd)` on a file of ten bytes
goes to 13; and `Seek(-1, SeekStart)` goes to -1 without an error. -/
theorem a_seek_returns_zero :
    let s : State Unit := ⟨3, 0, ()⟩
    ¬ SeekRight (.start s) (.seek 5 SeekStart fun _ => none) ∧
      (s.seek 5 SeekStart fun _ => none).answer = .returned 0 none ∧
      (s.seek 5 SeekStart fun _ => none).state.fOffset = 5 ∧
      (s.seek (-3) SeekEnd fun _ => some 10).state.fOffset = 13 ∧
      target s (-3) SeekEnd (fun _ => some 10) = some 7 ∧
      (s.seek (-1) SeekStart fun _ => none).answer = .returned 0 none ∧
      target s (-1) SeekStart (fun _ => none) = some (-1) := by
  refine ⟨?_, by decide⟩
  rw [seekRight_seek_iff]
  rintro ⟨hstart, -⟩
  exact absurd (hstart rfl) (by decide)

end iouring.fio_calls
