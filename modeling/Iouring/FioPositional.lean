-- `ReadAt` and `WriteAt` next to the calls that go by the cursor. They do not read the
-- cursor, but the `getCqe` behind them moves it by what they have transferred, so they
-- shift whatever comes after them.
import Iouring.FioSession

open counter machine
open iouring.submit_queue (Slice SubmitEntry)

namespace iouring.fio_calls

variable {ω : Type}

/-! ## The law -/

/-- The offset of a call, its answer, and what it has read. -/
structure Observed where
  offset : Option UInt64
  answer : Answer
  data : List UInt8
  deriving DecidableEq, Repr

/-- What is observed of `Read`, `Write` and `Seek`. -/
def observe (s : State ω) : Act ω → List Observed
  | .call c => [⟨(s.call c).sent.map (·.offset), (s.call c).answer, (s.call c).data⟩]
  | _ => []

/-- The run without this call if it is a `ReadAt`. -/
def withoutReadAt : Act ω → List (Act ω)
  | .readAt _ _ _ => []
  | a => [a]

/-- The run with the bytes of this call alone if it is a `WriteAt`. -/
def bytesOnly : Act ω → List (Act ω)
  | .writeAt b o kernel => [.change b o kernel]
  | a => [a]

/-- A positional call leaves the cursor. -/
def CursorKept (s : State ω) : Act ω → Prop
  | .readAt b o kernel => (s.readAt b o kernel).state.fOffset = s.fOffset
  | .writeAt b o kernel => (s.writeAt b o kernel).state.fOffset = s.fOffset
  | _ => True

/-- Without its `ReadAt`s, and with the bytes of its `WriteAt`s alone, the run shows the
same of the other calls, and no positional call moves the cursor. -/
def PositionalRight (zs zc : Size) (s : Session ω) (as : List (Act ω)) : Prop :=
  let shown := seen (Session.step zs zc) fun s => observe s.fio
  shown s (as.flatMap withoutReadAt) = shown s as ∧
    shown s (as.flatMap bytesOnly) = shown s as ∧
    Along (Session.step zs zc) (fun s => CursorKept s.fio) s as

/-- The kernel has transferred something. -/
def Reply.moves : Reply → Bool
  | .enterFails => false
  | .done res _ => 0 < res

/-- A positional call transfers nothing: `Res` is 0 or negative. -/
def NothingMoved (s : State ω) : Act ω → Prop
  | .readAt b o kernel =>
    ∀ e ∈ entry .read s.fd b o.toUInt64, (kernel s.file e).moves = false
  | .writeAt b o kernel =>
    ∀ e ∈ entry .write s.fd b o.toUInt64, (kernel s.file e).2.moves = false
  | _ => True

instance (s : State ω) : ∀ a, Decidable (NothingMoved s a)
  | .readAt b o kernel =>
    inferInstanceAs (Decidable (∀ e ∈ entry .read s.fd b o.toUInt64,
      (kernel s.file e).moves = false))
  | .writeAt b o kernel =>
    inferInstanceAs (Decidable (∀ e ∈ entry .write s.fd b o.toUInt64,
      (kernel s.file e).2.moves = false))
  | .call _ | .change _ _ _ => isTrue trivial

/-- `getCqe` moves the cursor if something was transferred. -/
theorem getCqe_keeps_iff {fOffset : Int64} {reply : Reply} :
    (getCqe fOffset reply).2 = fOffset ↔ reply.moves = false := by
  cases reply with
  | enterFails => simp [getCqe, Reply.moves]
  | done res data =>
    have hzero : fOffset + res.toInt64 = fOffset ↔ res = 0 := by
      rw [Int64.add_eq_left, ← Int64.toInt_inj, Int32.toInt_toInt64, ← Int32.toInt_inj]
      rfl
    have hpos : 0 < res ↔ ¬ res < 0 ∧ res ≠ 0 := by
      rw [Int32.lt_iff_toInt_lt, Int32.lt_iff_toInt_lt, ne_eq, ← Int32.toInt_inj,
        Int32.toInt_zero]
      omega
    unfold getCqe Reply.moves
    by_cases hneg : res < 0
    · simp [hneg, hpos]
    · simp [hneg, hpos, hzero]

theorem submit_keeps_iff (s : State ω) (sent : Option SubmitEntry)
    (kernel : ω → SubmitEntry → ω × Reply) (finish : ring_fio.Result → Answer) :
    (s.submit sent kernel finish).state.fOffset = s.fOffset ↔
      ∀ e ∈ sent, (kernel s.file e).2.moves = false := by
  cases sent with
  | none => simp [State.submit]
  | some e => simp [State.submit, getCqe_keeps_iff]

theorem cursorKept_iff (s : State ω) (a : Act ω) : CursorKept s a ↔ NothingMoved s a := by
  cases a with
  | call c => exact Iff.rfl
  | readAt b o kernel => exact submit_keeps_iff _ _ _ _
  | writeAt b o kernel => exact submit_keeps_iff _ _ _ _
  | change b o kernel => exact Iff.rfl

/-- A transfer that leaves the cursor changes the bytes alone. -/
theorem submit_eq {s : State ω} {sent : Option SubmitEntry}
    {kernel : ω → SubmitEntry → ω × Reply} {finish : ring_fio.Result → Answer}
    (h : (s.submit sent kernel finish).state.fOffset = s.fOffset) :
    (s.submit sent kernel finish).state =
      { s with file := (s.submit sent kernel finish).state.file } := by
  cases sent with
  | none => rfl
  | some e =>
    unfold State.submit at h ⊢
    dsimp only at h ⊢
    rw [h]

theorem readAt_file (s : State ω) (b : Slice) (o : Int64) (kernel : ω → SubmitEntry → Reply) :
    (s.readAt b o kernel).state.file = s.file := by
  unfold State.readAt
  cases entry .read s.fd b o.toUInt64 with
  | none => rfl
  | some e => rfl

/-- A `ReadAt` that leaves the cursor leaves everything. -/
theorem readAt_eq {s : State ω} {b : Slice} {o : Int64} {kernel : ω → SubmitEntry → Reply}
    (h : (s.readAt b o kernel).state.fOffset = s.fOffset) : (s.readAt b o kernel).state = s := by
  have hfile := readAt_file s b o kernel
  have hstate : (s.readAt b o kernel).state =
      { s with file := (s.readAt b o kernel).state.file } := submit_eq h
  rw [hstate, hfile]

/-! ## Calls that are left out -/

section Replaced

variable {zs zc : Size} {s t : Session ω} {a : Act ω}

/-- What stands for a call shows the same, and the sessions stay alike. -/
def Replaced (zs zc : Size) (f : Act ω → List (Act ω)) (s t : Session ω) (a : Act ω) : Prop :=
  ∃ s', Session.step zs zc s a = some s' ∧
    (CursorKept s.fio a → ∃ t', run (Session.step zs zc) t (f a) = some t' ∧ Alike zs zc s' t' ∧
      seen (Session.step zs zc) (fun s => observe s.fio) t (f a) = observe s.fio a)

theorem Alike.replaced_self (h : Alike zs zc s t) (hz : 2 ≤ zs.slots) (hok : Served zc s a)
    {f : Act ω → List (Act ω)} (hf : f a = [a]) : Replaced zs zc f s t a := by
  obtain ⟨s', t', hs, ht, halike⟩ := h.step hz hok
  refine ⟨s', hs, fun _ => ⟨t', ?_, halike, ?_⟩⟩
  · rw [hf, run_singleton ht]
  · rw [hf, seen_singleton ht, h.fio]

theorem Alike.withoutReadAt (h : Alike zs zc s t) (hz : 2 ≤ zs.slots) (hok : Served zc s a) :
    Replaced zs zc withoutReadAt s t a := by
  cases a with
  | readAt b o kernel =>
    obtain ⟨s', hs, hfio, hrests, hpending⟩ := h.left.step hz hok
    refine ⟨s', hs, fun hkept => ⟨t, rfl, ⟨?_, hrests, h.right, ?_⟩, rfl⟩⟩
    · rw [hfio, ← h.fio]
      exact readAt_eq hkept
    · rw [hpending]
      exact Nat.le_trans h.pending (s.le_pendingBy _)
  | _ => exact h.replaced_self hz hok rfl

theorem Alike.bytesOnly (h : Alike zs zc s t) (hz : 2 ≤ zs.slots) (hok : Served zc s a) :
    Replaced zs zc bytesOnly s t a := by
  cases a with
  | writeAt b o kernel =>
    obtain ⟨s', hs, hfio, hrests, hpending⟩ := h.left.step hz hok
    refine ⟨s', hs, fun hkept => ⟨_, rfl, ⟨?_, hrests, h.right, ?_⟩, rfl⟩⟩
    · rw [hfio]
      simp only [← h.fio]
      exact submit_eq hkept
    · rw [hpending]
      exact Nat.le_trans h.pending (s.le_pendingBy _)
  | _ => exact h.replaced_self hz hok rfl

end Replaced

/-- A kernel that reads whatever it is asked for. -/
def readsAll (_ : Unit) (e : SubmitEntry) : Reply := .done e.len.toInt32 []

end iouring.fio_calls
