-- Whole calls of a `ringFIO` by one goroutine: `Read`, `Write`, `ReadAt`, `WriteAt`
-- and `Seek`, each with what the kernel makes of its entry. All four transfers end in
-- the same `getCqe`, which moves the cursor and does not know the length that was
-- asked for.
import Iouring.FileIo
import Iouring.FioScan

open counter machine
open iouring.completion_queue (errnoOf)
open iouring.ring_fio (Result)
open iouring.submit_queue (Opcode Slice SubmitEntry filledEntry prepareTransfer)

namespace iouring.fio_calls

/-! ## The calls -/

/-- What comes of an entry: the `Enter` fails, or the kernel completes it with `Res` and,
for a read, the bytes that it has put into the buffer. -/
inductive Reply where
  | enterFails
  | done (res : Int32) (data : List UInt8)
  deriving DecidableEq, Repr

def Reply.data : Reply → List UInt8
  | .enterFails => []
  | .done _ data => data

/-- `ringFIO.getCqe` of a call that nobody disturbs, and the cursor after it. -/
def getCqe (fOffset : Int64) : Reply → Result × Int64
  | .enterFails => (.enterFailed, fOffset)
  | .done res _ =>
    if res < 0 then (.errno (errnoOf res), fOffset)
    else (.count res.toInt, fOffset + res.toInt64)

inductive Error where
  | errno (e : UInt64)
  | enter
  | eof
  | stat
  | unknownWhence
  deriving DecidableEq, Repr

inductive Answer where
  | returned (n : Int) (err : Option Error)
  | panicked
  deriving DecidableEq, Repr

/-- What `Write` and `WriteAt` return. -/
def ofResult : Result → Answer
  | .count n => .returned n none
  | .errno e => .returned 0 (some (.errno e))
  | .enterFailed => .returned 0 (some .enter)

/-- What `Read` and `ReadAt` return. -/
def orEof (r : Result) : Answer :=
  match ofResult r with
  | .returned n none => if n = 0 then .returned n (some .eof) else .returned n none
  | .returned _ (some err) => .returned 0 (some err)
  | .panicked => .panicked

/-- The `ringFIO`, and the contents of its file. -/
structure State (ω : Type) where
  fd : Int32
  fOffset : Int64
  file : ω

/-- A call that has returned: the state after it, the entry that it has submitted, its
answer, and what was read. -/
structure Done (ω : Type) where
  state : State ω
  sent : Option SubmitEntry
  answer : Answer
  data : List UInt8

/-- The entry of a transfer, but for its id, or none if the buffer is empty. -/
def entry (op : Opcode) (fd : Int32) (b : Slice) (offset : UInt64) : Option SubmitEntry :=
  (prepareTransfer op fd b offset 0 0).map (filledEntry .zero)

variable {ω : Type}

/-- The entry is submitted, the kernel executes it, and `getCqe` finds the completion. The
queue holds no other entry; what a call that fails leaves in it is kept by `Session`. -/
def State.submit (s : State ω) (sent : Option SubmitEntry)
    (kernel : ω → SubmitEntry → ω × Reply) (finish : Result → Answer) : Done ω :=
  match sent with
  | none => ⟨s, none, .panicked, []⟩
  | some e =>
    let done := kernel s.file e
    let found := getCqe s.fOffset done.2
    ⟨{ s with fOffset := found.2, file := done.1 }, some e, finish found.1, done.2.data⟩

/-- `ringFIO.Read`. The kernel only reads the file. -/
def State.read (s : State ω) (b : Slice) (kernel : ω → SubmitEntry → Reply) : Done ω :=
  s.submit (entry .read s.fd b s.fOffset.toUInt64) (fun file e => (file, kernel file e)) orEof

/-- `ringFIO.Write`. -/
def State.write (s : State ω) (b : Slice) (kernel : ω → SubmitEntry → ω × Reply) : Done ω :=
  s.submit (entry .write s.fd b s.fOffset.toUInt64) kernel ofResult

/-- `ringFIO.ReadAt`. -/
def State.readAt (s : State ω) (b : Slice) (o : Int64) (kernel : ω → SubmitEntry → Reply) :
    Done ω :=
  s.submit (entry .read s.fd b o.toUInt64) (fun file e => (file, kernel file e)) orEof

/-- `ringFIO.WriteAt`. -/
def State.writeAt (s : State ω) (b : Slice) (o : Int64) (kernel : ω → SubmitEntry → ω × Reply) :
    Done ω :=
  s.submit (entry .write s.fd b o.toUInt64) kernel ofResult

def SeekStart : Int64 := 0

def SeekCurrent : Int64 := 1

def SeekEnd : Int64 := 2

/-- `ringFIO.Seek`. `stat` is the size that `Stat` gives, or its failure. -/
def State.seek (s : State ω) (offset whence : Int64) (stat : ω → Option Int64) : Done ω :=
  if whence = SeekStart then
    ⟨{ s with fOffset := offset }, none, .returned 0 none, []⟩
  else if whence = SeekCurrent then
    ⟨{ s with fOffset := s.fOffset + offset }, none, .returned 0 none, []⟩
  else if whence = SeekEnd then
    match stat s.file with
    | none => ⟨s, none, .returned 0 (some .stat), []⟩
    | some size => ⟨{ s with fOffset := size - offset }, none, .returned 0 none, []⟩
  else ⟨s, none, .returned 0 (some .unknownWhence), []⟩

/-- A call that goes by the cursor, with what the kernel makes of it. -/
inductive Call (ω : Type) where
  | read (b : Slice) (kernel : ω → SubmitEntry → Reply)
  | write (b : Slice) (kernel : ω → SubmitEntry → ω × Reply)
  | seek (offset whence : Int64) (stat : ω → Option Int64)

def State.call (s : State ω) : Call ω → Done ω
  | .read b kernel => s.read b kernel
  | .write b kernel => s.write b kernel
  | .seek offset whence stat => s.seek offset whence stat

/-! ## The search behind a call -/

section Search

variable {ι : Type} [DecidableEq ι] {z : Size} {s : ring_fio.State ι} {g : ι}
  {c : ring_fio.Call} {x : Nat}

/-- A call that has found an entry with a count stores the cursor and returns. -/
theorem hit_follows {cqe : completion_queue.CompletionEntry} {q : completion_queue.State}
    (hpc : s.pc g = .loadOffset c x cqe) (hq : completion_queue.complete s.queue x = some q) :
    ∃ s', Follows (ring_fio.step z) (.step g) s s' ∧ s'.pc g = .idle ∧
      s'.results = s.results ++ [(c.reqID, .count cqe.res.toInt)] ∧
      s'.fOffset c.file = s.fOffset c.file + cqe.res.toInt64 ∧
      s'.queue.completer = q.completer := by
  have hload : ring_fio.step z s (.step g) =
      some (s.goto g (.storeOffset c x cqe (s.fOffset c.file))) := by
    simp [ring_fio.step, ring_fio.stepPc, hpc]
  have hstore : ring_fio.step z (s.goto g (.storeOffset c x cqe (s.fOffset c.file))) (.step g) =
      some { s.goto g (.complete c x cqe) with
        fOffset := Function.update s.fOffset c.file (s.fOffset c.file + cqe.res.toInt64) } := by
    simp [ring_fio.step, ring_fio.stepPc, ring_fio.State.goto]
  have hcomplete : ∃ s', ring_fio.step z { s.goto g (.complete c x cqe) with
        fOffset := Function.update s.fOffset c.file (s.fOffset c.file + cqe.res.toInt64) }
      (.step g) = some s' ∧ s'.pc g = .idle ∧
      s'.results = s.results ++ [(c.reqID, .count cqe.res.toInt)] ∧
      s'.fOffset c.file = s.fOffset c.file + cqe.res.toInt64 ∧
      s'.queue.completer = q.completer := by
    simp [ring_fio.step, ring_fio.stepPc, ring_fio.State.goto, hq, ring_fio.State.ret]
  obtain ⟨s', hlast, hend⟩ := hcomplete
  exact ⟨s', .head hload (.head hstore (.single hlast)), hend⟩

/-- Alone behind its `Enter`, a call of `getCqe` whose pass finds an entry returns what
`getCqe` says of the `Res` in it, and leaves that cursor. It has given the slot to the completer
unless `Res` is an error. -/
theorem getCqe_follows {q : completion_queue.State} (hpc : s.pc g = .loadHead c)
    (hx : ring_fio.findCqe z s.queue.cq c.reqID = some x)
    (hq : completion_queue.complete s.queue x = some q) (data : List UInt8) :
    let found := getCqe (s.fOffset c.file) (.done (s.queue.cq.entries x).res data)
    ∃ s', Follows (ring_fio.step z) (.step g) s s' ∧ s'.pc g = .idle ∧
      s'.results = s.results ++ [(c.reqID, found.1)] ∧ s'.fOffset c.file = found.2 ∧
      s'.queue.completer =
        if (s.queue.cq.entries x).res < 0 then s.queue.completer else q.completer := by
  have hscan := ring_fio.findCqe_repeats (z := z) hpc
  rw [hx] at hscan
  have hid : (s.queue.cq.entries x).userData = c.reqID := by
    rw [ring_fio.findCqe_eq] at hx
    simpa [ring_fio.Answers] using List.find?_some hx
  dsimp only [getCqe]
  by_cases hres : (s.queue.cq.entries x).res < 0
  · refine ⟨_, hscan.to_reflTransGen, ?_⟩
    simp [ring_fio.look, hid, hres, ring_fio.State.ret, ring_fio.State.goto]
  · simp only [ring_fio.look, hid, hres, if_true, if_false] at hscan ⊢
    obtain ⟨s', hsteps, hend⟩ := hit_follows (z := z)
      (s := { s with found := s.found ++ [c.reqID] }.goto g
        (.loadOffset c x (s.queue.cq.entries x))) (Function.update_self ..) hq
    exact ⟨s', hscan.to_reflTransGen.trans hsteps, hend⟩

end Search

/-! ## The answers down to the bytes -/

def Error.ofFile : cursor_file.Error file_io.Failure → Error
  | .eof => .eof
  | .failed (.errno e) => .errno e
  | .failed .enter => .enter

/-- `Read` answers what it answers in the runs down to the bytes. -/
theorem orEof_eq_answer (mem : submit_queue.Memory) (b : Slice) (r : Result) :
    let a := file_io.answer mem (.read b) r
    orEof r = .returned a.count (a.error.map Error.ofFile) := by
  cases r with
  | count n =>
    by_cases hn : n = 0
    · simp [orEof, ofResult, file_io.answer, Error.ofFile, hn]
    · simp [orEof, ofResult, file_io.answer, hn]
  | errno e => rfl
  | enterFailed => rfl

/-- And so does `Write`. -/
theorem ofResult_eq_answer (mem : submit_queue.Memory) (addr : UInt64) (data : List UInt8)
    (r : Result) :
    let a := file_io.answer mem (.write addr data) r
    ofResult r = .returned a.count (a.error.map Error.ofFile) := by
  cases r with
  | count n => rfl
  | errno e => rfl
  | enterFailed => rfl

/-! ## Short transfers -/

/-- The calls that have to transfer their whole buffer or to return an error. -/
inductive Whole where
  | write
  | writeAt (o : Int64)
  | readAt (o : Int64)
  deriving DecidableEq, Repr

/-- The call, where the kernel leaves the contents `file` and gives the reply. -/
def Whole.call (s : State ω) (b : Slice) (file : ω) (reply : Reply) : Whole → Done ω
  | .write => s.write b fun _ _ => (file, reply)
  | .writeAt o => s.writeAt b o fun _ _ => (file, reply)
  | .readAt o => s.readAt b o fun _ _ => reply

def Whole.reads : Whole → Bool
  | .readAt _ => true
  | _ => false

/-- A count below the length of the buffer comes with an error. -/
def ShortReported (b : Slice) (a : Answer) : Prop :=
  ∀ n err, a = .returned n err → n < b.len → err ≠ none

theorem entry_of_pos {op : Opcode} {fd : Int32} {b : Slice} {offset : UInt64} (hb : 0 < b.len) :
    ∃ e, entry op fd b offset = some e ∧ e.len = UInt32.ofNat b.len := by
  unfold entry prepareTransfer Slice.first
  rw [if_pos hb]
  exact ⟨_, rfl, rfl⟩

/-- A call with a buffer sends its length, as far as `Len` holds it, and makes its answer
of the result of `getCqe`. -/
theorem Whole.call_of_pos (c : Whole) (s : State ω) {b : Slice} (hb : 0 < b.len) (file : ω)
    (reply : Reply) :
    (∃ e, (c.call s b file reply).sent = some e ∧ e.len = UInt32.ofNat b.len) ∧
      (c.call s b file reply).answer =
        if c.reads then orEof (getCqe s.fOffset reply).1
        else ofResult (getCqe s.fOffset reply).1 := by
  cases c with
  | write =>
    obtain ⟨e, he, hlen⟩ := @entry_of_pos .write s.fd b s.fOffset.toUInt64 hb
    simp only [Whole.call, State.write, State.submit, he, Whole.reads]
    exact ⟨⟨e, rfl, hlen⟩, rfl⟩
  | writeAt o =>
    obtain ⟨e, he, hlen⟩ := @entry_of_pos .write s.fd b o.toUInt64 hb
    simp only [Whole.call, State.writeAt, State.submit, he, Whole.reads]
    exact ⟨⟨e, rfl, hlen⟩, rfl⟩
  | readAt o =>
    obtain ⟨e, he, hlen⟩ := @entry_of_pos .read s.fd b o.toUInt64 hb
    simp only [Whole.call, State.readAt, State.submit, he, Whole.reads]
    exact ⟨⟨e, rfl, hlen⟩, rfl⟩

theorem shortReported_some (b : Slice) (n : Int) (err : Error) :
    ShortReported b (.returned n (some err)) := by
  rintro n err ⟨⟩ -
  exact Option.some_ne_none _

theorem shortReported_none {b : Slice} {n : Int} :
    ShortReported b (.returned n none) ↔ b.len ≤ n := by
  constructor
  · intro h
    by_contra hlt
    exact h n none rfl (by omega) rfl
  · rintro hle n err ⟨⟩ hlt
    omega

/-- For every buffer with at least one byte and of any length, and any number of bytes up
to `Len` of the entry that the kernel transfers: `Write`, `WriteAt` and `ReadAt` return an
error with each count below the length of the buffer, exactly if
- the kernel has transferred all of the buffer;
- or so much that `Res` is negative, which is taken for an error;
- or nothing, and the call is `ReadAt`, which returns `io.EOF`. -/
theorem short_transfers_are_reported_iff (c : Whole) (s : State ω) (b : Slice) (hb : 0 < b.len)
    (k : Nat) (file : ω) (data : List UInt8)
    (hk : ∀ e ∈ (c.call s b file (.done (.ofNat k) data)).sent, k ≤ e.len.toNat) :
    ShortReported b (c.call s b file (.done (.ofNat k) data)).answer ↔
      k = b.len ∨ 2 ^ 31 ≤ k ∨ (k = 0 ∧ c.reads = true) := by
  obtain ⟨⟨e, hsent, hlen⟩, hanswer⟩ := c.call_of_pos s hb file (.done (.ofNat k) data)
  have hfit : k ≤ b.len ∧ k < 2 ^ 32 := by
    have hle := hk e hsent
    rw [hlen, UInt32.toNat_ofNat'] at hle
    omega
  have hres : (Int32.ofNat k).toInt = if k < 2 ^ 31 then (k : Int) else k - 2 ^ 32 := by
    rw [Int32.toInt_ofNat', show Int32.size = 2 ^ 32 from rfl, Int.bmod_def]
    split_ifs <;> omega
  have hneg : Int32.ofNat k < 0 ↔ 2 ^ 31 ≤ k := by
    rw [Int32.lt_iff_toInt_lt, hres, Int32.toInt_zero]
    split_ifs <;> omega
  rw [hanswer]
  by_cases hbig : 2 ^ 31 ≤ k
  · -- the result is an error to every call
    simp only [getCqe, hneg, hbig, if_true, true_or, or_true, iff_true]
    split_ifs
    · exact shortReported_some _ _ _
    · exact shortReported_some _ _ _
  · rw [if_pos (by omega)] at hres
    simp only [getCqe, hneg, hbig, if_false, hres, false_or, orEof, ofResult]
    cases hreads : c.reads with
    | false =>
      simp only [Bool.false_eq_true, if_false, and_false, or_false]
      rw [shortReported_none]
      omega
    | true =>
      by_cases hk0 : k = 0
      · simp only [hk0, Nat.cast_zero, if_true, and_self, or_true, iff_true]
        exact shortReported_some _ _ _
      · have hk0' : (k : Int) ≠ 0 := by omega
        simp only [hk0, hk0', if_true, if_false, false_and, or_false]
        rw [shortReported_none]
        omega

/-- A `Write` of ten bytes, all of which are transferred. -/
theorem a_whole_write_is_reported :
    ShortReported ⟨4096, 10⟩ (Whole.write.call ⟨3, 0, ()⟩ ⟨4096, 10⟩ () (.done 10 [])).answer :=
  (short_transfers_are_reported_iff .write ⟨3, 0, ()⟩ ⟨4096, 10⟩ (by decide) 10 () []
    (by decide)).mpr (Or.inl rfl)

/-- A `Write` of ten bytes returns 4 and no error when the kernel has taken four; and a
`WriteAt` of 2^32 bytes asks for none and returns 0 and no error. -/
theorem a_short_write_returns_nil :
    (Whole.write.call ⟨3, 0, ()⟩ ⟨4096, 10⟩ () (.done 4 [])).answer = .returned 4 none ∧
      ¬ ShortReported ⟨4096, 10⟩ (.returned 4 none) ∧
      ((Whole.writeAt 0).call ⟨3, 0, ()⟩ ⟨4096, 2 ^ 32⟩ () (.done 0 [])).answer =
        .returned 0 none ∧
      ((Whole.writeAt 0).call ⟨3, 0, ()⟩ ⟨4096, 2 ^ 32⟩ () (.done 0 [])).sent.map (·.len) =
        some 0 := by
  refine ⟨by decide, ?_, by decide⟩
  rw [shortReported_none]
  decide

end iouring.fio_calls
