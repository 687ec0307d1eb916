-- A `ringFIO` that one goroutine uses is a file with a cursor. One operation is
-- under way at a time, so each phase of it says how far the file, the memory and
-- the cursor have come.
import Iouring.FileIo
import Iouring.FioCursor

open counter machine
open cursor_file (Answer Event File Op Outcome exec overwrite slice)
open iouring.completion_queue (CompletionEntry errnoOf)
open iouring.fio_cursor (stored stored_of_hit)
open iouring.ring_fio (FioInv Pc WrittenStep)
open iouring.submit_queue (EnterGetEvents FieldWrite Loaded Memory Opcode Ready Slice SubmitEntry
  filledEntry opStep)

namespace iouring.submit_queue

/-! ## Bytes in memory -/

theorem Memory.length_bytes (mem : Memory) (a : UInt64) (n : Nat) : (mem.bytes a n).length = n := by
  induction n generalizing a with
  | zero => rfl
  | succ n ih => rw [Memory.bytes, List.length_cons, ih]

theorem Memory.take_bytes (mem : Memory) (a : UInt64) {k n : Nat} (h : k ≤ n) :
    (mem.bytes a n).take k = mem.bytes a k := by
  induction k generalizing a n with
  | zero => rfl
  | succ k ih =>
    obtain ⟨n, rfl⟩ : ∃ j, n = j + 1 := ⟨n - 1, by omega⟩
    rw [Memory.bytes, Memory.bytes, List.take_succ_cons, ih _ (by omega)]

/-- What was copied to an address is read there, from any place in it on. -/
theorem Memory.bytes_store_from (mem : Memory) (a : UInt64) {bytes : List UInt8} {j k : Nat}
    (hlen : bytes.length ≤ 2 ^ 64) (hk : j + k = bytes.length) :
    (mem.store a bytes).bytes (a + UInt64.ofNat j) k = bytes.drop j := by
  induction k generalizing j with
  | zero => simp [Memory.bytes, ← hk]
  | succ k ih =>
    have hj : j < bytes.length := by omega
    have hat : (a + UInt64.ofNat j - a).toNat = j := by
      rw [UInt64.add_comm, UInt64.add_sub_cancel, UInt64.toNat_ofNat']
      exact Nat.mod_eq_of_lt (by omega)
    have hnext : a + UInt64.ofNat j + 1 = a + UInt64.ofNat (j + 1) := by
      rw [UInt64.ofNat_add, UInt64.add_assoc]
      rfl
    rw [Memory.bytes, hnext, ih (by omega), Memory.store, hat, List.getElem?_eq_getElem hj,
      Option.getD_some, List.drop_eq_getElem_cons hj]

theorem Memory.bytes_store (mem : Memory) (a : UInt64) {bytes : List UInt8}
    (hlen : bytes.length ≤ 2 ^ 64) : (mem.store a bytes).bytes a bytes.length = bytes := by
  have h := mem.bytes_store_from a hlen (Nat.zero_add bytes.length)
  rwa [List.drop_zero, show a + UInt64.ofNat 0 = a from UInt64.add_zero a] at h

end iouring.submit_queue

namespace iouring.file_io

/-! ## The law and the steps that keep it -/

/-- The calls that have returned got the answers of a file with a cursor; between
two calls its contents and its cursor are those of the file; and where all calls
were reads, they got the contents from the start on, each byte once and in order,
and all of them if one of them has answered `io.EOF`. -/
def Refines (contents : List UInt8) (s : State) : Prop :=
  ∃ f, run cursor_file.step ⟨contents, 0⟩ s.log = some f ∧
    (s.call = none → f.bytes = s.file ∧ (f.cursor : Int) = s.fOffset.toInt) ∧
    ((∀ e ∈ s.log, e.op.isRead = true) →
      s.log.flatMap (·.answer.data) = contents.take f.cursor ∧
      ((∃ e ∈ s.log, e.answer.error = some .eof) → s.log.flatMap (·.answer.data) = contents))

/-- No transfer gets the id 0, and no `Enter` fails. -/
def Faultless (s : State) : Act → Prop
  | .call (.read _) | .call (.write _ _) => s.idx + 1 ≠ 0
  | .enterFails => False
  | _ => True

instance (s : State) : ∀ a, Decidable (Faultless s a)
  | .call (.read _) | .call (.write _ _) => inferInstanceAs (Decidable (s.idx + 1 ≠ 0))
  | .enterFails => inferInstanceAs (Decidable False)
  | .call (.seekStart _) | .call (.seekCurrent _) | .enter | .execute _ _ _ | .refuse _ _ _
  | .completer | .step => isTrue trivial

/-! ## The entry of a call -/

/-- The opcode and the buffer of a transfer. -/
def Call.buffer : Call → Option (Opcode × Slice)
  | .read b => some (.read, b)
  | .write addr data => some (.write, ⟨addr, data.length⟩)
  | .seekStart _ | .seekCurrent _ => none

/-- The data of a write are in its buffer. -/
def Call.Filled (mem : Memory) : Call → Prop
  | .write addr data => mem.bytes addr data.length = data
  | _ => True

/-- The entry asks for the transfer of a buffer at the cursor. -/
structure Asks (fd : Int32) (e : SubmitEntry) (op : Opcode) (b : Slice) (fOffset : Int64)
    (id : UInt64) : Prop where
  opcode : e.opcode = op.code
  userData : e.userData = id
  fd : e.fd = fd
  len : e.len = UInt32.ofNat b.len
  offset : e.offset = fOffset.toUInt64
  addr : e.addr = b.data

/-- What a call writes to the entry asks for its transfer, whatever was there. -/
theorem Call.prepare_asks {fd : Int32} {fOffset : Int64} {id : UInt64} {c : Call}
    {ws : List FieldWrite} (h : c.prepare fd fOffset id = some ws) :
    ∃ op b, c.buffer = some (op, b) ∧ ∀ e, Asks fd (filledEntry e ws) op b fOffset id := by
  cases c with
  | read b =>
    obtain ⟨first, hfirst, rfl⟩ := Option.map_eq_some_iff.mp h
    simp only [Slice.first, Option.ite_none_right_eq_some, Option.some.injEq] at hfirst
    obtain ⟨-, rfl⟩ := hfirst
    exact ⟨.read, b, rfl, fun e => ⟨rfl, rfl, rfl, rfl, rfl, rfl⟩⟩
  | write addr data =>
    obtain ⟨first, hfirst, rfl⟩ := Option.map_eq_some_iff.mp h
    simp only [Slice.first, Option.ite_none_right_eq_some, Option.some.injEq] at hfirst
    obtain ⟨-, rfl⟩ := hfirst
    exact ⟨.write, _, rfl, fun e => ⟨rfl, rfl, rfl, rfl, rfl, rfl⟩⟩
  | seekStart o => cases h
  | seekCurrent d => cases h

theorem Call.filled_fill {c : Call} {fOffset : Int64} (hok : c.Ok fOffset) (mem : Memory) :
    c.Filled (c.fill mem) := by
  cases c with
  | write addr data =>
    apply Memory.bytes_store
    have := hok.2
    omega
  | _ => trivial

/-! ## The phases of a call -/

/-- A transfer is under way, and the kernel has not executed it. -/
structure Pending (s : State) (f : File UInt8) (c : Call) (op : Opcode) (b : Slice) (id : UInt64) :
    Prop where
  call : s.call = some c
  buffer : c.buffer = some (op, b)
  len : b.len < 2 ^ 32
  filled : c.Filled s.mem
  bytes : f.bytes = s.file
  cursor : (f.cursor : Int) = s.fOffset.toInt
  new : id ∉ s.fio.queue.posted.map (·.userData)

/-- The call is about to enter. -/
def entering : Pc → Bool
  | .enter _ => true
  | _ => false

/-- The kernel has executed the transfer and posted `cqe`: the file with the cursor
has gone from `f` to `f'`, and the answer will be the one it gave. -/
structure Executed (s : State) (f f' : File UInt8) (c : Call) (cqe : CompletionEntry) : Prop where
  call : s.call = some c
  exec : ∃ o, s.outcome = some o ∧
    exec f c.op o = some (f', answer s.mem c (ring_fio.decode cqe))
  posted : cqe ∈ s.fio.queue.posted
  bytes : f'.bytes = s.file
  moves : (f'.cursor : Int) = f.cursor + if cqe.res < 0 then 0 else cqe.res.toInt
  fits : f'.cursor < 2 ^ 63
  cursor : s.fOffset.toInt = if stored (s.fio.pc ()) then (f'.cursor : Int) else f.cursor
  load : ∀ c x cqe offset, s.fio.pc () = .storeOffset c x cqe offset → offset = s.fOffset

inductive Phase (zs : Size) (fd : Int32) (s : State) (f : File UInt8) : Prop
  | idle (m : Nat) (hcall : s.call = none) (hpc : s.fio.pc () = .idle) (hkernel : s.kernel = [])
      (hsq : Ready zs s.sq m) (hbytes : f.bytes = s.file)
      (hcursor : (f.cursor : Int) = s.fOffset.toInt)
  | submitted (m : Nat) (c : Call) (op : Opcode) (b : Slice) (id : UInt64) (e : SubmitEntry)
      (hpending : Pending s f c op b id) (hpc : s.fio.pc () = .enter ⟨0, id, 1, 1⟩)
      (hkernel : s.kernel = []) (hsq : Loaded zs s.sq m e)
      (hasks : Asks fd e op b s.fOffset id)
  | waiting (c : Call) (op : Opcode) (b : Slice) (id : UInt64)
      (hpending : Pending s f c op b id) (hpc : (s.fio.pc ()).call = some ⟨0, id, 1, 1⟩)
      (hinside : entering (s.fio.pc ()) = false)
      (hkernel : s.kernel = [] ∨
        ∃ m e, s.kernel = [e] ∧ Ready zs s.sq m ∧ Asks fd e op b s.fOffset id)
  | executed (m : Nat) (c : Call) (f' : File UInt8) (cqe : CompletionEntry)
      (hexecuted : Executed s f f' c cqe)
      (hpc : (s.fio.pc ()).call = some ⟨0, cqe.userData, 1, 1⟩)
      (hinside : entering (s.fio.pc ()) = false) (hkernel : s.kernel = [])
      (hsq : Ready zs s.sq m)

structure FileInv (zs zc : Size) (fd : Int32) (contents : List UInt8) (s : State) : Prop where
  fio : FioInv zc s.fio
  asked : ∀ id ∈ s.fio.asked, id ≠ 0 ∧ id.toNat ≤ s.idx.toNat
  posted : ∀ cqe ∈ s.fio.queue.posted, cqe.userData ∈ s.fio.asked
  length : s.file.length < 2 ^ 63
  nonneg : 0 ≤ s.fOffset.toInt
  replay : ∃ f, run cursor_file.step ⟨contents, 0⟩ s.log = some f ∧ Phase zs fd s f

variable {zs zc : Size} {fd : Int32} {contents : List UInt8} {s s' : State}

theorem fileInv_init (zs zc : Size) (fd : Int32) (idx : UInt64) {contents : List UInt8}
    (hlen : contents.length < 2 ^ 63) (mem : Memory) :
    FileInv zs zc fd contents (init idx contents mem) where
  fio := ring_fio.fioInv_init zc
  asked := fun _ h => by cases h
  posted := fun _ h => by cases h
  length := hlen
  nonneg := Int.le_refl 0
  replay := ⟨⟨contents, 0⟩, rfl, .idle 0 rfl rfl rfl (submit_queue.ready_init zs) rfl rfl⟩

/-- The ids are not 0, so no step compares an unwritten slot with 0. -/
theorem FileInv.written (hi : FileInv zs zc fd contents s) : WrittenStep s.fio (.step ()) := by
  unfold WrittenStep ring_fio.looksBlank
  cases hlooks : (s.fio.pc ()).looks with
  | none => simp only [hlooks]
  | some l =>
    obtain ⟨c, x⟩ := l
    have hid := (hi.asked _ (hi.fio.asked (Pc.call_of_looks hlooks))).1
    simp only [hlooks, hid, decide_false, Bool.false_and]

/-- A `Seek` of the file with the cursor goes to the place that is stored. -/
theorem Call.exec_seek {f : File UInt8} {c : Call} {fOffset o : Int64}
    (hcursor : (f.cursor : Int) = fOffset.toInt) (hok : c.Ok fOffset)
    (hseek : c.seek fOffset = some o) :
    ∃ n : Nat, (n : Int) = o.toInt ∧
      exec f c.op (.done 0 : Outcome Failure) = some ({ f with cursor := n }, ⟨0, none, []⟩) := by
  cases c with
  | read b => cases hseek
  | write addr data => cases hseek
  | seekStart p =>
    cases hseek
    exact ⟨o.toInt.toNat, Int.toNat_of_nonneg hok, rfl⟩
  | seekCurrent d =>
    cases hseek
    have hsum : (fOffset + d).toInt = fOffset.toInt + d.toInt := by
      have h1 : 0 ≤ (fOffset + d).toInt := hok
      have h2 := fOffset.toInt_lt
      have h3 := d.toInt_lt
      have h4 := d.le_toInt
      rw [Int64.toInt_add, Int.bmod_def] at h1 ⊢
      omega
    have hle : 0 ≤ (f.cursor : Int) + d.toInt := by
      rw [hcursor, ← hsum]
      exact hok
    refine ⟨((f.cursor : Int) + d.toInt).toNat, ?_, ?_⟩
    · rw [Int.toNat_of_nonneg hle, hcursor, hsum]
    · simp only [Call.op, exec, hle, if_true]

/-- A call starts only between two calls. -/
theorem Phase.of_no_call {f : File UInt8} (h : Phase zs fd s f) (hcall : s.call = none) :
    s.fio.pc () = .idle ∧ s.kernel = [] ∧ (∃ m, Ready zs s.sq m) ∧ f.bytes = s.file ∧
      (f.cursor : Int) = s.fOffset.toInt := by
  cases h with
  | idle m _ hpc hkernel hsq hbytes hcursor => exact ⟨hpc, hkernel, ⟨m, hsq⟩, hbytes, hcursor⟩
  | submitted _ _ _ _ _ _ hpending => cases hcall.symm.trans hpending.call
  | waiting _ _ _ _ hpending => cases hcall.symm.trans hpending.call
  | executed _ _ _ _ hexecuted => cases hcall.symm.trans hexecuted.call

theorem FileInv.seek (hi : FileInv zs zc fd contents s) {c : Call} {o : Int64}
    (hcall : s.call = none) (hok : c.Ok s.fOffset) (hseek : c.seek s.fOffset = some o) :
    FileInv zs zc fd contents { s with
      fio := { s.fio with fOffset := Function.update s.fio.fOffset 0 o }
      log := s.log ++ [⟨c.op, some (.done 0), ⟨0, none, []⟩⟩] } := by
  obtain ⟨f, hrun, hphase⟩ := hi.replay
  obtain ⟨hpc, hkernel, ⟨m, hsq⟩, hbytes, hcursor⟩ := hphase.of_no_call hcall
  obtain ⟨n, hn, hexec⟩ := Call.exec_seek hcursor hok hseek
  refine ⟨{ hi.fio with }, hi.asked, hi.posted, hi.length, ?_, { f with cursor := n }, ?_, ?_⟩
  · simp only [State.fOffset, Function.update_self]
    omega
  · exact run_append_of hrun (run_cons_of (cursor_file.step_of_exec hexec) rfl)
  · refine .idle m hcall hpc hkernel hsq hbytes ?_
    simp only [State.fOffset, Function.update_self]
    exact hn

/-- A call of `Read` or `Write` puts its entry into the queue. -/
theorem FileInv.start (hi : FileInv zs zc fd contents s) {c : Call} (hcall : s.call = none)
    (hok : c.Ok s.fOffset) (hid : s.idx + 1 ≠ 0) (hs : start zs fd s c = some s') :
    FileInv zs zc fd contents s' := by
  obtain ⟨f, hrun, hphase⟩ := hi.replay
  obtain ⟨hpc, hkernel, ⟨m, hsq⟩, hbytes, hcursor⟩ := hphase.of_no_call hcall
  obtain ⟨ws, hws, hs⟩ := Option.bind_eq_some_iff.mp hs
  obtain ⟨q, hq, rfl⟩ := Option.map_eq_some_iff.mp hs
  rw [(submit_queue.opStep_quiet zs hsq.quiet _).1] at hq
  cases hq
  obtain ⟨op, b, hbuffer, hasks⟩ := Call.prepare_asks hws
  have hnext : (s.idx + 1).toNat = s.idx.toNat + 1 := by
    have h1 := s.idx.toNat_lt
    rw [UInt64.toNat_add, UInt64.toNat_one]
    apply Nat.mod_eq_of_lt
    by_contra hge
    apply hid
    rw [← UInt64.toNat_inj, UInt64.toNat_add, UInt64.toNat_one, UInt64.toNat_zero]
    omega
  have hnew : s.idx + 1 ∉ s.fio.asked := by
    intro hmem
    have := (hi.asked _ hmem).2
    omega
  have hlen : b.len < 2 ^ 32 := by
    cases c with
    | read b' => cases hbuffer; exact hok.2
    | write addr data => cases hbuffer; exact hok.2
    | seekStart o => cases hbuffer
    | seekCurrent d => cases hbuffer
  have hfio := hi.fio.start (g := ()) (c := ⟨0, s.idx + 1, 1, 1⟩) (p := .enter _) hnew rfl trivial
    rfl
  refine ⟨hfio, ?_, ?_, hi.length, hi.nonneg, f, hrun, ?_⟩
  · refine List.forall_mem_append.mpr ⟨fun id hmem => ?_, List.forall_mem_singleton.mpr ?_⟩
    · have := hi.asked id hmem
      exact ⟨this.1, by simp only [hnext]; omega⟩
    · exact ⟨hid, Nat.le_refl _⟩
  · exact fun cqe hcqe => List.mem_append_left _ (hi.posted cqe hcqe)
  · refine .submitted m c op b (s.idx + 1) _ ⟨rfl, hbuffer, hlen, ?_, hbytes, hcursor, ?_⟩
      (by simp [ring_fio.State.goto]) hkernel (hsq.round () ws) (hasks _)
    · exact Call.filled_fill hok s.mem
    · intro hmem
      obtain ⟨cqe, hcqe, heq⟩ := List.mem_map.mp hmem
      exact hnew (heq ▸ hi.posted cqe hcqe)

/-- The `Enter` of the call hands its entry to the kernel, or nothing. -/
theorem FileInv.enter (hi : FileInv zs zc fd contents s) {c : ring_fio.Call}
    {q : submit_queue.State Unit} (hpc : s.fio.pc () = .enter c)
    (hq : opStep zs s.sq (.enter () ⟨1, 1, EnterGetEvents⟩) = some q) :
    FileInv zs zc fd contents { s with
      sq := q
      fio := s.fio.goto () (.loadHead c)
      kernel := s.kernel ++ (q.hist.executed.drop s.sq.hist.executed.length).map (·.2) } := by
  obtain ⟨f, hrun, hphase⟩ := hi.replay
  have hfio : FioInv zc (s.fio.goto () (.loadHead c)) := by
    apply ring_fio.fioInv_move hi.fio hi.written
    apply ring_fio.stepPc_move
    simp only [ring_fio.stepPc, hpc]
  refine ⟨hfio, hi.asked, hi.posted, hi.length, hi.nonneg, f, hrun, ?_⟩
  cases hphase with
  | idle m _ hpc' => rw [hpc] at hpc'; cases hpc'
  | waiting _ _ _ _ _ _ hinside => rw [hpc] at hinside; cases hinside
  | executed _ _ _ _ _ _ hinside => rw [hpc] at hinside; cases hinside
  | submitted m c' op b id e hpending hpc' hkernel hsq hasks =>
    rw [hpc] at hpc'
    cases hpc'
    rw [(submit_queue.opStep_quiet zs hsq.quiet _).1] at hq
    cases hq
    refine .waiting c' op b id { hpending with } (by simp [ring_fio.State.goto, Pc.call])
      (by simp [ring_fio.State.goto, entering]) ?_
    rcases hsq.enter with hsame | ⟨hexecuted, hready⟩
    · left
      simp only [submit_queue.afterOp, hsame, hkernel, List.drop_length]
      rfl
    · right
      refine ⟨m + 1, e, ?_, hready, hasks⟩
      simp only [submit_queue.afterOp, hexecuted, hkernel, List.drop_left]
      rfl

/-! ## The kernel -/

/-- The offset in the entry is the cursor. -/
theorem offset_toNat {f : File UInt8} {fOffset : Int64}
    (hcursor : (f.cursor : Int) = fOffset.toInt) : fOffset.toUInt64.toNat = f.cursor := by
  have hle : 0 ≤ fOffset := by
    rw [Int64.le_iff_toInt_le, ← hcursor]
    exact Int.natCast_nonneg _
  rw [Int64.toNat_toUInt64_of_le hle]
  show fOffset.toInt.toNat = f.cursor
  omega

/-- A count that the kernel returns is no error. -/
theorem ofNat_nonneg {k : Nat} (hk : k < 2 ^ 31) : ¬ Int32.ofNat k < 0 := by
  rw [Int32.lt_iff_toInt_lt, Int32.toInt_ofNat_of_lt hk]
  simp

theorem Pending.cursor_lt {f : File UInt8} {c : Call} {op : Opcode} {b : Slice} {id : UInt64}
    (h : Pending s f c op b id) : f.cursor < 2 ^ 63 := by
  have h1 := h.cursor
  have h2 := s.fOffset.toInt_lt
  omega

/-- A transfer by the kernel is the call of the file with the cursor. -/
theorem exec_transfer {f : File UInt8} {c : Call} {op : Opcode} {b : Slice} {e : SubmitEntry}
    {id : UInt64} {k : Nat} {file : List UInt8} {mem : Memory} {flags : UInt32}
    (hpending : Pending s f c op b id) (hasks : Asks fd e op b s.fOffset id)
    (hlen : s.file.length < 2 ^ 63) (h : transfer fd s.file s.mem e k = some (file, mem)) :
    exec f c.op (.done k) =
        some (⟨file, f.cursor + k⟩, answer mem c (ring_fio.decode ⟨id, .ofNat k, flags⟩)) ∧
      k < 2 ^ 31 ∧ f.cursor + k < 2 ^ 63 ∧ file.length < 2 ^ 63 := by
  have hoffset := offset_toNat hpending.cursor
  have hblen : (UInt32.ofNat b.len).toNat = b.len := by
    rw [UInt32.toNat_ofNat']
    exact Nat.mod_eq_of_lt hpending.len
  have hcursor := hpending.cursor_lt
  simp only [transfer, hasks.offset, hasks.len, hasks.fd, hasks.opcode, hasks.addr, hoffset, hblen,
    Option.ite_none_right_eq_some, true_and] at h
  obtain ⟨⟨hk, hk31⟩, h⟩ := h
  have hcount : ring_fio.decode ⟨id, .ofNat k, flags⟩ = .count k := by
    simp only [ring_fio.decode, ofNat_nonneg hk31, if_false, Int32.toInt_ofNat_of_lt hk31]
  rw [hcount]
  cases c with
  | read b' =>
    cases hpending.buffer
    simp only [if_true, Option.ite_none_right_eq_some, Option.some.injEq, Prod.mk.injEq,
      ← hpending.bytes] at h
    obtain ⟨hend, rfl, rfl⟩ := h
    have hfits : f.cursor + k < 2 ^ 63 := by
      rw [← hpending.bytes] at hlen
      split at hend <;> omega
    refine ⟨?_, hk31, hfits, by rw [hpending.bytes]; exact hlen⟩
    rw [Call.op, exec, if_pos ⟨hk, hend⟩]
    by_cases hzero : k = 0
    · subst hzero
      simp [answer]
    · rw [if_neg hzero] at hend
      have hdata : (s.mem.store b.data (slice f.bytes f.cursor k)).bytes b.data k =
          slice f.bytes f.cursor k := by
        have hlength := cursor_file.length_slice hend
        have hread := @Memory.bytes_store s.mem b.data (slice f.bytes f.cursor k) (by omega)
        rwa [hlength] at hread
      simp [answer, hzero, hdata]
  | write addr data =>
    cases hpending.buffer
    have hne : Opcode.write.code ≠ Opcode.read.code := by decide
    simp only [hne, if_false, true_and, Option.ite_none_right_eq_some, Option.some.injEq,
      Prod.mk.injEq, ← hpending.bytes] at h
    obtain ⟨hfits, rfl, rfl⟩ := h
    have hdata : s.mem.bytes addr k = data.take k := by
      rw [← s.mem.take_bytes addr hk, hpending.filled]
    refine ⟨?_, hk31, hfits, ?_⟩
    · rw [Call.op, exec, if_pos hk, hdata]
      rfl
    · rw [← hpending.bytes] at hlen
      apply cursor_file.length_overwrite_lt hlen
      rw [Memory.length_bytes]
      exact hfits
  | seekStart o => cases hpending.buffer
  | seekCurrent d => cases hpending.buffer

/-- As long as the kernel has not executed a transfer, the call finds nothing. -/
theorem Pending.no_hit {f : File UInt8} {c : Call} {op : Opcode} {b : Slice} {id : UInt64}
    (h : Pending s f c op b id) (hfio : FioInv zc s.fio)
    (hpc : (s.fio.pc ()).call = some ⟨0, id, 1, 1⟩) : (s.fio.pc ()).hit = none := by
  cases hhit : (s.fio.pc ()).hit with
  | none => rfl
  | some y =>
    obtain ⟨c', x, cqe⟩ := y
    obtain ⟨-, hposted, hid, -⟩ := hfio.hit_posted hpc hhit
    exact absurd (List.mem_map.mpr ⟨cqe, hposted, hid⟩) h.new

/-- The kernel posts the completion of the transfer it has executed. -/
theorem FileInv.post (hi : FileInv zs zc fd contents s) {m : Nat} {f f' : File UInt8} {c : Call}
    {op : Opcode} {b : Slice} {id : UInt64} {e : SubmitEntry} {o : Outcome Failure}
    {file : List UInt8} {mem : Memory} {res : Int32} {flags : UInt32}
    (hrun : run cursor_file.step ⟨contents, 0⟩ s.log = some f) (hpending : Pending s f c op b id)
    (hpc : (s.fio.pc ()).call = some ⟨0, id, 1, 1⟩) (hinside : entering (s.fio.pc ()) = false)
    (hkernel : s.kernel = [e]) (hsq : Ready zs s.sq m) (hid : e.userData = id)
    (hexec : exec f c.op o = some (f', answer mem c (ring_fio.decode ⟨id, res, flags⟩)))
    (hmoves : (f'.cursor : Int) = f.cursor + if res < 0 then 0 else res.toInt)
    (hfits : f'.cursor < 2 ^ 63) (hbytes : f'.bytes = file) (hlength : file.length < 2 ^ 63)
    (hs : post zc { s with file := file, mem := mem, outcome := some o } 0 e res flags =
      some s') : FileInv zs zc fd contents s' := by
  subst hid
  obtain ⟨q, hq, rfl⟩ := Option.map_eq_some_iff.mp hs
  have hpost := completion_queue.post_iff.mpr ⟨hpending.new, hq⟩
  have hfio := ring_fio.fioInv_move hi.fio (a := .post _) rfl (.post hpost)
  have hhit := hpending.no_hit hi.fio hpc
  obtain ⟨-, rfl⟩ := completion_queue.publish_eq hq
  refine ⟨hfio, hi.asked, ?_, hlength, hi.nonneg, f, hrun, ?_⟩
  · exact List.forall_mem_append.mpr ⟨hi.posted, List.forall_mem_singleton.mpr (hi.fio.asked hpc)⟩
  · refine .executed m c f' ⟨e.userData, res, flags⟩ ⟨hpending.call, ⟨o, rfl, hexec⟩, by simp,
      hbytes, hmoves, hfits, ?_, ?_⟩ hpc hinside (by simp [hkernel]) hsq
    · simp only [stored_of_hit hhit, Bool.false_eq_true, if_false]
      exact hpending.cursor.symm
    · intro c' x cqe offset hat
      rw [show s.fio.pc () = _ from hat] at hhit
      cases hhit

/-- The kernel holds one entry at most, that of the call. -/
theorem FileInv.kernel (hi : FileInv zs zc fd contents s) {i : Nat} {e : SubmitEntry}
    (he : s.kernel[i]? = some e) :
    ∃ m f c op b id, run cursor_file.step ⟨contents, 0⟩ s.log = some f ∧ Pending s f c op b id ∧
      (s.fio.pc ()).call = some ⟨0, id, 1, 1⟩ ∧ entering (s.fio.pc ()) = false ∧
      s.kernel = [e] ∧ i = 0 ∧ Ready zs s.sq m ∧ Asks fd e op b s.fOffset id := by
  have hnonempty : s.kernel ≠ [] := by
    intro hnil
    rw [hnil] at he
    cases he
  obtain ⟨f, hrun, hphase⟩ := hi.replay
  cases hphase with
  | idle _ _ _ hkernel => exact absurd hkernel hnonempty
  | submitted _ _ _ _ _ _ _ _ hkernel => exact absurd hkernel hnonempty
  | executed _ _ _ _ _ _ _ hkernel => exact absurd hkernel hnonempty
  | waiting c op b id hpending hpc hinside hkernel =>
    rcases hkernel with hnil | ⟨m, e', hone, hsq, hasks⟩
    · exact absurd hnil hnonempty
    · rw [hone] at he
      cases i with
      | zero =>
        cases he
        exact ⟨m, f, c, op, b, id, hrun, hpending, hpc, hinside, hone, rfl, hsq, hasks⟩
      | succ i => cases he

theorem FileInv.execute (hi : FileInv zs zc fd contents s) {i k : Nat} {flags : UInt32}
    (hs : step zs zc fd s (.execute i k flags) = some s') : FileInv zs zc fd contents s' := by
  obtain ⟨e, he, hs⟩ := Option.bind_eq_some_iff.mp hs
  obtain ⟨⟨file, mem⟩, htransfer, hs⟩ := Option.bind_eq_some_iff.mp hs
  obtain ⟨m, f, c, op, b, id, hrun, hpending, hpc, hinside, hkernel, rfl, hsq, hasks⟩ :=
    hi.kernel he
  obtain ⟨hexec, hk, hfits, hlength⟩ := exec_transfer hpending hasks hi.length htransfer
  refine hi.post hrun hpending hpc hinside hkernel hsq hasks.userData hexec ?_ hfits rfl hlength hs
  rw [if_neg (ofNat_nonneg hk), Int32.toInt_ofNat_of_lt hk]
  exact Int.natCast_add ..

theorem FileInv.refuse (hi : FileInv zs zc fd contents s) {i : Nat} {res : Int32} {flags : UInt32}
    (hs : step zs zc fd s (.refuse i res flags) = some s') : FileInv zs zc fd contents s' := by
  simp only [step, Option.ite_none_right_eq_some] at hs
  obtain ⟨hres, hs⟩ := hs
  obtain ⟨e, he, hs⟩ := Option.bind_eq_some_iff.mp hs
  obtain ⟨m, f, c, op, b, id, hrun, hpending, hpc, hinside, hkernel, rfl, hsq, hasks⟩ :=
    hi.kernel he
  have hexec : exec f c.op (.fail (.errno (errnoOf res))) =
      some (f, answer s.mem c (ring_fio.decode ⟨id, res, flags⟩)) := by
    have hdecode : ring_fio.decode ⟨id, res, flags⟩ = .errno (errnoOf res) := by
      simp only [ring_fio.decode, hres, if_true]
    rw [hdecode]
    cases c with
    | read b' => rfl
    | write addr data => rfl
    | seekStart o => cases hpending.buffer
    | seekCurrent d => cases hpending.buffer
  refine hi.post hrun hpending hpc hinside hkernel hsq hasks.userData hexec ?_ hpending.cursor_lt
    hpending.bytes hi.length hs
  rw [if_pos hres, add_zero]

/-! ## The call -/

/-- A step that moves neither the cursor nor the file. -/
theorem Executed.frame {f f' : File UInt8} {c : Call} {cqe : CompletionEntry}
    (h : Executed s f f' c cqe) {fio : ring_fio.State Unit}
    (hposted : fio.queue.posted = s.fio.queue.posted) (hoffset : fio.fOffset = s.fio.fOffset)
    (hstored : stored (fio.pc ()) = stored (s.fio.pc ()))
    (hload : ∀ c x cqe offset, fio.pc () = .storeOffset c x cqe offset → offset = s.fOffset) :
    Executed { s with fio := fio } f f' c cqe := by
  have hcursor := h.cursor
  refine ⟨h.call, h.exec, ?_, h.bytes, h.moves, h.fits, ?_, ?_⟩
  · rw [hposted]
    exact h.posted
  · simp only [State.fOffset, hoffset, hstored] at hcursor ⊢
    exact hcursor
  · simp only [State.fOffset, hoffset] at hload ⊢
    exact hload

theorem Pending.frame {f : File UInt8} {c : Call} {op : Opcode} {b : Slice} {id : UInt64}
    (h : Pending s f c op b id) {fio : ring_fio.State Unit}
    (hposted : fio.queue.posted = s.fio.queue.posted) (hoffset : fio.fOffset = s.fio.fOffset) :
    Pending { s with fio := fio } f c op b id := by
  refine ⟨h.call, h.buffer, h.len, h.filled, h.bytes, ?_, ?_⟩
  · simp only [State.fOffset, hoffset]
    exact h.cursor
  · rw [hposted]
    exact h.new

/-- A step of the completer. -/
theorem FileInv.completer (hi : FileInv zs zc fd contents s) {q : completion_queue.State}
    (hq : completion_queue.completerStep zc s.fio.queue = some q) :
    FileInv zs zc fd contents { s with fio := { s.fio with queue := q } } := by
  have hposted := (completion_queue.completerStep_frame hq).1
  have hfio := ring_fio.fioInv_move hi.fio (a := .completer) rfl (.completer hq)
  obtain ⟨f, hrun, hphase⟩ := hi.replay
  refine ⟨hfio, hi.asked, by rw [hposted]; exact hi.posted, hi.length, hi.nonneg, f, hrun, ?_⟩
  cases hphase with
  | idle m hcall hpc hkernel hsq hbytes hcursor =>
    exact .idle m hcall hpc hkernel hsq hbytes hcursor
  | submitted m c op b id e hpending hpc hkernel hsq hasks =>
    exact .submitted m c op b id e (hpending.frame hposted rfl) hpc hkernel hsq hasks
  | waiting c op b id hpending hpc hinside hkernel =>
    exact .waiting c op b id (hpending.frame hposted rfl) hpc hinside hkernel
  | executed m c f' cqe hexecuted hpc hinside hkernel hsq =>
    exact .executed m c f' cqe (hexecuted.frame hposted rfl rfl hexecuted.load) hpc hinside
      hkernel hsq

/-- What the file has to show for a step of the call that leaves it running. -/
theorem FileInv.goes_on (hi : FileInv zs zc fd contents s) {fio : ring_fio.State Unit}
    (hfio : FioInv zc fio) (hposted : fio.queue.posted = s.fio.queue.posted)
    (hasked : fio.asked = s.fio.asked) (hnonneg : 0 ≤ (fio.fOffset 0).toInt) {f : File UInt8}
    (hrun : run cursor_file.step ⟨contents, 0⟩ s.log = some f)
    (hphase : Phase zs fd { s with fio := fio } f) :
    FileInv zs zc fd contents { s with fio := fio } := by
  refine ⟨hfio, ?_, ?_, hi.length, hnonneg, f, hrun, hphase⟩
  · rw [hasked]
    exact hi.asked
  · rw [hposted, hasked]
    exact hi.posted

/-- The call returns the answer of the file with the cursor. -/
theorem FileInv.returns (hi : FileInv zs zc fd contents s) {m : Nat} {f f' : File UInt8} {c : Call}
    {cqe : CompletionEntry} {fio : ring_fio.State Unit}
    (hrun : run cursor_file.step ⟨contents, 0⟩ s.log = some f) (hexecuted : Executed s f f' c cqe)
    (hkernel : s.kernel = []) (hsq : Ready zs s.sq m) (hfio : FioInv zc fio)
    (hpc : fio.pc () = .idle) (hposted : fio.queue.posted = s.fio.queue.posted)
    (hasked : fio.asked = s.fio.asked) (hoffset : fio.fOffset = s.fio.fOffset)
    (hresults : fio.results = s.fio.results ++ [(cqe.userData, ring_fio.decode cqe)])
    (hcursor : s.fOffset.toInt = f'.cursor) : FileInv zs zc fd contents (s.ret fio) := by
  obtain ⟨o, houtcome, hexec⟩ := hexecuted.exec
  have hret : s.ret fio = { s with
      fio := fio
      call := none
      outcome := none
      log := s.log ++ [⟨c.op, some o, answer s.mem c (ring_fio.decode cqe)⟩] } := by
    simp [State.ret, hexecuted.call, hresults, houtcome]
  rw [hret]
  refine ⟨hfio, ?_, ?_, hi.length, ?_, f', ?_, ?_⟩
  · rw [hasked]
    exact hi.asked
  · rw [hposted, hasked]
    exact hi.posted
  · simp only [State.fOffset, hoffset]
    exact hi.nonneg
  · exact run_append_of hrun (run_cons_of (cursor_file.step_of_exec hexec) rfl)
  · refine .idle m rfl hpc hkernel hsq hexecuted.bytes ?_
    simp only [State.fOffset, hoffset]
    exact hcursor.symm

/-- A call enters once, before its first step. -/
theorem not_entering {fio fio' : ring_fio.State Unit} (hs : ring_fio.stepPc zc fio () = some fio') :
    entering (fio'.pc ()) = false := by
  cases h : fio'.pc () with
  | enter c => exact absurd h (ring_fio.stepPc_ne_enter hs c)
  | _ => rfl

/-- A call whose transfer is not executed goes on searching. -/
theorem FileInv.step_waiting (hi : FileInv zs zc fd contents s) {f : File UInt8} {c : Call}
    {op : Opcode} {b : Slice} {id : UInt64} {fio : ring_fio.State Unit}
    (hrun : run cursor_file.step ⟨contents, 0⟩ s.log = some f) (hpending : Pending s f c op b id)
    (hpc : (s.fio.pc ()).call = some ⟨0, id, 1, 1⟩)
    (hkernel : s.kernel = [] ∨
      ∃ m e, s.kernel = [e] ∧ Ready zs s.sq m ∧ Asks fd e op b s.fOffset id)
    (hs : ring_fio.stepPc zc s.fio () = some fio) :
    fio.pc () ≠ .idle ∧ FileInv zs zc fd contents { s with fio := fio } := by
  have hm := ring_fio.stepPc_move hs
  have hfio := ring_fio.fioInv_move hi.fio hi.written hm
  have hhit := hpending.no_hit hi.fio hpc
  -- a slot with the id of the call would be a posted entry
  have hmiss : ∀ c' x, (s.fio.pc ()).looks = some (c', x) →
      (s.fio.queue.cq.entries x).userData ≠ c'.reqID := by
    intro c' x hlooks hid
    obtain ⟨-, p, hp, -⟩ := hi.fio.holds_of_match hi.written hlooks hid
    rw [Pc.call_of_looks hlooks] at hpc
    cases hpc
    exact hpending.new (List.mem_map.mpr ⟨_, List.mem_of_getElem? hp, hid⟩)
  cases hm with
  | @search g c' p hcall hp hrange hnohit =>
    cases g
    rw [hcall] at hpc
    cases hpc
    refine ⟨?_, hi.goes_on hfio rfl rfl hi.nonneg hrun ?_⟩
    · simp only [Function.update_self]
      rintro rfl
      cases hp
    · exact .waiting c op b id (hpending.frame rfl rfl) (by simpa using hp) (not_entering hs)
        hkernel
  | findError hlooks hid hres => exact absurd hid (hmiss _ _ hlooks)
  | find hlooks hid hres => exact absurd hid (hmiss _ _ hlooks)
  | loadOffset h => rw [h] at hhit; cases hhit
  | storeOffset h => rw [h] at hhit; cases hhit
  | complete h hq => rw [h] at hhit; cases hhit

/-- A step of a call whose transfer is executed, up to the load of the cursor. -/
theorem FileInv.finds (hi : FileInv zs zc fd contents s) {m : Nat} {f f' : File UInt8} {c : Call}
    {cqe : CompletionEntry} {fio : ring_fio.State Unit} {p : Pc}
    (hrun : run cursor_file.step ⟨contents, 0⟩ s.log = some f) (hexecuted : Executed s f f' c cqe)
    (hkernel : s.kernel = []) (hsq : Ready zs s.sq m) (hfio : FioInv zc fio)
    (hat : fio.pc () = p) (hp : p.call = some ⟨0, cqe.userData, 1, 1⟩)
    (hinside : entering (fio.pc ()) = false) (hposted : fio.queue.posted = s.fio.queue.posted)
    (hasked : fio.asked = s.fio.asked) (hoffset : fio.fOffset = s.fio.fOffset)
    (hstored : stored p = stored (s.fio.pc ()))
    (hload : ∀ c x cqe offset, p = .storeOffset c x cqe offset → offset = s.fOffset) :
    FileInv zs zc fd contents (if fio.pc () = .idle then s.ret fio else { s with fio := fio }) := by
  have hidle : p ≠ .idle := by rintro rfl; cases hp
  subst hat
  rw [if_neg hidle]
  refine hi.goes_on hfio hposted hasked (by rw [hoffset]; exact hi.nonneg) hrun ?_
  exact .executed m c f' cqe (hexecuted.frame hposted hoffset hstored hload) hp hinside hkernel hsq

/-- The call stores the cursor: it is behind what was transferred. -/
theorem FileInv.store (hi : FileInv zs zc fd contents s) {m x : Nat} {f f' : File UInt8} {c : Call}
    {cqe : CompletionEntry} {offset : Int64}
    (hrun : run cursor_file.step ⟨contents, 0⟩ s.log = some f) (hexecuted : Executed s f f' c cqe)
    (hpc : s.fio.pc () = .storeOffset ⟨0, cqe.userData, 1, 1⟩ x cqe offset) (hres : ¬ cqe.res < 0)
    (hkernel : s.kernel = []) (hsq : Ready zs s.sq m) {fio : ring_fio.State Unit}
    (hfio : FioInv zc fio)
    (heq : fio = { s.fio with
      pc := Function.update s.fio.pc () (.complete ⟨0, cqe.userData, 1, 1⟩ x cqe)
      fOffset := Function.update s.fio.fOffset 0 (offset + cqe.res.toInt64) }) :
    FileInv zs zc fd contents { s with fio := fio } := by
  subst heq
  have hmoves := hexecuted.moves
  have hfits := hexecuted.fits
  have hcursor := hexecuted.cursor
  have hoffset := hexecuted.load _ _ _ _ hpc
  rw [if_neg hres] at hmoves
  rw [hpc] at hcursor
  have hsum : (offset + cqe.res.toInt64).toInt = f'.cursor := by
    rw [Int64.toInt_add, Int32.toInt_toInt64, hoffset, hcursor]
    simp only [stored, Bool.false_eq_true, if_false]
    rw [← hmoves]
    apply Int.bmod_eq_of_le <;> omega
  refine hi.goes_on hfio rfl rfl ?_ hrun ?_
  · simp only [Function.update_self, hsum]
    exact Int.natCast_nonneg _
  · refine .executed m c f' cqe ⟨hexecuted.call, hexecuted.exec, hexecuted.posted, hexecuted.bytes,
      hexecuted.moves, hfits, ?_, ?_⟩ (by simp [Pc.call]) (by simp [entering]) hkernel hsq
    · simp only [State.fOffset, Function.update_self, hsum, stored, if_true]
    · intro c' x' cqe' offset' hat
      simp at hat

/-- Whatever the search of the call finds is the entry of its transfer. -/
theorem FileInv.found (hi : FileInv zs zc fd contents s) {f f' : File UInt8} {c : Call}
    {cqe : CompletionEntry} (hexecuted : Executed s f f' c cqe)
    (hpc : (s.fio.pc ()).call = some ⟨0, cqe.userData, 1, 1⟩) {c' : ring_fio.Call} {x : Nat}
    (hlooks : (s.fio.pc ()).looks = some (c', x))
    (hid : (s.fio.queue.cq.entries x).userData = c'.reqID) :
    s.fio.queue.cq.entries x = cqe ∧ c' = ⟨0, cqe.userData, 1, 1⟩ := by
  obtain ⟨-, p, hp, -⟩ := hi.fio.holds_of_match hi.written hlooks hid
  rw [Pc.call_of_looks hlooks] at hpc
  cases hpc
  exact ⟨hi.fio.posted_inj (List.mem_of_getElem? hp) hexecuted.posted hid, rfl⟩

/-- An entry that the call has found is the one of its transfer, and no error. -/
theorem FileInv.held (hi : FileInv zs zc fd contents s) {f f' : File UInt8} {c : Call}
    {cqe : CompletionEntry} (hexecuted : Executed s f f' c cqe)
    (hpc : (s.fio.pc ()).call = some ⟨0, cqe.userData, 1, 1⟩) {c' : ring_fio.Call} {x : Nat}
    {cqe' : CompletionEntry} (hhit : (s.fio.pc ()).hit = some (c', x, cqe')) :
    c' = ⟨0, cqe.userData, 1, 1⟩ ∧ cqe' = cqe ∧ ¬ cqe.res < 0 := by
  obtain ⟨rfl, hposted, hid, hres⟩ := hi.fio.hit_posted hpc hhit
  obtain rfl := hi.fio.posted_inj hposted hexecuted.posted hid
  exact ⟨rfl, rfl, hres⟩

/-- A call that has stored the cursor gives the slot back and returns. -/
theorem FileInv.step_stored (hi : FileInv zs zc fd contents s) {m : Nat} {f f' : File UInt8}
    {c : Call} {cqe : CompletionEntry} {fio : ring_fio.State Unit}
    (hrun : run cursor_file.step ⟨contents, 0⟩ s.log = some f) (hexecuted : Executed s f f' c cqe)
    (hpc : (s.fio.pc ()).call = some ⟨0, cqe.userData, 1, 1⟩) (hkernel : s.kernel = [])
    (hsq : Ready zs s.sq m) (hst : stored (s.fio.pc ()) = true)
    (hs : ring_fio.stepPc zc s.fio () = some fio) :
    FileInv zs zc fd contents
      (if fio.pc () = .idle then s.ret fio else { s with fio := fio }) := by
  have hfio := ring_fio.fioInv_move hi.fio hi.written (ring_fio.stepPc_move hs)
  have hcursor := hexecuted.cursor
  rw [if_pos hst] at hcursor
  cases h : s.fio.pc () with
  | complete c' x cqe' =>
    obtain ⟨rfl, rfl, hres⟩ := hi.held hexecuted hpc (by rw [h]; rfl)
    simp only [ring_fio.stepPc, h] at hs
    obtain ⟨q, hq, rfl⟩ := Option.map_eq_some_iff.mp hs
    obtain ⟨-, -, -, -, hposted, -⟩ := hi.fio.send h hq
    have hidle : (s.fio.ret () ⟨0, cqe'.userData, 1, 1⟩ (.count cqe'.res.toInt)).pc () = .idle := by
      simp only [ring_fio.State.ret, ring_fio.State.goto, Function.update_self]
    rw [if_pos hidle]
    refine hi.returns hrun hexecuted hkernel hsq hfio hidle hposted rfl rfl ?_ hcursor
    simp only [ring_fio.State.ret, ring_fio.decode, hres, if_false]
  | _ => rw [h] at hst; cases hst

/-- A call whose transfer is executed finds it, moves the cursor behind it, and
returns. -/
theorem FileInv.step_executed (hi : FileInv zs zc fd contents s) {m : Nat} {f f' : File UInt8}
    {c : Call} {cqe : CompletionEntry} {fio : ring_fio.State Unit}
    (hrun : run cursor_file.step ⟨contents, 0⟩ s.log = some f) (hexecuted : Executed s f f' c cqe)
    (hpc : (s.fio.pc ()).call = some ⟨0, cqe.userData, 1, 1⟩) (hkernel : s.kernel = [])
    (hsq : Ready zs s.sq m) (hs : ring_fio.stepPc zc s.fio () = some fio) :
    FileInv zs zc fd contents
      (if fio.pc () = .idle then s.ret fio else { s with fio := fio }) := by
  by_cases hst : stored (s.fio.pc ()) = true
  · exact hi.step_stored hrun hexecuted hpc hkernel hsq hst hs
  have hm := ring_fio.stepPc_move hs
  have hfio := ring_fio.fioInv_move hi.fio hi.written hm
  have hinside := not_entering hs
  have hcursor := hexecuted.cursor
  have hself : ∀ p, Function.update s.fio.pc () p () = p := fun p => Function.update_self ..
  rw [Bool.not_eq_true] at hst
  rw [hst] at hcursor
  cases hm with
  | @search g c' p hcall hp hrange hnohit =>
    cases g
    rw [hcall] at hpc
    cases hpc
    refine hi.finds (p := p) hrun hexecuted hkernel hsq hfio (hself p) hp hinside
      rfl rfl rfl (by rw [hst, stored_of_hit hnohit]) ?_
    rintro c'' x cqe' offset rfl
    cases hnohit
  | @findError g c' x hlooks hid hres =>
    cases g
    obtain ⟨heq, rfl⟩ := hi.found hexecuted hpc hlooks hid
    rw [heq] at hres hfio ⊢
    have hmoves := hexecuted.moves
    rw [if_pos hres, add_zero] at hmoves
    rw [if_pos (hself _)]
    refine hi.returns hrun hexecuted hkernel hsq hfio (hself _) rfl rfl rfl ?_ ?_
    · simp only [ring_fio.decode, hres, if_true]
    · rw [hcursor, hmoves]
      rfl
  | @find g c' x hlooks hid hres =>
    cases g
    obtain ⟨heq, rfl⟩ := hi.found hexecuted hpc hlooks hid
    exact hi.finds (p := .loadOffset _ x _) hrun hexecuted hkernel hsq hfio
      (hself _) rfl hinside rfl rfl rfl hst.symm (fun _ _ _ _ h => by cases h)
  | @loadOffset g c' x cqe' h =>
    cases g
    obtain ⟨rfl, rfl, hres⟩ := hi.held hexecuted hpc (by rw [h]; rfl)
    refine hi.finds (p := .storeOffset _ x _ s.fOffset) hrun hexecuted hkernel hsq hfio
      (hself _) rfl hinside rfl rfl rfl hst.symm ?_
    rintro c'' x' cqe'' offset ⟨⟩
    rfl
  | @storeOffset g c' x cqe' offset h =>
    cases g
    obtain ⟨rfl, rfl, hres⟩ := hi.held hexecuted hpc (by rw [h]; rfl)
    rw [if_neg (by simp)]
    exact hi.store hrun hexecuted h hres hkernel hsq hfio rfl
  | complete h hq => rw [h] at hst; cases hst

theorem FileInv.step (hi : FileInv zs zc fd contents s)
    (hs : file_io.step zs zc fd s .step = some s') : FileInv zs zc fd contents s' := by
  have hstep : entering (s.fio.pc ()) = false ∧
      (ring_fio.stepPc zc s.fio ()).map
        (fun fio => if fio.pc () = .idle then s.ret fio else { s with fio := fio }) = some s' := by
    cases h : s.fio.pc () with
    | enter c => simp [file_io.step, h] at hs
    | _ => simpa only [file_io.step, h, entering, true_and] using hs
  obtain ⟨hinside, hmap⟩ := hstep
  obtain ⟨fio, hfio, rfl⟩ := Option.map_eq_some_iff.mp hmap
  obtain ⟨f, hrun, hphase⟩ := hi.replay
  cases hphase with
  | idle _ _ hpc =>
    simp only [ring_fio.stepPc, hpc] at hfio
    cases hfio
  | submitted _ _ _ _ _ _ _ hpc =>
    rw [hpc] at hinside
    cases hinside
  | waiting c op b id hpending hpc _ hkernel =>
    obtain ⟨hidle, hinv⟩ := hi.step_waiting hrun hpending hpc hkernel hfio
    rw [if_neg hidle]
    exact hinv
  | executed m c f' cqe hexecuted hpc _ hkernel hsq =>
    exact hi.step_executed hrun hexecuted hpc hkernel hsq hfio

theorem fileInv_step {a : Act} (hi : FileInv zs zc fd contents s) (hok : Faultless s a)
    (hs : step zs zc fd s a = some s') : FileInv zs zc fd contents s' := by
  cases a with
  | call c =>
    simp only [file_io.step, Option.ite_none_right_eq_some] at hs
    obtain ⟨⟨hcall, hvalid⟩, hs⟩ := hs
    cases hseek : c.seek s.fOffset with
    | some o =>
      rw [hseek] at hs
      cases hs
      exact hi.seek hcall hvalid hseek
    | none =>
      rw [hseek] at hs
      have hid : s.idx + 1 ≠ 0 := by
        cases c with
        | read b => exact hok
        | write addr data => exact hok
        | seekStart o => cases hseek
        | seekCurrent d => cases hseek
      exact hi.start hcall hvalid hid hs
  | enter =>
    cases h : s.fio.pc () with
    | enter c =>
      simp only [file_io.step, h] at hs
      obtain ⟨q, hq, rfl⟩ := Option.map_eq_some_iff.mp hs
      exact hi.enter h hq
    | _ => simp [file_io.step, h] at hs
  | enterFails => exact absurd hok id
  | execute i k flags => exact hi.execute hs
  | refuse i res flags => exact hi.refuse hs
  | completer =>
    obtain ⟨q, hq, rfl⟩ := Option.map_eq_some_iff.mp hs
    exact hi.completer hq
  | step => exact hi.step hs

/-! ## The law -/

theorem refines_of_fileInv (hi : FileInv zs zc fd contents s) : Refines contents s := by
  obtain ⟨f, hrun, hphase⟩ := hi.replay
  refine ⟨f, hrun, fun hcall => ?_, fun hread => ?_⟩
  · obtain ⟨-, -, -, hbytes, hcursor⟩ := hphase.of_no_call hcall
    exact ⟨hbytes, hcursor⟩
  · obtain ⟨-, -, hdata, -, heof⟩ := cursor_file.reads_give_the_file hrun hread
    have htake : s.log.flatMap (·.answer.data) = contents.take f.cursor := by
      rw [hdata, slice, List.drop_zero, Nat.sub_zero]
    refine ⟨htake, fun hend => ?_⟩
    rw [htake]
    exact List.take_of_length_le (heof hend)

/-- In every run of one goroutine in which no transfer gets the id 0 and no `Enter`
fails, the file behaves as a file with a cursor. -/
theorem one_goroutine_refines_a_cursor_file (zs zc : Size) (fd : Int32) (idx : UInt64)
    (contents : List UInt8) (hlen : contents.length < 2 ^ 63) (mem : Memory) (as : List Act)
    (h : Along (step zs zc fd) Faultless (init idx contents mem) as) :
    Always (step zs zc fd) (Refines contents) (init idx contents mem) as := by
  have hstep : ∀ (s : State) a s', FileInv zs zc fd contents s → Faultless s a →
      file_io.step zs zc fd s a = some s' → FileInv zs zc fd contents s' :=
    fun _ _ _ hi hok hs => fileInv_step hi hok hs
  exact Along.always hstep (fun _ => refines_of_fileInv) (fileInv_init zs zc fd idx hlen mem) h

/-- A transfer of `k` bytes up to its return, where the entry is in slot `x` and the
search starts at the first slot. -/
def transferActs (c : Call) (x k : Nat) : List Act :=
  [Act.call c, .enter, .execute 0 k 0] ++ List.replicate (x + 6) Act.step

/-- On queues of four slots and a file of two bytes: a write of one byte, a seek to
the start, and a read of up to five bytes. -/
theorem a_write_a_seek_and_a_read :
    Always (step ⟨2, by decide⟩ ⟨2, by decide⟩ 3) (Refines [7, 8]) (init 0 [7, 8] fun _ => 0)
        (transferActs (.write 100 [9]) 0 1 ++ [Act.call (.seekStart 0)] ++
          transferActs (.read ⟨200, 5⟩) 1 2) ∧
      (run (step ⟨2, by decide⟩ ⟨2, by decide⟩ 3) (init 0 [7, 8] fun _ => 0)
        (transferActs (.write 100 [9]) 0 1 ++ [Act.call (.seekStart 0)] ++
          transferActs (.read ⟨200, 5⟩) 1 2)).map
        (fun s => (s.log.map (·.answer), s.file, s.fOffset)) =
        some ([⟨1, none, []⟩, ⟨0, none, []⟩, ⟨2, none, [9, 8]⟩], [9, 8], 2) :=
  ⟨one_goroutine_refines_a_cursor_file _ _ _ _ _ (by decide) _ _ (by decide), by decide⟩

/-- Two reads of one byte on a ring with `WithID(2^64 - 2)`, on queues of four slots and
a file of two bytes: the second read has the id 0, and before the kernel executes it
the search compares the next slot, which is still zero. It answers `io.EOF` with the
cursor at 1. -/
theorem a_read_with_id_zero_answers_eof :
    (run (step ⟨2, by decide⟩ ⟨2, by decide⟩ 3) (init 18446744073709551614 [7, 8] fun _ => 0)
        (transferActs (.read ⟨200, 1⟩) 0 1 ++ [Act.call (.read ⟨200, 1⟩), .enter] ++
          List.replicate 7 Act.step)).map
        (fun s => (s.log.map (·.answer), s.file, s.fOffset, s.call)) =
      some ([⟨1, none, [7]⟩, ⟨0, some .eof, []⟩], [7, 8], 1, none) := by
  decide

end iouring.file_io
