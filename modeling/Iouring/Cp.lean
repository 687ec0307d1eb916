-- The copy of `examples/cp`: read a buffer from one file of the ring, write what was read
-- to the other one, up to `io.EOF`, and close both. The count that `Write` returns is dropped.
import Iouring.FileRefines
import Iouring.FioCalls

open machine
open cursor_file (Turn overwrite pieces slice total)
open iouring.completion_queue (errnoOf)
open iouring.file_io (offset_toNat ofNat_nonneg transfer)
open iouring.fio_calls (Answer Error Reply entry getCqe ofResult orEof)
open iouring.submit_queue (Memory Opcode Slice SubmitEntry)

namespace iouring.cp

/-! ## The program -/

/-- What becomes of the entry of a call: `k` bytes are transferred, or the kernel gives it
an error, or the `Enter` fails. -/
inductive Kernel where
  | transfers (k : Nat)
  | refuses (res : Int32)
  | enterFails
  deriving DecidableEq, Repr

/-- The file and the memory after the entry, and the reply to it. -/
def Kernel.execute (fd : Int32) (file : List UInt8) (mem : Memory) (e : SubmitEntry) :
    Kernel → Option (List UInt8 × Memory × Reply)
  | .transfers k =>
    (transfer fd file mem e k).map fun (file', mem') => (file', mem', .done (.ofNat k) [])
  | .refuses res => if res < 0 then some (file, mem, .done res []) else none
  | .enterFails => some (file, mem, .enterFails)

/-- The reply to the `Close` of an open file. -/
def Kernel.close : Kernel → Option Reply
  | .transfers k => if k = 0 then some (.done 0 []) else none
  | .refuses res => if res < 0 then some (.done res []) else none
  | .enterFails => some .enterFails

/-- Where `main` stands, from the loop on. -/
inductive Pc where
  | read
  | write (n : Nat)
  | closeSrc
  | closeDst
  | returned
  | fatal
  | panicked
  deriving DecidableEq, Repr

def Pc.ended : Pc → Bool
  | .returned | .fatal | .panicked => true
  | _ => false

/-- The two files, the memory and the buffer. The turns that have gone round the loop are
kept for the law only. -/
structure State where
  r : fio_calls.State (List UInt8)
  w : fio_calls.State (List UInt8)
  mem : Memory
  buf : Slice
  pc : Pc
  turns : List Turn

/-- `dst` was opened with `O_TRUNC`. -/
def start (srcFd dstFd : Int32) (src : List UInt8) (mem : Memory) (buf : Slice) : State :=
  ⟨⟨srcFd, 0, src⟩, ⟨dstFd, 0, []⟩, mem, buf, .read, []⟩

/-- What `main` does with the answer of `Read`. -/
def afterRead : Answer → Pc
  | .returned n none => if n = 0 then .closeSrc else .write n.toNat
  | .returned _ (some err) => if err = .eof then .closeSrc else .fatal
  | .panicked => .panicked

/-- What `main` does with the answer of `Write`. -/
def afterWrite : Answer → Pc
  | .returned _ none => .read
  | .returned _ (some _) => .fatal
  | .panicked => .panicked

/-- The turns with one more, if its write has returned no error. -/
def turned (ts : List Turn) (n : Nat) : Answer → List Turn
  | .returned k none => ts ++ [⟨n, k.toNat⟩]
  | _ => ts

/-- `ringFIO.Close`: the error of its `getCqe`. -/
def close (fOffset : Int64) (reply : Reply) : Option Error :=
  match ofResult (getCqe fOffset reply).1 with
  | .returned _ err => err
  | .panicked => none

/-- The next call of `main`, up to its answer. -/
def step (s : State) (a : Kernel) : Option State :=
  match s.pc with
  | .read =>
    match entry .read s.r.fd s.buf s.r.fOffset.toUInt64 with
    | none => some { s with pc := .panicked }
    | some e =>
      (a.execute s.r.fd s.r.file s.mem e).map fun (_, mem, reply) =>
        let done := s.r.read s.buf fun _ _ => reply
        { s with r := done.state, mem := mem, pc := afterRead done.answer }
  | .write n =>
    let b : Slice := ⟨s.buf.data, n⟩
    match entry .write s.w.fd b s.w.fOffset.toUInt64 with
    | none => some { s with pc := .panicked }
    | some e =>
      (a.execute s.w.fd s.w.file s.mem e).map fun (file, mem, reply) =>
        let done := s.w.write b fun _ _ => (file, reply)
        { s with
          w := done.state
          mem := mem
          pc := afterWrite done.answer
          turns := turned s.turns n done.answer }
  | .closeSrc =>
    a.close.map fun reply =>
      { s with pc := if close s.r.fOffset reply = none then .closeDst else .fatal }
  | .closeDst =>
    a.close.map fun reply =>
      { s with pc := if close s.w.fOffset reply = none then .returned else .fatal }
  | .returned | .fatal | .panicked => none

/-! ## One call -/

/-- The entry of a call that does not panic. -/
theorem entry_eq_some {op : Opcode} {fd : Int32} {b : Slice} {offset : UInt64} {e : SubmitEntry}
    (h : entry op fd b offset = some e) :
    0 < b.len ∧ e.opcode = op.code ∧ e.fd = fd ∧ e.len = UInt32.ofNat b.len ∧ e.offset = offset ∧
      e.addr = b.data := by
  obtain ⟨ws, hws, rfl⟩ := Option.map_eq_some_iff.mp h
  obtain ⟨first, hfirst, rfl⟩ := Option.map_eq_some_iff.mp hws
  simp only [Slice.first, Option.ite_none_right_eq_some, Option.some.injEq] at hfirst
  obtain ⟨hpos, rfl⟩ := hfirst
  exact ⟨hpos, rfl, rfl, rfl, rfl, rfl⟩

/-- An error of a call. -/
def Fails (reply : Reply) : Prop :=
  ∀ fOffset, ∃ err, err ≠ Error.eof ∧ ofResult (getCqe fOffset reply).1 = .returned 0 (some err) ∧
    (getCqe fOffset reply).2 = fOffset

theorem fails_enterFails : Fails .enterFails :=
  fun _ => ⟨.enter, by simp, rfl, rfl⟩

theorem fails_done {res : Int32} (h : res < 0) : Fails (.done res []) := by
  intro fOffset
  refine ⟨.errno (errnoOf res), by simp, ?_, ?_⟩
  · simp only [getCqe, if_pos h]
    rfl
  · simp only [getCqe, if_pos h]

/-- An entry is transferred, or its call fails and nothing has changed. -/
theorem execute_cases {a : Kernel} {fd : Int32} {file file' : List UInt8} {mem mem' : Memory}
    {e : SubmitEntry} {reply : Reply} (h : a.execute fd file mem e = some (file', mem', reply)) :
    (∃ k, transfer fd file mem e k = some (file', mem') ∧ reply = .done (.ofNat k) []) ∨
      (file' = file ∧ mem' = mem ∧ Fails reply) := by
  cases a with
  | transfers k =>
    obtain ⟨⟨file1, mem1⟩, ht, heq⟩ := Option.map_eq_some_iff.mp h
    cases heq
    exact Or.inl ⟨k, ht, rfl⟩
  | refuses res =>
    simp only [Kernel.execute, Option.ite_none_right_eq_some] at h
    obtain ⟨hres, heq⟩ := h
    cases heq
    exact Or.inr ⟨rfl, rfl, fails_done hres⟩
  | enterFails =>
    cases h
    exact Or.inr ⟨rfl, rfl, fails_enterFails⟩

/-- The cursor after a transfer. -/
theorem getCqe_done {fOffset : Int64} {o k : Nat} (ho : fOffset.toInt = o) (hk : k < 2 ^ 31)
    (hfits : o + k < 2 ^ 63) :
    (getCqe fOffset (.done (.ofNat k) [])).1 = .count k ∧
      (getCqe fOffset (.done (.ofNat k) [])).2.toInt = (o + k : Nat) := by
  have hcount := Int32.toInt_ofNat_of_lt hk
  simp only [getCqe, if_neg (ofNat_nonneg hk), hcount, true_and]
  rw [Int64.toInt_add, Int32.toInt_toInt64, ho, hcount]
  apply Int.bmod_eq_of_le <;> omega

/-! ## The law -/

/-- What the turns and the call that comes next have to do with the source. -/
def Phase (src : List UInt8) (s : State) : Prop :=
  match s.pc with
  | .read => s.r.fOffset.toInt = total s.turns
  | .write n =>
    0 < n ∧ n < 2 ^ 31 ∧ total s.turns + n ≤ src.length ∧
      s.r.fOffset.toInt = (total s.turns + n : Nat) ∧
      s.mem.bytes s.buf.data n = slice src (total s.turns) n
  | .closeSrc | .closeDst | .returned => total s.turns = src.length
  | .fatal | .panicked => True

structure CopyInv (src : List UInt8) (buf : Slice) (s : State) : Prop where
  buffer : s.buf = buf
  source : s.r.file = src
  dst : s.w.file = pieces src 0 s.turns
  dstOffset : s.w.fOffset.toInt = s.w.file.length
  turns : ∀ t ∈ s.turns, t.written ≤ t.read
  fits : total s.turns ≤ src.length
  phase : Phase src s

/-- How many calls are left at most. -/
def rank (src : List UInt8) (s : State) : Nat :=
  match s.pc with
  | .read => 2 * (src.length - total s.turns) + 4
  | .write _ => 2 * (src.length - total s.turns) + 3
  | .closeSrc => 2
  | .closeDst => 1
  | .returned | .fatal | .panicked => 0

section

variable {src : List UInt8} {buf : Slice} {s s' : State} {a : Kernel}

theorem copyInv_start (srcFd dstFd : Int32) (src : List UInt8) (mem : Memory) (buf : Slice) :
    CopyInv src buf (start srcFd dstFd src mem buf) where
  buffer := rfl
  source := rfl
  dst := rfl
  dstOffset := rfl
  turns := nofun
  fits := Nat.zero_le _
  phase := rfl

/-- What is written is no longer than the source. -/
theorem CopyInv.length_le (hi : CopyInv src buf s) : s.w.file.length ≤ total s.turns := by
  have hfits := hi.fits
  rw [hi.dst]
  exact (cursor_file.length_pieces hi.turns (by omega)).1

/-- A call that fails or panics ends the program. -/
theorem CopyInv.ends (hi : CopyInv src buf s) (hended : s.pc.ended = false) {pc : Pc}
    (hpc : pc = .fatal ∨ pc = .panicked) :
    CopyInv src buf { s with pc := pc } ∧ rank src { s with pc := pc } < rank src s := by
  constructor
  · refine ⟨hi.buffer, hi.source, hi.dst, hi.dstOffset, hi.turns, hi.fits, ?_⟩
    rcases hpc with rfl | rfl <;> trivial
  · have hrank : rank src { s with pc := pc } = 0 := by rcases hpc with rfl | rfl <;> rfl
    rw [hrank]
    unfold rank
    cases hs : s.pc with
    | returned | fatal | panicked => rw [hs] at hended; cases hended
    | _ => simp

/-- `Read` has answered. -/
theorem CopyInv.read (hi : CopyInv src buf s) (hsrc : src.length < 2 ^ 63) (hpc : s.pc = .read)
    (h : step s a = some s') : CopyInv src buf s' ∧ rank src s' < rank src s := by
  have hended : s.pc.ended = false := by rw [hpc]; rfl
  have hoff : s.r.fOffset.toInt = total s.turns := by
    have := hi.phase
    rwa [Phase, hpc] at this
  have hfits := hi.fits
  simp only [step, hpc] at h
  cases he : entry .read s.r.fd s.buf s.r.fOffset.toUInt64 with
  | none =>
    rw [he] at h
    cases h
    exact hi.ends hended (Or.inr rfl)
  | some e =>
    rw [he] at h
    obtain ⟨⟨file, mem, reply⟩, hexec, rfl⟩ := Option.map_eq_some_iff.mp h
    obtain ⟨hpos, hop, hfd, hlen, hoffset, haddr⟩ := entry_eq_some he
    simp only [fio_calls.State.read, fio_calls.State.submit, he]
    rcases execute_cases hexec with ⟨k, ht, rfl⟩ | ⟨-, rfl, hfails⟩
    · have ho : s.r.fOffset.toUInt64.toNat = total s.turns := offset_toNat (f := ⟨[], _⟩) hoff.symm
      simp only [transfer, hfd, hop, hoffset, haddr, ho, hi.source, if_true, true_and,
        Option.ite_none_right_eq_some, Option.some.injEq, Prod.mk.injEq] at ht
      obtain ⟨⟨-, hk31⟩, hk, -, rfl⟩ := ht
      have hle : total s.turns + k ≤ src.length := by
        split at hk <;> omega
      obtain ⟨hcount, hcursor⟩ := getCqe_done hoff hk31 (by omega)
      rw [hcount]
      by_cases hzero : k = 0
      · -- the end of the file
        subst hzero
        simp only [if_true] at hk
        refine ⟨⟨hi.buffer, hi.source, hi.dst, hi.dstOffset, hi.turns, hfits, ?_⟩, ?_⟩
        · show total s.turns = src.length
          omega
        · simp only [rank, hpc]
          show 2 < _
          omega
      · have hafter : afterRead (orEof (.count k)) = .write k := by
          simp [afterRead, orEof, ofResult, hzero]
        have hdata := @Memory.bytes_store s.mem s.buf.data (slice src (total s.turns) k)
          (by rw [cursor_file.length_slice hle]; omega)
        rw [cursor_file.length_slice hle] at hdata
        rw [hafter]
        refine ⟨⟨hi.buffer, hi.source, hi.dst, hi.dstOffset, hi.turns, hfits, ?_⟩, ?_⟩
        · exact ⟨Nat.pos_of_ne_zero hzero, hk31, hle, hcursor, hdata⟩
        · simp only [rank, hpc]
          omega
    · obtain ⟨err, herr, hanswer, hcursor⟩ := hfails s.r.fOffset
      have hafter : afterRead (orEof (getCqe s.r.fOffset reply).1) = .fatal := by
        simp [afterRead, orEof, hanswer, herr]
      rw [hafter, hcursor]
      exact hi.ends hended (Or.inl rfl)

/-- `Write` has answered. -/
theorem CopyInv.write (hi : CopyInv src buf s) {n : Nat}
    (hpc : s.pc = .write n) (h : step s a = some s') :
    CopyInv src buf s' ∧ rank src s' < rank src s := by
  have hended : s.pc.ended = false := by rw [hpc]; rfl
  obtain ⟨hpos, hn31, hle, hroff, hdata⟩ : _ ∧ _ ∧ _ ∧ _ ∧ _ := by
    have := hi.phase
    rwa [Phase, hpc] at this
  have hlength := hi.length_le
  simp only [step, hpc] at h
  cases he : entry .write s.w.fd ⟨s.buf.data, n⟩ s.w.fOffset.toUInt64 with
  | none =>
    rw [he] at h
    cases h
    exact hi.ends hended (Or.inr rfl)
  | some e =>
    rw [he] at h
    obtain ⟨⟨file, mem, reply⟩, hexec, rfl⟩ := Option.map_eq_some_iff.mp h
    obtain ⟨-, hop, hfd, hlen, hoffset, haddr⟩ := entry_eq_some he
    simp only [fio_calls.State.write, fio_calls.State.submit, he]
    rcases execute_cases hexec with ⟨k, ht, rfl⟩ | ⟨rfl, rfl, hfails⟩
    · have ho : s.w.fOffset.toUInt64.toNat = s.w.file.length :=
        offset_toNat (f := ⟨[], _⟩) hi.dstOffset.symm
      have hne : Opcode.write.code ≠ Opcode.read.code := by decide
      have hblen : (UInt32.ofNat n).toNat = n := by
        rw [UInt32.toNat_ofNat']
        exact Nat.mod_eq_of_lt (by omega)
      simp only [transfer, hfd, hop, hoffset, haddr, hlen, hblen, ho, hne, if_false, true_and,
        Option.ite_none_right_eq_some, Option.some.injEq, Prod.mk.injEq] at ht
      obtain ⟨⟨hk, hk31⟩, hfits, rfl, rfl⟩ := ht
      obtain ⟨hcount, hcursor⟩ := getCqe_done hi.dstOffset hk31 hfits
      have hwritten : s.mem.bytes s.buf.data k = slice src (total s.turns) k := by
        rw [← s.mem.take_bytes s.buf.data hk, hdata, slice, List.take_take, Nat.min_eq_left hk]
        rfl
      rw [hcount, hwritten, cursor_file.overwrite_length]
      have htotal : total (s.turns ++ [⟨n, k⟩]) = total s.turns + n := by
        rw [cursor_file.total_append]
        rfl
      refine ⟨⟨hi.buffer, hi.source, ?_, ?_, ?_, ?_, ?_⟩, ?_⟩
      · show s.w.file ++ _ = pieces src 0 (s.turns ++ [⟨n, k⟩])
        rw [cursor_file.pieces_append, hi.dst, Nat.zero_add, pieces, pieces, List.append_nil]
      · rw [hcursor, List.length_append, cursor_file.length_slice (by omega)]
      · intro t ht
        rcases List.mem_append.mp ht with ht | ht
        · exact hi.turns t ht
        · cases List.mem_singleton.mp ht
          exact hk
      · show total (s.turns ++ [⟨n, k⟩]) ≤ _
        rw [htotal]
        exact hle
      · show s.r.fOffset.toInt = total (s.turns ++ [⟨n, k⟩])
        rw [htotal, hroff]
      · show 2 * (src.length - total (s.turns ++ [⟨n, k⟩])) + 4 < _
        rw [htotal]
        simp only [rank, hpc]
        omega
    · obtain ⟨err, herr, hanswer, hcursor⟩ := hfails s.w.fOffset
      rw [hanswer, hcursor]
      exact hi.ends hended (Or.inl rfl)

/-- A `Close` has answered. -/
theorem CopyInv.close (hi : CopyInv src buf s) (hpc : s.pc = .closeSrc ∨ s.pc = .closeDst)
    (h : step s a = some s') : CopyInv src buf s' ∧ rank src s' < rank src s := by
  have hended : s.pc.ended = false := by rcases hpc with hpc | hpc <;> rw [hpc] <;> rfl
  have htotal : total s.turns = src.length := by
    have := hi.phase
    rcases hpc with hpc | hpc <;> rwa [Phase, hpc] at this
  rcases hpc with hpc | hpc
  all_goals
    simp only [step, hpc] at h
    obtain ⟨reply, -, rfl⟩ := Option.map_eq_some_iff.mp h
    split
    · refine ⟨⟨hi.buffer, hi.source, hi.dst, hi.dstOffset, hi.turns, hi.fits, htotal⟩, ?_⟩
      simp [rank, hpc]
    · exact hi.ends hended (Or.inl rfl)

theorem copyInv_step (hi : CopyInv src buf s) (hsrc : src.length < 2 ^ 63)
    (h : step s a = some s') : CopyInv src buf s' ∧ rank src s' < rank src s := by
  cases hpc : s.pc with
  | read => exact hi.read hsrc hpc h
  | write n => exact hi.write hpc h
  | closeSrc => exact hi.close (Or.inl hpc) h
  | closeDst => exact hi.close (Or.inr hpc) h
  | returned | fatal | panicked =>
    simp only [step, hpc] at h
    cases h

/-- A program that has not ended makes its next call, whose entry the kernel can carry out. -/
theorem CopyInv.goes_on (hi : CopyInv src buf s) (hsrc : src.length < 2 ^ 63)
    (hbuf : buf.len < 2 ^ 32) (hended : s.pc.ended = false) :
    ∃ k s', step s (.transfers k) = some s' := by
  cases hpc : s.pc with
  | read =>
    have hoff : s.r.fOffset.toInt = total s.turns := by
      have := hi.phase
      rwa [Phase, hpc] at this
    have hfits := hi.fits
    cases he : entry .read s.r.fd s.buf s.r.fOffset.toUInt64 with
    | none => exact ⟨0, by simp [step, hpc, he]⟩
    | some e =>
      obtain ⟨hpos, hop, hfd, hlen, hoffset, -⟩ := entry_eq_some he
      have hblen : e.len.toNat = s.buf.len := by
        rw [hlen, UInt32.toNat_ofNat', hi.buffer]
        exact Nat.mod_eq_of_lt hbuf
      have ho : e.offset.toNat = total s.turns := by
        rw [hoffset]
        exact offset_toNat (f := ⟨[], _⟩) hoff.symm
      obtain ⟨k, x, hx⟩ : ∃ k x, transfer s.r.fd s.r.file s.mem e k = some x := by
        -- one byte, or none at the end
        by_cases hend : total s.turns = src.length
        · exact ⟨0, by simp [transfer, hfd, hop, ho, hi.source, hend]⟩
        · have hmore : total s.turns + 1 ≤ src.length := by omega
          have hone : 1 ≤ s.buf.len := hpos
          exact ⟨1, by simp [transfer, hfd, hop, ho, hi.source, hblen, hmore, hone]⟩
      exact ⟨k, by simp [step, hpc, he, Kernel.execute, hx]⟩
  | write n =>
    have hlength := hi.length_le
    have hfits := hi.fits
    cases he : entry .write s.w.fd ⟨s.buf.data, n⟩ s.w.fOffset.toUInt64 with
    | none => exact ⟨0, by simp [step, hpc, he]⟩
    | some e =>
      obtain ⟨-, hop, hfd, -, hoffset, -⟩ := entry_eq_some he
      have ho : e.offset.toNat = s.w.file.length := by
        rw [hoffset]
        exact offset_toNat (f := ⟨[], _⟩) hi.dstOffset.symm
      have hne : Opcode.write.code ≠ Opcode.read.code := by decide
      obtain ⟨x, hx⟩ : ∃ x, transfer s.w.fd s.w.file s.mem e 0 = some x := by
        simp only [transfer, hfd, hop, ho, hne, if_false, true_and]
        rw [if_pos ⟨Nat.zero_le _, by decide⟩, if_pos (by omega)]
        exact ⟨_, rfl⟩
      exact ⟨0, by simp [step, hpc, he, Kernel.execute, hx]⟩
  | closeSrc => exact ⟨0, by simp [step, hpc, Kernel.close]⟩
  | closeDst => exact ⟨0, by simp [step, hpc, Kernel.close]⟩
  | returned | fatal | panicked =>
    rw [hpc] at hended
    cases hended

end

/-- What `dst` holds: the first bytes of each turn that its write has taken. A program that
has returned has read all of `src`, and `dst` is `src` exactly if no write was short. A
program that has not ended goes on. -/
structure Copied (src : List UInt8) (s : State) : Prop where
  dst : s.w.file = pieces src 0 s.turns
  whole : s.pc = .returned → (s.w.file = src ↔ ∀ t ∈ s.turns, t.written = t.read)
  goesOn : s.pc.ended = false → ∃ k s', step s (.transfers k) = some s'

/-- Whatever the kernel does with the entries, a copy ends, and `dst` is what the writes have
taken. -/
theorem a_copy_ends_with_what_was_written (srcFd dstFd : Int32) (src : List UInt8)
    (hsrc : src.length < 2 ^ 63) (mem : Memory) (buf : Slice) (hbuf : buf.len < 2 ^ 32)
    (as : List Kernel) :
    Always step (Copied src) (start srcFd dstFd src mem buf) as ∧
      ∀ s, run step (start srcFd dstFd src mem buf) as = some s →
        as.length ≤ 2 * src.length + 4 := by
  have hstart := copyInv_start srcFd dstFd src mem buf
  constructor
  · refine always_of_invariant (fun s a s' hi h => (copyInv_step hi hsrc h).1) ?_ hstart as
    intro s hi
    refine ⟨hi.dst, fun hpc => ?_, hi.goes_on hsrc hbuf⟩
    have htotal : total s.turns = src.length := by
      have := hi.phase
      rwa [Phase, hpc] at this
    rw [hi.dst]
    exact cursor_file.pieces_eq_iff hi.turns htotal
  · intro s hrun
    have hlength := run_length_le (fun s a s' hi h => copyInv_step hi hsrc h) hstart hrun
    have hrank : rank src (start srcFd dstFd src mem buf) = 2 * src.length + 4 := rfl
    omega

/-- Three bytes through a buffer of two. The second write takes nothing and returns no error,
and the copy returns with a byte less. -/
theorem a_short_write_cuts_a_copy :
    let s := start 3 4 [1, 2, 3] (fun _ => 0) ⟨64, 2⟩
    let as : List Kernel := [.transfers 2, .transfers 2, .transfers 1, .transfers 0, .transfers 0,
      .transfers 0, .transfers 0]
    (∃ s', run step s as = some s' ∧ s'.pc = .returned ∧ s'.w.file = [1, 2]) ∧
      Always step (Copied [1, 2, 3]) s as :=
  ⟨⟨_, rfl, rfl, rfl⟩,
    (a_copy_ends_with_what_was_written 3 4 [1, 2, 3] (by decide) (fun _ => 0) ⟨64, 2⟩ (by decide)
      _).1⟩

end iouring.cp
