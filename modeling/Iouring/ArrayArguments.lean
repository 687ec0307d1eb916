-- The calls that hand an array to the kernel. The iovecs of `PrepareReadv`,
-- `PrepareWritev` and `RegisterBuffers` are a slice of pointers, where the kernel
-- reads the iovecs themselves; the files of `RegisterFiles` are integers of 8 bytes,
-- where it reads 4.
import Iouring.Abi

namespace iouring.submit_queue

/-! ## Arrays in memory -/

/-- `syscall.Iovec`. -/
structure Iovec where
  base : UInt64
  len : UInt64
  deriving DecidableEq, Repr

def Memory.uint64 (mem : Memory) (a : UInt64) : UInt64 :=
  UInt64.ofNat ((mem.uint32 a).toNat + 2 ^ 32 * (mem.uint32 (a + 4)).toNat)

def Memory.iovec (mem : Memory) (a : UInt64) : Iovec := ⟨mem.uint64 a, mem.uint64 (a + 8)⟩

/-- `n` elements from an address on, `size` bytes each. -/
def array {α : Type} (read : UInt64 → α) (a : UInt64) (size n : Nat) : List α :=
  (List.range n).map fun i => read (a + UInt64.ofNat (size * i))

theorem array_eq_iff {α : Type} {f g : UInt64 → α} {a b : UInt64} {size size' n n' : Nat} :
    array f a size n = array g b size' n' ↔
      n = n' ∧ ∀ i < n, f (a + UInt64.ofNat (size * i)) = g (b + UInt64.ofNat (size' * i)) := by
  unfold array
  constructor
  · intro h
    have hlen : n = n' := by simpa using congrArg List.length h
    subst hlen
    exact ⟨rfl, fun i hi => List.map_inj_left.mp h i (List.mem_range.mpr hi)⟩
  · rintro ⟨rfl, h⟩
    exact List.map_congr_left fun i hi => h i (List.mem_range.mp hi)

/-- The word of 8 bytes at the `i`-th place of a slice, or behind its end. -/
def Memory.wordOf (mem : Memory) (b : Slice) (i : Nat) : UInt64 :=
  mem.uint64 (b.data + UInt64.ofNat (8 * i))

/-- What the caller means by a slice of pointers to iovecs. -/
def Memory.iovecs (mem : Memory) (b : Slice) : List Iovec :=
  array (fun a => mem.iovec (mem.uint64 a)) b.data 8 b.len

/-- What the caller means by a slice of descriptors. -/
def Memory.fds (mem : Memory) (b : Slice) : List Int :=
  array (fun a => (mem.int64 a).toInt) b.data 8 b.len

/-- What the kernel reads where it is given iovecs. -/
def Memory.kernelIovecs (mem : Memory) (a : UInt64) (n : Nat) : List Iovec :=
  array mem.iovec a 16 n

/-- What the kernel reads where it is given descriptors. -/
def Memory.kernelFds (mem : Memory) (a : UInt64) (n : Nat) : List Int :=
  array (fun a => (mem.uint32 a).toInt32.toInt) a 4 n

/-! ## The calls -/

/-- The arguments of `io_uring_register`. -/
structure RegisterCall where
  fd : UInt64
  opcode : UInt64
  arg : UInt64
  nrArgs : UInt64
  deriving DecidableEq, Repr

def RegRegisterBuffers : UInt64 := 0
def RegRegisterFiles : UInt64 := 2

def registerArray (opcode : UInt64) (fd : Int64) (b : Slice) : Option RegisterCall :=
  b.first.map fun first => ⟨fd.toUInt64, opcode, first, UInt64.ofNat b.len⟩

/-- `RegisterBuffers`. -/
def registerBuffers := registerArray RegRegisterBuffers

/-- `RegisterFiles`. -/
def registerFiles := registerArray RegRegisterFiles

inductive ArrayCall where
  | readv (fd : Int64) (iovecs : Slice) (offset : Int64)
  | writev (fd : Int64) (iovecs : Slice) (offset : Int64)
  | registerBuffers (fd : Int64) (vecs : Slice)
  | registerFiles (fd : Int64) (files : Slice)
  deriving DecidableEq, Repr

def ArrayCall.slice : ArrayCall → Slice
  | .readv _ b _ | .writev _ b _ | .registerBuffers _ b | .registerFiles _ b => b

/-- Address and length of the array in an entry. -/
def SubmitEntry.given (e : SubmitEntry) : UInt64 × Nat := (e.addr, e.len.toNat)

/-- Address and length that a call gives to the kernel, in an entry that held `e` before
or in a system call; `none` when it panics. -/
def ArrayCall.given (e : SubmitEntry) (id : UInt64) : ArrayCall → Option (UInt64 × Nat)
  | .readv fd b offset => (prepareReadv fd b offset id).map fun ws => (filledEntry e ws).given
  | .writev fd b offset => (prepareWritev fd b offset id).map fun ws => (filledEntry e ws).given
  | .registerBuffers fd b => (submit_queue.registerBuffers fd b).map fun c =>
      (c.arg, c.nrArgs.toNat)
  | .registerFiles fd b => (submit_queue.registerFiles fd b).map fun c => (c.arg, c.nrArgs.toNat)

/-- From an array at this address the kernel reads what the caller means. -/
def ArrayCall.ReadAs (mem : Memory) (c : ArrayCall) (a : UInt64) (n : Nat) : Prop :=
  match c with
  | .registerFiles _ b => mem.kernelFds a n = mem.fds b
  | c => mem.kernelIovecs a n = mem.iovecs c.slice

/-- The kernel reads the array of the call as the caller means it. -/
def ArrayCall.ReadRight (mem : Memory) (e : SubmitEntry) (id : UInt64) (c : ArrayCall) : Prop :=
  ∃ a n, c.given e id = some (a, n) ∧ c.ReadAs mem a n

/-- The fields of each iovec are the pointers at the places that the kernel reads them
from: the first one's base is its own address. -/
def PointersAreIovecs (mem : Memory) (b : Slice) : Prop :=
  ∀ i < b.len, mem.iovec (mem.wordOf b i) = ⟨mem.wordOf b (2 * i), mem.wordOf b (2 * i + 1)⟩

/-- What an array has to be for the kernel to read it as the caller means it. -/
def ArrayCall.Suits (mem : Memory) : ArrayCall → Prop
  | .readv _ b _ | .writev _ b _ => b.len < 2 ^ 32 ∧ PointersAreIovecs mem b
  | .registerBuffers _ b => PointersAreIovecs mem b
  | .registerFiles _ b => ∀ i < b.len, i ≠ 0 → mem.wordOf b i = 0

/-- A slice is not empty, and its length is an `int`; descriptors are below 2^31. -/
def ArrayCall.Valid (mem : Memory) : ArrayCall → Prop
  | .readv _ b _ | .writev _ b _ | .registerBuffers _ b => 0 < b.len ∧ b.len < 2 ^ 63
  | .registerFiles _ b =>
    0 < b.len ∧ b.len < 2 ^ 63 ∧ ∀ i < b.len, (mem.wordOf b i).toNat < 2 ^ 31

/-! ## Iovecs -/

variable {mem : Memory} {b : Slice}

theorem Slice.first_of_pos (h : 0 < b.len) : b.first = some b.data := if_pos h

/-- The kernel's iovecs are the words of the slice, two by two. -/
theorem kernelIovecs_eq_iff {n : Nat} :
    mem.kernelIovecs b.data n = mem.iovecs b ↔ n = b.len ∧ PointersAreIovecs mem b := by
  unfold Memory.kernelIovecs Memory.iovecs PointersAreIovecs
  rw [array_eq_iff]
  refine and_congr_right fun hn => ?_
  subst hn
  have hwords : ∀ i, mem.iovec (b.data + UInt64.ofNat (16 * i)) =
      ⟨mem.wordOf b (2 * i), mem.wordOf b (2 * i + 1)⟩ := by
    intro i
    unfold Memory.iovec Memory.wordOf
    rw [show 8 * (2 * i) = 16 * i by omega, show 8 * (2 * i + 1) = 16 * i + 8 by omega,
      UInt64.ofNat_add, UInt64.add_assoc]
    rfl
  simp only [hwords]
  exact forall₂_congr fun i _ => eq_comm

/-! ## Descriptors -/

/-- A small integer of 8 bytes, read in two halves. -/
theorem halves_of_small {a : UInt64} (h : (mem.uint64 a).toNat < 2 ^ 31) :
    (mem.int64 a).toInt = (mem.uint64 a).toNat ∧
      (mem.uint32 a).toInt32.toInt = (mem.uint64 a).toNat ∧
      (mem.uint32 (a + 4)).toInt32.toInt = 0 := by
  have hlow := (mem.uint32 a).toNat_lt
  have hhigh := (mem.uint32 (a + 4)).toNat_lt
  have hword : (mem.uint64 a).toNat =
      (mem.uint32 a).toNat + 2 ^ 32 * (mem.uint32 (a + 4)).toNat := by
    rw [Memory.uint64, UInt64.toNat_ofNat']
    exact Nat.mod_eq_of_lt (by omega)
  have hint : (mem.int64 a).toInt = ((mem.uint64 a).toNat : Int).bmod (2 ^ 64) :=
    BitVec.toInt_eq_toNat_bmod _
  have hlowint : (mem.uint32 a).toInt32.toInt = ((mem.uint32 a).toNat : Int).bmod (2 ^ 32) :=
    BitVec.toInt_eq_toNat_bmod _
  have hhighint : (mem.uint32 (a + 4)).toInt32.toInt =
      ((mem.uint32 (a + 4)).toNat : Int).bmod (2 ^ 32) := BitVec.toInt_eq_toNat_bmod _
  rw [hint, hlowint, hhighint, Int.bmod_def, Int.bmod_def, Int.bmod_def]
  omega

/-- The kernel reads a descriptor, then 0, then the next one. -/
theorem kernelFd_eq (h : ∀ i < b.len, (mem.wordOf b i).toNat < 2 ^ 31) {i : Nat}
    (hi : i < b.len) :
    (mem.uint32 (b.data + UInt64.ofNat (4 * i))).toInt32.toInt =
      if i % 2 = 0 then ((mem.wordOf b (i / 2)).toNat : Int) else 0 := by
  obtain ⟨-, hlow, hhigh⟩ := halves_of_small (h (i / 2) (by omega))
  by_cases heven : i % 2 = 0
  · rw [if_pos heven, show 4 * i = 8 * (i / 2) by omega]
    exact hlow
  · rw [if_neg heven, show 4 * i = 8 * (i / 2) + 4 by omega, UInt64.ofNat_add, ← UInt64.add_assoc]
    exact hhigh

/-- Every second descriptor would have to be 0, and with it the one at twice its place. -/
theorem kernelFds_eq_iff {n : Nat} (h : ∀ i < b.len, (mem.wordOf b i).toNat < 2 ^ 31) :
    mem.kernelFds b.data n = mem.fds b ↔
      n = b.len ∧ ∀ i < b.len, i ≠ 0 → mem.wordOf b i = 0 := by
  unfold Memory.kernelFds Memory.fds
  rw [array_eq_iff]
  refine and_congr_right fun hn => ?_
  subst hn
  have hplace : ∀ i < b.len, ((mem.uint32 (b.data + UInt64.ofNat (4 * i))).toInt32.toInt =
        (mem.int64 (b.data + UInt64.ofNat (8 * i))).toInt ↔
      (if i % 2 = 0 then (mem.wordOf b (i / 2)).toNat else 0) = (mem.wordOf b i).toNat) := by
    intro i hi
    have hint : (mem.int64 (b.data + UInt64.ofNat (8 * i))).toInt = (mem.wordOf b i).toNat :=
      (halves_of_small (h i hi)).1
    rw [kernelFd_eq h hi, hint]
    split_ifs <;> omega
  constructor
  · -- by strong induction: the place before the last doubling is 0 already
    intro hall i
    induction i using Nat.strong_induction_on with
    | _ i ih =>
      intro hi hne
      have hsame := (hplace i hi).mp (hall i hi)
      apply UInt64.toNat_inj.mp
      rw [← hsame]
      split_ifs with heven
      · rw [ih (i / 2) (by omega) (by omega) (by omega)]
      · rfl
  · intro hzero i hi
    rw [hplace i hi]
    by_cases hne : i = 0
    · rw [hne]
      rfl
    · rw [hzero i hi hne]
      split_ifs with heven
      · rw [hzero (i / 2) (by omega) (by omega)]
      · rfl

/-! ## The law -/

/-- The length that reaches the kernel. -/
def ArrayCall.count : ArrayCall → Nat
  | .readv _ b _ | .writev _ b _ => b.len % 2 ^ 32
  | .registerBuffers _ b | .registerFiles _ b => b.len % 2 ^ 64

theorem ArrayCall.given_eq {c : ArrayCall} (h : 0 < c.slice.len) (e : SubmitEntry) (id : UInt64) :
    c.given e id = some (c.slice.data, c.count) := by
  have hfirst := Slice.first_of_pos h
  cases c with
  | readv fd b offset | writev fd b offset =>
    simp only [ArrayCall.given, prepareReadv, prepareWritev, prepareVector, ArrayCall.slice] at *
    rw [hfirst]
    simp [SubmitEntry.given, filledEntry, FieldWrite.apply, ArrayCall.count]
  | registerBuffers fd b | registerFiles fd b =>
    simp only [ArrayCall.given, submit_queue.registerBuffers, submit_queue.registerFiles,
      registerArray, ArrayCall.slice] at *
    rw [hfirst]
    simp [ArrayCall.count]

/-- For every memory, every non-empty slice and whatever the entry held before: the kernel
reads the array as the caller means it, exactly if
- for iovecs, their number fits `Len` where it is cut to 32 bits, and the two fields of the
  `i`-th iovec are the words at the places `2 * i` and `2 * i + 1` of the slice, that is,
  pointers to iovecs or what lies behind the slice;
- for descriptors, all but the first one are 0. -/
theorem arrays_are_read_as_meant_iff (mem : Memory) (e : SubmitEntry) (id : UInt64) (c : ArrayCall)
    (h : c.Valid mem) : c.ReadRight mem e id ↔ c.Suits mem := by
  have hpos : 0 < c.slice.len := by cases c <;> exact h.1
  unfold ArrayCall.ReadRight
  rw [ArrayCall.given_eq hpos]
  simp only [Option.some.injEq, Prod.mk.injEq, ↓existsAndEq, and_true, true_and]
  cases c with
  | readv fd b offset | writev fd b offset =>
    refine kernelIovecs_eq_iff.trans (and_congr_left fun _ => ⟨fun hmod => ?_, Nat.mod_eq_of_lt⟩)
    rw [← show b.len % 2 ^ 32 = b.len from hmod]
    exact Nat.mod_lt _ (by decide)
  | registerBuffers fd b =>
    have hlen : b.len % 2 ^ 64 = b.len := Nat.mod_eq_of_lt (Nat.lt_trans h.2 (by decide))
    refine kernelIovecs_eq_iff.trans ⟨fun hboth => hboth.2, fun hp => ⟨hlen, hp⟩⟩
  | registerFiles fd b =>
    have hlen : b.len % 2 ^ 64 = b.len := Nat.mod_eq_of_lt (Nat.lt_trans h.2.1 (by decide))
    exact (kernelFds_eq_iff h.2.2).trans ⟨fun hboth => hboth.2, fun hz => ⟨hlen, hz⟩⟩

/-- A memory with bytes at some addresses and 0 at all others. -/
def Memory.ofBytes (bytes : List (UInt64 × UInt8)) : Memory :=
  fun a => (bytes.lookup a).getD 0

/-- Two files, with descriptors 5 and 0. And two iovecs that lie in the slice of their own
pointers and behind it: at 0x1000, of 0x1010 bytes at 0x1000; and at 0x1010, of 8 bytes at
0x3000. -/
theorem two_elements_are_read_as_meant :
    ArrayCall.ReadRight (.ofBytes [(0x1000, 5)]) .zero 1 (.registerFiles 3 ⟨0x1000, 2⟩) ∧
      ArrayCall.ReadRight
        (.ofBytes [(0x1001, 0x10), (0x1008, 0x10), (0x1009, 0x10), (0x1011, 0x30), (0x1018, 8)])
        .zero 1 (.readv 3 ⟨0x1000, 2⟩ 0) :=
  ⟨(arrays_are_read_as_meant_iff (.ofBytes [(0x1000, 5)]) .zero 1 (.registerFiles 3 ⟨0x1000, 2⟩)
      ⟨by decide, by decide, by decide⟩).mpr (by unfold ArrayCall.Suits; decide),
    (arrays_are_read_as_meant_iff
      (.ofBytes [(0x1001, 0x10), (0x1008, 0x10), (0x1009, 0x10), (0x1011, 0x30), (0x1018, 8)])
      .zero 1 (.readv 3 ⟨0x1000, 2⟩ 0) ⟨by decide, by decide⟩).mpr
      ⟨by decide, by unfold PointersAreIovecs; decide⟩⟩

/-- Two files, with descriptors 5 and 6: the kernel reads 5 and 0. And one iovec of 8 bytes
at 0x3000, which is at 0x2000 itself: the kernel reads an iovec at 0x2000 of no bytes. -/
theorem the_second_file_is_read_as_zero :
    (ArrayCall.registerFiles 3 ⟨0x1000, 2⟩).given .zero 1 = some (0x1000, 2) ∧
      Memory.kernelFds (.ofBytes [(0x1000, 5), (0x1008, 6)]) 0x1000 2 = [5, 0] ∧
      Memory.fds (.ofBytes [(0x1000, 5), (0x1008, 6)]) ⟨0x1000, 2⟩ = [5, 6] ∧
      (ArrayCall.readv 3 ⟨0x1000, 1⟩ 0).given .zero 1 = some (0x1000, 1) ∧
      Memory.kernelIovecs (.ofBytes [(0x1001, 0x20), (0x2001, 0x30), (0x2008, 8)]) 0x1000 1 =
        [⟨0x2000, 0⟩] ∧
      Memory.iovecs (.ofBytes [(0x1001, 0x20), (0x2001, 0x30), (0x2008, 8)]) ⟨0x1000, 1⟩ =
        [⟨0x3000, 8⟩] := by
  decide

end iouring.submit_queue
