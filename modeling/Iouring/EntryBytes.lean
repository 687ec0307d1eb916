-- The entries of the submission queue as the kernel sees them: 64 bytes for each slot. The
-- callers write fields at the offsets that Go gives them, several callers to several slots at a
-- time, and the kernel reads at the offsets of its own struct.
import Iouring.Bytes
import Iouring.SubmitSteps

open bytes counter machine

namespace iouring.submit_queue

/-! ## The two layouts -/

/-- The fields of `SubmitEntry` in their order, with the sizes and alignments of their types. -/
def entryFields : List Field :=
  [⟨1, 1⟩, ⟨1, 1⟩, ⟨2, 2⟩, ⟨4, 4⟩, ⟨8, 8⟩, ⟨8, 8⟩, ⟨4, 4⟩, ⟨4, 4⟩, ⟨8, 8⟩, ⟨24, 1⟩]

/-- `unsafe.Sizeof(SubmitEntry{})`. -/
def sqeSize : Nat := 64

/-- Which field is written, and its bytes. -/
def FieldWrite.bytes : FieldWrite → Nat × List UInt8
  | .opcode v => (0, ofNat 1 v.toNat)
  | .flags v => (1, ofNat 1 v.toNat)
  | .ioprio v => (2, ofNat 2 v.toNat)
  | .fd v => (3, ofNat 4 v.toUInt32.toNat)
  | .offset v => (4, ofNat 8 v.toNat)
  | .addr v => (5, ofNat 8 v.toNat)
  | .len v => (6, ofNat 4 v.toNat)
  | .uflags v => (7, ofNat 4 v.toUInt32.toNat)
  | .userData v => (8, ofNat 8 v.toNat)
  | .anon0 v => (9, v.toList)

/-- A write to a field of the entry in a slot of `sq.Entries`, which starts at `base`. -/
def writeBytes (base : Nat) (mem : Nat → UInt8) (w : Nat × FieldWrite) : Nat → UInt8 :=
  storeElement mem base sqeSize entryFields w.1 w.2.bytes.1 w.2.bytes.2

/-- A number of `k` bytes of the kernel's struct at `a`. -/
def number (mem : Nat → UInt8) (a k : Nat) : Nat := toNat (load mem a k)

/-- `struct io_uring_sqe` at `a`. -/
def sqe (mem : Nat → UInt8) (a : Nat) : SubmitEntry where
  opcode := .ofNat (number mem a 1)
  flags := .ofNat (number mem (a + 1) 1)
  ioprio := .ofNat (number mem (a + 2) 2)
  fd := (UInt32.ofNat (number mem (a + 4) 4)).toInt32
  offset := .ofNat (number mem (a + 8) 8)
  addr := .ofNat (number mem (a + 16) 8)
  len := .ofNat (number mem (a + 24) 4)
  uflags := (UInt32.ofNat (number mem (a + 28) 4)).toInt32
  userData := .ofNat (number mem (a + 32) 8)
  anon0 := Vector.ofFn fun i => (load mem (a + 40) 24).getD i 0

/-! ## One write -/

/-- The entry that the bytes of the fields make. -/
def ofFields (bs : List (List UInt8)) : SubmitEntry where
  opcode := .ofNat (toNat (bs.getD 0 []))
  flags := .ofNat (toNat (bs.getD 1 []))
  ioprio := .ofNat (toNat (bs.getD 2 []))
  fd := (UInt32.ofNat (toNat (bs.getD 3 []))).toInt32
  offset := .ofNat (toNat (bs.getD 4 []))
  addr := .ofNat (toNat (bs.getD 5 []))
  len := .ofNat (toNat (bs.getD 6 []))
  uflags := (UInt32.ofNat (toNat (bs.getD 7 []))).toInt32
  userData := .ofNat (toNat (bs.getD 8 []))
  anon0 := Vector.ofFn fun i => (bs.getD 9 []).getD i 0

/-- The two layouts are the same. -/
theorem sqe_eq_ofFields (mem : Nat → UInt8) (base i : Nat) :
    sqe mem (base + sqeSize * i) = ofFields (element mem base sqeSize entryFields i) := rfl

theorem bytes_field (w : FieldWrite) :
    ∃ f, entryFields[w.bytes.1]? = some f ∧ w.bytes.2.length = f.size := by
  cases w with
  | anon0 v => exact ⟨_, rfl, v.size_toArray⟩
  | _ => exact ⟨_, rfl, length_ofNat _ _⟩

/-- Whatever the other fields hold, the bytes of a write give its value back. -/
theorem ofFields_set {bs : List (List UInt8)} (h : bs.length = 10) (w : FieldWrite) :
    ofFields (bs.set w.bytes.1 w.bytes.2) = w.apply (ofFields bs) := by
  have hself : ∀ i v, i < 10 → (bs.set i v)[i]?.getD [] = v := by
    intro i v hi
    rw [List.getElem?_set_self (by omega), Option.getD_some]
  cases w <;> simp [ofFields, FieldWrite.bytes, FieldWrite.apply, hself, toNat_ofNat]

theorem length_element (mem : Nat → UInt8) (base i : Nat) :
    (element mem base sqeSize entryFields i).length = 10 := rfl

/-- A write to the bytes of a slot is a write to the entry in it. -/
theorem sqe_writeBytes (base : Nat) (mem : Nat → UInt8) (w : Nat × FieldWrite) :
    (fun i => sqe (writeBytes base mem w) (base + sqeSize * i)) =
      Function.update (fun i => sqe mem (base + sqeSize * i)) w.1
        (w.2.apply (sqe mem (base + sqeSize * w.1))) := by
  obtain ⟨f, hfield, hlen⟩ := bytes_field w.2
  simp only [sqe_eq_ofFields, writeBytes,
    element_storeElement (show extent 0 entryFields ≤ sqeSize by decide) hfield hlen]
  funext i
  by_cases hi : i = w.1
  · subst hi
    rw [Function.update_self, Function.update_self, ofFields_set (length_element _ _ _)]
  · rw [Function.update_of_ne hi, Function.update_of_ne hi]

/-- New memory holds entries that are zero. -/
theorem sqe_zero (a : Nat) : sqe (fun _ => 0) a = .zero := by
  have hload : ∀ a k, load (fun _ => 0) a k = List.replicate k 0 := by
    intro a k
    simp [load]
  have hnumber : ∀ a k, number (fun _ => 0) a k = 0 := by
    intro a k
    rw [number, hload]
    induction k with
    | zero => rfl
    | succ k ih => rw [List.replicate_succ, bytes.toNat, ih, UInt8.toNat_zero]
  unfold sqe SubmitEntry.zero
  simp only [hnumber, hload, List.getD_eq_getElem?_getD, List.getElem?_getD_replicate_default_eq,
    SubmitEntry.mk.injEq]
  refine ⟨rfl, rfl, rfl, rfl, rfl, rfl, rfl, rfl, rfl, ?_⟩
  ext i hi
  simp

/-! ## Whole runs -/

variable {ι : Type} [DecidableEq ι]

/-- The slot and the field that a step writes. -/
def fieldWrite (z : Size) (s : State ι) : Act ι → Option (Nat × FieldWrite)
  | .write g w =>
    match s.pc g with
    | .holding r => some (slotOf z r.tail, w)
    | _ => none
  | .step g =>
    match s.pc g with
    | .reset r (w :: _) => some (slotOf z r.tail, w)
    | _ => none
  | _ => none

/-- The queue with the memory that its entries lie in. -/
structure ByteState (ι : Type) where
  queue : State ι
  mem : Nat → UInt8

def byteStep (z : Size) (base : Nat) (s : ByteState ι) (a : Act ι) : Option (ByteState ι) :=
  (step z s.queue a).map fun q =>
    ⟨q, (fieldWrite z s.queue a).elim s.mem (writeBytes base s.mem)⟩

/-- The kernel finds in each slot the entry that the callers have made. -/
def ReadsEntries (base : Nat) (s : ByteState ι) : Prop :=
  ∀ i, sqe s.mem (base + sqeSize * i) = s.queue.mem.entries i

/-- A step changes the entries by its write only. -/
theorem entries_of_move {z : Size} {s s' : State ι} {a : Act ι} (hm : Move z s a s') :
    s'.mem.entries = (fieldWrite z s a).elim s.mem.entries fun w =>
      Function.update s.mem.entries w.1 (w.2.apply (s.mem.entries w.1)) := by
  cases hm with
  | write w h => simp [fieldWrite, h, State.setEntry]
  | reset h => simp [fieldWrite, h, State.setEntry, State.goto]
  | syscall h => simp [fieldWrite, h, consume_mem]
  | _ => simp [fieldWrite, *, State.goto, storeArray]

theorem readsEntries_step {z : Size} {base : Nat} {s s' : ByteState ι} {a : Act ι}
    (hi : ReadsEntries base s) (h : byteStep z base s a = some s') : ReadsEntries base s' := by
  obtain ⟨q, hq, rfl⟩ := Option.map_eq_some_iff.mp h
  have hentries := entries_of_move (step_move hq)
  have hread : (fun i => sqe s.mem (base + sqeSize * i)) = s.queue.mem.entries := funext hi
  intro i
  cases hw : fieldWrite z s.queue a with
  | none =>
    rw [hw] at hentries
    simp only [Option.elim_none] at hentries ⊢
    rw [hentries]
    exact hi i
  | some w =>
    rw [hw] at hentries
    simp only [Option.elim_some] at hentries ⊢
    rw [hentries, ← hi w.1, ← hread, ← sqe_writeBytes]

/-- For any number of goroutines that write to their entries in any order: at any time, the 64
bytes of each slot are to the kernel the entry that its fields make. -/
theorem the_kernel_reads_the_entries (z : Size) (base : Nat) (as : List (Act ι)) :
    Always (byteStep z base) (ReadsEntries base) ⟨init ι, fun _ => 0⟩ as := by
  refine always_of_invariant (fun _ _ _ hi h => readsEntries_step hi h) (fun _ hi => hi) ?_ as
  exact fun i => sqe_zero _

end iouring.submit_queue
