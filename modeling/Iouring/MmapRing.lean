-- What `MmapRing` asks the kernel to map, and the queues it lays over the mappings.
-- Its three calls of `mmap` do not treat a failure alike: only the first one is
-- checked, the errors of the other two are compared with zero as unsigned numbers.
import Mathlib.Data.List.Perm.Basic

namespace iouring.mmap_ring

/-! ## The parameters and the queues -/

/-- `SQRingOffset`, with the offsets that `MmapRing` reads. -/
structure SQRingOffset where
  head : UInt32
  tail : UInt32
  ringMask : UInt32
  flags : UInt32
  dropped : UInt32
  array : UInt32
  deriving DecidableEq, Repr

/-- `CQRingOffset`, with the offsets that `MmapRing` reads. -/
structure CQRingOffset where
  head : UInt32
  tail : UInt32
  ringMask : UInt32
  overflow : UInt32
  cqes : UInt32
  flags : UInt32
  deriving DecidableEq, Repr

/-- `Params`, with the fields that `MmapRing` and `Stop` read. -/
structure Params where
  sqEntries : UInt32
  cqEntries : UInt32
  flags : UInt32
  sqOffset : SQRingOffset
  cqOffset : CQRingOffset
  deriving DecidableEq, Repr

/-- A slice laid over memory; its capacity is its length. -/
structure Slice where
  data : UInt64
  len : UInt64
  deriving DecidableEq, Repr

/-- `SubmitQueue` with the addresses of its words. -/
structure SubmitQueue where
  size : UInt32
  head : UInt64
  tail : UInt64
  mask : UInt64
  flags : UInt64
  dropped : UInt64
  array : Slice
  entries : Slice
  ptr : UInt64
  deriving DecidableEq, Repr

/-- `CompletionQueue` with the addresses of its words. -/
structure CompletionQueue where
  size : UInt32
  head : UInt64
  tail : UInt64
  mask : UInt64
  overflow : UInt64
  flags : UInt64
  entries : Slice
  ptr : UInt64
  deriving DecidableEq, Repr

/-- The zero value `New` starts from. -/
def CompletionQueue.zero : CompletionQueue := ⟨0, 0, 0, 0, 0, 0, ⟨0, 0⟩, 0⟩

/-! ## The calls -/

/-- What a system call returns. It has failed if `errno` is not zero. -/
structure Ret where
  r1 : UInt64
  errno : UInt64
  deriving DecidableEq, Repr

structure Region where
  addr : UInt64
  len : UInt64
  deriving DecidableEq, Repr

/-- What a call of `mmap` with this answer has mapped. -/
def mmap (len : UInt64) (answer : Ret) : List Region :=
  if answer.errno = 0 then [⟨answer.r1, len⟩] else []

/-- The answers to the calls of `mmap`, in the order of the calls. -/
structure Mmaps where
  sq : Ret
  sqes : Ret
  cq : Ret
  deriving DecidableEq, Repr

/-- The errors of the package: one of the kernel, or one with a text in front of it. -/
inductive Error where
  | errno (e : UInt64)
  | wrap (text : String) (e : UInt64)
  deriving DecidableEq, Repr

def uint32Size : UInt64 := 4
def cqeSize : UInt64 := 16
def sqeSize : UInt64 := 64

def featSingleMmap : UInt32 := 1

/-- The bit is looked for in `Flags`, where `SetupIOPoll` has the same one. -/
def singleMmap (p : Params) : Bool := p.flags &&& featSingleMmap != 0

/-- `sq.Size` before the two sizes are made one. -/
def sqSize (p : Params) : UInt32 :=
  (p.sqOffset.array.toUInt64 + p.sqEntries.toUInt64 * uint32Size).toUInt32

/-- `cq.Size` before the two sizes are made one. -/
def cqSize (p : Params) : UInt32 :=
  (p.cqOffset.cqes.toUInt64 + p.cqEntries.toUInt64 * cqeSize).toUInt32

/-- `sq.Size` and `cq.Size` at the calls of `mmap`. -/
def sizes (p : Params) : UInt32 × UInt32 :=
  if singleMmap p then
    if cqSize p > sqSize p then (cqSize p, cqSize p) else (sqSize p, sqSize p)
  else (sqSize p, cqSize p)

def sqesLen (p : Params) : UInt64 := p.sqEntries.toUInt64 * sqeSize

/-- The submit queue over its two mappings. -/
def layoutSq (p : Params) (sqPtr sqePtr : UInt64) : SubmitQueue where
  size := (sizes p).1
  head := sqPtr + p.sqOffset.head.toUInt64
  tail := sqPtr + p.sqOffset.tail.toUInt64
  mask := sqPtr + p.sqOffset.ringMask.toUInt64
  flags := sqPtr + p.sqOffset.flags.toUInt64
  dropped := sqPtr + p.sqOffset.dropped.toUInt64
  array := ⟨sqPtr + p.sqOffset.array.toUInt64, p.sqEntries.toUInt64⟩
  entries := ⟨sqePtr, p.sqEntries.toUInt64⟩
  ptr := sqPtr

/-- The completion queue over its mapping. Its `ptr` is left as it was. -/
def layoutCq (p : Params) (cqPtr : UInt64) (cq : CompletionQueue) : CompletionQueue :=
  { cq with
    size := (sizes p).2
    head := cqPtr + p.cqOffset.head.toUInt64
    tail := cqPtr + p.cqOffset.tail.toUInt64
    mask := cqPtr + p.cqOffset.ringMask.toUInt64
    overflow := cqPtr + p.cqOffset.overflow.toUInt64
    flags := cqPtr + p.cqOffset.flags.toUInt64
    entries := ⟨cqPtr + p.cqOffset.cqes.toUInt64, p.cqEntries.toUInt64⟩ }

/-- `MmapRing`: what it has mapped when it returns, and what it returns. The submit queue
has no field that it leaves as it was. -/
def mmapRing (p : Params) (k : Mmaps) (cq : CompletionQueue) :
    List Region × Except Error (SubmitQueue × CompletionQueue) :=
  let sqMap := mmap (sizes p).1.toUInt64 k.sq
  if k.sq.errno ≠ 0 then (sqMap, .error (.wrap "failed to mmap sq ring" k.sq.errno))
  else
    let sqeMap := sqMap ++ mmap (sqesLen p) k.sqes
    if k.sqes.errno < 0 then (sqeMap, .error (.errno (-k.sqes.errno)))
    else if singleMmap p then
      (sqeMap, .ok (layoutSq p k.sq.r1 k.sqes.r1, layoutCq p k.sq.r1 cq))
    else
      let cqMap := sqeMap ++ mmap (sizes p).2.toUInt64 k.cq
      if k.cq.errno < 0 then (cqMap, .error (.errno (-k.cq.errno)))
      else (cqMap, .ok (layoutSq p k.sq.r1 k.sqes.r1, layoutCq p k.cq.r1 cq))

/-- A ring of four submit and eight completion entries, as the kernel lays it out. -/
def smallRing : Params :=
  ⟨4, 8, 0, ⟨0, 64, 256, 276, 272, 448⟩, ⟨128, 192, 260, 284, 320, 280⟩⟩

/-- Three calls that succeed. -/
def threeMaps : Mmaps := ⟨⟨0x10000, 0⟩, ⟨0x20000, 0⟩, ⟨0x30000, 0⟩⟩

/-! ## What is mapped -/

/-- The mappings next to the one of the submit queue. -/
def others (p : Params) (k : Mmaps) : List Region :=
  mmap (sqesLen p) k.sqes ++ if singleMmap p then [] else mmap (sizes p).2.toUInt64 k.cq

/-- The address of the completion queue. -/
def cqPtr (p : Params) (k : Mmaps) : UInt64 := if singleMmap p then k.sq.r1 else k.cq.r1

theorem mmapRing_of_sq_failed {p : Params} {k : Mmaps} (h : k.sq.errno ≠ 0) (cq : CompletionQueue) :
    mmapRing p k cq = ([], .error (.wrap "failed to mmap sq ring" k.sq.errno)) := by
  unfold mmapRing mmap
  simp only [if_pos h, if_neg h]

/-- Once the first call has succeeded, `MmapRing` returns nil whatever the others do. -/
theorem mmapRing_of_sq_mapped {p : Params} {k : Mmaps} (h : k.sq.errno = 0) (cq : CompletionQueue) :
    mmapRing p k cq = (⟨k.sq.r1, (sizes p).1.toUInt64⟩ :: others p k,
      .ok (layoutSq p k.sq.r1 k.sqes.r1, layoutCq p (cqPtr p k) cq)) := by
  have hsq : mmap (sizes p).1.toUInt64 k.sq = [⟨k.sq.r1, (sizes p).1.toUInt64⟩] := if_pos h
  have hnever : ∀ e : UInt64, ¬ e < 0 := fun _ => UInt64.not_lt_zero
  unfold mmapRing others cqPtr
  simp only [hsq, h, ne_eq, not_true_eq_false, if_false, hnever]
  by_cases hsingle : singleMmap p = true
  · simp [hsingle]
  · simp [hsingle]

end iouring.mmap_ring
