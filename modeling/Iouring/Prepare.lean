-- The `Prepare` functions of the ring and of `ringFIO`: which fields each one
-- writes over the entry that `SubmitEntry` has reset, and what of the entry's
-- earlier contents is left under them.
import Iouring.SubmitSolo

open counter machine

namespace iouring.submit_queue

/-! ## The arguments -/

/-- `Opcode` of `consts.go`, in the order of the constants. -/
inductive Opcode where
  | nop
  | readv
  | writev
  | fsync
  | readFixed
  | writeFixed
  | pollAdd
  | pollRemove
  | syncFileRange
  | sendMsg
  | recvMsg
  | timeout
  | timeoutRemove
  | accept
  | asyncCancel
  | linkTimeout
  | connect
  | fallocate
  | openAt
  | close
  | filesUpdate
  | statx
  | read
  | write
  | fadvise
  | madvise
  | send
  | recv
  | openat2
  | epollCtl
  | splice
  | provideBuffers
  | removeBuffers
  deriving DecidableEq, Repr

def Opcode.code (o : Opcode) : UInt8 := UInt8.ofNat o.ctorIdx

/-- A slice or a string: the address of its first element and its length. -/
structure Slice where
  data : UInt64
  len : Nat
  deriving DecidableEq, Repr

/-- The address `&b[0]`, a panic when there is no element. -/
def Slice.first (b : Slice) : Option UInt64 := if 0 < b.len then some b.data else none

/-- A parameter that refers to an object: where the parameter itself is, and the
address of the object, 0 for nil. -/
structure Ref where
  var : UInt64
  obj : UInt64
  deriving DecidableEq, Repr

/-! ## The encoders

Each one gives its writes in their order. The addresses are those of the run,
and `id` is what `Ring.ID` has returned. -/

/-- `Ring.PrepareAccept`. The address is that of the parameter. -/
def prepareAccept (fd : Int64) (addr : Ref) (socklen : UInt32) (flags : Int64) (id : UInt64) :
    List FieldWrite :=
  [.opcode Opcode.accept.code, .userData id, .fd fd.toInt32, .addr addr.var,
    .offset socklen.toUInt64, .uflags flags.toInt32]

/-- `Ring.PrepareClose`. -/
def prepareClose (fd : Int64) (id : UInt64) : List FieldWrite :=
  [.opcode Opcode.close.code, .userData id, .fd fd.toInt32]

/-- `Ring.PrepareConnect`. The address is that of the parameter. -/
def prepareConnect (fd : Int64) (addr : Ref) (socklen : UInt32) (id : UInt64) : List FieldWrite :=
  [.opcode Opcode.connect.code, .userData id, .fd fd.toInt32, .addr addr.var, .len socklen]

/-- `Ring.PrepareFadvise`. -/
def prepareFadvise (fd : Int64) (offset : UInt64) (n : UInt32) (advise : Int64) (id : UInt64) :
    List FieldWrite :=
  [.opcode Opcode.fadvise.code, .userData id, .fd fd.toInt32, .len n, .offset offset,
    .uflags advise.toInt32]

/-- `Ring.PrepareFallocate`. -/
def prepareFallocate (fd : Int64) (mode : UInt32) (offset n : Int64) (id : UInt64) :
    List FieldWrite :=
  [.opcode Opcode.fallocate.code, .userData id, .fd fd.toInt32, .addr n.toUInt64, .len mode,
    .offset offset.toUInt64]

/-- `Ring.PrepareFsync`. -/
def prepareFsync (fd flags : Int64) (id : UInt64) : List FieldWrite :=
  [.opcode Opcode.fsync.code, .userData id, .fd fd.toInt32, .uflags flags.toInt32]

/-- `Ring.PrepareNop`. -/
def prepareNop (id : UInt64) : List FieldWrite :=
  [.opcode Opcode.nop.code, .userData id, .fd (-1)]

/-- `Ring.PreparePollAdd`. -/
def preparePollAdd (fd mask : Int64) (id : UInt64) : List FieldWrite :=
  [.opcode Opcode.pollAdd.code, .fd fd.toInt32, .uflags mask.toInt32, .userData id]

/-- `PrepareReadv` and `PrepareWritev`. -/
def prepareVector (op : Opcode) (fd : Int64) (iovecs : Slice) (offset : Int64) (id : UInt64) :
    Option (List FieldWrite) :=
  iovecs.first.map fun first =>
    [.opcode op.code, .userData id, .fd fd.toInt32, .addr first, .len (UInt32.ofNat iovecs.len),
      .offset offset.toUInt64]

/-- `Ring.PrepareReadv`. -/
def prepareReadv := prepareVector .readv

/-- `Ring.PrepareWritev`. -/
def prepareWritev := prepareVector .writev

/-- `Ring.PrepareRecvmsg`. -/
def prepareRecvmsg (fd : Int64) (msg : UInt64) (flags : Int64) (id : UInt64) : List FieldWrite :=
  [.opcode Opcode.recvMsg.code, .userData id, .fd fd.toInt32, .addr msg, .len 1, .offset 0,
    .uflags flags.toInt32]

/-- `binary.LittleEndian.PutUint32(anon[4:], v)` on a zero array. -/
def spliceAnon (v : UInt32) : Vector UInt8 24 :=
  #v[0, 0, 0, 0, v.toUInt8, (v >>> 8).toUInt8, (v >>> 16).toUInt8, (v >>> 24).toUInt8,
    0, 0, 0, 0, 0, 0, 0, 0, 0, 0, 0, 0, 0, 0, 0, 0]

/-- `Ring.PrepareSplice`. The addresses are those of the parameters. -/
def prepareSplice (inFd : Int64) (inOff : Ref) (outFd : Int64) (outOff : Ref) (n flags : Int64)
    (id : UInt64) : List FieldWrite :=
  [.opcode Opcode.splice.code, .fd outFd.toInt32,
    .addr (if inOff.obj ≠ 0 then inOff.var else 0), .len n.toUInt64.toUInt32,
    .offset (if outOff.obj ≠ 0 then outOff.var else 0), .uflags flags.toInt32,
    .anon0 (spliceAnon inFd.toUInt64.toUInt32), .userData id]

/-- `Ring.PrepareStatx`. `saferStringToBytes` gives the bytes of the string itself. -/
def prepareStatx (dirfd : Int64) (path : Slice) (flags mask : Int64) (statx id : UInt64) :
    List FieldWrite :=
  [.opcode Opcode.statx.code, .fd dirfd.toInt32] ++ path.first.toList.map .addr ++
    [.len mask.toUInt64.toUInt32, .offset statx, .uflags flags.toInt32, .userData id]

/-- `Ring.PrepareTimeout`. -/
def prepareTimeout (ts : UInt64) (count flags : Int64) (id : UInt64) : List FieldWrite :=
  [.opcode Opcode.timeout.code, .userData id, .uflags flags.toInt32, .fd (-1), .addr ts, .len 1,
    .offset count.toUInt64]

/-- `Ring.PrepareTimeoutRemove`. -/
def prepareTimeoutRemove (data : UInt64) (flags : Int64) (id : UInt64) : List FieldWrite :=
  [.opcode Opcode.timeoutRemove.code, .userData id, .uflags flags.toInt32, .fd (-1), .addr data,
    .len 0, .offset 0]

/-- A transfer between a buffer and a place of a file. -/
def prepareTransfer (op : Opcode) (fd : Int32) (b : Slice) (offset : UInt64) (flags : UInt8)
    (id : UInt64) : Option (List FieldWrite) :=
  b.first.map fun first =>
    [.opcode op.code, .userData id, .fd fd, .len (UInt32.ofNat b.len), .flags flags,
      .offset offset, .addr first]

/-- `Ring.PrepareRead`. -/
def prepareRead (fd : Int64) := prepareTransfer .read fd.toInt32

/-- `Ring.PrepareWrite`. -/
def prepareWrite (fd : Int64) := prepareTransfer .write fd.toInt32

/-- `ringFIO.PrepareRead`, with the offset that it loads. -/
def fioPrepareRead (fd : Int32) (b : Slice) (fOffset : Int64) :=
  prepareTransfer .read fd b fOffset.toUInt64

/-- `ringFIO.PrepareWrite`, with the offset that it loads. -/
def fioPrepareWrite (fd : Int32) (b : Slice) (fOffset : Int64) :=
  prepareTransfer .write fd b fOffset.toUInt64

/-- A transfer between a buffer and a descriptor, at no place. -/
def prepareBuffer (op : Opcode) (fd : Int64) (b : Slice) (flags : UInt8) (id : UInt64) :
    Option (List FieldWrite) :=
  b.first.map fun first =>
    [.opcode op.code, .userData id, .fd fd.toInt32, .len (UInt32.ofNat b.len), .flags flags,
      .addr first]

/-- `Ring.PrepareReadFixed`. -/
def prepareReadFixed := prepareBuffer .readFixed

/-- `Ring.PrepareWriteFixed`. -/
def prepareWriteFixed := prepareBuffer .writeFixed

/-- `Ring.PrepareSend`. -/
def prepareSend := prepareBuffer .send

/-- `Ring.PrepareRecv`. -/
def prepareRecv := prepareBuffer .recv

/-- A call of one of the `Prepare` functions, with its arguments. -/
inductive Prepare where
  | accept (fd : Int64) (addr : Ref) (socklen : UInt32) (flags : Int64)
  | close (fd : Int64)
  | connect (fd : Int64) (addr : Ref) (socklen : UInt32)
  | fadvise (fd : Int64) (offset : UInt64) (n : UInt32) (advise : Int64)
  | fallocate (fd : Int64) (mode : UInt32) (offset n : Int64)
  | fsync (fd flags : Int64)
  | nop
  | pollAdd (fd mask : Int64)
  | readv (fd : Int64) (iovecs : Slice) (offset : Int64)
  | recvmsg (fd : Int64) (msg : UInt64) (flags : Int64)
  | splice (inFd : Int64) (inOff : Ref) (outFd : Int64) (outOff : Ref) (n flags : Int64)
  | statx (dirfd : Int64) (path : Slice) (flags mask : Int64) (statx : UInt64)
  | timeout (ts : UInt64) (count flags : Int64)
  | timeoutRemove (data : UInt64) (flags : Int64)
  | read (fd : Int64) (b : Slice) (offset : UInt64) (flags : UInt8)
  | readFixed (fd : Int64) (b : Slice) (flags : UInt8)
  | write (fd : Int64) (b : Slice) (offset : UInt64) (flags : UInt8)
  | writeFixed (fd : Int64) (b : Slice) (flags : UInt8)
  | writev (fd : Int64) (iovecs : Slice) (offset : Int64)
  | send (fd : Int64) (b : Slice) (flags : UInt8)
  | recv (fd : Int64) (b : Slice) (flags : UInt8)
  | fioRead (fd : Int32) (b : Slice) (fOffset : Int64) (flags : UInt8)
  | fioWrite (fd : Int32) (b : Slice) (fOffset : Int64) (flags : UInt8)
  deriving DecidableEq, Repr

/-- The writes of a call, or `none` when it panics before the entry is committed. -/
def Prepare.writes (id : UInt64) : Prepare → Option (List FieldWrite)
  | .accept fd addr socklen flags => some (prepareAccept fd addr socklen flags id)
  | .close fd => some (prepareClose fd id)
  | .connect fd addr socklen => some (prepareConnect fd addr socklen id)
  | .fadvise fd offset n advise => some (prepareFadvise fd offset n advise id)
  | .fallocate fd mode offset n => some (prepareFallocate fd mode offset n id)
  | .fsync fd flags => some (prepareFsync fd flags id)
  | .nop => some (prepareNop id)
  | .pollAdd fd mask => some (preparePollAdd fd mask id)
  | .readv fd iovecs offset => prepareReadv fd iovecs offset id
  | .recvmsg fd msg flags => some (prepareRecvmsg fd msg flags id)
  | .splice inFd inOff outFd outOff n flags =>
    some (prepareSplice inFd inOff outFd outOff n flags id)
  | .statx dirfd path flags mask buf => some (prepareStatx dirfd path flags mask buf id)
  | .timeout ts count flags => some (prepareTimeout ts count flags id)
  | .timeoutRemove data flags => some (prepareTimeoutRemove data flags id)
  | .read fd b offset flags => prepareRead fd b offset flags id
  | .readFixed fd b flags => prepareReadFixed fd b flags id
  | .write fd b offset flags => prepareWrite fd b offset flags id
  | .writeFixed fd b flags => prepareWriteFixed fd b flags id
  | .writev fd iovecs offset => prepareWritev fd iovecs offset id
  | .send fd b flags => prepareSend fd b flags id
  | .recv fd b flags => prepareRecv fd b flags id
  | .fioRead fd b fOffset flags => fioPrepareRead fd b fOffset flags id
  | .fioWrite fd b fOffset flags => fioPrepareWrite fd b fOffset flags id

/-- The call is `PrepareSplice`, the one that writes to `Anon0`. -/
def Prepare.isSplice : Prepare → Bool
  | .splice .. => true
  | _ => false

/-! ## What is left of the earlier contents -/

def SubmitEntry.withAnon (e : SubmitEntry) (a : Vector UInt8 24) : SubmitEntry :=
  { e with anon0 := a }

/-- What a write makes of `Anon0`. -/
def FieldWrite.anonAfter (a : Vector UInt8 24) : FieldWrite → Vector UInt8 24
  | .anon0 v => v
  | _ => a

/-- Writes act on `Anon0` and on the other fields apart from each other. -/
theorem foldl_apply_withAnon (ws : List FieldWrite) (e : SubmitEntry) (a : Vector UInt8 24) :
    ws.foldl FieldWrite.apply (e.withAnon a) =
      (ws.foldl FieldWrite.apply e).withAnon (ws.foldl FieldWrite.anonAfter a) := by
  induction ws generalizing e a with
  | nil => rfl
  | cons w ws ih =>
    have hw : w.apply (e.withAnon a) = (w.apply e).withAnon (w.anonAfter a) := by
      cases w <;> rfl
    rw [List.foldl_cons, hw, ih]
    rfl

/-- The entry that a caller leaves depends on the earlier contents by `Anon0` alone. -/
theorem filledEntry_eq (e : SubmitEntry) (ws : List FieldWrite) :
    filledEntry e ws =
      (filledEntry .zero ws).withAnon (ws.foldl FieldWrite.anonAfter e.anon0) := by
  have hreset : resetWrites.foldl FieldWrite.apply e =
      (resetWrites.foldl FieldWrite.apply .zero).withAnon e.anon0 := by
    simp only [resetWrites, List.foldl_cons, List.foldl_nil, FieldWrite.apply,
      SubmitEntry.withAnon]
  unfold filledEntry
  rw [hreset, foldl_apply_withAnon]

/-- No call but `PrepareSplice` writes to `Anon0`. -/
theorem anonAfter_other {c : Prepare} {id : UInt64} {ws : List FieldWrite}
    (h : c.writes id = some ws) (hc : c.isSplice = false) (a : Vector UInt8 24) :
    ws.foldl FieldWrite.anonAfter a = a := by
  cases c with
  | splice => cases hc
  | statx dirfd path flags mask buf =>
    cases h
    unfold prepareStatx
    cases path.first <;> rfl
  | readv | writev | read | write | readFixed | writeFixed | send | recv | fioRead | fioWrite =>
    obtain ⟨first, -, rfl⟩ := Option.map_eq_some_iff.mp h
    rfl
  | _ =>
    cases h
    rfl

/-- The same call leaves the same entry in two slots exactly if it is a
`PrepareSplice` or the slots agree on `Anon0`. -/
theorem filledEntry_eq_iff {c : Prepare} {id : UInt64} {ws : List FieldWrite}
    (h : c.writes id = some ws) (e₁ e₂ : SubmitEntry) :
    filledEntry e₁ ws = filledEntry e₂ ws ↔ c.isSplice ∨ e₁.anon0 = e₂.anon0 := by
  rw [filledEntry_eq e₁, filledEntry_eq e₂]
  cases hc : c.isSplice with
  | true =>
    cases c with
    | splice =>
      cases h
      simp [prepareSplice, FieldWrite.anonAfter]
    | _ => cases hc
  | false =>
    rw [anonAfter_other h hc, anonAfter_other h hc]
    constructor
    · intro heq
      have hanon := congrArg SubmitEntry.anon0 heq
      exact Or.inr hanon
    · rintro (hfalse | heq)
      · cases hfalse
      · rw [heq]

/-! ## A call among others -/

variable {ι : Type} [DecidableEq ι]

/-- The goroutine that an act belongs to. -/
def Act.caller : Act ι → Option ι
  | .submitEntry g | .write g _ | .commit g | .enter g _ | .step g | .fail g => some g
  | .setFlags _ => none

/-- The slot whose entry an act writes to. -/
def writesTo (z : Size) (s : State ι) : Act ι → Option Nat
  | .write g _ =>
    match s.pc g with
    | .holding r => some (slotOf z r.tail)
    | _ => none
  | .step g =>
    match s.pc g with
    | .reset r (_ :: _) => some (slotOf z r.tail)
    | _ => none
  | _ => none

/-- Nobody but `g` writes to the entry of the slot. -/
def OwnSlot (z : Size) (g : ι) (slot : Nat) (s : State ι) (a : Act ι) : Prop :=
  a.caller = some g ∨ writesTo z s a ≠ some slot

instance (z : Size) (g : ι) (slot : Nat) (s : State ι) (a : Act ι) :
    Decidable (OwnSlot z g slot s a) :=
  inferInstanceAs (Decidable (a.caller = some g ∨ writesTo z s a ≠ some slot))

/-- A stretch of a run in which `g` resets the entry of its reservation, writes
`ws` to it and is about to commit it, while the others do what they like but
write to that entry. -/
structure Fills (z : Size) (g : ι) (r : Reserved) (ws : List FieldWrite) (s : State ι)
    (as : List (Act ι)) (t : State ι) : Prop where
  start : s.pc g = .reset r resetWrites
  mine : as.filter (fun a => a.caller = some g) =
    List.replicate (resetWrites.length + 1) (Act.step g) ++ ws.map (Act.write g)
  alone : Along (step z) (OwnSlot z g (slotOf z r.tail)) s as
  run : run (step z) s as = some t

/-- A step of somebody else leaves the goroutine where it is. -/
theorem other_pc {z : Size} {s s' : State ι} {a : Act ι} {g : ι} (hm : Move z s a s')
    (ha : a.caller ≠ some g) : s'.pc g = s.pc g := by
  have hother : ∀ {g' : ι}, some g' ≠ some g → g ≠ g' := fun h he => h (congrArg some he.symm)
  cases hm with
  | setFlags v => rfl
  | write w h => rfl
  | syscall h => rw [goto_pc, Function.update_of_ne (hother ha), consume_pc]
  | _ => exact Function.update_of_ne (hother ha) _ _

/-- A step leaves the entries that it does not write to. -/
theorem other_entry {z : Size} {s s' : State ι} {a : Act ι} {slot : Nat} (hm : Move z s a s')
    (hslot : writesTo z s a ≠ some slot) : s'.mem.entries slot = s.mem.entries slot := by
  cases hm with
  | @write g' r w h =>
    have hne : slot ≠ slotOf z r.tail := fun he => hslot (by simp [writesTo, h, he])
    exact Function.update_of_ne hne _ _
  | @reset g' r w todo h =>
    have hne : slot ≠ slotOf z r.tail := fun he => hslot (by simp [writesTo, h, he])
    exact Function.update_of_ne hne _ _
  | syscall h => rw [goto_mem, consume_mem]
  | _ => rfl

/-- The caller's writes go to the entry, whatever the others do meanwhile. -/
theorem writes_among {z : Size} {s t : State ι} {g : ι} {r : Reserved} {as : List (Act ι)}
    {ws : List FieldWrite} (hpc : s.pc g = .holding r)
    (hmine : as.filter (fun a => a.caller = some g) = ws.map (.write g))
    (halone : Along (step z) (OwnSlot z g (slotOf z r.tail)) s as)
    (hrun : run (step z) s as = some t) :
    t.mem.entries (slotOf z r.tail) =
      ws.foldl FieldWrite.apply (s.mem.entries (slotOf z r.tail)) := by
  induction as generalizing s ws with
  | nil =>
    cases hrun
    obtain rfl : ws = [] := List.map_eq_nil_iff.mp hmine.symm
    rfl
  | cons a as ih =>
    obtain ⟨s1, h1, hrest⟩ := run_cons_inv hrun
    obtain ⟨hown, hlater⟩ := halone s1 h1
    by_cases ha : a.caller = some g
    · rw [List.filter_cons_of_pos (by simpa using ha)] at hmine
      obtain ⟨w, ws, rfl, rfl, hrestmine⟩ := List.map_eq_cons_iff.mp hmine.symm
      simp only [step, hpc, Option.some.injEq] at h1
      have hpc1 : s1.pc g = .holding r := by rw [← h1]; exact hpc
      have hentry : s1.mem.entries (slotOf z r.tail) =
          w.apply (s.mem.entries (slotOf z r.tail)) := by
        rw [← h1]
        simp [State.setEntry]
      rw [ih hpc1 hrestmine.symm hlater hrest, hentry]
      rfl
    · rw [List.filter_cons_of_neg (by simpa using ha)] at hmine
      have hpc1 := other_pc (step_move h1) ha
      have hentry := other_entry (step_move h1) (hown.resolve_left ha)
      rw [ih (hpc1.trans hpc) hmine hlater hrest, hentry]

/-- So do the writes of `Reset` before them. -/
theorem reset_among {z : Size} {s t : State ι} {g : ι} {r : Reserved} {as : List (Act ι)}
    {todo ws : List FieldWrite} (hpc : s.pc g = .reset r todo)
    (hmine : as.filter (fun a => a.caller = some g) =
      List.replicate (todo.length + 1) (.step g) ++ ws.map (.write g))
    (halone : Along (step z) (OwnSlot z g (slotOf z r.tail)) s as)
    (hrun : run (step z) s as = some t) :
    t.mem.entries (slotOf z r.tail) =
      ws.foldl FieldWrite.apply
        (todo.foldl FieldWrite.apply (s.mem.entries (slotOf z r.tail))) := by
  induction as generalizing s todo with
  | nil => simp [List.replicate_succ] at hmine
  | cons a as ih =>
    obtain ⟨s1, h1, hrest⟩ := run_cons_inv hrun
    obtain ⟨hown, hlater⟩ := halone s1 h1
    by_cases ha : a.caller = some g
    · rw [List.filter_cons_of_pos (by simpa using ha), List.replicate_succ,
        List.cons_append, List.cons.injEq] at hmine
      obtain ⟨rfl, hmine⟩ := hmine
      cases todo with
      | nil =>
        simp only [step, stepPc, hpc, Option.some.injEq] at h1
        have hpc1 : s1.pc g = .holding r := by rw [← h1]; exact Function.update_self ..
        rw [writes_among hpc1 hmine hlater hrest, ← h1]
        rfl
      | cons w todo =>
        simp only [step, stepPc, hpc, Option.some.injEq] at h1
        have hpc1 : s1.pc g = .reset r todo := by rw [← h1]; exact Function.update_self ..
        have hentry : s1.mem.entries (slotOf z r.tail) =
            w.apply (s.mem.entries (slotOf z r.tail)) := by
          rw [← h1]
          simp [State.setEntry]
        rw [ih hpc1 hmine hlater hrest, hentry]
        rfl
    · rw [List.filter_cons_of_neg (by simpa using ha)] at hmine
      have hpc1 := other_pc (step_move h1) ha
      have hentry := other_entry (step_move h1) (hown.resolve_left ha)
      rw [ih (hpc1.trans hpc) hmine hlater hrest, hentry]

theorem Fills.entry {z : Size} {g : ι} {r : Reserved} {ws : List FieldWrite} {s t : State ι}
    {as : List (Act ι)} (h : Fills z g r ws s as t) :
    t.mem.entries (slotOf z r.tail) = filledEntry (s.mem.entries (slotOf z r.tail)) ws :=
  reset_among h.start h.mine h.alone h.run

/-- Two runs make the same call with the same id, each on a slot of its own and
with anything earlier in it. At the commit the two entries agree on all their
bytes exactly if the call is `PrepareSplice` or the slots agreed on `Anon0`. -/
theorem a_prepared_entry_is_the_calls_own_iff (z₁ z₂ : Size) (c : Prepare) (id : UInt64)
    (ws : List FieldWrite) (hws : c.writes id = some ws) (g₁ g₂ : ι) (r₁ r₂ : Reserved)
    (s₁ t₁ s₂ t₂ : State ι) (as₁ as₂ : List (Act ι)) (h₁ : Fills z₁ g₁ r₁ ws s₁ as₁ t₁)
    (h₂ : Fills z₂ g₂ r₂ ws s₂ as₂ t₂) :
    t₁.mem.entries (slotOf z₁ r₁.tail) = t₂.mem.entries (slotOf z₂ r₂.tail) ↔
      c.isSplice ∨
        (s₁.mem.entries (slotOf z₁ r₁.tail)).anon0 =
          (s₂.mem.entries (slotOf z₂ r₂.tail)).anon0 := by
  rw [h₁.entry, h₂.entry]
  exact filledEntry_eq_iff hws _ _

/-- `Reset` and the writes of a call, with the others standing still. -/
def fillActs (g : ι) (ws : List FieldWrite) : List (Act ι) :=
  List.replicate (resetWrites.length + 1) (.step g) ++ ws.map (.write g)

omit [DecidableEq ι] in
theorem fillActs_caller {g : ι} {ws : List FieldWrite} {a : Act ι} (h : a ∈ fillActs g ws) :
    a.caller = some g := by
  rcases List.mem_append.mp h with h | h
  · rw [List.eq_of_mem_replicate h]
    rfl
  · obtain ⟨w, -, rfl⟩ := List.mem_map.mp h
    rfl

theorem fillActs_run (z : Size) {s : State ι} {g : ι} {r : Reserved}
    (hpc : s.pc g = .reset r resetWrites) (ws : List FieldWrite) :
    ∃ t, run (step z) s (fillActs g ws) = some t := by
  have hsplit : fillActs g ws = List.replicate resetWrites.length (Act.step g) ++
      (Act.step g :: ws.map (.write g)) := rfl
  have hhand : ∀ m : State ι, m.pc g = .reset r [] →
      ∃ m1, step z m (.step g) = some m1 ∧ m1.pc g = .holding r := by
    intro m hm
    simp only [step, stepPc, hm]
    exact ⟨_, rfl, Function.update_self ..⟩
  obtain ⟨m1, hm1, hpc1⟩ := hhand (State.goto _ g (.reset r [])) (Function.update_self ..)
  rw [hsplit]
  exact ⟨_, run_append_of (reset_solo z hpc) (run_cons_of hm1 (writes_solo z hpc1 ws))⟩

/-- A call that starts while nobody else is in one fills the entry at `Tail`. -/
theorem fills_solo (z : Size) {s : State ι} (hq : Quiet s) (g : ι) (ws : List FieldWrite) :
    ∃ s1 t, run (step z) s (.submitEntry g :: List.replicate 5 (.step g)) = some s1 ∧
      s1.mem.entries = s.mem.entries ∧
      Fills z g ⟨s.mem.tail, s.mem.head, s.hist.tickets⟩ ws s1 (fillActs g ws) t := by
  obtain ⟨s1, hreserve, hentries, hpc⟩ :
      ∃ s1, run (step z) s (.submitEntry g :: List.replicate 5 (.step g)) = some s1 ∧
        s1.mem.entries = s.mem.entries ∧
        s1.pc g = .reset ⟨s.mem.tail, s.mem.head, s.hist.tickets⟩ resetWrites :=
    ⟨_, reserve_solo z (hq.idle g) hq.entered, rfl, Function.update_self ..⟩
  obtain ⟨t, hrun⟩ := fillActs_run z hpc ws
  refine ⟨s1, t, hreserve, hentries, hpc, ?_, ?_, hrun⟩
  · exact List.filter_eq_self.mpr fun a ha => decide_eq_true (fillActs_caller ha)
  · exact along_of_forall (fun a ha _ => Or.inl (fillActs_caller ha)) s1

/-- A splice on a fresh ring of one entry, and the same splice after another one
has used the entry: `Anon0` differs before and the entries agree after. -/
theorem a_splice_overwrites_an_earlier_splice :
    ∃ s₁ t₁ s₂ t₂ : State (Fin 1),
      Fills ⟨0, by decide⟩ 0 ⟨0, 0, 0⟩ (prepareSplice 5 ⟨0, 0⟩ 6 ⟨0, 0⟩ 8 0 2) s₁
        (fillActs 0 (prepareSplice 5 ⟨0, 0⟩ 6 ⟨0, 0⟩ 8 0 2)) t₁ ∧
      Fills ⟨0, by decide⟩ 0 ⟨1, 0, 1⟩ (prepareSplice 5 ⟨0, 0⟩ 6 ⟨0, 0⟩ 8 0 2) s₂
        (fillActs 0 (prepareSplice 5 ⟨0, 0⟩ 6 ⟨0, 0⟩ 8 0 2)) t₂ ∧
      (s₁.mem.entries 0).anon0 ≠ (s₂.mem.entries 0).anon0 ∧
      t₁.mem.entries 0 = t₂.mem.entries 0 := by
  have hquiet : Quiet (init (Fin 1)) := ⟨fun _ => rfl, rfl, rfl⟩
  obtain ⟨s₁, t₁, -, hs₁, h₁⟩ :=
    fills_solo ⟨0, by decide⟩ hquiet 0 (prepareSplice 5 ⟨0, 0⟩ 6 ⟨0, 0⟩ 8 0 2)
  obtain ⟨s₂, t₂, -, hs₂, h₂⟩ :=
    fills_solo ⟨0, by decide⟩
      (quiet_afterRound ⟨0, by decide⟩ hquiet 0 (prepareSplice 7 ⟨0, 0⟩ 6 ⟨0, 0⟩ 8 0 1)) 0
      (prepareSplice 5 ⟨0, 0⟩ 6 ⟨0, 0⟩ 8 0 2)
  refine ⟨s₁, t₁, s₂, t₂, h₁, h₂, ?_, ?_⟩
  · rw [hs₁, hs₂]
    decide
  · exact (a_prepared_entry_is_the_calls_own_iff ⟨0, by decide⟩ ⟨0, by decide⟩
      (.splice 5 ⟨0, 0⟩ 6 ⟨0, 0⟩ 8 0) 2 _ rfl 0 0 _ _ s₁ t₁ s₂ t₂ _ _ h₁ h₂).mpr (Or.inl rfl)

/-- A no-op on a fresh ring of one entry, and the same no-op after a splice from
descriptor 7 has used the entry: the descriptor is still there at the commit. -/
theorem a_splice_shows_through_a_later_nop :
    (run (step ⟨0, by decide⟩) (init (Fin 1)) (roundActs 0 (prepareNop 2))).map
        (fun s => s.hist.prepared.getLast?.map fun p => (p.2.userData, p.2.anon0)) =
      some (some (2, Vector.replicate 24 0)) ∧
    (run (step ⟨0, by decide⟩) (init (Fin 1))
        (roundActs 0 (prepareSplice 7 ⟨0, 0⟩ 6 ⟨0, 0⟩ 8 0 1) ++ enterActs 0 ⟨1, 0, 0⟩ ++
          roundActs 0 (prepareNop 2))).map
        (fun s => s.hist.prepared.getLast?.map fun p => (p.2.userData, p.2.anon0)) =
      some (some (2, spliceAnon 7)) := by
  decide

end iouring.submit_queue
