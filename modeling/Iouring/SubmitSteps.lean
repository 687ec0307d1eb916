-- What one step of the submission queue can do, said once, and the
-- invariants of every run that follow from it: who holds the enter lock,
-- what the write counter counts, and which slot a reservation has.
import Iouring.SubmitQueue

open counter machine

namespace iouring.submit_queue

variable {ι : Type}

/-! ## What the kernel leaves alone -/

/-- The kernel moves `Head` by the number of entries it takes, and writes no
other word of the queue. -/
theorem consume_mem (z : Size) (c : Nat) (s : State ι) :
    (consume z c s).mem = { s.mem with head := s.mem.head + word c } := by
  induction c generalizing s with
  | zero => simp [consume, word]
  | succ c ih =>
    rw [consume, ih]
    simp only [consumeOne, UInt32.add_assoc, SubmitQueue.mk.injEq, and_true]
    rw [← word_succ, UInt32.add_comm 1]

theorem consume_pc (z : Size) (c : Nat) (s : State ι) : (consume z c s).pc = s.pc := by
  induction c generalizing s with
  | zero => rfl
  | succ c ih => rw [consume, ih]; rfl

/-- The kernel only takes tickets off the lists. -/
theorem consume_hist (z : Size) (c : Nat) (s : State ι) :
    (consume z c s).hist.tickets = s.hist.tickets ∧
    (consume z c s).hist.returned = s.hist.returned ∧
    (consume z c s).hist.advanced = s.hist.advanced ∧
    (consume z c s).hist.filled = s.hist.filled ∧
    (consume z c s).hist.stored = s.hist.stored ∧
    (consume z c s).hist.prepared = s.hist.prepared ∧
    (consume z c s).hist.unread ⊆ s.hist.unread ∧
    (consume z c s).hist.pending ⊆ s.hist.pending := by
  induction c generalizing s with
  | zero => simp [consume]
  | succ c ih =>
    rw [consume]
    obtain ⟨h1, h2, h3, h4, h5, h6, h7, h8⟩ := ih (consumeOne z s)
    refine ⟨h1, h2, h3, h4, h5, h6, List.Subset.trans h7 ?_, List.Subset.trans h8 ?_⟩
    · exact List.filter_sublist.subset
    · exact List.filter_sublist.subset

@[simp] theorem setEntry_pc (s : State ι) (i : Nat) (e : SubmitEntry) :
    (s.setEntry i e).pc = s.pc := rfl

variable [DecidableEq ι]

@[simp] theorem goto_mem (s : State ι) (g : ι) (p : Pc) : (s.goto g p).mem = s.mem := rfl

@[simp] theorem goto_hist (s : State ι) (g : ι) (p : Pc) : (s.goto g p).hist = s.hist := rfl

@[simp] theorem goto_pc (s : State ι) (g : ι) (p : Pc) :
    (s.goto g p).pc = Function.update s.pc g p := rfl

/-! ## The moves -/

/-- One step, case by case: where the goroutine stood and what the step changed. -/
inductive Move (z : Size) (s : State ι) : Act ι → State ι → Prop
  | submitEntry {g : ι} (h : s.pc g = .idle) :
      Move z s (.submitEntry g) { s with
        pc := Function.update s.pc g .loadTail
        hist := { s.hist with advanced := Function.update s.hist.advanced g 0 } }
  | write {g : ι} {r : Reserved} (w : FieldWrite) (h : s.pc g = .holding r) :
      Move z s (.write g w)
        (s.setEntry (slotOf z r.tail) (w.apply (s.mem.entries (slotOf z r.tail))))
  | commit {g : ι} {r : Reserved} (h : s.pc g = .holding r) :
      Move z s (.commit g) { s with
        pc := Function.update s.pc g (.loadWrites r)
        hist := { s.hist with filled := s.hist.filled ++ [r.ticket] } }
  | enter {g : ι} (c : EnterCall) (h : s.pc g = .idle) :
      Move z s (.enter g c) (s.goto g (.needWakeup c))
  | fail {g : ι} {c : EnterCall} (h : s.pc g = .syscall c) :
      Move z s (.fail g) (s.goto g (.unlock c none))
  | setFlags (v : UInt32) : Move z s (.setFlags v) { s with mem := { s.mem with flags := v } }
  | loadTail {g : ι} (h : s.pc g = .loadTail) :
      Move z s (.step g) (s.goto g (.loadHead s.mem.tail))
  | loadHead {g : ι} {tail : UInt32} (h : s.pc g = .loadHead tail)
      (hn : next z tail ≤ UInt32.ofNat z.slots) :
      Move z s (.step g) (s.goto g (.casTail tail s.mem.head))
  | wrap {g : ι} {tail : UInt32} (h : s.pc g = .loadHead tail)
      (hn : ¬ next z tail ≤ UInt32.ofNat z.slots) :
      Move z s (.step g) (s.goto g (.restart tail))
  | casTail {g : ι} {tail head : UInt32} (h : s.pc g = .casTail tail head)
      (ht : s.mem.tail = tail) :
      Move z s (.step g) { s with
        mem := { s.mem with tail := next z tail }
        pc := Function.update s.pc g (.loadEntered ⟨tail, head, s.hist.tickets⟩)
        hist := { s.hist with
          tickets := s.hist.tickets + 1
          advanced := Function.update s.hist.advanced g (s.hist.advanced g + 1)
          unread := s.hist.unread ++ [s.hist.tickets] } }
  | casTailLost {g : ι} {tail head : UInt32} (h : s.pc g = .casTail tail head)
      (ht : s.mem.tail ≠ tail) : Move z s (.step g) (s.goto g .loadTail)
  | restart {g : ι} {tail : UInt32} (h : s.pc g = .restart tail) :
      Move z s (.step g) { s with
        mem := { s.mem with tail := if s.mem.tail = tail then 0 else s.mem.tail }
        pc := Function.update s.pc g .loadTail }
  | retry {g : ι} {r : Reserved} (h : s.pc g = .loadEntered r) (he : s.mem.entered ≠ 0) :
      Move z s (.step g) (s.goto g .loadTail)
  | pass {g : ι} {r : Reserved} (h : s.pc g = .loadEntered r) (he : s.mem.entered = 0) :
      Move z s (.step g) (s.goto g (.addWrites r))
  | addWrites {g : ι} {r : Reserved} (h : s.pc g = .addWrites r) :
      Move z s (.step g) { s with
        mem := { s.mem with writes := s.mem.writes + 1 }
        pc := Function.update s.pc g (.reset r resetWrites) }
  | reset {g : ι} {r : Reserved} {w : FieldWrite} {todo : List FieldWrite}
      (h : s.pc g = .reset r (w :: todo)) :
      Move z s (.step g)
        ((s.setEntry (slotOf z r.tail) (w.apply (s.mem.entries (slotOf z r.tail)))).goto g
          (.reset r todo))
  | handOut {g : ι} {r : Reserved} (h : s.pc g = .reset r []) :
      Move z s (.step g) { s with
        pc := Function.update s.pc g (.holding r)
        hist := { s.hist with returned := s.hist.returned + 1 } }
  | panic {g : ι} {r : Reserved} (h : s.pc g = .loadWrites r) (hw : s.mem.writes = 0) :
      Move z s (.step g) (s.goto g (.panicked r))
  | loadWrites {g : ι} {r : Reserved} (h : s.pc g = .loadWrites r) (hw : s.mem.writes ≠ 0) :
      Move z s (.step g) (s.goto g (.casWrites r s.mem.writes))
  | casWrites {g : ι} {r : Reserved} {w : UInt32} (h : s.pc g = .casWrites r w)
      (hw : s.mem.writes = w) :
      Move z s (.step g) { s with
        mem := { s.mem with writes := w - 1 }
        pc := Function.update s.pc g (.storeArray r) }
  | casWritesLost {g : ι} {r : Reserved} {w : UInt32} (h : s.pc g = .casWrites r w)
      (hw : s.mem.writes ≠ w) : Move z s (.step g) (s.goto g (.loadWrites r))
  | storeArray {g : ι} {r : Reserved} (h : s.pc g = .storeArray r) :
      Move z s (.step g) (storeArray z s g r)
  | needWakeup {g : ι} {c : EnterCall} (c' : EnterCall) (h : s.pc g = .needWakeup c) :
      Move z s (.step g) (s.goto g (.lockWrites c'))
  | lockWrites {g : ι} {c : EnterCall} (h : s.pc g = .lockWrites c) (hw : s.mem.writes ≠ 0) :
      Move z s (.step g) (s.goto g (.lockEntered c))
  | lockNoWrites {g : ι} {c : EnterCall} (h : s.pc g = .lockWrites c) (hw : s.mem.writes = 0) :
      Move z s (.step g) (s.goto g (.lockCas c))
  | lockSpin {g : ι} {c : EnterCall} (h : s.pc g = .lockEntered c) (he : s.mem.entered = 1) :
      Move z s (.step g) (s.goto g (.lockWrites c))
  | lockNotEntered {g : ι} {c : EnterCall} (h : s.pc g = .lockEntered c)
      (he : s.mem.entered ≠ 1) : Move z s (.step g) (s.goto g (.lockCas c))
  | lockCas {g : ι} {c : EnterCall} (h : s.pc g = .lockCas c) (he : s.mem.entered = 0) :
      Move z s (.step g) { s with
        mem := { s.mem with entered := 1 }
        pc := Function.update s.pc g (.syscall c) }
  | lockCasLost {g : ι} {c : EnterCall} (h : s.pc g = .lockCas c) (he : s.mem.entered ≠ 0) :
      Move z s (.step g) (s.goto g (.lockWrites c))
  | syscall {g : ι} {c : EnterCall} (h : s.pc g = .syscall c) :
      Move z s (.step g) ((consume z (consumable z s.mem c.toSubmit) s).goto g
        (.unlock c (some (consumable z s.mem c.toSubmit))))
  | unlock {g : ι} {c : EnterCall} {k : Option Nat} (h : s.pc g = .unlock c k) :
      Move z s (.step g) { s with
        mem := { s.mem with entered := 0 }
        pc := Function.update s.pc g .idle }

theorem stepPc_move {z : Size} {s s' : State ι} {g : ι} (h : stepPc z s g = some s') :
    Move z s (.step g) s' := by
  unfold stepPc at h
  split at h <;> rename_i hpc
  case h_1 => cases h
  case h_2 => cases h
  case h_3 => cases h
  case h_4 => cases h; exact .loadTail hpc
  case h_5 =>
    split at h <;> rename_i hn <;> cases h
    · exact .loadHead hpc hn
    · exact .wrap hpc hn
  case h_6 =>
    cases h
    unfold casTail
    split <;> rename_i ht
    · exact .casTail hpc ht
    · exact .casTailLost hpc ht
  case h_7 => cases h; exact .restart hpc
  case h_8 =>
    split at h <;> rename_i he <;> cases h
    · exact .retry hpc he
    · exact .pass hpc (not_not.mp he)
  case h_9 => cases h; exact .addWrites hpc
  case h_10 => cases h; exact .handOut hpc
  case h_11 => cases h; exact .reset hpc
  case h_12 =>
    split at h <;> rename_i hw <;> cases h
    · exact .panic hpc hw
    · exact .loadWrites hpc hw
  case h_13 =>
    split at h <;> rename_i hw <;> cases h
    · exact .casWrites hpc hw
    · exact .casWritesLost hpc hw
  case h_14 => cases h; exact .storeArray hpc
  case h_15 => split at h <;> cases h <;> exact .needWakeup _ hpc
  case h_16 =>
    split at h <;> rename_i hw <;> cases h
    · exact .lockWrites hpc hw
    · exact .lockNoWrites hpc (not_not.mp hw)
  case h_17 =>
    split at h <;> rename_i he <;> cases h
    · exact .lockSpin hpc he
    · exact .lockNotEntered hpc he
  case h_18 =>
    split at h <;> rename_i he <;> cases h
    · exact .lockCas hpc he
    · exact .lockCasLost hpc he
  case h_19 => cases h; exact .syscall hpc
  case h_20 => cases h; exact .unlock hpc

theorem step_move {z : Size} {s s' : State ι} {a : Act ι} (h : step z s a = some s') :
    Move z s a s' := by
  cases a with
  | step g => exact stepPc_move h
  | setFlags v => cases h; exact .setFlags v
  | submitEntry g =>
    simp only [step] at h
    split at h <;> cases h
    exact .submitEntry ‹_›
  | write g w =>
    simp only [step] at h
    split at h <;> cases h
    exact .write w ‹_›
  | commit g =>
    simp only [step] at h
    split at h <;> cases h
    exact .commit ‹_›
  | enter g c =>
    simp only [step] at h
    split at h <;> cases h
    exact .enter c ‹_›
  | fail g =>
    simp only [step] at h
    split at h <;> cases h
    exact .fail ‹_›

/-! ## The enter lock -/

/-- The goroutine is between the CAS of `enterLock` and `enterUnlock`. -/
def Pc.inside : Pc → Bool
  | .syscall _ | .unlock _ _ => true
  | _ => false

section Counts

variable [Fintype ι]

/-- `entered` is the number of goroutines inside the syscall, and that is at
most one. -/
def LockInv (s : State ι) : Prop :=
  s.mem.entered.toNat = tally Pc.inside s.pc ∧ tally Pc.inside s.pc ≤ 1

omit [DecidableEq ι] in
theorem lockInv_init : LockInv (init ι) := by
  have h : tally Pc.inside (init ι).pc = 0 := tally_eq_zero fun _ => rfl
  exact ⟨by rw [h]; rfl, by omega⟩

theorem lockInv_move {z : Size} {s s' : State ι} {a : Act ι} (hi : LockInv s)
    (hm : Move z s a s') : LockInv s' := by
  obtain ⟨hword, hone⟩ := hi
  cases hm with
  | lockCas h he =>
    rename_i g c
    have ht := tally_update Pc.inside s.pc g (.syscall c)
    rw [he] at hword
    simp only [h, Pc.inside, Bool.toNat_true, Bool.toNat_false, UInt32.toNat_zero] at ht hword
    simp only [LockInv, UInt32.toNat_one]
    omega
  | unlock h =>
    rename_i g c k
    have ht := tally_update Pc.inside s.pc g .idle
    simp only [h, Pc.inside, Bool.toNat_true, Bool.toNat_false] at ht
    simp only [LockInv, UInt32.toNat_zero]
    omega
  | syscall h =>
    simp only [LockInv, goto_mem, goto_pc, consume_mem, consume_pc]
    rw [tally_update_eq (by rw [h]; rfl)]
    exact ⟨hword, hone⟩
  | setFlags v => exact ⟨hword, hone⟩
  | write w h => exact ⟨hword, hone⟩
  | _ =>
    rename_i h
    simp only [LockInv, goto_mem, goto_pc, storeArray, State.setEntry]
    rw [tally_update_eq (by simp [*, Pc.inside])]
    exact ⟨hword, hone⟩

/-! ## The write counter -/

/-- The entry is handed out, or on its way to the caller, and the closure has
not yet taken it off the write counter. -/
def Pc.counted : Pc → Bool
  | .reset _ _ | .holding _ | .loadWrites _ | .casWrites _ _ | .panicked _ => true
  | _ => false

/-- `writes` counts the goroutines that have an entry, cut to 32 bits. -/
def WritesInv (s : State ι) : Prop := s.mem.writes = word (tally Pc.counted s.pc)

omit [DecidableEq ι] in
theorem writesInv_init : WritesInv (init ι) := by
  have h : tally Pc.counted (init ι).pc = 0 := tally_eq_zero fun _ => rfl
  rw [WritesInv, h]
  rfl

theorem writesInv_move {z : Size} {s s' : State ι} {a : Act ι} (hi : WritesInv s)
    (hm : Move z s a s') : WritesInv s' := by
  cases hm with
  | addWrites h =>
    rename_i g r
    have ht := tally_update Pc.counted s.pc g (.reset r resetWrites)
    simp only [h, Pc.counted, Bool.toNat_true, Bool.toNat_false] at ht
    simp only [WritesInv]
    rw [hi, word_succ, ← ht, Nat.add_zero]
  | casWrites h hw =>
    rename_i g r w
    have ht := tally_update Pc.counted s.pc g (.storeArray r)
    simp only [h, Pc.counted, Bool.toNat_true, Bool.toNat_false] at ht
    simp only [WritesInv]
    rw [← hw, hi, ← Nat.add_zero (tally Pc.counted s.pc), ← ht, ← word_succ]
    exact UInt32.add_sub_cancel _ _
  | syscall h =>
    simp only [WritesInv, goto_mem, goto_pc, consume_mem, consume_pc]
    rw [tally_update_eq (by rw [h]; rfl)]
    exact hi
  | setFlags v => exact hi
  | write w h => exact hi
  | _ =>
    rename_i h
    simp only [WritesInv, goto_mem, goto_pc, storeArray, State.setEntry]
    rw [tally_update_eq (by simp [*, Pc.counted])]
    exact hi

end Counts

/-! ## The tickets -/

/-- The reservation that a goroutine has, from its CAS on `Tail` to the end of
the closure. -/
def Pc.reserved : Pc → Option Reserved
  | .loadEntered r | .addWrites r | .reset r _ | .holding r | .loadWrites r | .casWrites r _
  | .storeArray r | .panicked r => some r
  | _ => none

/-- The value of `Tail` after `k` reservations: it runs through `1..n`, lap after lap. -/
def tailAt (z : Size) (k : Nat) : Nat := if k = 0 then 0 else (k - 1) % z.slots + 1

theorem tailAt_mod (z : Size) (k : Nat) : tailAt z k % z.slots = k % z.slots := by
  unfold tailAt
  split
  · subst k; rfl
  · rw [Nat.mod_add_mod]
    congr 1
    omega

theorem next_toNat (z : Size) (tail : UInt32) :
    (next z tail).toNat = tail.toNat % z.slots + 1 := by
  have h1 := z.and_mask tail
  have h2 := Nat.mod_lt tail.toNat z.slots_pos
  have h3 := z.slots_lt
  rw [next, UInt32.toNat_add, h1, UInt32.toNat_one]
  exact Nat.mod_eq_of_lt (by omega)

/-- `next` never passes the length of `Entries`, so the branch that sets
`Tail` back to 0 is dead. -/
theorem next_le (z : Size) (tail : UInt32) : next z tail ≤ UInt32.ofNat z.slots := by
  have h1 := next_toNat z tail
  have h2 := Nat.mod_lt tail.toNat z.slots_pos
  rw [UInt32.le_iff_toNat_le, h1, UInt32.toNat_ofNat', Nat.mod_eq_of_lt z.slots_lt]
  omega

structure TicketInv (z : Size) (s : State ι) : Prop where
  tail : s.mem.tail.toNat = tailAt z s.hist.tickets
  no_restart : ∀ g tail, s.pc g ≠ .restart tail
  slot : ∀ g r, (s.pc g).reserved = some r → slotOf z r.tail = r.ticket % z.slots
  lt : ∀ g r, (s.pc g).reserved = some r → r.ticket < s.hist.tickets
  inj : ∀ g g' r r', (s.pc g).reserved = some r → (s.pc g').reserved = some r' →
    r.ticket = r'.ticket → g = g'
  pending_lt : ∀ k ∈ s.hist.pending, k < s.hist.tickets
  pending_free : ∀ k ∈ s.hist.pending, ∀ g r, (s.pc g).reserved = some r → r.ticket ≠ k

omit [DecidableEq ι] in
theorem ticketInv_init (z : Size) : TicketInv z (init ι) := by
  constructor <;> simp [init, Pc.reserved, SubmitQueue.zero, tailAt]

theorem no_restart_move {z : Size} {s s' : State ι} {a : Act ι} (hm : Move z s a s')
    (hi : ∀ g tail, s.pc g ≠ .restart tail) : ∀ g tail, s'.pc g ≠ .restart tail := by
  have hother : ∀ (g : ι) (p : Pc), (∀ t, p ≠ .restart t) →
      ∀ g' tail, Function.update s.pc g p g' ≠ .restart tail := by
    intro g p hp
    rw [Function.forall_update_iff s.pc fun _ p => ∀ t, p ≠ .restart t]
    exact ⟨hp, fun g' _ => hi g'⟩
  cases hm with
  | wrap h hn => exact absurd (next_le z _) hn
  | setFlags v => exact hi
  | write w h => exact hi
  | syscall h =>
    rw [goto_pc, consume_pc]
    exact hother _ _ (by simp)
  | _ => exact hother _ _ (by simp)

/-- A step takes a new ticket, commits one, or leaves the tickets as they are:
then a goroutine keeps its reservation or drops it. -/
theorem move_tickets {z : Size} {s s' : State ι} {a : Act ι} (hm : Move z s a s')
    (hi : ∀ g tail, s.pc g ≠ .restart tail) :
    (∃ g tail head, a = .step g ∧ s.pc g = .casTail tail head ∧ s.mem.tail = tail ∧
      s'.mem.tail = next z tail ∧ s'.hist.tickets = s.hist.tickets + 1 ∧
      s'.hist.pending = s.hist.pending ∧
      s'.pc = Function.update s.pc g (.loadEntered ⟨tail, head, s.hist.tickets⟩)) ∨
    (∃ g r, s.pc g = .storeArray r ∧ s'.mem.tail = s.mem.tail ∧
      s'.hist.tickets = s.hist.tickets ∧ s'.hist.pending = s.hist.pending ++ [r.ticket] ∧
      s'.pc = Function.update s.pc g .idle) ∨
    (s'.mem.tail = s.mem.tail ∧ s'.hist.tickets = s.hist.tickets ∧
      s'.hist.pending ⊆ s.hist.pending ∧
      ∀ g, (s'.pc g).reserved = (s.pc g).reserved ∨ (s'.pc g).reserved = none) := by
  have hsame : ∀ (g : ι) (p : Pc), p.reserved = (s.pc g).reserved ∨ p.reserved = none →
      ∀ g', (Function.update s.pc g p g').reserved = (s.pc g').reserved ∨
        (Function.update s.pc g p g').reserved = none := by
    intro g p hp g'
    by_cases hg : g' = g
    · subst hg; rw [Function.update_self]; exact hp
    · rw [Function.update_of_ne hg]; exact Or.inl rfl
  cases hm with
  | casTail h ht => exact Or.inl ⟨_, _, _, rfl, h, ht, rfl, rfl, rfl, rfl⟩
  | storeArray h => exact Or.inr (Or.inl ⟨_, _, h, rfl, rfl, rfl, rfl⟩)
  | restart h => exact absurd h (hi _ _)
  | setFlags v => exact Or.inr (Or.inr ⟨rfl, rfl, List.Subset.refl _, fun _ => Or.inl rfl⟩)
  | write w h => exact Or.inr (Or.inr ⟨rfl, rfl, List.Subset.refl _, fun _ => Or.inl rfl⟩)
  | syscall h =>
    rename_i g c
    obtain ⟨h1, -, -, -, -, -, -, h8⟩ := consume_hist z (consumable z s.mem c.toSubmit) s
    refine Or.inr (Or.inr ⟨?_, h1, h8, ?_⟩)
    · rw [goto_mem, consume_mem]
    · rw [goto_pc, consume_pc]
      exact hsame _ _ (Or.inr rfl)
  | _ =>
    refine Or.inr (Or.inr ⟨rfl, rfl, List.Subset.refl _, hsame _ _ ?_⟩)
    simp [*, Pc.reserved]

/-- A CAS on `Tail`: the new ticket is larger than every ticket in use. -/
theorem TicketInv.reserve {z : Size} {s s' : State ι} (hi : TicketInv z s) {g : ι}
    {tail head : UInt32} (ht : s.mem.tail = tail) (ht' : s'.mem.tail = next z tail)
    (htk : s'.hist.tickets = s.hist.tickets + 1) (hpend : s'.hist.pending = s.hist.pending)
    (hpc' : s'.pc = Function.update s.pc g (.loadEntered ⟨tail, head, s.hist.tickets⟩))
    (hre : ∀ g tail, s'.pc g ≠ .restart tail) : TicketInv z s' := by
  have hnew : ∀ g' r', (s'.pc g').reserved = some r' →
      (g' = g ∧ r' = ⟨tail, head, s.hist.tickets⟩) ∨ (g' ≠ g ∧ (s.pc g').reserved = some r') := by
    intro g' r' hr'
    rw [hpc'] at hr'
    rcases update_cases hr' with ⟨hg, h⟩ | h
    · exact Or.inl ⟨hg, (Option.some.inj h).symm⟩
    · exact Or.inr h
  refine ⟨?_, hre, ?_, ?_, ?_, ?_, ?_⟩
  · rw [ht', htk, next_toNat, ← ht, hi.tail, tailAt_mod]
    simp [tailAt]
  · intro g' r' hr'
    rcases hnew g' r' hr' with ⟨-, rfl⟩ | ⟨-, h⟩
    · rw [slotOf, z.and_mask, ← ht, hi.tail, tailAt_mod]
    · exact hi.slot g' r' h
  · intro g' r' hr'
    rw [htk]
    rcases hnew g' r' hr' with ⟨-, rfl⟩ | ⟨-, h⟩
    · exact Nat.lt_succ_self _
    · exact Nat.lt_succ_of_lt (hi.lt g' r' h)
  · intro g1 g2 r1 r2 h1 h2 he
    rcases hnew g1 r1 h1 with ⟨rfl, rfl⟩ | ⟨-, h1'⟩ <;>
      rcases hnew g2 r2 h2 with ⟨rfl, rfl⟩ | ⟨-, h2'⟩
    · rfl
    · have := hi.lt g2 r2 h2'
      simp only at he
      omega
    · have := hi.lt g1 r1 h1'
      simp only at he
      omega
    · exact hi.inj g1 g2 r1 r2 h1' h2' he
  · intro k hk
    rw [hpend] at hk
    rw [htk]
    exact Nat.lt_succ_of_lt (hi.pending_lt k hk)
  · intro k hk g' r' hr'
    rw [hpend] at hk
    rcases hnew g' r' hr' with ⟨-, rfl⟩ | ⟨-, h⟩
    · exact Nat.ne_of_gt (hi.pending_lt k hk)
    · exact hi.pending_free k hk g' r' h

/-- The end of a closure: its ticket moves from the goroutine to the pending ones. -/
theorem TicketInv.commit {z : Size} {s s' : State ι} (hi : TicketInv z s) {g : ι} {r : Reserved}
    (hg : (s.pc g).reserved = some r) (ht' : s'.mem.tail = s.mem.tail)
    (htk : s'.hist.tickets = s.hist.tickets)
    (hpend : s'.hist.pending = s.hist.pending ++ [r.ticket])
    (hpc' : s'.pc = Function.update s.pc g .idle) (hre : ∀ g tail, s'.pc g ≠ .restart tail) :
    TicketInv z s' := by
  have hold : ∀ g' r', (s'.pc g').reserved = some r' →
      g' ≠ g ∧ (s.pc g').reserved = some r' := by
    intro g' r' hr'
    rw [hpc'] at hr'
    rcases update_cases hr' with ⟨-, h⟩ | h
    · cases h
    · exact h
  refine ⟨by rw [ht', htk, hi.tail], hre, ?_, ?_, ?_, ?_, ?_⟩
  · exact fun g' r' hr' => hi.slot g' r' (hold g' r' hr').2
  · intro g' r' hr'
    rw [htk]
    exact hi.lt g' r' (hold g' r' hr').2
  · exact fun g1 g2 r1 r2 h1 h2 => hi.inj g1 g2 r1 r2 (hold g1 r1 h1).2 (hold g2 r2 h2).2
  · intro k hk
    rw [hpend, List.mem_append, List.mem_singleton] at hk
    rw [htk]
    rcases hk with hk | rfl
    · exact hi.pending_lt k hk
    · exact hi.lt g r hg
  · intro k hk g' r' hr'
    obtain ⟨hne, hr⟩ := hold g' r' hr'
    rw [hpend, List.mem_append, List.mem_singleton] at hk
    rcases hk with hk | rfl
    · exact hi.pending_free k hk g' r' hr
    · exact fun he => hne (hi.inj g' g r' r hr hg he)

omit [DecidableEq ι] in
/-- A step that takes no ticket and commits none. -/
theorem TicketInv.keep {z : Size} {s s' : State ι} (hi : TicketInv z s)
    (ht' : s'.mem.tail = s.mem.tail) (htk : s'.hist.tickets = s.hist.tickets)
    (hpend : s'.hist.pending ⊆ s.hist.pending)
    (hres : ∀ g, (s'.pc g).reserved = (s.pc g).reserved ∨ (s'.pc g).reserved = none)
    (hre : ∀ g tail, s'.pc g ≠ .restart tail) : TicketInv z s' := by
  have hold : ∀ g r, (s'.pc g).reserved = some r → (s.pc g).reserved = some r := by
    intro g r hr
    rcases hres g with h | h
    · rw [← h, hr]
    · rw [hr] at h; cases h
  refine ⟨by rw [ht', htk, hi.tail], hre, ?_, ?_, ?_, ?_, ?_⟩
  · exact fun g r hr => hi.slot g r (hold g r hr)
  · intro g r hr
    rw [htk]
    exact hi.lt g r (hold g r hr)
  · exact fun g1 g2 r1 r2 h1 h2 => hi.inj g1 g2 r1 r2 (hold g1 r1 h1) (hold g2 r2 h2)
  · intro k hk
    rw [htk]
    exact hi.pending_lt k (hpend hk)
  · exact fun k hk g r hr => hi.pending_free k (hpend hk) g r (hold g r hr)

theorem ticketInv_move {z : Size} {s s' : State ι} {a : Act ι} (hi : TicketInv z s)
    (hm : Move z s a s') : TicketInv z s' := by
  have hre := no_restart_move hm hi.no_restart
  rcases move_tickets hm hi.no_restart with ⟨g, tail, head, -, -, ht, ht', htk, hpend, hpc'⟩ |
    ⟨g, r, hpc, ht', htk, hpend, hpc'⟩ | ⟨ht', htk, hpend, hres⟩
  · exact hi.reserve ht ht' htk hpend hpc' hre
  · exact hi.commit (by rw [hpc]; rfl) ht' htk hpend hpc' hre
  · exact hi.keep ht' htk hpend hres hre

end iouring.submit_queue
