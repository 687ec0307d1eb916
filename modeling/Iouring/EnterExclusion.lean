-- Who may be in the queue while a goroutine is inside the syscall.
-- `enterLock` lets an enter through while an entry is being filled, and
-- `SubmitEntry` moves `Tail` before it looks at `entered`. The laws here say
-- in which runs the two sides still exclude each other.
import Iouring.SubmitSteps

open counter machine

namespace iouring.submit_queue

variable {ι : Type}

/-! ## The two sides -/

/-- The value that the CAS on `Tail` expects, at the CAS. -/
def Pc.expectsTail : Pc → Option UInt32
  | .casTail tail _ => some tail
  | _ => none

def Pc.atLockCas : Pc → Bool
  | .lockCas _ => true
  | _ => false

/-- The caller has the entry, and its closure has not run to the end. -/
def Pc.uncommitted : Pc → Bool
  | .holding _ | .loadWrites _ | .casWrites _ _ | .storeArray _ | .panicked _ => true
  | _ => false

/-- The step is a CAS of `SubmitEntry` that moves `Tail`. -/
def Reserves (s : State ι) (a : Act ι) : Prop :=
  ∃ g, a = .step g ∧ (s.pc g).expectsTail = some s.mem.tail

/-- The step is a CAS of `enterLock` that takes the lock. -/
def Locks (s : State ι) (a : Act ι) : Prop :=
  ∃ g, a = .step g ∧ (s.pc g).atLockCas = true ∧ s.mem.entered = 0

/-- `enterLock` takes the lock only while no goroutine is between its CAS on
`Tail` and the end of its closure, and `SubmitEntry` moves `Tail` only while
`entered` is 0. -/
def TakesTurns (s : State ι) (a : Act ι) : Prop :=
  (Locks s a → ∀ g, (s.pc g).reserved = none) ∧ (Reserves s a → s.mem.entered = 0)

/-- `Tail` shows this slot to the kernel. -/
def Exposed (z : Size) (m : SubmitQueue) (slot : Nat) : Prop :=
  ∃ j < min (m.tail - m.head).toNat z.slots, (m.head.toNat + j) % z.slots = slot

/-- While a goroutine is inside the syscall, no caller has an open entry, and
each slot that the kernel can take and has not taken is filled and in `Array`. -/
def WritersOut (z : Size) (s : State ι) : Prop :=
  (∃ g, (s.pc g).inside = true) →
    (∀ g, (s.pc g).uncommitted = false) ∧
    ∀ k ∈ s.hist.unread, Exposed z s.mem (k % z.slots) → k ∈ s.hist.filled ∧ k ∈ s.hist.stored

/-! ## The invariant -/

/-- The reservation that a running closure commits. -/
def Pc.closing : Pc → Option Reserved
  | .loadWrites r | .casWrites r _ | .storeArray r | .panicked r => some r
  | _ => none

section Turns

variable [Fintype ι]

structure TurnsInv (s : State ι) : Prop where
  lock : LockInv s
  out : (∃ g, (s.pc g).inside = true) → ∀ g, (s.pc g).reserved = none
  closing : ∀ g r, (s.pc g).closing = some r → r.ticket ∈ s.hist.filled
  unread : ∀ k ∈ s.hist.unread, (k ∈ s.hist.filled ∧ k ∈ s.hist.stored) ∨
    ∃ g r, (s.pc g).reserved = some r ∧ r.ticket = k

theorem turnsInv_init : TurnsInv (init ι) := by
  refine ⟨lockInv_init, ?_, ?_, ?_⟩ <;> simp [init, Pc.inside, Pc.closing]

/-- Nobody is inside while the lock word is 0. -/
theorem LockInv.nobody {s : State ι} (hi : LockInv s) (he : s.mem.entered = 0) (g : ι) :
    (s.pc g).inside = false := by
  have h0 : tally Pc.inside s.pc = 0 := by rw [← hi.1, he]; rfl
  rcases hin : (s.pc g).inside with _ | _
  · rfl
  · classical
    have := tally_pos (f := s.pc) (p := Pc.inside) hin
    omega

/-- While the lock word is not 0, somebody is inside. -/
theorem LockInv.somebody {s : State ι} (hi : LockInv s) (he : s.mem.entered ≠ 0) :
    ∃ g, (s.pc g).inside = true := by
  by_contra hnone
  have h0 : tally Pc.inside s.pc = 0 :=
    tally_eq_zero fun g => by
      rcases hin : (s.pc g).inside with _ | _
      · rfl
      · exact absurd ⟨g, hin⟩ hnone
  apply he
  apply UInt32.toNat_inj.mp
  rw [hi.1, h0]
  rfl

/-- A step that moves no reservation keeps the invariant. -/
theorem TurnsInv.same {s s' : State ι} (hi : TurnsInv s) (hl : LockInv s')
    (hin : ∀ g, (s'.pc g).inside = true → ∃ g', (s.pc g').inside = true)
    (hr : ∀ g, (s'.pc g).reserved = (s.pc g).reserved)
    (hc : ∀ g, (s'.pc g).closing = (s.pc g).closing)
    (hu : s'.hist.unread ⊆ s.hist.unread) (hf : s'.hist.filled = s.hist.filled)
    (hs : s'.hist.stored = s.hist.stored) : TurnsInv s' := by
  refine ⟨hl, ?_, ?_, ?_⟩
  · rintro ⟨g, hg⟩ g'
    rw [hr]
    exact hi.out (hin g hg) g'
  · intro g r hg
    rw [hf]
    rw [hc] at hg
    exact hi.closing g r hg
  · intro k hk
    rw [hf, hs]
    rcases hi.unread k (hu hk) with h | ⟨g, r, hg, hk'⟩
    · exact Or.inl h
    · exact Or.inr ⟨g, r, by rw [hr]; exact hg, hk'⟩

/-- A CAS of `enterLock` while nobody has a reservation: whatever the kernel has
not passed is committed. -/
theorem TurnsInv.enter {s s' : State ι} (hi : TurnsInv s) (hl : LockInv s')
    (hnone : ∀ g, (s.pc g).reserved = none) (hr : ∀ g, (s'.pc g).reserved = (s.pc g).reserved)
    (hc : ∀ g, (s'.pc g).closing = (s.pc g).closing) (hist : s'.hist = s.hist) : TurnsInv s' := by
  refine ⟨hl, fun _ g => by rw [hr]; exact hnone g, ?_, ?_⟩
  · intro g r hg
    rw [hc] at hg
    rw [hist]
    exact hi.closing g r hg
  · intro k hk
    rw [hist] at hk ⊢
    rcases hi.unread k hk with hd | ⟨g, r, hg, -⟩
    · exact Or.inl hd
    · rw [hnone g] at hg
      cases hg

variable [DecidableEq ι]

/-- A CAS on `Tail` while nobody is inside: the new ticket has its goroutine. -/
theorem TurnsInv.reserve {s s' : State ι} (hi : TurnsInv s) (hl : LockInv s') {g : ι}
    {r : Reserved} (he : s.mem.entered = 0) (hfree : (s.pc g).reserved = none)
    (hpc : s'.pc = Function.update s.pc g (.loadEntered r))
    (hu : s'.hist.unread = s.hist.unread ++ [r.ticket]) (hf : s'.hist.filled = s.hist.filled)
    (hs : s'.hist.stored = s.hist.stored) : TurnsInv s' := by
  refine ⟨hl, ?_, ?_, ?_⟩
  · rintro ⟨g', hg'⟩
    rw [hpc] at hg'
    rcases update_cases hg' with ⟨-, h⟩ | ⟨-, h⟩
    · cases h
    · rw [hi.lock.nobody he g'] at h
      cases h
  · intro g' r' hg'
    rw [hpc] at hg'
    rw [hf]
    rcases update_cases hg' with ⟨-, h⟩ | ⟨-, h⟩
    · cases h
    · exact hi.closing g' r' h
  · intro k hk
    rw [hf, hs, hpc]
    rw [hu, List.mem_append, List.mem_singleton] at hk
    rcases hk with hk | rfl
    · rcases hi.unread k hk with hd | ⟨g', r', hg', hk'⟩
      · exact Or.inl hd
      · have hg : g' ≠ g := by
          rintro rfl
          rw [hfree] at hg'
          cases hg'
        exact Or.inr ⟨g', r', by rwa [Function.update_of_ne hg], hk'⟩
    · exact Or.inr ⟨g, r, by rw [Function.update_self]; rfl, rfl⟩

/-- The caller calls the closure: its entry is filled. -/
theorem TurnsInv.commit {s s' : State ι} (hi : TurnsInv s) (hl : LockInv s') {g : ι}
    {r : Reserved} (h : s.pc g = .holding r) (hpc : s'.pc = Function.update s.pc g (.loadWrites r))
    (hu : s'.hist.unread = s.hist.unread) (hf : s'.hist.filled = s.hist.filled ++ [r.ticket])
    (hs : s'.hist.stored = s.hist.stored) : TurnsInv s' := by
  have hr : ∀ g', (s'.pc g').reserved = (s.pc g').reserved := by
    rw [hpc]
    exact update_same (by rw [h]; rfl)
  have hin : ∀ g', (s'.pc g').inside = (s.pc g').inside := by
    rw [hpc]
    exact update_same (by rw [h]; rfl)
  refine ⟨hl, ?_, ?_, ?_⟩
  · rintro ⟨g', hg'⟩ g''
    rw [hin] at hg'
    rw [hr]
    exact hi.out ⟨g', hg'⟩ g''
  · intro g' r' hg'
    rw [hpc] at hg'
    rw [hf, List.mem_append, List.mem_singleton]
    rcases update_cases hg' with ⟨-, h'⟩ | ⟨-, h'⟩
    · rw [← Option.some.inj h']
      exact Or.inr rfl
    · exact Or.inl (hi.closing g' r' h')
  · intro k hk
    rw [hu] at hk
    rw [hf, hs]
    rcases hi.unread k hk with ⟨h1, h2⟩ | ⟨g', r', hg', hk'⟩
    · exact Or.inl ⟨List.mem_append_left _ h1, h2⟩
    · exact Or.inr ⟨g', r', by rw [hr]; exact hg', hk'⟩

/-- The last line of the closure: the filled entry is in `Array`. -/
theorem TurnsInv.store {s s' : State ι} (hi : TurnsInv s) (hl : LockInv s') {g : ι}
    {r : Reserved} (h : s.pc g = .storeArray r) (hpc : s'.pc = Function.update s.pc g .idle)
    (hu : s'.hist.unread = s.hist.unread) (hf : s'.hist.filled = s.hist.filled)
    (hs : s'.hist.stored = s.hist.stored ++ [r.ticket]) : TurnsInv s' := by
  have hin : ∀ g', (s'.pc g').inside = (s.pc g').inside := by
    rw [hpc]
    exact update_same (by rw [h]; rfl)
  refine ⟨hl, ?_, ?_, ?_⟩
  · -- the goroutine itself has a reservation, so nobody is inside
    rintro ⟨g', hg'⟩
    have hnone := hi.out ⟨g', by rw [← hin]; exact hg'⟩ g
    rw [h] at hnone
    cases hnone
  · intro g' r' hg'
    rw [hpc] at hg'
    rw [hf]
    rcases update_cases hg' with ⟨-, h'⟩ | ⟨-, h'⟩
    · cases h'
    · exact hi.closing g' r' h'
  · intro k hk
    rw [hu] at hk
    rw [hf, hs, hpc]
    rcases hi.unread k hk with ⟨h1, h2⟩ | ⟨g', r', hg', hk'⟩
    · exact Or.inl ⟨h1, List.mem_append_left _ h2⟩
    · by_cases hg : g' = g
      · subst hg
        have hfill : r.ticket ∈ s.hist.filled := hi.closing g' r (by rw [h]; rfl)
        rw [h] at hg'
        cases hg'
        subst hk'
        exact Or.inl ⟨hfill, List.mem_append_right _ (List.mem_singleton_self _)⟩
      · exact Or.inr ⟨g', r', by rwa [Function.update_of_ne hg], hk'⟩

theorem turnsInv_move {z : Size} {s s' : State ι} {a : Act ι} (hi : TurnsInv s)
    (hok : TakesTurns s a) (hm : Move z s a s') : TurnsInv s' := by
  have hl := lockInv_move hi.lock hm
  cases hm with
  | @casTail g tail head h ht =>
    have he : s.mem.entered = 0 := hok.2 ⟨g, rfl, by rw [h, ht]; rfl⟩
    exact hi.reserve hl he (by rw [h]; rfl) rfl rfl rfl rfl
  | @lockCas g c h he =>
    have hnone := hok.1 ⟨g, rfl, by rw [h]; rfl, he⟩
    exact hi.enter hl hnone (update_same (by rw [h]; rfl)) (update_same (by rw [h]; rfl)) rfl
  | @retry g r h he =>
    -- somebody is inside, so the goroutine has no reservation to drop
    have hnone := hi.out (hi.lock.somebody he) g
    rw [h] at hnone
    cases hnone
  | commit h => exact hi.commit hl h rfl rfl rfl rfl
  | storeArray h => exact hi.store hl h rfl rfl rfl rfl
  | @syscall g c h =>
    obtain ⟨-, -, -, hf, hs, -, hu, -⟩ := consume_hist z (consumable z s.mem c.toSubmit) s
    refine hi.same hl (fun _ _ => ⟨g, by rw [h]; rfl⟩) ?_ ?_ hu hf hs
    · rw [goto_pc, consume_pc]
      exact update_same (by rw [h]; rfl)
    · rw [goto_pc, consume_pc]
      exact update_same (by rw [h]; rfl)
  | setFlags v =>
    exact hi.same hl (fun g hg => ⟨g, hg⟩) (fun _ => rfl) (fun _ => rfl) (List.Subset.refl _)
      rfl rfl
  | write w h =>
    exact hi.same hl (fun g hg => ⟨g, hg⟩) (fun _ => rfl) (fun _ => rfl) (List.Subset.refl _)
      rfl rfl
  | @unlock g c k h =>
    refine hi.same hl (fun _ _ => ⟨g, by rw [h]; rfl⟩) ?_ ?_ (List.Subset.refl _) rfl rfl
    · exact update_same (by rw [h]; rfl)
    · exact update_same (by rw [h]; rfl)
  | _ =>
    refine hi.same hl ?_ ?_ ?_ (List.Subset.refl _) rfl rfl
    · intro g' hg'
      refine ⟨g', ?_⟩
      rw [← hg']
      exact (update_same (f := Pc.inside) (by simp [*, Pc.inside]) g').symm
    · exact update_same (by simp [*, Pc.reserved])
    · exact update_same (by simp [*, Pc.closing])

/-! ## The laws -/

instance (s : State ι) (a : Act ι) : Decidable (Reserves s a) :=
  inferInstanceAs (Decidable (∃ _, _ ∧ _))

instance (s : State ι) (a : Act ι) : Decidable (Locks s a) :=
  inferInstanceAs (Decidable (∃ _, _ ∧ _))

instance (s : State ι) (a : Act ι) : Decidable (TakesTurns s a) :=
  inferInstanceAs (Decidable (_ ∧ _))

/-- In a run in which the two sides take turns, an enter excludes the writers. -/
theorem an_enter_excludes_the_writers (z : Size) {as : List (Act ι)} {s : State ι}
    (hrun : run (step z) (init ι) as = some s)
    (hturns : Along (step z) TakesTurns (init ι) as) : WritersOut z s := by
  have hi : TurnsInv s :=
    run_invariant (fun _ _ _ hi hok h => turnsInv_move hi hok (step_move h)) turnsInv_init
      hturns hrun
  intro hin
  have hnone := hi.out hin
  constructor
  · intro g
    have := hnone g
    cases hpc : s.pc g <;> simp_all [Pc.uncommitted, Pc.reserved]
  · intro k hk _
    rcases hi.unread k hk with hd | ⟨g, r, hg, -⟩
    · exact hd
    · rw [hnone g] at hg
      cases hg

end Turns

/-- One goroutine commits an entry, then another one goes into the syscall. -/
theorem an_enter_after_a_commit_excludes_the_writers :
    ∃ s, run (step ⟨1, by decide⟩) (init (Fin 2))
        (submitEntryActs 0 ++ commitActs 0 ++ Act.enter 1 ⟨1, 0, 0⟩ :: List.replicate 3 (.step 1)) =
          some s ∧
      (s.pc 1).inside = true ∧ s.hist.unread = [0] ∧ WritersOut ⟨1, by decide⟩ s := by
  have h : (run (step ⟨1, by decide⟩) (init (Fin 2))
      (submitEntryActs 0 ++ commitActs 0 ++
        Act.enter 1 ⟨1, 0, 0⟩ :: List.replicate 3 (.step 1))).map
        (fun s => ((s.pc 1).inside, s.hist.unread)) = some (true, [0]) := by decide
  obtain ⟨s, hrun, hs⟩ := Option.map_eq_some_iff.mp h
  simp only [Prod.mk.injEq] at hs
  exact ⟨s, hrun, hs.1, hs.2, an_enter_excludes_the_writers _ hrun (by decide)⟩

/-- `enterLock` spins only while `writes` is not 0 and `entered` is 1. So an
enter goes through while another goroutine has an entry that it has not filled. -/
theorem an_enter_gets_in_beside_a_writer :
    ∃ s, run (step ⟨1, by decide⟩) (init (Fin 2))
        (submitEntryActs 0 ++ Act.enter 1 ⟨1, 0, 0⟩ :: List.replicate 4 (.step 1)) = some s ∧
      (s.pc 1).inside = true ∧ (s.pc 0).uncommitted = true ∧ ¬ WritersOut ⟨1, by decide⟩ s := by
  have h : (run (step ⟨1, by decide⟩) (init (Fin 2))
      (submitEntryActs 0 ++ Act.enter 1 ⟨1, 0, 0⟩ :: List.replicate 4 (.step 1))).map
        (fun s => ((s.pc 1).inside, (s.pc 0).uncommitted)) = some (true, true) := by decide
  obtain ⟨s, hrun, hs⟩ := Option.map_eq_some_iff.mp h
  simp only [Prod.mk.injEq] at hs
  refine ⟨s, hrun, hs.1, hs.2, fun hout => ?_⟩
  have := (hout ⟨1, hs.1⟩).1 0
  rw [hs.2] at this
  cases this

end iouring.submit_queue
