-- Which slot `SubmitEntry` hands out, and how often a call moves `Tail`.
-- The slots go round: ticket `k` has slot `k` modulo the ring size. Nothing
-- in `SubmitEntry` asks whether the slot is free, and a call that meets an
-- enter leaves the slot it has just taken and takes another one.
import Iouring.EnterExclusion

open counter machine

namespace iouring.submit_queue

variable {ι : Type}

/-! ## The slots in use -/

/-- The ticket has a caller that has not committed it, or is committed and
the kernel has not read its entry. -/
def InUse (s : State ι) (k : Nat) : Prop :=
  (∃ g, (s.pc g).reserved.map Reserved.ticket = some k) ∨ k ∈ s.hist.pending

/-- A CAS moves `Tail` only while each slot in use was reserved by one of the
last `n - 1` reservations. -/
def WithinALap (z : Size) (s : State ι) (a : Act ι) : Prop :=
  Reserves s a → ∀ k < s.hist.tickets, InUse s k → s.hist.tickets < k + z.slots

/-- Nobody else has the slot of an entry that is reserved or handed out, and
no committed entry waits in it. -/
def SlotsApart (z : Size) (s : State ι) : Prop :=
  ∀ g r, (s.pc g).reserved = some r →
    (∀ g' r', (s.pc g').reserved = some r' → slotOf z r'.tail = slotOf z r.tail → g' = g) ∧
    ∀ k ∈ s.hist.pending, k % z.slots ≠ slotOf z r.tail

/-- Each slot of the ring is in use. -/
def AllInUse (z : Size) (s : State ι) : Prop :=
  ∀ i < z.slots, ∃ k, InUse s k ∧ k % z.slots = i

structure LapInv (z : Size) (s : State ι) : Prop where
  tickets : TicketInv z s
  lap : ∀ k, InUse s k → k < s.hist.tickets ∧ s.hist.tickets ≤ k + z.slots

theorem lapInv_init (z : Size) : LapInv z (init ι) := by
  refine ⟨ticketInv_init z, ?_⟩
  rintro k (⟨g, hg⟩ | hk)
  · simp [init, Pc.reserved] at hg
  · simp [init] at hk

theorem TicketInv.inUse_lt {z : Size} {s : State ι} (hi : TicketInv z s) {k : Nat}
    (hk : InUse s k) : k < s.hist.tickets := by
  rcases hk with ⟨g, hg⟩ | hk
  · obtain ⟨r, hr, rfl⟩ := Option.map_eq_some_iff.mp hg
    exact hi.lt g r hr
  · exact hi.pending_lt k hk

variable [DecidableEq ι]

/-- The tickets in use after a step: those in use before it, and the new one if
the step is a CAS that moves `Tail`. -/
theorem inUse_move {z : Size} {s s' : State ι} {a : Act ι} (hi : TicketInv z s)
    (hm : Move z s a s') {k : Nat} (hk : InUse s' k) :
    (InUse s k ∧ (s'.hist.tickets = s.hist.tickets ∨
      Reserves s a ∧ s'.hist.tickets = s.hist.tickets + 1)) ∨ s'.hist.tickets = k + 1 := by
  rcases move_tickets hm hi.no_restart with ⟨g, tail, head, rfl, hpc, ht, -, htk, hpend, hpc'⟩ |
    ⟨g, r, hpc, -, htk, hpend, hpc'⟩ | ⟨-, htk, hpend, hres⟩
  · have hr : Reserves s (.step g) := ⟨g, rfl, by rw [hpc, ht]; rfl⟩
    rcases hk with ⟨g', hg'⟩ | hk
    · rw [hpc'] at hg'
      rcases update_cases (f := fun p : Pc => p.reserved.map Reserved.ticket) hg' with
        ⟨-, h⟩ | ⟨-, h⟩
      · rw [htk, ← Option.some.inj h]
        exact Or.inr rfl
      · exact Or.inl ⟨Or.inl ⟨g', h⟩, Or.inr ⟨hr, htk⟩⟩
    · rw [hpend] at hk
      exact Or.inl ⟨Or.inr hk, Or.inr ⟨hr, htk⟩⟩
  · refine Or.inl ⟨?_, Or.inl htk⟩
    rcases hk with ⟨g', hg'⟩ | hk
    · rw [hpc'] at hg'
      rcases update_cases (f := fun p : Pc => p.reserved.map Reserved.ticket) hg' with
        ⟨-, h⟩ | ⟨-, h⟩
      · cases h
      · exact Or.inl ⟨g', h⟩
    · rw [hpend, List.mem_append, List.mem_singleton] at hk
      rcases hk with hk | rfl
      · exact Or.inr hk
      · exact Or.inl ⟨g, by rw [hpc]; rfl⟩
  · refine Or.inl ⟨?_, Or.inl htk⟩
    rcases hk with ⟨g', hg'⟩ | hk
    · rcases hres g' with h | h
      · exact Or.inl ⟨g', by rw [← h]; exact hg'⟩
      · rw [h] at hg'
        cases hg'
    · exact Or.inr (hpend hk)

theorem lapInv_move {z : Size} {s s' : State ι} {a : Act ι} (hi : LapInv z s)
    (hok : WithinALap z s a) (hm : Move z s a s') : LapInv z s' := by
  have hti' := ticketInv_move hi.tickets hm
  refine ⟨hti', fun k hk => ⟨hti'.inUse_lt hk, ?_⟩⟩
  have hpos := z.slots_pos
  rcases inUse_move hi.tickets hm hk with ⟨hold, hsame | ⟨hr, hmore⟩⟩ | hnew
  · rw [hsame]
    exact (hi.lap k hold).2
  · -- only here the number of tickets grows, and the lap condition is for this step
    have := hok hr k (hi.lap k hold).1 hold
    omega
  · omega

omit [DecidableEq ι] in
/-- Two tickets in use that share a slot are one ticket. -/
theorem LapInv.slot_inj {z : Size} {s : State ι} (hi : LapInv z s) {k k' : Nat}
    (hk : InUse s k) (hk' : InUse s k') (h : k % z.slots = k' % z.slots) : k = k' := by
  obtain ⟨h1, h2⟩ := hi.lap k hk
  obtain ⟨h1', h2'⟩ := hi.lap k' hk'
  exact counter.slot_inj (a := s.hist.tickets - z.slots) (by omega) (by omega) (by omega)
    (by omega) h

omit [DecidableEq ι] in
theorem LapInv.slotsApart {z : Size} {s : State ι} (hi : LapInv z s) : SlotsApart z s := by
  intro g r hr
  have hg : InUse s r.ticket := Or.inl ⟨g, by rw [hr]; rfl⟩
  have hslot := hi.tickets.slot g r hr
  constructor
  · intro g' r' hr' he
    have hg' : InUse s r'.ticket := Or.inl ⟨g', by rw [hr']; rfl⟩
    rw [hi.tickets.slot g' r' hr', hslot] at he
    exact hi.tickets.inj g' g r' r hr' hr (hi.slot_inj hg' hg he)
  · intro k hk he
    rw [hslot] at he
    exact hi.tickets.pending_free k hk g r hr (hi.slot_inj (Or.inr hk) hg he).symm

omit [DecidableEq ι] in
/-- A CAS that moves `Tail` under the lap condition finds a slot that is free. -/
theorem LapInv.not_allInUse {z : Size} {s : State ι} {a : Act ι} (hi : LapInv z s)
    (hok : WithinALap z s a) (hall : AllInUse z s) : ¬ Reserves s a := by
  intro hr
  obtain ⟨k, hk, hslot⟩ := hall (s.hist.tickets % z.slots) (Nat.mod_lt _ z.slots_pos)
  obtain ⟨h1, -⟩ := hi.lap k hk
  have h2 := hok hr k h1 hk
  have := counter.slot_inj (a := k) (p := k) (q := s.hist.tickets) (by omega) (by omega)
    (by omega) (by omega) hslot
  omega

/-- What a step that moves `Tail` does. -/
theorem Reserves.move {z : Size} {s s' : State ι} {a : Act ι} (hr : Reserves s a)
    (hm : Move z s a s') :
    ∃ g head, s.pc g = .casTail s.mem.tail head ∧ s'.hist.pending = s.hist.pending ∧
      s'.pc = Function.update s.pc g (.loadEntered ⟨s.mem.tail, head, s.hist.tickets⟩) := by
  obtain ⟨g, rfl, hexp⟩ := hr
  cases hm with
  | casTail h ht =>
    subst ht
    exact ⟨g, _, h, rfl, rfl⟩
  | casTailLost h ht =>
    rw [h] at hexp
    exact absurd (Option.some.inj hexp).symm ht
  | _ =>
    rename_i h
    simp_all [Pc.expectsTail]

/-- A CAS past the lap takes a slot that is in use. -/
theorem LapInv.withinALap {z : Size} {s s' : State ι} {a : Act ι} (hi : LapInv z s)
    (hm : Move z s a s') (hap : SlotsApart z s') : WithinALap z s a := by
  intro hr k hlt hk
  by_contra hfar
  -- under the invariant the ticket in use is exactly one lap old
  have hlap : s.hist.tickets = k + z.slots := by
    have := (hi.lap k hk).2
    omega
  have hslot : k % z.slots = s.hist.tickets % z.slots := by rw [hlap, Nat.add_mod_right]
  obtain ⟨g, head, hpc, hpend, hpc'⟩ := hr.move hm
  have hnew : (s'.pc g).reserved = some ⟨s.mem.tail, head, s.hist.tickets⟩ := by
    rw [hpc', Function.update_self]; rfl
  have hnewslot := (ticketInv_move hi.tickets hm).slot g _ hnew
  obtain ⟨hheld, hpending⟩ := hap g _ hnew
  rcases hk with ⟨g', hg'⟩ | hk
  · obtain ⟨r, hr', rfl⟩ := Option.map_eq_some_iff.mp hg'
    have hne : g' ≠ g := by
      rintro rfl
      rw [hpc] at hr'
      cases hr'
    have hr'' : (s'.pc g').reserved = some r := by
      rw [hpc', Function.update_of_ne hne]; exact hr'
    refine hne (hheld g' r hr'' ?_)
    rw [hnewslot, hi.tickets.slot g' r hr', hslot]
  · refine hpending k (by rw [hpend]; exact hk) ?_
    rw [hnewslot, hslot]

/-! ## The law of the slots -/

/-- A run never hands out a slot in use, and never reserves one while all are
in use, exactly if each of its reservations is within a lap of the slots in
use. -/
theorem no_slot_in_use_is_handed_out_iff (z : Size) (as : List (Act ι)) :
    (Always (step z) (SlotsApart z) (init ι) as ∧
      Along (step z) (fun s a => AllInUse z s → ¬ Reserves s a) (init ι) as) ↔
    Along (step z) (WithinALap z) (init ι) as := by
  have hstep : ∀ (s : State ι) a s', LapInv z s → WithinALap z s a → step z s a = some s' →
      LapInv z s' := fun s a s' hi hok h => lapInv_move hi hok (step_move h)
  have hok : ∀ (s : State ι) a s', LapInv z s → step z s a = some s' → SlotsApart z s' →
      WithinALap z s a := fun s a s' hi h hap => hi.withinALap (step_move h) hap
  have hiff : Always (step z) (SlotsApart z) (init ι) as ↔
      Along (step z) (WithinALap z) (init ι) as :=
    always_iff_along hstep (fun _ hi => hi.slotsApart) hok (lapInv_init z) as
  constructor
  · exact fun h => hiff.mp h.1
  · intro h
    exact ⟨hiff.mpr h, h.imp hstep (fun _ _ hi hok => hi.not_allInUse hok) (lapInv_init z)⟩

/-- Three entries of a ring of two, committed with no enter between them: the
third call gets the slot of the first entry, which the kernel has not read. -/
theorem a_full_ring_hands_out_a_pending_slot :
    ∃ s, run (step ⟨1, by decide⟩) (init (Fin 1))
        (submitEntryActs 0 ++ commitActs 0 ++ submitEntryActs 0 ++ commitActs 0 ++
          submitEntryActs 0) = some s ∧
      s.pc 0 = .holding ⟨2, 0, 2⟩ ∧ slotOf ⟨1, by decide⟩ 2 = 0 ∧ s.hist.pending = [0, 1] ∧
      ¬ SlotsApart ⟨1, by decide⟩ s := by
  have h : (run (step ⟨1, by decide⟩) (init (Fin 1))
      (submitEntryActs 0 ++ commitActs 0 ++ submitEntryActs 0 ++ commitActs 0 ++
        submitEntryActs 0)).map (fun s => (s.pc 0, s.hist.pending)) =
          some (.holding ⟨2, 0, 2⟩, [0, 1]) := by decide
  obtain ⟨s, hrun, hs⟩ := Option.map_eq_some_iff.mp h
  simp only [Prod.mk.injEq] at hs
  refine ⟨s, hrun, hs.1, by decide, hs.2, fun hap => ?_⟩
  have hr : (s.pc 0).reserved = some ⟨2, 0, 2⟩ := by rw [hs.1]; rfl
  exact (hap 0 _ hr).2 0 (by rw [hs.2]; simp) (by decide)

/-! ## The tickets that nobody gets -/

/-- The call has moved `Tail` and has not returned. -/
def Pc.midway : Pc → Bool
  | .loadEntered _ | .addWrites _ | .reset _ _ => true
  | _ => false

/-- The call has not yet moved `Tail`, or goes round again. -/
def Pc.trying : Pc → Bool
  | .loadTail | .loadHead _ | .casTail _ _ | .restart _ => true
  | _ => false

def Pc.atLoadEntered : Pc → Bool
  | .loadEntered _ => true
  | _ => false

/-- Each move of `Tail` belongs to an entry that was returned or to a call on
its way to return one, and each call moves `Tail` once. -/
structure NoOrphans [Fintype ι] (s : State ι) : Prop where
  count : s.hist.tickets = s.hist.returned + tally Pc.midway s.pc
  trying : ∀ g, (s.pc g).trying = true → s.hist.advanced g = 0
  once : ∀ g, (s.pc g).reserved.isSome = true → s.hist.advanced g = 1

/-- `SubmitEntry` finds `entered` at 0 when it looks at it after its CAS. -/
def FindsNoEnter (s : State ι) (a : Act ι) : Prop :=
  ∀ g, a = .step g → (s.pc g).atLoadEntered = true → s.mem.entered = 0

section Orphans

variable [Fintype ι]

omit [DecidableEq ι] in
theorem noOrphans_init : NoOrphans (init ι) := by
  refine ⟨?_, fun _ _ => rfl, fun g hg => by simp [init, Pc.reserved] at hg⟩
  have h : tally Pc.midway (init ι).pc = 0 := tally_eq_zero fun _ => rfl
  rw [h]
  rfl

/-- A goroutine moves on: the count and its own moves of `Tail` have to be right. -/
theorem NoOrphans.moved {s s' : State ι} {g : ι} {p : Pc} (hi : NoOrphans s)
    (hpc : s'.pc = Function.update s.pc g p)
    (hcount : s'.hist.tickets = s'.hist.returned + tally Pc.midway s'.pc)
    (ha : ∀ g', g' ≠ g → s'.hist.advanced g' = s.hist.advanced g')
    (ht : p.trying = true → s'.hist.advanced g = 0)
    (hr : p.reserved.isSome = true → s'.hist.advanced g = 1) : NoOrphans s' := by
  refine ⟨hcount, ?_, ?_⟩
  · intro g' hg'
    rw [hpc] at hg'
    rcases update_cases hg' with ⟨rfl, h⟩ | ⟨hg, h⟩
    · exact ht h
    · rw [ha g' hg]
      exact hi.trying g' h
  · intro g' hg'
    rw [hpc] at hg'
    rcases update_cases (f := fun p : Pc => p.reserved.isSome) hg' with ⟨rfl, h⟩ | ⟨hg, h⟩
    · exact hr h
    · rw [ha g' hg]
      exact hi.once g' h

/-- A step within one part of the calls keeps the count. -/
theorem NoOrphans.same {s s' : State ι} {g : ι} {p : Pc} (hi : NoOrphans s)
    (hpc : s'.pc = Function.update s.pc g p) (hm : (s.pc g).midway = p.midway)
    (ht : p.trying = (s.pc g).trying) (hr : p.reserved.isSome → (s.pc g).reserved.isSome)
    (hk : s'.hist.tickets = s.hist.tickets) (hret : s'.hist.returned = s.hist.returned)
    (ha : s'.hist.advanced = s.hist.advanced) : NoOrphans s' := by
  refine hi.moved hpc ?_ (fun g' _ => by rw [ha]) (fun h => ?_) (fun h => ?_)
  · rw [hk, hret, hpc, tally_update_eq hm]
    exact hi.count
  · rw [ha]
    exact hi.trying g (ht ▸ h)
  · rw [ha]
    exact hi.once g (hr h)

theorem noOrphans_move {z : Size} {s s' : State ι} {a : Act ι} (hi : NoOrphans s)
    (hok : FindsNoEnter s a) (hm : Move z s a s') : NoOrphans s' := by
  have hcount := hi.count
  cases hm with
  | @submitEntry g h =>
    refine hi.moved rfl ?_ (fun _ hg => Function.update_of_ne hg _ _)
      (fun _ => Function.update_self _ _ _) nofun
    simp only
    rw [tally_update_eq (by rw [h]; rfl)]
    exact hcount
  | @casTail g tail head h ht =>
    have hadv := hi.trying g (by rw [h]; rfl)
    refine hi.moved rfl ?_ (fun _ hg => Function.update_of_ne hg _ _) nofun (fun _ => ?_)
    · have htally := tally_update Pc.midway s.pc g (.loadEntered ⟨tail, head, s.hist.tickets⟩)
      simp only [h, Pc.midway, Bool.toNat_true, Bool.toNat_false] at htally ⊢
      omega
    · simp only [Function.update_self, hadv]
  | retry h he => exact absurd (hok _ rfl (by rw [h]; rfl)) he
  | @handOut g r h =>
    refine hi.moved rfl ?_ (fun _ _ => rfl) nofun (fun _ => hi.once g (by rw [h]; rfl))
    have htally := tally_update Pc.midway s.pc g (.holding r)
    simp only [h, Pc.midway, Bool.toNat_true, Bool.toNat_false] at htally ⊢
    omega
  | @syscall g c h =>
    obtain ⟨hk, hret, ha, -⟩ := consume_hist z (consumable z s.mem c.toSubmit) s
    refine hi.same (by rw [goto_pc, consume_pc]) ?_ ?_ ?_ hk hret ha
    · rw [h]; rfl
    · rw [h]; rfl
    · rw [h]; exact id
  | setFlags v => exact ⟨hi.count, hi.trying, hi.once⟩
  | write w h => exact ⟨hi.count, hi.trying, hi.once⟩
  | _ =>
    refine hi.same rfl ?_ ?_ ?_ rfl rfl rfl
    · simp [*, Pc.midway]
    · simp [*, Pc.trying]
    · simp [*, Pc.reserved]

/-- A call that finds an enter goes back to the start, and the ticket it had
is then in nobody's count. -/
theorem findsNoEnter_of_noOrphans {z : Size} {s s' : State ι} {a : Act ι} (hi : NoOrphans s)
    (hm : Move z s a s') (hi' : NoOrphans s') : FindsNoEnter s a := by
  rintro g rfl hat
  by_contra he
  cases hm with
  | retry h he =>
    have h1 := hi.count
    have h2 := hi'.count
    have htally := tally_update Pc.midway s.pc g .loadTail
    simp only [h, Pc.midway, Bool.toNat_true, Bool.toNat_false] at htally
    simp only [goto_hist, goto_pc] at h2
    omega
  | pass h he' => exact he he'
  | _ =>
    rename_i h
    simp_all [Pc.atLoadEntered]

/-- Every move of `Tail` in a run belongs to an entry that was returned or is
about to be, exactly if each call of the run finds `entered` at 0 after its CAS. -/
theorem no_move_of_tail_is_lost_iff (z : Size) (as : List (Act ι)) :
    Always (step z) NoOrphans (init ι) as ↔ Along (step z) FindsNoEnter (init ι) as := by
  have hstep : ∀ (s : State ι) a s', NoOrphans s → FindsNoEnter s a → step z s a = some s' →
      NoOrphans s' := fun s a s' hi hok h => noOrphans_move hi hok (step_move h)
  have hok : ∀ (s : State ι) a s', NoOrphans s → step z s a = some s' → NoOrphans s' →
      FindsNoEnter s a := fun s a s' hi h hi' => findsNoEnter_of_noOrphans hi (step_move h) hi'
  exact always_iff_along hstep (fun _ hi => hi) hok noOrphans_init as

end Orphans

/-- A call of `SubmitEntry` beside an enter: it has moved `Tail` twice and
returned nothing. -/
theorem an_enter_makes_a_call_move_tail_twice :
    ∃ s, run (step ⟨1, by decide⟩) (init (Fin 2))
        (Act.enter 1 ⟨0, 1, 0⟩ :: List.replicate 3 (.step 1) ++
          Act.submitEntry 0 :: List.replicate 7 (.step 0)) = some s ∧
      s.hist.tickets = 2 ∧ s.hist.returned = 0 ∧ tally Pc.midway s.pc = 1 ∧
      s.hist.advanced 0 = 2 ∧ ¬ NoOrphans s := by
  have h : (run (step ⟨1, by decide⟩) (init (Fin 2))
      (Act.enter 1 ⟨0, 1, 0⟩ :: List.replicate 3 (.step 1) ++
        Act.submitEntry 0 :: List.replicate 7 (.step 0))).map
          (fun s => (s.hist.tickets, s.hist.returned, tally Pc.midway s.pc, s.hist.advanced 0)) =
            some (2, 0, 1, 2) := by decide
  obtain ⟨s, hrun, hs⟩ := Option.map_eq_some_iff.mp h
  simp only [Prod.mk.injEq] at hs
  obtain ⟨h1, h2, h3, h4⟩ := hs
  refine ⟨s, hrun, h1, h2, h3, h4, fun hno => ?_⟩
  have := hno.count
  omega

end iouring.submit_queue
