-- Whether the entries that are out have different `UserData`. The numbers of
-- `Ring.ID` are all different; those of the two polls of `onListen` are 0 and the
-- descriptor of the listener, and nothing keeps them off the numbers of `Ring.ID`
-- or off each other.
import Iouring.ReturnedIds

open counter machine

namespace iouring.prepare_calls

variable {ι : Type}

/-! ## The numbers in use -/

/-- The number of an operation whose entry is not committed. -/
def Job.num : Job → Option UInt64
  | .fill _ num _ | .close _ num => num
  | _ => none

/-- The number belongs to an operation that has not committed its entry, or to an entry
that is out. -/
def Live (s : State ι) (id : UInt64) : Prop := (∃ g, (s.jobs g).num = some id) ∨ id ∈ s.out

/-- The step draws a number from `Ring.ID`. -/
def draws (s : State ι) : Act ι → Bool
  | .step g =>
    match s.jobs g, s.queue.pc g with
    | .drawFirst _, _ => true
    | .fill _ _ (.draw :: _), .holding _ => true
    | _, _ => false
  | _ => false

/-- The number that a poll of `onListen` starts with. -/
def Act.listens : Act ι → Option UInt64
  | .call _ op => op.fixed
  | _ => none

/-- No number is drawn while a poll of `onListen` has it, and such a poll starts with a
number that nobody has. -/
def ListensApart (s : State ι) (a : Act ι) : Prop :=
  (draws s a = true → s.idx + 1 ∉ s.listens) ∧ ∀ id ∈ a.listens, ¬ Live s id

/-- Fewer than `2 ^ 64` numbers are drawn. -/
def FewDraws (s : State ι) (a : Act ι) : Prop := draws s a = true → s.draws + 1 < 2 ^ 64

/-- The entries that are out have different `UserData`. -/
def Distinct (s : State ι) : Prop := s.out.Nodup

/-! ## The invariant -/

/-- The `k`-th number of a ring that starts at `start`. -/
def nth (start : UInt64) (k : Nat) : UInt64 := start + UInt64.ofNat k

theorem nth_succ (start : UInt64) (k : Nat) : nth start k + 1 = nth start (k + 1) := by
  unfold nth
  rw [UInt64.ofNat_add, UInt64.add_assoc]
  rfl

theorem nth_ne {start : UInt64} {j k : Nat} (hjk : j < k) (hk : k < 2 ^ 64) :
    nth start j ≠ nth start k := by
  intro h
  have hnat := congrArg UInt64.toNat h
  simp only [nth, UInt64.toNat_add, UInt64.toNat_ofNat'] at hnat
  omega

/-- The numbers in use are all different. Each is that of a poll of `onListen` or one of
those drawn so far. -/
structure NumInv (start : UInt64) (s : State ι) : Prop where
  idx : s.idx = nth start s.draws
  known : ∀ id, Live s id → id ∈ s.listens ∨ ∃ k ≤ s.draws, id = nth start k
  apart : ∀ g g' id, (s.jobs g).num = some id → (s.jobs g').num = some id → g = g'
  fresh : ∀ g id, (s.jobs g).num = some id → id ∉ s.out
  distinct : Distinct s

theorem numInv_init (start : UInt64) : NumInv start (init ι start) := by
  refine ⟨?_, ?_, ?_, ?_, List.nodup_nil⟩
  · simp [init, nth]
  · rintro id (⟨g, hg⟩ | hid)
    · cases hg
    · cases hid
  · intro g g' id hg
    cases hg
  · intro g id hg
    cases hg

/-- The number that is drawn next is not in use. -/
theorem NumInv.next_not_live {start : UInt64} {s : State ι} {a : Act ι} (hi : NumInv start s)
    (hd : draws s a = true) (hlisten : ListensApart s a) (hfew : FewDraws s a) :
    ¬ Live s (s.idx + 1) := by
  intro hlive
  rcases hi.known _ hlive with hid | ⟨k, hk, hid⟩
  · exact hlisten.1 hd hid
  · rw [hi.idx, nth_succ] at hid
    exact nth_ne (Nat.lt_succ_of_le hk) (hfew hd) hid.symm

/-- A step after which every operation has its old number or none. -/
theorem NumInv.keep {start : UInt64} {s s' : State ι} (hi : NumInv start s)
    (hidx : s'.idx = s.idx) (hdraws : s'.draws = s.draws) (hlistens : s'.listens = s.listens)
    (hout : s'.out = s.out)
    (hnum : ∀ g, (s'.jobs g).num = (s.jobs g).num ∨ (s'.jobs g).num = none) :
    NumInv start s' := by
  have hold : ∀ g id, (s'.jobs g).num = some id → (s.jobs g).num = some id := by
    intro g id hg
    rcases hnum g with h | h
    · rw [← h, hg]
    · rw [h] at hg; cases hg
  refine ⟨by rw [hidx, hdraws, hi.idx], ?_, ?_, ?_, ?_⟩
  · rw [hlistens, hdraws]
    rintro id (⟨g, hg⟩ | hid)
    · exact hi.known id (Or.inl ⟨g, hold g id hg⟩)
    · rw [hout] at hid
      exact hi.known id (Or.inr hid)
  · exact fun g g' id hg hg' => hi.apart g g' id (hold g id hg) (hold g' id hg')
  · intro g id hg
    rw [hout]
    exact hi.fresh g id (hold g id hg)
  · rw [Distinct, hout]
    exact hi.distinct

variable [DecidableEq ι]

/-- An operation gets a number that is not in use. -/
theorem NumInv.gain {start : UInt64} {s s' : State ι} {g : ι} {j : Job} {id : UInt64}
    (hi : NumInv start s) (hjobs : s'.jobs = Function.update s.jobs g j) (hj : j.num = some id)
    (hidx : s'.idx = nth start s'.draws) (hdraws : s.draws ≤ s'.draws)
    (hlistens : s.listens ⊆ s'.listens) (hout : s'.out = s.out) (hnew : ¬ Live s id)
    (hid : id ∈ s'.listens ∨ ∃ k ≤ s'.draws, id = nth start k) : NumInv start s' := by
  have hcases : ∀ g' id', (s'.jobs g').num = some id' →
      (g' = g ∧ id' = id) ∨ (g' ≠ g ∧ (s.jobs g').num = some id') := by
    intro g' id' hg'
    rw [hjobs] at hg'
    rcases update_cases hg' with ⟨hg, h⟩ | h
    · rw [hj] at h
      exact Or.inl ⟨hg, (Option.some.inj h).symm⟩
    · exact Or.inr h
  refine ⟨hidx, ?_, ?_, ?_, ?_⟩
  · intro id' hlive
    have hold : Live s id' → id' ∈ s'.listens ∨ ∃ k ≤ s'.draws, id' = nth start k := by
      intro h
      rcases hi.known id' h with h | ⟨k, hk, h⟩
      · exact Or.inl (hlistens h)
      · exact Or.inr ⟨k, Nat.le_trans hk hdraws, h⟩
    rcases hlive with ⟨g', hg'⟩ | hmem
    · rcases hcases g' id' hg' with ⟨-, rfl⟩ | ⟨-, h⟩
      · exact hid
      · exact hold (Or.inl ⟨g', h⟩)
    · rw [hout] at hmem
      exact hold (Or.inr hmem)
  · intro g1 g2 id' h1 h2
    rcases hcases g1 id' h1 with ⟨rfl, rfl⟩ | ⟨-, hold1⟩ <;>
      rcases hcases g2 id' h2 with ⟨rfl, he⟩ | ⟨-, hold2⟩
    · rfl
    · exact absurd (Or.inl ⟨g2, hold2⟩) hnew
    · subst he
      exact absurd (Or.inl ⟨g1, hold1⟩) hnew
    · exact hi.apart g1 g2 id' hold1 hold2
  · intro g' id' hg'
    rw [hout]
    rcases hcases g' id' hg' with ⟨-, rfl⟩ | ⟨-, h⟩
    · exact fun hmem => hnew (Or.inr hmem)
    · exact hi.fresh g' id' h
  · rw [Distinct, hout]
    exact hi.distinct

/-- An entry is committed: its number moves from the operation to the entries that are out. -/
theorem NumInv.commit {start : UInt64} {s s' : State ι} {g : ι} {j : Job} {id : UInt64}
    (hi : NumInv start s) (hjobs : s'.jobs = Function.update s.jobs g j) (hj : j.num = none)
    (hg : (s.jobs g).num = some id) (hidx : s'.idx = s.idx) (hdraws : s'.draws = s.draws)
    (hlistens : s'.listens = s.listens) (hout : s'.out = s.out ++ [id]) : NumInv start s' := by
  have hold : ∀ g' id', (s'.jobs g').num = some id' →
      g' ≠ g ∧ (s.jobs g').num = some id' := by
    intro g' id' hg'
    rw [hjobs] at hg'
    rcases update_cases hg' with ⟨-, h⟩ | h
    · rw [hj] at h
      cases h
    · exact h
  refine ⟨by rw [hidx, hdraws, hi.idx], ?_, ?_, ?_, ?_⟩
  · rw [hlistens, hdraws]
    rintro id' (⟨g', hg'⟩ | hmem)
    · exact hi.known id' (Or.inl ⟨g', (hold g' id' hg').2⟩)
    · rw [hout, List.mem_append, List.mem_singleton] at hmem
      rcases hmem with hmem | rfl
      · exact hi.known id' (Or.inr hmem)
      · exact hi.known id' (Or.inl ⟨g, hg⟩)
  · exact fun g1 g2 id' h1 h2 => hi.apart g1 g2 id' (hold g1 id' h1).2 (hold g2 id' h2).2
  · intro g' id' hg'
    obtain ⟨hne, hnum⟩ := hold g' id' hg'
    rw [hout, List.mem_append, List.mem_singleton]
    rintro (hmem | rfl)
    · exact hi.fresh g' id' hnum hmem
    · exact hne (hi.apart g' g id' hnum hg)
  · rw [Distinct, hout]
    refine List.nodup_append.mpr ⟨hi.distinct, List.nodup_singleton id, ?_⟩
    rintro x hx y hy rfl
    rw [List.mem_singleton.mp hy] at hx
    exact hi.fresh g id hg hx

omit [DecidableEq ι] in
/-- A completion is consumed. -/
theorem NumInv.consumed {start : UInt64} {s : State ι} (hi : NumInv start s) {id : UInt64}
    (hid : id ∈ s.out) :
    NumInv start { s with out := s.out.erase id, listens := s.listens.erase id } := by
  have hsub : ∀ id', id' ∈ s.out.erase id → id' ≠ id ∧ id' ∈ s.out := fun id' h =>
    (List.Nodup.mem_erase_iff hi.distinct).mp h
  refine ⟨hi.idx, ?_, hi.apart, ?_, List.Nodup.erase id hi.distinct⟩
  · intro id' hlive
    -- the number that is consumed is not in use any more
    obtain ⟨hne, hold⟩ : id' ≠ id ∧ Live s id' := by
      rcases hlive with ⟨g, hg⟩ | hmem
      · refine ⟨?_, Or.inl ⟨g, hg⟩⟩
        rintro rfl
        exact hi.fresh g id' hg hid
      · exact ⟨(hsub id' hmem).1, Or.inr (hsub id' hmem).2⟩
    rcases hi.known id' hold with h | h
    · exact Or.inl ((List.mem_erase_of_ne hne).mpr h)
    · exact Or.inr h
  · intro g id' hg hmem
    exact hi.fresh g id' hg (hsub id' hmem).2

/-- The goroutine that takes a step keeps its number or drops it; the others keep theirs. -/
theorem num_update {s : State ι} {g : ι} {j : Job}
    (h : j.num = (s.jobs g).num ∨ j.num = none) (g' : ι) :
    (Function.update s.jobs g j g').num = (s.jobs g').num ∨
      (Function.update s.jobs g j g').num = none := by
  by_cases hg : g' = g
  · subst hg
    rw [Function.update_self]
    exact h
  · exact Or.inl (by rw [Function.update_of_ne hg])

theorem numInv_move {z : Size} {start : UInt64} {s s' : State ι} {a : Act ι}
    (hi : NumInv start s) (hentries : ∀ g, EntryInv z s g) (hlisten : ListensApart s a)
    (hfew : FewDraws s a) (hm : Move z s a s') : NumInv start s' := by
  cases hm with
  | @plan g op hjob hop => exact hi.keep rfl rfl rfl rfl (num_update (Or.inr rfl))
  | @submit g op q hjob hop hq =>
    cases hfixed : op.fixed with
    | none =>
      refine hi.keep rfl rfl ?_ rfl (num_update (Or.inr rfl))
      simp
    | some id =>
      refine hi.gain rfl rfl hi.idx (Nat.le_refl _) ?_ rfl ?_ (Or.inl ?_)
      · exact List.subset_append_left _ _
      · exact hlisten.2 id hfixed
      · simp
  | @drawFirst g op q hjob hq =>
    have hd : draws s (.step g) = true := by simp [draws, hjob]
    refine hi.gain rfl rfl ?_ (Nat.le_succ _) (List.Subset.refl _) rfl
      (hi.next_not_live hd hlisten hfew) (Or.inr ⟨_, Nat.le_refl _, ?_⟩)
    · simp only [State.goto, State.draw, hi.idx, nth_succ]
    · simp only [State.goto, State.draw, hi.idx, nth_succ]
  | @draw g r back num todo hjob hpc =>
    have hd : draws s (.step g) = true := by simp [draws, hjob, hpc]
    refine hi.gain rfl rfl ?_ (Nat.le_succ _) (List.Subset.refl _) rfl
      (hi.next_not_live hd hlisten hfew) (Or.inr ⟨_, Nat.le_refl _, ?_⟩)
    · simp only [State.goto, State.draw, hi.idx, nth_succ]
    · simp only [State.goto, State.draw, hi.idx, nth_succ]
  | queue hb hcaller hstep hq => exact hi.keep rfl rfl rfl rfl fun _ => Or.inl rfl
  | write hjob hpc ht hq | returnEarly hjob hpc | commit hjob hpc hq =>
    exact hi.keep rfl rfl rfl rfl (num_update (Or.inl (by rw [hjob]; rfl)))
  | panic hjob hpc | readBack hjob => exact hi.keep rfl rfl rfl rfl (num_update (Or.inr rfl))
  | @store g r back num job q hjob hpc hnext hq =>
    have hnum := (hentries g).closing _ _ r hjob (by rw [hpc]; rfl)
    refine hi.commit rfl ?_ ?_ rfl rfl rfl rfl
    · rcases hnext with rfl | rfl <;> rfl
    · rw [hjob]
      exact hnum
  | consumed hid => exact hi.consumed hid

/-! ## The law -/

/-- As long as no reservation comes round to the slot of a call that has not returned, and
the polls of `onListen` have numbers of their own, fewer than `2 ^ 64` operations leave
entries with different `UserData`. -/
theorem entries_out_have_distinct_user_data (z : Size) (start : UInt64) (as : List (Act ι))
    (h : Along (step z) (fun s a => KeepsSlots z s a ∧ ListensApart s a ∧ FewDraws s a)
      (init ι start) as) :
    Always (step z) Distinct (init ι start) as := by
  have hstep : ∀ (s : State ι) a s', CallInv z s ∧ NumInv start s →
      KeepsSlots z s a ∧ ListensApart s a ∧ FewDraws s a → step z s a = some s' →
      CallInv z s' ∧ NumInv start s' := by
    rintro s a s' ⟨hcall, hnum⟩ ⟨hslots, hlisten, hfew⟩ hs
    have hm := step_move hcall.slots.phases hs
    exact ⟨callInv_move hcall hslots hm, numInv_move hnum hcall.entries hlisten hfew hm⟩
  exact Along.always hstep (fun _ hi => hi.2.distinct) ⟨callInv_init z start, numInv_init start⟩ h

instance [Fintype ι] (s : State ι) (id : UInt64) : Decidable (Live s id) :=
  inferInstanceAs (Decidable ((∃ g, (s.jobs g).num = some id) ∨ id ∈ s.out))

-- the instance for the members of an option is named: with that for the members of a finite
-- type, deciding this goes through all numbers
instance [Fintype ι] (s : State ι) (a : Act ι) : Decidable (ListensApart s a) :=
  @instDecidableAnd (draws s a = true → s.idx + 1 ∉ s.listens) (∀ id ∈ a.listens, ¬ Live s id)
    inferInstance (Option.decidableForallMem a.listens)

instance (s : State ι) (a : Act ι) : Decidable (FewDraws s a) :=
  inferInstanceAs (Decidable (draws s a = true → s.draws + 1 < 2 ^ 64))

/-- An operation that nobody disturbs, with its `n` lines: 15 steps of `SubmitEntry`, the lines
and 4 steps of the closure. -/
def soloActs (op : Operation) (n : Nat) : List (Act Unit) :=
  .call () op :: List.replicate (19 + n) (.step ())

/-- A listener on `fd` starts, gets a connection and arms its two polls; then the connection
is read from, on a ring of eight. -/
def listenAndRead (fd : Int64) : List (Act Unit) :=
  soloActs (.listenerRun fd) 5 ++ soloActs (.listenNew 9) 4 ++ soloActs (.listenOld fd) 4 ++
    soloActs (.rePoll 9) 5 ++ soloActs (.connRead 9 ⟨64, 1⟩) 7

/-- The listening descriptor is 7, and the numbers drawn are 1, 2 and 3. -/
theorem a_listener_with_a_number_of_its_own :
    Along (step ⟨3, by decide⟩)
        (fun s a => KeepsSlots ⟨3, by decide⟩ s a ∧ ListensApart s a ∧ FewDraws s a)
        (init Unit 0) (listenAndRead 7) ∧
      Always (step ⟨3, by decide⟩) Distinct (init Unit 0) (listenAndRead 7) ∧
      (run (step ⟨3, by decide⟩) (init Unit 0) (listenAndRead 7)).map State.out =
        some [1, 0, 7, 2, 3] := by
  have h : Along (step ⟨3, by decide⟩)
      (fun s a => KeepsSlots ⟨3, by decide⟩ s a ∧ ListensApart s a ∧ FewDraws s a)
      (init Unit 0) (listenAndRead 7) := by decide +kernel
  exact ⟨h, entries_out_have_distinct_user_data _ 0 _ h, by decide +kernel⟩

/-- The listening descriptor is 5 on a ring with `WithID(2)`: the poll on it and the read of
the connection are both out with `UserData` 5. -/
theorem a_read_has_the_number_of_the_listener :
    ∃ s, run (step ⟨3, by decide⟩) (init Unit 2) (listenAndRead 5) = some s ∧
      s.out = [3, 0, 5, 4, 5] ∧ ¬ Distinct s := by
  have h : (run (step ⟨3, by decide⟩) (init Unit 2) (listenAndRead 5)).map State.out =
      some [3, 0, 5, 4, 5] := by decide +kernel
  obtain ⟨s, hrun, hs⟩ := Option.map_eq_some_iff.mp h
  refine ⟨s, hrun, hs, ?_⟩
  rw [Distinct, hs]
  decide

end iouring.prepare_calls
