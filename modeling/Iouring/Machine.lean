-- A machine takes one label at a time and may refuse it. A run is a list of
-- labels that the machine takes one after the other. The rules here turn a
-- fact about one step into a fact about every run, and the tally counts the
-- parties of a machine that stand at a kind of place.
import Mathlib.Algebra.BigOperators.Group.Finset.Basic
import Mathlib.Data.Fintype.Card
import Mathlib.Logic.Relation

namespace machine

variable {σ α : Type*} (step : σ → α → Option σ)

/-! ## Runs -/

/-- The state after a list of labels, or `none` when one of them is refused. -/
def run : σ → List α → Option σ
  | s, [] => some s
  | s, a :: as => (step s a).bind fun s' => run s' as

/-- A state that some run from `s` ends in. -/
def Reachable (s s' : σ) : Prop := ∃ as, run step s as = some s'

/-- Each label of the run is taken in a state that meets `ok`. -/
def Along (ok : σ → α → Prop) : σ → List α → Prop
  | _, [] => True
  | s, a :: as => ∀ s', step s a = some s' → ok s a ∧ Along ok s' as

/-- Each label comes up in a state that meets `ok`, one that is refused there too. -/
def Offers (ok : σ → α → Prop) : σ → List α → Prop
  | _, [] => True
  | s, a :: as => ok s a ∧ ∀ s', step s a = some s' → Offers ok s' as

/-- Each state of the run, the first one included, meets `P`. -/
def Always (P : σ → Prop) : σ → List α → Prop
  | s, [] => P s
  | s, a :: as => P s ∧ ∀ s', step s a = some s' → Always P s' as

/-- Taking one label over and over, at least once, leads from a state to another. -/
abbrev Repeats (a : α) : σ → σ → Prop := Relation.TransGen fun s s' => step s a = some s'

/-- Taking one label over and over, or not at all, leads from a state to another. -/
abbrev Follows (a : α) : σ → σ → Prop := Relation.ReflTransGen fun s s' => step s a = some s'

variable {step}

@[simp] theorem run_nil (s : σ) : run step s [] = some s := rfl

@[simp] theorem run_cons (s : σ) (a : α) (as : List α) :
    run step s (a :: as) = (step s a).bind fun s' => run step s' as := rfl

theorem run_append (s : σ) (as bs : List α) :
    run step s (as ++ bs) = (run step s as).bind fun s' => run step s' bs := by
  induction as generalizing s with
  | nil => rfl
  | cons a as ih =>
    simp only [List.cons_append, run_cons]
    rcases step s a with _ | s1
    · rfl
    · exact ih s1

/-- A run of two parts: the first part ends where the second one starts. -/
theorem run_append_of {s s1 s2 : σ} {as bs : List α} (h1 : run step s as = some s1)
    (h2 : run step s1 bs = some s2) : run step s (as ++ bs) = some s2 := by
  rw [run_append, h1]
  exact h2

theorem run_cons_of {s s1 s2 : σ} {a : α} {as : List α} (h1 : step s a = some s1)
    (h2 : run step s1 as = some s2) : run step s (a :: as) = some s2 := by
  rw [run_cons, h1]
  exact h2

theorem run_singleton {s s' : σ} {a : α} (h : step s a = some s') : run step s [a] = some s' :=
  run_cons_of h (run_nil s')

/-- The step that a run of at least one label starts with. -/
theorem run_cons_inv {s s' : σ} {a : α} {as : List α} (h : run step s (a :: as) = some s') :
    ∃ s1, step s a = some s1 ∧ run step s1 as = some s' := by
  rw [run_cons] at h
  exact Option.bind_eq_some_iff.mp h

theorem Follows.of_run {a : α} {n : Nat} {s s' : σ}
    (h : run step s (List.replicate n a) = some s') : Follows step a s s' := by
  induction n generalizing s with
  | zero =>
    cases h
    exact .refl
  | succ n ih =>
    obtain ⟨s1, h1, hrest⟩ := run_cons_inv h
    exact .head h1 (ih hrest)

/-- What every step with the label keeps. -/
theorem Follows.invariant {a : α} {Inv : σ → Prop}
    (hstep : ∀ s s', Inv s → step s a = some s' → Inv s') {s s' : σ} (hs : Inv s)
    (h : Follows step a s s') : Inv s' := by
  induction h with
  | refl => exact hs
  | tail _ hlast ih => exact hstep _ _ ih hlast

theorem Follows.eq_of_end {a : α} {s s' : σ} (h : Follows step a s s') (hend : step s a = none) :
    s = s' := by
  rcases h.cases_head with heq | ⟨s1, h1, -⟩
  · exact heq
  · rw [hend] at h1
    cases h1

/-- On the way to a state where the label is refused, there is one step to take. -/
theorem Follows.next {a : α} {s s1 s' : σ} (h : Follows step a s s') (hend : step s' a = none)
    (h1 : step s a = some s1) : Follows step a s1 s' := by
  rcases h.cases_head with rfl | ⟨s2, h2, hrest⟩
  · rw [hend] at h1
    cases h1
  · rw [h1] at h2
    cases h2
    exact hrest

/-- There is one state at most where the label is refused. -/
theorem Follows.unique {a : α} {s s1 s2 : σ} (h1 : Follows step a s s1) (hend1 : step s1 a = none)
    (h2 : Follows step a s s2) (hend2 : step s2 a = none) : s1 = s2 := by
  have hfun : Relator.RightUnique fun s s' => step s a = some s' := by
    intro t t1 t2 ht1 ht2
    rw [ht1] at ht2
    exact Option.some.inj ht2
  rcases Relation.ReflTransGen.total_of_right_unique hfun h1 h2 with h | h
  · exact Follows.eq_of_end h hend1
  · exact (Follows.eq_of_end h hend2).symm

instance decidableAlong {ok : σ → α → Prop} [∀ s a, Decidable (ok s a)] :
    ∀ (s : σ) (as : List α), Decidable (Along step ok s as)
  | _, [] => isTrue trivial
  | s, a :: as =>
    match h : step s a with
    | none => isTrue fun s' h' => by rw [h] at h'; cases h'
    | some s1 =>
      have : Decidable (Along step ok s1 as) := decidableAlong s1 as
      decidable_of_iff (ok s a ∧ Along step ok s1 as)
        ⟨fun hs s' h' => by rw [h] at h'; cases h'; exact hs, fun hs => hs s1 h⟩

instance decidableOffers {ok : σ → α → Prop} [∀ s a, Decidable (ok s a)] :
    ∀ (s : σ) (as : List α), Decidable (Offers step ok s as)
  | _, [] => isTrue trivial
  | s, a :: as =>
    match h : step s a with
    | none =>
      decidable_of_iff (ok s a)
        ⟨fun hs => ⟨hs, fun s' h' => by rw [h] at h'; cases h'⟩, fun hs => hs.1⟩
    | some s1 =>
      have : Decidable (Offers step ok s1 as) := decidableOffers s1 as
      decidable_of_iff (ok s a ∧ Offers step ok s1 as)
        ⟨fun hs => ⟨hs.1, fun s' h' => by rw [h] at h'; cases h'; exact hs.2⟩,
          fun hs => ⟨hs.1, hs.2 s1 h⟩⟩

/-! ## Invariants -/

/-- What every step under `ok` keeps, every run under `ok` keeps. -/
theorem run_invariant {ok : σ → α → Prop} {Inv : σ → Prop}
    (hstep : ∀ s a s', Inv s → ok s a → step s a = some s' → Inv s')
    {s s' : σ} {as : List α} (hs : Inv s) (hok : Along step ok s as)
    (hrun : run step s as = some s') : Inv s' := by
  induction as generalizing s with
  | nil =>
    cases hrun
    exact hs
  | cons a as ih =>
    obtain ⟨s1, h1, hrest⟩ := run_cons_inv hrun
    obtain ⟨hoka, hoks⟩ := hok s1 h1
    exact ih (hstep s a s1 hs hoka h1) hoks hrest

theorem along_of_forall {ok : σ → α → Prop} {as : List α} (h : ∀ a ∈ as, ∀ s, ok s a) (s : σ) :
    Along step ok s as := by
  induction as generalizing s with
  | nil => trivial
  | cons a as ih =>
    intro s1 _
    exact ⟨h a List.mem_cons_self s, ih (fun b hb => h b (List.mem_cons_of_mem a hb)) s1⟩

/-- If every step lowers a rank, no run is longer than the rank it starts with. -/
theorem run_length_le {Inv : σ → Prop} {rank : σ → Nat}
    (hstep : ∀ s a s', Inv s → step s a = some s' → Inv s' ∧ rank s' < rank s)
    {s s' : σ} {as : List α} (hs : Inv s) (hrun : run step s as = some s') :
    as.length + rank s' ≤ rank s := by
  induction as generalizing s with
  | nil =>
    cases hrun
    simp
  | cons a as ih =>
    obtain ⟨s1, h1, hrest⟩ := run_cons_inv hrun
    obtain ⟨hinv, hlt⟩ := hstep s a s1 hs h1
    have := ih hinv hrest
    simp only [List.length_cons]
    omega

/-- If the label `a` can be taken and lowers a rank wherever the end is not reached, then it
leads to the end in as many steps as the rank says at most. -/
theorem run_to_end {a : α} {Inv fin : σ → Prop} {rank : σ → Nat}
    (hstep : ∀ s, Inv s → ¬ fin s → ∃ s', step s a = some s' ∧ Inv s' ∧ rank s' < rank s)
    {s : σ} (hs : Inv s) :
    ∃ k ≤ rank s, ∃ s', run step s (List.replicate k a) = some s' ∧ Inv s' ∧ fin s' := by
  induction hr : rank s using Nat.strongRecOn generalizing s with
  | ind r ih =>
    by_cases hfin : fin s
    · exact ⟨0, Nat.zero_le _, s, rfl, hs, hfin⟩
    · obtain ⟨s1, h1, hs1, hlt⟩ := hstep s hs hfin
      obtain ⟨k, hk, s', hrun, hend⟩ := ih (rank s1) (hr ▸ hlt) hs1 rfl
      exact ⟨k + 1, by omega, s', run_cons_of h1 hrun, hend⟩

/-- Some run whose steps meet `ok` leads from a state to another. -/
def Leads (step : σ → α → Option σ) (ok : σ → α → Prop) (s s' : σ) : Prop :=
  ∃ as, Along step ok s as ∧ run step s as = some s'

theorem Leads.refl {ok : σ → α → Prop} (s : σ) : Leads step ok s s := ⟨[], trivial, rfl⟩

theorem Leads.head {ok : σ → α → Prop} {s s1 s2 : σ} {a : α} (h1 : step s a = some s1)
    (hok : ok s a) (h2 : Leads step ok s1 s2) : Leads step ok s s2 := by
  obtain ⟨as, hoks, hrun⟩ := h2
  refine ⟨a :: as, fun s' h' => ?_, run_cons_of h1 hrun⟩
  rw [h1] at h'
  cases h'
  exact ⟨hok, hoks⟩

theorem Leads.trans {ok : σ → α → Prop} {s s1 s2 : σ} (h1 : Leads step ok s s1)
    (h2 : Leads step ok s1 s2) : Leads step ok s s2 := by
  obtain ⟨as, hoks, hrun⟩ := h1
  induction as generalizing s with
  | nil =>
    cases hrun
    exact h2
  | cons a as ih =>
    obtain ⟨s', h', hrest⟩ := run_cons_inv hrun
    obtain ⟨hok, hoks⟩ := hoks s' h'
    exact .head h' hok (ih hoks hrest)

/-- If some label can be taken and lowers a rank wherever the end is not reached, then the end
can be reached. -/
theorem leads_to_end {ok : σ → α → Prop} {Inv fin : σ → Prop} {rank : σ → Nat}
    (hstep : ∀ s, Inv s → ¬ fin s →
      ∃ a s', step s a = some s' ∧ ok s a ∧ Inv s' ∧ rank s' < rank s)
    {s : σ} (hs : Inv s) : ∃ s', Leads step ok s s' ∧ Inv s' ∧ fin s' := by
  induction hr : rank s using Nat.strongRecOn generalizing s with
  | ind r ih =>
    by_cases hfin : fin s
    · exact ⟨s, .refl s, hs, hfin⟩
    · obtain ⟨a, s1, h1, hok, hs1, hlt⟩ := hstep s hs hfin
      obtain ⟨s', hleads, hend⟩ := ih (rank s1) (hr ▸ hlt) hs1 rfl
      exact ⟨s', .head h1 hok hleads, hend⟩

/-- What every step keeps holds in every reachable state. -/
theorem reachable_invariant {Inv : σ → Prop}
    (hstep : ∀ s a s', Inv s → step s a = some s' → Inv s')
    {s s' : σ} (hs : Inv s) (hr : Reachable step s s') : Inv s' := by
  obtain ⟨as, hrun⟩ := hr
  exact run_invariant (fun s a s' hi _ => hstep s a s' hi) hs
    (along_of_forall (fun _ _ _ => trivial) s) hrun

/-- Under an invariant, a run whose steps meet `ok` meets what `ok` implies. -/
theorem Along.imp {ok ok' : σ → α → Prop} {Inv : σ → Prop}
    (hstep : ∀ s a s', Inv s → ok s a → step s a = some s' → Inv s')
    (himp : ∀ s a, Inv s → ok s a → ok' s a) {s : σ} {as : List α} (hs : Inv s)
    (hok : Along step ok s as) : Along step ok' s as := by
  induction as generalizing s with
  | nil => trivial
  | cons a as ih =>
    intro s1 h1
    obtain ⟨hoka, hoks⟩ := hok s1 h1
    exact ⟨himp s a hs hoka, ih (hstep s a s1 hs hoka h1) hoks⟩

theorem Along.mono {ok ok' : σ → α → Prop} {s : σ} {as : List α} (hok : Along step ok s as)
    (himp : ∀ s a, ok s a → ok' s a) : Along step ok' s as := by
  have hstep : ∀ s a s', True → ok s a → step s a = some s' → True := fun _ _ _ _ _ _ => trivial
  exact Along.imp hstep (fun s a _ => himp s a) trivial hok

/-- Two conditions that have the same meaning in every state with the invariant, which
steps under the first one keep. -/
theorem along_congr {ok ok' : σ → α → Prop} {Inv : σ → Prop}
    (hstep : ∀ s a s', Inv s → ok s a → step s a = some s' → Inv s')
    (hiff : ∀ s a, Inv s → (ok s a ↔ ok' s a)) {s : σ} (hs : Inv s) (as : List α) :
    Along step ok s as ↔ Along step ok' s as := by
  constructor
  · exact Along.imp hstep (fun s a hi => (hiff s a hi).mp) hs
  · apply Along.imp _ (fun s a hi => (hiff s a hi).mpr) hs
    exact fun s a s' hi hok => hstep s a s' hi ((hiff s a hi).mpr hok)

/-- A run whose steps meet `ok` keeps in all its states what an invariant implies. -/
theorem Along.always {ok : σ → α → Prop} {Inv P : σ → Prop}
    (hstep : ∀ s a s', Inv s → ok s a → step s a = some s' → Inv s')
    (hP : ∀ s, Inv s → P s) {s : σ} {as : List α} (hs : Inv s) (hok : Along step ok s as) :
    Always step P s as := by
  induction as generalizing s with
  | nil => exact hP s hs
  | cons a as ih =>
    refine ⟨hP s hs, fun s1 h1 => ?_⟩
    obtain ⟨hoka, hrest⟩ := hok s1 h1
    exact ih (hstep s a s1 hs hoka h1) hrest

theorem Always.head {P : σ → Prop} {s : σ} {as : List α} (h : Always step P s as) : P s := by
  cases as with
  | nil => exact h
  | cons a as => exact h.1

/-- Among the runs whose steps meet `ok0`, those that keep `P` in all their
states are those whose steps meet `ok`, when steps under both keep an invariant
that implies `P`, and a step from the invariant to a state with `P` meets `ok`. -/
theorem always_iff_along_of {ok0 ok : σ → α → Prop} {Inv P : σ → Prop}
    (hstep : ∀ s a s', Inv s → ok0 s a → ok s a → step s a = some s' → Inv s')
    (hP : ∀ s, Inv s → P s)
    (hok : ∀ s a s', Inv s → ok0 s a → step s a = some s' → P s' → ok s a)
    {s : σ} (hs : Inv s) {as : List α} (h0 : Along step ok0 s as) :
    Always step P s as ↔ Along step ok s as := by
  induction as generalizing s with
  | nil => exact ⟨fun _ => trivial, fun _ => hP s hs⟩
  | cons a as ih =>
    constructor
    · intro h s1 h1
      obtain ⟨h0a, h0s⟩ := h0 s1 h1
      have hrest := h.2 s1 h1
      have hoka := hok s a s1 hs h0a h1 hrest.head
      exact ⟨hoka, (ih (hstep s a s1 hs h0a hoka h1) h0s).mp hrest⟩
    · intro h
      refine ⟨hP s hs, fun s1 h1 => ?_⟩
      obtain ⟨h0a, h0s⟩ := h0 s1 h1
      obtain ⟨hoka, hoks⟩ := h s1 h1
      exact (ih (hstep s a s1 hs h0a hoka h1) h0s).mpr hoks

/-- A run keeps `P` in all its states exactly if all its steps meet `ok`, when
steps under `ok` keep an invariant that implies `P`, and a step from the
invariant to a state with `P` meets `ok`. -/
theorem always_iff_along {ok : σ → α → Prop} {Inv P : σ → Prop}
    (hstep : ∀ s a s', Inv s → ok s a → step s a = some s' → Inv s')
    (hP : ∀ s, Inv s → P s)
    (hok : ∀ s a s', Inv s → step s a = some s' → P s' → ok s a)
    {s : σ} (hs : Inv s) (as : List α) :
    Always step P s as ↔ Along step ok s as :=
  always_iff_along_of (fun s a s' hi _ => hstep s a s' hi) hP (fun s a s' hi _ => hok s a s' hi) hs
    (along_of_forall (fun _ _ _ => trivial) s)

/-- What follows from an invariant of every step holds at each step of a run. -/
theorem along_of_invariant {ok : σ → α → Prop} {Inv : σ → Prop}
    (hstep : ∀ s a s', Inv s → step s a = some s' → Inv s') (hok : ∀ s a, Inv s → ok s a)
    {s : σ} (hs : Inv s) (as : List α) : Along step ok s as :=
  Along.imp (fun s a s' hi _ => hstep s a s' hi) (fun s a hi _ => hok s a hi) hs
    (along_of_forall (fun _ _ _ => trivial) s)

/-- What follows from an invariant of every step holds in each state of a run. -/
theorem always_of_invariant {Inv P : σ → Prop}
    (hstep : ∀ s a s', Inv s → step s a = some s' → Inv s') (hP : ∀ s, Inv s → P s)
    {s : σ} (hs : Inv s) (as : List α) : Always step P s as :=
  Along.always (fun s a s' hi _ => hstep s a s' hi) hP hs
    (along_of_forall (fun _ _ _ => trivial) s)

/-! ## Simulations -/

/-- Each step of a machine under `ok` leaves what `f` shows of its states as it is, or is a
step of another machine on it. -/
def Simulates {τ β : Type*} (step : σ → α → Option σ) (step' : τ → β → Option τ) (f : σ → τ)
    (ok : σ → α → Prop) : Prop :=
  ∀ s a s', ok s a → step s a = some s' → f s' = f s ∨ ∃ b, step' (f s) b = some (f s')

/-- What the other machine keeps, a run of the machine keeps of what `f` shows. -/
theorem Simulates.always {τ β : Type*} {step' : τ → β → Option τ} {f : σ → τ}
    {ok : σ → α → Prop} {Inv : τ → Prop} {P : σ → Prop} (hsim : Simulates step step' f ok)
    (hstep : ∀ t b t', Inv t → step' t b = some t' → Inv t') (hP : ∀ s, Inv (f s) → P s)
    {s : σ} {as : List α} (hs : Inv (f s)) (hok : Along step ok s as) :
    Always step P s as := by
  refine Along.always (fun s a s' hi hok h => ?_) hP hs hok
  rcases hsim s a s' hok h with hsame | ⟨b, hb⟩
  · rw [hsame]
    exact hi
  · exact hstep _ b _ hi hb

/-! ## What is seen of a run -/

/-- What the labels of a run show, each in the state where it is taken. -/
def seen (step : σ → α → Option σ) {β : Type*} (obs : σ → α → List β) : σ → List α → List β
  | _, [] => []
  | s, a :: as =>
    match step s a with
    | none => []
    | some s' => obs s a ++ seen step obs s' as

theorem seen_cons_of {β : Type*} {obs : σ → α → List β} {s s' : σ} {a : α} (as : List α)
    (h : step s a = some s') : seen step obs s (a :: as) = obs s a ++ seen step obs s' as := by
  simp only [seen, h]

theorem seen_singleton {β : Type*} {obs : σ → α → List β} {s s' : σ} {a : α}
    (h : step s a = some s') : seen step obs s [a] = obs s a := by
  rw [seen_cons_of _ h]
  exact List.append_nil _

theorem seen_append {β : Type*} {obs : σ → α → List β} {s s' : σ} {as : List α} (bs : List α)
    (h : run step s as = some s') :
    seen step obs s (as ++ bs) = seen step obs s as ++ seen step obs s' bs := by
  induction as generalizing s with
  | nil =>
    cases h
    rfl
  | cons a as ih =>
    obtain ⟨s1, h1, hrest⟩ := run_cons_inv h
    rw [List.cons_append, seen_cons_of _ h1, seen_cons_of _ h1, ih hrest, List.append_assoc]

/-- Labels may be replaced by others, or by none, that show the same, as long as the run with
them stays related to the one without. -/
theorem seen_flatMap {β : Type*} {obs : σ → α → List β} {R : σ → σ → Prop}
    {ok P : σ → α → Prop} {f : α → List α}
    (h : ∀ s t a, R s t → ok s a → ∃ s', step s a = some s' ∧
      (P s a → ∃ t', run step t (f a) = some t' ∧ R s' t' ∧ seen step obs t (f a) = obs s a))
    {s t : σ} {as : List α} (hst : R s t) (hok : Offers step ok s as) (hP : Along step P s as) :
    seen step obs t (as.flatMap f) = seen step obs s as := by
  induction as generalizing s t with
  | nil => rfl
  | cons a as ih =>
    obtain ⟨s1, h1, hreplaced⟩ := h s t a hst hok.1
    obtain ⟨ha, has⟩ := hP s1 h1
    obtain ⟨t1, hrun, hst1, hshown⟩ := hreplaced ha
    rw [List.flatMap_cons, seen_append _ hrun, hshown, ih hst1 (hok.2 s1 h1) has,
      seen_cons_of _ h1]

/-! ## The parties -/

/-- One party moves between two places that `f` does not tell apart. -/
theorem update_same {ι β γ : Type*} [DecidableEq ι] {f : β → γ} {u : ι → β} {i : ι} {b : β}
    (h : f b = f (u i)) (j : ι) : f (Function.update u i b j) = f (u j) := by
  by_cases hj : j = i
  · subst hj; rw [Function.update_self, h]
  · rw [Function.update_of_ne hj]

/-- After one party has moved, a party is the one that moved or stands where it stood. -/
theorem update_cases {ι β γ : Type*} [DecidableEq ι] {f : β → γ} {u : ι → β} {i j : ι} {b : β}
    {y : γ} (h : f (Function.update u i b j) = y) : (j = i ∧ f b = y) ∨ (j ≠ i ∧ f (u j) = y) := by
  by_cases hj : j = i
  · rw [hj, Function.update_self] at h
    exact Or.inl ⟨hj, h⟩
  · rw [Function.update_of_ne hj] at h
    exact Or.inr ⟨hj, h⟩

section Tally

variable {ι β : Type*} [Fintype ι]

/-- How many parties stand at a place that `p` holds of. -/
def tally (p : β → Bool) (f : ι → β) : Nat := ∑ i, (p (f i)).toNat

theorem tally_eq_zero {p : β → Bool} {f : ι → β} (h : ∀ i, p (f i) = false) :
    tally p f = 0 := by
  simp [tally, h]

variable [DecidableEq ι]

/-- One party moves from its place to `b`. -/
theorem tally_update (p : β → Bool) (f : ι → β) (i : ι) (b : β) :
    tally p (Function.update f i b) + (p (f i)).toNat = tally p f + (p b).toNat := by
  unfold tally
  have hrest : ∑ j ∈ Finset.univ.erase i, (p (Function.update f i b j)).toNat =
      ∑ j ∈ Finset.univ.erase i, (p (f j)).toNat := by
    apply Finset.sum_congr rfl
    intro j hj
    rw [Function.update_of_ne (Finset.ne_of_mem_erase hj)]
  rw [← Finset.add_sum_erase _ _ (Finset.mem_univ i), hrest, Function.update_self,
    ← Finset.add_sum_erase _ (fun j => (p (f j)).toNat) (Finset.mem_univ i)]
  omega

/-- One party moves between two places that `p` does not tell apart. -/
theorem tally_update_eq {p : β → Bool} {f : ι → β} {i : ι} {b : β} (h : p (f i) = p b) :
    tally p (Function.update f i b) = tally p f := by
  have := tally_update p f i b
  rw [h] at this
  omega

theorem tally_pos {p : β → Bool} {f : ι → β} {i : ι} (h : p (f i) = true) : 0 < tally p f := by
  unfold tally
  rw [← Finset.add_sum_erase _ _ (Finset.mem_univ i), h]
  exact Nat.add_pos_left Nat.one_pos _

/-- Where at most one party stands, there are no two. -/
theorem tally_unique {p : β → Bool} {f : ι → β} (h : tally p f ≤ 1) {i j : ι}
    (hi : p (f i) = true) (hj : p (f j) = true) : i = j := by
  by_contra hne
  have hmem : j ∈ Finset.univ.erase i := Finset.mem_erase.mpr ⟨Ne.symm hne, Finset.mem_univ j⟩
  have hsplit : tally p f = (p (f i)).toNat + ((p (f j)).toNat +
      ∑ k ∈ (Finset.univ.erase i).erase j, (p (f k)).toNat) := by
    rw [Finset.add_sum_erase _ (fun k => (p (f k)).toNat) hmem,
      Finset.add_sum_erase _ (fun k => (p (f k)).toNat) (Finset.mem_univ i)]
    rfl
  rw [hi, hj, Bool.toNat_true] at hsplit
  omega

omit [DecidableEq ι] in
theorem tally_le_card (p : β → Bool) (f : ι → β) : tally p f ≤ Fintype.card ι := by
  have hall : tally p f + tally (fun b => !p b) f = Fintype.card ι := by
    rw [tally, tally, ← Finset.sum_add_distrib, Fintype.card, Finset.card_eq_sum_ones]
    apply Finset.sum_congr rfl
    intro i _
    cases p (f i) <;> rfl
  omega

end Tally

end machine
