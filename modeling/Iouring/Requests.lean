-- The requests of `Ring.complete`. They come from a pool, so what a call gets
-- rests on who holds which request: one call at a time, and `onEntry` only
-- while that call waits. What holds of a request at each place is stated
-- here, with what each step of `Ring.run` on a request does to it.
import Iouring.RingSteps

open counter machine
open iouring.completion_queue (CompletionEntry)

namespace iouring.ring

variable {ι : Type}

/-! ## Who holds a request -/

/-- The request and the id of a call. -/
def Caller.holds : Caller → Option (Nat × UInt64)
  | .idle => none
  | .setId r id | .setRes r id | .setFlags r id | .send r id | .wait r id | .readRes r id
  | .readFlags r id _ | .put r id _ _ => some (r, id)

/-- No two calls hold one request or ask for one id, and no call holds a
request that is in the pool. -/
structure OwnInv (s : State ι) : Prop where
  own : ∀ {g g' r id id'}, (s.callers g).holds = some (r, id) →
    (s.callers g').holds = some (r, id') → g = g'
  ids : ∀ {g g' r r' id}, (s.callers g).holds = some (r, id) →
    (s.callers g').holds = some (r', id) → g = g'
  used : ∀ {g r id}, (s.callers g).holds = some (r, id) →
    r < s.fresh ∧ r ∉ s.completionPool ∧ id ∈ s.asked
  pool_lt : ∀ r ∈ s.completionPool, r < s.fresh
  pool_nodup : s.completionPool.Nodup

theorem ownInv_init : OwnInv (init ι) where
  own := fun h => by simp [init, Caller.holds] at h
  ids := fun h => by simp [init, Caller.holds] at h
  used := fun h => by simp [init, Caller.holds] at h
  pool_lt := fun r h => by simp [init] at h
  pool_nodup := List.nodup_nil

theorem OwnInv.frame {s s' : State ι} (hi : OwnInv s)
    (hholds : ∀ g, (s'.callers g).holds = (s.callers g).holds) (hfresh : s'.fresh = s.fresh)
    (hpool : s'.completionPool = s.completionPool) (hasked : s'.asked = s.asked) : OwnInv s' := by
  refine ⟨?_, ?_, ?_, ?_, ?_⟩
  · simp only [hholds]
    exact hi.own
  · simp only [hholds]
    exact hi.ids
  · simp only [hholds, hfresh, hpool, hasked]
    exact hi.used
  · rw [hpool, hfresh]
    exact hi.pool_lt
  · rw [hpool]
    exact hi.pool_nodup

/-! ## Where a request stands -/

/-- What `Ring.run` is doing with a request. -/
inductive Work where
  | none
  | insert (r : Nat)
  | res (r : Nat) (cqe : CompletionEntry)
  | flags (r : Nat) (cqe : CompletionEntry)
  | done (r : Nat) (cqe : CompletionEntry)
  | delete (r : Nat) (cqe : CompletionEntry)

def RunPc.work : RunPc → Work
  | .insert r => .insert r
  | .setRes _ r cqe => .res r cqe
  | .setFlags _ r cqe => .flags r cqe
  | .done _ r cqe => .done r cqe
  | .delete _ r cqe => .delete r cqe
  | _ => .none

/-- The delivery that is under way. -/
def Work.gives : Work → Option (Nat × CompletionEntry)
  | .res r cqe | .flags r cqe | .done r cqe => some (r, cqe)
  | _ => Option.none

/-- `Ring.run` does not know the id yet. -/
def Unknown (s : State ι) (id : UInt64) : Prop :=
  s.inflight.lookup id = none ∧ id ∉ s.delivered

/-- A caller waits for the request, and `Ring.run` has done nothing with it. -/
def Unseen (s : State ι) (r : Nat) : Prop :=
  ∃ g id, s.callers g = .wait r id ∧ (s.heap r).done = 0 ∧ Unknown s id

/-- The entry with this id, result and flags has been posted. -/
def Right (s : State ι) (id : UInt64) (res : Int32) (flags : UInt32) : Prop :=
  ⟨id, res, flags⟩ ∈ s.queue.posted

/-- What a call can rely on where it stands. -/
def CallOk (s : State ι) : Caller → Prop
  | .idle => True
  | .setId _ id => Unknown s id
  | .setRes r id | .setFlags r id | .send r id => Unknown s id ∧ (s.heap r).id = id
  | .wait r id => (s.heap r).id = id
  | .readRes r id => Right s id (s.heap r).res (s.heap r).flags
  | .readFlags r id res => Right s id res (s.heap r).flags
  | .put _ id res flags => Right s id res flags

/-- What `Ring.run` and the waiting calls can rely on. -/
structure WaitInv (s : State ι) : Prop where
  /-- A token in `done` is the only one, and the result is there. -/
  token : ∀ {r}, (s.heap r).done ≠ 0 → (s.heap r).done = 1 ∧
    ∃ g id, s.callers g = .wait r id ∧ Right s id (s.heap r).res (s.heap r).flags
  queued : ∀ r ∈ s.completions, Unseen s r
  queue_nodup : s.completions.Nodup
  inserting : ∀ {r}, s.run.work = .insert r → Unseen s r ∧ r ∉ s.completions
  /-- A key names the request of the call that waits for it, until the request
  is signalled and the key is about to be deleted. -/
  keys : ∀ {id r}, s.inflight.lookup id = some r →
    (∃ cqe, s.run.work = .delete r cqe ∧ cqe.userData = id) ∨
      (id ∉ s.delivered ∧ (s.heap r).done = 0 ∧ ∃ g, s.callers g = .wait r id)
  giving : ∀ {r cqe}, s.run.work.gives = some (r, cqe) →
    cqe ∈ s.queue.posted ∧ s.inflight.lookup cqe.userData = some r
  gaveRes : ∀ {r cqe}, s.run.work = .flags r cqe ∨ s.run.work = .done r cqe →
    (s.heap r).res = cqe.res
  gaveFlags : ∀ {r cqe}, s.run.work = .done r cqe → (s.heap r).flags = cqe.flags
  deleting : ∀ {r cqe}, s.run.work = .delete r cqe →
    (s.heap r).id = cqe.userData ∧ cqe.userData ∈ s.delivered
  asked : ∀ id ∈ s.delivered, id ∈ s.asked

/-- Every call gets what is right, and every call that has returned got it. -/
structure CallsInv (s : State ι) : Prop extends OwnInv s, WaitInv s where
  calls : ∀ g, CallOk s (s.callers g)
  returned : ∀ x ∈ s.results, Right s x.1 x.2.1 x.2.2

theorem callsInv_init : CallsInv (init ι) where
  toOwnInv := ownInv_init
  token := fun h => absurd rfl h
  queued := fun r h => by simp [init] at h
  queue_nodup := List.nodup_nil
  inserting := nofun
  keys := fun h => by simp [init] at h
  giving := nofun
  gaveRes := nofun
  gaveFlags := nofun
  deleting := nofun
  asked := fun id h => by simp [init] at h
  calls := fun _ => trivial
  returned := fun x h => by simp [init] at h

/-- The id of a call that has not sent its request yet. -/
def Caller.early : Caller → Option UInt64
  | .setId _ id | .setRes _ id | .setFlags _ id | .send _ id => some id
  | _ => none

theorem Caller.holds_of_early {c : Caller} {id : UInt64} (h : c.early = some id) :
    ∃ r, c.holds = some (r, id) := by
  cases c <;> cases h <;> exact ⟨_, rfl⟩

theorem CallOk.frame {s s' : State ι} {c : Caller} (h : CallOk s c)
    (hheap : ∀ r id, c.holds = some (r, id) → s'.heap r = s.heap r)
    (hunknown : ∀ id, c.early = some id → Unknown s id → Unknown s' id)
    (hposted : s.queue.posted ⊆ s'.queue.posted) : CallOk s' c := by
  cases c with
  | idle => trivial
  | setId r id => exact hunknown id rfl h
  | setRes r id | setFlags r id | send r id =>
    refine ⟨hunknown id rfl h.1, ?_⟩
    rw [hheap r id rfl]
    exact h.2
  | wait r id =>
    simp only [CallOk, hheap r id rfl]
    exact h
  | readRes r id =>
    simp only [CallOk, hheap r id rfl]
    exact hposted h
  | readFlags r id res =>
    simp only [CallOk, hheap r id rfl]
    exact hposted h
  | put r id res flags => exact hposted h

/-! ## Steps that leave the waiting calls aside -/

/-- What such a step keeps. -/
structure Aside (s s' : State ι) : Prop where
  wait : ∀ g r id, s'.callers g = .wait r id ↔ s.callers g = .wait r id
  heap : ∀ g r id, s.callers g = .wait r id → s'.heap r = s.heap r
  done : ∀ r, (s'.heap r).done = (s.heap r).done
  id : ∀ r cqe, s.run.work = .delete r cqe → (s'.heap r).id = (s.heap r).id
  completions : s'.completions = s.completions
  work : s'.run.work = s.run.work
  inflight : s'.inflight = s.inflight
  delivered : s'.delivered = s.delivered
  asked : s.asked ⊆ s'.asked
  posted : s.queue.posted ⊆ s'.queue.posted

theorem OwnInv.nobody_waits {s : State ι} (ho : OwnInv s) {g : ι} {r : Nat} {id : UInt64}
    (hheld : (s.callers g).holds = some (r, id)) (hc : s.callers g ≠ .wait r id) (g' : ι)
    (id' : UInt64) : s.callers g' ≠ .wait r id' := by
  intro hw
  obtain rfl : g' = g := ho.own (by rw [hw]; rfl) hheld
  rw [hw] at hheld hc
  cases hheld
  exact hc rfl

theorem Aside.unseen {s s' : State ι} (ha : Aside s s') {r : Nat} (h : Unseen s r) :
    Unseen s' r := by
  obtain ⟨g, id, hw, hd, hu⟩ := h
  refine ⟨g, id, (ha.wait g r id).mpr hw, (ha.done r).trans hd, ?_⟩
  rwa [Unknown, ha.inflight, ha.delivered]

/-- A call waits for the request that is given its result. -/
theorem WaitInv.given {s : State ι} (hi : WaitInv s) {r : Nat} {cqe : CompletionEntry}
    (h : s.run.work.gives = some (r, cqe)) :
    cqe.userData ∉ s.delivered ∧ (s.heap r).done = 0 ∧
      ∃ g, s.callers g = .wait r cqe.userData := by
  rcases hi.keys (hi.giving h).2 with ⟨cqe', hdel, -⟩ | hwait
  · rw [hdel] at h
    cases h
  · exact hwait

theorem WaitInv.aside {s s' : State ι} (hi : WaitInv s) (ha : Aside s s') : WaitInv s' where
  token := by
    intro r hr
    rw [ha.done] at hr ⊢
    obtain ⟨hone, g, id, hw, hright⟩ := hi.token hr
    refine ⟨hone, g, id, (ha.wait g r id).mpr hw, ?_⟩
    rw [ha.heap g r id hw]
    exact ha.posted hright
  queued := by
    rw [ha.completions]
    exact fun r hr => ha.unseen (hi.queued r hr)
  queue_nodup := ha.completions ▸ hi.queue_nodup
  inserting := by
    rw [ha.work, ha.completions]
    exact fun hr => ⟨ha.unseen (hi.inserting hr).1, (hi.inserting hr).2⟩
  keys := by
    rw [ha.inflight, ha.work, ha.delivered]
    intro id r h
    rcases hi.keys h with h | ⟨h1, h2, g, h3⟩
    · exact Or.inl h
    · exact Or.inr ⟨h1, (ha.done r).trans h2, g, (ha.wait g r id).mpr h3⟩
  giving := by
    rw [ha.work, ha.inflight]
    exact fun h => ⟨ha.posted (hi.giving h).1, (hi.giving h).2⟩
  gaveRes := by
    rw [ha.work]
    intro r cqe h
    have hgives : s.run.work.gives = some (r, cqe) := by rcases h with h | h <;> rw [h] <;> rfl
    obtain ⟨-, -, g, hw⟩ := hi.given hgives
    rw [ha.heap g r _ hw, hi.gaveRes h]
  gaveFlags := by
    rw [ha.work]
    intro r cqe h
    have hgives : s.run.work.gives = some (r, cqe) := by rw [h]; rfl
    obtain ⟨-, -, g, hw⟩ := hi.given hgives
    rw [ha.heap g r _ hw, hi.gaveFlags h]
  deleting := by
    rw [ha.work, ha.delivered]
    exact fun h => ⟨(ha.id _ _ h).trans (hi.deleting h).1, (hi.deleting h).2⟩
  asked := by
    rw [ha.delivered]
    exact fun id h => ha.asked (hi.asked id h)

/-- A step of `Ring.run` that handles no request, or of the queue. -/
theorem Aside.of_run {s s' : State ι} (hcallers : s'.callers = s.callers)
    (hheap : s'.heap = s.heap) (hcompletions : s'.completions = s.completions)
    (hwork : s'.run.work = s.run.work) (hinflight : s'.inflight = s.inflight)
    (hdelivered : s'.delivered = s.delivered) (hasked : s'.asked = s.asked)
    (hposted : s.queue.posted ⊆ s'.queue.posted) : Aside s s' where
  wait := fun _ _ _ => by rw [hcallers]
  heap := fun _ _ _ _ => by rw [hheap]
  done := fun _ => by rw [hheap]
  id := fun _ _ _ => by rw [hheap]
  completions := hcompletions
  work := hwork
  inflight := hinflight
  delivered := hdelivered
  asked := by rw [hasked]; exact List.Subset.refl _
  posted := hposted

theorem CallsInv.of_run {s s' : State ι} (hi : CallsInv s) (hown : OwnInv s')
    (hcallers : s'.callers = s.callers) (hheap : s'.heap = s.heap)
    (hcompletions : s'.completions = s.completions) (hwork : s'.run.work = s.run.work)
    (hinflight : s'.inflight = s.inflight) (hdelivered : s'.delivered = s.delivered)
    (hasked : s'.asked = s.asked) (hresults : s'.results = s.results)
    (hposted : s.queue.posted ⊆ s'.queue.posted) : CallsInv s' where
  toOwnInv := hown
  toWaitInv := hi.toWaitInv.aside
    (.of_run hcallers hheap hcompletions hwork hinflight hdelivered hasked hposted)
  calls := by
    intro g
    rw [hcallers]
    refine (hi.calls g).frame (fun _ _ _ => by rw [hheap]) (fun id _ h => ?_) hposted
    rwa [Unknown, hinflight, hdelivered]
  returned := by
    rw [hresults]
    exact fun x hx => hposted (hi.returned x hx)

/-! ## Steps of `Ring.run` on a request -/

theorem advance_work (z : Size) (k : Scan) : (Scan.advance z k).work = .none := by
  unfold Scan.advance
  dsimp only
  split_ifs <;> rfl

/-- `Ring.run` receives a request. -/
theorem WaitInv.take {s : State ι} (hi : WaitInv s) {r : Nat} {rest : List Nat}
    (hwork : s.run.work = .none) (hc : s.completions = r :: rest) :
    WaitInv { s with completions := rest, run := .insert r } := by
  have hnodup := hi.queue_nodup
  have hqueued := hi.queued
  rw [hc] at hnodup hqueued
  refine { hi with queued := ?_, queue_nodup := hnodup.of_cons, inserting := ?_, keys := ?_,
                   giving := nofun, gaveRes := nofun, gaveFlags := nofun, deleting := nofun }
  · exact fun r' hr' => hqueued r' (List.mem_cons_of_mem _ hr')
  · rintro r' hr'
    cases hr'
    exact ⟨hqueued r List.mem_cons_self, (List.nodup_cons.mp hnodup).1⟩
  · intro id r' h
    rcases hi.keys h with ⟨cqe, hdel, -⟩ | h
    · rw [hwork] at hdel
      cases hdel
    · exact Or.inr h

/-- `inflight[cr.id] = cr`. -/
theorem WaitInv.insert {s : State ι} (ho : OwnInv s) (hi : WaitInv s) {r : Nat}
    (hcalls : ∀ g, CallOk s (s.callers g)) (hwork : s.run.work = .insert r) :
    WaitInv { s with inflight := s.inflight.insert (s.heap r).id r, run := .enter } := by
  obtain ⟨⟨g, id, hw, hdone, hunknown⟩, hout⟩ := hi.inserting hwork
  have hid : (s.heap r).id = id := by
    have := hcalls g
    rwa [hw] at this
  rw [hid]
  refine { hi with queued := ?_, inserting := nofun, keys := ?_, giving := nofun, gaveRes := nofun,
                   gaveFlags := nofun, deleting := nofun }
  · intro r' hr'
    obtain ⟨g', id', hw', hdone', hunknown'⟩ := hi.queued r' hr'
    have hne : id' ≠ id := by
      rintro rfl
      obtain rfl : g' = g := ho.ids (by rw [hw']; rfl) (by rw [hw]; rfl)
      rw [hw] at hw'
      cases hw'
      exact hout hr'
    refine ⟨g', id', hw', hdone', ?_, hunknown'.2⟩
    simp only [AList.lookup_insert_ne hne]
    exact hunknown'.1
  · intro id' r' h
    by_cases hne : id' = id
    · subst hne
      rw [AList.lookup_insert] at h
      cases h
      exact Or.inr ⟨hunknown.2, hdone, g, hw⟩
    · rw [AList.lookup_insert_ne hne] at h
      rcases hi.keys h with ⟨cqe, hdel, -⟩ | h
      · rw [hwork] at hdel
        cases hdel
      · exact Or.inr h

/-- A slot matches a key. -/
theorem WaitInv.slotHit {s : State ι} (hi : WaitInv s) {k : Scan} {r : Nat}
    {cqe : CompletionEntry} (hwork : s.run.work = .none)
    (hhit : s.inflight.lookup cqe.userData = some r) (hposted : cqe ∈ s.queue.posted) :
    WaitInv { s with run := .setRes k r cqe } := by
  refine { hi with inserting := nofun, keys := ?_, giving := ?_, gaveRes := ?_,
                   gaveFlags := nofun, deleting := nofun }
  · intro id r' h
    rcases hi.keys h with ⟨cqe, hdel, -⟩ | h
    · rw [hwork] at hdel
      cases hdel
    · exact Or.inr h
  · rintro r' cqe' h
    cases h
    exact ⟨hposted, hhit⟩
  · rintro r' cqe' (h | h) <;> cases h

/-- A write to the result of the request that is being given. -/
theorem WaitInv.give {s : State ι} (hi : WaitInv s) {r : Nat} {cqe : CompletionEntry}
    {q : CompletionRequest} {p : RunPc} (hgives : s.run.work.gives = some (r, cqe))
    (hq : q.done = (s.heap r).done) (hp : p.work.gives = some (r, cqe))
    (hres : ∀ {r' cqe'}, p.work = .flags r' cqe' ∨ p.work = .done r' cqe' → q.res = cqe.res)
    (hflags : ∀ {r' cqe'}, p.work = .done r' cqe' → q.flags = cqe.flags) :
    WaitInv { s with heap := Function.update s.heap r q, run := p } := by
  obtain ⟨hnew, hdone, g, hw⟩ := hi.given hgives
  have hdones : ∀ r', (Function.update s.heap r q r').done = (s.heap r').done :=
    update_same (f := CompletionRequest.done) hq
  have hsame : ∀ {r' cqe'}, p.work.gives = some (r', cqe') → r' = r ∧ cqe' = cqe := by
    intro r' cqe' h
    rw [hp] at h
    cases h
    exact ⟨rfl, rfl⟩
  refine { hi with token := ?_, queued := ?_, inserting := ?_, keys := ?_, giving := ?_,
                   gaveRes := ?_, gaveFlags := ?_, deleting := ?_ }
  · intro r' hr'
    rw [hdones] at hr' ⊢
    have hne : r' ≠ r := by
      rintro rfl
      exact hr' hdone
    simp only [Function.update_of_ne hne]
    exact hi.token hr'
  · intro r' hr'
    obtain ⟨g', id', hw', hdone', hunknown'⟩ := hi.queued r' hr'
    exact ⟨g', id', hw', (hdones r').trans hdone', hunknown'⟩
  · intro r' h
    rw [h] at hp
    cases hp
  · intro id r' h
    rcases hi.keys h with ⟨cqe', hdel, -⟩ | ⟨h1, h2, h3⟩
    · rw [hdel] at hgives
      cases hgives
    · exact Or.inr ⟨h1, (hdones r').trans h2, h3⟩
  · intro r' cqe' h
    obtain ⟨rfl, rfl⟩ := hsame h
    exact hi.giving hgives
  · intro r' cqe' h
    have hgives' : p.work.gives = some (r', cqe') := by rcases h with h | h <;> rw [h] <;> rfl
    obtain ⟨rfl, rfl⟩ := hsame hgives'
    simp only [Function.update_self]
    exact hres h
  · intro r' cqe' h
    have hgives' : p.work.gives = some (r', cqe') := by rw [h]; rfl
    obtain ⟨rfl, rfl⟩ := hsame hgives'
    simp only [Function.update_self]
    exact hflags h
  · intro r' cqe' h
    rw [h] at hp
    cases hp

/-- `cr.done <- struct{}{}`. -/
theorem WaitInv.signal {s : State ι} (ho : OwnInv s) (hi : WaitInv s)
    (hcalls : ∀ g, CallOk s (s.callers g)) {k : Scan} {r : Nat} {cqe : CompletionEntry}
    (hwork : s.run.work = .done r cqe) :
    WaitInv { s with
      heap := Function.update s.heap r { s.heap r with done := (s.heap r).done + 1 }
      run := .delete k r cqe
      delivered := s.delivered ++ [cqe.userData] } := by
  have hgives : s.run.work.gives = some (r, cqe) := by rw [hwork]; rfl
  obtain ⟨hposted, hlookup⟩ := hi.giving hgives
  obtain ⟨hnew, hdone, g, hw⟩ := hi.given hgives
  -- another waiting call has another request and another id
  have hother : ∀ {g' r' id'}, s.callers g' = .wait r' id' → id' ≠ cqe.userData → r' ≠ r := by
    rintro g' r' id' hw' hid rfl
    obtain rfl : g' = g := ho.own (by rw [hw']; rfl) (by rw [hw]; rfl)
    rw [hw] at hw'
    cases hw'
    exact hid rfl
  refine { hi with token := ?_, queued := ?_, inserting := nofun, keys := ?_, giving := nofun,
                   gaveRes := nofun, gaveFlags := nofun, deleting := ?_, asked := ?_ }
  · intro r' hr'
    by_cases hr : r' = r
    · subst hr
      simp only [Function.update_self, hdone]
      refine ⟨trivial, g, cqe.userData, hw, ?_⟩
      rw [hi.gaveRes (Or.inr hwork), hi.gaveFlags hwork]
      exact hposted
    · simp only [Function.update_of_ne hr] at hr' ⊢
      exact hi.token hr'
  · intro r' hr'
    obtain ⟨g', id', hw', hdone', hlookup', hnew'⟩ := hi.queued r' hr'
    have hid : id' ≠ cqe.userData := by
      rintro rfl
      rw [hlookup] at hlookup'
      cases hlookup'
    refine ⟨g', id', hw', ?_, hlookup', ?_⟩
    · simp only [Function.update_of_ne (hother hw' hid)]
      exact hdone'
    · simpa using ⟨hnew', hid⟩
  · intro id' r' h
    by_cases hid : id' = cqe.userData
    · subst hid
      rw [hlookup] at h
      cases h
      exact Or.inl ⟨cqe, rfl, rfl⟩
    · rcases hi.keys h with ⟨cqe', hdel, -⟩ | ⟨h1, h2, g', h3⟩
      · rw [hwork] at hdel
        cases hdel
      · refine Or.inr ⟨by simpa using ⟨h1, hid⟩, ?_, g', h3⟩
        simp only [Function.update_of_ne (hother h3 hid)]
        exact h2
  · rintro r' cqe' h
    cases h
    have hname := hcalls g
    rw [hw] at hname
    simp only [Function.update_self]
    exact ⟨hname, by simp⟩
  · intro id hid
    rcases List.mem_append.mp hid with hid | hid
    · exact hi.asked id hid
    · rw [List.mem_singleton.mp hid]
      exact (ho.used (g := g) (by rw [hw]; rfl)).2.2

/-- `delete(inflight, cr.id)`. -/
theorem WaitInv.delete {s : State ι} (hi : WaitInv s) {p : RunPc} {r : Nat}
    {cqe : CompletionEntry} (hwork : s.run.work = .delete r cqe) (hp : p.work = .none) :
    WaitInv { s with inflight := s.inflight.erase (s.heap r).id, run := p } := by
  rw [(hi.deleting hwork).1]
  refine { hi with queued := ?_, inserting := ?_, keys := ?_, giving := ?_, gaveRes := ?_,
                   gaveFlags := ?_, deleting := ?_ }
  · intro r' hr'
    obtain ⟨g', id', hw', hdone', hlookup', hnew'⟩ := hi.queued r' hr'
    refine ⟨g', id', hw', hdone', ?_, hnew'⟩
    by_cases hid : id' = cqe.userData
    · rw [hid]
      exact AList.lookup_erase _ _
    · exact (AList.lookup_erase_ne hid).trans hlookup'
  · intro r' h
    rw [hp] at h
    cases h
  · intro id' r' h
    have hid : id' ≠ cqe.userData := by
      rintro rfl
      rw [AList.lookup_erase] at h
      cases h
    rw [AList.lookup_erase_ne hid] at h
    rcases hi.keys h with ⟨cqe', hdel, hid'⟩ | h
    · rw [hwork] at hdel
      cases hdel
      exact absurd hid'.symm hid
    · exact Or.inr h
  · intro r' cqe' h
    rw [hp] at h
    cases h
  · rintro r' cqe' (h | h) <;>
    · rw [hp] at h
      cases h
  · intro r' cqe' h
    rw [hp] at h
    cases h
  · intro r' cqe' h
    rw [hp] at h
    cases h

/-- What the calls rely on after a step of `Ring.run` on a request. -/
theorem CallsInv.calls_run {s s' : State ι} (hi : CallsInv s) (hcallers : s'.callers = s.callers)
    (hheap : ∀ g r id, (s.callers g).holds = some (r, id) → s'.heap r = s.heap r ∨
      s.callers g = .wait r id ∧ (s'.heap r).id = (s.heap r).id)
    (hunknown : ∀ g id, (s.callers g).early = some id → Unknown s id → Unknown s' id)
    (hqueue : s'.queue = s.queue) (g : ι) : CallOk s' (s'.callers g) := by
  have hcall := hi.calls g
  rw [hcallers]
  by_cases hw : ∃ r id, s.callers g = .wait r id
  · obtain ⟨r, id, hw⟩ := hw
    rw [hw] at hcall ⊢
    simp only [CallOk] at hcall ⊢
    rcases hheap g r id (by rw [hw]; rfl) with h | ⟨-, h⟩
    · rwa [h]
    · rwa [h]
  · refine hcall.frame (fun r id h => ?_) (hunknown g) (by rw [hqueue]; exact List.Subset.refl _)
    rcases hheap g r id h with h' | ⟨h', -⟩
    · exact h'
    · exact absurd ⟨r, id, h'⟩ hw

/-- A key has been asked for. -/
theorem CallsInv.key_asked {s : State ι} (hi : CallsInv s) {id : UInt64} {r : Nat}
    (h : s.inflight.lookup id = some r) : id ∈ s.asked := by
  rcases hi.keys h with ⟨cqe, hdel, rfl⟩ | ⟨-, -, g, hw⟩
  · exact hi.asked _ (hi.deleting hdel).2
  · exact (hi.used (g := g) (by rw [hw]; rfl)).2.2

/-- A write to the request of a waiting call. -/
theorem OwnInv.heap_given {s : State ι} (ho : OwnInv s) {g : ι} {r : Nat} {id : UInt64}
    {q : CompletionRequest} (hw : s.callers g = .wait r id) (hq : q.id = (s.heap r).id) (g' : ι)
    (r' : Nat) (id' : UInt64) (h : (s.callers g').holds = some (r', id')) :
    Function.update s.heap r q r' = s.heap r' ∨
      s.callers g' = .wait r' id' ∧ (Function.update s.heap r q r').id = (s.heap r').id := by
  by_cases hr : r' = r
  · subst hr
    obtain rfl : g' = g := ho.own h (by rw [hw]; rfl)
    rw [hw] at h ⊢
    cases h
    rw [Function.update_self]
    exact Or.inr ⟨rfl, hq⟩
  · exact Or.inl (Function.update_of_ne hr ..)

/-- A waiting call has an id that no call before its send has. -/
theorem OwnInv.early_ne {s : State ι} (ho : OwnInv s) {g g' : ι} {r : Nat} {id id' : UInt64}
    (hw : s.callers g = .wait r id) (h : (s.callers g').early = some id') : id' ≠ id := by
  rintro rfl
  obtain ⟨r', hr'⟩ := Caller.holds_of_early h
  obtain rfl : g' = g := ho.ids hr' (by rw [hw]; rfl)
  rw [hw] at h
  cases h

end iouring.ring
