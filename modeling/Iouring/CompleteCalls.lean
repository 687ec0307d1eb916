-- Every `Ring.complete(id)` gets the result of its own entry, in every run
-- in which no request is renamed under the hands of `onEntry`.
import Iouring.Requests

open counter machine
open iouring.completion_queue (CompletionEntry Posted)

namespace iouring.ring

variable {ι : Type}

/-! ## Which steps go wrong -/

/-- A call sets the id of a request that `onEntry` has signalled and is about
to use for its delete. -/
def renamesEarly (s : State ι) : Act ι → Bool
  | .caller g =>
    match s.callers g, s.run with
    | .setId r _, .delete _ r' _ => decide (r = r')
    | _, _ => false
  | _ => false

/-- `onEntry` takes a slot that the kernel never wrote to for the entry of id 0. -/
def matchesBlank (s : State ι) : Act ι → Bool
  | .run =>
    match s.run with
    | .slot k => decide (s.queue.posted.length ≤ k.i) && (s.inflight.lookup 0).isSome
    | _ => false
  | _ => false

def CleanStep (s : State ι) (a : Act ι) : Prop :=
  renamesEarly s a = false ∧ matchesBlank s a = false

instance (s : State ι) (a : Act ι) : Decidable (CleanStep s a) :=
  inferInstanceAs (Decidable (_ ∧ _))

/-- The index of a scan is an index of `Entries`. -/
def InRange (z : Size) (s : State ι) : Prop := ∀ k, s.run = .slot k → k.i < z.slots

theorem advance_inRange {z : Size} {k k' : Scan} (h : Scan.advance z k = .slot k') :
    k'.i < z.slots := by
  have hlast := z.and_mask_lt k.tail
  unfold Scan.advance at h
  dsimp only at h
  split_ifs at h <;> cases h
  · simp only
    omega
  · simp only
    omega
  · exact z.slots_pos

/-- An entry that matches a key in a clean step is one that the kernel posted
to that slot. -/
theorem hit_posted {z : Size} {s : State ι} {k : Scan} {r : Nat} (hp : Posted z s.queue)
    (hrange : InRange z s) (hrun : s.run = .slot k) (hok : matchesBlank s (.run : Act ι) = false)
    (hhit : s.inflight.lookup (s.queue.cq.entries k.i).userData = some r) :
    ∃ p, s.queue.posted[p]? = some (s.queue.cq.entries k.i) ∧ p % z.slots = k.i := by
  rcases hp.entries_cases (hrange k hrun) with ⟨hlen, hzero⟩ | ⟨p, cqe, hcqe, hslot, he⟩
  · rw [hzero] at hhit
    simp only [CompletionEntry.zero] at hhit
    simp [matchesBlank, hrun, hlen, hhit] at hok
  · rw [he]
    exact ⟨p, hcqe, hslot⟩

/-! ## The invariant over a run -/

structure SafeInv (z : Size) (s : State ι) : Prop extends CallsInv s where
  posted : Posted z s.queue
  range : InRange z s

theorem safeInv_init (z : Size) : SafeInv z (init ι) :=
  ⟨callsInv_init, completion_queue.posted_init z, nofun⟩

/-- Every call that has returned has the result and the flags of the one entry
that was posted for its id. -/
def OwnResults (s : State ι) : Prop :=
  (s.queue.posted.map (·.userData)).Nodup ∧
  ∀ x ∈ s.results, ∃ cqe ∈ s.queue.posted,
    cqe.userData = x.1 ∧ cqe.res = x.2.1 ∧ cqe.flags = x.2.2

/-- An id that has been delivered is a key only until the delete that follows. -/
def DeliveredAreDeleted (s : State ι) : Prop :=
  ∀ id ∈ s.delivered, id ∈ s.inflight →
    ∃ k r cqe, s.run = .delete k r cqe ∧ cqe.userData = id

theorem safeInv_law {z : Size} {s : State ι} (hi : SafeInv z s) :
    OwnResults s ∧ DeliveredAreDeleted s := by
  refine ⟨⟨hi.posted.ids, fun x hx => ⟨_, hi.returned x hx, rfl, rfl, rfl⟩⟩, fun id hid hkey => ?_⟩
  obtain ⟨r, hr⟩ := Option.isSome_iff_exists.mp (AList.lookup_isSome.mpr hkey)
  rcases hi.keys hr with ⟨cqe, hwork, hcqe⟩ | ⟨hnew, -⟩
  · cases hrun : s.run <;> rw [hrun] at hwork <;> cases hwork
    exact ⟨_, r, cqe, rfl, hcqe⟩
  · exact absurd hid hnew

variable [DecidableEq ι]

/-! ## Steps of the calls -/

/-- A call starts with a request that nobody holds. -/
theorem OwnInv.start {s : State ι} (hi : OwnInv s) {g : ι} {r : Nat} {id : UInt64}
    {pool : List Nat} {fresh : Nat} (hid : id ∉ s.asked)
    (hr : ∀ g id, (s.callers g).holds ≠ some (r, id)) (hpool : ∀ r' ∈ pool, r' ∈ s.completionPool)
    (hout : r ∉ pool) (hfresh : s.fresh ≤ fresh) (hlt : r < fresh) (hnodup : pool.Nodup) :
    OwnInv { s with
      completionPool := pool
      fresh := fresh
      asked := s.asked ++ [id]
      callers := Function.update s.callers g (.setId r id) } := by
  have hasked : ∀ {g r}, (s.callers g).holds ≠ some (r, id) := fun h => hid (hi.used h).2.2
  have hcases : ∀ {g' r' id'},
      (Function.update s.callers g (.setId r id) g').holds = some (r', id') →
      (g' = g ∧ r' = r ∧ id' = id) ∨ (g' ≠ g ∧ (s.callers g').holds = some (r', id')) := by
    intro g' r' id' h
    rcases update_cases h with ⟨hg, h⟩ | h
    · cases h
      exact Or.inl ⟨hg, rfl, rfl⟩
    · exact Or.inr h
  refine ⟨fun h1 h2 => ?_, fun h1 h2 => ?_, fun h => ?_, fun r' h => ?_, hnodup⟩
  · rcases hcases h1 with ⟨e1, rfl, -⟩ | ⟨-, h1'⟩
    · rcases hcases h2 with ⟨e2, -, -⟩ | ⟨-, h2'⟩
      · exact e1.trans e2.symm
      · exact absurd h2' (hr _ _)
    · rcases hcases h2 with ⟨-, rfl, -⟩ | ⟨-, h2'⟩
      · exact absurd h1' (hr _ _)
      · exact hi.own h1' h2'
  · rcases hcases h1 with ⟨e1, -, rfl⟩ | ⟨-, h1'⟩
    · rcases hcases h2 with ⟨e2, -, -⟩ | ⟨-, h2'⟩
      · exact e1.trans e2.symm
      · exact absurd h2' hasked
    · rcases hcases h2 with ⟨-, -, rfl⟩ | ⟨-, h2'⟩
      · exact absurd h1' hasked
      · exact hi.ids h1' h2'
  · rcases hcases h with ⟨rfl, rfl, rfl⟩ | ⟨-, h⟩
    · exact ⟨hlt, hout, by simp⟩
    · obtain ⟨h1, h2, h3⟩ := hi.used h
      exact ⟨Nat.lt_of_lt_of_le h1 hfresh, fun hp => h2 (hpool _ hp), List.mem_append_left _ h3⟩
  · exact Nat.lt_of_lt_of_le (hi.pool_lt r' (hpool r' h)) hfresh

/-- `completionPool.Put`, at the end of a call. -/
theorem OwnInv.put {s s' : State ι} (hi : OwnInv s) {g : ι} {r : Nat} {id : UInt64}
    (hheld : (s.callers g).holds = some (r, id))
    (hcallers : s'.callers = Function.update s.callers g .idle)
    (hpool : s'.completionPool = s.completionPool ++ [r]) (hfresh : s'.fresh = s.fresh)
    (hasked : s'.asked = s.asked) : OwnInv s' := by
  have hother : ∀ {g' x}, (s'.callers g').holds = some x →
      g' ≠ g ∧ (s.callers g').holds = some x := by
    intro g' x hx
    rw [hcallers] at hx
    rcases update_cases hx with ⟨-, h⟩ | h
    · cases h
    · exact h
  obtain ⟨hlt, hout, -⟩ := hi.used hheld
  refine ⟨fun h1 h2 => hi.own (hother h1).2 (hother h2).2,
    fun h1 h2 => hi.ids (hother h1).2 (hother h2).2, fun h' => ?_, ?_, ?_⟩
  · obtain ⟨hg, h'⟩ := hother h'
    obtain ⟨h1, h2, h3⟩ := hi.used h'
    rw [hpool, hfresh, hasked]
    refine ⟨h1, fun hp => ?_, h3⟩
    rcases List.mem_append.mp hp with hp | hp
    · exact h2 hp
    · rw [List.mem_singleton.mp hp] at h'
      exact hg (hi.own h' hheld)
  · rw [hpool, hfresh]
    exact List.forall_mem_append.mpr ⟨hi.pool_lt, List.forall_mem_singleton.mpr hlt⟩
  · rw [hpool]
    refine List.nodup_append.mpr ⟨hi.pool_nodup, List.nodup_singleton _, ?_⟩
    rintro a ha b hb rfl
    rw [List.mem_singleton.mp hb] at ha
    exact hout ha

theorem ownInv_move {z : Size} {s s' : State ι} {a : Act ι} (hi : OwnInv s)
    (hm : Move z s a s') : OwnInv s' := by
  cases hm with
  | @getPooled g id r h hid hack hr =>
    have hfree : ∀ g id, (s.callers g).holds ≠ some (r, id) := fun g id h => (hi.used h).2.1 hr
    have hgone : r ∉ s.completionPool.erase r :=
      fun h => absurd rfl (hi.pool_nodup.mem_erase_iff.mp h).1
    exact hi.start hid hfree (fun _ => List.mem_of_mem_erase) hgone (Nat.le_refl _)
      (hi.pool_lt r hr) (hi.pool_nodup.erase r)
  | @getFresh g id h hid hack =>
    have hfree : ∀ g id, (s.callers g).holds ≠ some (s.fresh, id) :=
      fun g id h => absurd (hi.used h).1 (Nat.lt_irrefl _)
    have hgone : s.fresh ∉ s.completionPool :=
      fun h => absurd (hi.pool_lt _ h) (Nat.lt_irrefl _)
    exact hi.start hid hfree (fun _ h => h) hgone (Nat.le_succ _) (Nat.lt_succ_self _)
      hi.pool_nodup
  | put h => exact hi.put (by rw [h]; rfl) rfl rfl rfl rfl
  | setId h | setRes h | setFlags h | send h hroom | wake h hdone | readRes h | readFlags h =>
    exact hi.frame (update_same (by rw [h]; rfl)) rfl rfl rfl
  | _ => exact hi.frame (fun _ => rfl) rfl rfl rfl

/-- What the calls rely on after a step of one of them, on a request that no
other call holds. -/
theorem CallsInv.calls_caller {s s' : State ι} (hi : CallsInv s) {g : ι} {r : Nat} {c' : Caller}
    {q : CompletionRequest} (halone : ∀ g' id', (s.callers g').holds = some (r, id') → g' = g)
    (hcallers : s'.callers = Function.update s.callers g c')
    (hheap : s'.heap = Function.update s.heap r q) (hinflight : s'.inflight = s.inflight)
    (hdelivered : s'.delivered = s.delivered) (hqueue : s'.queue = s.queue) (hcall : CallOk s' c')
    (g' : ι) : CallOk s' (s'.callers g') := by
  rw [hcallers]
  by_cases hg : g' = g
  · rwa [hg, Function.update_self]
  · rw [Function.update_of_ne hg]
    refine (hi.calls g').frame (fun r' id' h => ?_) (fun id' _ h => ?_)
      (by rw [hqueue]; exact List.Subset.refl _)
    · have hr : r' ≠ r := by
        rintro rfl
        exact hg (halone g' id' h)
      rw [hheap, Function.update_of_ne hr]
    · rwa [Unknown, hinflight, hdelivered]

/-- A step of a call before or after it waits, on a request that no other call holds. -/
theorem CallsInv.of_caller {s s' : State ι} (hi : CallsInv s) (hown : OwnInv s') {g : ι} {r : Nat}
    {c' : Caller} {q : CompletionRequest}
    (halone : ∀ g' id', (s.callers g').holds = some (r, id') → g' = g)
    (hc : ∀ r id, s.callers g ≠ .wait r id) (hc' : ∀ r id, c' ≠ .wait r id)
    (hcallers : s'.callers = Function.update s.callers g c')
    (hheap : s'.heap = Function.update s.heap r q) (hdone : q.done = (s.heap r).done)
    (hid : ∀ cqe, s.run.work = .delete r cqe → q.id = (s.heap r).id)
    (hcompletions : s'.completions = s.completions) (hrun : s'.run = s.run)
    (hinflight : s'.inflight = s.inflight) (hdelivered : s'.delivered = s.delivered)
    (hasked : s.asked ⊆ s'.asked) (hqueue : s'.queue = s.queue) (hcall : CallOk s' c')
    (hreturned : ∀ x ∈ s'.results, Right s' x.1 x.2.1 x.2.2) : CallsInv s' := by
  have hwaits : ∀ {g' r' id'}, s.callers g' = .wait r' id' → r' ≠ r := by
    rintro g' r' id' hw rfl
    obtain rfl : g' = g := halone g' id' (by rw [hw]; rfl)
    exact hc r' id' hw
  have haside : Aside s s' := by
    refine ⟨?_, ?_, ?_, ?_, hcompletions, by rw [hrun], hinflight, hdelivered, hasked,
      by rw [hqueue]; exact List.Subset.refl _⟩
    · intro g' r' id'
      rw [hcallers]
      by_cases hg : g' = g
      · rw [hg, Function.update_self]
        exact ⟨fun h => absurd h (hc' r' id'), fun h => absurd h (hc r' id')⟩
      · rw [Function.update_of_ne hg]
    · intro g' r' id' hw
      rw [hheap, Function.update_of_ne (hwaits hw)]
    · rw [hheap]
      exact update_same (f := CompletionRequest.done) hdone
    · intro r' cqe hwork
      rw [hheap]
      by_cases hr : r' = r
      · subst hr
        rw [Function.update_self, hid cqe hwork]
      · rw [Function.update_of_ne hr]
  exact ⟨hown, hi.toWaitInv.aside haside,
    hi.calls_caller halone hcallers hheap hinflight hdelivered hqueue hcall, hreturned⟩

/-- `r.completions <- req`. -/
theorem WaitInv.send {s : State ι} (ho : OwnInv s) (hi : WaitInv s)
    (hcalls : ∀ g, CallOk s (s.callers g)) {g : ι} {r : Nat} {id : UInt64}
    (h : s.callers g = .send r id) :
    WaitInv { s with
      completions := s.completions ++ [r]
      callers := Function.update s.callers g (.wait r id) } := by
  have hheld : (s.callers g).holds = some (r, id) := by rw [h]; rfl
  have hnobody := ho.nobody_waits hheld (by rw [h]; nofun)
  have hwait : ∀ {g' r' id'}, s.callers g' = .wait r' id' →
      Function.update s.callers g (.wait r id) g' = .wait r' id' := by
    intro g' r' id' hw
    have hg : g' ≠ g := by
      rintro rfl
      rw [h] at hw
      cases hw
    rwa [Function.update_of_ne hg]
  have hunseen : ∀ {r'}, Unseen s r' → Unseen { s with
      completions := s.completions ++ [r]
      callers := Function.update s.callers g (.wait r id) } r' := by
    rintro r' ⟨g', id', hw, hrest⟩
    exact ⟨g', id', hwait hw, hrest⟩
  have hout : ∀ {r'}, Unseen s r' → r' ≠ r := by
    rintro r' ⟨g', id', hw, -⟩ rfl
    exact hnobody g' id' hw
  refine { hi with token := ?_, queued := ?_, queue_nodup := ?_, inserting := ?_, keys := ?_ }
  · intro r' hr'
    obtain ⟨hone, g', id', hw, hright⟩ := hi.token hr'
    exact ⟨hone, g', id', hwait hw, hright⟩
  · intro r' hr'
    rcases List.mem_append.mp hr' with hr' | hr'
    · exact hunseen (hi.queued r' hr')
    · rw [List.mem_singleton.mp hr']
      have hunknown := hcalls g
      rw [h] at hunknown
      refine ⟨g, id, Function.update_self .., ?_, hunknown.1⟩
      by_contra hdone
      obtain ⟨-, g', id', hw, -⟩ := hi.token hdone
      exact hnobody g' id' hw
  · refine List.nodup_append.mpr ⟨hi.queue_nodup, List.nodup_singleton _, ?_⟩
    intro a ha b hb
    rw [List.mem_singleton.mp hb]
    exact hout (hi.queued a ha)
  · intro r' hr'
    obtain ⟨h1, h2⟩ := hi.inserting hr'
    refine ⟨hunseen h1, ?_⟩
    simpa using ⟨h2, hout h1⟩
  · intro id' r' hl
    rcases hi.keys hl with hdel | ⟨h1, h2, g', h3⟩
    · exact Or.inl hdel
    · exact Or.inr ⟨h1, h2, g', hwait h3⟩

/-- `<-req.done`. -/
theorem WaitInv.wake {s : State ι} (hi : WaitInv s) {g : ι} {r : Nat} {id : UInt64}
    (h : s.callers g = .wait r id) (hdone : 0 < (s.heap r).done) :
    WaitInv { s with
      heap := Function.update s.heap r { s.heap r with done := (s.heap r).done - 1 }
      callers := Function.update s.callers g (.readRes r id) } := by
  obtain ⟨hone, -⟩ := hi.token (Nat.pos_iff_ne_zero.mp hdone)
  have hwait : ∀ {g' r' id'}, r' ≠ r → s.callers g' = .wait r' id' →
      Function.update s.callers g (.readRes r id) g' = .wait r' id' := by
    intro g' r' id' hr hw
    have hg : g' ≠ g := by
      rintro rfl
      rw [h] at hw
      cases hw
      exact hr rfl
    rwa [Function.update_of_ne hg]
  have hquiet : ∀ {r'}, (s.heap r').done = 0 → r' ≠ r := by
    rintro r' h0 rfl
    omega
  have hunseen : ∀ {r'}, Unseen s r' → Unseen { s with
      heap := Function.update s.heap r { s.heap r with done := (s.heap r).done - 1 }
      callers := Function.update s.callers g (.readRes r id) } r' := by
    rintro r' ⟨g', id', hw, h0, hrest⟩
    refine ⟨g', id', hwait (hquiet h0) hw, ?_, hrest⟩
    simp only [Function.update_of_ne (hquiet h0)]
    exact h0
  refine { hi with token := ?_, queued := ?_, inserting := ?_, keys := ?_, gaveRes := ?_,
                   gaveFlags := ?_, deleting := ?_ }
  · intro r' hr'
    have hr : r' ≠ r := by
      rintro rfl
      simp only [Function.update_self, hone] at hr'
      exact hr' rfl
    simp only [Function.update_of_ne hr] at hr' ⊢
    obtain ⟨h1, g', id', hw, hright⟩ := hi.token hr'
    exact ⟨h1, g', id', hwait hr hw, hright⟩
  · exact fun r' hr' => hunseen (hi.queued r' hr')
  · exact fun hr' => ⟨hunseen (hi.inserting hr').1, (hi.inserting hr').2⟩
  · intro id' r' hl
    rcases hi.keys hl with hdel | ⟨h1, h2, g', h3⟩
    · exact Or.inl hdel
    · refine Or.inr ⟨h1, ?_, g', hwait (hquiet h2) h3⟩
      simp only [Function.update_of_ne (hquiet h2)]
      exact h2
  · exact fun hw => (update_same (f := CompletionRequest.res) (by rfl) _).trans (hi.gaveRes hw)
  · exact fun hw => (update_same (f := CompletionRequest.flags) (by rfl) _).trans (hi.gaveFlags hw)
  · exact fun hw => ⟨(update_same (f := CompletionRequest.id) (by rfl) _).trans (hi.deleting hw).1,
      (hi.deleting hw).2⟩

/-- A step of the calls. -/
theorem callsInv_caller {z : Size} {s s' : State ι} {g : ι} (hi : CallsInv s)
    (hok : renamesEarly s (.caller g) = false) (hm : Move z s (.caller g) s') : CallsInv s' := by
  have hown := ownInv_move hi.toOwnInv hm
  have hcall := hi.calls g
  cases hm with
  | @setId g r id h =>
    rw [h] at hcall
    have hrename : ∀ cqe, s.run.work = .delete r cqe → id = (s.heap r).id := by
      intro cqe hwork
      cases hrun : s.run <;> rw [hrun] at hwork <;> cases hwork
      simp [renamesEarly, h, hrun] at hok
    refine hi.of_caller hown (fun _ _ h' => hi.own h' (by rw [h]; rfl)) (by simp [h]) (by simp) rfl
      rfl rfl hrename rfl rfl rfl rfl (List.Subset.refl _) rfl ⟨hcall, ?_⟩ hi.returned
    simp only [Function.update_self]
  | setRes h | setFlags h =>
    rw [h] at hcall
    refine hi.of_caller hown (fun _ _ h' => hi.own h' (by rw [h]; rfl)) (by simp [h]) (by simp) rfl
      rfl rfl (fun _ _ => rfl) rfl rfl rfl rfl (List.Subset.refl _) rfl ⟨hcall.1, ?_⟩ hi.returned
    simp only [Function.update_self]
    exact hcall.2
  | @send g r id h hroom =>
    rw [h] at hcall
    exact ⟨hown, WaitInv.send hi.toOwnInv hi.toWaitInv hi.calls h,
      hi.calls_caller (fun _ _ h' => hi.own h' (by rw [h]; rfl)) rfl
        (Function.update_eq_self r s.heap).symm rfl rfl rfl hcall.2, hi.returned⟩
  | @wake g r id h hdone =>
    obtain ⟨-, g', id', hw, hright⟩ := hi.token (Nat.pos_iff_ne_zero.mp hdone)
    obtain rfl : g' = g := hi.own (by rw [hw]; rfl) (by rw [h]; rfl)
    obtain rfl : id' = id := by
      rw [h] at hw
      cases hw
      rfl
    refine ⟨hown, hi.toWaitInv.wake h hdone, hi.calls_caller
      (fun _ _ h' => hi.own h' (by rw [h]; rfl)) rfl rfl rfl rfl rfl ?_, hi.returned⟩
    simp only [CallOk, Function.update_self]
    exact hright
  | @readRes g r id h =>
    rw [h] at hcall
    exact hi.of_caller hown (fun _ _ h' => hi.own h' (by rw [h]; rfl)) (by simp [h]) (by simp) rfl
      (Function.update_eq_self r s.heap).symm rfl (fun _ _ => rfl) rfl rfl rfl rfl
      (List.Subset.refl _) rfl hcall hi.returned
  | @readFlags g r id res h =>
    rw [h] at hcall
    exact hi.of_caller hown (fun _ _ h' => hi.own h' (by rw [h]; rfl)) (by simp [h]) (by simp) rfl
      (Function.update_eq_self r s.heap).symm rfl (fun _ _ => rfl) rfl rfl rfl rfl
      (List.Subset.refl _) rfl hcall hi.returned
  | @put g r id res flags h =>
    rw [h] at hcall
    refine hi.of_caller hown (fun _ _ h' => hi.own h' (by rw [h]; rfl)) (by simp [h]) (by simp) rfl
      (Function.update_eq_self r s.heap).symm rfl (fun _ _ => rfl) rfl rfl rfl rfl
      (List.Subset.refl _) rfl trivial ?_
    exact List.forall_mem_append.mpr ⟨hi.returned, List.forall_mem_singleton.mpr hcall⟩

/-- A new call. -/
theorem CallsInv.start {s s' : State ι} (hi : CallsInv s) (hown : OwnInv s') {g : ι} {r : Nat}
    {id : UInt64} (h : s.callers g = .idle) (hid : id ∉ s.asked)
    (hfree : ∀ g id, (s.callers g).holds ≠ some (r, id))
    (hcallers : s'.callers = Function.update s.callers g (.setId r id))
    (hheap : s'.heap = s.heap) (hcompletions : s'.completions = s.completions)
    (hrun : s'.run = s.run) (hinflight : s'.inflight = s.inflight)
    (hdelivered : s'.delivered = s.delivered) (hasked : s'.asked = s.asked ++ [id])
    (hqueue : s'.queue = s.queue) (hresults : s'.results = s.results) : CallsInv s' := by
  refine hi.of_caller hown (fun g' id' h' => absurd h' (hfree g' id')) (by simp [h]) (by simp)
    hcallers (by rw [hheap, Function.update_eq_self]) rfl (fun _ _ => rfl) hcompletions hrun
    hinflight hdelivered (by rw [hasked]; exact List.subset_append_left ..) hqueue ?_ ?_
  · simp only [CallOk, Unknown, hinflight, hdelivered]
    refine ⟨?_, fun hd => hid (hi.asked id hd)⟩
    by_contra hsome
    obtain ⟨r', hr'⟩ := Option.ne_none_iff_exists'.mp hsome
    exact hid (hi.key_asked hr')
  · simp only [Right, hresults, hqueue]
    exact hi.returned

/-- A step of `Ring.run`. -/
theorem callsInv_run {z : Size} {s s' : State ι} (hi : SafeInv z s)
    (hok : matchesBlank s (.run : Act ι) = false) (hm : Move z s .run s') : CallsInv s' := by
  have hown := ownInv_move hi.toOwnInv hm
  cases hm with
  | @pollTake r rest h hc =>
    exact ⟨hown, hi.toWaitInv.take (by rw [h]; rfl) hc, hi.calls, hi.returned⟩
  | @insert r h =>
    have hwork : s.run.work = .insert r := by rw [h]; rfl
    refine ⟨hown, WaitInv.insert hi.toOwnInv hi.toWaitInv hi.calls hwork,
      hi.calls_run rfl (fun _ _ _ _ => Or.inl rfl) (fun g id hg hu => ?_) rfl, hi.returned⟩
    obtain ⟨⟨g', id', hw, -⟩, -⟩ := hi.inserting hwork
    have hname := hi.calls g'
    rw [hw] at hname
    refine ⟨?_, hu.2⟩
    have hne : id ≠ (s.heap r).id := by
      rw [hname]
      exact hi.early_ne hw hg
    exact (AList.lookup_insert_ne hne).trans hu.1
  | @slotHit k r h hhit =>
    obtain ⟨p, hp, -⟩ := hit_posted hi.posted hi.range h hok hhit
    exact ⟨hown, hi.toWaitInv.slotHit (by rw [h]; rfl) hhit (List.mem_of_getElem? hp), hi.calls,
      hi.returned⟩
  | @giveRes k r cqe h =>
    have hgives : s.run.work.gives = some (r, cqe) := by rw [h]; rfl
    obtain ⟨-, -, g, hw⟩ := hi.given hgives
    exact ⟨hown, hi.toWaitInv.give hgives rfl rfl (fun _ => rfl) nofun,
      hi.calls_run rfl (hi.heap_given hw rfl) (fun _ _ _ h => h) rfl, hi.returned⟩
  | @giveFlags k r cqe h =>
    have hgives : s.run.work.gives = some (r, cqe) := by rw [h]; rfl
    obtain ⟨-, -, g, hw⟩ := hi.given hgives
    exact ⟨hown, hi.toWaitInv.give hgives rfl rfl
        (fun _ => hi.gaveRes (Or.inl (by rw [h]; rfl))) (fun _ => rfl),
      hi.calls_run rfl (hi.heap_given hw rfl) (fun _ _ _ h => h) rfl, hi.returned⟩
  | @signal k r cqe h hcap =>
    have hwork : s.run.work = .done r cqe := by rw [h]; rfl
    have hgives : s.run.work.gives = some (r, cqe) := by rw [h]; rfl
    obtain ⟨-, -, g, hw⟩ := hi.given hgives
    refine ⟨hown, WaitInv.signal hi.toOwnInv hi.toWaitInv hi.calls hwork,
      hi.calls_run rfl (hi.heap_given hw rfl) (fun g' id hg hu => ⟨hu.1, ?_⟩) rfl, hi.returned⟩
    simpa using ⟨hu.2, hi.early_ne hw hg⟩
  | @delete k r cqe h =>
    refine ⟨hown, hi.toWaitInv.delete (by rw [h]; rfl) (advance_work z k),
      hi.calls_run rfl (fun _ _ _ _ => Or.inl rfl) (fun g id hg hu => ⟨?_, hu.2⟩) rfl, hi.returned⟩
    by_cases hid : id = (s.heap r).id
    · rw [hid]
      exact AList.lookup_erase _ _
    · exact (AList.lookup_erase_ne hid).trans hu.1
  | slotMiss h hmiss =>
    exact hi.of_run hown rfl rfl rfl (by rw [h, advance_work]; rfl) rfl rfl rfl rfl
      (List.Subset.refl _)
  | _ =>
    exact hi.of_run hown rfl rfl rfl (by simp [*, RunPc.work]) rfl rfl rfl rfl
      (List.Subset.refl _)

theorem posted_move {z : Size} {s s' : State ι} {a : Act ι} (hp : Posted z s.queue)
    (hm : Move z s a s') : Posted z s'.queue := by
  cases hm with
  | post h => exact hp.post h
  | ack hfree h =>
    obtain ⟨-, rfl⟩ := completion_queue.ack_eq h
    exact hp.frame rfl rfl rfl
  | completer h =>
    obtain ⟨h1, -, h2, h3⟩ := completion_queue.completerStep_frame h
    exact hp.frame h1 h2 h3
  | storeHead h => exact hp.frame rfl rfl rfl
  | _ => exact hp

theorem inRange_move {z : Size} {s s' : State ι} {a : Act ι} (hrange : InRange z s)
    (hm : Move z s a s') : InRange z s' := by
  intro k hk
  cases hm with
  | loadTail h =>
    cases hk
    exact z.and_mask_lt _
  | slotMiss h hmiss => exact advance_inRange hk
  | delete h => exact advance_inRange hk
  | post h | ack hfree h | completer h | getPooled h hid hack hr | getFresh h hid hack
  | setId h | setRes h | setFlags h | send h hroom | wake h hdone | readRes h | readFlags h
  | put h => exact hrange k hk
  | _ => cases hk

theorem safeInv_move {z : Size} {s s' : State ι} {a : Act ι} (hi : SafeInv z s)
    (hok : CleanStep s a) (hm : Move z s a s') : SafeInv z s' := by
  refine ⟨?_, posted_move hi.posted hm, inRange_move hi.range hm⟩
  have hown := ownInv_move hi.toOwnInv hm
  cases a with
  | caller g => exact callsInv_caller hi.toCallsInv hok.1 hm
  | run => exact callsInv_run hi hok.2 hm
  | post cqe =>
    cases hm with
    | post h =>
      obtain ⟨-, rfl⟩ := completion_queue.post_eq h
      exact hi.of_run hown rfl rfl rfl rfl rfl rfl rfl rfl (List.subset_append_left ..)
  | ack p =>
    cases hm with
    | ack hfree h =>
      obtain ⟨-, rfl⟩ := completion_queue.ack_eq h
      exact hi.of_run hown rfl rfl rfl rfl rfl rfl rfl rfl (List.Subset.refl _)
  | completer =>
    cases hm with
    | completer h =>
      have hposted := (completion_queue.completerStep_frame h).1
      exact hi.of_run hown rfl rfl rfl rfl rfl rfl rfl rfl
        (by rw [hposted]; exact List.Subset.refl _)
  | complete g id pick =>
    cases hm with
    | getPooled h hid hack hr =>
      exact hi.start hown h hid (fun g id h' => (hi.used h').2.1 hr) rfl rfl rfl rfl rfl rfl rfl rfl
        rfl
    | getFresh h hid hack =>
      exact hi.start hown h hid (fun g id h' => absurd (hi.used h').1 (Nat.lt_irrefl _)) rfl rfl rfl
        rfl rfl rfl rfl rfl rfl
  | takeCompletion =>
    cases hm with
    | takeCompletion h hc =>
      exact ⟨hown, hi.toWaitInv.take (by rw [h]; rfl) hc, hi.calls, hi.returned⟩
  | takeRetry =>
    cases hm with
    | takeRetry h hretry =>
      exact hi.of_run hown rfl rfl rfl (by rw [h]; rfl) rfl rfl rfl rfl (List.Subset.refl _)

/-! ## The law -/

/-- In every run in which no call sets the id of a request between the signal
and the delete of `onEntry`, and `onEntry` takes no unwritten slot for the entry
of id 0, every `complete` gets the result of its own entry, and what has been
delivered leaves the map. -/
theorem every_complete_returns_its_own_result (z : Size) (as : List (Act ι))
    (h : Along (step z) CleanStep (init ι) as) :
    Always (step z) (fun s => OwnResults s ∧ DeliveredAreDeleted s) (init ι) as := by
  have hstep : ∀ (s : State ι) a s', SafeInv z s → CleanStep s a → step z s a = some s' →
      SafeInv z s' := fun s a s' hi hok hs => safeInv_move hi hok (step_move hs)
  exact Along.always hstep (fun _ => safeInv_law) (safeInv_init z) h

/-- Two calls on a ring of four. The entry of the first one is posted before it reaches the map;
the second one gets the request of the first one from the pool. -/
theorem a_complete_returns_its_own_result :
    let as : List (Act (Fin 2)) := Act.post ⟨1, 10, 0⟩ :: askActs 0 1 ++
      Act.takeCompletion :: List.replicate 9 Act.run ++ List.replicate 4 (Act.caller 0) ++
      List.replicate 3 Act.run ++ Act.complete 1 2 (some 0) :: List.replicate 4 (Act.caller 1) ++
      [Act.takeCompletion, Act.run, Act.post ⟨2, 20, 0⟩] ++ List.replicate 8 Act.run ++
      List.replicate 4 (Act.caller 1)
    Always (step ⟨2, by decide⟩) (fun s => OwnResults s ∧ DeliveredAreDeleted s) (init (Fin 2)) as ∧
      (run (step ⟨2, by decide⟩) (init (Fin 2)) as).map (·.results) =
        some [(1, 10, 0), (2, 20, 0)] :=
  ⟨every_complete_returns_its_own_result _ _ (by decide +kernel), by decide +kernel⟩

/-- A request with id 1 is signalled, its caller returns it to the pool, and a
call for id 2 gets it and sets its id before `onEntry` deletes. The key 1 stays
and names the request of the second call, so the next scan gives that call the
result of id 1, although the entry of id 2 has been posted too. -/
theorem a_recycled_request_returns_another_result :
    (run (step ⟨2, by decide⟩) (init (Fin 2))
        ([Act.post ⟨7, 70, 0⟩, .post ⟨1, 10, 0⟩] ++ askActs 0 1 ++
          Act.takeCompletion :: List.replicate 9 .run ++ List.replicate 4 (Act.caller 0) ++
          [Act.complete 1 2 (some 0), .caller 1, .run] ++ List.replicate 3 (Act.caller 1) ++
          List.replicate 4 Act.run ++ [Act.post ⟨2, 20, 0⟩, .takeRetry] ++
          List.replicate 10 Act.run ++ List.replicate 4 (Act.caller 1))).map
        (fun s => (s.results, s.queue.posted)) =
      some ([(1, 10, 0), (2, 10, 0)], [⟨7, 70, 0⟩, ⟨1, 10, 0⟩, ⟨2, 20, 0⟩]) := by
  decide

end iouring.ring
