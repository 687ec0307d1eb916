-- Every `getCqe(id)` that finds an entry finds its own. The head never passes
-- an entry before its reader has acknowledged it, so an entry stays in its
-- slot until then, and ids are distinct, so no other slot is taken for it.
import Iouring.RingFio

open counter machine
open iouring.completion_queue (CompletionEntry Window errnoOf)

namespace iouring.ring_fio

variable {ι : Type}

/-- What the kernel's entry stands for: a count, or an error if `Res` is negative. -/
def decode (cqe : CompletionEntry) : Result :=
  if cqe.res < 0 then .errno (errnoOf cqe.res) else .count cqe.res.toInt

/-- A call for id 0 compares a slot that the kernel never wrote to. -/
def looksBlank (s : State ι) : Act ι → Bool
  | .step g =>
    match (s.pc g).looks with
    | some (c, x) => decide (c.reqID = 0) && decide (s.queue.posted.length ≤ x)
    | none => false
  | _ => false

def WrittenStep (s : State ι) (a : Act ι) : Prop := looksBlank s a = false

instance (s : State ι) (a : Act ι) : Decidable (WrittenStep s a) :=
  inferInstanceAs (Decidable (_ = _))

/-! ## The invariant -/

/-- The entry at the slot is the one that was posted for the id. -/
def Holds (z : Size) (s : State ι) (id : UInt64) (x : Nat) (cqe : CompletionEntry) : Prop :=
  cqe.userData = id ∧ ∃ p, s.queue.posted[p]? = some cqe ∧ p % z.slots = x

/-- A call has returned what the entry of its id stands for. -/
def RightResult (s : State ι) (x : UInt64 × Result) : Prop :=
  x.2 ≠ .enterFailed → ∃ cqe ∈ s.queue.posted, cqe.userData = x.1 ∧ x.2 = decode cqe

structure FioInv (z : Size) (s : State ι) : Prop where
  window : ∃ H, Window z (fun _ => False) s.queue H
  distinct : ∀ {g g' c c'}, (s.pc g).call = some c → (s.pc g').call = some c' →
    c.reqID = c'.reqID → g = g'
  asked : ∀ {g c}, (s.pc g).call = some c → c.reqID ∈ s.asked
  range : ∀ g, (s.pc g).InRange z
  hit : ∀ {g c x cqe}, (s.pc g).hit = some (c, x, cqe) →
    Holds z s c.reqID x cqe ∧ ¬ cqe.res < 0 ∧ c.reqID ∈ s.found
  /-- What is acknowledged was found by a call that has returned. -/
  acked : ∀ p ∈ s.queue.acked, ∃ id ∈ s.found, s.queue.idAt p = some id ∧ id ∈ s.asked ∧
    ∀ g c, (s.pc g).call = some c → c.reqID ≠ id
  results : ∀ x ∈ s.results, RightResult s x

theorem fioInv_init (z : Size) : FioInv z (init ι) where
  window := ⟨0, completion_queue.window_init z _⟩
  distinct := nofun
  asked := nofun
  range := fun _ => trivial
  hit := nofun
  acked := fun p hp => by simp [init, completion_queue.init] at hp
  results := fun x hx => by simp [init] at hx

/-- A step of the kernel or the completer. -/
theorem FioInv.of_queue {z : Size} {s : State ι} (hi : FioInv z s) {q : completion_queue.State}
    {l : List CompletionEntry} (hw : ∃ H, Window z (fun _ => False) q H)
    (hposted : q.posted = s.queue.posted ++ l) (hacked : q.acked = s.queue.acked) :
    FioInv z { s with queue := q } where
  window := hw
  distinct := hi.distinct
  asked := hi.asked
  range := hi.range
  hit := by
    intro g c x cqe h
    obtain ⟨⟨hid, p, hp, hslot⟩, hrest⟩ := hi.hit h
    refine ⟨⟨hid, p, ?_, hslot⟩, hrest⟩
    simp only [hposted]
    exact List.getElem?_append_left (List.getElem?_eq_some_iff.mp hp).1 ▸ hp
  acked := by
    simp only [hacked]
    intro p hp
    obtain ⟨id, hid, hat, hrest⟩ := hi.acked p hp
    exact ⟨id, hid, completion_queue.idAt_append hposted hat, hrest⟩
  results := by
    intro x hx hne
    obtain ⟨cqe, hcqe, hrest⟩ := hi.results x hx hne
    refine ⟨cqe, ?_, hrest⟩
    simp only [hposted]
    exact List.mem_append_left _ hcqe

/-- In a step that compares no unwritten slot for id 0, a match is the entry
that was posted for the id. -/
theorem FioInv.holds_of_match {z : Size} {s : State ι} (hi : FioInv z s) {g : ι} {c : Call}
    {x : Nat} (hok : WrittenStep s (.step g)) (h : (s.pc g).looks = some (c, x))
    (hid : (s.queue.cq.entries x).userData = c.reqID) :
    Holds z s c.reqID x (s.queue.cq.entries x) := by
  obtain ⟨H, hw⟩ := hi.window
  have hx : x < z.slots := by
    have hr := hi.range g
    cases hpc : s.pc g <;> rw [hpc] at h hr <;> cases h
    · exact hr
    · exact Nat.lt_trans hr.1 hr.2
  rcases hw.entries_cases hx with ⟨hlen, hzero⟩ | ⟨p, cqe, hp, hslot, he⟩
  · rw [hzero] at hid
    simp [WrittenStep, looksBlank, h, ← hid, CompletionEntry.zero, hlen] at hok
  · rw [he] at hid ⊢
    exact ⟨hid, p, hp, hslot⟩

/-- An id has one entry. -/
theorem FioInv.posted_inj {z : Size} {s : State ι} (hi : FioInv z s) {a b : CompletionEntry}
    (ha : a ∈ s.queue.posted) (hb : b ∈ s.queue.posted) (h : a.userData = b.userData) : a = b := by
  obtain ⟨H, hw⟩ := hi.window
  exact List.inj_on_of_nodup_map hw.ids ha hb h

/-- What a call has found is an entry of its id, with a count. -/
theorem FioInv.hit_posted {z : Size} {s : State ι} (hi : FioInv z s) {g : ι} {c c' : Call} {x : Nat}
    {cqe : CompletionEntry} (hcall : (s.pc g).call = some c)
    (hhit : (s.pc g).hit = some (c', x, cqe)) :
    c' = c ∧ cqe ∈ s.queue.posted ∧ cqe.userData = c.reqID ∧ ¬ cqe.res < 0 := by
  obtain ⟨⟨hid, p, hp, -⟩, hres, -⟩ := hi.hit hhit
  rw [Pc.call_of_hit hhit] at hcall
  cases hcall
  exact ⟨rfl, List.mem_of_getElem? hp, hid, hres⟩

/-- The entry of a call that runs is not acknowledged. -/
theorem FioInv.not_acked {z : Size} {s : State ι} (hi : FioInv z s) {g : ι} {c : Call} {p : Nat}
    (hcall : (s.pc g).call = some c) (hat : s.queue.idAt p = some c.reqID) :
    p ∉ s.queue.acked := by
  intro hack
  obtain ⟨id, -, hat', -, hother⟩ := hi.acked p hack
  rw [hat] at hat'
  cases hat'
  exact hother g c hcall rfl

/-- The send of the slot that a call has found acknowledges its entry. -/
theorem FioInv.send {z : Size} {s : State ι} (hi : FioInv z s) {g : ι} {c : Call} {x : Nat}
    {cqe : CompletionEntry} {q : completion_queue.State} (h : s.pc g = .complete c x cqe)
    (hq : completion_queue.complete s.queue x = some q) :
    ∃ p, s.queue.posted[p]? = some cqe ∧ cqe.userData = c.reqID ∧
      s.queue.idAt p = some c.reqID ∧ q.posted = s.queue.posted ∧
      (s.queue.posted.map (·.userData)).idxOf c.reqID = p ∧
      completion_queue.ack z s.queue p = some { q with acked := q.acked ++ [p] } := by
  obtain ⟨⟨hid, p, hp, rfl⟩, -, -⟩ := hi.hit (g := g) (by rw [h]; rfl)
  obtain ⟨H, hw⟩ := hi.window
  have hat : s.queue.idAt p = some c.reqID := by
    rw [completion_queue.State.idAt, hp, ← hid]
    rfl
  have hlt := (List.getElem?_eq_some_iff.mp hp).1
  have hnew := hi.not_acked (g := g) (by rw [h]; rfl) hat
  obtain ⟨hposted, hack⟩ := completion_queue.ack_of_complete hlt hnew hq
  exact ⟨p, hp, hid, hat, hposted, hw.idxOf_idAt hat, hack⟩

variable [DecidableEq ι]

/-- A step of one goroutine that leaves the queue alone. -/
theorem FioInv.of_pc {z : Size} {s s' : State ι} (hi : FioInv z s) {g : ι} {p : Pc}
    (hpc : s'.pc = Function.update s.pc g p) (hqueue : s'.queue = s.queue)
    (hasked : s'.asked = s.asked) (hfound : s.found ⊆ s'.found)
    (hcall : ∀ c, p.call = some c → (s.pc g).call = some c) (hrange : p.InRange z)
    (hhit : ∀ c x cqe, p.hit = some (c, x, cqe) →
      Holds z s c.reqID x cqe ∧ ¬ cqe.res < 0 ∧ c.reqID ∈ s'.found)
    (hresults : ∀ x ∈ s'.results, RightResult s x) : FioInv z s' := by
  have hcalls : ∀ {g' c}, (s'.pc g').call = some c → (s.pc g').call = some c := by
    intro g' c h
    rw [hpc] at h
    rcases update_cases h with ⟨rfl, h'⟩ | ⟨-, h'⟩
    · exact hcall c h'
    · exact h'
  refine ⟨?_, fun h h' => hi.distinct (hcalls h) (hcalls h'), fun h => ?_, fun g' => ?_, ?_, ?_, ?_⟩
  · rw [hqueue]
    exact hi.window
  · rw [hasked]
    exact hi.asked (hcalls h)
  · rw [hpc]
    by_cases hg : g' = g
    · rwa [hg, Function.update_self]
    · rw [Function.update_of_ne hg]
      exact hi.range g'
  · intro g' c x cqe h
    rw [hpc] at h
    simp only [Holds, hqueue]
    rcases update_cases h with ⟨-, h⟩ | ⟨-, h⟩
    · exact hhit c x cqe h
    · obtain ⟨h1, h2, h3⟩ := hi.hit h
      exact ⟨h1, h2, hfound h3⟩
  · rw [hqueue, hasked]
    intro p hp
    obtain ⟨id, h1, h2, h3, h4⟩ := hi.acked p hp
    exact ⟨id, hfound h1, h2, h3, fun g' c h => h4 g' c (hcalls h)⟩
  · intro x hx
    have := hresults x hx
    rwa [RightResult, ← hqueue] at this

/-- A call acknowledges the slot of its entry and returns. -/
theorem FioInv.complete {z : Size} {s : State ι} (hi : FioInv z s) {g : ι} {c : Call} {x : Nat}
    {cqe : CompletionEntry} {q : completion_queue.State} (h : s.pc g = .complete c x cqe)
    (hq : completion_queue.complete s.queue x = some q) :
    FioInv z { s with
      pc := Function.update s.pc g .idle
      results := s.results ++ [(c.reqID, .count cqe.res.toInt)]
      queue := { q with acked := q.acked ++ [(q.posted.map (·.userData)).idxOf c.reqID] } } := by
  have hcall : (s.pc g).call = some c := by rw [h]; rfl
  obtain ⟨-, hres, hfound⟩ := hi.hit (g := g) (by rw [h]; rfl)
  obtain ⟨H, hw⟩ := hi.window
  obtain ⟨p, hp, hid, hat, hposted, hidx, hack⟩ := hi.send h hq
  rw [hposted, hidx]
  have hwindow := hw.ack not_false hack
  obtain ⟨-, hacked⟩ := completion_queue.ack_eq hack
  have hmid : FioInv z { s with
      pc := Function.update s.pc g .idle
      results := s.results ++ [(c.reqID, .count cqe.res.toInt)] } := by
    have hright : RightResult s (c.reqID, .count cqe.res.toInt) :=
      fun _ => ⟨cqe, List.mem_of_getElem? hp, hid, by rw [decode, if_neg hres]⟩
    exact hi.of_pc rfl rfl rfl (List.Subset.refl _) (fun _ h' => by cases h') trivial
      (fun _ _ _ h' => by cases h')
      (List.forall_mem_append.mpr ⟨hi.results, List.forall_mem_singleton.mpr hright⟩)
  rw [hacked] at hwindow
  rw [← hposted, hacked]
  refine { hmid with window := ⟨H, hwindow⟩, acked := fun p' hp' => ?_ }
  rcases List.mem_append.mp hp' with hp' | hp'
  · exact hmid.acked p' hp'
  · rw [List.mem_singleton.mp hp']
    refine ⟨c.reqID, hfound, hat, hi.asked hcall, fun g' c' hc' heq => ?_⟩
    rcases update_cases hc' with ⟨-, h'⟩ | ⟨hg, h'⟩
    · cases h'
    · exact hg (hi.distinct h' hcall heq)

/-- A call starts with an id that no call has had. -/
theorem FioInv.start {z : Size} {s : State ι} (hi : FioInv z s) {g : ι} {c : Call} {p : Pc}
    (hid : c.reqID ∉ s.asked) (hp : p.call = some c) (hrange : p.InRange z)
    (hhit : p.hit = none) :
    FioInv z { s with
      pc := Function.update s.pc g p
      asked := s.asked ++ [c.reqID] } := by
  have hcases : ∀ {g' c'}, (Function.update s.pc g p g').call = some c' →
      (g' = g ∧ c' = c) ∨ (g' ≠ g ∧ (s.pc g').call = some c') := by
    intro g' c' h
    rcases update_cases h with ⟨hg, h⟩ | h
    · rw [hp] at h
      cases h
      exact Or.inl ⟨hg, rfl⟩
    · exact Or.inr h
  refine { hi with distinct := fun h h' heq => ?_, asked := fun h => ?_, range := fun g' => ?_,
                   hit := fun {g'} {c'} {x} {cqe} h => ?_, acked := fun p' hp' => ?_ }
  · rcases hcases h with ⟨e1, rfl⟩ | ⟨-, h1⟩
    · rcases hcases h' with ⟨e2, -⟩ | ⟨-, h2⟩
      · exact e1.trans e2.symm
      · exact absurd (heq ▸ hi.asked h2) hid
    · rcases hcases h' with ⟨-, rfl⟩ | ⟨-, h2⟩
      · exact absurd (heq ▸ hi.asked h1) hid
      · exact hi.distinct h1 h2 heq
  · rcases hcases h with ⟨-, rfl⟩ | ⟨-, h1⟩
    · simp
    · exact List.mem_append_left _ (hi.asked h1)
  · by_cases hg : g' = g
    · simpa only [hg, Function.update_self] using hrange
    · simpa only [Function.update_of_ne hg] using hi.range g'
  · rcases update_cases h with ⟨-, h⟩ | ⟨-, h⟩
    · rw [hhit] at h
      cases h
    · exact hi.hit h
  · obtain ⟨id, h1, h2, h3, h4⟩ := hi.acked p' hp'
    refine ⟨id, h1, h2, List.mem_append_left _ h3, fun g' c' h => ?_⟩
    rcases hcases h with ⟨-, rfl⟩ | ⟨-, h⟩
    · rintro rfl
      exact hid h3
    · exact h4 g' c' h

theorem fioInv_move {z : Size} {s s' : State ι} {a : Act ι} (hi : FioInv z s)
    (hok : WrittenStep s a) (hm : Move z s a s') : FioInv z s' := by
  cases hm with
  | @post cqe q h =>
    obtain ⟨H, hw⟩ := hi.window
    have hq := (completion_queue.post_eq h).2
    exact hi.of_queue (l := [cqe]) ⟨H, hw.post h⟩ (by rw [hq]) (by rw [hq])
  | @completer q h =>
    obtain ⟨H, hw⟩ := hi.window
    obtain ⟨H', -, -, hw'⟩ := hw.completerStep h
    obtain ⟨h1, h2, -⟩ := completion_queue.completerStep_frame h
    exact hi.of_queue (l := []) ⟨H', hw'⟩ (by rw [h1, List.append_nil]) h2
  | start h hid hp hrange hhit => exact hi.start hid hp hrange hhit
  | @search g c p h hp hrange hhit =>
    refine hi.of_pc rfl rfl rfl (List.Subset.refl _) (fun c' hc' => ?_) (hrange (hi.range g))
      (fun c' x cqe hc' => ?_) hi.results
    · rw [hp] at hc'
      rw [h, hc']
    · rw [hhit] at hc'
      cases hc'
  | @fail g c h =>
    have hright : RightResult s (c.reqID, .enterFailed) := fun hne => absurd rfl hne
    exact hi.of_pc rfl rfl rfl (List.Subset.refl _) nofun trivial nofun
      (List.forall_mem_append.mpr ⟨hi.results, List.forall_mem_singleton.mpr hright⟩)
  | @findError g c x h hid hres =>
    obtain ⟨-, p, hp, -⟩ := hi.holds_of_match hok h hid
    have hright : RightResult s (c.reqID, Result.errno (errnoOf (s.queue.cq.entries x).res)) :=
      fun _ => ⟨_, List.mem_of_getElem? hp, hid, by rw [decode, if_pos hres]⟩
    exact hi.of_pc rfl rfl rfl (List.subset_append_left ..) nofun trivial nofun
      (List.forall_mem_append.mpr ⟨hi.results, List.forall_mem_singleton.mpr hright⟩)
  | @find g c x h hid hres =>
    refine hi.of_pc rfl rfl rfl (List.subset_append_left ..) (fun c' hc' => ?_) trivial
      (fun c' x' cqe hc' => ?_) hi.results
    · cases hc'
      exact Pc.call_of_looks h
    · cases hc'
      exact ⟨hi.holds_of_match hok h hid, hres, by simp⟩
  | loadOffset h | storeOffset h =>
    refine hi.of_pc rfl rfl rfl (List.Subset.refl _) (fun c' hc' => ?_) trivial
      (fun c' x' cqe' hc' => ?_) hi.results
    · cases hc'
      rw [h]
      rfl
    · cases hc'
      exact hi.hit (by rw [h]; rfl)
  | complete h hq => exact hi.complete h hq

/-! ## The law -/

/-- Every call that returned after it found an entry returned what the entry of
its id stands for; the slot that a call has found is the slot of that entry;
and an entry that no call has found yet is still in its slot. -/
def OwnEntries (z : Size) (s : State ι) : Prop :=
  (∀ x ∈ s.results, RightResult s x) ∧
  (∀ g c x cqe, (s.pc g).hit = some (c, x, cqe) → Holds z s c.reqID x cqe) ∧
  ∀ (p : Nat) cqe, s.queue.posted[p]? = some cqe → cqe.userData ∉ s.found →
    s.queue.cq.entries (p % z.slots) = cqe

omit [DecidableEq ι] in
theorem ownEntries_of_fioInv {z : Size} {s : State ι} (hi : FioInv z s) : OwnEntries z s := by
  refine ⟨hi.results, fun g c x cqe h => (hi.hit h).1, fun p cqe hp hnew => ?_⟩
  obtain ⟨H, hw⟩ := hi.window
  refine hw.entry_of hp (fun hack => ?_) not_false
  obtain ⟨id, hid, hat, -⟩ := hi.acked p hack
  rw [completion_queue.State.idAt, hp] at hat
  cases hat
  exact hnew hid

/-- In every run in which no call for id 0 compares a slot that the kernel never
wrote to, concurrent file operations get their own results. -/
theorem every_getCqe_returns_its_own_result (z : Size) (as : List (Act ι))
    (h : Along (step z) WrittenStep (init ι) as) :
    Always (step z) (OwnEntries z) (init ι) as := by
  have hstep : ∀ (s : State ι) a s', FioInv z s → WrittenStep s a → step z s a = some s' →
      FioInv z s' := fun s a s' hi hok hs => fioInv_move hi hok (step_move hs)
  exact Along.always hstep (fun _ => ownEntries_of_fioInv) (fioInv_init z) h

/-- Two calls on a ring of four, the entries posted the other way round: one
call gets its error, the other one its count. -/
theorem two_calls_get_their_own_results :
    Always (step ⟨2, by decide⟩) (OwnEntries ⟨2, by decide⟩) (init (Fin 2))
        ([Act.getCqe 0 ⟨0, 1, 1, 1⟩, .getCqe 1 ⟨0, 2, 1, 1⟩, .post ⟨2, -5, 0⟩, .post ⟨1, 7, 0⟩] ++
          List.replicate 4 (Act.step 1) ++ List.replicate 8 (Act.step 0)) ∧
      (run (step ⟨2, by decide⟩) (init (Fin 2))
        ([Act.getCqe 0 ⟨0, 1, 1, 1⟩, .getCqe 1 ⟨0, 2, 1, 1⟩, .post ⟨2, -5, 0⟩, .post ⟨1, 7, 0⟩] ++
          List.replicate 4 (Act.step 1) ++ List.replicate 8 (Act.step 0))).map (·.results) =
        some [(2, .errno 5), (1, .count 7)] :=
  ⟨every_getCqe_returns_its_own_result _ _ (by decide), by decide⟩

/-- A call for id 0, the first id of a ring with `WithID(2^64 - 1)`, on a ring of
two with one entry of another id: the scan also looks into the slot at `Tail`,
which is still zero, and returns its zero as the result of id 0. -/
theorem an_unwritten_slot_is_taken_for_id_zero :
    (run (step ⟨1, by decide⟩) (init (Fin 1))
        ([Act.post ⟨1, 7, 0⟩, .getCqe 0 ⟨0, 0, 1, 1⟩] ++ List.replicate 8 (Act.step 0))).map
      (fun s => (s.results, s.queue.posted.map (·.userData), s.queue.completer.seen)) =
      some ([(0, .count 0)], [1], [1]) := by
  decide

end iouring.ring_fio
