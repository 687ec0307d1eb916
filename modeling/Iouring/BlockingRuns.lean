-- What one goroutine gets that makes blocking calls one after the other: the kernel takes
-- the entry of each call once and in order, it always has room for its answer, and each
-- call returns the answer to its own entry.
import Iouring.Blocking
import Iouring.OneCaller
import Iouring.SubmitRounds

open counter machine

namespace iouring.blocking

open submit_queue (Prepare SubmitEntry FieldWrite Ready Loaded opStep filledEntry)
open result_paths (Returned)
open prepare_calls (nth nth_ne nth_succ)
open ring (SoloInv SoloStep)

/-! ## Which steps go wrong -/

/-- The counter of ids does not wrap, and a call does not set the id of a request that
`onEntry` has signalled and not yet used for its delete. -/
def Orderly (s : State) : Act → Prop
  | .call _ => s.idx.toNat + 1 < 2 ^ 64
  | .caller => ring.renamesEarly s.ring (.caller ()) = false
  | _ => True

instance (s : State) : ∀ a, Decidable (Orderly s a)
  | .call _ => inferInstanceAs (Decidable (_ < _))
  | .caller => inferInstanceAs (Decidable (_ = _))
  | .complete _ | .takeCompletion | .takeRetry | .run | .enter | .enterFails | .answer _ _ _ =>
    isTrue trivial

/-! ## Where the entry of a call is -/

/-- The entry of the last call is committed and the kernel has not taken it. -/
def State.pending (s : State) : Bool :=
  s.committed.isSome || s.ring.unsubmitted || s.refused

/-- The `k`-th entry is that of the `k`-th call, filled with the `k`-th id. -/
structure Filled (zs : Size) (start : UInt64) (s : State) : Prop where
  length : s.sq.hist.prepared.length = s.calls.length
  entry : ∀ k c, s.calls[k]? = some c → (operation c).isSome ∧
    ∃ ws e, c.writes (nth start (k + 1)) = some ws ∧
      s.sq.hist.prepared[k]? = some (k % zs.slots, filledEntry e ws)

theorem Filled.snoc {zs : Size} {start : UInt64} {s s' : State} {c : Prepare}
    {ws : List FieldWrite} {e : SubmitEntry} (h : Filled zs start s) (hop : (operation c).isSome)
    (hws : c.writes (nth start (s.calls.length + 1)) = some ws)
    (hprep : s'.sq.hist.prepared =
      s.sq.hist.prepared ++ [(s.calls.length % zs.slots, filledEntry e ws)])
    (hcalls : s'.calls = s.calls ++ [c]) : Filled zs start s' where
  length := by rw [hprep, hcalls, List.length_append, List.length_append, h.length]; rfl
  entry := by
    intro k c' hc'
    rw [hcalls] at hc'
    rw [hprep]
    by_cases hk : k < s.calls.length
    · rw [List.getElem?_append_left hk] at hc'
      rw [List.getElem?_append_left (by rwa [h.length])]
      exact h.entry k c' hc'
    · obtain rfl : k = s.calls.length := by
        have := (List.getElem?_eq_some_iff.mp hc').1
        rw [List.length_append, List.length_singleton] at this
        omega
      rw [List.getElem?_append_right (Nat.le_refl _), Nat.sub_self] at hc'
      cases hc'
      refine ⟨hop, ws, e, hws, ?_⟩
      rw [List.getElem?_append_right (by rw [h.length]), h.length, Nat.sub_self]
      rfl

/-- The ring with its caller, the queue and the ids. -/
structure CallInv (zs zc : Size) (start : UInt64) (s : State) : Prop where
  solo : SoloInv zc s.ring
  idx : s.idx = nth start s.calls.length
  fits : start.toNat + s.calls.length < 2 ^ 64
  filled : Filled zs start s
  asked : s.ring.asked ++ s.committed.toList =
    (List.range s.calls.length).map fun k => nth start (k + 1)
  results : s.ring.results.map (·.1) ++ ((s.ring.callers ()).holds.map (·.2)).toList =
    s.ring.asked
  idle : s.committed ≠ none → s.ring.callers () = .idle
  loaded : s.pending = true → ∃ e, Loaded zs s.sq s.sq.hist.executed.length e ∧
    s.sq.hist.prepared =
      s.sq.hist.executed ++ [(s.sq.hist.executed.length % zs.slots, e)]
  ready : s.pending = false → Ready zs s.sq s.sq.hist.executed.length ∧
    s.sq.hist.prepared = s.sq.hist.executed
  waits : s.pending = true → s.committed ≠ none ∨ (s.ring.callers ()).early.isSome ∨
    ∃ r id, s.ring.callers () = .wait r id
  entering : s.ring.run = .enter → ∃ r id, s.ring.callers () = .wait r id ∧
    s.ring.inflight.lookup id = some r
  submitted : ∀ x ∈ s.sq.hist.executed, x.2.userData ∈ s.ring.delivered ∨
    (s.ring.inflight.lookup x.2.userData).isSome
  posted : ∀ cqe ∈ s.ring.queue.posted, ∃ x ∈ s.sq.hist.executed, x.2.userData = cqe.userData
  lost : s.refused = true → s.committed = none ∧ s.ring.unsubmitted = false ∧
    ∃ r id, s.ring.callers () = .wait r id

theorem callInv_init (zs zc : Size) (start : UInt64) : CallInv zs zc start (init start) where
  solo := ring.soloInv_init zc
  idx := (UInt64.add_zero start).symm
  fits := start.toNat_lt
  filled := ⟨rfl, fun k c h => by simp [init] at h⟩
  asked := rfl
  results := rfl
  idle := fun h => absurd rfl h
  loaded := nofun
  ready := fun _ => ⟨submit_queue.ready_init zs, rfl⟩
  waits := nofun
  entering := nofun
  submitted := fun x h => by simp [init, submit_queue.init] at h
  posted := fun cqe h => by simp [init, ring.init, completion_queue.init] at h
  lost := nofun

/-! ## The ids -/

theorem nth_toNat {start : UInt64} {k : Nat} (h : start.toNat + k < 2 ^ 64) :
    (nth start k).toNat = start.toNat + k := by
  rw [nth, UInt64.toNat_add, UInt64.toNat_ofNat']
  omega

theorem filled_userData {c : Prepare} {id : UInt64} {ws : List FieldWrite} (e : SubmitEntry)
    (h : c.writes id = some ws) : (filledEntry e ws).userData = id := by
  cases c with
  | readv | writev | read | write | readFixed | writeFixed | send | recv | fioRead | fioWrite =>
    obtain ⟨first, -, rfl⟩ := Option.map_eq_some_iff.mp h
    rfl
  | statx dirfd path flags mask buf =>
    cases h
    simp only [filledEntry, submit_queue.prepareStatx, List.foldl_append, List.foldl_cons,
      List.foldl_nil, FieldWrite.apply]
  | _ =>
    cases h
    rfl

section Ids

variable {zs zc : Size} {start : UInt64} {s : State}

theorem CallInv.executed_prefix (hi : CallInv zs zc start s) :
    s.sq.hist.executed <+: s.sq.hist.prepared := by
  cases hp : s.pending with
  | true =>
    obtain ⟨e, -, heq⟩ := hi.loaded hp
    rw [heq]
    exact List.prefix_append ..
  | false =>
    rw [(hi.ready hp).2]

theorem CallInv.executed_userData (hi : CallInv zs zc start s) {j : Nat} {x : Nat × SubmitEntry}
    (h : s.sq.hist.executed[j]? = some x) :
    j < s.calls.length ∧ x.2.userData = nth start (j + 1) := by
  have hprep : s.sq.hist.prepared[j]? = some x := by
    obtain ⟨rest, hrest⟩ := hi.executed_prefix
    rw [← hrest, List.getElem?_append_left (List.getElem?_eq_some_iff.mp h).1]
    exact h
  have hlt : j < s.calls.length := by
    rw [← hi.filled.length]
    exact (List.getElem?_eq_some_iff.mp hprep).1
  refine ⟨hlt, ?_⟩
  obtain ⟨-, ws, e, hws, hat⟩ := hi.filled.entry j _ (List.getElem?_eq_getElem hlt)
  rw [hprep] at hat
  cases hat
  exact filled_userData e hws

/-- The index of the call that an id belongs to. -/
theorem CallInv.index_unique (hi : CallInv zs zc start s) {j k : Nat} (hj : j < s.calls.length)
    (hk : k < s.calls.length) (h : nth start (j + 1) = nth start (k + 1)) : j = k := by
  have hfits := hi.fits
  rcases Nat.lt_trichotomy j k with hjk | hjk | hjk
  · exact absurd h (nth_ne (by omega) (by omega))
  · exact hjk
  · exact absurd h.symm (nth_ne (by omega) (by omega))

/-- The caller waits for the entry of the last call. -/
theorem CallInv.last_id (hi : CallInv zs zc start s) {r : Nat} {id : UInt64}
    (hw : s.ring.callers () = .wait r id) :
    s.committed = none ∧ id = nth start s.calls.length ∧ 0 < s.calls.length := by
  have hnone : s.committed = none := by
    by_contra hne
    rw [hi.idle hne] at hw
    cases hw
  have hasked := hi.asked
  have hresults := hi.results
  rw [hnone, Option.toList_none, List.append_nil] at hasked
  rw [hasked, hw] at hresults
  refine ⟨hnone, ?_⟩
  rcases Nat.eq_zero_or_pos s.calls.length with hzero | hpos
  · rw [hzero] at hresults
    simp [ring.Caller.holds] at hresults
  · refine ⟨?_, hpos⟩
    obtain ⟨n, hn⟩ := Nat.exists_eq_succ_of_ne_zero (Nat.pos_iff_ne_zero.mp hpos)
    rw [hn, List.range_succ, List.map_append] at hresults
    have := (List.append_inj' hresults rfl).2
    simp [ring.Caller.holds] at this
    rw [this, hn]

/-- A call does not get its answer before the kernel has its entry. -/
theorem CallInv.not_done (hi : CallInv zs zc start s) {r : Nat} {id : UInt64}
    (hp : s.pending = true) (hw : s.ring.callers () = .wait r id) : (s.ring.heap r).done = 0 := by
  by_contra hdone
  obtain ⟨-, g, id', hw', hright⟩ := hi.solo.token hdone
  rw [hw] at hw'
  cases hw'
  obtain ⟨x, hx, hid⟩ := hi.posted _ hright
  obtain ⟨j, hj⟩ := List.getElem?_of_mem hx
  obtain ⟨hlt, hxid⟩ := hi.executed_userData hj
  obtain ⟨-, hlast, hpos⟩ := hi.last_id hw
  obtain ⟨e, -, heq⟩ := hi.loaded hp
  have hlen := hi.filled.length
  rw [heq, List.length_append, List.length_singleton] at hlen
  have hjlt := (List.getElem?_eq_some_iff.mp hj).1
  have hsame : nth start (j + 1) = nth start (s.sq.hist.executed.length + 1) := by
    rw [← hxid, hid, hlen]
    exact hlast
  have := hi.index_unique hlt (by omega) hsame
  omega

end Ids

/-! ## Steps of the ring -/

section Steps

variable {zs zc : Size} {start : UInt64} {s : State} {r' : ring.State Unit} {a : ring.Act Unit}

/-- The calls that wait for the kernel go on waiting. -/
theorem CallInv.still_waits (hi : CallInv zs zc start s) (hm : ring.Move zc s.ring a r')
    (hp : s.pending = true) {r : Nat} {id : UInt64} (hw : s.ring.callers () = .wait r id)
    (hstart : ∀ id pick, a ≠ .complete () id pick) : r'.callers () = .wait r id := by
  cases hm with
  | getPooled | getFresh => exact absurd rfl (hstart _ _)
  | @wake g r1 id1 h hdone =>
    rw [hw] at h
    cases h
    have := hi.not_done hp hw
    omega
  | setId h | setRes h | setFlags h | send h hroom | readRes h | readFlags h | put h =>
    rw [hw] at h
    cases h
  | _ => exact hw

theorem CallInv.waits_move (hi : CallInv zs zc start s) (hm : ring.Move zc s.ring a r')
    (hp : s.pending = true) (hstart : ∀ id pick, a ≠ .complete () id pick) :
    s.committed ≠ none ∨ (r'.callers ()).early.isSome ∨ ∃ r id, r'.callers () = .wait r id := by
  rcases hi.waits hp with hc | hearly | ⟨r, id, hw⟩
  · exact Or.inl hc
  · right
    cases hm with
    | getPooled | getFresh => exact absurd rfl (hstart _ _)
    | setId h | setRes h | setFlags h => exact Or.inl (by simp [ring.Caller.early])
    | @send g r id h hroom => exact Or.inr ⟨r, id, by simp⟩
    | wake h hdone | readRes h | readFlags h | put h =>
      rw [h] at hearly
      cases hearly
    | _ => exact Or.inl hearly
  · exact Or.inr (Or.inr ⟨r, id, hi.still_waits hm hp hw hstart⟩)

theorem CallInv.entering_move (hi : CallInv zs zc start s) (hm : ring.Move zc s.ring a r')
    (hstart : ∀ id pick, a ≠ .complete () id pick) (hrun : r'.run = .enter) :
    ∃ r id, r'.callers () = .wait r id ∧ r'.inflight.lookup id = some r := by
  have hstill : s.ring.run = .enter → r'.inflight = s.ring.inflight →
      ∃ r id, r'.callers () = .wait r id ∧ r'.inflight.lookup id = some r := by
    intro hold hsame
    obtain ⟨r, id, hw, hkey⟩ := hi.entering hold
    have hp : s.pending = true := by simp [State.pending, ring.State.unsubmitted, hold,
      ring.RunPc.submits]
    exact ⟨r, id, hi.still_waits hm hp hw hstart, by rw [hsame]; exact hkey⟩
  cases hm with
  | insert h =>
    obtain ⟨id, hw, hkey⟩ := hi.solo.at_insert h
    exact ⟨_, id, hw, hkey⟩
  | slotMiss h hmiss | delete h =>
    have := ring.advance_submits zc _ ▸ congrArg ring.RunPc.submits hrun
    cases this
  | post h | ack hfree h | completer h | getPooled h hid hack hr | getFresh h hid hack
  | setId h | setRes h | setFlags h | send h hroom | wake h hdone | readRes h | readFlags h
  | put h => exact hstill hrun rfl
  | _ => cases hrun

theorem CallInv.submitted_move (hi : CallInv zs zc start s) (hm : ring.Move zc s.ring a r') :
    ∀ x ∈ s.sq.hist.executed, x.2.userData ∈ r'.delivered ∨
      (r'.inflight.lookup x.2.userData).isSome := by
  have hold := hi.submitted
  cases hm with
  | insert h =>
    intro x hx
    refine (hold x hx).imp_right fun hkey => ?_
    rw [AList.lookup_isSome] at hkey ⊢
    exact (AList.mem_insert _).mpr (Or.inr hkey)
  | signal h hcap =>
    intro x hx
    exact (hold x hx).imp_left fun hdel => List.mem_append_left _ hdel
  | @delete k r cqe h =>
    intro x hx
    have hwork : s.ring.run.work = .delete r cqe := by rw [h]; rfl
    obtain ⟨hid, hdel⟩ := hi.solo.deleting hwork
    by_cases hsame : x.2.userData = cqe.userData
    · rw [hsame]
      exact Or.inl hdel
    · refine (hold x hx).imp_right fun hkey => ?_
      simp only [hid]
      rwa [AList.lookup_erase_ne hsame]
  | _ => exact hold

theorem CallInv.results_move (hi : CallInv zs zc start s) (hm : ring.Move zc s.ring a r')
    (hstart : ∀ id pick, a ≠ .complete () id pick) :
    r'.results.map (·.1) ++ ((r'.callers ()).holds.map (·.2)).toList = r'.asked ∧
      r'.asked = s.ring.asked := by
  have hold := hi.results
  cases hm with
  | getPooled | getFresh => exact absurd rfl (hstart _ _)
  | put h =>
    rw [h] at hold
    refine ⟨?_, rfl⟩
    rw [← hold]
    simp [ring.Caller.holds]
  | setId h | setRes h | setFlags h | send h hroom | wake h hdone | readRes h | readFlags h =>
    rw [h] at hold
    refine ⟨?_, rfl⟩
    rw [← hold]
    simp [ring.Caller.holds]
  | _ => exact ⟨hold, rfl⟩

theorem CallInv.idle_move (hi : CallInv zs zc start s) (hm : ring.Move zc s.ring a r')
    (hstart : ∀ id pick, a ≠ .complete () id pick) (hc : s.committed ≠ none) :
    r'.callers () = .idle := by
  have hidle := hi.idle hc
  cases hm with
  | getPooled | getFresh => exact absurd rfl (hstart _ _)
  | setId h | setRes h | setFlags h | send h hroom | wake h hdone | readRes h | readFlags h
  | put h =>
    rw [hidle] at h
    cases h
  | _ => exact hidle

/-- A step of the ring that neither starts a call nor is the `Enter`. -/
theorem CallInv.ring_step (hi : CallInv zs zc start s) (hok : SoloStep s.ring a)
    (hm : ring.Move zc s.ring a r') (hstart : ∀ id pick, a ≠ .complete () id pick)
    (hrun : a = .run → s.ring.run ≠ .enter)
    (hpost : ∀ cqe ∈ r'.queue.posted, ∃ x ∈ s.sq.hist.executed, x.2.userData = cqe.userData) :
    CallInv zs zc start { s with ring := r' } := by
  have hsame := ring.unsubmitted_move hm hstart hrun
  have hpending : { s with ring := r' }.pending = s.pending := by
    simp only [State.pending, hsame]
  obtain ⟨hresults, hasked⟩ := hi.results_move hm hstart
  exact {
    solo := ring.soloInv_move hi.solo hok hm
    idx := hi.idx
    fits := hi.fits
    filled := ⟨hi.filled.length, hi.filled.entry⟩
    asked := by rw [hasked]; exact hi.asked
    results := hresults
    idle := hi.idle_move hm hstart
    loaded := fun hp => hi.loaded (hpending ▸ hp)
    ready := fun hp => hi.ready (hpending ▸ hp)
    waits := fun hp => hi.waits_move hm (hpending ▸ hp) hstart
    entering := hi.entering_move hm hstart
    submitted := hi.submitted_move hm
    posted := hpost
    lost := fun hl => by
      obtain ⟨hc, hu, r, id, hw⟩ := hi.lost hl
      have hp : s.pending = true := by simp [State.pending, show s.refused = true from hl]
      exact ⟨hc, hsame.trans hu, r, id, hi.still_waits hm hp hw hstart⟩ }

end Steps

/-! ## The calls and the kernel -/

section Calls

variable {zs zc : Size} {start : UInt64} {s s' : State}

theorem ringStep_eq {a : ring.Act Unit} (h : s.ringStep zc a = some s') :
    ∃ r', ring.Move zc s.ring a r' ∧ s' = { s with ring := r' } := by
  obtain ⟨r', hr, rfl⟩ := Option.map_eq_some_iff.mp h
  exact ⟨r', ring.step_move hr, rfl⟩

/-- A call commits its entry. -/
theorem CallInv.call (hi : CallInv zs zc start s) {c : Prepare} (hok : Orderly s (.call c))
    (h : step zs zc s (.call c) = some s') : CallInv zs zc start s' := by
  simp only [step] at h
  split at h
  case isFalse => cases h
  case isTrue hguard =>
    obtain ⟨hc, hidle, hop⟩ := hguard
    obtain ⟨ws, hws, h⟩ := Option.bind_eq_some_iff.mp h
    obtain ⟨q, hq, rfl⟩ := Option.map_eq_some_iff.mp h
    have hp : s.pending = false := by
      by_contra hp
      rcases hi.waits (Bool.not_eq_false _ ▸ hp) with h1 | h1 | ⟨r, id, h1⟩
      · exact h1 hc
      · rw [hidle] at h1
        cases h1
      · rw [hidle] at h1
        cases h1
    obtain ⟨hready, hall⟩ := hi.ready hp
    obtain ⟨q', hq', hloaded, hprep, hexec⟩ := hready.submit () ⟨ws, 0, 0, 0⟩
    obtain rfl : q' = q := Option.some.inj (hq'.symm.trans hq)
    have hlen : s.sq.hist.executed.length = s.calls.length := by
      rw [← hall]
      exact hi.filled.length
    have hid : s.idx + 1 = nth start (s.calls.length + 1) := by rw [hi.idx, nth_succ]
    exact {
      solo := hi.solo
      idx := by rw [hid, List.length_append]; rfl
      fits := by
        have := hok
        simp only [Orderly, hi.idx, nth_toNat hi.fits] at this
        rw [List.length_append, List.length_singleton]
        omega
      filled := hi.filled.snoc hop (hid ▸ hws) (by rw [hprep, ← hlen]; rfl) rfl
      asked := by
        have hasked := hi.asked
        rw [hc, Option.toList_none, List.append_nil] at hasked
        rw [List.length_append, List.length_singleton, List.range_succ, List.map_append, ← hasked,
          hid]
        rfl
      results := hi.results
      idle := fun _ => hidle
      loaded := fun _ => ⟨_, by rw [hexec]; exact hloaded, by rw [hprep, hexec, hall]; rfl⟩
      ready := nofun
      waits := fun _ => Or.inl nofun
      entering := hi.entering
      submitted := by rw [hexec]; exact hi.submitted
      posted := by rw [hexec]; exact hi.posted
      lost := fun hl => by
        obtain ⟨-, -, r, id, hw⟩ := hi.lost hl
        rw [hidle] at hw
        cases hw }

/-- A call hands its id to `complete`. -/
theorem CallInv.complete (hi : CallInv zs zc start s) {pick : Option Nat}
    (h : step zs zc s (.complete pick) = some s') : CallInv zs zc start s' := by
  obtain ⟨id, hc, h⟩ := Option.bind_eq_some_iff.mp h
  obtain ⟨r', hm, rfl⟩ := ringStep_eq h
  have hidle : s.ring.callers () = .idle := hi.idle (by rw [hc]; nofun)
  have hasked := hi.asked
  rw [hc] at hasked
  have hid : id ≠ 0 := by
    have hmem : id ∈ (List.range s.calls.length).map fun k => nth start (k + 1) := by
      rw [← hasked]
      simp
    obtain ⟨k, hk, rfl⟩ := List.mem_map.mp hmem
    have hlt := List.mem_range.mp hk
    have hfits := hi.fits
    have hnat : (nth start (k + 1)).toNat = start.toNat + (k + 1) := nth_toNat (by omega)
    intro hzero
    rw [hzero] at hnat
    simp at hnat
  have hpending : s.pending = true := by simp [State.pending, hc]
  have hnew : ∃ r, r'.callers () = .setId r id ∧ r'.asked = s.ring.asked ++ [id] ∧
      r'.results = s.ring.results ∧ r'.run = s.ring.run ∧ r'.inflight = s.ring.inflight ∧
      r'.delivered = s.ring.delivered ∧ r'.queue = s.ring.queue := by
    cases hm with
    | @getPooled _ _ r h hid hack hr => exact ⟨r, by simp, rfl, rfl, rfl, rfl, rfl, rfl⟩
    | getFresh h hid hack => exact ⟨s.ring.fresh, by simp, rfl, rfl, rfl, rfl, rfl, rfl⟩
  obtain ⟨r, hcaller, hasked', hresults, hrun, hinflight, hdelivered, hqueue⟩ := hnew
  have hunsub : r'.unsubmitted = true := by
    simp [ring.State.unsubmitted, hcaller, ring.Caller.early]
  have hnot : s.ring.run ≠ .enter := by
    intro henter
    obtain ⟨r1, id1, hw, -⟩ := hi.entering henter
    rw [hidle] at hw
    cases hw
  exact {
    solo := ring.soloInv_move (a := .complete () id pick) hi.solo hid hm
    idx := hi.idx
    fits := hi.fits
    filled := ⟨hi.filled.length, hi.filled.entry⟩
    asked := by rw [hasked', Option.toList_none, List.append_nil]; exact hasked
    results := by
      have hold := hi.results
      rw [hidle] at hold
      rw [hresults, hcaller, hasked', ← hold]
      simp [ring.Caller.holds]
    idle := fun h => absurd rfl h
    loaded := fun _ => hi.loaded hpending
    ready := fun h => by simp [State.pending, hunsub] at h
    waits := fun _ => Or.inr (Or.inl (by rw [hcaller]; rfl))
    entering := fun h => absurd (hrun ▸ h) hnot
    submitted := by rw [hdelivered, hinflight]; exact hi.submitted
    posted := by rw [hqueue]; exact hi.posted
    lost := fun hl => by
      obtain ⟨hnone, -⟩ := hi.lost hl
      rw [hc] at hnone
      cases hnone }

/-- At its `Enter`, `Ring.run` asks for the entry of the call, and only that is in the queue. -/
theorem CallInv.at_enter (hi : CallInv zs zc start s) (hrun : s.ring.run = .enter) :
    s.enterCall.toSubmit = 1 ∧ s.committed = none ∧ s.refused = false ∧
      { s.ring with run := .loadHead }.unsubmitted = false ∧
      ∃ r e, s.ring.callers () = .wait r (nth start s.calls.length) ∧
        s.ring.inflight.lookup (nth start s.calls.length) = some r ∧
        Loaded zs s.sq s.sq.hist.executed.length e ∧
        s.sq.hist.prepared = s.sq.hist.executed ++ [(s.sq.hist.executed.length % zs.slots, e)] := by
  obtain ⟨r, id, hw, hkey⟩ := hi.entering hrun
  obtain ⟨hone, hunsub⟩ := hi.solo.at_enter hw hkey
  obtain ⟨hnone, rfl, -⟩ := hi.last_id hw
  have hsub : s.ring.unsubmitted = true := by
    simp [ring.State.unsubmitted, hrun, ring.RunPc.submits]
  have hrefused : s.refused = false := by
    by_contra hne
    obtain ⟨-, hnot, -⟩ := hi.lost (Bool.not_eq_false _ ▸ hne)
    rw [hsub] at hnot
    cases hnot
  obtain ⟨e, hloaded, hprep⟩ := hi.loaded (by simp [State.pending, hsub])
  exact ⟨hone, hnone, hrefused, hunsub, r, e, hw, hkey, hloaded, hprep⟩

theorem ringStep_enter (hrun : s.ring.run = .enter) :
    s.ringStep zc .run = some { s with ring := { s.ring with run := .loadHead } } := by
  simp only [State.ringStep, ring.step, ring.runStep, hrun, Option.map_some]

/-- The kernel takes the entry of the call. -/
theorem CallInv.enter (hi : CallInv zs zc start s) (hz : 2 ≤ zs.slots)
    (h : step zs zc s .enter = some s') : CallInv zs zc start s' := by
  simp only [step, Option.ite_none_right_eq_some] at h
  obtain ⟨hrun, h⟩ := h
  obtain ⟨q, hq, h⟩ := Option.bind_eq_some_iff.mp h
  obtain ⟨hone, hnone, hrefused, hunsub, r, e, hw, hkey, hloaded, hprep⟩ := hi.at_enter hrun
  rw [(submit_queue.opStep_quiet zs hloaded.quiet _).1, submit_queue.afterOp, hone,
    hloaded.consumable_one hz] at hq
  cases hq
  rw [ringStep_enter (s := { s with sq := submit_queue.consume zs 1 s.sq }) hrun] at h
  cases h
  obtain ⟨hexec, hready⟩ := hloaded.consume_one
  obtain ⟨-, -, -, -, -, hprep', -⟩ := submit_queue.consume_hist zs 1 s.sq
  have hpending : ({ s with
      sq := submit_queue.consume zs 1 s.sq
      ring := { s.ring with run := .loadHead } } : State).pending = false := by
    simp only [State.pending, hnone, hrefused, hunsub]
    rfl
  have hid : e.userData = nth start s.calls.length := by
    have hlen := hi.filled.length
    rw [hprep, List.length_append, List.length_singleton] at hlen
    obtain ⟨-, ws, e', hws, hat⟩ := hi.filled.entry s.sq.hist.executed.length _
      (List.getElem?_eq_getElem (by omega))
    rw [hprep, List.getElem?_append_right (Nat.le_refl _), Nat.sub_self] at hat
    cases hat
    rw [← hlen]
    exact filled_userData e' hws
  exact {
    solo := ring.soloInv_move (a := .run) hi.solo trivial (.enter hrun)
    idx := hi.idx
    fits := hi.fits
    filled := ⟨by rw [hprep']; exact hi.filled.length, by rw [hprep']; exact hi.filled.entry⟩
    asked := hi.asked
    results := hi.results
    idle := hi.idle
    loaded := fun hp => by rw [hpending] at hp; cases hp
    ready := fun _ => by
      rw [hexec, hprep', List.length_append]
      exact ⟨hready, hprep⟩
    waits := fun hp => by rw [hpending] at hp; cases hp
    entering := fun h => by cases h
    submitted := by
      intro x hx
      rw [hexec] at hx
      rcases List.mem_append.mp hx with hx | hx
      · exact hi.submitted x hx
      · rw [List.mem_singleton.mp hx]
        right
        show (s.ring.inflight.lookup e.userData).isSome = true
        rw [hid, hkey]
        rfl
    posted := by
      intro cqe hcqe
      obtain ⟨x, hx, hxid⟩ := hi.posted cqe hcqe
      exact ⟨x, by rw [hexec]; exact List.mem_append_left _ hx, hxid⟩
    lost := fun hl => by
      rw [show s.refused = true from hl] at hrefused
      cases hrefused }

/-- An `Enter` that fails leaves the queue as it is. -/
theorem failed_enter_solo {q : submit_queue.State Unit} (hq : submit_queue.Quiet q)
    (c : submit_queue.EnterCall) :
    run (submit_queue.step zs) q (failedEnterActs c) = some q := by
  obtain ⟨c', -, hlock⟩ := submit_queue.lock_solo zs hq () c
  apply run_append_of hlock
  have hpc : Function.update q.pc () .idle = q.pc := by rw [← hq.idle (), Function.update_eq_self]
  simp only [run_cons, run_nil, submit_queue.step, submit_queue.stepPc, Option.bind_some,
    Function.update_self, submit_queue.State.goto, Function.update_idem, hpc]
  rw [← hq.entered]

/-- The `Enter` for the entry of the call fails, and no later one asks for it. -/
theorem CallInv.enterFails (hi : CallInv zs zc start s)
    (h : step zs zc s .enterFails = some s') : CallInv zs zc start s' := by
  simp only [step, Option.ite_none_right_eq_some] at h
  obtain ⟨hrun, h⟩ := h
  obtain ⟨q, hq, h⟩ := Option.bind_eq_some_iff.mp h
  obtain ⟨-, hnone, -, hunsub, r, e, hw, hkey, hloaded, hprep⟩ := hi.at_enter hrun
  rw [failed_enter_solo hloaded.quiet] at hq
  cases hq
  rw [ringStep_enter (s := { s with refused := true }) hrun] at h
  cases h
  exact {
    solo := ring.soloInv_move (a := .run) hi.solo trivial (.enter hrun)
    idx := hi.idx
    fits := hi.fits
    filled := ⟨hi.filled.length, hi.filled.entry⟩
    asked := hi.asked
    results := hi.results
    idle := hi.idle
    loaded := fun _ => ⟨e, hloaded, hprep⟩
    ready := fun hp => by simp [State.pending] at hp
    waits := fun _ => Or.inr (Or.inr ⟨r, _, hw⟩)
    entering := fun h => by cases h
    submitted := hi.submitted
    posted := hi.posted
    lost := fun _ => ⟨hnone, hunsub, r, _, hw⟩ }

/-- What the kernel has taken and not completed is in flight. -/
theorem CallInv.in_flight (hi : CallInv zs zc start s) {k : Nat} {x : Nat × SubmitEntry}
    (hx : s.sq.hist.executed[k]? = some x)
    (hnew : x.2.userData ∉ s.ring.queue.posted.map (·.userData)) :
    (s.ring.inflight.lookup x.2.userData).isSome := by
  rcases hi.submitted x (List.mem_of_getElem? hx) with hdel | hkey
  · exact absurd (hi.solo.known _ hdel) hnew
  · exact hkey

/-- The kernel completes an entry that it has taken. -/
theorem CallInv.answer (hi : CallInv zs zc start s) {k : Nat} {res : Int32} {flags : UInt32}
    (h : step zs zc s (.answer k res flags) = some s') : CallInv zs zc start s' := by
  obtain ⟨x, hx, h⟩ := Option.bind_eq_some_iff.mp h
  obtain ⟨r', hm, rfl⟩ := ringStep_eq h
  cases hm with
  | @post cqe q hpost =>
    obtain ⟨⟨-, hnew⟩, hq⟩ := completion_queue.post_eq hpost
    refine hi.ring_step (a := .post ⟨x.2.userData, res, flags⟩) (hi.in_flight hx hnew)
      (.post hpost) (fun _ _ => nofun) nofun ?_
    rw [hq]
    intro c hc
    rcases List.mem_append.mp hc with hc | hc
    · exact hi.posted c hc
    · rw [List.mem_singleton.mp hc]
      exact ⟨x, List.mem_of_getElem? hx, rfl⟩

theorem callInv_step {a : Act} (hz : 2 ≤ zs.slots) (hi : CallInv zs zc start s)
    (hok : Orderly s a) (h : step zs zc s a = some s') : CallInv zs zc start s' := by
  cases a with
  | call c => exact hi.call hok h
  | complete pick => exact hi.complete h
  | enter => exact hi.enter hz h
  | enterFails => exact hi.enterFails h
  | answer k res flags => exact hi.answer h
  | caller =>
    obtain ⟨r', hm, rfl⟩ := ringStep_eq h
    refine hi.ring_step (a := .caller ()) hok hm (fun _ _ => nofun) nofun ?_
    cases hm <;> exact hi.posted
  | takeCompletion =>
    obtain ⟨r', hm, rfl⟩ := ringStep_eq h
    refine hi.ring_step (a := .takeCompletion) trivial hm (fun _ _ => nofun) nofun ?_
    cases hm
    exact hi.posted
  | takeRetry =>
    obtain ⟨r', hm, rfl⟩ := ringStep_eq h
    refine hi.ring_step (a := .takeRetry) trivial hm (fun _ _ => nofun) nofun ?_
    cases hm
    exact hi.posted
  | run =>
    simp only [step, Option.ite_none_left_eq_some] at h
    obtain ⟨hrun, h⟩ := h
    obtain ⟨r', hm, rfl⟩ := ringStep_eq h
    refine hi.ring_step (a := .run) trivial hm (fun _ _ => nofun) (fun _ => hrun) ?_
    cases hm <;> exact hi.posted

end Calls

/-! ## The law -/

/-- Each call gets its own answer:
- the `k`-th entry is filled by the `k`-th call with the `k`-th id;
- the kernel has taken the entries in order, each once;
- what the `k`-th call returned is made of the one completion of the `k`-th entry;
- the queue has room for the completion of whatever the kernel has taken. -/
structure OwnAnswers (zs zc : Size) (start : UInt64) (s : State) : Prop where
  filled : Filled zs start s
  executed : s.sq.hist.executed <+: s.sq.hist.prepared
  once : (s.ring.queue.posted.map (·.userData)).Nodup
  returned : ∀ (k : Nat) ret, s.returned[k]? = some ret → ∃ c op slot e cqe,
    s.calls[k]? = some c ∧ operation c = some op ∧ s.sq.hist.executed[k]? = some (slot, e) ∧
    cqe ∈ s.ring.queue.posted ∧ cqe.userData = e.userData ∧
    ret = some (op.returns (cqe.res, cqe.flags))
  room : ∀ (k : Nat) slot e res flags, s.sq.hist.executed[k]? = some (slot, e) →
    e.userData ∉ s.ring.queue.posted.map (·.userData) →
    (step zs zc s (.answer k res flags)).isSome

section Law

variable {zs zc : Size} {start : UInt64} {s : State}

/-- The `k`-th result is that of the `k`-th id. -/
theorem CallInv.result_id (hi : CallInv zs zc start s) {k : Nat} {x : UInt64 × Int32 × UInt32}
    (hx : s.ring.results[k]? = some x) : k < s.calls.length ∧ x.1 = nth start (k + 1) := by
  have hids : s.ring.results.map (·.1) <+:
      (List.range s.calls.length).map fun k => nth start (k + 1) := by
    rw [← hi.asked, ← hi.results, List.append_assoc]
    exact List.prefix_append ..
  obtain ⟨rest, hrest⟩ := hids
  have hat : ((List.range s.calls.length).map fun k => nth start (k + 1))[k]? = some x.1 := by
    rw [← hrest, List.getElem?_append_left
      (by rw [List.length_map]; exact (List.getElem?_eq_some_iff.mp hx).1), List.getElem?_map, hx]
    rfl
  obtain ⟨hlt, hval⟩ := List.getElem?_eq_some_iff.mp hat
  rw [List.length_map, List.length_range] at hlt
  rw [List.getElem_map, List.getElem_range] at hval
  exact ⟨hlt, hval.symm⟩

theorem ownAnswers_of_callInv (hi : CallInv zs zc start s) : OwnAnswers zs zc start s where
  filled := hi.filled
  executed := hi.executed_prefix
  once := hi.solo.posted.ids
  returned := by
    intro k ret hret
    obtain ⟨c, x, hc, hx, rfl⟩ := List.getElem?_zipWith_eq_some.mp hret
    obtain ⟨hlt, hid⟩ := hi.result_id hx
    obtain ⟨hop, -⟩ := hi.filled.entry k c hc
    obtain ⟨op, hop⟩ := Option.isSome_iff_exists.mp hop
    have hright := hi.solo.returned x (List.mem_of_getElem? hx)
    obtain ⟨y, hy, hyid⟩ := hi.posted _ hright
    obtain ⟨j, hj⟩ := List.getElem?_of_mem hy
    obtain ⟨hjlt, hjid⟩ := hi.executed_userData hj
    obtain rfl : j = k := hi.index_unique hjlt hlt (by rw [← hjid, hyid]; exact hid)
    exact ⟨c, op, y.1, y.2, _, hc, hop, hj, hright, hyid.symm, by rw [hop]; rfl⟩
  room := by
    intro k slot e res flags hx hnew
    have hroom := hi.solo.room (hi.in_flight hx hnew) hnew
    simp only [step, hx, Option.bind_some, State.ringStep, ring.step, Option.isSome_map,
      completion_queue.post, if_pos hnew, completion_queue.publish]
    rw [completion_queue.CompletionQueue.publish, hroom, if_pos zc.slots_pos]
    rfl

end Law

/-- A call up to the `Enter` for its entry. -/
def askActs (c : Prepare) (pick : Option Nat) : List Act :=
  [.call c, .complete pick, .caller, .caller, .caller, .caller, .takeCompletion, .run, .enter]

/-- The second call sets the id of the request of the first one before `onEntry` has used it.
It returns the error of the first call although its entry has been completed without one, and
a third call returns while its entry is still in the queue. -/
theorem a_request_renamed_early_answers_other_calls :
    (run (step ⟨1, by decide⟩ ⟨1, by decide⟩) (init 0)
        (askActs .nop none ++ Act.answer 0 (-5) 0 :: List.replicate 6 .run ++
          List.replicate 4 Act.caller ++ [Act.call (.fsync 3 0), .complete (some 0), .caller] ++
          List.replicate 5 Act.run ++ List.replicate 3 Act.caller ++
          [Act.takeCompletion, .run, .enter, .answer 1 0 0] ++ List.replicate 10 Act.run ++
          Act.takeRetry :: List.replicate 8 .run ++ List.replicate 4 Act.caller ++
          [Act.call (.close 3), .complete (some 0)] ++ List.replicate 8 Act.caller)).map
        (fun s => (s.returned, s.sq.hist.executed.length, s.sq.hist.prepared.length)) =
      some ([some ⟨none, some 5⟩, some ⟨none, some 5⟩, some ⟨none, none⟩], 2, 3) := by
  decide

end iouring.blocking
