-- `Ring.run` next to one caller always comes back to its select: none of its sends blocks and
-- every scan ends. A token waits for it there as long as something is in flight, and the scan
-- that starts after the answer was posted delivers it.
import Iouring.OneCaller

open counter machine
open iouring.completion_queue (CompletionEntry)

namespace iouring.ring

variable {z : Size} {s s' : State Unit} {a : Act Unit}

/-! ## The way back to the select -/

/-- The looks that a scan has left at most, the present one included. -/
def Scan.left (z : Size) (k : Scan) : Nat :=
  let last := (k.tail &&& z.mask).toNat
  if k.second then last - k.i else z.slots - k.i + last + 1

/-- The steps that `Ring.run` has left to its select at most. -/
def RunPc.rank (z : Size) : RunPc → Nat
  | .select => 0
  | .sendRetry => 1
  | .lenInflight => 2
  | .storeHead _ => 3
  | .delete k _ _ => 4 + 5 * k.left z
  | .done k _ _ => 5 + 5 * k.left z
  | .setFlags k _ _ => 6 + 5 * k.left z
  | .setRes k _ _ => 7 + 5 * k.left z
  | .slot k => 8 + 5 * k.left z
  | .loadTail _ => 9 + 10 * z.slots
  | .loadHead => 10 + 10 * z.slots
  | .enter => 11 + 10 * z.slots
  | .insert _ => 12 + 10 * z.slots
  | .poll => 13 + 10 * z.slots

theorem advance_rank (z : Size) (k : Scan) : (Scan.advance z k).rank z < 4 + 5 * k.left z := by
  unfold Scan.advance Scan.left
  dsimp only
  split_ifs <;> simp only [RunPc.rank, Scan.left, if_true, if_false, Bool.false_eq_true, *] <;>
    omega

theorem start_left (z : Size) (head tail : UInt32) :
    (Scan.start z head tail).left z ≤ 2 * z.slots := by
  have hlast := z.and_mask_lt tail
  simp only [Scan.start, Scan.left, Bool.false_eq_true, if_false]
  omega

theorem rank_move (hm : Move z s .run s') : s'.run.rank z < s.run.rank z := by
  cases hm with
  | @loadTail head h =>
    have := start_left z head s.queue.cq.tail
    simp only [h, RunPc.rank]
    omega
  | @slotMiss k h hmiss =>
    have hlt := advance_rank z { k with seen := false }
    have hrank : s.run.rank z = 8 + 5 * k.left z := by rw [h]; rfl
    have hleft : Scan.left z { k with seen := false } = k.left z := rfl
    rw [hrank]
    dsimp only
    omega
  | @slotHit k r h hhit =>
    have hleft : ∀ n, Scan.left z { k with seenIdx := n } = k.left z := fun _ => rfl
    simp only [h, RunPc.rank, hleft]
    omega
  | @delete k r cqe h =>
    have := advance_rank z k
    simpa only [h, RunPc.rank] using this
  | pollNone h | pollTake h | insert h | enter h | loadHead h | giveRes h | giveFlags h
  | signal h | storeHead h | someInflight h | noneInflight h | sendRetry h =>
    simp only [h, RunPc.rank]
    omega

/-! ## The tokens -/

/-- The token that `Ring.run` sends to itself is there exactly while it is at its select and
something is in flight. The request of a call that waits has a token once it is delivered. -/
structure ReturnInv (s : State Unit) : Prop where
  spent : s.run ≠ .select ∨ s.inflight.entries = [] → s.retry = 0
  kept : s.run = .select → s.inflight.entries ≠ [] → s.retry = 1
  sending : s.run = .sendRetry → s.inflight.entries ≠ []
  signalled : ∀ r id, s.callers () = .wait r id → id ∈ s.delivered → (s.heap r).done ≠ 0

theorem returnInv_init : ReturnInv (init Unit) where
  spent := fun _ => rfl
  kept := fun _ h => absurd rfl h
  sending := nofun
  signalled := nofun

/-- What keeps away from the loop of `Ring.run`. -/
theorem ReturnInv.beside (hi : ReturnInv s) (hrun : s'.run = s.run) (hretry : s'.retry = s.retry)
    (hinflight : s'.inflight = s.inflight)
    (hsig : ∀ r id, s'.callers () = .wait r id → id ∈ s'.delivered → (s'.heap r).done ≠ 0) :
    ReturnInv s' where
  spent := by rw [hrun, hretry, hinflight]; exact hi.spent
  kept := by rw [hrun, hretry, hinflight]; exact hi.kept
  sending := by rw [hrun, hinflight]; exact hi.sending
  signalled := hsig

/-- A step inside the loop, up to the length of the map. -/
theorem ReturnInv.inside (hi : ReturnInv s) (hrun : s.run ≠ .select) (hretry : s'.retry = s.retry)
    (hsel : s'.run ≠ .select) (hsend : s'.run ≠ .sendRetry)
    (hsig : ∀ r id, s'.callers () = .wait r id → id ∈ s'.delivered → (s'.heap r).done ≠ 0) :
    ReturnInv s' where
  spent := fun _ => by rw [hretry]; exact hi.spent (Or.inl hrun)
  kept := fun h => absurd h hsel
  sending := fun h => absurd h hsend
  signalled := hsig

theorem advance_inside (z : Size) (k : Scan) :
    Scan.advance z k ≠ .select ∧ Scan.advance z k ≠ .sendRetry := by
  have hloaded := (advance_loaded z k).1
  constructor <;> intro h <;> rw [h] at hloaded <;> cases hloaded

/-- A write to a field other than `done`. -/
theorem ReturnInv.signalled_update (hi : ReturnInv s) {r0 : Nat} {q : CompletionRequest}
    (hq : q.done = (s.heap r0).done) (r : Nat) (id : UInt64) (hw : s.callers () = .wait r id)
    (hdel : id ∈ s.delivered) : (Function.update s.heap r0 q r).done ≠ 0 := by
  rw [update_same (f := CompletionRequest.done) hq]
  exact hi.signalled r id hw hdel

theorem signalled_signal (hs : SoloInv z s) (hi : ReturnInv s) {k : Scan} {r0 : Nat}
    {cqe : CompletionEntry} (h : s.run = .done k r0 cqe) (r : Nat) (id : UInt64)
    (hw : s.callers () = .wait r id) (hdel : id ∈ s.delivered ++ [cqe.userData]) :
    (Function.update s.heap r0 { s.heap r0 with done := (s.heap r0).done + 1 } r).done ≠ 0 := by
  by_cases hr : r = r0
  · rw [hr, Function.update_self]
    exact Nat.succ_ne_zero _
  · rw [Function.update_of_ne hr]
    rcases List.mem_append.mp hdel with hdel | hdel
    · exact hi.signalled r id hw hdel
    · -- the entry that is delivered is that of the request it is given to
      exfalso
      have hgives : s.run.work.gives = some (r0, cqe) := by rw [h]; rfl
      obtain ⟨-, hkey⟩ := hs.giving hgives
      rcases hs.keys hkey with ⟨cqe', hwork, -⟩ | ⟨-, -, g, hw'⟩
      · rw [h] at hwork
        cases hwork
      · rw [hw] at hw'
        cases hw'
        exact hr rfl

theorem returnInv_move (hs : SoloInv z s) (hi : ReturnInv s) (hm : Move z s a s') :
    ReturnInv s' := by
  cases hm with
  | post h | ack hfree h | completer h => exact hi.beside rfl rfl rfl hi.signalled
  | getPooled h hid hack hr | getFresh h hid hack | setId h | setRes h | setFlags h | wake h hdone
  | readRes h | readFlags h | put h => exact hi.beside rfl rfl rfl (by simp)
  | @send g r0 id0 h hroom =>
    refine hi.beside rfl rfl rfl fun r id hw hdel => ?_
    -- a request that is only now sent is not known yet
    have hok := hs.calls g
    rw [h] at hok
    simp only [Function.update_self, Caller.wait.injEq] at hw
    exact absurd (hw.2 ▸ hdel) hok.1.2
  | @takeCompletion r rest h hc =>
    have hnone : s.inflight.entries = [] := by
      apply hs.unseen_first (hs.queued r (by rw [hc]; exact List.mem_cons_self))
      rw [h]
      nofun
    exact ⟨fun _ => hi.spent (Or.inr hnone), nofun, nofun, hi.signalled⟩
  | takeRetry h hretry =>
    have hsome : s.inflight.entries ≠ [] := by
      intro hnone
      rw [hi.spent (Or.inr hnone)] at hretry
      cases hretry
    refine ⟨fun _ => ?_, nofun, nofun, hi.signalled⟩
    rw [hi.kept h hsome]
  | pollNone h | pollTake h | insert h | enter h | loadHead h | loadTail h | slotHit h
  | storeHead h => exact hi.inside (by rw [h]; nofun) rfl nofun nofun hi.signalled
  | giveRes h | giveFlags h =>
    exact hi.inside (by rw [h]; nofun) rfl nofun nofun (hi.signalled_update rfl)
  | signal h hcap =>
    exact hi.inside (by rw [h]; nofun) rfl nofun nofun (signalled_signal hs hi h)
  | slotMiss h hmiss | delete h =>
    exact hi.inside (by rw [h]; nofun) rfl (advance_inside z _).1 (advance_inside z _).2
      hi.signalled
  | someInflight h hlen =>
    refine ⟨fun _ => hi.spent (Or.inl (by rw [h]; nofun)), nofun, fun _ => ?_, hi.signalled⟩
    exact List.ne_nil_of_length_pos hlen
  | noneInflight h hlen =>
    have hnone : s.inflight.entries = [] := List.eq_nil_of_length_eq_zero (by omega)
    exact ⟨fun _ => hi.spent (Or.inl (by rw [h]; nofun)), fun _ hne => absurd hnone hne, nofun,
      hi.signalled⟩
  | sendRetry h hroom =>
    have hsome := hi.sending h
    have hspent := hi.spent (Or.inl (by rw [h]; nofun))
    refine ⟨fun hor => ?_, fun _ _ => ?_, nofun, hi.signalled⟩
    · exact (hor.elim (fun hne => hne rfl) hsome).elim
    · simp only [hspent]

/-- Away from its select, `Ring.run` is never blocked. -/
theorem run_goes_on (hs : SoloInv z s) (hi : ReturnInv s) (hrun : s.run ≠ .select) :
    ∃ s', step z s .run = some s' := by
  rw [← Option.isSome_iff_exists]
  unfold step runStep
  cases h : s.run with
  | select => exact absurd h hrun
  | poll => cases hc : s.completions <;> rfl
  | done k r cqe =>
    have hdone : (s.heap r).done < doneCap := by
      by_contra hne
      have hsome : (s.heap r).done ≠ 0 := by
        rw [doneCap] at hne
        omega
      have := (hs.token hsome).1
      rw [this, doneCap] at hne
      omega
    simp [hdone]
  | lenInflight => dsimp only; split_ifs <;> rfl
  | sendRetry =>
    have hroom : s.retry < retryCap := by
      rw [hi.spent (Or.inl (by rw [h]; nofun))]
      exact Nat.zero_lt_two
    simp [hroom]
  | _ => rfl

/-! ## The way to the end of a call -/

/-- The steps that a call has left. -/
def Caller.rank : Caller → Nat
  | .idle => 0
  | .put _ _ _ _ => 1
  | .readFlags _ _ _ => 2
  | .readRes _ _ => 3
  | .wait _ _ => 4
  | .send _ _ => 5
  | .setFlags _ _ => 6
  | .setRes _ _ => 7
  | .setId _ _ => 8

theorem rank_caller (hm : Move z s (.caller ()) s') :
    (s'.callers ()).rank < (s.callers ()).rank := by
  cases hm with
  | setId h | setRes h | setFlags h | send h | wake h | readRes h | readFlags h | put h =>
    simp [h, Caller.rank]

/-- A call is blocked only while it waits for its token. -/
theorem caller_goes_on (hs : SoloInv z s) (hcall : s.callers () ≠ .idle)
    (hwait : ∀ r id, s.callers () = .wait r id → (s.heap r).done ≠ 0) :
    ∃ s', step z s (.caller ()) = some s' := by
  rw [← Option.isSome_iff_exists]
  unfold step callerStep
  dsimp only
  cases h : s.callers () with
  | idle => exact absurd h hcall
  | send r id =>
    -- what is in the channel belongs to a call that waits
    have hnone : s.completions = [] := by
      by_contra hne
      obtain ⟨r', hr'⟩ := List.exists_mem_of_ne_nil _ hne
      obtain ⟨g, id', hw, -⟩ := hs.queued r' hr'
      rw [h] at hw
      cases hw
    simp [hnone, z.slots_pos]
  | wait r id => simp [Nat.pos_of_ne_zero (hwait r id h)]
  | _ => rfl

/-! ## The answer that a scan finds -/

/-- What `Ring.run` looks at next, or is about to deliver, is the answer for `id`. -/
def RunPc.finds (entries : Nat → CompletionEntry) (id : UInt64) : RunPc → Prop
  | .poll | .loadHead | .loadTail _ | .setRes _ _ _ | .setFlags _ _ _ | .done _ _ _ => True
  | .slot k => (entries k.i).userData = id
  | _ => False

/-- The answer for `id` has been delivered, or is about to be. -/
def Finds (id : UInt64) (s : State Unit) : Prop :=
  id ∈ s.delivered ∨
    (s.inflight.lookup id).isSome ∧ id ∈ s.queue.posted.map (·.userData) ∧ s.completions = [] ∧
      s.run.finds s.queue.cq.entries id

/-- The answer for what is in flight is at `Head`. -/
theorem SoloInv.answer_at_head {id : UInt64} (hs : SoloInv z s) (hnew : id ∉ s.delivered)
    (hkey : (s.inflight.lookup id).isSome) (hposted : id ∈ s.queue.posted.map (·.userData))
    (hcount : s.run.counted = 0) :
    (s.queue.cq.entries (s.queue.cq.head &&& z.mask).toNat).userData = id := by
  obtain ⟨H, hw, -⟩ := hs.window
  obtain ⟨c, hc, rfl⟩ := List.mem_map.mp hposted
  obtain ⟨p, hp⟩ := List.getElem?_of_mem hc
  have hat : s.queue.idAt p = some c.userData := by
    rw [completion_queue.State.idAt, hp]
    rfl
  have hle : H ≤ p := by
    by_contra hlt
    rcases hw.below p (by omega) with hacked | ⟨id', hdel, hid⟩
    · obtain ⟨r, hr⟩ := Option.isSome_iff_exists.mp hkey
      exact hs.apart p hacked _ (hs.key_asked hr) hat
    · rw [hat] at hid
      cases hid
      exact hnew hdel
  have hlt := (List.getElem?_eq_some_iff.mp hp).1
  exact key_eq_of_single hs.single (hs.at_head hw (by omega) hcount) hkey

theorem finds_move {id : UInt64} (hs : SoloInv z s) (hf : Finds id s) (hm : Move z s .run s') :
    Finds id s' := by
  by_cases hdel : id ∈ s.delivered
  · left
    cases hm with
    | signal => exact List.mem_append_left _ hdel
    | _ => exact hdel
  · obtain ⟨hkey, hposted, hnone, hfinds⟩ := hf.resolve_left hdel
    cases hm with
    | pollTake h hc =>
      rw [hnone] at hc
      cases hc
    | @loadTail head h =>
      refine Or.inr ⟨hkey, hposted, hnone, ?_⟩
      have hhead := hs.loaded head (by rw [h]; rfl)
      rw [hhead]
      exact hs.answer_at_head hdel hkey hposted (by rw [h]; rfl)
    | slotMiss h hmiss =>
      rw [h] at hfinds
      rw [show _ = id from hfinds] at hmiss
      rw [hmiss] at hkey
      cases hkey
    | @signal k r cqe h hcap =>
      left
      have hgives : s.run.work.gives = some (r, cqe) := by rw [h]; rfl
      obtain ⟨-, hl⟩ := hs.giving hgives
      have hid := key_eq_of_single hs.single (by rw [hl]; rfl) hkey
      rw [hid]
      exact List.mem_append_right _ (List.mem_singleton_self _)
    | pollNone h | loadHead h | slotHit h | giveRes h | giveFlags h =>
      exact Or.inr ⟨hkey, hposted, hnone, trivial⟩
    | insert h | enter h | delete h | storeHead h | someInflight h | noneInflight h
    | sendRetry h =>
      rw [h] at hfinds
      exact hfinds.elim

end iouring.ring
