-- The head of the completion queue and its two writers: `onEntry` stores the
-- head it loaded plus the slots it counted, and `completer.run` adds the slots
-- that were acknowledged.
import Iouring.CompleteCalls

open counter machine
open iouring.completion_queue (CompletionEntry Posted Window)

namespace iouring.ring

/-! ## The count of a scan -/

/-- The index at which a scan starts. -/
def Scan.first (z : Size) (k : Scan) : Nat := (k.head &&& z.mask).toNat

/-- The index at which a scan ends. -/
def Scan.last (z : Size) (k : Scan) : Nat := (k.tail &&& z.mask).toNat

/-- How many slots a scan has looked at before the slot `i`. -/
def Scan.looked (z : Size) (k : Scan) : Nat :=
  if k.second then z.slots - k.first z + k.i else k.i - k.first z

/-- A scan that has counted some of the `looked` slots before the slot `i`; all
of them while the first loop has `seen` set. -/
structure AtSlot (z : Size) (k : Scan) (looked : Nat) : Prop where
  count_le : k.seenIdx.toNat ≤ looked
  range : k.i < z.slots
  first : k.second = false → k.first z ≤ k.i ∧ (k.last z < k.first z ∨ k.i ≤ k.last z)
  all : k.second = false → k.seen = true → k.seenIdx.toNat = looked
  second : k.second = true → k.last z < k.first z ∧ k.i < k.last z

/-- No scan looks at more slots than there are. -/
theorem AtSlot.looked_lt {z : Size} {k : Scan} {n : Nat} (h : AtSlot z k n) :
    k.looked z < z.slots := by
  have h1 := h.range
  have h2 := z.and_mask_lt k.head
  rw [Scan.looked]
  split
  · rename_i hs
    have := h.second hs
    simp only [Scan.first] at this ⊢
    omega
  · rename_i hs
    have := h.first (Bool.eq_false_iff.mpr hs)
    omega

theorem atSlot_start (z : Size) (head tail : UInt32) : AtSlot z (Scan.start z head tail) 0 where
  count_le := Nat.le_refl _
  range := z.and_mask_lt head
  first := fun _ => by
    simp only [Scan.start, Scan.first, Scan.last]
    omega
  all := fun _ _ => rfl
  second := nofun

/-- The end of a turn, with the slot `i` looked at: the scan goes on with the
next slot or stores the head. -/
theorem advance_cases {z : Size} {k : Scan} (h : AtSlot z k (k.looked z + 1)) :
    (∃ k', Scan.advance z k = .slot k' ∧ AtSlot z k' (k'.looked z) ∧ k'.head = k.head ∧
      k'.seenIdx = k.seenIdx) ∨
    ∃ k', Scan.advance z k = .storeHead k' ∧ k'.head = k.head ∧ k'.seenIdx = k.seenIdx := by
  have hrange := h.range
  have hcount := h.count_le
  have hfirst := z.and_mask_lt k.head
  have hlast := z.and_mask_lt k.tail
  unfold Scan.advance
  dsimp only
  split_ifs with hs h1 h2 h3 h4
  · obtain ⟨h5, h6⟩ := h.second hs
    refine Or.inl ⟨_, rfl, ⟨?_, by simp only; omega, ?_, ?_, fun _ => ⟨h5, h1⟩⟩, rfl, rfl⟩
    · simp only [Scan.looked, hs, if_true, Scan.first] at hcount ⊢
      omega
    · simp only [hs]
      nofun
    · simp only [hs]
      nofun
  · exact Or.inr ⟨_, rfl, rfl, rfl⟩
  · exact Or.inr ⟨_, rfl, rfl, rfl⟩
  · have hs : k.second = false := Bool.eq_false_iff.mpr hs
    obtain ⟨h4, h5⟩ := h.first hs
    have hlooked : ({ k with i := k.i + 1 } : Scan).looked z = k.looked z + 1 := by
      simp only [Scan.looked, hs, Scan.first] at h4 ⊢
      simp only [Bool.false_eq_true, if_false]
      omega
    refine Or.inl ⟨_, rfl, ⟨?_, h3, fun _ => ⟨?_, ?_⟩, fun _ hseen => ?_, ?_⟩, rfl, rfl⟩
    · rwa [hlooked]
    · simp only [Scan.first] at h4 ⊢
      omega
    · simp only [Scan.first, Scan.last] at h2 h5 ⊢
      omega
    · rw [hlooked]
      exact h.all hs hseen
    · simp only [hs]
      nofun
  · -- the first loop has run off the end of the entries
    have hs : k.second = false := Bool.eq_false_iff.mpr hs
    obtain ⟨h5, h6⟩ := h.first hs
    refine Or.inl ⟨_, rfl, ⟨?_, z.slots_pos, nofun, nofun, fun _ => ⟨?_, h4⟩⟩, rfl, rfl⟩
    · simp only [Scan.looked, hs, Scan.first, Bool.false_eq_true, if_false, if_true] at hcount h5 ⊢
      omega
    · simp only [Scan.first, Scan.last] at h2 h6 ⊢
      omega
  · exact Or.inr ⟨_, rfl, rfl, rfl⟩

/-- After a look at the slot `i`. -/
theorem AtSlot.miss {z : Size} {k : Scan} (h : AtSlot z k (k.looked z)) :
    AtSlot z { k with seen := false } (k.looked z + 1) :=
  ⟨Nat.le_succ_of_le h.count_le, h.range, h.first, nofun, h.second⟩

/-- What a match does to the count. -/
theorem AtSlot.hit {z : Size} {k k' : Scan} (h : AtSlot z k (k.looked z))
    (hk' : k' = { k with seenIdx := if k.seen then k.seenIdx + 1 else k.seenIdx }) :
    AtSlot z k' (k.looked z + 1) ∧
      k'.seenIdx.toNat = if k.seen then k.seenIdx.toNat + 1 else k.seenIdx.toNat := by
  have hlt := h.looked_lt
  have hcount := h.count_le
  have hsize := z.slots_lt
  have hidx : k'.seenIdx.toNat = if k.seen then k.seenIdx.toNat + 1 else k.seenIdx.toNat := by
    rw [hk']
    dsimp only
    split
    · rw [UInt32.toNat_add, UInt32.toNat_one]
      omega
    · rfl
  refine ⟨?_, hidx⟩
  subst hk'
  refine ⟨?_, h.range, h.first, fun hs hseen => ?_, h.second⟩
  · rw [hidx]
    split <;> omega
  · rw [hidx, if_pos hseen, h.all hs hseen]

variable {ι : Type}

/-! ## Which steps go wrong -/

/-- The second loop of `onEntry` counts a slot although a slot before it was
not counted. -/
def countsPastGap (z : Size) (s : State ι) : Act ι → Bool
  | .run =>
    match s.run with
    | .slot k => k.second && k.seen && decide (k.seenIdx.toNat ≠ k.looked z) &&
        (s.inflight.lookup (s.queue.cq.entries k.i).userData).isSome
    | _ => false
  | _ => false

/-- `onEntry` stores a head that it loaded before the completer moved it. -/
def storesStale (s : State ι) : Act ι → Bool
  | .run =>
    match s.run with
    | .storeHead k => decide (k.head ≠ s.queue.cq.head)
    | _ => false
  | _ => false

def OrderlyStep (z : Size) (s : State ι) (a : Act ι) : Prop :=
  CleanStep s a ∧ countsPastGap z s a = false ∧ storesStale s a = false

instance (z : Size) (s : State ι) (a : Act ι) : Decidable (OrderlyStep z s a) :=
  inferInstanceAs (Decidable (_ ∧ _ ∧ _))

/-! ## What a scan has released -/

/-- The entry at the position has been delivered. -/
def Delivered (s : State ι) (p : Nat) : Prop := ∃ id ∈ s.delivered, s.queue.idAt p = some id

theorem Delivered.mono {s s' : State ι} {p : Nat} (h : Delivered s p)
    (hdel : s.delivered ⊆ s'.delivered)
    (hat : ∀ id, s.queue.idAt p = some id → s'.queue.idAt p = some id) : Delivered s' p := by
  obtain ⟨id, hid, hp⟩ := h
  exact ⟨id, hdel hid, hat id hp⟩

/-- The first `m` slots from the head that the scan loaded hold entries that
are delivered and still ahead of `Head`. -/
def Counted (z : Size) (s : State ι) (H : Nat) (k : Scan) (m : Nat) : Prop :=
  ∀ j < m, ∃ p, H ≤ p ∧ p < s.queue.posted.length ∧
    p % z.slots = (k.head.toNat + j) % z.slots ∧ Delivered s p

/-- A delivery that is under way: `m` slots are counted without it. -/
structure Giving (z : Size) (s : State ι) (H : Nat) (k : Scan) (cqe : CompletionEntry) (m : Nat) :
    Prop where
  slot : AtSlot z k (k.looked z + 1)
  counted : Counted z s H k m
  entry : ∃ p, s.queue.posted[p]? = some cqe ∧ p % z.slots = k.i
  count : k.seenIdx.toNat = if k.seen then m + 1 else m
  place : k.seen = true → k.i = (k.head.toNat + m) % z.slots

def ScanOk (z : Size) (s : State ι) (H : Nat) : RunPc → Prop
  | .slot k => AtSlot z k (k.looked z) ∧ Counted z s H k k.seenIdx.toNat
  | .setRes k _ cqe | .setFlags k _ cqe | .done k _ cqe => ∃ m, Giving z s H k cqe m
  | .delete k _ _ => AtSlot z k (k.looked z + 1) ∧ Counted z s H k k.seenIdx.toNat
  | .storeHead k => k.seenIdx.toNat ≤ z.slots ∧ Counted z s H k k.seenIdx.toNat
  | _ => True

theorem Counted.mono {z : Size} {s s' : State ι} {H H' m : Nat} {k k' : Scan}
    (h : Counted z s H k m) (hk : k'.head = k.head)
    (hstep : ∀ p, H ≤ p → p < s.queue.posted.length → Delivered s p →
      H' ≤ p ∧ p < s'.queue.posted.length ∧ Delivered s' p) : Counted z s' H' k' m := by
  intro j hj
  obtain ⟨p, h1, h2, h3, h4⟩ := h j hj
  obtain ⟨h5, h6, h7⟩ := hstep p h1 h2 h4
  exact ⟨p, h5, h6, by rw [hk]; exact h3, h7⟩

theorem ScanOk.mono {z : Size} {s s' : State ι} {H H' : Nat} {p : RunPc} (h : ScanOk z s H p)
    (hposted : ∀ (q : Nat) c, s.queue.posted[q]? = some c → s'.queue.posted[q]? = some c)
    (hstep : ∀ p, H ≤ p → p < s.queue.posted.length → Delivered s p →
      H' ≤ p ∧ p < s'.queue.posted.length ∧ Delivered s' p) : ScanOk z s' H' p := by
  cases p with
  | slot k => exact ⟨h.1, h.2.mono rfl hstep⟩
  | setRes k r cqe | setFlags k r cqe | done k r cqe =>
    obtain ⟨m, hg⟩ := h
    obtain ⟨q, hq, hslot⟩ := hg.entry
    exact ⟨m, { hg with
      counted := hg.counted.mono rfl hstep
      entry := ⟨q, hposted q cqe hq, hslot⟩ }⟩
  | delete k r cqe => exact ⟨h.1, h.2.mono rfl hstep⟩
  | storeHead k => exact ⟨h.1, h.2.mono rfl hstep⟩
  | _ => trivial

/-- After a look at the slot `i` the scan goes on. -/
theorem scanOk_advance {z : Size} {s : State ι} {H : Nat} {k : Scan}
    (hslot : AtSlot z k (k.looked z + 1)) (hcounted : Counted z s H k k.seenIdx.toNat) :
    ScanOk z s H (Scan.advance z k) := by
  rcases advance_cases hslot with ⟨k', hadv, hslot', hhead, hidx⟩ | ⟨k', hadv, hhead, hidx⟩
  · rw [hadv]
    exact ⟨hslot', by rw [hidx]; exact hcounted.mono hhead fun p h1 h2 h3 => ⟨h1, h2, h3⟩⟩
  · rw [hadv]
    have h1 := hslot.looked_lt
    have h2 := hslot.count_le
    refine ⟨by rw [hidx]; omega, ?_⟩
    rw [hidx]
    exact hcounted.mono hhead fun p h1 h2 h3 => ⟨h1, h2, h3⟩

/-- A scan that has counted every slot so far stands at the next slot. -/
theorem AtSlot.place {z : Size} {k : Scan} (h : AtSlot z k (k.looked z))
    (hall : k.seenIdx.toNat = k.looked z) :
    k.i = (k.head.toNat + k.seenIdx.toNat) % z.slots := by
  have hfirst : k.first z = k.head.toNat % z.slots := z.and_mask k.head
  have hlt : k.first z < z.slots := z.and_mask_lt k.head
  have hcount : k.seenIdx.toNat < z.slots := by
    have := h.looked_lt
    omega
  rw [Nat.add_mod, ← hfirst, Nat.mod_eq_of_lt hcount, hall, Scan.looked]
  split
  · rename_i hs
    have := h.range
    rw [show k.first z + (z.slots - k.first z + k.i) = k.i + z.slots by omega,
      Nat.add_mod_right, Nat.mod_eq_of_lt this]
  · rename_i hs
    have := h.first (Bool.eq_false_iff.mpr hs)
    rw [Nat.add_sub_cancel' this.1, Nat.mod_eq_of_lt h.range]

/-! ## The invariant -/

structure HeadInv (z : Size) (s : State ι) : Prop extends SafeInv z s where
  /-- What is acknowledged was never asked for. -/
  apart : ∀ p ∈ s.queue.acked, ∀ id ∈ s.asked, s.queue.idAt p ≠ some id
  window : ∃ H, Window z (Delivered s) s.queue H ∧ ScanOk z s H s.run

theorem headInv_init (z : Size) : HeadInv z (init ι) where
  toSafeInv := safeInv_init z
  apart := fun p hp => by simp [init, completion_queue.init] at hp
  window := ⟨0, completion_queue.window_init z _, trivial⟩

theorem undelivered {s : State ι} (hi : CallsInv s)
    (hapart : ∀ p ∈ s.queue.acked, ∀ id ∈ s.asked, s.queue.idAt p ≠ some id) (p : Nat)
    (hp : p ∈ s.queue.acked) : ¬ Delivered s p := by
  rintro ⟨id, hid, hat⟩
  exact hapart p hp id (hi.asked id hid) hat

/-- The entry that is being given is ahead of `Head`. -/
theorem HeadInv.head_le_given {z : Size} {s : State ι} {H p r : Nat} {cqe : CompletionEntry}
    (hi : HeadInv z s) (hw : Window z (Delivered s) s.queue H)
    (hgives : s.run.work.gives = some (r, cqe)) (hp : s.queue.posted[p]? = some cqe) : H ≤ p := by
  have hat : s.queue.idAt p = some cqe.userData := by
    rw [completion_queue.State.idAt, hp]
    rfl
  obtain ⟨hnew, -⟩ := hi.given hgives
  have hasked := hi.key_asked (hi.giving hgives).2
  apply hw.head_le_of
  · exact fun hack => hi.apart p hack _ hasked hat
  · rintro ⟨id, hid, hat'⟩
    rw [hat] at hat'
    cases hat'
    exact hnew hid

/-- The signal of a delivery puts its slot among those that the scan has counted. -/
theorem Giving.counted_signal {z : Size} {s s' : State ι} {H m : Nat} {k : Scan}
    {cqe : CompletionEntry} (hg : Giving z s H k cqe m)
    (hahead : ∀ p : Nat, s.queue.posted[p]? = some cqe → H ≤ p) (hqueue : s'.queue = s.queue)
    (hdel : s'.delivered = s.delivered ++ [cqe.userData]) :
    Counted z s' H k k.seenIdx.toNat := by
  obtain ⟨p, hp, hslot⟩ := hg.entry
  have hm : Counted z s' H k m := by
    refine hg.counted.mono rfl fun p h1 h2 h3 => ⟨h1, by rwa [hqueue], h3.mono ?_ ?_⟩
    · rw [hdel]
      exact List.subset_append_left ..
    · rw [hqueue]
      exact fun _ h => h
  rw [hg.count]
  split
  · rename_i hseen
    intro j hj
    rcases Nat.lt_succ_iff_lt_or_eq.mp hj with hj | rfl
    · exact hm j hj
    · refine ⟨p, hahead p hp, ?_, hslot.trans (hg.place hseen), cqe.userData, by simp [hdel], ?_⟩
      · rw [hqueue]
        exact (List.getElem?_eq_some_iff.mp hp).1
      · rw [hqueue, completion_queue.State.idAt, hp]
        rfl
  · exact hm

/-- The store of `onEntry`: what the scan has counted stands right at `Head`. -/
theorem release_counted {z : Size} {s : State ι} {H : Nat} {k : Scan}
    (hw : Window z (Delivered s) s.queue H) (hle : k.seenIdx.toNat ≤ z.slots)
    (hcounted : Counted z s H k k.seenIdx.toNat) (hhead : k.head = s.queue.cq.head) :
    H + k.seenIdx.toNat ≤ s.queue.posted.length ∧
      Window z (Delivered s)
        { s.queue with cq := { s.queue.cq with head := k.head + k.seenIdx } }
        (H + k.seenIdx.toNat) := by
  have hroom := hw.room
  have hat : ∀ j < k.seenIdx.toNat, H + j < s.queue.posted.length ∧ Delivered s (H + j) := by
    intro j hj
    obtain ⟨p, h1, h2, h3, h4⟩ := hcounted j hj
    rw [hhead, hw.slot_head] at h3
    obtain rfl : p = H + j :=
      slot_inj (a := H) h1 (Nat.le_add_right ..) (by omega) (by omega) h3
    exact ⟨h2, h4⟩
  have hlen : H + k.seenIdx.toNat ≤ s.queue.posted.length := by
    rcases Nat.eq_zero_or_pos k.seenIdx.toNat with h0 | hpos
    · rw [h0]
      exact hw.head_le
    · have := (hat (k.seenIdx.toNat - 1) (by omega)).1
      omega
  have hword : k.head + k.seenIdx = word (H + k.seenIdx.toNat) := by
    rw [hhead, hw.head, ← word_add, word_of_toNat]
  refine ⟨hlen, ?_⟩
  rw [hword]
  apply hw.release hlen
  intro p h1 h2
  obtain ⟨j, rfl⟩ : ∃ j, p = H + j := ⟨p - H, by omega⟩
  exact (hat j (by omega)).2

/-! ## What a step does to the head -/

/-- A step moves `Head` on by no more than is in the queue, and every position
below it has been delivered or acknowledged. -/
def HeadMovesOn (s s' : State ι) : Prop :=
  (s'.queue.cq.head - s.queue.cq.head).toNat ≤ (s.queue.cq.tail - s.queue.cq.head).toNat ∧
  ∀ p < s'.queue.headPos, Delivered s' p ∨ p ∈ s'.queue.acked

theorem headMovesOn_of_window {z : Size} {s s' : State ι} {H H' : Nat}
    (hw : Window z (Delivered s) s.queue H) (hw' : Window z (Delivered s') s'.queue H')
    (hle : H ≤ H') (hlen : H' ≤ s.queue.posted.length) : HeadMovesOn s s' := by
  have h1 := hw.room
  have h2 := z.slots_lt
  refine ⟨?_, fun p hp => ?_⟩
  · rw [hw.distance, hw.head, hw'.head, word_sub hle (by omega)]
    omega
  · rw [hw'.headPos_eq] at hp
    exact (hw'.below p hp).symm

variable [DecidableEq ι]

theorem apart_move {z : Size} {s s' : State ι} {a : Act ι} (hi : HeadInv z s)
    (hm : Move z s a s') :
    ∀ p ∈ s'.queue.acked, ∀ id ∈ s'.asked, s'.queue.idAt p ≠ some id := by
  have hold := hi.apart
  obtain ⟨H, hw, -⟩ := hi.window
  cases hm with
  | post h =>
    obtain ⟨-, rfl⟩ := completion_queue.post_eq h
    intro p hp id hid hat
    simp only [completion_queue.State.idAt, List.getElem?_append_left (hw.acked_lt p hp)] at hat
    exact hold p hp id hid hat
  | ack hfree h =>
    obtain ⟨-, rfl⟩ := completion_queue.ack_eq h
    exact List.forall_mem_append.mpr ⟨hold, List.forall_mem_singleton.mpr hfree⟩
  | completer h =>
    obtain ⟨h1, h2, -⟩ := completion_queue.completerStep_frame h
    simp only [completion_queue.State.idAt, h1, h2]
    exact hold
  | getPooled h hid hack hr | getFresh h hid hack =>
    exact fun p hp =>
      List.forall_mem_append.mpr ⟨hold p hp, List.forall_mem_singleton.mpr (hack p hp)⟩
  | _ => exact hold

/-- A step moves `Head` on, if at all, to a position that is not past `Tail`. -/
theorem window_move {z : Size} {s s' : State ι} {a : Act ι} {H : Nat} (hi : HeadInv z s)
    (hok : OrderlyStep z s a) (hm : Move z s a s') (hw : Window z (Delivered s) s.queue H)
    (hs : ScanOk z s H s.run) :
    ∃ H', H ≤ H' ∧ H' ≤ s.queue.posted.length ∧ Window z (Delivered s') s'.queue H' ∧
      ScanOk z s' H' s'.run := by
  have hun := undelivered (safeInv_move hi.toSafeInv hok.1 hm).toCallsInv (apart_move hi hm)
  have hle := hw.head_le
  have hkeep : ∀ p, H ≤ p → p < s.queue.posted.length → Delivered s p →
      H ≤ p ∧ p < s.queue.posted.length ∧ Delivered s p := fun p h1 h2 h3 => ⟨h1, h2, h3⟩
  cases hm with
  | @post c q h =>
    have hq : q.posted = s.queue.posted ++ [c] := by rw [(completion_queue.post_eq h).2]
    have hdel : ∀ p, Delivered s p → Delivered { s with queue := q } p :=
      fun p h => h.mono (List.Subset.refl _) fun _ => completion_queue.idAt_append hq
    refine ⟨H, Nat.le_refl _, hle, (hw.post h).gone_mono hdel hun, hs.mono ?_ ?_⟩
    · intro p c' hp
      simp only [hq]
      exact List.getElem?_append_left (List.getElem?_eq_some_iff.mp hp).1 ▸ hp
    · intro p h1 h2 h3
      refine ⟨h1, ?_, hdel p h3⟩
      simp only [hq, List.length_append, List.length_singleton]
      omega
  | @ack p q hfree h =>
    have hack := hw.ack (fun ⟨id, hid, hat⟩ => hfree id (hi.asked id hid) hat) h
    obtain ⟨-, rfl⟩ := completion_queue.ack_eq h
    exact ⟨H, Nat.le_refl _, hle, hack.gone_mono (fun _ h => h) hun, hs.mono (fun _ _ h => h) hkeep⟩
  | @completer q h =>
    obtain ⟨H', h1, h2, hw'⟩ := hw.completerStep h
    obtain ⟨h3, -⟩ := completion_queue.completerStep_frame h
    have hdel : ∀ p, Delivered s p → Delivered { s with queue := q } p :=
      fun p h => h.mono (List.Subset.refl _) fun _ hat => by
        simpa only [completion_queue.State.idAt, h3] using hat
    refine ⟨H', h1, h3 ▸ hw'.head_le, hw'.gone_mono hdel hun, hs.mono ?_ ?_⟩
    · intro p c hp
      simpa only [h3] using hp
    · intro p h4 h5 h6
      refine ⟨?_, by simpa only [h3] using h5, hdel p h6⟩
      by_contra hlt
      exact hw.apart p (h2 p h4 (Nat.lt_of_not_le hlt)) h6
  | @loadTail head h =>
    refine ⟨H, Nat.le_refl _, hle, hw, ?_, fun j hj => absurd hj (Nat.not_lt_zero j)⟩
    have hlooked : (Scan.start z head s.queue.cq.tail).looked z = 0 := by
      simp [Scan.looked, Scan.start, Scan.first]
    rw [hlooked]
    exact atSlot_start z head s.queue.cq.tail
  | @slotMiss k h hmiss =>
    rw [h] at hs
    exact ⟨H, Nat.le_refl _, hle, hw, scanOk_advance hs.1.miss (hs.2.mono rfl hkeep)⟩
  | @slotHit k r h hhit =>
    rw [h] at hs
    obtain ⟨hslot, hcounted⟩ := hs
    obtain ⟨hslot', hidx⟩ := hslot.hit rfl
    have hentry := hit_posted hi.posted hi.range h hok.1.2 hhit
    refine ⟨H, Nat.le_refl _, hle, hw, k.seenIdx.toNat, hslot', hcounted.mono rfl hkeep, hentry,
      hidx, fun hseen => hslot.place ?_⟩
    by_cases hsecond : k.second = true
    · have hgap : countsPastGap z s (.run : Act ι) = false := hok.2.1
      simpa [countsPastGap, h, hsecond, show k.seen = true from hseen, hhit] using hgap
    · exact hslot.all (Bool.eq_false_iff.mpr hsecond) hseen
  | @giveRes k r cqe h =>
    have hs' : ScanOk z s H (.setFlags k r cqe) := by rwa [h] at hs
    exact ⟨H, Nat.le_refl _, hle, hw, hs'.mono (fun _ _ h => h) hkeep⟩
  | @giveFlags k r cqe h =>
    have hs' : ScanOk z s H (.done k r cqe) := by rwa [h] at hs
    exact ⟨H, Nat.le_refl _, hle, hw, hs'.mono (fun _ _ h => h) hkeep⟩
  | @signal k r cqe h hcap =>
    rw [h] at hs
    obtain ⟨m, hg⟩ := hs
    have hgives : s.run.work.gives = some (r, cqe) := by rw [h]; rfl
    refine ⟨H, Nat.le_refl _, hle, hw.gone_mono (fun p h => ?_) hun, hg.slot,
      hg.counted_signal (fun p => hi.head_le_given hw hgives) rfl rfl⟩
    exact h.mono (List.subset_append_left ..) fun _ h => h
  | @delete k r cqe h =>
    rw [h] at hs
    exact ⟨H, Nat.le_refl _, hle, hw, scanOk_advance hs.1 hs.2⟩
  | @storeHead k h =>
    rw [h] at hs
    have hhead : k.head = s.queue.cq.head := by simpa [storesStale, h] using hok.2.2
    obtain ⟨hlen, hw'⟩ := release_counted hw hs.1 hs.2 hhead
    exact ⟨_, Nat.le_add_right .., hlen, hw', trivial⟩
  | getPooled h hid hack hr | getFresh h hid hack
  | setId h | setRes h | setFlags h | send h hroom | wake h hdone | readRes h | readFlags h
  | put h => exact ⟨H, Nat.le_refl _, hle, hw, hs.mono (fun _ _ h => h) hkeep⟩
  | _ => exact ⟨H, Nat.le_refl _, hle, hw, trivial⟩

theorem headInv_move {z : Size} {s s' : State ι} {a : Act ι} (hi : HeadInv z s)
    (hok : OrderlyStep z s a) (hm : Move z s a s') : HeadInv z s' := by
  obtain ⟨H, hw, hs⟩ := hi.window
  obtain ⟨H', -, -, hw', hs'⟩ := window_move hi hok hm hw hs
  exact ⟨safeInv_move hi.toSafeInv hok.1 hm, apart_move hi hm, H', hw', hs'⟩

/-! ## The two writers -/

/-- In every run whose steps are orderly, `Head` never moves back, and neither
writer of `Head` loses or overruns an entry. -/
theorem the_head_is_never_moved_back (z : Size) (as : List (Act ι))
    (h : Along (step z) (OrderlyStep z) (init ι) as) :
    Along (step z) (fun s a => ∀ s', step z s a = some s' → HeadMovesOn s s') (init ι) as := by
  have hstep : ∀ (s : State ι) a s', HeadInv z s → OrderlyStep z s a → step z s a = some s' →
      HeadInv z s' := fun s a s' hi hok hs => headInv_move hi hok (step_move hs)
  refine Along.imp hstep (fun s a hi hok s' hs => ?_) (headInv_init z) h
  obtain ⟨H, hw, hscan⟩ := hi.window
  obtain ⟨H', hle, hlen, hw', -⟩ := window_move hi hok (step_move hs) hw hscan
  exact headMovesOn_of_window hw hw' hle hlen

/-- On a ring of four the completer releases the entry of another consumer,
then `onEntry` delivers the next one and releases it. -/
theorem two_writers_in_turn_move_the_head_on :
    Along (step ⟨2, by decide⟩) (fun s a => ∀ s', step ⟨2, by decide⟩ s a = some s' →
        HeadMovesOn s s') (init (Fin 1))
        ([Act.post ⟨9, 90, 0⟩, .ack 0, .completer, .completer, .completer, .post ⟨1, 10, 0⟩] ++
          askActs 0 1 ++ Act.takeCompletion :: List.replicate 11 .run) ∧
      (run (step ⟨2, by decide⟩) (init (Fin 1))
        ([Act.post ⟨9, 90, 0⟩, .ack 0, .completer, .completer, .completer, .post ⟨1, 10, 0⟩] ++
          askActs 0 1 ++ Act.takeCompletion :: List.replicate 11 .run)).map
        (fun s => (s.run, s.queue.cq.head, s.queue.cq.tail)) = some (.lenInflight, 2, 2) :=
  ⟨the_head_is_never_moved_back _ _ (by decide), by decide⟩

/-- On a ring of four `onEntry` loads the head, then the completer moves it on
over an acknowledged entry, then `onEntry` stores what it loaded: `Head` goes
from 1 back to 0, and the completer has already forgotten the entry. -/
theorem the_head_is_moved_back :
    (run (step ⟨2, by decide⟩) (init (Fin 1))
        ([Act.post ⟨9, 90, 0⟩] ++ askActs 0 1 ++ [Act.takeCompletion, .run, .run, .run, .ack 0,
          .completer, .completer, .completer, .run, .run, .run])).map
      (fun s => (s.queue.cq.head, s.queue.cq.tail, s.queue.completer.unacked,
        (step ⟨2, by decide⟩ s .run).map fun s' => s'.queue.cq.head)) =
      some (1, 1, ∅, some 0) := by
  decide

end iouring.ring
