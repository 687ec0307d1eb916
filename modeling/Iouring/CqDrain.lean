-- A ring that is used through `Ring.complete` only, so that `onEntry` is the
-- only writer of the head: what has been delivered gives its slot back, as
-- long as every scan delivers the slots it reads without a gap.
import Iouring.CqHead

open counter machine
open iouring.completion_queue (CompletionEntry Posted Window)

namespace iouring.ring

variable {ι : Type}

/-! ## Deliveries in order -/

/-- `onEntry` delivers a slot although it passed over a slot before it. -/
def deliversPastGap (z : Size) (s : State ι) : Act ι → Bool
  | .run =>
    match s.run with
    | .slot k => (s.inflight.lookup (s.queue.cq.entries k.i).userData).isSome &&
        !(k.seen && decide (k.seenIdx.toNat = k.looked z))
    | _ => false
  | _ => false

/-- Nobody acknowledges through the completer. -/
def acks : Act ι → Bool
  | .ack _ => true
  | _ => false

def InOrderStep (z : Size) (s : State ι) (a : Act ι) : Prop :=
  CleanStep s a ∧ deliversPastGap z s a = false

instance (z : Size) (s : State ι) (a : Act ι) : Decidable (InOrderStep z s a) :=
  inferInstanceAs (Decidable (_ ∧ _))

/-- The head that `onEntry` has loaded. -/
def RunPc.loaded : RunPc → Option UInt32
  | .loadTail head => some head
  | .slot k | .setRes k _ _ | .setFlags k _ _ | .done k _ _ | .delete k _ _ | .storeHead k =>
    some k.head
  | _ => none

/-- What `onEntry` will add to the head. -/
def RunPc.counted : RunPc → Nat
  | .slot k | .setRes k _ _ | .setFlags k _ _ | .done k _ _ | .delete k _ _ | .storeHead k =>
    k.seenIdx.toNat
  | _ => 0

/-- A delivery is under way that the scan has not counted. -/
def RunPc.gap : RunPc → Bool
  | .setRes k _ _ | .setFlags k _ _ | .done k _ _ => !k.seen
  | _ => false

/-- `Ring.run` is inside `onEntry`. -/
def RunPc.inOnEntry : RunPc → Bool
  | .loadHead => true
  | p => p.loaded.isSome

theorem advance_loaded (z : Size) (k : Scan) :
    (Scan.advance z k).loaded = some k.head ∧ (Scan.advance z k).counted = k.seenIdx.toNat ∧
      (Scan.advance z k).gap = false := by
  unfold Scan.advance
  dsimp only
  split_ifs <;> exact ⟨rfl, rfl, rfl⟩

/-- The queue while only `onEntry` writes to its head: what is delivered lies
below the head that it will store. -/
structure DrainInv (z : Size) (s : State ι) : Prop extends HeadInv z s where
  idle : s.queue.completer.pc = .recv ∧ s.queue.completer.seen = []
  loaded : ∀ head, s.run.loaded = some head → head = s.queue.cq.head
  gap : s.run.gap = false
  known : ∀ id ∈ s.delivered, id ∈ s.queue.posted.map (·.userData)
  below : ∀ p, Delivered s p → p < s.queue.headPos + s.run.counted

theorem drainInv_init (z : Size) : DrainInv z (init ι) where
  toHeadInv := headInv_init z
  idle := ⟨rfl, rfl⟩
  loaded := nofun
  gap := rfl
  known := fun id h => by simp [init] at h
  below := by
    rintro p ⟨id, hid, -⟩
    simp [init] at hid

/-- A step in order of a ring without acknowledgements is an orderly step. -/
theorem DrainInv.orderly {z : Size} {s : State ι} {a : Act ι} (hi : DrainInv z s)
    (hok : InOrderStep z s a) : OrderlyStep z s a := by
  refine ⟨hok.1, ?_, ?_⟩
  · have hgap := hok.2
    cases a with
    | run =>
      cases hrun : s.run with
      | slot k =>
        simp only [countsPastGap, deliversPastGap, hrun] at hgap ⊢
        cases hl : (s.inflight.lookup (s.queue.cq.entries k.i).userData).isSome with
        | false => simp
        | true =>
          simp only [hl, Bool.true_and, Bool.not_eq_false', Bool.and_eq_true,
            decide_eq_true_eq] at hgap
          simp [hgap.2]
      | _ => simp only [countsPastGap, hrun]
    | _ => rfl
  · cases a with
    | run =>
      cases hrun : s.run with
      | storeHead k =>
        have := hi.loaded k.head (by rw [hrun]; rfl)
        simp [storesStale, hrun, this]
      | _ => simp only [storesStale, hrun]
    | _ => rfl

/-- The entry that is being given stands right after those that are counted. -/
theorem DrainInv.placed_given {z : Size} {s : State ι} {H m : Nat} {k : Scan} {r : Nat}
    {cqe : CompletionEntry} (hi : DrainInv z s) (hw : Window z (Delivered s) s.queue H)
    (hrun : s.run = .done k r cqe) (hg : Giving z s H k cqe m) (p : Nat)
    (hat : s.queue.idAt p = some cqe.userData) : p + 1 = H + k.seenIdx.toNat := by
  obtain ⟨p', hp', hslot⟩ := hg.entry
  have hlt := (List.getElem?_eq_some_iff.mp hp').1
  obtain rfl : p' = p := by
    apply (List.getElem?_inj (l := s.queue.posted.map (·.userData)) (by simpa using hlt)
      hi.posted.ids).mp
    simp only [List.getElem?_map, hp']
    exact hat.symm
  have hseen : k.seen = true := by
    have := hi.gap
    rw [hrun] at this
    simpa [RunPc.gap] using this
  have hcount := hg.count
  rw [if_pos hseen] at hcount
  have hm := hg.slot.count_le
  have hlooked := hg.slot.looked_lt
  have hroom := hw.room
  have hplace := hslot.trans (hg.place hseen)
  rw [hi.loaded k.head (by rw [hrun]; rfl), hw.slot_head] at hplace
  have hle := hi.head_le_given hw (r := r) (by rw [hrun]; rfl) hp'
  have := slot_inj (a := H) hle (Nat.le_add_right H m) (by omega) (by omega) hplace
  omega

variable [DecidableEq ι]

/-- What is delivered stays below the head that `onEntry` will store. -/
theorem below_move {z : Size} {s s' : State ι} {a : Act ι} (hi : DrainInv z s)
    (hok : InOrderStep z s a) (hack : acks a = false) (hm : Move z s a s') :
    ∀ p, Delivered s' p → p < s'.queue.headPos + s'.run.counted := by
  have hbelow := hi.below
  obtain ⟨H, hw, hs⟩ := hi.window
  rw [hw.headPos_eq] at hbelow
  cases hm with
  | @post c q h =>
    obtain ⟨⟨-, hid⟩, hq⟩ := completion_queue.post_eq h
    rw [(hw.post h).headPos_eq]
    rintro p ⟨id, hdel, hat⟩
    apply hbelow p
    refine ⟨id, hdel, ?_⟩
    simp only [hq, completion_queue.State.idAt] at hat
    by_cases hp : p < s.queue.posted.length
    · rwa [List.getElem?_append_left hp] at hat
    · exfalso
      rw [List.getElem?_append_right (Nat.le_of_not_lt hp), Option.map_eq_some_iff] at hat
      obtain ⟨c', hc', rfl⟩ := hat
      rw [List.mem_singleton.mp (List.mem_of_getElem? hc')] at hdel
      exact hid (hi.known _ hdel)
  | ack hfree h => cases hack
  | completer h => simp [completion_queue.completerStep, hi.idle] at h
  | @loadTail head h =>
    rw [h] at hbelow
    rw [hw.headPos_eq]
    exact hbelow
  | @slotMiss k h hmiss =>
    rw [h] at hbelow
    rw [hw.headPos_eq, (advance_loaded z _).2.1]
    exact hbelow
  | @slotHit k r h hhit =>
    rw [h] at hbelow hs
    intro p hp
    have hidx := (hs.1.hit rfl).2
    have := hbelow p hp
    simp only [RunPc.counted, hw.headPos_eq] at hidx this ⊢
    rw [hidx]
    split <;> omega
  | @signal k r cqe h hcap =>
    rw [h] at hbelow hs
    obtain ⟨m, hg⟩ := hs
    have hahead := hi.placed_given hw h hg
    rw [hw.headPos_eq]
    rintro p ⟨id, hid, hat⟩
    rcases List.mem_append.mp hid with hid | hid
    · exact hbelow p ⟨id, hid, hat⟩
    · rw [List.mem_singleton.mp hid] at hat
      have := hahead p hat
      simp only [RunPc.counted]
      omega
  | @delete k r cqe h =>
    rw [h] at hbelow
    rw [hw.headPos_eq, (advance_loaded z _).2.1]
    exact hbelow
  | @storeHead k h =>
    rw [h] at hbelow hs
    have hhead := hi.loaded k.head (by rw [h]; rfl)
    obtain ⟨-, hw'⟩ := release_counted hw hs.1 hs.2 hhead
    rw [hw'.headPos_eq]
    exact hbelow
  | getPooled h hid hack hr | getFresh h hid hack
  | setId h | setRes h | setFlags h | send h hroom | wake h hdone | readRes h | readFlags h
  | put h =>
    rw [hw.headPos_eq]
    exact hbelow
  | _ =>
    rename_i h
    rw [hw.headPos_eq]
    intro p hp
    have := hbelow p hp
    simpa [*, RunPc.counted] using this

/-- A load and a store of `onEntry` see the same head. -/
theorem loaded_move {z : Size} {s s' : State ι} {a : Act ι} (hi : DrainInv z s)
    (hack : acks a = false) (hm : Move z s a s') :
    ∀ head, s'.run.loaded = some head → head = s'.queue.cq.head := by
  have hold := hi.loaded
  cases hm with
  | @post c q h =>
    rw [(completion_queue.post_eq h).2]
    exact hold
  | ack hfree h => cases hack
  | completer h => simp [completion_queue.completerStep, hi.idle] at h
  | loadHead h =>
    rintro head hl
    cases hl
    rfl
  | slotMiss h hmiss | delete h =>
    intro head hl
    rw [(advance_loaded z _).1] at hl
    cases hl
    exact hold _ (by rw [h]; rfl)
  | loadTail h | slotHit h hhit | giveRes h | giveFlags h | signal h hcap =>
    intro head hl
    cases hl
    exact hold _ (by rw [h]; rfl)
  | getPooled h hid hack hr | getFresh h hid hack
  | setId h | setRes h | setFlags h | send h hroom | wake h hdone | readRes h | readFlags h
  | put h => exact hold
  | _ => nofun

theorem gap_move {z : Size} {s s' : State ι} {a : Act ι} (hi : DrainInv z s)
    (hok : InOrderStep z s a) (hm : Move z s a s') : s'.run.gap = false := by
  have hold := hi.gap
  cases hm with
  | @slotHit k r h hhit =>
    have hgap : deliversPastGap z s (.run : Act ι) = false := hok.2
    simp only [deliversPastGap, h, hhit, Option.isSome_some, Bool.true_and, Bool.not_eq_false',
      Bool.and_eq_true] at hgap
    simp [RunPc.gap, hgap.1]
  | slotMiss h hmiss | delete h => exact (advance_loaded z _).2.2
  | giveRes h | giveFlags h =>
    rw [h] at hold
    exact hold
  | post h | ack hfree h | completer h | getPooled h hid hack hr | getFresh h hid hack
  | setId h | setRes h | setFlags h | send h hroom | wake h hdone | readRes h | readFlags h
  | put h => exact hold
  | _ => rfl

theorem drainInv_move {z : Size} {s s' : State ι} {a : Act ι} (hi : DrainInv z s)
    (hok : InOrderStep z s a) (hack : acks a = false) (hm : Move z s a s') : DrainInv z s' where
  toHeadInv := headInv_move hi.toHeadInv (hi.orderly hok) hm
  idle := by
    have hold := hi.idle
    cases hm with
    | post h =>
      rw [(completion_queue.post_eq h).2]
      exact hold
    | ack hfree h => cases hack
    | completer h => simp [completion_queue.completerStep, hi.idle] at h
    | _ => exact hold
  loaded := loaded_move hi hack hm
  gap := gap_move hi hok hm
  known := by
    have hold := hi.known
    cases hm with
    | post h =>
      rw [(completion_queue.post_eq h).2, List.map_append]
      exact fun id hid => List.mem_append_left _ (hold id hid)
    | ack hfree h => cases hack
    | completer h => simp [completion_queue.completerStep, hi.idle] at h
    | @signal k r cqe h hcap =>
      intro id hid
      rcases List.mem_append.mp hid with hid | hid
      · exact hold id hid
      · rw [List.mem_singleton.mp hid]
        have hgives : s.run.work.gives = some (r, cqe) := by rw [h]; rfl
        exact List.mem_map_of_mem (hi.giving hgives).1
    | _ => exact hold
  below := below_move hi hok hack hm

/-! ## The law -/

/-- Outside `onEntry`: if everything posted is delivered, the queue is empty. -/
def Drained (s : State ι) : Prop :=
  s.run.inOnEntry = false → (∀ p < s.queue.posted.length, Delivered s p) →
    s.queue.cq.head = s.queue.cq.tail

omit [DecidableEq ι] in
theorem drained_of_drainInv {z : Size} {s : State ι} (hi : DrainInv z s) : Drained s := by
  intro hout hall
  obtain ⟨H, hw, -⟩ := hi.window
  have hzero : s.run.counted = 0 := by
    cases hrun : s.run <;> rw [hrun] at hout <;> first | rfl | cases hout
  have hle := hw.head_le
  have hlen : H = s.queue.posted.length := by
    by_contra hne
    have := hi.below (s.queue.posted.length - 1) (hall _ (by omega))
    rw [hw.headPos_eq, hzero] at this
    omega
  rw [hw.head, hw.tail, hlen]

/-- In every run without acknowledgements in which `onEntry` delivers no slot
past one that it passed over, the slots of all deliveries are released. -/
theorem deliveries_release_their_slots (z : Size) (as : List (Act ι))
    (h : Along (step z) (fun s a => acks a = false ∧ InOrderStep z s a) (init ι) as) :
    Always (step z) Drained (init ι) as := by
  have hstep : ∀ (s : State ι) a s', DrainInv z s → acks a = false ∧ InOrderStep z s a →
      step z s a = some s' → DrainInv z s' :=
    fun s a s' hi hok hs => drainInv_move hi hok.2 hok.1 (step_move hs)
  exact Along.always hstep (fun _ => drained_of_drainInv) (drainInv_init z) h

/-- Two entries on a ring of four whose requests come in the order of the entries. -/
theorem requests_in_order_release_their_slots :
    Always (step ⟨2, by decide⟩) Drained (init (Fin 3))
        ([Act.post ⟨5, 50, 0⟩, .post ⟨6, 60, 0⟩] ++ askActs 0 5 ++ askActs 1 6 ++
          Act.takeCompletion :: List.replicate 13 .run ++
          Act.takeCompletion :: List.replicate 11 .run) ∧
      (run (step ⟨2, by decide⟩) (init (Fin 3))
        ([Act.post ⟨5, 50, 0⟩, .post ⟨6, 60, 0⟩] ++ askActs 0 5 ++ askActs 1 6 ++
          Act.takeCompletion :: List.replicate 13 .run ++
          Act.takeCompletion :: List.replicate 11 .run)).map
        (fun s => (s.run, s.queue.cq.head, s.queue.cq.tail, s.delivered)) =
        some (.lenInflight, 2, 2, [5, 6]) :=
  ⟨deliveries_release_their_slots _ _ (by decide), by decide⟩

/-- The same two entries with the requests the other way round. The first scan
delivers the second entry and keeps the head, the second scan delivers the
first entry and releases one slot. Another call and its scan later both entries
are delivered and one of them still holds its slot. -/
theorem a_delivery_out_of_order_keeps_its_slot :
    (run (step ⟨2, by decide⟩) (init (Fin 3))
        ([Act.post ⟨5, 50, 0⟩, .post ⟨6, 60, 0⟩] ++ askActs 0 6 ++
          Act.takeCompletion :: List.replicate 13 .run ++ askActs 1 5 ++
          Act.takeCompletion :: List.replicate 13 .run ++ askActs 2 8 ++
          Act.takeCompletion :: List.replicate 7 .run)).map
      (fun s => (s.run, s.queue.cq.head, s.queue.cq.tail, s.delivered)) =
      some (.lenInflight, 1, 2, [6, 5]) := by
  decide

end iouring.ring
