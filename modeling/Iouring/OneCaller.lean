-- `Ring.complete` with one caller, on a ring that nobody else uses. There is one key in
-- flight at most, and its entry is at `Head` when a scan finds it: each scan delivers
-- without a gap, and the queue never holds more than the entry that is waited for.
import Iouring.CqDrain

open counter machine
open iouring.completion_queue (CompletionEntry Window)

namespace iouring.ring

/-! ## What the steps rely on -/

/-- A step of a ring with one caller: the kernel completes what is in flight, nobody
acknowledges, ids are not 0, and no request is renamed before `onEntry` has used its id. -/
def SoloStep (s : State Unit) : Act Unit → Prop
  | .post cqe => (s.inflight.lookup cqe.userData).isSome
  | .ack _ => False
  | .complete _ id _ => id ≠ 0
  | .caller g => renamesEarly s (.caller g) = false
  | _ => True

/-- A scan looks at the slot of `Head` first. Once it has looked, nothing is in flight or it
is at its end. -/
def ScanInv (z : Size) (s : State Unit) : Prop :=
  match s.run with
  | .slot k =>
    (k = Scan.start z k.head k.tail ∧
      ∃ T, k.tail = word T ∧ s.queue.headPos ≤ T ∧ T ≤ s.queue.posted.length) ∨
    s.inflight.entries = []
  | .delete _ _ cqe => (s.inflight.erase cqe.userData).entries = []
  | .storeHead k => k.seenIdx = 0 ∨ s.inflight.entries = []
  | _ => True

structure SoloInv (z : Size) (s : State Unit) : Prop extends DrainInv z s where
  nonzero : 0 ∉ s.asked
  single : s.inflight.entries.length ≤ 1
  answers : ∀ cqe ∈ s.queue.posted,
    cqe.userData ∈ s.delivered ∨ (s.inflight.lookup cqe.userData).isSome
  scan : ScanInv z s

theorem soloInv_init (z : Size) : SoloInv z (init Unit) where
  toDrainInv := drainInv_init z
  nonzero := by simp [init]
  single := by simp [init]
  answers := fun cqe h => by simp [init, completion_queue.init] at h
  scan := trivial

/-! ## The keys -/

theorem lookup_eq_none_of_entries {l : AList fun _ : UInt64 => Nat} (h : l.entries = [])
    (id : UInt64) : l.lookup id = none := by
  rw [AList.lookup_eq_none, AList.mem_keys, AList.keys, h]
  exact List.not_mem_nil

theorem erase_of_single {l : AList fun _ : UInt64 => Nat} (h : l.entries.length ≤ 1) {id : UInt64}
    {r : Nat} (hr : l.lookup id = some r) : (l.erase id).entries = [] := by
  have hmem : ⟨id, r⟩ ∈ l.entries := AList.mem_lookup_iff.mp hr
  match hl : l.entries, h, hmem with
  | [x], _, hmem =>
    rw [List.mem_singleton] at hmem
    subst hmem
    show List.kerase id l.entries = []
    rw [hl]
    simp [List.kerase]

/-- The key in flight. -/
theorem key_eq_of_single {l : AList fun _ : UInt64 => Nat} (h : l.entries.length ≤ 1)
    {id id' : UInt64} (hid : (l.lookup id).isSome) (hid' : (l.lookup id').isSome) : id = id' := by
  obtain ⟨r, hr⟩ := Option.isSome_iff_exists.mp hid
  obtain ⟨r', hr'⟩ := Option.isSome_iff_exists.mp hid'
  have h1 : ⟨id, r⟩ ∈ l.entries := AList.mem_lookup_iff.mp hr
  have h2 : ⟨id', r'⟩ ∈ l.entries := AList.mem_lookup_iff.mp hr'
  match hl : l.entries, h, h1, h2 with
  | [x], _, h1, h2 =>
    rw [List.mem_singleton] at h1 h2
    rw [← h1] at h2
    cases h2
    rfl

theorem SoloInv.clean {z : Size} {s : State Unit} {a : Act Unit} (hi : SoloInv z s)
    (hok : SoloStep s a) : CleanStep s a := by
  refine ⟨?_, ?_⟩
  · cases a with
    | caller g => exact hok
    | _ => rfl
  · have hzero : s.inflight.lookup 0 = none := by
      by_contra hsome
      obtain ⟨r, hr⟩ := Option.ne_none_iff_exists'.mp hsome
      exact hi.nonzero (hi.key_asked hr)
    cases a with
    | run => cases hrun : s.run <;> simp [matchesBlank, hrun, hzero]
    | _ => rfl

theorem SoloInv.inOrder {z : Size} {s : State Unit} {a : Act Unit} (hi : SoloInv z s)
    (hok : SoloStep s a) : InOrderStep z s a := by
  refine ⟨hi.clean hok, ?_⟩
  cases a with
  | run =>
    cases hrun : s.run with
    | slot k =>
      have hscan := hi.scan
      simp only [ScanInv, hrun] at hscan
      simp only [deliversPastGap, hrun]
      rcases hscan with ⟨hk, -⟩ | hnone
      · rw [hk]
        simp [Scan.start, Scan.looked, Scan.first]
      · rw [lookup_eq_none_of_entries hnone]
        rfl
    | _ => simp only [deliversPastGap, hrun]
  | _ => rfl

/-- Nothing is in flight while `Ring.run` does not know the request of the only caller. -/
theorem SoloInv.unseen_first {z : Size} {s : State Unit} {r : Nat} (hi : SoloInv z s)
    (hu : Unseen s r) (hwork : ∀ r cqe, s.run.work ≠ .delete r cqe) :
    s.inflight.entries = [] := by
  obtain ⟨g, id, hw, -, hnone, -⟩ := hu
  by_contra hne
  obtain ⟨x, hx⟩ := List.exists_mem_of_ne_nil _ hne
  have hl : s.inflight.lookup x.1 = some x.2 := AList.mem_lookup_iff.mpr hx
  rcases hi.keys hl with ⟨cqe, hdel, -⟩ | ⟨-, -, g', hw'⟩
  · exact hwork _ _ hdel
  · rw [hw] at hw'
    cases hw'
    rw [hl] at hnone
    cases hnone

theorem single_move {z : Size} {s s' : State Unit} {a : Act Unit} (hi : SoloInv z s)
    (hm : Move z s a s') : s'.inflight.entries.length ≤ 1 := by
  have hold := hi.single
  cases hm with
  | insert h =>
    have hwork : ∀ r cqe, s.run.work ≠ .delete r cqe := by
      rw [h]
      nofun
    simp only [AList.insert, List.kinsert]
    rw [hi.unseen_first (hi.inserting (by rw [h]; rfl)).1 hwork]
    simp
  | delete h =>
    refine Nat.le_trans ?_ hold
    exact (List.kerase_sublist _ _).length_le
  | _ => exact hold

theorem answers_move {z : Size} {s s' : State Unit} {a : Act Unit} (hi : SoloInv z s)
    (hok : SoloStep s a) (hm : Move z s a s') : ∀ cqe ∈ s'.queue.posted,
      cqe.userData ∈ s'.delivered ∨ (s'.inflight.lookup cqe.userData).isSome := by
  have hold := hi.answers
  cases hm with
  | post h =>
    rw [(completion_queue.post_eq h).2]
    intro c hc
    rcases List.mem_append.mp hc with hc | hc
    · exact hold c hc
    · rw [List.mem_singleton.mp hc]
      exact Or.inr hok
  | ack hfree h => cases hok
  | completer h =>
    rw [(completion_queue.completerStep_frame h).1]
    exact hold
  | insert h =>
    intro c hc
    refine (hold c hc).imp_right fun hkey => ?_
    rw [AList.lookup_isSome] at hkey ⊢
    exact (AList.mem_insert _).mpr (Or.inr hkey)
  | signal h hcap =>
    intro c hc
    exact (hold c hc).imp_left fun hdel => List.mem_append_left _ hdel
  | @delete k r cqe h =>
    intro c hc
    have hwork : s.run.work = .delete r cqe := by rw [h]; rfl
    obtain ⟨hid, hdel⟩ := hi.deleting hwork
    rcases hold c hc with hdone | hkey
    · exact Or.inl hdone
    · by_cases hsame : c.userData = cqe.userData
      · rw [hsame]
        exact Or.inl hdel
      · right
        simp only [hid]
        rwa [AList.lookup_erase_ne hsame]
  | _ => exact hold

/-! ## The scan -/

/-- What is at `Head` while a scan has counted nothing is in flight. -/
theorem SoloInv.at_head {z : Size} {s : State Unit} {H : Nat} (hi : SoloInv z s)
    (hw : Window z (Delivered s) s.queue H) (hlt : H < s.queue.posted.length)
    (hcount : s.run.counted = 0) :
    (s.inflight.lookup
      (s.queue.cq.entries (s.queue.cq.head &&& z.mask).toNat).userData).isSome := by
  obtain ⟨c, hc⟩ : ∃ c, s.queue.posted[H]? = some c := ⟨_, List.getElem?_eq_getElem hlt⟩
  have hentry : s.queue.cq.entries (H % z.slots) = c := hw.slot H c hc hw.room
  rw [hw.head, word_slot, hentry]
  refine (hi.answers c (List.mem_of_getElem? hc)).resolve_left fun hdel => ?_
  have := hi.below H ⟨_, hdel, by rw [completion_queue.State.idAt, hc]; rfl⟩
  rw [hw.headPos_eq, hcount] at this
  exact Nat.lt_irrefl _ this

/-- The first look of a scan that has loaded a tail past `Head` finds the entry it waits for. -/
theorem SoloInv.first_look {z : Size} {s : State Unit} {k : Scan} {T : Nat} (hi : SoloInv z s)
    (hrun : s.run = .slot k) (hk : k = Scan.start z k.head k.tail) (hT : k.tail = word T)
    (hhead : s.queue.headPos ≤ T) (hT' : T ≤ s.queue.posted.length)
    (hmiss : s.inflight.lookup (s.queue.cq.entries k.i).userData = none) :
    k.i = (k.tail &&& z.mask).toNat := by
  obtain ⟨H, hw, -⟩ := hi.window
  rw [hw.headPos_eq] at hhead
  have hloaded := hi.loaded k.head (by rw [hrun]; rfl)
  have hfirst : k.i = (s.queue.cq.head &&& z.mask).toNat := by
    rw [hk, ← hloaded]
    rfl
  rcases Nat.eq_or_lt_of_le hhead with rfl | hlt
  · rw [hfirst, hw.head, hT]
  · have hkey := hi.at_head hw (by omega) (by rw [hrun, hk]; rfl)
    rw [← hfirst, hmiss] at hkey
    cases hkey

theorem advance_scan {z : Size} {s : State Unit} (k : Scan) (h : s.inflight.entries = []) :
    ScanInv z { s with run := Scan.advance z k } := by
  unfold ScanInv Scan.advance
  dsimp only
  split_ifs <;> exact Or.inr h

theorem scan_move {z : Size} {s s' : State Unit} {a : Act Unit} (hi : SoloInv z s)
    (hok : SoloStep s a) (hm : Move z s a s') : ScanInv z s' := by
  have hold := hi.scan
  obtain ⟨H, hw, -⟩ := hi.window
  cases hm with
  | post h =>
    have hw' := hw.post h
    obtain ⟨-, hq⟩ := completion_queue.post_eq h
    simp only [ScanInv, hw'.headPos_eq] at hold ⊢
    rw [hw.headPos_eq] at hold
    cases hrun : s.run with
    | slot k =>
      rw [hrun] at hold
      refine hold.imp_left fun ⟨hk, T, hT, h1, h2⟩ => ⟨hk, T, hT, h1, ?_⟩
      rw [hq, List.length_append]
      exact Nat.le_add_right_of_le h2
    | _ =>
      rw [hrun] at hold
      exact hold
  | ack hfree h => cases hok
  | completer h => simp [completion_queue.completerStep, hi.idle] at h
  | @loadTail head h =>
    exact Or.inl ⟨rfl, s.queue.posted.length, hw.tail, by rw [hw.headPos_eq]; exact hw.head_le,
      Nat.le_refl _⟩
  | @slotMiss k h hmiss =>
    simp only [ScanInv, h] at hold
    rcases hold with ⟨hk, T, hT, h1, h2⟩ | hnone
    · -- the scan ends where it began
      have hlast := hi.first_look h hk hT h1 h2 hmiss
      have hfirst : k.second = false := by rw [hk]; rfl
      have hcount : k.seenIdx = 0 := by rw [hk]; rfl
      simp only [ScanInv, Scan.advance, hfirst, Bool.false_eq_true, if_false, if_pos hlast]
      exact Or.inl hcount
    · exact advance_scan _ hnone
  | @signal k r cqe h hcap =>
    have hgives : s.run.work.gives = some (r, cqe) := by rw [h]; rfl
    exact erase_of_single hi.single (hi.giving hgives).2
  | @delete k r cqe h =>
    simp only [ScanInv, h] at hold
    have hwork : s.run.work = .delete r cqe := by rw [h]; rfl
    have hid := (hi.deleting hwork).1
    rw [hid]
    exact advance_scan (s := { s with inflight := s.inflight.erase cqe.userData }) k hold
  | getPooled h hid hack hr | getFresh h hid hack
  | setId h | setRes h | setFlags h | send h hroom | wake h hdone | readRes h | readFlags h
  | put h => exact hold
  | _ => trivial

theorem soloInv_move {z : Size} {s s' : State Unit} {a : Act Unit} (hi : SoloInv z s)
    (hok : SoloStep s a) (hm : Move z s a s') : SoloInv z s' where
  toDrainInv := by
    have hack : acks a = false := by
      cases a with
      | ack p => exact hok.elim
      | _ => rfl
    exact drainInv_move hi.toDrainInv (hi.inOrder hok) hack hm
  nonzero := by
    have hold := hi.nonzero
    cases hm with
    | getPooled h hid hack hr | getFresh h hid hack =>
      simp only [List.mem_append, List.mem_singleton, not_or]
      exact ⟨hold, fun hzero => hok hzero.symm⟩
    | _ => exact hold
  single := single_move hi hm
  answers := answers_move hi hok hm
  scan := scan_move hi hok hm

/-! ## The way to the kernel -/

/-- `Ring.run` has a request that it has not entered the ring for. -/
def RunPc.submits : RunPc → Bool
  | .insert _ | .enter => true
  | _ => false

theorem advance_submits (z : Size) (k : Scan) : (Scan.advance z k).submits = false := by
  unfold Scan.advance
  dsimp only
  split_ifs <;> rfl

/-- The request of the caller is on its way to the `Enter` of `Ring.run`. -/
def State.unsubmitted (s : State Unit) : Bool :=
  (s.callers ()).early.isSome || !s.completions.isEmpty || s.run.submits

theorem unsubmitted_move {z : Size} {s s' : State Unit} {a : Act Unit} (hm : Move z s a s')
    (hstart : ∀ id pick, a ≠ .complete () id pick) (hrun : a = .run → s.run ≠ .enter) :
    s'.unsubmitted = s.unsubmitted := by
  cases hm with
  | getPooled | getFresh => exact absurd rfl (hstart _ _)
  | enter h => exact absurd h (hrun rfl)
  | slotMiss h hmiss | delete h =>
    simp only [State.unsubmitted, advance_submits, h]
    rfl
  | post h | ack hfree h | completer h => rfl
  | setId h | setRes h | setFlags h | send h hroom | wake h hdone | readRes h | readFlags h
  | put h =>
    simp [State.unsubmitted, h, Caller.early]
  | takeCompletion h hc | pollTake h hc => simp [State.unsubmitted, h, hc, RunPc.submits]
  | pollNone h hc => simp [State.unsubmitted, h, hc, RunPc.submits]
  | _ =>
    rename_i h
    simp [State.unsubmitted, *, RunPc.submits]

/-- At its `Enter`, `Ring.run` has the request of the only caller and no other. -/
theorem SoloInv.at_enter {z : Size} {s : State Unit} {r : Nat} {id : UInt64} (hi : SoloInv z s)
    (hw : s.callers () = .wait r id) (hkey : s.inflight.lookup id = some r) :
    s.inflight.entries.length = 1 ∧ { s with run := .loadHead }.unsubmitted = false := by
  have hmem : ⟨id, r⟩ ∈ s.inflight.entries := AList.mem_lookup_iff.mp hkey
  have hpos := List.length_pos_of_mem hmem
  have hsingle := hi.single
  refine ⟨by omega, ?_⟩
  have hnone : s.completions = [] := by
    by_contra hne
    obtain ⟨r', hr'⟩ := List.exists_mem_of_ne_nil _ hne
    obtain ⟨g, id', hw', -, hunknown, -⟩ := hi.queued r' hr'
    rw [hw] at hw'
    cases hw'
    rw [hkey] at hunknown
    cases hunknown
  simp [State.unsubmitted, hw, hnone, Caller.early, RunPc.submits]

/-- After the insert the caller's request is in flight. -/
theorem SoloInv.at_insert {z : Size} {s : State Unit} {r : Nat} (hi : SoloInv z s)
    (hrun : s.run = .insert r) :
    ∃ id, s.callers () = .wait r id ∧ (s.inflight.insert (s.heap r).id r).lookup id = some r := by
  obtain ⟨⟨g, id, hw, -, -⟩, -⟩ := hi.inserting (r := r) (by rw [hrun]; rfl)
  have hid : (s.heap r).id = id := by
    have := hi.calls g
    rwa [hw] at this
  exact ⟨id, hw, by rw [hid]; exact AList.lookup_insert _⟩

/-! ## Room for the answer -/

/-- While the kernel has yet to complete what is in flight, the queue is empty. -/
theorem SoloInv.room {z : Size} {s : State Unit} {id : UInt64} (hi : SoloInv z s)
    (hkey : (s.inflight.lookup id).isSome) (hnew : id ∉ s.queue.posted.map (·.userData)) :
    (s.queue.cq.tail - s.queue.cq.head).toNat = 0 := by
  obtain ⟨H, hw, -⟩ := hi.window
  have hundelivered : id ∉ s.delivered := fun hdel => hnew (hi.known id hdel)
  have hother : ∀ id', (s.inflight.lookup id').isSome → id' = id :=
    fun id' h => key_eq_of_single hi.single h hkey
  have hsome : s.inflight.entries ≠ [] := by
    intro hnone
    rw [lookup_eq_none_of_entries hnone] at hkey
    cases hkey
  -- no delivery is under way, so the scan has counted nothing
  have hcounted : s.run.counted = 0 := by
    have hgives : ∀ r cqe, s.run.work.gives ≠ some (r, cqe) := by
      intro r cqe h
      obtain ⟨hposted, hl⟩ := hi.giving h
      have := hother cqe.userData (by rw [hl]; rfl)
      exact hnew (this ▸ List.mem_map_of_mem hposted)
    have hscan := hi.scan
    cases hrun : s.run with
    | slot k =>
      simp only [ScanInv, hrun] at hscan
      rcases hscan with ⟨hk, -⟩ | hnone
      · rw [hk]
        rfl
      · exact absurd hnone hsome
    | setRes k r cqe | setFlags k r cqe | done k r cqe =>
      rw [hrun] at hgives
      exact absurd rfl (hgives r cqe)
    | delete k r cqe =>
      simp only [ScanInv, hrun] at hscan
      have hwork : s.run.work = .delete r cqe := by rw [hrun]; rfl
      have hdel := (hi.deleting hwork).2
      have hne : id ≠ cqe.userData := by
        rintro rfl
        exact hundelivered hdel
      rw [← AList.lookup_erase_ne hne, lookup_eq_none_of_entries hscan] at hkey
      cases hkey
    | storeHead k =>
      simp only [ScanInv, hrun] at hscan
      rcases hscan with hzero | hnone
      · simp [RunPc.counted, hzero]
      · exact absurd hnone hsome
    | _ => rfl
  have hall : ∀ p < s.queue.posted.length, p < H := by
    intro p hp
    obtain ⟨c, hc⟩ : ∃ c, s.queue.posted[p]? = some c := ⟨_, List.getElem?_eq_getElem hp⟩
    have hmem := List.mem_of_getElem? hc
    rcases hi.answers c hmem with hdel | hk
    · have := hi.below p ⟨_, hdel, by rw [completion_queue.State.idAt, hc]; rfl⟩
      rwa [hw.headPos_eq, hcounted, Nat.add_zero] at this
    · exact absurd (hother _ hk ▸ List.mem_map_of_mem hmem) hnew
  rw [hw.distance]
  by_contra hne
  have := hall H (by omega)
  omega

end iouring.ring
