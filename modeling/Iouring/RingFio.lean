-- `ringFIO.getCqe`, for any number of goroutines on one ring whose
-- completions nobody else consumes, next to `completer.run` and the kernel.
-- A scan of the slots is taken slot by slot, so the kernel and the completer
-- may move on while it runs.
import Iouring.CompletionQueue

open counter machine
open iouring.completion_queue (CompletionEntry Window errnoOf)

namespace iouring.ring_fio

/-! ## The calls -/

/-- The arguments of `getCqe`, and the `ringFIO` it is called on. -/
structure Call where
  file : Nat
  reqID : UInt64
  count : Int
  min : Int
  deriving DecidableEq, Repr

/-- What `getCqe` returns. -/
inductive Result where
  | count (n : Int)
  | errno (e : UInt64)
  | enterFailed
  deriving DecidableEq, Repr

/-- Where a goroutine stands in `getCqe`. -/
inductive Pc where
  | idle
  | enter (c : Call)
  -- findCqe
  | loadHead (c : Call)
  | loadTail (c : Call) (head : UInt32)
  | first (c : Call) (x last : Nat)
  | reloadTail (c : Call)
  | second (c : Call) (x last : Nat)
  -- the entry is found in slot x
  | loadOffset (c : Call) (x : Nat) (cqe : CompletionEntry)
  | storeOffset (c : Call) (x : Nat) (cqe : CompletionEntry) (offset : Int64)
  | complete (c : Call) (x : Nat) (cqe : CompletionEntry)
  deriving DecidableEq, Repr

/-- The ring with its files. The ids that were asked for and found, and what
the calls returned, are kept for the laws only. -/
structure State (ι : Type) where
  queue : completion_queue.State
  fOffset : Nat → Int64
  pc : ι → Pc
  asked : List UInt64
  found : List UInt64
  results : List (UInt64 × Result)

def init (ι : Type) : State ι :=
  ⟨completion_queue.init, fun _ => 0, fun _ => .idle, [], [], []⟩

variable {ι : Type} [DecidableEq ι]

def State.goto (s : State ι) (g : ι) (p : Pc) : State ι :=
  { s with pc := Function.update s.pc g p }

def State.ret (s : State ι) (g : ι) (c : Call) (r : Result) : State ι :=
  { s.goto g .idle with results := s.results ++ [(c.reqID, r)] }

/-- The comparison of a slot with the id of the call. `miss` is where the loop
goes on. -/
def look (s : State ι) (g : ι) (c : Call) (x : Nat) (miss : Pc) : State ι :=
  let cqe := s.queue.cq.entries x
  if cqe.userData = c.reqID then
    let s' := { s with found := s.found ++ [c.reqID] }
    if cqe.res < 0 then s'.ret g c (.errno (errnoOf cqe.res)) else s'.goto g (.loadOffset c x cqe)
  else s.goto g miss

/-- The next step of a call. -/
def stepPc (z : Size) (s : State ι) (g : ι) : Option (State ι) :=
  match s.pc g with
  | .idle => none
  | .enter c => some (s.goto g (.loadHead c))
  | .loadHead c => some (s.goto g (.loadTail c s.queue.cq.head))
  | .loadTail c head =>
    some (s.goto g (.first c (head &&& z.mask).toNat (s.queue.cq.tail &&& z.mask).toNat))
  | .first c x last =>
    some (look s g c x
      (if x = last then .loadHead c
      else if x + 1 < z.slots then .first c (x + 1) last
      else .reloadTail c))
  | .reloadTail c =>
    let last := (s.queue.cq.tail &&& z.mask).toNat
    some (s.goto g (if 0 < last then .second c 0 last else .loadHead c))
  | .second c x last =>
    some (look s g c x
      (if x = last then .loadHead c
      else if x + 1 < last then .second c (x + 1) last
      else .loadHead c))
  | .loadOffset c x cqe => some (s.goto g (.storeOffset c x cqe (s.fOffset c.file)))
  | .storeOffset c x cqe offset =>
    some { s.goto g (.complete c x cqe) with
      fOffset := Function.update s.fOffset c.file (offset + cqe.res.toInt64) }
  | .complete c x cqe =>
    (completion_queue.complete s.queue x).map fun q =>
      { s.ret g c (.count cqe.res.toInt) with
        queue := { q with acked := q.acked ++ [(q.posted.map (·.userData)).idxOf c.reqID] } }

/-- What can happen next: the kernel posts an entry, the completer takes a
step, a goroutine calls `getCqe` with an id of its own or takes the next step
of its call, or its enter fails. -/
inductive Act (ι : Type) where
  | post (cqe : CompletionEntry)
  | completer
  | getCqe (g : ι) (c : Call)
  | step (g : ι)
  | fail (g : ι)
  deriving DecidableEq, Repr

def step (z : Size) (s : State ι) : Act ι → Option (State ι)
  | .post cqe => (completion_queue.post z s.queue cqe).map fun q => { s with queue := q }
  | .completer => (completion_queue.completerStep z s.queue).map fun q => { s with queue := q }
  | .getCqe g c =>
    if s.pc g = .idle ∧ c.reqID ∉ s.asked then
      some { s.goto g (if c.count > 0 ∨ c.min > 0 then .enter c else .loadHead c) with
        asked := s.asked ++ [c.reqID] }
    else none
  | .step g => stepPc z s g
  | .fail g =>
    match s.pc g with
    | .enter c => some (s.ret g c .enterFailed)
    | _ => none

/-! ## One step -/

/-- The call that a goroutine is in. -/
def Pc.call : Pc → Option Call
  | .idle => none
  | .enter c | .loadHead c | .loadTail c _ | .first c _ _ | .reloadTail c | .second c _ _
  | .loadOffset c _ _ | .storeOffset c _ _ _ | .complete c _ _ => some c

/-- The slot that a call is about to compare with its id. -/
def Pc.looks : Pc → Option (Call × Nat)
  | .first c x _ | .second c x _ => some (c, x)
  | _ => none

theorem Pc.call_of_looks {p : Pc} {c : Call} {x : Nat} (h : p.looks = some (c, x)) :
    p.call = some c := by
  cases p <;> cases h <;> rfl

/-- The entry that a call has found, with its slot. -/
def Pc.hit : Pc → Option (Call × Nat × CompletionEntry)
  | .loadOffset c x cqe | .storeOffset c x cqe _ | .complete c x cqe => some (c, x, cqe)
  | _ => none

theorem Pc.call_of_hit {p : Pc} {c : Call} {x : Nat} {cqe : CompletionEntry}
    (h : p.hit = some (c, x, cqe)) : p.call = some c := by
  cases p <;> cases h <;> rfl

/-- The indices of a scan are indices of `Entries`. -/
def Pc.InRange (z : Size) : Pc → Prop
  | .first _ x _ => x < z.slots
  | .second _ x last => x < last ∧ last < z.slots
  | _ => True

/-- The steps of the ring. The steps of a search that finds nothing are one case. -/
inductive Move (z : Size) (s : State ι) : Act ι → State ι → Prop
  | post {cqe q} (h : completion_queue.post z s.queue cqe = some q) :
      Move z s (.post cqe) { s with queue := q }
  | completer {q} (h : completion_queue.completerStep z s.queue = some q) :
      Move z s .completer { s with queue := q }
  | start {g c p} (h : s.pc g = .idle) (hid : c.reqID ∉ s.asked) (hp : p.call = some c)
      (hrange : p.InRange z) (hhit : p.hit = none) :
      Move z s (.getCqe g c) { s with
        pc := Function.update s.pc g p
        asked := s.asked ++ [c.reqID] }
  | search {g c p} (h : (s.pc g).call = some c) (hp : p.call = some c)
      (hrange : (s.pc g).InRange z → p.InRange z) (hhit : p.hit = none) :
      Move z s (.step g) { s with pc := Function.update s.pc g p }
  | fail {g c} (h : s.pc g = .enter c) :
      Move z s (.fail g) { s with
        pc := Function.update s.pc g .idle
        results := s.results ++ [(c.reqID, .enterFailed)] }
  | findError {g c x} (h : (s.pc g).looks = some (c, x))
      (hid : (s.queue.cq.entries x).userData = c.reqID) (hres : (s.queue.cq.entries x).res < 0) :
      Move z s (.step g) { s with
        found := s.found ++ [c.reqID]
        pc := Function.update s.pc g .idle
        results := s.results ++ [(c.reqID, Result.errno (errnoOf (s.queue.cq.entries x).res))] }
  | find {g c x} (h : (s.pc g).looks = some (c, x))
      (hid : (s.queue.cq.entries x).userData = c.reqID)
      (hres : ¬ (s.queue.cq.entries x).res < 0) :
      Move z s (.step g) { s with
        found := s.found ++ [c.reqID]
        pc := Function.update s.pc g (.loadOffset c x (s.queue.cq.entries x)) }
  | loadOffset {g c x cqe} (h : s.pc g = .loadOffset c x cqe) :
      Move z s (.step g) { s with
        pc := Function.update s.pc g (.storeOffset c x cqe (s.fOffset c.file)) }
  | storeOffset {g c x cqe offset} (h : s.pc g = .storeOffset c x cqe offset) :
      Move z s (.step g) { s with
        pc := Function.update s.pc g (.complete c x cqe)
        fOffset := Function.update s.fOffset c.file (offset + cqe.res.toInt64) }
  | complete {g c x cqe q} (h : s.pc g = .complete c x cqe)
      (hq : completion_queue.complete s.queue x = some q) :
      Move z s (.step g) { s with
        pc := Function.update s.pc g .idle
        results := s.results ++ [(c.reqID, .count cqe.res.toInt)]
        queue := { q with acked := q.acked ++ [(q.posted.map (·.userData)).idxOf c.reqID] } }

/-- A comparison finds the entry, or the search goes on. -/
theorem look_move {z : Size} {s : State ι} {g : ι} {c : Call} {x : Nat} {miss : Pc}
    (h : (s.pc g).looks = some (c, x)) (hmiss : miss.call = some c)
    (hrange : (s.pc g).InRange z → miss.InRange z) (hhit : miss.hit = none) :
    Move z s (.step g) (look s g c x miss) := by
  unfold look
  dsimp only
  split
  · rename_i hid
    split
    · exact .findError h hid ‹_›
    · exact .find h hid ‹_›
  · exact .search (Pc.call_of_looks h) hmiss hrange hhit

theorem stepPc_move {z : Size} {s s' : State ι} {g : ι} (h : stepPc z s g = some s') :
    Move z s (.step g) s' := by
  unfold stepPc at h
  split at h
  case h_1 => cases h
  case h_2 c hpc => cases h; exact .search (by rw [hpc]; rfl) rfl (fun _ => trivial) rfl
  case h_3 c hpc => cases h; exact .search (by rw [hpc]; rfl) rfl (fun _ => trivial) rfl
  case h_4 c head hpc =>
    cases h
    exact .search (by rw [hpc]; rfl) rfl (fun _ => z.and_mask_lt head) rfl
  case h_5 c x last hpc =>
    cases h
    apply look_move (by rw [hpc]; rfl)
    · split_ifs <;> rfl
    · intro _
      split_ifs with h1 h2
      · trivial
      · exact h2
      · trivial
    · split_ifs <;> rfl
  case h_6 c hpc =>
    cases h
    refine .search (by rw [hpc]; rfl) (by split_ifs <;> rfl) (fun _ => ?_) (by split_ifs <;> rfl)
    split_ifs with h1
    · exact ⟨h1, z.and_mask_lt _⟩
    · trivial
  case h_7 c x last hpc =>
    cases h
    apply look_move (by rw [hpc]; rfl)
    · split_ifs <;> rfl
    · rw [hpc]
      rintro ⟨-, hlast⟩
      split_ifs with h1 h2
      · trivial
      · exact ⟨h2, hlast⟩
      · trivial
    · split_ifs <;> rfl
  case h_8 hpc => cases h; exact .loadOffset hpc
  case h_9 hpc => cases h; exact .storeOffset hpc
  case h_10 hpc =>
    obtain ⟨q, hq, rfl⟩ := Option.map_eq_some_iff.mp h
    exact .complete hpc hq

/-- A call enters once, when it starts. -/
theorem stepPc_ne_enter {z : Size} {s s' : State ι} {g : ι} (h : stepPc z s g = some s')
    (c : Call) : s'.pc g ≠ .enter c := by
  have hlook : ∀ c' x miss, miss ≠ .enter c → (look s g c' x miss).pc g ≠ .enter c := by
    intro c' x miss hmiss
    unfold look
    dsimp only
    split_ifs
    · simp [State.ret, State.goto]
    · simp [State.goto]
    · simpa [State.goto] using hmiss
  unfold stepPc at h
  split at h
  case h_1 => cases h
  case h_5 => cases h; apply hlook; split_ifs <;> simp
  case h_6 => cases h; simp only [State.goto, Function.update_self]; split_ifs <;> simp
  case h_7 => cases h; apply hlook; split_ifs <;> simp
  case h_10 =>
    obtain ⟨q, -, rfl⟩ := Option.map_eq_some_iff.mp h
    simp [State.ret, State.goto]
  all_goals cases h; simp [State.goto]

theorem step_move {z : Size} {s s' : State ι} {a : Act ι} (h : step z s a = some s') :
    Move z s a s' := by
  cases a with
  | post cqe =>
    obtain ⟨q, hq, rfl⟩ := Option.map_eq_some_iff.mp h
    exact .post hq
  | completer =>
    obtain ⟨q, hq, rfl⟩ := Option.map_eq_some_iff.mp h
    exact .completer hq
  | getCqe g c =>
    simp only [step, Option.ite_none_right_eq_some] at h
    obtain ⟨⟨hidle, hid⟩, h⟩ := h
    cases h
    refine .start hidle hid ?_ ?_ ?_ <;> split_ifs <;> first | rfl | trivial
  | step g => exact stepPc_move h
  | fail g =>
    simp only [step] at h
    split at h
    · cases h; exact .fail ‹_›
    · cases h

end iouring.ring_fio
