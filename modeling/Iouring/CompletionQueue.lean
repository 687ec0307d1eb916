-- The completion queue: the kernel posts at `Tail`, consumers acknowledge
-- slots through `completer.complete`, and `completer.run` moves `Head` over
-- the slots that are acknowledged.
import Iouring.Machine
import Iouring.Counter
import Mathlib.Data.Finset.Basic
import Mathlib.Logic.Function.Basic

open counter

namespace iouring.completion_queue

/-! ## The queue and the kernel -/

/-- `CompletionEntry` of `types.go`. -/
structure CompletionEntry where
  userData : UInt64
  res : Int32
  flags : UInt32
  deriving DecidableEq, Repr

/-- A slot that the kernel has not written to yet. -/
def CompletionEntry.zero : CompletionEntry := ⟨0, 0, 0⟩

/-- `syscall.Errno(-cqe.Res)`. -/
def errnoOf (res : Int32) : UInt64 := (-res).toInt64.toUInt64

/-- The words of `CompletionQueue`. `Mask` and the length of `Entries` come
from the ring size and never change. -/
structure CompletionQueue where
  head : UInt32
  tail : UInt32
  entries : Nat → CompletionEntry

/-- Where `completer.run` stands. -/
inductive CompleterPc where
  | recv
  | loadHead
  | addHead (seen : Nat)
  deriving DecidableEq, Repr

/-- `completer`: the channel `seen`, and what `run` keeps. -/
structure Completer where
  seen : List Nat
  unacked : Finset Nat
  pc : CompleterPc
  deriving DecidableEq

/-- The queue with its completer. What the kernel has posted so far and which
positions have been acknowledged is kept for the laws only. A position counts
the posted entries from 0 on. -/
structure State where
  cq : CompletionQueue
  completer : Completer
  posted : List CompletionEntry
  acked : List Nat

def init : State := ⟨⟨0, 0, fun _ => .zero⟩, ⟨[], ∅, .recv⟩, [], []⟩

/-- The kernel writes an entry to the slot of `Tail` and moves `Tail` on, while the queue has
room. -/
def CompletionQueue.publish (z : Size) (cq : CompletionQueue) (c : CompletionEntry) :
    Option CompletionQueue :=
  if (cq.tail - cq.head).toNat < z.slots then
    some { cq with
      tail := cq.tail + 1
      entries := Function.update cq.entries (cq.tail &&& z.mask).toNat c }
  else none

/-- The kernel posts an entry, whatever its id. -/
def publish (z : Size) (s : State) (c : CompletionEntry) : Option State :=
  (s.cq.publish z c).map fun cq => { s with cq := cq, posted := s.posted ++ [c] }

/-- The kernel posts an entry, one for each id. -/
def post (z : Size) (s : State) (c : CompletionEntry) : Option State :=
  if c.userData ∉ s.posted.map (·.userData) then publish z s c else none

/-! ## The completer -/

/-- The buffer of `seen`, from `newCompleter(&cq, 512)`. -/
def seenCap : Nat := 512

/-- `completer.complete`: a send on `seen`, which blocks while the buffer is full. -/
def complete (s : State) (id : Nat) : Option State :=
  if s.completer.seen.length < seenCap then
    some { s with completer := { s.completer with seen := s.completer.seen ++ [id] } }
  else none

/-- A consumer acknowledges the slot of the entry at a position, once. -/
def ack (z : Size) (s : State) (p : Nat) : Option State :=
  if p < s.posted.length ∧ p ∉ s.acked then
    (complete s (p % z.slots)).map fun s' => { s' with acked := s'.acked ++ [p] }
  else none

/-- The inner loop of `completer.run`: take indices out of `unacked` from
`curHead + seen` on until one is missing. Each turn takes one out, so there are
no more turns than indices. -/
def sweep (curHead : Nat) : Nat → Nat → Finset Nat → Nat × Finset Nat
  | 0, seen, unacked => (seen, unacked)
  | turns + 1, seen, unacked =>
    if curHead + seen ∈ unacked then
      sweep curHead turns (seen + 1) (unacked.erase (curHead + seen))
    else (seen, unacked)

/-- The next step of `completer.run`. -/
def completerStep (z : Size) (s : State) : Option State :=
  match s.completer.pc with
  | .recv =>
    match s.completer.seen with
    | [] => none
    | id :: rest =>
      some { s with completer := ⟨rest, insert id s.completer.unacked, .loadHead⟩ }
  | .loadHead =>
    let curHead := (s.cq.head &&& z.mask).toNat
    let swept := sweep curHead s.completer.unacked.card 0 s.completer.unacked
    some { s with completer := ⟨s.completer.seen, swept.2, .addHead swept.1⟩ }
  | .addHead seen =>
    some { s with
      cq := { s.cq with head := s.cq.head + UInt32.ofNat seen }
      completer := { s.completer with pc := .recv } }

/-! ## What the slots hold -/

/-- The id of the entry at a position. -/
def State.idAt (s : State) (p : Nat) : Option UInt64 := s.posted[p]?.map (·.userData)

theorem idAt_append {s s' : State} {p : Nat} {id : UInt64} {l : List CompletionEntry}
    (hs : s'.posted = s.posted ++ l) (h : s.idAt p = some id) : s'.idAt p = some id := by
  simp only [State.idAt, Option.map_eq_some_iff] at h ⊢
  obtain ⟨c, hc, rfl⟩ := h
  rw [hs]
  exact ⟨c, List.getElem?_append_left (List.getElem?_eq_some_iff.mp hc).1 ▸ hc, rfl⟩

/-- What the slots hold, whatever becomes of `Head` and whatever the ids are. -/
structure Slots (z : Size) (s : State) : Prop where
  tail : s.cq.tail = word s.posted.length
  /-- A slot holds the last entry that was posted to it. -/
  slot : ∀ p c, s.posted[p]? = some c → s.posted.length ≤ p + z.slots →
    s.cq.entries (p % z.slots) = c
  /-- A slot that was never posted to is zero. -/
  blank : ∀ i, s.posted.length ≤ i → s.cq.entries i = .zero

/-- The slots, when each id is posted once. -/
structure Posted (z : Size) (s : State) : Prop extends Slots z s where
  ids : (s.posted.map (·.userData)).Nodup

theorem slots_init (z : Size) : Slots z init where
  tail := rfl
  slot := fun p c h => by simp [init] at h
  blank := fun _ _ => rfl

theorem posted_init (z : Size) : Posted z init := ⟨slots_init z, List.nodup_nil⟩

theorem CompletionQueue.publish_eq {z : Size} {cq cq' : CompletionQueue} {c : CompletionEntry}
    (h : cq.publish z c = some cq') :
    (cq.tail - cq.head).toNat < z.slots ∧
      cq' = { cq with
        tail := cq.tail + 1
        entries := Function.update cq.entries (cq.tail &&& z.mask).toNat c } := by
  simp only [CompletionQueue.publish, Option.ite_none_right_eq_some, Option.some.injEq] at h
  exact ⟨h.1, h.2.symm⟩

theorem publish_eq {z : Size} {s s' : State} {c : CompletionEntry} (h : publish z s c = some s') :
    (s.cq.tail - s.cq.head).toNat < z.slots ∧
      s' = { s with
        cq := { s.cq with
          tail := s.cq.tail + 1
          entries := Function.update s.cq.entries (s.cq.tail &&& z.mask).toNat c }
        posted := s.posted ++ [c] } := by
  obtain ⟨cq, hcq, rfl⟩ := Option.map_eq_some_iff.mp h
  obtain ⟨hroom, rfl⟩ := CompletionQueue.publish_eq hcq
  exact ⟨hroom, rfl⟩

/-- A post is a post of an id that is new. -/
theorem post_iff {z : Size} {s s' : State} {c : CompletionEntry} :
    post z s c = some s' ↔ c.userData ∉ s.posted.map (·.userData) ∧ publish z s c = some s' :=
  Option.ite_none_right_eq_some

theorem post_eq {z : Size} {s s' : State} {c : CompletionEntry} (h : post z s c = some s') :
    ((s.cq.tail - s.cq.head).toNat < z.slots ∧ c.userData ∉ s.posted.map (·.userData)) ∧
      s' = { s with
        cq := { s.cq with
          tail := s.cq.tail + 1
          entries := Function.update s.cq.entries (s.cq.tail &&& z.mask).toNat c }
        posted := s.posted ++ [c] } := by
  obtain ⟨hnew, hpublish⟩ := post_iff.mp h
  obtain ⟨hroom, heq⟩ := publish_eq hpublish
  exact ⟨⟨hroom, hnew⟩, heq⟩

theorem Slots.publish {z : Size} {s s' : State} {c : CompletionEntry} (h : Slots z s)
    (hpost : publish z s c = some s') : Slots z s' := by
  obtain ⟨-, rfl⟩ := publish_eq hpost
  have hindex : (s.cq.tail &&& z.mask).toNat = s.posted.length % z.slots := by
    rw [h.tail, word_slot]
  refine ⟨?_, ?_, ?_⟩
  · simp only [h.tail, word_succ, List.length_append, List.length_singleton]
  · intro p c' hp hlap
    simp only [List.length_append, List.length_singleton] at hlap
    simp only [hindex]
    rcases Nat.lt_trichotomy p s.posted.length with hlt | rfl | hgt
    · rw [List.getElem?_append_left hlt] at hp
      rw [Function.update_of_ne, h.slot p c' hp (by omega)]
      intro hslot
      have := slot_inj (z := z) (a := p) (Nat.le_refl _) (Nat.le_of_lt hlt) (by omega) (by omega)
        hslot
      omega
    · rw [Function.update_self]
      simpa using hp
    · rw [List.getElem?_eq_none (by simp; omega)] at hp
      cases hp
  · intro i hi
    simp only [List.length_append, List.length_singleton] at hi
    simp only [hindex]
    have := Nat.mod_le s.posted.length z.slots
    rw [Function.update_of_ne (by omega), h.blank i (by omega)]

theorem Posted.post {z : Size} {s s' : State} {c : CompletionEntry} (h : Posted z s)
    (hpost : post z s c = some s') : Posted z s' := by
  have hslots := h.toSlots.publish (post_iff.mp hpost).2
  obtain ⟨⟨-, hid⟩, rfl⟩ := post_eq hpost
  refine ⟨hslots, ?_⟩
  simp only [List.map_append, List.map_cons, List.map_nil]
  refine List.nodup_append.mpr ⟨h.ids, List.nodup_singleton _, ?_⟩
  rintro a ha b hb rfl
  rw [List.mem_singleton.mp hb] at ha
  exact hid ha

theorem ack_eq {z : Size} {s s' : State} {p : Nat} (h : ack z s p = some s') :
    (p < s.posted.length ∧ p ∉ s.acked) ∧
      s' = { s with
        completer := { s.completer with seen := s.completer.seen ++ [p % z.slots] }
        acked := s.acked ++ [p] } := by
  simp only [ack, complete, Option.ite_none_right_eq_some, Option.map_if, Option.some.injEq] at h
  exact ⟨h.1, h.2.2.symm⟩

/-- A send of the slot of a position acknowledges the position. -/
theorem ack_of_complete {z : Size} {s q : State} {p : Nat} (hlt : p < s.posted.length)
    (hnew : p ∉ s.acked) (h : complete s (p % z.slots) = some q) :
    q.posted = s.posted ∧ ack z s p = some { q with acked := q.acked ++ [p] } := by
  refine ⟨?_, ?_⟩
  · simp only [complete, Option.ite_none_right_eq_some, Option.some.injEq] at h
    rw [← h.2]
  · rw [ack, if_pos ⟨hlt, hnew⟩, h]
    rfl

/-- Ids are posted once, so an id leads back to its position. -/
theorem Posted.idxOf_idAt {z : Size} {s : State} (h : Posted z s) {p : Nat} {id : UInt64}
    (hat : s.idAt p = some id) : (s.posted.map (·.userData)).idxOf id = p := by
  rw [State.idAt, ← List.getElem?_map] at hat
  obtain ⟨hlen, hget⟩ := List.getElem?_eq_some_iff.mp hat
  rw [← hget, h.ids.idxOf_getElem]

/-- The completer writes to `Head` and to what it keeps itself. -/
theorem completerStep_frame {z : Size} {s s' : State} (h : completerStep z s = some s') :
    s'.posted = s.posted ∧ s'.acked = s.acked ∧ s'.cq.tail = s.cq.tail ∧
      s'.cq.entries = s.cq.entries := by
  unfold completerStep at h
  split at h
  · split at h
    · cases h
    · cases h
      exact ⟨rfl, rfl, rfl, rfl⟩
  · cases h
    exact ⟨rfl, rfl, rfl, rfl⟩
  · cases h
    exact ⟨rfl, rfl, rfl, rfl⟩

theorem Slots.frame {z : Size} {s s' : State} (h : Slots z s) (hposted : s'.posted = s.posted)
    (htail : s'.cq.tail = s.cq.tail) (hentries : s'.cq.entries = s.cq.entries) : Slots z s' := by
  refine ⟨?_, ?_, ?_⟩
  · rw [htail, hposted, h.tail]
  · rw [hposted, hentries]
    exact h.slot
  · rw [hposted, hentries]
    exact h.blank

theorem Posted.frame {z : Size} {s s' : State} (h : Posted z s) (hposted : s'.posted = s.posted)
    (htail : s'.cq.tail = s.cq.tail) (hentries : s'.cq.entries = s.cq.entries) :
    Posted z s' := by
  refine ⟨h.toSlots.frame hposted htail hentries, ?_⟩
  rw [hposted]
  exact h.ids

/-- A slot is zero or holds an entry of the last lap. -/
theorem Slots.entries_cases {z : Size} {s : State} (h : Slots z s) {i : Nat}
    (hi : i < z.slots) :
    (s.posted.length ≤ i ∧ s.cq.entries i = .zero) ∨
      ∃ p c, s.posted[p]? = some c ∧ p % z.slots = i ∧ s.cq.entries i = c := by
  by_cases hlt : s.posted.length ≤ i
  · exact Or.inl ⟨hlt, h.blank i hlt⟩
  · -- the last position below the tail that falls on slot i
    have hpos := z.slots_pos
    obtain ⟨d, hd, hd'⟩ : ∃ d, d < z.slots ∧ d = (s.posted.length - 1 - i) % z.slots :=
      ⟨_, Nat.mod_lt _ hpos, rfl⟩
    have hdiv := Nat.div_add_mod (s.posted.length - 1 - i) z.slots
    obtain ⟨q, hq⟩ : ∃ q, q = (s.posted.length - 1 - i) / z.slots := ⟨_, rfl⟩
    rw [← hq, ← hd'] at hdiv
    have hp : i + z.slots * q < s.posted.length := by omega
    have hslot := h.slot _ _ (List.getElem?_eq_getElem hp) (by omega)
    rw [Nat.add_mul_mod_self_left, Nat.mod_eq_of_lt hi] at hslot
    refine Or.inr ⟨i + z.slots * q, _, List.getElem?_eq_getElem hp, ?_, hslot⟩
    rw [Nat.add_mul_mod_self_left, Nat.mod_eq_of_lt hi]

/-! ## The window from `Head` to `Tail` -/

/-- The position that `Head` stands at. -/
def State.headPos (s : State) : Nat := s.posted.length - (s.cq.tail - s.cq.head).toNat

/-- The positions that the completer has taken off its set and not yet added to `Head`. -/
def CompleterPc.count : CompleterPc → Nat
  | .addHead seen => seen
  | _ => 0

/-- `Head` stands at the position `H`, whatever the ids are. Some other consumer
may release positions too: those that are `gone`. -/
structure Span (z : Size) (gone : Nat → Prop) (s : State) (H : Nat) : Prop
    extends Slots z s where
  head : s.cq.head = word H
  head_le : H ≤ s.posted.length
  room : s.posted.length ≤ H + z.slots
  below : ∀ p < H, p ∈ s.acked ∨ gone p
  acked_lt : ∀ p ∈ s.acked, p < s.posted.length
  apart : ∀ p ∈ s.acked, ¬ gone p
  /-- What the completer is about to add to `Head` is acknowledged. -/
  swept : ∀ p, H ≤ p → p < H + s.completer.pc.count → p ∈ s.acked
  /-- The indices that the completer still holds are slots of acknowledged
  positions ahead of it, each one once. -/
  index : ∀ i, i ∈ s.completer.seen ∨ i ∈ s.completer.unacked →
    ∃ p ∈ s.acked, H + s.completer.pc.count ≤ p ∧ p % z.slots = i
  seen_nodup : s.completer.seen.Nodup
  seen_apart : ∀ i ∈ s.completer.seen, i ∉ s.completer.unacked

/-- `Head` stands at the position `H`, and each id is posted once. -/
structure Window (z : Size) (gone : Nat → Prop) (s : State) (H : Nat) : Prop
    extends Span z gone s H, Posted z s

theorem span_init (z : Size) (gone : Nat → Prop) : Span z gone init 0 where
  toSlots := slots_init z
  head := rfl
  head_le := Nat.le_refl _
  room := Nat.zero_le _
  below := fun p hp => absurd hp (Nat.not_lt_zero p)
  acked_lt := fun p hp => by simp [init] at hp
  apart := fun p hp => by simp [init] at hp
  swept := fun p _ hp => absurd hp (Nat.not_lt_zero p)
  index := fun i hi => by simp [init] at hi
  seen_nodup := List.nodup_nil
  seen_apart := fun i hi => by simp [init] at hi

theorem window_init (z : Size) (gone : Nat → Prop) : Window z gone init 0 :=
  ⟨span_init z gone, List.nodup_nil⟩

/-- What the inner loop takes out: the indices from where it starts to where
it stops, all of which were there. -/
theorem sweep_spec (curHead turns seen : Nat) (u : Finset Nat) :
    seen ≤ (sweep curHead turns seen u).1 ∧
    (∀ j, seen ≤ j → j < (sweep curHead turns seen u).1 → curHead + j ∈ u) ∧
    ∀ i, i ∈ (sweep curHead turns seen u).2 ↔
      i ∈ u ∧ ¬ (curHead + seen ≤ i ∧ i < curHead + (sweep curHead turns seen u).1) := by
  have hstop : ∀ (seen : Nat) (u : Finset Nat),
      seen ≤ seen ∧ (∀ j, seen ≤ j → j < seen → curHead + j ∈ u) ∧
      ∀ i, i ∈ u ↔ i ∈ u ∧ ¬ (curHead + seen ≤ i ∧ i < curHead + seen) := fun seen u =>
    ⟨Nat.le_refl _, fun j h1 h2 => by omega, fun i => ⟨fun h => ⟨h, by omega⟩, fun h => h.1⟩⟩
  induction turns generalizing seen u with
  | zero => exact hstop seen u
  | succ turns ih =>
    rw [sweep]
    split
    · rename_i hmem
      obtain ⟨hge, hin, hout⟩ := ih (seen + 1) (u.erase (curHead + seen))
      refine ⟨by omega, fun j h1 h2 => ?_, fun i => ?_⟩
      · rcases Nat.eq_or_lt_of_le h1 with rfl | h1
        · exact hmem
        · exact Finset.mem_of_mem_erase (hin j h1 h2)
      · rw [hout, Finset.mem_erase]
        constructor
        · rintro ⟨⟨h1, h2⟩, h3⟩
          exact ⟨h2, by omega⟩
        · rintro ⟨h1, h2⟩
          exact ⟨⟨by omega, h1⟩, by omega⟩
    · exact hstop seen u

section Span

variable {z : Size} {gone : Nat → Prop} {s : State} {H : Nat}

/-- The distance of the two words is the number of entries in the window. -/
theorem Span.distance (h : Span z gone s H) :
    (s.cq.tail - s.cq.head).toNat = s.posted.length - H := by
  have h1 := h.head_le
  have h2 := h.room
  have h3 := z.slots_lt
  rw [h.head, h.tail, word_sub h1 (by omega)]

theorem Span.headPos_eq (h : Span z gone s H) : s.headPos = H := by
  have := h.head_le
  rw [State.headPos, h.distance]
  omega

/-- Counted from the word `Head`, slots are those of the positions from `H` on. -/
theorem Span.slot_head (h : Span z gone s H) (j : Nat) :
    (s.cq.head.toNat + j) % z.slots = (H + j) % z.slots := by
  rw [Nat.add_mod, h.head, word_mod, ← Nat.add_mod]

/-- An entry that is neither acknowledged nor gone is in the window. -/
theorem Span.head_le_of (h : Span z gone s H) {p : Nat} (ha : p ∉ s.acked) (hg : ¬ gone p) :
    H ≤ p := by
  by_contra hlt
  rcases h.below p (Nat.lt_of_not_le hlt) with h1 | h1
  · exact ha h1
  · exact hg h1

/-- An entry that is neither acknowledged nor gone is still in its slot. -/
theorem Span.entry_of (h : Span z gone s H) {p : Nat} {c : CompletionEntry}
    (hp : s.posted[p]? = some c) (ha : p ∉ s.acked) (hg : ¬ gone p) :
    s.cq.entries (p % z.slots) = c := by
  have h1 := h.head_le_of ha hg
  have h2 := h.room
  exact h.slot p c hp (by omega)

theorem Span.gone_mono (h : Span z gone s H) {gone' : Nat → Prop}
    (hmono : ∀ p, gone p → gone' p) (hapart : ∀ p ∈ s.acked, ¬ gone' p) :
    Span z gone' s H :=
  { h with
    below := fun p hp => (h.below p hp).imp_right (hmono p)
    apart := hapart }

theorem Span.publish (h : Span z gone s H) {c : CompletionEntry} {s' : State}
    (hpost : publish z s c = some s') : Span z gone s' H := by
  have hslots := h.toSlots.publish hpost
  obtain ⟨hroom, rfl⟩ := publish_eq hpost
  rw [h.distance] at hroom
  have hle := h.head_le
  refine { h with toSlots := hslots, head_le := ?_, room := ?_, acked_lt := ?_ }
  · simp only [List.length_append, List.length_singleton]
    omega
  · simp only [List.length_append, List.length_singleton]
    omega
  · intro p hp
    have := h.acked_lt p hp
    simp only [List.length_append, List.length_singleton]
    omega

/-- In the window a slot stands for one position. -/
theorem Span.eq_of_slot (h : Span z gone s H) {p q : Nat} (hp : H ≤ p)
    (hp' : p < s.posted.length) (hq : H ≤ q) (hq' : q < s.posted.length)
    (heq : p % z.slots = q % z.slots) : p = q := by
  have := h.room
  exact slot_inj hp hq (by omega) (by omega) heq

theorem Span.ack (h : Span z gone s H) {p : Nat} {s' : State} (hgone : ¬ gone p)
    (hack : ack z s p = some s') : Span z gone s' H := by
  obtain ⟨⟨hlt, hnew⟩, rfl⟩ := ack_eq hack
  have hle : H + s.completer.pc.count ≤ p := by
    have h1 := h.head_le_of hnew hgone
    by_contra hlt'
    exact hnew (h.swept p h1 (by omega))
  -- the new index is not one that the completer holds already
  have hfresh : p % z.slots ∉ s.completer.seen ∧ p % z.slots ∉ s.completer.unacked := by
    rw [← not_or]
    intro hold
    obtain ⟨q, hq, hq', hslot⟩ := h.index _ hold
    have hqp := h.eq_of_slot (by omega) (h.acked_lt q hq) (by omega) hlt hslot
    exact hnew (hqp ▸ hq)
  refine { h with below := ?_, acked_lt := ?_, apart := ?_, swept := ?_, index := ?_,
                  seen_nodup := ?_, seen_apart := ?_ }
  · exact fun q hq => (h.below q hq).imp_left (List.mem_append_left _)
  · intro q hq
    rcases List.mem_append.mp hq with hq | hq
    · exact h.acked_lt q hq
    · rw [List.mem_singleton.mp hq]
      exact hlt
  · intro q hq
    rcases List.mem_append.mp hq with hq | hq
    · exact h.apart q hq
    · rw [List.mem_singleton.mp hq]
      exact hgone
  · exact fun q h1 h2 => List.mem_append_left _ (h.swept q h1 h2)
  · intro i hi
    have hold : (i ∈ s.completer.seen ∨ i ∈ s.completer.unacked) ∨ i = p % z.slots := by
      simpa [or_right_comm] using hi
    rcases hold with hi | rfl
    · obtain ⟨q, hq, hq'⟩ := h.index i hi
      exact ⟨q, List.mem_append_left _ hq, hq'⟩
    · exact ⟨p, by simp, hle, rfl⟩
  · refine List.nodup_append.mpr ⟨h.seen_nodup, List.nodup_singleton _, ?_⟩
    rintro a ha b hb rfl
    rw [List.mem_singleton.mp hb] at ha
    exact hfresh.1 ha
  · intro i hi
    rcases List.mem_append.mp hi with hi | hi
    · exact h.seen_apart i hi
    · rw [List.mem_singleton.mp hi]
      exact hfresh.2

theorem Span.recv (h : Span z gone s H) {id : Nat} {rest : List Nat}
    (hpc : s.completer.pc = .recv) (hseen : s.completer.seen = id :: rest) :
    Span z gone
      { s with completer := ⟨rest, insert id s.completer.unacked, .loadHead⟩ } H := by
  have hcount : s.completer.pc.count = 0 := by rw [hpc]; rfl
  have hnodup := h.seen_nodup
  rw [hseen] at hnodup
  refine { h with swept := ?_, index := ?_, seen_nodup := hnodup.of_cons, seen_apart := ?_ }
  · exact fun p h1 h2 => absurd h2 (Nat.not_lt.mpr h1)
  · intro i hi
    have hold : i ∈ s.completer.seen ∨ i ∈ s.completer.unacked := by
      rw [hseen, List.mem_cons]
      simp only [Finset.mem_insert] at hi
      rcases hi with hi | hi | hi
      · exact Or.inl (Or.inr hi)
      · exact Or.inl (Or.inl hi)
      · exact Or.inr hi
    have := h.index i hold
    rwa [hcount] at this
  · intro i hi hi'
    rcases Finset.mem_insert.mp hi' with rfl | hi'
    · exact (List.nodup_cons.mp hnodup).1 hi
    · exact h.seen_apart i (hseen ▸ List.mem_cons_of_mem _ hi) hi'

theorem Span.loadHead (h : Span z gone s H) (hpc : s.completer.pc = .loadHead)
    {swept : Nat × Finset Nat}
    (hswept : swept = sweep (s.cq.head &&& z.mask).toNat s.completer.unacked.card 0
      s.completer.unacked) :
    Span z gone { s with completer := ⟨s.completer.seen, swept.2, .addHead swept.1⟩ } H := by
  obtain ⟨-, hin, hout⟩ := sweep_spec (s.cq.head &&& z.mask).toNat s.completer.unacked.card 0
    s.completer.unacked
  rw [← hswept, h.head, word_slot] at hin hout
  have hcount : s.completer.pc.count = 0 := by rw [hpc]; rfl
  have hroom := h.room
  have hindex := h.index
  rw [hcount] at hindex
  -- the index that the loop finds at curHead + j is the slot of H + j
  have hpos : ∀ j < swept.1, H + j ∈ s.acked ∧ (H + j) % z.slots = H % z.slots + j := by
    intro j hj
    obtain ⟨p, hp, hle, hslot⟩ := hindex _ (Or.inr (hin j (Nat.zero_le j) hj))
    have hlt := h.acked_lt p hp
    have hsmall : H % z.slots + j < z.slots := hslot ▸ Nat.mod_lt p z.slots_pos
    have hslot' : (H + j) % z.slots = H % z.slots + j := by
      rw [Nat.add_mod, Nat.mod_eq_of_lt (a := j) (by omega), Nat.mod_eq_of_lt hsmall]
    have hpj : p = H + j :=
      slot_inj (a := H) hle (by omega) (by omega) (by omega) (hslot.trans hslot'.symm)
    exact ⟨hpj ▸ hp, hslot'⟩
  refine { h with swept := ?_, index := ?_, seen_apart := ?_ }
  · intro p h1 h2
    obtain ⟨j, rfl⟩ : ∃ j, p = H + j := ⟨p - H, by omega⟩
    exact (hpos j (by simp only [CompleterPc.count] at h2; omega)).1
  · intro i hi
    simp only [hout] at hi
    obtain ⟨p, hp, hle, hslot⟩ := hindex i (hi.imp_right And.left)
    refine ⟨p, hp, ?_, hslot⟩
    by_contra hlt
    simp only [CompleterPc.count] at hlt
    obtain ⟨j, rfl⟩ : ∃ j, p = H + j := ⟨p - H, by omega⟩
    have hj := (hpos j (by omega)).2
    rw [hslot] at hj
    rcases hi with hi | ⟨-, hi⟩
    · exact h.seen_apart i hi (hj ▸ hin j (Nat.zero_le j) (by omega))
    · omega
  · exact fun i hi hi' => h.seen_apart i hi ((hout i).mp hi').1

theorem Span.addHead (h : Span z gone s H) {seen : Nat}
    (hpc : s.completer.pc = .addHead seen) :
    Span z gone
      { s with
        cq := { s.cq with head := s.cq.head + UInt32.ofNat seen }
        completer := { s.completer with pc := .recv } } (H + seen) := by
  have hcount : s.completer.pc.count = seen := by rw [hpc]; rfl
  have hswept := h.swept
  have hindex := h.index
  rw [hcount] at hswept hindex
  have hroom := h.room
  have hle := h.head_le
  refine { h with head := ?_, head_le := ?_, room := ?_, below := ?_, swept := ?_, index := hindex }
  · rw [h.head]
    exact word_add H seen
  · rcases Nat.eq_zero_or_pos seen with rfl | hpos
    · exact hle
    · have := h.acked_lt _ (hswept (H + seen - 1) (by omega) (by omega))
      simp only
      omega
  · simp only
    omega
  · intro p hp
    by_cases hlt : p < H
    · exact h.below p hlt
    · exact Or.inl (hswept p (Nat.le_of_not_lt hlt) hp)
  · exact fun p h1 h2 => absurd h2 (Nat.not_lt.mpr h1)

/-- The completer keeps the window and moves `Head` inside it. -/
theorem Span.completerStep (h : Span z gone s H) {s' : State}
    (hstep : completerStep z s = some s') :
    ∃ H', H ≤ H' ∧ (∀ p, H ≤ p → p < H' → p ∈ s.acked) ∧ Span z gone s' H' := by
  unfold completion_queue.completerStep at hstep
  split at hstep
  · rename_i hpc
    split at hstep
    · cases hstep
    · rename_i id rest hseen
      cases hstep
      exact ⟨H, Nat.le_refl _, fun p h1 h2 => by omega, h.recv hpc hseen⟩
  · rename_i hpc
    cases hstep
    exact ⟨H, Nat.le_refl _, fun p h1 h2 => by omega, h.loadHead hpc rfl⟩
  · rename_i seen hpc
    cases hstep
    refine ⟨H + seen, Nat.le_add_right .., fun p h1 h2 => h.swept p h1 ?_, h.addHead hpc⟩
    rwa [hpc]

/-- Another consumer moves `Head` over positions that are gone. -/
theorem Span.release (h : Span z gone s H) {m : Nat} (hm : H + m ≤ s.posted.length)
    (hgone : ∀ p, H ≤ p → p < H + m → gone p) :
    Span z gone { s with cq := { s.cq with head := word (H + m) } } (H + m) := by
  have hroom := h.room
  -- a position that is gone is not one that the completer has just passed
  have hfar : ∀ p ∈ s.acked, H ≤ p → H + m ≤ p := by
    intro p hp h1
    by_contra h2
    exact h.apart p hp (hgone p h1 (by omega))
  have hcount : m = 0 ∨ s.completer.pc.count = 0 := by
    by_contra hboth
    have := hfar H (h.swept H (Nat.le_refl _) (by omega)) (Nat.le_refl _)
    omega
  refine { h with head := rfl, head_le := hm, room := ?_, below := ?_, swept := ?_, index := ?_ }
  · simp only
    omega
  · intro p hp
    by_cases hlt : p < H
    · exact h.below p hlt
    · exact Or.inr (hgone p (Nat.le_of_not_lt hlt) hp)
  · intro p h1 h2
    simp only at h2
    exact h.swept p (by omega) (by omega)
  · intro i hi
    obtain ⟨p, hp, hle, hslot⟩ := h.index i hi
    have := hfar p hp (by omega)
    refine ⟨p, hp, ?_, hslot⟩
    simp only
    omega

end Span

section Window

variable {z : Size} {gone : Nat → Prop} {s : State} {H : Nat}

theorem Window.gone_mono (h : Window z gone s H) {gone' : Nat → Prop}
    (hmono : ∀ p, gone p → gone' p) (hapart : ∀ p ∈ s.acked, ¬ gone' p) :
    Window z gone' s H := ⟨h.toSpan.gone_mono hmono hapart, h.ids⟩

theorem Window.post (h : Window z gone s H) {c : CompletionEntry} {s' : State}
    (hpost : post z s c = some s') : Window z gone s' H :=
  ⟨h.toSpan.publish (post_iff.mp hpost).2, (h.toPosted.post hpost).ids⟩

theorem Window.ack (h : Window z gone s H) {p : Nat} {s' : State} (hgone : ¬ gone p)
    (hack : ack z s p = some s') : Window z gone s' H := by
  refine ⟨h.toSpan.ack hgone hack, ?_⟩
  obtain ⟨-, rfl⟩ := ack_eq hack
  exact h.ids

theorem Window.completerStep (h : Window z gone s H) {s' : State}
    (hstep : completerStep z s = some s') :
    ∃ H', H ≤ H' ∧ (∀ p, H ≤ p → p < H' → p ∈ s.acked) ∧ Window z gone s' H' := by
  obtain ⟨H', hle, hpassed, hspan⟩ := h.toSpan.completerStep hstep
  refine ⟨H', hle, hpassed, hspan, ?_⟩
  rw [(completerStep_frame hstep).1]
  exact h.ids

theorem Window.release (h : Window z gone s H) {m : Nat} (hm : H + m ≤ s.posted.length)
    (hgone : ∀ p, H ≤ p → p < H + m → gone p) :
    Window z gone { s with cq := { s.cq with head := word (H + m) } } (H + m) :=
  ⟨h.toSpan.release hm hgone, h.ids⟩

end Window

end iouring.completion_queue
