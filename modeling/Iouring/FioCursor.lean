-- `Read` and `Write` of one `ringFIO` from any number of goroutines: the cursor
-- is loaded into the entry when an operation is prepared, and moved by a load
-- and a store of their own when its completion is found.
import Iouring.FioResults
import Mathlib.Algebra.BigOperators.Group.List.Basic

open counter machine
open iouring.completion_queue (CompletionEntry)

namespace iouring.fio_cursor

open ring_fio (FioInv Pc WrittenStep stepPc_move)

/-! ## The operations -/

/-- An operation that is prepared: the offset in its entry, and its id. -/
structure Op where
  offset : Int64
  id : UInt64
  deriving DecidableEq, Repr

/-- The bytes that the kernel has transferred for an operation. -/
structure Transfer where
  offset : Int
  count : Int
  deriving DecidableEq, Repr

def Transfer.covers (t : Transfer) (x : Int) : Prop := t.offset ≤ x ∧ x < t.offset + t.count

/-- The ring with one file, the operation of each goroutine, the ids that are
used up, and the transfers so far. -/
structure State (ι : Type) where
  fio : ring_fio.State ι
  op : ι → Option Op
  used : List UInt64
  transfers : List Transfer

/-- The ring before any operation, with the cursor at `o`. -/
def init (ι : Type) (o : Int64) : State ι :=
  ⟨{ ring_fio.init ι with fOffset := fun _ => o }, fun _ => none, [], []⟩

variable {ι : Type}

def State.cursor (s : State ι) : Int64 := s.fio.fOffset 0

/-- Where the cursor belongs: behind all that was transferred. -/
def State.due (o : Int64) (s : State ι) : Int := o.toInt + (s.transfers.map (·.count)).sum

/-- What can happen next: a goroutine prepares an operation with a new id or
calls `getCqe` for it, the kernel completes it, the completer takes a step, or a
goroutine takes the next step of its call. -/
inductive Act (ι : Type) where
  | prepare (g : ι) (id : UInt64)
  | call (g : ι)
  | transfer (g : ι) (res : Int32)
  | completer
  | step (g : ι)
  deriving DecidableEq, Repr

/-- The kernel transfers `res ≥ 0` bytes at the offset in the entry, inside the
range of file offsets. -/
def step [DecidableEq ι] (z : Size) (s : State ι) : Act ι → Option (State ι)
  | .prepare g id =>
    if s.op g = none ∧ id ∉ s.used then
      some { s with
        op := Function.update s.op g (some ⟨s.cursor, id⟩)
        used := s.used ++ [id] }
    else none
  | .call g =>
    match s.op g with
    | none => none
    | some op =>
      (ring_fio.step z s.fio (.getCqe g ⟨0, op.id, 1, 1⟩)).map fun f => { s with fio := f }
  | .transfer g res =>
    match s.op g with
    | none => none
    | some op =>
      if 0 ≤ res.toInt ∧ 0 ≤ op.offset.toInt ∧ op.offset.toInt + res.toInt < 2 ^ 63 then
        (ring_fio.step z s.fio (.post ⟨op.id, res, 0⟩)).map fun f =>
          { s with fio := f, transfers := s.transfers ++ [⟨op.offset.toInt, res.toInt⟩] }
      else none
  | .completer => (ring_fio.step z s.fio .completer).map fun f => { s with fio := f }
  | .step g =>
    (ring_fio.step z s.fio (.step g)).map fun f =>
      { s with fio := f, op := if f.pc g = .idle then Function.update s.op g none else s.op }

/-! ## The law and the steps that keep it -/

/-- No byte is transferred twice, and between operations the cursor is where it
belongs. -/
def CursorLaw (o : Int64) (s : State ι) : Prop :=
  s.transfers.Pairwise (fun t t' => ∀ x, ¬ (t.covers x ∧ t'.covers x)) ∧
  ((∀ g, s.op g = none) → s.cursor.toInt = s.due o)

/-- The goroutine has stored the cursor. -/
def stored : Pc → Bool
  | .complete _ _ _ => true
  | _ => false

theorem stored_of_hit {p : Pc} (h : p.hit = none) : stored p = false := by
  cases p with
  | complete c x cqe => cases h
  | _ => rfl

/-- The goroutine is between the load of the cursor into its entry and the store. -/
def State.Open (s : State ι) (g : ι) : Prop := s.op g ≠ none ∧ stored (s.fio.pc g) = false

/-- An operation is prepared only when no other one is open; and no call for id 0
compares a slot that was never written. -/
def SerialStep (s : State ι) : Act ι → Prop
  | .prepare _ _ => ∀ g, ¬ s.Open g
  | .step g => WrittenStep s.fio (.step g)
  | _ => True

instance (s : State ι) (g : ι) : Decidable (s.Open g) := inferInstanceAs (Decidable (_ ∧ _))

instance [Fintype ι] (s : State ι) : ∀ a, Decidable (SerialStep s a)
  | .prepare _ _ => inferInstanceAs (Decidable (∀ g, ¬ s.Open g))
  | .step g => inferInstanceAs (Decidable (WrittenStep s.fio (.step g)))
  | .call _ | .transfer _ _ | .completer => isTrue trivial

/-! ## The invariant -/

/-- How far the open operation has come, if there is one. -/
inductive Phase (o : Int64) (s : State ι) : Prop
  | quiet (hnone : ∀ g, ¬ s.Open g) (hcursor : s.cursor.toInt = s.due o)
  | prepared (g : ι) (op : Op) (hop : s.op g = some op) (hopen : stored (s.fio.pc g) = false)
      (honly : ∀ g', s.Open g' → g' = g)
      (hnew : op.id ∉ s.fio.queue.posted.map (·.userData))
      (hoffset : op.offset = s.cursor) (hcursor : s.cursor.toInt = s.due o)
  | moved (g : ι) (op : Op) (cqe : CompletionEntry) (hop : s.op g = some op)
      (hopen : stored (s.fio.pc g) = false) (honly : ∀ g', s.Open g' → g' = g)
      (hposted : cqe ∈ s.fio.queue.posted) (hid : cqe.userData = op.id)
      (hcursor : s.cursor.toInt + cqe.res.toInt = s.due o) (hpos : 0 ≤ s.cursor.toInt)
      (hfit : s.due o < 2 ^ 63)
      (hload : ∀ c x cqe' offset, s.fio.pc g = .storeOffset c x cqe' offset → offset = s.cursor)

structure CursorInv (z : Size) (o : Int64) (s : State ι) : Prop where
  fio : FioInv z s.fio
  idle : ∀ g, s.op g = none → s.fio.pc g = .idle
  call : ∀ g c, (s.fio.pc g).call = some c → c.file = 0 ∧ ∃ op, s.op g = some op ∧ op.id = c.reqID
  ids : ∀ g op, s.op g = some op → op.id ∈ s.used
  used : ∀ cqe ∈ s.fio.queue.posted, cqe.userData ∈ s.used
  counts : ∀ cqe ∈ s.fio.queue.posted, 0 ≤ cqe.res.toInt
  apart : s.transfers.Pairwise (fun t t' => ∀ x, ¬ (t.covers x ∧ t'.covers x))
  below : ∀ t ∈ s.transfers, t.offset + t.count ≤ s.due o
  phase : Phase o s

theorem cursorInv_init (z : Size) (o : Int64) : CursorInv z o (init ι o) where
  fio := { ring_fio.fioInv_init z with }
  idle := fun _ _ => rfl
  call := fun _ _ h => by cases h
  ids := fun _ _ h => by cases h
  used := fun _ h => by cases h
  counts := fun _ h => by cases h
  apart := List.Pairwise.nil
  below := fun _ h => by cases h
  phase := .quiet (fun g h => h.1 rfl) (by simp [State.cursor, State.due, init])

theorem cursorLaw_of_inv {z : Size} {o : Int64} {s : State ι} (h : CursorInv z o s) :
    CursorLaw o s := by
  refine ⟨h.apart, fun hnone => ?_⟩
  cases h.phase with
  | quiet _ hcursor => exact hcursor
  | prepared g op hop => rw [hnone g] at hop; cases hop
  | moved g op cqe hop => rw [hnone g] at hop; cases hop

/-- The open operation is the only one. Either the kernel has not completed it, and it
was prepared at the place where the cursor belongs, or the cursor is behind by what
it transferred. -/
theorem Phase.of_open {o : Int64} {s : State ι} (h : Phase o s) {g : ι} {op : Op}
    (hop : s.op g = some op) (hopen : stored (s.fio.pc g) = false) :
    (∀ g', s.Open g' → g' = g) ∧
      ((op.id ∉ s.fio.queue.posted.map (·.userData) ∧ op.offset = s.cursor ∧
          s.cursor.toInt = s.due o) ∨
        ∃ cqe ∈ s.fio.queue.posted, cqe.userData = op.id ∧
          s.cursor.toInt + cqe.res.toInt = s.due o ∧ 0 ≤ s.cursor.toInt ∧ s.due o < 2 ^ 63 ∧
          ∀ c x cqe' offset, s.fio.pc g = .storeOffset c x cqe' offset → offset = s.cursor) := by
  have hg : s.Open g := ⟨by rw [hop]; simp, hopen⟩
  cases h with
  | quiet hnone => exact absurd hg (hnone g)
  | prepared g0 op0 hop0 _ honly hnew hoffset hcursor =>
    obtain rfl := honly g hg
    rw [hop] at hop0
    cases hop0
    exact ⟨honly, Or.inl ⟨hnew, hoffset, hcursor⟩⟩
  | moved g0 op0 cqe hop0 _ honly hposted hid hcursor hpos hfit hload =>
    obtain rfl := honly g hg
    rw [hop] at hop0
    cases hop0
    exact ⟨honly, Or.inr ⟨cqe, hposted, hid, hcursor, hpos, hfit, hload⟩⟩

/-- A step that moves neither cursor nor transfers, and opens and closes nothing. -/
theorem Phase.frame {o : Int64} {s s' : State ι} (h : Phase o s)
    (hcur : s'.cursor = s.cursor) (hposted : s'.fio.queue.posted = s.fio.queue.posted)
    (htransfers : s'.transfers = s.transfers)
    (hkeep : ∀ g op, s.op g = some op → stored (s.fio.pc g) = false →
      s'.op g = some op ∧ stored (s'.fio.pc g) = false)
    (hopen : ∀ g, s'.Open g → s.Open g)
    (hload : ∀ g c x cqe offset, s'.fio.pc g = .storeOffset c x cqe offset →
      s.fio.pc g = .storeOffset c x cqe offset ∨ offset = s.cursor) : Phase o s' := by
  have hdue : s'.due o = s.due o := by rw [State.due, State.due, htransfers]
  cases h with
  | quiet hnone hcursor =>
    exact .quiet (fun g hg => hnone g (hopen g hg)) (by rw [hcur, hdue, hcursor])
  | prepared g op hop hopen' honly hnew hoffset hcursor =>
    obtain ⟨hop', hs'⟩ := hkeep g op hop hopen'
    exact .prepared g op hop' hs' (fun g' hg' => honly g' (hopen g' hg')) (by rwa [hposted])
      (by rw [hcur, hoffset]) (by rw [hcur, hdue, hcursor])
  | moved g op cqe hop hopen' honly hmem hid hcursor hpos hfit hload' =>
    obtain ⟨hop', hs'⟩ := hkeep g op hop hopen'
    refine .moved g op cqe hop' hs' (fun g' hg' => honly g' (hopen g' hg')) (by rwa [hposted]) hid
      (by rw [hcur, hdue, hcursor]) (by rwa [hcur]) (by rwa [hdue]) ?_
    intro c x cqe' offset hpc
    rw [hcur]
    rcases hload g c x cqe' offset hpc with hold | hnew
    · exact hload' c x cqe' offset hold
    · exact hnew

/-- What a step has to show when it posts and transfers nothing. -/
theorem CursorInv.frame {z : Size} {o : Int64} {s s' : State ι} (h : CursorInv z o s)
    (hf : FioInv z s'.fio) (hidle : ∀ g, s'.op g = none → s'.fio.pc g = .idle)
    (hcall : ∀ g c, (s'.fio.pc g).call = some c →
      c.file = 0 ∧ ∃ op, s'.op g = some op ∧ op.id = c.reqID)
    (hids : ∀ g op, s'.op g = some op → op.id ∈ s'.used)
    (hposted : s'.fio.queue.posted = s.fio.queue.posted) (hused : s.used ⊆ s'.used)
    (htransfers : s'.transfers = s.transfers) (hphase : Phase o s') : CursorInv z o s' := by
  have hdue : s'.due o = s.due o := by rw [State.due, State.due, htransfers]
  refine ⟨hf, hidle, hcall, hids, ?_, ?_, ?_, ?_, hphase⟩
  · rw [hposted]
    exact fun cqe hcqe => hused (h.used cqe hcqe)
  · rw [hposted]
    exact h.counts
  · rw [htransfers]
    exact h.apart
  · rw [htransfers, hdue]
    exact h.below

/-- What a call has found is the completion of the goroutine's operation. -/
theorem CursorInv.posted_of_hit {z : Size} {o : Int64} {s : State ι} (h : CursorInv z o s)
    {g : ι} {op : Op} {c : ring_fio.Call} {x : Nat} {cqe : CompletionEntry}
    (hop : s.op g = some op) (hhit : (s.fio.pc g).hit = some (c, x, cqe)) :
    c.file = 0 ∧ cqe ∈ s.fio.queue.posted ∧ cqe.userData = op.id := by
  have hcall := Pc.call_of_hit hhit
  obtain ⟨-, hposted, hid, -⟩ := h.fio.hit_posted hcall hhit
  obtain ⟨hfile, op', hop', hid'⟩ := h.call g c hcall
  rw [hop] at hop'
  cases hop'
  exact ⟨hfile, hposted, hid.trans hid'.symm⟩

theorem CursorInv.mem_of_hit {z : Size} {o : Int64} {s : State ι} (h : CursorInv z o s)
    {g : ι} {op : Op} {c : ring_fio.Call} {x : Nat} {cqe : CompletionEntry}
    (hop : s.op g = some op) (hhit : (s.fio.pc g).hit = some (c, x, cqe)) :
    op.id ∈ s.fio.queue.posted.map (·.userData) := by
  obtain ⟨-, hposted, hid⟩ := h.posted_of_hit hop hhit
  rw [← hid]
  exact List.mem_map_of_mem hposted

/-- The kernel completes the open operation. -/
theorem CursorInv.transfer {z : Size} {o : Int64} {s : State ι} (h : CursorInv z o s) {g : ι}
    {op : Op} {res : Int32} {q : completion_queue.State} (hop : s.op g = some op)
    (hres : 0 ≤ res.toInt) (hpos : 0 ≤ op.offset.toInt)
    (hfit : op.offset.toInt + res.toInt < 2 ^ 63)
    (hq : completion_queue.post z s.fio.queue ⟨op.id, res, 0⟩ = some q)
    (hf : FioInv z { s.fio with queue := q }) :
    CursorInv z o { s with
      fio := { s.fio with queue := q }
      transfers := s.transfers ++ [⟨op.offset.toInt, res.toInt⟩] } := by
  obtain ⟨⟨-, hnew⟩, rfl⟩ := completion_queue.post_eq hq
  have hopen : stored (s.fio.pc g) = false := by
    cases hpc : s.fio.pc g with
    | complete c x cqe => exact absurd (h.mem_of_hit hop (by rw [hpc]; rfl)) hnew
    | _ => rfl
  obtain ⟨honly, hphase⟩ := h.phase.of_open hop hopen
  obtain ⟨hoffset, hcursor⟩ : op.offset.toInt = s.due o ∧ s.cursor.toInt = s.due o := by
    rcases hphase with ⟨-, hoffset, hcursor⟩ | ⟨cqe, hposted, hid, -⟩
    · exact ⟨by rw [hoffset, hcursor], hcursor⟩
    · exact absurd (List.mem_map.mpr ⟨cqe, hposted, hid⟩) hnew
  have hdue : ∀ q, State.due o { s with
      fio := { s.fio with queue := q }
      transfers := s.transfers ++ [⟨op.offset.toInt, res.toInt⟩] } = s.due o + res.toInt := by
    intro q
    simp [State.due, add_assoc]
  refine ⟨hf, h.idle, h.call, h.ids, ?_, ?_, ?_, ?_, ?_⟩
  · exact List.forall_mem_append.mpr ⟨h.used, List.forall_mem_singleton.mpr (h.ids g op hop)⟩
  · exact List.forall_mem_append.mpr ⟨h.counts, List.forall_mem_singleton.mpr hres⟩
  · refine List.pairwise_append.mpr ⟨h.apart, List.pairwise_singleton .., ?_⟩
    rintro t ht t' ht' x ⟨hx, hx'⟩
    rw [List.mem_singleton.mp ht'] at hx'
    have hbelow := h.below t ht
    simp only [Transfer.covers] at hx hx'
    omega
  · rw [hdue]
    refine List.forall_mem_append.mpr ⟨fun t ht => ?_, List.forall_mem_singleton.mpr ?_⟩
    · have hbelow := h.below t ht
      omega
    · simp only
      omega
  · refine .moved g op ⟨op.id, res, 0⟩ hop hopen honly (by simp) rfl ?_ ?_ ?_ ?_
    · rw [hdue]
      exact congrArg (· + res.toInt) hcursor
    · exact hcursor ▸ hoffset ▸ hpos
    · rw [hdue]
      omega
    · intro c x cqe offset hpc
      have hhit : (s.fio.pc g).hit = some (c, x, cqe) := congrArg Pc.hit hpc
      exact absurd (h.mem_of_hit hop hhit) hnew

variable [DecidableEq ι]

/-- An operation is prepared while no other one is open. -/
theorem CursorInv.prepare {z : Size} {o : Int64} {s : State ι} (h : CursorInv z o s) {g : ι}
    {id : UInt64} (hop : s.op g = none) (hid : id ∉ s.used) (hserial : ∀ g, ¬ s.Open g) :
    CursorInv z o { s with
      op := Function.update s.op g (some ⟨s.cursor, id⟩)
      used := s.used ++ [id] } := by
  have hidle := h.idle g hop
  have hcursor : s.cursor.toInt = s.due o := by
    cases h.phase with
    | quiet _ hcursor => exact hcursor
    | prepared g' op hop' hopen => exact absurd ⟨by rw [hop']; simp, hopen⟩ (hserial g')
    | moved g' op cqe hop' hopen => exact absurd ⟨by rw [hop']; simp, hopen⟩ (hserial g')
  refine h.frame h.fio ?_ ?_ ?_ rfl (List.subset_append_left ..) rfl ?_
  · intro g' hg'
    rcases update_cases (f := fun x => x) hg' with ⟨-, hg'⟩ | ⟨-, hg'⟩
    · cases hg'
    · exact h.idle g' hg'
  · intro g' c hc
    obtain ⟨hfile, op, hop', hid'⟩ := h.call g' c hc
    have hg' : g' ≠ g := by
      rintro rfl
      rw [hop] at hop'
      cases hop'
    exact ⟨hfile, op, by rw [← hop']; exact Function.update_of_ne hg' _ _, hid'⟩
  · intro g' op' hop'
    rcases update_cases (f := fun x => x) hop' with ⟨-, hop'⟩ | ⟨-, hop'⟩
    · cases hop'
      simp
    · exact List.mem_append_left _ (h.ids g' op' hop')
  · refine .prepared g ⟨s.cursor, id⟩ (Function.update_self ..) (by rw [hidle]; rfl) ?_ ?_ rfl
      hcursor
    · intro g' hg'
      by_contra hne
      apply hserial g'
      refine ⟨?_, hg'.2⟩
      have hopen := hg'.1
      simp only [Function.update_of_ne hne] at hopen
      exact hopen
    · intro hmem
      obtain ⟨cqe, hcqe, rfl⟩ := List.mem_map.mp hmem
      exact hid (h.used cqe hcqe)

/-- The goroutine of the open operation stores the cursor: it is the place behind
the transfer. -/
theorem CursorInv.store {z : Size} {o : Int64} {s : State ι} (h : CursorInv z o s) {g : ι}
    {c : ring_fio.Call} {x : Nat} {cqe : CompletionEntry} {offset : Int64}
    (hpc : s.fio.pc g = .storeOffset c x cqe offset)
    {f : ring_fio.State ι} (hf : FioInv z f)
    (heq : f = { s.fio with
      pc := Function.update s.fio.pc g (.complete c x cqe)
      fOffset := Function.update s.fio.fOffset c.file (offset + cqe.res.toInt64) }) :
    CursorInv z o { s with fio := f } := by
  subst heq
  have hhit : (s.fio.pc g).hit = some (c, x, cqe) := by rw [hpc]; rfl
  obtain ⟨-, op, hop, -⟩ := h.call g c (by rw [hpc]; rfl)
  obtain ⟨hfile, hposted, hid⟩ := h.posted_of_hit hop hhit
  obtain ⟨honly, hphase⟩ := h.phase.of_open hop (by rw [hpc]; rfl)
  -- the place behind the transfer, computed without overflow
  obtain ⟨hoffset, hpos, hcursor, hfit⟩ : offset = s.cursor ∧ 0 ≤ s.cursor.toInt ∧
      s.cursor.toInt + cqe.res.toInt = s.due o ∧ s.due o < 2 ^ 63 := by
    rcases hphase with ⟨hnew, -⟩ | ⟨cqe0, hposted0, hid0, hcursor, hpos, hfit, hload⟩
    · exact absurd (h.mem_of_hit hop hhit) hnew
    · obtain rfl := h.fio.posted_inj hposted hposted0 (hid.trans hid0.symm)
      exact ⟨hload c x cqe offset hpc, hpos, hcursor, hfit⟩
  have hcount := h.counts cqe hposted
  have hsum : (offset + cqe.res.toInt64).toInt = s.due o := by
    rw [Int64.toInt_add, Int32.toInt_toInt64, hoffset, hcursor]
    apply Int.bmod_eq_of_le <;> omega
  refine h.frame hf ?_ ?_ h.ids rfl (List.Subset.refl _) rfl (.quiet ?_ ?_)
  · intro g' hg'
    have hne : g' ≠ g := by
      rintro rfl
      rw [show s.op g' = none from hg'] at hop
      cases hop
    simpa only [Function.update_of_ne hne] using h.idle g' hg'
  · intro g' c' hc'
    apply h.call g' c'
    rcases update_cases hc' with ⟨rfl, hnow⟩ | ⟨-, hnow⟩
    · rw [hpc]
      exact hnow
    · exact hnow
  · rintro g' ⟨hg', hst⟩
    rcases update_cases hst with ⟨-, hst⟩ | ⟨hne, hst⟩
    · cases hst
    · exact hne (honly g' ⟨hg', hst⟩)
  · simp only [State.cursor, hfile, Function.update_self]
    exact hsum

/-- A step of a goroutine that is neither the store nor the return. -/
theorem CursorInv.search {z : Size} {o : Int64} {s : State ι} (h : CursorInv z o s) {g : ι}
    {p : Pc} {f : ring_fio.State ι} (hf : FioInv z f)
    (hpc : f.pc = Function.update s.fio.pc g p)
    (hposted : f.queue.posted = s.fio.queue.posted) (hoffset : f.fOffset = s.fio.fOffset)
    (hop : s.op g ≠ none) (hold : stored (s.fio.pc g) = false) (hnew : stored p = false)
    (hcall : ∀ c, p.call = some c → c.file = 0 ∧ ∃ op, s.op g = some op ∧ op.id = c.reqID)
    (hload : ∀ c x cqe offset, p = .storeOffset c x cqe offset → offset = s.cursor) :
    CursorInv z o { s with fio := f } := by
  have hcursor : State.cursor { s with fio := f } = s.cursor := by
    rw [State.cursor, State.cursor, hoffset]
  refine h.frame hf ?_ ?_ h.ids hposted (List.Subset.refl _) rfl
    (h.phase.frame hcursor hposted rfl ?_ ?_ ?_)
  · intro g' hg'
    have hne : g' ≠ g := fun he => hop (he ▸ hg')
    rw [hpc, Function.update_of_ne hne]
    exact h.idle g' hg'
  · intro g' c hc
    rw [hpc] at hc
    rcases update_cases hc with ⟨rfl, hnow⟩ | ⟨-, hnow⟩
    · exact hcall c hnow
    · exact h.call g' c hnow
  · intro g' op hg' hst
    refine ⟨hg', ?_⟩
    rw [hpc]
    by_cases hne : g' = g
    · rw [hne, Function.update_self]
      exact hnew
    · rw [Function.update_of_ne hne]
      exact hst
  · rintro g' ⟨hg', hst⟩
    rw [hpc] at hst
    rcases update_cases hst with ⟨rfl, -⟩ | ⟨-, hst⟩
    · exact ⟨hg', hold⟩
    · exact ⟨hg', hst⟩
  · intro g' c x cqe offset hat
    rw [hpc] at hat
    rcases update_cases (f := fun x => x) hat with ⟨-, hnow⟩ | ⟨-, hnow⟩
    · exact Or.inr (hload c x cqe offset hnow)
    · exact Or.inl hnow

/-- A goroutine that has stored the cursor returns. -/
theorem CursorInv.returns {z : Size} {o : Int64} {s : State ι} (h : CursorInv z o s) {g : ι}
    {f : ring_fio.State ι} (hf : FioInv z f) (hpc : f.pc = Function.update s.fio.pc g .idle)
    (hposted : f.queue.posted = s.fio.queue.posted) (hoffset : f.fOffset = s.fio.fOffset)
    (hold : stored (s.fio.pc g) = true) :
    CursorInv z o { s with fio := f, op := Function.update s.op g none } := by
  have hcursor : State.cursor { s with fio := f, op := Function.update s.op g none } =
      s.cursor := by
    rw [State.cursor, State.cursor, hoffset]
  refine h.frame hf ?_ ?_ ?_ hposted (List.Subset.refl _) rfl
    (h.phase.frame hcursor hposted rfl ?_ ?_ ?_)
  · intro g' hg'
    rw [hpc]
    by_cases hne : g' = g
    · rw [hne, Function.update_self]
    · rw [Function.update_of_ne hne]
      simp only [Function.update_of_ne hne] at hg'
      exact h.idle g' hg'
  · intro g' c hc
    rw [hpc] at hc
    rcases update_cases hc with ⟨-, hnow⟩ | ⟨hne, hnow⟩
    · cases hnow
    · simp only [Function.update_of_ne hne]
      exact h.call g' c hnow
  · intro g' op hg'
    rcases update_cases (f := fun x => x) hg' with ⟨-, hnow⟩ | ⟨-, hnow⟩
    · cases hnow
    · exact h.ids g' op hnow
  · intro g' op hg' hst
    have hne : g' ≠ g := by
      rintro rfl
      rw [hold] at hst
      cases hst
    simp only [hpc, Function.update_of_ne hne]
    exact ⟨hg', hst⟩
  · rintro g' ⟨hg', hst⟩
    have hne : g' ≠ g := by
      rintro rfl
      simp at hg'
    simp only [hpc, Function.update_of_ne hne] at hg' hst
    exact ⟨hg', hst⟩
  · intro g' c x cqe offset hat
    rw [hpc] at hat
    rcases update_cases (f := fun x => x) hat with ⟨-, hnow⟩ | ⟨-, hnow⟩
    · cases hnow
    · exact Or.inl hnow

/-- A step of a goroutine inside its call. No call finds a negative result, so it
returns only after it has stored the cursor. -/
theorem CursorInv.step {z : Size} {o : Int64} {s : State ι} (h : CursorInv z o s) {g : ι}
    {f : ring_fio.State ι} (hwritten : WrittenStep s.fio (.step g))
    (hs : ring_fio.stepPc z s.fio g = some f) :
    CursorInv z o
      { s with fio := f, op := if f.pc g = .idle then Function.update s.op g none else s.op } := by
  have hm := stepPc_move hs
  have hf := ring_fio.fioInv_move h.fio hwritten hm
  by_cases hst : stored (s.fio.pc g) = true
  · cases hpc : s.fio.pc g with
    | complete c x cqe =>
      simp only [ring_fio.stepPc, hpc] at hs
      obtain ⟨q, hq, rfl⟩ := Option.map_eq_some_iff.mp hs
      obtain ⟨-, -, -, -, hposted, -⟩ := h.fio.send hpc hq
      simp only [ring_fio.State.ret, ring_fio.State.goto, Function.update_self, if_true] at hf ⊢
      exact h.returns hf rfl hposted rfl hst
    | _ => rw [hpc] at hst; cases hst
  · rw [Bool.not_eq_true] at hst
    have hop : ∀ c, (s.fio.pc g).call = some c → s.op g ≠ none := by
      intro c hc hnone
      obtain ⟨-, op, hsome, -⟩ := h.call g c hc
      rw [hnone] at hsome
      cases hsome
    cases hm with
    | @search _ c p hcall hp hrange hhit =>
      have hidle : p ≠ .idle := by rintro rfl; cases hp
      simp only [Function.update_self, if_neg hidle]
      refine h.search hf rfl rfl rfl (hop c hcall) hst (stored_of_hit hhit) ?_ ?_
      · rw [hp, ← hcall]
        exact h.call g
      · rintro c' x cqe offset rfl
        cases hhit
    | @findError _ c x hlooks hid hres =>
      obtain ⟨-, p, hp, -⟩ := h.fio.holds_of_match hwritten hlooks hid
      have hcount := h.counts _ (List.mem_of_getElem? hp)
      rw [Int32.lt_iff_toInt_lt] at hres
      simp at hres
      omega
    | @find _ c x hlooks hid hres =>
      have hcall := ring_fio.Pc.call_of_looks hlooks
      simp only [Function.update_self, reduceCtorEq, if_false]
      refine h.search hf rfl rfl rfl (hop c hcall) hst rfl ?_ (fun _ _ _ _ hp => by cases hp)
      rintro c' ⟨⟩
      exact h.call g c hcall
    | @loadOffset _ c x cqe hpc =>
      have hcall : (s.fio.pc g).call = some c := by rw [hpc]; rfl
      simp only [Function.update_self, reduceCtorEq, if_false]
      refine h.search hf rfl rfl rfl (hop c hcall) hst rfl ?_ ?_
      · rintro c' ⟨⟩
        exact h.call g c hcall
      · rintro c' x' cqe' offset ⟨⟩
        rw [(h.call g c hcall).1]
        rfl
    | storeOffset hpc =>
      simp only [Function.update_self, reduceCtorEq, if_false]
      exact h.store hpc hf rfl
    | complete hpc hq => rw [hpc] at hst; cases hst

theorem cursorInv_step {z : Size} {o : Int64} {s s' : State ι} {a : Act ι}
    (h : CursorInv z o s) (hserial : SerialStep s a) (hs : fio_cursor.step z s a = some s') :
    CursorInv z o s' := by
  cases a with
  | prepare g id =>
    simp only [fio_cursor.step, Option.ite_none_right_eq_some] at hs
    obtain ⟨⟨hop, hid⟩, hs⟩ := hs
    cases hs
    exact h.prepare hop hid hserial
  | call g =>
    simp only [fio_cursor.step] at hs
    cases hop : s.op g with
    | none => rw [hop] at hs; cases hs
    | some op =>
      rw [hop] at hs
      obtain ⟨f, hf, rfl⟩ := Option.map_eq_some_iff.mp hs
      have hm := ring_fio.step_move hf
      have hinv := ring_fio.fioInv_move h.fio (a := .getCqe g _) rfl hm
      cases hm with
      | @start _ _ p hidle hid hp hrange hhit =>
        refine h.search hinv rfl rfl rfl (by rw [hop]; simp) (by rw [hidle]; rfl)
          (stored_of_hit hhit) ?_ ?_
        · rw [hp]
          rintro c ⟨⟩
          exact ⟨rfl, op, hop, rfl⟩
        · rintro c x cqe offset rfl
          cases hhit
  | transfer g res =>
    simp only [fio_cursor.step] at hs
    cases hop : s.op g with
    | none => rw [hop] at hs; cases hs
    | some op =>
      rw [hop] at hs
      simp only [Option.ite_none_right_eq_some] at hs
      obtain ⟨⟨hres, hpos, hfit⟩, hs⟩ := hs
      obtain ⟨f, hf, rfl⟩ := Option.map_eq_some_iff.mp hs
      have hm := ring_fio.step_move hf
      have hinv := ring_fio.fioInv_move h.fio (a := .post _) rfl hm
      cases hm with
      | post hq => exact h.transfer hop hres hpos hfit hq hinv
  | completer =>
    obtain ⟨f, hf, rfl⟩ := Option.map_eq_some_iff.mp hs
    have hm := ring_fio.step_move hf
    have hinv := ring_fio.fioInv_move h.fio (a := .completer) rfl hm
    cases hm with
    | completer hq =>
      have hposted := (completion_queue.completerStep_frame hq).1
      exact h.frame hinv h.idle h.call h.ids hposted (List.Subset.refl _) rfl
        (h.phase.frame rfl hposted rfl (fun _ _ hop hst => ⟨hop, hst⟩) (fun _ hg => hg)
          (fun _ _ _ _ _ hpc => Or.inl hpc))
  | step g =>
    obtain ⟨f, hf, rfl⟩ := Option.map_eq_some_iff.mp hs
    exact h.step hserial hf

/-- In every run in which each operation is prepared after the one before it has
stored the cursor, no byte is transferred twice and no addition is lost. -/
theorem serial_operations_keep_the_cursor (z : Size) (o : Int64) (as : List (Act ι))
    (h : Along (step z) SerialStep (init ι o) as) :
    Always (step z) (CursorLaw o) (init ι o) as := by
  have hstep : ∀ (s : State ι) a s', CursorInv z o s → SerialStep s a →
      fio_cursor.step z s a = some s' → CursorInv z o s' :=
    fun _ _ _ hi hok hs => cursorInv_step hi hok hs
  exact Along.always hstep (fun _ => cursorLaw_of_inv) (cursorInv_init z o) h

/-- One goroutine reads ten bytes, and when it has returned another one reads five. -/
theorem two_reads_one_after_the_other :
    Always (step ⟨2, by decide⟩) (CursorLaw 0) (init (Fin 2) 0)
        ([Act.prepare 0 1, .call 0, .transfer 0 10] ++ List.replicate 7 (Act.step 0) ++
          [Act.prepare 1 2, .call 1, .transfer 1 5] ++ List.replicate 8 (Act.step 1)) ∧
      (run (step ⟨2, by decide⟩) (init (Fin 2) 0)
        ([Act.prepare 0 1, .call 0, .transfer 0 10] ++ List.replicate 7 (Act.step 0) ++
          [Act.prepare 1 2, .call 1, .transfer 1 5] ++ List.replicate 8 (Act.step 1))).map
        (fun s => (s.transfers, s.cursor, s.op 0, s.op 1)) =
        some ([⟨0, 10⟩, ⟨10, 5⟩], 15, none, none) :=
  ⟨serial_operations_keep_the_cursor _ _ _ (by decide), by decide⟩

/-- Two goroutines read ten bytes each at the same time: both load the cursor into
their entries before either stores it, so both read the same ten bytes, and the
cursor moves by ten only. -/
theorem two_reads_at_the_same_time :
    (run (step ⟨2, by decide⟩) (init (Fin 2) 0)
        ([Act.prepare 0 1, .prepare 1 2, .call 0, .call 1, .transfer 0 10, .transfer 1 10] ++
          List.replicate 5 (Act.step 0) ++ List.replicate 6 (Act.step 1) ++
          List.replicate 2 (Act.step 0) ++ List.replicate 2 (Act.step 1))).map
        (fun s => (s.transfers, s.cursor, s.op 0, s.op 1)) =
      some ([⟨0, 10⟩, ⟨0, 10⟩], 10, none, none) := by
  decide

end iouring.fio_cursor
