-- A file with a cursor, over any type of elements: `read` and `write` transfer
-- at the cursor and move it by what they transferred, and a call that fails
-- changes nothing. How much is transferred, or the error, comes from outside.
import Iouring.Machine
import Mathlib.Data.List.TakeDrop

open machine

namespace cursor_file

variable {α ε : Type}

/-! ## The elements -/

/-- The `k` elements from `o` on. -/
def slice (l : List α) (o k : Nat) : List α := (l.drop o).take k

/-- `data` in place of the elements from `o` on. A gap is filled, and no data
leaves the list as it is. -/
def overwrite [Inhabited α] (l : List α) (o : Nat) : List α → List α
  | [] => l
  | x :: data =>
    l.take o ++ List.replicate (o - l.length) default ++ x :: data ++
      l.drop (o + (data.length + 1))

@[simp] theorem slice_zero (l : List α) (o : Nat) : slice l o 0 = [] := by
  simp [slice]

theorem length_slice {l : List α} {o k : Nat} (h : o + k ≤ l.length) :
    (slice l o k).length = k := by
  simp only [slice, List.length_take, List.length_drop]
  omega

/-- Two slices that follow each other. -/
theorem slice_append (l : List α) (o j k : Nat) :
    slice l o j ++ slice l (o + j) k = slice l o (j + k) := by
  unfold slice
  rw [List.take_add, List.drop_drop]

theorem length_overwrite_lt [Inhabited α] {l data : List α} {o n : Nat} (hl : l.length < n)
    (hdata : o + data.length < n) : (overwrite l o data).length < n := by
  cases data with
  | nil => exact hl
  | cons x data =>
    simp only [overwrite, List.length_append, List.length_take, List.length_replicate,
      List.length_cons, List.length_drop] at hdata ⊢
    omega

theorem overwrite_length [Inhabited α] (l data : List α) :
    overwrite l l.length data = l ++ data := by
  cases data with
  | nil => exact (List.append_nil l).symm
  | cons x data => simp [overwrite]

/-! ## Copying in turns -/

/-- A turn of a copy: how much was read, and how much of it was written. -/
structure Turn where
  read : Nat
  written : Nat
  deriving DecidableEq, Repr

/-- How much the turns have read. -/
def total : List Turn → Nat
  | [] => 0
  | t :: ts => t.read + total ts

/-- What the turns have written, if the first one has read from `o` on. -/
def pieces (l : List α) : Nat → List Turn → List α
  | _, [] => []
  | o, t :: ts => slice l o t.written ++ pieces l (o + t.read) ts

theorem total_append (ts us : List Turn) : total (ts ++ us) = total ts + total us := by
  induction ts with
  | nil => exact (Nat.zero_add _).symm
  | cons t ts ih => rw [List.cons_append, total, total, ih, Nat.add_assoc]

theorem pieces_append (l : List α) (o : Nat) (ts us : List Turn) :
    pieces l o (ts ++ us) = pieces l o ts ++ pieces l (o + total ts) us := by
  induction ts generalizing o with
  | nil => rfl
  | cons t ts ih =>
    rw [List.cons_append, pieces, pieces, ih, List.append_assoc, total, Nat.add_assoc]

/-- The turns write as much as they read at most, and less if one of them writes less. -/
theorem length_pieces {l : List α} {o : Nat} {ts : List Turn} (hle : ∀ t ∈ ts, t.written ≤ t.read)
    (h : o + total ts ≤ l.length) : (pieces l o ts).length ≤ total ts ∧
      ((pieces l o ts).length = total ts → ∀ t ∈ ts, t.written = t.read) := by
  induction ts generalizing o with
  | nil => exact ⟨Nat.le_refl _, fun _ t ht => by cases ht⟩
  | cons t ts ih =>
    have ht := hle t List.mem_cons_self
    rw [total] at h ⊢
    obtain ⟨hrest, hall⟩ := ih (o := o + t.read) (fun u hu => hle u (List.mem_cons_of_mem t hu))
      (by omega)
    rw [pieces, List.length_append, length_slice (by omega)]
    refine ⟨by omega, fun heq u hu => ?_⟩
    rcases List.mem_cons.mp hu with rfl | hu
    · omega
    · exact hall (by omega) u hu

theorem pieces_of_whole {l : List α} {o : Nat} {ts : List Turn}
    (h : ∀ t ∈ ts, t.written = t.read) : pieces l o ts = slice l o (total ts) := by
  induction ts generalizing o with
  | nil => rw [pieces, total, slice_zero]
  | cons t ts ih =>
    rw [pieces, ih fun u hu => h u (List.mem_cons_of_mem t hu), h t List.mem_cons_self,
      slice_append, total]

/-- What is written is all of it, exactly if every turn has written what it has read. -/
theorem pieces_eq_iff {l : List α} {ts : List Turn} (hle : ∀ t ∈ ts, t.written ≤ t.read)
    (htotal : total ts = l.length) : pieces l 0 ts = l ↔ ∀ t ∈ ts, t.written = t.read := by
  constructor
  · intro h
    apply (length_pieces (l := l) (o := 0) hle (by omega)).2
    rw [h, htotal]
  · intro h
    rw [pieces_of_whole h, htotal, slice, List.drop_zero, List.take_length]

/-! ## The calls -/

structure File (α : Type) where
  bytes : List α
  cursor : Nat
  deriving DecidableEq, Repr

inductive Op (α : Type) where
  | read (len : Nat)
  | write (data : List α)
  | seekStart (o : Nat)
  | seekCurrent (d : Int)
  deriving DecidableEq, Repr

/-- What becomes of a transfer. -/
inductive Outcome (ε : Type) where
  | done (k : Nat)
  | fail (e : ε)
  deriving DecidableEq, Repr

inductive Error (ε : Type) where
  | eof
  | failed (e : ε)
  deriving DecidableEq, Repr

/-- What the caller gets: the count, the error, and the data that was read. -/
structure Answer (α ε : Type) where
  count : Int
  error : Option (Error ε)
  data : List α
  deriving DecidableEq, Repr

/-- One call with the outcome of its transfer. There is none if the outcome is not
possible: a transfer of more than was asked for or than there is, an empty read
short of the end, a cursor below 0. -/
def exec [Inhabited α] (f : File α) : Op α → Outcome ε → Option (File α × Answer α ε)
  | .read len, .done k =>
    if k ≤ len ∧ (if k = 0 then f.bytes.length ≤ f.cursor else f.cursor + k ≤ f.bytes.length) then
      some ({ f with cursor := f.cursor + k },
        ⟨k, if k = 0 then some .eof else none, slice f.bytes f.cursor k⟩)
    else none
  | .write data, .done k =>
    if k ≤ data.length then
      some (⟨overwrite f.bytes f.cursor (data.take k), f.cursor + k⟩, ⟨k, none, []⟩)
    else none
  | .read _, .fail e => some (f, ⟨0, some (.failed e), []⟩)
  | .write _, .fail e => some (f, ⟨0, some (.failed e), []⟩)
  | .seekStart o, _ => some ({ f with cursor := o }, ⟨0, none, []⟩)
  | .seekCurrent d, _ =>
    if 0 ≤ (f.cursor : Int) + d then
      some ({ f with cursor := ((f.cursor : Int) + d).toNat }, ⟨0, none, []⟩)
    else none

/-- A call that has returned. Without an outcome, nothing was transferred at all. -/
structure Event (α ε : Type) where
  op : Op α
  outcome : Option (Outcome ε)
  answer : Answer α ε
  deriving DecidableEq, Repr

variable [Inhabited α] [DecidableEq α] [DecidableEq ε]

/-- The file makes the call, and its answer is the one of the event. -/
def step (f : File α) (e : Event α ε) : Option (File α) :=
  match e.outcome with
  | none => none
  | some o =>
    match exec f e.op o with
    | none => none
    | some (f', a) => if a = e.answer then some f' else none

theorem step_of_exec {f f' : File α} {op : Op α} {o : Outcome ε} {a : Answer α ε}
    (h : exec f op o = some (f', a)) : step f ⟨op, some o, a⟩ = some f' := by
  simp [step, h]

theorem exec_of_step {f f' : File α} {e : Event α ε} (h : step f e = some f') :
    ∃ o, exec f e.op o = some (f', e.answer) := by
  unfold step at h
  cases ho : e.outcome with
  | none => rw [ho] at h; cases h
  | some o =>
    rw [ho] at h
    cases hx : exec f e.op o with
    | none => simp only [hx] at h; cases h
    | some r =>
      obtain ⟨f1, a⟩ := r
      simp only [hx, Option.ite_none_right_eq_some, Option.some.injEq] at h
      obtain ⟨rfl, rfl⟩ := h
      exact ⟨o, hx⟩

/-! ## Reading from the start to the end -/

def Op.isRead : Op α → Bool
  | .read _ => true
  | _ => false

/-- One read gives the next slice. -/
theorem read_step {f f' : File α} {e : Event α ε} (h : step f e = some f')
    (hread : e.op.isRead = true) :
    f'.bytes = f.bytes ∧
      ∃ k, f'.cursor = f.cursor + k ∧ e.answer.data = slice f.bytes f.cursor k ∧
        (f.cursor ≤ f.bytes.length → f'.cursor ≤ f.bytes.length) ∧
        (e.answer.error = some .eof → f.bytes.length ≤ f'.cursor) := by
  obtain ⟨o, hx⟩ := exec_of_step h
  cases hop : e.op with
  | read len =>
    rw [hop] at hx
    cases o with
    | done k =>
      simp only [exec, Option.ite_none_right_eq_some, Option.some.injEq, Prod.mk.injEq] at hx
      obtain ⟨⟨-, hk⟩, rfl, ha⟩ := hx
      refine ⟨rfl, k, rfl, by rw [← ha], fun hle => ?_, fun heof => ?_⟩
      · dsimp only
        split at hk <;> omega
      · rw [← ha] at heof
        by_cases hk0 : k = 0
        · rw [if_pos hk0] at hk
          exact Nat.le_add_right_of_le hk
        · simp only [if_neg hk0] at heof
          cases heof
    | fail e' =>
      simp only [exec, Option.some.injEq, Prod.mk.injEq] at hx
      obtain ⟨rfl, ha⟩ := hx
      refine ⟨rfl, 0, rfl, by rw [← ha, slice_zero], fun hle => hle, fun heof => ?_⟩
      rw [← ha] at heof
      cases heof
  | _ => rw [hop] at hread; cases hread

/-- Reads give the elements from the cursor on, each one once and in their order;
and where one has answered that this is the end, all of them. -/
theorem reads_give_the_file {f f' : File α} {es : List (Event α ε)}
    (h : run step f es = some f') (hread : ∀ e ∈ es, e.op.isRead = true) :
    f'.bytes = f.bytes ∧ f.cursor ≤ f'.cursor ∧
      es.flatMap (·.answer.data) = slice f.bytes f.cursor (f'.cursor - f.cursor) ∧
      (f.cursor ≤ f.bytes.length → f'.cursor ≤ f.bytes.length) ∧
      ((∃ e ∈ es, e.answer.error = some .eof) → f.bytes.length ≤ f'.cursor) := by
  induction es generalizing f with
  | nil =>
    cases h
    simp
  | cons e es ih =>
    obtain ⟨f1, h1, hrest⟩ := run_cons_inv h
    obtain ⟨hbytes, k, hcursor, hdata, hle, heof⟩ := read_step h1 (hread e List.mem_cons_self)
    obtain ⟨hbytes', hmono, hdata', hle', heof'⟩ :=
      ih hrest (fun e' he' => hread e' (List.mem_cons_of_mem e he'))
    rw [hbytes] at hbytes' hdata' hle' heof'
    refine ⟨hbytes', by omega, ?_, fun h0 => hle' (hle h0), ?_⟩
    · rw [List.flatMap_cons, hdata, hdata', hcursor, slice_append]
      congr 1
      omega
    · rintro ⟨e', he', hend⟩
      rcases List.mem_cons.mp he' with rfl | he'
      · have := heof hend
        omega
      · exact heof' ⟨e', he', hend⟩

end cursor_file
