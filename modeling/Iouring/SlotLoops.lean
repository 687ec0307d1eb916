-- `onEntry` and `ringFIO.getCqe` walk the completion queue with the same two
-- loops: from the slot of `Head` to the end of `Entries`, but no further than
-- the slot of `Tail`, which is looked at too, and then from slot 0 up to the
-- slot of `Tail`. Which slots that is, next to those that are pending.
import Iouring.CompletionQueue

open counter
open iouring.completion_queue (CompletionEntry)

namespace iouring.slot_loops

/-- The slots that the two loops look at, in order. -/
def visited (z : Size) (head tail : UInt32) : List Nat :=
  let first := (head &&& z.mask).toNat
  let last := (tail &&& z.mask).toNat
  if first ≤ last then List.range' first (last + 1 - first)
  else List.range' first (z.slots - first) ++ List.range' 0 last

variable {z : Size} {head tail : UInt32}

/-- How the window lies in the ring. The slots of its two ends do not tell a full
window from an empty one. -/
inductive Shape (z : Size) (head tail : UInt32) : Prop where
  | full (hfull : (tail - head).toNat = z.slots)
  | straight (hroom : (tail - head).toNat < z.slots)
      (hle : (head &&& z.mask).toNat ≤ (tail &&& z.mask).toNat)
  | wrapped (hroom : (tail - head).toNat < z.slots)
      (hgt : (tail &&& z.mask).toNat < (head &&& z.mask).toNat)

theorem shape (h : (tail - head).toNat ≤ z.slots) : Shape z head tail := by
  rcases Nat.eq_or_lt_of_le h with hfull | hroom
  · exact .full hfull
  · rcases Nat.lt_or_ge (tail &&& z.mask).toNat (head &&& z.mask).toNat with hgt | hle
    · exact .wrapped hroom hgt
    · exact .straight hroom hle

/-- A window that is not full and starts at the slot where it ends is empty. -/
theorem window_of_eq (h : (tail - head).toNat < z.slots)
    (heq : (head &&& z.mask).toNat = (tail &&& z.mask).toNat) : window z head tail = [] := by
  rw [z.and_mask, z.and_mask] at heq
  apply window_empty
  have hslot := tail_slot z head tail
  rw [shift_slot z _ (Nat.le_of_lt h)] at hslot
  have := Nat.mod_lt head.toNat z.slots_pos
  split_ifs at hslot <;> omega

/-- A window that does not wrap and is not full is walked to one slot past its end. -/
theorem visited_of_le (h : (tail - head).toNat < z.slots)
    (hle : (head &&& z.mask).toNat ≤ (tail &&& z.mask).toNat) :
    visited z head tail = window z head tail ++ [(tail &&& z.mask).toNat] := by
  rw [visited, if_pos hle]
  rcases Nat.eq_or_lt_of_le hle with heq | hlt
  · rw [window_of_eq h heq, heq]
    simp
  · rw [z.and_mask, z.and_mask] at hle hlt ⊢
    rw [window_of_lt (Nat.le_of_lt h) hlt, Nat.sub_add_comm hle, List.range'_concat]
    congr 2
    omega

/-- A full window looks like an empty one: the walk ends after its first slot. -/
theorem visited_of_full (h : (tail - head).toNat = z.slots) :
    (tail &&& z.mask).toNat = (head &&& z.mask).toNat ∧
      visited z head tail = [(head &&& z.mask).toNat] := by
  have heq : (tail &&& z.mask).toNat = (head &&& z.mask).toNat := by
    rw [z.and_mask, z.and_mask, tail_slot z head tail, h, Nat.add_mod_right]
  refine ⟨heq, ?_⟩
  rw [visited, if_pos (Nat.le_of_eq heq.symm), heq]
  simp

/-- The first slot of a full window, and the other ones. -/
theorem window_of_full (h : (tail - head).toNat = z.slots) :
    ∃ rest, window z head tail = (head &&& z.mask).toNat :: rest ∧
      (head &&& z.mask).toNat ∉ rest := by
  have hpos := z.slots_pos
  have hlt := z.and_mask_lt head
  have hmask := z.and_mask head
  have heq : tail.toNat % z.slots = head.toNat % z.slots := by
    rw [tail_slot z head tail, h, Nat.add_mod_right]
  rw [window_of_le (Nat.le_of_eq h) (by omega) (Nat.le_of_eq heq), heq, ← hmask]
  obtain ⟨m, hm⟩ := Nat.exists_eq_succ_of_ne_zero
    (by omega : z.slots - (head &&& z.mask).toNat ≠ 0)
  rw [hm, List.range'_succ, List.cons_append]
  refine ⟨_, rfl, ?_⟩
  rw [List.mem_append, List.mem_range'_1, List.mem_range'_1]
  omega

/-- A window that wraps is walked slot for slot. -/
theorem visited_of_lt (h : (tail - head).toNat ≤ z.slots)
    (hlt : (tail &&& z.mask).toNat < (head &&& z.mask).toNat) :
    visited z head tail = window z head tail := by
  rw [visited, if_neg (Nat.not_le_of_lt hlt)]
  rw [z.and_mask, z.and_mask] at hlt ⊢
  have hpos : (tail - head).toNat ≠ 0 := by
    intro h0
    rw [tail_slot z head tail, h0, Nat.add_zero] at hlt
    exact Nat.lt_irrefl _ hlt
  rw [window_of_le h hpos (Nat.le_of_lt hlt)]

/-- An entry that is posted to a queue that is empty, or has room for two, is visited after
those that were pending. -/
theorem visited_succ (h : (tail - head).toNat = 0 ∨ (tail - head).toNat + 1 < z.slots) :
    ∃ rest, visited z head (tail + 1) = window z head tail ++ (tail &&& z.mask).toNat :: rest := by
  have hpos := z.slots_pos
  have hlt := z.slots_lt
  have hsucc : (tail + 1 - head).toNat = (tail - head).toNat + 1 := sub_succ (by omega)
  have hwindow : window z head (tail + 1) = window z head tail ++ [(tail &&& z.mask).toNat] :=
    window_succ z (by omega)
  have hshape : Shape z head (tail + 1) := shape (by omega)
  cases hshape with
  | full hfull =>
    have hempty : (tail - head).toNat = 0 := by omega
    have hslot : tail.toNat % z.slots = head.toNat % z.slots := by
      rw [tail_slot z head tail, hempty, Nat.add_zero]
    rw [(visited_of_full hfull).2, window_empty hempty, z.and_mask, z.and_mask, hslot]
    exact ⟨[], rfl⟩
  | straight hroom hle =>
    rw [visited_of_le hroom hle, hwindow, List.append_assoc]
    exact ⟨_, rfl⟩
  | wrapped hroom hgt =>
    rw [visited_of_lt (Nat.le_of_lt hroom) hgt, hwindow]
    exact ⟨[], rfl⟩

/-- Slots that hold their own numbers as ids. -/
def numbered (i : Nat) : CompletionEntry := ⟨i.toUInt64, 1, 0⟩

end iouring.slot_loops
