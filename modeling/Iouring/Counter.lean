-- Free-running 32-bit counters over a ring of 2^k slots. A position counts
-- without end, its word is the position cut to 32 bits, and its slot is the
-- word under the mask. The ring size divides 2^32, so a wrap of the word
-- never moves a position to another slot.
import Mathlib.Data.Nat.ModEq
import Mathlib.Tactic.Linarith

namespace counter

/-- A ring size: a power of two that a 32-bit word can hold. -/
structure Size where
  exp : Nat
  exp_lt : exp < 32
  deriving DecidableEq, Repr

namespace Size

variable (z : Size)

/-- The number of slots. -/
def slots : Nat := 2 ^ z.exp

/-- The mask word, one less than the number of slots. -/
def mask : UInt32 := UInt32.ofNat (z.slots - 1)

theorem slots_pos : 0 < z.slots := Nat.two_pow_pos z.exp

theorem slots_dvd : z.slots ∣ 2 ^ 32 := Nat.pow_dvd_pow 2 (Nat.le_of_lt z.exp_lt)

theorem slots_lt : z.slots < 2 ^ 32 := Nat.pow_lt_pow_right (by decide) z.exp_lt

theorem mask_toNat : z.mask.toNat = 2 ^ z.exp - 1 := by
  have h := z.slots_lt
  simp only [mask, UInt32.toNat_ofNat']
  exact Nat.mod_eq_of_lt (by unfold slots at h ⊢; omega)

/-- A word under the mask is the word modulo the ring size. -/
theorem and_mask (w : UInt32) : (w &&& z.mask).toNat = w.toNat % z.slots := by
  rw [UInt32.toNat_and, mask_toNat, Nat.and_two_pow_sub_one_eq_mod]
  rfl

theorem and_mask_lt (w : UInt32) : (w &&& z.mask).toNat < z.slots := by
  rw [and_mask]
  exact Nat.mod_lt _ z.slots_pos

end Size

/-! ## Positions and their words -/

/-- The word of a position. -/
def word (p : Nat) : UInt32 := UInt32.ofNat p

@[simp] theorem word_toNat (p : Nat) : (word p).toNat = p % 2 ^ 32 := UInt32.toNat_ofNat'

theorem word_of_toNat (w : UInt32) : word w.toNat = w := UInt32.ofNat_toNat

theorem word_add (p q : Nat) : word p + word q = word (p + q) := (UInt32.ofNat_add p q).symm

theorem word_succ (p : Nat) : word p + 1 = word (p + 1) := word_add p 1

theorem word_mod (z : Size) (p : Nat) : (word p).toNat % z.slots = p % z.slots := by
  rw [word_toNat, Nat.mod_mod_of_dvd _ z.slots_dvd]

/-- The slot of a position, read from its word. -/
theorem word_slot (z : Size) (p : Nat) : (word p &&& z.mask).toNat = p % z.slots := by
  rw [z.and_mask, word_mod]

/-- The words of two positions that are less than 2^32 apart give their
distance. -/
theorem word_sub {p q : Nat} (h1 : p ≤ q) (h2 : q - p < 2 ^ 32) :
    (word q - word p).toNat = q - p := by
  rw [UInt32.toNat_sub, word_toNat, word_toNat]
  omega

/-- In a window no longer than the ring, each slot stands for one position. -/
theorem slot_inj {z : Size} {a p q : Nat} (hp : a ≤ p) (hq : a ≤ q) (hp' : p < a + z.slots)
    (hq' : q < a + z.slots) (h : p % z.slots = q % z.slots) : p = q := by
  have hm : p - a ≡ q - a [MOD z.slots] := by
    apply Nat.ModEq.add_left_cancel' a
    rw [Nat.add_sub_cancel' hp, Nat.add_sub_cancel' hq]
    exact h
  have := Nat.ModEq.eq_of_lt_of_lt hm (by omega) (by omega)
  omega

/-! ## Windows -/

/-- The slot that lies `j` places behind the slot of `p`, at most one lap on. -/
theorem shift_slot (z : Size) (p : Nat) {j : Nat} (hj : j ≤ z.slots) :
    (p + j) % z.slots =
      if p % z.slots + j < z.slots then p % z.slots + j else p % z.slots + j - z.slots := by
  have hp := Nat.mod_lt p z.slots_pos
  rw [← Nat.mod_add_mod]
  split_ifs with h
  · exact Nat.mod_eq_of_lt h
  · rw [Nat.mod_eq_sub_mod (Nat.le_of_not_lt h)]
    exact Nat.mod_eq_of_lt (by omega)

/-- The slots of the positions from the word `head` up to the word `tail`, in
order. -/
def window (z : Size) (head tail : UInt32) : List Nat :=
  (List.range (tail - head).toNat).map fun j => (head.toNat + j) % z.slots

theorem tail_toNat (head tail : UInt32) :
    tail.toNat = (head.toNat + (tail - head).toNat) % 2 ^ 32 := by
  have := tail.toNat_lt
  have := head.toNat_lt
  rw [UInt32.toNat_sub]
  omega

/-- The slot of `tail` lies as far behind the one of `head` as the window is long. -/
theorem tail_slot (z : Size) (head tail : UInt32) :
    tail.toNat % z.slots = (head.toNat + (tail - head).toNat) % z.slots := by
  conv_lhs => rw [tail_toNat head tail]
  exact Nat.mod_mod_of_dvd _ z.slots_dvd

/-- A window that ends at a later slot than it starts does not reach the end of the
ring. -/
theorem distance_of_lt {z : Size} {head tail : UInt32} (h : (tail - head).toNat ≤ z.slots)
    (hlt : head.toNat % z.slots < tail.toNat % z.slots) :
    tail.toNat % z.slots = head.toNat % z.slots + (tail - head).toNat := by
  have hslot := tail_slot z head tail
  rw [shift_slot z _ h] at hslot
  split_ifs at hslot <;> omega

theorem window_empty {z : Size} {head tail : UInt32} (h : (tail - head).toNat = 0) :
    window z head tail = [] := by
  simp [window, h]

theorem sub_succ {head tail : UInt32} (h : (tail - head).toNat + 1 < 2 ^ 32) :
    (tail + 1 - head).toNat = (tail - head).toNat + 1 := by
  have hone : (tail + 1).toNat = (tail.toNat + 1) % 2 ^ 32 := UInt32.toNat_add tail 1
  have := tail.toNat_lt
  have := head.toNat_lt
  rw [UInt32.toNat_sub] at h ⊢
  rw [hone, UInt32.toNat_sub]
  omega

/-- A window with one more place behind it. -/
theorem window_succ (z : Size) {head tail : UInt32} (h : (tail - head).toNat + 1 < 2 ^ 32) :
    window z head (tail + 1) = window z head tail ++ [(tail &&& z.mask).toNat] := by
  rw [window, sub_succ h, List.range_succ, List.map_append, List.map_singleton, z.and_mask,
    tail_slot z head tail]
  rfl

/-- A window that does not reach the end of the ring is one piece. -/
theorem window_of_lt {z : Size} {head tail : UInt32} (h : (tail - head).toNat ≤ z.slots)
    (hlt : head.toNat % z.slots < tail.toNat % z.slots) :
    window z head tail =
      List.range' (head.toNat % z.slots) (tail.toNat % z.slots - head.toNat % z.slots) := by
  have hslot := distance_of_lt h hlt
  have hlast := Nat.mod_lt tail.toNat z.slots_pos
  have hlen : tail.toNat % z.slots - head.toNat % z.slots = (tail - head).toNat := by omega
  rw [hlen, List.range'_eq_map_range]
  apply List.map_congr_left
  intro j hj
  rw [List.mem_range] at hj
  rw [shift_slot z _ (by omega), if_pos (by omega)]

/-- A window that is not empty and reaches the end of the ring goes on at slot 0. -/
theorem window_of_le {z : Size} {head tail : UInt32} (h : (tail - head).toNat ≤ z.slots)
    (hpos : (tail - head).toNat ≠ 0) (hle : tail.toNat % z.slots ≤ head.toNat % z.slots) :
    window z head tail =
      List.range' (head.toNat % z.slots) (z.slots - head.toNat % z.slots) ++
        List.range' 0 (tail.toNat % z.slots) := by
  have hhead := Nat.mod_lt head.toNat z.slots_pos
  have hslot := tail_slot z head tail
  rw [shift_slot z _ h] at hslot
  have hsum : ¬ head.toNat % z.slots + (tail - head).toNat < z.slots := by
    intro hlt
    rw [if_pos hlt] at hslot
    omega
  rw [if_neg hsum] at hslot
  have hlen : (tail - head).toNat = z.slots - head.toNat % z.slots + tail.toNat % z.slots := by
    omega
  rw [window, hlen, List.range_add, List.map_append, List.map_map, List.range'_eq_map_range,
    List.range'_eq_map_range]
  congr 1
  · apply List.map_congr_left
    intro j hj
    rw [List.mem_range] at hj
    rw [shift_slot z _ (by omega), if_pos (by omega)]
  · apply List.map_congr_left
    intro j hj
    rw [List.mem_range] at hj
    rw [Function.comp_apply, shift_slot z _ (by omega), if_neg (by omega)]
    omega

/-! ## A word that is set to a slot number -/

section SetToSlot

variable {z : Size} {head : UInt32} {k : Nat}

/-- A word that is set to a slot number and moves over one lap at most was in its first
lap, or in the last one before it wraps. -/
theorem lap_of_slot (hk : k ≤ z.slots) (hmove : (word k - head).toNat ≤ z.slots) :
    head.toNat ≤ k ∨ (2 ^ 32 ≤ head.toNat + z.slots ∧ 2 ^ 32 - head.toNat + k ≤ z.slots) := by
  have hslots := z.slots_lt
  have hhead := head.toNat_lt
  rw [UInt32.toNat_sub, word_toNat] at hmove
  omega

theorem word_sub_first (hk : k ≤ z.slots) (h : head.toNat ≤ k) :
    (word k - head).toNat = k - head.toNat := by
  have hslots := z.slots_lt
  rw [UInt32.toNat_sub, word_toNat]
  omega

theorem word_sub_last (h : 2 ^ 32 ≤ head.toNat + z.slots)
    (hfit : 2 ^ 32 - head.toNat + k ≤ z.slots) :
    (word k - head).toNat = 2 ^ 32 - head.toNat + k := by
  have hslots := z.slots_lt
  have hhead := head.toNat_lt
  rw [UInt32.toNat_sub, word_toNat]
  omega

theorem window_first (hk : k ≤ z.slots) (h : head.toNat ≤ k) :
    window z head (word k) = List.range' head.toNat (k - head.toNat) := by
  rw [window, word_sub_first hk h, List.range'_eq_map_range]
  apply List.map_congr_left
  intro j hj
  rw [List.mem_range] at hj
  exact Nat.mod_eq_of_lt (by omega)

theorem window_last (h : 2 ^ 32 ≤ head.toNat + z.slots)
    (hfit : 2 ^ 32 - head.toNat + k ≤ z.slots) :
    window z head (word k) =
      List.range' (head.toNat % z.slots) (2 ^ 32 - head.toNat) ++ List.range' 0 k := by
  have hhead := head.toNat_lt
  -- a multiple of the ring size and less than a lap
  have hmod : ∀ {m r : Nat}, z.slots ∣ m → r < z.slots → (m + r) % z.slots = r := by
    intro m r hm hr
    rw [Nat.add_mod, Nat.mod_eq_zero_of_dvd hm, Nat.zero_add, Nat.mod_mod, Nat.mod_eq_of_lt hr]
  have hlast : z.slots ∣ 2 ^ 32 - z.slots := Nat.dvd_sub z.slots_dvd (Nat.dvd_refl _)
  have hslot : head.toNat % z.slots = head.toNat - (2 ^ 32 - z.slots) := by
    conv_lhs => rw [(by omega : head.toNat = 2 ^ 32 - z.slots + (head.toNat - (2 ^ 32 - z.slots)))]
    exact hmod hlast (by omega)
  rw [window, word_sub_last h hfit, List.range_add, List.map_append, List.map_map,
    List.range'_eq_map_range, List.range'_eq_map_range, hslot]
  congr 1
  · apply List.map_congr_left
    intro j hj
    rw [List.mem_range] at hj
    rw [(by omega : head.toNat + j =
      2 ^ 32 - z.slots + (head.toNat - (2 ^ 32 - z.slots) + j))]
    exact hmod hlast (by omega)
  · apply List.map_congr_left
    intro j hj
    rw [List.mem_range] at hj
    rw [Function.comp_apply, Nat.zero_add,
      (by omega : head.toNat + (2 ^ 32 - head.toNat + j) = 2 ^ 32 + j)]
    exact hmod z.slots_dvd (by omega)

end SetToSlot

/-- What is left of a distance after a move of its lower end. -/
theorem sub_of_move {head head' tail : UInt32}
    (h : (head' - head).toNat ≤ (tail - head).toNat) :
    (tail - head').toNat = (tail - head).toNat - (head' - head).toNat := by
  have hhead := head.toNat_lt
  have hhead' := head'.toNat_lt
  have htail := tail.toNat_lt
  rw [UInt32.toNat_sub, UInt32.toNat_sub] at h
  rw [UInt32.toNat_sub, UInt32.toNat_sub, UInt32.toNat_sub]
  omega

end counter
