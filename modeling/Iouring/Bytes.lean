-- Bytes in memory: numbers with their low byte first, structs whose fields follow each other
-- at their alignments, and arrays of structs. A store to one field of one element changes
-- that field and nothing else.
import Mathlib.Data.List.GetD
import Mathlib.Data.Nat.ModEq

namespace bytes

/-! ## Numbers -/

/-- The `k` low bytes of a number, the low one first. -/
def ofNat : Nat → Nat → List UInt8
  | 0, _ => []
  | k + 1, v => UInt8.ofNat v :: ofNat k (v / 256)

def toNat : List UInt8 → Nat
  | [] => 0
  | b :: bs => b.toNat + 256 * toNat bs

@[simp] theorem length_ofNat (k v : Nat) : (ofNat k v).length = k := by
  induction k generalizing v with
  | zero => rfl
  | succ k ih => rw [ofNat, List.length_cons, ih]

/-- Writing a number down and reading it cuts it to its width. -/
theorem toNat_ofNat (k v : Nat) : toNat (ofNat k v) = v % 256 ^ k := by
  induction k generalizing v with
  | zero => simp [ofNat, toNat, Nat.mod_one]
  | succ k ih =>
    have hsplit : v % 256 ^ (k + 1) = v % 256 + 256 * (v / 256 % 256 ^ k) := by
      rw [Nat.pow_succ', Nat.mod_mul]
    rw [ofNat, toNat, ih, UInt8.toNat_ofNat', hsplit]

/-! ## Memory -/

def load (mem : Nat → UInt8) (a n : Nat) : List UInt8 := (List.range n).map fun i => mem (a + i)

def store (mem : Nat → UInt8) (a : Nat) (bs : List UInt8) : Nat → UInt8 :=
  fun x => if a ≤ x then (bs[x - a]?).getD (mem x) else mem x

theorem load_store (mem : Nat → UInt8) (a : Nat) (bs : List UInt8) :
    load (store mem a bs) a bs.length = bs := by
  refine List.ext_getElem (by simp [load]) fun i h _ => ?_
  have hi : i < bs.length := by simpa [load] using h
  simp [load, store, List.getElem?_eq_getElem hi]

theorem store_of_outside {mem : Nat → UInt8} {a x : Nat} {bs : List UInt8}
    (h : x < a ∨ a + bs.length ≤ x) : store mem a bs x = mem x := by
  unfold store
  split
  · rw [List.getElem?_eq_none (by omega), Option.getD_none]
  · rfl

theorem load_store_of_outside {mem : Nat → UInt8} {a b n : Nat} {bs : List UInt8}
    (h : b + n ≤ a ∨ a + bs.length ≤ b) : load (store mem a bs) b n = load mem b n := by
  unfold load
  refine List.map_congr_left fun i hi => store_of_outside ?_
  rw [List.mem_range] at hi
  omega

/-! ## Structs -/

structure Field where
  size : Nat
  align : Nat
  deriving DecidableEq, Repr

/-- Where a field comes that may start at `o`. -/
def Field.place (f : Field) (o : Nat) : Nat := o + (f.align - o % f.align) % f.align

/-- The offsets of the fields of a struct, the first of which may start at `o`. -/
def offsets : Nat → List Field → List Nat
  | _, [] => []
  | o, f :: fs => f.place o :: offsets (f.place o + f.size) fs

/-- The end of the last field. -/
def extent : Nat → List Field → Nat
  | o, [] => o
  | o, f :: fs => extent (f.place o + f.size) fs

/-- The bytes of each field of the struct at `a`. -/
def fields (mem : Nat → UInt8) (a : Nat) : Nat → List Field → List (List UInt8)
  | _, [] => []
  | o, f :: fs => load mem (a + f.place o) f.size :: fields mem a (f.place o + f.size) fs

/-- The memory after the `i`-th field of the struct at `a` was written. -/
def storeField (mem : Nat → UInt8) (a o : Nat) (fs : List Field) (i : Nat) (bs : List UInt8) :
    Nat → UInt8 :=
  store mem (a + (offsets o fs).getD i 0) bs

theorem Field.le_place (f : Field) (o : Nat) : o ≤ f.place o := Nat.le_add_right _ _

theorem le_extent (o : Nat) (fs : List Field) : o ≤ extent o fs := by
  induction fs generalizing o with
  | nil => exact Nat.le_refl _
  | cons f fs ih =>
    have := f.le_place o
    have := ih (f.place o + f.size)
    rw [extent]
    omega

/-- A field lies between the start and the end of its struct. -/
theorem offsets_within {o i : Nat} {fs : List Field} {f : Field} (h : fs[i]? = some f) :
    o ≤ (offsets o fs).getD i 0 ∧ (offsets o fs).getD i 0 + f.size ≤ extent o fs := by
  induction fs generalizing o i with
  | nil => cases h
  | cons g fs ih =>
    have hplace := g.le_place o
    cases i with
    | zero =>
      cases h
      exact ⟨hplace, le_extent _ fs⟩
    | succ i =>
      obtain ⟨h1, h2⟩ := @ih (g.place o + g.size) i h
      rw [offsets, List.getD_cons_succ, extent]
      exact ⟨by omega, h2⟩

/-- A store outside of a struct leaves its fields. -/
theorem fields_store_of_outside {mem : Nat → UInt8} {a b o : Nat} {fs : List Field}
    {bs : List UInt8} (h : b + bs.length ≤ a + o ∨ a + extent o fs ≤ b) :
    fields (store mem b bs) a o fs = fields mem a o fs := by
  induction fs generalizing o with
  | nil => rfl
  | cons f fs ih =>
    have hplace := f.le_place o
    have hext := le_extent (f.place o + f.size) fs
    rw [extent] at h
    rw [fields, fields, load_store_of_outside (by omega), ih (by omega)]

/-- A store to a field changes that field only. -/
theorem fields_storeField {mem : Nat → UInt8} {a o i : Nat} {fs : List Field} {f : Field}
    {bs : List UInt8} (h : fs[i]? = some f) (hlen : bs.length = f.size) :
    fields (storeField mem a o fs i bs) a o fs = (fields mem a o fs).set i bs := by
  induction fs generalizing o i with
  | nil => cases h
  | cons g fs ih =>
    cases i with
    | zero =>
      cases h
      rw [storeField, offsets, List.getD_cons_zero, fields, fields, List.set_cons_zero, ← hlen,
        load_store, hlen, fields_store_of_outside (by omega)]
    | succ i =>
      obtain ⟨hle, -⟩ := @offsets_within (g.place o + g.size) i fs f h
      have hrest := @ih (g.place o + g.size) i h
      rw [storeField] at hrest
      rw [storeField, offsets, List.getD_cons_succ, fields, fields, List.set_cons_succ, hrest,
        load_store_of_outside (by omega)]

/-! ## Arrays -/

/-- The `j`-th struct of an array at `a`. -/
def element (mem : Nat → UInt8) (a stride : Nat) (fs : List Field) (j : Nat) : List (List UInt8) :=
  fields mem (a + stride * j) 0 fs

def storeElement (mem : Nat → UInt8) (a stride : Nat) (fs : List Field) (j i : Nat)
    (bs : List UInt8) : Nat → UInt8 :=
  storeField mem (a + stride * j) 0 fs i bs

/-- A store to a field of an element changes that field of that element only. -/
theorem element_storeElement {mem : Nat → UInt8} {a stride j i : Nat} {fs : List Field} {f : Field}
    {bs : List UInt8} (hstride : extent 0 fs ≤ stride) (h : fs[i]? = some f)
    (hlen : bs.length = f.size) :
    element (storeElement mem a stride fs j i bs) a stride fs =
      Function.update (element mem a stride fs) j ((element mem a stride fs j).set i bs) := by
  funext x
  obtain ⟨-, hle⟩ := @offsets_within 0 i fs f h
  by_cases hx : x = j
  · subst hx
    rw [Function.update_self]
    exact fields_storeField h hlen
  · rw [Function.update_of_ne hx]
    apply fields_store_of_outside
    rcases Nat.lt_or_gt_of_ne hx with hlt | hgt
    · have hmul := Nat.mul_le_mul_left stride hlt
      rw [Nat.mul_succ] at hmul
      omega
    · have hmul := Nat.mul_le_mul_left stride hgt
      rw [Nat.mul_succ] at hmul
      omega

end bytes
