-- Whether the queues that `MmapRing` returns can be used: whether each word and each
-- element of theirs lies in the mapping of its queue. It returns nil with mappings missing,
-- since it takes the failure of the second and the third call for a success; and a size
-- that does not fit 32 bits is cut, and the mapping is then shorter than the queue.
import Iouring.MmapRing
import Mathlib.Algebra.Order.Floor.Div

namespace iouring.mmap_ring

/-! ## Pages -/

/-- The end of the last page that `n` bytes reach into. -/
def pageEnd (page n : Nat) : Nat := page * (n ⌈/⌉ page)

theorem le_pageEnd {page : Nat} (hpage : 0 < page) (n : Nat) : n ≤ pageEnd page n :=
  le_smul_ceilDiv hpage

theorem pageEnd_le_iff {page : Nat} (hpage : 0 < page) {n d : Nat} :
    pageEnd page n ≤ page * d ↔ n ≤ page * d := by
  rw [pageEnd, Nat.mul_le_mul_left_iff hpage, ceilDiv_le_iff_le_smul hpage, smul_eq_mul]

/-- `n` bytes reach into the page that ends where `d` pages do, or farther. -/
theorem le_pageEnd_iff {page : Nat} (hpage : 0 < page) {n d : Nat} :
    page * (d + 1) ≤ pageEnd page n ↔ page * d < n := by
  rw [pageEnd, Nat.mul_le_mul_left_iff hpage, ← not_lt, Nat.lt_succ_iff,
    ceilDiv_le_iff_le_smul hpage, smul_eq_mul, not_le]

/-! ## Regions -/

/-- The bytes of a word or of an element lie in the region. Whole pages are mapped. -/
def Region.Holds (page : Nat) (r : Region) (addr : UInt64) (size : Nat) : Prop :=
  (addr - r.addr).toNat + size ≤ pageEnd page r.len.toNat

instance (page : Nat) (r : Region) (addr : UInt64) (size : Nat) :
    Decidable (r.Holds page addr size) :=
  inferInstanceAs (Decidable (_ ≤ _))

/-- They lie in what a call has mapped. -/
def Mapped (page : Nat) (rs : List Region) (addr : UInt64) (size : Nat) : Prop :=
  ∃ r ∈ rs, r.Holds page addr size

instance (page : Nat) (rs : List Region) (addr : UInt64) (size : Nat) :
    Decidable (Mapped page rs addr size) :=
  inferInstanceAs (Decidable (∃ r ∈ rs, r.Holds page addr size))

/-- The address of an element of a slice. -/
def Slice.at (s : Slice) (elem : UInt64) (i : Nat) : UInt64 := s.data + UInt64.ofNat i * elem

/-- Each element of a slice does. -/
def Slice.Mapped (page : Nat) (rs : List Region) (s : Slice) (elem : UInt64) : Prop :=
  ∀ i < s.len.toNat, mmap_ring.Mapped page rs (s.at elem i) elem.toNat

variable {page : Nat}

/-- What lies at an offset of a region. -/
theorem holds_at_iff {addr len off : UInt64} {size : Nat} :
    Region.Holds page ⟨addr, len⟩ (addr + off) size ↔
      off.toNat + size ≤ pageEnd page len.toNat := by
  unfold Region.Holds
  rw [UInt64.add_comm, UInt64.add_sub_cancel]

/-- A slice at an offset of a region lies in it if its end does. -/
theorem slice_mapped_iff {addr len off n elem : UInt64}
    (hfit : off.toNat + n.toNat * elem.toNat < 2 ^ 64) :
    Slice.Mapped page [⟨addr, len⟩] ⟨addr + off, n⟩ elem ↔
      n.toNat = 0 ∨ off.toNat + n.toNat * elem.toNat ≤ pageEnd page len.toNat := by
  have hat : ∀ i < n.toNat, (off + UInt64.ofNat i * elem).toNat = off.toNat + i * elem.toNat := by
    intro i hi
    have hle : i * elem.toNat ≤ n.toNat * elem.toNat := Nat.mul_le_mul_right _ (Nat.le_of_lt hi)
    have hi64 : (UInt64.ofNat i).toNat = i := by
      rw [UInt64.toNat_ofNat']
      exact Nat.mod_eq_of_lt (Nat.lt_trans hi n.toNat_lt)
    rw [UInt64.toNat_add, UInt64.toNat_mul, hi64, Nat.mod_eq_of_lt (by omega : i * elem.toNat < _)]
    exact Nat.mod_eq_of_lt (by omega)
  have hone : ∀ i < n.toNat, mmap_ring.Mapped page [⟨addr, len⟩]
      (Slice.at ⟨addr + off, n⟩ elem i) elem.toNat ↔
        off.toNat + (i + 1) * elem.toNat ≤ pageEnd page len.toNat := by
    intro i hi
    simp only [mmap_ring.Mapped, List.mem_singleton, exists_eq_left, Slice.at]
    rw [UInt64.add_assoc, holds_at_iff, hat i hi, Nat.succ_mul, Nat.add_assoc]
  constructor
  · intro h
    by_cases hn : n.toNat = 0
    · exact Or.inl hn
    · right
      obtain ⟨m, hm⟩ : ∃ m, n.toNat = m + 1 := ⟨n.toNat - 1, by omega⟩
      have hm' : m < n.toNat := by omega
      have hlast := (hone m hm').mp (h m hm')
      rwa [← hm] at hlast
  · rintro h i (hi : i < n.toNat)
    have hend := h.resolve_left (by omega)
    have hle : (i + 1) * elem.toNat ≤ n.toNat * elem.toNat := Nat.mul_le_mul_right _ hi
    exact (hone i hi).mpr (by omega)

/-! ## The law -/

/-- What each queue has to lie in: what the call for it has mapped. With a single mapping
the completion queue shares that of the submit queue. -/
structure Own where
  sq : List Region
  sqes : List Region
  cq : List Region

def own (p : Params) (k : Mmaps) : Own where
  sq := mmap (sizes p).1.toUInt64 k.sq
  sqes := mmap (sqesLen p) k.sqes
  cq := if singleMmap p then mmap (sizes p).1.toUInt64 k.sq else mmap (sizes p).2.toUInt64 k.cq

/-- Every word and every element of the queues lies in the mapping of its queue. -/
structure Usable (page : Nat) (rs : Own) (sq : SubmitQueue) (cq : CompletionQueue) : Prop where
  sqWords : ∀ a ∈ [sq.head, sq.tail, sq.mask, sq.flags, sq.dropped], Mapped page rs.sq a 4
  cqWords : ∀ a ∈ [cq.head, cq.tail, cq.mask, cq.flags, cq.overflow], Mapped page rs.cq a 4
  array : sq.array.Mapped page rs.sq uint32Size
  entries : sq.entries.Mapped page rs.sqes sqeSize
  cqes : cq.entries.Mapped page rs.cq cqeSize

/-- All calls of `mmap` have succeeded, two with a single mapping and three otherwise. -/
def AllMapped (p : Params) (k : Mmaps) : Prop :=
  k.sq.errno = 0 ∧ k.sqes.errno = 0 ∧ (singleMmap p = true ∨ k.cq.errno = 0)

/-- `MmapRing` returns nil if and only if all calls have succeeded, and then the queues
can be used. -/
def MmapRight (page : Nat) (p : Params) (k : Mmaps) (cq : CompletionQueue) : Prop :=
  ((mmapRing p k cq).2.toOption.isSome ↔ AllMapped p k) ∧
    ∀ sq' cq', (mmapRing p k cq).2 = .ok (sq', cq') → Usable page (own p k) sq' cq'

/-- The kernel places the words of a queue before its array. -/
structure HeadersFirst (p : Params) : Prop where
  sq : ∀ o ∈ [p.sqOffset.head, p.sqOffset.tail, p.sqOffset.ringMask, p.sqOffset.flags,
    p.sqOffset.dropped], o.toNat + 4 ≤ p.sqOffset.array.toNat
  cq : ∀ o ∈ [p.cqOffset.head, p.cqOffset.tail, p.cqOffset.ringMask, p.cqOffset.flags,
    p.cqOffset.overflow], o.toNat + 4 ≤ p.cqOffset.cqes.toNat

/-- Where the queues end in their mappings. -/
def sqEnd (p : Params) : Nat := p.sqOffset.array.toNat + p.sqEntries.toNat * 4

def cqEnd (p : Params) : Nat := p.cqOffset.cqes.toNat + p.cqEntries.toNat * 16

/-- The sizes fit 32 bits. Or else there is a single mapping, one queue ends at 2^32, so
that its size is cut to 0, and the other one in the last page before that. -/
def SizesFit (page : Nat) (p : Params) : Prop :=
  (sqEnd p < 2 ^ 32 ∧ cqEnd p < 2 ^ 32) ∨
    (singleMmap p = true ∧
      ((sqEnd p = 2 ^ 32 ∧ cqEnd p < 2 ^ 32 ∧ 2 ^ 32 < cqEnd p + page) ∨
        (cqEnd p = 2 ^ 32 ∧ sqEnd p < 2 ^ 32 ∧ 2 ^ 32 < sqEnd p + page)))

variable {p : Params} {k : Mmaps}

/-! ## The sizes -/

theorem size_toNat {offset entries : UInt32} {elem : UInt64}
    (h : offset.toNat + entries.toNat * elem.toNat < 2 ^ 64) :
    (offset.toUInt64 + entries.toUInt64 * elem).toUInt32.toNat =
      (offset.toNat + entries.toNat * elem.toNat) % 2 ^ 32 := by
  rw [UInt64.toNat_toUInt32, UInt64.toNat_add, UInt64.toNat_mul, UInt32.toNat_toUInt64,
    UInt32.toNat_toUInt64]
  generalize entries.toNat * elem.toNat = bytes at h ⊢
  rw [Nat.mod_eq_of_lt (by omega : bytes < 2 ^ 64), Nat.mod_eq_of_lt h]

theorem sqSize_toNat (p : Params) : (sqSize p).toNat = sqEnd p % 2 ^ 32 := by
  have h1 := p.sqOffset.array.toNat_lt
  have h2 := p.sqEntries.toNat_lt
  exact size_toNat (by rw [show uint32Size.toNat = 4 from rfl]; omega)

theorem cqSize_toNat (p : Params) : (cqSize p).toNat = cqEnd p % 2 ^ 32 := by
  have h1 := p.cqOffset.cqes.toNat_lt
  have h2 := p.cqEntries.toNat_lt
  exact size_toNat (by rw [show cqeSize.toNat = 16 from rfl]; omega)

/-- With a single mapping, both queues have its size: the larger one. -/
theorem sizes_of_single (h : singleMmap p = true) :
    (sizes p).1.toNat = max (sqEnd p % 2 ^ 32) (cqEnd p % 2 ^ 32) ∧ (sizes p).2 = (sizes p).1 := by
  rw [← sqSize_toNat, ← cqSize_toNat]
  unfold sizes
  rw [if_pos h]
  split_ifs with hlarger
  · exact ⟨(Nat.max_eq_right (Nat.le_of_lt hlarger)).symm, rfl⟩
  · exact ⟨(Nat.max_eq_left (Nat.le_of_not_lt hlarger)).symm, rfl⟩

theorem sizes_of_two (h : singleMmap p = false) :
    (sizes p).1.toNat = sqEnd p % 2 ^ 32 ∧ (sizes p).2.toNat = cqEnd p % 2 ^ 32 := by
  unfold sizes
  rw [h, ← sqSize_toNat, ← cqSize_toNat]
  exact ⟨rfl, rfl⟩

theorem sizes_ge (p : Params) :
    sqEnd p % 2 ^ 32 ≤ (sizes p).1.toNat ∧ cqEnd p % 2 ^ 32 ≤ (sizes p).2.toNat := by
  cases hsingle : singleMmap p with
  | false =>
    obtain ⟨h1, h2⟩ := sizes_of_two hsingle
    exact ⟨Nat.le_of_eq h1.symm, Nat.le_of_eq h2.symm⟩
  | true =>
    obtain ⟨h1, h2⟩ := sizes_of_single hsingle
    rw [h2, h1]
    exact ⟨Nat.le_max_left _ _, Nat.le_max_right _ _⟩

/-- The pages of both mappings reach to the ends of the queues. -/
def Covered (page : Nat) (p : Params) : Prop :=
  sqEnd p ≤ pageEnd page (sizes p).1.toNat ∧ cqEnd p ≤ pageEnd page (sizes p).2.toNat

/-- Pages that a size below 2^32 reaches into end at 2^32 or before. -/
theorem pageEnd_le (hpage : page ∣ 2 ^ 32) {n : Nat} (hn : n < 2 ^ 32) :
    pageEnd page n ≤ 2 ^ 32 := by
  have hpos : 0 < page := Nat.pos_of_dvd_of_pos hpage (by decide)
  obtain ⟨d, hd⟩ := hpage
  rw [hd] at hn ⊢
  exact (pageEnd_le_iff hpos).mpr (Nat.le_of_lt hn)

theorem pageEnd_eq_iff (hpage : page ∣ 2 ^ 32) {n : Nat} (hn : n < 2 ^ 32) :
    pageEnd page n = 2 ^ 32 ↔ 2 ^ 32 < n + page := by
  have hpos : 0 < page := Nat.pos_of_dvd_of_pos hpage (by decide)
  have hle := pageEnd_le hpage hn
  obtain ⟨d, hd⟩ := hpage
  obtain ⟨d, rfl⟩ : ∃ d', d = d' + 1 := by
    refine ⟨d - 1, ?_⟩
    have : d ≠ 0 := by
      rintro rfl
      cases hd
    omega
  have hreach := @le_pageEnd_iff page hpos n d
  rw [← hd] at hreach
  rw [Nat.mul_succ] at hd
  omega

theorem pageEnd_zero (hpage : 0 < page) : pageEnd page 0 = 0 := by
  have h : pageEnd page 0 ≤ page * 0 := (pageEnd_le_iff hpage).mpr (Nat.zero_le _)
  omega

/-- A queue whose size is cut and that has a mapping of its own is not covered. -/
theorem own_covered_iff (hpage : page ∣ 2 ^ 32) {n : Nat} :
    n ≤ pageEnd page (n % 2 ^ 32) ↔ n < 2 ^ 32 := by
  have hpos : 0 < page := Nat.pos_of_dvd_of_pos hpage (by decide)
  constructor
  · intro h
    by_contra hge
    have hle := pageEnd_le hpage (Nat.mod_lt n (by decide : 0 < 2 ^ 32))
    obtain rfl : n = 2 ^ 32 := by omega
    rw [Nat.mod_self, pageEnd_zero hpos] at h
    omega
  · intro h
    rw [Nat.mod_eq_of_lt h]
    exact le_pageEnd hpos n

/-- Two queues that share a mapping, which has the larger of the two sizes. -/
theorem shared_covered_iff (hpage : page ∣ 2 ^ 32) {a b : Nat} :
    (a ≤ pageEnd page (max (a % 2 ^ 32) (b % 2 ^ 32)) ∧
        b ≤ pageEnd page (max (a % 2 ^ 32) (b % 2 ^ 32))) ↔
      (a < 2 ^ 32 ∧ b < 2 ^ 32) ∨ (a = 2 ^ 32 ∧ b < 2 ^ 32 ∧ 2 ^ 32 < b + page) ∨
        (b = 2 ^ 32 ∧ a < 2 ^ 32 ∧ 2 ^ 32 < a + page) := by
  have hpos : 0 < page := Nat.pos_of_dvd_of_pos hpage (by decide)
  generalize hn : max (a % 2 ^ 32) (b % 2 ^ 32) = n
  have hlt : n < 2 ^ 32 := by omega
  have hge := le_pageEnd hpos n
  have hle := pageEnd_le hpage hlt
  have hlast := pageEnd_eq_iff hpage hlt
  have hzero : n = 0 → pageEnd page n = 0 := by
    rintro rfl
    exact pageEnd_zero hpos
  omega

theorem covered_iff (hpage : page ∣ 2 ^ 32) (p : Params) : Covered page p ↔ SizesFit page p := by
  unfold Covered SizesFit
  cases hsingle : singleMmap p with
  | false =>
    obtain ⟨h1, h2⟩ := sizes_of_two hsingle
    rw [h1, h2, own_covered_iff hpage, own_covered_iff hpage]
    simp
  | true =>
    obtain ⟨h1, h2⟩ := sizes_of_single hsingle
    rw [h2, h1, shared_covered_iff hpage]
    simp

/-! ## The queues over the mappings -/

/-- The words of a queue with an array behind them. -/
theorem words_mapped {addr : UInt64} {len before : UInt32} {offs : List UInt32}
    (hoffs : ∀ o ∈ offs, o.toNat + 4 ≤ before.toNat)
    (hlen : before.toNat ≤ pageEnd page len.toNat) :
    ∀ a ∈ offs.map (addr + ·.toUInt64), Mapped page [⟨addr, len.toUInt64⟩] a 4 := by
  intro a ha
  obtain ⟨o, ho, rfl⟩ := List.mem_map.mp ha
  refine ⟨_, List.mem_singleton_self _, holds_at_iff.mpr ?_⟩
  rw [UInt32.toNat_toUInt64, UInt32.toNat_toUInt64]
  exact Nat.le_trans (hoffs o ho) hlen

/-- What the calls have mapped when all have succeeded. -/
theorem own_of_allMapped (h : AllMapped p k) :
    own p k = ⟨[⟨k.sq.r1, (sizes p).1.toUInt64⟩], [⟨k.sqes.r1, sqesLen p⟩],
      [⟨cqPtr p k, (sizes p).2.toUInt64⟩]⟩ := by
  obtain ⟨hsq, hsqes, hcq⟩ := h
  unfold own cqPtr mmap
  cases hsingle : singleMmap p with
  | true => simp [hsq, hsqes, (sizes_of_single hsingle).2]
  | false =>
    have hcq' := hcq.resolve_left (by simp [hsingle])
    simp [hsq, hsqes, hcq']

/-- A slice behind the words of a queue, which begin its mapping. -/
theorem elems_mapped_iff {addr : UInt64} {len off n : UInt32} {elem : UInt64}
    (helem : elem.toNat ≤ 64) :
    Slice.Mapped page [⟨addr, len.toUInt64⟩] ⟨addr + off.toUInt64, n.toUInt64⟩ elem ↔
      n.toNat = 0 ∨ off.toNat + n.toNat * elem.toNat ≤ pageEnd page len.toNat := by
  have h1 := off.toNat_lt
  have h2 := n.toNat_lt
  have h3 : n.toNat * elem.toNat ≤ n.toNat * 64 := Nat.mul_le_mul_left _ helem
  rw [slice_mapped_iff]
  · simp only [UInt32.toNat_toUInt64]
  · simp only [UInt32.toNat_toUInt64]
    omega

theorem entries_mapped (hpos : 0 < page) (addr : UInt64) (p : Params) :
    Slice.Mapped page [⟨addr, sqesLen p⟩] ⟨addr, p.sqEntries.toUInt64⟩ sqeSize := by
  have hlt := p.sqEntries.toNat_lt
  have hlen : (sqesLen p).toNat = p.sqEntries.toNat * 64 := by
    rw [sqesLen, UInt64.toNat_mul, UInt32.toNat_toUInt64, show sqeSize.toNat = 64 from rfl]
    exact Nat.mod_eq_of_lt (by omega)
  have h := @slice_mapped_iff page addr (sqesLen p) 0 p.sqEntries.toUInt64 sqeSize
    (by rw [UInt32.toNat_toUInt64, show sqeSize.toNat = 64 from rfl, UInt64.toNat_zero]; omega)
  rw [UInt64.add_zero] at h
  refine h.mpr (Or.inr ?_)
  rw [UInt64.toNat_zero, Nat.zero_add, UInt32.toNat_toUInt64, show sqeSize.toNat = 64 from rfl,
    ← hlen]
  exact le_pageEnd hpos _

/-- The pages of a mapping reach to the end of the slice in it. An empty slice ends at its
offset, which is not cut. -/
theorem end_le_of_mapped (hpos : 0 < page) {off n : UInt32} {elem len : Nat}
    (h : n.toNat = 0 ∨ off.toNat + n.toNat * elem ≤ pageEnd page len)
    (hlen : (off.toNat + n.toNat * elem) % 2 ^ 32 ≤ len) :
    off.toNat + n.toNat * elem ≤ pageEnd page len := by
  rcases h with hnone | hend
  · rw [hnone, Nat.zero_mul, Nat.add_zero, Nat.mod_eq_of_lt off.toNat_lt] at hlen
    rw [hnone, Nat.zero_mul, Nat.add_zero]
    exact Nat.le_trans hlen (le_pageEnd hpos _)
  · exact hend

theorem usable_iff (hpage : page ∣ 2 ^ 32) (hp : HeadersFirst p) (h : AllMapped p k)
    (cq : CompletionQueue) :
    Usable page (own p k) (layoutSq p k.sq.r1 k.sqes.r1) (layoutCq p (cqPtr p k) cq) ↔
      SizesFit page p := by
  have hpos : 0 < page := Nat.pos_of_dvd_of_pos hpage (by decide)
  rw [← covered_iff hpage, own_of_allMapped h]
  constructor
  · intro hu
    obtain ⟨hsq, hcq⟩ := sizes_ge p
    exact ⟨end_le_of_mapped hpos ((elems_mapped_iff (by decide)).mp hu.array) hsq,
      end_le_of_mapped hpos ((elems_mapped_iff (by decide)).mp hu.cqes) hcq⟩
  · rintro ⟨hsq, hcq⟩
    refine ⟨?_, ?_, ?_, entries_mapped hpos _ p, ?_⟩
    · exact words_mapped hp.sq (Nat.le_trans (Nat.le_add_right _ _) hsq)
    · exact words_mapped hp.cq (Nat.le_trans (Nat.le_add_right _ _) hcq)
    · exact (elems_mapped_iff (by decide)).mpr (Or.inr hsq)
    · exact (elems_mapped_iff (by decide)).mpr (Or.inr hcq)

/-- For every `Params` whose offsets place the words of the queues before their arrays, every
outcome of the calls of `mmap` and every page size that divides 2^32: `MmapRing` returns nil
if and only if all calls have succeeded, and then with every word and every element of the
queues in the mapping of its queue, exactly if
- the first call has failed;
- or all calls have succeeded, and the sizes fit 32 bits (or, with a single mapping, one
  queue ends at 2^32 and the other one in the page before). -/
theorem mmap_ring_returns_usable_queues_iff (page : Nat) (hpage : page ∣ 2 ^ 32) (p : Params)
    (hp : HeadersFirst p) (k : Mmaps) (cq : CompletionQueue) :
    MmapRight page p k cq ↔ k.sq.errno ≠ 0 ∨ (AllMapped p k ∧ SizesFit page p) := by
  by_cases hsq : k.sq.errno = 0
  · have heq := mmapRing_of_sq_mapped hsq (p := p) cq
    rw [or_iff_right (not_not_intro hsq)]
    unfold MmapRight
    rw [heq]
    constructor
    · rintro ⟨hnil, husable⟩
      have hall := hnil.mp rfl
      exact ⟨hall, (usable_iff hpage hp hall cq).mp (husable _ _ rfl)⟩
    · rintro ⟨hall, hfit⟩
      refine ⟨iff_of_true rfl hall, ?_⟩
      rintro sq' cq' ⟨⟩
      exact (usable_iff hpage hp hall cq).mpr hfit
  · have heq := mmapRing_of_sq_failed hsq (p := p) cq
    refine iff_of_true ⟨?_, ?_⟩ (Or.inl hsq)
    · rw [heq]
      exact iff_of_false Bool.false_ne_true (fun h => hsq h.1)
    · intro sq' cq' hok
      rw [heq] at hok
      cases hok

theorem headersFirst_smallRing : HeadersFirst smallRing := by
  refine ⟨?_, ?_⟩ <;> simp [smallRing]

theorem a_small_ring_is_usable : MmapRight 4096 smallRing threeMaps .zero :=
  (mmap_ring_returns_usable_queues_iff 4096 (by decide) smallRing headersFirst_smallRing threeMaps
    .zero).mpr (Or.inr ⟨⟨rfl, rfl, Or.inr rfl⟩, Or.inl (by decide)⟩)

/-- The third call fails with `ENOMEM`, and nil is returned with a completion queue that
lies in no mapping. And with 2^30 submit entries the size of the submit queue is cut to
where its array begins: all calls succeed, and of the array only what is in the first page
is mapped. -/
theorem a_failed_mmap_returns_nil :
    (HeadersFirst smallRing ∧
      ∃ rs sq cq, mmapRing smallRing ⟨⟨0x10000, 0⟩, ⟨0x20000, 0⟩, ⟨0, 12⟩⟩ .zero =
          (rs, .ok (sq, cq)) ∧
        rs = [⟨0x10000, 464⟩, ⟨0x20000, 256⟩] ∧ ¬ Mapped 4096 rs cq.head 4) ∧
      HeadersFirst { smallRing with sqEntries := 0x40000000 } ∧
      ∃ rs sq cq, mmapRing { smallRing with sqEntries := 0x40000000 }
          ⟨⟨0x10000, 0⟩, ⟨0x100000000000, 0⟩, ⟨0x30000, 0⟩⟩ .zero = (rs, .ok (sq, cq)) ∧
        rs = [⟨0x10000, 448⟩, ⟨0x100000000000, 0x1000000000⟩, ⟨0x30000, 448⟩] ∧
        912 < sq.array.len ∧ ¬ Mapped 4096 rs (sq.array.at uint32Size 912) 4 :=
  ⟨⟨headersFirst_smallRing, _, _, _, rfl, rfl, by decide⟩,
    ⟨headersFirst_smallRing.sq, headersFirst_smallRing.cq⟩, _, _, _, rfl, rfl, by decide,
    by decide⟩

end iouring.mmap_ring
