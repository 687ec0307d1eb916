-- What the calls of the file registry answer. An id is the place that a descriptor
-- got when it was registered: it outlives the descriptor, and it is not adjusted when
-- the list gets shorter. The kernel is asked last, and its error is never seen.
import Iouring.FileRegistry

open machine

namespace iouring.file_registry

/-! ## One call -/

def Result.isError : Result → Bool
  | .error _ | .errno _ => true
  | .ok | .panic => false

/-- The kernel is never heard: a call panics on an empty list, and returns nil otherwise. -/
theorem filesCall_eq (files : List Int) (errno : UInt64) :
    filesCall files errno = if files = [] then .panic else .ok := by
  unfold filesCall
  rw [if_neg (UInt64.not_lt_zero : ¬ errno < 0)]

theorem register_ok (r : FileRegistry) (fd : Int) (errno : UInt64) :
    (r.register fd errno).1 = .ok := by
  simp [FileRegistry.register, filesCall_eq]

theorem unregister_of_none {r : FileRegistry} {fd : Int} (h : r.id fd = none) (errno : UInt64) :
    r.unregister fd errno = (.error ("fd " ++ toString fd ++ " not registered"), r) := by
  unfold FileRegistry.id at h
  simp only [FileRegistry.unregister, h]

/-- The place behind an id is taken out of the list, which must have it. -/
theorem unregister_of_some {r : FileRegistry} {fd : Int} {n : Nat} (h : r.id fd = some (n : Int))
    (errno : UInt64) :
    r.unregister fd errno =
      if n < r.f.length then
        (if r.f.eraseIdx n = [] then .panic else .ok, { r with f := r.f.eraseIdx n })
      else (.panic, r) := by
  unfold FileRegistry.id at h
  have hrange : ((n : Int) < 0 ∨ (r.f.length : Int) < n + 1) ↔ ¬ n < r.f.length := by omega
  simp only [FileRegistry.unregister, h, hrange, filesCall_eq, Int.toNat_natCast,
    List.eraseIdx_eq_take_drop_succ]
  by_cases hn : n < r.f.length
  · simp [hn]
  · simp [hn]

/-- Nothing is left of a list without one of its places if it has one only. -/
theorem eraseIdx_nil_iff_length_eq_one {l : List Int} {n : Nat} (h : n < l.length) :
    l.eraseIdx n = [] ↔ l.length = 1 := by
  rw [List.eraseIdx_eq_nil_iff]
  constructor
  · rintro (rfl | ⟨hlen, -⟩)
    · cases h
    · exact hlen
  · exact fun hlen => Or.inr ⟨hlen, by omega⟩

/-! ## No call panics -/

/-- The registry, and which descriptors are registered: those that `Register` was called
for and `Unregister` was not called for since. -/
structure Tracked where
  reg : FileRegistry
  live : Int → Bool

def Tracked.new : Tracked := ⟨.new, fun _ => false⟩

def callStep (s : Tracked) : Act → Option Tracked
  | .register fd errno =>
    some ⟨(s.reg.register fd errno).2, Function.update s.live fd true⟩
  | .unregister fd errno =>
    some ⟨(s.reg.unregister fd errno).2, Function.update s.live fd false⟩

/-- A call does not panic, and an `Unregister` of a descriptor that is not registered
returns an error. -/
def CallRight (s : Tracked) : Act → Prop
  | .register fd errno => (s.reg.register fd errno).1 ≠ .panic
  | .unregister fd errno =>
    (s.reg.unregister fd errno).1 ≠ .panic ∧
      (s.live fd = false → (s.reg.unregister fd errno).1.isError = true)

/-- An `Unregister` is one of a descriptor that was never registered; or of one that is
registered, whose place is still in the list and not the only one there. -/
def PlaceKept (s : Tracked) : Act → Prop
  | .register _ _ => True
  | .unregister fd _ =>
    s.reg.id fd = none ∨
      (s.live fd = true ∧ s.reg.f.length ≠ 1 ∧ ∀ i ∈ s.reg.id fd, i < s.reg.f.length)

/-- Ids are places. -/
def Places (s : Tracked) : Prop := ∀ fd i, s.reg.id fd = some i → 0 ≤ i

theorem unregister_id (r : FileRegistry) (fd fd' : Int) (errno : UInt64) :
    (r.unregister fd errno).2.id fd' = r.id fd' := by
  unfold FileRegistry.id FileRegistry.unregister
  cases r.fID fd with
  | none => rfl
  | some i =>
    dsimp only
    split_ifs <;> rfl

theorem places_step {s s' : Tracked} {a : Act} (h : Places s) (hs : callStep s a = some s') :
    Places s' := by
  cases a with
  | register fd errno =>
    cases hs
    intro fd' i hid
    rw [register_id] at hid
    split_ifs at hid
    · cases hid
      exact Int.natCast_nonneg _
    · exact h fd' i hid
  | unregister fd errno =>
    cases hs
    intro fd' i hid
    rw [unregister_id] at hid
    exact h fd' i hid

theorem callRight_iff {s : Tracked} {a : Act} (h : Places s) : CallRight s a ↔ PlaceKept s a := by
  cases a with
  | register fd errno => simp [CallRight, PlaceKept, register_ok]
  | unregister fd errno =>
    unfold CallRight PlaceKept
    dsimp only
    cases hid : s.reg.id fd with
    | none => simp [unregister_of_none hid, Result.isError]
    | some i =>
      obtain ⟨n, rfl⟩ := Int.eq_ofNat_of_zero_le (h fd i hid)
      rw [unregister_of_some hid]
      by_cases hn : n < s.reg.f.length
      · simp only [if_pos hn, eraseIdx_nil_iff_length_eq_one hn]
        by_cases hone : s.reg.f.length = 1
        · simp [hone]
        · simp [hone, hn, Result.isError]
      · simp [hn]

/-- Over any calls on a new registry: no call panics, and an `Unregister` of a descriptor
that is not registered returns an error, exactly if each `Unregister` is one of a
descriptor that was never registered, or of one that is registered and whose place, which
is the length that the list had when it was registered, is still in the list and not the
only one there. -/
theorem registry_never_panics_iff (as : List Act) :
    Along callStep CallRight .new as ↔ Along callStep PlaceKept .new as :=
  along_congr (fun _ _ _ hp _ => places_step hp) (fun _ _ => callRight_iff)
    (fun _ _ hid => by cases hid) as

/-- The only file is unregistered: the list is empty when its first place is taken. Two
files are unregistered in their order: the place of the second one is behind the list.
And of three files, the first one is unregistered twice: the second time, the second file
goes, and no error is returned. -/
theorem the_registry_panics :
    (run callStep .new [.register 10 0]).map (fun s => (s.reg.unregister 10 0).1) =
        some .panic ∧
      (run callStep .new [.register 10 0, .register 11 0, .unregister 10 0]).map
        (fun s => (s.reg.unregister 11 0).1) = some .panic ∧
      (run callStep .new [.register 10 0, .register 11 0, .register 12 0, .unregister 10 0]).map
        (fun s => (s.live 10, (s.reg.unregister 10 0).1, (s.reg.unregister 10 0).2.f)) =
        some (false, .ok, [12]) := by
  decide

/-! ## The kernel's answer -/

/-- The call gets to the kernel. -/
def AsksKernel (r : FileRegistry) : Act → Prop
  | .register _ _ => True
  | .unregister fd _ => ∃ n : Nat, r.id fd = some (n : Int) ∧ n < r.f.length ∧ r.f.length ≠ 1

/-- The list and the map after a call that the kernel has agreed to. -/
def updated (r : FileRegistry) : Act → FileRegistry
  | .register fd _ => ⟨r.f ++ [fd], Function.update r.fID fd (some r.f.length)⟩
  | .unregister fd _ =>
    ⟨r.f.eraseIdx ((r.id fd).getD 0).toNat, Function.update r.fID fd none⟩

/-- The answer of the kernel to a call. -/
def Act.errno : Act → UInt64
  | .register _ errno | .unregister _ errno => errno

def call (r : FileRegistry) : Act → Result × FileRegistry
  | .register fd errno => r.register fd errno
  | .unregister fd errno => r.unregister fd errno

/-- A call that the kernel refuses returns an error and leaves list and map; one that it
agrees to returns nil, and both are updated. -/
def AtomicCall (r : FileRegistry) (a : Act) : Prop :=
  AsksKernel r a →
    (a.errno ≠ 0 → (call r a).1.isError = true ∧ (call r a).2 = r) ∧
      (a.errno = 0 → call r a = (.ok, updated r a))

theorem register_eq_updated (r : FileRegistry) (fd : Int) (errno : UInt64) :
    r.register fd errno = (.ok, updated r (.register fd errno)) := by
  have hlast : ((r.f ++ [fd]).length : Int) - 1 = r.f.length := by simp
  have hpos : ¬ (r.f.length : Int) < 0 := by omega
  simp only [FileRegistry.register, updated, hlast, if_neg hpos, filesCall_eq]
  simp

/-- An `Unregister` that gets to the kernel returns nil and leaves the map, whatever the
kernel answers. -/
theorem unregister_of_asks {r : FileRegistry} {fd : Int} {errno : UInt64}
    (h : AsksKernel r (.unregister fd errno)) :
    (r.unregister fd errno).1 = .ok ∧ (r.unregister fd errno).2.fID = r.fID ∧
      (r.id fd).isSome := by
  obtain ⟨n, hid, hn, hone⟩ := h
  rw [unregister_of_some hid, if_pos hn, if_neg (by rwa [eraseIdx_nil_iff_length_eq_one hn])]
  exact ⟨rfl, rfl, by rw [hid]; rfl⟩

/-- Over every list and map: a call is atomic with the answer of the kernel, exactly if it
is a `Register` that the kernel agrees to, or an `Unregister` that does not get to it. -/
theorem registry_updates_are_atomic_iff (r : FileRegistry) (a : Act) :
    AtomicCall r a ↔
      match a with
      | .register _ errno => errno = 0
      | .unregister _ _ => ¬ AsksKernel r a := by
  cases a with
  | register fd errno =>
    constructor
    · intro h
      by_contra hne
      have herr := ((h trivial).1 hne).1
      rw [call, register_ok] at herr
      cases herr
    · intro hzero _
      exact ⟨fun hne => absurd hzero hne, fun _ => register_eq_updated r fd errno⟩
  | unregister fd errno =>
    refine ⟨fun h hasks => ?_, fun hnot hasks => absurd hasks hnot⟩
    obtain ⟨hok, hmap, hsome⟩ := unregister_of_asks hasks
    obtain ⟨hfails, hagrees⟩ := h hasks
    by_cases hzero : errno = 0
    · -- the map still has the descriptor
      have hstate := congrArg (fun p => p.2.fID fd) (hagrees hzero)
      simp only [call, hmap, updated, Function.update_self] at hstate
      rw [FileRegistry.id, hstate] at hsome
      cases hsome
    · have herr := (hfails hzero).1
      rw [call, hok] at herr
      cases herr

/-- The kernel refuses a `Register`, and nil is returned with the descriptor in list and
map. It refuses an `Unregister`, and the descriptor is gone from the list. It agrees to
one, and the descriptor keeps its id. -/
theorem a_refused_register_returns_nil :
    ((FileRegistry.new.register 10 9).1, (FileRegistry.new.register 10 9).2.f,
        (FileRegistry.new.register 10 9).2.id 10) = (.ok, [10], some 0) ∧
      (run step .new [.register 10 0, .register 11 0]).map
        (fun r => ((r.unregister 10 9).1, (r.unregister 10 9).2.f)) = some (.ok, [11]) ∧
      (run step .new [.register 10 0, .register 11 0]).map
        (fun r => ((r.unregister 10 0).1, (r.unregister 10 0).2.id 10)) = some (.ok, some 0) := by
  decide

end iouring.file_registry
