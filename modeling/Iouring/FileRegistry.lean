-- The file registry: a list of descriptors next to a map from a descriptor to
-- its place in the list. `Register` keeps the two in step, `Unregister` takes
-- the descriptor out of the list only.
import Iouring.Machine
import Mathlib.Logic.Function.Basic

open machine

namespace iouring.file_registry

/-! ## The registry -/

/-- `fileRegistry`, without its lock and the descriptor of its ring. -/
structure FileRegistry where
  f : List Int
  fID : Int → Option Int

/-- `NewFileRegistry`. -/
def FileRegistry.new : FileRegistry := ⟨[], fun _ => none⟩

/-- How a method ends. -/
inductive Result where
  | ok
  | error (text : String)
  | errno (e : UInt64)
  | panic
  deriving DecidableEq, Repr

/-- `ReregisterFiles` and `UnregisterFiles` take the address of `files[0]` and ask
the kernel, whose answer is `errno`. It is compared as an unsigned number. -/
def filesCall (files : List Int) (errno : UInt64) : Result :=
  if files = [] then .panic
  else if errno < 0 then .errno errno
  else .ok

/-- `fileRegistry.Register`. -/
def FileRegistry.register (r : FileRegistry) (fd : Int) (errno : UInt64) :
    Result × FileRegistry :=
  let f := r.f ++ [fd]
  let id : Int := f.length - 1
  let fID := Function.update r.fID fd (some (if id < 0 then 0 else id))
  (filesCall f errno, ⟨f, fID⟩)

/-- `fileRegistry.Unregister`. The slice from `id + 1` on must lie in the list. -/
def FileRegistry.unregister (r : FileRegistry) (fd : Int) (errno : UInt64) :
    Result × FileRegistry :=
  match r.fID fd with
  | none => (.error ("fd " ++ toString fd ++ " not registered"), r)
  | some id =>
    if id < 0 ∨ r.f.length < id + 1 then (.panic, r)
    else
      let f := r.f.take id.toNat ++ r.f.drop (id.toNat + 1)
      (filesCall f errno, { r with f := f })

/-- `fileRegistry.ID`. -/
def FileRegistry.id (r : FileRegistry) (fd : Int) : Option Int := r.fID fd

inductive Act where
  | register (fd : Int) (errno : UInt64)
  | unregister (fd : Int) (errno : UInt64)
  deriving DecidableEq, Repr

/-- A call is always taken; a caller may go on after a panic. -/
def step (r : FileRegistry) : Act → Option FileRegistry
  | .register fd errno => some (r.register fd errno).2
  | .unregister fd errno => some (r.unregister fd errno).2

/-! ## List and map in step -/

/-- An id is the place of its descriptor, and the descriptors with an id are
those of the list. -/
structure Consistent (r : FileRegistry) : Prop where
  names : ∀ fd i, r.id fd = some i → 0 ≤ i ∧ i < r.f.length ∧ r.f[i.toNat]? = some fd
  absent : ∀ fd, fd ∉ r.f → r.id fd = none
  present : ∀ fd ∈ r.f, (r.id fd).isSome

/-- What `Register` alone keeps: the id of a descriptor is the last place it
stands at. -/
structure Latest (r : FileRegistry) : Prop where
  last : ∀ fd i, r.id fd = some i →
    ∃ n : Nat, i = n ∧ r.f[n]? = some fd ∧ ∀ m, n < m → r.f[m]? ≠ some fd
  present : ∀ fd ∈ r.f, (r.id fd).isSome

theorem latest_new : Latest .new where
  last := fun fd i h => by cases h
  present := fun fd h => by cases h

theorem consistent_of_latest {r : FileRegistry} (h : Latest r) : Consistent r := by
  refine ⟨?_, ?_, h.present⟩
  · intro fd i hid
    obtain ⟨n, rfl, hn, -⟩ := h.last fd i hid
    have hlt := (List.getElem?_eq_some_iff.mp hn).1
    exact ⟨Int.natCast_nonneg n, Int.ofNat_lt.mpr hlt, by rwa [Int.toNat_natCast]⟩
  · intro fd hfd
    cases hid : r.id fd with
    | none => rfl
    | some i =>
      obtain ⟨n, -, hn, -⟩ := h.last fd i hid
      exact absurd (List.mem_of_getElem? hn) hfd

/-- The new descriptor gets the last place, the other ids stay. -/
theorem register_id (r : FileRegistry) (fd fd' : Int) (errno : UInt64) :
    (r.register fd errno).2.id fd' = if fd' = fd then some (r.f.length : Int) else r.id fd' := by
  have hlast : ((r.f ++ [fd]).length : Int) - 1 = r.f.length := by simp
  have hpos : ¬ (r.f.length : Int) < 0 := by omega
  unfold FileRegistry.id FileRegistry.register
  simp only [hlast, if_neg hpos, Function.update_apply]

theorem latest_register {r : FileRegistry} (h : Latest r) (fd : Int) (errno : UInt64) :
    Latest (r.register fd errno).2 := by
  have hf : (r.register fd errno).2.f = r.f ++ [fd] := rfl
  refine ⟨?_, ?_⟩
  · intro fd' i hid
    rw [register_id] at hid
    rw [hf]
    by_cases hfd : fd' = fd
    · rw [if_pos hfd] at hid
      cases hid
      refine ⟨r.f.length, rfl, by simp [hfd], ?_⟩
      intro m hm
      rw [List.getElem?_eq_none (by simp; omega)]
      simp
    · rw [if_neg hfd] at hid
      obtain ⟨n, rfl, hn, hlast⟩ := h.last fd' i hid
      have hlt := (List.getElem?_eq_some_iff.mp hn).1
      refine ⟨n, rfl, by rwa [List.getElem?_append_left hlt], ?_⟩
      intro m hm
      by_cases hmlt : m < r.f.length
      · rw [List.getElem?_append_left hmlt]
        exact hlast m hm
      · rw [List.getElem?_append_right (Nat.le_of_not_lt hmlt)]
        intro hm'
        exact hfd (List.mem_singleton.mp (List.mem_of_getElem? hm'))
  · intro fd' hmem
    rw [register_id]
    by_cases hfd : fd' = fd
    · simp [hfd]
    · rw [if_neg hfd]
      rw [hf] at hmem
      exact h.present fd' (by simpa [hfd] using hmem)

/-- An `Unregister` that finds its descriptor takes it out of the list and leaves
its id, which is now the place of another descriptor or of none. -/
theorem unregister_breaks {r : FileRegistry} (h : Latest r) {fd i : Int} (hid : r.id fd = some i)
    (errno : UInt64) : ¬ Consistent (r.unregister fd errno).2 := by
  obtain ⟨n, rfl, hn, hlast⟩ := h.last fd i hid
  have hlt := (List.getElem?_eq_some_iff.mp hn).1
  have hrange : ¬ ((n : Int) < 0 ∨ (r.f.length : Int) < n + 1) := by omega
  have hstate : (r.unregister fd errno).2 = { r with f := r.f.eraseIdx n } := by
    unfold FileRegistry.id at hid
    unfold FileRegistry.unregister
    simp only [hid, if_neg hrange, Int.toNat_natCast, List.eraseIdx_eq_take_drop_succ]
  rw [hstate]
  intro hc
  have hname := (hc.names fd n hid).2.2
  simp only [Int.toNat_natCast, List.getElem?_eraseIdx, if_neg (Nat.lt_irrefl n)] at hname
  exact hlast (n + 1) (Nat.lt_succ_self n) hname

/-! ## The law -/

/-- An `Unregister` is one of a descriptor without an id, which is refused. -/
def RefusedStep (r : FileRegistry) : Act → Prop
  | .register _ _ => True
  | .unregister fd _ => r.id fd = none

theorem latest_step {r r' : FileRegistry} {a : Act} (h : Latest r) (hok : RefusedStep r a)
    (hs : step r a = some r') : Latest r' := by
  cases a with
  | register fd errno =>
    cases hs
    exact latest_register h fd errno
  | unregister fd errno =>
    cases hs
    unfold RefusedStep FileRegistry.id at hok
    unfold FileRegistry.unregister
    simp only [hok]
    exact h

theorem refusedStep_of_consistent {r r' : FileRegistry} {a : Act} (h : Latest r)
    (hs : step r a = some r') (hc : Consistent r') : RefusedStep r a := by
  cases a with
  | register fd errno => trivial
  | unregister fd errno =>
    cases hs
    cases hid : r.id fd with
    | none => exact hid
    | some i => exact absurd hc (unregister_breaks h hid errno)

/-- Over any calls on a new registry, list and map stay in step exactly if every
`Unregister` is refused. -/
theorem registry_consistent_iff_nothing_unregistered (as : List Act) :
    Always step Consistent .new as ↔ Along step RefusedStep .new as :=
  always_iff_along (fun _ _ _ => latest_step) (fun _ => consistent_of_latest)
    (fun _ _ _ => refusedStep_of_consistent) latest_new as

/-- Two files, and the first one is unregistered: it keeps the id 0, which is now
the place of the second one, and the second one keeps the id 1, which is no place. -/
theorem an_unregistered_file_keeps_its_id :
    (run step .new [.register 10 0, .register 11 0, .unregister 10 0]).map
      (fun r => (r.f, r.id 10, r.id 11)) = some ([11], some 0, some 1) := by
  decide

end iouring.file_registry
