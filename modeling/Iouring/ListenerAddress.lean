-- The address that `SockoptListener` binds. It copies the first four bytes of what
-- the resolver returns, and a resolver may return an IPv4 address in sixteen.
import Iouring.ListenerOpens

namespace iouring.sockopt_listener

/-! ## The address -/

/-- The forms in which a resolver returns an IPv4 address: four bytes, or sixteen with
the address at the end. -/
inductive Form where
  | four
  | sixteen
  deriving DecidableEq, Repr

def Form.bytes (octets : Vector UInt8 4) : Form → List UInt8
  | .four => octets.toList
  | .sixteen => List.replicate 10 0 ++ [0xff, 0xff] ++ octets.toList

theorem copyInto_four (octets : Vector UInt8 4) :
    copyInto 4 (Form.four.bytes octets) = octets := by
  ext i hi
  simp [copyInto, Form.bytes, List.getD_eq_getElem?_getD]

/-- The first four bytes of the long form are zeros, whatever the address. -/
theorem copyInto_sixteen (octets : Vector UInt8 4) :
    copyInto 4 (Form.sixteen.bytes octets) = #v[0, 0, 0, 0] := rfl

theorem bound_orClose {fd : Int} {call : Call} (hcall : call.bound = none)
    (answer : Option Errno) : bound (orClose fd call answer).1 = [] := by
  cases answer with
  | none => exact List.filterMap_cons_none hcall
  | some e => exact List.filterMap_cons_none hcall

theorem bound_setOption (h : Host) (fd : Int) (i : Nat) (o : Int) :
    bound (setOption h fd i o).1 = [] := by
  unfold setOption
  split
  · exact bound_orClose rfl _
  · split
    · split
      · rfl
      · exact bound_orClose rfl _
    · rfl

theorem bound_setOptions (h : Host) (fd : Int) (i : Nat) (os : List Int) :
    bound (setOptions h fd i os).1 = [] := by
  induction os generalizing i with
  | nil => rfl
  | cons o os ih =>
    unfold setOptions
    cases hend : (setOption h fd i o).2 with
    | error e =>
      rw [Calls.andThen_error hend]
      exact bound_setOption h fd i o
    | ok a =>
      rw [Calls.andThen_ok hend, bound_append, bound_setOption, ih]
      rfl

theorem bound_listenOn (h : Host) (o : Opened) : bound (listenOn h o).1 = [o.sockAddr] := by
  unfold listenOn
  cases h.bind with
  | some e => rfl
  | none =>
    cases h.listen with
    | some e => rfl
    | none => rfl

theorem bound_openSocket (h : Host) (network address : String) :
    bound (openSocket h network address).1 = [] := by
  unfold openSocket openInet openUnix
  split
  · split
    · rfl
    · split <;> rfl
  · split <;> rfl
  · rfl

/-- The call ends before `Bind`: the socket is not opened, or one of the options does not
pass. -/
def EndsBefore (h : Host) (network : String) (sockopts : List Int) : Prop :=
  (∃ c e, caseOf network = some c ∧ h.socket c.domain c.typ = .error e) ∨
    ∃ k opt, sockopts[k]? = some opt ∧ ¬ Passes h k opt

theorem setOptions_ok_iff {h : Host} {fd : Int} {os : List Int} :
    (setOptions h fd 0 os).2 = .ok () ↔ ∀ k opt, os[k]? = some opt → Passes h k opt := by
  have hok := fun calls => @setOptions_eq_ok h fd 0 os calls
  simp only [Nat.zero_add] at hok
  constructor
  · intro hend
    exact ((hok (setOptions h fd 0 os).1).mp (Prod.ext rfl hend)).1
  · intro hall
    rw [(hok _).mpr ⟨hall, rfl⟩]

/-- Once the address is resolved, `Bind` is called with it, unless the call ends before. -/
theorem bound_sockoptListener {h : Host} {network address : String} {c : Inet} {a : NetAddr}
    (hcase : caseOf network = some (.inet c)) (hres : h.resolve network address = .ok a)
    (sockopts : List Int) :
    (EndsBefore h network sockopts ∧ bound (sockoptListener h network address sockopts).1 = []) ∨
      (¬ EndsBefore h network sockopts ∧
        bound (sockoptListener h network address sockopts).1 = [c.sockaddr a]) := by
  unfold sockoptListener
  cases hfd : h.socket c.domain c.typ with
  | error e =>
    refine Or.inl ⟨Or.inl ⟨_, e, hcase, hfd⟩, ?_⟩
    have hopen : (openSocket h network address).2 = .error (.text "could not open socket") := by
      simp only [openSocket, hcase, openInet, hfd]
    rw [Calls.andThen_error hopen]
    exact bound_openSocket h network address
  | ok fd =>
    obtain ⟨o, hopen, hsock⟩ : ∃ o, (openSocket h network address).2 = .ok o ∧
        o.sockAddr = c.sockaddr a := by
      simp only [openSocket, hcase, openInet, hfd, hres]
      exact ⟨_, rfl, rfl⟩
    have hends : EndsBefore h network sockopts ↔ ∃ k opt, sockopts[k]? = some opt ∧
        ¬ Passes h k opt := by
      simp [EndsBefore, hcase, Case.domain, Case.typ, hfd]
    have hpass := @setOptions_ok_iff h o.fd sockopts
    rw [Calls.andThen_ok hopen, bound_append, bound_openSocket, List.nil_append, hends]
    cases hopts : (setOptions h o.fd 0 sockopts).2 with
    | error e =>
      left
      rw [Calls.andThen_error hopts]
      refine ⟨?_, bound_setOptions h o.fd 0 sockopts⟩
      by_contra hall
      push Not at hall
      rw [hpass.mpr hall] at hopts
      cases hopts
    | ok a =>
      right
      rw [Calls.andThen_ok hopts, bound_append, bound_setOptions, bound_listenOn, hsock]
      refine ⟨?_, rfl⟩
      push Not
      exact hpass.mp hopts

/-- The networks with a four-byte address use the same copy. -/
theorem caseOf_inet4 {network : String} (hnet : network ∈ ["tcp", "tcp4", "udp", "udp4"]) :
    ∃ c : Inet, caseOf network = some (.inet c) ∧ c.sockaddr = inet4 := by
  simp only [List.mem_cons, List.not_mem_nil, or_false] at hnet
  rcases hnet with rfl | rfl | rfl | rfl
  · exact ⟨tcp4, rfl, rfl⟩
  · exact ⟨tcp4, rfl, rfl⟩
  · exact ⟨udp4, rfl, rfl⟩
  · exact ⟨udp4, rfl, rfl⟩

/-- A listener that was asked for an IPv4 address binds that address, exactly if
- the resolver has returned it in four bytes;
- or it is 0.0.0.0;
- or the socket is not opened, or one of the options does not pass, so that nothing is
  bound. -/
theorem the_address_asked_for_is_bound_iff (h : Host) {network : String}
    (hnet : network ∈ ["tcp", "tcp4", "udp", "udp4"]) (address : String) (sockopts : List Int)
    (form : Form) (octets : Vector UInt8 4) (port : Int) (string : String)
    (hres : h.resolve network address = .ok ⟨form.bytes octets, port, string⟩) :
    (∀ sa ∈ bound (sockoptListener h network address sockopts).1, sa = .inet4 port octets) ↔
      (form = .four ∨ octets = #v[0, 0, 0, 0] ∨ EndsBefore h network sockopts) := by
  obtain ⟨c, hcase, hsock⟩ := caseOf_inet4 hnet
  rcases bound_sockoptListener hcase hres sockopts with ⟨hends, hbound⟩ | ⟨hgoes, hbound⟩
  · simp [hbound, hends]
  · rw [hbound, hsock, inet4]
    cases form with
    | four => simp [copyInto_four]
    | sixteen =>
      rw [copyInto_sixteen]
      simp [hgoes, eq_comm]

/-- The short form of 127.0.0.1 is bound. -/
theorem a_short_address_is_bound :
    bound (sockoptListener (Host.willing ⟨Form.four.bytes #v[127, 0, 0, 1], 80, "127.0.0.1:80"⟩)
        "tcp" "127.0.0.1:80" [SOReuseport]).1 ≠ [] ∧
    ∀ sa ∈ bound (sockoptListener
        (Host.willing ⟨Form.four.bytes #v[127, 0, 0, 1], 80, "127.0.0.1:80"⟩)
        "tcp" "127.0.0.1:80" [SOReuseport]).1, sa = .inet4 80 #v[127, 0, 0, 1] :=
  ⟨by decide, (the_address_asked_for_is_bound_iff _ (by decide) _ _ .four _ _ _ rfl).mpr
    (Or.inl rfl)⟩

/-- The long form of 127.0.0.1: the listener that is returned is bound to 0.0.0.0. -/
theorem a_long_address_is_bound_as_zero :
    (sockoptListener (Host.willing ⟨Form.sixteen.bytes #v[127, 0, 0, 1], 80, "127.0.0.1:80"⟩)
        "tcp" "127.0.0.1:80" []).2 = .ok ⟨3, "tcp", "127.0.0.1:80"⟩ ∧
    bound (sockoptListener
        (Host.willing ⟨Form.sixteen.bytes #v[127, 0, 0, 1], 80, "127.0.0.1:80"⟩)
        "tcp" "127.0.0.1:80" []).1 = [.inet4 80 #v[0, 0, 0, 0]] :=
  ⟨rfl, by decide⟩

end iouring.sockopt_listener
