-- The sockets of `SockoptListener`: what each of its parts opens and closes, and
-- after which errors the socket is still open.
import Iouring.SockoptListener

namespace iouring.sockopt_listener

/-! ## Parts that clean up -/

section Parts

variable {α β : Type} {m : Calls α} {f : α → Calls β}

/-- The part works on a socket that is open: it opens none, and it closes that one
exactly if it returns an error. -/
structure Tidy (fd : Nat) (m : Calls α) : Prop where
  opens : opened m.1 = []
  ok : ∀ a, m.2 = .ok a → closed m.1 = []
  error : ∀ e, m.2 = .error e → closed m.1 = [fd]

/-- The part returns an error and closes nothing. -/
structure Drops (m : Calls α) : Prop where
  opens : opened m.1 = []
  closes : closed m.1 = []
  error : ∃ e, m.2 = .error e

theorem Tidy.andThen {fd : Nat} (hm : Tidy fd m) (hf : ∀ a, m.2 = .ok a → Tidy fd (f a)) :
    Tidy fd (m.andThen f) := by
  cases hend : m.2 with
  | error e =>
    rw [Calls.andThen_error hend]
    refine ⟨hm.opens, ?_, fun _ _ => hm.error e hend⟩
    intro _ h
    cases h
  | ok a =>
    have hfa := hf a hend
    rw [Calls.andThen_ok hend]
    refine ⟨?_, fun b hb => ?_, fun e he => ?_⟩
    · rw [opened_append, hm.opens, hfa.opens]
      rfl
    · rw [closed_append, hm.ok a hend, hfa.ok b hb]
      rfl
    · rw [closed_append, hm.ok a hend, hfa.error e he]
      rfl

theorem Drops.andThen_left (hm : Drops m) : Drops (m.andThen f) := by
  obtain ⟨e, he⟩ := hm.error
  rw [Calls.andThen_error he]
  exact ⟨hm.opens, hm.closes, e, rfl⟩

theorem Drops.andThen_right {fd : Nat} {a : α} (hm : Tidy fd m) (ha : m.2 = .ok a)
    (hf : Drops (f a)) : Drops (m.andThen f) := by
  rw [Calls.andThen_ok ha]
  refine ⟨?_, ?_, hf.error⟩
  · rw [opened_append, hm.opens, hf.opens]
    rfl
  · rw [closed_append, hm.ok a ha, hf.closes]
    rfl

end Parts

/-! ## The parts -/

theorem orClose_tidy {fd : Nat} {call : Call} (answer : Option Errno) (ho : call.opened = none)
    (hc : call.closed = none) : Tidy fd (orClose fd call answer) := by
  cases answer with
  | none =>
    refine ⟨?_, fun _ _ => ?_, by simp [orClose]⟩
    · exact List.filterMap_cons_none ho
    · exact List.filterMap_cons_none hc
  | some e =>
    refine ⟨?_, by simp [orClose], fun _ _ => ?_⟩
    · exact List.filterMap_cons_none ho
    · exact List.filterMap_cons_none hc

theorem orClose_ok {fd : Int} {call : Call} {answer : Option Errno} :
    (orClose fd call answer).2 = .ok () ↔ answer = none := by
  cases answer <;> simp [orClose]

/-- The option is `TCPFastopen` and the system does not allow it. -/
def FastOpenFails (h : Host) (i : Nat) (sockopt : Int) : Prop :=
  sockopt = TCPFastopen ∧ fastOpenAllowed (h.readFile i) ≠ none

/-- The option is one of the two that are set, and `setsockopt` fails for it. -/
def SetsockoptFails (h : Host) (i : Nat) (sockopt : Int) : Prop :=
  (sockopt = SOReuseport ∨ sockopt = TCPFastopen) ∧ h.setsockopt i ≠ none

/-- The loop comes to an option that the system does not allow. -/
def StopsAtFastOpen (h : Host) (i : Nat) (sockopts : List Int) : Prop :=
  ∃ k o, sockopts[k]? = some o ∧ FastOpenFails h (i + k) o ∧
    ∀ j < k, ∀ o, sockopts[j]? = some o → ¬ SetsockoptFails h (i + j) o

theorem setOption_drops {h : Host} {i : Nat} {o : Int} (hf : FastOpenFails h i o) (fd : Int) :
    Drops (setOption h fd i o) := by
  obtain ⟨rfl, herr⟩ := hf
  obtain ⟨err, herr⟩ := Option.ne_none_iff_exists'.mp herr
  have hcalls : setOption h fd i TCPFastopen = ([], .error err) := by
    rw [setOption, if_neg (by decide), if_pos rfl, herr]
  rw [hcalls]
  exact ⟨rfl, rfl, err, rfl⟩

theorem setOption_tidy {h : Host} {i : Nat} {o : Int} (hf : ¬ FastOpenFails h i o) (fd : Nat) :
    Tidy fd (setOption h fd i o) ∧
      ((setOption h fd i o).2 = .ok () ↔ ¬ SetsockoptFails h i o) := by
  unfold setOption
  by_cases hreuse : o = SOReuseport
  · rw [if_pos hreuse]
    refine ⟨orClose_tidy _ rfl rfl, ?_⟩
    rw [orClose_ok]
    simp [SetsockoptFails, hreuse]
  · rw [if_neg hreuse]
    by_cases hfast : o = TCPFastopen
    · have hallowed : fastOpenAllowed (h.readFile i) = none := by
        by_contra herr
        exact hf ⟨hfast, herr⟩
      rw [if_pos hfast, hallowed]
      refine ⟨orClose_tidy _ rfl rfl, ?_⟩
      rw [orClose_ok]
      simp [SetsockoptFails, hfast]
    · rw [if_neg hfast]
      refine ⟨⟨rfl, fun _ _ => rfl, by simp⟩, ?_⟩
      simp [SetsockoptFails, hreuse, hfast]

theorem stopsAtFastOpen_cons {h : Host} {i : Nat} {o : Int} {os : List Int} :
    StopsAtFastOpen h i (o :: os) ↔
      FastOpenFails h i o ∨ (¬ SetsockoptFails h i o ∧ StopsAtFastOpen h (i + 1) os) := by
  constructor
  · rintro ⟨k, o', ho', hfast, hpass⟩
    cases k with
    | zero =>
      cases ho'
      exact Or.inl hfast
    | succ k =>
      refine Or.inr ⟨hpass 0 (Nat.succ_pos k) o rfl, k, o', ho', ?_, ?_⟩
      · rwa [Nat.add_assoc, Nat.add_comm 1]
      · intro j hj o'' ho''
        have := hpass (j + 1) (Nat.succ_lt_succ hj) o'' ho''
        rwa [Nat.add_assoc, Nat.add_comm 1]
  · rintro (hfast | ⟨hpass, k, o', ho', hfast, hrest⟩)
    · refine ⟨0, o, rfl, hfast, ?_⟩
      intro j hj
      exact absurd hj (Nat.not_lt_zero j)
    · refine ⟨k + 1, o', ho', ?_, ?_⟩
      · rwa [Nat.add_comm k, ← Nat.add_assoc]
      · intro j hj o'' ho''
        cases j with
        | zero =>
          cases ho''
          exact hpass
        | succ j =>
          have := hrest j (Nat.lt_of_succ_lt_succ hj) o'' ho''
          rwa [Nat.add_comm j, ← Nat.add_assoc]

theorem setOptions_drops {h : Host} {i : Nat} {os : List Int} (hs : StopsAtFastOpen h i os)
    (fd : Nat) : Drops (setOptions h fd i os) := by
  induction os generalizing i with
  | nil =>
    obtain ⟨k, o, ho, -⟩ := hs
    cases ho
  | cons o os ih =>
    by_cases hfast : FastOpenFails h i o
    · exact (setOption_drops hfast fd).andThen_left
    · obtain ⟨hpass, hrest⟩ := (stopsAtFastOpen_cons.mp hs).resolve_left hfast
      obtain ⟨htidy, hok⟩ := setOption_tidy hfast fd
      exact Drops.andThen_right htidy (hok.mpr hpass) (ih hrest)

theorem setOptions_tidy {h : Host} {i : Nat} {os : List Int} (hs : ¬ StopsAtFastOpen h i os)
    (fd : Nat) : Tidy fd (setOptions h fd i os) := by
  induction os generalizing i with
  | nil => exact ⟨rfl, fun _ _ => rfl, by simp [setOptions]⟩
  | cons o os ih =>
    rw [stopsAtFastOpen_cons, not_or] at hs
    obtain ⟨htidy, hok⟩ := setOption_tidy hs.1 fd
    apply htidy.andThen
    intro _ hend
    apply ih
    intro hrest
    exact hs.2 ⟨hok.mp hend, hrest⟩

theorem listenOn_tidy (h : Host) (o : Opened) : Tidy o.fd (listenOn h o) := by
  apply (orClose_tidy h.bind rfl rfl).andThen
  intro _ _
  apply (orClose_tidy h.listen rfl rfl).andThen
  intro _ _
  exact ⟨rfl, fun _ _ => rfl, by simp⟩

/-- The listener that is returned owns the descriptor. -/
theorem listenOn_owns {h : Host} {o : Opened} {l : Listener} (hok : (listenOn h o).2 = .ok l) :
    l.f = o.fd := by
  unfold listenOn at hok
  cases hb : h.bind with
  | some e =>
    rw [hb] at hok
    cases hok
  | none =>
    cases hl : h.listen with
    | some e =>
      rw [hb, hl] at hok
      cases hok
    | none =>
      rw [hb, hl] at hok
      cases hok
      rfl

/-! ## The socket -/

/-- After an error the sockets that were opened have been closed, each one once, and
nothing else has. A listener owns the socket that was opened, and nothing was closed. -/
def LeaksNothing (r : Calls Listener) : Prop :=
  match r.2 with
  | .error _ => closed r.1 = opened r.1
  | .ok l => closed r.1 = [] ∧ opened r.1 = [l.f]

/-- The address is resolved, in the cases that resolve one. -/
def Case.Resolves (h : Host) (network address : String) : Case → Prop
  | .inet _ => ∃ a, h.resolve network address = .ok a
  | .unix => True

/-- If the socket is opened, the address is resolved, and the loop over the options
does not come to one that the system does not allow. -/
def CleansUp (h : Host) (network address : String) (sockopts : List Int) : Prop :=
  ∀ c, caseOf network = some c → ∀ fd, h.socket c.domain c.typ = .ok fd →
    c.Resolves h network address ∧ ¬ StopsAtFastOpen h 0 sockopts

/-- The ways out of the switch. -/
inductive Switched (h : Host) (network address : String) : Calls Opened → Prop
  | unopened {calls : List Call} {e : Error} (ho : opened calls = []) (hc : closed calls = [])
      (hnone : ∀ c, caseOf network = some c → ∀ fd, h.socket c.domain c.typ ≠ .ok fd) :
      Switched h network address (calls, .error e)
  | unresolved {calls : List Call} {e : Error} {c : Case} {fd : Nat} (ho : opened calls = [fd])
      (hc : closed calls = []) (hcase : caseOf network = some c)
      (hfd : h.socket c.domain c.typ = .ok fd) (hres : ¬ c.Resolves h network address) :
      Switched h network address (calls, .error e)
  | ready {calls : List Call} {o : Opened} {c : Case} (ho : opened calls = [o.fd])
      (hc : closed calls = []) (hcase : caseOf network = some c)
      (hfd : h.socket c.domain c.typ = .ok o.fd) (hres : c.Resolves h network address) :
      Switched h network address (calls, .ok o)

theorem opened_socketCall {h : Host} {c : Case} {fd : Nat}
    (hfd : h.socket c.domain c.typ = .ok fd) : opened [socketCall h c] = [fd] := by
  simp [opened, socketCall, hfd, Call.opened]

theorem not_opened_socketCall {h : Host} {c : Case} {e : Errno}
    (hfd : h.socket c.domain c.typ = .error e) (calls : List Call) :
    opened (socketCall h c :: calls) = opened calls := by
  apply List.filterMap_cons_none
  rw [socketCall, hfd]
  rfl

theorem openInet_switched {h : Host} {network address : String} {c : Inet}
    (hcase : caseOf network = some (.inet c)) :
    Switched h network address (openInet h network address c) := by
  unfold openInet
  cases hfd : h.socket c.domain c.typ with
  | error e =>
    refine .unopened (not_opened_socketCall (c := .inet c) hfd []) rfl ?_
    intro c' hc' fd
    obtain rfl : Case.inet c = c' := Option.some.inj (hcase.symm.trans hc')
    simp [Case.domain, Case.typ, hfd]
  | ok fd =>
    cases hres : h.resolve network address with
    | error e =>
      refine .unresolved (opened_socketCall (c := .inet c) hfd) rfl hcase hfd ?_
      rintro ⟨a, ha⟩
      rw [hres] at ha
      cases ha
    | ok a => exact .ready (opened_socketCall (c := .inet c) hfd) rfl hcase hfd ⟨a, hres⟩

theorem openUnix_switched {h : Host} {network address : String}
    (hcase : caseOf network = some .unix) :
    Switched h network address (openUnix h network address) := by
  unfold openUnix
  cases hfd : h.socket .unix .stream with
  | error e =>
    refine .unopened (not_opened_socketCall (c := .unix) hfd _) rfl ?_
    intro c' hc' fd
    obtain rfl : Case.unix = c' := Option.some.inj (hcase.symm.trans hc')
    simp [Case.domain, Case.typ, hfd]
  | ok fd => exact .ready (opened_socketCall (c := .unix) hfd) rfl hcase hfd trivial

theorem openSocket_switched (h : Host) (network address : String) :
    Switched h network address (openSocket h network address) := by
  unfold openSocket
  cases hcase : caseOf network with
  | none =>
    refine .unopened rfl rfl ?_
    intro c hc
    rw [hcase] at hc
    cases hc
  | some c =>
    cases c with
    | inet c => exact openInet_switched hcase
    | unix => exact openUnix_switched hcase

/-- A socket that is left to a tidy rest is closed or owned. -/
theorem Tidy.leaksNothing {calls : List Call} {fd : Nat} {rest : Calls Listener}
    (ho : opened calls = [fd]) (hc : closed calls = []) (hrest : Tidy fd rest)
    (howns : ∀ l, rest.2 = .ok l → l.f = fd) : LeaksNothing (calls ++ rest.1, rest.2) := by
  unfold LeaksNothing
  cases hend : rest.2 with
  | error e =>
    simp only [closed_append, opened_append, ho, hc, hrest.opens, hrest.error e hend]
    rfl
  | ok l =>
    simp only [closed_append, opened_append, ho, hc, hrest.opens, hrest.ok l hend,
      howns l hend]
    exact ⟨rfl, rfl⟩

theorem Drops.leaks {calls : List Call} {fd : Nat} {rest : Calls Listener}
    (ho : opened calls = [fd]) (hc : closed calls = []) (hrest : Drops rest) :
    ¬ LeaksNothing (calls ++ rest.1, rest.2) := by
  obtain ⟨hopens, hcloses, e, he⟩ := hrest
  intro hleak
  simp only [LeaksNothing, he, closed_append, opened_append, ho, hc, hopens, hcloses] at hleak
  cases hleak

/-- `SockoptListener` leaves no socket open behind an error exactly if the address is
resolved and the first option that fails, if one does, fails at `setsockopt`. -/
theorem sockets_are_closed_iff (h : Host) (network address : String) (sockopts : List Int) :
    LeaksNothing (sockoptListener h network address sockopts) ↔
      CleansUp h network address sockopts := by
  have hswitched := openSocket_switched h network address
  unfold sockoptListener
  generalize openSocket h network address = switched at hswitched
  cases hswitched with
  | @unopened calls e ho hc hnone =>
    rw [Calls.andThen_error rfl]
    constructor
    · intro _ c hcase fd hfd
      exact absurd hfd (hnone c hcase fd)
    · intro _
      simp only [LeaksNothing, ho, hc]
  | @unresolved calls e c fd ho hc hcase hfd hres =>
    rw [Calls.andThen_error rfl]
    constructor
    · intro hleak
      simp only [LeaksNothing, ho, hc] at hleak
      cases hleak
    · intro hclean
      exact absurd (hclean c hcase fd hfd).1 hres
  | @ready calls o c ho hc hcase hfd hres =>
    rw [Calls.andThen_ok rfl]
    by_cases hstop : StopsAtFastOpen h 0 sockopts
    · constructor
      · intro hleak
        exact absurd hleak ((setOptions_drops hstop o.fd).andThen_left.leaks ho hc)
      · intro hclean
        exact absurd hstop (hclean c hcase o.fd hfd).2
    · constructor
      · intro _ c' hcase' _ _
        obtain rfl : c = c' := Option.some.inj (hcase.symm.trans hcase')
        exact ⟨hres, hstop⟩
      · intro _
        apply ((setOptions_tidy hstop o.fd).andThen fun _ _ => listenOn_tidy h o).leaksNothing ho hc
        intro l hl
        cases hend : (setOptions h o.fd 0 sockopts).2 with
        | error e =>
          rw [Calls.andThen_error hend] at hl
          cases hl
        | ok a =>
          rw [Calls.andThen_ok hend] at hl
          exact listenOn_owns hl

/-- A host on which no name resolves. -/
def Host.nameless : Host :=
  { Host.willing ⟨[127, 0, 0, 1], 80, "127.0.0.1:80"⟩ with
    resolve := fun _ _ => .error "no such host" }

/-- A host that resolves every name and does not allow fast open. -/
def Host.slow : Host :=
  { Host.willing ⟨[127, 0, 0, 1], 80, "127.0.0.1:80"⟩ with
    readFile := fun _ => .ok [0x31, 0x0a] }

/-- An address that does not resolve, and a fast open that is not allowed: both return
an error and leave the socket open. -/
theorem an_error_leaves_the_socket_open :
    (sockoptListener Host.nameless "tcp" "nowhere:80" []).2 =
      .error (.text "could not open socket") ∧
    ¬ LeaksNothing (sockoptListener Host.nameless "tcp" "nowhere:80" []) ∧
    (sockoptListener Host.slow "tcp" "localhost:80" [TCPFastopen]).2 =
      .error (.text "set /proc/sys/net/ipv4/tcp_fastopen to 3") ∧
    ¬ LeaksNothing (sockoptListener Host.slow "tcp" "localhost:80" [TCPFastopen]) := by
  refine ⟨rfl, ?_, rfl, ?_⟩
  · intro hleak
    have hclosed : [] = [3] := hleak
    cases hclosed
  · intro hleak
    have hclosed : [] = [3] := hleak
    cases hclosed

end iouring.sockopt_listener
