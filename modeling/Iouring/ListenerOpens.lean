-- When `SockoptListener` returns a listener, and which system calls it has made then. Each
-- option that it knows is set in its turn and the others are passed over. For fast open it
-- reads a file, which has to hold the number 3 in one of the ways `strconv.Atoi` takes it.
import Iouring.SockoptListener

namespace iouring.sockopt_listener

/-! ## The file -/

/-- The digits of 3 behind `k` zeros. -/
def three (k : Nat) : List UInt8 := List.replicate k 0x30 ++ [0x33]

/-- Without its line feeds the file holds a 3, behind zeros or none and a plus or none. -/
def ReadsThree (b : List UInt8) : Prop :=
  ∃ k, b.filter (· ≠ 0x0a) = three k ∨ b.filter (· ≠ 0x0a) = 0x2b :: three k

theorem digit_eq_some {b : UInt8} {d : Nat} :
    digit b = some d ↔ d ≤ 9 ∧ b.toNat = 0x30 + d := by
  unfold digit
  have hlo : (0x30 : UInt8) ≤ b ↔ 0x30 ≤ b.toNat := UInt8.le_iff_toNat_le
  have hhi : b ≤ 0x39 ↔ b.toNat ≤ 0x39 := UInt8.le_iff_toNat_le
  split
  · rename_i h
    rw [hlo, hhi] at h
    rw [Option.some.injEq]
    omega
  · rename_i h
    rw [hlo, hhi] at h
    refine ⟨fun hnone => (by cases hnone), fun hd => absurd ?_ h⟩
    omega

/-- The digits read so far are those of 3, or there is nothing but zeros so far. -/
theorem digits_eq_three {acc : Nat} {bs : List UInt8} :
    digits acc bs = some 3 ↔ (acc = 3 ∧ bs = []) ∨ (acc = 0 ∧ ∃ k, bs = three k) := by
  induction bs generalizing acc with
  | nil =>
    have hne : ∀ k, three k ≠ [] := by simp [three]
    simp [digits, fun k => (hne k).symm]
  | cons b bs ih =>
    rw [digits, Option.bind_eq_some_iff]
    constructor
    · rintro ⟨d, hd, h⟩
      rw [digit_eq_some] at hd
      rcases ih.mp h with ⟨hacc, rfl⟩ | ⟨hacc, k, rfl⟩
      · have hb : b = 0x33 := UInt8.toNat_inj.mp (by rw [hd.2]; show _ = 0x33; omega)
        exact Or.inr ⟨by omega, 0, by rw [hb]; rfl⟩
      · have hb : b = 0x30 := UInt8.toNat_inj.mp (by rw [hd.2]; show _ = 0x30; omega)
        exact Or.inr ⟨by omega, k + 1, by rw [hb]; rfl⟩
    · rintro (⟨-, h⟩ | ⟨rfl, k, hk⟩)
      · cases h
      · cases k with
        | zero =>
          cases hk
          exact ⟨3, rfl, rfl⟩
        | succ k =>
          cases hk
          exact ⟨0, rfl, ih.mpr (Or.inr ⟨rfl, k, rfl⟩)⟩

theorem decimal_eq_three {ds : List UInt8} : decimal ds = some 3 ↔ ∃ k, ds = three k := by
  unfold decimal
  split
  · rename_i h
    rw [h]
    simp [three]
  · rw [digits_eq_three]
    simp

theorem three_ne_sign (k : Nat) (b : UInt8) (ds : List UInt8) (hb : b = 0x2d ∨ b = 0x2b) :
    three k ≠ b :: ds := by
  rcases hb with rfl | rfl <;> cases k <;> simp [three, List.replicate_succ]

theorem atoi_eq_three {s : List UInt8} :
    atoi s = some 3 ↔ ∃ k, s = three k ∨ s = 0x2b :: three k := by
  have hpos : ∀ ds, ((decimal ds).bind fun n =>
      if n < 0x8000000000000000 then some (n : Int) else none) = some 3 ↔ ∃ k, ds = three k := by
    intro ds
    rw [← decimal_eq_three, Option.bind_eq_some_iff]
    constructor
    · rintro ⟨n, hn, h⟩
      rw [Option.ite_none_right_eq_some, Option.some.injEq] at h
      rw [hn, Option.some.injEq]
      omega
    · exact fun h => ⟨3, h, rfl⟩
  unfold atoi
  split
  · rename_i ds
    constructor
    · intro h
      obtain ⟨n, -, h⟩ := Option.bind_eq_some_iff.mp h
      rw [Option.ite_none_right_eq_some, Option.some.injEq] at h
      omega
    · rintro ⟨k, h | h⟩
      · exact absurd h.symm (three_ne_sign k _ _ (Or.inl rfl))
      · cases h
  · rename_i ds
    rw [hpos]
    refine exists_congr fun k => ⟨fun h => Or.inr (by rw [h]), ?_⟩
    rintro (h | h)
    · exact absurd h.symm (three_ne_sign k _ _ (Or.inr rfl))
    · cases h
      rfl
  · rename_i hminus hplus
    rw [hpos]
    exact exists_congr fun k => ⟨Or.inl, fun h => h.resolve_right (hplus _)⟩

/-- Fast open is allowed exactly if the file can be read and holds a 3. -/
theorem fastOpenAllowed_iff {file : Except Errno (List UInt8)} :
    fastOpenAllowed file = none ↔ ∃ b, file = .ok b ∧ ReadsThree b := by
  cases file with
  | error e => simp [fastOpenAllowed]
  | ok b =>
    have hthree := @atoi_eq_three (b.filter (· ≠ 0x0a))
    simp only [Except.ok.injEq, exists_eq_left']
    rw [ReadsThree, ← hthree]
    unfold fastOpenAllowed
    dsimp only
    cases atoi (b.filter (· ≠ 0x0a)) with
    | none => simp
    | some n => by_cases hn : n = 3 <;> simp [hn]

/-! ## The options -/

/-- The call that sets an option, if it is one that is set. -/
def optionCall (fd sockopt : Int) : Option Call :=
  if sockopt = SOReuseport then some (.setsockopt fd SOL_SOCKET sockopt 1)
  else if sockopt = TCPFastopen then some (.setsockopt fd SOL_TCP sockopt 1)
  else none

/-- The option at place `i` does not stop the listener. -/
structure Passes (h : Host) (i : Nat) (sockopt : Int) : Prop where
  set : sockopt = SOReuseport ∨ sockopt = TCPFastopen → h.setsockopt i = none
  allowed : sockopt = TCPFastopen → ∃ b, h.readFile i = .ok b ∧ ReadsThree b

theorem andThen_eq_ok {α β : Type} {m : Calls α} {f : α → Calls β} {calls : List Call} {b : β} :
    m.andThen f = (calls, .ok b) ↔
      ∃ a calls' rest, m = (calls', .ok a) ∧ f a = (rest, .ok b) ∧ calls = calls' ++ rest := by
  obtain ⟨calls', r⟩ := m
  cases r with
  | error e => simp [Calls.andThen]
  | ok a =>
    rcases hf : f a with ⟨rest, r⟩
    simp only [Calls.andThen, hf, Prod.mk.injEq, Except.ok.injEq]
    constructor
    · rintro ⟨rfl, rfl⟩
      exact ⟨a, calls', rest, ⟨rfl, rfl⟩, by rw [hf], rfl⟩
    · rintro ⟨a', calls'', rest', ⟨rfl, rfl⟩, hfa, rfl⟩
      rw [hf] at hfa
      cases hfa
      exact ⟨rfl, rfl⟩

theorem orClose_eq_ok {fd : Int} {call : Call} {answer : Option Errno} {calls : List Call} :
    orClose fd call answer = (calls, .ok ()) ↔ answer = none ∧ calls = [call] := by
  cases answer <;> simp [orClose, eq_comm]

theorem setOption_eq_ok {h : Host} {fd : Int} {i : Nat} {o : Int} {calls : List Call} :
    setOption h fd i o = (calls, .ok ()) ↔
      Passes h i o ∧ calls = (optionCall fd o).toList := by
  unfold setOption optionCall
  by_cases hreuse : o = SOReuseport
  · rw [if_pos hreuse, if_pos hreuse, orClose_eq_ok]
    refine and_congr_left fun _ => ⟨fun hset => ⟨fun _ => hset, fun hfast => ?_⟩, fun hp => ?_⟩
    · rw [hreuse] at hfast
      cases hfast
    · exact hp.set (Or.inl hreuse)
  · rw [if_neg hreuse, if_neg hreuse]
    by_cases hfast : o = TCPFastopen
    · rw [if_pos hfast, if_pos hfast]
      cases hallowed : fastOpenAllowed (h.readFile i) with
      | some err =>
        refine ⟨fun hend => (by cases hend), fun ⟨hp, _⟩ => ?_⟩
        rw [fastOpenAllowed_iff.mpr (hp.allowed hfast)] at hallowed
        cases hallowed
      | none =>
        dsimp only
        rw [orClose_eq_ok]
        refine and_congr_left fun _ => ⟨fun hset => ⟨fun _ => hset, fun _ => ?_⟩, fun hp => ?_⟩
        · exact fastOpenAllowed_iff.mp hallowed
        · exact hp.set (Or.inr hfast)
    · rw [if_neg hfast, if_neg hfast]
      have hpass : Passes h i o := ⟨fun hor => absurd hor (by simp [hreuse, hfast]),
        fun h => absurd h hfast⟩
      simp [hpass, eq_comm]

/-- The loop over the options sets those it knows, in order. -/
theorem setOptions_eq_ok {h : Host} {fd : Int} {i : Nat} {os : List Int} {calls : List Call} :
    setOptions h fd i os = (calls, .ok ()) ↔
      (∀ k o, os[k]? = some o → Passes h (i + k) o) ∧ calls = os.filterMap (optionCall fd) := by
  induction os generalizing i calls with
  | nil => simp [setOptions, eq_comm]
  | cons o os ih =>
    have hcons : (∀ k o', (o :: os)[k]? = some o' → Passes h (i + k) o') ↔
        Passes h i o ∧ ∀ k o', os[k]? = some o' → Passes h (i + 1 + k) o' := by
      constructor
      · intro hall
        refine ⟨hall 0 o rfl, fun k o' ho' => ?_⟩
        rw [Nat.add_assoc, Nat.add_comm 1]
        exact hall (k + 1) o' ho'
      · rintro ⟨hfirst, hrest⟩ k o' ho'
        cases k with
        | zero =>
          cases ho'
          exact hfirst
        | succ k =>
          rw [Nat.add_comm k, ← Nat.add_assoc]
          exact hrest k o' ho'
    have happend : (o :: os).filterMap (optionCall fd) =
        (optionCall fd o).toList ++ os.filterMap (optionCall fd) := by
      cases hcall : optionCall fd o <;> simp [hcall]
    rw [setOptions, andThen_eq_ok, hcons, happend]
    constructor
    · rintro ⟨_, first, rest, hfirst, hrest, rfl⟩
      obtain ⟨hp, rfl⟩ := setOption_eq_ok.mp hfirst
      obtain ⟨hps, rfl⟩ := ih.mp hrest
      exact ⟨⟨hp, hps⟩, rfl⟩
    · rintro ⟨⟨hp, hps⟩, rfl⟩
      exact ⟨(), _, _, setOption_eq_ok.mpr ⟨hp, rfl⟩, ih.mpr ⟨hps, rfl⟩, rfl⟩

/-! ## The listener -/

/-- The socket of the case is opened and its address is resolved: what the switch leaves. -/
def Case.Leaves (h : Host) (network address : String) : Case → Opened → Prop
  | .inet c, o => ∃ fd a, h.socket c.domain c.typ = .ok fd ∧ h.resolve network address = .ok a ∧
      o = if c.named then ⟨fd, c.sockaddr a, c.network, a.string⟩
        else ⟨fd, c.sockaddr a, network, ""⟩
  | .unix, o => ∃ fd, h.socket .unix .stream = .ok fd ∧ o = ⟨fd, .unix address, network, ""⟩

theorem openSocket_eq_ok {h : Host} {network address : String} {calls : List Call} {o : Opened} :
    openSocket h network address = (calls, .ok o) ↔
      ∃ c, caseOf network = some c ∧ c.Leaves h network address o ∧ calls = [socketCall h c] := by
  unfold openSocket
  cases hcase : caseOf network with
  | none => simp
  | some c =>
    simp only [Option.some.injEq, exists_eq_left']
    cases c with
    | inet c =>
      simp only [openInet, Case.Leaves]
      cases hfd : h.socket c.domain c.typ with
      | error e => simp
      | ok fd =>
        cases hres : h.resolve network address with
        | error e => simp
        | ok a => cases hnamed : c.named <;> simp [eq_comm, and_comm]
    | unix =>
      simp only [openUnix, Case.Leaves]
      cases hfd : h.socket .unix .stream with
      | error e => simp
      | ok fd => simp [eq_comm, and_comm]

theorem listenOn_eq_ok {h : Host} {o : Opened} {calls : List Call} {l : Listener} :
    listenOn h o = (calls, .ok l) ↔ h.bind = none ∧ h.listen = none ∧
      calls = [.bind o.fd o.sockAddr, .listen o.fd SOMAXCONN] ∧ l = ⟨o.fd, o.net, o.s⟩ := by
  unfold listenOn
  cases hb : h.bind with
  | some e => simp [Calls.andThen, orClose]
  | none =>
    cases hl : h.listen with
    | some e => simp [Calls.andThen, orClose]
    | none => simp [Calls.andThen, orClose, eq_comm]

/-- `SockoptListener` returns a listener exactly if it knows the network, the socket is opened
and the address resolved, no option stops it, and `Bind` and `Listen` succeed. It has then
opened the socket, set each option that it knows in its turn, bound the address that the switch
has left, and listened. -/
theorem a_listener_is_returned_iff (h : Host) (network address : String) (sockopts : List Int)
    (calls : List Call) (l : Listener) :
    sockoptListener h network address sockopts = (calls, .ok l) ↔
      ∃ c o, caseOf network = some c ∧ c.Leaves h network address o ∧
        (∀ k opt, sockopts[k]? = some opt → Passes h k opt) ∧
        h.bind = none ∧ h.listen = none ∧ l = ⟨o.fd, o.net, o.s⟩ ∧
        calls = socketCall h c :: sockopts.filterMap (optionCall o.fd) ++
          [.bind o.fd o.sockAddr, .listen o.fd SOMAXCONN] := by
  unfold sockoptListener
  rw [andThen_eq_ok]
  constructor
  · rintro ⟨o, first, rest, hopen, hrest, rfl⟩
    obtain ⟨c, hcase, hleaves, rfl⟩ := openSocket_eq_ok.mp hopen
    obtain ⟨_, options, last, hoptions, hlast, rfl⟩ := andThen_eq_ok.mp hrest
    obtain ⟨hpass, rfl⟩ := setOptions_eq_ok.mp hoptions
    obtain ⟨hb, hl, rfl, rfl⟩ := listenOn_eq_ok.mp hlast
    refine ⟨c, o, hcase, hleaves, fun k opt hopt => ?_, hb, hl, rfl, rfl⟩
    have := hpass k opt hopt
    rwa [Nat.zero_add] at this
  · rintro ⟨c, o, hcase, hleaves, hpass, hb, hl, rfl, rfl⟩
    refine ⟨o, _, _, openSocket_eq_ok.mpr ⟨c, hcase, hleaves, rfl⟩, ?_, rfl⟩
    refine andThen_eq_ok.mpr ⟨(), _, _, setOptions_eq_ok.mpr ⟨fun k opt hopt => ?_, rfl⟩,
      listenOn_eq_ok.mpr ⟨hb, hl, rfl, rfl⟩, rfl⟩
    rw [Nat.zero_add]
    exact hpass k opt hopt

end iouring.sockopt_listener
