-- The connections of a listener, from `Accept4` in `onListen` through the channel `newConn`
-- to the callers of `Accept`: the loop of `ringListener.run` with its select, its `Enter` and
-- its walk, any number of goroutines that call `Accept`, and `Close`.
import Iouring.Listener

open machine counter

namespace iouring.listener_conns

open listener (ConnInfo walkCq)

/-! ## The connections -/

/-- `addr` of `conn.go`. A Go string is a list of bytes. -/
structure Addr where
  net : List UInt8
  s : List UInt8
  deriving DecidableEq, Repr

/-- The `syscall.Sockaddr` of a new connection, as `onListen` tells them apart. -/
inductive Sockaddr where
  | inet4 (addr : Vector UInt8 4) (port : Nat)
  | inet6 (addr : Vector UInt8 16) (port : Nat)
  | unix (name : List UInt8)
  | other
  deriving DecidableEq, Repr

/-- `fmt.Sprintf("%s:%d", addr, port)`: `%s` of an array of bytes gives the bytes. -/
def hostPort (addr : List UInt8) (port : Nat) : List UInt8 :=
  addr ++ 58 :: (Nat.toDigits 10 port).map fun c => UInt8.ofNat c.toNat

/-- `rc.raddr.s` after the switch. -/
def Sockaddr.text : Sockaddr → List UInt8
  | .inet4 addr port => hostPort addr.toList port
  | .inet6 addr port => hostPort addr.toList port
  | .unix name => name
  | .other => []

/-- `ringConn`, as far as a caller of `Accept` sees it. -/
structure Conn where
  fd : Int32
  laddr : Addr
  raddr : Addr
  deriving DecidableEq, Repr

/-! ## The loop -/

/-- Where `ringListener.run` stands. -/
inductive RunPc where
  | select
  | enter
  | walk
  -- onListen
  | accept4 (cInfo : ConnInfo)
  | polls (cInfo : ConnInfo) (rc : Conn)
  | send (rc : Conn)
  | returned
  deriving DecidableEq, Repr

/-- The connection that `onListen` has in hand. -/
def RunPc.inHand : RunPc → List Conn
  | .polls _ rc | .send rc => [rc]
  | _ => []

/-- The buffer of `newConn`, from `make(chan net.Conn, 1024)`. -/
def newConnCap : Nat := 1024

/-- The listener, its loop and its channels, and which goroutines wait in `Accept`. The
program is over when one of its goroutines has panicked. What `Accept4` has given, what
`Accept` has returned and how much had been given at `Close` are kept for the laws only. -/
structure State (ι : Type) where
  listener : listener.State
  a : Addr
  run : RunPc
  newConn : List Conn
  accepting : ι → Bool
  stopClosed : Bool
  panicked : Bool
  given : List Conn
  accepted : List (ι × Conn)
  givenAtClose : Option Nat

/-- The listener when `SockoptListener` returns, with the first poll of `run` committed. -/
def start (ι : Type) (fd : Int32) (id : UInt64) (a : Addr) : State ι :=
  ⟨listener.start fd id, a, .select, [], fun _ => false, false, false, [], [], none⟩

/-- What can happen next: the kernel completes a poll, or the ring changes otherwise; `run`
looks at its select, its `Enter` returns or fails, it walks the queue, `Accept4` returns a
connection or an error, the polls are committed, the connection is sent; a goroutine calls
`Accept`, or gets a connection; somebody calls `Close`. -/
inductive Act (ι : Type) where
  | ring (a : listener.Act)
  | select
  | enter (err : Bool)
  | walk
  | accept4 (newFd : Int32) (sa : Sockaddr)
  | accept4Fails
  | polls
  | send
  | accept (g : ι)
  | receive (g : ι)
  | close
  deriving DecidableEq, Repr

variable {ι : Type}

section

variable [DecidableEq ι]

/-- A step of a program in which no goroutine has panicked. -/
def goStep (z : Size) (s : State ι) : Act ι → Option (State ι)
  | .ring a => (listener.step z s.listener a).map fun l => { s with listener := l }
  | .select =>
    -- the default case is taken only if the other one is not ready
    if s.run = .select then some { s with run := if s.stopClosed then .returned else .enter }
    else none
  | .enter err =>
    if s.run = .enter then some { s with run := if err then .select else .walk } else none
  | .walk =>
    if s.run = .walk then
      match walkCq z s.listener with
      | (l, none) => some { s with listener := l, run := .select }
      | (l, some cInfo) => some { s with listener := l, run := .accept4 cInfo }
    else none
  | .accept4 newFd sa =>
    match s.run with
    | .accept4 cInfo =>
      let rc : Conn := ⟨newFd, s.a, ⟨s.a.net, sa.text⟩⟩
      some { s with run := .polls cInfo rc, given := s.given ++ [rc] }
    | _ => none
  | .accept4Fails =>
    match s.run with
    | .accept4 _ => some { s with panicked := true }
    | _ => none
  | .polls =>
    match s.run with
    | .polls _ rc => some { s with run := .send rc }
    | _ => none
  | .send =>
    match s.run with
    | .send rc =>
      if s.newConn.length < newConnCap then
        some { s with newConn := s.newConn ++ [rc], run := .select }
      else none
    | _ => none
  | .accept g =>
    if s.accepting g = false then
      some { s with accepting := Function.update s.accepting g true }
    else none
  | .receive g =>
    match s.accepting g, s.newConn with
    | true, rc :: rest =>
      some { s with
        newConn := rest
        accepting := Function.update s.accepting g false
        accepted := s.accepted ++ [(g, rc)] }
    | _, _ => none
  -- the second close of a channel panics
  | .close =>
    if s.stopClosed then some { s with panicked := true }
    else some { s with stopClosed := true, givenAtClose := some s.given.length }

def step (z : Size) (s : State ι) (a : Act ι) : Option (State ι) :=
  if s.panicked then none else goStep z s a

end

/-! ## The law -/

/-- `run` is in an iteration of its loop that may still call `Accept4`. -/
def RunPc.mayAccept : RunPc → Bool
  | .enter | .walk | .accept4 _ => true
  | _ => false

/-- Where each connection is, and how many come after `Close`. -/
structure ConnInv (s : State ι) : Prop where
  order : s.given = s.accepted.map (·.2) ++ s.newConn ++ s.run.inHand
  room : s.newConn.length ≤ newConnCap
  closed : s.stopClosed = s.givenAtClose.isSome
  late : ∀ n, s.givenAtClose = some n → s.given.length + s.run.mayAccept.toNat ≤ n + 1

theorem connInv_start (fd : Int32) (id : UInt64) (a : Addr) : ConnInv (start ι fd id a) where
  order := rfl
  room := Nat.zero_le _
  closed := rfl
  late := nofun

theorem ConnInv.frame {s s' : State ι} (hi : ConnInv s) (hgiven : s'.given = s.given)
    (haccepted : s'.accepted = s.accepted) (hnewConn : s'.newConn = s.newConn)
    (hhand : s'.run.inHand = s.run.inHand) (hclosed : s'.stopClosed = s.stopClosed)
    (hat : s'.givenAtClose = s.givenAtClose)
    (hmay : s.stopClosed = true → s'.run.mayAccept.toNat ≤ s.run.mayAccept.toNat) :
    ConnInv s' where
  order := by rw [hgiven, haccepted, hnewConn, hhand]; exact hi.order
  room := by rw [hnewConn]; exact hi.room
  closed := by rw [hclosed, hat]; exact hi.closed
  late := by
    intro n hn
    rw [hat] at hn
    have hstop : s.stopClosed = true := by rw [hi.closed, hn]; rfl
    have h1 := hmay hstop
    have h2 := hi.late n hn
    rw [hgiven]
    omega

variable [DecidableEq ι]

theorem connInv_step {z : Size} {s s' : State ι} {a : Act ι} (hi : ConnInv s)
    (h : step z s a = some s') : ConnInv s' := by
  simp only [step, Option.ite_none_left_eq_some] at h
  replace h := h.2
  cases a with
  | ring a =>
    obtain ⟨l, -, rfl⟩ := Option.map_eq_some_iff.mp h
    exact hi.frame rfl rfl rfl rfl rfl rfl fun _ => Nat.le_refl _
  | select =>
    simp only [goStep, Option.ite_none_right_eq_some, Option.some.injEq] at h
    obtain ⟨hrun, rfl⟩ := h
    cases hstop : s.stopClosed with
    | false =>
      refine hi.frame rfl rfl rfl ?_ hstop.symm rfl fun hs => ?_
      · rw [hrun]; rfl
      · rw [hstop] at hs; cases hs
    | true =>
      refine hi.frame rfl rfl rfl ?_ hstop.symm rfl fun _ => Nat.zero_le _
      rw [hrun]; rfl
  | enter err =>
    simp only [goStep, Option.ite_none_right_eq_some, Option.some.injEq] at h
    obtain ⟨hrun, rfl⟩ := h
    refine hi.frame rfl rfl rfl ?_ rfl rfl fun _ => ?_
    · rw [hrun]; cases err <;> rfl
    · rw [hrun]; exact Bool.toNat_le _
  | walk =>
    simp only [goStep, Option.ite_none_right_eq_some] at h
    obtain ⟨hrun, h⟩ := h
    cases hw : walkCq z s.listener with
    | mk l cInfo =>
      rw [hw] at h
      cases cInfo with
      | none =>
        cases h
        exact hi.frame rfl rfl rfl (by rw [hrun]; rfl) rfl rfl fun _ => Nat.zero_le _
      | some cInfo =>
        cases h
        refine hi.frame rfl rfl rfl (by rw [hrun]; rfl) rfl rfl fun _ => ?_
        rw [hrun]
        exact Nat.le_refl _
  | accept4 newFd sa =>
    simp only [goStep] at h
    cases hrun : s.run with
    | accept4 cInfo =>
      rw [hrun] at h
      cases h
      have horder := hi.order
      rw [hrun] at horder
      refine ⟨?_, hi.room, hi.closed, fun n hn => ?_⟩
      · simp only [RunPc.inHand, List.append_nil] at horder ⊢
        rw [horder]
      · have := hi.late n hn
        rw [hrun] at this
        simp only [RunPc.mayAccept, Bool.toNat_true, Bool.toNat_false, List.length_append,
          List.length_singleton] at this ⊢
        omega
    | _ =>
      rw [hrun] at h
      cases h
  | accept4Fails =>
    simp only [goStep] at h
    split at h <;> cases h
    exact hi.frame rfl rfl rfl rfl rfl rfl fun _ => Nat.le_refl _
  | polls =>
    simp only [goStep] at h
    cases hrun : s.run with
    | polls cInfo rc =>
      rw [hrun] at h
      cases h
      exact hi.frame rfl rfl rfl (by rw [hrun]; rfl) rfl rfl fun _ => Nat.zero_le _
    | _ =>
      rw [hrun] at h
      cases h
  | send =>
    simp only [goStep] at h
    cases hrun : s.run with
    | send rc =>
      rw [hrun] at h
      simp only [Option.ite_none_right_eq_some, Option.some.injEq] at h
      obtain ⟨hroom, rfl⟩ := h
      have horder := hi.order
      rw [hrun] at horder
      refine ⟨?_, ?_, hi.closed, fun n hn => ?_⟩
      · simp only [RunPc.inHand, List.append_nil, ← List.append_assoc] at horder ⊢
        exact horder
      · rw [List.length_append]
        exact hroom
      · have := hi.late n hn
        rw [hrun] at this
        exact this
    | _ =>
      rw [hrun] at h
      cases h
  | accept g =>
    simp only [goStep, Option.ite_none_right_eq_some, Option.some.injEq] at h
    obtain ⟨-, rfl⟩ := h
    exact hi.frame rfl rfl rfl rfl rfl rfl fun _ => Nat.le_refl _
  | receive g =>
    simp only [goStep] at h
    split at h <;> cases h
    rename_i rc rest hg hc
    have horder := hi.order
    have hroom := hi.room
    rw [hc] at horder hroom
    refine ⟨?_, Nat.le_of_succ_le hroom, hi.closed, hi.late⟩
    simp only [List.map_append, List.map_cons, List.map_nil, List.append_assoc, List.cons_append,
      List.nil_append] at horder ⊢
    exact horder
  | close =>
    simp only [goStep] at h
    split at h <;> cases h
    · exact hi.frame rfl rfl rfl rfl rfl rfl fun _ => Nat.le_refl _
    · refine ⟨hi.order, hi.room, rfl, fun n hn => ?_⟩
      cases hn
      have : s.run.mayAccept.toNat ≤ 1 := Bool.toNat_le _
      simp only
      omega

/-- Each connection that `Accept4` has given has been returned by one `Accept`, or it waits:
in order, none lost and none twice. The channel holds 1024 at most. At most one connection is
given after `Close`. -/
structure InOrder (s : State ι) : Prop where
  order : s.given = s.accepted.map (·.2) ++ s.newConn ++ s.run.inHand
  room : s.newConn.length ≤ newConnCap
  late : ∀ n, s.givenAtClose = some n → s.given.length ≤ n + 1

/-- However the loop, the callers of `Accept` and `Close` interleave, connections are handed
out in the order in which they come. -/
theorem connections_are_handed_out_in_order (z : Size) (fd : Int32) (id : UInt64) (a : Addr)
    (as : List (Act ι)) : Always (step z) InOrder (start ι fd id a) as := by
  have hlaw : ∀ s : State ι, ConnInv s → InOrder s := fun s hi =>
    ⟨hi.order, hi.room, fun n hn => Nat.le_trans (Nat.le_add_right _ _) (hi.late n hn)⟩
  exact always_of_invariant (fun _ _ _ hi h => connInv_step hi h) hlaw (connInv_start fd id a) as

end iouring.listener_conns
