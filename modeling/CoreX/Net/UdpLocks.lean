import CoreX.Base.Locks
import CoreX.Base.Run

/-!
# The locks of UDP sockets (`stack/udp_socket.rs`)

`net_connection_udp_open` locks the socket, the network card and its store, and under them the connection.
`net_socket_udp_sendto` locks the file for a moment, the socket, the connection, and under them the card. The two
orders do no harm, since whoever locks a connection has its socket.

A step takes a lock, drops one, or goes on to where the next is needed. What `net_connection_udp_open` stores in a
connection is put there in one step.
-/

namespace CoreX.UdpLocks

open Locks Function List Option

structure UdpConnection where
  localPort : UInt16
  remotePort : UInt16
  ip : List UInt8

structure Open (σ ν : Type) where
  sock : σ
  nic : ν
  localPort : UInt16
  addr : Option (List UInt8)
  remotePort : UInt16

structure Send (φ σ ν : Type) where
  fd : φ
  sock : σ
  nic : ν
  destAddr : Option (List UInt8)

inductive Lock (φ σ ν : Type) where
  | fd (f : φ)
  | sock (i : σ)
  | conn (i : σ)
  | nic (n : ν)
  | store (n : ν)
  deriving DecidableEq

/-- About to lock something, having locked it, or about to drop the guard of the connection or of the socket. -/
inductive SendPc where
  | fd | dir | sock | test | conn | addr | nic | mtu | dropConn | dropSock

inductive OpenPc where
  | sock | nic | store
  /-- about to lock the connection so many times more -/
  | access (left : Nat)
  | accessed (left : Nat)
  | dropNic | dropSock

variable {φ σ ν τ : Type}

/-- An `open` may be called by a `send`, which then goes on. -/
inductive Pc (φ σ ν : Type) where
  | user
  | send (c : Send φ σ ν) (p : SendPc)
  | open (o : Open σ ν) (sender : Option (Send φ σ ν)) (p : OpenPc)

def Pc.held : Pc φ σ ν → List (Lock φ σ ν)
  | .user => []
  | .send c p =>
    match p with
    | .fd | .sock => []
    | .dir => [.fd c.fd]
    | .test | .conn | .dropSock => [.sock c.sock]
    | .addr | .nic | .dropConn => [.sock c.sock, .conn c.sock]
    | .mtu => [.sock c.sock, .conn c.sock, .nic c.nic]
  | .open o sender p =>
    (sender.map fun c => .sock c.sock).toList ++
      match p with
      | .sock => []
      | .nic | .dropSock => [.sock o.sock]
      | .store | .dropNic => [.sock o.sock, .nic o.nic]
      | .access _ => [.sock o.sock, .nic o.nic, .store o.nic]
      | .accessed _ => [.sock o.sock, .nic o.nic, .store o.nic, .conn o.sock]

def Pc.wanted : Pc φ σ ν → Option (Lock φ σ ν)
  | .user => none
  | .send c p =>
    match p with
    | .fd => some (.fd c.fd)
    | .sock => some (.sock c.sock)
    | .conn => some (.conn c.sock)
    | .nic => some (.nic c.nic)
    | .dir | .test | .addr | .mtu | .dropConn | .dropSock => none
  | .open o _ p =>
    match p with
    | .sock => some (.sock o.sock)
    | .nic => some (.nic o.nic)
    | .store => some (.store o.nic)
    | .access (_ + 1) => some (.conn o.sock)
    | .access 0 | .accessed _ | .dropNic | .dropSock => none

structure State (φ σ ν τ : Type) where
  conn : σ → Option UdpConnection
  pc : τ → Pc φ σ ν

def State.held (s : State φ σ ν τ) (t : τ) : List (Lock φ σ ν) := (s.pc t).held

def State.wanted (s : State φ σ ν τ) (t : τ) : Option (Lock φ σ ν) := (s.pc t).wanted

/-- The connection of the socket before the call, a new one if there is none. -/
def found (conn : Option UdpConnection) : UdpConnection := conn.getD ⟨0, 0, [0, 0, 0, 0]⟩

/-- What the call makes of the connection. The generator of ports is a placeholder, which gives 10000. -/
def Open.bind (o : Open σ ν) (conn : UdpConnection) : UdpConnection where
  localPort :=
    if o.localPort ≠ 0 then o.localPort else if conn.localPort ≠ 0 then conn.localPort else 10000
  remotePort := if o.remotePort ≠ 0 then o.remotePort else conn.remotePort
  ip := o.addr.getD conn.ip

def Open.accesses (o : Open σ ν) (conn : UdpConnection) : Nat :=
  (if o.addr.isSome then 1 else 0) + (if o.localPort ≠ 0 then 0 else if conn.localPort ≠ 0 then 2 else 1) + 1 +
    (if o.remotePort ≠ 0 then 1 else 0) + 2

inductive Action (φ σ ν τ : Type) where
  | send (t : τ) (c : Send φ σ ν)
  | open (t : τ) (o : Open σ ν)
  | run (t : τ)

variable [DecidableEq σ] [DecidableEq τ]

/-- The next place of a task, and what it does to the connections. -/
def advance (conn : σ → Option UdpConnection) : Pc φ σ ν → Pc φ σ ν × (σ → Option UdpConnection)
  | .user => (.user, conn)
  | .send c p =>
    match p with
    | .fd => (.send c .dir, conn)
    | .dir => (.send c .sock, conn)
    | .sock => (.send c .test, conn)
    | .test =>
      match conn c.sock with
      | none => (.open ⟨c.sock, c.nic, 0, none, 0⟩ (some c) .sock, conn)
      | some _ => (.send c .conn, conn)
    | .conn => (.send c .addr, conn)
    | .addr =>
      let finalAddr := c.destAddr.getD (found (conn c.sock)).ip
      (.send c (if finalAddr.headD 0 = 0 then .dropConn else .nic), conn)
    | .nic => (.send c .mtu, conn)
    -- the guard of the card lives in the condition of the `if` only
    | .mtu => (.send c .dropConn, conn)
    | .dropConn => (.send c .dropSock, conn)
    | .dropSock => (.user, conn)
  | .open o sender p =>
    match p with
    | .sock => (.open o sender .nic, conn)
    | .nic => (.open o sender .store, conn)
    | .store =>
      let old := found (conn o.sock)
      (.open o sender (.access (o.accesses old)), update conn o.sock (some (o.bind old)))
    | .access (n + 1) => (.open o sender (.accessed n), conn)
    | .accessed n => (.open o sender (.access n), conn)
    | .access 0 => (.open o sender .dropNic, conn)
    | .dropNic => (.open o sender .dropSock, conn)
    | .dropSock =>
      match sender with
      | none => (.user, conn)
      | some c => (.send c .conn, conn)

def step [Fintype τ] [DecidableEq φ] [DecidableEq ν] (s : State φ σ ν τ) : Action φ σ ν τ → Option (State φ σ ν τ)
  | .send t c =>
    match s.pc t with
    | .user => some { s with pc := update s.pc t (.send c .fd) }
    | _ => none
  | .open t o =>
    match s.pc t with
    | .user => some { s with pc := update s.pc t (.open o none .sock) }
    | _ => none
  | .run t =>
    if ∀ l ∈ s.wanted t, ∀ u, l ∉ s.held u then
      some ⟨(advance s.conn (s.pc t)).2, update s.pc t (advance s.conn (s.pc t)).1⟩
    else none

def start (conn : σ → Option UdpConnection) : State φ σ ν τ := ⟨conn, fun _ => .user⟩

/-! ## Sends on bound sockets -/

/-- A send that looks for its connection finds one. -/
def Pc.Bound (conn : σ → Option UdpConnection) : Pc φ σ ν → Prop
  | .send c .test => (conn c.sock).isSome = true
  | _ => True

instance (conn : σ → Option UdpConnection) : (pc : Pc φ σ ν) → Decidable (pc.Bound conn)
  | .send c .test => inferInstanceAs (Decidable ((conn c.sock).isSome = true))
  | .send _ .fd | .send _ .dir | .send _ .sock | .send _ .conn | .send _ .addr | .send _ .nic | .send _ .mtu
  | .send _ .dropConn | .send _ .dropSock | .user | .open _ _ _ => isTrue trivial

/-- A send finds its socket with a connection. -/
def Bound (s : State φ σ ν τ) : Action φ σ ν τ → Prop
  | .run t => (s.pc t).Bound s.conn
  | .send _ _ | .open _ _ => True

instance (s : State φ σ ν τ) : (a : Action φ σ ν τ) → Decidable (Bound s a)
  | .run t => inferInstanceAs (Decidable ((s.pc t).Bound s.conn))
  | .send _ _ | .open _ _ => isTrue trivial

/-- No `open` is called by a `send`. -/
def Pc.Alone : Pc φ σ ν → Prop
  | .open _ sender _ => sender = none
  | .user | .send _ _ => True

/-- First a file, then a socket and its connection, then a card and its store. -/
def rank : Lock φ σ ν → Nat
  | .fd _ => 0
  | .sock _ => 1
  | .conn _ => 2
  | .nic _ => 3
  | .store _ => 4

omit [DecidableEq σ] in
/-- Who has a connection, or waits for one, has its socket, and nobody waits for a connection that they have. For the
other locks the order of the ranks is kept. -/
theorem Pc.Alone.locks {pc : Pc φ σ ν} (h : pc.Alone) : (∀ i, .conn i ∈ pc.held → .sock i ∈ pc.held) ∧
      (∀ i, pc.wanted = some (.conn i) → .sock i ∈ pc.held ∧ .conn i ∉ pc.held) ∧
      ∀ l l', l ∈ pc.held → pc.wanted = some l' → (∀ i, l' ≠ .conn i) → rank l < rank l' := by
  cases pc with
  | user => simp [Pc.held, Pc.wanted]
  | send c p => cases p <;> simp [Pc.held, Pc.wanted, rank]
  | «open» o sender p =>
    obtain rfl : sender = none := h
    cases p with
    | access left => cases left <;> simp [Pc.held, Pc.wanted, rank]
    | sock | nic | store | accessed | dropNic | dropSock => simp [Pc.held, Pc.wanted, rank]

theorem advance_held {conn : σ → Option UdpConnection} {pc : Pc φ σ ν} (h : pc.Alone)
    (hbound : pc.Bound conn) :
    (advance conn pc).1.Alone ∧ ∀ l ∈ (advance conn pc).1.held, l ∈ pc.held ∨ pc.wanted = some l := by
  cases pc with
  | user => exact ⟨trivial, fun l hl => .inl hl⟩
  | send c p =>
    cases p with
    | test =>
      obtain ⟨x, hx⟩ := isSome_iff_exists.1 hbound
      simp [advance, hx, Pc.Alone, Pc.held]
    | addr =>
      simp only [advance]
      split_ifs <;> simp [Pc.Alone, Pc.held]
    | fd | dir | sock | conn | nic | mtu | dropConn | dropSock => simp [advance, Pc.Alone, Pc.held, Pc.wanted]
  | «open» o sender p =>
    obtain rfl : sender = none := h
    cases p with
    | access left => cases left <;> simp [advance, Pc.Alone, Pc.held, Pc.wanted]
    | sock | nic | store | accessed | dropNic | dropSock => simp [advance, Pc.Alone, Pc.held, Pc.wanted]

structure Valid (s : State φ σ ν τ) : Prop where
  exclusive : Exclusive s.held
  alone : ∀ t, (s.pc t).Alone

omit [DecidableEq σ] in
theorem Valid.goto {s : State φ σ ν τ} (h : Valid s) {t : τ} {pc : Pc φ σ ν} (conn : σ → Option UdpConnection)
    (halone : pc.Alone) (hheld : ∀ l ∈ pc.held, l ∈ s.held t ∨ ∀ u, l ∉ s.held u) :
    Valid ⟨conn, update s.pc t pc⟩ := by
  have hself : State.held ⟨conn, update s.pc t pc⟩ t = pc.held := congrArg Pc.held (update_self ..)
  refine ⟨h.exclusive.step (fun u hu => congrArg Pc.held (update_of_ne hu ..)) (hself ▸ hheld), fun u => ?_⟩
  by_cases hu : u = t
  · exact (congrArg Pc.Alone (hu ▸ update_self ..)).mpr halone
  · exact (congrArg Pc.Alone (update_of_ne hu ..)).mpr (h.alone u)

variable [Fintype τ] [DecidableEq φ] [DecidableEq ν]

theorem valid_step (s : State φ σ ν τ) (a : Action φ σ ν τ) (s' : State φ σ ν τ) (h : Valid s) (hbound : Bound s a)
    (hstep : step s a = some s') : Valid s' := by
  cases a with
  | send t c =>
    simp only [step] at hstep
    split at hstep
    · obtain rfl := some.inj hstep
      exact h.goto s.conn trivial nofun
    · cases hstep
  | «open» t o =>
    simp only [step] at hstep
    split at hstep
    · obtain rfl := some.inj hstep
      exact h.goto s.conn rfl nofun
    · cases hstep
  | run t =>
    simp only [step] at hstep
    split_ifs at hstep with hfree
    obtain rfl := some.inj hstep
    obtain ⟨halone, hheld⟩ := advance_held (h.alone t) hbound
    exact h.goto _ halone fun l hl => (hheld l hl).imp id (hfree l)

/-- **No deadlock on bound sockets.** As long as no send finds its socket without a connection, no tasks wait for each
other in a circle, and no task for itself. -/
theorem not_circularWait_of_bound (conn : σ → Option UdpConnection) (actions : List (Action φ σ ν τ))
    (hbound : Run.Along step Bound (start conn) actions) {s : State φ σ ν τ}
    (hrun : Run.run step (start conn) actions = some s) (S : Finset τ) : ¬ CircularWait s.held s.wanted S := by
  have hstart : Valid (start conn : State φ σ ν τ) := ⟨nofun, fun _ => trivial⟩
  have hvalid := Run.run_invariant_along valid_step hstart hbound hrun
  apply not_circularWait rank
  rintro t l l' hl hl' ⟨u, hu⟩
  obtain ⟨-, hwants, hrank⟩ := (hvalid.alone t).locks
  refine hrank l l' hl hl' ?_
  -- a connection that a task waits for is nobody's: whoever had it would have the socket, as the task itself
  rintro i rfl
  obtain ⟨hsock, hnot⟩ := hwants i hl'
  have htu : t = u := hvalid.exclusive t u _ hsock ((hvalid.alone u).locks.1 i hu)
  exact hnot (htu ▸ hu)

/-- The socket is opened, then a task sends on it and another one wants to open it again. -/
def sendWhileOpening : List (Action Unit Unit Unit Bool) :=
  .open true ⟨(), (), 0, none, 0⟩ :: replicate 14 (.run true) ++
    .send false ⟨(), (), (), some [10, 0, 0, 2]⟩ :: replicate 7 (.run false) ++ [.open true ⟨(), (), 0, none, 0⟩]

theorem not_circularWait_of_bound_opened : ∃ s, Run.run step (start fun _ => none) sendWhileOpening = some s ∧
      s.held false = [.sock (), .conn (), .nic ()] ∧ s.wanted true = some (.sock ()) ∧
      ∀ S, ¬ CircularWait s.held s.wanted S :=
  ⟨_, rfl, rfl, rfl, not_circularWait_of_bound (fun _ => none) sendWhileOpening (by decide +kernel) rfl⟩

/-- A first send without an earlier `net_connection_udp_open`: the task has locked the socket and waits for it. -/
theorem sendto_waits_for_itself : ∃ s : State Unit Unit Unit Bool, Run.run step (start fun _ => none)
        [.send true ⟨(), (), (), none⟩, .run true, .run true, .run true, .run true] = some s ∧
      CircularWait s.held s.wanted {true} := by
  refine ⟨_, rfl, Finset.singleton_nonempty _, fun t ht => ?_⟩
  obtain rfl := Finset.mem_singleton.1 ht
  exact ⟨.sock (), rfl, true, ht, mem_singleton_self _⟩

end CoreX.UdpLocks
