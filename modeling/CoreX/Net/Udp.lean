import Mathlib.Algebra.BigOperators.Group.List.Basic
import CoreX.Net.Ipv4

/-!
# Receiving UDP (`udp.rs`)

`handle_packet` takes the first connection whose ports match the datagram. Only then it looks at the room and at the
address of that connection, and drops the datagram if it does not fit. The store is a list of shared references, so a
connection may be in it twice.
-/

namespace CoreX.Net

open List Function

def udpMaxTotalData : Nat := 65535

structure UdpHeader where
  srcPort : UInt16
  destPort : UInt16
  deriving DecidableEq

structure UdpBuffer where
  buff : Bytes
  len : Nat
  remotePort : UInt16
  ip : Ipv4Address
  deriving DecidableEq

structure UdpConnection where
  localPort : UInt16
  remotePort : UInt16
  totalData : Nat
  ip : Ipv4Address
  dsBuffers : List UdpBuffer
  deriving DecidableEq

structure UdpStore (ι : Type) where
  dsUdpConnections : List ι
  conn : ι → UdpConnection

/-- How `handle_packet` ends. A datagram that is queued also rings the poll instance. -/
inductive UdpVerdict (ι : Type) where
  | noConnection (localPort remotePort : UInt16)
  | full
  | invalidHost
  | queued (conn : ι)
  deriving DecidableEq

def UdpConnection.matchesPorts (c : UdpConnection) (udp : UdpHeader) : Bool :=
  c.localPort == udp.destPort && (c.remotePort == 0 || c.remotePort == udp.srcPort)

def UdpConnection.push (c : UdpConnection) (udp : UdpHeader) (srcAddress : Ipv4Address)
    (payload : Bytes) : UdpConnection :=
  { c with
    totalData := (c.totalData + payload.length) % 2 ^ 64
    dsBuffers := c.dsBuffers ++ [⟨payload, payload.length, udp.srcPort, srcAddress⟩] }

variable {ι : Type} [DecidableEq ι]

section
variable (store : UdpStore ι) (i : ι) (udp : UdpHeader) (srcAddress : Ipv4Address) (payload : Bytes)

def UdpStore.queue : UdpStore ι :=
  { store with conn := Function.update store.conn i ((store.conn i).push udp srcAddress payload) }

def UdpStore.handlePacket : UdpVerdict ι × UdpStore ι :=
  match store.dsUdpConnections.find? fun i => (store.conn i).matchesPorts udp with
  | none => (.noConnection udp.destPort udp.srcPort, store)
  | some i =>
    if ((store.conn i).totalData + payload.length) % 2 ^ 64 > udpMaxTotalData then (.full, store)
    else if (store.conn i).ip.a ≠ 0 ∧ (store.conn i).ip ≠ srcAddress then (.invalidHost, store)
    else (.queued i, store.queue i udp srcAddress payload)

end

/-! ## Which connection gets the datagram -/

/-- The connection is one for the datagram: its ports and its address match, and it has room. -/
structure UdpConnection.Admits (c : UdpConnection) (udp : UdpHeader) (srcAddress : Ipv4Address)
    (payload : Bytes) : Prop where
  localPort : c.localPort = udp.destPort
  remotePort : c.remotePort = 0 ∨ c.remotePort = udp.srcPort
  ip : c.ip.a = 0 ∨ c.ip = srcAddress
  room : c.totalData + payload.length ≤ udpMaxTotalData

variable {store : UdpStore ι} {udp : UdpHeader} {srcAddress : Ipv4Address} {payload : Bytes} {i : ι}

theorem UdpStore.handlePacket_of_admits
    (hFirst : store.dsUdpConnections.find? (fun i => (store.conn i).matchesPorts udp) = some i)
    (h : (store.conn i).Admits udp srcAddress payload) :
    store.handlePacket udp srcAddress payload = (.queued i, store.queue i udp srcAddress payload) := by
  have hRoom := h.room
  have hFits : ¬ ((store.conn i).totalData + payload.length) % 2 ^ 64 > udpMaxTotalData := by
    omega
  have hHost : ¬ ((store.conn i).ip.a ≠ 0 ∧ (store.conn i).ip ≠ srcAddress) := fun hNot => h.ip.elim hNot.1 hNot.2
  rw [UdpStore.handlePacket, hFirst]
  simp only
  rw [if_neg hFits, if_neg hHost]

theorem UdpStore.find_of_queued {store' : UdpStore ι}
    (h : store.handlePacket udp srcAddress payload = (.queued i, store')) :
    store.dsUdpConnections.find? (fun i => (store.conn i).matchesPorts udp) = some i ∧
      store' = store.queue i udp srcAddress payload := by
  rw [UdpStore.handlePacket] at h
  cases hFirst : store.dsUdpConnections.find? fun i => (store.conn i).matchesPorts udp with
  | none =>
    rw [hFirst] at h
    simp at h
  | some j =>
    rw [hFirst] at h
    simp only at h
    split_ifs at h
    · simp at h
    · simp at h
    · obtain ⟨hVerdict, hStore⟩ := Prod.mk.inj h
      obtain rfl := UdpVerdict.queued.inj hVerdict
      exact ⟨rfl, hStore.symm⟩

section
variable (store udp srcAddress payload)

theorem UdpStore.handlePacket_cases :
    (store.handlePacket udp srcAddress payload).2 = store ∨ ∃ i ∈ store.dsUdpConnections,
      ((store.conn i).totalData + payload.length) % 2 ^ 64 ≤ udpMaxTotalData ∧
      (store.handlePacket udp srcAddress payload).2 = store.queue i udp srcAddress payload := by
  rw [UdpStore.handlePacket]
  cases hFirst : store.dsUdpConnections.find? fun i => (store.conn i).matchesPorts udp with
  | none => exact .inl rfl
  | some i =>
    simp only
    split_ifs with hFull
    · exact .inl rfl
    · exact .inl rfl
    · exact .inr ⟨i, mem_of_find?_eq_some hFirst, by omega, rfl⟩

/-- **A datagram for which there is a connection is queued on one such connection exactly if the first
connection with its ports is one.** It never changes more than one connection. -/
theorem handlePacket_delivers_iff (store : UdpStore ι) (udp : UdpHeader) (srcAddress : Ipv4Address)
    (payload : Bytes) : (((∃ i ∈ store.dsUdpConnections, (store.conn i).Admits udp srcAddress payload) →
        ∃ i ∈ store.dsUdpConnections, (store.conn i).Admits udp srcAddress payload ∧
          store.handlePacket udp srcAddress payload = (.queued i, store.queue i udp srcAddress payload)) ↔
      ((∃ i ∈ store.dsUdpConnections, (store.conn i).Admits udp srcAddress payload) →
        ∃ i, store.dsUdpConnections.find? (fun i => (store.conn i).matchesPorts udp) = some i ∧
          (store.conn i).Admits udp srcAddress payload)) ∧
    ((store.handlePacket udp srcAddress payload).2.dsUdpConnections = store.dsUdpConnections ∧
      ∀ i j, (store.handlePacket udp srcAddress payload).2.conn i ≠ store.conn i →
        (store.handlePacket udp srcAddress payload).2.conn j ≠ store.conn j → i = j) := by
  refine ⟨⟨fun h hAny => ?_, fun h hAny => ?_⟩, ?_⟩
  · obtain ⟨i, -, hAdmits, hQueued⟩ := h hAny
    exact ⟨i, (UdpStore.find_of_queued hQueued).1, hAdmits⟩
  · obtain ⟨i, hFirst, hAdmits⟩ := h hAny
    exact ⟨i, mem_of_find?_eq_some hFirst, hAdmits, UdpStore.handlePacket_of_admits hFirst hAdmits⟩
  · rcases store.handlePacket_cases udp srcAddress payload with hSame | ⟨k, -, -, hQueue⟩
    · rw [hSame]
      exact ⟨rfl, fun i _ hi => absurd rfl hi⟩
    rw [hQueue]
    have hOther : ∀ i, (store.queue k udp srcAddress payload).conn i ≠ store.conn i → i = k := by
      intro i hi
      by_contra hne
      exact hi (update_of_ne hne _ _)
    exact ⟨rfl, fun i j hi hj => (hOther i hi).trans (hOther j hj).symm⟩

def sharedPort : UdpStore Bool where
  dsUdpConnections := [false, true]
  conn := fun i => ⟨53, 0, 0, if i then ⟨0, 0, 0, 0⟩ else ⟨10, 0, 0, 9⟩, []⟩

/-- The datagram of the host that the first connection is for. -/
theorem handlePacket_delivers_iff_sharedPort :
    ∃ i ∈ sharedPort.dsUdpConnections, (sharedPort.conn i).Admits ⟨4000, 53⟩ ⟨10, 0, 0, 9⟩ [1, 2] ∧
      sharedPort.handlePacket ⟨4000, 53⟩ ⟨10, 0, 0, 9⟩ [1, 2] =
        (.queued i, sharedPort.queue i ⟨4000, 53⟩ ⟨10, 0, 0, 9⟩ [1, 2]) := by
  have hAdmits : (sharedPort.conn false).Admits ⟨4000, 53⟩ ⟨10, 0, 0, 9⟩ [1, 2] :=
    ⟨rfl, .inl rfl, .inr rfl, by decide⟩
  exact (handlePacket_delivers_iff sharedPort ⟨4000, 53⟩ ⟨10, 0, 0, 9⟩ [1, 2]).1.2
    (fun _ => ⟨false, rfl, hAdmits⟩) ⟨false, by decide, hAdmits⟩

/-- A datagram of another host is dropped, although the second connection is for every host. -/
theorem handlePacket_drops : (sharedPort.conn true).Admits ⟨4000, 53⟩ ⟨10, 0, 0, 1⟩ [1, 2] ∧
      sharedPort.handlePacket ⟨4000, 53⟩ ⟨10, 0, 0, 1⟩ [1, 2] = (.invalidHost, sharedPort) :=
  ⟨⟨rfl, .inl rfl, .inl rfl, by decide⟩, rfl⟩

/-! ## Sequences of datagrams -/

/-- The bytes that wait on a connection, which `totalData` counts. -/
def UdpConnection.waiting (c : UdpConnection) : Nat := (c.dsBuffers.map UdpBuffer.len).sum

/-- The counters are what is waiting, up to the limit. -/
def UdpStore.Counted : Prop :=
  ∀ i, (store.conn i).totalData = (store.conn i).waiting ∧ (store.conn i).totalData ≤ udpMaxTotalData

end

theorem UdpStore.Counted.handlePacket (h : store.Counted) (hSize : payload.length < 2 ^ 63) :
    (store.handlePacket udp srcAddress payload).2.Counted := by
  rcases store.handlePacket_cases udp srcAddress payload with hSame | ⟨i, -, hRoom, hQueue⟩
  · rw [hSame]
    exact h
  rw [hQueue]
  intro j
  obtain ⟨hWaiting, hLe⟩ := h j
  by_cases hj : j = i
  · subst hj
    have hNoWrap : ((store.conn j).totalData + payload.length) % 2 ^ 64 = (store.conn j).totalData + payload.length := by
      rw [udpMaxTotalData] at hLe
      exact Nat.mod_eq_of_lt (by omega)
    rw [hNoWrap] at hRoom
    simp only [UdpStore.queue, update_self, UdpConnection.push, UdpConnection.waiting, map_append, sum_append, hNoWrap]
    exact ⟨congrArg (· + _) hWaiting, hRoom⟩
  · simp only [UdpStore.queue, update_of_ne hj]
    exact ⟨hWaiting, hLe⟩

def UdpStore.handlePackets (store : UdpStore ι) (packets : List (UdpHeader × Ipv4Address × Bytes)) :
    UdpStore ι :=
  packets.foldl (fun store p => (store.handlePacket p.1 p.2.1 p.2.2).2) store

/-- **Over any sequence of datagrams no connection gets more than it may hold**, and its counter is
the number of bytes that wait. -/
theorem UdpStore.Counted.handlePackets {packets : List (UdpHeader × Ipv4Address × Bytes)}
    (h : store.Counted) (hSize : ∀ p ∈ packets, p.2.2.length < 2 ^ 63) : (store.handlePackets packets).Counted := by
  induction packets generalizing store with
  | nil => exact h
  | cons p packets ih =>
    obtain ⟨hFirst, hRest⟩ := forall_mem_cons.1 hSize
    exact ih (h.handlePacket hFirst) hRest

theorem UdpStore.Counted.handlePackets_sharedPort :
    (sharedPort.handlePackets [(⟨4000, 53⟩, ⟨10, 0, 0, 9⟩, [1, 2]), (⟨4000, 53⟩, ⟨10, 0, 0, 1⟩, [3])]).Counted :=
  UdpStore.Counted.handlePackets (fun _ => ⟨rfl, Nat.zero_le _⟩) (by decide)

end CoreX.Net
