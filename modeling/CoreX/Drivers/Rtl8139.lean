import CoreX.Base.Bytes
import CoreX.Circular.Fifo

/-!
# Receiving from the RTL8139 (`drivers/nics/rtl8139.rs`, `drivers/nics/nic_controller.rs`)

The card writes packets to a ring in memory, each behind a status and a length word. `receiveRTL8139` copies them to a
queue of 64 slots, and checks nothing of what the card says. Every packet comes with the memory as it is then. `take`
is what a reader of the queue does.
-/

namespace CoreX.Rtl8139

open Memory Circ Run Except

inductive Fault where
  /-- Arithmetic that leaves its type. -/
  | overflow
  /-- A copy behind the end of `buff`. -/
  | bounds
  deriving DecidableEq

structure QueuePacket where
  nic : Nat
  packetLength : Nat
  /-- `buff: [u8; 2048]` -/
  buff : Buf

structure NetQueue where
  /-- `netQueue: [QueuePacket; QUEUE_MAX]` -/
  slots : Nat → QueuePacket
  read : Nat
  write : Nat

section
variable (queue : NetQueue)

def netQueueAdd (nic : Nat) (packet : Buf) (len : Nat) : Except Fault NetQueue :=
  if (queue.write + 1) % 64 = queue.read then .ok queue
  else if len > 2048 then .error .bounds
  else
    let slot : QueuePacket := ⟨nic, len, memcpy (queue.slots queue.write).buff 0 packet len⟩
    .ok ⟨Function.update queue.slots queue.write slot, queue.read, (queue.write + 1) % 64⟩

def NetQueue.pending : List QueuePacket :=
  Ring.window queue.slots 64 queue.read (circReadable queue.write queue.read 64)

/-- Both indices are below the number of slots. -/
structure NetQueue.Valid (queue : NetQueue) : Prop where
  read_lt : queue.read < 64
  write_lt : queue.write < 64

def NetQueue.Full : Prop := (queue.write + 1) % 64 = queue.read

instance (queue : NetQueue) : Decidable queue.Full := inferInstanceAs (Decidable (_ = _))

def NetQueue.take : NetQueue :=
  if queue.read = queue.write then queue else { queue with read := (queue.read + 1) % 64 }

end

section Queue
variable {queue : NetQueue} {nic len : Nat} {packet : Buf}

theorem NetQueue.full_iff (h : queue.Valid) : queue.Full ↔ circReadable queue.write queue.read 64 = 63 := by
  have hread := h.read_lt
  have hwrite := h.write_lt
  unfold NetQueue.Full circReadable
  split <;> omega

theorem NetQueue.Valid.take (h : queue.Valid) : queue.take.Valid := by
  unfold NetQueue.take
  split
  · exact h
  · exact ⟨Nat.mod_lt _ (by decide), h.write_lt⟩

/-- A packet is dropped if the queue is full. Otherwise it goes behind the pending ones, and no slot that has not
been read changes. -/
theorem netQueueAdd_of_fits (h : queue.Valid) (nic : Nat) (packet : Buf) (hlen : queue.Full ∨ len ≤ 2048) :
    ∃ queue', netQueueAdd queue nic packet len = .ok queue' ∧ queue'.Valid ∧ (queue.Full ∧ queue' = queue ∨
        ∃ slot : QueuePacket, slot.nic = nic ∧ slot.packetLength = len ∧ (∀ i < len, slot.buff i = packet i) ∧
          queue'.pending = queue.pending ++ [slot]) := by
  by_cases hfull : queue.Full
  · exact ⟨queue, if_pos hfull, h, .inl ⟨hfull, rfl⟩⟩
  have hle : ¬ len > 2048 := Nat.not_lt.2 (hlen.resolve_left hfull)
  have hroom : circReadable queue.write queue.read 64 + 1 < 64 := by
    have hlt := circReadable_lt h.read_lt h.write_lt
    rw [NetQueue.full_iff h] at hfull
    omega
  refine ⟨_, (if_neg hfull).trans (if_neg hle), ⟨h.read_lt, Nat.mod_lt _ (by decide)⟩,
    .inr ⟨⟨nic, len, memcpy (queue.slots queue.write).buff 0 packet len⟩, rfl, rfl, ?_, ?_⟩⟩
  · intro i hi
    exact memcpy_of_mem (by omega)
  · simp only [NetQueue.pending]
    rw [circReadable_write h.read_lt h.write_lt hroom]
    have hwrite := add_circReadable h.read_lt h.write_lt
    nth_rewrite 1 [← hwrite]
    exact Ring.window_update_succ (by omega) _

end Queue

/-! ## The card -/

structure Interface where
  nic : Nat
  currentPacket : Nat
  /-- What was last written to the register at `0x38`. -/
  capr : Nat
  queue : NetQueue

def nextPacket (current len : Nat) : Nat :=
  let next := (current + len + 4 + 3) / 4 * 4
  if next ≥ 8192 then next - 8192 else next

section
variable (info : Interface) (rx : Buf)

def badPacket : Bool :=
  load16 rx info.currentPacket == 0 || load16 rx info.currentPacket == 0xe1e3

def packetLen : Nat := (load16 rx (info.currentPacket + 2)).toNat

def receivePacket : Except Fault Interface :=
  let len := packetLen info rx
  if len < 4 then .error .overflow
  else do
    let queue ← netQueueAdd info.queue info.nic (fun i => rx (info.currentPacket + 4 + i)) (len - 4)
    if info.currentPacket + len + 4 + 3 ≥ 2 ^ 32 then .error .overflow
    else
      let currentPacket := nextPacket info.currentPacket len
      if currentPacket % 2 ^ 16 < 0x10 then .error .overflow
      else .ok ⟨info.nic, currentPacket, currentPacket % 2 ^ 16 - 0x10, queue⟩

def receiveRTL8139 (info : Interface) : List Buf → Except Fault Interface
  | [] => .ok info
  | rx :: rest =>
    if badPacket info rx then .ok info
    else do
      let info ← receivePacket info rx
      receiveRTL8139 info rest

/-! ## Runs -/

inductive NicOp where
  /-- The loop finds a packet, with this in the ring. -/
  | packet (rx : Buf)
  | take

def nicStep : NicOp → Option Interface
  | .packet rx => if badPacket info rx then some info else (receivePacket info rx).toOption
  | .take => some { info with queue := info.queue.take }

theorem receiveRTL8139_run {info info' : Interface} {presented : List Buf}
    (h : receiveRTL8139 info presented = .ok info') :
    ∃ n, run nicStep info ((presented.take n).map .packet) = some info' := by
  induction presented generalizing info with
  | nil => exact ⟨0, congrArg some (ok.inj h)⟩
  | cons rx rest ih =>
    unfold receiveRTL8139 at h
    by_cases hbad : badPacket info rx
    · rw [if_pos hbad] at h
      exact ⟨0, congrArg some (ok.inj h)⟩
    rw [if_neg hbad] at h
    obtain ⟨m, hpacket, hrest⟩ := bind_eq_ok.1 h
    obtain ⟨n, hrun⟩ := ih hrest
    refine ⟨n + 1, run_cons.2 ⟨m, ?_, hrun⟩⟩
    rw [nicStep, if_neg hbad, hpacket]
    rfl

/-- The offset is an aligned one of the ring. -/
structure Interface.Valid (info : Interface) : Prop where
  aligned : info.currentPacket % 4 = 0
  current_lt : info.currentPacket < 8192
  queue : info.queue.Valid

/-- The packet is refused, or its length fits the slot and leads to an offset in the ring. -/
def Fits : Prop :=
  badPacket info rx = true ∨
    4 ≤ packetLen info rx ∧ (info.queue.Full ∨ packetLen info rx ≤ 2048 + 4) ∧
      16 ≤ nextPacket info.currentPacket (packetLen info rx) ∧
      nextPacket info.currentPacket (packetLen info rx) < 8192

/-- The packet is handled without a panic, and nothing in the queue is lost. -/
def Handled : Prop :=
  ∃ info', nicStep info (.packet rx) = some info' ∧ info'.currentPacket % 4 = 0 ∧ info'.currentPacket < 8192 ∧
    info.queue.pending <+: info'.queue.pending

/-- Only a packet has to fit. -/
def NicOp.Fits : NicOp → Prop
  | .packet rx => Rtl8139.Fits info rx
  | .take => True

end

variable {info info' : Interface} {rx : Buf}

theorem nextPacket_mod (current len : Nat) : nextPacket current len % 4 = 0 := by
  simp only [nextPacket]
  split <;> omega

theorem receivePacket_eq_ok : receivePacket info rx = .ok info' ↔
      4 ≤ packetLen info rx ∧ info.currentPacket + packetLen info rx + 4 + 3 < 2 ^ 32 ∧
      16 ≤ nextPacket info.currentPacket (packetLen info rx) % 2 ^ 16 ∧
      ∃ queue, netQueueAdd info.queue info.nic (fun i => rx (info.currentPacket + 4 + i)) (packetLen info rx - 4) =
          .ok queue ∧ info' = ⟨info.nic, nextPacket info.currentPacket (packetLen info rx),
          nextPacket info.currentPacket (packetLen info rx) % 2 ^ 16 - 0x10, queue⟩ := by
  simp only [receivePacket]
  by_cases hlen : packetLen info rx < 4
  · rw [if_pos hlen]
    exact iff_of_false (by simp) fun h => by omega
  rw [if_neg hlen]
  cases netQueueAdd info.queue info.nic (fun i => rx (info.currentPacket + 4 + i)) (packetLen info rx - 4) with
  | error fault => simp [bind, Except.bind]
  | ok queue =>
    simp only [bind, Except.bind]
    split
    · exact iff_of_false (by simp) fun h => by omega
    split
    · exact iff_of_false (by simp) fun h => by omega
    · constructor
      · intro h
        exact ⟨by omega, by omega, by omega, queue, rfl, (Except.ok.inj h).symm⟩
      · rintro ⟨-, -, -, queue, hqueue, rfl⟩
        rw [Except.ok.inj hqueue]

theorem nicStep_packet (hbad : ¬ badPacket info rx = true) :
    nicStep info (.packet rx) = some info' ↔ receivePacket info rx = .ok info' := by
  rw [nicStep, if_neg hbad, toOption_eq_some]

theorem nicStep_of_fits (h : info.Valid) (hfits : Fits info rx) :
    ∃ info', nicStep info (.packet rx) = some info' ∧ info'.Valid ∧ info.queue.pending <+: info'.queue.pending := by
  by_cases hbad : badPacket info rx
  · exact ⟨info, if_pos hbad, h, List.prefix_rfl⟩
  obtain ⟨hlen, hslot, hlow, hhigh⟩ := hfits.resolve_left hbad
  obtain ⟨queue', hadd, hvalid, hpending⟩ := netQueueAdd_of_fits h.queue info.nic
    (fun i => rx (info.currentPacket + 4 + i)) (hslot.imp_right (Nat.sub_le_of_le_add ·))
  have hcurrent := h.current_lt
  have hword : packetLen info rx < 2 ^ 16 := UInt16.toNat_lt _
  have hreceive := receivePacket_eq_ok.2 ⟨hlen, by omega, by omega, queue', hadd, rfl⟩
  refine ⟨_, (nicStep_packet hbad).2 hreceive, ⟨nextPacket_mod .., hhigh, hvalid⟩, ?_⟩
  rcases hpending with ⟨-, rfl⟩ | ⟨slot, -, -, -, hslot⟩
  · exact List.prefix_rfl
  · rw [hslot]
    exact List.prefix_append ..

theorem fits_of_handled (hhandled : Handled info rx) : Fits info rx := by
  by_cases hbad : badPacket info rx
  · exact .inl hbad
  obtain ⟨info', hstep, -, hlt, -⟩ := hhandled
  obtain ⟨hlen, -, hlow, queue, hadd, rfl⟩ := receivePacket_eq_ok.1 ((nicStep_packet hbad).1 hstep)
  refine .inr ⟨hlen, ?_, by omega, hlt⟩
  by_contra hnot
  obtain ⟨hfull, hlong⟩ := not_or.1 hnot
  unfold NetQueue.Full at hfull
  rw [netQueueAdd, if_neg hfull, if_pos (by omega)] at hadd
  cases hadd

theorem handled_iff (h : info.Valid) : Handled info rx ↔ Fits info rx := by
  refine ⟨fits_of_handled, fun hfits => ?_⟩
  obtain ⟨info', hstep, hvalid, hpending⟩ := nicStep_of_fits h hfits
  exact ⟨info', hstep, hvalid.aligned, hvalid.current_lt, hpending⟩

theorem nicStep_valid (h : info.Valid) {op : NicOp} (hfits : op.Fits info) :
    ∃ info', nicStep info op = some info' ∧ info'.Valid := by
  cases op with
  | packet rx =>
    obtain ⟨info', hstep, hvalid, -⟩ := nicStep_of_fits h hfits
    exact ⟨info', hstep, hvalid⟩
  | take => exact ⟨_, rfl, h.aligned, h.current_lt, h.queue.take⟩

def attached (nic : Nat) (slots : Nat → QueuePacket) : Interface := ⟨nic, 0, 0, slots, 0, 0⟩

/-- **Receiving packets.** After any packets that fit and any reads of the queue, the position is a multiple of 4
below 8192, and the next packet is handled if and only if it fits. -/
theorem receive_safe_iff (nic : Nat) (slots : Nat → QueuePacket) (ops : List NicOp)
    (hfits : Along nicStep (fun info op => op.Fits info) (attached nic slots) ops) :
    ∃ info, run nicStep (attached nic slots) ops = some info ∧
      info.currentPacket % 4 = 0 ∧ info.currentPacket < 8192 ∧ ∀ rx, Handled info rx ↔ Fits info rx := by
  have hattached : (attached nic slots).Valid := ⟨rfl, Nat.zero_lt_succ _, Nat.zero_lt_succ _, Nat.zero_lt_succ _⟩
  obtain ⟨info, hrun, hvalid⟩ := run_exists_along (fun _ _ h hfits => nicStep_valid h hfits) hattached hfits
  exact ⟨info, hrun, hvalid.aligned, hvalid.current_lt, fun rx => handled_iff hvalid⟩

def packetsOf (len : Nat) (i : Nat) : UInt8 :=
  if i % 1024 = 0 then 1
  else if i % 1024 = 2 then UInt8.ofNat len
  else if i % 1024 = 3 then UInt8.ofNat (len / 256)
  else 0

def emptySlots (_ : Nat) : QueuePacket := ⟨0, 0, fun _ => 0⟩

/-- A first packet of 60 bytes, and a second one of the same length. -/
theorem receive_safe_iff_sixty : ∃ info, run nicStep (attached 0 emptySlots) [.packet (packetsOf 60)] = some info ∧
      info.currentPacket % 4 = 0 ∧ info.currentPacket < 8192 ∧
      (Handled info (fun i => packetsOf 60 (i - 64)) ↔ Fits info (fun i => packetsOf 60 (i - 64))) := by
  have hfits : Along nicStep (fun info op => op.Fits info) (attached 0 emptySlots) [.packet (packetsOf 60)] :=
    ⟨.inr ⟨by decide, .inr (by decide), by decide, by decide⟩, fun _ _ => trivial⟩
  obtain ⟨info, hrun, haligned, hlt, hiff⟩ := receive_safe_iff 0 emptySlots _ hfits
  exact ⟨info, hrun, haligned, hlt, hiff _⟩

/-- Seven packets of 1020 bytes are received. The eighth leads back to position 0, and the register would take a
number below 0. A length of 3 is too short for the checksum, and a packet of 3000 bytes does not fit in a slot. -/
theorem receive_underflows :
    (receiveRTL8139 (attached 0 emptySlots) (List.replicate 7 (packetsOf 1020))).map Interface.currentPacket =
        .ok 7168 ∧
      (receiveRTL8139 (attached 0 emptySlots) (List.replicate 8 (packetsOf 1020))).map Interface.currentPacket =
        .error .overflow ∧
      (receiveRTL8139 (attached 0 emptySlots) [packetsOf 3]).map Interface.currentPacket = .error .overflow ∧
      (receiveRTL8139 (attached 0 emptySlots) [packetsOf 3000]).map Interface.currentPacket = .error .bounds := by
  decide +kernel

end CoreX.Rtl8139
