import CoreX.Net.Ipv4

/-!
# Sending IPv4 (`ipv4.rs`)

`net_ipv4_send` writes a fresh header over the prepared buffer, stores the checksum as the machine holds it and looks
up the route. The header has version zero, and `set_ihl` keeps it.
-/

namespace CoreX.Net

open CoreX.OnesComplement List

def ipv4InitBuffer (buf : Bytes) : Option Bytes :=
  if buf.length < netIpv4Carry + ipv4HeaderSize then none
  else some (writeHeader buf ((readHeader buf).setIhl (ipv4HeaderSize / 4)))

def Ipv4Address.toU32 (ip : Ipv4Address) : UInt32 :=
  UInt32.ofNat (ip.a.toNat * 2 ^ 24 + ip.b.toNat * 2 ^ 16 + ip.c.toNat * 2 ^ 8 + ip.d.toNat)

def ipv4NeedsRouting (localIp dest mask : Ipv4Address) : Bool :=
  dest.toU32 &&& mask.toU32 != localIp.toU32 &&& mask.toU32

structure Sent where
  routeIp : Ipv4Address
  packet : Bytes
  deriving DecidableEq

section
variable (nic : Nic) (packet : Bytes) (protocol : UInt8) (id : UInt16) (destIp : Ipv4Address)

def sendHeader : IPv4Header :=
  let ipv4 : IPv4Header :=
    { versionIhl := 0, tos := 0, length := 0, id := 0, flagsFragment := 0, ttl := 255
      protocol := protocol, checksum := 0, srcAddress := nic.ip, destAddress := destIp }
  let ipv4 := ipv4.setIhl (ipv4HeaderSize / 4)
  let ipv4 := { ipv4 with length := swapBytes (UInt16.ofNat (packet.length - netIpv4Carry)) }
  let ipv4 := { ipv4 with id := swapBytes id }
  { ipv4 with checksum := 0 }

/-- `net_ipv4_send`. The address is resolved in the end (`net_arp_translate` is repeated until it
is); `onHelper` says that the current task is the network helper, on which the function panics. -/
def netIpv4Send (onHelper : Bool) : Option Sent :=
  if packet.length < netIpv4Carry + ipv4HeaderSize then none
  else if (readHeader packet).ihl ≠ ipv4HeaderSize / 4 then none
  else
    let ipv4 := sendHeader nic packet protocol id destIp
    let headerBytes := ((writeHeader packet ipv4).drop netIpv4Carry).take (ipv4.ihl * 4)
    let ipv4 := { ipv4 with checksum := ipv4Checksum headerBytes }
    let routeIp := if ipv4NeedsRouting nic.ip destIp nic.subnetMask then nic.serverIp else destIp
    if onHelper then none else some ⟨routeIp, writeHeader packet ipv4⟩

theorem take_drop_writeHeader {packet : Bytes} (h : IPv4Header) (hLen : netIpv4Carry ≤ packet.length) :
    ((writeHeader packet h).drop netIpv4Carry).take ipv4HeaderSize = h.bytes := by
  have hTake : (packet.take netIpv4Carry).length = netIpv4Carry := by
    rw [length_take]
    omega
  rw [writeHeader, append_assoc, drop_append_of_le_length (by omega), drop_of_length_le (by omega), nil_append,
    take_append_of_le_length (by rw [length_bytes]), take_of_length_le (by rw [length_bytes])]

def sentHeader : IPv4Header :=
  { sendHeader nic packet protocol id destIp with
    checksum := ipv4Checksum (sendHeader nic packet protocol id destIp).bytes }

end

section
variable (nic : Nic) (packet : Bytes) (protocol : UInt8) (id : UInt16) (destIp : Ipv4Address)

@[simp] theorem sentHeader_versionIhl : (sentHeader nic packet protocol id destIp).versionIhl = 5 := by
  simp only [sentHeader, sendHeader, IPv4Header.setIhl, IPv4Header.version]
  decide

@[simp] theorem sentHeader_flagsFragment : (sentHeader nic packet protocol id destIp).flagsFragment = 0 :=
  rfl

theorem ipv4InitBuffer_eq_some {buf prepared : Bytes} (h : ipv4InitBuffer buf = some prepared) :
    netIpv4Carry + ipv4HeaderSize ≤ prepared.length ∧ prepared.length = buf.length ∧
      (readHeader prepared).ihl = ipv4HeaderSize / 4 := by
  rw [ipv4InitBuffer] at h
  split at h
  · exact absurd h (by simp)
  rename_i hLen
  obtain rfl := Option.some.inj h
  have hSize := length_writeHeader ((readHeader buf).setIhl (ipv4HeaderSize / 4))
    (show netIpv4Carry + ipv4HeaderSize ≤ buf.length by omega)
  refine ⟨by omega, hSize, ?_⟩
  rw [readHeader_writeHeader _ (by omega)]
  have hVersion := (readHeader buf).versionIhl.toNat_lt
  show (UInt8.ofNat _).toNat % 16 = 5
  rw [UInt8.toNat_ofNat_of_lt']
  · show ((readHeader buf).version * 16 + 5 % 16) % 16 = 5
    omega
  · show (readHeader buf).versionIhl.toNat / 16 * 16 + 5 % 16 < 256
    omega

theorem netIpv4Send_prepared {packet : Bytes} (hLen : netIpv4Carry + ipv4HeaderSize ≤ packet.length)
    (hIhl : (readHeader packet).ihl = ipv4HeaderSize / 4) :
    ∃ routeIp, netIpv4Send nic packet protocol id destIp false =
      some ⟨routeIp, writeHeader packet (sentHeader nic packet protocol id destIp)⟩ := by
  have hBytes := take_drop_writeHeader (sendHeader nic packet protocol id destIp)
    (show netIpv4Carry ≤ packet.length by omega)
  have hFour : (sendHeader nic packet protocol id destIp).ihl * 4 = ipv4HeaderSize := by
    show (sentHeader nic packet protocol id destIp).versionIhl.toNat % 16 * 4 = ipv4HeaderSize
    rw [sentHeader_versionIhl]
    decide
  refine ⟨if ipv4NeedsRouting nic.ip destIp nic.subnetMask then nic.serverIp else destIp, ?_⟩
  rw [netIpv4Send, if_neg (by omega), if_neg (by simp [hIhl])]
  simp only [hFour, hBytes, sentHeader]
  rfl

end

/-! ## The checksum of the frame -/

theorem wordSum_sentHeader (h : IPv4Header) (c : UInt16) (hZero : h.checksum = 0) :
    wordSum { h with checksum := c }.bytes = wordSum h.bytes + (256 * (lowByte c).toNat + (highByte c).toNat) := by
  have hLow : (lowByte h.checksum).toNat = 0 := by rw [hZero]; rfl
  have hHigh : (highByte h.checksum).toNat = 0 := by rw [hZero]; rfl
  simp only [IPv4Header.bytes, wordSum]
  omega

theorem ipv4Checksum_stored_eq_zero_iff (h : IPv4Header) (hZero : h.checksum = 0) (hPos : 0 < wordSum h.bytes) :
    ipv4Checksum { h with checksum := ipv4Checksum h.bytes }.bytes = 0 ↔
      lowByte (ipv4Checksum h.bytes) = highByte (ipv4Checksum h.bytes) := by
  have hLen : h.bytes.length ≤ 65536 := by rw [length_bytes]; decide
  have hSum := wordSum_le h.bytes
  have hFold := foldCarries_two_lt (by decide : 1 < 65536) (by omega : wordSum h.bytes < 65536 * 65536)
  have hMod : foldCarries 65536 2 (wordSum h.bytes) % 65535 = wordSum h.bytes % 65535 :=
    foldCarries_modEq 65536 (by decide) 2 _
  have hValue := ipv4Checksum_toNat hLen
  rw [ipv4Checksum_eq_zero_iff (by rw [length_bytes]; decide)
    (by rw [wordSum_sentHeader h _ hZero]; omega), wordSum_sentHeader h _ hZero, ← UInt8.toNat_inj,
    lowByte_toNat, highByte_toNat]
  -- modulo the full word the sum is minus the checksum, and the field adds the checksum swapped
  generalize (ipv4Checksum h.bytes).toNat = c at hValue ⊢
  have hSwap := @swap_modEq_iff 256 (c / 256) (c % 256) (by omega) (Nat.mod_lt _ (by decide))
  omega

/-- **No frame that `net_ipv4_send` produces is accepted.** Its version is zero, so the receiver drops it at the
second check. The other checks would let it through, the checksum only if its two bytes are equal, since the field is
not converted to the network's order. -/
theorem netIpv4Send_dropped (nic receiver : Nic) (buf prepared : Bytes) (protocol : UInt8)
    (id : UInt16) (destIp : Ipv4Address) (hInit : ipv4InitBuffer buf = some prepared)
    (hMax : buf.length ≤ 65535 + 14) (hTo : receiver.ip = destIp) :
    ∃ sent, netIpv4Send nic prepared protocol id destIp false = some sent ∧
      netIpv4Handle receiver sent.packet = some (.drop .version) ∧ (readHeader sent.packet).fragment = false ∧
      (swapBytes (readHeader sent.packet).length).toNat = sent.packet.length - netIpv4Carry ∧
      headerLen sent.packet = ipv4HeaderSize ∧ (readHeader sent.packet).forAddress receiver.ip = true ∧
      (readHeader sent.packet).ttl ≠ 1 ∧
      (ipv4Checksum ((sent.packet.drop netIpv4Carry).take (headerLen sent.packet)) = 0 ↔
        lowByte (readHeader sent.packet).checksum = highByte (readHeader sent.packet).checksum) := by
  obtain ⟨hLen, hSize, hIhl⟩ := ipv4InitBuffer_eq_some hInit
  obtain ⟨routeIp, hSend⟩ := netIpv4Send_prepared nic protocol id destIp hLen hIhl
  have hCarry : netIpv4Carry ≤ prepared.length := by omega
  have hRead := readHeader_writeHeader (sentHeader nic prepared protocol id destIp) hCarry
  have hFrame := length_writeHeader (sentHeader nic prepared protocol id destIp) hLen
  have hHeader : headerLen (writeHeader prepared (sentHeader nic prepared protocol id destIp)) =
      ipv4HeaderSize := by
    rw [headerLen, hRead, IPv4Header.ihl, sentHeader_versionIhl]
    decide
  refine ⟨_, hSend, ?_, ?_, ?_, hHeader, ?_, ?_, ?_⟩
  · simp only [netIpv4Handle]
    rw [if_neg (by omega), if_pos]
    rw [hRead, IPv4Header.version, sentHeader_versionIhl]
    decide
  · rw [hRead, IPv4Header.fragment, sentHeader_flagsFragment]
    decide
  · rw [hRead, hFrame]
    show (swapBytes (swapBytes _)).toNat = _
    rw [swapBytes_swapBytes, UInt16.toNat_ofNat_of_lt']
    show prepared.length - 14 < 65536
    omega
  · rw [hRead, hTo, IPv4Header.forAddress]
    simp [sentHeader, sendHeader, IPv4Header.setIhl]
  · rw [hRead]
    show (255 : UInt8) ≠ 1
    decide
  · rw [hHeader, take_drop_writeHeader _ hCarry, hRead]
    apply ipv4Checksum_stored_eq_zero_iff
    · rfl
    · -- the time to live alone is positive
      simp only [IPv4Header.bytes, wordSum]
      show 0 < _ + (_ + (_ + (_ + (256 * (255 : UInt8).toNat + _ + _))))
      have : (255 : UInt8).toNat = 255 := rfl
      omega

def sampleNic : Nic := ⟨⟨10, 0, 0, 2⟩, ⟨255, 255, 255, 0⟩, ⟨10, 0, 0, 1⟩⟩

theorem netIpv4Send_dropped_empty :
    ∃ sent, netIpv4Send sampleNic ((ipv4InitBuffer (List.replicate 34 0)).getD []) 17 7
        ⟨10, 0, 0, 3⟩ false = some sent ∧
      netIpv4Handle ⟨⟨10, 0, 0, 3⟩, ⟨255, 255, 255, 0⟩, ⟨10, 0, 0, 1⟩⟩ sent.packet = some (.drop .version) := by
  obtain ⟨sent, hSend, hDrop, -⟩ := netIpv4Send_dropped sampleNic
    ⟨⟨10, 0, 0, 3⟩, ⟨255, 255, 255, 0⟩, ⟨10, 0, 0, 1⟩⟩ (replicate 34 0)
    ((ipv4InitBuffer (replicate 34 0)).getD []) 17 7 ⟨10, 0, 0, 3⟩ (by decide) (by decide) rfl
  exact ⟨sent, hSend, hDrop⟩

/-- An empty datagram to a neighbour: version zero and a checksum that does not come out as zero. -/
theorem netIpv4Send_version_zero : ((netIpv4Send sampleNic ((ipv4InitBuffer (List.replicate 34 0)).getD []) 17 7
        ⟨10, 0, 0, 3⟩ false).map fun sent =>
      (netIpv4Handle ⟨⟨10, 0, 0, 3⟩, ⟨255, 255, 255, 0⟩, ⟨10, 0, 0, 1⟩⟩ sent.packet,
        sent.packet.getD 14 0, ipv4Checksum ((sent.packet.drop 14).take 20))) =
      some (some (.drop .version), 0x05, 0x19E6) := by
  decide +kernel

end CoreX.Net
