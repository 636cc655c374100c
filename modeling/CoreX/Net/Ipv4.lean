import CoreX.Base.OnesComplement
import Mathlib.Data.List.GetD
import CoreX.Base.Memory

/-!
# Receiving IPv4 (`ipv4.rs`)

`net_ipv4_handle` goes through its checks one by one, each with its own message, takes the header's bytes for the
checksum and hands the packet to its protocol. `none` is the panic of a subtraction below zero or of a slice out of
range. The machine is little-endian, so a `u16` of the header has its first byte as the low one.
-/

namespace CoreX.Net

open CoreX.OnesComplement List Nat Option

def netIpv4Carry : Nat := 14

def ipv4HeaderSize : Nat := 20

def ipv4FlagsMoreFragments : Nat := 0x2000

def ipv4ProtocolTcp : UInt8 := 6

def ipv4ProtocolUdp : UInt8 := 17

def ipv4ProtocolIcmp : UInt8 := 1

structure Ipv4Address where
  (a b c d : UInt8)
  deriving DecidableEq

structure Nic where
  (ip subnetMask serverIp : Ipv4Address)
  deriving DecidableEq

/-- `IPv4Header`; the `u16` fields hold the value the machine loads. -/
structure IPv4Header where
  (versionIhl tos : UInt8)
  (length id flagsFragment : UInt16)
  (ttl protocol : UInt8)
  checksum : UInt16
  (srcAddress destAddress : Ipv4Address)
  deriving DecidableEq

def IPv4Header.version (h : IPv4Header) : Nat := h.versionIhl.toNat / 16

def IPv4Header.ihl (h : IPv4Header) : Nat := h.versionIhl.toNat % 16

def IPv4Header.setIhl (h : IPv4Header) (ihl : Nat) : IPv4Header :=
  { h with versionIhl := UInt8.ofNat (h.version * 16 + ihl % 16) }

def u16OfBytes (first second : UInt8) : UInt16 := UInt16.ofNat (first.toNat + 256 * second.toNat)

section
variable (x : UInt16)

def lowByte : UInt8 := UInt8.ofNat (x.toNat % 256)

def highByte : UInt8 := UInt8.ofNat (x.toNat / 256)

def swapBytes : UInt16 := u16OfBytes (highByte x) (lowByte x)

@[simp] theorem lowByte_toNat : (lowByte x).toNat = x.toNat % 256 := by
  rw [lowByte, UInt8.toNat_ofNat_of_lt']
  exact mod_lt _ (by decide)

@[simp] theorem highByte_toNat : (highByte x).toNat = x.toNat / 256 := by
  have h := x.toNat_lt
  rw [highByte, UInt8.toNat_ofNat_of_lt']
  show x.toNat / 256 < 256
  omega

@[simp] theorem u16OfBytes_toNat (first second : UInt8) :
    (u16OfBytes first second).toNat = first.toNat + 256 * second.toNat := by
  have hFirst := first.toNat_lt
  have hSecond := second.toNat_lt
  rw [u16OfBytes, UInt16.toNat_ofNat_of_lt']
  show _ < 65536
  omega

@[simp] theorem u16OfBytes_low_high : u16OfBytes (lowByte x) (highByte x) = x := by
  apply UInt16.toNat_inj.1
  rw [u16OfBytes_toNat, lowByte_toNat, highByte_toNat]
  exact mod_add_div x.toNat 256

@[simp] theorem swapBytes_swapBytes : swapBytes (swapBytes x) = x := by
  have h := x.toNat_lt
  apply UInt16.toNat_inj.1
  simp only [swapBytes, u16OfBytes_toNat, lowByte_toNat, highByte_toNat]
  omega

end

def IPv4Header.bytes (h : IPv4Header) : Bytes :=
  [h.versionIhl, h.tos, lowByte h.length, highByte h.length, lowByte h.id, highByte h.id,
    lowByte h.flagsFragment, highByte h.flagsFragment, h.ttl, h.protocol,
    lowByte h.checksum, highByte h.checksum,
    h.srcAddress.a, h.srcAddress.b, h.srcAddress.c, h.srcAddress.d,
    h.destAddress.a, h.destAddress.b, h.destAddress.c, h.destAddress.d]

def readHeader (packet : Bytes) : IPv4Header :=
  let byte := fun i => packet.getD (netIpv4Carry + i) 0
  { versionIhl := byte 0
    tos := byte 1
    length := u16OfBytes (byte 2) (byte 3)
    id := u16OfBytes (byte 4) (byte 5)
    flagsFragment := u16OfBytes (byte 6) (byte 7)
    ttl := byte 8
    protocol := byte 9
    checksum := u16OfBytes (byte 10) (byte 11)
    srcAddress := ⟨byte 12, byte 13, byte 14, byte 15⟩
    destAddress := ⟨byte 16, byte 17, byte 18, byte 19⟩ }

def writeHeader (packet : Bytes) (h : IPv4Header) : Bytes :=
  packet.take netIpv4Carry ++ h.bytes ++ packet.drop (netIpv4Carry + ipv4HeaderSize)

@[simp] theorem length_bytes (h : IPv4Header) : h.bytes.length = ipv4HeaderSize := rfl

variable {packet buf : Bytes} {nic : Nic}

theorem length_writeHeader (h : IPv4Header) (hLen : netIpv4Carry + ipv4HeaderSize ≤ packet.length) :
    (writeHeader packet h).length = packet.length := by
  simp only [writeHeader, length_append, length_take, length_drop, length_bytes]
  omega

section
variable (h : IPv4Header) (hLen : netIpv4Carry ≤ packet.length)
include hLen

theorem getD_writeHeader {i : Nat} (hi : i < ipv4HeaderSize) :
    (writeHeader packet h).getD (netIpv4Carry + i) 0 = h.bytes.getD i 0 := by
  have hTake : (packet.take netIpv4Carry).length = netIpv4Carry := by
    rw [length_take]
    omega
  rw [writeHeader, append_assoc, getD_append_right _ _ _ _ (by omega), hTake,
    Nat.add_sub_cancel_left, getD_append _ _ _ _ (by rw [length_bytes]; exact hi)]

theorem readHeader_writeHeader : readHeader (writeHeader packet h) = h := by
  simp (disch := decide) only [readHeader, getD_writeHeader h hLen]
  simp [IPv4Header.bytes]

end

/-! ## The checksum -/

def wordSum : Bytes → Nat
  | a :: b :: rest => 256 * a.toNat + b.toNat + wordSum rest
  | [a] => 256 * a.toNat
  | [] => 0

def checksumLoop : Bytes → Nat → Nat
  | a :: b :: rest, sum => checksumLoop rest ((sum + (256 * a.toNat + b.toNat)) % 0x100000000)
  | [a], sum => (sum + 256 * a.toNat) % 0x100000000
  | [], sum => sum

/-- `ipv4_checksum`: the carries of a sum of 32 bits are added back at most twice. -/
def ipv4Checksum (buf : Bytes) : UInt16 := UInt16.ofNat (65535 - foldCarries 65536 2 (checksumLoop buf 0))

section
variable (buf)

theorem wordSum_le : wordSum buf ≤ 65535 * buf.length := by
  fun_induction wordSum buf with
  | case1 a b rest ih =>
    have ha := a.toNat_lt
    have hb := b.toNat_lt
    simp only [length_cons]
    omega
  | case2 a =>
    have ha := a.toNat_lt
    simp only [length_cons, length_nil]
    omega
  | case3 => simp

theorem checksumLoop_eq_mod (sum : Nat) (hSum : sum < 0x100000000) :
    checksumLoop buf sum = (sum + wordSum buf) % 0x100000000 := by
  fun_induction checksumLoop buf sum with
  | case1 a b rest sum ih =>
    rw [ih (mod_lt _ (by decide)), wordSum, mod_add_mod, add_assoc]
  | case2 a sum => rw [wordSum]
  | case3 sum => rw [wordSum, add_zero, mod_eq_of_lt hSum]

theorem ipv4Checksum_toNat_mod :
    (ipv4Checksum buf).toNat = 65535 - foldCarries 65536 2 (wordSum buf % 0x100000000) := by
  rw [ipv4Checksum, checksumLoop_eq_mod buf 0 (by decide), zero_add, UInt16.toNat_ofNat_of_lt']
  show _ < 65536
  omega

theorem ipv4Checksum_eq_zero : ipv4Checksum buf = 0 ↔
      0 < wordSum buf % 0x100000000 ∧ wordSum buf % 0x100000000 % 65535 = 0 := by
  have hLt : wordSum buf % 0x100000000 < 65536 * 65536 := mod_lt _ (by decide)
  have hFold := foldCarries_two_lt (by decide : 1 < 65536) hLt
  have hZero : ipv4Checksum buf = 0 ↔ foldCarries 65536 2 (wordSum buf % 0x100000000) = 65535 := by
    rw [← UInt16.toNat_inj, ipv4Checksum_toNat_mod]
    show _ = 0 ↔ _
    omega
  rw [hZero]
  rcases Nat.eq_zero_or_pos (wordSum buf % 0x100000000) with hNone | hPos
  · rw [hNone]
    decide
  · rw [foldCarries_two_eq_iff (by decide : 1 < 65536) hLt hPos]
    exact (and_iff_right hPos).symm

end

section
variable (hLen : buf.length ≤ 65536)
include hLen

theorem wordSum_mod : wordSum buf % 0x100000000 = wordSum buf := by
  have hSum := wordSum_le buf
  exact mod_eq_of_lt (by omega)

theorem ipv4Checksum_toNat : (ipv4Checksum buf).toNat = 65535 - foldCarries 65536 2 (wordSum buf) := by
  rw [ipv4Checksum_toNat_mod, wordSum_mod hLen]

theorem ipv4Checksum_eq_zero_iff (hPos : 0 < wordSum buf) : ipv4Checksum buf = 0 ↔ wordSum buf % 65535 = 0 := by
  rw [ipv4Checksum_eq_zero, wordSum_mod hLen]
  exact and_iff_right hPos

end

/-! ## `net_ipv4_handle` -/

inductive Drop where
  | tooSmall | version | fragmentation | length | ihl | notForUs | ttl | checksum | protocol
  deriving DecidableEq

inductive Verdict where
  | drop (reason : Drop)
  | udp
  | tcp
  | icmp
  deriving DecidableEq

def headerLen (packet : Bytes) : Nat := (readHeader packet).ihl * 4

def IPv4Header.fragment (h : IPv4Header) : Bool :=
  (swapBytes h.flagsFragment).toNat &&& ipv4FlagsMoreFragments != 0 ||
    (swapBytes h.flagsFragment).toNat &&& 0x1FFF != 0

def IPv4Header.forAddress (h : IPv4Header) (ip : Ipv4Address) : Bool :=
  h.destAddress == ip || h.destAddress == ⟨0xFF, 0xFF, 0xFF, 0xFF⟩ || h.destAddress == ⟨0, 0, 0, 0⟩

def checkedSub (a b : Nat) : Option Nat :=
  if a < b then none else some (a - b)

def dispatch (protocol : UInt8) : Verdict :=
  if protocol = ipv4ProtocolUdp then .udp
  else if protocol = ipv4ProtocolTcp then .tcp
  else if protocol = ipv4ProtocolIcmp then .icmp
  else .drop .protocol

/-- The checks after the slice `packet[NET_IPv4_CARRY..NET_IPv4_CARRY + header_len]`. -/
def handleHeader (packet : Bytes) : Option Verdict :=
  if packet.length < netIpv4Carry + headerLen packet then none
  else if ipv4Checksum ((packet.drop netIpv4Carry).take (headerLen packet)) ≠ 0 then
    some (.drop .checksum)
  else some (dispatch (readHeader packet).protocol)

def netIpv4Handle (nic : Nic) (packet : Bytes) : Option Verdict :=
  let ipv4 := readHeader packet
  if packet.length < netIpv4Carry + ipv4HeaderSize then some (.drop .tooSmall)
  else if ipv4.version ≠ 4 then some (.drop .version)
  else if ipv4.fragment then some (.drop .fragmentation)
  else
    match checkedSub packet.length netIpv4Carry with
    | none => none
    | some room =>
      if (swapBytes ipv4.length).toNat > room then some (.drop .length)
      else if headerLen packet < ipv4HeaderSize then some (.drop .ihl)
      else if ! ipv4.forAddress nic.ip then some (.drop .notForUs)
      else if ipv4.ttl = 1 then some (.drop .ttl)
      else handleHeader packet

/-- The packet passes every check. -/
structure Checked (nic : Nic) (packet : Bytes) : Prop where
  size : netIpv4Carry + ipv4HeaderSize ≤ packet.length
  version : (readHeader packet).version = 4
  whole : (readHeader packet).fragment = false
  length : (swapBytes (readHeader packet).length).toNat ≤ packet.length - netIpv4Carry
  ihl : ipv4HeaderSize ≤ headerLen packet
  address : (readHeader packet).forAddress nic.ip = true
  ttl : (readHeader packet).ttl ≠ 1

theorem checkedSub_of_le {a b : Nat} (h : b ≤ a) : checkedSub a b = some (a - b) := by
  rw [checkedSub, if_neg (by omega)]

theorem netIpv4Handle_of_checked (h : Checked nic packet) : netIpv4Handle nic packet = handleHeader packet := by
  obtain ⟨hSize, hVersion, hWhole, hLength, hIhl, hAddress, hTtl⟩ := h
  have hCarry : netIpv4Carry ≤ packet.length := by
    omega
  simp only [netIpv4Handle]
  rw [if_neg (by omega), if_neg (by simpa using hVersion), if_neg (by simp [hWhole]), checkedSub_of_le hCarry]
  simp only
  rw [if_neg (by omega), if_neg (by omega), if_neg (by simp [hAddress]), if_neg hTtl]

theorem netIpv4Handle_of_not_checked (h : ¬ Checked nic packet) :
    ∃ reason, netIpv4Handle nic packet = some (.drop reason) := by
  simp only [netIpv4Handle]
  split
  · exact ⟨_, rfl⟩
  split
  · exact ⟨_, rfl⟩
  split
  · exact ⟨_, rfl⟩
  rename_i hSize hVersion hWhole
  have hCarry : netIpv4Carry ≤ packet.length := by
    omega
  rw [checkedSub_of_le hCarry]
  simp only
  split
  · exact ⟨_, rfl⟩
  split
  · exact ⟨_, rfl⟩
  split
  · exact ⟨_, rfl⟩
  split
  · exact ⟨_, rfl⟩
  rename_i hLength hIhl hAddress hTtl
  refine absurd ⟨?_, ?_, ?_, ?_, ?_, ?_, hTtl⟩ h
  · omega
  · simpa using hVersion
  · simpa using hWhole
  · omega
  · omega
  · simpa using hAddress

theorem handleHeader_isSome_iff (packet : Bytes) :
    (handleHeader packet).isSome ↔ netIpv4Carry + headerLen packet ≤ packet.length := by
  rw [handleHeader]
  split
  · simp only [isSome_none, Bool.false_eq_true, false_iff]
    omega
  · split <;> simp only [isSome_some, true_iff] <;> omega

/-- **`net_ipv4_handle` returns exactly if it drops the packet before the checksum or the header, as
long as its own length field says, lies in the frame.** The header length is compared with the
smallest header and never with the frame. -/
theorem netIpv4Handle_isSome_iff (nic : Nic) (packet : Bytes) : (netIpv4Handle nic packet).isSome ↔
      (Checked nic packet → netIpv4Carry + headerLen packet ≤ packet.length) := by
  by_cases h : Checked nic packet
  · rw [netIpv4Handle_of_checked h, handleHeader_isSome_iff]
    simp [h]
  · obtain ⟨reason, hDrop⟩ := netIpv4Handle_of_not_checked h
    simp [hDrop, h]

def longHeaderFrame : Bytes :=
  List.replicate 14 0 ++
    [0x4F, 0, 0, 20, 0, 0, 0, 0, 64, 17, 0, 0, 10, 0, 0, 1, 10, 0, 0, 2]

theorem netIpv4Handle_long_header : longHeaderFrame.length = 34 ∧
      netIpv4Handle ⟨⟨10, 0, 0, 2⟩, ⟨255, 255, 255, 0⟩, ⟨10, 0, 0, 1⟩⟩ longHeaderFrame = none := by
  decide

end CoreX.Net
