import CoreX.Base.Bits

/-!
# PCI enumeration (`drivers/pci.rs`)

A read of a configuration space goes through two ports: the address of a word of 32 bits to the one, its value from
the other. `get_device` takes words apart with `export_byte`, whose second argument is `true` for the high byte. The
field at the even offset is taken with `true`, so each pair of bytes is the wrong way round (`fieldsOf_getDevice`).
-/

namespace CoreX.Drivers

open List

structure PciAddress where
  (bus slot function : Nat)
  deriving DecidableEq

abbrev Config := PciAddress → Nat → UInt8

def configAddress (a : PciAddress) (offset : Nat) : Nat :=
  a.bus <<< 16 ||| a.slot <<< 11 ||| a.function <<< 8 ||| (offset &&& 0xFC) ||| 0x80000000

/-- `inportl(PCI_CONFIG_DATA)`, with the address that was written before: bus, slot, function and
offset are fields of it, and the bytes of the word have the low ones first. -/
def inportlData (config : Config) (address : Nat) : Nat :=
  let a : PciAddress := ⟨address / 2 ^ 16 % 256, address / 2 ^ 11 % 32, address / 2 ^ 8 % 8⟩
  let offset := address % 256
  (config a offset).toNat + 256 * (config a (offset + 1)).toNat +
    65536 * (config a (offset + 2)).toNat + 16777216 * (config a (offset + 3)).toNat

section
variable (config : Config) (a : PciAddress)

def configReadWord (offset : Nat) : Nat :=
  (inportlData config (configAddress a offset) >>> ((offset &&& 2) * 8)) &&& 0xFFFF

def exportByte (word : Nat) (high : Bool) : UInt8 :=
  if high then UInt8.ofNat (word >>> 8) else UInt8.ofNat (word &&& 0xFF)

structure PciDevice where
  (bus slot function vendorId deviceId command status : Nat)
  (revision progIF subclassId classId cacheLineSize latencyTimer headerType bist : UInt8)
  deriving DecidableEq

structure Pci where
  (bus slot function vendorId deviceId : Nat)
  deriving DecidableEq

def pciDeviceId : Nat := 0x02
def pciCommand : Nat := 0x04
def pciStatus : Nat := 0x06
def pciRevisionId : Nat := 0x08
def pciSubclass : Nat := 0x0A
def pciCacheLineSize : Nat := 0x0C
def pciHeaderType : Nat := 0x0E

def pciDeviceGeneral : UInt8 := 0

def filterDevice : Bool :=
  let vendor := configReadWord config a 0x00
  ! (vendor == 0xFFFF || vendor == 0)

def getDevice : PciDevice :=
  let revProg := configReadWord config a pciRevisionId
  let subClass := configReadWord config a pciSubclass
  let cacheLat := configReadWord config a pciCacheLineSize
  let headerBist := configReadWord config a pciHeaderType
  { bus := a.bus
    slot := a.slot
    function := a.function
    vendorId := configReadWord config a 0x00
    deviceId := configReadWord config a pciDeviceId
    command := configReadWord config a pciCommand
    status := configReadWord config a pciStatus
    revision := exportByte revProg true
    progIF := exportByte revProg false
    subclassId := exportByte subClass true
    classId := exportByte subClass false
    cacheLineSize := exportByte cacheLat true
    latencyTimer := exportByte cacheLat false
    headerType := exportByte headerBist true
    bist := exportByte headerBist false }

inductive Driver where
  | nic | ahci | vmwareSvga2
  deriving DecidableEq

def dispatch (device : PciDevice) : Option Driver :=
  if device.classId = 0x02 then some .nic
  else if device.classId = 0x01 then if device.subclassId = 0x06 then some .ahci else none
  else if device.classId = 0x03 then some .vmwareSvga2
  else none

structure PciState where
  dsPCI : List Pci
  calls : List (Driver × PciDevice)

/-- The body of the innermost loop; `0x7F` is `!(1 << 7)`. -/
def probe (s : PciState) (a : PciAddress) : PciState :=
  if ! filterDevice config a then s
  else
    let device := getDevice config a
    if device.headerType &&& 0x7F ≠ pciDeviceGeneral then s
    else
      { dsPCI := s.dsPCI ++ [⟨a.bus, a.slot, a.function, device.vendorId, device.deviceId⟩]
        calls := s.calls ++ ((dispatch device).map fun driver => (driver, device)).toList }

def pciMaxBuses : Nat := 256
def pciMaxDevices : Nat := 32
def pciMaxFunctions : Nat := 8

def initiatePci : PciState :=
  (List.range pciMaxBuses).foldl (fun s bus =>
    (List.range pciMaxDevices).foldl (fun s slot =>
      (List.range pciMaxFunctions).foldl (fun s function => probe config s ⟨bus, slot, function⟩) s) s)
    ⟨[], []⟩

end

section Read
variable {config : Config} {a : PciAddress} {offset : Nat}

/-- An address that is scanned. -/
def PciAddress.Valid (a : PciAddress) : Prop :=
  a.bus < pciMaxBuses ∧ a.slot < pciMaxDevices ∧ a.function < pciMaxFunctions

instance : Decidable a.Valid :=
  inferInstanceAs (Decidable (_ ∧ _ ∧ _))

theorem and_fc (offset : Fin 256) : offset.val &&& 0xFC = offset.val / 4 * 4 := by
  revert offset
  decide +kernel

theorem configAddress_eq (ha : a.Valid) (hOffset : offset < 256) : configAddress a offset =
      2147483648 + (a.bus * 65536 + (a.slot * 2048 + (a.function * 256 + offset / 4 * 4))) := by
  obtain ⟨hBus, hSlot, hFunction⟩ := ha
  rw [pciMaxBuses] at hBus
  rw [pciMaxDevices] at hSlot
  rw [pciMaxFunctions] at hFunction
  have hFields : a.bus <<< 16 ||| (a.slot <<< 11 ||| (a.function <<< 8 ||| offset / 4 * 4)) =
      a.bus * 65536 + (a.slot * 2048 + (a.function * 256 + offset / 4 * 4)) := by
    rw [Bits.shiftLeft_or_of_lt (show offset / 4 * 4 < 2 ^ 8 by omega)]
    rw [Bits.shiftLeft_or_of_lt (show a.function * 2 ^ 8 + offset / 4 * 4 < 2 ^ 11 by omega)]
    rw [Bits.shiftLeft_or_of_lt (by omega)]
    omega
  have hEnable (n : Nat) (h : n < 2 ^ 31) : 0x80000000 ||| n = 2147483648 + n := Bits.shiftLeft_or_of_lt (x := 1) h
  rw [configAddress, and_fc ⟨offset, hOffset⟩, Nat.or_comm _ 0x80000000, Nat.or_assoc, Nat.or_assoc,
    hFields, hEnable _ (by omega)]

theorem configAddress_decode (ha : a.Valid) (hOffset : offset < 256) :
    (⟨configAddress a offset / 2 ^ 16 % 256, configAddress a offset / 2 ^ 11 % 32,
      configAddress a offset / 2 ^ 8 % 8⟩ : PciAddress) = a ∧ configAddress a offset % 256 = offset / 4 * 4 := by
  rw [configAddress_eq ha hOffset]
  obtain ⟨bus, slot, function⟩ := a
  obtain ⟨hBus, hSlot, hFunction⟩ := ha
  simp only [pciMaxBuses, pciMaxDevices, pciMaxFunctions, PciAddress.mk.injEq] at *
  omega

theorem and_two (offset : Fin 256) : offset.val &&& 2 = offset.val % 4 / 2 * 2 := by
  revert offset
  decide +kernel

section
variable (config)

theorem configReadWord_eq (ha : a.Valid) (hOffset : offset < 256) (hEven : offset % 2 = 0) :
    configReadWord config a offset = (config a offset).toNat + 256 * (config a (offset + 1)).toNat := by
  obtain ⟨hAddress, hByte⟩ := configAddress_decode ha hOffset
  have hMask (n : Nat) : n &&& 0xFFFF = n % 65536 := Nat.and_two_pow_sub_one_eq_mod n 16
  have hLt (i : Nat) : (config a i).toNat < 256 := (config a i).toNat_lt
  rw [configReadWord, inportlData, hAddress, hByte, hMask, and_two ⟨offset, hOffset⟩, Nat.shiftRight_eq_div_pow]
  have hBase : offset / 4 * 4 = offset ∧ offset % 4 = 0 ∨ offset / 4 * 4 + 2 = offset ∧ offset % 4 = 2 := by omega
  -- the low half of the word of 32 bits, or the high one
  obtain ⟨hBase, hMod⟩ | ⟨hBase, hMod⟩ := hBase
  · have h0 := hLt offset
    have h1 := hLt (offset + 1)
    simp only [hBase, hMod]
    omega
  · have h0 := hLt (offset / 4 * 4)
    have h1 := hLt (offset / 4 * 4 + 1)
    have h2 := hLt (offset / 4 * 4 + 2)
    have h3 := hLt (offset / 4 * 4 + 3)
    have hGoal : offset + 1 = offset / 4 * 4 + 3 := by omega
    rw [hGoal, ← congrArg (config a) hBase]
    simp only [hMod]
    omega

theorem exportByte_high (ha : a.Valid) (hOffset : offset < 256) (hEven : offset % 2 = 0) :
    exportByte (configReadWord config a offset) true = config a (offset + 1) := by
  have hLow := (config a offset).toNat_lt
  rw [configReadWord_eq config ha hOffset hEven, exportByte, if_pos rfl, Nat.shiftRight_eq_div_pow]
  have hDiv : ((config a offset).toNat + 256 * (config a (offset + 1)).toNat) / 2 ^ 8 =
      (config a (offset + 1)).toNat := by omega
  rw [hDiv, UInt8.ofNat_toNat]

theorem exportByte_low (ha : a.Valid) (hOffset : offset < 256) (hEven : offset % 2 = 0) :
    exportByte (configReadWord config a offset) false = config a offset := by
  have hLow := (config a offset).toNat_lt
  have hMask (n : Nat) : n &&& 0xFF = n % 256 := Nat.and_two_pow_sub_one_eq_mod n 8
  rw [configReadWord_eq config ha hOffset hEven, exportByte, if_neg (by decide), hMask]
  have hMod : ((config a offset).toNat + 256 * (config a (offset + 1)).toNat) % 256 =
      (config a offset).toNat := by omega
  rw [hMod, UInt8.ofNat_toNat]

end

end Read

section Fields
variable {a : PciAddress}

def vendorOf (config : Config) (a : PciAddress) : Nat := (config a 0x00).toNat + 256 * (config a 0x01).toNat

/-- A function answers at the address. -/
def Present (config : Config) (a : PciAddress) : Prop := vendorOf config a ≠ 0 ∧ vendorOf config a ≠ 0xFFFF

instance (config : Config) : Decidable (Present config a) :=
  inferInstanceAs (Decidable (_ ∧ _))

theorem filterDevice_iff (config : Config) (ha : a.Valid) : filterDevice config a = true ↔ Present config a := by
  have hVendor : configReadWord config a 0x00 = vendorOf config a :=
    configReadWord_eq config ha (by decide) (by decide)
  simp only [filterDevice, hVendor, Present, Bool.not_eq_true', Bool.or_eq_false_iff, beq_eq_false_iff_ne]
  exact and_comm

end Fields

/-! ## The three loops -/

def addresses : List PciAddress :=
  (List.range pciMaxBuses).flatMap fun bus =>
    (List.range pciMaxDevices).flatMap fun slot =>
      (List.range pciMaxFunctions).map fun function => ⟨bus, slot, function⟩

theorem mem_addresses {a : PciAddress} : a ∈ addresses ↔ a.Valid := by
  obtain ⟨bus, slot, function⟩ := a
  simp only [addresses, mem_flatMap, mem_map, mem_range, PciAddress.mk.injEq, PciAddress.Valid]
  constructor
  · rintro ⟨_, hBus, _, hSlot, _, hFunction, rfl, rfl, rfl⟩
    exact ⟨hBus, hSlot, hFunction⟩
  · rintro ⟨hBus, hSlot, hFunction⟩
    exact ⟨bus, hBus, slot, hSlot, function, hFunction, rfl, rfl, rfl⟩

theorem addresses_nodup : addresses.Nodup := by
  refine nodup_flatMap.2 ⟨fun bus _ => nodup_flatMap.2 ⟨fun slot _ => ?_, ?_⟩, ?_⟩
  · refine nodup_range.map fun f f' h => ?_
    exact (PciAddress.mk.inj h).2.2
  · refine nodup_range.imp fun {slot slot'} hne => ?_
    intro x hx hx'
    obtain ⟨_, _, rfl⟩ := mem_map.1 hx
    obtain ⟨_, _, h⟩ := mem_map.1 hx'
    exact hne (PciAddress.mk.inj h).2.1.symm
  · refine nodup_range.imp fun {bus bus'} hne => ?_
    intro x hx hx'
    obtain ⟨_, _, hx⟩ := mem_flatMap.1 hx
    obtain ⟨_, _, hx'⟩ := mem_flatMap.1 hx'
    obtain ⟨_, _, rfl⟩ := mem_map.1 hx
    obtain ⟨_, _, h⟩ := mem_map.1 hx'
    exact hne (PciAddress.mk.inj h).1.symm

section
variable (config : Config) (a : PciAddress)

def registers : Bool :=
  filterDevice config a && (getDevice config a).headerType &&& 0x7F == pciDeviceGeneral

def entryOf : Pci :=
  ⟨a.bus, a.slot, a.function, (getDevice config a).vendorId, (getDevice config a).deviceId⟩

def callOf : Option (Driver × PciDevice) :=
  (dispatch (getDevice config a)).map fun driver => (driver, getDevice config a)

end

section
variable (config : Config) (s : PciState) (a : PciAddress)

theorem probe_eq : probe config s a = if registers config a
      then ⟨s.dsPCI ++ [entryOf config a], s.calls ++ (callOf config a).toList⟩ else s := by
  rw [probe, registers]
  cases filterDevice config a with
  | false => rfl
  | true =>
    by_cases h : (getDevice config a).headerType &&& 0x7F = pciDeviceGeneral
    · simp [h, entryOf, callOf]
    · simp [h]

theorem foldl_probe (as : List PciAddress) : as.foldl (probe config) s =
      ⟨s.dsPCI ++ (as.filter (registers config)).map (entryOf config),
        s.calls ++ (as.filter (registers config)).filterMap (callOf config)⟩ := by
  induction as generalizing s with
  | nil => simp
  | cons a as ih =>
    rw [foldl_cons, ih, probe_eq]
    by_cases h : registers config a = true
    · rw [if_pos h, filter_cons_of_pos h, map_cons, filterMap_cons]
      cases callOf config a <;> simp
    · rw [if_neg h, filter_cons_of_neg h]

theorem initiatePci_eq : initiatePci config =
      ⟨(addresses.filter (registers config)).map (entryOf config),
        (addresses.filter (registers config)).filterMap (callOf config)⟩ := by
  have hFlat : initiatePci config = addresses.foldl (probe config) ⟨[], []⟩ := by
    simp only [addresses, foldl_flatMap, foldl_map, initiatePci]
  rw [hFlat, foldl_probe]
  rfl

/-! ## What the enumeration is for -/

def Pci.address (p : Pci) : PciAddress := ⟨p.bus, p.slot, p.function⟩

def General (config : Config) (a : PciAddress) : Prop := a.Valid ∧ Present config a ∧ config a 0x0E &&& 0x7F = 0

instance (config : Config) (a : PciAddress) : Decidable (General config a) :=
  inferInstanceAs (Decidable (_ ∧ _ ∧ _))

structure FieldsOf (config : Config) (a : PciAddress) (device : PciDevice) : Prop where
  classId : device.classId = config a 0x0B
  subclassId : device.subclassId = config a 0x0A
  revision : device.revision = config a 0x08
  progIF : device.progIF = config a 0x09
  cacheLineSize : device.cacheLineSize = config a 0x0C
  latencyTimer : device.latencyTimer = config a 0x0D
  headerType : device.headerType = config a 0x0E
  bist : device.bist = config a 0x0F

/-- The fields of a device are those of the configuration space with the two bytes of each word swapped. -/
theorem fieldsOf_getDevice {a : PciAddress} (ha : a.Valid) :
    FieldsOf (fun a offset => config a (offset ^^^ 1)) a (getDevice config a) where
  classId := exportByte_low config ha (by decide) (by decide)
  subclassId := exportByte_high config ha (by decide) (by decide)
  revision := exportByte_high config ha (by decide) (by decide)
  progIF := exportByte_low config ha (by decide) (by decide)
  cacheLineSize := exportByte_high config ha (by decide) (by decide)
  latencyTimer := exportByte_low config ha (by decide) (by decide)
  headerType := exportByte_high config ha (by decide) (by decide)
  bist := exportByte_low config ha (by decide) (by decide)

/-- The enumeration registers the general functions, each once, and reads the fields of the functions
that are there. The drivers are chosen by these fields. -/
structure Enumerates (config : Config) : Prop where
  registered : ∀ a, ((initiatePci config).dsPCI.map Pci.address).count a =
    if General config a then 1 else 0
  fields : ∀ a, a.Valid → Present config a → FieldsOf config a (getDevice config a)

/-- The two bytes of each word that is taken apart are equal. -/
structure PairsEqual (config : Config) (a : PciAddress) : Prop where
  revision : config a 0x08 = config a 0x09
  subclass : config a 0x0A = config a 0x0B
  cacheLine : config a 0x0C = config a 0x0D
  header : config a 0x0E = config a 0x0F

theorem registers_iff {a : PciAddress} (ha : a.Valid) :
    registers config a = true ↔ Present config a ∧ config a 0x0F &&& 0x7F = 0 := by
  rw [registers, Bool.and_eq_true, filterDevice_iff config ha, (fieldsOf_getDevice config ha).headerType, beq_iff_eq]
  rfl

theorem count_registered : ((initiatePci config).dsPCI.map Pci.address).count a =
      if a.Valid ∧ registers config a = true then 1 else 0 := by
  have hMap : (initiatePci config).dsPCI.map Pci.address = addresses.filter (registers config) := by
    rw [initiatePci_eq, map_map]
    exact map_id _
  have hNodup := addresses_nodup.filter (registers config)
  rw [hMap, hNodup.count]
  simp only [mem_filter, mem_addresses]

theorem fieldsOf_getDevice_iff {a : PciAddress} (ha : a.Valid) :
    FieldsOf config a (getDevice config a) ↔ PairsEqual config a := by
  have hSwapped := fieldsOf_getDevice config ha
  constructor
  · intro h
    exact ⟨h.revision.symm.trans hSwapped.revision, h.subclassId.symm.trans hSwapped.subclassId,
      h.cacheLineSize.symm.trans hSwapped.cacheLineSize, h.headerType.symm.trans hSwapped.headerType⟩
  · intro h
    exact ⟨hSwapped.classId.trans h.subclass, hSwapped.subclassId.trans h.subclass.symm,
      hSwapped.revision.trans h.revision.symm, hSwapped.progIF.trans h.revision,
      hSwapped.cacheLineSize.trans h.cacheLine.symm, hSwapped.latencyTimer.trans h.cacheLine,
      hSwapped.headerType.trans h.header.symm, hSwapped.bist.trans h.header⟩

end

/-- The enumeration is right exactly if, in every function that is there, the bytes of each pair
agree: then it does not matter which one is taken for which. -/
theorem initiatePci_enumerates_iff (config : Config) :
    Enumerates config ↔ ∀ a, a.Valid → Present config a → PairsEqual config a := by
  constructor
  · intro h a ha hPresent
    exact (fieldsOf_getDevice_iff config ha).1 (h.fields a ha hPresent)
  intro h
  refine ⟨fun a => ?_, fun a ha hPresent => (fieldsOf_getDevice_iff config ha).2 (h a ha hPresent)⟩
  rw [count_registered]
  refine if_congr ?_ rfl rfl
  rw [General]
  refine and_congr_right fun ha => ?_
  rw [registers_iff config ha]
  refine and_congr_right fun hPresent => ?_
  rw [(h a ha hPresent).header]

def networkCard : Config := fun a offset =>
  if a = ⟨0, 3, 0⟩ then
    [0x86, 0x80, 0x0E, 0x10, 0x07, 0x00, 0x10, 0x00, 0x03, 0x00, 0x00, 0x02].getD offset 0
  else 0xFF

theorem present_networkCard {a : PciAddress} (h : Present networkCard a) : a = ⟨0, 3, 0⟩ := by
  by_contra hne
  refine h.2 ?_
  simp only [vendorOf, networkCard, if_neg hne]
  rfl

/-- The card is registered, but its class (2, with subclass 0) is read as 0: no driver is called. -/
theorem networkCard_ignored : ¬ Enumerates networkCard ∧ (initiatePci networkCard).calls = [] := by
  have hValid : (⟨0, 3, 0⟩ : PciAddress).Valid := by decide
  constructor
  · intro h
    have hSubclass := (h.fields ⟨0, 3, 0⟩ hValid (by decide)).subclassId
    exact absurd hSubclass (by decide)
  have hCalls := congrArg PciState.calls (initiatePci_eq networkCard)
  rw [hCalls, filterMap_eq_nil_iff]
  intro a ha
  obtain ⟨hMem, hRegs⟩ := mem_filter.1 ha
  have hPresent := (registers_iff networkCard (mem_addresses.1 hMem)).1 hRegs
  rw [present_networkCard hPresent.1]
  decide +kernel

end CoreX.Drivers
