import Terrakernel.Heap.Code
import Terrakernel.Lib.Links

/-!
# PCI, as `pci/pci.cpp` and `acpi/kernel_api.cpp` use it

The two ports of the host bridge give access to the configuration spaces, which are
plain storage here. Devices live in blocks of the heap and are known by their address,
with a record for the fields that are written.
-/

namespace Terrakernel

open Memory Vmm

structure PciFunction where
  bus : Nat
  device : Nat
  function : Nat
  deriving DecidableEq, Repr

/-! ## Ports 0xCF8 and 0xCFC -/

/-- `address` is what was last written to the first port. -/
structure ConfigPorts where
  address : BitVec 32
  space : PciFunction → Mem

namespace ConfigPorts

abbrev pciConfigAddress : Nat := 0xCF8
abbrev pciConfigData : Nat := 0xCFC

def selected (s : ConfigPorts) : PciFunction where
  bus := s.address.toNat / 2 ^ 16 % 2 ^ 8
  device := s.address.toNat / 2 ^ 11 % 2 ^ 5
  function := s.address.toNat / 2 ^ 8 % 2 ^ 3

/-- The dword that is selected. The low two bits of the address are not decoded. -/
def register (s : ConfigPorts) : Nat := s.address.toNat % 2 ^ 8 / 4 * 4

def enabled (s : ConfigPorts) : Bool := s.address.getLsbD 31

def outl (s : ConfigPorts) (port : Nat) (value : BitVec 32) : ConfigPorts :=
  if port = pciConfigAddress then { s with address := value }
  else if port = pciConfigData ∧ s.enabled then
    { s with
      space := Function.update s.space s.selected
        (store (s.space s.selected) s.register 4 value.toNat) }
  else s

def inl (s : ConfigPorts) (port : Nat) : BitVec 32 :=
  if port = pciConfigAddress then s.address
  else if port = pciConfigData ∧ s.enabled then
    .ofNat 32 (load (s.space s.selected) s.register 4)
  else 0xFFFFFFFF

/-! ## `uacpi_pci_read_helper` and `uacpi_pci_write_helper` -/

def uacpiAddress (bus device func : UInt8) (offset : Nat) : BitVec 32 :=
  .ofNat 32 (0x80000000 ||| (bus.toNat &&& 0xFF) <<< 16 ||| (device.toNat &&& 0x1F) <<< 11 |||
    (func.toNat &&& 0x07) <<< 8 ||| (offset &&& 0xFC))

def uacpiPciReadHelper (s : ConfigPorts) (szOrder : Nat) (bus device func : UInt8) (offset : Nat) :
    BitVec 32 × ConfigPorts :=
  let s := s.outl pciConfigAddress (uacpiAddress bus device func offset)
  let data := s.inl pciConfigData
  match szOrder with
  | 0 => ((data >>> ((offset &&& 3) * 8)) &&& 0xFF, s)
  | 1 => ((data >>> ((offset &&& 2) * 8)) &&& 0xFFFF, s)
  | 2 => (data, s)
  | _ => (0, s)

def uacpiPciWriteHelper (s : ConfigPorts) (szOrder : Nat) (bus device func : UInt8) (offset : Nat)
    (value : BitVec 32) : ConfigPorts :=
  let s := s.outl pciConfigAddress (uacpiAddress bus device func offset)
  let data := s.inl pciConfigData
  match szOrder with
  | 0 =>
    let data := data &&& ~~~(0xFF#32 <<< ((offset &&& 3) * 8))
    s.outl pciConfigData (data ||| (value &&& 0xFF#32) <<< ((offset &&& 3) * 8))
  | 1 =>
    let data := data &&& ~~~(0xFFFF#32 <<< ((offset &&& 2) * 8))
    s.outl pciConfigData (data ||| (value &&& 0xFFFF#32) <<< ((offset &&& 2) * 8))
  | 2 => s.outl pciConfigData value
  | _ => s

/-! ## `pci_read_byte`, `pci_read_word` and `pci_read_dword` -/

-- The fields are not masked here.
def pciAddress (bus device function : UInt8) (offset : Nat) : BitVec 32 :=
  .ofNat 32 (1 <<< 31 ||| bus.toNat <<< 16 ||| device.toNat <<< 11 ||| function.toNat <<< 8 |||
    (offset &&& 0xFC))

def pciReadDword (s : ConfigPorts) (bus device function : UInt8) (offset : Nat) :
    BitVec 32 × ConfigPorts :=
  let s := s.outl pciConfigAddress (pciAddress bus device function offset)
  (s.inl pciConfigData, s)

def pciReadByte (s : ConfigPorts) (bus device function : UInt8) (offset : Nat) :
    BitVec 8 × ConfigPorts :=
  let shift := (offset &&& 3) * 8
  let s := s.outl pciConfigAddress (pciAddress bus device function offset)
  let data := s.inl pciConfigData
  (((data >>> shift) &&& 0xFF).setWidth 8, s)

def pciReadWord (s : ConfigPorts) (bus device function : UInt8) (offset : Nat) :
    BitVec 16 × ConfigPorts :=
  let shift := (offset &&& 2) * 8
  let s := s.outl pciConfigAddress (pciAddress bus device function offset)
  let data := s.inl pciConfigData
  (((data >>> shift) &&& 0xFFFF).setWidth 16, s)

end ConfigPorts

/-! ## Devices -/

structure PciDevice where
  vendorId : BitVec 16
  deviceId : BitVec 16
  command : BitVec 16
  status : BitVec 16
  revisionId : BitVec 8
  progIf : BitVec 8
  subclass : BitVec 8
  classCode : BitVec 8
  cacheLineSize : BitVec 8
  latencyTimer : BitVec 8
  headerType : BitVec 8
  bist : BitVec 8
  bars : List (BitVec 32)
  interruptLine : BitVec 8
  interruptPin : BitVec 8
  minGrant : BitVec 8
  maxLatency : BitVec 8
  bus : UInt8
  device : UInt8
  function : UInt8
  next : Nat
  deriving DecidableEq, Repr, Inhabited

structure Pci where
  heap : Heap
  devices : Nat → PciDevice
  devHead : Nat
  devTail : Nat
  nDetected : Nat

namespace Pci

-- `sizeof(pci_device)`
abbrev pciDeviceSize : Nat := 64

def setDevice (s : Pci) (dev : Nat) (f : PciDevice → PciDevice) : Pci :=
  { s with devices := Function.update s.devices dev (f (s.devices dev)) }

section Enumerate

variable (ports : ConfigPorts)

-- Every read selects its dword itself and none changes a configuration space, so all of them are
-- made on the same ports.
/-- What `pci_enumerate_helper` puts into a new device. -/
def readDevice (bus device function : UInt8) : PciDevice :=
  let byte offset := (ports.pciReadByte bus device function offset).1
  let word offset := (ports.pciReadWord bus device function offset).1
  { bus
    device
    function
    next := 0
    vendorId := word 0x00
    deviceId := word 0x02
    command := word 0x04
    status := word 0x06
    revisionId := byte 0x08
    progIf := byte 0x09
    subclass := byte 0x0A
    classCode := byte 0x0B
    cacheLineSize := byte 0x0C
    latencyTimer := byte 0x0D
    headerType := byte 0x0E
    bist := byte 0x0F
    bars := (List.range 6).map fun i =>
      (ports.pciReadDword bus device function (0x10 + i * 4)).1
    interruptLine := byte 0x3C
    interruptPin := byte 0x3D
    minGrant := byte 0x3E
    maxLatency := byte 0x3F }

def pciEnumerateHelper (s : Pci) (bus device function : UInt8) : Option (Nat × Pci) := do
  let (dev, heap) ← s.heap.malloc pciDeviceSize
  let s := { s with heap }
  if dev = 0 then some (0, s)
  else some (dev, s.setDevice dev fun _ => readDevice ports bus device function)

/-- The first half of `pci_add_device`. -/
def append (s : Pci) (dev : Nat) : Pci :=
  if s.devHead = 0 then { s with devHead := dev, devTail := dev }
  else { s.setDevice s.devTail fun d => { d with next := dev } with devTail := dev }

-- The device is in the list before its vendor is looked at.
def pciAddDevice (s : Pci) (dev : Nat) : Bool × Pci :=
  if dev = 0 then (false, s)
  else
    let s := s.append dev
    if (s.devices dev).vendorId = 0xFFFF then (false, s)
    else (true, { s with nDetected := (s.nDetected + 1) % word })

def visit (bus device : Nat) (s : Pci) (function : Nat) : Option Pci := do
  let (dev, s) ← pciEnumerateHelper ports s (.ofNat bus) (.ofNat device) (.ofNat function)
  let (_, s) := s.pciAddDevice dev
  some s

def initialise (s : Pci) : Option (Nat × Pci) := do
  let s ← (List.range 8).foldlM (fun s bus =>
    (List.range 32).foldlM (fun s device =>
      (List.range 8).foldlM (visit ports bus device) s) s) s
  some (s.nDetected, s)

end Enumerate

/-! ## Lookups -/

abbrev getViaVendorIdDeviceId : BitVec 32 := 0x1
abbrev getViaClassCodeSubclassCode : BitVec 32 := 0x2
abbrev getViaBusDeviceFunctionAddress : BitVec 32 := 0x4
abbrev getCheckProgIf : BitVec 32 := 0x4000

structure PciQuery where
  vendorId : BitVec 16
  deviceId : BitVec 16
  classCode : BitVec 8
  subclassCode : BitVec 8
  bus : UInt8
  device : UInt8
  function : UInt8
  type : BitVec 32
  progIf : BitVec 8
  deriving DecidableEq, Repr

/-- The loop of all four functions: the first device that is a match, or null. -/
def search (s : Pci) (isMatch : PciDevice → Bool) (fuel : Nat) : Option Nat :=
  Links.seek (fun curr => (s.devices curr).next) (fun curr => curr = 0 || isMatch (s.devices curr))
    fuel s.devHead

def queryMatches (query : PciQuery) (curr : PciDevice) : Bool :=
  let isMatch := true
  let isMatch :=
    if query.type &&& getViaVendorIdDeviceId ≠ 0 then
      if curr.vendorId ≠ query.vendorId ∨ curr.deviceId ≠ query.deviceId then false else isMatch
    else isMatch
  let isMatch :=
    if query.type &&& getViaClassCodeSubclassCode ≠ 0 then
      let isMatch :=
        if curr.classCode ≠ query.classCode ∨ curr.subclass ≠ query.subclassCode then false
        else isMatch
      if query.type &&& getCheckProgIf ≠ 0 ∧ isMatch then
        if curr.progIf ≠ query.progIf then false else isMatch
      else isMatch
    else isMatch
  if query.type &&& getViaBusDeviceFunctionAddress ≠ 0 then
    if curr.bus ≠ query.bus ∨ curr.device ≠ query.device ∨ curr.function ≠ query.function then
      false
    else isMatch
  else isMatch

def getDevice (s : Pci) (query : PciQuery) (fuel : Nat) : Option Nat :=
  s.search (queryMatches query) fuel

def getDeviceBdf (s : Pci) (bus device function : UInt8) (fuel : Nat) : Option Nat :=
  s.search (fun curr => curr.bus = bus ∧ curr.device = device ∧ curr.function = function) fuel

def classMatches (classCode subclass : BitVec 8) (checkProgif : Bool) (progIf : BitVec 8)
    (curr : PciDevice) : Bool :=
  let isMatch := true
  let isMatch := if curr.classCode ≠ classCode then false else isMatch
  let isMatch := if curr.subclass ≠ subclass then false else isMatch
  if checkProgif ∧ curr.progIf ≠ progIf then false else isMatch

def getDeviceClassCode (s : Pci) (classCode subclass : BitVec 8) (checkProgif : Bool)
    (progIf : BitVec 8) (fuel : Nat) : Option Nat :=
  s.search (classMatches classCode subclass checkProgif progIf) fuel

def getDeviceVendorId (s : Pci) (vendorId deviceId : BitVec 16) (fuel : Nat) : Option Nat :=
  s.search (fun curr => curr.vendorId = vendorId ∧ curr.deviceId = deviceId) fuel

end Pci

end Terrakernel
