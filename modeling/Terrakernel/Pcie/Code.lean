import Terrakernel.Heap.Code

/-!
# PCIe enumeration, as `pcie/pcie.cpp` does it

`mcfg` is the list of the `num_allocations` allocations of the ACPI table. Devices
live in blocks of the heap and are known by their address, with a record for the
fields that are written. What the devices answer is a memory of its own that the
heap does not share.
-/

namespace Terrakernel

open Memory Vmm

structure McfgAllocation where
  baseAddress : UInt64
  segmentGroup : UInt16
  startBus : UInt8
  endBus : UInt8
  deriving DecidableEq, Repr

structure PcieDevice where
  vendorId : Nat
  deviceId : Nat
  revisionId : Nat
  progIf : Nat
  subclass : Nat
  classCode : Nat
  headerType : Nat
  bars : List Nat
  bus : Nat
  device : Nat
  function : Nat
  segment : Nat
  configSpace : Nat
  next : Nat
  deriving DecidableEq, Repr, Inhabited

structure Pcie where
  heap : Heap
  devices : Nat → PcieDevice
  firstDevice : Nat
  numDevs : Nat
  totalDevices : Nat

namespace Pcie

-- `sizeof(pcie_device)`
abbrev pcieDeviceSize : Nat := 3925

def setDevice (s : Pcie) (dev : Nat) (f : PcieDevice → PcieDevice) : Pcie :=
  { s with devices := Function.update s.devices dev (f (s.devices dev)) }

def installPcieDevice (s : Pcie) (dev : Nat) : Pcie :=
  let s := s.setDevice dev fun d => { d with next := s.firstDevice }
  { s with
    firstDevice := dev
    numDevs := (s.numDevs + 1) % word
    totalDevices := (s.totalDevices + 1) % 2 ^ 32 }

/-- Where a function's configuration space starts within its allocation. -/
def offset (a : McfgAllocation) (bus device function : Nat) : Nat :=
  ((bus - a.startBus.toNat) <<< 20) ||| (device <<< 15) ||| (function <<< 12)

/-- Null if no allocation covers the bus. -/
def getConfigSpace (mcfg : List McfgAllocation) (segment bus device function : Nat) : Nat :=
  match mcfg with
  | [] => 0
  | a :: mcfg =>
    if a.baseAddress = 0 then getConfigSpace mcfg segment bus device function
    else if a.segmentGroup.toNat = segment ∧ a.startBus.toNat ≤ bus ∧ bus ≤ a.endBus.toNat then
      paToVa ((a.baseAddress.toNat + offset a bus device function) % word)
    else getConfigSpace mcfg segment bus device function

section Enumerate

variable (mcfg : List McfgAllocation) (config : Mem)

/-- The fields that are read from the device. -/
def readDevice (segment bus device function configSpace : Nat) (d : PcieDevice) : PcieDevice :=
  { d with
    segment := segment
    bus := bus
    device := device
    function := function
    configSpace := configSpace
    vendorId := load config configSpace 2
    deviceId := load config (configSpace + 2) 2
    classCode := load config (configSpace + 0x0B) 1
    subclass := load config (configSpace + 0x0A) 1
    progIf := load config (configSpace + 0x09) 1
    revisionId := load config (configSpace + 0x08) 1
    headerType := load config (configSpace + 0x0E) 1 &&& 0x7F
    bars := (List.range 6).map fun i => load config (configSpace + 4 * (4 + i)) 4 }

-- A store through the null pointer is not made.
def addDevice (segment bus device function configSpace : Nat) (s : Pcie) : Option Pcie := do
  let (dev, heap) ← s.heap.malloc pcieDeviceSize
  if dev = 0 then none
  else
    let s := { s with heap }
    let s := s.setDevice dev (readDevice config segment bus device function configSpace)
    some (s.installPcieDevice dev)

def functionLoop (segment bus device : Nat) : Nat → (function : Nat) → Pcie → Option Pcie
  | 0, _, s => some s
  | left + 1, function, s =>
    let configSpace := getConfigSpace mcfg segment (bus % 2 ^ 8) device function
    if configSpace = 0 then functionLoop segment bus device left (function + 1) s
    else
      let vendorId := load config configSpace 2
      if vendorId = 0xFFFF ∨ vendorId = 0x0000 then
        if function = 0 then some s else functionLoop segment bus device left (function + 1) s
      else do
        let s ← addDevice config segment bus device function configSpace s
        let hdr := load config (configSpace + 0x0E) 1
        if function = 0 ∧ hdr &&& 0x80 = 0 then some s
        else functionLoop segment bus device left (function + 1) s

def deviceLoop (segment bus : Nat) : Nat → (device : Nat) → Pcie → Option Pcie
  | 0, _, s => some s
  | left + 1, device, s => do
    let s ← functionLoop mcfg config segment bus device 8 0 s
    deviceLoop segment bus left (device + 1) s

-- The counter has 16 bits and `end_bus` has 8, so this ends at bus 255 too.
def busLoop (segment endBus : Nat) : Nat → (bus : Nat) → Pcie → Option Pcie
  | 0, _, _ => none
  | fuel + 1, bus, s =>
    if bus ≤ endBus then do
      let s ← deviceLoop mcfg config segment bus 32 0 s
      busLoop segment endBus fuel ((bus + 1) % 2 ^ 16) s
    else some s

def allocLoop : List McfgAllocation → Pcie → Option Pcie
  | [], s => some s
  | a :: as, s =>
    if a.baseAddress = 0 then allocLoop as s
    else do
      let s ← busLoop mcfg config a.segmentGroup.toNat a.endBus.toNat (2 ^ 16) a.startBus.toNat s
      allocLoop as s

def enumerateDevices (s : Pcie) : Option Pcie := allocLoop mcfg config mcfg s

end Enumerate

end Pcie

end Terrakernel
