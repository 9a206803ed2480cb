import Terrakernel.Lib.Memory
import Terrakernel.Vmm.DirectMap

/-!
# ATA transfers, as `drivers/blockio/ahci.cpp` makes them

The drive is a state machine behind its ports: the task file, the data port and the
status. It may be busy for a while after a command and after each sector; `delay` says
how many looks at the status that takes, by the number of words still to come.
-/

namespace Terrakernel

open Memory

/-! ## The drive -/

/-- A register of the task file keeps the byte before the last one too. -/
structure AtaLatch where
  previous : UInt8
  current : UInt8
  deriving DecidableEq, Repr

structure AtaCommand where
  isWrite : Bool
  lba : Nat
  sectors : Nat
  deriving DecidableEq, Repr

/-- The disk is its words, 256 to a sector. `next` is the word the data port is at, `remaining` how
many are left of the command, and `moved` what went over the data port. -/
structure AtaDevice where
  hddevsel : UInt8
  seccount : AtaLatch
  lba0 : AtaLatch
  lba1 : AtaLatch
  lba2 : AtaLatch
  commands : List AtaCommand
  disk : Nat → UInt16
  writing : Bool
  next : Nat
  remaining : Nat
  moved : List UInt16
  busy : Nat
  delay : Nat → Nat

namespace AtaDevice

abbrev ataSeccount0 : Nat := 0x1F2
abbrev ataLba0 : Nat := 0x1F3
abbrev ataLba1 : Nat := 0x1F4
abbrev ataLba2 : Nat := 0x1F5
abbrev ataHddevsel : Nat := 0x1F6
abbrev ataCommand : Nat := 0x1F7
abbrev ataSeccount1 : Nat := 0x1F2
abbrev ataLba3 : Nat := 0x1F3
abbrev ataLba4 : Nat := 0x1F4
abbrev ataLba5 : Nat := 0x1F5

abbrev ataCmdReadPioExt : UInt8 := 0x24
abbrev ataCmdWritePioExt : UInt8 := 0x34
abbrev ataSrBsy : UInt8 := 0x80
abbrev ataSrDrq : UInt8 := 0x08

def latch (l : AtaLatch) (value : UInt8) : AtaLatch := ⟨l.current, value⟩

/-- The high bytes are those that were written first. -/
def lba (d : AtaDevice) : Nat :=
  d.lba0.current.toNat + 2 ^ 8 * d.lba1.current.toNat + 2 ^ 16 * d.lba2.current.toNat +
    2 ^ 24 * d.lba0.previous.toNat + 2 ^ 32 * d.lba1.previous.toNat +
    2 ^ 40 * d.lba2.previous.toNat

def sectors (d : AtaDevice) : Nat :=
  let count := d.seccount.current.toNat + 2 ^ 8 * d.seccount.previous.toNat
  if count = 0 then 65536 else count

def command (d : AtaDevice) (value : UInt8) : AtaDevice :=
  if value = ataCmdReadPioExt ∨ value = ataCmdWritePioExt then
    { d with
      commands := d.commands ++ [⟨value = ataCmdWritePioExt, d.lba, d.sectors⟩]
      writing := value = ataCmdWritePioExt
      next := 256 * d.lba
      remaining := 256 * d.sectors
      busy := d.delay (256 * d.sectors) }
  else d

def outb (d : AtaDevice) (port : Nat) (value : UInt8) : AtaDevice :=
  if port = ataSeccount0 then { d with seccount := latch d.seccount value }
  else if port = ataLba0 then { d with lba0 := latch d.lba0 value }
  else if port = ataLba1 then { d with lba1 := latch d.lba1 value }
  else if port = ataLba2 then { d with lba2 := latch d.lba2 value }
  else if port = ataHddevsel then { d with hddevsel := value }
  else if port = ataCommand then d.command value
  else d

/-- A look at the status. -/
def inbStatus (d : AtaDevice) : UInt8 × AtaDevice :=
  if 0 < d.busy then (ataSrBsy, { d with busy := d.busy - 1 })
  else if 0 < d.remaining then (0x40 ||| ataSrDrq, d)
  else (0x40, d)

/-- One word was moved. -/
def advance (d : AtaDevice) : AtaDevice :=
  { d with
    next := d.next + 1
    remaining := d.remaining - 1
    busy := if (d.remaining - 1) % 256 = 0 then d.delay (d.remaining - 1) else 0 }

def outwData (d : AtaDevice) (value : UInt16) : AtaDevice :=
  let d := { d with moved := d.moved ++ [value] }
  -- A word that is not asked for is lost.
  if d.writing ∧ 0 < d.remaining ∧ d.busy = 0 then
    advance { d with disk := Function.update d.disk d.next value }
  else d

def inwData (d : AtaDevice) : UInt16 × AtaDevice :=
  if d.writing = false ∧ 0 < d.remaining ∧ d.busy = 0 then
    let value := d.disk d.next
    (value, advance { d with moved := d.moved ++ [value] })
  else (0xFFFF, { d with moved := d.moved ++ [0xFFFF] })

end AtaDevice

/-! ## `ata_transfer` -/

structure Ata where
  device : AtaDevice
  mem : Mem

/-- A run that is done, or still waits in some state when the looks that are allowed for each loop
are used up. -/
inductive AtaRun (α : Type) where
  | done (result : α)
  | waiting (s : Ata)

def AtaRun.bind {α β : Type} (r : AtaRun α) (f : α → AtaRun β) : AtaRun β :=
  match r with
  | .done a => f a
  | .waiting s => .waiting s

namespace Ata

open AtaDevice

/-- A loop that looks at the status. -/
def waitStatus (enough : UInt8 → Bool) : Nat → Ata → AtaRun Ata
  | 0, s => .waiting s
  | fuel + 1, s =>
    let (status, device) := s.device.inbStatus
    let s := { s with device }
    if enough status then .done s else waitStatus enough fuel s

def waitBsyClear (fuel : Nat) (s : Ata) : AtaRun Ata :=
  waitStatus (fun status => status &&& ataSrBsy = 0) fuel s

def waitDrq (fuel : Nat) (s : Ata) : AtaRun Ata :=
  waitStatus (fun status => status &&& ataSrDrq ≠ 0) fuel s

/-- Word `k` of `buf16` goes to the data port or comes from it. -/
def moveWord (buffer : Nat) (isWriteOp : Bool) (s : Ata) (k : Nat) : Ata :=
  if isWriteOp then
    { s with device := s.device.outwData (.ofNat (load s.mem (buffer + 2 * k) 2)) }
  else
    let (value, device) := s.device.inwData
    { device, mem := store s.mem (buffer + 2 * k) 2 value.toNat }

def moveSector (buffer : Nat) (isWriteOp : Bool) (i : Nat) (s : Ata) : Ata :=
  (List.range 256).foldl (fun s w => moveWord buffer isWriteOp s (i * 256 + w)) s

/-- The loop over the sectors from `i` on, with `left` to go. -/
def sectorLoop (fuel buffer : Nat) (isWriteOp : Bool) : Nat → (i : Nat) → Ata → AtaRun Ata
  | 0, _, s => .done s
  | left + 1, i, s =>
    (waitDrq fuel s).bind fun s =>
      sectorLoop fuel buffer isWriteOp left (i + 1) (moveSector buffer isWriteOp i s)

def lbaByte (lba i : Nat) : UInt8 := .ofNat ((lba >>> (8 * i)) &&& 0xFF)

def sectorByte (sectorCount i : Nat) : UInt8 := .ofNat ((sectorCount >>> (8 * i)) &&& 0xFF)

/-- The task file and the command. -/
def program (d : AtaDevice) (lba sectorCount : Nat) (isWriteOp : Bool) : AtaDevice :=
  let d := d.outb ataHddevsel 0x40
  let d := d.outb ataSeccount1 (sectorByte sectorCount 1)
  let d := d.outb ataLba3 (lbaByte lba 3)
  let d := d.outb ataLba4 (lbaByte lba 4)
  let d := d.outb ataLba5 (lbaByte lba 5)
  let d := d.outb ataSeccount0 (sectorByte sectorCount 0)
  let d := d.outb ataLba0 (lbaByte lba 0)
  let d := d.outb ataLba1 (lbaByte lba 1)
  let d := d.outb ataLba2 (lbaByte lba 2)
  d.outb ataCommand (if isWriteOp then ataCmdWritePioExt else ataCmdReadPioExt)

def ataTransfer (fuel : Nat) (s : Ata) (lba sectorCount buffer : Nat) (isWriteOp : Bool) :
    AtaRun (Nat × Ata) :=
  (waitBsyClear fuel s).bind fun s =>
    let s := { s with device := program s.device lba sectorCount isWriteOp }
    (sectorLoop fuel buffer isWriteOp sectorCount 0 s).bind fun s =>
      (waitBsyClear fuel s).bind fun s =>
        .done (sectorCount * 512 % word, s)

end Ata

end Terrakernel
