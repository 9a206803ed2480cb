import Mathlib.Logic.Function.Iterate

/-!
# The interval timer, as `drivers/timers/pit.cpp` drives it

`ticks` is the kernel's counter, which wraps. `eois` counts the interrupts that were
handled, so it is the true time in periods of the timer. The table of
`attach_periodic_interrupt` is left out: the handler's loop over it starts with `break`.
-/

namespace Terrakernel

/-- Channel 0. Its reload value is written in two halves, the low one first. -/
structure PitChannel where
  reload : UInt16
  low : Option UInt8
  deriving DecidableEq, Repr

structure Pit where
  channel : PitChannel
  ticks : UInt64
  eois : Nat
  deriving DecidableEq, Repr

namespace Pit

def pitFrequency : UInt64 := 300

abbrev chxData : Nat := 0x40
abbrev chxModeCmdReg : Nat := 0x43

def safeDiv (numerator denominator : UInt64) : UInt64 :=
  if denominator = 0 then 0 else numerator / denominator

/-! ## Programming the channel -/

def outb (p : Pit) (port : Nat) (value : UInt8) : Pit :=
  -- A mode word for channel 0 with both halves makes the next data byte a low one.
  if port = chxModeCmdReg then
    if value &&& 0xF0 = 0x30 then { p with channel := { p.channel with low := none } } else p
  else if port = chxData then
    match p.channel.low with
    | none => { p with channel := { p.channel with low := some value } }
    | some low => { p with channel := ⟨value.toUInt16 <<< 8 ||| low.toUInt16, none⟩ }
  else p

def initialise (p : Pit) : Pit :=
  if pitFrequency = 0 then p
  else
    let p := p.outb chxModeCmdReg 0x34
    let divisor := (safeDiv 1193180 pitFrequency).toUInt16
    let p := p.outb chxData (divisor &&& 0xFF).toUInt8
    p.outb chxData ((divisor >>> 8) &&& 0xFF).toUInt8

/-! ## Ticks -/

def pitHandler (p : Pit) : Pit := { p with ticks := p.ticks + 1, eois := p.eois + 1 }

/-- The loop of `sleep_ms`. An element of the list is how many ticks were handled between one look
at the counter and the next: one when the timer ends the `hlt`, none when another interrupt does,
more when a tick comes before it. The loop is not over where the list ends. -/
def sleepLoop (finalTicks : UInt64) : Pit → List Nat → Option Pit
  | p, [] => if p.ticks < finalTicks then none else some p
  | p, n :: wakes =>
    if p.ticks < finalTicks then sleepLoop finalTicks (pitHandler^[n] p) wakes else some p

def sleepMs (p : Pit) (ms : UInt64) (wakes : List Nat) : Option Pit :=
  if pitFrequency = 0 then some p
  else
    let currentTicks := p.ticks
    let blockingTicks := safeDiv (ms * pitFrequency) 1000
    let finalTicks := currentTicks + blockingTicks
    sleepLoop finalTicks p wakes

def nsElapsedTime (p : Pit) : UInt64 := p.ticks * 10000000

/-! ## `uacpi_kernel_stall` in `acpi/kernel_api.cpp` -/

def kernelStall (p : Pit) (usec : UInt8) (wakes : List Nat) : Option Pit :=
  if usec = 0 then some p else p.sleepMs (usec.toUInt64 / 1000) wakes

end Pit

end Terrakernel
