import Mathlib.Logic.Function.Basic
import Terrakernel.Vmm.DirectMap

/-!
# Key events, as `drivers/input/ps2k/ps2k.cpp` keeps them

The driver has one buffer of events. The rest of the kernel is seen through the
callback alone: `call` says what the function at an address does to it.
-/

namespace Terrakernel.Ps2k

inductive KeyState where
  | released
  | pressed
  deriving DecidableEq, Repr, Inhabited

structure KeyEvent where
  keycode : UInt16
  state : KeyState
  timestamp : UInt64
  deriving DecidableEq, Repr, Inhabited

-- `sizeof(key_event)`, with the padding before the timestamp.
abbrev keyEventSize : Nat := 16

abbrev eInval : Int := 28

/-- `callback` is null when it is 0. -/
structure EventBuffer where
  events : Nat → KeyEvent
  capacity : Nat
  head : Nat
  tail : Nat
  count : Nat
  dropEvents : Bool
  callback : Nat
  callbackUserdata : Nat

/-- What `initialise` leaves, once it has memory for the events. -/
def initialised (events : Nat → KeyEvent) (capacity : Nat) (dropEvents : Bool) : EventBuffer where
  events := events
  capacity := capacity
  head := 0
  tail := 0
  count := 0
  dropEvents := dropEvents
  callback := 0
  callbackUserdata := 0

def bufferIsEmpty (buf : EventBuffer) : Bool := buf.count = 0

def bufferIsFull (buf : EventBuffer) : Bool := buf.capacity ≤ buf.count

def flushEvents (buf : EventBuffer) : EventBuffer := { buf with head := 0, tail := 0, count := 0 }

section Push

variable {σ : Type} (call : Nat → KeyEvent → Nat → σ → σ)

/-- The second half of `buffer_push`, once there is room. -/
def bufferStore (buf : EventBuffer) (world : σ) (ev : KeyEvent) : EventBuffer × σ :=
  let buf := { buf with
    events := Function.update buf.events buf.tail ev
    tail := (buf.tail + 1) % word % buf.capacity
    count := (buf.count + 1) % word }
  (buf, if buf.callback ≠ 0 then call buf.callback ev buf.callbackUserdata world else world)

def bufferPush (buf : EventBuffer) (world : σ) (ev : KeyEvent) : Bool × EventBuffer × σ :=
  if bufferIsFull buf then
    if buf.dropEvents then (false, buf, world)
    else (true, bufferStore call (flushEvents buf) world ev)
  else (true, bufferStore call buf world ev)

end Push

/-- The event, if `buffer_pop` returns true. -/
def bufferPop (buf : EventBuffer) : Option (KeyEvent × EventBuffer) :=
  if bufferIsEmpty buf then none
  else some (buf.events buf.head,
    { buf with head := (buf.head + 1) % word % buf.capacity, count := buf.count - 1 })

def read (buf : EventBuffer) : Option KeyEvent × EventBuffer :=
  match bufferPop buf with
  | none => (none, buf)
  | some (ev, buf) => (some ev, buf)

/-- The loop of `read_events` and `ps2k_read`: at most so many events, in an array. -/
def popLoop : Nat → EventBuffer → List KeyEvent × EventBuffer
  | 0, buf => ([], buf)
  | left + 1, buf =>
    match bufferPop buf with
    | none => ([], buf)
    | some (ev, buf) =>
      let (evs, buf) := popLoop left buf
      (ev :: evs, buf)

def readEvents (buf : EventBuffer) (maxEvents : Nat) : Nat × List KeyEvent × EventBuffer :=
  let (evs, buf) := popLoop maxEvents buf
  (evs.length, evs, buf)

def ps2kRead (buf : EventBuffer) (count : Nat) : Int × List KeyEvent × EventBuffer :=
  if count < keyEventSize then (-eInval, [], buf)
  else
    let (evs, buf) := popLoop (count / keyEventSize) buf
    ((evs.length * keyEventSize : Nat), evs, buf)

def availableEvents (buf : EventBuffer) : Nat := buf.count

/-- `arg` says whether the caller gave a place for the answer, which is the second component. -/
def ps2kIoctl (buf : EventBuffer) (request : Nat) (arg : Bool) :
    Int × Option Nat × EventBuffer :=
  if request = 0x1000 then
    if arg then (0, some buf.count, buf) else (-eInval, none, buf)
  else if request = 0x1001 then (0, none, flushEvents buf)
  else (-eInval, none, buf)

def setEventCallback (buf : EventBuffer) (callback userdata : Nat) : EventBuffer :=
  { buf with callback, callbackUserdata := userdata }

def clearEventCallback (buf : EventBuffer) : EventBuffer :=
  { buf with callback := 0, callbackUserdata := 0 }

end Terrakernel.Ps2k
