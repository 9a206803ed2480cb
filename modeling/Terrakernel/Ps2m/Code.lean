import Mathlib.Tactic.Ring

/-!
# The mouse, as `drivers/input/ps2m/ps2m.cpp` follows it

The handler collects packets of three bytes, and `process_mouse` moves the position by
one. What is drawn is kept as the list of the calls of `draw_mouse_pointer`. The end of
the interrupt and the set-up of the device are left out.
-/

namespace Terrakernel

/-- The screen's size, in C integers. -/
structure Screen where
  width : Int
  height : Int
  width_pos : 0 < width
  width_lt : width < 2 ^ 31
  height_pos : 0 < height
  height_lt : height < 2 ^ 31

structure Position where
  x : Int
  y : Int
  deriving DecidableEq, Repr

/-- The three bytes of `mouse_packet` that are used. -/
structure Packet where
  b0 : UInt8
  b1 : UInt8
  b2 : UInt8
  deriving DecidableEq, Repr

/-- One call of `draw_mouse_pointer`. -/
structure Drawing where
  old : Position
  new : Position
  left : Bool
  middle : Bool
  right : Bool
  deriving DecidableEq, Repr

structure Ps2m where
  skip : Bool
  cycle : Fin 3
  packet : Packet
  packetReady : Bool
  pos : Position
  posOld : Position
  drawn : List Drawing
  deriving DecidableEq, Repr

namespace Ps2m

/-- The statics when the kernel starts. -/
def atBoot : Ps2m where
  skip := true
  cycle := 0
  packet := ⟨0, 0, 0⟩
  packetReady := false
  pos := ⟨0, 0⟩
  posOld := ⟨0, 0⟩
  drawn := []

abbrev ps2Leftbutton : UInt8 := 0b00000001
abbrev ps2Middlebutton : UInt8 := 0b00000100
abbrev ps2Rightbutton : UInt8 := 0b00000010
abbrev ps2XSign : UInt8 := 0b00010000
abbrev ps2YSign : UInt8 := 0b00100000
abbrev ps2XOverflow : UInt8 := 0b01000000
abbrev ps2YOverflow : UInt8 := 0b10000000

/-! ## `process_mouse` -/

/-- A sum kept in a C integer of 32 bits. -/
def int (x : Int) : Int := x.bmod (2 ^ 32)

-- `mouse_packet[1]` is a byte, so `256 - mouse_packet[1]` is 0 when it was 0.
/-- `mouse_packet[1]` and `mouse_pos.x` after the movement. -/
def moveX (b0 b1 : UInt8) (x : Int) : UInt8 × Int :=
  if b0 &&& ps2XSign = 0 then
    let x := int (x + b1.toNat)
    (b1, if b0 &&& ps2XOverflow ≠ 0 then int (x + 255) else x)
  else
    let b1 := UInt8.ofNat (256 - b1.toNat)
    let x := int (x - b1.toNat)
    (b1, if b0 &&& ps2XOverflow ≠ 0 then int (x - 255) else x)

/-- `mouse_packet[2]` and `mouse_pos.y` after the movement. Upwards is positive for the mouse. -/
def moveY (b0 b2 : UInt8) (y : Int) : UInt8 × Int :=
  if b0 &&& ps2YSign = 0 then
    let y := int (y - b2.toNat)
    (b2, if b0 &&& ps2YOverflow ≠ 0 then int (y - 255) else y)
  else
    let b2 := UInt8.ofNat (256 - b2.toNat)
    let y := int (y + b2.toNat)
    (b2, if b0 &&& ps2YOverflow ≠ 0 then int (y + 255) else y)

/-- The two tests that keep a coordinate on the screen. -/
def keepOn (size x : Int) : Int :=
  let x := if x < 0 then 0 else x
  if size < x then size else x

def processMouse (screen : Screen) (s : Ps2m) : Ps2m :=
  if s.packetReady = false then s
  else
    let b0 := s.packet.b0
    let (b1, x) := moveX b0 s.packet.b1 s.pos.x
    let (b2, y) := moveY b0 s.packet.b2 s.pos.y
    let pos : Position := ⟨keepOn screen.width x, keepOn screen.height y⟩
    { s with
      packet := ⟨b0, b1, b2⟩
      packetReady := false
      pos
      posOld := pos
      drawn := s.drawn ++ [
        { old := s.posOld
          new := pos
          left := b0 &&& ps2Leftbutton ≠ 0
          middle := b0 &&& ps2Middlebutton ≠ 0
          right := b0 &&& ps2Rightbutton ≠ 0 }] }

/-! ## The interrupt handler -/

-- A packet that is complete is processed when the next byte comes.
def ps2mInterruptHandler (screen : Screen) (s : Ps2m) (data : UInt8) : Ps2m :=
  let s := s.processMouse screen
  if s.skip then { s with skip := false }
  else
    match s.cycle with
    | 0 =>
      if data &&& 0b00001000 = 0 then s
      else { s with packet := { s.packet with b0 := data }, cycle := 1 }
    | 1 => { s with packet := { s.packet with b1 := data }, cycle := 2 }
    | 2 => { s with packet := { s.packet with b2 := data }, packetReady := true, cycle := 0 }

end Ps2m

end Terrakernel
