import Terrakernel.Lib.Memory
import Terrakernel.Ps2k.Scancodes

/-!
# The line discipline, as `drivers/tty/ldisc/ldisc.cpp` computes it

The keyboard's callback keeps the modes and turns keys into characters, which go to
the buffer of whoever is reading. The buffer is in the machine's memory, and `console`
is what `putchar` was given.
-/

namespace Terrakernel

open Memory Ps2k

structure Ldisc where
  mode : BitVec 32
  readBuf : Nat
  readBufSize : Nat
  readN : Nat
  reading : Bool
  echo : Bool
  mem : Mem
  console : Bytes

namespace Ldisc

/-! ## Modes -/

abbrev modeNormal : BitVec 32 := 0
abbrev modeShift : BitVec 32 := 1
abbrev modeCtrl : BitVec 32 := 2
abbrev modeCaps : BitVec 32 := 4

/-- The statics when the kernel starts. -/
def atBoot (mem : Mem) : Ldisc where
  mode := modeNormal
  readBuf := 0
  readBufSize := 0
  readN := 0
  reading := false
  echo := false
  mem := mem
  console := []

/-! ## `ldisc_qwerty.hpp` and `check_printable` -/

-- From the right shift key on, where the three tables are the same.
def rest : List Char :=
  ['\x00', '*', '\x00', ' '] ++ List.replicate 15 '\x00' ++
    ['7', '8', '9', '-', '4', '5', '6', '+', '1', '2', '3', '0', '.', '\n', '\x00', '/'] ++
    List.replicate 15 '\x00' ++ ['=', '\x00', ',']

def normal : List Char :=
  ['\x00', '\x00', '1', '2', '3', '4', '5', '6', '7', '8', '9', '0', '-', '=', '\x08', '\t', 'q',
   'w', 'e', 'r', 't', 'y', 'u', 'i', 'o', 'p', '[', ']', '\n', '\x00', 'a', 's', 'd', 'f', 'g',
   'h', 'j', 'k', 'l', ';', '\x27', '\x60', '\x00', '\x5c', 'z', 'x', 'c', 'v', 'b', 'n', 'm', ',',
   '.', '/'] ++ rest

def shifted : List Char :=
  ['\x00', '\x00', '!', '@', '#', '$', '%', '^', '&', '*', '(', ')', '_', '+', '\x08', '\t', 'Q',
   'W', 'E', 'R', 'T', 'Y', 'U', 'I', 'O', 'P', '\x7b', '\x7d', '\n', '\x00', 'A', 'S', 'D', 'F',
   'G', 'H', 'J', 'K', 'L', ':', '\x22', '~', '\x00', '|', 'Z', 'X', 'C', 'V', 'B', 'N', 'M', '<',
   '>', '?'] ++ rest

def capsed : List Char :=
  ['\x00', '\x00', '1', '2', '3', '4', '5', '6', '7', '8', '9', '0', '-', '=', '\x08', '\t', 'Q',
   'W', 'E', 'R', 'T', 'Y', 'U', 'I', 'O', 'P', '[', ']', '\n', '\x00', 'A', 'S', 'D', 'F', 'G',
   'H', 'J', 'K', 'L', ';', '\x27', '\x60', '\x00', '\x5c', 'Z', 'X', 'C', 'V', 'B', 'N', 'M', ',',
   '.', '/'] ++ rest

-- What follows the list is zero. No key beyond the array of 118 is printable, so what is read
-- there makes no difference.
def charAt (table : List Char) (kc : UInt16) : Byte := .ofNat 8 (table.getD kc.toNat '\x00').toNat

def printable : List Keycode :=
  [.key1, .key2, .key3, .key4, .key5, .key6, .key7, .key8, .key9, .key0, .keyMinus, .keyEqual,
   .keyBackspace, .keyTab, .keyQ, .keyW, .keyE, .keyR, .keyT, .keyY, .keyU, .keyI, .keyO, .keyP,
   .keyLeftbrace, .keyRightbrace, .keyEnter, .keyA, .keyS, .keyD, .keyF, .keyG, .keyH, .keyJ,
   .keyK, .keyL, .keySemicolon, .keyApostrophe, .keyGrave, .keyBackslash, .keyZ, .keyX, .keyC,
   .keyV, .keyB, .keyN, .keyM, .keyComma, .keyDot, .keySlash, .keyKpasterisk, .keySpace, .keyKp7,
   .keyKp8, .keyKp9, .keyKpminus, .keyKp4, .keyKp5, .keyKp6, .keyKpplus, .keyKp1, .keyKp2,
   .keyKp3, .keyKp0, .keyKpdot, .keyKpenter, .keyKpslash]

def checkPrintable (kc : UInt16) : Bool := printable.any fun k => k.code = kc

/-! ## The buffer of a read -/

def reset (l : Ldisc) : Ldisc :=
  { l with reading := false, readBuf := 0, readBufSize := 0, echo := false }

-- The count wraps at 0 when a backspace comes first.
def push (l : Ldisc) (c : Byte) : Ldisc :=
  if l.reading = false then l
  else if l.readBuf = 0 then l
  else
    let l := if l.readBufSize < l.readN then { l with readN := 0 } else l
    if c = 0x0A then l.reset
    else if c = 0x08 then
      let readN := (l.readN + word - 1) % word
      { l with readN, mem := Function.update l.mem ((l.readBuf + readN) % word) 0 }
    else
      { l with
        mem := Function.update l.mem ((l.readBuf + l.readN) % word) c
        readN := (l.readN + 1) % word }

/-! ## Reading -/

def readDone (l : Ldisc) : Bool := !l.reading

def readCount (l : Ldisc) : Nat := l.readN

/-- A loop that looks until no read is on. Between two looks a character may be pushed; those that
come later are given back. The loop is not over where the characters end. -/
def awaitDone : Ldisc → Bytes → Option (Ldisc × Bytes)
  | l, [] => if l.readDone then some (l, []) else none
  | l, c :: typed => if l.readDone then some (l, c :: typed) else awaitDone (l.push c) typed

def set (l : Ldisc) (echo : Bool) (readBuf readBufSize : Nat) (typed : Bytes) :
    Option (Ldisc × Bytes) :=
  -- Another reader may be at it.
  (l.awaitDone typed).map fun (l, typed) =>
    ({ l with readBuf, readBufSize, readN := 0, reading := true, echo }, typed)

def builtinLdiscRead (l : Ldisc) (echo : Bool) (buf n : Nat) (typed : Bytes) :
    Option (Nat × Ldisc) :=
  if buf = 0 ∨ n = 0 then some (0, l)
  else do
    let (l, typed) ← l.set echo buf n typed
    let (l, _) ← l.awaitDone typed
    return (l.readCount, l.reset)

/-! ## The callback -/

/-- The two keys of a modifier set and clear its bit. -/
def modifier (l : Ldisc) (bit : BitVec 32) (state : KeyState) : Ldisc :=
  if state = .pressed then { l with mode := l.mode ||| bit }
  else { l with mode := l.mode &&& ~~~bit }

/-- The character of a key that is no modifier. -/
def charOf (mode : BitVec 32) (kc : UInt16) : Byte :=
  if mode &&& modeShift ≠ 0 then charAt shifted kc
  else if mode &&& modeCaps ≠ 0 then charAt capsed kc
  else charAt normal kc

def ldiscPs2kEventHandler (l : Ldisc) (ev : KeyEvent) : Ldisc :=
  if ev.keycode = Keycode.keyLeftshift.code ∨ ev.keycode = Keycode.keyRightshift.code then
    l.modifier modeShift ev.state
  else if ev.keycode = Keycode.keyLeftctrl.code ∨ ev.keycode = Keycode.keyRightctrl.code then
    l.modifier modeCtrl ev.state
  else if ev.keycode = Keycode.keyCapslock.code then
    if ev.state = .pressed then { l with mode := l.mode ^^^ modeCaps } else l
  else if ev.state ≠ .pressed then l
  else
    let c := charOf l.mode ev.keycode
    if c ≠ 0 ∧ checkPrintable ev.keycode = true then
      let l := if l.echo then { l with console := l.console ++ [c] } else l
      l.push c
    else l

end Ldisc

end Terrakernel
