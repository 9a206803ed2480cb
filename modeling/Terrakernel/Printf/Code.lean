import Terrakernel.Lib.Memory

/-!
# Formatted output (`drivers/serial/printf.c`)

The characters that `_vsnprintf` hands to its output function, one after the other, and what
`_out_buffer` does with them. Format and strings are lists of bytes, so the buffer must not
overlap them. A format that ends inside a specifier gives `none`, since the code then reads behind
it, and so does a missing argument. Floating point is switched off in the source.
-/

namespace Terrakernel.Printf

open Memory

def ch (c : Char) : Byte := .ofNat 8 c.toNat

-- `ll` sets `FLAGS_LONG` too, and `_ntoa_long_long` has the body of `_ntoa_long`.
structure Flags where
  (zeropad left plus space hash uppercase char short long precision : Bool := false)

/-! ## Integers -/

def ntoaBufferSize : Nat := 32

def spaces (n : Nat) : Bytes := List.replicate n (ch ' ')

-- `buf` is the part of the array below `len`.
def outRev (buf : Bytes) (width : Nat) (flags : Flags) : Bytes :=
  (if !flags.left && !flags.zeropad then spaces (width - buf.length) else []) ++ buf.reverse ++
    if flags.left then spaces (width - buf.length) else []

/-- `if (len < PRINTF_NTOA_BUFFER_SIZE) buf[len++] = c`. -/
def appendChar (buf : Bytes) (c : Byte) : Bytes :=
  if buf.length < ntoaBufferSize then buf ++ [c] else buf

-- The loops that pad with zeros, by their rounds.
def padZeros (limit : Nat) : Nat → Bytes → Bytes
  | 0, buf => buf
  | rounds + 1, buf =>
    if buf.length < limit then padZeros limit rounds (appendChar buf (ch '0')) else buf

def padNumber (buf : Bytes) (prec width : Nat) (flags : Flags) : Bytes :=
  if flags.left then buf
  else
    let buf := padZeros prec ntoaBufferSize buf
    if flags.zeropad then padZeros width ntoaBufferSize buf else buf

def handleHash (buf : Bytes) (base prec width : Nat) (flags : Flags) : Bytes :=
  let buf :=
    if !flags.precision ∧ buf ≠ [] ∧ (buf.length = prec ∨ buf.length = width) then
      if base = 16 then buf.dropLast.dropLast else buf.dropLast
    else buf
  let buf :=
    if base = 16 then appendChar buf (ch (if flags.uppercase then 'X' else 'x'))
    else if base = 2 then appendChar buf (ch 'b')
    else buf
  appendChar buf (ch '0')

def signChar (negative : Bool) (flags : Flags) : Option Byte :=
  if negative then some (ch '-') else if flags.plus then some (ch '+')
  else if flags.space then some (ch ' ') else none

def ntoaFormat (buf : Bytes) (negative : Bool) (base prec width : Nat) (flags : Flags) :
    Bytes :=
  let width :=
    if !flags.left ∧ flags.zeropad ∧ (signChar negative flags).isSome then width - 1 else width
  let buf := padNumber buf prec width flags
  let buf := if flags.hash then handleHash buf base prec width flags else buf
  outRev ((signChar negative flags).toList.foldl appendChar buf) width flags

def digitChar (uppercase : Bool) (digit : Nat) : Byte :=
  if digit < 10 then ch '0' + .ofNat 8 digit
  else ch (if uppercase then 'A' else 'a') + .ofNat 8 digit - 10

-- The `do` loop, by the room that is left in the array.
def digits (uppercase : Bool) (base : Nat) : Nat → Nat → Bytes
  | 0, _ => []
  | room + 1, value =>
    digitChar uppercase (value % base) ::
      if value / base = 0 then [] else digits uppercase base room (value / base)

def ntoaLong (value : Nat) (negative : Bool) (base prec width : Nat) (flags : Flags) : Bytes :=
  let flags := if value = 0 then { flags with hash := false } else flags
  let buf :=
    if !flags.precision ∨ value ≠ 0 then digits flags.uppercase base ntoaBufferSize value else []
  ntoaFormat buf negative base prec width flags

/-! ## The fields of a format specifier -/

/-- A word, and the string that it points to if it is the argument of `%s`. -/
structure Arg where
  word : BitVec 64
  string : Bytes

/-- `va_arg(va, int)`. -/
def Arg.int (a : Arg) : Int := (a.word.setWidth 32).toInt

def isDigit (c : Byte) : Bool := ch '0' ≤ c ∧ c ≤ ch '9'

def atoi (i : Nat) : Bytes → Nat × Bytes
  | [] => (i, [])
  | c :: l => if isDigit c then atoi ((i * 10 + (c - ch '0').toNat) % 2 ^ 32) l else (i, c :: l)

def flagOf (flags : Flags) (c : Byte) : Option Flags :=
  if c = ch '0' then some { flags with zeropad := true }
  else if c = ch '-' then some { flags with left := true }
  else if c = ch '+' then some { flags with plus := true }
  else if c = ch ' ' then some { flags with space := true }
  else if c = ch '#' then some { flags with hash := true }
  else none

def evaluateFlags (flags : Flags) : Bytes → Flags × Bytes
  | [] => (flags, [])
  | c :: l =>
    match flagOf flags c with
    | some flags => evaluateFlags flags l
    | none => (flags, c :: l)

/-- A width or precision: a number, `*` for the next argument, or nothing. -/
def evaluateNumber (l : Bytes) (args : List Arg) : Option (Int × Bytes × List Arg) :=
  if l.head? = some (ch '*') then args.head?.map fun a => (a.int, l.tail, args.tail)
  else some ((atoi 0 l).1, (atoi 0 l).2, args)

-- `ptrdiff_t`, `intmax_t` and `size_t` are as wide as `long`.
def evaluateLength (flags : Flags) : Bytes → Flags × Bytes
  | [] => (flags, [])
  | c :: l =>
    if c = ch 'h' then
      if l.head? = some c then ({ flags with short := true, char := true }, l.tail)
      else ({ flags with short := true }, l)
    else if c = ch 'l' then ({ flags with long := true }, if l.head? = some c then l.tail else l)
    else if c = ch 't' ∨ c = ch 'j' ∨ c = ch 'z' then ({ flags with long := true }, l)
    else (flags, c :: l)

/-! ## The specifier -/

def isSigned (c : Byte) : Bool := c = ch 'i' ∨ c = ch 'd'

def baseOf (c : Byte) : Nat :=
  if c = ch 'x' ∨ c = ch 'X' then 16 else if c = ch 'o' then 8 else if c = ch 'b' then 2 else 10

def integerFlags (c : Byte) (flags : Flags) : Flags :=
  { flags with
    hash := flags.hash && baseOf c != 10
    uppercase := flags.uppercase || c = ch 'X'
    plus := flags.plus && isSigned c
    space := flags.space && isSigned c
    zeropad := flags.zeropad && !flags.precision }

/-- The argument of an integer specifier. -/
def valueOf (c : Byte) (flags : Flags) (w : BitVec 64) : Int :=
  let bits := if flags.long then 64 else if flags.char then 8 else if flags.short then 16 else 32
  if isSigned c then (w.setWidth bits).toInt else (w.setWidth bits).toNat

def outInteger (c : Byte) (flags : Flags) (width precision : Nat) (w : BitVec 64) : Bytes :=
  let value := valueOf c flags w
  ntoaLong value.natAbs (value < 0) (baseOf c) precision width (integerFlags c flags)

/-- The loops around a character or a string; `l` is an `unsigned int`. -/
def outText (flags : Flags) (width : Nat) (text : Bytes) : Bytes :=
  let padding := spaces (width - text.length % 2 ^ 32)
  if flags.left then text ++ padding else padding ++ text

/-- The switch over the specifier `c`. -/
def evaluateSpecifier (c : Byte) (flags : Flags) (width precision : Nat) (args : List Arg) :
    Option (Bytes × List Arg) :=
  if !("diuxXobcsp".toList.map ch).contains c then some ([c], args)
  else
    match args with
    | [] => none
    | a :: args =>
      if c = ch 'c' then some (outText flags width [a.word.setWidth 8], args)
      else if c = ch 's' then
        let text := if flags.precision then a.string.take precision else a.string
        some (outText flags width text, args)
      else if c = ch 'p' then
        let flags := { flags with zeropad := true, uppercase := true }
        some (ntoaLong a.word.toNat false 16 precision 16 flags, args)
      else some (outInteger c flags width precision a.word, args)

/-- One specifier, from the byte behind `%` on: its characters, and what is left. -/
def directive (l : Bytes) (args : List Arg) : Option (Bytes × Bytes × List Arg) := do
  let (flags, l) := evaluateFlags {} l
  let (width, l, args) ← evaluateNumber l args
  let given : Bool := l.head? = some (ch '.')
  let (precision, l, args) ← if given then evaluateNumber l.tail args else some (0, l, args)
  let flags := { flags with left := flags.left || width < 0, precision := given }
  let (flags, l) := evaluateLength flags l
  let (out, args) ← evaluateSpecifier (← l.head?) flags width.natAbs precision.toNat args
  some (out, l.tail, args)

def formatLoop : Nat → Bytes → List Arg → Option Bytes
  | _, [], _ => some []
  | 0, _ :: _, _ => none
  | fuel + 1, c :: l, args =>
    if c ≠ ch '%' then (formatLoop fuel l args).map (c :: ·)
    else do
      let (out, l, args) ← directive l args
      (formatLoop fuel l args).map (out ++ ·)

/-- All characters of the format; each round takes one byte of it at least. -/
def text (format : Bytes) (args : List Arg) : Option Bytes :=
  formatLoop format.length format args

/-! ## A buffer -/

def outBuffer (character : Byte) (buffer idx maxlen : Nat) (m : Mem) : Mem :=
  if idx < maxlen then Function.update m (buffer + idx) character else m

def vsnprintf (buffer count : Nat) (format : Bytes) (args : List Arg) (m : Mem) :
    Option (Int × Mem) := do
  -- A null buffer has the output function `_out_null`.
  let out := if buffer = 0 then fun _ _ _ _ m => m else outBuffer
  let t ← text format args
  let m := t.zipIdx.foldl (fun m c => out c.1 buffer c.2 count m) m
  -- `maxlen - 1U` wraps for an empty buffer.
  let last := if t.length < count then t.length else (count + 2 ^ 64 - 1) % 2 ^ 64
  some ((BitVec.ofNat 32 t.length).toInt, out 0 buffer last count m)

end Terrakernel.Printf
