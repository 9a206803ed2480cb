import Terrakernel.Lib.Memory

/-!
# The string functions of `libcxx/cstring.cpp`

`strchr`, `strstr` and the two tokenisers, over a flat memory. The null pointer is 0. Each loop
has fuel, and gives nothing when it runs out.
-/

namespace Terrakernel.Libcxx

open Memory

def strchr (m : Mem) : Nat → Nat → Int → Option Nat
  | 0, _, _ => none
  | fuel + 1, str, c =>
    if m str = 0 then some 0
    else if m str = BitVec.ofInt 8 c then some str
    else strchr m fuel (str + 1) c

/-! ## `strstr` -/

-- `while (*h && *n && (*h == *n))`: the pointer `n` behind the loop.
def matchLoop (m : Mem) : Nat → Nat → Nat → Option Nat
  | 0, _, _ => none
  | fuel + 1, h, n =>
    if m h ≠ 0 ∧ m n ≠ 0 ∧ m h = m n then matchLoop m fuel (h + 1) (n + 1) else some n

def strstrLoop (m : Mem) (limit needle : Nat) : Nat → Nat → Option Nat
  | 0, _ => none
  | fuel + 1, haystack =>
    if m haystack = 0 then some 0
    else do
      let n ← matchLoop m limit haystack needle
      if m n = 0 then some haystack else strstrLoop m limit needle fuel (haystack + 1)

def strstr (m : Mem) (fuel haystack needle : Nat) : Option Nat :=
  if m needle = 0 then some haystack else strstrLoop m fuel needle fuel haystack

/-! ## Tokens -/

-- `while (*s && strchr(delim, *s)) s++`, with `!strchr` where `found` is false.
def skip (m : Mem) (limit delim : Nat) (found : Bool) : Nat → Nat → Option Nat
  | 0, _ => none
  | fuel + 1, s =>
    if m s = 0 then some s
    else do
      let at_ ← strchr m limit delim (m s).toInt
      if decide (at_ ≠ 0) = found then skip m limit delim found fuel (s + 1) else some s

/-- The token, the memory and the new value of `next`. -/
def strtok (fuel : Nat) (m : Mem) (str delim next : Nat) : Option (Nat × Mem × Nat) :=
  let next := if str ≠ 0 then str else next
  if next = 0 then some (0, m, next)
  else do
    let start ← skip m fuel delim true fuel next
    if m start = 0 then some (0, m, 0)
    else do
      let stop ← skip m fuel delim false fuel start
      if m stop ≠ 0 then some (start, Function.update m stop 0, stop + 1)
      else some (start, m, 0)

/-- The token, the memory and the new value of `*saveptr`. -/
def strtokR (fuel : Nat) (m : Mem) (str delim saveptr : Nat) : Option (Nat × Mem × Nat) :=
  let saveptr := if str ≠ 0 then str else saveptr
  if saveptr = 0 then some (0, m, saveptr)
  else do
    let s ← skip m fuel delim true fuel saveptr
    if m s = 0 then some (0, m, 0)
    else do
      let token := s
      let s ← skip m fuel delim false fuel s
      if m s = 0 then some (token, m, 0)
      else some (token, Function.update m s 0, s + 1)

end Terrakernel.Libcxx
