import Terrakernel.Tmpfs.Code

/-!
# The initial archive, as `load_initrd` in `tmpfs/tmpfs.cpp` loads it

The archive is in memory `m` of its own, which no call of the file system writes to.
Pointers into it are numbers of 64 bits. A string that is copied to a path is read up
to its terminator, wherever that is, and the path is cut to 255 bytes.
-/

namespace Terrakernel.Tmpfs

open Memory Vmm

abbrev tarBlockSize : Nat := 512

abbrev oWronly : BitVec 32 := 0x1
abbrev oTrunc : BitVec 32 := 0x200

-- The strings of the source.
abbrev initrdName : Bytes := [0x69, 0x6E, 0x69, 0x74, 0x72, 0x64]
abbrev devName : Bytes := [0x64, 0x65, 0x76]
abbrev initrdPath : Bytes := slash :: initrdName
abbrev devInitrdPath : Bytes := slash :: devName ++ initrdPath

/-! ## `struct ustar_header` -/

def bytesAt (m : Mem) (a n : Nat) : Bytes := (List.range n).map fun i => m ((a + i) % word)

-- Of a longer string nothing is used but its first 255 bytes.
def stringAt (m : Mem) (a : Nat) : Bytes := (bytesAt m a 256).takeWhile (· ≠ 0)

def octLoop : Nat → Bytes → Nat
  | res, [] => res
  | res, c :: str =>
    if 0x30 ≤ c ∧ c ≤ 0x37 then octLoop ((res <<< 3 ||| (c.toNat - 0x30)) % word) str else res

def octToSize (str : Bytes) : Nat := octLoop 0 str

def fileSize (m : Mem) (ptr : Nat) : Nat := octToSize (bytesAt m (ptr + 124) 12)

def typeflag (m : Mem) (ptr : Nat) : Byte := m ((ptr + 156) % word)

def emptyBlock (m : Mem) (ptr : Nat) : Bool := (bytesAt m ptr tarBlockSize).all (· = 0)

def nextHeader (m : Mem) (ptr : Nat) : Nat :=
  (ptr + ((fileSize m ptr + tarBlockSize - 1) / tarBlockSize + 1) * tarBlockSize) % word

/-! ## Paths -/

def fullPath (m : Mem) (ptr : Nat) : Bytes :=
  let name := stringAt m ptr
  let path :=
    if m ((ptr + 345) % word) ≠ 0 then initrdPath ++ slash :: (stringAt m (ptr + 345) ++ slash :: name)
    else initrdPath ++ slash :: name
  path.take 255

/-- The loop that drops `.` and repeated slashes. `..` stays. -/
def cleanLoop : Byte → Bytes → Bytes
  | _, [] => []
  | prev, c :: src =>
    if c = slash then
      if prev ≠ slash then slash :: cleanLoop slash src else cleanLoop prev src
    else if c = 0x2E ∧ (prev = slash ∨ prev = 0) ∧ (src.head? = some slash ∨ src = []) then
      match src with
      | [] => []
      | _ :: src => cleanLoop prev src
    else c :: cleanLoop c src

def cleanPath (m : Mem) (ptr : Nat) : Bytes := cleanLoop 0 (fullPath m ptr)

/-- `mkdir` for each slash in `rest`, with what stands before it. -/
def mkdirParents : Bytes → Bytes → Fs → Option Fs
  | _, [], fs => some fs
  | before, c :: rest, fs => do
    let fs ← (if c = slash then (mkdir fs (some before) 0o755).map Prod.snd else some fs)
    mkdirParents (before ++ [c]) rest fs

/-! ## `load_initrd` -/

/-- The data of a file, if it has any, and `close`. -/
def writeAndClose (fs : Fs) (fd : Int) (data : Bytes) : Option Fs := do
  let fs ← (if 0 < data.length then (write fs fd data).map Prod.snd else some fs)
  (close fs fd).map Prod.snd

/-- A regular file. The path is looked up once more for the log. -/
def loadFile (m : Mem) (ptr : Nat) (path : Bytes) (fs : Fs) : Option Fs := do
  let fs ← mkdirParents (path.take 1) (path.drop 1) fs
  let (fd, fs) ← Tmpfs.open fs (some path) (oCreat ||| oWronly ||| oTrunc) 0o644 none
  let _ ← resolvePath fs (some path)
  if 0 ≤ fd then writeAndClose fs fd (bytesAt m (ptr + tarBlockSize) (fileSize m ptr))
  else some fs

def loadEntry (m : Mem) (ptr : Nat) (fs : Fs) : Option Fs :=
  if stringAt m ptr = dot ∨ stringAt m ptr = dotdot then some fs
  else if typeflag m ptr = 0x35 then (mkdir fs (some (cleanPath m ptr)) 0o755).map Prod.snd
  else if typeflag m ptr = 0x30 ∨ typeflag m ptr = 0 then loadFile m ptr (cleanPath m ptr) fs
  else some fs

-- There are no more headers than addresses, so a loop that is not over then never is.
def loadLoop (m : Mem) (fin : Nat) : Nat → Nat → Fs → Option Fs
  | 0, _, _ => none
  | fuel + 1, ptr, fs =>
    if fin < (ptr + tarBlockSize) % word then some fs
    else if emptyBlock m ptr then some fs
    else do
      let fs ← loadEntry m ptr fs
      loadLoop m fin fuel (nextHeader m ptr) fs

def loadInitrd (m : Mem) (base size : Nat) (fs : Fs) : Option Fs := do
  let (_, fs) ← mkdir fs (some initrdPath) 0o755
  let fs ← loadLoop m ((base + size) % word) word base fs
  let (devFd, fs) ←
    Tmpfs.open fs (some devInitrdPath) (oCreat ||| oBuiltinDeviceFile) 0o644 (some initrdPath)
  if 0 ≤ devFd then (close fs devFd).map Prod.snd else some fs

end Terrakernel.Tmpfs
