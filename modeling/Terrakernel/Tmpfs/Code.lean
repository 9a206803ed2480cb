import Terrakernel.Heap.Code
import Terrakernel.Lib.Links

/-!
# The file system in memory, as `tmpfs/tmpfs.cpp` computes it

A node lives in a block of the heap and is known by its address; the null pointer
is 0. Its fields are kept in a record at that address and the bytes of files are
in the heap's memory. A walk that never ends, and an access the processor does not
make, is `none`.
-/

namespace Terrakernel

open Memory Mem Vmm Links

/-! ## `struct node_struct`, `struct filedesc` and the statics -/

structure Node where
  name : Bytes
  isDir : Bool
  isSymlink : Bool
  firstChild : Nat
  nextSibling : Nat
  parent : Nat
  content : Nat
  size : Nat
  mode : Nat
  uid : Nat
  gid : Nat
  refcount : Int
  isdev : Bool
  devpath : Bytes
  deriving DecidableEq, Repr, Inhabited

structure Filedesc where
  fd : Nat
  node : Nat
  offset : BitVec 64
  flags : BitVec 32
  mode : Nat
  isDirent : Bool
  free : Bool
  deriving DecidableEq, Repr, Inhabited

/-- The records of the nodes and the table stand beside the bytes of the heap. The blocks of nodes and
of contents are different blocks in use (`Owns`), so no store to one reaches another
(`Held.record_apart`). The record of a
node that was given back stays as it was, and so do its bytes until the block is used again; a store
after that does not reach the record here. -/
structure Fs where
  heap : Heap
  nodes : Nat → Node
  root : Nat
  cwd : Nat
  fds : Fin 256 → Filedesc
  console : Bytes

def Fs.setNode (fs : Fs) (n : Nat) (f : Node → Node) : Fs :=
  { fs with nodes := Function.update fs.nodes n (f (fs.nodes n)) }

def Fs.setFd (fs : Fs) (i : Fin 256) (f : Filedesc → Filedesc) : Fs :=
  { fs with fds := Function.update fs.fds i (f (fs.fds i)) }

namespace Tmpfs

-- `sizeof(node_struct)`.
abbrev nodeSize : Nat := 456

abbrev oCreat : BitVec 32 := 0x40
abbrev oBuiltinDeviceFile : BitVec 32 := 0x80000000

/-! ## Strings -/

-- A string is the bytes before its terminator.
abbrev slash : Byte := 0x2F
abbrev dot : Bytes := [0x2E]
abbrev dotdot : Bytes := [0x2E, 0x2E]

/-- The components of a path. -/
abbrev Names := List Bytes

/-- A `const char*`, which may be null. -/
abbrev Path := Option Bytes

/-- `strtok_r` with the delimiter `/`: the token and what is left. `strtok` is the same loop. -/
def strtok (s : Bytes) : Option (Bytes × Bytes) :=
  let start := s.dropWhile (· = slash)
  if start = [] then none
  else some (start.takeWhile (· ≠ slash), (start.dropWhile (· ≠ slash)).tail)

/-- The tokens of one call after another. -/
def tokenLoop : Nat → Bytes → Names
  | 0, _ => []
  | fuel + 1, s =>
    match strtok s with
    | none => []
    | some (token, rest) => token :: tokenLoop fuel rest

/-- The tokens of a path, which is cut to the 511 bytes of `tmp`. -/
def tokens (path : Bytes) : Names := tokenLoop 512 (path.take 511)

/-! ## Walks along the siblings -/

def findChild (nodes : Nat → Node) (token : Bytes) (child : Nat) : Option Nat :=
  seek (fun n => (nodes n).nextSibling) (fun n => n = 0 || (nodes n).name = token) word child

def lastSibling (nodes : Nat → Node) (s : Nat) : Option Nat :=
  seek (fun n => (nodes n).nextSibling) (fun n => (nodes n).nextSibling = 0) word s

def siblingBefore (nodes : Nat → Node) (n s : Nat) : Option Nat :=
  seek (fun n => (nodes n).nextSibling) (fun s => s = 0 || (nodes s).nextSibling = n) word s

/-! ## Paths -/

-- `if (curr->parent) curr = curr->parent;`
def up (nodes : Nat → Node) (curr : Nat) : Nat :=
  if (nodes curr).parent ≠ 0 then (nodes curr).parent else curr

def newNode (name : Bytes) (parent : Nat) (isDir : Bool) (mode : Nat) : Node where
  name := name.take 127
  isDir := isDir
  isSymlink := false
  firstChild := 0
  nextSibling := 0
  parent := parent
  content := 0
  size := 0
  mode := mode
  uid := 0
  gid := 0
  refcount := 1
  isdev := false
  devpath := []

/-- The new node goes to the end of its parent's list. -/
def appendChild (fs : Fs) (curr child : Nat) : Option Fs :=
  if (fs.nodes curr).firstChild = 0 then
    some (fs.setNode curr fun n => { n with firstChild := child })
  else do
    let s ← lastSibling fs.nodes (fs.nodes curr).firstChild
    some (fs.setNode s fun n => { n with nextSibling := child })

/-- A null child is an allocation that failed. -/
def addChild (fs : Fs) (curr : Nat) (token : Bytes) (isDir : Bool) (mode : Nat) :
    Option (Nat × Fs) := do
  let (child, heap) ← fs.heap.malloc nodeSize
  if child = 0 then some (0, { fs with heap })
  else
    let fs := { fs with heap }.setNode child fun _ => newNode token curr isDir mode
    let fs ← appendChild fs curr child
    some (child, fs)

def createLoop (isDir : Bool) (mode : Nat) : Fs → Nat → Names → Option (Nat × Fs)
  | fs, curr, [] => some (curr, fs)
  | fs, curr, token :: rest =>
    if token = dot then createLoop isDir mode fs curr rest
    else if token = dotdot then createLoop isDir mode fs (up fs.nodes curr) rest
    else do
      let child ← findChild fs.nodes token (fs.nodes curr).firstChild
      if child ≠ 0 then createLoop isDir mode fs child rest
      else
        let last := rest.isEmpty
        let (child, fs) ← addChild fs curr token (if last then isDir else true)
          (if last then mode else 0o755)
        if child = 0 then some (0, fs) else createLoop isDir mode fs child rest

def startOf (fs : Fs) (base : Nat) (path : Bytes) : Nat :=
  if path.head? = some slash then fs.root else base

def createAtPathInternal (fs : Fs) (base : Nat) (path : Path) (isDir : Bool) (mode : Nat) :
    Option (Nat × Fs) :=
  match path with
  | none => some (0, fs)
  | some path =>
    if base = 0 ∨ path = [] then some (0, fs)
    else createLoop isDir mode fs (startOf fs base path) (tokens path)

def createAtPath (fs : Fs) (path : Path) (isDir : Bool) (mode : Nat) : Option (Nat × Fs) :=
  createAtPathInternal fs fs.cwd path isDir mode

def resolveLoop (nodes : Nat → Node) : Nat → Names → Option Nat
  | curr, [] => some curr
  | curr, token :: rest =>
    if token = dot then resolveLoop nodes curr rest
    else if token = dotdot then resolveLoop nodes (up nodes curr) rest
    else do
      let child ← findChild nodes token (nodes curr).firstChild
      if child = 0 then some 0 else resolveLoop nodes child rest

def resolvePathInternal (fs : Fs) (base : Nat) (path : Path) : Option Nat :=
  match path with
  | none => some 0
  | some path =>
    if base = 0 then some 0 else resolveLoop fs.nodes (startOf fs base path) (tokens path)

def resolvePath (fs : Fs) (path : Path) : Option Nat := resolvePathInternal fs fs.cwd path

/-! ## Nodes and descriptors -/

-- The fields not set here keep what the block's memory had.
def initialise (fs : Fs) : Option Fs := do
  let fds := fun i : Fin 256 => { fs.fds i with fd := i, free := true, node := 0 }
  let (root, heap) ← fs.heap.malloc nodeSize
  if root = 0 then none
  else
    let fs := { fs with heap, fds, root, cwd := root }
    some (fs.setNode root fun n =>
      { n with
        name := [slash], isDir := true, isSymlink := false, firstChild := 0, nextSibling := 0,
        parent := 0, content := 0, size := 0, mode := 0o755, uid := 0, gid := 0, refcount := 1 })

def allocFd (fs : Fs) : Option (Fin 256 × Fs) := do
  let i ← (List.finRange 256).find? fun i => (fs.fds i).free
  some (i, fs.setFd i fun f =>
    { f with free := false, offset := 0, node := 0, flags := 0, mode := 0, fd := i })

-- `n->name` is the first field, so its address is the node's own.
def freeNode (fs : Fs) (n : Nat) : Option Fs :=
  if n = 0 then some fs
  else
    let fs := fs.setNode n fun n => { n with refcount := n.refcount - 1 }
    if 0 < (fs.nodes n).refcount then some fs
    else do
      let content := (fs.nodes n).content
      let heap ← (if content ≠ 0 then fs.heap.free content else some fs.heap)
      let heap ← heap.free n
      let heap ← heap.free n
      some { fs with heap }

/-- `if (fd < 0 || fd >= 256) return -1;` -/
def entryOf (fd : Int) : Option (Fin 256) :=
  if h : 0 ≤ fd ∧ fd < 256 then some ⟨fd.toNat, by omega⟩ else none

/-! ## Directories -/

def mkdir (fs : Fs) (path : Path) (mode : Nat) : Option (Int × Fs) := do
  let (n, fs) ← createAtPath fs path true mode
  if n = 0 then some (-1, fs)
  else
    some (0, fs.setNode n fun n =>
      { n with isDir := true, firstChild := 0, nextSibling := 0, content := 0, size := 0, mode })

/-- A node is taken out of its parent's list, as `rmdir` and `unlink` do it. -/
def detach (fs : Fs) (parent n : Nat) : Option Fs :=
  if (fs.nodes parent).firstChild = n then
    some (fs.setNode parent fun p => { p with firstChild := (fs.nodes n).nextSibling })
  else do
    let s ← siblingBefore fs.nodes n (fs.nodes parent).firstChild
    if s = 0 then some fs
    else some (fs.setNode s fun s => { s with nextSibling := (fs.nodes n).nextSibling })

/-- `rmdir` and `unlink` from the test of the parent on. -/
def remove (fs : Fs) (n : Nat) : Option (Int × Fs) :=
  let parent := (fs.nodes n).parent
  if parent = 0 then some (-1, fs)
  else do
    let fs ← detach fs parent n
    let fs ← freeNode fs n
    some (0, fs)

def rmdir (fs : Fs) (path : Path) : Option (Int × Fs) := do
  let n ← resolvePath fs path
  if n = 0 ∨ (fs.nodes n).isDir = false ∨ (fs.nodes n).firstChild ≠ 0 then some (-1, fs)
  else remove fs n

def unlink (fs : Fs) (path : Path) : Option (Int × Fs) := do
  let n ← resolvePath fs path
  if n = 0 ∨ (fs.nodes n).isDir = true then some (-1, fs)
  else remove fs n

def chdir (fs : Fs) (path : Path) : Option (Int × Fs) :=
  match path with
  | none => none
  | some p =>
    if p = [slash] then some (0, { fs with cwd := fs.root })
    else do
      let n ← resolvePath fs path
      if n = 0 then some (-1, fs) else some (0, { fs with cwd := n })

/-- The directory of `mkdirat` and `openat`: that of the descriptor, if it is open. -/
def dirOf (fs : Fs) (dirfd : Int) : Nat :=
  match entryOf dirfd with
  | none => fs.cwd
  | some i => if (fs.fds i).node ≠ 0 then (fs.fds i).node else fs.cwd

def mkdirat (fs : Fs) (dirfd : Int) (path : Path) (mode : Nat) : Option (Int × Fs) := do
  let saved := fs.cwd
  let (r, fs) ← mkdir { fs with cwd := dirOf fs dirfd } path mode
  some (r, { fs with cwd := saved })

/-! ## Descriptors -/

/-- The second half of `open`, on the node that was found or made. -/
def openNode (fs : Fs) (n : Nat) (flags : BitVec 32) (mode : Nat) : Int × Fs :=
  if n = 0 then (-3, fs)
  else
    match allocFd fs with
    | none => (-4, fs)
    | some (fd, fs) =>
      let fs := fs.setFd fd fun f =>
        { f with node := n, flags, mode, offset := 0, isDirent := (fs.nodes n).isDir }
      (fd, fs.setNode n fun n => { n with refcount := n.refcount + 1 })

/-- `if (flags & O_BUILTIN_DEVICE_FILE)`: without a device path the copy reads from null. -/
def makeDevice (fs : Fs) (n : Nat) (flags : BitVec 32) (devpath : Path) : Option Fs :=
  if flags &&& oBuiltinDeviceFile = 0 then some fs
  else
    devpath.map fun d => fs.setNode n fun n => { n with isdev := true, devpath := d.take 255 }

def «open» (fs : Fs) (path : Path) (flags : BitVec 32) (mode : Nat) (devpath : Path) :
    Option (Int × Fs) :=
  if path = none then some (-1, fs)
  else do
    let n ← resolvePath fs path
    if n = 0 ∧ flags &&& oCreat ≠ 0 then
      let (n, fs) ← createAtPath fs path false mode
      if n = 0 then some (-2, fs)
      else
        let fs ← makeDevice fs n flags devpath
        some (openNode fs n flags mode)
    else some (openNode fs n flags mode)

def openat (fs : Fs) (dirfd : Int) (path : Path) (flags : BitVec 32) (mode : Nat) :
    Option (Int × Fs) := do
  let saved := fs.cwd
  let (fd, fs) ← Tmpfs.open { fs with cwd := dirOf fs dirfd } path flags mode none
  some (fd, { fs with cwd := saved })

def close (fs : Fs) (fd : Int) : Option (Int × Fs) :=
  match entryOf fd with
  | none => some (-1, fs)
  | some i => do
    let fs ← freeNode fs (fs.fds i).node
    some (0, fs.setFd i fun f => { f with node := 0, free := true })

/-! ## Bytes -/

/-- The processor makes no access outside the two halves of its address space. -/
def accessible (a n : Nat) : Bool := a + n ≤ 2 ^ 47 || (directBase ≤ a && a + n ≤ word)

/-- `!f->node || f->node->is_dir || f->node->is_symlink` -/
def notFile (fs : Fs) (f : Filedesc) : Bool :=
  f.node = 0 || (fs.nodes f.node).isDir || (fs.nodes f.node).isSymlink

/-- The value, what is stored from `buf` on, and the state. -/
def read (fs : Fs) (fd : Int) (buf count : Nat) : Option (Int × Bytes × Fs) :=
  match entryOf fd with
  | none => some (-1, [], fs)
  | some i =>
    let f := fs.fds i
    if notFile fs f then some (-1, [], fs)
    else
      let rem := ((fs.nodes f.node).size + word - f.offset.toNat) % word
      let toRead := if count < rem then count else rem
      let src := ((fs.nodes f.node).content + f.offset.toNat) % word
      if 0 < toRead ∧ accessible src toRead = false then none
      else
        let bytes := (List.range toRead).map fun k => fs.heap.mem (src + k)
        let stored := bytes ++ if buf ≠ 0 then [0] else []
        some ((BitVec.ofNat 64 toRead).toInt, stored,
          fs.setFd i fun f => { f with offset := f.offset + BitVec.ofNat 64 toRead })

/-- The memory after the bytes of `buf` were copied to `dest`. -/
def putBytes (m : Mem) (dest : Nat) : Bytes → Mem
  | [] => m
  | b :: bs => putBytes (Function.update m dest b) (dest + 1) bs

-- `content` is null only before the first write. A block that could not be made stays null, and
-- then the bytes go to the addresses from the offset on.
def grow (heap : Heap) (content newSize : Nat) : Option (Nat × Heap) :=
  if content = 0 then heap.malloc newSize else heap.realloc content newSize

/-- `count` is the length of `buf`. -/
def write (fs : Fs) (fd : Int) (buf : Bytes) : Option (Int × Fs) :=
  match entryOf fd with
  | none => some (-1, fs)
  | some i =>
    let f := fs.fds i
    if notFile fs f then some (-1, fs)
    else do
      let newOffset := f.offset + BitVec.ofNat 64 buf.length
      let content := (fs.nodes f.node).content
      let (tmp, heap) ← grow fs.heap content newOffset.toNat
      if tmp = 0 ∧ content ≠ 0 then some (-1, { fs with heap })
      else
        let dest := (tmp + f.offset.toNat) % word
        if 0 < buf.length ∧ accessible dest buf.length = false then none
        else
          let heap := { heap with mem := putBytes heap.mem dest buf }
          let fs := { fs with heap }.setNode f.node fun n =>
            { n with content := tmp, size := max n.size newOffset.toNat }
          let fs := fs.setFd i fun f => { f with offset := newOffset }
          let console := if fd = 1 ∨ fd = 2 then fs.console ++ buf else fs.console
          some ((BitVec.ofNat 64 buf.length).toInt, { fs with console })

def lseek (fs : Fs) (fd : Int) (offset : BitVec 64) (whence : Int) : Int × Fs :=
  match entryOf fd with
  | none => (-1, fs)
  | some i =>
    let f := fs.fds i
    if f.node = 0 then (-1, fs)
    else
      let newOffset :=
        if whence = 0 then some offset
        else if whence = 1 then some (f.offset + offset)
        else if whence = 2 then some (BitVec.ofNat 64 (fs.nodes f.node).size + offset)
        else none
      match newOffset with
      | none => (-1, fs)
      | some newOffset =>
        if newOffset.toInt < 0 then (-1, fs)
        else (newOffset.toInt, fs.setFd i fun f => { f with offset := newOffset })

-- An entry outside the table is read and written back as it was.
def pread (fs : Fs) (fd : Int) (buf count : Nat) (offset : BitVec 64) :
    Option (Int × Bytes × Fs) :=
  match entryOf fd with
  | none => some (-1, [], fs)
  | some i => do
    let orig := (fs.fds i).offset
    let (_, fs) := lseek fs fd offset 0
    let (ret, stored, fs) ← read fs fd buf count
    some (ret, stored, fs.setFd i fun f => { f with offset := orig })

-- The sizes are compared as unsigned numbers, and the offset with `length` as signed ones.
def ftruncate (fs : Fs) (fd : Int) (length : BitVec 64) : Option (Int × Fs) :=
  match entryOf fd with
  | none => some (-1, fs)
  | some i =>
    let f := fs.fds i
    if notFile fs f then some (-1, fs)
    else
      let size := (fs.nodes f.node).size
      let content := (fs.nodes f.node).content
      if length.toNat < size then do
        let (tmp, heap) ← fs.heap.realloc content length.toNat
        if tmp = 0 ∧ 0 < length.toInt then some (-1, { fs with heap })
        else
          let fs := { fs with heap }.setNode f.node fun n =>
            { n with content := tmp, size := length.toNat }
          some (0, fs.setFd i fun f =>
            { f with offset := if length.toInt < f.offset.toInt then length else f.offset })
      else if size < length.toNat then do
        let (tmp, heap) ← fs.heap.realloc content length.toNat
        if tmp = 0 then some (-1, { fs with heap })
        else
          let dest := (tmp + size) % word
          let count := length.toNat - size
          if accessible dest count = false then none
          else
            let heap := { heap with mem := memset heap.mem dest 0 count }
            some (0, { fs with heap }.setNode f.node fun n =>
              { n with content := tmp, size := length.toNat })
      else some (0, fs)

/-! ## Names -/

/-- What follows the last `/`. -/
def baseName (path : Bytes) : Bytes :=
  (path.reverse.takeWhile (· ≠ slash)).reverse

-- The block of the name is the node's own. The name is written after it is released.
def rename (fs : Fs) (oldpath newpath : Path) : Option (Int × Fs) := do
  let n ← resolvePath fs oldpath
  if n = 0 then some (-1, fs)
  else
    let (_, fs) ← unlink fs newpath
    match newpath with
    | none => none
    | some newpath =>
      let heap ← fs.heap.free n
      some (0, { fs with heap }.setNode n fun n => { n with name := (baseName newpath).take 127 })

/-- `created` is never set, so it is whatever was on the stack. -/
def link (fs : Fs) (oldpath newpath : Path) (created : Bool) : Option (Int × Fs) := do
  let n ← resolvePath fs oldpath
  if n = 0 ∨ (fs.nodes n).isDir = true then some (-1, fs)
  else
    let (newnode, fs) ← createAtPath fs newpath false 0o755
    if newnode = 0 ∨ created = false then some (-1, fs)
    else
      let old := fs.nodes n
      let fs := fs.setNode newnode fun m =>
        { m with
          isDir := old.isDir, isSymlink := old.isSymlink, content := old.content, size := old.size,
          mode := old.mode, uid := old.uid, gid := old.gid, refcount := old.refcount }
      some (0, fs.setNode n fun m => { m with refcount := m.refcount + 1 })

/-- The loop of `build_path_at_node`, which fills the 1023 bytes before the terminator from the
end on. Each round takes one byte at least, so there is no round more than there is fuel. -/
def pathLoop (nodes : Nat → Node) : Nat → Nat → Bytes → Option Bytes
  | 0, _, _ => none
  | fuel + 1, curr, path =>
    if (nodes curr).parent = 0 then some (if path = [] then [slash] else path)
    else if 1023 - path.length < (nodes curr).name.length + 1 then none
    else pathLoop nodes fuel (nodes curr).parent (slash :: ((nodes curr).name ++ path))

/-- The string and its address, which is null if it is too long or could not be allocated. -/
def buildPathAtNode (fs : Fs) (n : Nat) : Option (Nat × Bytes × Fs) :=
  match pathLoop fs.nodes 1024 n [] with
  | none => some (0, [], fs)
  | some path => do
    let (result, heap) ← fs.heap.malloc (path.length + 1)
    if result = 0 then some (0, [], { fs with heap })
    else
      let heap := { heap with mem := putBytes heap.mem result (path ++ [0]) }
      some (result, path, { fs with heap })

-- The node's block is cleared without a look at the pointer.
def symlink (fs : Fs) (target linkpath : Path) : Option (Int × Fs) := do
  let targetNode ← resolvePath fs target
  if targetNode = 0 then some (-1, fs)
  else
    let (absTarget, path, fs) ← buildPathAtNode fs targetNode
    if absTarget = 0 then some (-1, fs)
    else
      let (n, heap) ← fs.heap.malloc nodeSize
      if n = 0 then none
      else
        match linkpath with
        | none => none
        | some linkpath =>
          let fs := { fs with heap }.setNode n fun _ =>
            { newNode (baseName linkpath) fs.cwd false 0o777 with
              isSymlink := true, content := absTarget, size := path.length }
          let fs ← appendChild fs fs.cwd n
          some (0, fs)

end Tmpfs

end Terrakernel
