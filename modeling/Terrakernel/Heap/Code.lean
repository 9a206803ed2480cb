import Terrakernel.Mem.Other
import Terrakernel.Vmm.DirectMap

/-!
# The kernel heap, as `mem/heap.cpp` computes it

Blocks are headers of 40 bytes in a flat memory, each followed by its payload,
and every loop follows the `next` links from `heap_base`. A pointer is a number
below 2^64 and the null pointer is 0. A walk that has followed 2^64 links
without an end has met a block twice and never returns: that is `none`.
-/

namespace Terrakernel

open Memory Mem Vmm

/-! ## `struct heap_block` -/

structure HeapBlock where
  base : Nat
  length : Nat
  isFree : Bool
  prev : Nat
  next : Nat
  deriving DecidableEq, Repr

/-- The lines the heap writes with `Log::errf`. -/
inductive HeapErr where
  | notInitialized
  | mallocNoFit (n : Nat)
  | mallocAlignedNoFit (n : Nat)
  | reallocNoFit (n : Nat)
  | reallocNotFound (ptr : Nat)
  | freeNotAllocated (ptr : Nat)
  deriving DecidableEq, Repr

structure Heap where
  mem : Mem
  heapBase : Nat
  heapSize : Nat
  log : List HeapErr

namespace Heap

-- `sizeof(heap_block)`: `is_free` is padded to eight bytes.
abbrev headerSize : Nat := 40

def getField (m : Mem) (b offset width : Nat) : Nat := load m (b + offset) width

def putField (m : Mem) (b offset width v : Nat) : Mem := store m (b + offset) width v

def base (m : Mem) (b : Nat) : Nat := getField m b 0 8
def length (m : Mem) (b : Nat) : Nat := getField m b 8 8
def isFree (m : Mem) (b : Nat) : Bool := getField m b 16 1 != 0
def prev (m : Mem) (b : Nat) : Nat := getField m b 24 8
def next (m : Mem) (b : Nat) : Nat := getField m b 32 8

abbrev setBase (m : Mem) (b v : Nat) : Mem := putField m b 0 8 v
abbrev setLength (m : Mem) (b v : Nat) : Mem := putField m b 8 8 v
abbrev setFree (m : Mem) (b : Nat) (v : Bool) : Mem := putField m b 16 1 v.toNat
abbrev setPrev (m : Mem) (b v : Nat) : Mem := putField m b 24 8 v
abbrev setNext (m : Mem) (b v : Nat) : Mem := putField m b 32 8 v

-- `if (b) b->prev = v;`
def relink (m : Mem) (b v : Nat) : Mem := if b ≠ 0 then setPrev m b v else m

def block (m : Mem) (b : Nat) : HeapBlock := ⟨base m b, length m b, isFree m b, prev m b, next m b⟩

def errf (h : Heap) (e : HeapErr) : Heap := { h with log := h.log ++ [e] }

/-- The end of `initialise`: one free block over the whole region. -/
def firstBlock (m : Mem) (heapBase heapSize : Nat) : Heap :=
  let m := setBase m heapBase ((heapBase + headerSize) % word)
  let m := setLength m heapBase ((heapSize + word - headerSize) % word)
  let m := setFree m heapBase true
  let m := setPrev m heapBase 0
  let m := setNext m heapBase 0
  ⟨m, heapBase, heapSize, []⟩

/-- The loop of `initialise`: the size is halved until `reserve_heap` finds room for it. -/
def reserveLoop {σ : Type} (reserveHeap : Nat → σ → Nat × σ) :
    Nat → (divisor heapBase heapSize : Nat) → σ → Option (Nat × Nat × σ)
  | 0, _, _, _, _ => none
  | fuel + 1, divisor, heapBase, heapSize, s =>
    if heapBase = 0 ∧ 0x100000 ≤ 0x100000000 / divisor then
      let heapSize := 0x100000000 / divisor
      let (heapBase, s) := reserveHeap (heapSize / 0x1000) s
      reserveLoop reserveHeap fuel (divisor * 2) heapBase heapSize s
    else some (heapBase, heapSize, s)

-- `heap_size` starts as the static zero. The page reserved is never checked against null.
def initialise {σ : Type} (reserveHeap : Nat → σ → Nat × σ) (m : Mem) (s : σ) :
    Option (Heap × σ) := do
  let (heapBase, heapSize, s) ← reserveLoop reserveHeap word 1 0 0 s
  some (firstBlock m (paToVa heapBase) heapSize, s)

/-! ## Walks along the list -/

/-- The blocks from `current` on, with their addresses. -/
def walk (m : Mem) : Nat → Nat → Option (List (Nat × HeapBlock))
  | 0, _ => none
  | fuel + 1, current =>
    if current = 0 then some []
    else (walk m fuel (next m current)).map ((current, block m current) :: ·)

def blockList (h : Heap) : Option (List (Nat × HeapBlock)) := walk h.mem word h.heapBase

-- The first loop of `malloc`.
def bestFit (m : Mem) (n : Nat) : Nat → Nat → Nat → Option Nat
  | 0, _, _ => none
  | fuel + 1, current, best =>
    if current = 0 then some best
    else if isFree m current ∧ n ≤ length m current ∧
        (best = 0 ∨ length m current < length m best) then
      bestFit m n fuel (next m current) current
    else bestFit m n fuel (next m current) best

-- The search loop of `realloc` and of `free`.
def findBase (m : Mem) (ptr : Nat) : Nat → Nat → Option Nat
  | 0, _ => none
  | fuel + 1, current =>
    if current = 0 then some 0
    else if base m current = ptr then some current
    else findBase m ptr fuel (next m current)

/-! ## The operations -/

/-- The tail of `best_fit` becomes a free block of its own. -/
def split (m : Mem) (bestFit n : Nat) : Mem :=
  let newBlock := (bestFit + headerSize + n) % word
  let m := setBase m newBlock ((newBlock + headerSize) % word)
  let m := setLength m newBlock ((length m bestFit + 2 * word - n - headerSize) % word)
  let m := setFree m newBlock true
  let m := setNext m newBlock (next m bestFit)
  let m := relink m (next m bestFit) newBlock
  let m := setNext m bestFit newBlock
  let m := setPrev m newBlock bestFit
  setLength m bestFit n

def malloc (h : Heap) (n : Nat) : Option (Nat × Heap) := do
  let best ← bestFit h.mem n word h.heapBase 0
  if best = 0 then some (0, h.errf (.mallocNoFit n))
  else
    let m := if length h.mem best > (n + headerSize) % word then split h.mem best n else h.mem
    let m := setFree m best false
    some (base m best, { h with mem := m })

-- The first split of `malloc_aligned`: what lies behind the padding becomes a free block.
def padSplit (m : Mem) (bestFit padding : Nat) : Mem :=
  let padBlock := (bestFit + headerSize + padding) % word
  let m := setBase m padBlock ((padBlock + headerSize) % word)
  let m := setLength m padBlock ((length m bestFit + 2 * word - padding - headerSize) % word)
  let m := setFree m padBlock true
  let m := setNext m padBlock (next m bestFit)
  let m := relink m (next m bestFit) padBlock
  let m := setPrev m padBlock bestFit
  let m := setLength m bestFit padding
  setNext m bestFit padBlock

-- The second one finds the next block by way of the new one.
def tailSplit (m : Mem) (bestFit n : Nat) : Mem :=
  let newBlock := (bestFit + headerSize + n) % word
  let m := setBase m newBlock ((newBlock + headerSize) % word)
  let m := setLength m newBlock ((length m bestFit + 2 * word - n - headerSize) % word)
  let m := setFree m newBlock true
  let m := setNext m newBlock (next m bestFit)
  let m := if next m bestFit ≠ 0 then setPrev m (next m newBlock) newBlock else m
  let m := setPrev m newBlock bestFit
  let m := setNext m bestFit newBlock
  setLength m bestFit n

-- `(raw_addr + alignment - 1) & ~(alignment - 1)`
def alignedAddr (rawAddr alignment : Nat) : Nat :=
  (rawAddr + alignment + word - 1) % word &&& (word - 1 - (alignment + word - 1) % word)

def mallocAligned (h : Heap) (n alignment : Nat) : Option (Nat × Heap) := do
  if alignment &&& (alignment + word - 1) % word ≠ 0 then some (0, h)
  else
    let best ← bestFit h.mem ((n + alignment) % word) word h.heapBase 0
    if best = 0 then some (0, h.errf (.mallocAlignedNoFit n))
    else
      let rawAddr := base h.mem best
      let padding := (alignedAddr rawAddr alignment + word - rawAddr) % word
      if padding > 0 ∧ length h.mem best ≤ (padding + headerSize) % word then some (0, h)
      else
        let m := if padding > 0 then padSplit h.mem best padding else h.mem
        let best := if padding > 0 then (best + headerSize + padding) % word else best
        let m := if length m best > (n + headerSize) % word then tailSplit m best n else m
        let m := setFree m best false
        some (base m best, { h with mem := m })

/-- `current` takes over its next block, as `free` and `defragment` do it. -/
def joinNext (m : Mem) (current : Nat) : Mem :=
  let m := setLength m current ((length m current + length m (next m current) + headerSize) % word)
  let m := setNext m current (next m (next m current))
  relink m (next m current) current

/-- The previous block takes over `current`, as `free` does it. -/
def joinPrev (m : Mem) (current : Nat) : Mem :=
  let before := prev m current
  let m := setLength m before ((length m before + length m current + headerSize) % word)
  let m := setNext m before (next m current)
  relink m (next m current) before

def free (h : Heap) (ptr : Nat) : Option Heap := do
  if ptr = 0 then some h
  else
    let current ← findBase h.mem ptr word h.heapBase
    if current = 0 then some (h.errf (.freeNotAllocated ptr))
    else
      let m := setFree h.mem current true
      let m := if next m current ≠ 0 ∧ isFree m (next m current) then joinNext m current else m
      let m := if prev m current ≠ 0 ∧ isFree m (prev m current) then joinPrev m current else m
      some { h with mem := m }

def realloc (h : Heap) (ptr n : Nat) : Option (Nat × Heap) := do
  if ptr = 0 then h.malloc n
  else if n = 0 then
    let h ← h.free ptr
    some (0, h)
  else
    let current ← findBase h.mem ptr word h.heapBase
    if current = 0 then some (0, h.errf (.reallocNotFound ptr))
    else if n ≤ length h.mem current then
      let m := setLength h.mem current n
      some (base m current, { h with mem := m })
    else
      let (newPtr, h) ← h.malloc n
      if newPtr = 0 then some (0, h.errf (.reallocNoFit n))
      else
        let m := memcpy h.mem newPtr ptr (length h.mem current)
        let h ← free { h with mem := m } ptr
        some (newPtr, h)

def calloc (h : Heap) (n size : Nat) : Option (Nat × Heap) := do
  let totalSize := n * size % word
  let (ptr, h) ← h.malloc totalSize
  if ptr = 0 then some (0, h)
  else some (ptr, { h with mem := memset h.mem ptr 0 totalSize })

-- The loop of `defragment`: after a join it looks at the same block again.
def defragmentLoop : Nat → Mem → Nat → Option Mem
  | 0, _, _ => none
  | fuel + 1, m, current =>
    if current = 0 then some m
    else if isFree m current ∧ next m current ≠ 0 ∧ isFree m (next m current) then
      defragmentLoop fuel (joinNext m current) current
    else defragmentLoop fuel m (next m current)

def defragment (h : Heap) : Option Heap := do
  if h.heapBase = 0 then some (h.errf .notInitialized)
  else
    let m ← defragmentLoop word h.mem h.heapBase
    some { h with mem := m }

end Heap

end Terrakernel
