import Terrakernel.Lib.Bitmap
import Terrakernel.Mem.Other
import Terrakernel.Vmm.DirectMap

/-!
# Physical pages, as `mem/pmm.cpp` hands them out

At most eight segments of usable memory share one bitmap, one bit for a page.
The bitmap fills a segment of its own, and the pages of the other segments are
numbered one segment after the other. Reading or writing a bit past the end of
the bitmap is `none`: the code does not check this.
-/

namespace Terrakernel

open Memory Mem Vmm

/-! ## The memory map -/

-- The code only asks whether the type is `LIMINE_MEMMAP_USABLE`.
inductive MemmapType where
  | usable
  | other
  deriving DecidableEq, Repr

structure MemmapEntry where
  base : Nat
  length : Nat
  type : MemmapType
  deriving DecidableEq, Repr

structure Pmm.Segment where
  base : Nat
  length : Nat
  isBitmap : Bool
  remainingBytes : Nat
  deriving DecidableEq, Repr

/-- The lines the allocator writes with `Log::errf`. -/
inductive PmmErr where
  | noMemoryMap
  | freeBelow (ptr : Nat)
  | freeOutside (ptr : Nat)
  deriving DecidableEq, Repr

structure Pmm where
  mem : Mem
  segments : List Pmm.Segment
  bitmap : Nat
  bitmapSize : Nat
  totalPages : Nat
  totalAddrspace : Nat
  totalMem : Nat
  usedMem : Nat
  freeMem : Nat
  allocationCount : Nat
  failedAllocationCount : Nat
  freeCount : Nat
  failedFreeCount : Nat
  log : List PmmErr

namespace Pmm

abbrev pageSize : Nat := 4096
abbrev maxSegments : Nat := 8
abbrev minAllocAddr : Nat := 0x100000

/-- The statics before `initialise`. -/
def statics (m : Mem) : Pmm where
  mem := m
  segments := List.replicate maxSegments ⟨0, 0, false, 0⟩
  bitmap := 0
  bitmapSize := 0
  totalPages := 0
  totalAddrspace := 0
  totalMem := 0
  usedMem := 0
  freeMem := 0
  allocationCount := 0
  failedAllocationCount := 0
  freeCount := 0
  failedFreeCount := 0
  log := []

def errf (s : Pmm) (e : PmmErr) : Pmm := { s with log := s.log ++ [e] }

/-! ## Bits -/

def bitmapSet (s : Pmm) (index : Nat) : Option Pmm :=
  if index < 8 * s.bitmapSize then some { s with mem := Bitmap.set s.mem s.bitmap index } else none

def bitmapClear (s : Pmm) (index : Nat) : Option Pmm :=
  if index < 8 * s.bitmapSize then some { s with mem := Bitmap.clear s.mem s.bitmap index }
  else none

def bitmapTest (s : Pmm) (index : Nat) : Option Bool :=
  if index < 8 * s.bitmapSize then some (Bitmap.test s.mem s.bitmap index) else none

/-! ## `membulkset` -/

-- Bytes up to the next multiple of eight.
def bulkHead (value : Nat) : Nat → Mem → Nat → Mem × Nat × Nat
  | 0, m, p => (m, p, 0)
  | bytes + 1, m, p =>
    if p % 8 ≠ 0 then bulkHead value bytes (Function.update m p (BitVec.ofNat 8 value)) (p + 1)
    else (m, p, bytes + 1)

def bulkWords (value : Nat) : Nat → Mem → Nat → Mem × Nat × Nat
  | bytes + 8, m, p => bulkWords value bytes (store m p 8 value) (p + 8)
  | bytes, m, p => (m, p, bytes)

def bulkTail (value : Nat) : Nat → Mem → Nat → Mem
  | 0, m, _ => m
  | bytes + 1, m, p => bulkTail value bytes (Function.update m p (BitVec.ofNat 8 value)) (p + 1)

def membulkset (m : Mem) (ptr value bytes : Nat) : Mem :=
  let (m, p, bytes) := bulkHead value bytes m ptr
  let (m, p, bytes) := bulkWords value bytes m p
  bulkTail value bytes m p

/-! ## `initialise` -/

-- The loop of `prepare_bitmap`: the shortest segment that is long enough, the first of them.
def bestLoop (bitmapSize : Nat) :
    List Segment → Nat → Option (Nat × Segment) → Option (Nat × Segment)
  | [], _, best => best
  | seg :: segs, i, best =>
    if seg.isBitmap = false ∧ bitmapSize ≤ seg.length ∧ ∀ b ∈ best, seg.length < b.2.length then
      bestLoop bitmapSize segs (i + 1) (some (i, seg))
    else bestLoop bitmapSize segs (i + 1) best

def prepareBitmap (s : Pmm) (mem : Nat) : Pmm :=
  let s := { s with bitmapSize := mem / 8 }
  match bestLoop s.bitmapSize s.segments 0 none with
  | none => s
  | some (i, best) =>
    { s with
      segments := s.segments.modify i fun seg => { seg with isBitmap := true }
      bitmap := best.base
      mem := membulkset s.mem best.base 0 s.bitmapSize }

/-- One round of the loop over the memory map, with the number of segments made so far. -/
def addEntry (st : Pmm × Nat) (e : MemmapEntry) : Pmm × Nat :=
  let (s, createdSegments) := st
  let s := { s with totalAddrspace := (s.totalAddrspace + e.length) % word }
  if e.type ≠ .usable ∨ maxSegments ≤ createdSegments then (s, createdSegments)
  else
    let segBase := if e.base < minAllocAddr then minAllocAddr else e.base
    let segLen :=
      if e.base < minAllocAddr then
        if e.length > minAllocAddr - e.base then e.length - (minAllocAddr - e.base) else 0
      else e.length
    if segLen = 0 then (s, createdSegments)
    else
      ({ s with
          segments := s.segments.set createdSegments ⟨segBase, segLen, false, segLen⟩
          totalMem := (s.totalMem + segLen) % word },
        createdSegments + 1)

/-- `response` is what the boot loader answered, if it did. -/
def initialise (s : Pmm) (response : Option (List MemmapEntry)) : Pmm :=
  match response with
  | none | some [] => s.errf .noMemoryMap
  | some entries =>
    let s := { s with
      totalMem := 0, usedMem := 0, freeMem := 0, allocationCount := 0
      failedAllocationCount := 0, freeCount := 0, failedFreeCount := 0, totalAddrspace := 0 }
    let (s, _) := entries.foldl addEntry (s, 0)
    let s := s.prepareBitmap s.totalMem
    { s with totalPages := s.totalMem / pageSize, freeMem := s.totalMem }

/-- The allocator of the memory map `es`. -/
abbrev booted (m : Mem) (es : List MemmapEntry) : Pmm := initialise (statics m) (some es)

/-! ## Allocation -/

-- The inner loop of `palloc` and `reserve_heap`: the first run of `needed` clear bits.
def scan (s : Pmm) (needed pageOffset : Nat) : Nat → (j found start : Nat) → Option (Option Nat)
  | 0, _, _, _ => some none
  | left + 1, j, found, start => do
    if ← s.bitmapTest (pageOffset + j) then s.scan needed pageOffset left (j + 1) 0 start
    else
      let start := if found = 0 then j else start
      if found + 1 = needed then some (some start)
      else s.scan needed pageOffset left (j + 1) (found + 1) start

def setBits (s : Pmm) (startGlobal : Nat) : Nat → Option Pmm
  | 0 => some s
  | k + 1 => do
    let s ← s.setBits startGlobal k
    s.bitmapSet (startGlobal + k)

/-- What both allocators do once they have found a run in segment `segid`. -/
def take (s : Pmm) (needed segid pageOffset start base : Nat) : Option (Nat × Pmm) := do
  let s ← s.setBits (pageOffset + start) needed
  let bytes := needed * pageSize % word
  some ((base + start * pageSize) % word,
    { s with
      usedMem := (s.usedMem + bytes) % word
      freeMem := (s.freeMem + word - bytes) % word
      segments := s.segments.modify segid fun seg =>
        { seg with remainingBytes := (seg.remainingBytes + word - bytes) % word }
      allocationCount := (s.allocationCount + 1) % word })

def allocFailed (s : Pmm) : Nat × Pmm :=
  (0, { s with failedAllocationCount := (s.failedAllocationCount + 1) % word })

-- The loop of `palloc` over the segments, from number `segid` on.
def pallocLoop (s : Pmm) (needed : Nat) : List Segment → (segid pageOffset : Nat) → Option (Nat × Pmm)
  | [], _, _ => some s.allocFailed
  | seg :: segs, segid, pageOffset =>
    if seg.length = 0 ∨ seg.isBitmap = true then s.pallocLoop needed segs (segid + 1) pageOffset
    else if (seg.base + seg.length) % word ≤ minAllocAddr then
      s.pallocLoop needed segs (segid + 1) (pageOffset + seg.length / pageSize)
    else do
      let segStartOffset :=
        if seg.base < minAllocAddr then (minAllocAddr - seg.base) / pageSize else 0
      let segPages := seg.length / pageSize
      match ← s.scan needed pageOffset (segPages - segStartOffset) segStartOffset 0 0 with
      | some start => s.take needed segid pageOffset start seg.base
      | none => s.pallocLoop needed segs (segid + 1) (pageOffset + segPages)

def palloc (s : Pmm) (npages : Nat) : Option (Nat × Pmm) :=
  if s.bitmap = 0 ∨ npages = 0 then some (0, s) else s.pallocLoop npages s.segments 0 0

-- The loop of `reserve_heap`: it does not look at 1 MiB.
def reserveHeapLoop (s : Pmm) (needed : Nat) :
    List Segment → (segid pageOffset : Nat) → Option (Nat × Pmm)
  | [], _, _ => some s.allocFailed
  | seg :: segs, segid, pageOffset =>
    if seg.length = 0 ∨ seg.isBitmap = true then s.reserveHeapLoop needed segs (segid + 1) pageOffset
    else do
      let segPages := seg.length / pageSize
      match ← s.scan needed pageOffset segPages 0 0 0 with
      | some start => s.take needed segid pageOffset start seg.base
      | none => s.reserveHeapLoop needed segs (segid + 1) (pageOffset + segPages)

def reserveHeap (s : Pmm) (npages : Nat) : Option (Nat × Pmm) :=
  if s.bitmap = 0 ∨ npages = 0 then some (0, s) else s.reserveHeapLoop npages s.segments 0 0

/-! ## `free` -/

-- The segment that holds `addr`, with its number and the number of its first page.
def findSegment (addr : Nat) : List Segment → (segid pageOffset : Nat) → Option (Nat × Segment × Nat)
  | [], _, _ => none
  | seg :: segs, segid, pageOffset =>
    if seg.length = 0 ∨ seg.isBitmap = true then findSegment addr segs (segid + 1) pageOffset
    else if seg.base ≤ addr ∧ addr < (seg.base + seg.length) % word then some (segid, seg, pageOffset)
    else findSegment addr segs (segid + 1) (pageOffset + seg.length / pageSize)

def freeFailed (s : Pmm) : Pmm := { s with failedFreeCount := (s.failedFreeCount + 1) % word }

def clearLoop (globalIndex : Nat) :
    Nat → (i : Nat) → Pmm → (actuallyFreed : Nat) → Option (Pmm × Nat)
  | 0, _, s, actuallyFreed => some (s, actuallyFreed)
  | left + 1, i, s, actuallyFreed => do
    if ← s.bitmapTest (globalIndex + i) then
      let s ← s.bitmapClear (globalIndex + i)
      clearLoop globalIndex left (i + 1) s ((actuallyFreed + pageSize) % word)
    else clearLoop globalIndex left (i + 1) s.freeFailed actuallyFreed

def free (s : Pmm) (ptr npages : Nat) : Option Pmm :=
  if s.bitmap = 0 ∨ ptr = 0 ∨ npages = 0 then some s
  else
    let addr := paToVa ptr
    if addr < minAllocAddr then some (s.errf (.freeBelow ptr)).freeFailed
    else
      match findSegment addr s.segments 0 0 with
      | none => some (s.errf (.freeOutside ptr)).freeFailed
      | some (segid, seg, pageOffset) => do
        let segPageIndex := (addr - seg.base) / pageSize
        let (s, actuallyFreed) ← clearLoop (pageOffset + segPageIndex) npages 0 s 0
        some { s with
          usedMem := if actuallyFreed ≤ s.usedMem then s.usedMem - actuallyFreed else 0
          freeMem := (s.freeMem + actuallyFreed) % word
          segments := s.segments.modify segid fun seg =>
            { seg with remainingBytes := (seg.remainingBytes + actuallyFreed) % word }
          freeCount := (s.freeCount + 1) % word }

def statFree (s : Pmm) : Nat := s.freeMem

end Pmm

end Terrakernel
