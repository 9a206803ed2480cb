import Terrakernel.Pmm.Code

/-!
# Page tables, as `mem/vmm.cpp` walks and changes them

Tables are pages of 512 entries in one flat memory, and the code reaches them
through the direct map. The allocator keeps its own state in the same memory, so
`palloc(1)` is a function from memory to a page and a memory. The flush of the
TLB by `invlpg` changes no memory and is left out.
-/

namespace Terrakernel.Vmm

open Memory Mem

/-! ## Entries -/

abbrev pagePresent : Nat := 0x1
abbrev pageRw : Nat := 0x2

def getEntry (m : Mem) (table index : Nat) : Nat := load m (table + 8 * index) 8

def setEntry (m : Mem) (table index v : Nat) : Mem := store m (table + 8 * index) 8 v

def present (entry : Nat) : Bool := entry &&& pagePresent != 0

-- `x & ~0xFFF`
def pageOf (x : Nat) : Nat := x / 0x1000 * 0x1000

def getPml4Index (va : Nat) : Nat := (va >>> 39) &&& 0x1FF
def getPdptIndex (va : Nat) : Nat := (va >>> 30) &&& 0x1FF
def getPdIndex (va : Nat) : Nat := (va >>> 21) &&& 0x1FF
def getPtIndex (va : Nat) : Nat := (va >>> 12) &&& 0x1FF

/-- The table an entry leads to. -/
def tableOf (entry : Nat) : Nat := paToVa (pageOf entry)

/-- `palloc(1)` -/
abbrev Palloc := Mem → Nat × Mem

section Tables

variable (palloc : Palloc)

-- `valloc(1)`
def vallocPage (m : Mem) : Nat × Mem :=
  let (page, m) := palloc m
  (paToVa page, m)

def ensureTableExists (m : Mem) (parent index : Nat) : Nat × Mem :=
  if present (getEntry m parent index) then (tableOf (getEntry m parent index), m)
  else
    let (newTable, m) := vallocPage palloc m
    let m := memset m newTable 0 0x1000
    let m := setEntry m parent index (vaToPa newTable ||| pagePresent ||| pageRw)
    (newTable, m)

def leafEntry (pa attributes : Nat) : Nat := pageOf pa ||| (attributes &&& 0x8000000000000FFF)

/-- One round of the loop of `mmap`. -/
def mmapPage (currentPML4 : Nat) (m : Mem) (pa va attributes : Nat) : Nat × Mem :=
  let (pdpt, m) := ensureTableExists palloc m currentPML4 (getPml4Index va)
  let (pd, m) := ensureTableExists palloc m pdpt (getPdptIndex va)
  let (pt, m) := ensureTableExists palloc m pd (getPdIndex va)
  let m := setEntry m pt (getPtIndex va) (leafEntry pa attributes)
  (getEntry m pt (getPtIndex va), m)

def mmapLoop (currentPML4 attributes : Nat) :
    Nat → (i pa va firstEntry : Nat) → Palloc
  | 0, _, _, _, firstEntry, m => (firstEntry, m)
  | left + 1, i, pa, va, firstEntry, m =>
    let (entry, m) := mmapPage palloc currentPML4 m pa va attributes
    let firstEntry := if i = 0 then entry else firstEntry
    mmapLoop currentPML4 attributes left (i + 1) ((pa + 0x1000) % word) ((va + 0x1000) % word)
      firstEntry m

def mmap (currentPML4 : Nat) (m : Mem) (paddr vaddr npages attributes : Nat) : Nat × Mem :=
  mmapLoop palloc currentPML4 attributes npages 0 paddr vaddr 0 m

/-- The loop of `create_pagetable`. -/
def copyLoop (newPml4 origPml4 : Nat) : Nat → (i : Nat) → Mem → Mem
  | 0, _, m => m
  | left + 1, i, m =>
    copyLoop newPml4 origPml4 left (i + 1) (setEntry m newPml4 i (getEntry m origPml4 i))

/-- A null page is an allocation that failed. -/
def createPagetable (originalPML4 : Nat) (m : Mem) : Nat × Mem :=
  let (page, m) := palloc m
  if page = 0 then (0, m)
  else
    let vaPage := paToVa page
    let m := memset m vaPage 0 0x1000
    (page, copyLoop vaPage originalPML4 256 256 m)

end Tables

/-- The three steps that `munmap` and `is_mapped` share, down to the page table of `va`. -/
def findPt (currentPML4 : Nat) (m : Mem) (va : Nat) : Option Nat :=
  let pml4Entry := getEntry m currentPML4 (getPml4Index va)
  if !present pml4Entry then none
  else
    let pdptEntry := getEntry m (tableOf pml4Entry) (getPdptIndex va)
    if !present pdptEntry then none
    else
      let pdEntry := getEntry m (tableOf pdptEntry) (getPdIndex va)
      if !present pdEntry then none else some (tableOf pdEntry)

def isMapped (currentPML4 : Nat) (m : Mem) (vaddr : Nat) : Bool :=
  match findPt currentPML4 m vaddr with
  | none => false
  | some pt => present (getEntry m pt (getPtIndex vaddr))

def munmapPage (currentPML4 : Nat) (m : Mem) (va : Nat) : Mem :=
  match findPt currentPML4 m va with
  | none => m
  | some pt => setEntry m pt (getPtIndex va) 0

def munmapLoop (currentPML4 : Nat) : Nat → (va : Nat) → Mem → Mem
  | 0, _, m => m
  | left + 1, va, m => munmapLoop currentPML4 left ((va + 0x1000) % word) (munmapPage currentPML4 m va)

def munmap (currentPML4 : Nat) (m : Mem) (vaddr npages : Nat) : Mem :=
  munmapLoop currentPML4 npages vaddr m

/-! ## Pages of the physical allocator -/

def valloc (s : Pmm) (npages : Nat) : Option (Nat × Pmm) := do
  let (page, s) ← s.palloc npages
  some (paToVa page, s)

def free (s : Pmm) (ptr npages : Nat) : Option Pmm := s.free (vaToPa ptr) npages

end Terrakernel.Vmm
