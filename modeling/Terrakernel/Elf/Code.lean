import Terrakernel.Vmm.Hardware

/-!
# Programs, as `exec/elf.cpp` loads them

The file is in kernel memory, and so are the tables, which the code reaches through
the direct map. The segments are written through their own addresses, as the
processor translates them. An access that it does not make stops the machine, because
`is_solvable` says no to every exception. The lines that are logged are left out.
-/

namespace Terrakernel.Elf

open Memory Mem Vmm

abbrev etDyn : Nat := 3
abbrev ptLoad : Nat := 1
abbrev ptDynamic : Nat := 2

abbrev dtNull : Nat := 0
abbrev dtRela : Nat := 7
abbrev dtRelasz : Nat := 8
abbrev dtRelaent : Nat := 9

abbrev rX8664Relative : Nat := 8

-- `PAGE_PRESENT | PAGE_RW | PAGE_USER`
abbrev attributes : Nat := 0x7

/-! ## Headers -/

/-- The fields of `Elf64_Ehdr` that are read. -/
structure Ehdr where
  eIdent : Bytes
  eType : Nat
  eEntry : Nat
  ePhoff : Nat
  ePhnum : Nat
  deriving DecidableEq, Repr

/-- The fields of `Elf64_Phdr` that are read. -/
structure Phdr where
  pType : Nat
  pOffset : Nat
  pVaddr : Nat
  pFilesz : Nat
  pMemsz : Nat
  deriving DecidableEq, Repr

def ehdr (m : Mem) (base : Nat) : Ehdr where
  eIdent := (List.range 4).map fun i => m (base + i)
  eType := load m (base + 16) 2
  eEntry := load m (base + 24) 8
  ePhoff := load m (base + 32) 8
  ePhnum := load m (base + 56) 2

def phdrAt (m : Mem) (a : Nat) : Phdr where
  pType := load m a 4
  pOffset := load m (a + 8) 8
  pVaddr := load m (a + 16) 8
  pFilesz := load m (a + 32) 8
  pMemsz := load m (a + 40) 8

/-- `phdr[i]`, where the array is at `table`. -/
def phdr (m : Mem) (table i : Nat) : Phdr := phdrAt m ((table + 56 * i) % word)

/-! ## Virtual addresses -/

/-- Where in memory the processor finds a byte. It writes to pages that allow it only, also for the
kernel: the boot loader has set the bit for that. -/
def place (root : Nat) (m : Mem) (va : Nat) (write : Bool) : Option Nat :=
  if 2 ^ 47 ≤ va ∧ va < directBase then none
  else do
    let t ← translate root m va
    if write && !t.writable then none else some (paToVa t.pa)

/-- The loop of `memcpy` and `memset`, with the value that each round stores. -/
def fillTo (root dest : Nat) (value : Mem → Nat → Byte) : Nat → Mem → Option Mem
  | 0, m => some m
  | i + 1, m => do
    let m ← fillTo root dest value i m
    let x ← place root m ((dest + i) % word) true
    some (Function.update m x (value m i))

/-- `memcpy` from kernel memory. -/
def memcpyTo (root dest src count : Nat) (m : Mem) : Option Mem :=
  fillTo root dest (fun m i => m ((src + i) % word)) count m

def memsetTo (root dest : Nat) (value : Byte) (count : Nat) (m : Mem) : Option Mem :=
  fillTo root dest (fun _ _ => value) count m

/-- An access of eight bytes. -/
def read64 (root : Nat) (m : Mem) (va : Nat) : Option Nat :=
  (List.range 8).foldrM (fun i v => do
    let x ← place root m ((va + i) % word) false
    some (v * 256 + (m x).toNat)) 0

def write64 (root : Nat) (m : Mem) (va v : Nat) : Option Mem :=
  (List.range 8).foldlM (fun m i => do
    let x ← place root m ((va + i) % word) true
    some (Function.update m x (BitVec.ofNat 8 (v / 256 ^ i)))) m

/-! ## `apply_relocations` -/

structure Dynamic where
  rela : Nat
  relaSize : Nat
  relaEnt : Nat
  deriving DecidableEq, Repr

-- The addresses wrap after so many entries, and a walk that is not over then never is.
def dynLoop (root : Nat) (m : Mem) (loadBase : Nat) : Nat → Nat → Dynamic → Option Dynamic
  | 0, _, _ => none
  | fuel + 1, d, dyn => do
    let tag ← read64 root m d
    if tag = dtNull then some dyn
    else
      let val := read64 root m ((d + 8) % word)
      let dyn ←
        if tag = dtRela then val.map fun v => { dyn with rela := (loadBase + v) % word }
        else if tag = dtRelasz then val.map fun v => { dyn with relaSize := v }
        else if tag = dtRelaent then val.map fun v => { dyn with relaEnt := v }
        else some dyn
      dynLoop root m loadBase fuel ((d + 16) % word) dyn

/-- The entries have 24 bytes, whatever the file says. -/
def relaLoop (root loadBase rela : Nat) : Nat → Nat → Mem → Option Mem
  | 0, _, m => some m
  | left + 1, i, m => do
    let r := (rela + 24 * i) % word
    let offset ← read64 root m r
    let info ← read64 root m ((r + 8) % word)
    let addend ← read64 root m ((r + 16) % word)
    let m ← if info % 2 ^ 32 = rX8664Relative then
        write64 root m ((loadBase + offset) % word) ((loadBase + addend) % word)
      else some m
    relaLoop root loadBase rela left (i + 1) m

def applyRelocations (root : Nat) (m : Mem) (loadBase table phnum : Nat) : Option Mem :=
  match (List.range phnum).find? fun i => (phdr m table i).pType = ptDynamic with
  | none => some m
  | some i => do
    let dyn := (loadBase + (phdr m table i).pVaddr) % word
    -- A null pointer is taken for a file without the section.
    if dyn = 0 then some m
    else
      let dyn ← dynLoop root m loadBase (2 ^ 60) dyn ⟨0, 0, 24⟩
      if dyn.rela = 0 ∨ dyn.relaSize = 0 then some m
      else if dyn.relaEnt = 0 then none
      else relaLoop root loadBase dyn.rela (dyn.relaSize / dyn.relaEnt) 0 m

section Run

variable (palloc : Palloc) (root : Nat)

-- The second `mmap` gets its addresses the wrong way round: the new page's address is mapped, to the
-- physical page at `pageAddr`.
def mapRound (m : Mem) (pageAddr : Nat) : Mem :=
  let m := munmap root m pageAddr 1
  let (page, m) := vallocPage palloc m
  let (_, m) := mmap palloc root m page page 1 attributes
  let (_, m) := mmap palloc root m pageAddr page 1 attributes
  let (_, m) := mmap palloc root m 0x400000 0x400000 1 attributes
  m

def mapRounds (mapStart : Nat) : Nat → Mem → Mem
  | 0, m => m
  | p + 1, m => mapRound palloc root (mapRounds mapStart p m) ((mapStart + p * 0x1000) % word)

def loadSegment (base segBase : Nat) (ph : Phdr) (m : Mem) : Option Mem := do
  let mapStart := pageOf segBase
  let mapEnd := pageOf ((segBase + ph.pMemsz + 0xFFF) % word)
  let mapPages := (mapEnd + word - mapStart) % word / 0x1000
  let m := mapRounds palloc root mapStart mapPages m
  let m ← memcpyTo root segBase (base + ph.pOffset) ph.pFilesz m
  if ph.pFilesz < ph.pMemsz then
    memsetTo root (segBase + ph.pFilesz) 0 (ph.pMemsz - ph.pFilesz) m
  else some m

/-- The program headers from `i` on. Their number is read anew in each round, and has 16 bits. -/
def loadLoop (base table loadBase : Nat) : Nat → Nat → Mem → Option Mem
  | 0, _, m => some m
  | fuel + 1, i, m =>
    if (ehdr m base).ePhnum ≤ i then some m
    else
      let ph := phdr m table i
      if ph.pType ≠ ptLoad then loadLoop base table loadBase fuel (i + 1) m
      else do
        let segBase :=
          if (ehdr m base).eType = etDyn then (loadBase + ph.pVaddr) % word else ph.pVaddr
        let m ← loadSegment palloc root base segBase ph m
        loadLoop base table loadBase fuel (i + 1) m

/-- The ways out of `run_elf`: back to the caller, or to the program. -/
inductive Exit where
  | returns (m : Mem)
  | ring3 (entry stack : Nat) (m : Mem)

def runElf (m : Mem) (base : Nat) : Option Exit :=
  if (ehdr m base).eIdent ≠ [0x7F, 0x45, 0x4C, 0x46] then some (.returns m)
  else do
    let loadBase := 0
    let table := (base + (ehdr m base).ePhoff) % word
    let m ← loadLoop palloc root base table loadBase 0x10000 0 m
    let m ← if (ehdr m base).eType = etDyn then
        applyRelocations root m loadBase table (ehdr m base).ePhnum
      else some m
    let (stackPhys1, m) := palloc m
    let (stackPhys2, m) := palloc m
    let (_, m) := mmap palloc root m stackPhys1 stackPhys1 1 attributes
    let (_, m) := mmap palloc root m stackPhys2 stackPhys2 1 attributes
    let entry := if (ehdr m base).eType = etDyn then (loadBase + (ehdr m base).eEntry) % word
      else (ehdr m base).eEntry
    some (.ring3 entry (stackPhys2 + 0x1000) m)

end Run

end Terrakernel.Elf
