import Mathlib.Data.List.Nodup
import Mathlib.Data.List.Perm.Subperm
import Terrakernel.Heap.Used
import Terrakernel.Lib.Links
import Terrakernel.Pcie.Code

/-!
# Every function of the bus is listed once

What the loops find is a list, and the code installs one device for each element of it.
-/

namespace Terrakernel.Pcie

open Memory Vmm Heap Links Function
open List hiding Chain Mem

variable {a : McfgAllocation} {bus left i function : Nat}

structure Bdf where
  segment : Nat
  bus : Nat
  device : Nat
  function : Nat
  deriving DecidableEq, Repr

variable {f : Bdf}

section Found

variable (mcfg : List McfgAllocation) (config : Mem)

def spaceOf (f : Bdf) : Nat := getConfigSpace mcfg f.segment (f.bus % 2 ^ 8) f.device f.function

/-- A device answers at this address. -/
def answers (space : Nat) : Bool := load config space 2 != 0xFFFF && load config space 2 != 0x0000

/-- The bit for further functions. -/
def multi (space : Nat) : Bool := load config (space + 0x0E) 1 &&& 0x80 != 0

theorem answers_iff (space : Nat) : answers config space = true ↔
    ¬ (load config space 2 = 0xFFFF ∨ load config space 2 = 0x0000) := by
  simp [answers]

theorem multi_eq_false_iff (space : Nat) :
    multi config space = false ↔ load config (space + 0x0E) 1 &&& 0x80 = 0 := by
  simp [multi]

/-- What the loop over the functions finds. -/
def foundFunctions (segment bus device : Nat) : Nat → (function : Nat) → List Bdf
  | 0, _ => []
  | left + 1, function =>
    let f : Bdf := ⟨segment, bus, device, function⟩
    if spaceOf mcfg f = 0 then foundFunctions segment bus device left (function + 1)
    else if answers config (spaceOf mcfg f) then
      f :: if function = 0 ∧ multi config (spaceOf mcfg f) = false then []
        else foundFunctions segment bus device left (function + 1)
    else if function = 0 then [] else foundFunctions segment bus device left (function + 1)

def foundDevices (segment bus device left : Nat) : List Bdf :=
  (range' device left).flatMap fun device => foundFunctions mcfg config segment bus device 8 0

def foundBuses (a : McfgAllocation) : List Bdf :=
  if a.baseAddress = 0 then []
  else (range' a.startBus.toNat (a.endBus.toNat + 1 - a.startBus.toNat)).flatMap fun bus =>
    foundDevices mcfg config a.segmentGroup.toNat bus 0 32

def found : List Bdf := mcfg.flatMap (foundBuses mcfg config)

/-! ## The code installs what is found -/

def add (s : Pcie) (f : Bdf) : Option Pcie :=
  addDevice config f.segment f.bus f.device f.function (spaceOf mcfg f) s

theorem functionLoop_eq (segment bus device left function : Nat) (s : Pcie) :
    functionLoop mcfg config segment bus device left function s =
      (foundFunctions mcfg config segment bus device left function).foldlM (add mcfg config) s := by
  induction left generalizing function s with
  | zero => rfl
  | succ left ih =>
    have hspace : getConfigSpace mcfg segment (bus % 2 ^ 8) device function =
        spaceOf mcfg ⟨segment, bus, device, function⟩ := rfl
    unfold functionLoop foundFunctions
    simp only [hspace]
    by_cases h0 : spaceOf mcfg ⟨segment, bus, device, function⟩ = 0
    · rw [if_pos h0, if_pos h0]
      exact ih _ _
    · rw [if_neg h0, if_neg h0]
      by_cases hv : answers config (spaceOf mcfg ⟨segment, bus, device, function⟩) = true
      · rw [if_neg ((answers_iff config _).mp hv), if_pos hv, foldlM_cons, add]
        congr 1
        funext s'
        simp only [multi_eq_false_iff]
        split_ifs
        · rfl
        · exact ih _ _
      · rw [if_pos (by rwa [answers_iff, not_not] at hv), if_neg hv]
        by_cases hf : function = 0
        · rw [if_pos hf, if_pos hf]
          rfl
        · rw [if_neg hf, if_neg hf]
          exact ih _ _

theorem deviceLoop_eq (segment bus left device : Nat) (s : Pcie) :
    deviceLoop mcfg config segment bus left device s =
      (foundDevices mcfg config segment bus device left).foldlM (add mcfg config) s := by
  induction left generalizing device s with
  | zero => rfl
  | succ left ih =>
    unfold foundDevices
    rw [deviceLoop, functionLoop_eq, range'_succ, flatMap_cons, foldlM_append]
    congr 1
    funext s'
    exact ih _ _

theorem busLoop_eq (segment : Nat) {endBus fuel : Nat} (hend : endBus < 2 ^ 8)
    (hfuel : endBus + 1 - bus < fuel) (s : Pcie) :
    busLoop mcfg config segment endBus fuel bus s =
      ((range' bus (endBus + 1 - bus)).flatMap fun bus =>
        foundDevices mcfg config segment bus 0 32).foldlM (add mcfg config) s := by
  induction fuel generalizing bus s with
  | zero => omega
  | succ fuel ih =>
    rw [busLoop]
    by_cases hbus : bus ≤ endBus
    · obtain ⟨left, hleft⟩ : ∃ left, endBus + 1 - bus = left + 1 := ⟨endBus - bus, by omega⟩
      have hrest : endBus + 1 - (bus + 1) = left := by omega
      rw [if_pos hbus, deviceLoop_eq, hleft, range'_succ, flatMap_cons,
        foldlM_append, Nat.mod_eq_of_lt (by omega)]
      congr 1
      funext s'
      rw [ih (by omega), hrest]
    · rw [if_neg hbus, show endBus + 1 - bus = 0 by omega]
      rfl

theorem allocLoop_eq (as : List McfgAllocation) (s : Pcie) :
    allocLoop mcfg config as s = (as.flatMap (foundBuses mcfg config)).foldlM (add mcfg config) s := by
  induction as generalizing s with
  | nil => rfl
  | cons a as ih =>
    rw [allocLoop, flatMap_cons, foldlM_append]
    unfold foundBuses
    by_cases h0 : a.baseAddress = 0
    · rw [if_pos h0, if_pos h0, ih]
      rfl
    · have hend := a.endBus.toNat_lt
      rw [if_neg h0, if_neg h0, busLoop_eq mcfg config _ hend (by omega)]
      congr 1
      funext s'
      exact ih s'

theorem enumerateDevices_eq (s : Pcie) :
    enumerateDevices mcfg config s = (found mcfg config).foldlM (add mcfg config) s :=
  allocLoop_eq mcfg config mcfg s

end Found

/-! ## What is found -/

/-- The allocation has configuration space for the function. -/
def Covers (a : McfgAllocation) (f : Bdf) : Prop :=
  a.baseAddress ≠ 0 ∧ f.segment = a.segmentGroup.toNat ∧ a.startBus.toNat ≤ f.bus ∧
    f.bus ≤ a.endBus.toNat ∧ f.device < 32 ∧ f.function < 8

/-- Where that configuration space is. -/
def ecam (a : McfgAllocation) (f : Bdf) : Nat :=
  paToVa (a.baseAddress.toNat + offset a f.bus f.device f.function)

/-- The function is there: function 0 of its device answers, and so does the function itself,
which is function 0 or one of a device with several. -/
def IsPresent (config : Mem) (a : McfgAllocation) (f : Bdf) : Prop :=
  Covers a f ∧ answers config (ecam a { f with function := 0 }) = true ∧
    answers config (ecam a f) = true ∧
    (f.function = 0 ∨ multi config (ecam a { f with function := 0 }) = true)

/-- Allocations that are used share no bus. -/
def Apart (a b : McfgAllocation) : Prop :=
  a.baseAddress ≠ 0 → b.baseAddress ≠ 0 → a.segmentGroup = b.segmentGroup →
    ∀ bus, ¬ (a.startBus.toNat ≤ bus ∧ bus ≤ a.endBus.toNat ∧ b.startBus.toNat ≤ bus ∧
      bus ≤ b.endBus.toNat)

theorem offset_eq {device : Nat} (hd : device < 32) (hf : function < 8) :
    offset a bus device function =
      2 ^ 20 * (bus - a.startBus.toNat) + (2 ^ 15 * device + 2 ^ 12 * function) := by
  rw [offset, Nat.or_assoc, Nat.shiftLeft_eq, Nat.shiftLeft_eq, Nat.shiftLeft_eq,
    Nat.mul_comm, Nat.mul_comm device, Nat.mul_comm function,
    ← Nat.two_pow_add_eq_or_of_lt (by omega : 2 ^ 12 * function < 2 ^ 15),
    ← Nat.two_pow_add_eq_or_of_lt (by omega)]

section Ecam

variable {a : McfgAllocation} (hlow : a.baseAddress.toNat + 2 ^ 28 ≤ 2 ^ 47)

include hlow

theorem ecam_eq (h : Covers a f) :
    ecam a f = a.baseAddress.toNat + offset a f.bus f.device f.function + directBase ∧
      offset a f.bus f.device f.function < 2 ^ 28 := by
  obtain ⟨-, -, h1, h2, hd, hf⟩ := h
  have hend := a.endBus.toNat_lt
  have hlt : offset a f.bus f.device f.function < 2 ^ 28 := by
    rw [offset_eq hd hf]
    omega
  exact ⟨paToVa_low (by omega), hlt⟩

theorem ecam_ne_zero (h : Covers a f) : ecam a f ≠ 0 := by
  rw [(ecam_eq hlow h).1]
  simp only [directBase]
  omega

theorem ecam_inj {g : Bdf} (hf : Covers a f) (hg : Covers a g) (h : ecam a f = ecam a g) :
    f = g := by
  rw [(ecam_eq hlow hf).1, (ecam_eq hlow hg).1] at h
  obtain ⟨-, hfs, hf1, hf2, hfd, hff⟩ := hf
  obtain ⟨-, hgs, hg1, hg2, hgd, hgf⟩ := hg
  rw [offset_eq hfd hff, offset_eq hgd hgf] at h
  obtain ⟨fs, fb, fd, ff⟩ := f
  obtain ⟨gs, gb, gd, gf⟩ := g
  simp only [Bdf.mk.injEq] at *
  omega

end Ecam

section Mcfg

variable {mcfg : List McfgAllocation} {config : Mem} (hapart : mcfg.Pairwise Apart)
  (hlow : ∀ a ∈ mcfg, a.baseAddress ≠ 0 → a.baseAddress.toNat + 2 ^ 28 ≤ 2 ^ 47)

include hapart hlow

theorem spaceOf_eq (ha : a ∈ mcfg) (h : Covers a f) : spaceOf mcfg f = ecam a f := by
  obtain ⟨hbase, hseg, h1, h2, hd, hf⟩ := h
  have hend := a.endBus.toNat_lt
  rw [spaceOf, Nat.mod_eq_of_lt (by omega)]
  induction mcfg with
  | nil => exact absurd ha not_mem_nil
  | cons b mcfg ih =>
    obtain ⟨hb, hrest⟩ := pairwise_cons.mp hapart
    have hlow' := fun a ha => hlow a (mem_cons_of_mem _ ha)
    rw [getConfigSpace]
    rcases mem_cons.mp ha with rfl | ha'
    · have hlt := (ecam_eq (hlow a ha hbase) ⟨hbase, hseg, h1, h2, hd, hf⟩).2
      have := hlow a ha hbase
      rw [if_neg hbase, if_pos ⟨hseg.symm, h1, h2⟩, Nat.mod_eq_of_lt (by simp only [word]; omega)]
      rfl
    · by_cases hb0 : b.baseAddress = 0
      · rw [if_pos hb0]
        exact ih hrest hlow' ha'
      · rw [if_neg hb0, if_neg]
        · exact ih hrest hlow' ha'
        · rintro ⟨hs, hb1, hb2⟩
          have hsame : b.segmentGroup = a.segmentGroup := UInt16.toNat_inj.mp (hs.trans hseg)
          exact hb a ha' hb0 hbase hsame f.bus ⟨hb1, hb2, h1, h2⟩

end Mcfg

section FoundFunctions

variable (mcfg : List McfgAllocation) (config : Mem) (segment bus device : Nat)

theorem foundFunctions_sublist (left function : Nat) :
    Sublist (foundFunctions mcfg config segment bus device left function)
      ((range' function left).map (Bdf.mk segment bus device)) := by
  induction left generalizing function with
  | zero => exact .slnil
  | succ left ih =>
    rw [foundFunctions, range'_succ, map_cons]
    split_ifs
    · exact (ih _).cons _
    · exact (nil_sublist _).cons_cons _
    · exact (ih _).cons_cons _
    · exact nil_sublist _
    · exact (ih _).cons _

theorem foundFunctions_nodup (left function : Nat) :
    (foundFunctions mcfg config segment bus device left function).Nodup := by
  refine (foundFunctions_sublist mcfg config segment bus device left function).nodup ?_
  refine List.Nodup.map ?_ nodup_range'
  intro f g h
  exact (Bdf.mk.inj h).2.2.2

variable {mcfg config segment bus device}

theorem of_mem_foundFunctions
    (h : f ∈ foundFunctions mcfg config segment bus device left function) :
    f.segment = segment ∧ f.bus = bus ∧ f.device = device ∧ f.function < function + left := by
  have hf := (foundFunctions_sublist mcfg config segment bus device left function).subset h
  obtain ⟨i, hi, rfl⟩ := List.mem_map.mp hf
  rw [mem_range'_1] at hi
  exact ⟨rfl, rfl, rfl, hi.2⟩

theorem mem_foundFunctions_pos (hpos : 0 < function)
    (hspace : ∀ i, i < function + left → spaceOf mcfg ⟨segment, bus, device, i⟩ ≠ 0) :
    ⟨segment, bus, device, i⟩ ∈ foundFunctions mcfg config segment bus device left function ↔
      function ≤ i ∧ i < function + left ∧
        answers config (spaceOf mcfg ⟨segment, bus, device, i⟩) = true := by
  induction left generalizing function with
  | zero =>
    simp only [foundFunctions, not_mem_nil, false_iff]
    omega
  | succ left ih =>
    have hrest := ih (by omega : 0 < function + 1) fun i hi => hspace i (by omega)
    rw [foundFunctions]
    simp only [if_neg (hspace function (by omega)), Nat.ne_of_gt hpos, false_and, if_false]
    by_cases heq : i = function
    · subst heq
      by_cases hv : answers config (spaceOf mcfg ⟨segment, bus, device, i⟩) = true
      · simp [hv]
      · rw [if_neg hv, hrest]
        simp [hv]
    · have hlo : function + 1 ≤ i ↔ function ≤ i := by omega
      have hhi : i < function + 1 + left ↔ i < function + (left + 1) := by omega
      rw [hlo, hhi] at hrest
      by_cases hv : answers config (spaceOf mcfg ⟨segment, bus, device, function⟩) = true
      · rw [if_pos hv, mem_cons, hrest]
        simp only [Bdf.mk.injEq, true_and, heq, false_or]
      · rw [if_neg hv, hrest]

theorem mem_foundFunctions (hspace : ∀ i, i < 8 → spaceOf mcfg ⟨segment, bus, device, i⟩ ≠ 0) :
    ⟨segment, bus, device, i⟩ ∈ foundFunctions mcfg config segment bus device 8 0 ↔
      i < 8 ∧ answers config (spaceOf mcfg ⟨segment, bus, device, 0⟩) = true ∧
        answers config (spaceOf mcfg ⟨segment, bus, device, i⟩) = true ∧
        (i = 0 ∨ multi config (spaceOf mcfg ⟨segment, bus, device, 0⟩) = true) := by
  have hrest : _ ∈ foundFunctions mcfg config segment bus device 7 (0 + 1) ↔ _ :=
    mem_foundFunctions_pos (by decide) hspace (i := i)
  rw [foundFunctions]
  simp only [if_neg (hspace 0 (by decide)), true_and]
  by_cases hv : answers config (spaceOf mcfg ⟨segment, bus, device, 0⟩) = true
  · by_cases hm : multi config (spaceOf mcfg ⟨segment, bus, device, 0⟩) = true
    · rw [if_pos hv, if_neg (by simp [hm]), mem_cons, hrest]
      simp only [Bdf.mk.injEq, true_and, hv, hm, or_true, and_true]
      constructor
      · rintro (rfl | ⟨-, h1, h2⟩)
        · exact ⟨by decide, hv⟩
        · exact ⟨by omega, h2⟩
      · rintro ⟨h1, h2⟩
        by_cases h0 : i = 0
        · exact .inl h0
        · exact .inr ⟨by omega, by omega, h2⟩
    · rw [if_pos hv, if_pos (by simpa using hm), mem_singleton, or_iff_left hm]
      simp only [Bdf.mk.injEq, true_and, hv]
      constructor
      · rintro rfl
        exact ⟨by decide, hv, rfl⟩
      · exact fun h => h.2.2
  · rw [if_neg hv, if_true]
    simp [hv]

end FoundFunctions

section Exact

variable {mcfg : List McfgAllocation} {config : Mem}

theorem mem_foundDevices {segment bus device left : Nat} :
    f ∈ foundDevices mcfg config segment bus device left ↔
      device ≤ f.device ∧ f.device < device + left ∧
        f ∈ foundFunctions mcfg config segment bus f.device 8 0 := by
  unfold foundDevices
  rw [mem_flatMap]
  constructor
  · rintro ⟨d, hd, hf⟩
    obtain ⟨-, -, rfl, -⟩ := of_mem_foundFunctions hf
    rw [mem_range'_1] at hd
    exact ⟨hd.1, hd.2, hf⟩
  · rintro ⟨h1, h2, hf⟩
    exact ⟨f.device, mem_range'_1.mpr ⟨h1, h2⟩, hf⟩

theorem mem_foundBuses :
    f ∈ foundBuses mcfg config a ↔
      Covers a f ∧ f ∈ foundFunctions mcfg config f.segment f.bus f.device 8 0 := by
  unfold foundBuses
  by_cases h0 : a.baseAddress = 0
  · rw [if_pos h0]
    exact ⟨fun h => absurd h not_mem_nil, fun h => absurd h0 h.1.1⟩
  · rw [if_neg h0, mem_flatMap]
    constructor
    · rintro ⟨bus, hbus, hf⟩
      obtain ⟨-, hd, hf⟩ := mem_foundDevices.mp hf
      obtain ⟨hs, rfl, -, hfn⟩ := of_mem_foundFunctions hf
      rw [mem_range'_1] at hbus
      rw [← hs] at hf
      exact ⟨⟨h0, hs, hbus.1, by omega, by omega, by omega⟩, hf⟩
    · rintro ⟨⟨-, hs, h1, h2, hd, -⟩, hf⟩
      refine ⟨f.bus, mem_range'_1.mpr ⟨h1, by omega⟩, ?_⟩
      rw [hs] at hf
      exact mem_foundDevices.mpr ⟨by omega, by omega, hf⟩

theorem foundDevices_nodup (segment bus device left : Nat) :
    (foundDevices mcfg config segment bus device left).Nodup := by
  refine nodup_flatMap.mpr ⟨fun d _ => foundFunctions_nodup _ _ _ _ _ _ _, ?_⟩
  refine Pairwise.imp ?_ nodup_range'
  intro d e hne f hf hg
  obtain ⟨-, -, hd, -⟩ := of_mem_foundFunctions hf
  obtain ⟨-, -, he, -⟩ := of_mem_foundFunctions hg
  exact hne (hd.symm.trans he)

theorem foundBuses_nodup (a : McfgAllocation) : (foundBuses mcfg config a).Nodup := by
  unfold foundBuses
  split_ifs
  · exact .nil
  · refine nodup_flatMap.mpr ⟨fun _ _ => foundDevices_nodup _ _ _ _, ?_⟩
    refine Pairwise.imp ?_ nodup_range'
    intro b c hne f hf hg
    obtain ⟨-, hb, -⟩ := of_mem_foundFunctions (mem_foundDevices.mp hf).2.2
    obtain ⟨-, hc, -⟩ := of_mem_foundFunctions (mem_foundDevices.mp hg).2.2
    exact hne (hb.symm.trans hc)

theorem found_nodup (hapart : mcfg.Pairwise Apart) : (found mcfg config).Nodup := by
  refine nodup_flatMap.mpr ⟨fun _ _ => foundBuses_nodup _, ?_⟩
  refine hapart.imp ?_
  intro a b hab f hf hg
  obtain ⟨⟨ha0, has, ha1, ha2, -⟩, -⟩ := mem_foundBuses.mp hf
  obtain ⟨⟨hb0, hbs, hb1, hb2, -⟩, -⟩ := mem_foundBuses.mp hg
  exact hab ha0 hb0 (UInt16.toNat_inj.mp (has.symm.trans hbs)) f.bus ⟨ha1, ha2, hb1, hb2⟩

theorem mem_found (hapart : mcfg.Pairwise Apart)
    (hlow : ∀ a ∈ mcfg, a.baseAddress ≠ 0 → a.baseAddress.toNat + 2 ^ 28 ≤ 2 ^ 47) :
    f ∈ found mcfg config ↔ ∃ a ∈ mcfg, IsPresent config a f := by
  unfold found
  rw [mem_flatMap]
  refine exists_congr fun a => and_congr_right fun ha => ?_
  rw [mem_foundBuses]
  refine and_congr_right fun hc => ?_
  have hsame : ∀ i, i < 8 → Covers a { f with function := i } := by
    intro i hi
    exact ⟨hc.1, hc.2.1, hc.2.2.1, hc.2.2.2.1, hc.2.2.2.2.1, hi⟩
  have hspace : ∀ i, i < 8 → spaceOf mcfg { f with function := i } = ecam a { f with function := i } :=
    fun i hi => spaceOf_eq hapart hlow ha (hsame i hi)
  have hmem : f ∈ foundFunctions mcfg config f.segment f.bus f.device 8 0 ↔ _ :=
    mem_foundFunctions fun i hi => by
      rw [hspace i hi]
      exact ecam_ne_zero (hlow a ha hc.1) (hsame i hi)
  rw [hspace 0 (by decide), hspace f.function hc.2.2.2.2.2] at hmem
  rw [hmem]
  simp [hc.2.2.2.2.2]

end Exact

/-! ## The list of devices -/

def bdfOf (d : PcieDevice) : Bdf := ⟨d.segment, d.bus, d.device, d.function⟩

/-- What is read for a function, with no link. -/
def record (mcfg : List McfgAllocation) (config : Mem) (f : Bdf) : PcieDevice :=
  readDevice config f.segment f.bus f.device f.function (spaceOf mcfg f)
    { (default : PcieDevice) with next := 0 }

/-- The devices at `ptrs` are linked in this order and are those of the functions `fs`. -/
structure Listed (mcfg : List McfgAllocation) (config : Mem) (s : Pcie) (bs : List Blk)
    (ptrs : List Nat) (fs : List Bdf) : Prop where
  sound : Sound s.heap bs
  chain : Chain (fun p => (s.devices p).next) s.firstDevice ptrs
  records : ptrs.map (fun p => { s.devices p with next := 0 }) = fs.map (record mcfg config)
  blocks : ∀ p ∈ ptrs, ∃ b ∈ bs, b.free = false ∧ b.ptr = p ∧ pcieDeviceSize ≤ b.len
  numDevs : s.numDevs = ptrs.length

section Listed

variable {mcfg : List McfgAllocation} {config : Mem} {s : Pcie} {bs : List Blk} {ptrs : List Nat}
  {fs : List Bdf}

theorem devices_length_lt {heap : Heap} (hs : Sound heap bs) (hnodup : ptrs.Nodup)
    (hblocks : ∀ p ∈ ptrs, ∃ b ∈ bs, b.free = false ∧ b.ptr = p ∧ pcieDeviceSize ≤ b.len) :
    ptrs.length < word := by
  have hsub : ptrs ⊆ used bs := by
    intro p hp
    obtain ⟨b, hb, hfree, hptr, -⟩ := hblocks p hp
    exact mem_used.mpr ⟨b, hb, hfree, hptr⟩
  have h1 := (subperm_of_subset hnodup hsub).length_le
  have h2 : (used bs).length ≤ bs.length := by
    unfold used
    rw [length_map]
    exact length_filter_le _ _
  have h3 := hs.rep.length_lt
  omega

theorem Listed.add (h : Listed mcfg config s bs ptrs fs) {p : Nat} {heap : Heap}
    (hm : s.heap.malloc pcieDeviceSize = some (p, heap)) (hp : p ≠ 0) (f : Bdf) :
    ∃ s' bs', Pcie.add mcfg config s f = some s' ∧ s'.heap = heap ∧
      Listed mcfg config s' bs' (p :: ptrs) (f :: fs) := by
  obtain ⟨hnew, bs', hsound, hblocks⟩ := Owns.malloc h.blocks h.sound hm hp
  have hlen := devices_length_lt hsound (nodup_cons.mpr ⟨hnew, h.chain.nodup⟩) hblocks
  refine ⟨(setDevice { s with heap := heap } p
    (readDevice config f.segment f.bus f.device f.function (spaceOf mcfg f))).installPcieDevice p,
    bs', ?_, rfl, ?_⟩
  · rw [Pcie.add, addDevice, hm]
    exact if_neg hp
  · refine ⟨hsound, ⟨rfl, hp, ?_⟩, ?_, hblocks, ?_⟩
    · simp only [installPcieDevice, setDevice, update_self]
      apply h.chain.congr
      intro q hq
      have hne : q ≠ p := fun he => hnew (he ▸ hq)
      simp only [update_of_ne hne]
    · simp only [installPcieDevice, setDevice, map_cons, update_self]
      rw [← h.records]
      refine congrArg₂ List.cons rfl (map_congr_left ?_)
      intro q hq
      have hne : q ≠ p := fun he => hnew (he ▸ hq)
      simp only [update_of_ne hne]
    · simp only [installPcieDevice, setDevice, h.numDevs]
      exact Nat.mod_eq_of_lt hlen

theorem Listed.foldlM (h : Listed mcfg config s bs ptrs fs) (gs : List Bdf)
    (hserves : Serves pcieDeviceSize gs.length s.heap) :
    ∃ s' bs' ptrs', gs.foldlM (Pcie.add mcfg config) s = some s' ∧
      Listed mcfg config s' bs' ptrs' (gs.reverse ++ fs) := by
  induction gs generalizing s bs ptrs fs with
  | nil => exact ⟨s, bs, ptrs, rfl, h⟩
  | cons g gs ih =>
    obtain ⟨p, heap, hm, hp, hrest⟩ := hserves
    obtain ⟨s1, bs1, hadd, rfl, h1⟩ := h.add hm hp g
    obtain ⟨s2, bs2, ptrs2, hfold, h2⟩ := ih h1 hrest
    refine ⟨s2, bs2, ptrs2, ?_, ?_⟩
    · rw [foldlM_cons, hadd]
      exact hfold
    · rw [reverse_cons, append_assoc]
      exact h2

theorem Listed.bdfs (h : Listed mcfg config s bs ptrs fs) :
    ptrs.map (fun p => bdfOf (s.devices p)) = fs := by
  have hmap := congrArg (List.map bdfOf) h.records
  rw [List.map_map, List.map_map] at hmap
  refine hmap.trans ?_
  exact (map_congr_left fun f _ => rfl).trans (List.map_id fs)

theorem Listed.read (h : Listed mcfg config s bs ptrs fs) {p : Nat} (hp : p ∈ ptrs) :
    ∃ f ∈ fs, { s.devices p with next := 0 } = record mcfg config f := by
  have hmem : { s.devices p with next := 0 } ∈ fs.map (record mcfg config) := by
    rw [← h.records]
    exact List.mem_map.mpr ⟨p, hp, rfl⟩
  obtain ⟨f, hf, he⟩ := List.mem_map.mp hmem
  exact ⟨f, hf, he.symm⟩

end Listed

/-! ## The result -/

/-- After the enumeration the list has each function that is there, once, and nothing else. -/
theorem enumerateDevices_exact {mcfg : List McfgAllocation} (config : Mem)
    (hapart : mcfg.Pairwise Apart)
    (hlow : ∀ a ∈ mcfg, a.baseAddress ≠ 0 → a.baseAddress.toNat + 2 ^ 28 ≤ 2 ^ 47) {s : Pcie}
    {bs : List Blk} (hs : Sound s.heap bs) (hfirst : s.firstDevice = 0) (hnum : s.numDevs = 0)
    (hserves : Serves pcieDeviceSize (found mcfg config).length s.heap) :
    ∃ s' ptrs, enumerateDevices mcfg config s = some s' ∧
      Chain (fun p => (s'.devices p).next) s'.firstDevice ptrs ∧ s'.numDevs = ptrs.length ∧
      (∀ p ∈ ptrs, HasBlock s'.heap p pcieDeviceSize) ∧
      (ptrs.map fun p => bdfOf (s'.devices p)).Nodup ∧
      (∀ f, f ∈ ptrs.map (fun p => bdfOf (s'.devices p)) ↔
        ∃ a ∈ mcfg, IsPresent config a f) ∧
      (∀ p ∈ ptrs, ∀ a ∈ mcfg, ∀ f, bdfOf (s'.devices p) = f → Covers a f →
        s'.devices p = readDevice config f.segment f.bus f.device f.function (ecam a f)
          (s'.devices p)) ∧
      ∀ a ∈ mcfg, ∀ f g, Covers a f → Covers a g → f ≠ g → ecam a f ≠ ecam a g := by
  have h0 : Listed mcfg config s bs [] [] :=
    ⟨hs, hfirst, rfl, fun p hp => absurd hp not_mem_nil, hnum⟩
  obtain ⟨s', bs', ptrs, hfold, hl⟩ := h0.foldlM _ hserves
  rw [append_nil] at hl
  refine ⟨s', ptrs, (enumerateDevices_eq mcfg config s).trans hfold, hl.chain, hl.numDevs,
    ?_, ?_, ?_, ?_, ?_⟩
  · exact fun p hp => (hl.sound.rep.hasBlock_iff p pcieDeviceSize).mpr (hl.blocks p hp)
  · rw [hl.bdfs]
    exact nodup_reverse.mpr (found_nodup hapart)
  · intro f
    rw [hl.bdfs, mem_reverse]
    exact mem_found hapart hlow
  · rintro p hp a ha f rfl hc
    obtain ⟨f, -, he⟩ := hl.read hp
    have hbdf : bdfOf (s'.devices p) = f := congrArg bdfOf he
    rw [hbdf] at hc ⊢
    have hfields := congrArg (fun d => { d with next := (s'.devices p).next }) he
    rw [record, spaceOf_eq hapart hlow ha hc] at hfields
    exact hfields
  · intro a ha f g hf hg hne heq
    exact hne (ecam_inj (hlow a ha hf.1) hf hg heq)

theorem enumerateDevices_exact_oneBus :
    ∃ s' ptrs, enumerateDevices [⟨0xE0000000, 0, 0, 0⟩] (fun _ => 1)
      ⟨oneMib, fun _ => default, 0, 0, 0⟩ = some s' ∧
      Chain (fun p => (s'.devices p).next) s'.firstDevice ptrs ∧
      ⟨0, 0, 31, 0⟩ ∈ ptrs.map (fun p => bdfOf (s'.devices p)) := by
  have hsound := firstBlock_sound (fun _ => 0) (by decide : headerSize < 0x100000000)
    (by decide : 0xFFFF800000100000 + 0x100000000 ≤ word)
  have hlength : (found [⟨0xE0000000, 0, 0, 0⟩] fun _ => 1).length = 32 := by decide +kernel
  have hserves : Serves pcieDeviceSize (found [⟨0xE0000000, 0, 0, 0⟩] fun _ => 1).length
      oneMib := by
    rw [hlength]
    exact .of_room hsound ⟨_, mem_singleton_self _, rfl, by decide⟩
  obtain ⟨s', ptrs, he, hchain, -, -, -, hmem, -⟩ := enumerateDevices_exact
    (fun _ => 1) (pairwise_singleton Apart ⟨0xE0000000, 0, 0, 0⟩) (by decide)
    (s := ⟨oneMib, fun _ => default, 0, 0, 0⟩)
    hsound rfl rfl hserves
  refine ⟨s', ptrs, he, hchain, (hmem _).mpr ⟨_, mem_singleton_self _, ?_⟩⟩
  exact ⟨⟨by decide, rfl, by decide, by decide, by decide, by decide⟩, by decide +kernel,
    by decide +kernel, .inl rfl⟩

end Terrakernel.Pcie
