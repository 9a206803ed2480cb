import Terrakernel.Heap.Used
import Terrakernel.Pci.Config
import Terrakernel.Pci.Lookup

/-!
# What the enumeration lists

A device is linked for every function of the first eight buses, and those that answer are counted.
-/

namespace Terrakernel.Pci

open Memory Heap Links Function List

variable {p : Nat} {f : PciFunction} {s : Pci}

/-! ## The functions that are visited -/

-- Irreducible, so that nothing computes the list of 2048 elements.
/-- In the order of the loops. -/
@[irreducible] def functions : List PciFunction :=
  (List.range 8).flatMap fun bus => (List.range 32).flatMap fun device =>
    (List.range 8).map fun function => ⟨bus, device, function⟩

theorem mem_functions (f : PciFunction) :
    f ∈ functions ↔ f.bus < 8 ∧ f.device < 32 ∧ f.function < 8 := by
  simp only [functions, mem_flatMap, List.mem_map, mem_range]
  constructor
  · rintro ⟨bus, hb, device, hd, function, hf, rfl⟩
    exact ⟨hb, hd, hf⟩
  · rintro ⟨hb, hd, hf⟩
    exact ⟨f.bus, hb, f.device, hd, f.function, hf, rfl⟩

theorem length_functions : functions.length = 2048 := by
  simp [functions, length_flatMap]

section Ports

variable (ports : ConfigPorts)

def visitFunction (s : Pci) (f : PciFunction) : Option Pci :=
  visit ports f.bus f.device s f.function

theorem foldlM_flatMap {α β σ : Type} (g : α → List β) (step : σ → β → Option σ) (l : List α)
    (s : σ) : (l.flatMap g).foldlM step s = l.foldlM (fun s a => (g a).foldlM step s) s := by
  induction l generalizing s with
  | nil => rfl
  | cons a l ih =>
    rw [flatMap_cons, foldlM_append, foldlM_cons]
    congr 1
    funext s'
    exact ih s'

theorem initialise_eq (s : Pci) :
    initialise ports s =
      (functions.foldlM (visitFunction ports) s).map fun s => (s.nDetected, s) := by
  unfold initialise functions
  simp only [foldlM_flatMap, foldlM_map]
  rw [Option.map_eq_bind]
  rfl

/-! ## One visit -/

/-- A device answers there. -/
def Present (f : PciFunction) : Prop := load (ports.space f) 0 2 ≠ 0xFFFF

instance (f : PciFunction) : Decidable (Present ports f) := inferInstanceAs (Decidable (_ ≠ _))

def functionOf (d : PciDevice) : PciFunction := ⟨d.bus.toNat, d.device.toNat, d.function.toNat⟩

/-- What is read for a function, with no link. -/
def record (f : PciFunction) : PciDevice :=
  readDevice ports (.ofNat f.bus) (.ofNat f.device) (.ofNat f.function)

section Record

variable {ports} {f : PciFunction} (hf : f ∈ functions)

include hf

theorem functionOf_record : functionOf (record ports f) = f := by
  obtain ⟨hb, hd, hfn⟩ := (mem_functions f).mp hf
  obtain ⟨bus, device, function⟩ := f
  simp only [functionOf, record, readDevice, UInt8.toNat_ofNat', PciFunction.mk.injEq]
  simp only at hb hd hfn
  omega

theorem record_vendorId : (record ports f).vendorId = 0xFFFF ↔ ¬ Present ports f := by
  obtain ⟨hb, hd, hfn⟩ := (mem_functions f).mp hf
  have hfunction := @functionOf_record ports f hf
  have hdevice : UInt8.ofNat f.device < 32 := by
    rw [UInt8.lt_iff_toNat_lt, UInt8.toNat_ofNat', Nat.mod_eq_of_lt (by omega)]
    exact hd
  have hfunc : UInt8.ofNat f.function < 8 := by
    rw [UInt8.lt_iff_toNat_lt, UInt8.toNat_ofNat', Nat.mod_eq_of_lt (by omega)]
    exact hfn
  have hread : (record ports f).vendorId.toNat = load (ports.space f) 0 2 := by
    show (ports.pciReadWord _ _ _ 0).1.toNat = _
    rw [(ConfigPorts.pciRead_eq hdevice hfunc ports).2.1,
      (ConfigPorts.uacpiPciReadHelper_spec (by decide) hdevice hfunc (by decide) rfl ports).1]
    exact congrArg (fun f => load (ports.space f) 0 2) hfunction
  unfold Present
  rw [not_not, ← hread, ← BitVec.toNat_inj]
  rfl

end Record

/-- The devices at `ptrs` are linked in this order and are those of the functions `fs`. -/
structure Listed (s : Pci) (bs : List Blk) (ptrs : List Nat) (fs : List PciFunction) : Prop where
  sound : Sound s.heap bs
  list : Lists s ptrs
  records : ptrs.map (fun p => { s.devices p with next := 0 }) = fs.map (record ports)
  owns : Owns bs pciDeviceSize ptrs
  tail : ptrs ≠ [] → s.devTail = ptrs.getLastD 0
  counted : s.nDetected = (fs.filter fun f => Present ports f).length

end Ports

section Listed

variable {ports : ConfigPorts} {s : Pci} {bs : List Blk} {ptrs : List Nat} {fs : List PciFunction}

theorem append_spec {d : PciDevice} (hlist : Lists s ptrs)
    (htail : ptrs ≠ [] → s.devTail = ptrs.getLastD 0) (hp : p ≠ 0) (hnew : p ∉ ptrs)
    (hd : s.devices p = d) (hnext : d.next = 0) :
    Lists (s.append p) (ptrs ++ [p]) ∧ (s.append p).devTail = p ∧ (s.append p).devices p = d ∧
      (∀ q ∈ ptrs, { (s.append p).devices q with next := 0 } = { s.devices q with next := 0 }) ∧
      (s.append p).heap = s.heap ∧ (s.append p).nDetected = s.nDetected := by
  unfold append
  by_cases hhead : s.devHead = 0
  · obtain rfl := hlist.null_iff.mp hhead
    rw [if_pos hhead]
    refine ⟨⟨rfl, hp, ?_⟩, rfl, hd, fun q _ => rfl, rfl, rfl⟩
    simp only [hd, hnext]
    rfl
  · have hne : ptrs ≠ [] := fun hnil => hhead (hlist.null_iff.mpr hnil)
    obtain ⟨l, t, rfl⟩ : ∃ l t, ptrs = l ++ [t] :=
      ⟨ptrs.dropLast, ptrs.getLast hne, (dropLast_append_getLast hne).symm⟩
    obtain rfl : s.devTail = t := by simpa using htail hne
    have hpt : p ≠ s.devTail := fun he => hnew (by simp [he])
    have hlt : s.devTail ∉ l := by
      have hnodup := hlist.nodup
      rw [nodup_append] at hnodup
      exact fun hin => hnodup.2.2 _ hin _ (by simp) rfl
    rw [if_neg hhead]
    refine ⟨?_, rfl, ?_, ?_, rfl, rfl⟩
    · unfold Lists at hlist ⊢
      rw [append_assoc, singleton_append]
      refine hlist.cut ⟨?_, hp, ?_⟩ ?_
      · simp [setDevice]
      · simp only [setDevice, update_of_ne hpt, hd, hnext]
        rfl
      · intro q hq
        have hqt : q ≠ s.devTail := fun he => hlt (he ▸ hq)
        simp only [setDevice, update_of_ne hqt]
    · simp only [setDevice, update_of_ne hpt, hd]
    · intro q hq
      by_cases hqt : q = s.devTail
      · simp only [hqt, setDevice, update_self]
      · simp only [setDevice, update_of_ne hqt]

theorem visitFunction_eq {heap : Heap} (hm : s.heap.malloc pciDeviceSize = some (p, heap))
    (hp : p ≠ 0) (hf : f ∈ functions) {s1 : Pci}
    (hs1 : (setDevice { s with heap } p fun _ => record ports f).append p = s1)
    (hd : s1.devices p = record ports f) (hcount : s1.nDetected = s.nDetected)
    (hroom : s.nDetected + 1 < word) :
    visitFunction ports s f =
      some { s1 with nDetected := s.nDetected + if Present ports f then 1 else 0 } := by
  have hadd : pciAddDevice (setDevice { s with heap } p fun _ => record ports f) p =
      if (record ports f).vendorId = 0xFFFF then (false, s1)
      else (true, { s1 with nDetected := s.nDetected + 1 }) := by
    unfold pciAddDevice
    rw [if_neg hp]
    simp only [hs1, hd, hcount, Nat.mod_eq_of_lt hroom]
  unfold visitFunction Pci.visit pciEnumerateHelper
  simp only [hm, Option.bind_eq_bind, Option.bind_some, if_neg hp]
  show some (pciAddDevice (setDevice { s with heap } p fun _ => record ports f) p).2 = _
  rw [hadd]
  simp only [record_vendorId hf]
  by_cases hpresent : Present ports f
  · simp [hpresent]
  · simp [hpresent, ← hcount]

theorem Listed.visit (h : Listed ports s bs ptrs fs) {heap : Heap}
    (hm : s.heap.malloc pciDeviceSize = some (p, heap)) (hp : p ≠ 0) (hf : f ∈ functions)
    (hroom : fs.length < 2048) :
    ∃ s' bs', visitFunction ports s f = some s' ∧ s'.heap = heap ∧
      Listed ports s' bs' (ptrs ++ [p]) (fs ++ [f]) := by
  obtain ⟨hnew, bs', hsound, howns⟩ := h.owns.malloc h.sound hm hp
  have hkept : ∀ q ∈ ptrs, q ≠ p := fun q hq he => hnew (he ▸ hq)
  have hlist : Lists (setDevice { s with heap } p fun _ => record ports f) ptrs :=
    h.list.congr fun q hq => by simp only [setDevice, update_of_ne (hkept q hq)]
  obtain ⟨hlist', htail', hd', hothers, hheap', hcount'⟩ :=
    append_spec (d := record ports f) hlist h.tail hp hnew (by simp [setDevice]) rfl
  obtain ⟨s1, hs1⟩ : ∃ s1, (setDevice { s with heap } p fun _ => record ports f).append p = s1 :=
    ⟨_, rfl⟩
  rw [hs1] at hlist' htail' hd' hothers hheap' hcount'
  have hcounted : s.nDetected + 1 < word := by
    have hle := length_filter_le (fun f => decide (Present ports f)) fs
    rw [h.counted]
    simp only [word]
    omega
  refine ⟨_, bs', visitFunction_eq hm hp hf hs1 hd' hcount' hcounted, hheap',
    hheap' ▸ hsound, hlist', ?_, fun q hq => howns q (by simpa [or_comm] using hq),
    fun _ => by simpa using htail', ?_⟩
  · rw [map_append, map_append, ← h.records]
    refine congrArg₂ _ (map_congr_left fun q hq => ?_) ?_
    · rw [hothers q hq]
      simp only [setDevice, update_of_ne (hkept q hq)]
    · simp only [map_cons, map_nil, hd']
      rfl
  · rw [filter_append, length_append, h.counted]
    by_cases hpresent : Present ports f
    · simp [hpresent]
    · simp [hpresent]

theorem Listed.visits (h : Listed ports s bs ptrs fs) (gs : List PciFunction)
    (hgs : ∀ f ∈ gs, f ∈ functions) (hroom : fs.length + gs.length ≤ 2048)
    (hserves : Serves pciDeviceSize gs.length s.heap) :
    ∃ s' bs' ptrs', gs.foldlM (visitFunction ports) s = some s' ∧
      Listed ports s' bs' ptrs' (fs ++ gs) := by
  induction gs generalizing s bs ptrs fs with
  | nil => exact ⟨s, bs, ptrs, rfl, by simpa using h⟩
  | cons g gs ih =>
    obtain ⟨p, heap, hm, hp, hrest⟩ := hserves
    rw [length_cons] at hroom
    obtain ⟨s1, bs1, hvisit, rfl, h1⟩ := h.visit hm hp (hgs g (by simp)) (by omega)
    obtain ⟨s2, bs2, ptrs2, hfold, h2⟩ :=
      ih h1 (fun f hf => hgs f (by simp [hf])) (by simp; omega) hrest
    refine ⟨s2, bs2, ptrs2, ?_, by simpa using h2⟩
    rw [foldlM_cons, hvisit]
    exact hfold

/-! ## The list -/

theorem Listed.map_functionOf (h : Listed ports s bs ptrs functions) :
    ptrs.map (fun p => functionOf (s.devices p)) = functions := by
  have hmap := congrArg (List.map functionOf) h.records
  rw [List.map_map, List.map_map] at hmap
  refine hmap.trans ?_
  conv_rhs => rw [← List.map_id functions]
  exact map_congr_left fun f hf => functionOf_record hf

theorem Listed.vendorId (h : Listed ports s bs ptrs functions) (hp : p ∈ ptrs) :
    (s.devices p).vendorId = 0xFFFF ↔ ¬ Present ports (functionOf (s.devices p)) := by
  have hmem : { s.devices p with next := 0 } ∈ functions.map (record ports) := by
    rw [← h.records]
    exact List.mem_map.mpr ⟨p, hp, rfl⟩
  obtain ⟨f, hf, he⟩ := List.mem_map.mp hmem
  have hvendor := congrArg PciDevice.vendorId he
  have hfunction : f = functionOf (s.devices p) := by
    rw [← @functionOf_record ports f hf, he]
    rfl
  rw [← hfunction, ← record_vendorId hf, hvendor]

end Listed

theorem initialise_lists (ports : ConfigPorts) {bs : List Blk} (hs : Sound s.heap bs)
    (hhead : s.devHead = 0) (hnum : s.nDetected = 0)
    (hserves : Serves pciDeviceSize functions.length s.heap) :
    ∃ s' bs' ptrs, initialise ports s = some (s'.nDetected, s') ∧
      Listed ports s' bs' ptrs functions := by
  have h0 : Listed ports s bs [] [] :=
    ⟨hs, hhead, rfl, fun p hp => absurd hp not_mem_nil, fun h => absurd rfl h, hnum⟩
  obtain ⟨s', bs', ptrs, hfold, hlisted⟩ :=
    h0.visits functions (fun f hf => hf) (Nat.le_of_eq (by rw [length_nil, Nat.zero_add, length_functions]))
      hserves
  refine ⟨s', bs', ptrs, ?_, hlisted⟩
  rw [initialise_eq, hfold]
  rfl

/-- One of the lookups returns this device. -/
def Found (s : Pci) (p : Nat) : Prop :=
  p ≠ 0 ∧ ∃ fuel, (∃ query, s.getDevice query fuel = some p) ∨
    (∃ bus device function, s.getDeviceBdf bus device function fuel = some p) ∨
    (∃ classCode subclass check progIf,
      s.getDeviceClassCode classCode subclass check progIf fuel = some p) ∨
    ∃ vendorId deviceId, s.getDeviceVendorId vendorId deviceId fuel = some p

theorem Found.mem {ptrs : List Nat} (h : Found s p) (hlist : Lists s ptrs) : p ∈ ptrs := by
  obtain ⟨hp, fuel, hfound⟩ := h
  obtain ⟨isMatch, hsearch⟩ : ∃ isMatch, s.search isMatch fuel = some p := by
    rcases hfound with ⟨_, h⟩ | ⟨_, _, _, h⟩ | ⟨_, _, _, _, h⟩ | ⟨_, _, h⟩ <;> exact ⟨_, h⟩
  exact (hlist.of_seek (by simp) hsearch).resolve_right hp

/-- The list and the count are those of the functions that are present. -/
structure ListsPresent (ports : ConfigPorts) (s : Pci) (n : Nat) (ptrs : List Nat) : Prop where
  exact : ∀ f, f ∈ ptrs.map (fun p => functionOf (s.devices p)) ↔
    (f.bus < 8 ∧ f.device < 32 ∧ f.function < 8) ∧ Present ports f
  length : n = ptrs.length
  found : ∀ p, Found s p → (s.devices p).vendorId ≠ 0xFFFF

theorem initialise_present_iff (ports : ConfigPorts) (s : Pci) (bs : List Blk)
    (hs : Sound s.heap bs) (hhead : s.devHead = 0) (hnum : s.nDetected = 0)
    (hserves : Serves pciDeviceSize functions.length s.heap) :
    ∃ n s' ptrs, initialise ports s = some (n, s') ∧ Lists s' ptrs ∧
      (ListsPresent ports s' n ptrs ↔
        ∀ f : PciFunction, f.bus < 8 → f.device < 32 → f.function < 8 → Present ports f) := by
  obtain ⟨s', bs', ptrs, hrun, h⟩ := initialise_lists ports hs hhead hnum hserves
  refine ⟨s'.nDetected, s', ptrs, hrun, h.list, ?_, ?_⟩
  · intro hexact f hb hd hf
    have hmem : f ∈ functions := (mem_functions f).mpr ⟨hb, hd, hf⟩
    rw [← h.map_functionOf] at hmem
    exact ((hexact.exact f).mp hmem).2
  · intro hall
    have hpresent : ∀ f ∈ functions, Present ports f := fun f hf =>
      hall f ((mem_functions f).mp hf).1 ((mem_functions f).mp hf).2.1 ((mem_functions f).mp hf).2.2
    refine ⟨fun f => ?_, ?_, fun p hp => ?_⟩
    · rw [h.map_functionOf, mem_functions]
      exact ⟨fun hf => ⟨hf, hall f hf.1 hf.2.1 hf.2.2⟩, fun hf => hf.1⟩
    · rw [h.counted, filter_eq_self.mpr (by simpa using hpresent), ← h.map_functionOf,
        length_map]
    · have hin := hp.mem h.list
      rw [Ne, h.vendorId hin, not_not]
      apply hpresent
      rw [← h.map_functionOf]
      exact List.mem_map.mpr ⟨p, hin, rfl⟩

/-- Room for all devices in a heap of one block. -/
def fresh : Pci := ⟨oneMib, fun _ => default, 0, 0, 0⟩

theorem fresh_sound : ∃ bs, Sound fresh.heap bs ∧
    Serves pciDeviceSize functions.length fresh.heap := by
  have hsound := firstBlock_sound (fun _ => 0) (by decide : headerSize < 0x100000000)
    (by decide : 0xFFFF800000100000 + 0x100000000 ≤ word)
  refine ⟨_, hsound, ?_⟩
  rw [length_functions]
  exact .of_room hsound ⟨_, mem_singleton_self _, rfl, by decide⟩

theorem initialise_present_full :
    ∃ n s' ptrs, initialise ⟨0, fun _ _ => 0⟩ fresh = some (n, s') ∧ Lists s' ptrs ∧
      ListsPresent ⟨0, fun _ _ => 0⟩ s' n ptrs := by
  obtain ⟨bs, hsound, hserves⟩ := fresh_sound
  obtain ⟨n, s', ptrs, hrun, hlist, hiff⟩ :=
    initialise_present_iff ⟨0, fun _ _ => 0⟩ fresh bs hsound rfl rfl hserves
  exact ⟨n, s', ptrs, hrun, hlist, hiff.mpr fun f _ _ _ => by simp [Present, load]⟩

/-- On a machine without a device nothing is counted, and 2048 devices are listed; the first of
them is found as a device of vendor 0xFFFF. -/
theorem initialise_empty_machine :
    ∃ s' ptrs, initialise ⟨0, fun _ _ => 0xFF⟩ fresh = some (0, s') ∧ Lists s' ptrs ∧
      ptrs.length = 2048 ∧ (∀ p ∈ ptrs, (s'.devices p).vendorId = 0xFFFF) ∧
      ¬ ListsPresent ⟨0, fun _ _ => 0xFF⟩ s' 0 ptrs := by
  obtain ⟨bs, hsound, hserves⟩ := fresh_sound
  obtain ⟨s', bs', ptrs, hrun, h⟩ :=
    initialise_lists ⟨0, fun _ _ => 0xFF⟩ hsound rfl rfl hserves
  have habsent : ∀ f, ¬ Present ⟨0, fun _ _ => 0xFF⟩ f := fun f => by simp [Present, load]
  have hzero : s'.nDetected = 0 := by
    rw [h.counted, filter_eq_nil_iff.mpr (by simpa using fun f _ => habsent f)]
    rfl
  have hlength : ptrs.length = 2048 := by
    rw [← length_functions, ← h.map_functionOf, length_map]
  rw [hzero] at hrun
  refine ⟨s', ptrs, hrun, h.list, hlength, fun p hp => (h.vendorId hp).mpr (habsent _), ?_⟩
  intro hexact
  have := hexact.length
  omega

end Terrakernel.Pci
