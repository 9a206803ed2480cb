import Mathlib.Data.List.Find
import Terrakernel.Pci.Code

/-!
# Looking up a device

All lookups walk the list of devices to the first match.
-/

namespace Terrakernel.Pci

open Links Heap

/-- The devices at `ptrs` are the list. -/
def Lists (s : Pci) (ptrs : List Nat) : Prop :=
  Chain (fun p => (s.devices p).next) s.devHead ptrs

theorem search_eq {s : Pci} {ptrs : List Nat} (h : Lists s ptrs) (isMatch : PciDevice → Bool)
    {fuel : Nat} (hfuel : ptrs.length < fuel) :
    s.search isMatch fuel = some ((ptrs.find? fun p => isMatch (s.devices p)).getD 0) := by
  have hsame : (ptrs.find? fun p => p = 0 || isMatch (s.devices p)) =
      ptrs.find? fun p => isMatch (s.devices p) := by
    apply List.find?_congr
    intro p hp
    simp [h.ne_zero hp]
  apply h.seek hfuel
  rw [List.find?_append, hsame]
  cases ptrs.find? fun p => isMatch (s.devices p) with
  | none => simp
  | some p => rfl

/-- The criteria that the query selects are met. -/
def Selected (query : PciQuery) (d : PciDevice) : Prop :=
  (query.type &&& getViaVendorIdDeviceId ≠ 0 →
      d.vendorId = query.vendorId ∧ d.deviceId = query.deviceId) ∧
    (query.type &&& getViaClassCodeSubclassCode ≠ 0 →
      d.classCode = query.classCode ∧ d.subclass = query.subclassCode ∧
        (query.type &&& getCheckProgIf ≠ 0 → d.progIf = query.progIf)) ∧
    (query.type &&& getViaBusDeviceFunctionAddress ≠ 0 →
      d.bus = query.bus ∧ d.device = query.device ∧ d.function = query.function)

instance (query : PciQuery) (d : PciDevice) : Decidable (Selected query d) :=
  inferInstanceAs (Decidable (_ ∧ _ ∧ _))

theorem queryMatches_iff (query : PciQuery) (d : PciDevice) :
    queryMatches query d = true ↔ Selected query d := by
  unfold queryMatches Selected
  grind

theorem classMatches_iff (classCode subclass : BitVec 8) (checkProgif : Bool) (progIf : BitVec 8)
    (d : PciDevice) :
    classMatches classCode subclass checkProgif progIf d = true ↔
      d.classCode = classCode ∧ d.subclass = subclass ∧ (checkProgif → d.progIf = progIf) := by
  unfold classMatches
  grind

theorem flag_eq {type low flag : BitVec 32} (hlow : type &&& 7 = low) (hflag : 7 &&& flag = flag) :
    type &&& flag = low &&& flag := by
  rw [← hlow, BitVec.and_assoc, hflag]

theorem lookups_agree (s : Pci) (ptrs : List Nat) (hlist : Lists s ptrs) (query : PciQuery)
    (fuel : Nat) (hfuel : ptrs.length < fuel) :
    s.getDevice query fuel =
        some ((ptrs.find? fun p => Selected query (s.devices p)).getD 0) ∧
      (query.type &&& 7 = getViaVendorIdDeviceId →
        s.getDevice query fuel = s.getDeviceVendorId query.vendorId query.deviceId fuel) ∧
      (query.type &&& 7 = getViaClassCodeSubclassCode →
        s.getDevice query fuel = s.getDeviceClassCode query.classCode query.subclassCode
          (query.type &&& getCheckProgIf ≠ 0) query.progIf fuel) ∧
      (query.type &&& 7 = getViaBusDeviceFunctionAddress →
        s.getDevice query fuel = s.getDeviceBdf query.bus query.device query.function fuel) := by
  have hmatch : ∀ d, queryMatches query d = decide (Selected query d) := fun d =>
    Bool.eq_iff_iff.mpr (by rw [queryMatches_iff, decide_eq_true_iff])
  refine ⟨?_, ?_, ?_, ?_⟩
  · rw [getDevice, search_eq hlist _ hfuel]
    simp only [hmatch]
  all_goals
    intro htype
    have hvendor := @flag_eq _ _ getViaVendorIdDeviceId htype (by decide)
    have hclass := @flag_eq _ _ getViaClassCodeSubclassCode htype (by decide)
    have hbdf := @flag_eq _ _ getViaBusDeviceFunctionAddress htype (by decide)
    unfold getDevice
    congr 1
    funext d
    rw [Bool.eq_iff_iff, queryMatches_iff]
    unfold Selected
    rw [hvendor, hclass, hbdf]
  · simp
  · rw [classMatches_iff]
    simp
  · simp

/-- Two devices at 16 and 32; the second is an AHCI controller. -/
def twoDevices : Pci where
  heap := firstBlock (fun _ => 0) 0xFFFF800000100000 0x100000
  devices := fun p =>
    if p = 16 then { (default : PciDevice) with vendorId := 0x8086, next := 32 }
    else { (default : PciDevice) with classCode := 1, subclass := 6, progIf := 1, next := 0 }
  devHead := 16
  devTail := 32
  nDetected := 2

theorem lookups_agree_twoDevices :
    twoDevices.getDevice ⟨0, 0, 1, 6, 0, 0, 0, 0x4002, 1⟩ 3 = some 32 ∧
      twoDevices.getDevice ⟨0, 0, 1, 6, 0, 0, 0, 0x4002, 1⟩ 3 =
        twoDevices.getDeviceClassCode 1 6 true 1 3 := by
  have h := lookups_agree twoDevices [16, 32] (by simp [Lists, Links.Chain, twoDevices])
    ⟨0, 0, 1, 6, 0, 0, 0, 0x4002, 1⟩ 3 (by decide)
  exact ⟨h.1, h.2.2.1 (by decide)⟩

end Terrakernel.Pci
