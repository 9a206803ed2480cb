import Terrakernel.Lib.Align
import Terrakernel.Lib.Fields
import Terrakernel.Pci.Code

/-!
# The configuration accessors are a byte memory

Both helpers are narrow accesses to the space of their function.
-/

namespace Terrakernel.ConfigPorts

open Memory Fields Function

/-! ## The address -/

theorem offset_masks {offset : Nat} (h : offset < 256) :
    offset &&& 0xFC = offset / 4 * 4 ∧ offset &&& 3 = offset % 4 ∧
      (offset % 2 = 0 → offset &&& 2 = offset % 4) := by
  refine ⟨@Align.and_not_mask offset 8 2 h (by decide), Nat.and_two_pow_sub_one_eq_mod offset 2, ?_⟩
  revert offset
  decide +kernel

theorem fields_eq {bus device function register : Nat} (hb : bus < 2 ^ 8) (hd : device < 2 ^ 5)
    (hf : function < 2 ^ 3) (hr : register < 2 ^ 8) :
    0x80000000 ||| bus <<< 16 ||| device <<< 11 ||| function <<< 8 ||| register =
      2 ^ 31 + 2 ^ 16 * bus + 2 ^ 11 * device + 2 ^ 8 * function + register := by
  simp only [Nat.shiftLeft_eq]
  rw [@or_eq_add 0x80000000 (bus * 2 ^ 16) 24 (by omega) (by omega),
    @or_eq_add _ (device * 2 ^ 11) 16 (by omega) (by omega),
    @or_eq_add _ (function * 2 ^ 8) 11 (by omega) (by omega),
    @or_eq_add _ register 8 (by omega) (by omega)]
  omega

section Place

variable {bus device func : UInt8} {offset : Nat} (hd : device < 32) (hf : func < 8)
  (ho : offset < 256)

include hd hf

theorem pciAddress_eq : pciAddress bus device func offset = uacpiAddress bus device func offset := by
  have hd' : device.toNat < 2 ^ 5 := UInt8.lt_iff_toNat_lt.mp hd
  have hf' : func.toNat < 2 ^ 3 := UInt8.lt_iff_toNat_lt.mp hf
  have hb := bus.toNat_lt
  unfold pciAddress uacpiAddress
  rw [show bus.toNat &&& 0xFF = bus.toNat % 2 ^ 8 from Nat.and_two_pow_sub_one_eq_mod _ 8,
    show device.toNat &&& 0x1F = device.toNat % 2 ^ 5 from Nat.and_two_pow_sub_one_eq_mod _ 5,
    show func.toNat &&& 0x07 = func.toNat % 2 ^ 3 from Nat.and_two_pow_sub_one_eq_mod _ 3,
    Nat.mod_eq_of_lt hb, Nat.mod_eq_of_lt hd', Nat.mod_eq_of_lt hf']
  rfl

include ho

theorem toNat_address :
    (uacpiAddress bus device func offset).toNat =
      2 ^ 31 + 2 ^ 16 * bus.toNat + 2 ^ 11 * device.toNat + 2 ^ 8 * func.toNat +
        offset / 4 * 4 := by
  have hd' : device.toNat < 2 ^ 5 := UInt8.lt_iff_toNat_lt.mp hd
  have hf' : func.toNat < 2 ^ 3 := UInt8.lt_iff_toNat_lt.mp hf
  have hb := bus.toNat_lt
  rw [← pciAddress_eq hd hf]
  unfold pciAddress
  rw [show 1 <<< 31 = 0x80000000 from rfl, (offset_masks ho).1,
    fields_eq hb hd' hf' (by omega), BitVec.toNat_ofNat]
  omega

theorem outl_address (s : ConfigPorts) :
    (s.outl pciConfigAddress (uacpiAddress bus device func offset)).space = s.space ∧
      (s.outl pciConfigAddress (uacpiAddress bus device func offset)).enabled = true ∧
      (s.outl pciConfigAddress (uacpiAddress bus device func offset)).selected =
        ⟨bus.toNat, device.toNat, func.toNat⟩ ∧
      (s.outl pciConfigAddress (uacpiAddress bus device func offset)).register =
        offset / 4 * 4 := by
  have hd' : device.toNat < 2 ^ 5 := UInt8.lt_iff_toNat_lt.mp hd
  have hf' : func.toNat < 2 ^ 3 := UInt8.lt_iff_toNat_lt.mp hf
  have hb := bus.toNat_lt
  have haddress := @toNat_address bus device func offset hd hf ho
  refine ⟨rfl, ?_, ?_, ?_⟩
  · show (uacpiAddress bus device func offset).getLsbD 31 = true
    rw [← BitVec.testBit_toNat, haddress, Nat.testBit_eq_decide_div_mod_eq]
    simp only [decide_eq_true_eq]
    omega
  · simp only [outl, if_true, selected, haddress, PciFunction.mk.injEq]
    omega
  · simp only [outl, if_true, register, haddress]
    omega

theorem inl_data (s : ConfigPorts) :
    (s.outl pciConfigAddress (uacpiAddress bus device func offset)).inl pciConfigData =
      .ofNat 32 (load (s.space ⟨bus.toNat, device.toNat, func.toNat⟩) (offset / 4 * 4) 4) := by
  obtain ⟨hspace, henabled, hselected, hregister⟩ := outl_address hd hf ho s
  unfold inl
  rw [if_neg (by decide), if_pos ⟨rfl, henabled⟩, hspace, hselected, hregister]

theorem outl_data (s : ConfigPorts) (value : BitVec 32) :
    ((s.outl pciConfigAddress (uacpiAddress bus device func offset)).outl pciConfigData
        value).space =
      update s.space ⟨bus.toNat, device.toNat, func.toNat⟩
        (store (s.space ⟨bus.toNat, device.toNat, func.toNat⟩) (offset / 4 * 4) 4
          value.toNat) := by
  obtain ⟨hspace, henabled, hselected, hregister⟩ := outl_address hd hf ho s
  rw [outl, if_neg (by decide), if_pos ⟨rfl, henabled⟩, hspace, hselected, hregister]

end Place

/-! ## The helpers -/

theorem toNat_field (m : Mem) (a : Nat) {i w : Nat} (h : i + w ≤ 4) :
    ((BitVec.ofNat 32 (load m a 4) >>> (i * 8)) &&& BitVec.ofNat 32 (2 ^ (8 * w) - 1)).toNat =
      load m (a + i) w := by
  have hlt := load_lt m 4 a
  have hw : 2 ^ (8 * w) ≤ 2 ^ 32 := Nat.pow_le_pow_right (by decide) (by omega)
  have hpos := Nat.two_pow_pos (8 * w)
  rw [BitVec.toNat_and, BitVec.toNat_ushiftRight, BitVec.toNat_ofNat, BitVec.toNat_ofNat,
    Nat.mod_eq_of_lt (by omega : load m a 4 < 2 ^ 32), Nat.mod_eq_of_lt (by omega),
    Nat.shiftRight_eq_div_pow, Nat.and_two_pow_sub_one_eq_mod, Nat.mul_comm i,
    ← load_field m h a, pow_mul, pow_mul]
  rfl

theorem store_field (m : Mem) (a : Nat) (value : BitVec 32) {i w : Nat} {mask : BitVec 32}
    (hmask : mask = BitVec.ofNat 32 (2 ^ (8 * w) - 1)) (h : i + w ≤ 4) :
    store m a 4 (BitVec.ofNat 32 (load m a 4) &&& ~~~(mask <<< (i * 8)) |||
        (value &&& mask) <<< (i * 8)).toNat =
      store m (a + i) w value.toNat := by
  rw [hmask, Nat.mul_comm i]
  exact @store_patch 32 m a value 4 i w rfl h

section Helpers

variable {order : Nat} {bus device func : UInt8} {offset : Nat} (horder : order ≤ 2)
  (hd : device < 32) (hf : func < 8) (ho : offset < 256) (haligned : offset % 2 ^ order = 0)

include horder hd hf ho haligned

theorem uacpiPciReadHelper_spec (s : ConfigPorts) :
    (s.uacpiPciReadHelper order bus device func offset).1.toNat =
        load (s.space ⟨bus.toNat, device.toNat, func.toNat⟩) offset (2 ^ order) ∧
      (s.uacpiPciReadHelper order bus device func offset).2.space = s.space := by
  obtain ⟨-, hbyte, hword⟩ := offset_masks ho
  unfold uacpiPciReadHelper
  obtain rfl | rfl | rfl : order = 0 ∨ order = 1 ∨ order = 2 := by omega
  all_goals
    refine ⟨?_, rfl⟩
    simp only
    rw [inl_data hd hf ho]
  · rw [hbyte]
    exact (toNat_field _ _ (by omega : offset % 4 + 1 ≤ 4)).trans (by congr 1; omega)
  · rw [hword haligned]
    exact (toNat_field _ _ (by omega : offset % 4 + 2 ≤ 4)).trans (by congr 1; omega)
  · have hlt := load_lt (s.space ⟨bus.toNat, device.toNat, func.toNat⟩) 4 (offset / 4 * 4)
    rw [BitVec.toNat_ofNat, Nat.mod_eq_of_lt (by omega)]
    congr 1
    omega

theorem uacpiPciWriteHelper_spec (s : ConfigPorts) (value : BitVec 32) :
    (s.uacpiPciWriteHelper order bus device func offset value).space =
      update s.space ⟨bus.toNat, device.toNat, func.toNat⟩
        (store (s.space ⟨bus.toNat, device.toNat, func.toNat⟩) offset (2 ^ order)
          value.toNat) := by
  obtain ⟨-, hbyte, hword⟩ := offset_masks ho
  unfold uacpiPciWriteHelper
  obtain rfl | rfl | rfl : order = 0 ∨ order = 1 ∨ order = 2 := by omega
  all_goals
    simp only
    rw [outl_data hd hf ho]
    congr 1
  · rw [inl_data hd hf ho, hbyte, @store_field _ _ value (offset % 4) 1 0xFF#32 rfl (by omega)]
    congr 1
    omega
  · rw [inl_data hd hf ho, hword haligned, @store_field _ _ value (offset % 4) 2 0xFFFF#32 rfl (by omega)]
    congr 1
    omega
  · congr 1
    omega

end Helpers

section Pci

variable {bus device func : UInt8} {offset : Nat} (hd : device < 32) (hf : func < 8)

include hd hf

theorem pciRead_eq (s : ConfigPorts) :
    (s.pciReadByte bus device func offset).1.toNat =
        (s.uacpiPciReadHelper 0 bus device func offset).1.toNat ∧
      (s.pciReadWord bus device func offset).1.toNat =
        (s.uacpiPciReadHelper 1 bus device func offset).1.toNat ∧
      (s.pciReadDword bus device func offset).1.toNat =
        (s.uacpiPciReadHelper 2 bus device func offset).1.toNat := by
  unfold pciReadByte pciReadWord pciReadDword uacpiPciReadHelper
  rw [pciAddress_eq hd hf]
  refine ⟨?_, ?_, rfl⟩
  · simp only [BitVec.toNat_setWidth, BitVec.toNat_and]
    exact Nat.mod_eq_of_lt (Nat.lt_of_le_of_lt Nat.and_le_right (by decide))
  · simp only [BitVec.toNat_setWidth, BitVec.toNat_and]
    exact Nat.mod_eq_of_lt (Nat.lt_of_le_of_lt Nat.and_le_right (by decide))

end Pci

/-! ## The byte memory -/

theorem config_byte_memory (s : ConfigPorts) (order : Nat) (bus device func : UInt8) (offset : Nat)
    (value : BitVec 32) (horder : order ≤ 2) (hd : device < 32) (hf : func < 8)
    (ho : offset < 256) (haligned : offset % 2 ^ order = 0) :
    let s' := s.uacpiPciWriteHelper order bus device func offset value
    (s'.uacpiPciReadHelper order bus device func offset).1.toNat =
        value.toNat % 2 ^ (8 * 2 ^ order) ∧
      (∀ f o, ¬ (f = ⟨bus.toNat, device.toNat, func.toNat⟩ ∧ offset ≤ o ∧ o < offset + 2 ^ order) →
        s'.space f o = s.space f o) ∧
      (s.uacpiPciReadHelper order bus device func offset).1.toNat =
        Nat.ofDigits 256 ((List.range (2 ^ order)).map fun i =>
          (s.uacpiPciReadHelper 0 bus device func (offset + i)).1.toNat) ∧
      (s.uacpiPciReadHelper order bus device func offset).2.space = s.space ∧
      (s.pciReadByte bus device func offset).1.toNat =
        (s.uacpiPciReadHelper 0 bus device func offset).1.toNat ∧
      (s.pciReadWord bus device func offset).1.toNat =
        (s.uacpiPciReadHelper 1 bus device func offset).1.toNat ∧
      (s.pciReadDword bus device func offset).1.toNat =
        (s.uacpiPciReadHelper 2 bus device func offset).1.toNat := by
  intro s'
  have hwrite := @uacpiPciWriteHelper_spec order bus device func offset horder hd hf ho haligned s
    value
  have hread := @uacpiPciReadHelper_spec order bus device func offset horder hd hf ho haligned s
  refine ⟨?_, ?_, ?_, hread.2, pciRead_eq hd hf s⟩
  · rw [(uacpiPciReadHelper_spec horder hd hf ho haligned s').1, hwrite, update_self,
      load_store_same, pow_mul]
    rfl
  · intro f o hout
    rw [hwrite]
    by_cases hf' : f = ⟨bus.toNat, device.toNat, func.toNat⟩
    · have hapart : o < offset ∨ offset + 2 ^ order ≤ o := by
        rcases Nat.lt_or_ge o offset with hlt | hge
        · exact .inl hlt
        · exact .inr (Nat.not_lt.mp fun hlt => hout ⟨hf', hge, hlt⟩)
      rw [hf', update_self, store_outside _ _ _ _ _ hapart]
    · rw [update_of_ne hf']
  · rw [hread.1, load_eq_ofDigits]
    congr 1
    apply List.map_congr_left
    intro i hi
    have hin : offset + i < 256 := by
      have hi' := List.mem_range.mp hi
      obtain rfl | rfl | rfl : order = 0 ∨ order = 1 ∨ order = 2 := by omega
      all_goals omega
    rw [(uacpiPciReadHelper_spec (by decide) hd hf hin (Nat.mod_one _) s).1]
    simp [load]

theorem config_byte_memory_word :
    (((ConfigPorts.mk 0 fun _ _ => 0x11).uacpiPciWriteHelper 1 0 3 0 0x3E
        0xABCD1234).uacpiPciReadHelper 1 0 3 0 0x3E).1.toNat = 0x1234 :=
  (config_byte_memory ⟨0, fun _ _ => 0x11⟩ 1 0 3 0 0x3E 0xABCD1234 (by decide) (by decide)
    (by decide) (by decide) (by decide)).1

end Terrakernel.ConfigPorts
