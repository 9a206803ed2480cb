import Terrakernel.Lib.Bitmap

/-!
# Interrupt descriptors, as `cpu/idt.cpp` sets them

The two interrupt controllers are part of the state, as far as their mask goes. The
waits between the writes to them are left out, and so is the loading of the table.
-/

namespace Terrakernel

open Function

/-! ## The interrupt controllers -/

/-- One 8259. After the first initialisation word it takes `expects` more on its data port. -/
structure Pic where
  mask : BitVec 8
  expects : Nat
  deriving DecidableEq, Repr

namespace Pic

def command (p : Pic) (value : BitVec 8) : Pic :=
  if value.getLsbD 4 then
    -- ICW2 always follows, ICW3 where there are two controllers, ICW4 where it is asked for.
    { mask := 0
      expects := 1 + (if value.getLsbD 1 then 0 else 1) + (if value.getLsbD 0 then 1 else 0) }
  else p

def data (p : Pic) (value : BitVec 8) : Pic :=
  if p.expects = 0 then { p with mask := value } else { p with expects := p.expects - 1 }

end Pic

structure Pics where
  pic1 : Pic
  pic2 : Pic
  deriving DecidableEq, Repr

namespace Pics

abbrev pic1Command : Nat := 0x20
abbrev pic1Data : Nat := 0x21
abbrev pic2Command : Nat := 0xA0
abbrev pic2Data : Nat := 0xA1

def outb (s : Pics) (port : Nat) (value : BitVec 8) : Pics :=
  if port = pic1Command then { s with pic1 := s.pic1.command value }
  else if port = pic1Data then { s with pic1 := s.pic1.data value }
  else if port = pic2Command then { s with pic2 := s.pic2.command value }
  else if port = pic2Data then { s with pic2 := s.pic2.data value }
  else s

/-- The data ports read as the masks. -/
def inb (s : Pics) (port : Nat) : BitVec 8 :=
  if port = pic1Data then s.pic1.mask else if port = pic2Data then s.pic2.mask else 0xFF

def picRemap (s : Pics) (offset1 offset2 : BitVec 8) : Pics :=
  let s := s.outb pic1Command 0x11
  let s := s.outb pic2Command 0x11
  let s := s.outb pic1Data offset1
  let s := s.outb pic2Data offset2
  let s := s.outb pic1Data 0x04
  let s := s.outb pic2Data 0x02
  let s := s.outb pic1Data 0x01
  let s := s.outb pic2Data 0x01
  let s := s.outb pic1Data 0xFF
  s.outb pic2Data 0xFF

/-- The mask of the line's controller becomes `f` of itself and the line's bit. -/
def updateMask (s : Pics) (irq : Nat) (f : BitVec 8 → BitVec 8 → BitVec 8) : Pics :=
  let (port, irq) := if irq < 8 then (pic1Data, irq) else (pic2Data, irq - 8)
  s.outb port (f (s.inb port) (1#8 <<< irq))

def irqClearMask (s : Pics) (irq : Nat) : Pics := s.updateMask irq fun value bit => value &&& ~~~bit

def irqSetMask (s : Pics) (irq : Nat) : Pics := s.updateMask irq fun value bit => value ||| bit

/-- Line `irq` gets through its controller. -/
def Unmasked (s : Pics) (irq : Nat) : Prop :=
  if irq < 8 then s.pic1.mask.getLsbD irq = false else s.pic2.mask.getLsbD (irq - 8) = false

/-- Both controllers take the next word on their data port for the mask. -/
def Ready (s : Pics) : Prop := s.pic1.expects = 0 ∧ s.pic2.expects = 0

theorem picRemap_eq (s : Pics) (offset1 offset2 : BitVec 8) :
    s.picRemap offset1 offset2 = ⟨⟨0xFF, 0⟩, ⟨0xFF, 0⟩⟩ := by
  simp [picRemap, outb, Pic.command, Pic.data]

theorem updateMask_eq {s : Pics} (hr : s.Ready) (irq : Nat) (f : BitVec 8 → BitVec 8 → BitVec 8) :
    s.updateMask irq f =
      if irq < 8 then { s with pic1 := { s.pic1 with mask := f s.pic1.mask (1#8 <<< irq) } }
      else { s with pic2 := { s.pic2 with mask := f s.pic2.mask (1#8 <<< (irq - 8)) } } := by
  unfold updateMask
  by_cases h8 : irq < 8
  · simp [h8, outb, inb, Pic.data, hr.1]
  · simp [h8, outb, inb, Pic.data, hr.2]

theorem updateMask_ready {s : Pics} (hr : s.Ready) (irq : Nat)
    (f : BitVec 8 → BitVec 8 → BitVec 8) : (s.updateMask irq f).Ready := by
  rw [updateMask_eq hr]
  split <;> exact hr

theorem updateMask_updateMask {s : Pics} (hr : s.Ready) (irq : Nat)
    (f g : BitVec 8 → BitVec 8 → BitVec 8) :
    (s.updateMask irq f).updateMask irq g = s.updateMask irq fun value bit => g (f value bit) bit := by
  rw [updateMask_eq (updateMask_ready hr irq f), updateMask_eq hr, updateMask_eq hr]
  by_cases h8 : irq < 8
  · simp only [h8, if_true]
  · simp only [h8, if_false]

theorem irqClearMask_irqSetMask {s : Pics} (hr : s.Ready) (irq : Nat) :
    (s.irqSetMask irq).irqClearMask irq = s.irqClearMask irq := by
  unfold irqClearMask irqSetMask
  rw [updateMask_updateMask hr]
  congr 1
  funext value bit
  apply BitVec.eq_of_getLsbD_eq
  intro i hi
  simp only [BitVec.getLsbD_and, BitVec.getLsbD_or, BitVec.getLsbD_not]
  grind

theorem unmasked_irqClearMask {s : Pics} (hr : s.Ready) {irq j : Nat} (hi : irq < 16) (hj : j < 16) :
    (s.irqClearMask irq).Unmasked j ↔ j = irq ∨ s.Unmasked j := by
  have hbit : ∀ (m : BitVec 8) a b, a < 8 → b < 8 →
      ((m &&& ~~~(1#8 <<< a)).getLsbD b = false ↔ b = a ∨ m.getLsbD b = false) := by
    intro m a b ha hb
    rw [BitVec.getLsbD_and, BitVec.getLsbD_not, Bitmap.getLsbD_one_shift ha]
    grind
  unfold irqClearMask
  rw [updateMask_eq hr]
  unfold Unmasked
  split <;> split
  · exact hbit _ _ _ ‹_› ‹_›
  · rw [or_iff_right (by omega)]
  · rw [or_iff_right (by omega)]
  · rw [hbit _ _ _ (by omega) (by omega)]
    have hline : j - 8 = irq - 8 ↔ j = irq := by omega
    rw [hline]

end Pics

/-! ## The table -/

structure IdtEntry where
  isrOffsetLow : BitVec 16
  gdtSelector : BitVec 16
  ist : BitVec 8
  flags : BitVec 8
  isrOffsetMiddle : BitVec 16
  isrOffsetHigh : BitVec 32
  alwaysZero : BitVec 32
  deriving DecidableEq, Repr

/-- The handler that the processor calls. -/
def IdtEntry.isr (e : IdtEntry) : BitVec 64 := e.isrOffsetHigh ++ e.isrOffsetMiddle ++ e.isrOffsetLow

structure Idt where
  entries : BitVec 8 → IdtEntry
  setVectors : BitVec 8 → Bool
  pics : Pics

namespace Idt

/-- The static data as the kernel starts, with the controllers as the firmware left them. -/
def start (pics : Pics) : Idt where
  entries := fun _ => ⟨0, 0, 0, 0, 0, 0, 0⟩
  setVectors := fun _ => false
  pics := pics

def entry (isr : BitVec 64) (flags : BitVec 8) : IdtEntry where
  isrOffsetLow := (isr &&& 0xFFFF).setWidth 16
  gdtSelector := 0x08
  ist := 1
  flags := flags
  isrOffsetMiddle := (isr >>> 16 &&& 0xFFFF).setWidth 16
  isrOffsetHigh := (isr >>> 32 &&& 0xFFFFFFFF).setWidth 32
  alwaysZero := 0

/-- The line of a vector, and what is done to its mask. -/
def onLine (s : Idt) (vector : BitVec 8) (f : Pics → Nat → Pics) : Idt :=
  if 0x20 ≤ vector.toNat ∧ vector.toNat < 0x30 then
    if vector.toNat < 0x28 then { s with pics := f s.pics (vector.toNat - 0x20) }
    else { s with pics := f s.pics (vector.toNat - 0x28 + 8) }
  else s

def setDescriptor (s : Idt) (vector : BitVec 8) (isr : BitVec 64) (flags : BitVec 8) : Idt :=
  let s := { s with entries := update s.entries vector (entry isr flags) }
  let s := s.onLine vector Pics.irqClearMask
  { s with setVectors := update s.setVectors vector true }

def clearDescriptor (s : Idt) (vector : BitVec 8) : Idt :=
  let s := s.onLine vector Pics.irqSetMask
  let s := { s with setVectors := update s.setVectors vector false }
  s.setDescriptor vector 0 0

def initialise (s : Idt) (exceptionStubTable : Nat → BitVec 64) : Idt :=
  let s := (List.range 0x1F).foldl
    (fun s i => s.setDescriptor (BitVec.ofNat 8 i) (exceptionStubTable i) 0x8E) s
  let pics := (List.range 16).foldl Pics.irqSetMask s.pics
  let pics := pics.picRemap 0x20 0x28
  { s with pics := pics.irqClearMask 0 }

theorem isr_entry (isr : BitVec 64) (flags : BitVec 8) : (entry isr flags).isr = isr := by
  have hmask : ∀ w i, i < w → (BitVec.ofNat 64 (2 ^ w - 1)).getLsbD i = decide (i < 64) := by
    intro w i hi
    rw [BitVec.getLsbD_ofNat, Nat.testBit_two_pow_sub_one]
    simp [hi]
  have h16 := hmask 16
  have h32 := hmask 32
  simp only [Nat.reducePow, Nat.reduceSub] at h16 h32
  unfold entry IdtEntry.isr
  apply BitVec.eq_of_getLsbD_eq
  intro i hi
  rw [BitVec.getLsbD_append, BitVec.getLsbD_append]
  simp only [BitVec.getLsbD_setWidth, BitVec.getLsbD_and, BitVec.getLsbD_ushiftRight]
  grind

theorem onLine_eq (s : Idt) (vector : BitVec 8) (f : Pics → Nat → Pics) :
    s.onLine vector f =
      { s with
        pics := if 0x20 ≤ vector.toNat ∧ vector.toNat < 0x30 then f s.pics (vector.toNat - 0x20)
          else s.pics } := by
  unfold onLine
  by_cases hline : 0x20 ≤ vector.toNat ∧ vector.toNat < 0x30
  · have hirq : vector.toNat < 0x28 ∨ vector.toNat - 0x28 + 8 = vector.toNat - 0x20 := by omega
    rw [if_pos hline, if_pos hline]
    rcases hirq with h | h
    · rw [if_pos h]
    · rw [h, ite_self]
  · rw [if_neg hline, if_neg hline]

theorem clearDescriptor_eq {s : Idt} (hr : s.pics.Ready) (vector : BitVec 8) :
    s.clearDescriptor vector = s.setDescriptor vector 0 0 := by
  unfold clearDescriptor setDescriptor
  simp only [onLine_eq, update_idem]
  split
  · rw [Pics.irqClearMask_irqSetMask hr]
  · rfl

theorem setDescriptor_ready {s : Idt} (hr : s.pics.Ready) (vector : BitVec 8) (isr : BitVec 64)
    (flags : BitVec 8) : (s.setDescriptor vector isr flags).pics.Ready := by
  unfold setDescriptor
  simp only [onLine_eq]
  split
  · exact Pics.updateMask_ready hr _ _
  · exact hr

theorem setDescriptor_unmasked {s : Idt} (hr : s.pics.Ready) (vector : BitVec 8) (isr : BitVec 64)
    (flags : BitVec 8) {irq : Nat} (hi : irq < 16) :
    (s.setDescriptor vector isr flags).pics.Unmasked irq ↔
      vector.toNat = 0x20 + irq ∨ s.pics.Unmasked irq := by
  unfold setDescriptor
  simp only [onLine_eq]
  split
  · rw [Pics.unmasked_irqClearMask hr (by omega) hi]
    have hline : irq = vector.toNat - 0x20 ↔ vector.toNat = 0x20 + irq := by omega
    rw [hline]
  · rw [or_iff_right (by omega)]

theorem setDescriptor_setVectors (s : Idt) (vector : BitVec 8) (isr : BitVec 64) (flags : BitVec 8) :
    (s.setDescriptor vector isr flags).setVectors = update s.setVectors vector true := by
  unfold setDescriptor
  simp only [onLine_eq]

theorem setDescriptor_entries (s : Idt) (vector : BitVec 8) (isr : BitVec 64) (flags : BitVec 8) :
    (s.setDescriptor vector isr flags).entries =
      update s.entries vector (entry isr flags) := by
  unfold setDescriptor
  simp only [onLine_eq]

theorem setDescriptors_setVectors {vector : BitVec 8} (stubs : Nat → BitVec 64) (is : List Nat)
    (hv : ∀ i ∈ is, vector ≠ BitVec.ofNat 8 i) (s : Idt) :
    (is.foldl (fun s i => s.setDescriptor (BitVec.ofNat 8 i) (stubs i) 0x8E) s).setVectors vector =
      s.setVectors vector := by
  induction is generalizing s with
  | nil => rfl
  | cons i is ih =>
    rw [List.foldl_cons, ih fun j hj => hv j (List.mem_cons_of_mem i hj), setDescriptor_setVectors,
      update_of_ne (hv i List.mem_cons_self)]

theorem initialise_setVectors (pics : Pics) (stubs : Nat → BitVec 64) {vector : BitVec 8}
    (hv : 0x1F ≤ vector.toNat) : ((start pics).initialise stubs).setVectors vector = false := by
  unfold initialise
  rw [setDescriptors_setVectors stubs]
  · rfl
  · rintro i hi rfl
    rw [List.mem_range] at hi
    rw [BitVec.toNat_ofNat] at hv
    omega

theorem initialise_pics (s : Idt) (stubs : Nat → BitVec 64) :
    (s.initialise stubs).pics = ⟨⟨0xFE, 0⟩, ⟨0xFF, 0⟩⟩ := by
  simp only [initialise, Pics.picRemap_eq]
  rfl

end Idt

end Terrakernel
