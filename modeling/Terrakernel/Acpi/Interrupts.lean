import Terrakernel.Heap.Code
import Terrakernel.Idt.Code

/-!
# Interrupt handlers, as `acpi/kernel_api.cpp` installs them

A handler is a descriptor of the table, with its vector in a record on the heap. Its line stays open
when it is gone: `clear_descriptor` ends in a call of `set_descriptor`.
-/

namespace Terrakernel.Acpi

open Memory Function Option

structure Interrupts where
  idt : Idt
  heap : Heap

namespace Interrupts

-- `sizeof(interrupt)`
abbrev interruptSize : Nat := 16

/-- The handle, which is null where there is no memory. -/
def installInterruptHandler (s : Interrupts) (irq : BitVec 32) (handler : BitVec 64) (ctx : Nat) :
    Option (Nat × Interrupts) := do
  let vector := (irq + 0x20).setWidth 8
  let (i, heap) ← s.heap.malloc interruptSize
  if i = 0 then some (0, { s with heap })
  else
    let m := update heap.mem i vector
    let m := update m (i + 1) (irq.setWidth 8)
    let m := update m (i + 2) 1
    let m := store m (i + 8) 8 ctx
    some (i, { idt := s.idt.setDescriptor vector handler 0x8E, heap := { heap with mem := m } })

def uninstallInterruptHandler (s : Interrupts) (irqHandle : Nat) : Option Interrupts := do
  let idt := s.idt.clearDescriptor (s.heap.mem irqHandle)
  let heap ← s.heap.free irqHandle
  some { idt, heap }

/-! ## Runs -/

inductive DescriptorCall where
  | set (vector : BitVec 8) (isr : BitVec 64) (flags : BitVec 8)
  | clear (vector : BitVec 8)
  deriving DecidableEq, Repr

namespace DescriptorCall

def vector : DescriptorCall → BitVec 8
  | set vector _ _ => vector
  | clear vector => vector

def isSet : DescriptorCall → Bool
  | set .. => true
  | clear _ => false

/-- The handler that is in place afterwards, which is null once it is cleared. -/
def isr : DescriptorCall → BitVec 64
  | set _ isr _ => isr
  | clear _ => 0

def flags : DescriptorCall → BitVec 8
  | set _ _ flags => flags
  | clear _ => 0

def exec : DescriptorCall → Idt → Idt
  | set vector isr flags, s => s.setDescriptor vector isr flags
  | clear vector, s => s.clearDescriptor vector

theorem exec_eq {s : Idt} (hr : s.pics.Ready) (call : DescriptorCall) :
    call.exec s = s.setDescriptor call.vector call.isr call.flags := by
  cases call with
  | set vector isr flags => rfl
  | clear vector => exact Idt.clearDescriptor_eq hr vector

end DescriptorCall

inductive Call where
  | descriptor (call : DescriptorCall)
  | install (irq : BitVec 32) (handler : BitVec 64) (ctx : Nat)
  | uninstall (irqHandle : Nat)
  deriving DecidableEq, Repr

/-- The call of the table's functions that each call makes, if it makes one. -/
def Call.exec : Call → Interrupts → Option (Option DescriptorCall × Interrupts)
  | descriptor call, s => some (some call, { s with idt := call.exec s.idt })
  | install irq handler ctx, s => do
    let (i, s) ← s.installInterruptHandler irq handler ctx
    some (if i = 0 then none else some (.set ((irq + 0x20).setWidth 8) handler 0x8E), s)
  | uninstall irqHandle, s => do
    let vector := s.heap.mem irqHandle
    let s ← s.uninstallInterruptHandler irqHandle
    some (some (.clear vector), s)

/-- The calls of the table's functions so far are in `made`, the latest one first. -/
def run : List Call → List DescriptorCall → Interrupts → Option (List DescriptorCall × Interrupts)
  | [], made, s => some (made, s)
  | call :: calls, made, s => do
    let (call, s) ← call.exec s
    run calls (call.toList ++ made) s

theorem exec_idt {call : Call} {s s' : Interrupts} {made : Option DescriptorCall}
    (h : call.exec s = some (made, s')) : s'.idt = made.elim s.idt fun call => call.exec s.idt := by
  cases call with
  | descriptor call =>
    cases h
    rfl
  | install irq handler ctx =>
    simp only [Call.exec, installInterruptHandler, bind_eq_bind, bind_eq_some_iff] at h
    obtain ⟨⟨i, s₁⟩, ⟨⟨j, heap⟩, hmalloc, hj⟩, h⟩ := h
    dsimp only at hj h
    split at hj
    · cases hj
      cases h
      rfl
    · rename_i hne
      cases hj
      rw [if_neg hne] at h
      cases h
      rfl
  | uninstall irqHandle =>
    simp only [Call.exec, uninstallInterruptHandler, bind_eq_bind,
      bind_eq_some_iff] at h
    obtain ⟨s₁, ⟨heap, hfree, hs⟩, h⟩ := h
    cases hs
    cases h
    rfl

/-! ## Lines and handlers -/

def latest (made : List DescriptorCall) (v : BitVec 8) : Option DescriptorCall :=
  made.find? fun call => call.vector = v

/-- The vectors of lines 1 to 15. -/
def IsLine (v : BitVec 8) : Prop := 0x21 ≤ v.toNat ∧ v.toNat ≤ 0x2F

def HandlerSet (made : List DescriptorCall) (v : BitVec 8) : Prop :=
  ∃ call, latest made v = some call ∧ call.isSet

def HandlerCleared (made : List DescriptorCall) (v : BitVec 8) : Prop :=
  ∃ call, latest made v = some call ∧ ¬ call.isSet

/-- Lines follow handlers. -/
structure Follows (made : List DescriptorCall) (s : Idt) : Prop where
  unmasked : ∀ v, IsLine v → (s.pics.Unmasked (v.toNat - 0x20) ↔ HandlerSet made v)
  setVectors : ∀ v, IsLine v → (s.setVectors v = true ↔ HandlerSet made v)
  cleared : ∀ v, IsLine v → HandlerCleared made v →
    ¬ (s.pics.Unmasked (v.toNat - 0x20) ∧ (s.entries v).isr = 0)

/-- What holds instead: a line is open once there was a call on it, of either kind. -/
structure Tracks (made : List DescriptorCall) (s : Idt) : Prop where
  ready : s.pics.Ready
  unmasked : ∀ v, IsLine v → (s.pics.Unmasked (v.toNat - 0x20) ↔ latest made v ≠ none)
  setVectors : ∀ v, IsLine v → (s.setVectors v = true ↔ latest made v ≠ none)
  isr : ∀ v call, latest made v = some call → (s.entries v).isr = call.isr

theorem latest_cons (call : DescriptorCall) (made : List DescriptorCall) (v : BitVec 8) :
    latest (call :: made) v = if call.vector = v then some call else latest made v := by
  unfold latest
  rw [List.find?_cons]
  by_cases hv : call.vector = v
  · rw [decide_eq_true hv, if_pos hv]
  · rw [decide_eq_false hv, if_neg hv]

theorem tracks_initialise (pics : Pics) (stubs : Nat → BitVec 64) :
    Tracks [] ((Idt.start pics).initialise stubs) where
  ready := by
    rw [Idt.initialise_pics]
    exact ⟨rfl, rfl⟩
  unmasked v hv := by
    have hmasked : ∀ irq, 1 ≤ irq → irq < 16 → ¬ Pics.Unmasked ⟨⟨0xFE, 0⟩, ⟨0xFF, 0⟩⟩ irq := by
      unfold Pics.Unmasked
      decide
    rw [Idt.initialise_pics]
    exact iff_of_false (hmasked _ (by have := hv.1; omega) (by have := hv.2; omega)) (· rfl)
  setVectors v hv := by
    rw [Idt.initialise_setVectors pics stubs (by have := hv.1; omega)]
    exact iff_of_false Bool.false_ne_true (· rfl)
  isr v call h := by cases h

theorem Tracks.exec {made : List DescriptorCall} {s : Idt} (ht : Tracks made s)
    (call : DescriptorCall) : Tracks (call :: made) (call.exec s) := by
  rw [DescriptorCall.exec_eq ht.ready]
  refine ⟨Idt.setDescriptor_ready ht.ready _ _ _, ?_, ?_, ?_⟩
  · intro v hv
    have hline : call.vector.toNat = 0x20 + (v.toNat - 0x20) ↔ call.vector = v := by
      rw [← BitVec.toNat_inj]
      have := hv.1
      omega
    rw [Idt.setDescriptor_unmasked ht.ready _ _ _ (by have := hv.2; omega), hline, ht.unmasked v hv,
      latest_cons]
    split <;> simp_all
  · intro v hv
    rw [Idt.setDescriptor_setVectors, latest_cons]
    by_cases hcv : call.vector = v
    · rw [hcv, update_self, if_pos rfl]
      exact iff_of_true rfl (some_ne_none call)
    · rw [update_of_ne (Ne.symm hcv), if_neg hcv]
      exact ht.setVectors v hv
  · intro v c hc
    rw [latest_cons] at hc
    rw [Idt.setDescriptor_entries, update_apply]
    split at hc
    · rename_i hv
      cases hc
      rw [if_pos hv.symm, Idt.isr_entry]
    · rename_i hv
      rw [if_neg (Ne.symm hv)]
      exact ht.isr v c hc

theorem Tracks.run {calls : List Call} {made made' : List DescriptorCall} {s s' : Interrupts}
    (ht : Tracks made s.idt) (h : run calls made s = some (made', s')) : Tracks made' s'.idt := by
  induction calls generalizing made s with
  | nil =>
    cases h
    exact ht
  | cons call calls ih =>
    obtain ⟨⟨c, s₁⟩, hexec, hrun⟩ := bind_eq_some_iff.mp h
    refine ih ?_ hrun
    rw [exec_idt hexec]
    cases c with
    | none => exact ht
    | some c => exact ht.exec c

theorem Tracks.follows_iff {made : List DescriptorCall} {s : Idt} (ht : Tracks made s) :
    Follows made s ↔ ∀ v, IsLine v → ¬ HandlerCleared made v := by
  constructor
  · rintro hf v hv ⟨call, hcall, hclear⟩
    obtain ⟨c, hc, hset⟩ := (hf.setVectors v hv).mp ((ht.setVectors v hv).mpr (by simp [hcall]))
    rw [hcall] at hc
    cases hc
    exact hclear hset
  · intro hno
    have hset : ∀ v, IsLine v → (latest made v ≠ none ↔ HandlerSet made v) := by
      intro v hv
      constructor
      · intro hne
        obtain ⟨call, hcall⟩ := ne_none_iff_exists'.mp hne
        exact ⟨call, hcall, by_contra fun hclear => hno v hv ⟨call, hcall, hclear⟩⟩
      · rintro ⟨call, hcall, -⟩
        simp [hcall]
    exact ⟨fun v hv => (ht.unmasked v hv).trans (hset v hv),
      fun v hv => (ht.setVectors v hv).trans (hset v hv), fun v hv hc => absurd hc (hno v hv)⟩

/-- Lines follow handlers in just the runs after which no line's vector is cleared. -/
theorem follows_iff_not_cleared (pics : Pics) (stubs : Nat → BitVec 64) (heap : Heap)
    (calls : List Call) (made : List DescriptorCall) (s : Interrupts)
    (h : run calls [] ⟨(Idt.start pics).initialise stubs, heap⟩ = some (made, s)) :
    Follows made s.idt ↔ ∀ v, IsLine v → ¬ HandlerCleared made v :=
  (Tracks.run (tracks_initialise pics stubs) h).follows_iff

theorem follows_iff_not_cleared_keyboard :
    Follows [.set 0x21 0x1000 0x8E]
      (((Idt.start ⟨⟨0, 0⟩, ⟨0, 0⟩⟩).initialise fun _ => 0).setDescriptor 0x21 0x1000 0x8E) :=
  (follows_iff_not_cleared ⟨⟨0, 0⟩, ⟨0, 0⟩⟩ (fun _ => 0) ⟨fun _ => 0, 0, 0, []⟩
    [.descriptor (.set 0x21 0x1000 0x8E)] [.set 0x21 0x1000 0x8E] ⟨_, _⟩ rfl).mpr <| by
      rintro v - ⟨call, hcall, hclear⟩
      rw [latest_cons] at hcall
      split at hcall
      · cases hcall
        exact hclear rfl
      · cases hcall

/-- Without it, the line is still open, to a handler at zero. -/
theorem cleared_line_unmasked :
    ∃ made s, run [.descriptor (.set 0x21 0x1000 0x8E), .descriptor (.clear 0x21)] []
        ⟨(Idt.start ⟨⟨0, 0⟩, ⟨0, 0⟩⟩).initialise fun _ => 0, ⟨fun _ => 0, 0, 0, []⟩⟩ = some (made, s) ∧
      HandlerCleared made 0x21 ∧ s.idt.pics.Unmasked 1 ∧ (s.idt.entries 0x21).isr = 0 ∧
      s.idt.setVectors 0x21 = true ∧ ¬ Follows made s.idt := by
  have hline : IsLine 0x21 := ⟨by decide, by decide⟩
  have hcleared : HandlerCleared [.clear 0x21, .set 0x21 0x1000 0x8E] 0x21 :=
    ⟨.clear 0x21, rfl, Bool.false_ne_true⟩
  have ht : Tracks [.clear 0x21, .set 0x21 0x1000 0x8E] _ :=
    ((tracks_initialise ⟨⟨0, 0⟩, ⟨0, 0⟩⟩ fun _ => 0).exec (.set 0x21 0x1000 0x8E)).exec (.clear 0x21)
  have hcall : latest [.clear 0x21, .set 0x21 0x1000 0x8E] 0x21 = some (.clear 0x21) := rfl
  refine ⟨_, _, rfl, hcleared, ?_, ht.isr 0x21 _ hcall, ?_, ?_⟩
  · exact (ht.unmasked 0x21 hline).mpr (by rw [hcall]; exact some_ne_none _)
  · exact (ht.setVectors 0x21 hline).mpr (by rw [hcall]; exact some_ne_none _)
  · exact fun hf => ht.follows_iff.mp hf 0x21 hline hcleared

end Interrupts

end Terrakernel.Acpi
