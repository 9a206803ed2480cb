import Terrakernel.Pmm.Safety
import Terrakernel.Vmm.Code

/-!
# `free` does not undo `palloc`

`free` turns the physical address into one of the direct map, and compares that with the physical
ends of the segments.
-/

namespace Terrakernel.Pmm

open Memory Vmm

variable {s s' : Pmm} {m : Mem} {es : List MemmapEntry}

/-- Every state of the allocator, with `free` called on anything. -/
inductive Reachable (m : Mem) (es : List MemmapEntry) : Pmm → Prop
  | initialise : Reachable m es (booted m es)
  | palloc {s s' : Pmm} {n p : Nat} (h : Reachable m es s) (he : s.palloc n = some (p, s')) :
      Reachable m es s'
  | reserveHeap {s s' : Pmm} {n p : Nat} (h : Reachable m es s)
      (he : s.reserveHeap n = some (p, s')) : Reachable m es s'
  | free {s s' : Pmm} {p n : Nat} (h : Reachable m es s) (he : s.free p n = some s') :
      Reachable m es s'

theorem Reachable.shape_eq (h : Reachable m es s) :
    s.shape = (booted m es).shape := by
  induction h with
  | initialise => rfl
  | palloc _ he ih => exact (palloc_shape he).trans ih
  | reserveHeap _ he ih => exact (reserveHeap_shape he).trans ih
  | free _ he ih => exact (free_shape he).trans ih

theorem Reachable.layout_of_total (h : Reachable m es s) (htotal : bytesOf (segmentsOf es) < word) :
    Layout s.shape es := by
  rw [h.shape_eq]
  exact initialise_layout m htotal

theorem Reachable.layout (h : Reachable m es s) (hlow : Low es) :
    Layout s.shape es := h.layout_of_total hlow.bytesOf_lt

theorem Reachable.within (h : Reachable m es s) :
    ∀ seg ∈ s.shape.segs, seg.length ≠ 0 → Within es seg := by
  rw [h.shape_eq]
  exact initialise_within m es

/-- Nothing that `palloc` changed is left, and no free has failed. -/
structure Restored (s s' : Pmm) : Prop where
  bits : ∀ i, s'.bit i = s.bit i
  usedMem : s'.usedMem = s.usedMem
  freeMem : s'.freeMem = s.freeMem
  remaining : s'.segments.map (·.remainingBytes) = s.segments.map (·.remainingBytes)
  failedFreeCount : s'.failedFreeCount = s.failedFreeCount

theorem free_after_palloc (hlow : Low es) (hs : Reachable m es s) {n p : Nat}
    (hp : s.palloc n = some (p, s')) (h0 : p ≠ 0) :
    p < 2 ^ 47 ∧ s'.failedFreeCount = s.failedFreeCount ∧
      s'.free p n = some (s'.errf (.freeOutside p)).freeFailed := by
  have hl := hs.layout hlow
  have hl' := (hs.palloc hp).layout hlow
  rw [hl.palloc_eq hlow] at hp
  obtain ⟨q, t, he', hcases⟩ := reserveHeap_spec hl.pages_le n
  obtain ⟨rfl, rfl⟩ : q = p ∧ t = s' := by simpa [hp] using he'.symm
  rcases hcases with h | h | ⟨hn, hready, seg, k, start, hg⟩
  · exact absurd (Prod.mk.inj h).1 h0
  · exact absurd (Prod.mk.inj h).1 h0
  · have hlt := (hg.ptr_pos hl hlow hn).2
    have hb : t.bitmap = s.bitmap := congrArg Shape.bitmap hg.shape
    refine ⟨hlt, hg.failedFreeCount, ?_⟩
    apply free_outside (fun seg hseg h0 => (hl'.low hlow hseg h0).2) hlt
    omega

theorem not_restored (h : s'.failedFreeCount = s.failedFreeCount) (e : PmmErr) :
    ¬ Restored s (s'.errf e).freeFailed := by
  intro hr
  have hcount := hr.failedFreeCount
  simp only [freeFailed, errf, h, word] at hcount
  omega

/-- The pair restores the state only where there was nothing to restore: where `palloc` returned
null. `vmm::free` on the page's address in the direct map is the same call. -/
theorem free_restores_iff {m : Mem} {es : List MemmapEntry} (hlow : Low es) {s s' : Pmm}
    (hs : Reachable m es s) {n p : Nat} (hp : s.palloc n = some (p, s')) :
    ((p ≠ 0 → ∃ s2, s'.free p n = some s2 ∧ Restored s s2) ↔ p = 0) ∧
      Vmm.free s' (paToVa p) n = s'.free p n := by
  by_cases h0 : p = 0
  · subst h0
    refine ⟨⟨fun _ => rfl, fun _ hh => absurd rfl hh⟩, ?_⟩
    rw [Vmm.free, vaToPa_paToVa (by decide)]
  · obtain ⟨hlt, hcount, hfree⟩ := free_after_palloc hlow hs hp h0
    refine ⟨⟨fun hrest => ?_, fun hh => absurd hh h0⟩, by rw [Vmm.free, vaToPa_paToVa hlt]⟩
    obtain ⟨s2, he, hr⟩ := hrest h0
    rw [hfree] at he
    obtain rfl := Option.some.inj he
    exact absurd hr (not_restored hcount _)

theorem free_restores_iff_twoPages :
    ∃ s', (booted (fun _ => 0) twoPages).palloc 1 = some (0x200000, s') ∧
      ((0x200000 ≠ 0 → ∃ s2, s'.free 0x200000 1 = some s2 ∧
        Restored (booted (fun _ => 0) twoPages) s2) ↔ 0x200000 = 0) ∧
      Vmm.free s' (paToVa 0x200000) 1 = s'.free 0x200000 1 := by
  obtain ⟨⟨p, s'⟩, hs, rfl⟩ := Option.map_eq_some_iff.mp palloc_twoPages
  exact ⟨s', hs, free_restores_iff twoPages_tidy.low .initialise hs⟩

/-- One page of two is allocated and freed at once. -/
theorem page_not_restored :
    ∃ s', (booted (fun _ => 0) twoPages).palloc 1 = some (0x200000, s') ∧
      ∀ s2, s'.free 0x200000 1 = some s2 →
        s2.failedFreeCount = 1 ∧ ¬ Restored (booted (fun _ => 0) twoPages) s2 := by
  obtain ⟨⟨p, s'⟩, hs, rfl⟩ := Option.map_eq_some_iff.mp palloc_twoPages
  obtain ⟨-, hcount, hfree⟩ := free_after_palloc twoPages_tidy.low .initialise hs (by decide)
  refine ⟨s', hs, ?_⟩
  intro s2 he
  rw [hfree] at he
  obtain rfl := Option.some.inj he
  refine ⟨?_, not_restored hcount _⟩
  simp only [freeFailed, errf, hcount]
  rfl

end Terrakernel.Pmm
