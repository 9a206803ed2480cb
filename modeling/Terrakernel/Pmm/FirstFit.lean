import Terrakernel.Pmm.Accounts
import Terrakernel.Pmm.Undo

/-!
# The first run that fits

Both allocators take the first run of clear pages. `palloc` passes over a segment that ends at 2^64,
as if it were below 1 MiB.
-/

namespace Terrakernel.Pmm

open Memory Mem Vmm

/-! ## `palloc` and `reserve_heap` -/

/-- In every state, for every number of pages: the same pointer, and the same state afterwards. -/
theorem allocators_agree {m : Mem} {es : List MemmapEntry} (hends : Ends es) {s : Pmm}
    (hs : Reachable m es s) (n : Nat) : s.palloc n = s.reserveHeap n :=
  palloc_eq_of_within hs.within hends n

theorem allocators_agree_twoPages :
    (booted (fun _ => 0) twoPages).palloc 1 =
      (booted (fun _ => 0) twoPages).reserveHeap 1 :=
  allocators_agree twoPages_tidy.low.ends .initialise 1

/-! ## Where the run lies -/

theorem Granted.runAt {s s' : Pmm} {n k start p : Nat} {seg : Segment}
    (hg : s.Granted n seg k start p s') : s.RunAt n k start seg :=
  ⟨hg.segment, hg.notBitmap, hg.fits, hg.clear⟩

theorem Reachable.palloc_cases {m : Mem} {es : List MemmapEntry} {s : Pmm} (hs : Reachable m es s)
    (hends : Ends es) (htotal : bytesOf (segmentsOf es) < word) (hready : s.bitmap ≠ 0) {n : Nat}
    (hn : 0 < n) :
    ∃ p s', s.palloc n = some (p, s') ∧
      ((p, s') = s.allocFailed ∧ s.NoRun n ∨
        ∃ seg k start, s.Granted n seg k start p s' ∧ s.NoRunBefore n k start ∧
          p = seg.base + pageSize * start ∧ p ≠ 0) := by
  have hl := hs.layout_of_total htotal
  rw [palloc_eq_of_within hs.within hends]
  obtain ⟨p, s', he, hf | ⟨seg, k, start, hg, hfirst⟩⟩ := reserveHeap_first hl.pages_le hready hn
  · exact ⟨p, s', he, .inl hf⟩
  · exact ⟨p, s', he, .inr ⟨seg, k, start, hg, hfirst, hg.ptr_eq hl hends hn⟩⟩

/-- Null comes back just if no segment has a run, and then a failure is counted. Otherwise the first
run is taken, and its bits are the ones that are set. -/
theorem palloc_first_fit {m : Mem} {es : List MemmapEntry} (hends : Ends es)
    (htotal : bytesOf (segmentsOf es) < word) {s : Pmm} (hs : Reachable m es s)
    (hready : s.bitmap ≠ 0) {n : Nat} (hn : 0 < n) :
    ∃ p s', s.palloc n = some (p, s') ∧
      (p = 0 ↔ ∀ k start seg, ¬ s.RunAt n k start seg) ∧
      (p = 0 → s' = { s with failedAllocationCount := (s.failedAllocationCount + 1) % word }) ∧
      (p ≠ 0 → ∃ k start seg, s.RunAt n k start seg ∧ s.NoRunBefore n k start ∧
        p = seg.base + pageSize * start ∧
        ∀ i, s'.bit i = (decide (pagesOf (s.segments.take k) + start ≤ i ∧
          i < pagesOf (s.segments.take k) + start + n) || s.bit i)) := by
  obtain ⟨p, s', he, ⟨hf, hno⟩ | ⟨seg, k, start, hg, hfirst, hp, h0⟩⟩ :=
    hs.palloc_cases hends htotal hready hn
  · cases hf
    exact ⟨0, _, he, iff_of_true rfl hno, fun _ => rfl, fun h0 => absurd rfl h0⟩
  · refine ⟨p, s', he, iff_of_false h0 ?_, fun hp0 => absurd hp0 h0, fun _ => ?_⟩
    · exact fun hno => hno k start seg hg.runAt
    · exact ⟨k, start, seg, hg.runAt, hfirst, hp, hg.bits⟩

theorem palloc_first_fit_twoPages :
    ∃ p s', (booted (fun _ => 0) twoPages).palloc 1 = some (p, s') ∧
      (p = 0 ↔ ∀ k start seg,
        ¬ (booted (fun _ => 0) twoPages).RunAt 1 k start seg) := by
  obtain ⟨p, s', he, hiff, -⟩ := @palloc_first_fit (fun _ => 0) twoPages twoPages_tidy.low.ends
    (by decide) _ .initialise (by decide) 1 (by decide)
  exact ⟨p, s', he, hiff⟩

/-! ## A segment at the top of memory -/

theorem runAt_initialise (m : Mem) {es : List MemmapEntry}
    (htotal : bytesOf (segmentsOf es) < word) {k start n : Nat} {seg : Segment}
    (hseg : (booted m es).segments[k]? = some seg)
    (hb : seg.isBitmap = false) (hfits : start + n ≤ seg.length / pageSize) :
    (booted m es).RunAt n k start seg := by
  obtain ⟨-, -, -, -, hbits⟩ := initialise_fresh m htotal
  refine ⟨hseg, hb, hfits, fun i hi => hbits _ ?_⟩
  have hin := pagesOf_take_add_le hseg hb
  have hle := (initialise_layout m htotal).pages_le
  omega

/-- One page for the bitmap, and the last page below 2^64. -/
def topPage : List MemmapEntry :=
  [⟨0x100000, 0x1000, .usable⟩, ⟨0xFFFFFFFFFFFFF000, 0x1000, .usable⟩]

theorem topPage_not_found :
    ((booted (fun _ => 0) topPage).palloc 1).map Prod.fst = some 0 ∧
      (booted (fun _ => 0) topPage).bitmap ≠ 0 ∧
      (booted (fun _ => 0) topPage).RunAt 1 1 0
        ⟨0xFFFFFFFFFFFFF000, 0x1000, false, 0x1000⟩ := by
  exact ⟨rfl, by decide, runAt_initialise _ (by decide) rfl rfl (by decide)⟩

end Terrakernel.Pmm
