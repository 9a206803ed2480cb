import Mathlib.Tactic.IntervalCases
import Terrakernel.Heap.Used
import Terrakernel.Pmm.Home

/-!
# The heap's region

`reserve_heap` is asked for 4 GiB, then for half as much, down to 1 MiB. If all of that fails the
heap lies at physical address zero.
-/

namespace Terrakernel.Heap

open Memory Vmm Pmm

/-- `reserve_heap` as the heap calls it. -/
def reserve (n : Nat) (s : Pmm) : Nat × Pmm := (s.reserveHeap n).getD (0, s)

/-- The size that is asked for after `k` halvings. -/
def sizeAt (k : Nat) : Nat := 0x100000000 / 2 ^ k

theorem sizeAt_ge {k : Nat} (hk : k ≤ 12) : 0x100000 ≤ sizeAt k :=
  calc 0x100000
    _ = sizeAt 12 := rfl
    _ ≤ sizeAt k := Nat.div_le_div_left (Nat.pow_le_pow_right (by decide) hk) (Nat.two_pow_pos k)

theorem sizeAt_dvd {k : Nat} (hk : k ≤ 12) : sizeAt k / pageSize * pageSize = sizeAt k := by
  interval_cases k <;> rfl

/-! ## The loop -/

/-- After `j` halvings there was a run, after fewer there was none. -/
structure Finds (s : Pmm) (k b z : Nat) (s' : Pmm) (j : Nat) : Prop where
  from_le : k ≤ j
  le : j ≤ 12
  size : z = sizeAt j
  least : ∀ i, k ≤ i → i < j → s.NoRun (sizeAt i / pageSize)
  top : b + z ≤ 2 ^ 47
  nonnull : b ≠ 0
  reserved : s.Reserved (z / pageSize) b s'

theorem reserveLoop_found {b : Nat} (hb : b ≠ 0) (fuel d z : Nat) (s : Pmm) :
    reserveLoop reserve (fuel + 1) d b z s = some (b, z, s) := by
  rw [reserveLoop, if_neg fun h => hb h.1]

theorem reserveLoop_cases {m : Mem} {es : List MemmapEntry} (hlow : Low es) {s : Pmm}
    (hs : Pmm.Reachable m es s) {fuel k : Nat} (z : Nat) (hk : k ≤ 13) (hfuel : 13 < fuel + k) :
    ∃ b z' s', reserveLoop reserve fuel (2 ^ k) 0 z s = some (b, z', s') ∧
      ((∃ j, Finds s k b z' s' j) ∨
        b = 0 ∧ (∀ i, k ≤ i → i ≤ 12 → s.NoRun (sizeAt i / pageSize)) ∧
          ∀ i, s'.bit i = s.bit i) := by
  induction fuel generalizing k z s with
  | zero => omega
  | succ fuel ih =>
    rcases Nat.eq_or_lt_of_le hk with rfl | hlt
    · refine ⟨0, z, s, ?_, .inr ⟨rfl, fun i h1 h2 => absurd h1 (by omega), fun _ => rfl⟩⟩
      rw [reserveLoop, if_neg (by decide)]
    have hsize := sizeAt_ge (Nat.le_of_lt_succ hlt)
    have hpos : 0 < sizeAt k / pageSize :=
      Nat.div_pos (Nat.le_trans (by decide) hsize) (by decide)
    obtain ⟨p, s1, he, hcase⟩ := hs.reserveHeap_cases hlow hpos
    have hreserve : reserve (sizeAt k / pageSize) s = (p, s1) := by rw [reserve, he]; rfl
    have hstep : reserveLoop reserve (fuel + 1) (2 ^ k) 0 z s =
        reserveLoop reserve fuel (2 ^ (k + 1)) p (sizeAt k) s1 := by
      rw [reserveLoop, if_pos ⟨rfl, hsize⟩, pow_succ]
      exact congrArg (fun r : Nat × Pmm => reserveLoop reserve fuel (2 ^ k * 2) r.1 (sizeAt k) r.2)
        hreserve
    rw [hstep]
    rcases hcase with ⟨rfl, hno, hsegs, hsame⟩ | ⟨h0, htop, hres⟩
    · obtain ⟨b, z', s', hloop, hrest⟩ := ih (hs.reserveHeap he) (sizeAt k) hlt (by omega)
      refine ⟨b, z', s', hloop, ?_⟩
      simp only [noRun_congr hsegs hsame, hsame] at hrest
      have hnext : ∀ i, k ≤ i → (k + 1 ≤ i → s.NoRun (sizeAt i / pageSize)) →
          s.NoRun (sizeAt i / pageSize) := by
        intro i hi hlater
        rcases Nat.eq_or_lt_of_le hi with rfl | hgt
        · exact hno
        · exact hlater hgt
      rcases hrest with ⟨j, hf⟩ | ⟨hb, hnone, hbits⟩
      · refine .inl ⟨j, Nat.le_of_succ_le hf.from_le, hf.le, hf.size, ?_, hf.top, hf.nonnull, ?_⟩
        · intro i h1 h2
          exact hnext i h1 fun h => (noRun_congr hsegs hsame).mp (hf.least i h h2)
        · exact (reserved_congr hsegs hsame).mp hf.reserved
      · exact .inr ⟨hb, fun i h1 h2 => hnext i h1 fun h => hnone i h h2, hbits⟩
    · obtain ⟨fuel, rfl⟩ : ∃ f, fuel = f + 1 := ⟨fuel - 1, by omega⟩
      rw [reserveLoop_found h0]
      rw [sizeAt_dvd (Nat.le_of_lt_succ hlt)] at htop
      exact ⟨p, _, s1, rfl, .inl ⟨k, Nat.le_refl k, Nat.le_of_lt_succ hlt, rfl,
        fun i h1 h2 => absurd h1 (by omega), htop, h0, hres⟩⟩

/-! ## After `initialise` -/

/-- The heap has the largest region that was there, as one free block. -/
structure Ready (s : Pmm) (h : Heap) (s' : Pmm) : Prop where
  size : ∃ k ≤ 12, h.heapSize = sizeAt k ∧ ∀ j < k, s.NoRun (sizeAt j / pageSize)
  region : s.Reserved (h.heapSize / pageSize) (vaToPa h.heapBase) s'
  blocks : h.blockList = some [(h.heapBase,
    ⟨h.heapBase + headerSize, h.heapSize - headerSize, true, 0, 0⟩)]

/-- There was no region, and there is no heap. -/
structure Unusable (s : Pmm) (h : Heap) (s' : Pmm) : Prop where
  none : ∀ k ≤ 12, s.NoRun (sizeAt k / pageSize)
  bits : ∀ i, s'.bit i = s.bit i
  heapBase : h.heapBase = 0
  malloc : ∀ n, ∃ h', h.malloc n = some (0, h')

theorem initialise_cases {m hm : Mem} {es : List MemmapEntry} (hlow : Low es) {s : Pmm}
    (hs : Pmm.Reachable m es s) :
    ∃ h s', initialise reserve hm s = some (h, s') ∧ h.heapBase ≠ 0 ∧
      (Ready s h s' ∨ ∀ k ≤ 12, s.NoRun (sizeAt k / pageSize)) := by
  obtain ⟨b, z, s', hloop, hcase⟩ := @reserveLoop_cases m es hlow s hs word 0 0 (by decide) (by decide)
  have hinit : initialise reserve hm s = some (firstBlock hm (paToVa b) z, s') := by
    rw [initialise, ← pow_zero 2, hloop]
    rfl
  refine ⟨_, s', hinit, ?_⟩
  rcases hcase with ⟨j, hf⟩ | ⟨rfl, hnone, -⟩
  · have htop := hf.top
    have hsize := hf.size ▸ sizeAt_ge hf.le
    have hva := @paToVa_low b (by omega)
    have h0 : paToVa b ≠ 0 := by
      rw [hva, directBase]
      omega
    have hfit : paToVa b + z ≤ word := by
      rw [hva, directBase, word]
      omega
    refine ⟨h0, .inl ⟨⟨j, hf.le, hf.size, fun i hi => hf.least i (Nat.zero_le i) hi⟩, ?_, ?_⟩⟩
    · rw [show (firstBlock hm (paToVa b) z).heapBase = paToVa b from rfl, vaToPa_paToVa (by omega)]
      exact hf.reserved
    · have hsound := initialise_sound hinit hfit
      rw [hsound.rep.blockList]
      exact congrArg (fun bs => some (headers 0 bs 0)) (if_neg h0)
  · have h0 : paToVa 0 ≠ 0 := by decide
    exact ⟨h0, .inr fun k hk => hnone k (Nat.zero_le k) hk⟩

/-- The heap is as described just if there are 256 clear pages in a row. -/
theorem initialise_ok_iff {m hm : Mem} {es : List MemmapEntry} (hlow : Low es) {s : Pmm}
    (hs : Pmm.Reachable m es s) :
    ∃ h s', initialise reserve hm s = some (h, s') ∧
      (Ready s h s' ∨ Unusable s h s' ↔ ∃ k start seg, s.RunAt 256 k start seg) := by
  obtain ⟨h, s', hinit, hbase, hcase⟩ := @initialise_cases m hm es hlow s hs
  refine ⟨h, s', hinit, ?_, ?_⟩
  · rintro (hr | hu)
    · obtain ⟨j, hj, hsize, -⟩ := hr.size
      obtain ⟨k, start, seg, hrun, -⟩ := hr.region
      refine ⟨k, start, seg, hrun.shorten ?_⟩
      rw [hsize]
      exact Nat.div_le_div_right (c := pageSize) (sizeAt_ge hj)
    · exact absurd hu.heapBase hbase
  · rintro ⟨k, start, seg, hrun⟩
    rcases hcase with hr | hnone
    · exact .inl hr
    · exact absurd hrun (hnone 12 (Nat.le_refl 12) k start seg)

/-- One MiB for the bitmap, and one for the heap. -/
def twoMib : List MemmapEntry := [⟨0x100000, 0x100000, .usable⟩, ⟨0x200000, 0x100000, .usable⟩]

theorem initialise_ok_iff_twoMib :
    let s := Pmm.booted (fun _ => 0) twoMib
    ∃ h s', initialise reserve (fun _ => 0) s = some (h, s') ∧ (Ready s h s' ∨ Unusable s h s') := by
  have hlow : Low twoMib := by
    unfold Low
    decide
  obtain ⟨h, s', hinit, hiff⟩ := @initialise_ok_iff (fun _ => 0) (fun _ => 0) twoMib hlow _ .initialise
  refine ⟨h, s', hinit, hiff.mpr ⟨1, 0, ⟨0x200000, 0x100000, false, 0x100000⟩, ?_⟩⟩
  exact runAt_initialise _ hlow.bytesOf_lt rfl rfl (by decide)

/-- One page is too little for a heap, and `malloc` hands out the memory at physical address
zero. -/
theorem twoPages_heap_at_zero :
    let s := Pmm.booted (fun _ => 0) twoPages
    ∃ h s', initialise reserve (fun _ => 0) s = some (h, s') ∧
      h.heapBase = 0xFFFF800000000000 ∧ ¬ Ready s h s' ∧ ¬ Unusable s h s' ∧
      ∃ p h', h.malloc 1 = some (p, h') ∧ p ≠ 0 := by
  intro s
  have hloop : (reserveLoop reserve word 1 0 0 s).map (fun r => (r.1, r.2.1)) =
      some (0, 0x100000) := by decide +kernel
  obtain ⟨⟨b, z, s'⟩, hloop, hbz⟩ := Option.map_eq_some_iff.mp hloop
  obtain ⟨rfl, rfl⟩ := Prod.mk.inj hbz
  refine ⟨firstBlock (fun _ => 0) 0xFFFF800000000000 0x100000, s', ?_, rfl, ?_, ?_, ?_⟩
  · rw [initialise, hloop]
    rfl
  · intro hr
    obtain ⟨k, start, seg, hrun, -⟩ := hr.region
    have hshort : ∀ seg ∈ s.segments, seg.length < 0x100000 := by decide
    have hlen := hshort seg (List.mem_of_getElem? hrun.segment)
    have hfits : start + 0x100 ≤ seg.length / 0x1000 := hrun.fits
    omega
  · exact fun hu => absurd hu.heapBase (by decide)
  · have hs := @firstBlock_sound (fun _ => 0) 0xFFFF800000000000 0x100000 (by decide) (by decide)
    have hroom : Room 1 (initialBlocks 0xFFFF800000000000 0x100000) := by
      unfold Room
      decide
    obtain ⟨p, h', -, hm, -, ⟨-, -, -, hno⟩ | ⟨h0, -⟩⟩ := malloc_cases hs 1
    · exact absurd hroom hno
    · exact ⟨p, h', hm, h0⟩

end Terrakernel.Heap
