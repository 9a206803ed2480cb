import Terrakernel.Pmm.Allocate

/-!
# Nobody owns a page twice

Every range in use keeps its bits set, so the next allocation finds other pages.
-/

namespace Terrakernel.Pmm

open Memory Vmm
open List hiding Mem

variable {s s' : Pmm} {es : List MemmapEntry} {seg : Segment} {p n : Nat}

/-! ## Shapes -/

theorem pagesOf_place (segs : List Segment) : pagesOf (segs.map Segment.place) = pagesOf segs := by
  unfold pagesOf
  rw [List.map_map]
  rfl

theorem Layout.pages_le (h : Layout s.shape es) : pagesOf s.segments ≤ 8 * s.bitmapSize := by
  have := h.pages
  rw [shape, pagesOf_place] at this
  exact this

theorem Layout.low (h : Layout s.shape es) (hlow : Low es) (hseg : seg ∈ s.segments)
    (h0 : seg.length ≠ 0) : minAllocAddr ≤ seg.base ∧ seg.base + seg.length ≤ 2 ^ 47 := by
  obtain ⟨hmin, e, he, hu, -, hfin, -⟩ := h.within (Segment.place seg) (List.mem_map_of_mem hseg) h0
  have := hlow e he hu
  simp only [Segment.place] at hmin hfin
  omega

theorem palloc_eq_of_within (h : ∀ seg ∈ s.shape.segs, seg.length ≠ 0 → Within es seg)
    (hends : Ends es) (n : Nat) : s.palloc n = s.reserveHeap n := by
  apply palloc_eq_reserveHeap
  intro seg hseg h0
  obtain ⟨hmin, e, he, hu, -, hfin, -⟩ := h (Segment.place seg) (List.mem_map_of_mem hseg) h0
  have := hends e he hu
  simp only [Segment.place] at hmin hfin
  exact ⟨hmin, by omega⟩

theorem Layout.palloc_eq (h : Layout s.shape es) (hlow : Low es) (n : Nat) :
    s.palloc n = s.reserveHeap n :=
  palloc_eq_of_within h.within hlow.ends n

/-! ## Owned ranges -/

/-- Pages from `start` on in segment `k` are the range `[p, p + n * pageSize)`, with their bits
set. -/
structure Owns (s : Pmm) (p n : Nat) (k start : Nat) (seg : Segment) : Prop where
  pos : 0 < n
  ready : s.shape.bitmap ≠ 0
  segment : s.shape.segs[k]? = some seg
  notEmpty : seg.length ≠ 0
  notBitmap : seg.isBitmap = false
  ptr : p = seg.base + start * pageSize
  fits : start + n ≤ seg.length / pageSize
  bits : ∀ i < n, s.bit (pagesOf (s.shape.segs.take k) + start + i) = true

def RangesApart (r q : Nat × Nat) : Prop :=
  r.1 + r.2 * pageSize ≤ q.1 ∨ q.1 + q.2 * pageSize ≤ r.1

structure Inv (es : List MemmapEntry) (s : Pmm) (live : List (Nat × Nat)) : Prop where
  layout : Layout s.shape es
  apart : s.shape.segs.Pairwise Segment.Apart
  owned : ∀ r ∈ live, ∃ k start seg, s.Owns r.1 r.2 k start seg
  disjoint : live.Pairwise RangesApart

theorem Owns.fin_le {p n k start : Nat} (h : s.Owns p n k start seg) :
    p + n * pageSize ≤ seg.base + seg.length := by
  have hf := h.fits
  have hp := h.ptr
  have := Nat.mul_div_le seg.length pageSize
  simp only [pageSize] at *
  omega

theorem apart_of_ne {segs : List Segment} (h : segs.Pairwise Segment.Apart) {k l : Nat}
    {a b : Segment} (ha : segs[k]? = some a) (hb : segs[l]? = some b) (hkl : k ≠ l) :
    Segment.Apart a b := by
  obtain ⟨hk, rfl⟩ := List.getElem?_eq_some_iff.mp ha
  obtain ⟨hl, rfl⟩ := List.getElem?_eq_some_iff.mp hb
  rw [pairwise_iff_getElem] at h
  rcases Nat.lt_or_gt_of_ne hkl with hlt | hgt
  · exact h k l hk hl hlt
  · have := h l k hl hk hgt
    simp only [Segment.Apart] at *
    omega

theorem Owns.congr {p n k start : Nat} (h : s.Owns p n k start seg) (hs : s'.shape = s.shape)
    (hbits : ∀ i, s.bit i = true → s'.bit i = true) : s'.Owns p n k start seg := by
  refine ⟨h.pos, ?_, ?_, h.notEmpty, h.notBitmap, h.ptr, h.fits, ?_⟩
  · rw [hs]
    exact h.ready
  · rw [hs]
    exact h.segment
  · intro i hi
    rw [hs]
    exact hbits _ (h.bits i hi)

theorem Granted.owns {n k start p : Nat} (hg : s.Granted n seg k start p s')
    (hl : Layout s.shape es) (hlow : Low es) (hn : 0 < n) (hready : s.bitmap ≠ 0) :
    s'.Owns p n k start (Segment.place seg) ∧
      s.Clear (pagesOf (s.shape.segs.take k) + start) n ∧
      s.shape.segs[k]? = some (Segment.place seg) := by
  have hseg : s.shape.segs[k]? = some (Segment.place seg) := by
    rw [Pmm.shape, getElem?_map, hg.segment]
    rfl
  have hpages : pagesOf (s.shape.segs.take k) = pagesOf (s.segments.take k) := by
    rw [Pmm.shape, ← map_take, pagesOf_place]
  have hmem : seg ∈ s.segments := mem_of_getElem? hg.segment
  obtain ⟨-, htop⟩ := hl.low hlow hmem hg.notEmpty
  refine ⟨⟨hn, ?_, ?_, hg.notEmpty, hg.notBitmap, ?_, hg.fits, ?_⟩, ?_, hseg⟩
  · rw [hg.shape]
    exact hready
  · rw [hg.shape]
    exact hseg
  · rw [hg.ptr]
    apply Nat.mod_eq_of_lt
    have := hg.fits
    have := Nat.mul_div_le seg.length pageSize
    simp only [pageSize, word] at *
    omega
  · intro i hi
    rw [hg.shape, hpages, hg.bits, decide_eq_true (by omega), Bool.true_or]
  · rw [hpages]
    exact hg.clear

theorem Owns.apart_of_clear {p n k start : Nat} (ho : s.Owns p n k start seg) {first m : Nat}
    (hm : 0 < m) (hclear : s.Clear (pagesOf (s.shape.segs.take k) + first) m) :
    first + m ≤ start ∨ start + n ≤ first := by
  by_contra hmeet
  -- The later of the two first pages lies in both ranges.
  rcases Nat.le_total start first with hle | hle
  · have h1 := ho.bits (first - start) (by omega)
    have h2 := hclear 0 hm
    rw [show pagesOf (s.shape.segs.take k) + start + (first - start) =
      pagesOf (s.shape.segs.take k) + first + 0 by omega, h2] at h1
    exact absurd h1 (by decide)
  · have h1 := ho.bits 0 ho.pos
    have h2 := hclear (start - first) (by omega)
    rw [show pagesOf (s.shape.segs.take k) + first + (start - first) =
      pagesOf (s.shape.segs.take k) + start + 0 by omega, h1] at h2
    exact absurd h2 (by decide)

theorem Inv.grant {live : List (Nat × Nat)} {n k start p : Nat} (hi : Inv es s live) (hlow : Low es)
    (hn : 0 < n) (hready : s.bitmap ≠ 0) (hg : s.Granted n seg k start p s') :
    Inv es s' ((p, n) :: live) := by
  obtain ⟨hown, hclear, hseg⟩ := hg.owns hi.layout hlow hn hready
  refine ⟨by rw [hg.shape]; exact hi.layout, by rw [hg.shape]; exact hi.apart, ?_, ?_⟩
  · intro r hr
    rcases mem_cons.mp hr with rfl | hr
    · exact ⟨k, start, _, hown⟩
    · obtain ⟨k', start', seg', ho⟩ := hi.owned r hr
      refine ⟨k', start', seg', ho.congr hg.shape ?_⟩
      intro i hbit
      rw [hg.bits, hbit, Bool.or_true]
  · refine .cons ?_ hi.disjoint
    intro r hr
    obtain ⟨k', start', seg', ho⟩ := hi.owned r hr
    have hfin := hown.fin_le
    have hfin' := ho.fin_le
    have hptr := hown.ptr
    have hptr' := ho.ptr
    by_cases hk : k' = k
    · subst hk
      obtain rfl : seg' = Segment.place seg := Option.some.inj (ho.segment.symm.trans hseg)
      have := ho.apart_of_clear hn hclear
      simp only [RangesApart, pageSize] at *
      omega
    · have := apart_of_ne hi.apart ho.segment hseg hk
      have := ho.notEmpty
      have := hown.notEmpty
      simp only [RangesApart, Segment.Apart, pageSize] at *
      omega

/-! ## Every state a run reaches -/

/-- `live` are the ranges handed out and not given back. -/
inductive Reached (m : Mem) (es : List MemmapEntry) : Pmm → List (Nat × Nat) → Prop
  | initialise : Reached m es (booted m es) []
  | palloc {s s' : Pmm} {live : List (Nat × Nat)} {n p : Nat} (h : Reached m es s live)
      (he : s.palloc n = some (p, s')) : Reached m es s' (if p = 0 then live else (p, n) :: live)
  | reserveHeap {s s' : Pmm} {live : List (Nat × Nat)} {n p : Nat} (h : Reached m es s live)
      (he : s.reserveHeap n = some (p, s')) :
      Reached m es s' (if p = 0 then live else (p, n) :: live)
  | free {s s' : Pmm} {live : List (Nat × Nat)} {p n : Nat} (h : Reached m es s live)
      (hr : (p, n) ∈ live) (he : s.free p n = some s') : Reached m es s' (live.erase (p, n))

theorem Inv.initial (h : Tidy es) (m : Mem) : Inv es (booted m es) [] :=
  ⟨initialise_layout m h.low.bytesOf_lt, h.apart m, by simp, .nil⟩

theorem Granted.ptr_eq {n k start p : Nat} (hg : s.Granted n seg k start p s')
    (hl : Layout s.shape es) (hends : Ends es) (hn : 0 < n) :
    p = seg.base + pageSize * start ∧ p ≠ 0 := by
  obtain ⟨hmin, e, he, hu, -, hfin, -⟩ :=
    hl.within (Segment.place seg) (List.mem_map_of_mem (mem_of_getElem? hg.segment)) hg.notEmpty
  have hend := hends e he hu
  have hfits := hg.fits
  have hpages := Nat.mul_div_le seg.length pageSize
  have hp := hg.ptr
  simp only [Segment.place] at hmin hfin
  rw [Nat.mod_eq_of_lt (by simp only [pageSize] at *; omega)] at hp
  simp only [pageSize, minAllocAddr] at *
  omega

theorem Granted.fin_le {n k start p : Nat} (hg : s.Granted n seg k start p s')
    (hl : Layout s.shape es) (hends : Ends es) (hn : 0 < n) :
    p + n * pageSize ≤ seg.base + seg.length := by
  have hp := (hg.ptr_eq hl hends hn).1
  have hfits := hg.fits
  have hpages := Nat.mul_div_le seg.length pageSize
  simp only [pageSize] at *
  omega

theorem Granted.ptr_pos {n k start p : Nat} (hg : s.Granted n seg k start p s')
    (hl : Layout s.shape es) (hlow : Low es) (hn : 0 < n) : p ≠ 0 ∧ p < 2 ^ 47 := by
  have hfin := hg.fin_le hl hlow.ends hn
  have htop := (hl.low hlow (mem_of_getElem? hg.segment) hg.notEmpty).2
  refine ⟨(hg.ptr_eq hl hlow.ends hn).2, ?_⟩
  simp only [pageSize] at *
  omega

theorem Inv.reserveHeap {es : List MemmapEntry} {s s' : Pmm} {live : List (Nat × Nat)} {n p : Nat}
    (hi : Inv es s live) (hlow : Low es) (he : s.reserveHeap n = some (p, s')) :
    Inv es s' (if p = 0 then live else (p, n) :: live) := by
  obtain ⟨q, t, he', hcases⟩ := reserveHeap_spec hi.layout.pages_le n
  obtain ⟨rfl, rfl⟩ : q = p ∧ t = s' := by simpa [he] using he'.symm
  have hsame : ∀ t : Pmm, t.shape = s.shape → (∀ i, t.bit i = s.bit i) → Inv es t live := by
    intro t hs hb
    refine ⟨by rw [hs]; exact hi.layout, by rw [hs]; exact hi.apart, ?_, hi.disjoint⟩
    intro r hr
    obtain ⟨k, start, seg, ho⟩ := hi.owned r hr
    exact ⟨k, start, seg, ho.congr hs fun i h => (hb i).trans h⟩
  rcases hcases with h | h | ⟨hn, hready, seg, k, start, hg⟩
  · obtain ⟨rfl, rfl⟩ := Prod.mk.inj h
    rw [if_pos rfl]
    exact hi
  · obtain ⟨rfl, rfl⟩ := Prod.mk.inj h
    rw [if_pos rfl]
    exact hsame _ rfl fun _ => rfl
  · rw [if_neg (hg.ptr_pos hi.layout hlow hn).1]
    exact hi.grant hlow hn hready hg

theorem Owns.low {p n k start : Nat} (ho : s.Owns p n k start seg) (hl : Layout s.shape es)
    (hlow : Low es) : minAllocAddr ≤ p ∧ p < 2 ^ 47 := by
  obtain ⟨hmin, e, he, hu, -, hfin, -⟩ :=
    hl.within seg (mem_of_getElem? ho.segment) ho.notEmpty
  have := hlow e he hu
  have := ho.fin_le
  have := ho.ptr
  have := ho.pos
  simp only [pageSize] at *
  omega

theorem Inv.free_eq {live : List (Nat × Nat)} (hi : Inv es s live) (hlow : Low es)
    (hr : (p, n) ∈ live) : s.free p n = some (s.errf (.freeOutside p)).freeFailed := by
  obtain ⟨k, start, seg, ho⟩ := hi.owned _ hr
  obtain ⟨hmin, hp⟩ := ho.low hi.layout hlow
  apply free_outside (fun seg hseg h0 => (hi.layout.low hlow hseg h0).2) hp
  have h1 := ho.ready
  have h2 := ho.pos
  simp only [shape, minAllocAddr] at *
  omega

theorem Inv.free {live : List (Nat × Nat)} (hi : Inv es s live) (hlow : Low es) (hr : (p, n) ∈ live)
    (he : s.free p n = some s') : Inv es s' (live.erase (p, n)) := by
  obtain rfl : (s.errf (.freeOutside p)).freeFailed = s' := by
    rw [hi.free_eq hlow hr] at he
    exact Option.some.inj he
  refine ⟨hi.layout, hi.apart, ?_, hi.disjoint.sublist List.erase_sublist⟩
  intro r hmem
  obtain ⟨k, start, seg, ho⟩ := hi.owned r (mem_of_mem_erase hmem)
  exact ⟨k, start, seg, ho.congr rfl fun _ h => h⟩

theorem Reached.inv {m : Mem} {live : List (Nat × Nat)} (h : Reached m es s live) (ht : Tidy es) :
    Inv es s live := by
  induction h with
  | initialise => exact Inv.initial ht m
  | palloc _ he ih =>
    rw [ih.layout.palloc_eq ht.low] at he
    exact ih.reserveHeap ht.low he
  | reserveHeap _ he ih => exact ih.reserveHeap ht.low he
  | free _ hr he ih => exact ih.free ht.low hr he

/-! ## The result -/

/-- What the owners of live ranges rely on. -/
structure Safe (es : List MemmapEntry) (s : Pmm) (live : List (Nat × Nat)) : Prop where
  disjoint : live.Pairwise RangesApart
  aligned : ∀ r ∈ live, pageSize ∣ r.1
  high : ∀ r ∈ live, minAllocAddr ≤ r.1
  inEntry : ∀ r ∈ live, ∃ e ∈ es, e.type = .usable ∧ e.base ≤ r.1 ∧
    r.1 + r.2 * pageSize ≤ e.base + e.length
  offBitmap : ∀ r ∈ live, r.1 + r.2 * pageSize ≤ s.bitmap ∨ s.bitmap + s.bitmapSize ≤ r.1

theorem Owns.offBitmap {p n k start : Nat} (ho : s.Owns p n k start seg) (hl : Layout s.shape es)
    (ha : s.shape.segs.Pairwise Segment.Apart) :
    p + n * pageSize ≤ s.bitmap ∨ s.bitmap + s.bitmapSize ≤ p := by
  obtain ⟨home, hmem, hmark, hbase, hsize⟩ := hl.home ho.ready
  obtain ⟨l, hl', rfl⟩ := getElem_of_mem hmem
  have hhome := getElem?_eq_getElem hl'
  have hkl : k ≠ l := by
    rintro rfl
    have := ho.segment.symm.trans hhome
    rw [← Option.some.inj this, ho.notBitmap] at hmark
    exact absurd hmark (by decide)
  have happ := apart_of_ne ha ho.segment hhome hkl
  have hpages := hl.pages
  have hbound := pagesOf_take_add_le ho.segment ho.notBitmap
  have hfin := ho.fin_le
  have hptr := ho.ptr
  have hfits := ho.fits
  have hpos := ho.pos
  have h0 := ho.notEmpty
  simp only [Segment.Apart, shape, pageSize] at *
  omega

theorem Inv.safe {live : List (Nat × Nat)} (hi : Inv es s live) (ht : Tidy es) :
    Safe es s live := by
  refine ⟨hi.disjoint, ?_, ?_, ?_, ?_⟩
  · intro r hr
    obtain ⟨k, start, seg, ho⟩ := hi.owned r hr
    obtain ⟨-, e, he, hu, -, -, hbase⟩ :=
      hi.layout.within seg (mem_of_getElem? ho.segment) ho.notEmpty
    have := (ht.aligned e he hu).1
    rw [ho.ptr]
    rcases hbase with hbase | hbase <;> simp only [minAllocAddr, pageSize] at * <;> omega
  · intro r hr
    obtain ⟨k, start, seg, ho⟩ := hi.owned r hr
    exact (ho.low hi.layout ht.low).1
  · intro r hr
    obtain ⟨k, start, seg, ho⟩ := hi.owned r hr
    obtain ⟨-, e, he, hu, hstart, hfin, -⟩ :=
      hi.layout.within seg (mem_of_getElem? ho.segment) ho.notEmpty
    have h1 := ho.fin_le
    have h2 := ho.ptr
    exact ⟨e, he, hu, by omega, by omega⟩
  · intro r hr
    obtain ⟨k, start, seg, ho⟩ := hi.owned r hr
    exact ho.offBitmap hi.layout hi.apart

/-- In every state a run reaches, the live ranges are safe, and no call of the allocators or of
`free` on a live range touches a bit outside the bitmap. -/
theorem safe_of_reached {m : Mem} {es : List MemmapEntry} {s : Pmm} {live : List (Nat × Nat)}
    (ht : Tidy es) (h : Reached m es s live) :
    Safe es s live ∧ (∀ n, (s.palloc n).isSome) ∧ (∀ n, (s.reserveHeap n).isSome) ∧
      ∀ r ∈ live, (s.free r.1 r.2).isSome := by
  have hi := h.inv ht
  have hreserve : ∀ n, (s.reserveHeap n).isSome := by
    intro n
    obtain ⟨p, s', he, -⟩ := reserveHeap_spec hi.layout.pages_le n
    rw [he]
    rfl
  refine ⟨hi.safe ht, ?_, hreserve, ?_⟩
  · intro n
    rw [hi.layout.palloc_eq ht.low]
    exact hreserve n
  · intro r hr
    rw [hi.free_eq ht.low hr]
    rfl

/-- Two pages of usable memory. The first one becomes the bitmap. -/
def twoPages : List MemmapEntry := [⟨0x100000, 0x1000, .usable⟩, ⟨0x200000, 0x1000, .usable⟩]

theorem twoPages_tidy : Tidy twoPages := by
  refine ⟨?_, ?_, ?_, ?_⟩ <;> simp [Low, twoPages] <;> decide

set_option maxRecDepth 20000 in
theorem palloc_twoPages :
    ((booted (fun _ => 0) twoPages).palloc 1).map Prod.fst = some 0x200000 := by
  rfl

theorem safe_of_reached_twoPages :
    ∃ s, Reached (fun _ => 0) twoPages s [(0x200000, 1)] ∧ Safe twoPages s [(0x200000, 1)] := by
  obtain ⟨⟨p, s⟩, hs, rfl⟩ := Option.map_eq_some_iff.mp palloc_twoPages
  have hreached := Reached.palloc .initialise hs
  exact ⟨s, hreached, (safe_of_reached twoPages_tidy hreached).1⟩

end Terrakernel.Pmm
