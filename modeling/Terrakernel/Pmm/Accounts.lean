import Terrakernel.Pmm.Safety

/-!
# The counters

The counters say how many bits of the bitmap are set. `free` of a range that was returned changes
none of them: it does not find the range's segment.
-/

namespace Terrakernel.Pmm

open Memory Mem Vmm
open List hiding Mem

variable {s s' : Pmm} {es : List MemmapEntry} {seg : Segment}

/-- Every state of the allocator, with the ranges that were ever returned. A range may be given back
again and again. -/
inductive History (m : Mem) (es : List MemmapEntry) : Pmm → List (Nat × Nat) → Prop
  | initialise : History m es (booted m es) []
  | palloc {s s' : Pmm} {returned : List (Nat × Nat)} {n p : Nat} (h : History m es s returned)
      (he : s.palloc n = some (p, s')) :
      History m es s' (if p = 0 then returned else (p, n) :: returned)
  | reserveHeap {s s' : Pmm} {returned : List (Nat × Nat)} {n p : Nat} (h : History m es s returned)
      (he : s.reserveHeap n = some (p, s')) :
      History m es s' (if p = 0 then returned else (p, n) :: returned)
  | free {s s' : Pmm} {returned : List (Nat × Nat)} {p n : Nat} (h : History m es s returned)
      (hr : (p, n) ∈ returned) (he : s.free p n = some s') : History m es s' returned

/-- The counters and the bitmap say the same. -/
structure Accounts (s : Pmm) : Prop where
  total : s.usedMem + s.freeMem = s.totalMem
  used : s.usedMem = pageSize * Bitmap.count s.bit 0 (8 * s.bitmapSize)
  remaining : ∀ k seg, s.segments[k]? = some seg → seg.isBitmap = false →
    seg.remainingBytes = seg.length -
      pageSize * Bitmap.count s.bit (pagesOf (s.segments.take k)) (seg.length / pageSize)

/-- `n` pages are taken off `free_mem` and off a segment's `remaining_bytes`, which had them. -/
structure Deducts (n : Nat) (s s' : Pmm) : Prop where
  freeMem : s'.freeMem + n * pageSize = s.freeMem
  remaining : ∃ (k : Nat) (seg seg' : Segment), s.segments[k]? = some seg ∧ s'.segments[k]? = some seg' ∧
    seg.isBitmap = false ∧ seg'.remainingBytes + n * pageSize = seg.remainingBytes

/-- The call of `free` gets to its last lines with fewer bytes in use than it has cleared. -/
def Clamps (s : Pmm) (ptr n : Nat) : Prop :=
  ∃ segid seg pageOffset s' actuallyFreed,
    ¬ (s.bitmap = 0 ∨ ptr = 0 ∨ n = 0) ∧ minAllocAddr ≤ paToVa ptr ∧
    findSegment (paToVa ptr) s.segments 0 0 = some (segid, seg, pageOffset) ∧
    clearLoop (pageOffset + (paToVa ptr - seg.base) / pageSize) n 0 s 0 = some (s', actuallyFreed) ∧
    s'.usedMem < actuallyFreed

/-- What carries the accounts through a run. -/
structure Balanced (es : List MemmapEntry) (s : Pmm) (returned : List (Nat × Nat)) : Prop where
  accounts : Accounts s
  layout : Layout s.shape es
  pages : pageSize * pagesOf s.segments ≤ s.totalMem
  totalMem : s.totalMem < word
  rest : ∀ i, pagesOf s.segments ≤ i → i < 8 * s.bitmapSize → s.bit i = false
  returned : ∀ r ∈ returned, r.1 < 2 ^ 47

/-! ## The start -/

theorem slots_fresh {es : List MemmapEntry} {seg : Segment} (h : seg ∈ slots (segmentsOf es)) :
    seg.isBitmap = false ∧ seg.remainingBytes = seg.length := by
  rcases mem_append.mp h with h | h
  · obtain ⟨e, -, hclip⟩ := mem_filterMap.mp (mem_of_mem_take h)
    exact ⟨(clip_some hclip).notBitmap, (clip_some hclip).remaining⟩
  · rw [(mem_replicate.mp h).2]
    exact ⟨rfl, rfl⟩

theorem slots_long (es : List MemmapEntry) :
    ∃ seg ∈ slots (segmentsOf es), bytesOf (segmentsOf es) / 8 ≤ seg.length := by
  by_contra hshort
  push Not at hshort
  have hlen : (slots (segmentsOf es)).length = maxSegments := by
    have : (segmentsOf es).length ≤ maxSegments := length_take_le _ _
    rw [slots, length_append, length_replicate]
    omega
  have hsum : ((slots (segmentsOf es)).map (·.length)).sum ≤
      maxSegments * (bytesOf (segmentsOf es) / 8 - 1) := by
    have := sum_le_card_nsmul ((slots (segmentsOf es)).map (·.length))
      (bytesOf (segmentsOf es) / 8 - 1) (by
        intro x hx
        obtain ⟨seg, hseg, rfl⟩ := List.mem_map.mp hx
        have := hshort seg hseg
        omega)
    simpa [hlen] using this
  have hpos : 0 < bytesOf (segmentsOf es) / 8 := by
    obtain ⟨seg, hseg⟩ := exists_mem_of_length_pos (by rw [hlen]; decide)
    exact Nat.zero_lt_of_lt (hshort seg hseg)
  have hbytes : ((slots (segmentsOf es)).map (·.length)).sum = bytesOf (segmentsOf es) :=
    bytesOf_slots _
  simp only [maxSegments] at hsum
  omega

/-- The state that `initialise` leaves behind, with the bitmap in `home`. -/
structure Fresh (es : List MemmapEntry) (i : Nat) (home : Segment) (s : Pmm) : Prop where
  slot : (slots (segmentsOf es))[i]? = some home
  room : bytesOf (segmentsOf es) / 8 ≤ home.length
  least : ∀ seg ∈ slots (segmentsOf es), bytesOf (segmentsOf es) / 8 ≤ seg.length →
    home.length ≤ seg.length
  segments : s.segments = (slots (segmentsOf es)).modify i Segment.mark
  bitmap : s.bitmap = home.base
  usedMem : s.usedMem = 0
  freeMem : s.freeMem = s.totalMem
  totalMem : s.totalMem = bytesOf (segmentsOf es)
  clear : ∀ i < 8 * s.bitmapSize, s.bit i = false

theorem exists_fresh (m : Mem) (hes : es ≠ []) (hbytes : bytesOf (segmentsOf es) < word) :
    ∃ i home, Fresh es i home (booted m es) := by
  obtain ⟨s, he, hsegs, htotal, -, -, hused⟩ := initialise_eq m hes
  rw [Nat.mod_eq_of_lt hbytes] at htotal
  rw [he]
  rcases prepareBitmap_cases s s.totalMem with ⟨-, hshort⟩ | ⟨i, home, hi, hholds, hleast, hp⟩
  · obtain ⟨seg, hseg, hlong⟩ := slots_long es
    have := hshort seg (hsegs ▸ hseg) (slots_fresh hseg).1
    omega
  · rw [hsegs] at hi hleast
    rw [htotal] at hholds hleast
    refine ⟨i, home, hi, hholds.2, ?_, ?_, ?_, ?_, ?_, ?_, ?_⟩
    · exact fun seg hseg => hleast seg hseg (slots_fresh hseg).1
    · rw [hp, hsegs]
    · rw [hp]
    · rw [hp]
      exact hused
    · rfl
    · rw [hp]
      exact htotal
    · rw [hp]
      intro j hj
      dsimp only at hj
      simp only [bit, Bitmap.test_eq]
      rw [membulkset_eq (show Repeats 0 by decide), memset_apply, if_pos (by omega)]
      simp

theorem initialise_fresh (m : Mem) (hbytes : bytesOf (segmentsOf es) < word) :
    (booted m es).usedMem = 0 ∧
    (booted m es).freeMem = (booted m es).totalMem ∧
    (booted m es).totalMem = bytesOf (segmentsOf es) ∧
    (∀ seg ∈ (booted m es).segments, seg.remainingBytes = seg.length) ∧
    ∀ i < 8 * (booted m es).bitmapSize,
      (booted m es).bit i = false := by
  by_cases hes : es = []
  · subst hes
    refine ⟨rfl, rfl, rfl, fun seg hseg => (@slots_fresh [] seg hseg).2, ?_⟩
    intro i hi
    exact absurd hi (Nat.not_lt_zero i)
  obtain ⟨i, home, hf⟩ := exists_fresh m hes hbytes
  refine ⟨hf.usedMem, hf.freeMem, hf.totalMem, ?_, hf.clear⟩
  intro seg hseg
  obtain ⟨j, hj⟩ := getElem?_of_mem hseg
  rw [hf.segments, getElem?_modify] at hj
  obtain ⟨seg', hseg', hmark⟩ := Option.map_eq_some_iff.mp hj
  have hfresh := (slots_fresh (mem_of_getElem? hseg')).2
  split_ifs at hmark
  · rw [← hmark]
    exact hfresh
  · rw [← hmark]
    exact hfresh

theorem Balanced.initial (hlow : Low es) (m : Mem) :
    Balanced es (booted m es) [] := by
  obtain ⟨hused, hfree, htotal, hremaining, hbits⟩ := initialise_fresh m hlow.bytesOf_lt
  have hl := initialise_layout m hlow.bytesOf_lt
  have hcount : ∀ first n, first + n ≤ 8 * (booted m es).bitmapSize →
      Bitmap.count (booted m es).bit first n = 0 := by
    intro first n hle
    apply countP_eq_zero.mpr
    intro i hi
    rw [hbits _ (by have := mem_range.mp hi; omega)]
    exact Bool.false_ne_true
  refine ⟨⟨?_, ?_, ?_⟩, hl, ?_, htotal ▸ hlow.bytesOf_lt, fun i _ hi => hbits i hi, by simp⟩
  · rw [hused, hfree, Nat.zero_add]
  · rw [hused, hcount 0 _ (by omega), Nat.mul_zero]
  · intro k seg hseg hb
    have hin := pagesOf_take_add_le hseg hb
    rw [hremaining seg (mem_of_getElem? hseg), hcount _ _ (hin.trans hl.pages_le)]
    rfl
  · rw [htotal, ← pagesOf_place]
    exact initialise_pages m es

/-! ## One allocation -/

theorem sub_mod_word {x b : Nat} (hb : b ≤ x) (hx : x < word) : (x + word - b) % word = x - b := by
  rw [show x + word - b = x - b + word by omega, Nat.add_mod_right]
  exact Nat.mod_eq_of_lt (by omega)

theorem pagesOf_take_shape (h : s'.shape = s.shape) (k : Nat) :
    pagesOf (s'.segments.take k) = pagesOf (s.segments.take k) := by
  have hsegs : s'.segments.map Segment.place = s.segments.map Segment.place :=
    congrArg Shape.segs h
  rw [← pagesOf_place, ← pagesOf_place (s.segments.take k), map_take, map_take, hsegs]

theorem pagesOf_take_lt {segs : List Segment} {j k : Nat} (hjk : j < k) (hseg : segs[j]? = some seg)
    (hb : seg.isBitmap = false) :
    pagesOf (segs.take j) + seg.length / pageSize ≤ pagesOf (segs.take k) := by
  have htake : (segs.take k)[j]? = some seg := by rw [getElem?_take_of_lt hjk, hseg]
  have h := pagesOf_take_add_le htake hb
  rw [take_take, min_eq_left (le_of_lt hjk)] at h
  exact h

theorem Granted.count {n k start p : Nat} (hg : s.Granted n seg k start p s') (first pages : Nat) :
    Bitmap.count s'.bit first pages = Bitmap.count s.bit first pages +
      (min (pagesOf (s.segments.take k) + start + n) (first + pages) -
        max (pagesOf (s.segments.take k) + start) first) := by
  refine Bitmap.count_fill (fun i h1 h2 => ?_) hg.bits first pages
  have hclear := hg.clear (i - (pagesOf (s.segments.take k) + start)) (by omega)
  rwa [Nat.add_sub_cancel' h1] at hclear

theorem Granted.pages {n k start p : Nat} (hg : s.Granted n seg k start p s') :
    pagesOf s'.segments = pagesOf s.segments := by
  rw [← pagesOf_place, ← pagesOf_place s.segments]
  exact congrArg (fun sh => pagesOf sh.segs) hg.shape

section Grant

variable {es : List MemmapEntry} {s s' : Pmm} {returned : List (Nat × Nat)} {n k start p : Nat}
  {seg : Segment} (hlow : Low es) (hb : Balanced es s returned) (hg : s.Granted n seg k start p s')

include hb hg

theorem Balanced.grant_rest (i : Nat) (h1 : pagesOf s'.segments ≤ i) (h2 : i < 8 * s'.bitmapSize) :
    s'.bit i = false := by
  have hin := pagesOf_take_add_le hg.segment hg.notBitmap
  have hfits := hg.fits
  rw [hg.pages] at h1
  rw [show s'.bitmapSize = s.bitmapSize from congrArg Shape.bitmapSize hg.shape] at h2
  rw [hg.bits, hb.rest i h1 h2, decide_eq_false (by omega)]
  rfl

theorem Balanced.grant_count :
    Bitmap.count s'.bit 0 (8 * s'.bitmapSize) = Bitmap.count s.bit 0 (8 * s.bitmapSize) + n ∧
      n * pageSize ≤ s.freeMem := by
  have hin := pagesOf_take_add_le hg.segment hg.notBitmap
  have hfits := hg.fits
  have hle := hb.layout.pages_le
  have hsize : s'.bitmapSize = s.bitmapSize := congrArg Shape.bitmapSize hg.shape
  have hcount : Bitmap.count s'.bit 0 (8 * s'.bitmapSize) =
      Bitmap.count s.bit 0 (8 * s.bitmapSize) + n := by
    rw [hsize, hg.count]
    omega
  have hset := Bitmap.count_le_of_clear (hb.grant_rest hg)
  have hused := hb.accounts.used
  have htotal := hb.accounts.total
  have hroom := hb.pages
  rw [hcount, hg.pages] at hset
  refine ⟨hcount, ?_⟩
  simp only [pageSize] at *
  omega

theorem Balanced.grant_bytes : n * pageSize % word = n * pageSize := by
  have hfree := (hb.grant_count hg).2
  have htotal := hb.accounts.total
  have hword := hb.totalMem
  exact Nat.mod_eq_of_lt (by omega)

include hlow

theorem Balanced.grant_remaining :
    (seg.remainingBytes + word - n * pageSize % word) % word + n * pageSize = seg.remainingBytes ∧
      Bitmap.count s'.bit (pagesOf (s.segments.take k)) (seg.length / pageSize) =
        Bitmap.count s.bit (pagesOf (s.segments.take k)) (seg.length / pageSize) + n := by
  have hfits := hg.fits
  have hown := Bitmap.count_le s'.bit (pagesOf (s.segments.take k)) (seg.length / pageSize)
  have hhad := hb.accounts.remaining k seg hg.segment hg.notBitmap
  have hcount : Bitmap.count s'.bit (pagesOf (s.segments.take k)) (seg.length / pageSize) =
      Bitmap.count s.bit (pagesOf (s.segments.take k)) (seg.length / pageSize) + n := by
    rw [hg.count]
    omega
  have hleft : n * pageSize ≤ seg.remainingBytes := by
    have hfit := (Nat.mul_le_mul_right pageSize hown).trans (Nat.div_mul_le_self seg.length pageSize)
    rw [hcount, Nat.add_mul] at hfit
    rw [hhad, Nat.mul_comm pageSize]
    exact Nat.le_sub_of_add_le' hfit
  have htop : seg.remainingBytes < word := by
    have := (hb.layout.low hlow (mem_of_getElem? hg.segment) hg.notEmpty).2
    simp only [word]
    omega
  refine ⟨?_, hcount⟩
  rw [hb.grant_bytes hg, sub_mod_word hleft htop, Nat.sub_add_cancel hleft]

theorem Balanced.grant_segments {j : Nat} {seg' : Segment} (hseg' : s'.segments[j]? = some seg')
    (hb' : seg'.isBitmap = false) :
    seg'.remainingBytes = seg'.length -
      pageSize * Bitmap.count s'.bit (pagesOf (s'.segments.take j)) (seg'.length / pageSize) := by
  rw [pagesOf_take_shape hg.shape]
  rw [hg.segments] at hseg'
  by_cases hkj : k = j
  · subst hkj
    rw [getElem?_modify_eq, hg.segment] at hseg'
    cases hseg'
    obtain ⟨hleft, hcount⟩ := hb.grant_remaining hlow hg
    have hhad := hb.accounts.remaining k seg hg.segment hg.notBitmap
    dsimp only
    rw [hcount]
    simp only [pageSize] at *
    omega
  · rw [getElem?_modify_ne _ _ hkj] at hseg'
    -- The pages that were granted lie outside the other segments' bits.
    rw [hb.accounts.remaining j seg' hseg' hb', hg.count]
    have hfits := hg.fits
    have hapart : pagesOf (s.segments.take j) + seg'.length / pageSize ≤ pagesOf (s.segments.take k) ∨
        pagesOf (s.segments.take k) + seg.length / pageSize ≤ pagesOf (s.segments.take j) := by
      rcases Nat.lt_or_gt_of_ne hkj with hlt | hgt
      · exact .inr (pagesOf_take_lt hlt hg.segment hg.notBitmap)
      · exact .inl (pagesOf_take_lt hgt hseg' hb')
    congr 2
    omega

theorem Balanced.grant (hn : 0 < n) :
    Balanced es s' ((p, n) :: returned) ∧ Deducts n s s' := by
  obtain ⟨hcount, hfree⟩ := hb.grant_count hg
  have hbytes := hb.grant_bytes hg
  have hused := hb.accounts.used
  have htotal := hb.accounts.total
  have hword := hb.totalMem
  have hused' : s'.usedMem = s.usedMem + n * pageSize := by
    rw [hg.usedMem, hbytes]
    exact Nat.mod_eq_of_lt (by omega)
  have hfree' : s'.freeMem + n * pageSize = s.freeMem := by
    rw [hg.freeMem, hbytes, sub_mod_word hfree (by omega), Nat.sub_add_cancel hfree]
  refine ⟨⟨⟨?_, ?_, fun j seg' => hb.grant_segments hlow hg⟩, ?_, ?_, ?_, hb.grant_rest hg, ?_⟩, hfree', ?_⟩
  · rw [hg.totalMem, hused']
    omega
  · rw [hused', hcount, hused, Nat.mul_add, Nat.mul_comm n]
  · rw [hg.shape]
    exact hb.layout
  · rw [hg.pages, hg.totalMem]
    exact hb.pages
  · rw [hg.totalMem]
    exact hword
  · exact forall_mem_cons.mpr ⟨(hg.ptr_pos hb.layout hlow hn).2, hb.returned⟩
  · refine ⟨k, seg, { seg with remainingBytes := _ }, hg.segment, ?_, hg.notBitmap,
      (hb.grant_remaining hlow hg).1⟩
    rw [hg.segments, getElem?_modify_eq, hg.segment]
    rfl

end Grant

section Calls

variable {es : List MemmapEntry} {s : Pmm} {returned : List (Nat × Nat)} (hlow : Low es)
  (hb : Balanced es s returned)

include hlow hb

theorem Balanced.reserveHeap (n : Nat) :
    ∃ p s', s.reserveHeap n = some (p, s') ∧
      Balanced es s' (if p = 0 then returned else (p, n) :: returned) ∧ (p ≠ 0 → Deducts n s s') := by
  obtain ⟨p, s', he, hcases⟩ := reserveHeap_spec hb.layout.pages_le n
  refine ⟨p, s', he, ?_⟩
  rcases hcases with h | h | ⟨hn, -, seg, k, start, hg⟩
  · obtain ⟨rfl, rfl⟩ := Prod.mk.inj h
    exact ⟨by rwa [if_pos rfl], fun h0 => absurd rfl h0⟩
  · obtain ⟨rfl, rfl⟩ := Prod.mk.inj h
    rw [if_pos rfl]
    exact ⟨⟨⟨hb.accounts.total, hb.accounts.used, hb.accounts.remaining⟩, hb.layout, hb.pages,
      hb.totalMem, hb.rest, hb.returned⟩, fun h0 => absurd rfl h0⟩
  · rw [if_neg (hg.ptr_pos hb.layout hlow hn).1]
    obtain ⟨hb', hd⟩ := hb.grant hlow hg hn
    exact ⟨hb', fun _ => hd⟩

theorem Balanced.palloc (n : Nat) :
    ∃ p s', s.palloc n = some (p, s') ∧
      Balanced es s' (if p = 0 then returned else (p, n) :: returned) ∧
      (p ≠ 0 → Deducts n s s') := by
  rw [hb.layout.palloc_eq hlow]
  exact hb.reserveHeap hlow n

theorem Balanced.free {r : Nat × Nat} (hr : r ∈ returned) :
    (∃ s', s.free r.1 r.2 = some s' ∧ Balanced es s' returned) ∧ ¬ s.Clamps r.1 r.2 := by
  have htop : ∀ seg ∈ s.segments, seg.length ≠ 0 → seg.base + seg.length ≤ 2 ^ 47 :=
    fun seg hseg h0 => (hb.layout.low hlow hseg h0).2
  have hptr := hb.returned r hr
  constructor
  · by_cases hnull : s.bitmap = 0 ∨ r.1 = 0 ∨ r.2 = 0
    · exact ⟨s, if_pos hnull, hb⟩
    · refine ⟨_, free_outside htop hptr hnull, ?_⟩
      exact ⟨⟨hb.accounts.total, hb.accounts.used, hb.accounts.remaining⟩, hb.layout, hb.pages,
        hb.totalMem, hb.rest, hb.returned⟩
  · rintro ⟨segid, seg, pageOffset, s', actuallyFreed, -, -, hfind, -⟩
    rw [findSegment_paToVa htop hptr] at hfind
    exact absurd hfind (Option.some_ne_none _).symm

end Calls

theorem History.balanced {m : Mem} {returned : List (Nat × Nat)} (h : History m es s returned)
    (hlow : Low es) : Balanced es s returned := by
  induction h with
  | initialise => exact Balanced.initial hlow m
  | @palloc s s' returned n p _ he ih =>
    obtain ⟨q, t, he', hb, -⟩ := ih.palloc hlow n
    obtain ⟨rfl, rfl⟩ : q = p ∧ t = s' := by simpa [he] using he'.symm
    exact hb
  | @reserveHeap s s' returned n p _ he ih =>
    obtain ⟨q, t, he', hb, -⟩ := ih.reserveHeap hlow n
    obtain ⟨rfl, rfl⟩ : q = p ∧ t = s' := by simpa [he] using he'.symm
    exact hb
  | free _ hr he ih =>
    obtain ⟨⟨t, he', hb⟩, -⟩ := ih.free hlow hr
    rw [he] at he'
    rwa [← Option.some.inj he'] at hb

/-- In every state of a run the counters agree with the bitmap, an allocation takes its bytes from
counters that have them, and `free` never clamps. -/
theorem accounts_of_history {m : Mem} {es : List MemmapEntry} {s : Pmm}
    {returned : List (Nat × Nat)} (hlow : Low es) (h : History m es s returned) :
    Accounts s ∧
      (∀ n, ∃ p s', s.palloc n = some (p, s') ∧ (p ≠ 0 → Deducts n s s')) ∧
      (∀ n, ∃ p s', s.reserveHeap n = some (p, s') ∧ (p ≠ 0 → Deducts n s s')) ∧
      ∀ r ∈ returned, (s.free r.1 r.2).isSome ∧ ¬ s.Clamps r.1 r.2 := by
  have hb := h.balanced hlow
  refine ⟨hb.accounts, ?_, ?_, ?_⟩
  · intro n
    obtain ⟨p, s', he, -, hd⟩ := hb.palloc hlow n
    exact ⟨p, s', he, hd⟩
  · intro n
    obtain ⟨p, s', he, -, hd⟩ := hb.reserveHeap hlow n
    exact ⟨p, s', he, hd⟩
  · intro r hr
    obtain ⟨⟨s', he, -⟩, hclamp⟩ := hb.free hlow hr
    rw [he]
    exact ⟨rfl, hclamp⟩

theorem accounts_of_history_twoPages :
    ∃ s, History (fun _ => 0) twoPages s [(0x200000, 1)] ∧ Accounts s := by
  obtain ⟨⟨p, s⟩, hs, rfl⟩ := Option.map_eq_some_iff.mp palloc_twoPages
  have h0 := History.palloc .initialise hs
  have hfree : ∀ t, History (fun _ => 0) twoPages t [(0x200000, 1)] →
      ∃ t', History (fun _ => 0) twoPages t' [(0x200000, 1)] := by
    intro t ht
    have hsome := ((accounts_of_history twoPages_tidy.low ht).2.2.2 (0x200000, 1) (by simp)).1
    obtain ⟨t', ht'⟩ := Option.isSome_iff_exists.mp hsome
    exact ⟨t', ht.free (by simp) ht'⟩
  obtain ⟨s1, h1⟩ := hfree s h0
  obtain ⟨s2, h2⟩ := hfree s1 h1
  exact ⟨s2, h2, (accounts_of_history twoPages_tidy.low h2).1⟩

end Terrakernel.Pmm
