import Terrakernel.Pmm.Segments

/-!
# What one call of the page allocator does

Both allocators look for the first run of clear bits in a segment. `free` looks for a physical
address in the direct map.
-/

namespace Terrakernel.Pmm

open Memory Mem Vmm List Option

variable {s s' : Pmm} {n k p segid pageOffset : Nat} {segs : List Segment} {seg : Segment}

def bit (s : Pmm) (i : Nat) : Bool := Bitmap.test s.mem s.bitmap i

def Clear (s : Pmm) (first n : Nat) : Prop := ∀ i < n, s.bit (first + i) = false

/-! ## The scan -/

/-- The answer of a scan over the pages `lo` to `hi` of a segment. -/
def FirstRun (s : Pmm) (needed pageOffset lo hi : Nat) : Option Nat → Prop
  | some st => lo ≤ st ∧ st + needed ≤ hi ∧ s.Clear (pageOffset + st) needed ∧
      ∀ st', lo ≤ st' → st' < st → ¬ s.Clear (pageOffset + st') needed
  | none => ∀ st', lo ≤ st' → st' + needed ≤ hi → ¬ s.Clear (pageOffset + st') needed

theorem bitmapTest_eq {i : Nat} (h : i < 8 * s.bitmapSize) :
    s.bitmapTest i = some (s.bit i) := if_pos h

theorem scan_spec {s : Pmm} {needed pageOffset lo left j found start : Nat}
    (hbound : pageOffset + (j + left) ≤ 8 * s.bitmapSize) (hfound : found < needed)
    (hlo : lo + found ≤ j) (hstart : found ≠ 0 → start + found = j)
    (hclear : s.Clear (pageOffset + (j - found)) found)
    (hbefore : ∀ st, lo ≤ st → st + found < j → ¬ s.Clear (pageOffset + st) needed) :
    ∃ r, s.scan needed pageOffset left j found start = some r ∧
      s.FirstRun needed pageOffset lo (j + left) r := by
  induction left generalizing j found start with
  | zero =>
    refine ⟨none, rfl, ?_⟩
    intro st h1 h2
    exact hbefore st h1 (by omega)
  | succ left ih =>
    have htest := bitmapTest_eq (s := s) (i := pageOffset + j) (by omega)
    rw [scan, htest, show j + (left + 1) = j + 1 + left by omega]
    cases hbit : s.bit (pageOffset + j) with
    | true =>
      simp only [bind_eq_bind, bind_some, if_true]
      apply ih (by omega) (by omega) (by omega) (fun h => absurd rfl h)
      · intro i hi
        omega
      · -- A run that starts at `st` would go through page `j`.
        intro st h1 h2 hst
        rcases Nat.lt_or_ge (st + found) j with hlt | hge
        · exact hbefore st h1 hlt hst
        · have hj := hst (j - st) (by omega)
          rw [show pageOffset + st + (j - st) = pageOffset + j by omega, hbit] at hj
          exact absurd hj (by decide)
    | false =>
      simp only [bind_eq_bind, bind_some, Bool.false_eq_true, if_false]
      have hcand : (if found = 0 then j else start) = j - found := by
        split_ifs with h0
        · omega
        · have := hstart h0
          omega
      have hrun : s.Clear (pageOffset + (j - found)) (found + 1) := by
        intro i hi
        rcases Nat.lt_or_ge i found with hlt | hge
        · exact hclear i hlt
        · rw [show pageOffset + (j - found) + i = pageOffset + j by omega]
          exact hbit
      rw [hcand]
      split_ifs with hdone
      · refine ⟨some (j - found), rfl, by omega, by omega, ?_, ?_⟩
        · rw [← hdone]
          exact hrun
        · intro st h1 h2
          exact hbefore st h1 (by omega)
      · apply ih (by omega) (by omega) (by omega) (fun _ => by omega)
        · rw [show j + 1 - (found + 1) = j - found by omega]
          exact hrun
        · intro st h1 h2
          exact hbefore st h1 (by omega)

theorem scan_start {s : Pmm} {needed pageOffset pages : Nat}
    (hbound : pageOffset + pages ≤ 8 * s.bitmapSize) (hneeded : 0 < needed) :
    ∃ r, s.scan needed pageOffset pages 0 0 0 = some r ∧
      s.FirstRun needed pageOffset 0 pages r := by
  have h := @scan_spec s needed pageOffset 0 pages 0 0 0 (by omega) hneeded (le_refl _)
    (fun h => absurd rfl h) (fun i hi => by omega) (fun st _ h => by omega)
  rw [Nat.zero_add] at h
  exact h

/-! ## Taking a run -/

theorem setBits_spec (s : Pmm) {first n : Nat} (h : first + n ≤ 8 * s.bitmapSize) :
    ∃ m', s.setBits first n = some { s with mem := m' } ∧
      (∀ i, Bitmap.test m' s.bitmap i = (decide (first ≤ i ∧ i < first + n) || s.bit i)) ∧
      ∀ x, x < s.bitmap ∨ s.bitmap + s.bitmapSize ≤ x → m' x = s.mem x := by
  induction n with
  | zero =>
    refine ⟨s.mem, rfl, fun i => ?_, fun _ _ => rfl⟩
    rw [decide_eq_false (by omega), Bool.false_or]
    rfl
  | succ n ih =>
    obtain ⟨m', he, hbits, hout⟩ := ih (by omega)
    refine ⟨Bitmap.set m' s.bitmap (first + n), ?_, ?_, ?_⟩
    · rw [setBits, he]
      exact if_pos (by dsimp only; omega)
    · intro i
      rw [Bitmap.test_set, hbits]
      by_cases hi : i = first + n
      · simp [hi]
      · have : (first ≤ i ∧ i < first + (n + 1)) ↔ (first ≤ i ∧ i < first + n) := by omega
        simp only [this, hi, decide_false, Bool.false_or]
    · intro x hx
      rw [Bitmap.set_outside _ (n := s.bitmapSize) (by omega) hx]
      exact hout x hx

/-- The run of `n` pages from page `start` of segment `k` was free and now belongs to the
caller. -/
structure Granted (s : Pmm) (n : Nat) (seg : Segment) (k start p : Nat) (s' : Pmm) : Prop where
  segment : s.segments[k]? = some seg
  notEmpty : seg.length ≠ 0
  notBitmap : seg.isBitmap = false
  fits : start + n ≤ seg.length / pageSize
  clear : s.Clear (pagesOf (s.segments.take k) + start) n
  ptr : p = (seg.base + start * pageSize) % word
  shape : s'.shape = s.shape
  bits : ∀ i, s'.bit i = (decide (pagesOf (s.segments.take k) + start ≤ i ∧
    i < pagesOf (s.segments.take k) + start + n) || s.bit i)
  totalMem : s'.totalMem = s.totalMem
  usedMem : s'.usedMem = (s.usedMem + n * pageSize % word) % word
  freeMem : s'.freeMem = (s.freeMem + word - n * pageSize % word) % word
  segments : s'.segments = s.segments.modify k fun seg =>
    { seg with remainingBytes := (seg.remainingBytes + word - n * pageSize % word) % word }
  failedFreeCount : s'.failedFreeCount = s.failedFreeCount

theorem place_remaining (seg : Segment) (r : Nat) :
    Segment.place { seg with remainingBytes := r } = Segment.place seg := rfl

theorem shape_modify {f : Segment → Segment} (hf : ∀ seg, Segment.place (f seg) = Segment.place seg)
    (hs : s'.segments = s.segments.modify k f) (hb : s'.bitmap = s.bitmap)
    (hz : s'.bitmapSize = s.bitmapSize) : s'.shape = s.shape := by
  unfold shape
  rw [hs, hb, hz, map_modify_same hf]

theorem pagesOf_take_add_le (hseg : segs[k]? = some seg) (hb : seg.isBitmap = false) :
    pagesOf (segs.take k) + seg.length / pageSize ≤ pagesOf segs := by
  have hsplit : segs = segs.take k ++ seg :: segs.drop (k + 1) := by
    obtain ⟨hk, rfl⟩ := List.getElem?_eq_some_iff.mp hseg
    rw [← drop_eq_getElem_cons hk, take_append_drop]
  have hsum : pagesOf segs = pagesOf (segs.take k) + pagesOf (seg :: segs.drop (k + 1)) := by
    rw [← pagesOf_append, ← hsplit]
  have hcons : pagesOf (seg :: segs.drop (k + 1)) =
      seg.length / pageSize + pagesOf (segs.drop (k + 1)) := by
    simp [pagesOf, Segment.pages, hb]
  omega

theorem take_spec {k start : Nat} (hpages : pagesOf s.segments ≤ 8 * s.bitmapSize)
    (hseg : s.segments[k]? = some seg) (h0 : seg.length ≠ 0) (hb : seg.isBitmap = false)
    (hfits : start + n ≤ seg.length / pageSize)
    (hclear : s.Clear (pagesOf (s.segments.take k) + start) n) :
    ∃ p s', s.take n k (pagesOf (s.segments.take k)) start seg.base = some (p, s') ∧
      s.Granted n seg k start p s' := by
  have hbound := pagesOf_take_add_le hseg hb
  obtain ⟨m', he, hbits, -⟩ :=
    @setBits_spec s (pagesOf (s.segments.take k) + start) n (by omega)
  unfold take
  rw [he]
  refine ⟨_, _, rfl, hseg, h0, hb, hfits, hclear, rfl, ?_, hbits, rfl, rfl, rfl, rfl, rfl⟩
  exact shape_modify (f := fun seg => { seg with
    remainingBytes := (seg.remainingBytes + word - n * pageSize % word) % word })
    (fun _ => place_remaining _ _) rfl rfl rfl

/-! ## The loops over the segments -/

/-- Segment `k` has `n` clear pages from its page `start` on. -/
structure RunAt (s : Pmm) (n k start : Nat) (seg : Segment) : Prop where
  segment : s.segments[k]? = some seg
  notBitmap : seg.isBitmap = false
  fits : start + n ≤ seg.length / pageSize
  clear : s.Clear (pagesOf (s.segments.take k) + start) n

def NoRun (s : Pmm) (n : Nat) : Prop := ∀ k start seg, ¬ s.RunAt n k start seg

/-- There is no run before page `start` of segment `k`. -/
def NoRunBefore (s : Pmm) (n k start : Nat) : Prop :=
  ∀ j st seg, s.RunAt n j st seg → k < j ∨ k = j ∧ start ≤ st

theorem RunAt.not_skipped {n k start : Nat} (h : s.RunAt n k start seg) (hn : 0 < n) :
    ¬ (seg.length = 0 ∨ seg.isBitmap = true) := by
  rintro (h0 | hb)
  · have hfits := h.fits
    rw [h0, Nat.zero_div] at hfits
    omega
  · rw [h.notBitmap] at hb
    exact absurd hb (by decide)

section NoRunBefore

variable {s : Pmm} {n k : Nat} {seg : Segment} (hpre : s.NoRunBefore n k 0)
  (hseg : s.segments[k]? = some seg)

include hpre hseg

theorem NoRunBefore.upto {start : Nat} (hno : ∀ st < start, ¬ s.RunAt n k st seg) :
    s.NoRunBefore n k start := by
  intro j st seg' hrun
  rcases hpre j st seg' hrun with hlt | ⟨rfl, -⟩
  · exact .inl hlt
  · obtain rfl := some.inj (hseg.symm.trans hrun.segment)
    exact .inr ⟨rfl, Nat.le_of_not_lt fun hlt => hno st hlt hrun⟩

theorem NoRunBefore.next (hno : ∀ st, ¬ s.RunAt n k st seg) : s.NoRunBefore n (k + 1) 0 := by
  intro j st seg' hrun
  rcases hpre j st seg' hrun with hlt | ⟨rfl, -⟩
  · omega
  · obtain rfl := some.inj (hseg.symm.trans hrun.segment)
    exact absurd hrun (hno st)

end NoRunBefore

theorem reserveHeapLoop_spec {s : Pmm} {n : Nat} (hn : 0 < n)
    (hpages : pagesOf s.segments ≤ 8 * s.bitmapSize) {pre segs : List Segment}
    (hsegs : s.segments = pre ++ segs) (hpre : s.NoRunBefore n pre.length 0) :
    ∃ p s', s.reserveHeapLoop n segs pre.length (pagesOf pre) = some (p, s') ∧
      ((p, s') = s.allocFailed ∧ s.NoRun n ∨
        ∃ seg k start, s.Granted n seg k start p s' ∧ s.NoRunBefore n k start) := by
  induction segs generalizing pre with
  | nil =>
    refine ⟨_, _, rfl, .inl ⟨rfl, ?_⟩⟩
    intro k st seg hrun
    have hlt := (List.getElem?_eq_some_iff.mp hrun.segment).1
    have := hpre k st seg hrun
    rw [hsegs, append_nil] at hlt
    omega
  | cons seg segs ih =>
    have happ : s.segments = (pre ++ [seg]) ++ segs := by rw [hsegs]; simp
    have hseg : s.segments[pre.length]? = some seg := by rw [hsegs]; simp
    have htake : s.segments.take pre.length = pre := by rw [hsegs]; simp
    have hnext := @ih (pre ++ [seg]) happ
    rw [length_append, length_singleton, pagesOf_append] at hnext
    rw [reserveHeapLoop]
    by_cases hskip : seg.length = 0 ∨ seg.isBitmap = true
    · have h0 : pagesOf [seg] = 0 := by
        rcases hskip with h | h <;> simp [pagesOf, Segment.pages, h]
      rw [if_pos hskip]
      rw [h0] at hnext
      exact hnext (hpre.next hseg fun st hrun => hrun.not_skipped hn hskip)
    · rw [if_neg hskip]
      have h0 : seg.length ≠ 0 := fun h => hskip (Or.inl h)
      have hb : seg.isBitmap = false := Bool.eq_false_of_not_eq_true fun h => hskip (Or.inr h)
      have hone : pagesOf [seg] = seg.length / pageSize := by simp [pagesOf, Segment.pages, hb]
      have hbound := pagesOf_take_add_le hseg hb
      rw [htake] at hbound
      obtain ⟨r, hr, hfirst⟩ := @scan_start s n (pagesOf pre) (seg.length / pageSize) (by omega) hn
      have hclear : ∀ {st}, s.RunAt n pre.length st seg → s.Clear (pagesOf pre + st) n := by
        intro st hrun
        have := hrun.clear
        rwa [htake] at this
      simp only [bind_eq_bind, hr, bind_some]
      cases r with
      | none =>
        rw [hone] at hnext
        apply hnext
        exact hpre.next hseg fun st hrun => hfirst st (Nat.zero_le st) hrun.fits (hclear hrun)
      | some start =>
        obtain ⟨-, hfits, hrun, hleast⟩ := hfirst
        rw [← htake] at hrun
        obtain ⟨p, s', ht, hg⟩ := take_spec hpages hseg h0 hb hfits hrun
        rw [htake] at ht
        refine ⟨p, s', ht, .inr ⟨seg, _, start, hg, ?_⟩⟩
        exact hpre.upto hseg fun st hlt hrun => hleast st (Nat.zero_le st) hlt (hclear hrun)

theorem reserveHeap_first (hpages : pagesOf s.segments ≤ 8 * s.bitmapSize) (hready : s.bitmap ≠ 0)
    (hn : 0 < n) :
    ∃ p s', s.reserveHeap n = some (p, s') ∧
      ((p, s') = s.allocFailed ∧ s.NoRun n ∨
        ∃ seg k start, s.Granted n seg k start p s' ∧ s.NoRunBefore n k start) := by
  unfold reserveHeap
  rw [if_neg (by omega)]
  exact @reserveHeapLoop_spec s n hn hpages [] s.segments rfl fun j st seg _ => by
    rw [length_nil]
    omega

theorem reserveHeap_spec (hpages : pagesOf s.segments ≤ 8 * s.bitmapSize) (n : Nat) :
    ∃ p s', s.reserveHeap n = some (p, s') ∧
      ((p, s') = (0, s) ∨ (p, s') = s.allocFailed ∨
        0 < n ∧ s.bitmap ≠ 0 ∧ ∃ seg k start, s.Granted n seg k start p s') := by
  by_cases h : s.bitmap = 0 ∨ n = 0
  · exact ⟨0, s, if_pos h, .inl rfl⟩
  · have hn : 0 < n := by omega
    have hready : s.bitmap ≠ 0 := by omega
    obtain ⟨p, s', he, ⟨hf, -⟩ | ⟨seg, k, start, hg, -⟩⟩ := reserveHeap_first hpages hready hn
    · exact ⟨p, s', he, .inr (Or.inl hf)⟩
    · exact ⟨p, s', he, .inr (Or.inr ⟨hn, hready, seg, k, start, hg⟩)⟩

theorem pallocLoop_eq (segid pageOffset : Nat)
    (h : ∀ seg ∈ segs, seg.length ≠ 0 → minAllocAddr ≤ seg.base ∧ seg.base + seg.length < word) :
    s.pallocLoop n segs segid pageOffset = s.reserveHeapLoop n segs segid pageOffset := by
  induction segs generalizing segid pageOffset with
  | nil => rfl
  | cons seg segs ih =>
    have hrest := fun i o => ih i o fun x hx => h x (mem_cons_of_mem _ hx)
    rw [pallocLoop, reserveHeapLoop]
    by_cases hskip : seg.length = 0 ∨ seg.isBitmap = true
    · rw [if_pos hskip, if_pos hskip, hrest]
    · obtain ⟨hmin, htop⟩ := h seg mem_cons_self fun h => hskip (Or.inl h)
      have hlow : ¬ (seg.base + seg.length) % word ≤ minAllocAddr := by
        rw [Nat.mod_eq_of_lt htop]
        omega
      rw [if_neg hskip, if_neg hskip, if_neg hlow, if_neg (Nat.not_lt.mpr hmin)]
      simp only [Nat.sub_zero, hrest]

theorem palloc_eq_reserveHeap
    (h : ∀ seg ∈ s.segments, seg.length ≠ 0 → minAllocAddr ≤ seg.base ∧ seg.base + seg.length < word)
    (n : Nat) : s.palloc n = s.reserveHeap n := by
  unfold palloc reserveHeap
  rw [pallocLoop_eq _ _ h]

/-! ## The shape stays -/

theorem setBits_shape {first n : Nat} (h : s.setBits first n = some s') :
    s'.segments = s.segments ∧ s'.bitmap = s.bitmap ∧ s'.bitmapSize = s.bitmapSize := by
  induction n generalizing s' with
  | zero =>
    obtain rfl := some.inj h
    exact ⟨rfl, rfl, rfl⟩
  | succ n ih =>
    rw [setBits] at h
    obtain ⟨s1, h1, h⟩ := bind_eq_some_iff.mp h
    unfold bitmapSet at h
    split_ifs at h
    obtain rfl := some.inj h
    have hrest := ih h1
    exact hrest

theorem take_shape {n k pageOffset start base p : Nat}
    (h : s.take n k pageOffset start base = some (p, s')) : s'.shape = s.shape := by
  unfold take at h
  obtain ⟨s1, h1, h⟩ := bind_eq_some_iff.mp h
  obtain ⟨hsegs, hbitmap, hsize⟩ := setBits_shape h1
  simp only [some.injEq, Prod.mk.injEq] at h
  rw [← h.2]
  refine shape_modify (k := k) (f := fun seg => { seg with
    remainingBytes := (seg.remainingBytes + word - n * pageSize % word) % word })
    (fun _ => place_remaining _ _) ?_ hbitmap hsize
  dsimp only
  rw [hsegs]

theorem reserveHeapLoop_shape (h : s.reserveHeapLoop n segs segid pageOffset = some (p, s')) :
    s'.shape = s.shape := by
  induction segs generalizing segid pageOffset with
  | nil =>
    cases h
    rfl
  | cons seg segs ih =>
    rw [reserveHeapLoop] at h
    split_ifs at h
    · exact ih h
    · obtain ⟨r, -, h⟩ := bind_eq_some_iff.mp h
      cases r with
      | none => exact ih h
      | some start => exact take_shape h

theorem pallocLoop_shape (h : s.pallocLoop n segs segid pageOffset = some (p, s')) :
    s'.shape = s.shape := by
  induction segs generalizing segid pageOffset with
  | nil =>
    cases h
    rfl
  | cons seg segs ih =>
    rw [pallocLoop] at h
    by_cases hskip : seg.length = 0 ∨ seg.isBitmap = true
    · rw [if_pos hskip] at h
      exact ih h
    by_cases hlow : (seg.base + seg.length) % word ≤ minAllocAddr
    · rw [if_neg hskip, if_pos hlow] at h
      exact ih h
    rw [if_neg hskip, if_neg hlow] at h
    obtain ⟨r, -, h⟩ := bind_eq_some_iff.mp h
    cases r with
    | none => exact ih h
    | some start => exact take_shape h

theorem reserveHeap_shape (h : s.reserveHeap n = some (p, s')) : s'.shape = s.shape := by
  unfold reserveHeap at h
  split_ifs at h
  · cases h
    rfl
  · exact reserveHeapLoop_shape h

theorem palloc_shape (h : s.palloc n = some (p, s')) : s'.shape = s.shape := by
  unfold palloc at h
  split_ifs at h
  · cases h
    rfl
  · exact pallocLoop_shape h

/-! ## `free` -/

theorem findSegment_none {addr : Nat} (segid pageOffset : Nat)
    (h : ∀ seg ∈ segs, seg.length ≠ 0 → (seg.base + seg.length) % word ≤ addr) :
    findSegment addr segs segid pageOffset = none := by
  induction segs generalizing segid pageOffset with
  | nil => rfl
  | cons seg segs ih =>
    have hrest := fun i o => ih i o fun x hx => h x (mem_cons_of_mem _ hx)
    rw [findSegment]
    by_cases hskip : seg.length = 0 ∨ seg.isBitmap = true
    · rw [if_pos hskip, hrest]
    · have := h seg mem_cons_self fun h => hskip (Or.inl h)
      rw [if_neg hskip, if_neg (by omega), hrest]

theorem findSegment_paToVa (h : ∀ seg ∈ s.segments, seg.length ≠ 0 → seg.base + seg.length ≤ 2 ^ 47)
    {ptr : Nat} (hptr : ptr < 2 ^ 47) : findSegment (paToVa ptr) s.segments 0 0 = none := by
  apply findSegment_none
  intro seg hseg h0
  have hle := h seg hseg h0
  have := Nat.mod_le (seg.base + seg.length) word
  rw [paToVa_low hptr]
  simp only [directBase]
  omega

theorem free_outside (h : ∀ seg ∈ s.segments, seg.length ≠ 0 → seg.base + seg.length ≤ 2 ^ 47)
    {ptr n : Nat} (hptr : ptr < 2 ^ 47) (hs : ¬ (s.bitmap = 0 ∨ ptr = 0 ∨ n = 0)) :
    s.free ptr n = some (s.errf (.freeOutside ptr)).freeFailed := by
  have hlow : ¬ paToVa ptr < minAllocAddr := by
    rw [paToVa_low hptr]
    simp only [directBase, minAllocAddr]
    omega
  simp only [free, if_neg hs, if_neg hlow, findSegment_paToVa h hptr]

theorem clearLoop_shape {globalIndex left i freed freed' : Nat}
    (h : clearLoop globalIndex left i s freed = some (s', freed')) :
    s'.segments = s.segments ∧ s'.bitmap = s.bitmap ∧ s'.bitmapSize = s.bitmapSize := by
  induction left generalizing i s freed with
  | zero =>
    simp only [clearLoop, some.injEq, Prod.mk.injEq] at h
    rw [h.1]
    exact ⟨rfl, rfl, rfl⟩
  | succ left ih =>
    rw [clearLoop] at h
    obtain ⟨b, -, h⟩ := bind_eq_some_iff.mp h
    cases b with
    | true =>
      rw [if_pos rfl] at h
      obtain ⟨s1, h1, h⟩ := bind_eq_some_iff.mp h
      unfold bitmapClear at h1
      split_ifs at h1
      obtain rfl := some.inj h1
      have hrest := ih h
      exact hrest
    | false =>
      rw [if_neg (by decide)] at h
      have hrest := ih h
      exact hrest

theorem free_shape {ptr n : Nat} (h : s.free ptr n = some s') : s'.shape = s.shape := by
  unfold free at h
  by_cases hnull : s.bitmap = 0 ∨ ptr = 0 ∨ n = 0
  · rw [if_pos hnull] at h
    obtain rfl := some.inj h
    rfl
  rw [if_neg hnull] at h
  dsimp only at h
  by_cases hlow : paToVa ptr < minAllocAddr
  · rw [if_pos hlow] at h
    obtain rfl := some.inj h
    rfl
  · rw [if_neg hlow] at h
    cases hfind : findSegment (paToVa ptr) s.segments 0 0 with
    | none =>
      rw [hfind] at h
      obtain rfl := some.inj h
      rfl
    | some r =>
      obtain ⟨segid, seg, pageOffset⟩ := r
      rw [hfind] at h
      obtain ⟨⟨s1, freed⟩, hclear, h⟩ := bind_eq_some_iff.mp h
      obtain ⟨h1, h2, h3⟩ := clearLoop_shape hclear
      simp only [some.injEq] at h
      rw [← h]
      refine shape_modify (k := segid) (f := fun seg => { seg with
        remainingBytes := (seg.remainingBytes + freed) % word }) (fun _ => place_remaining _ _)
        ?_ h2 h3
      dsimp only
      rw [h1]

end Terrakernel.Pmm
