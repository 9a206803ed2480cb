import Mathlib.Algebra.Order.BigOperators.Group.List
import Terrakernel.Lib.Choice
import Terrakernel.Pmm.Fill

/-!
# The segments that `initialise` makes

One segment for each usable entry, cut off below 1 MiB, as long as there are slots.
-/

namespace Terrakernel.Pmm

open Memory Mem Choice
open List hiding Mem

variable {seg : Segment} {segs xs ys : List Segment} {b : Nat × Segment} {es : List MemmapEntry}

/-! ## One entry -/

/-- The segment of an entry, if it gets one. -/
def clip (e : MemmapEntry) : Option Segment :=
  if e.type ≠ .usable then none
  else
    let segBase := if e.base < minAllocAddr then minAllocAddr else e.base
    let segLen :=
      if e.base < minAllocAddr then
        if e.length > minAllocAddr - e.base then e.length - (minAllocAddr - e.base) else 0
      else e.length
    if segLen = 0 then none else some ⟨segBase, segLen, false, segLen⟩

structure Clipped (e : MemmapEntry) (seg : Segment) : Prop where
  usable : e.type = .usable
  notBitmap : seg.isBitmap = false
  pos : 0 < seg.length
  remaining : seg.remainingBytes = seg.length
  low : minAllocAddr ≤ seg.base
  start : e.base ≤ seg.base
  fin : seg.base + seg.length = e.base + e.length
  base : seg.base = e.base ∨ seg.base = minAllocAddr

theorem clip_some {e : MemmapEntry} (h : clip e = some seg) : Clipped e seg := by
  unfold clip at h
  by_cases hu : e.type = .usable
  · rw [if_neg (fun hh => hh hu)] at h
    by_cases hb : e.base < minAllocAddr
    · by_cases hl : e.length > minAllocAddr - e.base
      · simp only [if_pos hb, if_pos hl] at h
        rw [if_neg (by omega)] at h
        cases h
        refine ⟨hu, rfl, ?_, rfl, le_refl _, le_of_lt hb, ?_, .inr rfl⟩
        · dsimp only
          omega
        · dsimp only
          omega
      · simp [hb, hl] at h
    · simp only [if_neg hb] at h
      split_ifs at h with h0
      cases h
      exact ⟨hu, rfl, Nat.pos_of_ne_zero h0, rfl, Nat.le_of_not_lt hb, le_refl _, rfl, .inl rfl⟩
  · rw [if_pos hu] at h
    exact absurd h (by simp)

theorem addEntry_eq (s : Pmm) (n : Nat) (e : MemmapEntry) :
    addEntry (s, n) e =
      match clip e with
      | none => ({ s with totalAddrspace := (s.totalAddrspace + e.length) % word }, n)
      | some seg =>
        if maxSegments ≤ n then ({ s with totalAddrspace := (s.totalAddrspace + e.length) % word }, n)
        else
          ({ s with
              totalAddrspace := (s.totalAddrspace + e.length) % word
              segments := s.segments.set n seg
              totalMem := (s.totalMem + seg.length) % word },
            n + 1) := by
  unfold addEntry clip
  by_cases hu : e.type = .usable
  · simp only [hu, ne_eq, not_true_eq_false, false_or, if_false]
    generalize (if e.base < minAllocAddr then minAllocAddr else e.base) = segBase
    generalize (if e.base < minAllocAddr then
      if e.length > minAllocAddr - e.base then e.length - (minAllocAddr - e.base) else 0
      else e.length) = segLen
    by_cases h0 : segLen = 0
    · simp [h0]
    · simp only [if_neg h0]
  · simp [hu]

/-! ## All entries -/

def emptySegment : Segment := ⟨0, 0, false, 0⟩

/-- Eight slots, the first of them filled. -/
def slots (made : List Segment) : List Segment :=
  made ++ replicate (maxSegments - made.length) emptySegment

def segmentsOf (es : List MemmapEntry) : List Segment := (es.filterMap clip).take maxSegments

def bytesOf (segs : List Segment) : Nat := (segs.map (·.length)).sum

theorem slots_set {made : List Segment} (h : made.length < maxSegments) (seg : Segment) :
    (slots made).set made.length seg = slots (made ++ [seg]) := by
  unfold slots
  obtain ⟨k, hk⟩ : ∃ k, maxSegments - made.length = k + 1 := ⟨_, (Nat.succ_pred_eq_of_pos (by omega)).symm⟩
  have hk' : maxSegments - (made ++ [seg]).length = k := by
    rw [length_append, length_singleton]
    omega
  rw [hk, hk', replicate_succ, set_append_right _ _ (le_refl _), Nat.sub_self,
    set_cons_zero, append_assoc, singleton_append]

theorem foldl_addEntry (es : List MemmapEntry) {s : Pmm} {made : List Segment}
    (hlen : made.length ≤ maxSegments) (hseg : s.segments = slots made)
    (htotal : s.totalMem = bytesOf made % word) :
    ∃ a made', made' = (made ++ es.filterMap clip).take maxSegments ∧
      es.foldl addEntry (s, made.length) =
        ({ s with segments := slots made', totalMem := bytesOf made' % word, totalAddrspace := a },
          made'.length) := by
  induction es generalizing s made with
  | nil =>
    refine ⟨s.totalAddrspace, made, ?_, ?_⟩
    · rw [filterMap_nil, append_nil, take_of_length_le hlen]
    · rw [← hseg, ← htotal]
      rfl
  | cons e es ih =>
    rw [foldl_cons, addEntry_eq]
    cases hclip : clip e with
    | none =>
      rw [filterMap_cons_none hclip]
      exact ih hlen hseg htotal
    | some seg =>
      rw [filterMap_cons_some hclip]
      dsimp only
      split_ifs with hn
      · obtain ⟨a, made', hm, he⟩ := ih (s := { s with
            totalAddrspace := (s.totalAddrspace + e.length) % word }) hlen hseg htotal
        refine ⟨a, made', ?_, he⟩
        rw [hm, take_append_of_le_length hn, take_append_of_le_length hn]
      · have hlt : made.length < maxSegments := by omega
        have hcount : made.length + 1 = (made ++ [seg]).length := by simp
        rw [hcount]
        obtain ⟨a, made', hm, he⟩ := @ih { s with
            totalAddrspace := (s.totalAddrspace + e.length) % word
            segments := s.segments.set made.length seg
            totalMem := (s.totalMem + seg.length) % word } (made ++ [seg]) (by simp; omega)
          (by rw [hseg, slots_set hlt]) (by simp [htotal, bytesOf])
        refine ⟨a, made', ?_, he⟩
        rw [hm, append_assoc, singleton_append]

/-! ## The search for the bitmap's segment -/

/-- The bitmap fits into the segment, which has no other use yet. -/
abbrev Holds (size : Nat) (b : Nat × Segment) : Prop := b.2.isBitmap = false ∧ size ≤ b.2.length

theorem bestLoop_eq (size : Nat) (segs : List Segment) (i : Nat) (best : Option (Nat × Segment)) :
    bestLoop size segs i best =
      ((segs.zipIdx i).map Prod.swap).foldl (consider (Holds size) fun b => b.2.length) best := by
  induction segs generalizing i best with
  | nil => rfl
  | cons seg segs ih =>
    rw [bestLoop, zipIdx_cons, map_cons, foldl_cons, consider]
    simp only [Prod.swap_prod_mk, and_assoc]
    split_ifs <;> exact ih _ _

theorem mem_swap_zipIdx : b ∈ segs.zipIdx.map Prod.swap ↔ segs[b.1]? = some b.2 := by
  rw [← mk_mem_zipIdx_iff_getElem?, List.mem_map]
  constructor
  · rintro ⟨a, ha, rfl⟩
    exact ha
  · exact fun h => ⟨(b.2, b.1), h, rfl⟩

theorem bestLoop_none {size : Nat} (h : bestLoop size segs 0 none = none) :
    ∀ seg ∈ segs, seg.isBitmap = false → seg.length < size := by
  rw [bestLoop_eq] at h
  intro seg hseg hb
  obtain ⟨k, hk⟩ := getElem?_of_mem hseg
  have hno := choose_none.mp h (k, seg) (mem_swap_zipIdx.mpr hk)
  exact Nat.lt_of_not_le fun hle => hno ⟨hb, hle⟩

theorem bestLoop_some {size : Nat} (h : bestLoop size segs 0 none = some b) :
    segs[b.1]? = some b.2 ∧ Holds size b ∧
      ∀ seg ∈ segs, seg.isBitmap = false → size ≤ seg.length → b.2.length ≤ seg.length := by
  rw [bestLoop_eq] at h
  obtain ⟨pre, post, hfirst⟩ := choose_some h
  refine ⟨mem_swap_zipIdx.mp hfirst.mem, hfirst.chosen, ?_⟩
  intro seg hseg hb hle
  obtain ⟨k, hk⟩ := getElem?_of_mem hseg
  exact hfirst.le (b := (k, seg)) (mem_swap_zipIdx.mpr hk) ⟨hb, hle⟩

/-! ## What stays fixed -/

def Segment.place (seg : Segment) : Segment := { seg with remainingBytes := 0 }

/-- Where the segments and the bitmap lie. -/
structure Shape where
  segs : List Segment
  bitmap : Nat
  bitmapSize : Nat

def shape (s : Pmm) : Shape := ⟨s.segments.map Segment.place, s.bitmap, s.bitmapSize⟩

/-- The pages of a segment that have a bit. -/
def Segment.pages (seg : Segment) : Nat := if seg.isBitmap = true then 0 else seg.length / pageSize

def pagesOf (segs : List Segment) : Nat := (segs.map Segment.pages).sum

/-- The segment lies in a usable entry and above 1 MiB. -/
def Within (es : List MemmapEntry) (seg : Segment) : Prop :=
  minAllocAddr ≤ seg.base ∧ ∃ e ∈ es, e.type = .usable ∧ e.base ≤ seg.base ∧
    seg.base + seg.length = e.base + e.length ∧ (seg.base = e.base ∨ seg.base = minAllocAddr)

structure Layout (sh : Shape) (es : List MemmapEntry) : Prop where
  within : ∀ seg ∈ sh.segs, seg.length ≠ 0 → Within es seg
  pages : pagesOf sh.segs ≤ 8 * sh.bitmapSize
  home : sh.bitmap ≠ 0 → ∃ seg ∈ sh.segs, seg.isBitmap = true ∧ seg.base = sh.bitmap ∧
    sh.bitmapSize ≤ seg.length

/-- Two segments share no byte. -/
def Segment.Apart (a b : Segment) : Prop :=
  a.length = 0 ∨ b.length = 0 ∨ a.base + a.length ≤ b.base ∨ b.base + b.length ≤ a.base

theorem pagesOf_append (xs ys : List Segment) : pagesOf (xs ++ ys) = pagesOf xs + pagesOf ys := by
  simp [pagesOf]

theorem pagesOf_le_bytesOf (segs : List Segment) : pageSize * pagesOf segs ≤ bytesOf segs := by
  induction segs with
  | nil => exact Nat.zero_le _
  | cons seg segs ih =>
    have hseg : pageSize * seg.pages ≤ seg.length := by
      unfold Segment.pages
      split_ifs
      · omega
      · exact Nat.mul_div_le _ _
    simp only [pagesOf, bytesOf, pageSize, map_cons, sum_cons] at *
    omega

theorem segmentsOf_within (h : seg ∈ segmentsOf es) : Within es seg := by
  obtain ⟨e, he, hclip⟩ := mem_filterMap.mp (mem_of_mem_take h)
  have hc := clip_some hclip
  exact ⟨hc.low, e, he, hc.usable, hc.start, hc.fin, hc.base⟩

theorem slots_within (h : seg ∈ slots (segmentsOf es)) (h0 : seg.length ≠ 0) : Within es seg := by
  rcases mem_append.mp h with h | h
  · exact segmentsOf_within h
  · rw [(mem_replicate.mp h).2] at h0
    exact absurd rfl h0

theorem initialise_eq (m : Mem) (hes : es ≠ []) :
    ∃ s : Pmm, booted m es =
        { s.prepareBitmap s.totalMem with
          totalPages := (s.prepareBitmap s.totalMem).totalMem / pageSize
          freeMem := (s.prepareBitmap s.totalMem).totalMem } ∧
      s.segments = slots (segmentsOf es) ∧ s.totalMem = bytesOf (segmentsOf es) % word ∧
      s.bitmap = 0 ∧ s.mem = m ∧ s.usedMem = 0 := by
  obtain ⟨a, made, hm, he⟩ := @foldl_addEntry es (statics m) [] (by simp) (by rfl) (by rfl)
  rw [nil_append] at hm
  refine ⟨{ statics m with
    segments := slots made, totalMem := bytesOf made % word, totalAddrspace := a }, ?_, ?_⟩
  · cases es with
    | nil => exact absurd rfl hes
    | cons e es =>
      simp only [initialise]
      have hstart : ({ statics m with
          totalMem := 0, usedMem := 0, freeMem := 0, allocationCount := 0
          failedAllocationCount := 0, freeCount := 0, failedFreeCount := 0
          totalAddrspace := 0 } : Pmm) = statics m := rfl
      rw [hstart, show (statics m, 0) = (statics m, ([] : List Segment).length) from rfl, he]
  · rw [hm]
    exact ⟨rfl, rfl, rfl, rfl, rfl⟩

theorem map_modify_same {α β : Type} {f : α → α} {g : α → β} (h : ∀ x, g (f x) = g x) (l : List α)
    (i : Nat) : (l.modify i f).map g = l.map g := by
  apply ext_getElem?
  intro j
  rw [getElem?_map, getElem?_map, getElem?_modify]
  cases l[j]? with
  | none => rfl
  | some x =>
    by_cases hij : i = j
    · simp [hij, h]
    · simp [hij]

/-- Base and length decide where a segment lies. -/
def Segment.range (seg : Segment) : Nat × Nat := (seg.base, seg.length)

theorem pairwise_apart_congr (h : xs.map Segment.range = ys.map Segment.range)
    (hx : xs.Pairwise Segment.Apart) : ys.Pairwise Segment.Apart := by
  have hmap : ∀ l : List Segment, l.Pairwise Segment.Apart ↔ (l.map Segment.range).Pairwise
      fun a b => a.2 = 0 ∨ b.2 = 0 ∨ a.1 + a.2 ≤ b.1 ∨ b.1 + b.2 ≤ a.1 := by
    intro l
    rw [pairwise_map]
    rfl
  rw [hmap] at hx ⊢
  rw [← h]
  exact hx

theorem forall_mem_congr (h : xs.map Segment.range = ys.map Segment.range) {p : Nat × Nat → Prop}
    (hx : ∀ seg ∈ xs, p seg.range) : ∀ seg ∈ ys, p seg.range := by
  have hmap : ∀ l : List Segment, (∀ seg ∈ l, p seg.range) ↔ ∀ r ∈ l.map Segment.range, p r := by
    intro l
    rw [List.forall_mem_map]
  rw [hmap] at hx ⊢
  rw [← h]
  exact hx

theorem map_place_range (segs : List Segment) :
    (segs.map Segment.place).map Segment.range = segs.map Segment.range := List.map_map

def Segment.mark (seg : Segment) : Segment := { seg with isBitmap := true }

theorem prepareBitmap_cases (s : Pmm) (mem : Nat) :
    (s.prepareBitmap mem = { s with bitmapSize := mem / 8 } ∧
        ∀ seg ∈ s.segments, seg.isBitmap = false → seg.length < mem / 8) ∨
      ∃ i best, s.segments[i]? = some best ∧ Holds (mem / 8) (i, best) ∧
        (∀ seg ∈ s.segments, seg.isBitmap = false → mem / 8 ≤ seg.length →
          best.length ≤ seg.length) ∧
        s.prepareBitmap mem = { s with
          bitmapSize := mem / 8
          segments := s.segments.modify i Segment.mark
          bitmap := best.base
          mem := membulkset s.mem best.base 0 (mem / 8) } := by
  unfold prepareBitmap
  cases hbest : bestLoop (mem / 8) s.segments 0 none with
  | none =>
    left
    simp only [hbest]
    exact ⟨trivial, bestLoop_none hbest⟩
  | some b =>
    obtain ⟨hi, hholds, hleast⟩ := bestLoop_some hbest
    right
    refine ⟨b.1, b.2, hi, hholds, hleast, ?_⟩
    simp only [hbest]
    rfl

theorem initialise_shape (m : Mem) (es : List MemmapEntry) :
    (booted m es).shape.segs.map Segment.range =
      (slots (segmentsOf es)).map Segment.range ∧
    (bytesOf (segmentsOf es) < word →
      (booted m es).bitmapSize = bytesOf (segmentsOf es) / 8) ∧
    ((booted m es).bitmap ≠ 0 →
      ∃ seg ∈ (booted m es).shape.segs, seg.isBitmap = true ∧
        seg.base = (booted m es).bitmap ∧
        (booted m es).bitmapSize ≤ seg.length) := by
  by_cases hes : es = []
  · subst hes
    exact ⟨rfl, fun _ => rfl, fun h => absurd rfl h⟩
  obtain ⟨s, he, hsegs, htotal, hb, -⟩ := initialise_eq m hes
  rw [he]
  rcases prepareBitmap_cases s s.totalMem with ⟨hp, -⟩ | ⟨i, best, hi, hholds, -, hp⟩
  · rw [hp]
    refine ⟨?_, ?_, fun h => absurd hb h⟩
    · rw [← hsegs]
      exact map_place_range s.segments
    · intro hlt
      rw [htotal, Nat.mod_eq_of_lt hlt]
  · rw [hp]
    refine ⟨?_, ?_, fun _ => ?_⟩
    · rw [← hsegs]
      refine (map_place_range (s.segments.modify i Segment.mark)).trans ?_
      exact map_modify_same (f := Segment.mark) (fun _ => rfl) s.segments i
    · intro hlt
      rw [htotal, Nat.mod_eq_of_lt hlt]
    · refine ⟨Segment.place (Segment.mark best), ?_, rfl, rfl, hholds.2⟩
      apply List.mem_map_of_mem
      apply mem_of_getElem? (i := i)
      rw [getElem?_modify, hi]
      simp

theorem bytesOf_congr (h : xs.map Segment.range = ys.map Segment.range) :
    bytesOf xs = bytesOf ys := by
  have hmap : ∀ l : List Segment, bytesOf l = ((l.map Segment.range).map Prod.snd).sum := by
    intro l
    rw [List.map_map]
    rfl
  rw [hmap, hmap, h]

theorem bytesOf_slots (made : List Segment) : bytesOf (slots made) = bytesOf made := by
  simp [bytesOf, slots, emptySegment]

theorem initialise_within (m : Mem) (es : List MemmapEntry) :
    ∀ seg ∈ (booted m es).shape.segs, seg.length ≠ 0 → Within es seg :=
  forall_mem_congr (initialise_shape m es).1.symm
    (p := fun r => r.2 ≠ 0 → minAllocAddr ≤ r.1 ∧ ∃ e ∈ es, e.type = .usable ∧ e.base ≤ r.1 ∧
      r.1 + r.2 = e.base + e.length ∧ (r.1 = e.base ∨ r.1 = minAllocAddr))
    fun _ hseg => slots_within hseg

theorem initialise_pages (m : Mem) (es : List MemmapEntry) :
    pageSize * pagesOf (booted m es).shape.segs ≤ bytesOf (segmentsOf es) := by
  rw [← bytesOf_slots (segmentsOf es), ← bytesOf_congr (initialise_shape m es).1]
  exact pagesOf_le_bytesOf _

theorem initialise_layout (m : Mem) (htotal : bytesOf (segmentsOf es) < word) :
    Layout (booted m es).shape es := by
  obtain ⟨-, hsize, hhome⟩ := initialise_shape m es
  refine ⟨initialise_within m es, ?_, hhome⟩
  have hpages := initialise_pages m es
  rw [show (booted m es).shape.bitmapSize = _ from hsize htotal]
  simp only [pageSize] at hpages
  omega

/-! ## Memory maps -/

/-- The usable entries lie below 2^47. -/
def Low (es : List MemmapEntry) : Prop := ∀ e ∈ es, e.type = .usable → e.base + e.length ≤ 2 ^ 47

/-- What the boot loader promises of a memory map. -/
structure Tidy (es : List MemmapEntry) : Prop where
  low : Low es
  aligned : ∀ e ∈ es, e.type = .usable → pageSize ∣ e.base ∧ pageSize ∣ e.length
  disjoint : es.Pairwise fun a b => a.type = .usable → b.type = .usable →
    a.base + a.length ≤ b.base ∨ b.base + b.length ≤ a.base
  total : ((es.filter fun e => e.type = .usable).map (·.length)).sum < word

/-- The usable entries end below 2^64. -/
def Ends (es : List MemmapEntry) : Prop := ∀ e ∈ es, e.type = .usable → e.base + e.length < word

theorem Low.ends (h : Low es) : Ends es := by
  intro e he hu
  exact lt_of_le_of_lt (h e he hu) (by decide)

theorem Low.bytesOf_lt (h : Low es) : bytesOf (segmentsOf es) < word := by
  have hlen : (segmentsOf es).length ≤ maxSegments := length_take_le _ _
  have hseg : ∀ seg ∈ segmentsOf es, seg.length ≤ 2 ^ 47 := by
    intro seg hs
    obtain ⟨-, e, he, hu, -, hfin, -⟩ := segmentsOf_within hs
    have := h e he hu
    omega
  have hsum : ∀ l : List Segment, (∀ seg ∈ l, seg.length ≤ 2 ^ 47) →
      bytesOf l ≤ l.length * 2 ^ 47 := by
    intro l hl
    unfold bytesOf
    have := sum_le_card_nsmul (l.map (·.length)) (2 ^ 47) (by simpa using hl)
    simpa using this
  have := hsum _ hseg
  simp only [maxSegments, word] at *
  omega

theorem segmentsOf_apart (h : es.Pairwise fun a b => a.type = .usable → b.type = .usable →
      a.base + a.length ≤ b.base ∨ b.base + b.length ≤ a.base) :
    (segmentsOf es).Pairwise Segment.Apart := by
  apply Pairwise.sublist (take_sublist _ _)
  rw [pairwise_filterMap]
  apply h.imp
  intro a b hab seg hseg seg' hseg'
  have ha := clip_some hseg
  have hb := clip_some hseg'
  have := hab ha.usable hb.usable
  have := ha.fin
  have := hb.fin
  have := ha.start
  have := hb.start
  exact .inr (Or.inr (by omega))

theorem Tidy.apart (h : Tidy es) (m : Mem) :
    (booted m es).shape.segs.Pairwise Segment.Apart := by
  apply pairwise_apart_congr (initialise_shape m es).1.symm
  unfold slots
  rw [pairwise_append]
  refine ⟨segmentsOf_apart h.disjoint, ?_, ?_⟩
  · apply pairwise_replicate.mpr
    exact .inr (Or.inl rfl)
  · intro a _ b hb
    rw [(mem_replicate.mp hb).2]
    exact .inr (Or.inl rfl)

end Terrakernel.Pmm
