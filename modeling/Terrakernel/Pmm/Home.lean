import Mathlib.Order.Interval.Finset.Nat
import Terrakernel.Pmm.FirstFit

/-!
# What `initialise` leaves

The bitmap takes the rest of its segment's pages, which are still counted as free.
-/

namespace Terrakernel.Pmm

open Memory Mem Vmm
open List hiding Mem

variable {segs : List Segment} {seg : Segment} {s : Pmm} {es : List MemmapEntry} {i n : Nat}
  {m : Mem}

/-! ## The memory above 1 MiB -/

/-- The bytes of an entry that a segment may have. -/
def above (e : MemmapEntry) : Nat :=
  if e.type = .usable then e.base + e.length - max e.base minAllocAddr else 0

theorem clip_above (e : MemmapEntry) :
    clip e = none ∧ above e = 0 ∨ ∃ seg, clip e = some seg ∧ seg.length = above e ∧ 0 < above e := by
  cases hclip : clip e with
  | none =>
    refine .inl ⟨rfl, ?_⟩
    unfold clip at hclip
    unfold above
    by_cases hu : e.type = .usable
    · by_cases hb : e.base < minAllocAddr
      · simp only [hu, hb, ne_eq, not_true_eq_false, if_true, if_false] at hclip ⊢
        split_ifs at hclip <;> omega
      · simp only [hu, hb, ne_eq, not_true_eq_false, if_true, if_false] at hclip ⊢
        split_ifs at hclip
        omega
    · exact if_neg hu
  | some seg =>
    have hc := clip_some hclip
    have hfin := hc.fin
    have hpos := hc.pos
    have hlen : seg.length = above e := by
      rw [above, if_pos hc.usable]
      rcases hc.base with hb | hb
      · have := hc.low
        omega
      · have := hc.start
        omega
    exact .inr ⟨seg, rfl, hlen, hlen ▸ hpos⟩

theorem bytesOf_filterMap (es : List MemmapEntry) :
    bytesOf (es.filterMap clip) = (es.map above).sum := by
  induction es with
  | nil => rfl
  | cons e es ih =>
    rcases clip_above e with ⟨hclip, h0⟩ | ⟨seg, hclip, hlen, -⟩
    · rw [filterMap_cons_none hclip, ih, map_cons, sum_cons, h0, Nat.zero_add]
    · rw [filterMap_cons_some hclip, map_cons, sum_cons, ← ih, ← hlen]
      rfl

theorem length_filterMap (es : List MemmapEntry) :
    (es.filterMap clip).length = es.countP fun e => 0 < above e := by
  induction es with
  | nil => rfl
  | cons e es ih =>
    rcases clip_above e with ⟨hclip, h0⟩ | ⟨seg, hclip, -, hpos⟩
    · rw [filterMap_cons_none hclip, ih, countP_cons_of_neg (by simp [h0])]
    · rw [filterMap_cons_some hclip, length_cons, ih,
        countP_cons_of_pos (by simp [hpos])]

theorem bytesOf_append (xs ys : List Segment) : bytesOf (xs ++ ys) = bytesOf xs + bytesOf ys := by
  simp [bytesOf]

theorem bytesOf_segmentsOf_le (es : List MemmapEntry) :
    bytesOf (segmentsOf es) ≤ (es.map above).sum := by
  have hsplit := take_append_drop maxSegments (es.filterMap clip)
  rw [← bytesOf_filterMap, ← hsplit, bytesOf_append]
  exact Nat.le_add_right _ _

theorem sum_above_le (es : List MemmapEntry) :
    (es.map above).sum ≤ ((es.filter fun e => e.type = .usable).map (·.length)).sum := by
  induction es with
  | nil => exact Nat.le_refl _
  | cons e es ih =>
    rw [map_cons, sum_cons]
    by_cases hu : e.type = .usable
    · have habove : above e ≤ e.length := by
        rw [above, if_pos hu]
        omega
      rw [filter_cons_of_pos (by simp [hu]), map_cons, sum_cons]
      omega
    · rw [filter_cons_of_neg (by simp [hu]), above, if_neg hu, Nat.zero_add]
      exact ih

theorem length_le_bytesOf (h : ∀ seg ∈ segs, 0 < seg.length) : segs.length ≤ bytesOf segs := by
  have hle := length_le_sum_of_one_le (segs.map (·.length)) (List.forall_mem_map.mpr h)
  rwa [length_map] at hle

theorem segmentsOf_pos (h : seg ∈ segmentsOf es) : 0 < seg.length := by
  obtain ⟨e, -, hclip⟩ := mem_filterMap.mp (mem_of_mem_take h)
  exact (clip_some hclip).pos

theorem eight_le_bytesOf (h : 8 ≤ (es.map above).sum) : 8 ≤ bytesOf (segmentsOf es) := by
  rcases Nat.le_total (es.filterMap clip).length maxSegments with hle | hge
  · rw [segmentsOf, take_of_length_le hle, bytesOf_filterMap]
    exact h
  · have hlen : (segmentsOf es).length = maxSegments := length_take_of_le hge
    have hbytes := length_le_bytesOf fun seg (hseg : seg ∈ segmentsOf es) => segmentsOf_pos hseg
    rwa [hlen] at hbytes

/-! ## The bitmap's segment -/

theorem exists_home (m : Mem) (htotal : bytesOf (segmentsOf es) < word)
    (hsize : 8 ≤ bytesOf (segmentsOf es)) :
    ∃ i home, Fresh es i home (booted m es) ∧ 0 < home.length ∧
      (booted m es).bitmap ≠ 0 := by
  have hes : es ≠ [] := by
    rintro rfl
    exact absurd hsize (by decide)
  obtain ⟨i, home, hf⟩ := exists_fresh m hes htotal
  have hpos : 0 < home.length := by
    have := hf.room
    omega
  obtain ⟨hmin, -⟩ := slots_within (mem_of_getElem? hf.slot) (by omega)
  refine ⟨i, home, hf, hpos, ?_⟩
  rw [hf.bitmap]
  simp only [minAllocAddr] at hmin
  omega

theorem Fresh.home {home : Segment} (hf : Fresh es i home s) : s.segments[i]? = some home.mark := by
  rw [hf.segments, getElem?_modify_eq, hf.slot]
  rfl

theorem Fresh.others {j : Nat} {home seg : Segment} (hf : Fresh es i home s)
    (hseg : s.segments[j]? = some seg) (hne : j ≠ i) : (slots (segmentsOf es))[j]? = some seg := by
  rwa [hf.segments, getElem?_modify_ne _ _ hne.symm] at hseg

/-- Whatever the map has above 1 MiB, the shortest segment with room for the bitmap is its home, the
only one, and the bitmap is clear and long enough for the pages of the others. -/
theorem bitmap_finds_home (m : Mem) {es : List MemmapEntry}
    (htotal : ((es.filter fun e => e.type = .usable).map (·.length)).sum < word)
    (hpage : pageSize ≤ (es.map above).sum) :
    let s := booted m es
    s.bitmap ≠ 0 ∧
      (∃ (k : Nat) (home : Segment), s.segments[k]? = some home ∧ home.isBitmap = true ∧
        home.base = s.bitmap ∧ s.totalMem / 8 ≤ home.length ∧
        (∀ (j : Nat) (seg : Segment), s.segments[j]? = some seg → seg.isBitmap = true → j = k) ∧
        ∀ seg ∈ s.segments, s.totalMem / 8 ≤ seg.length → home.length ≤ seg.length) ∧
      (∀ i < 8 * s.bitmapSize, s.bit i = false) ∧ pagesOf s.segments ≤ 8 * s.bitmapSize := by
  intro s
  have hbytes : bytesOf (segmentsOf es) < word :=
    Nat.lt_of_le_of_lt ((bytesOf_segmentsOf_le es).trans (sum_above_le es)) htotal
  have hsize : 8 ≤ bytesOf (segmentsOf es) :=
    eight_le_bytesOf (Nat.le_trans (by decide) hpage)
  obtain ⟨i, home, hf, -, hready⟩ := exists_home m hbytes hsize
  refine ⟨hready, ?_, hf.clear, (initialise_layout m hbytes).pages_le⟩
  refine ⟨i, home.mark, hf.home, rfl, hf.bitmap.symm, ?_, ?_, ?_⟩
  · rw [hf.totalMem]
    exact hf.room
  · intro j seg hseg hb
    by_contra hne
    have hfresh := slots_fresh (mem_of_getElem? (hf.others hseg hne))
    rw [hfresh.1] at hb
    exact absurd hb (by decide)
  · intro seg hseg hlong
    rw [hf.totalMem] at hlong
    obtain ⟨j, hj⟩ := getElem?_of_mem hseg
    by_cases hne : j = i
    · subst hne
      obtain rfl := Option.some.inj (hf.home.symm.trans hj)
      exact Nat.le_refl _
    · exact hf.least seg (mem_of_getElem? (hf.others hj hne)) hlong

theorem bitmap_finds_home_twoPages :
    (booted (fun _ => 0) twoPages).bitmap ≠ 0 :=
  (@bitmap_finds_home (fun _ => 0) twoPages (by decide) (by decide)).1

/-! ## The pages that are left -/

theorem exists_page (h : i < pagesOf segs) :
    ∃ k seg start, segs[k]? = some seg ∧ seg.isBitmap = false ∧ start < seg.length / pageSize ∧
      i = pagesOf (segs.take k) + start := by
  induction segs generalizing i with
  | nil => exact absurd h (Nat.not_lt_zero i)
  | cons seg segs ih =>
    have hcons : ∀ l, pagesOf (seg :: l) = seg.pages + pagesOf l := fun l => rfl
    rw [hcons] at h
    rcases Nat.lt_or_ge i seg.pages with hlt | hge
    · unfold Segment.pages at hlt
      split_ifs at hlt with hb
      · exact absurd hlt (Nat.not_lt_zero i)
      · exact ⟨0, seg, i, rfl, Bool.eq_false_of_not_eq_true hb, hlt, (Nat.zero_add i).symm⟩
    · obtain ⟨k, seg', start, hseg, hb, hlt, hi⟩ := @ih (i - seg.pages) (by omega)
      refine ⟨k + 1, seg', start, hseg, hb, hlt, ?_⟩
      rw [take_succ_cons, hcons]
      omega

theorem exists_runAt_one :
    (∃ k start seg, s.RunAt 1 k start seg) ↔ ∃ i < pagesOf s.segments, s.bit i = false := by
  constructor
  · rintro ⟨k, start, seg, hrun⟩
    have hfits := hrun.fits
    have hin := pagesOf_take_add_le hrun.segment hrun.notBitmap
    exact ⟨_, by omega, hrun.clear 0 (by decide)⟩
  · rintro ⟨i, hi, hclear⟩
    obtain ⟨k, seg, start, hseg, hb, hlt, rfl⟩ := exists_page hi
    refine ⟨k, start, seg, hseg, hb, hlt, ?_⟩
    intro j hj
    obtain rfl : j = 0 := by omega
    exact hclear

/-- The pages that no call has taken. -/
def clearPages (s : Pmm) : Nat :=
  pagesOf s.segments - Bitmap.count s.bit 0 (pagesOf s.segments)

theorem clearPages_eq_zero : s.clearPages = 0 ↔ s.NoRun 1 := by
  have hle := Bitmap.count_le s.bit 0 (pagesOf s.segments)
  have hall : s.clearPages = 0 ↔ ∀ i < pagesOf s.segments, s.bit i = true := by
    rw [← Bitmap.count_eq_iff]
    unfold clearPages
    omega
  have hno : s.NoRun 1 ↔ ¬ ∃ k start seg, s.RunAt 1 k start seg := by
    unfold NoRun
    push Not
    rfl
  rw [hall, hno, exists_runAt_one]
  simp

/-- Calls of `palloc(1)` in a row: so many succeed, and the next one returns null. -/
def Exhausts : Nat → Pmm → Prop
  | 0, s => ∃ s', s.palloc 1 = some (0, s')
  | n + 1, s => ∃ p s', s.palloc 1 = some (p, s') ∧ p ≠ 0 ∧ Exhausts n s'

section Single

variable {m : Mem} {es : List MemmapEntry} (hends : Ends es)
  (htotal : bytesOf (segmentsOf es) < word) {s : Pmm} (hs : Reachable m es s) (hready : s.bitmap ≠ 0)

include hends htotal hs hready

theorem palloc_single :
    ∃ p s', s.palloc 1 = some (p, s') ∧ (p = 0 ↔ s.clearPages = 0) ∧
      (p ≠ 0 → s.clearPages = s'.clearPages + 1 ∧ s'.bitmap = s.bitmap) := by
  rw [clearPages_eq_zero]
  obtain ⟨p, s', he, ⟨hf, hno⟩ | ⟨seg, k, start, hg, -, -, h0⟩⟩ :=
    hs.palloc_cases hends htotal hready Nat.one_pos
  · cases hf
    exact ⟨0, _, he, iff_of_true rfl hno, fun h0 => absurd rfl h0⟩
  · refine ⟨p, s', he, iff_of_false h0 fun hno => hno k start seg hg.runAt, fun _ => ⟨?_, ?_⟩⟩
    · have hfits := hg.fits
      have hin := pagesOf_take_add_le hg.segment hg.notBitmap
      have hcount := hg.count 0 (pagesOf s.segments)
      have hle := Bitmap.count_le s'.bit 0 (pagesOf s.segments)
      unfold clearPages
      rw [hg.pages]
      omega
    · exact congrArg Shape.bitmap hg.shape

theorem exhausts_iff (n : Nat) : Exhausts n s ↔ n = s.clearPages := by
  induction n generalizing s with
  | zero =>
    obtain ⟨p, s', he, hnull, -⟩ := palloc_single hends htotal hs hready
    unfold Exhausts
    rw [he, eq_comm, ← hnull]
    simp
  | succ n ih =>
    obtain ⟨p, s', he, hnull, hnext⟩ := palloc_single hends htotal hs hready
    unfold Exhausts
    constructor
    · rintro ⟨q, t, he', h0, hrest⟩
      obtain ⟨rfl, rfl⟩ : p = q ∧ s' = t := by simpa using he.symm.trans he'
      obtain ⟨hclear, hb⟩ := hnext h0
      rw [hclear, (ih (hs.palloc he) (hb ▸ hready)).mp hrest]
    · intro hn
      have h0 : p ≠ 0 := fun h0 => absurd (hnull.mp h0) (by omega)
      obtain ⟨hclear, hb⟩ := hnext h0
      exact ⟨p, s', he, h0, (ih (hs.palloc he) (hb ▸ hready)).mpr (by omega)⟩

end Single

/-! ## Memory maps with regions apart -/

/-- What the boot loader promises of the usable entries, wherever they lie. -/
structure Regions (es : List MemmapEntry) : Prop where
  ends : Ends es
  aligned : ∀ e ∈ es, e.type = .usable → pageSize ∣ e.base ∧ pageSize ∣ e.length
  disjoint : es.Pairwise fun a b => a.type = .usable → b.type = .usable →
    a.base + a.length ≤ b.base ∨ b.base + b.length ≤ a.base

theorem bytesOf_le_of_apart {segs : List Segment} {hi : Nat} (hap : segs.Pairwise Segment.Apart)
    (hin : ∀ seg ∈ segs, seg.base + seg.length ≤ hi) : bytesOf segs ≤ hi := by
  have hset : ∃ U : Finset Nat, U.card = bytesOf segs ∧
      ∀ x, x ∈ U ↔ ∃ seg ∈ segs, seg.base ≤ x ∧ x < seg.base + seg.length := by
    clear hin
    induction hap with
    | nil => exact ⟨∅, rfl, by simp⟩
    | @cons seg segs hseg _ ih =>
      obtain ⟨U, hcard, hU⟩ := ih
      refine ⟨Finset.Ico seg.base (seg.base + seg.length) ∪ U, ?_, ?_⟩
      · rw [Finset.card_union_of_disjoint, Nat.card_Ico, hcard, Nat.add_sub_cancel_left]
        · rfl
        · rw [Finset.disjoint_left]
          intro x hx hxU
          obtain ⟨seg', hseg', h1, h2⟩ := (hU x).mp hxU
          obtain ⟨h3, h4⟩ := Finset.mem_Ico.mp hx
          have := hseg seg' hseg'
          unfold Segment.Apart at this
          omega
      · intro x
        simp [hU]
  obtain ⟨U, hcard, hU⟩ := hset
  have hsub : U ⊆ Finset.range hi := by
    intro x hx
    obtain ⟨seg, hseg, -, hlt⟩ := (hU x).mp hx
    exact Finset.mem_range.mpr (Nat.lt_of_lt_of_le hlt (hin seg hseg))
  have hle := Finset.card_le_card hsub
  rwa [hcard, Finset.card_range] at hle

theorem Regions.total (h : Regions es) : bytesOf (segmentsOf es) < word := by
  have hle := @bytesOf_le_of_apart (segmentsOf es) (word - 1) (segmentsOf_apart h.disjoint) (by
    intro seg hseg
    obtain ⟨-, e, he, hu, -, hfin, -⟩ := segmentsOf_within hseg
    have := h.ends e he hu
    omega)
  exact Nat.lt_of_le_of_lt hle (by decide)

theorem Regions.slots_dvd (h : Regions es) (hseg : seg ∈ slots (segmentsOf es)) :
    pageSize ∣ seg.length := by
  by_cases h0 : seg.length = 0
  · rw [h0]
    exact Nat.dvd_zero _
  · obtain ⟨-, e, he, hu, hstart, hfin, hbase⟩ := slots_within hseg h0
    obtain ⟨hb, hl⟩ := h.aligned e he hu
    have hdvd : pageSize ∣ seg.base := by
      rcases hbase with hbase | hbase
      · rwa [hbase]
      · rw [hbase]
        decide
    refine (Nat.dvd_add_right hdvd).mp ?_
    rw [hfin]
    exact Nat.dvd_add hb hl

theorem pagesOf_whole (h : ∀ seg ∈ segs, seg.isBitmap = false ∧ pageSize ∣ seg.length) :
    pageSize * pagesOf segs = bytesOf segs := by
  induction segs with
  | nil => rfl
  | cons seg segs ih =>
    obtain ⟨⟨hb, hdvd⟩, hrest⟩ := forall_mem_cons.mp h
    have hpages : pageSize * seg.pages = seg.length := by
      rw [Segment.pages, if_neg (by simp [hb]), Nat.mul_div_cancel' hdvd]
    have hcons : pagesOf (seg :: segs) = seg.pages + pagesOf segs := rfl
    rw [hcons, Nat.mul_add, hpages, ih hrest]
    rfl

theorem Fresh.bytes {home : Segment} (hf : Fresh es i home s) (hr : Regions es) :
    pageSize * pagesOf s.segments + home.length = bytesOf (segmentsOf es) := by
  obtain ⟨hi, hhome⟩ := List.getElem?_eq_some_iff.mp hf.slot
  have hsplit : slots (segmentsOf es) =
      (slots (segmentsOf es)).take i ++ home :: (slots (segmentsOf es)).drop (i + 1) := by
    rw [← hhome, ← drop_eq_getElem_cons hi, take_append_drop]
  have hwhole : ∀ segs : List Segment, segs ⊆ slots (segmentsOf es) →
      pageSize * pagesOf segs = bytesOf segs := fun segs hsub =>
    pagesOf_whole fun seg hseg => ⟨(slots_fresh (hsub hseg)).1, hr.slots_dvd (hsub hseg)⟩
  have htake := hwhole _ (take_subset i _)
  have hdrop := hwhole _ (drop_subset (i + 1) _)
  have hpages : pagesOf s.segments = pagesOf ((slots (segmentsOf es)).take i) +
      pagesOf ((slots (segmentsOf es)).drop (i + 1)) := by
    rw [hf.segments, modify_eq_take_cons_drop hi, pagesOf_append]
    congr 1
    simp [pagesOf, Segment.pages, Segment.mark]
  have hbytes : bytesOf (segmentsOf es) = bytesOf ((slots (segmentsOf es)).take i) +
      (home.length + bytesOf ((slots (segmentsOf es)).drop (i + 1))) :=
    calc bytesOf (segmentsOf es)
      _ = bytesOf (slots (segmentsOf es)) := (bytesOf_slots _).symm
      _ = bytesOf ((slots (segmentsOf es)).take i ++ home :: (slots (segmentsOf es)).drop (i + 1)) :=
        congrArg bytesOf hsplit
      _ = _ := bytesOf_append _ _
  rw [hpages, hbytes, Nat.mul_add, htake, hdrop]
  omega

theorem Fresh.home_lt_iff {home : Segment} (hf : Fresh es i home s) (hpos : 0 < home.length) :
    home.length < bytesOf (segmentsOf es) ↔ 2 ≤ (segmentsOf es).length := by
  have hmem : home ∈ segmentsOf es := by
    rcases mem_append.mp (mem_of_getElem? hf.slot) with h | h
    · exact h
    · rw [(mem_replicate.mp h).2] at hpos
      exact absurd hpos (Nat.lt_irrefl 0)
  obtain ⟨pre, post, hsplit⟩ := append_of_mem hmem
  have hall := fun seg (hseg : seg ∈ segmentsOf es) => segmentsOf_pos hseg
  rw [hsplit] at hall ⊢
  have hpre := length_le_bytesOf fun seg hseg => hall seg (mem_append_left _ hseg)
  have hpost := length_le_bytesOf fun seg hseg =>
    hall seg (mem_append_right _ (mem_cons_of_mem _ hseg))
  have hcons : bytesOf (home :: post) = home.length + bytesOf post := rfl
  rw [bytesOf_append, hcons, length_append, length_cons]
  constructor
  · intro hlt
    by_contra hone
    obtain rfl : pre = [] := eq_nil_of_length_eq_zero (by omega)
    obtain rfl : post = [] := eq_nil_of_length_eq_zero (by omega)
    simp [bytesOf] at hlt
  · omega

theorem Fresh.clearPages {home : Segment} (hf : Fresh es i home s)
    (hpages : pagesOf s.segments ≤ 8 * s.bitmapSize) : s.clearPages = pagesOf s.segments := by
  have h0 := @Bitmap.count_le_of_clear s.bit 0 (pagesOf s.segments) fun i _ hi =>
    hf.clear i (Nat.lt_of_lt_of_le hi hpages)
  unfold Pmm.clearPages
  omega

/-- A page is left to allocate just if two of the regions reach above 1 MiB, and `stat_free` is too
high by the length of the region that the bitmap has taken. -/
theorem pages_left (m : Mem) {es : List MemmapEntry} (hr : Regions es)
    (htwo : 2 * pageSize ≤ (es.map above).sum) :
    let s := booted m es
    ((∃ p s', s.palloc 1 = some (p, s') ∧ p ≠ 0) ↔ 2 ≤ es.countP fun e => 0 < above e) ∧
      ∃ home ∈ s.segments, home.isBitmap = true ∧ 0 < home.length ∧
        ∀ n, Exhausts n s ↔ s.statFree = pageSize * n + home.length := by
  intro s
  have hsize : 8 ≤ bytesOf (segmentsOf es) := eight_le_bytesOf (Nat.le_trans (by decide) htwo)
  obtain ⟨i, home, hf, hpos, hready⟩ := exists_home m hr.total hsize
  have hbytes := hf.bytes hr
  have hclear := hf.clearPages (initialise_layout m hr.total).pages_le
  refine ⟨?_, home.mark, mem_of_getElem? hf.home, rfl, hpos, ?_⟩
  · have hlen : 2 ≤ (segmentsOf es).length ↔ 2 ≤ es.countP fun e => 0 < above e := by
      rw [← length_filterMap, segmentsOf, length_take]
      simp only [maxSegments]
      omega
    rw [← hlen, ← hf.home_lt_iff hpos, ← hbytes]
    obtain ⟨p, s', he, hnull, -⟩ := palloc_single hr.ends hr.total .initialise hready
    rw [hclear] at hnull
    have hsome : (∃ q t, s.palloc 1 = some (q, t) ∧ q ≠ 0) ↔ p ≠ 0 := by
      rw [he]
      simp
    rw [hsome, ne_eq, hnull]
    simp only [pageSize]
    omega
  · intro n
    rw [exhausts_iff hr.ends hr.total .initialise hready, hclear]
    unfold statFree
    rw [hf.freeMem, hf.totalMem, ← hbytes]
    simp only [pageSize, Segment.mark]
    omega

theorem twoPages_regions : Regions twoPages :=
  ⟨twoPages_tidy.low.ends, twoPages_tidy.aligned, twoPages_tidy.disjoint⟩

theorem pages_left_twoPages :
    ∃ p s', (booted (fun _ => 0) twoPages).palloc 1 = some (p, s') ∧ p ≠ 0 :=
  (@pages_left (fun _ => 0) twoPages twoPages_regions (by decide)).1.mpr (by decide)

/-- Two pages in one region: both go to the bitmap, and both are counted as free. -/
theorem oneRegion_not_left :
    let s := booted (fun _ => 0) [⟨0x100000, 0x2000, .usable⟩]
    (s.palloc 1).map Prod.fst = some 0 ∧ s.statFree = 0x2000 ∧ Exhausts 0 s := by
  refine ⟨rfl, rfl, _, rfl⟩

/-! ## `reserve_heap` in any state -/

/-- The `n` pages from `p` on are a run that was clear, and their bits are the ones that are set. -/
def Reserved (s : Pmm) (n p : Nat) (s' : Pmm) : Prop :=
  ∃ k start seg, s.RunAt n k start seg ∧ p = seg.base + pageSize * start ∧
    ∀ i, s'.bit i = (decide (pagesOf (s.segments.take k) + start ≤ i ∧
      i < pagesOf (s.segments.take k) + start + n) || s.bit i)

theorem RunAt.shorten {n n' k start : Nat} (h : s.RunAt n k start seg) (hle : n' ≤ n) :
    s.RunAt n' k start seg :=
  ⟨h.segment, h.notBitmap, by have := h.fits; omega, fun i hi => h.clear i (by omega)⟩

section Same

variable {s t : Pmm} (hsegs : t.segments = s.segments) (hbits : ∀ i, t.bit i = s.bit i)

include hsegs hbits

theorem runAt_congr {n k start : Nat} : t.RunAt n k start seg ↔ s.RunAt n k start seg := by
  have hclear : ∀ first, t.Clear first n ↔ s.Clear first n := by
    intro first
    simp only [Clear, hbits]
  constructor
  · rintro ⟨h1, h2, h3, h4⟩
    rw [hsegs] at h1 h4
    exact ⟨h1, h2, h3, (hclear _).mp h4⟩
  · rintro ⟨h1, h2, h3, h4⟩
    rw [← hsegs] at h1 h4
    exact ⟨h1, h2, h3, (hclear _).mpr h4⟩

theorem noRun_congr : t.NoRun n ↔ s.NoRun n := by
  simp only [NoRun, runAt_congr hsegs hbits]

theorem reserved_congr {p : Nat} {s' : Pmm} : t.Reserved n p s' ↔ s.Reserved n p s' := by
  simp only [Reserved, runAt_congr hsegs hbits, hsegs, hbits]

end Same

theorem Reachable.bitmap_ne_zero (hs : Reachable m es s) (htotal : bytesOf (segmentsOf es) < word)
    (hpages : pagesOf s.segments ≠ 0) : s.bitmap ≠ 0 := by
  have hsegs : pagesOf s.segments = pagesOf (booted m es).shape.segs := by
    rw [← pagesOf_place]
    exact congrArg (fun sh => pagesOf sh.segs) hs.shape_eq
  have hle := initialise_pages m es
  rw [← hsegs] at hle
  have hsize : 8 ≤ bytesOf (segmentsOf es) := by
    simp only [pageSize] at hle
    omega
  obtain ⟨-, -, -, -, hready⟩ := exists_home m htotal hsize
  rw [show s.bitmap = _ from congrArg Shape.bitmap hs.shape_eq]
  exact hready

theorem Reachable.reserveHeap_cases (hlow : Low es) (hs : Reachable m es s) (hn : 0 < n) :
    ∃ p s', s.reserveHeap n = some (p, s') ∧
      (p = 0 ∧ s.NoRun n ∧ s'.segments = s.segments ∧ (∀ i, s'.bit i = s.bit i) ∨
        p ≠ 0 ∧ p + n * pageSize ≤ 2 ^ 47 ∧ s.Reserved n p s') := by
  have hl := hs.layout hlow
  by_cases hready : s.bitmap = 0
  · refine ⟨0, s, if_pos (Or.inl hready), .inl ⟨rfl, ?_, rfl, fun _ => rfl⟩⟩
    intro k start seg hrun
    have hfits := hrun.fits
    have hin := pagesOf_take_add_le hrun.segment hrun.notBitmap
    exact hs.bitmap_ne_zero hlow.bytesOf_lt (by omega) hready
  · obtain ⟨p, s', he, ⟨hf, hno⟩ | ⟨seg, k, start, hg, -⟩⟩ := reserveHeap_first hl.pages_le hready hn
    · cases hf
      exact ⟨0, _, he, .inl ⟨rfl, hno, rfl, fun _ => rfl⟩⟩
    · obtain ⟨hp, h0⟩ := hg.ptr_eq hl hlow.ends hn
      have htop := (hl.low hlow (mem_of_getElem? hg.segment) hg.notEmpty).2
      exact ⟨p, s', he, .inr ⟨h0, (hg.fin_le hl hlow.ends hn).trans htop, k, start, seg, hg.runAt,
        hp, hg.bits⟩⟩

end Terrakernel.Pmm
