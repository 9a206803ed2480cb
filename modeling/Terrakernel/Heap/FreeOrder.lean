import Terrakernel.Heap.Separation

/-!
# The order of frees

A join never hides a block that a later `free` would mark, so the order of frees does not matter.
-/

namespace Terrakernel.Heap

open Memory Coalesce
open List hiding Mem

variable {b : Blk} {bs : List Blk} {h : Heap} {lo n hi : Nat}

/-! ## Several frees at once -/

def releaseAll (ptrs : List Nat) (b : Blk) : Blk :=
  if b.ptr ∈ ptrs then { b with free := true } else b

theorem release_ptr (ptr : Nat) (b : Blk) : (release ptr b).ptr = b.ptr := by
  unfold release
  split_ifs <;> rfl

theorem foldl_release (ptrs : List Nat) (b : Blk) :
    ptrs.foldl (fun c p => release p c) b = releaseAll ptrs b := by
  induction ptrs generalizing b with
  | nil => simp [releaseAll]
  | cons p ps ih =>
    rw [foldl_cons, ih]
    unfold releaseAll
    simp only [release_ptr, mem_cons]
    by_cases hp : b.ptr = p
    · rw [if_pos (Or.inl hp), release, if_pos hp]
      split_ifs <;> rfl
    · simp only [release, hp, false_or, if_false]

theorem foldl_freed (ptrs : List Nat) (hn : joins.Normal bs) :
    ptrs.foldl (fun cs p => freed p cs) bs = joins.norm (bs.map (releaseAll ptrs)) := by
  have hmark : ∀ f ∈ ptrs.map release, joins.Marking f := by
    intro f hf
    obtain ⟨p, -, rfl⟩ := List.mem_map.mp hf
    exact release_marking p
  have hall := Joins.foldl_norm_map (ptrs.map release) hmark bs
  simp only [joins.norm_of_normal hn, foldl_map, foldl_release] at hall
  exact hall

theorem releaseAll_perm {ps qs : List Nat} (h : ps.Perm qs) : releaseAll ps = releaseAll qs := by
  funext b
  simp only [releaseAll, h.mem_iff]

theorem runCalls_frees (hs : Sound h bs) (ptrs : List Nat) :
    ∃ h', runCalls (ptrs.map .free) h = some h' ∧
      Sound h' (joins.norm (bs.map (releaseAll ptrs))) ∧ h'.heapBase = h.heapBase ∧
      h'.heapSize = h.heapSize := by
  have := runCalls_spec hs (ptrs.map .free)
  rw [foldl_map] at this
  rw [← foldl_freed ptrs hs.normal]
  exact this

/-! ## No gaps without `realloc` -/

theorem Tiles.fits (h : Tiles lo bs hi) : Fits lo bs hi := by
  induction bs generalizing lo with
  | nil => exact le_of_eq h
  | cons b bs ih => exact ⟨le_of_eq h.1, ih h.2⟩

theorem tiles_append {xs ys : List Blk} :
    Tiles lo (xs ++ ys) hi ↔ ∃ mid, Tiles lo xs mid ∧ Tiles mid ys hi := by
  induction xs generalizing lo with
  | nil =>
    constructor
    · intro h; exact ⟨lo, rfl, h⟩
    · rintro ⟨mid, rfl, h⟩; exact h
  | cons b bs ih =>
    simp only [cons_append, Tiles, ih]
    constructor
    · rintro ⟨h, mid, h1, h2⟩; exact ⟨mid, ⟨h, h1⟩, h2⟩
    · rintro ⟨mid, ⟨h, h1⟩, h2⟩; exact ⟨h, mid, h1, h2⟩

theorem Tiles.push (h : Tiles lo (b :: bs) hi) : Tiles lo (joins.push b bs) hi := by
  cases bs with
  | nil => exact h
  | cons c cs =>
    by_cases hbc : joins.free b = true ∧ joins.free c = true
    · rw [joins.push_free hbc.1 hbc.2]
      obtain ⟨h1, h2, h3⟩ := h
      refine ⟨h1, ?_⟩
      have hfin : (joins.join b c).fin = c.fin := by
        simp only [joins, Blk.fin] at *
        omega
      rw [hfin]
      exact h3
    · rw [joins.push_apart hbc]
      exact h

theorem Tiles.norm (h : Tiles lo bs hi) : Tiles lo (joins.norm bs) hi := by
  induction bs generalizing lo with
  | nil => exact h
  | cons b bs ih => exact Tiles.push ⟨h.1, ih h.2⟩

theorem Tiles.map_releaseAll (h : Tiles lo bs hi) (ptrs : List Nat) :
    Tiles lo (bs.map (releaseAll ptrs)) hi := by
  induction bs generalizing lo with
  | nil => exact h
  | cons b bs ih =>
    have haddr : (releaseAll ptrs b).addr = b.addr ∧ (releaseAll ptrs b).fin = b.fin := by
      unfold releaseAll
      split_ifs <;> exact ⟨rfl, rfl⟩
    refine ⟨h.1.trans haddr.1.symm, ?_⟩
    rw [haddr.2]
    exact ih h.2

theorem Tiles.allot (h : Tiles lo bs hi) : Tiles lo (allot n bs).2 hi := by
  rcases h.fits.allot_cases (n := n) with ⟨he, -⟩ | ⟨pre, b, post, rfl, -, hn, -, he⟩
  · rw [he]
    exact h
  · rw [he]
    obtain ⟨mid, h1, h2, h3⟩ := tiles_append.mp h
    refine tiles_append.mpr ⟨mid, h1, tiles_append.mpr ⟨b.fin, ?_, h3⟩⟩
    unfold carve
    split_ifs with hc
    · refine ⟨h2, rfl, ?_⟩
      simp only [Tiles, Blk.fin]
      omega
    · exact ⟨h2, rfl⟩

/-! ## Live pointers -/

/-- The pointers that were handed out and not given back, after one more call. -/
def Call.track : Call → Nat → List Nat → List Nat
  | .malloc _, r, live => if r = 0 then live else r :: live
  | .calloc _ _, r, live => if r = 0 then live else r :: live
  | .realloc ptr n, r, live =>
    if r ≠ 0 then r :: live.filter (· ≠ ptr) else if n = 0 then live.filter (· ≠ ptr) else live
  | .free ptr, _, live => live.filter (· ≠ ptr)
  | .defragment, _, live => live

def runTracked : List Call → Heap → List Nat → Option (Heap × List Nat)
  | [], h, live => some (h, live)
  | c :: cs, h, live => do
    let (r, h) ← c.exec h
    runTracked cs h (c.track r live)

def Call.keepsLengths : Call → Bool
  | .malloc _ => true
  | .calloc _ _ => true
  | .free _ => true
  | _ => false

/-- The blocks fill the region, and the ones in use were handed out. -/
structure Full (h : Heap) (bs : List Blk) (live : List Nat) : Prop where
  sound : Sound h bs
  tiles : h.heapBase ≠ 0 → Tiles h.heapBase bs (h.heapBase + h.heapSize)
  used : ∀ b ∈ bs, b.free = false → b.ptr ∈ live

theorem allot_used {live : List Nat} (hf : Fits lo bs hi)
    (h : ∀ b ∈ bs, b.free = false → b.ptr ∈ live) :
    ∀ b ∈ (allot n bs).2, b.free = false →
      b.ptr ∈ if (allot n bs).1 = 0 then live else (allot n bs).1 :: live := by
  rcases hf.allot_cases (n := n) with ⟨he, -⟩ | ⟨pre, b, post, rfl, -, -, -, he⟩
  · rw [he]
    exact h
  · rw [he, if_neg (by simp [Blk.ptr])]
    intro c hc hfree
    have hcarve : c ∈ carve n b → c.ptr = b.ptr := by
      unfold carve
      split_ifs
      · intro hc
        simp only [mem_cons, not_mem_nil, or_false] at hc
        rcases hc with rfl | rfl
        · rfl
        · exact absurd hfree (by simp)
      · intro hc
        obtain rfl := mem_singleton.mp hc
        rfl
    rw [mem_append, mem_append] at hc
    rcases hc with hc | hc | hc
    · exact mem_cons_of_mem _ (h c (by simp [hc]) hfree)
    · rw [hcarve hc]
      exact mem_cons_self
    · exact mem_cons_of_mem _ (h c (by simp [hc]) hfree)

theorem mem_norm_used (hb : b ∈ joins.norm bs) (hfree : b.free = false) : b ∈ bs := by
  induction bs generalizing b with
  | nil => exact hb
  | cons c cs ih =>
    rw [Joins.norm_cons] at hb
    revert hb
    cases hcs : joins.norm cs with
    | nil =>
      intro hb
      exact mem_cons.mpr (Or.inl (by simpa [Joins.push] using hb))
    | cons d ds =>
      rw [hcs] at ih
      intro hb
      rw [Joins.push] at hb
      split_ifs at hb
      · rcases mem_cons.mp hb with rfl | hb
        · exact absurd hfree (by simp [joins])
        · exact mem_cons_of_mem _ (ih (mem_cons_of_mem _ hb) hfree)
      · rcases mem_cons.mp hb with rfl | hb
        · exact mem_cons_self
        · exact mem_cons_of_mem _ (ih hb hfree)

/-! ## Runs without `realloc` -/

theorem freed_eq_norm (ptr : Nat) (bs : List Blk) :
    freed ptr bs = joins.norm (bs.map (releaseAll [ptr])) := by
  have : release ptr = releaseAll [ptr] := by
    funext b
    simp [release, releaseAll]
  rw [freed, this]

theorem releaseAll_used {ptrs : List Nat} (h : (releaseAll ptrs b).free = false) :
    releaseAll ptrs b = b ∧ b.ptr ∉ ptrs := by
  by_cases hp : b.ptr ∈ ptrs
  · rw [releaseAll, if_pos hp] at h
    exact absurd h (by simp)
  · exact ⟨by rw [releaseAll, if_neg hp], hp⟩

theorem exec_full {live : List Nat} (hf : Full h bs live) {c : Call} (hc : c.keepsLengths = true) :
    ∃ r h', c.exec h = some (r, h') ∧ h'.heapBase = h.heapBase ∧ h'.heapSize = h.heapSize ∧
      Full h' (c.onBlocks bs).2 (c.track r live) := by
  obtain ⟨h', he, hs, hb, hz⟩ := exec_spec hf.sound c
  have hfits := hf.sound.rep.fits
  refine ⟨_, h', he, hb, hz, hs, ?_, ?_⟩
  · rw [hb, hz]
    intro h0
    have ht := hf.tiles h0
    cases c with
    | malloc n => exact ht.allot
    | calloc n size => exact ht.allot
    | free ptr =>
      simp only [Call.onBlocks, freed_eq_norm]
      exact (ht.map_releaseAll [ptr]).norm
    | realloc ptr n => exact absurd hc (by simp [Call.keepsLengths])
    | defragment => exact ht
  · cases c with
    | malloc n => exact allot_used hfits hf.used
    | calloc n size => exact allot_used hfits hf.used
    | free ptr =>
      intro b hbm hfree
      simp only [Call.onBlocks, freed_eq_norm] at hbm
      obtain ⟨a, ha, rfl⟩ := List.mem_map.mp (mem_norm_used hbm hfree)
      obtain ⟨heq, hnot⟩ := releaseAll_used hfree
      rw [heq] at hfree ⊢
      exact mem_filter.mpr ⟨hf.used a ha hfree, by simpa using hnot⟩
    | realloc ptr n => exact absurd hc (by simp [Call.keepsLengths])
    | defragment => exact hf.used

theorem runTracked_full {live : List Nat} (hf : Full h bs live) {cs : List Call}
    (hcs : ∀ c ∈ cs, c.keepsLengths = true) :
    ∃ h' bs' live', runTracked cs h live = some (h', live') ∧ runCalls cs h = some h' ∧
      h'.heapBase = h.heapBase ∧ h'.heapSize = h.heapSize ∧ Full h' bs' live' := by
  induction cs generalizing h bs live with
  | nil => exact ⟨h, bs, live, rfl, rfl, rfl, rfl, hf⟩
  | cons c cs ih =>
    obtain ⟨r, h1, he, hb1, hz1, hf1⟩ := exec_full hf (hcs c mem_cons_self)
    obtain ⟨h2, bs2, live2, ht, hr, hb2, hz2, hf2⟩ :=
      ih hf1 fun d hd => hcs d (mem_cons_of_mem _ hd)
    refine ⟨h2, bs2, live2, ?_, ?_, hb2.trans hb1, hz2.trans hz1, hf2⟩
    · rw [runTracked, he]
      exact ht
    · rw [runCalls, he]
      exact hr

theorem initialise_full {σ : Type} {reserveHeap : Nat → σ → Nat × σ} {m : Mem} {s s' : σ}
    (hinit : initialise reserveHeap m s = some (h, s')) (htop : h.heapBase + h.heapSize ≤ word) :
    Full h (initialBlocks h.heapBase h.heapSize) [] := by
  have hsize := (initialise_spec hinit).2
  refine ⟨initialise_sound hinit htop, ?_, ?_⟩
  · intro h0
    rw [initialBlocks, if_neg h0]
    refine ⟨rfl, ?_⟩
    simp only [Tiles, Blk.fin, headerSize]
    omega
  · intro b hb hfree
    unfold initialBlocks at hb
    split_ifs at hb
    · simp at hb
    · obtain rfl := mem_singleton.mp hb
      exact absurd hfree (by simp)

theorem Full.all_freed {live ptrs : List Nat} (hf : Full h bs live) (hp : ptrs.Perm live) :
    joins.norm (bs.map (releaseAll ptrs)) = initialBlocks h.heapBase h.heapSize := by
  have hfirst := hf.sound.rep.first
  have hfree : ∀ b ∈ bs.map (releaseAll ptrs), joins.free b = true := by
    intro b hb
    by_contra hused
    obtain ⟨a, ha, rfl⟩ := List.mem_map.mp hb
    have hused' : (releaseAll ptrs a).free = false := by simpa [joins] using hused
    obtain ⟨heq, hnot⟩ := releaseAll_used hused'
    rw [heq] at hused'
    exact hnot (hp.mem_iff.mpr (hf.used a ha hused'))
  unfold initialBlocks
  cases bs with
  | nil =>
    rw [if_pos (show h.heapBase = 0 from hfirst)]
    rfl
  | cons c cs =>
    have h0 : h.heapBase ≠ 0 := by
      have := (hf.sound.rep.valid c mem_cons_self).1
      rw [hfirst, firstAddr]
      omega
    have ht := ((hf.tiles h0).map_releaseAll ptrs).norm
    obtain ⟨b, hnorm, hbf⟩ := joins.norm_all_free (by simp) hfree
    rw [hnorm] at ht ⊢
    obtain ⟨haddr, hfin⟩ := ht
    rw [if_neg h0]
    obtain ⟨addr, len, free⟩ := b
    simp only [Tiles, Blk.fin, joins] at haddr hfin hbf
    simp only [List.cons.injEq, Blk.mk.injEq, and_true]
    exact ⟨haddr.symm, by omega, hbf⟩

section Results

variable {σ : Type} {reserveHeap : Nat → σ → Nat × σ} {m : Mem} {s s' : σ} {h : Heap}

/-- Frees in two orders leave the same list. Without `realloc` in the run, freeing all that is
live leaves the first block. -/
theorem free_order (hinit : initialise reserveHeap m s = some (h, s'))
    (htop : h.heapBase + h.heapSize ≤ word) :
    (∀ (cs : List Call) (ps qs : List Nat), ps.Perm qs →
      ∃ h' h1 h2 es, runCalls cs h = some h' ∧ runCalls (ps.map .free) h' = some h1 ∧
        runCalls (qs.map .free) h' = some h2 ∧ h1.blockList = some es ∧ h2.blockList = some es) ∧
    ∀ cs : List Call, (∀ c ∈ cs, c.keepsLengths = true) →
      ∃ h' live, runTracked cs h [] = some (h', live) ∧ runCalls cs h = some h' ∧
        ∀ ps : List Nat, ps.Perm live →
          ∃ h1, runCalls (ps.map .free) h' = some h1 ∧ h1.blockList = h.blockList ∧
            (h.heapBase ≠ 0 → h1.blockList = some [(h.heapBase,
              ⟨h.heapBase + headerSize, h.heapSize - headerSize, true, 0, 0⟩)]) := by
  have hinitial := initialise_sound hinit htop
  refine ⟨?_, ?_⟩
  · intro cs ps qs hperm
    obtain ⟨h', hrun, hs, -⟩ := runCalls_spec hinitial cs
    obtain ⟨h1, hrun1, hs1, -⟩ := runCalls_frees hs ps
    obtain ⟨h2, hrun2, hs2, -⟩ := runCalls_frees hs qs
    refine ⟨h', h1, h2, _, hrun, hrun1, hrun2, hs1.rep.blockList, ?_⟩
    rw [releaseAll_perm hperm]
    exact hs2.rep.blockList
  · intro cs hcs
    obtain ⟨h', bs, live, htrack, hrun, hb, hz, hf⟩ :=
      runTracked_full (initialise_full hinit htop) hcs
    refine ⟨h', live, htrack, hrun, ?_⟩
    intro ps hperm
    obtain ⟨h1, hrun1, hs1, -⟩ := runCalls_frees hf.sound ps
    rw [hf.all_freed hperm, hb, hz] at hs1
    refine ⟨h1, hrun1, ?_, ?_⟩
    · rw [hs1.rep.blockList, hinitial.rep.blockList]
    · intro h0
      rw [hs1.rep.blockList, initialBlocks, if_neg h0]
      rfl

end Results

theorem free_order_at_one_mib :
    ∃ h' h1 h2 es live, runCalls [.malloc 24, .calloc 4 25, .malloc 8] oneMib = some h' ∧
      runCalls ([0xFFFF800000100068, 0xFFFF800000100028, 0xFFFF8000001000f4].map .free) h' = some h1 ∧
      runCalls ([0xFFFF800000100028, 0xFFFF8000001000f4, 0xFFFF800000100068].map .free) h' = some h2 ∧
      h1.blockList = some es ∧ h2.blockList = some es ∧
      runTracked [.malloc 24, .calloc 4 25, .malloc 8] oneMib [] = some (h', live) ∧
      ∀ ps : List Nat, ps.Perm live → ∃ h3, runCalls (ps.map .free) h' = some h3 ∧
        h3.blockList = some [(0xFFFF800000100000, ⟨0xFFFF800000100028, 0xFFFFFFD8, true, 0, 0⟩)] := by
  obtain ⟨horder, hall⟩ := free_order initialise_at_one_mib (by decide)
  obtain ⟨h', h1, h2, es, hrun, hrun1, hrun2, hes1, hes2⟩ :=
    horder [.malloc 24, .calloc 4 25, .malloc 8]
      [0xFFFF800000100068, 0xFFFF800000100028, 0xFFFF8000001000f4]
      [0xFFFF800000100028, 0xFFFF8000001000f4, 0xFFFF800000100068] (by decide)
  obtain ⟨h'', live, htrack, hrun', hfree⟩ := hall [.malloc 24, .calloc 4 25, .malloc 8] (by decide)
  obtain rfl := Option.some.inj (hrun.symm.trans hrun')
  refine ⟨h', h1, h2, es, live, hrun, hrun1, hrun2, hes1, hes2, htrack, fun ps hperm => ?_⟩
  obtain ⟨h3, hrun3, -, hfirst⟩ := hfree ps hperm
  exact ⟨h3, hrun3, hfirst (by decide)⟩

end Terrakernel.Heap
