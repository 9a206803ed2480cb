import Terrakernel.Heap.Aligned

/-!
# What the calls do to the list

`malloc` takes the first of the shortest free blocks that fit, `free` right after it puts the list
back, and `realloc` moves the bytes of one block.
-/

namespace Terrakernel.Heap

open Memory Vmm Coalesce

section Results

variable {σ : Type} {reserveHeap : Nat → σ → Nat × σ} {m : Mem} {s s' : σ} {h0 h : Heap}

/-- Null comes back just if no free block is long enough. Otherwise the block is cut behind `n`
bytes if the rest is worth a header, and nothing else in the list changes. -/
theorem malloc_best_fit (hinit : initialise reserveHeap m s = some (h0, s'))
    (htop : h0.heapBase + h0.heapSize ≤ word) (hreach : Reachable h0 h) :
    ∃ bs, h.blockList = some (headers 0 bs 0) ∧
      ∀ n, ∃ p h', h.malloc n = some (p, h') ∧
        (p = 0 ↔ ∀ b ∈ bs, b.free = true → b.len < n) ∧
        (p = 0 → h'.mem = h.mem ∧ h'.heapBase = h.heapBase ∧ h'.heapSize = h.heapSize) ∧
        (p ≠ 0 → ∃ pre b post, BestFit n bs pre b post ∧ p = b.ptr ∧
          h'.blockList = some (headers 0 (pre ++ (carve n b ++ post)) 0) ∧
          KeepsOthers b bs h.mem h'.mem) := by
  obtain ⟨bs, hs, -⟩ := hreach.sound (initialise_sound hinit htop)
  refine ⟨bs, hs.rep.blockList, ?_⟩
  intro n
  cases hb : bestBlock n bs with
  | none =>
    refine ⟨0, _, malloc_none hs.rep hb, iff_of_true rfl (bestBlock_eq_none.mp hb), ?_, ?_⟩
    · exact fun _ => ⟨rfl, rfl, rfl⟩
    · exact fun hp => absurd rfl hp
  | some b =>
    obtain ⟨pre, post, hfit⟩ := bestBlock_bestFit hb
    obtain ⟨m', hm, hrep, hothers, -⟩ := malloc_some hs.rep hb hfit.split
    have hptr : b.ptr ≠ 0 := by simp [Blk.ptr]
    refine ⟨b.ptr, _, hm, iff_of_false hptr ?_, fun hp => absurd hp hptr, ?_⟩
    · intro hall
      have := hall b hfit.mem hfit.chosen.1
      have := hfit.chosen.2
      omega
    · exact fun _ => ⟨pre, b, post, hfit, rfl, hrep.blockList, hothers⟩

end Results

theorem malloc_best_fit_at_one_mib :
    ∃ bs, oneMib.blockList =
        some (headers 0 bs 0) ∧
      ∃ p h', oneMib.malloc 24 = some (p, h') ∧
        (p = 0 ↔ ∀ b ∈ bs, b.free = true → b.len < 24) := by
  obtain ⟨bs, hbs, hall⟩ := malloc_best_fit initialise_at_one_mib (by decide) .start
  obtain ⟨p, h', hm, hiff, -⟩ := hall 24
  exact ⟨bs, hbs, p, h', hm, hiff⟩

/-! ## `free` right after `malloc` -/

theorem freed_carve {lo hi n : Nat} {pre post : List Blk} {b : Blk}
    (hf : Fits lo (pre ++ (carve n b ++ post)) hi) (hn : joins.Normal (pre ++ b :: post))
    (hfree : b.free = true) : freed b.ptr (pre ++ (carve n b ++ post)) = pre ++ b :: post := by
  obtain ⟨addr, len, free⟩ := b
  obtain rfl : free = true := hfree
  unfold freed
  by_cases hc : n + headerSize < len
  · rw [carve, if_pos hc] at hf ⊢
    have hmark : List.map (release (addr + headerSize))
        (pre ++ ([⟨addr, n, false⟩, ⟨addr + headerSize + n, len - n - headerSize, true⟩] ++ post)) =
        pre ++ ⟨addr, n, true⟩ :: ⟨addr + headerSize + n, len - n - headerSize, true⟩ :: post :=
      hf.map_at fun c => { c with free := true }
    rw [joins.normal_iff_map, List.map_append, List.map_cons] at hn
    obtain ⟨hleft, hright⟩ := List.isChain_split.mp hn
    rw [Blk.ptr, hmark, joins.norm_join_middle]
    · congr 2
      simp only [joins, Blk.mk.injEq, and_true, true_and, headerSize] at *
      omega
    · rw [joins.normal_iff_map, List.map_append]
      exact hleft
    · rw [joins.normal_iff_map]
      exact hright
    · rfl
    · rfl
  · rw [carve, if_neg hc] at hf ⊢
    have hmark : List.map (release (addr + headerSize)) (pre ++ ([⟨addr, len, false⟩] ++ post)) =
        pre ++ ⟨addr, len, true⟩ :: post := hf.map_at fun c => { c with free := true }
    rw [Blk.ptr, hmark, joins.norm_of_normal hn]

/-- The list that a walk finds afterwards is the one from before, with both links of each block. -/
theorem free_after_malloc {σ : Type} {reserveHeap : Nat → σ → Nat × σ} {m : Mem} {s s' : σ}
    {h0 h : Heap} (hinit : initialise reserveHeap m s = some (h0, s'))
    (htop : h0.heapBase + h0.heapSize ≤ word) (hreach : Reachable h0 h) :
    ∃ es, h.blockList = some es ∧
      ∀ n, ∃ p h1, h.malloc n = some (p, h1) ∧
        (p ≠ 0 → ∃ h2, h1.free p = some h2 ∧ h2.blockList = some es) := by
  obtain ⟨bs, hs, -⟩ := hreach.sound (initialise_sound hinit htop)
  refine ⟨_, hs.rep.blockList, ?_⟩
  intro n
  cases hb : bestBlock n bs with
  | none => exact ⟨0, _, malloc_none hs.rep hb, fun hp => absurd rfl hp⟩
  | some b =>
    obtain ⟨pre, post, hfit⟩ := bestBlock_bestFit hb
    obtain ⟨m', hm, hrep, -⟩ := malloc_some hs.rep hb hfit.split
    have hnormal := hs.normal
    rw [hfit.split] at hnormal
    obtain ⟨h2, hfr, hy⟩ := free_spec hrep (carve_normal hnormal hfit.chosen.1) b.ptr
    refine ⟨b.ptr, _, hm, fun _ => ⟨h2, hfr, ?_⟩⟩
    rw [hy.rep.blockList, freed_carve hrep.fits hnormal hfit.chosen.1, ← hfit.split]

theorem free_after_malloc_at_one_mib :
    ∃ es, oneMib.blockList = some es ∧
      ∃ p h1, oneMib.malloc 24 = some (p, h1) ∧
        (p ≠ 0 → ∃ h2, h1.free p = some h2 ∧ h2.blockList = some es) := by
  obtain ⟨es, hes, hall⟩ := free_after_malloc initialise_at_one_mib (by decide) .start
  exact ⟨es, hes, hall 24⟩

/-! ## `realloc` -/

/-- The bytes of a block in use survive its `realloc`, and no other block in use is touched. -/
theorem realloc_contents {σ : Type} {reserveHeap : Nat → σ → Nat × σ} {m : Mem} {s s' : σ}
    {h0 h : Heap} (hinit : initialise reserveHeap m s = some (h0, s'))
    (htop : h0.heapBase + h0.heapSize ≤ word) (hreach : Reachable h0 h) {p l n : Nat}
    (hlive : Live h p l) (hn : 0 < n) :
    ∃ q h', h.realloc p n = some (q, h') ∧
      (q ≠ 0 → (∃ l', Live h' q l' ∧ n ≤ l') ∧
        (∀ i < min l n, h'.mem (q + i) = h.mem (p + i)) ∧
        (q ≠ p → ∀ l', ¬ Live h' p l') ∧
        ∀ r l', r ≠ p → Live h r l' → Live h' r l' ∧ ∀ x < l', h'.mem (r + x) = h.mem (r + x)) ∧
      (q = 0 → h'.mem = h.mem ∧ h'.heapBase = h.heapBase ∧ h'.heapSize = h.heapSize ∧
        Live h' p l) := by
  obtain ⟨bs, hs, -⟩ := hreach.sound (initialise_sound hinit htop)
  obtain ⟨b, hb, hused, rfl, rfl⟩ := (hs.rep.live_iff p l).mp hlive
  obtain ⟨q, h', bs', hm, hcase⟩ := realloc_cases hs hb hused hn
  refine ⟨q, h', hm, ?_, ?_⟩
  · intro hq
    rcases hcase with ⟨h0, -⟩ | ⟨-, hk, -, hperm, hcopy, -, ⟨c, hc, hcp, hcf, hcn, -⟩, -⟩
    · exact absurd h0 hq
    · have hr' := hk.sound.rep
      refine ⟨⟨c.len, (hr'.live_iff _ _).mpr ⟨c, hc, hcf, hcp, rfl⟩, hcn⟩, ?_, ?_, ?_⟩
      · exact fun i hi => hcopy i (by omega)
      · -- The pointers in use are the old ones, with `q` in the place of `p`.
        intro hqp l' hlive'
        obtain ⟨d, hd, hdf, hdp, -⟩ := (hr'.live_iff _ _).mp hlive'
        have hmem := hperm.mem_iff.mp (mem_used.mpr ⟨d, hd, hdf, hdp⟩)
        simp only [List.mem_cons, List.mem_filter, ne_eq, decide_not, Bool.not_eq_true',
          decide_eq_false_iff_not, not_true_eq_false, and_false, or_false] at hmem
        exact hqp hmem.symm
      · exact fun r l' hr hlive' => hk.live hs (by simpa using hr) hlive'
  · rintro rfl
    rcases hcase with ⟨-, -, -, -, hlt, hroom⟩ | ⟨hq, -⟩
    · have hnull : (allot n bs).1 = 0 := by
        by_contra hne
        obtain ⟨d, hd, -, hdf, hdl⟩ := hs.rep.fits.allot_free hne
        exact hroom ⟨d, hd, hdf, hdl⟩
      obtain ⟨pre, post, hbs⟩ := List.append_of_mem hb
      rw [realloc_null hs.rep hbs hlt hnull] at hm
      cases hm
      exact ⟨rfl, rfl, rfl, hlive⟩
    · exact absurd rfl hq

theorem realloc_contents_at_one_mib :
    ∃ p l h q h', oneMib.malloc 24 = some (p, h) ∧
      Live h p l ∧ h.realloc p 100 = some (q, h') ∧
      (q ≠ 0 → ∀ i < min l 100, h'.mem (q + i) = h.mem (p + i)) := by
  have hs := @firstBlock_sound (fun _ => 0) 0xFFFF800000100000 0x100000000 (by decide) (by decide)
  have hroom : Room 24 (initialBlocks 0xFFFF800000100000 0x100000000) := by
    unfold Room
    decide
  obtain ⟨p, h, bs, hm, hk, hcase⟩ := malloc_cases hs 24
  rcases hcase with ⟨-, -, -, hno⟩ | ⟨-, -, -, ⟨c, hc, hcp, hcf, -⟩, -⟩
  · exact absurd hroom hno
  · have hlive := (hk.sound.rep.live_iff p c.len).mpr ⟨c, hc, hcf, hcp, rfl⟩
    obtain ⟨q, h', he, hq, -⟩ := realloc_contents initialise_at_one_mib (by decide)
      (Reachable.start.call (.malloc 24) hm) hlive (by decide : 0 < 100)
    exact ⟨p, c.len, h, q, h', hm, hlive, he, fun h0 => (hq h0).2.1⟩

end Terrakernel.Heap
