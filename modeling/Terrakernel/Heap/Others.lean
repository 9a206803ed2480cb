import Terrakernel.Heap.Used

/-!
# The heap in the hands of others

As long as others name none of a caller's blocks, these keep their place and their bytes.
-/

namespace Terrakernel.Heap

open Memory Coalesce

/-- The block that a call names. -/
def Call.target : Call → List Nat
  | .realloc ptr _ => [ptr]
  | .free ptr => [ptr]
  | _ => []

/-- Others call the heap and store to their blocks, but not to those of `mine`. -/
inductive Others (mine : List Nat) : Heap → Heap → Prop
  | refl {h : Heap} : Others mine h h
  | call {h h1 h2 : Heap} {c : Call} {r : Nat} (hrest : Others mine h h1)
      (hmine : ∀ p ∈ c.target, p ∉ mine) (hexec : c.exec h1 = some (r, h2)) : Others mine h h2
  | store {h h1 : Heap} {p n j : Nat} (v : Byte) (hrest : Others mine h h1) (hmine : p ∉ mine)
      (hblock : HasBlock h1 p n) (hj : j < n) :
      Others mine h { h1 with mem := Function.update h1.mem (p + j) v }

/-! ## One call -/

theorem Fits.mem_reallot {lo hi ptr n : Nat} {bs : List Blk} {b : Blk} (hf : Fits lo bs hi)
    (hb : b ∈ bs) (hu : b.free = false) (hne : b.ptr ≠ ptr) : b ∈ (reallot ptr n bs).2 := by
  have hallot := hf.mem_allot (n := n) hb (Or.inl hu)
  unfold reallot
  by_cases h0 : ptr = 0
  · rw [if_pos h0]
    exact hallot
  rw [if_neg h0]
  by_cases hn : n = 0
  · rw [if_pos hn]
    exact mem_freed hb hu hne
  rw [if_neg hn]
  split
  · exact hb
  · split_ifs
    · exact List.mem_map.mpr ⟨b, hb, by rw [resize, if_neg hne]⟩
    · exact hb
    · exact mem_freed hallot hu hne

theorem exec_keeps {h : Heap} {bs : List Blk} (hs : Sound h bs) (c : Call) :
    ∃ h', c.exec h = some ((c.onBlocks bs).1, h') ∧
      Keeps c.target h bs h' (c.onBlocks bs).2 := by
  have hfits := hs.rep.fits
  obtain ⟨h', hexec, hs', -⟩ := exec_spec hs c
  refine ⟨h', hexec, ?_⟩
  have hsame : ∀ (q : Nat) (h1 : Heap), c.exec h = some (q, h1) → h1 = h' := by
    intro q h1 he
    simpa using congrArg (Option.map Prod.snd) (he.symm.trans hexec)
  cases c with
  | malloc n =>
    obtain ⟨h1, he, hy⟩ := malloc_spec hs.rep n
    obtain rfl : h1 = h' := hsame _ _ he
    exact hy.keeps_of hs'.normal fun b hb hu _ => hfits.mem_allot hb (Or.inl hu)
  | calloc n size =>
    obtain ⟨h1, he, hy, -⟩ := calloc_spec hs.rep n size
    obtain rfl : h1 = h' := hsame _ _ he
    exact hy.keeps_of hs'.normal fun b hb hu _ => hfits.mem_allot hb (Or.inl hu)
  | realloc ptr n =>
    obtain ⟨h1, he, hy⟩ := realloc_spec hs.rep hs.normal ptr n
    obtain rfl : h1 = h' := hsame _ _ he
    refine hy.keeps_of hs'.normal fun b hb hu hne => hfits.mem_reallot hb hu ?_
    simpa [Call.target] using hne
  | free ptr =>
    obtain ⟨h1, he, hk, -⟩ := free_keeps hs ptr
    obtain rfl : h1 = h' := hsame 0 h1 (by rw [Call.exec, he]; rfl)
    exact hk
  | defragment =>
    obtain ⟨l, he, -⟩ := defragment_spec hs
    obtain rfl : { h with log := h.log ++ l } = h' := hsame 0 _ (by rw [Call.exec, he]; rfl)
    refine ⟨hs', rfl, ?_, fun b hb _ _ => hb, fun _ _ _ _ _ _ _ => rfl⟩
    unfold failures
    rw [List.countP_append]
    exact Nat.le_add_right _ _

/-! ## Any number of them -/

theorem Others.keeps {mine : List Nat} {h h' : Heap} {bs : List Blk} (hs : Sound h bs)
    (ho : Others mine h h') :
    ∃ bs', Sound h' bs' ∧ h'.heapBase = h.heapBase ∧
      ∀ b ∈ bs, b.free = false → b.ptr ∈ mine →
        b ∈ bs' ∧ ∀ x, b.ptr ≤ x → x < b.fin → h'.mem x = h.mem x := by
  induction ho with
  | refl => exact ⟨bs, hs, rfl, fun b hb _ _ => ⟨hb, fun _ _ _ => rfl⟩⟩
  | @call h1 h2 c r hrest hmine hexec ih =>
    obtain ⟨bs1, hs1, hbase, hkept⟩ := ih
    obtain ⟨h3, he, hk⟩ := exec_keeps hs1 c
    obtain rfl : h3 = h2 := by simpa using (congrArg (Option.map Prod.snd) (he.symm.trans hexec))
    refine ⟨_, hk.sound, hk.heapBase.trans hbase, fun b hb hu hm => ?_⟩
    obtain ⟨hb1, hbytes⟩ := hkept b hb hu hm
    have hnot : b.ptr ∉ c.target := fun ht => hmine _ ht hm
    refine ⟨hk.blocks b hb1 hu hnot, fun x hlo hhi => ?_⟩
    rw [hk.bytes b hb1 hu hnot x hlo hhi, hbytes x hlo hhi]
  | @store h1 p n j v hrest hmine hblock hj ih =>
    obtain ⟨bs1, hs1, hbase, hkept⟩ := ih
    obtain ⟨c, hc, -, hptr, hlen⟩ := (hs1.rep.hasBlock_iff p n).mp hblock
    have hout : ∀ x, x < c.ptr ∨ c.fin ≤ x → Function.update h1.mem (p + j) v x = h1.mem x := by
      intro x hx
      rw [Function.update_of_ne]
      simp only [← hptr, Blk.ptr, Blk.fin] at *
      omega
    -- The store is put down as a step that spares all blocks but `c`.
    have hput := (Keeps.refl hs1).weaken (List.nil_subset [c.ptr]) |>.put hc hout
      fun b _ _ hne => by simpa using hne
    refine ⟨bs1, hput.sound, hbase, fun b hb hu hm => ?_⟩
    obtain ⟨hb1, hbytes⟩ := hkept b hb hu hm
    have hnot : b.ptr ∉ [c.ptr] := by
      rw [List.mem_singleton, hptr]
      rintro rfl
      exact hmine hm
    refine ⟨hb1, fun x hlo hhi => ?_⟩
    rw [← hbytes x hlo hhi]
    exact hput.bytes b hb1 hu hnot x hlo hhi

end Terrakernel.Heap
