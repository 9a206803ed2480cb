import Terrakernel.Vmm.Hardware

/-!
# The rights of a mapped page

`ensure_table_exists` makes entries without the bit for user mode.
-/

namespace Terrakernel.Vmm

open Memory Mem Paths
open List hiding Mem

/-- The present entries above the leaf tables are as `ensure_table_exists` makes them. -/
def MadeByMmap (root : Nat) (m : Mem) : Prop :=
  ∀ p t (i : Fin 512), p.length < 3 → tableAt root m p = some t →
    present (getEntry m t i) = true → ∃ page, page % 0x1000 = 0 ∧ getEntry m t i = page + 3

theorem MadeByMmap.grows {root : Nat} {own supplied : Nat → Prop}
    {changed : Route → Prop} {m m' : Mem} (h : MadeByMmap root m)
    (hx : Grows present own supplied root changed m m') : MadeByMmap root m' := by
  intro p t i hp ht hpres
  rcases hx.made p t i hp ht hpres with ⟨ht', he⟩ | ⟨page, -, ha, he⟩
  · rw [he] at hpres ⊢
    exact h p t i hp ht' hpres
  · exact ⟨page, ha, he⟩

/-- The processor gives page `v` the rights in `attributes`. -/
def Granted (root : Nat) (m : Mem) (v attributes : Nat) : Prop :=
  ∀ a, pageNumber a = v → ∃ tr, translate root m a = some tr ∧ tr.user = user attributes ∧
    tr.writable = writable attributes

theorem MadeByMmap.translate_eq {root : Nat} {m : Mem} (h : MadeByMmap root m) (hg : Good root m)
    {a pt pa attributes : Nat} (hattr : present attributes = true)
    (ht : tableBy present root m (pathTo (pageNumber a)) = some pt)
    (hleaf : getEntry m pt (index (pageNumber a)) = leafEntry pa attributes) :
    ∃ pa', translate root m a = some ⟨pa', false, writable attributes⟩ := by
  have hpres : present (getEntry m pt (index (pageNumber a))) = true := by
    rw [hleaf, present_eq, testBit_leafEntry pa attributes (by decide), ← present_eq, hattr]
  obtain ⟨es, hlen, hall, htr⟩ := hg.translate_eq ht hpres
  have hnew : ∀ e ∈ es, user e = false ∧ writable e = true := by
    intro e he
    obtain ⟨hp, q, t, j, hq, hqt, hentry⟩ := hall e he
    have hlen := length_lt_of_snoc hq
    rw [hentry] at hp ⊢
    obtain ⟨page, ha, hpage⟩ := h q t j hlen hqt hp
    obtain ⟨-, hw, hu, -⟩ := new_entry_bits ha
    rw [hpage]
    exact ⟨hu, hw⟩
  -- The first of the three upper entries already forbids user mode.
  obtain ⟨e, rest, rfl⟩ := exists_cons_of_length_pos (by omega : 0 < es.length)
  have huser : (e :: rest ++ [leafEntry pa attributes]).all user = false := by
    rw [cons_append, all_cons, (hnew e mem_cons_self).1, Bool.false_and]
  have hwrite : (e :: rest ++ [leafEntry pa attributes]).all writable = writable attributes := by
    rw [all_append, List.all_eq_true.mpr fun e he => (hnew e he).2, all_cons,
      all_nil, Bool.and_true, Bool.true_and, writable_eq,
      testBit_leafEntry pa attributes (by decide), ← writable_eq]
  refine ⟨frame (leafEntry pa attributes) 12 + a % 2 ^ 12, ?_⟩
  rw [htr, hleaf, access, getLast?_concat, length_append, hlen, huser, hwrite]
  rfl

theorem mmap_rights {root : Nat} {palloc : Palloc} (hs : Supplies root palloc) {m : Mem}
    (hg : Good root m) (hmade : MadeByMmap root m) (pa va npages attributes : UInt64)
    (hattr : present attributes.toNat = true) {i : Nat} (hi : i < npages.toNat) {a : Nat}
    (ha : pageNumber a = pageAt va.toNat i) :
    ∃ pa', translate root (Call.exec palloc root m (.mmap pa va npages attributes)) a =
      some ⟨pa', false, writable attributes.toNat⟩ := by
  obtain ⟨r, m', he, hx, hleaf⟩ := mmap_grows leads_present hg.hierarchy (hs.supplying hg)
    pa.toNat_lt va.toNat_lt npages.toNat attributes.toNat fun i _ => clear_present root m _
  obtain ⟨pt, pa', ht, hentry⟩ := hleaf i hi
  rw [← ha] at ht hentry
  simp only [Call.exec, he]
  exact (hmade.grows hx).translate_eq (hg.grows hx) hattr ht hentry

theorem mmap_granted_iff {root : Nat} {palloc : Palloc} (hs : Supplies root palloc)
    {m : Mem} (hg : Good root m) (hmade : MadeByMmap root m) (pa va npages attributes : UInt64)
    (hattr : present attributes.toNat = true) :
    (∀ i < npages.toNat, Granted root (Call.exec palloc root m (.mmap pa va npages attributes))
        (pageAt va.toNat i) attributes.toNat) ↔
      npages = 0 ∨ user attributes.toNat = false := by
  constructor
  · intro h
    by_cases hn : npages = 0
    · exact .inl hn
    · right
      have hpos : 0 < npages.toNat := by
        rw [Nat.pos_iff_ne_zero]
        exact fun h0 => hn (UInt64.toNat_inj.mp h0)
      obtain ⟨pa', htr⟩ := mmap_rights hs hg hmade pa va npages attributes hattr hpos
        (a := va.toNat + 0 * 0x1000) rfl
      obtain ⟨tr, htr', hu, -⟩ := h 0 hpos _ rfl
      rw [htr] at htr'
      rw [← hu, ← Option.some.inj htr']
  · rintro (rfl | hu) i hi a ha
    · exact absurd hi (by simp)
    · obtain ⟨pa', htr⟩ := mmap_rights hs hg hmade pa va npages attributes hattr hi ha
      exact ⟨_, htr, hu.symm, rfl⟩

theorem madeByMmap_empty (root : Nat) : MadeByMmap root fun _ => 0 := by
  intro p t i _ _ hpres
  rw [absent_empty] at hpres
  exact absurd hpres (by simp)

theorem mmap_granted_iff_kernelPage :
    ∃ palloc, Supplies (paToVa 0x1000) palloc ∧
      ∀ i < 1, Granted (paToVa 0x1000)
        (Call.exec palloc (paToVa 0x1000) (fun _ => 0) (.mmap 0x200000 0x400000 1 3))
        (pageAt 0x400000 i) 3 := by
  obtain ⟨palloc, hs⟩ := exists_supplies (paToVa 0x1000)
  refine ⟨palloc, hs, ?_⟩
  exact (mmap_granted_iff hs good_empty (madeByMmap_empty _) 0x200000 0x400000 1 3
    (by decide)).mpr (Or.inr (by decide))

/-- A page for user mode that user mode cannot reach. -/
theorem userPage_not_granted :
    ∃ palloc, Supplies (paToVa 0x1000) palloc ∧
      ¬ Granted (paToVa 0x1000)
        (Call.exec palloc (paToVa 0x1000) (fun _ => 0) (.mmap 0x200000 0x400000 1 7))
        (pageAt 0x400000 0) 7 := by
  obtain ⟨palloc, hs⟩ := exists_supplies (paToVa 0x1000)
  refine ⟨palloc, hs, ?_⟩
  intro h
  obtain ⟨pa', htr⟩ := mmap_rights hs good_empty (madeByMmap_empty _) 0x200000 0x400000 1 7
    (by decide) (i := 0) (by decide) (a := 0x400000) rfl
  obtain ⟨tr, htr', hu, -⟩ := h 0x400000 rfl
  rw [htr] at htr'
  rw [← Option.some.inj htr', show user 7 = true from rfl] at hu
  exact Bool.false_ne_true hu

end Terrakernel.Vmm
