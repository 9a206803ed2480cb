import Terrakernel.Acpi.Mappings

/-!
# What `uacpi_kernel_map` maps

The number of pages comes from the length alone, so a range that starts inside a page may lose its
last one.
-/

namespace Terrakernel.Acpi

open Memory Mem Vmm

/-- Every byte of the range can be used under its own address. -/
def Covered (root : Nat) (m : Mem) (r : Range) : Prop :=
  ∀ a, r.addr.toNat ≤ a → a < r.addr.toNat + r.len.toNat → Identity root m a

/-- The pages that the first call mapped are those that the second one unmaps. -/
def Undone (root : Nat) (r : Range) (m mapped unmapped : Mem) : Prop :=
  ∀ p < numPages,
    (r.Has p → present (leafMap root mapped p) = true ∧ present (leafMap root unmapped p) = false) ∧
    (¬ r.Has p → leafMap root mapped p = leafMap root m p ∧
      leafMap root unmapped p = leafMap root m p)

section Low

variable {r : Range} (hlow : r.addr.toNat + r.len.toNat < 2 ^ 47)

include hlow

theorem Range.pages_eq : r.pages = (r.len.toNat + 0xFFF) / 0x1000 := by
  unfold pages
  rw [UInt64.toNat_div, UInt64.toNat_add, show (0xFFF : UInt64).toNat = 0xFFF from rfl,
    show (0x1000 : UInt64).toNat = 0x1000 from rfl]
  omega

theorem Range.address_eq {i : Nat} (hi : i ≤ r.pages) :
    r.address i = r.base + i * 0x1000 ∧ r.base + i * 0x1000 < 2 ^ 48 := by
  have hbase := pageOf_le r.addr.toNat
  have hpages := pages_eq hlow
  unfold address base word
  omega

theorem Range.page_of_address {a : Nat} (hbase : r.base ≤ a)
    (hi : (a - r.base) / 0x1000 ≤ r.pages) :
    pageOf a = r.address ((a - r.base) / 0x1000) ∧
      pageNumber a = r.page ((a - r.base) / 0x1000) := by
  obtain ⟨he, hlt⟩ := address_eq hlow hi
  have hmod : r.base % 0x1000 = 0 := pageOf_mod r.addr.toNat
  unfold page
  rw [he]
  unfold pageOf pageNumber numPages
  omega

theorem Range.page_inj {i j : Nat} (hi : i ≤ r.pages) (hj : j ≤ r.pages)
    (h : r.page i = r.page j) : i = j := by
  obtain ⟨hi, hlti⟩ := address_eq hlow hi
  obtain ⟨hj, hltj⟩ := address_eq hlow hj
  have hmod : r.base % 0x1000 = 0 := pageOf_mod r.addr.toNat
  unfold page pageNumber numPages at h
  rw [hi, hj] at h
  omega

end Low

section Call

variable {palloc : Palloc} {root : Nat} {m : Mem} (hs : Supplies root palloc)
  (hg : Good root m) {r : Range} (hlow : r.addr.toNat + r.len.toNat < 2 ^ 47)

include hs hg

theorem kernelMap_undone :
    Undone root r m (kernelMap palloc root m r).2
      (kernelUnmap root (kernelMap palloc root m r).2 r) := by
  obtain ⟨hgood, hmap⟩ := kernelMap_spec hg hs r
  obtain ⟨-, hunmap⟩ := kernelUnmap_spec hgood r
  intro p hp
  refine ⟨?_, ?_⟩
  · intro hhas
    rcases hmap p hp with ⟨hnone, -⟩ | ⟨i, -, -, he⟩
    · exact absurd hhas hnone
    · have ha := r.address_mod i
      rw [(hunmap p hp).1 hhas, he, present_iff]
      exact ⟨by omega, by decide⟩
  · intro hnone
    rcases hmap p hp with ⟨-, he⟩ | ⟨i, hi, hpage, -⟩
    · rw [(hunmap p hp).2 hnone]
      exact ⟨he, he⟩
    · exact absurd ⟨i, hi, hpage⟩ hnone

include hlow

theorem identity_of_page {a : Nat} (hbase : r.base ≤ a) (hi : (a - r.base) / 0x1000 < r.pages) :
    Identity root (kernelMap palloc root m r).2 a := by
  obtain ⟨hgood, hmap⟩ := kernelMap_spec hg hs r
  obtain ⟨hof, hnumber⟩ := Range.page_of_address hlow hbase (le_of_lt hi)
  apply identity_of_entry hgood
  · obtain ⟨he, hlt⟩ := Range.address_eq hlow (le_of_lt hi)
    unfold pageOf at hof
    omega
  · rcases hmap (pageNumber a) (pageNumber_lt a) with ⟨hnone, -⟩ | ⟨j, hj, hpage, he⟩
    · exact absurd ⟨_, hi, hnumber.symm⟩ hnone
    · rw [he, hof, Range.page_inj hlow (le_of_lt hj) (le_of_lt hi) (hpage.trans hnumber)]

theorem identity_behind {a : Nat} (hbase : r.base ≤ a) (hi : (a - r.base) / 0x1000 = r.pages) :
    Identity root (kernelMap palloc root m r).2 a ↔ Identity root m (r.address r.pages) := by
  obtain ⟨hgood, hmap⟩ := kernelMap_spec hg hs r
  obtain ⟨hof, hnumber⟩ := Range.page_of_address hlow hbase (le_of_eq hi)
  rw [hi] at hof hnumber
  have hkept : leafMap root (kernelMap palloc root m r).2 (r.page r.pages) =
      leafMap root m (r.page r.pages) := by
    rcases hmap (r.page r.pages) (r.page_lt r.pages) with ⟨-, he⟩ | ⟨j, hj, hpage, -⟩
    · exact he
    · exact absurd (Range.page_inj hlow (le_of_lt hj) (le_refl _) hpage) (by omega)
  rw [identity_iff hgood, identity_iff hg, r.pageOf_address, hof, hnumber, hkept]
  rfl

theorem kernelMap_covered_iff (hlen : 0 < r.len.toNat) :
    Covered root (kernelMap palloc root m r).2 r ↔
      r.addr.toNat % 0x1000 + r.len.toNat ≤ r.pages * 0x1000 ∨
        Identity root m (r.address r.pages) := by
  have hpages := Range.pages_eq hlow
  have hbase : r.base = r.addr.toNat / 0x1000 * 0x1000 := rfl
  constructor
  · intro hcov
    by_cases hfits : r.addr.toNat % 0x1000 + r.len.toNat ≤ r.pages * 0x1000
    · exact .inl hfits
    · -- The last byte of the range.
      have hlast := hcov (r.addr.toNat + r.len.toNat - 1) (by omega) (by omega)
      exact .inr ((identity_behind hs hg hlow (by omega) (by omega)).mp hlast)
  · intro h a ha hend
    by_cases hin : (a - r.base) / 0x1000 < r.pages
    · exact identity_of_page hs hg hlow (by omega) hin
    · have hi : (a - r.base) / 0x1000 = r.pages := by omega
      rcases h with hfits | hid
      · omega
      · exact (identity_behind hs hg hlow (by omega) hi).mpr hid

end Call

/-! ## The result -/

/-- The call covers what was asked for when the offset in the first page leaves the range in the
pages that its length needs, or when the page behind them was already mapped to itself. What it
has mapped is unmapped in any case. -/
theorem kernelMap_covers_iff {palloc : Palloc} {root : Nat} (hs : Supplies root palloc)
    {m : Mem} (hg : Good root m) (r : Range) (hlen : 0 < r.len.toNat)
    (hlow : r.addr.toNat + r.len.toNat < 2 ^ 47) :
    (let (ret, mapped) := kernelMap palloc root m r
     Covered root mapped r ∧
       Undone root r m mapped (kernelUnmap root mapped ⟨UInt64.ofNat ret, r.len⟩)) ↔
      r.addr.toNat % 0x1000 + r.len.toNat ≤ r.pages * 0x1000 ∨
        Identity root m (r.address r.pages) := by
  rw [← kernelMap_covered_iff hs hg hlow hlen]
  have hret : UInt64.ofNat (kernelMap palloc root m r).1 = r.addr := UInt64.ofNat_toNat
  simp only [hret]
  exact and_iff_left (kernelMap_undone hs hg)

theorem kernelMap_covers_table :
    ∃ palloc, Supplies (paToVa 0x1000) palloc ∧
      let (ret, mapped) := kernelMap palloc (paToVa 0x1000) (fun _ => 0) ⟨0xE0100, 36⟩
      Covered (paToVa 0x1000) mapped ⟨0xE0100, 36⟩ ∧
        Undone (paToVa 0x1000) ⟨0xE0100, 36⟩ (fun _ => 0) mapped
          (kernelUnmap (paToVa 0x1000) mapped ⟨UInt64.ofNat ret, 36⟩) := by
  obtain ⟨palloc, hs⟩ := exists_supplies (paToVa 0x1000)
  exact ⟨palloc, hs, (kernelMap_covers_iff hs good_empty ⟨0xE0100, 36⟩ (by decide)
    (by decide)).mpr (Or.inl (by decide))⟩

/-- Two bytes on two pages: the second one has no page. -/
theorem kernelMap_misses_byte :
    ∃ palloc, Supplies (paToVa 0x1000) palloc ∧
      ¬ Covered (paToVa 0x1000) (kernelMap palloc (paToVa 0x1000) (fun _ => 0) ⟨0x1FFF, 2⟩).2
        ⟨0x1FFF, 2⟩ := by
  obtain ⟨palloc, hs⟩ := exists_supplies (paToVa 0x1000)
  refine ⟨palloc, hs, ?_⟩
  rw [kernelMap_covered_iff hs good_empty (by decide) (by decide)]
  rintro (hfits | ⟨hmapped, -⟩)
  · exact absurd hfits (by decide)
  · rw [isMapped_eq] at hmapped
    exact absurd hmapped (by decide)

end Terrakernel.Acpi
