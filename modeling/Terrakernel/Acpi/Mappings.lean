import Terrakernel.Vmm.Hardware

/-!
# Mappings, as `acpi/kernel_api.cpp` makes them for uACPI

A range is mapped to itself. Nobody counts the ranges that use a page.
-/

namespace Terrakernel.Acpi

open Memory Mem Vmm
open List hiding Mem

structure Range where
  addr : UInt64
  len : UInt64
  deriving DecidableEq, Repr

namespace Range

-- `_addr`
def base (r : Range) : Nat := pageOf r.addr.toNat

def pages (r : Range) : Nat := ((r.len + 0xFFF) / 0x1000).toNat

/-- The address of page `i` of the range. -/
def address (r : Range) (i : Nat) : Nat := (r.base + i * 0x1000) % word

def page (r : Range) (i : Nat) : Nat := pageNumber (r.address i)

/-- The page is one of those that a call for the range is about. -/
def Has (r : Range) (p : Nat) : Prop := ∃ i < r.pages, r.page i = p

end Range

section Calls

variable (palloc : Palloc) (root : Nat)

def kernelMap (m : Mem) (r : Range) : Nat × Mem :=
  let (_, m) := mmap palloc root m r.base r.base r.pages (pagePresent ||| pageRw)
  (r.addr.toNat, m)

def kernelUnmap (m : Mem) (r : Range) : Mem := munmap root m r.base r.pages

end Calls

/-! ## Runs -/

inductive MapCall where
  | map (r : Range)
  | unmap (r : Range)
  deriving DecidableEq, Repr

def MapCall.exec (palloc : Palloc) (root : Nat) (m : Mem) : MapCall → Mem
  | map r => (kernelMap palloc root m r).2
  | unmap r => kernelUnmap root m r

/-- The ranges that are mapped and not yet unmapped. -/
def MapCall.live (live : List Range) : MapCall → List Range
  | map r => r :: live
  | unmap r => live.erase r

/-- Only ranges that are live are unmapped. -/
def Matching : List MapCall → List Range → Prop
  | [], _ => True
  | .map r :: calls, live => Matching calls (r :: live)
  | .unmap r :: calls, live => r ∈ live ∧ Matching calls (live.erase r)

/-- Every page of a live range is there, at its own address. -/
def Intact (root : Nat) (m : Mem) (live : List Range) : Prop :=
  ∀ r ∈ live, ∀ i < r.pages, isMapped root m (r.address i) = true ∧
    ∃ tr, translate root m (r.address i) = some tr ∧ tr.pa = r.address i

/-- The ranges are intact at every point of a run. -/
def AlwaysIntact (palloc : Palloc) (root : Nat) : List MapCall → List Range → Mem → Prop
  | [], live, m => Intact root m live
  | call :: calls, live, m =>
    Intact root m live ∧ AlwaysIntact palloc root calls (call.live live) (call.exec palloc root m)

/-- Nothing else shares a slot of the tables with a page: the addresses fit into an entry, and those
that differ only above bit 47 are not used together. -/
def Coherent (live : List Range) : Prop :=
  ∀ r ∈ live, ∀ i < r.pages, r.address i < 2 ^ 52 ∧
    ∀ s ∈ live, ∀ j < s.pages, s.page j = r.page i → s.address j = r.address i

def Shares (r s : Range) : Prop := ∃ i < r.pages, ∃ j < s.pages, r.page i = s.page j

/-- No range is unmapped while another one uses a page of it. -/
def Unshared : List MapCall → List Range → Prop
  | [], _ => True
  | .map r :: calls, live => Coherent (r :: live) ∧ Unshared calls (r :: live)
  | .unmap r :: calls, live => (∀ s ∈ live.erase r, ¬ Shares r s) ∧ Unshared calls (live.erase r)

/-! ## Entries -/

theorem Range.base_lt (r : Range) : r.base < word := (pageOf_le _).trans_lt r.addr.toNat_lt

theorem Range.page_lt (r : Range) (i : Nat) : r.page i < numPages := pageNumber_lt _

theorem Range.pageAt_base (r : Range) (i : Nat) : pageAt r.base i = r.page i :=
  (pageNumber_wrap _).symm

theorem Range.address_mod (r : Range) (i : Nat) : r.address i % 0x1000 = 0 := by
  have := pageOf_mod r.addr.toNat
  unfold address base
  simp only [word]
  omega

theorem Range.pageOf_address (r : Range) (i : Nat) : pageOf (r.address i) = r.address i := by
  have := r.address_mod i
  unfold pageOf
  omega

theorem leafEntry_rw {pa : Nat} (h : pa % 0x1000 = 0) :
    leafEntry pa (pagePresent ||| pageRw) = pa + 3 := by
  have hpage : pageOf pa = pa := by
    unfold pageOf
    omega
  rw [leafEntry, hpage, show (pagePresent ||| pageRw) &&& 0x8000000000000FFF = pagePresent ||| pageRw
    from rfl, ← Nat.or_assoc, new_entry h]

theorem frame_add_three {pa : Nat} (h : pa % 0x1000 = 0) : frame (pa + 3) 12 = pa % 2 ^ 52 := by
  unfold frame
  omega

/-- The byte is in a mapped page, at its own address. -/
def Identity (root : Nat) (m : Mem) (a : Nat) : Prop :=
  isMapped root m a = true ∧ ∃ tr, translate root m a = some tr ∧ tr.pa = a

/-- Every page of a live range has its own entry. -/
def Mapped (root : Nat) (m : Mem) (live : List Range) : Prop :=
  ∀ r ∈ live, ∀ i < r.pages, leafMap root m (r.page i) = r.address i + 3

section State

variable {root : Nat} {m : Mem} {live : List Range} (hg : Good root m)

include hg

theorem identity_iff (a : Nat) : Identity root m a ↔
    present (leafMap root m (pageNumber a)) = true ∧
      frame (leafMap root m (pageNumber a)) 12 = pageOf a := by
  unfold Identity pageOf
  rw [isMapped_eq]
  apply and_congr_right
  intro hpres
  obtain ⟨tr, htr, hpa⟩ := hg.translate_pa hpres
  rw [htr]
  simp only [Option.some.injEq, exists_eq_left', hpa]
  omega

theorem identity_of_entry {a : Nat} (hlow : a < 2 ^ 52)
    (h : leafMap root m (pageNumber a) = pageOf a + 3) : Identity root m a := by
  have ha := pageOf_mod a
  have hle := pageOf_le a
  apply (identity_iff hg a).mpr
  rw [h, frame_add_three ha, present_iff]
  omega

theorem Mapped.intact (hm : Mapped root m live) (hc : Coherent live) : Intact root m live := by
  intro r hr i hi
  apply identity_of_entry hg (hc r hr i hi).1
  rw [r.pageOf_address]
  exact hm r hr i hi

theorem Intact.frame_eq (hi : Intact root m live) {r : Range} (hr : r ∈ live) {i : Nat}
    (hp : i < r.pages) : present (leafMap root m (r.page i)) = true ∧
      frame (leafMap root m (r.page i)) 12 = r.address i := by
  have h := (identity_iff hg (r.address i)).mp (hi r hr i hp)
  rwa [r.pageOf_address] at h

theorem Intact.coherent (hi : Intact root m live) : Coherent live := by
  intro r hr i hp
  have hframe := (hi.frame_eq hg hr hp).2
  refine ⟨?_, ?_⟩
  · rw [← hframe, frame]
    omega
  · intro s hs j hq hpage
    rw [← (hi.frame_eq hg hs hq).2, hpage, hframe]

theorem kernelMap_spec {palloc : Palloc} (hs : Supplies root palloc) (r : Range) :
    Good root (kernelMap palloc root m r).2 ∧ ∀ p < numPages,
      (¬ r.Has p ∧ leafMap root (kernelMap palloc root m r).2 p = leafMap root m p) ∨
        ∃ i < r.pages, r.page i = p ∧
          leafMap root (kernelMap palloc root m r).2 p = r.address i + 3 := by
  obtain ⟨x, m', he, hgood, hmap, -⟩ := mmap_spec hs hg r.base_lt r.base_lt r.pages
    (pagePresent ||| pageRw)
  have hm' : (kernelMap palloc root m r).2 = m' := by
    unfold kernelMap
    rw [he]
  rw [hm']
  refine ⟨hgood, ?_⟩
  intro p hp
  rw [hmap p hp]
  rcases mapPages_cases (leafMap root m) r.base r.base (pagePresent ||| pageRw)
    (List.range r.pages) p with ⟨hnone, he⟩ | ⟨i, hi, hpage, he⟩
  · refine .inl ⟨?_, he⟩
    rintro ⟨i, hi, hpage⟩
    exact hnone i (mem_range.mpr hi) ((r.pageAt_base i).trans hpage)
  · refine .inr ⟨i, mem_range.mp hi, (r.pageAt_base i).symm.trans hpage, ?_⟩
    rw [he]
    exact leafEntry_rw (r.address_mod i)

theorem kernelUnmap_spec (r : Range) :
    Good root (kernelUnmap root m r) ∧ ∀ p < numPages,
      (r.Has p → leafMap root (kernelUnmap root m r) p = 0) ∧
        (¬ r.Has p → leafMap root (kernelUnmap root m r) p = leafMap root m p) := by
  refine ⟨(munmap_spec hg r.base_lt r.pages).1, ?_⟩
  intro p hp
  have hmem : p ∈ (List.range r.pages).map (pageAt r.base) ↔ r.Has p := by
    simp only [List.mem_map, mem_range, Range.pageAt_base, Range.Has]
  rw [kernelUnmap, munmap_leafMap hg r.base_lt r.pages hp, unmapPages_apply, ← hmem]
  exact ⟨fun h => if_pos h, fun h => if_neg h⟩

theorem Mapped.unmap (hm : Mapped root m live) (r : Range) :
    Good root (kernelUnmap root m r) ∧
      ((∀ s ∈ live.erase r, ¬ Shares r s) → Mapped root (kernelUnmap root m r) (live.erase r)) ∧
      (Intact root (kernelUnmap root m r) (live.erase r) → ∀ s ∈ live.erase r, ¬ Shares r s) := by
  obtain ⟨hgood, hleaf⟩ := kernelUnmap_spec hg r
  refine ⟨hgood, ?_, ?_⟩
  · intro hapart s hs j hj
    rw [(hleaf (s.page j) (s.page_lt j)).2]
    · exact hm s (mem_of_mem_erase hs) j hj
    · rintro ⟨i, hi, hpage⟩
      exact hapart s hs ⟨i, hi, j, hj, hpage⟩
  · rintro hint s hs ⟨i, hi, j, hj, hpage⟩
    have hpres := (hint.frame_eq hgood hs hj).1
    rw [(hleaf (s.page j) (s.page_lt j)).1 ⟨i, hi, hpage⟩] at hpres
    exact absurd hpres (by decide)

theorem Mapped.map {palloc : Palloc} (hs : Supplies root palloc)
    (hm : Mapped root m live) (r : Range) :
    Good root (kernelMap palloc root m r).2 ∧
      (Coherent (r :: live) → Mapped root (kernelMap palloc root m r).2 (r :: live)) := by
  obtain ⟨hgood, hleaf⟩ := kernelMap_spec hg hs r
  refine ⟨hgood, ?_⟩
  intro hc s hs j hj
  rcases hleaf (s.page j) (s.page_lt j) with ⟨hnone, he⟩ | ⟨i, hi, hpage, he⟩
  · rw [he]
    rcases mem_cons.mp hs with rfl | hs
    · exact absurd ⟨j, hj, rfl⟩ hnone
    · exact hm s hs j hj
  · rw [he, (hc s hs j hj).2 r mem_cons_self i hi hpage]

end State

/-! ## The result -/

theorem AlwaysIntact.now {palloc : Palloc} {root : Nat} {calls : List MapCall}
    {live : List Range} {m : Mem} (h : AlwaysIntact palloc root calls live m) :
    Intact root m live := by
  cases calls with
  | nil => exact h
  | cons call calls => exact h.1

theorem alwaysIntact_iff_unshared_from {palloc : Palloc} {root : Nat}
    (hs : Supplies root palloc) {calls : List MapCall} {live : List Range} {m : Mem}
    (hg : Good root m) (hm : Mapped root m live) (hc : Coherent live)
    (hcalls : Matching calls live) :
    AlwaysIntact palloc root calls live m ↔ Unshared calls live := by
  induction calls generalizing live m with
  | nil => exact iff_of_true (hm.intact hg hc) trivial
  | cons call calls ih =>
    rw [AlwaysIntact, and_iff_right (hm.intact hg hc)]
    cases call with
    | map r =>
      obtain ⟨hgood, hmapped⟩ := hm.map hg hs r
      constructor
      · intro h
        -- What is intact after the call is coherent, whatever the call did.
        have hcoherent : Coherent (r :: live) := h.now.coherent hgood
        exact ⟨hcoherent, (ih hgood (hmapped hcoherent) hcoherent hcalls).mp h⟩
      · rintro ⟨hcoherent, h⟩
        exact (ih hgood (hmapped hcoherent) hcoherent hcalls).mpr h
    | unmap r =>
      obtain ⟨hgood, hmapped, hshared⟩ := hm.unmap hg r
      have hcoherent : Coherent (live.erase r) := fun s hs i hi =>
        ⟨(hc s (mem_of_mem_erase hs) i hi).1, fun t ht =>
          (hc s (mem_of_mem_erase hs) i hi).2 t (mem_of_mem_erase ht)⟩
      constructor
      · intro h
        have hapart : ∀ s ∈ live.erase r, ¬ Shares r s := hshared h.now
        exact ⟨hapart, (ih hgood (hmapped hapart) hcoherent hcalls.2).mp h⟩
      · rintro ⟨hapart, h⟩
        exact (ih hgood (hmapped hapart) hcoherent hcalls.2).mpr h

/-- Mappings stay in place in just the runs that never unmap a page still in use. -/
theorem alwaysIntact_iff_unshared {palloc : Palloc} {root : Nat}
    (hs : Supplies root palloc) {m : Mem} (hg : Good root m) (calls : List MapCall)
    (hcalls : Matching calls []) :
    AlwaysIntact palloc root calls [] m ↔ Unshared calls [] :=
  alwaysIntact_iff_unshared_from hs hg (fun _ hr => absurd hr not_mem_nil)
    (fun _ hr => absurd hr not_mem_nil) hcalls

theorem coherent_of_low {live : List Range}
    (h : ∀ r ∈ live, ∀ i < r.pages, r.address i < 2 ^ 48) : Coherent live := by
  intro r hr i hi
  have hlow := h r hr i hi
  refine ⟨hlow.trans (by decide), ?_⟩
  intro s hs j hj hpage
  have hlow' := h s hs j hj
  have ha := r.address_mod i
  have ha' := s.address_mod j
  simp only [Range.page, pageNumber, numPages] at hpage
  omega

theorem alwaysIntact_iff_unshared_tables :
    ∃ palloc, Supplies (paToVa 0x1000) palloc ∧
      AlwaysIntact palloc (paToVa 0x1000)
        [.map ⟨0xE0000, 36⟩, .map ⟨0xE1000, 36⟩, .unmap ⟨0xE0000, 36⟩] [] fun _ => 0 := by
  obtain ⟨palloc, hs⟩ := exists_supplies (paToVa 0x1000)
  refine ⟨palloc, hs, (alwaysIntact_iff_unshared hs good_empty _ ?_).mpr ?_⟩
  · exact ⟨by decide, trivial⟩
  · refine ⟨coherent_of_low ?_, coherent_of_low ?_, ?_, trivial⟩
    · decide
    · decide
    · unfold Shares
      decide

/-- Two tables on one page: the second one is still mapped, but its page is not there. -/
theorem shared_page_unmapped :
    ∃ palloc, Supplies (paToVa 0x1000) palloc ∧
      Matching [.map ⟨0xE0000, 36⟩, .map ⟨0xE0100, 36⟩, .unmap ⟨0xE0000, 36⟩] [] ∧
      ¬ AlwaysIntact palloc (paToVa 0x1000)
        [.map ⟨0xE0000, 36⟩, .map ⟨0xE0100, 36⟩, .unmap ⟨0xE0000, 36⟩] [] fun _ => 0 := by
  obtain ⟨palloc, hs⟩ := exists_supplies (paToVa 0x1000)
  have hcalls : Matching [.map ⟨0xE0000, 36⟩, .map ⟨0xE0100, 36⟩, .unmap ⟨0xE0000, 36⟩] [] :=
    ⟨by decide, trivial⟩
  refine ⟨palloc, hs, hcalls, ?_⟩
  rw [alwaysIntact_iff_unshared_from hs good_empty (fun _ hr => absurd hr not_mem_nil)
    (fun _ hr => absurd hr not_mem_nil) hcalls]
  rintro ⟨-, -, happart, -⟩
  exact happart ⟨0xE0100, 36⟩ (by decide) ⟨0, by decide, 0, by decide, by decide⟩

end Terrakernel.Acpi
