import Terrakernel.Elf.Code

/-!
# The pages of a program

For each page of a segment the code unmaps that page and maps the one at 0x400000.
-/

namespace Terrakernel.Elf

open Memory Mem Vmm Paths Function Option
open List hiding Mem lookup

/-- The number of the page at 0x400000. -/
def homePage : Nat := 0x400

/-- Its leaf entry. -/
def homeEntry : Nat := 0x400007

/-- The physical page behind it, in the direct map. -/
def homeFrame : Nat := directBase + 0x400000

/-- The bytes of the file, and of that physical page. -/
def Private (base size x : Nat) : Prop :=
  base ≤ x ∧ x < base + size ∨ homeFrame ≤ x ∧ x < homeFrame + 0x1000

def Public (base size x : Nat) : Prop := ¬ Private base size x

def PublicPage (base size t : Nat) : Prop := ∀ x, t ≤ x → x < t + 0x1000 → Public base size x

/-- The entries above the leaf of that page allow writes. -/
def Open (root : Nat) (m : Mem) : Prop :=
  ∀ q t (j : Fin 512), q ++ [j] <+: pathTo homePage → tableAt root m q = some t →
    present (getEntry m t j) = true → writable (getEntry m t j) = true

/-- The allocator has pages, and neither these pages nor its own memory are private. -/
structure Spares (palloc : Palloc) (root base size : Nat) : Prop where
  supplies : Supplies root palloc
  keeps : ∀ m x, Private base size x → (palloc m).2 x = m x
  pages : ∀ m x, Private base size x →
    ¬ (paToVa (palloc m).1 ≤ x ∧ x < paToVa (palloc m).1 + 0x1000)

/-- No table is in the file, nor in the physical page. -/
structure Steady (root base size : Nat) (m : Mem) : Prop where
  good : Good root m
  tables : ∀ x, Private base size x → ¬ InTable present root m x
  writes : Open root m

section Pages

variable {palloc : Palloc} {root base size : Nat} (hp : Spares palloc root base size)
  {m m' : Mem}

theorem Steady.grows {changed : Route → Prop} (h : Steady root base size m)
    (hx : Grows present (Public base size) (PublicPage base size) root changed m m') :
    Steady root base size m' ∧ ∀ x, Private base size x → m' x = m x := by
  refine ⟨⟨h.good.grows hx, ?_, ?_⟩, ?_⟩
  · rintro x hpriv ⟨p, t, hlen, ht, hlo, hhi⟩
    rcases hx.fresh p t hlen ht with hold | ⟨-, hnew⟩
    · exact h.tables x hpriv ⟨p, t, hlen, hold, hlo, hhi⟩
    · exact hnew x hlo hhi hpriv
  · intro q t j hpre ht hpres
    have hlen := length_lt_of_snoc hpre
    rcases hx.made q t j hlen ht hpres with ⟨hold, he⟩ | ⟨page, -, ha, he⟩
    · rw [he] at hpres ⊢
      exact h.writes q t j hpre hold hpres
    · rw [he]
      exact (new_entry_bits ha).2.1
  · intro x hpriv
    by_contra hne
    rcases hx.bytes x hne with hown | htab | ⟨t, hsup, hlo, hhi⟩
    · exact hown hpriv
    · exact h.tables x hpriv htab
    · exact hsup x hlo hhi hpriv

theorem Steady.sameBy (h : Steady root base size m) (hby : SameBy present root m m') :
    Steady root base size m' := by
  have hx : Grows present (fun _ => True) (fun _ => True) root (fun _ => False) m m' :=
    hby.grows h.good.hierarchy fun _ _ => trivial
  refine ⟨h.good.grows hx, ?_, ?_⟩
  · intro y hy hin
    exact h.tables y hy (hby.inTable hin)
  · intro q t j hpre ht hpres
    have hlen := length_lt_of_snoc hpre
    have hq : q.length ≤ 3 := Nat.le_of_lt hlen
    replace ht : tableAt root m q = some t := (hby.tableBy_eq hq).symm.trans ht
    rw [hby.getEntry_eq hq ht] at hpres ⊢
    exact h.writes q t j hpre ht hpres

include hp

theorem Spares.supplying (hg : Good root m) :
    Supplying present (Public base size) (PublicPage base size) root palloc m := by
  intro changed m' hx
  obtain ⟨-, hlt, ha, hfresh, hsame⟩ := hp.supplies m' (hg.grows hx)
  refine ⟨hlt, ha, hfresh, ?_, ?_, ?_⟩
  · rintro x ⟨p, t, hlen, ht, h1, h2⟩
    exact hsame p t hlen ht x h1 h2
  · exact fun x hne hpriv => hne (hp.keeps m' x hpriv)
  · exact fun x h1 h2 hpriv => hp.pages m' x hpriv ⟨h1, h2⟩

/-! ## One call -/

/-- Private bytes stay, and so do the entries and the translations but those of page `v`. -/
structure Sets (root base size : Nat) (m m' : Mem) (v entry : Nat) : Prop where
  steady : Steady root base size m'
  bytes : ∀ x, Private base size x → m' x = m x
  leaf : ∀ w < numPages, leafMap root m' w = update (leafMap root m) v entry w
  others : ∀ va, pageNumber va ≠ v → translate root m' va = translate root m va

omit hp in
theorem Steady.translate_grows {v : Nat} (hv : v < numPages) (h : Steady root base size m)
    (hx : Grows present (Public base size) (PublicPage base size) root (· = slot v) m m') {va : Nat}
    (hne : pageNumber va ≠ v) : translate root m' va = translate root m va := by
  rw [Vmm.translate, Vmm.translate, (h.grows hx).1.good.walk_eq, h.good.walk_eq, hx.walks _ rfl]
  exact fun heq => hne ((slot_inj (pageNumber_lt va) hv).mp heq)

theorem mmap_sets (h : Steady root base size m) {pa va : Nat} (hpa : pa < word) (hva : va < word) :
    Sets root base size m (mmap palloc root m pa va 1 attributes).2 (pageNumber va)
      (leafEntry pa attributes) := by
  obtain ⟨r, m1, he, hx, -⟩ := mmap_grows leads_present h.good.hierarchy (hp.supplying h.good) hpa
    hva 1 attributes fun i _ => clear_present root m _
  obtain ⟨r', m2, he', -, hmap, -⟩ := mmap_spec hp.supplies h.good hpa hva 1 attributes
  rw [he, Prod.mk.injEq] at he'
  rw [he]
  obtain ⟨hs, hbytes⟩ := h.grows hx
  refine ⟨hs, hbytes, ?_, fun a => h.translate_grows (pageNumber_lt va) (hx.weaken ?_)⟩
  swap
  · rintro s ⟨i, hi, rfl⟩
    rw [Nat.lt_one_iff.mp hi, pageAt, Nat.zero_mul, Nat.add_zero]
  intro w hw
  have hone : mapPages (leafMap root m) pa va attributes (List.range 1) w =
      update (leafMap root m) (pageNumber va) (leafEntry pa attributes) w := by
    simp only [mapPages, range_one, foldl_cons, foldl_nil, pageAt, Nat.zero_mul,
      Nat.add_zero, Nat.mod_eq_of_lt hpa]
  rw [he'.2, hmap w hw, hone]

omit hp in
theorem munmap_sets (h : Steady root base size m) {va : Nat} (hva : va < word) :
    Sets root base size m (munmap root m va 1) (pageNumber va) 0 := by
  have hx : Grows present (Public base size) (PublicPage base size) root (· = slot (pageNumber va)) m
      (munmap root m va 1) := by
    rw [munmap, munmapLoop, munmapLoop, munmapPage, findPt_eq]
    cases ht : tableAt root m (pathTo (pageNumber va)) with
    | none => exact (Grows.refl h.good.hierarchy).weaken fun _ hs => hs.elim
    | some pt =>
      simp only [getPtIndex_eq]
      exact setLeaf_grows h.good.hierarchy (pathTo_length _) ht (index (pageNumber va)) 0
  obtain ⟨hs, hbytes⟩ := h.grows hx
  refine ⟨hs, hbytes, ?_, fun a => h.translate_grows (pageNumber_lt va) hx⟩
  intro w hw
  rw [munmap_leafMap h.good hva 1 hw, unmapPages_apply, update_apply]
  simp only [range_one, map_cons, map_nil, mem_singleton, pageAt, Nat.zero_mul,
    Nat.add_zero]

theorem palloc_steady (h : Steady root base size m) :
    Steady root base size (palloc m).2 ∧ (∀ w, leafMap root (palloc m).2 w = leafMap root m w) ∧
      ∀ va, translate root (palloc m).2 va = translate root m va := by
  obtain ⟨-, -, -, -, hsame⟩ := hp.supplies m h.good
  have hby : SameBy present root m (palloc m).2 := by
    rintro x ⟨p, t, hlen, ht, h1, h2⟩
    exact hsame p t hlen ht x h1 h2
  exact ⟨h.sameBy hby, hby.leafMap_eq, SameBy.translate_eq fun x hx => hby x hx.of_plain⟩

/-! ## One round -/

omit hp in
theorem pageNumber_direct {pa : Nat} (h : pa < 2 ^ 47) : 2 ^ 35 ≤ pageNumber (paToVa pa) := by
  rw [paToVa_low h]
  simp only [pageNumber, numPages, directBase]
  omega

theorem mapRound_spec (h : Steady root base size m) {pageAddr : Nat} (ha : pageAddr < word) :
    Steady root base size (mapRound palloc root m pageAddr) ∧
      (∀ x, Private base size x → mapRound palloc root m pageAddr x = m x) ∧
      leafMap root (mapRound palloc root m pageAddr) homePage = homeEntry ∧
      (∀ v < 2 ^ 35, v ≠ homePage → leafMap root (mapRound palloc root m pageAddr) v =
        update (leafMap root m) (pageNumber pageAddr) 0 v) ∧
      ∀ va < 2 ^ 47, pageNumber va ≠ homePage → pageNumber va ≠ pageNumber pageAddr →
        translate root (mapRound palloc root m pageAddr) va = translate root m va := by
  unfold mapRound vallocPage
  dsimp only
  have h1 := munmap_sets h ha
  obtain ⟨h2, hleaf2, htr2⟩ := palloc_steady hp h1.steady
  obtain ⟨-, hlow, -, -, -⟩ := hp.supplies _ h1.steady.good
  have hpage := pageNumber_direct hlow
  have hword : paToVa (palloc (munmap root m pageAddr 1)).1 < word := by
    rw [paToVa_low hlow]
    simp only [directBase, word]
    omega
  have h3 := mmap_sets hp h2 hword hword
  have h4 := mmap_sets hp h3.steady ha hword
  have h5 := mmap_sets hp h4.steady (show 0x400000 < word by decide) (show 0x400000 < word by decide)
  have hhome : pageNumber 0x400000 = homePage := by decide
  rw [hhome] at h5
  refine ⟨h5.steady, ?_, ?_, ?_, ?_⟩
  · intro x hx
    rw [h5.bytes x hx, h4.bytes x hx, h3.bytes x hx, hp.keeps _ x hx, h1.bytes x hx]
  · rw [h5.leaf _ (by decide), update_self]
    decide
  · intro v hv hne
    have hw : v < numPages := by
      simp only [numPages]
      omega
    rw [h5.leaf v hw, update_of_ne hne, h4.leaf v hw, update_of_ne (by omega),
      h3.leaf v hw, update_of_ne (by omega), hleaf2, h1.leaf v hw]
  · intro va hva hne hother
    have hlow : pageNumber va < 2 ^ 35 := by
      simp only [pageNumber, numPages]
      omega
    rw [h5.others va hne, h4.others va (by omega), h3.others va (by omega), htr2,
      h1.others va hother]

theorem mapRounds_spec (h : Steady root base size m) {mapStart n : Nat}
    (hstart : mapStart % 0x1000 = 0) (hend : mapStart + n * 0x1000 ≤ 2 ^ 47) :
    Steady root base size (mapRounds palloc root mapStart n m) ∧
      (∀ x, Private base size x → mapRounds palloc root mapStart n m x = m x) ∧
      (0 < n ∨ leafMap root m homePage = homeEntry →
        leafMap root (mapRounds palloc root mapStart n m) homePage = homeEntry) ∧
      (∀ v, mapStart / 0x1000 ≤ v → v < mapStart / 0x1000 + n → v ≠ homePage →
        leafMap root (mapRounds palloc root mapStart n m) v = 0) ∧
      ∀ va < 2 ^ 47, pageNumber va ≠ homePage →
        ¬ (mapStart / 0x1000 ≤ pageNumber va ∧ pageNumber va < mapStart / 0x1000 + n) →
        translate root (mapRounds palloc root mapStart n m) va = translate root m va := by
  induction n with
  | zero =>
    refine ⟨h, fun _ _ => rfl, fun h0 => h0.resolve_left (lt_irrefl 0), ?_, fun _ _ _ _ => rfl⟩
    intro v h1 h2
    omega
  | succ n ih =>
    have hle : mapStart + n * 0x1000 ≤ 2 ^ 47 := by
      rw [Nat.succ_mul, ← Nat.add_assoc] at hend
      exact le_of_add_le_left hend
    obtain ⟨hs, hbytes, -, hgone, htr⟩ := ih hle
    have hlt : mapStart + n * 0x1000 < word := by
      simp only [word]
      omega
    obtain ⟨hs', hbytes', hhome, hother, htr'⟩ := mapRound_spec hp hs hlt
    have hnumber : pageNumber (mapStart + n * 0x1000) = mapStart / 0x1000 + n := by
      simp only [pageNumber, numPages]
      omega
    rw [mapRounds, Nat.mod_eq_of_lt hlt]
    refine ⟨hs', fun x hx => (hbytes' x hx).trans (hbytes x hx), fun _ => hhome, ?_, ?_⟩
    · intro v hlo hhi hne
      rw [hother v (by omega) hne, hnumber, update_apply]
      split_ifs with hlast
      · rfl
      · exact hgone v hlo (by omega) hne
    · intro va hva hne hout
      rw [htr' va hva hne (by omega), htr va hva hne (by omega)]

end Pages

/-! ## Bytes -/

theorem paToVa_home (va : Nat) : paToVa (0x400000 + va % 0x1000) = homeFrame + va % 0x1000 := by
  have hlow : 0x400000 + va % 0x1000 < 2 ^ 47 := by omega
  rw [paToVa_low hlow, Nat.add_comm, ← Nat.add_assoc]
  rfl

section Places

variable {root base size : Nat} {m : Mem} (h : Steady root base size m)

include h

theorem Steady.translate_home (hhome : leafMap root m homePage = homeEntry) {va : Nat}
    (hva : pageNumber va = homePage) :
    ∃ user, translate root m va = some ⟨0x400000 + va % 0x1000, user, true⟩ := by
  obtain ⟨pt, ht, hentry⟩ : ∃ pt, tableBy present root m (pathTo (pageNumber va)) = some pt ∧
      getEntry m pt (index (pageNumber va)) = homeEntry := by
    rw [hva]
    unfold leafMap lookup leafAt at hhome
    cases ht : tableAt root m (pathTo homePage) with
    | none =>
      rw [ht, map_none, getD_none] at hhome
      exact absurd hhome (by decide)
    | some pt =>
      rw [ht, map_some, getD_some] at hhome
      exact ⟨pt, ht, hhome⟩
  have hpres : present (getEntry m pt (index (pageNumber va))) = true := by
    rw [hentry]
    decide
  obtain ⟨es, hlen, hall, htr⟩ := h.good.translate_eq ht hpres
  have hupper : ∀ e ∈ es, writable e = true := by
    intro e he
    obtain ⟨hpres, q, t, j, hq, hqt, heq⟩ := hall e he
    rw [hva] at hq
    rw [heq] at hpres ⊢
    exact h.writes q t j hq hqt hpres
  have hwrite : (es ++ [homeEntry]).all writable = true := by
    rw [all_append, List.all_eq_true.mpr hupper]
    decide
  refine ⟨(es ++ [homeEntry]).all user, ?_⟩
  rw [htr, hentry, access, getLast?_concat, length_append, hlen, hwrite]
  rfl

theorem Steady.place_home (hhome : leafMap root m homePage = homeEntry) {va : Nat} (hlow : va < 2 ^ 47)
    (hva : pageNumber va = homePage) (write : Bool) :
    place root m va write = some (homeFrame + va % 0x1000) := by
  obtain ⟨u, ht⟩ := h.translate_home hhome hva
  have hcanonical : ¬ (2 ^ 47 ≤ va ∧ va < directBase) := fun hno => absurd hlow (not_lt.mpr hno.1)
  unfold place
  rw [if_neg hcanonical, ht]
  simp only [bind_eq_bind, bind_some, Bool.not_true, Bool.and_false,
    Bool.false_eq_true, if_false, paToVa_home]

theorem Steady.place_none {va : Nat} (hgone : leafMap root m (pageNumber va) = 0) (write : Bool) :
    place root m va write = none := by
  unfold place
  rw [h.good.translate_none (by rw [hgone]; rfl)]
  simp only [bind_eq_bind, bind_none, ite_self]

theorem Steady.store {x : Nat} (hlo : homeFrame ≤ x) (hhi : x < homeFrame + 0x1000) (v : Byte) :
    Steady root base size (update m x v) ∧
      ∀ w, leafMap root (update m x v) w = leafMap root m w := by
  have hby : SameBy present root m (update m x v) := by
    intro y hy
    rw [update_of_ne]
    rintro rfl
    exact h.tables y (Or.inr ⟨hlo, hhi⟩) hy
  exact ⟨h.sameBy hby, hby.leafMap_eq⟩

end Places

end Terrakernel.Elf
