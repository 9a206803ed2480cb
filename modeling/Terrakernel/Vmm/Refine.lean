import Mathlib.Data.Fintype.Card
import Mathlib.Data.Fintype.Option
import Mathlib.Data.Fintype.Prod
import Mathlib.Tactic.IntervalCases
import Terrakernel.Vmm.Tree

/-!
# The page tables are a map

A map from page numbers to leaf entries, where a page without a table has the entry 0.
-/

namespace Terrakernel.Vmm

open Memory Mem Paths Function Option
open List hiding Mem

variable {m m' : Mem} {w pa va : Nat} {p : Route} {f g : Nat → Nat} {leads : Nat → Bool}

/-! ## The map -/

/-- The leaf entry of page `v`, if there is a table for it. -/
def lookup (root : Nat) (m : Mem) (v : Nat) : Option Nat := leafAt root m (pathTo v) (index v)

def leafMap (root : Nat) (m : Mem) (v : Nat) : Nat := (lookup root m v).getD 0

theorem findPt_eq (root : Nat) (m : Mem) (va : Nat) :
    findPt root m va = tableAt root m (pathTo (pageNumber va)) := by
  simp only [findPt, tableAt, pathTo, follow_cons, follow_nil, getPml4Index_eq, getPdptIndex_eq,
    getPdIndex_eq, child]
  cases present (getEntry m root (index (pageNumber va / 2 ^ 27))) with
  | false => rfl
  | true =>
    generalize tableOf (getEntry m root (index (pageNumber va / 2 ^ 27))) = pdpt
    simp only [Bool.not_true, Bool.false_eq_true, if_false, if_true, bind_some]
    cases present (getEntry m pdpt (index (pageNumber va / 2 ^ 18))) with
    | false => rfl
    | true =>
      generalize tableOf (getEntry m pdpt (index (pageNumber va / 2 ^ 18))) = pd
      simp only [Bool.not_true, Bool.false_eq_true, if_false, if_true, bind_some]
      cases present (getEntry m pd (index (pageNumber va / 2 ^ 9))) <;> rfl

theorem isMapped_eq (root : Nat) (m : Mem) (va : Nat) :
    isMapped root m va = present (leafMap root m (pageNumber va)) := by
  unfold isMapped leafMap lookup leafAt
  rw [findPt_eq, getPtIndex_eq]
  cases tableAt root m (pathTo (pageNumber va)) with
  | none =>
    simp only [map_none, getD_none]
    decide
  | some pt => rfl

theorem SameBy.leafMap_eq {root : Nat} (h : SameBy present root m m') (w : Nat) :
    leafMap root m' w = leafMap root m w := by
  unfold leafMap lookup leafAt
  have htable : tableAt root m' (pathTo w) = tableAt root m (pathTo w) :=
    h.tableBy_eq (le_of_eq (pathTo_length w))
  rw [htable]
  cases ht : tableAt root m (pathTo w) with
  | none => rw [map_none, map_none]
  | some t => rw [map_some, map_some, h.getEntry_eq (le_of_eq (pathTo_length w)) ht]

/-! ## One page -/

/-- The entry of page `w` stays, or is a zero in a new table. -/
def Kept (root : Nat) (m m' : Mem) (w : Nat) : Prop :=
  lookup root m' w = lookup root m w ∨ lookup root m w = none ∧ lookup root m' w = some 0

theorem Kept.trans {root : Nat} {m'' : Mem} (h : Kept root m m' w) (h' : Kept root m' m'' w) :
    Kept root m m'' w := by
  rcases h' with h2 | ⟨h2, h3⟩
  · unfold Kept
    rw [h2]
    exact h
  · rcases h with h1 | ⟨-, h1⟩
    · rw [h1] at h2
      exact .inr ⟨h2, h3⟩
    · rw [h1] at h2
      exact absurd h2 (by simp)

theorem Kept.isSome {root : Nat} (h : Kept root m m' w) (hs : (lookup root m w).isSome) :
    (lookup root m' w).isSome := by
  rcases h with h | ⟨h, -⟩
  · rw [h]
    exact hs
  · rw [h] at hs
    exact absurd hs (by decide)

/-- The entry of one page is set. Tables made on the way have zeros for the other pages. -/
structure SetsPage (root : Nat) (m m' : Mem) (v entry : Nat) : Prop where
  good : Good root m'
  page : lookup root m' v = some entry
  others : ∀ w < numPages, w ≠ v → Kept root m m' w

theorem Grows.kept {root : Nat} {own supplied : Nat → Prop} {changed : Route → Prop}
    (h : Grows present own supplied root changed m m') (hw : ¬ changed (slot w)) :
    Kept root m m' w := by
  unfold Kept lookup leafAt
  cases ht : tableAt root m (pathTo w) with
  | some t =>
    left
    have ht' : tableAt root m' (pathTo w) = some t := h.tables _ t (by rfl) ht
    rw [ht', map_some, map_some, h.stays _ t _ ht (Or.inl ⟨rfl, hw⟩)]
  | none =>
    cases ht' : tableAt root m' (pathTo w) with
    | none =>
      left
      rw [map_none, map_none]
    | some t =>
      right
      rw [map_some, h.zero _ t _ rfl hw ht ht']
      exact ⟨rfl, rfl⟩

theorem mmapPage_spec {root : Nat} {palloc : Palloc} (hs : Supplies root palloc)
    (hg : Good root m) (hpa : pa < word) (va attributes : Nat) :
    ∃ m', mmapPage palloc root m pa va attributes = (leafEntry pa attributes, m') ∧
      SetsPage root m m' (pageNumber va) (leafEntry pa attributes) := by
  obtain ⟨m', pt, he, hx, ht, hleaf⟩ := mmapPage_grows leads_present hg.hierarchy
    (hs.supplying hg) hpa va attributes (clear_present root m _)
  have ht' : tableAt root m' (pathTo (pageNumber va)) = some pt := ht
  refine ⟨m', he, hg.grows hx, ?_, ?_⟩
  · rw [lookup, leafAt, ht', map_some, hleaf]
  · intro w hw hne
    apply hx.kept
    rw [slot_inj hw (pageNumber_lt va)]
    exact hne

theorem munmapPage_spec {root : Nat} (hg : Good root m) (va : Nat) :
    Good root (munmapPage root m va) ∧
      ∀ w < numPages, lookup root (munmapPage root m va) w =
        if w = pageNumber va then (lookup root m w).map fun _ => 0 else lookup root m w := by
  unfold munmapPage
  rw [findPt_eq]
  cases ht : tableAt root m (pathTo (pageNumber va)) with
  | none =>
    refine ⟨hg, ?_⟩
    intro w hw
    dsimp only
    split_ifs with h
    · rw [h, lookup, leafAt, ht, map_none, map_none]
    · rfl
  | some pt =>
    dsimp only
    rw [getPtIndex_eq]
    have hx : Grows present (fun _ => True) (fun _ => True) root _ m _ :=
      setLeaf_grows hg.hierarchy (by rfl) ht (index (pageNumber va)) 0
    refine ⟨hg.grows hx, ?_⟩
    intro w hw
    rw [lookup, setLeaf_leafAt hg (by rfl) ht (index (pageNumber va)) (by decide) (by rfl)]
    simp only [pathTo_inj hw (pageNumber_lt va)]
    split_ifs with h
    · rw [h, lookup, leafAt, ht, map_some, map_some]
    · rfl

/-! ## Many pages -/

/-- `mmap`, on the map. -/
def mapPages (f : Nat → Nat) (pa va attributes : Nat) (pages : List Nat) : Nat → Nat :=
  pages.foldl (fun f i => update f (pageAt va i)
    (leafEntry ((pa + i * 0x1000) % word) attributes)) f

/-- `munmap`, on the map. -/
def unmapPages (f : Nat → Nat) (va : Nat) (pages : List Nat) : Nat → Nat :=
  pages.foldl (fun f i => update f (pageAt va i) 0) f

theorem SetsPage.leafMap {root : Nat} {v entry : Nat} (h : SetsPage root m m' v entry)
    (hw : w < numPages) : leafMap root m' w = update (leafMap root m) v entry w := by
  unfold Vmm.leafMap
  by_cases hv : w = v
  · rw [hv, update_self, h.page]
    rfl
  · rw [update_of_ne hv]
    rcases h.others w hw hv with he | ⟨hn, h0⟩
    · rw [he]
    · rw [hn, h0]
      rfl

theorem mapPages_congr (h : ∀ w < numPages, f w = g w) (pa va attributes : Nat) (pages : List Nat) :
    ∀ w < numPages, mapPages f pa va attributes pages w = mapPages g pa va attributes pages w := by
  induction pages generalizing f g with
  | nil => exact h
  | cons i pages ih =>
    apply ih
    intro w hw
    simp only [update_apply, h w hw]

theorem mapPages_cases (f : Nat → Nat) (pa va attributes : Nat) (pages : List Nat) (w : Nat) :
    ((∀ i ∈ pages, pageAt va i ≠ w) ∧ mapPages f pa va attributes pages w = f w) ∨
      ∃ i ∈ pages, pageAt va i = w ∧
        mapPages f pa va attributes pages w = leafEntry ((pa + i * 0x1000) % word) attributes := by
  induction pages generalizing f with
  | nil => exact .inl ⟨by simp, rfl⟩
  | cons i pages ih =>
    have hstep : mapPages f pa va attributes (i :: pages) = mapPages (update f (pageAt va i)
        (leafEntry ((pa + i * 0x1000) % word) attributes)) pa va attributes pages := rfl
    rw [hstep]
    rcases ih (update f (pageAt va i) (leafEntry ((pa + i * 0x1000) % word) attributes))
      with ⟨hnone, he⟩ | ⟨j, hj, hw, he⟩
    · rw [he]
      by_cases hi : pageAt va i = w
      · exact .inr ⟨i, mem_cons_self, hi, by rw [hi, update_self]⟩
      · exact .inl ⟨forall_mem_cons.mpr ⟨hi, hnone⟩, update_of_ne (Ne.symm hi) _ _⟩
    · exact .inr ⟨j, mem_cons_of_mem i hj, hw, he⟩

theorem mmapLoop_spec {root : Nat} {palloc : Palloc} (hs : Supplies root palloc)
    (pa va attributes left i firstEntry : Nat) (hg : Good root m) :
    ∃ r m', mmapLoop palloc root attributes left i ((pa + i * 0x1000) % word)
        ((va + i * 0x1000) % word) firstEntry m = (r, m') ∧ Good root m' ∧
      (∀ w < numPages, leafMap root m' w =
        mapPages (leafMap root m) pa va attributes (range' i left) w) ∧
      (∀ j, i ≤ j → j < i + left → (lookup root m' (pageAt va j)).isSome) ∧
      ∀ w < numPages, (∀ j, i ≤ j → j < i + left → w ≠ pageAt va j) → Kept root m m' w := by
  induction left generalizing i firstEntry m with
  | zero => exact ⟨_, m, rfl, hg, fun w hw => rfl, fun j h1 h2 => by omega, fun w hw _ => .inl rfl⟩
  | succ left ih =>
    obtain ⟨m1, he1, hp1⟩ := mmapPage_spec hs hg
      (Nat.mod_lt (pa + i * 0x1000) (by decide : 0 < word)) ((va + i * 0x1000) % word) attributes
    rw [pageNumber_wrap] at hp1
    obtain ⟨r, m2, he2, hg2, hmap, hsome, hother⟩ := ih (i + 1)
      (if i = 0 then leafEntry ((pa + i * 0x1000) % word) attributes else firstEntry) hp1.good
    refine ⟨r, m2, ?_, hg2, ?_, ?_, ?_⟩
    · rw [mmapLoop, he1, step_wrap, step_wrap]
      exact he2
    · intro w hw
      rw [hmap w hw, range'_succ]
      exact mapPages_congr (fun w hw => hp1.leafMap hw) pa va attributes _ w hw
    · intro j h1 h2
      by_cases hlater : ∃ k, i + 1 ≤ k ∧ k < i + 1 + left ∧ pageAt va j = pageAt va k
      · obtain ⟨k, hk1, hk2, hk⟩ := hlater
        rw [hk]
        exact hsome k hk1 hk2
      · obtain rfl : j = i := by
          by_contra hji
          exact hlater ⟨j, by omega, by omega, rfl⟩
        have hset : lookup root m1 (pageAt va j) = _ := hp1.page
        have hkept := hother (pageAt va j) (pageNumber_lt _)
          fun k hk1 hk2 hk => hlater ⟨k, hk1, hk2, hk⟩
        exact hkept.isSome (by rw [hset]; rfl)
    · intro w hw hne
      have hfirst := hp1.others w hw (hne i (le_refl i) (by omega))
      exact hfirst.trans (hother w hw fun j hj1 hj2 => hne j (by omega) (by omega))

theorem mmap_spec {root : Nat} {palloc : Palloc} (hs : Supplies root palloc)
    (hg : Good root m) (hpa : pa < word) (hva : va < word) (npages attributes : Nat) :
    ∃ r m', mmap palloc root m pa va npages attributes = (r, m') ∧ Good root m' ∧
      (∀ w < numPages, leafMap root m' w =
        mapPages (leafMap root m) pa va attributes (List.range npages) w) ∧
      (∀ i < npages, (lookup root m' (pageAt va i)).isSome) ∧
      ∀ w < numPages, (∀ i < npages, w ≠ pageAt va i) → Kept root m m' w := by
  obtain ⟨r, m', he, hg', hmap, hsome, hother⟩ :=
    mmapLoop_spec hs pa va attributes npages 0 0 hg
  simp only [Nat.zero_mul, Nat.add_zero, Nat.mod_eq_of_lt hpa, Nat.mod_eq_of_lt hva, Nat.zero_add]
    at he hsome hother
  refine ⟨r, m', he, hg', ?_, fun i hi => hsome i (Nat.zero_le i) hi, ?_⟩
  · intro w hw
    rw [hmap w hw, range_eq_range']
  · intro w hw hne
    exact hother w hw fun j _ hj => hne j hj

theorem munmapLoop_spec {root : Nat} (va left i : Nat) (hg : Good root m) :
    Good root (munmapLoop root left ((va + i * 0x1000) % word) m) ∧
      ∀ w < numPages, lookup root (munmapLoop root left ((va + i * 0x1000) % word) m) w =
        if w ∈ (range' i left).map (pageAt va) then (lookup root m w).map fun _ => 0
        else lookup root m w := by
  induction left generalizing i m with
  | zero => exact ⟨hg, fun w hw => rfl⟩
  | succ left ih =>
    obtain ⟨hg1, hl1⟩ := munmapPage_spec hg ((va + i * 0x1000) % word)
    obtain ⟨hg2, hl2⟩ := ih (i + 1) hg1
    rw [munmapLoop, step_wrap]
    refine ⟨hg2, ?_⟩
    intro w hw
    rw [hl2 w hw, hl1 w hw, pageNumber_wrap, range'_succ, map_cons]
    by_cases hfirst : w = pageAt va i
    · rw [if_pos (show w = pageNumber (va + i * 0x1000) from hfirst),
        if_pos (mem_cons.mpr (Or.inl hfirst)), Option.map_map]
      split_ifs <;> rfl
    · rw [if_neg (show ¬ w = pageNumber (va + i * 0x1000) from hfirst)]
      simp only [mem_cons, hfirst, false_or]

theorem munmap_spec {root : Nat} (hg : Good root m) (hva : va < word) (npages : Nat) :
    Good root (munmap root m va npages) ∧
      ∀ w < numPages, lookup root (munmap root m va npages) w =
        if w ∈ (List.range npages).map (pageAt va) then (lookup root m w).map fun _ => 0
        else lookup root m w := by
  have h := munmapLoop_spec va npages 0 hg
  rw [Nat.zero_mul, Nat.add_zero, Nat.mod_eq_of_lt hva, ← range_eq_range'] at h
  exact h

theorem unmapPages_apply (f : Nat → Nat) (va : Nat) (pages : List Nat) (w : Nat) :
    unmapPages f va pages w = if w ∈ pages.map (pageAt va) then 0 else f w := by
  induction pages generalizing f with
  | nil => rfl
  | cons i pages ih =>
    have hstep : unmapPages f va (i :: pages) = unmapPages (update f (pageAt va i) 0) va pages :=
      rfl
    rw [hstep, ih, update_apply, map_cons]
    simp only [mem_cons]
    split_ifs <;> first | rfl | tauto

theorem munmap_leafMap {root : Nat} (hg : Good root m) (hva : va < word) (npages : Nat)
    (hw : w < numPages) :
    leafMap root (munmap root m va npages) w =
      unmapPages (leafMap root m) va (List.range npages) w := by
  rw [unmapPages_apply, leafMap, (munmap_spec hg hva npages).2 w hw]
  split_ifs
  · cases lookup root m w <;> rfl
  · rfl

/-! ## Runs -/

inductive Call where
  | mmap (pa va npages attributes : UInt64)
  | munmap (va npages : UInt64)
  deriving DecidableEq, Repr

def Call.exec (palloc : Palloc) (root : Nat) (m : Mem) : Call → Mem
  | .mmap pa va npages attributes =>
    (Vmm.mmap palloc root m pa.toNat va.toNat npages.toNat attributes.toNat).2
  | .munmap va npages => Vmm.munmap root m va.toNat npages.toNat

/-- The same call, on the map. -/
def Call.onMap (f : Nat → Nat) : Call → Nat → Nat
  | .mmap pa va npages attributes =>
    mapPages f pa.toNat va.toNat attributes.toNat (List.range npages.toNat)
  | .munmap va npages => unmapPages f va.toNat (List.range npages.toNat)

theorem exec_spec {root : Nat} {palloc : Palloc} (hs : Supplies root palloc)
    (hg : Good root m) (c : Call) :
    Good root (c.exec palloc root m) ∧
      ∀ w < numPages, leafMap root (c.exec palloc root m) w = c.onMap (leafMap root m) w := by
  cases c with
  | mmap pa va npages attributes =>
    obtain ⟨r, m', he, hg', hmap, -⟩ := mmap_spec hs hg pa.toNat_lt va.toNat_lt npages.toNat
      attributes.toNat
    simp only [Call.exec, he]
    exact ⟨hg', hmap⟩
  | munmap va npages =>
    exact ⟨(munmap_spec hg va.toNat_lt _).1, fun w hw => munmap_leafMap hg va.toNat_lt _ hw⟩

theorem onMap_congr (h : ∀ w < numPages, f w = g w) (c : Call) :
    ∀ w < numPages, c.onMap f w = c.onMap g w := by
  cases c with
  | mmap pa va npages attributes => exact mapPages_congr h _ _ _ _
  | munmap va npages =>
    intro w hw
    simp only [Call.onMap, unmapPages_apply, h w hw]

theorem run_spec {root : Nat} {palloc : Palloc} (hs : Supplies root palloc)
    (hg : Good root m) (cs : List Call) :
    Good root (cs.foldl (Call.exec palloc root) m) ∧
      ∀ w < numPages, leafMap root (cs.foldl (Call.exec palloc root) m) w =
        cs.foldl Call.onMap (leafMap root m) w := by
  have hcongr : ∀ (cs : List Call) {f g : Nat → Nat}, (∀ w < numPages, f w = g w) →
      ∀ w < numPages, cs.foldl Call.onMap f w = cs.foldl Call.onMap g w := by
    intro cs
    induction cs with
    | nil => exact fun h => h
    | cons c cs ih => exact fun h => ih (onMap_congr h c)
  induction cs generalizing m with
  | nil => exact ⟨hg, fun w hw => rfl⟩
  | cons c cs ih =>
    obtain ⟨hg1, hmap1⟩ := exec_spec hs hg c
    obtain ⟨hg2, hmap2⟩ := ih hg1
    refine ⟨hg2, ?_⟩
    intro w hw
    rw [foldl_cons, foldl_cons, hmap2 w hw]
    exact hcongr cs hmap1 w hw

/-! ## An allocator that never runs out -/

/-- A path of at most three indices, as three optional ones. -/
def pathCode (p : Route) : Option (Fin 512) × Option (Fin 512) × Option (Fin 512) :=
  (p[0]?, p[1]?, p[2]?)

theorem pathCode_inj {q : Route} (hp : p.length ≤ 3) (hq : q.length ≤ 3)
    (h : pathCode p = pathCode q) : p = q := by
  simp only [pathCode, Prod.mk.injEq] at h
  apply ext_getElem?
  intro i
  rcases Nat.lt_or_ge i 3 with hi | hi
  · interval_cases i
    · exact h.1
    · exact h.2.1
    · exact h.2.2
  · rw [getElem?_eq_none (by omega), getElem?_eq_none (by omega)]

theorem exists_fresh_all (leads : Nat → Bool) {tables : List Nat} (hfew : tables.length ≤ 4) (m : Mem) :
    ∃ page, 2 ^ 32 ≤ page ∧ page < 2 ^ 47 ∧ page % 0x1000 = 0 ∧
      ∀ r ∈ tables, ∀ p, p.length ≤ 3 → tableBy leads r m p ≠ some (paToVa page) := by
  by_contra hnone
  push Not at hnone
  have htaken : ∀ k : Fin (2 ^ 30), ∃ (i : Fin tables.length) (p : Route), p.length ≤ 3 ∧
      tableBy leads (tables.get i) m p = some (paToVa ((k.val + 2 ^ 20) * 0x1000)) := by
    intro k
    have := k.isLt
    obtain ⟨r, hr, p, hp, ht⟩ := hnone ((k.val + 2 ^ 20) * 0x1000) (by omega) (by omega) (by omega)
    obtain ⟨i, rfl⟩ := List.get_of_mem hr
    exact ⟨i, p, hp, ht⟩
  choose table path hlen hpath using htaken
  have hinj : Injective fun k => (table k, pathCode (path k)) := by
    intro k l hkl
    obtain ⟨hi, hcode⟩ := Prod.mk.inj hkl
    have heq := pathCode_inj (hlen k) (hlen l) hcode
    have hk := hpath k
    rw [hi, heq, hpath l] at hk
    have hpage := some.inj hk
    have := k.isLt
    have := l.isLt
    rw [paToVa_low (by omega), paToVa_low (by omega)] at hpage
    exact Fin.ext (by omega)
  have hcard := Fintype.card_le_of_injective _ hinj
  simp only [Fintype.card_fin, Fintype.card_prod, Fintype.card_option] at hcard
  omega

theorem exists_fresh (leads : Nat → Bool) (root : Nat) (m : Mem) :
    ∃ page, 2 ^ 32 ≤ page ∧ page < 2 ^ 47 ∧ page % 0x1000 = 0 ∧
      ∀ p, p.length ≤ 3 → tableBy leads root m p ≠ some (paToVa page) := by
  have hone : [root].length ≤ 4 := by simp
  obtain ⟨page, hhigh, hlt, ha, hfresh⟩ := exists_fresh_all leads hone m
  exact ⟨page, hhigh, hlt, ha, hfresh root (mem_singleton_self root)⟩

theorem exists_supplies (root : Nat) : ∃ palloc, Supplies root palloc := by
  choose page h0 hlt ha hfresh using exists_fresh present root
  refine ⟨fun m => (page m, m), fun m _ => ⟨?_, hlt m, ha m, hfresh m, fun _ _ _ _ _ _ _ => rfl⟩⟩
  have := h0 m
  dsimp only
  omega

theorem absent_empty (t : Nat) (i : Fin 512) : present (getEntry (fun _ => 0) t i) = false := by
  rw [getEntry_zeros i.isLt fun _ _ _ => rfl]
  rfl

theorem tableBy_empty (hl : Leads leads) {root t : Nat}
    (h : tableBy leads root (fun _ => 0) p = some t) : p = [] := by
  cases p with
  | nil => rfl
  | cons i p =>
    rw [tableBy, follow_cons] at h
    obtain ⟨u, hu, -⟩ := bind_eq_some_iff.mp h
    have hpres := hl.present _ (childBy_eq_some hu).1
    rw [absent_empty] at hpres
    exact absurd hpres (by simp)

theorem hierarchy_empty (hl : Leads leads) : Hierarchy leads (paToVa 0x1000) fun _ => 0 := by
  refine ⟨isTable_paToVa (by decide) (by decide), ?_, ?_⟩
  · intro p t i _ _ hlead
    have hpres := hl.present _ hlead
    rw [absent_empty] at hpres
    exact absurd hpres (by simp)
  · intro p q t _ _ hp hq
    rw [tableBy_empty hl hp, tableBy_empty hl hq]

theorem good_empty : Good (paToVa 0x1000) fun _ => 0 := by
  have h := hierarchy_empty leads_present
  refine ⟨h.rootTable, h.low, ?_, h.tree⟩
  intro p t i _ _ hpres
  rw [absent_empty] at hpres
  exact absurd hpres (by simp)

/-! ## The result -/

/-- In every state a run reaches, the hierarchy is a tree and holds the map that the calls
describe, and each call changes the entries of its own pages only. -/
theorem pageTables_refine {root : Nat} {palloc : Palloc} (hs : Supplies root palloc)
    {m : Mem} (hg : Good root m) (cs : List Call) :
    ∃ m', cs.foldl (Call.exec palloc root) m = m' ∧ Good root m' ∧
      (∀ w < numPages, leafMap root m' w = cs.foldl Call.onMap (leafMap root m) w) ∧
      (∀ va, isMapped root m' va = present (leafMap root m' (pageNumber va))) ∧
      (∀ pa va npages attributes : UInt64,
        let m'' := Call.exec palloc root m' (.mmap pa va npages attributes)
        (∀ i < npages.toNat, (lookup root m'' (pageAt va.toNat i)).isSome) ∧
          ∀ w < numPages, (∀ i < npages.toNat, w ≠ pageAt va.toNat i) → Kept root m' m'' w) ∧
      ∀ va npages : UInt64, ∀ w < numPages,
        lookup root (Call.exec palloc root m' (.munmap va npages)) w =
          if w ∈ (List.range npages.toNat).map (pageAt va.toNat) then (lookup root m' w).map fun _ => 0
          else lookup root m' w := by
  obtain ⟨hg', hmap⟩ := run_spec hs hg cs
  refine ⟨_, rfl, hg', hmap, fun va => isMapped_eq root _ va, ?_, ?_⟩
  · intro pa va npages attributes
    obtain ⟨r, m'', he, -, -, hsome, hkept⟩ := mmap_spec hs hg' pa.toNat_lt va.toNat_lt
      npages.toNat attributes.toNat
    simp only [Call.exec, he]
    exact ⟨hsome, hkept⟩
  · intro va npages
    exact (munmap_spec hg' va.toNat_lt _).2

theorem pageTables_refine_empty :
    ∃ palloc, Supplies (paToVa 0x1000) palloc ∧
      Good (paToVa 0x1000) ([Call.mmap 0x200000 0x7FFFFFFFF000 3 3, .munmap 0 1].foldl
        (Call.exec palloc (paToVa 0x1000)) fun _ => 0) := by
  obtain ⟨palloc, hs⟩ := exists_supplies (paToVa 0x1000)
  obtain ⟨m', rfl, hg, -⟩ := pageTables_refine hs good_empty
    [.mmap 0x200000 0x7FFFFFFFF000 3 3, .munmap 0 1]
  exact ⟨palloc, hs, hg⟩

end Terrakernel.Vmm
