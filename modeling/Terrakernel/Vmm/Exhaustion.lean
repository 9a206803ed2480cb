import Terrakernel.Vmm.LargePages

/-!
# When there are no pages left

A null page goes through `pa_to_va` like any other. Neither `valloc` nor `ensure_table_exists` looks
at it before.
-/

namespace Terrakernel.Vmm

open Memory Mem Paths Pmm
open List hiding Mem

variable {n t va : Nat} {m : Mem} {r : Nat × Nat} {rs : List (Nat × Nat)}

/-! ## `valloc` -/

theorem paToVa_eq_zero {pa : Nat} : paToVa pa = 0 ↔ pa = 2 ^ 47 := by
  unfold paToVa
  by_cases hpa : directBase ≤ pa
  · rw [if_pos hpa]
    simp only [directBase] at hpa
    omega
  · rw [if_neg hpa]
    simp only [directBase, word] at *
    omega

theorem valloc_eq {s s' : Pmm} {p : Nat} (h : s.palloc n = some (p, s')) :
    valloc s n = some (paToVa p, s') := by
  rw [valloc, h]
  rfl

section Installs

variable (palloc : Palloc)

/-- The page that `palloc` returns for a new table, and the entry that is made of it. -/
def ensureInstalls (m : Mem) (parent index : Nat) : List (Nat × Nat) :=
  if present (getEntry m parent index) then []
  else [((palloc m).1, vaToPa (paToVa (palloc m).1) ||| pagePresent ||| pageRw)]

def mmapPageInstalls (currentPML4 : Nat) (m : Mem) (va : Nat) : List (Nat × Nat) :=
  let pdpt := ensureTableExists palloc m currentPML4 (getPml4Index va)
  let pd := ensureTableExists palloc pdpt.2 pdpt.1 (getPdptIndex va)
  ensureInstalls palloc m currentPML4 (getPml4Index va) ++
    ensureInstalls palloc pdpt.2 pdpt.1 (getPdptIndex va) ++
    ensureInstalls palloc pd.2 pd.1 (getPdIndex va)

def mmapLoopInstalls (currentPML4 attributes : Nat) : Nat → (pa va : Nat) → Mem → List (Nat × Nat)
  | 0, _, _, _ => []
  | left + 1, pa, va, m =>
    mmapPageInstalls palloc currentPML4 m va ++
      mmapLoopInstalls currentPML4 attributes left ((pa + 0x1000) % word) ((va + 0x1000) % word)
        (mmapPage palloc currentPML4 m pa va attributes).2

/-- All tables that a call of `mmap` makes. -/
def mmapInstalls (currentPML4 : Nat) (m : Mem) (paddr vaddr npages attributes : Nat) :
    List (Nat × Nat) :=
  mmapLoopInstalls palloc currentPML4 attributes npages paddr vaddr m

variable {palloc}

theorem mem_ensureInstalls {parent index : Nat} (h : r ∈ ensureInstalls palloc m parent index) :
    ∃ m', r = ((palloc m').1, vaToPa (paToVa (palloc m').1) ||| pagePresent ||| pageRw) := by
  unfold ensureInstalls at h
  split_ifs at h
  · exact absurd h not_mem_nil
  · exact ⟨m, mem_singleton.mp h⟩

theorem mem_mmapLoopInstalls {root attributes left pa va : Nat}
    (h : r ∈ mmapLoopInstalls palloc root attributes left pa va m) :
    ∃ m', r = ((palloc m').1, vaToPa (paToVa (palloc m').1) ||| pagePresent ||| pageRw) := by
  induction left generalizing pa va m with
  | zero => exact absurd h not_mem_nil
  | succ left ih =>
    rw [mmapLoopInstalls, mmapPageInstalls, mem_append, mem_append, mem_append] at h
    rcases h with ((h | h) | h) | h
    · exact mem_ensureInstalls h
    · exact mem_ensureInstalls h
    · exact mem_ensureInstalls h
    · exact ih h

end Installs

/-! ## Tables that are missing -/

/-- The paths to the tables of `n` pages. -/
def tablePaths : (n va : Nat) → Finset Route
  | 0, _ => ∅
  | n + 1, va =>
    let path := pathTo (pageNumber va)
    insert (path.take 1) (insert (path.take 2) (insert path (tablePaths n ((va + 0x1000) % word))))

def missing (root : Nat) (m : Mem) (paths : Finset Route) : Finset Route :=
  paths.filter fun q => tableBy plain root m q = none

theorem tablePaths_length {q : Route} (h : q ∈ tablePaths n va) : q.length ≤ 3 := by
  induction n generalizing va with
  | zero => exact absurd h (Finset.notMem_empty q)
  | succ n ih =>
    simp only [tablePaths, Finset.mem_insert] at h
    rcases h with rfl | rfl | rfl | h
    · simp [pathTo]
    · simp [pathTo]
    · simp [pathTo]
    · exact ih h

/-- An allocator with a stock of pages, which it hands out one after the other. Null says that there
is none left. -/
structure Stocks (own : Nat → Prop) (palloc : Palloc) (stock : Mem → List Nat) : Prop where
  writes : ∀ m x, (palloc m).2 x ≠ m x → own x
  reads : ∀ m m', (∀ x, own x → m' x = m x) → stock m' = stock m
  page : ∀ m, (palloc m).1 = (stock m).headD 0
  next : ∀ m, stock (palloc m).2 = (stock m).tail
  nodup : ∀ m, (stock m).Nodup
  pages : ∀ m, ∀ page ∈ stock m, page ≠ 0 ∧ page < 2 ^ 47 ∧ page % 0x1000 = 0 ∧
    ∀ x, paToVa page ≤ x → x < paToVa page + 0x1000 → ¬ own x

/-- Neither the allocator's memory nor its stock is in use for tables. -/
structure Unused (own : Nat → Prop) (stock : Mem → List Nat) (root : Nat) (m : Mem) : Prop where
  tables : ∀ x, InTable plain root m x → ¬ own x
  pages : ∀ page ∈ stock m, ∀ q, q.length ≤ 3 → tableBy plain root m q ≠ some (paToVa page)

/-- `m'` has the tables of `m` and those of the given paths, made of pages from the stock. -/
structure Filled (own : Nat → Prop) (stock : Mem → List Nat) (root : Nat)
    (paths : Finset Route) (m m' : Mem) : Prop where
  tables : ∀ q, q.length ≤ 3 →
    (tableBy plain root m' q = none ↔ tableBy plain root m q = none ∧ q ∉ paths)
  room : (missing root m paths).card ≤ (stock m).length
  left : stock m' = (stock m).drop (missing root m paths).card
  unused : Unused own stock root m'

section Stock

variable {own supplied : Nat → Prop} {stock : Mem → List Nat} {root : Nat} {palloc : Palloc}
  {m m1 m2 : Mem} {paths rest : Finset Route}

theorem Filled.card (h : Filled own stock root paths m m1) (hrest : ∀ q ∈ rest, q.length ≤ 3) :
    (missing root m (paths ∪ rest)).card =
      (missing root m paths).card + (missing root m1 rest).card := by
  have hunion : missing root m (paths ∪ rest) = missing root m paths ∪ missing root m1 rest := by
    ext q
    simp only [missing, Finset.mem_filter, Finset.mem_union]
    constructor
    · rintro ⟨hq | hq, hnone⟩
      · exact .inl ⟨hq, hnone⟩
      · by_cases hp : q ∈ paths
        · exact .inl ⟨hp, hnone⟩
        · exact .inr ⟨hq, (h.tables q (hrest q hq)).mpr ⟨hnone, hp⟩⟩
    · rintro (⟨hq, hnone⟩ | ⟨hq, hnone⟩)
      · exact ⟨.inl hq, hnone⟩
      · exact ⟨.inr hq, ((h.tables q (hrest q hq)).mp hnone).1⟩
  rw [hunion, Finset.card_union_of_disjoint]
  apply Finset.disjoint_left.mpr
  intro q hq hq'
  obtain ⟨hp, -⟩ := Finset.mem_filter.mp hq
  obtain ⟨hr, hnone⟩ := Finset.mem_filter.mp hq'
  exact ((h.tables q (hrest q hr)).mp hnone).2 hp

theorem Filled.trans (h : Filled own stock root paths m m1) (h' : Filled own stock root rest m1 m2)
    (hrest : ∀ q ∈ rest, q.length ≤ 3) : Filled own stock root (paths ∪ rest) m m2 := by
  have hroom := h'.room
  rw [h.left, length_drop] at hroom
  have hfits := h.room
  refine ⟨?_, ?_, ?_, h'.unused⟩
  · intro q hq
    rw [h'.tables q hq, h.tables q hq, Finset.mem_union, not_or, and_assoc]
  · rw [h.card hrest]
    omega
  · rw [h'.left, h.left, drop_drop, h.card hrest]

/-- The pages that a call was given are not null, or there are enough of them. -/
def Enough (stock : Mem → List Nat) (root : Nat) (m : Mem) (paths : Finset Route)
    (installs : List (Nat × Nat)) : Prop :=
  (∀ r ∈ installs, r.1 ≠ 0) ∨ (missing root m paths).card ≤ (stock m).length

theorem Filled.enough (h : Filled own stock root paths m m1) (hrest : ∀ q ∈ rest, q.length ≤ 3)
    {rs' : List (Nat × Nat)} (he : Enough stock root m (paths ∪ rest) (rs ++ rs')) :
    Enough stock root m1 rest rs' := by
  refine he.imp (fun hall r hr => hall r (mem_append_right _ hr)) fun hle => ?_
  rw [h.card hrest] at hle
  rw [h.left, length_drop]
  omega

variable (hst : Stocks own palloc stock) (hg : Hierarchy plain root m)
  (hu : Unused own stock root m)

include hst hg hu

theorem linkTable_filled {page : Nat} {tail : List Nat} (hstock : stock m = page :: tail)
    (hs : Supply plain own supplied root m page (palloc m).2) {p : Route}
    (hp : p.length < 3) (ht : tableBy plain root m p = some t) {i : Fin 512}
    (hpres : present (getEntry m t i) = false) :
    Filled own stock root {p ++ [i]} m (linkTable (palloc m).2 page t i) := by
  have hmem : ∀ {page'}, page' ∈ tail → page' ∈ stock m := by
    intro page' h
    rw [hstock]
    exact mem_cons_of_mem page h
  obtain ⟨-, hlow, -, hown⟩ := hst.pages m page (by rw [hstock]; exact mem_cons_self)
  have hadd := linkTable_added leads_plain hg hs hp ht i hpres
  have hone : missing root m {p ++ [i]} = {p ++ [i]} := by
    have hwas := hadd.follow_was []
    rw [append_nil] at hwas
    rw [missing, Finset.filter_singleton, if_pos hwas]
  have hnew : ∀ {q u}, q.length ≤ 3 →
      tableBy plain root (linkTable (palloc m).2 page t i) q = some u →
      tableBy plain root m q = some u ∨ u = paToVa page := by
    intro q u hq hq'
    rcases hadd.follow_cases hq with ⟨-, h⟩ | ⟨-, h⟩ | ⟨_, _, -, h⟩
    · exact .inl (h.symm.trans hq')
    · exact .inr (Option.some.inj (hq'.symm.trans h))
    · exact absurd (h.symm.trans hq') (by simp)
  have hleft : stock (linkTable (palloc m).2 page t i) = tail := by
    rw [show tail = stock (palloc m).2 by rw [hst.next, hstock]; rfl]
    apply hst.reads
    intro x hx
    have hslot : ¬ (t + 8 * i ≤ x ∧ x < t + 8 * i + 8) := by
      rintro ⟨h1, h2⟩
      have := i.isLt
      exact hu.tables x ⟨p, t, Nat.le_of_lt hp, ht, by omega, by omega⟩ hx
    rw [linkTable, setEntry, store_outside 8 _ _ _ x (by omega), memset_apply,
      if_neg fun h => hown x h.1 h.2 hx]
  refine ⟨?_, ?_, ?_, ?_, ?_⟩
  · intro q hq
    rw [Finset.mem_singleton]
    rcases hadd.follow_cases hq with ⟨hpre, h⟩ | ⟨rfl, h⟩ | ⟨j, r, rfl, h⟩
    · rw [tableBy, h]
      refine (and_iff_left ?_).symm
      rintro rfl
      exact hpre (prefix_refl _)
    · rw [tableBy, h]
      simp
    · exact iff_of_true h ⟨hadd.follow_was _, by simp⟩
  · simp [hone, hstock]
  · simp [hone, hstock, hleft]
  · rintro x ⟨q, u, hq, hqu, h1, h2⟩ hx
    rcases hnew hq hqu with h | rfl
    · exact hu.tables x ⟨q, u, hq, h, h1, h2⟩ hx
    · exact hown x h1 h2 hx
  · rw [hleft]
    intro page' hp' q hq hqu
    rcases hnew hq hqu with h | h
    · exact hu.pages page' (hmem hp') q hq h
    · rw [paToVa_low hlow, paToVa_low (hst.pages m page' (hmem hp')).2.1,
        Nat.add_right_cancel_iff] at h
      have hnodup := hst.nodup m
      rw [hstock] at hnodup
      exact (nodup_cons.mp hnodup).1 (h ▸ hp')

theorem ensure_filled {p : Route} (hp : p.length < 3)
    (ht : tableBy plain root m p = some t) {i : Fin 512} (hclear : Clear plain root m (p ++ [i]))
    (he : Enough stock root m (insert (p ++ [i]) rest) (ensureInstalls palloc m t i ++ rs))
    (hsup : ∀ r ∈ ensureInstalls palloc m t i, supplied (paToVa r.1)) :
    ∃ u m', ensureTableExists palloc m t i = (u, m') ∧
      Grows plain own supplied root (fun _ => False) m m' ∧
      tableBy plain root m' (p ++ [i]) = some u ∧ Filled own stock root {p ++ [i]} m m' ∧
      ∀ r ∈ ensureInstalls palloc m t i, r.1 ≠ 0 := by
  have hchild : tableBy plain root m (p ++ [i]) = childBy plain m t i := by
    rw [tableBy, follow_snoc, ← tableBy, ht, Option.bind_some]
  cases hpres : present (getEntry m t i) with
  | true =>
    have hsome : tableBy plain root m (p ++ [i]) = some (tableOf (getEntry m t i)) :=
      hchild.trans (if_pos (hclear p t i (prefix_refl _) ht hpres))
    have hnone : missing root m {p ++ [i]} = ∅ := by
      rw [missing, Finset.filter_singleton, if_neg (by rw [hsome]; simp)]
    refine ⟨_, _, ensureTableExists_present hpres, .refl hg, hsome, ⟨?_, ?_, ?_, hu⟩, ?_⟩
    · intro q _
      refine ⟨fun h => ⟨h, ?_⟩, And.left⟩
      rw [Finset.mem_singleton]
      rintro rfl
      exact absurd (hsome.symm.trans h) (by simp)
    · simp [hnone]
    · simp [hnone]
    · simp [ensureInstalls, hpres]
  | false =>
    have hinstalls : ensureInstalls palloc m t i =
        [((palloc m).1, vaToPa (paToVa (palloc m).1) ||| pagePresent ||| pageRw)] := by
      rw [ensureInstalls, hpres]
      rfl
    rw [hinstalls] at he hsup ⊢
    obtain ⟨page, tail, hstock⟩ : ∃ page tail, stock m = page :: tail := by
      apply exists_cons_of_ne_nil
      intro hnil
      rcases he with hall | hle
      · exact hall _ (mem_append_left _ mem_cons_self) (by rw [hst.page, hnil]; rfl)
      · rw [hnil, length_nil, Nat.le_zero, Finset.card_eq_zero, missing] at hle
        refine Finset.filter_eq_empty_iff.mp hle (Finset.mem_insert_self _ rest) ?_
        rw [hchild, childBy, plain, hpres]
        rfl
    have hpage : (palloc m).1 = page := by rw [hst.page, hstock]; rfl
    have hmem : page ∈ stock m := by rw [hstock]; exact mem_cons_self
    obtain ⟨h0, hlow, ha, -⟩ := hst.pages m page hmem
    have hs : Supply plain own supplied root m page (palloc m).2 := by
      refine ⟨hlow, ha, hu.pages page hmem, ?_, hst.writes m, ?_⟩
      · intro x hx
        by_contra hne
        exact hu.tables x hx (hst.writes m x hne)
      · rw [← hpage]
        exact hsup _ mem_cons_self
    refine ⟨paToVa page, linkTable (palloc m).2 page t i, ?_,
      linkTable_grows leads_plain hg hs hp ht i hpres,
      (linkTable_added leads_plain hg hs hp ht i hpres).follow_new,
      linkTable_filled hst hg hu hstock hs hp ht hpres, by simp [hpage, h0]⟩
    rw [ensureTableExists, hpres]
    simp only [Bool.false_eq_true, if_false, vallocPage, hpage, vaToPa_paToVa hlow, new_entry ha]
    rfl

theorem setLeaf_filled {p : Route} (hp : p.length = 3)
    (ht : tableBy plain root m p = some t) (i : Fin 512) (v : Nat) :
    Filled own stock root ∅ m (setEntry m t i v) := by
  have htable := fun {q : Route} (hq : q.length ≤ 3) => setLeaf_tableBy hg hp ht i v hq
  have hstock : stock (setEntry m t i v) = stock m := by
    apply hst.reads
    intro x hx
    have hi := i.isLt
    apply store_outside
    by_contra hin
    exact hu.tables x ⟨p, t, le_of_eq hp, ht, by omega, by omega⟩ hx
  refine ⟨fun q hq => by simp [htable hq], by simp [missing], by simp [missing, hstock], ?_, ?_⟩
  · rintro x ⟨q, u, hq, hqu, hin⟩
    exact hu.tables x ⟨q, u, hq, (htable hq).symm.trans hqu, hin⟩
  · rw [hstock]
    intro page hmem q hq
    rw [htable hq]
    exact hu.pages page hmem q hq

theorem mmapPage_filled (pa va attributes : Nat)
    (hclear : Clear plain root m (pathTo (pageNumber va))) (hrest : ∀ q ∈ rest, q.length ≤ 3)
    (he : Enough stock root m (insert ((pathTo (pageNumber va)).take 1)
      (insert ((pathTo (pageNumber va)).take 2) (insert (pathTo (pageNumber va)) rest)))
      (mmapPageInstalls palloc root m va ++ rs))
    (hsup : ∀ r ∈ mmapPageInstalls palloc root m va, supplied (paToVa r.1)) :
    ∃ m', (mmapPage palloc root m pa va attributes).2 = m' ∧
      Grows plain own supplied root (fun _ => True) m m' ∧
      Filled own stock root {(pathTo (pageNumber va)).take 1, (pathTo (pageNumber va)).take 2,
        pathTo (pageNumber va)} m m' ∧
      ∀ r ∈ mmapPageInstalls palloc root m va, r.1 ≠ 0 := by
  have hsub : ∀ {q : Route}, q <+: pathTo (pageNumber va) → ∀ {changed m'},
      Grows plain own supplied root changed m m' → Clear plain root m' q := by
    intro q hq changed m' hx r t j hr
    exact hclear.grows leads_plain (by rfl) hx r t j (hr.trans hq)
  have hrest3 : ∀ q ∈ insert (pathTo (pageNumber va)) rest, q.length ≤ 3 :=
    Finset.forall_mem_insert _ _ _ |>.mpr ⟨by simp [pathTo], hrest⟩
  have hrest2 : ∀ q ∈ insert ((pathTo (pageNumber va)).take 2) (insert (pathTo (pageNumber va)) rest),
      q.length ≤ 3 := Finset.forall_mem_insert _ _ _ |>.mpr ⟨by simp [pathTo], hrest3⟩
  simp only [mmapPageInstalls, forall_mem_append, getPml4Index_eq, getPdptIndex_eq,
    getPdIndex_eq, append_assoc] at he hsup ⊢
  obtain ⟨hsup1, hsup2, hsup3⟩ := hsup
  obtain ⟨pdpt, m1, he1, hx1, ht1, hf1, hr1⟩ := ensure_filled hst hg hu (p := []) (by simp) rfl
    (i := index (pageNumber va / 2 ^ 27)) (hsub ⟨_, rfl⟩ (.refl hg)) he hsup1
  rw [he1] at he hsup2 hsup3 ⊢
  rw [Finset.insert_eq] at he
  obtain ⟨pd, m2, he2, hx2, ht2, hf2, hr2⟩ := ensure_filled hst hx1.hierarchy hf1.unused (by simp) ht1
    (i := index (pageNumber va / 2 ^ 18)) (hsub ⟨[_], rfl⟩ hx1) (hf1.enough hrest2 he) hsup2
  have he' := hf1.enough hrest2 he
  rw [he2] at he' hsup3 ⊢
  rw [Finset.insert_eq] at he'
  have hx12 := hx1.trans hx2
  obtain ⟨pt, m3, he3, hx3, ht3, hf3, hr3⟩ := ensure_filled hst hx2.hierarchy hf2.unused (by simp) ht2
    (i := index (pageNumber va / 2 ^ 9)) (hsub ⟨[], rfl⟩ hx12) (hf2.enough hrest3 he') hsup3
  have ht : tableBy plain root m3 (pathTo (pageNumber va)) = some pt := ht3
  have hleaf := setLeaf_filled hst hx3.hierarchy hf3.unused (by rfl) ht (index (pageNumber va))
    (leafEntry pa attributes)
  refine ⟨setEntry m3 pt (index (pageNumber va)) (leafEntry pa attributes), ?_, ?_, ?_, hr1, hr2, hr3⟩
  · simp only [mmapPage, getPml4Index_eq, getPdptIndex_eq, getPdIndex_eq, getPtIndex_eq, he1, he2, he3]
  · exact ((hx12.trans hx3).trans (setLeaf_grows hx3.hierarchy (by rfl) ht _ _)).weaken
      fun _ _ => trivial
  · have h23 := hf2.trans (hf3.trans hleaf (by simp)) (by simp)
    have h := hf1.trans h23 (by simp)
    rw [Finset.union_empty, ← Finset.insert_eq, ← Finset.insert_eq] at h
    exact h

theorem mmapLoop_filled (attributes left i pa firstEntry : Nat) {va : Nat}
    (hclear : ∀ j < left, Clear plain root m (pathTo (pageAt va j)))
    (he : Enough stock root m (tablePaths left va)
      (mmapLoopInstalls palloc root attributes left pa va m))
    (hsup : ∀ r ∈ mmapLoopInstalls palloc root attributes left pa va m, supplied (paToVa r.1)) :
    ∃ m', (mmapLoop palloc root attributes left i pa va firstEntry m).2 = m' ∧
      Grows plain own supplied root (fun _ => True) m m' ∧
      Filled own stock root (tablePaths left va) m m' ∧
      ∀ r ∈ mmapLoopInstalls palloc root attributes left pa va m, r.1 ≠ 0 := by
  induction left generalizing m i firstEntry pa va with
  | zero =>
    refine ⟨m, rfl, (Grows.refl hg).weaken fun _ _ => trivial, ⟨?_, ?_, ?_, hu⟩, ?_⟩
    · simp [tablePaths]
    · simp [tablePaths, missing]
    · simp [tablePaths, missing]
    · simp [mmapLoopInstalls]
  | succ left ih =>
    simp only [mmapLoopInstalls, forall_mem_append] at he hsup ⊢
    have hnext : ∀ j, pageAt ((va + 0x1000) % word) j = pageAt va (j + 1) := by
      intro j
      simp only [pageAt, pageNumber, word, numPages]
      omega
    obtain ⟨m1, he1, hx1, hf1, hr1⟩ := mmapPage_filled hst hg hu pa va attributes
      (by have h := hclear 0 (Nat.succ_pos left); rwa [pageAt, Nat.zero_mul, Nat.add_zero] at h)
      (fun q => tablePaths_length) he hsup.1
    rw [he1] at he hsup ⊢
    have hsplit : tablePaths (left + 1) va = {(pathTo (pageNumber va)).take 1,
        (pathTo (pageNumber va)).take 2, pathTo (pageNumber va)} ∪
          tablePaths left ((va + 0x1000) % word) := by
      simp only [tablePaths, Finset.insert_union, Finset.singleton_union]
    rw [hsplit] at he ⊢
    obtain ⟨m2, he2, hx2, hf2, hr2⟩ := ih hx1.hierarchy hf1.unused (i + 1)
      ((pa + 0x1000) % word) (if i = 0 then (mmapPage palloc root m pa va attributes).1 else firstEntry)
      (fun j hj => by
        rw [hnext]
        exact (hclear (j + 1) (Nat.succ_lt_succ hj)).grows leads_plain (by rfl) hx1)
      (hf1.enough (fun q => tablePaths_length) he) hsup.2
    refine ⟨m2, ?_, (hx1.trans hx2).weaken fun _ _ => trivial,
      hf1.trans hf2 fun q => tablePaths_length, hr1, hr2⟩
    rw [mmapLoop, ← he2, ← he1]

end Stock

/-! ## `mmap` -/

/-- Every table that was installed is a page that `palloc` returned in the call, and nothing but
tables and these pages was written. -/
structure Reported (own : Nat → Prop) (root : Nat) (m : Mem) (installs : List (Nat × Nat))
    (m' : Mem) : Prop where
  installed : ∀ r ∈ installs, r.1 ≠ 0 ∧ pageOf r.2 = r.1
  tables : ∀ q t, q.length ≤ 3 → tableBy plain root m' q = some t →
    tableBy plain root m q = some t ∨ ∃ r ∈ installs, t = paToVa r.1
  bytes : ∀ x, m' x ≠ m x → own x ∨ InTable plain root m x ∨
    ∃ r ∈ installs, paToVa r.1 ≤ x ∧ x < paToVa r.1 + 0x1000

section Reports

variable {own supplied : Nat → Prop} {stock : Mem → List Nat} {root : Nat} {palloc : Palloc}
  {m m' : Mem}

theorem Unused.otherData (h : Unused own stock root m) (hst : Stocks own palloc stock)
    (hm : OtherData own supplied root m m') : stock m' = stock m ∧ Unused own stock root m' := by
  have hstock : stock m' = stock m := by
    apply hst.reads
    intro x hx
    by_contra hne
    exact (hm x hne).1 hx
  refine ⟨hstock, fun x hx => h.tables x (hm.sameBy.inTable hx), ?_⟩
  rw [hstock]
  intro page hpage q hq
  rw [hm.sameBy.tableBy_eq hq]
  exact h.pages page hpage q hq

theorem OtherData.missing_eq (hm : OtherData own supplied root m m') (n va : Nat) :
    missing root m' (tablePaths n va) = missing root m (tablePaths n va) := by
  apply Finset.filter_congr
  intro q hq
  rw [hm.sameBy.tableBy_eq (tablePaths_length hq)]

theorem mmap_reported (hst : Stocks own palloc stock) (hg : Hierarchy plain root m)
    (hu : Unused own stock root m) {npages : Nat} (pa attributes : Nat)
    (hclear : ∀ i < npages, Clear plain root m (pathTo (pageAt va i)))
    (hroom : (missing root m (tablePaths npages va)).card ≤ (stock m).length) :
    Reported own root m (mmapInstalls palloc root m pa va npages attributes)
      (mmap palloc root m pa va npages attributes).2 := by
  obtain ⟨m', he, hx, -, hall⟩ := @mmapLoop_filled own
    (fun t => ∃ r ∈ mmapInstalls palloc root m pa va npages attributes, t = paToVa r.1) stock root
    palloc m hst hg hu attributes npages 0 pa 0 va hclear (Or.inr hroom) fun r hr => ⟨r, hr, rfl⟩
  rw [mmap, he]
  refine ⟨fun r hr => ⟨hall r hr, ?_⟩, ?_, ?_⟩
  · obtain ⟨m1, rfl⟩ := mem_mmapLoopInstalls hr
    have hne := hall _ hr
    dsimp only at hne ⊢
    cases hs : stock m1 with
    | nil =>
      rw [hst.page, hs] at hne
      exact absurd rfl hne
    | cons page tail =>
      have hpage : (palloc m1).1 = page := by rw [hst.page, hs]; rfl
      obtain ⟨-, hlow, ha, -⟩ := hst.pages m1 page (by rw [hs]; exact mem_cons_self)
      rw [hpage, vaToPa_paToVa hlow, new_entry ha, pageOf]
      omega
  · exact fun q t hq ht => (hx.fresh q t hq ht).imp_right And.right
  · intro x hne
    refine (hx.bytes x hne).imp_right (Or.imp_right ?_)
    rintro ⟨t, ⟨r, hr, rfl⟩, hin⟩
    exact ⟨r, hr, hin⟩

theorem mem_mmapLoopInstalls_add {attributes n k pa va : Nat} {r : Nat × Nat}
    (h : r ∈ mmapLoopInstalls palloc root attributes n pa va m) :
    r ∈ mmapLoopInstalls palloc root attributes (n + k) pa va m := by
  induction n generalizing pa va m with
  | zero => exact absurd h not_mem_nil
  | succ n ih =>
    rw [Nat.succ_add, mmapLoopInstalls, mem_append]
    rw [mmapLoopInstalls, mem_append] at h
    exact h.imp_right ih

/-- `valloc` and `palloc` agree on null just if there is none. `mmap` keeps to tables and to pages it
was given, whatever the data and what it maps, just if it meets no large page and the allocator has
as many pages as there are tables missing. -/
theorem exhaustion_reported_iff (hA : Allocator own supplied palloc)
    (hst : Stocks own palloc stock) (hg : Hierarchy plain root m) (hu : Unused own stock root m)
    (va npages : UInt64)
    (hdata : ∀ i < npages.toNat, DataBehind own supplied root m (pathTo (pageAt va.toNat i)))
    {s s' : Pmm} {n p : Nat} (hp : s.palloc n = some (p, s')) :
    (∃ v, valloc s n = some (v, s') ∧ ((v = 0 ↔ p = 0) ↔ p ≠ 0 ∧ p ≠ 2 ^ 47)) ∧
      ((∀ m', OtherData own supplied root m m' → ∀ pa attributes : UInt64,
        Reported own root m'
          (mmapInstalls palloc root m' pa.toNat va.toNat npages.toNat attributes.toNat)
          (Call.exec palloc root m' (.mmap pa va npages attributes))) ↔
        (∀ i < npages.toNat, Clear plain root m (pathTo (pageAt va.toNat i))) ∧
          (missing root m (tablePaths npages.toNat va.toNat)).card ≤ (stock m).length) := by
  refine ⟨⟨paToVa p, valloc_eq hp, ?_⟩, ?_, ?_⟩
  · rw [paToVa_eq_zero]
    omega
  · intro h
    have hclear : ∀ i < npages.toNat, Clear plain root m (pathTo (pageAt va.toNat i)) := by
      by_contra hlarge
      obtain ⟨m', n, hm, hn, hfirst, hdisturbs⟩ := exists_disturbed hA hg va.toNat_lt hdata hlarge
      have hrep := h m' hm 0 1
      obtain ⟨m1, he, hx, -⟩ := @mmapLoop_filled own supplied stock root palloc m' hst
        (hm.sameBy.hierarchy hg) (hu.otherData hst hm).2 1 n 0 0 0 va.toNat hfirst
        (Or.inl fun r hr => (hrep.installed r (by
          have hadd := @mem_mmapLoopInstalls_add root palloc m' 1 n (npages.toNat - n) 0 va.toNat r hr
          rw [Nat.add_sub_cancel' (Nat.le_of_lt hn)] at hadd
          exact hadd)).1)
        (fun r hr => by
          obtain ⟨m2, rfl⟩ := mem_mmapLoopInstalls hr
          exact hA.supplied m2)
      obtain ⟨x, hdata, hne⟩ := hdisturbs _ (by rw [mmap, he]; exact hx)
      rcases hrep.bytes x hne with hw | hw | ⟨r, hr, hin⟩
      · exact hdata.1 hw
      · exact hdata.2.1 hw
      · obtain ⟨m2, rfl⟩ := mem_mmapLoopInstalls hr
        exact hdata.2.2 ⟨_, hA.supplied m2, hin⟩
    refine ⟨hclear, ?_⟩
    have hrep := h m (fun _ hne => absurd rfl hne) 0 1
    obtain ⟨_, -, -, hf, -⟩ := @mmapLoop_filled own supplied stock root palloc m hst hg hu 1
      npages.toNat 0 0 0 va.toNat hclear (Or.inl fun r hr => (hrep.installed r hr).1) fun r hr => by
        obtain ⟨m2, rfl⟩ := mem_mmapLoopInstalls hr
        exact hA.supplied m2
    exact hf.room
  · rintro ⟨hclear, hroom⟩ m' hm pa attributes
    obtain ⟨hstock, hu'⟩ := hu.otherData hst hm
    rw [← hstock, ← hm.missing_eq] at hroom
    exact mmap_reported hst (hm.sameBy.hierarchy hg) hu' _ _
      (fun i hi => hm.sameBy.clear (by rfl) (hclear i hi)) hroom

end Reports

/-! ## A counter -/

def fourPages : List Nat := [0, 1, 2, 3].map fun n => 2 ^ 32 + n * 0x1000

/-- Those that were not handed out yet. Their number is in memory. -/
def restOf (m : Mem) : List Nat := fourPages.drop (load m (paToVa 0x2000) 8)

def handOut (m : Mem) : Nat × Mem :=
  ((restOf m).headD 0, store m (paToVa 0x2000) 8 (min (load m (paToVa 0x2000) 8 + 1) 4))

def IsCount (x : Nat) : Prop := paToVa 0x2000 ≤ x ∧ x < paToVa 0x2000 + 8

theorem handOut_stocks : Stocks IsCount handOut restOf := by
  refine ⟨?_, ?_, fun m => by rw [handOut], ?_, ?_, ?_⟩
  · intro m x hne
    by_contra hout
    unfold IsCount at hout
    exact hne (store_outside 8 m _ _ x (by omega))
  · intro m m' h
    unfold restOf
    rw [load_congr 8 _ fun x h1 h2 => h x ⟨h1, h2⟩]
  · intro m
    rw [restOf, handOut, load_store_same 8, Nat.mod_eq_of_lt (by omega), restOf, tail_drop]
    rcases Nat.le_total (load m (paToVa 0x2000) 8 + 1) 4 with h | h
    · rw [Nat.min_eq_left h]
    · rw [Nat.min_eq_right h, drop_eq_nil_of_le (by decide : fourPages.length ≤ 4),
        drop_eq_nil_of_le h]
  · intro m
    exact (by decide : fourPages.Nodup).sublist (drop_sublist _ _)
  · intro m page hpage
    have hall : ∀ page ∈ fourPages, page ≠ 0 ∧ page < 2 ^ 47 ∧ page % 0x1000 = 0 ∧
        paToVa 0x2000 + 8 ≤ paToVa page := by decide
    obtain ⟨h0, hlow, ha, habove⟩ := hall page (mem_of_mem_drop hpage)
    refine ⟨h0, hlow, ha, fun x h1 _ hx => ?_⟩
    have := hx.2
    omega

theorem exhaustion_reported_iff_handOut :
    Reported IsCount (paToVa 0x1000) (fun _ => 0)
      (mmapInstalls handOut (paToVa 0x1000) (fun _ => 0) (UInt64.toNat 0x5000)
        (UInt64.toNat 0x400000) (UInt64.toNat 2) (UInt64.toNat 3))
      (Call.exec handOut (paToVa 0x1000) (fun _ => 0) (.mmap 0x5000 0x400000 2 3)) := by
  have hA : Allocator IsCount (fun t => t = paToVa 0 ∨ paToVa (2 ^ 32) ≤ t) handOut := by
    have hpage : ∀ m, (handOut m).1 = 0 ∨ (handOut m).1 ∈ fourPages := by
      intro m
      cases hs : restOf m with
      | nil => exact .inl (by rw [handOut, hs]; rfl)
      | cons page tail =>
        have hmem : page ∈ restOf m := by rw [hs]; exact mem_cons_self
        exact .inr (by rw [handOut, hs]; exact mem_of_mem_drop hmem)
    have hall : ∀ page ∈ 0 :: fourPages,
        (paToVa page = paToVa 0 ∨ paToVa (2 ^ 32) ≤ paToVa page) ∧ page % 0x1000 = 0 := by decide
    exact ⟨handOut_stocks.writes, fun m => (hall _ (mem_cons.mpr (hpage m))).1,
      fun m => (hall _ (mem_cons.mpr (hpage m))).2⟩
  have hu : Unused IsCount restOf (paToVa 0x1000) fun _ => 0 := by
    have hroot : ∀ page ∈ fourPages, paToVa 0x1000 ≠ paToVa page := by decide
    refine ⟨?_, ?_⟩
    · rintro x ⟨q, t, -, ht, -, h2⟩ hx
      rw [tableBy_empty leads_plain ht] at ht
      have hlow : paToVa 0x1000 + 0x1000 ≤ paToVa 0x2000 := by decide
      have := hx.1
      rw [← Option.some.inj ht] at h2
      omega
    · intro page hpage q _ hq
      rw [tableBy_empty leads_plain hq] at hq
      exact hroot page (mem_of_mem_drop hpage) (Option.some.inj hq)
  have hnull : (statics fun _ => 0).palloc 1 = some (0, statics fun _ => 0) := rfl
  have hroom : (missing (paToVa 0x1000) (fun _ => 0) (tablePaths 2 0x400000)).card ≤
      (restOf fun _ => 0).length := by
    refine (Finset.card_filter_le _ _).trans ?_
    rw [restOf, load_zeros]
    decide
  have hdata : ∀ path, DataBehind IsCount (fun t => t = paToVa 0 ∨ paToVa (2 ^ 32) ≤ t)
      (paToVa 0x1000) (fun _ => 0) path := by
    intro path q t j _ _ hpres
    rw [absent_empty] at hpres
    exact absurd hpres (by simp)
  exact (exhaustion_reported_iff hA handOut_stocks (hierarchy_empty leads_plain) hu 0x400000 2
    (fun i _ => hdata _) hnull).2.mpr ⟨fun i _ => clear_empty _ _ _, hroom⟩ _
    (fun x hx => absurd rfl hx) 0x5000 3

/-- An allocator that has no page left. -/
def noPages (m : Mem) : Nat × Mem := (0, m)

/-- Zeros, but for a byte of physical page zero. -/
def lowByte : Mem := Function.update (fun _ => 0) (paToVa 0x800) 7

theorem ensureInstalls_lowByte :
    ensureInstalls noPages lowByte (paToVa 0x1000) (getPml4Index 0x400000) = [(0, 3)] := by
  decide

/-- `valloc` returns the start of the direct map for null. The first table that `mmap` installs is
null as well, and before that it clears physical page zero. -/
theorem null_installed :
    (statics lowByte).palloc 1 = some (0, statics lowByte) ∧
      valloc (statics lowByte) 1 = some (0xFFFF800000000000, statics lowByte) ∧
      (ensureTableExists noPages lowByte (paToVa 0x1000) 0).2 (paToVa 0x800) = 0 ∧
      ¬ Reported (fun _ => False) (paToVa 0x1000) lowByte
        (mmapInstalls noPages (paToVa 0x1000) lowByte 0x5000 0x400000 1 3)
        (mmap noPages (paToVa 0x1000) lowByte 0x5000 0x400000 1 3).2 := by
  refine ⟨rfl, rfl, ?_, ?_⟩
  · rw [ensureTableExists, if_neg (by decide)]
    simp only [vallocPage, noPages]
    rw [setEntry, store_outside 8 _ _ _ _ (by decide), memset_apply, if_pos (by decide)]
  · intro h
    have hmem : (0, 3) ∈ mmapInstalls noPages (paToVa 0x1000) lowByte 0x5000 0x400000 1 3 := by
      rw [mmapInstalls, mmapLoopInstalls, mmapPageInstalls, ensureInstalls_lowByte]
      exact mem_cons_self
    exact (h.installed _ hmem).1 rfl

end Terrakernel.Vmm
