import Terrakernel.Lib.Paths
import Terrakernel.Vmm.Code

/-!
# Hierarchies of tables

A table is reached from the PML4 along a path of indices. Which entries lead to a
further table is left open: the code follows every present entry, the processor
stops at large pages. As long as no table is reached along two paths, a store to
one entry changes what is found along one path only.
-/

namespace Terrakernel.Vmm

open Memory Mem Paths Option
open List hiding Mem

/-- The entry to take in each table on the way. -/
abbrev Route := List (Fin 512)

variable {p q rest : Route} {pa t v x u w : Nat} {m : Mem} {i : Fin 512}

/-! ## Entries -/

theorem present_iff (entry : Nat) : present entry = true ↔ entry % 2 = 1 := by
  unfold present
  rw [pagePresent, Nat.and_one_is_mod]
  simp

theorem pageOf_mod (x : Nat) : pageOf x % 0x1000 = 0 := Nat.mul_mod_left _ _

theorem pageOf_le (x : Nat) : pageOf x ≤ x := Nat.div_mul_le_self x _

theorem new_entry {page : Nat} (h : page % 0x1000 = 0) :
    page ||| pagePresent ||| pageRw = page + 3 := by
  rw [Nat.or_assoc, show pagePresent ||| pageRw = 3 from rfl]
  obtain ⟨k, rfl⟩ : ∃ k, page = 2 ^ 12 * k := ⟨page / 2 ^ 12, by omega⟩
  rw [← Nat.two_pow_add_eq_or_of_lt (by decide)]

/-- A table in the direct map. -/
def IsTable (t : Nat) : Prop := ∃ page, page < 2 ^ 47 ∧ page % 0x1000 = 0 ∧ t = page + directBase

theorem isTable_paToVa {page : Nat} (h : page < 2 ^ 47) (ha : page % 0x1000 = 0) :
    IsTable (paToVa page) := ⟨page, h, ha, paToVa_low h⟩

theorem isTable_tableOf {entry : Nat} (h : entry < 2 ^ 47) : IsTable (tableOf entry) :=
  isTable_paToVa (lt_of_le_of_lt (pageOf_le entry) h) (pageOf_mod entry)

theorem IsTable.apart (ht : IsTable t) (hu : IsTable u) (h : t ≠ u) :
    t + 0x1000 ≤ u ∨ u + 0x1000 ≤ t := by
  obtain ⟨a, -, ha, rfl⟩ := ht
  obtain ⟨b, -, hb, rfl⟩ := hu
  omega

theorem getEntry_congr {m' : Mem} {i : Nat} (hi : i < 512)
    (h : ∀ x, t ≤ x → x < t + 0x1000 → m' x = m x) : getEntry m' t i = getEntry m t i := by
  apply load_congr
  intro x h1 h2
  exact h x (by omega) (by omega)

theorem getEntry_zeros {i : Nat} (hi : i < 512) (h : ∀ x, t ≤ x → x < t + 0x1000 → m x = 0) :
    getEntry m t i = 0 := by
  rw [getEntry_congr hi h, getEntry]
  exact load_zeros _ _

theorem eight_bytes : (256 : Nat) ^ 8 = word := by decide

theorem getEntry_setEntry_self (m : Mem) (t i : Nat) (hv : v < word) :
    getEntry (setEntry m t i v) t i = v := by
  unfold getEntry setEntry
  rw [load_store_same, eight_bytes, Nat.mod_eq_of_lt hv]

theorem getEntry_setEntry_other {i j : Nat} (v : Nat) (ht : IsTable t) (hu : IsTable u)
    (hi : i < 512) (hj : j < 512) (h : ¬ (t = u ∧ i = j)) :
    getEntry (setEntry m u j v) t i = getEntry m t i := by
  unfold getEntry setEntry
  apply load_store_apart
  by_cases htu : t = u
  · have hij : i ≠ j := fun hij => h ⟨htu, hij⟩
    omega
  · have := ht.apart hu htu
    omega

theorem getEntry_lt (m : Mem) (t i : Nat) : getEntry m t i < word := by
  have := load_lt m 8 (t + 8 * i)
  rwa [eight_bytes] at this

/-! ## Page numbers -/

abbrev numPages : Nat := 2 ^ 36

def pageNumber (va : Nat) : Nat := va / 0x1000 % numPages

def index (v : Nat) : Fin 512 := ⟨v % 512, Nat.mod_lt _ (by decide)⟩

/-- The path to the page table of page `v`. -/
def pathTo (v : Nat) : Route := [index (v / 2 ^ 27), index (v / 2 ^ 18), index (v / 2 ^ 9)]

theorem pathTo_length (v : Nat) : (pathTo v).length = 3 := rfl

/-- The path to the leaf entry of page `v`. -/
def slot (v : Nat) : Route := pathTo v ++ [index v]

theorem pathTo_inj (hv : v < numPages) (hw : w < numPages) :
    (pathTo v = pathTo w ∧ index v = index w) ↔ v = w := by
  constructor
  · rintro ⟨hp, hi⟩
    simp only [pathTo, index, List.cons.injEq, Fin.mk.injEq, and_true] at hp hi
    simp only [numPages] at *
    omega
  · rintro rfl
    exact ⟨rfl, rfl⟩

theorem slot_inj (hv : v < numPages) (hw : w < numPages) : slot v = slot w ↔ v = w := by
  rw [← pathTo_inj hv hw, slot, slot]
  constructor
  · intro h
    obtain ⟨hp, hi⟩ := append_inj h rfl
    exact ⟨hp, singleton_inj.mp hi⟩
  · rintro ⟨hp, hi⟩
    rw [hp, hi]

theorem pageNumber_lt (va : Nat) : pageNumber va < numPages := Nat.mod_lt _ (by decide)

theorem pageNumber_wrap (x : Nat) : pageNumber (x % word) = pageNumber x := by
  unfold pageNumber
  simp only [word, numPages]
  omega

/-- Page `i` of a call that starts at `va`. -/
def pageAt (va i : Nat) : Nat := pageNumber (va + i * 0x1000)

theorem step_wrap (x i : Nat) : ((x + i * 0x1000) % word + 0x1000) % word =
    (x + (i + 1) * 0x1000) % word := by
  simp only [word]
  omega

theorem leafEntry_lt (hpa : pa < word) (attributes : Nat) : leafEntry pa attributes < word := by
  unfold leafEntry
  apply Nat.or_lt_two_pow
  · exact lt_of_le_of_lt (pageOf_le pa) hpa
  · exact lt_of_le_of_lt Nat.and_le_right (by decide)

theorem and_511 (x : Nat) : x &&& 0x1FF = x % 512 := Nat.and_two_pow_sub_one_eq_mod x 9

theorem getPml4Index_eq (va : Nat) : getPml4Index va = index (pageNumber va / 2 ^ 27) := by
  rw [getPml4Index, and_511, Nat.shiftRight_eq_div_pow]
  simp only [index, pageNumber, numPages]
  omega

theorem getPdptIndex_eq (va : Nat) : getPdptIndex va = index (pageNumber va / 2 ^ 18) := by
  rw [getPdptIndex, and_511, Nat.shiftRight_eq_div_pow]
  simp only [index, pageNumber, numPages]
  omega

theorem getPdIndex_eq (va : Nat) : getPdIndex va = index (pageNumber va / 2 ^ 9) := by
  rw [getPdIndex, and_511, Nat.shiftRight_eq_div_pow]
  simp only [index, pageNumber, numPages]
  omega

theorem getPtIndex_eq (va : Nat) : getPtIndex va = index (pageNumber va) := by
  rw [getPtIndex, and_511, Nat.shiftRight_eq_div_pow]
  simp only [index, pageNumber, numPages]
  omega

/-! ## Tables -/

/-- `leads` picks the present entries that lead to a table, and those that `ensure_table_exists`
makes are among them. -/
structure Leads (leads : Nat → Bool) : Prop where
  present : ∀ e, leads e = true → present e = true
  new : ∀ page, page < 2 ^ 47 → page % 0x1000 = 0 → leads (page + 3) = true

def childBy (leads : Nat → Bool) (m : Mem) (t : Nat) (i : Fin 512) : Option Nat :=
  if leads (getEntry m t i) then some (tableOf (getEntry m t i)) else none

abbrev tableBy (leads : Nat → Bool) (root : Nat) (m : Mem) (path : Route) : Option Nat :=
  follow (childBy leads m) root path

/-- The tables under `root` are a tree in the direct map. -/
structure Hierarchy (leads : Nat → Bool) (root : Nat) (m : Mem) : Prop where
  rootTable : IsTable root
  low : ∀ p t (i : Fin 512), p.length < 3 → tableBy leads root m p = some t →
    leads (getEntry m t i) = true → getEntry m t i < 2 ^ 47
  tree : Tree 3 (childBy leads m) root

/-- `x` is a byte of one of the tables. -/
def InTable (leads : Nat → Bool) (root : Nat) (m : Mem) (x : Nat) : Prop :=
  ∃ p t, p.length ≤ 3 ∧ tableBy leads root m p = some t ∧ t ≤ x ∧ x < t + 0x1000

/-- `m'` has the same bytes in the tables of `m`. -/
def SameBy (leads : Nat → Bool) (root : Nat) (m m' : Mem) : Prop :=
  ∀ x, InTable leads root m x → m' x = m x

section Hierarchy

variable {leads : Nat → Bool} {root : Nat} {m m' : Mem}

theorem childBy_eq_some (h : childBy leads m t i = some u) :
    leads (getEntry m t i) = true ∧ tableOf (getEntry m t i) = u := by
  unfold childBy at h
  split_ifs at h with hlead
  exact ⟨hlead, some.inj h⟩

theorem Hierarchy.isTable (h : Hierarchy leads root m) (hp : p.length ≤ 3)
    (ht : tableBy leads root m p = some t) : IsTable t := by
  rcases eq_nil_or_concat p with rfl | ⟨q, i, rfl⟩
  · obtain rfl : root = t := some.inj ht
    exact h.rootTable
  · rw [concat_eq_append] at hp ht
    rw [length_append, length_singleton] at hp
    rw [tableBy, follow_snoc] at ht
    obtain ⟨u, hu, hc⟩ := bind_eq_some_iff.mp ht
    obtain ⟨hlead, rfl⟩ := childBy_eq_some hc
    exact isTable_tableOf (h.low q u i (by omega) hu hlead)

theorem SameBy.getEntry_eq (h : SameBy leads root m m') (hp : p.length ≤ 3)
    (ht : tableBy leads root m p = some t) (i : Fin 512) : getEntry m' t i = getEntry m t i :=
  getEntry_congr i.isLt fun x h1 h2 => h x ⟨p, t, hp, ht, h1, h2⟩

theorem tableBy_congr (h : ∀ p (i : Fin 512) t, p ++ [i] <+: q → tableBy leads root m p = some t →
      getEntry m' t i = getEntry m t i) : tableBy leads root m' q = tableBy leads root m q := by
  apply follow_congr
  intro p i t hpre ht
  unfold childBy
  rw [h p i t hpre ht]

theorem SameBy.tableBy_eq (h : SameBy leads root m m') (hq : q.length ≤ 3) :
    tableBy leads root m' q = tableBy leads root m q := by
  apply tableBy_congr
  intro p i t hpre ht
  have := length_lt_of_snoc hpre
  exact h.getEntry_eq (by omega) ht i

theorem SameBy.inTable (h : SameBy leads root m m') (hx : InTable leads root m' x) :
    InTable leads root m x := by
  obtain ⟨p, t, hlen, ht, hlo, hhi⟩ := hx
  exact ⟨p, t, hlen, (h.tableBy_eq hlen).symm.trans ht, hlo, hhi⟩

theorem SameBy.hierarchy (h : SameBy leads root m m') (hg : Hierarchy leads root m) :
    Hierarchy leads root m' := by
  refine ⟨hg.rootTable, ?_, ?_⟩
  · intro p t i hp ht
    rw [h.tableBy_eq (by omega)] at ht
    rw [h.getEntry_eq (by omega) ht i]
    exact hg.low p t i hp ht
  · intro p q t hp hq hpt hqt
    rw [← tableBy, h.tableBy_eq hp] at hpt
    rw [← tableBy, h.tableBy_eq hq] at hqt
    exact hg.tree p q t hp hq hpt hqt

theorem setEntry_other (hg : Hierarchy leads root m) (hs : SameBy leads root m m') {j : Fin 512}
    (hp : p.length ≤ 3) (ht : tableBy leads root m p = some t) (hq : q.length ≤ 3)
    (hu : tableBy leads root m q = some u) (h : ¬ (q = p ∧ j = i)) (v : Nat) :
    getEntry (setEntry m' t i v) u j = getEntry m u j := by
  rw [getEntry_setEntry_other v (hg.isTable hq hu) (hg.isTable hp ht) j.isLt i.isLt,
    hs.getEntry_eq hq hu j]
  rintro ⟨rfl, hij⟩
  exact h ⟨hg.tree q p u hq hp hu ht, Fin.ext hij⟩

end Hierarchy

/-! ## Walks -/

/-- The entries that are read along a path, up to the first one that leads to no table. There are
none if that one is not present. -/
def walkBy (leads : Nat → Bool) (m : Mem) : Nat → Route → Option (List Nat)
  | _, [] => some []
  | t, i :: rest =>
    if !present (getEntry m t i) then none
    else if leads (getEntry m t i) then
      (walkBy leads m (tableOf (getEntry m t i)) rest).map (getEntry m t i :: ·)
    else some [getEntry m t i]

section Walks

variable {leads : Nat → Bool} {m m' : Mem}

theorem walkBy_congr {path : Route}
    (h : ∀ p (i : Fin 512) rest u, path = p ++ i :: rest → tableBy leads t m p = some u →
      getEntry m' u i = getEntry m u i) : walkBy leads m' t path = walkBy leads m t path := by
  induction path generalizing t with
  | nil => rfl
  | cons i rest ih =>
    have he := h [] i rest t rfl rfl
    unfold walkBy
    rw [he]
    by_cases hlead : leads (getEntry m t i) = true
    · have hrest : walkBy leads m' (tableOf (getEntry m t i)) rest =
          walkBy leads m (tableOf (getEntry m t i)) rest := by
        apply ih
        intro p j r u hpath hu
        refine h (i :: p) j r u (by rw [hpath]; rfl) ?_
        rw [tableBy, follow_cons, childBy, if_pos hlead]
        exact hu
      rw [hrest]
    · rw [if_neg hlead, if_neg hlead]

theorem walkBy_leads {leads' : Nat → Bool} {path : Route}
    (h : ∀ p (i : Fin 512) rest u, path = p ++ i :: rest → rest ≠ [] → tableBy leads t m p = some u →
      present (getEntry m u i) = true → leads' (getEntry m u i) = leads (getEntry m u i)) :
    walkBy leads' m t path = walkBy leads m t path := by
  induction path generalizing t with
  | nil => rfl
  | cons i rest ih =>
    unfold walkBy
    by_cases hpres : present (getEntry m t i) = true
    · simp only [hpres, Bool.not_true, Bool.false_eq_true, if_false]
      cases rest with
      | nil => simp only [walkBy, map_some, ite_self]
      | cons j rest =>
        rw [h [] i (j :: rest) t rfl (by simp) rfl hpres]
        by_cases hlead : leads (getEntry m t i) = true
        · have hrest : walkBy leads' m (tableOf (getEntry m t i)) (j :: rest) =
              walkBy leads m (tableOf (getEntry m t i)) (j :: rest) := by
            apply ih
            intro p k r u hpath hr hu
            refine h (i :: p) k r u (by rw [hpath]; rfl) hr ?_
            rw [tableBy, follow_cons, childBy, if_pos hlead]
            exact hu
          rw [hrest]
        · rw [if_neg hlead, if_neg hlead]
    · rw [Bool.not_eq_true] at hpres
      rw [hpres]
      rfl

theorem walkBy_absent (hl : Leads leads) (hu : tableBy leads t m p = some u)
    (habsent : present (getEntry m u i) = false) : walkBy leads m t (p ++ i :: rest) = none := by
  induction p generalizing t with
  | nil =>
    obtain rfl : t = u := some.inj hu
    rw [nil_append, walkBy, habsent]
    rfl
  | cons j p ih =>
    rw [tableBy, follow_cons] at hu
    obtain ⟨v, hv, hrest⟩ := bind_eq_some_iff.mp hu
    obtain ⟨hlead, rfl⟩ := childBy_eq_some hv
    rw [cons_append, walkBy, hl.present _ hlead, if_neg (by simp), if_pos hlead, ih hrest]
    rfl

theorem walkBy_none (hn : tableBy present t m p = none) :
    walkBy present m t (p ++ rest) = none := by
  induction p generalizing t with
  | nil => exact absurd hn (by simp [tableBy])
  | cons j p ih =>
    rw [cons_append, walkBy]
    cases hpres : present (getEntry m t j) with
    | false => rfl
    | true =>
      rw [tableBy, follow_cons, childBy, hpres] at hn
      simp only [Bool.not_true, Bool.false_eq_true, if_false, if_true, ih hn, map_none]

theorem walkBy_table (hl : Leads leads) (hu : tableBy leads t m p = some u)
    (hpres : present (getEntry m u i) = true) :
    ∃ es, walkBy leads m t (p ++ [i]) = some (es ++ [getEntry m u i]) ∧ es.length = p.length ∧
      ∀ e ∈ es, leads e = true ∧ ∃ q v, ∃ j : Fin 512, q ++ [j] <+: p ∧
        tableBy leads t m q = some v ∧ e = getEntry m v j := by
  induction p generalizing t with
  | nil =>
    rw [tableBy, follow_nil, some.injEq] at hu
    subst hu
    refine ⟨[], ?_, rfl, by simp⟩
    simp only [nil_append, walkBy, hpres, Bool.not_true, Bool.false_eq_true, if_false,
      map_some, ite_self]
  | cons j p ih =>
    rw [tableBy, follow_cons] at hu
    obtain ⟨v, hv, hrest⟩ := bind_eq_some_iff.mp hu
    obtain ⟨hlead, rfl⟩ := childBy_eq_some hv
    obtain ⟨es, hes, hlen, hall⟩ := ih hrest
    refine ⟨getEntry m t j :: es, ?_, by simp [hlen], ?_⟩
    · rw [cons_append, walkBy, hl.present _ hlead, if_neg (by simp), if_pos hlead, hes,
        map_some, cons_append]
    · rw [forall_mem_cons]
      refine ⟨⟨hlead, [], t, j, ⟨p, rfl⟩, rfl, rfl⟩, ?_⟩
      intro e he
      obtain ⟨hle, q, w, k, hq, hw, hentry⟩ := hall e he
      refine ⟨hle, j :: q, w, k, cons_prefix_cons.mpr ⟨rfl, hq⟩, ?_, hentry⟩
      rw [tableBy, follow_cons, hv]
      exact hw

end Walks

/-! ## What a change may touch -/

/-- From `m` to `m'` tables were added and the leaf entries in `changed` were set. Bytes changed in
tables, in pages that were `supplied` for new tables, and in the allocator's `own` memory. -/
structure Grows (leads : Nat → Bool) (own supplied : Nat → Prop) (root : Nat)
    (changed : Route → Prop) (m m' : Mem) : Prop where
  hierarchy : Hierarchy leads root m'
  tables : ∀ q t, q.length ≤ 3 → tableBy leads root m q = some t → tableBy leads root m' q = some t
  fresh : ∀ q t, q.length ≤ 3 → tableBy leads root m' q = some t →
    tableBy leads root m q = some t ∨ tableBy leads root m q = none ∧ supplied t
  stays : ∀ q t (j : Fin 512), tableBy leads root m q = some t →
    q.length = 3 ∧ ¬ changed (q ++ [j]) ∨ q.length < 3 ∧ present (getEntry m t j) = true →
    getEntry m' t j = getEntry m t j
  zero : ∀ q t (j : Fin 512), q.length = 3 → ¬ changed (q ++ [j]) → tableBy leads root m q = none →
    tableBy leads root m' q = some t → getEntry m' t j = 0
  made : ∀ q t (j : Fin 512), q.length < 3 → tableBy leads root m' q = some t →
    present (getEntry m' t j) = true →
    tableBy leads root m q = some t ∧ getEntry m' t j = getEntry m t j ∨
      ∃ page, page < 2 ^ 47 ∧ page % 0x1000 = 0 ∧ getEntry m' t j = page + 3
  walks : ∀ path, path.length = 4 → ¬ changed path →
    walkBy leads m' root path = walkBy leads m root path
  bytes : ∀ x, m' x ≠ m x → own x ∨ InTable leads root m x ∨ ∃ t, supplied t ∧ t ≤ x ∧ x < t + 0x1000

section Grows

variable {leads : Nat → Bool} {own supplied : Nat → Prop} {root : Nat} {m m1 m2 : Mem}
  {changed changed' : Route → Prop}

theorem Grows.refl (hg : Hierarchy leads root m) :
    Grows leads own supplied root (fun _ => False) m m :=
  ⟨hg, fun _ _ _ h => h, fun _ _ _ h => .inl h, fun _ _ _ _ _ => rfl,
    fun q t _ _ _ hn hs => by rw [hn] at hs; exact absurd hs (by simp),
    fun _ _ _ _ h _ => .inl ⟨h, rfl⟩, fun _ _ _ => rfl, fun _ h => absurd rfl h⟩

theorem SameBy.grows (hg : Hierarchy leads root m) (h : SameBy leads root m m1)
    (hown : ∀ x, m1 x ≠ m x → own x) : Grows leads own supplied root (fun _ => False) m m1 := by
  have htable := fun {q : Route} (hq : q.length ≤ 3) => h.tableBy_eq hq
  refine ⟨h.hierarchy hg, ?_, ?_, ?_, ?_, ?_, ?_, fun x hx => .inl (hown x hx)⟩
  · exact fun q t hq ht => (htable hq).trans ht
  · exact fun q t hq ht => .inl ((htable hq).symm.trans ht)
  · exact fun q t j ht hj => h.getEntry_eq (by omega) ht j
  · intro q t j hlen _ hn ht
    rw [htable (le_of_eq hlen), hn] at ht
    exact absurd ht (by simp)
  · intro q t j hq ht _
    rw [htable (by omega)] at ht
    exact .inl ⟨ht, h.getEntry_eq (by omega) ht j⟩
  · intro path hlen _
    apply walkBy_congr
    rintro p i rest u rfl hu
    rw [length_append, length_cons] at hlen
    exact h.getEntry_eq (by omega) hu i

theorem Grows.trans (h1 : Grows leads own supplied root changed m m1)
    (h2 : Grows leads own supplied root changed' m1 m2) :
    Grows leads own supplied root (fun s => changed s ∨ changed' s) m m2 := by
  refine ⟨h2.hierarchy, ?_, ?_, ?_, ?_, ?_, ?_, ?_⟩
  · exact fun q t hq ht => h2.tables q t hq (h1.tables q t hq ht)
  · intro q t hq ht
    rcases h2.fresh q t hq ht with ht1 | ⟨hn1, hsup⟩
    · exact h1.fresh q t hq ht1
    · right
      refine ⟨?_, hsup⟩
      cases h0 : tableBy leads root m q with
      | none => rfl
      | some u =>
        rw [h1.tables q u hq h0] at hn1
        exact absurd hn1 (by simp)
  · intro q t j ht hj
    have hq : q.length ≤ 3 := by omega
    have ht1 := h1.tables q t hq ht
    rcases hj with ⟨hlen, hno⟩ | ⟨hlen, hpres⟩
    · rw [not_or] at hno
      rw [h2.stays q t j ht1 (Or.inl ⟨hlen, hno.2⟩)]
      exact h1.stays q t j ht (Or.inl ⟨hlen, hno.1⟩)
    · have he1 := h1.stays q t j ht (Or.inr ⟨hlen, hpres⟩)
      rw [← he1] at hpres
      exact (h2.stays q t j ht1 (Or.inr ⟨hlen, hpres⟩)).trans he1
  · intro q t j hlen hno hn ht
    rw [not_or] at hno
    cases h0 : tableBy leads root m1 q with
    | none => exact h2.zero q t j hlen hno.2 h0 ht
    | some u =>
      have hu := h2.tables q u (le_of_eq hlen) h0
      rw [ht] at hu
      obtain rfl := some.inj hu
      rw [h2.stays q t j h0 (Or.inl ⟨hlen, hno.2⟩)]
      exact h1.zero q t j hlen hno.1 hn h0
  · intro q t j hq ht hpres
    rcases h2.made q t j hq ht hpres with ⟨ht1, he⟩ | hnew
    · rw [he] at hpres
      rcases h1.made q t j hq ht1 hpres with ⟨ht0, he0⟩ | hnew
      · exact .inl ⟨ht0, he.trans he0⟩
      · right
        rw [he]
        exact hnew
    · exact .inr hnew
  · intro path hlen hno
    rw [not_or] at hno
    exact (h2.walks path hlen hno.2).trans (h1.walks path hlen hno.1)
  · intro x hx
    by_cases h : m1 x = m x
    · rw [← h] at hx
      rcases h2.bytes x hx with ho | ⟨q, t, hq, ht, hlo, hhi⟩ | hs
      · exact .inl ho
      · rcases h1.fresh q t hq ht with ht0 | ⟨-, hsup⟩
        · exact .inr (Or.inl ⟨q, t, hq, ht0, hlo, hhi⟩)
        · exact .inr (Or.inr ⟨t, hsup, hlo, hhi⟩)
      · exact .inr (Or.inr hs)
    · exact h1.bytes x h

theorem Grows.weaken (h : Grows leads own supplied root changed m m1)
    (hsub : ∀ s, changed s → changed' s) : Grows leads own supplied root changed' m m1 := by
  refine ⟨h.hierarchy, h.tables, h.fresh, ?_, ?_, h.made, ?_, h.bytes⟩
  · intro q t j ht hj
    exact h.stays q t j ht (hj.imp_left fun ⟨hlen, hno⟩ => ⟨hlen, fun hc => hno (hsub _ hc)⟩)
  · exact fun q t j hlen hno => h.zero q t j hlen fun hc => hno (hsub _ hc)
  · exact fun path hlen hno => h.walks path hlen fun hc => hno (hsub _ hc)

end Grows

section SetLeaf

variable {leads : Nat → Bool} {own supplied : Nat → Prop} {root : Nat} {m : Mem}
  (hg : Hierarchy leads root m) {p : Route} {t : Nat} (hp : p.length = 3)
  (ht : tableBy leads root m p = some t) (i : Fin 512) (v : Nat)

include hg hp ht

theorem setLeaf_entry {q : Route} {j : Fin 512} (hq : q.length ≤ 3)
    (hu : tableBy leads root m q = some u) (h : ¬ (q = p ∧ j = i)) :
    getEntry (setEntry m t i v) u j = getEntry m u j :=
  setEntry_other hg (fun _ _ => rfl) (le_of_eq hp) ht hq hu h v

theorem setLeaf_upper {q : Route} (hq : q.length < 3)
    (hu : tableBy leads root m q = some u) (j : Fin 512) :
    getEntry (setEntry m t i v) u j = getEntry m u j := by
  apply setLeaf_entry hg hp ht i v (Nat.le_of_lt hq) hu
  rintro ⟨rfl, -⟩
  omega

theorem setLeaf_tableBy {q : Route} (hq : q.length ≤ 3) :
    tableBy leads root (setEntry m t i v) q = tableBy leads root m q := by
  apply tableBy_congr
  intro r j u hpre hu
  have := length_lt_of_snoc hpre
  exact setLeaf_upper hg hp ht i v (by omega) hu j

theorem setLeaf_grows :
    Grows leads own supplied root (fun s => s = p ++ [i]) m (setEntry m t i v) := by
  have htable := fun {q : Route} (hq : q.length ≤ 3) => setLeaf_tableBy hg hp ht i v hq
  refine ⟨⟨hg.rootTable, ?_, ?_⟩, ?_, ?_, ?_, ?_, ?_, ?_, ?_⟩
  · intro q u j hq hu hlead
    rw [htable (by omega)] at hu
    rw [setLeaf_upper hg hp ht i v hq hu j] at hlead ⊢
    exact hg.low q u j hq hu hlead
  · intro q r u hq hr hqu hru
    rw [← tableBy, htable hq] at hqu
    rw [← tableBy, htable hr] at hru
    exact hg.tree q r u hq hr hqu hru
  · exact fun q u hq hu => (htable hq).trans hu
  · exact fun q u hq hu => .inl ((htable hq).symm.trans hu)
  · rintro q u j hu (⟨hlen, hno⟩ | ⟨hlen, -⟩)
    · apply setLeaf_entry hg hp ht i v (le_of_eq hlen) hu
      rintro ⟨rfl, rfl⟩
      exact hno rfl
    · exact setLeaf_upper hg hp ht i v hlen hu j
  · intro q u j hlen _ hn hu
    rw [htable (le_of_eq hlen), hn] at hu
    exact absurd hu (by simp)
  · intro q u j hq hu _
    rw [htable (by omega)] at hu
    exact .inl ⟨hu, setLeaf_upper hg hp ht i v hq hu j⟩
  · intro path hlen hno
    apply walkBy_congr
    rintro q j rest u rfl hu
    rw [length_append, length_cons] at hlen
    apply setLeaf_entry hg hp ht i v (by omega) hu
    -- Only the last entry of a walk of four is in a leaf table.
    rintro ⟨rfl, rfl⟩
    obtain rfl : rest = [] := eq_nil_of_length_eq_zero (by omega)
    exact hno rfl
  · intro x hx
    refine .inr (Or.inl ⟨p, t, le_of_eq hp, ht, ?_⟩)
    have := i.isLt
    by_contra hout
    apply hx
    exact store_outside 8 m _ v x (by omega)

end SetLeaf

/-! ## A new table -/

/-- What an allocator may do for a new table: it returns a page that is not a table yet, and writes
only to memory of its own. -/
structure Supply (leads : Nat → Bool) (own supplied : Nat → Prop) (root : Nat) (m : Mem)
    (page : Nat) (m' : Mem) : Prop where
  low : page < 2 ^ 47
  aligned : page % 0x1000 = 0
  fresh : ∀ p, p.length ≤ 3 → tableBy leads root m p ≠ some (paToVa page)
  same : SameBy leads root m m'
  own : ∀ x, m' x ≠ m x → own x
  supplied : supplied (paToVa page)

theorem getEntry_memset (m : Mem) (t : Nat) (j : Fin 512) :
    getEntry (memset m t 0 0x1000) t j = 0 := by
  apply getEntry_zeros j.isLt
  intro x h1 h2
  rw [memset_apply, if_pos ⟨h1, h2⟩]

section NewTable

variable {leads : Nat → Bool} {own supplied : Nat → Prop} {root : Nat} {m m' : Mem} {page : Nat}
  (hl : Leads leads) (hg : Hierarchy leads root m) (hs : Supply leads own supplied root m page m')

/-- The memory with the new table linked to entry `i` of table `t`. -/
def linkTable (m' : Mem) (page t : Nat) (i : Fin 512) : Mem :=
  setEntry (memset m' (paToVa page) 0 0x1000) t i (page + 3)

theorem linkTable_entry {m' : Mem} {page : Nat} (h : page < 2 ^ 47) (t : Nat) (i : Fin 512) :
    getEntry (linkTable m' page t i) t i = page + 3 :=
  getEntry_setEntry_self _ t i (by simp only [word]; omega)

theorem linkTable_bytes (hs : Supply leads own supplied root m page m') (hp : p.length < 3)
    (ht : tableBy leads root m p = some t) (i : Fin 512) (hx : linkTable m' page t i x ≠ m x) :
    own x ∨ InTable leads root m x ∨ ∃ u, supplied u ∧ u ≤ x ∧ x < u + 0x1000 := by
  have hi := i.isLt
  by_cases hslot : t + 8 * i ≤ x ∧ x < t + 8 * i + 8
  · exact .inr (Or.inl ⟨p, t, Nat.le_of_lt hp, ht, by omega, by omega⟩)
  · rw [linkTable, setEntry, store_outside 8 _ _ _ x (by omega), memset_apply] at hx
    by_cases hpage : paToVa page ≤ x ∧ x < paToVa page + 0x1000
    · exact .inr (Or.inr ⟨paToVa page, hs.supplied, hpage⟩)
    · rw [if_neg hpage] at hx
      exact .inl (hs.own x hx)

include hg hs

theorem Supply.sameBy_memset : SameBy leads root m (memset m' (paToVa page) 0 0x1000) := by
  rintro x ⟨q, u, hq, hu, h1, h2⟩
  have hne : u ≠ paToVa page := by
    rintro rfl
    exact hs.fresh q hq hu
  have := (hg.isTable hq hu).apart (isTable_paToVa hs.low hs.aligned) hne
  rw [memset_apply, if_neg (by omega)]
  exact hs.same x ⟨q, u, hq, hu, h1, h2⟩

variable {p : Route} {t : Nat} (hp : p.length < 3)
  (ht : tableBy leads root m p = some t) (i : Fin 512)

include hp ht

theorem linkTable_other {q : Route} {j : Fin 512} (hq : q.length ≤ 3)
    (hu : tableBy leads root m q = some u) (h : ¬ (q = p ∧ j = i)) :
    getEntry (linkTable m' page t i) u j = getEntry m u j :=
  setEntry_other hg (hs.sameBy_memset hg) (Nat.le_of_lt hp) ht hq hu h _

theorem linkTable_bare (j : Fin 512) : getEntry (linkTable m' page t i) (paToVa page) j = 0 := by
  unfold linkTable
  rw [getEntry_setEntry_other _ (isTable_paToVa hs.low hs.aligned)
    (hg.isTable (Nat.le_of_lt hp) ht) j.isLt i.isLt, getEntry_memset]
  rintro ⟨he, -⟩
  exact hs.fresh p (Nat.le_of_lt hp) (he ▸ ht)

include hl

theorem linkTable_added (hwas : present (getEntry m t i) = false) :
    Added 3 (childBy leads m) (childBy leads (linkTable m' page t i)) root p i t (paToVa page) := by
  have ha := hs.aligned
  refine ⟨ht, hp, ?_, ?_, hs.fresh, ?_, ?_⟩
  · unfold childBy
    rw [if_neg]
    intro hlead
    rw [hl.present _ hlead] at hwas
    exact absurd hwas (by simp)
  · unfold childBy
    rw [linkTable_entry hs.low, if_pos (hl.new page hs.low ha), tableOf, pageOf,
      show (page + 3) / 0x1000 * 0x1000 = page by omega]
  · intro j
    unfold childBy
    rw [linkTable_bare hg hs hp ht i j, if_neg]
    intro hlead
    exact absurd (hl.present 0 hlead) (by decide)
  · intro q j u hq hu hother
    unfold childBy
    rw [linkTable_other hg hs hp ht i (Nat.le_of_lt hq) hu hother]

theorem linkTable_present (hwas : present (getEntry m t i) = false) {q : Route}
    {j : Fin 512} (hq : q.length < 3) (hu : tableBy leads root (linkTable m' page t i) q = some u)
    (hpres : present (getEntry (linkTable m' page t i) u j) = true) :
    tableBy leads root m q = some u ∧ getEntry (linkTable m' page t i) u j = getEntry m u j ∨
      getEntry (linkTable m' page t i) u j = page + 3 := by
  have hadd := linkTable_added hl hg hs hp ht i hwas
  rcases hadd.follow_cases (Nat.le_of_lt hq) with ⟨-, hold⟩ | ⟨-, hnew⟩ | ⟨-, -, -, hnone⟩
  · have hu' : tableBy leads root m q = some u := hold.symm.trans hu
    by_cases hslot : q = p ∧ j = i
    · obtain ⟨rfl, rfl⟩ := hslot
      rw [ht] at hu'
      rw [← some.inj hu']
      exact .inr (linkTable_entry hs.low t j)
    · exact .inl ⟨hu', linkTable_other hg hs hp ht i (Nat.le_of_lt hq) hu' hslot⟩
  · rw [tableBy, hnew] at hu
    rw [← some.inj hu, linkTable_bare hg hs hp ht i j] at hpres
    exact absurd hpres (by decide)
  · rw [tableBy, hnone] at hu
    exact absurd hu (by simp)

theorem linkTable_walks (hwas : present (getEntry m t i) = false) {path : Route}
    (hlen : path.length = 4) :
    walkBy leads (linkTable m' page t i) root path = walkBy leads m root path := by
  have hadd := linkTable_added hl hg hs hp ht i hwas
  by_cases hpre : p ++ [i] <+: path
  · obtain ⟨rest, rfl⟩ := hpre
    cases rest with
    | nil =>
      rw [append_nil, length_append, length_singleton] at hlen
      omega
    | cons j rest =>
      rw [walkBy_absent hl hadd.follow_new (by rw [linkTable_bare hg hs hp ht i j]; rfl),
        append_assoc, singleton_append, walkBy_absent hl ht hwas]
  · apply walkBy_congr
    rintro q j rest u rfl hu
    rw [length_append, length_cons] at hlen
    apply linkTable_other hg hs hp ht i (by omega) hu
    rintro ⟨rfl, rfl⟩
    exact hpre ⟨rest, by simp⟩

theorem linkTable_grows (hwas : present (getEntry m t i) = false) :
    Grows leads own supplied root (fun _ => False) m (linkTable m' page t i) := by
  have hadd := linkTable_added hl hg hs hp ht i hwas
  have hpage := hs.low
  refine ⟨⟨hg.rootTable, ?_, hadd.tree hg.tree⟩, ?_, ?_, ?_, ?_, ?_, ?_, ?_⟩
  · intro q u j hq hu hlead
    rcases linkTable_present hl hg hs hp ht i hwas hq hu (hl.present _ hlead) with ⟨hu', he⟩ | he
    · rw [he] at hlead ⊢
      exact hg.low q u j hq hu' hlead
    · have := hs.aligned
      rw [he]
      omega
  · exact fun q u hq hu => hadd.follow_mono hq hu
  · intro q u hq hu
    rcases hadd.follow_cases hq with ⟨-, hold⟩ | ⟨rfl, hnew⟩ | ⟨-, -, -, hnone⟩
    · exact .inl (hold.symm.trans hu)
    · right
      have hwas' := hadd.follow_was []
      rw [append_nil] at hwas'
      rw [tableBy, hnew] at hu
      rw [← some.inj hu]
      exact ⟨hwas', hs.supplied⟩
    · rw [tableBy, hnone] at hu
      exact absurd hu (by simp)
  · intro q u j hu hj
    apply linkTable_other hg hs hp ht i (by omega) hu
    rintro ⟨rfl, rfl⟩
    rw [ht] at hu
    rw [← some.inj hu, hwas] at hj
    simp only [Bool.false_eq_true, and_false, or_false] at hj
    omega
  · intro q u j hlen _ hn hu
    rcases hadd.follow_cases (le_of_eq hlen) with ⟨-, hold⟩ | ⟨-, hnew⟩ | ⟨-, -, -, hnone⟩
    · rw [tableBy, hold, ← tableBy, hn] at hu
      exact absurd hu (by simp)
    · rw [tableBy, hnew] at hu
      rw [← some.inj hu]
      exact linkTable_bare hg hs hp ht i j
    · rw [tableBy, hnone] at hu
      exact absurd hu (by simp)
  · intro q u j hq hu hpres
    rcases linkTable_present hl hg hs hp ht i hwas hq hu hpres with hold | he
    · exact .inl hold
    · exact .inr ⟨page, hs.low, hs.aligned, he⟩
  · exact fun path hlen _ => linkTable_walks hl hg hs hp ht i hwas hlen
  · exact fun x hx => linkTable_bytes hs hp ht i hx

end NewTable

/-! ## The code -/

/-- The allocator has a page for every hierarchy that grows out of this one. -/
def Supplying (leads : Nat → Bool) (own supplied : Nat → Prop) (root : Nat)
    (palloc : Palloc) (m : Mem) : Prop :=
  ∀ changed m', Grows leads own supplied root changed m m' →
    Supply leads own supplied root m' (palloc m').1 (palloc m').2

/-- Every present entry on the path leads to a table. -/
def Clear (leads : Nat → Bool) (root : Nat) (m : Mem) (path : Route) : Prop :=
  ∀ q t (j : Fin 512), q ++ [j] <+: path → tableBy leads root m q = some t →
    present (getEntry m t j) = true → leads (getEntry m t j) = true

section Code

variable {leads : Nat → Bool} {own supplied : Nat → Prop} {root : Nat} {m m' : Mem}
  {changed : Route → Prop} {palloc : Palloc}

theorem Supplying.grows (h : Supplying leads own supplied root palloc m)
    (hx : Grows leads own supplied root changed m m') :
    Supplying leads own supplied root palloc m' :=
  fun _ m'' hx' => h _ m'' (hx.trans hx')

theorem Clear.grows (hl : Leads leads) {path : Route} (hlen : path.length ≤ 3)
    (h : Clear leads root m path) (hx : Grows leads own supplied root changed m m') :
    Clear leads root m' path := by
  intro q t j hpre ht hpres
  have := length_lt_of_snoc hpre
  rcases hx.made q t j (by omega) ht hpres with ⟨ht', he⟩ | ⟨page, hlt, ha, he⟩
  · rw [he] at hpres ⊢
    exact h q t j hpre ht' hpres
  · rw [he]
    exact hl.new page hlt ha

theorem ensureTableExists_grows (hl : Leads leads) (hg : Hierarchy leads root m)
    (hs : Supplying leads own supplied root palloc m) {p : Route} (hp : p.length < 3)
    (ht : tableBy leads root m p = some t) {i : Fin 512} (hclear : Clear leads root m (p ++ [i])) :
    ∃ u m', ensureTableExists palloc m t i = (u, m') ∧
      Grows leads own supplied root (fun _ => False) m m' ∧
      tableBy leads root m' (p ++ [i]) = some u := by
  unfold ensureTableExists
  cases hpres : present (getEntry m t i) with
  | true =>
    refine ⟨_, _, if_pos rfl, .refl hg, ?_⟩
    rw [tableBy, follow_snoc, ← tableBy, ht]
    exact if_pos (hclear p t i (prefix_refl _) ht hpres)
  | false =>
    have hs' := hs _ m (.refl hg)
    refine ⟨_, _, if_neg (by decide), ?_, ?_⟩
    all_goals simp only [vaToPa_paToVa hs'.low, new_entry hs'.aligned]
    · exact linkTable_grows hl hg hs' hp ht i hpres
    · exact (linkTable_added hl hg hs' hp ht i hpres).follow_new

theorem mmapPage_grows (hl : Leads leads) (hg : Hierarchy leads root m)
    (hs : Supplying leads own supplied root palloc m) (hpa : pa < word) (va attributes : Nat)
    (hclear : Clear leads root m (pathTo (pageNumber va))) :
    ∃ m' pt, mmapPage palloc root m pa va attributes = (leafEntry pa attributes, m') ∧
      Grows leads own supplied root (· = slot (pageNumber va)) m m' ∧
      tableBy leads root m' (pathTo (pageNumber va)) = some pt ∧
      getEntry m' pt (index (pageNumber va)) = leafEntry pa attributes := by
  have hentry := leafEntry_lt hpa attributes
  have hsub : ∀ {q : Route}, q <+: pathTo (pageNumber va) → ∀ {changed m'},
      Grows leads own supplied root changed m m' → Clear leads root m' q := by
    intro q hq changed m' hx r t j hr
    exact hclear.grows hl (by rfl) hx r t j (hr.trans hq)
  obtain ⟨pdpt, m1, he1, hx1, ht1⟩ := ensureTableExists_grows hl hg hs (p := []) (by simp) rfl
    (i := index (pageNumber va / 2 ^ 27)) (hsub ⟨_, rfl⟩ (.refl hg))
  obtain ⟨pd, m2, he2, hx2, ht2⟩ := ensureTableExists_grows hl hx1.hierarchy (hs.grows hx1)
    (by simp) ht1 (i := index (pageNumber va / 2 ^ 18)) (hsub ⟨[_], rfl⟩ hx1)
  have hx12 := hx1.trans hx2
  obtain ⟨pt, m3, he3, hx3, ht3⟩ := ensureTableExists_grows hl hx2.hierarchy (hs.grows hx12)
    (by simp) ht2 (i := index (pageNumber va / 2 ^ 9)) (hsub ⟨[], rfl⟩ hx12)
  have ht : tableBy leads root m3 (pathTo (pageNumber va)) = some pt := ht3
  have hleaf : Grows leads own supplied root (· = slot (pageNumber va)) m3 _ :=
    setLeaf_grows hx3.hierarchy (by rfl) ht (index (pageNumber va)) (leafEntry pa attributes)
  refine ⟨setEntry m3 pt (index (pageNumber va)) (leafEntry pa attributes), pt, ?_, ?_, ?_, ?_⟩
  · simp only [mmapPage, getPml4Index_eq, getPdptIndex_eq, getPdIndex_eq, getPtIndex_eq, he1, he2,
      he3, getEntry_setEntry_self m3 pt _ hentry]
  · apply ((hx12.trans hx3).trans hleaf).weaken
    simp
  · exact hleaf.tables _ _ (by rfl) ht
  · exact getEntry_setEntry_self m3 pt _ hentry

theorem mmapLoop_grows (hl : Leads leads) (hg : Hierarchy leads root m)
    (hs : Supplying leads own supplied root palloc m)
    (pa va attributes left i firstEntry : Nat)
    (hclear : ∀ j, i ≤ j → j < i + left → Clear leads root m (pathTo (pageAt va j))) :
    ∃ r m', mmapLoop palloc root attributes left i ((pa + i * 0x1000) % word)
        ((va + i * 0x1000) % word) firstEntry m = (r, m') ∧
      Grows leads own supplied root
        (fun s => ∃ j, i ≤ j ∧ j < i + left ∧ s = slot (pageAt va j)) m m' ∧
      ∀ j, i ≤ j → j < i + left → ∃ pt pa, tableBy leads root m' (pathTo (pageAt va j)) = some pt ∧
        getEntry m' pt (index (pageAt va j)) = leafEntry pa attributes := by
  induction left generalizing i firstEntry m with
  | zero =>
    refine ⟨_, m, rfl, (Grows.refl hg).weaken fun _ h => h.elim, ?_⟩
    intro j h1 h2
    omega
  | succ left ih =>
    obtain ⟨m1, pt, he1, hx1, ht1, hleaf1⟩ := mmapPage_grows hl hg hs
      (Nat.mod_lt (pa + i * 0x1000) (by decide : 0 < word)) ((va + i * 0x1000) % word) attributes
      (by rw [pageNumber_wrap]; exact hclear i (le_refl i) (by omega))
    rw [pageNumber_wrap, ← pageAt] at hx1 ht1 hleaf1
    obtain ⟨r, m2, he2, hx2, hleaf2⟩ := ih hx1.hierarchy (hs.grows hx1) (i + 1)
      (if i = 0 then leafEntry ((pa + i * 0x1000) % word) attributes else firstEntry)
      (fun j h1 h2 => (hclear j (by omega) (by omega)).grows hl (by rfl) hx1)
    refine ⟨r, m2, ?_, (hx1.trans hx2).weaken ?_, ?_⟩
    · rw [mmapLoop, he1, step_wrap, step_wrap]
      exact he2
    · rintro s (rfl | ⟨j, h1, h2, rfl⟩)
      · exact ⟨i, le_refl i, by omega, rfl⟩
      · exact ⟨j, by omega, by omega, rfl⟩
    · intro j h1 h2
      -- A later round may have set the same page again.
      by_cases hlater : ∃ k, i + 1 ≤ k ∧ k < i + 1 + left ∧ pageAt va j = pageAt va k
      · obtain ⟨k, hk1, hk2, hk⟩ := hlater
        rw [hk]
        exact hleaf2 k hk1 hk2
      · obtain rfl : j = i := by
          by_contra hji
          exact hlater ⟨j, by omega, by omega, rfl⟩
        refine ⟨pt, _, hx2.tables _ _ (by rfl) ht1, (hx2.stays _ pt _ ht1 ?_).trans hleaf1⟩
        refine .inl ⟨rfl, ?_⟩
        rintro ⟨k, hk1, hk2, hk⟩
        exact hlater ⟨k, hk1, hk2, (slot_inj (pageNumber_lt _) (pageNumber_lt _)).mp hk⟩

theorem mmap_grows (hl : Leads leads) (hg : Hierarchy leads root m)
    (hs : Supplying leads own supplied root palloc m) {va : Nat} (hpa : pa < word) (hva : va < word)
    (npages attributes : Nat) (hclear : ∀ i < npages, Clear leads root m (pathTo (pageAt va i))) :
    ∃ r m', mmap palloc root m pa va npages attributes = (r, m') ∧
      Grows leads own supplied root (fun s => ∃ i < npages, s = slot (pageAt va i)) m m' ∧
      ∀ i < npages, ∃ pt pa, tableBy leads root m' (pathTo (pageAt va i)) = some pt ∧
        getEntry m' pt (index (pageAt va i)) = leafEntry pa attributes := by
  obtain ⟨r, m', he, hx, hleaf⟩ := mmapLoop_grows hl hg hs pa va attributes npages 0 0
    fun j _ hj => hclear j (by omega)
  simp only [Nat.zero_mul, Nat.add_zero, Nat.mod_eq_of_lt hpa, Nat.mod_eq_of_lt hva, Nat.zero_add]
    at he hx hleaf
  refine ⟨r, m', he, hx.weaken ?_, fun i hi => hleaf i (Nat.zero_le i) hi⟩
  rintro s ⟨j, -, hj, rfl⟩
  exact ⟨j, hj, rfl⟩

end Code

end Terrakernel.Vmm
