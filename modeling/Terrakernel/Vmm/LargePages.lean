import Terrakernel.Vmm.Hardware

/-!
# Large pages

`ensure_table_exists` looks at the bit for present entries only, so it takes the first bytes of a
large page for a table.
-/

namespace Terrakernel.Vmm

open Memory Mem Paths Option
open List hiding Mem

variable {own supplied : Nat → Prop} {m m' : Mem} {leads : Nat → Bool} {t i va v npages : Nat}
  {q : Route} {j : Fin 512}

/-- A call for `npages` pages at `va` writes to tables, to pages it got for new tables and to the
allocator's own memory, and other pages are translated as before. -/
structure Undisturbed (own supplied : Nat → Prop) (root va npages : Nat) (m m' : Mem) : Prop where
  writes : ∀ x, m' x ≠ m x →
    own x ∨ InTable plain root m x ∨ ∃ t, supplied t ∧ t ≤ x ∧ x < t + 0x1000
  translations : ∀ a, (∀ i < npages, pageNumber a ≠ pageAt va i) →
    translate root m' a = translate root m a

/-- The allocator writes to its own memory, and returns pages that it has for the purpose. -/
structure Allocator (own supplied : Nat → Prop) (palloc : Palloc) : Prop where
  own : ∀ m x, (palloc m).2 x ≠ m x → own x
  supplied : ∀ m, supplied (paToVa (palloc m).1)
  aligned : ∀ m, (palloc m).1 % 0x1000 = 0

/-- `x` is neither the allocator's, nor in a page that it returns, nor in a table. -/
def IsData (own supplied : Nat → Prop) (root : Nat) (m : Mem) (x : Nat) : Prop :=
  ¬ own x ∧ ¬ InTable plain root m x ∧ ¬ ∃ t, supplied t ∧ t ≤ x ∧ x < t + 0x1000

/-- `m'` differs from `m` in data only. -/
def OtherData (own supplied : Nat → Prop) (root : Nat) (m m' : Mem) : Prop :=
  ∀ x, m' x ≠ m x → IsData own supplied root m x

/-- What the code takes for a table behind a large page of the path is data. -/
def DataBehind (own supplied : Nat → Prop) (root : Nat) (m : Mem) (path : Route) : Prop :=
  ∀ q t (j : Fin 512), q ++ [j] <+: path → tableBy plain root m q = some t →
    present (getEntry m t j) = true → large (getEntry m t j) = true →
    ∀ x, tableOf (getEntry m t j) ≤ x → x < tableOf (getEntry m t j) + 0x1000 →
      IsData own supplied root m x

theorem OtherData.sameBy {root : Nat} (h : OtherData own supplied root m m') :
    SameBy plain root m m' := by
  intro x hx
  by_contra hne
  exact (h x hne).2.1 hx

/-! ## Without large pages -/

theorem SameBy.clear {root : Nat} (h : SameBy leads root m m') {path : Route}
    (hlen : path.length ≤ 3) (hc : Clear leads root m path) : Clear leads root m' path := by
  intro q t j hpre ht hpres
  have := length_lt_of_snoc hpre
  rw [h.tableBy_eq (by omega)] at ht
  rw [h.getEntry_eq (by omega) ht j] at hpres ⊢
  exact hc q t j hpre ht hpres

theorem ensureTableExists_present {palloc : Palloc} (h : present (getEntry m t i) = true) :
    ensureTableExists palloc m t i = (tableOf (getEntry m t i), m) := if_pos h

theorem mmapLoop_add (palloc : Palloc) (root attributes pa va done left : Nat)
    (i firstEntry : Nat) (m : Mem) :
    mmapLoop palloc root attributes (done + left) i ((pa + i * 0x1000) % word)
        ((va + i * 0x1000) % word) firstEntry m =
      let (entry, m') := mmapLoop palloc root attributes done i ((pa + i * 0x1000) % word)
        ((va + i * 0x1000) % word) firstEntry m
      mmapLoop palloc root attributes left (i + done) ((pa + (i + done) * 0x1000) % word)
        ((va + (i + done) * 0x1000) % word) entry m' := by
  induction done generalizing i firstEntry m with
  | zero => simp only [Nat.zero_add, mmapLoop, Nat.add_zero]
  | succ done ih =>
    rw [Nat.succ_add, mmapLoop, mmapLoop, step_wrap, step_wrap]
    obtain ⟨entry, m1⟩ := mmapPage palloc root m ((pa + i * 0x1000) % word)
      ((va + i * 0x1000) % word) attributes
    dsimp only
    rw [ih, show i + (done + 1) = i + 1 + done by omega]

/-! ## Marks

An entry that `mmap` stores is odd, and nothing that it does later makes it even again. -/

def Marked (m : Mem) (a : Nat) : Prop := (m a).toNat % 2 = 1

theorem setEntry_marked {a : Nat} (ht : t % 8 = 0) (ha : a % 8 = 0) (hv : v % 2 = 1)
    (h : Marked m a ∨ a = t + 8 * i) : Marked (setEntry m t i v) a := by
  unfold Marked setEntry
  by_cases hslot : a = t + 8 * i
  · have hbyte : (store m (t + 8 * i) 8 v a).toNat % 2 = v % 2 := by
      rw [hslot, store, store_outside 7 _ _ _ _ (by omega), Function.update_self,
        BitVec.toNat_ofNat]
      omega
    rw [hbyte, hv]
  · rw [store_outside 8 m _ v a (by omega)]
    exact h.resolve_right hslot

theorem paToVa_mod {pa : Nat} (h : pa % 0x1000 = 0) : paToVa pa % 8 = 0 := by
  unfold paToVa
  by_cases hhigh : directBase ≤ pa
  · rw [if_pos hhigh]
    omega
  · rw [if_neg hhigh]
    simp only [directBase, word]
    omega

theorem tableOf_mod (entry : Nat) : tableOf entry % 8 = 0 := paToVa_mod (pageOf_mod entry)

theorem new_entry_odd (page : Nat) : (page ||| pagePresent ||| pageRw) % 2 = 1 := by
  rw [← present_iff, present_eq, Nat.testBit_or, Nat.testBit_or]
  simp

theorem leafEntry_odd (pa : Nat) : leafEntry pa 1 % 2 = 1 := by
  rw [← present_iff, present_eq, testBit_leafEntry pa 1 (by decide)]
  rfl

section Marks

variable {own supplied : Nat → Prop} {palloc : Palloc} (hA : Allocator own supplied palloc)
  {a : Nat} (ha : a % 8 = 0) (hown : ¬ own a) (hsup : ¬ ∃ t, supplied t ∧ t ≤ a ∧ a < t + 0x1000)

include hA ha hown hsup

theorem ensureTableExists_marked (ht : t % 8 = 0)
    (h : Marked m a ∨ present (getEntry m t i) = false ∧ a = t + 8 * i) :
    Marked (ensureTableExists palloc m t i).2 a ∧ (ensureTableExists palloc m t i).1 % 8 = 0 := by
  unfold ensureTableExists
  cases hpres : present (getEntry m t i) with
  | true =>
    rw [hpres] at h
    rw [if_pos rfl]
    exact ⟨h.resolve_right fun h => Bool.noConfusion h.1, tableOf_mod _⟩
  | false =>
    rw [if_neg (by decide)]
    refine ⟨setEntry_marked ht ha (new_entry_odd _) ?_, paToVa_mod (hA.aligned m)⟩
    rcases h with h | ⟨-, h⟩
    · left
      have hpalloc : (palloc m).2 a = m a := by
        by_contra hne
        exact hown (hA.own m a hne)
      unfold Marked
      simp only [vallocPage, memset_apply]
      rw [if_neg, hpalloc]
      · exact h
      · exact fun hin => hsup ⟨_, hA.supplied m, hin⟩
    · exact .inr h

theorem mmapPage_marked {root pa va : Nat} (hroot : root % 8 = 0) (h : Marked m a) :
    Marked (mmapPage palloc root m pa va 1).2 a := by
  obtain ⟨h1, ht1⟩ := ensureTableExists_marked hA ha hown hsup (i := getPml4Index va) hroot
    (Or.inl h)
  obtain ⟨h2, ht2⟩ := ensureTableExists_marked hA ha hown hsup (i := getPdptIndex va) ht1
    (Or.inl h1)
  obtain ⟨h3, ht3⟩ := ensureTableExists_marked hA ha hown hsup (i := getPdIndex va) ht2
    (Or.inl h2)
  exact setEntry_marked ht3 ha (leafEntry_odd pa) (Or.inl h3)

theorem mmapLoop_marked {root : Nat} (hroot : root % 8 = 0) (h : Marked m a)
    (left i pa va firstEntry : Nat) :
    Marked (mmapLoop palloc root 1 left i pa va firstEntry m).2 a := by
  induction left generalizing i pa va firstEntry m with
  | zero => exact h
  | succ left ih => exact ih (mmapPage_marked hA ha hown hsup hroot h) _ _ _ _

end Marks

theorem mmapPage_marks {palloc : Palloc} (hA : Allocator own supplied palloc)
    {root va t D : Nat} (hpre : q ++ [j] <+: pathTo (pageNumber va))
    (ht : tableBy plain root m q = some t) (hpres : present (getEntry m t j) = true)
    (hD : tableOf (getEntry m t j) = D) (hzero : ∀ k : Fin 512, getEntry m D k = 0)
    (hown : ∀ x, D ≤ x → x < D + 0x1000 → ¬ own x)
    (hsup : ∀ x, D ≤ x → x < D + 0x1000 → ¬ ∃ t, supplied t ∧ t ≤ x ∧ x < t + 0x1000) (pa : Nat) :
    ∃ k : Fin 512, Marked (mmapPage palloc root m pa va 1).2 (D + 8 * k) := by
  have hmod : D % 8 = 0 := hD ▸ tableOf_mod _
  have habsent : ∀ k : Fin 512, present (getEntry m D k) = false := by
    intro k
    rw [hzero k]
    rfl
  have hstep : ∀ k : Fin 512, ∀ {m' : Mem} {t i : Nat}, t % 8 = 0 →
      (Marked m' (D + 8 * k) ∨ present (getEntry m' t i) = false ∧ D + 8 * k = t + 8 * i) →
      Marked (ensureTableExists palloc m' t i).2 (D + 8 * k) ∧
        (ensureTableExists palloc m' t i).1 % 8 = 0 := by
    intro k m' t i
    have := k.isLt
    exact ensureTableExists_marked hA (by omega) (hown _ (by omega) (by omega))
      (hsup _ (by omega) (by omega))
  have hchild : ∀ {u w : Nat} {i : Fin 512}, childBy plain m u i = some w →
      ensureTableExists palloc m u i = (w, m) := by
    intro u w i h
    obtain ⟨hlead, rfl⟩ := childBy_eq_some h
    exact ensureTableExists_present (leads_plain.present _ hlead)
  have hlast : ensureTableExists palloc m t j = (D, m) := by
    rw [ensureTableExists_present hpres, hD]
  simp only [mmapPage, getPml4Index_eq, getPdptIndex_eq, getPdIndex_eq, getPtIndex_eq]
  rcases q with _ | ⟨i0, _ | ⟨i1, _ | ⟨i2, q⟩⟩⟩
  · -- An entry of the PML4: `D` is taken for the page directory pointer table.
    obtain rfl : root = t := some.inj ht
    obtain rfl : j = index (pageNumber va / 2 ^ 27) := (cons_prefix_cons.mp hpre).1
    rw [hlast]
    obtain ⟨h1, ht1⟩ := hstep (index (pageNumber va / 2 ^ 18)) hmod (Or.inr ⟨habsent _, rfl⟩)
    obtain ⟨h2, ht2⟩ := hstep _ (i := index (pageNumber va / 2 ^ 9)) ht1 (Or.inl h1)
    exact ⟨_, setEntry_marked ht2 (by omega) (leafEntry_odd pa) (Or.inl h2)⟩
  · obtain ⟨rfl, hpre1⟩ := cons_prefix_cons.mp hpre
    obtain rfl : j = index (pageNumber va / 2 ^ 18) := (cons_prefix_cons.mp hpre1).1
    rw [tableBy, follow_cons] at ht
    obtain ⟨u, hu, hrest⟩ := bind_eq_some_iff.mp ht
    obtain rfl : u = t := some.inj hrest
    rw [hchild hu]
    dsimp only
    rw [hlast]
    obtain ⟨h1, ht1⟩ := hstep (index (pageNumber va / 2 ^ 9)) hmod (Or.inr ⟨habsent _, rfl⟩)
    exact ⟨_, setEntry_marked ht1 (by omega) (leafEntry_odd pa) (Or.inl h1)⟩
  · obtain ⟨rfl, hpre1⟩ := cons_prefix_cons.mp hpre
    obtain ⟨rfl, hpre2⟩ := cons_prefix_cons.mp hpre1
    obtain rfl : j = index (pageNumber va / 2 ^ 9) := (cons_prefix_cons.mp hpre2).1
    rw [tableBy, follow_cons] at ht
    obtain ⟨u, hu, hrest⟩ := bind_eq_some_iff.mp ht
    rw [follow_cons] at hrest
    obtain ⟨w, hw, hrest⟩ := bind_eq_some_iff.mp hrest
    obtain rfl : w = t := some.inj hrest
    rw [hchild hu]
    dsimp only
    rw [hchild hw]
    dsimp only
    rw [hlast]
    exact ⟨index (pageNumber va), setEntry_marked hmod (by omega) (leafEntry_odd pa) (Or.inr rfl)⟩
  · have hlen := length_lt_of_snoc hpre
    rw [pathTo_length] at hlen
    simp only [length_cons] at hlen
    exact absurd hlen (by omega)

/-! ## With a large page -/

theorem mmap_disturbs {root : Nat} {palloc : Palloc} (hA : Allocator own supplied palloc)
    (hg : Hierarchy plain root m) (hva : va < word) {n : Nat} (hn : n < npages)
    {changed : Route → Prop}
    (hx : Grows plain own supplied root changed m (mmap palloc root m 0 va n 1).2)
    (hpre : q ++ [j] <+: pathTo (pageAt va n)) (ht : tableBy plain root m q = some t)
    (hpres : present (getEntry m t j) = true)
    (hzero : ∀ x, tableOf (getEntry m t j) ≤ x → x < tableOf (getEntry m t j) + 0x1000 → m x = 0)
    (hdata : ∀ x, tableOf (getEntry m t j) ≤ x → x < tableOf (getEntry m t j) + 0x1000 →
      IsData own supplied root m x) :
    ∃ x, IsData own supplied root m x ∧ (mmap palloc root m 0 va npages 1).2 x ≠ m x := by
  obtain ⟨left, rfl⟩ : ∃ left, npages = n + (left + 1) := ⟨npages - n - 1, by omega⟩
  obtain ⟨⟨r, m1⟩, he⟩ : ∃ rm, mmap palloc root m 0 va n 1 = rm := ⟨_, rfl⟩
  rw [he] at hx
  generalize hD : tableOf (getEntry m t j) = D at hzero hdata
  have hq : q.length < 3 := length_lt_of_snoc hpre
  have hentry := hx.stays q t j ht (Or.inr ⟨hq, hpres⟩)
  -- The rounds before left the data alone.
  have hsame : ∀ x, D ≤ x → x < D + 0x1000 → m1 x = 0 := by
    intro x h1 h2
    by_contra hne
    rw [← hzero x h1 h2] at hne
    obtain ⟨ho, hin, hsup⟩ := hdata x h1 h2
    rcases hx.bytes x hne with h | h | h
    · exact ho h
    · exact hin h
    · exact hsup h
  have hzero1 : ∀ k : Fin 512, getEntry m1 D k = 0 := fun k => getEntry_zeros k.isLt hsame
  rw [pageAt, ← pageNumber_wrap] at hpre
  obtain ⟨k, hk⟩ := mmapPage_marks hA hpre (hx.tables q t (Nat.le_of_lt hq) ht)
    (by rw [hentry]; exact hpres) (by rw [hentry]; exact hD) hzero1
    (fun x h1 h2 => (hdata x h1 h2).1) (fun x h1 h2 => (hdata x h1 h2).2.2)
    ((0 + n * 0x1000) % word)
  have hk512 := k.isLt
  have hin := hdata (D + 8 * k) (by omega) (by omega)
  have hroot : root % 8 = 0 := by
    obtain ⟨page, hlt, ha, rfl⟩ := hg.rootTable
    simp only [directBase]
    omega
  have hmod : D % 8 = 0 := hD ▸ tableOf_mod _
  refine ⟨D + 8 * k, hin, ?_⟩
  have hloop := mmapLoop_add palloc root 1 0 va n (left + 1) 0 0 m
  simp only [Nat.zero_mul, Nat.add_zero, Nat.zero_mod, Nat.mod_eq_of_lt hva, Nat.zero_add] at hloop hk
  rw [mmap] at he
  rw [he] at hloop
  have hmarked : Marked (mmap palloc root m 0 va (n + (left + 1)) 1).2 (D + 8 * k) := by
    rw [mmap, hloop]
    exact mmapLoop_marked hA (by omega) hin.1 hin.2.2 hroot hk left _ _ _ _
  intro heq
  rw [Marked, heq, hzero _ (by omega) (by omega)] at hmarked
  exact absurd hmarked (by decide)

theorem OtherData.isData {root : Nat} (h : OtherData own supplied root m m') {x : Nat}
    (hx : IsData own supplied root m x) : IsData own supplied root m' x := by
  refine ⟨hx.1, ?_, hx.2.2⟩
  rintro ⟨p, t, hp, ht, hin⟩
  rw [h.sameBy.tableBy_eq hp] at ht
  exact hx.2.1 ⟨p, t, hp, ht, hin⟩

theorem exists_disturbed {root : Nat} {palloc : Palloc}
    (hA : Allocator own supplied palloc) (hg : Hierarchy plain root m) (hva : va < word)
    (hdata : ∀ i < npages, DataBehind own supplied root m (pathTo (pageAt va i)))
    (hlarge : ¬ ∀ i < npages, Clear plain root m (pathTo (pageAt va i))) :
    ∃ m' n, OtherData own supplied root m m' ∧ n < npages ∧
      (∀ i < n, Clear plain root m' (pathTo (pageAt va i))) ∧
      ∀ changed, Grows plain own supplied root changed m' (mmap palloc root m' 0 va n 1).2 →
        ∃ x, IsData own supplied root m' x ∧ (mmap palloc root m' 0 va npages 1).2 x ≠ m' x := by
  classical
  push Not at hlarge
  obtain ⟨hn, hstop⟩ := Nat.find_spec hlarge
  have hfirst : ∀ i < Nat.find hlarge, Clear plain root m (pathTo (pageAt va i)) := by
    intro i hi
    by_contra hc
    exact Nat.find_min hlarge hi ⟨hi.trans hn, hc⟩
  generalize Nat.find hlarge = n at hn hstop hfirst
  unfold Clear at hstop
  push Not at hstop
  obtain ⟨q, t, j, hpre, ht, hpres, hnot⟩ := hstop
  have hbig : large (getEntry m t j) = true := by
    rw [plain, hpres, Bool.true_and] at hnot
    simpa using hnot
  have hin := hdata n hn q t j hpre ht hpres hbig
  have hq : q.length ≤ 3 := Nat.le_of_lt (length_lt_of_snoc hpre)
  -- The data behind the large page is zeroed, the rest is kept.
  have hother : OtherData own supplied root m (memset m (tableOf (getEntry m t j)) 0 0x1000) := by
    intro x hx
    rw [memset_apply] at hx
    split_ifs at hx with hpage
    · exact hin x hpage.1 hpage.2
    · exact absurd rfl hx
  have hentry := hother.sameBy.getEntry_eq hq ht j
  refine ⟨_, n, hother, hn, fun i hi => hother.sameBy.clear (by rfl) (hfirst i hi), ?_⟩
  intro changed hx
  exact mmap_disturbs hA (hother.sameBy.hierarchy hg) hva hn hx hpre
    (by rw [hother.sameBy.tableBy_eq hq]; exact ht) (by rw [hentry]; exact hpres)
    (fun x h1 h2 => by rw [hentry] at h1 h2; rw [memset_apply, if_pos ⟨h1, h2⟩])
    (fun x h1 h2 => by rw [hentry] at h1 h2; exact hother.isData (hin x h1 h2))

theorem clear_empty (leads : Nat → Bool) (root : Nat) (path : Route) :
    Clear leads root (fun _ => 0) path := by
  intro q t j _ _ hpres
  rw [absent_empty] at hpres
  exact absurd hpres (by simp)

end Terrakernel.Vmm
