import Terrakernel.Vmm.Spaces

/-!
# Runs over several address spaces

The tables stay a forest in every run. The upper half stays the same everywhere as long as
`mmap` finds its PML4 entries in all tables, and no longer.
-/

namespace Terrakernel.Vmm

open Memory Mem Paths
open List hiding Mem

variable {m : Mem} {c : SpaceCall} {s : Spaces} {va : Nat} {P : Spaces → Step → Prop}
  {steps : List Step}

/-! ## What is asked of a call -/

/-- `palloc(1)` returns a page that is no table, and does not write to the tables. -/
structure Serves (tables : List Nat) (palloc : Palloc) (m : Mem) : Prop where
  low : (palloc m).1 < 2 ^ 47
  aligned : (palloc m).1 % 0x1000 = 0
  fresh : ∀ r ∈ tables, ∀ p, p.length ≤ 3 → tableBy plain r m p ≠ some (paToVa (palloc m).1)
  same : ∀ r ∈ tables, SameBy plain r m (palloc m).2

/-- The page is one of the upper half, and no large page is on the walk to it. -/
def InReach (s : Spaces) (v : Nat) : Prop :=
  256 ≤ (topIndex v).val ∧ Clear plain s.currentPML4 s.mem (pathTo v)

/-- `create_pagetable` may find no page. `mmap` gets as many as it needs, whatever it has made of
the tables by then. -/
def Valid (s : Spaces) (palloc : Palloc) : SpaceCall → Prop
  | .createPagetable => ((palloc s.mem).1 ≠ 0 → Serves s.tables palloc s.mem) ∧
      ∀ r ∈ s.tables, SameBy plain r s.mem (palloc s.mem).2
  | .switchPagetable ptr => ptr ∈ s.tables
  | .map (.mmap _ va npages _) =>
      (∀ changed m, Grows plain (Outside s.tables s.mem) (Fresh s.tables s.mem) s.currentPML4 changed
        s.mem m → Serves s.tables palloc m) ∧
      ∀ i < npages.toNat, InReach s (pageAt va.toNat i)
  | .map (.munmap va npages) => ∀ i < npages.toNat, InReach s (pageAt va.toNat i)

/-- A call of `mmap` for pages that are present finds its PML4 entries in all tables, if there is
more than the default one. -/
def KeepsShared (s : Spaces) : SpaceCall → Prop
  | .map (.mmap _ va npages attributes) => s.created = [] ∨ present attributes.toNat = false ∨
      ∀ i < npages.toNat, SharedTop s.tables s.mem s.currentPML4 (topIndex (pageAt va.toNat i))
  | _ => True

/-! ## `mmap` -/

theorem Forest.supplying {tables : List Nat} {cur : Nat} {palloc : Palloc}
    (h : Forest tables m) (hcur : cur ∈ tables)
    (hserves : ∀ changed m', Grows plain (Outside tables m) (Fresh tables m) cur changed m m' →
      Serves tables palloc m') :
    Supplying plain (Outside tables m) (Fresh tables m) cur palloc m := by
  intro changed m' hx
  have hs := hserves changed m' hx
  have hstay := fun {r} (hr : r ∈ tables) {p t} hp ht => @Forest.tables_stay tables cur changed m m' h
    hcur hx r hr p t hp ht
  refine ⟨hs.low, hs.aligned, hs.fresh cur hcur, hs.same cur hcur, ?_,
    isTable_paToVa hs.low hs.aligned, ?_⟩
  · rintro x hne r hr ⟨p, t, hp, ht, h1, h2⟩
    exact hne (hs.same r hr x ⟨p, t, hp, hstay hr hp ht, h1, h2⟩)
  · intro r hr p hp ht
    exact hs.fresh r hr p hp (hstay hr hp ht)

section Munmap

variable {own supplied : Nat → Prop} {root : Nat} {m : Mem}

theorem Clear.tableAt_eq {path : Route} (h : Clear plain root m path) :
    tableAt root m path = tableBy plain root m path := by
  apply follow_congr
  intro p i t hpre ht
  unfold child childBy
  cases hpres : present (getEntry m t i) with
  | true => rw [h p t i hpre ht hpres]
  | false =>
    rw [if_neg (by simp), if_neg]
    intro hlead
    rw [leads_plain.present _ hlead] at hpres
    cases hpres

theorem Clear.walkBy_none {path rest : Route} (h : Clear plain root m path)
    (hn : tableBy plain root m path = none) : walkBy plain m root (path ++ rest) = none := by
  induction path generalizing root with
  | nil => cases hn
  | cons j path ih =>
    rw [cons_append, walkBy]
    cases hpres : present (getEntry m root j) with
    | false => rfl
    | true =>
      have hlead := h [] root j (by simp) rfl hpres
      have hstep : ∀ q, tableBy plain root m (j :: q) =
          tableBy plain (tableOf (getEntry m root j)) m q := by
        intro q
        rw [tableBy, follow_cons, childBy, if_pos hlead, Option.bind_some]
      rw [if_neg (by simp), if_pos hlead, ih ?_ (by rw [← hstep]; exact hn)]
      · rfl
      · intro q t i hpre ht
        exact h (j :: q) t i (cons_prefix_cons.mpr ⟨rfl, hpre⟩) (by rw [hstep]; exact ht)

theorem munmapPage_grows (hg : Hierarchy plain root m) (va : Nat)
    (hclear : Clear plain root m (pathTo (pageNumber va))) :
    Grows plain own supplied root (· = slot (pageNumber va)) m (munmapPage root m va) ∧
      walkBy plain (munmapPage root m va) root (slot (pageNumber va)) = none := by
  unfold munmapPage
  rw [findPt_eq, hclear.tableAt_eq]
  cases ht : tableBy plain root m (pathTo (pageNumber va)) with
  | none => exact ⟨(Grows.refl hg).weaken fun _ hf => hf.elim, hclear.walkBy_none ht⟩
  | some pt =>
    dsimp only
    rw [getPtIndex_eq]
    refine ⟨setLeaf_grows hg rfl ht _ 0, ?_⟩
    apply walkBy_absent leads_plain
    · rw [setLeaf_tableBy hg rfl ht _ 0 (by rfl)]
      exact ht
    · rw [getEntry_setEntry_self m pt _ (by decide)]
      rfl

theorem munmapLoop_grows (va left i : Nat) (hg : Hierarchy plain root m)
    (hclear : ∀ j, i ≤ j → j < i + left → Clear plain root m (pathTo (pageAt va j))) :
    Grows plain own supplied root (fun s => ∃ j, i ≤ j ∧ j < i + left ∧ s = slot (pageAt va j)) m
        (munmapLoop root left ((va + i * 0x1000) % word) m) ∧
      ∀ j, i ≤ j → j < i + left →
        walkBy plain (munmapLoop root left ((va + i * 0x1000) % word) m) root
          (slot (pageAt va j)) = none := by
  induction left generalizing i m with
  | zero => exact ⟨(Grows.refl hg).weaken fun _ hf => hf.elim, fun j h1 h2 => by omega⟩
  | succ left ih =>
    have hpage : pageNumber ((va + i * 0x1000) % word) = pageAt va i := pageNumber_wrap _
    have hfirst : Clear plain root m (pathTo (pageNumber ((va + i * 0x1000) % word))) := by
      rw [hpage]
      exact hclear i (le_refl i) (by omega)
    have hx1 : Grows plain own supplied root _ m _ := (munmapPage_grows hg _ hfirst).1
    have hnone1 := (@munmapPage_grows own supplied root m hg _ hfirst).2
    rw [hpage] at hx1 hnone1
    obtain ⟨hx2, hnone2⟩ := ih (i + 1) hx1.hierarchy fun j h1 h2 =>
      (hclear j (by omega) (by omega)).grows leads_plain (le_of_eq (pathTo_length _)) hx1
    rw [munmapLoop, step_wrap]
    refine ⟨(hx1.trans hx2).weaken ?_, ?_⟩
    · rintro s (rfl | ⟨j, h1, h2, rfl⟩)
      · exact ⟨i, le_refl i, by omega, rfl⟩
      · exact ⟨j, by omega, by omega, rfl⟩
    · intro j h1 h2
      by_cases hlater : ∃ k, i + 1 ≤ k ∧ k < i + 1 + left ∧ slot (pageAt va j) = slot (pageAt va k)
      · obtain ⟨k, hk1, hk2, hk⟩ := hlater
        rw [hk]
        exact hnone2 k hk1 hk2
      · obtain rfl : j = i := by
          by_contra hji
          exact hlater ⟨j, by omega, by omega, rfl⟩
        rw [hx2.walks _ rfl hlater]
        exact hnone1

end Munmap

/-! ## `create_pagetable` -/

theorem copyLoop_outside (newPml4 origPml4 left i : Nat) (m : Mem) {x : Nat}
    (hx : ¬ (newPml4 + 8 * i ≤ x ∧ x < newPml4 + 8 * (i + left))) :
    copyLoop newPml4 origPml4 left i m x = m x := by
  induction left generalizing i m with
  | zero => rfl
  | succ left ih =>
    rw [copyLoop, ih (i + 1) _ (by omega), setEntry, store_outside 8 _ _ _ x (by omega)]

theorem copyLoop_entry {newPml4 origPml4 : Nat} (hnew : IsTable newPml4) (horig : IsTable origPml4)
    (hne : origPml4 ≠ newPml4) (left i : Nat) (hle : i + left ≤ 512) (m : Mem) (j : Fin 512) :
    getEntry (copyLoop newPml4 origPml4 left i m) newPml4 j =
      if i ≤ j.val ∧ j.val < i + left then getEntry m origPml4 j else getEntry m newPml4 j := by
  induction left generalizing i m with
  | zero => rw [copyLoop, if_neg (by omega)]
  | succ left ih =>
    have horigsame : ∀ k : Fin 512, getEntry (setEntry m newPml4 i (getEntry m origPml4 i)) origPml4 k =
        getEntry m origPml4 k := fun k =>
      getEntry_setEntry_other _ horig hnew k.isLt (by omega) fun hc => hne hc.1
    rw [copyLoop, ih (i + 1) (by omega), horigsame]
    by_cases hj : j.val = i
    · rw [if_neg (by omega), if_pos (by omega), hj,
        getEntry_setEntry_self m newPml4 i (getEntry_lt m origPml4 i)]
    · rw [getEntry_setEntry_other _ hnew hnew j.isLt (by omega) fun hc => hj hc.2]
      by_cases hin : i + 1 ≤ j.val ∧ j.val < i + 1 + left
      · rw [if_pos hin, if_pos (by omega)]
      · rw [if_neg hin, if_neg (by omega)]

/-- What a new table has in its two halves. -/
structure NewTable (tables : List Nat) (orig n : Nat) (m m' : Mem) : Prop where
  isTable : IsTable n
  fresh : ∀ r ∈ tables, ∀ p, p.length ≤ 3 → tableBy plain r m' p ≠ some n
  same : ∀ r ∈ tables, SameBy plain r m m'
  upper : ∀ k : Fin 512, 256 ≤ k.val → getEntry m' n k = getEntry m' orig k
  lower : ∀ k : Fin 512, k.val < 256 → getEntry m' n k = 0

theorem createPagetable_new {tables : List Nat} (h : Forest tables m) {orig : Nat}
    (horig : orig ∈ tables) {palloc : Palloc} (hs : Serves tables palloc m)
    (h0 : (palloc m).1 ≠ 0) :
    (createPagetable palloc orig m).1 = (palloc m).1 ∧
      NewTable tables orig (paToVa (palloc m).1) m (createPagetable palloc orig m).2 := by
  have hnew := isTable_paToVa hs.low hs.aligned
  have hfresh := hs.fresh
  have hpage : createPagetable palloc orig m = ((palloc m).1, copyLoop (paToVa (palloc m).1) orig 256 256
      (memset (palloc m).2 (paToVa (palloc m).1) 0 0x1000)) := by
    unfold createPagetable
    simp only [h0, if_false]
  rw [hpage]
  generalize paToVa (palloc m).1 = n at hnew hfresh ⊢
  have hother : ∀ x, ¬ (n ≤ x ∧ x < n + 0x1000) →
      copyLoop n orig 256 256 (memset (palloc m).2 n 0 0x1000) x = (palloc m).2 x := by
    intro x hx
    rw [copyLoop_outside _ _ _ _ _ (by omega), memset_apply, if_neg hx]
  have hsame : ∀ r ∈ tables, SameBy plain r m
      (copyLoop n orig 256 256 (memset (palloc m).2 n 0 0x1000)) := by
    rintro r hr x ⟨p, t, hp, ht, h1, h2⟩
    have htn : t ≠ n := by
      rintro rfl
      exact hfresh r hr p hp ht
    have := ((h.hierarchy r hr).isTable hp ht).apart hnew htn
    rw [hother x (by omega)]
    exact hs.same r hr x ⟨p, t, hp, ht, h1, h2⟩
  have horigtable := (h.hierarchy orig horig).rootTable
  have hne : orig ≠ n := by
    rintro rfl
    exact hfresh orig horig [] (Nat.zero_le 3) rfl
  dsimp only
  refine ⟨rfl, hnew, ?_, hsame, ?_, ?_⟩
  · intro r hr p hp
    rw [(hsame r hr).tableBy_eq hp]
    exact hfresh r hr p hp
  · intro k hk
    have happart := horigtable.apart hnew hne
    rw [copyLoop_entry hnew horigtable hne 256 256 (by omega), if_pos (by omega)]
    apply getEntry_congr k.isLt
    intro x h1 h2
    rw [hother x (by omega), memset_apply, if_neg (by omega)]
  · intro k hk
    rw [copyLoop_entry hnew horigtable hne 256 256 (by omega), if_neg (by omega), getEntry_memset]

section Created

variable {tables : List Nat} {orig n : Nat} {m m' : Mem} (h : Forest tables m)
  (horig : orig ∈ tables) (hn : NewTable tables orig n m m')

include h

theorem Forest.same (hsame : ∀ r ∈ tables, SameBy plain r m m') : Forest tables m' := by
  refine ⟨fun r hr => (hsame r hr).hierarchy (h.hierarchy r hr), ?_⟩
  intro r hr r' hr' p q t hp hq ht ht'
  rw [(hsame r hr).tableBy_eq hp] at ht
  rw [(hsame r' hr').tableBy_eq hq] at ht'
  obtain ⟨hpq, hroot, htop⟩ := h.shared r hr r' hr' p q t hp hq ht ht'
  have hnil : ([] : Route).length ≤ 3 := Nat.zero_le 3
  refine ⟨hpq, hroot, fun k rest he => ?_⟩
  rw [(hsame r hr).getEntry_eq hnil rfl, (hsame r' hr').getEntry_eq hnil rfl]
  exact htop k rest he

include horig hn

theorem Forest.created : Forest (tables ++ [n]) m' := by
  have h' := h.same hn.same
  have habsent : ∀ k : Fin 512, k.val < 256 → plain (getEntry m' n k) = false := by
    intro k hk
    rw [hn.lower k hk]
    rfl
  have horigin : ∀ r ∈ tables ++ [n], ∀ p t, tableBy plain r m' p = some t →
      (r = n ∧ p = [] ∧ t = n) ∨ ∃ r0 ∈ tables, tableBy plain r0 m' p = some t ∧
        (p = [] → r = r0) ∧ ∀ k rest, p = k :: rest → getEntry m' r k = getEntry m' r0 k := by
    intro r hr p t ht
    rcases mem_append.mp hr with hr | hr
    · exact .inr ⟨r, hr, ht, fun _ => rfl, fun _ _ _ => rfl⟩
    obtain rfl := mem_singleton.mp hr
    cases p with
    | nil =>
      rw [tableBy, follow_nil] at ht
      exact .inl ⟨rfl, rfl, (Option.some.inj ht).symm⟩
    | cons k rest =>
      have hk : 256 ≤ k.val := by
        by_contra hk
        rw [tableBy, follow_cons, childBy, if_neg (by rw [habsent k (by omega)]; simp)] at ht
        cases ht
      refine .inr ⟨orig, horig, ?_, by simp, ?_⟩
      · rw [← tableBy_top (hn.upper k hk)]
        exact ht
      · rintro k' rest' he
        obtain ⟨rfl, -⟩ := List.cons.inj he
        exact hn.upper k hk
  have hshared : ∀ r ∈ tables ++ [n], ∀ r' ∈ tables ++ [n], ∀ p q t, p.length ≤ 3 → q.length ≤ 3 →
      tableBy plain r m' p = some t → tableBy plain r' m' q = some t →
      p = q ∧ (p = [] → r = r') ∧ ∀ k rest, p = k :: rest → getEntry m' r k = getEntry m' r' k := by
    intro r hr r' hr' p q t hp hq ht ht'
    rcases horigin r hr p t ht with ⟨rfl, rfl, rfl⟩ | ⟨r0, hr0, ht0, hroot0, htop0⟩
    · rcases horigin r' hr' q t ht' with ⟨rfl, rfl, -⟩ | ⟨r1, hr1, ht1, -⟩
      · exact ⟨rfl, fun _ => rfl, by simp⟩
      · exact absurd ht1 (hn.fresh r1 hr1 q hq)
    · rcases horigin r' hr' q t ht' with ⟨rfl, rfl, rfl⟩ | ⟨r1, hr1, ht1, hroot1, htop1⟩
      · exact absurd ht0 (hn.fresh r0 hr0 p hp)
      · obtain ⟨rfl, hroot, htop⟩ := h'.shared r0 hr0 r1 hr1 p q t hp hq ht0 ht1
        refine ⟨rfl, fun he => ?_, fun k rest he => ?_⟩
        · rw [hroot0 he, hroot1 he, hroot he]
        · rw [htop0 k rest he, htop1 k rest he, htop k rest he]
  refine ⟨fun r hr => ⟨?_, ?_, ?_⟩, hshared⟩
  · rcases mem_append.mp hr with hr | hr
    · exact (h'.hierarchy r hr).rootTable
    · rw [mem_singleton.mp hr]
      exact hn.isTable
  · intro p t i hp ht hlead
    rcases horigin r hr p t ht with ⟨rfl, rfl, rfl⟩ | ⟨r0, hr0, ht0, -⟩
    · have hi : 256 ≤ i.val := by
        by_contra hi
        rw [habsent i (by omega)] at hlead
        cases hlead
      rw [hn.upper i hi] at hlead ⊢
      exact (h'.hierarchy orig horig).low [] orig i (by simp) rfl hlead
    · exact (h'.hierarchy r0 hr0).low p t i hp ht0 hlead
  · exact fun p q t hp hq ht ht' => (hshared r hr r hr p q t hp hq ht ht').1

omit horig hn in
theorem Even.same (he : Even tables m) (hsame : ∀ r ∈ tables, SameBy plain r m m') :
    Even tables m' := by
  have hnil : ([] : Route).length ≤ 3 := Nat.zero_le 3
  intro k hk
  rcases he k hk with hequal | hnone
  · left
    intro r hr r' hr'
    rw [(hsame r hr).getEntry_eq hnil rfl, (hsame r' hr').getEntry_eq hnil rfl, hequal r hr r' hr']
  · right
    intro r hr va hva
    have hx : Grows plain (fun _ => True) (fun _ => True) r _ m m' :=
      (hsame r hr).grows (h.hierarchy r hr) fun _ _ => trivial
    have hwalk := hx.walks (slot (pageNumber va)) rfl not_false
    rw [← hnone r hr va hva, translate, translate, hwalk]

theorem Even.created (he : Even tables m) : Even (tables ++ [n]) m' := by
  have he' := he.same h hn.same
  intro k hk
  rcases he' k hk with hequal | hnone
  · left
    have horigin : ∀ r ∈ tables ++ [n], getEntry m' r k = getEntry m' orig k := by
      intro r hr
      rcases mem_append.mp hr with hr | hr
      · exact hequal r hr orig horig
      · rw [mem_singleton.mp hr, hn.upper k hk]
    intro r hr r' hr'
    rw [horigin r hr, horigin r' hr']
  · right
    intro r hr va hva
    rcases mem_append.mp hr with hr | hr
    · exact hnone r hr va hva
    · have htop : getEntry m' n (topIndex (pageNumber va)) =
          getEntry m' orig (topIndex (pageNumber va)) := by
        rw [hva, hn.upper k hk]
      rw [mem_singleton.mp hr, translate_top htop]
      exact hnone orig horig va hva

end Created

/-! ## One call -/

structure Sound (s : Spaces) : Prop where
  forest : Forest s.tables s.mem
  current : s.currentPML4 ∈ s.tables
  others : s.defaultPML4 ∉ s.created

theorem Agree.tables (h : Agree s) {r : Nat} (hr : r ∈ s.tables) (hva : 256 ≤ getPml4Index va) :
    translate r s.mem va = translate s.defaultPML4 s.mem va := by
  rcases mem_cons.mp hr with rfl | hr
  · rfl
  · exact h r hr va hva

theorem translate_leaf {root : Nat} {pt : Nat}
    (ht : tableBy plain root m (pathTo (pageNumber va)) = some pt)
    (hpres : present (getEntry m pt (index (pageNumber va))) = true) :
    translate root m va ≠ none := by
  obtain ⟨es, hes, hlen, -⟩ := walkBy_table leads_plain ht hpres
  rw [translate, slot, hes]
  simp [access, hlen, pathTo_length, offsetBits]

theorem present_leafEntry (pa attributes : Nat) :
    present (leafEntry pa attributes) = present attributes := by
  rw [present_eq, present_eq, testBit_leafEntry pa attributes (by decide)]

section Step

variable {s : Spaces} {palloc : Palloc} (h : Sound s)

include h

theorem Sound.created (hserves : Serves s.tables palloc s.mem) (h0 : (palloc s.mem).1 ≠ 0) :
    ∃ m', SpaceCall.createPagetable.exec palloc s =
        { s with mem := m', created := s.created ++ [paToVa (palloc s.mem).1] } ∧
      NewTable s.tables s.defaultPML4 (paToVa (palloc s.mem).1) s.mem m' := by
  obtain ⟨hpage, hn⟩ := createPagetable_new h.forest mem_cons_self hserves h0
  refine ⟨_, ?_, hn⟩
  rw [SpaceCall.exec]
  dsimp only
  rw [hpage, if_neg h0]

theorem Sound.createPagetable (hv : Valid s palloc .createPagetable) :
    Sound (SpaceCall.createPagetable.exec palloc s) ∧
      (Even s.tables s.mem → Even (SpaceCall.createPagetable.exec palloc s).tables
        (SpaceCall.createPagetable.exec palloc s).mem) := by
  obtain ⟨hserves, hsame⟩ := hv
  have hdefault : s.defaultPML4 ∈ s.tables := mem_cons_self
  by_cases h0 : (palloc s.mem).1 = 0
  · have hexec : SpaceCall.createPagetable.exec palloc s = { s with mem := (palloc s.mem).2 } := by
      simp only [SpaceCall.exec, Vmm.createPagetable, h0, if_true]
    rw [hexec]
    exact ⟨⟨h.forest.same hsame, h.current, h.others⟩, fun he => he.same h.forest hsame⟩
  · obtain ⟨m', hexec, hn⟩ := h.created (hserves h0) h0
    rw [hexec]
    refine ⟨⟨h.forest.created hdefault hn, mem_append_left _ h.current, ?_⟩,
      fun he => he.created h.forest hdefault hn⟩
    intro hmem
    rcases mem_append.mp hmem with hmem | hmem
    · exact h.others hmem
    · exact hn.fresh s.defaultPML4 hdefault [] (Nat.zero_le 3)
        (congrArg some (mem_singleton.mp hmem))

theorem Sound.mmap {pa va npages attributes : UInt64}
    (hv : Valid s palloc (.map (.mmap pa va npages attributes))) :
    ∃ m', (SpaceCall.map (.mmap pa va npages attributes)).exec palloc s = { s with mem := m' } ∧
      Grows plain (Outside s.tables s.mem) (Fresh s.tables s.mem) s.currentPML4
        (fun p => ∃ i < npages.toNat, p = slot (pageAt va.toNat i)) s.mem m' ∧
      ∀ i < npages.toNat, ∃ pt pa, tableBy plain s.currentPML4 m' (pathTo (pageAt va.toNat i)) = some pt ∧
        getEntry m' pt (index (pageAt va.toNat i)) = leafEntry pa attributes.toNat := by
  obtain ⟨r, m', he, hx, hleaf⟩ := mmap_grows leads_plain (h.forest.hierarchy _ h.current)
    (h.forest.supplying h.current hv.1) pa.toNat_lt va.toNat_lt npages.toNat attributes.toNat
    fun i hi => (hv.2 i hi).2
  refine ⟨m', ?_, hx, hleaf⟩
  simp only [SpaceCall.exec, Call.exec, he]

theorem Sound.munmap {va npages : UInt64} (hv : Valid s palloc (.map (.munmap va npages))) :
    ∃ m', (SpaceCall.map (.munmap va npages)).exec palloc s = { s with mem := m' } ∧
      Grows plain (Outside s.tables s.mem) (Fresh s.tables s.mem) s.currentPML4
        (fun p => ∃ i < npages.toNat, p = slot (pageAt va.toNat i)) s.mem m' ∧
      ∀ i < npages.toNat, walkBy plain m' s.currentPML4 (slot (pageAt va.toNat i)) = none := by
  have hloop := @munmapLoop_grows (Outside s.tables s.mem) (Fresh s.tables s.mem) s.currentPML4 s.mem
    va.toNat npages.toNat 0 (h.forest.hierarchy _ h.current) fun j _ hj => (hv j (by omega)).2
  rw [Nat.zero_mul, Nat.add_zero, Nat.mod_eq_of_lt va.toNat_lt] at hloop
  obtain ⟨hx, hnone⟩ := hloop
  refine ⟨_, rfl, hx.weaken ?_, fun i hi => hnone i (Nat.zero_le i) (by omega)⟩
  rintro p ⟨i, -, hi, rfl⟩
  exact ⟨i, by omega, rfl⟩

theorem Sound.exec (hv : Valid s palloc c) : Sound (c.exec palloc s) := by
  cases c with
  | createPagetable => exact (h.createPagetable hv).1
  | switchPagetable ptr => exact ⟨h.forest, hv, h.others⟩
  | map c =>
    cases c with
    | mmap pa va npages attributes =>
      obtain ⟨m', he, hx, -⟩ := h.mmap hv
      rw [he]
      exact ⟨h.forest.grows h.current hx, h.current, h.others⟩
    | munmap va npages =>
      obtain ⟨m', he, hx, -⟩ := h.munmap hv
      rw [he]
      exact ⟨h.forest.grows h.current hx, h.current, h.others⟩

theorem Sound.even (hv : Valid s palloc c) (hk : KeepsShared s c) (he : Even s.tables s.mem) :
    Even (c.exec palloc s).tables (c.exec palloc s).mem := by
  cases c with
  | createPagetable => exact (h.createPagetable hv).2 he
  | switchPagetable ptr => exact he
  | map c =>
    cases c with
    | mmap pa va npages attributes =>
      obtain ⟨m', hexec, hx, hleaf⟩ := h.mmap hv
      rw [hexec]
      rcases hk with hone | hk
      · -- There is the default table only.
        intro k _
        left
        intro r hr r' hr'
        have hall : ∀ r ∈ s.tables, r = s.defaultPML4 := by
          intro r hr
          rw [Spaces.tables, hone] at hr
          exact mem_singleton.mp hr
        rw [hall r hr, hall r' hr']
      · refine h.forest.even h.current hx he ?_
        rintro a ⟨i, hi, hslot⟩
        have hpage : pageNumber a = pageAt va.toNat i :=
          (slot_inj (pageNumber_lt a) (pageNumber_lt _)).mp hslot
        rw [hpage]
        rcases hk with habsent | hshared
        · left
          obtain ⟨pt, pa', ht, hentry⟩ := hleaf i hi
          apply walkBy_absent leads_plain ht
          rw [hentry, present_leafEntry]
          exact habsent
        · exact .inr (hshared i hi)
    | munmap va npages =>
      obtain ⟨m', hexec, hx, hnone⟩ := h.munmap hv
      rw [hexec]
      refine h.forest.even h.current hx he ?_
      rintro a ⟨i, hi, hslot⟩
      rw [hslot]
      exact .inl (hnone i hi)

theorem Sound.not_agree (hv : Valid s palloc c) (hk : ¬ KeepsShared s c)
    (he : Even s.tables s.mem) : ¬ Agree (c.exec palloc s) := by
  cases c with
  | createPagetable => exact absurd trivial hk
  | switchPagetable ptr => exact absurd trivial hk
  | map c =>
    cases c with
    | munmap va npages => exact absurd trivial hk
    | mmap pa va npages attributes =>
      obtain ⟨m', hexec, hx, hleaf⟩ := h.mmap hv
      rw [hexec]
      simp only [KeepsShared, not_or, not_forall] at hk
      obtain ⟨hcreated, hpres, i, hi, hnot⟩ := hk
      have hother : ∃ r ∈ s.tables, r ≠ s.currentPML4 := by
        by_cases hcur : s.currentPML4 = s.defaultPML4
        · obtain ⟨t, ht⟩ := exists_mem_of_ne_nil _ hcreated
          refine ⟨t, mem_cons_of_mem _ ht, ?_⟩
          rintro rfl
          exact h.others (hcur ▸ ht)
        · exact ⟨s.defaultPML4, mem_cons_self, Ne.symm hcur⟩
      have hhigh : 256 ≤ (topIndex (pageNumber (va.toNat + i * 0x1000))).val := (hv.2 i hi).1
      obtain ⟨r, hr, hnone⟩ := h.forest.uneven h.current hx he hhigh hnot hother
      obtain ⟨pt, pa', ht, hentry⟩ := hleaf i hi
      have hmapped : translate s.currentPML4 m' (va.toNat + i * 0x1000) ≠ none := by
        apply translate_leaf ht
        change present (getEntry m' pt (index (pageAt va.toNat i))) = true
        rw [hentry, present_leafEntry]
        simpa using hpres
      intro hagree
      have hva : 256 ≤ getPml4Index (va.toNat + i * 0x1000) := by
        rw [getPml4Index_eq]
        exact hhigh
      apply hmapped
      rw [hagree.tables h.current hva, ← hagree.tables hr hva]
      exact hnone

end Step

/-! ## Whole runs -/

/-- After `initialise`: the processor's PML4 is the default one. -/
structure Booted (s : Spaces) : Prop where
  created : s.created = []
  current : s.currentPML4 = s.defaultPML4
  hierarchy : Hierarchy plain s.defaultPML4 s.mem

theorem Booted.sound (h : Booted s) : Sound s := by
  have htables : s.tables = [s.defaultPML4] := by rw [Spaces.tables, h.created]
  refine ⟨⟨?_, ?_⟩, ?_, ?_⟩
  · rw [htables]
    intro r hr
    rw [mem_singleton.mp hr]
    exact h.hierarchy
  · rw [htables]
    intro r hr r' hr' p q t hp hq ht ht'
    rw [mem_singleton.mp hr] at ht ⊢
    rw [mem_singleton.mp hr'] at ht' ⊢
    exact ⟨h.hierarchy.tree p q t hp hq ht ht', fun _ => rfl, fun _ _ _ => rfl⟩
  · rw [htables, h.current]
    exact mem_singleton_self _
  · rw [h.created]
    exact not_mem_nil

theorem Booted.even (h : Booted s) : Even s.tables s.mem := by
  intro k _
  left
  intro r hr r' hr'
  rw [Spaces.tables, h.created] at hr hr'
  rw [mem_singleton.mp hr, mem_singleton.mp hr']

theorem run_snoc (s : Spaces) (steps : List Step) (step : Step) :
    run s (steps ++ [step]) = step.2.exec step.1 (run s steps) := by
  rw [run, foldl_append]
  rfl

/-- The calls of a run are made in the states that the run has come to. -/
def EachCall (P : Spaces → Step → Prop) (s : Spaces) (steps : List Step) : Prop :=
  ∀ pre step, pre ++ [step] <+: steps → P (run s pre) step

theorem eachCall_snoc {step : Step} :
    EachCall P s (steps ++ [step]) ↔ EachCall P s steps ∧ P (run s steps) step := by
  constructor
  · intro h
    exact ⟨fun pre st hpre => h pre st (hpre.trans (prefix_append steps [step])),
      h steps step prefix_rfl⟩
  · rintro ⟨h, hlast⟩ pre st hpre
    rcases prefix_concat_iff.mp hpre with heq | hpre
    · obtain ⟨rfl, hst⟩ := append_inj' heq rfl
      rw [singleton_inj.mp hst]
      exact hlast
    · exact h pre st hpre

theorem eachCall_cons {step : Step} :
    EachCall P s (step :: steps) ↔ P s step ∧ EachCall P (step.2.exec step.1 s) steps := by
  constructor
  · intro h
    exact ⟨h [] step ⟨steps, rfl⟩, fun pre st hpre =>
      h (step :: pre) st (cons_prefix_cons.mpr ⟨rfl, hpre⟩)⟩
  · rintro ⟨hfirst, h⟩ pre st hpre
    cases pre with
    | nil =>
      obtain ⟨rfl, -⟩ := cons_prefix_cons.mp hpre
      exact hfirst
    | cons first pre =>
      obtain ⟨rfl, htail⟩ := cons_prefix_cons.mp hpre
      exact h pre st htail

theorem eachCall_nil : EachCall P s [] := fun pre st hpre => by simp at hpre

theorem run_even (h0 : Booted s) (hvalid : EachCall (fun s step => Valid s step.1 step.2) s steps) :
    Sound (run s steps) ∧ (EachCall (fun s step => KeepsShared s step.2) s steps →
      Even (run s steps).tables (run s steps).mem) := by
  induction steps using reverseRecOn with
  | nil => exact ⟨h0.sound, fun _ => h0.even⟩
  | append_singleton steps step ih =>
    obtain ⟨hvalid, hlast⟩ := eachCall_snoc.mp hvalid
    obtain ⟨hsound, heven⟩ := ih hvalid
    rw [run_snoc]
    refine ⟨hsound.exec hlast, fun hkeeps => ?_⟩
    obtain ⟨hkeeps, hk⟩ := eachCall_snoc.mp hkeeps
    exact hsound.even hlast hk (heven hkeeps)

/-- The upper half is the same in all address spaces at every point of a run exactly if each call
of `mmap` finds its PML4 entries in all tables. -/
theorem kernelHalf_shared_iff {s : Spaces} (h0 : Booted s) {steps : List Step}
    (hvalid : EachCall (fun s step => Valid s step.1 step.2) s steps) :
    (∀ pre, pre <+: steps → Agree (run s pre)) ↔
      EachCall (fun s step => KeepsShared s step.2) s steps := by
  induction steps using reverseRecOn with
  | nil =>
    constructor
    · exact fun _ => eachCall_nil
    · intro _ pre hpre
      rw [prefix_nil.mp hpre]
      exact h0.even.agree
  | append_singleton steps step ih =>
    obtain ⟨hbefore, hlast⟩ := eachCall_snoc.mp hvalid
    obtain ⟨hsound, heven⟩ := run_even h0 hbefore
    have ih := ih hbefore
    rw [eachCall_snoc, ← ih]
    constructor
    · intro hall
      have hpre : ∀ pre, pre <+: steps → Agree (run s pre) := fun pre hp =>
        hall pre (hp.trans (prefix_append steps [step]))
      refine ⟨hpre, ?_⟩
      by_contra hk
      refine hsound.not_agree hlast hk (heven (ih.mp hpre)) ?_
      rw [← run_snoc]
      exact hall _ prefix_rfl
    · rintro ⟨hpre, hk⟩ pre hp
      rcases prefix_concat_iff.mp hp with rfl | hp
      · rw [run_snoc]
        exact (hsound.even hlast hk (heven (ih.mp hpre))).agree
      · exact hpre pre hp

/-! ## A second address space -/

/-- One empty table. -/
def bare : Spaces := ⟨fun _ => 0, paToVa 0x1000, [], paToVa 0x1000⟩

theorem bare_booted : Booted bare := ⟨rfl, rfl, hierarchy_empty leads_plain⟩

theorem bare_serves : Serves bare.tables (fun m => (0x2000, m)) bare.mem := by
  refine ⟨by decide, by decide, ?_, fun r _ x _ => rfl⟩
  intro r hr p _ ht
  rw [mem_singleton.mp hr] at ht
  rw [tableBy_empty leads_plain ht, tableBy, follow_nil] at ht
  exact absurd (Option.some.inj ht) (by decide)

theorem bare_create : EachCall (fun s step => Valid s step.1 step.2) bare
    [(fun m => (0x2000, m), .createPagetable)] :=
  eachCall_cons.mpr ⟨⟨fun _ => bare_serves, bare_serves.same⟩, eachCall_nil⟩

theorem exists_serves {tables : List Nat} (hfew : tables.length ≤ 4) :
    ∃ palloc : Palloc, ∀ m, Serves tables palloc m ∧ (palloc m).1 ≠ 0 := by
  choose page hlow hlt ha hfresh using exists_fresh_all plain hfew
  refine ⟨fun m => (page m, m), fun m => ⟨⟨hlt m, ha m, hfresh m, fun r _ x _ => rfl⟩, ?_⟩⟩
  exact Nat.ne_of_gt (lt_of_lt_of_le (by decide) (hlow m))

theorem leads_of_table {leads : Nat → Bool} {path q : Route} {j : Fin 512} {root t u : Nat}
    (h : tableBy leads root m path = some t) (hpre : q ++ [j] <+: path)
    (hq : tableBy leads root m q = some u) : leads (getEntry m u j) = true := by
  obtain ⟨rest, rfl⟩ := hpre
  rw [tableBy, follow, foldlM_append] at h
  obtain ⟨v, hv, -⟩ := Option.bind_eq_some_iff.mp h
  have hstep := (follow_snoc q j).symm.trans hv
  rw [show follow (childBy leads m) root q = some u from hq, Option.bind_some, childBy] at hstep
  by_contra hlead
  rw [if_neg hlead] at hstep
  cases hstep

/-- A second table between two pages with the same PML4 entry. -/
theorem kernelHalf_shared_iff_mapped : ∃ (palloc palloc' : Palloc) (steps : List Step) (t : Nat),
    steps = [(palloc, .map (.mmap 0x200000 0xFFFF800000000000 1 3)), (palloc, .createPagetable),
      (palloc', .map (.mmap 0x300000 0xFFFF800000001000 1 3))] ∧
    (run bare steps).created = [t] ∧ ∀ pre, pre <+: steps → Agree (run bare pre) := by
  obtain ⟨palloc, hp⟩ := @exists_serves bare.tables (by decide)
  have hfirst : Valid bare palloc (.map (.mmap 0x200000 0xFFFF800000000000 1 3)) := by
    refine ⟨fun _ m _ => (hp m).1, fun i hi => ⟨?_, clear_empty _ _ _⟩⟩
    obtain rfl : i = 0 := Nat.lt_one_iff.mp hi
    decide
  obtain ⟨m1, hexec1, -, hleaf⟩ := bare_booted.sound.mmap hfirst
  obtain ⟨pt, -, htable, -⟩ := hleaf 0 (by decide)
  have hsound1 := bare_booted.sound.exec hfirst
  rw [hexec1] at hsound1
  obtain ⟨m2, hexec2, hn⟩ := hsound1.created (hp m1).1 (hp m1).2
  obtain ⟨palloc', hp'⟩ := @exists_serves [bare.defaultPML4, paToVa (palloc m1).1] (by simp)
  -- The walk to the first page is the one to the second.
  have hsame := hn.same bare.defaultPML4 mem_cons_self
  have hclear : Clear plain bare.defaultPML4 m2 (pathTo (pageAt 0xFFFF800000001000 0)) :=
    hsame.clear (le_of_eq (pathTo_length _)) fun _ _ _ hpre hq _ => leads_of_table htable hpre hq
  have htop : present (getEntry m2 bare.defaultPML4 ((256 : Fin 512) : Nat)) = true := by
    have hnil : ([] : Route).length ≤ 3 := Nat.zero_le 3
    rw [hsame.getEntry_eq hnil rfl]
    exact leads_plain.present _ (leads_of_table htable (q := []) (by decide) rfl)
  refine ⟨palloc, palloc', _, paToVa (palloc m1).1, rfl, ?_,
    (kernelHalf_shared_iff bare_booted ?_).mpr ?_⟩
  · simp only [run, foldl_cons, foldl_nil, hexec1, hexec2]
    rfl
  · simp only [eachCall_cons, hexec1, hexec2]
    refine ⟨hfirst, ⟨fun _ => (hp m1).1, (hp m1).1.same⟩, ⟨fun _ m _ => (hp' m).1, fun i hi => ?_⟩,
      eachCall_nil⟩
    obtain rfl : i = 0 := Nat.lt_one_iff.mp hi
    exact ⟨by decide, hclear⟩
  · simp only [eachCall_cons, hexec1, hexec2]
    refine ⟨.inl rfl, trivial, .inr (.inr fun i hi => ?_), eachCall_nil⟩
    obtain rfl : i = 0 := Nat.lt_one_iff.mp hi
    refine ⟨htop, ?_⟩
    intro r hr
    rcases mem_cons.mp hr with rfl | hr
    · rfl
    · rw [mem_singleton.mp hr]
      exact hn.upper 256 (by decide)

/-- A page is mapped in the default table after another one was made. -/
theorem mapped_in_one_table : ∃ palloc, Booted bare ∧
    EachCall (fun s step => Valid s step.1 step.2) bare [(fun m => (0x2000, m), .createPagetable),
      (palloc, .map (.mmap 0x200000 0xFFFF800000000000 1 3))] ∧
    ¬ Agree (run bare [(fun m => (0x2000, m), .createPagetable),
      (palloc, .map (.mmap 0x200000 0xFFFF800000000000 1 3))]) := by
  obtain ⟨hsound, heven⟩ := run_even bare_booted bare_create
  have hkeeps : EachCall (fun s step => KeepsShared s step.2) bare
      [(fun m => (0x2000, m), .createPagetable)] := eachCall_cons.mpr ⟨trivial, eachCall_nil⟩
  have heven := heven hkeeps
  generalize hs : run bare [(fun m => (0x2000, m), .createPagetable)] = s at hsound heven
  -- The upper half of both tables is empty.
  obtain ⟨m', hexec, hn⟩ := bare_booted.sound.created bare_serves (by decide)
  have hmem : s.mem = m' := hs ▸ (congrArg Spaces.mem hexec :)
  have hsame : SameBy plain bare.defaultPML4 bare.mem s.mem := hmem ▸ hn.same _ mem_cons_self
  have hcur : s.currentPML4 = bare.defaultPML4 := by
    rw [← hs]
    rfl
  have hcreated : s.created = [paToVa 0x2000] := by
    rw [← hs]
    rfl
  have hfew : s.tables.length ≤ 4 := by
    rw [Spaces.tables, hcreated]
    simp
  obtain ⟨palloc, hp⟩ := exists_serves hfew
  have hvalid : Valid s palloc (.map (.mmap 0x200000 0xFFFF800000000000 1 3)) := by
    refine ⟨fun _ m _ => (hp m).1, fun i hi => ⟨?_, ?_⟩⟩
    · obtain rfl : i = 0 := Nat.lt_one_iff.mp hi
      decide
    · rw [hcur]
      exact hsame.clear (le_of_eq (pathTo_length _)) (clear_empty _ _ _)
  have hnot : ¬ KeepsShared s (.map (.mmap 0x200000 0xFFFF800000000000 1 3)) := by
    rintro (hnone | habsent | hshared)
    · rw [hcreated] at hnone
      cases hnone
    · exact absurd habsent (by decide)
    · have hpres := (hshared 0 (by decide)).1
      have hnil : ([] : Route).length ≤ 3 := Nat.zero_le 3
      rw [hcur, hsame.getEntry_eq hnil rfl, show bare.mem = fun _ => 0 from rfl, absent_empty] at hpres
      cases hpres
  refine ⟨palloc, bare_booted, ?_, ?_⟩
  · rw [← singleton_append, eachCall_snoc, hs]
    exact ⟨bare_create, hvalid⟩
  · rw [← singleton_append, run_snoc, hs]
    exact hsound.not_agree hvalid hnot heven

end Terrakernel.Vmm
