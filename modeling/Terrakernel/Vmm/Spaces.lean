import Terrakernel.Vmm.LargePages

/-!
# Several address spaces

A new PML4 gets the upper half of the default one. The tables below are shared from then on, and the
PML4 pages are not.
-/

namespace Terrakernel.Vmm

open Memory Mem Paths
open List hiding Mem

variable {m : Mem} {r t va r' : Nat} {k : Fin 512}

/-! ## Calls -/

/-- `original_PML4` and `default_PML4` are the same from `initialise` on. A table is known by its
address in the direct map, and `created` are those that were made. -/
structure Spaces where
  mem : Mem
  defaultPML4 : Nat
  created : List Nat
  currentPML4 : Nat

def Spaces.tables (s : Spaces) : List Nat := s.defaultPML4 :: s.created

inductive SpaceCall where
  | createPagetable
  | switchPagetable (ptr : Nat)
  | map (c : Call)

def SpaceCall.exec (palloc : Palloc) (s : Spaces) : SpaceCall → Spaces
  | .createPagetable =>
    let (page, m) := Vmm.createPagetable palloc s.defaultPML4 s.mem
    if page = 0 then { s with mem := m }
    else { s with mem := m, created := s.created ++ [paToVa page] }
  | .switchPagetable ptr => { s with currentPML4 := ptr }
  | .map c => { s with mem := c.exec palloc s.currentPML4 s.mem }

/-- Each call with what the allocator does in it. -/
abbrev Step := (Palloc) × SpaceCall

def run (s : Spaces) (steps : List Step) : Spaces :=
  steps.foldl (fun s step => step.2.exec step.1 s) s

/-- The addresses of the upper half are the same everywhere. -/
def Agree (s : Spaces) : Prop :=
  ∀ t ∈ s.created, ∀ va, 256 ≤ getPml4Index va →
    translate t s.mem va = translate s.defaultPML4 s.mem va

/-! ## Forests -/

/-- The entry of a PML4 for page `v`. -/
def topIndex (v : Nat) : Fin 512 := index (v / 2 ^ 27)

/-- Two PML4s share tables by equal entries only, and no PML4 is a table of another level. -/
structure Forest (tables : List Nat) (m : Mem) : Prop where
  hierarchy : ∀ r ∈ tables, Hierarchy plain r m
  shared : ∀ r ∈ tables, ∀ r' ∈ tables, ∀ p q t, p.length ≤ 3 → q.length ≤ 3 →
    tableBy plain r m p = some t → tableBy plain r' m q = some t →
    p = q ∧ (p = [] → r = r') ∧ ∀ k rest, p = k :: rest → getEntry m r k = getEntry m r' k

/-- The page is none of the tables. -/
def Fresh (tables : List Nat) (m : Mem) (t : Nat) : Prop :=
  IsTable t ∧ ∀ r ∈ tables, ∀ p, p.length ≤ 3 → tableBy plain r m p ≠ some t

/-- The byte is in none of the tables. -/
def Outside (tables : List Nat) (m : Mem) (x : Nat) : Prop := ∀ r ∈ tables, ¬ InTable plain r m x

theorem tableBy_top {leads : Nat → Bool} (h : getEntry m r k = getEntry m r' k)
    (rest : Route) : tableBy leads r m (k :: rest) = tableBy leads r' m (k :: rest) := by
  simp only [tableBy, follow_cons, childBy, h]

theorem present_of_tableBy {rest : Route} (h : tableBy plain r m (k :: rest) = some t) :
    present (getEntry m r k) = true := by
  rw [tableBy, follow_cons] at h
  obtain ⟨u, hu, -⟩ := Option.bind_eq_some_iff.mp h
  exact leads_plain.present _ (childBy_eq_some hu).1

section Forest

variable {tables : List Nat} {cur : Nat} {changed : Route → Prop} {m m' : Mem}
  (h : Forest tables m) (hcur : cur ∈ tables)
  (hx : Grows plain (Outside tables m) (Fresh tables m) cur changed m m')

include h hcur hx

theorem Forest.untouched (hr : r ∈ tables) {p : Route} {u : Nat} (hp : p.length ≤ 3)
    (hu : tableBy plain r m p = some u) (hroot : p = [] → r ≠ cur)
    (htop : ∀ k rest, p = k :: rest → getEntry m r k ≠ getEntry m cur k) (j : Fin 512) :
    getEntry m' u j = getEntry m u j := by
  apply getEntry_congr j.isLt
  intro x h1 h2
  by_contra hne
  have hutable := (h.hierarchy r hr).isTable hp hu
  rcases hx.bytes x hne with hout | ⟨q, w, hq, hw, h3, h4⟩ | ⟨w, ⟨hwtable, hfresh⟩, h3, h4⟩
  · exact hout r hr ⟨p, u, hp, hu, h1, h2⟩
  · obtain rfl : u = w := by
      by_contra huw
      have := hutable.apart ((h.hierarchy cur hcur).isTable hq hw) huw
      omega
    obtain ⟨rfl, hsame, hentry⟩ := h.shared r hr cur hcur p q u hp hq hu hw
    cases p with
    | nil => exact hroot rfl (hsame rfl)
    | cons k rest => exact htop k rest rfl (hentry k rest rfl)
  · have huw : u ≠ w := by
      rintro rfl
      exact hfresh r hr p hp hu
    have := hutable.apart hwtable huw
    omega

theorem Forest.root_entry (hr : r ∈ tables) (hne : r ≠ cur) (j : Fin 512) :
    getEntry m' r j = getEntry m r j := by
  have hnil : ([] : Route).length ≤ 3 := Nat.zero_le 3
  exact h.untouched hcur hx hr hnil rfl (fun _ => hne) (by simp) j

omit h hcur in
theorem Grows.root_entry {k : Fin 512} (hpres : present (getEntry m cur k) = true) :
    getEntry m' cur k = getEntry m cur k :=
  hx.stays [] cur k rfl (Or.inr ⟨by simp, hpres⟩)

theorem Forest.still_shared (hr : r ∈ tables) {k : Fin 512}
    (hsame : getEntry m r k = getEntry m cur k) (hpres : present (getEntry m cur k) = true) :
    getEntry m' r k = getEntry m' cur k := by
  by_cases hne : r = cur
  · rw [hne]
  · rw [h.root_entry hcur hx hr hne, hsame, hx.root_entry hpres]

theorem Forest.tableBy_apart (hr : r ∈ tables) (hne : r ≠ cur) {k : Fin 512}
    (hdiff : getEntry m r k ≠ getEntry m cur k) {rest : Route} (hrest : rest.length ≤ 2) :
    tableBy plain r m' (k :: rest) = tableBy plain r m (k :: rest) := by
  apply tableBy_congr
  intro p i t hpre ht
  have hlen := length_lt_of_snoc hpre
  rw [length_cons] at hlen
  refine h.untouched hcur hx hr (by omega) ht (fun _ => hne) ?_ i
  rintro k' rest' rfl
  rw [cons_append, cons_prefix_cons] at hpre
  rw [hpre.1]
  exact hdiff

theorem Forest.origin (hr : r ∈ tables) {p : Route} (hp : p.length ≤ 3)
    (ht : tableBy plain r m' p = some t) :
    (r ≠ cur ∧ tableBy plain r m p = some t ∧
        ∀ k rest, p = k :: rest → getEntry m r k ≠ getEntry m cur k) ∨
      (tableBy plain cur m' p = some t ∧ (p = [] → r = cur) ∧
        ∀ k rest, p = k :: rest → getEntry m' r k = getEntry m' cur k) := by
  by_cases hne : r = cur
  · subst hne
    exact .inr ⟨ht, fun _ => rfl, fun _ _ _ => rfl⟩
  cases p with
  | nil =>
    rw [tableBy, follow_nil] at ht
    exact .inl ⟨hne, by rw [tableBy, follow_nil, ht], by simp⟩
  | cons k rest =>
    rw [length_cons] at hp
    by_cases hsame : getEntry m r k = getEntry m cur k
    · -- The entry leads to a table, so it is present and stays.
      have hpres : present (getEntry m cur k) = true := by
        rw [← hsame, ← h.root_entry hcur hx hr hne]
        exact present_of_tableBy ht
      have hsame' := h.still_shared hcur hx hr hsame hpres
      refine .inr ⟨?_, by simp, ?_⟩
      · rw [← tableBy_top hsame' rest]
        exact ht
      · rintro k' rest' he
        obtain ⟨rfl, -⟩ := List.cons.inj he
        exact hsame'
    · refine .inl ⟨hne, ?_, ?_⟩
      · rw [← h.tableBy_apart hcur hx hr hne hsame (by omega)]
        exact ht
      · rintro k' rest' he
        obtain ⟨rfl, -⟩ := List.cons.inj he
        exact hsame

theorem Forest.grows : Forest tables m' := by
  have hshared : ∀ r ∈ tables, ∀ r' ∈ tables, ∀ p q t, p.length ≤ 3 → q.length ≤ 3 →
      tableBy plain r m' p = some t → tableBy plain r' m' q = some t →
      p = q ∧ (p = [] → r = r') ∧ ∀ k rest, p = k :: rest → getEntry m' r k = getEntry m' r' k := by
    -- A table that `cur` does not have is no table of `cur`.
    have happart : ∀ r ∈ tables, ∀ p q t, p.length ≤ 3 → q.length ≤ 3 → r ≠ cur →
        tableBy plain r m p = some t →
        (∀ k rest, p = k :: rest → getEntry m r k ≠ getEntry m cur k) →
        tableBy plain cur m' q ≠ some t := by
      intro r hr p q t hp hq hne ht hdiff ht'
      rcases hx.fresh q t hq ht' with hold | ⟨-, hnew⟩
      · obtain ⟨rfl, hsame, hentry⟩ := h.shared r hr cur hcur p q t hp hq ht hold
        cases p with
        | nil => exact hne (hsame rfl)
        | cons k rest => exact hdiff k rest rfl (hentry k rest rfl)
      · exact hnew.2 r hr p hp ht
    intro r hr r' hr' p q t hp hq ht ht'
    rcases h.origin hcur hx hr hp ht with ⟨hne, hold, hdiff⟩ | ⟨hin, hroot, htop⟩
    · rcases h.origin hcur hx hr' hq ht' with ⟨hne', hold', -⟩ | ⟨hin', -⟩
      · obtain ⟨hpq, hsame, hentry⟩ := h.shared r hr r' hr' p q t hp hq hold hold'
        refine ⟨hpq, hsame, fun k rest he => ?_⟩
        rw [h.root_entry hcur hx hr hne, h.root_entry hcur hx hr' hne']
        exact hentry k rest he
      · exact absurd hin' (happart r hr p q t hp hq hne hold hdiff)
    · rcases h.origin hcur hx hr' hq ht' with ⟨hne', hold', hdiff'⟩ | ⟨hin', hroot', htop'⟩
      · exact absurd hin (happart r' hr' q p t hq hp hne' hold' hdiff')
      · obtain rfl := hx.hierarchy.tree p q t hp hq hin hin'
        exact ⟨rfl, fun he => (hroot he).trans (hroot' he).symm,
          fun k rest he => (htop k rest he).trans (htop' k rest he).symm⟩
  refine ⟨fun r hr => ⟨(h.hierarchy r hr).rootTable, ?_, ?_⟩, hshared⟩
  · intro p t i hp ht hlead
    rcases h.origin hcur hx hr (by omega) ht with ⟨hne, hold, hdiff⟩ | ⟨hin, -⟩
    · rw [h.untouched hcur hx hr (by omega) hold (fun _ => hne) hdiff] at hlead ⊢
      exact (h.hierarchy r hr).low p t i hp hold hlead
    · exact hx.hierarchy.low p t i hp hin hlead
  · exact fun p q t hp hq ht ht' => (hshared r hr r hr p q t hp hq ht ht').1

theorem Forest.tables_stay {r : Nat} (hr : r ∈ tables) {p : Route} {t : Nat}
    (hp : p.length ≤ 3) (ht : tableBy plain r m p = some t) : tableBy plain r m' p = some t := by
  by_cases hne : r = cur
  · subst hne
    exact hx.tables p t hp ht
  cases p with
  | nil =>
    rw [tableBy, follow_nil] at ht ⊢
    exact ht
  | cons k rest =>
    rw [length_cons] at hp
    by_cases hsame : getEntry m r k = getEntry m cur k
    · have hpres : present (getEntry m cur k) = true := by
        rw [← hsame]
        exact present_of_tableBy ht
      rw [tableBy_top (h.still_shared hcur hx hr hsame hpres)]
      rw [tableBy_top hsame] at ht
      exact hx.tables _ t (by rw [length_cons]; exact hp) ht
    · rw [h.tableBy_apart hcur hx hr hne hsame (by omega)]
      exact ht

end Forest

/-! ## What the upper half maps -/

/-- Each entry of the upper half is the same in all tables, or maps nothing in any. -/
def Even (tables : List Nat) (m : Mem) : Prop :=
  ∀ k : Fin 512, 256 ≤ k.val →
    (∀ r ∈ tables, ∀ r' ∈ tables, getEntry m r k = getEntry m r' k) ∨
      ∀ r ∈ tables, ∀ va, topIndex (pageNumber va) = k → translate r m va = none

/-- The entry of `cur` is there, and in all tables. -/
def SharedTop (tables : List Nat) (m : Mem) (cur : Nat) (k : Fin 512) : Prop :=
  present (getEntry m cur k) = true ∧ ∀ r ∈ tables, getEntry m r k = getEntry m cur k

theorem slot_eq (v : Nat) :
    slot v = topIndex v :: [index (v / 2 ^ 18), index (v / 2 ^ 9), index v] := rfl

theorem translate_top
    (h : getEntry m r (topIndex (pageNumber va)) = getEntry m r' (topIndex (pageNumber va))) :
    translate r m va = translate r' m va := by
  unfold translate
  rw [slot_eq]
  unfold walkBy
  rw [h]

theorem translate_absent (h : present (getEntry m r (topIndex (pageNumber va))) = false) :
    translate r m va = none := by
  unfold translate
  rw [slot_eq]
  unfold walkBy
  rw [h]
  rfl

theorem translate_of_walk (h : walkBy plain m r (slot (pageNumber va)) = none) :
    translate r m va = none := by
  unfold translate
  rw [h]
  rfl

theorem Even.agree {s : Spaces} (h : Even s.tables s.mem) : Agree s := by
  intro t ht va hva
  rw [getPml4Index_eq] at hva
  have hdefault : s.defaultPML4 ∈ s.tables := mem_cons_self
  have ht' : t ∈ s.tables := mem_cons_of_mem _ ht
  rcases h (topIndex (pageNumber va)) hva with hsame | hnone
  · exact translate_top (hsame t ht' _ hdefault)
  · rw [hnone t ht' va rfl, hnone _ hdefault va rfl]

theorem Even.none {tables : List Nat} {cur : Nat} (h : Even tables m) (hcur : cur ∈ tables)
    (hk : 256 ≤ k.val) (hnot : ¬ SharedTop tables m cur k) (hr : r ∈ tables)
    (hva : topIndex (pageNumber va) = k) : translate r m va = none := by
  rcases h k hk with hsame | hnone
  · apply translate_absent
    rw [hva, hsame r hr cur hcur]
    by_contra hpres
    exact hnot ⟨by simpa using hpres, fun r' hr' => hsame r' hr' cur hcur⟩
  · exact hnone r hr va hva

section Change

variable {tables : List Nat} {cur : Nat} {changed : Route → Prop} {m m' : Mem}
  (h : Forest tables m) (hcur : cur ∈ tables)
  (hx : Grows plain (Outside tables m) (Fresh tables m) cur changed m m')

include h hcur hx

theorem Forest.translate_other (hr : r ∈ tables) (hne : r ≠ cur)
    (hdiff : getEntry m r (topIndex (pageNumber va)) ≠ getEntry m cur (topIndex (pageNumber va)) ∨
      present (getEntry m cur (topIndex (pageNumber va))) = false) :
    translate r m' va = translate r m va := by
  by_cases hsame : getEntry m r (topIndex (pageNumber va)) = getEntry m cur (topIndex (pageNumber va))
  · have habsent : present (getEntry m r (topIndex (pageNumber va))) = false := by
      rw [hsame]
      exact hdiff.resolve_left fun hd => hd hsame
    rw [translate_absent habsent]
    apply translate_absent
    rw [h.root_entry hcur hx hr hne]
    exact habsent
  · unfold translate
    rw [walkBy_congr]
    intro p i rest u hpath hu
    have hlen := congrArg List.length hpath
    rw [slot_eq] at hlen hpath
    simp only [length_append, length_cons, length_nil] at hlen
    refine h.untouched hcur hx hr (by omega) hu (fun _ => hne) ?_ i
    rintro k rest' rfl
    rw [← (List.cons.inj hpath).1]
    exact hsame

theorem Forest.even (he : Even tables m)
    (hquiet : ∀ va, changed (slot (pageNumber va)) →
      walkBy plain m' cur (slot (pageNumber va)) = none ∨
        SharedTop tables m cur (topIndex (pageNumber va))) : Even tables m' := by
  intro k hk
  by_cases hshared : SharedTop tables m cur k
  · left
    intro r hr r' hr'
    rw [h.still_shared hcur hx hr (hshared.2 r hr) hshared.1,
      h.still_shared hcur hx hr' (hshared.2 r' hr') hshared.1]
  right
  have hnone : ∀ va, topIndex (pageNumber va) = k → translate cur m' va = none := by
    rintro va rfl
    by_cases hc : changed (slot (pageNumber va))
    · exact translate_of_walk ((hquiet va hc).resolve_right hshared)
    · have hwalk := hx.walks (slot (pageNumber va)) rfl hc
      rw [← he.none hcur hk hshared hcur rfl, translate, translate, hwalk]
  intro r hr va hva
  by_cases hne : r = cur
  · rw [hne]
    exact hnone va hva
  subst hva
  by_cases hsame : getEntry m r (topIndex (pageNumber va)) =
      getEntry m cur (topIndex (pageNumber va)) ∧
      present (getEntry m cur (topIndex (pageNumber va))) = true
  · rw [translate_top (h.still_shared hcur hx hr hsame.1 hsame.2)]
    exact hnone va rfl
  · rw [h.translate_other hcur hx hr hne, he.none hcur hk hshared hr rfl]
    rw [not_and_or, Bool.not_eq_true] at hsame
    exact hsame

theorem Forest.uneven (he : Even tables m) (hk : 256 ≤ (topIndex (pageNumber va)).val)
    (hnot : ¬ SharedTop tables m cur (topIndex (pageNumber va))) (hother : ∃ r ∈ tables, r ≠ cur) :
    ∃ r ∈ tables, translate r m' va = none := by
  by_cases hpres : present (getEntry m cur (topIndex (pageNumber va))) = true
  · have hdiff : ¬ ∀ r ∈ tables, getEntry m r (topIndex (pageNumber va)) =
        getEntry m cur (topIndex (pageNumber va)) := fun hall => hnot ⟨hpres, hall⟩
    push Not at hdiff
    obtain ⟨r, hr, hd⟩ := hdiff
    have hne : r ≠ cur := by
      rintro rfl
      exact hd rfl
    exact ⟨r, hr, (h.translate_other hcur hx hr hne (Or.inl hd)).trans (he.none hcur hk hnot hr rfl)⟩
  · obtain ⟨r, hr, hne⟩ := hother
    rw [Bool.not_eq_true] at hpres
    exact ⟨r, hr, (h.translate_other hcur hx hr hne (Or.inr hpres)).trans (he.none hcur hk hnot hr rfl)⟩

end Change

end Terrakernel.Vmm
