import Terrakernel.Vmm.Hierarchy

/-!
# Page tables as the code sees them

The code follows every present entry. Where no entry is a large page, this is the
hierarchy that the processor walks too, and it stays one.
-/

namespace Terrakernel.Vmm

open Memory Mem Paths

/-! ## Tables -/

/-- The table that entry `i` of table `t` leads to. -/
def child (m : Mem) (t : Nat) (i : Fin 512) : Option Nat :=
  if present (getEntry m t i) then some (tableOf (getEntry m t i)) else none

abbrev tableAt (root : Nat) (m : Mem) (path : Route) : Option Nat :=
  follow (child m) root path

/-- The hierarchy under `root` is a tree without large pages, in the direct map. -/
structure Good (root : Nat) (m : Mem) : Prop where
  rootTable : IsTable root
  entries : ∀ p t (i : Fin 512), p.length < 3 → tableAt root m p = some t → present (getEntry m t i) = true →
    getEntry m t i < 2 ^ 47
  noLarge : ∀ p t (i : Fin 512), p.length < 3 → tableAt root m p = some t → present (getEntry m t i) = true →
    getEntry m t i / 0x80 % 2 = 0
  tree : Tree 3 (child m) root

theorem leads_present : Leads present :=
  ⟨fun _ h => h, fun page _ _ => (present_iff _).mpr (by omega)⟩

theorem clear_present (root : Nat) (m : Mem) (path : Route) : Clear present root m path :=
  fun _ _ _ _ _ h => h

theorem Good.hierarchy {root : Nat} {m : Mem} (h : Good root m) : Hierarchy present root m :=
  ⟨h.rootTable, h.entries, h.tree⟩

theorem Good.grows {root : Nat} {own supplied : Nat → Prop} {changed : Route → Prop}
    {m m' : Mem} (h : Good root m) (hx : Grows present own supplied root changed m m') :
    Good root m' := by
  refine ⟨hx.hierarchy.rootTable, hx.hierarchy.low, ?_, hx.hierarchy.tree⟩
  intro q t j hq ht hpres
  rcases hx.made q t j hq ht hpres with ⟨ht', he⟩ | ⟨page, -, ha, he⟩
  · rw [he] at hpres ⊢
    exact h.noLarge q t j hq ht' hpres
  · rw [he]
    omega

/-- `m'` has the tables of `m`, and the same bytes in them. -/
def SameTables (root : Nat) (m m' : Mem) : Prop :=
  ∀ p t, p.length ≤ 3 → tableAt root m p = some t → ∀ x, t ≤ x → x < t + 0x1000 → m' x = m x

/-! ## Leaves -/

/-- The leaf entry found along a path of three indices and one more. -/
def leafAt (root : Nat) (m : Mem) (p : Route) (i : Fin 512) : Option Nat :=
  (tableAt root m p).map (getEntry m · i)

theorem setLeaf_leafAt {root : Nat} {m : Mem} (hg : Good root m) {p : Route} {t : Nat}
    (hp : p.length = 3) (ht : tableAt root m p = some t) (i : Fin 512) {v : Nat} (hv : v < word)
    {q : Route} (hq : q.length = 3) (j : Fin 512) :
    leafAt root (setEntry m t i v) q j =
      if q = p ∧ j = i then some v else leafAt root m q j := by
  have htable : tableAt root (setEntry m t i v) q = tableAt root m q :=
    setLeaf_tableBy hg.hierarchy hp ht i v (le_of_eq hq)
  unfold leafAt
  rw [htable]
  by_cases h : q = p ∧ j = i
  · rw [if_pos h, h.1, h.2, ht, Option.map_some, getEntry_setEntry_self m t i hv]
  · rw [if_neg h]
    cases hu : tableAt root m q with
    | none => simp only [Option.map_none]
    | some u =>
      simp only [Option.map_some, setLeaf_entry hg.hierarchy hp ht i v (le_of_eq hq) hu h]

/-! ## New tables -/

/-- What is assumed of `palloc(1)`: it succeeds, with a page that is not part of the hierarchy,
and does not write to the tables. -/
def Supplies (root : Nat) (palloc : Palloc) : Prop :=
  ∀ m, Good root m → (palloc m).1 ≠ 0 ∧ (palloc m).1 < 2 ^ 47 ∧ (palloc m).1 % 0x1000 = 0 ∧
    (∀ p, p.length ≤ 3 → tableAt root m p ≠ some (paToVa (palloc m).1)) ∧
    SameTables root m (palloc m).2

theorem Supplies.supplying {root : Nat} {palloc : Palloc} (h : Supplies root palloc)
    {m : Mem} (hg : Good root m) :
    Supplying present (fun _ => True) (fun _ => True) root palloc m := by
  intro changed m' hx
  obtain ⟨-, hlt, ha, hfresh, hsame⟩ := h m' (hg.grows hx)
  refine ⟨hlt, ha, hfresh, ?_, fun _ _ => trivial, trivial⟩
  rintro x ⟨p, t, hp, ht, h1, h2⟩
  exact hsame p t hp ht x h1 h2

end Terrakernel.Vmm
