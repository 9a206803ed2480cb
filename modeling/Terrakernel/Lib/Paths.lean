import Mathlib.Data.List.Induction
import Mathlib.Tactic.Common

/-!
# Following a path

`step a i` is the node that entry `i` of node `a` leads to. Nodes are reached from a root along
paths of bounded length.
-/

namespace Terrakernel.Paths

open List

variable {α ι : Type} {step step' : α → ι → Option α} {root : α}

def follow (step : α → ι → Option α) (root : α) (path : List ι) : Option α := path.foldlM step root

/-- No node is reached along two paths. -/
def Tree (n : Nat) (step : α → ι → Option α) (root : α) : Prop :=
  ∀ p q t, p.length ≤ n → q.length ≤ n → follow step root p = some t → follow step root q = some t →
    p = q

@[simp] theorem follow_nil : follow step root [] = some root := rfl

theorem follow_snoc (p : List ι) (i : ι) :
    follow step root (p ++ [i]) = (follow step root p).bind (step · i) := by
  simp [follow]

theorem follow_cons (i : ι) (p : List ι) :
    follow step root (i :: p) = (step root i).bind (follow step · p) := by
  simp [follow]

theorem length_lt_of_snoc {p q : List ι} {i : ι} (h : p ++ [i] <+: q) : p.length < q.length := by
  have := h.length_le
  rwa [length_append, length_singleton] at this

theorem follow_congr {q : List ι}
    (h : ∀ p i t, p ++ [i] <+: q → follow step root p = some t → step' t i = step t i) :
    follow step' root q = follow step root q := by
  induction q using reverseRecOn with
  | nil => rfl
  | append_singleton q j ih =>
    have hq := ih fun p i t hp ht => h p i t (hp.trans (prefix_append q [j])) ht
    rw [follow_snoc, follow_snoc, hq]
    cases hf : follow step root q with
    | none => rfl
    | some t => exact h q j t (prefix_refl _) hf

/-- One empty entry got a new node, which leads nowhere yet. -/
structure Added (n : Nat) (step step' : α → ι → Option α) (root : α) (path : List ι) (i : ι)
    (node new : α) : Prop where
  reached : follow step root path = some node
  depth : path.length < n
  was : step node i = none
  now : step' node i = some new
  fresh : ∀ q, q.length ≤ n → follow step root q ≠ some new
  bare : ∀ j, step' new j = none
  same : ∀ p j t, p.length < n → follow step root p = some t → ¬ (p = path ∧ j = i) →
    step' t j = step t j

section Added

variable {n : Nat} {path : List ι} {i : ι} {node new : α}
  (h : Added n step step' root path i node new)

include h

theorem Added.follow_other {q : List ι} (hq : q.length ≤ n) (hp : ¬ path ++ [i] <+: q) :
    follow step' root q = follow step root q := by
  apply follow_congr
  intro p j t hpre ht
  apply h.same p j t _ ht
  · rintro ⟨rfl, rfl⟩
    exact hp hpre
  · exact Nat.lt_of_lt_of_le (length_lt_of_snoc hpre) hq

theorem Added.follow_new : follow step' root (path ++ [i]) = some new := by
  have hpath : follow step' root path = some node := by
    rw [h.follow_other (Nat.le_of_lt h.depth), h.reached]
    exact fun hpre => Nat.lt_irrefl _ (length_lt_of_snoc hpre)
  rw [follow_snoc, hpath]
  exact h.now

theorem Added.follow_below (j : ι) (r : List ι) :
    follow step' root (path ++ [i] ++ j :: r) = none := by
  induction r using reverseRecOn with
  | nil =>
    rw [follow_snoc, h.follow_new]
    exact h.bare j
  | append_singleton r k ih =>
    rw [← cons_append, ← append_assoc, follow_snoc, ih]
    rfl

theorem Added.follow_cases {q : List ι} (hq : q.length ≤ n) :
    (¬ path ++ [i] <+: q ∧ follow step' root q = follow step root q) ∨
      (q = path ++ [i] ∧ follow step' root q = some new) ∨
      (∃ j r, q = path ++ [i] ++ j :: r ∧ follow step' root q = none) := by
  by_cases hp : path ++ [i] <+: q
  · obtain ⟨r, rfl⟩ := hp
    cases r with
    | nil =>
      right; left
      rw [append_nil]
      exact ⟨rfl, h.follow_new⟩
    | cons j r =>
      right; right
      exact ⟨j, r, rfl, h.follow_below j r⟩
  · exact .inl ⟨hp, h.follow_other hq hp⟩

theorem Added.follow_was (r : List ι) : follow step root (path ++ [i] ++ r) = none := by
  induction r using reverseRecOn with
  | nil =>
    rw [append_nil, follow_snoc, h.reached]
    exact h.was
  | append_singleton r k ih =>
    rw [← append_assoc, follow_snoc, ih]
    rfl

theorem Added.follow_mono {q : List ι} {t : α} (hq : q.length ≤ n)
    (ht : follow step root q = some t) : follow step' root q = some t := by
  rw [h.follow_other hq, ht]
  rintro ⟨r, rfl⟩
  rw [h.follow_was] at ht
  exact absurd ht (by simp)

theorem Added.tree (htree : Tree n step root) : Tree n step' root := by
  intro p q t hp hq hpt hqt
  rcases h.follow_cases hp with ⟨-, hp'⟩ | ⟨rfl, hp'⟩ | ⟨j, r, -, hp'⟩
  · rw [hp'] at hpt
    rcases h.follow_cases hq with ⟨-, hq'⟩ | ⟨rfl, hq'⟩ | ⟨j, r, -, hq'⟩
    · exact htree p q t hp hq hpt (hq' ▸ hqt)
    · rw [hq'] at hqt
      rw [← Option.some.inj hqt] at hpt
      exact absurd hpt (h.fresh p hp)
    · rw [hq'] at hqt
      exact absurd hqt (by simp)
  · rw [hp'] at hpt
    rcases h.follow_cases hq with ⟨-, hq'⟩ | ⟨rfl, hq'⟩ | ⟨j, r, -, hq'⟩
    · rw [hq', ← Option.some.inj hpt] at hqt
      exact absurd hqt (h.fresh q hq)
    · rfl
    · rw [hq'] at hqt
      exact absurd hqt (by simp)
  · rw [hp'] at hpt
    exact absurd hpt (by simp)

end Added

end Terrakernel.Paths
