import Mathlib.Data.List.Induction
import Mathlib.Tactic.Common

/-!
# The first of the smallest

A loop over a list keeps the best item so far, the first one of several.
-/

namespace Terrakernel.Choice

open List

variable {α : Type*}

/-- `a` is the first of the smallest items of `l` that are `ok`. -/
structure FirstLeast (ok : α → Prop) (size : α → Nat) (l pre : List α) (a : α) (post : List α) :
    Prop where
  split : l = pre ++ a :: post
  chosen : ok a
  before : ∀ b ∈ pre, ok b → size a < size b
  behind : ∀ b ∈ post, ok b → size a ≤ size b

section FirstLeast

variable {ok : α → Prop} {size : α → Nat} {l pre post : List α} {a b : α}

theorem FirstLeast.mem (h : FirstLeast ok size l pre a post) : a ∈ l := by
  simp [h.split]

theorem FirstLeast.le (h : FirstLeast ok size l pre a post) (hb : b ∈ l) (hok : ok b) :
    size a ≤ size b := by
  rw [h.split, mem_append, mem_cons] at hb
  rcases hb with hb | rfl | hb
  · exact Nat.le_of_lt (h.before b hb hok)
  · exact Nat.le_refl _
  · exact h.behind b hb hok

theorem FirstLeast.unique {pre' post' : List α} {c : α} (h : FirstLeast ok size l pre a post)
    (h' : FirstLeast ok size l pre' c post') : a = c := by
  have hsame := h.le h'.mem h'.chosen
  have hsame' := h'.le h.mem h.chosen
  rcases append_eq_append_iff.mp (h.split.symm.trans h'.split) with
    ⟨t, hpre, ht⟩ | ⟨t, hpre, ht⟩
  · cases t with
    | nil => exact (List.cons.inj ht).1
    | cons x t =>
      -- `a` stands in front of `c` and would have been kept.
      have hlt := h'.before a (by simp [hpre, (List.cons.inj ht).1]) h.chosen
      omega
  · cases t with
    | nil => exact (List.cons.inj ht).1.symm
    | cons x t =>
      have hlt := h.before c (by simp [hpre, (List.cons.inj ht).1]) h'.chosen
      omega

end FirstLeast

section Loop

variable (ok : α → Prop) [DecidablePred ok] (size : α → Nat)

/-- One round. -/
def consider (best : Option α) (a : α) : Option α :=
  if ok a ∧ ∀ b ∈ best, size a < size b then some a else best

def choose (l : List α) : Option α := l.foldl (consider ok size) none

theorem choose_snoc (l : List α) (a : α) :
    choose ok size (l ++ [a]) = consider ok size (choose ok size l) a := by
  simp [choose]

variable {ok size}

theorem choose_cases (l : List α) :
    (choose ok size l = none ∧ ∀ a ∈ l, ¬ ok a) ∨
      ∃ pre a post, choose ok size l = some a ∧ FirstLeast ok size l pre a post := by
  induction l using reverseRecOn with
  | nil => exact .inl ⟨rfl, by simp⟩
  | append_singleton l c ih =>
    rw [choose_snoc]
    rcases ih with ⟨hnone, hno⟩ | ⟨pre, a, post, hsome, hf⟩
    · by_cases hc : ok c
      · refine .inr ⟨l, c, [], by simp [hnone, consider, hc], rfl, hc, ?_, by simp⟩
        exact fun b hb hbok => absurd hbok (hno b hb)
      · refine .inl ⟨by simp [hnone, consider, hc], ?_⟩
        intro b hb
        rcases mem_append.mp hb with hb | hb
        · exact hno b hb
        · rwa [mem_singleton.mp hb]
    · by_cases hc : ok c ∧ size c < size a
      · refine .inr ⟨l, c, [], by simp [hsome, consider, hc], rfl, hc.1, ?_, by simp⟩
        exact fun b hb hbok => Nat.lt_of_lt_of_le hc.2 (hf.le hb hbok)
      · refine .inr ⟨pre, a, post ++ [c], by simp [hsome, consider, hc], by simp [hf.split],
          hf.chosen, hf.before, ?_⟩
        intro b hb hbok
        rcases mem_append.mp hb with hb | hb
        · exact hf.behind b hb hbok
        · rw [mem_singleton.mp hb] at hbok ⊢
          exact Nat.le_of_not_lt fun hlt => hc ⟨hbok, hlt⟩

theorem choose_none {l : List α} : choose ok size l = none ↔ ∀ a ∈ l, ¬ ok a := by
  rcases @choose_cases α ok _ size l with ⟨hnone, hno⟩ | ⟨pre, a, post, hsome, hf⟩
  · exact iff_of_true hnone hno
  · exact iff_of_false (by simp [hsome]) fun hno => hno a hf.mem hf.chosen

theorem choose_some {l : List α} {a : α} (h : choose ok size l = some a) :
    ∃ pre post, FirstLeast ok size l pre a post := by
  rcases @choose_cases α ok _ size l with ⟨hnone, -⟩ | ⟨pre, c, post, hsome, hf⟩
  · rw [h] at hnone
    exact absurd hnone (by simp)
  · obtain rfl : a = c := Option.some.inj (h.symm.trans hsome)
    exact ⟨pre, post, hf⟩

end Loop

end Terrakernel.Choice
