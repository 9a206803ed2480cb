import Mathlib.Data.List.Basic
import Mathlib.Data.List.Infix
import Mathlib.Tactic.Common

/-!
# Records with a terminator

Records stand one behind the other, each with the value `e` at its end. A place takes them in order,
up to the first that does not fit.
-/

namespace Terrakernel.Records

open List

variable {α : Type} {e : α}

/-- The records, each with its end. -/
def records (e : α) (xs : List (List α)) : List α := xs.flatMap (· ++ [e])

@[simp] theorem records_nil : records e [] = [] := rfl

@[simp] theorem records_cons (x : List α) (xs : List (List α)) :
    records e (x :: xs) = x ++ [e] ++ records e xs := rfl

theorem length_records_cons (x : List α) (xs : List (List α)) :
    (records e (x :: xs)).length = x.length + 1 + (records e xs).length := by
  rw [records_cons, length_append, length_append, length_singleton]

theorem records_isPrefix {xs ys : List (List α)} (h : xs <+: ys) :
    records e xs <+: records e ys := by
  obtain ⟨zs, rfl⟩ := h
  exact ⟨records e zs, flatMap_append.symm⟩

theorem length_records_le {k : Nat} {xs : List (List α)} (h : ∀ x ∈ xs, x.length ≤ k) :
    (records e xs).length ≤ (k + 1) * xs.length := by
  induction xs with
  | nil => simp
  | cons x xs ih =>
    rw [forall_mem_cons] at h
    have := ih h.2
    rw [length_records_cons, length_cons, Nat.mul_succ]
    omega

/-- The records that fit into `room`, up to the first that does not. -/
def fitting : Nat → List (List α) → List (List α)
  | _, [] => []
  | room, x :: xs =>
    if room < x.length + 1 then [] else x :: fitting (room - (x.length + 1)) xs

theorem fitting_prefix (room : Nat) (xs : List (List α)) : fitting room xs <+: xs := by
  induction xs generalizing room with
  | nil => exact prefix_rfl
  | cons x xs ih =>
    unfold fitting
    split_ifs with h
    · exact nil_prefix
    · exact cons_prefix_cons.mpr ⟨rfl, ih _⟩

theorem length_fitting (room : Nat) (xs : List (List α)) :
    (records e (fitting room xs)).length ≤ room := by
  induction xs generalizing room with
  | nil => exact Nat.zero_le _
  | cons x xs ih =>
    unfold fitting
    split_ifs with h
    · exact Nat.zero_le _
    · have := ih (room - (x.length + 1))
      rw [length_records_cons]
      omega

theorem prefix_fitting {room : Nat} {xs ys : List (List α)} (h : ys <+: xs)
    (hlen : (records e ys).length ≤ room) : ys <+: fitting room xs := by
  induction xs generalizing room ys with
  | nil => exact h
  | cons x xs ih =>
    cases ys with
    | nil => exact nil_prefix
    | cons y ys =>
      obtain ⟨rfl, hrest⟩ := cons_prefix_cons.mp h
      rw [length_records_cons] at hlen
      unfold fitting
      rw [if_neg (by omega)]
      exact cons_prefix_cons.mpr ⟨rfl, ih hrest (by omega)⟩

end Terrakernel.Records
