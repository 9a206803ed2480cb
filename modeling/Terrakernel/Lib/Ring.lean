import Mathlib.Data.List.Range
import Mathlib.Logic.Function.Basic
import Mathlib.Tactic.Common

/-!
# A window of a ring

The elements in `count` slots of a ring, from slot `head` on.
-/

namespace Terrakernel.Ring

open Function

variable {α : Type} {slot : Nat → α} {capacity head count : Nat}

def window (slot : Nat → α) (capacity head count : Nat) : List α :=
  (List.range count).map fun k => slot ((head + k) % capacity)

@[simp] theorem length_window : (window slot capacity head count).length = count := by
  simp [window]

@[simp] theorem window_zero : window slot capacity head 0 = [] := rfl

theorem window_succ : window slot capacity head (count + 1) =
    window slot capacity head count ++ [slot ((head + count) % capacity)] := by
  simp [window, List.range_succ]

theorem slot_ne {k l : Nat} (hkl : k < l) (hl : l < capacity) :
    (head + k) % capacity ≠ (head + l) % capacity := by
  intro heq
  have hzero := Nat.sub_mod_eq_zero_of_mod_eq heq.symm
  rw [Nat.mod_eq_of_lt (by omega)] at hzero
  omega

theorem window_push (hcount : count < capacity) (v : α) :
    window (update slot ((head + count) % capacity) v) capacity head (count + 1) =
      window slot capacity head count ++ [v] := by
  rw [window_succ, update_self]
  congr 1
  apply List.map_congr_left
  intro k hk
  rw [update_of_ne (slot_ne (List.mem_range.mp hk) hcount)]

theorem window_pop (hhead : head < capacity) :
    window slot capacity head (count + 1) =
      slot head :: window slot capacity ((head + 1) % capacity) count := by
  simp only [window, List.range_succ_eq_map, List.map_cons, List.map_map, Nat.add_zero,
    Nat.mod_eq_of_lt hhead, List.cons.injEq, true_and]
  apply List.map_congr_left
  intro k _
  rw [comp_apply, Nat.mod_add_mod, Nat.succ_eq_add_one, Nat.add_right_comm, Nat.add_assoc]

end Terrakernel.Ring
