import Mathlib.Algebra.Group.Nat.Defs
import Mathlib.Tactic.Common

/-!
# The direct map

Physical memory is mapped once more at the top of the address space.
-/

namespace Terrakernel

-- `uint64_t` and `size_t` arithmetic wraps here.
abbrev word : Nat := 2 ^ 64

namespace Vmm

def directBase : Nat := 0xFFFF800000000000

def paToVa (pa : Nat) : Nat := if directBase ≤ pa then pa else (pa + directBase) % word

def vaToPa (va : Nat) : Nat := if va < directBase then va else va - directBase

theorem paToVa_low {pa : Nat} (h : pa < 2 ^ 47) : paToVa pa = pa + directBase := by
  unfold paToVa
  rw [if_neg (by simp only [directBase]; omega), Nat.mod_eq_of_lt]
  simp only [directBase, word]
  omega

theorem vaToPa_paToVa {pa : Nat} (h : pa < 2 ^ 47) : vaToPa (paToVa pa) = pa := by
  rw [paToVa_low h, vaToPa, if_neg (by omega)]
  omega

end Vmm

end Terrakernel
