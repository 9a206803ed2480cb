import Mathlib.Data.Nat.Bitwise
import Mathlib.Tactic.Common
import Mathlib.Tactic.Ring

/-!
# Rounding up to a multiple

`gap a p` bytes lie between `p` and the next multiple of `a`.
-/

namespace Terrakernel.Align

def gap (a p : Nat) : Nat := (a - p % a) % a

theorem gap_cases {a : Nat} (ha : 0 < a) (p : Nat) :
    p % a = 0 ∧ gap a p = 0 ∨ p % a ≠ 0 ∧ gap a p = a - p % a := by
  have hlt := Nat.mod_lt p ha
  unfold gap
  by_cases h : p % a = 0
  · left
    rw [h, Nat.sub_zero, Nat.mod_self]
    exact ⟨rfl, rfl⟩
  · exact .inr ⟨h, Nat.mod_eq_of_lt (by omega)⟩

theorem gap_lt {a : Nat} (ha : 0 < a) (p : Nat) : gap a p < a := Nat.mod_lt _ ha

theorem gap_eq_zero {a : Nat} (ha : 0 < a) (p : Nat) : gap a p = 0 ↔ a ∣ p := by
  rw [Nat.dvd_iff_mod_eq_zero]
  have := Nat.mod_lt p ha
  rcases gap_cases ha p with ⟨h1, h2⟩ | ⟨h1, h2⟩
  · exact iff_of_true h2 h1
  · exact iff_of_false (by omega) h1

theorem add_gap {a : Nat} (ha : 0 < a) (p : Nat) : p + gap a p = (p + a - 1) / a * a := by
  obtain ⟨q, r, hr, rfl⟩ : ∃ q r, r < a ∧ p = a * q + r :=
    ⟨p / a, p % a, Nat.mod_lt p ha, (Nat.div_add_mod p a).symm⟩
  have hmod : (a * q + r) % a = r := by rw [Nat.mul_add_mod, Nat.mod_eq_of_lt hr]
  have hcases := gap_cases ha (a * q + r)
  rw [hmod] at hcases
  rcases hcases with ⟨rfl, hgap⟩ | ⟨hpos, hgap⟩
  · rw [hgap, show a * q + 0 + a - 1 = (a - 1) + a * q by omega, Nat.add_mul_div_left _ _ ha,
      Nat.div_eq_of_lt (by omega)]
    ring
  · rw [hgap, show a * q + r + a - 1 = (r - 1) + a * (q + 1) by rw [Nat.mul_succ]; omega,
      Nat.add_mul_div_left _ _ ha, Nat.div_eq_of_lt (by omega), Nat.zero_add, Nat.succ_mul,
      Nat.mul_comm q a]
    omega

theorem dvd_add_gap {a : Nat} (ha : 0 < a) (p : Nat) : a ∣ p + gap a p := by
  rw [add_gap ha]
  exact Nat.dvd_mul_left a _

theorem and_not_mask {x w k : Nat} (hx : x < 2 ^ w) (hk : k ≤ w) :
    x &&& (2 ^ w - 1 - (2 ^ k - 1)) = x / 2 ^ k * 2 ^ k := by
  have hmask : 2 ^ k - 1 < 2 ^ w :=
    lt_of_lt_of_le (Nat.sub_lt (Nat.two_pow_pos k) Nat.one_pos) (Nat.pow_le_pow_right (by decide) hk)
  rw [Nat.sub_sub, Nat.add_comm 1]
  apply Nat.eq_of_testBit_eq
  intro i
  rw [Nat.testBit_and, Nat.testBit_two_pow_sub_succ hmask, Nat.testBit_two_pow_sub_one,
    Nat.testBit_mul_two_pow, Nat.testBit_div_two_pow]
  by_cases hi : k ≤ i
  · by_cases hw : i < w
    · simp [hi, hw]
    · have hhigh : x.testBit i = false :=
        Nat.testBit_lt_two_pow (lt_of_lt_of_le hx (Nat.pow_le_pow_right (by decide) (by omega)))
      simp [hi, hw, hhigh]
  · simp [hi]
    omega

end Terrakernel.Align
