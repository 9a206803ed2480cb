import Mathlib.Data.Nat.Digits.Defs
import Terrakernel.Lib.Memory

/-!
# Fields of a word

A field of a word in memory is what a narrow access at its place sees.
-/

namespace Terrakernel.Fields

open Memory

theorem or_eq_add {x y : Nat} (k : Nat) (hx : 2 ^ k ∣ x) (hy : y < 2 ^ k) : x ||| y = x + y := by
  obtain ⟨q, rfl⟩ := hx
  exact (Nat.two_pow_add_eq_or_of_lt hy q).symm

/-! ## Reading a field -/

theorem load_low (m : Mem) {w n : Nat} (h : w ≤ n) :
    ∀ a, load m a n % 256 ^ w = load m a w := by
  induction w generalizing n with
  | zero => intro a; simp [load, Nat.mod_one]
  | succ w ih =>
    intro a
    obtain _ | n := n
    · omega
    have hb := (m a).isLt
    rw [load, load, ← ih (by omega : w ≤ n), pow_succ', Nat.mod_mul]
    congr 1
    · omega
    · rw [show ((m a).toNat + 256 * load m (a + 1) n) / 256 = load m (a + 1) n by omega]

theorem load_field (m : Mem) {i w n : Nat} (h : i + w ≤ n) :
    ∀ a, load m a n / 256 ^ i % 256 ^ w = load m (a + i) w := by
  induction i generalizing n with
  | zero =>
    intro a
    rw [pow_zero, Nat.div_one]
    exact load_low m (by omega) a
  | succ i ih =>
    intro a
    obtain _ | n := n
    · omega
    have hb := (m a).isLt
    rw [show a + (i + 1) = a + 1 + i by omega, ← ih (by omega : i + w ≤ n), load, pow_succ',
      ← Nat.div_div_eq_div_mul,
      show ((m a).toNat + 256 * load m (a + 1) n) / 256 = load m (a + 1) n by omega]

theorem load_eq_ofDigits (m : Mem) (w : Nat) :
    ∀ a, load m a w = Nat.ofDigits 256 ((List.range w).map fun i => (m (a + i)).toNat) := by
  induction w with
  | zero => intro a; rfl
  | succ w ih =>
    intro a
    rw [load, ih, List.range_succ_eq_map, List.map_cons, Nat.ofDigits_cons, List.map_map]
    have hnext : ∀ i, a + 1 + i = a + (i + 1) := by omega
    simp only [hnext, Nat.add_zero, Function.comp_def, Nat.succ_eq_add_one]

/-! ## Writing a field -/

theorem store_apply {w j : Nat} (h : j < w) :
    ∀ (m : Mem) (a v : Nat), store m a w v (a + j) = BitVec.ofNat 8 (v / 256 ^ j) := by
  induction w generalizing j with
  | zero => omega
  | succ w ih =>
    intro m a v
    rw [store]
    cases j with
    | zero =>
      rw [store_outside _ _ _ _ _ (by omega), Nat.add_zero, Function.update_self, pow_zero,
        Nat.div_one]
    | succ j =>
      rw [show a + (j + 1) = a + 1 + j by omega, ih (by omega), Nat.div_div_eq_div_mul, pow_succ']

section Patch

variable {N : Nat}

/-- `l` bits of `value` in place of those from `s` on. -/
def patch (data value : BitVec N) (s l : Nat) : BitVec N :=
  (data &&& ~~~(BitVec.ofNat N (2 ^ l - 1) <<< s)) |||
    (value &&& BitVec.ofNat N (2 ^ l - 1)) <<< s

theorem getLsbD_patch (data value : BitVec N) {s l j : Nat} (h : s + l ≤ N) (hj : j < N) :
    (patch data value s l).getLsbD j =
      if s ≤ j ∧ j < s + l then value.getLsbD (j - s) else data.getLsbD j := by
  unfold patch
  simp only [BitVec.getLsbD_or, BitVec.getLsbD_and, BitVec.getLsbD_not, BitVec.getLsbD_shiftLeft,
    BitVec.getLsbD_ofNat, Nat.testBit_two_pow_sub_one, hj, decide_true, Bool.true_and]
  by_cases hlow : j < s
  · simp [hlow, Nat.not_le.mpr hlow]
  · by_cases hhigh : j < s + l
    · simp [hlow, hhigh, Nat.not_lt.mp hlow, show j - s < l by omega, show j - s < N by omega]
    · simp [hlow, hhigh, show ¬ j - s < l by omega]

theorem getLsbD_byte (x : BitVec N) (j : Nat) {t : Nat} (ht : t < 8) :
    (BitVec.ofNat 8 (x.toNat / 256 ^ j)).getLsbD t = x.getLsbD (8 * j + t) := by
  have hpow : 256 ^ j = 2 ^ (8 * j) := by
    rw [pow_mul]
    rfl
  rw [hpow, BitVec.getLsbD_ofNat, Nat.testBit_div_two_pow, decide_eq_true ht, Bool.true_and,
    Nat.add_comm]
  rfl

theorem getLsbD_load (m : Mem) (a : Nat) {n j t : Nat} (hN : N = 8 * n) (hj : j < n)
    (ht : t < 8) : (BitVec.ofNat N (load m a n)).getLsbD (8 * j + t) = (m (a + j)).getLsbD t := by
  have hlt : load m a n < 2 ^ N := by
    have := load_lt m n a
    rwa [hN, pow_mul]
  have hfield := load_field m (show j + 1 ≤ n by omega) a
  rw [← getLsbD_byte _ _ ht, BitVec.toNat_ofNat, Nat.mod_eq_of_lt hlt]
  congr 1
  apply BitVec.eq_of_toNat_eq
  rw [BitVec.toNat_ofNat]
  simpa [load] using hfield

theorem store_patch (m : Mem) (a : Nat) (value : BitVec N) {n i w : Nat} (hN : N = 8 * n)
    (h : i + w ≤ n) :
    store m a n (patch (BitVec.ofNat N (load m a n)) value (8 * i) (8 * w)).toNat =
      store m (a + i) w value.toNat := by
  funext x
  by_cases hx : a ≤ x ∧ x < a + n
  · obtain ⟨j, rfl⟩ : ∃ j, x = a + j := ⟨x - a, by omega⟩
    rw [store_apply (by omega)]
    apply BitVec.eq_of_getLsbD_eq
    intro t ht
    rw [getLsbD_byte _ _ ht, getLsbD_patch _ _ (by omega) (by omega)]
    by_cases hfield : i ≤ j ∧ j < i + w
    · rw [if_pos (by omega), show a + j = a + i + (j - i) by omega, store_apply (by omega),
        getLsbD_byte _ _ ht]
      congr 1
      omega
    · rw [if_neg (by omega), store_outside _ _ _ _ _ (by omega), getLsbD_load m a hN (by omega) ht]
  · rw [store_outside _ _ _ _ _ (by omega), store_outside _ _ _ _ _ (by omega)]

end Patch

end Terrakernel.Fields
