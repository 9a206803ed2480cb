import Terrakernel.Lib.Memory

/-!
# Bitmaps in memory

Bit `i` of the bitmap at `p` is bit `i % 8` of the byte at `p + i / 8`.
-/

namespace Terrakernel.Bitmap

open Memory Function

def test (m : Mem) (p i : Nat) : Bool := (m (p + i / 8) &&& (1#8 <<< (i % 8))) != 0#8

def set (m : Mem) (p i : Nat) : Mem :=
  update m (p + i / 8) (m (p + i / 8) ||| (1#8 <<< (i % 8)))

def clear (m : Mem) (p i : Nat) : Mem :=
  update m (p + i / 8) (m (p + i / 8) &&& ~~~(1#8 <<< (i % 8)))

theorem getLsbD_one_shift {a b : Nat} (ha : a < 8) :
    (1#8 <<< a).getLsbD b = decide (b = a) := by
  have h : (1#8 <<< a).getLsbD b = (decide (a < 8) && decide (a = b)) := BitVec.getLsbD_twoPow a b
  rw [h, decide_eq_true ha, Bool.true_and]
  exact decide_eq_decide.mpr eq_comm

theorem and_shift_ne_zero (x : Byte) {k : Nat} (hk : k < 8) :
    ((x &&& (1#8 <<< k)) != 0#8) = x.getLsbD k := by
  have hmask : x &&& 1#8 <<< k = if x.getLsbD k then 1#8 <<< k else 0#8 := BitVec.and_twoPow x k
  have hbit : 1#8 <<< k ≠ 0#8 := by
    intro h0
    have h1 := getLsbD_one_shift (b := k) hk
    rw [h0] at h1
    simp at h1
  rw [hmask]
  cases x.getLsbD k with
  | false => simp
  | true => simpa using hbit

theorem test_eq (m : Mem) (p i : Nat) : test m p i = (m (p + i / 8)).getLsbD (i % 8) :=
  and_shift_ne_zero _ (Nat.mod_lt _ (by decide))

theorem test_set (m : Mem) (p i j : Nat) : test (set m p i) p j = (decide (j = i) || test m p j) := by
  simp only [test_eq, set]
  by_cases hbyte : j / 8 = i / 8
  · have hij : j % 8 = i % 8 ↔ j = i := by omega
    rw [hbyte, update_self, BitVec.getLsbD_or,
      getLsbD_one_shift (Nat.mod_lt _ (by decide)), Bool.or_comm]
    simp only [hij]
  · rw [update_of_ne (by omega)]
    have hij : j ≠ i := by rintro rfl; exact hbyte rfl
    simp [hij]

theorem set_outside (m : Mem) {p i n x : Nat} (hi : i < 8 * n) (hx : x < p ∨ p + n ≤ x) :
    set m p i x = m x := by
  rw [set, update_of_ne (by omega)]

/-! ## Counting -/

/-- How many of the `n` bits from `first` on are set. -/
def count (bit : Nat → Bool) (first n : Nat) : Nat := (List.range n).countP fun i => bit (first + i)

@[simp] theorem count_zero (bit : Nat → Bool) (first : Nat) : count bit first 0 = 0 := rfl

theorem count_succ (bit : Nat → Bool) (first n : Nat) :
    count bit first (n + 1) = count bit first n + if bit (first + n) then 1 else 0 := by
  simp only [count, List.range_succ, List.countP_append, List.countP_singleton]

theorem count_le (bit : Nat → Bool) (first n : Nat) : count bit first n ≤ n := by
  have h := List.countP_le_length (p := fun i => bit (first + i)) (l := List.range n)
  rw [List.length_range] at h
  exact h

theorem count_eq_iff {bit : Nat → Bool} {n : Nat} :
    count bit 0 n = n ↔ ∀ i < n, bit i = true := by
  have h := List.countP_eq_length (p := fun i => bit (0 + i)) (l := List.range n)
  simpa [count] using h

theorem count_le_of_clear {bit : Nat → Bool} {k n : Nat}
    (h : ∀ i, k ≤ i → i < n → bit i = false) : count bit 0 n ≤ k := by
  induction n with
  | zero => exact Nat.zero_le k
  | succ n ih =>
    rw [count_succ, Nat.zero_add]
    rcases Nat.lt_or_ge n k with hlt | hge
    · have := count_le bit 0 n
      split_ifs <;> omega
    · rw [h n hge (Nat.lt_succ_self n), if_neg Bool.false_ne_true]
      exact ih fun i h1 h2 => h i h1 (Nat.lt_succ_of_lt h2)

theorem count_fill {bit bit' : Nat → Bool} {lo hi : Nat}
    (hclear : ∀ i, lo ≤ i → i < hi → bit i = false)
    (hfill : ∀ i, bit' i = (decide (lo ≤ i ∧ i < hi) || bit i)) (first n : Nat) :
    count bit' first n = count bit first n + (min hi (first + n) - max lo first) := by
  induction n with
  | zero =>
    rw [count_zero, count_zero]
    omega
  | succ n ih =>
    rw [count_succ, count_succ, ih, hfill]
    by_cases hin : lo ≤ first + n ∧ first + n < hi
    · rw [hclear _ hin.1 hin.2, decide_eq_true hin]
      simp only [Bool.or_false, if_true, Bool.false_eq_true, if_false]
      omega
    · rw [decide_eq_false hin, Bool.false_or]
      omega

end Terrakernel.Bitmap
