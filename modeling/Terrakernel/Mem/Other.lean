import Terrakernel.Lib.Memory

/-!
# The byte loops of `mem/other.cpp`

`memset`, `memcpy` and `memmove`, as loops over a flat memory.
-/

namespace Terrakernel.Mem

open Memory Function

/-- The memory after the first `count` rounds of `d[i] = value`. -/
def memset (m : Mem) (dest : Nat) (value : Byte) : Nat → Mem
  | 0 => m
  | i + 1 => update (memset m dest value i) (dest + i) value

/-- The memory after the first `count` rounds of `d[i] = s[i]`. -/
def memcpy (m : Mem) (dest src : Nat) : Nat → Mem
  | 0 => m
  | i + 1 => update (memcpy m dest src i) (dest + i) (memcpy m dest src i (src + i))

/-- The rounds of `d[i - 1] = s[i - 1]`, from `count` down. -/
def copyDown (dest src : Nat) : Nat → Mem → Mem
  | 0, m => m
  | i + 1, m => copyDown dest src i (update m (dest + i) (m (src + i)))

def memmove (m : Mem) (dest src count : Nat) : Mem :=
  if dest = src ∨ count = 0 then m
  -- The same loop as in `memcpy`.
  else if dest < src then memcpy m dest src count
  else copyDown dest src count m

/-! ## `memset` -/

theorem memset_apply (m : Mem) (dest : Nat) (value : Byte) (count x : Nat) :
    memset m dest value count x = if dest ≤ x ∧ x < dest + count then value else m x := by
  induction count with
  | zero => rw [memset, if_neg (by omega)]
  | succ i ih =>
    rw [memset, update_apply, ih]
    split_ifs <;> first | rfl | omega

theorem memset_append (m : Mem) (dest : Nat) (value : Byte) (count more : Nat) :
    memset (memset m dest value count) (dest + count) value more =
      memset m dest value (count + more) := by
  induction more with
  | zero => rfl
  | succ i ih => rw [memset, ih, Nat.add_assoc, ← Nat.add_assoc count, memset]

theorem memset_succ (m : Mem) (dest : Nat) (value : Byte) (count : Nat) :
    memset (update m dest value) (dest + 1) value count =
      memset m dest value (count + 1) := by
  rw [Nat.add_comm count]
  exact memset_append m dest value 1 count

theorem store_repeated {w v : Nat} {value : Byte} (h : ∀ i < w, BitVec.ofNat 8 (v / 256 ^ i) = value)
    (m : Mem) (a : Nat) : store m a w v = memset m a value w := by
  induction w generalizing m a v with
  | zero => rfl
  | succ w ih =>
    have hfirst : BitVec.ofNat 8 v = value := by simpa using h 0 (Nat.succ_pos w)
    have hrest : ∀ i < w, BitVec.ofNat 8 (v / 256 / 256 ^ i) = value := by
      intro i hi
      rw [Nat.div_div_eq_div_mul, ← pow_succ']
      exact h (i + 1) (by omega)
    rw [store, hfirst, ih hrest, memset_succ]

/-! ## `memcpy` and `memmove` -/

theorem memcpy_outside (m : Mem) (dest src : Nat) {count x : Nat}
    (h : x < dest ∨ dest + count ≤ x) : memcpy m dest src count x = m x := by
  induction count with
  | zero => rfl
  | succ i ih => rw [memcpy, update_of_ne (by omega), ih (by omega)]

theorem memcpy_apply (m : Mem) {dest src count : Nat} (h : dest ≤ src ∨ src + count ≤ dest)
    {i : Nat} (hi : i < count) : memcpy m dest src count (dest + i) = m (src + i) := by
  induction count with
  | zero => omega
  | succ k ih =>
    rw [memcpy, update_apply]
    split_ifs with hk
    · obtain rfl : i = k := by omega
      exact memcpy_outside m dest src (by omega)
    · exact ih (by omega) (by omega)

theorem copyDown_outside (dest src : Nat) {count x : Nat} (h : x < dest ∨ dest + count ≤ x)
    (m : Mem) : copyDown dest src count m x = m x := by
  induction count generalizing m with
  | zero => rfl
  | succ i ih => rw [copyDown, ih (by omega), update_of_ne (by omega)]

theorem copyDown_apply {dest src : Nat} (h : src ≤ dest) {count i : Nat} (hi : i < count)
    (m : Mem) : copyDown dest src count m (dest + i) = m (src + i) := by
  induction count generalizing m with
  | zero => omega
  | succ k ih =>
    rw [copyDown]
    rcases Nat.lt_or_ge i k with hk | hk
    · rw [ih hk, update_of_ne (by omega)]
    · obtain rfl : i = k := by omega
      rw [copyDown_outside dest src (by omega), update_self]

theorem memmove_outside (m : Mem) (dest src : Nat) {count x : Nat}
    (h : x < dest ∨ dest + count ≤ x) : memmove m dest src count x = m x := by
  unfold memmove
  split_ifs
  · rfl
  · exact memcpy_outside m dest src h
  · exact copyDown_outside dest src h m

theorem memmove_apply (m : Mem) (dest src : Nat) {count i : Nat} (hi : i < count) :
    memmove m dest src count (dest + i) = m (src + i) := by
  unfold memmove
  split_ifs with hsame hup
  · obtain rfl : dest = src := by omega
    rfl
  · exact memcpy_apply m (Or.inl (by omega)) hi
  · exact copyDown_apply (by omega) hi m

/-- Whatever the overlap is, the bytes arrive as they were. `memcpy` does the same where it does
not overwrite a byte before it reads it. -/
theorem memmove_exact (m : Mem) (dest src count : Nat) :
    (∀ i < count, memmove m dest src count (dest + i) = m (src + i)) ∧
    (∀ x, x < dest ∨ dest + count ≤ x → memmove m dest src count x = m x) ∧
    (dest + count ≤ src ∨ src + count ≤ dest ∨ dest ≤ src →
      memcpy m dest src count = memmove m dest src count) := by
  refine ⟨fun i hi => memmove_apply m dest src hi, fun x hx => memmove_outside m dest src hx, ?_⟩
  intro hranges
  funext x
  by_cases hx : dest ≤ x ∧ x < dest + count
  · obtain ⟨i, rfl⟩ := Nat.exists_eq_add_of_le hx.1
    have hi : i < count := by omega
    rw [memcpy_apply m (by omega) hi, memmove_apply m dest src hi]
  · rw [memcpy_outside m dest src (by omega), memmove_outside m dest src (by omega)]

end Terrakernel.Mem
