import Terrakernel.Pmm.Code

/-!
# Filling the bitmap

`membulkset` has three loops, and each is a `memset` of a part of the range.
-/

namespace Terrakernel.Pmm

open Memory Mem

/-- The eight bytes of a 64-bit value are equal. -/
def Repeats (value : Nat) : Prop := ∀ i < 8, value / 256 ^ i % 256 = value % 256

instance (value : Nat) : Decidable (Repeats value) :=
  inferInstanceAs (Decidable (∀ i < 8, value / 256 ^ i % 256 = value % 256))

theorem Repeats.store_eq {value : Nat} (h : Repeats value) (m : Mem) (a : Nat) :
    store m a 8 value = memset m a (BitVec.ofNat 8 value) 8 := by
  apply store_repeated
  intro i hi
  apply BitVec.eq_of_toNat_eq
  rw [BitVec.toNat_ofNat, BitVec.toNat_ofNat]
  exact h i hi

theorem bulkHead_eq (value bytes : Nat) (m : Mem) (p : Nat) :
    ∃ k ≤ bytes, bulkHead value bytes m p =
      (memset m p (BitVec.ofNat 8 value) k, p + k, bytes - k) := by
  induction bytes generalizing m p with
  | zero => exact ⟨0, le_refl 0, rfl⟩
  | succ bytes ih =>
    rw [bulkHead]
    split_ifs with hp
    · obtain ⟨k, hk, he⟩ := ih (Function.update m p (BitVec.ofNat 8 value)) (p + 1)
      refine ⟨k + 1, by omega, ?_⟩
      rw [he, memset_succ, Nat.add_assoc, Nat.add_comm 1, Nat.add_sub_add_right]
    · exact ⟨0, Nat.zero_le _, rfl⟩

theorem bulkWords_eq {value : Nat} (h : Repeats value) (bytes : Nat) (m : Mem) (p : Nat) :
    ∃ k ≤ bytes, bulkWords value bytes m p =
      (memset m p (BitVec.ofNat 8 value) k, p + k, bytes - k) := by
  induction bytes using Nat.strong_induction_on generalizing m p with
  | _ bytes ih =>
    rcases Nat.lt_or_ge bytes 8 with hlt | hge
    · refine ⟨0, Nat.zero_le _, ?_⟩
      rw [bulkWords]
      · rfl
      · omega
    · obtain ⟨n, rfl⟩ : ∃ n, bytes = n + 8 := ⟨bytes - 8, by omega⟩
      obtain ⟨k, hk, he⟩ := ih n (by omega) (store m p 8 value) (p + 8)
      refine ⟨8 + k, by omega, ?_⟩
      rw [bulkWords, he, h.store_eq, memset_append, Nat.add_assoc, Nat.add_comm n,
        Nat.add_sub_add_left]

theorem bulkTail_eq (value bytes : Nat) (m : Mem) (p : Nat) :
    bulkTail value bytes m p = memset m p (BitVec.ofNat 8 value) bytes := by
  induction bytes generalizing m p with
  | zero => rfl
  | succ bytes ih => rw [bulkTail, ih, memset_succ]

theorem membulkset_eq {value : Nat} (h : Repeats value) (m : Mem) (ptr bytes : Nat) :
    membulkset m ptr value bytes = memset m ptr (BitVec.ofNat 8 value) bytes := by
  obtain ⟨k, hk, hhead⟩ := bulkHead_eq value bytes m ptr
  obtain ⟨n, hn, hwords⟩ :=
    bulkWords_eq h (bytes - k) (memset m ptr (BitVec.ofNat 8 value) k) (ptr + k)
  simp only [membulkset, hhead, hwords, bulkTail_eq, memset_append]
  rw [Nat.add_assoc, memset_append]
  congr 1
  omega

/-- The bulk fill is the plain one, for each alignment and each length. -/
theorem membulkset_fills (m : Mem) (ptr bytes : Nat) {value : Nat} (h : Repeats value) :
    membulkset m ptr value bytes = memset m ptr (BitVec.ofNat 8 (value &&& 0xFF)) bytes ∧
      ∀ x, x < ptr ∨ ptr + bytes ≤ x → membulkset m ptr value bytes x = m x := by
  have hlow : BitVec.ofNat 8 (value &&& 0xFF) = BitVec.ofNat 8 value := by
    rw [show 0xFF = 2 ^ 8 - 1 from rfl, Nat.and_two_pow_sub_one_eq_mod]
    apply BitVec.eq_of_toNat_eq
    rw [BitVec.toNat_ofNat, BitVec.toNat_ofNat, Nat.mod_mod]
  rw [hlow, membulkset_eq h]
  refine ⟨rfl, ?_⟩
  intro x hx
  rw [memset_apply, if_neg (by omega)]

theorem membulkset_fills_unaligned : Repeats 0x5A5A5A5A5A5A5A5A ∧
    membulkset (fun _ => 0) 0x1003 0x5A5A5A5A5A5A5A5A 21 =
      memset (fun _ => 0) 0x1003 0x5A 21 :=
  ⟨by decide, (membulkset_fills _ 0x1003 21 (by decide)).1⟩

end Terrakernel.Pmm
