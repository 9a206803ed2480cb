import Terrakernel.Lib.Memory

/-!
# Strings in memory

A string is the bytes up to the first zero byte. At the null pointer there is none.
-/

namespace Terrakernel.Strings

open Memory Function

structure Str (m : Mem) (a : Nat) (s : Bytes) : Prop where
  addr : a ≠ 0
  bytes : Holds m a s
  stop : m (a + s.length) = 0
  noNul : ∀ b ∈ s, b ≠ 0

section Str

variable {m : Mem} {a : Nat}

theorem str_nil : Str m a [] ↔ a ≠ 0 ∧ m a = 0 :=
  ⟨fun h => ⟨h.addr, h.stop⟩, fun h => ⟨h.1, by simp [Holds], h.2, by simp⟩⟩

theorem str_cons {c : Byte} {s : Bytes} :
    Str m a (c :: s) ↔ a ≠ 0 ∧ m a = c ∧ c ≠ 0 ∧ Str m (a + 1) s := by
  have hend : a + (c :: s).length = a + 1 + s.length := by
    rw [List.length_cons]
    omega
  constructor
  · rintro ⟨haddr, hbytes, hstop, hnul⟩
    rw [hend] at hstop
    rw [holds_cons] at hbytes
    rw [List.forall_mem_cons] at hnul
    exact ⟨haddr, hbytes.1, hnul.1, Nat.succ_ne_zero a, hbytes.2, hstop, hnul.2⟩
  · rintro ⟨haddr, hc, hc0, h⟩
    exact ⟨haddr, holds_cons.mpr ⟨hc, h.bytes⟩, hend ▸ h.stop,
      List.forall_mem_cons.mpr ⟨hc0, h.noNul⟩⟩

variable {s t : Bytes}

theorem Str.head_eq_zero (h : Str m a s) : m a = 0 ↔ s = [] := by
  cases s with
  | nil => exact iff_of_true (str_nil.mp h).2 rfl
  | cons c s =>
    obtain ⟨-, hc, hc0, -⟩ := str_cons.mp h
    exact iff_of_false (hc ▸ hc0) (List.cons_ne_nil c s)

theorem Str.behind (h : Str m a (s ++ t)) : Str m (a + s.length) t := by
  obtain ⟨haddr, hbytes, hstop, hnul⟩ := h
  rw [List.length_append, ← Nat.add_assoc] at hstop
  exact ⟨by omega, (holds_append.mp hbytes).2, hstop,
    fun b hb => hnul b (List.mem_append_right s hb)⟩

theorem Str.congr {m' : Mem} (h : Str m a s)
    (hm : ∀ x, a ≤ x → x ≤ a + s.length → m' x = m x) : Str m' a s := by
  refine ⟨h.addr, ?_, ?_, h.noNul⟩
  · intro i v hv
    have hi := (List.getElem?_eq_some_iff.mp hv).1
    rw [hm _ (by omega) (by omega), h.bytes i v hv]
  · rw [hm _ (by omega) (le_refl _), h.stop]

theorem Str.cut {c : Byte} (h : Str m a (s ++ c :: t)) :
    Str (update m (a + s.length) 0) a s ∧
      Str (update m (a + s.length) 0) (a + s.length + 1) t := by
  constructor
  · refine ⟨h.addr, ?_, update_self .., fun b hb => h.noNul b (List.mem_append_left _ hb)⟩
    intro i v hv
    have hi := (List.getElem?_eq_some_iff.mp hv).1
    rw [update_of_ne (by omega), (holds_append.mp h.bytes).1 i v hv]
  · apply (str_cons.mp h.behind).2.2.2.congr
    intro x hx _
    rw [update_of_ne (by omega)]

end Str

end Terrakernel.Strings
