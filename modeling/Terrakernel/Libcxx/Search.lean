import Mathlib.Data.List.Basic
import Terrakernel.Lib.Strings
import Terrakernel.Libcxx.Code

/-!
# Searching in strings

`strchr` finds the first place of a byte, `strstr` the first place of a string.
-/

namespace Terrakernel.Libcxx

open Memory Strings
open List hiding Mem

section Search

variable {m : Mem}

theorem strchr_eq {a : Nat} {s : Bytes} (h : Str m a s) {fuel : Nat} (hfuel : s.length < fuel)
    (c : Int) : strchr m fuel a c =
      some (if BitVec.ofInt 8 c ∈ s then a + s.idxOf (BitVec.ofInt 8 c) else 0) := by
  induction s generalizing a fuel with
  | nil =>
    obtain _ | fuel := fuel
    · omega
    rw [strchr, if_pos (str_nil.mp h).2]
    rfl
  | cons b s ih =>
    obtain _ | fuel := fuel
    · omega
    obtain ⟨-, hb, hb0, hs⟩ := str_cons.mp h
    rw [strchr, hb, if_neg hb0]
    split_ifs with hc hmem hmem
    · rw [hc, idxOf_cons_self]
      rfl
    · exact absurd (hc ▸ mem_cons_self) hmem
    · have hmem' := (mem_cons.mp hmem).resolve_left (Ne.symm hc)
      rw [ih hs (by simpa using hfuel), if_pos hmem', idxOf_cons_ne _ hc]
      congr 1
      omega
    · rw [ih hs (by simpa using hfuel), if_neg fun hin => hmem (mem_cons_of_mem b hin)]

theorem matchLoop_eq {h n : Nat} {hay needle : Bytes} (hh : Str m h hay)
    (hn : Str m n needle) {fuel : Nat} (hfuel : hay.length < fuel) :
    ∃ stop, matchLoop m fuel h n = some stop ∧ (m stop = 0 ↔ needle <+: hay) := by
  induction hay generalizing h n needle fuel with
  | nil =>
    obtain _ | fuel := fuel
    · omega
    refine ⟨n, ?_, ?_⟩
    · rw [matchLoop, if_neg fun hall => hall.1 (str_nil.mp hh).2]
    · rw [prefix_nil, hn.head_eq_zero]
  | cons c hay ih =>
    obtain _ | fuel := fuel
    · omega
    obtain ⟨-, hc, hc0, hhay⟩ := str_cons.mp hh
    cases needle with
    | nil =>
      have hn0 := (str_nil.mp hn).2
      exact ⟨n, by rw [matchLoop, if_neg fun hall => hall.2.1 hn0], by simp [hn0]⟩
    | cons d needle =>
      obtain ⟨-, hd, hd0, hneedle⟩ := str_cons.mp hn
      rw [matchLoop, hc, hd, cons_prefix_cons]
      by_cases hcd : c = d
      · obtain ⟨stop, hloop, hstop⟩ := ih hhay hneedle (by simpa using hfuel)
        refine ⟨stop, ?_, hstop.trans (and_iff_right hcd.symm).symm⟩
        rw [if_pos ⟨hc0, hd0, hcd⟩, hloop]
      · refine ⟨n, if_neg fun hall => hcd hall.2.2, ?_⟩
        exact iff_of_false (hd ▸ hd0) fun hpre => hcd hpre.1.symm

/-- `r` points to the first place of `needle` in `hay`, which stands at `a`, or is null. -/
def First (a : Nat) (hay needle : Bytes) (r : Nat) : Prop :=
  r = 0 ∧ ¬ needle <:+: hay ∨
    ∃ i, r = a + i ∧ needle <+: hay.drop i ∧ ∀ j < i, ¬ needle <+: hay.drop j

theorem First.cons {a : Nat} {c : Byte} {hay needle : Bytes} {r : Nat}
    (h : First (a + 1) hay needle r) (hno : ¬ needle <+: c :: hay) :
    First a (c :: hay) needle r := by
  rcases h with ⟨hr, hnone⟩ | ⟨i, hr, hi, hfirst⟩
  · refine .inl ⟨hr, ?_⟩
    rw [infix_cons_iff]
    exact not_or.mpr ⟨hno, hnone⟩
  · refine .inr ⟨i + 1, by omega, hi, ?_⟩
    intro j hj
    cases j with
    | zero => exact hno
    | succ j => exact hfirst j (by omega)

theorem strstrLoop_first {a b : Nat} {hay needle : Bytes} (hh : Str m a hay)
    (hn : Str m b needle) (h0 : needle ≠ []) {limit fuel : Nat} (hlimit : hay.length < limit)
    (hfuel : hay.length < fuel) :
    ∃ r, strstrLoop m limit b fuel a = some r ∧ First a hay needle r := by
  induction hay generalizing a fuel with
  | nil =>
    obtain _ | fuel := fuel
    · omega
    refine ⟨0, ?_, .inl ⟨rfl, by simpa using h0⟩⟩
    rw [strstrLoop, if_pos (str_nil.mp hh).2]
  | cons c hay ih =>
    obtain _ | fuel := fuel
    · omega
    obtain ⟨-, hc, hc0, hhay⟩ := str_cons.mp hh
    obtain ⟨stop, hloop, hstop⟩ := matchLoop_eq hh hn hlimit
    rw [length_cons] at hlimit hfuel
    rw [strstrLoop, hc, if_neg hc0, hloop]
    simp only [Option.bind_eq_bind, Option.bind_some, hstop]
    by_cases hpre : needle <+: c :: hay
    · exact ⟨a, if_pos hpre, .inr ⟨0, rfl, hpre, by simp⟩⟩
    · obtain ⟨r, hr, hfirst⟩ := ih hhay (by omega) (show hay.length < fuel by omega)
      exact ⟨r, by rw [if_neg hpre, hr], hfirst.cons hpre⟩

/-- The first place of the needle, and null just when there is none. -/
theorem strstr_first {a b : Nat} {hay needle : Bytes} (hh : Str m a hay)
    (hn : Str m b needle) {fuel : Nat} (hfuel : hay.length < fuel) :
    ∃ r, strstr m fuel a b = some r ∧ (r = 0 ↔ ¬ needle <:+: hay) ∧
      (needle <:+: hay →
        ∃ i, r = a + i ∧ needle <+: hay.drop i ∧ ∀ j < i, ¬ needle <+: hay.drop j) ∧
      (needle = [] → r = a) := by
  have ha := hh.addr
  by_cases h0 : needle = []
  · subst h0
    refine ⟨a, if_pos (str_nil.mp hn).2, ?_, ?_, fun _ => rfl⟩
    · exact iff_of_false ha (not_not.mpr nil_infix)
    · exact fun _ => ⟨0, rfl, nil_prefix, by simp⟩
  obtain ⟨r, hr, hfirst⟩ := strstrLoop_first hh hn h0 hfuel hfuel
  refine ⟨r, by rw [strstr, if_neg (mt hn.head_eq_zero.mp h0), hr], ?_, ?_, fun h => absurd h h0⟩
  · rcases hfirst with ⟨hnull, hnone⟩ | ⟨i, rfl, hi, -⟩
    · exact iff_of_true hnull hnone
    · exact iff_of_false (by omega) (not_not.mpr (hi.isInfix.trans (drop_suffix i hay).isInfix))
  · intro hin
    rcases hfirst with ⟨-, hnone⟩ | hsome
    · exact absurd hin hnone
    · exact hsome

end Search

/-- The strings `aab` at 1 and `ab` at 5. -/
def text : Mem := fun x => [0, 0x61, 0x61, 0x62, 0, 0x61, 0x62].getD x 0

theorem strstr_first_text : ∃ r, strstr text 4 1 5 = some r ∧
    (r = 0 ↔ ¬ [(0x61 : Byte), 0x62] <:+: [0x61, 0x61, 0x62]) := by
  have hhay : Str text 1 [0x61, 0x61, 0x62] := by
    simp only [str_cons, str_nil]
    decide
  have hneedle : Str text 5 [0x61, 0x62] := by
    simp only [str_cons, str_nil]
    decide
  obtain ⟨r, hr, hnull, -⟩ := strstr_first hhay hneedle (show 3 < 4 by decide)
  exact ⟨r, hr, hnull⟩

end Terrakernel.Libcxx
