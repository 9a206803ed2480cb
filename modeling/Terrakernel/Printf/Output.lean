import Mathlib.Data.List.Infix
import Mathlib.Data.Nat.Digits.Defs
import Terrakernel.Printf.Code

/-!
# What is printed

A call with a buffer stores the text that a call without one shows, as far as the buffer goes.
-/

namespace Terrakernel.Printf

open Memory
open List hiding Mem

/-- The bytes of a text in a window of memory. -/
def stored (m : Mem) (buffer size : Nat) (t : Bytes) : Mem := fun x =>
  if buffer ≤ x ∧ x < buffer + size then (t[x - buffer]?).getD (m x) else m x

theorem outBuffer_stored (buffer maxlen : Nat) (t : Bytes) (c : Byte) (m : Mem) :
    outBuffer c buffer t.length maxlen (stored m buffer maxlen t) =
      stored m buffer maxlen (t ++ [c]) := by
  rw [outBuffer]
  split_ifs with h <;> funext x <;>
    simp only [Function.update_apply, stored, getElem?_append, getElem?_singleton]
  all_goals
    split_ifs <;> simp_all
    omega

theorem outBuffer_text (buffer maxlen : Nat) (t : Bytes) (m : Mem) :
    t.zipIdx.foldl (fun m c => outBuffer c.1 buffer c.2 maxlen m) m = stored m buffer maxlen t := by
  induction t using reverseRecOn with
  | nil =>
    funext x
    simp [stored]
  | append_singleton t c ih =>
    rw [zipIdx_append, foldl_append, ih, ← outBuffer_stored, zipIdx_singleton,
      foldl_cons, foldl_nil, Nat.zero_add]

/-- No byte outside the buffer is written, and nothing at all if it is empty or null. -/
theorem vsnprintf_stores (buffer : Nat) (count : UInt64) (format : Bytes) (args : List Arg)
    (m : Mem) :
    vsnprintf buffer count.toNat format args m = (text format args).map fun t =>
      ((BitVec.ofNat 32 t.length).toInt, if buffer = 0 then m else
        stored m buffer count.toNat (t.take (count.toNat - 1) ++ [0])) := by
  have hlt := count.toNat_lt
  unfold vsnprintf
  cases text format args with
  | none => rfl
  | some t =>
    simp only [Option.bind_eq_bind, Option.bind_some, Option.map_some]
    congr 2
    split_ifs with h0 h1
    · exact foldl_fixed _
    · exact foldl_fixed _
    · rw [outBuffer_text, outBuffer_stored, take_of_length_le (by omega)]
    · -- The terminator replaces the last character that fits.
      rw [outBuffer_text, outBuffer]
      split_ifs with h <;> funext x
      · rw [show (count.toNat + 2 ^ 64 - 1) % 2 ^ 64 = count.toNat - 1 by omega] at h ⊢
        clear hlt
        rw [Function.update_apply, stored, stored, getElem?_append, getElem?_take,
          length_take, getElem?_singleton]
        split_ifs <;> simp_all <;> omega
      · rw [stored, stored, if_neg (by omega), if_neg (by omega)]

/-! ## Integers -/

def digitValue (c : Byte) : Nat :=
  if isDigit c then (c - ch '0').toNat else ((c ||| 0x20) - ch 'a').toNat + 10

/-- `buf`, which has the last digit first, is in the array, has digits of the base only and reads as
`n`. -/
structure Reads (base n : Nat) (buf : Bytes) : Prop where
  fits : buf.length ≤ ntoaBufferSize
  digits : ∀ c ∈ buf, ∃ uppercase, ∃ d < base, digitChar uppercase d = c
  value : Nat.ofDigits base (buf.map digitValue) = n

theorem reads_digits {base : Nat} (hbase : base ≤ 16) (hpos : 0 < base) (uppercase : Bool)
    (room value : Nat) :
    (digits uppercase base room value).length ≤ room ∧
      Nat.ofDigits base ((digits uppercase base room value).map digitValue) =
        value % base ^ room := by
  have hdigit : ∀ u, ∀ d < 16, digitValue (digitChar u d) = d := by decide
  induction room generalizing value with
  | zero => simp [digits, Nat.mod_one]
  | succ room ih =>
    rw [digits, map_cons, Nat.ofDigits_cons, hdigit _ _ (by have := Nat.mod_lt value hpos; omega),
      Nat.pow_succ', Nat.mod_mul]
    obtain ⟨hlen, hval⟩ := ih (value / base)
    split_ifs with hz
    · simp [hz]
    · exact ⟨by simpa using hlen, by rw [hval]⟩

theorem mem_digits {base : Nat} (hpos : 0 < base) {uppercase : Bool} {room value : Nat} {c : Byte}
    (h : c ∈ digits uppercase base room value) : ∃ d < base, digitChar uppercase d = c := by
  induction room generalizing value with
  | zero => exact absurd h not_mem_nil
  | succ room ih =>
    rw [digits, mem_cons] at h
    rcases h with rfl | h
    · exact ⟨_, Nat.mod_lt value hpos, rfl⟩
    · split_ifs at h
      · exact absurd h not_mem_nil
      · exact ih h

theorem Reads.padZeros {base n : Nat} {buf : Bytes} (h : Reads base n buf) (hpos : 0 < base)
    (limit rounds : Nat) : Reads base n (padZeros limit rounds buf) := by
  induction rounds generalizing buf with
  | zero => exact h
  | succ rounds ih =>
    rw [Printf.padZeros, appendChar]
    split_ifs with h1 h2
    · refine ih ⟨by simp; omega, ?_, ?_⟩
      · intro c hc
        rcases mem_append.mp hc with hc | hc
        · exact h.digits c hc
        · exact ⟨false, 0, hpos, (mem_singleton.mp hc).symm⟩
      · rw [map_append, Nat.ofDigits_append, h.value]
        simp [show digitValue (ch '0') = 0 from rfl]
    · exact ih h
    · exact h

theorem Reads.padNumber {base n : Nat} {buf : Bytes} (h : Reads base n buf) (hpos : 0 < base)
    (prec width : Nat) (flags : Flags) : Reads base n (padNumber buf prec width flags) := by
  rw [Printf.padNumber]
  split_ifs
  · exact h
  · exact (h.padZeros hpos _ _).padZeros hpos _ _
  · exact h.padZeros hpos _ _

theorem appendSign_reverse (sign : Option Byte) (buf : Bytes) :
    (sign.toList.foldl appendChar buf).reverse =
      sign.toList.take (ntoaBufferSize - buf.length) ++ buf.reverse := by
  cases sign with
  | none => simp
  | some c =>
    simp only [Option.toList_some, foldl_cons, foldl_nil, appendChar]
    split_ifs with h
    · rw [take_of_length_le (by simp; omega), reverse_append, reverse_singleton]
    · rw [Nat.sub_eq_zero_of_le (by omega), take_zero, nil_append]

theorem ntoaLong_eq {base : Nat} (hpos : 0 < base) (hbase : base ≤ 16) (value : Nat)
    (negative : Bool) (prec width : Nat) {flags : Flags} (hhash : flags.hash = false) :
    ∃ m n buf, Reads base (value % base ^ ntoaBufferSize) buf ∧
      ntoaLong value negative base prec width flags = spaces m ++
        ((signChar negative flags).toList.take (ntoaBufferSize - buf.length) ++ buf.reverse) ++
          spaces n := by
  have hspaces : ∀ (b : Bool) n, (if b then spaces n else []) = spaces (if b then n else 0) := by
    intro b n
    cases b <;> rfl
  have hflags : (if value = 0 then { flags with hash := false } else flags) = flags := by
    rw [← hhash, ite_self]
  have hfirst : Reads base (value % base ^ ntoaBufferSize)
      (if !flags.precision ∨ value ≠ 0 then digits flags.uppercase base ntoaBufferSize value
      else []) := by
    split_ifs with h
    · obtain ⟨hfits, hvalue⟩ := reads_digits hbase hpos flags.uppercase ntoaBufferSize value
      exact ⟨hfits, fun c hc => ⟨_, mem_digits hpos hc⟩, hvalue⟩
    · rw [not_not.mp (not_or.mp h).2]
      exact ⟨Nat.zero_le _, by simp, by simp⟩
  simp only [ntoaLong, ntoaFormat, outRev, hflags, hhash, Bool.false_eq_true, if_false,
    appendSign_reverse, hspaces]
  exact ⟨_, _, _, hfirst.padNumber hpos _ _ _, rfl⟩

/-- Without `#`, an integer is printed with all its digits (in base 2, with the last 32), whatever
the flags, the width and the precision. Only the sign can be lost, where 32 digits fill the array. -/
theorem integer_reads_back (c : Byte) (flags : Flags) (width precision : Nat) (w : BitVec 64) :
    ∃ m n buf, Reads (baseOf c) ((valueOf c flags w).natAbs % baseOf c ^ ntoaBufferSize) buf ∧
      outInteger c { flags with hash := false } width precision w = spaces m ++
        ((signChar (valueOf c flags w < 0) (integerFlags c flags)).toList.take
          (ntoaBufferSize - buf.length) ++ buf.reverse) ++ spaces n := by
  have hbase : 0 < baseOf c ∧ baseOf c ≤ 16 := by
    unfold baseOf
    split_ifs <;> decide
  exact @ntoaLong_eq _ hbase.1 hbase.2 _ _ _ _ (integerFlags c { flags with hash := false }) rfl

end Terrakernel.Printf
