import Terrakernel.Lib.Tokens
import Terrakernel.Libcxx.Search

/-!
# The tokenisers

Call after call they return the tokens of a string, and then null.
-/

namespace Terrakernel.Libcxx

open Memory Strings Tokens Function Option
open List hiding Mem

variable {m : Mem} {a n : Nat} {s lead rest tok : Bytes} {c : Byte}

theorem strtok_eq (fuel : Nat) (m : Mem) (str delim next : Nat) :
    strtok fuel m str delim next = strtokR fuel m str delim next := by
  unfold strtok strtokR
  simp only [ne_eq, ite_not]

section Call

variable {m : Mem} {d : Nat} {delim : Bytes} (hd : Str m d delim) {fuel : Nat}
  (hlimit : delim.length < fuel)

include hd hlimit

theorem strchr_found (b : Byte) :
    ∃ r, strchr m fuel d b.toInt = some r ∧ (r ≠ 0 ↔ b ∈ delim) := by
  refine ⟨_, strchr_eq hd hlimit _, ?_⟩
  have haddr := hd.addr
  rw [BitVec.ofInt_toInt]
  split_ifs with hb
  · exact iff_of_true (by omega) hb
  · exact iff_of_false (by simp) hb

theorem skip_eq {found : Bool} (h : Str m a (s ++ rest)) (hs : ∀ b ∈ s, decide (b ∈ delim) = found)
    (hrest : ∀ b ∈ rest.head?, decide (b ∈ delim) ≠ found) (hn : s.length < n) :
    skip m fuel d found n a = some (a + s.length) := by
  induction s generalizing a n with
  | nil =>
    obtain _ | n := n
    · omega
    cases rest with
    | nil => rw [skip, if_pos (str_nil.mp h).2, length_nil, Nat.add_zero]
    | cons b rest =>
      obtain ⟨-, hb, hb0, -⟩ := str_cons.mp h
      obtain ⟨r, hr, hin⟩ := strchr_found hd hlimit b
      rw [skip, hb, if_neg hb0, hr]
      simp only [bind_eq_bind, bind_some, hin]
      rw [if_neg (hrest b rfl), length_nil, Nat.add_zero]
  | cons b s ih =>
    obtain _ | n := n
    · omega
    obtain ⟨-, hb, hb0, hstr⟩ := str_cons.mp h
    obtain ⟨r, hr, hin⟩ := strchr_found hd hlimit b
    rw [forall_mem_cons] at hs
    rw [skip, hb, if_neg hb0, hr]
    simp only [bind_eq_bind, bind_some, hin]
    rw [if_pos hs.1, ih hstr hs.2 (by simpa using hn), length_cons]
    congr 1
    omega

theorem strtokR_cases (h : Str m a s) (hfuel : s.length < fuel) :
    (∀ b ∈ s, b ∈ delim) ∧ strtokR fuel m 0 d a = some (0, m, 0) ∨
    ∃ lead tok, (∀ b ∈ lead, b ∈ delim) ∧ tok ≠ [] ∧ (∀ b ∈ tok, b ∉ delim) ∧
      (s = lead ++ tok ∧ strtokR fuel m 0 d a = some (a + lead.length, m, 0) ∨
        ∃ c rest, s = lead ++ (tok ++ c :: rest) ∧ c ∈ delim ∧ strtokR fuel m 0 d a =
          some (a + lead.length, update m (a + lead.length + tok.length) 0,
            a + lead.length + tok.length + 1)) := by
  obtain ⟨lead, tok, rest, rfl, hlead, htok, hbody, hrest, hnone⟩ :=
    exists_parts (p := (· ∈ delim)) s
  rw [length_append, length_append] at hfuel
  have hstart : skip m fuel d true fuel a = some (a + lead.length) :=
    skip_eq hd hlimit h (by simpa using hlead) (by simpa using hbody) (by omega)
  have hbehind := h.behind
  have hstop : skip m fuel d false fuel (a + lead.length) = some (a + lead.length + tok.length) :=
    skip_eq hd hlimit hbehind (by simpa using htok) (by simpa using hrest) (by omega)
  unfold strtokR
  simp only [ne_eq, not_true_eq_false, if_false, if_neg h.addr, hstart, hstop,
    bind_eq_bind, bind_some, hbehind.head_eq_zero, hbehind.behind.head_eq_zero]
  by_cases h0 : tok = []
  · left
    rw [h0, hnone h0, append_nil, append_nil]
    exact ⟨hlead, if_pos rfl⟩
  right
  refine ⟨lead, tok, hlead, h0, htok, ?_⟩
  rw [if_neg (append_ne_nil_of_left_ne_nil h0 rest)]
  cases rest with
  | nil => exact .inl ⟨by rw [append_nil], if_pos rfl⟩
  | cons c rest => exact .inr ⟨c, rest, rfl, hrest c rfl, if_neg (cons_ne_nil c rest)⟩

end Call

/-! ## Call after call -/

/-- Calls with these first arguments: what they return, and the memory and the cursor behind. -/
def calls (call : Mem → Nat → Nat → Option (Nat × Mem × Nat)) :
    List Nat → Mem → Nat → Option (List Nat × Mem × Nat)
  | [], m, cursor => some ([], m, cursor)
  | str :: strs, m, cursor => do
    let (token, m, cursor) ← call m str cursor
    let (tokens, m, cursor) ← calls call strs m cursor
    some (token :: tokens, m, cursor)

abbrev callR (fuel d : Nat) : Mem → Nat → Nat → Option (Nat × Mem × Nat) :=
  fun m str saveptr => strtokR fuel m str d saveptr

theorem calls_cons {call : Mem → Nat → Nat → Option (Nat × Mem × Nat)} {m1 : Mem}
    {str cursor token cursor1 : Nat} (h : call m str cursor = some (token, m1, cursor1))
    (strs : List Nat) : calls call (str :: strs) m cursor =
      (calls call strs m1 cursor1).map fun r => (token :: r.1, r.2) := by
  rw [calls, h]
  simp only [bind_eq_bind, bind_some]
  cases calls call strs m1 cursor1 <;> rfl

theorem calls_first {fuel d : Nat} (ha : a ≠ 0) (strs : List Nat) (m : Mem) (saveptr : Nat) :
    calls (callR fuel d) (a :: strs) m saveptr = calls (callR fuel d) (0 :: strs) m a := by
  have hcall : strtokR fuel m a d saveptr = strtokR fuel m 0 d a := by
    simp only [strtokR, ne_eq, ha, not_true_eq_false, not_false_eq_true, if_true, if_false]
  rw [calls, calls, callR, callR, hcall]

theorem calls_ended (fuel d : Nat) (m : Mem) (n : Nat) :
    calls (callR fuel d) (replicate n 0) m 0 = some (replicate n 0, m, 0) := by
  induction n with
  | zero => rfl
  | succ n ih =>
    have hnull : callR fuel d m 0 0 = some (0, m, 0) := rfl
    rw [replicate_succ, calls_cons hnull, ih]
    rfl

/-- After `n` calls with null: the first tokens were returned, each is a string, and null was
returned since they ended. Nothing has changed before the cursor. -/
def Returned (fuel d : Nat) (m : Mem) (a : Nat) (s : Bytes) (ts : List (Nat × Nat))
    (n : Nat) : Prop :=
  ∃ m' cursor, calls (callR fuel d) (replicate n 0) m a =
      some ((ts.take n).map (fun t => a + t.1) ++ replicate (n - ts.length) 0, m', cursor) ∧
    (∀ x < a, m' x = m x) ∧ ∀ t ∈ ts.take n, Str m' (a + t.1) (piece s t)

theorem returned_zero (fuel d : Nat) (m : Mem) (a : Nat) (s : Bytes) (ts : List (Nat × Nat)) :
    Returned fuel d m a s ts 0 := by
  refine ⟨m, a, ?_, fun _ _ => rfl, by simp⟩
  rw [Nat.zero_sub]
  rfl

section Tokens

variable {d : Nat} {delim : Bytes} {fuel : Nat}

theorem delim_update (hd : Str m d delim) (h : Str m a (lead ++ (tok ++ c :: rest))) (h0 : tok ≠ [])
    (htok : ∀ b ∈ tok, b ∉ delim) (hapart : d ≤ a ∨ a + (lead ++ (tok ++ c :: rest)).length < d) :
    Str (update m (a + lead.length + tok.length) 0) d delim := by
  apply hd.congr
  intro x hx hend
  apply update_of_ne
  rintro rfl
  rcases hapart with hle | hlt
  · obtain ⟨b, tok, rfl⟩ := exists_cons_of_ne_nil h0
    obtain ⟨-, hb, hb0, -⟩ := str_cons.mp h.behind
    rw [length_cons] at hend
    obtain ⟨k, hk⟩ := Nat.exists_eq_add_of_le (show d ≤ a + lead.length by omega)
    have hin : k < delim.length := by omega
    rw [hk, hd.bytes k _ (getElem?_eq_getElem hin)] at hb
    exact htok b mem_cons_self (hb ▸ getElem_mem hin)
  · rw [length_append, length_append, length_cons] at hlt
    omega

theorem returned_none (s : Bytes) (hcall : strtokR fuel m 0 d a = some (0, m, 0)) (n : Nat) :
    Returned fuel d m a s [] n := by
  cases n with
  | zero => exact returned_zero ..
  | succ n =>
    refine ⟨m, 0, ?_, fun _ _ => rfl, by simp⟩
    rw [replicate_succ, calls_cons hcall, calls_ended]
    rfl

theorem returned_last (h : Str m a (lead ++ tok))
    (hcall : strtokR fuel m 0 d a = some (a + lead.length, m, 0)) (n : Nat) :
    Returned fuel d m a (lead ++ tok) [(lead.length, lead.length + tok.length)] n := by
  cases n with
  | zero => exact returned_zero ..
  | succ n =>
    refine ⟨m, 0, ?_, fun _ _ => rfl, ?_⟩
    · rw [replicate_succ, calls_cons hcall, calls_ended]
      simp
    · intro t ht
      obtain rfl : t = (lead.length, lead.length + tok.length) := by simpa using ht
      have hpiece := piece_token lead tok []
      rw [append_nil] at hpiece
      rw [hpiece]
      exact h.behind

theorem Returned.first (h : Str m a (lead ++ (tok ++ c :: rest))) (hcall : strtokR fuel m 0 d a =
      some (a + lead.length, update m (a + lead.length + tok.length) 0,
        a + lead.length + tok.length + 1)) {ts : List (Nat × Nat)}
    (hret : Returned fuel d (update m (a + lead.length + tok.length) 0)
      (a + lead.length + tok.length + 1) rest ts n) :
    Returned fuel d m a (lead ++ (tok ++ c :: rest))
      ((lead.length, lead.length + tok.length) :: shift (lead.length + tok.length + 1) ts)
      (n + 1) := by
  have hbehind : a + lead.length + tok.length + 1 = a + (lead.length + tok.length + 1) := by omega
  obtain ⟨m', cursor, hcalls, hframe, hstrs⟩ := hret
  refine ⟨m', cursor, ?_, ?_, ?_⟩
  · rw [replicate_succ, calls_cons hcall, hcalls, take_succ_cons, map_cons,
      take_shift, map_shift, length_cons, length_shift, Nat.add_sub_add_right, hbehind]
    rfl
  · intro x hx
    rw [hframe x (by omega), update_of_ne (by omega)]
  · intro t ht
    rw [take_succ_cons, mem_cons] at ht
    rcases ht with rfl | ht
    · -- The token ends before the cursor, and from there on the calls write.
      rw [piece_token]
      exact h.behind.cut.1.congr fun x _ hend => hframe x (by omega)
    · rw [take_shift] at ht
      obtain ⟨u, hu, rfl⟩ := List.mem_map.mp ht
      have hstr := hstrs u hu
      rw [hbehind, Nat.add_assoc, Nat.add_comm _ u.1] at hstr
      rw [piece_rest]
      exact hstr

theorem returned_tokens (hlimit : delim.length < fuel) (hd : Str m d delim) (h : Str m a s)
    (hapart : d ≤ a ∨ a + s.length < d) (hfuel : s.length < fuel) :
    ∃ ts, Lists (· ∈ delim) s ts ∧ ∀ n, Returned fuel d m a s ts n := by
  induction hlen : s.length using Nat.strong_induction_on generalizing m a s with
  | _ len ih =>
  rcases strtokR_cases hd hlimit h hfuel with
    ⟨hall, hcall⟩ | ⟨lead, tok, hlead, h0, htok, ⟨rfl, hcall⟩ | ⟨c, rest, rfl, hc, hcall⟩⟩
  · exact ⟨[], lists_none hall, returned_none s hcall⟩
  · exact ⟨_, lists_last hlead h0 htok, returned_last h hcall⟩
  · have hd1 := delim_update hd h h0 htok hapart
    rw [length_append, length_append, length_cons] at hapart hfuel hlen
    obtain ⟨ts, hts, hret⟩ :=
      ih rest.length (by omega) hd1 h.behind.cut.2 (by omega) (by omega) rfl
    refine ⟨_, hts.first hlead h0 htok hc, fun n => ?_⟩
    cases n with
    | zero => exact returned_zero ..
    | succ n => exact (hret n).first h hcall

/-- Whatever the number of calls is: `strtok_r` and `strtok` return the tokens in order, then null.
A token that was returned stays a string in memory. -/
theorem tokens_in_order {m : Mem} {s : Nat} {str : Bytes} (hs : Str m s str)
    (hd : Str m d delim) (hapart : d ≤ s ∨ s + str.length < d) (hfuel : str.length < fuel)
    (hlimit : delim.length < fuel) (save next : Nat) :
    ∃ ts, Lists (· ∈ delim) str ts ∧ ∀ n, ∃ m' cursor,
      calls (fun m str saveptr => strtokR fuel m str d saveptr) (s :: replicate n 0) m save =
        some ((ts.take (n + 1)).map (fun t => s + t.1) ++ replicate (n + 1 - ts.length) 0,
          m', cursor) ∧
      calls (fun m str next => strtok fuel m str d next) (s :: replicate n 0) m next =
        some ((ts.take (n + 1)).map (fun t => s + t.1) ++ replicate (n + 1 - ts.length) 0,
          m', cursor) ∧
      ∀ t ∈ ts.take (n + 1), Str m' (s + t.1) (piece str t) := by
  obtain ⟨ts, hts, hret⟩ := returned_tokens hlimit hd hs hapart hfuel
  refine ⟨ts, hts, fun n => ?_⟩
  obtain ⟨m', cursor, hcalls, -, hstrs⟩ := hret (n + 1)
  rw [replicate_succ] at hcalls
  simp only [strtok_eq]
  exact ⟨m', cursor, (calls_first hs.addr _ m save).trans hcalls,
    (calls_first hs.addr _ m next).trans hcalls, hstrs⟩

end Tokens

/-- The strings `/a//b` at 1 and `/` at 8. -/
def slashed : Mem := fun x => [0, 0x2F, 0x61, 0x2F, 0x2F, 0x62, 0, 0, 0x2F].getD x 0

theorem tokens_in_order_slashed :
    ∃ ts, Lists (· ∈ [(0x2F : Byte)]) [0x2F, 0x61, 0x2F, 0x2F, 0x62] ts ∧ ∃ m' cursor,
      calls (fun m str saveptr => strtokR 6 m str 8 saveptr) [1, 0, 0] slashed 0 =
        some ((ts.take 3).map (fun t => 1 + t.1) ++ replicate (3 - ts.length) 0, m', cursor) := by
  have hstr : Str slashed 1 [0x2F, 0x61, 0x2F, 0x2F, 0x62] := by
    simp only [str_cons, str_nil]
    decide
  have hdelim : Str slashed 8 [0x2F] := by
    simp only [str_cons, str_nil]
    decide
  obtain ⟨ts, hts, hcalls⟩ := tokens_in_order hstr hdelim (show 8 ≤ 1 ∨ 6 < 8 by decide)
    (show 5 < 6 by decide) (show 1 < 6 by decide) 0 0
  obtain ⟨m', cursor, hcall, -⟩ := hcalls 2
  exact ⟨ts, hts, m', cursor, hcall⟩

end Terrakernel.Libcxx
