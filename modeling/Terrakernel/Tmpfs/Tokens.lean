import Mathlib.Data.List.Forall2
import Terrakernel.Libcxx.Tokenise
import Terrakernel.Tmpfs.Strings

/-!
# The components of a path in memory

A path is copied to `tmp` and taken apart with `strtok_r` or `strtok`, which return its tokens.
-/

namespace Terrakernel.Tmpfs

open Memory Strings Tokens Libcxx
open List hiding Mem

theorem components_lead {lead : Bytes} (h : ∀ b ∈ lead, b = slash) (s : Bytes) :
    components (lead ++ s) = components s := by
  induction lead with
  | nil => rfl
  | cons b lead ih =>
    rw [forall_mem_cons] at h
    rw [h.1, cons_append, ← ih h.2]
    exact components_append [] (lead ++ s)

theorem exists_lists_components (s : Bytes) :
    ∃ ts, Lists (· ∈ [slash]) s ts ∧ ts.map (piece s) = components s := by
  induction hlen : s.length using Nat.strong_induction_on generalizing s with
  | _ n ih =>
  obtain ⟨lead, tok, rest, rfl, hlead, htok, -, hrest, hnone⟩ :=
    exists_parts (p := (· ∈ [slash])) s
  have hslashes : ∀ b ∈ lead, b = slash := by simpa using hlead
  have hslash : ∀ b ∈ tok, b ≠ slash := by simpa using htok
  rw [components_lead hslashes]
  by_cases h0 : tok = []
  · subst h0
    rw [hnone rfl, append_nil, append_nil]
    exact ⟨[], lists_none hlead, rfl⟩
  cases rest with
  | nil =>
    refine ⟨[(lead.length, lead.length + tok.length)], ?_, ?_⟩
    · rw [append_nil]
      exact lists_last hlead h0 htok
    · rw [components_token h0 hslash (Or.inl rfl), map_singleton, piece_token]
      rfl
  | cons c rest =>
    have hc : c ∈ [slash] := hrest c rfl
    have hcut : (c :: rest).head? = some slash := congrArg some (mem_singleton.mp hc)
    rw [length_append, length_append, length_cons] at hlen
    obtain ⟨ts, hts, hmap⟩ := ih rest.length (by omega) rest rfl
    refine ⟨_, hts.first hlead h0 htok hc, ?_⟩
    rw [components_token h0 hslash (Or.inr hcut), map_cons, piece_token, tail_cons, ← hmap,
      shift, List.map_map]
    refine congrArg (tok :: ·) (map_congr_left fun t _ => ?_)
    exact piece_rest lead tok rest c t

theorem strtok_tokens {m : Mem} {tmp d : Nat} {path : Bytes}
    (htmp : Str m tmp (path.take 511)) (hd : Str m d [slash])
    (hapart : d ≤ tmp ∨ tmp + (path.take 511).length < d) {fuel : Nat} (hfuel : 512 ≤ fuel) :
    ∃ ptrs : List Nat, ∀ n save, ∃ m' cursor,
      calls (callR fuel d) (tmp :: replicate n 0) m save =
        some (ptrs.take (n + 1) ++ replicate (n + 1 - ptrs.length) 0, m', cursor) ∧
      Forall₂ (Str m') (ptrs.take (n + 1)) ((tokens path).take (n + 1)) := by
  have hlen : (path.take 511).length ≤ 511 := length_take_le ..
  have hlimit : [slash].length < fuel := by
    rw [length_singleton]
    omega
  obtain ⟨ts, hts, hret⟩ := returned_tokens hlimit hd htmp hapart (by omega)
  obtain ⟨us, hus, hcomponents⟩ := exists_lists_components (path.take 511)
  obtain rfl := hts.unique hus
  refine ⟨ts.map fun t => tmp + t.1, fun n save => ?_⟩
  obtain ⟨m', cursor, hcalls, -, hstrs⟩ := hret (n + 1)
  refine ⟨m', cursor, ?_, ?_⟩
  · rw [calls_first htmp.addr, ← replicate_succ, hcalls, map_take, length_map]
  · rw [tokens_eq, ← hcomponents, ← map_take, ← map_take, forall₂_map_left_iff,
      forall₂_map_right_iff, forall₂_same]
    exact hstrs

end Terrakernel.Tmpfs
