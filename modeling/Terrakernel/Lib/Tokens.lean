import Mathlib.Data.List.Basic
import Mathlib.Data.List.TakeWhile
import Mathlib.Tactic.Common

/-!
# Tokens of a list

Elements with `p` are delimiters, and a token is a longest piece between them.
-/

namespace Terrakernel.Tokens

open List

variable {ts : List (Nat × Nat)} {i j : Nat}

variable {α : Type} {p : α → Prop}

/-- No delimiter from position `i` up to `j`. -/
def Free (p : α → Prop) (s : List α) (i j : Nat) : Prop :=
  ∀ k c, i ≤ k → k < j → s[k]? = some c → ¬ p c

/-- A piece without delimiters that is not empty and not part of a longer one. -/
structure Token (p : α → Prop) (s : List α) (i j : Nat) : Prop where
  lt : i < j
  le : j ≤ s.length
  free : Free p s i j
  longest : ∀ i' j', i' ≤ i → j ≤ j' → j' ≤ s.length → Free p s i' j' → i' = i ∧ j' = j

/-- All tokens, in order. -/
structure Lists (p : α → Prop) (s : List α) (ts : List (Nat × Nat)) : Prop where
  sorted : ts.Pairwise fun t u => t.2 < u.1
  mem : ∀ i j, (i, j) ∈ ts ↔ Token p s i j

def piece (s : List α) (t : Nat × Nat) : List α := (s.take t.2).drop t.1

/-- The same places in a list with `n` more elements before it. -/
def shift (n : Nat) (ts : List (Nat × Nat)) : List (Nat × Nat) :=
  ts.map fun t => (t.1 + n, t.2 + n)

theorem piece_token (lead tok rest : List α) :
    piece (lead ++ (tok ++ rest)) (lead.length, lead.length + tok.length) = tok := by
  unfold piece
  simp only
  rw [take_length_add_append, drop_left, take_left]

theorem piece_rest (lead tok rest : List α) (c : α) (t : Nat × Nat) :
    piece (lead ++ (tok ++ c :: rest))
      (t.1 + (lead.length + tok.length + 1), t.2 + (lead.length + tok.length + 1)) =
      piece rest t := by
  have hlist : lead ++ (tok ++ c :: rest) = (lead ++ (tok ++ [c])) ++ rest := by simp
  have hlen : lead.length + tok.length + 1 = (lead ++ (tok ++ [c])).length := by
    simp
    omega
  unfold piece
  simp only
  rw [hlist, hlen, Nat.add_comm t.1, Nat.add_comm t.2, take_length_add_append,
    drop_length_add_append]

theorem length_shift (n : Nat) (ts : List (Nat × Nat)) : (shift n ts).length = ts.length :=
  length_map _

theorem take_shift (k n : Nat) (ts : List (Nat × Nat)) :
    (shift n ts).take k = shift n (ts.take k) := map_take.symm

theorem shift_shift (n k : Nat) (ts : List (Nat × Nat)) :
    shift k (shift n ts) = shift (n + k) ts := by
  unfold shift
  rw [List.map_map]
  refine map_congr_left fun t _ => ?_
  simp only [Function.comp, Nat.add_assoc]

theorem map_shift (n : Nat) (ts : List (Nat × Nat)) (a : Nat) :
    ((shift n ts).map fun t => a + t.1) = ts.map fun t => a + n + t.1 := by
  unfold shift
  rw [List.map_map]
  refine map_congr_left fun t _ => ?_
  simp only [Function.comp]
  omega

theorem exists_span [DecidablePred p] (s : List α) :
    ∃ lead rest, s = lead ++ rest ∧ (∀ c ∈ lead, p c) ∧ ∀ c ∈ rest.head?, ¬ p c := by
  refine ⟨s.takeWhile p, s.dropWhile p, takeWhile_append_dropWhile.symm, ?_, ?_⟩
  · intro c hc
    simpa using mem_takeWhile_imp hc
  · intro c hc
    have hnot := head?_dropWhile_not (fun c => decide (p c)) s
    rw [Option.mem_def.mp hc] at hnot
    simpa using hnot

theorem exists_parts [DecidablePred p] (s : List α) :
    ∃ lead tok rest, s = lead ++ (tok ++ rest) ∧ (∀ c ∈ lead, p c) ∧ (∀ c ∈ tok, ¬ p c) ∧
      (∀ c ∈ (tok ++ rest).head?, ¬ p c) ∧ (∀ c ∈ rest.head?, p c) ∧ (tok = [] → rest = []) := by
  obtain ⟨lead, body, rfl, hlead, hbody⟩ := exists_span (p := p) s
  obtain ⟨tok, rest, rfl, htok, hrest⟩ := exists_span (p := fun c => ¬ p c) body
  have hend : ∀ c ∈ rest.head?, p c := fun c hc => not_not.mp (hrest c hc)
  refine ⟨lead, tok, rest, rfl, hlead, htok, hbody, hend, ?_⟩
  rintro rfl
  cases rest with
  | nil => rfl
  | cons c rest => exact absurd (hend c rfl) (hbody c rfl)

/-! ## Lists of tokens -/

theorem Lists.nodup {s : List α} (h : Lists p s ts) : ts.Nodup := by
  refine h.sorted.imp_of_mem fun {t u} ht _ hlt => ?_
  rintro rfl
  have := ((h.mem t.1 t.2).mp ht).lt
  omega

theorem Lists.unique {s : List α} {us : List (Nat × Nat)} (h : Lists p s ts) (h' : Lists p s us) :
    ts = us := by
  have hperm : ts.Perm us := (perm_ext_iff_of_nodup h.nodup h'.nodup).mpr fun t =>
    (h.mem t.1 t.2).trans (h'.mem t.1 t.2).symm
  apply hperm.eq_of_pairwise _ h.sorted h'.sorted
  intro t u ht hu htu hut
  have := ((h.mem t.1 t.2).mp ht).lt
  have := ((h'.mem u.1 u.2).mp hu).lt
  omega

/-! ## One piece -/

theorem lists_nil : Lists p ([] : List α) [] := by
  refine ⟨Pairwise.nil, fun i j => iff_of_false not_mem_nil ?_⟩
  intro h
  have hlt := h.lt
  have hle := h.le
  rw [length_nil] at hle
  omega

theorem free_of_forall {s : List α} (h : ∀ c ∈ s, ¬ p c) (i j : Nat) : Free p s i j :=
  fun _ c _ _ hc => h c (mem_of_getElem? hc)

theorem lists_free {s : List α} (h0 : s ≠ []) (h : ∀ c ∈ s, ¬ p c) : Lists p s [(0, s.length)] := by
  have hpos := length_pos_of_ne_nil h0
  refine ⟨pairwise_singleton .., fun i j => ?_⟩
  rw [mem_singleton, Prod.mk.injEq]
  constructor
  · rintro ⟨rfl, rfl⟩
    exact ⟨hpos, le_refl _, free_of_forall h _ _, fun i' j' hi hj hle _ => ⟨by omega, by omega⟩⟩
  · intro ht
    have hall := ht.longest 0 s.length (Nat.zero_le i) ht.le (le_refl _) (free_of_forall h _ _)
    exact ⟨hall.1.symm, hall.2.symm⟩

section Delimiter

variable {c : α} (hc : p c) {s s' : List α}

theorem free_left (hj : j ≤ s.length) : Free p (s ++ c :: s') i j ↔ Free p s i j := by
  refine forall_congr' fun k => forall_congr' fun b => imp_congr_right fun _ => ?_
  refine imp_congr_right fun hk => ?_
  rw [getElem?_append_left (by omega)]

theorem free_right :
    Free p (s ++ c :: s') (i + (s.length + 1)) (j + (s.length + 1)) ↔ Free p s' i j := by
  have hget : ∀ k, (s ++ c :: s')[k + (s.length + 1)]? = s'[k]? := by
    intro k
    rw [getElem?_append_right (by omega), show k + (s.length + 1) - s.length = k + 1 by omega]
    rfl
  constructor
  · intro h k b hi hj hb
    exact h (k + (s.length + 1)) b (by omega) (by omega) ((hget k).trans hb)
  · intro h k b hi hj hb
    obtain ⟨k, rfl⟩ : ∃ n, k = n + (s.length + 1) := ⟨k - (s.length + 1), by omega⟩
    exact h k b (by omega) (by omega) ((hget k).symm.trans hb)

include hc

theorem Free.side (h : Free p (s ++ c :: s') i j) : j ≤ s.length ∨ s.length + 1 ≤ i := by
  by_contra hno
  refine h s.length c (by omega) (by omega) ?_ hc
  rw [getElem?_append_right (le_refl _), Nat.sub_self]
  rfl

theorem token_left (hj : j ≤ s.length) : Token p (s ++ c :: s') i j ↔ Token p s i j := by
  have hlen : (s ++ c :: s').length = s.length + (s'.length + 1) := by simp
  constructor
  · intro h
    refine ⟨h.lt, hj, (free_left hj).mp h.free, ?_⟩
    intro i' j' hi hj' hle hfree
    exact h.longest i' j' hi hj' (by omega) ((free_left hle).mpr hfree)
  · intro h
    refine ⟨h.lt, by omega, (free_left hj).mpr h.free, ?_⟩
    intro i' j' hi hj' hle hfree
    have hlt := h.lt
    have hj'' : j' ≤ s.length := by
      rcases hfree.side hc with hside | hside
      · exact hside
      · omega
    exact h.longest i' j' hi hj' hj'' ((free_left hj'').mp hfree)

theorem token_right :
    Token p (s ++ c :: s') (i + (s.length + 1)) (j + (s.length + 1)) ↔ Token p s' i j := by
  have hlen : (s ++ c :: s').length = s'.length + (s.length + 1) := by
    simp
    omega
  constructor
  · intro h
    have hlt := h.lt
    have hle := h.le
    refine ⟨by omega, by omega, free_right.mp h.free, ?_⟩
    intro i' j' hi hj' hle' hfree
    have := h.longest (i' + (s.length + 1)) (j' + (s.length + 1)) (by omega) (by omega) (by omega)
      (free_right.mpr hfree)
    omega
  · intro h
    have hlt := h.lt
    have hle := h.le
    refine ⟨by omega, by omega, free_right.mpr h.free, ?_⟩
    intro i' j' hi hj' hle' hfree
    have hside := hfree.side hc
    obtain ⟨i', rfl⟩ : ∃ n, i' = n + (s.length + 1) := ⟨i' - (s.length + 1), by omega⟩
    obtain ⟨j', rfl⟩ : ∃ n, j' = n + (s.length + 1) := ⟨j' - (s.length + 1), by omega⟩
    have := h.longest i' j' (by omega) (by omega) (by omega) (free_right.mp hfree)
    omega

theorem Lists.append {ts' : List (Nat × Nat)} (h : Lists p s ts) (h' : Lists p s' ts') :
    Lists p (s ++ c :: s') (ts ++ shift (s.length + 1) ts') := by
  constructor
  · refine pairwise_append.mpr ⟨h.sorted, ?_, ?_⟩
    · refine pairwise_map.mpr (h'.sorted.imp fun hlt => ?_)
      omega
    · rintro ⟨i, j⟩ ht u hu
      obtain ⟨u, -, rfl⟩ := List.mem_map.mp hu
      have hle := ((h.mem i j).mp ht).le
      simp only
      omega
  · intro i j
    rw [mem_append, h.mem, shift, List.mem_map]
    constructor
    · rintro (ht | ⟨⟨i', j'⟩, ht, heq⟩)
      · exact (token_left hc ht.le).mpr ht
      · obtain ⟨rfl, rfl⟩ := Prod.mk.inj heq
        exact (token_right hc).mpr ((h'.mem i' j').mp ht)
    · intro ht
      have hlt := ht.lt
      rcases ht.free.side hc with hj | hi
      · exact .inl ((token_left hc hj).mp ht)
      · obtain ⟨i, rfl⟩ : ∃ n, i = n + (s.length + 1) := ⟨i - (s.length + 1), by omega⟩
        obtain ⟨j, rfl⟩ : ∃ n, j = n + (s.length + 1) := ⟨j - (s.length + 1), by omega⟩
        exact .inr ⟨(i, j), (h'.mem i j).mpr ((token_right hc).mp ht), rfl⟩

end Delimiter

theorem Lists.behind {lead s : List α} (hlead : ∀ c ∈ lead, p c) (h : Lists p s ts) :
    Lists p (lead ++ s) (shift lead.length ts) := by
  induction lead with
  | nil => simpa [shift] using h
  | cons c lead ih =>
    rw [forall_mem_cons] at hlead
    have hc := lists_nil.append hlead.1 (ih hlead.2)
    rw [shift_shift] at hc
    exact hc

theorem lists_none {s : List α} (h : ∀ c ∈ s, p c) : Lists p s [] := by
  have hbehind := lists_nil.behind h
  rwa [append_nil] at hbehind

section First

variable {lead tok : List α} (hlead : ∀ c ∈ lead, p c) (h0 : tok ≠ []) (htok : ∀ c ∈ tok, ¬ p c)

include hlead h0 htok

theorem lists_last : Lists p (lead ++ tok) [(lead.length, lead.length + tok.length)] := by
  have h := (lists_free h0 htok).behind hlead
  rw [shift, map_singleton, Nat.zero_add, Nat.add_comm] at h
  exact h

theorem Lists.first {c : α} (hc : p c) {rest : List α} (h : Lists p rest ts) :
    Lists p (lead ++ (tok ++ c :: rest))
      ((lead.length, lead.length + tok.length) :: shift (lead.length + tok.length + 1) ts) := by
  have h := ((lists_free h0 htok).append hc h).behind hlead
  rw [singleton_append, shift, map_cons, ← shift, shift_shift, Nat.zero_add,
    Nat.add_comm tok.length] at h
  rwa [show tok.length + 1 + lead.length = lead.length + tok.length + 1 by omega] at h

end First

end Terrakernel.Tokens
