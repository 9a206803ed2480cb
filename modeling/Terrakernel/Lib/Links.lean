import Mathlib.Data.List.Basic
import Mathlib.Tactic.Common

/-!
# Lists linked through a next pointer

The null address 0 ends a list, and every walk is one loop with a condition to stop.
-/

namespace Terrakernel.Links

open List

variable {n x fuel q : Nat} {stop : Nat → Bool} {ys l r : List Nat}

/-- The list that starts at `p`. -/
def Chain (next : Nat → Nat) : Nat → List Nat → Prop
  | p, [] => p = 0
  | p, x :: xs => p = x ∧ x ≠ 0 ∧ Chain next (next x) xs

/-- Follows the links until `stop` holds. -/
def seek (next : Nat → Nat) (stop : Nat → Bool) : Nat → Nat → Option Nat
  | 0, _ => none
  | fuel + 1, p => if stop p then some p else seek next stop fuel (next p)

variable {next next' : Nat → Nat} {p : Nat} {xs : List Nat}

theorem Chain.head (h : Chain next p xs) : p = xs.headD 0 := by
  cases xs with
  | nil => exact h
  | cons x xs => exact h.1

theorem Chain.ne_zero (h : Chain next p xs) (hx : x ∈ xs) : x ≠ 0 := by
  induction xs generalizing p with
  | nil => simp at hx
  | cons y ys ih =>
    rcases mem_cons.mp hx with rfl | hx
    · exact h.2.1
    · exact ih h.2.2 hx

theorem Chain.null_iff (h : Chain next p xs) : p = 0 ↔ xs = [] := by
  cases xs with
  | nil => simpa [Chain] using h
  | cons x xs => simp [h.1, h.2.1]

theorem Chain.seek (h : Chain next p xs) (hfuel : xs.length < fuel)
    (hq : (xs ++ [0]).find? stop = some q) : seek next stop fuel p = some q := by
  induction xs generalizing p fuel with
  | nil =>
    obtain _ | k := fuel
    · omega
    obtain rfl : p = 0 := h
    rw [nil_append, find?_singleton, Option.ite_none_right_eq_some] at hq
    rw [Links.seek, if_pos hq.1, hq.2]
  | cons x xs ih =>
    rw [length_cons] at hfuel
    obtain _ | k := fuel
    · omega
    obtain ⟨rfl, -, hrest⟩ := h
    rw [Links.seek]
    by_cases hs : stop p = true
    · rw [cons_append, find?_cons_of_pos hs] at hq
      rw [if_pos hs, hq]
    · rw [cons_append, find?_cons_of_neg hs] at hq
      rw [if_neg hs]
      exact ih hrest (by omega) hq

theorem Chain.of_seek (h : Chain next p xs) (hnull : stop 0 = true)
    (hq : Links.seek next stop fuel p = some q) : q ∈ xs ∨ q = 0 := by
  induction xs generalizing p fuel with
  | nil =>
    obtain rfl : p = 0 := h
    cases fuel with
    | zero => simp [Links.seek] at hq
    | succ fuel =>
      rw [Links.seek, if_pos hnull] at hq
      exact .inr (Option.some.inj hq).symm
  | cons x xs ih =>
    obtain ⟨rfl, -, hrest⟩ := h
    cases fuel with
    | zero => simp [Links.seek] at hq
    | succ fuel =>
      rw [Links.seek] at hq
      by_cases hs : stop p = true
      · rw [if_pos hs] at hq
        exact .inl (by simp [Option.some.inj hq])
      · rw [if_neg hs] at hq
        exact (ih hrest hq).imp_left (mem_cons_of_mem p)

theorem Chain.congr (h : Chain next p xs) (hsame : ∀ x ∈ xs, next' x = next x) :
    Chain next' p xs := by
  induction xs generalizing p with
  | nil => exact h
  | cons x xs ih =>
    refine ⟨h.1, h.2.1, ?_⟩
    rw [hsame x mem_cons_self]
    exact ih h.2.2 fun y hy => hsame y (mem_cons_of_mem _ hy)

theorem Chain.unique (h : Chain next p xs) (h' : Chain next p ys) : xs = ys := by
  induction xs generalizing p ys with
  | nil => exact (h'.null_iff.mp h).symm
  | cons x xs ih =>
    cases ys with
    | nil => exact absurd (h.1.symm.trans h') h.2.1
    | cons y ys =>
      obtain rfl : x = y := h.1.symm.trans h'.1
      rw [ih h.2.2 h'.2.2]

theorem Chain.suffix (h : Chain next p (l ++ r)) : Chain next (r.headD 0) r := by
  induction l generalizing p with
  | nil =>
    have := h.head
    rw [nil_append] at h this
    rw [← this]
    exact h
  | cons x l ih => exact ih h.2.2

theorem Chain.nodup (h : Chain next p xs) : xs.Nodup := by
  induction xs generalizing p with
  | nil => exact .nil
  | cons x xs ih =>
    refine nodup_cons.mpr ⟨?_, ih h.2.2⟩
    intro hx
    obtain ⟨l, r, rfl⟩ := append_of_mem hx
    have htail : Chain next x (x :: r) := h.2.2.suffix
    have hwhole : Chain next x (x :: (l ++ x :: r)) := ⟨rfl, h.2⟩
    have := congrArg List.length (htail.unique hwhole)
    simp at this
    omega

theorem Chain.cut (h : Chain next p (l ++ x :: r)) (hx : Chain next' (next' x) ys)
    (hsame : ∀ y ∈ l, next' y = next y) : Chain next' p (l ++ x :: ys) := by
  induction l generalizing p with
  | nil => exact ⟨h.1, h.2.1, hx⟩
  | cons y l ih =>
    refine ⟨h.1, h.2.1, ?_⟩
    rw [hsame y mem_cons_self]
    exact ih h.2.2 fun z hz => hsame z (mem_cons_of_mem _ hz)

theorem Chain.after (h : Chain next p (l ++ x :: r)) : Chain next (next x) r := h.suffix.2.2

theorem Chain.next_mem (h : Chain next p (l ++ x :: r)) : next x = r.headD 0 := h.after.head

theorem Chain.next_of_mem {z : Nat} (h : Chain next p (l ++ x :: r)) (hz : z ∈ l) :
    ∃ y ∈ l ++ [x], next z = y := by
  obtain ⟨l1, l2, rfl⟩ := append_of_mem hz
  rw [append_assoc, cons_append] at h
  cases l2 with
  | nil => exact ⟨x, by simp, h.next_mem⟩
  | cons y l2 => exact ⟨y, by simp, h.next_mem⟩

/-! ## Trees of lists -/

/-- The list of each node. -/
abbrev Kids := Nat → List Nat

/-- The nodes found from `root` on, where `kids n` is the list of node `n`. -/
inductive Reached (root : Nat) (kids : Kids) : Nat → Prop
  | root : Reached root kids root
  | child {m c : Nat} : Reached root kids m → c ∈ kids m → Reached root kids c

variable {root : Nat} {kids kids' : Kids}

theorem Reached.mono (h : Reached root kids n)
    (hsub : ∀ m, Reached root kids m → ∀ c ∈ kids m, c ∈ kids' m) : Reached root kids' n := by
  induction h with
  | root => exact .root
  | child hm hc ih => exact .child ih (hsub _ hm _ hc)

theorem Reached.trans {m : Nat} (h : Reached root kids m) (h' : Reached m kids n) :
    Reached root kids n := by
  induction h' with
  | root => exact h
  | child _ hc ih => exact .child ih hc

theorem reached_bare (h : kids root = []) : Reached root kids n ↔ n = root := by
  constructor
  · intro hn
    induction hn with
    | root => rfl
    | child _ hc ih =>
      rw [ih, h] at hc
      exact absurd hc not_mem_nil
  · rintro rfl
    exact .root

theorem Reached.of_child {c : Nat} (h : Reached c kids x) (hc : c ∈ kids root) :
    Reached root kids x :=
  (Reached.child .root hc).trans h

theorem Reached.kept (h : Reached root kids x)
    (hkeep : ∀ m, ∀ c ∈ kids m, Reached c kids x → c ∈ kids' m) : Reached root kids' x := by
  -- From the root down, each node on the way to `x` is still found.
  have hway : ∀ {m}, Reached root kids m → Reached m kids x → Reached root kids' m := by
    intro m hm
    induction hm with
    | root => exact fun _ => .root
    | @child d c hd hc ih =>
      intro hx
      exact .child (ih (hx.of_child hc)) (hkeep d c hc hx)
  exact hway h .root

end Terrakernel.Links
