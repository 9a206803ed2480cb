import Mathlib.Data.List.Chain
import Mathlib.Tactic.Common

/-!
# Lists that join neighbours

Two free neighbours can be joined into one. Marking items free one by one, with a joining pass after
each, gives the same list as marking them all and joining once.
-/

namespace Terrakernel.Coalesce

open List

/-- What can be joined: which items are free, and how two of them become one. -/
structure Joins (β : Type*) where
  free : β → Bool
  join : β → β → β
  free_join : ∀ a b, free a = true → free b = true → free (join a b) = true
  join_assoc : ∀ a b c, join (join a b) c = join a (join b c)

namespace Joins

variable {β : Type*} (J : Joins β)

/-- Puts `b` in front, joined to the head if both are free. -/
def push (b : β) : List β → List β
  | [] => [b]
  | c :: cs => if J.free b && J.free c then J.join b c :: cs else b :: c :: cs

def norm (bs : List β) : List β := bs.foldr J.push []

def Normal (bs : List β) : Prop := bs.IsChain fun a b => ¬ (J.free a = true ∧ J.free b = true)

@[simp] theorem norm_nil : J.norm [] = [] := rfl

@[simp] theorem norm_cons (b : β) (bs : List β) : J.norm (b :: bs) = J.push b (J.norm bs) := rfl

theorem push_free {b c : β} (hb : J.free b = true) (hc : J.free c = true) (cs : List β) :
    J.push b (c :: cs) = J.join b c :: cs := by simp [push, hb, hc]

theorem push_apart {b c : β} (h : ¬ (J.free b = true ∧ J.free c = true)) (cs : List β) :
    J.push b (c :: cs) = b :: c :: cs := by
  rw [push, if_neg (by simpa [Bool.and_eq_true] using h)]

/-! ## Normal lists -/

theorem normal_iff_map (bs : List β) :
    J.Normal bs ↔ (bs.map J.free).IsChain fun a b => ¬ (a = true ∧ b = true) := by
  rw [isChain_map]
  rfl

theorem norm_of_normal {bs : List β} (h : J.Normal bs) : J.norm bs = bs := by
  induction bs with
  | nil => rfl
  | cons b bs ih =>
    rw [norm_cons, ih h.of_cons]
    cases bs with
    | nil => rfl
    | cons c cs => exact J.push_apart h.rel cs

theorem push_normal {b : β} {cs : List β} (h : J.Normal cs) : J.Normal (J.push b cs) := by
  cases cs with
  | nil => exact .singleton b
  | cons c cs =>
    by_cases hbc : J.free b = true ∧ J.free c = true
    · rw [J.push_free hbc.1 hbc.2]
      -- The joined item is free, as `c` was, so the next one still may not be.
      refine h.imp_head ?_
      intro z hz hboth
      exact hz ⟨hbc.2, hboth.2⟩
    · rw [J.push_apart hbc]
      exact .cons_cons hbc h

theorem norm_normal (bs : List β) : J.Normal (J.norm bs) := by
  induction bs with
  | nil => exact .nil
  | cons b bs ih => exact J.push_normal ih

theorem norm_append (xs ys : List β) : J.norm (xs ++ J.norm ys) = J.norm (xs ++ ys) := by
  induction xs with
  | nil => exact J.norm_of_normal (J.norm_normal ys)
  | cons x xs ih => simp only [cons_append, norm_cons, ih]

theorem norm_join_middle {xs ys : List β} {a b : β} (hx : J.Normal (xs ++ [a]))
    (hy : J.Normal (b :: ys)) (ha : J.free a = true) (hb : J.free b = true) :
    J.norm (xs ++ a :: b :: ys) = xs ++ J.join a b :: ys := by
  have hmid : J.norm (a :: b :: ys) = J.join a b :: ys := by
    rw [norm_cons, J.norm_of_normal hy, J.push_free ha hb]
  have hright : J.Normal (J.join a b :: ys) := hmid ▸ J.norm_normal (a :: b :: ys)
  have hleft : J.Normal (xs ++ [J.join a b]) := by
    refine hx.left_of_append.append (.singleton _) ?_
    intro x hxl y hyl hboth
    obtain rfl : J.join a b = y := by simpa using hyl
    exact (isChain_append.mp hx).2.2 x hxl a rfl ⟨hboth.1, ha⟩
  rw [← J.norm_append, hmid, J.norm_of_normal]
  exact isChain_split.mpr ⟨hleft, hright⟩

/-! ## Marking -/

theorem push_push {b c : β} (hb : J.free b = true) (hc : J.free c = true) (xs : List β) :
    J.push b (J.push c xs) = J.push (J.join b c) xs := by
  cases xs with
  | nil => exact J.push_free hb hc []
  | cons d ds =>
    by_cases hd : J.free d = true
    · rw [J.push_free hc hd, J.push_free hb (J.free_join c d hc hd),
        J.push_free (J.free_join b c hb hc) hd, J.join_assoc]
    · rw [J.push_apart (fun h => hd h.2), J.push_free hb hc, J.push_apart (fun h => hd h.2)]

/-- A marking changes no item that is free already. -/
def Marking (f : β → β) : Prop := ∀ b, J.free b = true → f b = b

variable {J}

theorem norm_map_push {f : β → β} (hf : J.Marking f) (b : β) (cs : List β) :
    J.norm ((J.push b cs).map f) = J.push (f b) (J.norm (cs.map f)) := by
  cases cs with
  | nil => rfl
  | cons c cs =>
    by_cases hbc : J.free b = true ∧ J.free c = true
    · rw [J.push_free hbc.1 hbc.2, map_cons, norm_cons, hf _ (J.free_join b c hbc.1 hbc.2),
        map_cons, norm_cons, hf b hbc.1, hf c hbc.2, J.push_push hbc.1 hbc.2]
    · rw [J.push_apart hbc, map_cons, norm_cons]

theorem norm_map_norm {f : β → β} (hf : J.Marking f) (bs : List β) :
    J.norm ((J.norm bs).map f) = J.norm (bs.map f) := by
  induction bs with
  | nil => rfl
  | cons b bs ih => rw [norm_cons, norm_map_push hf, ih, map_cons, norm_cons]

theorem foldl_norm_map (fs : List (β → β)) (hfs : ∀ f ∈ fs, J.Marking f) (bs : List β) :
    fs.foldl (fun cs f => J.norm (cs.map f)) (J.norm bs) =
      J.norm (bs.map fun b => fs.foldl (fun c f => f c) b) := by
  induction fs generalizing bs with
  | nil => simp
  | cons f fs ih =>
    rw [foldl_cons, norm_map_norm (hfs f mem_cons_self),
      ih (fun g hg => hfs g (mem_cons_of_mem _ hg)), List.map_map]
    rfl

/-! ## Everything free -/

theorem norm_all_free {bs : List β} (hne : bs ≠ []) (h : ∀ b ∈ bs, J.free b = true) :
    ∃ b, J.norm bs = [b] ∧ J.free b = true := by
  induction bs with
  | nil => exact absurd rfl hne
  | cons b bs ih =>
    have hb := h b mem_cons_self
    cases bs with
    | nil => exact ⟨b, rfl, hb⟩
    | cons c cs =>
      obtain ⟨d, hd, hfree⟩ := ih (by simp) (fun x hx => h x (mem_cons_of_mem _ hx))
      exact ⟨J.join b d, by rw [norm_cons, hd, J.push_free hb hfree], J.free_join b d hb hfree⟩

end Joins

end Terrakernel.Coalesce
