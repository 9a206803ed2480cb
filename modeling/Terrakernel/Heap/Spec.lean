import Terrakernel.Heap.Headers
import Terrakernel.Lib.Choice
import Terrakernel.Lib.Coalesce

/-!
# What the heap means

A heap is a list of blocks in address order. `Refine.lean` shows that the code keeps one.
-/

namespace Terrakernel.Heap

open Coalesce Choice List

variable {lo n hi : Nat}

/-- A block of the list: its header's address, its payload's length, and whether it is free. -/
structure Blk where
  addr : Nat
  len : Nat
  free : Bool
  deriving DecidableEq, Repr

variable {b c : Blk} {bs pre post : List Blk}

/-- Where the payload starts. -/
def Blk.ptr (b : Blk) : Nat := b.addr + headerSize

/-- Where the payload ends. -/
def Blk.fin (b : Blk) : Nat := b.addr + headerSize + b.len

def firstAddr : List Blk → Nat → Nat
  | [], nxt => nxt
  | b :: _, _ => b.addr

def lastAddr : Nat → List Blk → Nat
  | prv, [] => prv
  | _, b :: bs => lastAddr b.addr bs

/-- The headers of a piece of the list that stands between the blocks `prv` and `nxt`. -/
def headers : Nat → List Blk → Nat → List (Nat × HeapBlock)
  | _, [], _ => []
  | prv, b :: bs, nxt => (b.addr, ⟨b.ptr, b.len, b.free, prv, firstAddr bs nxt⟩) :: headers b.addr bs nxt

/-- The blocks lie in `[lo, hi)` one behind the other. There may be gaps. -/
def Fits : Nat → List Blk → Nat → Prop
  | lo, [], hi => lo ≤ hi
  | lo, b :: bs, hi => lo ≤ b.addr ∧ Fits b.fin bs hi

/-- The blocks fill `[lo, hi)`. -/
def Tiles : Nat → List Blk → Nat → Prop
  | lo, [], hi => lo = hi
  | lo, b :: bs, hi => lo = b.addr ∧ Tiles b.fin bs hi

/-! ## Headers -/

theorem firstAddr_append (xs ys : List Blk) (nxt : Nat) :
    firstAddr (xs ++ ys) nxt = firstAddr xs (firstAddr ys nxt) := by
  cases xs <;> rfl

theorem cons_of_firstAddr (h : firstAddr bs 0 ≠ 0) : ∃ b cs, bs = b :: cs := by
  cases bs with
  | nil => exact absurd rfl h
  | cons b cs => exact ⟨b, cs, rfl⟩

theorem headers_append (xs ys : List Blk) (prv nxt : Nat) :
    headers prv (xs ++ ys) nxt =
      headers prv xs (firstAddr ys nxt) ++ headers (lastAddr prv xs) ys nxt := by
  induction xs generalizing prv with
  | nil => rfl
  | cons b bs ih =>
    simp only [cons_append, headers, lastAddr, ih, firstAddr_append]

theorem lastAddr_snoc (xs : List Blk) (b : Blk) (prv : Nat) : lastAddr prv (xs ++ [b]) = b.addr := by
  induction xs generalizing prv with
  | nil => rfl
  | cons c cs ih => exact ih c.addr

theorem of_mem_headers {prv nxt : Nat} {e : Nat × HeapBlock} (he : e ∈ headers prv bs nxt) :
    ∃ b ∈ bs, e.1 = b.addr ∧ e.2.base = b.ptr ∧ e.2.length = b.len ∧ e.2.isFree = b.free := by
  induction bs generalizing prv with
  | nil => simp [headers] at he
  | cons b bs ih =>
    rw [headers, mem_cons] at he
    rcases he with rfl | he
    · exact ⟨b, mem_cons_self, rfl, rfl, rfl, rfl⟩
    · obtain ⟨c, hc, h⟩ := ih he
      exact ⟨c, mem_cons_of_mem _ hc, h⟩

/-! ## Places -/

theorem fits_append {xs ys : List Blk} :
    Fits lo (xs ++ ys) hi ↔ ∃ mid, Fits lo xs mid ∧ Fits mid ys hi := by
  induction xs generalizing lo with
  | nil =>
    constructor
    · intro h; exact ⟨lo, le_refl lo, h⟩
    · rintro ⟨mid, h1, h2⟩
      cases ys with
      | nil => exact le_trans h1 h2
      | cons b bs => exact ⟨le_trans h1 h2.1, h2.2⟩
  | cons b bs ih =>
    simp only [cons_append, Fits, ih]
    constructor
    · rintro ⟨h, mid, h1, h2⟩; exact ⟨mid, ⟨h, h1⟩, h2⟩
    · rintro ⟨mid, ⟨h, h1⟩, h2⟩; exact ⟨h, mid, h1, h2⟩

theorem Fits.le (h : Fits lo bs hi) : lo ≤ hi := by
  induction bs generalizing lo with
  | nil => exact h
  | cons b bs ih =>
    have := ih h.2
    have := h.1
    simp only [Blk.fin] at *
    omega

theorem Fits.bounds (h : Fits lo bs hi) (hb : b ∈ bs) : lo ≤ b.addr ∧ b.fin ≤ hi := by
  induction bs generalizing lo with
  | nil => simp at hb
  | cons c cs ih =>
    rcases mem_cons.mp hb with rfl | hb
    · exact ⟨h.1, h.2.le⟩
    · have hc := ih h.2 hb
      have := h.1
      simp only [Blk.fin] at *
      omega

theorem Fits.length_le (h : Fits lo bs hi) : lo + headerSize * bs.length ≤ hi := by
  induction bs generalizing lo with
  | nil => simpa [Fits] using h
  | cons b bs ih =>
    have h1 := ih h.2
    have h2 := h.1
    simp only [Blk.fin, headerSize, length_cons] at *
    omega

theorem Fits.long_le (h : Fits lo bs hi) (k : Nat) :
    lo + k * (bs.filter fun b => k ≤ b.len).length ≤ hi := by
  induction bs generalizing lo with
  | nil => exact h
  | cons b bs ih =>
    have hrest := ih h.2
    have hlo := h.1
    rw [Blk.fin] at hrest
    by_cases hk : k ≤ b.len
    · rw [filter_cons_of_pos (by simpa using hk), length_cons, Nat.mul_succ]
      omega
    · rw [filter_cons_of_neg (by simpa using hk)]
      omega

theorem Fits.replace {mid mid' : List Blk} (h : Fits lo (pre ++ (mid ++ post)) hi)
    (hmid : ∀ lo hi, Fits lo mid hi → Fits lo mid' hi) : Fits lo (pre ++ (mid' ++ post)) hi := by
  rw [fits_append] at h ⊢
  obtain ⟨x, h1, h2⟩ := h
  rw [fits_append] at h2
  obtain ⟨y, h3, h4⟩ := h2
  exact ⟨x, h1, fits_append.mpr ⟨y, hmid x y h3, h4⟩⟩

theorem Fits.around (h : Fits lo (pre ++ b :: post) hi) :
    (∀ c ∈ pre, c.fin ≤ b.addr) ∧ ∀ c ∈ post, b.fin ≤ c.addr := by
  obtain ⟨mid, h1, h2⟩ := fits_append.mp h
  constructor
  · intro c hc
    exact le_trans (h1.bounds hc).2 h2.1
  · intro c hc
    exact (h2.2.bounds hc).1

theorem Fits.disjoint (h : Fits lo bs hi) : bs.Pairwise fun b c => b.fin ≤ c.addr := by
  induction bs generalizing lo with
  | nil => exact .nil
  | cons b bs ih => exact .cons (fun c hc => (h.2.bounds hc).1) (ih h.2)

theorem Fits.apart (h : Fits lo bs hi) (hb : b ∈ bs) (hc : c ∈ bs) (hne : b ≠ c) :
    b.fin ≤ c.addr ∨ c.fin ≤ b.addr := by
  obtain ⟨pre, post, rfl⟩ := append_of_mem hb
  obtain ⟨hpre, hpost⟩ := h.around
  rw [mem_append, mem_cons] at hc
  rcases hc with hc | rfl | hc
  · exact .inr (hpre c hc)
  · exact absurd rfl hne
  · exact .inl (hpost c hc)

theorem Fits.map_at (f : Blk → Blk) (h : Fits lo (pre ++ b :: post) hi) :
    (pre ++ b :: post).map (fun c => if c.ptr = b.ptr then f c else c) = pre ++ f b :: post := by
  obtain ⟨hpre, hpost⟩ := h.around
  have hrest : ∀ cs : List Blk, (∀ c ∈ cs, c.ptr ≠ b.ptr) →
      cs.map (fun c => if c.ptr = b.ptr then f c else c) = cs := by
    intro cs hcs
    rw [map_congr_left (g := id), List.map_id]
    intro c hc
    rw [if_neg (hcs c hc), id]
  rw [map_append, map_cons, if_pos rfl, hrest pre, hrest post]
  · intro c hc
    have := hpost c hc
    simp only [Blk.ptr, Blk.fin, headerSize] at *
    omega
  · intro c hc
    have := hpre c hc
    simp only [Blk.ptr, Blk.fin, headerSize] at *
    omega

theorem Fits.flatMap_at (f : Blk → List Blk) (h : Fits lo (pre ++ b :: post) hi) :
    (pre ++ b :: post).flatMap (fun c => if c = b then f c else [c]) = pre ++ (f b ++ post) := by
  obtain ⟨hpre, hpost⟩ := h.around
  have hrest : ∀ cs : List Blk, (∀ c ∈ cs, c ≠ b) →
      cs.flatMap (fun c => if c = b then f c else [c]) = cs := by
    intro cs hcs
    rw [flatMap_congr (g := fun c => [c]), flatMap_singleton']
    intro c hc
    rw [if_neg (hcs c hc)]
  rw [flatMap_append, flatMap_cons, if_pos rfl, hrest pre, hrest post]
  · rintro c hc rfl
    have := hpost c hc
    simp only [Blk.fin, headerSize] at *
    omega
  · rintro c hc rfl
    have := hpre c hc
    simp only [Blk.fin, headerSize] at *
    omega

theorem Fits.find_ptr (h : Fits lo bs hi) (hb : b ∈ bs) :
    (bs.find? fun c => c.ptr = b.ptr) = some b := by
  obtain ⟨pre, post, rfl⟩ := append_of_mem hb
  have hpre : ∀ c ∈ pre, c.ptr ≠ b.ptr := by
    intro c hc
    have := h.around.1 c hc
    simp only [Blk.ptr, Blk.fin, headerSize] at *
    omega
  rw [find?_append, find?_eq_none.mpr (by simpa using hpre)]
  simp

theorem Fits.eq_of_ptr (h : Fits lo bs hi) (hb : b ∈ bs) (hc : c ∈ bs) (hp : c.ptr = b.ptr) :
    c = b := by
  have hfind := h.find_ptr hc
  rw [hp, h.find_ptr hb] at hfind
  exact (Option.some.inj hfind).symm

/-! ## Joining -/

def joins : Joins Blk where
  free b := b.free
  join a b := ⟨a.addr, a.len + b.len + headerSize, true⟩
  free_join := fun _ _ _ _ => rfl
  join_assoc := by
    intro a b c
    simp only [Blk.mk.injEq, headerSize, and_true, true_and]
    omega

/-- What `free` does to a block before it joins the list. -/
def release (ptr : Nat) (b : Blk) : Blk := if b.ptr = ptr then { b with free := true } else b

/-- What a block becomes that `malloc` hands out for `n` bytes. -/
def carve (n : Nat) (b : Blk) : List Blk :=
  if n + headerSize < b.len then
    [⟨b.addr, n, false⟩, ⟨b.addr + headerSize + n, b.len - n - headerSize, true⟩]
  else [⟨b.addr, b.len, false⟩]

/-- One round of the best-fit loop. -/
def better (n : Nat) (best : Option Blk) (b : Blk) : Option Blk :=
  if b.free = true ∧ n ≤ b.len ∧ (∀ c ∈ best, b.len < c.len) then some b else best

def bestBlock (n : Nat) (bs : List Blk) : Option Blk := bs.foldl (better n) none

/-- `malloc`, on the list: the pointer it returns and the list afterwards. -/
def allot (n : Nat) (bs : List Blk) : Nat × List Blk :=
  match bestBlock n bs with
  | none => (0, bs)
  | some b => (b.ptr, bs.flatMap fun c => if c = b then carve n c else [c])

/-- `free`, on the list. -/
def freed (ptr : Nat) (bs : List Blk) : List Blk := joins.norm (bs.map (release ptr))

def resize (ptr n : Nat) (b : Blk) : Blk := if b.ptr = ptr then { b with len := n } else b

/-- `realloc`, on the list. -/
def reallot (ptr n : Nat) (bs : List Blk) : Nat × List Blk :=
  if ptr = 0 then allot n bs
  else if n = 0 then (0, freed ptr bs)
  else
    match bs.find? fun b => b.ptr = ptr with
    | none => (0, bs)
    | some b =>
      if n ≤ b.len then (ptr, bs.map (resize ptr n))
      else if (allot n bs).1 = 0 then (0, bs)
      else ((allot n bs).1, freed ptr (allot n bs).2)

theorem release_marking (ptr : Nat) : joins.Marking (release ptr) := by
  intro b hb
  have hb' : b.free = true := hb
  rw [release]
  split_ifs
  · rw [← hb']
  · rfl

theorem map_release_of_not_mem {ptr : Nat} (h : ∀ b ∈ bs, b.ptr ≠ ptr) :
    bs.map (release ptr) = bs := by
  rw [map_congr_left (g := id), List.map_id]
  intro b hb
  rw [release, if_neg (h b hb), id]

theorem mem_push_addr {cs : List Blk} (h : b ∈ joins.push c cs) : b.addr = c.addr ∨ b ∈ cs := by
  cases cs with
  | nil =>
    obtain rfl : b = c := by simpa [Joins.push] using h
    exact .inl rfl
  | cons d ds =>
    rw [Joins.push] at h
    split_ifs at h
    · rcases mem_cons.mp h with rfl | h
      · exact .inl rfl
      · exact .inr (mem_cons_of_mem _ h)
    · rcases mem_cons.mp h with rfl | h
      · exact .inl rfl
      · exact .inr h

theorem push_cons (b : Blk) (cs : List Blk) :
    ∃ c ds, joins.push b cs = c :: ds ∧ c.addr = b.addr ∧ (b.free = true → c.free = true) := by
  cases cs with
  | nil => exact ⟨b, [], rfl, rfl, id⟩
  | cons d ds =>
    rw [Joins.push]
    split_ifs
    · exact ⟨_, ds, rfl, rfl, fun _ => rfl⟩
    · exact ⟨b, d :: ds, rfl, rfl, id⟩

/-! ## Best fit -/

/-- `b` is the first of the shortest free blocks that have `n` bytes. -/
abbrev BestFit (n : Nat) (bs pre : List Blk) (b : Blk) (post : List Blk) : Prop :=
  FirstLeast (fun c : Blk => c.free = true ∧ n ≤ c.len) Blk.len bs pre b post

theorem bestBlock_eq_choose (n : Nat) (bs : List Blk) :
    bestBlock n bs = choose (fun c : Blk => c.free = true ∧ n ≤ c.len) Blk.len bs := by
  have hround : better n = consider (fun c : Blk => c.free = true ∧ n ≤ c.len) Blk.len := by
    funext best b
    simp only [better, consider, and_assoc]
  rw [bestBlock, hround]
  rfl

theorem bestBlock_eq_none : bestBlock n bs = none ↔ ∀ b ∈ bs, b.free = true → b.len < n := by
  simp [bestBlock_eq_choose, choose_none]

theorem bestBlock_bestFit (h : bestBlock n bs = some b) : ∃ pre post, BestFit n bs pre b post := by
  rw [bestBlock_eq_choose] at h
  exact choose_some h

theorem forall_bestFit_iff (h : bestBlock n bs = some b) {P : Blk → Prop} :
    (∀ pre c post, BestFit n bs pre c post → P c) ↔ P b := by
  obtain ⟨pre, post, hfit⟩ := bestBlock_bestFit h
  constructor
  · exact fun hall => hall pre b post hfit
  · intro hb pre' c post' hfit'
    rwa [hfit'.unique hfit]

theorem bestBlock_some (h : bestBlock n bs = some b) : b ∈ bs ∧ b.free = true ∧ n ≤ b.len := by
  obtain ⟨pre, post, hfit⟩ := bestBlock_bestFit h
  exact ⟨hfit.mem, hfit.chosen⟩

/-! ## What `malloc` hands out -/

theorem carve_cons (n : Nat) (b : Blk) :
    ∃ c cs, carve n b = c :: cs ∧ c.addr = b.addr ∧ c.free = false ∧ (n ≤ b.len → n ≤ c.len) ∧
      c.fin ≤ b.fin := by
  unfold carve
  split_ifs with h
  · refine ⟨_, _, rfl, rfl, rfl, fun _ => le_refl n, ?_⟩
    simp only [Blk.fin]
    omega
  · exact ⟨_, _, rfl, rfl, rfl, id, le_refl _⟩

theorem map_resize_normal {ptr n : Nat} (hn : joins.Normal bs) :
    joins.Normal (bs.map (resize ptr n)) := by
  have hfree : joins.free ∘ resize ptr n = joins.free := by
    funext b
    rw [Function.comp_apply, resize]
    split_ifs <;> rfl
  rw [joins.normal_iff_map, List.map_map, hfree, ← joins.normal_iff_map]
  exact hn

theorem carve_normal (hn : joins.Normal (pre ++ b :: post)) (hfree : b.free = true) :
    joins.Normal (pre ++ (carve n b ++ post)) := by
  unfold Joins.Normal at hn ⊢
  rw [isChain_append] at hn ⊢
  obtain ⟨hpre, hpost, -⟩ := hn
  obtain ⟨c, cs, hcarve, -, hcf, -⟩ := carve_cons n b
  refine ⟨hpre, ?_, ?_⟩
  · have hhead : ∀ d ∈ post.head?, ¬ (joins.free b = true ∧ joins.free d = true) := by
      intro d hd
      cases post with
      | nil => simp at hd
      | cons e es =>
        obtain rfl : e = d := by simpa using hd
        exact hpost.rel
    have hlast : ∀ d ∈ post.head?, ¬ d.free = true := fun d hd hdf => hhead d hd ⟨hfree, hdf⟩
    rw [isChain_append]
    refine ⟨?_, hpost.of_cons, fun x _ y hy hxy => hlast y hy hxy.2⟩
    unfold carve
    split_ifs
    · exact .cons_cons (fun hh => absurd hh.1 (by simp [joins])) (.singleton _)
    · exact .singleton _
  · rw [hcarve]
    intro x _ y hy hxy
    obtain rfl : c = y := by simpa using hy
    have hyf : c.free = true := hxy.2
    rw [hcf] at hyf
    exact absurd hyf (by decide)

section Allot

variable {lo hi n : Nat} {bs : List Blk} (hf : Fits lo bs hi)

include hf

theorem Fits.allot_some (hb : bestBlock n bs = some b) (hbs : bs = pre ++ b :: post) :
    allot n bs = (b.ptr, pre ++ (carve n b ++ post)) := by
  subst hbs
  simp only [allot, hb]
  rw [hf.flatMap_at]

theorem Fits.allot_cases :
    (allot n bs = (0, bs) ∧ bestBlock n bs = none) ∨
      ∃ pre b post, bs = pre ++ b :: post ∧ b.free = true ∧ n ≤ b.len ∧
        bestBlock n bs = some b ∧ allot n bs = (b.ptr, pre ++ (carve n b ++ post)) := by
  cases hb : bestBlock n bs with
  | none => exact .inl ⟨by simp [allot, hb], rfl⟩
  | some b =>
    obtain ⟨hmem, hfree, hn⟩ := bestBlock_some hb
    obtain ⟨pre, post, hbs⟩ := append_of_mem hmem
    exact .inr ⟨pre, b, post, hbs, hfree, hn, rfl, hf.allot_some hb hbs⟩

theorem Fits.allot_zero (h : (allot n bs).1 = 0) : allot n bs = (0, bs) := by
  rcases hf.allot_cases (n := n) with ⟨he, -⟩ | ⟨pre, b, post, -, -, -, -, he⟩
  · exact he
  · rw [he] at h
    simp [Blk.ptr] at h

theorem Fits.allot_free (h : (allot n bs).1 ≠ 0) :
    ∃ b ∈ bs, b.ptr = (allot n bs).1 ∧ b.free = true ∧ n ≤ b.len := by
  rcases hf.allot_cases (n := n) with ⟨he, -⟩ | ⟨pre, b, post, rfl, hfree, hn, -, he⟩
  · rw [he] at h
    exact absurd rfl h
  · exact ⟨b, by simp, by rw [he], hfree, hn⟩

theorem Fits.mem_allot (hc : c ∈ bs) (h : c.free = false ∨ c.len < n) : c ∈ (allot n bs).2 := by
  rcases hf.allot_cases (n := n) with ⟨he, -⟩ | ⟨pre, b, post, rfl, hfree, hn, -, he⟩
  · rw [he]
    exact hc
  · rw [he]
    have hne : c ≠ b := by
      rintro rfl
      rcases h with h | h
      · rw [h] at hfree
        exact absurd hfree (by decide)
      · omega
    simp only [mem_append, mem_cons] at hc ⊢
    tauto

theorem Fits.allot_block (h : (allot n bs).1 ≠ 0) :
    ∃ c ∈ (allot n bs).2, c.ptr = (allot n bs).1 ∧ c.free = false ∧ n ≤ c.len ∧
      ∀ d ∈ bs, d.free = false ∨ d.len < n → d.fin ≤ c.addr ∨ c.fin ≤ d.addr := by
  rcases hf.allot_cases (n := n) with ⟨he, -⟩ | ⟨pre, b, post, rfl, hfree, hn, -, he⟩
  · rw [he] at h
    exact absurd rfl h
  · obtain ⟨c, cs, hcarve, hca, hcf, hcn, hcfin⟩ := carve_cons n b
    obtain ⟨hpre, hpost⟩ := hf.around
    rw [he]
    refine ⟨c, by simp [hcarve], by rw [Blk.ptr, hca, Blk.ptr], hcf, hcn hn, ?_⟩
    intro d hd hused
    rw [mem_append, mem_cons] at hd
    rcases hd with hd | rfl | hd
    · left
      rw [hca]
      exact hpre d hd
    · rw [hfree] at hused
      rcases hused with hused | hused
      · exact absurd hused (by decide)
      · omega
    · right
      exact le_trans hcfin (hpost d hd)

theorem Fits.allot_normal (hn : joins.Normal bs) : joins.Normal (allot n bs).2 := by
  rcases hf.allot_cases (n := n) with ⟨he, -⟩ | ⟨pre, b, post, rfl, hfree, -, -, he⟩
  · rw [he]
    exact hn
  · rw [he]
    exact carve_normal hn hfree

theorem Fits.reallot_normal {ptr : Nat} (hn : joins.Normal bs) :
    joins.Normal (reallot ptr n bs).2 := by
  by_cases h0 : ptr = 0
  · rw [reallot, if_pos h0]
    exact hf.allot_normal hn
  by_cases hn0 : n = 0
  · rw [reallot, if_neg h0, if_pos hn0]
    exact joins.norm_normal _
  rw [reallot, if_neg h0, if_neg hn0]
  cases bs.find? fun b => b.ptr = ptr with
  | none => exact hn
  | some b =>
    dsimp only
    split_ifs
    · exact map_resize_normal hn
    · exact hn
    · exact joins.norm_normal _

end Allot

end Terrakernel.Heap
