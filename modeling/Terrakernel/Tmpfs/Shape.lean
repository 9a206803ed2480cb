import Mathlib.Data.List.Nodup
import Mathlib.Logic.Function.Basic
import Mathlib.Logic.Relation
import Terrakernel.Lib.Links
import Terrakernel.Lib.Memory

/-!
# Directory trees

The tree without blocks, links and descriptors. What each change of it keeps, every run keeps.
-/

namespace Terrakernel.Tmpfs

open Memory Links Function List

variable {kids : Kids} {curr c n m : Nat} {l : List Nat}

structure Shape where
  root : Nat
  cwd : Nat
  live : List Nat
  kids : Kids
  name : Nat → Bytes
  isDir : Nat → Bool

/-! ## Lists of children -/

/-- The lists after `c` was made a child of `curr`. -/
def grown (kids : Kids) (curr c : Nat) : Kids :=
  update (update kids c []) curr (kids curr ++ [c])

theorem grown_of_ne (h1 : m ≠ curr) (h2 : m ≠ c) : grown kids curr c m = kids m := by
  rw [grown, update_of_ne h1, update_of_ne h2]

theorem grown_curr (kids : Kids) (curr c : Nat) :
    grown kids curr c curr = kids curr ++ [c] := by
  rw [grown, update_self]

theorem mem_grown_self (kids : Kids) (curr c : Nat) : c ∈ grown kids curr c curr := by
  rw [grown_curr]
  exact mem_append_right _ mem_cons_self

theorem grown_new (h : c ≠ curr) : grown kids curr c c = [] := by
  rw [grown, update_of_ne h, update_self]

/-- The elements before `n`, and `n`. -/
def upTo (n : Nat) : List Nat → List Nat
  | [] => []
  | x :: xs => if x = n then [x] else x :: upTo n xs

theorem upTo_isPrefix (n : Nat) (l : List Nat) : upTo n l <+: l := by
  induction l with
  | nil => exact prefix_refl _
  | cons x xs ih =>
    rw [upTo]
    split_ifs
    · exact prefix_append [x] xs
    · exact cons_prefix_cons.mpr ⟨rfl, ih⟩

theorem upTo_append_of_not_mem (r : List Nat) (h : n ∉ l) : upTo n (l ++ r) = l ++ upTo n r := by
  induction l with
  | nil => rfl
  | cons x xs ih =>
    rw [mem_cons, not_or] at h
    rw [cons_append, upTo, if_neg (Ne.symm h.1), ih h.2, cons_append]

theorem upTo_append (r : List Nat) (h : n ∉ l) : upTo n (l ++ n :: r) = l ++ [n] := by
  rw [upTo_append_of_not_mem _ h, upTo, if_pos rfl]

theorem mem_upTo_append (r : List Nat) (h : c ∈ upTo n l) : c ∈ upTo n (l ++ r) := by
  induction l with
  | nil => cases h
  | cons x xs ih =>
    rw [cons_append, upTo]
    rw [upTo] at h
    split_ifs at h ⊢ with hx
    · exact h
    · exact mem_cons.mpr ((mem_cons.mp h).imp_right ih)

/-- The lists after `n`, a child of `p`, has lost its children and the siblings behind it. -/
def cut (kids : Kids) (p n : Nat) : Kids :=
  update (update kids p (upTo n (kids p))) n []

theorem cut_isPrefix (kids : Kids) (p n m : Nat) : cut kids p n m <+: kids m := by
  unfold cut
  by_cases hmn : m = n
  · rw [hmn, update_self]
    exact nil_prefix
  · rw [update_of_ne hmn]
    by_cases hmp : m = p
    · rw [hmp, update_self]
      exact upTo_isPrefix n _
    · have hsame := update_of_ne hmp (upTo n (kids p)) kids
      exact ⟨[], by rw [hsame, append_nil]⟩

theorem cut_sublist (kids : Kids) (p n m : Nat) : (cut kids p n m).Sublist (kids m) :=
  (cut_isPrefix kids p n m).sublist

theorem cut_last {p : Nat} (hbare : kids n = []) (hlast : kids p = l ++ [n]) (hn : n ∉ l) :
    cut kids p n = kids := by
  unfold cut
  rw [hlast, upTo_append [] hn, ← hlast, update_eq_self, ← hbare, update_eq_self]

theorem erase_sublist (kids : Kids) (p n m : Nat) :
    (update kids p ((kids p).erase n) m).Sublist (kids m) := by
  by_cases hmp : m = p
  · rw [hmp, update_self]
    exact List.erase_sublist
  · rw [update_of_ne hmp]

/-! ## Changes -/

/-- What a change leaves alone: the nodes `l` keep their names and kinds. -/
structure Shape.Same (S T : Shape) (l : List Nat) : Prop where
  root : T.root = S.root
  cwd : T.cwd = S.cwd
  name : ∀ m ∈ l, T.name m = S.name m
  isDir : ∀ m ∈ l, T.isDir m = S.isDir m

/-- What is asked of a new child and of a new working directory. -/
structure Rules where
  add : Shape → Nat → Bytes → Prop
  enter : Shape → Nat → Prop

/-- The working directory is not among what the lists `kids` have lost. -/
def Shape.Spares (S : Shape) (kids : Kids) : Prop :=
  ∀ m, ∀ c ∈ S.kids m, Reached c S.kids S.cwd → c ∈ kids m

inductive Shape.Step (R : Rules) (S T : Shape) : Prop
  | add {curr c : Nat} {token : Bytes} (hcurr : curr ∈ S.live) (hc : c ∉ S.live)
      (hrule : R.add S curr token) (hlive : T.live = c :: S.live)
      (hkids : T.kids = grown S.kids curr c) (hname : T.name c = token.take 127)
      (hsame : S.Same T S.live)
  | drop {p n : Nat} (hlive : T.live = S.live)
      (hkids : T.kids = update S.kids p ((S.kids p).erase n)) (hspares : S.Spares T.kids)
      (hsame : S.Same T S.live)
  | wipe {p n : Nat} (hlive : T.live = S.live) (hkids : T.kids = cut S.kids p n)
      (hspares : S.Spares T.kids) (hname : T.name n = S.name n) (hdir : T.isDir n = true)
      (hsame : S.Same T (S.live.filter (· ≠ n)))
  | release {n : Nat} (hroot : n ≠ S.root) (hn : ∀ m ∈ S.live, n ∉ S.kids m)
      (hlive : T.live = S.live.filter (· ≠ n)) (hkids : T.kids = S.kids) (hsame : S.Same T T.live)
  | enter {n : Nat} (hn : Reached S.root S.kids n) (hrule : R.enter S n)
      (hT : T = { S with cwd := n })

abbrev Shape.Steps (R : Rules) : Shape → Shape → Prop := Relation.ReflTransGen (Shape.Step R)

/-! ## What the changes keep -/

/-- A child is a node, and the working directory is in the tree. -/
structure Shape.Rooted (S : Shape) : Prop where
  root : S.root ∈ S.live
  closed : ∀ m ∈ S.live, ∀ c ∈ S.kids m, c ∈ S.live
  cwd : Reached S.root S.kids S.cwd

/-- No node has two children with the same name. -/
def Shape.Unique (S : Shape) : Prop := ∀ m ∈ S.live, ((S.kids m).map S.name).Nodup

/-- Only directories have children. -/
def Shape.Dirs (S : Shape) : Prop := ∀ m ∈ S.live, S.kids m ≠ [] → S.isDir m = true

section Step

variable {R : Rules} {S T : Shape}

theorem Shape.Rooted.reached_mem (hr : S.Rooted) (hn : Reached S.root S.kids n) : n ∈ S.live := by
  induction hn with
  | root => exact hr.root
  | child _ hc ih => exact hr.closed _ ih _ hc

theorem mem_grown {d : Nat} (hmc : m ≠ c) (hd : d ∈ kids m) : d ∈ grown kids curr c m := by
  by_cases hmcurr : m = curr
  · subst hmcurr
    rw [grown_curr]
    exact mem_append_left _ hd
  · rw [grown_of_ne hmcurr hmc]
    exact hd

theorem Shape.Rooted.shrink (hr : S.Rooted) (hroot : T.root = S.root) (hcwd : T.cwd = S.cwd)
    (hlive : T.live = S.live) (hsub : ∀ m, (T.kids m).Sublist (S.kids m))
    (hspares : S.Spares T.kids) : T.Rooted := by
  refine ⟨?_, ?_, ?_⟩
  · rw [hroot, hlive]
    exact hr.root
  · rw [hlive]
    intro m hm c hc
    exact hr.closed m hm c ((hsub m).subset hc)
  · rw [hroot, hcwd]
    exact hr.cwd.kept hspares

theorem Shape.Step.rooted (h : S.Step R T) (hr : S.Rooted) : T.Rooted := by
  cases h with
  | @add curr c token hcurr hc _ hlive hkids _ hsame =>
    have hne : c ≠ curr := by
      rintro rfl
      exact hc hcurr
    refine ⟨?_, ?_, ?_⟩
    · rw [hsame.root, hlive]
      exact mem_cons_of_mem _ hr.root
    · rw [hlive, hkids]
      intro m hm d hd
      by_cases hmc : m = curr
      · rw [hmc, grown_curr, mem_append, mem_singleton] at hd
        rcases hd with hd | rfl
        · exact mem_cons_of_mem _ (hr.closed curr hcurr d hd)
        · exact mem_cons_self
      · by_cases hmn : m = c
        · rw [hmn, grown_new hne] at hd
          exact absurd hd not_mem_nil
        · rw [grown_of_ne hmc hmn] at hd
          exact mem_cons_of_mem _ (hr.closed m (mem_of_ne_of_mem hmn hm) d hd)
    · rw [hsame.root, hsame.cwd, hkids]
      refine hr.cwd.mono ?_
      intro m hm d hd
      refine mem_grown ?_ hd
      rintro rfl
      exact hc (hr.reached_mem hm)
  | drop hlive hkids hspares hsame =>
    refine hr.shrink hsame.root hsame.cwd hlive (fun m => ?_) hspares
    rw [hkids]
    exact erase_sublist _ _ _ m
  | wipe hlive hkids hspares _ _ hsame =>
    refine hr.shrink hsame.root hsame.cwd hlive (fun m => ?_) hspares
    rw [hkids]
    exact cut_sublist _ _ _ m
  | @release n hroot hn hlive hkids hsame =>
    have hmem : ∀ m ∈ S.live, m ≠ n → m ∈ T.live := by
      intro m hm hmn
      rw [hlive]
      exact mem_filter.mpr ⟨hm, by simpa using hmn⟩
    have hold : ∀ m ∈ T.live, m ∈ S.live := by
      rw [hlive]
      exact fun m hm => (mem_filter.mp hm).1
    refine ⟨?_, ?_, ?_⟩
    · rw [hsame.root]
      exact hmem _ hr.root hroot.symm
    · rw [hkids]
      intro m hm c hc
      refine hmem c (hr.closed m (hold m hm) c hc) ?_
      rintro rfl
      exact hn m (hold m hm) hc
    · rw [hsame.root, hsame.cwd, hkids]
      exact hr.cwd
  | enter hn _ hT =>
    subst hT
    exact ⟨hr.root, hr.closed, hn⟩

theorem Shape.Unique.shrink (hunique : S.Unique) (hlive : ∀ m ∈ T.live, m ∈ S.live)
    (hsub : ∀ m, (T.kids m).Sublist (S.kids m))
    (hname : ∀ m ∈ T.live, ∀ c ∈ T.kids m, T.name c = S.name c) : T.Unique := by
  intro m hm
  rw [map_congr_left (hname m hm)]
  exact (hunique m (hlive m hm)).sublist ((hsub m).map S.name)

theorem Shape.Step.unique (hR : ∀ S curr token, R.add S curr token →
      ∀ c ∈ S.kids curr, S.name c ≠ token.take 127)
    (h : S.Step R T) (hr : S.Rooted) (hunique : S.Unique) : T.Unique := by
  have hr' := h.rooted hr
  cases h with
  | @add curr c token hcurr hc hrule hlive hkids hname hsame =>
    have hne : c ≠ curr := by
      rintro rfl
      exact hc hcurr
    have hmap : ∀ m ∈ S.live, (S.kids m).map T.name = (S.kids m).map S.name := fun m hm =>
      map_congr_left fun d hd => hsame.name d (hr.closed m hm d hd)
    unfold Shape.Unique
    rw [hlive, hkids]
    intro m hm
    by_cases hmc : m = curr
    · rw [hmc, grown_curr, map_append, hmap curr hcurr, map_singleton, hname]
      refine Nodup.append (hunique curr hcurr) (nodup_singleton _) ?_
      intro x hx hx'
      obtain ⟨d, hd, rfl⟩ := List.mem_map.mp hx
      exact hR S curr token hrule d hd (mem_singleton.mp hx')
    · by_cases hmn : m = c
      · rw [hmn, grown_new hne]
        exact .nil
      · have hm' := mem_of_ne_of_mem hmn hm
        rw [grown_of_ne hmc hmn, hmap m hm']
        exact hunique m hm'
  | drop hlive hkids _ hsame =>
    refine hunique.shrink (fun m hm => hlive ▸ hm) ?_ fun m hm c hc => ?_
    · rw [hkids]
      exact erase_sublist _ _ _
    · exact hsame.name c (hlive ▸ hr'.closed m hm c hc)
  | @wipe p n hlive hkids _ hname _ hsame =>
    refine hunique.shrink (fun m hm => hlive ▸ hm) ?_ fun m hm c hc => ?_
    · rw [hkids]
      exact cut_sublist _ _ _
    · by_cases hcn : c = n
      · rw [hcn, hname]
      · exact hsame.name c
          (mem_filter.mpr ⟨hlive ▸ hr'.closed m hm c hc, by simpa using hcn⟩)
  | release _ _ hlive hkids hsame =>
    refine hunique.shrink ?_ (fun m => by rw [hkids]) fun m hm c hc => ?_
    · rw [hlive]
      exact fun m hm => (mem_filter.mp hm).1
    · exact hsame.name c (hr'.closed m hm c hc)
  | enter _ _ hT =>
    subst hT
    exact hunique

theorem Shape.Step.isDir (h : S.Step R T) (hS : n ∈ S.live) (hT : n ∈ T.live)
    (hdir : S.isDir n = true) : T.isDir n = true := by
  cases h with
  | add _ _ _ _ _ _ hsame => rw [hsame.isDir n hS, hdir]
  | drop _ _ _ hsame => rw [hsame.isDir n hS, hdir]
  | @wipe p m _ _ _ _ hd hsame =>
    by_cases hn : n = m
    · rw [hn, hd]
    · rw [hsame.isDir n (mem_filter.mpr ⟨hS, by simpa using hn⟩), hdir]
  | release _ _ _ _ hsame => rw [hsame.isDir n hT, hdir]
  | enter _ _ hT =>
    subst hT
    exact hdir

theorem Shape.Step.dirs (hR : ∀ S curr token, R.add S curr token → S.isDir curr = true)
    (h : S.Step R T) (hdirs : S.Dirs) : T.Dirs := by
  -- What had no children before has none now, but for the parent of a new node.
  have hkeep : ∀ {m}, (T.kids m).Sublist (S.kids m) → m ∈ S.live → m ∈ T.live → T.kids m ≠ [] →
      T.isDir m = true := by
    intro m hs hS hT hne
    refine h.isDir hS hT (hdirs m hS ?_)
    intro h0
    rw [h0, sublist_nil] at hs
    exact hne hs
  cases h with
  | @add curr c token hcurr hc hrule hlive hkids hname hsame =>
    have hne : c ≠ curr := by
      rintro rfl
      exact hc hcurr
    intro m hm hk
    by_cases hmc : m = curr
    · rw [hmc, hsame.isDir curr hcurr]
      exact hR S curr token hrule
    · by_cases hmn : m = c
      · rw [hkids, hmn, grown_new hne] at hk
        exact absurd rfl hk
      · refine hkeep ?_ (mem_of_ne_of_mem hmn (hlive ▸ hm)) hm hk
        rw [hkids, grown_of_ne hmc hmn]
  | drop hlive hkids _ hsame =>
    intro m hm hk
    refine hkeep ?_ (hlive ▸ hm) hm hk
    rw [hkids]
    exact erase_sublist _ _ _ m
  | wipe hlive hkids _ _ _ hsame =>
    intro m hm hk
    refine hkeep ?_ (hlive ▸ hm) hm hk
    rw [hkids]
    exact cut_sublist _ _ _ m
  | release _ _ hlive hkids hsame =>
    intro m hm hk
    refine hkeep ?_ (mem_filter.mp (hlive ▸ hm)).1 hm hk
    rw [hkids]
  | enter _ _ hT =>
    subst hT
    exact hdirs

theorem Shape.Step.cwd (hR : ∀ S n, R.enter S n → S.isDir n = true) (h : S.Step R T)
    (hr : S.Rooted) (hcwd : S.isDir S.cwd = true) : T.isDir T.cwd = true := by
  have hT := (h.rooted hr).reached_mem (h.rooted hr).cwd
  have hS := hr.reached_mem hr.cwd
  have hkeep : T.cwd = S.cwd → T.isDir T.cwd = true := by
    intro heq
    rw [heq] at hT ⊢
    exact h.isDir hS hT hcwd
  cases h with
  | add _ _ _ _ _ _ hsame => exact hkeep hsame.cwd
  | drop _ _ _ hsame => exact hkeep hsame.cwd
  | wipe _ _ _ _ _ hsame => exact hkeep hsame.cwd
  | release _ _ _ _ hsame => exact hkeep hsame.cwd
  | @enter n _ hrule hT =>
    subst hT
    exact hR S n hrule

/-! ## Runs -/

theorem Shape.Steps.rooted (h : Shape.Steps R S T) (hr : S.Rooted) : T.Rooted := by
  induction h with
  | refl => exact hr
  | tail _ hstep ih => exact hstep.rooted ih

theorem Shape.Steps.unique (hR : ∀ S curr token, R.add S curr token →
      ∀ c ∈ S.kids curr, S.name c ≠ token.take 127)
    (h : Shape.Steps R S T) (hr : S.Rooted) (hunique : S.Unique) : T.Unique := by
  induction h with
  | refl => exact hunique
  | tail hsteps hstep ih => exact hstep.unique hR (Shape.Steps.rooted hsteps hr) ih

theorem Shape.Steps.dirs (hR : ∀ S curr token, R.add S curr token → S.isDir curr = true)
    (h : Shape.Steps R S T) (hdirs : S.Dirs) : T.Dirs := by
  induction h with
  | refl => exact hdirs
  | tail _ hstep ih => exact hstep.dirs hR ih

theorem Shape.Steps.cwd (hR : ∀ S n, R.enter S n → S.isDir n = true) (h : Shape.Steps R S T)
    (hr : S.Rooted) (hcwd : S.isDir S.cwd = true) : T.isDir T.cwd = true := by
  induction h with
  | refl => exact hcwd
  | tail hsteps hstep ih => exact hstep.cwd hR (Shape.Steps.rooted hsteps hr) ih

end Step

end Terrakernel.Tmpfs
