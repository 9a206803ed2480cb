import Terrakernel.Tmpfs.Rename

/-!
# Where a renamed file is found

`rename` gives the node another name and leaves it in its directory.
-/

namespace Terrakernel.Tmpfs

open Memory Vmm Links Heap List Option

/-- The bytes of `n` are in the same block, and are the same. -/
structure SameContent (fs fs' : Fs) (n : Nat) : Prop where
  content : (fs'.nodes n).content = (fs.nodes n).content
  size : (fs'.nodes n).size = (fs.nodes n).size
  bytes : ∀ k, HasBlock fs.heap (fs.nodes n).content k → HasBlock fs'.heap (fs.nodes n).content k ∧
    ∀ x < k, fs'.heap.mem ((fs.nodes n).content + x) = fs.heap.mem ((fs.nodes n).content + x)

/-- The node `n` has come from `oldpath` to `newpath`, where `m` was before. -/
structure MovedTo (fs : Fs) (oldpath newpath : Path) (n m : Nat) (fs' : Fs) : Prop where
  found : resolvePath fs' newpath = some n
  content : SameContent fs fs' n
  left : resolvePath fs' oldpath = some 0
  others : ∀ q x, n ∉ visited fs q → m ∉ visited fs q → resolvePath fs q = some x → x ≠ 0 →
    resolvePath fs' q = some x
  gone : m ≠ 0 → ¬ InTree fs' m

/-- The loop of `resolve_path` in a tree where `d` has `n` as its child `t`, and `n` is found under
no other name. -/
def resolveAs (nodes : Nat → Node) (n d : Nat) (t : Bytes) : Nat → Names → Option Nat
  | curr, [] => some curr
  | curr, token :: rest =>
    if token = dot then resolveAs nodes n d t curr rest
    else if token = dotdot then resolveAs nodes n d t (up nodes curr) rest
    else if curr = d ∧ token = t then resolveAs nodes n d t n rest
    else do
      let child ← findChild nodes token (nodes curr).firstChild
      if child = 0 ∨ child = n then some 0 else resolveAs nodes n d t child rest

/-! ## One directory -/

/-- The file `m`, if there is one, is gone from its directory, and `n` has the name `t`. -/
structure Replaced (fs : Fs) (live : List Nat) (kids : Kids) (n m : Nat) (t : Bytes)
    (fs' : Fs) (kids' : Kids) : Prop where
  root : fs'.root = fs.root
  cwd : fs'.cwd = fs.cwd
  data : ∀ x, (fs'.nodes x).data = { (fs.nodes x).data with
    name := if x = n then t else (fs.nodes x).name, refcount := (fs'.nodes x).refcount }
  lists : ∀ x ∈ live, kids' x = (kids x).erase m
  linked : Linked fs'.nodes fs.root live kids'

/-- Two nodes as far below `p` as each other. -/
inductive AsDeep (kids : Kids) (p : Nat) : Nat → Nat → Prop
  | top {a b : Nat} (ha : a ∈ kids p) (hb : b ∈ kids p) : AsDeep kids p a b
  | down {a b c d : Nat} (h : AsDeep kids p a b) (hc : c ∈ kids a) (hd : d ∈ kids b) :
      AsDeep kids p c d

theorem AsDeep.reached {kids : Kids} {p a b : Nat} (h : AsDeep kids p a b) :
    (∃ c ∈ kids p, Reached c kids a) ∧ ∃ c ∈ kids p, Reached c kids b := by
  induction h with
  | top ha hb => exact ⟨⟨_, ha, .root⟩, _, hb, .root⟩
  | down _ hc hd ih =>
    obtain ⟨⟨x, hx, ha⟩, y, hy, hb⟩ := ih
    exact ⟨⟨x, hx, .child ha hc⟩, y, hy, .child hb hd⟩

/-- What `d` has under the name `t` is found nowhere else. -/
theorem Linked.named_only {nodes : Nat → Node} {root d m x : Nat} {live : List Nat} {kids : Kids}
    {t u : Bytes} (h : Linked nodes root live kids) (hd : d ∈ live)
    (hm : m = (named nodes kids d t).getD 0) (hx : x ∈ live) (hfind : named nodes kids x u = some m) :
    x = d ∧ u = t := by
  cases hd' : named nodes kids d t with
  | none => exact absurd (by rw [hm, hd']; rfl) (h.named_ne_zero hx hfind)
  | some c =>
    obtain rfl : m = c := by rw [hm, hd']; rfl
    obtain ⟨hxm, rfl⟩ := named_some hfind
    obtain ⟨hdm, hname⟩ := named_some hd'
    exact ⟨(h.child x hx m hxm).2.symm.trans (h.child d hd m hdm).2, hname⟩

section Replaced

variable {fs fs' : Fs} {live : List Nat} {kids kids' : Kids} {n m : Nat} {t : Bytes}
  (hr : Replaced fs live kids n m t fs' kids') (h : Linked fs.nodes fs.root live kids)
  (hunique : ∀ x, Reached fs.root kids x → ((kids x).map fun c => (fs.nodes c).name).Nodup)
  (hclear : ∀ c ∈ kids (fs.nodes n).parent, c ≠ m → (fs.nodes c).name ≠ t)

include hr

theorem Replaced.name_self : (fs'.nodes n).name = t :=
  (congrArg Node.name (hr.data n) :).trans (if_pos rfl)

theorem Replaced.name_eq {x : Nat} (hxn : x ≠ n) : (fs'.nodes x).name = (fs.nodes x).name :=
  (congrArg Node.name (hr.data x) :).trans (if_neg hxn)

theorem Replaced.up_eq (x : Nat) : up fs'.nodes x = up fs.nodes x :=
  up_congr (congrArg Node.parent (hr.data x) :)

theorem Replaced.resolvePath_start (hcwd0 : fs.cwd ≠ 0) (p : Bytes) : resolvePath fs' (some p) =
    resolveLoop fs'.nodes (startOf fs fs.cwd p) (tokens p) := by
  rw [resolvePath_some (hr.cwd ▸ hcwd0), hr.cwd, startOf_congr hr.root fs.cwd p]

include h

theorem Replaced.mem_iff {x c : Nat} (hx : x ∈ live) : c ∈ kids' x ↔ c ≠ m ∧ c ∈ kids x := by
  rw [hr.lists x hx]
  exact (h.chain x hx).nodup.mem_erase_iff

theorem Replaced.not_inTree (hm : m ≠ fs.root) : ¬ InTree fs' m := by
  have hl : Linked fs'.nodes fs'.root live kids' := hr.root.symm ▸ hr.linked
  rw [hl.inTree_iff, hr.root]
  intro hreached
  cases hreached with
  | root => exact hm rfl
  | child hx hc => exact ((hr.mem_iff h (hr.linked.reached_mem hx)).mp hc).1 rfl

/-- What the call removes can still be walked through from below. -/
theorem Replaced.resolveLoop_stays {curr : Nat} (hcurr : Reached fs.root kids curr)
    (ts : Names) :
    ∃ x, resolveLoop fs'.nodes curr ts = some x ∧ (x = 0 ∨ Reached fs.root kids x) := by
  induction ts generalizing curr with
  | nil => exact ⟨curr, rfl, .inr hcurr⟩
  | cons u ts ih =>
    by_cases h1 : u = dot
    · rw [resolveLoop_cons, if_pos h1]
      exact ih hcurr
    by_cases h2 : u = dotdot
    · rw [resolveLoop_cons, if_neg h1, if_pos h2, hr.up_eq]
      exact ih (up_reached h hcurr)
    rw [hr.linked.resolveLoop_step (h.reached_mem hcurr) h1 h2]
    cases hfind : named fs'.nodes kids' curr u with
    | none => exact ⟨0, rfl, .inl rfl⟩
    | some c => exact ih (.child hcurr ((hr.mem_iff h (h.reached_mem hcurr)).mp (named_some hfind).1).2)

include hunique

/-- The walks before and after the call part only in the directory of `n`. -/
theorem Replaced.resolveLoop_asDeep {y y' x x' : Nat} {ts : Names}
    (hp : Reached fs.root kids (fs.nodes n).parent)
    (hy : Reached fs.root kids y ∧ y = y' ∨ AsDeep kids (fs.nodes n).parent y y')
    (hx : resolveLoop fs.nodes y ts = some x) (hx0 : x ≠ 0)
    (hx' : resolveLoop fs'.nodes y' ts = some x') (hx0' : x' ≠ 0) :
    x = x' ∨ AsDeep kids (fs.nodes n).parent x x' := by
  have hlives : ∀ {a b}, AsDeep kids (fs.nodes n).parent a b → a ∈ live ∧ b ∈ live := by
    intro a b hab
    obtain ⟨⟨c, hc, hca⟩, d, hd, hdb⟩ := hab.reached
    exact ⟨h.reached_mem ((Reached.child hp hc).trans hca),
      h.reached_mem ((Reached.child hp hd).trans hdb)⟩
  have hup : ∀ {a c}, a ∈ live → c ∈ kids a → up fs.nodes c = a := by
    intro a c ha hc
    unfold up
    rw [(h.child a ha c hc).2, if_pos (h.ne_zero ha)]
  induction ts generalizing y y' with
  | nil =>
    obtain rfl := some.inj hx
    obtain rfl := some.inj hx'
    exact hy.imp_left And.right
  | cons u ts ih =>
    by_cases h1 : u = dot
    · rw [resolveLoop_cons, if_pos h1] at hx hx'
      exact ih hy hx hx'
    by_cases h2 : u = dotdot
    · rw [resolveLoop_cons, if_neg h1, if_pos h2] at hx hx'
      rw [hr.up_eq] at hx'
      rcases hy with ⟨hy, rfl⟩ | ⟨ha, hb⟩ | ⟨hab, hc, hd⟩
      · exact ih (Or.inl ⟨up_reached h hy, rfl⟩) hx hx'
      · rw [hup (h.reached_mem hp) ha] at hx
        rw [hup (h.reached_mem hp) hb] at hx'
        exact ih (Or.inl ⟨hp, rfl⟩) hx hx'
      · rw [hup (hlives hab).1 hc] at hx
        rw [hup (hlives hab).2 hd] at hx'
        exact ih (Or.inr hab) hx hx'
    have hlive : y ∈ live ∧ y' ∈ live := by
      rcases hy with ⟨hy, rfl⟩ | hy
      · exact ⟨h.reached_mem hy, h.reached_mem hy⟩
      · exact hlives hy
    rw [h.resolveLoop_step hlive.1 h1 h2] at hx
    rw [hr.linked.resolveLoop_step hlive.2 h1 h2] at hx'
    cases hfind : named fs.nodes kids y u with
    | none => exact absurd (by simpa [hfind] using hx.symm) hx0
    | some c =>
      cases hfind' : named fs'.nodes kids' y' u with
      | none => exact absurd (by simpa [hfind'] using hx'.symm) hx0'
      | some c' =>
        rw [hfind] at hx
        rw [hfind'] at hx'
        obtain ⟨hc, hname⟩ := named_some hfind
        obtain ⟨hmem, hname'⟩ := named_some hfind'
        have hc' := ((hr.mem_iff h hlive.2).mp hmem).2
        rcases hy with ⟨hy, rfl⟩ | hy
        · by_cases hyp : y = (fs.nodes n).parent
          · exact ih (Or.inr (.top (hyp ▸ hc) (hyp ▸ hc'))) hx hx'
          · have hcn : c' ≠ n := by
              rintro rfl
              exact hyp (h.child y hlive.1 c' hc').2.symm
            rw [hr.name_eq hcn] at hname'
            obtain rfl : c = c' :=
              inj_on_of_nodup_map (hunique y hy) hc hc' (hname.trans hname'.symm)
            exact ih (Or.inl ⟨.child hy hc, rfl⟩) hx hx'
        · exact ih (Or.inr (.down hy hc hc')) hx hx'

/-- Where the new name leads to `n`, the walk to it ends in the directory of `n`. -/
theorem Replaced.parent_of_found {curr d : Nat} {ts : Names} {t' : Bytes}
    (hcurr : Reached fs.root kids curr) (hplain : t' ≠ dot ∧ t' ≠ dotdot)
    (hd : resolveLoop fs.nodes curr ts = some d) (hd0 : d ≠ 0) (hn0 : n ≠ 0)
    (hfound : resolveLoop fs'.nodes curr (ts ++ [t']) = some n) :
    m ≠ n ∧ (fs.nodes n).parent = d ∧ t = t' ∧ resolveLoop fs'.nodes curr ts = some d := by
  obtain ⟨x, hx, hxr⟩ := hr.resolveLoop_stays h hcurr ts
  have hx0 : x ≠ 0 := by
    rintro rfl
    rw [resolveLoop_append_missing [t'] (h.ne_zero (h.reached_mem hcurr)) hx] at hfound
    exact hn0 (some.inj hfound).symm
  replace hxr := hxr.resolve_left hx0
  have hlive := h.reached_mem hxr
  rw [hr.linked.resolveLoop_snoc hx hlive hplain.1 hplain.2, some.injEq] at hfound
  have hnamed : named fs'.nodes kids' x t' = some n := by
    cases hfind : named fs'.nodes kids' x t' with
    | none => exact absurd (by simpa [hfind] using hfound.symm) hn0
    | some c => exact congrArg some (by simpa [hfind] using hfound)
  obtain ⟨hmem, hname⟩ := named_some hnamed
  obtain ⟨hnm, hmem⟩ := (hr.mem_iff h hlive).mp hmem
  have hparent : (fs.nodes n).parent = x := (h.child x hlive n hmem).2
  have hxd : d = x := by
    rcases hr.resolveLoop_asDeep h hunique (hparent.symm ▸ hxr) (.inl ⟨hcurr, rfl⟩) hd hd0 hx hx0
      with heq | hdeep
    · exact heq
    · obtain ⟨-, c, hc, hcx⟩ := hdeep.reached
      exact absurd hcx (h.not_below hxr (hparent ▸ hc))
  exact ⟨hnm.symm, hparent.trans hxd.symm, hr.name_self.symm.trans hname, hxd ▸ hx⟩

include hclear

theorem Replaced.named_self {x c : Nat} (hx : Reached fs.root kids x) (hc : c ∈ kids x)
    (hcm : c ≠ m) : named fs'.nodes kids' x (fs'.nodes c).name = some c := by
  have hxlive := h.reached_mem hx
  have hparent : n ∈ kids x → (fs.nodes n).parent = x := fun hn => (h.child x hxlive n hn).2
  refine named_of_mem ?_ ((hr.mem_iff h hxlive).mpr ⟨hcm, hc⟩)
  refine Nodup.map_on ?_ (hr.linked.chain x hxlive).nodup
  intro a ha b hb heq
  obtain ⟨ham, ha⟩ := (hr.mem_iff h hxlive).mp ha
  obtain ⟨hbm, hb⟩ := (hr.mem_iff h hxlive).mp hb
  by_cases han : a = n <;> by_cases hbn : b = n
  · rw [han, hbn]
  · rw [han, hr.name_self, hr.name_eq hbn] at heq
    exact absurd heq.symm (hclear b (hparent (han ▸ ha) ▸ hb) hbm)
  · rw [hbn, hr.name_self, hr.name_eq han] at heq
    exact absurd heq (hclear a (hparent (hbn ▸ hb) ▸ ha) ham)
  · rw [hr.name_eq han, hr.name_eq hbn] at heq
    exact inj_on_of_nodup_map (hunique x hx) ha hb heq

theorem Replaced.resolveLoop_eq {curr x : Nat} (hcurr : Reached fs.root kids curr)
    {ts : Names} (hwalk : ∀ y ∈ walk fs.nodes curr ts, y ≠ n ∧ y ≠ m)
    (hx : resolveLoop fs.nodes curr ts = some x) (hx0 : x ≠ 0) :
    resolveLoop fs'.nodes curr ts = some x := by
  refine h.resolveLoop_along (P := fun y => Reached fs.root kids y ∧ y ≠ n ∧ y ≠ m) hr.linked
    (fun y hy => ⟨h.reached_mem hy.1, h.reached_mem hy.1⟩) (fun y _ => hr.up_eq y) ?_
    (fun h0 => absurd h0 hx0) (fun y hy => ⟨h.walk_reached hcurr ts y hy, hwalk y hy⟩) hx
  rintro y u c ⟨hy, -⟩ ⟨-, hcn, hcm⟩ hfind
  obtain ⟨hc, rfl⟩ := named_some hfind
  rw [← hr.name_eq hcn]
  exact hr.named_self h hunique hclear hy hc hcm

variable (hcwd : Reached fs.root kids fs.cwd)

include hcwd in
theorem Replaced.resolvePath_eq {q : Path} {x : Nat} (hn : n ∉ visited fs q) (hm : m ∉ visited fs q)
    (hx : resolvePath fs q = some x) (hx0 : x ≠ 0) : resolvePath fs' q = some x := by
  cases q with
  | none => exact hx
  | some s =>
    have hcwd0 := h.ne_zero (h.reached_mem hcwd)
    simp only [visited, if_neg hcwd0] at hn hm
    rw [resolvePath_some hcwd0] at hx
    rw [hr.resolvePath_start hcwd0]
    refine hr.resolveLoop_eq h hunique hclear (startOf_reached hcwd s) (fun y hy => ?_) hx hx0
    exact ⟨fun heq => hn (heq ▸ hy), fun heq => hm (heq ▸ hy)⟩

variable (hp : Reached fs.root kids (fs.nodes n).parent) (hn : n ∈ kids (fs.nodes n).parent)
  (hmn : m ≠ n)
  (hat : ∀ x ∈ live, ∀ u, named fs.nodes kids x u = some m → x = (fs.nodes n).parent ∧ u = t)

include hp hn hmn hat

theorem Replaced.named_eq {x : Nat} (hx : Reached fs.root kids x) (u : Bytes) :
    named fs'.nodes kids' x u = if x = (fs.nodes n).parent ∧ u = t then some n
      else (named fs.nodes kids x u).filter (· ≠ n) := by
  have hxlive := h.reached_mem hx
  have hparent : n ∈ kids x → x = (fs.nodes n).parent := fun hn => (h.child x hxlive n hn).2.symm
  split_ifs with hxu
  · have := hr.named_self h hunique hclear hp hn hmn.symm
    rwa [hr.name_self, ← hxu.1, ← hxu.2] at this
  -- A child that still has the name is not the renamed one.
  have hsame : ∀ c ∈ kids' x, (fs'.nodes c).name = u → c ≠ n ∧ c ∈ kids x ∧ (fs.nodes c).name = u := by
    intro c hc hname
    have hmem := ((hr.mem_iff h hxlive).mp hc).2
    have hcn : c ≠ n := by
      rintro rfl
      exact hxu ⟨hparent hmem, by rw [← hname, hr.name_self]⟩
    exact ⟨hcn, hmem, (hr.name_eq hcn).symm.trans hname⟩
  cases hfind : named fs.nodes kids x u with
  | none =>
    rw [filter_none, named_none]
    exact fun c hc hname => named_none.mp hfind c (hsame c hc hname).2.1 (hsame c hc hname).2.2
  | some c =>
    obtain ⟨hc, hname⟩ := named_some hfind
    have hcm : c ≠ m := by
      rintro rfl
      exact hxu (hat x hxlive u hfind)
    by_cases hcn : c = n
    · rw [filter_some, if_neg (by simp [hcn]), named_none]
      intro e he hename
      obtain ⟨hen, hemem, heold⟩ := hsame e he hename
      exact hen ((inj_on_of_nodup_map (hunique x hx) hemem hc (heold.trans hname.symm)).trans hcn)
    · rw [filter_some, if_pos (by simp [hcn]), ← hname, ← hr.name_eq hcn]
      exact hr.named_self h hunique hclear hx hc hcm

theorem Replaced.resolveLoop_as {curr : Nat} (hcurr : Reached fs.root kids curr)
    (ts : Names) :
    resolveLoop fs'.nodes curr ts = resolveAs fs.nodes n (fs.nodes n).parent t curr ts := by
  induction ts generalizing curr with
  | nil => rfl
  | cons u ts ih =>
    rw [resolveAs]
    by_cases h1 : u = dot
    · rw [resolveLoop_cons, if_pos h1, if_pos h1]
      exact ih hcurr
    by_cases h2 : u = dotdot
    · rw [resolveLoop_cons, if_neg h1, if_neg h1, if_pos h2, if_pos h2, hr.up_eq]
      exact ih (up_reached h hcurr)
    have hlive := h.reached_mem hcurr
    rw [hr.linked.resolveLoop_step hlive h1 h2, if_neg h1, if_neg h2,
      hr.named_eq h hunique hclear hp hn hmn hat hcurr]
    split_ifs with hxu
    · exact ih (.child hp hn)
    rw [findChild_spec h hlive]
    change _ = ((some ((named fs.nodes kids curr u).getD 0)).bind _)
    cases hfind : named fs.nodes kids curr u with
    | none => rfl
    | some c =>
      have hc := (named_some hfind).1
      have hc0 := h.named_ne_zero hlive hfind
      by_cases hcn : c = n
      · simp [filter_some, hcn]
      · simp only [filter_some, hcn, hc0, decide_not, getD_some, bind_some]
        exact ih (.child hcurr hc)

end Replaced

/-! ## The call -/

theorem unlink_clears {fs fs1 : Fs} {live : List Nat} {kids : Kids}
    (h : Linked fs.nodes fs.root live kids) (hcwd : Reached fs.root kids fs.cwd) {path : Path}
    {m : Nat} (hm : resolvePath fs path = some m) (hfile : m = 0 ∨ (fs.nodes m).isDir = false)
    (hroot : m ≠ fs.root) {r : Int} (hrun : unlink fs path = some (r, fs1)) :
    ∃ kids1, fs1.root = fs.root ∧ fs1.cwd = fs.cwd ∧
      (∀ x, (fs1.nodes x).data = { (fs.nodes x).data with refcount := (fs1.nodes x).refcount }) ∧
      (∀ x ∈ live, kids1 x = (kids x).erase m) ∧ Linked fs1.nodes fs.root live kids1 := by
  obtain ⟨k, hk, hcases⟩ := taken_of_run h hcwd hrun
  obtain rfl : k = m := some.inj (hk.symm.trans hm)
  rcases hcases with ⟨hbad, -, rfl⟩ | ⟨-, -, -, -, ht⟩
  · obtain rfl : k = 0 := by
      rcases hbad with h0 | hr | hdir
      · exact h0
      · exact absurd hr hroot
      · exact hfile.resolve_right (by simp [hdir])
    refine ⟨kids, rfl, rfl, fun _ => rfl, fun x hx => ?_, h⟩
    rw [erase_of_not_mem]
    exact fun h0 => h.nonnull (h.child x hx 0 h0).1
  · refine ⟨_, ht.root, ht.cwd, fun x => ?_, fun x hx => ?_, ht.linked⟩
    · by_cases hxk : x = k
      · subst hxk
        rw [show (fs1.nodes x).refcount = _ from (congrArg Node.refcount ht.self :), ht.self]
      · have hx := ht.others x hxk
        rw [show (fs1.nodes x).refcount = _ from (congrArg Node.refcount hx :), hx]
    · by_cases hxp : x = (fs.nodes k).parent
      · rw [hxp, Function.update_self]
      · rw [Function.update_of_ne hxp, erase_of_not_mem]
        exact h.not_mem_other (h.reached_mem ht.parent) hx ht.child hxp

section Rename

variable {foreign : List Nat} {fs fs' : Fs} {bs : List Blk} {live : List Nat}
  {kids : Kids} {old new : Bytes} {n m : Nat} (h : Held foreign fs bs live kids)
  (hold : resolvePath fs (some old) = some n) (hn0 : n ≠ 0)
  (hnew : resolvePath fs (some new) = some m)
  (hrun : rename fs (some old) (some new) = some (0, fs'))

include hold hn0 hrun

theorem rename_steps : ∃ r fs1 heap, unlink fs (some new) = some (r, fs1) ∧
    fs1.heap.free n = some heap ∧ fs' = Fs.setNode { fs1 with heap } n fun n =>
      { n with name := (baseName new).take 127 } := by
  unfold rename at hrun
  simp only [hold, if_neg hn0, bind_eq_bind, bind_some] at hrun
  obtain ⟨⟨r, fs1⟩, hunlink, hrun⟩ := bind_eq_some_iff.mp hrun
  obtain ⟨heap, hfree, hrun⟩ := bind_eq_some_iff.mp hrun
  cases hrun
  exact ⟨r, fs1, heap, hunlink, hfree, rfl⟩

include h hnew

theorem rename_replaced (hfile : m = 0 ∨ (fs.nodes m).isDir = false) (hroot : m ≠ fs.root) :
    ∃ kids', Replaced fs live kids n m ((baseName new).take 127) fs' kids' := by
  obtain ⟨r, fs1, heap, hunlink, -, rfl⟩ := rename_steps hold hn0 hrun
  obtain ⟨kids1, hroot1, hcwd1, hdata, hlists, hlinked⟩ :=
    unlink_clears h.linked h.cwd hnew hfile hroot hunlink
  refine ⟨kids1, hroot1, hcwd1, fun x => ?_, hlists, hlinked.setName n _⟩
  rw [setNode_nodes]
  split_ifs with hx
  · subst hx
    exact (congrArg (fun d : Node => { d with name := (baseName new).take 127 }) (hdata x) :)
  · exact hdata x

theorem rename_content (hmn : m ≠ n) (hnlive : n ∈ live) {kids' : Kids} {t : Bytes}
    (hr : Replaced fs live kids n m t fs' kids') : SameContent fs fs' n := by
  refine ⟨(congrArg Node.content (hr.data n) :), (congrArg Node.size (hr.data n) :),
    fun k hblock => ?_⟩
  obtain ⟨r, fs1, heap, hunlink, hfree, rfl⟩ := rename_steps hold hn0 hrun
  obtain ⟨bs1, live1, kids1, gone, hs1, -, -, -, hk1, hgone⟩ := unlink_keeps h hunlink
  obtain ⟨heap', hfree', hk2, -⟩ := free_keeps hs1.owns.sound n
  obtain rfl : heap' = heap := some.inj (hfree'.symm.trans hfree)
  refine Keeps.hasBlock h.sane.owns.sound (hk1.trans hk2) ?_ hblock
  have howns := h.sane.owns
  have hc0 : (fs.nodes n).content ≠ 0 := by
    obtain ⟨b, hb, hu, hptr, -⟩ := (howns.sound.rep.hasBlock_iff _ _).mp hblock
    exact hptr ▸ used_pos (mem_used.mpr ⟨b, hb, hu, rfl⟩)
  rw [mem_append, mem_singleton, not_or]
  refine ⟨fun hmem => ?_, fun heq => howns.content_not_live hnlive hnlive heq.symm⟩
  obtain ⟨k, hk, hres, heq | heq⟩ := hgone _ hmem
  · have hkn : n ≠ k := by
      rintro rfl
      exact hmn (some.inj (hnew.symm.trans hres))
    exact howns.content_ne hnlive hk hkn hc0 heq
  · exact howns.content_not_live hk hnlive heq.symm

/-- For a path that ends with a name in the directory `d`: the file is found there, and at its old
path no more, exactly if it is in that directory already, the name is the one that is stored, and
the paths lead there and to the file with the file under its new name only. -/
theorem rename_moves_iff {d : Nat} {ts : Names} {t : Bytes}
    (htokens : tokens new = ts ++ [t]) (hplain : t ≠ dot ∧ t ≠ dotdot)
    (hd : resolveLoop fs.nodes (startOf fs fs.cwd new) ts = some d) (hd0 : d ≠ 0)
    (hfile : m = 0 ∨ (fs.nodes m).isDir = false)
    (hunique : ∀ x, Reached fs.root kids x → ((kids x).map fun c => (fs.nodes c).name).Nodup) :
    MovedTo fs (some old) (some new) n m fs' ↔
      m ≠ n ∧ (fs.nodes n).parent = d ∧ (baseName new).take 127 = t ∧
        resolveAs fs.nodes n d t (startOf fs fs.cwd new) ts = some d ∧
        resolveAs fs.nodes n d t (startOf fs fs.cwd old) (tokens old) = some 0 := by
  have hl := h.linked
  have hstart : ∀ p, Reached fs.root kids (startOf fs fs.cwd p) := startOf_reached h.cwd
  have hcwd0 := hl.ne_zero (hl.reached_mem h.cwd)
  have hn : Reached fs.root kids n := by
    obtain ⟨x, hx, hreached⟩ := resolvePathInternal_cases h.sane h.cwd (some old)
    obtain rfl : x = n := some.inj (hx.symm.trans hold)
    exact hreached.resolve_left hn0
  have hdr : Reached fs.root kids d := by
    obtain ⟨x, hx, hreached⟩ := resolveLoop_spec hl (hstart new) ts
    obtain rfl : x = d := some.inj (hx.symm.trans hd)
    exact hreached.resolve_left hd0
  have hmat : m = (named fs.nodes kids d t).getD 0 := by
    rw [resolvePath_some hcwd0, htokens, hl.resolveLoop_snoc hd (hl.reached_mem hdr) hplain.1 hplain.2,
      some.injEq] at hnew
    exact hnew.symm
  have hroot : m ≠ fs.root := by
    cases hfind : named fs.nodes kids d t with
    | none => simpa [hmat, hfind] using Ne.symm (hl.ne_zero hl.root_mem)
    | some c => simpa [hmat, hfind] using hl.ne_root (hl.reached_mem hdr) (named_some hfind).1
  obtain ⟨kids', hr⟩ := rename_replaced h hold hn0 hnew hrun hfile hroot
  have hresolve := hr.resolvePath_start hcwd0
  -- In either direction the file is in `d` and has the name there.
  have hplace : m ≠ n → (fs.nodes n).parent = d → (baseName new).take 127 = t →
      n ∈ kids (fs.nodes n).parent ∧
      (∀ c ∈ kids (fs.nodes n).parent, c ≠ m → (fs.nodes c).name ≠ (baseName new).take 127) ∧
      ∀ p us, resolveLoop fs'.nodes (startOf fs fs.cwd p) us =
        resolveAs fs.nodes n d t (startOf fs fs.cwd p) us := by
    rintro hmn rfl rfl
    have hmem : n ∈ kids (fs.nodes n).parent := by
      cases hn with
      | root => exact absurd hl.top hd0
      | @child q _ hq hc => exact (hl.child q (hl.reached_mem hq) n hc).2.symm ▸ hc
    have hclear : ∀ c ∈ kids (fs.nodes n).parent, c ≠ m →
        (fs.nodes c).name ≠ (baseName new).take 127 := by
      intro c hc hcm hname
      have := named_of_mem (hunique _ hdr) hc
      rw [hname] at this
      exact hcm (by rw [hmat, this]; rfl)
    exact ⟨hmem, hclear, fun p us => hr.resolveLoop_as hl hunique hclear hdr hmem hmn
      (fun x hx u => hl.named_only (hl.reached_mem hdr) hmat hx) (hstart p) us⟩
  constructor
  · intro hmoved
    have hfound := hmoved.found
    rw [hresolve, htokens] at hfound
    obtain ⟨hmn, hparent, hstored, hdir⟩ :=
      hr.parent_of_found hl hunique (hstart new) hplain hd hd0 hn0 hfound
    obtain ⟨-, -, has⟩ := hplace hmn hparent hstored
    exact ⟨hmn, hparent, hstored, has new ts ▸ hdir, by rw [← has, ← hresolve]; exact hmoved.left⟩
  · rintro ⟨hmn, hparent, hstored, hdir, hleft⟩
    obtain ⟨hmem, hclear, has⟩ := hplace hmn hparent hstored
    refine ⟨?_, rename_content h hold hn0 hnew hrun hmn (hl.reached_mem hn) hr, ?_,
      fun q x => hr.resolvePath_eq hl hunique hclear h.cwd, fun _ => hr.not_inTree hl hroot⟩
    · have hself := hr.named_self hl hunique hclear (hparent ▸ hdr) hmem hmn.symm
      rw [hr.name_self, hparent, hstored] at hself
      rw [← has] at hdir
      rw [hresolve, htokens, hr.linked.resolveLoop_snoc hdir (hl.reached_mem hdr) hplain.1 hplain.2,
        hself]
      rfl
    · rw [hresolve, has, hleft]

end Rename

theorem rename_moves_iff_file :
    ∃ fs1 fs2 fs3 n, initialise blank = some fs1 ∧
      OpRun (fun fs op => op.Safe fs) fs1 [.open slashF oCreat 0o644 none] fs2 ∧
      rename fs2 slashF slashG = some (0, fs3) ∧
      MovedTo fs2 slashF slashG n 0 fs3 := by
  obtain ⟨fs1, fs2, fs3, c, bs, hinit, -, hrun, h, hold, hnew, hrename, hname, hc, -⟩ :=
    renamed_file
  have hl := h.linked
  have hc0 : c ≠ 0 := hl.ne_zero mem_cons_self
  have hparent : (fs2.nodes c).parent = fs2.root :=
    (hl.child fs2.root hl.root_mem c (mem_grown_self _ _ _)).2
  refine ⟨fs1, fs2, fs3, c, hinit, hrun, hrename, ?_⟩
  refine (rename_moves_iff h hold hc0 hnew hrename
    (show tokens [slash, 0x67] = [] ++ [[0x67]] by decide) (by decide) rfl (h.ne_zero .root) (Or.inl rfl)
    (wellNamed_only hl (by rw [hname]; decide)).unique).mpr
    ⟨Ne.symm hc0, hparent, by decide, rfl, ?_⟩
  -- The old name leads to the file, which is found under the new one only.
  have hfound : findChild fs2.nodes [0x66] (fs2.nodes fs2.root).firstChild = some c := by
    rw [findChild_spec hl hl.root_mem, grown_curr]
    simp [hname]
  change resolveAs fs2.nodes c fs2.root [0x67] fs2.root [[0x66]] = some 0
  rw [resolveAs, if_neg (by decide), if_neg (by decide), if_neg (by simp), hfound]
  simp

/-! ## A file gets the name it has -/

/-- The file at the new path is the file itself, and is removed. -/
theorem rename_same_path :
    ∃ fs1 fs2 fs3 n, initialise blank = some fs1 ∧
      OpRun (fun fs op => op.Safe fs) fs1 [.open slashF oCreat 0o644 none] fs2 ∧
      resolvePath fs2 slashF = some n ∧ n ≠ 0 ∧ (fs2.nodes n).isDir = false ∧
      rename fs2 slashF slashF = some (0, fs3) ∧
      resolvePath fs3 slashF = some 0 := by
  obtain ⟨fs1, fs2, fs3, heap, c, bs, hinit, -, hrun, h, hc, hfile, hres, hunlink, hrename⟩ :=
    renamed_self
  have hl := h.linked
  obtain ⟨kids1, hroot1, hcwd1, -, hlists, hlinked⟩ :=
    unlink_clears hl h.cwd hres (Or.inr hfile) hc hunlink
  have hbare : kids1 fs2.root = [] := by
    rw [hlists _ hl.root_mem, grown_curr]
    simp
  refine ⟨fs1, fs2, _, c, hinit, hrun, hres, hl.ne_zero mem_cons_self, hfile, hrename, ?_⟩
  rw [← hroot1] at hlinked
  refine resolve_missing (hlinked.setName c _) (by decide) (by decide) (by decide) ?_
    (hcwd1.symm ▸ h.ne_zero h.cwd)
  intro x hx
  change x ∈ kids1 fs3.root at hx
  rw [hroot1, hbare] at hx
  exact absurd hx not_mem_nil

end Terrakernel.Tmpfs
