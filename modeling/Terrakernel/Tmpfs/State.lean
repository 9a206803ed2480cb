import Terrakernel.Tmpfs.Ends
import Terrakernel.Tmpfs.From
import Terrakernel.Tmpfs.Runs

/-!
# Calls in any working directory

What every call keeps: the nodes and their blocks, counters that are not too small, and a working
directory in the tree.
-/

namespace Terrakernel.Tmpfs

open Memory Vmm Links Heap Function
open List hiding Chain

variable {nodes : Nat → Node} {n p : Nat} {kids kids' : Kids} {fs fs' : Fs} {R : Rules}
  {bs bs' : List Blk} {live' : List Nat}

/-- The root, or in some list. -/
def Listed (root : Nat) (live : List Nat) (kids : Kids) (n : Nat) : Prop :=
  n = root ∨ ∃ m ∈ live, n ∈ kids m

theorem Linked.listed {root : Nat} {live : List Nat} (h : Linked nodes root live kids)
    (hn : Reached root kids n) : Listed root live kids n := by
  cases hn with
  | root => exact .inl rfl
  | child hm hc => exact .inr ⟨_, h.reached_mem hm, hc⟩

/-- A counter counts the descriptors, and the list that the node is in. -/
structure Backed (fs : Fs) (live : List Nat) (kids : Kids) : Prop where
  count : ∀ n ∈ live, (opens fs.fds n : Int) ≤ (fs.nodes n).refcount
  listed : ∀ n ∈ live, Listed fs.root live kids n →
    (opens fs.fds n : Int) + 1 ≤ (fs.nodes n).refcount

/-- The block of a node has the size of one. -/
def Sized (bs : List Blk) (live : List Nat) : Prop :=
  ∀ n ∈ live, ∃ b ∈ bs, b.ptr = n ∧ b.free = false ∧ nodeSize ≤ b.len

structure Held (foreign : List Nat) (fs : Fs) (bs : List Blk) (live : List Nat)
    (kids : Kids) : Prop where
  sane : Sane foreign fs bs live kids
  backed : Backed fs live kids
  sized : Sized bs live
  cwd : Reached fs.root kids fs.cwd

theorem Held.linked {foreign : List Nat} {bs : List Blk} {live : List Nat} {kids : Kids}
    (h : Held foreign fs bs live kids) : Linked fs.nodes fs.root live kids :=
  h.sane.linked

/-- A call has led to a state that is again a good one, by changes that keep the rules `R`. -/
def Moves (R : Rules) (fs : Fs) (live : List Nat) (kids : Kids) (fs' : Fs) : Prop :=
  ∃ foreign' bs' live' kids', Held foreign' fs' bs' live' kids' ∧
    Shape.Steps R (shape fs live kids) (shape fs' live' kids')

theorem shape_congr {live : List Nat} (hroot : fs'.root = fs.root) (hcwd : fs'.cwd = fs.cwd)
    (hname : ∀ m, (fs'.nodes m).name = (fs.nodes m).name)
    (hdir : ∀ m, (fs'.nodes m).isDir = (fs.nodes m).isDir) :
    shape fs' live kids = shape fs live kids := by
  unfold shape
  rw [hroot, hcwd, funext hname, funext hdir]

/-! ## Subtrees -/

/-- The nodes at or below `a`. -/
def Below (fs : Fs) (a x : Nat) : Prop := InTree { fs with root := a } x

/-- What `mkdir` on node `n` cuts off: it clears the list of `n` and the link to the siblings
behind it. -/
def CutOff (fs : Fs) (n x : Nat) : Prop :=
  ∃ xs, (Chain (sibling fs.nodes) (fs.nodes n).firstChild xs ∨
    Chain (sibling fs.nodes) (fs.nodes n).nextSibling xs) ∧ ∃ c ∈ xs, Below fs c x

theorem Linked.below_iff {live : List Nat} (h : Linked fs.nodes fs.root live kids) {a : Nat}
    (ha : a ∈ live) (x : Nat) : Below fs a x ↔ Reached a kids x :=
  @Tmpfs.inTree_iff { fs with root := a } live kids ha h.chain (fun m hm c hc => (h.child m hm c hc).1) x

section Backed

variable {fs fs' : Fs} {live live' : List Nat} {kids kids' : Kids}

theorem Listed.mono {root n : Nat} (h : Listed root live' kids' n) (hlive : ∀ m ∈ live', m ∈ live)
    (hkids : ∀ m, (kids' m).Sublist (kids m)) : Listed root live kids n := by
  rcases h with h | ⟨m, hm, hc⟩
  · exact .inl h
  · exact .inr ⟨m, hlive m hm, (hkids m).subset hc⟩

theorem Backed.congr (h : Backed fs live kids) (hroot : fs'.root = fs.root)
    (hnodes : ∀ n ∈ live', opens fs'.fds n = opens fs.fds n ∧
      (fs'.nodes n).refcount = (fs.nodes n).refcount)
    (hlive : ∀ n ∈ live', n ∈ live) (hkids : ∀ m, (kids' m).Sublist (kids m)) :
    Backed fs' live' kids' := by
  refine ⟨?_, ?_⟩
  · intro n hn
    rw [(hnodes n hn).1, (hnodes n hn).2]
    exact h.count n (hlive n hn)
  · intro n hn hl
    rw [hroot] at hl
    rw [(hnodes n hn).1, (hnodes n hn).2]
    exact h.listed n (hlive n hn) (hl.mono hlive hkids)

theorem Backed.built (h : Backed fs live kids) (hl' : Linked fs'.nodes fs'.root live' kids')
    (htable : Table fs.fds live) (hb : Built R fs bs live kids fs' bs' live' kids') :
    Backed fs' live' kids' := by
  have hfds : fs'.fds = fs.fds := by rw [hb.ext.frame]
  have href : ∀ n ∈ live, (fs'.nodes n).refcount = (fs.nodes n).refcount := fun n hn =>
    (congrArg Node.refcount (hb.ext.old n hn).2 :)
  have hnew : ∀ n ∈ live', n ∉ live → (opens fs'.fds n : Int) + 1 ≤ (fs'.nodes n).refcount := by
    intro n hn hno
    have h0 : opens fs.fds n = 0 := by
      apply opens_eq_zero
      rintro i rfl
      exact hno (htable.node i (hl'.ne_zero hn))
    rw [hfds, h0, (hb.new n hn hno).1]
    rfl
  refine ⟨?_, ?_⟩
  · intro n hn
    by_cases hold : n ∈ live
    · rw [hfds, href n hold]
      exact h.count n hold
    · have := hnew n hn hold
      omega
  · intro n hn hlisted
    by_cases hold : n ∈ live
    · rw [hfds, href n hold]
      refine h.listed n hold ?_
      -- An old node is in an old list.
      rcases hlisted with hroot | ⟨m, hm, hc⟩
      · exact .inl (hroot.trans hb.root)
      · by_cases hmold : m ∈ live
        · obtain ⟨l, hk, hl⟩ := hb.old m hmold
          rw [hk] at hc
          rcases mem_append.mp hc with hc | hc
          · exact .inr ⟨m, hmold, hc⟩
          · exact absurd hold (hl n hc)
        · exact absurd hold ((hb.new m hm hmold).2 n hc)
    · exact hnew n hn hold

end Backed

theorem Sized.keeps {gone : List Nat} {heap heap' : Heap} {live live' : List Nat}
    (h : Sized bs live) (hk : Keeps gone heap bs heap' bs')
    (hlive : ∀ n ∈ live', n ∈ live ∧ n ∉ gone) : Sized bs' live' := by
  intro n hn
  obtain ⟨hold, hgone⟩ := hlive n hn
  obtain ⟨b, hb, hptr, hused, hlen⟩ := h n hold
  exact ⟨b, hk.blocks b hb hused (hptr ▸ hgone), hptr, hused, hlen⟩

theorem Sized.built {live live' : List Nat} (h : Sized bs live)
    (hb : Built R fs bs live kids fs' bs' live' kids') : Sized bs' live' := by
  intro n hn
  by_cases hold : n ∈ live
  · exact h.keeps hb.ext.keeps (fun m hm => ⟨hm, not_mem_nil⟩) n hold
  · exact hb.sized n hn hold

section Calls

variable {R : Rules} {foreign : List Nat} {fs : Fs} {bs : List Blk} {live : List Nat}
  {kids : Kids} (h : Held foreign fs bs live kids)

include h

theorem Held.rooted : (shape fs live kids).Rooted :=
  ⟨h.linked.root_mem, fun m hm c hc => (h.linked.child m hm c hc).1, h.cwd⟩

theorem Held.moves_refl : Moves R fs live kids fs := ⟨foreign, bs, live, kids, h, .refl⟩

theorem Held.ne_zero (hn : Reached fs.root kids n) : n ≠ 0 :=
  h.linked.ne_zero (h.linked.reached_mem hn)

theorem Held.of_steps {foreign' : List Nat} (hs : Sane foreign' fs' bs' live' kids')
    (hb : Backed fs' live' kids') (hz : Sized bs' live')
    (hsteps : Shape.Steps R (shape fs live kids) (shape fs' live' kids')) :
    Held foreign' fs' bs' live' kids' :=
  ⟨hs, hb, hz, (hsteps.rooted h.rooted).cwd⟩

theorem Held.built (hs : Sane foreign fs' bs' live' kids')
    (hb : Built R fs bs live kids fs' bs' live' kids') : Held foreign fs' bs' live' kids' :=
  h.of_steps hs (h.backed.built hs.linked h.sane.table hb) (h.sized.built hb) hb.steps

theorem Held.setNode {f : Node → Node} (hf : (f (fs.nodes n)).content = (fs.nodes n).content ∧
      (f (fs.nodes n)).parent = (fs.nodes n).parent ∧
      (f (fs.nodes n)).firstChild = (fs.nodes n).firstChild ∧
      (f (fs.nodes n)).nextSibling = (fs.nodes n).nextSibling)
    (href : (f (fs.nodes n)).refcount = (fs.nodes n).refcount) :
    Held foreign (fs.setNode n f) bs live kids := by
  refine ⟨h.sane.setNode hf, h.backed.congr rfl ?_ (fun _ hn => hn) fun _ => .refl _, h.sized,
    h.cwd⟩
  intro m _
  rw [setNode_nodes]
  split_ifs with hm
  · rw [hm]
    exact ⟨rfl, href⟩
  · exact ⟨rfl, rfl⟩

end Calls

/-! ## What `mkdir` clears -/

theorem Owns.leak {foreign : List Nat} {heap : Heap} {nodes' : Nat → Node} {live : List Nat}
    (h : Owns foreign heap nodes bs live) (hn : n ∈ live) (h0 : (nodes' n).content = 0)
    (hc : ∀ m ∈ live, m ≠ n → (nodes' m).content = (nodes m).content) :
    Owns ((if (nodes n).content = 0 then [] else [(nodes n).content]) ++ foreign) heap nodes' bs
      live := by
  have hnow : (contents nodes' live).Perm (contents nodes (live.filter (· ≠ n))) := by
    refine (contents_perm nodes' (h.split hn)).trans ?_
    rw [contents_cons, if_pos h0, nil_append, contents_without hc]
  refine ⟨h.sound, h.high, (h.used_split hn).trans ?_⟩
  refine Perm.trans ?_ (Perm.append_left _ (Perm.append_left _ hnow.symm))
  generalize (if (nodes n).content = 0 then [] else [(nodes n).content]) = q
  rw [← append_assoc, ← append_assoc, ← append_assoc]
  refine Perm.append_right _ ?_
  rw [append_assoc q]
  exact perm_append_comm

/-- The root, or a child of `p`. -/
def ChildOf (root : Nat) (live : List Nat) (kids : Kids) (p n : Nat) : Prop :=
  p ∈ live ∧ n ∈ kids p ∨ n = root ∧ p = root

theorem childOf_of_reached {live : List Nat} (h : Linked fs.nodes fs.root live kids)
    (hn : Reached fs.root kids n) : ∃ p, ChildOf fs.root live kids p n := by
  cases hn with
  | root => exact ⟨fs.root, .inr ⟨rfl, rfl⟩⟩
  | child hm hc => exact ⟨_, .inl ⟨h.reached_mem hm, hc⟩⟩

section Wipe

variable {fs : Fs} {live : List Nat} {kids : Kids}
  (h : Linked fs.nodes fs.root live kids)

include h

theorem Linked.wipe {p n : Nat} (hn : ChildOf fs.root live kids p n) (mode : Nat) :
    Linked (fs.setNode n (wiped mode)).nodes fs.root live (cut kids p n) := by
  have hnil : Chain (sibling fs.nodes) 0 [] := rfl
  rcases hn with ⟨hp, hn⟩ | ⟨rfl, rfl⟩
  · -- First the link to the siblings is cleared, then the list of the children.
    obtain ⟨l, r, hk⟩ := append_of_mem hn
    have hnl : n ∉ l := by
      have := (h.chain p hp).nodup
      rw [hk, nodup_append] at this
      exact fun hl => this.2.2 n hl n mem_cons_self rfl
    have h1 : Linked (fs.setNode n fun n => { n with nextSibling := 0 }).nodes fs.root live
        (update kids p (l ++ [n])) :=
      h.setNext hp hk hnil not_mem_nil fun c hc => absurd hc not_mem_nil
    have h2 := @Linked.setFirst (fs.setNode n fun n => { n with nextSibling := 0 }) live _ h1 n 0 []
      rfl fun c hc => absurd hc not_mem_nil
    rw [cut, hk, upTo_append r hnl]
    refine h2.congr fun m _ => ?_
    simp only [setNode_nodes]
    split_ifs <;> exact ⟨rfl, rfl, rfl⟩
  · have hcut : cut kids fs.root fs.root = update kids fs.root [] := by
      rw [cut, update_idem]
    rw [hcut]
    refine h.rewire ?_ ?_ (fun c hc => absurd hc not_mem_nil) ?_
    · intro m _
      rw [setNode_nodes]
      split_ifs <;> rfl
    · rw [setNode_nodes, if_pos rfl]
      exact rfl
    · intro m hm hmr
      rw [setNode_nodes, if_neg hmr]
      refine ⟨rfl, fun x hx => ?_⟩
      rw [sibling, setNode_nodes, if_neg (h.ne_root hm hx)]
      rfl

theorem Linked.spares (hn : ChildOf fs.root live kids p n) (hlive : n ∈ live)
    (hkeep : ¬ CutOff fs n fs.cwd) : (shape fs live kids).Spares (cut kids p n) := by
  intro m c hc hcwd
  change c ∈ kids m at hc
  change Reached c kids fs.cwd at hcwd
  have hbelow : ∀ {q}, q ∈ live → c ∈ kids q → Below fs c fs.cwd := fun hq hcq =>
    (h.below_iff (h.child _ hq c hcq).1 fs.cwd).mpr hcwd
  unfold cut
  by_cases hmn : m = n
  · subst hmn
    exact absurd ⟨kids m, .inl (h.chain m hlive), c, hc, hbelow hlive hc⟩ hkeep
  rw [update_of_ne hmn]
  by_cases hmp : m = p
  · subst hmp
    rw [update_self]
    obtain ⟨hm, hn⟩ := hn.resolve_right fun hr => hmn (hr.2.trans hr.1.symm)
    obtain ⟨l, r, hk⟩ := append_of_mem hn
    have hchain := h.chain m hm
    have hnodup := hchain.nodup
    rw [hk] at hchain hnodup
    have hnl : n ∉ l := fun hl => (nodup_append.mp hnodup).2.2 n hl n mem_cons_self rfl
    rw [hk, upTo_append r hnl]
    by_contra hcut
    have hcr : c ∈ r := by
      rw [hk] at hc
      simp only [mem_append, mem_cons, not_mem_nil, or_false] at hc hcut
      tauto
    exact hkeep ⟨r, .inr hchain.after, c, hcr, hbelow hm hc⟩
  · rw [update_of_ne hmp]
    exact hc

theorem Linked.not_cutOff_root (hp : p ∈ live) (hn : n ∈ kids p) : ¬ CutOff fs n fs.root := by
  rintro ⟨xs, hxs, c, hc, hbelow⟩
  have hlive := (h.child p hp n hn).1
  obtain ⟨m, hm, hcm⟩ : ∃ m ∈ live, c ∈ kids m := by
    rcases hxs with hxs | hxs
    · exact ⟨n, hlive, (h.chain n hlive).unique hxs ▸ hc⟩
    · obtain ⟨l, r, hk⟩ := append_of_mem hn
      have hchain := h.chain p hp
      rw [hk] at hchain
      refine ⟨p, hp, ?_⟩
      rw [hk, hchain.after.unique hxs]
      simp [hc]
  rw [h.below_iff (h.child m hm c hcm).1] at hbelow
  exact h.not_below_root hm hcm hbelow

omit h in
/-- What is cut off of a tree that has grown: nothing, if the node is new. -/
theorem Built.spares {R : Rules} {fs1 : Fs} {bs bs1 : List Blk} {live1 : List Nat}
    {kids1 : Kids} (hb : Built R fs bs live kids fs1 bs1 live1 kids1)
    (h : Linked fs.nodes fs.root live kids) (h1 : Linked fs1.nodes fs1.root live1 kids1)
    (hcwd : fs.cwd ∈ live) (hp : ChildOf fs1.root live1 kids1 p n) (hn : n ∈ live1)
    (hkeep : n ∈ live → ¬ CutOff fs n fs.cwd) : (shape fs1 live1 kids1).Spares (cut kids1 p n) := by
  intro m c hc hreach
  change c ∈ kids1 m at hc
  change Reached c kids1 fs1.cwd at hreach
  rw [show fs1.cwd = fs.cwd by rw [hb.ext.frame]] at hreach
  -- Only old nodes lead to the working directory.
  have hback : m ∈ live1 → m ∈ live ∧ c ∈ kids m ∧ c ∈ live ∧ Reached c kids fs.cwd := by
    intro hm
    obtain ⟨hcold, hreach⟩ := hb.below_old h1 (h1.child m hm c hc).1 hreach hcwd
    by_cases hmold : m ∈ live
    · obtain ⟨l, hk, hnew⟩ := hb.old m hmold
      rw [hk] at hc
      exact ⟨hmold, (mem_append.mp hc).resolve_right fun hl => hnew c hl hcold, hcold, hreach⟩
    · exact absurd hcold ((hb.new m hm hmold).2 c hc)
  unfold cut
  by_cases hmn : m = n
  · subst hmn
    obtain ⟨hmold, hck, hcold, hreach⟩ := hback hn
    exact absurd ⟨kids m, .inl (h.chain m hmold), c, hck, (h.below_iff hcold _).mpr hreach⟩
      (hkeep hmold)
  rw [update_of_ne hmn]
  by_cases hmp : m = p
  · subst hmp
    rw [update_self]
    obtain ⟨hm, -⟩ := hp.resolve_right fun hr => hmn (hr.2.trans hr.1.symm)
    obtain ⟨hmold, hck, hcold, hreach⟩ := hback hm
    obtain ⟨l, hk, -⟩ := hb.old m hmold
    rw [hk]
    by_cases hnold : n ∈ kids m
    · have hlive := (h.child m hmold n hnold).1
      have hspared := h.spares (Or.inl ⟨hmold, hnold⟩) hlive (hkeep hlive) m c hck hreach
      rw [cut, update_of_ne hmn, update_self] at hspared
      exact mem_upTo_append l hspared
    · rw [upTo_append_of_not_mem l hnold]
      exact mem_append_left _ hck
  · rw [update_of_ne hmp]
    exact hc

end Wipe

section Mkdir

variable {R : Rules} {foreign : List Nat} {fs : Fs} {bs : List Blk} {live : List Nat}
  {kids : Kids} (h : Held foreign fs bs live kids)

include h

theorem Held.wiped (hp : ChildOf fs.root live kids p n) (hlive : n ∈ live)
    (hkeep : (shape fs live kids).Spares (cut kids p n)) (mode : Nat) :
    (∃ foreign', Held foreign' (fs.setNode n (Tmpfs.wiped mode)) bs live (cut kids p n)) ∧
      Shape.Step R (shape fs live kids)
        (shape (fs.setNode n (Tmpfs.wiped mode)) live (cut kids p n)) := by
  have hnodes : ∀ m, (fs.setNode n (Tmpfs.wiped mode)).nodes m =
      if m = n then Tmpfs.wiped mode (fs.nodes m) else fs.nodes m :=
    setNode_nodes fs n (Tmpfs.wiped mode)
  obtain ⟨foreign', howns⟩ : ∃ foreign', Owns foreign' fs.heap
      (fs.setNode n (Tmpfs.wiped mode)).nodes bs live := by
    refine ⟨_, h.sane.owns.leak hlive ?_ ?_⟩
    · rw [hnodes, if_pos rfl]
      rfl
    · intro m _ hm
      rw [hnodes, if_neg hm]
  have hs : Sane foreign' (fs.setNode n (Tmpfs.wiped mode)) bs live (cut kids p n) :=
    ⟨howns, h.linked.wipe hp mode, h.sane.table⟩
  have hstep : Shape.Step R (shape fs live kids)
      (shape (fs.setNode n (Tmpfs.wiped mode)) live (cut kids p n)) := by
    refine .wipe rfl rfl hkeep ?_ ?_ ⟨rfl, rfl, ?_, ?_⟩
    · change ((fs.setNode n (Tmpfs.wiped mode)).nodes n).name = (fs.nodes n).name
      rw [hnodes, if_pos rfl]
      rfl
    · change ((fs.setNode n (Tmpfs.wiped mode)).nodes n).isDir = true
      rw [hnodes, if_pos rfl]
      rfl
    · intro m hm
      change ((fs.setNode n (Tmpfs.wiped mode)).nodes m).name = (fs.nodes m).name
      rw [hnodes, if_neg (by simpa using (mem_filter.mp hm).2)]
    · intro m hm
      change ((fs.setNode n (Tmpfs.wiped mode)).nodes m).isDir = (fs.nodes m).isDir
      rw [hnodes, if_neg (by simpa using (mem_filter.mp hm).2)]
  refine ⟨⟨foreign', h.of_steps hs ?_ h.sized (.single hstep)⟩, hstep⟩
  refine h.backed.congr rfl ?_ (fun _ hm => hm) (cut_sublist kids p n)
  intro m _
  rw [hnodes]
  split_ifs <;> exact ⟨rfl, rfl⟩

end Mkdir

end Terrakernel.Tmpfs
