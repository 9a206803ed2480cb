import Terrakernel.Tmpfs.State

/-!
# What each call does to the tree

From a good state each call leads to a good one, by changes of the tree that keep the rules.
-/

namespace Terrakernel.Tmpfs

open Memory Vmm Links Heap Function List Option

variable {n mode : Nat} {fs1 : Fs} {kids1 : Kids} {i : Fin 256} {bs' : List Blk}
  {G : Fs → Nat → Bytes → Prop} {devpath : Path}

section LetGo

variable {R : Rules} {foreign : List Nat} {fs : Fs} {bs : List Blk} {live : List Nat}
  {kids : Kids}

theorem Owns.content_not_live {heap : Heap} {nodes : Nat → Node}
    (h : Owns foreign heap nodes bs live) {m : Nat} (hm : m ∈ live) (hn : n ∈ live) :
    m ≠ (nodes n).content := by
  intro heq
  have hnodup := h.nodup
  rw [nodup_append, nodup_append] at hnodup
  refine hnodup.2.1.2.2 m hm m ?_ rfl
  refine mem_filter.mpr ⟨List.mem_map.mpr ⟨n, hn, heq.symm⟩, ?_⟩
  have : m ≠ 0 := by
    rintro rfl
    exact h.nonnull hm
  simpa using this

theorem Backed.letGo (h : Backed fs live kids) (hroot : fs1.root = fs.root)
    (href : ∀ m, (fs1.nodes m).refcount = (fs.nodes m).refcount)
    (hother : ∀ m ∈ live, m ≠ n → opens fs1.fds m = opens fs.fds m)
    (hkids : ∀ m, (kids1 m).Sublist (kids m))
    (hheld : opens fs1.fds n + 1 = opens fs.fds n ∨ opens fs1.fds n = opens fs.fds n ∧
      Listed fs.root live kids n ∧ ¬ Listed fs.root live kids1 n) :
    Backed (fs1.setNode n fun n => { n with refcount := n.refcount - 1 }) live kids1 := by
  have hnodes : ∀ m, ((fs1.setNode n fun n => { n with refcount := n.refcount - 1 }).nodes m).refcount
      = (fs.nodes m).refcount - if m = n then 1 else 0 := by
    intro m
    rw [setNode_nodes]
    split_ifs
    · simp only [href]
    · rw [href, Int.sub_zero]
  refine ⟨?_, ?_⟩
  · intro m hm
    have hcount := h.count m hm
    change (opens fs1.fds m : Int) ≤ _
    rw [hnodes]
    by_cases hmn : m = n
    · subst hmn
      rw [if_pos rfl]
      rcases hheld with hlet | ⟨hsame, hl, -⟩
      · omega
      · have := h.listed m hm hl
        omega
    · rw [if_neg hmn, hother m hm hmn]
      omega
  · intro m hm hl
    change Listed fs1.root live kids1 m at hl
    rw [hroot] at hl
    have hlisted := h.listed m hm (hl.mono (fun _ hx => hx) hkids)
    change (opens fs1.fds m : Int) + 1 ≤ _
    rw [hnodes]
    by_cases hmn : m = n
    · subst hmn
      rw [if_pos rfl]
      rcases hheld with hlet | ⟨-, -, hno⟩
      · omega
      · exact absurd hl hno
    · rw [if_neg hmn, hother m hm hmn]
      omega

theorem freeNode_backed (hs : Sane foreign fs bs live kids) (hz : Sized bs live)
    (hb : Backed (fs.setNode n fun n => { n with refcount := n.refcount - 1 }) live kids)
    (hn : n ∈ live) :
    ∃ fs' bs' live', freeNode fs n = some fs' ∧
      fs' = { fs with heap := fs'.heap, nodes := fs'.nodes } ∧ Sane foreign fs' bs' live' kids ∧
      Backed fs' live' kids ∧ Sized bs' live' ∧
      Keeps [(fs.nodes n).content, n] fs.heap bs fs'.heap bs' ∧
      Shape.Steps R (shape fs live kids) (shape fs' live' kids) := by
  have hdec : ((fs.setNode n fun n => { n with refcount := n.refcount - 1 }).nodes n).refcount =
      (fs.nodes n).refcount - 1 := by
    rw [setNode_nodes, if_pos rfl]
  have hlast : (fs.nodes n).refcount ≤ 1 →
      n ≠ fs.root ∧ (∀ m ∈ live, n ∉ kids m) ∧ ∀ i, (fs.fds i).node ≠ n := by
    intro href
    refine ⟨?_, ?_, ?_⟩
    · rintro rfl
      have : (opens fs.fds fs.root : Int) + 1 ≤ _ := hb.listed fs.root hn (Or.inl rfl)
      rw [hdec] at this
      omega
    · intro m hm hc
      have : (opens fs.fds n : Int) + 1 ≤ _ := hb.listed n hn (Or.inr ⟨m, hm, hc⟩)
      rw [hdec] at this
      omega
    · intro i hi
      have hpos : 0 < opens fs.fds n := opens_pos_iff.mpr ⟨i, hi⟩
      have : (opens fs.fds n : Int) ≤ _ := hb.count n hn
      rw [hdec] at this
      omega
  obtain ⟨heap, bs', live', hfree, hs', hcases, hk, -, -⟩ := freeNode_cases hs hn hlast
  have hshape : ∀ live, shape { fs.setNode n fun n => { n with refcount := n.refcount - 1 } with heap }
      live kids = shape fs live kids := by
    intro live
    refine shape_congr rfl rfl ?_ ?_
    all_goals
      intro m
      simp only [setNode_nodes]
      split_ifs <;> rfl
  refine ⟨_, bs', live', hfree, rfl, hs', ?_, ?_, hk, ?_⟩
  · refine hb.congr rfl (fun _ _ => ⟨rfl, rfl⟩) ?_ fun _ => .refl _
    rcases hcases with ⟨-, rfl, -⟩ | ⟨-, rfl⟩
    · exact fun _ hm => hm
    · exact fun m hm => (mem_filter.mp hm).1
  · rcases hcases with ⟨-, rfl, rfl⟩ | ⟨-, rfl⟩
    · exact hz
    · refine hz.keeps hk fun m hm => ?_
      obtain ⟨hm, hne⟩ := mem_filter.mp hm
      refine ⟨hm, ?_⟩
      simp only [mem_cons, not_mem_nil, or_false, not_or]
      exact ⟨hs.owns.content_not_live hm hn, by simpa using hne⟩
  · rw [hshape]
    rcases hcases with ⟨-, rfl, -⟩ | ⟨href, rfl⟩
    · exact .refl
    · obtain ⟨hroot, hlisted, -⟩ := hlast href
      exact .single (.release hroot hlisted rfl rfl ⟨rfl, rfl, fun _ _ => rfl, fun _ _ => rfl⟩)

end LetGo

/-- What is removed is not the working directory or above it. The root is never removed. -/
def RemovesClear (fs : Fs) (refused : Nat → Prop) (path : Path) : Prop :=
  ∀ n, resolvePath fs path = some n → n ≠ 0 → n ≠ fs.root → ¬ refused n → ¬ Below fs n fs.cwd

/-- The working directory is not in what `mkdir` cuts off, if its walk ends at an old node. -/
def MakesClear (fs : Fs) (base : Nat) (path : Path) : Prop :=
  ∀ p, path = some p → p ≠ [] →
    ∀ d, walkEnd fs.nodes (startOf fs base p) 0 (tokens p) = some (d, 0) → ¬ CutOff fs d fs.cwd

/-- Each child that `open` makes meets `G`. -/
def OpenMakes (G : Fs → Nat → Bytes → Prop) (fs : Fs) (base : Nat) (path : Path)
    (flags : BitVec 32) (mode : Nat) : Prop :=
  resolvePathInternal fs base path = some 0 → flags &&& oCreat ≠ 0 →
    MakesAt G false mode fs base path

/-- The link `c` has been made in the working directory, with the string at `q`. -/
structure NewLink (foreign : List Nat) (fs : Fs) (bs : List Blk) (live : List Nat)
    (kids : Kids) (l : Bytes) (q : Nat) (path : Bytes) (c : Nat) (fs' : Fs)
    (bs' : List Blk) : Prop where
  new : c ∉ live
  frame : fs' = { fs with heap := fs'.heap, nodes := fs'.nodes }
  node : (fs'.nodes c).data = { newNode (baseName l) fs.cwd false 0o777 with
    isSymlink := true, content := q, size := path.length }
  others : ∀ m ≠ c, (fs'.nodes m).data = (fs.nodes m).data
  sane : Sane foreign fs' bs' (c :: live) (grown kids fs.cwd c)
  keeps : Keeps [] fs.heap bs fs'.heap bs'
  block : ∃ b ∈ bs', b.ptr = c ∧ b.free = false ∧ nodeSize ≤ b.len
  string : ∀ j v, (path ++ [0])[j]? = some v → fs'.heap.mem (q + j) = v

section Calls

variable {R : Rules} {foreign : List Nat} {fs fs' : Fs} {bs : List Blk} {live : List Nat}
  {kids : Kids} {r : Int} (h : Held foreign fs bs live kids)

include h

theorem Held.close {fd : Int} (hrun : close fs fd = some (r, fs')) : Moves R fs live kids fs' := by
  unfold Tmpfs.close at hrun
  cases he : entryOf fd with
  | none =>
    rw [he] at hrun
    simp only [some.injEq, Prod.mk.injEq] at hrun
    obtain ⟨-, rfl⟩ := hrun
    exact h.moves_refl
  | some i =>
    simp only [he] at hrun
    have hs : Sane foreign (fs.setFd i fun f => { f with node := 0, free := true }) bs live kids :=
      h.sane.setFd (fun h0 => absurd rfl h0) fun _ => rfl
    have hopens := fun {m} (hm : m ≠ 0) => opens_cleared fs i hm
    obtain ⟨fs1, hfs1⟩ : ∃ fs1, fs.setFd i (fun f => { f with node := 0, free := true }) = fs1 :=
      ⟨_, rfl⟩
    have hroot : fs1.root = fs.root := by rw [← hfs1]; rfl
    have hnodes : fs1.nodes = fs.nodes := by rw [← hfs1]; rfl
    have hshape : shape fs1 live kids = shape fs live kids := by rw [← hfs1]; rfl
    rw [hfs1] at hs
    simp only [hfs1] at hopens
    have hne : ∀ m ∈ live, m ≠ 0 := fun m hm => h.linked.ne_zero hm
    by_cases h0 : (fs.fds i).node = 0
    · rw [h0, freeNode, if_pos rfl] at hrun
      simp only [bind_eq_bind, bind_some, some.injEq, Prod.mk.injEq] at hrun
      obtain ⟨-, rfl⟩ := hrun
      rw [hfs1]
      have hsteps : Shape.Steps R (shape fs live kids) (shape fs1 live kids) := by rw [hshape]
      refine ⟨foreign, bs, live, kids, h.of_steps hs ?_ h.sized hsteps, hsteps⟩
      refine h.backed.congr hroot ?_ (fun _ hm => hm) fun _ => .refl _
      intro m hm
      have := hopens (hne m hm)
      rw [h0, if_neg (hne m hm).symm, Nat.add_zero] at this
      exact ⟨this, by rw [hnodes]⟩
    · have hb : Backed (fs1.setNode (fs.fds i).node fun n => { n with refcount := n.refcount - 1 })
          live kids := by
        refine h.backed.letGo hroot (fun m => by rw [hnodes]) ?_ (fun _ => .refl _) (Or.inl ?_)
        · intro m hm hmn
          have := hopens (hne m hm)
          rw [if_neg (Ne.symm hmn), Nat.add_zero] at this
          exact this
        · have := hopens h0
          rw [if_pos rfl] at this
          exact this
      obtain ⟨fs2, bs', live', hfree, hframe, hs', hb', hz, -, hsteps⟩ :=
        freeNode_backed (R := R) hs h.sized hb (h.sane.table.node i h0)
      rw [hshape] at hsteps
      rw [← hfs1, freeNode_setFd] at hfree
      obtain ⟨fs3, hfs3, rfl⟩ := map_eq_some_iff.mp hfree
      rw [hfs3] at hrun
      simp only [bind_eq_bind, bind_some, some.injEq, Prod.mk.injEq] at hrun
      obtain ⟨-, rfl⟩ := hrun
      exact ⟨foreign, bs', live', kids, h.of_steps hs' hb' hz hsteps, hsteps⟩

/-! ## Bytes -/

theorem Held.of_fds {f : Filedesc} (hs : Sane foreign fs' bs live kids)
    (hf : f.node = (fs.fds i).node) (heq : fs' = { fs with fds := update fs.fds i f }) :
    Held foreign fs' bs live kids := by
  subst heq
  exact ⟨hs, h.backed.congr rfl (fun n _ => ⟨opens_same hf n, rfl⟩) (fun _ hn => hn)
    fun _ => .refl _, h.sized, h.cwd⟩

theorem Held.rewrites (hn : (fs.fds i).node ∈ live) (hw : Rewrites fs bs i fs' bs')
    (hs : Sane foreign fs' bs' live kids) : Held foreign fs' bs' live kids := by
  obtain ⟨o, hfds⟩ := hw.fds
  obtain ⟨q, s, hnodes⟩ := hw.nodes
  refine ⟨hs, h.backed.congr hw.root ?_ (fun _ hm => hm) fun _ => .refl _,
    h.sized.keeps hw.keeps fun m hm => ⟨hm, ?_⟩, ?_⟩
  · intro m _
    constructor
    · rw [hfds]
      apply opens_same
      rfl
    · rw [hnodes, update_apply]
      split_ifs with hm
      · rw [hm]
      · rfl
  · rw [mem_singleton]
    exact h.sane.owns.content_not_live hm hn
  · rw [hw.root, hw.cwd]
    exact h.cwd

/-! ## `unlink` and `rmdir` -/

omit h in
theorem remove_child (hs : Sane foreign fs bs live kids) (hb : Backed fs live kids)
    (hz : Sized bs live) {p : Nat} (hp : Reached fs.root kids p) (hc : n ∈ kids p) :
    ∃ fs' bs' live', Tmpfs.remove fs n = some (0, fs') ∧ fs'.root = fs.root ∧
      Sane foreign fs' bs' live' (update kids p ((kids p).erase n)) ∧
      Backed fs' live' (update kids p ((kids p).erase n)) ∧ Sized bs' live' ∧
      Keeps [(fs.nodes n).content, n] fs.heap bs fs'.heap bs' ∧
      Shape.Steps R { shape fs live kids with kids := update kids p ((kids p).erase n) }
        (shape fs' live' (update kids p ((kids p).erase n))) := by
  have hl := hs.linked
  have hplive := hl.reached_mem hp
  obtain ⟨fs1, hdetach, hframe, hdata, hlinked⟩ := detach_spec hl hplive hc
  have hroot : fs1.root = fs.root := by rw [hframe]
  have hfds : fs1.fds = fs.fds := by rw [hframe]
  have hheap : fs1.heap = fs.heap := by rw [hframe]
  have hs1 : Sane foreign fs1 bs live (update kids p ((kids p).erase n)) := by
    refine ⟨?_, hroot ▸ hlinked, hfds ▸ hs.table⟩
    rw [hheap]
    exact hs.owns.congr fun m _ => (congrArg Node.content (hdata m) :)
  have hgone : ¬ Listed fs.root live (update kids p ((kids p).erase n)) n := by
    rintro (rfl | ⟨m, hm, hmem⟩)
    · exact hl.ne_root hplive hc rfl
    · by_cases hmp : m = p
      · subst hmp
        rw [update_self] at hmem
        exact ((hl.chain m hm).nodup.mem_erase_iff.mp hmem).1 rfl
      · rw [update_of_ne hmp] at hmem
        exact hl.not_mem_other hplive hm hc hmp hmem
  have hb1 : Backed (fs1.setNode n fun n => { n with refcount := n.refcount - 1 }) live
      (update kids p ((kids p).erase n)) :=
    hb.letGo hroot (fun m => (congrArg Node.refcount (hdata m) :))
      (fun m _ _ => by rw [hfds]) (erase_sublist kids p n)
      (Or.inr ⟨by rw [hfds], .inr ⟨p, hplive, hc⟩, hgone⟩)
  have hshape : shape fs1 live (update kids p ((kids p).erase n)) =
      { shape fs live kids with kids := update kids p ((kids p).erase n) } :=
    shape_congr hroot (by rw [hframe]) (fun m => (congrArg Node.name (hdata m) :))
      fun m => (congrArg Node.isDir (hdata m) :)
  obtain ⟨fs2, bs', live', hfree, hframe2, hs', hb', hz', hk, hsteps⟩ :=
    freeNode_backed (R := R) hs1 hz hb1 (hl.child p hplive n hc).1
  have hcontent : (fs1.nodes n).content = (fs.nodes n).content :=
    (congrArg Node.content (hdata n) :)
  rw [hheap, hcontent] at hk
  rw [hshape] at hsteps
  refine ⟨fs2, bs', live', ?_, by rw [hframe2, hroot], hs', hb', hz', hk, hsteps⟩
  unfold Tmpfs.remove
  rw [(hl.child p hplive n hc).2]
  simp only [if_neg (hl.ne_zero hplive), hdetach, hfree, bind_eq_bind, bind_some]

omit h in
theorem remove_cases (hs : Sane foreign fs bs live kids) (hb : Backed fs live kids)
    (hz : Sized bs live) (hn : Reached fs.root kids n) (hrun : Tmpfs.remove fs n = some (r, fs')) :
    n = fs.root ∧ fs' = fs ∨ ∃ p bs' live' kids', Reached fs.root kids p ∧ n ∈ kids p ∧
      kids' = update kids p ((kids p).erase n) ∧ fs'.root = fs.root ∧
      Sane foreign fs' bs' live' kids' ∧ Backed fs' live' kids' ∧ Sized bs' live' ∧
      Keeps [(fs.nodes n).content, n] fs.heap bs fs'.heap bs' ∧
      Shape.Steps R { shape fs live kids with kids := kids' } (shape fs' live' kids') := by
  cases hn with
  | root =>
    unfold Tmpfs.remove at hrun
    simp only [hs.linked.top, if_pos, some.injEq, Prod.mk.injEq] at hrun
    exact .inl ⟨rfl, hrun.2.symm⟩
  | @child p _ hp hc =>
    obtain ⟨fs1, bs', live', hremove, hrest⟩ := remove_child (R := R) hs hb hz hp hc
    rw [hremove] at hrun
    cases hrun
    exact .inr ⟨p, bs', live', _, hp, hc, rfl, hrest⟩

theorem Held.remove (hn : Reached fs.root kids n) (hkeep : n ≠ fs.root → ¬ Below fs n fs.cwd)
    (hrun : remove fs n = some (r, fs')) : Moves R fs live kids fs' := by
  have hnlive := h.linked.reached_mem hn
  rcases remove_cases (R := R) h.sane h.backed h.sized hn hrun with
    ⟨-, rfl⟩ | ⟨p, bs', live', kids', hp, hc, rfl, -, hs', hb', hz', -, hsteps⟩
  · exact h.moves_refl
  have hnroot := h.linked.ne_root (h.linked.reached_mem hp) hc
  have hdrop : Shape.Step R (shape fs live kids)
      { shape fs live kids with kids := update kids p ((kids p).erase n) } := by
    refine .drop rfl rfl ?_ ⟨rfl, rfl, fun _ _ => rfl, fun _ _ => rfl⟩
    intro m c hcm hcwd
    change c ∈ update kids p ((kids p).erase n) m
    by_cases hmp : m = p
    · subst hmp
      rw [update_self]
      refine (mem_erase_of_ne ?_).mpr hcm
      rintro rfl
      exact hkeep hnroot ((h.linked.below_iff hnlive fs.cwd).mpr hcwd)
    · rw [update_of_ne hmp]
      exact hcm
  have hall := Relation.ReflTransGen.head hdrop hsteps
  exact ⟨foreign, bs', live', _, h.of_steps hs' hb' hz' hall, hall⟩

theorem Held.removePath {path : Path} {refused : Nat → Prop} [DecidablePred refused]
    (hkeep : RemovesClear fs refused path)
    (hrun : ((resolvePath fs path).bind fun n =>
      if n = 0 ∨ refused n then some (-1, fs) else Tmpfs.remove fs n) = some (r, fs')) :
    Moves R fs live kids fs' := by
  obtain ⟨n, hres, hn⟩ := resolvePathInternal_cases h.sane h.cwd path
  replace hres : resolvePath fs path = some n := hres
  rw [hres, bind_some] at hrun
  by_cases hbad : n = 0 ∨ refused n
  · simp only [if_pos hbad, some.injEq, Prod.mk.injEq] at hrun
    obtain ⟨-, rfl⟩ := hrun
    exact h.moves_refl
  · rw [if_neg hbad] at hrun
    rw [not_or] at hbad
    exact h.remove (hn.resolve_left hbad.1) (fun hr => hkeep n hres hbad.1 hr hbad.2) hrun

theorem Held.unlink {path : Path}
    (hkeep : RemovesClear fs (fun n => (fs.nodes n).isDir = true) path)
    (hrun : unlink fs path = some (r, fs')) : Moves R fs live kids fs' :=
  h.removePath hkeep hrun

theorem Held.rmdir {path : Path} (hkeep : RemovesClear fs
      (fun n => (fs.nodes n).isDir = false ∨ (fs.nodes n).firstChild ≠ 0) path)
    (hrun : rmdir fs path = some (r, fs')) : Moves R fs live kids fs' :=
  h.removePath hkeep hrun

/-! ## `chdir` -/

theorem Held.goTo (hn : Reached fs.root kids n) : Held foreign { fs with cwd := n } bs live kids :=
  ⟨⟨h.sane.owns, h.linked, h.sane.table⟩,
    h.backed.congr rfl (fun _ _ => ⟨rfl, rfl⟩) (fun _ hm => hm) fun _ => .refl _, h.sized, hn⟩

theorem Held.chdir {path : Path} (henter : ∀ n, Reached fs.root kids n →
      (resolvePath fs path = some n ∨ path = some [slash] ∧ n = fs.root) →
        R.enter (shape fs live kids) n)
    (hrun : chdir fs path = some (r, fs')) : Moves R fs live kids fs' := by
  have hgo : ∀ n, Reached fs.root kids n → R.enter (shape fs live kids) n →
      Moves R fs live kids { fs with cwd := n } := by
    intro n hn hrule
    have hstep : Shape.Step R (shape fs live kids) (shape { fs with cwd := n } live kids) :=
      .enter hn hrule rfl
    exact ⟨foreign, bs, live, kids, h.goTo hn, .single hstep⟩
  unfold Tmpfs.chdir at hrun
  cases path with
  | none => exact absurd hrun (by simp)
  | some p =>
    simp only at hrun
    by_cases hp : p = [slash]
    · simp only [if_pos hp, some.injEq, Prod.mk.injEq] at hrun
      obtain ⟨-, rfl⟩ := hrun
      exact hgo fs.root .root (henter _ .root (Or.inr ⟨by rw [hp], rfl⟩))
    · obtain ⟨n, hres, hn⟩ := resolvePathInternal_cases h.sane h.cwd (some p)
      replace hres : resolvePath fs (some p) = some n := hres
      rw [if_neg hp] at hrun
      simp only [hres, bind_eq_bind, bind_some] at hrun
      by_cases h0 : n = 0
      · simp only [if_pos h0, some.injEq, Prod.mk.injEq] at hrun
        obtain ⟨-, rfl⟩ := hrun
        exact h.moves_refl
      · simp only [if_neg h0, some.injEq, Prod.mk.injEq] at hrun
        obtain ⟨-, rfl⟩ := hrun
        exact hgo n (hn.resolve_left h0) (henter n (hn.resolve_left h0) (Or.inl hres))

/-! ## `mkdir` and `open` -/

omit h in
theorem Moves.after {live1 : List Nat}
    (hsteps : Shape.Steps R (shape fs live kids) (shape fs1 live1 kids1))
    (hm : Moves R fs1 live1 kids1 fs') : Moves R fs live kids fs' := by
  obtain ⟨foreign2, bs2, live2, kids2, h2, hsteps2⟩ := hm
  exact ⟨foreign2, bs2, live2, kids2, h2, hsteps.trans hsteps2⟩

theorem Held.mkdirFrom (hGR : Follows G R) {base : Nat} (hbase : Reached fs.root kids base)
    {path : Path} (hmakes : MakesAt G true mode fs base path)
    (hclear : MakesClear fs base path) (hrun : mkdirFrom fs base path mode = some (r, fs')) :
    Moves R fs live kids fs' := by
  obtain ⟨n, fs1, bs1, live1, kids1, hcreate, hs, hb, -, hn, -⟩ :=
    createAtPathInternal_built hGR h.sane hbase hmakes
  have h1 := h.built hs hb
  refine Moves.after hb.steps ?_
  simp only [Tmpfs.mkdirFrom, hcreate, map_some, some.injEq] at hrun
  by_cases h0 : n = 0
  · rw [if_pos h0, Prod.mk.injEq] at hrun
    rw [← hrun.2]
    exact h1.moves_refl
  · rw [if_neg h0, Prod.mk.injEq] at hrun
    rw [← hrun.2]
    have hn := hn.resolve_left h0
    have hl := h.linked
    obtain ⟨p, hp⟩ := childOf_of_reached hs.linked hn
    have hspares := hb.spares hl hs.linked (hl.reached_mem h.cwd) hp (hs.linked.reached_mem hn)
      fun hold => by
        obtain ⟨q, hq, hne, hend⟩ := createAtPathInternal_end h.sane hbase hcreate h0 hold
        exact hclear q hq hne n hend
    obtain ⟨⟨foreign', h'⟩, hstep⟩ :=
      h1.wiped (R := R) hp (hs.linked.reached_mem hn) hspares mode
    exact ⟨foreign', bs1, live1, cut kids1 p n, h', .single hstep⟩

omit h in
theorem shape_opened (fs : Fs) (live : List Nat) (kids : Kids) (i : Fin 256) (n : Nat)
    (flags : BitVec 32) (mode : Nat) :
    shape (opened fs i n flags mode) live kids = shape fs live kids := by
  refine shape_congr rfl rfl ?_ ?_
  all_goals
    intro m
    rw [opened_nodes]
    split_ifs <;> rfl

theorem Held.opened (hn : n ∈ live) (hi : (fs.fds i).node = 0) (flags : BitVec 32) (mode : Nat) :
    Held foreign (opened fs i n flags mode) bs live kids := by
  have hopens : ∀ m ∈ live, opens (Tmpfs.opened fs i n flags mode).fds m =
      opens fs.fds m + if n = m then 1 else 0 :=
    fun m hm => opens_opened hi n flags mode (h.linked.ne_zero hm)
  have href : ∀ m, ((Tmpfs.opened fs i n flags mode).nodes m).refcount =
      (fs.nodes m).refcount + if n = m then 1 else 0 := by
    intro m
    rw [opened_nodes]
    by_cases hmn : m = n
    · rw [if_pos hmn, if_pos hmn.symm]
    · rw [if_neg hmn, if_neg (Ne.symm hmn), Int.add_zero]
  refine ⟨h.sane.opened hn i flags mode, ⟨?_, ?_⟩, h.sized, h.cwd⟩
  · intro m hm
    have := h.backed.count m hm
    rw [hopens m hm, href]
    push_cast
    omega
  · intro m hm hl
    have := h.backed.listed m hm hl
    rw [hopens m hm, href]
    push_cast
    omega

theorem Held.openNode (hn : n = 0 ∨ n ∈ live) (flags : BitVec 32) (mode : Nat) :
    Moves R fs live kids (openNode fs n flags mode).2 := by
  rcases hn with rfl | hn
  · exact h.moves_refl
  rcases openNode_cases h.sane hn flags mode with he | ⟨i, hi, he⟩
  · rw [he]
    exact h.moves_refl
  · rw [he]
    refine ⟨foreign, bs, live, kids, h.opened hn hi flags mode, ?_⟩
    rw [shape_opened]

omit h in
theorem makeDevice_cases {flags : BitVec 32} (hrun : makeDevice fs n flags devpath = some fs') :
    ∃ b d, fs' = fs.setNode n fun n => { n with isdev := b, devpath := d } := by
  unfold makeDevice at hrun
  by_cases hflag : flags &&& oBuiltinDeviceFile = 0
  · rw [if_pos hflag] at hrun
    obtain rfl := some.inj hrun
    refine ⟨(fs.nodes n).isdev, (fs.nodes n).devpath, ?_⟩
    unfold Fs.setNode
    rw [update_eq_self]
  · rw [if_neg hflag] at hrun
    obtain ⟨d, -, rfl⟩ := map_eq_some_iff.mp hrun
    exact ⟨true, d.take 255, rfl⟩

omit h in
theorem shape_device (fs : Fs) (live : List Nat) (kids : Kids) (n : Nat) (b : Bool)
    (d : Bytes) : shape (fs.setNode n fun n => { n with isdev := b, devpath := d }) live kids =
      shape fs live kids := by
  refine shape_congr rfl rfl ?_ ?_
  all_goals
    intro m
    rw [setNode_nodes]
    split_ifs <;> rfl

theorem Held.openFrom (hGR : Follows G R) {base : Nat} (hbase : Reached fs.root kids base)
    {path : Path} {flags : BitVec 32} (hmakes : OpenMakes G fs base path flags mode)
    (hrun : openFrom fs base path flags mode devpath = some (r, fs')) :
    Moves R fs live kids fs' := by
  unfold Tmpfs.openFrom at hrun
  by_cases hp : path = none
  · rw [if_pos hp, some.injEq, Prod.mk.injEq] at hrun
    rw [← hrun.2]
    exact h.moves_refl
  rw [if_neg hp] at hrun
  obtain ⟨n, hres, hn⟩ := resolvePathInternal_cases h.sane hbase path
  rw [hres, bind_some] at hrun
  by_cases hcreate : n = 0 ∧ flags &&& oCreat ≠ 0
  · rw [if_pos hcreate] at hrun
    obtain ⟨c, fs1, bs1, live1, kids1, hmake, hs, hb, -, hc, -⟩ :=
      createAtPathInternal_built hGR h.sane hbase (hmakes (hcreate.1 ▸ hres) hcreate.2)
    have h1 := h.built hs hb
    refine Moves.after hb.steps ?_
    rw [hmake, bind_some] at hrun
    by_cases h0 : c = 0
    · simp only [if_pos h0, some.injEq, Prod.mk.injEq] at hrun
      rw [← hrun.2]
      exact h1.moves_refl
    · simp only [if_neg h0] at hrun
      have hclive := h1.linked.reached_mem (hc.resolve_left h0)
      obtain ⟨fs2, hdev, heq⟩ := map_eq_some_iff.mp hrun
      rw [show fs' = (Tmpfs.openNode fs2 c flags mode).2 by rw [heq]]
      obtain ⟨b, d, rfl⟩ := makeDevice_cases hdev
      have h2 := h1.setNode (n := c) (f := fun n => { n with isdev := b, devpath := d })
        ⟨rfl, rfl, rfl, rfl⟩ rfl
      exact Moves.after (by rw [shape_device]) (h2.openNode (Or.inr hclive) flags mode)
  · rw [if_neg hcreate, some.injEq] at hrun
    rw [show fs' = (Tmpfs.openNode fs n flags mode).2 by rw [hrun]]
    exact h.openNode (hn.imp id fun hr => h.linked.reached_mem hr) flags mode

/-! ## `symlink` -/

omit h in
theorem buildPathAtNode_cases (hs : Sane foreign fs bs live kids) (n : Nat) :
    ∃ q path heap bs', buildPathAtNode fs n = some (q, path, { fs with heap }) ∧
      Keeps [] fs.heap bs heap bs' ∧
      (q = 0 ∧ bs' = bs ∨ q ≠ 0 ∧ (used bs').Perm (q :: used bs) ∧
        HasBlock heap q (path.length + 1) ∧
        (∀ j v, (path ++ [0])[j]? = some v → heap.mem (q + j) = v) ∧
        ∀ r, 0 < r → Room (path.length + 1 + headerSize + r) bs → Room r bs') := by
  unfold buildPathAtNode
  cases pathLoop fs.nodes 1024 n [] with
  | none => exact ⟨0, [], fs.heap, bs, rfl, .refl hs.owns.sound, .inl ⟨rfl, rfl⟩⟩
  | some path =>
    obtain ⟨q, heap, bs', hm, hk, hcases⟩ := malloc_cases hs.owns.sound (path.length + 1)
    simp only [hm, bind_eq_bind, bind_some]
    rcases hcases with ⟨rfl, hbs, -⟩ | ⟨hq, -, hused, ⟨c, hc, hcp, hcf, hcn⟩, hroom⟩
    · exact ⟨0, [], heap, bs', by rw [if_pos rfl], hk, .inl ⟨rfl, hbs⟩⟩
    · rw [if_neg hq]
      have hput : Keeps [] fs.heap bs { heap with mem := putBytes heap.mem q (path ++ [0]) } bs' := by
        refine hk.put hc ?_ ?_
        · intro x hx
          apply putBytes_outside
          rw [length_append, length_singleton]
          simp only [← hcp, Blk.ptr, Blk.fin] at hx ⊢
          omega
        · intro b hb hu _ heq
          have hnodup := hused.nodup_iff.mp hk.sound.rep.fits.used_nodup
          apply (nodup_cons.mp hnodup).1
          rw [← hcp, ← heq]
          exact mem_used.mpr ⟨b, hb, hu, rfl⟩
      have hblock := (hput.sound.rep.hasBlock_iff q (path.length + 1)).mpr ⟨c, hc, hcf, hcp, hcn⟩
      exact ⟨q, path, _, bs', rfl, hput, .inr ⟨hq, hused, hblock,
        putBytes_at (path ++ [0]) heap.mem q, hroom⟩⟩

theorem Held.symlink_made {target : Path} {l path : Bytes} {t q c : Nat} {heap heap' : Heap}
    {bs1 : List Blk} (hres : resolvePath fs target = some t) (ht : t ≠ 0)
    (hbuild : buildPathAtNode fs t = some (q, path, { fs with heap })) (hq : q ≠ 0)
    (hk : Keeps [] fs.heap bs heap bs1) (hused : (used bs1).Perm (q :: used bs))
    (hstring : HasBlock heap q (path.length + 1))
    (hbytes : ∀ j v, (path ++ [0])[j]? = some v → heap.mem (q + j) = v)
    (hm : heap.malloc nodeSize = some (c, heap')) (hc0 : c ≠ 0) (hk' : Keeps [] heap bs1 heap' bs')
    (hused' : (used bs').Perm (c :: used bs1))
    (hblock : ∃ b ∈ bs', b.ptr = c ∧ b.free = false ∧ nodeSize ≤ b.len) :
    ∃ fs', symlink fs target (some l) = some (0, fs') ∧
      NewLink foreign fs bs live kids l q path c fs' bs' := by
  have hboth := hused'.trans (hused.cons c)
  have hcnot : c ∉ live := by
    intro hc
    have hnodup := hboth.nodup_iff.mp hk'.sound.rep.fits.used_nodup
    exact (nodup_cons.mp hnodup).1 (mem_cons_of_mem _ (h.sane.owns.mem_used hc))
  obtain ⟨node, hnode⟩ : ∃ node : Node, { newNode (baseName l) fs.cwd false 0o777 with
    isSymlink := true, content := q, size := path.length } = node := ⟨_, rfl⟩
  have hcontent : node.content = q := by rw [← hnode]
  obtain ⟨fs', happ, hframe, hnew, hold, hs⟩ :=
    @Sane.attach _ _ _ _ _ h.sane _ heap' bs' fs.cwd c node (h.linked.reached_mem h.cwd) hcnot hc0
      (hk.trans hk') (by rw [hcontent, if_neg hq]; exact hboth) (by rw [← hnode]; rfl)
      (by rw [← hnode]; rfl) (by rw [← hnode]; rfl)
  have hheap : fs'.heap = heap' := by rw [hframe]
  refine ⟨fs', ?_, hcnot, ?_, ?_, hold, hs, ?_, hblock, ?_⟩
  · unfold Tmpfs.symlink
    simp only [hres, if_neg ht, hbuild, if_neg hq, hm, if_neg hc0, bind_eq_bind,
      bind_some, hnode]
    change (appendChild ({ fs with heap := heap' }.setNode c fun _ => node) fs.cwd c).bind _ = _
    rw [happ, bind_some]
  · rw [hheap]
    exact hframe
  · rw [hnew, ← hnode]
    rfl
  · rw [hheap]
    exact hk.trans hk'
  · intro j v hv
    have hlt : j < path.length + 1 := by
      have := (List.getElem?_eq_some_iff.mp hv).1
      simpa using this
    rw [hheap, (Keeps.hasBlock hk.sound hk' not_mem_nil hstring).2 j hlt]
    exact hbytes j v hv

theorem Held.symlink_cases {target linkpath : Path}
    (hrun : symlink fs target linkpath = some (r, fs')) :
    (r = -1 ∧ ∃ heap, fs' = { fs with heap } ∧ Keeps [] fs.heap bs heap bs) ∨
      (r = 0 ∧ ∃ l t q path fs1 c bs', linkpath = some l ∧ resolvePath fs target = some t ∧ t ≠ 0 ∧
        buildPathAtNode fs t = some (q, path, fs1) ∧ q ≠ 0 ∧
        NewLink foreign fs bs live kids l q path c fs' bs') := by
  obtain ⟨t, hres, -⟩ := resolvePathInternal_cases h.sane h.cwd target
  replace hres : resolvePath fs target = some t := hres
  have hrun' := hrun
  unfold Tmpfs.symlink at hrun'
  simp only [hres, bind_eq_bind, bind_some] at hrun'
  by_cases ht : t = 0
  · simp only [if_pos ht, some.injEq, Prod.mk.injEq] at hrun'
    exact .inl ⟨hrun'.1.symm, fs.heap, hrun'.2.symm, .refl h.sane.owns.sound⟩
  rw [if_neg ht] at hrun'
  obtain ⟨q, path, heap, bs1, hbuild, hk, hq⟩ := buildPathAtNode_cases h.sane t
  simp only [hbuild, bind_some] at hrun'
  rcases hq with ⟨rfl, rfl⟩ | ⟨hq, hused, hstring, hbytes, -⟩
  · simp only [if_pos, some.injEq, Prod.mk.injEq] at hrun'
    exact .inl ⟨hrun'.1.symm, heap, hrun'.2.symm, hk⟩
  rw [if_neg hq] at hrun'
  obtain ⟨c, heap', bs', hm, hk', hcases⟩ := malloc_cases hk.sound nodeSize
  simp only [hm, bind_some] at hrun'
  rcases hcases with ⟨rfl, -⟩ | ⟨hc0, -, hused', hblock, -⟩
  · simp at hrun'
  cases linkpath with
  | none => simp [hc0] at hrun'
  | some l =>
    obtain ⟨fs2, hmade, hlink⟩ :=
      h.symlink_made hres ht hbuild hq hk hused hstring hbytes hm hc0 hk' hused' hblock
    rw [hrun, some.injEq, Prod.mk.injEq] at hmade
    obtain ⟨rfl, rfl⟩ := hmade
    exact .inr ⟨rfl, l, t, q, path, _, c, bs', rfl, hres, ht, hbuild, hq, hlink⟩

theorem Held.symlink (hGR : Follows G R) {target linkpath : Path}
    (hmakes : ∀ l, linkpath = some l → G fs fs.cwd (baseName l))
    (hrun : symlink fs target linkpath = some (r, fs')) : Moves R fs live kids fs' := by
  rcases h.symlink_cases hrun with ⟨-, heap, rfl, hk⟩ |
    ⟨-, l, t, q, path, fs1, c, bs', rfl, -, -, -, -, hlink⟩
  · refine ⟨foreign, bs, live, kids, ⟨⟨h.sane.owns.keeps hk (.refl _), h.linked,
      h.sane.table⟩, ?_, h.sized, h.cwd⟩, .refl⟩
    exact h.backed.congr rfl (fun _ _ => ⟨rfl, rfl⟩) (fun _ hm => hm) fun _ => .refl _
  · have hcwd := h.linked.reached_mem h.cwd
    have hext : Extends fs bs live fs' bs' (c :: live) := by
      refine ⟨hlink.frame, hlink.keeps, fun m hlive => ⟨mem_cons_of_mem _ hlive, hlink.others m ?_⟩⟩
      rintro rfl
      exact hlink.new hlive
    have hb : Built R fs bs live kids fs' bs' (c :: live) (grown kids fs.cwd c) :=
      built_of_add hcwd hlink.new (congrArg Node.name hlink.node :) (congrArg Node.refcount hlink.node :)
        hext hlink.block (hGR fs live kids fs.cwd (baseName l) h.linked hcwd (hmakes l rfl))
    exact ⟨foreign, bs', _, _, h.built hlink.sane hb, hb.steps⟩

end Calls

end Terrakernel.Tmpfs
