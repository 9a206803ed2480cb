import Terrakernel.Tmpfs.BuildPath
import Terrakernel.Tmpfs.TreeRuns
import Terrakernel.Tmpfs.Visited

/-!
# What `unlink` and `rmdir` take away

Every walk that did not come to the removed node is the same as before.
-/

namespace Terrakernel.Tmpfs

open Memory Vmm Links Heap Function List Option

variable {kids : Kids} {n m c : Nat} {r : Int} {t : Bytes} {fs' : Fs}

theorem find?_erase_of_ne {p : Nat → Bool} {l : List Nat} {x : Nat} (h : l.find? p = some c)
    (hc : c ≠ x) : (l.erase x).find? p = some c := by
  induction l with
  | nil => simp at h
  | cons y l ih =>
    by_cases hy : p y = true
    · rw [find?_cons_of_pos hy] at h
      obtain rfl := some.inj h
      rw [erase_cons_tail (by simpa using hc), find?_cons_of_pos hy]
    · rw [find?_cons_of_neg hy] at h
      by_cases hyx : y = x
      · rw [hyx, erase_cons_head]
        exact h
      · rw [erase_cons_tail (by simpa using hyx), find?_cons_of_neg hy]
        exact ih h

/-! ## One node -/

/-- The node `n` is out of the list of `p`, and has one holder less. -/
structure Taken (fs : Fs) (live : List Nat) (kids : Kids) (p n : Nat) (fs' : Fs) :
    Prop where
  parent : Reached fs.root kids p
  child : n ∈ kids p
  root : fs'.root = fs.root
  cwd : fs'.cwd = fs.cwd
  self : (fs'.nodes n).data = { (fs.nodes n).data with refcount := (fs.nodes n).refcount - 1 }
  others : ∀ m ≠ n, (fs'.nodes m).data = (fs.nodes m).data
  linked : Linked fs'.nodes fs.root live (update kids p ((kids p).erase n))

section Remove

variable {fs fs' : Fs} {live : List Nat} {kids : Kids}

theorem remove_taken (h : Linked fs.nodes fs.root live kids) (hn : Reached fs.root kids n)
    (hrun : remove fs n = some (r, fs')) :
    n = fs.root ∧ r = -1 ∧ fs' = fs ∨ n ≠ fs.root ∧ r = 0 ∧ ∃ p, Taken fs live kids p n fs' := by
  unfold remove at hrun
  cases hn with
  | root =>
    simp only [h.top, if_pos, some.injEq, Prod.mk.injEq] at hrun
    exact .inl ⟨rfl, hrun.1.symm, hrun.2.symm⟩
  | @child p _ hp hc =>
    have hplive := h.reached_mem hp
    obtain ⟨hnlive, hparent⟩ := h.child p hplive n hc
    obtain ⟨fs1, hdetach, hframe, hdata, hlinked⟩ := detach_spec h hplive hc
    simp only [hparent, if_neg (h.ne_zero hplive), hdetach, bind_eq_bind, bind_some,
      freeNode_eq fs1 (h.ne_zero hnlive)] at hrun
    obtain ⟨fs2, hfree, hret⟩ := bind_eq_some_iff.mp hrun
    obtain ⟨heap, -, rfl⟩ := map_eq_some_iff.mp hfree
    cases hret
    refine .inr ⟨h.ne_root hplive hc, rfl, p, hp, hc, ?_, ?_, ?_, ?_, ?_⟩
    · change fs1.root = fs.root
      rw [hframe]
    · change fs1.cwd = fs.cwd
      rw [hframe]
    · simp only [setNode_nodes, if_pos]
      exact (congrArg (fun d : Node => { d with refcount := d.refcount - 1 }) (hdata n) :)
    · intro m hm
      simp only [setNode_nodes, if_neg hm]
      exact hdata m
    · refine hlinked.congr fun m _ => ?_
      simp only [setNode_nodes]
      split_ifs <;> exact ⟨rfl, rfl, rfl⟩

end Remove

section Taken

variable {fs fs' : Fs} {live : List Nat} {kids : Kids} {p n : Nat}
  (ht : Taken fs live kids p n fs')

include ht

theorem Taken.name (m : Nat) : (fs'.nodes m).name = (fs.nodes m).name := by
  by_cases hm : m = n
  · rw [hm]
    exact (congrArg Node.name ht.self :)
  · exact (congrArg Node.name (ht.others m hm) :)

theorem Taken.up_eq (m : Nat) : up fs'.nodes m = up fs.nodes m := by
  apply up_congr
  by_cases hm : m = n
  · rw [hm]
    exact (congrArg Node.parent ht.self :)
  · exact (congrArg Node.parent (ht.others m hm) :)

theorem Taken.named_some (hc : c ≠ n) (hfind : named fs.nodes kids m t = some c) :
    named fs'.nodes (update kids p ((kids p).erase n)) m t = some c := by
  unfold named at hfind ⊢
  simp only [ht.name]
  by_cases hm : m = p
  · rw [hm] at hfind ⊢
    rw [update_self]
    exact find?_erase_of_ne hfind hc
  · rwa [update_of_ne hm]

theorem Taken.named_none (hfind : named fs.nodes kids m t = none) :
    named fs'.nodes (update kids p ((kids p).erase n)) m t = none := by
  rw [Tmpfs.named_none] at hfind ⊢
  intro c hc
  rw [ht.name]
  exact hfind c ((erase_sublist kids p n m).subset hc)

variable (h : Linked fs.nodes fs.root live kids)

include h

theorem Taken.resolveLoop_eq {curr : Nat} (hcurr : Reached fs.root kids curr)
    {ts : Names} (hn : n ∉ walk fs.nodes curr ts) :
    resolveLoop fs'.nodes curr ts = resolveLoop fs.nodes curr ts := by
  obtain ⟨x, hx, -⟩ := resolveLoop_spec h hcurr ts
  rw [hx]
  refine h.resolveLoop_along (P := fun m => m ∈ live ∧ m ≠ n) ht.linked
    (fun m hm => ⟨hm.1, hm.1⟩) (fun m _ => ht.up_eq m)
    (fun m t c _ hc => ht.named_some hc.2) (fun _ m t _ => ht.named_none) ?_ hx
  intro m hm
  exact ⟨h.reached_mem (h.walk_reached hcurr ts m hm), fun heq => hn (heq ▸ hm)⟩

theorem Taken.resolvePath_eq (hcwd : Reached fs.root kids fs.cwd) {q : Path}
    (hn : n ∉ visited fs q) : resolvePath fs' q = resolvePath fs q := by
  cases q with
  | none => rfl
  | some s =>
    have hcwd0 := h.ne_zero (h.reached_mem hcwd)
    have hstart : startOf fs' fs.cwd s = startOf fs fs.cwd s := startOf_congr ht.root fs.cwd s
    simp only [visited, if_neg hcwd0] at hn
    rw [resolvePath_some hcwd0, resolvePath_some (ht.cwd ▸ hcwd0), ht.cwd, hstart]
    exact ht.resolveLoop_eq h (startOf_reached hcwd s) hn

theorem Taken.resolveLoop_gone (hunique : ((kids p).map fun c => (fs.nodes c).name).Nodup)
    {curr : Nat} (hcurr : Reached fs.root kids curr) {ts : Names} (hts : ts ≠ [])
    (hdot : dot ∉ ts) (hdotdot : dotdot ∉ ts) (hn : resolveLoop fs.nodes curr ts = some n) :
    resolveLoop fs'.nodes curr ts = some 0 := by
  have hn0 : n ≠ 0 := h.ne_zero (h.reached_mem (.child ht.parent ht.child))
  obtain ⟨us, t, rfl⟩ : ∃ us t, ts = us ++ [t] := by
    rcases eq_nil_or_concat ts with rfl | ⟨us, t, rfl⟩
    · exact absurd rfl hts
    · exact ⟨us, t, concat_eq_append⟩
  simp only [mem_append, mem_singleton, not_or] at hdot hdotdot
  obtain ⟨m, hm, hmr, hfind⟩ :=
    h.resolveLoop_last hcurr (Ne.symm hdot.2) (Ne.symm hdotdot.2) hn hn0
  obtain ⟨hmem, hname⟩ := Tmpfs.named_some hfind
  have hmlive := h.reached_mem hmr
  obtain rfl : m = p := by
    rw [← (h.child m hmlive n hmem).2, (h.child p (h.reached_mem ht.parent) n ht.child).2]
  -- The walk to the parent goes on as before, since the node is below.
  have hsame : resolveLoop fs'.nodes curr us = some m := by
    rw [ht.resolveLoop_eq h hcurr, hm]
    intro hwalk
    exact h.not_below hmr hmem
      (h.walk_above (h.reached_mem hcurr) hdot.1 hdotdot.1 hm (h.ne_zero hmlive) n hwalk)
  have hnone : named fs'.nodes (update kids m ((kids m).erase n)) m t = none := by
    rw [Tmpfs.named_none, update_self]
    intro c hc heq
    have hnodup := (h.chain m hmlive).nodup
    rw [hnodup.mem_erase_iff] at hc
    rw [ht.name, ← hname] at heq
    exact hc.1 (inj_on_of_nodup_map hunique hc.2 hmem heq)
  rw [ht.linked.resolveLoop_snoc hsame hmlive (Ne.symm hdot.2) (Ne.symm hdotdot.2), hnone]
  rfl

end Taken

/-! ## The calls -/

/-- The node `n` at `path`, and no other, is not found any more. -/
structure Removes (fs : Fs) (live : List Nat) (kids : Kids) (path : Path) (n : Nat)
    (fs' : Fs) : Prop where
  found : resolvePath fs path = some n ∧ n ≠ 0 ∧ n ≠ fs.root
  taken : Taken fs live kids (fs.nodes n).parent n fs'
  others : ∀ q, n ∉ visited fs q → resolvePath fs' q = resolvePath fs q
  gone : ∀ s, path = some s → tokens s ≠ [] → dot ∉ tokens s → dotdot ∉ tokens s →
    resolvePath fs' path = some 0

section Calls

variable {fs : Fs} {live : List Nat} {kids : Kids}
  (h : Linked fs.nodes fs.root live kids) (hcwd : Reached fs.root kids fs.cwd)

include h hcwd

theorem taken_of_run {path : Path} {refused : Nat → Prop} [DecidablePred refused]
    (hrun : ((resolvePath fs path).bind fun n =>
      if n = 0 ∨ refused n then some (-1, fs) else remove fs n) = some (r, fs')) :
    ∃ n, resolvePath fs path = some n ∧
      ((n = 0 ∨ n = fs.root ∨ refused n) ∧ r = -1 ∧ fs' = fs ∨
        n ≠ 0 ∧ n ≠ fs.root ∧ ¬ refused n ∧ r = 0 ∧
          Taken fs live kids (fs.nodes n).parent n fs') := by
  obtain ⟨n, hres, hn⟩ := h.resolvePathInternal_cases hcwd path
  change resolvePath fs path = some n at hres
  rw [hres, bind_some] at hrun
  refine ⟨n, hres, ?_⟩
  by_cases hbad : n = 0 ∨ refused n
  · rw [if_pos hbad] at hrun
    cases hrun
    exact .inl ⟨hbad.imp_right Or.inr, rfl, rfl⟩
  rw [if_neg hbad] at hrun
  rw [not_or] at hbad
  rcases remove_taken h (hn.resolve_left hbad.1) hrun with ⟨hroot, hr⟩ | ⟨hroot, hr, p, ht⟩
  · exact .inl ⟨.inr (Or.inl hroot), hr⟩
  · have hparent := (h.child p (h.reached_mem ht.parent) n ht.child).2
    exact .inr ⟨hbad.1, hroot, hbad.2, hr, hparent.symm ▸ ht⟩

variable (hunique : ∀ m, Reached fs.root kids m → ((kids m).map fun c => (fs.nodes c).name).Nodup)

include hunique

theorem removes_of_taken {path : Path} (hres : resolvePath fs path = some n) (hn0 : n ≠ 0)
    (hroot : n ≠ fs.root) (ht : Taken fs live kids (fs.nodes n).parent n fs') :
    Removes fs live kids path n fs' := by
  refine ⟨⟨hres, hn0, hroot⟩, ht, fun q => ht.resolvePath_eq h hcwd, ?_⟩
  rintro s rfl hne hdot hdotdot
  have hcwd0 := h.ne_zero (h.reached_mem hcwd)
  have hstart : startOf fs' fs.cwd s = startOf fs fs.cwd s := startOf_congr ht.root fs.cwd s
  rw [resolvePath_some hcwd0] at hres
  rw [resolvePath_some (ht.cwd ▸ hcwd0), ht.cwd, hstart]
  exact ht.resolveLoop_gone h (hunique _ ht.parent) (startOf_reached hcwd s) hne hdot hdotdot hres

/-- A call that returns 0 removes one node, and one that does not returns -1 and changes nothing. -/
theorem removal_exact (path : Path) (r : Int) (fs' : Fs) :
    (unlink fs path = some (r, fs') → r = -1 ∧ fs' = fs ∨
      r = 0 ∧ ∃ n, (fs.nodes n).isDir = false ∧ Removes fs live kids path n fs') ∧
    (rmdir fs path = some (r, fs') → r = -1 ∧ fs' = fs ∨
      r = 0 ∧ ∃ n, (fs.nodes n).isDir = true ∧ kids n = [] ∧ Removes fs live kids path n fs') := by
  constructor
  · intro hrun
    obtain ⟨n, hres, ⟨-, hr⟩ | ⟨hn0, hroot, hfile, hr, ht⟩⟩ := taken_of_run h hcwd hrun
    · exact .inl hr
    · right
      exact ⟨hr, n, by simpa using hfile, removes_of_taken h hcwd hunique hres hn0 hroot ht⟩
  · intro hrun
    obtain ⟨n, hres, ⟨-, hr⟩ | ⟨hn0, hroot, hdir, hr, ht⟩⟩ := taken_of_run h hcwd hrun
    · exact .inl hr
    · right
      rw [not_or, not_not, Bool.not_eq_false] at hdir
      have hempty := (h.chain n (h.reached_mem (.child ht.parent ht.child))).null_iff.mp hdir.2
      exact ⟨hr, n, hdir.1, hempty, removes_of_taken h hcwd hunique hres hn0 hroot ht⟩

end Calls

/-! ## A file that is open -/

theorem Held.unlink_file {foreign : List Nat} {fs : Fs} {bs : List Blk} {live : List Nat}
    (h : Held foreign fs bs live kids) {p : Nat} {path : Path} (hres : resolvePath fs path = some n)
    (hp : Reached fs.root kids p) (hn : n ∈ kids p) (hfile : (fs.nodes n).isDir = false) :
    ∃ fs', Tmpfs.unlink fs path = some (0, fs') := by
  obtain ⟨fs', -, -, hremove, -⟩ := remove_child (R := Rules.none) h.sane h.backed h.sized hp hn
  refine ⟨fs', ?_⟩
  unfold Tmpfs.unlink
  simp [hres, h.ne_zero (.child hp hn), hfile, hremove]

theorem blank_file_unlinked :
    ∃ (fs1 : Fs) (i : Fin 256) (c : Nat) (fs2 : Fs) (bs : List Blk) (fs3 : Fs),
      initialise blank = some fs1 ∧
      StartedAtOneMib fs1 ∧
      Tmpfs.open fs1 slashF oCreat 0o644 none = some ((i : Int), fs2) ∧
      Held [] fs2 bs [c, fs2.root] (grown (fun _ => []) fs2.root c) ∧ c ≠ fs2.root ∧
      (fs2.nodes c).name = [0x66] ∧ (fs2.nodes c).isDir = false ∧
      resolvePath fs2 slashF = some c ∧
      unlink fs2 slashF = some (0, fs3) := by
  obtain ⟨fs1, i, c, fs2, bs, hinit, hstart, -, hopen, h, hc, hname, hfile, -, -, -, hi, -⟩ :=
    blank_file (t := [0x66]) (by decide) (by decide) (by decide)
  have hres : resolvePath fs2 slashF = some c :=
    resolve_only h (by decide) (by decide) (by decide) hname (h.ne_zero h.cwd)
  obtain ⟨fs3, hunlink⟩ := h.unlink_file hres .root (mem_grown_self _ _ _) hfile
  exact ⟨fs1, i, c, fs2, bs, fs3, hinit, hstart, hopen, h, hc, hname, hfile, hres, hunlink⟩

theorem removal_exact_file :
    ∃ fs1 fs2 fs3 i, initialise blank = some fs1 ∧
      Tmpfs.open fs1 slashF oCreat 0o644 none = some (i, fs2) ∧
      unlink fs2 slashF = some (0, fs3) ∧
      resolvePath fs3 slashF = some 0 := by
  obtain ⟨fs1, i, c, fs2, bs, fs3, hinit, -, hopen, h, -, hname, -, -, hunlink⟩ := blank_file_unlinked
  have hl := h.linked
  have hunique := (wellNamed_only hl (by rw [hname]; decide)).unique
  refine ⟨fs1, fs2, fs3, i, hinit, hopen, hunlink, ?_⟩
  rcases (removal_exact hl h.cwd hunique _ _ _).1 hunlink with ⟨hr, -⟩ | ⟨-, n, -, hremoves⟩
  · exact absurd hr (by decide)
  · exact hremoves.gone _ rfl (by decide) (by decide) (by decide)

/-! ## A path that is cut -/

theorem Linked.resolveLoop_back {nodes : Nat → Node} {root : Nat} {live : List Nat}
    (h : Linked nodes root live kids) (hm : m ∈ live) (h1 : t ≠ dot) (h2 : t ≠ dotdot)
    (hc : named nodes kids m t = some c) : resolveLoop nodes m [t, dotdot] = some m := by
  rw [h.resolveLoop_step hm h1 h2, hc]
  have hparent := (h.child m hm c (named_some hc).1).2
  simp only [resolveLoop_cons, if_neg (by decide : ¬ dotdot = dot), if_pos]
  unfold up
  rw [hparent, if_pos (h.ne_zero hm)]
  rfl

/-- A name, 508 slashes and a name that starts with two dots. Only the dots are read of it. -/
def cutAtDots : Bytes := 0x67 :: (replicate 508 slash ++ [0x2E, 0x2E, 0x63])

theorem tokens_cutAtDots : tokens cutAtDots = [[0x67], dotdot] := by decide +kernel

theorem components_cutAtDots : components cutAtDots = [[0x67], [0x2E, 0x2E, 0x63]] := by
  decide +kernel

/-- A file with a child is the working directory. The path leads down to the child and up again. -/
theorem unlink_cut_path :
    ∃ fs1 fs2 fs3 fs4 fs5 i j, initialise blank = some fs1 ∧
      Tmpfs.open fs1 slashF oCreat 0o644 none = some (i, fs2) ∧
      Tmpfs.open fs2 (some [slash, 0x66, slash, 0x67]) oCreat 0o644 none = some (j, fs3) ∧
      chdir fs3 slashF = some (0, fs4) ∧
      components cutAtDots ≠ [] ∧ dot ∉ components cutAtDots ∧ dotdot ∉ components cutAtDots ∧
      unlink fs4 (some cutAtDots) = some (0, fs5) ∧ resolvePath fs5 (some cutAtDots) ≠ some 0 := by
  obtain ⟨fs1, fs2, fs3, i, j, c, d, bs, live, kids, hinit, hopen, hopen2, h, hroot, hc, hcwd,
    hcname, hdname, hfile, hi⟩ := blank_file_child
  have hl := h.linked
  have hmem : c ∈ kids fs3.root := by simp [hroot]
  have hreached : Reached fs3.root kids c := .child .root hmem
  have hclive := hl.reached_mem hreached
  have hdown : named fs3.nodes kids c [0x67] = some d := by
    unfold named
    rw [hc, find?_cons_of_pos (by simp [hdname])]
  have hfound : resolvePath fs3 slashF = some c := by
    rw [resolvePath_walk _ hcwd (h.ne_zero .root)]
    refine (resolveLoop_found hl hl.root_mem (by decide) (by decide) ?_ []).trans rfl
    rw [hroot, find?_cons_of_pos (by simp [hcname])]
  have hchdir : chdir fs3 slashF = some (0, { fs3 with cwd := c }) := by
    unfold chdir
    rw [hfound]
    simp [hl.ne_zero hclive]
  have hres : resolvePath { fs3 with cwd := c } (some cutAtDots) = some c := by
    rw [@resolvePath_some { fs3 with cwd := c } (hl.ne_zero hclive), tokens_cutAtDots]
    exact hl.resolveLoop_back hclive (by decide) (by decide) hdown
  have h4 := h.goTo hreached
  obtain ⟨fs5, hunlink⟩ := h4.unlink_file hres .root hmem hfile
  refine ⟨fs1, fs2, fs3, _, fs5, i, j, hinit, hopen, hopen2, hchdir, ?_, ?_, ?_, hunlink, ?_⟩
  · rw [components_cutAtDots]
    decide
  · rw [components_cutAtDots]
    decide
  · rw [components_cutAtDots]
    decide
  · obtain ⟨n, hn, ⟨-, hr, -⟩ | ⟨-, -, -, -, ht⟩⟩ := taken_of_run h4.linked h4.cwd hunlink
    · exact absurd hr (by decide)
    obtain rfl : n = c := some.inj (hn.symm.trans hres)
    have hdn : d ≠ n := by
      rintro rfl
      exact hl.not_below hreached (by simp [hc]) .root
    have hcwd5 : fs5.cwd = n := ht.cwd
    have hback :=
      ht.linked.resolveLoop_back hclive (by decide) (by decide) (ht.named_some hdn hdown)
    rw [resolvePath_some (hcwd5 ▸ hl.ne_zero hclive), tokens_cutAtDots, hcwd5]
    change resolveLoop fs5.nodes n _ ≠ _
    rw [hback]
    exact fun h0 => hl.ne_zero hclive (some.inj h0)

end Terrakernel.Tmpfs
