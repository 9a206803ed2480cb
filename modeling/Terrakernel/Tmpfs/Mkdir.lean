import Terrakernel.Tmpfs.Session
import Terrakernel.Tmpfs.Walkers

/-!
# What `mkdir` leaves of the tree

`mkdir` clears the links, the bytes and the size of the node that its walk ends at, new or old.
-/

namespace Terrakernel.Tmpfs

open Memory Vmm Links Heap List Option

variable {d depth n r curr c p : Nat} {l : List Nat} {token : Bytes}

/-! ## What is left -/

/-- The same name, place, kind and bytes. -/
structure SameNode (a b : Node) : Prop where
  name : b.name = a.name
  parent : b.parent = a.parent
  isDir : b.isDir = a.isDir
  content : b.content = a.content
  size : b.size = a.size

/-- Every node of the tree is in it still, with its children in the same order. -/
def Undisturbed (fs : Fs) (kids : Kids) (fs' : Fs) : Prop :=
  ∃ live' kids', Linked fs'.nodes fs'.root live' kids' ∧ ∀ n, Reached fs.root kids n →
    Reached fs'.root kids' n ∧ (kids n).Sublist (kids' n) ∧ SameNode (fs.nodes n) (fs'.nodes n)

/-- A directory with nothing in it, in its list or behind it there. -/
structure Bare (fs : Fs) (n : Nat) : Prop where
  isDir : (fs.nodes n).isDir = true
  firstChild : (fs.nodes n).firstChild = 0
  nextSibling : n ≠ fs.root → (fs.nodes n).nextSibling = 0
  content : (fs.nodes n).content = 0
  size : (fs.nodes n).size = 0

theorem sameNode_of_data {a b : Node} (h : b.data = a.data) : SameNode a b :=
  ⟨(congrArg Node.name h :), (congrArg Node.parent h :), (congrArg Node.isDir h :),
    (congrArg Node.content h :), (congrArg Node.size h :)⟩

theorem nil_of_sublist_last {x : Nat} {a : List Nat} (hnodup : (a ++ [x]).Nodup)
    (hsub : (x :: l).Sublist (a ++ [x])) : l = [] := by
  obtain ⟨l1, l2, heq, h1, h2⟩ := sublist_append_iff.mp hsub
  have hxa : x ∉ a := fun hx => (nodup_append.mp hnodup).2.2 x hx x mem_cons_self rfl
  cases l1 with
  | nil =>
    rw [nil_append] at heq
    rw [← heq] at h2
    simpa using h2.length_le
  | cons y ys =>
    obtain rfl : x = y := (cons_eq_cons.mp heq).1
    exact absurd (h1.subset mem_cons_self) hxa

section Wipe

variable {fs fs1 : Fs} {bs bs1 : List Blk} {live live1 : List Nat} {kids kids1 : Kids}
  (h : Linked fs.nodes fs.root live kids) (h1 : Linked fs1.nodes fs1.root live1 kids1)
  (hb : Built Rules.none fs bs live kids fs1 bs1 live1 kids1)

include h in
theorem last_of_nextSibling (hp : p ∈ live) {r : List Nat} (hk : kids p = l ++ n :: r) :
    (fs.nodes n).nextSibling = 0 ↔ r = [] := by
  have hchain := h.chain p hp
  rw [hk] at hchain
  exact hchain.after.null_iff

include h hb

theorem isPrefix_cut (hbare : r ∈ live → Bare fs r) (hn : n ∈ live) :
    kids n <+: cut kids1 p r n := by
  obtain ⟨l, hk, -⟩ := hb.old n hn
  unfold cut
  by_cases hnr : n = r
  · have hnil : kids n = [] := (h.chain n hn).null_iff.mp (hnr ▸ (hbare (hnr ▸ hn)).firstChild)
    rw [hnil]
    exact nil_prefix
  rw [Function.update_of_ne hnr]
  by_cases hnp : n = p
  · subst hnp
    rw [Function.update_self, hk]
    by_cases hr : r ∈ kids n
    · obtain ⟨l1, l2, hsplit⟩ := append_of_mem hr
      have hlast := (last_of_nextSibling h hn hsplit).mp
        ((hbare (h.child n hn r hr).1).nextSibling (h.ne_root hn hr))
      have hnodup := (h.chain n hn).nodup
      rw [hsplit, hlast, nodup_append] at hnodup
      have hl1 : r ∉ l1 := fun hmem => hnodup.2.2 r hmem r mem_cons_self rfl
      rw [hsplit, hlast, append_assoc, singleton_append, upTo_append l hl1]
    · rw [upTo_append_of_not_mem l hr]
      exact prefix_append _ _
  · rw [Function.update_of_ne hnp, hk]
    exact prefix_append _ _

include h1

theorem undisturbed_of_bare (hr : Reached fs1.root kids1 r) (mode : Nat)
    (hbare : r ∈ live → Bare fs r) : Undisturbed fs kids (fs1.setNode r (wiped mode)) := by
  obtain ⟨p, hp⟩ := childOf_of_reached h1 hr
  refine ⟨live1, cut kids1 p r, h1.wipe hp mode, fun n hn => ?_⟩
  have hold := h.reached_mem hn
  refine ⟨?_, (isPrefix_cut h hb hbare hold).sublist, ?_⟩
  · change Reached fs1.root _ n
    rw [hb.root]
    exact hn.mono fun m hm c hc => (isPrefix_cut h hb hbare (h.reached_mem hm)).subset hc
  · have hsame := sameNode_of_data (hb.ext.old n hold).2
    rw [setNode_nodes]
    split_ifs with hnr
    · subst hnr
      have hb' := hbare hold
      exact ⟨hsame.name, hsame.parent, hb'.isDir.symm, hb'.content.symm, hb'.size.symm⟩
    · exact hsame

theorem bare_of_undisturbed {mode : Nat} (hr : Reached fs1.root kids1 r) (hold : r ∈ live)
    (hkept : Undisturbed fs kids (fs1.setNode r (wiped mode))) : Bare fs r := by
  obtain ⟨live', kids', hl', hkept⟩ := hkept
  have hwiped : (fs1.setNode r (wiped mode)).nodes r = wiped mode (fs1.nodes r) := by
    rw [setNode_nodes, if_pos rfl]
  have hreached := hb.reached_old h1 hr hold
  obtain ⟨hr', hsub, hsame⟩ := hkept r hreached
  rw [hwiped] at hsame
  refine ⟨hsame.isDir.symm, ?_, ?_, hsame.content.symm, hsame.size.symm⟩
  · have hnil : kids' r = [] := by
      apply (hl'.chain r (hl'.reached_mem hr')).null_iff.mp
      rw [hwiped]
      rfl
    rw [hnil, sublist_nil] at hsub
    exact (h.chain r hold).null_iff.mpr hsub
  · intro hroot
    cases hreached with
    | root => exact absurd rfl hroot
    | @child p _ hp hk =>
      obtain ⟨l, l', hsplit⟩ := append_of_mem hk
      have hplive := h.reached_mem hp
      rw [last_of_nextSibling h hplive hsplit]
      -- In the new list the node is the last one.
      obtain ⟨hp', hsubp, -⟩ := hkept p hp
      have hk' : r ∈ kids' p := hsubp.subset hk
      obtain ⟨a, b, hsplit'⟩ := append_of_mem hk'
      have hlast : b = [] := by
        rw [← last_of_nextSibling hl' (hl'.reached_mem hp') hsplit', hwiped]
        rfl
      have hnodup := (hl'.chain p (hl'.reached_mem hp')).nodup
      rw [hsplit', hlast] at hnodup
      rw [hsplit', hlast, hsplit] at hsubp
      exact nil_of_sublist_last hnodup ((sublist_append_right l _).trans hsubp)

end Wipe

/-- The path leads to nothing old but a bare directory. -/
def EndsBare (fs : Fs) (path : Path) : Prop :=
  ∀ p, path = some p → p ≠ [] →
    ∀ d, walkEnd fs.nodes (startOf fs fs.cwd p) 0 (tokens p) = some (d, 0) → Bare fs d

/-- When `mkdir` leaves the nodes of the tree alone. It fails only on no path at all. -/
theorem mkdir_undisturbed_iff {foreign : List Nat} {fs fs' : Fs} {bs : List Blk} {live : List Nat}
    {kids : Kids} (h : Sane foreign fs bs live kids) (hcwd : Reached fs.root kids fs.cwd)
    {path : Path} {mode : Nat} {r : Int} (hrun : mkdir fs path mode = some (r, fs'))
    (hserved : failures fs'.heap = failures fs.heap) :
    ((r = 0 → Undisturbed fs kids fs') ∧ (r = -1 → fs' = fs)) ↔ EndsBare fs path := by
  rw [mkdir_eq, mkdirFrom] at hrun
  by_cases hpath : ∃ p, path = some p ∧ p ≠ []
  · obtain ⟨p, rfl, hp⟩ := hpath
    have hstart := startOf_reached hcwd p
    obtain ⟨n, fs1, bs1, live1, kids1, hwalk, h1, hb, hn⟩ := createLoop_end h true mode
      (tokens p) h (.refl h.owns.sound) hstart .old hstart
    have hcwd0 := h.linked.ne_zero (h.linked.reached_mem hcwd)
    simp only [createAtPathInternal_some hcwd0 hp, hwalk, map_some,
      some.injEq] at hrun
    rcases hn with ⟨rfl, hfail⟩ | ⟨hn, d, depth, hend, hd, hat⟩
    · rw [if_pos rfl] at hrun
      cases hrun
      exact absurd hserved (Nat.ne_of_gt hfail)
    rw [if_neg (h1.linked.ne_zero (h1.linked.reached_mem hn))] at hrun
    cases hrun
    simp only [forall_const, reduceCtorEq, false_imp_iff, and_true]
    constructor
    · intro hkept p' hp' _ d' hend'
      obtain rfl := some.inj hp'
      rw [hend] at hend'
      cases hend'
      obtain rfl := hat.eq_old
      exact bare_of_undisturbed h.linked h1.linked hb hn (h.linked.reached_mem hd) hkept
    · intro hbare
      refine undisturbed_of_bare h.linked h1.linked hb hn mode fun hold => ?_
      rcases Nat.eq_zero_or_pos depth with rfl | hpos
      · obtain rfl := hat.eq_old
        exact hbare p rfl hp n hend
      · exact absurd hold (hat.not_mem hpos)
  · rw [createAtPathInternal_nothing hpath, map_some, if_pos rfl] at hrun
    cases hrun
    refine iff_of_true ⟨fun h0 => absurd h0 (by decide), fun _ => rfl⟩ ?_
    exact fun p hp hne => absurd ⟨p, hp, hne⟩ hpath

theorem mkdir_undisturbed_iff_beside :
    ∃ (fs1 fs2 fs3 : Fs) (i : Fin 256) (c : Nat), initialise blank = some fs1 ∧
      Tmpfs.open fs1 slashF oCreat 0o644 none = some ((i : Int), fs2) ∧
      Reached fs2.root (grown (fun _ => []) fs2.root c) c ∧
      mkdir fs2 (some [slash, 0x64]) 0o755 = some (0, fs3) ∧
      Undisturbed fs2 (grown (fun _ => []) fs2.root c) fs3 := by
  obtain ⟨fs1, i, c, fs2, bs2, hinit, -, -, hopen, h, -, hname, -, -, -, hroom, -⟩ :=
    blank_file (t := [0x66]) (by decide) (by decide) (by decide)
  have hno : ∀ n ∈ grown (fun _ => []) fs2.root c fs2.root, (fs2.nodes n).name ≠ [0x64] := by
    rw [grown_curr]
    simp [hname]
  obtain ⟨-, fs3, -, -, -, hrun, -, -, -, -, -, -, hserved, -⟩ :=
    mkdir_new h (p := [slash, 0x64]) (t := [0x64]) (by decide) (by decide) (by decide) hno
      (u := 0x100) (by decide) (hroom.mono (by decide)) 0o755
  refine ⟨fs1, fs2, fs3, i, c, hinit, hopen, .child .root (mem_grown_self _ _ c), hrun, ?_⟩
  refine ((mkdir_undisturbed_iff h.sane h.cwd hrun hserved).mpr ?_).1 rfl
  rintro p ⟨⟩ - d hend
  exact absurd hend (walkEnd_new h h.linked.root_mem (by decide) (by decide) hno d)

/-- The root as a new directory: its file is lost. -/
theorem mkdir_root_loses :
    ∃ (fs1 fs2 fs3 : Fs) (i : Fin 256) (c : Nat), initialise blank = some fs1 ∧
      Tmpfs.open fs1 slashF oCreat 0o644 none = some ((i : Int), fs2) ∧
      mkdir fs2 (some [slash]) 0o755 = some (0, fs3) ∧ fs3.heap = fs2.heap ∧
      ¬ Undisturbed fs2 (grown (fun _ => []) fs2.root c) fs3 := by
  obtain ⟨fs1, i, c, fs2, bs2, hinit, -, -, hopen, h, -, -, -, hcwd, -⟩ :=
    blank_file (t := [0x66]) (by decide) (by decide) (by decide)
  have hl := h.linked
  have hroot := hl.ne_zero hl.root_mem
  have hrun : mkdir fs2 (some [slash]) 0o755 = some (0, fs2.setNode fs2.root (wiped 0o755)) := by
    rw [mkdir_walk hcwd hroot (by decide), show tokens [slash] = [] by decide]
    simp [createLoop, hroot]
  refine ⟨fs1, fs2, _, i, c, hinit, hopen, hrun, rfl, fun hkept => ?_⟩
  have hbare := bare_of_undisturbed hl hl (.refl h.sane.owns.sound) .root hl.root_mem hkept
  have hnil := (hl.chain fs2.root hl.root_mem).null_iff.mp hbare.firstChild
  rw [grown_curr] at hnil
  simp at hnil

end Terrakernel.Tmpfs
