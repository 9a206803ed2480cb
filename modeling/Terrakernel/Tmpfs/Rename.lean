import Terrakernel.Tmpfs.Names
import Terrakernel.Tmpfs.Removal

/-!
# `rename`

The name is the first field of the node's block, and `rename` frees it before it writes the new one.
-/

namespace Terrakernel.Tmpfs

open Memory Vmm Links Heap Option

/-- Each node of the tree has its block, and no later `malloc` returns a part of it. -/
structure NodesKept (fs : Fs) : Prop where
  block : ∀ n, InTree fs n → HasBlock fs.heap n nodeSize
  apart : ∀ size p heap, fs.heap.malloc size = some (p, heap) → p ≠ 0 →
    ∀ n, InTree fs n → p + size ≤ n ∨ n + nodeSize ≤ p

/-- `unlink` removes the file at the path from the tree, and that is `x` or above it. -/
def TakesOut (fs : Fs) (path : Path) (x : Nat) : Prop :=
  ∃ m, resolvePath fs path = some m ∧ m ≠ 0 ∧ m ≠ fs.root ∧ (fs.nodes m).isDir = false ∧ Below fs m x

theorem Linked.setName {fs : Fs} {root : Nat} {live : List Nat} {kids : Kids}
    (h : Linked fs.nodes root live kids) (n : Nat) (name : Bytes) :
    Linked (fs.setNode n fun n => { n with name }).nodes root live kids := by
  refine h.congr fun m _ => ?_
  rw [setNode_nodes]
  split_ifs <;> exact ⟨rfl, rfl, rfl⟩

section Rename

variable {foreign : List Nat} {fs fs' : Fs} {bs : List Blk} {live : List Nat}
  {kids : Kids} {oldpath newpath : Path} (h : Held foreign fs bs live kids)

include h

theorem unlink_keeps {r : Int} {fs1 : Fs} {path : Path} (hrun : unlink fs path = some (r, fs1)) :
    ∃ bs1 live1 kids1 gone, Sane foreign fs1 bs1 live1 kids1 ∧ Sized bs1 live1 ∧
      fs1.root = fs.root ∧
      (∀ x, Reached fs.root kids1 x ↔ Reached fs.root kids x ∧ ¬ TakesOut fs path x) ∧
      Keeps gone fs.heap bs fs1.heap bs1 ∧ ∀ g ∈ gone, ∃ m ∈ live, resolvePath fs path = some m ∧
        (g = (fs.nodes m).content ∨ g = m) := by
  obtain ⟨n, hres, hn⟩ := resolvePathInternal_cases h.sane h.cwd path
  replace hres : resolvePath fs path = some n := hres
  have hl := h.linked
  have htakes : ∀ x, TakesOut fs path x ↔
      n ≠ 0 ∧ n ≠ fs.root ∧ (fs.nodes n).isDir = false ∧ Below fs n x := by
    intro x
    simp only [TakesOut, hres, some.injEq, exists_eq_left']
  by_cases hsame : fs1 = fs ∧ ∀ x, ¬ TakesOut fs path x
  · obtain ⟨rfl, hnone⟩ := hsame
    exact ⟨bs, live, kids, [], h.sane, h.sized, rfl, fun x => (and_iff_left (hnone x)).symm,
      .refl h.sane.owns.sound, fun _ hg => absurd hg List.not_mem_nil⟩
  unfold Tmpfs.unlink at hrun
  simp only [hres, bind_eq_bind, bind_some] at hrun
  by_cases hbad : n = 0 ∨ (fs.nodes n).isDir = true
  · simp only [if_pos hbad, some.injEq, Prod.mk.injEq] at hrun
    refine absurd ⟨hrun.2.symm, fun x hx => ?_⟩ hsame
    obtain ⟨h0, -, hdir, -⟩ := (htakes x).mp hx
    simp [h0, hdir] at hbad
  rw [if_neg hbad] at hrun
  rw [not_or, Bool.not_eq_true] at hbad
  have hreached := hn.resolve_left hbad.1
  have hnlive := hl.reached_mem hreached
  rcases remove_cases (R := Rules.none) h.sane h.backed h.sized hreached hrun with
    ⟨hroot, heq⟩ | ⟨p, bs1, live1, _, hp, hc, rfl, hroot, hs1, -, hz1, hk, -⟩
  · exact absurd ⟨heq, fun x hx => ((htakes x).mp hx).2.1 hroot⟩ hsame
  · refine ⟨bs1, live1, _, _, hs1, hz1, hroot, fun x => ?_, hk, fun g hg => ?_⟩
    · have hne := hl.ne_root (hl.reached_mem hp) hc
      rw [hl.reached_erase (hl.reached_mem hp) hc, htakes, hl.below_iff hnlive]
      simp [hbad, hne]
    · exact ⟨n, hnlive, hres, by simpa using hg⟩

theorem rename_cases (hrun : rename fs oldpath newpath = some (0, fs')) :
    ∃ n bs' live' kids', resolvePath fs oldpath = some n ∧ n ≠ 0 ∧ Reached fs.root kids n ∧
      Sound fs'.heap bs' ∧ n ∉ used bs' ∧ Linked fs'.nodes fs'.root live' kids' ∧
      (∀ m ∈ live', m ≠ n → ∃ b ∈ bs', b.ptr = m ∧ b.free = false ∧ nodeSize ≤ b.len) ∧
      ∀ x, Reached fs'.root kids' x ↔ Reached fs.root kids x ∧ ¬ TakesOut fs newpath x := by
  obtain ⟨n, hres, hn⟩ := resolvePathInternal_cases h.sane h.cwd oldpath
  replace hres : resolvePath fs oldpath = some n := hres
  unfold Tmpfs.rename at hrun
  simp only [hres, bind_eq_bind, bind_some] at hrun
  by_cases h0 : n = 0
  · rw [if_pos h0, some.injEq, Prod.mk.injEq] at hrun
    exact absurd hrun.1 (by decide)
  rw [if_neg h0] at hrun
  obtain ⟨⟨r, fs1⟩, hunlink, hrun⟩ := bind_eq_some_iff.mp hrun
  obtain ⟨bs1, live1, kids1, -, hs1, hz1, hroot, hreach, -⟩ := unlink_keeps h hunlink
  cases newpath with
  | none => exact absurd hrun (by simp)
  | some p =>
    obtain ⟨heap, hfree, hk, -⟩ := free_keeps hs1.owns.sound n
    simp only [hfree, bind_some, some.injEq, Prod.mk.injEq, true_and] at hrun
    subst hrun
    refine ⟨n, freed n bs1, live1, kids1, hres, h0, hn.resolve_left h0, hk.sound, ?_,
      hs1.linked.setName n _, ?_, fun x => ?_⟩
    · rw [used_freed]
      simp
    · intro m hm hmn
      obtain ⟨b, hb, hptr, hused, hlen⟩ := hz1 m hm
      exact ⟨b, hk.blocks b hb hused (by rw [hptr]; simpa using hmn), hptr, hused, hlen⟩
    · exact hroot ▸ hreach x

omit h in
theorem malloc_apart {heap heap' : Heap} {b : Blk} {size p : Nat} (hs : Sound heap bs) (hb : b ∈ bs)
    (hused : b.free = false) (hm : heap.malloc size = some (p, heap')) (hp : p ≠ 0) :
    p + size ≤ b.ptr ∨ b.ptr + b.len ≤ p := by
  obtain ⟨q, heap1, bs1, hm1, hk, hcases⟩ := malloc_cases hs size
  rw [hm, some.injEq, Prod.mk.injEq] at hm1
  obtain ⟨rfl, rfl⟩ := hm1
  rcases hcases with ⟨h0, -⟩ | ⟨-, -, hperm, ⟨c, hc, hcp, hcf, hcn⟩, -⟩
  · exact absurd h0 hp
  have hrep := hk.sound.rep
  refine hrep.blocks_apart ((hrep.hasBlock_iff p size).mpr ⟨c, hc, hcf, hcp, hcn⟩) ((hrep.hasBlock_ptr
    (hk.blocks b hb hused List.not_mem_nil) hused b.len).mpr le_rfl) ?_
  rintro rfl
  have hnodup := hperm.nodup_iff.mp hrep.fits.used_nodup
  exact (List.nodup_cons.mp hnodup).1 (mem_used.mpr ⟨b, hb, hused, rfl⟩)

theorem rename_nodesKept (hrun : rename fs oldpath newpath = some (0, fs')) :
    ∃ n, resolvePath fs oldpath = some n ∧ n ≠ 0 ∧ (NodesKept fs' ↔ TakesOut fs newpath n) := by
  obtain ⟨n, bs', live', kids', hres, h0, hn, hs, hnot, hl, hblocks, hreach⟩ := rename_cases h hrun
  have htree : InTree fs' n ↔ ¬ TakesOut fs newpath n := by
    rw [hl.inTree_iff, hreach n, and_iff_right hn]
  refine ⟨n, hres, h0, ?_, ?_⟩
  · intro hkept
    by_contra hout
    obtain ⟨b, hb, hused, hptr, -⟩ :=
      (hs.rep.hasBlock_iff n nodeSize).mp (hkept.block n (htree.mpr hout))
    exact hnot (mem_used.mpr ⟨b, hb, hused, hptr⟩)
  · intro hout
    have hall : ∀ m, InTree fs' m → ∃ b ∈ bs', b.ptr = m ∧ b.free = false ∧ nodeSize ≤ b.len := by
      intro m hm
      refine hblocks m (hl.reached_mem ((hl.inTree_iff m).mp hm)) ?_
      rintro rfl
      exact htree.mp hm hout
    refine ⟨?_, ?_⟩
    · intro m hm
      obtain ⟨b, hb, hptr, hused, hlen⟩ := hall m hm
      exact (hs.rep.hasBlock_iff m nodeSize).mpr ⟨b, hb, hused, hptr, hlen⟩
    · intro size p heap hmalloc hp m hm
      obtain ⟨b, hb, rfl, hused, hlen⟩ := hall m hm
      have := malloc_apart hs hb hused hmalloc hp
      omega

end Rename

section Runs

variable {σ : Type} {reserveHeap : Nat → σ → Nat × σ} {m : Mem} {s : σ} {fs1 fs2 fs3 : Fs}
  {ops : List Op}

/-- From every state that a run reaches: a successful `rename` keeps the blocks of the tree exactly
when the new path is that of the node itself, or of a file above it, and is removed first. -/
theorem rename_keeps_iff (hstart : Started reserveHeap m s fs1)
    (hrun : OpRun (fun fs op => op.Safe fs) fs1 ops fs2) {oldpath newpath : Path}
    (hrename : rename fs2 oldpath newpath = some (0, fs3)) :
    ∃ n, resolvePath fs2 oldpath = some n ∧ n ≠ 0 ∧ (NodesKept fs3 ↔ TakesOut fs2 newpath n) := by
  obtain ⟨foreign, bs, h, -, -⟩ := hstart.held
  obtain ⟨foreign2, bs2, live2, kids2, h2, -⟩ :=
    hrun.moves (R := Rules.none) (D := fun _ _ => True) (follows_true _ fun _ _ _ => trivial)
      (fun _ _ _ _ _ => trivial) (fun fs op hop => ⟨hop, makes_true fs op, enters_true fs op⟩) h
  exact rename_nodesKept h2 hrename

end Runs

theorem renamed_file :
    ∃ fs1 fs2 fs3 c bs, initialise blank = some fs1 ∧
      StartedAtOneMib fs1 ∧
      OpRun (fun fs op => op.Safe fs) fs1 [.open slashF oCreat 0o644 none] fs2 ∧
      Held [] fs2 bs [c, fs2.root] (grown (fun _ => []) fs2.root c) ∧
      resolvePath fs2 slashF = some c ∧
      resolvePath fs2 slashG = some 0 ∧
      rename fs2 slashF slashG = some (0, fs3) ∧
      (fs2.nodes c).name = [0x66] ∧ c ≠ fs2.root ∧ fs2.cwd = fs2.root := by
  obtain ⟨fs1, i, c, fs2, bs, hinit, hstart, -, hopen, h, hc, hname, -, hcwd, -, -⟩ :=
    blank_file (t := [0x66]) (by decide) (by decide) (by decide)
  have hroot := h.ne_zero .root
  have hc0 : c ≠ 0 := h.linked.ne_zero List.mem_cons_self
  have hold : resolvePath fs2 slashF = some c :=
    resolve_only h (by decide) (by decide) (by decide) hname (hcwd ▸ hroot)
  have hnew : resolvePath fs2 slashG = some 0 := by
    refine resolve_missing h.linked (by decide) (by decide) (by decide) ?_ (hcwd ▸ hroot)
    rw [grown_curr]
    simp [hname]
  obtain ⟨heap, hfree, -⟩ := free_keeps h.sane.owns.sound c
  obtain ⟨fs3, hrename⟩ : ∃ fs3,
      rename fs2 slashF slashG = some (0, fs3) := by
    unfold Tmpfs.rename Tmpfs.unlink
    simp only [hold, hnew, bind_eq_bind, bind_some, if_neg hc0, true_or, if_true,
      hfree]
    exact ⟨_, rfl⟩
  exact ⟨fs1, fs2, fs3, c, bs, hinit, hstart, .cons trivial hopen (.nil _), h, hold, hnew, hrename,
    hname, hc, hcwd⟩

theorem renamed_self :
    ∃ fs1 fs2 fs3 heap c bs, initialise blank = some fs1 ∧
      StartedAtOneMib fs1 ∧
      OpRun (fun fs op => op.Safe fs) fs1 [.open slashF oCreat 0o644 none] fs2 ∧
      Held [] fs2 bs [c, fs2.root] (grown (fun _ => []) fs2.root c) ∧
      c ≠ fs2.root ∧ (fs2.nodes c).isDir = false ∧ resolvePath fs2 slashF = some c ∧
      unlink fs2 slashF = some (0, fs3) ∧
      rename fs2 slashF slashF =
        some (0, Fs.setNode { fs3 with heap } c fun n => { n with name := [0x66] }) := by
  obtain ⟨fs1, i, c, fs2, bs, fs3, hinit, hstart, hopen, h, hc, -, hfile, hres, hunlink⟩ :=
    blank_file_unlinked
  have hc0 : c ≠ 0 := h.linked.ne_zero List.mem_cons_self
  obtain ⟨bs3, live3, kids3, -, hs3, -⟩ := unlink_keeps h hunlink
  obtain ⟨heap, hfree, -⟩ := free_keeps hs3.owns.sound c
  refine ⟨fs1, fs2, fs3, heap, c, bs, hinit, hstart, .cons trivial hopen (.nil _), h, hc, hfile, hres,
    hunlink, ?_⟩
  unfold rename
  simp only [hres, hc0, hunlink, hfree, bind_eq_bind, bind_some, if_false]
  rfl

/-- A file under its own name: it is removed, and the tree is as good as before. -/
theorem rename_keeps_iff_self :
    ∃ fs1 fs2 fs3, initialise blank = some fs1 ∧
      OpRun (fun fs op => op.Safe fs) fs1 [.open slashF oCreat 0o644 none] fs2 ∧
      rename fs2 slashF slashF = some (0, fs3) ∧ NodesKept fs3 := by
  obtain ⟨fs1, fs2, fs3, heap, c, bs, hinit, hstart, hrun, h, hc, hfile, hres, -, hrename⟩ :=
    renamed_self
  obtain ⟨n, hn, hn0, hiff⟩ := rename_keeps_iff hstart hrun hrename
  obtain rfl : c = n := some.inj (hres.symm.trans hn)
  exact ⟨fs1, fs2, _, hinit, hrun, hrename, hiff.mpr ⟨c, hres, hn0, hc, hfile, .root⟩⟩

/-- The file is still in the tree, and its block is not its own. -/
theorem rename_loses_block :
    ∃ fs1 fs2 fs3, initialise blank = some fs1 ∧
      OpRun (fun fs op => op.Safe fs) fs1 [.open slashF oCreat 0o644 none] fs2 ∧
      rename fs2 slashF slashG = some (0, fs3) ∧ ¬ NodesKept fs3 := by
  obtain ⟨fs1, fs2, fs3, c, bs, hinit, -, hrun, h, hold, hnew, hrename, -⟩ := renamed_file
  obtain ⟨n, -, -, hiff⟩ := rename_nodesKept h hrename
  refine ⟨fs1, fs2, fs3, hinit, hrun, hrename, fun hkept => ?_⟩
  obtain ⟨m, hm, h0, -⟩ := hiff.mp hkept
  exact h0 (some.inj (hm.symm.trans hnew))

end Terrakernel.Tmpfs
