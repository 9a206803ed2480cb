import Terrakernel.Tmpfs.Ops

/-!
# The working directory, and what has children

Both hold in every run that keeps away from a few calls.
-/

namespace Terrakernel.Tmpfs

open Memory Vmm Links Heap

variable {foreign : List Nat} {fs : Fs} {bs : List Blk} {kids : Kids} {n : Nat}

/-! ## The working directory -/

def IsDir (fs : Fs) (n : Nat) : Prop := (fs.nodes n).isDir = true

/-- The working directory has not been released, is a directory, and is in the tree. -/
structure CwdValid (fs : Fs) : Prop where
  block : HasBlock fs.heap fs.cwd nodeSize
  isDir : IsDir fs fs.cwd
  inTree : InTree fs fs.cwd

/-- Only directories are entered. -/
def enterDirs : Rules := ⟨fun _ _ _ => True, fun S n => S.isDir n = true⟩

theorem Held.hasBlock {live : List Nat} (h : Held foreign fs bs live kids) (hn : n ∈ live) :
    HasBlock fs.heap n nodeSize := by
  obtain ⟨b, hb, hptr, hused, hlen⟩ := h.sized n hn
  exact (h.sane.owns.sound.rep.hasBlock_iff n nodeSize).mpr ⟨b, hb, hused, hptr, hlen⟩

/-- No other block in use reaches into the record of a node. -/
theorem Held.record_apart {live : List Nat} {p k : Nat} (h : Held foreign fs bs live kids)
    (hn : n ∈ live) (hp : HasBlock fs.heap p k) (hne : n ≠ p) : n + nodeSize ≤ p ∨ p + k ≤ n :=
  h.sane.owns.sound.rep.blocks_apart (h.hasBlock hn) hp hne

theorem follows_true (R : Rules) (hR : ∀ S curr token, R.add S curr token) :
    Follows (fun _ _ _ => True) R := fun _ _ _ _ _ _ _ _ => hR _ _ _

theorem makes_true (fs : Fs) (op : Op) : op.Makes (fun _ _ _ => True) fs :=
  makes_of_components (fun _ _ _ _ _ => trivial) fun _ _ _ => trivial

theorem enters_true (fs : Fs) (op : Op) : op.Enters (fun _ _ => True) fs := by
  cases op with
  | chdir path => exact fun _ _ _ => trivial
  | _ => exact trivial

section Runs

variable {σ : Type} {reserveHeap : Nat → σ → Nat × σ} {m : Mem} {s : σ} {fs1 fs2 : Fs}
  {ops : List Op}

/-- The working directory stays valid while only directories are entered and no call removes it,
clears it or cuts it off. -/
theorem cwd_valid_of_run (hstart : Started reserveHeap m s fs1)
    (hrun : OpRun (fun fs op => op.Safe fs ∧ op.Enters IsDir fs) fs1 ops fs2) : CwdValid fs2 := by
  obtain ⟨foreign, bs, h, hcwd, hdir, -⟩ := hstart.held
  obtain ⟨foreign2, bs2, live2, kids2, h2, hsteps⟩ :=
    hrun.moves (R := enterDirs) (D := IsDir) (follows_true _ fun _ _ _ => trivial)
      (fun _ _ _ _ hD => hD) (fun fs op hop => ⟨hop.1, makes_true fs op, hop.2⟩) h
  refine ⟨h2.hasBlock (h2.linked.reached_mem h2.cwd), ?_,
    (h2.linked.inTree_iff _).mpr h2.cwd⟩
  have hfirst : (shape fs1 [fs1.root] fun _ => []).isDir (shape fs1 [fs1.root] fun _ => []).cwd =
      true := by
    change (fs1.nodes fs1.cwd).isDir = true
    rw [hcwd]
    exact hdir
  exact hsteps.cwd (fun _ _ hR => hR) h.rooted hfirst

end Runs

theorem cwd_valid_of_run_dirs :
    ∃ fs1 fs2 fs3 fs4 fs5, initialise blank = some fs1 ∧
      mkdir fs1 (some [slash, 0x61]) 0o755 = some (0, fs2) ∧
      chdir fs2 (some [slash, 0x61]) = some (0, fs3) ∧
      mkdir fs3 (some [0x62]) 0o755 = some (0, fs4) ∧ rmdir fs4 (some [0x62]) = some (0, fs5) ∧
      OpRun (fun fs op => op.Safe fs ∧ op.Enters IsDir fs) fs1 [.mkdir (some [slash, 0x61]) 0o755,
        .chdir (some [slash, 0x61]), .mkdir (some [0x62]) 0o755, .rmdir (some [0x62])] fs5 ∧
      CwdValid fs5 := by
  obtain ⟨fs1, bs1, hinit, hstart, h1, hcwd1, -, -, hroom1⟩ := blank_started
  obtain ⟨a, fs2, foreign2, bs2, hclear1, hmkdir1, ha, haname, hadir, hroot2, -, -, -, h2, hroom2⟩ :=
    mkdir_new h1 (p := [slash, 0x61]) (t := [0x61]) (by decide) (by decide) (by decide)
      (fun c hc => absurd hc List.not_mem_nil) (u := 0x1000) (by decide) (hroom1.mono (by decide)) 0o755
  have hlive2 : Held foreign2 fs2 bs2 [a, fs2.root] (grown (fun _ => []) fs2.root a) := hroot2 ▸ h2
  have hres1 : resolvePath fs2 (some [slash, 0x61]) = some a :=
    resolve_only hlive2 (by decide) (by decide) (by decide) haname (hlive2.ne_zero hlive2.cwd)
  have ha0 := hlive2.linked.ne_zero List.mem_cons_self
  have hchdir : chdir fs2 (some [slash, 0x61]) = some (0, { fs2 with cwd := a }) := by
    simp only [chdir, hres1, Option.bind_eq_bind, Option.bind_some, if_neg ha0]
    rfl
  have h3 := hlive2.goTo (.child .root (mem_grown_self _ _ a))
  have hbare : grown (fun _ => []) fs2.root a a = [] := grown_new (hroot2 ▸ by simpa using ha)
  obtain ⟨b, fs4, foreign4, bs4, hclear2, hmkdir2, hb, hbname, hbdir, -, hcwd4, -, -, h4, -⟩ :=
    mkdir_new h3 (p := [0x62]) (t := [0x62]) (by decide) (by decide) (by decide)
      (fun c hc => absurd (hbare ▸ hc) List.not_mem_nil) (u := 0x100) (by decide)
      (hroom2.mono (by decide)) 0o755
  replace hcwd4 : fs4.cwd = a := hcwd4
  replace h4 : Held foreign4 fs4 bs4 [b, a, fs2.root] (grown (grown (fun _ => []) fs2.root a) a b) := h4
  have hl4 := h4.linked
  have hba : b ≠ a := fun heq => hb (heq ▸ List.mem_cons_self)
  have hlist : grown (grown (fun _ => []) fs2.root a) a b a = [b] := by
    rw [grown_curr, hbare, List.nil_append]
  have hempty : grown (grown (fun _ => []) fs2.root a) a b b = [] := grown_new hba
  have hres2 : resolvePath fs4 (some [0x62]) = some b := by
    rw [resolvePath_some (h4.ne_zero h4.cwd), show startOf fs4 fs4.cwd [0x62] = a from hcwd4]
    refine resolveLoop_found hl4 (by simp) (by decide) (by decide) ?_ []
    rw [hlist]
    exact List.find?_cons_of_pos (by simp [hbname])
  obtain ⟨fs5, -, -, hremove, -⟩ := remove_child (R := Rules.none) (n := b) h4.sane h4.backed h4.sized
    (hcwd4 ▸ h4.cwd) (by rw [hlist]; exact List.mem_cons_self)
  have hrmdir : rmdir fs4 (some [0x62]) = some (0, fs5) := by
    have hfirst := (hl4.chain b (by simp)).null_iff.mpr hempty
    have hb0 : b ≠ 0 := hl4.ne_zero List.mem_cons_self
    unfold rmdir
    rw [hres2, Option.bind_eq_bind, Option.bind_some, if_neg (by simp [hb0, hbdir, hfirst]), hremove]
  have hrun : OpRun (fun fs op => op.Safe fs ∧ op.Enters IsDir fs) fs1
      [.mkdir (some [slash, 0x61]) 0o755, .chdir (some [slash, 0x61]), .mkdir (some [0x62]) 0o755,
        .rmdir (some [0x62])] fs5 := by
    refine .cons ⟨hclear1, trivial⟩ hmkdir1 (.cons ⟨trivial, ?_⟩ hchdir
      (.cons ⟨hclear2, trivial⟩ hmkdir2 (.cons ⟨?_, trivial⟩ hrmdir (.nil fs5))))
    · rintro n - (hn | ⟨hn, -⟩)
      · obtain rfl := Option.some.inj (hn.symm.trans hres1)
        exact hadir
      · cases hn
    · intro n hn _ _ _ hbelow
      obtain rfl := Option.some.inj (hn.symm.trans hres2)
      rw [hl4.below_iff (by simp), reached_bare hempty, hcwd4] at hbelow
      exact hba hbelow.symm
  exact ⟨fs1, fs2, _, fs4, fs5, hinit, hmkdir1, hchdir, hmkdir2, hrmdir, hrun,
    cwd_valid_of_run hstart hrun⟩

/-- A file becomes the working directory. -/
theorem cwd_invalid_after_chdir :
    ∃ fs1 fs2, initialise blank = some fs1 ∧
      OpRun (fun _ _ => True) fs1
        [.open slashF oCreat 0o644 none, .chdir slashF] fs2 ∧
      ¬ CwdValid fs2 := by
  obtain ⟨fs1, i, c, fs2, bs2, hinit, -, -, hopen, h, -, hname, hdir, hcwd, -, -⟩ :=
    blank_file (t := [0x66]) (by decide) (by decide) (by decide)
  have hroot := h.ne_zero .root
  have hc0 : c ≠ 0 := h.linked.ne_zero List.mem_cons_self
  have hres : resolvePath fs2 slashF = some c :=
    resolve_only h (by decide) (by decide) (by decide) hname (hcwd ▸ hroot)
  refine ⟨fs1, { fs2 with cwd := c }, hinit, .cons trivial hopen (.cons trivial (r := 0) ?_ (.nil _)),
    fun hvalid => ?_⟩
  · rw [Op.exec, Tmpfs.chdir]
    simp only [hres, Option.bind_eq_bind, Option.bind_some, if_neg hc0]
    rfl
  · have := hvalid.isDir
    change (fs2.nodes c).isDir = true at this
    rw [hdir] at this
    exact absurd this (by decide)

/-! ## What has children -/

/-- Only directories have children, among the nodes that are in the tree or open. So what `unlink`
removes has none. -/
structure OnlyDirs (fs : Fs) : Prop where
  children : ∀ n, n ≠ 0 → 0 < holders fs n → (fs.nodes n).firstChild ≠ 0 → IsDir fs n
  unlinked : ∀ path n, resolvePath fs path = some n → n ≠ 0 → ¬ IsDir fs n →
    (fs.nodes n).firstChild = 0

/-- Children are made in directories. -/
def addInDirs : Rules := ⟨fun S curr _ => S.isDir curr = true, fun _ _ => True⟩

theorem Held.mem_of_holders {live : List Nat} (h : Held foreign fs bs live kids) (h0 : n ≠ 0)
    (hheld : 0 < holders fs n) : n ∈ live := by
  unfold holders at hheld
  split_ifs at hheld with htree
  · exact h.linked.reached_mem ((h.linked.inTree_iff n).mp htree)
  · rw [Nat.zero_add, opens_pos_iff] at hheld
    obtain ⟨i, rfl⟩ := hheld
    exact h.sane.table.node i h0

section Runs

variable {σ : Type} {reserveHeap : Nat → σ → Nat × σ} {m : Mem} {s : σ} {fs1 fs2 : Fs}
  {ops : List Op}

/-- Only directories have children where each child is made in one. -/
theorem onlyDirs_of_run (hstart : Started reserveHeap m s fs1)
    (hrun : OpRun (fun fs op => op.Safe fs ∧ op.Makes (fun fs curr _ => IsDir fs curr) fs) fs1 ops
      fs2) : OnlyDirs fs2 := by
  obtain ⟨foreign, bs, h, -, -⟩ := hstart.held
  obtain ⟨foreign2, bs2, live2, kids2, h2, hsteps⟩ :=
    hrun.moves (R := addInDirs) (D := fun _ _ => True) (fun _ _ _ _ _ _ _ hdir => hdir)
      (fun _ _ _ _ _ => trivial) (fun fs op hop => ⟨hop.1, hop.2, enters_true fs op⟩) h
  have hdirs : (shape fs2 live2 kids2).Dirs :=
    hsteps.dirs (fun _ _ _ hR => hR) fun _ _ hne => absurd rfl hne
  have hchildren : ∀ n ∈ live2, (fs2.nodes n).firstChild ≠ 0 → IsDir fs2 n := by
    intro n hn hfirst
    refine hdirs n hn ?_
    intro h0
    exact hfirst ((h2.linked.chain n hn).null_iff.mpr h0)
  refine ⟨fun n h0 hheld => hchildren n (h2.mem_of_holders h0 hheld), ?_⟩
  intro path n hres h0 hfile
  obtain ⟨n', hres', hn⟩ := resolvePathInternal_cases h2.sane h2.cwd path
  obtain rfl : n' = n := Option.some.inj (hres'.symm.trans hres)
  by_contra hfirst
  exact hfile (hchildren n' (h2.linked.reached_mem (hn.resolve_left h0)) hfirst)

end Runs

theorem onlyDirs_of_run_file :
    ∃ fs1 fs2, initialise blank = some fs1 ∧
      OpRun (fun fs op => op.Safe fs ∧ op.Makes (fun fs curr _ => IsDir fs curr) fs) fs1
        [.open slashF oCreat 0o644 none] fs2 ∧ OnlyDirs fs2 := by
  obtain ⟨fs1, i, c, fs2, bs2, hinit, hstart, hdir, hopen, -⟩ :=
    blank_file (t := [0x66]) (by decide) (by decide) (by decide)
  have hmakes : (Op.open slashF oCreat 0o644 none).Makes
      (fun fs curr _ => IsDir fs curr) fs1 := by
    rintro - - p hp
    obtain rfl := Option.some.inj hp
    have htok : tokens [slash, 0x66] = [[0x66]] := by decide
    rw [htok, MakesIn, if_neg (by decide), if_neg (by decide)]
    exact fun child _ => ⟨fun _ => trivial, fun _ => ⟨hdir, fun _ _ _ _ => trivial⟩⟩
  have hrun : OpRun (fun fs op => op.Safe fs ∧ op.Makes (fun fs curr _ => IsDir fs curr) fs) fs1
      [.open slashF oCreat 0o644 none] fs2 :=
    .cons ⟨trivial, hmakes⟩ hopen (.nil _)
  exact ⟨fs1, fs2, hinit, hrun, onlyDirs_of_run hstart hrun⟩

theorem blank_file_child :
    ∃ (fs1 fs2 fs3 : Fs) (i j : Fin 256) (c d : Nat) (bs : List Blk) (live : List Nat)
        (kids : Kids), initialise blank = some fs1 ∧
      Tmpfs.open fs1 slashF oCreat 0o644 none = some ((i : Int), fs2) ∧
      Tmpfs.open fs2 (some [slash, 0x66, slash, 0x67]) oCreat 0o644 none = some ((j : Int), fs3) ∧
      Held [] fs3 bs live kids ∧ kids fs3.root = [c] ∧ kids c = [d] ∧ fs3.cwd = fs3.root ∧
      (fs3.nodes c).name = [0x66] ∧ (fs3.nodes d).name = [0x67] ∧ (fs3.nodes c).isDir = false ∧
      (fs3.fds i).node = c := by
  obtain ⟨fs1, i, c, fs2, bs2, hinit, -, -, hopen, h, hc, hname, hdir, hcwd, hfree, hroom, hi, -⟩ :=
    blank_file (t := [0x66]) (by decide) (by decide) (by decide)
  have hroot := h.ne_zero .root
  have hclive : c ∈ [c, fs2.root] := List.mem_cons_self
  have hc0 : c ≠ 0 := h.linked.ne_zero hclive
  have hfound := resolveLoop_only h (by rw [hname]; decide) (by rw [hname]; decide)
  rw [hname] at hfound
  have htok : tokens [slash, 0x66, slash, 0x67] = [[0x66]] ++ [[0x67]] := by decide
  have hno : resolvePath fs2 (some [slash, 0x66, slash, 0x67]) = some 0 := by
    rw [resolvePath_some (hcwd ▸ hroot), htok]
    refine (resolveLoop_append [[0x67]] hfound hc0).trans ?_
    rw [resolveLoop_cons, if_neg (by decide), if_neg (by decide), findChild_spec h.linked hclive,
      grown_new hc]
    rfl
  obtain ⟨j, d, fs3, bs3, hopen2, hdnot, hj, hnew, -, hext, h3, -⟩ :=
    open_new h oCreat (by decide) (by decide) htok hfound hc0 hno hfree (u := 0x100) (by decide)
      (hroom.mono (by decide)) 0o644
  have hroot3 : (opened fs3 j d oCreat 0o644).root = fs2.root := by
    change fs3.root = fs2.root
    rw [hext.frame]
  have hcd : c ≠ d := fun heq => hdnot (heq ▸ hclive)
  -- The entry of the first file is not free, so the second one gets another.
  have hij : i ≠ j := by
    rintro rfl
    exact hc0 (hi.symm.trans (h.sane.table.free i hj))
  have hcdata := (hext.old c hclive).2
  refine ⟨fs1, fs2, opened fs3 j d oCreat 0o644, i, j, c, d, bs3, _, _, hinit, hopen, hopen2, h3,
    ?_, ?_, ?_, ?_, ?_, ?_, ?_⟩
  · have hrd : fs2.root ≠ d := fun heq => hdnot (heq ▸ List.mem_cons_of_mem _ List.mem_cons_self)
    rw [hroot3, grown_of_ne (Ne.symm hc) hrd, grown_curr]
    rfl
  · rw [grown_curr, grown_new hc]
    rfl
  · rw [hroot3, ← hcwd]
    change fs3.cwd = fs2.cwd
    rw [hext.frame]
  · rw [opened_nodes, if_neg hcd]
    exact (congrArg Node.name hcdata :).trans hname
  · rw [opened_nodes, if_pos rfl]
    exact (congrArg Node.name hnew :)
  · rw [opened_nodes, if_neg hcd]
    exact (congrArg Node.isDir hcdata :).trans hdir
  · rw [opened_fds, Function.update_of_ne hij, hext.frame]
    exact hi

/-- A file gets a child. -/
theorem file_with_child :
    ∃ fs1 fs2, initialise blank = some fs1 ∧
      OpRun (fun _ _ => True) fs1 [.open slashF oCreat 0o644 none,
        .open (some [slash, 0x66, slash, 0x67]) oCreat 0o644 none] fs2 ∧ ¬ OnlyDirs fs2 := by
  obtain ⟨fs1, fs2, fs3, i, j, c, d, bs, live, kids, hinit, hopen, hopen2, h, hroot, hc, -, -, -,
    hfile, -⟩ := blank_file_child
  refine ⟨fs1, fs3, hinit, .cons trivial hopen (.cons trivial hopen2 (.nil _)), fun honly => ?_⟩
  have hl := h.linked
  have hreached : Reached fs3.root kids c := .child .root (by simp [hroot])
  have hclive := hl.reached_mem hreached
  have hfirst : (fs3.nodes c).firstChild ≠ 0 := by
    rw [Ne, (hl.chain c hclive).null_iff, hc]
    simp
  have := honly.children c (hl.ne_zero hclive) ((hl.inTree_iff c).mpr hreached).holders_pos hfirst
  rw [IsDir, hfile] at this
  exact absurd this (by decide)

end Terrakernel.Tmpfs
