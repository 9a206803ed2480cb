import Terrakernel.Tmpfs.Strings
import Terrakernel.Tmpfs.TreeRuns

/-!
# Names

The name that a walk stores is cut to 127 bytes, and a link's name is not looked for. Where neither
matters, no node has two children with the same name.
-/

namespace Terrakernel.Tmpfs

open Memory Vmm Links Heap Option
open List hiding Chain Mem

/-- No component of a path is cut. -/
def ShortPath (path : Path) : Prop := ∀ p, path = some p → ∀ t ∈ tokens p, t.length ≤ 127

/-- No new name is cut, and a link's name is not that of another child. -/
def Op.Short (fs : Fs) (op : Op) : Prop :=
  (∀ t ∈ op.components, t.length ≤ 127) ∧ ∀ target l, op = .symlink target (some l) →
    findChild fs.nodes (baseName l) (fs.nodes fs.cwd).firstChild = some 0

/-- The children of a node that is in the tree or open have different names, and opening a path a
second time is opening the same node. -/
structure UniqueNames (fs : Fs) : Prop where
  siblings : ∀ n xs, n ≠ 0 → 0 < holders fs n →
    Chain (sibling fs.nodes) (fs.nodes n).firstChild xs →
    (xs.map fun c => (fs.nodes c).name).Nodup
  reopened : ∀ path flags flags' mode mode' devpath devpath' r r' fs' fs'', ShortPath path →
    Tmpfs.open fs path flags mode devpath = some (r, fs') → 0 ≤ r →
    Tmpfs.open fs' path flags' mode' devpath' = some (r', fs'') → 0 ≤ r' →
    ∃ i j : Fin 256, r = i ∧ r' = j ∧ (fs''.fds i).node ≠ 0 ∧ (fs''.fds i).node = (fs''.fds j).node

/-! ## Opening a path again -/

theorem resolveLoop_congr {nodes nodes' : Nat → Node}
    (h : ∀ m, (nodes' m).name = (nodes m).name ∧ (nodes' m).parent = (nodes m).parent ∧
      (nodes' m).firstChild = (nodes m).firstChild ∧
      (nodes' m).nextSibling = (nodes m).nextSibling) (curr : Nat) (ts : Names) :
    resolveLoop nodes' curr ts = resolveLoop nodes curr ts := by
  have hnext : (fun n => (nodes' n).nextSibling) = fun n => (nodes n).nextSibling :=
    funext fun m => (h m).2.2.2
  have hfind : ∀ token child, findChild nodes' token child = findChild nodes token child := by
    intro token child
    unfold findChild
    simp only [hnext, fun m => (h m).1]
  have hup : ∀ m, up nodes' m = up nodes m := fun m => up_congr (h m).2.1
  induction ts generalizing curr with
  | nil => rfl
  | cons t ts ih =>
    rw [resolveLoop_cons, resolveLoop_cons, hup, hfind, (h curr).2.2.1]
    simp only [ih]

theorem resolvePathInternal_congr {fs fs' : Fs} (hroot : fs'.root = fs.root)
    (h : ∀ m, (fs'.nodes m).name = (fs.nodes m).name ∧ (fs'.nodes m).parent = (fs.nodes m).parent ∧
      (fs'.nodes m).firstChild = (fs.nodes m).firstChild ∧
      (fs'.nodes m).nextSibling = (fs.nodes m).nextSibling) (base : Nat) (path : Path) :
    resolvePathInternal fs' base path = resolvePathInternal fs base path := by
  unfold resolvePathInternal
  cases path with
  | none => rfl
  | some p =>
    simp only
    rw [resolveLoop_congr h, startOf_congr hroot]

theorem openNode_returns {foreign : List Nat} {fs fs' : Fs} {bs : List Blk} {live : List Nat}
    {kids : Kids} {r : Int} (h : Sane foreign fs bs live kids) {n : Nat} (hn : n ∈ live)
    {flags : BitVec 32} {mode : Nat} (hrun : openNode fs n flags mode = (r, fs')) (hr : 0 ≤ r) :
    ∃ i : Fin 256, r = i ∧ (fs.fds i).node = 0 ∧ fs' = opened fs i n flags mode := by
  rcases openNode_cases h hn flags mode with he | ⟨i, hi, he⟩
  · rw [he, Prod.mk.injEq] at hrun
    omega
  · rw [he, Prod.mk.injEq] at hrun
    exact ⟨i, hrun.1.symm, hi, hrun.2.symm⟩

section Opened

variable {foreign : List Nat} {fs fs' : Fs} {bs : List Blk} {live : List Nat}
  {kids : Kids} {r : Int} {path : Path} (h : Held foreign fs bs live kids)

include h

theorem open_spec {flags : BitVec 32} {mode : Nat} {devpath : Path}
    (hrun : Tmpfs.open fs path flags mode devpath = some (r, fs')) (hr : 0 ≤ r) :
    ∃ (i : Fin 256) (n : Nat) (fs1 : Fs) (bs1 : List Blk) (live1 : List Nat)
      (kids1 : Kids) (b : Bool) (d : Bytes), r = i ∧
      fs' = opened (fs1.setNode n fun m => { m with isdev := b, devpath := d }) i n flags mode ∧
      (fs1.fds i).node = 0 ∧ Reached fs1.root kids1 n ∧ Held foreign fs1 bs1 live1 kids1 ∧
      Built Rules.none fs bs live kids fs1 bs1 live1 kids1 ∧ Grown fs bs live fs1 bs1 live1 ∧
      (ShortPath path → resolvePath fs1 path = some n) ∧
      ∀ m ≠ 0, resolvePath fs path = some m → n = m := by
  have hnew : Follows (fun _ _ _ => True) Rules.none := follows_true _ fun _ _ _ => trivial
  rw [open_eq] at hrun
  unfold openFrom at hrun
  by_cases hp : path = none
  · rw [if_pos hp, some.injEq, Prod.mk.injEq] at hrun
    omega
  rw [if_neg hp] at hrun
  obtain ⟨n, hres, hn⟩ := resolvePathInternal_cases h.sane h.cwd path
  rw [hres, bind_some] at hrun
  by_cases hcreate : n = 0 ∧ flags &&& oCreat ≠ 0
  · rw [if_pos hcreate] at hrun
    have hmakes : MakesAt (fun _ _ _ => True) false mode fs fs.cwd path :=
      fun p _ => makesIn_of_forall false mode (fun _ _ _ _ _ => trivial) _ _
    obtain ⟨c, fs1, bs1, live1, kids1, hmake, hs, hb, hg, hc, hfound⟩ :=
      createAtPathInternal_built hnew h.sane h.cwd hmakes
    have h1 := h.built hs hb
    rw [hmake, bind_some] at hrun
    by_cases h0 : c = 0
    · simp only [if_pos h0, some.injEq, Prod.mk.injEq] at hrun
      omega
    simp only [if_neg h0] at hrun
    obtain ⟨fs2, hdev, heq⟩ := map_eq_some_iff.mp hrun
    obtain ⟨b, d, rfl⟩ := makeDevice_cases hdev
    have h2 := h1.setNode (n := c) (f := fun n => { n with isdev := b, devpath := d })
      ⟨rfl, rfl, rfl, rfl⟩ rfl
    have hcr := hc.resolve_left h0
    obtain ⟨i, hri, hi, hfs'⟩ := openNode_returns h2.sane (h1.linked.reached_mem hcr) heq hr
    have hcwd : fs1.cwd = fs.cwd := by rw [hb.ext.frame]
    refine ⟨i, c, fs1, bs1, live1, kids1, b, d, hri, hfs', hi, hcr, h1, hb, hg, ?_, ?_⟩
    · intro hshort
      rw [resolvePath, hcwd]
      exact hfound h0 hshort
    · intro m hm hresm
      exact absurd (some.inj (hresm.symm.trans hres)) (hcreate.1 ▸ hm)
  · rw [if_neg hcreate, some.injEq] at hrun
    by_cases h0 : n = 0
    · rw [h0, Tmpfs.openNode, if_pos rfl, Prod.mk.injEq] at hrun
      omega
    have hnr := hn.resolve_left h0
    obtain ⟨i, hri, hi, hfs'⟩ :=
      openNode_returns h.sane (h.linked.reached_mem hnr) hrun hr
    refine ⟨i, n, fs, bs, live, kids, (fs.nodes n).isdev, (fs.nodes n).devpath, hri, ?_, hi, hnr, h,
      .refl h.sane.owns.sound, .refl h.sane.owns.sound live, fun _ => hres,
      fun m _ hm => some.inj (hres.symm.trans hm)⟩
    rw [hfs', Fs.setNode, Function.update_eq_self]

theorem open_found {flags : BitVec 32} {mode : Nat} {devpath : Path} (hshort : ShortPath path)
    (hrun : Tmpfs.open fs path flags mode devpath = some (r, fs')) (hr : 0 ≤ r) :
    ∃ (i : Fin 256) (foreign' : List Nat) (bs' : List Blk) (live' : List Nat)
      (kids' : Kids), r = i ∧ (fs'.fds i).node ≠ 0 ∧ (fs.fds i).node = 0 ∧
      (∀ j ≠ i, fs'.fds j = fs.fds j) ∧ resolvePath fs' path = some (fs'.fds i).node ∧
      (∀ n ≠ 0, resolvePath fs path = some n → (fs'.fds i).node = n) ∧
      Held foreign' fs' bs' live' kids' := by
  obtain ⟨i, n, fs1, bs1, live1, kids1, b, d, hri, hfs', hi, hn, h1, hb, -, hres, hsame⟩ :=
    open_spec h hrun hr
  have h2 := h1.setNode (n := n) (f := fun n => { n with isdev := b, devpath := d })
    ⟨rfl, rfl, rfl, rfl⟩ rfl
  have hlinks : ∀ m, (fs'.nodes m).name = (fs1.nodes m).name ∧
      (fs'.nodes m).parent = (fs1.nodes m).parent ∧
      (fs'.nodes m).firstChild = (fs1.nodes m).firstChild ∧
      (fs'.nodes m).nextSibling = (fs1.nodes m).nextSibling := by
    intro m
    rw [hfs', opened_nodes, setNode_nodes]
    split_ifs <;> exact ⟨rfl, rfl, rfl, rfl⟩
  have h' := h2.opened (h1.linked.reached_mem hn) hi flags mode
  have hnode : (fs'.fds i).node = n := by
    rw [hfs', opened_fds, Function.update_self]
  have hbase : fs'.root = fs1.root ∧ fs'.cwd = fs1.cwd := by
    rw [hfs']
    exact ⟨rfl, rfl⟩
  rw [← hfs'] at h'
  have hframe : fs1.fds = fs.fds := by rw [hb.ext.frame]
  refine ⟨i, foreign, bs1, live1, kids1, hri, hnode ▸ h1.ne_zero hn, hframe ▸ hi, ?_, ?_,
    hnode ▸ hsame, h'⟩
  · intro j hj
    rw [hfs', opened_fds, Function.update_of_ne hj, ← hframe]
    rfl
  · rw [hnode, ← hres hshort, resolvePath, resolvePath, hbase.2]
    exact resolvePathInternal_congr hbase.1 hlinks _ _

end Opened

/-! ## Runs -/

/-- The name of a new child is not that of another one. -/
def newNames : Rules :=
  ⟨fun S curr token => ∀ c ∈ S.kids curr, S.name c ≠ token.take 127, fun _ _ => True⟩

/-- What the walk sees before it makes a child. -/
def Unnamed (fs : Fs) (curr : Nat) (token : Bytes) : Prop :=
  token.length ≤ 127 ∧ findChild fs.nodes token (fs.nodes curr).firstChild = some 0

theorem unnamed_newNames : Follows Unnamed newNames := by
  rintro fs live kids curr token hl hcurr ⟨hshort, hnone⟩ c hc
  rw [take_of_length_le hshort]
  exact names_of_findChild hl hcurr hnone c hc

theorem Op.Short.makes {fs : Fs} {op : Op} (h : op.Short fs) : op.Makes Unnamed fs := by
  refine makes_of_components (fun fs curr t ht hnone => ⟨h.1 t ht, hnone⟩) ?_
  rintro target l rfl
  exact ⟨h.1 _ mem_cons_self, h.2 target l rfl⟩

section Runs

variable {σ : Type} {reserveHeap : Nat → σ → Nat × σ} {m : Mem} {s : σ} {fs1 fs2 : Fs}
  {ops : List Op}

/-- Names are unique where no name is cut and no link takes a name that is there. -/
theorem uniqueNames_of_run (hstart : Started reserveHeap m s fs1)
    (hrun : OpRun (fun fs op => op.Safe fs ∧ op.Short fs) fs1 ops fs2) : UniqueNames fs2 := by
  obtain ⟨foreign, bs, h, -, -⟩ := hstart.held
  obtain ⟨foreign2, bs2, live2, kids2, h2, hsteps⟩ :=
    hrun.moves (R := newNames) (D := fun _ _ => True) unnamed_newNames (fun _ _ _ _ _ => trivial)
      (fun fs op hop => ⟨hop.1, hop.2.makes, enters_true fs op⟩) h
  have hunique : (shape fs2 live2 kids2).Unique :=
    hsteps.unique (fun _ _ _ hR => hR) h.rooted fun _ _ => .nil
  refine ⟨?_, ?_⟩
  · intro n xs h0 hheld hxs
    have hn := h2.mem_of_holders h0 hheld
    rw [hxs.unique (h2.linked.chain n hn)]
    exact hunique n hn
  · intro path flags flags' mode mode' devpath devpath' r r' fs' fs'' hshort hopen hr hopen' hr'
    obtain ⟨i, _, _, _, _, hri, hi, -, -, hres, -, h'⟩ := open_found h2 hshort hopen hr
    obtain ⟨j, _, _, _, _, hrj, -, hj0, hold, -, hsame, -⟩ := open_found h' hshort hopen' hr'
    have hij : i ≠ j := by
      rintro rfl
      exact hi hj0
    refine ⟨i, j, hri, hrj, ?_, ?_⟩
    · rw [hold i hij]
      exact hi
    · rw [hold i hij, hsame _ hi hres]

end Runs

/-- Two files in the root, the second under a name that the first has not. -/
theorem blank_files {t u : Bytes} (ht : tokens (slash :: t) = [t]) (ht1 : t ≠ dot)
    (ht2 : t ≠ dotdot) (hu : tokens (slash :: u) = [u]) (hu1 : u ≠ dot) (hu2 : u ≠ dotdot)
    (hne : t.take 127 ≠ u) :
    ∃ (fs1 fs2 fs3 : Fs) (i j : Fin 256) (c d : Nat), initialise blank = some fs1 ∧
      StartedAtOneMib fs1 ∧
      Tmpfs.open fs1 (some (slash :: t)) oCreat 0o644 none = some ((i : Int), fs2) ∧
      Tmpfs.open fs2 (some (slash :: u)) oCreat 0o644 none = some ((j : Int), fs3) ∧ fs3.root ≠ 0 ∧
      Chain (sibling fs3.nodes) (fs3.nodes fs3.root).firstChild [c, d] ∧
      (fs3.nodes c).name = t.take 127 ∧ (fs3.nodes d).name = u.take 127 := by
  obtain ⟨fs1, i, c, fs2, bs2, hinit, hstart, -, hopen, h, -, hname, -, hcwd, hfree, hroom, -⟩ :=
    blank_file ht ht1 ht2
  have hroot := h.ne_zero .root
  have hno : resolvePath fs2 (some (slash :: u)) = some 0 := by
    refine resolve_missing h.linked hu hu1 hu2 ?_ (hcwd ▸ hroot)
    rw [grown_curr]
    simpa [hname] using hne
  obtain ⟨j, d, fs3, bs3, hopen2, hdnot, -, hnew, -, hext, h3, -⟩ :=
    open_new h oCreat (by decide) (by decide) (show tokens (slash :: u) = [] ++ [u] from hu)
      (show resolveLoop fs2.nodes _ [] = some fs2.root from rfl) hroot hno hfree (u := 0x100)
      (by decide) (hroom.mono (by decide)) 0o644
  have hcd : c ≠ d := by
    rintro rfl
    exact hdnot mem_cons_self
  have hroot3 : (opened fs3 j d oCreat 0o644).root = fs2.root := (congrArg Fs.root hext.frame :)
  have hchain := h3.linked.chain _ h3.linked.root_mem
  rw [hroot3, grown_curr, grown_curr] at hchain
  refine ⟨fs1, fs2, opened fs3 j d oCreat 0o644, i, j, c, d, hinit, hstart, hopen, hopen2,
    hroot3 ▸ hroot, hroot3 ▸ hchain, ?_, ?_⟩
  · rw [opened_nodes, if_neg hcd, ← hname]
    exact (congrArg Node.name (hext.old c mem_cons_self).2 :)
  · rw [opened_nodes, if_pos rfl]
    exact (congrArg Node.name hnew :)

theorem uniqueNames_of_run_files :
    ∃ (fs1 fs2 : Fs) (c d : Nat), initialise blank = some fs1 ∧
      OpRun (fun fs op => op.Safe fs ∧ op.Short fs) fs1 [.open slashF oCreat 0o644 none,
        .open slashG oCreat 0o644 none] fs2 ∧
      Chain (sibling fs2.nodes) (fs2.nodes fs2.root).firstChild [c, d] ∧ UniqueNames fs2 := by
  obtain ⟨fs1, fs2, fs3, i, j, c, d, hinit, hstart, hopen, hopen2, -, hchain, -⟩ :=
    @blank_files [0x66] [0x67] (by decide) (by decide) (by decide) (by decide) (by decide) (by decide)
      (by decide)
  have hshort : ∀ fs b, b = 0x66 ∨ b = 0x67 → (Op.open (some [slash, b]) oCreat 0o644 none).Short fs := by
    rintro fs b (rfl | rfl) <;> exact ⟨by decide, fun target l hl => by simp at hl⟩
  have hrun : OpRun (fun fs op => op.Safe fs ∧ op.Short fs) fs1
      [.open slashF oCreat 0o644 none, .open slashG oCreat 0o644 none] fs3 :=
    .cons ⟨trivial, hshort fs1 _ (.inl rfl)⟩ hopen
      (.cons ⟨trivial, hshort fs2 _ (.inr rfl)⟩ hopen2 (.nil _))
  exact ⟨fs1, fs3, c, d, hinit, hrun, hchain, uniqueNames_of_run hstart hrun⟩

/-- A name of 128 bytes, which is cut when it is stored. -/
def longName : Bytes := replicate 128 0x61

/-- The same path is opened twice and there are two files, with the same name. -/
theorem longName_twice :
    ∃ fs1 fs2, initialise blank = some fs1 ∧
      OpRun (fun _ _ => True) fs1 [.open (some (slash :: longName)) oCreat 0o644 none,
        .open (some (slash :: longName)) oCreat 0o644 none] fs2 ∧ ¬ UniqueNames fs2 := by
  have hlen : longName.length = 128 := length_replicate
  have htok : tokens (slash :: longName) = [longName] := by
    have hpath : pathOf [longName] ++ [] = slash :: longName := by simp
    rw [← hpath]
    refine tokens_pathOf ?_ ?_ (Or.inl rfl) (by rw [hpath, length_cons, hlen]; decide)
    · intro t ht heq
      rw [mem_singleton.mp ht] at heq
      exact absurd (congrArg List.length heq) (by rw [hlen]; decide)
    · intro t ht b hb
      rw [mem_singleton.mp ht] at hb
      rw [eq_of_mem_replicate hb]
      decide
  have h1 : longName ≠ dot := fun heq => absurd (congrArg List.length heq) (by rw [hlen]; decide)
  have h2 : longName ≠ dotdot := fun heq => absurd (congrArg List.length heq) (by rw [hlen]; decide)
  have hne : longName.take 127 ≠ longName := by
    intro heq
    have := congrArg List.length heq
    rw [length_take, hlen] at this
    omega
  obtain ⟨fs1, fs2, fs3, i, j, c, d, hinit, -, hopen, hopen2, hroot, hchain, hc, hd⟩ :=
    blank_files htok h1 h2 htok h1 h2 hne
  refine ⟨fs1, fs3, hinit, .cons trivial hopen (.cons trivial hopen2 (.nil _)), fun hunique => ?_⟩
  have htree : InTree fs3 fs3.root := .root
  have hnodup := hunique.siblings fs3.root _ hroot htree.holders_pos hchain
  simp only [map_cons, hc, hd, nodup_cons, mem_cons, true_or, not_true_eq_false, false_and] at hnodup

end Terrakernel.Tmpfs
