import Terrakernel.Tmpfs.Moves

/-!
# Runs in any working directory

What is asked of a call is a predicate on the state it is made in.
-/

namespace Terrakernel.Tmpfs

open Memory Vmm Links Heap Option
open List hiding Mem

variable {fs : Fs} {foreign : List Nat} {bs : List Blk} {t : Bytes} {c : Nat}

inductive Op where
  | chdir (path : Path)
  | mkdir (path : Path) (mode : Nat)
  | mkdirat (dirfd : Int) (path : Path) (mode : Nat)
  | open (path : Path) (flags : BitVec 32) (mode : Nat) (devpath : Path)
  | openat (dirfd : Int) (path : Path) (flags : BitVec 32) (mode : Nat)
  | close (fd : Int)
  | unlink (path : Path)
  | rmdir (path : Path)
  | rename (oldpath newpath : Path)
  | symlink (target linkpath : Path)
  deriving DecidableEq, Repr

variable {op : Op}

def Op.exec : Op → Fs → Option (Int × Fs)
  | .chdir path, fs => Tmpfs.chdir fs path
  | .mkdir path mode, fs => Tmpfs.mkdir fs path mode
  | .mkdirat dirfd path mode, fs => Tmpfs.mkdirat fs dirfd path mode
  | .open path flags mode devpath, fs => Tmpfs.open fs path flags mode devpath
  | .openat dirfd path flags mode, fs => Tmpfs.openat fs dirfd path flags mode
  | .close fd, fs => Tmpfs.close fs fd
  | .unlink path, fs => Tmpfs.unlink fs path
  | .rmdir path, fs => Tmpfs.rmdir fs path
  | .rename oldpath newpath, fs => Tmpfs.rename fs oldpath newpath
  | .symlink target linkpath, fs => Tmpfs.symlink fs target linkpath

/-- A run in which each call meets `P` and returns. Allocations may fail. -/
inductive OpRun (P : Fs → Op → Prop) : Fs → List Op → Fs → Prop
  | nil (fs : Fs) : OpRun P fs [] fs
  | cons {fs fs' fs'' : Fs} {op : Op} {ops : List Op} {r : Int} (hop : P fs op)
      (hexec : op.exec fs = some (r, fs')) (hrest : OpRun P fs' ops fs'') :
      OpRun P fs (op :: ops) fs''

/-! ## What is asked of a call -/

/-- The call leaves the working directory in the tree, and starts in the tree itself. No node is
renamed. -/
def Op.Safe (fs : Fs) : Op → Prop
  | .mkdir path _ => MakesClear fs fs.cwd path
  | .mkdirat dirfd path _ =>
      InTree fs (dirOf fs dirfd) ∧ MakesClear fs (dirOf fs dirfd) path
  | .openat dirfd _ _ _ => InTree fs (dirOf fs dirfd)
  | .unlink path => RemovesClear fs (fun n => (fs.nodes n).isDir = true) path
  | .rmdir path =>
      RemovesClear fs (fun n => (fs.nodes n).isDir = false ∨ (fs.nodes n).firstChild ≠ 0) path
  | .rename oldpath _ => resolvePath fs oldpath = some 0
  | _ => True

/-- Each child that the call makes meets `G`, which is told its parent and its name. -/
def Op.Makes (G : Fs → Nat → Bytes → Prop) (fs : Fs) : Op → Prop
  | .mkdir path mode => MakesAt G true mode fs fs.cwd path
  | .mkdirat dirfd path mode => MakesAt G true mode fs (dirOf fs dirfd) path
  | .open path flags mode _ => OpenMakes G fs fs.cwd path flags mode
  | .openat dirfd path flags mode => OpenMakes G fs (dirOf fs dirfd) path flags mode
  | .symlink _ linkpath => ∀ l, linkpath = some l → G fs fs.cwd (baseName l)
  | _ => True

/-- The new working directory meets `D`. -/
def Op.Enters (D : Fs → Nat → Prop) (fs : Fs) : Op → Prop
  | .chdir path => ∀ n, n ≠ 0 →
      resolvePath fs path = some n ∨ path = some [slash] ∧ n = fs.root → D fs n
  | _ => True

/-- The names that a call may give to new nodes. -/
def Op.components : Op → Names
  | .mkdir path _ => path.elim [] tokens
  | .mkdirat _ path _ => path.elim [] tokens
  | .open path _ _ _ => path.elim [] tokens
  | .openat _ path _ _ => path.elim [] tokens
  | .symlink _ linkpath => linkpath.elim [] fun l => [baseName l]
  | _ => []

theorem makes_of_components {G : Fs → Nat → Bytes → Prop} (hG : ∀ fs curr, ∀ t ∈ op.components,
      findChild fs.nodes t (fs.nodes curr).firstChild = some 0 → G fs curr t)
    (hlink : ∀ target l, op = .symlink target (some l) → G fs fs.cwd (baseName l)) :
    op.Makes G fs := by
  have hat : ∀ {path : Path}, path.elim [] tokens = op.components →
      ∀ isDir mode base, MakesAt G isDir mode fs base path := by
    intro path hpath isDir mode base p hp
    refine makesIn_of_forall isDir mode (fun fs curr t ht => hG fs curr t ?_) _ _
    rw [← hpath, hp]
    exact ht
  cases op with
  | mkdir path mode => exact hat rfl _ _ _
  | mkdirat dirfd path mode => exact hat rfl _ _ _
  | «open» path flags mode devpath => exact fun _ _ => hat rfl _ _ _
  | openat dirfd path flags mode => exact fun _ _ => hat rfl _ _ _
  | symlink target linkpath =>
    rintro l rfl
    exact hlink target l rfl
  | _ => exact trivial

section Exec

variable {R : Rules} {G : Fs → Nat → Bytes → Prop} {D : Fs → Nat → Prop} (hGR : Follows G R)
  (hDR : ∀ fs live kids n, D fs n → R.enter (shape fs live kids) n)

include hGR hDR

theorem Held.exec {fs fs' : Fs} {live : List Nat} {kids : Kids} {r : Int}
    (h : Held foreign fs bs live kids) (hsafe : op.Safe fs) (hmakes : op.Makes G fs)
    (henters : op.Enters D fs) (hexec : op.exec fs = some (r, fs')) : Moves R fs live kids fs' := by
  have hbase : ∀ {dirfd}, InTree fs (dirOf fs dirfd) → Reached fs.root kids (dirOf fs dirfd) :=
    fun hin => (h.linked.inTree_iff _).mp hin
  cases op with
  | chdir path =>
    refine h.chdir (fun n hn htarget => ?_) hexec
    exact hDR fs live kids n (henters n (h.ne_zero hn) htarget)
  | mkdir path mode =>
    rw [Op.exec, mkdir_eq] at hexec
    exact h.mkdirFrom hGR h.cwd hmakes hsafe hexec
  | mkdirat dirfd path mode =>
    rw [Op.exec, mkdirat_eq] at hexec
    exact h.mkdirFrom hGR (hbase hsafe.1) hmakes hsafe.2 hexec
  | «open» path flags mode devpath =>
    rw [Op.exec, open_eq] at hexec
    exact h.openFrom hGR h.cwd hmakes hexec
  | openat dirfd path flags mode =>
    rw [Op.exec, openat_eq] at hexec
    exact h.openFrom hGR (hbase hsafe) hmakes hexec
  | close fd => exact h.close hexec
  | unlink path => exact h.unlink hsafe hexec
  | rmdir path => exact h.rmdir hsafe hexec
  | rename oldpath newpath =>
    replace hsafe : resolvePath fs oldpath = some 0 := hsafe
    simp only [Op.exec, Tmpfs.rename, hsafe, bind_eq_bind, bind_some, if_pos,
      some.injEq, Prod.mk.injEq] at hexec
    rw [← hexec.2]
    exact h.moves_refl
  | symlink target linkpath => exact h.symlink hGR hmakes hexec

theorem OpRun.moves {P : Fs → Op → Prop}
    (hP : ∀ fs op, P fs op → op.Safe fs ∧ op.Makes G fs ∧ op.Enters D fs) {fs fs' : Fs}
    {ops : List Op} (hrun : OpRun P fs ops fs') {live : List Nat} {kids : Kids}
    (h : Held foreign fs bs live kids) : Moves R fs live kids fs' := by
  induction hrun generalizing foreign bs live kids with
  | nil fs => exact h.moves_refl
  | cons hop hexec _ ih =>
    obtain ⟨hsafe, hmakes, henters⟩ := hP _ _ hop
    obtain ⟨foreign1, bs1, live1, kids1, h1, hsteps⟩ :=
      h.exec hGR hDR hsafe hmakes henters hexec
    exact Moves.after hsteps (ih h1)

end Exec

/-! ## The first state -/

theorem initialise_held {fs' : Fs} (hs : Sound fs.heap bs) (hhigh : directBase ≤ fs.heap.heapBase)
    (hinit : initialise fs = some fs') :
    ∃ bs', Held (used bs) fs' bs' [fs'.root] (fun _ => []) ∧ fs'.cwd = fs'.root ∧
      (fs'.nodes fs'.root).isDir = true ∧ (∀ i, (fs'.fds i).free = true) ∧
      ∀ u, 0 < u → Room (nodeSize + headerSize + u) bs → Room u bs' := by
  obtain ⟨bs', h, -, ⟨hdir, -, -, hone⟩, hfds, hblock, hroom⟩ := initialise_inv hs hhigh hinit
  have hroot := h.linked.ne_zero h.linked.root_mem
  have hopens : opens fs'.fds fs'.root = 0 :=
    opens_eq_zero fun i h0 => hroot (h0.symm.trans (hfds i).2)
  refine ⟨bs', ⟨h.toSane, ⟨?_, ?_⟩, ?_, h.reached_cwd⟩, h.cwd, hdir, fun i => (hfds i).1, hroom⟩
  · intro n hn
    obtain rfl := mem_singleton.mp hn
    rw [hopens, hone]
    decide
  · intro n hn _
    obtain rfl := mem_singleton.mp hn
    rw [hopens, hone]
    rfl
  · intro n hn
    obtain rfl := mem_singleton.mp hn
    exact hblock

section New

variable {foreign : List Nat} {fs : Fs} {bs : List Blk} {live : List Nat} {kids : Kids}
  (h : Held foreign fs bs live kids)

include h

theorem create_new {p : Bytes} {ts : Names} {d : Nat} (htok : tokens p = ts ++ [t])
    (hwalk : resolveLoop fs.nodes (startOf fs fs.cwd p) ts = some d) (hd : d ≠ 0)
    (hno : resolvePath fs (some p) = some 0) {u : Nat} (hu : 0 < u)
    (hroom : Room (nodeSize + headerSize + u) bs) (isDir : Bool) (mode : Nat) :
    ∃ c fs1 bs1, createAtPath fs (some p) isDir mode = some (c, fs1) ∧ c ∉ live ∧
      failures fs1.heap = failures fs.heap ∧ (fs1.nodes c).data = newNode t d isDir mode ∧
      Reached fs.root kids d ∧ Built Rules.none fs bs live kids fs1 bs1 (c :: live) (grown kids d c) ∧
      Held foreign fs1 bs1 (c :: live) (grown kids d c) ∧ Room u bs1 := by
  have hp : p ≠ [] := by
    rintro rfl
    have := congrArg List.length htok
    simp [tokens, tokenLoop, strtok] at this
  have hreach : Reached fs.root kids d := by
    obtain ⟨n, hn, hr⟩ := resolveLoop_spec h.linked (startOf_reached h.cwd p) ts
    rw [hwalk] at hn
    obtain rfl := some.inj hn
    exact hr.resolve_left hd
  have hdlive := h.linked.reached_mem hreach
  have hcreate : createAtPath fs (some p) isDir mode = addChild fs d t isDir mode := by
    rw [resolvePath_some (h.ne_zero h.cwd), htok] at hno
    unfold createAtPath
    rw [createAtPathInternal_some (h.ne_zero h.cwd) hp, htok]
    exact createLoop_one isDir mode hwalk hd hno
  obtain ⟨c, fs1, hadd, hcases⟩ := h.sane.addChild_cases hdlive t isDir mode
  rcases hcases with ⟨-, -, -, -, -, hfull⟩ |
    ⟨-, hcnot, hserved, hnew, bs1, hs, hgrown, hblock, hroom1⟩
  · exact absurd (hroom.mono (by omega)) hfull
  have hb : Built Rules.none fs bs live kids fs1 bs1 (c :: live) (grown kids d c) :=
    built_of_add hdlive hcnot (congrArg Node.name hnew :) (congrArg Node.refcount hnew :)
      hgrown.toExtends hblock trivial
  exact ⟨c, fs1, bs1, hcreate.trans hadd, hcnot, hserved, hnew, hreach, hb, h.built hs hb,
    hroom1 u hu hroom⟩

theorem open_new (flags : BitVec 32) (hmake : flags &&& oCreat ≠ 0)
    (hplain : flags &&& oBuiltinDeviceFile = 0) {p : Bytes} {ts : Names} {d : Nat}
    (htok : tokens p = ts ++ [t]) (hwalk : resolveLoop fs.nodes (startOf fs fs.cwd p) ts = some d)
    (hd : d ≠ 0) (hno : resolvePath fs (some p) = some 0) (hfree : ∃ j, (fs.fds j).free = true)
    {u : Nat} (hu : 0 < u) (hroom : Room (nodeSize + headerSize + u) bs) (mode : Nat) :
    ∃ (i : Fin 256) (c : Nat) (fs1 : Fs) (bs1 : List Blk),
      Tmpfs.open fs (some p) flags mode none = some ((i : Int), opened fs1 i c flags mode) ∧
      c ∉ live ∧ (fs.fds i).free = true ∧ (fs1.nodes c).data = newNode t d false mode ∧
      Reached fs.root kids d ∧ Extends fs bs live fs1 bs1 (c :: live) ∧
      Held foreign (opened fs1 i c flags mode) bs1 (c :: live) (grown kids d c) ∧ Room u bs1 := by
  obtain ⟨c, fs1, bs1, hcreate, hcnot, -, hnew, hreach, hb, h1, hroom1⟩ :=
    create_new h htok hwalk hd hno hu hroom false mode
  have hc0 := h1.linked.ne_zero mem_cons_self
  have hfds : fs1.fds = fs.fds := by rw [hb.ext.frame]
  obtain ⟨i, hfind⟩ : ∃ i, (finRange 256).find? (fun i => (fs1.fds i).free) = some i := by
    obtain ⟨j, hj⟩ := hfree
    rw [← isSome_iff_exists, find?_isSome]
    exact ⟨j, mem_finRange j, by rw [hfds]; exact hj⟩
  have hi : (fs1.fds i).free = true := by simpa using find?_some hfind
  refine ⟨i, c, fs1, bs1, ?_, hcnot, hfds ▸ hi, hnew, hreach, hb.ext,
    h1.opened mem_cons_self (h1.sane.table.free i hi) flags mode, hroom1⟩
  unfold Tmpfs.open
  rw [if_neg (by simp), hno]
  simp only [bind_eq_bind, bind_some]
  rw [if_pos ⟨trivial, hmake⟩, hcreate]
  simp only [bind_some]
  rw [if_neg hc0, makeDevice, if_pos hplain]
  simp only [bind_some, openNode_eq hc0 flags mode hfind]

/-- The walk ends at a new node. -/
theorem walkEnd_new {m : Nat} (hm : m ∈ live) (h1 : t ≠ dot) (h2 : t ≠ dotdot)
    (hno : ∀ c ∈ kids m, (fs.nodes c).name ≠ t) (e : Nat) :
    walkEnd fs.nodes m 0 [t] ≠ some (e, 0) := by
  have hfind : findChild fs.nodes t (fs.nodes m).firstChild = some 0 := by
    rw [findChild_spec h.linked hm, find?_eq_none.mpr fun c hc => by simpa using hno c hc]
    rfl
  rw [walkEnd_cons, if_neg h1, if_neg h2, if_pos rfl, hfind]
  rintro ⟨⟩

theorem mkdir_new {p : Bytes} (htok : tokens p = [t]) (h1 : t ≠ dot) (h2 : t ≠ dotdot)
    (hno : ∀ c ∈ kids (startOf fs fs.cwd p), (fs.nodes c).name ≠ t) {u : Nat} (hu : 0 < u)
    (hroom : Room (nodeSize + headerSize + u) bs) (mode : Nat) :
    ∃ c fs1 foreign1 bs1, MakesClear fs fs.cwd (some p) ∧ mkdir fs (some p) mode = some (0, fs1) ∧
      c ∉ live ∧ (fs1.nodes c).name = t.take 127 ∧ (fs1.nodes c).isDir = true ∧
      fs1.root = fs.root ∧ fs1.cwd = fs.cwd ∧ fs1.fds = fs.fds ∧
      failures fs1.heap = failures fs.heap ∧
      Held foreign1 fs1 bs1 (c :: live) (grown kids (startOf fs fs.cwd p) c) ∧ Room u bs1 := by
  have hl := h.linked
  have hd := hl.reached_mem (startOf_reached h.cwd p)
  have hmissing : resolvePath fs (some p) = some 0 := by
    rw [resolvePath_some (h.ne_zero h.cwd), htok]
    exact resolveLoop_missing hl hd h1 h2 hno []
  obtain ⟨c, fs1, bs1, hcreate, hcnot, hserved, hnew, -, hb, hheld, hroom1⟩ :=
    create_new h (show tokens p = [] ++ [t] from htok) rfl (hl.ne_zero hd) hmissing hu hroom true mode
  have hchild : ChildOf fs1.root (c :: live) (grown kids (startOf fs fs.cwd p) c)
      (startOf fs fs.cwd p) c := Or.inl ⟨mem_cons_of_mem _ hd, mem_grown_self _ _ _⟩
  obtain ⟨⟨foreign1, hwiped⟩, -⟩ := hheld.wiped (R := Rules.none) hchild mem_cons_self
    (hb.spares hl hheld.linked (hl.reached_mem h.cwd) hchild mem_cons_self
      fun hold => absurd hold hcnot) mode
  rw [cut_last (grown_new (ne_of_mem_of_not_mem hd hcnot).symm) (grown_curr _ _ _)
    fun hc => hcnot (hl.child _ hd c hc).1] at hwiped
  refine ⟨c, fs1.setNode c (wiped mode), foreign1, bs1, ?_, ?_, hcnot, ?_, ?_, ?_, ?_, ?_, hserved, hwiped,
    hroom1⟩
  · rintro q ⟨⟩ - e hend
    exact absurd (htok ▸ hend) (walkEnd_new h hd h1 h2 hno e)
  · have hc0 := hheld.linked.ne_zero mem_cons_self
    rw [createAtPath] at hcreate
    rw [mkdir_eq, mkdirFrom, hcreate, map_some, if_neg hc0]
  · rw [setNode_nodes, if_pos rfl]
    exact (congrArg Node.name hnew :)
  · rw [setNode_nodes, if_pos rfl]
    rfl
  · exact (congrArg Fs.root hb.ext.frame :)
  · exact (congrArg Fs.cwd hb.ext.frame :)
  · exact (congrArg Fs.fds hb.ext.frame :)

end New

section Start

variable {σ : Type} {reserveHeap : Nat → σ → Nat × σ} {m : Mem} {s : σ}

/-- The file system is set up in a heap that others have used before. -/
def Started (reserveHeap : Nat → σ → Nat × σ) (m : Mem) (s : σ) (fs1 : Fs) : Prop :=
  ∃ h s' before fs, Heap.initialise reserveHeap m s = some (h, s') ∧
    h.heapBase + h.heapSize ≤ word ∧ directBase ≤ h.heapBase ∧
    Heap.runCalls before h = some fs.heap ∧ initialise fs = some fs1

abbrev StartedAtOneMib (fs1 : Fs) : Prop :=
  Started (fun _ (s : Unit) => (0x100000, s)) (fun _ => 0) () fs1

theorem Started.held {fs1 : Fs} (hstart : Started reserveHeap m s fs1) :
    ∃ foreign bs, Held foreign fs1 bs [fs1.root] (fun _ => []) ∧ fs1.cwd = fs1.root ∧
      (fs1.nodes fs1.root).isDir = true ∧ ∀ i, (fs1.fds i).free = true := by
  obtain ⟨h, s', before, fs, hinit, htop, hhigh, hbefore, hfs⟩ := hstart
  obtain ⟨h', hcalls, hs, hbase, -⟩ := runCalls_spec (initialise_sound hinit htop) before
  rw [hbefore] at hcalls
  obtain rfl := some.inj hcalls
  obtain ⟨bs', hheld, hcwd, hdir, hfree, -⟩ := initialise_held hs (hbase ▸ hhigh) hfs
  exact ⟨_, bs', hheld, hcwd, hdir, hfree⟩

end Start

/-! ## The first file of a new file system -/

theorem blank_started :
    ∃ fs1 bs1, initialise blank = some fs1 ∧
      StartedAtOneMib fs1 ∧
      Held [] fs1 bs1 [fs1.root] (fun _ => []) ∧ fs1.cwd = fs1.root ∧
      (fs1.nodes fs1.root).isDir = true ∧ (∀ i, (fs1.fds i).free = true) ∧ Room 0x8000 bs1 := by
  obtain ⟨hs, hroom⟩ := blank_heap
  obtain ⟨fs1, hinit⟩ := initialise_returns hs (hroom.mono (by decide))
  obtain ⟨bs1, h, hcwd, hdir, hfree, hroom1⟩ := initialise_held hs (by decide) hinit
  refine ⟨fs1, bs1, hinit, ?_, h, hcwd, hdir, hfree,
    hroom1 0x8000 (by decide) (hroom.mono (by decide))⟩
  exact ⟨_, (), [], blank, initialise_at_one_mib, by decide, by decide, rfl, hinit⟩

theorem resolveLoop_only (h : Held foreign fs bs [c, fs.root] (grown (fun _ => []) fs.root c))
    (h1 : (fs.nodes c).name ≠ dot) (h2 : (fs.nodes c).name ≠ dotdot) :
    resolveLoop fs.nodes fs.root [(fs.nodes c).name] = some c := by
  rw [resolveLoop_found h.linked h.linked.root_mem h1 h2 ?_ [], resolveLoop]
  rw [grown_curr, nil_append, find?_cons_of_pos (by simp)]

theorem resolve_missing {live : List Nat} {kids : Kids}
    (h : Linked fs.nodes fs.root live kids) (htok : tokens (slash :: t) = [t]) (h1 : t ≠ dot)
    (h2 : t ≠ dotdot) (hno : ∀ c ∈ kids fs.root, (fs.nodes c).name ≠ t) {base : Nat}
    (hbase : base ≠ 0) : resolvePathInternal fs base (some (slash :: t)) = some 0 := by
  have hstart : startOf fs base (slash :: t) = fs.root := rfl
  rw [resolvePathInternal_some hbase, htok, hstart]
  exact resolveLoop_missing h h.root_mem h1 h2 hno []

theorem resolve_only (h : Held foreign fs bs [c, fs.root] (grown (fun _ => []) fs.root c))
    (htok : tokens (slash :: t) = [t]) (h1 : t ≠ dot) (h2 : t ≠ dotdot)
    (hname : (fs.nodes c).name = t) {base : Nat} (hbase : base ≠ 0) :
    resolvePathInternal fs base (some (slash :: t)) = some c := by
  have hstart : startOf fs base (slash :: t) = fs.root := rfl
  subst hname
  rw [resolvePathInternal_some hbase, htok, hstart]
  exact resolveLoop_only h h1 h2

theorem blank_file {t : Bytes} (htok : tokens (slash :: t) = [t]) (h1 : t ≠ dot)
    (h2 : t ≠ dotdot) :
    ∃ (fs1 : Fs) (i : Fin 256) (c : Nat) (fs2 : Fs) (bs2 : List Blk), initialise blank = some fs1 ∧
      StartedAtOneMib fs1 ∧
      (fs1.nodes fs1.root).isDir = true ∧
      Tmpfs.open fs1 (some (slash :: t)) oCreat 0o644 none = some ((i : Int), fs2) ∧
      Held [] fs2 bs2 [c, fs2.root] (grown (fun _ => []) fs2.root c) ∧ c ≠ fs2.root ∧
      (fs2.nodes c).name = t.take 127 ∧ (fs2.nodes c).isDir = false ∧ fs2.cwd = fs2.root ∧
      (∃ j, (fs2.fds j).free = true) ∧ Room 0x1000 bs2 ∧ (fs2.fds i).node = c ∧
      (fs2.nodes c).isSymlink = false ∧ ¬ InTree fs1 c ∧ (fs2.nodes fs2.root).isDir = true := by
  obtain ⟨fs1, bs1, hinit, hstarted, h, hcwd, hdir, hfree, hroom⟩ := blank_started
  have hroot := h.linked.ne_zero h.linked.root_mem
  have hno : resolvePath fs1 (some (slash :: t)) = some 0 :=
    resolve_missing h.linked htok h1 h2 (by simp) (hcwd ▸ hroot)
  obtain ⟨i, c, fs', bs2, hopen, hcnot, hi, hnew, -, hext, hheld, hroom2⟩ :=
    open_new h oCreat (by decide) (by decide) (show tokens (slash :: t) = [] ++ [t] from htok) rfl
      hroot hno ⟨0, hfree 0⟩ (u := 0x1000) (by decide) (hroom.mono (by decide)) 0o644
  have hroot2 : (opened fs' i c oCreat 0o644).root = fs1.root := by
    change fs'.root = fs1.root
    rw [hext.frame]
  have hfields : ((opened fs' i c oCreat 0o644).nodes c).name = (fs'.nodes c).name ∧
      ((opened fs' i c oCreat 0o644).nodes c).isDir = (fs'.nodes c).isDir ∧
      ((opened fs' i c oCreat 0o644).nodes c).isSymlink = (fs'.nodes c).isSymlink := by
    rw [opened_nodes, if_pos rfl]
    exact ⟨rfl, rfl, rfl⟩
  refine ⟨fs1, i, c, opened fs' i c oCreat 0o644, bs2, hinit, hstarted, hdir, hopen, ?_, ?_, ?_, ?_,
    ?_, ?_, hroom2, ?_, ?_, ?_, ?_⟩
  · rw [hroot2]
    exact hheld
  · rw [hroot2]
    simpa using hcnot
  · exact hfields.1.trans (congrArg Node.name hnew :)
  · exact hfields.2.1.trans (congrArg Node.isDir hnew :)
  · rw [hroot2, ← hcwd]
    change fs'.cwd = fs1.cwd
    rw [hext.frame]
  · -- Every entry but the one that was taken is still free.
    obtain ⟨j, hj⟩ : ∃ j : Fin 256, j ≠ i := exists_ne i
    refine ⟨j, ?_⟩
    change (Function.update fs'.fds i _ j).free = true
    rw [Function.update_of_ne hj, hext.frame]
    exact hfree j
  · rw [opened_fds, Function.update_self]
  · exact hfields.2.2.trans (congrArg Node.isSymlink hnew :)
  · intro hin
    exact hcnot (h.linked.reached_mem ((h.linked.inTree_iff c).mp hin))
  · have hne : fs1.root ≠ c := fun heq => hcnot (heq ▸ mem_singleton_self _)
    rw [hroot2, opened_nodes, if_neg hne]
    exact (congrArg Node.isDir (hext.old _ (mem_singleton_self _)).2 :).trans hdir

end Terrakernel.Tmpfs
