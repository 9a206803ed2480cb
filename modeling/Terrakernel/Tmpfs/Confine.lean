import Terrakernel.Tmpfs.Archive
import Terrakernel.Tmpfs.Ops
import Terrakernel.Tmpfs.Session

/-!
# What an archive can reach

A path of the archive is walked from the root, and `..` in it leads out of `/initrd` again.
-/

namespace Terrakernel.Tmpfs

open Memory Vmm Links Heap Function
open List hiding Mem

variable {n d i curr c : Nat} {kids kids' : Kids} {fs fs' fs0 fs1 fs2 : Fs}
  {foreign live' : List Nat} {bs bs1 : List Blk} {p : Bytes} {m : Mem}

/-! ## What is said of an entry -/

/-- `a` is the node itself or above it. -/
inductive Under (nodes : Nat → Node) (a : Nat) : Nat → Prop
  | self : Under nodes a a
  | child {n : Nat} (hn : n ≠ 0) (hparent : Under nodes a (nodes n).parent) : Under nodes a n

/-- The node is `/initrd`, or a descendant of it. -/
def InInitrd (fs : Fs) (n : Nat) : Prop :=
  ∃ i ≠ 0, resolvePath fs (some initrdPath) = some i ∧ Under fs.nodes i n

/-- The node is `/dev` or `/dev/initrd`. -/
def IsDev (fs : Fs) (n : Nat) : Prop :=
  n ≠ 0 ∧ (resolvePath fs (some (slash :: devName)) = some n ∨
    resolvePath fs (some devInitrdPath) = some n)

/-- No other node was changed or made than those in `P`. -/
structure Confined (P : Fs → Nat → Prop) (fs fs' : Fs) : Prop where
  changed : ∀ n, fs'.nodes n ≠ fs.nodes n → P fs' n
  found : ∀ n, InTree fs' n → n = fs'.root ∨ P fs' n

/-- How deep below the root a walk ends, which leaves the root by way of `initrd` only. -/
def depthOf : Nat → Names → Option Nat
  | d, [] => some d
  | d, t :: ts =>
    if t = dot then depthOf d ts
    else if t = dotdot then depthOf (d - 1) ts
    else if d = 0 ∧ t ≠ initrdName then none
    else depthOf (d + 1) ts

/-- The path is that of a node below the root. -/
def IsBelow (p : Bytes) : Prop := ∃ d, depthOf 0 (tokens p) = some (d + 1)

/-- Each directory that is made for the entry is below the root, and so is the file, if it is not
the root itself. -/
def EntryStays (m : Mem) (ptr : Nat) : Prop :=
  stringAt m ptr = dot ∨ stringAt m ptr = dotdot ∨
    (typeflag m ptr = 0x35 → IsBelow (cleanPath m ptr)) ∧
    (typeflag m ptr = 0x30 ∨ typeflag m ptr = 0 →
      (∀ p ∈ parentPaths ((cleanPath m ptr).take 1) ((cleanPath m ptr).drop 1), IsBelow p) ∧
        ∃ d, depthOf 0 (tokens (cleanPath m ptr)) = some d)

/-! ## The fence -/

/-- Reached in `d` steps. -/
inductive Level (root : Nat) (kids : Kids) : Nat → Nat → Prop
  | root : Level root kids 0 root
  | child {d m c : Nat} (hm : Level root kids d m) (hc : c ∈ kids m) : Level root kids (d + 1) c

theorem Level.reached {root d n : Nat} (h : Level root kids d n) : Reached root kids n := by
  induction h with
  | root => exact .root
  | child _ hc ih => exact .child ih hc

theorem Level.mono {root d n : Nat} (h : Level root kids d n)
    (hsub : ∀ m, Reached root kids m → ∀ c ∈ kids m, c ∈ kids' m) : Level root kids' d n := by
  induction h with
  | root => exact .root
  | child hm hc ih => exact .child ih (hsub _ hm.reached _ hc)

/-- There is nothing in the tree but the root and `/initrd`. If `/initrd` could not be made, no
other node can. -/
structure Fenced (foreign : List Nat) (fs : Fs) (bs : List Blk) (live : List Nat)
    (kids : Kids) : Prop where
  held : Held foreign fs bs live kids
  cwd : fs.cwd = fs.root
  dir : (fs.nodes fs.root).isDir = true
  top : kids fs.root = [] ∧ ¬ Room nodeSize bs ∨
    ∃ i, kids fs.root = [i] ∧ (fs.nodes i).name = initrdName
  parents : ∀ n ∈ live, n ≠ fs.root → (fs.nodes n).parent ∈ live
  under : ∀ n ∈ live, n ≠ fs.root → ∃ i ∈ kids fs.root, Under fs.nodes i n

/-- The nodes outside `live`, and the root, are as they were. -/
structure Spared (fs fs' : Fs) (live : List Nat) : Prop where
  root : fs'.root = fs.root
  nodes : ∀ n, n ∉ live ∨ n = fs.root → fs'.nodes n = fs.nodes n

theorem Spared.refl (fs : Fs) (live : List Nat) : Spared fs fs live := ⟨rfl, fun _ _ => rfl⟩

theorem Spared.trans {live1 live2 : List Nat} (h1 : Spared fs fs1 live1) (h2 : Spared fs1 fs2 live2)
    (hsub : ∀ m ∈ live1, m ∈ live2) : Spared fs fs2 live2 := by
  refine ⟨h2.root.trans h1.root, fun n hn => ?_⟩
  rw [h2.nodes n (by rw [h1.root]; exact hn), h1.nodes n (hn.imp (fun h hm => h (hsub n hm)) id)]

/-- A call has led to such a state again, and has touched nothing outside. -/
def StaysFenced (fs : Fs) (live : List Nat) (fs' : Fs) : Prop :=
  ∃ foreign' bs' live' kids', Fenced foreign' fs' bs' live' kids' ∧ Spared fs fs' live' ∧
    ∀ m ∈ live, m ∈ live'

theorem StaysFenced.after {live live1 : List Nat} (hspared : Spared fs fs1 live1)
    (hsub : ∀ m ∈ live, m ∈ live1) (h : StaysFenced fs1 live1 fs2) : StaysFenced fs live fs2 := by
  obtain ⟨foreign2, bs2, live2, kids2, h2, hspared2, hsub2⟩ := h
  exact ⟨foreign2, bs2, live2, kids2, h2, hspared.trans hspared2 hsub2,
    fun m hm => hsub2 m (hsub m hm)⟩

theorem Under.congr {nodes nodes' : Nat → Node} {live : List Nat} {root a n : Nat}
    (h : Under nodes a n) (hn : n ∈ live) (ha : a ≠ 0) (hroot : (nodes root).parent = 0)
    (hparents : ∀ n ∈ live, n ≠ root → (nodes n).parent ∈ live)
    (hsame : ∀ m ∈ live, (nodes' m).parent = (nodes m).parent) : Under nodes' a n := by
  induction h with
  | self => exact .self
  | @child n h0 hparent ih =>
    by_cases hr : n = root
    · -- There is nothing above the root.
      rw [hr, hroot] at hparent
      cases hparent with
      | self => exact absurd rfl ha
      | child h0 => exact absurd rfl h0
    · refine .child h0 ?_
      rw [hsame n hn]
      exact ih (hparents n hn hr)

section Fenced

variable {foreign : List Nat} {fs : Fs} {bs : List Blk} {live : List Nat} {kids : Kids}
  (h : Fenced foreign fs bs live kids)

include h

theorem Fenced.stays_refl : StaysFenced fs live fs :=
  ⟨foreign, bs, live, kids, h, .refl fs live, fun _ hm => hm⟩

theorem Fenced.root_mem : fs.root ∈ live := h.held.linked.root_mem

theorem Fenced.root_ne_zero : fs.root ≠ 0 := h.held.linked.ne_zero h.root_mem

theorem Fenced.top_mem (hi : i ∈ kids fs.root) : i ∈ live :=
  (h.held.linked.child _ h.root_mem i hi).1

theorem Fenced.step {foreign' : List Nat} {bs' : List Blk} (hh : Held foreign' fs' bs' live' kids')
    (hspared : Spared fs fs' live') (hcwd : fs'.cwd = fs.cwd)
    (hroom : kids fs.root = [] → Room nodeSize bs' → Room nodeSize bs)
    (hkids : kids' fs.root = kids fs.root)
    (hold : ∀ n ∈ live, n ∈ live' ∧ (fs'.nodes n).name = (fs.nodes n).name ∧
      (fs'.nodes n).parent = (fs.nodes n).parent)
    (hnew : ∀ n ∈ live', n ∉ live → (fs'.nodes n).parent ∈ live ∧ (fs'.nodes n).parent ≠ fs.root) :
    Fenced foreign' fs' bs' live' kids' := by
  have hl := h.held.linked
  have hroot := hspared.root
  have hunder : ∀ n ∈ live, n ≠ fs.root → ∃ i ∈ kids fs.root, Under fs'.nodes i n := by
    intro n hn hne
    obtain ⟨i, hi, hunder⟩ := h.under n hn hne
    exact ⟨i, hi, hunder.congr hn (hl.ne_zero (h.top_mem hi)) hl.top h.parents
      fun m hm => (hold m hm).2.2⟩
  refine ⟨hh, by rw [hcwd, hroot, h.cwd], ?_, ?_, ?_, ?_⟩
  · rw [hroot, hspared.nodes _ (Or.inr rfl)]
    exact h.dir
  · rw [hroot, hkids]
    rcases h.top with ⟨hk, hno⟩ | ⟨i, hk, hi⟩
    · exact .inl ⟨hk, fun hr => hno (hroom hk hr)⟩
    · refine .inr ⟨i, hk, ?_⟩
      rw [(hold i (h.top_mem (by simp [hk]))).2.1]
      exact hi
  · intro n hn hne
    by_cases hlive : n ∈ live
    · rw [(hold n hlive).2.2]
      exact (hold _ (h.parents n hlive (hroot ▸ hne))).1
    · exact (hold _ (hnew n hn hlive).1).1
  · intro n hn hne
    rw [hroot] at hne ⊢
    rw [hkids]
    by_cases hlive : n ∈ live
    · exact hunder n hlive hne
    · obtain ⟨hp, hpr⟩ := hnew n hn hlive
      obtain ⟨i, hi, hu⟩ := hunder _ hp hpr
      exact ⟨i, hi, .child (hh.linked.ne_zero hn) hu⟩

/-! ## A new child -/

theorem Fenced.heap (hframe : fs' = { fs with heap := fs'.heap })
    (hs : Sane foreign fs' bs live kids) (hk : Keeps [] fs.heap bs fs'.heap bs) :
    Fenced foreign fs' bs live kids ∧ Spared fs fs' live := by
  have hb : Built Rules.none fs bs live kids fs' bs live kids := (built_of_heap hframe hk).1
  have hnodes : fs'.nodes = fs.nodes := by rw [hframe]
  have hspared : Spared fs fs' live := ⟨hb.root, fun n _ => by rw [hnodes]⟩
  refine ⟨h.step (h.held.built hs hb) hspared (by rw [hframe]) (fun _ => id) rfl ?_ ?_, hspared⟩
  · exact fun n hn => ⟨hn, by rw [hnodes], by rw [hnodes]⟩
  · exact fun n hn hno => absurd hn hno

theorem Fenced.addChild (hcurr : curr ∈ live) (hne : curr ≠ fs.root) (t : Bytes) (isDir : Bool)
    (mode : Nat) :
    ∃ c fs' bs' live' kids', addChild fs curr t isDir mode = some (c, fs') ∧
      Fenced foreign fs' bs' live' kids' ∧ Spared fs fs' live' ∧ (∀ m ∈ live, m ∈ live') ∧
      (∀ m ∈ live, ∀ d ∈ kids m, d ∈ kids' m) ∧ (c = 0 ∨ c ∈ kids' curr) := by
  have hl := h.held.linked
  obtain ⟨c, fs', hadd, hcases⟩ := h.held.sane.addChild_cases hcurr t isDir mode
  rcases hcases with ⟨rfl, hframe, hs, hk, -⟩ | ⟨hc0, hcnot, -, hdata, bs', hs, hgrown, hblock, -⟩
  · obtain ⟨h', hspared⟩ := h.heap hframe hs hk
    exact ⟨0, fs', bs, live, kids, hadd, h', hspared, fun _ hm => hm, fun _ _ _ hd => hd, .inl rfl⟩
  · have hb : Built Rules.none fs bs live kids fs' bs' (c :: live) (grown kids curr c) :=
      built_of_add hcurr hcnot (congrArg Node.name hdata :) (congrArg Node.refcount hdata :)
        hgrown.toExtends hblock trivial
    have hcroot : fs.root ≠ c := ne_of_mem_of_not_mem hl.root_mem hcnot
    have hspared : Spared fs fs' (c :: live) := by
      refine ⟨hb.root, fun n hn => ?_⟩
      rcases hn with hn | rfl
      · rw [mem_cons, not_or] at hn
        refine h.held.sane.addChild_frame hcurr hadd hcnot hn.1 ?_ fun hk => ?_
        · exact fun he => absurd he (ne_of_mem_of_not_mem hcurr hn.2).symm
        · exact hn.2 (hl.child curr hcurr n hk).1
      · exact h.held.sane.addChild_frame hcurr hadd hcnot hcroot (fun he => absurd he hne.symm)
          fun hk => hl.ne_root hcurr hk rfl
    refine ⟨c, fs', bs', c :: live, grown kids curr c, hadd, ?_, hspared,
      fun _ hm => mem_cons_of_mem _ hm, ?_, .inr (mem_grown_self _ _ _)⟩
    · refine h.step (h.held.built hs hb) hspared (by rw [hgrown.frame]) (fun _ _ => ?_)
        (grown_of_ne hne.symm hcroot) ?_ ?_
      · exact h.held.sane.addChild_room hadd hc0
      · intro n hn
        have hsame := (hgrown.old n hn).2
        exact ⟨mem_cons_of_mem _ hn, (congrArg Node.name hsame :),
          (congrArg Node.parent hsame :)⟩
      · intro n hn hno
        obtain rfl := (mem_cons.mp hn).resolve_right hno
        have hparent : (fs'.nodes n).parent = curr := (congrArg Node.parent hdata :)
        rw [hparent]
        exact ⟨hcurr, hne⟩
    · intro m hm d hd
      exact mem_grown (ne_of_mem_of_not_mem hm hcnot) hd

theorem Fenced.addChild_root (hbare : kids fs.root = []) (t : Bytes) (isDir : Bool) (mode : Nat) :
    ∃ fs', Tmpfs.addChild fs fs.root t isDir mode = some (0, fs') ∧
      Fenced foreign fs' bs live kids ∧ Spared fs fs' live := by
  have hno : ¬ Room nodeSize bs := by
    rcases h.top with ⟨-, hno⟩ | ⟨i, hk, -⟩
    · exact hno
    · rw [hbare] at hk
      cases hk
  obtain ⟨c, fs', hadd, hcases⟩ := h.held.sane.addChild_cases h.root_mem t isDir mode
  rcases hcases with ⟨rfl, hframe, hs, hk, -⟩ | ⟨hc0, -⟩
  · exact ⟨fs', hadd, h.heap hframe hs hk⟩
  · exact absurd (h.held.sane.addChild_room hadd hc0) hno

/-! ## The walk -/

omit h in
theorem Level.up (hl : Linked fs.nodes fs.root live kids) (hn : Level fs.root kids d n) :
    Level fs.root kids (d - 1) (up fs.nodes n) := by
  unfold Tmpfs.up
  cases hn with
  | root =>
    rw [if_neg fun hp => hp hl.top]
    exact .root
  | @child d m c hm hc =>
    have hmem := hl.reached_mem hm.reached
    rw [(hl.child m hmem n hc).2, if_pos (hl.ne_zero hmem)]
    exact hm

omit h in
theorem Level.ne_root (hl : Linked fs.nodes fs.root live kids) (hn : Level fs.root kids (d + 1) n) :
    n ≠ fs.root := by
  cases hn with
  | child hm hc => exact hl.ne_root (hl.reached_mem hm.reached) hc

theorem Fenced.createLoop {d' : Nat} {ts : Names} (hcurr : Level fs.root kids d curr)
    (hdepth : depthOf d ts = some d') (isDir : Bool) (mode : Nat) :
    ∃ n fs' bs' live' kids', createLoop isDir mode fs curr ts = some (n, fs') ∧
      Fenced foreign fs' bs' live' kids' ∧ Spared fs fs' live' ∧ (∀ m ∈ live, m ∈ live') ∧
      (n = 0 ∨ Level fs'.root kids' d' n) := by
  induction ts generalizing fs bs live kids curr d with
  | nil =>
    obtain rfl := Option.some.inj hdepth
    exact ⟨curr, fs, bs, live, kids, rfl, h, .refl fs live, fun _ hm => hm, .inr hcurr⟩
  | cons t ts ih =>
    have hl := h.held.linked
    have hmem := hl.reached_mem hcurr.reached
    rw [createLoop_cons]
    unfold depthOf at hdepth
    by_cases h1 : t = dot
    · rw [if_pos h1] at hdepth ⊢
      exact ih h hcurr hdepth
    by_cases h2 : t = dotdot
    · rw [if_neg h1, if_pos h2] at hdepth ⊢
      exact ih h (hcurr.up hl) hdepth
    rw [if_neg h1, if_neg h2] at hdepth ⊢
    have hdepth1 : depthOf (d + 1) ts = some d' := by
      split_ifs at hdepth
      exact hdepth
    obtain ⟨c, hfind, hc⟩ : ∃ c, findChild fs.nodes t (fs.nodes curr).firstChild = some c ∧
        (c = 0 ∨ c ≠ 0 ∧ c ∈ kids curr) := by
      refine ⟨_, findChild_spec hl hmem t, ?_⟩
      cases hfind : (kids curr).find? fun c => (fs.nodes c).name = t with
      | none => exact .inl rfl
      | some c =>
        have hc := mem_of_find?_eq_some hfind
        exact .inr ⟨hl.ne_zero (hl.child curr hmem c hc).1, hc⟩
    rw [hfind, Option.bind_some]
    rcases hc with rfl | ⟨hc0, hc⟩
    · rw [if_neg (by simp)]
      cases hcurr with
      | root =>
        -- The name is `initrd`, so there is no such child.
        have hname : t = initrdName := by
          by_contra hne
          rw [if_pos ⟨rfl, hne⟩] at hdepth
          cases hdepth
        have hbare : kids fs.root = [] := by
          rcases h.top with ⟨hk, -⟩ | ⟨i, hk, hi⟩
          · exact hk
          · exact absurd (hi.trans hname.symm) (names_of_findChild hl hmem hfind i (by simp [hk]))
        obtain ⟨fs', hadd, h', hspared⟩ := h.addChild_root hbare t
          (if ts.isEmpty then isDir else true) (if ts.isEmpty then mode else 0o755)
        refine ⟨0, fs', bs, live, kids, ?_, h', hspared, fun _ hm => hm, .inl rfl⟩
        rw [hadd, Option.bind_some, if_pos rfl]
      | @child k _ _ hm hk =>
        have hlevel := Level.child hm hk
        obtain ⟨c, fs1, bs1, live1, kids1, hadd, h1, hspared, hsub, hkids, hc⟩ := h.addChild hmem
          (hlevel.ne_root hl) t (if ts.isEmpty then isDir else true)
          (if ts.isEmpty then mode else 0o755)
        rw [hadd, Option.bind_some]
        by_cases hc0 : c = 0
        · exact ⟨0, fs1, bs1, live1, kids1, if_pos hc0, h1, hspared, hsub, .inl rfl⟩
        rw [if_neg hc0]
        have hlevel1 : Level fs1.root kids1 (k + 1) curr := by
          rw [hspared.root]
          exact hlevel.mono fun m hm => hkids m (hl.reached_mem hm)
        obtain ⟨n, fs2, bs2, live2, kids2, hrun, h2, hspared2, hsub2, hn⟩ :=
          ih h1 (.child hlevel1 (hc.resolve_left hc0)) hdepth1
        exact ⟨n, fs2, bs2, live2, kids2, hrun, h2, hspared.trans hspared2 hsub2,
          fun m hm => hsub2 m (hsub m hm), hn⟩
    · rw [if_pos hc0]
      exact ih h (.child hcurr hc) hdepth1

/-! ## The calls -/

theorem Fenced.wiped (hn : Level fs.root kids (d + 1) n) (mode : Nat) :
    ∃ foreign' kids', Fenced foreign' (fs.setNode n (Tmpfs.wiped mode)) bs live kids' ∧
      Spared fs (fs.setNode n (Tmpfs.wiped mode)) live ∧ kids' fs.root = kids fs.root := by
  have hl := h.held.linked
  have hne := hn.ne_root hl
  cases hn with
  | @child _ p _ hp hn =>
    have hmem := hl.reached_mem hp.reached
    have hlive := (hl.child p hmem n hn).1
    have hkeep : ¬ CutOff fs n fs.cwd := by
      rw [h.cwd]
      exact hl.not_cutOff_root hmem hn
    obtain ⟨⟨foreign', h'⟩, -⟩ : (∃ foreign', Held foreign' (fs.setNode n (Tmpfs.wiped mode)) bs live
        (cut kids p n)) ∧ Shape.Step Rules.none _ _ :=
      h.held.wiped (Or.inl ⟨hmem, hn⟩) hlive (hl.spares (Or.inl ⟨hmem, hn⟩) hlive hkeep) mode
    have hspared : Spared fs (fs.setNode n (Tmpfs.wiped mode)) live := by
      refine ⟨rfl, fun x hx => ?_⟩
      rw [setNode_nodes, if_neg]
      rintro rfl
      rcases hx with hx | hx
      · exact hx hlive
      · exact hne hx
    -- The root has one child at most, with no sibling behind it.
    have htop : cut kids p n fs.root = kids fs.root := by
      unfold cut
      rw [update_of_ne hne.symm]
      by_cases hpr : fs.root = p
      · subst hpr
        rw [update_self]
        rcases h.top with ⟨hk, -⟩ | ⟨i, hk, -⟩
        · rw [hk]
          rfl
        · rw [hk] at hn ⊢
          rw [mem_singleton.mp hn, upTo, if_pos rfl]
      · rw [update_of_ne hpr]
    refine ⟨foreign', cut kids p n, ?_, hspared, htop⟩
    refine h.step h' hspared rfl (fun _ => id) htop ?_ fun x hx hno => absurd hx hno
    intro x hx
    rw [setNode_nodes]
    split_ifs <;> exact ⟨hx, rfl, rfl⟩

omit h in
theorem IsBelow.ne_nil (hp : IsBelow p) : p ≠ [] := by
  rintro rfl
  obtain ⟨d, hd⟩ := hp
  cases hd

theorem Fenced.mkdir (hp : IsBelow p) (mode : Nat) :
    ∃ r fs', mkdir fs (some p) mode = some (r, fs') ∧ StaysFenced fs live fs' := by
  obtain ⟨d, hd⟩ := hp
  obtain ⟨n, fs1, bs1, live1, kids1, hrun, h1, hspared, hsub, hn⟩ := h.createLoop .root hd true mode
  rw [mkdir_walk h.cwd h.root_ne_zero (IsBelow.ne_nil ⟨d, hd⟩), hrun, Option.map_some]
  rcases hn with rfl | hn
  · exact ⟨-1, fs1, rfl, .after hspared hsub h1.stays_refl⟩
  · have h0 := h1.held.linked.ne_zero (h1.held.linked.reached_mem hn.reached)
    simp only [h0, if_false]
    obtain ⟨foreign2, kids2, h2, hspared2, -⟩ := h1.wiped hn mode
    exact ⟨0, _, rfl, .after hspared hsub ⟨foreign2, bs1, live1, kids2, h2, hspared2, fun _ hm => hm⟩⟩

theorem Fenced.mkdirs {ps : Names} (hps : ∀ p ∈ ps, IsBelow p) :
    ∃ fs', ps.foldlM (fun fs p => (Tmpfs.mkdir fs (some p) 0o755).map Prod.snd) fs = some fs' ∧
      StaysFenced fs live fs' := by
  induction ps generalizing foreign fs bs live kids with
  | nil => exact ⟨fs, rfl, h.stays_refl⟩
  | cons p ps ih =>
    obtain ⟨r, fs1, hrun, foreign1, bs1, live1, kids1, h1, hspared, hsub⟩ :=
      h.mkdir (hps p mem_cons_self) 0o755
    obtain ⟨fs2, hrun2, hstays⟩ := ih h1 fun q hq => hps q (mem_cons_of_mem _ hq)
    refine ⟨fs2, ?_, .after hspared hsub hstays⟩
    rw [foldlM_cons, hrun]
    exact hrun2

omit h in
theorem Level.eq_root (hn : Level fs.root kids d n) (hbare : kids fs.root = []) : n = fs.root := by
  induction hn with
  | root => rfl
  | child _ hc ih =>
    rw [ih, hbare] at hc
    cases hc

theorem Fenced.fillFile {path : Bytes} (hp : path ≠ []) (hd : depthOf 0 (tokens path) = some d)
    {data : Bytes} (hmax : data.length ≤ 2 ^ 47) :
    ∃ fs', fillFile path data fs = some fs' ∧ StaysFenced fs live fs' := by
  obtain ⟨n, fs1, bs1, live1, kids1, hrun, h1, hspared, hsub, hn⟩ := h.createLoop .root hd false 0o644
  rcases h.held.fillFile h.cwd hp hrun h1.held (hn.imp id Level.reached) hmax with
    ⟨-, hfill⟩ | ⟨h0, fs', bs', hfill, h', hr⟩
  · exact ⟨fs1, hfill, .after hspared hsub h1.stays_refl⟩
  have hlevel := hn.resolve_left h0
  obtain ⟨q, s, hnodes⟩ := hr.nodes
  -- Nothing is written to a directory, and the root is one.
  have hroot : n = fs1.root → fs'.nodes = fs1.nodes ∧ bs' = bs1 := by
    rintro rfl
    exact hr.dir h1.dir
  have hspared1 : Spared fs1 fs' live1 := by
    refine ⟨hr.root, fun x hx => ?_⟩
    by_cases hxn : x = n
    · subst hxn
      have hmem := h1.held.linked.reached_mem hlevel.reached
      rw [(hroot (hx.resolve_left fun hno => hno hmem)).1]
    · rw [hnodes, update_of_ne hxn]
  refine ⟨fs', hfill, .after hspared hsub
    ⟨foreign, bs', live1, kids1, ?_, hspared1, fun _ hm => hm⟩⟩
  refine h1.step h' hspared1 hr.cwd ?_ rfl ?_ fun x hx hno => absurd hx hno
  · intro hbare
    rw [(hroot (hlevel.eq_root hbare)).2]
    exact id
  · intro x hx
    rw [hnodes, update_apply]
    split_ifs with hxn
    · rw [hxn]
      exact ⟨hxn ▸ hx, rfl, rfl⟩
    · exact ⟨hx, rfl, rfl⟩

/-! ## An entry -/

omit h in
theorem cleanPath_ne_nil (m : Mem) (ptr : Nat) : cleanPath m ptr ≠ [] := by
  have hfull : ∃ l, fullPath m ptr = slash :: l := by
    unfold fullPath
    split_ifs <;> exact ⟨_, rfl⟩
  obtain ⟨l, hl⟩ := hfull
  rw [cleanPath, hl]
  unfold cleanLoop
  rw [if_pos rfl, if_pos (by decide)]
  exact cons_ne_nil _ _

theorem Fenced.loadEntry {ptr : Nat} (hstays : EntryStays m ptr) :
    ∃ fs', loadEntry m ptr fs = some fs' ∧ StaysFenced fs live fs' := by
  unfold Tmpfs.loadEntry
  by_cases hdots : stringAt m ptr = dot ∨ stringAt m ptr = dotdot
  · rw [if_pos hdots]
    exact ⟨fs, rfl, h.stays_refl⟩
  rw [if_neg hdots]
  rw [EntryStays, ← or_assoc] at hstays
  obtain ⟨hdir, hfile⟩ := hstays.resolve_left hdots
  by_cases hd : typeflag m ptr = 0x35
  · rw [if_pos hd]
    obtain ⟨r, fs', hrun, hstays⟩ := h.mkdir (hdir hd) 0o755
    exact ⟨fs', by rw [hrun]; rfl, hstays⟩
  rw [if_neg hd]
  by_cases hf : typeflag m ptr = 0x30 ∨ typeflag m ptr = 0
  · rw [if_pos hf, loadFile_eq, mkdirParents_eq]
    obtain ⟨hparents, d, hdepth⟩ := hfile hf
    obtain ⟨fs1, hrun, foreign1, bs1, live1, kids1, h1, hspared, hsub⟩ := h.mkdirs hparents
    obtain ⟨fs', hfill, hstays⟩ := h1.fillFile (cleanPath_ne_nil m ptr) hdepth
      (show (bytesAt m (ptr + tarBlockSize) (fileSize m ptr)).length ≤ 2 ^ 47 by
        have := fileSize_lt m ptr
        rw [bytesAt, length_map, length_range]
        omega)
    exact ⟨fs', by rw [hrun, Option.bind_some, hfill], .after hspared hsub hstays⟩
  · rw [if_neg hf]
    exact ⟨fs, rfl, h.stays_refl⟩

theorem Fenced.inInitrd (hn : n ∈ live) (hne : n ≠ fs.root) : InInitrd fs n := by
  obtain ⟨i, hi, hunder⟩ := h.under n hn hne
  have hl := h.held.linked
  refine ⟨i, hl.ne_zero (h.top_mem hi), ?_, hunder⟩
  rcases h.top with ⟨hk, -⟩ | ⟨j, hk, hname⟩
  · rw [hk] at hi
    cases hi
  · obtain rfl := mem_singleton.mp (hk ▸ hi)
    have htok : tokens initrdPath = [initrdName] := by decide
    rw [resolvePath_walk initrdPath h.cwd h.root_ne_zero, htok,
      resolveLoop_found hl h.root_mem (by decide) (by decide) ?_ [], resolveLoop]
    rw [hk, find?_cons_of_pos (by simpa using hname)]

end Fenced

theorem StaysFenced.confined {live : List Nat} (h : StaysFenced fs live fs') :
    Confined InInitrd fs fs' := by
  obtain ⟨foreign, bs, live', kids, h', hspared, -⟩ := h
  constructor
  · intro n hn
    by_cases hin : n ∈ live' ∧ n ≠ fs.root
    · exact h'.inInitrd hin.1 (hspared.root ▸ hin.2)
    · rw [not_and_or, not_not] at hin
      exact absurd (hspared.nodes n hin) hn
  · intro n hn
    have hmem := h'.held.linked.reached_mem ((h'.held.linked.inTree_iff n).mp hn)
    by_cases hr : n = fs'.root
    · exact .inl hr
    · exact .inr (h'.inInitrd hmem hr)

/-! ## The first directory -/

theorem fenced_of_first (h : Held foreign fs bs [fs.root] fun _ => []) (hcwd : fs.cwd = fs.root)
    (hdir : (fs.nodes fs.root).isDir = true) :
    ∃ r fs' foreign' bs' live' kids', mkdir fs (some initrdPath) 0o755 = some (r, fs') ∧
      Fenced foreign' fs' bs' live' kids' ∧ (Room nodeSize bs → kids' fs'.root ≠ []) := by
  have hl := h.linked
  have htok : tokens initrdPath = [initrdName] := by decide
  have hmissing : resolveLoop fs.nodes fs.root ([] ++ [initrdName]) = some 0 :=
    resolveLoop_missing hl hl.root_mem (by decide) (by decide) (by simp) []
  have hwalk := createLoop_one true 0o755 rfl (hl.ne_zero hl.root_mem) hmissing
  rw [mkdir_walk hcwd (hl.ne_zero hl.root_mem) (cons_ne_nil _ _), htok]
  rw [nil_append] at hwalk
  rw [hwalk]
  obtain ⟨c, fs1, hadd, hcases⟩ := h.sane.addChild_cases hl.root_mem initrdName true 0o755
  rw [hadd, Option.map_some]
  rcases hcases with ⟨rfl, hframe, hs, hk, -, hno⟩ | ⟨hc0, hcnot, -, hdata, bs1, hs, hgrown, hblock, -⟩
  · have hb : Built Rules.none fs bs [fs.root] (fun _ => []) fs1 bs [fs.root] fun _ => [] :=
      (built_of_heap hframe hk).1
    have hroot := hb.root
    refine ⟨-1, fs1, foreign, bs, [fs.root], fun _ => [], rfl, ?_, fun hr => absurd hr hno⟩
    refine ⟨h.built hs hb, by rw [hframe, hcwd], ?_, .inl ⟨rfl, hno⟩, ?_, ?_⟩
    · rw [hframe]
      exact hdir
    · exact fun n hn hne => absurd ((mem_singleton.mp hn).trans hroot.symm) hne
    · exact fun n hn hne => absurd ((mem_singleton.mp hn).trans hroot.symm) hne
  · have hb : Built Rules.none fs bs [fs.root] (fun _ => []) fs1 bs1 [c, fs.root]
        (grown (fun _ => []) fs.root c) :=
      built_of_add hl.root_mem hcnot (congrArg Node.name hdata :) (congrArg Node.refcount hdata :)
        hgrown.toExtends hblock trivial
    have hroot := hb.root
    have hkids : grown (fun _ => []) fs.root c fs1.root = [c] := by
      rw [hroot, grown_curr, nil_append]
    have hlive : ∀ n ∈ [c, fs.root], n ≠ fs1.root → n = c := by
      intro n hn hne
      rw [hroot] at hne
      simpa [hne] using hn
    have h1 : Fenced foreign fs1 bs1 [c, fs.root] (grown (fun _ => []) fs.root c) := by
      refine ⟨h.built hs hb, by rw [hgrown.frame, hcwd], ?_, .inr ⟨c, hkids, ?_⟩, ?_, ?_⟩
      · rw [hroot]
        exact (congrArg Node.isDir (hgrown.old _ hl.root_mem).2 :).trans hdir
      · exact (congrArg Node.name hdata :)
      · intro n hn hne
        have hparent : (fs1.nodes c).parent = fs.root := (congrArg Node.parent hdata :)
        rw [hlive n hn hne, hparent]
        simp
      · intro n hn hne
        rw [hkids, hlive n hn hne]
        exact ⟨c, mem_singleton_self c, .self⟩
    have hlevel : Level fs1.root (grown (fun _ => []) fs.root c) (0 + 1) c :=
      .child .root (by rw [hkids]; exact mem_singleton_self c)
    obtain ⟨foreign2, kids2, h2, hspared, htop⟩ := h1.wiped hlevel 0o755
    refine ⟨0, _, foreign2, bs1, _, kids2, by rw [if_neg hc0], h2, fun _ => ?_⟩
    change kids2 fs1.root ≠ []
    rw [htop, hkids]
    exact cons_ne_nil _ _

/-! ## The loop -/

/-- There is an entry at `ptr` for the loop. -/
def IsEntry (m : Mem) (fin ptr : Nat) : Prop :=
  (ptr + tarBlockSize) % word ≤ fin ∧ emptyBlock m ptr = false

/-- The addresses that the loop comes to. -/
inductive ComesTo (m : Mem) (fin base : Nat) : Nat → Prop
  | start : ComesTo m fin base base
  | next {ptr : Nat} (h : ComesTo m fin base ptr) (hentry : IsEntry m fin ptr) :
      ComesTo m fin base (nextHeader m ptr)

/-- The states of the loop. -/
inductive Reaches (m : Mem) (fin base : Nat) (fs0 : Fs) : Nat → Fs → Prop
  | start : Reaches m fin base fs0 base fs0
  | next {ptr : Nat} {fs fs' : Fs} (h : Reaches m fin base fs0 ptr fs) (hentry : IsEntry m fin ptr)
      (hload : loadEntry m ptr fs = some fs') : Reaches m fin base fs0 (nextHeader m ptr) fs'

theorem Reaches.comesTo {fin base ptr : Nat} (h : Reaches m fin base fs0 ptr fs) :
    ComesTo m fin base ptr := by
  induction h with
  | start => exact .start
  | next _ hentry _ ih => exact .next ih hentry

theorem Reaches.of_loadLoop {fin base fuel ptr : Nat} (h : Reaches m fin base fs0 ptr fs)
    (hrun : loadLoop m fin fuel ptr fs = some fs') : ∃ ptr', Reaches m fin base fs0 ptr' fs' := by
  induction fuel generalizing ptr fs with
  | zero => cases hrun
  | succ fuel ih =>
    unfold loadLoop at hrun
    split_ifs at hrun with hend hempty
    · cases hrun
      exact ⟨ptr, h⟩
    · cases hrun
      exact ⟨ptr, h⟩
    · obtain ⟨fs1, hload, hrun⟩ := Option.bind_eq_some_iff.mp hrun
      exact ih (.next h ⟨by omega, by simpa using hempty⟩ hload) hrun

theorem Reaches.fenced {fin base ptr : Nat} {live : List Nat} (h0 : Fenced foreign fs0 bs live kids)
    (hstays : ∀ ptr, ComesTo m fin base ptr → IsEntry m fin ptr → EntryStays m ptr)
    (h : Reaches m fin base fs0 ptr fs) :
    ∃ foreign' bs' live' kids', Fenced foreign' fs bs' live' kids' := by
  induction h with
  | start => exact ⟨foreign, bs, live, kids, h0⟩
  | next h hentry hload ih =>
    obtain ⟨foreign1, bs1, live1, kids1, h1⟩ := ih
    obtain ⟨fs2, hrun, foreign2, bs2, live2, kids2, h2, -⟩ :=
      h1.loadEntry (hstays _ h.comesTo hentry)
    rw [hload] at hrun
    obtain rfl := Option.some.inj hrun
    exact ⟨foreign2, bs2, live2, kids2, h2⟩

/-! ## The device file -/

/-- `/dev` has been made behind `/initrd`, and has nothing in it. -/
structure HasDev (fs : Fs) (live : List Nat) (kids : Kids) (i c : Nat) (fs1 : Fs) : Prop where
  top : kids fs.root = [i]
  new : c ≠ fs.root
  name : (fs1.nodes c).name = devName
  old : ∀ n ∈ live, (fs1.nodes n).name = (fs.nodes n).name ∧
    (fs1.nodes n).parent = (fs.nodes n).parent
  frame : ∀ n, n ≠ i → n ≠ c → fs1.nodes n = fs.nodes n

theorem HasDev.kids_root {live : List Nat} (hd : HasDev fs live kids i c fs1) :
    grown kids fs.root c fs.root = [i, c] := by
  rw [grown_curr, hd.top]
  rfl

theorem HasDev.kids_dev {live : List Nat} (hd : HasDev fs live kids i c fs1) :
    grown kids fs.root c c = [] := grown_new hd.new

section Device

variable {foreign : List Nat} {fs : Fs} {bs : List Blk} {live : List Nat} {kids : Kids}
  (h : Fenced foreign fs bs live kids)

include h

theorem Fenced.device_confined {es : List Nat} (hl' : Linked fs'.nodes fs'.root live' kids')
    (hroot : fs'.root = fs.root) (hcwd : fs'.cwd = fs.cwd) (hk : kids fs.root = [i])
    (hkr : kids' fs.root = [i, c]) (hkc : kids' c = es)
    (hlive : ∀ n ∈ live', n ∈ live ∨ n = c ∨ n ∈ es)
    (hold : ∀ n ∈ live, (fs'.nodes n).name = (fs.nodes n).name ∧
      (fs'.nodes n).parent = (fs.nodes n).parent) (hdev : (fs'.nodes c).name = devName)
    (hes : ∀ e ∈ es, es = [e] ∧ (fs'.nodes e).name = initrdName)
    (hframe : ∀ n, n ≠ i → n ≠ c → n ∉ es → fs'.nodes n = fs.nodes n) :
    Confined (fun fs n => InInitrd fs n ∨ IsDev fs n) fs fs' := by
  have hl := h.held.linked
  have hmem := hl'.root_mem
  have h0 : fs'.root ≠ 0 := hroot ▸ h.root_ne_zero
  have hhome : fs'.cwd = fs'.root := by rw [hcwd, hroot, h.cwd]
  have hname : (fs'.nodes i).name = initrdName := by
    rw [(hold i (h.top_mem (by simp [hk]))).1]
    rcases h.top with ⟨hbare, -⟩ | ⟨j, hj, hname⟩
    · rw [hk] at hbare
      cases hbare
    · rw [hk] at hj
      cases hj
      exact hname
  -- The three paths.
  have hinitrd : resolvePath fs' (some initrdPath) = some i := by
    have htok : tokens initrdPath = [initrdName] := by decide
    rw [resolvePath_walk initrdPath hhome h0, htok,
      resolveLoop_found hl' hmem (by decide) (by decide) ?_ [], resolveLoop]
    rw [hroot, hkr, find?_cons_of_pos (by simpa using hname)]
  have hfinddev : (kids' fs'.root).find? (fun c => (fs'.nodes c).name = devName) = some c := by
    rw [hroot, hkr, find?_cons_of_neg (by rw [hname]; decide),
      find?_cons_of_pos (by simpa using hdev)]
  have hpathdev : resolvePath fs' (some (slash :: devName)) = some c := by
    have htok : tokens (slash :: devName) = [devName] := by decide
    rw [resolvePath_walk _ hhome h0, htok,
      resolveLoop_found hl' hmem (by decide) (by decide) hfinddev [], resolveLoop]
  have hc : c ∈ live' := (hl'.child _ hmem c (by rw [hroot, hkr]; simp)).1
  have hpath : ∀ e ∈ es, resolvePath fs' (some devInitrdPath) = some e := by
    intro e he
    obtain ⟨hone, hname⟩ := hes e he
    have htok : tokens devInitrdPath = [devName, initrdName] := by decide
    rw [resolvePath_walk _ hhome h0, htok,
      resolveLoop_found hl' hmem (by decide) (by decide) hfinddev,
      resolveLoop_found hl' hc (by decide) (by decide) ?_ [], resolveLoop]
    rw [hkc, hone, find?_cons_of_pos (by simpa using hname)]
  have hin : ∀ n ∈ live, n ≠ fs.root → InInitrd fs' n := by
    intro n hn hne
    obtain ⟨j, hj, hunder⟩ := h.under n hn hne
    have hj0 := hl.ne_zero (h.top_mem hj)
    rw [hk] at hj
    obtain rfl := mem_singleton.mp hj
    exact ⟨j, hj0, hinitrd, hunder.congr hn hj0 hl.top h.parents fun m hm => (hold m hm).2⟩
  have hin' : ∀ n ∈ live', n ≠ fs'.root → InInitrd fs' n ∨ IsDev fs' n := by
    intro n hn hne
    rcases hlive n hn with hn' | rfl | he
    · exact .inl (hin n hn' (hroot ▸ hne))
    · exact .inr ⟨hl'.ne_zero hn, .inl hpathdev⟩
    · exact .inr ⟨hl'.ne_zero hn, .inr (hpath n he)⟩
  constructor
  · intro n hn
    by_cases hni : n = i
    · rw [hni]
      exact .inl ⟨i, hl.ne_zero (h.top_mem (by simp [hk])), hinitrd, .self⟩
    by_cases hnc : n = c
    · rw [hnc]
      exact .inr ⟨hl'.ne_zero hc, .inl hpathdev⟩
    by_cases hne : n ∈ es
    · exact .inr ⟨hl'.ne_zero (hl'.child c hc n (hkc ▸ hne)).1, .inr (hpath n hne)⟩
    · exact absurd (hframe n hni hnc hne) hn
  · intro n hn
    have hn' := hl'.reached_mem ((hl'.inTree_iff n).mp hn)
    by_cases hr : n = fs'.root
    · exact .inl hr
    · exact .inr (hin' n hn' hr)

theorem Fenced.hasDev (hadd : Tmpfs.addChild fs fs.root devName true 0o755 = some (c, fs1))
    (hc0 : c ≠ 0) (hcnot : c ∉ live)
    (hdata : (fs1.nodes c).data = newNode devName fs.root true 0o755)
    (hgrown : Grown fs bs live fs1 bs1 (c :: live)) : ∃ i, HasDev fs live kids i c fs1 := by
  obtain ⟨i, hk⟩ : ∃ i, kids fs.root = [i] := by
    rcases h.top with ⟨-, hfull⟩ | ⟨i, hk, -⟩
    · exact absurd (h.held.sane.addChild_room hadd hc0) hfull
    · exact ⟨i, hk⟩
  refine ⟨i, hk, (ne_of_mem_of_not_mem h.root_mem hcnot).symm, (congrArg Node.name hdata :), ?_, ?_⟩
  · intro n hn
    have hsame := (hgrown.old n hn).2
    exact ⟨(congrArg Node.name hsame :), (congrArg Node.parent hsame :)⟩
  · intro n hni hnc
    exact h.held.sane.addChild_frame h.root_mem hadd hcnot hnc (fun _ => by simp [hk])
      (by simpa [hk] using hni)

theorem Fenced.device_file {e : Nat} {bs2 : List Blk} (hd : HasDev fs live kids i c fs1)
    (hs : Sane foreign fs1 bs1 (c :: live) (grown kids fs.root c))
    (hb : Built Rules.none fs bs live kids fs1 bs1 (c :: live) (grown kids fs.root c))
    (hadd : Tmpfs.addChild fs1 c initrdName false 0o644 = some (e, fs2)) (henot : e ∉ c :: live)
    (hdata : (fs2.nodes e).data = newNode initrdName c false 0o644)
    (hs2 : Sane foreign fs2 bs2 (e :: c :: live) (grown (grown kids fs.root c) c e))
    (hb2 : Built Rules.none fs1 bs1 (c :: live) (grown kids fs.root c) fs2 bs2 (e :: c :: live)
      (grown (grown kids fs.root c) c e)) :
    ∃ fs', closeOpened (openNode (marked fs2 e) e (oCreat ||| oBuiltinDeviceFile) 0o644) = some fs' ∧
      Confined (fun fs n => InInitrd fs n ∨ IsDev fs n) fs fs' := by
  have hec : e ≠ c := fun hec => henot (by simp [hec])
  have heroot : fs.root ≠ e := fun he => henot (by rw [← he]; simp [h.root_mem])
  have hroot : (marked fs2 e).root = fs.root := hb2.root.trans hb.root
  have hkr : grown (grown kids fs.root c) c e fs.root = [i, c] := by
    rw [grown_of_ne hd.new.symm heroot, hd.kids_root]
  have hkc : grown (grown kids fs.root c) c e c = [e] := by
    rw [grown_curr, hd.kids_dev]
    rfl
  have h2 : Held foreign (marked fs2 e) bs2 (e :: c :: live) (grown (grown kids fs.root c) c e) :=
    ((h.held.built hs hb).built hs2 hb2).setNode ⟨rfl, rfl, rfl, rfl⟩ rfl
  have hreach : Reached (marked fs2 e).root (grown (grown kids fs.root c) c e) e := by
    rw [hroot]
    have hc : c ∈ grown (grown kids fs.root c) c e fs.root := by simp [hkr]
    exact .child (.child .root hc) (by simp [hkc])
  obtain ⟨fs', bs', hrun, h', hr⟩ :=
    opened_and_closed h2 hreach (oCreat ||| oBuiltinDeviceFile) 0o644
  obtain ⟨q, s, hnodes⟩ := hr.nodes
  have hother : ∀ n, n ≠ e → fs'.nodes n = fs2.nodes n := by
    intro n hn
    rw [hnodes, update_of_ne hn, marked_of_ne hn]
  refine ⟨fs', hrun, h.device_confined h'.linked (hr.root.trans hroot) ?_ hd.top hkr hkc ?_ ?_ ?_
    ?_ ?_⟩
  · rw [hr.cwd]
    change fs2.cwd = fs.cwd
    rw [hb2.ext.frame, hb.ext.frame]
  · intro n hn
    simp only [mem_cons] at hn
    rcases hn with hn | hn | hn
    · exact .inr (Or.inr (by simp [hn]))
    · exact .inr (Or.inl hn)
    · exact .inl hn
  · intro n hn
    have hnc := mem_cons_of_mem c hn
    rw [hother n (ne_of_mem_of_not_mem hnc henot)]
    have hsame := (hb2.ext.old n hnc).2
    exact ⟨(congrArg Node.name hsame :).trans (hd.old n hn).1,
      (congrArg Node.parent hsame :).trans (hd.old n hn).2⟩
  · rw [hother c hec.symm]
    exact (congrArg Node.name (hb2.ext.old c mem_cons_self).2 :).trans hd.name
  · intro n hn
    rw [mem_singleton.mp hn]
    refine ⟨rfl, ?_⟩
    rw [hnodes, update_self, marked_self]
    exact (congrArg Node.name hdata :)
  · intro n hni hnc hne
    rw [mem_singleton] at hne
    rw [hother n hne, ← hd.frame n hni hnc]
    refine hs.addChild_frame mem_cons_self hadd henot hne (fun hn => absurd hn hnc) ?_
    rw [hd.kids_dev]
    exact not_mem_nil

theorem Fenced.makeDeviceFile : ∃ fs', makeDeviceFile fs = some fs' ∧
    Confined (fun fs n => InInitrd fs n ∨ IsDev fs n) fs fs' := by
  have hl := h.held.linked
  have hnames : ∀ c ∈ kids fs.root, (fs.nodes c).name ≠ devName := by
    rcases h.top with ⟨hk, -⟩ | ⟨i, hk, hname⟩
    · simp [hk]
    · rw [hk]
      intro c hc
      rw [mem_singleton.mp hc, hname]
      decide
  rw [makeDeviceFile_missing h.cwd h.root_ne_zero
      (resolveLoop_missing hl h.root_mem (by decide) (by decide) hnames _),
    createLoop_missing hl h.root_mem (by decide) (by decide) hnames]
  simp only [isEmpty_cons, Bool.false_eq_true, if_false]
  obtain ⟨c, fs1, hadd, hcases⟩ := h.held.sane.addChild_cases h.root_mem devName true 0o755
  rw [hadd, Option.bind_some]
  rcases hcases with ⟨rfl, hframe, hs, hk, -⟩ | ⟨hc0, hcnot, -, hdata, bs1, hs, hgrown, hblock, -⟩
  · obtain ⟨h1, hspared⟩ := h.heap hframe hs hk
    refine ⟨fs1, rfl, ?_⟩
    have hconf := StaysFenced.confined (.after hspared (fun _ hm => hm) h1.stays_refl)
    exact ⟨fun n hn => .inl (hconf.changed n hn), fun n hn => (hconf.found n hn).imp id Or.inl⟩
  obtain ⟨i, hd⟩ := h.hasDev hadd hc0 hcnot hdata hgrown
  have hb : Built Rules.none fs bs live kids fs1 bs1 (c :: live) (grown kids fs.root c) :=
    built_of_add h.root_mem hcnot (congrArg Node.name hdata :) (congrArg Node.refcount hdata :)
      hgrown.toExtends hblock trivial
  rw [if_neg hc0, createLoop_missing hs.linked mem_cons_self (by decide) (by decide)
    (by simp [hd.kids_dev])]
  simp only [isEmpty_nil, if_true]
  obtain ⟨e, fs2, hadd2, hcases⟩ := hs.addChild_cases mem_cons_self initrdName false 0o644
  rw [hadd2, Option.bind_some]
  rcases hcases with ⟨rfl, hframe2, hs2, -⟩ | ⟨he0, henot, -, hdata2, bs2, hs2, hgrown2, hblock2, -⟩
  · have hnodes : fs2.nodes = fs1.nodes := by rw [hframe2]
    refine ⟨fs2, rfl, h.device_confined hs2.linked ?_ ?_ hd.top hd.kids_root hd.kids_dev ?_ ?_ ?_ ?_ ?_⟩
    · rw [hframe2]
      exact hb.root
    · rw [hframe2, hgrown.frame]
    · intro n hn
      rcases mem_cons.mp hn with hn | hn
      · exact .inr (Or.inl hn)
      · exact .inl hn
    · rw [hnodes]
      exact hd.old
    · rw [hnodes]
      exact hd.name
    · exact fun e he => absurd he not_mem_nil
    · rw [hnodes]
      exact fun n hni hnc _ => hd.frame n hni hnc
  · have hb2 : Built Rules.none fs1 bs1 (c :: live) (grown kids fs.root c) fs2 bs2 (e :: c :: live)
        (grown (grown kids fs.root c) c e) :=
      built_of_add mem_cons_self henot (congrArg Node.name hdata2 :)
        (congrArg Node.refcount hdata2 :) hgrown2.toExtends hblock2 trivial
    rw [if_neg he0, Tmpfs.createLoop, Option.bind_some, if_neg he0]
    exact h.device_file hd hs hb hadd2 henot hdata2 hs2 hb2

end Device

/-! ## The whole archive -/

/-- Each entry stays in `/initrd`, where the directories of the paths do. -/
theorem initrd_confined {σ : Type} {reserveHeap : Nat → σ → Nat × σ} {hm : Mem} {s : σ} {fs1 : Fs}
    (hstart : Started reserveHeap hm s fs1) (m : Mem) (base size : Nat)
    (hstays : ∀ ptr, ComesTo m ((base + size) % word) base ptr →
      IsEntry m ((base + size) % word) ptr → EntryStays m ptr) :
    ∃ r fs0, mkdir fs1 (some initrdPath) 0o755 = some (r, fs0) ∧
      (∀ ptr fs, Reaches m ((base + size) % word) base fs0 ptr fs →
        IsEntry m ((base + size) % word) ptr →
        ∃ fs', loadEntry m ptr fs = some fs' ∧ Confined InInitrd fs fs') ∧
      ∀ fs2, loadLoop m ((base + size) % word) word base fs0 = some fs2 →
        ∃ fs', loadInitrd m base size fs1 = some fs' ∧
          Confined (fun fs n => InInitrd fs n ∨ IsDev fs n) fs2 fs' := by
  obtain ⟨foreign, bs, hheld, hcwd, hdir, -⟩ := hstart.held
  obtain ⟨r, fs0, foreign0, bs0, live0, kids0, hmk, h0, -⟩ := fenced_of_first hheld hcwd hdir
  refine ⟨r, fs0, hmk, ?_, ?_⟩
  · intro ptr fs hreach hentry
    obtain ⟨foreign', bs', live', kids', h⟩ := hreach.fenced h0 hstays
    obtain ⟨fs', hrun, hfenced⟩ := h.loadEntry (hstays ptr hreach.comesTo hentry)
    exact ⟨fs', hrun, hfenced.confined⟩
  · intro fs2 hloop
    obtain ⟨ptr, hreach⟩ := Reaches.of_loadLoop .start hloop
    obtain ⟨foreign', bs', live', kids', h⟩ := hreach.fenced h0 hstays
    obtain ⟨fs', hrun, hconf⟩ := h.makeDeviceFile
    refine ⟨fs', ?_, hconf⟩
    rw [loadInitrd_eq, hmk, Option.bind_some, hloop, Option.bind_some, hrun]

/-- A header at the start of memory, with zeros behind it. -/
def headerOf (name : Bytes) (flag : Byte) : Mem := fun a =>
  if a = 156 then flag else (name[a]?).getD 0

theorem initrd_confined_directory :
    IsEntry (headerOf [0x61, slash] 0x35) 1024 0 ∧ ∃ fs1 r fs0 fs',
      StartedAtOneMib fs1 ∧
      mkdir fs1 (some initrdPath) 0o755 = some (r, fs0) ∧
      loadEntry (headerOf [0x61, slash] 0x35) 0 fs0 = some fs' ∧ Confined InInitrd fs0 fs' := by
  have hentry : IsEntry (headerOf [0x61, slash] 0x35) 1024 0 :=
    ⟨by decide, by decide +kernel⟩
  have hstays : ∀ ptr, ComesTo (headerOf [0x61, slash] 0x35) 1024 0 ptr →
      IsEntry (headerOf [0x61, slash] 0x35) 1024 ptr → EntryStays (headerOf [0x61, slash] 0x35) ptr := by
    intro ptr hptr hentry
    have hcomes : ptr = 0 ∨ ptr = 512 := by
      induction hptr with
      | start => exact .inl rfl
      | next _ hentry' ih =>
        rcases ih hentry' with rfl | rfl
        · exact .inr (by decide +kernel)
        · exact absurd hentry'.2 (by decide +kernel)
    rcases hcomes with rfl | rfl
    · refine .inr (Or.inr ⟨fun _ => ⟨1, by decide +kernel⟩, fun hflag => ?_⟩)
      exact absurd hflag (by decide +kernel)
    · exact absurd hentry.2 (by decide +kernel)
  obtain ⟨fs1, -, -, hstarted, -⟩ := blank_started
  obtain ⟨r, fs0, hmk, hentries, -⟩ := initrd_confined hstarted _ 0 1024 hstays
  obtain ⟨fs', hrun, hconf⟩ := hentries 0 fs0 .start hentry
  exact ⟨hentry, fs1, r, fs0, fs', hstarted, hmk, hrun, hconf⟩

/-- The directory `../` is the root, which loses its children. -/
theorem dotdot_clears_root :
    IsEntry (headerOf [0x2E, 0x2E, slash] 0x35) 1024 0 ∧ ∃ fs1 r fs0 fs',
      StartedAtOneMib fs1 ∧
      mkdir fs1 (some initrdPath) 0o755 = some (r, fs0) ∧
      loadEntry (headerOf [0x2E, 0x2E, slash] 0x35) 0 fs0 = some fs' ∧
      fs'.nodes fs0.root ≠ fs0.nodes fs0.root ∧ resolvePath fs' (some initrdPath) = some 0 ∧
      ¬ Confined InInitrd fs0 fs' := by
  refine ⟨⟨by decide, by decide +kernel⟩, ?_⟩
  obtain ⟨fs1, bs1, -, hstarted, hheld, hcwd1, hdir1, -, hroom⟩ := blank_started
  obtain ⟨r, fs0, foreign, bs, live, kids, hmk, h, htop⟩ := fenced_of_first hheld hcwd1 hdir1
  have hl := h.held.linked
  obtain ⟨i, hk, hname⟩ : ∃ i, kids fs0.root = [i] ∧ (fs0.nodes i).name = initrdName := by
    rcases h.top with ⟨hbare, -⟩ | hi
    · exact absurd hbare (htop (hroom.mono (by decide)))
    · exact hi
  -- The walk goes down to `/initrd` and up again.
  have hpath : cleanPath (headerOf [0x2E, 0x2E, slash] 0x35) 0 =
      initrdPath ++ [slash, 0x2E, 0x2E, slash] := by decide +kernel
  have htok : tokens (initrdPath ++ [slash, 0x2E, 0x2E, slash]) = [initrdName, dotdot] := by decide
  have hwalk : resolveLoop fs0.nodes fs0.root [initrdName, dotdot] = some fs0.root := by
    rw [resolveLoop_found hl h.root_mem (by decide) (by decide)
      (by rw [hk, find?_cons_of_pos (by simpa using hname)]), resolveLoop_cons,
      if_neg (by decide), if_pos rfl, up, (hl.child _ h.root_mem i (by simp [hk])).2,
      if_pos h.root_ne_zero, resolveLoop]
  have hmake : createLoop true 0o755 fs0 fs0.root ([initrdName, dotdot] ++ []) =
      some (fs0.root, fs0) := createLoop_append true 0o755 [] hwalk h.root_ne_zero
  rw [append_nil] at hmake
  have hload : loadEntry (headerOf [0x2E, 0x2E, slash] 0x35) 0 fs0 =
      some (fs0.setNode fs0.root (wiped 0o755)) := by
    unfold loadEntry
    rw [if_neg (by decide +kernel), if_pos (by decide +kernel), hpath,
      mkdir_walk h.cwd h.root_ne_zero (by decide), htok, hmake, Option.map_some, if_neg h.root_ne_zero]
    rfl
  have hchanged : (fs0.setNode fs0.root (wiped 0o755)).nodes fs0.root ≠ fs0.nodes fs0.root := by
    intro heq
    have hfirst : (0 : Nat) = (fs0.nodes fs0.root).firstChild := by
      rw [← heq, setNode_nodes, if_pos rfl]
      rfl
    have := (hl.chain _ h.root_mem).null_iff.mp hfirst.symm
    rw [hk] at this
    cases this
  have hl' := hl.wipe (Or.inr ⟨rfl, rfl⟩) 0o755
  have hgone : resolvePath (fs0.setNode fs0.root (wiped 0o755)) (some initrdPath) = some 0 := by
    have htok : tokens initrdPath = [initrdName] := by decide
    have hhome : (fs0.setNode fs0.root (wiped 0o755)).cwd = (fs0.setNode fs0.root (wiped 0o755)).root :=
      h.cwd
    rw [resolvePath_walk initrdPath hhome h.root_ne_zero, htok]
    refine resolveLoop_missing hl' h.root_mem (by decide) (by decide) ?_ []
    simp [cut]
  refine ⟨fs1, r, fs0, _, hstarted, hmk, hload, hchanged, hgone, fun hconf => ?_⟩
  obtain ⟨j, hj0, hj, -⟩ := hconf.changed fs0.root hchanged
  rw [hgone] at hj
  exact hj0 (Option.some.inj hj).symm

end Terrakernel.Tmpfs
