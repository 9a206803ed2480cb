import Terrakernel.Tmpfs.Walk

/-!
# Directories and files, by their paths

A view gives the kind of node at each path.
-/

namespace Terrakernel.Tmpfs

open Function List Option Memory Vmm Links Heap Paths

variable {fs fs' : Fs} {bs bs' : List Blk} {kids : Kids} {q P : Names}
  {n : Nat} {p : Bytes}

inductive Kind where
  | dir
  | file (data : Bytes)
  deriving DecidableEq, Repr

variable {k : Kind}

abbrev View := Names → Option Kind

variable {V : View}

def HasKind (fs : Fs) (bs : List Blk) (n : Nat) : Kind → Prop
  | .dir => (fs.nodes n).isDir = true
  | .file data => HasData fs bs n data

/-- Every path leads to what the view has there. -/
def Shows (fs : Fs) (bs : List Blk) (kids : Kids) (V : View) : Prop :=
  ∀ q, match V q with
    | none => look fs kids q = none
    | some k => ∃ n, look fs kids q = some n ∧ HasKind fs bs n k

theorem Shows.none (h : Shows fs bs kids V) (hq : V q = none) : look fs kids q = none := by
  have := h q
  rwa [hq] at this

theorem Shows.some (h : Shows fs bs kids V) (hq : V q = some k) :
    ∃ n, look fs kids q = some n ∧ HasKind fs bs n k := by
  have := h q
  rwa [hq] at this

theorem HasKind.keeps {gone : List Nat} (h : HasKind fs bs n k)
    (hk : Keeps gone fs.heap bs fs'.heap bs') (hgone : ∀ x ∈ gone, x = 0)
    (hdir : (fs'.nodes n).isDir = (fs.nodes n).isDir)
    (hsize : (fs'.nodes n).size = (fs.nodes n).size)
    (hcontent : (fs'.nodes n).content = (fs.nodes n).content) : HasKind fs' bs' n k := by
  cases k with
  | dir => exact hdir.trans h
  | file data =>
    have hblock : data ≠ [] → ∃ b ∈ bs, b.ptr = (fs.nodes n).content ∧ b.free = false ∧
        data.length ≤ b.len ∧ b.ptr ∉ gone := by
      intro hne
      obtain ⟨b, hb, hptr, hfree, hlen⟩ := h.block hne
      refine ⟨b, hb, hptr, hfree, hlen, fun hmem => ?_⟩
      have h0 : b.ptr ≠ 0 := by simp [Blk.ptr]
      exact h0 (hgone _ hmem)
    refine ⟨hdir.trans h.file, hsize.trans h.size, ?_, ?_⟩
    · intro hne
      obtain ⟨b, hb, hptr, hfree, hlen, hstays⟩ := hblock hne
      exact ⟨b, hk.blocks b hb hfree hstays, hptr.trans hcontent.symm, hfree, hlen⟩
    · intro j v hv
      have hj := (List.getElem?_eq_some_iff.mp hv).1
      obtain ⟨b, hb, hptr, hfree, hlen, hstays⟩ := hblock (ne_nil_of_length_pos (by omega))
      have hfin : b.fin = b.ptr + b.len := rfl
      rw [hcontent, hk.bytes b hb hfree hstays _ (by omega) (by omega)]
      exact h.bytes j v hv

theorem HasKind.congr (h : HasKind fs bs n k) (hheap : fs'.heap = fs.heap)
    (hnode : fs'.nodes n = fs.nodes n) : HasKind fs' bs n k := by
  cases k with
  | dir => exact (congrArg Node.isDir hnode).trans h
  | file data =>
    obtain ⟨hfile, hsize, hblock, hbytes⟩ := h
    rw [← hnode] at hfile hsize hblock hbytes
    rw [← hheap] at hbytes
    exact ⟨hfile, hsize, hblock, hbytes⟩

theorem HasKind.extends {live live' : List Nat} (h : HasKind fs bs n k)
    (hext : Extends fs bs live fs' bs' live') (hn : n ∈ live) : HasKind fs' bs' n k := by
  have hdata := (hext.old n hn).2
  exact h.keeps hext.keeps (by simp) (congrArg Node.isDir hdata :) (congrArg Node.size hdata :)
    (congrArg Node.content hdata :)

/-! ## More paths -/

/-- The view with `k` at the path `P`, and the directories on the way. -/
def withPath (V : View) (P : Names) (k : Kind) : View := fun q =>
  (V q).or (if q = P then some k else if q <+: P then some .dir else none)

theorem withPath_of_some (h : V q = some k) (P : Names) (k' : Kind) :
    withPath V P k' q = some k := by
  rw [withPath, h, some_or]

theorem withPath_self (h : V P = none) (k : Kind) : withPath V P k P = some k := by
  rw [withPath, h, none_or, if_pos rfl]

theorem withPath_eq_none : withPath V P k q = none ↔ V q = none ∧ ¬ q <+: P := by
  rw [withPath, or_eq_none_iff]
  refine and_congr_right fun _ => ?_
  by_cases hq : q = P
  · simp [hq]
  · simp [hq]

/-- The path `P` was made. -/
structure Grew (fs : Fs) (bs : List Blk) (kids : Kids) (P : Names) (k : Kind)
    (fs' : Fs) (bs' : List Blk) (kids' : Kids) : Prop where
  node : ∃ n, look fs' kids' P = some n ∧ HasKind fs' bs' n k
  old : ∀ q x, look fs kids q = some x →
    look fs' kids' q = some x ∧ ∀ k, HasKind fs bs x k → HasKind fs' bs' x k
  found : ∀ q, look fs kids q = none → q ≠ P → q <+: P →
    ∃ x, look fs' kids' q = some x ∧ (fs'.nodes x).isDir = true
  missing : ∀ q, look fs kids q = none → ¬ q <+: P → look fs' kids' q = none

theorem Grew.shows {kids' : Kids} (h : Grew fs bs kids P k fs' bs' kids')
    (hV : Shows fs bs kids V) : Shows fs' bs' kids' (withPath V P k) := by
  intro q
  unfold withPath
  cases hq : V q with
  | some k' =>
    obtain ⟨n, hn, hkind⟩ := hV.some hq
    obtain ⟨hn', hkind'⟩ := h.old q n hn
    exact ⟨n, hn', hkind' k' hkind⟩
  | none =>
    have hno := hV.none hq
    rw [none_or]
    by_cases hqP : q = P
    · rw [if_pos hqP, hqP]
      exact h.node
    by_cases hpre : q <+: P
    · rw [if_neg hqP, if_pos hpre]
      exact h.found q hno hqP hpre
    · rw [if_neg hqP, if_neg hpre]
      exact h.missing q hno hpre

/-! ## The state between two entries -/

/-- No descriptor is taken, and relative paths start at the root. -/
structure Ready (foreign : List Nat) (fs : Fs) (bs : List Blk) (live : List Nat)
    (kids : Kids) : Prop extends Held foreign fs bs live kids where
  home : fs.cwd = fs.root
  free : ∀ i, (fs.fds i).free = true

section Ready

variable {foreign : List Nat} {fs : Fs} {bs : List Blk} {live : List Nat} {kids : Kids}
  (h : Ready foreign fs bs live kids)

include h

theorem Ready.root_ne_zero : fs.root ≠ 0 := h.ne_zero .root

theorem Ready.resolveLoop_eq {P : Names} (hP : ∀ t ∈ P, IsName t) :
    resolveLoop fs.nodes fs.root P = some ((look fs kids P).getD 0) :=
  h.linked.resolveLoop_eq hP h.linked.root_mem

theorem Ready.resolvePath_eq (hP : ∀ t ∈ P, IsName t) (htok : tokens p = P) :
    resolvePath fs (some p) = some ((look fs kids P).getD 0) := by
  rw [resolvePath_walk p h.home h.root_ne_zero, htok, h.resolveLoop_eq hP]

omit h in
theorem named_cut {nodes : Nat → Node} {root p n : Nat} {t : Bytes}
    (hl : Linked nodes root live kids) (hp : p ∈ live) (hnp : p ≠ n)
    (hn : named nodes kids p t = some n) : named nodes (cut kids p n) p t = some n := by
  obtain ⟨l, r, hk⟩ := append_of_mem (named_some hn).1
  have hnodup := (hl.chain p hp).nodup
  rw [hk] at hnodup
  have hnl : n ∉ l := fun hmem =>
    (nodup_append.mp hnodup).2.2 n hmem n mem_cons_self rfl
  unfold named at hn ⊢
  rw [cut, update_of_ne hnp, update_self, hk, upTo_append r hnl]
  rw [hk, find?_append] at hn
  rw [find?_append]
  cases hfind : l.find? (fun c => (nodes c).name = t) with
  | some x =>
    rw [hfind, some_or, some.injEq] at hn
    exact absurd (mem_of_find?_eq_some hfind) (hn ▸ hnl)
  | none =>
    rw [hfind, none_or] at hn
    rw [none_or, find?_cons_of_pos (find?_some hn)]

/-- `mkdir` has cut off what was below `P`, and maybe some of what was beside it. -/
structure Emptied (fs : Fs) (bs : List Blk) (kids : Kids) (P : Names) (fs' : Fs)
    (kids' : Kids) : Prop where
  stays : ∀ q, q <+: P → look fs' kids' q = look fs kids q
  below : ∀ q, P <+: q → q ≠ P → look fs' kids' q = none
  was : ∀ q x, look fs' kids' q = some x → look fs kids q = some x
  dir : ∀ n, look fs kids P = some n → (fs'.nodes n).isDir = true
  kind : ∀ q x k, look fs' kids' q = some x → q ≠ P → HasKind fs bs x k → HasKind fs' bs x k

omit h in
theorem look_of_cut {p : Nat} {x : Nat} (hx : look fs (cut kids p n) q = some x) :
    look fs kids q = some x := by
  induction q using reverseRecOn generalizing x with
  | nil => exact hx
  | append_singleton q u ih =>
    obtain ⟨m, hm, hxm⟩ := look_snoc_some hx
    rw [look_snoc, ih hm]
    exact (cut_isPrefix kids p n m).find?_eq_some hxm

section Cut

variable (hl : Linked fs.nodes fs.root live kids) {R : Names} {t : Bytes} {p n : Nat}
  (hp : look fs kids R = some p) (hn : named fs.nodes kids p t = some n)

omit h
include hl hp hn

theorem look_cut_above {q : Names} (hq : q <+: R ++ [t]) :
    look fs (cut kids p n) q = look fs kids q := by
  have hlook : look fs kids (R ++ [t]) = some n := by rw [look_snoc, hp]; exact hn
  have hnp : p ≠ n := by
    rintro rfl
    have := congrArg List.length (hl.look_inj hp hlook)
    simp at this
  apply follow_congr
  intro r i m hr hm
  have hlt : r.length < (R ++ [t]).length := by
    have := length_lt_of_snoc (hr.trans hq)
    omega
  have hmn : m ≠ n := by
    rintro rfl
    rw [hl.look_inj hm hlook] at hlt
    omega
  by_cases hmp : m = p
  · subst hmp
    obtain rfl := hl.look_inj hm hp
    obtain rfl : i = t := by
      have := (hr.trans hq).eq_of_length (by simp)
      simpa using this
    rw [named_cut hl (hl.look_mem hp) hnp hn, hn]
  · unfold named
    rw [cut, update_of_ne hmn, update_of_ne hmp]

theorem emptied_of_cut (mode : Nat) :
    Emptied fs bs kids (R ++ [t]) (fs.setNode n (wiped mode)) (cut kids p n) := by
  have hlook : look fs kids (R ++ [t]) = some n := by rw [look_snoc, hp]; exact hn
  have hnodes : ∀ m, (fs.setNode n (wiped mode)).nodes m =
      if m = n then wiped mode (fs.nodes m) else fs.nodes m := setNode_nodes fs n (wiped mode)
  have hcut : ∀ q, look (fs.setNode n (wiped mode)) (cut kids p n) q = look fs (cut kids p n) q := by
    refine look_congr rfl fun m => ?_
    rw [hnodes]
    split_ifs <;> rfl
  refine ⟨fun q hq => ?_, ?_, fun q x hx => ?_, ?_, ?_⟩
  · rw [hcut, look_cut_above hl hp hn hq]
  · rintro q ⟨r, rfl⟩ hne
    cases r with
    | nil => exact absurd (append_nil _) hne
    | cons u us =>
      rw [hcut]
      cases hq : look fs (cut kids p n) (R ++ [t] ++ u :: us) with
      | none => rfl
      | some x =>
        have hpre : R ++ [t] ++ [u] <+: R ++ [t] ++ u :: us :=
          (prefix_append_right_inj _).mpr ⟨us, rfl⟩
        obtain ⟨y, hy⟩ := look_above hq hpre
        obtain ⟨m, hm, hmy⟩ := look_snoc_some hy
        rw [look_cut_above hl hp hn (prefix_refl _), hlook] at hm
        obtain rfl := some.inj hm
        have := (named_some hmy).1
        rw [cut, update_self] at this
        cases this
  · rw [hcut] at hx
    exact look_of_cut hx
  · intro m hm
    obtain rfl := some.inj (hlook.symm.trans hm)
    rw [hnodes, if_pos rfl]
    rfl
  · intro q x k hx hne hkind
    rw [hcut] at hx
    have hxn : x ≠ n := by
      rintro rfl
      exact hne (hl.look_inj (look_of_cut hx) hlook)
    exact hkind.congr rfl (by rw [hnodes, if_neg hxn])

end Cut

theorem Ready.createLoop_found (hP : ∀ t ∈ P, IsName t) (hn : look fs kids P = some n)
    (isDir : Bool) (mode : Nat) : createLoop isDir mode fs fs.root P = some (n, fs) := by
  have hwalk : resolveLoop fs.nodes fs.root P = some n := by rw [h.resolveLoop_eq hP, hn]; rfl
  have hmake : createLoop isDir mode fs fs.root (P ++ []) = some (n, fs) :=
    createLoop_append isDir mode [] hwalk (h.ne_zero (look_reached hn))
  rwa [append_nil] at hmake

theorem Ready.mkdir_old (hp : p ≠ []) (htok : tokens p = P) (hne : P ≠ []) (hP : ∀ t ∈ P, IsName t)
    (hn : look fs kids P = some n) (mode : Nat) :
    ∃ fs' foreign' kids', mkdir fs (some p) mode = some (0, fs') ∧ Ready foreign' fs' bs live kids' ∧
      fs'.heap = fs.heap ∧ Emptied fs bs kids P fs' kids' := by
  have hl := h.linked
  have hmem := hl.look_mem hn
  have h0 := hl.ne_zero hmem
  have hmake := h.createLoop_found hP hn true mode
  obtain ⟨R, t, rfl⟩ := (eq_nil_or_concat' P).resolve_left hne
  obtain ⟨m, hm, hnm⟩ := look_snoc_some hn
  have hchild := (named_some hnm).1
  have hkeep : ¬ CutOff fs n fs.cwd := by
    rw [h.home]
    exact hl.not_cutOff_root (hl.look_mem hm) hchild
  obtain ⟨⟨foreign', h'⟩, -⟩ : (∃ foreign', Held foreign' (fs.setNode n (wiped mode)) bs live
      (cut kids m n)) ∧ Shape.Step Rules.none _ _ :=
    h.wiped (Or.inl ⟨hl.look_mem hm, hchild⟩) hmem (hl.spares (Or.inl ⟨hl.look_mem hm, hchild⟩) hmem hkeep)
      mode
  refine ⟨fs.setNode n (wiped mode), foreign', cut kids m n, ?_, ⟨h', h.home, h.free⟩, rfl,
    emptied_of_cut hl hm hnm mode⟩
  rw [mkdir_walk h.home h.root_ne_zero hp, htok, hmake, map_some, if_neg h0]

theorem Ready.walk (hP : ∀ t ∈ P, IsName t) (hno : look fs kids P = none) (isDir : Bool)
    (mode : Nat) :
    ∃ n fs' bs' live' kids', createLoop isDir mode fs fs.root P = some (n, fs') ∧
      Ready foreign fs' bs' live' kids' ∧ Grown fs bs live fs' bs' live' ∧
      Costs (P.length * nodeCost) fs.heap bs fs'.heap bs' ∧
      (n = 0 ∧ failures fs.heap < failures fs'.heap ∨
        Walked fs live kids isDir P n fs' live' kids') := by
  obtain ⟨n, fs', bs', live', kids', hmake, h', hg, hcosts, hcases⟩ :=
    h.toHeld.walk look_nil hP hno isDir mode
  refine ⟨n, fs', bs', live', kids', hmake, ⟨h', ?_, ?_⟩, hg, hcosts, hcases⟩
  · rw [hg.frame]
    exact h.home
  · rw [hg.frame]
    exact h.free

theorem Ready.mkdir_new (hp : p ≠ []) (htok : tokens p = P) (hP : ∀ t ∈ P, IsName t)
    (hno : look fs kids P = none) (mode : Nat) :
    ∃ r fs' foreign' bs' live' kids', mkdir fs (some p) mode = some (r, fs') ∧
      Ready foreign' fs' bs' live' kids' ∧ Costs (P.length * nodeCost) fs.heap bs fs'.heap bs' ∧
      (failures fs'.heap = failures fs.heap → r = 0 ∧ Grew fs bs kids P .dir fs' bs' kids') := by
  obtain ⟨n, fs1, bs1, live1, kids1, hmake, h1, hg, hcosts, hcases⟩ := h.walk hP hno true mode
  rw [mkdir_walk h.home h.root_ne_zero hp, htok, hmake, map_some]
  rcases hcases with ⟨rfl, hfail⟩ | hw
  · exact ⟨-1, fs1, foreign, bs1, live1, kids1, rfl, h1, hcosts, fun hs => by omega⟩
  have hl1 := h1.linked
  have hmem := hl1.look_mem hw.node
  simp only [hl1.ne_zero hmem, if_false]
  -- The new node is the last child of its directory, so that nothing is cut off.
  obtain ⟨R, t, rfl⟩ := (eq_nil_or_concat' P).resolve_left fun hnil => by
    rw [hnil, look_nil] at hno
    cases hno
  obtain ⟨m, hm, hnm⟩ := look_snoc_some hw.node
  have hchild := (named_some hnm).1
  obtain ⟨l, hk⟩ := hw.last m (hl1.look_mem hm) hchild
  have hnl : n ∉ l := by
    have hnodup := (hl1.chain m (hl1.look_mem hm)).nodup
    rw [hk] at hnodup
    exact fun hmem => (nodup_append.mp hnodup).2.2 n hmem n mem_cons_self rfl
  have hkeep : ¬ CutOff fs1 n fs1.cwd := by
    rw [h1.home]
    exact hl1.not_cutOff_root (hl1.look_mem hm) hchild
  obtain ⟨⟨foreign', h'⟩, -⟩ : (∃ foreign', Held foreign' (fs1.setNode n (wiped mode)) bs1 live1
      (cut kids1 m n)) ∧ Shape.Step Rules.none _ _ :=
    h1.wiped (Or.inl ⟨hl1.look_mem hm, hchild⟩) hmem
      (hl1.spares (Or.inl ⟨hl1.look_mem hm, hchild⟩) hmem hkeep) mode
  rw [cut_last hw.bare hk hnl] at h'
  have hnodes : ∀ m, (fs1.setNode n (wiped mode)).nodes m =
      if m = n then wiped mode (fs1.nodes m) else fs1.nodes m := setNode_nodes fs1 n (wiped mode)
  have hlook : ∀ q, look (fs1.setNode n (wiped mode)) kids1 q = look fs1 kids1 q := by
    refine look_congr rfl fun m => ?_
    rw [hnodes]
    split_ifs <;> rfl
  refine ⟨0, fs1.setNode n (wiped mode), foreign', bs1, live1, kids1, rfl, ⟨h', h1.home, h1.free⟩, hcosts,
    fun _ => ⟨rfl, ⟨n, by rw [hlook, hw.node], ?_⟩, ?_, ?_, ?_⟩⟩
  · rw [HasKind, hnodes, if_pos rfl]
    rfl
  · intro q x hx
    have hlive := h.linked.look_mem hx
    refine ⟨by rw [hlook, hw.old q x hx], fun k hkind => ?_⟩
    exact (hkind.extends hg.toExtends hlive).congr rfl
      (by rw [hnodes, if_neg (ne_of_mem_of_not_mem hlive hw.new)])
  · intro q hq hne hpre
    obtain ⟨x, hx, hdir⟩ := hw.found q hq hne hpre
    refine ⟨x, by rw [hlook, hx], ?_⟩
    rw [hnodes]
    split_ifs
    · rfl
    · exact hdir
  · intro q hq hpre
    rw [hlook, hw.missing q hq hpre]

theorem Ready.grew_file {fs1 fs2 : Fs} {bs1 : List Blk} {live1 : List Nat} {kids1 : Kids}
    {data : Bytes} (h1 : Ready foreign fs1 bs1 live1 kids1)
    (hg : Grown fs bs live fs1 bs1 live1) (hw : Walked fs live kids false P n fs1 live1 kids1)
    (hheap : fs2.heap = fs1.heap) (hroot : fs2.root = fs1.root)
    (hother : ∀ m, m ≠ n → fs2.nodes m = fs1.nodes m)
    (hnode : ∃ b d, fs2.nodes n = { fs1.nodes n with isdev := b, devpath := d })
    (hr : Refilled fs2 bs1 n data fs' bs') (hserved : failures fs'.heap = failures fs2.heap) :
    Grew fs bs kids P (.file data) fs' bs' kids1 := by
  obtain ⟨b, d, hnode⟩ := hnode
  obtain ⟨q, s, hnodes⟩ := hr.nodes
  have hmem := h1.linked.look_mem hw.node
  obtain ⟨hcontent, hsize⟩ := hg.fresh n hmem hw.new
  have hsame : ∀ m, m ≠ n → fs'.nodes m = fs1.nodes m := by
    intro m hm
    rw [hnodes, update_of_ne hm, hother m hm]
  have hat : fs'.nodes n = { fs1.nodes n with isdev := b, devpath := d, content := q, size := s } := by
    rw [hnodes, update_self, hnode]
  have hlook : ∀ r, look fs' kids1 r = look fs1 kids1 r := by
    refine look_congr (hr.root.trans hroot) fun m => ?_
    by_cases hm : m = n
    · rw [hm, hat]
    · rw [hsame m hm]
  refine ⟨⟨n, by rw [hlook, hw.node], ?_⟩, ?_, ?_, ?_⟩
  · refine hr.bytes ?_ ?_ ?_ hserved
    · rw [hnode]
      exact hw.kind.1
    · rw [hnode]
      exact hw.kind.2
    · rw [hnode]
      exact hsize
  · intro r x hx
    have hlive := h.linked.look_mem hx
    have hxn := ne_of_mem_of_not_mem hlive hw.new
    refine ⟨by rw [hlook, hw.old r x hx], fun k hkind => ?_⟩
    have hk := hr.keeps
    rw [hheap, hnode] at hk
    refine (hkind.extends hg.toExtends hlive).keeps hk ?_ ?_ ?_ ?_
    · simpa using hcontent
    all_goals rw [hsame x hxn]
  · intro r hr hne hpre
    obtain ⟨x, hx, hdir⟩ := hw.found r hr hne hpre
    have hxn : x ≠ n := by
      rintro rfl
      exact hne (h1.linked.look_inj hx hw.node)
    exact ⟨x, by rw [hlook, hx], by rw [hsame x hxn, hdir]⟩
  · intro r hr hpre
    rw [hlook, hw.missing r hr hpre]

theorem Ready.fillFile {path data : Bytes} (hp : path ≠ []) (htok : tokens path = P)
    (hP : ∀ t ∈ P, IsName t) (hmax : data.length ≤ 2 ^ 47) :
    ∃ fs' bs' live' kids', fillFile path data fs = some fs' ∧ Ready foreign fs' bs' live' kids' ∧
      Costs (P.length * nodeCost + (data.length + headerSize)) fs.heap bs fs'.heap bs' ∧
      (failures fs'.heap = failures fs.heap → look fs kids P = none →
        Grew fs bs kids P (.file data) fs' bs' kids') := by
  -- The walk, whether it finds the path or makes it.
  obtain ⟨n, fs1, bs1, live1, kids1, hmake, h1, hcosts, hn, hcases⟩ : ∃ n fs1 bs1 live1 kids1,
      createLoop false 0o644 fs fs.root (tokens path) = some (n, fs1) ∧
      Ready foreign fs1 bs1 live1 kids1 ∧ Costs (P.length * nodeCost) fs.heap bs fs1.heap bs1 ∧
      (n = 0 ∨ Reached fs1.root kids1 n) ∧
      (failures fs1.heap = failures fs.heap → look fs kids P = none →
        Grown fs bs live fs1 bs1 live1 ∧ Walked fs live kids false P n fs1 live1 kids1) := by
    rw [htok]
    cases hlook : look fs kids P with
    | some n =>
      refine ⟨n, fs, bs, live, kids, h.createLoop_found hP hlook false 0o644, h,
        (Costs.refl _ _).le (Nat.zero_le _), .inr (look_reached hlook), fun _ hno => ?_⟩
      cases hno
    | none =>
      obtain ⟨n, fs1, bs1, live1, kids1, hmake, h1, hg, hcosts, hcases⟩ := h.walk hP hlook false 0o644
      refine ⟨n, fs1, bs1, live1, kids1, hmake, h1, hcosts, ?_, fun hserved _ => ⟨hg, ?_⟩⟩
      · exact hcases.imp And.left fun hw => look_reached hw.node
      · exact hcases.resolve_left fun hfail => by omega
  have hmono := hcosts.mono
  rcases h.toHeld.fillFile h.home hp hmake h1.toHeld hn hmax with
    ⟨hwhy, hfill⟩ | ⟨h0, fs', bs', hfill, h', hr⟩
  · refine ⟨fs1, bs1, live1, kids1, hfill, h1, hcosts.le (by omega), fun hserved hno => ?_⟩
    obtain ⟨-, hw⟩ := hcases hserved hno
    rcases hwhy with h0 | hfull
    · exact absurd h0 (h1.ne_zero (look_reached hw.node))
    · have := hfull 0
      rw [h1.free 0] at this
      cases this
  · refine ⟨fs', bs', live1, kids1, hfill, ⟨h', ?_, hr.free h1.free⟩,
      hcosts.trans ⟨hr.keeps.failures, hr.room⟩, fun hserved hno => ?_⟩
    · rw [hr.cwd, hr.root, h1.home]
    have := hr.keeps.failures
    obtain ⟨hg, hw⟩ := hcases (by omega) hno
    exact h.grew_file h1 hg hw rfl rfl (fun _ _ => rfl) ⟨_, _, rfl⟩ hr (by omega)

theorem Ready.makeDeviceFile :
    ∃ fs' bs' live' kids', makeDeviceFile fs = some fs' ∧ Ready foreign fs' bs' live' kids' ∧
      Costs (2 * nodeCost + headerSize) fs.heap bs fs'.heap bs' ∧
      (failures fs'.heap = failures fs.heap → look fs kids [devName, initrdName] = none →
        Grew fs bs kids [devName, initrdName] (.file []) fs' bs' kids') := by
  have hP : ∀ t ∈ [devName, initrdName], IsName t := by decide +kernel
  have hwalk := h.resolveLoop_eq hP
  cases hno : look fs kids [devName, initrdName] with
  | some n =>
    rw [hno, getD_some] at hwalk
    have hreach := look_reached hno
    obtain ⟨fs', bs', hrun, h', hr⟩ :=
      opened_and_closed h.toHeld hreach (oCreat ||| oBuiltinDeviceFile) 0o644
    rw [makeDeviceFile_existing h.home h.root_ne_zero hwalk (h.ne_zero hreach)]
    refine ⟨fs', bs', live, kids, hrun, ⟨h', ?_, hr.free h.free⟩, ?_, fun _ hnone => by cases hnone⟩
    · rw [hr.cwd, hr.root, h.home]
    · refine ⟨hr.keeps.failures, fun u hu hroom => hr.room u hu (hroom.mono ?_)⟩
      rw [length_nil]
      omega
  | none =>
    rw [hno, getD_none] at hwalk
    obtain ⟨n, fs1, bs1, live1, kids1, hmake, h1, hg, hcosts, hcases⟩ := h.walk hP hno false 0o644
    have hcosts : Costs (2 * nodeCost) fs.heap bs fs1.heap bs1 := hcosts
    rw [makeDeviceFile_missing h.home h.root_ne_zero hwalk, hmake, bind_some]
    rcases hcases with ⟨rfl, hfail⟩ | hw
    · exact ⟨fs1, bs1, live1, kids1, rfl, h1, hcosts.le (by omega), fun hserved => by omega⟩
    have hreach := look_reached hw.node
    have h2 : Held foreign (marked fs1 n) bs1 live1 kids1 := h1.setNode ⟨rfl, rfl, rfl, rfl⟩ rfl
    have hheap : (marked fs1 n).heap = fs1.heap := rfl
    have hroot : (marked fs1 n).root = fs1.root := rfl
    obtain ⟨fs', bs', hrun, h', hr⟩ :=
      opened_and_closed h2 (hroot ▸ hreach) (oCreat ||| oBuiltinDeviceFile) 0o644
    have hclosed : Costs headerSize fs1.heap bs1 fs'.heap bs' := by
      refine ⟨hr.keeps.failures, fun u hu hroom => hr.room u hu ?_⟩
      rwa [length_nil, Nat.zero_add]
    refine ⟨fs', bs', live1, kids1, ?_, ⟨h', ?_, hr.free h1.free⟩, hcosts.trans hclosed,
      fun hserved _ => ?_⟩
    · rw [if_neg (h1.ne_zero hreach)]
      exact hrun
    · rw [hr.cwd, hr.root]
      exact h1.home
    · have hle1 := hcosts.mono
      have hle2 := hclosed.mono
      exact h.grew_file h1 hg hw hheap hroot (fun m hm => marked_of_ne hm)
        ⟨true, initrdPath.take 255, marked_self fs1 n⟩ hr (by rw [hheap]; omega)

end Ready

end Terrakernel.Tmpfs
