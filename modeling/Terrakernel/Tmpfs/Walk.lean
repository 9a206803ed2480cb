import Terrakernel.Lib.Paths
import Terrakernel.Tmpfs.Session
import Terrakernel.Tmpfs.Strings

/-!
# What is found along a path

From the root each path of names leads to one node at most. Each call that makes a path is described
by what every path leads to afterwards.
-/

namespace Terrakernel.Tmpfs

open List Option Memory Vmm Links Heap Paths

variable {nodes : Nat → Node} {n m curr c : Nat} {kids : Kids} {t : Bytes}
  {r q p : Names} {fs' : Fs}

/-- The child with the name `t`. -/
def named (nodes : Nat → Node) (kids : Kids) (m : Nat) (t : Bytes) : Option Nat :=
  (kids m).find? fun c => (nodes c).name = t

/-- The node at the path `q` from the root. -/
def look (fs : Fs) (kids : Kids) (q : Names) : Option Nat :=
  follow (named fs.nodes kids) fs.root q

theorem named_some (h : named nodes kids m t = some n) : n ∈ kids m ∧ (nodes n).name = t :=
  ⟨mem_of_find?_eq_some h, by simpa using find?_some h⟩

theorem Linked.named_ne_zero {root : Nat} {live : List Nat} (h : Linked nodes root live kids)
    (hm : m ∈ live) (hc : named nodes kids m t = some c) : c ≠ 0 :=
  h.ne_zero (h.child m hm c (named_some hc).1).1

theorem named_none : named nodes kids m t = none ↔ ∀ c ∈ kids m, (nodes c).name ≠ t := by
  unfold named
  rw [find?_eq_none]
  simp

theorem named_congr {nodes' : Nat → Node} (h : ∀ c ∈ kids m, (nodes' c).name = (nodes c).name)
    (t : Bytes) : named nodes' kids m t = named nodes kids m t := by
  unfold named
  apply find?_congr
  intro c hc
  rw [h c hc]

/-- The names of the nodes on the way down to a node. -/
inductive Spelled (fs : Fs) (kids : Kids) : Names → Nat → Prop
  | root : Spelled fs kids [] fs.root
  | child {q : Names} {m c : Nat} (hm : Spelled fs kids q m) (hc : c ∈ kids m) :
      Spelled fs kids (q ++ [(fs.nodes c).name]) c

section Look

variable {fs : Fs} {kids : Kids}

theorem look_nil : look fs kids [] = some fs.root := rfl

theorem look_snoc (q : Names) (t : Bytes) :
    look fs kids (q ++ [t]) = (look fs kids q).bind fun m => named fs.nodes kids m t :=
  follow_snoc q t

theorem look_snoc_some (h : look fs kids (q ++ [t]) = some n) :
    ∃ m, look fs kids q = some m ∧ named fs.nodes kids m t = some n := by
  rw [look_snoc] at h
  exact bind_eq_some_iff.mp h

theorem look_above (h : look fs kids r = some n) (hq : q <+: r) : ∃ m, look fs kids q = some m := by
  obtain ⟨s, rfl⟩ := hq
  induction s using reverseRecOn generalizing n with
  | nil => exact ⟨n, by rwa [append_nil] at h⟩
  | append_singleton s t ih =>
    rw [← append_assoc] at h
    obtain ⟨m, hm, -⟩ := look_snoc_some h
    exact ih hm

theorem Spelled.reached (h : Spelled fs kids q n) : Reached fs.root kids n := by
  induction h with
  | root => exact .root
  | child _ hc ih => exact .child ih hc

theorem spelled_of_look (hq : look fs kids q = some n) : Spelled fs kids q n := by
  induction q using reverseRecOn generalizing n with
  | nil =>
    obtain rfl : fs.root = n := some.inj hq
    exact .root
  | append_singleton q t ih =>
    obtain ⟨m, hm, hn⟩ := look_snoc_some hq
    obtain ⟨hchild, rfl⟩ := named_some hn
    exact .child (ih hm) hchild

theorem look_reached (hq : look fs kids q = some n) : Reached fs.root kids n :=
  (spelled_of_look hq).reached

theorem look_congr (hroot : fs'.root = fs.root)
    (hname : ∀ m, (fs'.nodes m).name = (fs.nodes m).name) (q : Names) :
    look fs' kids q = look fs kids q := by
  have hnamed : named fs'.nodes kids = named fs.nodes kids := by
    funext m t
    exact named_congr (fun c _ => hname c) t
  rw [look, hroot, hnamed, look]

variable {live : List Nat} (h : Linked fs.nodes fs.root live kids)

include h

theorem Linked.look_mem (hq : look fs kids q = some n) : n ∈ live :=
  h.reached_mem (look_reached hq)

theorem Linked.look_inj (hq : look fs kids q = some n) (hr : look fs kids r = some n) : q = r := by
  have hroot : ∀ {s : Names} {t : Bytes}, look fs kids (s ++ [t]) ≠ some fs.root := by
    intro s t hs
    obtain ⟨m, hm, hc⟩ := look_snoc_some hs
    exact h.ne_root (h.look_mem hm) (named_some hc).1 rfl
  induction q using reverseRecOn generalizing r n with
  | nil =>
    obtain rfl : fs.root = n := some.inj hq
    cases r using reverseRecOn with
    | nil => rfl
    | append_singleton r t => exact absurd hr hroot
  | append_singleton q t ih =>
    cases r using reverseRecOn with
    | nil =>
      obtain rfl : fs.root = n := some.inj hr
      exact absurd hq hroot
    | append_singleton r u =>
      obtain ⟨m, hm, hn⟩ := look_snoc_some hq
      obtain ⟨m', hm', hn'⟩ := look_snoc_some hr
      obtain ⟨hc, hname⟩ := named_some hn
      obtain ⟨hc', hname'⟩ := named_some hn'
      have hparent := (h.child m (h.look_mem hm) n hc).2
      rw [(h.child m' (h.look_mem hm') n hc').2] at hparent
      rw [ih hm (hparent ▸ hm'), ← hname, hname']

theorem Linked.resolveLoop_eq {ts : Names} (hts : ∀ t ∈ ts, IsName t) {m : Nat}
    (hm : m ∈ live) :
    resolveLoop fs.nodes m ts = some ((follow (named fs.nodes kids) m ts).getD 0) := by
  induction ts generalizing m with
  | nil => rfl
  | cons t ts ih =>
    have ht := hts t mem_cons_self
    rw [follow_cons]
    cases hn : named fs.nodes kids m t with
    | none => exact resolveLoop_missing h hm ht.ne_dot ht.ne_dotdot (named_none.mp hn) ts
    | some c =>
      rw [resolveLoop_found h hm ht.ne_dot ht.ne_dotdot hn, bind_some]
      exact ih (fun u hu => hts u (mem_cons_of_mem _ hu)) (h.child m hm c (named_some hn).1).1

end Look

theorem look_grown {fs : Fs} {live : List Nat} (h : Linked fs.nodes fs.root live kids)
    (hcurr : look fs kids p = some curr) (hno : named fs.nodes kids curr t = none) (hc : c ∉ live)
    (hroot : fs'.root = fs.root) (hold : ∀ m ∈ live, (fs'.nodes m).name = (fs.nodes m).name)
    (hname : (fs'.nodes c).name = t) (q : Names) :
    look fs' (grown kids curr c) q = if q = p ++ [t] then some c else look fs kids q := by
  have hmem := h.look_mem hcurr
  have hccurr : c ≠ curr := (ne_of_mem_of_not_mem hmem hc).symm
  have hsame : ∀ {m}, m ∈ live → ∀ x ∈ kids m, (fs'.nodes x).name = (fs.nodes x).name :=
    fun hm x hx => hold x (h.child _ hm x hx).1
  have hat : ∀ j, named fs'.nodes (grown kids curr c) curr j =
      (named fs.nodes kids curr j).or (if t = j then some c else none) := by
    intro j
    unfold named
    rw [grown_curr, find?_append]
    congr 1
    · exact named_congr (hsame hmem) j
    · by_cases htj : t = j
      · rw [if_pos htj, find?_cons_of_pos (by simpa [hname] using htj)]
      · rw [if_neg htj, find?_cons_of_neg (by simpa [hname] using htj), find?_nil]
  have hadded : Added (q.length + p.length + 1) (named fs.nodes kids)
      (named fs'.nodes (grown kids curr c)) fs.root p t curr c := by
    refine ⟨hcurr, by omega, hno, by rw [hat, hno, if_pos rfl]; rfl, ?_, ?_, ?_⟩
    · intro r _ hr
      exact hc (h.look_mem hr)
    · intro j
      rw [named_none, grown_new hccurr]
      simp
    · intro r j m _ hr hne
      have hm : m ∈ live := h.look_mem hr
      by_cases hmc : m = curr
      · subst hmc
        have htj : t ≠ j := fun htj => hne ⟨h.look_inj hr hcurr, htj.symm⟩
        rw [hat, if_neg htj, or_none]
      · unfold named
        rw [grown_of_ne hmc (ne_of_mem_of_not_mem hm hc)]
        exact named_congr (hsame hm) j
  unfold look
  rw [hroot]
  rcases hadded.follow_cases (by omega : q.length ≤ q.length + p.length + 1) with
    ⟨hpre, he⟩ | ⟨rfl, he⟩ | ⟨j, r, rfl, he⟩
  · rw [he, if_neg]
    rintro rfl
    exact hpre (prefix_refl _)
  · rw [he, if_pos rfl]
  · rw [he, if_neg (by simp)]
    -- There was nothing below the new child before.
    cases hq : look fs kids (p ++ [t] ++ j :: r) with
    | none => exact hq.symm
    | some n =>
      obtain ⟨m, hm⟩ := look_above hq (prefix_append _ _)
      rw [look_snoc, hcurr, bind_some, hno] at hm
      cases hm

/-! ## Making a path -/

/-- With room for `c` bytes no allocation fails, and the rest is still there. -/
structure Costs (c : Nat) (heap : Heap) (bs : List Blk) (heap' : Heap) (bs' : List Blk) : Prop where
  mono : failures heap ≤ failures heap'
  room : ∀ u, 0 < u → Room (c + u) bs → failures heap' = failures heap ∧ Room u bs'

section Costs

variable {c c' : Nat} {heap heap' heap'' : Heap} {bs bs' bs'' : List Blk}

theorem Costs.refl (heap : Heap) (bs : List Blk) : Costs 0 heap bs heap bs :=
  ⟨le_refl _, fun u _ hr => ⟨rfl, hr.mono (by omega)⟩⟩

theorem Costs.le (h : Costs c heap bs heap' bs') (hle : c ≤ c') : Costs c' heap bs heap' bs' :=
  ⟨h.mono, fun u hu hr => h.room u hu (hr.mono (by omega))⟩

theorem Costs.trans (h : Costs c heap bs heap' bs') (h' : Costs c' heap' bs' heap'' bs'') :
    Costs (c + c') heap bs heap'' bs'' := by
  refine ⟨h.mono.trans h'.mono, fun u hu hr => ?_⟩
  obtain ⟨hserved, hroom⟩ := h.room (c' + u) (by omega) (hr.mono (by omega))
  obtain ⟨hserved', hroom'⟩ := h'.room u hu hroom
  exact ⟨hserved'.trans hserved, hroom'⟩

end Costs

/-- What a node with a name takes from the heap. -/
abbrev nodeCost : Nat := nodeSize + headerSize

/-- The path `P`, which led nowhere, leads to a new node `n` now. -/
structure Walked (fs : Fs) (live : List Nat) (kids : Kids) (isDir : Bool)
    (P : Names) (n : Nat) (fs' : Fs) (live' : List Nat) (kids' : Kids) :
    Prop where
  node : look fs' kids' P = some n
  new : n ∉ live
  bare : kids' n = []
  last : ∀ m ∈ live', n ∈ kids' m → ∃ l, kids' m = l ++ [n]
  kind : (fs'.nodes n).isDir = isDir ∧ (fs'.nodes n).isSymlink = false
  old : ∀ q x, look fs kids q = some x → look fs' kids' q = some x
  found : ∀ q, look fs kids q = none → q ≠ P → q <+: P →
    ∃ x, look fs' kids' q = some x ∧ (fs'.nodes x).isDir = true
  missing : ∀ q, look fs kids q = none → ¬ q <+: P → look fs' kids' q = none

section Walk

variable {foreign : List Nat} {fs : Fs} {bs : List Blk} {live : List Nat} {kids : Kids}
  (h : Held foreign fs bs live kids)

include h

theorem Held.walked_one {fs1 : Fs} {isDir : Bool} {mode : Nat} (hcurr : look fs kids p = some curr)
    (hc : c ∉ live) (hdata : (fs1.nodes c).data = newNode t curr isDir mode)
    (hlook : ∀ q, look fs1 (grown kids curr c) q = if q = p ++ [t] then some c else look fs kids q)
    (hno : look fs kids (p ++ [t]) = none) :
    Walked fs live kids isDir (p ++ [t]) c fs1 (c :: live) (grown kids curr c) := by
  have hl := h.linked
  have hmem := hl.look_mem hcurr
  have hccurr : c ≠ curr := (ne_of_mem_of_not_mem hmem hc).symm
  refine ⟨by rw [hlook, if_pos rfl], hc, grown_new hccurr, ?_,
    ⟨(congrArg Node.isDir hdata :), (congrArg Node.isSymlink hdata :)⟩, ?_, ?_, ?_⟩
  · intro m hm hcm
    by_cases hmc : m = curr
    · exact ⟨kids curr, by rw [hmc, grown_curr]⟩
    · by_cases hm' : m = c
      · rw [hm', grown_new hccurr] at hcm
        cases hcm
      · rw [grown_of_ne hmc hm'] at hcm
        exact absurd (hl.child m ((mem_cons.mp hm).resolve_left hm') c hcm).1 hc
  · intro q x hq
    rw [hlook, if_neg, hq]
    rintro rfl
    rw [hno] at hq
    cases hq
  · intro q hq hne hpre
    obtain ⟨m, hm⟩ := look_above hcurr ((prefix_concat_iff.mp hpre).resolve_left hne)
    rw [hm] at hq
    cases hq
  · intro q hq hpre
    rw [hlook, if_neg, hq]
    rintro rfl
    exact hpre (prefix_refl _)

omit h in
theorem Walked.cons {p : Names} {t : Bytes} {ts : Names} {curr c n : Nat}
    {fs1 fs' : Fs} {bs1 bs' : List Blk} {live' : List Nat} {kids' : Kids} {isDir : Bool}
    (hdir : (fs1.nodes c).isDir = true)
    (hlook : ∀ q, look fs1 (grown kids curr c) q = if q = p ++ [t] then some c else look fs kids q)
    (hno : look fs kids (p ++ [t]) = none)
    (hext : Extends fs1 bs1 (c :: live) fs' bs' live')
    (hw : Walked fs1 (c :: live) (grown kids curr c) isDir (p ++ [t] ++ ts) n fs' live' kids') :
    Walked fs live kids isDir (p ++ [t] ++ ts) n fs' live' kids' := by
  have hnew : look fs1 (grown kids curr c) (p ++ [t]) = some c := by rw [hlook, if_pos rfl]
  refine ⟨hw.node, fun hn => hw.new (mem_cons_of_mem _ hn), hw.bare, hw.last, hw.kind, ?_, ?_, ?_⟩
  · intro q x hq
    apply hw.old
    rw [hlook, if_neg, hq]
    rintro rfl
    rw [hno] at hq
    cases hq
  · intro q hq hne hpre
    by_cases hqc : q = p ++ [t]
    · refine ⟨c, hw.old q c (hqc ▸ hnew), ?_⟩
      rw [← hdir]
      exact (congrArg Node.isDir (hext.old c mem_cons_self).2 :)
    · exact hw.found q (by rw [hlook, if_neg hqc, hq]) hne hpre
  · intro q hq hpre
    refine hw.missing q ?_ hpre
    rw [hlook, if_neg, hq]
    rintro rfl
    exact hpre (prefix_append _ _)

theorem Held.walk (hcurr : look fs kids p = some curr) {ts : Names}
    (hts : ∀ t ∈ ts, IsName t) (hno : look fs kids (p ++ ts) = none) (isDir : Bool) (mode : Nat) :
    ∃ n fs' bs' live' kids', createLoop isDir mode fs curr ts = some (n, fs') ∧
      Held foreign fs' bs' live' kids' ∧ Grown fs bs live fs' bs' live' ∧
      Costs (ts.length * nodeCost) fs.heap bs fs'.heap bs' ∧
      (n = 0 ∧ failures fs.heap < failures fs'.heap ∨
        Walked fs live kids isDir (p ++ ts) n fs' live' kids') := by
  induction ts generalizing foreign fs bs live kids p curr with
  | nil =>
    rw [append_nil, hcurr] at hno
    cases hno
  | cons t ts ih =>
    have hl := h.linked
    have hmem := hl.look_mem hcurr
    have ht := hts t mem_cons_self
    have hrest : ∀ u ∈ ts, IsName u := fun u hu => hts u (mem_cons_of_mem _ hu)
    have hsplit : p ++ t :: ts = p ++ [t] ++ ts := by simp
    rw [hsplit] at hno ⊢
    have hcost : (t :: ts).length * nodeCost = nodeCost + ts.length * nodeCost := by
      rw [length_cons, Nat.succ_mul, Nat.add_comm]
    cases hn : named fs.nodes kids curr t with
    | some c =>
      have hc0 := hl.named_ne_zero hmem hn
      have hnext : look fs kids (p ++ [t]) = some c := by rw [look_snoc, hcurr]; exact hn
      obtain ⟨n, fs', bs', live', kids', hrun, h', hg, hcosts, hcases⟩ := ih h hnext hrest hno
      refine ⟨n, fs', bs', live', kids', ?_, h', hg, hcosts.le (by omega), hcases⟩
      rw [createLoop_cons, if_neg ht.ne_dot, if_neg ht.ne_dotdot, findChild_spec hl hmem]
      change ((some ((named fs.nodes kids curr t).getD 0)).bind _) = _
      rw [hn, getD_some, bind_some, if_pos hc0, hrun]
    | none =>
      have hnone : look fs kids (p ++ [t]) = none := by rw [look_snoc, hcurr]; exact hn
      obtain ⟨c, fs1, hadd, hcases⟩ := h.sane.addChild_cases hmem t
        (if ts.isEmpty then isDir else true) (if ts.isEmpty then mode else 0o755)
      rw [createLoop_missing hl hmem ht.ne_dot ht.ne_dotdot (named_none.mp hn), hadd, bind_some]
      rcases hcases with ⟨rfl, hframe, hs, hk, hfail, hroom⟩ |
        ⟨hc0, hcnot, hserved, hdata, bs1, hs, hgrown, hblock, hroom⟩
      · obtain ⟨hb, hg⟩ : Built Rules.none fs bs live kids fs1 bs live kids ∧ _ :=
          built_of_heap hframe hk
        refine ⟨0, fs1, bs, live, kids, if_pos rfl, h.built hs hb, hg, ⟨hfail.le, ?_⟩,
          Or.inl ⟨rfl, hfail⟩⟩
        intro u _ hr
        rw [hcost, nodeCost] at hr
        exact absurd (hr.mono (by omega)) hroom
      rw [if_neg hc0]
      have hb : Built Rules.none fs bs live kids fs1 bs1 (c :: live) (grown kids curr c) :=
        built_of_add hmem hcnot (congrArg Node.name hdata :) (congrArg Node.refcount hdata :)
          hgrown.toExtends hblock trivial
      have h1 := h.built hs hb
      have hname : (fs1.nodes c).name = t :=
        (congrArg Node.name hdata :).trans (take_of_length_le ht.short)
      have hlook := look_grown hl hcurr hn hcnot hb.root
        (fun m hm => (congrArg Node.name (hgrown.old m hm).2 :)) hname
      have hcost1 : Costs nodeCost fs.heap bs fs1.heap bs1 :=
        ⟨hserved.ge, fun u hu hr => ⟨hserved, hroom u hu hr⟩⟩
      cases ts with
      | nil =>
        rw [append_nil]
        refine ⟨c, fs1, bs1, c :: live, grown kids curr c, rfl, h1, hgrown, ?_,
          Or.inr (h.walked_one hcurr hcnot hdata hlook hnone)⟩
        exact hcost1.le (by rw [hcost]; omega)
      | cons u us =>
        have hnew : look fs1 (grown kids curr c) (p ++ [t]) = some c := by rw [hlook, if_pos rfl]
        have hno1 : look fs1 (grown kids curr c) (p ++ [t] ++ u :: us) = none := by
          rw [hlook, if_neg (by simp), hno]
        obtain ⟨n, fs', bs', live', kids', hrun, h', hg, hcosts, hcases⟩ := ih h1 hnew hrest hno1
        refine ⟨n, fs', bs', live', kids', hrun, h', hgrown.trans hg, ?_, ?_⟩
        · rw [hcost]
          exact hcost1.trans hcosts
        · rcases hcases with ⟨h0, hfail⟩ | hw
          · exact .inl ⟨h0, by omega⟩
          · exact .inr (.cons (congrArg Node.isDir hdata :) hlook hnone hg.toExtends hw)

end Walk

end Terrakernel.Tmpfs
