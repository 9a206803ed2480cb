import Mathlib.Algebra.BigOperators.Fin
import Terrakernel.Tmpfs.Write

/-!
# Reference counts

A node is held by the list of its parent and by each descriptor that is open on it.
-/

namespace Terrakernel.Tmpfs

open Memory Vmm Links Heap Function List

variable {kids kids' : Kids} {n m curr c : Nat} {fds : Fin 256 → Filedesc} {i : Fin 256}
  {fs fs' : Fs} {live' : List Nat}

/-- How many descriptors are open on a node. -/
def opens (fds : Fin 256 → Filedesc) (n : Nat) : Nat := ∑ i, if (fds i).node = n then 1 else 0

open Classical in
/-- Whether the tree holds a node. -/
noncomputable def linkCount (root : Nat) (kids : Kids) (n : Nat) : Nat :=
  if Reached root kids n then 1 else 0

structure Counted (fs : Fs) (live : List Nat) (kids : Kids) : Prop where
  count : ∀ n ∈ live, (fs.nodes n).refcount = linkCount fs.root kids n + opens fs.fds n
  held : ∀ n ∈ live, 0 < linkCount fs.root kids n + opens fs.fds n
  files : ∀ n ∈ live, (fs.nodes n).isDir = false → kids n = []
  rooted : ∀ n ∈ live, kids n ≠ [] → Reached fs.root kids n

/-! ## Counting -/

theorem linkCount_of_reached {root : Nat} (h : Reached root kids n) :
    linkCount root kids n = 1 := by rw [linkCount, if_pos h]

theorem linkCount_of_not {root : Nat} (h : ¬ Reached root kids n) :
    linkCount root kids n = 0 := by rw [linkCount, if_neg h]

theorem linkCount_congr {root : Nat} (h : Reached root kids' n ↔ Reached root kids n) :
    linkCount root kids' n = linkCount root kids n := by
  by_cases hr : Reached root kids n
  · rw [linkCount_of_reached hr, linkCount_of_reached (h.mpr hr)]
  · rw [linkCount_of_not hr, linkCount_of_not fun hr' => hr (h.mp hr')]

theorem opens_update (fds : Fin 256 → Filedesc) (i : Fin 256) (f : Filedesc) (n : Nat) :
    opens (update fds i f) n + (if (fds i).node = n then 1 else 0) =
      opens fds n + if f.node = n then 1 else 0 := by
  have hfun : (fun j => if (update fds i f j).node = n then 1 else 0) =
      update (fun j => if (fds j).node = n then 1 else 0) i
        (if f.node = n then 1 else 0) := by
    funext j
    by_cases hj : j = i
    · subst hj
      simp
    · simp [hj]
  unfold opens
  rw [hfun, Finset.sum_update_of_mem (Finset.mem_univ i),
    Finset.sum_eq_add_sum_sdiff_singleton_of_mem (Finset.mem_univ i)
      fun j => if (fds j).node = n then 1 else 0]
  omega

theorem opens_same {f : Filedesc} (h : f.node = (fds i).node) (n : Nat) :
    opens (update fds i f) n = opens fds n := by
  have := opens_update fds i f n
  rw [h] at this
  omega

theorem opens_pos_iff : 0 < opens fds n ↔ ∃ i, (fds i).node = n := by
  unfold opens
  rw [Nat.pos_iff_ne_zero, Ne, Finset.sum_eq_zero_iff]
  simp

theorem opens_eq_zero (h : ∀ i, (fds i).node ≠ n) : opens fds n = 0 := by
  rcases Nat.eq_zero_or_pos (opens fds n) with h0 | hpos
  · exact h0
  · obtain ⟨i, hi⟩ := opens_pos_iff.mp hpos
    exact absurd hi (h i)

theorem opens_cleared (fs : Fs) (i : Fin 256) (hm : m ≠ 0) :
    opens (fs.setFd i fun f => { f with node := 0, free := true }).fds m +
      (if (fs.fds i).node = m then 1 else 0) = opens fs.fds m := by
  have := opens_update fs.fds i { fs.fds i with node := 0, free := true } m
  rw [if_neg hm.symm, Nat.add_zero] at this
  exact this

theorem opens_opened (hi : (fs.fds i).node = 0) (n : Nat) (flags : BitVec 32) (mode : Nat)
    (hm : m ≠ 0) :
    opens (opened fs i n flags mode).fds m = opens fs.fds m + if n = m then 1 else 0 := by
  have := opens_update fs.fds i ⟨i, n, 0, flags, mode, (fs.nodes n).isDir, false⟩ m
  rw [hi, if_neg hm.symm, Nat.add_zero] at this
  exact this

/-! ## Changes that keep the counters -/

theorem Counted.congr {live : List Nat} (h : Counted fs live kids) (hroot : fs'.root = fs.root)
    (hnodes : ∀ n ∈ live, (fs'.nodes n).refcount = (fs.nodes n).refcount ∧
      (fs'.nodes n).isDir = (fs.nodes n).isDir)
    (hopens : ∀ n ∈ live, opens fs'.fds n = opens fs.fds n) : Counted fs' live kids := by
  refine ⟨?_, ?_, ?_, ?_⟩
  · intro n hn
    rw [(hnodes n hn).1, hopens n hn, hroot, h.count n hn]
  · intro n hn
    rw [hopens n hn, hroot]
    exact h.held n hn
  · intro n hn
    rw [(hnodes n hn).2]
    exact h.files n hn
  · rw [hroot]
    exact h.rooted

/-! ## The tree gains and loses a node -/

theorem reached_grown {root curr c n : Nat} (hcurr : Reached root kids curr) (hne : c ≠ curr)
    (hn : Reached root (grown kids curr c) n) : n = c ∨ Reached root kids n := by
  induction hn with
  | root => exact .inr .root
  | @child m d _ hd ih =>
    by_cases hmc : m = curr
    · rw [hmc, grown_curr, mem_append, mem_singleton] at hd
      rcases hd with hd | hd
      · exact .inr (.child hcurr hd)
      · exact .inl hd
    · rcases ih with rfl | hm
      · rw [grown_new hne] at hd
        exact absurd hd not_mem_nil
      · by_cases hmn : m = c
        · rw [hmn, grown_new hne] at hd
          exact absurd hd not_mem_nil
        · rw [grown_of_ne hmc hmn] at hd
          exact .inr (.child hm hd)

theorem reached_grown_of {nodes : Nat → Node} {root : Nat} {live : List Nat}
    (h : Linked nodes root live kids) (hc : c ∉ live) (hn : Reached root kids n) :
    Reached root (grown kids curr c) n := by
  refine hn.mono fun m hm d hd => mem_grown ?_ hd
  rintro rfl
  exact hc (h.reached_mem hm)

section Steps

variable {foreign : List Nat} {fs : Fs} {bs : List Blk} {live : List Nat} {kids : Kids}
  (h : Inv foreign fs bs live kids)

include h

theorem opens_new (hc : c ∉ live) (hc0 : c ≠ 0) : opens fs.fds c = 0 := by
  apply opens_eq_zero
  rintro i rfl
  exact hc (h.table.node i hc0)

theorem Counted.grown (hcount : Counted fs live kids) {bs' : List Blk} {token : Bytes}
    {isDir : Bool} {mode : Nat} (hcurr : Reached fs.root kids curr)
    (hdir : (fs.nodes curr).isDir = true) (hc : c ∉ live) (hc0 : c ≠ 0)
    (hnew : (fs'.nodes c).data = newNode token curr isDir mode)
    (hgrown : Grown fs bs live fs' bs' (c :: live)) :
    Counted fs' (c :: live) (grown kids curr c) := by
  have hcurrlive := h.linked.reached_mem hcurr
  have hne : c ≠ curr := by
    rintro rfl
    exact hc hcurrlive
  have hroot : fs'.root = fs.root := by rw [hgrown.frame]
  have hfds : fs'.fds = fs.fds := by rw [hgrown.frame]
  have hreach : Reached fs.root (Tmpfs.grown kids curr c) c :=
    .child (reached_grown_of h.linked hc hcurr) (mem_grown_self _ _ _)
  have hlink : ∀ n ∈ live, linkCount fs.root (Tmpfs.grown kids curr c) n = linkCount fs.root kids n := by
    intro n hn
    refine linkCount_congr ⟨fun hr => ?_, reached_grown_of h.linked hc⟩
    rcases reached_grown hcurr hne hr with rfl | hr
    · exact absurd hn hc
    · exact hr
  have hold : ∀ n ∈ live, (fs'.nodes n).refcount = (fs.nodes n).refcount ∧
      (fs'.nodes n).isDir = (fs.nodes n).isDir := fun n hn =>
    ⟨(congrArg Node.refcount (hgrown.old n hn).2 :), (congrArg Node.isDir (hgrown.old n hn).2 :)⟩
  refine ⟨?_, ?_, ?_, ?_⟩
  · intro n hn
    rw [hroot, hfds]
    rcases mem_cons.mp hn with rfl | hn
    · rw [linkCount_of_reached hreach, opens_new h hc hc0]
      exact (congrArg Node.refcount hnew :)
    · rw [(hold n hn).1, hlink n hn, hcount.count n hn]
  · intro n hn
    rw [hroot, hfds]
    rcases mem_cons.mp hn with rfl | hn
    · rw [linkCount_of_reached hreach]
      omega
    · rw [hlink n hn]
      exact hcount.held n hn
  · intro n hn hfile
    rcases mem_cons.mp hn with rfl | hlive
    · exact grown_new hne
    · rw [(hold n hlive).2] at hfile
      have hnc : n ≠ curr := by
        rintro rfl
        rw [hdir] at hfile
        exact absurd hfile (by decide)
      rw [grown_of_ne hnc (by rintro rfl; exact hc hlive)]
      exact hcount.files n hlive hfile
  · intro n hn hk
    rw [hroot]
    rcases mem_cons.mp hn with rfl | hlive
    · exact hreach
    · by_cases hnc : n = curr
      · rw [hnc]
        exact reached_grown_of h.linked hc hcurr
      · rw [grown_of_ne hnc (by rintro rfl; exact hc hlive)] at hk
        exact reached_grown_of h.linked hc (hcount.rooted n hlive hk)

omit h in
theorem Counted.change (hcount : Counted fs live kids) (hroot : fs'.root = fs.root)
    (hother : ∀ m ∈ live', m ≠ n → m ∈ live ∧ (fs'.nodes m).refcount = (fs.nodes m).refcount ∧
      (fs'.nodes m).isDir = (fs.nodes m).isDir ∧ opens fs'.fds m = opens fs.fds m ∧
      (Reached fs.root kids' m ↔ Reached fs.root kids m) ∧ (kids' m ≠ [] → kids m ≠ []))
    (hn : n ∈ live' → (fs'.nodes n).refcount = linkCount fs.root kids' n + opens fs'.fds n ∧
      0 < linkCount fs.root kids' n + opens fs'.fds n ∧ ((fs'.nodes n).isDir = false → kids' n = []) ∧
      (kids' n ≠ [] → Reached fs.root kids' n)) : Counted fs' live' kids' := by
  refine ⟨?_, ?_, ?_, ?_⟩
  · intro m hm
    rw [hroot]
    by_cases hmn : m = n
    · subst hmn
      exact (hn hm).1
    · obtain ⟨hlive, href, -, hopens, hreach, -⟩ := hother m hm hmn
      rw [href, hopens, linkCount_congr hreach, hcount.count m hlive]
  · intro m hm
    rw [hroot]
    by_cases hmn : m = n
    · subst hmn
      exact (hn hm).2.1
    · obtain ⟨hlive, -, -, hopens, hreach, -⟩ := hother m hm hmn
      rw [hopens, linkCount_congr hreach]
      exact hcount.held m hlive
  · intro m hm hfile
    by_cases hmn : m = n
    · subst hmn
      exact (hn hm).2.2.1 hfile
    · obtain ⟨hlive, -, hdir, -, -, hkids⟩ := hother m hm hmn
      by_contra hne
      exact hkids hne (hcount.files m hlive (hdir ▸ hfile))
  · intro m hm hk
    rw [hroot]
    by_cases hmn : m = n
    · subst hmn
      exact (hn hm).2.2.2 hk
    · obtain ⟨hlive, -, -, -, hreach, hkids⟩ := hother m hm hmn
      exact hreach.mpr (hcount.rooted m hlive (hkids hk))

theorem Counted.opened (hcount : Counted fs live kids) (hn : n ∈ live) (hi : (fs.fds i).node = 0)
    (flags : BitVec 32) (mode : Nat) : Counted (opened fs i n flags mode) live kids := by
  have hopens : ∀ m ∈ live, opens (Tmpfs.opened fs i n flags mode).fds m =
      opens fs.fds m + if n = m then 1 else 0 :=
    fun m hm => opens_opened hi n flags mode (h.linked.ne_zero hm)
  refine hcount.change (n := n) rfl ?_ ?_
  · intro m hm hmn
    have hnode : (Tmpfs.opened fs i n flags mode).nodes m = fs.nodes m := by
      rw [opened_nodes, if_neg hmn]
    rw [hnode, hopens m hm, if_neg (Ne.symm hmn)]
    exact ⟨hm, rfl, rfl, Nat.add_zero _, Iff.rfl, id⟩
  · intro _
    have hnode : (Tmpfs.opened fs i n flags mode).nodes n =
        { fs.nodes n with refcount := (fs.nodes n).refcount + 1 } := by
      rw [opened_nodes, if_pos rfl]
    rw [hnode, hopens n hn, if_pos rfl]
    refine ⟨?_, by omega, hcount.files n hn, hcount.rooted n hn⟩
    have := hcount.count n hn
    simp only
    omega

/-- A holder of `n` has let go and the counter does not know it yet. -/
structure Owing (fs : Fs) (live : List Nat) (kids : Kids) (n : Nat) : Prop where
  count : ∀ m ∈ live, (fs.nodes m).refcount =
    linkCount fs.root kids m + opens fs.fds m + if m = n then 1 else 0
  held : ∀ m ∈ live, m ≠ n → 0 < linkCount fs.root kids m + opens fs.fds m
  files : ∀ m ∈ live, (fs.nodes m).isDir = false → kids m = []
  rooted : ∀ m ∈ live, kids m ≠ [] → Reached fs.root kids m

omit h in
theorem Owing.settle {heap : Heap} (ho : Owing fs live kids n) (hsub : ∀ m ∈ live', m ∈ live)
    (hn : n ∈ live' → 0 < linkCount fs.root kids n + opens fs.fds n) :
    Counted { fs.setNode n fun n => { n with refcount := n.refcount - 1 } with heap } live' kids := by
  have hnode : ∀ m, ((fs.setNode n fun n => { n with refcount := n.refcount - 1 }).nodes m) =
      { fs.nodes m with
        refcount := (fs.nodes m).refcount - if m = n then 1 else 0 } := by
    intro m
    rw [setNode_nodes]
    split_ifs
    · rfl
    · simp
  refine ⟨?_, ?_, ?_, fun m hm => ho.rooted m (hsub m hm)⟩
  · intro m hm
    have := ho.count m (hsub m hm)
    simp only [hnode]
    rw [this]
    simp only [Fs.setNode]
    omega
  · intro m hm
    by_cases hmn : m = n
    · subst hmn
      exact hn hm
    · exact ho.held m (hsub m hm) hmn
  · intro m hm
    simp only [hnode]
    exact ho.files m (hsub m hm)

theorem freeNode_owing (ho : Owing fs live kids n) (hn : n ∈ live) :
    ∃ fs' bs' live', freeNode fs n = some fs' ∧ Inv foreign fs' bs' live' kids ∧
      Counted fs' live' kids ∧ failures fs'.heap = failures fs.heap ∧
      ∀ r, Room r bs → Room r bs' := by
  have hcount := ho.count n hn
  rw [if_pos rfl] at hcount
  -- Without a reference neither the tree nor a descriptor knows the node.
  have hlast : (fs.nodes n).refcount ≤ 1 →
      n ≠ fs.root ∧ (∀ m ∈ live, n ∉ kids m) ∧ ∀ i, (fs.fds i).node ≠ n := by
    intro href
    have hnot : ¬ Reached fs.root kids n := by
      intro hr
      rw [linkCount_of_reached hr] at hcount
      omega
    refine ⟨?_, ?_, ?_⟩
    · rintro rfl
      exact hnot .root
    · intro m hm hc
      exact hnot (.child (ho.rooted m hm (ne_nil_of_mem hc)) hc)
    · intro i hi
      have : 0 < opens fs.fds n := opens_pos_iff.mpr ⟨i, hi⟩
      omega
  obtain ⟨heap, bs', live', hfree, hs, hcases, -, hfail, hroom⟩ :=
    freeNode_cases h.toSane hn hlast
  refine ⟨_, bs', live', hfree, h.of_sane hs rfl rfl, ?_, hfail, hroom⟩
  rcases hcases with ⟨href, rfl, -⟩ | ⟨href, rfl⟩
  · exact ho.settle (fun m hm => hm) fun _ => by omega
  · refine ho.settle (fun m hm => (mem_filter.mp hm).1) fun hm => ?_
    simp at hm

/-! ## `close`, `unlink` and `rmdir` -/

omit h in
theorem freeNode_setFd (n : Nat) (i : Fin 256) (f : Filedesc → Filedesc) :
    freeNode (fs.setFd i f) n = (freeNode fs n).map fun fs => fs.setFd i f := by
  by_cases h0 : n = 0
  · rw [freeNode, freeNode, if_pos h0, if_pos h0]
    rfl
  · rw [freeNode_eq _ h0, freeNode_eq _ h0, Option.map_map]
    rfl

theorem close_spec (hcount : Counted fs live kids) (fd : Int) :
    ∃ r fs' bs' live', close fs fd = some (r, fs') ∧ Inv foreign fs' bs' live' kids ∧
      Counted fs' live' kids ∧ failures fs'.heap = failures fs.heap ∧
      ∀ r, Room r bs → Room r bs' := by
  unfold close
  cases entryOf fd with
  | none => exact ⟨-1, fs, bs, live, rfl, h, hcount, rfl, fun r hr => hr⟩
  | some i =>
    simp only
    have hinv : Inv foreign (fs.setFd i fun f => { f with node := 0, free := true }) bs live kids :=
      h.setFd (fun h0 => absurd rfl h0) fun _ => rfl
    have hopens := fun m hm => opens_cleared fs i (h.linked.ne_zero (n := m) hm)
    by_cases h0 : (fs.fds i).node = 0
    · rw [h0, freeNode, if_pos rfl]
      refine ⟨0, _, bs, live, rfl, hinv, hcount.congr rfl (fun _ _ => ⟨rfl, rfl⟩) ?_, rfl,
        fun r hr => hr⟩
      intro m hm
      have := hopens m hm
      rw [h0, if_neg (h.linked.ne_zero hm).symm, Nat.add_zero] at this
      exact this
    · have howing : Owing (fs.setFd i fun f => { f with node := 0, free := true }) live kids
          (fs.fds i).node := by
        refine ⟨?_, ?_, hcount.files, hcount.rooted⟩
        · intro m hm
          have h1 := hopens m hm
          have h2 := hcount.count m hm
          simp only [Fs.setFd, eq_comm (a := m)] at h1 ⊢
          rw [h2, ← h1]
          push_cast
          omega
        · intro m hm hne
          have h1 := hopens m hm
          rw [if_neg (Ne.symm hne), Nat.add_zero] at h1
          rw [h1]
          exact hcount.held m hm
      obtain ⟨fs', bs', live', hfree, hinv', hcount', hfail, hroom⟩ :=
        freeNode_owing hinv howing (h.table.node i h0)
      rw [freeNode_setFd] at hfree
      obtain ⟨fs1, hfs1, rfl⟩ := Option.map_eq_some_iff.mp hfree
      exact ⟨0, _, bs', live', by rw [hfs1]; rfl, hinv', hcount', hfail, hroom⟩

theorem reached_erase {p : Nat} (hp : p ∈ live) (hn : n ∈ kids p) (hbare : kids n = []) :
    Reached fs.root (update kids p ((kids p).erase n)) m ↔
      Reached fs.root kids m ∧ m ≠ n := by
  rw [h.linked.reached_erase hp hn, reached_bare hbare]

theorem remove_spec (hcount : Counted fs live kids) (hn : Reached fs.root kids n)
    (hbare : kids n = []) :
    ∃ r fs' bs' live' kids', remove fs n = some (r, fs') ∧ Inv foreign fs' bs' live' kids' ∧
      Counted fs' live' kids' ∧ failures fs'.heap = failures fs.heap ∧
      ∀ r, Room r bs → Room r bs' := by
  unfold remove
  cases hn with
  | root =>
    refine ⟨-1, fs, bs, live, kids, ?_, h, hcount, rfl, fun r hr => hr⟩
    simp only [h.linked.top, if_pos]
  | @child p _ hp hc =>
    have hplive := h.linked.reached_mem hp
    obtain ⟨hnlive, hparent⟩ := h.linked.child p hplive n hc
    obtain ⟨fs1, hdetach, hframe, hdata, hlinked⟩ := detach_spec h.linked hplive hc
    have hroot : fs1.root = fs.root := by rw [hframe]
    have hfds : fs1.fds = fs.fds := by rw [hframe]
    have hheap : fs1.heap = fs.heap := by rw [hframe]
    have hinv : Inv foreign fs1 bs live (update kids p ((kids p).erase n)) := by
      refine h.of_sane ⟨?_, hroot ▸ hlinked, hfds ▸ h.table⟩ (by rw [hframe]) hroot
      rw [hheap]
      exact h.owns.congr fun m _ => (congrArg Node.content (hdata m) :)
    have hreach := fun m => reached_erase h (m := m) hplive hc hbare
    have hsub : ∀ m, update kids p ((kids p).erase n) m ≠ [] → kids m ≠ [] := by
      intro m hm
      by_cases hmp : m = p
      · rw [hmp]
        exact ne_nil_of_mem hc
      · rw [update_of_ne hmp] at hm
        exact hm
    have hlink : ∀ m, linkCount fs.root kids m =
        linkCount fs.root (update kids p ((kids p).erase n)) m + if m = n then 1 else 0 := by
      intro m
      by_cases hmn : m = n
      · rw [if_pos hmn, hmn, linkCount_of_reached (.child hp hc),
          linkCount_of_not fun hr => ((hreach n).mp hr).2 rfl]
      · rw [if_neg hmn, Nat.add_zero]
        exact linkCount_congr ⟨fun hr => (hreach m).mpr ⟨hr, hmn⟩, fun hr => ((hreach m).mp hr).1⟩
    have howing : Owing fs1 live (update kids p ((kids p).erase n)) n := by
      refine ⟨?_, ?_, ?_, ?_⟩
      · intro m hm
        have h1 := hcount.count m hm
        have h2 : (fs1.nodes m).refcount = (fs.nodes m).refcount :=
          (congrArg Node.refcount (hdata m) :)
        rw [h2, h1, hroot, hfds, hlink m]
        push_cast
        omega
      · intro m hm hne
        have := hcount.held m hm
        rw [hlink m, if_neg hne] at this
        rw [hroot, hfds]
        omega
      · intro m hm hfile
        have h2 : (fs1.nodes m).isDir = (fs.nodes m).isDir := (congrArg Node.isDir (hdata m) :)
        by_contra hne
        exact hsub m hne (hcount.files m hm (h2 ▸ hfile))
      · intro m hm hne
        rw [hroot]
        refine (hreach m).mpr ⟨hcount.rooted m hm (hsub m hne), ?_⟩
        rintro rfl
        exact hsub m hne hbare
    obtain ⟨fs', bs', live', hfree, hinv', hcount', hfail, hroom⟩ :=
      freeNode_owing hinv howing hnlive
    refine ⟨0, fs', bs', live', _, ?_, hinv', hcount', by rw [hfail, hheap], hroom⟩
    rw [hparent, if_neg (h.linked.ne_zero hplive), hdetach]
    simp only [Option.bind_eq_bind, Option.bind_some, hfree]

end Steps

end Terrakernel.Tmpfs
