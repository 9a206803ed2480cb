import Mathlib.Data.List.Find
import Mathlib.Data.List.Perm.Subperm
import Terrakernel.Heap.Used
import Terrakernel.Tmpfs.Code

/-!
# The tree

The children of a node are a linked list, and each points back to it. `live` are the nodes that own
a block, whether or not they can still be found.
-/

namespace Terrakernel

open Memory Links Heap Function
open List hiding Chain

variable {n m c curr x : Nat} {r l ys : List Nat} {nodes' : Nat → Node}

/-- Everything but the links down. -/
def Node.data (n : Node) : Node := { n with firstChild := 0, nextSibling := 0 }

namespace Tmpfs

def sibling (nodes : Nat → Node) (n : Nat) : Nat := (nodes n).nextSibling

/-- The links of the nodes: `kids n` is the list of the children of `n`. -/
structure Linked (nodes : Nat → Node) (root : Nat) (live : List Nat) (kids : Kids) :
    Prop where
  root_mem : root ∈ live
  nonnull : 0 ∉ live
  short : live.length < word
  top : (nodes root).parent = 0
  chain : ∀ m ∈ live, Chain (sibling nodes) (nodes m).firstChild (kids m)
  child : ∀ m ∈ live, ∀ c ∈ kids m, c ∈ live ∧ (nodes c).parent = m

section Walks

variable {nodes : Nat → Node} {root : Nat} {live : List Nat} {kids : Kids}
  (h : Linked nodes root live kids)

include h

theorem Linked.kids_short (hm : m ∈ live) : (kids m).length < word := by
  have hsub : (kids m).Subperm live :=
    subperm_of_subset (h.chain m hm).nodup fun c hc => (h.child m hm c hc).1
  exact Nat.lt_of_le_of_lt hsub.length_le h.short

theorem Linked.below_mem (hm : m ∈ live) (hn : Reached m kids n) : n ∈ live := by
  induction hn with
  | root => exact hm
  | child _ hc ih => exact (h.child _ ih _ hc).1

theorem Linked.reached_mem (hn : Reached root kids n) : n ∈ live := h.below_mem h.root_mem hn

theorem Linked.ne_zero (hn : n ∈ live) : n ≠ 0 := by
  rintro rfl
  exact h.nonnull hn

theorem Linked.ne_root (hm : m ∈ live) (hc : c ∈ kids m) : c ≠ root := by
  rintro rfl
  have := (h.child m hm c hc).2
  rw [h.top] at this
  exact h.ne_zero hm this.symm

theorem findChild_spec (hm : m ∈ live) (token : Bytes) :
    findChild nodes token (nodes m).firstChild =
      some (((kids m).find? fun c => (nodes c).name = token).getD 0) := by
  have hchain := h.chain m hm
  apply hchain.seek (h.kids_short hm)
  have hcongr : (kids m).find? (fun n => n = 0 || (nodes n).name = token) =
      (kids m).find? fun c => (nodes c).name = token := by
    apply find?_congr
    intro c hc
    simp [hchain.ne_zero hc]
  rw [find?_append, hcongr]
  cases (kids m).find? fun c => (nodes c).name = token with
  | none => simp
  | some c => simp

theorem lastSibling_spec (hm : m ∈ live) (hk : kids m = l ++ [x]) :
    lastSibling nodes (nodes m).firstChild = some x := by
  have hchain := h.chain m hm
  apply hchain.seek (h.kids_short hm)
  rw [hk] at hchain ⊢
  have hl : ∀ z ∈ l, ¬ (decide ((nodes z).nextSibling = 0) = true) := by
    intro z hz
    obtain ⟨y, hy, hnext⟩ := hchain.next_of_mem hz
    have hy0 := hchain.ne_zero hy
    simp only [sibling] at hnext
    simpa [hnext] using hy0
  have hx : (nodes x).nextSibling = 0 := hchain.next_mem
  rw [append_assoc, find?_append, find?_eq_none.mpr hl, Option.none_or,
    singleton_append, find?_cons_of_pos (by simpa using hx)]

theorem siblingBefore_spec {y : Nat} (hm : m ∈ live) (hk : kids m = l ++ y :: n :: r) :
    siblingBefore nodes n (nodes m).firstChild = some y := by
  have hchain := h.chain m hm
  have hnodup := hchain.nodup
  apply hchain.seek (h.kids_short hm)
  rw [hk] at hchain hnodup ⊢
  have hl : ∀ z ∈ l, ¬ ((decide (z = 0) || decide ((nodes z).nextSibling = n)) = true) := by
    intro z hz
    obtain ⟨w, hw, hnext⟩ := hchain.next_of_mem hz
    have hz0 := hchain.ne_zero (mem_append_left _ hz)
    have hwn : w ≠ n := by
      rintro rfl
      rw [← singleton_append, ← append_assoc, nodup_append] at hnodup
      exact hnodup.2.2 w hw w mem_cons_self rfl
    simp only [sibling] at hnext
    simp [hz0, hnext, hwn]
  have hy : (nodes y).nextSibling = n := hchain.next_mem
  rw [append_assoc, find?_append, find?_eq_none.mpr hl, Option.none_or,
    cons_append, find?_cons_of_pos (by simp [hy])]

/-! ## Changes of the links -/

theorem Linked.congr (hsame : ∀ m ∈ live, (nodes' m).parent = (nodes m).parent ∧
      (nodes' m).firstChild = (nodes m).firstChild ∧
      (nodes' m).nextSibling = (nodes m).nextSibling) : Linked nodes' root live kids := by
  refine ⟨h.root_mem, h.nonnull, h.short, ?_, ?_, ?_⟩
  · rw [(hsame root h.root_mem).1, h.top]
  · intro m hm
    rw [(hsame m hm).2.1]
    exact (h.chain m hm).congr fun c hc => (hsame c (h.child m hm c hc).1).2.2
  · intro m hm c hc
    obtain ⟨hlive, hparent⟩ := h.child m hm c hc
    exact ⟨hlive, (hsame c hlive).1.trans hparent⟩

theorem Linked.relive {live' : List Nat} (hroot : root ∈ live') (hshort : live'.length < word)
    (hnonnull : 0 ∉ live') (hold : ∀ m ∈ live', m ∈ live)
    (hkeep : ∀ m ∈ live', ∀ c ∈ kids m, c ∈ live') : Linked nodes root live' kids :=
  ⟨hroot, hnonnull, hshort, h.top, fun m hm => h.chain m (hold m hm),
    fun m hm c hc => ⟨hkeep m hm c hc, (h.child m (hold m hm) c hc).2⟩⟩

theorem Linked.born (hc : c ∉ live) (hc0 : c ≠ 0) (hshort : live.length + 1 < word)
    (hsame : ∀ m ∈ live, nodes' m = nodes m) (hfirst : (nodes' c).firstChild = 0) :
    Linked nodes' root (c :: live) (update kids c []) := by
  have h' : Linked nodes' root live kids :=
    h.congr fun m hm => by rw [hsame m hm]; exact ⟨rfl, rfl, rfl⟩
  have hne : ∀ m ∈ live, m ≠ c := by
    rintro m hm rfl
    exact hc hm
  refine ⟨mem_cons_of_mem _ h.root_mem, ?_, hshort, h'.top, ?_, ?_⟩
  · rw [mem_cons, not_or]
    exact ⟨hc0.symm, h.nonnull⟩
  · intro m hm
    rcases mem_cons.mp hm with rfl | hm
    · rw [update_self]
      exact hfirst
    · rw [update_of_ne (hne m hm)]
      exact h'.chain m hm
  · intro m hm d hd
    rcases mem_cons.mp hm with rfl | hm
    · rw [update_self] at hd
      exact absurd hd not_mem_nil
    · rw [update_of_ne (hne m hm)] at hd
      obtain ⟨h1, h2⟩ := h'.child m hm d hd
      exact ⟨mem_cons_of_mem _ h1, h2⟩

theorem Linked.rewire (hparent : ∀ m ∈ live, (nodes' m).parent = (nodes m).parent)
    (hchain : Chain (sibling nodes') (nodes' curr).firstChild ys)
    (hys : ∀ c ∈ ys, c ∈ live ∧ (nodes c).parent = curr)
    (hother : ∀ m ∈ live, m ≠ curr → (nodes' m).firstChild = (nodes m).firstChild ∧
      ∀ x ∈ kids m, sibling nodes' x = sibling nodes x) :
    Linked nodes' root live (update kids curr ys) := by
  refine ⟨h.root_mem, h.nonnull, h.short, ?_, ?_, ?_⟩
  · rw [hparent root h.root_mem, h.top]
  · intro m hm
    by_cases hmc : m = curr
    · subst hmc
      rw [update_self]
      exact hchain
    · rw [update_of_ne hmc, (hother m hm hmc).1]
      exact (h.chain m hm).congr (hother m hm hmc).2
  · intro m hm c hc
    by_cases hmc : m = curr
    · subst hmc
      rw [update_self] at hc
      rw [hparent c (hys c hc).1]
      exact hys c hc
    · rw [update_of_ne hmc] at hc
      rw [hparent c (h.child m hm c hc).1]
      exact h.child m hm c hc

theorem Linked.not_mem_other (hm : m ∈ live) (hn : n ∈ live) (hc : c ∈ kids m) (hmn : n ≠ m) :
    c ∉ kids n := by
  intro hc'
  apply hmn
  rw [← (h.child m hm c hc).2, (h.child n hn c hc').2]

theorem Linked.not_below_root (hm : m ∈ live) (hc : c ∈ kids m) : ¬ Reached c kids root := by
  intro hroot
  cases hroot with
  | root => exact h.ne_root hm hc rfl
  | child hx hd => exact h.ne_root (h.below_mem (h.child m hm c hc).1 hx) hd rfl

/-- What is lost with a child is what was found from there on. -/
theorem Linked.reached_erase (hm : m ∈ live) (hc : c ∈ kids m) :
    Reached root (update kids m ((kids m).erase c)) n ↔
      Reached root kids n ∧ ¬ Reached c kids n := by
  constructor
  · intro hn
    induction hn with
    | root => exact ⟨.root, h.not_below_root hm hc⟩
    | @child d e _ he ih =>
      have hd := h.reached_mem ih.1
      have hmem : e ≠ c ∧ e ∈ kids d := by
        by_cases hdm : d = m
        · rw [hdm, update_self] at he
          exact hdm ▸ (h.chain m hm).nodup.mem_erase_iff.mp he
        · rw [update_of_ne hdm] at he
          refine ⟨?_, he⟩
          rintro rfl
          exact h.not_mem_other hm hd hc hdm he
      refine ⟨.child ih.1 hmem.2, fun hbelow => ?_⟩
      cases hbelow with
      | root => exact hmem.1 rfl
      | @child x _ hx hex =>
        have hxlive := h.below_mem (h.child m hm c hc).1 hx
        obtain rfl : x = d := by_contra fun hne => h.not_mem_other hd hxlive hmem.2 hne hex
        exact ih.2 hx
  · rintro ⟨hn, hnot⟩
    induction hn with
    | root => exact .root
    | @child d e _ he ih =>
      refine .child (ih fun hd => hnot (.child hd he)) ?_
      by_cases hdm : d = m
      · subst hdm
        rw [update_self]
        refine (mem_erase_of_ne ?_).mpr he
        rintro rfl
        exact hnot .root
      · rwa [update_of_ne hdm]

end Walks

theorem setNode_nodes (fs : Fs) (n : Nat) (f : Node → Node) (m : Nat) :
    (fs.setNode n f).nodes m = if m = n then f (fs.nodes m) else fs.nodes m := by
  simp only [Fs.setNode, update_apply]
  split_ifs with hm
  · rw [hm]
  · rfl

section Append

variable {fs : Fs} {live : List Nat} {kids : Kids}
  (h : Linked fs.nodes fs.root live kids)

include h

theorem Linked.setFirst {curr p : Nat} {ys : List Nat} (hp : Chain (sibling fs.nodes) p ys)
    (hys : ∀ c ∈ ys, c ∈ live ∧ (fs.nodes c).parent = curr) :
    Linked (fs.setNode curr fun n => { n with firstChild := p }).nodes fs.root live
      (update kids curr ys) := by
  have hsib : ∀ x, sibling (fs.setNode curr fun n => { n with firstChild := p }).nodes x =
      sibling fs.nodes x := by
    intro x
    rw [sibling, setNode_nodes]
    split_ifs <;> rfl
  refine h.rewire ?_ ?_ hys ?_
  · intro m _
    rw [setNode_nodes]
    split_ifs <;> rfl
  · rw [setNode_nodes, if_pos rfl]
    exact hp.congr fun x _ => hsib x
  · intro m _ hmc
    rw [setNode_nodes, if_neg hmc]
    exact ⟨rfl, fun x _ => hsib x⟩

theorem Linked.setNext {q : Nat} (hcurr : curr ∈ live) (hk : kids curr = l ++ x :: r)
    (hq : Chain (sibling fs.nodes) q ys) (hxys : x ∉ ys)
    (hys : ∀ c ∈ ys, c ∈ live ∧ (fs.nodes c).parent = curr) :
    Linked (fs.setNode x fun n => { n with nextSibling := q }).nodes fs.root live
      (update kids curr (l ++ x :: ys)) := by
  have hchain := h.chain curr hcurr
  have hx : x ∈ kids curr := by simp [hk]
  have hxl : x ∉ l := by
    have := hchain.nodup
    rw [hk, nodup_append] at this
    exact fun hxl => this.2.2 x hxl x mem_cons_self rfl
  have hsib : ∀ y, y ≠ x → sibling (fs.setNode x fun n => { n with nextSibling := q }).nodes y =
      sibling fs.nodes y := by
    intro y hy
    rw [sibling, setNode_nodes, if_neg hy]
    rfl
  have hfirst : ∀ m, ((fs.setNode x fun n => { n with nextSibling := q }).nodes m).firstChild =
      (fs.nodes m).firstChild := by
    intro m
    rw [setNode_nodes]
    split_ifs <;> rfl
  refine h.rewire ?_ ?_ ?_ ?_
  · intro m _
    rw [setNode_nodes]
    split_ifs <;> rfl
  · rw [hk] at hchain
    rw [hfirst]
    refine hchain.cut ?_ ?_
    · have hnext : sibling (fs.setNode x fun n => { n with nextSibling := q }).nodes x = q := by
        rw [sibling, setNode_nodes, if_pos rfl]
      rw [hnext]
      apply hq.congr
      rintro y hy
      apply hsib
      rintro rfl
      exact hxys hy
    · rintro y hy
      apply hsib
      rintro rfl
      exact hxl hy
  · intro c hc
    rw [mem_append, mem_cons] at hc
    rcases hc with hc | rfl | hc
    · exact h.child curr hcurr c (by simp [hk, hc])
    · exact h.child curr hcurr c hx
    · exact hys c hc
  · intro m hm hmc
    refine ⟨hfirst m, ?_⟩
    rintro y hy
    apply hsib
    rintro rfl
    exact h.not_mem_other hcurr hm hx hmc hy

theorem appendChild_spec (hcurr : curr ∈ live) (hc : c ∈ live) (hnew : c ∉ kids curr)
    (hparent : (fs.nodes c).parent = curr) (hnext : (fs.nodes c).nextSibling = 0) :
    ∃ fs', appendChild fs curr c = some fs' ∧ fs' = { fs with nodes := fs'.nodes } ∧
      (∀ m, (fs'.nodes m).data = (fs.nodes m).data) ∧
      Linked fs'.nodes fs.root live (update kids curr (kids curr ++ [c])) := by
  have hchain := h.chain curr hcurr
  have hlone : Chain (sibling fs.nodes) c [c] := ⟨rfl, h.ne_zero hc, hnext⟩
  have hys : ∀ d ∈ [c], d ∈ live ∧ (fs.nodes d).parent = curr := by
    intro d hd
    rw [mem_singleton.mp hd]
    exact ⟨hc, hparent⟩
  unfold appendChild
  rcases eq_nil_or_concat (kids curr) with hk | ⟨l, x, hk⟩
  · rw [if_pos (hchain.null_iff.mpr hk), hk]
    refine ⟨_, rfl, rfl, ?_, h.setFirst hlone hys⟩
    intro m
    rw [setNode_nodes]
    split_ifs <;> rfl
  · rw [concat_eq_append] at hk
    have hfirst : (fs.nodes curr).firstChild ≠ 0 := by
      rw [Ne, hchain.null_iff, hk]
      simp
    have hxc : x ∉ [c] := by
      rw [mem_singleton]
      rintro rfl
      exact hnew (by simp [hk])
    have hlinked := h.setNext hcurr hk hlone hxc hys
    rw [if_neg hfirst, lastSibling_spec h hcurr hk, hk, append_assoc]
    refine ⟨_, rfl, rfl, ?_, hlinked⟩
    intro m
    rw [setNode_nodes]
    split_ifs <;> rfl

theorem detach_spec {parent : Nat} (hparent : parent ∈ live) (hn : n ∈ kids parent) :
    ∃ fs', detach fs parent n = some fs' ∧ fs' = { fs with nodes := fs'.nodes } ∧
      (∀ m, (fs'.nodes m).data = (fs.nodes m).data) ∧
      Linked fs'.nodes fs.root live (update kids parent ((kids parent).erase n)) := by
  have hchain := h.chain parent hparent
  have hnodup := hchain.nodup
  obtain ⟨l, r, hk⟩ := append_of_mem hn
  have hmem : ∀ c ∈ r, c ∈ live ∧ (fs.nodes c).parent = parent :=
    fun c hc => h.child parent hparent c (by simp [hk, hc])
  have hrest : Chain (sibling fs.nodes) (fs.nodes n).nextSibling r := by
    rw [hk] at hchain
    exact hchain.after
  unfold detach
  rcases eq_nil_or_concat l with rfl | ⟨l, y, rfl⟩
  · rw [nil_append] at hk
    rw [if_pos (by rw [hchain.head, hk]; rfl), hk, erase_cons_head]
    refine ⟨_, rfl, rfl, ?_, h.setFirst hrest hmem⟩
    intro m
    rw [setNode_nodes]
    split_ifs <;> rfl
  · rw [concat_eq_append] at hk
    have hnl : n ∉ l ++ [y] := by
      rw [hk, nodup_append] at hnodup
      exact fun hn' => hnodup.2.2 n hn' n mem_cons_self rfl
    have hyr : y ∉ r := by
      rw [hk, nodup_append] at hnodup
      exact fun hy => hnodup.2.2 y (by simp) y (mem_cons_of_mem _ hy) rfl
    have hk' : kids parent = l ++ y :: n :: r := by rw [hk, append_assoc]; rfl
    have hfirst : (fs.nodes parent).firstChild ≠ n := by
      rw [hchain.head, hk']
      intro hhead
      apply hnl
      rw [← hhead]
      cases l <;> simp
    have hlinked := h.setNext hparent hk' hrest hyr hmem
    have hy0 : y ≠ 0 := hchain.ne_zero (by simp [hk'])
    rw [if_neg hfirst, siblingBefore_spec h hparent hk', hk, erase_append_right _ hnl,
      erase_cons_head, append_assoc]
    refine ⟨_, by simp only [Option.bind_eq_bind, Option.bind_some, if_neg hy0], rfl, ?_, hlinked⟩
    intro m
    rw [setNode_nodes]
    split_ifs <;> rfl

end Append

end Tmpfs

end Terrakernel
