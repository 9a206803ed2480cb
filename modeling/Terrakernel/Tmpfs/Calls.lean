import Terrakernel.Tmpfs.Build

/-!
# One call at a time

What each operation on descriptors and bytes does, and that it leaves a good state.
-/

namespace Terrakernel.Tmpfs

open Memory Vmm Links Heap Function List Option

variable {fd r : Int} {f : Node → Node} {i : Fin 256} {k n : Nat} {fs fs' : Fs}
  {fds : Fin 256 → Filedesc}

/-- The state with one more descriptor. -/
def opened (fs : Fs) (i : Fin 256) (n : Nat) (flags : BitVec 32) (mode : Nat) : Fs :=
  (fs.setFd i fun _ => ⟨i, n, 0, flags, mode, (fs.nodes n).isDir, false⟩).setNode n
    fun n => { n with refcount := n.refcount + 1 }

theorem opened_fds (fs : Fs) (i : Fin 256) (n : Nat) (flags : BitVec 32) (mode : Nat) :
    (opened fs i n flags mode).fds =
      update fs.fds i ⟨i, n, 0, flags, mode, (fs.nodes n).isDir, false⟩ := rfl

theorem opened_nodes (fs : Fs) (i : Fin 256) (n : Nat) (flags : BitVec 32) (mode m : Nat) :
    (opened fs i n flags mode).nodes m =
      if m = n then { fs.nodes m with refcount := (fs.nodes m).refcount + 1 } else fs.nodes m :=
  setNode_nodes _ n _ m

/-! ## The table -/

theorem entryOf_fin (i : Fin 256) : entryOf (i : Int) = some i := by
  have := i.isLt
  rw [entryOf, dif_pos (by omega)]
  rfl

theorem entryOf_eq_some (h : entryOf fd = some i) : fd = i := by
  unfold entryOf at h
  split_ifs at h with hfd
  cases h
  simp only
  omega

/-! ## What a read gives -/

theorem toInt_ofNat_of_lt (hk : k < 2 ^ 63) : (BitVec.ofNat 64 k).toInt = k := by
  rw [BitVec.toInt_ofNat', Int.bmod_def]
  omega

theorem accessible_iff (a n : Nat) :
    accessible a n = true ↔ a + n ≤ 2 ^ 47 ∨ directBase ≤ a ∧ a + n ≤ word := by
  simp [accessible]

/-- A read through entry `i` that gives `k` bytes. -/
structure Delivers (fs : Fs) (i : Fin 256) (buf count k : Nat) (stored : Bytes) (fs' : Fs) :
    Prop where
  file : notFile fs (fs.fds i) = false
  count : k = min count
    (((fs.nodes (fs.fds i).node).size + word - (fs.fds i).offset.toNat) % word)
  access : 0 < k → accessible (((fs.nodes (fs.fds i).node).content +
    (fs.fds i).offset.toNat) % word) k = true
  stored : stored = ((List.range k).map fun j => fs.heap.mem
    (((fs.nodes (fs.fds i).node).content + (fs.fds i).offset.toNat) % word + j)) ++
      if buf ≠ 0 then [0] else []
  state : fs' = fs.setFd i fun f => { f with offset := f.offset + BitVec.ofNat 64 k }

theorem read_cases {buf count : Nat} {stored : Bytes}
    (hrun : read fs fd buf count = some (r, stored, fs')) :
    (r = -1 ∧ stored = [] ∧ fs' = fs ∧
        ∀ i, entryOf fd = some i → notFile fs (fs.fds i) = true) ∨
      ∃ (i : Fin 256) (k : Nat), entryOf fd = some i ∧ r = k ∧
        Delivers fs i buf count k stored fs' := by
  unfold read at hrun
  cases he : entryOf fd with
  | none =>
    rw [he] at hrun
    cases hrun
    exact .inl ⟨rfl, rfl, rfl, by simp⟩
  | some i =>
    simp only [he] at hrun
    by_cases hfile : notFile fs (fs.fds i) = true
    · rw [if_pos hfile] at hrun
      cases hrun
      exact .inl ⟨rfl, rfl, rfl, fun j hj => some.inj hj ▸ hfile⟩
    rw [if_neg hfile] at hrun
    obtain ⟨k, hk⟩ : ∃ k, k = if count <
        ((fs.nodes (fs.fds i).node).size + word - (fs.fds i).offset.toNat) % word then count
      else ((fs.nodes (fs.fds i).node).size + word - (fs.fds i).offset.toNat) % word := ⟨_, rfl⟩
    rw [← hk] at hrun
    by_cases hacc : 0 < k ∧ accessible (((fs.nodes (fs.fds i).node).content +
        (fs.fds i).offset.toNat) % word) k = false
    · rw [if_pos hacc] at hrun
      cases hrun
    rw [if_neg hacc] at hrun
    cases hrun
    have hyes : 0 < k → accessible (((fs.nodes (fs.fds i).node).content +
        (fs.fds i).offset.toNat) % word) k = true := by
      intro hpos
      by_contra hno
      exact hacc ⟨hpos, by simpa using hno⟩
    -- Neither half of the address space has room for more bytes than this.
    have hsmall : k < 2 ^ 63 := by
      rcases Nat.eq_zero_or_pos k with rfl | hpos
      · decide
      · have := (accessible_iff _ _).mp (hyes hpos)
        simp only [directBase, word] at this
        omega
    refine .inr ⟨i, k, rfl, toInt_ofNat_of_lt hsmall, by simpa using hfile, ?_, hyes, rfl, rfl⟩
    rw [hk]
    split_ifs <;> omega

theorem Table.set {live : List Nat} (h : Table fds live) (i : Fin 256) {f : Filedesc}
    (hf : f.node ≠ 0 → f.node ∈ live ∧ f.offset.toNat < 2 ^ 63)
    (hfree : f.free = true → f.node = 0) : Table (update fds i f) live := by
  refine ⟨?_, ?_, ?_⟩
  · intro j
    rw [update_apply]
    split_ifs
    · exact fun h0 => (hf h0).1
    · exact h.node j
  · intro j
    rw [update_apply]
    split_ifs
    · exact hfree
    · exact h.free j
  · intro j
    rw [update_apply]
    split_ifs
    · exact fun h0 => (hf h0).2
    · exact h.offset j

theorem Table.relive {live live' : List Nat} (h : Table fds live)
    (hlive : ∀ i, (fds i).node ≠ 0 → (fds i).node ∈ live') : Table fds live' :=
  ⟨hlive, h.free, h.offset⟩

theorem lseek_cases (fs : Fs) (fd : Int) (offset : BitVec 64) (whence : Int) :
    lseek fs fd offset whence = (-1, fs) ∨ ∃ i o, (fs.fds i).node ≠ 0 ∧ ¬ o.toInt < 0 ∧
      lseek fs fd offset whence = (o.toInt, fs.setFd i fun f => { f with offset := o }) := by
  unfold lseek
  cases entryOf fd with
  | none => exact .inl rfl
  | some i =>
    simp only
    by_cases h0 : (fs.fds i).node = 0
    · rw [if_pos h0]
      exact .inl rfl
    rw [if_neg h0]
    split
    · exact .inl rfl
    · split
      · exact .inl rfl
      · rename_i hneg
        exact .inr ⟨i, _, h0, hneg, rfl⟩

section Calls

variable {foreign : List Nat} {fs : Fs} {bs : List Blk} {live : List Nat} {kids : Kids}
  (h : Sane foreign fs bs live kids)

include h

theorem Sane.setNode (hf : (f (fs.nodes n)).content = (fs.nodes n).content ∧
      (f (fs.nodes n)).parent = (fs.nodes n).parent ∧
      (f (fs.nodes n)).firstChild = (fs.nodes n).firstChild ∧
      (f (fs.nodes n)).nextSibling = (fs.nodes n).nextSibling) :
    Sane foreign (fs.setNode n f) bs live kids := by
  refine ⟨h.owns.congr ?_, h.linked.congr ?_, h.table⟩
  · intro m _
    rw [setNode_nodes]
    split_ifs with hm
    · rw [hm]
      exact hf.1
    · rfl
  · intro m _
    rw [setNode_nodes]
    split_ifs with hm
    · rw [hm]
      exact hf.2
    · exact ⟨rfl, rfl, rfl⟩

theorem Sane.setFd {f : Filedesc → Filedesc} (hf : (f (fs.fds i)).node ≠ 0 →
      (f (fs.fds i)).node ∈ live ∧ (f (fs.fds i)).offset.toNat < 2 ^ 63)
    (hfree : (f (fs.fds i)).free = true → (f (fs.fds i)).node = 0) :
    Sane foreign (fs.setFd i f) bs live kids :=
  ⟨h.owns, h.linked, h.table.set i hf hfree⟩

/-! ## `open` -/

omit h in
theorem openNode_eq (hn : n ≠ 0) (flags : BitVec 32) (mode : Nat)
    (hi : (finRange 256).find? (fun i => (fs.fds i).free) = some i) :
    openNode fs n flags mode = ((i : Int), opened fs i n flags mode) := by
  unfold openNode
  rw [if_neg hn]
  simp only [allocFd, hi, bind_eq_bind, bind_some, Fs.setFd, update_self,
    update_idem]
  rfl

omit h in
theorem openNode_outcome {n : Nat} (hn : n ≠ 0) (flags : BitVec 32) (mode : Nat) :
    ((∀ i, (fs.fds i).free = false) ∧ openNode fs n flags mode = (-4, fs)) ∨
      ∃ i, (finRange 256).find? (fun i => (fs.fds i).free) = some i ∧
        openNode fs n flags mode = ((i : Int), opened fs i n flags mode) := by
  cases hfind : (finRange 256).find? fun i => (fs.fds i).free with
  | none =>
    left
    constructor
    · intro i
      simpa using find?_eq_none.1 hfind i (mem_finRange i)
    · unfold openNode
      rw [if_neg hn]
      simp only [allocFd, hfind, bind_eq_bind, bind_none]
  | some i => exact .inr ⟨i, rfl, openNode_eq hn flags mode hfind⟩

theorem Sane.opened (hn : n ∈ live) (i : Fin 256) (flags : BitVec 32) (mode : Nat) :
    Sane foreign (opened fs i n flags mode) bs live kids := by
  refine Sane.setNode (h.setFd ?_ ?_) ⟨rfl, rfl, rfl, rfl⟩
  · exact fun _ => ⟨hn, by simp⟩
  · simp

theorem openNode_cases (hn : n ∈ live) (flags : BitVec 32) (mode : Nat) :
    openNode fs n flags mode = (-4, fs) ∨
      ∃ i, (fs.fds i).node = 0 ∧ openNode fs n flags mode = ((i : Int), opened fs i n flags mode) := by
  rcases openNode_outcome (h.linked.ne_zero hn) flags mode with ⟨-, he⟩ | ⟨i, hi, he⟩
  · exact .inl he
  · have hfree : (fs.fds i).free = true := by simpa using find?_some hi
    exact .inr ⟨i, h.table.free i hfree, he⟩

/-! ## Releasing a node -/

omit h in
theorem freeNode_eq (fs : Fs) (hn : n ≠ 0) :
    freeNode fs n = (if 0 < (fs.nodes n).refcount - 1 then some fs.heap
      else ((if (fs.nodes n).content ≠ 0 then fs.heap.free (fs.nodes n).content
        else some fs.heap).bind fun heap => heap.free n).bind fun heap => heap.free n).map
      fun heap => { fs.setNode n fun n => { n with refcount := n.refcount - 1 } with heap } := by
  unfold freeNode
  rw [if_neg hn]
  simp only [Fs.setNode, update_self]
  by_cases href : 0 < (fs.nodes n).refcount - 1
  · rw [if_pos href, if_pos href]
    rfl
  · rw [if_neg href, if_neg href]
    generalize (if (fs.nodes n).content ≠ 0 then fs.heap.free (fs.nodes n).content
      else some fs.heap) = first
    cases first with
    | none => rfl
    | some h1 =>
      simp only [bind_eq_bind, bind_some]
      cases h1.free n with
      | none => rfl
      | some h2 =>
        simp only [bind_some]
        cases h2.free n <;> rfl

theorem freeNode_keep (hn : n ∈ live) (href : 1 < (fs.nodes n).refcount) :
    freeNode fs n = some (fs.setNode n fun n => { n with refcount := n.refcount - 1 }) := by
  rw [freeNode_eq fs (h.linked.ne_zero hn), if_pos (by omega)]
  rfl

theorem freeNode_release (hn : n ∈ live) (href : (fs.nodes n).refcount ≤ 1) :
    ∃ heap bs', freeNode fs n =
        some { fs.setNode n fun n => { n with refcount := n.refcount - 1 } with heap } ∧
      Owns foreign heap fs.nodes bs' (live.filter (· ≠ n)) ∧
      Keeps [(fs.nodes n).content, n] fs.heap bs heap bs' ∧
      failures heap = failures fs.heap ∧ ∀ r, Room r bs → Room r bs' := by
  have hs := h.owns.sound
  -- The block of the bytes, if there is one.
  obtain ⟨h1, hm1, hk1, hfail1⟩ := free_keeps hs (fs.nodes n).content
  have hfirst : (if (fs.nodes n).content ≠ 0 then fs.heap.free (fs.nodes n).content
      else some fs.heap) = some h1 := by
    split_ifs with hc
    · exact hm1
    · rw [not_not] at hc
      rw [hc, Heap.free, if_pos rfl] at hm1
      exact hm1
  obtain ⟨h2, hm2, hk2, hfail2⟩ := free_keeps hk1.sound n
  obtain ⟨h3, hm3, hk3, hfail3⟩ := free_keeps hk2.sound n
  have hagain : freed n (freed n (freed (fs.nodes n).content bs)) =
      freed n (freed (fs.nodes n).content bs) := by
    apply freed_of_not_used hk2.sound.normal
    rw [used_freed]
    simp
  rw [hagain] at hk3
  refine ⟨h3, freed n (freed (fs.nodes n).content bs), ?_, ?_, ?_, ?_, ?_⟩
  · rw [freeNode_eq fs (h.linked.ne_zero hn), if_neg (by omega), hfirst]
    simp only [bind_some, hm2, hm3, map_some]
  · apply h.owns.release hn hk3.sound
    · rw [hk3.heapBase, hk2.heapBase, hk1.heapBase]
    · rw [used_freed, used_freed]
  · exact ((hk1.trans hk2).trans hk3).weaken (by simp)
  · rw [hfail3, hfail2, hfail1]
  · exact fun r hr => (hr.freed _).freed _

theorem freeNode_cases (hn : n ∈ live) (hlast : (fs.nodes n).refcount ≤ 1 →
      n ≠ fs.root ∧ (∀ m ∈ live, n ∉ kids m) ∧ ∀ i, (fs.fds i).node ≠ n) :
    ∃ heap bs' live',
      freeNode fs n = some { fs.setNode n fun n => { n with refcount := n.refcount - 1 } with heap } ∧
      Sane foreign { fs.setNode n fun n => { n with refcount := n.refcount - 1 } with heap } bs' live'
        kids ∧
      (1 < (fs.nodes n).refcount ∧ live' = live ∧ bs' = bs ∨
        (fs.nodes n).refcount ≤ 1 ∧ live' = live.filter (· ≠ n)) ∧
      Keeps [(fs.nodes n).content, n] fs.heap bs heap bs' ∧
      failures heap = failures fs.heap ∧ ∀ r, Room r bs → Room r bs' := by
  by_cases href : 1 < (fs.nodes n).refcount
  · have hs : Sane foreign (fs.setNode n fun n => { n with refcount := n.refcount - 1 }) bs live
        kids := h.setNode ⟨rfl, rfl, rfl, rfl⟩
    have hk := Keeps.refl h.owns.sound
    exact ⟨fs.heap, bs, live, freeNode_keep h hn href, hs, .inl ⟨href, rfl, rfl⟩,
      hk.weaken (nil_subset _), rfl, fun r hr => hr⟩
  rw [not_lt] at href
  obtain ⟨hroot, hlisted, hopen⟩ := hlast href
  obtain ⟨heap, bs', hfree, howns, hk, hfail, hroom⟩ := freeNode_release h hn href
  have hsub : ∀ m ∈ live.filter (· ≠ n), m ∈ live := fun m hm => (mem_filter.mp hm).1
  have hmem : ∀ m ∈ live, m ≠ n → m ∈ live.filter (· ≠ n) :=
    fun m hm hne => mem_filter.mpr ⟨hm, by simpa using hne⟩
  have hnode : ∀ m, (fs.setNode n fun n => { n with refcount := n.refcount - 1 }).nodes m =
      { fs.nodes m with refcount :=
        ((fs.setNode n fun n => { n with refcount := n.refcount - 1 }).nodes m).refcount } := by
    intro m
    rw [setNode_nodes]
    split_ifs <;> rfl
  refine ⟨heap, bs', _, hfree, ⟨?_, ?_, ?_⟩, .inr ⟨href, rfl⟩, hk, hfail, hroom⟩
  · apply howns.congr
    intro m _
    simp only
    rw [hnode]
  · have hlinked : Linked fs.nodes fs.root (live.filter (· ≠ n)) kids := by
      refine h.linked.relive (hmem _ h.linked.root_mem hroot.symm) howns.short howns.nonnull hsub ?_
      intro m hm c hc
      refine hmem c (h.linked.child m (hsub m hm) c hc).1 ?_
      rintro rfl
      exact hlisted m (hsub m hm) hc
    apply hlinked.congr
    intro m _
    simp only
    rw [hnode]
    exact ⟨rfl, rfl, rfl⟩
  · exact h.table.relive fun i hi => hmem _ (h.table.node i hi) (hopen i)

/-! ## Offsets -/

omit h in
theorem toNat_lt_of_toInt_nonneg {x : BitVec 64} (hx : ¬ x.toInt < 0) : x.toNat < 2 ^ 63 := by
  rw [BitVec.toInt_eq_toNat_cond] at hx
  split_ifs at hx <;> omega

theorem Sane.content_high (hn : n ∈ live) (h0 : (fs.nodes n).content ≠ 0) :
    directBase ≤ (fs.nodes n).content ∧ (fs.nodes n).content < word := by
  obtain ⟨b, hb, -, hptr⟩ := mem_used.mp (h.owns.mem_used_content hn h0)
  have h1 := (h.owns.sound.rep.fits.bounds hb).1
  have h2 := h.owns.high
  have h3 := (h.owns.sound.rep.valid b hb).2
  rw [← hptr]
  refine ⟨?_, h3⟩
  simp only [Blk.ptr]
  omega

theorem Sane.read_offset (h0 : (fs.fds i).node ≠ 0)
    (hacc : 0 < k → accessible (((fs.nodes (fs.fds i).node).content +
      (fs.fds i).offset.toNat) % word) k = true) : (fs.fds i).offset.toNat + k < 2 ^ 63 := by
  have ho := h.table.offset i h0
  have hn := h.table.node i h0
  rcases Nat.eq_zero_or_pos k with rfl | hk
  · exact ho
  have hin := hacc hk
  generalize (fs.fds i).offset.toNat = o at *
  rw [accessible_iff] at hin
  by_cases hc : (fs.nodes (fs.fds i).node).content = 0
  · rw [hc, Nat.zero_add, Nat.mod_eq_of_lt (by simp only [word]; omega)] at hin
    simp only [directBase, word] at hin
    omega
  · obtain ⟨h1, h2⟩ := h.content_high hn hc
    generalize (fs.nodes (fs.fds i).node).content = c at *
    simp only [directBase, word] at *
    omega

theorem read_spec {buf count : Nat} {data : Bytes}
    (hrun : read fs fd buf count = some (r, data, fs')) :
    Sane foreign fs' bs live kids ∧ ∃ i f, f.node = (fs.fds i).node ∧
      fs' = { fs with fds := update fs.fds i f } := by
  rcases read_cases hrun with ⟨-, -, rfl, -⟩ | ⟨i, k, -, -, hd⟩
  · exact ⟨h, 0, fs'.fds 0, rfl, by rw [update_eq_self]⟩
  · have h0 : (fs.fds i).node ≠ 0 := by
      intro h0
      have := hd.file
      simp [notFile, h0] at this
    have hoff := h.read_offset h0 hd.access
    rw [hd.state]
    refine ⟨h.setFd ?_ ?_, i,
      { fs.fds i with offset := (fs.fds i).offset + BitVec.ofNat 64 k }, rfl, rfl⟩
    · intro _
      refine ⟨h.table.node i h0, ?_⟩
      rw [BitVec.toNat_add, BitVec.toNat_ofNat]
      omega
    · intro hfree
      exact h.table.free i hfree

theorem lseek_spec (fd : Int) (offset : BitVec 64) (whence : Int) :
    Sane foreign (lseek fs fd offset whence).2 bs live kids ∧ ∃ i f, f.node = (fs.fds i).node ∧
      (lseek fs fd offset whence).2 = { fs with fds := update fs.fds i f } := by
  rcases lseek_cases fs fd offset whence with he | ⟨i, o, h0, hneg, he⟩
  · rw [he]
    exact ⟨h, 0, fs.fds 0, rfl, by rw [update_eq_self]⟩
  · rw [he]
    dsimp only
    refine ⟨h.setFd ?_ ?_, i, { fs.fds i with offset := o }, rfl, rfl⟩
    · exact fun _ => ⟨h.table.node i h0, toNat_lt_of_toInt_nonneg hneg⟩
    · exact fun hfree => h.table.free i hfree

end Calls

/-! ## The bytes of one file -/

theorem read_file {bs : List Blk} (hs : Sound fs.heap bs) (hhigh : directBase ≤ fs.heap.heapBase)
    (he : entryOf fd = some i) (hfile : notFile fs (fs.fds i) = false)
    (hblock : 0 < (fs.nodes (fs.fds i).node).size → ∃ b ∈ bs,
      b.ptr = (fs.nodes (fs.fds i).node).content ∧ (fs.nodes (fs.fds i).node).size ≤ b.len)
    (ho : (fs.fds i).offset.toNat ≤ (fs.nodes (fs.fds i).node).size) (buf count : Nat) :
    ∃ (k : Nat) (data : Bytes), read fs fd buf count = some ((k : Int), data,
        fs.setFd i fun f => { f with offset := f.offset + BitVec.ofNat 64 k }) ∧
      k = min count ((fs.nodes (fs.fds i).node).size - (fs.fds i).offset.toNat) ∧
      (fs.fds i).offset.toNat + k < 2 ^ 63 ∧
      data.take k = (List.range k).map fun j =>
        fs.heap.mem ((fs.nodes (fs.fds i).node).content + ((fs.fds i).offset.toNat + j)) := by
  unfold Tmpfs.read
  simp only [he, hfile, Bool.false_eq_true, if_false]
  have hword := (fs.fds i).offset.isLt
  generalize (fs.nodes (fs.fds i).node).content = p at *
  generalize (fs.nodes (fs.fds i).node).size = size at *
  generalize (fs.fds i).offset.toNat = o at *
  obtain ⟨hsize, hplace⟩ : size < 2 ^ 63 ∧ (0 < size → directBase ≤ p ∧ p + size ≤ word) := by
    rcases Nat.eq_zero_or_pos size with h0 | hpos
    · exact ⟨by omega, by omega⟩
    obtain ⟨b, hb, hptr, hlen⟩ := hblock hpos
    have hfin := hs.rep.fin_le hb
    have hlow := (hs.rep.fits.bounds hb).1
    simp only [← hptr, Blk.ptr, Blk.fin, headerSize, directBase, word] at *
    omega
  have hrem : (size + word - o) % word = size - o := by
    rw [show size + word - o = size - o + word by omega, Nat.add_mod_right]
    exact Nat.mod_eq_of_lt (by simp only [word]; omega)
  rw [hrem]
  obtain ⟨k, hkdef⟩ : ∃ k, (if count < size - o then count else size - o) = k := ⟨_, rfl⟩
  have hk : k = min count (size - o) := by
    rw [← hkdef]
    split_ifs <;> omega
  rw [hkdef]
  have hacc : ¬ (0 < k ∧ accessible ((p + o) % word) k = false) := by
    rintro ⟨hpos, hno⟩
    obtain ⟨hlow, hfin⟩ := hplace (by omega)
    have hyes : accessible (p + o) k = true := by
      rw [accessible_iff]
      right
      omega
    rw [Nat.mod_eq_of_lt (by omega), hyes] at hno
    exact absurd hno (by decide)
  rw [if_neg hacc, toInt_ofNat_of_lt (by omega)]
  refine ⟨k, _, rfl, hk, by omega, ?_⟩
  rw [take_left' (by simp)]
  apply map_congr_left
  intro j hj
  have hpos : j < k := mem_range.mp hj
  obtain ⟨-, hfin⟩ := hplace (by omega)
  rw [Nat.mod_eq_of_lt (by omega), Nat.add_assoc]

section Root

variable {foreign : List Nat} {fs : Fs} {bs : List Blk} {live : List Nat} {kids : Kids}
  (h : Inv foreign fs bs live kids)

include h

theorem Inv.setNode (hf : (f (fs.nodes n)).content = (fs.nodes n).content ∧
      (f (fs.nodes n)).parent = (fs.nodes n).parent ∧
      (f (fs.nodes n)).firstChild = (fs.nodes n).firstChild ∧
      (f (fs.nodes n)).nextSibling = (fs.nodes n).nextSibling) :
    Inv foreign (fs.setNode n f) bs live kids :=
  h.of_sane (h.toSane.setNode hf) rfl rfl

theorem Inv.setFd {f : Filedesc → Filedesc} (hf : (f (fs.fds i)).node ≠ 0 →
      (f (fs.fds i)).node ∈ live ∧ (f (fs.fds i)).offset.toNat < 2 ^ 63)
    (hfree : (f (fs.fds i)).free = true → (f (fs.fds i)).node = 0) :
    Inv foreign (fs.setFd i f) bs live kids :=
  h.of_sane (h.toSane.setFd hf hfree) rfl rfl

theorem Inv.opened (hn : n ∈ live) (i : Fin 256) (flags : BitVec 32) (mode : Nat) :
    Inv foreign (opened fs i n flags mode) bs live kids :=
  h.of_sane (h.toSane.opened hn i flags mode) rfl rfl

theorem Inv.of_fds (hs : Sane foreign fs' bs live kids) (heq : fs' = { fs with fds }) :
    Inv foreign fs' bs live kids :=
  h.of_sane hs (by rw [heq]) (by rw [heq])

end Root

end Terrakernel.Tmpfs
