import Terrakernel.Tmpfs.Extending
import Terrakernel.Tmpfs.Failures

/-!
# `ftruncate`

One call for all lengths, and whatever `realloc` refuses leaves the file as it was.
-/

namespace Terrakernel.Tmpfs

open Memory Mem Vmm Links Heap

/-- The bytes cut to `n`, or with zeros behind them. -/
def resized (data : Bytes) (n : Nat) : Bytes :=
  data.take n ++ List.replicate (n - data.length) 0

theorem resized_of_le {data : Bytes} {n : Nat} (h : n ≤ data.length) :
    resized data n = data.take n := by
  simp [resized, Nat.sub_eq_zero_of_le h]

theorem resized_of_ge {data : Bytes} {n : Nat} (h : data.length ≤ n) :
    resized data n = data ++ List.replicate (n - data.length) 0 := by
  simp [resized, List.take_of_length_le h]

theorem length_resized (data : Bytes) (n : Nat) : (resized data n).length = n := by
  simp [resized]
  omega

/-- Every other node is the same, and so are the bytes of those that have a block of their own. -/
structure OthersKept (fs fs' : Fs) (n : Nat) : Prop where
  nodes : ∀ m ≠ n, fs'.nodes m = fs.nodes m
  bytes : ∀ m ≠ n, (fs.nodes m).content ≠ (fs.nodes n).content → ∀ k,
    HasBlock fs.heap (fs.nodes m).content k → HasBlock fs'.heap (fs.nodes m).content k ∧
      ∀ x < k, fs'.heap.mem ((fs.nodes m).content + x) = fs.heap.mem ((fs.nodes m).content + x)

/-- The file behind entry `i` had the bytes `data` and has `length` bytes now. -/
structure Truncated (i : Fin 256) (fs : Fs) (data : Bytes) (length : BitVec 64) (fs' : Fs) :
    Prop where
  node : (fs'.fds i).node = (fs.fds i).node
  size : ((fs'.nodes (fs.fds i).node).size : Int) = length.toInt
  filled : ∃ bs', Filled i fs' bs' (resized data length.toNat)
  offset : (fs'.fds i).offset.toInt ≤ max (fs.fds i).offset.toInt 0
  shrunk : length.toInt < (fs.nodes (fs.fds i).node).size →
    (fs'.fds i).offset.toInt ≤ length.toInt

theorem othersKept_of_keeps {fs fs' : Fs} {bs bs' : List Blk} {n : Nat} (hs : Sound fs.heap bs)
    (hk : Keeps [(fs.nodes n).content] fs.heap bs fs'.heap bs')
    (hnodes : ∀ m ≠ n, fs'.nodes m = fs.nodes m) : OthersKept fs fs' n :=
  ⟨hnodes, fun _ _ hne _ hblock => hk.hasBlock hs (by simpa using hne) hblock⟩

theorem Unchanged.othersKept {fs fs' : Fs} (h : Unchanged fs fs') (n : Nat) : OthersKept fs fs' n :=
  ⟨fun _ _ => by rw [h.nodes], fun _ _ _ k hblock => h.blocks _ k hblock⟩

section Filled

variable {i : Fin 256} {fs : Fs} {bs : List Blk} {data : Bytes} (h : Filled i fs bs data)

include h

theorem Filled.realloc_shorter {n : Nat} (hlt : n < data.length) :
    ∃ q heap bs', fs.heap.realloc (fs.nodes (fs.fds i).node).content n = some (q, heap) ∧
      Keeps [(fs.nodes (fs.fds i).node).content] fs.heap bs heap bs' ∧
      (n = 0 ∧ q = 0 ∨ 0 < n ∧ q = (fs.nodes (fs.fds i).node).content ∧
        (∃ c ∈ bs', c.free = false ∧ c.ptr = q ∧ n ≤ c.len) ∧
        ∀ x < n, heap.mem (q + x) = fs.heap.mem (q + x)) := by
  have h0 : (fs.nodes (fs.fds i).node).content ≠ 0 := fun h0 => by simp [h.empty h0] at hlt
  obtain ⟨b, hb, hu, hptr, hlen⟩ := h.block h0
  rcases Nat.eq_zero_or_pos n with rfl | hpos
  · obtain ⟨heap, hfree, hk, -⟩ := free_keeps h.sound (fs.nodes (fs.fds i).node).content
    refine ⟨0, heap, _, ?_, hk, .inl ⟨rfl, rfl⟩⟩
    rw [Heap.realloc, if_neg h0, if_pos rfl, hfree]
    rfl
  · obtain ⟨q, heap, hgrow, hcases⟩ := grow_cases h.sound h.content_used hpos
    rw [grow_eq_realloc] at hgrow
    rcases hcases with ⟨-, -, -, hshort, -⟩ |
      ⟨bs', -, hk, -, -, hold, ⟨c, hc, hcp, hcf, hcn, hsame⟩, -⟩
    · have := hshort b hb hu hptr
      omega
    · obtain ⟨-, hq⟩ := hsame b hb hu hptr (by omega)
      refine ⟨q, heap, bs', hgrow, hk, .inr ⟨hpos, hq, ⟨c, hc, hcf, hcp, hcn⟩, ?_⟩⟩
      intro x hx
      rw [(hold b hb hu hptr).1 x (by omega), hq]

theorem Filled.ftruncate_shorter {length : BitVec 64} (hlt : length.toNat < data.length) :
    ∃ fs', ftruncate fs i length = some (0, fs') ∧ Truncated i fs data length fs' ∧
      OthersKept fs fs' (fs.fds i).node := by
  have hmax := h.length_lt
  have hint : length.toInt = length.toNat := BitVec.toInt_eq_toNat_of_lt (by omega)
  obtain ⟨q, heap, bs', hrealloc, hk, hcases⟩ := h.realloc_shorter hlt
  have hrefused : ¬ (q = 0 ∧ 0 < length.toInt) := by
    rintro ⟨hq, hpos⟩
    rcases hcases with ⟨h0, -⟩ | ⟨-, -, ⟨c, hc, hcf, hcp, -⟩, -⟩
    · omega
    · exact used_pos (mem_used.mpr ⟨c, hc, hcf, rfl⟩) (hcp.trans hq)
  have hoffset : (if length.toInt < (fs.fds i).offset.toInt then length
      else (fs.fds i).offset).toInt = min length.toInt (fs.fds i).offset.toInt := by
    split_ifs <;> omega
  unfold ftruncate
  simp only [entryOf_fin, h.file, Bool.false_eq_true, if_false, h.size, if_pos hlt, hrealloc,
    Option.bind_eq_bind, Option.bind_some, if_neg hrefused]
  refine ⟨_, rfl, ⟨?_, ?_, ⟨bs', hk.sound, hk.heapBase ▸ h.high, ?_, ?_, ?_, ?_, ?_⟩, ?_, ?_⟩,
    othersKept_of_keeps h.sound hk fun m hm => Function.update_of_ne hm _ _⟩
  all_goals simp only [Fs.setFd, Fs.setNode, Function.update_self, length_resized]
  · exact hint.symm
  · have hfile := h.file
    unfold notFile at hfile ⊢
    simp only [Function.update_self]
    exact hfile
  · intro hq
    rcases hcases with ⟨-, rfl⟩ | ⟨-, -, hblock, -⟩
    · exact absurd rfl hq
    · exact hblock
  · intro hq
    rcases hcases with ⟨h0, -⟩ | ⟨-, -, ⟨c, hc, hcf, hcp, -⟩, -⟩
    · rw [h0, resized_of_le (Nat.zero_le _), List.take_zero]
    · exact absurd (hcp.trans hq) (used_pos (mem_used.mpr ⟨c, hc, hcf, rfl⟩))
  · intro j v hv
    rw [resized_of_le hlt.le, List.getElem?_take] at hv
    obtain ⟨hj, hv⟩ := Option.ite_none_right_eq_some.mp hv
    rcases hcases with ⟨h0, -⟩ | ⟨-, rfl, -, hbytes⟩
    · omega
    · rw [hbytes j hj]
      exact h.bytes j v hv
  · exact hoffset.le.trans (by omega)
  · exact fun _ => hoffset.le.trans (min_le_left _ _)

end Filled

/-- The file has the new length and its old bytes, with zeros behind them, or nothing is different.
No other file is. -/
theorem ftruncate_resizes {i : Fin 256} {fs : Fs} {bs : List Blk} {data : Bytes}
    (h : Filled i fs bs data) (length : BitVec 64) :
    ∃ r fs', ftruncate fs i length = some (r, fs') ∧
      (r = 0 ∧ Truncated i fs data length fs' ∨ r = -1 ∧ Unchanged fs fs') ∧
      OthersKept fs fs' (fs.fds i).node := by
  rcases Nat.lt_or_ge length.toNat data.length with hlt | hge
  · obtain ⟨fs', hrun, htruncated, hothers⟩ := h.ftruncate_shorter hlt
    exact ⟨0, fs', hrun, .inl ⟨rfl, htruncated⟩, hothers⟩
  rcases h.ftruncate_cases hge with ⟨heap, hrun, hk, -⟩ | ⟨fs', bs', hrun, h', hfds, hnodes, hk, -⟩
  · have hsame := unchanged_of_keeps h.sound hk
    exact ⟨-1, _, hrun, .inr ⟨rfl, hsame⟩, hsame.othersKept _⟩
  · have hsize := h'.size
    have hmax := h'.length_lt
    rw [← resized_of_ge hge] at h' hsize hmax
    rw [length_resized] at hsize hmax
    rw [hfds] at hsize
    have hint : length.toInt = length.toNat := BitVec.toInt_eq_toNat_of_lt (by omega)
    refine ⟨0, fs', hrun, .inl ⟨rfl, by rw [hfds], ?_, ⟨bs', h'⟩, ?_, ?_⟩,
      othersKept_of_keeps h.sound hk hnodes⟩
    · rw [hsize, hint]
    · rw [hfds]
      exact le_max_left _ _
    · rw [h.size]
      omega

theorem ftruncate_resizes_file :
    ∃ (fs fs' : Fs) (i : Fin 256), ftruncate fs i 1 = some (0, fs') ∧
      Truncated i fs [0x41, 0x42, 0x43] 1 fs' ∧ OthersKept fs fs' (fs.fds i).node := by
  obtain ⟨-, -, -, fs, i, bs, -, -, -, -, h, -⟩ := blank_rewound
  obtain ⟨r, fs', hrun, hcases, hothers⟩ := ftruncate_resizes h 1
  obtain ⟨fs1, hrun1, -⟩ := h.ftruncate_shorter (by decide : (1 : BitVec 64).toNat < 3)
  rw [hrun] at hrun1
  cases hrun1
  rcases hcases with ⟨-, htruncated⟩ | ⟨hr, -⟩
  · exact ⟨fs, fs', i, hrun, htruncated, hothers⟩
  · exact absurd hr (by decide)

end Terrakernel.Tmpfs
