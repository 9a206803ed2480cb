import Terrakernel.Tmpfs.Reads

/-!
# Two ways to extend a file

`ftruncate` fills up with zeros, and a write beyond the end with what the block has there.
-/

namespace Terrakernel.Tmpfs

open Function Option Memory Mem Vmm Links Heap
open List hiding Mem

variable {i : Fin 256} {fs : Fs} {bs bs' : List Blk} {c : Bytes}

/-! ## `ftruncate` -/

theorem grow_eq_realloc (heap : Heap) (content newSize : Nat) :
    grow heap content newSize = heap.realloc content newSize := by
  unfold grow
  split_ifs with h0
  · rw [Heap.realloc, if_pos h0]
  · rfl

section Filled

variable {i : Fin 256} {fs fs' : Fs} {bs : List Blk} {data : Bytes} (h : Filled i fs bs data)

include h

theorem Filled.ftruncate_cases {length : BitVec 64} (hle : data.length ≤ length.toNat) :
    (∃ heap, ftruncate fs i length = some (-1, { fs with heap }) ∧ Keeps [] fs.heap bs heap bs ∧
        ¬ Room length.toNat bs) ∨
      ∃ fs' bs', ftruncate fs i length = some (0, fs') ∧
        Filled i fs' bs' (data ++ replicate (length.toNat - data.length) 0) ∧
        fs'.fds = fs.fds ∧ (∀ m ≠ (fs.fds i).node, fs'.nodes m = fs.nodes m) ∧
        Keeps [(fs.nodes (fs.fds i).node).content] fs.heap bs fs'.heap bs' ∧
        failures fs'.heap = failures fs.heap ∧
        ∀ r, 0 < r → Room (length.toNat + headerSize + r) bs → Room r bs' := by
  have hsize := h.size
  have hfile := h.file
  unfold ftruncate
  simp only [entryOf_fin, hfile, Bool.false_eq_true, if_false, hsize]
  rw [if_neg (Nat.not_lt.mpr hle)]
  by_cases hlt : data.length < length.toNat
  · rw [if_pos hlt, ← grow_eq_realloc]
    obtain ⟨q, heap, hgrow, hcases⟩ := grow_cases h.sound h.content_used (Nat.zero_lt_of_lt hlt)
    rw [hgrow]
    simp only [bind_eq_bind, bind_some]
    rcases hcases with ⟨rfl, hk, -, -, hroom⟩ |
      ⟨bs', hq, hk, hfail, hused, hold, ⟨c, hc, hcp, hcf, hcn, -⟩, hroom⟩
    · rw [if_pos rfl]
      exact .inl ⟨heap, rfl, hk, hroom⟩
    have hfin := hk.sound.rep.fin_le hc
    have hlow := (hk.sound.rep.fits.bounds hc).1
    have hhigh := hk.heapBase ▸ h.high
    have hdest : (q + data.length) % word = q + data.length := by
      apply Nat.mod_eq_of_lt
      simp only [← hcp, Blk.ptr, Blk.fin] at *
      omega
    have hacc : accessible (q + data.length) (length.toNat - data.length) = true := by
      rw [accessible_iff]
      right
      simp only [← hcp, Blk.ptr, Blk.fin] at *
      omega
    rw [if_neg hq, hdest, hacc, if_neg (by simp)]
    have hset := memset_apply heap.mem (q + data.length) 0 (length.toNat - data.length)
    have hkeeps : Keeps [(fs.nodes (fs.fds i).node).content] fs.heap bs
        { heap with mem := memset heap.mem (q + data.length) 0 (length.toNat - data.length) } bs' := by
      apply hk.fill hused hc hcp
      intro x hx
      rw [hset, if_neg]
      simp only [← hcp, Blk.ptr, Blk.fin] at *
      omega
    refine .inr ⟨_, bs', rfl, ⟨hkeeps.sound, hhigh, ?_, ?_, ?_, ?_, ?_⟩, rfl,
      fun m hm => update_of_ne hm _ _, hkeeps, hfail, hroom⟩
    · unfold notFile at hfile ⊢
      simp only [Fs.setNode, update_self]
      exact hfile
    · simp only [Fs.setNode, update_self, length_append, length_replicate]
      omega
    · simp only [Fs.setNode, update_self, length_append, length_replicate]
      exact fun _ => ⟨c, hc, hcf, hcp, by omega⟩
    · simp only [Fs.setNode, update_self]
      exact fun h0 => absurd h0 hq
    · simp only [Fs.setNode, update_self]
      intro j v hv
      rcases Nat.lt_or_ge j data.length with hj | hj
      · -- A byte from before: the block has moved with it.
        rw [getElem?_append_left hj] at hv
        obtain ⟨b, hb, hu, hptr, hlen⟩ := h.block fun h0 => by simp [h.empty h0] at hj
        rw [hset, if_neg (by omega), (hold b hb hu hptr).1 j (by omega)]
        exact h.bytes j v hv
      · rw [getElem?_append_right hj, getElem?_replicate] at hv
        obtain ⟨hj', hv⟩ := ite_none_right_eq_some.mp hv
        rw [hset, if_pos (by omega)]
        exact some.inj hv
  · rw [if_neg hlt, Nat.sub_eq_zero_of_le (Nat.not_lt.mp hlt), replicate_zero, append_nil]
    exact .inr ⟨fs, bs, rfl, h, rfl, fun _ _ => rfl, (Keeps.refl h.sound).weaken (nil_subset _),
      rfl, fun r _ hroom => hroom.mono (by omega)⟩

/-! ## A write beyond the end -/

/-- The bytes `[s, l)` of the block of `n` bytes that takes the place of `content` are zeros: those
that are copied, and behind them those of the free block that is chosen. -/
structure ZeroPlace (heap : Heap) (bs : List Blk) (content s l n : Nat) : Prop where
  copied : ∀ k, s ≤ k → k < l → HasBlock heap content (k + 1) → heap.mem (content + k) = 0
  fresh : ∀ k, s ≤ k → k < l → ¬ HasBlock heap content (k + 1) →
    ∀ d, bestBlock n bs = some d → heap.mem (d.ptr + k) = 0

theorem Filled.gap_byte {q k : Nat} {heap : Heap} (hpos : 0 < c.length)
    (hgrow : grow fs.heap (fs.nodes (fs.fds i).node).content
      ((fs.fds i).offset.toNat + c.length) = some (q, heap)) (hq : q ≠ 0)
    (hw : Wrote fs bs i c fs' bs' q) (hafter : fs' = afterWrite fs i i c q heap)
    (hk : k < (fs.fds i).offset.toNat) :
    (HasBlock fs.heap (fs.nodes (fs.fds i).node).content (k + 1) →
      fs'.heap.mem (q + k) = fs.heap.mem ((fs.nodes (fs.fds i).node).content + k)) ∧
    (¬ HasBlock fs.heap (fs.nodes (fs.fds i).node).content (k + 1) →
      ∃ d, bestBlock ((fs.fds i).offset.toNat + c.length) bs = some d ∧
        fs'.heap.mem (q + k) = fs.heap.mem (d.ptr + k)) := by
  constructor
  · intro hblock
    obtain ⟨b, hb, hu, hbp, hle⟩ := (h.sound.rep.hasBlock_iff _ _).mp hblock
    exact hw.kept b hb hu hbp k (by omega) (Or.inl hk)
  · intro hshort
    obtain ⟨blk, hblk, hp, -, hlen, -⟩ := hw.block
    have hfin := hw.keeps.sound.rep.fin_le hblk
    have hdest : (q + (fs.fds i).offset.toNat) % word = q + (fs.fds i).offset.toNat := by
      apply Nat.mod_eq_of_lt
      simp only [← hp, Blk.ptr, Blk.fin] at *
      omega
    obtain ⟨d, hd, hsame⟩ := grow_bytes h.sound h.content_used hgrow hq (by omega) hshort
    refine ⟨d, hd, Eq.trans ?_ hsame⟩
    rw [hafter]
    simp only [afterWrite, hdest]
    apply putBytes_outside
    omega

theorem Filled.write_behind (ho : data.length ≤ (fs.fds i).offset.toNat)
    (hsign : (fs.fds i).offset.toNat < 2 ^ 63) (hpos : 0 < c.length)
    (hrun : Tmpfs.write fs i c = some ((c.length : Int), fs'))
    (hserved : failures fs'.heap = failures fs.heap) :
    ∃ bs' gap, Filled i fs' bs' (data ++ gap ++ c) ∧ (fs'.fds i).node = (fs.fds i).node ∧
      gap.length = (fs.fds i).offset.toNat - data.length ∧
      ((∀ g ∈ gap, g = 0) ↔ ZeroPlace fs.heap bs (fs.nodes (fs.fds i).node).content data.length
        (fs.fds i).offset.toNat ((fs.fds i).offset.toNat + c.length)) := by
  rcases write_inv hrun with ⟨hr, -⟩ | ⟨j, tmp, heap, hj, -, hgrow, ⟨hr, -⟩ | ⟨-, hr, hafter⟩⟩
  · omega
  · omega
  rw [entryOf_fin] at hj
  obtain rfl := some.inj hj
  have hmax : c.length < 2 ^ 63 := by
    have := (BitVec.ofNat 64 c.length).toInt_lt
    omega
  rcases write_file h.sound h.high (entryOf_fin i) h.file h.content_used hsign hpos hmax with
    ⟨-, -, hfail⟩ | ⟨fs1, bs', q, hrun1, hq, hw, -, -⟩
  · exact absurd hserved (Nat.ne_of_gt (hfail _ _ hrun))
  obtain ⟨-, rfl⟩ : _ ∧ fs' = fs1 := by simpa [hrun] using hrun1
  have hend : ((fs.fds i).offset + BitVec.ofNat 64 c.length).toNat =
      (fs.fds i).offset.toNat + c.length := by
    rw [BitVec.toNat_add, BitVec.toNat_ofNat]
    omega
  rw [hend] at hgrow
  obtain rfl : tmp = q := by
    have := congrFun (congrArg Fs.nodes hafter) (fs.fds i).node
    rw [hw.nodes] at this
    simpa [afterWrite] using congrArg Node.content this.symm
  have hgap := fun k => h.gap_byte (k := k) hpos hgrow hq hw hafter
  refine ⟨bs', _, (h.wrote_behind ho hq hw).1, by rw [hw.fds, update_self], by simp, ?_⟩
  simp only [List.mem_map, mem_range, forall_exists_index, and_imp, forall_apply_eq_imp_iff₂]
  constructor
  · intro hzero
    have hall : ∀ k, data.length ≤ k → k < (fs.fds i).offset.toNat → fs'.heap.mem (tmp + k) = 0 := by
      intro k h1 h2
      have := hzero (k - data.length) (by omega)
      rwa [Nat.add_sub_cancel' h1] at this
    refine ⟨fun k h1 h2 hblock => ?_, fun k h1 h2 hshort d hd => ?_⟩
    · rw [← (hgap k h2).1 hblock]
      exact hall k h1 h2
    · obtain ⟨d', hd', hsame⟩ := (hgap k h2).2 hshort
      obtain rfl := some.inj (hd.symm.trans hd')
      rw [← hsame]
      exact hall k h1 h2
  · rintro ⟨hcopied, hfresh⟩ j hj
    have hk : data.length + j < (fs.fds i).offset.toNat := by omega
    by_cases hblock : HasBlock fs.heap (fs.nodes (fs.fds i).node).content (data.length + j + 1)
    · rw [(hgap _ hk).1 hblock]
      exact hcopied _ (by omega) hk hblock
    · obtain ⟨d, hd, hsame⟩ := (hgap _ hk).2 hblock
      rw [hsame]
      exact hfresh _ (by omega) hk hblock d hd

end Filled

/-! ## The two ways -/

/-- File `n` has the same size and bytes in both states, and its bytes `[s, l)` are zeros. -/
structure Alike (fs fs' : Fs) (n s l : Nat) : Prop where
  size : (fs'.nodes n).size = (fs.nodes n).size
  bytes : ∀ x < (fs.nodes n).size,
    fs'.heap.mem ((fs'.nodes n).content + x) = fs.heap.mem ((fs.nodes n).content + x)
  zeros : ∀ x, s ≤ x → x < l → fs.heap.mem ((fs.nodes n).content + x) = 0 ∧
    fs'.heap.mem ((fs'.nodes n).content + x) = 0

theorem alike_iff {fs' : Fs} {data gap c : Bytes} (h : Filled i fs bs (data ++ gap ++ c))
    (h' : Filled i fs' bs' (data ++ replicate gap.length 0 ++ c))
    (hnode : (fs'.fds i).node = (fs.fds i).node) :
    Alike fs fs' (fs.fds i).node data.length (data.length + gap.length) ↔ ∀ g ∈ gap, g = 0 := by
  have hsize' := h'.size
  have hbytes' := h'.bytes
  rw [hnode] at hsize' hbytes'
  constructor
  · intro halike g hg
    obtain ⟨j, hj, rfl⟩ := getElem_of_mem hg
    rw [← (halike.zeros (data.length + j) (by omega) (by omega)).1]
    refine (h.bytes _ _ ?_).symm
    rw [append_assoc, getElem?_append_right (by omega), Nat.add_sub_cancel_left,
      getElem?_append_left hj, getElem?_eq_getElem hj]
  · intro hzero
    have hgap := eq_replicate_of_mem hzero
    rw [← hgap] at hsize' hbytes'
    refine ⟨hsize'.trans h.size.symm, ?_, ?_⟩
    · intro x hx
      rw [h.size] at hx
      have hv := getElem?_eq_getElem hx
      rw [h.bytes x _ hv, hbytes' x _ hv]
    · intro x h1 h2
      have hv : (data ++ gap ++ c)[x]? = some 0 := by
        rw [append_assoc, getElem?_append_right h1, getElem?_append_left (by omega),
          hgap, getElem?_replicate, if_pos (by omega)]
      exact ⟨h.bytes x 0 hv, hbytes' x 0 hv⟩

section Ways

variable {i : Fin 256} {fs fs1 fs2 fs3 fs4 fs5 : Fs} {bs : List Blk} {data b : Bytes}
  {l : BitVec 64} {r r' : Int}

theorem Filled.seek_write (h : Filled i fs bs data) (hl : (data.length : Int) ≤ l.toInt)
    (hpos : 0 < b.length) (hseek : lseek fs i l 0 = (r, fs1))
    (hwrite : Tmpfs.write fs1 i b = some ((b.length : Int), fs2))
    (hserved : failures fs2.heap = failures fs.heap) :
    ∃ bs2 gap, Filled i fs2 bs2 (data ++ gap ++ b) ∧ (fs2.fds i).node = (fs.fds i).node ∧
      gap.length = l.toNat - data.length ∧
      ((∀ g ∈ gap, g = 0) ↔ ZeroPlace fs.heap bs (fs.nodes (fs.fds i).node).content data.length
        l.toNat (l.toNat + b.length)) := by
  have hsign : l.toNat < 2 ^ 63 ∧ data.length ≤ l.toNat := by
    rw [BitVec.toInt_eq_toNat_cond] at hl
    split_ifs at hl <;> omega
  rw [h.lseek_position (by omega)] at hseek
  cases hseek
  have hfd : ((fs.setFd i fun f => { f with offset := l }).fds i) = { fs.fds i with offset := l } := by
    simp only [Fs.setFd, update_self]
  have hbehind := (h.setFd l).write_behind (by rw [hfd]; exact hsign.2) (by rw [hfd]; exact hsign.1)
    hpos hwrite hserved
  rw [hfd] at hbehind
  exact hbehind

/-- When a write beyond the end leaves the file that `ftruncate` and the same write leave. -/
theorem extended_alike_iff (h : Filled i fs bs data) (hl : (data.length : Int) ≤ l.toInt)
    (hb : b ≠ []) (hseek : lseek fs i l 0 = (r, fs1))
    (hwrite : write fs1 i b = some ((b.length : Int), fs2))
    (hserved : failures fs2.heap = failures fs.heap) (htruncate : ftruncate fs i l = some (0, fs3))
    (hseek' : lseek fs3 i l 0 = (r', fs4))
    (hwrite' : write fs4 i b = some ((b.length : Int), fs5))
    (hserved' : failures fs5.heap = failures fs.heap) :
    Alike fs2 fs5 (fs.fds i).node data.length l.toNat ↔
      ZeroPlace fs.heap bs (fs.nodes (fs.fds i).node).content data.length l.toNat
        (l.toNat + b.length) := by
  have hpos : 0 < b.length := length_pos_of_ne_nil hb
  have hle : (l.toNat : Int) = l.toInt := by
    rw [BitVec.toInt_eq_toNat_cond] at hl ⊢
    split_ifs at hl ⊢ <;> omega
  obtain ⟨bs2, gap, h2, hnode2, hlen, hiff⟩ := h.seek_write hl hpos hseek hwrite hserved
  have hlong : data.length ≤ l.toNat := by omega
  rcases h.ftruncate_cases hlong with ⟨heap, hrun, -⟩ | ⟨fs', bs3, hrun, h3, hfds, -, -, hfail, -⟩
  · rw [hrun] at htruncate
    cases htruncate
  rw [hrun] at htruncate
  cases htruncate
  have hfull : (data ++ replicate (l.toNat - data.length) (0 : Byte)).length = l.toNat := by
    rw [length_append, length_replicate]
    omega
  obtain ⟨bs5, none, h5, hnode5, hnone, -⟩ := h3.seek_write (by omega) hpos hseek' hwrite'
    (hserved'.trans hfail.symm)
  -- After `ftruncate` the write is at the end.
  rw [hfull, Nat.sub_self] at hnone
  obtain rfl := eq_nil_of_length_eq_zero hnone
  rw [append_nil, ← hlen] at h5
  have halike := alike_iff h2 h5 (by rw [hnode5, hnode2, hfds])
  rw [hnode2, hlen, Nat.add_sub_cancel' hlong] at halike
  exact halike.trans hiff

end Ways

theorem blank_over (v : Byte) :
    ∃ (fs : Fs) (i : Fin 256) (bs : List Blk), Filled i fs bs [] ∧
      (fs.nodes (fs.fds i).node).content = 0 ∧ Room 0x1000 bs ∧
      ∀ d ∈ bs, d.free = true → ∀ x, d.ptr ≤ x → x < d.fin → fs.heap.mem x = v := by
  obtain ⟨-, i, c, fs, bs, -, -, -, -, -, -, hnode, h, -, hcontent, hroom, -⟩ := blank_empty
  have hfree : ∀ x, (bs.any fun d => d.free && decide (d.ptr ≤ x ∧ x < d.fin)) = true ↔
      ∃ d ∈ bs, d.free = true ∧ d.ptr ≤ x ∧ x < d.fin := by
    simp
  let m : Mem := fun x =>
    if bs.any fun d => d.free && decide (d.ptr ≤ x ∧ x < d.fin) then v else fs.heap.mem x
  refine ⟨{ fs with heap := { fs.heap with mem := m } }, i, bs,
    ⟨⟨h.sound.rep.payload ?_, h.sound.normal⟩, h.high, h.file, h.size, h.block, h.empty, by simp⟩,
    by rw [hnode]; exact hcontent, hroom, ?_⟩
  · intro x hx
    refine if_neg fun hany => ?_
    obtain ⟨d, hd, -, h1, h2⟩ := (hfree x).mp hany
    have := hx d hd
    omega
  · intro d hd hf x h1 h2
    exact if_pos ((hfree x).mpr ⟨d, hd, hf, h1, h2⟩)

theorem ways_run (h : Filled i fs bs []) (hroom : Room 0x1000 bs) :
    ∃ fs1 fs2 fs3 fs4 fs5, lseek fs i 1 0 = (1, fs1) ∧ write fs1 i [0x58] = some (1, fs2) ∧
      failures fs2.heap = failures fs.heap ∧ ftruncate fs i 1 = some (0, fs3) ∧
      lseek fs3 i 1 0 = (1, fs4) ∧ write fs4 i [0x58] = some (1, fs5) ∧
      failures fs5.heap = failures fs.heap := by
  have hwrite : ∀ {fs : Fs} {bs : List Blk} {data : Bytes}, Filled i fs bs data → Room 2 bs →
      ∃ fs1 fs2, lseek fs i 1 0 = (1, fs1) ∧ write fs1 i [0x58] = some (1, fs2) ∧
        failures fs2.heap = failures fs.heap := by
    intro fs bs data h hroom
    have h1 := h.setFd 1
    have hoffset : ((fs.setFd i fun f => { f with offset := 1 }).fds i).offset = 1 := by
      simp only [Fs.setFd, update_self]
    rcases write_file h1.sound h1.high (entryOf_fin i) h1.file h1.content_used
      (by rw [hoffset]; decide) (by decide : 0 < [(0x58 : Byte)].length) (by decide) with
      ⟨-, hno, -⟩ | ⟨fs2, bs2, q, hrun, -, hw, -, -⟩
    · rw [hoffset] at hno
      exact absurd hroom hno
    · exact ⟨_, fs2, h.lseek_position (by decide), hrun, hw.served⟩
  obtain ⟨fs1, fs2, hseek, hrun, hserved⟩ := hwrite h (hroom.mono (by decide))
  rcases h.ftruncate_cases (Nat.zero_le (1 : BitVec 64).toNat) with
    ⟨-, -, -, hno⟩ | ⟨fs3, bs3, htruncate, h3, -, -, -, hfail, hroom3⟩
  · exact absurd (hroom.mono (by decide)) hno
  obtain ⟨fs4, fs5, hseek', hrun', hserved'⟩ := hwrite h3 (hroom3 2 (by decide) (hroom.mono (by decide)))
  exact ⟨fs1, fs2, fs3, fs4, fs5, hseek, hrun, hserved, htruncate, hseek', hrun',
    hserved'.trans hfail⟩

theorem extended_alike_iff_zero :
    ∃ (fs fs1 fs2 fs3 fs4 fs5 : Fs) (i : Fin 256) (bs : List Blk), Filled i fs bs [] ∧
      lseek fs i 1 0 = (1, fs1) ∧ write fs1 i [0x58] = some (1, fs2) ∧
      ftruncate fs i 1 = some (0, fs3) ∧ lseek fs3 i 1 0 = (1, fs4) ∧
      write fs4 i [0x58] = some (1, fs5) ∧ Alike fs2 fs5 (fs.fds i).node 0 1 := by
  obtain ⟨fs, i, bs, h, hnull, hroom, hfree⟩ := blank_over 0
  obtain ⟨fs1, fs2, fs3, fs4, fs5, hseek, hwrite, hserved, htruncate, hseek', hwrite', hserved'⟩ :=
    ways_run h hroom
  refine ⟨fs, fs1, fs2, fs3, fs4, fs5, i, bs, h, hseek, hwrite, htruncate, hseek', hwrite', ?_⟩
  refine (extended_alike_iff h (by decide) (by decide) hseek hwrite hserved htruncate hseek' hwrite'
    hserved').mpr ⟨?_, ?_⟩
  · intro k _ _ hblock
    rw [hnull] at hblock
    exact absurd hblock (h.sound.rep.not_hasBlock_zero _)
  · intro k _ hk _ d hd
    obtain ⟨hmem, hf, hlen⟩ := bestBlock_some hd
    refine hfree d hmem hf _ (by omega) ?_
    simp only [Blk.ptr, Blk.fin, length_singleton] at *
    omega

/-- The free memory has bytes from before, and the gap shows them. -/
theorem extended_unlike :
    ∃ (fs fs1 fs2 fs3 fs4 fs5 : Fs) (i : Fin 256) (bs : List Blk), Filled i fs bs [] ∧
      lseek fs i 1 0 = (1, fs1) ∧ write fs1 i [0x58] = some (1, fs2) ∧
      ftruncate fs i 1 = some (0, fs3) ∧ lseek fs3 i 1 0 = (1, fs4) ∧
      write fs4 i [0x58] = some (1, fs5) ∧ failures fs2.heap = failures fs.heap ∧
      failures fs5.heap = failures fs.heap ∧ ¬ Alike fs2 fs5 (fs.fds i).node 0 1 := by
  obtain ⟨fs, i, bs, h, hnull, hroom, hfree⟩ := blank_over 0x41
  obtain ⟨fs1, fs2, fs3, fs4, fs5, hseek, hwrite, hserved, htruncate, hseek', hwrite', hserved'⟩ :=
    ways_run h hroom
  refine ⟨fs, fs1, fs2, fs3, fs4, fs5, i, bs, h, hseek, hwrite, htruncate, hseek', hwrite', hserved,
    hserved', fun halike => ?_⟩
  obtain ⟨bs2, gap, h2, hnode, hlen, hiff⟩ := h.seek_write (by decide) (by decide) hseek hwrite hserved
  obtain ⟨g, rfl⟩ := length_eq_one_iff.mp hlen
  have hbyte := h2.bytes 0 g rfl
  rw [hnode, (halike.zeros 0 (le_refl 0) (by decide)).1] at hbyte
  have hzero := hiff.mp (by simpa using hbyte.symm)
  obtain ⟨d, hd⟩ := bestBlock_of_room (hroom.mono (by decide : 2 ≤ 0x1000))
  obtain ⟨hmem, hf, hle⟩ := bestBlock_some hd
  have hshort : ¬ HasBlock fs.heap (fs.nodes (fs.fds i).node).content (0 + 1) := by
    rw [hnull]
    exact h.sound.rep.not_hasBlock_zero _
  have hnew := hzero.fresh 0 (le_refl 0) (by decide) hshort d hd
  have hstale := hfree d hmem hf (d.ptr + 0) (by omega) (by simp only [Blk.ptr, Blk.fin]; omega)
  exact absurd (hstale.symm.trans hnew) (by decide)

end Terrakernel.Tmpfs
