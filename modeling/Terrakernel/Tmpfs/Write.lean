import Terrakernel.Tmpfs.Calls

/-!
# `write`

The block is made or remade for the end of the write, whatever size the file has.
-/

namespace Terrakernel.Tmpfs

open Memory Vmm Links Heap Function

variable {bs bs' : List Blk} {content newSize q : Nat} {fs fs' : Fs} {fd : Int} {buf : Bytes}
  {i : Fin 256}

/-! ## Copies -/

theorem putBytes_outside (buf : Bytes) :
    ∀ (m : Mem) (dest x : Nat), x < dest ∨ dest + buf.length ≤ x → putBytes m dest buf x = m x := by
  induction buf with
  | nil => intro m dest x _; rfl
  | cons b bs ih =>
    intro m dest x hx
    rw [List.length_cons] at hx
    rw [putBytes, ih _ _ _ (by omega), update_of_ne (by omega)]

theorem putBytes_at (buf : Bytes) :
    ∀ (m : Mem) (dest j : Nat) (v : Byte), buf[j]? = some v → putBytes m dest buf (dest + j) = v := by
  induction buf with
  | nil => intro m dest j v hv; simp at hv
  | cons b bs ih =>
    intro m dest j v hv
    rw [putBytes]
    cases j with
    | zero =>
      rw [putBytes_outside _ _ _ _ (by omega), Nat.add_zero, update_self]
      simpa using hv
    | succ j =>
      rw [show dest + (j + 1) = dest + 1 + j by omega]
      exact ih _ _ _ _ (by simpa using hv)

/-! ## The block -/

theorem grow_cases {heap : Heap} (hs : Sound heap bs) (hcontent : content ≠ 0 → content ∈ used bs)
    (hpos : 0 < newSize) :
    ∃ q heap', grow heap content newSize = some (q, heap') ∧
      ((q = 0 ∧ Keeps [] heap bs heap' bs ∧ failures heap < failures heap' ∧
          (∀ b ∈ bs, b.free = false → b.ptr = content → b.len < newSize) ∧ ¬ Room newSize bs) ∨
        ∃ bs', q ≠ 0 ∧ Keeps [content] heap bs heap' bs' ∧ failures heap' = failures heap ∧
          (used bs').Perm (q :: (used bs).filter (· ≠ content)) ∧
          (∀ b ∈ bs, b.free = false → b.ptr = content →
            (∀ x < b.len, heap'.mem (q + x) = heap.mem (content + x)) ∧
              (b.len < newSize → Room newSize bs)) ∧
          (∃ c ∈ bs', c.ptr = q ∧ c.free = false ∧ newSize ≤ c.len ∧
            ∀ b ∈ bs, b.free = false → b.ptr = content → newSize ≤ b.len →
              c.len = newSize ∧ q = content) ∧
          ∀ r, 0 < r → Room (newSize + headerSize + r) bs → Room r bs') := by
  unfold grow
  by_cases h0 : content = 0
  · have hnone : ∀ b ∈ bs, b.free = false → b.ptr = content → False := by
      intro b hb hu hp
      exact used_pos (mem_used.mpr ⟨b, hb, hu, rfl⟩) (hp.trans h0)
    have hfilter : (used bs).filter (· ≠ content) = used bs := by
      rw [List.filter_eq_self.mpr]
      intro x hx
      rw [h0]
      simpa using used_pos hx
    obtain ⟨q, heap', bs', hm, hk, hcases⟩ := malloc_cases hs newSize
    rw [if_pos h0, hm, hfilter]
    refine ⟨q, heap', rfl, ?_⟩
    rcases hcases with ⟨hq, rfl, hfail, hroom⟩ | ⟨hq, hfail, hused, ⟨c, hc, hcp, hcf, hcn⟩, hroom⟩
    · exact .inl ⟨hq, hk, hfail, fun b hb hu hp => (hnone b hb hu hp).elim, hroom⟩
    · refine .inr ⟨bs', hq, ?_, hfail, hused, ?_, ?_, hroom⟩
      · exact hk.weaken (List.nil_subset _)
      · exact fun b hb hu hp => (hnone b hb hu hp).elim
      · exact ⟨c, hc, hcp, hcf, hcn, fun b hb hu hp => (hnone b hb hu hp).elim⟩
  · obtain ⟨b, hb, hused, rfl⟩ := mem_used.mp (hcontent h0)
    obtain ⟨q, heap', bs', hm, hcases⟩ := realloc_cases hs hb hused hpos
    have huniq : ∀ d ∈ bs, d.ptr = b.ptr → d = b := fun d hd hp => hs.rep.fits.eq_of_ptr hb hd hp
    rw [if_neg h0, hm]
    refine ⟨q, heap', rfl, ?_⟩
    rcases hcases with ⟨hq, rfl, hk, hfail, hlt, hroom⟩ |
      ⟨hq, hk, hfail, hperm, hcopy, hfound, ⟨c, hc, hcp, hcf, hcn, hexact⟩, hroom⟩
    · refine .inl ⟨hq, hk, hfail, fun d hd _ hp => ?_, hroom⟩
      rw [huniq d hd hp]
      exact hlt
    · refine .inr ⟨bs', hq, hk, hfail, hperm, ?_, ⟨c, hc, hcp, hcf, hcn, ?_⟩, hroom⟩
      · intro d hd _ hp
        rw [huniq d hd hp]
        exact ⟨hcopy, hfound⟩
      · intro d hd _ hp hle
        rw [huniq d hd hp] at hle
        exact hexact hle

theorem grow_bytes {heap heap' : Heap} (hs : Sound heap bs)
    (hcontent : content ≠ 0 → content ∈ used bs) {k : Nat}
    (hgrow : grow heap content newSize = some (q, heap')) (hq : q ≠ 0) (hk : k < newSize)
    (hshort : ¬ HasBlock heap content (k + 1)) :
    ∃ d, bestBlock newSize bs = some d ∧ heap'.mem (q + k) = heap.mem (d.ptr + k) := by
  unfold grow at hgrow
  by_cases h0 : content = 0
  · rw [if_pos h0] at hgrow
    obtain ⟨d, hd, rfl, hsame⟩ := malloc_bytes hs.rep hgrow hq
    exact ⟨d, hd, hsame k hk⟩
  · rw [if_neg h0] at hgrow
    obtain ⟨b, hb, hu, rfl⟩ := mem_used.mp (hcontent h0)
    rw [hs.rep.hasBlock_ptr hb hu] at hshort
    obtain ⟨d, hd, rfl, hsame⟩ := realloc_bytes hs hb hgrow (by omega) hq
    exact ⟨d, hd, hsame k hk (by omega)⟩

/-! ## The call -/

/-- The state with `buf` in the block at `tmp` of the new heap. -/
def afterWrite (fs : Fs) (fd : Int) (i : Fin 256) (buf : Bytes) (tmp : Nat) (heap : Heap) : Fs :=
  { fs with
    heap := { heap with
      mem := putBytes heap.mem ((tmp + (fs.fds i).offset.toNat) % word) buf }
    nodes := update fs.nodes (fs.fds i).node
      { fs.nodes (fs.fds i).node with
        content := tmp
        size := max (fs.nodes (fs.fds i).node).size
          ((fs.fds i).offset + BitVec.ofNat 64 buf.length).toNat }
    fds := update fs.fds i
      { fs.fds i with offset := (fs.fds i).offset + BitVec.ofNat 64 buf.length }
    console := if fd = 1 ∨ fd = 2 then fs.console ++ buf else fs.console }

theorem write_refused (h : ∀ i, entryOf fd = some i → notFile fs (fs.fds i) = true) :
    write fs fd buf = some (-1, fs) := by
  unfold write
  cases he : entryOf fd with
  | none => rfl
  | some i => simp only [h i he, if_true]

theorem write_eq {tmp : Nat} {heap : Heap} (he : entryOf fd = some i)
    (hfile : notFile fs (fs.fds i) = false) (hgrow : grow fs.heap (fs.nodes (fs.fds i).node).content
      ((fs.fds i).offset + BitVec.ofNat 64 buf.length).toNat = some (tmp, heap)) :
    write fs fd buf =
      if tmp = 0 ∧ (fs.nodes (fs.fds i).node).content ≠ 0 then some (-1, { fs with heap })
      else if 0 < buf.length ∧
          accessible ((tmp + (fs.fds i).offset.toNat) % word) buf.length = false then none
      else some ((BitVec.ofNat 64 buf.length).toInt, afterWrite fs fd i buf tmp heap) := by
  unfold write
  simp only [he, hfile, hgrow, Bool.false_eq_true, if_false, Option.bind_eq_bind, Option.bind_some]
  rfl

theorem write_inv {r : Int} (hrun : write fs fd buf = some (r, fs')) :
    (r = -1 ∧ fs' = fs) ∨ ∃ i tmp heap, entryOf fd = some i ∧ notFile fs (fs.fds i) = false ∧
      grow fs.heap (fs.nodes (fs.fds i).node).content
        ((fs.fds i).offset + BitVec.ofNat 64 buf.length).toNat = some (tmp, heap) ∧
      ((r = -1 ∧ fs' = { fs with heap }) ∨
        (0 < buf.length → accessible ((tmp + (fs.fds i).offset.toNat) % word) buf.length = true) ∧
          r = (BitVec.ofNat 64 buf.length).toInt ∧ fs' = afterWrite fs fd i buf tmp heap) := by
  by_cases hno : ∀ i, entryOf fd = some i → notFile fs (fs.fds i) = true
  · rw [write_refused hno] at hrun
    cases hrun
    exact .inl ⟨rfl, rfl⟩
  push Not at hno
  obtain ⟨i, he, hfile⟩ := hno
  rw [ne_eq, Bool.not_eq_true] at hfile
  cases hgrow : grow fs.heap (fs.nodes (fs.fds i).node).content
      ((fs.fds i).offset + BitVec.ofNat 64 buf.length).toNat with
  | none =>
    unfold write at hrun
    simp only [he, hfile, hgrow, Bool.false_eq_true, if_false, Option.bind_eq_bind,
      Option.bind_none, reduceCtorEq] at hrun
  | some result =>
    obtain ⟨tmp, heap⟩ := result
    refine .inr ⟨i, tmp, heap, he, hfile, hgrow, ?_⟩
    rw [write_eq he hfile hgrow] at hrun
    split_ifs at hrun with hnull hacc
    · cases hrun
      exact .inl ⟨rfl, rfl⟩
    · cases hrun
      exact .inr ⟨fun hpos => by simpa [hpos] using hacc, rfl, rfl⟩

/-- What a write through entry `i` does, with the bytes in the block at `q` afterwards. -/
structure Wrote (fs : Fs) (bs : List Blk) (i : Fin 256) (buf : Bytes) (fs' : Fs)
    (bs' : List Blk) (q : Nat) : Prop where
  root : fs'.root = fs.root
  cwd : fs'.cwd = fs.cwd
  fds : fs'.fds = update fs.fds i
    { fs.fds i with offset := (fs.fds i).offset + BitVec.ofNat 64 buf.length }
  nodes : fs'.nodes = update fs.nodes (fs.fds i).node
    { fs.nodes (fs.fds i).node with
      content := q
      size := max (fs.nodes (fs.fds i).node).size ((fs.fds i).offset.toNat + buf.length) }
  keeps : Keeps [(fs.nodes (fs.fds i).node).content] fs.heap bs fs'.heap bs'
  served : failures fs'.heap = failures fs.heap
  block : ∃ c ∈ bs', c.ptr = q ∧ c.free = false ∧ (fs.fds i).offset.toNat + buf.length ≤ c.len ∧
    ∀ b ∈ bs, b.free = false → b.ptr = (fs.nodes (fs.fds i).node).content →
      (fs.fds i).offset.toNat + buf.length ≤ b.len → c.len = (fs.fds i).offset.toNat + buf.length
  written : ∀ j v, buf[j]? = some v → fs'.heap.mem (q + (fs.fds i).offset.toNat + j) = v
  kept : ∀ b ∈ bs, b.free = false → b.ptr = (fs.nodes (fs.fds i).node).content → ∀ x < b.len,
    x < (fs.fds i).offset.toNat ∨ (fs.fds i).offset.toNat + buf.length ≤ x →
      fs'.heap.mem (q + x) = fs.heap.mem ((fs.nodes (fs.fds i).node).content + x)

/-- What a write leaves alone, whatever its outcome. -/
structure Rewrites (fs : Fs) (bs : List Blk) (i : Fin 256) (fs' : Fs) (bs' : List Blk) : Prop where
  root : fs'.root = fs.root
  cwd : fs'.cwd = fs.cwd
  fds : ∃ o, fs'.fds = update fs.fds i { fs.fds i with offset := o }
  nodes : ∃ q s, fs'.nodes = update fs.nodes (fs.fds i).node
    { fs.nodes (fs.fds i).node with content := q, size := s }
  keeps : Keeps [(fs.nodes (fs.fds i).node).content] fs.heap bs fs'.heap bs'

theorem Rewrites.refl (hs : Sound fs.heap bs) (i : Fin 256) : Rewrites fs bs i fs bs :=
  ⟨rfl, rfl, ⟨_, (update_eq_self i fs.fds).symm⟩,
    ⟨_, _, (update_eq_self _ fs.nodes).symm⟩, (Keeps.refl hs).weaken (List.nil_subset _)⟩

theorem Wrote.rewrites (hw : Wrote fs bs i buf fs' bs' q) : Rewrites fs bs i fs' bs' :=
  ⟨hw.root, hw.cwd, ⟨_, hw.fds⟩, ⟨_, _, hw.nodes⟩, hw.keeps⟩

section Write

variable {fs : Fs} {bs : List Blk}

theorem write_file (hs : Sound fs.heap bs) (hhigh : directBase ≤ fs.heap.heapBase)
    (he : entryOf fd = some i) (hfile : notFile fs (fs.fds i) = false)
    (hcontent : (fs.nodes (fs.fds i).node).content ≠ 0 →
      (fs.nodes (fs.fds i).node).content ∈ used bs) (ho : (fs.fds i).offset.toNat < 2 ^ 63)
    (hpos : 0 < buf.length) (hmax : buf.length < 2 ^ 63) :
    ((∃ heap, grow fs.heap (fs.nodes (fs.fds i).node).content
          ((fs.fds i).offset + BitVec.ofNat 64 buf.length).toNat = some (0, heap) ∧
          Keeps [] fs.heap bs heap bs) ∧
        ¬ Room ((fs.fds i).offset.toNat + buf.length) bs ∧
        ∀ r fs', write fs fd buf = some (r, fs') → failures fs.heap < failures fs'.heap) ∨
      ∃ fs' bs' q, write fs fd buf = some ((BitVec.ofNat 64 buf.length).toInt, fs') ∧ q ≠ 0 ∧
        Wrote fs bs i buf fs' bs' q ∧
        (used bs').Perm (q :: (used bs).filter (· ≠ (fs.nodes (fs.fds i).node).content)) ∧
        ∀ r, 0 < r → Room ((fs.fds i).offset.toNat + buf.length + headerSize + r) bs →
          Room r bs' := by
  have hend : ((fs.fds i).offset + BitVec.ofNat 64 buf.length).toNat =
      (fs.fds i).offset.toNat + buf.length := by
    rw [BitVec.toNat_add, BitVec.toNat_ofNat]
    omega
  have hsize : 0 < (fs.fds i).offset.toNat + buf.length := by omega
  obtain ⟨q, heap, hgrow, hcases⟩ := grow_cases hs hcontent hsize
  rw [← hend] at hgrow
  rw [write_eq he hfile hgrow]
  simp only [afterWrite, hend] at hgrow ⊢
  rcases hcases with ⟨rfl, hk, hfail, -, hroom⟩ |
    ⟨bs', hq, hk, hfail, hused, hcopy, ⟨c, hc, hcp, hcf, hcn, hexact⟩, hroom⟩
  · left
    refine ⟨⟨heap, hgrow, hk⟩, hroom, ?_⟩
    intro r fs' hrun
    split_ifs at hrun
    all_goals
      simp only [Option.some.injEq, Prod.mk.injEq] at hrun
      obtain ⟨-, rfl⟩ := hrun
      exact hfail
  · right
    have hfin := hk.sound.rep.fin_le hc
    have hlow := (hk.sound.rep.fits.bounds hc).1
    rw [← hk.heapBase] at hhigh
    have hplace : q + (fs.fds i).offset.toNat + buf.length ≤ c.fin := by
      simp only [← hcp, Blk.ptr, Blk.fin]
      omega
    have hdest : (q + (fs.fds i).offset.toNat) % word = q + (fs.fds i).offset.toNat :=
      Nat.mod_eq_of_lt (by omega)
    have hacc : accessible (q + (fs.fds i).offset.toNat) buf.length = true := by
      rw [accessible_iff]
      right
      rw [← hcp, Blk.ptr] at hplace ⊢
      omega
    rw [if_neg fun hh => hq hh.1, hdest, hacc, if_neg (by simp)]
    have hout : ∀ x, x < c.ptr ∨ c.fin ≤ x →
        putBytes heap.mem (q + (fs.fds i).offset.toNat) buf x = heap.mem x := by
      intro x hx
      apply putBytes_outside
      rw [hcp] at hx
      omega
    refine ⟨_, bs', q, rfl, hq, ⟨rfl, rfl, rfl, rfl, hk.fill hused hc hcp hout, hfail,
      ⟨c, hc, hcp, hcf, hcn, fun b hb hu hp hle => (hexact b hb hu hp hle).1⟩, ?_, ?_⟩, hused, hroom⟩
    · intro j v hv
      exact putBytes_at buf heap.mem _ j v hv
    · intro b hb hu hp x hx hside
      refine Eq.trans ?_ ((hcopy b hb hu hp).1 x hx)
      apply putBytes_outside
      omega

variable {foreign : List Nat} {live : List Nat} {kids : Kids}
  (h : Sane foreign fs bs live kids)

include h

theorem Wrote.sane (hw : Wrote fs bs i buf fs' bs' q) (h0 : (fs.fds i).node ≠ 0) (hq : q ≠ 0)
    (hmax : buf.length < 2 ^ 63) (hused : (used bs').Perm
      (q :: (used bs).filter (· ≠ (fs.nodes (fs.fds i).node).content))) :
    Sane foreign fs' bs' live kids := by
  have hn := h.table.node i h0
  have ho := h.table.offset i h0
  refine ⟨?_, ?_, ?_⟩
  · apply h.owns.move hn hq hw.keeps.sound hw.keeps.heapBase hused
    · rw [hw.nodes, update_self]
    · intro m _ hm
      rw [hw.nodes, update_of_ne hm]
  · rw [hw.root]
    refine h.linked.congr fun m _ => ?_
    rw [hw.nodes, update_apply]
    split_ifs with hm
    · rw [hm]
      exact ⟨rfl, rfl, rfl⟩
    · exact ⟨rfl, rfl, rfl⟩
  · rw [hw.fds]
    refine h.table.set i ?_ fun hfree => h.table.free i hfree
    intro _
    refine ⟨hn, ?_⟩
    obtain ⟨c, hc, -, -, hlen, -⟩ := hw.block
    have hfin := hw.keeps.sound.rep.fin_le hc
    have hlow := (hw.keeps.sound.rep.fits.bounds hc).1
    have hhigh := h.owns.high
    rw [← hw.keeps.heapBase] at hhigh
    simp only [BitVec.toNat_add, BitVec.toNat_ofNat]
    simp only [Blk.fin, headerSize, directBase, word] at *
    omega

theorem write_cases (fd : Int) (hpos : 0 < buf.length) (hmax : buf.length < 2 ^ 63) :
    (write fs fd buf = some (-1, fs) ∧ ∀ i, entryOf fd = some i → notFile fs (fs.fds i) = true) ∨
      ∃ i, entryOf fd = some i ∧ notFile fs (fs.fds i) = false ∧
        ((¬ Room ((fs.fds i).offset.toNat + buf.length) bs ∧
            ∀ r fs', write fs fd buf = some (r, fs') → failures fs.heap < failures fs'.heap) ∨
          ∃ fs' bs' q, write fs fd buf = some ((BitVec.ofNat 64 buf.length).toInt, fs') ∧
            q ≠ 0 ∧ Wrote fs bs i buf fs' bs' q ∧ Sane foreign fs' bs' live kids ∧
            ∀ r, 0 < r → Room ((fs.fds i).offset.toNat + buf.length + headerSize + r) bs →
              Room r bs') := by
  by_cases hno : ∀ i, entryOf fd = some i → notFile fs (fs.fds i) = true
  · exact .inl ⟨write_refused hno, hno⟩
  push Not at hno
  obtain ⟨i, he, hfile⟩ := hno
  rw [ne_eq, Bool.not_eq_true] at hfile
  refine .inr ⟨i, he, hfile, ?_⟩
  have h0 : (fs.fds i).node ≠ 0 := by
    intro h0
    simp [notFile, h0] at hfile
  have hn := h.table.node i h0
  rcases write_file h.owns.sound h.owns.high he hfile (h.owns.mem_used_content hn)
      (h.table.offset i h0) hpos hmax with ⟨-, hroom, hfail⟩ | ⟨fs', bs', q, hrun, hq, hw, hused, hroom⟩
  · exact .inl ⟨hroom, hfail⟩
  · exact .inr ⟨fs', bs', q, hrun, hq, hw, hw.sane h h0 hq hmax hused, hroom⟩

end Write

end Terrakernel.Tmpfs
