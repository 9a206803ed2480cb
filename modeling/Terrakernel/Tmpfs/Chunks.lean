import Terrakernel.Heap.Others
import Terrakernel.Tmpfs.Names

/-!
# A file in pieces

A new file is written in pieces and read back in other pieces, while others use the heap.
-/

namespace Terrakernel.Tmpfs

open Memory Vmm Links Heap Function
open List hiding Mem

variable {fs fs' : Fs} {bs bs' : List Blk} {i : Fin 256} {c : Bytes} {q : Nat}

/-! ## What happened before -/

/-- Calls of all kinds. Only the writes ask for their block to be granted. -/
inductive FsRun : Fs → Fs → Prop
  | refl {fs : Fs} : FsRun fs fs
  | op {fs fs1 fs2 : Fs} {op : Op} {r : Int} (hrun : FsRun fs fs1) (hsafe : op.Safe fs1)
      (hexec : op.exec fs1 = some (r, fs2)) : FsRun fs fs2
  | lseek {fs fs1 : Fs} (fd : Int) (offset : BitVec 64) (whence : Int) (hrun : FsRun fs fs1) :
      FsRun fs (lseek fs1 fd offset whence).2
  | read {fs fs1 fs2 : Fs} {fd r : Int} {buf count : Nat} {data : Bytes} (hrun : FsRun fs fs1)
      (hexec : read fs1 fd buf count = some (r, data, fs2)) : FsRun fs fs2
  | write {fs fs1 fs2 : Fs} {fd r : Int} {buf : Bytes} (hrun : FsRun fs fs1)
      (hpos : 0 < buf.length) (hmax : buf.length < 2 ^ 63)
      (hexec : write fs1 fd buf = some (r, fs2)) (hserved : failures fs2.heap = failures fs1.heap) :
      FsRun fs fs2

theorem FsRun.held (hrun : FsRun fs fs') {foreign : List Nat} {live : List Nat}
    {kids : Kids} (h : Held foreign fs bs live kids) :
    ∃ foreign' bs' live' kids', Held foreign' fs' bs' live' kids' := by
  induction hrun with
  | refl => exact ⟨foreign, bs, live, kids, h⟩
  | op hrun hsafe hexec ih =>
    obtain ⟨foreign1, bs1, live1, kids1, h1⟩ := ih
    obtain ⟨foreign2, bs2, live2, kids2, h2, -⟩ :=
      h1.exec (R := Rules.none) (D := fun _ _ => True) (follows_true _ fun _ _ _ => trivial)
        (fun _ _ _ _ _ => trivial) hsafe (makes_true _ _) (enters_true _ _) hexec
    exact ⟨foreign2, bs2, live2, kids2, h2⟩
  | lseek fd offset whence hrun ih =>
    obtain ⟨foreign1, bs1, live1, kids1, h1⟩ := ih
    obtain ⟨hs, i, f, hf, heq⟩ := lseek_spec h1.sane fd offset whence
    exact ⟨foreign1, bs1, live1, kids1, h1.of_fds hs hf heq⟩
  | read hrun hexec ih =>
    obtain ⟨foreign1, bs1, live1, kids1, h1⟩ := ih
    obtain ⟨hs, i, f, hf, heq⟩ := read_spec h1.sane hexec
    exact ⟨foreign1, bs1, live1, kids1, h1.of_fds hs hf heq⟩
  | @write _ fs2 fd r buf hrun hpos hmax hexec hserved ih =>
    obtain ⟨foreign1, bs1, live1, kids1, h1⟩ := ih
    rcases write_cases h1.sane fd hpos hmax with ⟨hsame, -⟩ | ⟨i, -, hfile, hcases⟩
    · rw [hsame, Option.some.injEq, Prod.mk.injEq] at hexec
      rw [← hexec.2]
      exact ⟨foreign1, bs1, live1, kids1, h1⟩
    · rcases hcases with ⟨-, hfail⟩ | ⟨fs3, bs2, q, hrun, -, hw, hs, -⟩
      · have := hfail r fs2 hexec
        omega
      · rw [hrun, Option.some.injEq, Prod.mk.injEq] at hexec
        rw [← hexec.2]
        refine ⟨foreign1, bs2, live1, kids1, h1.rewrites (h1.sane.table.node i ?_) hw.rewrites hs⟩
        intro h0
        simp [notFile, h0] at hfile

/-! ## Pieces -/

/-- The blocks of the file behind entry `i`. -/
def blocksOf (fs : Fs) (i : Fin 256) : List Nat :=
  [(fs.fds i).node, (fs.nodes (fs.fds i).node).content]

/-- `Q` holds after anything that others do to the heap without these blocks. -/
def AfterOthers (i : Fin 256) (fs : Fs) (Q : Fs → Prop) : Prop :=
  ∀ heap, Others (blocksOf fs i) fs.heap heap → Q { fs with heap }

/-- If the heap returns, it has the block that a write of `buf` asks for. -/
def Granted (i : Fin 256) (fs : Fs) (buf : Bytes) : Prop :=
  ∀ q heap, grow fs.heap (fs.nodes (fs.fds i).node).content
    ((fs.fds i).offset + BitVec.ofNat 64 buf.length).toNat = some (q, heap) → q ≠ 0

/-- The chunks are written one after the other. Each write that is granted its block returns, and
`Q` holds of the values and the last state. -/
def WritesAll (i : Fin 256) : Names → Fs → (List Int → Fs → Prop) → Prop
  | [], fs, Q => Q [] fs
  | c :: cs, fs, Q => AfterOthers i fs fun fs => Granted i fs c →
      ∃ r fs', write fs i c = some (r, fs') ∧ WritesAll i cs fs' fun rs => Q (r :: rs)

/-- The same for reads, each to a buffer and of a count. `Q` holds of the values and the bytes. -/
def ReadsAll (i : Fin 256) : List (Nat × Nat) → Fs → (List Int → Bytes → Prop) → Prop
  | [], _, Q => Q [] []
  | (buf, count) :: rest, fs, Q => AfterOthers i fs fun fs =>
      ∃ r data fs', read fs i buf count = some (r, data, fs') ∧
        ReadsAll i rest fs' fun rs bytes => Q (r :: rs) (data.take r.toNat ++ bytes)

/-- What reads return when `rest` bytes are left. -/
def returned : Nat → List Nat → List Int
  | _, [] => []
  | rest, count :: counts => (min count rest : Nat) :: returned (rest - min count rest) counts

/-! ## The bytes of a file -/

/-- The file behind entry `i` holds `data`. -/
structure Filled (i : Fin 256) (fs : Fs) (bs : List Blk) (data : Bytes) : Prop where
  sound : Sound fs.heap bs
  high : directBase ≤ fs.heap.heapBase
  file : notFile fs (fs.fds i) = false
  size : (fs.nodes (fs.fds i).node).size = data.length
  block : (fs.nodes (fs.fds i).node).content ≠ 0 → ∃ b ∈ bs, b.free = false ∧
    b.ptr = (fs.nodes (fs.fds i).node).content ∧ data.length ≤ b.len
  empty : (fs.nodes (fs.fds i).node).content = 0 → data = []
  bytes : ∀ j v, data[j]? = some v → fs.heap.mem ((fs.nodes (fs.fds i).node).content + j) = v

section Filled

variable {i : Fin 256} {fs : Fs} {bs : List Blk} {data : Bytes} (h : Filled i fs bs data)

include h

theorem Filled.length_lt : data.length < 2 ^ 63 := by
  by_cases h0 : (fs.nodes (fs.fds i).node).content = 0
  · rw [h.empty h0]
    decide
  · obtain ⟨b, hb, -, -, hlen⟩ := h.block h0
    have hfin := h.sound.rep.fin_le hb
    have hlow := (h.sound.rep.fits.bounds hb).1
    have hhigh := h.high
    simp only [Blk.fin, headerSize, directBase, word] at *
    omega

theorem Filled.congr (hs : Sound fs'.heap bs') (hbase : fs'.heap.heapBase = fs.heap.heapBase)
    (hkept : ∀ b ∈ bs, b.free = false → b.ptr = (fs.nodes (fs.fds i).node).content → b ∈ bs' ∧
      ∀ x, b.ptr ≤ x → x < b.fin → fs'.heap.mem x = fs.heap.mem x)
    (hnode : (fs'.fds i).node = (fs.fds i).node)
    (hcontent : (fs'.nodes (fs.fds i).node).content = (fs.nodes (fs.fds i).node).content)
    (hsize : (fs'.nodes (fs.fds i).node).size = (fs.nodes (fs.fds i).node).size)
    (hdir : (fs'.nodes (fs.fds i).node).isDir = (fs.nodes (fs.fds i).node).isDir)
    (hlink : (fs'.nodes (fs.fds i).node).isSymlink = (fs.nodes (fs.fds i).node).isSymlink) :
    Filled i fs' bs' data := by
  refine ⟨hs, hbase ▸ h.high, ?_, ?_, ?_, ?_, ?_⟩
  · have hfile := h.file
    unfold notFile at hfile ⊢
    rw [hnode, hdir, hlink]
    exact hfile
  · rw [hnode, hsize]
    exact h.size
  · rw [hnode, hcontent]
    intro h0
    obtain ⟨b, hb, hu, hptr, hlen⟩ := h.block h0
    exact ⟨b, (hkept b hb hu hptr).1, hu, hptr, hlen⟩
  · rw [hnode, hcontent]
    exact h.empty
  · rw [hnode, hcontent]
    intro j v hv
    have h0 : (fs.nodes (fs.fds i).node).content ≠ 0 := by
      intro h0
      simp [h.empty h0] at hv
    obtain ⟨b, hb, hu, hptr, hlen⟩ := h.block h0
    have hj : j < data.length := (List.getElem?_eq_some_iff.mp hv).1
    rw [← h.bytes j v hv]
    apply (hkept b hb hu hptr).2
    · omega
    · simp only [← hptr, Blk.ptr, Blk.fin]
      omega

theorem Filled.others {heap : Heap} (ho : Others (blocksOf fs i) fs.heap heap) :
    ∃ bs', Filled i { fs with heap } bs' data := by
  obtain ⟨bs', hs, hbase, hkept⟩ := ho.keeps h.sound
  exact ⟨bs', h.congr hs hbase (fun b hb hu hptr => hkept b hb hu (by simp [blocksOf, hptr])) rfl rfl
    rfl rfl rfl⟩

theorem Filled.setFd (offset : BitVec 64) :
    Filled i (fs.setFd i fun f => { f with offset }) bs data := by
  refine h.congr h.sound rfl (fun b hb _ _ => ⟨hb, fun _ _ _ => rfl⟩) ?_ rfl rfl rfl rfl
  simp only [Fs.setFd, update_self]

theorem Filled.lseek_position {l : BitVec 64} (hl : 0 ≤ l.toInt) :
    lseek fs i l 0 = (l.toInt, fs.setFd i fun f => { f with offset := l }) := by
  have h0 : (fs.fds i).node ≠ 0 := by
    intro h0
    simpa [notFile, h0] using h.file
  simp only [lseek, entryOf_fin, if_neg h0, if_true, if_neg (not_lt.mpr hl)]

theorem Filled.content_used (h0 : (fs.nodes (fs.fds i).node).content ≠ 0) :
    (fs.nodes (fs.fds i).node).content ∈ used bs := by
  obtain ⟨b, hb, hu, hptr, -⟩ := h.block h0
  exact mem_used.mpr ⟨b, hb, hu, hptr⟩

theorem Filled.wrote_behind (ho : data.length ≤ (fs.fds i).offset.toNat) (hq : q ≠ 0)
    (hw : Wrote fs bs i c fs' bs' q) :
    Filled i fs' bs' (data ++ (List.range ((fs.fds i).offset.toNat - data.length)).map
        (fun j => fs'.heap.mem (q + (data.length + j))) ++ c) ∧
      (fs'.fds i).offset.toNat = (fs.fds i).offset.toNat + c.length := by
  have hnode : (fs'.fds i).node = (fs.fds i).node := by rw [hw.fds, update_self]
  have hself : fs'.nodes (fs.fds i).node = { fs.nodes (fs.fds i).node with
      content := q, size := (fs.fds i).offset.toNat + c.length } := by
    rw [hw.nodes, update_self, h.size, Nat.max_eq_right (by omega)]
  obtain ⟨b, hb, hbp, hbf, hlen, -⟩ := hw.block
  refine ⟨⟨hw.keeps.sound, hw.keeps.heapBase ▸ h.high, ?_, ?_, ?_, ?_, ?_⟩, ?_⟩
  · have := h.file
    unfold notFile at this ⊢
    rw [hnode, hself]
    exact this
  · rw [hnode, hself]
    simp only [length_append, length_map, length_range]
    omega
  · intro _
    rw [hnode, hself]
    refine ⟨b, hb, hbf, hbp, ?_⟩
    simp only [length_append, length_map, length_range]
    omega
  · rw [hnode, hself]
    exact fun h0 => absurd h0 hq
  · rw [hnode, hself]
    intro j v hv
    rw [append_assoc] at hv
    rcases Nat.lt_or_ge j data.length with hj | hj
    · -- A byte from before: the block has moved with it.
      rw [getElem?_append_left hj] at hv
      have h0 : (fs.nodes (fs.fds i).node).content ≠ 0 := by
        intro h0
        simp [h.empty h0] at hj
      obtain ⟨d, hd, hu, hptr, hdlen⟩ := h.block h0
      rw [← h.bytes j v hv]
      exact hw.kept d hd hu hptr j (by omega) (Or.inl (by omega))
    rw [getElem?_append_right hj] at hv
    rcases Nat.lt_or_ge j (fs.fds i).offset.toNat with hj' | hj'
    · rw [getElem?_append_left (by simp; omega), getElem?_map,
        getElem?_range (by omega)] at hv
      simpa [Nat.add_sub_cancel' hj] using hv
    · rw [getElem?_append_right (by simp; omega)] at hv
      have hlast := hw.written _ v hv
      rw [← hlast]
      congr 1
      simp only [length_map, length_range]
      omega
  · have hfin := hw.keeps.sound.rep.fin_le hb
    have hoff : (fs'.fds i).offset = (fs.fds i).offset + BitVec.ofNat 64 c.length := by
      rw [hw.fds, update_self]
    rw [hoff, BitVec.toNat_add, BitVec.toNat_ofNat]
    simp only [Blk.fin, headerSize, word] at hfin
    omega

theorem Filled.wrote (ho : (fs.fds i).offset.toNat = data.length) (hq : q ≠ 0)
    (hw : Wrote fs bs i c fs' bs' q) :
    Filled i fs' bs' (data ++ c) ∧ (fs'.fds i).offset.toNat = (data ++ c).length := by
  have hwrote := h.wrote_behind (Nat.le_of_eq ho.symm) hq hw
  rw [ho, Nat.sub_self, range_zero, map_nil, append_nil] at hwrote
  rw [length_append]
  exact hwrote

theorem Filled.write (ho : (fs.fds i).offset.toNat = data.length) {c : Bytes}
    (hpos : 0 < c.length) (hmax : c.length < 2 ^ 63) (hgranted : Granted i fs c) :
    ∃ fs' bs', Tmpfs.write fs i c = some ((c.length : Int), fs') ∧ Filled i fs' bs' (data ++ c) ∧
      (fs'.fds i).offset.toNat = (data ++ c).length := by
  have hlt := h.length_lt
  rcases write_file h.sound h.high (entryOf_fin i) h.file h.content_used (by omega) hpos hmax with
    ⟨⟨heap, hnull, -⟩, -⟩ | ⟨fs', bs', q, hrun, hq, hw, -, -⟩
  · exact absurd rfl (hgranted 0 heap hnull)
  rw [toInt_ofNat_of_lt hmax] at hrun
  exact ⟨fs', bs', hrun, h.wrote ho hq hw⟩

theorem Filled.read (ho : (fs.fds i).offset.toNat ≤ data.length) (buf count : Nat) :
    ∃ (k : Nat) (bytes : Bytes) (fs' : Fs), Tmpfs.read fs i buf count = some ((k : Int), bytes, fs') ∧
      k = min count (data.length - (fs.fds i).offset.toNat) ∧
      bytes.take k = (data.drop (fs.fds i).offset.toNat).take k ∧ Filled i fs' bs data ∧
      (fs'.fds i).offset.toNat = (fs.fds i).offset.toNat + k := by
  have hblock : 0 < (fs.nodes (fs.fds i).node).size → ∃ b ∈ bs,
      b.ptr = (fs.nodes (fs.fds i).node).content ∧
        (fs.nodes (fs.fds i).node).size ≤ b.len := by
    intro hpos
    obtain ⟨b, hb, -, hptr, hlen⟩ := h.block fun h0 => by
      rw [h.size, h.empty h0] at hpos
      exact absurd hpos (by decide)
    exact ⟨b, hb, hptr, h.size ▸ hlen⟩
  obtain ⟨k, bytes, hrun, hk, hlt, hbytes⟩ := read_file h.sound h.high (entryOf_fin i) h.file hblock
    (h.size ▸ ho) buf count
  rw [h.size] at hk
  refine ⟨k, bytes, _, hrun, hk, ?_, h.setFd _, ?_⟩
  · rw [hbytes]
    apply ext_getElem?
    intro j
    rcases Nat.lt_or_ge j k with hj | hj
    · rw [getElem?_map, getElem?_range hj, Option.map_some, getElem?_take_of_lt hj,
        getElem?_drop]
      have hin : (fs.fds i).offset.toNat + j < data.length := by omega
      rw [getElem?_eq_getElem hin, h.bytes _ _ (getElem?_eq_getElem hin)]
    · rw [getElem?_eq_none (by simpa using hj),
        getElem?_eq_none ((length_take_le _ _).trans hj)]
  · simp only [Fs.setFd, update_self, BitVec.toNat_add, BitVec.toNat_ofNat]
    omega

end Filled

/-! ## Whole sequences -/

theorem writesAll_of_filled (chunks : Names)
    (hchunks : ∀ c ∈ chunks, 0 < c.length ∧ c.length < 2 ^ 63) {data : Bytes}
    (h : Filled i fs bs data) (ho : (fs.fds i).offset.toNat = data.length)
    {Q : List Int → Fs → Prop} (hQ : ∀ fs' bs', Filled i fs' bs' (data ++ chunks.flatten) →
      Q (chunks.map fun c => (c.length : Int)) fs') : WritesAll i chunks fs Q := by
  induction chunks generalizing fs bs data Q with
  | nil => exact hQ fs bs (by simpa using h)
  | cons c cs ih =>
    rw [forall_mem_cons] at hchunks
    intro heap hothers hgranted
    obtain ⟨bs1, h1⟩ := h.others hothers
    obtain ⟨fs2, bs2, hrun, h2, ho2⟩ := h1.write ho hchunks.1.1 hchunks.1.2 hgranted
    refine ⟨_, fs2, hrun, ih hchunks.2 h2 ho2 ?_⟩
    intro fs' bs' h'
    rw [append_assoc, ← flatten_cons] at h'
    exact hQ fs' bs' h'

theorem readsAll_of_filled (reads : List (Nat × Nat)) {data : Bytes} (h : Filled i fs bs data)
    (ho : (fs.fds i).offset.toNat ≤ data.length) {Q : List Int → Bytes → Prop}
    (hQ : Q (returned (data.length - (fs.fds i).offset.toNat) (reads.map Prod.snd))
      ((data.drop (fs.fds i).offset.toNat).take (reads.map Prod.snd).sum)) :
    ReadsAll i reads fs Q := by
  induction reads generalizing fs bs Q with
  | nil =>
    rw [ReadsAll]
    simpa [returned] using hQ
  | cons read reads ih =>
    obtain ⟨buf, count⟩ := read
    intro heap hothers
    obtain ⟨bs1, h1⟩ := h.others hothers
    obtain ⟨k, bytes, fs2, hrun, hk, hbytes, h2, ho2⟩ := h1.read ho buf count
    replace ho2 : (fs2.fds i).offset.toNat = (fs.fds i).offset.toNat + k := ho2
    replace hk : k = min count (data.length - (fs.fds i).offset.toNat) := hk
    refine ⟨_, bytes, fs2, hrun, ih h2 (by omega) ?_⟩
    rw [map_cons, returned, ← hk] at hQ
    rw [ho2, Int.toNat_natCast, hbytes, ← Nat.sub_sub, ← drop_drop]
    convert hQ using 1
    -- The rest of the bytes follows on the ones that were read.
    generalize hrest : data.drop (fs.fds i).offset.toNat = rest
    have hlen : rest.length = data.length - (fs.fds i).offset.toNat := by
      rw [← hrest, length_drop]
    simp only [sum_cons]
    rcases Nat.le_total count rest.length with hle | hle
    · rw [show k = count by omega, take_add]
    · rw [show k = rest.length by omega, take_length, drop_length, take_nil,
        append_nil, take_of_length_le (by omega)]

section Runs

variable {σ : Type} {reserveHeap : Nat → σ → Nat × σ} {m : Mem} {s : σ} {fs0 fs fs1 : Fs}
  {i : Fin 256} {path devpath : Path} {flags : BitVec 32} {mode : Nat}

theorem filled_of_open (hstart : Started reserveHeap m s fs0) (hrun : FsRun fs0 fs)
    (hopen : Tmpfs.open fs path flags mode devpath = some ((i : Int), fs1))
    (hnew : ¬ InTree fs (fs1.fds i).node) (hfile : notFile fs1 (fs1.fds i) = false) :
    ∃ bs1, Filled i fs1 bs1 [] ∧ (fs1.fds i).offset.toNat = 0 ∧
      (fs1.nodes (fs1.fds i).node).content = 0 := by
  obtain ⟨foreign0, bs0, h0, -, -⟩ := hstart.held
  obtain ⟨foreign, bs, live, kids, h⟩ := hrun.held h0
  obtain ⟨j, n, fs2, bs2, live2, kids2, b, d, hij, hfs1, -, hn, h2, hb, hg, -, -⟩ :=
    open_spec h hopen (Int.natCast_nonneg i)
  obtain rfl : i = j := Fin.ext (by exact_mod_cast hij)
  have hfd : (fs1.fds i).node = n ∧ (fs1.fds i).offset = 0 := by
    rw [hfs1, opened_fds, update_self]
    exact ⟨rfl, rfl⟩
  rw [hfd.1] at hnew
  -- Had the node been there, it would have been in the tree.
  have hfresh : n ∉ live := by
    intro hold
    exact hnew ((h.linked.inTree_iff n).mpr (hb.reached_old h2.linked hn hold))
  obtain ⟨hcontent, hsize⟩ := hg.fresh n (h2.linked.reached_mem hn) hfresh
  have hnode : (fs1.nodes n).content = 0 ∧ (fs1.nodes n).size = 0 := by
    rw [hfs1, opened_nodes, if_pos rfl, setNode_nodes, if_pos rfl]
    exact ⟨hcontent, hsize⟩
  have hheap : fs1.heap = fs2.heap := by
    rw [hfs1]
    rfl
  refine ⟨bs2, ⟨hheap ▸ h2.sane.owns.sound, hheap ▸ h2.sane.owns.high, hfile, ?_, ?_, fun _ => rfl,
    fun j v hv => by simp at hv⟩, by rw [hfd.2]; rfl, by rw [hfd.1]; exact hnode.1⟩
  · rw [hfd.1, hnode.2]
    rfl
  · rw [hfd.1]
    exact fun h => absurd hnode.1 h

/-- However a new file is written in chunks and however it is read back, with others at the heap
all the time, each call returns what is expected and the bytes are those of the chunks. -/
theorem chunks_read_back (hstart : Started reserveHeap m s fs0) (hrun : FsRun fs0 fs)
    (hopen : Tmpfs.open fs path flags mode devpath = some ((i : Int), fs1))
    (hnew : ¬ InTree fs (fs1.fds i).node) (hfile : notFile fs1 (fs1.fds i) = false)
    (chunks : Names) (hchunks : ∀ c ∈ chunks, 0 < c.length ∧ c.length < 2 ^ 63)
    (reads : List (Nat × Nat)) :
    WritesAll i chunks fs1 fun values fs2 =>
      values = chunks.map (fun c => (c.length : Int)) ∧
      (fs2.nodes (fs2.fds i).node).size = chunks.flatten.length ∧
      AfterOthers i fs2 fun fs2 => ∃ fs3, lseek fs2 i 0 0 = (0, fs3) ∧
        ReadsAll i reads fs3 fun values bytes =>
          values = returned chunks.flatten.length (reads.map Prod.snd) ∧
          bytes = chunks.flatten.take
            (min (reads.map Prod.snd).sum chunks.flatten.length) := by
  obtain ⟨bs1, h1, ho, -⟩ := filled_of_open hstart hrun hopen hnew hfile
  refine writesAll_of_filled chunks hchunks h1 ho fun fs2 bs2 h2 => ⟨rfl, h2.size, ?_⟩
  intro heap hothers
  obtain ⟨bs3, h3⟩ := h2.others hothers
  refine ⟨_, h3.lseek_position (by decide), readsAll_of_filled reads (h3.setFd 0) ?_ ?_⟩
  · simp [Fs.setFd]
  · simp only [Fs.setFd, update_self, nil_append]
    refine ⟨rfl, ?_⟩
    rw [← take_eq_take_min]
    rfl

end Runs

theorem granted_of_room {buf : Bytes} (hs : Sound fs.heap bs)
    (hcontent : (fs.nodes (fs.fds i).node).content ≠ 0 →
      (fs.nodes (fs.fds i).node).content ∈ used bs)
    (hpos : 0 < ((fs.fds i).offset + BitVec.ofNat 64 buf.length).toNat)
    (hroom : Room ((fs.fds i).offset + BitVec.ofNat 64 buf.length).toNat bs) :
    Granted i fs buf := by
  intro q heap hgrow
  obtain ⟨q', heap', hgrow', hcases⟩ := grow_cases hs hcontent hpos
  rw [hgrow, Option.some.injEq, Prod.mk.injEq] at hgrow'
  rcases hcases with ⟨-, -, -, -, hno⟩ | ⟨-, hq, -⟩
  · exact absurd hroom hno
  · rw [hgrow'.1]
    exact hq

theorem blank_empty :
    ∃ (fs1 : Fs) (i : Fin 256) (c : Nat) (fs2 : Fs) (bs2 : List Blk),
      initialise blank = some fs1 ∧
      StartedAtOneMib fs1 ∧
      Tmpfs.open fs1 slashF oCreat 0o644 none = some ((i : Int), fs2) ∧
      Held [] fs2 bs2 [c, fs2.root] (grown (fun _ => []) fs2.root c) ∧
      (fs2.nodes c).name = [0x66] ∧ fs2.cwd = fs2.root ∧ (fs2.fds i).node = c ∧
      Filled i fs2 bs2 [] ∧ (fs2.fds i).offset.toNat = 0 ∧ (fs2.nodes c).content = 0 ∧
      Room 0x1000 bs2 ∧ ¬ InTree fs1 (fs2.fds i).node := by
  obtain ⟨fs1, i, c, fs2, bs2, hinit, hstart, -, hopen, h2, -, hname, hdir, hcwd, -, hroom, hnode,
    hlink, hnew, -⟩ := blank_file (t := [0x66]) (by decide) (by decide) (by decide)
  rw [← hnode] at hnew
  have hfile : notFile fs2 (fs2.fds i) = false := by
    have hc0 : c ≠ 0 := h2.linked.ne_zero mem_cons_self
    simp [notFile, hnode, hc0, hdir, hlink]
  obtain ⟨bs0, hfilled, hoffset, hcontent⟩ := filled_of_open hstart .refl hopen hnew hfile
  refine ⟨fs1, i, c, fs2, bs2, hinit, hstart, hopen, h2, hname, hcwd, hnode, ?_, hoffset,
    hnode ▸ hcontent, hroom, hnew⟩
  exact ⟨h2.sane.owns.sound, h2.sane.owns.high, hfile, hfilled.size, fun h0 => absurd hcontent h0,
    fun _ => rfl, by simp⟩

theorem blank_data {data : Bytes} (hpos : 0 < data.length) (hmax : data.length ≤ 0x100) :
    ∃ (fs1 : Fs) (i : Fin 256) (c : Nat) (fs2 fs3 : Fs) (bs3 : List Blk),
      initialise blank = some fs1 ∧
      StartedAtOneMib fs1 ∧
      Tmpfs.open fs1 slashF oCreat 0o644 none = some ((i : Int), fs2) ∧
      write fs2 i data = some ((data.length : Int), fs3) ∧
      Held [] fs3 bs3 [c, fs3.root] (grown (fun _ => []) fs3.root c) ∧
      (fs3.nodes c).name = [0x66] ∧ fs3.cwd = fs3.root ∧ (fs3.fds i).node = c ∧
      Filled i fs3 bs3 data ∧ (fs3.fds i).offset.toNat = data.length ∧ Room 0x800 bs3 := by
  obtain ⟨fs1, i, c, fs2, bs2, hinit, hstart, hopen, h2, hname, hcwd, hnode, hempty, hoffset, -,
    hroom, -⟩ := blank_empty
  have hmem : (fs2.fds i).node ∈ [c, fs2.root] := hnode ▸ mem_cons_self
  rcases write_file h2.sane.owns.sound h2.sane.owns.high (entryOf_fin i) hempty.file
      hempty.content_used (by omega) hpos (by omega) with
    ⟨-, hno, -⟩ | ⟨fs3, bs3, q, hrun, hq, hw, hused, hroom3⟩
  · exact absurd (hroom.mono (by omega)) hno
  rw [toInt_ofNat_of_lt (by omega)] at hrun
  have hsane := hw.sane h2.sane (h2.linked.ne_zero hmem) hq (by omega) hused
  obtain ⟨hdata, hend⟩ := hempty.wrote hoffset hq hw
  refine ⟨fs1, i, c, fs2, fs3, bs3, hinit, hstart, hopen, hrun, ?_, ?_, ?_, ?_, hdata, hend, ?_⟩
  · rw [hw.root]
    exact h2.rewrites hmem hw.rewrites hsane
  · rw [hw.nodes, hnode, update_self, hname]
  · rw [hw.cwd, hw.root, hcwd]
  · rw [hw.fds, update_self, hnode]
  · exact hroom3 0x800 (by decide) (hroom.mono (by simp only [headerSize]; omega))

theorem chunks_read_back_file :
    ∃ (fs1 fs2 fs3 fs4 fs5 fs6 : Fs) (i : Fin 256) (d1 d2 : Bytes),
      initialise blank = some fs1 ∧
      Tmpfs.open fs1 slashF oCreat 0o644 none = some ((i : Int), fs2) ∧
      write fs2 i [0x41, 0x42, 0x43] = some (3, fs3) ∧ lseek fs3 i 0 0 = (0, fs4) ∧
      read fs4 i 0x1000 2 = some (2, d1, fs5) ∧ read fs5 i 0x1000 2 = some (1, d2, fs6) ∧
      d1.take 2 ++ d2.take 1 = [0x41, 0x42, 0x43] := by
  obtain ⟨fs1, i, c, fs2, bs2, hinit, hstart, hopen, -, -, -, -, hempty, ho, -, hroom, hnew⟩ :=
    blank_empty
  have hmain := chunks_read_back hstart .refl hopen hnew hempty.file [[0x41, 0x42, 0x43]] (by decide)
    [(0x1000, 2), (0x1000, 2)]
  have hoffset : (fs2.fds i).offset = 0 := BitVec.eq_of_toNat_eq ho
  have hgranted : Granted i fs2 [0x41, 0x42, 0x43] := by
    apply granted_of_room hempty.sound hempty.content_used
    · rw [hoffset]
      decide
    · rw [hoffset]
      exact hroom.mono (by decide)
  obtain ⟨r, fs3, hwrite, hvalues, -, hrest⟩ := hmain fs2.heap .refl hgranted
  obtain ⟨fs4, hseek, hreads⟩ := hrest fs3.heap .refl
  obtain ⟨r1, d1, fs5, hread1, hreads⟩ := hreads fs4.heap .refl
  obtain ⟨r2, d2, fs6, hread2, hvalues2, hbytes⟩ := hreads fs5.heap .refl
  simp only [map_cons, map_nil, List.cons.injEq, and_true] at hvalues
  have hreturned : returned ([[0x41, 0x42, 0x43]] : Names).flatten.length
      ([((0x1000 : Nat), 2), (0x1000, 2)].map Prod.snd) = [2, 1] := by decide
  rw [hreturned] at hvalues2
  simp only [List.cons.injEq, and_true] at hvalues2
  obtain ⟨rfl, rfl⟩ := hvalues2
  rw [append_nil] at hbytes
  rw [hvalues] at hwrite
  exact ⟨fs1, fs2, fs3, fs4, fs5, fs6, i, d1, d2, hinit, hopen, hwrite, hseek, hread1, hread2, hbytes⟩

end Terrakernel.Tmpfs
