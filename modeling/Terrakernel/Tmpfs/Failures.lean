import Terrakernel.Tmpfs.Reads

/-!
# Writes that fail, and writes of nothing

`write` asks for a block that ends where the write ends. A write of nothing at the start of a file
asks for none, and the block of the file is freed.
-/

namespace Terrakernel.Tmpfs

open Memory Vmm Links Heap Option

/-! ## What should stay -/

/-- Nodes and descriptors are the same, and every block in use has its bytes. -/
structure Unchanged (fs fs' : Fs) : Prop where
  nodes : fs'.nodes = fs.nodes
  fds : fs'.fds = fs.fds
  blocks : ∀ p k, HasBlock fs.heap p k →
    HasBlock fs'.heap p k ∧ ∀ x < k, fs'.heap.mem (p + x) = fs.heap.mem (p + x)

/-- File `n` has its size, and those of its bytes that lay in its block are still there. -/
structure Unaltered (fs fs' : Fs) (n : Nat) : Prop where
  size : (fs'.nodes n).size = (fs.nodes n).size
  bytes : ∀ k ≤ (fs.nodes n).size, HasBlock fs.heap (fs.nodes n).content k →
    HasBlock fs'.heap (fs'.nodes n).content k ∧
      ∀ x < k, fs'.heap.mem ((fs'.nodes n).content + x) = fs.heap.mem ((fs.nodes n).content + x)

/-- A write that fails changes nothing, and a write of nothing leaves the file alone. -/
structure Careful (fs : Fs) (fd : Int) (buf : Bytes) : Prop where
  failed : ∀ fs', write fs fd buf = some (-1, fs') → Unchanged fs fs'
  empty : buf = [] → ∃ r fs', write fs fd buf = some (r, fs') ∧
    ∀ i, entryOf fd = some i → Unaltered fs fs' (fs.fds i).node

/-- A write of `count` bytes at the offset of `f` asks for a block. If it writes nothing, the
block reaches as far as the bytes of the file, and not beyond its size unless it is refused. -/
structure Harmless (fs : Fs) (bs : List Blk) (f : Filedesc) (count : Nat) : Prop where
  asks : (fs.nodes f.node).content ≠ 0 → (f.offset + BitVec.ofNat 64 count).toNat ≠ 0
  reaches : count = 0 → ∀ k ≤ (fs.nodes f.node).size,
    HasBlock fs.heap (fs.nodes f.node).content k → k ≤ f.offset.toNat
  within : count = 0 → f.offset.toNat ≤ (fs.nodes f.node).size ∨
    (fs.nodes f.node).content ≠ 0 ∧ ¬ HasBlock fs.heap (fs.nodes f.node).content f.offset.toNat ∧
      ¬ Room f.offset.toNat bs

theorem Unchanged.refl (fs : Fs) : Unchanged fs fs :=
  ⟨rfl, rfl, fun _ _ hb => ⟨hb, fun _ _ => rfl⟩⟩

theorem Unchanged.unaltered {fs fs' : Fs} (h : Unchanged fs fs') (n : Nat) : Unaltered fs fs' n := by
  refine ⟨by rw [h.nodes], fun k _ hb => ?_⟩
  rw [h.nodes]
  exact h.blocks _ k hb

theorem unchanged_of_keeps {fs : Fs} {bs bs' : List Blk} {heap : Heap} (hs : Sound fs.heap bs)
    (hk : Keeps [] fs.heap bs heap bs') : Unchanged fs { fs with heap } :=
  ⟨rfl, rfl, fun _ _ hblock => hk.hasBlock hs List.not_mem_nil hblock⟩

/-! ## The block for a write -/

theorem grow_nothing {heap : Heap} {bs : List Blk} (hs : Sound heap bs) {content : Nat}
    (hcontent : content ∈ used bs) :
    ∃ heap', grow heap content 0 = some (0, heap') ∧ HasBlock heap content 0 ∧
      ¬ HasBlock heap' content 0 := by
  obtain ⟨heap', hfree, hk, -⟩ := free_keeps hs content
  obtain ⟨b, hb, hu, hp⟩ := mem_used.mp hcontent
  refine ⟨heap', ?_, (hs.rep.hasBlock_iff _ _).mpr ⟨b, hb, hu, hp, Nat.zero_le _⟩, ?_⟩
  · rw [grow, if_neg (used_pos hcontent), Heap.realloc, if_neg (used_pos hcontent), if_pos rfl, hfree]
    rfl
  · rw [hk.sound.rep.hasBlock_iff]
    rintro ⟨c, hc, hcu, hcp, -⟩
    have hmem := mem_used.mpr ⟨c, hc, hcu, hcp⟩
    rw [used_freed, List.mem_filter] at hmem
    simpa using hmem.2

section Write

variable {fs : Fs} {bs : List Blk} {fd : Int} {i : Fin 256} {buf : Bytes} {tmp : Nat}
  {heap : Heap}

theorem write_stored (he : entryOf fd = some i) (hfile : notFile fs (fs.fds i) = false)
    (hgrow : grow fs.heap (fs.nodes (fs.fds i).node).content
      ((fs.fds i).offset + BitVec.ofNat 64 buf.length).toNat = some (tmp, heap))
    (hblock : ¬ (tmp = 0 ∧ (fs.nodes (fs.fds i).node).content ≠ 0)) :
    (∀ fs', write fs fd buf ≠ some (-1, fs')) ∧
      (buf = [] → write fs fd buf = some (0, afterWrite fs fd i buf tmp heap)) := by
  rw [write_eq he hfile hgrow, if_neg hblock]
  constructor
  · intro fs' hrun
    rw [ite_none_left_eq_some] at hrun
    obtain ⟨hacc, hrun⟩ := hrun
    have hr := congrArg Prod.fst (some.inj hrun)
    have hlen : buf.length ≤ 2 ^ 47 := by
      by_contra hlong
      refine hacc ⟨by omega, ?_⟩
      rw [← Bool.not_eq_true, accessible_iff]
      simp only [directBase, word]
      omega
    rw [toInt_ofNat_of_lt (by omega)] at hr
    dsimp only at hr
    omega
  · rintro rfl
    rw [if_neg (by simp)]
    rfl

theorem careful_iff_of_stored (he : entryOf fd = some i) (hfile : notFile fs (fs.fds i) = false)
    (hgrow : grow fs.heap (fs.nodes (fs.fds i).node).content
      ((fs.fds i).offset + BitVec.ofNat 64 buf.length).toNat = some (tmp, heap))
    (hblock : ¬ (tmp = 0 ∧ (fs.nodes (fs.fds i).node).content ≠ 0)) :
    Careful fs fd buf ↔
      (buf = [] → Unaltered fs (afterWrite fs fd i buf tmp heap) (fs.fds i).node) := by
  obtain ⟨hfail, hempty⟩ := write_stored he hfile hgrow hblock
  constructor
  · rintro ⟨-, h⟩ hb
    obtain ⟨r, fs', hrun, hsame⟩ := h hb
    rw [hempty hb] at hrun
    cases hrun
    exact hsame i he
  · intro h
    refine ⟨fun fs' hrun => absurd hrun (hfail fs'), fun hb => ⟨0, _, hempty hb, ?_⟩⟩
    intro j hj
    obtain rfl : i = j := some.inj (he.symm.trans hj)
    exact h hb

theorem unaltered_empty_iff :
    Unaltered fs (afterWrite fs fd i [] tmp heap) (fs.fds i).node ↔
      (fs.fds i).offset.toNat ≤ (fs.nodes (fs.fds i).node).size ∧
        ∀ k ≤ (fs.nodes (fs.fds i).node).size, HasBlock fs.heap (fs.nodes (fs.fds i).node).content k →
          HasBlock heap tmp k ∧ ∀ x < k,
            heap.mem (tmp + x) = fs.heap.mem ((fs.nodes (fs.fds i).node).content + x) := by
  have hsize : ((afterWrite fs fd i [] tmp heap).nodes (fs.fds i).node).size =
      max (fs.nodes (fs.fds i).node).size (fs.fds i).offset.toNat := by
    simp [afterWrite]
  have hcontent : ((afterWrite fs fd i [] tmp heap).nodes (fs.fds i).node).content = tmp := by
    simp [afterWrite]
  constructor
  · rintro ⟨h1, h2⟩
    rw [hsize] at h1
    rw [hcontent] at h2
    exact ⟨by omega, h2⟩
  · rintro ⟨h1, h2⟩
    refine ⟨by rw [hsize]; omega, ?_⟩
    rw [hcontent]
    exact h2

variable (hs : Sound fs.heap bs)

include hs

theorem careful_iff_null (he : entryOf fd = some i) (hfile : notFile fs (fs.fds i) = false)
    (hnull : (fs.nodes (fs.fds i).node).content = 0) :
    Careful fs fd buf ↔ Harmless fs bs (fs.fds i) buf.length := by
  obtain ⟨tmp, heap, -, hm, -, -⟩ :=
    malloc_cases hs ((fs.fds i).offset + BitVec.ofNat 64 buf.length).toNat
  have hgrow : grow fs.heap (fs.nodes (fs.fds i).node).content
      ((fs.fds i).offset + BitVec.ofNat 64 buf.length).toNat = some (tmp, heap) := by
    rw [grow, if_pos hnull, hm]
  rw [careful_iff_of_stored he hfile hgrow fun hh => hh.2 hnull]
  constructor
  · intro h
    refine ⟨fun hne => absurd hnull hne, fun _ k _ hb => ?_, fun h0 => .inl ?_⟩
    · rw [hnull] at hb
      exact absurd hb (hs.rep.not_hasBlock_zero k)
    · obtain rfl := List.eq_nil_of_length_eq_zero h0
      exact (unaltered_empty_iff.mp (h rfl)).1
  · rintro ⟨-, -, hwithin⟩ rfl
    rw [unaltered_empty_iff, hnull]
    rcases hwithin rfl with hle | ⟨hne, -⟩
    · exact ⟨hle, fun k _ hb => absurd hb (hs.rep.not_hasBlock_zero k)⟩
    · exact absurd hnull hne

variable (hcontent : (fs.nodes (fs.fds i).node).content ∈ used bs)

include hcontent

theorem not_careful_of_zero (he : entryOf fd = some i) (hfile : notFile fs (fs.fds i) = false)
    (hzero : ((fs.fds i).offset + BitVec.ofNat 64 buf.length).toNat = 0) : ¬ Careful fs fd buf := by
  obtain ⟨heap, hgrow, hbefore, hafter⟩ := grow_nothing hs hcontent
  have hrun : write fs fd buf = _ := write_eq he hfile (by rw [hzero, hgrow])
  rw [if_pos ⟨rfl, used_pos hcontent⟩] at hrun
  intro h
  exact hafter ((h.failed _ hrun).blocks _ 0 hbefore).1

theorem careful_iff_block (he : entryOf fd = some i) (hfile : notFile fs (fs.fds i) = false)
    (hpos : 0 < ((fs.fds i).offset + BitVec.ofNat 64 buf.length).toNat) :
    Careful fs fd buf ↔ Harmless fs bs (fs.fds i) buf.length := by
  obtain ⟨b, hb, hu, hp⟩ := mem_used.mp hcontent
  have hne := used_pos hcontent
  have hhas := hs.rep.hasBlock_ptr hb hu
  rw [hp] at hhas
  obtain ⟨q, heap, hgrow, hcases⟩ := grow_cases hs (fun _ => hcontent) hpos
  have hend : buf.length = 0 →
      ((fs.fds i).offset + BitVec.ofNat 64 buf.length).toNat = (fs.fds i).offset.toNat := by
    intro h0
    simp [h0]
  rcases hcases with ⟨rfl, hk, -, hlt, hroom⟩ |
    ⟨bs', hq, hk, -, -, hold, ⟨c, hc, rfl, hcf, hcn, hexact⟩, -⟩
  · -- The heap has no room, and the old block stays.
    have hrun := write_eq he hfile hgrow
    rw [if_pos ⟨rfl, hne⟩] at hrun
    have hsame := unchanged_of_keeps hs hk
    have hshort := hlt b hb hu hp
    refine iff_of_true ⟨?_, fun _ => ⟨-1, _, hrun, fun j _ => hsame.unaltered _⟩⟩ ⟨?_, ?_, ?_⟩
    · intro fs' hrun'
      rw [hrun] at hrun'
      cases hrun'
      exact hsame
    · exact fun _ => Nat.ne_of_gt hpos
    · intro h0 k _ hblock
      rw [hhas] at hblock
      have := hend h0
      omega
    · intro h0
      rw [hhas, ← hend h0]
      exact .inr ⟨hne, by omega, hroom⟩
  · -- The block is as long as the offset, or longer than the old one.
    rw [careful_iff_of_stored he hfile hgrow fun hh => hq hh.1]
    obtain ⟨hcopy, hfound⟩ := hold b hb hu hp
    have hexact := hexact b hb hu hp
    have hnew := hk.sound.rep.hasBlock_ptr hc hcf
    constructor
    · intro h
      refine ⟨fun _ => Nat.ne_of_gt hpos, ?_, ?_⟩
      all_goals
        intro h0
        obtain rfl := List.eq_nil_of_length_eq_zero h0
        rw [hend rfl] at hexact
        obtain ⟨hle, hbytes⟩ := unaltered_empty_iff.mp (h rfl)
      · intro k hk hblock
        have hk' := (hnew k).mp (hbytes k hk hblock).1
        rw [hhas] at hblock
        omega
      · exact .inl hle
    · rintro ⟨-, hreaches, hwithin⟩ rfl
      rw [hend rfl] at hexact hfound hcn
      rw [unaltered_empty_iff]
      constructor
      · rcases hwithin rfl with hle | ⟨-, hlong, hroom⟩
        · exact hle
        · rw [hhas] at hlong
          exact absurd (hfound (by omega)) hroom
      · intro k hk hblock
        have hk' := hreaches rfl k hk hblock
        rw [hhas] at hblock
        rw [hnew]
        exact ⟨by omega, fun x hx => hcopy x (by omega)⟩

end Write

/-- When a write that fails changes nothing, and a write of nothing alters nothing. -/
theorem write_careful_iff {fs : Fs} {bs : List Blk} {fd : Int} {buf : Bytes} (hs : Sound fs.heap bs)
    (hcontent : ∀ i, entryOf fd = some i → (fs.nodes (fs.fds i).node).content ≠ 0 →
      (fs.nodes (fs.fds i).node).content ∈ used bs) :
    Careful fs fd buf ↔ ∀ i, entryOf fd = some i → notFile fs (fs.fds i) = false →
      Harmless fs bs (fs.fds i) buf.length := by
  by_cases hno : ∀ i, entryOf fd = some i → notFile fs (fs.fds i) = true
  · have hrun : write fs fd buf = some (-1, fs) := write_refused hno
    refine iff_of_true ⟨?_, ?_⟩ fun i he hfile => ?_
    · intro fs' hrun'
      rw [hrun] at hrun'
      cases hrun'
      exact Unchanged.refl fs
    · exact fun _ => ⟨-1, fs, hrun, fun i _ => (Unchanged.refl fs).unaltered _⟩
    · rw [hno i he] at hfile
      cases hfile
  push Not at hno
  obtain ⟨i, he, hfile⟩ := hno
  rw [ne_eq, Bool.not_eq_true] at hfile
  have hone : Careful fs fd buf ↔ Harmless fs bs (fs.fds i) buf.length := by
    by_cases hnull : (fs.nodes (fs.fds i).node).content = 0
    · exact careful_iff_null hs he hfile hnull
    have hused := hcontent i he hnull
    by_cases hzero : ((fs.fds i).offset + BitVec.ofNat 64 buf.length).toNat = 0
    · refine iff_of_false (not_careful_of_zero hs hused he hfile hzero) ?_
      exact fun h => h.asks hnull hzero
    · exact careful_iff_block hs hused he hfile (Nat.pos_of_ne_zero hzero)
  rw [hone]
  simp only [he, some.injEq, forall_eq', hfile, forall_const]

theorem write_careful_iff_at_end :
    ∃ (fs1 fs2 fs3 fs4 : Fs) (i : Fin 256) (r : Int), initialise blank = some fs1 ∧
      Tmpfs.open fs1 slashF oCreat 0o644 none = some ((i : Int), fs2) ∧
      write fs2 i [0x41, 0x42, 0x43] = some (3, fs3) ∧ write fs3 i [] = some (r, fs4) ∧
      Unaltered fs3 fs4 (fs3.fds i).node := by
  obtain ⟨fs1, i, -, fs2, fs3, bs, hinit, -, hopen, hwrite, -, -, -, -, h, hoffset, -⟩ :=
    @blank_data [0x41, 0x42, 0x43] (by decide) (by decide)
  have hsize : _ = 3 := h.size
  replace hoffset : _ = 3 := hoffset
  have hcareful : Careful fs3 i [] := by
    refine (write_careful_iff h.sound ?_).mpr ?_
    · simp only [entryOf_fin, some.injEq, forall_eq']
      exact h.content_used
    · simp only [entryOf_fin, some.injEq, forall_eq']
      refine fun _ => ⟨fun _ => ?_, fun _ k hk _ => by omega, fun _ => .inl (by omega)⟩
      rw [List.length_nil, BitVec.add_zero, hoffset]
      decide
  obtain ⟨r, fs4, hempty, hsame⟩ := hcareful.2 rfl
  exact ⟨fs1, fs2, fs3, fs4, i, r, hinit, hopen, hwrite, hempty, hsame i (entryOf_fin i)⟩

/-- A write of nothing at the start of three bytes fails, and their block is gone. -/
theorem empty_write_frees :
    ∃ (fs1 fs2 fs3 fs4 fs5 : Fs) (i : Fin 256), initialise blank = some fs1 ∧
      Tmpfs.open fs1 slashF oCreat 0o644 none = some ((i : Int), fs2) ∧
      write fs2 i [0x41, 0x42, 0x43] = some (3, fs3) ∧ lseek fs3 i 0 0 = (0, fs4) ∧
      write fs4 i [] = some (-1, fs5) ∧ (fs5.nodes (fs5.fds i).node).size = 3 ∧
      ¬ HasBlock fs5.heap (fs5.nodes (fs5.fds i).node).content 0 ∧ ¬ Careful fs4 i [] := by
  obtain ⟨fs1, fs2, fs3, fs4, i, bs, hinit, hopen, hwrite, hseek, h, hoffset⟩ := blank_rewound
  have hnull : (fs4.nodes (fs4.fds i).node).content ≠ 0 := fun h0 => by simpa using h.empty h0
  have hzero : ((fs4.fds i).offset + BitVec.ofNat 64 ([] : Bytes).length).toNat = 0 := by
    rw [hoffset]
    rfl
  have hused := h.content_used hnull
  obtain ⟨heap, hgrow, -, hgone⟩ := grow_nothing h.sound hused
  have hrun : write fs4 i [] = _ := write_eq (entryOf_fin i) h.file (by rw [hzero, hgrow])
  rw [if_pos ⟨rfl, hnull⟩] at hrun
  exact ⟨fs1, fs2, fs3, fs4, _, i, hinit, hopen, hwrite, hseek, hrun, h.size, hgone,
    not_careful_of_zero h.sound hused (entryOf_fin i) h.file hzero⟩

end Terrakernel.Tmpfs
