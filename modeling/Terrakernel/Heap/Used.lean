import Terrakernel.Heap.Separation

/-!
# The blocks in use

Which pointers a caller holds, and what each call does to them.
-/

namespace Terrakernel.Heap

open Memory Coalesce
open List hiding Mem

variable {b c : Blk} {bs bs' : List Blk} {p lo r n q hi : Nat} {h h' : Heap} {l : List HeapErr}
  {gone : List Nat} {m : Mem}

/-- The pointers that are handed out. -/
def used (bs : List Blk) : List Nat := (bs.filter fun b => !b.free).map Blk.ptr

theorem mem_used : p ∈ used bs ↔ ∃ b ∈ bs, b.free = false ∧ b.ptr = p := by
  simp [used, and_assoc]

theorem used_append (xs ys : List Blk) : used (xs ++ ys) = used xs ++ used ys := by
  simp [used]

theorem used_cons_free (bs : List Blk) (h : b.free = true) : used (b :: bs) = used bs := by
  simp [used, h]

theorem used_cons_used (bs : List Blk) (h : b.free = false) :
    used (b :: bs) = b.ptr :: used bs := by
  simp [used, h]

/-- The same, as a walk along the headers finds it. -/
def usedBases (es : List (Nat × HeapBlock)) : List Nat :=
  (es.filter fun e => !e.2.isFree).map fun e => e.2.base

theorem usedBases_headers (bs : List Blk) (prv nxt : Nat) :
    usedBases (headers prv bs nxt) = used bs := by
  induction bs generalizing prv with
  | nil => rfl
  | cons b bs ih =>
    have hrest := ih b.addr
    unfold usedBases at hrest ⊢
    rw [headers]
    cases hb : b.free with
    | true =>
      rw [used_cons_free _ hb, filter_cons_of_neg (by simp)]
      exact hrest
    | false =>
      rw [used_cons_used _ hb, filter_cons_of_pos (by simp), map_cons, hrest]

theorem Rep.walk_iff (hr : Rep h bs) (found : Nat → Nat → Prop) :
    (∃ es e, h.blockList = some es ∧ e ∈ es ∧ e.2.isFree = false ∧ found e.2.base e.2.length) ↔
      ∃ b ∈ bs, b.free = false ∧ found b.ptr b.len := by
  constructor
  · rintro ⟨es, e, hes, he, hfree, hfound⟩
    rw [hr.blockList] at hes
    obtain rfl := Option.some.inj hes
    obtain ⟨b, hb, -, hptr, hlen, hfree'⟩ := of_mem_headers he
    exact ⟨b, hb, hfree' ▸ hfree, hptr ▸ hlen ▸ hfound⟩
  · rintro ⟨b, hb, hfree, hfound⟩
    obtain ⟨e, he, -, hptr, hlen, hfree'⟩ := mem_headers hb 0 0
    exact ⟨_, e, hr.blockList, he, hfree' ▸ hfree, hptr ▸ hlen ▸ hfound⟩

/-- A walk along the headers finds `p` in use with at least `n` bytes. -/
def HasBlock (h : Heap) (p n : Nat) : Prop :=
  ∃ es e, h.blockList = some es ∧ e ∈ es ∧ e.2.isFree = false ∧ e.2.base = p ∧ n ≤ e.2.length

theorem Rep.hasBlock_iff (hr : Rep h bs) (p n : Nat) :
    HasBlock h p n ↔ ∃ b ∈ bs, b.free = false ∧ b.ptr = p ∧ n ≤ b.len :=
  hr.walk_iff fun base len => base = p ∧ n ≤ len

theorem Rep.blocks_apart {k : Nat} (hr : Rep h bs) (hp : HasBlock h p n) (hq : HasBlock h q k)
    (hne : p ≠ q) : p + n ≤ q ∨ q + k ≤ p := by
  obtain ⟨b, hb, -, rfl, hn⟩ := (hr.hasBlock_iff p n).mp hp
  obtain ⟨c, hc, -, rfl, hk⟩ := (hr.hasBlock_iff q k).mp hq
  have := hr.fits.apart hb hc fun he => hne (he ▸ rfl)
  simp only [Blk.ptr, Blk.fin] at *
  omega

/-- A walk along the headers finds `p` in use with `l` bytes. -/
def Live (h : Heap) (p l : Nat) : Prop :=
  ∃ es e, h.blockList = some es ∧ e ∈ es ∧ e.2.isFree = false ∧ e.2.base = p ∧ e.2.length = l

theorem Rep.live_iff (hr : Rep h bs) (p l : Nat) :
    Live h p l ↔ ∃ b ∈ bs, b.free = false ∧ b.ptr = p ∧ b.len = l :=
  hr.walk_iff fun base len => base = p ∧ len = l

theorem Rep.hasBlock_ptr (hr : Rep h bs) (hb : b ∈ bs) (hu : b.free = false) (n : Nat) :
    HasBlock h b.ptr n ↔ n ≤ b.len := by
  rw [hr.hasBlock_iff]
  constructor
  · rintro ⟨c, hc, -, hp, hle⟩
    rwa [hr.fits.eq_of_ptr hb hc hp] at hle
  · exact fun hle => ⟨b, hb, hu, rfl, hle⟩

theorem used_pos (h : p ∈ used bs) : p ≠ 0 := by
  obtain ⟨b, -, -, rfl⟩ := mem_used.mp h
  simp [Blk.ptr]

theorem Rep.not_hasBlock_zero (hr : Rep h bs) (n : Nat) : ¬ HasBlock h 0 n := by
  rw [hr.hasBlock_iff]
  rintro ⟨b, hb, hu, hp, -⟩
  exact used_pos (mem_used.mpr ⟨b, hb, hu, rfl⟩) hp

theorem Fits.used_nodup (h : Fits lo bs hi) : (used bs).Nodup := by
  have hd := h.disjoint
  unfold used
  rw [nodup_iff_pairwise_ne, pairwise_map]
  refine (hd.filter _).imp ?_
  intro b c hbc
  simp only [Blk.ptr, Blk.fin, headerSize] at *
  omega

theorem perm_filter_ne {l : List Nat} (hl : l.Nodup) (hp : p ∈ l) :
    l.Perm (p :: l.filter (· ≠ p)) := by
  rw [perm_ext_iff_of_nodup hl]
  · intro x
    simp only [mem_cons, mem_filter, decide_eq_true_eq]
    by_cases hx : x = p
    · simp [hx, hp]
    · simp [hx]
  · exact nodup_cons.mpr ⟨by simp, hl.filter _⟩

/-! ## `malloc` -/

theorem used_carve (n : Nat) (b : Blk) : used (carve n b) = [b.ptr] := by
  unfold carve
  split_ifs
  · rw [used_cons_used _ rfl, used_cons_free _ rfl]
    rfl
  · rw [used_cons_used _ rfl]
    rfl

theorem Fits.used_allot (hf : Fits lo bs hi) (h : (allot n bs).1 ≠ 0) :
    (used (allot n bs).2).Perm ((allot n bs).1 :: used bs) := by
  rcases hf.allot_cases (n := n) with ⟨he, -⟩ | ⟨pre, b, post, rfl, hfree, -, -, he⟩
  · rw [he] at h
    exact absurd rfl h
  · rw [he, used_append, used_append, used_carve, used_append, used_cons_free _ hfree]
    exact perm_middle

/-! ## `free` -/

theorem used_push (b : Blk) (bs : List Blk) : used (joins.push b bs) = used (b :: bs) := by
  cases bs with
  | nil => rfl
  | cons c cs =>
    by_cases h : joins.free b = true ∧ joins.free c = true
    · rw [joins.push_free h.1 h.2, used_cons_free _ rfl, used_cons_free _ h.1,
        used_cons_free _ h.2]
    · rw [joins.push_apart h]

theorem used_norm (bs : List Blk) : used (joins.norm bs) = used bs := by
  induction bs with
  | nil => rfl
  | cons b bs ih =>
    have hstep : used (joins.norm (b :: bs)) = used (b :: joins.norm bs) := used_push b _
    rw [hstep]
    cases hb : b.free with
    | true => rw [used_cons_free _ hb, used_cons_free _ hb, ih]
    | false => rw [used_cons_used _ hb, used_cons_used _ hb, ih]

theorem mem_norm_of_used (hb : b ∈ bs) (hu : b.free = false) : b ∈ joins.norm bs := by
  induction bs with
  | nil => exact hb
  | cons c cs ih =>
    rw [joins.norm_cons]
    rcases mem_cons.mp hb with rfl | hb
    · have hnot : ¬ joins.free b = true := by simp [joins, hu]
      cases joins.norm cs with
      | nil => exact mem_singleton_self b
      | cons d ds =>
        rw [joins.push_apart fun hh => hnot hh.1]
        exact mem_cons_self
    · have hrest := ih hb
      cases hcs : joins.norm cs with
      | nil =>
        rw [hcs] at hrest
        exact absurd hrest not_mem_nil
      | cons d ds =>
        rw [hcs] at hrest
        by_cases hfree : joins.free c = true ∧ joins.free d = true
        · rw [joins.push_free hfree.1 hfree.2]
          rcases mem_cons.mp hrest with rfl | hrest
          · have : b.free = true := hfree.2
            rw [hu] at this
            exact absurd this (by decide)
          · exact mem_cons_of_mem _ hrest
        · rw [joins.push_apart hfree]
          exact mem_cons_of_mem _ hrest

theorem mem_freed {ptr : Nat} (hb : b ∈ bs) (hu : b.free = false) (hne : b.ptr ≠ ptr) :
    b ∈ freed ptr bs := by
  refine mem_norm_of_used (List.mem_map.mpr ⟨b, hb, ?_⟩) hu
  rw [release, if_neg hne]

theorem used_freed (ptr : Nat) (bs : List Blk) :
    used (freed ptr bs) = (used bs).filter (· ≠ ptr) := by
  rw [freed, used_norm]
  induction bs with
  | nil => rfl
  | cons b bs ih =>
    rw [map_cons]
    cases hb : b.free with
    | true =>
      have hr : (release ptr b).free = true := by
        rw [release]
        split_ifs
        · rfl
        · exact hb
      rw [used_cons_free _ hr, used_cons_free _ hb, ih]
    | false =>
      rw [used_cons_used _ hb]
      by_cases hp : b.ptr = ptr
      · have hr : (release ptr b).free = true := by rw [release, if_pos hp]
        rw [used_cons_free _ hr, filter_cons_of_neg (by simpa using hp), ih]
      · rw [release, if_neg hp, used_cons_used _ hb, filter_cons_of_pos (by simpa using hp),
          ih]

theorem freed_of_not_used {ptr : Nat} (hn : joins.Normal bs) (h : ptr ∉ used bs) :
    freed ptr bs = bs := by
  have hmap : bs.map (release ptr) = bs := by
    rw [map_congr_left (g := id), List.map_id]
    intro b hb
    rw [release]
    split_ifs with hp
    · have hfree : b.free = true := by
        by_contra hb'
        exact h (mem_used.mpr ⟨b, hb, by simpa using hb', hp⟩)
      rw [← hfree]
      rfl
    · rfl
  rw [freed, hmap, joins.norm_of_normal hn]

/-! ## `realloc` -/

theorem used_resize (ptr n : Nat) (bs : List Blk) : used (bs.map (resize ptr n)) = used bs := by
  induction bs with
  | nil => rfl
  | cons b bs ih =>
    have hfree : (resize ptr n b).free = b.free := by
      rw [resize]
      split_ifs <;> rfl
    have hptr : (resize ptr n b).ptr = b.ptr := by
      rw [resize]
      split_ifs <;> rfl
    rw [map_cons]
    cases hb : b.free with
    | true => rw [used_cons_free _ (hfree.trans hb), used_cons_free _ hb, ih]
    | false => rw [used_cons_used _ (hfree.trans hb), used_cons_used _ hb, hptr, ih]

/-! ## Room -/

/-- There is a free block of `r` bytes. -/
def Room (r : Nat) (bs : List Blk) : Prop := ∃ b ∈ bs, b.free = true ∧ r ≤ b.len

theorem Room.mono {r' : Nat} (h : Room r bs) (hle : r' ≤ r) : Room r' bs := by
  obtain ⟨b, hb, hf, hl⟩ := h
  exact ⟨b, hb, hf, hle.trans hl⟩

theorem bestBlock_of_room (h : Room n bs) : ∃ d, bestBlock n bs = some d := by
  obtain ⟨b, hb, hfree, hlen⟩ := h
  rw [← Option.ne_none_iff_exists']
  intro hnone
  have := bestBlock_eq_none.mp hnone b hb hfree
  omega

theorem allot_room (h : Room r bs) (hn : n ≤ r) : (allot n bs).1 ≠ 0 := by
  obtain ⟨d, hd⟩ := bestBlock_of_room (h.mono hn)
  rw [allot, hd]
  simp [Blk.ptr]

theorem Room.allot (hf : Fits lo bs hi) (hr : 0 < r) (h : Room (n + headerSize + r) bs) :
    Room r (allot n bs).2 := by
  obtain ⟨b, hb, hfree, hlen⟩ := h
  rcases hf.allot_cases (n := n) with ⟨he, -⟩ | ⟨pre, c, post, rfl, -, -, -, he⟩
  · rw [he]
    exact ⟨b, hb, hfree, by omega⟩
  · rw [he]
    by_cases hbc : b = c
    · subst hbc
      refine ⟨⟨b.addr + headerSize + n, b.len - n - headerSize, true⟩, ?_, rfl, ?_⟩
      · rw [carve, if_pos (by omega)]
        simp
      · simp only
        omega
    · refine ⟨b, ?_, hfree, by omega⟩
      simp only [mem_append, mem_cons] at hb ⊢
      tauto

theorem Room.norm (h : Room r bs) : Room r (joins.norm bs) := by
  obtain ⟨b, hb, hfree, hlen⟩ := h
  induction bs with
  | nil => exact absurd hb not_mem_nil
  | cons c cs ih =>
    rw [joins.norm_cons]
    rcases mem_cons.mp hb with rfl | hb
    · cases joins.norm cs with
      | nil => exact ⟨b, mem_singleton_self b, hfree, hlen⟩
      | cons d ds =>
        by_cases hd : joins.free b = true ∧ joins.free d = true
        · rw [joins.push_free hd.1 hd.2]
          refine ⟨_, mem_cons_self, rfl, ?_⟩
          simp only [joins]
          omega
        · rw [joins.push_apart hd]
          exact ⟨b, mem_cons_self, hfree, hlen⟩
    · obtain ⟨d, hd, hdf, hdl⟩ := ih hb
      cases hcs : joins.norm cs with
      | nil =>
        rw [hcs] at hd
        exact absurd hd not_mem_nil
      | cons e es =>
        rw [hcs] at hd
        by_cases hce : joins.free c = true ∧ joins.free e = true
        · rw [joins.push_free hce.1 hce.2]
          rcases mem_cons.mp hd with rfl | hd
          · refine ⟨_, mem_cons_self, rfl, ?_⟩
            simp only [joins]
            omega
          · exact ⟨d, mem_cons_of_mem _ hd, hdf, hdl⟩
        · rw [joins.push_apart hce]
          exact ⟨d, mem_cons_of_mem _ hd, hdf, hdl⟩

theorem Room.freed (h : Room r bs) (ptr : Nat) : Room r (freed ptr bs) := by
  obtain ⟨b, hb, hfree, hlen⟩ := h
  refine Room.norm ⟨b, List.mem_map.mpr ⟨b, hb, ?_⟩, hfree, hlen⟩
  exact release_marking ptr b hfree

theorem Room.resize (h : Room r bs) (hused : ∀ c ∈ bs, c.ptr = b.ptr → c.free = false) :
    Room r (bs.map (resize b.ptr n)) := by
  obtain ⟨c, hc, hfree, hlen⟩ := h
  refine ⟨c, List.mem_map.mpr ⟨c, hc, ?_⟩, hfree, hlen⟩
  rw [Heap.resize, if_neg]
  intro hp
  rw [hused c hc hp] at hfree
  exact absurd hfree (by decide)

/-! ## What a caller sees -/

/-- How often `malloc` found no block. -/
def failures (h : Heap) : Nat :=
  h.log.countP fun
    | .mallocNoFit _ => true
    | _ => false

/-- Every block in use, but those at `gone`, still stands with its bytes. -/
structure Keeps (gone : List Nat) (h : Heap) (bs : List Blk) (h' : Heap) (bs' : List Blk) :
    Prop where
  sound : Sound h' bs'
  heapBase : h'.heapBase = h.heapBase
  failures : failures h ≤ failures h'
  blocks : ∀ b ∈ bs, b.free = false → b.ptr ∉ gone → b ∈ bs'
  bytes : ∀ b ∈ bs, b.free = false → b.ptr ∉ gone →
    ∀ x, b.ptr ≤ x → x < b.fin → h'.mem x = h.mem x

theorem Keeps.refl (hs : Sound h bs) : Keeps [] h bs h bs :=
  ⟨hs, rfl, le_refl _, fun _ hb _ _ => hb, fun _ _ _ _ _ _ _ => rfl⟩

theorem Keeps.weaken {g g' : List Nat} (hk : Keeps g h bs h' bs') (hsub : g ⊆ g') :
    Keeps g' h bs h' bs' :=
  ⟨hk.sound, hk.heapBase, hk.failures, fun b hb hu hg => hk.blocks b hb hu fun hm => hg (hsub hm),
    fun b hb hu hg => hk.bytes b hb hu fun hm => hg (hsub hm)⟩

theorem Keeps.trans {g1 g2 : List Nat} {h1 h2 : Heap} {bs1 bs2 : List Blk}
    (hk1 : Keeps g1 h bs h1 bs1) (hk2 : Keeps g2 h1 bs1 h2 bs2) : Keeps (g1 ++ g2) h bs h2 bs2 := by
  refine ⟨hk2.sound, hk2.heapBase.trans hk1.heapBase, hk1.failures.trans hk2.failures, ?_, ?_⟩
  · intro b hb hu hg
    rw [mem_append, not_or] at hg
    exact hk2.blocks b (hk1.blocks b hb hu hg.1) hu hg.2
  · intro b hb hu hg x h1 h2
    rw [mem_append, not_or] at hg
    rw [hk2.bytes b (hk1.blocks b hb hu hg.1) hu hg.2 x h1 h2, hk1.bytes b hb hu hg.1 x h1 h2]

theorem Keeps.hasBlock (hs : Sound h bs) (hk : Keeps gone h bs h' bs') (hp : p ∉ gone)
    (hblock : HasBlock h p n) : HasBlock h' p n ∧ ∀ x < n, h'.mem (p + x) = h.mem (p + x) := by
  obtain ⟨b, hb, hu, rfl, hle⟩ := (hs.rep.hasBlock_iff p n).mp hblock
  refine ⟨(hk.sound.rep.hasBlock_iff _ _).mpr ⟨b, hk.blocks b hb hu hp, hu, rfl, hle⟩, ?_⟩
  intro x hx
  apply hk.bytes b hb hu hp
  · omega
  · simp only [Blk.ptr, Blk.fin]
    omega

theorem Keeps.live (hs : Sound h bs) (hk : Keeps gone h bs h' bs') {l : Nat} (hp : p ∉ gone)
    (hlive : Live h p l) : Live h' p l ∧ ∀ x < l, h'.mem (p + x) = h.mem (p + x) := by
  obtain ⟨b, hb, hu, rfl, rfl⟩ := (hs.rep.live_iff p l).mp hlive
  refine ⟨(hk.sound.rep.live_iff _ _).mpr ⟨b, hk.blocks b hb hu hp, hu, rfl, rfl⟩, ?_⟩
  intro x hx
  apply hk.bytes b hb hu hp
  · omega
  · simp only [Blk.ptr, Blk.fin]
    omega

theorem Yields.keeps_of (hy : Yields h bs h' bs' l) (hn : joins.Normal bs')
    (hblocks : ∀ b ∈ bs, b.free = false → b.ptr ∉ gone → b ∈ bs') : Keeps gone h bs h' bs' := by
  refine ⟨⟨hy.rep, hn⟩, hy.heapBase, ?_, hblocks, fun b hb hu _ => hy.keeps b hb hu⟩
  unfold Heap.failures
  rw [hy.log, countP_append]
  omega

theorem Yields.failures (hy : Yields h bs h' bs' l) :
    Heap.failures h' = Heap.failures h + l.countP fun
      | .mallocNoFit _ => true
      | _ => false := by
  unfold Heap.failures
  rw [hy.log, countP_append]

theorem Keeps.put (hk : Keeps gone h bs h' bs') (hc : c ∈ bs')
    (hout : ∀ x, x < c.ptr ∨ c.fin ≤ x → m x = h'.mem x)
    (hother : ∀ b ∈ bs, b.free = false → b.ptr ∉ gone → b.ptr ≠ c.ptr) :
    Keeps gone h bs { h' with mem := m } bs' := by
  refine ⟨⟨hk.sound.rep.payload fun x hx => hout x (hx c hc), hk.sound.normal⟩, hk.heapBase,
    hk.failures, hk.blocks, ?_⟩
  intro b hb hu hg x h1 h2
  refine (hout x ?_).trans (hk.bytes b hb hu hg x h1 h2)
  have := hk.sound.rep.fits.apart (hk.blocks b hb hu hg) hc fun he => hother b hb hu hg (he ▸ rfl)
  simp only [Blk.ptr, Blk.fin] at *
  omega

theorem Keeps.fill (hk : Keeps [p] h bs h' bs')
    (hused : (used bs').Perm (q :: (used bs).filter (· ≠ p))) (hc : c ∈ bs') (hcp : c.ptr = q)
    (hout : ∀ x, x < c.ptr ∨ c.fin ≤ x → m x = h'.mem x) :
    Keeps [p] h bs { h' with mem := m } bs' := by
  refine hk.put hc hout fun b hb hu hg heq => ?_
  have hnodup := hused.nodup_iff.mp hk.sound.rep.fits.used_nodup
  apply (nodup_cons.mp hnodup).1
  rw [← hcp, ← heq]
  exact mem_filter.mpr ⟨mem_used.mpr ⟨b, hb, hu, rfl⟩, by simpa using hg⟩

theorem Keeps.putBelow (hk : Keeps gone h bs h' bs')
    (hout : ∀ x, h'.heapBase ≤ x → m x = h'.mem x) : Keeps gone h bs { h' with mem := m } bs' := by
  have hr := hk.sound.rep
  refine ⟨⟨⟨hr.first, hr.laid.congr ?_, hr.fits, hr.top, hr.valid⟩, hk.sound.normal⟩, hk.heapBase,
    hk.failures, hk.blocks, ?_⟩
  · intro b hb
    have hlow := (hr.fits.bounds hb).1
    apply block_congr
    intro x h1 _
    exact hout x (by omega)
  · intro b hb hu hg x h1 h2
    have hlow := (hr.fits.bounds (hk.blocks b hb hu hg)).1
    refine (hout x ?_).trans (hk.bytes b hb hu hg x h1 h2)
    simp only [Blk.ptr] at h1
    omega

section Calls

variable {h : Heap} {bs : List Blk} (hs : Sound h bs)

include hs

theorem malloc_cases (n : Nat) :
    ∃ p h' bs', h.malloc n = some (p, h') ∧ Keeps [] h bs h' bs' ∧
      ((p = 0 ∧ bs' = bs ∧ failures h < failures h' ∧ ¬ Room n bs) ∨
        (p ≠ 0 ∧ failures h' = failures h ∧ (used bs').Perm (p :: used bs) ∧
          (∃ c ∈ bs', c.ptr = p ∧ c.free = false ∧ n ≤ c.len) ∧
          ∀ r, 0 < r → Room (n + headerSize + r) bs → Room r bs')) := by
  obtain ⟨h', hm, hy⟩ := malloc_spec hs.rep n
  have hfits := hs.rep.fits
  refine ⟨_, h', _, hm, hy.keeps_of (hfits.allot_normal hs.normal) ?_, ?_⟩
  · exact fun b hb hu _ => hfits.mem_allot hb (Or.inl hu)
  · have hlog := hy.failures
    unfold mallocLog at hlog
    by_cases h0 : (allot n bs).1 = 0
    · left
      rw [if_pos h0] at hlog
      refine ⟨h0, by rw [hfits.allot_zero h0], ?_, fun hroom => allot_room hroom (le_refl n) h0⟩
      rw [hlog]
      simp
    · right
      rw [if_neg h0] at hlog
      obtain ⟨c, hc, hcp, hcf, hcn, -⟩ := hfits.allot_block h0
      exact ⟨h0, by simpa using hlog, hfits.used_allot h0, ⟨c, hc, hcp, hcf, hcn⟩,
        fun r hr hroom => hroom.allot hfits hr⟩

theorem malloc_room (hm : h.malloc n = some (p, h')) (hp : p ≠ 0) : Room n bs := by
  obtain ⟨h1, hm1, -⟩ := malloc_spec hs.rep n
  rw [hm1] at hm
  cases hm
  obtain ⟨b, hb, -, hfree, hlen⟩ := hs.rep.fits.allot_free hp
  exact ⟨b, hb, hfree, hlen⟩

theorem free_keeps (p : Nat) :
    ∃ h', h.free p = some h' ∧ Keeps [p] h bs h' (freed p bs) ∧ failures h' = failures h := by
  obtain ⟨h', hm, hy⟩ := free_spec hs.rep hs.normal p
  refine ⟨h', hm, hy.keeps_of (joins.norm_normal _) ?_, ?_⟩
  · exact fun b hb hu hp => mem_freed hb hu (by simpa using hp)
  · rw [hy.failures]
    unfold freeLog
    split_ifs <;> rfl

theorem realloc_cases (hb : b ∈ bs) (hused : b.free = false) (hn : 0 < n) :
    ∃ q h' bs', h.realloc b.ptr n = some (q, h') ∧
      ((q = 0 ∧ bs' = bs ∧ Keeps [] h bs h' bs' ∧ failures h < failures h' ∧ b.len < n ∧
          ¬ Room n bs) ∨
        (q ≠ 0 ∧ Keeps [b.ptr] h bs h' bs' ∧ failures h' = failures h ∧
          (used bs').Perm (q :: (used bs).filter (· ≠ b.ptr)) ∧
          (∀ i < b.len, h'.mem (q + i) = h.mem (b.ptr + i)) ∧ (b.len < n → Room n bs) ∧
          (∃ c ∈ bs', c.ptr = q ∧ c.free = false ∧ n ≤ c.len ∧
            (n ≤ b.len → c.len = n ∧ q = b.ptr)) ∧
          ∀ r, 0 < r → Room (n + headerSize + r) bs → Room r bs')) := by
  have hfits := hs.rep.fits
  have hptr : b.ptr ≠ 0 := by simp [Blk.ptr]
  obtain ⟨h', hm, hy⟩ := realloc_spec hs.rep hs.normal b.ptr n
  have hlog := hy.failures
  have hfind := hfits.find_ptr hb
  simp only [reallot, reallocLog, if_neg hptr, if_neg (Nat.ne_of_gt hn), hfind] at hm hy hlog
  by_cases hle : n ≤ b.len
  · -- The block stays where it is and only its length is set.
    simp only [if_pos hle] at hm hy hlog
    refine ⟨_, h', bs.map (resize b.ptr n), hm,
      Or.inr ⟨hptr, ?_, by simpa using hlog, ?_, ?_, by omega, ?_, ?_⟩⟩
    · refine hy.keeps_of (map_resize_normal hs.normal) ?_
      intro c hc _ hne
      rw [mem_singleton] at hne
      exact List.mem_map.mpr ⟨c, hc, by rw [resize, if_neg hne]⟩
    · rw [used_resize]
      exact perm_filter_ne hfits.used_nodup (mem_used.mpr ⟨b, hb, hused, rfl⟩)
    · intro i hi
      refine hy.keeps b hb hused _ (by omega) ?_
      simp only [Blk.ptr, Blk.fin]
      omega
    · have hmem : ⟨b.addr, n, b.free⟩ ∈ bs.map (resize b.ptr n) :=
        List.mem_map.mpr ⟨b, hb, by rw [resize, if_pos rfl]⟩
      exact ⟨_, hmem, rfl, hused, le_refl n, fun _ => ⟨rfl, rfl⟩⟩
    · rintro r - ⟨c, hc, hfree, hlen⟩
      refine Room.resize ⟨c, hc, hfree, by omega⟩ fun d hd hp => ?_
      rw [hfits.eq_of_ptr hb hd hp, hused]
  · simp only [if_neg hle] at hm hy hlog
    by_cases h0 : (allot n bs).1 = 0
    · simp only [if_pos h0] at hm hy hlog
      refine ⟨_, h', bs, hm, .inl ⟨rfl, rfl, hy.keeps_of hs.normal fun c hc _ _ => hc, ?_,
        by omega, fun hroom => allot_room hroom (le_refl n) h0⟩⟩
      rw [hlog]
      simp
    · simp only [if_neg h0] at hm hy hlog
      obtain ⟨pre, post, hbs⟩ := append_of_mem hb
      obtain ⟨h2, hm2, -, hcopy, -⟩ := realloc_grow hs.rep hbs hs.normal (by omega) h0
      obtain rfl : h' = h2 := by
        rw [hm] at hm2
        simpa using hm2
      obtain ⟨c, hc, hcp, hcf, hcn, hapart⟩ := hfits.allot_block h0
      have hb1 := hfits.mem_allot hb (Or.inr (by omega : b.len < n))
      have hcb : c.ptr ≠ b.ptr := by
        have := hapart b hb (Or.inl hused)
        simp only [Blk.ptr, Blk.fin, headerSize] at *
        omega
      refine ⟨_, h', freed b.ptr (allot n bs).2, hm,
        Or.inr ⟨h0, ?_, by simpa using hlog, ?_, hcopy hused, ?_, ?_,
          fun r hr hroom => (hroom.allot hfits hr).freed b.ptr⟩⟩
      · refine hy.keeps_of (joins.norm_normal _) ?_
        intro d hd hu hne
        exact mem_freed (hfits.mem_allot hd (Or.inl hu)) hu (by simpa using hne)
      · rw [used_freed]
        refine ((hfits.used_allot h0).filter _).trans ?_
        rw [filter_cons_of_pos (by rw [← hcp]; simpa using hcb)]
      · intro _
        obtain ⟨d, hd, -, hfree, hlen⟩ := hfits.allot_free h0
        exact ⟨d, hd, hfree, hlen⟩
      · refine ⟨c, mem_freed hc hcf hcb, hcp, hcf, hcn, ?_⟩
        intro hn'
        omega

theorem realloc_bytes (hb : b ∈ bs) (hm : h.realloc b.ptr n = some (q, h')) (hn : b.len < n)
    (hq : q ≠ 0) :
    ∃ d, bestBlock n bs = some d ∧ q = d.ptr ∧
      ∀ i < n, b.len ≤ i → h'.mem (q + i) = h.mem (q + i) := by
  have hptr : b.ptr ≠ 0 := by simp [Blk.ptr]
  have h0 : (allot n bs).1 ≠ 0 := by
    intro h0
    obtain ⟨h1, hm1, -⟩ := realloc_spec hs.rep hs.normal b.ptr n
    simp only [reallot, if_neg hptr, if_neg (by omega : n ≠ 0), hs.rep.fits.find_ptr hb,
      if_neg (Nat.not_le.mpr hn), if_pos h0, hm] at hm1
    cases hm1
    exact hq rfl
  obtain ⟨pre, post, hbs⟩ := append_of_mem hb
  obtain ⟨h1, hm1, -, -, d, hd, hdp, hsame⟩ := realloc_grow hs.rep hbs hs.normal hn h0
  rw [hm] at hm1
  cases hm1
  rw [hdp]
  exact ⟨d, hd, rfl, hsame⟩

end Calls

/-! ## One `malloc` after another -/

/-- `k` calls of `malloc(n)`, with nothing between them, all succeed. -/
def Serves (n : Nat) : Nat → Heap → Prop
  | 0, _ => True
  | k + 1, h => ∃ p h', h.malloc n = some (p, h') ∧ p ≠ 0 ∧ Serves n k h'

theorem Serves.of_room {k : Nat} (hs : Sound h bs) (hroom : Room (k * (n + headerSize) + 1) bs) :
    Serves n k h := by
  induction k generalizing h bs with
  | zero => trivial
  | succ k ih =>
    obtain ⟨p, h', bs', hm, hk, hcase⟩ := malloc_cases hs n
    have hsum : n + headerSize + (k * (n + headerSize) + 1) ≤ (k + 1) * (n + headerSize) + 1 := by
      rw [Nat.succ_mul]
      omega
    rcases hcase with ⟨-, -, -, hno⟩ | ⟨hp, -, -, -, hrest⟩
    · exact absurd (hroom.mono (by omega)) hno
    · exact ⟨p, h', hm, hp, ih hk.sound (hrest _ (by omega) (hroom.mono hsum))⟩

/-- The pointers are blocks in use of `n` bytes at least. -/
def Owns (bs : List Blk) (n : Nat) (ptrs : List Nat) : Prop :=
  ∀ p ∈ ptrs, ∃ b ∈ bs, b.free = false ∧ b.ptr = p ∧ n ≤ b.len

theorem Owns.malloc {ptrs : List Nat} (howns : Owns bs n ptrs) (hs : Sound h bs)
    (hm : h.malloc n = some (p, h')) (hp : p ≠ 0) :
    p ∉ ptrs ∧ ∃ bs', Sound h' bs' ∧ Owns bs' n (p :: ptrs) := by
  obtain ⟨p', h1, bs', hm', hk, hcase⟩ := malloc_cases hs n
  obtain ⟨rfl, rfl⟩ : p = p' ∧ h' = h1 := by
    rw [hm] at hm'
    simpa using hm'
  rcases hcase with ⟨h0, -⟩ | ⟨-, -, hperm, ⟨c, hc, hcp, hcf, hcn⟩, -⟩
  · exact absurd h0 hp
  refine ⟨?_, bs', hk.sound, ?_⟩
  · intro hin
    obtain ⟨b, hb, hfree, hptr, -⟩ := howns p hin
    have hnodup := hperm.nodup_iff.mp hk.sound.rep.fits.used_nodup
    exact (nodup_cons.mp hnodup).1 (mem_used.mpr ⟨b, hb, hfree, hptr⟩)
  · unfold Owns
    rw [forall_mem_cons]
    refine ⟨⟨c, hc, hcf, hcp, hcn⟩, ?_⟩
    intro q hq
    obtain ⟨b, hb, hfree, hptr, hlen⟩ := howns q hq
    exact ⟨b, hk.blocks b hb hfree not_mem_nil, hfree, hptr, hlen⟩

end Terrakernel.Heap
