import Mathlib.Data.Nat.Bitwise
import Terrakernel.Heap.Others
import Terrakernel.Lib.Align

/-!
# `malloc_aligned`

What is handed out lies a header behind the aligned address.
-/

namespace Terrakernel.Heap

open Memory Vmm Coalesce Align Option
open List hiding Mem

variable {k n a : Nat} {pre bs post : List Blk} {b : Blk} {h : Heap} {m1 : Mem}

/-! ## Addresses -/

theorem alignment_lt (hk : k < 64) : 2 ^ k < word := Nat.pow_lt_pow_right (by decide) hk

theorem padding_eq {rawAddr : Nat} (hk : k < 64) (h : rawAddr < word) :
    (alignedAddr rawAddr (2 ^ k) + word - rawAddr) % word = gap (2 ^ k) rawAddr := by
  have hpos := Nat.two_pow_pos k
  have hlt := alignment_lt hk
  have hgap := gap_lt hpos rawAddr
  have hadd := add_gap hpos rawAddr
  have hmask : (2 ^ k + word - 1) % word = 2 ^ k - 1 := by
    rw [show 2 ^ k + word - 1 = 2 ^ k - 1 + word by omega, Nat.add_mod_right]
    exact Nat.mod_eq_of_lt (by omega)
  obtain ⟨x, hx⟩ : ∃ x, (rawAddr + 2 ^ k + word - 1) % word = x := ⟨_, rfl⟩
  have hxlt : x < word := hx ▸ Nat.mod_lt _ (by decide)
  rw [alignedAddr, hmask, hx, show word = 2 ^ 64 from rfl, and_not_mask hxlt (Nat.le_of_lt hk)]
  rw [show rawAddr + 2 ^ k + word - 1 = rawAddr + 2 ^ k - 1 + word by omega, Nat.add_mod_right] at hx
  rcases Nat.lt_or_ge (rawAddr + 2 ^ k - 1) word with hsum | hsum
  · rw [Nat.mod_eq_of_lt hsum] at hx
    rw [hx] at hadd
    rw [← hadd, show rawAddr + gap (2 ^ k) rawAddr + 2 ^ 64 - rawAddr =
      gap (2 ^ k) rawAddr + 2 ^ 64 by omega, Nat.add_mod_right]
    exact Nat.mod_eq_of_lt (hgap.trans hlt)
  · -- The sum wraps, and with it the aligned address.
    rw [Nat.mod_eq_sub_mod hsum, Nat.mod_eq_of_lt (by omega)] at hx
    have hpow : word = 2 ^ k * 2 ^ (64 - k) := by
      rw [← Nat.pow_add, Nat.add_sub_cancel' (Nat.le_of_lt hk)]
    have hround : (rawAddr + 2 ^ k - 1) / 2 ^ k * 2 ^ k = x / 2 ^ k * 2 ^ k + word := by
      rw [show rawAddr + 2 ^ k - 1 = x + word by omega, hpow, Nat.add_mul_div_left _ _ hpos,
        Nat.add_mul, Nat.mul_comm (2 ^ (64 - k))]
    rw [show x / 2 ^ k * 2 ^ k + 2 ^ 64 - rawAddr = gap (2 ^ k) rawAddr by
      simp only [word] at hround; omega]
    exact Nat.mod_eq_of_lt (hgap.trans hlt)

theorem alignment_test (hk : k < 64) : 2 ^ k &&& (2 ^ k + word - 1) % word = 0 := by
  have hpos := Nat.two_pow_pos k
  have hlt := alignment_lt hk
  rw [show 2 ^ k + word - 1 = 2 ^ k - 1 + word by omega, Nat.add_mod_right,
    Nat.mod_eq_of_lt (by omega), Nat.and_two_pow_sub_one_eq_mod, Nat.mod_self]

/-! ## On the list -/

/-- What the best block becomes. -/
def alignedCut (n a : Nat) (b : Blk) : List Blk :=
  if gap a b.ptr = 0 then carve n b
  else ⟨b.addr, gap a b.ptr, true⟩ ::
    carve n ⟨b.addr + headerSize + gap a b.ptr, b.len - gap a b.ptr - headerSize, true⟩

/-- What is handed out of it. -/
def alignedPtr (a : Nat) (b : Blk) : Nat :=
  if gap a b.ptr = 0 then b.ptr else b.ptr + gap a b.ptr + headerSize

theorem alignedCut_normal (hn : joins.Normal (pre ++ b :: post)) (hfree : b.free = true) :
    joins.Normal (pre ++ (alignedCut n a b ++ post)) := by
  have hflag : joins.free b = true := hfree
  unfold alignedCut
  split_ifs with h0
  · exact carve_normal hn hfree
  · rw [joins.normal_iff_map, map_append, map_cons, hflag] at hn
    have hleft : joins.Normal (pre ++ [⟨b.addr, gap a b.ptr, true⟩]) := by
      rw [joins.normal_iff_map, map_append]
      exact (isChain_split.mp hn).1
    have hright : joins.Normal ([] ++
        ⟨b.addr + headerSize + gap a b.ptr, b.len - gap a b.ptr - headerSize, true⟩ :: post) := by
      rw [joins.normal_iff_map]
      exact (isChain_split.mp hn).2
    have hrest := carve_normal (n := n) hright rfl
    obtain ⟨c, cs, hcarve, -, hused, -⟩ := carve_cons n
      ⟨b.addr + headerSize + gap a b.ptr, b.len - gap a b.ptr - headerSize, true⟩
    rw [hcarve] at hrest ⊢
    refine isChain_split.mpr ⟨hleft, .cons_cons ?_ hrest⟩
    rintro ⟨-, hc⟩
    have hc' : c.free = true := hc
    rw [hused] at hc'
    exact absurd hc' (by decide)

theorem carve_len_iff (n : Nat) (b : Blk) :
    ∃ c ∈ carve n b, c.ptr = b.ptr ∧ c.free = false ∧ (n ≤ c.len ↔ n ≤ b.len) := by
  unfold carve
  split_ifs with hc
  · exact ⟨_, mem_cons_self, rfl, rfl, iff_of_true (le_refl n) (by omega)⟩
  · exact ⟨_, mem_cons_self, rfl, rfl, Iff.rfl⟩

theorem alignedCut_block (hroom : 0 < gap a b.ptr → gap a b.ptr + headerSize < b.len) :
    ∃ c ∈ alignedCut n a b, c.ptr = alignedPtr a b ∧ c.free = false ∧
      (n ≤ c.len ↔ if gap a b.ptr = 0 then n ≤ b.len else n + gap a b.ptr + headerSize ≤ b.len) := by
  unfold alignedCut alignedPtr
  split_ifs with h0
  · exact carve_len_iff n b
  · obtain ⟨c, hc, hptr, hcf, hiff⟩ := carve_len_iff n
      ⟨b.addr + headerSize + gap a b.ptr, b.len - gap a b.ptr - headerSize, true⟩
    have hlt := hroom (Nat.pos_of_ne_zero h0)
    refine ⟨c, mem_cons_of_mem _ hc, hptr, hcf, hiff.trans ?_⟩
    simp only
    omega

theorem alignedPtr_dvd (ha : 0 < a) : a ∣ alignedPtr a b ↔ a ∣ b.ptr ∨ a ∣ headerSize := by
  have hdvd := dvd_add_gap ha b.ptr
  unfold alignedPtr
  split_ifs with h0
  · rw [gap_eq_zero ha] at h0
    exact iff_of_true h0 (Or.inl h0)
  · rw [gap_eq_zero ha] at h0
    rw [Nat.dvd_add_right hdvd]
    simp [h0]

section Spec

variable {h : Heap} {bs : List Blk} {n k : Nat} (hr : Rep h bs)

include hr

theorem Rep.take_tailSplit (hbs : bs = pre ++ b :: post)
    (hm1 : m1 = if n + headerSize < length h.mem b.addr then Heap.tailSplit h.mem b.addr n else h.mem) :
    Rep { h with mem := setFree m1 b.addr false } (pre ++ (carve n b ++ post)) ∧
      base (setFree m1 b.addr false) b.addr = b.ptr ∧
      KeepsOthers b bs h.mem (setFree m1 b.addr false) := by
  have hfin := hr.fin_le (b := b) (by simp [hbs])
  have hlen := hr.length_at (b := b) (by simp [hbs])
  have hsplit : m1 = if n + headerSize < b.len then Heap.split h.mem b.addr n else h.mem := by
    rw [hm1, hlen]
    split_ifs with hc
    · apply tailSplit_eq
      simp only [Blk.fin] at hfin
      omega
    · rfl
  obtain ⟨hrep, hbase, hkeeps, -⟩ := hr.take hbs hsplit rfl
  exact ⟨hrep, hbase, hkeeps⟩

theorem Rep.take_padded (hbs : bs = pre ++ b :: post) (hfree : b.free = true) {pad p : Nat}
    (hp : p = b.addr + headerSize + pad) (hlt : pad + headerSize < b.len) {m : Mem}
    (hm : m = Heap.split h.mem b.addr pad)
    (hm1 : m1 = if n + headerSize < length m p then Heap.tailSplit m p n else m) :
    Rep { h with mem := setFree m1 p false }
        (pre ++ ⟨b.addr, pad, true⟩ :: (carve n ⟨p, b.len - pad - headerSize, true⟩ ++ post)) ∧
      base (setFree m1 p false) p = p + headerSize ∧ KeepsUsed bs h.mem (setFree m1 p false) := by
  have hrep1 := hr.split hbs hlt
  have hothers := hr.split_others hbs hlt
  rw [hfree, ← hm, ← hp] at hrep1
  rw [← hm] at hothers
  obtain ⟨hrep2, hbase, hkeeps⟩ := hrep1.take_tailSplit (b := ⟨p, b.len - pad - headerSize, true⟩)
    (append_cons pre _ _) hm1
  refine ⟨by simpa using hrep2, hbase, ?_⟩
  intro c hc hused x h1 h2
  have hcb : c ≠ b := by
    rintro rfl
    rw [hused] at hfree
    exact absurd hfree (by decide)
  have hc1 : c ∈ pre ++ ⟨b.addr, pad, true⟩ :: ⟨p, b.len - pad - headerSize, true⟩ :: post := by
    rw [hbs, mem_append, mem_cons] at hc
    rcases hc with hc | hc | hc
    · exact mem_append_left _ hc
    · exact absurd hc hcb
    · exact mem_append_right _ (mem_cons_of_mem _ (mem_cons_of_mem _ hc))
  have hcd : c ≠ ⟨p, b.len - pad - headerSize, true⟩ := by
    rintro rfl
    exact absurd hused (by simp)
  exact (hkeeps c hc1 hcd x h1 h2).trans (hothers c hc hcb x h1 h2)

theorem mallocAligned_none (hk : k < 64) (hb : bestBlock ((n + 2 ^ k) % word) bs = none) :
    h.mallocAligned n (2 ^ k) = some (0, h.errf (.mallocAlignedNoFit n)) := by
  unfold mallocAligned
  rw [alignment_test hk, if_neg (by simp), hr.bestFit, hb]
  rfl

theorem mallocAligned_found (hk : k < 64) (hb : bestBlock ((n + 2 ^ k) % word) bs = some b) :
    0 < gap (2 ^ k) b.ptr ∧ b.len ≤ gap (2 ^ k) b.ptr + headerSize ∧
        h.mallocAligned n (2 ^ k) = some (0, h) ∨
      (0 < gap (2 ^ k) b.ptr → gap (2 ^ k) b.ptr + headerSize < b.len) ∧
        ∃ m best m1,
          m = (if 0 < gap (2 ^ k) b.ptr then Heap.split h.mem b.addr (gap (2 ^ k) b.ptr) else h.mem) ∧
          best = (if 0 < gap (2 ^ k) b.ptr then b.addr + headerSize + gap (2 ^ k) b.ptr else b.addr) ∧
          m1 = (if (n + headerSize) % word < length m best then Heap.tailSplit m best n else m) ∧
          h.mallocAligned n (2 ^ k) =
            some (base (setFree m1 best false) best, { h with mem := setFree m1 best false }) := by
  obtain ⟨hmem, -, -⟩ := bestBlock_some hb
  have hlen := hr.length_at hmem
  have hbase := hr.base_at hmem
  obtain ⟨haddr, hptr⟩ := hr.valid b hmem
  have hfin := hr.fin_le hmem
  have hgap := (gap_lt (Nat.two_pow_pos k) b.ptr).trans_le
    (Nat.pow_le_pow_right (by decide) (Nat.le_of_lt_succ hk))
  have hwrap : (gap (2 ^ k) b.ptr + headerSize) % word = gap (2 ^ k) b.ptr + headerSize :=
    Nat.mod_eq_of_lt (by simp only [headerSize, word]; omega)
  have hmalloc : h.mallocAligned n (2 ^ k) =
      if gap (2 ^ k) b.ptr > 0 ∧ b.len ≤ gap (2 ^ k) b.ptr + headerSize then some (0, h)
      else
        let m := if gap (2 ^ k) b.ptr > 0 then padSplit h.mem b.addr (gap (2 ^ k) b.ptr) else h.mem
        let best :=
          if gap (2 ^ k) b.ptr > 0 then (b.addr + headerSize + gap (2 ^ k) b.ptr) % word else b.addr
        let m := if (n + headerSize) % word < length m best then Heap.tailSplit m best n else m
        some (base (setFree m best false) best, { h with mem := setFree m best false }) := by
    unfold mallocAligned
    rw [alignment_test hk, if_neg (by simp), hr.bestFit, hb]
    simp only [bind_eq_bind, bind_some, addrOf, map_some, getD_some]
    rw [if_neg (by omega), hbase, padding_eq hk hptr, hlen, hwrap]
  rw [hmalloc]
  generalize gap (2 ^ k) b.ptr = pad
  by_cases hshort : 0 < pad ∧ b.len ≤ pad + headerSize
  · exact .inl ⟨hshort.1, hshort.2, if_pos hshort⟩
  · have hroom : 0 < pad → pad + headerSize < b.len := fun hpos =>
      Nat.lt_of_not_le fun hle => hshort ⟨hpos, hle⟩
    have hplace : 0 < pad → b.addr + headerSize + pad < word := fun hpos => by
      have := hroom hpos
      simp only [Blk.fin, headerSize] at *
      omega
    right
    rw [if_neg hshort]
    refine ⟨hroom, _, _, _, rfl, rfl, rfl, ?_⟩
    rcases Nat.eq_zero_or_pos pad with rfl | hpos
    · rfl
    · simp only [hpos, if_true, padSplit_eq (hplace hpos), Nat.mod_eq_of_lt (hplace hpos)]

theorem mallocAligned_cases (hk : k < 64) (hn : n + headerSize < word) :
    (h.mallocAligned n (2 ^ k) = some (0, h.errf (.mallocAlignedNoFit n)) ∧
        bestBlock ((n + 2 ^ k) % word) bs = none) ∨
      ∃ pre b post, bs = pre ++ b :: post ∧ bestBlock ((n + 2 ^ k) % word) bs = some b ∧
        (0 < gap (2 ^ k) b.ptr ∧ b.len ≤ gap (2 ^ k) b.ptr + headerSize ∧
            h.mallocAligned n (2 ^ k) = some (0, h) ∨
          (0 < gap (2 ^ k) b.ptr → gap (2 ^ k) b.ptr + headerSize < b.len) ∧
            ∃ m', h.mallocAligned n (2 ^ k) = some (alignedPtr (2 ^ k) b, { h with mem := m' }) ∧
              Rep { h with mem := m' } (pre ++ (alignedCut n (2 ^ k) b ++ post)) ∧
              KeepsUsed bs h.mem m') := by
  cases hb : bestBlock ((n + 2 ^ k) % word) bs with
  | none => exact .inl ⟨mallocAligned_none hr hk hb, rfl⟩
  | some b =>
    right
    obtain ⟨hmem, hfree, -⟩ := bestBlock_some hb
    obtain ⟨pre, post, hbs⟩ := append_of_mem hmem
    refine ⟨pre, b, post, hbs, rfl, (mallocAligned_found hr hk hb).imp_right ?_⟩
    rintro ⟨hroom, m, best, m1, hm, hbest, hm1, he⟩
    refine ⟨hroom, setFree m1 best false, ?_⟩
    rw [he]
    rw [Nat.mod_eq_of_lt hn] at hm1
    unfold alignedPtr alignedCut
    obtain ⟨pad, hpad⟩ : ∃ pad, pad = gap (2 ^ k) b.ptr := ⟨_, rfl⟩
    rw [← hpad] at hm hbest hroom ⊢
    rcases Nat.eq_zero_or_pos pad with rfl | hpos
    · -- The block is aligned as it stands.
      obtain rfl : m = h.mem := hm
      obtain rfl : best = b.addr := hbest
      obtain ⟨hrep, hbase, hkeeps⟩ := hr.take_tailSplit hbs hm1
      rw [hbase]
      exact ⟨rfl, hrep, hkeeps.used hfree⟩
    · rw [if_pos hpos] at hm hbest
      obtain ⟨hrep, hbase, hkeeps⟩ := hr.take_padded hbs hfree hbest (hroom hpos) hm hm1
      rw [if_neg (Nat.ne_of_gt hpos), if_neg (Nat.ne_of_gt hpos), hbase,
        show b.ptr + pad = best from hbest.symm, ← hbest]
      exact ⟨rfl, hrep, hkeeps⟩

end Spec

/-! ## Other alignments -/

theorem mallocAligned_zero (hr : Rep h bs) (hn : n < word) :
    h.mallocAligned n 0 = some (0, h) ∨
      h.mallocAligned n 0 = some (0, h.errf (.mallocAlignedNoFit n)) := by
  have hzero : ∀ p, alignedAddr p 0 = 0 := by
    intro p
    simp [alignedAddr]
  unfold mallocAligned
  rw [Nat.zero_and, if_neg (by simp), Nat.add_zero, Nat.mod_eq_of_lt hn, hr.bestFit]
  cases hb : bestBlock n bs with
  | none => exact .inr rfl
  | some b =>
    left
    obtain ⟨hmem, -⟩ := bestBlock_some hb
    have hlen := hr.length_at hmem
    have hbase := hr.base_at hmem
    obtain ⟨haddr, hptr⟩ := hr.valid b hmem
    have hfin := hr.fin_le hmem
    simp only [bind_eq_bind, bind_some, addrOf, map_some, getD_some]
    simp only [Blk.fin, Blk.ptr, headerSize] at hfin hptr
    have hpad : (0 + word - b.ptr) % word = word - b.ptr := by
      rw [Nat.zero_add]
      apply Nat.mod_eq_of_lt
      simp only [Blk.ptr, headerSize]
      omega
    have hwrap : (word - b.ptr + headerSize) % word = word - b.ptr + headerSize := by
      apply Nat.mod_eq_of_lt
      simp only [Blk.ptr, headerSize]
      omega
    rw [if_neg (by omega), hbase, hzero, hpad, hlen, hwrap, if_pos]
    simp only [Blk.ptr, headerSize]
    omega

theorem alignedCut_keeps {m' : Mem} (hs : Sound h bs) (hbs : bs = pre ++ b :: post)
    (hfree : b.free = true) (hrep : Rep { h with mem := m' } (pre ++ (alignedCut n a b ++ post)))
    (hkeeps : KeepsUsed bs h.mem m') :
    Keeps [] h bs { h with mem := m' } (pre ++ (alignedCut n a b ++ post)) := by
  have hnormal := hs.normal
  have hy : Yields h bs { h with mem := m' } (pre ++ (alignedCut n a b ++ post)) [] :=
    ⟨hrep, rfl, rfl, by simp, hkeeps⟩
  subst hbs
  refine hy.keeps_of (alignedCut_normal hnormal hfree) ?_
  intro c hc hused _
  rw [mem_append, mem_cons] at hc
  rcases hc with hc | rfl | hc
  · exact mem_append_left _ hc
  · rw [hused] at hfree
    exact absurd hfree (by decide)
  · exact mem_append_right _ (mem_append_right _ hc)

theorem mallocAligned_keeps (hs : Sound h bs) (ha : a < word)
    (hn : n + headerSize < word ∨ n + a < word) :
    ∃ p h' bs', h.mallocAligned n a = some (p, h') ∧ Keeps [] h bs h' bs' ∧
      h'.heapSize = h.heapSize := by
  have hfail : h.mallocAligned n a = some (0, h) ∨
      h.mallocAligned n a = some (0, h.errf (.mallocAlignedNoFit n)) →
      ∃ p h' bs', h.mallocAligned n a = some (p, h') ∧ Keeps [] h bs h' bs' ∧
        h'.heapSize = h.heapSize := by
    rintro (he | he)
    · exact ⟨0, h, bs, he, .refl hs, rfl⟩
    · exact ⟨0, _, bs, he, (hs.rep.errf _).keeps_of hs.normal fun _ hb _ _ => hb, rfl⟩
  by_cases htest : a &&& (a + word - 1) % word = 0
  · rcases Nat.eq_zero_or_pos a with rfl | hpos
    · exact hfail (mallocAligned_zero hs.rep (by omega))
    · rw [show a + word - 1 = a - 1 + word by omega, Nat.add_mod_right,
        Nat.mod_eq_of_lt (by omega), Nat.and_sub_one_eq_zero_iff_isPowerOfTwo (by omega)] at htest
      obtain ⟨k, rfl⟩ := htest
      have hk : k < 64 := (Nat.pow_lt_pow_iff_right (by decide)).mp ha
      by_cases hbest : bestBlock ((n + 2 ^ k) % word) bs = none
      · exact hfail (Or.inr (mallocAligned_none hs.rep hk hbest))
      have hn : n + headerSize < word := by
        -- No block is as long as a sum that does not wrap.
        refine Nat.lt_of_not_le fun hwrap => hbest (bestBlock_eq_none.mpr fun b hb _ => ?_)
        have hsum := hn.resolve_left (Nat.not_lt.mpr hwrap)
        have h1 := hs.rep.fin_le hb
        have h2 := (hs.rep.valid b hb).1
        rw [Nat.mod_eq_of_lt hsum]
        simp only [Blk.fin, headerSize] at *
        omega
      rcases mallocAligned_cases hs.rep hk hn with ⟨he, -⟩ | ⟨pre, b, post, hbs, hb, hcase⟩
      · exact hfail (Or.inr he)
      · rcases hcase with ⟨-, -, he⟩ | ⟨-, m', he, hrep, hkeeps⟩
        · exact hfail (Or.inl he)
        · exact ⟨_, _, _, he, alignedCut_keeps hs hbs (bestBlock_some hb).2.1 hrep hkeeps, rfl⟩
  · refine hfail (Or.inl ?_)
    unfold mallocAligned
    rw [if_pos htest]

/-! ## Reachable heaps -/

/-- What calls and stores to blocks in use make of a heap. A `malloc_aligned` whose sums both wrap is
left out: it writes the new header over that of the block it found. -/
inductive Reachable (h0 : Heap) : Heap → Prop
  | start : Reachable h0 h0
  | call {h h' : Heap} {p : Nat} (c : Call) (hreach : Reachable h0 h)
      (hexec : c.exec h = some (p, h')) : Reachable h0 h'
  | aligned {h h' : Heap} {n a p : Nat} (hreach : Reachable h0 h) (ha : a < word)
      (hn : n + headerSize < word ∨ n + a < word)
      (hexec : h.mallocAligned n a = some (p, h')) : Reachable h0 h'
  | store {h : Heap} {p l j : Nat} (v : Byte) (hreach : Reachable h0 h) (hlive : Live h p l)
      (hj : j < l) : Reachable h0 { h with mem := Function.update h.mem (p + j) v }

theorem Reachable.sound {h0 : Heap} (hs : Sound h0 bs) (hreach : Reachable h0 h) :
    ∃ bs', Sound h bs' ∧ h.heapBase = h0.heapBase ∧ h.heapSize = h0.heapSize := by
  induction hreach with
  | start => exact ⟨bs, hs, rfl, rfl⟩
  | @call h h' p c hreach hexec ih =>
    obtain ⟨bs1, hs1, hb, hz⟩ := ih
    obtain ⟨h1, he, hs2, hb', hz'⟩ := exec_spec hs1 c
    obtain rfl : h1 = h' := by simpa using congrArg (Option.map Prod.snd) (he.symm.trans hexec)
    exact ⟨_, hs2, hb'.trans hb, hz'.trans hz⟩
  | @aligned h h' n a p hreach ha hn hexec ih =>
    obtain ⟨bs1, hs1, hb, hz⟩ := ih
    obtain ⟨q, h1, bs2, he, hk, hz'⟩ := mallocAligned_keeps hs1 ha hn
    obtain rfl : h1 = h' := by simpa using congrArg (Option.map Prod.snd) (he.symm.trans hexec)
    exact ⟨bs2, hk.sound, hk.heapBase.trans hb, hz'.trans hz⟩
  | @store h p l j v hreach hlive hj ih =>
    obtain ⟨bs1, hs1, hb, hz⟩ := ih
    obtain ⟨c, hc, -, rfl, rfl⟩ := (hs1.rep.live_iff p l).mp hlive
    refine ⟨bs1, ⟨hs1.rep.payload fun x hx => ?_, hs1.normal⟩, hb, hz⟩
    have := hx c hc
    rw [Function.update_of_ne]
    simp only [Blk.ptr, Blk.fin] at *
    omega

/-! ## The result -/

/-- What a caller may rely on: null and the heap as it was, or an aligned block of its own. -/
def AlignedOk (n a : Nat) (h h' : Heap) (p : Nat) : Prop :=
  p = 0 ∧ h'.mem = h.mem ∧ h'.heapBase = h.heapBase ∧ h'.heapSize = h.heapSize ∨
    a ∣ p ∧ (∃ l, Live h' p l ∧ n ≤ l) ∧
      (∀ q l, q ≠ p → Live h q l → Live h' q l ∧ ∀ x < l, h'.mem (q + x) = h.mem (q + x)) ∧
      ∃ es, Separated h' es

theorem alignedOk_iff {h' : Heap} {bs' : List Blk} {c : Blk} (hs : Sound h bs)
    (hk : Keeps [] h bs h' bs') (hc : c ∈ bs') (hused : c.free = false) :
    AlignedOk n a h h' c.ptr ↔ a ∣ c.ptr ∧ n ≤ c.len := by
  have hptr : c.ptr ≠ 0 := by simp [Blk.ptr]
  constructor
  · rintro (⟨h0, -⟩ | ⟨hdvd, ⟨l, hlive, hle⟩, -⟩)
    · exact absurd h0 hptr
    · obtain ⟨d, hd, -, hdp, rfl⟩ := (hk.sound.rep.live_iff _ l).mp hlive
      rw [hk.sound.rep.fits.eq_of_ptr hc hd hdp] at hle
      exact ⟨hdvd, hle⟩
  · rintro ⟨hdvd, hle⟩
    refine .inr ⟨hdvd, ⟨c.len, ?_, hle⟩, ?_, _, hk.sound.rep.separated⟩
    · exact (hk.sound.rep.live_iff _ _).mpr ⟨c, hc, hused, rfl, rfl⟩
    · exact fun q l _ hlive => hk.live hs not_mem_nil hlive

theorem Separated.length_le {es : List (Nat × HeapBlock)} (hsep : Separated h es)
    {e : Nat × HeapBlock} (he : e ∈ es) : e.2.length + headerSize ≤ h.heapSize := by
  have hfirst : h.heapBase ≤ e.1 := by
    cases es with
    | nil => exact absurd he not_mem_nil
    | cons f fs =>
      have h1 := (hsep.first f rfl).1
      have h2 := hsep.base f mem_cons_self
      rcases mem_cons.mp he with rfl | he
      · exact Nat.le_of_eq h1.symm
      · have := rel_of_pairwise_cons hsep.disjoint he
        omega
  have hlast : e.2.base + e.2.length ≤ h.heapBase + h.heapSize := by
    rcases eq_nil_or_concat es with rfl | ⟨fs, f, rfl⟩
    · exact absurd he not_mem_nil
    · rw [concat_eq_append] at he hsep
      have h1 := (hsep.last f (by simp)).2
      rcases mem_append.mp he with hef | hef
      · have h2 := hsep.base f (by simp)
        have h3 := (pairwise_append.mp hsep.disjoint).2.2 e hef f (by simp)
        omega
      · rwa [mem_singleton.mp hef]
  have := hsep.base e he
  omega

/-- Where the size wraps, the new header lies behind the start of the block. One store goes to an
address that is read back from there. -/
theorem tailSplit_outside {m : Mem} {best new : Nat} (hnew : (best + headerSize + n) % word = new)
    (hle : best ≤ new) :
    ∃ x, ∀ y < best, (y < x ∨ x + 8 ≤ y) → Heap.tailSplit m best n y = m y := by
  have hput : ∀ (m : Mem) {c o w : Nat} (v : Nat) {y}, (y < c + o ∨ c + o + w ≤ y) →
      putField m c o w v y = m y := fun m _ _ _ v _ hy => store_outside _ _ _ _ _ hy
  unfold Heap.tailSplit
  simp only [hnew]
  generalize hm4 : setNext _ new _ = m4
  have hbefore : ∀ y < best, m4 y = m y := by
    intro y hy
    simp only [setBase, setLength, setFree, setNext] at hm4
    rw [← hm4, hput _ _ (Or.inl (by omega)), hput _ _ (Or.inl (by omega)),
      hput _ _ (Or.inl (by omega)), hput _ _ (Or.inl (by omega))]
  refine ⟨next m4 new + 24, fun y hy hx => ?_⟩
  simp only [setLength, setNext, setPrev]
  rw [hput _ _ (Or.inl (by omega)), hput _ _ (Or.inl (by omega)), hput _ _ (Or.inl (by omega))]
  split_ifs
  · rw [hput _ _ hx, hbefore y hy]
  · exact hbefore y hy

/-- A size that wraps with a header is not granted, but may be refused. -/
theorem alignedOk_of_wrap (hr : Rep h bs) (hk : k < 64) (hlt : n < word)
    (hn : word ≤ n + headerSize) (hb : bestBlock ((n + 2 ^ k) % word) bs = some b) {p : Nat}
    {h' : Heap} (he : h.mallocAligned n (2 ^ k) = some (p, h')) :
    AlignedOk n (2 ^ k) h h' p ↔ 0 < gap (2 ^ k) b.ptr ∧ b.len ≤ gap (2 ^ k) b.ptr + headerSize := by
  obtain ⟨hmem, hfree, -⟩ := bestBlock_some hb
  obtain ⟨pre, post, hbs⟩ := append_of_mem hmem
  have hat := hr.block_at pre b post hbs
  have haddr := (hr.valid b hmem).1
  have hfin := hr.fin_le hmem
  have htop := hr.top
  have hbase : 0 < h.heapBase := by
    rw [hr.first, hbs]
    cases pre with
    | nil => exact haddr
    | cons c cs => exact (hr.valid c (by simp [hbs])).1
  rcases mallocAligned_found hr hk hb with ⟨hpos, hle, he'⟩ | ⟨hroom, m, best, m1, hm, hbest, hm1, he'⟩
  · obtain ⟨rfl, rfl⟩ : 0 = p ∧ h = h' := by simpa using he'.symm.trans he
    exact iff_of_true (Or.inl ⟨rfl, rfl, rfl, rfl⟩) ⟨hpos, hle⟩
  obtain ⟨-, rfl⟩ : _ ∧ { h with mem := setFree m1 best false } = h' := by simpa using he'.symm.trans he
  refine iff_of_false ?_ fun hx => Nat.not_le.mpr (hroom hx.1) hx.2
  rintro (⟨-, hsame, -⟩ | ⟨-, ⟨l, ⟨es, e, hes, hmem', -, -, rfl⟩, hle⟩, -, es', hsep⟩)
  · dsimp only at hsame
    rcases Nat.eq_zero_or_pos (gap (2 ^ k) b.ptr) with h0 | hpos
    · rw [h0, if_neg (Nat.lt_irrefl 0)] at hbest
      have hflag : isFree (setFree m1 best false) best = true := by
        rw [hsame, hbest, isFree_eq, hat, hfree]
      rw [isFree_eq, block_setFree] at hflag
      exact absurd hflag (by simp)
    · -- The length and the link of the block have changed, and one store cannot undo both.
      have hlt' := hroom hpos
      rw [if_pos hpos] at hm hbest
      have hat' := (hr.split hbs hlt').block_at pre ⟨b.addr, _, b.free⟩ _ rfl
      obtain ⟨x, hx⟩ : ∃ x, ∀ y < best, (y < x ∨ x + 8 ≤ y) → h.mem y = m y := by
        rw [← hsame, hm1]
        split_ifs with hsplit
        · obtain ⟨x, hx⟩ := @tailSplit_outside n m best _ rfl (by
            rw [Nat.mod_eq_sub_mod (by omega), Nat.mod_eq_of_lt (by
              simp only [Blk.fin, headerSize] at *; omega)]
            omega)
          exact ⟨x, fun y hy hxy => (putField_outside _ _ (by decide) (Or.inl hy)).trans (hx y hy hxy)⟩
        · exact ⟨0, fun y hy _ => putField_outside _ _ (by decide) (Or.inl hy)⟩
      rw [← hm] at hat'
      have hfield : ∀ o, o + 8 ≤ headerSize → (∀ y, b.addr + o ≤ y → y < b.addr + o + 8 →
          y < x ∨ x + 8 ≤ y) → getField h.mem b.addr o 8 = getField m b.addr o 8 := fun o ho hy =>
        load_congr 8 _ fun y h1 h2 => hx y (by omega) (hy y h1 h2)
      rcases Nat.lt_or_ge x (b.addr + 24) with hlow | hhigh
      · have hnext : next h.mem b.addr = next m b.addr := hfield 32 (by decide) (by omega)
        rw [next_eq, next_eq, hat, hat'] at hnext
        cases post with
        | nil => exact absurd hnext (Nat.ne_of_lt (by simp only [firstAddr]; omega))
        | cons c post =>
          rw [hbs] at hr
          have hafter := hr.fits.around.2 c mem_cons_self
          simp only [firstAddr, Blk.fin] at hnext hafter
          omega
      · have hlen : length h.mem b.addr = length m b.addr := hfield 8 (by decide) (by omega)
        rw [length_eq, length_eq, hat, hat'] at hlen
        dsimp only at hlen
        omega
  · obtain rfl := some.inj (hes.symm.trans hsep.reached)
    have := hsep.length_le hmem'
    dsimp only at this
    omega

/-- The block that the search finds is aligned and long enough, or too short to be padded, or has
room for a header more than the search asked for and the alignment divides the size of that
header. -/
theorem mallocAligned_ok_iff {σ : Type} {reserveHeap : Nat → σ → Nat × σ} {m : Mem} {s s' : σ}
    {h0 h : Heap} (hinit : initialise reserveHeap m s = some (h0, s'))
    (htop : h0.heapBase + h0.heapSize ≤ word) (hreach : Reachable h0 h) {n k : Nat}
    (hn : n < word) (hk : k < 64) :
    ∃ bs p h', h.blockList = some (headers 0 bs 0) ∧ h.mallocAligned n (2 ^ k) = some (p, h') ∧
      (AlignedOk n (2 ^ k) h h' p ↔ ∀ pre b post, BestFit ((n + 2 ^ k) % word) bs pre b post →
        if 2 ^ k ∣ b.ptr then n ≤ b.len
        else b.len ≤ gap (2 ^ k) b.ptr + headerSize ∨
          2 ^ k ∣ headerSize ∧ n + gap (2 ^ k) b.ptr + headerSize ≤ b.len) := by
  obtain ⟨bs, hs, -⟩ := hreach.sound (initialise_sound hinit htop)
  have hpos := Nat.two_pow_pos k
  cases hb : bestBlock ((n + 2 ^ k) % word) bs with
  | none =>
    refine ⟨bs, 0, _, hs.rep.blockList, mallocAligned_none hs.rep hk hb,
      iff_of_true (Or.inl ⟨rfl, rfl, rfl, rfl⟩) ?_⟩
    intro pre b post hfit
    exact absurd hfit.chosen.2 (Nat.not_le.mpr (bestBlock_eq_none.mp hb b hfit.mem hfit.chosen.1))
  | some b =>
    obtain ⟨hmem, hfree, -⟩ := bestBlock_some hb
    simp only [← gap_eq_zero hpos]
    rcases Nat.lt_or_ge (n + headerSize) word with hsmall | hwrap
    · rcases mallocAligned_cases hs.rep hk hsmall with ⟨-, hnone⟩ | ⟨pre, c, post, hbs, hc, hcase⟩
      · rw [hb] at hnone
        exact absurd hnone (by simp)
      obtain rfl := some.inj (hb.symm.trans hc)
      rcases hcase with ⟨hgap, hle, he⟩ | ⟨hroom, m', he, hrep, hkeeps⟩
      · refine ⟨bs, 0, h, hs.rep.blockList, he, iff_of_true (Or.inl ⟨rfl, rfl, rfl, rfl⟩) ?_⟩
        rw [forall_bestFit_iff hb, if_neg (Nat.ne_of_gt hgap)]
        exact .inl hle
      · refine ⟨bs, _, _, hs.rep.blockList, he, ?_⟩
        have hk' := alignedCut_keeps hs hbs hfree hrep hkeeps
        obtain ⟨c, hc, hcp, hcf, hciff⟩ := alignedCut_block (n := n) hroom
        have hin := mem_append_right pre (mem_append_left post hc)
        rw [forall_bestFit_iff hb, ← hcp, alignedOk_iff hs hk' hin hcf, hcp, alignedPtr_dvd hpos, hciff,
          ← gap_eq_zero hpos, ← gap_eq_zero hpos]
        split_ifs with h0
        · exact and_iff_right (Or.inl h0)
        · have hlong := Nat.not_le.mpr (hroom (Nat.pos_of_ne_zero h0))
          simp only [h0, hlong, false_or]
    · obtain ⟨p, h', he⟩ : ∃ p h', h.mallocAligned n (2 ^ k) = some (p, h') := by
        rcases mallocAligned_found hs.rep hk hb with ⟨-, -, he⟩ | ⟨-, m, best, m1, -, -, -, he⟩
        · exact ⟨_, _, he⟩
        · exact ⟨_, _, he⟩
      have hlen : b.len + headerSize < word := by
        have h1 := hs.rep.fin_le hmem
        have h2 := (hs.rep.valid b hmem).1
        simp only [Blk.fin] at h1
        omega
      refine ⟨bs, p, h', hs.rep.blockList, he, ?_⟩
      rw [forall_bestFit_iff hb, alignedOk_of_wrap hs.rep hk hn hwrap hb he]
      split_ifs with h0 <;> omega

theorem mallocAligned_ok_iff_at_one_mib :
    ∃ bs p h', oneMib.blockList =
        some (headers 0 bs 0) ∧
      oneMib.mallocAligned 100 (2 ^ 3) =
        some (p, h') ∧
      (AlignedOk 100 (2 ^ 3) oneMib h' p ↔
        ∀ pre b post, BestFit ((100 + 2 ^ 3) % word) bs pre b post →
          if 2 ^ 3 ∣ b.ptr then 100 ≤ b.len
          else b.len ≤ gap (2 ^ 3) b.ptr + headerSize ∨
            2 ^ 3 ∣ headerSize ∧ 100 + gap (2 ^ 3) b.ptr + headerSize ≤ b.len) :=
  mallocAligned_ok_iff initialise_at_one_mib (by decide) .start (by decide) (by decide)

/-- On a new heap: the block that is found starts 40 bytes behind a multiple of 64, and so does the
one that is handed out. -/
theorem mallocAligned_misaligned :
    ∃ p h', oneMib.mallocAligned 100 (2 ^ 6) =
        some (p, h') ∧ p = 0xFFFF800000100068 ∧ p % 64 = 40 ∧
      ¬ AlignedOk 100 (2 ^ 6) oneMib h' p := by
  have hs := @firstBlock_sound (fun _ => 0) 0xFFFF800000100000 0x100000000 (by decide) (by decide)
  have hbest : bestBlock ((100 + 2 ^ 6) % word) (initialBlocks 0xFFFF800000100000 0x100000000) =
      some ⟨0xFFFF800000100000, 0xFFFFFFD8, true⟩ := by decide
  rcases mallocAligned_cases (n := 100) (k := 6) hs.rep (by decide) (by decide) with
    ⟨-, hb⟩ | ⟨pre, b, post, -, hb, hcase⟩
  · rw [hbest] at hb
    exact absurd hb (by simp)
  · obtain rfl := some.inj (hbest.symm.trans hb)
    rcases hcase with ⟨-, hle, -⟩ | ⟨-, m', he, -⟩
    · exact absurd hle (by decide)
    · refine ⟨_, _, he, by decide, by decide, ?_⟩
      rintro (⟨h0, -⟩ | ⟨hdvd, -⟩)
      · exact absurd h0 (by decide)
      · exact absurd hdvd (by decide)

end Terrakernel.Heap
