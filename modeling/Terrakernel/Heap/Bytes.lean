import Terrakernel.Heap.FreeOrder

/-!
# Where the bytes go

No byte is lost in a split or a join. What `realloc` cuts off is in no block from then on.
-/

namespace Terrakernel.Heap

open Memory Coalesce

variable {lo prv hi nxt : Nat} {bs : List Blk} {h : Heap}

/-! ## On the list -/

/-- The bytes of all blocks, with their headers. -/
def total (bs : List Blk) : Nat := (bs.map fun b => b.len + headerSize).sum

@[simp] theorem total_nil : total [] = 0 := rfl

@[simp] theorem total_cons (b : Blk) (bs : List Blk) :
    total (b :: bs) = b.len + headerSize + total bs := List.sum_cons

@[simp] theorem total_append (xs ys : List Blk) : total (xs ++ ys) = total xs + total ys := by
  simp only [total, List.map_append, List.sum_append]

theorem Fits.total_le (h : Fits lo bs hi) : lo + total bs ≤ hi := by
  induction bs generalizing lo with
  | nil => exact h
  | cons b bs ih =>
    have hb := h.1
    have hbs := ih h.2
    simp only [total_cons, Blk.fin] at *
    omega

theorem Fits.tiles_iff (h : Fits lo bs hi) : Tiles lo bs hi ↔ lo + total bs = hi := by
  induction bs generalizing lo with
  | nil => exact Iff.rfl
  | cons b bs ih =>
    have hb := h.1
    have hbs := h.2.total_le
    rw [Tiles, ih h.2]
    simp only [total_cons, Blk.fin] at *
    omega

theorem total_push (b : Blk) (bs : List Blk) : total (joins.push b bs) = total (b :: bs) := by
  cases bs with
  | nil => rfl
  | cons c cs =>
    by_cases hbc : joins.free b = true ∧ joins.free c = true
    · rw [joins.push_free hbc.1 hbc.2]
      simp only [total_cons, joins]
      omega
    · rw [joins.push_apart hbc]

theorem total_norm (bs : List Blk) : total (joins.norm bs) = total bs := by
  induction bs with
  | nil => rfl
  | cons b bs ih => rw [joins.norm_cons, total_push, total_cons, ih, total_cons]

theorem total_freed (ptr : Nat) (bs : List Blk) : total (freed ptr bs) = total bs := by
  rw [freed, total_norm, total, List.map_map]
  congr 2
  funext b
  simp only [Function.comp_apply, release]
  split_ifs <;> rfl

theorem Fits.total_allot {n : Nat} (h : Fits lo bs hi) : total (allot n bs).2 = total bs := by
  rcases h.allot_cases (n := n) with ⟨he, -⟩ | ⟨pre, b, post, rfl, -, -, -, he⟩
  · rw [he]
  · have hcarve : total (carve n b) = b.len + headerSize := by
      unfold carve
      split_ifs
      · simp only [total_cons, total_nil]
        omega
      · rfl
    rw [he]
    simp only [total_append, total_cons, hcarve]

/-- The call is a `realloc` that leaves a block with fewer bytes. -/
def Call.Cuts : Call → List Blk → Prop
  | .realloc ptr n, bs => 0 < n ∧ ∃ b ∈ bs, b.ptr = ptr ∧ n < b.len
  | _, _ => False

theorem Fits.total_reallot {lo hi ptr n : Nat} (h : Fits lo bs hi) :
    total (reallot ptr n bs).2 ≤ total bs ∧
      (total (reallot ptr n bs).2 = total bs ↔ ¬ (Call.realloc ptr n).Cuts bs) := by
  have hkeep : ∀ {bs' : List Blk}, total bs' = total bs → ¬ (Call.realloc ptr n).Cuts bs →
      total bs' ≤ total bs ∧ (total bs' = total bs ↔ ¬ (Call.realloc ptr n).Cuts bs) :=
    fun he hc => ⟨he.le, iff_of_true he hc⟩
  unfold reallot
  by_cases h0 : ptr = 0
  · rw [if_pos h0]
    refine hkeep h.total_allot ?_
    rintro ⟨-, b, -, hb, -⟩
    simp only [Blk.ptr, headerSize] at hb
    omega
  rw [if_neg h0]
  by_cases hn : n = 0
  · rw [if_pos hn]
    exact hkeep (total_freed ptr bs) fun hc => by have := hc.1; omega
  rw [if_neg hn]
  cases hfind : bs.find? fun b => b.ptr = ptr with
  | none =>
    refine hkeep rfl ?_
    rintro ⟨-, b, hb, hp, -⟩
    exact List.find?_eq_none.mp hfind b hb (decide_eq_true hp)
  | some b =>
    obtain ⟨hb, rfl⟩ := mem_of_find_ptr hfind
    have hcuts : (Call.realloc b.ptr n).Cuts bs ↔ n < b.len := by
      constructor
      · rintro ⟨-, c, hc, hp, hlt⟩
        have hcb := h.find_ptr hc
        rw [hp, hfind] at hcb
        cases hcb
        exact hlt
      · exact fun hlt => ⟨by omega, b, hb, rfl, hlt⟩
    dsimp only
    split_ifs with hle hz
    · obtain ⟨pre, post, rfl⟩ := List.append_of_mem hb
      have hmap := h.map_at fun c => { c with len := n }
      have hcut : (pre ++ b :: post).map (resize b.ptr n) = pre ++ ⟨b.addr, n, b.free⟩ :: post := hmap
      rw [hcut, hcuts]
      simp only [total_append, total_cons]
      omega
    · exact hkeep rfl (by rw [hcuts]; omega)
    · exact hkeep (by rw [total_freed, h.total_allot]) (by rw [hcuts]; omega)

theorem Fits.total_onBlocks (h : Fits lo bs hi) (c : Call) :
    total (c.onBlocks bs).2 ≤ total bs ∧ (total (c.onBlocks bs).2 = total bs ↔ ¬ c.Cuts bs) := by
  have hkeep : ∀ {bs' : List Blk}, total bs' = total bs →
      total bs' ≤ total bs ∧ (total bs' = total bs ↔ ¬ False) :=
    fun he => ⟨he.le, iff_of_true he not_false⟩
  cases c with
  | malloc n => exact hkeep h.total_allot
  | calloc n size => exact hkeep h.total_allot
  | realloc ptr n => exact h.total_reallot
  | free ptr => exact hkeep (total_freed ptr bs)
  | defragment => exact hkeep rfl

/-! ## In memory -/

def bytes (es : List (Nat × HeapBlock)) : Nat := (es.map fun e => e.2.length + headerSize).sum

/-- The blocks of a walk have all bytes of the heap, each up to where the next header starts. -/
structure Conserves (h : Heap) (es : List (Nat × HeapBlock)) : Prop where
  reached : h.blockList = some es
  bytes : bytes es = h.heapSize
  adjacent : es.IsChain fun e f => e.2.base + e.2.length = f.1
  last : ∀ e ∈ es.getLast?, e.2.base + e.2.length = h.heapBase + h.heapSize

/-- The call is a `realloc` that finds a block with more bytes than it asks for. -/
def Call.Shrinks : Call → Heap → Prop
  | .realloc ptr n, h =>
    0 < n ∧ ∃ es e, h.blockList = some es ∧ e ∈ es ∧ e.2.base = ptr ∧ n < e.2.length
  | _, _ => False

def NeverShrinks : List Call → Heap → Prop
  | [], _ => True
  | c :: cs, h => ¬ c.Shrinks h ∧ ∀ r h', c.exec h = some (r, h') → NeverShrinks cs h'

theorem bytes_headers (bs : List Blk) (prv nxt : Nat) : bytes (headers prv bs nxt) = total bs := by
  induction bs generalizing prv with
  | nil => rfl
  | cons b bs ih =>
    have hrest := ih b.addr
    unfold bytes at hrest ⊢
    rw [headers, List.map_cons, List.sum_cons, hrest, total_cons]

theorem Tiles.headers_adjacent (h : Tiles lo bs hi) :
    (headers prv bs nxt).IsChain fun e f => e.2.base + e.2.length = f.1 := by
  induction bs generalizing prv lo with
  | nil => exact .nil
  | cons b bs ih =>
    cases bs with
    | nil => exact .singleton _
    | cons c cs => exact .cons_cons h.2.1 (ih h.2)

theorem Tiles.headers_last (h : Tiles lo bs hi) {e : Nat × HeapBlock}
    (he : e ∈ (headers prv bs nxt).getLast?) : e.2.base + e.2.length = hi := by
  induction bs generalizing prv lo with
  | nil => simp [headers] at he
  | cons b bs ih =>
    cases bs with
    | nil =>
      obtain rfl : (b.addr, (⟨b.ptr, b.len, b.free, prv, nxt⟩ : HeapBlock)) = e := by
        simpa [headers, firstAddr] using he
      exact h.2
    | cons c cs =>
      rw [headers, headers, List.getLast?_cons_cons] at he
      exact ih h.2 he

theorem Rep.conserves_iff (hr : Rep h bs) : (∃ es, Conserves h es) ↔ total bs = h.heapSize := by
  constructor
  · rintro ⟨es, hes⟩
    have hreached := hes.reached
    rw [hr.blockList] at hreached
    rw [← hes.bytes, ← Option.some.inj hreached, bytes_headers]
  · intro htotal
    have ht := hr.fits.tiles_iff.mpr (by rw [htotal])
    exact ⟨_, hr.blockList, by rw [bytes_headers, htotal], ht.headers_adjacent,
      fun e => ht.headers_last⟩

theorem Rep.shrinks_iff (hr : Rep h bs) (c : Call) : c.Shrinks h ↔ c.Cuts bs := by
  cases c with
  | realloc ptr n =>
    refine and_congr_right fun _ => ?_
    constructor
    · rintro ⟨es, e, hes, he, hbase, hlt⟩
      rw [hr.blockList] at hes
      cases hes
      obtain ⟨b, hb, -, hptr, hlen, -⟩ := of_mem_headers he
      exact ⟨b, hb, hptr ▸ hbase, hlen ▸ hlt⟩
    · rintro ⟨b, hb, hptr, hlt⟩
      obtain ⟨e, he, -, hptr', hlen, -⟩ := mem_headers hb 0 0
      exact ⟨_, e, hr.blockList, he, hptr'.trans hptr, hlen ▸ hlt⟩
  | _ => exact Iff.rfl

theorem runCalls_total (hs : Sound h bs) (cs : List Call) :
    ∃ h' bs', runCalls cs h = some h' ∧ Sound h' bs' ∧ h'.heapSize = h.heapSize ∧
      total bs' ≤ total bs ∧ (total bs' = total bs ↔ NeverShrinks cs h) := by
  induction cs generalizing h bs with
  | nil => exact ⟨h, bs, rfl, hs, rfl, le_refl _, iff_of_true rfl trivial⟩
  | cons c cs ih =>
    obtain ⟨h1, he, hs1, -, hz1⟩ := exec_spec hs c
    obtain ⟨h2, bs2, hrun, hs2, hz2, hle2, hiff2⟩ := ih hs1
    obtain ⟨hle1, hiff1⟩ := hs.rep.fits.total_onBlocks c
    refine ⟨h2, bs2, ?_, hs2, hz2.trans hz1, hle2.trans hle1, ?_⟩
    · rw [runCalls, he]
      exact hrun
    · have hrest : NeverShrinks (c :: cs) h ↔ ¬ c.Cuts bs ∧ NeverShrinks cs h1 := by
        rw [NeverShrinks, hs.rep.shrinks_iff, he]
        simp
      rw [hrest, ← hiff1, ← hiff2]
      omega

theorem total_initialBlocks {heapBase heapSize : Nat} (hsize : headerSize ≤ heapSize) :
    total (initialBlocks heapBase heapSize) = if heapBase = 0 then 0 else heapSize := by
  unfold initialBlocks
  split_ifs
  · rfl
  · simp only [total_cons, total_nil]
    omega

section Results

variable {σ : Type} {reserveHeap : Nat → σ → Nat × σ} {m : Mem} {s s' : σ} {h : Heap}

/-- The blocks have all bytes after just those runs that never shrink one. -/
theorem conserves_iff_neverShrinks (hinit : initialise reserveHeap m s = some (h, s'))
    (htop : h.heapBase + h.heapSize ≤ word) (cs : List Call) :
    ∃ h', runCalls cs h = some h' ∧
      ((∃ es, Conserves h' es) ↔ h.heapBase ≠ 0 ∧ NeverShrinks cs h) := by
  obtain ⟨h', bs', hrun, hs', hz, hle, hiff⟩ := runCalls_total (initialise_sound hinit htop) cs
  have hsize := (initialise_spec hinit).2
  refine ⟨h', hrun, ?_⟩
  rw [hs'.rep.conserves_iff, ← hiff, hz]
  rw [total_initialBlocks (by simp only [headerSize]; omega)] at hle ⊢
  by_cases h0 : h.heapBase = 0
  · rw [if_pos h0] at hle
    exact iff_of_false (by omega) fun hc => hc.1 h0
  · rw [if_neg h0]
    exact (and_iff_right h0).symm

end Results

theorem conserves_iff_neverShrinks_at_one_mib :
    ∃ h' es, runCalls [.malloc 24, .calloc 4 25, .free 0xFFFF800000100028]
      oneMib = some h' ∧ Conserves h' es := by
  obtain ⟨h', hrun, hiff⟩ := conserves_iff_neverShrinks initialise_at_one_mib (by decide)
    [.malloc 24, .calloc 4 25, .free 0xFFFF800000100028]
  obtain ⟨es, hes⟩ := hiff.mpr ⟨by decide, id, fun _ _ _ => ⟨id, fun _ _ _ => ⟨id, fun _ _ _ => trivial⟩⟩⟩
  exact ⟨h', es, hrun, hes⟩

/-- Ninety bytes are in no block once a hundred have become ten. -/
theorem shrunk_at_one_mib :
    ∃ h' es, runCalls [.malloc 100, .realloc 0xFFFF800000100028 10]
        oneMib = some h' ∧
      h'.blockList = some es ∧ bytes es + 90 = h'.heapSize ∧ ¬ ∃ es, Conserves h' es := by
  obtain ⟨h', hrun, hs, -, hz⟩ := runCalls_spec (initialise_sound initialise_at_one_mib (by decide))
    [.malloc 100, .realloc 0xFFFF800000100028 10]
  have hrep : Rep h' [⟨0xFFFF800000100000, 10, false⟩, ⟨0xFFFF80000010008C, 0xFFFFFF4C, true⟩] :=
    hs.rep
  refine ⟨h', _, hrun, hrep.blockList, ?_, ?_⟩
  · rw [bytes_headers, hz]
    rfl
  · rw [hrep.conserves_iff, hz]
    decide

end Terrakernel.Heap
