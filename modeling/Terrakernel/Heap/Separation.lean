import Terrakernel.Heap.Runs

/-!
# Blocks never overlap

What a walk along the `next` links finds in any state a run reaches.
-/

namespace Terrakernel.Heap

open Memory Coalesce

variable {bs : List Blk} {prv nxt hi lo : Nat} {e : Nat × HeapBlock}

/-- Two headers side by side in the list. The end of the first payload may not reach the second. -/
def Follows (e f : Nat × HeapBlock) : Prop :=
  e.2.next = f.1 ∧ f.2.prev = e.1 ∧ e.2.base + e.2.length ≤ f.1

/-- `es` is the block list, and it is laid out as the code relies on. -/
structure Separated (h : Heap) (es : List (Nat × HeapBlock)) : Prop where
  reached : h.blockList = some es
  base : ∀ e ∈ es, e.2.base = e.1 + headerSize
  links : es.IsChain Follows
  first : ∀ e ∈ es.head?, e.1 = h.heapBase ∧ e.2.prev = 0
  last : ∀ e ∈ es.getLast?, e.2.next = 0 ∧ e.2.base + e.2.length ≤ h.heapBase + h.heapSize
  disjoint : es.Pairwise fun e f => e.2.base + e.2.length ≤ f.1

/-! ## The headers of a list -/

theorem headers_base (he : e ∈ headers prv bs nxt) : e.2.base = e.1 + headerSize := by
  obtain ⟨b, -, haddr, hbase, -⟩ := of_mem_headers he
  rw [hbase, haddr]
  rfl

theorem headers_links (h : Fits lo bs hi) : (headers prv bs nxt).IsChain Follows := by
  induction bs generalizing prv lo with
  | nil => exact .nil
  | cons b bs ih =>
    cases bs with
    | nil => exact .singleton _
    | cons c cs => exact .cons_cons ⟨rfl, rfl, h.2.1⟩ (ih h.2)

theorem headers_disjoint (h : Fits lo bs hi) :
    (headers prv bs nxt).Pairwise fun e f => e.2.base + e.2.length ≤ f.1 := by
  induction bs generalizing prv lo with
  | nil => exact .nil
  | cons b bs ih =>
    refine .cons ?_ (ih h.2)
    intro e he
    obtain ⟨c, hc, hadd, -⟩ := of_mem_headers he
    rw [hadd]
    exact (h.2.bounds hc).1

theorem headers_last (h : Fits lo bs hi) (he : e ∈ (headers prv bs 0).getLast?) :
    e.2.next = 0 ∧ e.2.base + e.2.length ≤ hi := by
  rcases List.eq_nil_or_concat bs with rfl | ⟨cs, b, rfl⟩
  · simp [headers] at he
  · rw [List.concat_eq_append] at h he
    rw [headers_append] at he
    obtain rfl : (b.addr, (⟨b.ptr, b.len, b.free, lastAddr prv cs, 0⟩ : HeapBlock)) = e := by
      simpa [headers, firstAddr] using he
    exact ⟨rfl, (h.bounds (b := b) (by simp)).2⟩

theorem Rep.separated {h : Heap} (hr : Rep h bs) : Separated h (headers 0 bs 0) := by
  refine ⟨hr.blockList, fun e => headers_base, headers_links hr.fits, ?_,
    fun e => headers_last hr.fits, headers_disjoint hr.fits⟩
  have hfirst := hr.first
  intro e he
  cases bs with
  | nil => simp [headers] at he
  | cons b bs =>
    obtain rfl : (b.addr, (⟨b.ptr, b.len, b.free, 0, firstAddr bs 0⟩ : HeapBlock)) = e := by
      simpa [headers] using he
    exact ⟨hfirst.symm, rfl⟩

theorem mem_headers {b : Blk} (hb : b ∈ bs) (prv nxt : Nat) :
    ∃ e ∈ headers prv bs nxt, e.1 = b.addr ∧ e.2.base = b.ptr ∧ e.2.length = b.len ∧
      e.2.isFree = b.free := by
  obtain ⟨pre, post, rfl⟩ := List.append_of_mem hb
  rw [headers_append, headers]
  exact ⟨_, List.mem_append_right _ List.mem_cons_self, rfl, rfl, rfl, rfl⟩

theorem headers_apart (hn : joins.Normal bs) (prv nxt : Nat) :
    (headers prv bs nxt).IsChain fun e f => ¬ (e.2.isFree = true ∧ f.2.isFree = true) := by
  induction bs generalizing prv with
  | nil => exact .nil
  | cons b bs ih =>
    cases bs with
    | nil => exact .singleton _
    | cons c cs => exact .cons_cons hn.rel (ih hn.of_cons _)

section Results

variable {σ : Type} {reserveHeap : Nat → σ → Nat × σ} {m : Mem} {s s' : σ} {h : Heap}

/-- Every run returns. Its blocks are separated, and `malloc` hands out one that was free. -/
theorem separated_of_runCalls (hinit : initialise reserveHeap m s = some (h, s'))
    (htop : h.heapBase + h.heapSize ≤ word) (cs : List Call) :
    ∃ h' es, runCalls cs h = some h' ∧ h'.heapBase = h.heapBase ∧ h'.heapSize = h.heapSize ∧
      Separated h' es ∧
      ∀ n, ∃ p h'', h'.malloc n = some (p, h'') ∧
        (p ≠ 0 → ∃ e ∈ es, e.2.base = p ∧ e.2.isFree = true ∧ n ≤ e.2.length) := by
  obtain ⟨h', hrun, hs, hb, hz⟩ := runCalls_spec (initialise_sound hinit htop) cs
  refine ⟨h', _, hrun, hb, hz, hs.rep.separated, ?_⟩
  intro n
  obtain ⟨h'', hm, -⟩ := malloc_spec hs.rep n
  refine ⟨_, h'', hm, ?_⟩
  intro hp
  obtain ⟨b, hb, hbp, hfree, hn⟩ := hs.rep.fits.allot_free hp
  obtain ⟨e, hmem, -, hbase, hlen, hef⟩ := mem_headers hb 0 0
  exact ⟨e, hmem, hbase.trans hbp, hef.trans hfree, hlen ▸ hn⟩

end Results

theorem initialise_at_one_mib :
    initialise (fun _ (s : Unit) => (0x100000, s)) (fun _ => 0) () =
      some (oneMib, ()) := by
  rfl

theorem separated_of_runCalls_at_one_mib :
    ∃ h' es, runCalls [.malloc 24, .malloc 100, .free 0xFFFF800000100028, .realloc 7 9, .defragment]
        oneMib = some h' ∧ Separated h' es := by
  obtain ⟨h', es, hrun, -, -, hsep, -⟩ :=
    separated_of_runCalls initialise_at_one_mib (by decide)
      [.malloc 24, .malloc 100, .free 0xFFFF800000100028, .realloc 7 9, .defragment]
  exact ⟨h', es, hrun, hsep⟩

section Coalescing

variable {σ : Type} {reserveHeap : Nat → σ → Nat × σ} {m : Mem} {s s' : σ} {h : Heap}

/-- Free blocks never stand side by side, so `defragment` has nothing to join. Without a heap it
writes its line to the log and changes nothing else. -/
theorem defragment_of_runCalls (hinit : initialise reserveHeap m s = some (h, s'))
    (htop : h.heapBase + h.heapSize ≤ word) (cs : List Call) :
    ∃ h' es, runCalls cs h = some h' ∧ h'.blockList = some es ∧
      es.IsChain (fun e f => ¬ (e.2.isFree = true ∧ f.2.isFree = true)) ∧
      (∃ l, h'.defragment = some { h' with log := h'.log ++ l }) ∧
      (h'.heapBase ≠ 0 → h'.defragment = some h') := by
  obtain ⟨h', hrun, hs, -⟩ := runCalls_spec (initialise_sound hinit htop) cs
  obtain ⟨l, hl, -⟩ := defragment_spec hs
  refine ⟨h', _, hrun, hs.rep.blockList, headers_apart hs.normal 0 0, ⟨l, hl⟩, ?_⟩
  exact defragment_normal hs.rep hs.normal

end Coalescing

theorem defragment_of_runCalls_at_one_mib :
    ∃ h', runCalls [.malloc 24, .malloc 100, .free 0xFFFF800000100028, .free 0xFFFF800000100068]
        oneMib = some h' ∧
      (h'.heapBase ≠ 0 → h'.defragment = some h') := by
  obtain ⟨h', -, hrun, -, -, -, hd⟩ :=
    defragment_of_runCalls initialise_at_one_mib (by decide)
      [.malloc 24, .malloc 100, .free 0xFFFF800000100028, .free 0xFFFF800000100068]
  exact ⟨h', hrun, hd⟩

end Terrakernel.Heap
