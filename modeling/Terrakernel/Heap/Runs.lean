import Terrakernel.Heap.Free

/-!
# Runs of the heap

Every state that a run reaches has a block list without free neighbours.
-/

namespace Terrakernel.Heap

open Memory Vmm Coalesce

variable {h : Heap} {bs : List Blk} {m : Mem}

/-! ## Calls -/

inductive Call where
  | malloc (n : Nat)
  | calloc (n size : Nat)
  | realloc (ptr n : Nat)
  | free (ptr : Nat)
  | defragment
  deriving DecidableEq, Repr

/-- A call gives a pointer back, or null where the code returns `void`. -/
def Call.exec : Call → Heap → Option (Nat × Heap)
  | .malloc n, h => h.malloc n
  | .calloc n size, h => h.calloc n size
  | .realloc ptr n, h => h.realloc ptr n
  | .free ptr, h => (h.free ptr).map (0, ·)
  | .defragment, h => h.defragment.map (0, ·)

def runCalls : List Call → Heap → Option Heap
  | [], h => some h
  | c :: cs, h => do
    let (_, h) ← c.exec h
    runCalls cs h

/-- The same call, on the list. -/
def Call.onBlocks : Call → List Blk → Nat × List Blk
  | .malloc n, bs => allot n bs
  | .calloc n size, bs => allot (n * size % word) bs
  | .realloc ptr n, bs => reallot ptr n bs
  | .free ptr, bs => (0, freed ptr bs)
  | .defragment, bs => (0, bs)

/-- What holds between any two calls. -/
structure Sound (h : Heap) (bs : List Blk) : Prop where
  rep : Rep h bs
  normal : joins.Normal bs

/-! ## One call -/

theorem defragment_spec (hs : Sound h bs) :
    ∃ l, h.defragment = some { h with log := h.log ++ l } ∧ (h.heapBase ≠ 0 → l = []) := by
  by_cases h0 : h.heapBase = 0
  · exact ⟨[.notInitialized], by rw [defragment, if_pos h0]; rfl, fun hh => absurd h0 hh⟩
  · exact ⟨[], by rw [defragment_normal hs.rep hs.normal h0, List.append_nil], fun _ => rfl⟩

theorem exec_spec (hs : Sound h bs) (c : Call) :
    ∃ h', c.exec h = some ((c.onBlocks bs).1, h') ∧ Sound h' (c.onBlocks bs).2 ∧
      h'.heapBase = h.heapBase ∧ h'.heapSize = h.heapSize := by
  obtain ⟨hr, hn⟩ := hs
  cases c with
  | malloc n =>
    obtain ⟨h', he, hy⟩ := malloc_spec hr n
    exact ⟨h', he, ⟨hy.rep, hr.fits.allot_normal hn⟩, hy.heapBase, hy.heapSize⟩
  | calloc n size =>
    obtain ⟨h', he, hy, -⟩ := calloc_spec hr n size
    exact ⟨h', he, ⟨hy.rep, hr.fits.allot_normal hn⟩, hy.heapBase, hy.heapSize⟩
  | realloc ptr n =>
    obtain ⟨h', he, hy⟩ := realloc_spec hr hn ptr n
    exact ⟨h', he, ⟨hy.rep, hr.fits.reallot_normal hn⟩, hy.heapBase, hy.heapSize⟩
  | free ptr =>
    obtain ⟨h', he, hy⟩ := free_spec hr hn ptr
    refine ⟨h', ?_, ⟨hy.rep, joins.norm_normal _⟩, hy.heapBase, hy.heapSize⟩
    rw [Call.exec, he]
    rfl
  | defragment =>
    obtain ⟨l, he, -⟩ := defragment_spec ⟨hr, hn⟩
    refine ⟨{ h with log := h.log ++ l }, ?_, ⟨?_, hn⟩, rfl, rfl⟩
    · rw [Call.exec, he]
      rfl
    · exact ⟨hr.first, hr.laid, hr.fits, hr.top, hr.valid⟩

/-! ## Whole runs -/

theorem runCalls_spec (hs : Sound h bs) (cs : List Call) :
    ∃ h', runCalls cs h = some h' ∧ Sound h' (cs.foldl (fun bs c => (c.onBlocks bs).2) bs) ∧
      h'.heapBase = h.heapBase ∧ h'.heapSize = h.heapSize := by
  induction cs generalizing h bs with
  | nil => exact ⟨h, rfl, hs, rfl, rfl⟩
  | cons c cs ih =>
    obtain ⟨h1, he, hs1, hb1, hz1⟩ := exec_spec hs c
    obtain ⟨h2, hr2, hs2, hb2, hz2⟩ := ih hs1
    refine ⟨h2, ?_, hs2, hb2.trans hb1, hz2.trans hz1⟩
    rw [runCalls, he]
    exact hr2

/-! ## The first block -/

def initialBlocks (heapBase heapSize : Nat) : List Blk :=
  if heapBase = 0 then [] else [⟨heapBase, heapSize - headerSize, true⟩]

/-- What `initialise` makes of a heap at 1 MiB. -/
abbrev oneMib : Heap := firstBlock (fun _ => 0) 0xFFFF800000100000 0x100000000

theorem firstBlock_sound (m : Mem) {heapBase heapSize : Nat} (hsize : headerSize < heapSize)
    (htop : heapBase + heapSize ≤ word) :
    Sound (firstBlock m heapBase heapSize) (initialBlocks heapBase heapSize) := by
  unfold initialBlocks
  split_ifs with h0
  · refine ⟨⟨?_, laid_nil, ?_, htop, by simp⟩, .nil⟩
    · exact h0
    · exact Nat.le_add_right _ _
  · have hblock : block (firstBlock m heapBase heapSize).mem heapBase =
        ⟨heapBase + headerSize, heapSize - headerSize, true, 0, 0⟩ := by
      have h1 : (heapBase + headerSize) % word = heapBase + headerSize := by
        apply Nat.mod_eq_of_lt
        omega
      have h2 : (heapSize + word - headerSize) % word = heapSize - headerSize := by
        rw [show heapSize + word - headerSize = heapSize - headerSize + word by omega,
          Nat.add_mod_right]
        apply Nat.mod_eq_of_lt
        omega
      have h3 : (heapSize - headerSize) % word = heapSize - headerSize := by
        apply Nat.mod_eq_of_lt
        omega
      simp only [firstBlock, block_setNext, block_setPrev, block_setFree, block_setLength,
        block_setBase, h1, h2, h3, Nat.zero_mod]
    refine ⟨⟨rfl, laid_cons.mpr ⟨hblock, laid_nil⟩, ⟨le_refl _, ?_⟩, htop, ?_⟩, .singleton _⟩
    · simp only [Fits, Blk.fin, firstBlock]
      omega
    · intro b hb
      obtain rfl := List.mem_singleton.mp hb
      refine ⟨Nat.pos_of_ne_zero h0, ?_⟩
      simp only [Blk.ptr]
      omega

section Initialise

variable {σ : Type} {reserveHeap : Nat → σ → Nat × σ}

theorem reserveLoop_size {fuel d b z b' z' : Nat} {s s' : σ}
    (h : reserveLoop reserveHeap fuel d b z s = some (b', z', s'))
    (hz : 0x100000 ≤ z ∨ b = 0 ∧ d = 1) : 0x100000 ≤ z' := by
  induction fuel generalizing d b z s with
  | zero => simp [reserveLoop] at h
  | succ fuel ih =>
    rw [reserveLoop] at h
    split_ifs at h with hc
    · exact ih h (Or.inl hc.2)
    · simp only [Option.some.injEq, Prod.mk.injEq] at h
      rcases hz with hz | ⟨rfl, rfl⟩
      · omega
      · exact absurd ⟨rfl, by decide⟩ hc

theorem reserveLoop_total {fuel k b z : Nat} (s : σ) (hk : k ≤ 13) (hfuel : 13 < fuel + k) :
    ∃ r, reserveLoop reserveHeap fuel (2 ^ k) b z s = some r := by
  induction fuel generalizing k b z s with
  | zero => omega
  | succ fuel ih =>
    rw [reserveLoop]
    split_ifs with hc
    · have hlt : k < 13 := by
        rcases Nat.lt_or_ge k 13 with hlt | hge
        · exact hlt
        · obtain rfl : k = 13 := by omega
          exact absurd hc.2 (by decide)
      rw [← pow_succ]
      exact ih _ hlt (by omega)
    · exact ⟨_, rfl⟩

theorem initialise_total (m : Mem) (s : σ) : ∃ r, initialise reserveHeap m s = some r := by
  obtain ⟨⟨b, z, s'⟩, h⟩ :=
    @reserveLoop_total σ reserveHeap word 0 0 0 s (by omega) (by decide)
  exact ⟨(firstBlock m (paToVa b) z, s'), by rw [initialise, ← pow_zero 2, h]; rfl⟩

theorem initialise_spec {s s' : σ} (hinit : initialise reserveHeap m s = some (h, s')) :
    h = firstBlock m h.heapBase h.heapSize ∧ 0x100000 ≤ h.heapSize := by
  unfold initialise at hinit
  obtain ⟨⟨b, z, s1⟩, hloop, hinit⟩ := Option.bind_eq_some_iff.mp hinit
  have hz := reserveLoop_size hloop (Or.inr ⟨rfl, rfl⟩)
  simp only [Option.some.injEq, Prod.mk.injEq] at hinit
  obtain ⟨rfl, rfl⟩ := hinit
  exact ⟨rfl, hz⟩

theorem initialise_sound {s s' : σ} (hinit : initialise reserveHeap m s = some (h, s'))
    (htop : h.heapBase + h.heapSize ≤ word) : Sound h (initialBlocks h.heapBase h.heapSize) := by
  obtain ⟨he, hsize⟩ := initialise_spec hinit
  have := firstBlock_sound m (by simp only [headerSize]; omega) htop
  rw [← he] at this
  exact this

end Initialise

end Terrakernel.Heap
