import Terrakernel.Heap.Spec

/-!
# The heap code keeps a block list

`Rep` ties the memory to a list of `Spec.lean`, and there is one spec per function.
-/

namespace Terrakernel.Heap

open Memory Mem Coalesce Option
open List hiding Mem

variable {m m' : Mem} {prv fuel nxt : Nat} {b c : Blk} {bs pre post : List Blk} {h : Heap}

/-- The memory holds the headers of a piece of the list. -/
def Laid (m : Mem) (prv : Nat) (bs : List Blk) (nxt : Nat) : Prop :=
  ∀ e ∈ headers prv bs nxt, block m e.1 = e.2

structure Rep (h : Heap) (bs : List Blk) : Prop where
  first : h.heapBase = firstAddr bs 0
  laid : Laid h.mem 0 bs 0
  fits : Fits h.heapBase bs (h.heapBase + h.heapSize)
  top : h.heapBase + h.heapSize ≤ word
  valid : ∀ b ∈ bs, 0 < b.addr ∧ b.ptr < word

/-! ## Pieces of the list -/

theorem laid_append {xs ys : List Blk} :
    Laid m prv (xs ++ ys) nxt ↔
      Laid m prv xs (firstAddr ys nxt) ∧ Laid m (lastAddr prv xs) ys nxt := by
  unfold Laid
  rw [headers_append]
  simp only [mem_append, or_imp, forall_and]

theorem laid_cons :
    Laid m prv (b :: bs) nxt ↔
      block m b.addr = ⟨b.ptr, b.len, b.free, prv, firstAddr bs nxt⟩ ∧ Laid m b.addr bs nxt := by
  unfold Laid
  rw [headers, forall_mem_cons]

theorem laid_nil : Laid m prv [] nxt := by
  simp [Laid, headers]

theorem Laid.congr (h : Laid m prv bs nxt) (hsame : ∀ b ∈ bs, block m' b.addr = block m b.addr) :
    Laid m' prv bs nxt := by
  intro e he
  obtain ⟨b, hb, hadd, -⟩ := of_mem_headers he
  rw [← h e he, hadd]
  exact hsame b hb

theorem Laid.replace {mid mid' : List Blk} (h : Laid m 0 (pre ++ (mid ++ post)) 0)
    (hfirst : firstAddr (mid' ++ post) 0 = firstAddr (mid ++ post) 0)
    (hpre : ∀ c ∈ pre, block m' c.addr = block m c.addr)
    (hmid : Laid m' (lastAddr 0 pre) mid' (firstAddr post 0)) (hnext : ∀ c ∈ post.head?,
      block m' c.addr = { block m c.addr with prev := lastAddr (lastAddr 0 pre) mid' })
    (hpost : ∀ c ∈ post.tail, block m' c.addr = block m c.addr) :
    Laid m' 0 (pre ++ (mid' ++ post)) 0 := by
  rw [laid_append, laid_append] at h ⊢
  obtain ⟨h1, -, h3⟩ := h
  refine ⟨?_, hmid, ?_⟩
  · rw [hfirst]
    exact h1.congr hpre
  · cases post with
    | nil => exact laid_nil
    | cons c cs =>
      rw [laid_cons] at h3 ⊢
      refine ⟨?_, h3.2.congr hpost⟩
      rw [hnext c rfl, h3.1]

theorem Rep.replace (mid mid' : List Blk) (hr : Rep h (pre ++ (mid ++ post)))
    (hfirst : ∀ nxt, firstAddr mid' nxt = firstAddr mid nxt)
    (hfits : ∀ lo hi, Fits lo mid hi → Fits lo mid' hi)
    (hvalid : ∀ b ∈ mid', 0 < b.addr ∧ b.ptr < word)
    (hpre : ∀ c ∈ pre, block m' c.addr = block h.mem c.addr)
    (hmid : Laid m' (lastAddr 0 pre) mid' (firstAddr post 0)) (hnext : ∀ c ∈ post.head?,
      block m' c.addr = { block h.mem c.addr with prev := lastAddr (lastAddr 0 pre) mid' })
    (hpost : ∀ c ∈ post.tail, block m' c.addr = block h.mem c.addr) :
    Rep { h with mem := m' } (pre ++ (mid' ++ post)) where
  first := by
    have := hr.first
    rw [firstAddr_append, firstAddr_append] at this ⊢
    rw [hfirst]
    exact this
  laid := by
    refine hr.laid.replace ?_ hpre hmid hnext hpost
    rw [firstAddr_append, firstAddr_append, hfirst]
  fits := hr.fits.replace hfits
  top := hr.top
  valid := by
    intro b hb
    simp only [mem_append] at hb
    rcases hb with hb | hb | hb
    · exact hr.valid b (by simp [hb])
    · exact hvalid b hb
    · exact hr.valid b (by simp [hb])

section Places

variable {h : Heap} {bs : List Blk} (hr : Rep h bs)

include hr

theorem Rep.block_at (pre : List Blk) (b : Blk) (post : List Blk) (hbs : bs = pre ++ b :: post) :
    block h.mem b.addr = ⟨b.ptr, b.len, b.free, lastAddr 0 pre, firstAddr post 0⟩ := by
  have := hr.laid
  rw [hbs, laid_append, laid_cons] at this
  exact this.2.1

theorem Rep.length_at (hb : b ∈ bs) : length h.mem b.addr = b.len := by
  obtain ⟨pre, post, hbs⟩ := append_of_mem hb
  rw [length_eq, hr.block_at pre b post hbs]

theorem Rep.base_at (hb : b ∈ bs) : base h.mem b.addr = b.ptr := by
  obtain ⟨pre, post, hbs⟩ := append_of_mem hb
  rw [base_eq, hr.block_at pre b post hbs]

theorem Rep.fin_le (hb : b ∈ bs) : b.fin ≤ word := by
  have h1 := (hr.fits.bounds hb).2
  have h2 := hr.top
  omega

theorem Rep.length_lt : bs.length < word := by
  have h1 := hr.fits.length_le
  have h2 := hr.top
  simp only [headerSize, word] at *
  omega

theorem Rep.beside_payload (hb : b ∈ bs) (hc : c ∈ bs) {x : Nat} (h1 : c.ptr ≤ x) (h2 : x < c.fin) :
    Beside b.addr x := by
  obtain ⟨pre, post, rfl⟩ := append_of_mem hb
  obtain ⟨hpre, hpost⟩ := hr.fits.around
  simp only [Beside, Blk.ptr, Blk.fin, headerSize] at *
  rw [mem_append, mem_cons] at hc
  rcases hc with hc | rfl | hc
  · have := hpre c hc
    omega
  · omega
  · have := hpost c hc
    omega

theorem Rep.edit (len : Nat) (free : Bool) (hbs : bs = pre ++ b :: post) (hlen : len ≤ b.len)
    (hb : block m' b.addr = { block h.mem b.addr with length := len, isFree := free })
    (hout : ∀ x, Beside b.addr x → m' x = h.mem x) :
    Rep { h with mem := m' } (pre ++ ⟨b.addr, len, free⟩ :: post) := by
  have hat := hr.block_at pre b post hbs
  subst hbs
  obtain ⟨hpre, hpost⟩ := hr.fits.around
  have hkeep : ∀ c : Blk, c.fin ≤ b.addr ∨ b.fin ≤ c.addr → block m' c.addr = block h.mem c.addr := by
    intro c hc
    have hap : Apart b.addr c.addr := by simp only [Apart, Blk.fin, headerSize] at *; omega
    exact block_congr fun x h1 h2 => hout x (hap.beside h1 h2)
  refine Rep.replace [b] [⟨b.addr, len, free⟩] hr (fun _ => rfl) ?_ ?_ ?_ ?_ ?_ ?_
  · rintro lo hi ⟨h1, h2⟩
    refine ⟨h1, ?_⟩
    simp only [Fits, Blk.fin] at *
    omega
  · simpa [Blk.ptr] using hr.valid b (by simp)
  · intro c hc
    exact hkeep c (Or.inl (hpre c hc))
  · rw [laid_cons, hb, hat]
    exact ⟨rfl, laid_nil⟩
  · intro c hc
    obtain ⟨cs, rfl⟩ : ∃ cs, post = c :: cs := head?_eq_some_iff.mp hc
    have hcat := hr.block_at (pre ++ [b]) c cs (by simp)
    rw [hkeep c (Or.inr (hpost c mem_cons_self)), hcat, lastAddr_snoc]
    rfl
  · intro c hc
    exact hkeep c (Or.inr (hpost c (mem_of_mem_tail hc)))

theorem Rep.join {a : Blk} (hbs : bs = pre ++ a :: c :: post) (ha : a.free = true)
    (hj : Joined h.mem m' a.addr c.addr) :
    Rep { h with mem := m' } (pre ++ joins.join a c :: post) := by
  have hat := hr.block_at pre a (c :: post) hbs
  have hct := hr.block_at (pre ++ [a]) c post (by simp [hbs])
  subst hbs
  obtain ⟨hpre, hpost⟩ := hr.fits.around
  have hf : Fits h.heapBase ((pre ++ [a]) ++ c :: post) (h.heapBase + h.heapSize) := by
    simpa using hr.fits
  obtain ⟨-, hpost'⟩ := hf.around
  have hac := hpost c mem_cons_self
  have hlen : length h.mem a.addr = a.len := by rw [length_eq, hat]
  have hlenc : length h.mem c.addr = c.len := by rw [length_eq, hct]
  have hnxt : next h.mem c.addr = firstAddr post 0 := by rw [next_eq, hct]
  obtain ⟨hj1, hj2, hj3⟩ := hj
  rw [hlen, hlenc, hnxt] at hj1
  rw [hnxt] at hj2 hj3
  have hkeep : ∀ d : Blk, Apart a.addr d.addr → (firstAddr post 0 ≠ 0 → Apart (firstAddr post 0) d.addr) →
      block m' d.addr = block h.mem d.addr := by
    intro d h1 h2
    exact block_congr fun x hx1 hx2 => hj3 x (h1.beside hx1 hx2) fun h0 => (h2 h0).beside hx1 hx2
  refine Rep.replace [a, c] [joins.join a c] hr (fun _ => rfl) ?_ ?_ ?_ ?_ ?_ ?_
  · rintro lo hi ⟨h1, h2, h3⟩
    refine ⟨h1, ?_⟩
    simp only [Fits, joins, Blk.fin, headerSize] at *
    omega
  · simpa [Blk.ptr, joins] using hr.valid a (by simp)
  · intro d hd
    have hda := hpre d hd
    apply hkeep d
    · simp only [Apart, Blk.fin, headerSize] at *
      omega
    · intro h0
      obtain ⟨e, es, rfl⟩ := cons_of_firstAddr h0
      have he := hpost' e mem_cons_self
      simp only [Apart, firstAddr, Blk.fin, headerSize] at *
      omega
  · rw [laid_cons]
    refine ⟨?_, laid_nil⟩
    rw [show (joins.join a c).addr = a.addr from rfl, hj1, hat, ha]
    rfl
  · intro d hd
    obtain ⟨ds, rfl⟩ : ∃ ds, post = d :: ds := head?_eq_some_iff.mp hd
    have hd0 := hr.valid d (by simp)
    exact hj2 (by simp only [firstAddr]; omega)
  · intro d hd
    cases post with
    | nil => simp at hd
    | cons e es =>
      have hae := hpost' d (mem_cons_of_mem _ hd)
      have hed : e.fin ≤ d.addr := by
        have hf' : Fits h.heapBase ((pre ++ [a, c]) ++ e :: es) (h.heapBase + h.heapSize) := by
          simpa using hr.fits
        exact hf'.around.2 d hd
      apply hkeep d
      · simp only [Apart, Blk.fin, headerSize] at *
        omega
      · intro _
        simp only [Apart, firstAddr, Blk.fin, headerSize] at *
        omega

theorem Rep.payload (hout : ∀ x, (∀ b ∈ bs, x < b.ptr ∨ b.fin ≤ x) → m' x = h.mem x) :
    Rep { h with mem := m' } bs := by
  refine ⟨hr.first, hr.laid.congr ?_, hr.fits, hr.top, hr.valid⟩
  intro b hb
  apply block_congr
  intro x h1 h2
  apply hout
  intro c hc
  by_contra hx
  have := hr.beside_payload hb hc (x := x) (by omega) (by omega)
  simp only [Beside, headerSize] at *
  omega

end Places

/-! ## Walks -/

theorem walk_spec (h : Laid m prv bs 0) (hpos : ∀ b ∈ bs, 0 < b.addr) (hfuel : bs.length < fuel) :
    walk m fuel (firstAddr bs 0) = some (headers prv bs 0) := by
  induction bs generalizing prv fuel with
  | nil =>
    obtain _ | k := fuel
    · simp at hfuel
    simp [walk, firstAddr, headers]
  | cons b bs ih =>
    obtain _ | k := fuel
    · simp at hfuel
    rw [laid_cons] at h
    have hb := hpos b mem_cons_self
    have hnext : next m b.addr = firstAddr bs 0 := by rw [next_eq, h.1]
    rw [walk, firstAddr, if_neg (by omega), hnext,
      ih h.2 (fun c hc => hpos c (mem_cons_of_mem _ hc)) (by simpa using hfuel), h.1]
    rfl

theorem Rep.blockList (hr : Rep h bs) : blockList h = some (headers 0 bs 0) := by
  rw [Heap.blockList, hr.first]
  exact walk_spec hr.laid (fun b hb => (hr.valid b hb).1) hr.length_lt

def addrOf (best : Option Blk) : Nat := (best.map Blk.addr).getD 0

theorem bestFit_spec {n : Nat} (best : Option Blk) (h : Laid m prv bs 0)
    (hpos : ∀ b ∈ bs, 0 < b.addr) (hfuel : bs.length < fuel)
    (hbest : ∀ c ∈ best, 0 < c.addr ∧ length m c.addr = c.len) :
    bestFit m n fuel (firstAddr bs 0) (addrOf best) = some (addrOf (bs.foldl (better n) best)) := by
  induction bs generalizing prv fuel best with
  | nil =>
    obtain _ | k := fuel
    · simp at hfuel
    simp [bestFit, firstAddr]
  | cons b bs ih =>
    obtain _ | k := fuel
    · simp at hfuel
    rw [laid_cons] at h
    have hb := hpos b mem_cons_self
    have hpos' : ∀ c ∈ bs, 0 < c.addr := fun c hc => hpos c (mem_cons_of_mem _ hc)
    have hfuel' : bs.length < k := by simpa using hfuel
    have hnext : next m b.addr = firstAddr bs 0 := by rw [next_eq, h.1]
    have hlen : length m b.addr = b.len := by rw [length_eq, h.1]
    have hfree : isFree m b.addr = b.free := by rw [isFree_eq, h.1]
    have hcond : (addrOf best = 0 ∨ b.len < length m (addrOf best)) ↔ ∀ c ∈ best, b.len < c.len := by
      cases best with
      | none => simp [addrOf]
      | some c =>
        obtain ⟨hc, hcl⟩ := hbest c rfl
        simp only [addrOf, map_some, getD_some, hcl, mem_def,
          some.injEq, forall_eq']
        omega
    rw [bestFit, firstAddr, if_neg (by omega), hnext, hlen, hfree, foldl_cons, better]
    simp only [hcond]
    split_ifs with hif
    · exact ih (some b) h.2 hpos' hfuel' (by simpa using ⟨hb, hlen⟩)
    · exact ih best h.2 hpos' hfuel' hbest

theorem findBase_spec {ptr : Nat} (h : Laid m prv bs 0) (hpos : ∀ b ∈ bs, 0 < b.addr)
    (hfuel : bs.length < fuel) :
    findBase m ptr fuel (firstAddr bs 0) = some (addrOf (bs.find? fun b => b.ptr = ptr)) := by
  induction bs generalizing prv fuel with
  | nil =>
    obtain _ | k := fuel
    · simp at hfuel
    simp [findBase, firstAddr, addrOf]
  | cons b bs ih =>
    obtain _ | k := fuel
    · simp at hfuel
    rw [laid_cons] at h
    have hb := hpos b mem_cons_self
    have hnext : next m b.addr = firstAddr bs 0 := by rw [next_eq, h.1]
    have hbase : base m b.addr = b.ptr := by rw [base_eq, h.1]
    rw [findBase, firstAddr, if_neg (by omega), hnext, hbase, find?_cons]
    by_cases hp : b.ptr = ptr
    · simp [hp, addrOf]
    · rw [if_neg hp, ih h.2 (fun c hc => hpos c (mem_cons_of_mem _ hc)) (by simpa using hfuel)]
      simp [hp]

/-! ## `malloc` -/

/-- Bytes of blocks in use stay as they are. -/
def KeepsUsed (bs : List Blk) (m m' : Mem) : Prop :=
  ∀ c ∈ bs, c.free = false → ∀ x, c.ptr ≤ x → x < c.fin → m' x = m x

/-- Bytes of the blocks other than `b` stay as they are. -/
def KeepsOthers (b : Blk) (bs : List Blk) (m m' : Mem) : Prop :=
  ∀ c ∈ bs, c ≠ b → ∀ x, c.ptr ≤ x → x < c.fin → m' x = m x

theorem KeepsOthers.used (h : KeepsOthers b bs m m') (hfree : b.free = true) :
    KeepsUsed bs m m' := by
  intro c hc hused
  apply h c hc
  rintro rfl
  rw [hused] at hfree
  exact absurd hfree (by decide)

section Malloc

variable {h : Heap} {bs : List Blk} {n : Nat} (hr : Rep h bs)

include hr

theorem Rep.bestFit : bestFit h.mem n word h.heapBase 0 = some (addrOf (bestBlock n bs)) := by
  rw [hr.first]
  exact bestFit_spec none hr.laid (fun b hb => (hr.valid b hb).1) hr.length_lt (by simp)

theorem malloc_none (hb : bestBlock n bs = none) :
    h.malloc n = some (0, h.errf (.mallocNoFit n)) := by
  unfold malloc
  rw [hr.bestFit, hb]
  rfl

section Split

variable {pre post : List Blk} {b : Blk} (hbs : bs = pre ++ b :: post) (hn : n + headerSize < b.len)

include hbs hn

theorem Rep.split_outside {x : Nat} (hx : ∀ c ∈ bs, Beside c.addr x)
    (hnew : Beside (b.addr + headerSize + n) x) : Heap.split h.mem b.addr n x = h.mem x := by
  have hat := hr.block_at pre b post hbs
  have hlen : length h.mem b.addr = b.len := by rw [length_eq, hat]
  have hnxt : next h.mem b.addr = firstAddr post 0 := by rw [next_eq, hat]
  have hfin := hr.fin_le (b := b) (by simp [hbs])
  apply Heap.split_outside (by rw [hlen]; exact hn) (by rw [hlen]; exact hfin)
  · exact hx b (by simp [hbs])
  · exact hnew
  · rw [hnxt]
    intro h0
    obtain ⟨d, ds, rfl⟩ := cons_of_firstAddr h0
    exact hx d (by simp [hbs])

theorem Rep.split :
    Rep { h with mem := Heap.split h.mem b.addr n }
      (pre ++ ⟨b.addr, n, b.free⟩ ::
        ⟨b.addr + headerSize + n, b.len - n - headerSize, true⟩ :: post) := by
  have hat := hr.block_at pre b post hbs
  have hlen : length h.mem b.addr = b.len := by rw [length_eq, hat]
  have hnxt : next h.mem b.addr = firstAddr post 0 := by rw [next_eq, hat]
  subst hbs
  obtain ⟨hpre, hpost⟩ := hr.fits.around
  have hfin := hr.fin_le (b := b) (by simp)
  have hval := hr.valid b (by simp)
  have hnext : next h.mem b.addr ≠ 0 → b.addr + headerSize + length h.mem b.addr ≤ next h.mem b.addr := by
    rw [hnxt, hlen]
    intro h0
    obtain ⟨c, cs, rfl⟩ := cons_of_firstAddr h0
    exact hpost c mem_cons_self
  obtain ⟨hb1, hb2, hb3⟩ := split_blocks (by rw [hlen]; exact hn) (by rw [hlen]; exact hfin) hnext
  have hout := @Heap.split_outside h.mem b.addr n (by rw [hlen]; exact hn) (by rw [hlen]; exact hfin)
  rw [hnxt] at hb2 hb3 hout
  -- Headers other than these three keep their bytes.
  have hkeep : ∀ c : Blk, c.fin ≤ b.addr ∨ b.fin ≤ c.addr →
      (firstAddr post 0 ≠ 0 → Apart (firstAddr post 0) c.addr) →
      block (Heap.split h.mem b.addr n) c.addr = block h.mem c.addr := by
    intro c h1 h2
    have a1 : Apart b.addr c.addr := by simp only [Apart, Blk.fin, headerSize] at *; omega
    have a2 : Apart (b.addr + headerSize + n) c.addr := by
      simp only [Apart, Blk.fin, headerSize] at *; omega
    exact block_congr fun x hx1 hx2 =>
      hout (a1.beside hx1 hx2) (a2.beside hx1 hx2) fun h0 => (h2 h0).beside hx1 hx2
  refine Rep.replace [b]
    [⟨b.addr, n, b.free⟩, ⟨b.addr + headerSize + n, b.len - n - headerSize, true⟩] hr ?_ ?_ ?_ ?_ ?_
    ?_ ?_
  · exact fun nxt => rfl
  · rintro lo hi ⟨h1, h2⟩
    refine ⟨h1, le_refl _, ?_⟩
    simp only [Fits, Blk.fin, headerSize] at *
    omega
  · intro c hc
    simp only [mem_cons, not_mem_nil, or_false, headerSize, Blk.ptr, Blk.fin] at *
    rcases hc with rfl | rfl <;> simp only <;> omega
  · intro c hc
    have hcb := hpre c hc
    apply hkeep c (Or.inl hcb)
    intro h0
    obtain ⟨d, ds, rfl⟩ := cons_of_firstAddr h0
    have hd := hpost d mem_cons_self
    simp only [Apart, firstAddr, Blk.fin, headerSize] at *
    omega
  · rw [laid_cons, laid_cons]
    refine ⟨?_, ?_, laid_nil⟩
    · rw [hb1, hat]
      rfl
    · rw [hb2, hlen]
      rfl
  · intro c hc
    obtain ⟨cs, rfl⟩ : ∃ cs, post = c :: cs := head?_eq_some_iff.mp hc
    have hc0 := hr.valid c (by simp)
    exact hb3 (by simp only [firstAddr]; omega)
  · intro c hc
    cases post with
    | nil => simp at hc
    | cons d ds =>
      have hbc := hpost c (mem_cons_of_mem _ hc)
      have hdc : d.fin ≤ c.addr := by
        have hf : Fits h.heapBase ((pre ++ [b]) ++ d :: ds) (h.heapBase + h.heapSize) := by
          simpa using hr.fits
        exact hf.around.2 c hc
      apply hkeep c (Or.inr hbc)
      intro _
      simp only [Apart, firstAddr, Blk.fin, headerSize] at *
      omega

theorem Rep.split_others : KeepsOthers b bs h.mem (Heap.split h.mem b.addr n) := by
  intro c hc hne x h1 h2
  refine hr.split_outside hbs hn (fun d hd => hr.beside_payload hd hc h1 h2) ?_
  -- The new header lies in the payload of `b`.
  have hap := hr.fits.apart hc (by simp [hbs] : b ∈ bs) hne
  simp only [Beside, Blk.ptr, Blk.fin, headerSize] at *
  omega

end Split

theorem Rep.take (hbs : bs = pre ++ b :: post) {m1 : Mem}
    (hm1 : m1 = if n + headerSize < b.len then Heap.split h.mem b.addr n else h.mem)
    (hm' : m' = setFree m1 b.addr false) :
    Rep { h with mem := m' } (pre ++ (carve n b ++ post)) ∧ base m' b.addr = b.ptr ∧
      KeepsOthers b bs h.mem m' ∧ ∀ x < n, m' (b.ptr + x) = h.mem (b.ptr + x) := by
  have hb : b ∈ bs := by simp [hbs]
  have hout : ∀ x, Beside b.addr x → m' x = m1 x := by
    intro x hx
    rw [hm']
    exact putField_outside _ _ (by decide) hx
  have hbase : base m' b.addr = (block m1 b.addr).base := by rw [hm', base_eq, block_setFree]
  by_cases hc : n + headerSize < b.len
  · rw [if_pos hc] at hm1
    have hrep := hr.split hbs hc
    have hat := hrep.block_at pre _ _ rfl
    rw [← hm1] at hrep hat
    refine ⟨?_, by rw [hbase, hat]; rfl, ?_, ?_⟩
    · rw [carve, if_pos hc]
      exact hrep.edit (b := ⟨b.addr, n, b.free⟩) n false rfl (le_refl n)
        (by rw [hm', block_setFree, hat]) hout
    · intro c hc' hne x h1 h2
      rw [hout x (hr.beside_payload hb hc' h1 h2), hm1]
      exact hr.split_others hbs hc c hc' hne x h1 h2
    · intro x hx
      have hxb : b.ptr + x < b.fin := by simp only [Blk.ptr, Blk.fin]; omega
      have hx1 : b.ptr ≤ b.ptr + x := Nat.le_add_right _ _
      rw [hout _ (hr.beside_payload hb hb hx1 hxb), hm1]
      refine hr.split_outside hbs hc (fun d hd => hr.beside_payload hd hb hx1 hxb) ?_
      simp only [Beside, Blk.ptr]
      omega
  · rw [if_neg hc] at hm1
    have hat := hr.block_at pre b post hbs
    subst hm1
    refine ⟨?_, by rw [hbase, hat], ?_, ?_⟩
    · rw [carve, if_neg hc]
      exact hr.edit b.len false hbs (le_refl _) (by rw [hm', block_setFree, hat]) hout
    · intro c hc' hne x h1 h2
      exact hout x (hr.beside_payload hb hc' h1 h2)
    · intro x hx
      apply hout
      simp only [Beside, Blk.ptr]
      omega

theorem malloc_some (hb : bestBlock n bs = some b) (hbs : bs = pre ++ b :: post) :
    ∃ m', h.malloc n = some (b.ptr, { h with mem := m' }) ∧
      Rep { h with mem := m' } (pre ++ (carve n b ++ post)) ∧ KeepsOthers b bs h.mem m' ∧
      ∀ x < n, m' (b.ptr + x) = h.mem (b.ptr + x) := by
  obtain ⟨hmem, hfree, hn⟩ := bestBlock_some hb
  have hat := hr.block_at pre b post hbs
  have hlen := hr.length_at hmem
  have hval := hr.valid b hmem
  have hfin := hr.fin_le hmem
  have hwrap : (n + headerSize) % word = n + headerSize := by
    apply Nat.mod_eq_of_lt
    simp only [Blk.fin, headerSize] at *
    omega
  have haddr : addrOf (some b) ≠ 0 := by
    simp only [addrOf, map_some, getD_some]
    omega
  obtain ⟨m1, hm1⟩ : ∃ m1, m1 = if n + headerSize < b.len then Heap.split h.mem b.addr n else h.mem :=
    ⟨_, rfl⟩
  obtain ⟨hrep, hbase, hkeeps, hbytes⟩ := hr.take hbs hm1 rfl
  refine ⟨_, ?_, hrep, hkeeps, hbytes⟩
  unfold malloc
  rw [hr.bestFit, hb]
  simp only [bind_eq_bind, bind_some, if_neg haddr]
  simp only [addrOf, map_some, getD_some, hlen, hwrap, gt_iff_lt, ← hm1, hbase]

end Malloc

end Terrakernel.Heap
