import Terrakernel.Heap.Refine

/-!
# `free`, `realloc`, `calloc` and `defragment` on the block list

On a list without free neighbours `free` marks a block and joins the whole list.
-/

namespace Terrakernel.Heap

open Memory Mem Coalesce Option
open List hiding Mem

variable {b c a : Blk} {bs pre post bs1 : List Blk} {m m' : Mem} {h h1 : Heap}

/-- Only bytes of headers of the list change. -/
def OnlyHeaders (bs : List Blk) (m m' : Mem) : Prop :=
  ∀ x, (∀ b ∈ bs, Beside b.addr x) → m' x = m x

theorem OnlyHeaders.refl (bs : List Blk) (m : Mem) : OnlyHeaders bs m m := fun _ _ => rfl

theorem OnlyHeaders.trans {cs : List Blk} {m'' : Mem} (h1 : OnlyHeaders bs m m')
    (h2 : OnlyHeaders cs m' m'') (hsub : ∀ c ∈ cs, ∃ b ∈ bs, b.addr = c.addr) :
    OnlyHeaders bs m m'' := by
  intro x hx
  rw [h2 x, h1 x hx]
  intro c hc
  obtain ⟨b, hb, he⟩ := hsub c hc
  rw [← he]
  exact hx b hb

theorem OnlyHeaders.payload (ho : OnlyHeaders bs h.mem m') (hr : Rep h bs) (hc : c ∈ bs) {x : Nat}
    (h1 : c.ptr ≤ x) (h2 : x < c.fin) : m' x = h.mem x :=
  ho x fun _ hb => hr.beside_payload hb hc h1 h2

section Neighbours

variable {h : Heap} {bs : List Blk} (hr : Rep h bs)

include hr

theorem Rep.neighbours (hbs : bs = pre ++ a :: c :: post) :
    Apart a.addr c.addr ∧ length h.mem a.addr + length h.mem c.addr + headerSize < word ∧
      (next h.mem c.addr ≠ 0 → Apart (next h.mem c.addr) a.addr) := by
  have hat := hr.block_at pre a (c :: post) hbs
  have hct := hr.block_at (pre ++ [a]) c post (by simp [hbs])
  have hac : a.fin ≤ c.addr := by
    have := hr.fits
    rw [hbs] at this
    exact this.around.2 c mem_cons_self
  have hcfin := hr.fin_le (b := c) (by simp [hbs])
  have ha := hr.valid a (by simp [hbs])
  rw [length_eq, length_eq, next_eq, hat, hct]
  refine ⟨?_, ?_, ?_⟩
  · simp only [Apart, Blk.fin, headerSize] at *
    omega
  · simp only [Blk.ptr, Blk.fin, headerSize] at *
    omega
  · intro h0
    obtain ⟨d, ds, rfl⟩ := cons_of_firstAddr h0
    have hcd : c.fin ≤ d.addr := by
      have := hr.fits
      rw [hbs, show pre ++ a :: c :: d :: ds = (pre ++ [a]) ++ c :: d :: ds by simp] at this
      exact this.around.2 d mem_cons_self
    simp only [Apart, firstAddr, Blk.fin, headerSize] at *
    omega

theorem Joined.onlyHeaders (hbs : bs = pre ++ a :: c :: post) (hj : Joined h.mem m' a.addr c.addr) :
    OnlyHeaders bs h.mem m' := by
  have hct := hr.block_at (pre ++ [a]) c post (by simp [hbs])
  intro x hx
  apply hj.outside x (hx a (by simp [hbs]))
  rw [next_eq, hct]
  intro h0
  obtain ⟨d, ds, rfl⟩ := cons_of_firstAddr h0
  exact hx d (by simp [hbs])

theorem joinNext_step (hbs : bs = pre ++ b :: post) (hb : b.free = true) :
    ∃ m', (if next h.mem b.addr ≠ 0 ∧ isFree h.mem (next h.mem b.addr) then joinNext h.mem b.addr
        else h.mem) = m' ∧
      Rep { h with mem := m' } (pre ++ joins.push b post) ∧ OnlyHeaders bs h.mem m' := by
  have hat := hr.block_at pre b post hbs
  have hnxt : next h.mem b.addr = firstAddr post 0 := by rw [next_eq, hat]
  rw [hnxt]
  cases post with
  | nil =>
    refine ⟨h.mem, by simp [firstAddr], ?_, .refl _ _⟩
    rw [hbs] at hr
    exact hr
  | cons c cs =>
    have hct := hr.block_at (pre ++ [b]) c cs (by simp [hbs])
    have hc0 := hr.valid c (by simp [hbs])
    have hfree : isFree h.mem c.addr = c.free := by rw [isFree_eq, hct]
    rw [firstAddr, hfree]
    by_cases hc : c.free = true
    · obtain ⟨h1, h2, h3⟩ := hr.neighbours hbs
      have hval := hr.valid b (by simp [hbs])
      have hj := joinNext_spec h1 h2 h3 (by simp only [Blk.ptr] at hval; omega) hnxt
      refine ⟨joinNext h.mem b.addr, if_pos ⟨by omega, hc⟩, ?_, hj.onlyHeaders hr hbs⟩
      rw [joins.push_free hb hc]
      exact hr.join hbs hb hj
    · refine ⟨h.mem, if_neg (fun hh => hc hh.2), ?_, .refl _ _⟩
      rw [joins.push_apart (fun hh => hc hh.2), ← hbs]
      exact hr

theorem joinPrev_step (hbs : bs = pre ++ b :: post) (hb : b.free = true) (hpre : joins.Normal pre)
    (hpost : joins.Normal (b :: post)) :
    ∃ m', (if prev h.mem b.addr ≠ 0 ∧ isFree h.mem (prev h.mem b.addr) then joinPrev h.mem b.addr
        else h.mem) = m' ∧
      Rep { h with mem := m' } (joins.norm (pre ++ b :: post)) ∧ OnlyHeaders bs h.mem m' := by
  have hat := hr.block_at pre b post hbs
  have hprv : prev h.mem b.addr = lastAddr 0 pre := by rw [prev_eq, hat]
  rw [hprv]
  rcases eq_nil_or_concat pre with rfl | ⟨as, a, rfl⟩
  · refine ⟨h.mem, by simp [lastAddr], ?_, .refl _ _⟩
    rw [nil_append, joins.norm_of_normal hpost, ← nil_append (b :: post), ← hbs]
    exact hr
  · rw [concat_eq_append] at *
    rw [append_assoc, singleton_append] at hbs ⊢
    have haa := hr.block_at as a (b :: post) hbs
    have ha0 := hr.valid a (by simp [hbs])
    have hfree : isFree h.mem a.addr = a.free := by rw [isFree_eq, haa]
    rw [lastAddr_snoc] at hprv ⊢
    rw [hfree]
    by_cases ha : a.free = true
    · obtain ⟨h1, h2, h3⟩ := hr.neighbours hbs
      have hj := joinPrev_spec h1 h2 h3 (by simp only [Blk.ptr] at ha0; omega) hprv
      refine ⟨joinPrev h.mem b.addr, if_pos ⟨by omega, ha⟩, ?_, hj.onlyHeaders hr hbs⟩
      rw [joins.norm_join_middle hpre hpost ha hb]
      exact hr.join hbs ha hj
    · refine ⟨h.mem, if_neg (fun hh => ha hh.2), ?_, .refl _ _⟩
      rw [joins.norm_of_normal, ← hbs]
      · exact hr
      · exact isChain_split.mpr ⟨hpre, .cons_cons (fun hh => ha hh.1) hpost⟩

end Neighbours

/-! ## `free` -/

/-- What `free` writes to the log. -/
def freeLog (ptr : Nat) (bs : List Blk) : List HeapErr :=
  if ptr = 0 ∨ ∃ b ∈ bs, b.ptr = ptr then [] else [.freeNotAllocated ptr]

theorem map_release_at (hr : Rep h (pre ++ b :: post)) :
    (pre ++ b :: post).map (release b.ptr) = pre ++ ⟨b.addr, b.len, true⟩ :: post :=
  hr.fits.map_at fun c => ⟨c.addr, c.len, true⟩

section Calls

variable {h : Heap} {bs : List Blk} (hr : Rep h bs) (hn : joins.Normal bs)

include hr

theorem Rep.findBase (ptr : Nat) :
    findBase h.mem ptr word h.heapBase = some (addrOf (bs.find? fun b => b.ptr = ptr)) := by
  rw [hr.first]
  exact findBase_spec hr.laid (fun b hb => (hr.valid b hb).1) hr.length_lt

omit hr

include hn

theorem freed_of_not_mem {ptr : Nat} (hptr : ∀ b ∈ bs, b.ptr ≠ ptr) : freed ptr bs = bs := by
  rw [freed, map_release_of_not_mem hptr, joins.norm_of_normal hn]

include hr

theorem free_found (hbs : bs = pre ++ b :: post) : ∃ m', h.free b.ptr = some { h with mem := m' } ∧
      Rep { h with mem := m' } (freed b.ptr bs) ∧ OnlyHeaders bs h.mem m' := by
  have hat := hr.block_at pre b post hbs
  have haddr := (hr.valid b (by simp [hbs])).1
  have hptr : b.ptr ≠ 0 := by simp [Blk.ptr]
  have hfind := hr.fits.find_ptr (b := b) (by simp [hbs])
  have hnpre : joins.Normal pre := by
    rw [hbs] at hn
    exact hn.left_of_append
  have hnpost : joins.Normal post := by
    rw [hbs] at hn
    exact hn.right_of_append.of_cons
  -- The block is marked, then joined to the right, then to the left.
  obtain ⟨m1, hm1⟩ : ∃ m, m = setFree h.mem b.addr true := ⟨_, rfl⟩
  have hrep1 : Rep { h with mem := m1 } (pre ++ ⟨b.addr, b.len, true⟩ :: post) :=
    hr.edit b.len true hbs (le_refl _) (by rw [hm1, block_setFree, hat])
      (fun x hx => by rw [hm1]; exact putField_outside _ _ (by decide) hx)
  have hout1 : OnlyHeaders bs h.mem m1 := by
    intro x hx
    rw [hm1]
    exact putField_outside _ _ (by decide) (hx b (by simp [hbs]))
  obtain ⟨m2, hm2, hrep2, hout2⟩ := joinNext_step hrep1 rfl rfl
  obtain ⟨x, rest, hpush, hxa, hxf⟩ := push_cons ⟨b.addr, b.len, true⟩ post
  have hnx : joins.Normal (x :: rest) := by
    rw [← hpush]
    exact joins.push_normal hnpost
  rw [hpush] at hrep2
  obtain ⟨m3, hm3, hrep3, hout3⟩ := joinPrev_step hrep2 rfl (hxf rfl) hnpre hnx
  rw [hxa] at hm3
  refine ⟨m3, ?_, ?_, ?_⟩
  · unfold free
    rw [if_neg hptr, hr.findBase, hfind]
    simp only [bind_eq_bind, bind_some, addrOf, map_some, getD_some]
    rw [if_neg (by omega), ← hm1]
    dsimp only at hm2 hm3 ⊢
    rw [hm2, hm3]
  · rw [freed, hbs, map_release_at (hbs ▸ hr), ← joins.norm_append, joins.norm_cons,
      joins.norm_of_normal hnpost, hpush]
    exact hrep3
  · refine (hout1.trans hout2 ?_).trans hout3 ?_
    · intro c hc
      rw [mem_append, mem_cons] at hc
      rcases hc with hc | rfl | hc
      · exact ⟨c, by simp [hbs, hc], rfl⟩
      · exact ⟨b, by simp [hbs], rfl⟩
      · exact ⟨c, by simp [hbs, hc], rfl⟩
    · intro c hc
      rw [← hpush, mem_append] at hc
      rcases hc with hc | hc
      · exact ⟨c, by simp [hbs, hc], rfl⟩
      · rcases mem_push_addr hc with he | hc
        · exact ⟨b, by simp [hbs], he.symm⟩
        · exact ⟨c, by simp [hbs, hc], rfl⟩

end Calls

/-! ## One statement for each operation -/

/-- The operation took the heap from `bs` to `bs'`, wrote `l` to the log and left the payload of
every block in use as it was. -/
structure Yields (h : Heap) (bs : List Blk) (h' : Heap) (bs' : List Blk) (l : List HeapErr) :
    Prop where
  rep : Rep h' bs'
  heapBase : h'.heapBase = h.heapBase
  heapSize : h'.heapSize = h.heapSize
  log : h'.log = h.log ++ l
  keeps : KeepsUsed bs h.mem h'.mem

theorem Rep.errf (hr : Rep h bs) (e : HeapErr) : Yields h bs (h.errf e) bs [e] :=
  ⟨⟨hr.first, hr.laid, hr.fits, hr.top, hr.valid⟩, rfl, rfl, rfl, fun _ _ _ _ _ _ => rfl⟩

theorem Rep.same (hr : Rep h bs) : Yields h bs h bs [] :=
  ⟨hr, rfl, rfl, by simp, fun _ _ _ _ _ _ => rfl⟩

theorem OnlyHeaders.yields {bs' : List Blk} (ho : OnlyHeaders bs h.mem m') (hr : Rep h bs)
    (hr' : Rep { h with mem := m' } bs') : Yields h bs { h with mem := m' } bs' [] :=
  ⟨hr', rfl, rfl, by simp, fun _ hc _ _ h1 h2 => ho.payload hr hc h1 h2⟩

theorem mem_of_find_ptr {ptr : Nat} (h : (bs.find? fun b => b.ptr = ptr) = some b) :
    b ∈ bs ∧ b.ptr = ptr :=
  ⟨mem_of_find?_eq_some h, by simpa using find?_some h⟩

/-- What `malloc` writes to the log. -/
def mallocLog (n : Nat) (bs : List Blk) : List HeapErr :=
  if (allot n bs).1 = 0 then [.mallocNoFit n] else []

theorem malloc_spec (hr : Rep h bs) (n : Nat) :
    ∃ h', h.malloc n = some ((allot n bs).1, h') ∧
      Yields h bs h' (allot n bs).2 (mallocLog n bs) := by
  unfold mallocLog
  cases hb : bestBlock n bs with
  | none =>
    refine ⟨_, by rw [malloc_none hr hb, allot, hb], ?_⟩
    simp only [allot, hb]
    exact hr.errf _
  | some b =>
    obtain ⟨pre, post, hbs⟩ := append_of_mem (bestBlock_some hb).1
    obtain ⟨m', hm, hr', hk, -⟩ := malloc_some hr hb hbs
    have hptr : b.ptr ≠ 0 := by simp [Blk.ptr]
    rw [hr.fits.allot_some hb hbs, if_neg hptr]
    exact ⟨_, hm, hr', rfl, rfl, by simp, hk.used (bestBlock_some hb).2.1⟩

theorem malloc_bytes {h' : Heap} (hr : Rep h bs) {n p : Nat} (hm : h.malloc n = some (p, h'))
    (hp : p ≠ 0) :
    ∃ b, bestBlock n bs = some b ∧ p = b.ptr ∧ ∀ x < n, h'.mem (p + x) = h.mem (p + x) := by
  cases hb : bestBlock n bs with
  | none =>
    rw [malloc_none hr hb] at hm
    cases hm
    exact absurd rfl hp
  | some b =>
    obtain ⟨pre, post, hbs⟩ := append_of_mem (bestBlock_some hb).1
    obtain ⟨m', hm', -, -, hsame⟩ := malloc_some hr hb hbs
    rw [hm'] at hm
    cases hm
    exact ⟨b, rfl, rfl, hsame⟩

theorem free_spec (hr : Rep h bs) (hn : joins.Normal bs) (ptr : Nat) :
    ∃ h', h.free ptr = some h' ∧ Yields h bs h' (freed ptr bs) (freeLog ptr bs) := by
  unfold freeLog
  by_cases h0 : ptr = 0
  · refine ⟨h, by rw [free, if_pos h0], ?_⟩
    rw [if_pos (Or.inl h0), freed_of_not_mem hn]
    · exact hr.same
    · rintro b - rfl
      simp [Blk.ptr] at h0
  · cases hf : bs.find? fun b => b.ptr = ptr with
    | none =>
      have hnot : ∀ b ∈ bs, b.ptr ≠ ptr := by simpa using hf
      refine ⟨h.errf (.freeNotAllocated ptr), ?_, ?_⟩
      · unfold free
        rw [if_neg h0, hr.findBase, hf]
        rfl
      · rw [freed_of_not_mem hn hnot, if_neg]
        · exact hr.errf _
        · rintro (h | ⟨b, hb, h⟩)
          · exact h0 h
          · exact hnot b hb h
    | some b =>
      obtain ⟨hb, rfl⟩ := mem_of_find_ptr hf
      obtain ⟨pre, post, hbs⟩ := append_of_mem hb
      obtain ⟨m', hm, hr', ho⟩ := free_found hr hn hbs
      rw [if_pos (Or.inr ⟨b, hb, rfl⟩)]
      exact ⟨_, hm, ho.yields hr hr'⟩

theorem Yields.fill {l : List HeapErr} (hy : Yields h bs h1 bs1 l) (hc : c ∈ bs1)
    (hapart : ∀ d ∈ bs, d.free = false → d.fin ≤ c.addr ∨ c.fin ≤ d.addr)
    (hout : ∀ x, x < c.ptr ∨ c.fin ≤ x → m' x = h1.mem x) :
    Yields h bs { h1 with mem := m' } bs1 l := by
  refine ⟨hy.rep.payload fun x hx => hout x (hx c hc), hy.heapBase, hy.heapSize, hy.log, ?_⟩
  intro d hd hused x h1 h2
  refine (hout x ?_).trans (hy.keeps d hd hused x h1 h2)
  have := hapart d hd hused
  simp only [Blk.ptr, Blk.fin] at *
  omega

theorem calloc_spec (hr : Rep h bs) (n size : Nat) :
    ∃ h', h.calloc n size = some ((allot (n * size % word) bs).1, h') ∧
      Yields h bs h' (allot (n * size % word) bs).2 (mallocLog (n * size % word) bs) ∧
      ((allot (n * size % word) bs).1 ≠ 0 →
        ∀ i < n * size % word, h'.mem ((allot (n * size % word) bs).1 + i) = 0) := by
  unfold calloc
  obtain ⟨h1, hm, hy⟩ := malloc_spec hr (n * size % word)
  generalize n * size % word = total at *
  by_cases h0 : (allot total bs).1 = 0
  · refine ⟨h1, ?_, hy, fun hh => absurd h0 hh⟩
    simp [hm, h0]
  · obtain ⟨c, hc, hcp, -, hcn, hapart⟩ := hr.fits.allot_block h0
    have hset := memset_apply h1.mem (allot total bs).1 0 total
    refine ⟨{ h1 with mem := memset h1.mem (allot total bs).1 0 total }, ?_, hy.fill hc ?_ ?_, ?_⟩
    · simp [hm, h0]
    · exact fun d hd hu => hapart d hd (Or.inl hu)
    · intro x hx
      rw [hset, if_neg]
      simp only [Blk.ptr, Blk.fin] at *
      omega
    · intro _ i hi
      exact (hset _).trans (if_pos (by omega))

/-! ## `realloc` -/

/-- What `realloc` writes to the log. -/
def reallocLog (ptr n : Nat) (bs : List Blk) : List HeapErr :=
  if ptr = 0 then mallocLog n bs
  else if n = 0 then freeLog ptr bs
  else
    match bs.find? fun b => b.ptr = ptr with
    | none => [.reallocNotFound ptr]
    | some b =>
      if n ≤ b.len then []
      else if (allot n bs).1 = 0 then [.mallocNoFit n, .reallocNoFit n]
      else []

theorem Yields.trans {h2 : Heap} {bs2 : List Blk} {l1 l2 : List HeapErr}
    (hy1 : Yields h bs h1 bs1 l1) (hy2 : Yields h1 bs1 h2 bs2 l2)
    (hsub : ∀ c ∈ bs, c.free = false → c ∈ bs1) : Yields h bs h2 bs2 (l1 ++ l2) := by
  refine ⟨hy2.rep, hy2.heapBase.trans hy1.heapBase, hy2.heapSize.trans hy1.heapSize, ?_, ?_⟩
  · rw [hy2.log, hy1.log, append_assoc]
  · intro c hc hu x hx1 hx2
    rw [hy2.keeps c (hsub c hc hu) hu x hx1 hx2, hy1.keeps c hc hu x hx1 hx2]

section Realloc

variable {h : Heap} {bs pre post : List Blk} {n : Nat} {b : Blk} (hr : Rep h bs)
  (hbs : bs = pre ++ b :: post)

include hr hbs

theorem realloc_shrink (hn : n ≤ b.len) :
    Yields h bs { h with mem := setLength h.mem b.addr n } (bs.map (resize b.ptr n)) [] := by
  have hat := hr.block_at pre b post hbs
  have hfin := hr.fin_le (b := b) (by simp [hbs])
  have hout : ∀ x, Beside b.addr x → setLength h.mem b.addr n x = h.mem x :=
    fun x hx => putField_outside _ _ (by decide) hx
  have hn' : n % word = n := by
    apply Nat.mod_eq_of_lt
    simp only [Blk.fin, headerSize] at *
    omega
  have hmap : bs.map (resize b.ptr n) = pre ++ ⟨b.addr, n, b.free⟩ :: post := by
    have := hr.fits
    subst hbs
    exact this.map_at fun c => ⟨c.addr, n, c.free⟩
  rw [hmap]
  refine OnlyHeaders.yields (fun x hx => hout x (hx b (by simp [hbs]))) hr ?_
  apply hr.edit n b.free hbs hn _ hout
  rw [block_setLength, hat]
  simp [hn']

theorem realloc_null (hn : b.len < n) (h0 : (allot n bs).1 = 0) :
    h.realloc b.ptr n = some (0, (h.errf (.mallocNoFit n)).errf (.reallocNoFit n)) := by
  have hb : b ∈ bs := by simp [hbs]
  have hptr : b.ptr ≠ 0 := by simp [Blk.ptr]
  have haddr := (hr.valid b hb).1
  have hlen := hr.length_at hb
  have hnone : bestBlock n bs = none := by
    cases hbest : bestBlock n bs with
    | none => rfl
    | some c => simp [allot, hbest, Blk.ptr] at h0
  unfold realloc
  rw [if_neg hptr, if_neg (by omega), hr.findBase, hr.fits.find_ptr hb]
  simp only [bind_eq_bind, bind_some, addrOf, map_some, getD_some]
  rw [if_neg (by omega), hlen, if_neg (by omega), malloc_none hr hnone]
  rfl

theorem realloc_grow (hnorm : joins.Normal bs) (hn : b.len < n) (h0 : (allot n bs).1 ≠ 0) :
    ∃ h', h.realloc b.ptr n = some ((allot n bs).1, h') ∧
      Yields h bs h' (freed b.ptr (allot n bs).2) [] ∧
      (b.free = false → ∀ i < b.len, h'.mem ((allot n bs).1 + i) = h.mem (b.ptr + i)) ∧
      ∃ d, bestBlock n bs = some d ∧ (allot n bs).1 = d.ptr ∧
        ∀ i < n, b.len ≤ i → h'.mem (d.ptr + i) = h.mem (d.ptr + i) := by
  have hb : b ∈ bs := by simp [hbs]
  have hptr : b.ptr ≠ 0 := by simp [Blk.ptr]
  have haddr := (hr.valid b hb).1
  have hlen := hr.length_at hb
  obtain ⟨h1, hm1, hy1⟩ := malloc_spec hr n
  obtain ⟨c, hc, hcp, hcf, hcn, hapart⟩ := hr.fits.allot_block h0
  have hbc := hapart b hb (Or.inr hn)
  have hb1 := hr.fits.mem_allot hb (Or.inr hn)
  have hlen1 := hy1.rep.length_at hb1
  rw [mallocLog, if_neg h0] at hy1
  -- The copy stays inside the new block.
  have hy2 : Yields h bs { h1 with mem := memcpy h1.mem (allot n bs).1 b.ptr b.len }
      (allot n bs).2 [] := by
    apply hy1.fill hc (fun d hd hu => hapart d hd (Or.inl hu))
    intro x hx
    apply memcpy_outside
    simp only [Blk.ptr, Blk.fin] at *
    omega
  obtain ⟨h3, hm3, hy3⟩ := free_spec hy2.rep (hr.fits.allot_normal hnorm) b.ptr
  have hsub : ∀ d ∈ bs, d.free = false → d ∈ (allot n bs).2 :=
    fun d hd hu => hr.fits.mem_allot hd (Or.inl hu)
  rw [freeLog, if_pos (Or.inr ⟨b, hb1, rfl⟩)] at hy3
  have hpayload : ∀ i < n, h3.mem ((allot n bs).1 + i) =
      memcpy h1.mem (allot n bs).1 b.ptr b.len ((allot n bs).1 + i) := by
    intro i hi
    apply hy3.keeps c hc hcf
    · omega
    · simp only [Blk.ptr, Blk.fin] at *
      omega
  refine ⟨h3, ?_, hy2.trans hy3 hsub, ?_, ?_⟩
  · unfold realloc
    rw [if_neg hptr, if_neg (by omega), hr.findBase, hr.fits.find_ptr hb]
    simp only [bind_eq_bind, bind_some, addrOf, map_some, getD_some]
    rw [if_neg (by omega), hlen, if_neg (by omega), hm1]
    simp only [bind_some, if_neg h0, hlen1, hm3]
  · intro hused i hi
    rw [hpayload i (by omega)]
    refine (memcpy_apply h1.mem ?_ hi).trans ?_
    · simp only [Blk.ptr, Blk.fin] at *
      omega
    · exact hy1.keeps b hb hused _ (by omega) (by simp only [Blk.ptr, Blk.fin] at *; omega)
  · obtain ⟨d, hd, hdp, hsame⟩ := malloc_bytes hr hm1 h0
    refine ⟨d, hd, hdp, fun i hi hbi => ?_⟩
    rw [← hdp, hpayload i hi, memcpy_outside _ _ _ (by omega)]
    exact hsame i hi

end Realloc

theorem realloc_spec (hr : Rep h bs) (hn : joins.Normal bs) (ptr n : Nat) :
    ∃ h', h.realloc ptr n = some ((reallot ptr n bs).1, h') ∧
      Yields h bs h' (reallot ptr n bs).2 (reallocLog ptr n bs) := by
  by_cases hptr : ptr = 0
  · rw [realloc, reallot, reallocLog, if_pos hptr, if_pos hptr, if_pos hptr]
    exact malloc_spec hr n
  by_cases hn0 : n = 0
  · obtain ⟨h', hf, hy⟩ := free_spec hr hn ptr
    rw [realloc, reallot, reallocLog, if_neg hptr, if_neg hptr, if_neg hptr, if_pos hn0,
      if_pos hn0, if_pos hn0, hf]
    exact ⟨h', rfl, hy⟩
  simp only [reallot, reallocLog, if_neg hptr, if_neg hn0]
  cases hfind : bs.find? fun b => b.ptr = ptr with
  | none =>
    refine ⟨h.errf (.reallocNotFound ptr), ?_, hr.errf _⟩
    rw [realloc, if_neg hptr, if_neg hn0, hr.findBase, hfind]
    rfl
  | some b =>
    obtain ⟨hb, rfl⟩ := mem_of_find_ptr hfind
    obtain ⟨pre, post, hbs⟩ := append_of_mem hb
    have haddr := (hr.valid b hb).1
    have hlen := hr.length_at hb
    dsimp only
    by_cases hle : n ≤ b.len
    · rw [if_pos hle, if_pos hle]
      refine ⟨_, ?_, realloc_shrink hr hbs hle⟩
      rw [realloc, if_neg hptr, if_neg hn0, hr.findBase, hfind]
      simp only [bind_eq_bind, bind_some, addrOf, map_some, getD_some]
      rw [if_neg (by omega), hlen, if_pos hle, base_eq, block_setLength,
        ← base_eq, hr.base_at hb]
    rw [if_neg hle, if_neg hle]
    by_cases h0 : (allot n bs).1 = 0
    · rw [if_pos h0, if_pos h0]
      have hy1 := hr.errf (.mallocNoFit n)
      exact ⟨_, realloc_null hr hbs (by omega) h0, hy1.trans (hy1.rep.errf _) fun c hc _ => hc⟩
    · rw [if_neg h0, if_neg h0]
      obtain ⟨h', hc, hy, -, -⟩ := realloc_grow hr hbs hn (by omega) h0
      exact ⟨h', hc, hy⟩

/-! ## `defragment` -/

theorem defragmentLoop_normal {prv fuel : Nat} (h : Laid m prv bs 0) (hpos : ∀ b ∈ bs, 0 < b.addr)
    (hn : joins.Normal bs) (hfuel : bs.length < fuel) :
    defragmentLoop fuel m (firstAddr bs 0) = some m := by
  induction bs generalizing prv fuel with
  | nil =>
    obtain _ | k := fuel
    · simp at hfuel
    rw [firstAddr, defragmentLoop, if_pos rfl]
  | cons b bs ih =>
    obtain _ | k := fuel
    · simp at hfuel
    obtain ⟨hb, hrest⟩ := laid_cons.mp h
    have hb0 := hpos b mem_cons_self
    have hnext : next m b.addr = firstAddr bs 0 := by rw [next_eq, hb]
    have hfree : isFree m b.addr = b.free := by rw [isFree_eq, hb]
    have hstay : ¬ (isFree m b.addr = true ∧ next m b.addr ≠ 0 ∧
        isFree m (next m b.addr) = true) := by
      rw [hnext, hfree]
      rintro ⟨h1, h2, h3⟩
      obtain ⟨c, cs, rfl⟩ := cons_of_firstAddr h2
      have hc : isFree m c.addr = c.free := by rw [isFree_eq, (laid_cons.mp hrest).1]
      rw [firstAddr, hc] at h3
      exact hn.rel ⟨h1, h3⟩
    rw [firstAddr, defragmentLoop, if_neg (by omega), if_neg hstay, hnext]
    exact ih hrest (fun c hc => hpos c (mem_cons_of_mem _ hc)) hn.of_cons
      (by simp at hfuel; omega)

theorem defragment_normal (hr : Rep h bs) (hn : joins.Normal bs) (h0 : h.heapBase ≠ 0) :
    h.defragment = some h := by
  have hloop : defragmentLoop word h.mem h.heapBase = some h.mem := by
    rw [hr.first]
    exact defragmentLoop_normal hr.laid (fun b hb => (hr.valid b hb).1) hn hr.length_lt
  unfold defragment
  rw [if_neg h0, hloop]
  rfl

end Terrakernel.Heap
