import Terrakernel.Elf.Pages

/-!
# What `run_elf` loads

A segment is written through its own addresses, of which only those in the page at 0x400000 are
mapped.
-/

namespace Terrakernel.Elf

open Memory Mem Vmm Option

variable {va a dest i fuel n : Nat} {m : Mem} {ph : Phdr}

theorem pageNumber_low (h : va < 2 ^ 47) : pageNumber va = va / 0x1000 := by
  simp only [pageNumber, numPages]
  omega

/-- The byte behind address `va` of the page at 0x400000. -/
def homeByte (va : Nat) : Nat := homeFrame + va % 0x1000

theorem homeByte_inj {b : Nat} (ha : a < 2 ^ 47) (hb : b < 2 ^ 47) (hpa : pageNumber a = homePage)
    (hpb : pageNumber b = homePage) (h : homeByte a = homeByte b) : a = b := by
  rw [pageNumber_low ha] at hpa
  rw [pageNumber_low hb] at hpb
  have hmod : a % 0x1000 = b % 0x1000 := Nat.add_left_cancel h
  have hdiv : a / 0x1000 = b / 0x1000 := hpa.trans hpb.symm
  clear hpa hpb h
  omega

theorem homeByte_mem (va : Nat) : homeFrame ≤ homeByte va ∧ homeByte va < homeFrame + 0x1000 :=
  ⟨Nat.le_add_right _ _, Nat.add_lt_add_left (Nat.mod_lt _ (by decide)) _⟩

/-! ## Loops of stores -/

/-- The bytes of `n` addresses were stored, and nothing else. -/
structure Stored (root base size : Nat) (m m' : Mem) (dest n : Nat) (v : Nat → Byte) : Prop where
  steady : Steady root base size m'
  leaf : ∀ w, leafMap root m' w = leafMap root m w
  bytes : ∀ i < n, m' (homeByte (dest + i)) = v i
  rest : ∀ x, (∀ i < n, x ≠ homeByte (dest + i)) → m' x = m x

theorem Steady.stored_one {root base size : Nat} (h : Steady root base size m) (a : Nat)
    (b : Byte) : Stored root base size m (Function.update m (homeByte a) b) a 1 fun _ => b := by
  obtain ⟨hsteady, hleaf⟩ := h.store (homeByte_mem a).1 (homeByte_mem a).2 b
  refine ⟨hsteady, hleaf, ?_, ?_⟩
  · intro i hi
    obtain rfl : i = 0 := Nat.lt_one_iff.mp hi
    rw [Nat.add_zero, Function.update_self]
  · intro x hx
    exact Function.update_of_ne (hx 0 Nat.one_pos) b m

theorem Stored.append {root base size : Nat} {m1 m2 : Mem} {k : Nat} {v w : Nat → Byte}
    (h1 : Stored root base size m m1 dest n v) (h2 : Stored root base size m1 m2 (dest + n) k w)
    (hlow : dest + (n + k) ≤ 2 ^ 47) (hhome : ∀ i < n + k, pageNumber (dest + i) = homePage) :
    Stored root base size m m2 dest (n + k) fun i => if i < n then v i else w (i - n) := by
  refine ⟨h2.steady, fun p => (h2.leaf p).trans (h1.leaf p), ?_, ?_⟩
  · intro i hi
    rcases lt_or_ge i n with hlt | hge
    · rw [if_pos hlt, ← h1.bytes i hlt]
      apply h2.rest
      intro j hj heq
      rw [Nat.add_assoc] at heq
      have := homeByte_inj (by omega) (by omega) (hhome i hi) (hhome (n + j) (by omega)) heq
      omega
    · have hbyte := h2.bytes (i - n) (by omega)
      rw [Nat.add_assoc, Nat.add_sub_cancel' hge] at hbyte
      rw [if_neg (not_lt.mpr hge), hbyte]
  · intro x hx
    rw [h2.rest, h1.rest x fun i hi => hx i (by omega)]
    intro j hj
    rw [Nat.add_assoc]
    exact hx (n + j) (by omega)

theorem fillTo_stored {root base size : Nat} (h : Steady root base size m)
    (hlow : dest + n ≤ 2 ^ 47) (hhome : 0 < n → leafMap root m homePage = homeEntry)
    (hgone : ∀ i < n, pageNumber (dest + i) ≠ homePage → leafMap root m (pageNumber (dest + i)) = 0)
    (value : Mem → Nat → Byte) :
    fillTo root dest value n m = none ∧ (∃ i < n, pageNumber (dest + i) ≠ homePage) ∨
      (∀ i < n, pageNumber (dest + i) = homePage) ∧
        ∃ m' v, fillTo root dest value n m = some m' ∧ Stored root base size m m' dest n v ∧
          ∀ i < n, ∃ m1, (∀ x, x < homeFrame ∨ homeFrame + 0x1000 ≤ x → m1 x = m x) ∧
            v i = value m1 i := by
  induction n with
  | zero =>
    have hno : ∀ i < 0, ∀ p : Prop, p := fun i hi => absurd hi (Nat.not_lt_zero i)
    exact .inr ⟨fun i hi => hno i hi _, m, fun _ => 0, rfl,
      ⟨h, fun _ => rfl, fun i hi => hno i hi _, fun _ _ => rfl⟩, fun i hi => hno i hi _⟩
  | succ n ih =>
    have hn : dest + n < 2 ^ 47 := hlow
    have hword : (dest + n) % word = dest + n := Nat.mod_eq_of_lt (hn.trans (by decide))
    rw [fillTo, hword]
    rcases ih (Nat.le_of_lt hn) (fun _ => hhome (Nat.succ_pos n))
        (fun i hi => hgone i (hi.trans (Nat.lt_succ_self n))) with
      ⟨hnone, i, hi, hne⟩ | ⟨hall, m1, v, hsome, hs, hv⟩
    · rw [hnone]
      exact .inl ⟨rfl, i, hi.trans (Nat.lt_succ_self n), hne⟩
    rw [hsome]
    simp only [bind_eq_bind, bind_some]
    by_cases hpage : pageNumber (dest + n) = homePage
    · right
      have hall' : ∀ i < n + 1, pageNumber (dest + i) = homePage := by
        intro i hi
        rcases Nat.lt_succ_iff_lt_or_eq.mp hi with hi | rfl
        · exact hall i hi
        · exact hpage
      have hleaf : leafMap root m1 homePage = homeEntry :=
        (hs.leaf _).trans (hhome (Nat.succ_pos n))
      have hplace : place root m1 (dest + n) true = some (homeByte (dest + n)) :=
        hs.steady.place_home hleaf hn hpage true
      rw [hplace, bind_some]
      refine ⟨hall', _, _, rfl, hs.append (hs.steady.stored_one (dest + n) (value m1 n)) hlow hall', ?_⟩
      intro i hi
      split_ifs with hlt
      · exact hv i hlt
      · obtain rfl : i = n := by omega
        refine ⟨m1, ?_, rfl⟩
        intro x hx
        apply hs.rest
        rintro j - rfl
        have := homeByte_mem (dest + j)
        omega
    · left
      rw [hs.steady.place_none ((hs.leaf _).trans (hgone n (Nat.lt_succ_self n) hpage))]
      exact ⟨rfl, n, Nat.lt_succ_self n, hpage⟩

/-! ## Segments -/

/-- The byte that the file has for offset `k` of a segment. -/
def fileByte (m : Mem) (base : Nat) (ph : Phdr) (k : Nat) : Byte :=
  if k < ph.pFilesz then m (base + ph.pOffset + k) else 0

/-- A segment of user space, with its bytes in the file. -/
structure Fits (size : Nat) (ph : Phdr) : Prop where
  sizes : ph.pFilesz ≤ ph.pMemsz
  inFile : ph.pOffset + ph.pFilesz ≤ size
  low : ph.pVaddr + ph.pMemsz ≤ 2 ^ 47

/-- Every address of the segment is in the page at 0x400000. -/
def AtHome (ph : Phdr) : Prop := ∀ k < ph.pMemsz, pageNumber (ph.pVaddr + k) = homePage

/-- The loader's memory, after a segment. -/
structure Placed (root base size : Nat) (ph : Phdr) (m m' : Mem) : Prop where
  steady : Steady root base size m'
  home : 0 < ph.pMemsz ∨ leafMap root m homePage = homeEntry → leafMap root m' homePage = homeEntry
  bytes : ∀ k < ph.pMemsz, m' (homeByte (ph.pVaddr + k)) = fileByte m base ph k
  rest : ∀ x, Private base size x → (∀ k < ph.pMemsz, x ≠ homeByte (ph.pVaddr + k)) → m' x = m x

theorem mapPages_eq (h : va + n ≤ 2 ^ 47) :
    (pageOf ((va + n + 0xFFF) % word) + word - pageOf va) % word / 0x1000 =
      (va + n + 0xFFF) / 0x1000 - va / 0x1000 := by
  have hlt : va + n + 0xFFF < word := by
    simp only [word]
    omega
  rw [Nat.mod_eq_of_lt hlt]
  simp only [pageOf, word] at *
  omega

section Segments

variable {palloc : Palloc} {root base size : Nat} (hp : Spares palloc root base size)
  (htop : base + size ≤ word) (hapart : base + size ≤ homeFrame ∨ homeFrame + 0x1000 ≤ base)

include hp in
theorem mapRounds_segment (h : Steady root base size m) (hlow : ph.pVaddr + ph.pMemsz ≤ 2 ^ 47) :
    ∃ m1, (mapRounds palloc root (pageOf ph.pVaddr)
        ((ph.pVaddr + ph.pMemsz + 0xFFF) / 0x1000 - ph.pVaddr / 0x1000) m) = m1 ∧
      Steady root base size m1 ∧ (∀ x, Private base size x → m1 x = m x) ∧
      (0 < ph.pMemsz ∨ leafMap root m homePage = homeEntry → leafMap root m1 homePage = homeEntry) ∧
      ∀ k < ph.pMemsz, pageNumber (ph.pVaddr + k) ≠ homePage →
        leafMap root m1 (pageNumber (ph.pVaddr + k)) = 0 := by
  have hend : pageOf ph.pVaddr +
      ((ph.pVaddr + ph.pMemsz + 0xFFF) / 0x1000 - ph.pVaddr / 0x1000) * 0x1000 ≤ 2 ^ 47 := by
    simp only [pageOf]
    omega
  obtain ⟨hs, hbytes, hhome, hgone, -⟩ := mapRounds_spec hp h (pageOf_mod ph.pVaddr) hend
  refine ⟨_, rfl, hs, hbytes, fun hor => hhome ?_, ?_⟩
  · refine hor.imp_left fun hpos => ?_
    clear hhome hgone hor
    omega
  · intro k hk hne
    have hk' : ph.pVaddr + k < 2 ^ 47 := by omega
    apply hgone _ _ _ hne
    · rw [pageNumber_low hk', pageOf]
      clear hgone hhome
      omega
    · rw [pageNumber_low hk', pageOf]
      clear hgone hhome
      omega

include hp

theorem loadSegment_stored (h : Steady root base size m) (hsizes : ph.pFilesz ≤ ph.pMemsz)
    (hlow : ph.pVaddr + ph.pMemsz ≤ 2 ^ 47) :
    loadSegment palloc root base ph.pVaddr ph m = none ∧ ¬ AtHome ph ∨
      AtHome ph ∧ ∃ m', loadSegment palloc root base ph.pVaddr ph m = some m' ∧
        Steady root base size m' ∧
        (0 < ph.pMemsz ∨ leafMap root m homePage = homeEntry →
          leafMap root m' homePage = homeEntry) ∧
        (∀ x, Private base size x → (∀ k < ph.pMemsz, x ≠ homeByte (ph.pVaddr + k)) → m' x = m x) ∧
        ∀ k < ph.pMemsz, ∃ m1 : Mem,
          (∀ x, Private base size x → x < homeFrame ∨ homeFrame + 0x1000 ≤ x → m1 x = m x) ∧
          m' (homeByte (ph.pVaddr + k)) =
            if k < ph.pFilesz then m1 ((base + ph.pOffset + k) % word) else 0 := by
  obtain ⟨m1, hm1, hs1, hbytes1, hhome1, hgone1⟩ := mapRounds_segment hp h hlow
  -- For a segment without further bytes, the loop that clears them has no rounds.
  have hclear : ∀ m2, (if ph.pFilesz < ph.pMemsz then
      memsetTo root (ph.pVaddr + ph.pFilesz) 0 (ph.pMemsz - ph.pFilesz) m2 else some m2) =
      memsetTo root (ph.pVaddr + ph.pFilesz) 0 (ph.pMemsz - ph.pFilesz) m2 := by
    intro m2
    split_ifs with hlt
    · rfl
    · rw [Nat.sub_eq_zero_of_le (not_lt.mp hlt)]
      rfl
  unfold loadSegment
  simp only [mapPages_eq hlow, hm1, hclear]
  have hend : ph.pVaddr + ph.pFilesz ≤ 2 ^ 47 := le_trans (Nat.add_le_add_left hsizes _) hlow
  rcases fillTo_stored hs1 hend (fun hpos => hhome1 (Or.inl (hpos.trans_le hsizes)))
      (fun i hi => hgone1 i (hi.trans_le hsizes)) (fun m i => m ((base + ph.pOffset + i) % word)) with
    ⟨hnone, i, hi, hne⟩ | ⟨hcopy, m2, v, hsome, hs2, hv⟩
  · left
    rw [memcpyTo, hnone]
    exact ⟨rfl, fun hall => hne (hall i (hi.trans_le hsizes))⟩
  have hend' : ph.pVaddr + ph.pFilesz + (ph.pMemsz - ph.pFilesz) ≤ 2 ^ 47 := by omega
  have hgone2 : ∀ i < ph.pMemsz - ph.pFilesz, pageNumber (ph.pVaddr + ph.pFilesz + i) ≠ homePage →
      leafMap root m2 (pageNumber (ph.pVaddr + ph.pFilesz + i)) = 0 := by
    intro i hi hne
    rw [Nat.add_assoc] at hne ⊢
    exact (hs2.leaf _).trans (hgone1 _ (by omega) hne)
  rw [memcpyTo, hsome]
  simp only [bind_eq_bind, bind_some]
  rcases fillTo_stored hs2.steady hend'
      (fun hpos => (hs2.leaf _).trans (hhome1 (Or.inl (by omega)))) hgone2 (fun _ _ => 0) with
    ⟨hnone, i, hi, hne⟩ | ⟨hset, m3, zeros, hsome', hs3, hzeros⟩
  · left
    rw [memsetTo, hnone]
    rw [Nat.add_assoc] at hne
    exact ⟨rfl, fun hall => hne (hall _ (by omega))⟩
  right
  have hhere : AtHome ph := by
    intro k hk
    rcases lt_or_ge k ph.pFilesz with hlt | hge
    · exact hcopy k hlt
    · have := hset (k - ph.pFilesz) (by omega)
      rwa [Nat.add_assoc, Nat.add_sub_cancel' hge] at this
  have hall := hs2.append hs3 (by omega) (by rwa [Nat.add_sub_cancel' hsizes])
  rw [Nat.add_sub_cancel' hsizes] at hall
  refine ⟨hhere, m3, hsome', hall.steady, ?_, ?_, ?_⟩
  · intro hor
    rw [hall.leaf]
    exact hhome1 hor
  · intro x hpriv hx
    rw [hall.rest x hx, hbytes1 x hpriv]
  · intro k hk
    rw [hall.bytes k hk]
    split_ifs with hlt
    · obtain ⟨mr, hmr, hvk⟩ := hv k hlt
      exact ⟨mr, fun x hpriv hx => (hmr x hx).trans (hbytes1 x hpriv), hvk⟩
    · obtain ⟨-, -, hzero⟩ := hzeros (k - ph.pFilesz) (by omega)
      exact ⟨m, fun _ _ _ => rfl, hzero⟩

include htop hapart

theorem loadSegment_cases (h : Steady root base size m) (hfits : Fits size ph) :
    loadSegment palloc root base ph.pVaddr ph m = none ∧ ¬ AtHome ph ∨
      AtHome ph ∧ ∃ m', loadSegment palloc root base ph.pVaddr ph m = some m' ∧
        Placed root base size ph m m' := by
  refine (loadSegment_stored hp h hfits.sizes hfits.low).imp_right ?_
  rintro ⟨hhere, m', hsome, hs, hhome, hrest, hbytes⟩
  refine ⟨hhere, m', hsome, hs, hhome, ?_, hrest⟩
  intro k hk
  obtain ⟨m1, hm1, hbyte⟩ := hbytes k hk
  rw [hbyte, fileByte]
  split_ifs with hlt
  · have hin := hfits.inFile
    rw [Nat.mod_eq_of_lt (by omega)]
    exact hm1 _ (Or.inl ⟨by omega, by omega⟩) (by omega)
  · rfl

omit hp htop hapart

/-! ## Files -/

abbrev etExec : Nat := 2

def segment (m : Mem) (base i : Nat) : Phdr := phdr m ((base + (ehdr m base).ePhoff) % word) i

/-- Header `i` is that of a segment to load. -/
def IsLoad (m : Mem) (base i : Nat) : Prop :=
  i < (ehdr m base).ePhnum ∧ (segment m base i).pType = ptLoad

/-- A program for fixed addresses. Segments may share a page, but not a byte. -/
structure WellFormed (m : Mem) (base size : Nat) : Prop where
  header : 64 ≤ size
  magic : (ehdr m base).eIdent = [0x7F, 0x45, 0x4C, 0x46]
  exec : (ehdr m base).eType = etExec
  table : (ehdr m base).ePhoff + 56 * (ehdr m base).ePhnum ≤ size
  fits : ∀ i, IsLoad m base i → Fits size (segment m base i)
  apart : ∀ i j, IsLoad m base i → IsLoad m base j → i ≠ j →
    ∀ k < (segment m base i).pMemsz, ∀ l < (segment m base j).pMemsz,
      (segment m base i).pVaddr + k ≠ (segment m base j).pVaddr + l

/-- The bytes of the file are the same. -/
def SameFile (base size : Nat) (m m' : Mem) : Prop := ∀ x, base ≤ x → x < base + size → m' x = m x

variable {m0 m m' : Mem}

theorem SameFile.ehdr_eq (h : SameFile base size m m') (hsize : 58 ≤ size) :
    ehdr m' base = ehdr m base := by
  have hload : ∀ o w, o + w ≤ 58 → load m' (base + o) w = load m (base + o) w := by
    intro o w how
    exact load_congr w _ fun x h1 h2 => h x (by omega) (by omega)
  have hident : ((List.range 4).map fun i => m' (base + i)) = (List.range 4).map fun i => m (base + i) := by
    apply List.map_congr_left
    intro i hi
    exact h _ (Nat.le_add_right _ _) (by have := List.mem_range.mp hi; omega)
  unfold ehdr
  rw [hident, hload 16 2 (by omega), hload 24 8 (by omega), hload 32 8 (by omega),
    hload 56 2 (by omega)]

theorem SameFile.phdrAt_eq (h : SameFile base size m m') (hlo : base ≤ a)
    (hhi : a + 48 ≤ base + size) : phdrAt m' a = phdrAt m a := by
  have hload : ∀ o w, o + w ≤ 48 → load m' (a + o) w = load m (a + o) w := by
    intro o w how
    exact load_congr w _ fun x h1 h2 => h x (by omega) (by omega)
  have htype : load m' a 4 = load m a 4 := hload 0 4 (by omega)
  unfold phdrAt
  rw [htype, hload 8 8 (by omega), hload 16 8 (by omega), hload 32 8 (by omega), hload 40 8 (by omega)]

include htop in
theorem SameFile.phdr_eq (h : SameFile base size m m') {off : Nat} (htable : off + 56 * n ≤ size)
    (hi : i < n) : phdr m' ((base + off) % word) i = phdr m ((base + off) % word) i := by
  have haddr : ((base + off) % word + 56 * i) % word = base + (off + 56 * i) := by
    rw [Nat.mod_eq_of_lt (show base + off < word by omega), Nat.mod_eq_of_lt (by omega), Nat.add_assoc]
  unfold phdr
  rw [haddr]
  exact h.phdrAt_eq (by omega) (by omega)

/-! ## The loop over the headers -/

/-- The round for header `i`. -/
def loadRound (palloc : Palloc) (root base table loadBase i : Nat) (m : Mem) : Option Mem :=
  let ph := phdr m table i
  if ph.pType ≠ ptLoad then some m
  else
    let segBase :=
      if (ehdr m base).eType = etDyn then (loadBase + ph.pVaddr) % word else ph.pVaddr
    loadSegment palloc root base segBase ph m

theorem loadLoop_succ (table loadBase fuel i : Nat) (m : Mem) :
    loadLoop palloc root base table loadBase (fuel + 1) i m =
      if (ehdr m base).ePhnum ≤ i then some m
      else (loadRound palloc root base table loadBase i m).bind
        (loadLoop palloc root base table loadBase fuel (i + 1)) := by
  rw [loadLoop]
  unfold loadRound
  by_cases hskip : (phdr m table i).pType ≠ ptLoad
  · simp only [if_pos hskip, bind_some]
  · simp only [if_neg hskip]
    rfl

theorem loadLoop_rule {table loadBase phnum : Nat} {inv : Nat → Mem → Prop} {stop : Prop}
    (hphnum : ∀ i m, inv i m → (ehdr m base).ePhnum = phnum) (hround : ∀ i m, i < phnum → inv i m →
      loadRound palloc root base table loadBase i m = none ∧ stop ∨
        ∃ m', loadRound palloc root base table loadBase i m = some m' ∧ inv (i + 1) m')
    (hfuel : phnum ≤ i + fuel) (h : inv i m) :
    loadLoop palloc root base table loadBase fuel i m = none ∧ stop ∨
      ∃ m' n, phnum ≤ n ∧ inv n m' ∧
        loadLoop palloc root base table loadBase fuel i m = some m' := by
  induction fuel generalizing i m with
  | zero => exact .inr ⟨m, i, hfuel, h, rfl⟩
  | succ fuel ih =>
    rw [loadLoop_succ, hphnum i m h]
    rcases le_or_gt phnum i with hend | hi
    · rw [if_pos hend]
      exact .inr ⟨m, i, hend, h, rfl⟩
    rw [if_neg (not_le.mpr hi)]
    rcases hround i m hi h with ⟨hnone, hstop⟩ | ⟨m', hsome, hnext⟩
    · rw [hnone]
      exact .inl ⟨rfl, hstop⟩
    · rw [hsome]
      exact ih (by omega) hnext

/-- The segments before header `n` are in memory. -/
structure Upto (root base size : Nat) (m0 : Mem) (n : Nat) (m : Mem) : Prop where
  steady : Steady root base size m
  file : SameFile base size m0 m
  home : ∀ j < n, IsLoad m0 base j → AtHome (segment m0 base j)
  mapped : ∀ j < n, IsLoad m0 base j → 0 < (segment m0 base j).pMemsz →
    leafMap root m homePage = homeEntry
  bytes : ∀ j < n, IsLoad m0 base j → ∀ k < (segment m0 base j).pMemsz,
    m (homeByte ((segment m0 base j).pVaddr + k)) = fileByte m0 base (segment m0 base j) k

theorem Upto.keep (h : Upto root base size m0 n m) (hs : Steady root base size m')
    (hbytes : ∀ x, Private base size x → m' x = m x)
    (hleaf : leafMap root m' homePage = leafMap root m homePage) : Upto root base size m0 n m' := by
  refine ⟨hs, ?_, h.home, fun j hj hload hpos => hleaf.trans (h.mapped j hj hload hpos), ?_⟩
  · intro x h1 h2
    exact (hbytes x (Or.inl ⟨h1, h2⟩)).trans (h.file x h1 h2)
  · intro j hj hload k hk
    exact (hbytes _ (Or.inr (homeByte_mem _))).trans (h.bytes j hj hload k hk)

theorem Upto.skip (h : Upto root base size m0 i m) (hno : ¬ IsLoad m0 base i) :
    Upto root base size m0 (i + 1) m := by
  have hlt : ∀ j < i + 1, IsLoad m0 base j → j < i := by
    intro j hj hload
    refine lt_of_le_of_ne (Nat.lt_succ_iff.mp hj) ?_
    rintro rfl
    exact hno hload
  exact ⟨h.steady, h.file, fun j hj hl => h.home j (hlt j hj hl) hl,
    fun j hj hl => h.mapped j (hlt j hj hl) hl, fun j hj hl => h.bytes j (hlt j hj hl) hl⟩

include hapart in
theorem Upto.place (hwf : WellFormed m0 base size) (h : Upto root base size m0 i m)
    (hi : IsLoad m0 base i) (hhere : AtHome (segment m0 base i))
    (hx : Placed root base size (segment m0 base i) m m') : Upto root base size m0 (i + 1) m' := by
  have hcases : ∀ {j}, j < i + 1 → j < i ∨ j = i := Nat.lt_succ_iff_lt_or_eq.mp
  have hlow : ∀ {j}, IsLoad m0 base j → ∀ k < (segment m0 base j).pMemsz,
      (segment m0 base j).pVaddr + k < 2 ^ 47 :=
    fun hj k hk => (Nat.add_lt_add_left hk _).trans_le (hwf.fits _ hj).low
  refine ⟨hx.steady, ?_, ?_, ?_, ?_⟩
  · intro x h1 h2
    rw [hx.rest x (Or.inl ⟨h1, h2⟩), h.file x h1 h2]
    rintro k - rfl
    have := homeByte_mem ((segment m0 base i).pVaddr + k)
    omega
  · intro j hj hload
    rcases hcases hj with hj | rfl
    · exact h.home j hj hload
    · exact hhere
  · intro j hj hload hpos
    rcases hcases hj with hj | rfl
    · exact hx.home (Or.inr (h.mapped j hj hload hpos))
    · exact hx.home (Or.inl hpos)
  · intro j hj hload k hk
    rcases hcases hj with hj | rfl
    · rw [hx.rest _ (Or.inr (homeByte_mem _)), h.bytes j hj hload k hk]
      intro l hl heq
      exact hwf.apart j i hload hi hj.ne k hk l hl
        (homeByte_inj (hlow hload k hk) (hlow hi l hl) (h.home j hj hload k hk) (hhere l hl) heq)
    · rw [hx.bytes k hk]
      unfold fileByte
      have hin := (hwf.fits j hload).inFile
      split_ifs with hfile
      · exact h.file _ (by omega) (by omega)
      · rfl

include hp htop hapart

theorem loadLoop_cases (hwf : WellFormed m0 base size) (hfuel : (ehdr m0 base).ePhnum ≤ i + fuel)
    (h : Upto root base size m0 i m) :
    loadLoop palloc root base ((base + (ehdr m0 base).ePhoff) % word) 0 fuel i m = none ∧
        (∃ j, IsLoad m0 base j ∧ ¬ AtHome (segment m0 base j)) ∨
      ∃ m' n, (ehdr m0 base).ePhnum ≤ n ∧ Upto root base size m0 n m' ∧
        loadLoop palloc root base ((base + (ehdr m0 base).ePhoff) % word) 0 fuel i m = some m' := by
  have hehdr : ∀ {i m}, Upto root base size m0 i m → ehdr m base = ehdr m0 base :=
    fun h => h.file.ehdr_eq (le_trans (by decide) hwf.header)
  apply loadLoop_rule (fun i m h => by rw [hehdr h]) _ hfuel h
  intro i m hi h
  have hexec : (ehdr m0 base).eType ≠ etDyn := by
    rw [hwf.exec]
    decide
  unfold loadRound
  rw [h.file.phdr_eq htop hwf.table hi, ← segment, hehdr h]
  simp only [if_neg hexec]
  split_ifs with hskip
  · exact .inr ⟨m, rfl, h.skip fun hload => hskip hload.2⟩
  · have hload : IsLoad m0 base i := ⟨hi, not_not.mp hskip⟩
    rcases loadSegment_cases hp htop hapart h.steady (hwf.fits i hload) with
      ⟨hnone, hout⟩ | ⟨hhere, m1, hsome, hplaced⟩
    · exact .inl ⟨hnone, i, hload, hout⟩
    · exact .inr ⟨m1, hsome, h.place hapart hwf hload hhere hplaced⟩

end Segments

end Terrakernel.Elf
