import Terrakernel.Elf.Load

/-!
# Programs that `run_elf` starts

A program is started with its segments in memory just when all of them lie in the
page at 0x400000.
-/

namespace Terrakernel.Elf

open Memory Mem Vmm Paths

section Run

variable {palloc : Palloc} {root base size : Nat} (hp : Spares palloc root base size)
  {m0 m : Mem}

include hp

/-! ## The stack -/

theorem Spares.page_ne (hg : Good root m) : pageNumber (palloc m).1 ≠ homePage := by
  obtain ⟨-, hlt, ha, -, -⟩ := hp.supplies m hg
  intro heq
  rw [pageNumber_low hlt] at heq
  have hpage : (palloc m).1 = 0x400000 := by
    rw [← Nat.div_add_mod (palloc m).1 0x1000, heq, ha]
    rfl
  have hbyte : Private base size homeFrame := Or.inr ⟨le_rfl, Nat.lt_add_of_pos_right (by decide)⟩
  refine hp.pages m homeFrame hbyte ?_
  rw [hpage]
  decide

theorem Upto.take {n : Nat} (h : Upto root base size m0 n m) :
    Upto root base size m0 n (palloc m).2 := by
  obtain ⟨hs, hleaf, -⟩ := palloc_steady hp h.steady
  exact h.keep hs (hp.keeps m) (hleaf _)

theorem Upto.mapStack {n : Nat} (h : Upto root base size m0 n m) {m1 : Mem} (hg : Good root m1) :
    Upto root base size m0 n
      (mmap palloc root m (palloc m1).1 (palloc m1).1 1 attributes).2 := by
  obtain ⟨-, hlt, -, -, -⟩ := hp.supplies m1 hg
  have hword : (palloc m1).1 < word := hlt.trans (by decide)
  have hset := mmap_sets hp h.steady hword hword
  apply h.keep hset.steady hset.bytes
  rw [hset.leaf _ (by decide), Function.update_of_ne (hp.page_ne hg).symm]

/-! ## The program -/

variable (htop : base + size ≤ word) (hapart : base + size ≤ homeFrame ∨ homeFrame + 0x1000 ≤ base)

include htop hapart

theorem runElf_cases (hwf : WellFormed m base size) (h : Steady root base size m) :
    runElf palloc root m base = none ∧ (∃ j, IsLoad m base j ∧ ¬ AtHome (segment m base j)) ∨
      ∃ entry stack m' n, (ehdr m base).ePhnum ≤ n ∧ Upto root base size m n m' ∧
        runElf palloc root m base = some (.ring3 entry stack m') := by
  have hfuel : (ehdr m base).ePhnum ≤ 0 + 0x10000 := by
    rw [Nat.zero_add]
    exact Nat.le_of_lt (load_lt m 2 (base + 56))
  have hstart : Upto root base size m 0 m :=
    ⟨h, fun _ _ _ => rfl, fun _ hj => absurd hj (Nat.not_lt_zero _),
      fun _ hj => absurd hj (Nat.not_lt_zero _), fun _ hj => absurd hj (Nat.not_lt_zero _)⟩
  unfold runElf
  rw [if_neg (not_not.mpr hwf.magic)]
  dsimp only
  rcases loadLoop_cases hp htop hapart hwf hfuel hstart with ⟨hnone, hout⟩ | ⟨m1, n, hn, h1, hsome⟩
  · rw [hnone]
    exact .inl ⟨rfl, hout⟩
  right
  have hexec : (ehdr m1 base).eType ≠ etDyn := by
    rw [h1.file.ehdr_eq (le_trans (by decide) hwf.header), hwf.exec]
    decide
  have h2 := h1.take hp
  have h3 := h2.take hp
  have h4 := h3.mapStack hp h1.steady.good
  have h5 := h4.mapStack hp h2.steady.good
  rw [hsome]
  simp only [Option.bind_eq_bind, Option.bind_some, if_neg hexec]
  exact ⟨_, _, _, n, hn, h5, rfl⟩

omit hp htop hapart

theorem atHome_iff {ph : Phdr} (hfits : Fits size ph) :
    AtHome ph ↔ (0 < ph.pMemsz → 0x400000 ≤ ph.pVaddr ∧ ph.pVaddr + ph.pMemsz ≤ 0x401000) := by
  have hlow := hfits.low
  have hpage : ∀ k < ph.pMemsz, (pageNumber (ph.pVaddr + k) = homePage ↔
      0x400000 ≤ ph.pVaddr + k ∧ ph.pVaddr + k < 0x401000) := by
    intro k hk
    rw [pageNumber_low (by omega), homePage]
    omega
  constructor
  · intro h hpos
    have hfirst := (hpage 0 hpos).mp (h 0 hpos)
    have hlast := (hpage _ (Nat.sub_lt hpos Nat.one_pos)).mp (h _ (Nat.sub_lt hpos Nat.one_pos))
    omega
  · intro h k hk
    obtain ⟨hlo, hhi⟩ := h (Nat.zero_lt_of_lt hk)
    exact (hpage k hk).mpr ⟨by omega, by omega⟩

/-- Every address of every segment is mapped, and has the byte of the file, or 0 behind them. -/
def Loaded (root : Nat) (m0 : Mem) (base : Nat) (m : Mem) : Prop :=
  ∀ i, IsLoad m0 base i → ∀ k < (segment m0 base i).pMemsz,
    ∃ t, translate root m ((segment m0 base i).pVaddr + k) = some t ∧
      m (paToVa t.pa) = fileByte m0 base (segment m0 base i) k

theorem Upto.loaded {n : Nat} (h : Upto root base size m0 n m) (hn : (ehdr m0 base).ePhnum ≤ n) :
    Loaded root m0 base m := by
  intro i hi k hk
  have hin : i < n := hi.1.trans_le hn
  obtain ⟨user, ht⟩ := h.steady.translate_home (h.mapped i hin hi (Nat.zero_lt_of_lt hk))
    (h.home i hin hi k hk)
  refine ⟨_, ht, ?_⟩
  rw [paToVa_home]
  exact h.bytes i hin hi k hk

/-- The program is started, with its segments in memory. -/
def Loads (palloc : Palloc) (root : Nat) (m : Mem) (base : Nat) : Prop :=
  ∃ entry stack m', runElf palloc root m base = some (.ring3 entry stack m') ∧ Loaded root m base m'

/-- A program is loaded just when its segments are all in the page at 0x400000. -/
theorem loads_iff (hp : Spares palloc root base size) (htop : base + size ≤ word)
    (hapart : base + size ≤ homeFrame ∨ homeFrame + 0x1000 ≤ base)
    (h : Steady root base size m) (hwf : WellFormed m base size) :
    Loads palloc root m base ↔ ∀ i, IsLoad m base i → 0 < (segment m base i).pMemsz →
      0x400000 ≤ (segment m base i).pVaddr ∧
        (segment m base i).pVaddr + (segment m base i).pMemsz ≤ 0x401000 := by
  have hcases := runElf_cases hp htop hapart hwf h
  constructor
  · rintro ⟨entry, stack, m', hrun, -⟩ i hi
    rcases hcases with ⟨hnone, -⟩ | ⟨_, _, _, n, hn, hall, -⟩
    · rw [hnone] at hrun
      exact absurd hrun (by simp)
    · exact (atHome_iff (hwf.fits i hi)).mp (hall.home i (hi.1.trans_le hn) hi)
  · intro hin
    rcases hcases with ⟨-, i, hi, hout⟩ | ⟨entry, stack, m', n, hn, hall, hrun⟩
    · exact absurd ((atHome_iff (hwf.fits i hi)).mpr (hin i hi)) hout
    · exact ⟨entry, stack, m', hrun, hall.loaded hn⟩

end Run

/-! ## A small program -/

/-- A file with one segment of four bytes, two of them in the file, that begins 256 * `page` bytes
after 0x400000. -/
def program (page : Byte) : Bytes :=
  [0x7F, 0x45, 0x4C, 0x46, 2, 1, 1, 0, 0, 0, 0, 0, 0, 0, 0, 0,
    2, 0, 0x3E, 0, 1, 0, 0, 0, 0, page, 0x40, 0, 0, 0, 0, 0,
    0x40, 0, 0, 0, 0, 0, 0, 0, 0, 0, 0, 0, 0, 0, 0, 0,
    0, 0, 0, 0, 0x40, 0, 0x38, 0, 1, 0, 0x40, 0, 0, 0, 0, 0,
    1, 0, 0, 0, 7, 0, 0, 0, 0x78, 0, 0, 0, 0, 0, 0, 0,
    0, page, 0x40, 0, 0, 0, 0, 0, 0, page, 0x40, 0, 0, 0, 0, 0,
    2, 0, 0, 0, 0, 0, 0, 0, 4, 0, 0, 0, 0, 0, 0, 0,
    0, 0x10, 0, 0, 0, 0, 0, 0, 0xEB, 0xFE]

def programBase : Nat := paToVa 0x2000

/-- The file in a memory that is empty otherwise. -/
def withProgram (page : Byte) : Mem := fun x =>
  if programBase ≤ x then (program page).getD (x - programBase) 0 else 0

theorem ehdr_withProgram : ∀ page ∈ [0, 0x10], ehdr (withProgram page) programBase =
    ⟨[0x7F, 0x45, 0x4C, 0x46], 2, 0x400000 + 256 * page.toNat, 0x40, 1⟩ := by
  decide

theorem segment_withProgram : ∀ page ∈ [0, 0x10], segment (withProgram page) programBase 0 =
    ⟨ptLoad, 0x78, 0x400000 + 256 * page.toNat, 2, 4⟩ := by
  decide

theorem withProgram_isLoad {page : Byte} (h : page ∈ [0, 0x10]) {i : Nat} :
    IsLoad (withProgram page) programBase i ↔ i = 0 := by
  unfold IsLoad
  rw [ehdr_withProgram page h, Nat.lt_one_iff]
  constructor
  · exact And.left
  · rintro rfl
    rw [segment_withProgram page h]
    exact ⟨rfl, rfl⟩

theorem withProgram_wellFormed {page : Byte} (h : page ∈ [0, 0x10]) :
    WellFormed (withProgram page) programBase 122 := by
  have hehdr := ehdr_withProgram page h
  refine ⟨by decide, by rw [hehdr], by rw [hehdr], ?_, ?_, ?_⟩
  · rw [hehdr]
    exact show 0x40 + 56 * 1 ≤ 122 by decide
  · intro i hi
    obtain rfl := (withProgram_isLoad h).mp hi
    have := page.isLt
    rw [segment_withProgram page h]
    constructor <;> dsimp only <;> omega
  · intro i j hi hj hne
    exact absurd (((withProgram_isLoad h).mp hi).trans ((withProgram_isLoad h).mp hj).symm) hne

theorem withProgram_sameBy (page : Byte) :
    SameBy present (paToVa 0x1000) (fun _ => 0) (withProgram page) := by
  have hbefore : paToVa 0x1000 + 0x1000 = programBase := by decide
  rintro x ⟨p, t, -, ht, -, hhi⟩
  rw [tableBy_empty leads_present ht, tableBy, follow_nil, Option.some.injEq] at ht
  unfold withProgram
  rw [if_neg (by omega)]

theorem withProgram_steady (page : Byte) (size : Nat) :
    Steady (paToVa 0x1000) programBase size (withProgram page) := by
  have hbefore : paToVa 0x1000 + 0x1000 = programBase := by decide
  have hframe : programBase ≤ homeFrame := by decide
  have hempty : Steady (paToVa 0x1000) programBase size fun _ => 0 := by
    refine ⟨good_empty, ?_, ?_⟩
    · rintro x hx ⟨p, t, -, ht, -, hhi⟩
      rw [tableBy_empty leads_present ht, tableBy, follow_nil, Option.some.injEq] at ht
      rcases hx with hx | hx <;> omega
    · intro q t j _ _ hpres
      rw [absent_empty] at hpres
      exact absurd hpres (by simp)
  exact hempty.sameBy (withProgram_sameBy page)

theorem exists_spares {size : Nat} (hsize : size ≤ 122) :
    ∃ palloc, Spares palloc (paToVa 0x1000) programBase size := by
  choose page h32 hlt ha hfresh using exists_fresh present (paToVa 0x1000)
  refine ⟨fun m => (page m, m), ⟨?_, fun _ _ _ => rfl, ?_⟩⟩
  · intro m _
    have := h32 m
    exact ⟨by dsimp only; omega, hlt m, ha m, hfresh m, fun _ _ _ _ _ _ _ => rfl⟩
  · rintro m x hx ⟨hlo, -⟩
    have h1 : programBase + 122 ≤ directBase + 2 ^ 32 := by decide
    have h2 : homeFrame + 0x1000 ≤ directBase + 2 ^ 32 := by decide
    have h3 := h32 m
    rw [paToVa_low (hlt m)] at hlo
    rcases hx with hx | hx <;> omega

theorem loads_iff_home : ∃ palloc, Spares palloc (paToVa 0x1000) programBase 122 ∧
    Loads palloc (paToVa 0x1000) (withProgram 0) programBase := by
  obtain ⟨palloc, hp⟩ := exists_spares (le_refl 122)
  refine ⟨palloc, hp, ?_⟩
  refine (loads_iff hp (by decide) (Or.inl (by decide))
    (withProgram_steady 0 122)
    (withProgram_wellFormed (by decide))).mpr ?_
  intro i hi _
  obtain rfl := (withProgram_isLoad (by decide)).mp hi
  rw [segment_withProgram 0 (by decide)]
  decide

/-- A program at 0x401000, the next page, stops the machine. -/
theorem program_not_loaded : ∃ palloc, Spares palloc (paToVa 0x1000) programBase 122 ∧
    Steady (paToVa 0x1000) programBase 122 (withProgram 0x10) ∧
    WellFormed (withProgram 0x10) programBase 122 ∧
    runElf palloc (paToVa 0x1000) (withProgram 0x10) programBase = none ∧
    ¬ Loads palloc (paToVa 0x1000) (withProgram 0x10) programBase := by
  obtain ⟨palloc, hp⟩ := exists_spares (le_refl 122)
  have hs := withProgram_steady 0x10 122
  have hwf : WellFormed (withProgram 0x10) programBase 122 := withProgram_wellFormed (by decide)
  have hload : IsLoad (withProgram 0x10) programBase 0 := (withProgram_isLoad (by decide)).mpr rfl
  have hstops : runElf palloc (paToVa 0x1000) (withProgram 0x10) programBase = none := by
    rcases runElf_cases hp (by decide) (Or.inl (by decide)) hwf hs with
      ⟨hnone, -⟩ | ⟨_, _, _, n, hn, hall, -⟩
    · exact hnone
    · have hat := (atHome_iff (hwf.fits 0 hload)).mp (hall.home 0 (hload.1.trans_le hn) hload)
      rw [segment_withProgram 0x10 (by decide)] at hat
      exact absurd hat (by decide)
  refine ⟨palloc, hp, hs, hwf, hstops, ?_⟩
  rintro ⟨entry, stack, m', hrun, -⟩
  rw [hstops] at hrun
  exact absurd hrun (by simp)

end Terrakernel.Elf
