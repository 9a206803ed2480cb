import Mathlib.Data.List.Find
import Terrakernel.Elf.Run

/-!
# What `run_elf` reads of the file

`run_elf` never looks at the length of the file that it is told.
-/

namespace Terrakernel.Elf

open Memory Mem Vmm Function
open List hiding Mem

variable {a table va x i n w : Nat}

abbrev magic : Bytes := [0x7F, 0x45, 0x4C, 0x46]

/-- The addresses of a field. -/
def field (a w : Nat) : List Nat := range' a w

/-- The comparison of `e_ident` stops at the first byte that differs. -/
def identReads (m : Mem) : Nat → Bytes → List Nat
  | _, [] => []
  | a, c :: rest => a :: if m a = c then identReads m (a + 1) rest else []

/-- The address of `phdr[i]`. -/
def headerAt (table i : Nat) : Nat := (table + 56 * i) % word

/-- The fields that only a header of type `PT_LOAD` is asked for, and `e_type`. -/
def headerReads (base a : Nat) : List Nat :=
  field (base + 16) 2 ++ field (a + 16) 8 ++ field (a + 40) 8 ++ field (a + 32) 8 ++ field (a + 8) 8

section Reads

variable (palloc : Palloc) (root : Nat)

/-- A round of `memcpy` reads its byte before it stores it. -/
def copyReads (dest src count : Nat) (m : Mem) : List Nat :=
  ((List.range count).filter fun i => (memcpyTo root dest src i m).isSome).map
    fun i => (src + i) % word

def segmentReads (base segBase : Nat) (ph : Phdr) (m : Mem) : List Nat :=
  let mapStart := pageOf segBase
  let mapEnd := pageOf ((segBase + ph.pMemsz + 0xFFF) % word)
  let mapPages := (mapEnd + word - mapStart) % word / 0x1000
  copyReads root segBase (base + ph.pOffset) ph.pFilesz (mapRounds palloc root mapStart mapPages m)

def roundReads (base table loadBase i : Nat) (m : Mem) : List Nat :=
  let ph := phdr m table i
  field (headerAt table i) 4 ++
    if ph.pType ≠ ptLoad then []
    else
      let segBase :=
        if (ehdr m base).eType = etDyn then (loadBase + ph.pVaddr) % word else ph.pVaddr
      headerReads base (headerAt table i) ++ segmentReads palloc root base segBase ph m

/-- The reads of `loadLoop`, which ends where the machine stops. -/
def loopReads (base table loadBase : Nat) : Nat → Nat → Mem → List Nat
  | 0, _, _ => []
  | fuel + 1, i, m =>
    field (base + 56) 2 ++
      if (ehdr m base).ePhnum ≤ i then []
      else
        roundReads palloc root base table loadBase i m ++
          match loadRound palloc root base table loadBase i m with
          | none => []
          | some m => loopReads base table loadBase fuel (i + 1) m

/-- `apply_relocations` reads the types up to the header that it looks for. -/
def relocationReads (m : Mem) (table phnum : Nat) : List Nat :=
  match (List.range phnum).find? fun i => (phdr m table i).pType = ptDynamic with
  | none => (List.range phnum).flatMap fun i => field (headerAt table i) 4
  | some i =>
    ((List.range (i + 1)).flatMap fun i => field (headerAt table i) 4) ++
      field (headerAt table i + 16) 8

/-- The reads behind the loop. -/
def endReads (base table loadBase : Nat) (m : Mem) : List Nat :=
  field (base + 16) 2 ++
    if (ehdr m base).eType = etDyn then
      field (base + 56) 2 ++ (relocationReads m table (ehdr m base).ePhnum ++
        match applyRelocations root m loadBase table (ehdr m base).ePhnum with
        | none => []
        | some _ => field (base + 16) 2 ++ field (base + 24) 8)
    else field (base + 16) 2 ++ field (base + 24) 8

def imageReads (m : Mem) (base : Nat) : List Nat :=
  identReads m base magic ++
    if (ehdr m base).eIdent ≠ magic then []
    else
      let loadBase := 0
      let table := (base + (ehdr m base).ePhoff) % word
      field (base + 32) 8 ++ (loopReads palloc root base table loadBase 0x10000 0 m ++
        match loadLoop palloc root base table loadBase 0x10000 0 m with
        | none => []
        | some m => endReads root base table loadBase m)

end Reads

/-! ## Files that are read in their bounds -/

def InFile (base size x : Nat) : Prop := base ≤ x ∧ x < base + size

instance (base size x : Nat) : Decidable (InFile base size x) :=
  inferInstanceAs (Decidable (base ≤ x ∧ x < base + size))

def FieldIn (base size a w : Nat) : Prop := base ≤ a ∧ a + w ≤ base + size

instance (base size a w : Nat) : Decidable (FieldIn base size a w) :=
  inferInstanceAs (Decidable (base ≤ a ∧ a + w ≤ base + size))

/-- Page `v` is one of those that the loop over the pages of a segment comes to. -/
def Covers (ph : Phdr) (v : Nat) : Prop :=
  ph.pVaddr / 0x1000 ≤ v ∧ v < (ph.pVaddr + ph.pMemsz + 0xFFF) / 0x1000

/-- The byte at `va` can be written after the pages of the first `n` headers were mapped: the code
takes these pages away, but the one at 0x400000 it maps. -/
def Standing (root : Nat) (m : Mem) (base n va : Nat) : Prop :=
  if pageNumber va = homePage then
    (place root m va true).isSome ∨ ∃ i < n, IsLoad m base i ∧ ∃ v, Covers (segment m base i) v
  else (place root m va true).isSome ∧
    ∀ i < n, IsLoad m base i → ¬ Covers (segment m base i) (pageNumber va)

/-- The first `k` bytes of segment `i` can be written. -/
def Written (root : Nat) (m : Mem) (base i k : Nat) : Prop :=
  ∀ j < k, (segment m base i).pVaddr + j < 2 ^ 47 ∧
    Standing root m base (i + 1) ((segment m base i).pVaddr + j)

/-- The loop comes to header `i`. -/
def Reached (root : Nat) (m : Mem) (base i : Nat) : Prop :=
  ∀ j < i, IsLoad m base j →
    Written root m base j (max (segment m base j).pFilesz (segment m base j).pMemsz)

def phdrTable (m : Mem) (base : Nat) : Nat := (base + (ehdr m base).ePhoff) % word

/-- Header `i` and its segment are in the file, as far as they are read. A byte is read if those
before it could be written. -/
structure RoundIn (root : Nat) (m : Mem) (base size i : Nat) : Prop where
  type : FieldIn base size (headerAt (phdrTable m base) i) 4
  fields : (segment m base i).pType = ptLoad → FieldIn base size (headerAt (phdrTable m base) i) 48
  bytes : (segment m base i).pType = ptLoad → ∀ k < (segment m base i).pFilesz,
    Written root m base i k → InFile base size ((base + (segment m base i).pOffset + k) % word)

structure Contained (root : Nat) (m : Mem) (base size : Nat) : Prop where
  ident : ∀ i < 4, Holds m base (magic.take i) → i < size
  header : (ehdr m base).eIdent = magic → 58 ≤ size
  rounds : (ehdr m base).eIdent = magic → ∀ i < (ehdr m base).ePhnum, Reached root m base i →
    RoundIn root m base size i
  dynamic : (ehdr m base).eIdent = magic → (ehdr m base).eType = etDyn →
    Reached root m base (ehdr m base).ePhnum → ∀ i, ((List.range (ehdr m base).ePhnum).find?
      fun i => (segment m base i).pType = ptDynamic) = some i →
    FieldIn base size (headerAt (phdrTable m base) i + 16) 8

section Fields

variable {base size : Nat} {m0 m : Mem}

theorem field_inFile (hw : 0 < w) :
    (∀ x ∈ field a w, InFile base size x) ↔ FieldIn base size a w := by
  unfold field InFile FieldIn
  simp only [mem_range'_1]
  constructor
  · intro h
    have hfirst := h a ⟨le_refl a, by omega⟩
    have hlast := h (a + w - 1) ⟨by omega, by omega⟩
    omega
  · rintro ⟨hlo, hhi⟩ x ⟨h1, h2⟩
    omega

theorem field_header (hsize : 58 ≤ size) {o : Nat} (how : o + w ≤ 58) :
    ∀ x ∈ field (base + o) w, InFile base size x := by
  unfold field InFile
  intro x hx
  rw [mem_range'_1] at hx
  omega

theorem identReads_inFile {P : Nat → Prop} (l : Bytes) (a : Nat) :
    (∀ x ∈ identReads m a l, P x) ↔ ∀ i < l.length, Holds m a (l.take i) → P (a + i) := by
  induction l generalizing a with
  | nil => simp [identReads]
  | cons c l ih =>
    rw [identReads, forall_mem_cons]
    constructor
    · rintro ⟨hfirst, hrest⟩ i hi hholds
      cases i with
      | zero => exact hfirst
      | succ i =>
        rw [take_succ_cons] at hholds
        obtain ⟨hc, hholds⟩ := holds_cons.mp hholds
        rw [if_pos hc] at hrest
        rw [Nat.add_comm i, ← Nat.add_assoc]
        exact (ih (a + 1)).mp hrest i (Nat.lt_of_succ_lt_succ hi) hholds
    · intro h
      refine ⟨h 0 (Nat.succ_pos _) (by simp [Holds]), ?_⟩
      split_ifs with hc
      · apply (ih (a + 1)).mpr
        intro i hi hholds
        rw [Nat.add_assoc, Nat.add_comm 1]
        apply h (i + 1) (Nat.succ_lt_succ hi)
        rw [take_succ_cons]
        exact holds_cons.mpr ⟨hc, hholds⟩
      · simp

theorem headerReads_inFile (hsize : 58 ≤ size) (ha : base ≤ a) :
    (∀ x ∈ headerReads base a, InFile base size x) ↔ FieldIn base size a 48 := by
  unfold headerReads
  simp only [forall_mem_append, field_inFile (show 0 < 2 by decide),
    field_inFile (show 0 < 8 by decide)]
  unfold FieldIn
  omega

theorem SameFile.pType_eq (h : SameFile base size m0 m)
    (hin : FieldIn base size (headerAt table i) 4) :
    (phdr m table i).pType = (phdr m0 table i).pType := by
  have hlo := hin.1
  have hhi := hin.2
  exact load_congr 4 _ fun x h1 h2 => h x (le_trans hlo h1) (lt_of_lt_of_le h2 hhi)

theorem relocationReads_inFile (h : SameFile base size m0 m) {phnum : Nat}
    (htypes : ∀ i < phnum, FieldIn base size (headerAt table i) 4) :
    (∀ x ∈ relocationReads m table phnum, InFile base size x) ↔
      ∀ i, ((List.range phnum).find? fun i => (phdr m0 table i).pType = ptDynamic) = some i →
        FieldIn base size (headerAt table i + 16) 8 := by
  have hfind : ((List.range phnum).find? fun i => (phdr m table i).pType = ptDynamic) =
      (List.range phnum).find? fun i => (phdr m0 table i).pType = ptDynamic := by
    apply find?_congr
    intro i hi
    rw [h.pType_eq (htypes i (mem_range.mp hi))]
  have hall : ∀ n ≤ phnum, ∀ x ∈ (List.range n).flatMap fun i => field (headerAt table i) 4,
      InFile base size x := by
    intro n hn x hx
    obtain ⟨i, hi, hx⟩ := mem_flatMap.mp hx
    have hlt : i < phnum := lt_of_lt_of_le (mem_range.mp hi) hn
    exact (field_inFile (by decide)).mpr (htypes i hlt) x hx
  unfold relocationReads
  rw [hfind]
  cases hi : (List.range phnum).find? fun i => (phdr m0 table i).pType = ptDynamic with
  | none => exact iff_of_true (hall phnum (le_refl _)) fun i h => absurd h (by simp)
  | some i =>
    have hlt : i < phnum := mem_range.mp (mem_of_find?_eq_some hi)
    simp only [forall_mem_append, field_inFile (show 0 < 8 by decide), Option.some.injEq,
      forall_eq']
    exact and_iff_right (hall (i + 1) hlt)

end Fields

/-! ## Stores -/

/-- The byte at `x` is in neither the file nor a table, and the allocator leaves it alone. -/
structure Aside (palloc : Palloc) (root base size : Nat) (m : Mem) (x : Nat) : Prop where
  spares : Spares palloc root x 1
  steady : Steady root x 1 m
  file : ¬ (base ≤ x ∧ x < base + size)

/-- Programs can write to such bytes only. -/
structure Sheltered (palloc : Palloc) (root base size : Nat) (m : Mem) : Prop where
  steady : Steady root base size m
  aside : ∀ va < 2 ^ 47, ∀ x, place root m va true = some x → Aside palloc root base size m x

section Stores

variable {palloc : Palloc} {root base size : Nat} {m0 m m' : Mem}

theorem place_congr (h : translate root m' va = translate root m va) (write : Bool) :
    place root m' va write = place root m va write := by
  unfold place
  rw [h]

theorem Spares.home (hp : Spares palloc root base size)
    (hx : homeFrame ≤ x ∧ x < homeFrame + 0x1000) : Spares palloc root x 1 := by
  have hpriv : ∀ {y}, Private x 1 y → Private base size y := by
    intro y hy
    unfold Private at hy ⊢
    omega
  exact ⟨hp.supplies, fun m y hy => hp.keeps m y (hpriv hy), fun m y hy => hp.pages m y (hpriv hy)⟩

theorem Steady.home (h : Steady root base size m) (hx : homeFrame ≤ x ∧ x < homeFrame + 0x1000) :
    Steady root x 1 m := by
  refine ⟨h.good, fun y hy => h.tables y ?_, h.writes⟩
  unfold Private at hy ⊢
  omega

theorem Sheltered.store (h : Sheltered palloc root base size m) {x : Nat}
    (hx : Aside palloc root base size m x) (v : Byte) :
    Sheltered palloc root base size (update m x v) ∧
      SameFile base size m (update m x v) ∧
      ∀ va, place root (update m x v) va true = place root m va true := by
  have hby : SameBy present root m (update m x v) := by
    intro y hy
    rw [update_of_ne]
    rintro rfl
    exact hx.steady.tables y (Or.inl ⟨le_refl y, Nat.lt_succ_self y⟩) hy
  have hplace : ∀ va, place root (update m x v) va true = place root m va true :=
    fun va => place_congr (SameBy.translate_eq (fun y hy => hby y hy.of_plain) va) true
  refine ⟨⟨h.steady.sameBy hby, ?_⟩, ?_, hplace⟩
  · intro va hva y hy
    rw [hplace] at hy
    have ha := h.aside va hva y hy
    exact ⟨ha.spares, ha.steady.sameBy hby, ha.file⟩
  · intro y h1 h2
    rw [update_of_ne]
    rintro rfl
    exact hx.file ⟨h1, h2⟩

theorem fillTo_sheltered (h : Sheltered palloc root base size m) {dest : Nat} (hdest : dest ≤ 2 ^ 47)
    (value : Mem → Nat → Byte) (n : Nat) :
    ((fillTo root dest value n m).isSome ↔
        ∀ i < n, dest + i < 2 ^ 47 ∧ (place root m (dest + i) true).isSome) ∧
      ∀ m', fillTo root dest value n m = some m' → Sheltered palloc root base size m' ∧
        SameFile base size m m' ∧ ∀ va, place root m' va true = place root m va true := by
  induction n with
  | zero =>
    refine ⟨iff_of_true rfl fun i hi => absurd hi (Nat.not_lt_zero i), ?_⟩
    rintro _ ⟨⟩
    exact ⟨h, fun _ _ _ => rfl, fun _ => rfl⟩
  | succ n ih =>
    obtain ⟨hiff, hnext⟩ := ih
    rw [fillTo]
    cases hfill : fillTo root dest value n m with
    | none =>
      rw [hfill] at hiff
      refine ⟨iff_of_false (by simp) fun hall => ?_, by simp⟩
      exact absurd (hiff.mpr fun i hi => hall i (hi.trans (Nat.lt_succ_self n))) (by simp)
    | some m1 =>
      rw [hfill] at hiff
      obtain ⟨h1, hfile, hplace⟩ := hnext m1 hfill
      have hall := hiff.mp rfl
      have hle : dest + n ≤ 2 ^ 47 := by
        cases n with
        | zero => exact hdest
        | succ n => exact (hall n (Nat.lt_succ_self n)).1
      have hlast : (∀ i < n + 1, dest + i < 2 ^ 47 ∧ (place root m (dest + i) true).isSome) ↔
          dest + n < 2 ^ 47 ∧ (place root m (dest + n) true).isSome := by
        refine ⟨fun h => h n (Nat.lt_succ_self n), fun h i hi => ?_⟩
        rcases Nat.lt_succ_iff_lt_or_eq.mp hi with hi | rfl
        · exact hall i hi
        · exact h
      rw [hlast, Nat.mod_eq_of_lt (hle.trans_lt (by decide))]
      simp only [Option.bind_eq_bind, Option.bind_some, hplace]
      rcases hle.lt_or_eq with hlt | heq
      · cases hx : place root m (dest + n) true with
        | none => exact ⟨iff_of_false (by simp) (by simp), by simp⟩
        | some x =>
          obtain ⟨h2, hfile2, hplace2⟩ := h1.store
            (h1.aside _ hlt x ((hplace _).trans hx)) (value m1 n)
          refine ⟨iff_of_true rfl ⟨hlt, rfl⟩, ?_⟩
          rintro _ ⟨⟩
          exact ⟨h2, fun y hy1 hy2 => (hfile2 y hy1 hy2).trans (hfile y hy1 hy2),
            fun va => (hplace2 va).trans (hplace va)⟩
      · -- The first address that is not canonical.
        have hnone : place root m (dest + n) true = none := by
          rw [heq]
          exact if_pos (by decide)
        rw [hnone]
        exact ⟨iff_of_false (by simp) (by simp), by simp⟩

end Stores

/-! ## The loop -/

/-- The loop has come to header `n`. -/
structure Passed (palloc : Palloc) (root base size : Nat) (m0 : Mem) (n : Nat) (m : Mem) :
    Prop where
  sheltered : Sheltered palloc root base size m
  file : SameFile base size m0 m
  reached : Reached root m0 base n
  standing : ∀ va < 2 ^ 47, (place root m va true).isSome ↔ Standing root m0 base n va

section Loop

variable {palloc : Palloc} {root base size : Nat} {m0 m : Mem}

theorem Reached.mono (h : Reached root m0 base n) (hle : i ≤ n) :
    Reached root m0 base i := fun j hj => h j (lt_of_lt_of_le hj hle)

theorem standing_succ : Standing root m0 base (n + 1) va ↔
    if pageNumber va = homePage then
      Standing root m0 base n va ∨ IsLoad m0 base n ∧ ∃ v, Covers (segment m0 base n) v
    else Standing root m0 base n va ∧
      (IsLoad m0 base n → ¬ Covers (segment m0 base n) (pageNumber va)) := by
  unfold Standing
  split_ifs
  · simp only [Nat.exists_lt_succ_right, or_assoc]
  · simp only [Nat.forall_lt_succ_right, and_assoc]

theorem Passed.skip (h : Passed palloc root base size m0 i m) (hi : ¬ IsLoad m0 base i) :
    Passed palloc root base size m0 (i + 1) m := by
  refine ⟨h.sheltered, h.file, ?_, fun va hva => ?_⟩
  · intro j hj
    rcases Nat.lt_succ_iff_lt_or_eq.mp hj with hj | rfl
    · exact h.reached j hj
    · exact fun hl => absurd hl hi
  · rw [h.standing va hva, standing_succ]
    simp [hi]

theorem segBase_eq {ph : Phdr} (hlow : ph.pVaddr ≤ 2 ^ 47) (dyn : Prop) [Decidable dyn] :
    (if dyn then (0 + ph.pVaddr) % word else ph.pVaddr) = ph.pVaddr := by
  rw [Nat.zero_add, Nat.mod_eq_of_lt (by simp only [word]; omega), ite_self]

variable (hp : Spares palloc root base size)
  (hapart : base + size ≤ homeFrame ∨ homeFrame + 0x1000 ≤ base)

include hp hapart

section Segment

variable {ph : Phdr} (h : Passed palloc root base size m0 i m) (hload : IsLoad m0 base i)
  (hph : segment m0 base i = ph) (hlow : ph.pVaddr + ph.pMemsz ≤ 2 ^ 47)

include h hload hph hlow

theorem Passed.mapped :
    ∃ m1, mapRounds palloc root (pageOf ph.pVaddr)
        ((ph.pVaddr + ph.pMemsz + 0xFFF) / 0x1000 - ph.pVaddr / 0x1000) m = m1 ∧
      Sheltered palloc root base size m1 ∧ SameFile base size m0 m1 ∧
      ∀ va < 2 ^ 47, (place root m1 va true).isSome ↔ Standing root m0 base (i + 1) va := by
  obtain ⟨n, hn⟩ : ∃ n, (ph.pVaddr + ph.pMemsz + 0xFFF) / 0x1000 - ph.pVaddr / 0x1000 = n := ⟨_, rfl⟩
  have hstart : pageOf ph.pVaddr / 0x1000 = ph.pVaddr / 0x1000 := by
    simp only [pageOf]
    omega
  have hend : pageOf ph.pVaddr + n * 0x1000 ≤ 2 ^ 47 := by
    simp only [pageOf]
    omega
  have hcovers : ∀ v, Covers ph v ↔ ph.pVaddr / 0x1000 ≤ v ∧ v < ph.pVaddr / 0x1000 + n := by
    intro v
    unfold Covers
    omega
  have hspec := fun {b z} (hp : Spares palloc root b z) (hs : Steady root b z m) =>
    mapRounds_spec hp hs (pageOf_mod ph.pVaddr) hend
  rw [hstart] at hspec
  obtain ⟨hs, hbytes, hhome, hgone, htr⟩ := hspec hp h.sheltered.steady
  rw [hn]
  refine ⟨_, rfl, ⟨hs, ?_⟩, ?_, ?_⟩
  · intro va hva x hx
    by_cases hpage : pageNumber va = homePage
    · rcases Nat.eq_zero_or_pos n with rfl | hpos
      · exact h.sheltered.aside va hva x hx
      · rw [hs.place_home (hhome (Or.inl hpos)) hva hpage] at hx
        obtain rfl := Option.some.inj hx
        have hin : homeFrame ≤ homeFrame + va % 0x1000 ∧ homeFrame + va % 0x1000 < homeFrame + 0x1000 :=
          homeByte_mem va
        exact ⟨hp.home hin, hs.home hin, by omega⟩
    · by_cases hcov : ph.pVaddr / 0x1000 ≤ pageNumber va ∧ pageNumber va < ph.pVaddr / 0x1000 + n
      · rw [hs.place_none (hgone _ hcov.1 hcov.2 hpage)] at hx
        exact absurd hx (by simp)
      · rw [place_congr (htr va hva hpage hcov)] at hx
        have ha := h.sheltered.aside va hva x hx
        exact ⟨ha.spares, (hspec ha.spares ha.steady).1, ha.file⟩
  · intro x h1 h2
    rw [hbytes x (Or.inl ⟨h1, h2⟩), h.file x h1 h2]
  · intro va hva
    rw [standing_succ, ← h.standing va hva, hph]
    split_ifs with hpage
    · rcases Nat.eq_zero_or_pos n with rfl | hpos
      · refine (or_iff_left ?_).symm
        rintro ⟨-, v, hv⟩
        have := (hcovers v).mp hv
        omega
      · rw [hs.place_home (hhome (Or.inl hpos)) hva hpage]
        exact iff_of_true rfl (Or.inr ⟨hload, _, (hcovers _).mpr ⟨le_refl _, by omega⟩⟩)
    · rw [hcovers]
      by_cases hcov : ph.pVaddr / 0x1000 ≤ pageNumber va ∧ pageNumber va < ph.pVaddr / 0x1000 + n
      · rw [hs.place_none (hgone _ hcov.1 hcov.2 hpage)]
        exact iff_of_false (by simp) fun hx => hx.2 hload hcov
      · rw [place_congr (htr va hva hpage hcov)]
        exact (and_iff_left fun _ => hcov).symm

theorem Passed.mem_segmentReads :
    x ∈ segmentReads palloc root base ph.pVaddr ph m ↔
      ∃ k < ph.pFilesz, Written root m0 base i k ∧ x = (base + ph.pOffset + k) % word := by
  obtain ⟨m1, hm1, hsh, -, hstand⟩ := h.mapped hp hapart hload hph hlow
  have hrounds : ∀ k, (memcpyTo root ph.pVaddr (base + ph.pOffset) k m1).isSome = true ↔
      Written root m0 base i k := by
    subst hph
    intro k
    rw [memcpyTo, (fillTo_sheltered hsh (by omega) _ k).1]
    exact forall₂_congr fun j _ => and_congr_right (hstand _)
  unfold segmentReads copyReads
  simp only [mapPages_eq hlow, hm1, List.mem_map, mem_filter, mem_range, hrounds,
    and_assoc, eq_comm]

theorem Passed.loadSegment :
    Elf.loadSegment palloc root base ph.pVaddr ph m = none ∧ ¬ Reached root m0 base (i + 1) ∨
      ∃ m', Elf.loadSegment palloc root base ph.pVaddr ph m = some m' ∧
        Passed palloc root base size m0 (i + 1) m' := by
  obtain ⟨m1, hm1, hsh, hfile, hstand⟩ := h.mapped hp hapart hload hph hlow
  have hwritten : ∀ k, Written root m0 base i k ↔ ∀ j < k, ph.pVaddr + j < 2 ^ 47 ∧
      (place root m1 (ph.pVaddr + j) true).isSome := by
    subst hph
    exact fun k => forall₂_congr fun j _ => and_congr_right fun hj => (hstand _ hj).symm
  have hreached : Reached root m0 base (i + 1) ↔
      Written root m0 base i (max ph.pFilesz ph.pMemsz) := by
    subst hph
    refine ⟨fun hr => hr i (Nat.lt_succ_self i) hload, fun hw j hj => ?_⟩
    rcases Nat.lt_succ_iff_lt_or_eq.mp hj with hj | rfl
    · exact h.reached j hj
    · exact fun _ => hw
  unfold Elf.loadSegment
  simp only [mapPages_eq hlow, hm1, memcpyTo, memsetTo]
  obtain ⟨hcopied, hcopy⟩ := fillTo_sheltered hsh (show ph.pVaddr ≤ 2 ^ 47 by omega)
    (fun m k => m ((base + ph.pOffset + k) % word)) ph.pFilesz
  rw [← hwritten] at hcopied
  cases hm2 : fillTo root ph.pVaddr (fun m k => m ((base + ph.pOffset + k) % word)) ph.pFilesz m1 with
  | none =>
    rw [hm2] at hcopied
    refine .inl ⟨rfl, fun hr => absurd (hcopied.mpr ?_) (by simp)⟩
    exact fun j hj => hreached.mp hr j (lt_max_of_lt_left hj)
  | some m2 =>
    rw [hm2] at hcopied
    have hw := hcopied.mp rfl
    obtain ⟨hsh2, hfile2, hplace2⟩ := hcopy m2 hm2
    simp only [Option.bind_eq_bind, Option.bind_some]
    split_ifs with hmore
    · obtain ⟨hzeroed, hzero⟩ := fillTo_sheltered hsh2
        (show ph.pVaddr + ph.pFilesz ≤ 2 ^ 47 by omega) (fun _ _ => 0) (ph.pMemsz - ph.pFilesz)
      have hall : Reached root m0 base (i + 1) ↔ ∀ j < ph.pMemsz - ph.pFilesz,
          ph.pVaddr + ph.pFilesz + j < 2 ^ 47 ∧
            (place root m2 (ph.pVaddr + ph.pFilesz + j) true).isSome := by
        rw [hreached, max_eq_right (Nat.le_of_lt hmore), hwritten]
        simp only [hplace2, Nat.add_assoc]
        refine ⟨fun hx j hj => hx _ (by omega), fun hx j hj => ?_⟩
        rcases Nat.lt_or_ge j ph.pFilesz with hlt | hge
        · exact (hwritten _).mp hw j hlt
        · have := hx (j - ph.pFilesz) (by omega)
          rwa [Nat.add_sub_cancel' hge] at this
      rw [← hall] at hzeroed
      cases hm3 : fillTo root (ph.pVaddr + ph.pFilesz) (fun _ _ => 0) (ph.pMemsz - ph.pFilesz) m2 with
      | none =>
        rw [hm3] at hzeroed
        exact .inl ⟨rfl, fun hr => absurd (hzeroed.mpr hr) (by simp)⟩
      | some m3 =>
        rw [hm3] at hzeroed
        obtain ⟨hsh3, hfile3, hplace3⟩ := hzero m3 hm3
        refine .inr ⟨m3, rfl, hsh3, ?_, hzeroed.mp rfl, ?_⟩
        · exact fun x h1 h2 => (hfile3 x h1 h2).trans ((hfile2 x h1 h2).trans (hfile x h1 h2))
        · intro va hva
          rw [hplace3, hplace2, hstand va hva]
    · refine .inr ⟨m2, rfl, hsh2, ?_, ?_, ?_⟩
      · exact fun x h1 h2 => (hfile2 x h1 h2).trans (hfile x h1 h2)
      · rwa [hreached, max_eq_left (Nat.le_of_not_lt hmore)]
      · intro va hva
        rw [hplace2, hstand va hva]

end Segment

variable (huser : ∀ i, IsLoad m0 base i → Reached root m0 base i →
  FieldIn base size (headerAt (phdrTable m0 base) i) 48 →
    (segment m0 base i).pVaddr + (segment m0 base i).pMemsz ≤ 2 ^ 47)

include huser

theorem roundReads_inFile (hsize : 58 ≤ size) {i : Nat} (hi : i < (ehdr m0 base).ePhnum)
    (h : Passed palloc root base size m0 i m) :
    (∀ x ∈ roundReads palloc root base (phdrTable m0 base) 0 i m, InFile base size x) ↔
      RoundIn root m0 base size i := by
  unfold roundReads
  rw [forall_mem_append, field_inFile (by decide)]
  by_cases htype : FieldIn base size (headerAt (phdrTable m0 base) i) 4
  swap
  · exact iff_of_false (fun hx => htype hx.1) fun hx => htype hx.type
  have hpt : (phdr m (phdrTable m0 base) i).pType = (segment m0 base i).pType := h.file.pType_eq htype
  rw [and_iff_right htype]
  by_cases hload : (segment m0 base i).pType = ptLoad
  swap
  · rw [if_pos (hpt ▸ hload)]
    exact iff_of_true (by simp) ⟨htype, fun hx => absurd hx hload, fun hx => absurd hx hload⟩
  rw [if_neg (not_not.mpr (hpt.trans hload)), forall_mem_append,
    headerReads_inFile hsize htype.1]
  by_cases hfields : FieldIn base size (headerAt (phdrTable m0 base) i) 48
  swap
  · exact iff_of_false (fun hx => hfields hx.1) fun hx => hfields (hx.fields hload)
  have hph : phdr m (phdrTable m0 base) i = segment m0 base i :=
    h.file.phdrAt_eq hfields.1 hfields.2
  have hlow := huser i ⟨hi, hload⟩ h.reached hfields
  rw [and_iff_right hfields, hph, segBase_eq (by omega)]
  simp only [h.mem_segmentReads hp hapart ⟨hi, hload⟩ rfl hlow]
  constructor
  · intro hx
    exact ⟨htype, fun _ => hfields, fun _ k hk hw => hx _ ⟨k, hk, hw, rfl⟩⟩
  · rintro hround x ⟨k, hk, hw, rfl⟩
    exact hround.bytes hload k hk hw

theorem round_cases {i : Nat} (hi : i < (ehdr m0 base).ePhnum)
    (h : Passed palloc root base size m0 i m) (hround : RoundIn root m0 base size i) :
    loadRound palloc root base (phdrTable m0 base) 0 i m = none ∧ ¬ Reached root m0 base (i + 1) ∨
      ∃ m', loadRound palloc root base (phdrTable m0 base) 0 i m = some m' ∧
        Passed palloc root base size m0 (i + 1) m' := by
  have hpt : (phdr m (phdrTable m0 base) i).pType = (segment m0 base i).pType :=
    h.file.pType_eq hround.type
  unfold loadRound
  dsimp only
  by_cases hload : (segment m0 base i).pType = ptLoad
  swap
  · rw [if_pos (hpt ▸ hload)]
    exact .inr ⟨m, rfl, h.skip fun hl => hload hl.2⟩
  have hfields := hround.fields hload
  have hlow := huser i ⟨hi, hload⟩ h.reached hfields
  have hph : phdr m (phdrTable m0 base) i = segment m0 base i :=
    h.file.phdrAt_eq hfields.1 hfields.2
  rw [if_neg (not_not.mpr (hpt.trans hload)), hph, segBase_eq (by omega)]
  exact h.loadSegment hp hapart ⟨hi, hload⟩ rfl hlow

theorem loopReads_inFile (hsize : 58 ≤ size) {fuel i : Nat}
    (hfuel : (ehdr m0 base).ePhnum ≤ i + fuel)
    (h : Passed palloc root base size m0 i m) :
    (∀ x ∈ loopReads palloc root base (phdrTable m0 base) 0 fuel i m, InFile base size x) ↔
      ∀ j, i ≤ j → j < (ehdr m0 base).ePhnum → Reached root m0 base j → RoundIn root m0 base size j := by
  induction fuel generalizing i m with
  | zero =>
    refine iff_of_true (by simp [loopReads]) ?_
    intro j hij hj
    omega
  | succ fuel ih =>
    rw [loopReads, h.file.ehdr_eq hsize, forall_mem_append,
      and_iff_right (field_header hsize (by decide))]
    rcases le_or_gt (ehdr m0 base).ePhnum i with hend | hi
    · rw [if_pos hend]
      refine iff_of_true (by simp) ?_
      intro j hij hj
      omega
    have hsplit : (∀ j, i ≤ j → j < (ehdr m0 base).ePhnum → Reached root m0 base j →
        RoundIn root m0 base size j) ↔ RoundIn root m0 base size i ∧
          ∀ j, i + 1 ≤ j → j < (ehdr m0 base).ePhnum → Reached root m0 base j →
            RoundIn root m0 base size j := by
      constructor
      · exact fun hall => ⟨hall i (le_refl i) hi h.reached, fun j hj => hall j (Nat.le_of_succ_le hj)⟩
      · rintro ⟨hround, hall⟩ j hij
        rcases Nat.eq_or_lt_of_le hij with rfl | hlt
        · exact fun _ _ => hround
        · exact hall j hlt
    rw [if_neg (not_le.mpr hi), forall_mem_append, roundReads_inFile hp hapart huser hsize hi h, hsplit]
    apply and_congr_right
    intro hround
    rcases round_cases hp hapart huser hi h hround with ⟨hnone, hout⟩ | ⟨m', hsome, hnext⟩
    · rw [hnone]
      refine iff_of_true (by simp) ?_
      intro j hij _ hreached
      exact absurd (hreached.mono hij) hout
    · rw [hsome]
      exact ih (by omega) hnext

theorem loadLoop_passed (hsize : 58 ≤ size) {fuel i : Nat}
    (hfuel : (ehdr m0 base).ePhnum ≤ i + fuel)
    (h : Passed palloc root base size m0 i m)
    (hin : ∀ j < (ehdr m0 base).ePhnum, Reached root m0 base j → RoundIn root m0 base size j) :
    loadLoop palloc root base (phdrTable m0 base) 0 fuel i m = none ∧
        ¬ Reached root m0 base (ehdr m0 base).ePhnum ∨
      ∃ m', loadLoop palloc root base (phdrTable m0 base) 0 fuel i m = some m' ∧
        SameFile base size m0 m' ∧ Reached root m0 base (ehdr m0 base).ePhnum := by
  have hloop : loadLoop palloc root base (phdrTable m0 base) 0 fuel i m = none ∧
        ¬ Reached root m0 base (ehdr m0 base).ePhnum ∨
      ∃ m' n, (ehdr m0 base).ePhnum ≤ n ∧ Passed palloc root base size m0 n m' ∧
        loadLoop palloc root base (phdrTable m0 base) 0 fuel i m = some m' := by
    apply loadLoop_rule (fun i m h => by rw [h.file.ehdr_eq hsize]) _ hfuel h
    intro i m hi h
    refine (round_cases hp hapart huser hi h (hin i hi h.reached)).imp_left ?_
    rintro ⟨hnone, hout⟩
    exact ⟨hnone, fun hreached => hout (hreached.mono hi)⟩
  refine hloop.imp_right ?_
  rintro ⟨m', n, hn, hpassed, hsome⟩
  exact ⟨m', hsome, hpassed.file, hpassed.reached.mono hn⟩

omit hp hapart huser

theorem endReads_inFile (hsize : 58 ≤ size)
    (hfile : SameFile base size m0 m) (hreached : Reached root m0 base (ehdr m0 base).ePhnum)
    (hin : ∀ j < (ehdr m0 base).ePhnum, Reached root m0 base j → RoundIn root m0 base size j) :
    (∀ x ∈ endReads root base (phdrTable m0 base) 0 m, InFile base size x) ↔
      ((ehdr m0 base).eType = etDyn → ∀ i, ((List.range (ehdr m0 base).ePhnum).find?
        fun i => (segment m0 base i).pType = ptDynamic) = some i →
        FieldIn base size (headerAt (phdrTable m0 base) i + 16) 8) := by
  have hentry : ∀ x ∈ field (base + 16) 2 ++ field (base + 24) 8, InFile base size x :=
    forall_mem_append.mpr ⟨field_header hsize (by decide), field_header hsize (by decide)⟩
  unfold endReads
  rw [hfile.ehdr_eq hsize, forall_mem_append,
    and_iff_right (field_header hsize (by decide))]
  split_ifs with hdyn
  · have htypes : ∀ i < (ehdr m0 base).ePhnum, FieldIn base size (headerAt (phdrTable m0 base) i) 4 :=
      fun i hi => (hin i hi (hreached.mono (Nat.le_of_lt hi))).type
    rw [forall_mem_append, forall_mem_append,
      and_iff_right (field_header hsize (by decide)), relocationReads_inFile hfile htypes]
    constructor
    · exact fun h _ => h.1
    · intro h
      refine ⟨h hdyn, ?_⟩
      split
      · simp
      · exact hentry
  · exact iff_of_true hentry fun h => absurd h hdyn

theorem size_of_loopReads {table loadBase fuel i : Nat}
    (h : ∀ x ∈ loopReads palloc root base table loadBase (fuel + 1) i m, InFile base size x) :
    58 ≤ size := by
  rw [loopReads, forall_mem_append, field_inFile (by decide)] at h
  have hend := h.1.2
  omega

end Loop

/-! ## The result -/

/-- The reads stay in the file just when its headers keep them there. The segments are in the lower
half: elsewhere the loop would take the kernel's own pages away. -/
theorem imageReads_inFile_iff {palloc : Palloc} {root base size : Nat}
    (hp : Spares palloc root base size)
    (hapart : base + size ≤ homeFrame ∨ homeFrame + 0x1000 ≤ base) {m : Mem}
    (h : Sheltered palloc root base size m)
    (huser : ∀ i, IsLoad m base i → Reached root m base i →
      FieldIn base size (headerAt (phdrTable m base) i) 48 →
        (segment m base i).pVaddr + (segment m base i).pMemsz ≤ 2 ^ 47) :
    (∀ x ∈ imageReads palloc root m base, InFile base size x) ↔ Contained root m base size := by
  have hident : (∀ x ∈ identReads m base magic, InFile base size x) ↔
      ∀ i < 4, Holds m base (magic.take i) → i < size := by
    rw [identReads_inFile]
    simp only [InFile, Nat.le_add_right, true_and, Nat.add_lt_add_iff_left]
    rfl
  unfold imageReads
  rw [forall_mem_append, hident]
  by_cases hmagic : (ehdr m base).eIdent = magic
  swap
  · rw [if_pos hmagic]
    constructor
    · rintro ⟨hi, -⟩
      exact ⟨hi, fun hx => absurd hx hmagic, fun hx => absurd hx hmagic, fun hx => absurd hx hmagic⟩
    · exact fun hc => ⟨hc.ident, by simp⟩
  rw [if_neg (not_not.mpr hmagic)]
  dsimp only
  rw [forall_mem_append, forall_mem_append]
  by_cases hsize : 58 ≤ size
  swap
  · exact iff_of_false (fun hx => hsize (size_of_loopReads hx.2.2.1)) fun hc => hsize (hc.header hmagic)
  have hstart : Passed palloc root base size m 0 m :=
    ⟨h, fun _ _ _ => rfl, fun _ hj => absurd hj (Nat.not_lt_zero _), fun va _ => by simp [Standing]⟩
  have hfuel : (ehdr m base).ePhnum ≤ 0 + 0x10000 := by
    rw [Nat.zero_add]
    exact Nat.le_of_lt (load_lt m 2 (base + 56))
  rw [and_iff_right (field_header hsize (by decide)), ← phdrTable,
    loopReads_inFile hp hapart huser hsize hfuel hstart]
  by_cases hrounds : ∀ j < (ehdr m base).ePhnum, Reached root m base j → RoundIn root m base size j
  swap
  · exact iff_of_false (fun hx => hrounds fun j => hx.2.1 j (Nat.zero_le j))
      fun hc => hrounds (hc.rounds hmagic)
  have hall : ∀ i < 4, Holds m base (magic.take i) → i < size := fun i hi _ => by omega
  rw [and_iff_right hall, and_iff_right fun j _ => hrounds j]
  rcases loadLoop_passed hp hapart huser hsize hfuel hstart hrounds with
    ⟨hnone, hstops⟩ | ⟨m', hsome, hfile, hreached⟩
  · rw [hnone]
    exact iff_of_true (by simp) ⟨hall, fun _ => hsize, fun _ => hrounds,
      fun _ _ hreached => absurd hreached hstops⟩
  · rw [hsome, endReads_inFile hsize hfile hreached hrounds]
    constructor
    · exact fun hd => ⟨hall, fun _ => hsize, fun _ => hrounds, fun _ hdyn _ => hd hdyn⟩
    · exact fun hc hdyn => hc.dynamic hmagic hdyn hreached

theorem withProgram_sheltered {palloc : Palloc} (size : Nat) :
    Sheltered palloc (paToVa 0x1000) programBase size (withProgram 0) := by
  refine ⟨withProgram_steady 0 size, fun va _ x hx => ?_⟩
  have hnone : translate (paToVa 0x1000) (withProgram 0) va = none := by
    rw [SameBy.translate_eq (fun y hy => withProgram_sameBy 0 y hy.of_plain) va]
    rw [Vmm.translate, slot, pathTo, cons_append, walkBy, absent_empty]
    rfl
  rw [place, hnone, Option.bind_eq_bind, Option.bind_none, ite_self] at hx
  exact absurd hx (by simp)

theorem withProgram_low (hi : IsLoad (withProgram 0) programBase i) :
    (segment (withProgram 0) programBase i).pVaddr +
      (segment (withProgram 0) programBase i).pMemsz ≤ 2 ^ 47 := by
  obtain rfl := (withProgram_isLoad (by decide)).mp hi
  rw [segment_withProgram 0 (by decide)]
  decide

theorem imageReads_inFile_program : ∃ palloc, Spares palloc (paToVa 0x1000) programBase 122 ∧
    ∀ x ∈ imageReads palloc (paToVa 0x1000) (withProgram 0) programBase, InFile programBase 122 x := by
  obtain ⟨palloc, hp⟩ := exists_spares (le_refl 122)
  refine ⟨palloc, hp, (imageReads_inFile_iff hp (Or.inl (by decide))
    (withProgram_sheltered 122) fun i hi _ _ => withProgram_low hi).mpr ?_⟩
  have hehdr := ehdr_withProgram 0 (by decide)
  refine ⟨fun i hi _ => by omega, fun _ => by decide, ?_, ?_⟩
  · rintro - i hi -
    rw [hehdr, Nat.lt_one_iff] at hi
    subst hi
    refine ⟨by decide, fun _ => by decide, ?_⟩
    rintro - k hk -
    rw [segment_withProgram 0 (by decide)] at hk ⊢
    have hbytes : ∀ k < 2, InFile programBase 122 ((programBase + 0x78 + k) % word) := by decide
    exact hbytes k hk
  · intro _ hdyn
    rw [hehdr] at hdyn
    exact absurd hdyn (by decide)

/-- The first 64 bytes of it alone. The program header is read from behind the file. -/
theorem imageReads_outside : ∃ palloc, Spares palloc (paToVa 0x1000) programBase 64 ∧
    Sheltered palloc (paToVa 0x1000) programBase 64 (withProgram 0) ∧
    (∀ i, IsLoad (withProgram 0) programBase i → (segment (withProgram 0) programBase i).pVaddr +
      (segment (withProgram 0) programBase i).pMemsz ≤ 2 ^ 47) ∧
    ∃ x ∈ imageReads palloc (paToVa 0x1000) (withProgram 0) programBase,
      ¬ InFile programBase 64 x := by
  obtain ⟨palloc, hp⟩ := exists_spares (show 64 ≤ 122 by decide)
  refine ⟨palloc, hp, withProgram_sheltered 64, fun i => withProgram_low, programBase + 64, ?_, by decide⟩
  have hehdr := ehdr_withProgram 0 (by decide)
  have hmagic : (ehdr (withProgram 0) programBase).eIdent = magic := by rw [hehdr]
  have hphnum : ¬ (ehdr (withProgram 0) programBase).ePhnum ≤ 0 := by
    rw [hehdr]
    decide
  have htype : programBase + 64 ∈ field (headerAt (phdrTable (withProgram 0) programBase) 0) 4 := by
    decide
  unfold imageReads
  rw [if_neg (not_not.mpr hmagic)]
  apply mem_append_right
  apply mem_append_right
  apply mem_append_left
  rw [loopReads, if_neg hphnum]
  apply mem_append_right
  apply mem_append_left
  exact mem_append_left _ htype

end Terrakernel.Elf
