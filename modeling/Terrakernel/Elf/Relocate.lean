import Terrakernel.Elf.Run

/-!
# Relocations

The entries are taken 24 bytes apart and counted with the size in the file, which may be 0.
-/

namespace Terrakernel.Elf

open Memory Mem Vmm Function Option
open List hiding Mem

variable {r : Nat → Prop} {va k n : Nat} {phys : Nat → Nat} {m : Mem}

/-! ## Memory that can be reached -/

/-- The virtual addresses in `r` can be read and written. They are different bytes, at `phys`, and
none of them is in a table. -/
structure Window (root : Nat) (m : Mem) (r : Nat → Prop) (phys : Nat → Nat) : Prop where
  place : ∀ va, r va → place root m va true = some (phys va)
  inj : ∀ a b, r a → r b → phys a = phys b → a = b
  data : ∀ va, r va → ¬ InTable plain root m (phys va)

def Reach (r : Nat → Prop) (va n : Nat) : Prop := ∀ i < n, r ((va + i) % word)

/-- The eight bytes at `va`. -/
def peek (phys : Nat → Nat) (m : Mem) (va : Nat) : Nat :=
  (List.range 8).foldr (fun i v => v * 256 + (m (phys ((va + i) % word))).toNat) 0

def poke (phys : Nat → Nat) (m : Mem) (va v : Nat) : Mem :=
  (List.range 8).foldl (fun m i =>
    update m (phys ((va + i) % word)) (BitVec.ofNat 8 (v / 256 ^ i))) m

theorem add_wrap (a b : Nat) : (a % word + b) % word = (a + b) % word := by
  simp only [word]
  omega

theorem Reach.part (h : Reach r va n) {o w : Nat} (how : o + w ≤ n) :
    Reach r ((va + o) % word) w := by
  intro i hi
  rw [add_wrap, Nat.add_assoc]
  exact h (o + i) (by omega)

theorem Reach.wrap (h : Reach r va n) : Reach r (va % word) n := by
  intro i hi
  rw [add_wrap]
  exact h i hi

theorem peek_congr {m' : Mem}
    (h : ∀ i < 8, m' (phys ((va + i) % word)) = m (phys ((va + i) % word))) :
    peek phys m' va = peek phys m va := by
  unfold peek
  apply foldr_ext
  intro i hi v
  rw [h i (mem_range.mp hi)]

theorem peek_wrap (phys : Nat → Nat) (m : Mem) (va : Nat) :
    peek phys m (va % word) = peek phys m va := by
  simp only [peek, add_wrap]

theorem poke_outside {v x : Nat} (h : ∀ i < 8, x ≠ phys ((va + i) % word)) :
    poke phys m va v x = m x := by
  have hall : ∀ l : List Nat, (∀ i ∈ l, i < 8) → ∀ m : Mem, l.foldl (fun m i =>
      update m (phys ((va + i) % word)) (BitVec.ofNat 8 (v / 256 ^ i))) m x = m x := by
    intro l
    induction l with
    | nil => exact fun _ _ => rfl
    | cons i l ih =>
      intro hl m
      obtain ⟨hi, hl⟩ := forall_mem_cons.mp hl
      rw [foldl_cons, ih hl, update_of_ne (h i hi)]
  exact hall _ (fun i hi => mem_range.mp hi) m

section Window

variable {root : Nat} {m : Mem} {r : Nat → Prop} {phys : Nat → Nat} (h : Window root m r phys)

include h

theorem Window.store {va : Nat} (hva : r va) (v : Byte) :
    Window root (update m (phys va) v) r phys := by
  have hby : SameBy plain root m (update m (phys va) v) := by
    intro x hx
    rw [update_of_ne]
    rintro rfl
    exact h.data va hva hx
  refine ⟨?_, h.inj, fun a ha hin => h.data a ha (hby.inTable hin)⟩
  intro a ha
  rw [← h.place a ha]
  unfold Elf.place
  rw [hby.translate_eq]

theorem Window.read (hva : r va) : Elf.place root m va false = some (phys va) := by
  have hw := h.place va hva
  unfold Elf.place at hw ⊢
  split_ifs at hw ⊢
  cases ht : translate root m va with
  | none =>
    rw [ht] at hw
    exact absurd hw (by simp)
  | some t =>
    rw [ht] at hw
    simp only [bind_eq_bind, bind_some, Bool.true_and, Bool.false_and] at hw ⊢
    split_ifs at hw
    exact hw

theorem read64_eq (hva : Reach r va 8) : read64 root m va = some (peek phys m va) := by
  have hall : ∀ l : List Nat, (∀ i ∈ l, i < 8) → l.foldrM (fun i v => do
      let x ← Elf.place root m ((va + i) % word) false
      some (v * 256 + (m x).toNat)) 0 =
      some (l.foldr (fun i v => v * 256 + (m (phys ((va + i) % word))).toNat) 0) := by
    intro l
    induction l with
    | nil => exact fun _ => rfl
    | cons i l ih =>
      intro hl
      obtain ⟨hi, hl⟩ := forall_mem_cons.mp hl
      rw [foldrM_cons, ih hl, h.read (hva i hi)]
      rfl
  exact hall _ fun i hi => mem_range.mp hi

theorem write64_eq (hva : Reach r va 8) (v : Nat) :
    write64 root m va v = some (poke phys m va v) ∧ Window root (poke phys m va v) r phys := by
  have hall : ∀ l : List Nat, (∀ i ∈ l, i < 8) → ∀ m, Window root m r phys →
      ∃ m', l.foldlM (fun m i => do
        let x ← Elf.place root m ((va + i) % word) true
        some (update m x (BitVec.ofNat 8 (v / 256 ^ i)))) m = some m' ∧
      l.foldl (fun m i =>
        update m (phys ((va + i) % word)) (BitVec.ofNat 8 (v / 256 ^ i))) m = m' ∧
      Window root m' r phys := by
    intro l
    induction l with
    | nil => exact fun _ m hm => ⟨m, rfl, rfl, hm⟩
    | cons i l ih =>
      intro hl m hm
      obtain ⟨hi, hl⟩ := forall_mem_cons.mp hl
      rw [foldlM_cons, hm.place _ (hva i hi)]
      exact ih hl _ (hm.store (hva i hi) _)
  obtain ⟨m', hsome, hpoke, hw⟩ := hall _ (fun i hi => mem_range.mp hi) m h
  have hpoke' : poke phys m va v = m' := hpoke
  rw [hpoke']
  exact ⟨hsome, hw⟩

end Window

/-! ## The dynamic section -/

/-- The last value that the section has for a tag. -/
def lastValue (tag : Nat) : List (Nat × Nat) → Option Nat
  | [] => none
  | (t, v) :: rest => (lastValue tag rest).or (if t = tag then some v else none)

/-- What the section says about the table, in whatever order. -/
def dynamicOf (loadBase : Nat) (entries : List (Nat × Nat)) : Dynamic where
  rela := ((lastValue dtRela entries).map fun v => (loadBase + v) % word).getD 0
  relaSize := (lastValue dtRelasz entries).getD 0
  relaEnt := (lastValue dtRelaent entries).getD 24

/-- The entries stand at `d`, with `DT_NULL` behind them. -/
def DynAt (phys : Nat → Nat) (m : Mem) (r : Nat → Prop) : Nat → List (Nat × Nat) → Prop
  | d, [] => Reach r d 8 ∧ peek phys m d = dtNull
  | d, (tag, val) :: rest => Reach r d 16 ∧ tag ≠ dtNull ∧ peek phys m d = tag ∧
      peek phys m ((d + 8) % word) = val ∧ DynAt phys m r ((d + 16) % word) rest

section Dynamic

variable {root : Nat} {m : Mem} {r : Nat → Prop} {phys : Nat → Nat} {entries : List (Nat × Nat)}

theorem DynAt.tags {d : Nat} (h : DynAt phys m r d entries) :
    (∀ k < entries.length, peek phys m (d + 16 * k) ≠ dtNull) ∧
      peek phys m (d + 16 * entries.length) = dtNull := by
  induction entries generalizing d with
  | nil => exact ⟨fun k hk => absurd hk (Nat.not_lt_zero k), h.2⟩
  | cons e rest ih =>
    obtain ⟨-, hne, htag, -, hrest⟩ := h
    have hnext : ∀ k, peek phys m ((d + 16) % word + 16 * k) = peek phys m (d + 16 * (k + 1)) := by
      intro k
      rw [← peek_wrap, add_wrap, peek_wrap, Nat.mul_succ, Nat.add_assoc, Nat.add_comm 16]
    obtain ⟨htags, hnull⟩ := ih hrest
    refine ⟨?_, ?_⟩
    · intro k hk
      cases k with
      | zero => exact fun h0 => hne (htag.symm.trans h0)
      | succ k =>
        rw [← hnext]
        exact htags k (Nat.lt_of_succ_lt_succ hk)
    · rw [length_cons, ← hnext]
      exact hnull

theorem DynAt.length_lt {d : Nat} (h : DynAt phys m r d entries) : entries.length < 2 ^ 60 := by
  obtain ⟨htags, hnull⟩ := h.tags
  by_contra hlong
  have hround : (d + 16 * (entries.length - 2 ^ 60)) % word = (d + 16 * entries.length) % word := by
    simp only [word]
    omega
  apply htags (entries.length - 2 ^ 60) (by omega)
  rw [← peek_wrap, hround, peek_wrap]
  exact hnull

theorem dynLoop_eq (hw : Window root m r phys) {d : Nat} (h : DynAt phys m r d entries)
    {fuel : Nat} (hfuel : entries.length < fuel) (loadBase : Nat) (dyn : Dynamic) :
    dynLoop root m loadBase fuel d dyn = some {
      rela := ((lastValue dtRela entries).map fun v => (loadBase + v) % word).getD dyn.rela
      relaSize := (lastValue dtRelasz entries).getD dyn.relaSize
      relaEnt := (lastValue dtRelaent entries).getD dyn.relaEnt } := by
  induction entries generalizing d fuel dyn with
  | nil =>
    obtain _ | fuel := fuel
    · omega
    rw [dynLoop, read64_eq hw h.1, h.2]
    rfl
  | cons e rest ih =>
    obtain _ | fuel := fuel
    · omega
    obtain ⟨tag, val⟩ := e
    obtain ⟨hreach, hne, htag, hval, hrest⟩ := h
    have hnext : ∀ dyn, _ := fun dyn => ih hrest (Nat.lt_of_succ_lt_succ hfuel) dyn
    have hread : read64 root m ((d + 8) % word) = some val := by
      rw [read64_eq hw (hreach.part (by decide)), hval]
    have htag' : read64 root m d = some tag := by
      rw [read64_eq hw fun i hi => hreach i (by omega), htag]
    rw [dynLoop, htag']
    simp only [bind_eq_bind, bind_some, if_neg hne, hread, map_some, lastValue,
      map_or, getD_or]
    by_cases h7 : tag = dtRela
    · subst h7
      simp [hnext]
    by_cases h8 : tag = dtRelasz
    · subst h8
      simp [hnext]
    by_cases h9 : tag = dtRelaent
    · subst h9
      simp [hnext]
    · simp [h7, h8, h9, hnext]

end Dynamic

/-! ## The table -/

/-- The fields of `Elf64_Rela`. -/
structure Rela where
  rOffset : Nat
  rInfo : Nat
  rAddend : Nat
  deriving DecidableEq, Repr

def relaAt (phys : Nat → Nat) (m : Mem) (a : Nat) : Rela :=
  ⟨peek phys m a, peek phys m (a + 8), peek phys m (a + 16)⟩

def Rela.Relative (e : Rela) : Prop := e.rInfo % 2 ^ 32 = rX8664Relative

instance (e : Rela) : Decidable e.Relative :=
  inferInstanceAs (Decidable (e.rInfo % 2 ^ 32 = rX8664Relative))

/-- A store, and the address of the entry that it is made for. -/
structure Relocation where
  entry : Nat
  slot : Nat
  value : Nat
  deriving DecidableEq, Repr

def relocation (phys : Nat → Nat) (m : Mem) (loadBase a : Nat) : Option Relocation :=
  let e := relaAt phys m a
  if e.Relative then some ⟨a % word, (loadBase + e.rOffset) % word, (loadBase + e.rAddend) % word⟩
  else none

/-- What a table with its entries `stride` bytes apart asks for. -/
def relocations (phys : Nat → Nat) (m : Mem) (loadBase rela stride count : Nat) : List Relocation :=
  (List.range count).filterMap fun k => relocation phys m loadBase (rela + stride * k)

def perform (phys : Nat → Nat) (m : Mem) (s : Relocation) : Mem := poke phys m s.slot s.value

/-- The stores of `relaLoop`. -/
def relaStores (root loadBase rela : Nat) : Nat → Nat → Mem → List Relocation
  | 0, _, _ => []
  | left + 1, i, m =>
    let r := (rela + 24 * i) % word
    match read64 root m r, read64 root m ((r + 8) % word), read64 root m ((r + 16) % word) with
    | some offset, some info, some addend =>
      if info % 2 ^ 32 = rX8664Relative then
        ⟨r, (loadBase + offset) % word, (loadBase + addend) % word⟩ ::
          match write64 root m ((loadBase + offset) % word) ((loadBase + addend) % word) with
          | none => []
          | some m => relaStores root loadBase rela left (i + 1) m
      else relaStores root loadBase rela left (i + 1) m
    | _, _, _ => []

/-- The code can reach what it reads of a table and what it relocates, and the two do not overlap. -/
structure Reachable (r : Nat → Prop) (phys : Nat → Nat) (m : Mem) (loadBase rela count : Nat) :
    Prop where
  entries : ∀ k < count, Reach r (rela + 24 * k) 24
  slots : ∀ k < count, (relaAt phys m (rela + 24 * k)).Relative →
    Reach r (loadBase + (relaAt phys m (rela + 24 * k)).rOffset) 8
  apart : ∀ k < count, (relaAt phys m (rela + 24 * k)).Relative → ∀ l < count, ∀ i < 8, ∀ j < 24,
    (loadBase + (relaAt phys m (rela + 24 * k)).rOffset + i) % word ≠ (rela + 24 * l + j) % word

section Table

variable {root : Nat} {m acc : Mem} {r : Nat → Prop} {phys : Nat → Nat} {loadBase rela count : Nat}

theorem relaAt_poke (hw : Window root acc r phys) (ht : Reachable r phys m loadBase rela count)
    {l : Nat} (hk : k < count) (hl : l < count) (hrel : (relaAt phys m (rela + 24 * k)).Relative)
    (v : Nat) :
    relaAt phys (poke phys acc ((loadBase + (relaAt phys m (rela + 24 * k)).rOffset) % word) v)
      (rela + 24 * l) = relaAt phys acc (rela + 24 * l) := by
  have hpeek : ∀ o, o + 8 ≤ 24 → peek phys (poke phys acc
      ((loadBase + (relaAt phys m (rela + 24 * k)).rOffset) % word) v) (rela + 24 * l + o) =
      peek phys acc (rela + 24 * l + o) := by
    intro o ho
    apply peek_congr
    intro j hj
    rw [Nat.add_assoc _ o j]
    apply poke_outside
    intro i hi heq
    rw [add_wrap] at heq
    exact ht.apart k hk hrel l hl i hi (o + j) (by omega)
      (hw.inj _ _ (ht.entries l hl (o + j) (by omega)) (ht.slots k hk hrel i hi) heq).symm
  have h0 := hpeek 0 (by decide)
  rw [Nat.add_zero] at h0
  unfold relaAt at h0 hpeek ⊢
  rw [h0, hpeek 8 (by decide), hpeek 16 (by decide)]

theorem relaLoop_eq (ht : Reachable r phys m loadBase rela count) {left i : Nat}
    (hleft : i + left ≤ count) (hw : Window root acc r phys)
    (hsame : ∀ k < count, relaAt phys acc (rela + 24 * k) = relaAt phys m (rela + 24 * k)) :
    let asked := (range' i left).filterMap fun k => relocation phys m loadBase (rela + 24 * k)
    relaLoop root loadBase rela left i acc = some (asked.foldl (perform phys) acc) ∧
      relaStores root loadBase rela left i acc = asked := by
  induction left generalizing i acc with
  | zero => exact ⟨rfl, rfl⟩
  | succ left ih =>
    have hi : i < count := by omega
    have hread : ∀ o, o + 8 ≤ 24 → read64 root acc ((rela + 24 * i + o) % word) =
        some (peek phys acc (rela + 24 * i + o)) := by
      intro o ho
      rw [read64_eq hw ((ht.entries i hi).part ho), peek_wrap]
    have h0 := hread 0 (by decide)
    rw [Nat.add_zero] at h0
    have hrela : relaAt phys m (rela + 24 * i) = ⟨peek phys acc (rela + 24 * i),
      peek phys acc (rela + 24 * i + 8), peek phys acc (rela + 24 * i + 16)⟩ := (hsame i hi).symm
    simp only [relaLoop, relaStores, range'_succ, filterMap_cons, add_wrap, h0,
      hread 8 (by decide), hread 16 (by decide), bind_eq_bind, bind_some]
    by_cases hrel : (relaAt phys m (rela + 24 * i)).Relative
    · have hslot := ht.slots i hi hrel
      obtain ⟨hwrite, hnext⟩ := write64_eq hw hslot.wrap
        ((loadBase + (relaAt phys m (rela + 24 * i)).rAddend) % word)
      obtain ⟨hloop, hstores⟩ := ih (show i + 1 + left ≤ count by omega) hnext fun k hk => by
        rw [relaAt_poke hw ht hi hk hrel, hsame k hk]
      rw [relocation, if_pos hrel]
      rw [hrela] at hrel hwrite hloop hstores ⊢
      have hinfo : peek phys acc (rela + 24 * i + 8) % 2 ^ 32 = rX8664Relative := hrel
      simp only [if_pos hinfo, hwrite, bind_some, foldl_cons]
      exact ⟨hloop, by rw [hstores]⟩
    · have hinfo : ¬ peek phys acc (rela + 24 * i + 8) % 2 ^ 32 = rX8664Relative := by
        rw [hrela] at hrel
        exact hrel
      rw [relocation, if_neg hrel, if_neg hinfo, if_neg hinfo]
      exact ih (by omega) hw hsame

end Table

/-! ## The result -/

/-- Where the section is, for a program that has one. -/
def dynamicAt (m : Mem) (loadBase table phnum : Nat) : Option Nat :=
  ((List.range phnum).find? fun i => (phdr m table i).pType = ptDynamic).bind fun i =>
    let dyn := (loadBase + (phdr m table i).pVaddr) % word
    if dyn = 0 then none else some dyn

/-- What the headers and the section ask for. The entries are as far apart as the section says, and a
null pointer is no table. -/
def asked (phys : Nat → Nat) (m : Mem) (loadBase table phnum : Nat) (entries : List (Nat × Nat)) :
    List Relocation :=
  let dyn := dynamicOf loadBase entries
  if dynamicAt m loadBase table phnum = none ∨ dyn.rela = 0 ∨ dyn.relaSize = 0 then []
  else relocations phys m loadBase dyn.rela dyn.relaEnt (dyn.relaSize / dyn.relaEnt)

/-- The stores of `applyRelocations`. -/
def relocationStores (root : Nat) (m : Mem) (loadBase table phnum : Nat) : List Relocation :=
  match (List.range phnum).find? fun i => (phdr m table i).pType = ptDynamic with
  | none => []
  | some i =>
    let dyn := (loadBase + (phdr m table i).pVaddr) % word
    if dyn = 0 then []
    else
      ((dynLoop root m loadBase (2 ^ 60) dyn ⟨0, 0, 24⟩).map fun dyn =>
        if dyn.rela = 0 ∨ dyn.relaSize = 0 ∨ dyn.relaEnt = 0 then []
        else relaStores root loadBase dyn.rela (dyn.relaSize / dyn.relaEnt) 0 m).getD []

/-- The code returns, and has made just the stores that were asked for. -/
structure AsAsked (root : Nat) (phys : Nat → Nat) (m : Mem) (loadBase table phnum : Nat)
    (entries : List (Nat × Nat)) : Prop where
  memory : applyRelocations root m loadBase table phnum =
    some ((relocationStores root m loadBase table phnum).foldl (perform phys) m)
  stores : ∀ s, s ∈ relocationStores root m loadBase table phnum ↔
    s ∈ asked phys m loadBase table phnum entries

/-- The addresses of the entries to relocate. -/
def relatives (phys : Nat → Nat) (m : Mem) (rela stride count : Nat) : List Nat :=
  ((List.range count).map fun k => (rela + stride * k) % word).filter fun a =>
    (relaAt phys m a).Relative

theorem relaAt_wrap (phys : Nat → Nat) (m : Mem) (a : Nat) :
    relaAt phys m (a % word) = relaAt phys m a := by
  unfold relaAt
  rw [peek_wrap, ← peek_wrap phys m (a % word + 8), ← peek_wrap phys m (a % word + 16), add_wrap,
    add_wrap, peek_wrap, peek_wrap]

theorem mem_relocations {loadBase rela stride count : Nat} {s : Relocation} :
    s ∈ relocations phys m loadBase rela stride count ↔
      s.entry ∈ relatives phys m rela stride count ∧
        relocation phys m loadBase s.entry = some s := by
  unfold relocations relatives relocation
  simp only [mem_filterMap, mem_filter, List.mem_map, decide_eq_true_eq]
  constructor
  · rintro ⟨k, hk, hs⟩
    split_ifs at hs with hrel
    obtain rfl := some.inj hs
    simp only [relaAt_wrap, if_pos hrel, Nat.mod_mod]
    exact ⟨⟨⟨k, hk, rfl⟩, hrel⟩, trivial⟩
  · rintro ⟨⟨⟨k, hk, he⟩, hrel⟩, hs⟩
    refine ⟨k, hk, ?_⟩
    rw [← he, relaAt_wrap, Nat.mod_mod] at hs
    exact hs

theorem relocations_iff {loadBase rela stride stride' count : Nat} :
    (∀ s, s ∈ relocations phys m loadBase rela stride count ↔
        s ∈ relocations phys m loadBase rela stride' count) ↔
      ∀ a, a ∈ relatives phys m rela stride count ↔ a ∈ relatives phys m rela stride' count := by
  constructor
  · intro h a
    have hmem : ∀ {d}, a ∈ relatives phys m rela d count →
        ∃ s : Relocation, s.entry = a ∧ relocation phys m loadBase a = some s := by
      intro d ha
      obtain ⟨ha, hrel⟩ := mem_filter.mp ha
      obtain ⟨k, -, rfl⟩ := List.mem_map.mp ha
      exact ⟨_, Nat.mod_mod _ _, if_pos (of_decide_eq_true hrel)⟩
    constructor
    · intro ha
      obtain ⟨s, rfl, hs⟩ := hmem ha
      exact (mem_relocations.mp ((h s).mp (mem_relocations.mpr ⟨ha, hs⟩))).1
    · intro ha
      obtain ⟨s, rfl, hs⟩ := hmem ha
      exact (mem_relocations.mp ((h s).mpr (mem_relocations.mpr ⟨ha, hs⟩))).1
  · intro h s
    rw [mem_relocations, mem_relocations, h]

section Result

variable {root : Nat} {m : Mem} {r : Nat → Prop} {phys : Nat → Nat} {loadBase table phnum : Nat}
  {entries : List (Nat × Nat)} (hw : Window root m r phys)
  (hdyn : ∀ d, dynamicAt m loadBase table phnum = some d → DynAt phys m r d entries)
  (ht : (dynamicOf loadBase entries).rela ≠ 0 →
    Reachable r phys m loadBase (dynamicOf loadBase entries).rela
      ((dynamicOf loadBase entries).relaSize / (dynamicOf loadBase entries).relaEnt))

/-- The stores that are made, where the machine does not stop. -/
def outcome (phys : Nat → Nat) (m : Mem) (loadBase table phnum : Nat) (entries : List (Nat × Nat)) :
    Option (List Relocation) :=
  let dyn := dynamicOf loadBase entries
  if dynamicAt m loadBase table phnum = none ∨ dyn.rela = 0 ∨ dyn.relaSize = 0 then some []
  else if dyn.relaEnt = 0 then none
  else some (relocations phys m loadBase dyn.rela 24 (dyn.relaSize / dyn.relaEnt))

include hw hdyn ht

theorem applyRelocations_eq :
    applyRelocations root m loadBase table phnum =
        (outcome phys m loadBase table phnum entries).map (·.foldl (perform phys) m) ∧
      relocationStores root m loadBase table phnum =
        (outcome phys m loadBase table phnum entries).getD [] := by
  unfold applyRelocations relocationStores outcome
  unfold dynamicAt at hdyn ⊢
  cases hi : (List.range phnum).find? fun i => (phdr m table i).pType = ptDynamic with
  | none => exact ⟨rfl, rfl⟩
  | some i =>
    rw [hi] at hdyn
    simp only [bind_some] at hdyn ⊢
    by_cases hnull : (loadBase + (phdr m table i).pVaddr) % word = 0
    · simp [hnull]
    have hd := hdyn _ (if_neg hnull)
    have hloop : dynLoop root m loadBase (2 ^ 60) ((loadBase + (phdr m table i).pVaddr) % word)
        ⟨0, 0, 24⟩ = some (dynamicOf loadBase entries) := dynLoop_eq hw hd hd.length_lt loadBase _
    simp only [if_neg hnull, hloop, bind_eq_bind, bind_some, map_some,
      getD_some, reduceCtorEq, false_or]
    by_cases hnone : (dynamicOf loadBase entries).rela = 0 ∨ (dynamicOf loadBase entries).relaSize = 0
    · simp [hnone, or_assoc.mp (Or.inl hnone)]
    · by_cases hzero : (dynamicOf loadBase entries).relaEnt = 0
      · simp [hnone, hzero]
      · have hno : ¬ ((dynamicOf loadBase entries).rela = 0 ∨
            (dynamicOf loadBase entries).relaSize = 0 ∨ (dynamicOf loadBase entries).relaEnt = 0) :=
          fun h => (or_assoc.mpr h).elim hnone hzero
        have h := relaLoop_eq (ht fun h0 => hnone (Or.inl h0)) (Nat.le_of_eq (Nat.zero_add _)) hw
          fun _ _ => rfl
        rw [← range_eq_range'] at h
        rw [if_neg hnone, if_neg hzero, if_neg hnone, if_neg hzero, if_neg hno]
        exact h

/-- The stores are those that were asked for, and division by zero does not stop the machine, just
when there is no table or when the entries to relocate are the same ones 24 bytes apart. -/
theorem applyRelocations_asked_iff :
    AsAsked root phys m loadBase table phnum entries ↔
      let dyn := dynamicOf loadBase entries
      (dynamicAt m loadBase table phnum = none ∨ dyn.rela = 0 ∨ dyn.relaSize = 0) ∨
        dyn.relaEnt ≠ 0 ∧ ∀ a, a ∈ relatives phys m dyn.rela 24 (dyn.relaSize / dyn.relaEnt) ↔
          a ∈ relatives phys m dyn.rela dyn.relaEnt (dyn.relaSize / dyn.relaEnt) := by
  obtain ⟨hmemory, hstores⟩ := applyRelocations_eq hw hdyn ht
  unfold outcome at hmemory hstores
  dsimp only at hmemory hstores ⊢
  split_ifs at hmemory hstores with hnone hzero
  · refine iff_of_true ⟨?_, ?_⟩ (Or.inl hnone)
    · rw [hmemory, hstores]
      rfl
    · rw [hstores, asked, if_pos hnone]
      exact fun s => Iff.rfl
  · refine iff_of_false (fun h => absurd (hmemory.symm.trans h.memory) (by simp)) ?_
    rintro (hno | ⟨hne, -⟩)
    · exact hnone hno
    · exact hne hzero
  · have hiff : AsAsked root phys m loadBase table phnum entries ↔
        ∀ s, s ∈ relocationStores root m loadBase table phnum ↔
          s ∈ asked phys m loadBase table phnum entries :=
      ⟨AsAsked.stores, fun hs => ⟨by rw [hmemory, hstores]; rfl, hs⟩⟩
    rw [hiff, hstores, asked, if_neg hnone, getD_some, relocations_iff]
    exact ⟨fun ha => .inr ⟨hzero, ha⟩, fun ha => (ha.resolve_left hnone).2⟩

end Result

theorem relatives_stride {rela stride count : Nat} (h : stride = 24 ∨ count ≤ 1) :
    relatives phys m rela 24 count = relatives phys m rela stride count := by
  rcases h with rfl | hone
  · rfl
  · unfold relatives
    congr 1
    apply map_congr_left
    intro k hk
    obtain rfl : k = 0 := by
      have := mem_range.mp hk
      omega
    rfl

/-! ## A small table -/

/-- The addresses of the page at 0x400000. -/
def InHome (va : Nat) : Prop := 0x400000 ≤ va ∧ va < 0x401000

instance (va : Nat) : Decidable (InHome va) :=
  inferInstanceAs (Decidable (0x400000 ≤ va ∧ va < 0x401000))

theorem exists_home (page : Mem) :
    ∃ root m, Window root m InHome homeByte ∧ SameFile homeFrame 0x1000 page m := by
  obtain ⟨palloc, hp⟩ := exists_spares (Nat.zero_le 122)
  have hset := mmap_sets hp (withProgram_steady 0 0) (show 0x400000 < word by decide)
    (show 0x400000 < word by decide)
  obtain ⟨m1, hm1⟩ : ∃ m1, m1 = (mmap palloc (paToVa 0x1000) (withProgram 0) 0x400000 0x400000 1
    attributes).2 := ⟨_, rfl⟩
  rw [← hm1] at hset
  obtain ⟨m2, hm2⟩ : ∃ m2 : Mem, ∀ x,
      m2 x = if homeFrame ≤ x ∧ x < homeFrame + 0x1000 then page x else m1 x := ⟨_, fun _ => rfl⟩
  have hby : SameBy present (paToVa 0x1000) m1 m2 := by
    intro x hx
    rw [hm2, if_neg fun hin => hset.steady.tables x (Or.inr hin) hx]
  have hs := hset.steady.sameBy hby
  have hleaf := (hby.leafMap_eq homePage).trans (hset.leaf homePage (by decide))
  rw [show pageNumber 0x400000 = homePage from by decide, update_self,
    show leafEntry 0x400000 attributes = homeEntry from by decide] at hleaf
  have hpage : ∀ va, InHome va → va < 2 ^ 47 ∧ pageNumber va = homePage := by
    rintro va ⟨hlo, hhi⟩
    have hlow : va < 2 ^ 47 := by omega
    refine ⟨hlow, ?_⟩
    rw [pageNumber_low hlow, homePage]
    omega
  refine ⟨paToVa 0x1000, m2, ⟨?_, ?_, ?_⟩, fun x h1 h2 => (hm2 x).trans (if_pos ⟨h1, h2⟩)⟩
  · intro va hva
    exact hs.place_home hleaf (hpage va hva).1 (hpage va hva).2 true
  · intro a b ha hb
    exact homeByte_inj (hpage a ha).1 (hpage b hb).1 (hpage a ha).2 (hpage b hb).2
  · intro va _ hin
    exact hs.tables _ (Or.inr (homeByte_mem va)) hin.of_plain

/-- A header at offset 0x100, the dynamic section at 0x200, a table of 0x60 bytes at 0x300. The only
entry to relocate is 24 bytes from its start, for the eight bytes at offset 0x400. -/
def relocPage (ent : Byte) : Mem := fun x =>
  ([(0x100, 2), (0x111, 2), (0x112, 0x40), (0x200, 7), (0x209, 3), (0x20A, 0x40), (0x210, 8),
    (0x218, 0x60), (0x220, 9), (0x228, ent), (0x319, 4), (0x31A, 0x40), (0x320, 8), (0x328, 0x34),
    (0x329, 0x12)].lookup (x - homeFrame)).getD 0

def relocEntries (ent : Byte) : List (Nat × Nat) := [(7, 0x400300), (8, 0x60), (9, ent.toNat)]

abbrev relocTable : Nat := homeFrame + 0x100

theorem peek_relocPage : ∀ ent ∈ [(0 : Byte), 24, 48],
    peek homeByte (relocPage ent) 0x400200 = 7 ∧ peek homeByte (relocPage ent) 0x400208 = 0x400300 ∧
    peek homeByte (relocPage ent) 0x400210 = 8 ∧ peek homeByte (relocPage ent) 0x400218 = 0x60 ∧
    peek homeByte (relocPage ent) 0x400220 = 9 ∧
    peek homeByte (relocPage ent) 0x400228 = ent.toNat ∧
    peek homeByte (relocPage ent) 0x400230 = 0 := by
  decide +kernel

theorem phdr_relocPage : ∀ ent ∈ [(0 : Byte), 24, 48],
    (phdr (relocPage ent) relocTable 0).pType = ptDynamic ∧
      (phdr (relocPage ent) relocTable 0).pVaddr = 0x400200 := by
  decide +kernel

theorem relaAt_relocPage : ∀ ent ∈ [(0 : Byte), 24, 48], ∀ k < 4,
    relaAt homeByte (relocPage ent) (0x400300 + 24 * k) =
      if k = 1 then ⟨0x400400, 8, 0x1234⟩ else ⟨0, 0, 0⟩ := by
  decide +kernel

section Small

variable {ent : Byte} (hent : ent ∈ [(0 : Byte), 24, 48]) {m : Mem}
  (hm : SameFile homeFrame 0x1000 (relocPage ent) m)

include hm

theorem peek_home (va : Nat) : peek homeByte m va = peek homeByte (relocPage ent) va := by
  apply peek_congr
  intro i _
  exact hm _ (homeByte_mem _).1 (homeByte_mem _).2

include hent

theorem relaAt_home (hk : k < 4) : relaAt homeByte m (0x400300 + 24 * k) =
    if k = 1 then ⟨0x400400, 8, 0x1234⟩ else ⟨0, 0, 0⟩ := by
  rw [← relaAt_relocPage ent hent k hk]
  unfold relaAt
  simp only [peek_home hm]

theorem dynamicAt_home : dynamicAt m 0 relocTable 1 = some 0x400200 := by
  have hph : phdr m relocTable 0 = phdr (relocPage ent) relocTable 0 :=
    hm.phdrAt_eq (by decide) (by decide)
  obtain ⟨htype, hvaddr⟩ := phdr_relocPage ent hent
  unfold dynamicAt
  rw [range_one, find?_cons_of_pos (by rw [hph, htype]; rfl)]
  simp only [bind_some, hph, hvaddr]
  decide

theorem dynAt_home : DynAt homeByte m InHome 0x400200 (relocEntries ent) := by
  obtain ⟨h0, h1, h2, h3, h4, h5, h6⟩ := peek_relocPage ent hent
  simp only [relocEntries, DynAt, peek_home hm]
  unfold Reach
  exact ⟨by decide, by decide, h0, h1, by decide, by decide, h2, h3, by decide, by decide, h4, h5,
    by decide, h6⟩

theorem reachable_home {count : Nat} (hcount : count ≤ 4) :
    Reachable InHome homeByte m 0 0x400300 count := by
  have hrel : ∀ k < count, (relaAt homeByte m (0x400300 + 24 * k)).Relative →
      (relaAt homeByte m (0x400300 + 24 * k)).rOffset = 0x400400 := by
    intro k hk
    rw [relaAt_home hent hm (by omega)]
    split_ifs
    · exact fun _ => rfl
    · exact fun h => absurd h (by decide)
  refine ⟨?_, ?_, ?_⟩
  · intro k hk i hi
    rw [Nat.mod_eq_of_lt (by simp only [word]; omega)]
    exact ⟨by omega, by omega⟩
  · intro k hk h i hi
    rw [hrel k hk h, Nat.mod_eq_of_lt (by simp only [word]; omega)]
    exact ⟨by omega, by omega⟩
  · intro k hk h l hl i hi j hj
    rw [hrel k hk h, Nat.mod_eq_of_lt (by simp only [word]; omega),
      Nat.mod_eq_of_lt (by simp only [word]; omega)]
    omega

end Small

theorem relatives_home (hm : SameFile homeFrame 0x1000 (relocPage 48) m) :
    0x400318 ∈ relatives homeByte m 0x400300 24 2 ∧ 0x400318 ∉ relatives homeByte m 0x400300 48 2 := by
  have hrel : (relaAt homeByte m 0x400318).Relative := by
    rw [show 0x400318 = 0x400300 + 24 * 1 from rfl, relaAt_home (by decide) hm (by decide)]
    decide
  exact ⟨mem_filter.mpr ⟨by decide, decide_eq_true hrel⟩, fun h =>
    absurd (mem_filter.mp h).1 (by decide)⟩

theorem applyRelocations_asked_small : ∃ root m, Window root m InHome homeByte ∧
    dynamicAt m 0 relocTable 1 = some 0x400200 ∧
    DynAt homeByte m InHome 0x400200 (relocEntries 24) ∧
    AsAsked root homeByte m 0 relocTable 1 (relocEntries 24) := by
  obtain ⟨root, m, hw, hm⟩ := exists_home (relocPage 24)
  have hd := dynamicAt_home (by decide) hm
  have hat := dynAt_home (by decide) hm
  refine ⟨root, m, hw, hd, hat, (applyRelocations_asked_iff hw ?_ ?_).mpr ?_⟩
  · intro d h
    obtain rfl : 0x400200 = d := some.inj (hd.symm.trans h)
    exact hat
  · exact fun _ => reachable_home (by decide) hm (by decide)
  · have hent : (dynamicOf 0 (relocEntries 24)).relaEnt = 24 := by decide
    exact .inr ⟨by decide, fun a => by rw [relatives_stride (Or.inl hent)]⟩

/-- The small table is not relocated as its section asks for. -/
def Unexpected (ent : Byte) : Prop :=
  ∃ root m, Window root m InHome homeByte ∧ dynamicAt m 0 relocTable 1 = some 0x400200 ∧
    DynAt homeByte m InHome 0x400200 (relocEntries ent) ∧
    Reachable InHome homeByte m 0 0x400300 (0x60 / ent.toNat) ∧
    ¬ AsAsked root homeByte m 0 relocTable 1 (relocEntries ent)

theorem unexpected_home {ent : Byte} (hent : ent ∈ [(0 : Byte), 48]) : Unexpected ent := by
  have hent' : ent ∈ [(0 : Byte), 24, 48] := by
    revert ent
    decide
  have hcount : 0x60 / ent.toNat ≤ 4 := by
    revert ent
    decide
  obtain ⟨root, m, hw, hm⟩ := exists_home (relocPage ent)
  have hd := dynamicAt_home hent' hm
  have hat := dynAt_home hent' hm
  have hreach := reachable_home hent' hm hcount
  refine ⟨root, m, hw, hd, hat, hreach, fun hasked => ?_⟩
  have hdyn : ∀ d, dynamicAt m 0 relocTable 1 = some d →
      DynAt homeByte m InHome d (relocEntries ent) := by
    intro d h
    obtain rfl : 0x400200 = d := some.inj (hd.symm.trans h)
    exact hat
  obtain ⟨hmemory, hstores⟩ := applyRelocations_eq hw hdyn fun _ => hreach
  have hsome : ¬ (dynamicAt m 0 relocTable 1 = none ∨ (dynamicOf 0 (relocEntries ent)).rela = 0 ∨
      (dynamicOf 0 (relocEntries ent)).relaSize = 0) := by
    rw [hd, show dynamicOf 0 (relocEntries ent) = ⟨0x400300, 0x60, ent.toNat⟩ from rfl]
    simp
  rcases mem_cons.mp hent with rfl | hent
  · rw [outcome, if_neg hsome, if_pos (by decide)] at hmemory
    exact absurd (hmemory.symm.trans hasked.memory) (by simp)
  obtain rfl := mem_singleton.mp hent
  have hsame := hasked.stores
  rw [hstores, outcome, asked, if_neg hsome, if_neg hsome, if_neg (by decide), getD_some,
    relocations_iff] at hsame
  obtain ⟨hin, hout⟩ := relatives_home hm
  exact hout ((hsame _).mp hin)

/-- With 0 for the size of an entry the machine stops. With 48 there are two entries, 48 bytes apart
and none of them to relocate, but the code takes the second one from between them. -/
theorem applyRelocations_unexpected : Unexpected 0 ∧ Unexpected 48 :=
  ⟨unexpected_home (by decide), unexpected_home (by decide)⟩

end Terrakernel.Elf
