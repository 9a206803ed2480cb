import Mathlib.Data.Nat.Bitwise
import Terrakernel.Vmm.Refine

/-!
# What the processor does with the tables

The processor walks the same tables as the code, but stops at an entry of the two
middle levels that has the bit for a large page. An access is allowed to user mode,
or to write, if every entry on the walk allows it.

The entries of a hierarchy are below 2^47, so the bits that the processor ignores or
reserves are no part of an address here.
-/

namespace Terrakernel.Vmm

open Memory Mem Paths
open List hiding Mem

/-! ## Entries -/

abbrev pageUser : Nat := 0x4
abbrev pageSize : Nat := 0x80

def writable (entry : Nat) : Bool := entry &&& pageRw != 0
def user (entry : Nat) : Bool := entry &&& pageUser != 0
def large (entry : Nat) : Bool := entry &&& pageSize != 0

/-- The entries that lead the processor to a table. -/
def plain (entry : Nat) : Bool := present entry && !large entry

theorem and_two_pow_ne (x i : Nat) : (x &&& 2 ^ i != 0) = x.testBit i := by
  rw [Nat.and_two_pow]
  cases x.testBit i <;> simp

theorem present_eq (entry : Nat) : present entry = entry.testBit 0 := and_two_pow_ne entry 0
theorem writable_eq (entry : Nat) : writable entry = entry.testBit 1 := and_two_pow_ne entry 1
theorem user_eq (entry : Nat) : user entry = entry.testBit 2 := and_two_pow_ne entry 2
theorem large_eq (entry : Nat) : large entry = entry.testBit 7 := and_two_pow_ne entry 7

theorem new_entry_bits {page : Nat} (h : page % 0x1000 = 0) :
    present (page + 3) = true ∧ writable (page + 3) = true ∧ user (page + 3) = false ∧
      large (page + 3) = false := by
  rw [present_eq, writable_eq, user_eq, large_eq]
  simp only [Nat.testBit_eq_decide_div_mod_eq, decide_eq_true_eq, decide_eq_false_iff_not]
  omega

theorem testBit_leafEntry (pa attributes : Nat) {i : Nat} (hi : i < 12) :
    (leafEntry pa attributes).testBit i = attributes.testBit i := by
  unfold leafEntry pageOf
  rw [Nat.testBit_or, Nat.testBit_and, show (0x1000 : Nat) = 2 ^ 12 from rfl,
    Nat.testBit_mul_two_pow]
  have hmask : Nat.testBit 0x8000000000000FFF i = true := by
    interval_cases i <;> decide
  rw [hmask, Bool.and_true, decide_eq_false (by omega), Bool.false_and, Bool.false_or]

theorem leads_plain : Leads plain := by
  refine ⟨?_, ?_⟩
  · intro e h
    exact (Bool.and_eq_true _ _ ▸ h).1
  · intro page _ ha
    obtain ⟨hp, -, -, hl⟩ := new_entry_bits ha
    rw [plain, hp, hl]
    rfl

/-! ## Translation -/

structure Translation where
  pa : Nat
  user : Bool
  writable : Bool
  deriving DecidableEq, Repr

/-- Address bits that a walk of so many entries leaves over. A PML4 entry maps no page. -/
def offsetBits : Nat → Option Nat
  | 2 => some 30
  | 3 => some 21
  | 4 => some 12
  | _ => none

/-- Physical address of the page that an entry maps. -/
def frame (entry bits : Nat) : Nat := entry % 2 ^ 52 / 2 ^ bits * 2 ^ bits

/-- What a walk that read these entries makes of an address. -/
def access (entries : List Nat) (va : Nat) : Option Translation := do
  let entry ← entries.getLast?
  let bits ← offsetBits entries.length
  some { pa := frame entry bits + va % 2 ^ bits, user := entries.all Vmm.user,
         writable := entries.all Vmm.writable }

/-- The address and the rights that the processor finds for `va`, or a fault. -/
def translate (root : Nat) (m : Mem) (va : Nat) : Option Translation := do
  access (← walkBy plain m root (slot (pageNumber va))) va

theorem SameBy.translate_eq {root : Nat} {m m' : Mem} (h : SameBy plain root m m') (va : Nat) :
    translate root m' va = translate root m va := by
  unfold translate
  rw [walkBy_congr]
  intro p i rest u hpath hu
  have hlen := congrArg List.length hpath
  simp only [slot, pathTo, length_append, length_cons, length_nil] at hlen
  exact h.getEntry_eq (by omega) hu i

theorem InTable.of_plain {root : Nat} {m : Mem} {x : Nat} (h : InTable plain root m x) :
    InTable present root m x := by
  obtain ⟨p, t, hlen, ht, hlo, hhi⟩ := h
  refine ⟨p, t, hlen, ?_, hlo, hhi⟩
  clear hlen
  induction p generalizing root with
  | nil => exact ht
  | cons i p ih =>
    rw [tableBy, follow_cons] at ht ⊢
    obtain ⟨u, hu, hp⟩ := Option.bind_eq_some_iff.mp ht
    obtain ⟨hlead, rfl⟩ := childBy_eq_some hu
    rw [childBy, if_pos (leads_plain.present _ hlead)]
    exact ih hp

theorem Good.walk_eq {root : Nat} {m : Mem} (hg : Good root m) (v : Nat) :
    walkBy plain m root (slot v) = walkBy present m root (slot v) := by
  apply walkBy_leads
  intro p i rest u hpath hrest hu hpres
  have hlen : p.length < 3 := by
    have hsum := congrArg List.length hpath
    have hpos := length_pos_iff.mpr hrest
    simp only [slot, pathTo, length_append, length_cons, length_nil] at hsum
    omega
  have := hg.noLarge p u i hlen hu hpres
  rw [plain, hpres, large_eq, Nat.testBit_eq_decide_div_mod_eq, decide_eq_false (by omega)]
  rfl

theorem Good.translate_eq {root : Nat} {m : Mem} (hg : Good root m) {va pt : Nat}
    (ht : tableBy present root m (pathTo (pageNumber va)) = some pt)
    (hpres : present (getEntry m pt (index (pageNumber va))) = true) :
    ∃ es, es.length = 3 ∧
      (∀ e ∈ es, present e = true ∧ ∃ q t, ∃ j : Fin 512, q ++ [j] <+: pathTo (pageNumber va) ∧
        tableBy present root m q = some t ∧ e = getEntry m t j) ∧
      translate root m va = access (es ++ [getEntry m pt (index (pageNumber va))]) va := by
  obtain ⟨es, hes, hlen, hall⟩ := walkBy_table leads_present ht hpres
  refine ⟨es, hlen, hall, ?_⟩
  rw [translate, hg.walk_eq, slot, hes]
  rfl

theorem Good.translate_pa {root : Nat} {m : Mem} (hg : Good root m) {va : Nat}
    (hpres : present (leafMap root m (pageNumber va)) = true) :
    ∃ tr, translate root m va = some tr ∧
      tr.pa = frame (leafMap root m (pageNumber va)) 12 + va % 2 ^ 12 := by
  unfold leafMap lookup leafAt at hpres ⊢
  cases ht : tableAt root m (pathTo (pageNumber va)) with
  | none =>
    rw [ht, Option.map_none, Option.getD_none] at hpres
    exact absurd hpres (by decide)
  | some pt =>
    rw [ht] at hpres
    obtain ⟨es, hlen, -, htr⟩ := hg.translate_eq ht hpres
    rw [htr, access, getLast?_concat, length_append, hlen]
    exact ⟨_, rfl, rfl⟩

theorem Good.translate_none {root : Nat} {m : Mem} (hg : Good root m) {va : Nat}
    (h : present (leafMap root m (pageNumber va)) = false) : translate root m va = none := by
  rw [translate, hg.walk_eq, slot]
  unfold leafMap lookup leafAt at h
  cases ht : tableAt root m (pathTo (pageNumber va)) with
  | none =>
    have ht' : tableBy present root m (pathTo (pageNumber va)) = none := ht
    rw [walkBy_none ht']
    rfl
  | some pt =>
    rw [ht] at h
    rw [walkBy_absent leads_present ht h]
    rfl

end Terrakernel.Vmm
