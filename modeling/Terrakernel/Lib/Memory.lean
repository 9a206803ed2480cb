import Mathlib.Logic.Function.Basic
import Mathlib.Tactic.Common
import Mathlib.Tactic.Ring

/-!
# Flat byte memory

One byte at each address, and little-endian numbers of any width on top of it.
-/

namespace Terrakernel.Memory

open Function List

abbrev Byte := BitVec 8

abbrev Bytes := List Byte

abbrev Mem := Nat → Byte

variable {m : Mem} {a : Nat} {l : Bytes}

/-- The number in the `w` bytes from `a` on, lowest byte first. -/
def load (m : Mem) : Nat → Nat → Nat
  | _, 0 => 0
  | a, w + 1 => (m a).toNat + 256 * load m (a + 1) w

/-- Puts the low `w` bytes of `v` at `a`, lowest byte first. -/
def store (m : Mem) : Nat → Nat → Nat → Mem
  | _, 0, _ => m
  | a, w + 1, v => store (update m a (BitVec.ofNat 8 v)) (a + 1) w (v / 256)

/-! ## Loads -/

theorem load_zeros (a w : Nat) : load (fun _ => 0) a w = 0 := by
  induction w generalizing a with
  | zero => rfl
  | succ w ih =>
    rw [load, ih]
    rfl

theorem load_congr {m' : Mem} (w : Nat) :
    ∀ a, (∀ x, a ≤ x → x < a + w → m x = m' x) → load m a w = load m' a w := by
  induction w with
  | zero => intro a _; rfl
  | succ w ih =>
    intro a h
    rw [load, load, h a (le_refl a) (by omega), ih (a + 1) (fun x h1 h2 => h x (by omega) (by omega))]

theorem load_lt (m : Mem) (w : Nat) : ∀ a, load m a w < 256 ^ w := by
  induction w with
  | zero => intro a; simp [load]
  | succ w ih =>
    intro a
    have hb := (m a).isLt
    have hr := ih (a + 1)
    rw [load, pow_succ]
    omega

/-! ## Stores -/

theorem store_outside (w : Nat) :
    ∀ (m : Mem) (a v x : Nat), x < a ∨ a + w ≤ x → store m a w v x = m x := by
  induction w with
  | zero => intro m a v x _; rfl
  | succ w ih =>
    intro m a v x hx
    rw [store, ih _ _ _ _ (by omega), update_of_ne (by omega)]

theorem load_store_same (w : Nat) :
    ∀ (m : Mem) (a v : Nat), load (store m a w v) a w = v % 256 ^ w := by
  induction w with
  | zero => intro m a v; simp [load, Nat.mod_one]
  | succ w ih =>
    intro m a v
    have hbyte : store m a (w + 1) v a = BitVec.ofNat 8 v := by
      rw [store, store_outside w _ _ _ _ (by omega), update_self]
    have hrest : load (store m a (w + 1) v) (a + 1) w = v / 256 % 256 ^ w := by
      rw [store, ih]
    rw [load, hbyte, hrest, BitVec.toNat_ofNat, pow_succ' 256 w, Nat.mod_mul]

theorem load_store_apart (m : Mem) {w b w' : Nat} (v : Nat) (h : a + w ≤ b ∨ b + w' ≤ a) :
    load (store m a w v) b w' = load m b w' := by
  apply load_congr
  intro x h1 h2
  exact store_outside w m a v x (by omega)

theorem store_update (w : Nat) :
    ∀ (m : Mem) (a v : Nat) {c : Nat} (u : Byte), c < a ∨ a + w ≤ c →
      store (update m c u) a w v = update (store m a w v) c u := by
  induction w with
  | zero => intro m a v c u _; rfl
  | succ w ih =>
    intro m a v c u hc
    rw [store, store, update_comm (by omega), ih _ _ _ _ (by omega)]

theorem store_comm (w : Nat) :
    ∀ (m : Mem) {a b w' : Nat} (v v' : Nat), a + w ≤ b ∨ b + w' ≤ a →
      store (store m a w v) b w' v' = store (store m b w' v') a w v := by
  induction w with
  | zero => intro m a b w' v v' _; rfl
  | succ w ih =>
    intro m a b w' v v' h
    rw [store, store, ih _ _ _ (by omega), store_update _ _ _ _ _ (by omega)]

/-! ## Lists of bytes -/

/-- The bytes `l` stand from `a` on. -/
def Holds (m : Mem) (a : Nat) (l : Bytes) : Prop := ∀ i v, l[i]? = some v → m (a + i) = v

theorem holds_append {r : Bytes} :
    Holds m a (l ++ r) ↔ Holds m a l ∧ Holds m (a + l.length) r := by
  constructor
  · intro h
    refine ⟨fun i v hv => h i v ?_, fun i v hv => ?_⟩
    · rw [getElem?_append_left (List.getElem?_eq_some_iff.mp hv).1, hv]
    · rw [Nat.add_assoc]
      refine h _ v ?_
      rw [getElem?_append_right (Nat.le_add_right _ _), Nat.add_sub_cancel_left, hv]
  · rintro ⟨hl, hr⟩ i v hv
    rcases Nat.lt_or_ge i l.length with hi | hi
    · rw [getElem?_append_left hi] at hv
      exact hl i v hv
    · rw [getElem?_append_right hi] at hv
      have hi' := hr _ v hv
      rwa [Nat.add_assoc, Nat.add_sub_cancel' hi] at hi'

theorem holds_cons {c : Byte} : Holds m a (c :: l) ↔ m a = c ∧ Holds m (a + 1) l := by
  rw [← singleton_append, holds_append]
  refine and_congr_left fun _ => ⟨fun h => h 0 c rfl, ?_⟩
  rintro rfl i v hv
  cases i with
  | zero => exact Option.some.inj hv
  | succ i => exact absurd hv (by simp)

theorem Holds.mono {s : Bytes} (h : Holds m a l) (hs : s <+: l) : Holds m a s := by
  obtain ⟨r, rfl⟩ := hs
  exact (holds_append.mp h).1

theorem Holds.drop (h : Holds m a l) {n : Nat} (hn : n ≤ l.length) :
    Holds m (a + n) (l.drop n) := by
  rw [← take_append_drop n l, holds_append, length_take, Nat.min_eq_left hn] at h
  exact h.2

theorem Holds.map_range (h : Holds m a l) : ((List.range l.length).map fun i => m (a + i)) = l := by
  apply ext_getElem?
  intro i
  rw [getElem?_map]
  rcases Nat.lt_or_ge i l.length with hi | hi
  · rw [getElem?_range hi, getElem?_eq_getElem hi, Option.map_some]
    exact congrArg some (h i _ (getElem?_eq_getElem hi))
  · rw [getElem?_eq_none (by simpa using hi), getElem?_eq_none hi]
    rfl

end Terrakernel.Memory
