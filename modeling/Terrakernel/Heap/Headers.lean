import Terrakernel.Heap.Code

/-!
# What the header writes of the heap do

A write to one field of a header changes no other.
-/

namespace Terrakernel.Heap

open Memory Mem

variable {b x c : Nat}

/-- Two headers that share no byte. -/
def Apart (b c : Nat) : Prop := b + headerSize ≤ c ∨ c + headerSize ≤ b

/-- `x` is none of the header's bytes. -/
def Beside (b x : Nat) : Prop := x < b ∨ b + headerSize ≤ x

theorem Apart.symm (h : Apart b c) : Apart c b := Or.symm h

theorem Apart.beside (h : Apart b c) (h1 : c ≤ x) (h2 : x < c + headerSize) : Beside b x := by
  simp only [Apart, Beside, headerSize] at *
  omega

theorem base_eq (m : Mem) (b : Nat) : base m b = (block m b).base := rfl
theorem length_eq (m : Mem) (b : Nat) : length m b = (block m b).length := rfl
theorem isFree_eq (m : Mem) (b : Nat) : isFree m b = (block m b).isFree := rfl
theorem prev_eq (m : Mem) (b : Nat) : prev m b = (block m b).prev := rfl
theorem next_eq (m : Mem) (b : Nat) : next m b = (block m b).next := rfl

theorem length_lt (m : Mem) (b : Nat) : length m b < word := load_lt m 8 _
theorem next_lt (m : Mem) (b : Nat) : next m b < word := load_lt m 8 _

theorem block_congr {m m' : Mem} (h : ∀ x, b ≤ x → x < b + headerSize → m x = m' x) :
    block m b = block m' b := by
  unfold block base length isFree prev next getField
  simp only [headerSize] at h
  rw [load_congr 8 (b + 0) (fun x h1 h2 => h x (by omega) (by omega)),
    load_congr 8 (b + 8) (fun x h1 h2 => h x (by omega) (by omega)),
    load_congr 1 (b + 16) (fun x h1 h2 => h x (by omega) (by omega)),
    load_congr 8 (b + 24) (fun x h1 h2 => h x (by omega) (by omega)),
    load_congr 8 (b + 32) (fun x h1 h2 => h x (by omega) (by omega))]

/-! ## One field -/

theorem putField_outside (m : Mem) {b x offset width : Nat} (v : Nat)
    (hw : offset + width ≤ headerSize) (h : Beside b x) : putField m b offset width v x = m x := by
  simp only [Beside, headerSize] at *
  exact store_outside width _ _ _ _ (by omega)

theorem block_putField (m : Mem) {b c offset width : Nat} (v : Nat)
    (hw : offset + width ≤ headerSize) (h : Apart b c) :
    block (putField m b offset width v) c = block m c :=
  block_congr fun _ h1 h2 => putField_outside m v hw (h.beside h1 h2)

@[simp] theorem block_setBase (m : Mem) (b v : Nat) :
    block (setBase m b v) b = { block m b with base := v % word } := by
  simp (disch := omega) only [block, putField, base, length, isFree, prev, next, getField,
    load_store_same, load_store_apart]
  rfl

@[simp] theorem block_setLength (m : Mem) (b v : Nat) :
    block (setLength m b v) b = { block m b with length := v % word } := by
  simp (disch := omega) only [block, putField, base, length, isFree, prev, next, getField,
    load_store_same, load_store_apart]
  rfl

@[simp] theorem block_setFree (m : Mem) (b : Nat) (v : Bool) :
    block (setFree m b v) b = { block m b with isFree := v } := by
  simp (disch := omega) only [block, putField, base, length, isFree, prev, next, getField,
    load_store_same, load_store_apart]
  cases v <;> rfl

@[simp] theorem block_setPrev (m : Mem) (b v : Nat) :
    block (setPrev m b v) b = { block m b with prev := v % word } := by
  simp (disch := omega) only [block, putField, base, length, isFree, prev, next, getField,
    load_store_same, load_store_apart]
  rfl

@[simp] theorem block_setNext (m : Mem) (b v : Nat) :
    block (setNext m b v) b = { block m b with next := v % word } := by
  simp (disch := omega) only [block, putField, base, length, isFree, prev, next, getField,
    load_store_same, load_store_apart]
  rfl

theorem relink_outside (m : Mem) (v : Nat) (h : b ≠ 0 → Beside b x) : relink m b v x = m x := by
  unfold relink
  split_ifs with hb
  · exact putField_outside m v (by decide) (h hb)
  · rfl

theorem block_relink (m : Mem) (v : Nat) (h : b ≠ 0 → Apart b c) :
    block (relink m b v) c = block m c :=
  block_congr fun _ h1 h2 => relink_outside m v fun hb => (h hb).beside h1 h2

theorem block_relink_self (m : Mem) (v : Nat) (hb : b ≠ 0) :
    block (relink m b v) b = { block m b with prev := v % word } := by
  rw [relink, if_pos hb, block_setPrev]

section Split

variable {m : Mem} {best n : Nat} (hn : n + headerSize < length m best)
  (htop : best + headerSize + length m best ≤ word)
  (hnext : next m best ≠ 0 → best + headerSize + length m best ≤ next m best)

include hn htop

theorem split_outside {x : Nat} (h1 : Beside best x) (h2 : Beside (best + headerSize + n) x)
    (h3 : next m best ≠ 0 → Beside (next m best) x) : split m best n x = m x := by
  simp only [headerSize] at *
  have hnew : (best + 40 + n) % word = best + 40 + n := Nat.mod_eq_of_lt (by omega)
  have a1 : Apart (best + 40 + n) best := by simp only [Apart, headerSize]; omega
  unfold split
  simp only [headerSize, hnew]
  simp only [length_eq, next_eq] at *
  simp (disch := first | assumption | decide) only [block_putField, putField_outside, relink_outside]

include hnext

theorem split_blocks :
    block (split m best n) best =
        { block m best with length := n, next := best + headerSize + n } ∧
      block (split m best n) (best + headerSize + n) =
        ⟨best + headerSize + n + headerSize, length m best - n - headerSize, true, best, next m best⟩ ∧
      (next m best ≠ 0 → block (split m best n) (next m best) =
        { block m (next m best) with prev := best + headerSize + n }) := by
  have hlt := next_lt m best
  have hlen := length_lt m best
  simp only [headerSize] at *
  have hnew : (best + 40 + n) % word = best + 40 + n := Nat.mod_eq_of_lt (by omega)
  have a1 : Apart (best + 40 + n) best := by simp only [Apart, headerSize]; omega
  have a2 : next m best ≠ 0 → Apart (next m best) best := by
    intro h; have := hnext h; simp only [Apart, headerSize]; omega
  have a3 : next m best ≠ 0 → Apart (next m best) (best + 40 + n) := by
    intro h; have := hnext h; simp only [Apart, headerSize]; omega
  unfold split
  simp only [headerSize, hnew]
  simp only [length_eq, next_eq] at *
  refine ⟨?_, ?_, ?_⟩
  · simp (disch := first | assumption | exact a1.symm | decide) only
      [block_putField, block_relink, block_setLength, block_setNext, hnew]
    rw [Nat.mod_eq_of_lt (by omega : n < word)]
  · simp (disch := first | assumption | exact a1.symm | decide) only
      [block_putField, block_relink, block_setBase, block_setLength, block_setFree, block_setPrev,
        block_setNext, Nat.mod_mod, Nat.mod_eq_of_lt hlt, Nat.mod_eq_of_lt (by omega : best < word),
        Nat.mod_eq_of_lt (by omega : best + 40 + n + 40 < word)]
    simp only [HeapBlock.mk.injEq, and_true, true_and, word] at *
    omega
  · intro h
    simp (disch := first | assumption | exact (a2 h).symm | exact (a3 h).symm | decide) only
      [block_putField, block_relink_self, hnew]

end Split

/-! ## The splits of `malloc_aligned` -/

theorem setNext_setLength (m : Mem) (b v v' : Nat) :
    setNext (setLength m b v) b v' = setLength (setNext m b v') b v :=
  store_comm 8 m v v' (by omega)

theorem setNext_setPrev (m : Mem) (v v' : Nat) (h : Apart b c) :
    setNext (setPrev m b v) c v' = setPrev (setNext m c v') b v := by
  apply store_comm
  simp only [Apart, headerSize] at h
  omega

theorem next_setNext (m : Mem) (b v : Nat) : next (setNext m b v) b = v % word := by
  rw [next_eq, block_setNext]

theorem next_setNext_apart (m : Mem) (v : Nat) (h : Apart b c) :
    next (setNext m b v) c = next m c := by
  rw [next_eq, next_eq, block_putField m v (by decide) h]

section AlignedSplits

variable {m : Mem} {best n : Nat} (htop : best + headerSize + n < word)

include htop

theorem padSplit_eq : padSplit m best n = split m best n := by
  have hnew : (best + headerSize + n) % word = best + headerSize + n := Nat.mod_eq_of_lt htop
  have hapart : Apart (best + headerSize + n) best := by simp only [Apart]; omega
  unfold padSplit split
  simp only [hnew]
  rw [setNext_setLength, setNext_setPrev _ _ _ hapart]

theorem tailSplit_eq : tailSplit m best n = split m best n := by
  have hnew : (best + headerSize + n) % word = best + headerSize + n := Nat.mod_eq_of_lt htop
  have hapart : Apart (best + headerSize + n) best := by simp only [Apart]; omega
  have hlink : ∀ m : Mem, next (setNext m (best + headerSize + n) (next m best))
      (best + headerSize + n) = next (setNext m (best + headerSize + n) (next m best)) best := by
    intro m
    rw [next_setNext, next_setNext_apart m _ hapart, Nat.mod_eq_of_lt (next_lt m best)]
  unfold tailSplit split relink
  simp only [hnew, hlink]
  rw [setNext_setPrev _ _ _ hapart]

end AlignedSplits

section Join

variable {m : Mem} {a c : Nat} (hac : Apart a c)
  (hlen : length m a + length m c + headerSize < word)
  (hca : next m c ≠ 0 → Apart (next m c) a)

/-- What both joins leave behind: `a` has taken over `c`. -/
structure Joined (m m' : Mem) (a c : Nat) : Prop where
  left : block m' a =
    { block m a with length := length m a + length m c + headerSize, next := next m c }
  right : next m c ≠ 0 → block m' (next m c) = { block m (next m c) with prev := a }
  outside : ∀ x, Beside a x → (next m c ≠ 0 → Beside (next m c) x) → m' x = m x

include hac hlen hca

theorem joinNext_spec (ha : a < word) (hnext : next m a = c) : Joined m (joinNext m a) a c := by
  subst hnext
  have hlt := next_lt m (next m a)
  unfold joinNext
  constructor
  all_goals simp only [headerSize, length_eq, next_eq] at *
  all_goals simp (disch := first | assumption | exact hac.symm | decide) only
    [block_putField, block_setLength, block_setNext, Nat.mod_eq_of_lt hlt]
  · simp (disch := first | assumption | decide) only [block_relink, block_setNext, block_setLength,
      Nat.mod_eq_of_lt hlt, Nat.mod_eq_of_lt hlen]
  · intro h
    simp (disch := first | assumption | exact (hca h).symm | decide) only
      [block_relink_self, block_putField, Nat.mod_eq_of_lt ha]
  · intro x h1 h2
    simp (disch := first | assumption | decide) only [relink_outside, putField_outside]

theorem joinPrev_spec (ha : a < word) (hprev : prev m c = a) : Joined m (joinPrev m c) a c := by
  subst hprev
  have hlt := next_lt m c
  unfold joinPrev
  constructor
  all_goals simp only [headerSize, length_eq, next_eq, prev_eq] at *
  all_goals simp (disch := first | assumption | exact hac.symm | decide) only
    [block_putField]
  · simp (disch := first | assumption | decide) only [block_relink, block_setNext, block_setLength,
      Nat.mod_eq_of_lt hlt, Nat.mod_eq_of_lt hlen]
  · intro h
    simp (disch := first | assumption | exact (hca h).symm | decide) only
      [block_relink_self, block_putField, Nat.mod_eq_of_lt ha]
  · intro x h1 h2
    simp (disch := first | assumption | decide) only [relink_outside, putField_outside]

end Join

end Terrakernel.Heap
