import Terrakernel.Ldisc.Code
import Mathlib.Data.List.Infix

/-!
# Editing a line

A read gives the line as it was edited, if it fits. A backspace on an empty line and a character on
a full one are stored outside of the buffer.
-/

namespace Terrakernel.Ldisc

open Memory Function List

/-- The buffer of a reader. The address behind it exists. -/
structure Buffer where
  addr : Nat
  size : Nat
  addr_pos : 0 < addr
  size_pos : 0 < size
  room : addr + size < word

def Buffer.Has (b : Buffer) (a : Nat) : Prop := b.addr ≤ a ∧ a < b.addr + b.size

instance (b : Buffer) (a : Nat) : Decidable (b.Has a) := inferInstanceAs (Decidable (_ ∧ _))

/-! ## The characters that are left -/

/-- A backspace takes the last character that is left, if there is one. -/
def editStep (line : Bytes) (c : Byte) : Bytes :=
  if c = 0x08 then line.dropLast else line ++ [c]

def editFrom (line typed : Bytes) : Bytes := typed.foldl editStep line

def edit (typed : Bytes) : Bytes := editFrom [] typed

/-- Until the line ends, no backspace comes on an empty line and no character on a full one; `k`
characters are there. -/
def Fits (n : Nat) : Nat → Bytes → Prop
  | _, [] => True
  | k, c :: typed =>
    if c = 0x0A then True
    else if c = 0x08 then 0 < k ∧ Fits n (k - 1) typed
    else k < n ∧ Fits n (k + 1) typed

/-! ## One character -/

/-- The address `push` stores to. -/
def target (l : Ldisc) (c : Byte) : Option Nat :=
  if l.reading = false then none
  else if l.readBuf = 0 then none
  else
    let readN := if l.readBufSize < l.readN then 0 else l.readN
    if c = 0x0A then none
    else if c = 0x08 then some ((l.readBuf + (readN + word - 1) % word) % word)
    else some ((l.readBuf + readN) % word)

/-- The addresses stored to, in order. -/
def stores : Ldisc → Bytes → List Nat
  | _, [] => []
  | l, c :: typed => (l.target c).toList ++ stores (l.push c) typed

/-- A count above the size is taken for 0 at the next character. -/
def count (l : Ldisc) : Nat := if l.readBufSize < l.readN then 0 else l.readN

/-- A read into `b` is on, with `k` characters in it. -/
structure Reads (l : Ldisc) (b : Buffer) (k : Nat) : Prop where
  reading : l.reading = true
  addr : l.readBuf = b.addr
  size : l.readBufSize = b.size
  count : l.count = k

variable {l : Ldisc} {b : Buffer} {k : Nat}

theorem Reads.not_null (h : Reads l b k) : l.readBuf ≠ 0 := by
  rw [h.addr]
  exact Nat.ne_of_gt b.addr_pos

theorem Reads.push_eq (h : Reads l b k) (c : Byte) :
    l.push c =
      if c = 0x0A then reset { l with readN := k }
      else if c = 0x08 then
        { l with
          readN := (k + word - 1) % word
          mem := update l.mem ((b.addr + (k + word - 1) % word) % word) 0 }
      else
        { l with
          mem := update l.mem ((b.addr + k) % word) c
          readN := (k + 1) % word } := by
  have hcount := h.count
  unfold Ldisc.count at hcount
  unfold push
  rw [if_neg (by simp [h.reading]), if_neg h.not_null, ← h.addr]
  by_cases hwrapped : l.readBufSize < l.readN
  · simp only [hwrapped, if_true] at hcount ⊢
    subst hcount
    rfl
  · simp only [hwrapped, if_false] at hcount ⊢
    subst hcount
    rfl

theorem Reads.target_eq (h : Reads l b k) (c : Byte) :
    l.target c =
      if c = 0x0A then none
      else if c = 0x08 then some ((b.addr + (k + word - 1) % word) % word)
      else some ((b.addr + k) % word) := by
  have hcount := h.count
  unfold Ldisc.count at hcount
  unfold target
  rw [if_neg (by simp [h.reading]), if_neg h.not_null, ← h.addr]
  simp only [hcount]

theorem Reads.newline (h : Reads l b k) :
    (l.push 0x0A).reading = false ∧ (l.push 0x0A).readN = k ∧ (l.push 0x0A).mem = l.mem := by
  rw [h.push_eq, if_pos rfl]
  exact ⟨rfl, rfl, rfl⟩

theorem Reads.backspace (h : Reads l b k) (hk : k ≤ b.size) : Reads (l.push 0x08) b (k - 1) := by
  have hroom := b.room
  have haddr := b.addr_pos
  rw [h.push_eq, if_neg (by decide), if_pos rfl]
  refine ⟨h.reading, h.addr, h.size, ?_⟩
  simp only [Ldisc.count, h.size]
  cases k with
  | zero =>
    rw [if_pos]
    rw [Nat.zero_add, Nat.mod_eq_of_lt (by omega)]
    omega
  | succ k =>
    have : (k + 1 + word - 1) % word = k := by
      rw [show k + 1 + word - 1 = k + word by omega, Nat.add_mod_right,
        Nat.mod_eq_of_lt (by omega)]
    rw [this, if_neg (by omega)]
    rfl

theorem Reads.char (h : Reads l b k) {c : Byte} (hnewline : c ≠ 0x0A) (hback : c ≠ 0x08)
    (hk : k < b.size) : Reads (l.push c) b (k + 1) := by
  have hroom := b.room
  rw [h.push_eq, if_neg hnewline, if_neg hback]
  refine ⟨h.reading, h.addr, h.size, ?_⟩
  simp only [Ldisc.count, h.size]
  rw [Nat.mod_eq_of_lt (by omega), if_neg (by omega)]

/-! ## Where the characters are stored -/

theorem stores_idle (h : l.reading = false) (typed : Bytes) : l.stores typed = [] := by
  induction typed with
  | nil => rfl
  | cons c typed ih => simp [stores, target, push, h, ih]

theorem Reads.has_backspace (h : Reads l b k) (hk : k ≤ b.size) :
    ∃ a, l.target 0x08 = some a ∧ (b.Has a ↔ 0 < k) := by
  have hroom := b.room
  have haddr := b.addr_pos
  refine ⟨_, by rw [h.target_eq, if_neg (by decide), if_pos rfl], ?_⟩
  unfold Buffer.Has
  cases k with
  | zero =>
    rw [Nat.zero_add, Nat.mod_eq_of_lt (show word - 1 < word by omega),
      show b.addr + (word - 1) = b.addr - 1 + word by omega, Nat.add_mod_right,
      Nat.mod_eq_of_lt (by omega)]
    omega
  | succ k =>
    rw [show k + 1 + word - 1 = k + word by omega, Nat.add_mod_right,
      Nat.mod_eq_of_lt (show k < word by omega), Nat.mod_eq_of_lt (by omega)]
    omega

theorem Reads.has_char (h : Reads l b k) (hk : k ≤ b.size) {c : Byte} (hnewline : c ≠ 0x0A)
    (hback : c ≠ 0x08) : ∃ a, l.target c = some a ∧ (b.Has a ↔ k < b.size) := by
  have hroom := b.room
  refine ⟨_, by rw [h.target_eq, if_neg hnewline, if_neg hback], ?_⟩
  unfold Buffer.Has
  rw [Nat.mod_eq_of_lt (by omega)]
  omega

theorem Reads.stores_iff (h : Reads l b k) (hk : k ≤ b.size) (typed : Bytes) :
    (∀ a ∈ l.stores typed, b.Has a) ↔ Fits b.size k typed := by
  induction typed generalizing l k with
  | nil => simp [stores, Fits]
  | cons c typed ih =>
    by_cases hnewline : c = 0x0A
    · subst hnewline
      have hnone : l.target 0x0A = none := by rw [h.target_eq, if_pos rfl]
      simp only [stores, hnone, Option.toList_none, nil_append, stores_idle h.newline.1,
        not_mem_nil, false_implies, implies_true, Fits, if_true]
    by_cases hback : c = 0x08
    · subst hback
      obtain ⟨a, htarget, hhas⟩ := h.has_backspace hk
      have hrest := ih (h.backspace hk) (by omega)
      simp only [stores, htarget, Option.toList_some, singleton_append, forall_mem_cons,
        hhas, hrest, Fits, if_true, hnewline, if_false]
    · obtain ⟨a, htarget, hhas⟩ := h.has_char hk hnewline hback
      simp only [stores, htarget, Option.toList_some, singleton_append, forall_mem_cons,
        hhas, Fits, hback, hnewline, if_false]
      refine and_congr_right fun hlt => ih (h.char hnewline hback hlt) hlt

/-! ## What is in the buffer at the end -/

theorem Reads.editStep {line : Bytes} (h : Reads l b line.length)
    (hholds : Holds l.mem b.addr line) {c : Byte} (hnewline : c ≠ 0x0A)
    (hsize : line.length ≤ b.size) (hfits : (editStep line c).length ≤ b.size) :
    Reads (l.push c) b (Ldisc.editStep line c).length ∧
      Holds (l.push c).mem b.addr (Ldisc.editStep line c) := by
  have hroom := b.room
  unfold Ldisc.editStep at hfits ⊢
  by_cases hback : c = 0x08
  · subst hback
    simp only [if_true, length_dropLast]
    refine ⟨h.backspace hsize, ?_⟩
    intro i v hi
    have hlt : i < line.length - 1 := by
      have := (List.getElem?_eq_some_iff.mp hi).1
      simpa using this
    rw [h.push_eq, if_neg hnewline, if_pos rfl]
    have hcut : (line.length + word - 1) % word = line.length - 1 := by
      rw [show line.length + word - 1 = line.length - 1 + word by omega, Nat.add_mod_right,
        Nat.mod_eq_of_lt (by omega)]
    simp only [hcut]
    rw [Nat.mod_eq_of_lt (by omega), update_of_ne (by omega)]
    apply hholds
    rw [getElem?_dropLast] at hi
    simpa [hlt] using hi
  · simp only [hback, if_false, length_append, length_singleton] at hfits ⊢
    refine ⟨h.char hnewline hback hfits, ?_⟩
    rw [h.push_eq, if_neg hnewline, if_neg hback]
    simp only
    rw [Nat.mod_eq_of_lt (by omega), holds_append]
    refine ⟨fun i v hi => ?_, fun i v hi => ?_⟩
    · have hlt := (List.getElem?_eq_some_iff.mp hi).1
      rw [update_of_ne (by omega)]
      exact hholds i v hi
    · obtain ⟨hi0, rfl⟩ := List.getElem?_eq_some_iff.mp hi
      obtain rfl : i = 0 := by simpa using hi0
      simp

theorem Reads.editFrom {line typed : Bytes} (h : Reads l b line.length)
    (hholds : Holds l.mem b.addr line) (hnewline : (0x0A : Byte) ∉ typed)
    (hfits : ∀ pre, pre <+: typed → (editFrom line pre).length ≤ b.size) :
    Reads (typed.foldl push l) b (Ldisc.editFrom line typed).length ∧
      Holds (typed.foldl push l).mem b.addr (Ldisc.editFrom line typed) := by
  induction typed generalizing l line with
  | nil => exact ⟨h, hholds⟩
  | cons c typed ih =>
    have hsize := hfits [] nil_prefix
    have hfirst := hfits [c] (prefix_append [c] typed)
    have hc : c ≠ 0x0A := fun hc => hnewline (hc ▸ mem_cons_self)
    obtain ⟨h', hholds'⟩ := h.editStep hholds hc hsize hfirst
    exact ih h' hholds' (fun hmem => hnewline (mem_cons_of_mem c hmem)) fun pre hpre =>
      hfits (c :: pre) (prefix_cons_inj c |>.mpr hpre)

theorem awaitDone_reading (h : l.reading = true) (c : Byte) (typed : Bytes) :
    l.awaitDone (c :: typed) = (l.push c).awaitDone typed := by
  simp [awaitDone, readDone, h]

theorem awaitDone_done (h : l.reading = false) (typed : Bytes) :
    l.awaitDone typed = some (l, typed) := by
  cases typed <;> simp [awaitDone, readDone, h]

theorem awaitDone_push {l' : Ldisc} {typed rest : Bytes}
    (hreading : ∀ pre, pre <+: typed → (pre.foldl push l).reading = true)
    (hl' : (typed.foldl push l).push 0x0A = l') (hdone : l'.reading = false) :
    l.awaitDone (typed ++ 0x0A :: rest) = some (l', rest) := by
  induction typed generalizing l with
  | nil =>
    have hnow := hreading [] nil_prefix
    simp only [foldl_nil] at hnow hl'
    rw [nil_append, awaitDone_reading hnow, hl', awaitDone_done hdone]
  | cons c typed ih =>
    have hnow := hreading [] nil_prefix
    simp only [foldl_nil] at hnow
    rw [cons_append, awaitDone_reading hnow]
    exact ih (fun pre hpre => hreading (c :: pre) (prefix_cons_inj c |>.mpr hpre)) hl'

theorem reads_set {l' : Ldisc} {echo : Bool} {typed cs : Bytes}
    (hset : l.set echo b.addr b.size typed = some (l', cs)) : Reads l' b 0 := by
  unfold set at hset
  obtain ⟨⟨l₀, cs₀⟩, -, heq⟩ := Option.map_eq_some_iff.mp hset
  obtain ⟨rfl, rfl⟩ := Prod.mk.injEq .. ▸ heq
  exact ⟨rfl, rfl, rfl, by simp [Ldisc.count]⟩

theorem read_edits_iff (b : Buffer) (l l' : Ldisc) (echo : Bool) (typed cs : Bytes)
    (hset : l.set echo b.addr b.size typed = some (l', cs)) :
    ((∀ a ∈ l'.stores cs, b.Has a) ↔ Fits b.size 0 cs) ∧
      ∀ line rest, cs = line ++ 0x0A :: rest → (0x0A : Byte) ∉ line →
        (∀ pre, pre <+: line → (edit pre).length ≤ b.size) →
        ∃ n l'', builtinLdiscRead l echo b.addr b.size typed = some (n, l'') ∧ n ≤ b.size ∧
          (List.range n).map (fun i => l''.mem (b.addr + i)) = edit line := by
  have h := reads_set hset
  refine ⟨h.stores_iff (Nat.zero_le _) cs, ?_⟩
  rintro line rest rfl hnewline hfits
  have hnil : Holds l'.mem b.addr [] := fun i v hi => by simp at hi
  have hread : ∀ pre, pre <+: line → _ := fun pre hpre =>
    @Reads.editFrom l' b [] pre h hnil (fun hmem => hnewline (hpre.subset hmem))
      fun p hp => hfits p (hp.trans hpre)
  obtain ⟨hend, hholds⟩ := hread line (prefix_refl line)
  obtain ⟨hdone, hcount, hmem⟩ := hend.newline
  have hwait := @awaitDone_push l' _ line rest (fun pre hpre => (hread pre hpre).1.reading) rfl hdone
  refine ⟨(edit line).length, reset ((line.foldl push l').push 0x0A), ?_,
    hfits line (prefix_refl line), ?_⟩
  · have haddr := Nat.ne_of_gt b.addr_pos
    have hsize := Nat.ne_of_gt b.size_pos
    simp only [builtinLdiscRead, haddr, hsize, or_self, if_false, hset, Option.bind_eq_bind,
      Option.bind_some, hwait, readCount, hcount, edit]
    rfl
  · have hheld : Holds (reset ((line.foldl push l').push 0x0A)).mem b.addr (edit line) := by
      simp only [reset, hmem]
      exact hholds
    exact hheld.map_range

def smallBuffer : Buffer := ⟨16, 2, by decide, by decide, by decide⟩

theorem read_edits_small :
    ∃ n l, builtinLdiscRead (atBoot fun _ => 0) true 16 2 [0x61, 0x08, 0x62, 0x63, 0x0A] =
      some (n, l) ∧ n ≤ 2 ∧ (List.range n).map (fun i => l.mem (16 + i)) = [0x62, 0x63] :=
  (read_edits_iff smallBuffer (atBoot fun _ => 0) _ true _ [0x61, 0x08, 0x62, 0x63, 0x0A] rfl).2
    [0x61, 0x08, 0x62, 0x63] [] rfl (by decide) fun pre hpre =>
      (by decide : ∀ pre ∈ inits [0x61, 0x08, 0x62, 0x63], (edit pre).length ≤ 2) pre
        ((mem_inits pre _).mpr hpre)

/-- Three characters in a buffer of two, and a backspace on the empty line. -/
theorem read_leaves_buffer :
    ∃ l, (atBoot fun _ => 0).set true 16 2 [] = some (l, []) ∧
      l.stores [0x61, 0x62, 0x63] = [16, 17, 18] ∧ l.stores [0x08] = [15] := by
  refine ⟨_, rfl, by decide, by decide⟩

end Terrakernel.Ldisc
