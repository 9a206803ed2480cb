import Terrakernel.Ldisc.Code

/-!
# Modes and the keys that are held

The two keys of a mode share one bit, which the release of either clears.
-/

namespace Terrakernel.Ldisc

open Memory Ps2k List

/-! ## Keys -/

/-- The keys that are held after some events, when none was held before. -/
def held : List KeyEvent → UInt16 → Bool :=
  foldl (fun keys ev => Function.update keys ev.keycode (ev.state = .pressed)) fun _ => false

theorem held_snoc (evs : List KeyEvent) (ev : KeyEvent) :
    held (evs ++ [ev]) = Function.update (held evs) ev.keycode (ev.state = .pressed) := by
  simp only [held, foldl_append, foldl_cons, foldl_nil]

/-- The events in order. -/
def run (l : Ldisc) (evs : List KeyEvent) : Ldisc := evs.foldl ldiscPs2kEventHandler l

theorem run_snoc (l : Ldisc) (evs : List KeyEvent) (ev : KeyEvent) :
    run l (evs ++ [ev]) = ldiscPs2kEventHandler (run l evs) ev := by
  simp only [run, foldl_append, foldl_cons, foldl_nil]

/-- A bit of the mode with the two keys that are meant to hold it. -/
structure Modifier where
  bit : BitVec 32
  left : Keycode
  right : Keycode

def shift : Modifier := ⟨modeShift, .keyLeftshift, .keyRightshift⟩
def ctrl : Modifier := ⟨modeCtrl, .keyLeftctrl, .keyRightctrl⟩

def Modifier.on (m : Modifier) (l : Ldisc) : Prop := l.mode &&& m.bit ≠ 0

def Modifier.isHeld (m : Modifier) (evs : List KeyEvent) : Prop :=
  held evs m.left.code = true ∨ held evs m.right.code = true

/-- The mode is on exactly while a key of it is held. -/
def Modifier.Tracks (m : Modifier) (l : Ldisc) (evs : List KeyEvent) : Prop :=
  m.on (run l evs) ↔ m.isHeld evs

/-- An event lets go of one key of the pair while the other one is held. -/
def Modifier.Splits (m : Modifier) (before : List KeyEvent) (ev : KeyEvent) : Prop :=
  ev.state = .released ∧
    (ev.keycode = m.left.code ∧ held before m.right.code = true ∨
      ev.keycode = m.right.code ∧ held before m.left.code = true)

/-- A key is let go of only while it is held. -/
def Consistent (evs : List KeyEvent) : Prop :=
  ∀ n (h : n < evs.length), evs[n].state = .released → held (evs.take n) evs[n].keycode = true

/-! ## One event -/

theorem push_mode (l : Ldisc) (c : Byte) : (l.push c).mode = l.mode := by
  unfold push reset
  split_ifs <;> rfl

theorem and_bit {i : Nat} (hi : BitVec.twoPow 32 i ≠ 0) (x : BitVec 32) :
    x &&& BitVec.twoPow 32 i ≠ 0 ↔ x.getLsbD i = true := by
  rw [BitVec.and_twoPow]
  split_ifs with h
  · exact iff_of_true hi h
  · exact iff_of_false (by simp) h

theorem shift_on (l : Ldisc) : shift.on l ↔ l.mode.getLsbD 0 = true :=
  and_bit (i := 0) (by decide) l.mode

theorem ctrl_on (l : Ldisc) : ctrl.on l ↔ l.mode.getLsbD 1 = true :=
  and_bit (i := 1) (by decide) l.mode

theorem mode_handler (l : Ldisc) (ev : KeyEvent) :
    (ldiscPs2kEventHandler l ev).mode =
      if ev.keycode = shift.left.code ∨ ev.keycode = shift.right.code then
        if ev.state = .pressed then l.mode ||| 1 else l.mode &&& ~~~1
      else if ev.keycode = ctrl.left.code ∨ ev.keycode = ctrl.right.code then
        if ev.state = .pressed then l.mode ||| 2 else l.mode &&& ~~~2
      else if ev.keycode = Keycode.keyCapslock.code ∧ ev.state = .pressed then l.mode ^^^ 4
      else l.mode := by
  have htyped : ∀ c, (push (if l.echo = true then { l with console := l.console ++ [c] } else l)
      c).mode = l.mode := by
    intro c
    rw [push_mode]
    split_ifs <;> rfl
  unfold ldiscPs2kEventHandler modifier
  simp only [shift, ctrl]
  split_ifs <;> simp_all

theorem on_handler {m : Modifier} (hm : m = shift ∨ m = ctrl) (l : Ldisc) (ev : KeyEvent) :
    m.on (ldiscPs2kEventHandler l ev) ↔
      if ev.keycode = m.left.code ∨ ev.keycode = m.right.code then ev.state = .pressed
      else m.on l := by
  have hother : ev.keycode = ctrl.left.code ∨ ev.keycode = ctrl.right.code →
      ¬ (ev.keycode = shift.left.code ∨ ev.keycode = shift.right.code) := by
    rintro (h | h) <;> rw [h] <;> decide
  rcases hm with rfl | rfl
  · rw [shift_on, shift_on, mode_handler]
    split_ifs with h1 h2 h3 h4 h5 <;> simp_all
  · rw [ctrl_on, ctrl_on, mode_handler]
    split_ifs with h1 h2 h3 h4 h5 <;> simp_all

section Runs

variable {m : Modifier} (hm : m = shift ∨ m = ctrl) {l : Ldisc}

include hm

theorem Modifier.codes_ne : m.left.code ≠ m.right.code := by
  rcases hm with rfl | rfl <;> decide

theorem tracks_snoc {evs : List KeyEvent} (h : m.Tracks l evs) (ev : KeyEvent) :
    m.Tracks l (evs ++ [ev]) ↔ ¬ m.Splits evs ev := by
  have hne := m.codes_ne hm
  unfold Modifier.Tracks Modifier.isHeld at *
  rw [run_snoc, on_handler hm, held_snoc]
  unfold Modifier.Splits
  by_cases hleft : ev.keycode = m.left.code
  · cases ev.state <;> simp [hleft, hne, hne.symm]
  by_cases hright : ev.keycode = m.right.code
  · cases ev.state <;> simp [hright, hne, hne.symm]
  · simp [hleft, hright, Ne.symm hleft, Ne.symm hright, h]

theorem Modifier.tracks_iff (hoff : ¬ m.on l) (evs : List KeyEvent) :
    (∀ n, m.Tracks l (evs.take n)) ↔
      ∀ n ev, evs[n]? = some ev → ¬ m.Splits (evs.take n) ev := by
  have hsnoc : ∀ n ev, evs[n]? = some ev → evs.take (n + 1) = evs.take n ++ [ev] := by
    intro n ev hev
    rw [take_add_one, hev, Option.toList_some]
  constructor
  · intro h n ev hev
    rw [← tracks_snoc hm (h n), ← hsnoc n ev hev]
    exact h (n + 1)
  · intro h n
    induction n with
    | zero => simpa [Modifier.Tracks, Modifier.isHeld, run, held] using hoff
    | succ n ih =>
      cases hev : evs[n]? with
      | none => rwa [take_add_one, hev, Option.toList_none, append_nil]
      | some ev =>
        rw [hsnoc n ev hev, tracks_snoc hm ih]
        exact h n ev hev

end Runs

/-- Both modes are right after each event of a run from no key held, exactly if no event lets go
of one key of a pair while the other one is held. -/
theorem modes_track_iff {l : Ldisc} (hshift : ¬ shift.on l) (hctrl : ¬ ctrl.on l)
    (evs : List KeyEvent) :
    (∀ n, shift.Tracks l (evs.take n) ∧ ctrl.Tracks l (evs.take n)) ↔
      ∀ n ev, evs[n]? = some ev →
        ¬ shift.Splits (evs.take n) ev ∧ ¬ ctrl.Splits (evs.take n) ev := by
  rw [forall_and, shift.tracks_iff (Or.inl rfl) hshift, ctrl.tracks_iff (Or.inr rfl) hctrl]
  simp only [← forall_and]

def press (k : Keycode) : KeyEvent := ⟨k.code, .pressed, 0⟩
def release (k : Keycode) : KeyEvent := ⟨k.code, .released, 0⟩

theorem modes_track_iff_in_turn :
    shift.Tracks (atBoot fun _ => 0) [press .keyLeftshift, release .keyLeftshift,
        press .keyRightctrl] ∧
      ctrl.Tracks (atBoot fun _ => 0) [press .keyLeftshift, release .keyLeftshift,
        press .keyRightctrl] := by
  refine (modes_track_iff ?_ ?_ [press .keyLeftshift, release .keyLeftshift,
    press .keyRightctrl]).mpr ?_ 3
  · simp [Modifier.on, atBoot]
  · simp [Modifier.on, atBoot]
  · intro n ev hev
    unfold Modifier.Splits
    rcases n with _ | _ | _ | n
    all_goals
      simp only [getElem?_cons_zero, getElem?_cons_succ, getElem?_nil,
        Option.some.injEq, reduceCtorEq] at hev
    all_goals
      rw [← hev]
      decide

/-- Both shift keys are pressed and one is let go of. -/
theorem shift_lost :
    Consistent [press .keyLeftshift, press .keyRightshift, release .keyLeftshift] ∧
      shift.isHeld [press .keyLeftshift, press .keyRightshift, release .keyLeftshift] ∧
      ¬ shift.on (run (atBoot fun _ => 0)
        [press .keyLeftshift, press .keyRightshift, release .keyLeftshift]) := by
  refine ⟨?_, ?_, ?_⟩
  · unfold Consistent
    decide
  · unfold Modifier.isHeld
    decide
  · unfold Modifier.on
    decide

end Terrakernel.Ldisc
