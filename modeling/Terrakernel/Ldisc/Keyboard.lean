import Terrakernel.Ldisc.Editing
import Terrakernel.Ldisc.Modifiers
import Terrakernel.Ps2k.Queue

/-!
# From scancodes to a line

The line discipline is the callback of the keyboard driver. Nobody takes events out of the driver's
buffer, so it depends on what the driver does when that is full.
-/

namespace Terrakernel.Ldisc

open Memory Ps2k List

def initialise (buf : EventBuffer) (handler : Nat) : EventBuffer := setEventCallback buf handler 0

/-- The callback is `ldisc_ps2k_event_handler`, whatever its address. -/
def callback (_ : Nat) (ev : KeyEvent) (_ : Nat) (l : Ldisc) : Ldisc := ldiscPs2kEventHandler l ev

/-- The events that get past a buffer with so much room. -/
def delivered (dropEvents : Bool) (room : Nat) (evs : List KeyEvent) : List KeyEvent :=
  if dropEvents then evs.take room else evs

theorem pushAll_world {capacity : Nat} {dropEvents : Bool} {buf : EventBuffer}
    {queue : List KeyEvent} (h : Ps2k.Holds capacity dropEvents buf queue) (hpos : 0 < capacity)
    (hword : capacity < word) (hcallback : buf.callback ≠ 0) (l : Ldisc) (evs : List KeyEvent) :
    (pushAll callback buf l evs).2 =
      run l (delivered dropEvents (capacity - queue.length) evs) := by
  induction evs generalizing buf queue l with
  | nil => simp [pushAll, delivered, run]
  | cons ev evs ih =>
    have hnext := (bufferPush_spec h callback l ev hpos hword).2
    have hpush : (bufferPush callback buf l ev).2.1.callback = buf.callback ∧
        (bufferPush callback buf l ev).2.2 =
          if capacity ≤ queue.length ∧ dropEvents then l else ldiscPs2kEventHandler l ev := by
      rw [bufferPush, bufferIsFull, h.capacity, ← h.length, h.dropEvents]
      split_ifs <;> simp_all [bufferStore, flushEvents, callback]
    change (pushAll callback (bufferPush callback buf l ev).2.1 (bufferPush callback buf l ev).2.2
      evs).2 = _
    rw [ih hnext (hpush.1 ▸ hcallback), hpush.2]
    by_cases hroom : queue.length < capacity
    · have hcount : capacity - queue.length = capacity - (queue.length + 1) + 1 := by omega
      rw [if_pos hroom, if_neg (by omega), hcount]
      cases dropEvents <;> simp [delivered, run]
    · rw [if_neg hroom, Nat.sub_eq_zero_of_le (Nat.le_of_not_lt hroom)]
      cases dropEvents <;> simp [delivered, run, Nat.le_of_not_lt hroom]

theorem interrupts_world {d : Driver Ldisc} {capacity : Nat} {dropEvents : Bool}
    {queue : List KeyEvent} (h : Ps2k.Holds capacity dropEvents d.evbuf queue) (hpos : 0 < capacity)
    (hword : capacity < word) (hcallback : d.evbuf.callback ≠ 0) (irqs : List Irq) :
    (interrupts callback d irqs).world = run d.world
      (delivered dropEvents (capacity - queue.length) (decodeAll d.currentScanState irqs).2) := by
  rw [interrupts_eq]
  exact pushAll_world h hpos hword hcallback d.world _

/-- Both are initialised. -/
def booted (events : Nat → KeyEvent) (capacity : Nat) (dropEvents : Bool) (handler : Nat)
    (l : Ldisc) : Driver Ldisc :=
  ⟨.normal, initialise (initialised events capacity dropEvents) handler, l⟩

/-- From boot on, a driver that flushes its buffer hands on every event, and one that drops events
falls silent after as many as the buffer holds. -/
theorem events_delivered (events : Nat → KeyEvent) {capacity : Nat} (hpos : 0 < capacity)
    (hword : capacity < word) (dropEvents : Bool) {handler : Nat} (hhandler : handler ≠ 0)
    (l : Ldisc) (irqs : List Irq) :
    (interrupts callback (booted events capacity dropEvents handler l) irqs).world =
      run l (delivered dropEvents capacity (decodeAll .normal irqs).2) :=
  @interrupts_world (booted events capacity dropEvents handler l) _ _ _
    ((initialised_holds events hpos dropEvents).callback handler 0) hpos hword hhandler irqs

theorem events_delivered_shift :
    (interrupts callback (booted (fun _ => ⟨0, .released, 0⟩) 1 true 1 (atBoot fun _ => 0))
      [⟨0x2A, 0⟩, ⟨0x3A, 0⟩]).world.mode = modeShift := by
  rw [events_delivered _ (by decide) (by decide) _ (by decide)]
  rfl

/-! ## Characters -/

def keyChar (mode : BitVec 32) (ev : KeyEvent) : Option Byte :=
  if ev.state = .pressed ∧ charOf mode ev.keycode ≠ 0 ∧ checkPrintable ev.keycode = true then
    some (charOf mode ev.keycode)
  else none

/-- The characters of some events, in the modes that the events before them leave. -/
def typed (l : Ldisc) : List KeyEvent → Bytes
  | [] => []
  | ev :: evs => (keyChar l.mode ev).toList ++ typed (ldiscPs2kEventHandler l ev) evs

/-- A character is on the console, if it is to be echoed. -/
def shown (l : Ldisc) (c : Byte) : Ldisc :=
  { l with console := if l.echo then l.console ++ [c] else l.console }

theorem handler_cases (l : Ldisc) (ev : KeyEvent) :
    (keyChar l.mode ev = none ∧ ∃ mode, ldiscPs2kEventHandler l ev = { l with mode }) ∨
      ∃ c, keyChar l.mode ev = some c ∧ ldiscPs2kEventHandler l ev = (l.shown c).push c := by
  unfold ldiscPs2kEventHandler keyChar modifier
  by_cases hprint : checkPrintable ev.keycode = true
  · -- No modifier is printable.
    have hne : ∀ k : Keycode, checkPrintable k.code = false → ev.keycode ≠ k.code :=
      fun k hk he => by simp [he, hk] at hprint
    simp only [hne .keyLeftshift rfl, hne .keyRightshift rfl, hne .keyLeftctrl rfl,
      hne .keyRightctrl rfl, hne .keyCapslock rfl, or_self, if_false, hprint, and_true]
    by_cases htyped : ev.state = .pressed ∧ charOf l.mode ev.keycode ≠ 0
    · refine .inr ⟨charOf l.mode ev.keycode, if_pos htyped, ?_⟩
      rw [if_neg (not_not.mpr htyped.1), if_pos htyped.2, shown]
      split_ifs <;> rfl
    · refine .inl ⟨if_neg htyped, l.mode, ?_⟩
      by_cases hstate : ev.state = .pressed
      · rw [if_neg (not_not.mpr hstate), if_neg fun hc => htyped ⟨hstate, hc⟩]
      · rw [if_pos hstate]
  · left
    simp only [hprint, Bool.false_eq_true, and_false, if_false, true_and]
    split_ifs <;> exact ⟨_, rfl⟩

theorem run_cons (l : Ldisc) (ev : KeyEvent) (evs : List KeyEvent) :
    run l (ev :: evs) = run (ldiscPs2kEventHandler l ev) evs := rfl

theorem run_idle {l : Ldisc} (h : l.reading = false) (evs : List KeyEvent) :
    (run l evs).reading = false ∧ (run l evs).readN = l.readN ∧ (run l evs).mem = l.mem ∧
      (l.echo = false → (run l evs).console = l.console) := by
  induction evs generalizing l with
  | nil => exact ⟨h, rfl, rfl, fun _ => rfl⟩
  | cons ev evs ih =>
    rw [run_cons]
    rcases handler_cases l ev with ⟨-, mode, he⟩ | ⟨c, -, he⟩
    · rw [he]
      exact ih (l := { l with mode }) h
    · rw [he, show (l.shown c).push c = l.shown c from if_pos h]
      obtain ⟨hr, hn, hm, hc⟩ := ih (l := l.shown c) h
      exact ⟨hr, hn, hm, fun he => by rw [hc he, shown, he]; rfl⟩

theorem Reads.line {l : Ldisc} {b : Buffer} {line cs rest : Bytes} {evs : List KeyEvent}
    (h : Reads l b line.length) (hholds : Holds l.mem b.addr line)
    (htyped : typed l evs = cs ++ 0x0A :: rest) (hnewline : (0x0A : Byte) ∉ cs)
    (hfits : ∀ pre, pre <+: cs → (Ldisc.editFrom line pre).length ≤ b.size) :
    (run l evs).reading = false ∧ (run l evs).readN = (Ldisc.editFrom line cs).length ∧
      Holds (run l evs).mem b.addr (Ldisc.editFrom line cs) := by
  induction evs generalizing l line cs with
  | nil => simp [typed] at htyped
  | cons ev evs ih =>
    rw [typed] at htyped
    rw [run_cons]
    rcases handler_cases l ev with ⟨hnone, mode, he⟩ | ⟨c, hsome, he⟩
    · rw [hnone, he] at htyped
      rw [he]
      exact ih (l := { l with mode }) ⟨h.reading, h.addr, h.size, h.count⟩ hholds htyped hnewline hfits
    · rw [hsome, he] at htyped
      rw [he]
      have h' : Reads (l.shown c) b line.length := ⟨h.reading, h.addr, h.size, h.count⟩
      cases cs with
      | nil =>
        obtain ⟨rfl, -⟩ := List.cons.inj htyped
        obtain ⟨hdone, hcount, hmem⟩ := h'.newline
        obtain ⟨hr, hn, hm, -⟩ := run_idle hdone evs
        exact ⟨hr, hn.trans hcount, by rw [hm, hmem]; exact hholds⟩
      | cons d cs =>
        obtain ⟨rfl, htail⟩ := List.cons.inj htyped
        obtain ⟨h₁, hholds₁⟩ := h'.editStep hholds (ne_of_not_mem_cons hnewline).symm
          (hfits [] nil_prefix) (hfits [c] (prefix_append [c] cs))
        exact @ih _ (Ldisc.editStep line c) cs h₁ hholds₁ htail
          (not_mem_of_not_mem_cons hnewline) fun pre hpre =>
            hfits (c :: pre) (prefix_cons_inj c |>.mpr hpre)

/-- Whatever scancodes come during a read, in whatever state the driver is, the first line that they
complete is what the read returns. -/
theorem line_of_interrupts {d : Driver Ldisc} {b : Buffer} {line : Bytes}
    (h : Reads d.world b line.length) (hline : Holds d.world.mem b.addr line) {capacity : Nat}
    {dropEvents : Bool} {queue : List KeyEvent} (hbuf : Ps2k.Holds capacity dropEvents d.evbuf queue)
    (hpos : 0 < capacity) (hword : capacity < word) (hcallback : d.evbuf.callback ≠ 0)
    (irqs : List Irq) {cs rest : Bytes}
    (htyped : typed d.world (delivered dropEvents (capacity - queue.length)
      (decodeAll d.currentScanState irqs).2) = cs ++ 0x0A :: rest) (hnewline : (0x0A : Byte) ∉ cs)
    (hfits : ∀ pre, pre <+: cs → (editFrom line pre).length ≤ b.size) :
    let l' := (interrupts callback d irqs).world
    l'.readDone = true ∧ l'.readCount = (editFrom line cs).length ∧
      Holds l'.mem b.addr (editFrom line cs) := by
  obtain ⟨hdone, hcount, hholds⟩ := h.line hline htyped hnewline hfits
  rw [interrupts_world hbuf hpos hword hcallback irqs]
  exact ⟨by rw [readDone, hdone]; rfl, hcount, hholds⟩

/-- The driver's buffer holds an event, and the line a character. -/
def midLine : Driver Ldisc :=
  ps2kInterruptHandler callback (booted (fun _ => ⟨0, .released, 0⟩) 2 false 1
    { atBoot (fun _ => 0) with readBuf := 16, readBufSize := 2, reading := true }) ⟨0x1E, 0⟩

theorem line_of_interrupts_keys :
    let l' := (interrupts callback midLine [⟨0x0E, 0⟩, ⟨0x30, 0⟩, ⟨0x1C, 0⟩]).world
    l'.readDone = true ∧ l'.readCount = 1 ∧ Holds l'.mem 16 [0x62] := by
  have hboot := (initialised_holds (fun _ => ⟨0, .released, 0⟩) (by decide : 0 < 2) false).callback 1 0
  have hbuf : Ps2k.Holds 2 false midLine.evbuf [⟨Keycode.keyA.code, .pressed, 0⟩] :=
    (bufferPush_spec hboot callback midLine.world _ (by decide) (by decide)).2
  have hline : Holds midLine.world.mem 16 [0x61] := by
    intro i v hi
    rcases i with _ | i
    · exact Option.some.inj hi ▸ rfl
    · simp at hi
  exact @line_of_interrupts midLine smallBuffer [0x61] ⟨rfl, rfl, rfl, rfl⟩ hline _ _ _ hbuf
    (by decide) (by decide) (by decide) _ [0x08, 0x62] [] rfl (by decide) fun pre hpre =>
      (by decide : ∀ pre ∈ inits [0x08, 0x62], (editFrom [0x61] pre).length ≤ 2) pre
        ((mem_inits pre _).mpr hpre)

/-! ## Echo -/

def firstLine : Bytes → Bytes
  | [] => []
  | c :: cs => if c = 0x0A then [c] else c :: firstLine cs

theorem push_shown {l : Ldisc} (hreading : l.reading = true) (hbuf : l.readBuf ≠ 0) (c : Byte) :
    let l' := (l.shown c).push c
    l'.console = l.console ++ (if l.echo then [c] else []) ∧
      if c = 0x0A then l'.reading = false ∧ l'.echo = false
      else l'.reading = true ∧ l'.readBuf ≠ 0 ∧ l'.echo = l.echo := by
  simp only [push, shown, hreading, hbuf, reset]
  split_ifs <;> simp_all

/-- The console shows what is typed during a read, up to the end of the line. -/
theorem read_echoes {l : Ldisc} (hreading : l.reading = true) (hbuf : l.readBuf ≠ 0)
    (evs : List KeyEvent) :
    (run l evs).console = l.console ++ if l.echo then firstLine (typed l evs) else [] := by
  induction evs generalizing l with
  | nil => simp [run, typed, firstLine]
  | cons ev evs ih =>
    rw [run_cons, typed]
    rcases handler_cases l ev with ⟨hnone, mode, he⟩ | ⟨c, hsome, he⟩
    · rw [hnone, he]
      exact ih (l := { l with mode }) hreading hbuf
    · rw [hsome, he, Option.toList_some, singleton_append, firstLine]
      obtain ⟨hconsole, hnext⟩ := push_shown hreading hbuf c
      by_cases hc : c = 0x0A
      · -- The end of the line resets `echo`.
        rw [if_pos hc] at hnext ⊢
        rw [(run_idle hnext.1 evs).2.2.2 hnext.2, hconsole]
      · rw [if_neg hc] at hnext ⊢
        rw [ih hnext.1 hnext.2.1, hnext.2.2, hconsole, append_assoc]
        cases l.echo <;> rfl

theorem read_echoes_keys :
    (run { atBoot (fun _ => 0) with readBuf := 16, readBufSize := 2, reading := true, echo := true }
      [⟨Keycode.keyA.code, .pressed, 0⟩, ⟨Keycode.keyBackspace.code, .pressed, 0⟩,
        ⟨Keycode.keyEnter.code, .pressed, 0⟩, ⟨Keycode.keyB.code, .pressed, 0⟩]).console =
      [0x61, 0x08, 0x0A] := by
  rw [read_echoes rfl (by decide)]
  rfl

end Terrakernel.Ldisc
