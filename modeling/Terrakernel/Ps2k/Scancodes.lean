import Mathlib.Data.List.Induction
import Terrakernel.Ps2k.Code

/-!
# Scancodes, as `ps2k_interrupt_handler` decodes them

A key is one byte, or two of which the first is 0xE0, and Pause is six. The top bit of the code byte
says that the key was released.
-/

namespace Terrakernel.Ps2k

open List

/-! ## `ps2k_keycodes.hpp` and `ps2k_scancode_map.hpp` -/

inductive Keycode where
  | keyNone | keyEsc | key1 | key2 | key3 | key4 | key5 | key6 | key7 | key8 | key9 | key0
  | keyMinus | keyEqual | keyBackspace | keyTab | keyQ | keyW | keyE | keyR | keyT | keyY | keyU
  | keyI | keyO | keyP | keyLeftbrace | keyRightbrace | keyEnter | keyLeftctrl | keyA | keyS
  | keyD | keyF | keyG | keyH | keyJ | keyK | keyL | keySemicolon | keyApostrophe | keyGrave
  | keyLeftshift | keyBackslash | keyZ | keyX | keyC | keyV | keyB | keyN | keyM | keyComma
  | keyDot | keySlash | keyRightshift | keyKpasterisk | keyLeftalt | keySpace | keyCapslock
  | keyF1 | keyF2 | keyF3 | keyF4 | keyF5 | keyF6 | keyF7 | keyF8 | keyF9 | keyF10 | keyF11
  | keyF12 | keyNumlock | keyScrolllock | keyKp7 | keyKp8 | keyKp9 | keyKpminus | keyKp4 | keyKp5
  | keyKp6 | keyKpplus | keyKp1 | keyKp2 | keyKp3 | keyKp0 | keyKpdot | keyKpenter | keyRightctrl
  | keyKpslash | keyRightalt | keyHome | keyUp | keyPageup | keyLeft | keyRight | keyEnd
  | keyDown | keyPagedown | keyInsert | keyDelete | keyMute | keyVolumedown | keyVolumeup
  | keyPower | keyKpequal | keyPause | keyKpcomma | keyLeftmeta | keyRightmeta | keyCompose
  | keySleep | keyWakeup | keyMediaPlaypause | keyMediaStop | keyMediaPrev | keyMediaNext
  | keyMediaMute | keyMediaVolumeup | keyMediaVolumedown
  deriving DecidableEq, Repr, Inhabited

-- The enumerators are numbered from 0 on, in this order.
def Keycode.code (k : Keycode) : UInt16 := .ofNat k.ctorIdx

/-- The array after a list of assignments, of which the last one to an index counts. -/
def assigned (l : List (UInt8 × Keycode)) : UInt8 → Keycode :=
  l.foldl (fun map a => Function.update map a.1 a.2) fun _ => .keyNone

def scancodeToKeycode : UInt8 → Keycode := assigned
  [(0x1E, .keyA), (0x30, .keyB), (0x2E, .keyC), (0x20, .keyD), (0x12, .keyE), (0x21, .keyF),
   (0x22, .keyG), (0x23, .keyH), (0x17, .keyI), (0x24, .keyJ), (0x25, .keyK), (0x26, .keyL),
   (0x32, .keyM), (0x31, .keyN), (0x18, .keyO), (0x19, .keyP), (0x10, .keyQ), (0x13, .keyR),
   (0x1F, .keyS), (0x14, .keyT), (0x16, .keyU), (0x2F, .keyV), (0x11, .keyW), (0x2D, .keyX),
   (0x15, .keyY), (0x2C, .keyZ), (0x0B, .key0), (0x02, .key1), (0x03, .key2), (0x04, .key3),
   (0x05, .key4), (0x06, .key5), (0x07, .key6), (0x08, .key7), (0x09, .key8), (0x0A, .key9),
   (0x3B, .keyF1), (0x3C, .keyF2), (0x3D, .keyF3), (0x3E, .keyF4), (0x3F, .keyF5),
   (0x40, .keyF6), (0x41, .keyF7), (0x42, .keyF8), (0x43, .keyF9), (0x44, .keyF10),
   (0x57, .keyF11), (0x58, .keyF12), (0x01, .keyEsc), (0x0E, .keyBackspace), (0x0F, .keyTab),
   (0x1C, .keyEnter), (0x39, .keySpace), (0x1D, .keyLeftctrl), (0x2A, .keyLeftshift),
   (0x36, .keyRightshift), (0x38, .keyLeftalt), (0x3A, .keyCapslock), (0x45, .keyNumlock),
   (0x46, .keyScrolllock), (0x0C, .keyMinus), (0x0D, .keyEqual), (0x1A, .keyLeftbrace),
   (0x1B, .keyRightbrace), (0x27, .keySemicolon), (0x28, .keyApostrophe), (0x29, .keyGrave),
   (0x2B, .keyBackslash), (0x33, .keyComma), (0x34, .keyDot), (0x35, .keySlash), (0x47, .keyKp7),
   (0x48, .keyKp8), (0x49, .keyKp9), (0x4A, .keyKpminus), (0x4B, .keyKp4), (0x4C, .keyKp5),
   (0x4D, .keyKp6), (0x4E, .keyKpplus), (0x4F, .keyKp1), (0x50, .keyKp2), (0x51, .keyKp3),
   (0x52, .keyKp0), (0x53, .keyKpdot)]

def extendedScancodeToKeycode : UInt8 → Keycode := assigned
  [(0x48, .keyUp), (0x50, .keyDown), (0x4B, .keyLeft), (0x4D, .keyRight), (0x47, .keyHome),
   (0x4F, .keyEnd), (0x49, .keyPageup), (0x51, .keyPagedown), (0x52, .keyInsert),
   (0x53, .keyDelete), (0x1D, .keyRightctrl), (0x38, .keyRightalt), (0x5B, .keyLeftmeta),
   (0x5C, .keyRightmeta), (0x5D, .keyCompose), (0x35, .keyKpslash), (0x1C, .keyKpenter),
   (0x22, .keyMute), (0x24, .keyVolumedown), (0x2E, .keyVolumeup), (0x20, .keyMediaMute),
   (0x30, .keyMediaVolumeup), (0x2E, .keyMediaVolumedown), (0x19, .keyMediaNext),
   (0x10, .keyMediaPrev), (0x24, .keyMediaStop), (0x22, .keyMediaPlaypause), (0x5E, .keyPower),
   (0x5F, .keySleep), (0x63, .keyWakeup)]

/-! ## The handler -/

inductive ScanState where
  | normal
  | extendedE0
  | extendedE1
  deriving DecidableEq, Repr, Inhabited

/-- The byte in the data port at an interrupt, and `ns_elapsed_time` then. -/
structure Irq where
  scancode : UInt8
  now : UInt64
  deriving DecidableEq, Repr

/-- The event of a key, if there is one. -/
def keyEvent (kc : Keycode) (pressed : Bool) (now : UInt64) : Option KeyEvent :=
  if kc = .keyNone then none
  else some ⟨kc.code, if pressed then .pressed else .released, now⟩

/-- `ps2k_interrupt_handler` up to the call of `buffer_push`: the new `current_scan_state`, and
the event that is pushed. -/
def decode (state : ScanState) (irq : Irq) : ScanState × Option KeyEvent :=
  if irq.scancode = 0xE0 then (.extendedE0, none)
  else if irq.scancode = 0xE1 then (.extendedE1, none)
  else
    let pressed : Bool := irq.scancode &&& 0x80 = 0
    let scancode := irq.scancode &&& 0x7F
    match state with
    | .extendedE0 => (.normal, keyEvent (extendedScancodeToKeycode scancode) pressed irq.now)
    | .extendedE1 => (.normal, none)
    | .normal => (.normal, keyEvent (scancodeToKeycode scancode) pressed irq.now)

section Handler

variable {σ : Type} (call : Nat → KeyEvent → Nat → σ → σ)

structure Driver (σ : Type) where
  currentScanState : ScanState
  evbuf : EventBuffer
  world : σ

def ps2kInterruptHandler (d : Driver σ) (irq : Irq) : Driver σ :=
  match decode d.currentScanState irq with
  | (state, none) => { d with currentScanState := state }
  | (state, some ev) =>
    let (_, evbuf, world) := bufferPush call d.evbuf d.world ev
    ⟨state, evbuf, world⟩

/-- One interrupt after another. -/
def interrupts (d : Driver σ) (irqs : List Irq) : Driver σ :=
  irqs.foldl (ps2kInterruptHandler call) d

/-- One event after another. -/
def pushAll (evbuf : EventBuffer) (world : σ) (evs : List KeyEvent) : EventBuffer × σ :=
  evs.foldl (fun s ev => (bufferPush call s.1 s.2 ev).2) (evbuf, world)

end Handler

/-- The state after some bytes, and the events that were pushed. -/
def decodeAll : ScanState → List Irq → ScanState × List KeyEvent
  | state, [] => (state, [])
  | state, irq :: irqs =>
    let (state, ev) := decode state irq
    let (state, evs) := decodeAll state irqs
    (state, ev.toList ++ evs)

theorem decodeAll_cons (state : ScanState) (irq : Irq) (irqs : List Irq) :
    decodeAll state (irq :: irqs) =
      ((decodeAll (decode state irq).1 irqs).1,
        (decode state irq).2.toList ++ (decodeAll (decode state irq).1 irqs).2) := rfl

section Handler

variable {σ : Type} (call : Nat → KeyEvent → Nat → σ → σ)

theorem ps2kInterruptHandler_eq (d : Driver σ) (irq : Irq) :
    ps2kInterruptHandler call d irq =
      let pushed := pushAll call d.evbuf d.world (decode d.currentScanState irq).2.toList
      ⟨(decode d.currentScanState irq).1, pushed.1, pushed.2⟩ := by
  unfold ps2kInterruptHandler
  rcases decode d.currentScanState irq with ⟨state, _ | ev⟩ <;> rfl

theorem interrupts_eq (d : Driver σ) (irqs : List Irq) :
    interrupts call d irqs =
      let pushed := pushAll call d.evbuf d.world (decodeAll d.currentScanState irqs).2
      ⟨(decodeAll d.currentScanState irqs).1, pushed.1, pushed.2⟩ := by
  induction irqs generalizing d with
  | nil => rfl
  | cons irq irqs ih =>
    change interrupts call (ps2kInterruptHandler call d irq) irqs = _
    rw [ih, ps2kInterruptHandler_eq, decodeAll_cons]
    simp only [pushAll, foldl_append]

end Handler

/-- The key and the state of an event. -/
def KeyEvent.what (ev : KeyEvent) : UInt16 × KeyState := (ev.keycode, ev.state)

theorem decode_time (state : ScanState) {irq irq' : Irq} (h : irq.scancode = irq'.scancode) :
    (decode state irq).1 = (decode state irq').1 ∧
      (decode state irq).2.map KeyEvent.what = (decode state irq').2.map KeyEvent.what := by
  unfold decode keyEvent
  rw [h]
  split_ifs
  · exact ⟨rfl, rfl⟩
  · exact ⟨rfl, rfl⟩
  · cases state with
    | normal => exact ⟨rfl, by simp only; split_ifs <;> rfl⟩
    | extendedE0 => exact ⟨rfl, by simp only; split_ifs <;> rfl⟩
    | extendedE1 => exact ⟨rfl, rfl⟩

theorem decodeAll_time {state : ScanState} {irqs irqs' : List Irq}
    (h : irqs.map Irq.scancode = irqs'.map Irq.scancode) :
    (decodeAll state irqs).1 = (decodeAll state irqs').1 ∧
      (decodeAll state irqs).2.map KeyEvent.what = (decodeAll state irqs').2.map KeyEvent.what := by
  induction irqs generalizing state irqs' with
  | nil =>
    rw [map_nil, eq_comm, map_eq_nil_iff] at h
    rw [h]
    exact ⟨rfl, rfl⟩
  | cons irq irqs ih =>
    cases irqs' with
    | nil => simp at h
    | cons irq' irqs' =>
      rw [map_cons, map_cons, List.cons.injEq] at h
      obtain ⟨hstate, hev⟩ := decode_time state h.1
      obtain ⟨hstates, hevs⟩ := @ih (decode state irq).1 irqs' h.2
      simp only [decodeAll_cons, map_append, ← hstate, ← Option.toList_map]
      rw [hev, hevs]
      exact ⟨hstates, rfl⟩

/-! ## Whole sequences -/

/-- A byte that makes or breaks a key, alone or after 0xE0. -/
abbrev Code := { c : UInt8 // c ≠ 0xE0 ∧ c ≠ 0xE1 }

inductive Sequence where
  | plain (code : Code)
  | extended (code : Code)
  | pause
  deriving DecidableEq

def Sequence.bytes : Sequence → List UInt8
  | .plain code => [code]
  | .extended code => [0xE0, code]
  | .pause => [0xE1, 0x1D, 0x45, 0xE1, 0x9D, 0xC5]

/-- A sequence with the interrupts that brought its bytes. -/
structure Sent where
  sequence : Sequence
  irqs : List Irq
  bytes : irqs.map Irq.scancode = sequence.bytes

/-- What a code byte says under a map: the key, and whether it was pressed. -/
def mapped (map : UInt8 → Keycode) (code : UInt8) : List (UInt16 × KeyState) :=
  if map (code &&& 0x7F) = .keyNone then []
  else [((map (code &&& 0x7F)).code, if code &&& 0x80 = 0 then .pressed else .released)]

/-- The events that a sequence stands for. Those of Pause, if there are any, are of its own key. -/
def Sequence.Means (evs : List (UInt16 × KeyState)) : Sequence → Prop
  | .plain code => evs = mapped scancodeToKeycode code
  | .extended code => evs = mapped extendedScancodeToKeycode code
  | .pause => ∀ ev ∈ evs, ev.1 = Keycode.keyPause.code

/-- The state after some sequences, and the events that were pushed for each of them. -/
def decodeEach : ScanState → List Sent → ScanState × List (List KeyEvent)
  | state, [] => (state, [])
  | state, s :: rest =>
    let (state, evs) := decodeAll state s.irqs
    let (state, pieces) := decodeEach state rest
    (state, evs :: pieces)

/-- Each sequence pushes the events it stands for and leaves the decoder in its normal state. -/
def Decoded : ScanState → List Sent → Prop
  | _, [] => True
  | state, s :: rest =>
    s.sequence.Means ((decodeAll state s.irqs).2.map KeyEvent.what) ∧
      (decodeAll state s.irqs).1 = .normal ∧ Decoded (decodeAll state s.irqs).1 rest

/-! ## What is decoded -/

theorem decodeAll_append (state : ScanState) (irqs irqs' : List Irq) :
    decodeAll state (irqs ++ irqs') =
      ((decodeAll (decodeAll state irqs).1 irqs').1,
        (decodeAll state irqs).2 ++ (decodeAll (decodeAll state irqs).1 irqs').2) := by
  induction irqs generalizing state with
  | nil => rfl
  | cons irq irqs ih => simp only [cons_append, decodeAll_cons, ih, append_assoc]

theorem decodeAll_flatMap (state : ScanState) (stream : List Sent) :
    decodeAll state (stream.flatMap Sent.irqs) =
      ((decodeEach state stream).1, (decodeEach state stream).2.flatten) := by
  induction stream generalizing state with
  | nil => rfl
  | cons s stream ih =>
    rw [flatMap_cons, decodeAll_append, ih]
    rfl

/-- The bytes of a sequence, all at one time. -/
def Sequence.irqs (s : Sequence) : List Irq := s.bytes.map fun b => ⟨b, 0⟩

theorem Sent.decodeAll_eq (s : Sent) (state : ScanState) :
    (decodeAll state s.irqs).1 = (decodeAll state s.sequence.irqs).1 ∧
      (decodeAll state s.irqs).2.map KeyEvent.what =
        (decodeAll state s.sequence.irqs).2.map KeyEvent.what := by
  apply decodeAll_time
  rw [s.bytes, Sequence.irqs, List.map_map]
  exact (List.map_id _).symm

theorem keyEvent_what (map : UInt8 → Keycode) (code : UInt8) (now : UInt64) :
    (keyEvent (map (code &&& 0x7F)) (code &&& 0x80 = 0) now).toList.map KeyEvent.what =
      mapped map code := by
  unfold keyEvent mapped
  split_ifs <;> simp_all [KeyEvent.what]

theorem decodeAll_plain (code : Code) :
    (decodeAll .normal (Sequence.plain code).irqs).1 = .normal ∧
      (Sequence.plain code).Means
        ((decodeAll .normal (Sequence.plain code).irqs).2.map KeyEvent.what) := by
  simp only [Sequence.irqs, Sequence.bytes, map_cons, map_nil, decodeAll_cons, decode,
    if_neg code.2.1, if_neg code.2.2, decodeAll, append_nil]
  exact ⟨trivial, keyEvent_what _ _ _⟩

theorem decodeAll_extended (code : Code) :
    (decodeAll .normal (Sequence.extended code).irqs).1 = .normal ∧
      (Sequence.extended code).Means
        ((decodeAll .normal (Sequence.extended code).irqs).2.map KeyEvent.what) := by
  simp only [Sequence.irqs, Sequence.bytes, map_cons, map_nil, decodeAll_cons, decode,
    if_neg code.2.1, if_neg code.2.2, if_true, decodeAll, append_nil, Option.toList_none,
    nil_append]
  exact ⟨trivial, keyEvent_what _ _ _⟩

theorem decodeAll_pause :
    (decodeAll .normal Sequence.pause.irqs).2.map KeyEvent.what =
      [(Keycode.keyNumlock.code, .pressed), (Keycode.keyNumlock.code, .released)] := by
  decide

/-- The interrupts push what is decoded from each sequence, in order. This is what the sequences
stand for, with the decoder back in its normal state after each, exactly where none of them is
Pause. -/
theorem decoded_iff_no_pause {σ : Type} (call : Nat → KeyEvent → Nat → σ → σ)
    (evbuf : EventBuffer) (world : σ) (stream : List Sent) :
    (interrupts call ⟨.normal, evbuf, world⟩ (stream.flatMap Sent.irqs) =
      let pushed := pushAll call evbuf world (decodeEach .normal stream).2.flatten
      ⟨(decodeEach .normal stream).1, pushed.1, pushed.2⟩) ∧
      (Decoded .normal stream ↔ ∀ s ∈ stream, s.sequence ≠ .pause) := by
  refine ⟨by rw [interrupts_eq, decodeAll_flatMap], ?_⟩
  induction stream with
  | nil => simp [Decoded]
  | cons s stream ih =>
    obtain ⟨hstate, hevs⟩ := s.decodeAll_eq .normal
    rw [Decoded, forall_mem_cons, hevs, hstate]
    cases hs : s.sequence with
    | plain code =>
      obtain ⟨hnormal, hmeans⟩ := decodeAll_plain code
      simp [hnormal, hmeans, ih]
    | extended code =>
      obtain ⟨hnormal, hmeans⟩ := decodeAll_extended code
      simp [hnormal, hmeans, ih]
    | pause =>
      have hnumlock : ¬ Sequence.pause.Means
          ((decodeAll .normal Sequence.pause.irqs).2.map KeyEvent.what) := by
        rw [decodeAll_pause]
        intro h
        exact absurd (h _ mem_cons_self) (by decide)
      simp [hnumlock]

/-- Pause alone. -/
theorem pause_not_decoded :
    ¬ Decoded .normal [⟨.pause, Sequence.pause.irqs, by decide⟩] := by
  unfold Decoded
  rw [decodeAll_pause]
  rintro ⟨h, -⟩
  exact absurd (h _ mem_cons_self) (by decide)

end Terrakernel.Ps2k
