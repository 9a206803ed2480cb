import Terrakernel.Ps2m.Code

/-!
# Where the mouse goes

The position follows the packets and stops at the edges of the screen, at the right and the lower
one with a step too far. A movement of -256 is taken for none.
-/

namespace Terrakernel

variable {s : Ps2m} {screen : Screen} {p : Packet} {pos : Position}

/-- The position is on the screen. -/
def Screen.Holds (screen : Screen) (pos : Position) : Prop :=
  (0 ≤ pos.x ∧ pos.x < screen.width) ∧ 0 ≤ pos.y ∧ pos.y < screen.height

instance (screen : Screen) (pos : Position) : Decidable (screen.Holds pos) :=
  inferInstanceAs (Decidable (_ ∧ _))

/-! ## What a packet says -/

namespace Packet

open Ps2m

/-- The value of nine bits in two's complement, the sign apart. -/
def nineBit (negative : Bool) (b : UInt8) : Int := if negative then b.toNat - 256 else b.toNat

def xNegative (p : Packet) : Bool := p.b0 &&& ps2XSign ≠ 0
def yNegative (p : Packet) : Bool := p.b0 &&& ps2YSign ≠ 0

def dx (p : Packet) : Int := nineBit p.xNegative p.b1
def dy (p : Packet) : Int := nineBit p.yNegative p.b2

def NoOverflow (p : Packet) : Prop := p.b0 &&& ps2XOverflow = 0 ∧ p.b0 &&& ps2YOverflow = 0

instance (p : Packet) : Decidable p.NoOverflow := inferInstanceAs (Decidable (_ ∧ _))

/-- The nearest coordinate on the screen. -/
def clamp (size x : Int) : Int := max 0 (min x (size - 1))

/-- Where the packet is meant to bring the pointer. -/
def move (p : Packet) (screen : Screen) (pos : Position) : Position :=
  ⟨clamp screen.width (pos.x + p.dx), clamp screen.height (pos.y - p.dy)⟩

theorem clamp_bounds {size : Int} (x : Int) (h : 0 < size) :
    0 ≤ clamp size x ∧ clamp size x < size := by
  unfold clamp
  omega

theorem move_holds (p : Packet) (screen : Screen) (pos : Position) :
    screen.Holds (p.move screen pos) :=
  ⟨clamp_bounds _ screen.width_pos, clamp_bounds _ screen.height_pos⟩

end Packet

namespace Ps2m

open Packet

/-! ## One packet -/

/-- `process_mouse` with this packet in `mouse_packet`. -/
def process (screen : Screen) (s : Ps2m) (p : Packet) : Ps2m :=
  processMouse screen { s with packet := p, packetReady := true }

theorem process_pos (screen : Screen) (s : Ps2m) (p : Packet) :
    (s.process screen p).pos =
      ⟨keepOn screen.width (moveX p.b0 p.b1 s.pos.x).2,
       keepOn screen.height (moveY p.b0 p.b2 s.pos.y).2⟩ := rfl

theorem int_of_small {x : Int} (h : -2 ^ 31 ≤ x ∧ x < 2 ^ 31) : int x = x := by
  unfold int Int.bmod
  dsimp only
  split <;> omega

theorem int_of_large {x : Int} (h : 2 ^ 31 ≤ x ∧ x < 2 ^ 32) : int x < 0 := by
  unfold int Int.bmod
  dsimp only
  split <;> omega

theorem toNat_negated (b : UInt8) :
    (UInt8.ofNat (256 - b.toNat)).toNat = if b = 0 then 0 else 256 - b.toNat := by
  have hlt := b.toNat_lt
  by_cases h : b = 0
  · subst h
    rfl
  · have hpos : b.toNat ≠ 0 := fun h0 => h (UInt8.toNat_inj.mp h0)
    rw [if_neg h, UInt8.toNat_ofNat']
    omega

theorem keepOn_add {size x : Int} {n : Nat} (hx : 0 ≤ x ∧ x < size) (hsize : size < 2 ^ 31)
    (hn : n ≤ 256) :
    keepOn size (int (x + n)) = clamp size (x + n) ↔ x + n < size := by
  unfold keepOn clamp
  by_cases h : x + n < 2 ^ 31
  · rw [int_of_small (by omega)]
    dsimp only
    split <;> split <;> omega
  · -- The sum wraps: the pointer jumps to the other edge of a very large screen.
    have := @int_of_large (x + n) (by omega)
    dsimp only
    split <;> split <;> omega

theorem keepOn_sub {size x : Int} {n : Nat} (hx : 0 ≤ x ∧ x < size) (hsize : size < 2 ^ 31)
    (hn : n ≤ 256) : keepOn size (int (x - n)) = clamp size (x - n) := by
  unfold keepOn clamp
  rw [int_of_small (by omega)]
  dsimp only
  split <;> split <;> omega

/-- Where the movement in x is followed. -/
def FollowsX (screen : Screen) (pos : Position) (p : Packet) : Prop :=
  if p.xNegative ∧ p.b1 = 0 then pos.x = 0 else pos.x + p.dx < screen.width

def FollowsY (screen : Screen) (pos : Position) (p : Packet) : Prop :=
  if p.yNegative ∧ p.b2 = 0 then pos.y = screen.height - 1 else pos.y - p.dy < screen.height

instance (screen : Screen) (pos : Position) (p : Packet) : Decidable (FollowsX screen pos p) :=
  inferInstanceAs (Decidable (ite _ _ _))

instance (screen : Screen) (pos : Position) (p : Packet) : Decidable (FollowsY screen pos p) :=
  inferInstanceAs (Decidable (ite _ _ _))

theorem moveX_follows (hpos : screen.Holds pos) (hno : p.NoOverflow) :
    keepOn screen.width (moveX p.b0 p.b1 pos.x).2 = clamp screen.width (pos.x + p.dx) ↔
      FollowsX screen pos p := by
  have hlt := p.b1.toNat_lt
  unfold moveX FollowsX dx nineBit xNegative
  by_cases hsign : p.b0 &&& ps2XSign = 0
  · simp only [hsign, if_true, hno.1, ne_eq, not_true_eq_false, if_false, decide_false,
      Bool.false_eq_true, false_and]
    exact keepOn_add hpos.1 screen.width_lt (by omega)
  · simp only [hsign, if_false, hno.1, ne_eq, not_true_eq_false, not_false_eq_true, decide_true,
      true_and, if_true]
    rw [keepOn_sub hpos.1 screen.width_lt (by rw [toNat_negated]; split <;> omega), toNat_negated]
    have := hpos.1
    unfold clamp
    by_cases hzero : p.b1 = 0
    · simp only [hzero, if_true, UInt8.toNat_zero]
      omega
    · simp only [hzero, if_false]
      omega

theorem moveY_follows (hpos : screen.Holds pos) (hno : p.NoOverflow) :
    keepOn screen.height (moveY p.b0 p.b2 pos.y).2 = clamp screen.height (pos.y - p.dy) ↔
      FollowsY screen pos p := by
  have hlt := p.b2.toNat_lt
  unfold moveY FollowsY dy nineBit yNegative
  by_cases hsign : p.b0 &&& ps2YSign = 0
  · simp only [hsign, if_true, hno.2, ne_eq, not_true_eq_false, if_false, decide_false,
      Bool.false_eq_true, false_and]
    rw [keepOn_sub hpos.2 screen.height_lt (by omega)]
    have := hpos.2
    simp only [true_iff]
    omega
  · simp only [hsign, if_false, hno.2, ne_eq, not_true_eq_false, not_false_eq_true, decide_true,
      true_and, if_true]
    by_cases hzero : p.b2 = 0
    · have := hpos.2
      have hstay := @keepOn_sub screen.height pos.y 0 hpos.2 screen.height_lt (by omega)
      rw [toNat_negated, if_pos hzero, show pos.y + ((0 : Nat) : Int) = pos.y - (0 : Nat) by omega,
        hstay]
      simp only [hzero, if_true, UInt8.toNat_zero]
      unfold clamp
      omega
    · simp only [hzero, if_false]
      rw [toNat_negated, if_neg hzero, show pos.y - ((p.b2.toNat : Int) - 256) =
        pos.y + ((256 - p.b2.toNat : Nat) : Int) by omega]
      exact keepOn_add hpos.2 screen.height_lt (by omega)

theorem process_follows (hpos : screen.Holds s.pos) (hno : p.NoOverflow) :
    (s.process screen p).pos = p.move screen s.pos ↔
      FollowsX screen s.pos p ∧ FollowsY screen s.pos p := by
  rw [process_pos, ← moveX_follows hpos hno, ← moveY_follows hpos hno]
  unfold move
  rw [Position.mk.injEq]

/-! ## A sequence of packets -/

/-- The positions after each packet. -/
def positions (screen : Screen) : Ps2m → List Packet → List Position
  | _, [] => []
  | s, p :: ps => (s.process screen p).pos :: positions screen (s.process screen p) ps

/-- Where the packets are meant to bring the pointer. -/
def path (screen : Screen) : Position → List Packet → List Position
  | _, [] => []
  | pos, p :: ps => p.move screen pos :: path screen (p.move screen pos) ps

/-- Along the path no packet leads past the right or the lower edge, and one with a movement of
-256 comes only where the pointer is at the edge already. -/
def Follows (screen : Screen) : Position → List Packet → Prop
  | _, [] => True
  | pos, p :: ps =>
    (FollowsX screen pos p ∧ FollowsY screen pos p) ∧ Follows screen (p.move screen pos) ps

theorem positions_follow_iff (screen : Screen) (s : Ps2m) (ps : List Packet)
    (hpos : screen.Holds s.pos) (hno : ∀ p ∈ ps, p.NoOverflow) :
    positions screen s ps = path screen s.pos ps ↔ Follows screen s.pos ps := by
  induction ps generalizing s with
  | nil => simp [positions, path, Follows]
  | cons p ps ih =>
    have hstep := process_follows hpos (hno p (by simp))
    simp only [positions, path, Follows, List.cons.injEq]
    constructor
    · rintro ⟨hp, hps⟩
      refine ⟨hstep.mp hp, ?_⟩
      rw [← hp] at hps ⊢
      refine (ih _ ?_ fun q hq => hno q (by simp [hq])).mp hps
      rw [hp]
      exact move_holds p screen s.pos
    · rintro ⟨hp, hps⟩
      have hmoved := hstep.mpr hp
      refine ⟨hmoved, ?_⟩
      rw [← hmoved] at hps ⊢
      refine (ih _ ?_ fun q hq => hno q (by simp [hq])).mpr hps
      rw [hmoved]
      exact move_holds p screen s.pos

def smallScreen : Screen := ⟨640, 480, by decide, by decide, by decide, by decide⟩

theorem positions_follow_small :
    positions smallScreen { atBoot with pos := ⟨300, 200⟩ } [⟨0x08, 5, 7⟩, ⟨0x38, 0xFF, 0xFE⟩] =
      path smallScreen ⟨300, 200⟩ [⟨0x08, 5, 7⟩, ⟨0x38, 0xFF, 0xFE⟩] :=
  (positions_follow_iff smallScreen { atBoot with pos := ⟨300, 200⟩ } _ (by decide)
    (by decide)).mpr (by
      simp only [Follows]
      decide)

/-- At the right edge the pointer leaves the screen, and a movement of -256 is not made. -/
theorem positions_miss :
    positions smallScreen { atBoot with pos := ⟨639, 200⟩ } [⟨0x08, 1, 0⟩] = [⟨640, 200⟩] ∧
      path smallScreen ⟨639, 200⟩ [⟨0x08, 1, 0⟩] = [⟨639, 200⟩] ∧
      positions smallScreen { atBoot with pos := ⟨300, 200⟩ } [⟨0x18, 0, 0⟩] = [⟨300, 200⟩] ∧
      path smallScreen ⟨300, 200⟩ [⟨0x18, 0, 0⟩] = [⟨44, 200⟩] := by
  decide

theorem positions_bounded (screen : Screen) (s : Ps2m) (ps : List Packet) :
    ∀ pos ∈ positions screen s ps,
      (0 ≤ pos.x ∧ pos.x ≤ screen.width) ∧ 0 ≤ pos.y ∧ pos.y ≤ screen.height := by
  have hkept : ∀ {size : Int} (x : Int), 0 < size → 0 ≤ keepOn size x ∧ keepOn size x ≤ size := by
    intro size x hsize
    unfold keepOn
    dsimp only
    split <;> split <;> omega
  induction ps generalizing s with
  | nil => simp [positions]
  | cons p ps ih =>
    intro pos hpos
    rw [positions, List.mem_cons] at hpos
    rcases hpos with rfl | hpos
    · rw [process_pos]
      exact ⟨hkept _ screen.width_pos, hkept _ screen.height_pos⟩
    · exact ih _ pos hpos

/-! ## From bytes to packets -/

/-- The handler called with one byte after the other. -/
def feed (screen : Screen) (s : Ps2m) (bytes : List UInt8) : Ps2m :=
  bytes.foldl (ps2mInterruptHandler screen) s

def bytes (p : Packet) : List UInt8 := [p.b0, p.b1, p.b2]

theorem processMouse_not_ready (h : s.packetReady = false) : s.processMouse screen = s := by
  simp [processMouse, h]

theorem processMouse_ready (screen : Screen) (s : Ps2m) :
    (s.processMouse screen).packetReady = false ∧ (s.processMouse screen).cycle = s.cycle ∧
      (s.processMouse screen).skip = s.skip := by
  unfold processMouse
  split
  · exact ⟨by assumption, rfl, rfl⟩
  · exact ⟨rfl, rfl, rfl⟩

theorem feed_packet {screen : Screen} {s : Ps2m} {p : Packet} (hskip : s.skip = false)
    (hcycle : s.cycle = 0) (hp : p.b0 &&& 0b00001000 ≠ 0) :
    s.feed screen (bytes p) =
      { s.processMouse screen with packet := p, packetReady := true } := by
  obtain ⟨hready, hcycle', hskip'⟩ := processMouse_ready screen s
  rw [hcycle] at hcycle'
  rw [hskip] at hskip'
  unfold feed bytes
  generalize hs : s.processMouse screen = t at *
  obtain ⟨skip, cycle, packet, ready, pos, posOld, drawn⟩ := t
  simp only at hready hcycle' hskip'
  subst hready hcycle' hskip'
  simp only [List.foldl_cons, List.foldl_nil, ps2mInterruptHandler, hs, hp, if_false,
    Bool.false_eq_true, processMouse_not_ready]

theorem feed_packets (screen : Screen) (s : Ps2m) (ps : List Packet) (hskip : s.skip = false)
    (hcycle : s.cycle = 0) (hps : ∀ p ∈ ps, p.b0 &&& 0b00001000 ≠ 0) :
    (s.feed screen (ps.flatMap bytes)).processMouse screen =
      ps.foldl (process screen) (s.processMouse screen) := by
  induction ps generalizing s with
  | nil => rfl
  | cons p ps ih =>
    obtain ⟨-, hcycle', hskip'⟩ := processMouse_ready screen s
    have hfirst := @feed_packet screen s p hskip hcycle (hps p (by simp))
    unfold feed at hfirst ih ⊢
    rw [List.flatMap_cons, List.foldl_append, hfirst, List.foldl_cons]
    exact ih _ (by simpa [hskip] using hskip') (by simpa [hcycle] using hcycle')
      fun q hq => hps q (by simp [hq])

end Ps2m

end Terrakernel
