import Mathlib.Algebra.Order.Group.Nat
import Terrakernel.Ata.Code

/-!
# What a transfer asks for and moves

The drive is given the low 16 bits of the count, and takes 0 for 65536. With a count of 0 nobody
moves its sectors, and with more than 65536 the driver waits for words that never come.
-/

namespace Terrakernel.Ata

open Memory Function

variable {s : Ata} {fuel : Nat}

open AtaDevice

/-! ## What is meant -/

/-- Word `k` of the command, where it comes from. -/
def wordOf (s₀ : Ata) (buffer : Nat) (cmd : AtaCommand) (k : Nat) : UInt16 :=
  if cmd.isWrite then .ofNat (load s₀.mem (buffer + 2 * k) 2)
  else s₀.device.disk (256 * cmd.lba + k)

/-- Since `s₀` this command was given and its first `j` words were moved, in order, and nothing
else. -/
structure Moved (s₀ s : Ata) (buffer : Nat) (cmd : AtaCommand) (j : Nat) : Prop where
  commands : s.device.commands = s₀.device.commands ++ [cmd]
  moved : s.device.moved = s₀.device.moved ++ (List.range j).map (wordOf s₀ buffer cmd)
  written : cmd.isWrite = true → s.mem = s₀.mem ∧
    (∀ k < j, s.device.disk (256 * cmd.lba + k) = wordOf s₀ buffer cmd k) ∧
    ∀ a, a < 256 * cmd.lba ∨ 256 * cmd.lba + j ≤ a → s.device.disk a = s₀.device.disk a
  read : cmd.isWrite = false → s.device.disk = s₀.device.disk ∧
    (∀ k < j, load s.mem (buffer + 2 * k) 2 = (wordOf s₀ buffer cmd k).toNat) ∧
    ∀ x, x < buffer ∨ buffer + 2 * j ≤ x → s.mem x = s₀.mem x

/-- Either no command is given, or it is for these sectors, all their words are moved and the
transfer returns their size. The loops have as many looks at the status as they need. -/
def Meets (s : Ata) (lba sectorCount buffer : Nat) (isWriteOp : Bool) : Prop :=
  ∃ looks, ∀ fuel, looks ≤ fuel →
    match ataTransfer fuel s lba sectorCount buffer isWriteOp with
    | .done (size, s') => s'.device.commands = s.device.commands ∨
        Moved s s' buffer ⟨isWriteOp, lba, sectorCount⟩ (256 * sectorCount) ∧
          size = 512 * sectorCount
    | .waiting s' => s'.device.commands = s.device.commands

/-! ## The task file -/

/-- The sectors the drive is asked for. -/
def asked (sectorCount : Nat) : Nat :=
  if sectorCount % 65536 = 0 then 65536 else sectorCount % 65536

theorem toNat_lbaByte (lba i : Nat) : (lbaByte lba i).toNat = lba / 2 ^ (8 * i) % 2 ^ 8 := by
  unfold lbaByte
  rw [show (lba >>> (8 * i)) &&& 0xFF = (lba >>> (8 * i)) % 2 ^ 8 from
    Nat.and_two_pow_sub_one_eq_mod _ 8, UInt8.toNat_ofNat', Nat.mod_mod,
    Nat.shiftRight_eq_div_pow]

theorem toNat_sectorByte (n i : Nat) : (sectorByte n i).toNat = n / 2 ^ (8 * i) % 2 ^ 8 :=
  toNat_lbaByte n i

theorem program_eq (d : AtaDevice) {lba : Nat} (hlba : lba < 2 ^ 48) (sectorCount : Nat)
    (isWriteOp : Bool) :
    (program d lba sectorCount isWriteOp).commands =
        d.commands ++ [⟨isWriteOp, lba, asked sectorCount⟩] ∧
      (program d lba sectorCount isWriteOp).writing = isWriteOp ∧
      (program d lba sectorCount isWriteOp).next = 256 * lba ∧
      (program d lba sectorCount isWriteOp).remaining = 256 * asked sectorCount ∧
      (program d lba sectorCount isWriteOp).busy = d.delay (256 * asked sectorCount) ∧
      (program d lba sectorCount isWriteOp).delay = d.delay ∧
      (program d lba sectorCount isWriteOp).disk = d.disk ∧
      (program d lba sectorCount isWriteOp).moved = d.moved := by
  obtain ⟨d', hlba', hsectors, hrun, hsame⟩ : ∃ d', AtaDevice.lba d' = lba ∧
      d'.sectors = asked sectorCount ∧ program d lba sectorCount isWriteOp =
        d'.outb ataCommand (if isWriteOp then ataCmdWritePioExt else ataCmdReadPioExt) ∧
      d'.commands = d.commands ∧ d'.delay = d.delay ∧ d'.disk = d.disk ∧ d'.moved = d.moved := by
    refine ⟨_, ?_, ?_, rfl, rfl, rfl, rfl, rfl⟩
    · show (lbaByte lba 0).toNat + 2 ^ 8 * (lbaByte lba 1).toNat + 2 ^ 16 * (lbaByte lba 2).toNat +
        2 ^ 24 * (lbaByte lba 3).toNat + 2 ^ 32 * (lbaByte lba 4).toNat +
        2 ^ 40 * (lbaByte lba 5).toNat = lba
      simp only [toNat_lbaByte]
      omega
    · show (if (sectorByte sectorCount 0).toNat + 2 ^ 8 * (sectorByte sectorCount 1).toNat = 0 then
        65536 else (sectorByte sectorCount 0).toNat + 2 ^ 8 * (sectorByte sectorCount 1).toNat) = _
      simp only [toNat_sectorByte, asked]
      rw [show sectorCount / 2 ^ (8 * 0) % 2 ^ 8 + 2 ^ 8 * (sectorCount / 2 ^ (8 * 1) % 2 ^ 8) =
        sectorCount % 65536 by omega]
  obtain ⟨hcommands, hdelay, hdisk, hmoved⟩ := hsame
  rw [hrun]
  have hport : d'.outb ataCommand (if isWriteOp then ataCmdWritePioExt else ataCmdReadPioExt) =
      d'.command (if isWriteOp then ataCmdWritePioExt else ataCmdReadPioExt) := rfl
  rw [hport]
  have hother : ataCmdReadPioExt ≠ ataCmdWritePioExt := by decide
  cases isWriteOp
  · simp only [command, hlba', hsectors, hcommands, hdelay, hdisk, hmoved]
    simp [hother]
  · simp only [command, hlba', hsectors, hcommands, hdelay, hdisk, hmoved]
    simp

/-! ## Waiting -/

/-- The drive has stopped being busy. -/
def ready (s : Ata) : Ata := { s with device := { s.device with busy := 0 } }

/-- What the status is then. -/
def readyStatus (s : Ata) : UInt8 := if 0 < s.device.remaining then 0x40 ||| ataSrDrq else 0x40

theorem inbStatus_busy {d : AtaDevice} (h : 0 < d.busy) :
    d.inbStatus = (ataSrBsy, { d with busy := d.busy - 1 }) := if_pos h

theorem inbStatus_ready {s : Ata} (h : s.device.busy = 0) :
    s.device.inbStatus = (readyStatus s, s.device) ∧ ready s = s := by
  refine ⟨?_, ?_⟩
  · unfold inbStatus readyStatus
    rw [if_neg (by omega)]
    split <;> rfl
  · obtain ⟨⟨⟩, mem⟩ := s
    simp only at h
    subst h
    rfl

section Wait

variable {enough : UInt8 → Bool} {fuel : Nat}

theorem waitStatus_done (hbusy : enough ataSrBsy = false) (hready : enough (readyStatus s) = true)
    (hfuel : s.device.busy < fuel) : waitStatus enough fuel s = .done (ready s) := by
  induction fuel generalizing s with
  | zero => omega
  | succ fuel ih =>
    unfold waitStatus
    by_cases h : 0 < s.device.busy
    · simp only [inbStatus_busy h, hbusy]
      exact ih hready (by simp only; omega)
    · obtain ⟨hstatus, hs⟩ := @inbStatus_ready s (by omega)
      simp only [hstatus, hready, if_true, hs]

theorem waitStatus_short (hbusy : enough ataSrBsy = false) {s : Ata} (hfuel : fuel ≤ s.device.busy) :
    ∃ s', waitStatus enough fuel s = .waiting s' ∧ s'.device.commands = s.device.commands := by
  induction fuel generalizing s with
  | zero => exact ⟨s, rfl, rfl⟩
  | succ fuel ih =>
    unfold waitStatus
    simp only [inbStatus_busy (show 0 < s.device.busy by omega), hbusy]
    exact @ih { s with device := { s.device with busy := s.device.busy - 1 } } (by simp only; omega)

theorem waitStatus_never (hbusy : enough ataSrBsy = false)
    (hready : enough (readyStatus s) = false) :
    ∃ s', waitStatus enough fuel s = .waiting s' ∧ s'.device.commands = s.device.commands := by
  induction fuel generalizing s with
  | zero => exact ⟨s, rfl, rfl⟩
  | succ fuel ih =>
    unfold waitStatus
    by_cases h : 0 < s.device.busy
    · simp only [inbStatus_busy h, hbusy]
      exact @ih { s with device := { s.device with busy := s.device.busy - 1 } } hready
    · simp only [(@inbStatus_ready s (by omega)).1, hready]
      exact ih hready

end Wait

theorem waitBsyClear_done (hfuel : s.device.busy < fuel) :
    waitBsyClear fuel s = .done (ready s) := by
  apply waitStatus_done (by decide) _ hfuel
  unfold readyStatus
  split <;> decide

theorem waitDrq_done (hleft : 0 < s.device.remaining) (hfuel : s.device.busy < fuel) :
    waitDrq fuel s = .done (ready s) := by
  apply waitStatus_done (by decide) _ hfuel
  rw [readyStatus, if_pos hleft]
  decide

theorem waitDrq_cases (s : Ata) (fuel : Nat) :
    (∃ s', waitDrq fuel s = .waiting s' ∧ s'.device.commands = s.device.commands) ∨
      0 < s.device.remaining ∧ waitDrq fuel s = .done (ready s) := by
  by_cases hleft : 0 < s.device.remaining
  · rcases Nat.lt_or_ge s.device.busy fuel with hfuel | hfuel
    · exact .inr ⟨hleft, waitDrq_done hleft hfuel⟩
    · exact .inl (waitStatus_short (by decide) hfuel)
  · left
    apply waitStatus_never (by decide)
    rw [readyStatus, if_neg hleft]
    decide

/-! ## Words and sectors -/

/-- `j` words of the command were moved, and the drive is at the next one. -/
structure Progress (s₀ s : Ata) (buffer : Nat) (cmd : AtaCommand) (j : Nat) : Prop
    extends Moved s₀ s buffer cmd j where
  writing : s.device.writing = cmd.isWrite
  next : s.device.next = 256 * cmd.lba + j
  remaining : s.device.remaining + j = 256 * cmd.sectors
  delay : s.device.delay = s₀.device.delay

variable {s₀ s : Ata} {buffer j : Nat} {cmd : AtaCommand}

theorem Progress.ready (h : Progress s₀ s buffer cmd j) : Progress s₀ s.ready buffer cmd j :=
  ⟨⟨h.commands, h.moved, h.written, h.read⟩, h.writing, h.next, h.remaining, h.delay⟩

theorem range_map_succ {α : Type} (f : Nat → α) (j : Nat) (l : List α) :
    l ++ (List.range j).map f ++ [f j] = l ++ (List.range (j + 1)).map f := by
  rw [List.range_succ, List.map_append, List.append_assoc]
  rfl

theorem Progress.advance (h : Progress s₀ s buffer cmd j) (hj : j < 256 * cmd.sectors)
    {s' : Ata} {moved : List UInt16} {disk : Nat → UInt16}
    (hs' : s'.device = advance { s.device with moved := moved, disk := disk })
    (hmoved : Moved s₀ s' buffer cmd (j + 1)) : Progress s₀ s' buffer cmd (j + 1) := by
  have hremaining := h.remaining
  refine ⟨hmoved, ?_, ?_, ?_, ?_⟩
  · rw [hs']
    exact h.writing
  · rw [hs']
    show s.device.next + 1 = _
    rw [h.next]
    rfl
  · rw [hs']
    show s.device.remaining - 1 + (j + 1) = _
    omega
  · rw [hs']
    exact h.delay

theorem Progress.word (h : Progress s₀ s buffer cmd j) (hbusy : s.device.busy = 0)
    (hj : j < 256 * cmd.sectors) :
    Progress s₀ (moveWord buffer cmd.isWrite s j) buffer cmd (j + 1) ∧
      (moveWord buffer cmd.isWrite s j).device.busy =
        if (256 * cmd.sectors - (j + 1)) % 256 = 0 then
          s₀.device.delay (256 * cmd.sectors - (j + 1))
        else 0 := by
  have hremaining := h.remaining
  have hleft : 0 < s.device.remaining := by omega
  have hpred : s.device.remaining - 1 = 256 * cmd.sectors - (j + 1) := by omega
  unfold moveWord
  cases hw : cmd.isWrite with
  | true =>
    obtain ⟨hmem, hdisk, hother⟩ := h.written hw
    have hvalue : UInt16.ofNat (load s.mem (buffer + 2 * j) 2) = wordOf s₀ buffer cmd j := by
      rw [wordOf, if_pos hw, hmem]
    have hout : s.device.outwData (wordOf s₀ buffer cmd j) =
        AtaDevice.advance { s.device with
          moved := s.device.moved ++ [wordOf s₀ buffer cmd j]
          disk := update s.device.disk s.device.next (wordOf s₀ buffer cmd j) } := by
      unfold outwData
      rw [if_pos ⟨h.writing.trans hw, hleft, hbusy⟩]
    simp only [if_true, hvalue, hout]
    refine ⟨h.advance hj rfl ⟨h.commands, ?_, fun _ => ⟨hmem, ?_, ?_⟩, fun hr => ?_⟩, ?_⟩
    · show s.device.moved ++ [wordOf s₀ buffer cmd j] = _
      rw [h.moved, range_map_succ]
    · intro k hk
      show update s.device.disk s.device.next _ _ = _
      rw [h.next]
      rcases Nat.lt_or_eq_of_le (Nat.lt_succ_iff.mp hk) with hlt | rfl
      · rw [update_of_ne (by omega), hdisk k hlt]
      · rw [update_self]
    · intro a ha
      show update s.device.disk s.device.next _ _ = _
      rw [h.next, update_of_ne (by omega)]
      exact hother a (by omega)
    · exact absurd (hw.symm.trans hr) (by decide)
    · simp only [AtaDevice.advance, hpred, h.delay]
  | false =>
    obtain ⟨hdisk, hread, hother⟩ := h.read hw
    have hin : s.device.inwData = (wordOf s₀ buffer cmd j,
        AtaDevice.advance { s.device with
          moved := s.device.moved ++ [wordOf s₀ buffer cmd j]
          disk := s.device.disk }) := by
      have hvalue : s.device.disk s.device.next = wordOf s₀ buffer cmd j := by
        rw [wordOf, hw, h.next, hdisk]
        rfl
      unfold inwData
      rw [if_pos ⟨h.writing.trans hw, hleft, hbusy⟩]
      simp only [hvalue]
    simp only [Bool.false_eq_true, if_false, hin]
    refine ⟨h.advance hj rfl ⟨h.commands, ?_, fun hr => ?_, fun _ => ⟨hdisk, ?_, ?_⟩⟩, ?_⟩
    · show s.device.moved ++ [wordOf s₀ buffer cmd j] = _
      rw [h.moved, range_map_succ]
    · exact absurd (hw.symm.trans hr) (by decide)
    · intro k hk
      rcases Nat.lt_or_eq_of_le (Nat.lt_succ_iff.mp hk) with hlt | rfl
      · rw [load_store_apart _ _ (by omega), hread k hlt]
      · rw [load_store_same]
        exact Nat.mod_eq_of_lt (UInt16.toNat_lt _)
    · intro x hx
      show store s.mem _ 2 _ x = _
      rw [store_outside _ _ _ _ _ (by omega)]
      exact hother x (by omega)
    · simp only [AtaDevice.advance, hpred, h.delay]

theorem Progress.sector {i : Nat} (h : Progress s₀ s buffer cmd (256 * i))
    (hbusy : s.device.busy = 0) (hi : i < cmd.sectors) :
    Progress s₀ (moveSector buffer cmd.isWrite i s) buffer cmd (256 * (i + 1)) ∧
      (moveSector buffer cmd.isWrite i s).device.busy =
        s₀.device.delay (256 * (cmd.sectors - (i + 1))) := by
  have hwords : ∀ w, w ≤ 256 →
      Progress s₀ ((List.range w).foldl (fun s w => moveWord buffer cmd.isWrite s (i * 256 + w))
        s) buffer cmd (256 * i + w) ∧
      ((List.range w).foldl (fun s w => moveWord buffer cmd.isWrite s (i * 256 + w))
        s).device.busy = if w = 256 then s₀.device.delay (256 * (cmd.sectors - (i + 1))) else 0 := by
    intro w
    induction w with
    | zero => exact fun _ => ⟨h, hbusy⟩
    | succ w ih =>
      intro hw
      obtain ⟨hp, hb⟩ := ih (by omega)
      rw [if_neg (by omega)] at hb
      have hstep := hp.word hb (by omega)
      rw [List.range_succ, List.foldl_append, List.foldl_cons, List.foldl_nil, Nat.mul_comm i]
      rw [Nat.mul_comm i] at hstep
      refine ⟨hstep.1, hstep.2.trans ?_⟩
      by_cases hlast : w + 1 = 256
      · rw [if_pos hlast, if_pos (by omega),
          show 256 * cmd.sectors - (256 * i + w + 1) = 256 * (cmd.sectors - (i + 1)) by omega]
      · rw [if_neg hlast, if_neg (by omega)]
  have hall := hwords 256 (le_refl 256)
  rw [if_pos rfl, show 256 * i + 256 = 256 * (i + 1) by omega] at hall
  exact hall

theorem Progress.sectors_done {fuel left i : Nat} (h : Progress s₀ s buffer cmd (256 * i))
    (hleft : i + left ≤ cmd.sectors) (hbusy : s.device.busy < fuel)
    (hdelay : ∀ r ≤ cmd.sectors, s₀.device.delay (256 * r) < fuel) :
    ∃ s', sectorLoop fuel buffer cmd.isWrite left i s = .done s' ∧
      Progress s₀ s' buffer cmd (256 * (i + left)) ∧ s'.device.busy < fuel := by
  induction left generalizing s i with
  | zero => exact ⟨s, rfl, h, hbusy⟩
  | succ left ih =>
    have hremaining := h.remaining
    obtain ⟨hnext, hbusy'⟩ := h.ready.sector rfl (by omega)
    obtain ⟨s', hrun, hend⟩ := ih hnext (by omega) (by rw [hbusy']; exact hdelay _ (by omega))
    refine ⟨s', ?_, by rwa [show i + (left + 1) = i + 1 + left by omega]⟩
    rw [sectorLoop, waitDrq_done (by omega) hbusy]
    exact hrun

theorem Progress.sectors_wait {fuel left i : Nat} (h : Progress s₀ s buffer cmd (256 * i))
    (hi : i ≤ cmd.sectors) (hleft : cmd.sectors < i + left) :
    ∃ s', sectorLoop fuel buffer cmd.isWrite left i s = .waiting s' ∧
      s'.device.commands = s₀.device.commands ++ [cmd] := by
  induction left generalizing s i with
  | zero => omega
  | succ left ih =>
    have hremaining := h.remaining
    rw [sectorLoop]
    rcases waitDrq_cases s fuel with ⟨s', hwait, hsame⟩ | ⟨hmore, hdone⟩
    · exact ⟨s', by rw [hwait]; rfl, hsame.trans h.commands⟩
    · rw [hdone]
      exact ih (h.ready.sector rfl (by omega)).1 (by omega) (by omega)

/-! ## The transfer -/

theorem progress_program (s : Ata) (buffer : Nat) {lba : Nat} (hlba : lba < 2 ^ 48)
    (sectorCount : Nat) (isWriteOp : Bool) :
    Progress s { s.ready with device := program s.ready.device lba sectorCount isWriteOp } buffer
      ⟨isWriteOp, lba, asked sectorCount⟩ (256 * 0) := by
  obtain ⟨hcommands, hwriting, hnext, hremaining, -, hdelay, hdisk, hmoved⟩ :=
    program_eq s.ready.device hlba sectorCount isWriteOp
  refine ⟨⟨hcommands, ?_, fun _ => ⟨rfl, by simp, fun a _ => ?_⟩, fun _ => ⟨hdisk, by simp, fun x _ => rfl⟩⟩,
    hwriting, hnext, hremaining, hdelay⟩
  · rw [hmoved]
    simp [ready]
  · exact congrFun hdisk a

theorem asked_eq {sectorCount : Nat} :
    asked sectorCount = sectorCount ↔ 1 ≤ sectorCount ∧ sectorCount ≤ 65536 := by
  unfold asked
  split <;> omega

theorem exists_looks (s : Ata) (n : Nat) :
    ∃ looks, s.device.busy < looks ∧ ∀ r ≤ n, s.device.delay (256 * r) < looks := by
  induction n with
  | zero =>
    refine ⟨s.device.busy + s.device.delay 0 + 1, by omega, fun r hr => ?_⟩
    obtain rfl : r = 0 := by omega
    simp only [Nat.mul_zero]
    omega
  | succ n ih =>
    obtain ⟨looks, hbusy, hdelay⟩ := ih
    refine ⟨looks + s.device.delay (256 * (n + 1)) + 1, by omega, fun r hr => ?_⟩
    rcases Nat.lt_or_eq_of_le hr with hlt | rfl
    · have := hdelay r (by omega)
      omega
    · omega

theorem ataTransfer_moves (s : Ata) {lba sectorCount : Nat} (buffer : Nat) (isWriteOp : Bool)
    (hlba : lba < 2 ^ 48) (hcount : asked sectorCount = sectorCount) (hbusy : s.device.busy < fuel)
    (hdelay : ∀ r ≤ sectorCount, s.device.delay (256 * r) < fuel) :
    ∃ s', ataTransfer fuel s lba sectorCount buffer isWriteOp = .done (512 * sectorCount, s') ∧
      Moved s s' buffer ⟨isWriteOp, lba, sectorCount⟩ (256 * sectorCount) := by
  have hle := (asked_eq.mp hcount).2
  have hstart := progress_program s buffer hlba sectorCount isWriteOp
  rw [hcount] at hstart
  have hbusy0 : (program s.ready.device lba sectorCount isWriteOp).busy < fuel := by
    rw [(program_eq s.ready.device hlba sectorCount isWriteOp).2.2.2.2.1, hcount]
    exact hdelay sectorCount (le_refl _)
  obtain ⟨s1, hloop, hend, hbusy1⟩ :=
    @Progress.sectors_done s _ buffer _ fuel sectorCount 0 hstart (by simp) hbusy0 hdelay
  refine ⟨s1.ready, ?_, by simpa using hend.ready.toMoved⟩
  rw [ataTransfer, waitBsyClear_done hbusy]
  simp only [AtaRun.bind]
  rw [hloop]
  simp only
  rw [waitBsyClear_done hbusy1]
  simp only [word]
  rw [Nat.mod_eq_of_lt (by omega), Nat.mul_comm]

theorem ataTransfer_waits (s : Ata) {lba sectorCount : Nat} (buffer : Nat) (isWriteOp : Bool)
    (hlba : lba < 2 ^ 48) (hcount : 65536 < sectorCount) (fuel : Nat) :
    ∃ s', ataTransfer fuel s lba sectorCount buffer isWriteOp = .waiting s' ∧
      (s.device.busy < fuel →
        s'.device.commands = s.device.commands ++ [⟨isWriteOp, lba, asked sectorCount⟩]) := by
  have hasked : asked sectorCount ≤ 65536 := by
    unfold asked
    split <;> omega
  rw [ataTransfer]
  rcases Nat.lt_or_ge s.device.busy fuel with hfuel | hfuel
  · have hstart := progress_program s buffer hlba sectorCount isWriteOp
    obtain ⟨s', hloop, hcommands⟩ :=
      @Progress.sectors_wait s _ buffer _ fuel sectorCount 0 hstart (Nat.zero_le _)
        (by simp only; omega)
    rw [waitBsyClear_done hfuel]
    simp only [AtaRun.bind]
    rw [hloop]
    exact ⟨s', rfl, fun _ => hcommands⟩
  · obtain ⟨s', hwait, -⟩ :=
      @waitStatus_short (fun status => status &&& ataSrBsy = 0) fuel (by decide) s hfuel
    exact ⟨s', by rw [waitBsyClear, hwait]; rfl, fun hlt => absurd hlt (by omega)⟩

theorem ataTransfer_zero (s : Ata) {lba : Nat} (buffer : Nat) (isWriteOp : Bool)
    (hlba : lba < 2 ^ 48) (hbusy : s.device.busy < fuel)
    (hdelay : s.device.delay (256 * 65536) < fuel) :
    ∃ s', ataTransfer fuel s lba 0 buffer isWriteOp = .done (0, s') ∧
      s'.device.commands = s.device.commands ++ [⟨isWriteOp, lba, 65536⟩] ∧
      s'.device.moved = s.device.moved := by
  have hstart := progress_program s buffer hlba 0 isWriteOp
  have hbusy0 : (program s.ready.device lba 0 isWriteOp).busy < fuel := by
    rw [(program_eq s.ready.device hlba 0 isWriteOp).2.2.2.2.1]
    exact hdelay
  refine ⟨_, ?_, hstart.ready.commands, by simpa using hstart.ready.moved⟩
  rw [ataTransfer, waitBsyClear_done hbusy]
  simp only [AtaRun.bind, sectorLoop]
  rw [waitBsyClear_done hbusy0]
  rfl

theorem ataTransfer_meets_iff (s : Ata) (lba sectorCount buffer : Nat) (isWriteOp : Bool)
    (hlba : lba < 2 ^ 48) :
    Meets s lba sectorCount buffer isWriteOp ↔ 1 ≤ sectorCount ∧ sectorCount ≤ 65536 := by
  constructor
  · rintro ⟨looks, hmeets⟩
    obtain ⟨more, hbusy, hdelay⟩ := exists_looks s 65536
    have hrun := hmeets (max looks more) (le_max_left looks more)
    have hbusy' : s.device.busy < max looks more := lt_of_lt_of_le hbusy (le_max_right looks more)
    by_contra hcount
    rcases Nat.eq_zero_or_pos sectorCount with rfl | hpos
    · obtain ⟨s', htransfer, hcommands, -⟩ := ataTransfer_zero s buffer isWriteOp hlba hbusy'
        (lt_of_lt_of_le (hdelay 65536 (le_refl _)) (le_max_right looks more))
      rw [htransfer] at hrun
      simp only [hcommands] at hrun
      rcases hrun with hnone | ⟨hmoved, -⟩
      · simp at hnone
      · simpa [hcommands] using hmoved.commands
    · have hmany : 65536 < sectorCount := by omega
      obtain ⟨s', htransfer, hcommands⟩ :=
        ataTransfer_waits s buffer isWriteOp hlba hmany (max looks more)
      rw [htransfer] at hrun
      simp [hcommands hbusy'] at hrun
  · intro hcount
    obtain ⟨looks, hbusy, hdelay⟩ := exists_looks s sectorCount
    refine ⟨looks, fun fuel hfuel => ?_⟩
    obtain ⟨s', htransfer, hmoved⟩ := ataTransfer_moves s buffer isWriteOp hlba
      (asked_eq.mpr hcount) (lt_of_lt_of_le hbusy hfuel)
      fun r hr => lt_of_lt_of_le (hdelay r hr) hfuel
    rw [htransfer]
    exact .inr ⟨hmoved, rfl⟩

/-- A drive that is never busy, with nothing on it. -/
def idleDrive : Ata :=
  ⟨⟨0, ⟨0, 0⟩, ⟨0, 0⟩, ⟨0, 0⟩, ⟨0, 0⟩, [], fun _ => 0, false, 0, 0, [], 0, fun _ => 0⟩, fun _ => 0⟩

theorem ataTransfer_meets_idleDrive : Meets idleDrive 0xABCDEF012345 65536 0x100000 true :=
  (ataTransfer_meets_iff idleDrive 0xABCDEF012345 65536 0x100000 true (by decide)).mpr (by decide)

/-- No sector, and one more than 65536. -/
theorem ataTransfer_misses :
    (∃ s', ataTransfer 1 idleDrive 5 0 0x100000 false = .done (0, s') ∧
        s'.device.commands = [⟨false, 5, 65536⟩] ∧ s'.device.moved = []) ∧
      ∀ fuel, 0 < fuel → ∃ s', ataTransfer fuel idleDrive 5 65537 0x100000 false = .waiting s' ∧
        s'.device.commands = [⟨false, 5, 1⟩] := by
  refine ⟨ataTransfer_zero idleDrive 0x100000 false (by decide) (by decide) (by decide), ?_⟩
  intro fuel hfuel
  obtain ⟨s', hwait, hcommands⟩ :=
    @ataTransfer_waits idleDrive 5 65537 0x100000 false (by decide) (by decide) fuel
  exact ⟨s', hwait, hcommands hfuel⟩

end Terrakernel.Ata
