import Terrakernel.Pit.Code
import Mathlib.Tactic.Ring

/-!
# How long a sleep takes

A sleep waits for the whole ticks in it, and `ns_elapsed_time` counts ten milliseconds for a tick of
three and a third.
-/

namespace Terrakernel.Pit

variable {n : Nat} {wakes : List Nat} {p p' : Pit} {finalTicks : UInt64}

/-! ## Ticks during a sleep -/

theorem iterate_pitHandler (n : Nat) (p : Pit) :
    (pitHandler^[n] p).ticks = p.ticks + UInt64.ofNat n ∧
      (pitHandler^[n] p).eois = p.eois + n := by
  induction n generalizing p with
  | zero => simp
  | succ n ih =>
    rw [Function.iterate_succ_apply]
    obtain ⟨hticks, heois⟩ := ih (pitHandler p)
    refine ⟨?_, by rw [heois]; simp only [pitHandler]; omega⟩
    rw [hticks]
    simp only [pitHandler, UInt64.ofNat_add]
    ac_rfl

/-- Each `hlt` ends with one tick or with an interrupt of another device. -/
def Steady (wakes : List Nat) : Prop := ∀ n ∈ wakes, n ≤ 1

instance (wakes : List Nat) : Decidable (Steady wakes) :=
  inferInstanceAs (Decidable (∀ n ∈ wakes, n ≤ 1))

theorem Steady.tail (h : Steady (n :: wakes)) : n ≤ 1 ∧ Steady wakes :=
  ⟨h n (by simp), fun m hm => h m (by simp [hm])⟩

theorem ticks_step (hn : n ≤ 1) (hlt : p.ticks < finalTicks) :
    (pitHandler^[n] p).ticks.toNat = p.ticks.toNat + n ∧
      (pitHandler^[n] p).ticks.toNat ≤ finalTicks.toNat := by
  rw [(iterate_pitHandler n p).1, UInt64.toNat_add, UInt64.toNat_ofNat']
  rw [UInt64.lt_iff_toNat_lt] at hlt
  have := finalTicks.toNat_lt
  omega

theorem sleepLoop_steady (hsteady : Steady wakes) (hrun : sleepLoop finalTicks p wakes = some p') :
    p'.ticks.toNat = p.ticks.toNat + (finalTicks.toNat - p.ticks.toNat) ∧
      p'.eois = p.eois + (finalTicks.toNat - p.ticks.toNat) := by
  induction wakes generalizing p with
  | nil =>
    unfold sleepLoop at hrun
    split at hrun
    · simp at hrun
    · rename_i hge
      rw [UInt64.lt_iff_toNat_lt] at hge
      obtain rfl := Option.some.inj hrun
      omega
  | cons n wakes ih =>
    unfold sleepLoop at hrun
    split at hrun
    · rename_i hlt
      have hstep := ticks_step hsteady.tail.1 hlt
      have heois := (iterate_pitHandler n p).2
      have hrest := ih hsteady.tail.2 hrun
      omega
    · rename_i hge
      rw [UInt64.lt_iff_toNat_lt] at hge
      obtain rfl := Option.some.inj hrun
      omega

theorem sleepLoop_returns {finalTicks : UInt64} {wakes : List Nat} {p : Pit}
    (hsteady : Steady wakes) (henough : finalTicks.toNat - p.ticks.toNat ≤ wakes.sum) :
    ∃ p', sleepLoop finalTicks p wakes = some p' := by
  induction wakes generalizing p with
  | nil =>
    have hge : ¬ p.ticks < finalTicks := by
      rw [UInt64.lt_iff_toNat_lt]
      simp at henough
      omega
    exact ⟨p, by simp [sleepLoop, hge]⟩
  | cons n wakes ih =>
    unfold sleepLoop
    split
    · rename_i hlt
      have hstep := ticks_step hsteady.tail.1 hlt
      apply ih hsteady.tail.2
      simp only [List.sum_cons] at henough
      omega
    · exact ⟨p, rfl⟩

/-! ## `sleep_ms` -/

/-- The ticks a sleep waits for: none where the last of them would be past the counter's range. -/
def waits (start ms : UInt64) : Nat :=
  let blockingTicks := ms.toNat * pitFrequency.toNat / 1000
  if start.toNat + blockingTicks < 2 ^ 64 then blockingTicks else 0

theorem sleepMs_eq (p : Pit) (ms : UInt64) (wakes : List Nat)
    (hms : ms.toNat * pitFrequency.toNat < 2 ^ 64) :
    ∃ finalTicks : UInt64, sleepMs p ms wakes = sleepLoop finalTicks p wakes ∧
      finalTicks.toNat - p.ticks.toNat = waits p.ticks ms := by
  have hfreq : pitFrequency ≠ 0 := by decide
  refine ⟨p.ticks + safeDiv (ms * pitFrequency) 1000, by simp [sleepMs, hfreq], ?_⟩
  have hblocking : (safeDiv (ms * pitFrequency) 1000).toNat =
      ms.toNat * pitFrequency.toNat / 1000 := by
    simp only [safeDiv, show (1000 : UInt64) ≠ 0 by decide, if_false, UInt64.toNat_div,
      UInt64.toNat_mul, Nat.mod_eq_of_lt hms]
    rfl
  have := p.ticks.toNat_lt
  unfold waits
  rw [UInt64.toNat_add, hblocking]
  dsimp only
  split <;> omega

theorem sleepMs_steady {ms : UInt64} (hms : ms.toNat * pitFrequency.toNat < 2 ^ 64)
    (hsteady : Steady wakes) (hrun : sleepMs p ms wakes = some p') :
    p'.ticks.toNat = p.ticks.toNat + waits p.ticks ms ∧ p'.eois = p.eois + waits p.ticks ms := by
  obtain ⟨finalTicks, heq, hwaits⟩ := sleepMs_eq p ms wakes hms
  rw [heq] at hrun
  rw [← hwaits]
  exact sleepLoop_steady hsteady hrun

theorem sleepMs_zero (p : Pit) (wakes : List Nat) : sleepMs p 0 wakes = some p := by
  have hfinal : safeDiv (0 * pitFrequency) 1000 = 0 := by decide
  have hfreq : pitFrequency ≠ 0 := by decide
  unfold sleepMs
  simp only [hfreq, if_false, hfinal, UInt64.add_zero]
  cases wakes <;> simp [sleepLoop]

/-! ## Timekeeping -/

/-- Between `before` and `after`, the timer's interrupts make up `ms` milliseconds at least, and
what `ns_elapsed_time` went up by is the same time, to less than two periods. -/
def Timely (ms : UInt64) (before after : Pit) : Prop :=
  let increase := (after.nsElapsedTime - before.nsElapsedTime).toNat
  ms.toNat * pitFrequency.toNat ≤ 1000 * (after.eois - before.eois) ∧
    ms.toNat * 10 ^ 6 ≤ increase ∧
    increase * pitFrequency.toNat < ms.toNat * 10 ^ 6 * pitFrequency.toNat + 2 * 10 ^ 9

instance (ms : UInt64) (before after : Pit) : Decidable (Timely ms before after) :=
  inferInstanceAs (Decidable (_ ∧ _ ∧ _))

theorem timely_refl (p : Pit) : Timely 0 p p := by
  unfold Timely
  simp [pitFrequency]

theorem increase_eq {before after : Pit} (h : after.ticks.toNat = before.ticks.toNat + n) :
    (after.nsElapsedTime - before.nsElapsedTime).toNat = n * 10 ^ 7 % 2 ^ 64 := by
  unfold nsElapsedTime
  rw [UInt64.toNat_sub, UInt64.toNat_mul, UInt64.toNat_mul, h]
  simp only [UInt64.toNat_ofNat]
  omega

theorem increase_ne {ms ticks : Nat} (hslept : ms * 300 ≤ 1000 * ticks)
    (hticks : ticks ≤ ms * 300 / 1000) (hlow : ms * 10 ^ 6 ≤ ticks * 10 ^ 7 % 2 ^ 64)
    (hhigh : ticks * 10 ^ 7 % 2 ^ 64 * 300 < ms * 10 ^ 6 * 300 + 2 * 10 ^ 9) : ms = 0 := by
  have hexact : 3 * ms = 10 * ticks := by omega
  clear hslept hticks
  obtain ⟨j, rfl, rfl⟩ : ∃ j, ms = 10 * j ∧ ticks = 3 * j := ⟨ms / 10, by omega, by omega⟩
  -- `q` is how often the counter wrapped. The increase is below `2 ^ 64`, so that was at most twice.
  obtain ⟨q, hq⟩ : ∃ q, q = 3 * j * 10 ^ 7 / 2 ^ 64 := ⟨_, rfl⟩
  have hle : q ≤ 2 := by omega
  obtain rfl | rfl | rfl : q = 0 ∨ q = 1 ∨ q = 2 := by omega
  all_goals omega

theorem waits_le (start ms : UInt64) :
    waits start ms ≤ ms.toNat * pitFrequency.toNat / 1000 := by
  unfold waits
  dsimp only
  split <;> omega

theorem sleep_timely_iff (p : Pit) (ms : UInt64)
    (hms : ms.toNat * pitFrequency.toNat < 2 ^ 64) :
    (∀ wakes p', Steady wakes → sleepMs p ms wakes = some p' → (Timely ms p p' ↔ ms = 0)) ∧
      (ms = 0 → ∀ wakes p', sleepMs p ms wakes = some p' → Timely ms p p') ∧
      ∃ wakes p', Steady wakes ∧ sleepMs p ms wakes = some p' := by
  have hzero : ms = 0 → ∀ wakes p', sleepMs p ms wakes = some p' → Timely ms p p' := by
    rintro rfl wakes p' hrun
    rw [sleepMs_zero] at hrun
    obtain rfl := Option.some.inj hrun
    exact timely_refl p
  refine ⟨?_, hzero, ?_⟩
  · intro wakes p' hsteady hrun
    refine ⟨?_, fun h => hzero h wakes p' hrun⟩
    obtain ⟨hticks, heois⟩ := sleepMs_steady hms hsteady hrun
    rintro ⟨hslept, hlow, hhigh⟩
    rw [increase_eq hticks] at hlow hhigh
    rw [heois, Nat.add_sub_cancel_left] at hslept
    have hzero := increase_ne hslept (waits_le p.ticks ms) hlow hhigh
    exact UInt64.toNat_inj.mp hzero
  · have hsteady : Steady (List.replicate (waits p.ticks ms) 1) := by
      intro n hn
      exact Nat.le_of_eq (List.eq_of_mem_replicate hn)
    obtain ⟨finalTicks, heq, hwaits⟩ :=
      sleepMs_eq p ms (List.replicate (waits p.ticks ms) 1) hms
    obtain ⟨p', hp'⟩ := @sleepLoop_returns finalTicks _ p hsteady (by simp [hwaits])
    exact ⟨_, p', hsteady, by rw [heq, hp']⟩

/-- The timer as `initialise` leaves it, before the first tick. -/
def started : Pit := initialise ⟨⟨0, none⟩, 0, 0⟩

theorem sleep_timely_started :
    (1 : UInt64).toNat * pitFrequency.toNat < 2 ^ 64 ∧ ¬ Timely 1 started started :=
  ⟨by decide, fun h => absurd
    (((sleep_timely_iff started 1 (by decide)).1 [] started (by decide) (by decide)).mp h)
    (by decide)⟩

/-- One millisecond is no wait, and ten are three ticks that are counted as thirty. -/
theorem sleep_not_timely :
    sleepMs started 1 [] = some started ∧ ¬ Timely 1 started started ∧
      ∃ after, sleepMs started 10 [1, 1, 1] = some after ∧ after.eois = 3 ∧
        after.nsElapsedTime = 30 * 1000000 ∧ ¬ Timely 10 started after := by
  refine ⟨by decide, by decide, pitHandler^[3] started, by decide, by decide, by decide, by decide⟩

end Terrakernel.Pit
