import Mathlib.Order.Defs.LinearOrder
import Mathlib.Tactic.Common

/-!
# Mutexes and events, as `acpi/kernel_api.cpp` gives them to uACPI

A mutex and an event are one flag each, which a call that waits for it does not change.
-/

namespace Terrakernel.Acpi

inductive Status where
  | ok
  | timeout
  deriving DecidableEq, Repr

structure Mutex where
  locked : Bool
  deriving DecidableEq, Repr

structure Event where
  signaled : Bool
  deriving DecidableEq, Repr

/-! ## Waiting -/

/-- What one call reads from the clock: at its start, in its first round, and in the later ones. -/
structure Clock where
  current : UInt64
  first : UInt64
  later : List UInt64
  deriving DecidableEq, Repr

def targetNsec (timeout : UInt16) (clock : Clock) : UInt64 :=
  if timeout = 0xFFFF then 0xFFFFFFFFFFFFFFFF else clock.current + timeout.toUInt64 * 1000

/-- The loop of both functions. Nobody else runs, so it tests the same flag in each round. It is not
over where the readings end. -/
def poll (ready : Bool) (target : UInt64) : List UInt64 → Option Bool
  | [] => none
  | now :: later =>
    if now < target then if ready then some true else poll ready target later else some false

/-! ## `struct mutex` -/

def createMutex : Mutex := ⟨false⟩

def acquireMutex (m : Mutex) (timeout : UInt16) (clock : Clock) : Option Status × Mutex :=
  if timeout = 0 then (some (if m.locked then .timeout else .ok), m)
  else
    let opSuccessful := poll (!m.locked) (targetNsec timeout clock) (clock.first :: clock.later)
    (opSuccessful.map fun ok => if ok then .ok else .timeout, m)

def releaseMutex (m : Mutex) : Mutex := { m with locked := false }

/-! ## `struct event` -/

def createEvent : Event := ⟨false⟩

-- The answer without a timeout is the wrong way round.
def waitForEvent (e : Event) (timeout : UInt16) (clock : Clock) : Option Bool × Event :=
  if timeout = 0 then (some (!e.signaled), e)
  else (poll e.signaled (targetNsec timeout clock) (clock.first :: clock.later), e)

def signalEvent (e : Event) : Event := { e with signaled := true }

def resetEvent (e : Event) : Event := { e with signaled := false }

section Run

variable {σ κ ρ : Type}

/-- The calls and what they return. A call that does not return is the last. -/
def run (exec : κ → σ → Option ρ × σ) : List κ → σ → List (κ × Option ρ)
  | [], _ => []
  | call :: calls, s =>
    match exec call s with
    | (none, _) => [(call, none)]
    | (some r, s) => (call, some r) :: run exec calls s

theorem run_none {exec : κ → σ → Option ρ × σ} {call : κ} {s s' : σ} (calls : List κ)
    (h : exec call s = (none, s')) : run exec (call :: calls) s = [(call, none)] := by
  rw [run, h]

theorem run_some {exec : κ → σ → Option ρ × σ} {call : κ} {s s' : σ} {r : ρ} (calls : List κ)
    (h : exec call s = (some r, s')) :
    run exec (call :: calls) s = (call, some r) :: run exec calls s' := by
  rw [run, h]

end Run

/-- The first round comes before the deadline. -/
def InTime (timeout : UInt16) (clock : Clock) : Prop := clock.first < targetNsec timeout clock

instance (timeout : UInt16) (clock : Clock) : Decidable (InTime timeout clock) :=
  inferInstanceAs (Decidable (_ < _))

theorem poll_ready (timeout : UInt16) (clock : Clock) :
    poll true (targetNsec timeout clock) (clock.first :: clock.later) =
      some (decide (InTime timeout clock)) := by
  rw [poll, if_pos rfl]
  by_cases h : clock.first < targetNsec timeout clock
  · have hin : InTime timeout clock := h
    rw [if_pos h, decide_eq_true hin]
  · have hlate : ¬ InTime timeout clock := h
    rw [if_neg h, decide_eq_false hlate]

theorem poll_not_ready (target : UInt64) (readings : List UInt64) :
    poll false target readings = none ∨ poll false target readings = some false := by
  induction readings with
  | nil => exact .inl rfl
  | cons now later ih =>
    rw [poll, if_neg Bool.false_ne_true]
    by_cases h : now < target
    · rw [if_pos h]
      exact ih
    · rw [if_neg h]
      exact .inr rfl

/-! ## Exclusion -/

inductive MutexCall where
  | acquire (timeout : UInt16) (clock : Clock)
  | release
  deriving DecidableEq, Repr

def MutexCall.exec : MutexCall → Mutex → Option Status × Mutex
  | .acquire timeout clock, m => acquireMutex m timeout clock
  | .release, m => (some .ok, releaseMutex m)

/-- An acquire succeeds just when the mutex is not held. It is then held up to the next release. -/
def Exclusive (held : Bool) : List (MutexCall × Option Status) → Prop
  | [] => True
  | (.acquire _ _, r) :: rest =>
    (r = some .ok ↔ held = false) ∧ Exclusive (held || r = some .ok) rest
  | (.release, _) :: rest => Exclusive false rest

/-- An acquire that the deadline does not stop. -/
def MutexCall.Tries (timeout : UInt16) (clock : Clock) : Prop := timeout = 0 ∨ InTime timeout clock

instance (timeout : UInt16) (clock : Clock) : Decidable (MutexCall.Tries timeout clock) :=
  inferInstanceAs (Decidable (_ ∨ _))

/-- Nobody tries for a mutex that is held, and the deadline never comes before the first round for
one that is not. -/
def InTurn (held : Bool) : List MutexCall → Prop
  | [] => True
  | .acquire timeout clock :: rest =>
    (MutexCall.Tries timeout clock ↔ held = false) ∧
      InTurn (held || MutexCall.Tries timeout clock) rest
  | .release :: rest => InTurn false rest

theorem acquireMutex_unlocked (timeout : UInt16) (clock : Clock) :
    acquireMutex createMutex timeout clock =
      (some (if MutexCall.Tries timeout clock then .ok else .timeout), createMutex) := by
  unfold acquireMutex
  by_cases h0 : timeout = 0
  · have htries : MutexCall.Tries timeout clock := Or.inl h0
    rw [if_pos h0, if_pos htries]
    rfl
  · rw [if_neg h0]
    have hready : (!createMutex.locked) = true := rfl
    simp only [hready, poll_ready, Option.map_some, decide_eq_true_eq, MutexCall.Tries, h0, false_or]

theorem exclusive_iff_inTurn_from (held : Bool) (calls : List MutexCall) :
    Exclusive held (run MutexCall.exec calls createMutex) ↔ InTurn held calls := by
  induction calls generalizing held with
  | nil => exact Iff.rfl
  | cons call calls ih =>
    cases call with
    | acquire timeout clock =>
      rw [run_some calls (acquireMutex_unlocked timeout clock)]
      have hok : (some (if MutexCall.Tries timeout clock then Status.ok else Status.timeout) =
          some Status.ok) ↔ MutexCall.Tries timeout clock := by
        split_ifs with h <;> simp [h]
      simp only [Exclusive, InTurn, hok, ih]
    | release =>
      rw [run_some calls (show MutexCall.exec .release createMutex = (some .ok, createMutex) from rfl)]
      exact ih false

/-- Acquires exclude each other in just the runs where nobody tries for a mutex that is held. -/
theorem exclusive_iff_inTurn (calls : List MutexCall) :
    Exclusive false (run MutexCall.exec calls createMutex) ↔ InTurn false calls :=
  exclusive_iff_inTurn_from false calls

/-- Two acquires without a release between them both succeed. -/
theorem acquired_twice :
    run MutexCall.exec [.acquire 0 ⟨0, 0, []⟩, .acquire 0 ⟨0, 0, []⟩] createMutex =
        [(.acquire 0 ⟨0, 0, []⟩, some .ok), (.acquire 0 ⟨0, 0, []⟩, some .ok)] ∧
      ¬ Exclusive false
        (run MutexCall.exec [.acquire 0 ⟨0, 0, []⟩, .acquire 0 ⟨0, 0, []⟩] createMutex) := by
  have hrun : run MutexCall.exec [.acquire 0 ⟨0, 0, []⟩, .acquire 0 ⟨0, 0, []⟩] createMutex =
      [(.acquire 0 ⟨0, 0, []⟩, some .ok), (.acquire 0 ⟨0, 0, []⟩, some .ok)] := rfl
  refine ⟨hrun, ?_⟩
  rw [hrun]
  rintro ⟨-, hsecond, -⟩
  exact absurd (hsecond.mp rfl) (by simp)

/-! ## Counting -/

inductive EventCall where
  | signal
  | wait (timeout : UInt16) (clock : Clock)
  | reset
  deriving DecidableEq, Repr

def EventCall.exec : EventCall → Event → Option Bool × Event
  | .signal, e => (some true, signalEvent e)
  | .wait timeout clock, e => waitForEvent e timeout clock
  | .reset, e => (some true, resetEvent e)

/-- A wait succeeds just while there were more signals than successful waits since the last reset. -/
def Counting (signals waits : Nat) : List (EventCall × Option Bool) → Prop
  | [] => True
  | (.signal, _) :: rest => Counting (signals + 1) waits rest
  | (.wait _ _, r) :: rest =>
    (r = some true ↔ waits < signals) ∧
      Counting signals (if r = some true then waits + 1 else waits) rest
  | (.reset, _) :: rest => Counting 0 0 rest

/-- Waits for which a flag is enough: one without a timeout comes when every signal has been used,
and one with a timeout is stopped by the deadline just then. -/
def Matched (signals waits : Nat) : List EventCall → Prop
  | [] => True
  | .signal :: rest => Matched (signals + 1) waits rest
  | .wait timeout clock :: rest =>
    if timeout = 0 then (0 < signals ∧ signals ≤ waits) ∧ Matched signals waits rest
    else if 0 < signals then
      (InTime timeout clock ↔ waits < signals) ∧
        Matched signals (if InTime timeout clock then waits + 1 else waits) rest
    else poll false (targetNsec timeout clock) (clock.first :: clock.later) = some false →
      Matched signals waits rest
  | .reset :: rest => Matched 0 0 rest

theorem counting_success (signals waits : Nat) (timeout : UInt16) (clock : Clock)
    (rest : List (EventCall × Option Bool)) :
    Counting signals waits ((.wait timeout clock, some true) :: rest) ↔
      waits < signals ∧ Counting signals (waits + 1) rest := by
  rw [Counting, if_pos rfl, eq_self, true_iff]

theorem counting_failure {signals waits : Nat} {timeout : UInt16} {clock : Clock} {r : Option Bool}
    (h : r ≠ some true) (rest : List (EventCall × Option Bool)) :
    Counting signals waits ((.wait timeout clock, r) :: rest) ↔
      signals ≤ waits ∧ Counting signals waits rest := by
  rw [Counting, if_neg h, eq_false h, false_iff, Nat.not_lt]

theorem counting_iff_matched_from (signals waits : Nat) (calls : List EventCall) :
    Counting signals waits (run EventCall.exec calls ⟨decide (0 < signals)⟩) ↔
      Matched signals waits calls := by
  induction calls generalizing signals waits with
  | nil => exact Iff.rfl
  | cons call calls ih =>
    cases call with
    | signal =>
      have hexec : EventCall.exec .signal ⟨decide (0 < signals)⟩ =
          (some true, ⟨decide (0 < signals + 1)⟩) := by
        simp [EventCall.exec, signalEvent]
      rw [run_some calls hexec]
      exact ih _ _
    | reset =>
      rw [run_some calls (show EventCall.exec .reset ⟨decide (0 < signals)⟩ =
        (some true, ⟨decide (0 < 0)⟩) from rfl)]
      exact ih _ _
    | wait timeout clock =>
      rw [Matched]
      have hih := ih signals
      rcases Nat.eq_zero_or_pos signals with rfl | hs
      · -- Nothing was signalled, and a wait without a timeout succeeds.
        change ∀ waits, Counting 0 waits (run EventCall.exec calls ⟨false⟩) ↔ _ at hih
        change Counting 0 waits (run EventCall.exec (.wait timeout clock :: calls) ⟨false⟩) ↔ _
        by_cases h0 : timeout = 0
        · rw [run_some calls (show EventCall.exec (.wait timeout clock) ⟨false⟩ =
            (some true, ⟨false⟩) by rw [EventCall.exec, waitForEvent, if_pos h0]; rfl), if_pos h0,
            counting_success]
          simp only [Nat.not_lt_zero, false_and]
        rw [if_neg h0, if_neg (Nat.lt_irrefl 0)]
        rcases poll_not_ready (targetNsec timeout clock) (clock.first :: clock.later) with hp | hp
        · rw [run_none calls (show EventCall.exec (.wait timeout clock) ⟨false⟩ = (none, ⟨false⟩) by
            rw [EventCall.exec, waitForEvent, if_neg h0, hp]), hp, counting_failure (by simp)]
          simp only [Nat.zero_le, Counting, and_self, reduceCtorEq, false_implies]
        · rw [run_some calls (show EventCall.exec (.wait timeout clock) ⟨false⟩ =
            (some false, ⟨false⟩) by rw [EventCall.exec, waitForEvent, if_neg h0, hp]), hp,
            counting_failure (by simp), hih]
          simp only [Nat.zero_le, true_and, forall_const]
      · have hflag : decide (0 < signals) = true := decide_eq_true hs
        rw [hflag] at hih ⊢
        by_cases h0 : timeout = 0
        · rw [run_some calls (show EventCall.exec (.wait timeout clock) ⟨true⟩ =
            (some false, ⟨true⟩) by rw [EventCall.exec, waitForEvent, if_pos h0]; rfl), if_pos h0,
            counting_failure (by simp), hih]
          simp only [hs, true_and]
        rw [if_neg h0, if_pos hs, run_some calls (show EventCall.exec (.wait timeout clock) ⟨true⟩ =
          (some (decide (InTime timeout clock)), ⟨true⟩) by
            rw [EventCall.exec, waitForEvent, if_neg h0, poll_ready])]
        by_cases hin : InTime timeout clock
        · rw [decide_eq_true hin, counting_success, hih, if_pos hin, eq_true hin, true_iff]
        · rw [decide_eq_false hin, counting_failure (by simp), hih, if_neg hin, eq_false hin,
            false_iff, Nat.not_lt]

/-- Waits count the signals in just the runs that a flag is enough for. -/
theorem counting_iff_matched (calls : List EventCall) :
    Counting 0 0 (run EventCall.exec calls createEvent) ↔ Matched 0 0 calls :=
  counting_iff_matched_from 0 0 calls

/-- A wait without a timeout succeeds before the first signal. -/
theorem waited_without_signal :
    run EventCall.exec [.wait 0 ⟨0, 0, []⟩] createEvent = [(.wait 0 ⟨0, 0, []⟩, some true)] ∧
      ¬ Counting 0 0 (run EventCall.exec [.wait 0 ⟨0, 0, []⟩] createEvent) := by
  have hrun : run EventCall.exec [.wait 0 ⟨0, 0, []⟩] createEvent =
      [(.wait 0 ⟨0, 0, []⟩, some true)] := rfl
  refine ⟨hrun, ?_⟩
  rw [hrun, counting_success]
  exact fun h => absurd h.1 (Nat.lt_irrefl 0)

end Terrakernel.Acpi
