import Terrakernel.Lib.Ring
import Terrakernel.Ps2k.Code

/-!
# The event buffer is a queue

Events come out in the order they went in. A full queue refuses an event or starts again with it.
-/

namespace Terrakernel.Ps2k

open Terrakernel.Ring

/-! ## Calls -/

inductive Op where
  | push (ev : KeyEvent)
  | read
  | readEvents (maxEvents : Nat)
  | ps2kRead (count : Nat)
  | ioctl (request : Nat) (arg : Bool)
  | availableEvents
  | flushEvents
  | setEventCallback (callback userdata : Nat)
  | clearEventCallback
  deriving DecidableEq, Repr

/-- What a caller gets to see: a value, and the events it is given. -/
structure Answer where
  value : Int
  events : List KeyEvent
  deriving DecidableEq, Repr

section Exec

variable {σ : Type} (call : Nat → KeyEvent → Nat → σ → σ)

def Op.exec (buf : EventBuffer) (world : σ) : Op → Answer × EventBuffer × σ
  | .push ev =>
    let (pushed, buf, world) := bufferPush call buf world ev
    (⟨if pushed then 1 else 0, []⟩, buf, world)
  | .read =>
    match Ps2k.read buf with
    | (none, buf) => (⟨0, []⟩, buf, world)
    | (some ev, buf) => (⟨1, [ev]⟩, buf, world)
  | .readEvents maxEvents =>
    let (n, evs, buf) := Ps2k.readEvents buf maxEvents
    (⟨n, evs⟩, buf, world)
  | .ps2kRead count =>
    let (r, evs, buf) := Ps2k.ps2kRead buf count
    (⟨r, evs⟩, buf, world)
  | .ioctl request arg =>
    let (r, n, buf) := ps2kIoctl buf request arg
    (⟨r + (n.getD 0 : Nat), []⟩, buf, world)
  | .availableEvents => (⟨Ps2k.availableEvents buf, []⟩, buf, world)
  | .flushEvents => (⟨0, []⟩, Ps2k.flushEvents buf, world)
  | .setEventCallback callback userdata =>
    (⟨0, []⟩, Ps2k.setEventCallback buf callback userdata, world)
  | .clearEventCallback => (⟨0, []⟩, Ps2k.clearEventCallback buf, world)

/-- The answers of a run, and the state it ends in. -/
def run : List Op → EventBuffer → σ → List Answer × EventBuffer × σ
  | [], buf, world => ([], buf, world)
  | op :: ops, buf, world =>
    let (answer, buf, world) := op.exec call buf world
    let (answers, buf, world) := run ops buf world
    (answer :: answers, buf, world)

end Exec

/-! ## The queue -/

/-- The same call, on a queue of at most `capacity` events. -/
def Op.onQueue (capacity : Nat) (dropEvents : Bool) (queue : List KeyEvent) :
    Op → Answer × List KeyEvent
  | .push ev =>
    if queue.length < capacity then (⟨1, []⟩, queue ++ [ev])
    else if dropEvents then (⟨0, []⟩, queue)
    else (⟨1, []⟩, [ev])
  | .read => (⟨(min 1 queue.length : Nat), queue.take 1⟩, queue.drop 1)
  | .readEvents maxEvents =>
    (⟨(min maxEvents queue.length : Nat), queue.take maxEvents⟩, queue.drop maxEvents)
  | .ps2kRead count =>
    if count < keyEventSize then (⟨-eInval, []⟩, queue)
    else
      let n := count / keyEventSize
      (⟨(min n queue.length * keyEventSize : Nat), queue.take n⟩, queue.drop n)
  | .ioctl request arg =>
    if request = 0x1000 then (⟨if arg then queue.length else -eInval, []⟩, queue)
    else if request = 0x1001 then (⟨0, []⟩, [])
    else (⟨-eInval, []⟩, queue)
  | .availableEvents => (⟨queue.length, []⟩, queue)
  | .flushEvents => (⟨0, []⟩, [])
  | .setEventCallback _ _ => (⟨0, []⟩, queue)
  | .clearEventCallback => (⟨0, []⟩, queue)

def runQueue (capacity : Nat) (dropEvents : Bool) :
    List Op → List KeyEvent → List Answer × List KeyEvent
  | [], queue => ([], queue)
  | op :: ops, queue =>
    let (answer, queue) := op.onQueue capacity dropEvents queue
    let (answers, queue) := runQueue capacity dropEvents ops queue
    (answer :: answers, queue)

/-! ## Refinement -/

structure Indices (buf : EventBuffer) : Prop where
  tail : buf.tail = (buf.head + buf.count) % buf.capacity
  count : buf.count ≤ buf.capacity
  head : buf.head < buf.capacity

def queued (buf : EventBuffer) : List KeyEvent :=
  window buf.events buf.capacity buf.head buf.count

/-- `buf` is a buffer of the given size that holds `queue`. -/
structure Holds (capacity : Nat) (dropEvents : Bool) (buf : EventBuffer) (queue : List KeyEvent) :
    Prop where
  indices : Indices buf
  capacity : buf.capacity = capacity
  dropEvents : buf.dropEvents = dropEvents
  queued : queued buf = queue

section Steps

variable {capacity : Nat} {dropEvents : Bool} {buf : EventBuffer} {queue : List KeyEvent}
  (h : Holds capacity dropEvents buf queue)

include h

theorem Holds.length : queue.length = buf.count := by
  rw [← h.queued, Ps2k.queued, length_window]

theorem Holds.flush : Holds capacity dropEvents (flushEvents buf) [] := by
  have hhead := h.indices.head
  refine ⟨⟨?_, Nat.zero_le _, ?_⟩, h.capacity, h.dropEvents, rfl⟩
  · simp [flushEvents]
  · simp only [flushEvents]
    omega

theorem Holds.callback (callback userdata : Nat) :
    Holds capacity dropEvents (setEventCallback buf callback userdata) queue :=
  ⟨⟨h.indices.tail, h.indices.count, h.indices.head⟩, h.capacity, h.dropEvents, h.queued⟩

theorem Holds.clear : Holds capacity dropEvents (clearEventCallback buf) queue :=
  h.callback 0 0

theorem bufferPop_spec (hword : capacity < word) :
    (queue = [] ∧ bufferPop buf = none) ∨
      ∃ ev rest buf', queue = ev :: rest ∧ bufferPop buf = some (ev, buf') ∧
        Holds capacity dropEvents buf' rest := by
  have hhead := h.indices.head
  have hcap := h.capacity
  unfold bufferPop bufferIsEmpty
  cases hcount : buf.count with
  | zero =>
    left
    rw [← h.queued, Ps2k.queued, hcount]
    exact ⟨rfl, by simp⟩
  | succ n =>
    right
    have hnext : (buf.head + 1) % word = buf.head + 1 := Nat.mod_eq_of_lt (by omega)
    refine ⟨buf.events buf.head, window buf.events buf.capacity ((buf.head + 1) % buf.capacity) n,
      { buf with head := (buf.head + 1) % word % buf.capacity, count := n + 1 - 1 }, ?_, ?_,
      ⟨⟨?_, ?_, ?_⟩, hcap, h.dropEvents, ?_⟩⟩
    · rw [← h.queued, Ps2k.queued, hcount, window_pop hhead]
    · rw [if_neg (by simp)]
    · have htail := h.indices.tail
      rw [hcount] at htail
      simp only [hnext, Nat.add_sub_cancel, htail, Nat.mod_add_mod]
      rw [Nat.add_assoc, Nat.add_comm 1 n]
    · have := h.indices.count
      simp only
      omega
    · exact Nat.mod_lt _ (by omega)
    · simp only [Ps2k.queued, hnext, Nat.add_sub_cancel]

theorem popLoop_spec (hword : capacity < word) (n : Nat) :
    (popLoop n buf).1 = queue.take n ∧
      Holds capacity dropEvents (popLoop n buf).2 (queue.drop n) := by
  induction n generalizing buf queue with
  | zero => exact ⟨rfl, h⟩
  | succ n ih =>
    unfold popLoop
    rcases bufferPop_spec h hword with ⟨rfl, hpop⟩ | ⟨ev, rest, buf', rfl, hpop, h'⟩
    · rw [hpop]
      exact ⟨rfl, h⟩
    · rw [hpop]
      obtain ⟨hevs, hrest⟩ := ih h'
      exact ⟨congrArg (ev :: ·) hevs, hrest⟩

theorem bufferStore_spec {σ : Type} (call : Nat → KeyEvent → Nat → σ → σ) (world : σ) (ev : KeyEvent)
    (hword : capacity < word) (hroom : queue.length < capacity) :
    Holds capacity dropEvents (bufferStore call buf world ev).1 (queue ++ [ev]) := by
  have hhead := h.indices.head
  have hcap := h.capacity
  rw [h.length] at hroom
  have hcount : (buf.count + 1) % word = buf.count + 1 := Nat.mod_eq_of_lt (by omega)
  have htail : buf.tail < buf.capacity := by
    rw [h.indices.tail]
    exact Nat.mod_lt _ (by omega)
  have hnext : (buf.tail + 1) % word = buf.tail + 1 := Nat.mod_eq_of_lt (by omega)
  refine ⟨⟨?_, ?_, hhead⟩, hcap, h.dropEvents, ?_⟩
  · simp only [bufferStore, hcount, hnext]
    rw [h.indices.tail, Nat.mod_add_mod, Nat.add_assoc]
  · simp only [bufferStore, hcount]
    omega
  · rw [← h.queued]
    simp only [bufferStore, Ps2k.queued, hcount, h.indices.tail]
    exact window_push (by omega) ev

theorem bufferPush_spec {σ : Type} (call : Nat → KeyEvent → Nat → σ → σ) (world : σ) (ev : KeyEvent)
    (hpos : 0 < capacity) (hword : capacity < word) :
    ((bufferPush call buf world ev).1 = true ↔ queue.length < capacity ∨ dropEvents = false) ∧
      Holds capacity dropEvents (bufferPush call buf world ev).2.1
        (if queue.length < capacity then queue ++ [ev] else if dropEvents then queue else [ev]) := by
  have hfull : bufferIsFull buf = true ↔ ¬ queue.length < capacity := by
    rw [h.length, bufferIsFull, h.capacity, decide_eq_true_eq, not_lt]
  unfold bufferPush
  by_cases hroom : queue.length < capacity
  · rw [if_neg (by rw [hfull]; exact not_not.mpr hroom), if_pos hroom]
    exact ⟨by simp [hroom], bufferStore_spec h call world ev hword hroom⟩
  · rw [if_pos (hfull.mpr hroom), h.dropEvents, if_neg hroom]
    cases dropEvents with
    | true => exact ⟨by simp [hroom], h⟩
    | false => exact ⟨by simp, bufferStore_spec h.flush call world ev hword (by simpa using hpos)⟩

theorem exec_spec {σ : Type} (call : Nat → KeyEvent → Nat → σ → σ) (world : σ) (op : Op)
    (hpos : 0 < capacity) (hword : capacity < word) :
    (op.exec call buf world).1 = (op.onQueue capacity dropEvents queue).1 ∧
      Holds capacity dropEvents (op.exec call buf world).2.1
        (op.onQueue capacity dropEvents queue).2 := by
  cases op with
  | push ev =>
    obtain ⟨hpushed, hnext⟩ := bufferPush_spec h call world ev hpos hword
    simp only [Op.exec, Op.onQueue, hpushed]
    by_cases hroom : queue.length < capacity
    · rw [if_pos hroom] at hnext
      simp only [hroom, true_or, if_true]
      exact ⟨trivial, hnext⟩
    · rw [if_neg hroom] at hnext
      cases dropEvents <;> simpa [hroom] using hnext
  | read =>
    unfold Op.exec Op.onQueue Ps2k.read
    rcases bufferPop_spec h hword with ⟨rfl, hpop⟩ | ⟨ev, rest, buf', rfl, hpop, h'⟩
    · rw [hpop]
      exact ⟨rfl, h⟩
    · rw [hpop]
      exact ⟨by simp, h'⟩
  | readEvents maxEvents =>
    obtain ⟨hevs, hrest⟩ := popLoop_spec h hword maxEvents
    simp only [Op.exec, Op.onQueue, Ps2k.readEvents, hevs, List.length_take]
    exact ⟨trivial, hrest⟩
  | ps2kRead count =>
    unfold Op.exec Op.onQueue Ps2k.ps2kRead
    by_cases hsmall : count < keyEventSize
    · simp only [if_pos hsmall]
      exact ⟨trivial, h⟩
    · obtain ⟨hevs, hrest⟩ := popLoop_spec h hword (count / keyEventSize)
      simp only [if_neg hsmall, hevs, List.length_take]
      exact ⟨trivial, hrest⟩
  | ioctl request arg =>
    unfold Op.exec Op.onQueue ps2kIoctl
    by_cases h0 : request = 0x1000
    · simp only [if_pos h0, h.length]
      cases arg with
      | true => exact ⟨by simp, h⟩
      | false => exact ⟨by simp, h⟩
    · by_cases h1 : request = 0x1001
      · simp only [if_neg h0, if_pos h1]
        exact ⟨by simp, h.flush⟩
      · simp only [if_neg h0, if_neg h1]
        exact ⟨by simp, h⟩
  | availableEvents => exact ⟨by simp [Op.exec, Op.onQueue, Ps2k.availableEvents, h.length], h⟩
  | flushEvents => exact ⟨rfl, h.flush⟩
  | setEventCallback callback userdata => exact ⟨rfl, h.callback callback userdata⟩
  | clearEventCallback => exact ⟨rfl, h.clear⟩

theorem run_spec {σ : Type} (call : Nat → KeyEvent → Nat → σ → σ) (world : σ) (ops : List Op)
    (hpos : 0 < capacity) (hword : capacity < word) :
    (run call ops buf world).1 = (runQueue capacity dropEvents ops queue).1 ∧
      Holds capacity dropEvents (run call ops buf world).2.1
        (runQueue capacity dropEvents ops queue).2 := by
  induction ops generalizing buf queue world with
  | nil => exact ⟨rfl, h⟩
  | cons op ops ih =>
    obtain ⟨hanswer, hnext⟩ := exec_spec h call world op hpos hword
    obtain ⟨hanswers, hend⟩ := ih hnext (op.exec call buf world).2.2
    refine ⟨?_, hend⟩
    simp only [run, runQueue, hanswer, hanswers]

end Steps

theorem initialised_holds (events : Nat → KeyEvent) {capacity : Nat} (hpos : 0 < capacity)
    (dropEvents : Bool) : Holds capacity dropEvents (initialised events capacity dropEvents) [] :=
  ⟨⟨by simp [initialised], Nat.zero_le _, hpos⟩, rfl, rfl, rfl⟩

/-- From the first state on, the indices are right and the callers see a bounded queue. -/
theorem buffer_refines_queue {σ : Type} (call : Nat → KeyEvent → Nat → σ → σ) (world : σ)
    (events : Nat → KeyEvent) {capacity : Nat} (hpos : 0 < capacity) (hword : capacity < word)
    (dropEvents : Bool) (ops : List Op) :
    ∃ answers buf world',
      run call ops (initialised events capacity dropEvents) world = (answers, buf, world') ∧
      buf.capacity = capacity ∧ Indices buf ∧
      (answers, queued buf) = runQueue capacity dropEvents ops [] := by
  obtain ⟨hanswers, h⟩ := run_spec (initialised_holds events hpos dropEvents) call world ops hpos hword
  exact ⟨_, _, _, rfl, h.capacity, h.indices, Prod.ext hanswers h.queued⟩

/-- A ring of two slots that wraps and overflows, with a callback that counts. -/
def overflow : List Op :=
  [.setEventCallback 1 0, .push ⟨30, .pressed, 1⟩, .push ⟨30, .released, 2⟩, .read,
    .push ⟨31, .pressed, 3⟩, .push ⟨31, .released, 4⟩, .readEvents 5]

theorem buffer_refines_queue_overflow :
    ∃ answers buf n, run (fun _ _ _ (n : Nat) => n + 1) overflow
        (initialised (fun _ => default) 2 false) 0 = (answers, buf, n) ∧
      buf.capacity = 2 ∧ Indices buf ∧ (answers, queued buf) = runQueue 2 false overflow [] :=
  buffer_refines_queue (fun _ _ _ n => n + 1) 0 _ (by decide) (by decide) false overflow

end Terrakernel.Ps2k
