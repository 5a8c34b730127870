import MMapKernel.Lib.Paths

/-!
# Condition variables: `kernel/condition.h`

`wait` gives up the lock, and a block handler takes it again on the stack of another thread to put the
thread into the queue; if the epoch has changed by then, the handler schedules the thread instead. The
handler is one step as far as it has the lock. `notify` is made of the increment of the epoch and the
iterations of its loop; all calls are made as their preconditions say.

A thread is named by the address of its `TCB`.
-/

namespace MMapKernel.Sync
open Transition

structure Tcb where
  address : UInt32
  nonzero : address ≠ 0
deriving DecidableEq

inductive WaitPhase where
  | outside
  | released (oldEpoch : UInt64)
  | queued
  /-- The block handler has given up the lock and is about to schedule the thread. -/
  | passing
  | scheduled
  | notifying (limit i : UInt64)

inductive Call where
  | lock
  | unlock
  | wait
  | notify (limit : UInt64)

def Call.notifyOne : Call := .notify 1

def Call.notifyAll : Call := .notify (~~~0)

structure Condition where
  lock : Option Tcb
  epoch : UInt64
  queue : List Tcb
  phase : Tcb → WaitPhase
  /-- How often a thread has given up the lock in `wait`, and been scheduled. No code reads these. -/
  waits : Tcb → ℕ
  wakes : Tcb → ℕ

namespace Condition

def setLock (s : Condition) (lock : Option Tcb) : Condition := { s with lock := lock }

def setQueue (s : Condition) (queue : List Tcb) : Condition := { s with queue := queue }

def nextEpoch (s : Condition) : Condition := { s with epoch := s.epoch + 1 }

def goTo (s : Condition) (i : Tcb) (φ : WaitPhase) : Condition :=
  { s with phase := Function.update s.phase i φ }

def count (s : Condition) (i : Tcb) : Condition :=
  { s with waits := Function.update s.waits i (s.waits i + 1) }

def schedule (s : Condition) (i : Tcb) : Condition :=
  { s with
    phase := Function.update s.phase i .scheduled
    wakes := Function.update s.wakes i (s.wakes i + 1) }

def call (s : Condition) (i : Tcb) : Call → Option Condition
  | .lock => if s.lock = none then some (s.setLock (some i)) else none
  | .unlock => if s.lock = some i then some (s.setLock none) else none
  | .wait => if s.lock = some i then some (((s.setLock none).count i).goTo i (.released s.epoch)) else none
  | .notify limit => if s.lock = some i then some (s.nextEpoch.goTo i (.notifying limit 0)) else none

def goOn (s : Condition) (i : Tcb) : Option Condition :=
  match s.phase i with
  | .outside => none
  | .released oldEpoch =>
    if s.lock = none then
      if s.epoch = oldEpoch then some ((s.setQueue (s.queue ++ [i])).goTo i .queued)
      else if oldEpoch < s.epoch then some (s.goTo i .passing)
      else none
    else none
  | .queued => none
  | .passing => some (s.schedule i)
  | .scheduled => if s.lock = none then some ((s.setLock (some i)).goTo i .outside) else none
  | .notifying limit n =>
    if n < limit then
      match s.queue with
      | [] => some (s.goTo i .outside)
      | next :: rest => some (((s.setQueue rest).schedule next).goTo i (.notifying limit (n + 1)))
    else some (s.goTo i .outside)

def step (s : Condition) (i : Tcb) (c : Call) : Option Condition :=
  match s.phase i with
  | .outside => s.call i c
  | _ => s.goOn i

def start : Condition := ⟨none, 0, [], fun _ => .outside, fun _ => 0, fun _ => 0⟩

end Condition

def condition : System Condition (Tcb × Call) where
  init s := s = Condition.start
  step s i t := s.step i.1 i.2 = some t

def NoWrap (s : Condition) (i : Tcb × Call) : Prop :=
  ∀ limit, i.2 = .notify limit → s.phase i.1 = .outside → s.epoch + 1 = 0 →
    ∀ k oldEpoch, s.phase k ≠ .released oldEpoch

namespace Condition
variable {s t : Condition} {i j k : Tcb} {c : Call}

section
variable (s : Condition)

@[simp, grind =] theorem setQueue_wakes (l : List Tcb) : (s.setQueue l).wakes = s.wakes := rfl

@[simp, grind =] theorem nextEpoch_queue : s.nextEpoch.queue = s.queue := rfl

@[simp, grind =] theorem goTo_queue (φ : WaitPhase) : (s.goTo i φ).queue = s.queue := rfl

@[simp, grind =] theorem goTo_phase (φ : WaitPhase) : (s.goTo i φ).phase = Function.update s.phase i φ := rfl

@[simp, grind =] theorem goTo_wakes (φ : WaitPhase) : (s.goTo i φ).wakes = s.wakes := rfl

@[simp, grind =] theorem schedule_phase : (s.schedule i).phase = Function.update s.phase i .scheduled := rfl

@[simp, grind =] theorem schedule_wakes :
    (s.schedule i).wakes = Function.update s.wakes i (s.wakes i + 1) := rfl

end

inductive Steps (s : Condition) (i : Tcb) : Call → Condition → Prop
  | lock : s.phase i = .outside → s.lock = none → Steps s i .lock (s.setLock (some i))
  | unlock : s.phase i = .outside → s.lock = some i → Steps s i .unlock (s.setLock none)
  | wait : s.phase i = .outside → s.lock = some i →
      Steps s i .wait (((s.setLock none).count i).goTo i (.released s.epoch))
  | notify {limit : UInt64} : s.phase i = .outside → s.lock = some i →
      Steps s i (.notify limit) (s.nextEpoch.goTo i (.notifying limit 0))
  | add {c : Call} : s.phase i = .released s.epoch → s.lock = none →
      Steps s i c ((s.setQueue (s.queue ++ [i])).goTo i .queued)
  | pass {c : Call} {oldEpoch : UInt64} : s.phase i = .released oldEpoch → s.lock = none →
      oldEpoch < s.epoch → Steps s i c (s.goTo i .passing)
  | self {c : Call} : s.phase i = .passing → Steps s i c (s.schedule i)
  | relock {c : Call} : s.phase i = .scheduled → s.lock = none →
      Steps s i c ((s.setLock (some i)).goTo i .outside)
  | remove {c : Call} {limit n : UInt64} {next : Tcb} {rest : List Tcb} : s.phase i = .notifying limit n →
      n < limit → s.queue = next :: rest →
      Steps s i c (((s.setQueue rest).schedule next).goTo i (.notifying limit (n + 1)))
  | done {c : Call} {limit n : UInt64} : s.phase i = .notifying limit n → (n < limit → s.queue = []) →
      Steps s i c (s.goTo i .outside)

theorem call_cases (hi : s.phase i = .outside) (h : s.call i c = some t) : Steps s i c t := by
  cases c with
  | lock =>
    obtain ⟨hlock, h⟩ := Option.ite_none_right_eq_some.mp h
    cases h
    exact .lock hi hlock
  | unlock =>
    obtain ⟨hlock, h⟩ := Option.ite_none_right_eq_some.mp h
    cases h
    exact .unlock hi hlock
  | wait =>
    obtain ⟨hlock, h⟩ := Option.ite_none_right_eq_some.mp h
    cases h
    exact .wait hi hlock
  | notify limit =>
    obtain ⟨hlock, h⟩ := Option.ite_none_right_eq_some.mp h
    cases h
    exact .notify hi hlock

theorem goOn_cases (h : s.goOn i = some t) : Steps s i c t := by
  unfold goOn at h
  split at h
  case h_1 => cases h
  case h_2 oldEpoch hi =>
    obtain ⟨hlock, h⟩ := Option.ite_none_right_eq_some.mp h
    split at h
    case isTrue he =>
      cases h
      exact .add (he ▸ hi) hlock
    case isFalse he =>
      obtain ⟨hlt, h⟩ := Option.ite_none_right_eq_some.mp h
      cases h
      exact .pass hi hlock hlt
  case h_3 => cases h
  case h_4 hi =>
    cases h
    exact .self hi
  case h_5 hi =>
    obtain ⟨hlock, h⟩ := Option.ite_none_right_eq_some.mp h
    cases h
    exact .relock hi hlock
  case h_6 limit n hi =>
    by_cases hn : n < limit
    · rw [if_pos hn] at h
      cases hq : s.queue with
      | nil =>
        rw [hq] at h
        cases h
        exact .done hi fun _ => hq
      | cons next rest =>
        rw [hq] at h
        cases h
        exact .remove hi hn hq
    · rw [if_neg hn] at h
      cases h
      exact .done hi fun hlt => absurd hlt hn

theorem step_cases (h : s.step i c = some t) : Steps s i c t := by
  unfold step at h
  split at h
  case h_1 hi => exact call_cases hi h
  case h_2 => exact goOn_cases h

/-- The queue holds the threads that are queued, and the loop of `notify` has the lock. -/
structure Ok (s : Condition) : Prop where
  nodup : s.queue.Nodup
  mem : ∀ k, k ∈ s.queue ↔ s.phase k = .queued
  holder : ∀ k limit n, s.phase k = .notifying limit n → s.lock = some k

theorem Ok.next_queued {next : Tcb} {rest : List Tcb} (h : s.Ok) (hq : s.queue = next :: rest) :
    s.phase next = .queued :=
  (h.mem next).mp (by rw [hq]; exact List.mem_cons_self)

theorem Ok.step (h : s.Ok) (hstep : s.Steps i c t) : t.Ok := by
  have ⟨hnodup, hmem, hholder⟩ := h
  cases hstep with
  | lock hi hfree => constructor <;> simp only [setLock] <;> grind
  | unlock hi hlock => constructor <;> simp only [setLock] <;> grind
  | wait hi hlock => constructor <;> simp only [setLock, count, goTo] <;> grind [Function.update_apply]
  | notify hi hlock => constructor <;> simp only [nextEpoch, goTo] <;> grind [Function.update_apply]
  | add hi hfree => constructor <;> simp only [setQueue, goTo] <;> grind [Function.update_apply]
  | pass hi hfree hlt => constructor <;> simp only [goTo] <;> grind [Function.update_apply]
  | self hi => constructor <;> simp only [schedule] <;> grind [Function.update_apply]
  | relock hi hfree => constructor <;> simp only [setLock, goTo] <;> grind [Function.update_apply]
  | remove hi hn hq =>
    have hnext := h.next_queued hq
    constructor <;> simp only [setQueue, schedule, goTo] <;> grind [Function.update_apply]
  | done hi hend => constructor <;> simp only [goTo] <;> grind [Function.update_apply]

end Condition

def waiter : Tcb := ⟨1, by decide⟩

def notifier : Tcb := ⟨2, by decide⟩

end MMapKernel.Sync
