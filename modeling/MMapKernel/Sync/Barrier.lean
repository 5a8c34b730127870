import MMapKernel.Sync.Condition

/-!
# Reusable barriers: `ReusableBarrier` of `kernel/barrier.h`

Any thread calls `sync` as often as it likes. `newEpoch` is a condition, and a thread that waits for it
may also wake up for no reason.
-/

namespace MMapKernel.Sync
open Transition

/-- The places in `sync`: behind `auto t = epoch` each has `t`, and the number of rounds that were complete
then, which no code reads. -/
inductive BarrierPlace where
  | outside
  | enter
  | branch (t : UInt64) (round : ℕ)
  | notifyAll (t : UInt64) (round : ℕ)
  | notifying (t : UInt64) (round : ℕ)
  | test (t : UInt64) (round : ℕ)
  | waiting (t : UInt64) (round : ℕ)
  | unlock (t : UInt64) (round : ℕ)

structure ReusableBarrier where
  newEpoch : Condition
  count : UInt32
  epoch : UInt64
  place : Tcb → BarrierPlace
  /-- How many calls have entered, and in each round, and how many rounds are complete. No code reads
  these. -/
  entries : ℕ
  entered : ℕ → ℕ
  rounds : ℕ

namespace Condition

def spurious (s : Condition) (i : Tcb) : Option Condition :=
  match s.phase i with
  | .released _ => some (s.goTo i .scheduled)
  | .queued => some ((s.setQueue (s.queue.erase i)).goTo i .scheduled)
  | .passing => some (s.goTo i .scheduled)
  | _ => none

def behind (s : Condition) (i : Tcb) (next still : BarrierPlace) : BarrierPlace :=
  match s.phase i with
  | .outside => next
  | _ => still

end Condition

namespace ReusableBarrier

def goTo (s : ReusableBarrier) (i : Tcb) (p : BarrierPlace) : ReusableBarrier :=
  { s with place := Function.update s.place i p }

def setCondition (s : ReusableBarrier) (c : Condition) : ReusableBarrier := { s with newEpoch := c }

def decrement (s : ReusableBarrier) : ReusableBarrier :=
  { s with
    count := s.count - 1
    entries := s.entries + 1
    entered := Function.update s.entered s.rounds (s.entered s.rounds + 1) }

def nextRound (s : ReusableBarrier) (initialCount : UInt32) : ReusableBarrier :=
  { s with count := initialCount, epoch := s.epoch + 1, rounds := s.rounds + 1 }

def go (initialCount : UInt32) (s : ReusableBarrier) (i : Tcb) : Option ReusableBarrier :=
  match s.place i with
  | .outside => (s.newEpoch.call i .lock).map fun c => (s.setCondition c).goTo i .enter
  | .enter => if s.count = 0 then none else some (s.decrement.goTo i (.branch s.epoch s.rounds))
  | .branch t round =>
    if s.count = 0 then some ((s.nextRound initialCount).goTo i (.notifyAll t round))
    else some (s.goTo i (.test t round))
  | .notifyAll t round =>
    (s.newEpoch.call i .notifyAll).map fun c => (s.setCondition c).goTo i (.notifying t round)
  | .notifying t round =>
    (s.newEpoch.goOn i).map fun c =>
      (s.setCondition c).goTo i (c.behind i (.unlock t round) (.notifying t round))
  | .test t round =>
    if s.epoch ≤ t then (s.newEpoch.call i .wait).map fun c => (s.setCondition c).goTo i (.waiting t round)
    else some (s.goTo i (.unlock t round))
  | .waiting t round =>
    (s.newEpoch.goOn i).map fun c => (s.setCondition c).goTo i (c.behind i (.test t round) (.waiting t round))
  | .unlock _ _ => (s.newEpoch.call i .unlock).map fun c => (s.setCondition c).goTo i .outside

def step (initialCount : UInt32) (s : ReusableBarrier) (i : Tcb) (spurious : Bool) : Option ReusableBarrier :=
  if spurious then
    match s.place i with
    | .waiting _ _ => (s.newEpoch.spurious i).map s.setCondition
    | _ => none
  else s.go initialCount i

def start (initialCount : UInt32) : ReusableBarrier :=
  ⟨.start, initialCount, 0, fun _ => .outside, 0, fun _ => 0, 0⟩

end ReusableBarrier

def barrier (initialCount : UInt32) : System ReusableBarrier (Tcb × Bool) where
  init s := s = .start initialCount
  step s i t := s.step initialCount i.1 i.2 = some t

inductive BarrierStep (N : UInt32) (s : ReusableBarrier) (i : Tcb) : ReusableBarrier → Prop
  | spurious {t : UInt64} {r : ℕ} {c : Condition} : s.place i = .waiting t r → s.newEpoch.spurious i = some c →
      BarrierStep N s i (s.setCondition c)
  | lock {c : Condition} : s.place i = .outside → s.newEpoch.call i .lock = some c →
      BarrierStep N s i ((s.setCondition c).goTo i .enter)
  | enter : s.place i = .enter → s.count ≠ 0 →
      BarrierStep N s i (s.decrement.goTo i (.branch s.epoch s.rounds))
  | last {t : UInt64} {r : ℕ} : s.place i = .branch t r → s.count = 0 →
      BarrierStep N s i ((s.nextRound N).goTo i (.notifyAll t r))
  | more {t : UInt64} {r : ℕ} : s.place i = .branch t r → s.count ≠ 0 →
      BarrierStep N s i (s.goTo i (.test t r))
  | notifyAll {t : UInt64} {r : ℕ} {c : Condition} : s.place i = .notifyAll t r →
      s.newEpoch.call i .notifyAll = some c → BarrierStep N s i ((s.setCondition c).goTo i (.notifying t r))
  | loop {t : UInt64} {r : ℕ} {c : Condition} : s.place i = .notifying t r → s.newEpoch.goOn i = some c →
      BarrierStep N s i ((s.setCondition c).goTo i (c.behind i (.unlock t r) (.notifying t r)))
  | wait {t : UInt64} {r : ℕ} {c : Condition} : s.place i = .test t r → s.epoch ≤ t →
      s.newEpoch.call i .wait = some c → BarrierStep N s i ((s.setCondition c).goTo i (.waiting t r))
  | pass {t : UInt64} {r : ℕ} : s.place i = .test t r → ¬ s.epoch ≤ t →
      BarrierStep N s i (s.goTo i (.unlock t r))
  | wake {t : UInt64} {r : ℕ} {c : Condition} : s.place i = .waiting t r → s.newEpoch.goOn i = some c →
      BarrierStep N s i ((s.setCondition c).goTo i (c.behind i (.test t r) (.waiting t r)))
  | unlock {t : UInt64} {r : ℕ} {c : Condition} : s.place i = .unlock t r →
      s.newEpoch.call i .unlock = some c → BarrierStep N s i ((s.setCondition c).goTo i .outside)

namespace ReusableBarrier
variable {N : UInt32} {s t : ReusableBarrier} {i j k : Tcb}

theorem go_cases (h : s.go N i = some t) : BarrierStep N s i t := by
  unfold go at h
  split at h
  case h_1 hi =>
    obtain ⟨c, hc, rfl⟩ := Option.map_eq_some_iff.mp h
    exact .lock hi hc
  case h_2 hi =>
    obtain ⟨hcount, h⟩ := Option.ite_none_left_eq_some.mp h
    cases h
    exact .enter hi hcount
  case h_3 t r hi =>
    split at h
    case isTrue hcount =>
      cases h
      exact .last hi hcount
    case isFalse hcount =>
      cases h
      exact .more hi hcount
  case h_4 t r hi =>
    obtain ⟨c, hc, rfl⟩ := Option.map_eq_some_iff.mp h
    exact .notifyAll hi hc
  case h_5 t r hi =>
    obtain ⟨c, hc, rfl⟩ := Option.map_eq_some_iff.mp h
    exact .loop hi hc
  case h_6 t r hi =>
    split at h
    case isTrue hle =>
      obtain ⟨c, hc, rfl⟩ := Option.map_eq_some_iff.mp h
      exact .wait hi hle hc
    case isFalse hle =>
      cases h
      exact .pass hi hle
  case h_7 t r hi =>
    obtain ⟨c, hc, rfl⟩ := Option.map_eq_some_iff.mp h
    exact .wake hi hc
  case h_8 hi =>
    obtain ⟨c, hc, rfl⟩ := Option.map_eq_some_iff.mp h
    exact .unlock hi hc

theorem step_cases {spurious : Bool} (h : s.step N i spurious = some t) : BarrierStep N s i t := by
  cases spurious with
  | false => exact go_cases h
  | true =>
    simp only [step, if_true] at h
    split at h
    case h_1 hi =>
      obtain ⟨c, hc, rfl⟩ := Option.map_eq_some_iff.mp h
      exact .spurious hi hc
    case h_2 => cases h

end ReusableBarrier

end MMapKernel.Sync
