import MMapKernel.Lib.Transition

/-!
# Threads and semaphores: `kernel/semaphore.h`

`down` and `up` hold the lock of the semaphore between their reads and stores, which are one step here.
A thread that finds the count 0 keeps the lock until it is off its stack and in the queue. `up` takes the
next thread out of the queue, and schedules it after it has released the lock; until then the thread is
in neither queue.

A thread runs a program: its instructions are the two calls, and steps on the data that the threads
share.
-/

open Transition
namespace MMapKernel.Sync

structure Semaphore (ι : Type) where
  count : UInt64
  lock : Bool
  waiting : List ι

namespace Semaphore
variable {ι : Type}

def setCount (s : Semaphore ι) (count : UInt64) : Semaphore ι := { s with count := count }

def setWaiting (s : Semaphore ι) (waiting : List ι) : Semaphore ι := { s with waiting := waiting }

def setLock (s : Semaphore ι) (lock : Bool) : Semaphore ι := { s with lock := lock }

def new (count : UInt32) : Semaphore ι := ⟨count.toUInt64, false, []⟩

def down (s : Semaphore ι) : Bool × Semaphore ι :=
  if 0 < s.count then (true, s.setCount (s.count - 1)) else (false, s.setLock true)

def add (s : Semaphore ι) (me : ι) : Semaphore ι := (s.setWaiting (s.waiting ++ [me])).setLock false

def up (s : Semaphore ι) : Option ι × Semaphore ι :=
  match s.waiting with
  | [] => (none, s.setCount (s.count + 1))
  | next :: rest => (some next, s.setWaiting rest)

theorem up_nil {s : Semaphore ι} (h : s.waiting = []) : s.up = (none, s.setCount (s.count + 1)) := by
  rw [up, h]

theorem up_cons {s : Semaphore ι} {next : ι} {rest : List ι} (h : s.waiting = next :: rest) :
    s.up = (some next, s.setWaiting rest) := by
  rw [up, h]

variable (s : Semaphore ι)

@[simp, grind =] theorem setCount_count (n : UInt64) : (s.setCount n).count = n := rfl

@[simp, grind =] theorem setCount_lock (n : UInt64) : (s.setCount n).lock = s.lock := rfl

@[simp, grind =] theorem setCount_waiting (n : UInt64) : (s.setCount n).waiting = s.waiting := rfl

@[simp, grind =] theorem setWaiting_count (l : List ι) : (s.setWaiting l).count = s.count := rfl

@[simp, grind =] theorem setWaiting_lock (l : List ι) : (s.setWaiting l).lock = s.lock := rfl

@[simp, grind =] theorem setWaiting_waiting (l : List ι) : (s.setWaiting l).waiting = l := rfl

@[simp, grind =] theorem setLock_count (b : Bool) : (s.setLock b).count = s.count := rfl

@[simp, grind =] theorem setLock_lock (b : Bool) : (s.setLock b).lock = b := rfl

@[simp, grind =] theorem setLock_waiting (b : Bool) : (s.setLock b).waiting = s.waiting := rfl

end Semaphore

/-- `P` are the places in a program, `Q` the semaphores, `σ` is the shared data, and `C` what a thread
may choose. -/
inductive Instr (Q P σ C : Type) where
  | down (q : Q) (next : P)
  | up (q : Q) (next : P)
  | act (f : σ → C → Option (σ × P))

inductive Phase (ι Q P : Type) where
  | running (p : P)
  | blocking (q : Q) (p : P)
  | waiting (q : Q) (p : P)
  | woken (p : P)
  | waking (next : ι) (p : P)

namespace Phase
variable {ι Q P : Type}

def removed : Phase ι Q P → Phase ι Q P
  | waiting _ p => woken p
  | φ => φ

def scheduled : Phase ι Q P → Phase ι Q P
  | woken p => running p
  | φ => φ

variable {φ : Phase ι Q P} {q : Q} {p : P} {j : ι}

@[simp, grind =] theorem scheduled_eq_blocking : φ.scheduled = .blocking q p ↔ φ = .blocking q p := by
  cases φ <;> simp [scheduled]

@[simp, grind =] theorem scheduled_eq_waiting : φ.scheduled = .waiting q p ↔ φ = .waiting q p := by
  cases φ <;> simp [scheduled]

@[simp, grind =] theorem scheduled_eq_waking : φ.scheduled = .waking j p ↔ φ = .waking j p := by
  cases φ <;> simp [scheduled]

theorem scheduled_ne_woken : φ.scheduled ≠ .woken p := by
  cases φ <;> simp [scheduled]

end Phase

structure State (ι Q P σ : Type) where
  sem : Q → Semaphore ι
  phase : ι → Phase ι Q P
  shared : σ

variable {ι Q P σ C : Type}

namespace State

section
variable [DecidableEq ι]

def goTo (s : State ι Q P σ) (i : ι) (φ : Phase ι Q P) : State ι Q P σ :=
  { s with phase := Function.update s.phase i φ }

@[simp, grind =] theorem goTo_phase (s : State ι Q P σ) (i : ι) (φ : Phase ι Q P) :
    (s.goTo i φ).phase = Function.update s.phase i φ := rfl

@[simp, grind =] theorem goTo_sem (s : State ι Q P σ) (i : ι) (φ : Phase ι Q P) : (s.goTo i φ).sem = s.sem := rfl

@[simp, grind =] theorem goTo_shared (s : State ι Q P σ) (i : ι) (φ : Phase ι Q P) :
    (s.goTo i φ).shared = s.shared := rfl

end

section
variable [DecidableEq Q]

def setSem (s : State ι Q P σ) (q : Q) (sem : Semaphore ι) : State ι Q P σ :=
  { s with sem := Function.update s.sem q sem }

@[simp, grind =] theorem setSem_phase (s : State ι Q P σ) (q : Q) (sem : Semaphore ι) :
    (s.setSem q sem).phase = s.phase := rfl

@[simp, grind =] theorem setSem_sem (s : State ι Q P σ) (q : Q) (sem : Semaphore ι) :
    (s.setSem q sem).sem = Function.update s.sem q sem := rfl

@[simp, grind =] theorem setSem_shared (s : State ι Q P σ) (q : Q) (sem : Semaphore ι) :
    (s.setSem q sem).shared = s.shared := rfl

end

variable [DecidableEq ι] [DecidableEq Q]

def step (prog : P → Instr Q P σ C) (s : State ι Q P σ) (i : ι) (c : C) : Option (State ι Q P σ) :=
  match s.phase i with
  | .running p =>
    match prog p with
    | .act f => (f s.shared c).map fun r => { s with shared := r.1 }.goTo i (.running r.2)
    | .down q p =>
      if (s.sem q).lock then none
      else
        match (s.sem q).down with
        | (true, sem) => some ((s.setSem q sem).goTo i (.running p))
        | (false, sem) => some ((s.setSem q sem).goTo i (.blocking q p))
    | .up q p =>
      if (s.sem q).lock then none
      else
        match (s.sem q).up with
        | (none, sem) => some ((s.setSem q sem).goTo i (.running p))
        | (some next, sem) =>
          some (((s.setSem q sem).goTo next (s.phase next).removed).goTo i (.waking next p))
  | .blocking q p => some ((s.setSem q ((s.sem q).add i)).goTo i (.waiting q p))
  | .waiting _ _ => none
  | .woken _ => none
  | .waking next p => some ((s.goTo next (s.phase next).scheduled).goTo i (.running p))

end State

variable [DecidableEq ι] [DecidableEq Q]

inductive Step (prog : P → Instr Q P σ C) (s : State ι Q P σ) (i : ι) (c : C) : State ι Q P σ → Prop
  | act {p p' : P} {f : σ → C → Option (σ × P)} {shared : σ} : s.phase i = .running p → prog p = .act f →
      f s.shared c = some (shared, p') → Step prog s i c ({ s with shared := shared }.goTo i (.running p'))
  | take {p p' : P} {q : Q} : s.phase i = .running p → prog p = .down q p' → (s.sem q).lock = false →
      0 < (s.sem q).count →
      Step prog s i c ((s.setSem q ((s.sem q).setCount ((s.sem q).count - 1))).goTo i (.running p'))
  | block {p p' : P} {q : Q} : s.phase i = .running p → prog p = .down q p' → (s.sem q).lock = false →
      (s.sem q).count = 0 →
      Step prog s i c ((s.setSem q ((s.sem q).setLock true)).goTo i (.blocking q p'))
  | add {p : P} {q : Q} : s.phase i = .blocking q p →
      Step prog s i c ((s.setSem q ((s.sem q).add i)).goTo i (.waiting q p))
  | release {p p' : P} {q : Q} : s.phase i = .running p → prog p = .up q p' → (s.sem q).lock = false →
      (s.sem q).waiting = [] →
      Step prog s i c ((s.setSem q ((s.sem q).setCount ((s.sem q).count + 1))).goTo i (.running p'))
  | wake {p p' : P} {q : Q} {next : ι} {rest : List ι} : s.phase i = .running p → prog p = .up q p' →
      (s.sem q).lock = false → (s.sem q).waiting = next :: rest →
      Step prog s i c (((s.setSem q ((s.sem q).setWaiting rest)).goTo next
        (s.phase next).removed).goTo i (.waking next p'))
  | schedule {p : P} {next : ι} : s.phase i = .waking next p →
      Step prog s i c ((s.goTo next (s.phase next).scheduled).goTo i (.running p))

theorem step_cases {prog : P → Instr Q P σ C} {s t : State ι Q P σ} {i : ι} {c : C}
    (h : s.step prog i c = some t) : Step prog s i c t := by
  unfold State.step at h
  split at h
  case h_1 p hp =>
    split at h
    case h_1 f hf =>
      obtain ⟨⟨shared, p'⟩, hr, rfl⟩ := Option.map_eq_some_iff.mp h
      exact .act hp hf hr
    case h_2 q p' hdown =>
      obtain ⟨hlock, h⟩ := Option.ite_none_left_eq_some.mp h
      rw [Bool.not_eq_true] at hlock
      by_cases hcount : 0 < (s.sem q).count
      · rw [Semaphore.down, if_pos hcount] at h
        cases h
        exact .take hp hdown hlock hcount
      · rw [Semaphore.down, if_neg hcount] at h
        cases h
        refine .block hp hdown hlock ?_
        rw [UInt64.lt_iff_toNat_lt] at hcount
        rw [← UInt64.toNat_inj]
        exact Nat.eq_zero_of_not_pos hcount
    case h_3 q p' hup =>
      obtain ⟨hlock, h⟩ := Option.ite_none_left_eq_some.mp h
      rw [Bool.not_eq_true] at hlock
      cases hw : (s.sem q).waiting with
      | nil =>
        rw [Semaphore.up_nil hw] at h
        cases h
        exact .release hp hup hlock hw
      | cons next rest =>
        rw [Semaphore.up_cons hw] at h
        cases h
        exact .wake hp hup hlock hw
  case h_2 q p hp =>
    cases h
    exact .add hp
  case h_3 => cases h
  case h_4 => cases h
  case h_5 next p hp =>
    cases h
    exact .schedule hp

end MMapKernel.Sync
