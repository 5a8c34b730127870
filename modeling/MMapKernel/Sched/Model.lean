import MMapKernel.Lib.Transition

/-!
# Threads, cores and semaphores

Any number of cores run threads and idle threads. A core is either outside `block` or at one
of the points of `block` where another core, or the timer, can see the difference; between two
such points it touches nothing that others read. The queues are lists, first element first:
each is only used under its own lock.

Every thread has a process of its own, since the three callers of `thread` make one for each,
so `run_time` and `kill_flag` are kept by thread. A step has no result where an `ASSERT` of the
source fails or where the core cannot take it.
-/

open Transition
namespace MMapKernel.Sched

variable {N : ℕ}

/-- `thread n` is the thread with the `n`-th place in the order of creation. -/
inductive TCB (N : ℕ) where
  | idle (core : Fin N)
  | thread (n : ℕ)
deriving DecidableEq, Repr

instance tcbLawfulBEq : LawfulBEq (TCB N) := inferInstance

def TCB.isIdle : TCB N → Bool
  | .idle _ => true
  | .thread _ => false

/-- Who called `block`: this decides whether it may return at once, and its handler. -/
inductive Caller where
  | yield
  | stop
  | down (q : ℕ)
deriving DecidableEq, Repr

/-- The point a core has reached. `dying` is the part of `apitHandler` that ends a killed
thread, with interrupts off. From `picking` to `picked` the thread that called `block` is still
the active one; `switching` comes after the store into `activeThreads`, and `handling` after the
switch of stacks and `cr3`, when the handler has yet to run. -/
inductive Phase (N : ℕ) where
  | running
  | dying
  | picking (f : Caller)
  | picked (f : Caller) (next : TCB N)
  | switching (me : TCB N) (f : Caller)
  | handling (me : TCB N) (f : Caller)
deriving DecidableEq, Repr

/-- What a thread still has to do with a `TCB` it has in a local variable. -/
inductive Task where
  | schedule
  | delete
deriving DecidableEq, Repr

structure State (N : ℕ) where
  activeThreads : Fin N → TCB N
  phase : Fin N → Phase N
  readyQ : List (TCB N)
  zombies : List (TCB N)
  deleted : List (TCB N)
  waiting : ℕ → List (TCB N)
  count : ℕ → UInt64
  lock : ℕ → Bool
  hand : TCB N → List (Task × TCB N)
  nextId : ℕ
  noPreempt : TCB N → Bool
  runTime : TCB N → Int32
  killFlag : TCB N → Bool
  stack : Fin N → TCB N
  cr3 : Fin N → TCB N
  holder : ℕ → Option (TCB N)

def Phase.executes : Phase N → Bool
  | .running | .dying => true
  | _ => false

/-- Interrupts may be on. They are off in `apitHandler` and in the handlers of `block`. -/
def Phase.interruptible : Phase N → Bool
  | .dying | .handling _ _ => false
  | _ => true

def readyAdd (runTime : TCB N → Int32) (t : TCB N) : List (TCB N) → List (TCB N)
  | [] => [t]
  | x :: q => if runTime x ≤ runTime t then x :: readyAdd runTime t q else t :: x :: q

namespace State

def enter (s : State N) (c : Fin N) (p : Phase N) : State N :=
  { s with phase := Function.update s.phase c p }

def push (s : State N) (u : TCB N) (k : Task) (x : TCB N) : State N :=
  { s with hand := Function.update s.hand u ((k, x) :: s.hand u) }

def drop (s : State N) (u : TCB N) : State N :=
  { s with hand := Function.update s.hand u (s.hand u).tail }

def schedule (s : State N) (t : TCB N) : State N :=
  if t.isIdle then s else { s with readyQ := readyAdd s.runTime t s.readyQ }

def bury (s : State N) (t : TCB N) : State N :=
  if t.isIdle then s else { s with zombies := s.zombies ++ [t] }

def await (s : State N) (q : ℕ) (t : TCB N) : State N :=
  { s with
    waiting := Function.update s.waiting q (s.waiting q ++ [t])
    lock := Function.update s.lock q false }

def block (s : State N) (c : Fin N) (f : Caller) : State N :=
  { s.enter c (.picking f) with
    noPreempt := Function.update s.noPreempt (s.activeThreads c) true }

def create (s : State N) (c : Fin N) : State N :=
  { s.push (s.activeThreads c) .schedule (.thread s.nextId) with
    nextId := s.nextId + 1
    noPreempt := Function.update s.noPreempt (.thread s.nextId) false
    runTime := Function.update s.runTime (.thread s.nextId) 0
    killFlag := Function.update s.killFlag (.thread s.nextId) false }

def activate (s : State N) (c : Fin N) (f : Caller) (next : TCB N) : State N :=
  { s.enter c (.switching (s.activeThreads c) f) with
    noPreempt := Function.update s.noPreempt next true
    activeThreads := Function.update s.activeThreads c next }

def contextSwitch (s : State N) (c : Fin N) (me : TCB N) (f : Caller) : State N :=
  { s.enter c (.handling me f) with
    noPreempt := Function.update (Function.update s.noPreempt me false) (s.activeThreads c) false
    stack := Function.update s.stack c (s.activeThreads c)
    cr3 := Function.update s.cr3 c (s.activeThreads c) }

def charge (s : State N) (t : TCB N) : State N :=
  { s with runTime := Function.update s.runTime t (s.runTime t + 1) }

def release (s : State N) (q : ℕ) : State N :=
  { s with
    count := Function.update s.count q (s.count q + 1)
    holder := Function.update s.holder q none }

def wake (s : State N) (u : TCB N) (q : ℕ) (x : TCB N) : State N :=
  { s.push u .schedule x with
    waiting := Function.update s.waiting q (s.waiting q).tail
    holder := Function.update s.holder q (some x) }

def take (s : State N) (u : TCB N) (q : ℕ) : State N :=
  { s with
    count := Function.update s.count q (s.count q - 1)
    holder := Function.update s.holder q (some u) }

end State

inductive Act (N : ℕ) where
  | create (c : Fin N)
  | schedule (c : Fin N)
  | reap (c : Fin N)
  | delete (c : Fin N)
  | up (c : Fin N) (q : ℕ)
  | down (c : Fin N) (q : ℕ)
  | yield (c : Fin N)
  | stop (c : Fin N)
  | pick (c : Fin N)
  | activate (c : Fin N)
  | switch (c : Fin N)
  | handle (c : Fin N)
  | tick (c : Fin N)
  | kill (t : TCB N)
deriving DecidableEq, Repr

def pick (s : State N) (c : Fin N) (f : Caller) : Option (State N) :=
  match s.readyQ, f, s.activeThreads c with
  | x :: rest, _, _ => some ({ s with readyQ := rest }.enter c (.picked f x))
  | [], .yield, _ => some (s.enter c .running)
  | [], _, .thread _ => some (s.enter c (.picked f (.idle c)))
  -- `down` disables interrupts, which the idle thread asserts to be on
  | [], .down _, .idle _ => none
  | [], .stop, .idle d => if d = c then some s else none

def handle (s : State N) (c : Fin N) (me : TCB N) : Caller → Option (State N)
  | .yield => some ((s.enter c .running).schedule me)
  | .stop => some ((s.enter c .running).bury me)
  | .down q => if me.isIdle then none else some ((s.enter c .running).await q me)

def apitHandler (s : State N) (c : Fin N) : Option (State N) :=
  let me := s.activeThreads c
  if me.isIdle || s.noPreempt me then some s
  else if s.phase c = .running then
    if s.killFlag me then some ((s.charge me).enter c .dying)
    else some ((s.charge me).block c .yield)
  else none

section
variable (isLock : ℕ → Bool)

def up (s : State N) (c : Fin N) (q : ℕ) : Option (State N) :=
  let me := s.activeThreads c
  -- a `BlockingLock` is released by the guard of the thread that took it
  if s.lock q || (isLock q && s.holder q != some me) then none
  else match s.waiting q with
    | [] => some (s.release q)
    | x :: _ => some (s.wake me q x)

def down (s : State N) (c : Fin N) (q : ℕ) : Option (State N) :=
  if s.lock q then none
  else if 0 < s.count q then some (s.take (s.activeThreads c) q)
  else some ({ s with lock := Function.update s.lock q true }.block c (.down q))

def step (s : State N) : Act N → Option (State N)
  | .create c => if s.phase c = .running then some (s.create c) else none
  | .schedule c =>
    match (s.phase c).executes, s.hand (s.activeThreads c) with
    | true, (.schedule, x) :: _ => some ((s.drop (s.activeThreads c)).schedule x)
    | _, _ => none
  | .reap c =>
    match s.phase c, s.zombies with
    | .running, x :: rest => some ({ s with zombies := rest }.push (s.activeThreads c) .delete x)
    | _, _ => none
  | .delete c =>
    match s.phase c, s.hand (s.activeThreads c) with
    | .running, (.delete, x) :: _ =>
      some { s.drop (s.activeThreads c) with deleted := x :: s.deleted }
    | _, _ => none
  | .up c q => if (s.phase c).executes then up isLock s c q else none
  | .down c q => if s.phase c = .running then down s c q else none
  | .yield c => if s.phase c = .running then some (s.block c .yield) else none
  | .stop c => if (s.phase c).executes then some (s.block c .stop) else none
  | .pick c => match s.phase c with | .picking f => pick s c f | _ => none
  | .activate c => match s.phase c with | .picked f x => some (s.activate c f x) | _ => none
  | .switch c =>
    match s.phase c with | .switching me f => some (s.contextSwitch c me f) | _ => none
  | .handle c => match s.phase c with | .handling me f => handle s c me f | _ => none
  | .tick c => if (s.phase c).interruptible then apitHandler s c else none
  | .kill t => some { s with killFlag := Function.update s.killFlag t true }

/-- After `threadsInit` has made the idle threads. It leaves their `no_preempt` unset. -/
structure Booted (s : State N) : Prop where
  active : ∀ c, s.activeThreads c = .idle c
  stack : ∀ c, s.stack c = .idle c
  cr3 : ∀ c, s.cr3 c = .idle c
  phase : ∀ c, s.phase c = .running
  readyQ : s.readyQ = []
  zombies : s.zombies = []
  deleted : s.deleted = []
  waiting : ∀ q, s.waiting q = []
  lock : ∀ q, s.lock q = false
  hand : ∀ u, s.hand u = []
  nextId : s.nextId = 0
  noPreempt : ∀ n, s.noPreempt (.thread n) = false
  holder : ∀ q, s.holder q = none
  count : ∀ q, isLock q → s.count q = 1

def scheduler : System (State N) (Act N) where
  init := Booted isLock
  step s a t := step isLock s a = some t

end

end MMapKernel.Sched
