import MMapKernel.Lib.Transition

/-!
# The completion of a process

The output `Future` of a process is set by its own thread on three paths: the exit system call,
a fatal page fault, and the timer that finds the process killed. System calls and faults come
in through trap gates, which leave interrupts on, so the timer can cut into the first two paths
until `stop` has set `no_preempt`; the thread then never comes back to them. The timer's own
path runs with interrupts off.
-/

open Transition
namespace MMapKernel.Completion

inductive Setter where
  | own
  | timer
deriving DecidableEq, Repr

inductive Stage where
  | check
  | store
  | publish
  | wake
deriving DecidableEq, Repr

inductive Point where
  | elsewhere
  | setting (who : Setter) (v : UInt32) (stage : Stage)
  | stopping (who : Setter)
  | stopped
deriving DecidableEq, Repr

structure Process where
  point : Point
  isReady : Bool
  t : UInt32
  killFlag : Bool
  noPreempt : Bool
  sets : ℕ
  failed : Bool
deriving DecidableEq, Repr

inductive Act where
  | exit (status : UInt32)
  | fault
  | run
  | kill
  | tick (alone : Bool)
  | block
deriving DecidableEq, Repr

def advance (p : Process) : Option Process :=
  match p.point with
  | .setting b v .check =>
    if p.isReady then some { p with failed := true }
    else some { p with point := .setting b v .store }
  | .setting b v .store => some { p with t := v, point := .setting b v .publish }
  | .setting b v .publish =>
    some { p with isReady := true, sets := p.sets + 1, point := .setting b v .wake }
  | .setting b _ .wake => some { p with point := .stopping b }
  | .stopping _ => some { p with noPreempt := true, point := .stopped }
  | _ => none

def Point.interruptible : Point → Bool
  | .elsewhere | .setting .own _ _ | .stopping .own => true
  | _ => false

/-- `apitHandler`, which leaves `no_preempt` set when `yield` finds no other thread. -/
def tick (p : Process) (alone : Bool) : Process :=
  if p.noPreempt then p
  else if p.killFlag then { p with point := .setting .timer 1 .check }
  else { p with noPreempt := alone }

def act (p : Process) : Act → Option Process
  | .exit status =>
    if p.point = .elsewhere then some { p with point := .setting .own status .check } else none
  | .fault => if p.point = .elsewhere then some { p with point := .setting .own 1 .check } else none
  | .run => advance p
  | .kill => some { p with killFlag := true }
  | .tick alone => if p.point.interruptible then some (tick p alone) else none
  | .block => if p.point = .elsewhere then some { p with noPreempt := false } else none

def step (p : Process) (a : Act) : Option Process := if p.failed then none else act p a

def start : Process := ⟨.elsewhere, false, 0, false, false, 0, false⟩

def processes : System Process Act where
  init p := p = start
  step p a q := step p a = some q

/-- The future is set and the thread has not reached `no_preempt = 1` in `stop`. -/
def Point.published : Point → Bool
  | .setting _ _ .wake | .stopping _ => true
  | _ => false

/-- No tick finds the process killed after its own `isReady = true` and before the
`no_preempt = 1` of `stop`. -/
def NoLateKill (p : Process) (a : Act) : Prop :=
  ∀ alone, a = .tick alone → p.killFlag → p.noPreempt = false → p.point.interruptible →
    p.point.published = false

structure Inv (p : Process) : Prop where
  ready : p.isReady → p.point.published ∨ p.point = .stopped
  sets : p.sets = if p.isReady then 1 else 0
  asserted : p.failed = false

theorem Inv.not_ready {p : Process} (h : Inv p) (hp : p.point.published = false)
    (hs : p.point ≠ .stopped) : p.isReady = false := by
  cases hr : p.isReady with
  | false => rfl
  | true =>
    rcases h.ready hr with hpub | hstop
    · rw [hp] at hpub
      cases hpub
    · exact absurd hstop hs

theorem Inv.goto {p : Process} (h : Inv p) (hr : p.isReady = false) (q : Point) :
    Inv { p with point := q } := by
  refine ⟨fun hq => ?_, h.sets, h.asserted⟩
  rw [show p.isReady = true from hq] at hr
  cases hr

theorem Inv.advance {p q : Process} (h : Inv p) (hq : advance p = some q) : Inv q := by
  unfold Completion.advance at hq
  split at hq
  case h_1 b v hp =>
    have hr : p.isReady = false := h.not_ready (by rw [hp]; rfl) (by simp [hp])
    simp only [hr, Bool.false_eq_true, if_false, Option.some.injEq] at hq
    rw [← hq, ← hr]
    exact h.goto hr _
  case h_2 b v hp =>
    cases hq
    have hr : p.isReady = false := h.not_ready (by rw [hp]; rfl) (by simp [hp])
    have hg := h.goto hr (.setting b v .publish)
    exact ⟨hg.ready, hg.sets, hg.asserted⟩
  case h_3 b v hp =>
    cases hq
    have hr : p.isReady = false := h.not_ready (by rw [hp]; rfl) (by simp [hp])
    refine ⟨fun _ => Or.inl rfl, ?_, h.asserted⟩
    simp [h.sets, hr]
  case h_4 b v hp =>
    cases hq
    exact ⟨fun _ => Or.inl rfl, h.sets, h.asserted⟩
  case h_5 b hp =>
    cases hq
    exact ⟨fun _ => Or.inr rfl, h.sets, h.asserted⟩
  case h_6 => cases hq

theorem Inv.tick {p : Process} {alone : Bool} (h : Inv p) (hg : NoLateKill p (.tick alone))
    (hi : p.point.interruptible) : Inv (tick p alone) := by
  unfold Completion.tick
  split
  case isTrue => exact h
  case isFalse hn =>
    split
    case isTrue hk =>
      apply h.goto
      apply h.not_ready
      · exact hg alone rfl hk (by simpa using hn) hi
      · intro hs
        rw [hs] at hi
        cases hi
    case isFalse => exact ⟨h.ready, h.sets, h.asserted⟩

theorem Inv.act {p q : Process} {a : Act} (h : Inv p) (hg : NoLateKill p a)
    (hq : act p a = some q) : Inv q := by
  cases a with
  | exit status =>
    simp only [Completion.act, Option.ite_none_right_eq_some, Option.some.injEq] at hq
    rw [← hq.2]
    exact h.goto (h.not_ready (by rw [hq.1]; rfl) (by simp [hq.1])) _
  | fault =>
    simp only [Completion.act, Option.ite_none_right_eq_some, Option.some.injEq] at hq
    rw [← hq.2]
    exact h.goto (h.not_ready (by rw [hq.1]; rfl) (by simp [hq.1])) _
  | run => exact h.advance hq
  | kill =>
    cases hq
    exact ⟨h.ready, h.sets, h.asserted⟩
  | tick alone =>
    simp only [Completion.act, Option.ite_none_right_eq_some, Option.some.injEq] at hq
    rw [← hq.2]
    exact h.tick hg hq.1
  | block =>
    simp only [Completion.act, Option.ite_none_right_eq_some, Option.some.injEq] at hq
    rw [← hq.2]
    exact ⟨h.ready, h.sets, h.asserted⟩

theorem inv_inductive : (processes.restrict NoLateKill).Inductive Inv where
  init p hp := by
    subst hp
    refine ⟨fun h => ?_, rfl, rfl⟩
    cases h
  step p a q h hst := by
    obtain ⟨hg, hst⟩ := hst
    have hq : act p a = some q := by simpa [processes, Completion.step, h.asserted] using hst
    exact h.act hg hq

/-- Without a late kill the future is set at most once and the `ASSERT` of `set` holds. -/
theorem completed_once {p : Process} (hp : Reachable (processes.restrict NoLateKill) p) :
    p.failed = false ∧ p.sets ≤ 1 := by
  have h := hp.invariant inv_inductive
  refine ⟨h.asserted, ?_⟩
  rw [h.sets]
  split <;> omega

def noLateKill (p : Process) : Act → Bool
  | .tick _ => !(p.killFlag && !p.noPreempt && p.point.interruptible && p.point.published)
  | _ => true

theorem noLateKill_sound (p : Process) (a : Act) (h : noLateKill p a) : NoLateKill p a := by
  rintro alone rfl hk hn hi
  simpa [noLateKill, hk, hn, hi] using h

def earlyKill : List Act := [.exit 0, .run, .kill, .tick false, .run, .run, .run, .run, .run]

theorem early_kill_completed_once : ∃ p, Reachable (processes.restrict NoLateKill) p ∧
    p.point = .stopped ∧ p.killFlag ∧ p.isReady ∧ p.failed = false ∧ p.sets ≤ 1 := by
  have hrun : run step noLateKill start earlyKill =
      some ⟨.stopped, true, 1, true, true, 1, false⟩ := by decide
  have hp : Reachable (processes.restrict NoLateKill) ⟨.stopped, true, 1, true, true, 1, false⟩ := by
    refine run_reachable ?_ (.start rfl) hrun
    intro p a q ht hst
    exact ⟨noLateKill_sound p a ht, hst⟩
  exact ⟨_, hp, rfl, rfl, rfl, completed_once hp⟩

theorem late_kill_fails {p : Process} (alone : Bool) (hf : p.failed = false) (hr : p.isReady)
    (hi : p.point.interruptible) (hk : p.killFlag) (hn : p.noPreempt = false) :
    run step (fun _ _ => true) p [.tick alone, .run] =
      some { p with point := .setting .timer 1 .check, failed := true } := by
  simp [run, step, act, hf, hi, tick, hn, hk, advance, hr]

def lateKill : List Act := [.exit 0, .run, .run, .run, .kill]

theorem killed_while_exiting : ¬∀ p, Reachable processes p → p.failed = false ∧ p.sets ≤ 1 := by
  intro hall
  have hrun : run step (fun _ _ => true) start lateKill =
      some ⟨.setting .own 0 .wake, true, 0, true, false, 1, false⟩ := by decide
  have hp : Reachable processes ⟨.setting .own 0 .wake, true, 0, true, false, 1, false⟩ :=
    run_reachable (fun _ _ _ _ hst => hst) (.start rfl) hrun
  have hlate := late_kill_fails (p := ⟨.setting .own 0 .wake, true, 0, true, false, 1, false⟩)
    false rfl rfl rfl rfl rfl
  have hfail := run_reachable (S := processes) (fun _ _ _ _ hst => hst) hp hlate
  cases (hall _ hfail).1

end MMapKernel.Completion
