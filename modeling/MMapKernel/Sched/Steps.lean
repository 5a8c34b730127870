import MMapKernel.Sched.Model

/-!
# What one step of the scheduler can do
-/

open Transition
namespace MMapKernel.Sched

variable {N : ℕ} {isLock : ℕ → Bool} {s t : State N} {a : Act N}

inductive Step (isLock : ℕ → Bool) (s : State N) : Act N → State N → Prop
  | create {c} : s.phase c = .running → Step isLock s (.create c) (s.create c)
  | schedule {c x rest} : (s.phase c).executes → s.hand (s.activeThreads c) = (.schedule, x) :: rest →
      Step isLock s (.schedule c) ((s.drop (s.activeThreads c)).schedule x)
  | reap {c x rest} : s.phase c = .running → s.zombies = x :: rest →
      Step isLock s (.reap c) ({ s with zombies := rest }.push (s.activeThreads c) .delete x)
  | delete {c x rest} : s.phase c = .running → s.hand (s.activeThreads c) = (.delete, x) :: rest →
      Step isLock s (.delete c) { s.drop (s.activeThreads c) with deleted := x :: s.deleted }
  | release {c q} : (s.phase c).executes → s.lock q = false →
      (isLock q → s.holder q = some (s.activeThreads c)) → s.waiting q = [] →
      Step isLock s (.up c q) (s.release q)
  | wake {c q x rest} : (s.phase c).executes → s.lock q = false →
      (isLock q → s.holder q = some (s.activeThreads c)) → s.waiting q = x :: rest →
      Step isLock s (.up c q) (s.wake (s.activeThreads c) q x)
  | take {c q} : s.phase c = .running → s.lock q = false → 0 < s.count q →
      Step isLock s (.down c q) (s.take (s.activeThreads c) q)
  | await {c q} : s.phase c = .running → s.lock q = false → ¬0 < s.count q →
      Step isLock s (.down c q)
        ({ s with lock := Function.update s.lock q true }.block c (.down q))
  | yield {c} : s.phase c = .running → Step isLock s (.yield c) (s.block c .yield)
  | stop {c} : (s.phase c).executes → Step isLock s (.stop c) (s.block c .stop)
  | dequeue {c f x rest} : s.phase c = .picking f → s.readyQ = x :: rest →
      Step isLock s (.pick c) ({ s with readyQ := rest }.enter c (.picked f x))
  | giveUp {c} : s.phase c = .picking .yield → s.readyQ = [] →
      Step isLock s (.pick c) (s.enter c .running)
  | retry {c} : s.phase c = .picking .stop → s.readyQ = [] → s.activeThreads c = .idle c →
      Step isLock s (.pick c) s
  | useIdle {c f n} : s.phase c = .picking f → f ≠ .yield → s.readyQ = [] →
      s.activeThreads c = .thread n → Step isLock s (.pick c) (s.enter c (.picked f (.idle c)))
  | activate {c f x} : s.phase c = .picked f x → Step isLock s (.activate c) (s.activate c f x)
  | switch {c me f} : s.phase c = .switching me f →
      Step isLock s (.switch c) (s.contextSwitch c me f)
  | requeue {c me} : s.phase c = .handling me .yield →
      Step isLock s (.handle c) ((s.enter c .running).schedule me)
  | bury {c me} : s.phase c = .handling me .stop →
      Step isLock s (.handle c) ((s.enter c .running).bury me)
  | enqueue {c n q} : s.phase c = .handling (.thread n) (.down q) →
      Step isLock s (.handle c) ((s.enter c .running).await q (.thread n))
  | ignored {c} : (s.phase c).interruptible →
      (s.activeThreads c).isIdle ∨ s.noPreempt (s.activeThreads c) → Step isLock s (.tick c) s
  | tickKill {c n} : s.phase c = .running → s.activeThreads c = .thread n →
      s.noPreempt (.thread n) = false → s.killFlag (.thread n) →
      Step isLock s (.tick c) ((s.charge (.thread n)).enter c .dying)
  | tickYield {c n} : s.phase c = .running → s.activeThreads c = .thread n →
      s.noPreempt (.thread n) = false → s.killFlag (.thread n) = false →
      Step isLock s (.tick c) ((s.charge (.thread n)).block c .yield)
  | kill {x} : Step isLock s (.kill x) { s with killFlag := Function.update s.killFlag x true }

theorem pick_step {c : Fin N} {f : Caller} (hp : s.phase c = .picking f)
    (h : pick s c f = some t) : Step isLock s (.pick c) t := by
  unfold pick at h
  split at h
  case h_1 hq =>
    cases h
    exact .dequeue hp hq
  case h_2 hq =>
    cases h
    exact .giveUp hp hq
  case h_3 hq hf ha =>
    cases h
    exact .useIdle hp hf hq ha
  case h_4 => cases h
  case h_5 d hq ha =>
    split at h
    case isTrue hd =>
      cases h
      subst hd
      exact .retry hp hq ha
    case isFalse => cases h

theorem handle_step {c : Fin N} {me : TCB N} {f : Caller} (hp : s.phase c = .handling me f)
    (h : handle s c me f = some t) : Step isLock s (.handle c) t := by
  cases f with
  | yield =>
    cases h
    exact .requeue hp
  | stop =>
    cases h
    exact .bury hp
  | down q =>
    cases me with
    | idle d => simp [handle, TCB.isIdle] at h
    | thread n =>
      simp only [handle, TCB.isIdle, Bool.false_eq_true, if_false, Option.some.injEq] at h
      rw [← h]
      exact .enqueue hp

theorem apitHandler_step {c : Fin N} (hp : (s.phase c).interruptible)
    (h : apitHandler s c = some t) : Step isLock s (.tick c) t := by
  simp only [apitHandler, Bool.or_eq_true] at h
  split at h
  case isTrue hi =>
    cases h
    exact .ignored hp hi
  case isFalse hi =>
    rw [not_or, Bool.not_eq_true, Bool.not_eq_true] at hi
    obtain ⟨n, hn⟩ : ∃ n, s.activeThreads c = .thread n := by
      cases ha : s.activeThreads c with
      | idle d => simp [ha, TCB.isIdle] at hi
      | thread n => exact ⟨n, rfl⟩
    rw [hn] at h hi
    split at h
    case isTrue hr =>
      split at h
      case isTrue hk =>
        cases h
        exact .tickKill hr hn hi.2 hk
      case isFalse hk =>
        cases h
        exact .tickYield hr hn hi.2 (by simpa using hk)
    case isFalse => cases h

theorem up_step {c : Fin N} {q : ℕ} (hp : (s.phase c).executes)
    (h : up isLock s c q = some t) : Step isLock s (.up c q) t := by
  simp only [up] at h
  split at h
  case isTrue => cases h
  case isFalse hn =>
    have hl : s.lock q = false := by
      cases hl : s.lock q with
      | true => simp [hl] at hn
      | false => rfl
    have ho : isLock q → s.holder q = some (s.activeThreads c) := by
      intro hq
      simpa [hl, hq] using hn
    split at h
    case h_1 hw =>
      cases h
      exact .release hp hl ho hw
    case h_2 hw =>
      cases h
      exact .wake hp hl ho hw

theorem down_step {c : Fin N} {q : ℕ} (hp : s.phase c = .running)
    (h : down s c q = some t) : Step isLock s (.down c q) t := by
  simp only [down] at h
  split at h
  case isTrue => cases h
  case isFalse hl =>
    rw [Bool.not_eq_true] at hl
    split at h
    case isTrue hc =>
      cases h
      exact .take hp hl hc
    case isFalse hc =>
      cases h
      exact .await hp hl hc

theorem step_cases (h : step isLock s a = some t) : Step isLock s a t := by
  cases a with
  | create c =>
    simp only [step, Option.ite_none_right_eq_some, Option.some.injEq] at h
    exact h.2 ▸ .create h.1
  | schedule c =>
    simp only [step] at h
    split at h
    case h_1 he hh =>
      cases h
      exact .schedule he hh
    case h_2 => cases h
  | reap c =>
    simp only [step] at h
    split at h
    case h_1 hp hz =>
      cases h
      exact .reap hp hz
    case h_2 => cases h
  | delete c =>
    simp only [step] at h
    split at h
    case h_1 hp hh =>
      cases h
      exact .delete hp hh
    case h_2 => cases h
  | up c q =>
    simp only [step, Option.ite_none_right_eq_some] at h
    exact up_step h.1 h.2
  | down c q =>
    simp only [step, Option.ite_none_right_eq_some] at h
    exact down_step h.1 h.2
  | yield c =>
    simp only [step, Option.ite_none_right_eq_some, Option.some.injEq] at h
    exact h.2 ▸ .yield h.1
  | stop c =>
    simp only [step, Option.ite_none_right_eq_some, Option.some.injEq] at h
    exact h.2 ▸ .stop h.1
  | pick c =>
    simp only [step] at h
    split at h
    case h_1 hp => exact pick_step hp h
    case h_2 => cases h
  | activate c =>
    simp only [step] at h
    split at h
    case h_1 hp =>
      cases h
      exact .activate hp
    case h_2 => cases h
  | switch c =>
    simp only [step] at h
    split at h
    case h_1 hp =>
      cases h
      exact .switch hp
    case h_2 => cases h
  | handle c =>
    simp only [step] at h
    split at h
    case h_1 hp => exact handle_step hp h
    case h_2 => cases h
  | tick c =>
    simp only [step, Option.ite_none_right_eq_some] at h
    exact apitHandler_step h.1 h.2
  | kill x =>
    cases h
    exact .kill

theorem schedule_eq (s : State N) (x : TCB N) : ∃ l, s.schedule x = { s with readyQ := l } := by
  unfold State.schedule
  split
  case isTrue => exact ⟨s.readyQ, rfl⟩
  case isFalse => exact ⟨_, rfl⟩

theorem bury_eq (s : State N) (x : TCB N) : ∃ l, s.bury x = { s with zombies := l } := by
  unfold State.bury
  split
  case isTrue => exact ⟨s.zombies, rfl⟩
  case isFalse => exact ⟨_, rfl⟩

scoped instance coresNeZero : NeZero 1 := ⟨one_ne_zero⟩

def boot (N : ℕ) (isLock : ℕ → Bool) : State N where
  activeThreads := .idle
  phase _ := .running
  readyQ := []
  zombies := []
  deleted := []
  waiting _ := []
  count q := if isLock q then 1 else 0
  lock _ := false
  hand _ := []
  nextId := 0
  noPreempt _ := false
  runTime _ := 0
  killFlag _ := false
  stack := .idle
  cr3 := .idle
  holder _ := none

theorem boot_booted : Booted isLock (boot N isLock) where
  active _ := rfl
  stack _ := rfl
  cr3 _ := rfl
  phase _ := rfl
  readyQ := rfl
  zombies := rfl
  deleted := rfl
  waiting _ := rfl
  lock _ := rfl
  hand _ := rfl
  nextId := rfl
  noPreempt _ := rfl
  holder _ := rfl
  count q hq := by simp [boot, hq]

theorem boot_reachable {G : State N → Act N → Prop} {test : State N → Act N → Bool}
    (hG : ∀ s a, test s a → G s a) {as : List (Act N)}
    (h : run (step isLock) test (boot N isLock) as = some s) :
    Reachable ((scheduler isLock).restrict G) s := by
  refine run_reachable ?_ (.start boot_booted) h
  intro s a t ht hst
  exact ⟨hG s a ht, hst⟩

theorem boot_run_reachable {as : List (Act N)}
    (h : run (step isLock) (fun _ _ => true) (boot N isLock) as = some s) :
    Reachable (scheduler isLock) s :=
  (boot_reachable (G := fun _ _ => True) (fun _ _ _ => trivial) h).of_restrict

end MMapKernel.Sched
