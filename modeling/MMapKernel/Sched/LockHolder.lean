import MMapKernel.Sched.Residence

/-!
# Who holds a blocking lock

The timer stops a killed thread wherever it is outside `block`, also between the `lock` and the
`unlock` of a guard.
-/

open Transition
namespace MMapKernel.Sched

variable {N : ℕ} {isLock : ℕ → Bool} {s t : State N} {a : Act N} {c : Fin N} {x : TCB N} {q : ℕ}

theorem holder_step (hs : Step isLock s a t) (h : t.holder q = some x) : s.holder q = some x ∨
    (∀ c, a ≠ .stop c) ∧
      ((∃ c, s.phase c = .running ∧ s.activeThreads c = x) ∨ ∃ p, s.At x (.waiting p)) := by
  cases hs with
  | @schedule c y rest he hh =>
    obtain ⟨l, hl⟩ := schedule_eq (s.drop (s.activeThreads c)) y
    rw [hl] at h
    exact Or.inl h
  | @release c p he hl ho hw =>
    by_cases hqp : q = p
    · subst hqp
      simp [State.release] at h
    · left
      simpa [State.release, hqp] using h
  | @wake c p y rest he hl ho hw =>
    by_cases hqp : q = p
    · subst hqp
      simp only [State.wake, Function.update_self, Option.some.injEq] at h
      subst h
      exact Or.inr ⟨by simp, Or.inr ⟨q, by simp [State.At, hw]⟩⟩
    · left
      simpa [State.wake, State.push, hqp] using h
  | @take c p hp hl hc =>
    by_cases hqp : q = p
    · subst hqp
      simp only [State.take, Function.update_self, Option.some.injEq] at h
      exact Or.inr ⟨by simp, Or.inl ⟨c, hp, h⟩⟩
    · left
      simpa [State.take, hqp] using h
  | @requeue c me hp =>
    obtain ⟨l, hl⟩ := schedule_eq (s.enter c .running) me
    rw [hl] at h
    exact Or.inl h
  | @bury c me hp =>
    obtain ⟨l, hl⟩ := bury_eq (s.enter c .running) me
    rw [hl] at h
    exact Or.inl h
  | _ => exact Or.inl h

def LockCounts (isLock : ℕ → Bool) (s : State N) : Prop :=
  ∀ q, isLock q → s.count q = if s.holder q = none then 1 else 0

theorem lockCounts_step (h : LockCounts isLock s) (hs : Step isLock s a t) :
    LockCounts isLock t := by
  intro q hq
  cases hs with
  | @schedule c y rest he hh =>
    obtain ⟨l, hl⟩ := schedule_eq (s.drop (s.activeThreads c)) y
    rw [hl]
    exact h q hq
  | @release c p he hl ho hw =>
    by_cases hqp : q = p
    · subst hqp
      have hc := h q hq
      rw [ho hq] at hc
      simp [State.release, hc]
    · simpa [State.release, hqp] using h q hq
  | @wake c p y rest he hl ho hw =>
    by_cases hqp : q = p
    · subst hqp
      have hc := h q hq
      rw [ho hq] at hc
      simpa [State.wake, State.push] using hc
    · simpa [State.wake, State.push, hqp] using h q hq
  | @take c p hp hl hc =>
    by_cases hqp : q = p
    · subst hqp
      have hcount := h q hq
      split at hcount
      case isTrue hnone => simp [State.take, hcount]
      case isFalse hsome =>
        rw [hcount] at hc
        exact absurd hc (by decide)
    · simpa [State.take, hqp] using h q hq
  | @requeue c me hp =>
    obtain ⟨l, hl⟩ := schedule_eq (s.enter c .running) me
    rw [hl]
    exact h q hq
  | @bury c me hp =>
    obtain ⟨l, hl⟩ := bury_eq (s.enter c .running) me
    rw [hl]
    exact h q hq
  | _ => exact h q hq

theorem enter_dying {d : Fin N} {p : Phase N} (hp : p ≠ .dying)
    (h : (s.enter d p).phase c = .dying) : c ≠ d ∧ s.phase c = .dying := by
  by_cases hd : c = d
  · subst hd
    simp only [State.enter, Function.update_self] at h
    exact absurd h hp
  · simp only [State.enter, Function.update_of_ne hd] at h
    exact ⟨hd, h⟩

structure Killed (s : State N) (a : Act N) (c : Fin N) (n : ℕ) : Prop where
  tick : a = .tick c
  running : s.phase c = .running
  active : s.activeThreads c = .thread n
  preemptible : s.noPreempt (.thread n) = false
  flag : s.killFlag (.thread n)

theorem dying_step (hs : Step isLock s a t) (h : t.phase c = .dying) :
    s.phase c = .dying ∧ t.activeThreads c = s.activeThreads c ∨
    ∃ n, Killed s a c n ∧ t.activeThreads = s.activeThreads ∧ t.holder = s.holder := by
  cases hs with
  | @schedule d y rest he hh =>
    obtain ⟨l, hl⟩ := schedule_eq (s.drop (s.activeThreads d)) y
    rw [hl] at h ⊢
    exact Or.inl ⟨h, rfl⟩
  | @await d p hp hl hc => exact Or.inl ⟨(enter_dying (by simp) h).2, rfl⟩
  | yield hp => exact Or.inl ⟨(enter_dying (by simp) h).2, rfl⟩
  | stop he => exact Or.inl ⟨(enter_dying (by simp) h).2, rfl⟩
  | dequeue hp hr => exact Or.inl ⟨(enter_dying (by simp) h).2, rfl⟩
  | giveUp hp hr => exact Or.inl ⟨(enter_dying (by simp) h).2, rfl⟩
  | useIdle hp hf hr ha => exact Or.inl ⟨(enter_dying (by simp) h).2, rfl⟩
  | @activate d f y hp =>
    obtain ⟨hd, hdy⟩ := enter_dying (s := s) (p := .switching (s.activeThreads d) f) (by simp) h
    exact Or.inl ⟨hdy, by simp [State.activate, hd]⟩
  | @switch d me f hp =>
    exact Or.inl ⟨(enter_dying (s := s) (p := .handling me f) (by simp) h).2, rfl⟩
  | @requeue d me hp =>
    obtain ⟨l, hl⟩ := schedule_eq (s.enter d .running) me
    rw [hl] at h ⊢
    exact Or.inl ⟨(enter_dying (p := .running) (by simp) h).2, rfl⟩
  | @bury d me hp =>
    obtain ⟨l, hl⟩ := bury_eq (s.enter d .running) me
    rw [hl] at h ⊢
    exact Or.inl ⟨(enter_dying (p := .running) (by simp) h).2, rfl⟩
  | @enqueue d n p hp => exact Or.inl ⟨(enter_dying (p := .running) (by simp) h).2, rfl⟩
  | @tickKill d n hp ha hn hk =>
    by_cases hd : c = d
    · subst hd
      exact Or.inr ⟨n, ⟨rfl, hp, ha, hn, hk⟩, rfl, rfl⟩
    · refine Or.inl ⟨?_, rfl⟩
      simpa [State.enter, State.charge, hd] using h
  | tickYield hp ha hn hk => exact Or.inl ⟨(enter_dying (by simp) h).2, rfl⟩
  | _ => exact Or.inl ⟨h, rfl⟩

/-- No tick ends a thread that has taken a lock, and no such thread calls `stop`, by a fatal
page fault or otherwise. -/
def DiesUnlocked (isLock : ℕ → Bool) (s : State N) (a : Act N) : Prop :=
  ∀ c n q, isLock q → s.holder q = some (.thread n) →
    ¬Killed s a c n ∧ ¬(a = .stop c ∧ s.phase c = .running ∧ s.activeThreads c = .thread n)

structure HolderInv (isLock : ℕ → Bool) (s : State N) : Prop where
  threads : ThreadInv s
  counts : LockCounts isLock s
  alive : ∀ q n, isLock q → s.holder q = some (.thread n) → ¬Gone s (.thread n)
  dying : ∀ c n q, s.phase c = .dying → s.activeThreads c = .thread n → isLock q →
    s.holder q ≠ some (.thread n)

namespace HolderInv

variable {n : ℕ}

theorem not_gone_before (h : HolderInv isLock s) (hs : Step isLock s a t) (hq : isLock q)
    (hh : t.holder q = some (.thread n)) : ¬Gone s (.thread n) := by
  rcases holder_step hs hh with hh | ⟨-, ⟨c, hp, ha⟩ | ⟨p, hw⟩⟩
  · exact h.alive q n hq hh
  · rw [← ha]
    apply h.threads.not_gone
    rw [hp]
    rfl
  · exact h.threads.not_gone_waiting hw

theorem alive_step (h : HolderInv isLock s) (hg : DiesUnlocked isLock s a)
    (hs : Step isLock s a t) (hq : isLock q) (hh : t.holder q = some (.thread n)) :
    ¬Gone t (.thread n) := by
  intro hgone
  rcases gone_step h.threads hs hgone with hgs | ⟨c, rfl, hc⟩
  · exact h.not_gone_before hs hq hh hgs
  · rcases holder_step hs hh with hh | ⟨hns, -⟩
    · cases hs with
      | stop he =>
        cases hp : s.phase c with
        | running => exact (hg c n q hq hh).2 ⟨rfl, hp, hc.symm⟩
        | dying => exact h.dying c n q hp hc.symm hq hh
        | _ => simp [hp, Phase.executes] at he
    · exact hns c rfl

theorem dying_step (h : HolderInv isLock s) (hg : DiesUnlocked isLock s a)
    (hs : Step isLock s a t) (hp : t.phase c = .dying) (ha : t.activeThreads c = .thread n)
    (hq : isLock q) : t.holder q ≠ some (.thread n) := by
  intro hh
  rcases Sched.dying_step hs hp with ⟨hps, has⟩ | ⟨m, hk, has, hhs⟩
  · rw [has] at ha
    have hat : s.At (.thread n) (.active c) := ha
    rcases holder_step hs hh with hh | ⟨-, ⟨d, hpd, had⟩ | ⟨p, hw⟩⟩
    · exact h.dying c n q hps ha hq hh
    · cases h.threads.located.exclusive hat (q := .active d) had
      rw [hps] at hpd
      cases hpd
    · cases h.threads.located.exclusive hat hw
  · rw [has, hk.active] at ha
    cases ha
    rw [hhs] at hh
    exact (hg c n q hq hh).1 hk

end HolderInv

theorem holderInv_inductive :
    ((scheduler (N := N) isLock).restrict (DiesUnlocked isLock)).Inductive (HolderInv isLock) where
  init s hb := by
    refine ⟨.booted hb, fun q hq => ?_, fun q n _ hh => ?_, fun c n q hp _ _ => ?_⟩
    · rw [hb.holder, hb.count q hq]
      rfl
    · rw [hb.holder] at hh
      cases hh
    · rw [hb.phase] at hp
      cases hp
  step s a t h hst := by
    have hs := step_cases hst.2
    exact ⟨h.threads.step hs, lockCounts_step h.counts hs, fun q n hq hh => h.alive_step hst.1 hs hq hh,
      fun c n q hp ha hq => h.dying_step hst.1 hs hp ha hq⟩

/-- As long as no thread dies with a lock, who has taken a lock is alive. -/
theorem lock_holder_alive (hs : Reachable ((scheduler isLock).restrict (DiesUnlocked isLock)) s)
    (hq : isLock q) (hc : s.count q = 0) :
    ∃ x, s.holder q = some x ∧ x ∉ s.zombies ∧ x ∉ s.deleted := by
  have h := hs.invariant holderInv_inductive
  have hcount := h.counts q hq
  cases hh : s.holder q with
  | none =>
    rw [hh, hc, if_pos rfl] at hcount
    exact absurd hcount (by decide)
  | some x =>
    refine ⟨x, rfl, ?_⟩
    cases x with
    | idle d =>
      refine ⟨(h.threads.idle_not_mem d).2, fun hd => ?_⟩
      cases h.threads.located.not_idle (p := .deleted) hd rfl
    | thread n =>
      have hn := h.alive q n hq hh
      exact ⟨fun hz => hn (Or.inl ⟨.zombie, rfl, hz⟩), fun hd => hn (Or.inl ⟨.deleted, rfl, hd⟩)⟩

def quiet (s : State N) : Act N → Bool
  | .tick c => !s.killFlag (s.activeThreads c)
  | .stop c => (s.activeThreads c).isIdle
  | _ => true

theorem quiet_sound (s : State N) (a : Act N) (h : quiet s a) : DiesUnlocked isLock s a := by
  intro c n q _ _
  refine ⟨fun hk => ?_, fun hstop => ?_⟩
  · rw [hk.tick] at h
    simp [quiet, hk.active, hk.flag] at h
  · obtain ⟨rfl, -, ha⟩ := hstop
    simp [quiet, ha, TCB.isIdle] at h

def heapLock (q : ℕ) : Bool := q == 0

theorem taken_lock_holder_alive : ∃ s : State 1,
    Reachable ((scheduler heapLock).restrict (DiesUnlocked heapLock)) s ∧ s.count 0 = 0 ∧
    ∃ x, s.holder 0 = some x ∧ x ∉ s.zombies ∧ x ∉ s.deleted := by
  have hrun : (run (step heapLock) quiet (boot 1 heapLock) (firstSwitch ++ [.down 0 0])).map
      (fun s => s.count 0) = some 0 := rfl
  obtain ⟨s, hs, hc⟩ := Option.map_eq_some_iff.mp hrun
  have hg : Reachable ((scheduler heapLock).restrict (DiesUnlocked heapLock)) s :=
    boot_reachable quiet_sound hs
  exact ⟨s, hg, hc, lock_holder_alive hg rfl hc⟩

def killedInGuard : List (Act 1) := firstSwitch ++
  [.down 0 0, .kill (.thread 0), .tick 0, .up 0 1, .stop 0, .pick 0, .activate 0, .switch 0, .handle 0]

theorem killed_thread_keeps_lock : ¬∀ s : State 1, Reachable (scheduler heapLock) s →
    ∀ q, heapLock q → s.count q = 0 → ∀ x, s.holder q = some x → x ∉ s.zombies ∧ x ∉ s.deleted := by
  intro hall
  have hrun : (run (step heapLock) (fun _ _ => true) (boot 1 heapLock) killedInGuard).map
      (fun s => (s.count 0, s.holder 0, s.zombies)) = some (0, some (.thread 0), [.thread 0]) := rfl
  obtain ⟨s, hs, hvals⟩ := Option.map_eq_some_iff.mp hrun
  obtain ⟨hc, hvals⟩ := Prod.mk.inj hvals
  obtain ⟨hh, hz⟩ := Prod.mk.inj hvals
  have hr : Reachable (scheduler heapLock) s := boot_run_reachable hs
  apply (hall s hr 0 rfl hc (.thread 0) hh).1
  rw [hz]
  exact List.mem_singleton_self _

end MMapKernel.Sched
