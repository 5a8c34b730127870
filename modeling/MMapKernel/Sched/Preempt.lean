import MMapKernel.Sched.Residence

/-!
# When the timer may preempt a thread

`no_preempt` is set at the entry of `block` and cleared in the context switch. A thread that
`yield` finds alone returns from `block` without a switch, and with the flag still set.
-/

open Transition
namespace MMapKernel.Sched

variable {N : ℕ} {isLock : ℕ → Bool} {s t : State N} {a : Act N} {c : Fin N} {x : TCB N}

/-- The threads whose `no_preempt` a core in `block` has set, given the active one. -/
def Phase.shields : Phase N → TCB N → TCB N → Prop
  | .picking _, active, x | .picked _ _, active, x => active = x
  | .switching me _, active, x => active = x ∨ me = x
  | _, _, _ => False

def State.shields (s : State N) (c : Fin N) (x : TCB N) : Prop :=
  (s.phase c).shields (s.activeThreads c) x

theorem shields_at (h : s.shields c x) : s.At x (.active c) ∨ s.At x (.leaving c) := by
  unfold State.shields at h
  cases hp : s.phase c with
  | picking f =>
    rw [hp] at h
    exact Or.inl h
  | picked f y =>
    rw [hp] at h
    exact Or.inl h
  | switching me f =>
    rw [hp] at h
    refine h.imp id fun hme => ?_
    simp [State.At, hp, Phase.leaving, hme]
  | _ => simp [hp, Phase.shields] at h

theorem not_shields_of_executes (hp : (s.phase c).executes) : ¬s.shields c x := by
  unfold State.shields
  cases h : s.phase c with
  | running => exact id
  | dying => exact id
  | _ => simp [h, Phase.executes] at hp

theorem ThreadInv.core_eq {d : Fin N} (h : ThreadInv s)
    (hc : s.At x (.active c) ∨ s.At x (.leaving c))
    (hd : s.At x (.active d) ∨ s.At x (.leaving d)) : d = c := by
  rcases hc with hc | hc
  · rcases hd with hd | hd
    · cases h.located.exclusive hc hd
      rfl
    · cases h.located.exclusive hc hd
  · rcases hd with hd | hd
    · cases h.located.exclusive hc hd
    · cases h.located.exclusive hc hd
      rfl

/-- The changes of `no_preempt`, of the active threads and of the phases. -/
inductive Flags (s : State N) (a : Act N) (t : State N) : Prop
  | same : t.activeThreads = s.activeThreads → t.phase = s.phase → t.noPreempt = s.noPreempt →
      Flags s a t
  | create : t.activeThreads = s.activeThreads → t.phase = s.phase →
      t.noPreempt = Function.update s.noPreempt (.thread s.nextId) false → Flags s a t
  | block (c : Fin N) (f : Caller) : (s.phase c).executes → t.activeThreads = s.activeThreads →
      t.phase = Function.update s.phase c (.picking f) →
      t.noPreempt = Function.update s.noPreempt (s.activeThreads c) true → Flags s a t
  | enter (c : Fin N) (p : Phase N) : t.activeThreads = s.activeThreads →
      t.phase = Function.update s.phase c p → t.noPreempt = s.noPreempt →
      (∀ x, p.shields (s.activeThreads c) x ↔ s.shields c x) → Flags s a t
  | giveUp (c : Fin N) : a = .pick c → s.phase c = .picking .yield → s.readyQ = [] →
      t = s.enter c .running → Flags s a t
  | activate (c : Fin N) (f : Caller) (y : TCB N) : s.phase c = .picked f y →
      t = s.activate c f y → Flags s a t
  | switch (c : Fin N) (me : TCB N) (f : Caller) : s.phase c = .switching me f →
      t = s.contextSwitch c me f → Flags s a t

theorem step_flags (hs : Step isLock s a t) : Flags s a t := by
  cases hs with
  | create hp => exact .create rfl rfl rfl
  | @schedule c y rest he hh =>
    obtain ⟨l, hl⟩ := schedule_eq (s.drop (s.activeThreads c)) y
    rw [hl]
    exact .same rfl rfl rfl
  | await hp hl hc => exact .block _ _ (by rw [hp]; rfl) rfl rfl rfl
  | yield hp => exact .block _ _ (by rw [hp]; rfl) rfl rfl rfl
  | stop he => exact .block _ _ he rfl rfl rfl
  | @dequeue c f y rest hp hr =>
    refine .enter c (.picked f y) rfl rfl rfl fun x => ?_
    rw [State.shields, hp]
    rfl
  | giveUp hp hr => exact .giveUp _ rfl hp hr rfl
  | @useIdle c f n hp hf hr ha =>
    refine .enter c (.picked f (.idle c)) rfl rfl rfl fun x => ?_
    rw [State.shields, hp]
    rfl
  | activate hp => exact .activate _ _ _ hp rfl
  | switch hp => exact .switch _ _ _ hp rfl
  | @requeue c me hp =>
    obtain ⟨l, hl⟩ := schedule_eq (s.enter c .running) me
    rw [hl]
    refine .enter c .running rfl rfl rfl fun x => ?_
    rw [State.shields, hp]
    rfl
  | @bury c me hp =>
    obtain ⟨l, hl⟩ := bury_eq (s.enter c .running) me
    rw [hl]
    refine .enter c .running rfl rfl rfl fun x => ?_
    rw [State.shields, hp]
    rfl
  | @enqueue c n q hp =>
    refine .enter c .running rfl rfl rfl fun x => ?_
    rw [State.shields, hp]
    rfl
  | @tickKill c n hp ha hn hk =>
    refine .enter c .dying rfl rfl rfl fun x => ?_
    rw [State.shields, hp]
    rfl
  | @tickYield c n hp ha hn hk => exact .block c .yield (by rw [hp]; rfl) rfl rfl rfl
  | _ => exact .same rfl rfl rfl

def Shielded (s : State N) : Prop := ∀ c x, s.shields c x → s.noPreempt x

theorem shielded_step (hi : ThreadInv s) (h : Shielded s) (hf : Flags s a t) : Shielded t := by
  intro d x hx
  cases hf with
  | same ha hp hn =>
    rw [hn]
    apply h d x
    rwa [State.shields, ← hp, ← ha]
  | create ha hp hn =>
    have hs : s.shields d x := by rwa [State.shields, ← hp, ← ha]
    have hne : x ≠ .thread s.nextId := by
      rintro rfl
      rcases shields_at hs with hat | hat
      · exact hi.located.nowhere _ hat
      · exact hi.located.nowhere _ hat
    rw [hn, Function.update_of_ne hne]
    exact h d x hs
  | block c f he ha hp hn =>
    rw [hn]
    by_cases hxc : x = s.activeThreads c
    · rw [hxc, Function.update_self]
    · rw [Function.update_of_ne hxc]
      apply h d x
      rw [State.shields, hp, ha] at hx
      by_cases hd : d = c
      · subst hd
        rw [Function.update_self] at hx
        exact absurd hx.symm hxc
      · rwa [Function.update_of_ne hd] at hx
  | enter c p ha hp hn hsh =>
    rw [hn]
    apply h d x
    rw [State.shields, hp, ha] at hx
    by_cases hd : d = c
    · subst hd
      rw [Function.update_self] at hx
      exact (hsh x).mp hx
    · rwa [Function.update_of_ne hd] at hx
  | giveUp c ha hp hr ht =>
    subst ht
    apply h d x
    by_cases hd : d = c
    · subst hd
      simp [State.shields, State.enter, Phase.shields] at hx
    · simpa [State.shields, State.enter, hd] using hx
  | activate c f y hp ht =>
    subst ht
    simp only [State.activate]
    by_cases hxy : x = y
    · rw [hxy, Function.update_self]
    · rw [Function.update_of_ne hxy]
      apply h d x
      by_cases hd : d = c
      · subst hd
        simp only [State.shields, State.activate, State.enter, Function.update_self, Phase.shields] at hx
        rw [State.shields, hp]
        exact hx.resolve_left fun hyx => hxy hyx.symm
      · simpa [State.shields, State.activate, State.enter, hd] using hx
  | switch c me f hp ht =>
    subst ht
    by_cases hd : d = c
    · subst hd
      simp [State.shields, State.contextSwitch, State.enter, Phase.shields] at hx
    · have hs : s.shields d x := by
        simpa [State.shields, State.contextSwitch, State.enter, hd] using hx
      have hme : x ≠ me := by
        rintro rfl
        have hl : s.At x (.leaving c) := by simp [State.At, hp, Phase.leaving]
        exact hd (hi.core_eq (Or.inr hl) (shields_at hs))
      have hac : x ≠ s.activeThreads c := by
        rintro rfl
        exact hd (hi.core_eq (Or.inl rfl) (shields_at hs))
      simp only [State.contextSwitch, Function.update_of_ne hac, Function.update_of_ne hme]
      exact h d x hs

theorem shielded_reachable (hs : Reachable (scheduler isLock) s) : Shielded s := by
  have hI : (scheduler (N := N) isLock).Inductive fun s => ThreadInv s ∧ Shielded s := by
    refine ⟨fun s hb => ⟨.booted hb, fun c x hx => ?_⟩, fun s a t h hst => ?_⟩
    · simp [State.shields, hb.phase, Phase.shields] at hx
    · exact ⟨h.1.step (step_cases hst), shielded_step h.1 h.2 (step_flags (step_cases hst))⟩
  exact (hs.invariant hI).2

theorem tick_ignored_in_block (hs : Reachable (scheduler isLock) s)
    (hx : s.shields c (s.activeThreads c)) : step isLock s (.tick c) = some s := by
  have hn := shielded_reachable hs c _ hx
  have hi : (s.phase c).interruptible := by
    cases hp : s.phase c with
    | dying => simp [State.shields, hp, Phase.shields] at hx
    | handling me f => simp [State.shields, hp, Phase.shields] at hx
    | _ => rfl
  simp [step, hi, apitHandler, hn]

def FindsReady (s : State N) (a : Act N) : Prop :=
  ∀ c, a = .pick c → s.phase c = .picking .yield → (s.activeThreads c).isIdle = false →
    s.readyQ ≠ []

def Bare (s : State N) : Prop := ∀ n, s.noPreempt (.thread n) → ∃ c, s.shields c (.thread n)

theorem bare_step (h : Bare s) (hg : FindsReady s a) (hf : Flags s a t) : Bare t := by
  intro n hn
  cases hf with
  | same ha hp hn' =>
    rw [hn'] at hn
    obtain ⟨d, hd⟩ := h n hn
    exact ⟨d, by rwa [State.shields, hp, ha]⟩
  | create ha hp hn' =>
    rw [hn'] at hn
    by_cases hx : TCB.thread n = (.thread s.nextId : TCB N)
    · rw [hx, Function.update_self] at hn
      cases hn
    · rw [Function.update_of_ne hx] at hn
      obtain ⟨d, hd⟩ := h n hn
      exact ⟨d, by rwa [State.shields, hp, ha]⟩
  | block c f he ha hp hn' =>
    by_cases hx : TCB.thread n = s.activeThreads c
    · refine ⟨c, ?_⟩
      rw [State.shields, hp, ha, Function.update_self]
      exact hx.symm
    · rw [hn', Function.update_of_ne hx] at hn
      obtain ⟨d, hd⟩ := h n hn
      have hdc : d ≠ c := by
        rintro rfl
        exact not_shields_of_executes he hd
      exact ⟨d, by rwa [State.shields, hp, ha, Function.update_of_ne hdc]⟩
  | enter c p ha hp hn' hsh =>
    rw [hn'] at hn
    obtain ⟨d, hd⟩ := h n hn
    refine ⟨d, ?_⟩
    rw [State.shields, hp, ha]
    by_cases hdc : d = c
    · subst hdc
      rw [Function.update_self]
      exact (hsh _).mpr hd
    · rwa [Function.update_of_ne hdc]
  | giveUp c ha hp hr ht =>
    subst ht
    obtain ⟨d, hd⟩ := h n hn
    have hdc : d ≠ c := by
      rintro rfl
      rw [State.shields, hp] at hd
      have hi : (s.activeThreads d).isIdle = false := by
        rw [show s.activeThreads d = .thread n from hd]
        rfl
      exact hg d ha hp hi hr
    exact ⟨d, by simpa [State.shields, State.enter, hdc] using hd⟩
  | activate c f y hp ht =>
    subst ht
    by_cases hx : TCB.thread n = y
    · refine ⟨c, ?_⟩
      simp [State.shields, State.activate, State.enter, Phase.shields, hx]
    · simp only [State.activate, Function.update_of_ne hx] at hn
      obtain ⟨d, hd⟩ := h n hn
      refine ⟨d, ?_⟩
      by_cases hdc : d = c
      · subst hdc
        rw [State.shields, hp] at hd
        simp only [State.shields, State.activate, State.enter, Function.update_self]
        exact Or.inr hd
      · simpa [State.shields, State.activate, State.enter, hdc] using hd
  | switch c me f hp ht =>
    subst ht
    by_cases hac : TCB.thread n = s.activeThreads c
    · simp [State.contextSwitch, hac] at hn
    by_cases hme : TCB.thread n = me
    · simp only [State.contextSwitch, Function.update_of_ne hac] at hn
      rw [hme, Function.update_self] at hn
      cases hn
    · simp only [State.contextSwitch, Function.update_of_ne hac, Function.update_of_ne hme] at hn
      obtain ⟨d, hd⟩ := h n hn
      have hdc : d ≠ c := by
        rintro rfl
        rw [State.shields, hp] at hd
        rcases hd with hd | hd
        · exact hac hd.symm
        · exact hme hd.symm
      exact ⟨d, by simpa [State.shields, State.contextSwitch, State.enter, hdc] using hd⟩

theorem bare_inductive : ((scheduler (N := N) isLock).restrict FindsReady).Inductive Bare where
  init s hb n hn := by
    rw [hb.noPreempt] at hn
    cases hn
  step _ _ _ h hst := bare_step h hst.1 (step_flags (step_cases hst.2))

theorem tick_charges {n : ℕ} (hp : s.phase c = .running) (ha : s.activeThreads c = .thread n)
    (hn : s.noPreempt (.thread n) = false) : ∃ t, step isLock s (.tick c) = some t ∧
      t.runTime (.thread n) = s.runTime (.thread n) + 1 ∧
      t.phase c = if s.killFlag (.thread n) then .dying else .picking .yield := by
  simp only [step, Phase.interruptible, if_true, apitHandler, ha, TCB.isIdle, hn, Bool.or_self, Bool.false_eq_true,
    if_false, hp]
  by_cases hk : s.killFlag (.thread n)
  · rw [if_pos hk, if_pos hk]
    exact ⟨_, rfl, by simp [State.enter, State.charge], by simp [State.enter]⟩
  · rw [if_neg hk, if_neg hk]
    exact ⟨_, rfl, by simp [State.block, State.enter, State.charge], by simp [State.block, State.enter]⟩

/-- As long as no thread that yields is left alone, a thread outside `block` can be preempted:
its flag is clear, and a tick charges it and then either ends it or makes it yield. -/
theorem preemptible_outside_block {n : ℕ}
    (hs : Reachable ((scheduler isLock).restrict FindsReady) s) (hp : s.phase c = .running)
    (ha : s.activeThreads c = .thread n) : s.noPreempt (.thread n) = false ∧
      ∃ t, step isLock s (.tick c) = some t ∧
        t.runTime (.thread n) = s.runTime (.thread n) + 1 ∧
        t.phase c = if s.killFlag (.thread n) then .dying else .picking .yield := by
  have hn : s.noPreempt (.thread n) = false := by
    by_contra hset
    obtain ⟨d, hd⟩ := hs.invariant bare_inductive n (by simpa using hset)
    have hi := threadInv_reachable hs.of_restrict
    have hdc : d = c := hi.core_eq (Or.inl ha) (shields_at hd)
    subst hdc
    rw [State.shields, hp] at hd
    exact hd
  exact ⟨hn, tick_charges hp ha hn⟩

def findsReady (s : State N) : Act N → Bool
  | .pick c => s.phase c != .picking .yield || (s.activeThreads c).isIdle || !s.readyQ.isEmpty
  | _ => true

theorem findsReady_sound (s : State N) (a : Act N) (h : findsReady s a) : FindsReady s a := by
  rintro c rfl hp hi hr
  simp [findsReady, hp, hi, hr] at h

def preemption : List (Act 1) := firstSwitch ++
  [.create 0, .schedule 0, .tick 0, .pick 0, .activate 0, .switch 0, .handle 0]

theorem second_thread_preemptible : ∃ s : State 1,
    Reachable ((scheduler fun _ => false).restrict FindsReady) s ∧ s.phase 0 = .running ∧
    s.activeThreads 0 = .thread 1 ∧ s.noPreempt (.thread 1) = false := by
  have hrun : (run (step fun _ => false) findsReady (boot 1 fun _ => false) preemption).map
      (fun s => (s.phase 0, s.activeThreads 0)) = some (.running, .thread 1) := rfl
  obtain ⟨s, hs, hvals⟩ := Option.map_eq_some_iff.mp hrun
  obtain ⟨hp, ha⟩ := Prod.mk.inj hvals
  have hg : Reachable ((scheduler fun _ => false).restrict FindsReady) s :=
    boot_reachable findsReady_sound hs
  exact ⟨s, hg, hp, ha, (preemptible_outside_block hg hp ha).1⟩

/-- The only thread is preempted and finds no other one. -/
theorem yield_alone_keeps_flag : ¬∀ s : State 1, Reachable (scheduler fun _ => false) s →
    ∀ c n, s.phase c = .running → s.activeThreads c = .thread n →
      s.noPreempt (.thread n) = false := by
  intro hall
  have hrun : (run (step fun _ => false) (fun _ _ => true) (boot 1 fun _ => false)
      (firstSwitch ++ [.tick 0, .pick 0])).map
      (fun s => (s.phase 0, s.activeThreads 0, s.noPreempt (.thread 0))) =
      some (.running, .thread 0, true) := rfl
  obtain ⟨s, hs, hvals⟩ := Option.map_eq_some_iff.mp hrun
  obtain ⟨hp, hvals⟩ := Prod.mk.inj hvals
  obtain ⟨ha, hn⟩ := Prod.mk.inj hvals
  have hr : Reachable (scheduler fun _ => false) s := boot_run_reachable hs
  have hf := hall s hr 0 0 hp ha
  rw [hn] at hf
  cases hf

end MMapKernel.Sched
