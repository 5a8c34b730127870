import MMapKernel.Sched.LockHolder

/-!
# What a semaphore counts

A `down` that finds the count at 0 keeps the lock of the semaphore until its handler, on another
stack, has put the thread into `waiting`; it does not look at the count again. An `up` hands its
unit to the first thread that waits, and schedules it after it has released the lock.

`Logged` keeps beside the state what has happened at one semaphore. No code reads this.
-/

open Transition
namespace MMapKernel.Sched

variable {N : ℕ} {isLock : ℕ → Bool} {s t : State N} {a : Act N} {c : Fin N} {x y u : TCB N} {q : ℕ}

structure Logged (N : ℕ) where
  state : State N
  start : ℕ
  ups : ℕ
  taken : ℕ
  arrivals : List (TCB N)
  woken : List (TCB N)
  pending : List (TCB N)
  scheduled : List (TCB N)
  holders : List (TCB N)

namespace Logged

def ofState (s : State N) (q : ℕ) : Logged N where
  state := s
  start := (s.count q).toNat
  ups := 0
  taken := 0
  arrivals := []
  woken := []
  pending := []
  scheduled := []
  holders := []

def granted (r : Logged N) : ℕ := r.taken + r.woken.length

def afterUp (r : Logged N) (q : ℕ) (me : TCB N) : Logged N :=
  match r.state.waiting q with
  | [] => { r with ups := r.ups + 1, holders := r.holders.erase me }
  | x :: _ =>
    { r with
      ups := r.ups + 1
      woken := r.woken ++ [x]
      pending := r.pending ++ [x]
      holders := x :: r.holders.erase me }

def afterDown (r : Logged N) (q : ℕ) (me : TCB N) : Logged N :=
  if 0 < r.state.count q then { r with taken := r.taken + 1, holders := me :: r.holders } else r

def afterHandle (r : Logged N) (q : ℕ) : Phase N → Logged N
  | .handling me (.down p) => if p = q then { r with arrivals := r.arrivals ++ [me] } else r
  | _ => r

def afterSchedule (r : Logged N) : List (Task × TCB N) → Logged N
  | (.schedule, x) :: _ =>
    if x ∈ r.pending then { r with pending := r.pending.erase x, scheduled := r.scheduled ++ [x] }
    else r
  | _ => r

def record (r : Logged N) (q : ℕ) : Act N → Logged N
  | .up c p => if p = q then r.afterUp q (r.state.activeThreads c) else r
  | .down c p => if p = q then r.afterDown q (r.state.activeThreads c) else r
  | .handle c => r.afterHandle q (r.state.phase c)
  | .schedule c => r.afterSchedule (r.state.hand (r.state.activeThreads c))
  | _ => r

def step (isLock : ℕ → Bool) (q : ℕ) (r : Logged N) (a : Act N) : Option (Logged N) :=
  (Sched.step isLock r.state a).map fun t => { r.record q a with state := t }

end Logged

def logged (isLock : ℕ → Bool) (q : ℕ) : System (Logged N) (Act N) where
  init r := ∃ s, Booted isLock s ∧ r = .ofState s q
  step r a r' := r.step isLock q a = some r'

theorem logged_of_reachable (hs : Reachable (scheduler isLock) s) (q : ℕ) :
    ∃ r, Reachable (logged isLock q) r ∧ r.state = s := by
  induction hs with
  | start hb => exact ⟨.ofState _ q, .start ⟨_, hb, rfl⟩, rfl⟩
  | @next s t a _ hst ih =>
    obtain ⟨r, hr, rfl⟩ := ih
    have hstep : Sched.step isLock r.state a = some t := hst
    refine ⟨{ r.record q a with state := t }, hr.next (i := a) ?_, rfl⟩
    simp [logged, Logged.step, hstep]

def Phase.caller : Phase N → Option Caller
  | .picking f | .picked f _ | .switching _ f | .handling _ f => some f
  | .running | .dying => none

def State.Blocking (s : State N) (q : ℕ) (c : Fin N) : Prop := (s.phase c).caller = some (.down q)

structure SameSemaphore (q : ℕ) (s t : State N) : Prop where
  count : t.count q = s.count q
  waiting : t.waiting q = s.waiting q
  lock : t.lock q = s.lock q
  holder : t.holder q = s.holder q
  blocking : ∀ c, t.Blocking q c → s.Blocking q c

theorem SameSemaphore.refl (s : State N) : SameSemaphore q s s := ⟨rfl, rfl, rfl, rfl, fun _ h => h⟩

def Carries (r : Logged N) (t : State N) : Prop :=
  ∀ x ∈ r.pending, ∀ u, r.state.At x (.carried u .schedule) → t.At x (.carried u .schedule)

inductive LogStep (isLock : ℕ → Bool) (q : ℕ) (r : Logged N) (t : State N) : Logged N → Prop
  | other : SameSemaphore q r.state t → Carries r t → LogStep isLock q r t { r with state := t }
  | send {x : TCB N} : SameSemaphore q r.state t → x ∈ r.pending →
      (∀ y ∈ r.pending, y ≠ x → ∀ u, r.state.At y (.carried u .schedule) →
        t.At y (.carried u .schedule)) →
      LogStep isLock q r t
        { r with state := t, pending := r.pending.erase x, scheduled := r.scheduled ++ [x] }
  | release {me : TCB N} : r.state.waiting q = [] → r.state.lock q = false →
      (isLock q → r.state.holder q = some me) →
      t.count q = r.state.count q + 1 → t.waiting q = [] → t.lock q = false → t.holder q = none →
      (∀ c, t.Blocking q c → r.state.Blocking q c) → Carries r t →
      LogStep isLock q r t { r with state := t, ups := r.ups + 1, holders := r.holders.erase me }
  | wake {me x : TCB N} {rest : List (TCB N)} : r.state.waiting q = x :: rest →
      r.state.lock q = false → (isLock q → r.state.holder q = some me) →
      t.count q = r.state.count q → t.waiting q = rest → t.lock q = false → t.holder q = some x →
      (∀ c, t.Blocking q c → r.state.Blocking q c) → Carries r t →
      t.At x (.carried me .schedule) →
      LogStep isLock q r t
        { r with
          state := t
          ups := r.ups + 1
          woken := r.woken ++ [x]
          pending := r.pending ++ [x]
          holders := x :: r.holders.erase me }
  | take {me : TCB N} : 0 < r.state.count q → r.state.lock q = false →
      t.count q = r.state.count q - 1 → t.waiting q = r.state.waiting q → t.lock q = false →
      t.holder q = some me → (∀ c, t.Blocking q c → r.state.Blocking q c) → Carries r t →
      LogStep isLock q r t { r with state := t, taken := r.taken + 1, holders := me :: r.holders }
  | await {c : Fin N} : ¬0 < r.state.count q → r.state.lock q = false →
      t.count q = r.state.count q → t.waiting q = r.state.waiting q → t.lock q = true →
      t.holder q = r.state.holder q → (∀ d, t.Blocking q d → d = c ∨ r.state.Blocking q d) →
      Carries r t → LogStep isLock q r t { r with state := t }
  | enqueue {c : Fin N} {n : ℕ} : r.state.Blocking q c → r.state.At (.thread n) (.leaving c) →
      t.count q = r.state.count q → t.waiting q = r.state.waiting q ++ [.thread n] →
      t.lock q = false → t.holder q = r.state.holder q →
      (∀ d, t.Blocking q d → d ≠ c ∧ r.state.Blocking q d) → Carries r t →
      LogStep isLock q r t { r with state := t, arrivals := r.arrivals ++ [.thread n] }

theorem blocking_enter {p : Phase N} {d : Fin N} (h : (s.enter c p).Blocking q d) :
    (d = c ∧ p.caller = some (.down q)) ∨ (d ≠ c ∧ s.Blocking q d) := by
  by_cases hd : d = c
  · subst hd
    left
    simpa [State.Blocking, State.enter] using h
  · right
    simpa [State.Blocking, State.enter, hd] using h

theorem blocking_moved {p : Phase N} (hp : p.caller = some (.down q) → s.Blocking q c) (d : Fin N)
    (h : (s.enter c p).Blocking q d) : s.Blocking q d := by
  rcases blocking_enter h with ⟨rfl, hc⟩ | ⟨-, hd⟩
  · exact hp hc
  · exact hd

theorem carries_push {r : Logged N} {k : Task} : Carries r (r.state.push u k x) := by
  intro y _ v hv
  by_cases hvu : v = u
  · subst hvu
    have hmem : (Task.schedule, y) ∈ r.state.hand v := hv
    simp [State.At, State.push, hmem]
  · simpa [State.At, State.push, hvu] using hv

theorem at_drop {k : Task} {rest : List (Task × TCB N)} {v : TCB N} (hh : s.hand u = (k, x) :: rest)
    (hne : (Task.schedule, y) ≠ (k, x)) (hy : s.At y (.carried v .schedule)) :
    (s.drop u).At y (.carried v .schedule) := by
  by_cases hvu : v = u
  · subst hvu
    have hmem : (Task.schedule, y) ∈ s.hand v := hy
    rw [hh] at hmem
    simpa [State.At, State.drop, hh] using (List.mem_cons.mp hmem).resolve_left hne
  · simpa [State.At, State.drop, hvu] using hy

theorem log_schedule {r : Logged N} {rest : List (Task × TCB N)}
    (hh : r.state.hand u = (.schedule, x) :: rest) :
    LogStep isLock q r ((r.state.drop u).schedule x)
      { r.afterSchedule (r.state.hand u) with state := (r.state.drop u).schedule x } := by
  obtain ⟨l, hl⟩ := schedule_eq (r.state.drop u) x
  rw [hl, hh]
  have hsame : SameSemaphore q r.state { r.state.drop u with readyQ := l } :=
    ⟨rfl, rfl, rfl, rfl, fun _ h => h⟩
  have hkeep : ∀ y, y ≠ x → ∀ v, r.state.At y (.carried v .schedule) →
      State.At { r.state.drop u with readyQ := l } y (.carried v .schedule) := by
    intro y hy v hv
    exact at_drop hh (by simpa using hy) hv
  unfold Logged.afterSchedule
  split
  case h_1 x' rest' heq =>
    cases heq
    split
    case isTrue hx => exact .send hsame hx fun y _ hy => hkeep y hy
    case isFalse hx => exact .other hsame fun y hy => hkeep y fun he => hx (he ▸ hy)
  case h_2 hno => exact absurd rfl (hno x rest)

section
variable {r : Logged N} {p : ℕ} {rest : List (TCB N)}

theorem log_release (hl : r.state.lock p = false)
    (ho : isLock p → r.state.holder p = some (r.state.activeThreads c))
    (hw : r.state.waiting p = []) : LogStep isLock q r (r.state.release p)
      { r.record q (.up c p) with state := r.state.release p } := by
  by_cases hpq : p = q
  · subst hpq
    simp only [Logged.record, if_true, Logged.afterUp, hw]
    exact .release hw hl ho (by simp [State.release]) hw hl (by simp [State.release])
      (fun _ h => h) fun _ _ _ h => h
  · simp only [Logged.record, hpq, if_false]
    refine .other ⟨?_, rfl, rfl, ?_, fun _ h => h⟩ fun _ _ _ h => h
    · simp [State.release, Ne.symm hpq]
    · simp [State.release, Ne.symm hpq]

theorem log_wake (hl : r.state.lock p = false)
    (ho : isLock p → r.state.holder p = some (r.state.activeThreads c))
    (hw : r.state.waiting p = x :: rest) :
    LogStep isLock q r (r.state.wake (r.state.activeThreads c) p x)
      { r.record q (.up c p) with state := r.state.wake (r.state.activeThreads c) p x } := by
  by_cases hpq : p = q
  · subst hpq
    simp only [Logged.record, if_true, Logged.afterUp, hw]
    refine .wake hw hl ho rfl (by simp [State.wake, State.push, hw]) hl (by simp [State.wake])
      (fun _ h => h) carries_push ?_
    simp [State.At, State.wake, State.push]
  · simp only [Logged.record, hpq, if_false]
    refine .other ⟨rfl, ?_, rfl, ?_, fun _ h => h⟩ carries_push
    · simp [State.wake, State.push, Ne.symm hpq]
    · simp [State.wake, State.push, Ne.symm hpq]

theorem log_take (hl : r.state.lock p = false) (hc : 0 < r.state.count p) :
    LogStep isLock q r (r.state.take (r.state.activeThreads c) p)
      { r.record q (.down c p) with state := r.state.take (r.state.activeThreads c) p } := by
  by_cases hpq : p = q
  · subst hpq
    simp only [Logged.record, if_true, Logged.afterDown, hc]
    exact .take hc hl (by simp [State.take]) rfl hl (by simp [State.take]) (fun _ h => h)
      fun _ _ _ h => h
  · simp only [Logged.record, hpq, if_false]
    refine .other ⟨?_, rfl, rfl, ?_, fun _ h => h⟩ fun _ _ _ h => h
    · simp [State.take, Ne.symm hpq]
    · simp [State.take, Ne.symm hpq]

theorem log_await (hl : r.state.lock p = false) (hc : ¬0 < r.state.count p) :
    LogStep isLock q r
      ({ r.state with lock := Function.update r.state.lock p true }.block c (.down p))
      { r.record q (.down c p) with
        state := { r.state with lock := Function.update r.state.lock p true }.block c (.down p) } := by
  by_cases hpq : p = q
  · subst hpq
    simp only [Logged.record, if_true, Logged.afterDown, hc, if_false]
    refine .await (c := c) hc hl rfl rfl (by simp [State.block, State.enter]) rfl (fun d h => ?_)
      fun _ _ _ h => h
    exact (blocking_enter h).imp (fun h => h.1) fun h => h.2
  · simp only [Logged.record, hpq, if_false]
    refine .other ⟨rfl, rfl, ?_, rfl, ?_⟩ fun _ _ _ h => h
    · simp [State.block, State.enter, Ne.symm hpq]
    · exact blocking_moved (s := r.state) (p := .picking (.down p)) (by simp [Phase.caller, hpq])

theorem log_enqueue {n : ℕ} (hp : r.state.phase c = .handling (.thread n) (.down p)) :
    LogStep isLock q r ((r.state.enter c .running).await p (.thread n))
      { r.record q (.handle c) with state := (r.state.enter c .running).await p (.thread n) } := by
  have hblock : ∀ d, State.Blocking ((r.state.enter c .running).await p (.thread n)) q d →
      d ≠ c ∧ r.state.Blocking q d := by
    intro d hd
    rcases blocking_enter (s := r.state) (p := .running) hd with ⟨-, hc⟩ | hd
    · cases hc
    · exact hd
  by_cases hpq : p = q
  · subst hpq
    simp only [Logged.record, hp, Logged.afterHandle, if_true]
    refine .enqueue (c := c) (n := n) ?_ ?_ rfl ?_ ?_ rfl hblock fun _ _ _ h => h
    · rw [State.Blocking, hp]
      rfl
    · rw [State.At, hp]
      rfl
    · simp [State.await, State.enter]
    · simp [State.await]
  · simp only [Logged.record, hp, Logged.afterHandle, hpq, if_false]
    refine .other ⟨rfl, ?_, ?_, rfl, fun d hd => (hblock d hd).2⟩ fun _ _ _ h => h
    · simp [State.await, State.enter, Ne.symm hpq]
    · simp [State.await, State.enter, Ne.symm hpq]

theorem log_enter {ph : Phase N} {b : State N} (hb : SameSemaphore q r.state b) (hc : Carries r b)
    (hp : ph.caller = some (.down q) → b.Blocking q c) :
    LogStep isLock q r (b.enter c ph) { r with state := b.enter c ph } :=
  .other ⟨hb.count, hb.waiting, hb.lock, hb.holder,
    fun d hd => hb.blocking d (blocking_moved hp d hd)⟩ fun y hy v hv => hc y hy v hv

end

theorem log_step {r : Logged N} (hs : Step isLock r.state a t) :
    LogStep isLock q r t { r.record q a with state := t } := by
  cases hs with
  | create hp => exact .other ⟨rfl, rfl, rfl, rfl, fun _ h => h⟩ carries_push
  | schedule he hh => exact log_schedule hh
  | reap hp hz => exact .other ⟨rfl, rfl, rfl, rfl, fun _ h => h⟩ carries_push
  | @delete c x rest hp hh =>
    refine .other ⟨rfl, rfl, rfl, rfl, fun _ h => h⟩ fun y _ v hv => ?_
    exact at_drop hh (by simp) hv
  | release he hl ho hw => exact log_release hl ho hw
  | wake he hl ho hw => exact log_wake hl ho hw
  | take hp hl hc => exact log_take hl hc
  | await hp hl hc => exact log_await hl hc
  | yield hp =>
    exact .other ⟨rfl, rfl, rfl, rfl, blocking_moved (p := .picking .yield) (by simp [Phase.caller])⟩
      fun _ _ _ h => h
  | stop he =>
    exact .other ⟨rfl, rfl, rfl, rfl, blocking_moved (p := .picking .stop) (by simp [Phase.caller])⟩
      fun _ _ _ h => h
  | @dequeue c f x rest hp hr =>
    refine log_enter (b := { r.state with readyQ := rest }) ⟨rfl, rfl, rfl, rfl, fun _ h => h⟩
      (fun _ _ _ h => h) ?_
    simp [State.Blocking, hp, Phase.caller]
  | giveUp hp hr => exact log_enter (.refl _) (fun _ _ _ h => h) (by simp [Phase.caller])
  | retry hp hr ha => exact .other (.refl _) fun _ _ _ h => h
  | useIdle hp hf hr ha =>
    refine log_enter (.refl _) (fun _ _ _ h => h) ?_
    simp [State.Blocking, hp, Phase.caller]
  | @activate c f x hp =>
    refine .other ⟨rfl, rfl, rfl, rfl, blocking_moved
      (p := .switching (r.state.activeThreads c) f) ?_⟩ fun _ _ _ h => h
    simp [State.Blocking, hp, Phase.caller]
  | @switch c me f hp =>
    refine .other ⟨rfl, rfl, rfl, rfl, blocking_moved (p := .handling me f) ?_⟩ fun _ _ _ h => h
    simp [State.Blocking, hp, Phase.caller]
  | @requeue c me hp =>
    obtain ⟨l, hl⟩ := schedule_eq (r.state.enter c .running) me
    simp only [hl, Logged.record, hp, Logged.afterHandle]
    exact .other ⟨rfl, rfl, rfl, rfl, blocking_moved (p := .running) (by simp [Phase.caller])⟩
      fun _ _ _ h => h
  | @bury c me hp =>
    obtain ⟨l, hl⟩ := bury_eq (r.state.enter c .running) me
    simp only [hl, Logged.record, hp, Logged.afterHandle]
    exact .other ⟨rfl, rfl, rfl, rfl, blocking_moved (p := .running) (by simp [Phase.caller])⟩
      fun _ _ _ h => h
  | enqueue hp => exact log_enqueue hp
  | ignored hp hi => exact .other (.refl _) fun _ _ _ h => h
  | @tickKill c n hp ha hn hk =>
    exact log_enter (b := r.state.charge (.thread n)) ⟨rfl, rfl, rfl, rfl, fun _ h => h⟩
      (fun _ _ _ h => h) (by simp [Phase.caller])
  | @tickYield c n hp ha hn hk =>
    exact .other ⟨rfl, rfl, rfl, rfl, blocking_moved (s := r.state.charge (.thread n))
      (p := .picking .yield) (by simp [Phase.caller])⟩ fun _ _ _ h => h
  | kill => exact .other ⟨rfl, rfl, rfl, rfl, fun _ h => h⟩ fun _ _ _ h => h

/-- Who is in the middle of a `down` has the lock, and there is nothing to count then. -/
structure Gated (q : ℕ) (s : State N) : Prop where
  locked : ∀ c, s.Blocking q c → s.lock q = true
  single : ∀ c d, s.Blocking q c → s.Blocking q d → c = d
  drained : s.lock q = true ∨ s.waiting q ≠ [] → s.count q = 0

namespace Gated

theorem same (h : Gated q s) (hst : SameSemaphore q s t) : Gated q t where
  locked c hc := by
    rw [hst.lock]
    exact h.locked c (hst.blocking c hc)
  single c d hc hd := h.single c d (hst.blocking c hc) (hst.blocking d hd)
  drained := by
    rw [hst.lock, hst.waiting, hst.count]
    exact h.drained

theorem not_blocking (h : Gated q s) (hl : s.lock q = false) (c : Fin N) : ¬s.Blocking q c := by
  intro hc
  rw [h.locked c hc] at hl
  cases hl

theorem section_over (h : Gated q s) (hl : s.lock q = false) (hl' : t.lock q = false)
    (hb : ∀ c, t.Blocking q c → s.Blocking q c) (hd : t.waiting q ≠ [] → t.count q = 0) :
    Gated q t where
  locked c hc := absurd (hb c hc) (h.not_blocking hl c)
  single c _ hc := absurd (hb c hc) (h.not_blocking hl c)
  drained hor := by
    rw [hl'] at hor
    exact hd (hor.resolve_left Bool.false_ne_true)

theorem waiting_nil (h : Gated q s) (hc : 0 < s.count q) : s.waiting q = [] := by
  by_contra hw
  rw [h.drained (Or.inr hw)] at hc
  exact absurd hc (by decide)

theorem step {r r' : Logged N} (h : Gated q r.state) (hs : LogStep isLock q r t r') :
    Gated q t := by
  cases hs with
  | other hsame => exact h.same hsame
  | send hsame => exact h.same hsame
  | release hw hl _ hc hw' hl' _ hb => exact h.section_over hl hl' hb (absurd hw')
  | wake hw hl _ hc hw' hl' _ hb =>
    refine h.section_over hl hl' hb fun _ => ?_
    rw [hc]
    exact h.drained (Or.inr (by simp [hw]))
  | take hc hl hc' hw' hl' _ hb =>
    refine h.section_over hl hl' hb fun hw => ?_
    rw [hw', h.waiting_nil hc] at hw
    exact absurd rfl hw
  | @await c hc hl hc' hw' hl' _ hb =>
    have honly : ∀ d, t.Blocking q d → d = c := by
      intro d hd
      exact (hb d hd).resolve_right (h.not_blocking hl d)
    refine ⟨fun _ _ => hl', fun d e hd he => ?_, fun _ => ?_⟩
    · rw [honly d hd, honly e he]
    · rw [hc']
      exact UInt64.le_zero_iff.mp (UInt64.not_lt.mp hc)
  | @enqueue c n hbc _ hc' hw' hl' _ hb =>
    -- the core that had the lock was the only one to block
    have hnone : ∀ d, ¬t.Blocking q d := by
      intro d hd
      exact (hb d hd).1 (h.single d c (hb d hd).2 hbc)
    refine ⟨fun d hd => absurd hd (hnone d), fun d _ hd => absurd hd (hnone d), fun _ => ?_⟩
    rw [hc']
    exact h.drained (Or.inl (h.locked c hbc))

end Gated

structure InTurn (q : ℕ) (r : Logged N) : Prop where
  queue : r.arrivals = r.woken ++ r.state.waiting q
  sent : r.woken.Perm (r.scheduled ++ r.pending)
  nodup : r.pending.Nodup
  carried : ∀ x ∈ r.pending, ∃ u, r.state.At x (.carried u .schedule)

namespace InTurn

theorem carried_of_carries {r : Logged N} (h : InTurn q r) (hc : Carries r t) (x : TCB N)
    (hx : x ∈ r.pending) : ∃ u, t.At x (.carried u .schedule) := by
  obtain ⟨u, hu⟩ := h.carried x hx
  exact ⟨u, hc x hx u hu⟩

theorem step {r r' : Logged N} (h : InTurn q r) (hi : ThreadInv r.state)
    (hs : LogStep isLock q r t r') : InTurn q r' := by
  cases hs with
  | other hsame hc =>
    refine ⟨?_, h.sent, h.nodup, h.carried_of_carries hc⟩
    rw [hsame.waiting]
    exact h.queue
  | @send x hsame hx hc =>
    refine ⟨?_, ?_, h.nodup.erase x, fun y hy => ?_⟩
    · rw [hsame.waiting]
      exact h.queue
    · have hsplit : (r.scheduled ++ r.pending).Perm (r.scheduled ++ (x :: r.pending.erase x)) :=
        (List.perm_cons_erase hx).append_left r.scheduled
      simpa using h.sent.trans hsplit
    · obtain ⟨hyx, hy⟩ := h.nodup.mem_erase_iff.mp hy
      obtain ⟨u, hu⟩ := h.carried y hy
      exact ⟨u, hc y hy hyx u hu⟩
  | release hw _ _ _ hw' _ _ _ hc =>
    refine ⟨?_, h.sent, h.nodup, h.carried_of_carries hc⟩
    rw [hw', ← hw]
    exact h.queue
  | @wake me x rest hw _ _ _ hw' _ _ _ hc hx =>
    -- a thread that waits is in no hand
    have hnew : x ∉ r.pending := by
      intro hm
      obtain ⟨u, hu⟩ := h.carried x hm
      have hwx : r.state.At x (.waiting q) := by simp [State.At, hw]
      exact hi.not_at hwx (by simp) hu
    refine ⟨?_, ?_, nodup_snoc h.nodup hnew, fun y hy => ?_⟩
    · simp only [h.queue, hw, hw', List.append_assoc, List.singleton_append]
    · simpa using h.sent.append_right [x]
    · rcases List.mem_append.mp hy with hy | hy
      · exact h.carried_of_carries hc y hy
      · rw [List.mem_singleton.mp hy]
        exact ⟨me, hx⟩
  | take _ _ _ hw' _ _ _ hc =>
    refine ⟨?_, h.sent, h.nodup, h.carried_of_carries hc⟩
    rw [hw']
    exact h.queue
  | await _ _ _ hw' _ _ _ hc =>
    refine ⟨?_, h.sent, h.nodup, h.carried_of_carries hc⟩
    rw [hw']
    exact h.queue
  | enqueue _ _ _ hw' _ _ _ hc =>
    refine ⟨?_, h.sent, h.nodup, h.carried_of_carries hc⟩
    simp only [hw', h.queue, List.append_assoc]

end InTurn

/-- What was there at the start and what `up` added is what is left and what `down` was given. -/
structure Balanced (q : ℕ) (r : Logged N) : Prop where
  modulo : r.start + r.ups ≡ (r.state.count q).toNat + r.granted [MOD 2 ^ 64]
  exact : r.start + r.ups < 2 ^ 64 → r.start + r.ups = (r.state.count q).toNat + r.granted

namespace Balanced

variable {r r' : Logged N}

theorem same (h : Balanced q r) (hups : r'.start + r'.ups = r.start + r.ups)
    (hleft : (r'.state.count q).toNat + r'.granted = (r.state.count q).toNat + r.granted) :
    Balanced q r' where
  modulo := by
    rw [hups, hleft]
    exact h.modulo
  exact hlt := by
    rw [hups] at hlt ⊢
    rw [hleft]
    exact h.exact hlt

theorem release (h : Balanced q r) (hups : r'.start + r'.ups = r.start + r.ups + 1)
    (hc : r'.state.count q = r.state.count q + 1) (hg : r'.granted = r.granted) :
    Balanced q r' where
  modulo := by
    rw [hups, hc, hg, UInt64.toNat_add, UInt64.toNat_one]
    calc r.start + r.ups + 1 ≡ (r.state.count q).toNat + r.granted + 1 [MOD 2 ^ 64] :=
          h.modulo.add_right 1
      _ = (r.state.count q).toNat + 1 + r.granted := by omega
      _ ≡ ((r.state.count q).toNat + 1) % 2 ^ 64 + r.granted [MOD 2 ^ 64] :=
          (Nat.mod_modEq _ _).symm.add_right r.granted
  exact hlt := by
    have hsum := h.exact (by omega)
    rw [hups, hc, hg, UInt64.toNat_add, UInt64.toNat_one, Nat.mod_eq_of_lt (by omega)]
    omega

theorem wake (h : Balanced q r) (hups : r'.start + r'.ups = r.start + r.ups + 1)
    (hc : r'.state.count q = r.state.count q) (hg : r'.granted = r.granted + 1) :
    Balanced q r' where
  modulo := by
    rw [hups, hc, hg]
    exact h.modulo.add_right 1
  exact hlt := by
    have hsum := h.exact (by omega)
    rw [hups, hc, hg]
    omega

theorem step (h : Balanced q r) (hs : LogStep isLock q r t r') : Balanced q r' := by
  cases hs with
  | other hsame => exact h.same rfl (by rw [hsame.count]; rfl)
  | send hsame => exact h.same rfl (by rw [hsame.count]; rfl)
  | release hw hl _ hc => exact h.release rfl hc rfl
  | wake hw hl _ hc =>
    apply h.wake rfl hc
    simp [Logged.granted, Nat.add_assoc]
  | take hp hl hc =>
    refine h.same rfl ?_
    have hpos : 0 < (r.state.count q).toNat := UInt64.lt_iff_toNat_lt.mp hp
    have hle : 1 ≤ r.state.count q := UInt64.le_iff_toNat_le.mpr hpos
    simp only [hc, UInt64.toNat_sub_of_le _ _ hle, UInt64.toNat_one, Logged.granted]
    omega
  | await _ _ hc => exact h.same rfl (by rw [hc]; rfl)
  | enqueue _ _ hc => exact h.same rfl (by rw [hc]; rfl)

end Balanced

structure LogInv (isLock : ℕ → Bool) (q : ℕ) (r : Logged N) : Prop where
  threads : ThreadInv r.state
  counts : LockCounts isLock r.state
  gated : Gated q r.state
  inTurn : InTurn q r
  balanced : Balanced q r
  holders : isLock q → r.holders = (r.state.holder q).toList

namespace LogInv

variable {r r' : Logged N}

theorem holders_step (h : LogInv isLock q r) (hs : LogStep isLock q r t r') (hq : isLock q) :
    r'.holders = (r'.state.holder q).toList := by
  have hr := h.holders hq
  cases hs with
  | other hsame => simpa [hsame.holder] using hr
  | send hsame => simpa [hsame.holder] using hr
  | release _ _ ho _ _ _ hh => simp [hr, ho hq, hh]
  | wake _ _ ho _ _ _ hh => simp [hr, ho hq, hh]
  | @take me hp _ _ _ _ hh =>
    have hnone : r.state.holder q = none := by
      have hcount := h.counts q hq
      split at hcount
      case isTrue hn => exact hn
      case isFalse =>
        rw [hcount] at hp
        exact absurd hp (by decide)
    simp [hr, hnone, hh]
  | await _ _ _ _ _ hh => simpa [hh] using hr
  | enqueue _ _ _ _ _ hh => simpa [hh] using hr

theorem step (h : LogInv isLock q r) (hst : r.step isLock q a = some r') : LogInv isLock q r' := by
  obtain ⟨t, ht, rfl⟩ := Option.map_eq_some_iff.mp hst
  have hs := step_cases ht
  have hlog := log_step (q := q) hs
  exact ⟨h.threads.step hs, lockCounts_step h.counts hs, h.gated.step hlog,
    h.inTurn.step h.threads hlog, h.balanced.step hlog, h.holders_step hlog⟩

theorem booted (hb : Booted isLock s) : LogInv isLock q (.ofState s q) where
  threads := .booted hb
  counts p hp := by
    rw [Logged.ofState, hb.holder, hb.count p hp]
    rfl
  gated := by
    have hnone : ∀ c, ¬s.Blocking q c := by
      intro c hc
      rw [State.Blocking, hb.phase] at hc
      cases hc
    refine ⟨fun c hc => absurd hc (hnone c), fun c _ hc => absurd hc (hnone c), fun hor => ?_⟩
    simp [Logged.ofState, hb.lock, hb.waiting] at hor
  inTurn := ⟨by simp [Logged.ofState, hb.waiting], .refl _, .nil, by simp [Logged.ofState]⟩
  balanced := ⟨by simp [Logged.ofState, Logged.granted]; rfl, by simp [Logged.ofState, Logged.granted]⟩
  holders _ := by simp [Logged.ofState, hb.holder]

end LogInv

theorem logInv_inductive : (logged (N := N) isLock q).Inductive (LogInv isLock q) where
  init r hr := by
    obtain ⟨s, hb, rfl⟩ := hr
    exact .booted hb
  step _ _ _ h hst := h.step hst

/-- In every run: a count above 0 has nobody waiting. The start and the sections of `up` that are
over make the count and the calls of `down` that were given a unit, as numbers while their sum is
below the modulus of the count and as remainders always. Threads leave the queue in the order in
which they came. Each that has left it is in the hands of the one thread that took it out, until
that thread schedules it, once. A lock has at most one holder. -/
theorem semaphore_conservation {r : Logged N} (hr : Reachable (logged isLock q) r) :
    (0 < r.state.count q → r.state.waiting q = []) ∧
    (r.start + r.ups < 2 ^ 64 → r.start + r.ups = (r.state.count q).toNat + r.granted) ∧
    r.start + r.ups ≡ (r.state.count q).toNat + r.granted [MOD 2 ^ 64] ∧
    r.arrivals = r.woken ++ r.state.waiting q ∧
    r.woken.Perm (r.scheduled ++ r.pending) ∧
    r.pending.Nodup ∧ (∀ x ∈ r.pending, ∃! u, r.state.At x (.carried u .schedule)) ∧
    (isLock q → r.holders.length ≤ 1) := by
  have h := hr.invariant logInv_inductive
  refine ⟨h.gated.waiting_nil, h.balanced.exact, h.balanced.modulo, h.inTurn.queue, h.inTurn.sent,
    h.inTurn.nodup, fun x hx => ?_, fun hq => ?_⟩
  · obtain ⟨u, hu⟩ := h.inTurn.carried x hx
    refine ⟨u, hu, fun v hv => ?_⟩
    cases h.threads.located.exclusive hu hv
    rfl
  · rw [h.holders hq]
    cases r.state.holder q <;> simp

theorem logged_run {r : Logged N} {as : List (Act N)}
    (h : run (Logged.step isLock q) (fun _ _ => true) (.ofState (boot N isLock) q) as = some r) :
    Reachable (logged isLock q) r :=
  run_reachable (fun _ _ _ _ hst => hst) (.start ⟨_, boot_booted, rfl⟩) h

def crossedUps (c d : Fin N) : List (Act N) :=
  [[.create c, .schedule c, .create c, .schedule c, .create c, .schedule c, .create c, .schedule c],
    [.stop c, .pick c, .activate c, .switch c, .handle c],
    [.stop d, .pick d, .activate d, .switch d, .handle d],
    [.down c 0, .pick c, .activate c, .switch c, .handle c],
    [.down d 0, .pick d, .activate d, .switch d, .handle d],
    [.up c 0, .up d 0]].flatten

theorem crossed_ups_conserve : ∃ r : Logged 2, Reachable (logged (fun _ => false) 0) r ∧
    r.pending = [.thread 0, .thread 1] ∧
    r.start + r.ups = (r.state.count 0).toNat + r.granted ∧
    r.arrivals = r.woken ++ r.state.waiting 0 ∧
    ∀ x ∈ r.pending, ∃! u, r.state.At x (.carried u .schedule) := by
  have hrun : (run (Logged.step (fun _ => false) 0) (fun _ _ => true)
      (.ofState (boot 2 fun _ => false) 0) (crossedUps 0 1)).map
        (fun r => (r.pending, r.start + r.ups)) = some ([.thread 0, .thread 1], 2) := by
    decide +kernel
  obtain ⟨r, hr, hvals⟩ := Option.map_eq_some_iff.mp hrun
  obtain ⟨hpending, hups⟩ := Prod.mk.inj hvals
  have h := semaphore_conservation (logged_run hr)
  exact ⟨r, logged_run hr, hpending, h.2.1 (by omega), h.2.2.2.1, h.2.2.2.2.2.2.1⟩

theorem ups_reachable (n : ℕ) : ∃ r : Logged 1, Reachable (logged (fun _ => false) 0) r ∧
    r.ups = n ∧ r.granted = 0 ∧ r.state.phase 0 = .running ∧ r.state.waiting 0 = [] ∧
    r.state.lock 0 = false := by
  induction n with
  | zero =>
    exact ⟨.ofState (boot 1 fun _ => false) 0, .start ⟨_, boot_booted, rfl⟩, rfl, rfl, rfl, rfl, rfl⟩
  | succ n ih =>
    obtain ⟨r, hr, hups, hg, hp, hw, hl⟩ := ih
    have hstep : r.step (fun _ => false) 0 (.up 0 0) = some
        { r with
          state := r.state.release 0
          ups := r.ups + 1
          holders := r.holders.erase (r.state.activeThreads 0) } := by
      simp [Logged.step, Sched.step, hp, Phase.executes, up, hl, hw, Logged.record, Logged.afterUp]
    exact ⟨_, hr.next hstep, by rw [hups], hg, hp, hw, hl⟩

/-- Two threads may be scheduled in the other order, and the count may wrap around. -/
theorem wakes_cross_and_count_wraps :
    (∃ r : Logged 2, Reachable (logged (fun _ => false) 0) r ∧ r.state.lock 0 = false ∧
      r.arrivals = [.thread 0, .thread 1] ∧ r.scheduled = [.thread 1, .thread 0]) ∧
    ∃ r : Logged 1, Reachable (logged (fun _ => false) 0) r ∧ r.state.lock 0 = false ∧
      r.start + r.ups ≠ (r.state.count 0).toNat + r.granted := by
  constructor
  · have hrun : (run (Logged.step (fun _ => false) 0) (fun _ _ => true)
        (.ofState (boot 2 fun _ => false) 0) (crossedUps 0 1 ++ [.schedule 1, .schedule 0])).map
          (fun r => (r.state.lock 0, r.arrivals, r.scheduled)) =
        some (false, [.thread 0, .thread 1], [.thread 1, .thread 0]) := by
      decide +kernel
    obtain ⟨r, hr, hvals⟩ := Option.map_eq_some_iff.mp hrun
    simp only [Prod.mk.injEq] at hvals
    exact ⟨r, logged_run hr, hvals⟩
  · obtain ⟨r, hr, hups, hg, -, -, hl⟩ := ups_reachable (2 ^ 64)
    refine ⟨r, hr, hl, ?_⟩
    have hlt := (r.state.count 0).toNat_lt
    omega

end MMapKernel.Sched
