import MMapKernel.Sched.Threads

/-!
# The end of a thread

A thread is gone from its call of `stop` on: it is switched out for good, a zombie, taken out of
`zombies` to be deleted, or deleted.
-/

open Transition Places
namespace MMapKernel.Sched

variable {N : ℕ} {isLock : ℕ → Bool} {s t : State N} {a : Act N} {c : Fin N} {x u : TCB N}

def Place.terminal : Place N → Bool
  | .zombie | .deleted | .carried _ .delete => true
  | _ => false

def Phase.ending : Phase N → TCB N → Option (TCB N)
  | .picking .stop, active | .picked .stop _, active => some active
  | .switching me .stop, _ | .handling me .stop, _ => some me
  | _, _ => none

def State.ending (s : State N) (c : Fin N) : Option (TCB N) := (s.phase c).ending (s.activeThreads c)

def Gone (s : State N) (x : TCB N) : Prop :=
  (∃ p, p.terminal ∧ s.At x p) ∨ ∃ c, s.ending c = some x

theorem ending_at (h : s.ending c = some x) :
    s.At x (.active c) ∧ (s.phase c).executes = false ∨ s.At x (.leaving c) := by
  unfold State.ending at h
  cases hp : s.phase c with
  | running => simp [hp, Phase.ending] at h
  | dying => simp [hp, Phase.ending] at h
  | picking f =>
    cases f with
    | stop =>
      rw [hp] at h
      exact Or.inl ⟨Option.some.inj h, rfl⟩
    | _ => simp [hp, Phase.ending] at h
  | picked f y =>
    cases f with
    | stop =>
      rw [hp] at h
      exact Or.inl ⟨Option.some.inj h, rfl⟩
    | _ => simp [hp, Phase.ending] at h
  | switching me f =>
    cases f with
    | stop =>
      apply Or.inr
      simpa [State.At, hp, Phase.leaving, Phase.ending] using h
    | _ => simp [hp, Phase.ending] at h
  | handling me f =>
    cases f with
    | stop =>
      apply Or.inr
      simpa [State.At, hp, Phase.leaving, Phase.ending] using h
    | _ => simp [hp, Phase.ending] at h

theorem ThreadInv.not_gone (h : ThreadInv s) (hp : (s.phase c).executes) :
    ¬Gone s (s.activeThreads c) := by
  have hc : s.At (s.activeThreads c) (.active c) := rfl
  rintro (⟨p, ht, hat⟩ | ⟨d, hd⟩)
  · rw [← h.located.exclusive hc hat] at ht
    cases ht
  · rcases ending_at hd with ⟨hat, he⟩ | hat
    · cases h.located.exclusive hc hat
      rw [hp] at he
      cases he
    · cases h.located.exclusive hc hat

theorem ThreadInv.not_gone_waiting {q : ℕ} (h : ThreadInv s) (hx : s.At x (.waiting q)) :
    ¬Gone s x := by
  rintro (⟨p, ht, hat⟩ | ⟨d, hd⟩)
  · rw [← h.located.exclusive hx hat] at ht
    cases ht
  · rcases ending_at hd with ⟨hat, -⟩ | hat
    · cases h.located.exclusive hx hat
    · cases h.located.exclusive hx hat

theorem Gone.mono (hx : Gone t x) (hat : ∀ p : Place N, p.terminal → t.At x p → s.At x p)
    (he : ∀ d, t.ending d = some x → s.ending d = some x) : Gone s x := by
  rcases hx with ⟨p, hp, hxp⟩ | ⟨d, hd⟩
  · exact Or.inl ⟨p, hp, hat p hp hxp⟩
  · exact Or.inr ⟨d, he d hd⟩

theorem ending_enter {p : Phase N} {d : Fin N}
    (hp : p.ending (s.activeThreads c) = some x → s.ending c = some x)
    (h : (s.enter c p).ending d = some x) : s.ending d = some x := by
  by_cases hd : d = c
  · subst hd
    simp only [State.ending, State.enter, Function.update_self] at h
    exact hp h
  · simpa [State.ending, State.enter, hd] using h

theorem added_terminal {A : TCB N → Place N → Prop} {y : TCB N} {p r : Place N}
    (hr : r.terminal = false) (hp : p.terminal) (h : added A y r x p) : A x p := by
  rcases h with h | ⟨-, rfl⟩
  · exact h
  · rw [hr] at hp
    cases hp

theorem Gone.of_block {f : Caller} (hf : f ≠ .stop) (hp : (s.phase c).executes)
    (hx : Gone (s.block c f) x) : Gone s x := by
  refine hx.mono (fun p _ hat => ?_) fun d hd => ?_
  · rw [block_at hp] at hat
    exact hat
  · have hd' : (s.enter c (.picking f)).ending d = some x := hd
    refine ending_enter (fun he => ?_) hd'
    cases f with
    | stop => exact absurd rfl hf
    | _ => cases he

theorem Gone.of_block_stop (hp : (s.phase c).executes) (hx : Gone (s.block c .stop) x) :
    Gone s x ∨ x = s.activeThreads c := by
  by_cases hxc : x = s.activeThreads c
  · exact Or.inr hxc
  · refine Or.inl (hx.mono (fun p _ hat => ?_) fun d hd => ?_)
    · rw [block_at hp] at hat
      exact hat
    · have hd' : (s.enter c (.picking .stop)).ending d = some x := hd
      refine ending_enter (fun he => ?_) hd'
      exact absurd (Option.some.inj he).symm hxc

theorem Gone.of_handle {me : TCB N} {f : Caller} {r : Place N} (hp : s.phase c = .handling me f)
    (hx : Gone t x) (hat : t.At = added (removed s.At me (.leaving c)) me r)
    (he : ∀ d, t.ending d = (s.enter c .running).ending d) (hr : r.terminal → f = .stop) :
    Gone s x := by
  rcases hx with ⟨p, hpt, hxp⟩ | ⟨d, hd⟩
  · rw [hat] at hxp
    rcases hxp with hxp | ⟨rfl, rfl⟩
    · exact Or.inl ⟨p, hpt, hxp.1⟩
    · refine Or.inr ⟨c, ?_⟩
      rw [State.ending, hp, hr hpt]
      rfl
  · rw [he] at hd
    exact Or.inr ⟨d, ending_enter (fun h => by cases h) hd⟩

theorem Gone.of_leave {me : TCB N} {f : Caller} (hp : s.phase c = .handling me f)
    (hx : Gone (s.enter c .running) x) : Gone s x := by
  refine hx.mono (fun p _ hat => ?_) fun d hd => ending_enter (fun h => by cases h) hd
  rw [enter_running_at hp] at hat
  exact hat.1

theorem Gone.of_requeue {me : TCB N} (hp : s.phase c = .handling me .yield)
    (hx : Gone ((s.enter c .running).schedule me) x) : Gone s x := by
  cases me with
  | idle d => exact Gone.of_leave hp hx
  | thread n =>
    have hat := schedule_at (s := s.enter c .running) (x := .thread n) rfl
    rw [enter_running_at hp] at hat
    exact Gone.of_handle hp hx hat (fun _ => rfl) fun h => by cases h

theorem Gone.of_bury {me : TCB N} (hp : s.phase c = .handling me .stop)
    (hx : Gone ((s.enter c .running).bury me) x) : Gone s x := by
  cases me with
  | idle d => exact Gone.of_leave hp hx
  | thread n =>
    have hat := bury_at (s := s.enter c .running) (x := .thread n) rfl
    rw [enter_running_at hp] at hat
    exact Gone.of_handle hp hx hat (fun _ => rfl) fun _ => rfl

theorem gone_step (h : ThreadInv s) (hs : Step isLock s a t) (hx : Gone t x) :
    Gone s x ∨ ∃ c, a = .stop c ∧ x = s.activeThreads c := by
  cases hs with
  | create hp =>
    refine Or.inl (hx.mono (fun p hp hat => ?_) fun d hd => hd)
    rw [create_at] at hat
    exact added_terminal rfl hp hat
  | @schedule c y rest he hh =>
    have hy : s.At y (.carried (s.activeThreads c) .schedule) := by simp [State.At, hh]
    have hi := h.located.not_idle hy rfl
    refine Or.inl (hx.mono (fun p hp hat => ?_) fun d hd => ?_)
    · rw [schedule_at hi, drop_at hh (h.queues.hand _)] at hat
      exact (added_terminal rfl hp hat).1
    · obtain ⟨l, hl⟩ := schedule_eq (s.drop (s.activeThreads c)) y
      rw [hl] at hd
      exact hd
  | @reap c y rest hp hz =>
    rcases hx with ⟨p, hpt, hat⟩ | ⟨d, hd⟩
    · rw [push_at, zombies_tail_at hz h.queues.zombies] at hat
      rcases hat with hat | ⟨rfl, -⟩
      · exact Or.inl (Or.inl ⟨p, hpt, hat.1⟩)
      · exact Or.inl (Or.inl ⟨.zombie, rfl, by simp [State.At, hz]⟩)
    · exact Or.inl (Or.inr ⟨d, hd⟩)
  | @delete c y rest hp hh =>
    rcases hx with ⟨p, hpt, hat⟩ | ⟨d, hd⟩
    · have hd : State.At { s.drop (s.activeThreads c) with deleted := y :: s.deleted } = _ :=
        deleted_cons_at (s := s.drop (s.activeThreads c)) (x := y)
      rw [hd, drop_at hh (h.queues.hand _)] at hat
      rcases hat with hat | ⟨rfl, -⟩
      · exact Or.inl (Or.inl ⟨p, hpt, hat.1⟩)
      · exact Or.inl (Or.inl ⟨.carried (s.activeThreads c) .delete, rfl, by simp [State.At, hh]⟩)
    · exact Or.inl (Or.inr ⟨d, hd⟩)
  | release he hl ho hw => exact Or.inl hx
  | wake he hl ho hw =>
    refine Or.inl (hx.mono (fun p hp hat => ?_) fun d hd => hd)
    rw [wake_at hw (h.queues.waiting _)] at hat
    exact (added_terminal rfl hp hat).1
  | take hp hl hc => exact Or.inl hx
  | await hp hl hc => exact Or.inl (Gone.of_block (by simp) (by rw [hp]; rfl) hx)
  | yield hp => exact Or.inl (Gone.of_block (by simp) (by rw [hp]; rfl) hx)
  | @stop c he =>
    rcases Gone.of_block_stop he hx with hx | hx
    · exact Or.inl hx
    · exact Or.inr ⟨c, rfl, hx⟩
  | @dequeue c f y rest hp hr =>
    have hp' : State.phase { s with readyQ := rest } c = .picking f := hp
    refine Or.inl (hx.mono (fun p hp hat => ?_) fun d hd => ?_)
    · rw [enter_picked_at hp', readyQ_tail_at hr h.queues.readyQ] at hat
      exact (added_terminal rfl hp hat).1
    · have hd' : (s.enter c (.picked f y)).ending d = some x := hd
      refine ending_enter (fun he => ?_) hd'
      rw [State.ending, hp]
      cases f <;> exact he
  | giveUp hp hr =>
    refine Or.inl (hx.mono (fun p _ hat => ?_) fun d hd => ending_enter (fun he => by cases he) hd)
    rw [enter_at (by rw [hp]; rfl) (by rw [hp]; rfl)] at hat
    exact hat
  | retry hp hr ha => exact Or.inl hx
  | @useIdle c f n hp hf hr ha =>
    refine Or.inl (hx.mono (fun p hpt hat => ?_) fun d hd => ending_enter (fun he => ?_) hd)
    · rw [enter_picked_at hp] at hat
      exact added_terminal rfl hpt hat
    · rw [State.ending, hp]
      cases f <;> exact he
  | @activate c f y hp =>
    refine Or.inl (hx.mono (fun p hpt hat => ?_) fun d hd => ?_)
    · rw [activate_at hp] at hat
      exact (added_terminal rfl hpt (added_terminal rfl hpt hat).1).1
    · by_cases hdc : d = c
      · subst hdc
        simp only [State.ending, State.activate, State.enter, Function.update_self] at hd
        rw [State.ending, hp]
        cases f <;> exact hd
      · simpa [State.ending, State.activate, State.enter, hdc] using hd
  | @switch c me f hp =>
    refine Or.inl (hx.mono (fun p _ hat => ?_) fun d hd => ?_)
    · rw [contextSwitch_at hp] at hat
      exact hat
    · have hd' : (s.enter c (.handling me f)).ending d = some x := hd
      refine ending_enter (fun he => ?_) hd'
      rw [State.ending, hp]
      cases f <;> exact he
  | requeue hp => exact Or.inl (Gone.of_requeue hp hx)
  | bury hp => exact Or.inl (Gone.of_bury hp hx)
  | @enqueue c n q hp =>
    have hat := await_at (s := s.enter c .running) (x := .thread n) (q := q)
    rw [enter_running_at hp] at hat
    exact Or.inl (Gone.of_handle hp hx hat (fun _ => rfl) fun h => by cases h)
  | ignored hp hi => exact Or.inl hx
  | @tickKill c n hp ha hn hk =>
    refine Or.inl (hx.mono (fun p _ hat => ?_) fun d hd => ?_)
    · have hp' : (s.charge (.thread n)).phase c = .running := hp
      rw [enter_at (by rw [hp']; rfl) (by rw [hp']; rfl)] at hat
      exact hat
    · have hd' : (s.enter c .dying).ending d = some x := hd
      exact ending_enter (fun he => by cases he) hd'
  | @tickYield c n hp ha hn hk =>
    have hp' : ((s.charge (.thread n)).phase c).executes := by
      change (s.phase c).executes
      rw [hp]
      rfl
    have hg : Gone (s.charge (.thread n)) x := Gone.of_block (by simp) hp' hx
    exact Or.inl hg
  | kill => exact Or.inl hx

end MMapKernel.Sched
