import MMapKernel.Sched.Ending

/-!
# Where the threads are in every reachable state

Between the removal of a thread from one queue and its arrival at the next place it is in a
local variable: of the core whose `block` has picked it, or of the thread that has created it,
has woken it in `up`, or has taken it out of `zombies`.
-/

open Transition Places
namespace MMapKernel.Sched

variable {N : ℕ} {isLock : ℕ → Bool} {s t : State N} {a : Act N} {c : Fin N} {x u : TCB N}

theorem push_hand {k : Task} {v : TCB N} (h : (s.push v k x).hand u ≠ []) :
    s.hand u ≠ [] ∨ u = v := by
  by_cases hv : u = v
  · exact Or.inr hv
  · apply Or.inl
    simpa [State.push, hv] using h

theorem drop_hand {v : TCB N} (h : (s.drop v).hand u ≠ []) : s.hand u ≠ [] := by
  intro hu
  apply h
  by_cases hv : u = v
  · subst hv
    simp [State.drop, hu]
  · simp [State.drop, hv, hu]

theorem hand_step (hs : Step isLock s a t) (h : t.hand u ≠ []) :
    s.hand u ≠ [] ∨ ∃ c, (s.phase c).executes ∧ u = s.activeThreads c := by
  cases hs with
  | @create c hp =>
    have h' : (s.push (s.activeThreads c) .schedule (.thread s.nextId)).hand u ≠ [] := h
    exact (push_hand h').imp_right fun hu => ⟨c, by rw [hp]; rfl, hu⟩
  | @schedule c y rest he hh =>
    obtain ⟨l, hl⟩ := schedule_eq (s.drop (s.activeThreads c)) y
    rw [hl] at h
    have h' : (s.drop (s.activeThreads c)).hand u ≠ [] := h
    exact Or.inl (drop_hand h')
  | @reap c y rest hp hz =>
    exact (push_hand h).imp_right fun hu => ⟨c, by rw [hp]; rfl, hu⟩
  | @delete c y rest hp hh =>
    have h' : (s.drop (s.activeThreads c)).hand u ≠ [] := h
    exact Or.inl (drop_hand h')
  | @wake c q y rest he hl ho hw =>
    have h' : (s.push (s.activeThreads c) .schedule y).hand u ≠ [] := h
    exact (push_hand h').imp_right fun hu => ⟨c, he, hu⟩
  | @requeue c me hp =>
    obtain ⟨l, hl⟩ := schedule_eq (s.enter c .running) me
    rw [hl] at h
    exact Or.inl h
  | @bury c me hp =>
    obtain ⟨l, hl⟩ := bury_eq (s.enter c .running) me
    rw [hl] at h
    exact Or.inl h
  | _ => exact Or.inl h

def EmptyHanded (s : State N) (a : Act N) : Prop :=
  ∀ c, a = .stop c → s.hand (s.activeThreads c) = []

theorem carrier_not_gone_inductive :
    ((scheduler (N := N) isLock).restrict EmptyHanded).Inductive
      fun s => ThreadInv s ∧ ∀ u, s.hand u ≠ [] → ¬Gone s u where
  init s hb := by
    refine ⟨.booted hb, fun u hu => ?_⟩
    exact absurd (hb.hand u) hu
  step s a t h hs := by
    obtain ⟨hi, hc⟩ := h
    obtain ⟨hg, hst⟩ := hs
    have hst := step_cases hst
    refine ⟨hi.step hst, fun u hu hgone => ?_⟩
    -- a thread that was gone before has had nothing in hand and takes nothing
    have hempty : Gone s u → False := by
      intro hgs
      rcases hand_step hst hu with hu | ⟨c, he, rfl⟩
      · exact hc u hu hgs
      · exact hi.not_gone he hgs
    rcases gone_step hi hst hgone with hgs | ⟨c, rfl, rfl⟩
    · exact hempty hgs
    · have hh := hg c rfl
      cases hst with
      | stop he => exact hu hh

theorem ThreadInv.idle_not_mem (h : ThreadInv s) (d : Fin N) :
    .idle d ∉ s.readyQ ∧ .idle d ∉ s.zombies := by
  constructor
  · intro hd
    cases h.located.not_idle (p := .ready) hd rfl
  · intro hd
    cases h.located.not_idle (p := .zombie) hd rfl

theorem ThreadInv.stack_at (h : ThreadInv s) (c : Fin N) :
    s.At (s.stack c) (.active c) ∨ s.At (s.stack c) (.leaving c) := by
  rw [h.registers.stack c]
  cases hp : s.phase c with
  | switching me f => exact Or.inr (by simp [State.At, hp, Phase.leaving, Phase.runsOn])
  | _ => exact Or.inl rfl

theorem ThreadInv.deleted_off_core (h : ThreadInv s) (hx : x ∈ s.deleted) (c : Fin N) :
    s.stack c ≠ x ∧ s.cr3 c ≠ x := by
  have hd : s.At x .deleted := hx
  have hs : s.stack c ≠ x := by
    intro hsx
    rcases h.stack_at c with hc | hc
    · rw [hsx] at hc
      cases h.located.exclusive hd hc
    · rw [hsx] at hc
      cases h.located.exclusive hd hc
  refine ⟨hs, ?_⟩
  rw [h.registers.cr3 c]
  exact hs

/-- Every created thread is in exactly one place, once. A deleted thread is not the one whose
stack or page directory a core uses. As long as no thread stops with another one in hand, who
has a thread in hand has not stopped. -/
theorem thread_in_one_place (hs : Reachable (scheduler isLock) s) :
    (∀ n < s.nextId, ∃! p, s.At (.thread n) p) ∧ Queues s ∧
    (∀ d, .idle d ∉ s.readyQ ∧ .idle d ∉ s.zombies) ∧
    (∀ x ∈ s.deleted, ∀ c, s.stack c ≠ x ∧ s.cr3 c ≠ x) ∧
    (Reachable ((scheduler isLock).restrict EmptyHanded) s →
      ∀ u k x, s.At x (.carried u k) → ¬Gone s u) := by
  have h := threadInv_reachable hs
  refine ⟨fun n hn => ?_, h.queues, h.idle_not_mem, fun x hx c => h.deleted_off_core hx c, ?_⟩
  · obtain ⟨p, hp⟩ := h.located.found n hn
    exact ⟨p, hp, fun r hr => h.located.exclusive hr hp⟩
  · intro hg u k x hx
    apply (hg.invariant carrier_not_gone_inductive).2
    intro hu
    simp [State.At, hu] at hx

def firstPick : List (Act 1) := [.create 0, .schedule 0, .stop 0, .pick 0]

def firstSwitch : List (Act 1) := firstPick ++ [.activate 0, .switch 0, .handle 0]

def emptyHanded (s : State N) : Act N → Bool
  | .stop c => (s.hand (s.activeThreads c)).isEmpty
  | _ => true

theorem emptyHanded_sound (s : State N) (a : Act N) (h : emptyHanded s a) : EmptyHanded s a := by
  rintro c rfl
  simpa [emptyHanded] using h

theorem second_thread_in_one_place : ∃ s : State 1, Reachable (scheduler fun _ => false) s ∧
    s.nextId = 2 ∧ (∃! p, s.At (.thread 0) p) ∧ (∃! p, s.At (.thread 1) p) ∧
    s.At (.thread 1) (.carried (.thread 0) .schedule) ∧ ¬Gone s (.thread 0) := by
  have hrun : (run (step fun _ => false) emptyHanded (boot 1 fun _ => false)
      (firstSwitch ++ [.create 0])).map (fun s => (s.nextId, s.hand (.thread 0))) =
      some (2, [(.schedule, .thread 1)]) := rfl
  obtain ⟨s, hs, hvals⟩ := Option.map_eq_some_iff.mp hrun
  obtain ⟨hn, hh⟩ := Prod.mk.inj hvals
  have hg : Reachable ((scheduler fun _ => false).restrict EmptyHanded) s :=
    boot_reachable emptyHanded_sound hs
  have hcarried : s.At (.thread 1) (.carried (.thread 0) .schedule) := by simp [State.At, hh]
  obtain ⟨hplace, -, -, -, hcarrier⟩ := thread_in_one_place hg.of_restrict
  refine ⟨s, hg.of_restrict, hn, hplace 0 ?_, hplace 1 ?_, hcarried, hcarrier hg _ _ _ hcarried⟩
  · rw [hn]
    decide
  · rw [hn]
    decide

def Place.named : Place N → Bool
  | .picked _ | .carried _ _ => false
  | _ => true

theorem picked_thread_unnamed :
    ¬∀ s : State 1, Reachable (scheduler fun _ => false) s →
      ∀ n < s.nextId, ∃! p, p.named ∧ s.At (.thread n) p := by
  intro hall
  have hrun : (run (step fun _ => false) (fun _ _ => true) (boot 1 fun _ => false)
      firstPick).map (fun s => (s.nextId, s.phase 0)) = some (1, .picked .stop (.thread 0)) := rfl
  obtain ⟨s, hs, hvals⟩ := Option.map_eq_some_iff.mp hrun
  obtain ⟨hn, hp⟩ := Prod.mk.inj hvals
  have hr : Reachable (scheduler fun _ => false) s := boot_run_reachable hs
  have hpicked : s.At (.thread 0) (.picked 0) := by simp [State.At, hp, Phase.next]
  obtain ⟨p, ⟨hnamed, hat⟩, -⟩ := hall s hr 0 (by rw [hn]; decide)
  rw [(threadInv_reachable hr).located.exclusive hat hpicked] at hnamed
  cases hnamed

end MMapKernel.Sched
