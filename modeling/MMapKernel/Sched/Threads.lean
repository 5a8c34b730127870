import MMapKernel.Sched.Location

/-!
# No thread is lost or duplicated

The invariant has three parts: every created thread is in exactly one place and an idle thread
only at its own core, no queue holds a thread twice, and a core runs on the stack and the page
directory of the thread it has last switched to.
-/

open Transition Places
namespace MMapKernel.Sched

variable {N : ℕ} {isLock : ℕ → Bool} {s t : State N} {a : Act N} {c : Fin N} {x u : TCB N}
  {k : Task} {q : ℕ}

def Place.core : Place N → Option (Fin N)
  | .active c | .leaving c | .picked c => some c
  | _ => none

structure Located (A : TCB N → Place N → Prop) (n : ℕ) : Prop where
  exclusive : Exclusive A
  found : ∀ i < n, ∃ p, A (.thread i) p
  created : ∀ i p, A (.thread i) p → i < n
  idle : ∀ d p, A (.idle d) p → p.core = some d

namespace Located

variable {A : TCB N → Place N → Prop} {n : ℕ} {p r : Place N}

theorem not_idle (h : Located A n) (hx : A x p) (hp : p.core = none) : x.isIdle = false := by
  cases x with
  | idle d =>
    have hd := h.idle d p hx
    rw [hp] at hd
    cases hd
  | thread i => rfl

theorem move (h : Located A n) (hx : A x p) (hr : ∀ d, x = .idle d → r.core = some d) :
    Located (moved A x p r) n where
  exclusive := h.exclusive.moved hx
  found i hi := by
    by_cases hxi : .thread i = x
    · exact ⟨r, hxi ▸ added_self⟩
    · obtain ⟨p', hp'⟩ := h.found i hi
      exact ⟨p', (moved_of_ne hxi).mpr hp'⟩
  created i p' hp' := by
    by_cases hxi : .thread i = x
    · subst hxi
      exact h.created i p hx
    · exact h.created i p' ((moved_of_ne hxi).mp hp')
  idle d p' hp' := by
    by_cases hxd : .idle d = x
    · subst hxd
      rw [(h.exclusive.moved_self hx).mp hp']
      exact hr d rfl
    · exact h.idle d p' ((moved_of_ne hxd).mp hp')

theorem move_thread (h : Located A n) (hx : A x p) (hp : p.core = none) :
    Located (moved A x p r) n := by
  apply h.move hx
  intro d hd
  have hi := h.not_idle hx hp
  rw [hd] at hi
  cases hi

theorem nowhere (h : Located A n) : Nowhere A (.thread n) := by
  intro p hp
  exact absurd (h.created n p hp) (lt_irrefl n)

theorem create (h : Located A n) : Located (added A (.thread n) p) (n + 1) where
  exclusive := h.exclusive.added h.nowhere
  found i hi := by
    rcases Nat.lt_succ_iff_lt_or_eq.mp hi with hi | rfl
    · obtain ⟨p', hp'⟩ := h.found i hi
      exact ⟨p', Or.inl hp'⟩
    · exact ⟨p, added_self⟩
  created i p' hp' := by
    rcases hp' with hp' | ⟨hi, -⟩
    · exact (h.created i p' hp').trans (Nat.lt_succ_self n)
    · cases hi
      exact Nat.lt_succ_self _
  idle d p' hp' := by
    rcases hp' with hp' | ⟨hd, -⟩
    · exact h.idle d p' hp'
    · cases hd

theorem unpark {d : Fin N} (h : Located A n) (hd : Nowhere A (.idle d)) (hp : p.core = some d) :
    Located (added A (.idle d) p) n where
  exclusive := h.exclusive.added hd
  found i hi := by
    obtain ⟨p', hp'⟩ := h.found i hi
    exact ⟨p', Or.inl hp'⟩
  created i p' hp' := by
    rcases hp' with hp' | ⟨hi, -⟩
    · exact h.created i p' hp'
    · cases hi
  idle e p' hp' := by
    rcases hp' with hp' | ⟨he, rfl⟩
    · exact h.idle e p' hp'
    · cases he
      exact hp

theorem park {d : Fin N} (h : Located A n) : Located (removed A (.idle d) p) n where
  exclusive := h.exclusive.removed
  found i hi := by
    obtain ⟨p', hp'⟩ := h.found i hi
    exact ⟨p', hp', by simp⟩
  created i p' hp' := h.created i p' hp'.1
  idle e p' hp' := h.idle e p' hp'.1

end Located

theorem nodup_snoc {α : Type*} {l : List α} {a : α} (hl : l.Nodup) (ha : a ∉ l) :
    (l ++ [a]).Nodup := by
  rw [← List.concat_eq_append]
  exact List.Nodup.concat ha hl

structure Queues (s : State N) : Prop where
  readyQ : s.readyQ.Nodup
  zombies : s.zombies.Nodup
  deleted : s.deleted.Nodup
  waiting : ∀ q, (s.waiting q).Nodup
  hand : ∀ u, (s.hand u).Nodup

namespace Queues

theorem enter (h : Queues s) (p : Phase N) : Queues (s.enter c p) :=
  ⟨h.readyQ, h.zombies, h.deleted, h.waiting, h.hand⟩

theorem push (h : Queues s) (hx : ¬s.At x (.carried u k)) : Queues (s.push u k x) where
  readyQ := h.readyQ
  zombies := h.zombies
  deleted := h.deleted
  waiting := h.waiting
  hand v := by
    by_cases hv : v = u
    · subst hv
      simpa [State.push] using ⟨hx, h.hand v⟩
    · simpa [State.push, hv] using h.hand v

theorem drop (h : Queues s) : Queues (s.drop u) where
  readyQ := h.readyQ
  zombies := h.zombies
  deleted := h.deleted
  waiting := h.waiting
  hand v := by
    by_cases hv : v = u
    · subst hv
      simpa [State.drop] using (h.hand v).tail
    · simpa [State.drop, hv] using h.hand v

theorem schedule (h : Queues s) (hx : ¬s.At x .ready) : Queues (s.schedule x) := by
  unfold State.schedule
  split
  case isTrue => exact h
  case isFalse => exact ⟨nodup_readyAdd h.readyQ hx, h.zombies, h.deleted, h.waiting, h.hand⟩

theorem bury (h : Queues s) (hx : ¬s.At x .zombie) : Queues (s.bury x) := by
  unfold State.bury
  split
  case isTrue => exact h
  case isFalse => exact ⟨h.readyQ, nodup_snoc h.zombies hx, h.deleted, h.waiting, h.hand⟩

theorem setWaiting {l : List (TCB N)} (h : Queues s) (hl : l.Nodup) :
    Queues { s with waiting := Function.update s.waiting q l } where
  readyQ := h.readyQ
  zombies := h.zombies
  deleted := h.deleted
  waiting p := by
    by_cases hp : p = q
    · subst hp
      simpa using hl
    · simpa [hp] using h.waiting p
  hand := h.hand

end Queues

def Phase.runsOn : Phase N → TCB N → TCB N
  | .switching me _, _ => me
  | _, active => active

structure Registers (s : State N) : Prop where
  stack : ∀ c, s.stack c = (s.phase c).runsOn (s.activeThreads c)
  cr3 : ∀ c, s.cr3 c = s.stack c

theorem Registers.enter {p : Phase N} (h : Registers s)
    (hp : p.runsOn (s.activeThreads c) = (s.phase c).runsOn (s.activeThreads c)) :
    Registers (s.enter c p) where
  stack d := by
    by_cases hd : d = c
    · subst hd
      simpa [State.enter, hp] using h.stack d
    · simpa [State.enter, hd] using h.stack d
  cr3 := h.cr3

structure SameThreads (s t : State N) : Prop where
  active : t.activeThreads = s.activeThreads
  phase : t.phase = s.phase
  readyQ : t.readyQ = s.readyQ
  zombies : t.zombies = s.zombies
  deleted : t.deleted = s.deleted
  waiting : t.waiting = s.waiting
  hand : t.hand = s.hand
  nextId : t.nextId = s.nextId
  stack : t.stack = s.stack
  cr3 : t.cr3 = s.cr3

structure ThreadInv (s : State N) : Prop where
  located : Located s.At s.nextId
  queues : Queues s
  registers : Registers s

theorem Phase.runsOn_of_executes {p : Phase N} (hp : p.executes) (x : TCB N) : p.runsOn x = x := by
  cases p with
  | switching me f => cases hp
  | _ => rfl

namespace ThreadInv

theorem not_at {p r : Place N} (h : ThreadInv s) (hx : s.At x p) (hpr : p ≠ r) : ¬s.At x r :=
  fun hr => hpr (h.located.exclusive hx hr)

theorem block {f : Caller} (h : ThreadInv s) (hp : (s.phase c).executes) :
    ThreadInv (s.block c f) where
  located := by
    rw [block_at hp]
    exact h.located
  queues := ⟨h.queues.readyQ, h.queues.zombies, h.queues.deleted, h.queues.waiting, h.queues.hand⟩
  registers := by
    have hr : Registers (s.enter c (.picking f)) := by
      apply h.registers.enter
      exact (Phase.runsOn_of_executes hp _).symm
    exact ⟨hr.stack, hr.cr3⟩

theorem create (h : ThreadInv s) : ThreadInv (s.create c) where
  located := by
    rw [create_at]
    exact h.located.create
  queues := by
    have hq := h.queues.push (h.located.nowhere (.carried (s.activeThreads c) .schedule))
    exact ⟨hq.readyQ, hq.zombies, hq.deleted, hq.waiting, hq.hand⟩
  registers := ⟨h.registers.stack, h.registers.cr3⟩

theorem schedule {rest : List (Task × TCB N)} (h : ThreadInv s)
    (hh : s.hand u = (.schedule, x) :: rest) : ThreadInv ((s.drop u).schedule x) := by
  have hx : s.At x (.carried u .schedule) := by simp [State.At, hh]
  have hi : x.isIdle = false := h.located.not_idle hx rfl
  have hr : ¬s.At x .ready := h.not_at hx (by simp)
  refine ⟨?_, h.queues.drop.schedule hr, ?_⟩
  · rw [schedule_at hi, drop_at hh (h.queues.hand u)]
    simp only [State.schedule, hi]
    exact h.located.move_thread hx rfl
  · simp only [State.schedule, hi]
    exact ⟨h.registers.stack, h.registers.cr3⟩

theorem reap {rest : List (TCB N)} (h : ThreadInv s) (hz : s.zombies = x :: rest) :
    ThreadInv ({ s with zombies := rest }.push u .delete x) := by
  have hx : s.At x .zombie := by simp [State.At, hz]
  refine ⟨?_, ?_, ⟨h.registers.stack, h.registers.cr3⟩⟩
  · rw [push_at, zombies_tail_at hz h.queues.zombies]
    exact h.located.move_thread hx rfl
  · have hq : Queues { s with zombies := rest } := by
      have hn := h.queues.zombies
      rw [hz] at hn
      exact ⟨h.queues.readyQ, (List.nodup_cons.mp hn).2, h.queues.deleted, h.queues.waiting,
        h.queues.hand⟩
    have hc : ¬s.At x (.carried u .delete) := h.not_at hx (by simp)
    exact hq.push hc

theorem delete {rest : List (Task × TCB N)} (h : ThreadInv s)
    (hh : s.hand u = (.delete, x) :: rest) :
    ThreadInv { s.drop u with deleted := x :: s.deleted } := by
  have hx : s.At x (.carried u .delete) := by simp [State.At, hh]
  refine ⟨?_, ?_, ⟨h.registers.stack, h.registers.cr3⟩⟩
  · have hat : State.At { s.drop u with deleted := x :: s.deleted } = _ :=
      deleted_cons_at (s := s.drop u) (x := x)
    rw [hat, drop_at hh (h.queues.hand u)]
    exact h.located.move_thread hx rfl
  · have hq : Queues (s.drop u) := h.queues.drop
    have hd : x ∉ s.deleted := h.not_at hx (r := .deleted) (by simp)
    exact ⟨hq.readyQ, hq.zombies, List.nodup_cons.mpr ⟨hd, hq.deleted⟩, hq.waiting, hq.hand⟩

theorem wake {rest : List (TCB N)} (h : ThreadInv s) (hw : s.waiting q = x :: rest) :
    ThreadInv (s.wake u q x) := by
  have hx : s.At x (.waiting q) := by simp [State.At, hw]
  refine ⟨?_, ?_, ⟨h.registers.stack, h.registers.cr3⟩⟩
  · rw [wake_at hw (h.queues.waiting q)]
    exact h.located.move_thread hx rfl
  · have hq := (h.queues.push (h.not_at hx (r := .carried u .schedule) (by simp))).setWaiting
      (q := q) (h.queues.waiting q).tail
    exact ⟨hq.readyQ, hq.zombies, hq.deleted, hq.waiting, hq.hand⟩

theorem dequeue {f : Caller} {rest : List (TCB N)} (h : ThreadInv s)
    (hp : s.phase c = .picking f) (hr : s.readyQ = x :: rest) :
    ThreadInv ({ s with readyQ := rest }.enter c (.picked f x)) := by
  have hx : s.At x .ready := by simp [State.At, hr]
  refine ⟨?_, ?_, ?_⟩
  · have hp' : State.phase { s with readyQ := rest } c = .picking f := hp
    rw [enter_picked_at hp', readyQ_tail_at hr h.queues.readyQ]
    exact h.located.move_thread hx rfl
  · have hn := h.queues.readyQ
    rw [hr] at hn
    exact ⟨(List.nodup_cons.mp hn).2, h.queues.zombies, h.queues.deleted, h.queues.waiting,
      h.queues.hand⟩
  · have hg : Registers { s with readyQ := rest } := ⟨h.registers.stack, h.registers.cr3⟩
    apply hg.enter
    simp [hp, Phase.runsOn]

theorem useIdle {f : Caller} {n : ℕ} (h : ThreadInv s) (hp : s.phase c = .picking f)
    (ha : s.activeThreads c = .thread n) : ThreadInv (s.enter c (.picked f (.idle c))) := by
  have hd : Nowhere s.At (.idle c) := by
    intro p hat
    have hc := h.located.idle c p hat
    cases p with
    | active d =>
      cases hc
      rw [State.At, ha] at hat
      cases hat
    | leaving d =>
      cases hc
      simp [State.At, hp, Phase.leaving] at hat
    | picked d =>
      cases hc
      simp [State.At, hp, Phase.next] at hat
    | _ => cases hc
  refine ⟨?_, h.queues.enter _, ?_⟩
  · rw [enter_picked_at hp]
    exact h.located.unpark hd rfl
  · apply h.registers.enter
    simp [hp, Phase.runsOn]

theorem activate {f : Caller} (h : ThreadInv s) (hp : s.phase c = .picked f x) :
    ThreadInv (s.activate c f x) := by
  have hme : s.At (s.activeThreads c) (.active c) := rfl
  have hx : s.At x (.picked c) := by simp [State.At, hp, Phase.next]
  have hne : x ≠ s.activeThreads c := by
    intro hxa
    rw [hxa] at hx
    exact h.not_at hme (by simp) hx
  refine ⟨?_, ⟨h.queues.readyQ, h.queues.zombies, h.queues.deleted, h.queues.waiting,
    h.queues.hand⟩, ?_⟩
  · rw [activate_at hp]
    have hl := h.located.move (r := .leaving c) hme fun d hd => h.located.idle d (.active c) hd
    apply hl.move ((moved_of_ne hne).mpr hx)
    intro d hd
    subst hd
    exact h.located.idle d (.picked c) hx
  · refine ⟨fun d => ?_, h.registers.cr3⟩
    by_cases hd : d = c
    · subst hd
      have := h.registers.stack d
      simpa [State.activate, State.enter, Phase.runsOn, hp] using this
    · simpa [State.activate, State.enter, hd] using h.registers.stack d

theorem contextSwitch {me : TCB N} {f : Caller} (h : ThreadInv s)
    (hp : s.phase c = .switching me f) : ThreadInv (s.contextSwitch c me f) := by
  refine ⟨?_, ⟨h.queues.readyQ, h.queues.zombies, h.queues.deleted, h.queues.waiting,
    h.queues.hand⟩, fun d => ?_, fun d => ?_⟩
  · rw [contextSwitch_at hp]
    exact h.located
  · by_cases hd : d = c
    · subst hd
      simp [State.contextSwitch, State.enter, Phase.runsOn]
    · simpa [State.contextSwitch, State.enter, hd] using h.registers.stack d
  · by_cases hd : d = c
    · subst hd
      simp [State.contextSwitch]
    · simpa [State.contextSwitch, hd] using h.registers.cr3 d

theorem leave {me : TCB N} {f : Caller} (h : ThreadInv s) (hp : s.phase c = .handling me f) :
    Queues (s.enter c .running) ∧ Registers (s.enter c .running) := by
  refine ⟨h.queues.enter _, h.registers.enter ?_⟩
  simp [hp, Phase.runsOn]

theorem requeue {me : TCB N} (h : ThreadInv s) (hp : s.phase c = .handling me .yield) :
    ThreadInv ((s.enter c .running).schedule me) := by
  have hme : s.At me (.leaving c) := by simp [State.At, hp, Phase.leaving]
  obtain ⟨hq, hr⟩ := h.leave hp
  cases me with
  | idle d =>
    refine ⟨?_, hq, hr⟩
    have hat : ((s.enter c .running).schedule (.idle d)).At = _ := enter_running_at hp
    rw [hat]
    exact h.located.park
  | thread n =>
    have hn : ¬s.At (.thread n) .ready := h.not_at hme (by simp)
    refine ⟨?_, hq.schedule hn, ⟨hr.stack, hr.cr3⟩⟩
    rw [schedule_at rfl, enter_running_at hp]
    exact h.located.move hme fun d hd => by cases hd

theorem bury {me : TCB N} (h : ThreadInv s) (hp : s.phase c = .handling me .stop) :
    ThreadInv ((s.enter c .running).bury me) := by
  have hme : s.At me (.leaving c) := by simp [State.At, hp, Phase.leaving]
  obtain ⟨hq, hr⟩ := h.leave hp
  cases me with
  | idle d =>
    refine ⟨?_, hq, hr⟩
    have hat : ((s.enter c .running).bury (.idle d)).At = _ := enter_running_at hp
    rw [hat]
    exact h.located.park
  | thread n =>
    have hn : ¬s.At (.thread n) .zombie := h.not_at hme (by simp)
    refine ⟨?_, hq.bury hn, ⟨hr.stack, hr.cr3⟩⟩
    rw [bury_at rfl, enter_running_at hp]
    exact h.located.move hme fun d hd => by cases hd

theorem enqueue {n : ℕ} (h : ThreadInv s) (hp : s.phase c = .handling (.thread n) (.down q)) :
    ThreadInv ((s.enter c .running).await q (.thread n)) := by
  have hme : s.At (.thread n) (.leaving c) := by simp [State.At, hp, Phase.leaving]
  obtain ⟨hq, hr⟩ := h.leave hp
  have hn : ¬s.At (.thread n) (.waiting q) := h.not_at hme (by simp)
  refine ⟨?_, ?_, ⟨hr.stack, hr.cr3⟩⟩
  · rw [await_at, enter_running_at hp]
    exact h.located.move hme fun d hd => by cases hd
  · have hw := hq.setWaiting (q := q) (nodup_snoc (h.queues.waiting q) hn)
    exact ⟨hw.readyQ, hw.zombies, hw.deleted, hw.waiting, hw.hand⟩

theorem enter {p : Phase N} (h : ThreadInv s) (hn : (s.phase c).next = p.next)
    (hl : (s.phase c).leaving = p.leaving)
    (hr : p.runsOn (s.activeThreads c) = (s.phase c).runsOn (s.activeThreads c)) :
    ThreadInv (s.enter c p) := by
  refine ⟨?_, h.queues.enter _, h.registers.enter hr⟩
  rw [enter_at hn hl]
  exact h.located

theorem congr (h : ThreadInv s) (hst : SameThreads s t) : ThreadInv t := by
  obtain ⟨ha, hp, hr, hz, hd, hw, hh, hn, hs, hc⟩ := hst
  have hat : t.At = s.At := by
    funext y p
    cases p <;> simp [State.At, *]
  refine ⟨?_, ⟨?_, ?_, ?_, ?_, ?_⟩, ?_, ?_⟩
  · rw [hat, hn]
    exact h.located
  · rw [hr]
    exact h.queues.readyQ
  · rw [hz]
    exact h.queues.zombies
  · rw [hd]
    exact h.queues.deleted
  · rw [hw]
    exact h.queues.waiting
  · rw [hh]
    exact h.queues.hand
  · rw [hs, hp, ha]
    exact h.registers.stack
  · rw [hs, hc]
    exact h.registers.cr3

theorem step (h : ThreadInv s) (hs : Step isLock s a t) : ThreadInv t := by
  cases hs with
  | create hp => exact h.create
  | schedule he hh => exact h.schedule hh
  | reap hp hz => exact h.reap hz
  | delete hp hh => exact h.delete hh
  | release he hl ho hw => exact h.congr ⟨rfl, rfl, rfl, rfl, rfl, rfl, rfl, rfl, rfl, rfl⟩
  | wake he hl ho hw => exact h.wake hw
  | take hp hl hc => exact h.congr ⟨rfl, rfl, rfl, rfl, rfl, rfl, rfl, rfl, rfl, rfl⟩
  | @await c q hp hl hc =>
    have hl' : ThreadInv { s with lock := Function.update s.lock q true } := h.congr ⟨rfl, rfl, rfl, rfl, rfl, rfl, rfl, rfl, rfl, rfl⟩
    apply hl'.block
    rw [hp]
    rfl
  | yield hp =>
    apply h.block
    rw [hp]
    rfl
  | stop he => exact h.block he
  | dequeue hp hr => exact h.dequeue hp hr
  | giveUp hp hr => exact h.enter (by rw [hp]; rfl) (by rw [hp]; rfl) (by rw [hp]; rfl)
  | retry hp hr ha => exact h
  | useIdle hp hf hr ha => exact h.useIdle hp ha
  | activate hp => exact h.activate hp
  | switch hp => exact h.contextSwitch hp
  | requeue hp => exact h.requeue hp
  | bury hp => exact h.bury hp
  | enqueue hp => exact h.enqueue hp
  | ignored hp hi => exact h
  | @tickKill c n hp ha hn hk =>
    have hc : ThreadInv (s.charge (.thread n)) := h.congr ⟨rfl, rfl, rfl, rfl, rfl, rfl, rfl, rfl, rfl, rfl⟩
    have hp' : (s.charge (.thread n)).phase c = .running := hp
    exact hc.enter (by rw [hp']; rfl) (by rw [hp']; rfl) (by rw [hp']; rfl)
  | @tickYield c n hp ha hn hk =>
    have hc : ThreadInv (s.charge (.thread n)) := h.congr ⟨rfl, rfl, rfl, rfl, rfl, rfl, rfl, rfl, rfl, rfl⟩
    apply hc.block
    change (s.phase c).executes
    rw [hp]
    rfl
  | kill => exact h.congr ⟨rfl, rfl, rfl, rfl, rfl, rfl, rfl, rfl, rfl, rfl⟩

theorem booted (hb : Booted isLock s) : ThreadInv s where
  located := by
    have hat : ∀ y p, s.At y p → ∃ d, p = .active d ∧ y = .idle d := by
      intro y p hp
      cases p with
      | active d => exact ⟨d, rfl, by rw [← hb.active d, hp]⟩
      | leaving d => simp [State.At, hb.phase, Phase.leaving] at hp
      | picked d => simp [State.At, hb.phase, Phase.next] at hp
      | ready => simp [State.At, hb.readyQ] at hp
      | waiting q => simp [State.At, hb.waiting] at hp
      | zombie => simp [State.At, hb.zombies] at hp
      | deleted => simp [State.At, hb.deleted] at hp
      | carried v j => simp [State.At, hb.hand] at hp
    refine ⟨fun y p r hp hr => ?_, fun i hi => ?_, fun i p hp => ?_, fun d p hp => ?_⟩
    · obtain ⟨d, rfl, rfl⟩ := hat y p hp
      obtain ⟨e, rfl, he⟩ := hat _ r hr
      cases he
      rfl
    · rw [hb.nextId] at hi
      exact absurd hi (Nat.not_lt_zero i)
    · obtain ⟨d, -, hd⟩ := hat _ p hp
      cases hd
    · obtain ⟨e, rfl, he⟩ := hat _ p hp
      cases he
      rfl
  queues := by
    refine ⟨?_, ?_, ?_, fun q => ?_, fun u => ?_⟩
    · simp [hb.readyQ]
    · simp [hb.zombies]
    · simp [hb.deleted]
    · simp [hb.waiting]
    · simp [hb.hand]
  registers := by
    refine ⟨fun d => ?_, fun d => ?_⟩
    · rw [hb.stack, hb.phase, hb.active]
      rfl
    · rw [hb.cr3, hb.stack]

end ThreadInv

theorem threadInv_inductive : (scheduler (N := N) isLock).Inductive ThreadInv where
  init _ hb := .booted hb
  step _ _ _ h hs := h.step (step_cases hs)

theorem threadInv_reachable (hs : Reachable (scheduler isLock) s) : ThreadInv s :=
  hs.invariant threadInv_inductive

end MMapKernel.Sched
