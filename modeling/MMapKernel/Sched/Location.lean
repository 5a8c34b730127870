import MMapKernel.Lib.Places
import MMapKernel.Sched.Steps

/-!
# Where a thread is

`State.At` says in which places a `TCB` is. Each operation of the model takes one out of a
place, puts one into a place, or both, and the lemmas below say which.
-/

open Transition Places
namespace MMapKernel.Sched

variable {N : ℕ} {s : State N} {c : Fin N} {x y u me : TCB N} {k : Task} {f : Caller} {q : ℕ}

/-- `leaving` a core lasts from the store into `activeThreads` to the end of the handler;
`picked` from the removal from `readyQ` to that store. -/
inductive Place (N : ℕ) where
  | active (c : Fin N)
  | leaving (c : Fin N)
  | picked (c : Fin N)
  | ready
  | waiting (q : ℕ)
  | zombie
  | deleted
  | carried (u : TCB N) (k : Task)
deriving DecidableEq, Repr

def Phase.next : Phase N → Option (TCB N)
  | .picked _ x => some x
  | _ => none

def Phase.leaving : Phase N → Option (TCB N)
  | .switching me _ | .handling me _ => some me
  | _ => none

def State.At (s : State N) (x : TCB N) : Place N → Prop
  | .active c => s.activeThreads c = x
  | .leaving c => (s.phase c).leaving = some x
  | .picked c => (s.phase c).next = some x
  | .ready => x ∈ s.readyQ
  | .waiting q => x ∈ s.waiting q
  | .zombie => x ∈ s.zombies
  | .deleted => x ∈ s.deleted
  | .carried u k => (k, x) ∈ s.hand u

theorem mem_readyAdd {rt : TCB N → Int32} {l : List (TCB N)} :
    y ∈ readyAdd rt x l ↔ y ∈ l ∨ y = x := by
  induction l with
  | nil => simp [readyAdd]
  | cons z l ih =>
    rw [readyAdd]
    split
    case isTrue => rw [List.mem_cons, ih, List.mem_cons, or_assoc]
    case isFalse => rw [List.mem_cons, or_comm]

theorem nodup_readyAdd {rt : TCB N → Int32} {l : List (TCB N)} (hl : l.Nodup) (hx : x ∉ l) :
    (readyAdd rt x l).Nodup := by
  induction l with
  | nil => simp [readyAdd]
  | cons z l ih =>
    obtain ⟨hz, hl'⟩ := List.nodup_cons.mp hl
    rw [List.mem_cons, not_or] at hx
    rw [readyAdd]
    split
    case isTrue =>
      refine List.nodup_cons.mpr ⟨fun hm => ?_, ih hl' hx.2⟩
      rcases mem_readyAdd.mp hm with hm | rfl
      · exact hz hm
      · exact hx.1 rfl
    case isFalse => exact List.nodup_cons.mpr ⟨by simp [hx.1, hx.2], hl⟩

theorem mem_tail_iff {α : Type*} {l rest : List α} {a b : α} (hl : l = a :: rest) (hn : l.Nodup) :
    b ∈ rest ↔ b ∈ l ∧ b ≠ a := by
  subst hl
  have ha : a ∉ rest := (List.nodup_cons.mp hn).1
  constructor
  · intro hb
    exact ⟨List.mem_cons_of_mem a hb, fun hba => ha (hba ▸ hb)⟩
  · intro hb
    exact (List.mem_cons.mp hb.1).resolve_left hb.2

theorem enter_at {p : Phase N} (hn : (s.phase c).next = p.next)
    (hl : (s.phase c).leaving = p.leaving) : (s.enter c p).At = s.At := by
  funext y r
  cases r with
  | leaving d =>
    by_cases hd : d = c
    · subst hd
      simp [State.At, State.enter, hl]
    · simp [State.At, State.enter, hd]
  | picked d =>
    by_cases hd : d = c
    · subst hd
      simp [State.At, State.enter, hn]
    · simp [State.At, State.enter, hd]
  | _ => rfl

theorem enter_picked_at (hp : s.phase c = .picking f) :
    (s.enter c (.picked f x)).At = added s.At x (.picked c) := by
  funext y r
  cases r with
  | leaving d =>
    by_cases hd : d = c
    · subst hd
      simp [State.At, State.enter, added, hp, Phase.leaving]
    · simp [State.At, State.enter, added, hd]
  | picked d =>
    by_cases hd : d = c
    · subst hd
      simp [State.At, State.enter, added, hp, Phase.next, eq_comm]
    · simp [State.At, State.enter, added, hd]
  | _ => simp [State.At, State.enter, added]

theorem enter_running_at (hp : s.phase c = .handling me f) :
    (s.enter c .running).At = removed s.At me (.leaving c) := by
  funext y r
  cases r with
  | leaving d =>
    by_cases hd : d = c
    · subst hd
      simp [State.At, State.enter, removed, hp, Phase.leaving, eq_comm]
    · simp [State.At, State.enter, removed, hd]
  | picked d =>
    by_cases hd : d = c
    · subst hd
      simp [State.At, State.enter, removed, hp, Phase.next]
    · simp [State.At, State.enter, removed, hd]
  | _ => simp [State.At, State.enter, removed]

theorem block_at (hp : (s.phase c).executes) : (s.block c f).At = s.At := by
  have hn : (s.phase c).next = none := by cases h : s.phase c <;> simp_all [Phase.executes, Phase.next]
  have hl : (s.phase c).leaving = none := by
    cases h : s.phase c <;> simp_all [Phase.executes, Phase.leaving]
  have h : (s.enter c (.picking f)).At = s.At := enter_at hn hl
  exact h

theorem activate_at (hp : s.phase c = .picked f x) :
    (s.activate c f x).At = moved (moved s.At (s.activeThreads c) (.active c) (.leaving c))
      x (.picked c) (.active c) := by
  funext y r
  cases r with
  | active d =>
    by_cases hd : d = c
    · subst hd
      simp [State.At, State.activate, moved, added, removed, eq_comm]
    · simp [State.At, State.activate, State.enter, moved, added, removed, hd]
  | leaving d =>
    by_cases hd : d = c
    · subst hd
      simp [State.At, State.activate, State.enter, moved, added, removed, hp, Phase.leaving, eq_comm]
    · simp [State.At, State.activate, State.enter, moved, added, removed, hd]
  | picked d =>
    by_cases hd : d = c
    · subst hd
      simp [State.At, State.activate, State.enter, moved, added, removed, hp, Phase.next, eq_comm]
    · simp [State.At, State.activate, State.enter, moved, added, removed, hd]
  | _ => simp [State.At, State.activate, State.enter, moved, added, removed]

theorem contextSwitch_at (hp : s.phase c = .switching me f) :
    (s.contextSwitch c me f).At = s.At := by
  have h : (s.enter c (.handling me f)).At = s.At := by
    apply enter_at
    · rw [hp]
      rfl
    · rw [hp]
      rfl
  exact h

theorem push_at : (s.push u k x).At = added s.At x (.carried u k) := by
  funext y r
  cases r with
  | carried v j =>
    by_cases hv : v = u
    · subst hv
      simp [State.At, State.push, added, or_comm, and_comm]
    · simp [State.At, State.push, added, hv]
  | _ => simp [State.At, State.push, added]

theorem drop_at {rest : List (Task × TCB N)} (hh : s.hand u = (k, x) :: rest)
    (hn : (s.hand u).Nodup) : (s.drop u).At = removed s.At x (.carried u k) := by
  funext y r
  cases r with
  | carried v j =>
    by_cases hv : v = u
    · subst hv
      simp only [State.At, State.drop, removed, Function.update_self, hh, List.tail_cons]
      rw [mem_tail_iff hh hn, hh]
      simp [and_comm]
    · simp [State.At, State.drop, removed, hv]
  | _ => simp [State.At, State.drop, removed]

theorem schedule_at (hx : x.isIdle = false) : (s.schedule x).At = added s.At x .ready := by
  funext y r
  cases r <;> simp [State.At, State.schedule, hx, added, mem_readyAdd]

theorem bury_at (hx : x.isIdle = false) : (s.bury x).At = added s.At x .zombie := by
  funext y r
  cases r <;> simp [State.At, State.bury, hx, added]

theorem await_at : (s.await q x).At = added s.At x (.waiting q) := by
  funext y r
  cases r with
  | waiting p =>
    by_cases hp : p = q
    · subst hp
      simp [State.At, State.await, added]
    · simp [State.At, State.await, added, hp]
  | _ => simp [State.At, State.await, added]

theorem readyQ_tail_at {rest : List (TCB N)} (hq : s.readyQ = x :: rest) (hn : s.readyQ.Nodup) :
    State.At { s with readyQ := rest } = removed s.At x .ready := by
  funext y r
  cases r with
  | ready => simp [State.At, removed, mem_tail_iff hq hn]
  | _ => simp [State.At, removed]

theorem zombies_tail_at {rest : List (TCB N)} (hq : s.zombies = x :: rest) (hn : s.zombies.Nodup) :
    State.At { s with zombies := rest } = removed s.At x .zombie := by
  funext y r
  cases r with
  | zombie => simp [State.At, removed, mem_tail_iff hq hn]
  | _ => simp [State.At, removed]

theorem deleted_cons_at : State.At { s with deleted := x :: s.deleted } = added s.At x .deleted := by
  funext y r
  cases r <;> simp [State.At, added, or_comm]

theorem wake_at {rest : List (TCB N)} (hw : s.waiting q = x :: rest) (hn : (s.waiting q).Nodup) :
    (s.wake u q x).At = moved s.At x (.waiting q) (.carried u .schedule) := by
  funext y r
  cases r with
  | waiting p =>
    by_cases hp : p = q
    · subst hp
      simp only [State.At, State.wake, moved, added, removed, Function.update_self, hw,
        List.tail_cons]
      rw [mem_tail_iff hw hn, hw]
      simp
    · simp [State.At, State.wake, State.push, moved, added, removed, hp]
  | carried v j =>
    by_cases hv : v = u
    · subst hv
      simp [State.At, State.wake, State.push, moved, added, removed, or_comm, and_comm]
    · simp [State.At, State.wake, State.push, moved, added, removed, hv]
  | _ => simp [State.At, State.wake, State.push, moved, added, removed]

theorem create_at :
    (s.create c).At = added s.At (.thread s.nextId) (.carried (s.activeThreads c) .schedule) := by
  have h : (s.push (s.activeThreads c) .schedule (.thread s.nextId)).At = _ := push_at
  exact h

end MMapKernel.Sched
