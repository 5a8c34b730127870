import MMapKernel.Sched.Threads

/-!
# The order of `readyQ`

`PriorityQueue::add` puts a thread behind all that have run no longer than it. The keys are not in
the queue: they belong to the processes, and the timer adds to them without the lock of the queue.
It adds to the key of an active thread only, and no active thread is in `readyQ`, so the queue
stays sorted by the keys as they are.

`Timed` keeps beside the state how many steps have been taken and, for each thread, the step at
which it last came into `readyQ`. No code reads these.
-/

open Transition
namespace MMapKernel.Sched

variable {N : ℕ} {isLock : ℕ → Bool} {s t : State N} {a : Act N} {c : Fin N} {x y : TCB N}

/-- The loop of `add`: `front` ends with `prev`, and the rest begins with `temp`. -/
def addLoop (runTime : TCB N → Int32) (t : TCB N) : List (TCB N) → List (TCB N) → List (TCB N)
  | front, [] => front ++ [t]
  | front, temp :: rest =>
    if runTime temp ≤ runTime t then addLoop runTime t (front ++ [temp]) rest
    else front ++ t :: temp :: rest

def priorityAdd (runTime : TCB N → Int32) (t : TCB N) : List (TCB N) → List (TCB N)
  | [] => [t]
  | first :: rest =>
    if runTime t < runTime first then t :: first :: rest
    else addLoop runTime t [] (first :: rest)

theorem addLoop_eq (rt : TCB N → Int32) (t : TCB N) (front rest : List (TCB N)) :
    addLoop rt t front rest = front ++ readyAdd rt t rest := by
  induction rest generalizing front with
  | nil => rfl
  | cons temp rest ih =>
    rw [addLoop, readyAdd]
    split
    case isTrue => rw [ih, List.append_assoc, List.singleton_append]
    case isFalse => rfl

theorem priorityAdd_eq (rt : TCB N → Int32) (t : TCB N) (q : List (TCB N)) :
    priorityAdd rt t q = readyAdd rt t q := by
  cases q with
  | nil => rfl
  | cons first rest =>
    rw [priorityAdd, addLoop_eq, List.nil_append]
    split
    case isTrue h => rw [readyAdd, if_neg (Int32.not_le.mpr h)]
    case isFalse => rfl

def Before (rt : TCB N → Int32) (since : TCB N → ℕ) (x y : TCB N) : Prop :=
  rt x < rt y ∨ (rt x = rt y ∧ since x < since y)

theorem readyAdd_before {rt : TCB N → Int32} {since : TCB N → ℕ} {l : List (TCB N)}
    (hl : l.Pairwise (Before rt since)) (hlast : ∀ y ∈ l, since y < since x) :
    (readyAdd rt x l).Pairwise (Before rt since) := by
  induction l with
  | nil => simp [readyAdd]
  | cons z l ih =>
    obtain ⟨hz, hl⟩ := List.pairwise_cons.mp hl
    rw [List.forall_mem_cons] at hlast
    rw [readyAdd]
    split
    case isTrue hle =>
      refine List.pairwise_cons.mpr ⟨fun y hy => ?_, ih hl hlast.2⟩
      rcases mem_readyAdd.mp hy with hy | rfl
      · exact hz y hy
      · rcases Int32.lt_or_eq_of_le hle with hlt | heq
        · exact .inl hlt
        · exact .inr ⟨heq, hlast.1⟩
    case isFalse hle =>
      have hlt : rt x < rt z := Int32.not_le.mp hle
      refine List.pairwise_cons.mpr ⟨fun y hy => .inl ?_, List.pairwise_cons.mpr ⟨hz, hl⟩⟩
      rcases List.mem_cons.mp hy with rfl | hy
      · exact hlt
      · rcases hz y hy with h | ⟨h, -⟩
        · exact Int32.lt_trans hlt h
        · exact h ▸ hlt

/-- The three effects on `readyQ`. A key changes only outside of it. -/
inductive QueueStep (s t : State N) : Prop
  | kept : t.readyQ = s.readyQ → (∀ y ∈ s.readyQ, t.runTime y = s.runTime y) → QueueStep s t
  | added (x : TCB N) : x ∉ s.readyQ → t.readyQ = readyAdd s.runTime x s.readyQ → t.runTime = s.runTime →
      QueueStep s t
  | taken (x : TCB N) : s.readyQ = x :: t.readyQ → t.runTime = s.runTime → QueueStep s t

theorem queueStep_schedule {s₁ : State N} (hq : s₁.readyQ = s.readyQ) (hrt : s₁.runTime = s.runTime)
    (hx : x ∉ s.readyQ) : QueueStep s (s₁.schedule x) := by
  unfold State.schedule
  split
  case isTrue => exact .kept hq fun y _ => by rw [hrt]
  case isFalse => exact .added x hx (by rw [← hq, ← hrt]) hrt

theorem queueStep_charge {v : Int32} (hx : x ∉ s.readyQ) (hq : t.readyQ = s.readyQ)
    (hrt : t.runTime = Function.update s.runTime x v) : QueueStep s t := by
  refine .kept hq fun y hy => ?_
  rw [hrt, Function.update_of_ne]
  rintro rfl
  exact hx hy

theorem queue_step (h : ThreadInv s) (hs : Step isLock s a t) : QueueStep s t := by
  cases hs with
  | @create c hp => exact queueStep_charge (h.located.nowhere .ready) rfl rfl
  | @schedule c x rest he hh =>
    have hx : s.At x (.carried (s.activeThreads c) .schedule) := by simp [State.At, hh]
    exact queueStep_schedule rfl rfl (h.not_at hx (r := .ready) (by simp))
  | @dequeue c f x rest hp hr => exact .taken x hr rfl
  | @requeue c me hp =>
    have hme : s.At me (.leaving c) := by simp [State.At, hp, Phase.leaving]
    exact queueStep_schedule rfl rfl (h.not_at hme (r := .ready) (by simp))
  | @bury c me hp =>
    obtain ⟨l, hl⟩ := bury_eq (s.enter c .running) me
    rw [hl]
    exact .kept rfl fun _ _ => rfl
  | @tickKill c n hp ha hn hk =>
    exact queueStep_charge (h.not_at (p := .active c) (r := .ready) ha (by simp)) rfl rfl
  | @tickYield c n hp ha hn hk =>
    exact queueStep_charge (h.not_at (p := .active c) (r := .ready) ha (by simp)) rfl rfl
  | _ => exact .kept rfl fun _ _ => rfl

structure Timed (N : ℕ) where
  state : State N
  since : TCB N → ℕ
  now : ℕ

def Timed.next (r : Timed N) (t : State N) : Timed N where
  state := t
  since x := if x ∈ t.readyQ ∧ x ∉ r.state.readyQ then r.now else r.since x
  now := r.now + 1

def timed (isLock : ℕ → Bool) : System (Timed N) (Act N) where
  init r := Booted isLock r.state
  step r a r' := step isLock r.state a = some r'.state ∧ r' = r.next r'.state

theorem timed_of_reachable (hs : Reachable (scheduler isLock) s) :
    ∃ r, Reachable (timed isLock) r ∧ r.state = s := by
  induction hs with
  | @start s hb => exact ⟨⟨s, fun _ => 0, 0⟩, .start hb, rfl⟩
  | @next s t a _ hst ih =>
    obtain ⟨r, hr, rfl⟩ := ih
    exact ⟨r.next t, hr.next ⟨hst, rfl⟩, rfl⟩

structure Ordered (r : Timed N) : Prop where
  threads : ThreadInv r.state
  sorted : r.state.readyQ.Pairwise (Before r.state.runTime r.since)
  past : ∀ x ∈ r.state.readyQ, r.since x < r.now

theorem Timed.next_since {r : Timed N} (hx : x ∈ r.state.readyQ) : (r.next t).since x = r.since x := by
  simp [Timed.next, hx]

theorem Before.next {r : Timed N} (hrt : ∀ y ∈ r.state.readyQ, t.runTime y = r.state.runTime y)
    (hx : x ∈ r.state.readyQ) (hy : y ∈ r.state.readyQ)
    (h : Before r.state.runTime r.since x y) : Before t.runTime (r.next t).since x y := by
  rw [Before, hrt x hx, hrt y hy, Timed.next_since hx, Timed.next_since hy]
  exact h

theorem Ordered.step {r : Timed N} (h : Ordered r) (hs : Step isLock r.state a t) :
    Ordered (r.next t) := by
  have hnow : ∀ x ∈ r.state.readyQ, (r.next t).since x < (r.next t).now := fun x hx => by
    rw [Timed.next_since hx]
    exact (h.past x hx).trans (Nat.lt_succ_self _)
  refine ⟨h.threads.step hs, ?_, ?_⟩
  · cases queue_step h.threads hs with
    | kept hq hrt =>
      change t.readyQ.Pairwise _
      rw [hq]
      exact h.sorted.imp_of_mem fun hx hy hxy => hxy.next hrt hx hy
    | added x hx hq hrt =>
      change t.readyQ.Pairwise _
      have hrt' : ∀ y ∈ r.state.readyQ, t.runTime y = r.state.runTime y := fun y _ => by rw [hrt]
      have hnew : (r.next t).since x = r.now := by
        have hmem : x ∈ t.readyQ := hq ▸ mem_readyAdd.mpr (.inr rfl)
        simp [Timed.next, hmem, hx]
      rw [hq, ← hrt]
      refine readyAdd_before (h.sorted.imp_of_mem fun hx hy hxy => hxy.next hrt' hx hy) fun y hy => ?_
      rw [hnew, Timed.next_since hy]
      exact h.past y hy
    | taken x hq hrt =>
      change t.readyQ.Pairwise _
      have hrt' : ∀ y ∈ r.state.readyQ, t.runTime y = r.state.runTime y := fun y _ => by rw [hrt]
      have hsorted := h.sorted.imp_of_mem fun hx hy hxy => hxy.next (t := t) hrt' hx hy
      rw [hq] at hsorted
      exact (List.pairwise_cons.mp hsorted).2
  · intro x hx
    by_cases hold : x ∈ r.state.readyQ
    · exact hnow x hold
    · have hnew : (r.next t).since x = r.now := by
        have hmem : x ∈ t.readyQ := hx
        simp [Timed.next, hmem, hold]
      rw [hnew]
      exact Nat.lt_succ_self _

theorem ordered_inductive : (timed (N := N) isLock).Inductive Ordered where
  init r hb := by
    have hnil : r.state.readyQ = [] := hb.readyQ
    refine ⟨.booted hb, ?_, ?_⟩
    · simp [hnil]
    · simp [hnil]
  step r a r' h hs := hs.2 ▸ h.step (step_cases hs.1)

/-- In every reachable state `readyQ` is sorted by the run times as they are, and holds no thread
twice. Its first thread, which `remove` hands to `block`, has the least run time, and among those
with the same it came first; the rest of the queue stays as it is. -/
theorem ready_queue_order {r : Timed N} (hr : Reachable (timed isLock) r) :
    r.state.readyQ.Pairwise (fun x y => r.state.runTime x ≤ r.state.runTime y) ∧
    r.state.readyQ.Nodup ∧
    ∀ x rest, r.state.readyQ = x :: rest →
      (∀ y ∈ rest, r.state.runTime x ≤ r.state.runTime y ∧
        (r.state.runTime y = r.state.runTime x → r.since x < r.since y)) ∧
      ∀ c f, r.state.phase c = .picking f →
        ∃ t, step isLock r.state (.pick c) = some t ∧ t.phase c = .picked f x ∧ t.readyQ = rest := by
  have h := hr.invariant ordered_inductive
  refine ⟨h.sorted.imp ?_, h.threads.queues.readyQ, fun x rest hq => ⟨fun y hy => ?_, fun c f hp => ?_⟩⟩
  · rintro x y (hxy | ⟨hxy, -⟩)
    · exact Int32.le_of_lt hxy
    · exact Int32.le_of_eq hxy
  · have hsorted := h.sorted
    rw [hq] at hsorted
    rcases (List.pairwise_cons.mp hsorted).1 y hy with hxy | ⟨hxy, htime⟩
    · refine ⟨Int32.le_of_lt hxy, fun he => ?_⟩
      rw [he] at hxy
      exact (Int32.lt_irrefl hxy).elim
    · exact ⟨Int32.le_of_eq hxy, fun _ => htime⟩
  · refine ⟨{ r.state with readyQ := rest }.enter c (.picked f x), ?_, ?_, rfl⟩
    · simp [Sched.step, hp, pick, hq]
    · simp [State.enter]

theorem first_scheduled_is_first : ∃ r : Timed 1, Reachable (timed fun _ => false) r ∧
    r.state.readyQ = [.thread 0, .thread 1] ∧ r.since (.thread 0) < r.since (.thread 1) := by
  have hrun : (run (step fun _ => false) (fun _ _ => true) (boot 1 fun _ => false)
      [.create 0, .schedule 0, .create 0, .schedule 0]).map
        (fun s => (s.readyQ, s.runTime (.thread 0), s.runTime (.thread 1))) =
      some ([.thread 0, .thread 1], 0, 0) := rfl
  obtain ⟨s, hs, hvals⟩ := Option.map_eq_some_iff.mp hrun
  simp only [Prod.mk.injEq] at hvals
  obtain ⟨hq, h₀, h₁⟩ := hvals
  have hreach : Reachable (scheduler fun _ => false) s := boot_run_reachable hs
  obtain ⟨r, hr, rfl⟩ := timed_of_reachable hreach
  refine ⟨r, hr, hq, ?_⟩
  have hfirst := ((ready_queue_order hr).2.2 _ _ hq).1 (.thread 1) List.mem_cons_self
  exact hfirst.2 (h₁.trans h₀.symm)

end MMapKernel.Sched
