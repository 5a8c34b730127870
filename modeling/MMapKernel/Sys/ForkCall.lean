import MMapKernel.Sys.HandleRuns
import MMapKernel.Vmm.KernelSteps
import MMapKernel.Sched.Steps

/-!
# The system call `fork`

The handler makes a thread for whatever process `Process::fork` returns. The call runs through the
handle tables, the memory of the processes and the scheduler, one after the other.
-/

open Transition
namespace MMapKernel.Sys
open Vmm

variable {N : ℕ} {σ φ χ κ : Type}

structure ForkState (N : ℕ) (σ φ χ κ : Type) where
  tables : ProcessTables σ φ χ κ
  kernel : Kernel
  sched : Sched.State N

def deleteZombies (s : Sched.State N) : Sched.State N :=
  { s with zombies := [], deleted := s.zombies.reverse ++ s.deleted }

/-- `thread`. The constructor of the `TCB` takes an id before it follows its process; where that is
null there is no `TCB`. -/
def thread (s : Sched.State N) (c : Fin N) (process : Bool) : Bool × Sched.State N :=
  let s := deleteZombies s
  if process then
    (true, ((s.create c).drop (s.activeThreads c)).schedule (.thread s.nextId))
  else (false, { s with nextId := s.nextId + 1 })

/-- The call by process `pid`, which is `p`, on core `c`. There is no word to return where a null
`Process` is followed, and no result where the machine stops. -/
def sysFork (cfg : Config) (s : ForkState N σ φ χ κ) (c : Fin N) (pid : ℕ) (p : Process) (child : χ)
    (flag : κ) : Option (Option UInt32 × ForkState N σ φ χ κ) :=
  let (id, process, tables) := s.tables.fork child flag
  let (made, sched) := thread s.sched c process.isSome
  (s.kernel.fork cfg pid p process.isSome).map fun kernel =>
    (if made then some id else none, { tables := tables, kernel := kernel, sched := sched })

def FailsCleanly (s : ForkState N σ φ χ κ) (r : Option (Option UInt32 × ForkState N σ φ χ κ)) : Prop :=
  ∃ t, r = some (some (-1), t) ∧ t.sched.nextId = s.sched.nextId ∧ t.sched.readyQ = s.sched.readyQ ∧
    t.tables = s.tables ∧ t.kernel = s.kernel

theorem firstFree_eq_none_iff {α : Type} {table : Fin 10 → Option α} :
    firstFree table = none ↔ ∀ i, (table i).isSome = true := by
  unfold firstFree
  rw [List.find?_eq_none]
  constructor
  · intro h i
    simpa [Option.isSome_iff_ne_none] using h i (List.mem_finRange i)
  · intro h i _
    simpa [Option.isSome_iff_ne_none] using h i

theorem sysFork_free {cfg : Config} {s : ForkState N σ φ χ κ} {c : Fin N} {pid : ℕ} {p : Process}
    {child : χ} {flag : κ} {i : Fin 10} (hi : firstFree s.tables.children = some i) :
    sysFork cfg s c pid p child flag = (s.kernel.fork cfg pid p true).map fun kernel =>
      (some (Slot.child i).id,
        { tables := { s.tables with
            children := Function.update s.tables.children i (some child)
            killFlags := Function.update s.tables.killFlags i (some flag) }
          kernel := kernel
          sched := (thread s.sched c true).2 }) := by
  unfold sysFork ProcessTables.fork
  rw [hi]
  rfl

theorem sysFork_full {cfg : Config} {s : ForkState N σ φ χ κ} {c : Fin N} {pid : ℕ} {p : Process}
    {child : χ} {flag : κ} (hfull : ∀ i, (s.tables.children i).isSome = true) :
    sysFork cfg s c pid p child flag = some (none,
      { tables := s.tables
        kernel := s.kernel.put pid p.stopped
        sched := { deleteZombies s.sched with nextId := s.sched.nextId + 1 } }) := by
  unfold sysFork ProcessTables.fork
  rw [firstFree_eq_none_iff.mpr hfull]
  rfl

def space (p : Process) : PageDir × List VMEntry := (p.pd, p.entryList)

theorem put_stopped_space {k : Kernel} {pid : ℕ} {p : Process} (hp : k.procs[pid]? = some p) (j : ℕ) :
    ((k.put pid p.stopped).procs[j]?).map space = (k.procs[j]?).map space := by
  unfold Kernel.put
  by_cases hj : pid = j
  · subst hj
    have hlt := (List.getElem?_eq_some_iff.mp hp).1
    rw [List.getElem?_set_self hlt, hp]
    rfl
  · rw [List.getElem?_set_ne hj]

/-- For every state with ten children: the call does not fail cleanly. It follows a null `Process`
and returns nothing; tables, entry lists and page directories stay, an id of a thread is lost, and
the calling process is terminated. -/
theorem full_fork_ends_process (cfg : Config) (s : ForkState N σ φ χ κ) (c : Fin N) (pid : ℕ)
    (p : Process) (child : χ) (flag : κ) (hp : s.kernel.procs[pid]? = some p)
    (hfull : ∀ i, (s.tables.children i).isSome = true) :
    ¬FailsCleanly s (sysFork cfg s c pid p child flag) ∧
      ∃ t, sysFork cfg s c pid p child flag = some (none, t) ∧ t.tables = s.tables ∧
        t.sched.nextId = s.sched.nextId + 1 ∧ t.sched.readyQ = s.sched.readyQ ∧
        t.kernel.procs[pid]? = some p.stopped ∧
        ∀ j : ℕ, (t.kernel.procs[j]?).map space = (s.kernel.procs[j]?).map space := by
  have hcall : sysFork cfg s c pid p child flag = _ := sysFork_full hfull
  constructor
  · rintro ⟨t, ht, -⟩
    rw [hcall] at ht
    cases ht
  · have hlt := (List.getElem?_eq_some_iff.mp hp).1
    exact ⟨_, hcall, rfl, rfl, rfl, List.getElem?_set_self hlt, put_stopped_space hp⟩

def emptyProcess : Process := ⟨⟨0x200000, Sparse.empty⟩, [], .live, false⟩

def tenChildren (tables : ProcessTables ℕ ℕ ℕ ℕ) : ForkState 1 ℕ ℕ ℕ ℕ where
  tables := tables
  kernel := { bootKernel with procs := [emptyProcess] }
  sched := Sched.boot 1 fun _ => false

def tenForks : List (TableCall ℕ ℕ ℕ ℕ) := (List.range 10).map fun n => .fork n n

theorem tenForks_reachable : ∃ x : TableState ℕ ℕ ℕ ℕ × HandleLedger ℕ ℕ ℕ,
    Reachable handleRuns x ∧ ∀ i, (x.1.tables.children i).isSome = true := by
  obtain ⟨x, hrun, hfull⟩ : ∃ x, run handleStep (fun _ _ => true) (noHandles, []) tenForks = some x ∧
      ∀ i, (x.1.tables.children i).isSome = true := ⟨_, rfl, by decide⟩
  have hinit : Reachable handleRuns (noHandles, []) := .start rfl
  exact ⟨x, run_reachable (fun _ _ _ _ h => h) hinit hrun, hfull⟩

theorem full_fork_ends_process_once : ∃ s t : ForkState 1 ℕ ℕ ℕ ℕ,
    sysFork qemu s 0 0 emptyProcess 10 10 = some (none, t) ∧
      t.kernel.procs[0]? = some emptyProcess.stopped := by
  obtain ⟨x, -, hfull⟩ := tenForks_reachable
  obtain ⟨-, t, ht, -, -, -, hstopped, -⟩ :=
    full_fork_ends_process qemu (tenChildren x.1.tables) 0 0 emptyProcess 10 10 rfl hfull
  exact ⟨_, t, ht, hstopped⟩

/-- The eleventh `fork` of a process does not return. -/
theorem eleventh_fork_fails : ∃ x : TableState ℕ ℕ ℕ ℕ × HandleLedger ℕ ℕ ℕ,
    Reachable handleRuns x ∧ (∀ i, (x.1.tables.children i).isSome = true) ∧
      ¬FailsCleanly (tenChildren x.1.tables)
        (sysFork qemu (tenChildren x.1.tables) 0 0 emptyProcess 10 10) := by
  obtain ⟨x, hx, hfull⟩ := tenForks_reachable
  refine ⟨x, hx, hfull, ?_⟩
  rintro ⟨t, ht, -⟩
  have hcall : sysFork qemu (tenChildren x.1.tables) 0 0 emptyProcess 10 10 = _ := sysFork_full hfull
  rw [hcall] at ht
  cases ht

end MMapKernel.Sys
