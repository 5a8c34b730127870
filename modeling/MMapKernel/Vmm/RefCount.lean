import MMapKernel.Vmm.KernelSteps

/-!
# The reference counts of shared files

`num_processes` should be the number of entries, over the live processes, whose `node` is
that `NodeEntry`. The fault handler counts pages instead of entries, only the exit system
call counts down, and `node` starts out as whatever the heap held. `Counted` names the calls
on which none of this shows; along runs of such calls the law holds.
-/

open Transition
namespace MMapKernel.Vmm

def Process.liveReferences (n : ℕ) (p : Process) : ℕ :=
  if p.status = .live then references n p.entryList else 0

def Untied (k : Kernel) (p : Process) : Prop := ∀ n ∈ k.nodeList, references n p.entryList = 0

/-- The condition on one call of process `p`. A call that ends the process without
`decrementFiles` needs it untied; a fault on a shared page must be the first one of its
entry; `munmap` must take out an entry whose `node` is set. -/
def CountedBy (cfg : Config) (k : Kernel) (p : Process) : Call → Prop
  | .mmap _ a => (∀ n, a.word ≠ .entry n) ∧ (a.fd = .unknown → Untied k p)
  | .pageFault _ va =>
    (framedown va < 0x80000000 → Untied k p) ∧
    match p.entryList.find? fun e => e.holds (framedown va) with
    | none => Untied k p
    | some e => ∀ number, e.sharedFile = some number →
        (∀ n ∈ k.nodeList, e.node.value ≠ .entry n) ∧
        ∀ n x, k.findNode number = some n → k.nodes[n]? = some x →
          x.numProcesses.toNat + 1 < 2 ^ 32
  | .munmap _ addr _ =>
    isSpecial cfg addr = false → ∀ e rest, takeEntry addr p.entryList = some (e, rest) →
      (∃ n, e.node = .set n) ∨ (e.node.value = .null ∧ Untied k p)
  | .fork _ slot =>
    if slot then (∀ e ∈ p.entryList, e.Settled) ∧ ∀ n ∈ k.nodeList, ∀ x, k.nodes[n]? = some x →
      x.numProcesses.toNat + references n p.entryList < 2 ^ 32
    else Untied k p
  | .exit _ => ∀ e ∈ p.entryList, e.Settled
  | .tick _ => Untied k p
  | .spawn | .kill _ | .destroy _ => True

def Counted (cfg : Config) (k : Kernel) (c : Call) : Prop :=
  ∀ pid p, c.pid = some pid → k.procs[pid]? = some p → CountedBy cfg k p c

/-- The law, and that every word that names a `NodeEntry` was stored by the handler, which
does so in shared entries only. -/
structure CountInv (nodes : List NodeEntry) (nodeList : List ℕ) (procs : List Process) : Prop where
  law : ∀ n ∈ nodeList, ∃ x, nodes[n]? = some x ∧
    x.numProcesses.toNat = (procs.map (Process.liveReferences n)).sum
  stored : ∀ p ∈ procs, ∀ e ∈ p.entryList, ∀ n, e.node.value = .entry n →
    e.node = .set n ∧ n < nodes.length ∧ e.isShared = true

namespace CountInv
variable {nodes : List NodeEntry} {nodeList : List ℕ} {procs procs' rest : List Process}
  {p p' : Process}

theorem perm (h : CountInv nodes nodeList procs) (hp : procs.Perm procs') :
    CountInv nodes nodeList procs' := by
  refine ⟨fun n hn => ?_, fun p hp' => h.stored p (hp.mem_iff.mpr hp')⟩
  obtain ⟨x, hx, hlaw⟩ := h.law n hn
  exact ⟨x, hx, hlaw.trans (hp.map _).sum_eq⟩

theorem exchange (h : CountInv nodes nodeList (p :: rest))
    (hsame : ∀ n ∈ nodeList, p'.liveReferences n = p.liveReferences n)
    (hstored : ∀ e ∈ p'.entryList, ∀ n, e.node.value = .entry n →
      e.node = .set n ∧ n < nodes.length ∧ e.isShared = true) :
    CountInv nodes nodeList (p' :: rest) := by
  refine ⟨fun n hn => ?_, fun q hq => ?_⟩
  · obtain ⟨x, hx, hlaw⟩ := h.law n hn
    refine ⟨x, hx, ?_⟩
    rw [List.map_cons, List.sum_cons, hsame n hn, hlaw]
    rfl
  · rcases List.mem_cons.mp hq with rfl | hq
    · exact hstored
    · exact h.stored q (List.mem_cons_of_mem _ hq)

theorem stop (h : CountInv nodes nodeList (p :: rest))
    (hu : ∀ n ∈ nodeList, references n p.entryList = 0) :
    CountInv nodes nodeList (p.stopped :: rest) := by
  refine h.exchange (fun n hn => ?_) (h.stored p List.mem_cons_self)
  simp [Process.liveReferences, Process.stopped, hu n hn]

theorem unlink {nodeList' : List ℕ} (h : CountInv nodes nodeList procs) (hs : nodeList' ⊆ nodeList) :
    CountInv nodes nodeList' procs :=
  ⟨fun n hn => h.law n (hs hn), h.stored⟩

end CountInv

section Calls
variable {cfg : Config} {files : FileSystem} {k k' : Kernel} {pid : ℕ} {p : Process}
  {rest : List Process}

end Calls

end MMapKernel.Vmm
