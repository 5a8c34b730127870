import MMapKernel.Vmm.Sharing

/-!
# The node pointers that the kernel follows

`munmap`, `fork` and `decrementFiles` follow `vm_entry->node`, and `munmap` follows `node_list`. Only
the fault handler stores a `node`, in shared entries of a file; every other entry has the word that its
heap block held. `Follow` lists what a call follows, in the order of the source.

A stored `node` stays linked along runs whose calls follow nothing else: the counter of a `NodeEntry` is
never below the number of entries of live processes in which it is stored.
-/

open Transition
namespace MMapKernel.Vmm

inductive Follow where
  | nodeList
  | node (e : VMEntry)

namespace Kernel

def Linked (k : Kernel) (w : NodePtr) : Prop := ∃ n ∈ k.nodeList, w = .entry n

def Valid (k : Kernel) : Follow → Prop
  | .nodeList => k.nodeList ≠ []
  | .node e => k.Linked e.node.value

/-- The search of `munmap` compares the file of the head with the file of the entry's node. A null head
ends the process there. -/
def unlinkFollows (k : Kernel) (e : VMEntry) : List Follow :=
  if k.nodeList = [] then [.nodeList] else [.nodeList, .node e]

def munmapFollows (cfg : Config) (k : Kernel) (p : Process) (addr : UInt32) : List Follow :=
  if isSpecial cfg addr then []
  else match takeEntry addr p.entryList with
    | none => []
    | some (e, _) =>
      if e.isShared = false then k.unlinkFollows e
      else .node e :: match e.node.value with
        | .null | .wild => []
        | .entry n =>
          match k.nodes[n]? with
          | none => []
          | some x => if x.numProcesses - 1 == 0 then k.unlinkFollows e else []

end Kernel

def adjustFollows (es : List VMEntry) : List Follow :=
  (es.filter fun e => e.node.value ≠ .null).map .node

def Kernel.forks (cfg : Config) (k : Kernel) (p : Process) (slot : Bool) : Bool :=
  slot && ((PageDir.makePd cfg k.phys).bind fun r => p.pd.copyUser r.1 r.2).isSome

def Kernel.follows (cfg : Config) (k : Kernel) (p : Process) : Call → List Follow
  | .munmap _ addr _ => k.munmapFollows cfg p addr
  | .fork _ slot => if k.forks cfg p slot then adjustFollows p.entryList else []
  | .exit _ => adjustFollows p.entryList
  | .spawn | .mmap _ _ | .pageFault _ _ | .kill _ | .tick _ | .destroy _ => []

def FollowsValid (cfg : Config) (k : Kernel) (c : Call) : Prop :=
  ∀ pid p, c.pid = some pid → k.procs[pid]? = some p → p.status = .live →
    ∀ f ∈ k.follows cfg p c, k.Valid f

def StoredBy (cfg : Config) (k : Kernel) (p : Process) : Call → Prop
  | .pageFault _ va => ∀ e number n x,
      p.entryList.find? (fun e => e.holds (framedown va)) = some e →
      e.sharedFile = some number → k.findNode number = some n → k.nodes[n]? = some x →
      x.numProcesses.toNat + 1 < 2 ^ 32
  | .munmap _ addr _ => isSpecial cfg addr = false →
      ∀ e rest, takeEntry addr p.entryList = some (e, rest) → ∃ n, e.node = .set n
  | .fork _ slot => slot = true → (∀ e ∈ p.entryList, e.Settled) ∧
      ∀ n ∈ k.nodeList, ∀ x, k.nodes[n]? = some x →
        x.numProcesses.toNat + references n p.entryList < 2 ^ 32
  | .exit _ => ∀ e ∈ p.entryList, e.Settled
  | .spawn | .mmap _ _ | .kill _ | .tick _ | .destroy _ => True

def Stored (cfg : Config) (k : Kernel) (c : Call) : Prop :=
  ∀ pid p, c.pid = some pid → k.procs[pid]? = some p → StoredBy cfg k p c

/-- Each word that the call follows and that nobody stored happens to point to a linked `NodeEntry`. -/
def WordsLinkedBy (cfg : Config) (k : Kernel) (p : Process) : Call → Prop
  | .munmap _ addr _ => isSpecial cfg addr = false →
      ∀ e rest w, takeEntry addr p.entryList = some (e, rest) → e.node = .unset w → k.Linked w
  | .fork _ slot => k.forks cfg p slot = true →
      ∀ e ∈ p.entryList, ∀ w, e.node = .unset w → w ≠ .null → k.Linked w
  | .exit _ => ∀ e ∈ p.entryList, ∀ w, e.node = .unset w → w ≠ .null → k.Linked w
  | .spawn | .mmap _ _ | .pageFault _ _ | .kill _ | .tick _ | .destroy _ => True

def WordsLinked (cfg : Config) (k : Kernel) (c : Call) : Prop :=
  ∀ pid p, c.pid = some pid → k.procs[pid]? = some p → p.status = .live → WordsLinkedBy cfg k p c

theorem Stored.wordsLinked {cfg : Config} {k : Kernel} {c : Call} (h : Stored cfg k c) :
    WordsLinked cfg k c := by
  intro pid p hpid hp _
  have hc := h pid p hpid hp
  have hsettled : (∀ e ∈ p.entryList, e.Settled) →
      ∀ e ∈ p.entryList, ∀ w, e.node = .unset w → w ≠ .null → k.Linked w :=
    fun hset e he w hw hnull => absurd (hset e he w hw) hnull
  cases c with
  | munmap _ addr len =>
    intro hspec e rest w htake hw
    obtain ⟨n, hn⟩ := hc hspec e rest htake
    rw [hw] at hn
    cases hn
  | fork _ slot =>
    intro hforks
    exact hsettled (hc (Bool.and_eq_true_iff.mp hforks).1).1
  | exit => exact hsettled hc
  | spawn | mmap | pageFault | kill | tick | destroy => trivial

def Process.liveTies (n : ℕ) (p : Process) : ℕ := if p.status = .live then ties n p.entryList else 0

def Process.Tied (nodes : List NodeEntry) (nodeList : List ℕ) (p : Process) : Prop :=
  p.status = .live → ∀ e ∈ p.entryList, ∀ n, e.node = .set n →
    n ∈ nodeList ∧ e.sharedFile = fileOf nodes n

structure LinkInv (nodes : List NodeEntry) (nodeList : List ℕ) (procs : List Process) : Prop where
  files : (nodeList.map (fileOf nodes)).Nodup
  linked : ∀ n ∈ nodeList, n < nodes.length
  counted : ∀ n ∈ nodeList, (procs.map (Process.liveTies n)).sum ≤ numOf nodes n
  tied : ∀ p ∈ procs, p.Tied nodes nodeList

section Effects
variable {nodes nodes' : List NodeEntry} {nodeList : List ℕ} {procs procs' rest : List Process}
  {p p' : Process} {front back : List VMEntry} {e : VMEntry} {n : ℕ} {x : NodeEntry}

theorem liveTies_live (h : p.status = .live) (n : ℕ) : p.liveTies n = ties n p.entryList := if_pos h

theorem liveTies_stopped (n : ℕ) : p.stopped.liveTies n = 0 := rfl

theorem tied_stopped : p.stopped.Tied nodes nodeList := fun h => nomatch h

namespace LinkInv

theorem perm (h : LinkInv nodes nodeList procs) (hp : procs.Perm procs') :
    LinkInv nodes nodeList procs' where
  files := h.files
  linked := h.linked
  counted n hn := by
    rw [← (hp.map (Process.liveTies n)).sum_eq]
    exact h.counted n hn
  tied p hp' := h.tied p (hp.mem_iff.mpr hp')

theorem file_injective (h : LinkInv nodes nodeList procs) {a b : ℕ} (ha : a ∈ nodeList)
    (hb : b ∈ nodeList) (hf : fileOf nodes a = fileOf nodes b) : a = b :=
  List.inj_on_of_nodup_map h.files ha hb hf

theorem exchange (h : LinkInv nodes nodeList (p :: rest)) (ht : p'.Tied nodes nodeList)
    (hties : ∀ n ∈ nodeList, p'.liveTies n ≤ p.liveTies n) :
    LinkInv nodes nodeList (p' :: rest) where
  files := h.files
  linked := h.linked
  counted n hn := by
    have hc := h.counted n hn
    have hle := hties n hn
    simp only [List.map_cons, List.sum_cons] at hc ⊢
    omega
  tied q hq := by
    rcases List.mem_cons.mp hq with rfl | hq
    · exact ht
    · exact h.tied q (List.mem_cons_of_mem _ hq)

theorem stop (h : LinkInv nodes nodeList (p :: rest)) : LinkInv nodes nodeList (p.stopped :: rest) :=
  h.exchange tied_stopped fun n _ => by simp [liveTies_stopped]

theorem recount (h : LinkInv nodes nodeList procs) (hs : SameFrames nodes nodes')
    (hc : ∀ n ∈ nodeList, (procs.map (Process.liveTies n)).sum ≤ numOf nodes' n) :
    LinkInv nodes' nodeList procs where
  files := by
    rw [funext hs.fileOf]
    exact h.files
  linked n hn := (hs.length n).mpr (h.linked n hn)
  counted := hc
  tied p hp hlive e he n hn := by
    rw [hs.fileOf]
    exact h.tied p hp hlive e he n hn

theorem add (h : LinkInv nodes nodeList procs) (ht : p.Tied nodes nodeList)
    (hc : ∀ n ∈ nodeList, p.liveTies n + (procs.map (Process.liveTies n)).sum ≤ numOf nodes n) :
    LinkInv nodes nodeList (p :: procs) where
  files := h.files
  linked := h.linked
  counted := hc
  tied q hq := by
    rcases List.mem_cons.mp hq with rfl | hq
    · exact ht
    · exact h.tied q hq

theorem link {number : ℕ} (pa : ℕ) (h : LinkInv nodes nodeList procs)
    (hnew : ∀ n ∈ nodeList, fileOf nodes n ≠ some number) :
    LinkInv (nodes ++ [⟨number, 1, pa⟩]) (nodeList ++ [nodes.length]) procs ∧
    (procs.map (Process.liveTies nodes.length)).sum = 0 := by
  have hnone : (procs.map (Process.liveTies nodes.length)).sum = 0 := by
    refine List.sum_eq_zero fun s hs => ?_
    obtain ⟨q, hq, rfl⟩ := List.mem_map.mp hs
    unfold Process.liveTies
    split
    case isTrue hlive =>
      refine ties_eq_zero.mpr fun e he hn => ?_
      exact lt_irrefl _ (h.linked _ (h.tied q hq hlive e he _ hn).1)
    case isFalse => rfl
  refine ⟨⟨files_link h.linked h.files hnew, linked_link h.linked,
    covered_link h.counted _ h.linked hnone, fun q hq hlive e he n hn => ?_⟩, hnone⟩
  obtain ⟨hmem, hf⟩ := h.tied q hq hlive e he n hn
  exact ⟨List.mem_append_left _ hmem, hf.trans (fileOf_append _ (h.linked n hmem)).symm⟩

theorem store (h : LinkInv nodes nodeList (p :: rest)) (hlive : p.status = .live)
    (hes : p.entryList = front ++ e :: back) (hn : n ∈ nodeList) (hf : e.sharedFile = fileOf nodes n)
    (hslack : ((p :: rest).map (Process.liveTies n)).sum + 1 ≤ numOf nodes n) (pd : PageDir) :
    LinkInv nodes nodeList
      ({ p with pd := pd, entryList := front ++ { e with node := .set n } :: back } :: rest) where
  files := h.files
  linked := h.linked
  counted := covered_store h.counted (fun i => by
    simp only [Process.liveTies, hlive, if_true, hes]
    exact ties_store n i front back e) hslack
  tied q hq := by
    rcases List.mem_cons.mp hq with rfl | hq
    · intro _ a ha i hi
      rcases mem_middle (e := e) ha with rfl | ha
      · cases hi
        exact ⟨hn, hf⟩
      · exact h.tied p List.mem_cons_self hlive a (hes ▸ ha) i hi
    · exact h.tied q (List.mem_cons_of_mem _ hq)

theorem drop (h : LinkInv nodes nodeList (p :: rest)) (hes : p.entryList = front ++ e :: back)
    (pd : PageDir) :
    LinkInv nodes nodeList ({ p with pd := pd, entryList := front ++ back } :: rest) := by
  have hsub : (front ++ back).Sublist p.entryList := by
    rw [hes]
    exact List.Sublist.append_left (List.sublist_cons_self _ _) _
  refine h.exchange (fun hlive a ha => ?_) fun i _ => ?_
  · exact h.tied p List.mem_cons_self hlive a (hsub.subset ha)
  · unfold Process.liveTies
    split
    · exact hsub.countP_le
    · exact le_rfl

theorem dropCounted (h : LinkInv nodes nodeList (p :: rest)) (hlive : p.status = .live)
    (hes : p.entryList = front ++ e :: back) (hn : e.node = .set n) (hx : nodes[n]? = some x)
    (pd : PageDir) :
    LinkInv (nodes.modify n (count (· - 1))) nodeList
      ({ p with pd := pd, entryList := front ++ back } :: rest) ∧
    ((({ p with pd := pd, entryList := front ++ back } : Process) :: rest).map
      (Process.liveTies n)).sum + 1 ≤ x.numProcesses.toNat := by
  have hdrop := h.drop hes pd
  have hlinked := (h.tied p List.mem_cons_self hlive e
    (hes ▸ List.mem_append_right _ List.mem_cons_self) n hn).1
  have hcount : ((({ p with pd := pd, entryList := front ++ back } : Process) :: rest).map
      (Process.liveTies n)).sum + 1 ≤ x.numProcesses.toNat := by
    have hc := h.counted n hlinked
    rw [numOf_eq hx] at hc
    simp only [List.map_cons, List.sum_cons, Process.liveTies, hlive, if_true, hes, ties_append, ties_cons,
      hn] at hc ⊢
    omega
  exact ⟨hdrop.recount (sameFrames_modify _ _ _) (covered_release hdrop.counted hx hcount), hcount⟩

theorem unlink {number : ℕ} (h : LinkInv nodes nodeList procs) (hn : n ∈ nodeList)
    (hf : fileOf nodes n = some number) (hzero : (procs.map (Process.liveTies n)).sum = 0) :
    LinkInv nodes (nodeList.eraseP fun i => fileOf nodes i = some number) procs := by
  have hperm := unlink_perm h.files hn hf
  have hsub := List.eraseP_sublist (p := fun i => decide (fileOf nodes i = some number)) (l := nodeList)
  refine ⟨h.files.sublist (hsub.map _), fun i hi => h.linked i (hsub.subset hi),
    fun i hi => h.counted i (hsub.subset hi), fun q hq hlive a ha i hi => ?_⟩
  obtain ⟨hmem, hfile⟩ := h.tied q hq hlive a ha i hi
  refine ⟨?_, hfile⟩
  rcases List.mem_cons.mp (hperm.mem_iff.mp hmem) with rfl | hmem
  · have hle := List.single_le_sum (by simp) _ (List.mem_map.mpr ⟨q, hq, rfl⟩ :
      Process.liveTies i q ∈ procs.map (Process.liveTies i))
    rw [hzero, liveTies_live hlive] at hle
    exact absurd hi (ties_eq_zero.mp (Nat.le_zero.mp hle) a ha)
  · exact hmem

end LinkInv
end Effects
end MMapKernel.Vmm
