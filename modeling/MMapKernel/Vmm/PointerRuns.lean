import MMapKernel.Vmm.NodePointers
import MMapKernel.Vmm.SharingRuns

/-!
# Node pointers along runs

Each call that follows stored pointers only keeps the invariant. In every state of such a run, what a
call follows is valid exactly if the words it follows that nobody stored point to linked entries by
chance.
-/

open Transition
namespace MMapKernel.Vmm

section Calls
variable {cfg : Config} {files : FileSystem} {k k' : Kernel} {pid : ℕ} {p : Process}

def Kernel.Links (k : Kernel) : Prop := LinkInv k.nodes k.nodeList k.procs

theorem links_put (hs : k.Links) (hpid : k.procs[pid]? = some p) (p' : Process)
    (h : ∀ rest, LinkInv k.nodes k.nodeList (p :: rest) →
      LinkInv k'.nodes k'.nodeList (p' :: rest))
    (hk : k'.procs = (k.put pid p').procs) : k'.Links :=
  procs_put LinkInv.perm LinkInv.perm hs hpid p' h hk

theorem spawn_links (hs : k.Links) (h : k.spawn cfg = some k') : k'.Links := by
  obtain ⟨d, m, -, rfl⟩ := spawn_cases h
  suffices hadd : LinkInv k.nodes k.nodeList (⟨d, [], .live, false⟩ :: k.procs) from
    hadd.perm (List.perm_append_singleton _ _).symm
  refine hs.add (fun _ e he => nomatch he) fun n hn => ?_
  have hzero : Process.liveTies n ⟨d, [], .live, false⟩ = 0 := rfl
  rw [hzero, Nat.zero_add]
  exact hs.counted n hn

theorem mmap_links {a : MmapArgs} (hs : k.Links) (hpid : k.procs[pid]? = some p) :
    (k.mmap cfg pid p a).Links := by
  rcases mmap_cases cfg k pid p a with h | ⟨-, h⟩ | ⟨va, es, hm, h⟩ <;> rw [h]
  · exact hs
  · exact links_put hs hpid _ (fun rest hr => hr.stop) rfl
  · refine links_put hs hpid _ (fun rest hr => ?_) rfl
    obtain ⟨-, -, -, file, rfl⟩ := mmap_mapped hm
    have hsplit := place_split p.entryList a.size a.hint
    generalize (place p.entryList a.size a.hint).2.1 = front at hsplit ⊢
    generalize (place p.entryList a.size a.hint).2.2 = back at hsplit ⊢
    have hnew : ∀ n, (a.newEntry file va).node ≠ .set n := fun n h => nomatch h
    refine hr.exchange (fun hlive e he n hn => ?_) fun n _ => ?_
    · rcases List.mem_append.mp he with he | he
      · exact hr.tied p List.mem_cons_self hlive e (hsplit ▸ List.mem_append_left _ he) n hn
      · rcases List.mem_cons.mp he with rfl | he
        · exact absurd hn (hnew n)
        · exact hr.tied p List.mem_cons_self hlive e (hsplit ▸ List.mem_append_right _ he) n hn
    · simp only [Process.liveTies, ties_append, ties_cons, if_neg (hnew n), Nat.add_zero, ← hsplit]
      exact le_rfl

theorem pageFault_links {va : UInt32} (hs : k.Links) (hpid : k.procs[pid]? = some p)
    (hlive : p.status = .live) (hg : StoredBy cfg k p (.pageFault pid va))
    (h : k.pageFault files pid p va = some k') : k'.Links := by
  rcases pageFault_cases h with ⟨-, rfl⟩ |
    ⟨front, e, back, pa, e', k₁, pd, m, hes, hfind, -, hres, -, rfl⟩
  · exact links_put hs hpid _ (fun rest hr => hr.stop) rfl
  · refine links_put hs hpid { p with pd := pd, entryList := front ++ e' :: back }
      (fun rest hr => ?_) (by simp only [Kernel.put, resolve_procs hres])
    rcases resolve_cases hres with ⟨hf, rfl, m₁, ha, rfl⟩ | ⟨number, n, x, hnum, hf, hx, rfl, rfl, rfl⟩ |
      ⟨number, m₁, hnum, hf, ha, rfl, rfl⟩
    · -- anonymous or private
      rw [← hes]
      exact hr.exchange (hr.tied p List.mem_cons_self) fun _ _ => le_rfl
    · -- the file has a `NodeEntry`
      obtain ⟨hn, hfile⟩ := findNode_spec hf
      have hfit := hg e number n x hfind hnum hf hx
      have hsame := sameFrames_modify k.nodes n (· + 1)
      have hr₁ := hr.recount hsame (covered_bump hr.counted hx hfit)
      obtain ⟨-, hfileOf, hnumOf⟩ := bumped hx hfit
      refine hr₁.store hlive hes hn ?_ ?_ pd
      · rw [hfileOf, hnum]
        exact hfile.symm
      · rw [hnumOf]
        exact Nat.add_le_add_right (hr.counted n hn) 1
    · -- its first mapping
      obtain ⟨hr₁, hzero⟩ := hr.link pa (findNode_none hf)
      obtain ⟨-, hfileOf, hnumOf⟩ := appended k.nodes number pa
      refine hr₁.store hlive hes (by simp) ?_ ?_ pd
      · rw [hnum, hfileOf]
      · rw [hzero, hnumOf]

theorem munmap_links {addr len : UInt32} (hs : k.Links) (hpid : k.procs[pid]? = some p)
    (hlive : p.status = .live) (hg : StoredBy cfg k p (.munmap pid addr len))
    (h : k.munmap cfg pid p addr = some k') : k'.Links := by
  rcases munmap_cases h with rfl | ⟨front, e, back, hspec, htake, hes, hcase⟩
  · exact hs
  obtain ⟨n, hn⟩ := hg hspec e _ htake
  have hmem : e ∈ p.entryList := hes ▸ List.mem_append_right _ List.mem_cons_self
  obtain ⟨hlinked, hfile⟩ := hs.tied p (List.mem_of_getElem? hpid) hlive e hmem n hn
  rcases hcase with ⟨hpriv, -⟩ | ⟨-, hnull, -⟩ | ⟨-, i, x, hval, hx, hrel⟩
  · -- nothing is stored in a private entry
    rw [fileOf, List.getElem?_eq_getElem (hs.linked n hlinked), Option.map_some] at hfile
    rw [sharedFile_isShared hfile] at hpriv
    cases hpriv
  · rw [hn] at hnull
    cases hnull
  · have hin : i = n := by
      rw [hn] at hval
      exact (NodePtr.entry.inj hval).symm
    subst hin
    generalize hlast : (x.numProcesses - 1 == 0) = physical at hrel
    rcases release_cases hrel with ⟨rfl, rfl⟩ | ⟨rfl, -, rfl⟩ | ⟨rfl, -, j, number, hj, hf, rfl⟩
    · exact links_put hs hpid _ (fun rest hr => (hr.dropCounted hlive hes hn hx _).1) rfl
    · exact links_put hs hpid _ (fun rest hr => (hr.dropCounted hlive hes hn hx _).1.stop) rfl
    · have hji : j = i := NodePtr.entry.inj (hj.symm.trans hval)
      subst hji
      refine links_put hs hpid _ (fun rest hr => ?_) rfl
      obtain ⟨hdrop, hcount⟩ := hr.dropCounted hlive hes hn hx (p.pd.unmapAll k.phys e.pages true).1
      have hzero : (x.numProcesses - 1).toNat = 0 := by
        rw [beq_iff_eq.mp hlast]
        rfl
      rw [sub_one_toNat (by omega)] at hzero
      exact hdrop.unlink hlinked hf (by omega)

theorem ties_eq_references {es : List VMEntry} (h : ∀ e ∈ es, e.Settled) (n : ℕ) :
    ties n es = references n es := by
  refine List.countP_congr fun e he => ?_
  simp only [decide_eq_true_eq]
  exact ⟨fun hn => by rw [hn]; rfl, settled_entry (h e he)⟩

theorem fork_links {slot : Bool} (hs : k.Links) (hpid : k.procs[pid]? = some p)
    (hlive : p.status = .live) (hg : StoredBy cfg k p (.fork pid slot))
    (h : k.fork cfg pid p slot = some k') : k'.Links := by
  rcases fork_cases h with ⟨-, rfl⟩ | ⟨hslot, d, m, child, m', nodes, hd, hcopy, hadj, rfl⟩
  · exact links_put hs hpid _ (fun rest hr => hr.stop) rfl
  · obtain ⟨hset, hfit⟩ := hg hslot
    have hsame := sameFrames_adjustAll hadj
    have hnum := numOf_forked hadj hs.linked hfit
    have hs₁ := hs.recount hsame (covered_fork hs.counted hadj hs.linked hfit)
    suffices hadd : LinkInv nodes k.nodeList (⟨child, p.entryList, .live, false⟩ :: k.procs) from
      hadd.perm (List.perm_append_singleton _ _).symm
    refine hs₁.add (fun _ => hs₁.tied p (List.mem_of_getElem? hpid) hlive) fun n hn => ?_
    have hchild : Process.liveTies n ⟨child, p.entryList, .live, false⟩ = references n p.entryList :=
      ties_eq_references hset n
    rw [hchild, hnum n hn, Nat.add_comm]
    exact Nat.add_le_add_right (hs.counted n hn) _

theorem exit_links (hs : k.Links) (hpid : k.procs[pid]? = some p) (hlive : p.status = .live)
    (hg : StoredBy cfg k p (.exit pid)) (h : k.exit pid p = some k') : k'.Links := by
  obtain ⟨nodes, hadj, rfl⟩ := exit_cases h
  refine links_put hs hpid _ (fun rest hr => ?_) rfl
  refine hr.stop.recount (sameFrames_adjustAll hadj) (covered_exit hadj hs.linked fun n hn => ?_)
  have hc := hr.counted n hn
  simp only [List.map_cons, List.sum_cons, liveTies_live hlive, liveTies_stopped,
    ties_eq_references hg] at hc ⊢
  omega

theorem step_links {c : Call} (hs : k.Links) (hg : Stored cfg k c) (h : k.step cfg files c = some k') :
    k'.Links := by
  have hstep := step_cases h
  cases c with
  | spawn => exact spawn_links hs hstep
  | mmap pid a =>
    obtain ⟨p, hpid, -, rfl⟩ := hstep
    exact mmap_links hs hpid
  | pageFault pid va =>
    obtain ⟨p, hpid, hlive, -, hk⟩ := hstep
    exact pageFault_links hs hpid hlive (hg pid p rfl hpid) hk
  | munmap pid addr len =>
    obtain ⟨p, hpid, hlive, hk⟩ := hstep
    exact munmap_links hs hpid hlive (hg pid p rfl hpid) hk
  | fork pid slot =>
    obtain ⟨p, hpid, hlive, hk⟩ := hstep
    exact fork_links hs hpid hlive (hg pid p rfl hpid) hk
  | exit pid =>
    obtain ⟨p, hpid, hlive, hk⟩ := hstep
    exact exit_links hs hpid hlive (hg pid p rfl hpid) hk
  | kill pid =>
    obtain ⟨p, hpid, rfl⟩ := hstep
    exact links_put hs hpid { p with killFlag := true } (fun rest hr =>
      hr.exchange (hr.tied p List.mem_cons_self) fun _ _ => le_rfl) rfl
  | tick pid =>
    obtain ⟨p, hpid, -, -, rfl⟩ := hstep
    exact links_put hs hpid _ (fun rest hr => hr.stop) rfl
  | destroy pid =>
    obtain ⟨p, hpid, -, rfl⟩ := hstep
    exact links_put hs hpid { p with status := .destroyed } (fun rest hr =>
      hr.exchange (fun h => nomatch h) fun _ _ => Nat.zero_le _) rfl

end Calls

theorem kernels_link (cfg : Config) (files : FileSystem) :
    ((kernels cfg files).restrict (Stored cfg)).Inductive Kernel.Links where
  init := by
    intro k hk
    unfold Kernel.Links
    rw [hk.procs, hk.nodeList]
    exact ⟨by simp, by simp, by simp, by simp⟩
  step := fun k c k' hk hstep => step_links hk hstep.1 hstep.2

section Follows
variable {cfg : Config} {k : Kernel} {p : Process} {e : VMEntry}

theorem linked_nonempty {w : NodePtr} (h : k.Linked w) : k.nodeList ≠ [] := by
  obtain ⟨n, hn, -⟩ := h
  exact List.ne_nil_of_mem hn

theorem linked_value_iff (hs : k.Links) (hp : p ∈ k.procs) (hlive : p.status = .live)
    (he : e ∈ p.entryList) :
    k.Linked e.node.value ↔ ∀ w, e.node = .unset w → k.Linked w := by
  cases hn : e.node with
  | set n =>
    refine iff_of_true ⟨n, (hs.tied p hp hlive e he n hn).1, rfl⟩ fun w hw => ?_
    cases hw
  | unset w =>
    constructor
    · rintro h _ ⟨⟩
      exact h
    · intro h
      exact h w rfl

theorem unlinkFollows_valid_iff : (∀ f ∈ k.unlinkFollows e, k.Valid f) ↔ k.Linked e.node.value := by
  unfold Kernel.unlinkFollows
  by_cases hnil : k.nodeList = []
  · rw [if_pos hnil]
    refine iff_of_false (fun h => ?_) fun h => linked_nonempty h hnil
    exact h .nodeList List.mem_cons_self hnil
  · rw [if_neg hnil]
    simp [Kernel.Valid, hnil]

theorem munmapFollows_valid_iff {addr : UInt32} {rest : List VMEntry}
    (hspec : isSpecial cfg addr = false) (htake : takeEntry addr p.entryList = some (e, rest)) :
    (∀ f ∈ k.munmapFollows cfg p addr, k.Valid f) ↔ k.Linked e.node.value := by
  simp only [Kernel.munmapFollows, hspec, Bool.false_eq_true, if_false, htake]
  split
  case isTrue => exact unlinkFollows_valid_iff
  case isFalse =>
    constructor
    · intro h
      exact h (.node e) List.mem_cons_self
    · intro h f hf
      rcases List.mem_cons.mp hf with rfl | hf
      · exact h
      · -- the rest is what the search follows, or nothing
        split at hf
        · cases hf
        · cases hf
        · split at hf
          · cases hf
          · split at hf
            · exact unlinkFollows_valid_iff.mpr h f hf
            · cases hf

theorem adjustFollows_valid_iff (hs : k.Links) (hp : p ∈ k.procs) (hlive : p.status = .live) :
    (∀ f ∈ adjustFollows p.entryList, k.Valid f) ↔
      ∀ e ∈ p.entryList, ∀ w, e.node = .unset w → w ≠ .null → k.Linked w := by
  have hvalid : (∀ f ∈ adjustFollows p.entryList, k.Valid f) ↔
      ∀ e ∈ p.entryList, e.node.value ≠ .null → k.Linked e.node.value := by
    rw [adjustFollows, List.forall_mem_map]
    simp [Kernel.Valid]
  rw [hvalid]
  refine forall₂_congr fun e he => ?_
  rw [linked_value_iff hs hp hlive he]
  constructor
  · intro h w hw hnull
    exact h (by rwa [hw]) w hw
  · intro h hnull w hw
    rw [hw] at hnull
    exact h w hw hnull

theorem followsValid_iff (hs : k.Links) (c : Call) : FollowsValid cfg k c ↔ WordsLinked cfg k c := by
  refine forall₂_congr fun pid p => forall₃_congr fun _ hpid hlive => ?_
  have hp := List.mem_of_getElem? hpid
  have hempty : (∀ f ∈ ([] : List Follow), k.Valid f) ↔ True := by simp
  cases c with
  | munmap _ addr len =>
    simp only [Kernel.follows, WordsLinkedBy]
    by_cases hspec : isSpecial cfg addr = false
    case neg =>
      have hspec : isSpecial cfg addr = true := by simpa using hspec
      simp [Kernel.munmapFollows, hspec]
    case pos =>
      cases htake : takeEntry addr p.entryList with
      | none => simp [Kernel.munmapFollows, hspec, htake]
      | some r =>
        obtain ⟨e, rest⟩ := r
        obtain ⟨front, back, hes, -⟩ := takeEntry_spec htake
        have he : e ∈ p.entryList := hes ▸ List.mem_append_right _ List.mem_cons_self
        rw [munmapFollows_valid_iff hspec htake, linked_value_iff hs hp hlive he]
        constructor
        · rintro h - _ _ w ⟨⟩ hw
          exact h w hw
        · intro h w hw
          exact h hspec e rest w rfl hw
  | fork _ slot =>
    simp only [Kernel.follows, WordsLinkedBy]
    split
    case isTrue hforks =>
      rw [adjustFollows_valid_iff hs hp hlive]
      simp [hforks]
    case isFalse hforks => simp [hforks]
  | exit => exact adjustFollows_valid_iff hs hp hlive
  | spawn | mmap | pageFault | kill | tick | destroy => exact hempty

end Follows

/-- In every run whose calls follow stored pointers only, all that they follow is valid; and what any
call would follow next is valid exactly if the words in it that nobody stored point to linked entries. -/
theorem stored_runs_follow_valid_pointers (cfg : Config) (files : FileSystem) {k : Kernel}
    (hk : Reachable ((kernels cfg files).restrict (Stored cfg)) k) (c : Call) :
    (Stored cfg k c → FollowsValid cfg k c) ∧ (FollowsValid cfg k c ↔ WordsLinked cfg k c) := by
  have hiff : FollowsValid cfg k c ↔ WordsLinked cfg k c :=
    followsValid_iff (hk.invariant (kernels_link cfg files)) c
  exact ⟨fun hc => hiff.mpr hc.wordsLinked, hiff⟩

theorem stored_runs_follow_valid_pointers_first_touch :
    ∃ k, Reachable ((kernels qemu fun _ => []).restrict (Stored qemu)) k ∧ k.nodeList = [0] ∧
      (Stored qemu k (.exit 0) → FollowsValid qemu k (.exit 0)) ∧
      (FollowsValid qemu k (.exit 0) ↔ WordsLinked qemu k (.exit 0)) := by
  obtain ⟨k₁, k₂, k, h₁, -, h₂, hnil, h₃, hlinked⟩ := first_touch
  suffices hk : Reachable ((kernels qemu fun _ => []).restrict (Stored qemu)) k from
    ⟨k, hk, hlinked, stored_runs_follow_valid_pointers qemu (fun _ => []) hk (.exit 0)⟩
  refine .next (.next (.next (.start bootKernel_booted) ⟨?_, h₁⟩) ⟨?_, h₂⟩) ⟨?_, h₃⟩
  · rintro _ _ ⟨⟩
  · rintro _ p ⟨⟩ -
    trivial
  · rintro _ p ⟨⟩ -
    intro e number n x _ _ hf
    simp [Kernel.findNode, hnil] at hf

def untouchedPage : MmapArgs :=
  { addr := 0, length := 4096, prot := 2, flags := 0, fd := .negative, offset := 0, word := .null }

/-- Unmapping it follows the null `node_list`. -/
theorem anonymous_munmap_follows_null :
    ∃ k, Reachable (kernels qemu fun _ => []) k ∧
      ¬ FollowsValid qemu k (.munmap 0 0x80000000 4096) := by
  have hrun : (bootKernel.run qemu (fun _ => []) [.spawn, .mmap 0 untouchedPage]).map
      (fun k => (k.nodeList, k.procs.map fun p => (decide (p.status = .live), p.entryList))) =
        some ([], [(true, [untouchedPage.newEntry none 0x80000000])]) := by
    decide +kernel
  obtain ⟨k, hk, hview⟩ := Option.map_eq_some_iff.mp hrun
  obtain ⟨hnil, hprocs⟩ := Prod.mk.inj hview
  obtain ⟨p, hp, hpv⟩ := List.map_eq_singleton_iff.mp hprocs
  obtain ⟨hlive, hes⟩ := Prod.mk.inj hpv
  have htake : takeEntry 0x80000000 p.entryList = some (untouchedPage.newEntry none 0x80000000, []) := by
    rw [hes]
    decide
  have hprivate : (untouchedPage.newEntry none 0x80000000).isShared = false := by decide
  have hfollows : k.munmapFollows qemu p 0x80000000 = [.nodeList] := by
    have hspec : isSpecial qemu 0x80000000 = false := by decide
    simp [Kernel.munmapFollows, hspec, htake, hprivate, Kernel.unlinkFollows, hnil]
  refine ⟨k, run_reachable hk, fun h => ?_⟩
  refine h 0 p rfl (by simp [hp]) (of_decide_eq_true hlive) .nodeList ?_ hnil
  rw [Kernel.follows, hfollows]
  exact List.mem_singleton_self _

end MMapKernel.Vmm
