import MMapKernel.Vmm.Sharing

/-!
# Coherence along runs

Each mapping call within the condition `Shares` keeps the invariant of shared mappings. A
`fork` of a process that has touched a shared page gives the child a copy of it.
-/

open Transition
namespace MMapKernel.Vmm

section Calls
variable {cfg : Config} {files : FileSystem} {k k' : Kernel} {pid : ℕ} {p : Process}

def Kernel.Sharing (cfg : Config) (k : Kernel) : Prop :=
  ShareInv cfg k.nodes k.nodeList k.procs

theorem sharing_put (hs : k.Sharing cfg) (hpid : k.procs[pid]? = some p) (p' : Process)
    (h : ∀ rest, ShareInv cfg k.nodes k.nodeList (p :: rest) →
      ShareInv cfg k'.nodes k'.nodeList (p' :: rest))
    (hk : k'.procs = (k.put pid p').procs) : k'.Sharing cfg :=
  procs_put ShareInv.perm ShareInv.perm hs hpid p' h hk

theorem spawn_shares (hs : k.Sharing cfg) (h : k.spawn cfg = some k') : k'.Sharing cfg := by
  obtain ⟨d, m, hd, rfl⟩ := spawn_cases h
  obtain ⟨hsup, hdev, -⟩ := PageDir.makePd_spec hd
  have hnone : ∀ x ∈ d.pages, x.2.user ≠ true := fun x hx => by
    simp [hsup _ _ (PageDir.mem_pages.mp hx)]
  suffices hadd : ShareInv cfg k.nodes k.nodeList (⟨d, [], .live, false⟩ :: k.procs) from
    hadd.perm (List.perm_append_singleton _ _).symm
  refine hs.add ⟨fun x hx _ => ?_, by simp, by simp, fun _ => Paged.nil, fun _ x hx hu => ?_⟩
    fun n hn => ?_
  · exact (hdev x.1).mp (Option.isSome_iff_exists.mpr ⟨_, PageDir.mem_pages.mp hx⟩)
  · exact absurd hu (hnone x hx)
  · simpa [ties] using hs.counted n hn

theorem mmap_shares {a : MmapArgs} (hs : k.Sharing cfg) (hpid : k.procs[pid]? = some p)
    (hlive : p.status = .live) (hg : SharesBy cfg k p (.mmap pid a)) :
    (k.mmap cfg pid p a).Sharing cfg := by
  rcases mmap_cases cfg k pid p a with h | ⟨-, h⟩ | ⟨va, es, hm, h⟩ <;> rw [h]
  · exact hs
  · exact sharing_put hs hpid _ (fun rest hr => hr.stop) rfl
  · refine sharing_put hs hpid _ (fun rest hr => ?_) rfl
    have hp := hr.procs p List.mem_cons_self
    obtain ⟨hpaged, front, back, file, hes, rfl⟩ := mmap_paged (hp.paged hlive) hg.2 hg.1 hm
    refine hr.exchange (hp.insert hlive hes rfl hpaged) fun n _ => ?_
    simp [hes, ties_append, ties_cons, MmapArgs.newEntry]

theorem ShareInv.mapShared {nodes : List NodeEntry} {nodeList : List ℕ} {rest : List Process}
    {front back : List VMEntry} {e : VMEntry} {n : ℕ} {d : PageDir} {g : Page}
    (h : ShareInv cfg nodes nodeList (p :: rest)) (hlive : p.status = .live)
    (hes : p.entryList = front ++ e :: back) (he : e.holds (addressOf g) = true)
    (hlook : ∀ a, d.lookup a = if a = g then some ⟨paOf nodes n, true⟩ else p.pd.lookup a)
    (hn : n ∈ nodeList) (hfile : e.sharedFile = fileOf nodes n) (hsome : e.sharedFile ≠ none)
    (hslack : ((p :: rest).map fun q => ties n q.entryList).sum + 1 ≤ numOf nodes n) :
    ShareInv cfg nodes nodeList
      ({ p with pd := d, entryList := front ++ { e with node := .set n } :: back } :: rest) := by
  have hp := h.procs p List.mem_cons_self
  have hmem : e ∈ p.entryList := hes ▸ List.mem_append_right _ List.mem_cons_self
  have hold : ∀ i, e.node = .set i → i = n := fun i hi => by
    obtain ⟨hlinked, hf⟩ := hp.tied e hmem i hi
    exact h.file_injective hlinked hn (hf.symm.trans hfile)
  refine ⟨h.files, h.linked, covered_store h.counted (fun i => ?_) hslack, fun q hq => ?_⟩
  · rw [hes]
    exact ties_store n i front back e
  · rcases List.mem_cons.mp hq with rfl | hq
    · exact hp.mapShared hlive hes he hlook hn hfile hold rfl hsome
    · exact h.procs q (List.mem_cons_of_mem _ hq)

theorem pageFault_shares {va : UInt32} (hs : k.Sharing cfg) (hpid : k.procs[pid]? = some p)
    (hlive : p.status = .live) (hg : SharesBy cfg k p (.pageFault pid va))
    (h : k.pageFault files pid p va = some k') : k'.Sharing cfg := by
  rcases pageFault_cases h with ⟨-, rfl⟩ |
    ⟨front, e, back, pa, e', k₁, pd, m, hes, hfind, he, hres, hmap, rfl⟩
  · exact sharing_put hs hpid _ (fun rest hr => hr.stop) rfl
  · have hin : e.holds (addressOf (pageOf (framedown va))) = true := by
      rwa [pageOf_framedown, addressOf_pageOf_eq]
    have hlook := (PageDir.install_spec hmap).1
    refine sharing_put hs hpid { p with pd := pd, entryList := front ++ e' :: back }
      (fun rest hr => ?_) (by simp only [Kernel.put, resolve_procs hres])
    rcases resolve_cases hres with ⟨hf, rfl, m₁, ha, rfl⟩ | ⟨number, n, x, hnum, hf, hx, rfl, rfl, rfl⟩ |
      ⟨number, m₁, hnum, hf, ha, rfl, rfl⟩
    · -- anonymous or private
      have hp := (hr.procs p List.mem_cons_self).mapPrivate hlive hes hin hlook hf
      rw [← hes]
      exact hr.exchange hp fun _ _ => le_rfl
    · -- the file has a `NodeEntry`
      obtain ⟨hn, hfile⟩ := findNode_spec hf
      have hfit := hg e number n x hfind hnum hf hx
      have hsame := sameFrames_modify k.nodes n (· + 1)
      have hr₁ := hr.recount hsame (covered_bump hr.counted hx hfit)
      obtain ⟨hpa, hfileOf, hnumOf⟩ := bumped hx hfit
      refine hr₁.mapShared hlive hes hin (hpa ▸ hlook) hn ?_ (by simp [hnum]) ?_
      · rw [hfileOf, hnum]
        exact hfile.symm
      · rw [hnumOf]
        exact Nat.add_le_add_right (hr.counted n hn) 1
    · -- its first mapping
      obtain ⟨hr₁, hzero⟩ := hr.link pa (findNode_none hf)
      obtain ⟨hpa, hfileOf, hnumOf⟩ := appended k.nodes number pa
      refine hr₁.mapShared hlive hes hin (hpa.symm ▸ hlook) (by simp) ?_ (by simp [hnum]) ?_
      · rw [hnum, hfileOf]
      · rw [hzero, hnumOf]

section Munmap
variable {nodes : List NodeEntry} {nodeList : List ℕ} {rest : List Process}
  {front back : List VMEntry} {e : VMEntry} {d : PageDir} {n : ℕ} {x : NodeEntry}
  (hr : ShareInv cfg nodes nodeList (p :: rest)) (hlive : p.status = .live)
  (hes : p.entryList = front ++ e :: back)
  (hlook : ∀ a, d.lookup a = if a ∈ e.pages.map pageOf then none else p.pd.lookup a)
include hr hlive hes hlook

theorem ShareInv.drop :
    ShareInv cfg nodes nodeList ({ p with pd := d, entryList := front ++ back } :: rest) := by
  have hp := hr.procs p List.mem_cons_self
  have hal := (hp.paged hlive).aligned e (hes ▸ List.mem_append_right _ List.mem_cons_self)
  refine hr.exchange (hp.drop hal hes hlook) fun i _ => ?_
  simp only [hes, ties_append, ties_cons]
  omega

theorem ShareInv.dropCounted (hn : e.node = .set n) (hx : nodes[n]? = some x) :
    ShareInv cfg (nodes.modify n (count (· - 1))) nodeList
      ({ p with pd := d, entryList := front ++ back } :: rest) ∧
    ((({ p with pd := d, entryList := front ++ back } : Process) :: rest).map
      fun q => ties n q.entryList).sum + 1 ≤ x.numProcesses.toNat := by
  have hdrop := hr.drop hlive hes hlook
  have hlinked := ((hr.procs p List.mem_cons_self).tied e
    (hes ▸ List.mem_append_right _ List.mem_cons_self) n hn).1
  have hcount : ((({ p with pd := d, entryList := front ++ back } : Process) :: rest).map
      fun q => ties n q.entryList).sum + 1 ≤ x.numProcesses.toNat := by
    have hc := hr.counted n hlinked
    rw [numOf_eq hx] at hc
    simp only [List.map_cons, List.sum_cons, hes, ties_append, ties_cons, hn, if_true] at hc ⊢
    omega
  exact ⟨hdrop.recount (sameFrames_modify _ _ _) (covered_release hdrop.counted hx hcount), hcount⟩

theorem ShareInv.dropLast {number : ℕ} (hn : e.node = .set n) (hx : nodes[n]? = some x)
    (hlast : (x.numProcesses - 1 == 0) = true)
    (hf : fileOf (nodes.modify n (count (· - 1))) n = some number) :
    ShareInv cfg (nodes.modify n (count (· - 1)))
      (nodeList.eraseP fun i => fileOf (nodes.modify n (count (· - 1))) i = some number)
      ({ p with pd := d, entryList := front ++ back } :: rest) := by
  obtain ⟨hdrop, hcount⟩ := hr.dropCounted hlive hes hlook hn hx
  have hlinked := ((hr.procs p List.mem_cons_self).tied e
    (hes ▸ List.mem_append_right _ List.mem_cons_self) n hn).1
  have hzero : (x.numProcesses - 1).toNat = 0 := by
    rw [beq_iff_eq.mp hlast]
    rfl
  rw [sub_one_toNat (by omega)] at hzero
  refine hdrop.unlink (unlink_perm hdrop.files hlinked hf) fun q hq => ?_
  have hle : ties n q.entryList ≤ ((({ p with pd := d, entryList := front ++ back } : Process) ::
      rest).map fun q => ties n q.entryList).sum :=
    List.single_le_sum (by simp) _ (List.mem_map.mpr ⟨q, hq, rfl⟩)
  omega

end Munmap

theorem munmap_shares {addr len : UInt32} (hs : k.Sharing cfg) (hpid : k.procs[pid]? = some p)
    (hlive : p.status = .live) (hg : SharesBy cfg k p (.munmap pid addr len))
    (h : k.munmap cfg pid p addr = some k') : k'.Sharing cfg := by
  rcases munmap_cases h with rfl | ⟨front, e, back, hspec, htake, hes, hcase⟩
  · exact hs
  have hset := hg hspec e _ htake
  have hp := hs.procs p (List.mem_of_getElem? hpid)
  have hmem : e ∈ p.entryList := hes ▸ List.mem_append_right _ List.mem_cons_self
  have hlook := fun physical => p.pd.unmapAll_lookup k.phys e.pages physical
  rcases hcase with ⟨hpriv, hrel⟩ | ⟨-, -, rfl⟩ | ⟨-, n, x, hval, hx, hrel⟩
  · rcases release_cases hrel with ⟨hf, -⟩ | ⟨-, -, rfl⟩ | ⟨-, -, n, number, hn, -, -⟩
    · cases hf
    · exact sharing_put hs hpid _ (fun rest hr => (hr.drop hlive hes (hlook true)).stop) rfl
    · -- the `node` of a private entry is never stored
      obtain ⟨hlinked, hf⟩ := hp.tied e hmem n (settled_entry hset hn)
      rw [fileOf, List.getElem?_eq_getElem (hs.linked n hlinked), Option.map_some] at hf
      rw [sharedFile_isShared hf] at hpriv
      cases hpriv
  · refine sharing_put hs hpid _ (fun rest hr => ?_) rfl
    have hsub : (front ++ back).Sublist p.entryList := by
      rw [hes]
      exact List.Sublist.append_left (List.sublist_cons_self _ _) _
    refine hr.exchange ⟨hp.devices, fun a ha => hp.tied a (hsub.subset ha),
      fun a ha => hp.mapped a (hsub.subset ha), fun h => ?_, fun h => ?_⟩ fun i _ => hsub.countP_le
    · cases h
    · cases h
  · have hn := settled_entry hset hval
    generalize hlast : (x.numProcesses - 1 == 0) = physical at hrel
    rcases release_cases hrel with ⟨rfl, rfl⟩ | ⟨rfl, -, rfl⟩ | ⟨rfl, -, i, number, hi, hf, rfl⟩
    · exact sharing_put hs hpid _ (fun rest hr =>
        (hr.dropCounted hlive hes (hlook false) hn hx).1) rfl
    · exact sharing_put hs hpid _ (fun rest hr =>
        (hr.dropCounted hlive hes (hlook true) hn hx).1.stop) rfl
    · obtain rfl : i = n := NodePtr.entry.inj (hi.symm.trans hval)
      exact sharing_put hs hpid _ (fun rest hr =>
        hr.dropLast hlive hes (hlook true) hn hx hlast hf) rfl

theorem fork_shares {slot : Bool} (hs : k.Sharing cfg) (hpid : k.procs[pid]? = some p)
    (hlive : p.status = .live) (hg : SharesBy cfg k p (.fork pid slot))
    (h : k.fork cfg pid p slot = some k') : k'.Sharing cfg := by
  rcases fork_cases h with ⟨-, rfl⟩ | ⟨hslot, d, m, child, m', nodes, hd, hcopy, hadj, rfl⟩
  · exact sharing_put hs hpid _ (fun rest hr => hr.stop) rfl
  · obtain ⟨hset, hfit, habsent⟩ := hg hslot
    have hp := hs.procs p (List.mem_of_getElem? hpid)
    obtain ⟨hdev, hpages⟩ := forked_pages hp.devices hd hcopy
    have hsame := sameFrames_adjustAll hadj
    have hnum := numOf_forked hadj hs.linked hfit
    have hs₁ := hs.recount hsame (covered_fork hs.counted hadj hs.linked hfit)
    suffices hadd : ShareInv cfg nodes k.nodeList (⟨child, p.entryList, .live, false⟩ :: k.procs)
      from hadd.perm (List.perm_append_singleton _ _).symm
    refine hs₁.add ⟨hdev, fun e he n hn => ?_, fun e he hf x hx hu hin => ?_, fun _ => hp.paged hlive,
      fun _ x hx hu => ?_⟩ fun n hn => ?_
    · rw [hsame.fileOf]
      exact hp.tied e he n hn
    · -- such a page would be present in the parent
      obtain ⟨f, hx⟩ := hpages x hx hu
      unfold VMEntry.sharedFile at hf
      split at hf
      · rename_i hshared
        obtain ⟨number, hnumber⟩ := Option.ne_none_iff_exists'.mp hf
        exact absurd ⟨he, hshared, hnumber, hin, hx⟩ (habsent e number x.1 f)
      · exact absurd rfl hf
    · obtain ⟨f, hx⟩ := hpages x hx hu
      exact hp.covered hlive (x.1, ⟨f, true⟩) (PageDir.mem_pages.mpr hx) rfl
    · have hties : ties n p.entryList ≤ references n p.entryList := by
        refine List.countP_mono_left fun e _ hn => ?_
        rw [decide_eq_true_eq] at hn ⊢
        rw [hn]
        rfl
      have hc := hs.counted n hn
      rw [hnum n hn]
      change ties n p.entryList + _ ≤ _
      omega

theorem step_shares {c : Call} (hs : k.Sharing cfg) (hc : c.mapping = true) (hg : Shares cfg k c)
    (h : k.step cfg files c = some k') : k'.Sharing cfg := by
  have hstep := step_cases h
  cases c with
  | spawn => exact spawn_shares hs hstep
  | mmap pid a =>
    obtain ⟨p, hpid, hlive, rfl⟩ := hstep
    exact mmap_shares hs hpid hlive (hg pid p rfl hpid)
  | pageFault pid va =>
    obtain ⟨p, hpid, hlive, -, hk⟩ := hstep
    exact pageFault_shares hs hpid hlive (hg pid p rfl hpid) hk
  | munmap pid addr len =>
    obtain ⟨p, hpid, hlive, hk⟩ := hstep
    exact munmap_shares hs hpid hlive (hg pid p rfl hpid) hk
  | fork pid slot =>
    obtain ⟨p, hpid, hlive, hk⟩ := hstep
    exact fork_shares hs hpid hlive (hg pid p rfl hpid) hk
  | exit | kill | tick | destroy => cases hc

end Calls

theorem mappingKernels_share (cfg : Config) (files : FileSystem) :
    ((mappingKernels cfg files).restrict (Shares cfg)).Inductive (Kernel.Sharing cfg) where
  init := by
    intro k hk
    unfold Kernel.Sharing
    rw [hk.procs, hk.nodeList]
    exact ⟨by simp, by simp, by simp, by simp⟩
  step := fun k c k' hk hstep => step_shares hk hstep.2.1 hstep.1 hstep.2.2

/-- In every run of mapping calls that all meet `Shares`, shared mappings of one file are
coherent. -/
theorem sharing_runs_are_coherent (cfg : Config) (files : FileSystem) {k : Kernel}
    (hk : Reachable ((mappingKernels cfg files).restrict (Shares cfg)) k) : Coherent k :=
  (hk.invariant (mappingKernels_share cfg files)).coherent

def plainMapping (cfg : Config) (k : Kernel) (c : Call) : Bool := k.plain cfg c && c.mapping

theorem plain_shares {c : Call} (h : plainMapping cfg k c = true) : Shares cfg k c := by
  obtain ⟨hplain, hmapping⟩ := Bool.and_eq_true_iff.mp h
  intro pid p hc hp
  have hby := plain_by hplain hc hp
  cases c with
  | mmap _ a => exact plain_mmap hby
  | pageFault _ va => exact fun e number n x _ _ _ hx => plain_counter hby hx
  | munmap _ addr len => exact fun _ e rest htake => (plain_munmap hby htake).1
  | fork _ slot => exact absurd hby (by simp [plainBy])
  | spawn | exit _ | kill _ | tick _ | destroy _ => trivial

theorem sharing_run_reachable {cs : List Call}
    (h : Transition.run (Kernel.step cfg files) (plainMapping cfg) bootKernel cs = some k) :
    Reachable ((mappingKernels cfg files).restrict (Shares cfg)) k :=
  Transition.run_reachable (S := (mappingKernels cfg files).restrict (Shares cfg))
    (fun _ _ _ hc hk => ⟨plain_shares hc, (Bool.and_eq_true_iff.mp hc).2, hk⟩)
    (.start bootKernel_booted) h

def touchedEntry : VMEntry := { twoSharedPages.newEntry (some 5) 0x80000000 with node := .set 0 }

theorem touched_present {p : Process} {f : ℕ} (va : UInt32)
    (h : (p.entryList, p.pd.lookup (pageOf va)) =
      ([{ touchedEntry with startingAddress := va }], some ⟨f, true⟩))
    (hva : ({ touchedEntry with startingAddress := va } : VMEntry).holds (addressOf (pageOf va)) = true) :
    SharedPresent p { touchedEntry with startingAddress := va } 5 (pageOf va) f := by
  obtain ⟨hes, hlook⟩ := Prod.mk.inj h
  have hshared : touchedEntry.isShared = true := by decide
  exact ⟨by simp [hes], hshared, rfl, hva, hlook⟩

theorem sharing_runs_are_coherent_two_processes : ∃ k p q e₁ e₂ f₁ f₂,
    Transition.run (Kernel.step qemu fun _ => []) (plainMapping qemu) bootKernel [.spawn, .spawn,
      .mmap 0 twoSharedPages, .pageFault 0 0x80000000,
      .mmap 1 { twoSharedPages with addr := 0x90000000 }, .pageFault 1 0x90000000,
      .munmap 0 0x80000000 8192, .mmap 0 twoSharedPages, .pageFault 0 0x80000000] = some k ∧
    k.procs = [p, q] ∧ SharedPresent p e₁ 5 (pageOf 0x80000000) f₁ ∧
    SharedPresent q e₂ 5 (pageOf 0x90000000) f₂ ∧ f₁ = f₂ := by
  have hrun : (Transition.run (Kernel.step qemu fun _ => []) (plainMapping qemu) bootKernel [.spawn,
      .spawn, .mmap 0 twoSharedPages, .pageFault 0 0x80000000,
      .mmap 1 { twoSharedPages with addr := 0x90000000 }, .pageFault 1 0x90000000,
      .munmap 0 0x80000000 8192, .mmap 0 twoSharedPages, .pageFault 0 0x80000000]).map (fun k =>
        k.procs.map fun p => (p.entryList, p.pd.lookup (pageOf 0x80000000),
          p.pd.lookup (pageOf 0x90000000))) =
      some [([touchedEntry], some ⟨0x104000, true⟩, none),
        ([{ touchedEntry with startingAddress := 0x90000000 }], none, some ⟨0x104000, true⟩)] := by
    decide +kernel
  obtain ⟨k, hk, hprocs⟩ := Option.map_eq_some_iff.mp hrun
  obtain ⟨p, tl, hkp, hp, htl⟩ := List.map_eq_cons_iff.mp hprocs
  obtain ⟨q, hq, hqv⟩ := List.map_eq_singleton_iff.mp htl
  simp only [Prod.mk.injEq] at hp hqv
  have hfirst := touched_present (p := p) 0x80000000 (Prod.ext hp.1 hp.2.1) (by decide)
  have hsecond := touched_present (p := q) 0x90000000 (Prod.ext hqv.1 hqv.2.2) (by decide)
  have hcoh := sharing_runs_are_coherent qemu (fun _ => []) (sharing_run_reachable hk)
  exact ⟨k, p, q, _, _, _, _, hk, by rw [hkp, hq], hfirst, hsecond, hcoh p (by simp [hkp]) q
    (by simp [hkp, hq]) _ _ 5 _ _ _ _ hfirst hsecond (by decide)⟩

theorem mapping_run_reachable {cfg : Config} {files : FileSystem} {k : Kernel} {cs : List Call}
    (h : bootKernel.run cfg files cs = some k) (hcs : ∀ c ∈ cs, c.mapping = true) :
    Reachable (mappingKernels cfg files) k :=
  foldlM_keeps (I := Reachable (mappingKernels cfg files)) h (.start bootKernel_booted)
    fun c hc _ _ hr hstep => .next hr ⟨hcs c hc, hstep⟩

/-- A `fork` after the first touch: parent and child map different frames. -/
theorem fork_copies_shared_page :
    ∃ k, Reachable (mappingKernels qemu fun _ => []) k ∧ ¬ Coherent k := by
  have hrun : ((bootKernel.run qemu (fun _ => []) [.spawn, .mmap 0 twoSharedPages,
      .pageFault 0 0x80000000, .fork 0 true]).map fun k =>
        k.procs.map fun p => (p.entryList, p.pd.lookup (pageOf 0x80000000))) =
      some [([touchedEntry], some ⟨0x102000, true⟩), ([touchedEntry], some ⟨0x107000, true⟩)] := by
    decide +kernel
  obtain ⟨k, hk, hprocs⟩ := Option.map_eq_some_iff.mp hrun
  obtain ⟨p, tl, hkp, hp, htl⟩ := List.map_eq_cons_iff.mp hprocs
  obtain ⟨q, hq, hqv⟩ := List.map_eq_singleton_iff.mp htl
  have present : ∀ r f, (r.entryList, r.pd.lookup (pageOf 0x80000000)) =
      ([touchedEntry], some (⟨f, true⟩ : Pte)) →
      SharedPresent r touchedEntry 5 (pageOf 0x80000000) f := fun r f hr =>
    touched_present 0x80000000 hr (by decide)
  refine ⟨k, mapping_run_reachable hk (by simp [Call.mapping]), fun hcoh => ?_⟩
  have := hcoh p (by simp [hkp]) q (by simp [hkp, hq]) _ _ 5 _ _ _ _
    (present p _ hp) (present q _ hqv) rfl
  exact absurd this (by decide)

end MMapKernel.Vmm
