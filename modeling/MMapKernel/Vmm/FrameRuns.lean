import MMapKernel.Vmm.FrameEffects

/-!
# Frame safety along runs

Every call within the condition `Safe` keeps the account of frames, so no run of such calls
puts a frame on the free list that is still in use. A shared mapping that outlives its
process in `node_list` shows that the condition on destruction is needed.
-/

open Transition
namespace MMapKernel.Vmm

section Calls
variable {cfg : Config} {files : FileSystem} {k k' : Kernel} {pid : ℕ} {p : Process}

def Kernel.Accounted (cfg : Config) (k : Kernel) : Prop :=
  FrameInv cfg k.phys k.nodes k.nodeList k.procs

theorem accounted_put (hs : k.Accounted cfg) (hpid : k.procs[pid]? = some p) (p' : Process)
    (h : ∀ rest, FrameInv cfg k.phys k.nodes k.nodeList (p :: rest) →
      FrameInv cfg k'.phys k'.nodes k'.nodeList (p' :: rest))
    (hk : k'.procs = (k.put pid p').procs) : k'.Accounted cfg :=
  procs_put FrameInv.perm FrameInv.perm hs hpid p' h hk

theorem spawn_safe (hs : k.Accounted cfg) (h : k.spawn cfg = some k') : k'.Accounted cfg := by
  obtain ⟨d, m, hd, rfl⟩ := spawn_cases h
  obtain ⟨hsup, hdev, hledger⟩ := PageDir.makePd_spec hd
  have hnone : ∀ x ∈ d.pages, x.2.user = false := fun x hx => hsup _ _ (PageDir.mem_pages.mp hx)
  suffices hadd : FrameInv cfg m k.nodes k.nodeList (⟨d, [], .live, false⟩ :: k.procs) from
    hadd.perm (List.perm_append_singleton _ _).symm
  refine hs.add ?_ ⟨?_, ?_, fun _ => Paged.nil, ?_⟩ ?_
  · have hp : privateFrames k.nodes d [] = [] := by
      rw [privateFrames, List.filter_eq_nil_iff.mpr fun x hx => by simp [hnone x hx]]
      rfl
    rw [owned_of_status (by simp), hp, List.append_nil, List.append_assoc]
    exact hledger _ hs.ledger
  · simp
  · intro x hx _
    exact (hdev x.1).mp (Option.isSome_iff_exists.mpr ⟨_, PageDir.mem_pages.mp hx⟩)
  · simp
  · intro n hn
    simpa [Process.share] using hs.counted n hn

theorem mmap_safe {a : MmapArgs} (hs : k.Accounted cfg) (hpid : k.procs[pid]? = some p)
    (hlive : p.status = .live) (hg : SafeBy cfg k p (.mmap pid a)) :
    (k.mmap cfg pid p a).Accounted cfg := by
  rcases mmap_cases cfg k pid p a with h | ⟨-, h⟩ | ⟨va, es, hm, h⟩ <;> rw [h]
  · exact hs
  · exact accounted_put hs hpid _ (fun rest hr => hr.stop hlive) rfl
  · refine accounted_put hs hpid _ (fun rest hr => ?_) rfl
    have hpaged := (hr.procs p List.mem_cons_self).paged hlive
    obtain ⟨hpaged', front, back, file, hes, rfl⟩ := mmap_paged hpaged hg.2 hg.1 hm
    exact hr.insert hes rfl hpaged'

theorem pageFault_safe {va : UInt32} (hs : k.Accounted cfg) (hpid : k.procs[pid]? = some p)
    (hlive : p.status = .live) (hpte : ¬ ((p.pd.lookup (pageOf va)).any Pte.user))
    (hg : SafeBy cfg k p (.pageFault pid va)) (h : k.pageFault files pid p va = some k') :
    k'.Accounted cfg := by
  rcases pageFault_cases h with ⟨-, rfl⟩ |
    ⟨front, e, back, pa, e', k₁, pd, m, hes, hfind, he, hres, hmap, rfl⟩
  · exact accounted_put hs hpid _ (fun rest hr => hr.stop hlive) rfl
  · have hin : e.holds (addressOf (pageOf (framedown va))) = true := by
      rwa [pageOf_framedown, addressOf_pageOf_eq]
    have hpte' : ¬ ((p.pd.lookup (pageOf (framedown va))).any Pte.user) := by
      rwa [pageOf_framedown]
    refine accounted_put hs hpid { p with pd := pd, entryList := front ++ e' :: back }
      (fun rest hr => ?_) (by simp only [Kernel.put, resolve_procs hres])
    rcases resolve_cases hres with ⟨-, rfl, m₁, ha, rfl⟩ | ⟨number, n, x, hnum, hf, hx, rfl, rfl, rfl⟩ |
      ⟨number, m₁, hnum, hf, ha, rfl, rfl⟩
    · -- anonymous or private
      rw [← hes]
      exact hr.mapPrivate hlive ha hpte' hmap
    · -- the file has a `NodeEntry`
      obtain ⟨hn, hfile⟩ := findNode_spec hf
      have hfit := hg e number n x hfind hnum hf hx
      have hsame := sameFrames_modify k.nodes n (· + 1)
      have hr₁ := hr.recount hsame (covered_bump hr.counted hx hfit)
      obtain ⟨hpa, hfileOf, hnumOf⟩ := bumped hx hfit
      refine hr₁.mapShared hlive hes hin hpte' hn ?_ ?_ (hpa ▸ hmap)
      · rw [hfileOf, hnum]
        exact hfile.symm
      · rw [hnumOf, show Process.share _ n = Process.share k.nodes n from
          funext fun q => share_congr q (hsame.paOf n)]
        exact Nat.add_le_add_right (hr.counted n hn) 1
    · -- its first mapping
      obtain ⟨hr₁, hzero⟩ := hr.link ha (findNode_none hf) (pageContent files e number (framedown va))
      obtain ⟨hpa, hfileOf, hnumOf⟩ := appended k.nodes number pa
      refine hr₁.mapShared hlive hes hin hpte' (by simp) ?_ ?_ (hpa.symm ▸ hmap)
      · rw [hnum, hfileOf]
      · rw [hzero, hnumOf]

theorem FrameInv.remove {m : PhysMem} {nodes : List NodeEntry} {nodeList : List ℕ}
    {rest : List Process} {front back : List VMEntry} {e : VMEntry} {w : NodePtr}
    (h : FrameInv cfg m nodes nodeList (p :: rest)) (hlive : p.status = .live)
    (hes : p.entryList = front ++ e :: back) (hn : e.node = .unset w) :
    FrameInv cfg m nodes nodeList ({ p with entryList := front ++ back } :: rest) := by
  have hp := h.procs p List.mem_cons_self
  have hsub : (front ++ back).Sublist p.entryList := by
    rw [hes]
    exact List.Sublist.append_left (List.sublist_cons_self _ _) _
  refine h.exchange ?_ ⟨fun a ha => hp.known a (hsub.subset ha), hp.devices,
    fun hl => (hp.paged hl).sublist hsub, fun hl a ha => hp.tied hl a (hsub.subset ha)⟩ fun n _ => ?_
  · unfold Process.owned
    refine congrArg _ (congrArg _ (privateFrames_congr fun x _ _ => ?_))
    rw [hes, sharedPage_middle, maps_unset hn, Bool.false_or]
  · unfold Process.share
    simp only [hlive, if_true]
    exact (hsub.map _).sum_le_sum (by simp)

section Munmap
variable {m : PhysMem} {nodes : List NodeEntry} {nodeList : List ℕ} {rest : List Process}
  {front back : List VMEntry} {e : VMEntry} {n : ℕ} {x : NodeEntry}

def Process.cut (p : Process) (m : PhysMem) (front back : List VMEntry) (e : VMEntry)
    (physical : Bool) : Process :=
  { p with pd := (p.pd.unmapAll m e.pages physical).1, entryList := front ++ back }

variable (hr : FrameInv cfg m nodes nodeList (p :: rest)) (hlive : p.status = .live)
  (hes : p.entryList = front ++ e :: back)
include hr hlive hes

theorem FrameInv.entry_aligned : e.Aligned :=
  ((hr.procs p List.mem_cons_self).paged hlive).aligned e
    (hes ▸ List.mem_append_right _ List.mem_cons_self)

theorem FrameInv.munmapPrivate (hw : e.node = .unset .null) (hio : e.holds cfg.ioAPIC = false)
    (hlocal : e.holds cfg.localAPIC = false) :
    FrameInv cfg (p.pd.unmapAll m e.pages true).2 nodes nodeList
      (p.cut m front back e true :: rest) := by
  have hal := hr.entry_aligned hlive hes
  have hlook := p.pd.unmapAll_lookup m e.pages true
  have hp := hr.procs p List.mem_cons_self
  refine hr.replace ?_ (hp.drop hal hlook hes) fun i hi => ?_
  · refine FrameInv.free_pages hal hlook [] hr hlive hes hio hlocal
      (p.pd.unmapAll_structure m e.pages true) ?_ (List.Perm.refl _)
    rw [shared_frames_unset (hp.paged hlive) hes hw]
    exact List.Subperm.refl _
  · have hc := hr.counted i hi
    have hd := share_drop hal hlook nodes hlive hes i
    simp only [List.map_cons, List.sum_cons] at hc
    simp only [Process.cut]
    omega

theorem FrameInv.counts_entry (hn : e.node = .set n) (hx : nodes[n]? = some x) (physical : Bool) :
    (p.cut m front back e physical).share nodes n + (rest.map (Process.share nodes n)).sum + 1 ≤
      x.numProcesses.toNat := by
  have hal := hr.entry_aligned hlive hes
  have hmem : e ∈ p.entryList := hes ▸ List.mem_append_right _ List.mem_cons_self
  have hc := hr.counted n ((hr.procs p List.mem_cons_self).tied hlive e hmem n hn).1
  have hd := share_drop hal (p.pd.unmapAll_lookup m e.pages physical) nodes hlive hes n
  have hone : 1 ≤ e.share n (paOf nodes n) p.pd := by
    rw [VMEntry.share, if_pos hn]
    exact le_max_left _ _
  rw [numOf_eq hx] at hc
  simp only [List.map_cons, List.sum_cons] at hc
  simp only [Process.cut]
  omega

theorem FrameInv.munmapKept (hn : e.node = .set n) (hx : nodes[n]? = some x) :
    FrameInv cfg (p.pd.unmapAll m e.pages false).2 (nodes.modify n (count (· - 1))) nodeList
      (p.cut m front back e false :: rest) := by
  have hkeep : FrameInv cfg m nodes nodeList (p.cut m front back e false :: rest) :=
    hr.dropKeep (hr.entry_aligned hlive hes) (p.pd.unmapAll_lookup m e.pages false) hlive hes
      (p.pd.unmapAll_structure m e.pages false)
  have hcount := hr.counts_entry hlive hes hn hx false
  rw [p.pd.unmapAll_keep]
  refine hkeep.recount (sameFrames_modify _ _ _) (covered_release hkeep.counted hx ?_)
  rwa [List.map_cons, List.sum_cons]

theorem FrameInv.munmapLast {number : ℕ} (hn : e.node = .set n) (hx : nodes[n]? = some x)
    (hio : e.holds cfg.ioAPIC = false) (hlocal : e.holds cfg.localAPIC = false)
    (hlast : (x.numProcesses - 1 == 0) = true) (hf : fileOf nodes n = some number) :
    FrameInv cfg (p.pd.unmapAll m e.pages true).2 (nodes.modify n (count (· - 1)))
      (nodeList.eraseP fun i => fileOf (nodes.modify n (count (· - 1))) i = some number)
      (p.cut m front back e true :: rest) := by
  have hmem : e ∈ p.entryList := hes ▸ List.mem_append_right _ List.mem_cons_self
  have hlinked := ((hr.procs p List.mem_cons_self).tied hlive e hmem n hn).1
  have hcount := hr.counts_entry hlive hes hn hx true
  have hone : numOf nodes n ≤ 1 := by
    have hzero : (x.numProcesses - 1).toNat = 0 := by
      rw [beq_iff_eq.mp hlast]
      rfl
    rw [sub_one_toNat (by omega)] at hzero
    rw [numOf_eq hx]
    omega
  have hsame := sameFrames_modify nodes n (· - 1)
  have hperm := unlink_perm hr.files hlinked hf
  simp only [hsame.fileOf]
  have hdrop := FrameInv.dropLast (hr.entry_aligned hlive hes) (p.pd.unmapAll_lookup m e.pages true)
    hr hlive hes hio hlocal (p.pd.unmapAll_structure m e.pages true) hn hone hperm
  refine hdrop.recount hsame fun i hi => ?_
  have hni : n ≠ i := by
    rintro rfl
    have hnd := (hperm.map (fileOf nodes)).nodup_iff.mp hr.files
    exact (List.nodup_cons.mp hnd).1 (List.mem_map.mpr ⟨n, hi, rfl⟩)
  rw [numOf_modify_ne _ hni]
  exact hdrop.counted i hi

end Munmap

theorem munmap_safe {addr len : UInt32} (hs : k.Accounted cfg) (hpid : k.procs[pid]? = some p)
    (hlive : p.status = .live) (hg : SafeBy cfg k p (.munmap pid addr len))
    (h : k.munmap cfg pid p addr = some k') : k'.Accounted cfg := by
  rcases munmap_cases h with rfl | ⟨front, e, back, hspec, htake, hes, hcase⟩
  · exact hs
  obtain ⟨hset, hio, hlocal⟩ := hg hspec e _ htake
  have hp := hs.procs p (List.mem_of_getElem? hpid)
  have hmem : e ∈ p.entryList := hes ▸ List.mem_append_right _ List.mem_cons_self
  have hnull : (∀ n, e.node ≠ .set n) → e.node = .unset .null := by
    intro hne
    cases hn : e.node with
    | set n => exact absurd hn (hne n)
    | unset w => rw [hset w hn]
  rcases hcase with ⟨hpriv, hrel⟩ | ⟨-, hval, rfl⟩ | ⟨-, n, x, hval, hx, hrel⟩
  · -- a private entry: `node` was never stored, and the walk over `node_list` ends the process
    have hw := hnull fun n hn => by
      obtain ⟨hlinked, hf⟩ := hp.tied hlive e hmem n hn
      rw [fileOf, List.getElem?_eq_getElem (hs.linked n hlinked), Option.map_some] at hf
      rw [sharedFile_isShared hf] at hpriv
      cases hpriv
    rcases release_cases hrel with ⟨hf, -⟩ | ⟨-, -, rfl⟩ | ⟨-, -, n, -, hn, -⟩
    · cases hf
    · exact accounted_put hs hpid _ (fun rest hr =>
        (hr.munmapPrivate hlive hes hw hio hlocal).stop hlive) rfl
    · rw [hw] at hn
      cases hn
  · -- a shared entry that was never touched
    have hw := hnull fun n hn => by
      rw [hn] at hval
      cases hval
    exact accounted_put hs hpid _ (fun rest hr => (hr.remove hlive hes hw).stop hlive) rfl
  · have hn := settled_entry hset hval
    generalize hlast : (x.numProcesses - 1 == 0) = physical at hrel
    rcases release_cases hrel with ⟨rfl, rfl⟩ | ⟨-, hnil, -⟩ | ⟨rfl, -, i, number, hi, hf, rfl⟩
    · exact accounted_put hs hpid _ (fun rest hr => hr.munmapKept hlive hes hn hx) rfl
    · rcases hnil with hnil | hnull
      · have hlinked := (hp.tied hlive e hmem n hn).1
        rw [show k.nodeList = [] from hnil] at hlinked
        cases hlinked
      · rw [hval] at hnull
        cases hnull
    · obtain rfl : i = n := NodePtr.entry.inj (hi.symm.trans hval)
      have hfile : fileOf k.nodes i = some number := ((sameFrames_modify _ _ _).fileOf i).symm.trans hf
      exact accounted_put hs hpid _ (fun rest hr =>
        hr.munmapLast hlive hes hn hx hio hlocal hlast hfile) rfl

theorem references_le_share (hset : ∀ e ∈ p.entryList, e.Settled) (hlive : p.status = .live)
    (nodes : List NodeEntry) (n : ℕ) : references n p.entryList ≤ p.share nodes n := by
  rw [references_eq hset, Process.share, if_pos hlive]
  refine List.sum_le_sum fun e _ => ?_
  unfold VMEntry.share
  split
  · exact le_max_left _ _
  · exact le_rfl

theorem fork_child {child d : PageDir} {m m' : PhysMem} (hs : k.Accounted cfg)
    (hp : ProcInv cfg k.nodes k.nodeList p) (hlive : p.status = .live)
    (hset : ∀ e ∈ p.entryList, e.Settled) (hd : PageDir.makePd cfg k.phys = some (d, m))
    (hcopy : p.pd.copyUser d m = some (child, m')) :
    Ledger m' (Process.owned k.nodes ⟨child, p.entryList, .live, false⟩ ++
      k.procs.flatMap (Process.owned k.nodes) ++ k.nodeList.map (paOf k.nodes)) ∧
    ProcInv cfg k.nodes k.nodeList ⟨child, p.entryList, .live, false⟩ ∧
    ∀ n ∈ k.nodeList, Process.share k.nodes n ⟨child, p.entryList, .live, false⟩ =
      references n p.entryList := by
  obtain ⟨hsup, -, hmake⟩ := PageDir.makePd_spec hd
  have hledger := (PageDir.copyUser_spec hcopy).2
  have hempty : d.userFrames = [] := by
    rw [PageDir.userFrames, List.filter_eq_nil_iff.mpr fun x hx => by
      simp [hsup _ _ (PageDir.mem_pages.mp hx)]]
    rfl
  have hl := hledger (k.procs.flatMap (Process.owned k.nodes) ++ k.nodeList.map (paOf k.nodes)) (by
    rw [hempty, List.append_nil]
    exact hmake _ hs.ledger)
  refine ⟨?_, ⟨hp.known, (forked_pages hp.devices hd hcopy).1, fun _ => hp.paged hlive,
    fun _ => hp.tied hlive⟩, fun n hn => ?_⟩
  · rw [owned_of_status (by simp)]
    refine hl.forget (List.Sublist.subperm ?_)
    simp only [List.append_assoc]
    refine List.Sublist.append_left (List.Sublist.append_right (List.Sublist.map _ ?_) _) _
    exact List.monotone_filter_right _ fun x hx => (Bool.and_eq_true_iff.mp hx).1
  · have hnone : ∀ e, pagesMapping child e (paOf k.nodes n) = 0 := by
      intro e
      refine List.countP_eq_zero.mpr fun x hx hc => ?_
      simp only [Bool.and_eq_true, beq_iff_eq] at hc
      have hnd := hl.used_nodup
      rw [List.append_assoc] at hnd
      refine (List.nodup_append.mp (List.nodup_append.mp hnd).2.1).2.2 x.2.frame ?_ (paOf k.nodes n)
        (List.mem_append_right _ (List.mem_map.mpr ⟨n, hn, rfl⟩)) hc.2
      exact List.mem_map.mpr ⟨x, List.mem_filter.mpr ⟨hx, hc.1.1⟩, rfl⟩
    rw [references_eq hset, Process.share, if_pos rfl]
    refine congrArg List.sum (List.map_congr_left fun e _ => ?_)
    rw [VMEntry.share, hnone]
    rfl

theorem fork_safe {slot : Bool} (hs : k.Accounted cfg) (hpid : k.procs[pid]? = some p)
    (hlive : p.status = .live) (hg : SafeBy cfg k p (.fork pid slot))
    (h : k.fork cfg pid p slot = some k') : k'.Accounted cfg := by
  rcases fork_cases h with ⟨-, rfl⟩ | ⟨hslot, d, m, child, m', nodes, hd, hcopy, hadj, rfl⟩
  · exact accounted_put hs hpid _ (fun rest hr => hr.stop hlive) rfl
  · obtain ⟨hset, hfit⟩ := hg hslot
    obtain ⟨hledger, hchild, hshare⟩ :=
      fork_child hs (hs.procs p (List.mem_of_getElem? hpid)) hlive hset hd hcopy
    have hsame := sameFrames_adjustAll hadj
    have hnum := numOf_forked hadj hs.linked hfit
    have hs₁ := hs.recount hsame (covered_fork hs.counted hadj hs.linked hfit)
    suffices hadd : FrameInv cfg m' nodes k.nodeList (⟨child, p.entryList, .live, false⟩ :: k.procs)
      from hadd.perm (List.perm_append_singleton _ _).symm
    refine hs₁.add ?_ (hchild.recount hsame) fun n hn => ?_
    · rw [show Process.owned nodes = Process.owned k.nodes from
        funext fun q => owned_congr q fun _ _ i _ => hsame.paOf i, funext hsame.paOf]
      exact hledger
    · rw [show Process.share nodes n = Process.share k.nodes n from
        funext fun q => share_congr q (hsame.paOf n), hshare n hn, hnum n hn, Nat.add_comm]
      exact Nat.add_le_add_right (hs.counted n hn) _

theorem exit_safe (hs : k.Accounted cfg) (hpid : k.procs[pid]? = some p)
    (hlive : p.status = .live) (hg : SafeBy cfg k p (.exit pid)) (h : k.exit pid p = some k') :
    k'.Accounted cfg := by
  obtain ⟨nodes, hadj, rfl⟩ := exit_cases h
  refine accounted_put hs hpid _ (fun rest hr => ?_) rfl
  refine (hr.stop hlive).recount (sameFrames_adjustAll hadj)
    (covered_exit hadj hs.linked fun n hn => ?_)
  have hc := hr.counted n hn
  have href := references_le_share hg hlive k.nodes n
  have hstop : p.stopped.share k.nodes n = 0 := by simp [Process.share, Process.stopped]
  rw [List.map_cons, List.sum_cons] at hc ⊢
  omega

theorem filter_sublist_of_imp {α : Type*} {l : List α} {f g : α → Bool}
    (h : ∀ x ∈ l, f x = true → g x = true) : (l.filter f).Sublist (l.filter g) := by
  have : l.filter f = (l.filter g).filter f := by
    rw [List.filter_filter]
    refine List.filter_congr fun x hx => ?_
    cases hf : f x with
    | false => rfl
    | true => rw [h x hx hf]; rfl
  rw [this]
  exact List.filter_sublist

theorem destroy_safe (hs : k.Accounted cfg) (hpid : k.procs[pid]? = some p)
    (hterm : p.status = .terminated) (hg : SafeBy cfg k p (.destroy pid)) :
    (k.destroy cfg pid p).Accounted cfg := by
  refine accounted_put hs hpid { p with status := .destroyed } (fun rest hr => ?_) rfl
  have hp := hr.procs p List.mem_cons_self
  refine hr.replace ?_ ⟨hp.known, hp.devices, fun h => ?_, fun h => ?_⟩ fun n hn => ?_
  · have hl := hr.ledger
    rw [List.flatMap_cons, owned_of_status (by simp [hterm])] at hl
    change Ledger (p.pd.deletePd cfg k.phys) ([] ++ rest.flatMap _ ++ _)
    refine PageDir.deletePd_ledger (hl.forget (List.Sublist.subperm ?_))
    simp only [List.append_assoc, List.nil_append]
    refine List.Sublist.append_left (List.Sublist.append_right (List.Sublist.map _ ?_) _) _
    -- a page that is not special is a user page, and it is private
    refine filter_sublist_of_imp fun x hx hspec => ?_
    have hu : x.2.user = true := by
      by_contra hu
      have hspec' : isSpecial cfg (addressOf x.1) = false := by simpa using hspec
      rcases hp.devices x hx (by simpa using hu) with hg | hg
      · rw [hg, addressOf_pageOf cfg.io_aligned] at hspec'
        simp [isSpecial] at hspec'
      · rw [hg, addressOf_pageOf cfg.local_aligned] at hspec'
        simp [isSpecial] at hspec'
    rw [hu, hg x hx hu]
    rfl
  · cases h
  · cases h
  · have hc := hr.counted n hn
    rw [List.map_cons, List.sum_cons] at hc
    have : Process.share k.nodes n { p with status := .destroyed } = 0 := by simp [Process.share]
    omega

theorem step_safe {c : Call} (hs : k.Accounted cfg) (hg : Safe cfg k c)
    (h : k.step cfg files c = some k') : k'.Accounted cfg := by
  have hstep := step_cases h
  cases c with
  | spawn => exact spawn_safe hs hstep
  | mmap pid a =>
    obtain ⟨p, hpid, hlive, rfl⟩ := hstep
    exact mmap_safe hs hpid hlive (hg pid p rfl hpid)
  | pageFault pid va =>
    obtain ⟨p, hpid, hlive, hpte, hk⟩ := hstep
    exact pageFault_safe hs hpid hlive hpte (hg pid p rfl hpid) hk
  | munmap pid addr len =>
    obtain ⟨p, hpid, hlive, hk⟩ := hstep
    exact munmap_safe hs hpid hlive (hg pid p rfl hpid) hk
  | fork pid slot =>
    obtain ⟨p, hpid, hlive, hk⟩ := hstep
    exact fork_safe hs hpid hlive (hg pid p rfl hpid) hk
  | exit pid =>
    obtain ⟨p, hpid, hlive, hk⟩ := hstep
    exact exit_safe hs hpid hlive (hg pid p rfl hpid) hk
  | kill pid =>
    obtain ⟨p, hpid, rfl⟩ := hstep
    refine accounted_put hs hpid { p with killFlag := true } (fun rest hr => ?_) rfl
    have hp := hr.procs p List.mem_cons_self
    exact hr.exchange rfl ⟨hp.known, hp.devices, hp.paged, hp.tied⟩ fun _ _ => le_rfl
  | tick pid =>
    obtain ⟨p, hpid, hlive, -, rfl⟩ := hstep
    exact accounted_put hs hpid _ (fun rest hr => hr.stop hlive) rfl
  | destroy pid =>
    obtain ⟨p, hpid, hterm, rfl⟩ := hstep
    exact destroy_safe hs hpid hterm (hg pid p rfl hpid)

end Calls

theorem kernels_accounted (cfg : Config) (files : FileSystem) :
    ((kernels cfg files).restrict (Safe cfg)).Inductive (Kernel.Accounted cfg) where
  init := by
    intro k hk
    unfold Kernel.Accounted
    rw [hk.procs, hk.nodeList]
    exact ⟨⟨by simp [hk.free], by simp [hk.free]⟩, by simp, by simp, by simp, by simp⟩
  step := fun k c k' hk hstep => step_safe hk hstep.1 hstep.2

/-- In every run whose calls all meet `Safe`, no frame is free twice and no free frame is
mapped in a live process or kept by a linked `NodeEntry`. -/
theorem safe_runs_keep_frames (cfg : Config) (files : FileSystem) {k : Kernel}
    (hk : Reachable ((kernels cfg files).restrict (Safe cfg)) k) : FrameSafe k :=
  (hk.invariant (kernels_accounted cfg files)).safe

theorem plain_safe {cfg : Config} {k : Kernel} {c : Call} (h : k.plain cfg c = true) :
    Safe cfg k c := by
  intro pid p hc hp
  have hplain := plain_by h hc hp
  cases c with
  | mmap _ a => exact plain_mmap hplain
  | pageFault _ va => exact fun e number n x _ _ _ hx => plain_counter hplain hx
  | munmap _ addr len => exact fun _ e rest htake => plain_munmap hplain htake
  | fork _ slot => exact absurd hplain (by simp [plainBy])
  | exit _ =>
    have hsettled := of_decide_eq_true hplain
    exact hsettled
  | destroy _ =>
    intro x _ _
    have hunset := of_decide_eq_true hplain
    exact List.any_eq_false.mpr fun e he => by simp [VMEntry.maps, hunset e he]
  | spawn | kill _ | tick _ => trivial

theorem safe_runs_keep_frames_destroyed : ∃ k,
    Transition.run (Kernel.step qemu fun _ => []) (Kernel.plain qemu) bootKernel [.spawn, .spawn,
      .mmap 0 { anonymousPage with flags := 0 }, .pageFault 0 0x80000000, .mmap 1 twoSharedPages,
      .pageFault 1 0x80000000, .exit 0, .destroy 0,
      .mmap 1 { anonymousPage with addr := 0x90000000, flags := 0 }, .pageFault 1 0x90000000] =
        some k ∧
      k.phys.free = [0x105000, 0x104000] ∧ k.nodeList = [0] ∧ FrameSafe k := by
  have hrun : (Transition.run (Kernel.step qemu fun _ => []) (Kernel.plain qemu) bootKernel [.spawn,
      .spawn, .mmap 0 { anonymousPage with flags := 0 }, .pageFault 0 0x80000000,
      .mmap 1 twoSharedPages, .pageFault 1 0x80000000, .exit 0, .destroy 0,
      .mmap 1 { anonymousPage with addr := 0x90000000, flags := 0 }, .pageFault 1 0x90000000]).map
        (fun k => (k.phys.free, k.nodeList)) = some ([0x105000, 0x104000], [0]) := by
    decide +kernel
  obtain ⟨k, hk, hstate⟩ := Option.map_eq_some_iff.mp hrun
  obtain ⟨hfree, hlinked⟩ := Prod.mk.inj hstate
  have hreach : Reachable ((kernels qemu fun _ => []).restrict (Safe qemu)) k :=
    tested_run_reachable (fun _ _ => plain_safe) hk
  exact ⟨k, hk, hfree, hlinked, safe_runs_keep_frames qemu (fun _ => []) hreach⟩

/-- A process that touches a shared mapping and exits: its destruction frees the frame of the
`NodeEntry`, which stays linked. -/
theorem destroyed_process_frees_shared_frame :
    ∃ k, Reachable (kernels qemu fun _ => []) k ∧ ¬ FrameSafe k := by
  have hrun : ((bootKernel.run qemu (fun _ => []) [.spawn, .mmap 0 twoSharedPages,
      .pageFault 0 0x80000000, .exit 0, .destroy 0]).map fun k =>
        (k.nodeList, k.nodes.map fun x => decide (x.pa ∈ k.phys.free))) =
      some ([0], [true]) := by decide +kernel
  obtain ⟨k, hk, hval⟩ := Option.map_eq_some_iff.mp hrun
  simp only [Prod.mk.injEq] at hval
  obtain ⟨hlist, hfree⟩ := hval
  refine ⟨k, run_reachable hk, fun hsafe => ?_⟩
  obtain ⟨x, hx, hxf⟩ := List.map_eq_singleton_iff.mp hfree
  exact hsafe.unlinked 0 (by simp [hlist]) x (by simp [hx]) (by simpa using hxf)

end MMapKernel.Vmm
