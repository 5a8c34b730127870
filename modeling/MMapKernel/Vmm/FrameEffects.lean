import MMapKernel.Vmm.FrameSafety

/-!
# Effects on the frames in use

One lemma for each effect a call can have: counters move, a private page or a shared page
is mapped, a file gets its `NodeEntry`, an entry is inserted or taken out with its pages.
-/

namespace MMapKernel.Vmm

section Effects
variable {cfg : Config} {m m' : PhysMem} {nodes nodes' : List NodeEntry} {nodeList : List ℕ}
  {procs rest : List Process} {p : Process} {front back : List VMEntry} {e : VMEntry}

theorem owned_congr (p : Process)
    (h : ∀ e ∈ p.entryList, ∀ n, e.node = .set n → Vmm.paOf nodes' n = Vmm.paOf nodes n) :
    p.owned nodes' = p.owned nodes := by
  unfold Process.owned
  split
  · rfl
  · refine congrArg _ (privateFrames_congr fun x _ _ => ?_)
    unfold sharedPage
    rw [Bool.eq_iff_iff, List.any_eq_true, List.any_eq_true]
    refine exists_congr fun e => and_congr_right fun he => ?_
    cases hn : e.node with
    | unset w => simp [maps_unset hn]
    | set n => rw [maps_set hn, maps_set hn, h e he n hn]

theorem share_congr {n : ℕ} (p : Process) (h : paOf nodes' n = paOf nodes n) :
    p.share nodes' n = p.share nodes n := by
  unfold Process.share
  rw [h]

theorem ProcInv.recount (h : ProcInv cfg nodes nodeList p) (hs : SameFrames nodes nodes') :
    ProcInv cfg nodes' nodeList p where
  known e he n hn := (hs.length n).mpr (h.known e he n hn)
  devices := h.devices
  paged := h.paged
  tied hlive e he n hn := by
    rw [hs.fileOf]
    exact h.tied hlive e he n hn

theorem FrameInv.recount (h : FrameInv cfg m nodes nodeList procs) (hs : SameFrames nodes nodes')
    (hc : ∀ n ∈ nodeList, (procs.map (Process.share nodes n)).sum ≤ numOf nodes' n) :
    FrameInv cfg m nodes' nodeList procs where
  ledger := by
    have h₁ : Process.owned nodes' = Process.owned nodes :=
      funext fun p => owned_congr p fun _ _ n _ => hs.paOf n
    rw [h₁, funext hs.paOf]
    exact h.ledger
  files := by
    rw [funext hs.fileOf]
    exact h.files
  linked n hn := (hs.length n).mpr (h.linked n hn)
  counted n hn := by
    rw [show Process.share nodes' n = Process.share nodes n from
      funext fun p => share_congr p (hs.paOf n)]
    exact hc n hn
  procs p hp := (h.procs p hp).recount hs

section NewPage
variable {d d' : PageDir} {g : Page} {pte : Pte}

theorem filter_other_user {P : Page × Pte → Bool} (hg : ¬ ((d.lookup g).any Pte.user)) :
    (d.pages.filter fun x => x.1 ≠ g).filter (fun x => x.2.user && P x) =
      d.pages.filter fun x => x.2.user && P x := by
  rw [List.filter_filter]
  refine List.filter_congr fun x hx => ?_
  by_cases hxg : x.1 = g
  · have hl := PageDir.mem_pages.mp hx
    rw [hxg] at hl
    have : x.2.user = false := by simpa [hl] using hg
    simp [this]
  · simp [hxg]

theorem privateFrames_newPage (nodes : List NodeEntry)
    (h : ∀ a, d'.lookup a = if a = g then some pte else d.lookup a)
    (hg : ¬ ((d.lookup g).any Pte.user)) (hu : pte.user = true) (es : List VMEntry) :
    (privateFrames nodes d' es).Perm
      ((if sharedPage nodes es (g, pte) then [] else [pte.frame]) ++ privateFrames nodes d es) := by
  have hp := ((PageDir.pages_perm_of_lookup h).filter fun x => x.2.user && !sharedPage nodes es x).map
    fun x => x.2.frame
  rw [List.filter_cons, filter_other_user hg] at hp
  refine hp.trans (List.Perm.of_eq ?_)
  cases sharedPage nodes es (g, pte) <;> simp [hu, privateFrames]

theorem pagesMapping_newPage (h : ∀ a, d'.lookup a = if a = g then some pte else d.lookup a)
    (hg : ¬ ((d.lookup g).any Pte.user)) (hu : pte.user = true) (e : VMEntry) (pa : ℕ) :
    pagesMapping d' e pa = pagesMapping d e pa +
      if e.holds (addressOf g) = true ∧ pte.frame = pa then 1 else 0 := by
  unfold pagesMapping
  rw [(PageDir.pages_perm_of_lookup h).countP_eq, List.countP_cons, List.countP_eq_length_filter]
  simp only [Bool.and_assoc]
  rw [filter_other_user hg, ← List.countP_eq_length_filter]
  simp [hu]

end NewPage

theorem FrameInv.mapPrivate {m₁ : PhysMem} {pa : ℕ} {pd : PageDir} {va : UInt32}
    (h : FrameInv cfg m nodes nodeList (p :: rest)) (hlive : p.status = .live)
    (ha : m.allocFrame = some (pa, m₁)) (hg : ¬ ((p.pd.lookup (pageOf va)).any Pte.user))
    (hmap : p.pd.userMap m₁ va pa = some (pd, m')) :
    FrameInv cfg m' nodes nodeList ({ p with pd := pd } :: rest) := by
  have hp := h.procs p List.mem_cons_self
  have hlook := (PageDir.install_spec hmap).1
  have hl := h.ledger.alloc ha
  have hfresh : ∀ n ∈ nodeList, pa ≠ paOf nodes n := by
    intro n hn heq
    exact (List.nodup_cons.mp hl.used_nodup).1
      (List.mem_append_right _ (List.mem_map.mpr ⟨n, hn, heq.symm⟩))
  have hpriv : sharedPage nodes p.entryList (pageOf va, ⟨pa, true⟩) = false := by
    rw [sharedPage, List.any_eq_false]
    intro e he hm
    cases hn : e.node with
    | unset w => simp [maps_unset hn] at hm
    | set n =>
      exact hfresh n (hp.tied hlive e he n hn).1 ((maps_set hn).mp hm).2.symm
  refine h.replace ?_ ⟨hp.known, devices_newPage hlook rfl hp.devices, hp.paged, hp.tied⟩ fun n hn => ?_
  · have hframes := privateFrames_newPage nodes hlook hg rfl p.entryList
    rw [hpriv] at hframes
    rw [List.flatMap_cons, owned_of_status (live_ne_destroyed hlive)] at hl
    rw [owned_of_status (p := { p with pd := pd }) (live_ne_destroyed hlive)]
    have hl' : Ledger m₁ (p.pd.structureFrames ++ (pa :: privateFrames nodes p.pd p.entryList ++
        rest.flatMap (Process.owned nodes) ++ nodeList.map (paOf nodes))) := hl.perm <| by
      simp only [List.append_assoc, List.cons_append]
      exact List.perm_middle.symm
    apply (PageDir.install_ledger hmap hl').perm
    simp only [List.append_assoc]
    exact List.Perm.append_left _ (hframes.symm.append_right _)
  · have hsame : Process.share nodes n { p with pd := pd } = p.share nodes n := by
      unfold Process.share VMEntry.share
      simp only [pagesMapping_newPage hlook hg rfl, hfresh n hn, and_false, if_false, Nat.add_zero]
    rw [hsame]
    exact h.counted n hn

theorem FrameInv.link {m₁ : PhysMem} {pa number : ℕ} (h : FrameInv cfg m nodes nodeList procs)
    (ha : m.allocFrame = some (pa, m₁)) (hnew : ∀ n ∈ nodeList, fileOf nodes n ≠ some number)
    (c : ℕ → UInt8) :
    FrameInv cfg (m₁.fill pa c) (nodes ++ [⟨number, 1, pa⟩]) (nodeList ++ [nodes.length]) procs ∧
    (procs.map (Process.share (nodes ++ [⟨number, 1, pa⟩]) nodes.length)).sum = 0 := by
  have hpa : ∀ n < nodes.length, paOf (nodes ++ [⟨number, 1, pa⟩]) n = paOf nodes n :=
    fun n hn => paOf_append _ hn
  have hnone : (procs.map (Process.share (nodes ++ [⟨number, 1, pa⟩]) nodes.length)).sum = 0 := by
    refine List.sum_eq_zero fun s hs => ?_
    obtain ⟨q, hq, rfl⟩ := List.mem_map.mp hs
    unfold Process.share
    split
    · refine List.sum_eq_zero fun s hs => ?_
      obtain ⟨e, he, rfl⟩ := List.mem_map.mp hs
      refine if_neg fun hn => ?_
      exact lt_irrefl _ ((h.procs q hq).known e he _ hn)
    · rfl
  refine ⟨⟨?_, files_link h.linked h.files hnew, linked_link h.linked, fun n hn => ?_,
    fun q hq => ?_⟩, hnone⟩
  · have howned : procs.flatMap (Process.owned (nodes ++ [⟨number, 1, pa⟩])) =
        procs.flatMap (Process.owned nodes) :=
      List.flatMap_congr fun q hq => owned_congr q fun e he n hn =>
        hpa n ((h.procs q hq).known e he n hn)
    have hpas : nodeList.map (paOf (nodes ++ [⟨number, 1, pa⟩])) = nodeList.map (paOf nodes) :=
      List.map_congr_left fun n hn => hpa n (h.linked n hn)
    rw [howned, List.map_append, hpas]
    apply ((h.ledger.alloc ha).fill pa c).perm
    simp only [List.map_cons, List.map_nil, paOf, List.getElem?_concat_length, Option.map_some,
      Option.getD_some, ← List.append_assoc]
    exact (List.perm_append_singleton _ _).symm
  · rcases List.mem_append.mp hn with hn | hn
    · have hlt := h.linked n hn
      rw [numOf, List.getElem?_append_left hlt, show Process.share _ n = Process.share nodes n from
        funext fun q => share_congr q (hpa n hlt)]
      exact h.counted n hn
    · rw [List.mem_singleton.mp hn, hnone]
      exact Nat.zero_le _
  · have hq' := h.procs q hq
    refine ⟨fun e he n hn => ?_, hq'.devices, hq'.paged, fun hlive e he n hn => ?_⟩
    · rw [List.length_append]
      exact (hq'.known e he n hn).trans_le (Nat.le_add_right _ _)
    · obtain ⟨hmem, hf⟩ := hq'.tied hlive e he n hn
      exact ⟨List.mem_append_left _ hmem, hf.trans (fileOf_append _ (h.linked n hmem)).symm⟩

theorem shared_inside (hpaged : Paged p.entryList) (hes : p.entryList = front ++ e :: back)
    {x : Page × Pte} (hin : e.holds (addressOf x.1) = true) :
    sharedPage nodes p.entryList x = e.maps nodes x := by
  rw [hes] at hpaged ⊢
  have hothers : sharedPage nodes (front ++ back) x = false := by
    rw [sharedPage, List.any_eq_false]
    intro a ha
    simp [maps_outside (hpaged.holds_unique hin a ha)]
  rw [sharedPage_middle, hothers, Bool.or_false]

section Store
variable {n : ℕ} (h : FrameInv cfg m nodes nodeList (p :: rest)) (hlive : p.status = .live)
  (hes : p.entryList = front ++ e :: back) (hn : n ∈ nodeList)
  (hfile : e.sharedFile = fileOf nodes n)
include h hlive hes hn hfile

theorem FrameInv.stored_eq {i : ℕ} (hi : e.node = .set i) : i = n := by
  have hmem : e ∈ p.entryList := hes ▸ List.mem_append_right _ List.mem_cons_self
  obtain ⟨hlinked, hf⟩ := (h.procs p List.mem_cons_self).tied hlive e hmem i hi
  exact h.file_injective hlinked hn (hf.symm.trans hfile)

theorem FrameInv.no_page (hne : e.node ≠ .set n) {x : Page × Pte} (hx : x ∈ p.pd.pages)
    (hu : x.2.user = true) (hin : e.holds (addressOf x.1) = true) : x.2.frame ≠ paOf nodes n := by
  refine h.private_ne hlive hx hu ?_ hn
  rw [shared_inside ((h.procs p List.mem_cons_self).paged hlive) hes hin]
  cases hnode : e.node with
  | unset w => exact maps_unset hnode
  | set i => exact absurd (h.stored_eq hlive hes hn hfile hnode ▸ hnode) hne

theorem FrameInv.sharedPage_store {x : Page × Pte} (hx : x ∈ p.pd.pages) (hu : x.2.user = true) :
    sharedPage nodes (front ++ { e with node := .set n } :: back) x =
      sharedPage nodes p.entryList x := by
  rw [hes, sharedPage_middle, sharedPage_middle]
  congr 1
  by_cases hne : e.node = .set n
  · rw [← hne]
  · rw [Bool.eq_iff_iff, maps_set rfl]
    constructor
    · rintro ⟨hin, hpa⟩
      exact absurd hpa.symm (h.no_page hlive hes hn hfile hne hx hu hin)
    · intro hm
      cases hnode : e.node with
      | unset w => simp [maps_unset hnode] at hm
      | set i => exact absurd (h.stored_eq hlive hes hn hfile hnode ▸ hnode) hne

theorem FrameInv.share_store {d : PageDir} {g : Page}
    (hlook : ∀ a, d.lookup a = if a = g then some ⟨paOf nodes n, true⟩ else p.pd.lookup a)
    (hg : ¬ ((p.pd.lookup g).any Pte.user)) (he : e.holds (addressOf g) = true) (i : ℕ) :
    Process.share nodes i
      { p with pd := d, entryList := front ++ { e with node := .set n } :: back } ≤
      p.share nodes i + if i = n then 1 else 0 := by
  have hpaged := (h.procs p List.mem_cons_self).paged hlive
  rw [hes] at hpaged
  have hpages := fun a pa => pagesMapping_newPage hlook hg rfl a pa
  -- entries that do not hold the page are not affected
  have hothers : ∀ l : List VMEntry, l ⊆ front ++ back →
      l.map (VMEntry.share i (paOf nodes i) d) = l.map (VMEntry.share i (paOf nodes i) p.pd) := by
    intro l hl
    refine List.map_congr_left fun a ha => ?_
    unfold VMEntry.share
    rw [hpages, hpaged.holds_unique he a (hl ha)]
    simp
  have hentry : VMEntry.share i (paOf nodes i) d { e with node := .set n } ≤
      VMEntry.share i (paOf nodes i) p.pd e + if i = n then 1 else 0 := by
    by_cases hin : i = n
    · subst hin
      have hnew : pagesMapping d { e with node := .set i } (paOf nodes i) =
          pagesMapping p.pd e (paOf nodes i) + 1 := by
        rw [hpages, if_pos ⟨he, rfl⟩]
        rfl
      unfold VMEntry.share
      rw [hnew]
      by_cases hne : e.node = .set i
      · simp only [hne, if_true]
        omega
      · have hzero : pagesMapping p.pd e (paOf nodes i) = 0 := by
          refine List.countP_eq_zero.mpr fun x hx hc => ?_
          simp only [Bool.and_eq_true, beq_iff_eq] at hc
          exact h.no_page hlive hes hn hfile hne hx hc.1.1 hc.1.2 hc.2
        simp [hzero, hne]
    · have : NodeField.set n ≠ .set i := fun heq => hin (NodeField.set.inj heq).symm
      simp [VMEntry.share, this]
  unfold Process.share
  simp only [hlive, if_true, hes, List.map_append, List.map_cons, List.sum_append, List.sum_cons]
  rw [hothers front (List.subset_append_left _ _), hothers back (List.subset_append_right _ _)]
  omega

end Store

theorem FrameInv.mapShared {n : ℕ} {pd : PageDir} {va : UInt32}
    (h : FrameInv cfg m nodes nodeList (p :: rest)) (hlive : p.status = .live)
    (hes : p.entryList = front ++ e :: back) (he : e.holds (addressOf (pageOf va)) = true)
    (hg : ¬ ((p.pd.lookup (pageOf va)).any Pte.user)) (hn : n ∈ nodeList)
    (hfile : e.sharedFile = fileOf nodes n)
    (hslack : ((p :: rest).map (Process.share nodes n)).sum + 1 ≤ numOf nodes n)
    (hmap : p.pd.userMap m va (paOf nodes n) = some (pd, m')) :
    FrameInv cfg m' nodes nodeList
      ({ p with pd := pd, entryList := front ++ { e with node := .set n } :: back } :: rest) := by
  have hp := h.procs p List.mem_cons_self
  have hlook := (PageDir.install_spec hmap).1
  have hpaged := hp.paged hlive
  rw [hes] at hpaged
  have hnew : sharedPage nodes (front ++ { e with node := .set n } :: back)
      (pageOf va, ⟨paOf nodes n, true⟩) = true := by
    rw [sharedPage_middle, Bool.or_eq_true]
    exact Or.inl ((maps_set rfl).mpr ⟨he, rfl⟩)
  refine h.replace ?_ ⟨fun a ha i hi => ?_, devices_newPage hlook rfl hp.devices,
    fun _ => hpaged.exchange rfl rfl, fun _ a ha i hi => ?_⟩ fun i hi => ?_
  · have hframes := privateFrames_newPage nodes hlook hg rfl
      (front ++ { e with node := .set n } :: back)
    rw [if_pos hnew, privateFrames_congr fun x hx hu =>
      h.sharedPage_store hlive hes hn hfile hx hu] at hframes
    have hl := h.ledger
    rw [List.flatMap_cons, owned_of_status (live_ne_destroyed hlive), List.append_assoc,
      List.append_assoc] at hl
    rw [owned_of_status (p := { p with
      pd := pd, entryList := front ++ { e with node := .set n } :: back }) (live_ne_destroyed hlive),
      List.append_assoc, List.append_assoc]
    refine (PageDir.install_ledger hmap hl).perm (List.Perm.append_left _ ?_)
    exact hframes.symm.append_right _
  · rcases mem_middle (e := e) ha with rfl | ha
    · cases hi
      exact h.linked n hn
    · exact hp.known a (hes ▸ ha) i hi
  · rcases mem_middle (e := e) ha with rfl | ha
    · cases hi
      exact ⟨hn, hfile⟩
    · exact hp.tied hlive a (hes ▸ ha) i hi
  · have hshare := h.share_store hlive hes hn hfile hlook hg he i
    have hcount := h.counted i hi
    simp only [List.map_cons, List.sum_cons] at hcount hslack
    by_cases hin : i = n
    · subst hin
      rw [if_pos rfl] at hshare
      omega
    · rw [if_neg hin] at hshare
      omega

theorem share_pos (nodes : List NodeEntry) {q : Process} {a : VMEntry} {n : ℕ} (hlive : q.status = .live)
    (ha : a ∈ q.entryList) (hn : a.node = .set n) : 1 ≤ q.share nodes n := by
  rw [Process.share, if_pos hlive]
  calc 1 ≤ a.share n (paOf nodes n) q.pd := by
        rw [VMEntry.share, if_pos hn]
        exact le_max_left _ _
    _ ≤ _ := List.single_le_sum (by simp) _ (List.mem_map.mpr ⟨a, ha, rfl⟩)

section Drop
variable {d : PageDir} (hal : e.Aligned)
  (hlook : ∀ a, d.lookup a = if a ∈ e.pages.map pageOf then none else p.pd.lookup a)

include hal hlook

theorem privateFrames_drop (nodes : List NodeEntry) (front back : List VMEntry) :
    (privateFrames nodes p.pd (front ++ e :: back)).Perm (privateFrames nodes d (front ++ back) ++
      (p.pd.pages.filter fun x => (x.2.user && !sharedPage nodes (front ++ e :: back) x) &&
        e.holds (addressOf x.1)).map fun x => x.2.frame) := by
  have hout := ((pages_drop hal hlook).filter
    fun x => x.2.user && !sharedPage nodes (front ++ back) x).map fun x => x.2.frame
  rw [List.filter_filter] at hout
  have hsplit := (List.filter_append_perm (fun x : Page × Pte => e.holds (addressOf x.1))
    (p.pd.pages.filter fun x => x.2.user && !sharedPage nodes (front ++ e :: back) x)).map
    fun x => x.2.frame
  rw [List.map_append, List.filter_filter, List.filter_filter] at hsplit
  refine hsplit.symm.trans (List.perm_append_comm.trans ?_)
  refine List.Perm.append ((List.Perm.of_eq (congrArg _ ?_)).trans hout.symm)
    (List.Perm.of_eq (congrArg _ ?_))
  · refine List.filter_congr fun x _ => ?_
    cases hh : e.holds (addressOf x.1) with
    | true => simp
    | false => simp [sharedPage_middle, maps_outside hh]
  · exact List.filter_congr fun x _ => Bool.and_comm _ _

theorem share_drop (nodes : List NodeEntry) (hlive : p.status = .live) (hes : p.entryList = front ++ e :: back) (i : ℕ) :
    Process.share nodes i { p with pd := d, entryList := front ++ back } +
      e.share i (paOf nodes i) p.pd ≤ p.share nodes i := by
  have hle : ∀ l : List VMEntry, (l.map (VMEntry.share i (paOf nodes i) d)).sum ≤
      (l.map (VMEntry.share i (paOf nodes i) p.pd)).sum := by
    intro l
    refine List.sum_le_sum fun a _ => ?_
    have hpages : pagesMapping d a (paOf nodes i) ≤ pagesMapping p.pd a (paOf nodes i) := by
      unfold pagesMapping
      rw [(pages_drop hal hlook).countP_eq]
      exact List.filter_sublist.countP_le
    unfold VMEntry.share
    split
    · exact max_le_max_left _ hpages
    · exact le_rfl
  have h₁ := hle front
  have h₂ := hle back
  unfold Process.share
  simp only [hlive, if_true, hes, List.map_append, List.map_cons, List.sum_append, List.sum_cons]
  omega

theorem ProcInv.drop (h : ProcInv cfg nodes nodeList p) (hes : p.entryList = front ++ e :: back) :
    ProcInv cfg nodes nodeList { p with pd := d, entryList := front ++ back } := by
  have hsub : ∀ a ∈ front ++ back, a ∈ p.entryList := by
    intro a ha
    rw [hes]
    exact (List.Sublist.append_left (List.sublist_cons_self _ _) _).subset ha
  refine ⟨fun a ha => h.known a (hsub a ha), fun x hx => ?_, fun hl => ?_,
    fun hl a ha => h.tied hl a (hsub a ha)⟩
  · exact h.devices x (List.mem_of_mem_filter ((pages_drop hal hlook).mem_iff.mp hx))
  · apply (hes ▸ h.paged hl).sublist
    exact List.Sublist.append_left (List.sublist_cons_self _ _) _

theorem FrameInv.dropKeep (h : FrameInv cfg m nodes nodeList (p :: rest)) (hlive : p.status = .live)
    (hes : p.entryList = front ++ e :: back)
    (hst : d.structureFrames.Perm p.pd.structureFrames) :
    FrameInv cfg m nodes nodeList ({ p with pd := d, entryList := front ++ back } :: rest) := by
  refine h.replace ?_ ((h.procs p List.mem_cons_self).drop hal hlook hes) fun i hi => ?_
  · have hl := h.ledger
    rw [List.flatMap_cons, owned_of_status (live_ne_destroyed hlive), hes] at hl
    rw [owned_of_status (p := { p with pd := d, entryList := front ++ back })
      (live_ne_destroyed hlive)]
    have hp := privateFrames_drop hal hlook nodes front back
    refine hl.forget (List.Subperm.append (List.Subperm.append
      (List.Subperm.append hst.subperm ?_) (List.Subperm.refl _)) (List.Subperm.refl _))
    exact (List.sublist_append_left _ _).subperm.trans hp.symm.subperm
  · have hc := h.counted i hi
    have hd := share_drop hal hlook nodes hlive hes i
    simp only [List.map_cons, List.sum_cons] at hc
    omega

omit hlook in
theorem framesAt_split (hd : DeviceOnly cfg p.pd) (hio : e.holds cfg.ioAPIC = false)
    (hlocal : e.holds cfg.localAPIC = false) (nodes : List NodeEntry) (es : List VMEntry) :
    (p.pd.framesAt e.pages).Perm
      (((p.pd.pages.filter fun x => (x.2.user && !sharedPage nodes es x) &&
        e.holds (addressOf x.1)).map fun x => x.2.frame) ++
      (p.pd.pages.filter fun x => (x.2.user && sharedPage nodes es x) &&
        e.holds (addressOf x.1)).map fun x => x.2.frame) := by
  have huser : ∀ x ∈ p.pd.pages, e.holds (addressOf x.1) = true → x.2.user = true := by
    intro x hx hin
    by_contra hu
    rcases hd x hx (by simpa using hu) with hg | hg
    · rw [hg, addressOf_pageOf cfg.io_aligned, hio] at hin
      cases hin
    · rw [hg, addressOf_pageOf cfg.local_aligned, hlocal] at hin
      cases hin
  have hsplit := (List.filter_append_perm (fun x => !sharedPage nodes es x)
    (p.pd.pages.filter fun x => e.holds (addressOf x.1))).map fun x => x.2.frame
  rw [List.map_append, List.filter_filter, List.filter_filter] at hsplit
  have hat : p.pd.framesAt e.pages =
      (p.pd.pages.filter fun x => e.holds (addressOf x.1)).map fun x => x.2.frame := by
    unfold PageDir.framesAt
    simp only [hal.mem_pages, Bool.decide_eq_true]
  rw [hat]
  refine hsplit.symm.trans (List.Perm.of_eq ?_)
  congr 1 <;>
  · refine congrArg _ (List.filter_congr fun x hx => ?_)
    cases hin : e.holds (addressOf x.1) with
    | false => simp
    | true => simp [huser x hx hin]

/-- The unmap loop with `physical`: the private pages of the entry go back to the allocator,
and with them the frames `shared` of its shared pages. -/
theorem FrameInv.free_pages (shared : List ℕ) {used : List ℕ}
    (h : FrameInv cfg m nodes nodeList (p :: rest)) (hlive : p.status = .live)
    (hes : p.entryList = front ++ e :: back) (hio : e.holds cfg.ioAPIC = false)
    (hlocal : e.holds cfg.localAPIC = false)
    (hst : d.structureFrames.Perm p.pd.structureFrames)
    (hshared : ((p.pd.pages.filter fun x => (x.2.user && sharedPage nodes p.entryList x) &&
      e.holds (addressOf x.1)).map fun x => x.2.frame).Subperm shared)
    (hused : (nodeList.map (paOf nodes)).Perm (shared ++ used)) :
    Ledger (p.pd.unmapAll m e.pages true).2
      (Process.owned nodes { p with pd := d, entryList := front ++ back } ++
        rest.flatMap (Process.owned nodes) ++ used) := by
  have hl := h.ledger
  rw [List.flatMap_cons, owned_of_status (live_ne_destroyed hlive), hes] at hl
  rw [hes] at hshared
  rw [owned_of_status (p := { p with pd := d, entryList := front ++ back }) (live_ne_destroyed hlive)]
  have hdrop := privateFrames_drop hal hlook nodes front back
  have hat := framesAt_split hal (h.procs p List.mem_cons_self).devices hio hlocal nodes
    (front ++ e :: back)
  refine PageDir.unmapAll_ledger (hl.forget ?_)
  refine List.Subperm.trans (List.Subperm.append (hat.subperm.trans (List.Subperm.append
    (List.Subperm.refl _) hshared)) (List.Subperm.refl _)) (List.Perm.subperm ?_)
  refine List.perm_iff_count.mpr fun f => ?_
  simp only [List.count_append, hdrop.count_eq, hst.count_eq, hused.count_eq]
  omega

end Drop

theorem shared_frames (hpaged : Paged p.entryList) (hes : p.entryList = front ++ e :: back) {n : ℕ}
    (hn : e.node = .set n) :
    ((p.pd.pages.filter fun x => (x.2.user && sharedPage nodes p.entryList x) &&
      e.holds (addressOf x.1)).map fun x => x.2.frame) =
      List.replicate (pagesMapping p.pd e (paOf nodes n)) (paOf nodes n) := by
  have hiff : ∀ x ∈ p.pd.pages, ((x.2.user && sharedPage nodes p.entryList x) &&
      e.holds (addressOf x.1)) =
      (x.2.user && e.holds (addressOf x.1) && x.2.frame == paOf nodes n) := by
    intro x _
    cases hin : e.holds (addressOf x.1) with
    | false => simp
    | true =>
      rw [shared_inside hpaged hes hin]
      cases x.2.user with
      | false => rfl
      | true =>
        rw [Bool.true_and, Bool.and_true, Bool.true_and, Bool.true_and, Bool.eq_iff_iff, maps_set hn,
          beq_iff_eq, eq_comm (a := x.2.frame)]
        exact and_iff_right hin
  rw [List.filter_congr hiff]
  refine List.eq_replicate_iff.mpr ⟨?_, ?_⟩
  · rw [List.length_map, ← List.countP_eq_length_filter]
    rfl
  · intro f hf
    obtain ⟨x, hx, rfl⟩ := List.mem_map.mp hf
    have := List.of_mem_filter hx
    simp only [Bool.and_eq_true, beq_iff_eq] at this
    exact this.2

theorem shared_frames_unset (hpaged : Paged p.entryList) (hes : p.entryList = front ++ e :: back)
    {w : NodePtr} (hn : e.node = .unset w) :
    (p.pd.pages.filter fun x => (x.2.user && sharedPage nodes p.entryList x) &&
      e.holds (addressOf x.1)) = [] := by
  refine List.filter_eq_nil_iff.mpr fun x _ hc => ?_
  simp only [Bool.and_eq_true] at hc
  rw [shared_inside hpaged hes hc.2, maps_unset hn] at hc
  simp at hc

theorem FrameInv.insert {a : VMEntry} {w : NodePtr} (h : FrameInv cfg m nodes nodeList (p :: rest))
    (hes : p.entryList = front ++ back) (ha : a.node = .unset w)
    (hpaged : Paged (front ++ a :: back)) :
    FrameInv cfg m nodes nodeList ({ p with entryList := front ++ a :: back } :: rest) := by
  have hp := h.procs p List.mem_cons_self
  have hold : ∀ b ∈ front ++ a :: back, ∀ n, b.node = .set n → b ∈ p.entryList := by
    intro b hb n hn
    rw [hes]
    simp only [List.mem_append, List.mem_cons] at hb ⊢
    rcases hb with hb | rfl | hb
    · exact Or.inl hb
    · rw [ha] at hn
      cases hn
    · exact Or.inr hb
  refine h.exchange ?_ ⟨fun b hb n hn => hp.known b (hold b hb n hn) n hn, hp.devices, fun _ => hpaged,
    fun hl b hb n hn => hp.tied hl b (hold b hb n hn) n hn⟩ fun n _ => ?_
  · unfold Process.owned
    refine congrArg _ (congrArg _ (privateFrames_congr fun x _ _ => ?_))
    rw [hes, sharedPage_middle, maps_unset ha, Bool.false_or]
  · apply le_of_eq
    have hzero : VMEntry.share n (paOf nodes n) p.pd a = 0 := by simp [VMEntry.share, ha]
    unfold Process.share
    simp only [hes, List.map_append, List.map_cons, List.sum_append, List.sum_cons, hzero,
      Nat.zero_add]

theorem FrameInv.dropLast {d : PageDir} {n : ℕ} {nodeList' : List ℕ} (hal : e.Aligned)
    (hlook : ∀ a, d.lookup a = if a ∈ e.pages.map pageOf then none else p.pd.lookup a)
    (h : FrameInv cfg m nodes nodeList (p :: rest)) (hlive : p.status = .live)
    (hes : p.entryList = front ++ e :: back) (hio : e.holds cfg.ioAPIC = false)
    (hlocal : e.holds cfg.localAPIC = false)
    (hst : d.structureFrames.Perm p.pd.structureFrames) (hn : e.node = .set n)
    (hone : numOf nodes n ≤ 1) (hlist : nodeList.Perm (n :: nodeList')) :
    FrameInv cfg (p.pd.unmapAll m e.pages true).2 nodes nodeList'
      ({ p with pd := d, entryList := front ++ back } :: rest) := by
  have hp := h.procs p List.mem_cons_self
  have hpaged := hp.paged hlive
  have hsub : nodeList' ⊆ nodeList := fun i hi => hlist.mem_iff.mpr (List.mem_cons_of_mem _ hi)
  have hcount := h.counted n (hlist.mem_iff.mpr List.mem_cons_self)
  have hdrop := share_drop hal hlook nodes hlive hes n
  simp only [List.map_cons, List.sum_cons] at hcount
  have hshare : e.share n (paOf nodes n) p.pd = max 1 (pagesMapping p.pd e (paOf nodes n)) := if_pos hn
  have hmapping : pagesMapping p.pd e (paOf nodes n) ≤ 1 := by omega
  have hlinked : ∀ i ∈ nodeList, i ≠ n → i ∈ nodeList' := fun i hi hne =>
    (List.mem_cons.mp (hlist.mem_iff.mp hi)).resolve_left hne
  have hproc := hp.drop hal hlook hes
  refine ⟨?_, ?_, fun i hi => h.linked i (hsub hi), fun i hi => ?_, fun q hq => ?_⟩
  · refine FrameInv.free_pages hal hlook [paOf nodes n] h hlive hes hio hlocal hst ?_ (hlist.map _)
    rw [shared_frames hpaged hes hn]
    refine List.Sublist.subperm (List.Sublist.trans ?_ (List.Sublist.refl (List.replicate 1 _)))
    exact List.replicate_sublist_replicate _ |>.mpr hmapping
  · have := (hlist.map (fileOf nodes)).nodup_iff.mp h.files
    exact (List.nodup_cons.mp this).2
  · have hc := h.counted i (hsub hi)
    have hd := share_drop hal hlook nodes hlive hes i
    simp only [List.map_cons, List.sum_cons] at hc ⊢
    omega
  · -- nobody else refers to `n`
    rcases List.mem_cons.mp hq with rfl | hq
    · refine ⟨hproc.known, hproc.devices, hproc.paged, fun hl a ha i hi => ?_⟩
      obtain ⟨hmem, hf⟩ := hproc.tied hl a ha i hi
      refine ⟨hlinked i hmem ?_, hf⟩
      rintro rfl
      have := share_pos nodes hl ha hi
      omega
    · have hq' := h.procs q (List.mem_cons_of_mem _ hq)
      refine ⟨hq'.known, hq'.devices, hq'.paged, fun hl a ha i hi => ?_⟩
      obtain ⟨hmem, hf⟩ := hq'.tied hl a ha i hi
      refine ⟨hlinked i hmem ?_, hf⟩
      rintro rfl
      have h₁ := share_pos nodes hl ha hi
      have h₂ : q.share nodes i ≤ (rest.map (Process.share nodes i)).sum :=
        List.single_le_sum (by simp) _ (List.mem_map.mpr ⟨q, hq, rfl⟩)
      omega

end Effects
end MMapKernel.Vmm
