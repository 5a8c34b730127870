import MMapKernel.Vmm.Nodes

/-!
# Coherence of shared mappings

Two present pages of one file at one offset, in shared entries of any processes, should
map one frame. The fault handler sees to it through `node_list`; `fork` does not, as it
copies every present page into a fresh frame, shared or not. `Coherent` holds along runs of
the mapping calls in which no such page is present at a `fork`.

A page counts as present when its entry has the user bit: the two device pages are present
for the kernel in every directory, whatever entry covers them.
-/

open Transition
namespace MMapKernel.Vmm

def VMEntry.fileOffset (e : VMEntry) (g : Page) : UInt32 :=
  e.offset + addressOf g - e.startingAddress

/-- Page `g` of the process lies in the shared mapping `e` of file `number` and is present in
frame `f`. -/
structure SharedPresent (p : Process) (e : VMEntry) (number : ℕ) (g : Page) (f : ℕ) : Prop where
  mem : e ∈ p.entryList
  shared : e.isShared = true
  file : e.file = some number
  inside : e.holds (addressOf g) = true
  present : p.pd.lookup g = some ⟨f, true⟩

def Coherent (k : Kernel) : Prop :=
  ∀ p₁ ∈ k.procs, ∀ p₂ ∈ k.procs, ∀ e₁ e₂ number g₁ g₂ f₁ f₂,
    SharedPresent p₁ e₁ number g₁ f₁ → SharedPresent p₂ e₂ number g₂ f₂ →
    e₁.fileOffset g₁ = e₂.fileOffset g₂ → f₁ = f₂

def Call.mapping : Call → Bool
  | .spawn | .mmap _ _ | .pageFault _ _ | .munmap _ _ _ | .fork _ _ => true
  | .exit _ | .kill _ | .tick _ | .destroy _ => false

def mappingKernels (cfg : Config) (files : FileSystem) : System Kernel Call :=
  (kernels cfg files).restrict fun _ c => c.mapping = true

/-- The condition on one call of process `p`: aligned requests that find room, counters that
do not overflow, no use of an uninitialised `node`, and at a `fork` no present page of the
parent in a shared mapping of a file. -/
def SharesBy (cfg : Config) (k : Kernel) (p : Process) : Call → Prop
  | .mmap _ a => a.hint.toNat % 4096 = 0 ∧ Accommodated cfg p.entryList (.mmap a)
  | .pageFault _ va => ∀ e number n x,
      p.entryList.find? (fun e => e.holds (framedown va)) = some e →
      e.sharedFile = some number → k.findNode number = some n → k.nodes[n]? = some x →
      x.numProcesses.toNat + 1 < 2 ^ 32
  | .munmap _ addr _ => isSpecial cfg addr = false →
      ∀ e rest, takeEntry addr p.entryList = some (e, rest) → e.Settled
  | .fork _ slot => slot = true → (∀ e ∈ p.entryList, e.Settled) ∧
      (∀ n ∈ k.nodeList, ∀ x, k.nodes[n]? = some x →
        x.numProcesses.toNat + references n p.entryList < 2 ^ 32) ∧
      ∀ e number g f, ¬ SharedPresent p e number g f
  | .spawn | .exit _ | .kill _ | .tick _ | .destroy _ => True

def Shares (cfg : Config) (k : Kernel) (c : Call) : Prop :=
  ∀ pid p, c.pid = some pid → k.procs[pid]? = some p → SharesBy cfg k p c

def ties (n : ℕ) (es : List VMEntry) : ℕ := es.countP fun e => e.node = .set n

structure ProcShares (cfg : Config) (nodes : List NodeEntry) (nodeList : List ℕ) (p : Process) :
    Prop where
  devices : DeviceOnly cfg p.pd
  tied : ∀ e ∈ p.entryList, ∀ n, e.node = .set n → n ∈ nodeList ∧ e.sharedFile = fileOf nodes n
  mapped : ∀ e ∈ p.entryList, e.sharedFile ≠ none → ∀ x ∈ p.pd.pages, x.2.user = true →
    e.holds (addressOf x.1) = true → ∃ n, e.node = .set n ∧ paOf nodes n = x.2.frame
  paged : p.status = .live → Paged p.entryList
  covered : p.status = .live → ∀ x ∈ p.pd.pages, x.2.user = true →
    ∃ e ∈ p.entryList, e.holds (addressOf x.1) = true

structure ShareInv (cfg : Config) (nodes : List NodeEntry) (nodeList : List ℕ)
    (procs : List Process) : Prop where
  files : (nodeList.map (fileOf nodes)).Nodup
  linked : ∀ n ∈ nodeList, n < nodes.length
  counted : ∀ n ∈ nodeList, (procs.map fun p => ties n p.entryList).sum ≤ numOf nodes n
  procs : ∀ p ∈ procs, ProcShares cfg nodes nodeList p

section Effects
variable {cfg : Config} {nodes nodes' : List NodeEntry} {nodeList : List ℕ}
  {procs procs' rest : List Process} {p p' : Process} {front back : List VMEntry} {e : VMEntry}

theorem sharedFile_ne_none {number : ℕ} (hs : e.isShared = true) (hf : e.file = some number) :
    e.sharedFile = some number := by
  rw [VMEntry.sharedFile, if_pos hs, hf]

theorem ties_append (n : ℕ) (front back : List VMEntry) :
    ties n (front ++ back) = ties n front + ties n back := List.countP_append

theorem ties_cons (n : ℕ) (e : VMEntry) (es : List VMEntry) :
    ties n (e :: es) = ties n es + if e.node = .set n then 1 else 0 := by
  simp [ties, List.countP_cons]

theorem ties_store (n i : ℕ) (front back : List VMEntry) (e : VMEntry) :
    ties i (front ++ { e with node := .set n } :: back) ≤
      ties i (front ++ e :: back) + if n = i then 1 else 0 := by
  have hnew : NodeField.set n = .set i ↔ n = i := ⟨NodeField.set.inj, congrArg _⟩
  simp only [ties_append, ties_cons, hnew]
  omega

theorem ties_eq_zero {n : ℕ} {es : List VMEntry} :
    ties n es = 0 ↔ ∀ e ∈ es, e.node ≠ .set n := by
  simp [ties, List.countP_eq_zero]

namespace ShareInv

theorem perm (h : ShareInv cfg nodes nodeList procs) (hp : procs.Perm procs') :
    ShareInv cfg nodes nodeList procs' where
  files := h.files
  linked := h.linked
  counted n hn := by
    rw [← (hp.map fun p => ties n p.entryList).sum_eq]
    exact h.counted n hn
  procs p hp' := h.procs p (hp.mem_iff.mpr hp')

theorem file_injective (h : ShareInv cfg nodes nodeList procs) {a b : ℕ} (ha : a ∈ nodeList)
    (hb : b ∈ nodeList) (hf : fileOf nodes a = fileOf nodes b) : a = b :=
  List.inj_on_of_nodup_map h.files ha hb hf

theorem coherent {k : Kernel} (h : ShareInv cfg k.nodes k.nodeList k.procs) : Coherent k := by
  intro p₁ hp₁ p₂ hp₂ e₁ e₂ number g₁ g₂ f₁ f₂ h₁ h₂ _
  have hs₁ := sharedFile_ne_none h₁.shared h₁.file
  have hs₂ := sharedFile_ne_none h₂.shared h₂.file
  obtain ⟨n₁, hn₁, hf₁⟩ := (h.procs p₁ hp₁).mapped e₁ h₁.mem (by simp [hs₁]) (g₁, ⟨f₁, true⟩)
    (PageDir.mem_pages.mpr h₁.present) rfl h₁.inside
  obtain ⟨n₂, hn₂, hf₂⟩ := (h.procs p₂ hp₂).mapped e₂ h₂.mem (by simp [hs₂]) (g₂, ⟨f₂, true⟩)
    (PageDir.mem_pages.mpr h₂.present) rfl h₂.inside
  obtain ⟨hl₁, hfile₁⟩ := (h.procs p₁ hp₁).tied e₁ h₁.mem n₁ hn₁
  obtain ⟨hl₂, hfile₂⟩ := (h.procs p₂ hp₂).tied e₂ h₂.mem n₂ hn₂
  have hn : n₁ = n₂ := h.file_injective hl₁ hl₂ (by rw [← hfile₁, ← hfile₂, hs₁, hs₂])
  rw [← hn] at hf₂
  exact hf₁.symm.trans hf₂

theorem add (h : ShareInv cfg nodes nodeList procs) (hp : ProcShares cfg nodes nodeList p)
    (hcount : ∀ n ∈ nodeList, ties n p.entryList + (procs.map fun q => ties n q.entryList).sum ≤
      numOf nodes n) : ShareInv cfg nodes nodeList (p :: procs) where
  files := h.files
  linked := h.linked
  counted := hcount
  procs q hq := by
    rcases List.mem_cons.mp hq with rfl | hq
    · exact hp
    · exact h.procs q hq

theorem exchange (h : ShareInv cfg nodes nodeList (p :: rest)) (hp' : ProcShares cfg nodes nodeList p')
    (hties : ∀ n ∈ nodeList, ties n p'.entryList ≤ ties n p.entryList) :
    ShareInv cfg nodes nodeList (p' :: rest) where
  files := h.files
  linked := h.linked
  counted n hn := by
    have hc := h.counted n hn
    have ht := hties n hn
    simp only [List.map_cons, List.sum_cons] at hc ⊢
    omega
  procs q hq := by
    rcases List.mem_cons.mp hq with rfl | hq
    · exact hp'
    · exact h.procs q (List.mem_cons_of_mem _ hq)

theorem stop (h : ShareInv cfg nodes nodeList (p :: rest)) :
    ShareInv cfg nodes nodeList (p.stopped :: rest) := by
  have hp := h.procs p List.mem_cons_self
  refine h.exchange ⟨hp.devices, hp.tied, hp.mapped, fun h => ?_, fun h => ?_⟩ fun _ _ => le_rfl
  · cases h
  · cases h

theorem recount (h : ShareInv cfg nodes nodeList procs) (hs : SameFrames nodes nodes')
    (hc : ∀ n ∈ nodeList, (procs.map fun p => ties n p.entryList).sum ≤ numOf nodes' n) :
    ShareInv cfg nodes' nodeList procs where
  files := by
    rw [funext hs.fileOf]
    exact h.files
  linked n hn := (hs.length n).mpr (h.linked n hn)
  counted := hc
  procs p hp := by
    have hp' := h.procs p hp
    refine ⟨hp'.devices, fun e he n hn => ?_, fun e he hf x hx hu hin => ?_, hp'.paged, hp'.covered⟩
    · rw [hs.fileOf]
      exact hp'.tied e he n hn
    · obtain ⟨n, hn, hpa⟩ := hp'.mapped e he hf x hx hu hin
      exact ⟨n, hn, (hs.paOf n).trans hpa⟩

theorem unlink {n : ℕ} {nodeList' : List ℕ} (h : ShareInv cfg nodes nodeList procs)
    (hlist : nodeList.Perm (n :: nodeList')) (hzero : ∀ p ∈ procs, ties n p.entryList = 0) :
    ShareInv cfg nodes nodeList' procs := by
  have hsub : nodeList' ⊆ nodeList := fun i hi => hlist.mem_iff.mpr (List.mem_cons_of_mem _ hi)
  refine ⟨?_, fun i hi => h.linked i (hsub hi), fun i hi => h.counted i (hsub hi), fun p hp => ?_⟩
  · exact (List.nodup_cons.mp ((hlist.map (fileOf nodes)).nodup_iff.mp h.files)).2
  · have hp' := h.procs p hp
    refine ⟨hp'.devices, fun e he i hi => ?_, hp'.mapped, hp'.paged, hp'.covered⟩
    obtain ⟨hmem, hf⟩ := hp'.tied e he i hi
    refine ⟨(List.mem_cons.mp (hlist.mem_iff.mp hmem)).resolve_left ?_, hf⟩
    rintro rfl
    exact ties_eq_zero.mp (hzero p hp) e he hi

theorem link {number : ℕ} (pa : ℕ) (h : ShareInv cfg nodes nodeList procs)
    (hnew : ∀ n ∈ nodeList, fileOf nodes n ≠ some number) :
    ShareInv cfg (nodes ++ [⟨number, 1, pa⟩]) (nodeList ++ [nodes.length]) procs ∧
    (procs.map fun p => ties nodes.length p.entryList).sum = 0 := by
  have hnone : (procs.map fun p => ties nodes.length p.entryList).sum = 0 := by
    refine List.sum_eq_zero fun s hs => ?_
    obtain ⟨q, hq, rfl⟩ := List.mem_map.mp hs
    refine ties_eq_zero.mpr fun e he hn => ?_
    exact lt_irrefl _ (h.linked _ ((h.procs q hq).tied e he _ hn).1)
  refine ⟨⟨files_link h.linked h.files hnew, linked_link h.linked,
    covered_link h.counted _ h.linked hnone, fun q hq => ?_⟩, hnone⟩
  have hq' := h.procs q hq
  refine ⟨hq'.devices, fun e he n hn => ?_, fun e he hf x hx hu hin => ?_, hq'.paged, hq'.covered⟩
  · obtain ⟨hmem, hf⟩ := hq'.tied e he n hn
    exact ⟨List.mem_append_left _ hmem, hf.trans (fileOf_append _ (h.linked n hmem)).symm⟩
  · obtain ⟨n, hn, hpn⟩ := hq'.mapped e he hf x hx hu hin
    exact ⟨n, hn, (paOf_append _ (h.linked n (hq'.tied e he n hn).1)).trans hpn⟩

end ShareInv

theorem ProcShares.insert {a : VMEntry} {w : NodePtr} (h : ProcShares cfg nodes nodeList p)
    (hlive : p.status = .live) (hes : p.entryList = front ++ back) (ha : a.node = .unset w)
    (hpaged : Paged (front ++ a :: back)) :
    ProcShares cfg nodes nodeList { p with entryList := front ++ a :: back } := by
  have hmem : ∀ b, b ∈ front ++ a :: back ↔ b = a ∨ b ∈ p.entryList := by
    intro b
    rw [hes]
    simp only [List.mem_append, List.mem_cons]
    tauto
  refine ⟨h.devices, fun b hb n hn => ?_, fun b hb hf x hx hu hin => ?_, fun _ => hpaged,
    fun hl x hx hu => ?_⟩
  · rcases (hmem b).mp hb with rfl | hb
    · rw [ha] at hn
      cases hn
    · exact h.tied b hb n hn
  · rcases (hmem b).mp hb with rfl | hb
    · -- its region had no pages
      obtain ⟨c, hc, hin'⟩ := h.covered hlive x hx hu
      rw [hes] at hc
      rw [hpaged.holds_unique hin c hc] at hin'
      cases hin'
    · exact h.mapped b hb hf x hx hu hin
  · obtain ⟨c, hc, hin⟩ := h.covered hl x hx hu
    exact ⟨c, (hmem c).mpr (Or.inr hc), hin⟩

section NewPage
variable {d : PageDir} {g : Page} {pa : ℕ} (h : ProcShares cfg nodes nodeList p)
  (hlive : p.status = .live) (hes : p.entryList = front ++ e :: back)
  (he : e.holds (addressOf g) = true)
  (hlook : ∀ a, d.lookup a = if a = g then some ⟨pa, true⟩ else p.pd.lookup a)
include h hlive hes he hlook

omit h hlive hes he in
theorem mem_newPage {x : Page × Pte} (hx : x ∈ d.pages) : x = (g, ⟨pa, true⟩) ∨ x ∈ p.pd.pages :=
  (List.mem_cons.mp ((PageDir.pages_perm_of_lookup hlook).mem_iff.mp hx)).imp_right
    List.mem_of_mem_filter

theorem ProcShares.mapPrivate (hf : e.sharedFile = none) :
    ProcShares cfg nodes nodeList { p with pd := d } := by
  have hpaged := h.paged hlive
  rw [hes] at hpaged
  refine ⟨devices_newPage hlook rfl h.devices, h.tied, fun a ha haf x hx hu hin => ?_, h.paged,
    fun hl x hx hu => ?_⟩
  · rcases mem_newPage hlook hx with rfl | hx
    · rw [hes] at ha
      simp only [List.mem_append, List.mem_cons] at ha
      have hother : a ∈ front ++ back → False := fun ha => by
        rw [hpaged.holds_unique he a ha] at hin
        cases hin
      rcases ha with ha | rfl | ha
      · exact (hother (List.mem_append_left _ ha)).elim
      · exact absurd hf haf
      · exact (hother (List.mem_append_right _ ha)).elim
    · exact h.mapped a ha haf x hx hu hin
  · rcases mem_newPage hlook hx with rfl | hx
    · exact ⟨e, hes ▸ List.mem_append_right _ List.mem_cons_self, he⟩
    · exact h.covered hl x hx hu

theorem ProcShares.mapShared {n : ℕ} (hn : n ∈ nodeList) (hfile : e.sharedFile = fileOf nodes n)
    (hold : ∀ i, e.node = .set i → i = n) (hpa : paOf nodes n = pa) (hsome : e.sharedFile ≠ none) :
    ProcShares cfg nodes nodeList
      { p with pd := d, entryList := front ++ { e with node := .set n } :: back } := by
  have hpaged := h.paged hlive
  rw [hes] at hpaged
  have hmem : e ∈ p.entryList := hes ▸ List.mem_append_right _ List.mem_cons_self
  have hcase : ∀ a ∈ front ++ { e with node := .set n } :: back,
      a = { e with node := .set n } ∨ (a ∈ front ++ back ∧ a ∈ p.entryList) := by
    intro a ha
    rw [hes]
    simp only [List.mem_append, List.mem_cons] at ha ⊢
    tauto
  refine ⟨devices_newPage hlook rfl h.devices, fun a ha i hi => ?_, fun a ha haf x hx hu hin => ?_,
    fun _ => hpaged.exchange rfl rfl, fun hl x hx hu => ?_⟩
  · rcases hcase a ha with rfl | ⟨-, ha⟩
    · cases hi
      exact ⟨hn, hfile⟩
    · exact h.tied a ha i hi
  · rcases hcase a ha with rfl | ⟨ha', ha⟩
    · rcases mem_newPage hlook hx with rfl | hx
      · exact ⟨n, rfl, hpa⟩
      · obtain ⟨i, hi, hpi⟩ := h.mapped e hmem hsome x hx hu hin
        exact ⟨n, rfl, hold i hi ▸ hpi⟩
    · rcases mem_newPage hlook hx with rfl | hx
      · rw [hpaged.holds_unique he a ha'] at hin
        cases hin
      · exact h.mapped a ha haf x hx hu hin
  · rcases mem_newPage hlook hx with rfl | hx
    · exact ⟨_, List.mem_append_right _ List.mem_cons_self, he⟩
    · obtain ⟨a, ha, hin⟩ := h.covered hl x hx hu
      rw [hes] at ha
      simp only [List.mem_append, List.mem_cons] at ha
      rcases ha with ha | rfl | ha
      · exact ⟨a, List.mem_append_left _ ha, hin⟩
      · exact ⟨_, List.mem_append_right _ List.mem_cons_self, hin⟩
      · exact ⟨a, List.mem_append_right _ (List.mem_cons_of_mem _ ha), hin⟩

end NewPage

theorem ProcShares.drop {d : PageDir} (h : ProcShares cfg nodes nodeList p) (hal : e.Aligned)
    (hes : p.entryList = front ++ e :: back)
    (hlook : ∀ a, d.lookup a = if a ∈ e.pages.map pageOf then none else p.pd.lookup a) :
    ProcShares cfg nodes nodeList { p with pd := d, entryList := front ++ back } := by
  have hsub : (front ++ back).Sublist p.entryList := by
    rw [hes]
    exact List.Sublist.append_left (List.sublist_cons_self _ _) _
  have hpages : ∀ x ∈ d.pages, x ∈ p.pd.pages ∧ e.holds (addressOf x.1) ≠ true := by
    intro x hx
    have := (pages_drop hal hlook).mem_iff.mp hx
    exact ⟨List.mem_of_mem_filter this, by simpa using List.of_mem_filter this⟩
  refine ⟨fun x hx => h.devices x (hpages x hx).1, fun a ha => h.tied a (hsub.subset ha),
    fun a ha hf x hx => h.mapped a (hsub.subset ha) hf x (hpages x hx).1,
    fun hl => (h.paged hl).sublist hsub, fun hl x hx hu => ?_⟩
  obtain ⟨a, ha, hin⟩ := h.covered hl x (hpages x hx).1 hu
  rw [hes] at ha
  simp only [List.mem_append, List.mem_cons] at ha
  rcases ha with ha | rfl | ha
  · exact ⟨a, List.mem_append_left _ ha, hin⟩
  · exact absurd hin (hpages x hx).2
  · exact ⟨a, List.mem_append_right _ ha, hin⟩

end Effects
end MMapKernel.Vmm
