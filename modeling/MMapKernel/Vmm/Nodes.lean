import MMapKernel.Vmm.KernelSteps

/-!
# Nodes, counters and pages

What frame safety and sharing both use: the frame, file and counter of a `NodeEntry`, how
counters move without touching the rest, and how the pages of a directory change.
-/

namespace MMapKernel.Vmm

def paOf (nodes : List NodeEntry) (n : ℕ) : ℕ := ((nodes[n]?).map NodeEntry.pa).getD 0

def fileOf (nodes : List NodeEntry) (n : ℕ) : Option ℕ := (nodes[n]?).map NodeEntry.file

def numOf (nodes : List NodeEntry) (n : ℕ) : ℕ :=
  ((nodes[n]?).map fun x => x.numProcesses.toNat).getD 0

section Nodes
variable {nodes nodes' : List NodeEntry}

def SameFrames (nodes nodes' : List NodeEntry) : Prop :=
  ∀ n : ℕ, (nodes'[n]?).map (fun x : NodeEntry => (x.file, x.pa)) =
    (nodes[n]?).map fun x : NodeEntry => (x.file, x.pa)

theorem sameFrames_modify (nodes : List NodeEntry) (n : ℕ) (f : UInt32 → UInt32) :
    SameFrames nodes (nodes.modify n (count f)) := by
  intro i
  rw [List.getElem?_modify]
  cases nodes[i]? with
  | none => rfl
  | some x => by_cases h : n = i <;> simp [h, count]

theorem sameFrames_adjustAll {f : UInt32 → UInt32} {es : List VMEntry}
    (h : adjustAll f nodes es = some nodes') : SameFrames nodes nodes' := by
  intro i
  rw [(adjustAll_spec h).2, Option.map_map]
  refine congrArg (fun g => Option.map g nodes[i]?) (funext fun x => ?_)
  simp [count_iterate]

theorem SameFrames.paOf (h : SameFrames nodes nodes') (n : ℕ) :
    Vmm.paOf nodes' n = Vmm.paOf nodes n := by
  have := congrArg (Option.map Prod.snd) (h n)
  simp only [Option.map_map, Function.comp_def] at this
  rw [Vmm.paOf, Vmm.paOf, this]

theorem SameFrames.fileOf (h : SameFrames nodes nodes') (n : ℕ) :
    Vmm.fileOf nodes' n = Vmm.fileOf nodes n := by
  have := congrArg (Option.map Prod.fst) (h n)
  simp only [Option.map_map, Function.comp_def] at this
  exact this

theorem SameFrames.length (h : SameFrames nodes nodes') (n : ℕ) :
    n < nodes'.length ↔ n < nodes.length := by
  have := congrArg Option.isSome (h n)
  rw [Option.isSome_map, Option.isSome_map, Bool.eq_iff_iff] at this
  simpa using this

theorem numOf_modify {n i : ℕ} {x : NodeEntry} (f : UInt32 → UInt32) (hx : nodes[i]? = some x) :
    numOf (nodes.modify n (count f)) i =
      if n = i then (f x.numProcesses).toNat else x.numProcesses.toNat := by
  rw [numOf, List.getElem?_modify, hx]
  by_cases h : n = i <;> simp [h, count]

theorem numOf_adjustAll {f : UInt32 → UInt32} {es : List VMEntry} {i : ℕ} {x : NodeEntry}
    (h : adjustAll f nodes es = some nodes') (hx : nodes[i]? = some x) :
    numOf nodes' i = (f^[references i es] x.numProcesses).toNat := by
  rw [numOf, (adjustAll_spec h).2, hx]
  simp [count_iterate]

theorem numOf_eq {i : ℕ} {x : NodeEntry} (hx : nodes[i]? = some x) :
    numOf nodes i = x.numProcesses.toNat := by
  simp [numOf, hx]

theorem numOf_modify_ne {n i : ℕ} (f : UInt32 → UInt32) (h : n ≠ i) :
    numOf (nodes.modify n (count f)) i = numOf nodes i := by
  rw [numOf, numOf, List.getElem?_modify_ne _ _ h]

theorem numOf_bump {n i : ℕ} {x : NodeEntry} (hx : nodes[n]? = some x)
    (hfit : x.numProcesses.toNat + 1 < 2 ^ 32) :
    numOf (nodes.modify n (count (· + 1))) i = numOf nodes i + if n = i then 1 else 0 := by
  cases hy : nodes[i]? with
  | none =>
    have hne : n ≠ i := by
      rintro rfl
      rw [hx] at hy
      cases hy
    simp [numOf, hy, hne]
  | some y =>
    rw [numOf_modify _ hy, numOf_eq hy]
    split
    · rename_i hni
      subst hni
      rw [hx] at hy
      cases hy
      exact add_iterate 1 x.numProcesses hfit
    · rfl

theorem bumped {n : ℕ} {x : NodeEntry} (hx : nodes[n]? = some x)
    (hfit : x.numProcesses.toNat + 1 < 2 ^ 32) :
    paOf (nodes.modify n (count (· + 1))) n = x.pa ∧
    fileOf (nodes.modify n (count (· + 1))) n = fileOf nodes n ∧
    numOf (nodes.modify n (count (· + 1))) n = numOf nodes n + 1 := by
  have hsame := sameFrames_modify nodes n (· + 1)
  refine ⟨?_, hsame.fileOf n, by rw [numOf_bump hx hfit, if_pos rfl]⟩
  rw [hsame.paOf]
  simp [paOf, hx]

theorem appended (nodes : List NodeEntry) (number pa : ℕ) :
    paOf (nodes ++ [⟨number, 1, pa⟩]) nodes.length = pa ∧
    fileOf (nodes ++ [⟨number, 1, pa⟩]) nodes.length = some number ∧
    numOf (nodes ++ [⟨number, 1, pa⟩]) nodes.length = 1 := by
  simp [paOf, fileOf, numOf]

theorem unlink_perm {nodeList : List ℕ} {n number : ℕ}
    (hnd : (nodeList.map (fileOf nodes)).Nodup) (hn : n ∈ nodeList)
    (hf : fileOf nodes n = some number) :
    nodeList.Perm (n :: nodeList.eraseP fun i => fileOf nodes i = some number) := by
  obtain ⟨a, l₁, l₂, -, ha, hl, he⟩ := List.exists_of_eraseP
    (p := fun i => decide (fileOf nodes i = some number)) hn (by simpa using hf)
  have haf : fileOf nodes a = some number := by simpa using ha
  have hmem : a ∈ nodeList := by simp [hl]
  obtain rfl := List.inj_on_of_nodup_map hnd hmem hn (haf.trans hf.symm)
  rw [he, hl]
  exact List.perm_middle

theorem numOf_fork {es : List VMEntry} {n : ℕ} {x : NodeEntry}
    (h : adjustAll (· + 1) nodes es = some nodes') (hx : nodes[n]? = some x)
    (hfit : x.numProcesses.toNat + references n es < 2 ^ 32) :
    numOf nodes' n = numOf nodes n + references n es := by
  rw [numOf_adjustAll h hx, add_iterate _ _ hfit, numOf_eq hx]

theorem numOf_forked {nodeList : List ℕ} {es : List VMEntry}
    (h : adjustAll (· + 1) nodes es = some nodes') (hlinked : ∀ n ∈ nodeList, n < nodes.length)
    (hfit : ∀ n ∈ nodeList, ∀ x, nodes[n]? = some x →
      x.numProcesses.toNat + references n es < 2 ^ 32) :
    ∀ n ∈ nodeList, numOf nodes' n = numOf nodes n + references n es := by
  intro n hn
  obtain ⟨x, hx⟩ : ∃ x, nodes[n]? = some x := ⟨_, List.getElem?_eq_getElem (hlinked n hn)⟩
  exact numOf_fork h hx (hfit n hn x hx)

theorem paOf_append {n : ℕ} (x : NodeEntry) (hn : n < nodes.length) :
    paOf (nodes ++ [x]) n = paOf nodes n := by
  rw [paOf, paOf, List.getElem?_append_left hn]

theorem fileOf_append {n : ℕ} (x : NodeEntry) (hn : n < nodes.length) :
    fileOf (nodes ++ [x]) n = fileOf nodes n := by
  rw [fileOf, fileOf, List.getElem?_append_left hn]

theorem files_link {nodeList : List ℕ} {x : NodeEntry} (hlinked : ∀ n ∈ nodeList, n < nodes.length)
    (hfiles : (nodeList.map (fileOf nodes)).Nodup)
    (hnew : ∀ n ∈ nodeList, fileOf nodes n ≠ some x.file) :
    ((nodeList ++ [nodes.length]).map (fileOf (nodes ++ [x]))).Nodup := by
  rw [List.map_append, List.map_congr_left fun n hn => fileOf_append x (hlinked n hn)]
  refine List.nodup_append.mpr ⟨hfiles, List.nodup_singleton _, ?_⟩
  intro a ha b hb
  obtain ⟨n, hn, rfl⟩ := List.mem_map.mp ha
  rw [List.mem_singleton.mp hb]
  simpa [fileOf] using hnew n hn

theorem linked_link {nodeList : List ℕ} {x : NodeEntry} (hlinked : ∀ n ∈ nodeList, n < nodes.length) :
    ∀ n ∈ nodeList ++ [nodes.length], n < (nodes ++ [x]).length := by
  intro n hn
  rw [List.length_append, List.length_singleton]
  rcases List.mem_append.mp hn with hn | hn
  · exact (hlinked n hn).trans (Nat.lt_succ_self _)
  · rw [List.mem_singleton.mp hn]
    exact Nat.lt_succ_self _

section Covered
variable {nodeList : List ℕ} {refs : ℕ → ℕ} {es : List VMEntry} {n : ℕ} {x : NodeEntry}
  (h : ∀ i ∈ nodeList, refs i ≤ numOf nodes i)
include h

theorem covered_link (y : NodeEntry) (hlinked : ∀ i ∈ nodeList, i < nodes.length)
    (hzero : refs nodes.length = 0) :
    ∀ i ∈ nodeList ++ [nodes.length], refs i ≤ numOf (nodes ++ [y]) i := by
  intro i hi
  rcases List.mem_append.mp hi with hi | hi
  · rw [numOf, List.getElem?_append_left (hlinked i hi)]
    exact h i hi
  · rw [List.mem_singleton.mp hi, hzero]
    exact Nat.zero_le _

theorem covered_bump (hx : nodes[n]? = some x) (hfit : x.numProcesses.toNat + 1 < 2 ^ 32) :
    ∀ i ∈ nodeList, refs i ≤ numOf (nodes.modify n (count (· + 1))) i := by
  intro i hi
  rw [numOf_bump hx hfit]
  exact (h i hi).trans (Nat.le_add_right _ _)

theorem covered_release (hx : nodes[n]? = some x) (hn : refs n + 1 ≤ x.numProcesses.toNat) :
    ∀ i ∈ nodeList, refs i ≤ numOf (nodes.modify n (count (· - 1))) i := by
  intro i hi
  by_cases hni : n = i
  · subst hni
    rw [numOf_modify _ hx, if_pos rfl, sub_one_toNat (by omega)]
    omega
  · rw [numOf_modify_ne _ hni]
    exact h i hi

theorem covered_fork (hadj : adjustAll (· + 1) nodes es = some nodes')
    (hlinked : ∀ i ∈ nodeList, i < nodes.length)
    (hfit : ∀ i ∈ nodeList, ∀ x, nodes[i]? = some x →
      x.numProcesses.toNat + references i es < 2 ^ 32) :
    ∀ i ∈ nodeList, refs i ≤ numOf nodes' i := by
  intro i hi
  rw [numOf_forked hadj hlinked hfit i hi]
  exact (h i hi).trans (Nat.le_add_right _ _)

omit h

theorem covered_exit (hadj : adjustAll (· - 1) nodes es = some nodes')
    (hlinked : ∀ i ∈ nodeList, i < nodes.length)
    (hle : ∀ i ∈ nodeList, refs i + references i es ≤ numOf nodes i) :
    ∀ i ∈ nodeList, refs i ≤ numOf nodes' i := by
  intro i hi
  have hx := List.getElem?_eq_getElem (hlinked i hi)
  have hi := hle i hi
  rw [numOf_eq hx] at hi
  rw [numOf_adjustAll hadj hx, sub_iterate _ _ (by omega)]
  omega

theorem covered_store {weight : ℕ → Process → ℕ} {p p' : Process} {rest : List Process}
    (h : ∀ i ∈ nodeList, ((p :: rest).map (weight i)).sum ≤ numOf nodes i)
    (hp' : ∀ i, weight i p' ≤ weight i p + if n = i then 1 else 0)
    (hroom : ((p :: rest).map (weight n)).sum + 1 ≤ numOf nodes n) :
    ∀ i ∈ nodeList, ((p' :: rest).map (weight i)).sum ≤ numOf nodes i := by
  intro i hi
  have hc := h i hi
  have hone := hp' i
  simp only [List.map_cons, List.sum_cons] at hc hroom ⊢
  by_cases hni : n = i
  · subst hni
    rw [if_pos rfl] at hone
    omega
  · rw [if_neg hni] at hone
    omega

end Covered
end Nodes

theorem settled_entry {e : VMEntry} {n : ℕ} (h : e.Settled) (hv : e.node.value = .entry n) :
    e.node = .set n := by
  cases hn : e.node with
  | set i =>
    rw [hn] at hv
    rw [NodePtr.entry.inj hv]
  | unset w =>
    have := h w hn
    subst this
    rw [hn] at hv
    cases hv

theorem references_eq {es : List VMEntry} (h : ∀ e ∈ es, e.Settled) (n : ℕ) :
    references n es = (es.map fun e => if e.node = .set n then 1 else 0).sum := by
  induction es with
  | nil => rfl
  | cons e es ih =>
    have he := h e List.mem_cons_self
    have hiff : e.node.value = .entry n ↔ e.node = .set n :=
      ⟨settled_entry he, fun hn => by rw [hn]; rfl⟩
    rw [references_cons, ih fun a ha => h a (List.mem_cons_of_mem _ ha), List.map_cons, List.sum_cons]
    simp only [hiff]
    omega

theorem mem_middle {front back : List VMEntry} {a e e' : VMEntry} (h : a ∈ front ++ e' :: back) :
    a = e' ∨ a ∈ front ++ e :: back := by
  simp only [List.mem_append, List.mem_cons] at h ⊢
  tauto

def DeviceOnly (cfg : Config) (d : PageDir) : Prop :=
  ∀ x ∈ d.pages, x.2.user = false → x.1 = pageOf cfg.ioAPIC ∨ x.1 = pageOf cfg.localAPIC

theorem devices_newPage {cfg : Config} {d d' : PageDir} {g : Page} {pte : Pte}
    (h : ∀ a, d'.lookup a = if a = g then some pte else d.lookup a)
    (hu : pte.user = true) (hd : DeviceOnly cfg d) : DeviceOnly cfg d' := by
  intro x hx hxu
  rcases List.mem_cons.mp ((PageDir.pages_perm_of_lookup h).mem_iff.mp hx) with rfl | hx
  · rw [hu] at hxu
    cases hxu
  · exact hd x (List.mem_of_mem_filter hx) hxu

theorem pages_drop {d d' : PageDir} {e : VMEntry} (hal : e.Aligned)
    (hlook : ∀ a, d'.lookup a = if a ∈ e.pages.map pageOf then none else d.lookup a) :
    d'.pages.Perm (d.pages.filter fun x => ¬ e.holds (addressOf x.1) = true) := by
  refine PageDir.pages_erased_of_lookup (P := fun a => e.holds (addressOf a) = true) fun a => ?_
  rw [hlook]
  simp only [hal.mem_pages]

theorem forked_pages {cfg : Config} {parent d child : PageDir} {m m₁ m' : PhysMem}
    (hparent : DeviceOnly cfg parent) (hd : PageDir.makePd cfg m = some (d, m₁))
    (hcopy : parent.copyUser d m₁ = some (child, m')) :
    DeviceOnly cfg child ∧
    ∀ x ∈ child.pages, x.2.user = true → ∃ f, parent.lookup x.1 = some ⟨f, true⟩ := by
  obtain ⟨hsup, hdev, -⟩ := PageDir.makePd_spec hd
  have hcopied := (PageDir.copyUser_spec hcopy).1
  refine ⟨fun x hx hu => ?_, fun x hx hu => ?_⟩
  · rcases hcopied.origin _ _ (PageDir.mem_pages.mp hx) with h | ⟨-, h, -⟩
    · exact (hdev x.1).mp (Option.isSome_iff_exists.mpr ⟨_, h⟩)
    · rw [hu] at h
      cases h
  · rcases hcopied.origin _ _ (PageDir.mem_pages.mp hx) with h | ⟨hnone, -, hp⟩
    · rw [hsup _ _ h] at hu
      cases hu
    · obtain ⟨⟨f, user⟩, hq⟩ := Option.isSome_iff_exists.mp hp
      cases user with
      | true => exact ⟨f, hq⟩
      | false =>
        have := (hdev x.1).mpr (hparent (x.1, ⟨f, false⟩) (PageDir.mem_pages.mpr hq) rfl)
        rw [hnone] at this
        cases this

end MMapKernel.Vmm
