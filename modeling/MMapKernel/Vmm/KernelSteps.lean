import MMapKernel.Vmm.Paged

/-!
# What the kernel calls can do

One inversion lemma for each call: everything a successful call can have done, with the
guards it passed. Later modules argue from these and do not unfold the calls again.
-/

open Transition
namespace MMapKernel.Vmm

variable {cfg : Config} {files : FileSystem} {k k' : Kernel} {pid : ℕ} {p : Process}

theorem procs_perm (h : k.procs[pid]? = some p) :
    ∃ rest, k.procs.Perm (p :: rest) ∧ ∀ p', (k.put pid p').procs.Perm (p' :: rest) := by
  obtain ⟨hlt, rfl⟩ := List.getElem?_eq_some_iff.mp h
  exact ⟨k.procs.eraseIdx pid, (List.getElem_cons_eraseIdx_perm hlt).symm,
    fun p' => List.set_perm_cons_eraseIdx hlt p'⟩

theorem procs_put {I J : List Process → Prop} (hI : ∀ {l l'}, I l → l.Perm l' → I l')
    (hJ : ∀ {l l'}, J l → l.Perm l' → J l') (hs : I k.procs) (hpid : k.procs[pid]? = some p)
    (p' : Process) (h : ∀ rest, I (p :: rest) → J (p' :: rest))
    (hk : k'.procs = (k.put pid p').procs) : J k'.procs := by
  obtain ⟨rest, hperm, hput⟩ := procs_perm hpid
  rw [hk]
  exact hJ (h rest (hI hs hperm)) (hput p').symm

def twoSharedPages : MmapArgs :=
  { addr := 0, length := 8192, prot := 2, flags := 1, fd := .node 5, offset := 0, word := .null }

theorem run_reachable {cs : List Call} (h : bootKernel.run cfg files cs = some k) :
    Reachable (kernels cfg files) k :=
  foldlM_keeps (I := Reachable (kernels cfg files)) h (.start bootKernel_booted)
    fun _ _ _ _ hc hstep => .next hc hstep

theorem first_touch : ∃ k₁ k₂ k, bootKernel.step qemu (fun _ => []) .spawn = some k₁ ∧
    (∀ p, k₁.procs[0]? = some p → p.entryList = []) ∧
    k₁.step qemu (fun _ => []) (.mmap 0 twoSharedPages) = some k₂ ∧ k₂.nodeList = [] ∧
    k₂.step qemu (fun _ => []) (.pageFault 0 0x80000000) = some k ∧ k.nodeList = [0] := by
  have hrun : ((bootKernel.run qemu (fun _ => [])
      [.spawn, .mmap 0 twoSharedPages, .pageFault 0 0x80000000]).map Kernel.nodeList) = some [0] := by
    decide +kernel
  obtain ⟨k, hk, hlinked⟩ := Option.map_eq_some_iff.mp hrun
  simp only [Kernel.run, List.foldlM_cons, List.foldlM_nil, Option.bind_eq_bind,
    Option.bind_eq_some_iff] at hk
  obtain ⟨k₁, h₁, k₂, h₂, k₃, h₃, hlast⟩ := hk
  cases hlast
  have hempty : (bootKernel.step qemu (fun _ => []) .spawn).map
      (fun k => k.procs.map Process.entryList) = some [[]] := by decide +kernel
  have hnil : ((bootKernel.run qemu (fun _ => []) [.spawn, .mmap 0 twoSharedPages]).map
      Kernel.nodeList) = some [] := by decide +kernel
  refine ⟨k₁, k₂, k, h₁, fun p hp => ?_, h₂, by simpa [Kernel.run, h₁, h₂] using hnil, h₃, hlinked⟩
  rw [h₁, Option.map_some, Option.some.injEq] at hempty
  have := congrArg (Option.map Process.entryList) hp
  rw [← List.getElem?_map, hempty] at this
  simpa using this.symm

theorem step_cases {c : Call} (h : k.step cfg files c = some k') :
    match c with
    | .spawn => k.spawn cfg = some k'
    | .mmap pid a => ∃ p, k.procs[pid]? = some p ∧ p.status = .live ∧ k' = k.mmap cfg pid p a
    | .pageFault pid va => ∃ p, k.procs[pid]? = some p ∧ p.status = .live ∧
        ¬ ((p.pd.lookup (pageOf va)).any Pte.user) ∧ k.pageFault files pid p va = some k'
    | .munmap pid addr _ => ∃ p, k.procs[pid]? = some p ∧ p.status = .live ∧
        k.munmap cfg pid p addr = some k'
    | .fork pid slot => ∃ p, k.procs[pid]? = some p ∧ p.status = .live ∧
        k.fork cfg pid p slot = some k'
    | .exit pid => ∃ p, k.procs[pid]? = some p ∧ p.status = .live ∧ k.exit pid p = some k'
    | .kill pid => ∃ p, k.procs[pid]? = some p ∧ k' = k.put pid { p with killFlag := true }
    | .tick pid => ∃ p, k.procs[pid]? = some p ∧ p.status = .live ∧ p.killFlag = true ∧
        k' = k.put pid p.stopped
    | .destroy pid => ∃ p, k.procs[pid]? = some p ∧ p.status = .terminated ∧
        k' = k.destroy cfg pid p := by
  unfold Kernel.step at h
  cases c <;> simp only [Call.pid] at h
  case spawn => exact h
  all_goals
    obtain ⟨p, hp, h⟩ := Option.bind_eq_some_iff.mp h
    simp only [Kernel.stepOn, Option.ite_none_right_eq_some, Option.some.injEq] at h
    refine ⟨p, hp, ?_⟩
  case mmap => exact ⟨h.1, h.2.symm⟩
  case pageFault => exact ⟨h.1.1, h.1.2, h.2⟩
  case munmap => exact h
  case fork => exact h
  case exit => exact h
  case kill => exact h.symm
  case tick => exact ⟨h.1.1, h.1.2, h.2.symm⟩
  case destroy => exact ⟨h.1, h.2.symm⟩

theorem mmap_cases (cfg : Config) (k : Kernel) (pid : ℕ) (p : Process) (a : MmapArgs) :
    k.mmap cfg pid p a = k ∨
    (a.fd = .unknown ∧ k.mmap cfg pid p a = k.put pid p.stopped) ∨
    ∃ va es, Vmm.mmap cfg p.entryList a = .mapped va es ∧
      k.mmap cfg pid p a = k.put pid { p with entryList := es } := by
  unfold Kernel.mmap
  cases h : Vmm.mmap cfg p.entryList a with
  | null => exact Or.inl rfl
  | mapped va es => exact Or.inr (Or.inr ⟨va, es, rfl, rfl⟩)
  | nullFile =>
    refine Or.inr (Or.inl ⟨?_, rfl⟩)
    unfold Vmm.mmap at h
    split at h
    · cases h
    · dsimp only at h
      split at h
      · cases h
      · split at h <;> first | assumption | cases h

theorem sharedFile_isShared {e : VMEntry} {number : ℕ} (h : e.sharedFile = some number) :
    e.isShared = true := by
  unfold VMEntry.sharedFile at h
  split at h
  · assumption
  · cases h

theorem resolve_cases {e e' : VMEntry} {va : UInt32} {pa : ℕ}
    (h : k.resolve files e va = some (pa, e', k')) :
    (e.sharedFile = none ∧ e' = e ∧ ∃ m, k.phys.allocFrame = some (pa, m) ∧
      k' = { k with phys := m }) ∨
    (∃ number n x, e.sharedFile = some number ∧ k.findNode number = some n ∧
      k.nodes[n]? = some x ∧ pa = x.pa ∧ e' = { e with node := .set n } ∧
      k' = { k with nodes := k.nodes.modify n (count (· + 1)) }) ∨
    (∃ number m, e.sharedFile = some number ∧ k.findNode number = none ∧
      k.phys.allocFrame = some (pa, m) ∧ e' = { e with node := .set k.nodes.length } ∧
      k' = { k with
        phys := m.fill pa (pageContent files e number va)
        nodes := k.nodes ++ [⟨number, 1, pa⟩]
        nodeList := k.nodeList ++ [k.nodes.length] }) := by
  unfold Kernel.resolve at h
  cases hs : e.sharedFile with
  | none =>
    simp only [hs, Option.map_eq_some_iff, Prod.mk.injEq] at h
    obtain ⟨⟨f, m⟩, hm, rfl, rfl, rfl⟩ := h
    exact Or.inl ⟨rfl, rfl, m, hm, rfl⟩
  | some number =>
    right
    cases hf : k.findNode number with
    | some n =>
      simp only [hs, hf, Option.map_eq_some_iff, Prod.mk.injEq] at h
      obtain ⟨x, hx, rfl, rfl, rfl⟩ := h
      exact Or.inl ⟨number, n, x, rfl, hf, hx, rfl, rfl, rfl⟩
    | none =>
      simp only [hs, hf, Option.map_eq_some_iff, Prod.mk.injEq] at h
      obtain ⟨⟨f, m⟩, hm, rfl, rfl, rfl⟩ := h
      exact Or.inr ⟨number, m, rfl, hf, hm, rfl, rfl⟩

theorem resolve_procs {e e' : VMEntry} {va : UInt32} {pa : ℕ}
    (h : k.resolve files e va = some (pa, e', k')) : k'.procs = k.procs := by
  rcases resolve_cases h with ⟨-, -, _, -, rfl⟩ | ⟨_, _, _, -, -, -, -, -, rfl⟩ |
    ⟨_, _, -, -, -, -, rfl⟩ <;> rfl

theorem pageFault_cases {va : UInt32} (h : k.pageFault files pid p va = some k') :
    ((framedown va < 0x80000000 ∨ p.entryList.find? (fun e => e.holds (framedown va)) = none) ∧
      k' = k.put pid p.stopped) ∨
    ∃ front e back pa e' k₁ pd m, p.entryList = front ++ e :: back ∧
      p.entryList.find? (fun e => e.holds (framedown va)) = some e ∧
      e.holds (framedown va) = true ∧ k.resolve files e (framedown va) = some (pa, e', k₁) ∧
      p.pd.userMap k₁.phys (framedown va) pa = some (pd, m) ∧
      k' = { k₁ with phys := m }.put pid { p with pd := pd, entryList := front ++ e' :: back } := by
  unfold Kernel.pageFault at h
  dsimp only at h
  split at h
  · rename_i hlow
    exact Or.inl ⟨Or.inl hlow, (Option.some.inj h).symm⟩
  · split at h
    · rename_i hfind
      exact Or.inl ⟨Or.inr hfind, (Option.some.inj h).symm⟩
    · rename_i e hfind
      split at h
      · cases h
      · rename_i pa e' k₁ hres
        split at h
        · cases h
        · rename_i pd m hmap
          obtain ⟨front, back, hes, hrep, he⟩ := replaceEntry_spec e' hfind
          rw [hrep] at h
          exact Or.inr ⟨front, e, back, pa, e', k₁, pd, m, hes, hfind, he, hres, hmap,
            (Option.some.inj h).symm⟩

def Kernel.unmapped (k : Kernel) (p : Process) (e : VMEntry) (physical : Bool) : Kernel :=
  { k with phys := (p.pd.unmapAll k.phys e.pages physical).2 }

def Process.unmapped (p : Process) (m : PhysMem) (e : VMEntry) (physical : Bool) : Process :=
  { p with pd := (p.pd.unmapAll m e.pages physical).1 }

theorem release_cases {e : VMEntry} {physical : Bool} (h : k.release pid p e physical = some k') :
    (physical = false ∧ k' = (k.unmapped p e physical).put pid (p.unmapped k.phys e physical)) ∨
    (physical = true ∧ (k.nodeList = [] ∨ e.node.value = .null) ∧
      k' = (k.unmapped p e physical).put pid (p.unmapped k.phys e physical).stopped) ∨
    (physical = true ∧ k.nodeList ≠ [] ∧ ∃ n number, e.node.value = .entry n ∧
      k.fileOf n = some number ∧
      k' = ((k.unmapped p e physical).unlink number).put pid (p.unmapped k.phys e physical)) := by
  unfold Kernel.release at h
  dsimp only at h
  split at h
  · rename_i hp
    exact Or.inl ⟨hp, (Option.some.inj h).symm⟩
  · rename_i hp
    have hp' : physical = true := by simpa using hp
    right
    split at h
    · rename_i hnil
      exact Or.inl ⟨hp', Or.inl hnil, (Option.some.inj h).symm⟩
    · rename_i hnil
      split at h
      · rename_i hnull
        exact Or.inl ⟨hp', Or.inr hnull, (Option.some.inj h).symm⟩
      · cases h
      · rename_i n hn
        obtain ⟨number, hnum, hk⟩ := Option.map_eq_some_iff.mp h
        exact Or.inr ⟨hp', hnil, n, number, hn, hnum, hk.symm⟩

theorem munmap_cases {addr : UInt32} (h : k.munmap cfg pid p addr = some k') :
    k' = k ∨
    ∃ front e back, isSpecial cfg addr = false ∧
      takeEntry addr p.entryList = some (e, front ++ back) ∧ p.entryList = front ++ e :: back ∧
      ((e.isShared = false ∧
          k.release pid { p with entryList := front ++ back } e true = some k') ∨
        (e.isShared = true ∧ e.node.value = .null ∧
          k' = k.put pid { p with entryList := front ++ back }.stopped) ∨
        (e.isShared = true ∧ ∃ n x, e.node.value = .entry n ∧ k.nodes[n]? = some x ∧
          { k with nodes := k.nodes.modify n (count (· - 1)) }.release pid
            { p with entryList := front ++ back } e (x.numProcesses - 1 == 0) = some k')) := by
  unfold Kernel.munmap at h
  split at h
  · exact Or.inl (Option.some.inj h).symm
  · rename_i hs
    split at h
    · exact Or.inl (Option.some.inj h).symm
    · rename_i e rest htake
      obtain ⟨front, back, hes, rfl, -, -⟩ := takeEntry_spec htake
      refine Or.inr ⟨front, e, back, Bool.eq_false_iff.mpr hs, htake, hes, ?_⟩
      dsimp only at h
      split at h
      · rename_i hsh
        exact Or.inl ⟨hsh, h⟩
      · rename_i hsh
        have hsh' : e.isShared = true := by simpa using hsh
        right
        split at h
        · rename_i hnull
          exact Or.inl ⟨hsh', hnull, (Option.some.inj h).symm⟩
        · cases h
        · rename_i n hn
          split at h
          · cases h
          · rename_i x hx
            exact Or.inr ⟨hsh', n, x, hn, hx, h⟩

def references (n : ℕ) (es : List VMEntry) : ℕ := es.countP fun e => e.node.value = .entry n

theorem references_cons (n : ℕ) (e : VMEntry) (es : List VMEntry) :
    references n (e :: es) = references n es + if e.node.value = .entry n then 1 else 0 := by
  simp [references, List.countP_cons]

def VMEntry.Settled (e : VMEntry) : Prop := ∀ word, e.node = .unset word → word = .null

instance VMEntry.decidableSettled (e : VMEntry) : Decidable e.Settled :=
  match h : e.node with
  | .set _ => isTrue fun word hw => by rw [h] at hw; cases hw
  | .unset word => decidable_of_iff (word = .null) ⟨fun hw _ h' => by
      rw [h] at h'
      cases h'
      exact hw, fun hs => hs word h⟩

theorem adjust_cases {f : UInt32 → UInt32} {nodes nodes' : List NodeEntry} {e : VMEntry}
    (h : adjust f nodes e = some nodes') :
    (e.node.value = .null ∧ nodes' = nodes) ∨
    ∃ n, e.node.value = .entry n ∧ n < nodes.length ∧ nodes' = nodes.modify n (count f) := by
  unfold adjust at h
  split at h
  · rename_i hv
    exact Or.inl ⟨hv, (Option.some.inj h).symm⟩
  · cases h
  · rename_i n hv
    split at h
    · rename_i hlt
      exact Or.inr ⟨n, hv, hlt, (Option.some.inj h).symm⟩
    · cases h

theorem adjustAll_spec {f : UInt32 → UInt32} {nodes nodes' : List NodeEntry} {es : List VMEntry}
    (h : adjustAll f nodes es = some nodes') :
    nodes'.length = nodes.length ∧
    ∀ n, nodes'[n]? = (nodes[n]?).map fun x => (count f)^[references n es] x := by
  induction es generalizing nodes with
  | nil =>
    cases h
    simp [references]
  | cons e es ih =>
    rw [adjustAll, List.foldlM_cons] at h
    obtain ⟨mid, hmid, h⟩ := Option.bind_eq_some_iff.mp h
    obtain ⟨hlen, hget⟩ := ih h
    rcases adjust_cases hmid with ⟨hnull, rfl⟩ | ⟨m, hm, -, rfl⟩
    · refine ⟨hlen, fun n => ?_⟩
      rw [hget, references, references, List.countP_cons_of_neg (by simp [hnull])]
    · refine ⟨by rw [hlen, List.length_modify], fun n => ?_⟩
      rw [hget, List.getElem?_modify, Option.map_eq_map, Option.map_map]
      by_cases hn : m = n
      · subst hn
        rw [references, references, List.countP_cons_of_pos (by simp [hm])]
        simp [Function.comp_def, Function.iterate_succ_apply]
      · rw [references, references, List.countP_cons_of_neg (by simp [hm, hn])]
        simp [hn, Function.comp_def]

theorem count_iterate (f : UInt32 → UInt32) (c : ℕ) (x : NodeEntry) :
    (count f)^[c] x = { x with numProcesses := f^[c] x.numProcesses } := by
  induction c generalizing x with
  | zero => rfl
  | succ c ih => rw [Function.iterate_succ_apply, ih, Function.iterate_succ_apply]; rfl

theorem add_iterate (c : ℕ) (v : UInt32) (h : v.toNat + c < 2 ^ 32) :
    ((· + 1)^[c] v : UInt32).toNat = v.toNat + c := by
  induction c generalizing v with
  | zero => rfl
  | succ c ih =>
    have hv : (v + 1).toNat = v.toNat + 1 := by
      rw [UInt32.toNat_add, show (1 : UInt32).toNat = 1 from rfl]
      omega
    rw [Function.iterate_succ_apply, ih _ (by omega)]
    omega

theorem sub_one_toNat {v : UInt32} (h : 0 < v.toNat) : (v - 1).toNat = v.toNat - 1 := by
  have := v.toNat_lt
  rw [UInt32.toNat_sub, show (1 : UInt32).toNat = 1 from rfl]
  omega

theorem sub_iterate (c : ℕ) (v : UInt32) (h : c ≤ v.toNat) :
    ((· - 1)^[c] v : UInt32).toNat = v.toNat - c := by
  induction c generalizing v with
  | zero => rfl
  | succ c ih =>
    have hv := sub_one_toNat (v := v) (by omega)
    rw [Function.iterate_succ_apply, ih _ (by omega)]
    omega

theorem fork_cases {slot : Bool} (h : k.fork cfg pid p slot = some k') :
    (slot = false ∧ k' = k.put pid p.stopped) ∨
    (slot = true ∧ ∃ d m child m' nodes, PageDir.makePd cfg k.phys = some (d, m) ∧
      p.pd.copyUser d m = some (child, m') ∧ adjustAll (· + 1) k.nodes p.entryList = some nodes ∧
      k' = { k with
        phys := m'
        nodes := nodes
        procs := k.procs ++ [⟨child, p.entryList, .live, false⟩] }) := by
  unfold Kernel.fork at h
  split at h
  · rename_i hs
    exact Or.inl ⟨hs, (Option.some.inj h).symm⟩
  · rename_i hs
    split at h
    · cases h
    · rename_i d m hd
      split at h
      · cases h
      · rename_i child m' hcopy
        obtain ⟨nodes, hn, rfl⟩ := Option.map_eq_some_iff.mp h
        exact Or.inr ⟨by simpa using hs, d, m, child, m', nodes, hd, hcopy, hn, rfl⟩

theorem exit_cases (h : k.exit pid p = some k') :
    ∃ nodes, adjustAll (· - 1) k.nodes p.entryList = some nodes ∧
      k' = { k with nodes := nodes }.put pid p.stopped := by
  obtain ⟨nodes, hn, rfl⟩ := Option.map_eq_some_iff.mp h
  exact ⟨nodes, hn, rfl⟩

theorem spawn_cases (h : k.spawn cfg = some k') :
    ∃ d m, PageDir.makePd cfg k.phys = some (d, m) ∧
      k' = { k with phys := m, procs := k.procs ++ [⟨d, [], .live, false⟩] } := by
  obtain ⟨⟨d, m⟩, hd, rfl⟩ := Option.map_eq_some_iff.mp h
  exact ⟨d, m, hd, rfl⟩

theorem findNode_spec {number n : ℕ} (h : k.findNode number = some n) :
    n ∈ k.nodeList ∧ k.fileOf n = some number :=
  ⟨List.mem_of_find?_eq_some h, by simpa using List.find?_some h⟩

theorem findNode_none {number : ℕ} (h : k.findNode number = none) :
    ∀ n ∈ k.nodeList, k.fileOf n ≠ some number := by
  simpa [Kernel.findNode] using h

/-- A test for the conditions on a call that a run can evaluate: requests on a page at or behind
the end of the last entry, small counters, settled entries apart from the device pages, and
untouched entries in a process that is destroyed. -/
def plainBy (cfg : Config) (k : Kernel) (p : Process) : Call → Bool
  | .mmap _ a =>
    a.hint.toNat % 4096 = 0 ∧ ∀ e ∈ p.entryList.getLast?, e.finish ≤ a.hint.toNat
  | .pageFault _ _ => ∀ x ∈ k.nodes, x.numProcesses.toNat < 1024
  | .munmap _ _ _ => ∀ e ∈ p.entryList, e.Settled ∧ e.holds cfg.ioAPIC = false ∧
      e.holds cfg.localAPIC = false
  | .exit _ => ∀ e ∈ p.entryList, e.Settled
  | .destroy _ => ∀ e ∈ p.entryList, e.node = .unset .null
  | .fork _ _ => false
  | .spawn | .kill _ | .tick _ => true

def Kernel.plain (cfg : Config) (k : Kernel) (c : Call) : Bool :=
  c.pid.all fun pid => (k.procs[pid]?).all fun p => plainBy cfg k p c

theorem plain_by {c : Call} (h : k.plain cfg c = true) (hc : c.pid = some pid)
    (hp : k.procs[pid]? = some p) : plainBy cfg k p c = true := by
  simpa only [Kernel.plain, hc, hp, Option.all_some] using h

theorem plain_counter {va : UInt32} (h : plainBy cfg k p (.pageFault pid va) = true) {n : ℕ}
    {x : NodeEntry} (hx : k.nodes[n]? = some x) : x.numProcesses.toNat + 1 < 2 ^ 32 := by
  have := of_decide_eq_true h x (List.mem_of_getElem? hx)
  omega

theorem plain_mmap {a : MmapArgs} (h : plainBy cfg k p (.mmap pid a) = true) :
    a.hint.toNat % 4096 = 0 ∧ Accommodated cfg p.entryList (.mmap a) :=
  (of_decide_eq_true h).imp_right fun hroom => Or.inr (Or.inl (Or.inl hroom))

theorem plain_munmap {addr len : UInt32} (h : plainBy cfg k p (.munmap pid addr len) = true)
    {e : VMEntry} {rest : List VMEntry} (htake : takeEntry addr p.entryList = some (e, rest)) :
    e.Settled ∧ e.holds cfg.ioAPIC = false ∧ e.holds cfg.localAPIC = false := by
  obtain ⟨front, back, hes, -⟩ := takeEntry_spec htake
  exact of_decide_eq_true h e (by simp [hes])

theorem tested_run_reachable {test : Kernel → Call → Bool} {G : Kernel → Call → Prop}
    (hG : ∀ k c, test k c = true → G k c) {cs : List Call}
    (h : Transition.run (Kernel.step cfg files) test bootKernel cs = some k) :
    Reachable ((kernels cfg files).restrict G) k :=
  Transition.run_reachable (S := (kernels cfg files).restrict G)
    (fun k c _ hc hk => ⟨hG k c hc, hk⟩) (.start bootKernel_booted) h

end MMapKernel.Vmm
