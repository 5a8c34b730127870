import MMapKernel.Vmm.Nodes

/-!
# Frame safety

A frame on the free list must be in no user page of a live process and behind no linked
`NodeEntry`. Each frame in use is accounted for once: a directory and its tables, a page
that is private to its process, or the frame of a linked `NodeEntry`. A page counts as
shared when an entry that holds it has its `node` set and the page maps the frame of that
`NodeEntry`; the pages `fork` copies out of a shared region are private to the child.
-/

open Transition
namespace MMapKernel.Vmm

/-- No frame is free twice, and no free frame is mapped for a live process or kept by a
linked `NodeEntry`. -/
structure FrameSafe (k : Kernel) : Prop where
  nodup : k.phys.free.Nodup
  unmapped : ∀ p ∈ k.procs, p.status = .live → ∀ g pte, p.pd.lookup g = some pte →
    pte.user = true → pte.frame ∉ k.phys.free
  unlinked : ∀ n ∈ k.nodeList, ∀ x, k.nodes[n]? = some x → x.pa ∉ k.phys.free

def VMEntry.maps (nodes : List NodeEntry) (e : VMEntry) (x : Page × Pte) : Bool :=
  e.holds (addressOf x.1) && match e.node with
    | .set n => paOf nodes n == x.2.frame
    | .unset _ => false

def sharedPage (nodes : List NodeEntry) (es : List VMEntry) (x : Page × Pte) : Bool :=
  es.any fun e => e.maps nodes x

def SafeBy (cfg : Config) (k : Kernel) (p : Process) : Call → Prop
  | .mmap _ a => a.hint.toNat % 4096 = 0 ∧ Accommodated cfg p.entryList (.mmap a)
  | .pageFault _ va => ∀ e number n x,
      p.entryList.find? (fun e => e.holds (framedown va)) = some e →
      e.sharedFile = some number → k.findNode number = some n → k.nodes[n]? = some x →
      x.numProcesses.toNat + 1 < 2 ^ 32
  | .munmap _ addr _ => isSpecial cfg addr = false →
      ∀ e rest, takeEntry addr p.entryList = some (e, rest) → e.Settled ∧
        e.holds cfg.ioAPIC = false ∧ e.holds cfg.localAPIC = false
  | .fork _ slot => slot = true → (∀ e ∈ p.entryList, e.Settled) ∧
      ∀ n ∈ k.nodeList, ∀ x, k.nodes[n]? = some x →
        x.numProcesses.toNat + references n p.entryList < 2 ^ 32
  | .exit _ => ∀ e ∈ p.entryList, e.Settled
  | .destroy _ => ∀ x ∈ p.pd.pages, x.2.user = true → sharedPage k.nodes p.entryList x = false
  | .spawn | .kill _ | .tick _ => True

/-- Page-aligned requests that find room; counters that do not overflow; no `munmap` of an
entry that covers a device page; no use of an uninitialised `node`; and no destruction of a
process that still has a shared page mapped. -/
def Safe (cfg : Config) (k : Kernel) (c : Call) : Prop :=
  ∀ pid p, c.pid = some pid → k.procs[pid]? = some p → SafeBy cfg k p c

def privateFrames (nodes : List NodeEntry) (d : PageDir) (es : List VMEntry) : List ℕ :=
  (d.pages.filter fun x => x.2.user && !sharedPage nodes es x).map fun x => x.2.frame

def Process.owned (nodes : List NodeEntry) (p : Process) : List ℕ :=
  if p.status = .destroyed then []
  else p.pd.structureFrames ++ privateFrames nodes p.pd p.entryList

def pagesMapping (d : PageDir) (e : VMEntry) (pa : ℕ) : ℕ :=
  d.pages.countP fun x => x.2.user && e.holds (addressOf x.1) && x.2.frame == pa

def VMEntry.share (n pa : ℕ) (d : PageDir) (e : VMEntry) : ℕ :=
  if e.node = .set n then max 1 (pagesMapping d e pa) else 0

def Process.share (nodes : List NodeEntry) (n : ℕ) (p : Process) : ℕ :=
  if p.status = .live then (p.entryList.map (VMEntry.share n (paOf nodes n) p.pd)).sum else 0

structure ProcInv (cfg : Config) (nodes : List NodeEntry) (nodeList : List ℕ) (p : Process) :
    Prop where
  known : ∀ e ∈ p.entryList, ∀ n, e.node = .set n → n < nodes.length
  devices : DeviceOnly cfg p.pd
  paged : p.status = .live → Paged p.entryList
  tied : p.status = .live → ∀ e ∈ p.entryList, ∀ n, e.node = .set n →
    n ∈ nodeList ∧ e.sharedFile = fileOf nodes n

structure FrameInv (cfg : Config) (m : PhysMem) (nodes : List NodeEntry) (nodeList : List ℕ)
    (procs : List Process) : Prop where
  ledger : Ledger m (procs.flatMap (Process.owned nodes) ++ nodeList.map (paOf nodes))
  files : (nodeList.map (fileOf nodes)).Nodup
  linked : ∀ n ∈ nodeList, n < nodes.length
  counted : ∀ n ∈ nodeList, (procs.map (Process.share nodes n)).sum ≤ numOf nodes n
  procs : ∀ p ∈ procs, ProcInv cfg nodes nodeList p

section Frames
variable {cfg : Config} {m m' : PhysMem} {nodes nodes' : List NodeEntry} {nodeList : List ℕ}
  {procs procs' rest : List Process} {p p' : Process} {x : Page × Pte}

theorem maps_set {e : VMEntry} {n : ℕ} (hn : e.node = .set n) :
    e.maps nodes x = true ↔ e.holds (addressOf x.1) = true ∧ paOf nodes n = x.2.frame := by
  simp [VMEntry.maps, hn]

theorem maps_unset {e : VMEntry} {w : NodePtr} (hn : e.node = .unset w) : e.maps nodes x = false := by
  simp [VMEntry.maps, hn]

theorem maps_outside {e : VMEntry} (h : e.holds (addressOf x.1) = false) : e.maps nodes x = false := by
  simp [VMEntry.maps, h]

theorem sharedPage_middle (nodes : List NodeEntry) (front back : List VMEntry) (e : VMEntry)
    (x : Page × Pte) : sharedPage nodes (front ++ e :: back) x =
      (e.maps nodes x || sharedPage nodes (front ++ back) x) := by
  simp only [sharedPage, List.any_append, List.any_cons]
  cases e.maps nodes x <;> simp

theorem mem_privateFrames {d : PageDir} {es : List VMEntry} (hx : x ∈ d.pages)
    (hu : x.2.user = true) (hs : sharedPage nodes es x = false) :
    x.2.frame ∈ privateFrames nodes d es := by
  refine List.mem_map.mpr ⟨x, List.mem_filter.mpr ⟨hx, ?_⟩, rfl⟩
  rw [hu, hs]
  rfl

theorem privateFrames_congr {d : PageDir} {es es' : List VMEntry}
    (h : ∀ x ∈ d.pages, x.2.user = true → sharedPage nodes' es' x = sharedPage nodes es x) :
    privateFrames nodes' d es' = privateFrames nodes d es := by
  refine congrArg _ (List.filter_congr fun x hx => ?_)
  cases hu : x.2.user with
  | false => rfl
  | true => rw [h x hx hu]

theorem owned_of_status (h : p.status ≠ .destroyed) :
    p.owned nodes = p.pd.structureFrames ++ privateFrames nodes p.pd p.entryList := if_neg h

theorem live_ne_destroyed (h : p.status = .live) : p.status ≠ .destroyed := by simp [h]

namespace FrameInv

theorem perm (h : FrameInv cfg m nodes nodeList procs) (hp : procs.Perm procs') :
    FrameInv cfg m nodes nodeList procs' where
  ledger := h.ledger.perm ((hp.flatMap_right _).append_right _)
  files := h.files
  linked := h.linked
  counted n hn := by
    rw [← (hp.map (Process.share nodes n)).sum_eq]
    exact h.counted n hn
  procs p hp' := h.procs p (hp.mem_iff.mpr hp')

theorem mem_used (h : FrameInv cfg m nodes nodeList procs) (hp : p ∈ procs)
    (hlive : p.status = .live) (hx : x ∈ p.pd.pages) (hu : x.2.user = true) :
    x.2.frame ∈ procs.flatMap (Process.owned nodes) ++ nodeList.map (paOf nodes) := by
  cases hs : sharedPage nodes p.entryList x with
  | false =>
    refine List.mem_append_left _ (List.mem_flatMap.mpr ⟨p, hp, ?_⟩)
    rw [owned_of_status (live_ne_destroyed hlive)]
    exact List.mem_append_right _ (mem_privateFrames hx hu hs)
  | true =>
    obtain ⟨e, he, hm⟩ := List.any_eq_true.mp hs
    cases hn : e.node with
    | unset w => simp [maps_unset hn] at hm
    | set n =>
      refine List.mem_append_right _ (List.mem_map.mpr ⟨n, ?_, ((maps_set hn).mp hm).2⟩)
      exact ((h.procs p hp).tied hlive e he n hn).1

theorem safe {k : Kernel} (h : FrameInv cfg k.phys k.nodes k.nodeList k.procs) : FrameSafe k where
  nodup := h.ledger.free_nodup
  unmapped p hp hlive g pte hg hu :=
    h.ledger.notMem_free (h.mem_used hp hlive (x := (g, pte)) (PageDir.mem_pages.mpr hg) hu)
  unlinked n hn x hx := by
    refine h.ledger.notMem_free (List.mem_append_right _ (List.mem_map.mpr ⟨n, hn, ?_⟩))
    simp [paOf, hx]

theorem private_ne (h : FrameInv cfg m nodes nodeList (p :: rest)) (hlive : p.status = .live)
    (hx : x ∈ p.pd.pages) (hu : x.2.user = true)
    (hs : sharedPage nodes p.entryList x = false) {n : ℕ} (hn : n ∈ nodeList) :
    x.2.frame ≠ paOf nodes n := by
  intro heq
  have hnd := h.ledger.used_nodup
  refine (List.nodup_append.mp hnd).2.2 x.2.frame ?_ (paOf nodes n)
    (List.mem_map.mpr ⟨n, hn, rfl⟩) heq
  rw [List.flatMap_cons, owned_of_status (live_ne_destroyed hlive)]
  exact List.mem_append_left _ (List.mem_append_right _ (mem_privateFrames hx hu hs))

theorem file_injective (h : FrameInv cfg m nodes nodeList procs) {a b : ℕ} (ha : a ∈ nodeList)
    (hb : b ∈ nodeList) (hf : fileOf nodes a = fileOf nodes b) : a = b :=
  List.inj_on_of_nodup_map h.files ha hb hf

theorem add (h : FrameInv cfg m nodes nodeList procs)
    (hl : Ledger m' (p.owned nodes ++ procs.flatMap (Process.owned nodes) ++
      nodeList.map (paOf nodes))) (hp : ProcInv cfg nodes nodeList p)
    (hcount : ∀ n ∈ nodeList, p.share nodes n + (procs.map (Process.share nodes n)).sum ≤
      numOf nodes n) : FrameInv cfg m' nodes nodeList (p :: procs) where
  ledger := hl
  files := h.files
  linked := h.linked
  counted := hcount
  procs q hq := by
    rcases List.mem_cons.mp hq with rfl | hq
    · exact hp
    · exact h.procs q hq

theorem replace (h : FrameInv cfg m nodes nodeList (p :: rest))
    (hl : Ledger m' (p'.owned nodes ++ rest.flatMap (Process.owned nodes) ++
      nodeList.map (paOf nodes))) (hp' : ProcInv cfg nodes nodeList p')
    (hcount : ∀ n ∈ nodeList, p'.share nodes n + (rest.map (Process.share nodes n)).sum ≤
      numOf nodes n) : FrameInv cfg m' nodes nodeList (p' :: rest) where
  ledger := hl
  files := h.files
  linked := h.linked
  counted := hcount
  procs q hq := by
    rcases List.mem_cons.mp hq with rfl | hq
    · exact hp'
    · exact h.procs q (List.mem_cons_of_mem _ hq)

theorem exchange (h : FrameInv cfg m nodes nodeList (p :: rest))
    (howned : p'.owned nodes = p.owned nodes) (hp' : ProcInv cfg nodes nodeList p')
    (hshare : ∀ n ∈ nodeList, p'.share nodes n ≤ p.share nodes n) :
    FrameInv cfg m nodes nodeList (p' :: rest) := by
  refine h.replace (howned ▸ h.ledger) hp' fun n hn => ?_
  have := h.counted n hn
  have := hshare n hn
  simp only [List.map_cons, List.sum_cons] at *
  omega

theorem stop (h : FrameInv cfg m nodes nodeList (p :: rest)) (hlive : p.status = .live) :
    FrameInv cfg m nodes nodeList (p.stopped :: rest) := by
  have hp := h.procs p List.mem_cons_self
  refine h.exchange ?_ ⟨hp.known, hp.devices, fun h => ?_, fun h => ?_⟩ fun n _ => ?_
  · rw [owned_of_status (live_ne_destroyed hlive)]
    rfl
  · cases h
  · cases h
  · simp [Process.share, Process.stopped]

end FrameInv
end Frames
end MMapKernel.Vmm
