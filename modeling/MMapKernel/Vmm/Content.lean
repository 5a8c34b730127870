import MMapKernel.Vmm.Nodes

/-!
# What is in a page that has been touched

Processes map files and touch pages; nothing is unmapped and nothing is stored. A frame then keeps
what the fault handler put into it, and the handler puts one page into the frame of a `NodeEntry`: the
page whose fault made the entry, its origin. A later fault on any page of that file maps this frame.

What a page ought to show is a parameter, `expect`. The runs in which every touched page shows it are
those in which every fault is supplied with it.
-/

open Transition
namespace MMapKernel.Vmm

structure Grows (m m' : PhysMem) : Prop where
  free : m'.free = []
  avail : m.avail ≤ m'.avail
  bytes : ∀ f < m.avail, m'.bytes f = m.bytes f

namespace Grows
variable {m m' m'' : PhysMem} {f : ℕ}

theorem refl (h : m.free = []) : Grows m m := ⟨h, le_rfl, fun _ _ => rfl⟩

theorem trans (h : Grows m m') (h' : Grows m' m'') : Grows m m'' :=
  ⟨h'.free, h.avail.trans h'.avail,
    fun f hf => (h'.bytes f (hf.trans_le h.avail)).trans (h.bytes f hf)⟩

theorem fill (h : Grows m m') (hf : m.avail ≤ f) (c : ℕ → UInt8) : Grows m (m'.fill f c) :=
  ⟨h.free, h.avail, fun g hg => by
    have hne : g ≠ f := by omega
    simp only [PhysMem.fill, Function.update_of_ne hne]
    exact h.bytes g hg⟩

theorem alloc (hm : m.free = []) (h : m.allocFrame = some (f, m')) :
    Grows m m' ∧ f = m.avail ∧ f < m'.avail ∧ m'.bytes f = fun _ => 0 := by
  unfold PhysMem.allocFrame at h
  rw [hm] at h
  dsimp only at h
  split at h
  case isTrue => cases h
  case isFalse =>
    cases h
    have hgrow : Grows m { m with free := [], avail := m.avail + 4096 } :=
      ⟨rfl, Nat.le_add_right _ _, fun _ _ => rfl⟩
    exact ⟨hgrow.fill le_rfl _, rfl, Nat.lt_add_of_pos_right (by omega), by simp [PhysMem.fill]⟩

theorem install {d d' : PageDir} {va : UInt32} {pte : Pte} (hm : m.free = [])
    (h : d.install m va pte = some (d', m')) : Grows m m' := by
  rcases (PageDir.install_spec h).2 with ⟨rfl, -⟩ | ⟨t, ha, -⟩
  · exact .refl hm
  · exact (alloc hm ha).1

theorem makePd {cfg : Config} {d : PageDir} (hm : m.free = [])
    (h : PageDir.makePd cfg m = some (d, m')) : Grows m m' := by
  obtain ⟨f, m₁, d₁, m₂, ha, hio, hlocal⟩ := PageDir.makePd_cases h
  have hfirst := (alloc hm ha).1
  have hsecond := install hfirst.free hio
  exact (hfirst.trans hsecond).trans (install hsecond.free hlocal)

end Grows

/-- A kernel, and for each `NodeEntry` the entry and the page whose fault made it. -/
abbrev Tracked := Kernel × List (VMEntry × UInt32)

def Call.touching : Call → Bool
  | .spawn | .mmap _ _ | .pageFault _ _ => true
  | .munmap _ _ _ | .fork _ _ | .exit _ | .kill _ | .tick _ | .destroy _ => false

def Kernel.faulting (k : Kernel) (pid : ℕ) (va : UInt32) : Option VMEntry :=
  if framedown va < 0x80000000 then none
  else (k.procs[pid]?).bind fun p => p.entryList.find? fun e => e.holds (framedown va)

def Kernel.founds (k : Kernel) (e : VMEntry) : Bool :=
  match e.sharedFile with
  | none => false
  | some number => (k.findNode number).isNone

def Kernel.origins (k : Kernel) : Call → List (VMEntry × UInt32)
  | .pageFault pid va =>
    match k.faulting pid va with
    | none => []
    | some e => if k.founds e then [(e, framedown va)] else []
  | _ => []

def trackedStep (cfg : Config) (files : FileSystem) (x : Tracked) (c : Call) : Option Tracked :=
  if c.touching then (x.1.step cfg files c).map fun k => (k, x.2 ++ x.1.origins c) else none

/-- The bytes that a fault on page `va` of `e` finds in the frame that is mapped. -/
def supplied (files : FileSystem) (x : Tracked) (e : VMEntry) (va : UInt32) : ℕ → UInt8 :=
  match e.sharedFile with
  | none => fun _ => 0
  | some number =>
    match x.1.findNode number with
    | none => pageContent files e number va
    | some n =>
      match x.2[n]? with
      | none => fun _ => 0
      | some origin => pageContent files origin.1 number origin.2

abbrev Expectation := VMEntry → Option (UInt32 → ℕ → UInt8)

/-- Every page that a process has touched shows what its entry makes expect. The entry of a page is the
one that the handler finds. -/
def Shows (expect : Expectation) (k : Kernel) : Prop :=
  ∀ p ∈ k.procs, ∀ g f e b, p.pd.lookup g = some ⟨f, true⟩ →
    p.entryList.find? (fun e => e.holds (addressOf g)) = some e → expect e = some b →
    ∀ i < 4096, k.phys.bytes f i = b (addressOf g) i

/-- A fault finds in its frame what is expected of the page, and an entry that `mmap` puts over pages
already touched finds it there. -/
def Supplies (expect : Expectation) (cfg : Config) (files : FileSystem) (x : Tracked) : Call → Prop
  | .pageFault pid va => ∀ e b, x.1.faulting pid va = some e → expect e = some b →
      ∀ i < 4096, supplied files x e (framedown va) i = b (framedown va) i
  | .mmap pid a => ∀ p va es, x.1.procs[pid]? = some p → Vmm.mmap cfg p.entryList a = .mapped va es →
      ∀ g f e b, p.pd.lookup g = some ⟨f, true⟩ →
        es.find? (fun e => e.holds (addressOf g)) = some e →
        p.entryList.find? (fun e => e.holds (addressOf g)) ≠ some e → expect e = some b →
        ∀ i < 4096, x.1.phys.bytes f i = b (addressOf g) i
  | _ => True

/-- Nothing is free, the frames in use have been handed out, and the frame of a `NodeEntry` holds the
page of its origin. -/
structure Kept (files : FileSystem) (x : Tracked) : Prop where
  free : x.1.phys.free = []
  linked : ∀ n ∈ x.1.nodeList, n < x.1.nodes.length
  length : x.2.length = x.1.nodes.length
  nodes : ∀ (n : ℕ) (y : NodeEntry) (origin : VMEntry × UInt32), x.1.nodes[n]? = some y → x.2[n]? = some origin →
    y.pa < x.1.phys.avail ∧ x.1.phys.bytes y.pa = pageContent files origin.1 y.file origin.2
  pages : ∀ p ∈ x.1.procs, ∀ g f, p.pd.lookup g = some ⟨f, true⟩ → f < x.1.phys.avail

section Steps
variable {cfg : Config} {files : FileSystem} {k k' : Kernel} {os : List (VMEntry × UInt32)} {pid : ℕ}
  {p : Process} {expect : Expectation}

theorem kept_booted (h : Booted k) : Kept files (k, []) where
  free := h.free
  linked := by simp [h.nodeList]
  length := by simp [h.nodes]
  nodes := by simp [h.nodes]
  pages := by simp [h.procs]

theorem shows_booted (h : Booted k) : Shows expect k := by
  intro p hp
  simp [h.procs] at hp

theorem mem_put {p' q : Process} (h : q ∈ (k.put pid p').procs) : q = p' ∨ q ∈ k.procs := by
  rcases List.mem_or_eq_of_mem_set h with h | h
  · exact .inr h
  · exact .inl h

theorem Kept.grow {m : PhysMem} (h : Kept files (k, os)) (hm : Grows k.phys m) :
    Kept files ({ k with phys := m }, os) where
  free := hm.free
  linked := h.linked
  length := h.length
  nodes n y origin hy ho := by
    obtain ⟨hpa, hbytes⟩ := h.nodes n y origin hy ho
    exact ⟨hpa.trans_le hm.avail, (hm.bytes _ hpa).trans hbytes⟩
  pages p hp g f hf := (h.pages p hp g f hf).trans_le hm.avail

theorem Shows.carry (hs : Shows expect k) (hprocs : k'.procs = k.procs)
    (hbytes : ∀ p ∈ k.procs, ∀ g f, p.pd.lookup g = some ⟨f, true⟩ →
      k'.phys.bytes f = k.phys.bytes f) : Shows expect k' := by
  intro p hp g f e b hf he hb i hi
  rw [hprocs] at hp
  rw [hbytes p hp g f hf]
  exact hs p hp g f e b hf he hb i hi

theorem Shows.grow {m : PhysMem} (hs : Shows expect k) (h : Kept files (k, os)) (hm : Grows k.phys m) :
    Shows expect { k with phys := m } :=
  hs.carry rfl fun p hp g f hf => hm.bytes f (h.pages p hp g f hf)

theorem Kept.put {p' : Process} (h : Kept files (k, os))
    (hpages : ∀ g f, p'.pd.lookup g = some ⟨f, true⟩ → f < k.phys.avail) :
    Kept files (k.put pid p', os) where
  free := h.free
  linked := h.linked
  length := h.length
  nodes := h.nodes
  pages q hq := by
    rcases mem_put hq with rfl | hq
    · exact hpages
    · exact h.pages q hq

theorem Shows.put {p' : Process} (hs : Shows expect k)
    (h : ∀ g f e b, p'.pd.lookup g = some ⟨f, true⟩ →
      p'.entryList.find? (fun e => e.holds (addressOf g)) = some e → expect e = some b →
      ∀ i < 4096, k.phys.bytes f i = b (addressOf g) i) : Shows expect (k.put pid p') := by
  intro q hq
  rcases mem_put hq with rfl | hq
  · exact h
  · exact hs q hq

theorem faulting_eq {va : UInt32} {e : VMEntry} (hp : k.procs[pid]? = some p)
    (hlow : ¬ framedown va < 0x80000000)
    (hfind : p.entryList.find? (fun e => e.holds (framedown va)) = some e) :
    k.faulting pid va = some e := by
  simp [Kernel.faulting, hlow, hp, hfind]

theorem find_exchange {front back : List VMEntry} {e a : VMEntry} {x : NodeField} {va : UInt32}
    (h : (front ++ { e with node := x } :: back).find? (fun e => e.holds va) = some a) :
    ∃ a', (front ++ e :: back).find? (fun e => e.holds va) = some a' ∧
      (a = a' ∨ a = { e with node := x } ∧ a' = e) := by
  have hsame : VMEntry.holds { e with node := x } va = e.holds va := rfl
  rw [List.find?_append, List.find?_cons] at h ⊢
  rw [hsame] at h
  cases hf : front.find? fun e => e.holds va with
  | some b =>
    rw [hf] at h
    exact ⟨a, h, .inl rfl⟩
  | none =>
    rw [hf] at h
    cases he : e.holds va with
    | true =>
      simp only [he] at h ⊢
      exact ⟨e, rfl, .inr ⟨(Option.some.inj h).symm, rfl⟩⟩
    | false =>
      simp only [he] at h ⊢
      exact ⟨a, h, .inl rfl⟩

theorem find_with_node {front back : List VMEntry} {e : VMEntry} {va : UInt32} (x : NodeField)
    (h : (front ++ e :: back).find? (fun e => e.holds va) = some e) :
    ∃ y, (front ++ { e with node := x } :: back).find? (fun e => e.holds va) =
      some { e with node := y } := by
  have hsame : VMEntry.holds { e with node := x } va = e.holds va := rfl
  rw [List.find?_append, List.find?_cons] at h
  rw [List.find?_append, List.find?_cons, hsame]
  cases hf : front.find? fun e => e.holds va with
  | some b =>
    rw [hf] at h
    exact ⟨e.node, h⟩
  | none =>
    rw [hf] at h
    cases he : e.holds va with
    | true => exact ⟨x, by simp⟩
    | false =>
      -- the entry found holds the address
      rw [he, Option.none_or] at h
      have hin := List.find?_some h
      rw [he] at hin
      cases hin

theorem resolve_kept {e e' : VMEntry} {va : UInt32} {pa : ℕ} (h : Kept files (k, os))
    (hres : k.resolve files e va = some (pa, e', k')) :
    Kept files (k', os ++ if k.founds e then [(e, va)] else []) ∧
    k'.procs = k.procs ∧ (∀ f < k.phys.avail, k'.phys.bytes f = k.phys.bytes f) ∧
    pa < k'.phys.avail ∧ k'.phys.bytes pa = supplied files (k, os) e va ∧
    ∃ x, e' = { e with node := x } := by
  rcases resolve_cases hres with ⟨hs, rfl, m, ha, rfl⟩ |
    ⟨number, n, y, hs, hf, hy, rfl, rfl, rfl⟩ | ⟨number, m, hs, hf, ha, rfl, rfl⟩
  · obtain ⟨hgrow, -, hlt, hzero⟩ := Grows.alloc h.free ha
    have hfounds : k.founds e' = false := by simp [Kernel.founds, hs]
    have hsup : supplied files (k, os) e' va = fun _ => 0 := by simp [supplied, hs]
    rw [hfounds, hsup, if_neg Bool.false_ne_true, List.append_nil]
    exact ⟨h.grow hgrow, rfl, hgrow.bytes, hlt, hzero, e'.node, rfl⟩
  · have hfounds : k.founds e = false := by simp [Kernel.founds, hs, hf]
    have hlt : n < os.length := by
      rw [h.length]
      exact h.linked n (findNode_spec hf).1
    have ho : os[n]? = some os[n] := List.getElem?_eq_getElem hlt
    have hnumber : y.file = number := by
      have := (findNode_spec hf).2
      simpa [Kernel.fileOf, hy] using this
    obtain ⟨hpa, hbytes⟩ := h.nodes n y os[n] hy ho
    have hsup : supplied files (k, os) e va = pageContent files os[n].1 number os[n].2 := by
      simp [supplied, hs, hf, ho]
    rw [hfounds, hsup, if_neg Bool.false_ne_true, List.append_nil]
    refine ⟨⟨h.free, ?_, ?_, fun i z origin hz hor => ?_, h.pages⟩, rfl, fun _ _ => rfl, hpa,
      hnumber ▸ hbytes, .set n, rfl⟩
    · simpa using h.linked
    · simpa using h.length
    · rw [List.getElem?_modify] at hz
      obtain ⟨z', hz', rfl⟩ := Option.map_eq_some_iff.mp hz
      have := h.nodes i z' origin hz' hor
      by_cases hni : n = i
      · simpa [hni, count] using this
      · simpa [hni] using this
  · obtain ⟨hgrow, rfl, hlt, -⟩ := Grows.alloc h.free ha
    have hfounds : k.founds e = true := by simp [Kernel.founds, hs, hf]
    have hsup : supplied files (k, os) e va = pageContent files e number va := by
      simp [supplied, hs, hf]
    rw [hfounds, hsup, if_pos rfl]
    have hfill := hgrow.fill le_rfl (pageContent files e number va)
    have hkept := h.grow hfill
    have hself : (m.fill k.phys.avail (pageContent files e number va)).bytes k.phys.avail =
        pageContent files e number va := by simp [PhysMem.fill]
    refine ⟨⟨hkept.free, linked_link h.linked, ?_, fun i z origin hz hor => ?_, hkept.pages⟩, rfl,
      hfill.bytes, hlt, hself, .set k.nodes.length, rfl⟩
    · simpa using h.length
    · by_cases hi : i < k.nodes.length
      · rw [List.getElem?_append_left hi] at hz
        rw [List.getElem?_append_left (by rw [h.length]; exact hi)] at hor
        exact hkept.nodes i z origin hz hor
      · have hi : i = k.nodes.length := by
          have := (List.getElem?_eq_some_iff.mp hz).1
          simp only [List.length_append, List.length_singleton] at this
          omega
        have hlen : os.length = k.nodes.length := h.length
        subst hi
        simp only [List.getElem?_concat_length, Option.some.injEq] at hz
        rw [← hlen, List.getElem?_concat_length, Option.some.injEq] at hor
        rw [← hz, ← hor]
        exact ⟨hlt, hself⟩

theorem pageFault_low {va : UInt32} (h : framedown va < 0x80000000) :
    k.pageFault files pid p va = some (k.put pid p.stopped) := if_pos h

theorem stopped_kept (expect : Expectation) (h : Kept files (k, os)) (hp : k.procs[pid]? = some p) :
    Kept files (k.put pid p.stopped, os) ∧ (Shows expect k → Shows expect (k.put pid p.stopped)) := by
  have hmem := List.mem_of_getElem? hp
  exact ⟨h.put (h.pages p hmem), fun hs => hs.put (hs p hmem)⟩

theorem lookup_mapped {pd pd' : PageDir} {phys m : PhysMem} {va : UInt32} {pa f : ℕ} {g : Page}
    (hmap : pd.userMap phys va pa = some (pd', m)) (hf : pd'.lookup g = some ⟨f, true⟩) :
    (g = pageOf va ∧ f = pa) ∨ pd.lookup g = some ⟨f, true⟩ := by
  rw [(PageDir.install_spec hmap).1] at hf
  split at hf
  case isTrue hg =>
    cases hf
    exact .inl ⟨hg, rfl⟩
  case isFalse => exact .inr hf

theorem mapped_kept {front back : List VMEntry} {e e' : VMEntry} {va : UInt32} {pa : ℕ} {k₁ : Kernel}
    {pd : PageDir} {m : PhysMem} (hexp : ∀ e x, expect { e with node := x } = expect e)
    (h : Kept files (k, os)) (hp : k.procs[pid]? = some p) (hes : p.entryList = front ++ e :: back)
    (hfind : p.entryList.find? (fun e => e.holds (framedown va)) = some e)
    (hres : k.resolve files e (framedown va) = some (pa, e', k₁))
    (hmap : p.pd.userMap k₁.phys (framedown va) pa = some (pd, m)) :
    let k' := { k₁ with phys := m }.put pid { p with pd := pd, entryList := front ++ e' :: back }
    Kept files (k', os ++ if k.founds e then [(e, framedown va)] else []) ∧
    (Shows expect k → (∀ b, expect e = some b → ∀ i < 4096,
      supplied files (k, os) e (framedown va) i = b (framedown va) i) → Shows expect k') ∧
    (Shows expect k' → ∀ b, expect e = some b → ∀ i < 4096,
      supplied files (k, os) e (framedown va) i = b (framedown va) i) := by
  intro k'
  have hmem := List.mem_of_getElem? hp
  obtain ⟨hk₁, hprocs, hbytes, hpa, hsup, x, rfl⟩ := resolve_kept h hres
  have hgrow : Grows k₁.phys m := Grows.install hk₁.free hmap
  have hk₂ := hk₁.grow hgrow
  have hpage : m.bytes pa = supplied files (k, os) e (framedown va) :=
    (hgrow.bytes pa hpa).trans hsup
  have hva : addressOf (pageOf (framedown va)) = framedown va := by
    rw [pageOf_framedown, addressOf_pageOf_eq]
  refine ⟨hk₂.put fun g f hf => ?_, fun hs hsupplied => ?_, fun hs b hb i hi => ?_⟩
  · rcases lookup_mapped hmap hf with ⟨-, rfl⟩ | hf
    · exact hpa.trans_le hgrow.avail
    · exact hk₂.pages p (hprocs ▸ hmem) g f hf
  · have hold : Shows expect { k₁ with phys := m } := hs.carry hprocs fun q hq g f hf =>
      (hgrow.bytes f (hk₁.pages q (hprocs ▸ hq) g f hf)).trans (hbytes f (h.pages q hq g f hf))
    refine hold.put fun g f a b hf ha hb i hi => ?_
    obtain ⟨a', ha', hcase⟩ := find_exchange ha
    have hb' : expect a' = some b := by
      rcases hcase with rfl | ⟨rfl, rfl⟩
      · exact hb
      · rw [← hexp a' x]
        exact hb
    rcases lookup_mapped hmap hf with ⟨rfl, rfl⟩ | hf
    · -- the page of the fault
      rw [hva] at ha' ⊢
      rw [← hes, hfind, Option.some.injEq] at ha'
      subst ha'
      simp only [hpage]
      exact hsupplied b hb' i hi
    · rw [← hes] at ha'
      exact hold p (hprocs ▸ hmem) g f a' b hf ha' hb' i hi
  · have hnew : k'.procs[pid]? =
        some { p with pd := pd, entryList := front ++ { e with node := x } :: back } := by
      have hlt : pid < k₁.procs.length := hprocs ▸ (List.getElem?_eq_some_iff.mp hp).1
      simp [k', Kernel.put, hlt]
    have hpresent : pd.lookup (pageOf (framedown va)) = some ⟨pa, true⟩ := by
      rw [(PageDir.install_spec hmap).1, if_pos rfl]
    obtain ⟨y, hfound⟩ := find_with_node x (hes ▸ hfind)
    rw [← hva] at hfound
    have hb' : expect { e with node := y } = some b := (hexp e y).trans hb
    have hshow := hs _ (List.mem_of_getElem? hnew) _ pa _ b hpresent hfound hb' i hi
    rw [hva] at hshow
    rw [← hpage]
    exact hshow

end Steps
end MMapKernel.Vmm
