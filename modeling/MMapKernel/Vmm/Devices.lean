import MMapKernel.Vmm.FaultService
import MMapKernel.Vmm.Nodes

/-!
# The device pages and the range of the allocator

Every directory maps the two device pages to themselves, for the kernel only. `is_special` is
asked about single addresses, while a region may cover a device page without starting at it: the
unmap loop then clears the entry of the device and hands its address to the allocator, and the
fault handler maps a frame over it. Runs in which neither happens leave the devices alone and
free nothing outside the range of the allocator.
-/

open Transition
namespace MMapKernel.Vmm

structure InRange (start size f : ℕ) : Prop where
  lower : start ≤ f
  upper : f < start + size

/-- The allocator after `PhysMem::init(start, size)` and any allocations: the rest of the range
is whole frames, and every free frame lies in the range. -/
structure PhysMem.Within (start size : ℕ) (m : PhysMem) : Prop where
  limit : m.limit = start + size
  lower : start ≤ m.avail
  upper : m.avail ≤ m.limit
  whole : (m.limit - m.avail) % 4096 = 0
  free : ∀ f ∈ m.free, InRange start size f

namespace PhysMem.Within
variable {start size : ℕ} {m m' : PhysMem} {f : ℕ}

theorem fill (h : m.Within start size) (p : ℕ) (c : ℕ → UInt8) : (m.fill p c).Within start size :=
  ⟨h.limit, h.lower, h.upper, h.whole, h.free⟩

theorem alloc (h : m.Within start size) (ha : m.allocFrame = some (f, m')) :
    InRange start size f ∧ m'.Within start size := by
  have hlimit := h.limit
  have hlower := h.lower
  have hupper := h.upper
  have hwhole := h.whole
  unfold PhysMem.allocFrame at ha
  split at ha
  case h_1 p rest hfree =>
    cases ha
    have hall := h.free
    rw [hfree, List.forall_mem_cons] at hall
    exact ⟨hall.1, hlimit, hlower, hupper, hwhole, hall.2⟩
  case h_2 hfree =>
    split at ha
    case isTrue => cases ha
    case isFalse hne =>
      cases ha
      refine ⟨⟨hlower, by omega⟩, hlimit, ?_, ?_, ?_, h.free⟩
      · exact hlower.trans (Nat.le_add_right _ _)
      · change m.avail + 4096 ≤ m.limit
        omega
      · change (m.limit - (m.avail + 4096)) % 4096 = 0
        omega

theorem dealloc (h : m.Within start size) (hf : InRange start size f) :
    (m.deallocFrame f).Within start size :=
  ⟨h.limit, h.lower, h.upper, h.whole, List.forall_mem_cons.mpr ⟨hf, h.free⟩⟩

theorem deallocAll {fs : List ℕ} (h : m.Within start size) (hf : ∀ f ∈ fs, InRange start size f) :
    (fs.foldl PhysMem.deallocFrame m).Within start size := by
  induction fs generalizing m with
  | nil => exact h
  | cons f fs ih =>
    rw [List.forall_mem_cons] at hf
    exact ih (h.dealloc hf.1) hf.2

end PhysMem.Within

def DevicePage (cfg : Config) (g : Page) : Prop := g = pageOf cfg.ioAPIC ∨ g = pageOf cfg.localAPIC

instance decidableDevicePage (cfg : Config) (g : Page) : Decidable (DevicePage cfg g) :=
  inferInstanceAs (Decidable (_ ∨ _))

theorem isSpecial_iff {cfg : Config} {g : Page} (h512 : (512 : Fin 1024) ≤ g.1) :
    isSpecial cfg (addressOf g) = true ↔ DevicePage cfg g := by
  have huser : ¬ addressOf g < 0x80000000 := by
    rw [UInt32.lt_iff_toNat_lt, addressOf_toNat]
    change ¬ _ < 2147483648
    have : 512 ≤ g.1.val := h512
    omega
  simp only [isSpecial, huser, decide_false, Bool.false_or, Bool.or_eq_true, beq_iff_eq, DevicePage]
  rw [eq_comm (a := g), eq_comm (a := g), pageOf_eq_iff cfg.io_aligned, pageOf_eq_iff cfg.local_aligned,
    eq_comm (a := cfg.ioAPIC), eq_comm (a := cfg.localAPIC)]

namespace PageDir

/-- The entries of the two devices, as `make_pd` has written them. -/
structure MapsDevices (cfg : Config) (d : PageDir) : Prop where
  ioAPIC : d.lookup (pageOf cfg.ioAPIC) = some ⟨cfg.ioAPIC.toNat, false⟩
  localAPIC : d.lookup (pageOf cfg.localAPIC) = some ⟨cfg.localAPIC.toNat, false⟩

structure Framed (cfg : Config) (start size : ℕ) (d : PageDir) : Prop where
  pages : ∀ g pte, d.lookup g = some pte → ¬ DevicePage cfg g → InRange start size pte.frame
  frames : ∀ f ∈ d.structureFrames, InRange start size f

structure Within (cfg : Config) (start size : ℕ) (d : PageDir) : Prop extends
  MapsDevices cfg d, Framed cfg start size d

section
variable {cfg : Config} {start size : ℕ} {d d' : PageDir} {m m' : PhysMem} {va : UInt32} {pte : Pte}

theorem install_frames (h : d.install m va pte = some (d', m'))
    (hd : ∀ f ∈ d.structureFrames, InRange start size f) (hm : m.Within start size) :
    (∀ f ∈ d'.structureFrames, InRange start size f) ∧ m'.Within start size := by
  rcases (install_spec h).2 with ⟨rfl, hp⟩ | ⟨t, ha, hp⟩
  · exact ⟨fun f hf => hd f (hp.mem_iff.mp hf), hm⟩
  · obtain ⟨ht, hm'⟩ := hm.alloc ha
    refine ⟨fun f hf => ?_, hm'⟩
    rcases List.mem_cons.mp (hp.mem_iff.mp hf) with rfl | hf
    · exact ht
    · exact hd f hf

theorem Within.install (h : d.install m va pte = some (d', m')) (hd : d.Within cfg start size)
    (hm : m.Within start size) (hdev : ¬ DevicePage cfg (pageOf va))
    (hf : InRange start size pte.frame) : d'.Within cfg start size ∧ m'.Within start size := by
  have hlook := (install_spec h).1
  have hmem := install_frames h hd.frames hm
  refine ⟨⟨⟨?_, ?_⟩, ⟨fun g q hq hg => ?_, hmem.1⟩⟩, hmem.2⟩
  · rw [hlook, if_neg fun he => hdev (.inl he.symm)]
    exact hd.ioAPIC
  · rw [hlook, if_neg fun he => hdev (.inr he.symm)]
    exact hd.localAPIC
  · rw [hlook] at hq
    split at hq
    · cases hq
      exact hf
    · exact hd.pages g q hq hg

theorem Within.unmap (hd : d.Within cfg start size) (hm : m.Within start size)
    (hdev : ¬ DevicePage cfg (pageOf va)) (physical : Bool) :
    (d.unmap m va physical).1.Within cfg start size ∧ (d.unmap m va physical).2.Within start size := by
  have hlook := unmap_lookup d m va physical
  refine ⟨⟨⟨?_, ?_⟩, ⟨fun g q hq hg => ?_, fun f hf => ?_⟩⟩, ?_⟩
  · rw [hlook, if_neg fun he => hdev (.inl he.symm)]
    exact hd.ioAPIC
  · rw [hlook, if_neg fun he => hdev (.inr he.symm)]
    exact hd.localAPIC
  · rw [hlook] at hq
    split at hq
    · cases hq
    · exact hd.pages g q hq hg
  · exact hd.frames f ((unmap_structure d m va physical).mem_iff.mp hf)
  · unfold PageDir.unmap
    split
    case h_1 => exact hm
    case h_2 q hq =>
      split
      case isTrue => exact hm.dealloc (hd.pages _ q hq hdev)
      case isFalse => exact hm

theorem Within.unmapAll {vas : List UInt32} (hd : d.Within cfg start size) (hm : m.Within start size)
    (hdev : ∀ va ∈ vas, ¬ DevicePage cfg (pageOf va)) (physical : Bool) :
    (d.unmapAll m vas physical).1.Within cfg start size ∧
    (d.unmapAll m vas physical).2.Within start size := by
  induction vas generalizing d m with
  | nil => exact ⟨hd, hm⟩
  | cons va vas ih =>
    rw [List.forall_mem_cons] at hdev
    obtain ⟨hd', hm'⟩ := hd.unmap hm hdev.1 physical
    exact ih hd' hm' hdev.2

theorem copyPage_within {c c' : Sparse 1024 Pte × PhysMem} {e : Fin 1024 × Pte}
    (h : copyPage c e = some c') (hm : c.2.Within start size) :
    c'.2.Within start size ∧
    ∀ i q, c'.1.get i = some q → c.1.get i = some q ∨ InRange start size q.frame := by
  rcases copyPage_cases h with ⟨-, rfl⟩ | ⟨f, m, -, ha, rfl⟩
  · exact ⟨hm, fun i q hq => .inl hq⟩
  · obtain ⟨hf, hm'⟩ := hm.alloc ha
    refine ⟨hm'.fill _ _, fun i q hq => ?_⟩
    by_cases hi : i = e.1
    · rw [hi, Sparse.get_set_self, Option.some.injEq] at hq
      exact .inr (hq ▸ hf)
    · rw [Sparse.get_set_of_ne _ _ hi] at hq
      exact .inl hq

theorem Framed.copyTable {c c' : PageDir × PhysMem} {e : Fin 1024 × PageTable}
    (h : PageDir.copyTable c e = some c') (hd : c.1.Framed cfg start size)
    (hm : c.2.Within start size) : c'.1.Framed cfg start size ∧ c'.2.Within start size := by
  obtain ⟨pt, m, ptes, hpt, hfold, hc'⟩ := copyTable_cases h
  -- the table that is filled, before and after
  have htable : m.Within start size ∧ InRange start size pt.frame ∧
      ∀ j q, pt.ptes.get j = some q → c.1.lookup (e.1, j) = some q := by
    rcases hpt with ⟨ht, rfl⟩ | ⟨ht, hempty, ha⟩
    · refine ⟨hm, hd.frames _ ?_, fun j q hq => by simpa [lookup, ht] using hq⟩
      refine List.mem_cons_of_mem _ (List.mem_map.mpr ⟨(e.1, pt), Sparse.get_eq_some.mp ht, rfl⟩)
    · obtain ⟨hf, hm'⟩ := hm.alloc ha
      exact ⟨hm', hf, fun j q hq => by simp [hempty] at hq⟩
  obtain ⟨hm₁, hframe, hold⟩ := htable
  have hfilled : c'.2.Within start size ∧
      ∀ j q, ptes.get j = some q → pt.ptes.get j = some q ∨ InRange start size q.frame := by
    refine foldlM_keeps (I := fun s => s.2.Within start size ∧
      ∀ j q, s.1.get j = some q → pt.ptes.get j = some q ∨ InRange start size q.frame) hfold
      ⟨hm₁, fun j q hq => .inl hq⟩ fun a _ s s' hs hstep => ?_
    obtain ⟨hm', hnew⟩ := copyPage_within hstep hs.1
    exact ⟨hm', fun j q hq => (hnew j q hq).elim (hs.2 j q) .inr⟩
  refine ⟨⟨fun g q hq hg => ?_, fun f hf => ?_⟩, hfilled.1⟩
  · rw [hc', lookup_setTable] at hq
    split at hq
    case isTrue hi =>
      rcases hfilled.2 _ _ hq with hq | hq
      · have := hold _ _ hq
        rw [← hi] at this
        exact hd.pages g q this hg
      · exact hq
    case isFalse => exact hd.pages g q hq hg
  · rw [hc'] at hf
    rcases hpt with ⟨ht, -⟩ | ⟨ht, -, -⟩
    · exact hd.frames f ((structure_setTable { pt with ptes := ptes } ht rfl).mem_iff.mp hf)
    · rcases List.mem_cons.mp ((structure_newTable { pt with ptes := ptes } ht).mem_iff.mp hf) with rfl | hf
      · exact hframe
      · exact hd.frames f hf

theorem Within.copyUser {parent : PageDir} (h : parent.copyUser d m = some (d', m'))
    (hd : d.Within cfg start size) (hm : m.Within start size) :
    d'.Within cfg start size ∧ m'.Within start size := by
  have hkeeps := (copyUser_spec h).1.keeps
  have hframed : d'.Framed cfg start size ∧ m'.Within start size :=
    foldlM_keeps (I := fun s => s.1.Framed cfg start size ∧ s.2.Within start size) h
      ⟨hd.toFramed, hm⟩ fun _ _ _ _ hs hstep => hs.1.copyTable hstep hs.2
  exact ⟨⟨⟨hkeeps _ _ hd.ioAPIC, hkeeps _ _ hd.localAPIC⟩, hframed.1⟩, hframed.2⟩

theorem Within.freed (hd : d.Within cfg start size) : ∀ f ∈ d.freedFrames cfg, InRange start size f := by
  intro f hf
  simp only [freedFrames, List.mem_append, List.mem_flatMap, List.mem_filter, List.mem_singleton,
    decide_eq_true_eq] at hf
  rcases hf with ⟨e, ⟨he, h512⟩, hf | rfl⟩ | rfl
  · simp only [deletedFrames, List.mem_map, List.mem_filter, decide_eq_true_eq] at hf
    obtain ⟨x, ⟨hx, hspecial⟩, rfl⟩ := hf
    refine hd.pages (e.1, x.1) x.2 ?_ ?_
    · rw [lookup, Sparse.get_eq_some.mpr he, Option.bind_some, Sparse.get_eq_some.mpr hx]
    · exact fun hdev => hspecial ((isSpecial_iff h512).mpr hdev)
  · exact hd.frames _ (List.mem_cons_of_mem _ (List.mem_map_of_mem he))
  · exact hd.frames _ List.mem_cons_self

theorem Within.deletePd (hd : d.Within cfg start size) (hm : m.Within start size) :
    (d.deletePd cfg m).Within start size := by
  rw [deletePd_eq]
  exact hm.deallocAll hd.freed

end

end PageDir

/-- No frame is mapped over a device page, and the unmap loop visits none. A shared entry with a
null `node` ends the process before the loop. -/
def AvoidsDevices (cfg : Config) (k : Kernel) : Call → Prop
  | .pageFault pid va => ∀ p, k.procs[pid]? = some p → DevicePage cfg (pageOf va) →
      ∀ e ∈ p.entryList, e.holds (framedown va) = false
  | .munmap pid addr _ => ∀ p, k.procs[pid]? = some p → isSpecial cfg addr = false →
      ∀ e rest, takeEntry addr p.entryList = some (e, rest) →
      (e.isShared = true → e.node.value ≠ .null) → ∀ va ∈ e.pages, ¬ DevicePage cfg (pageOf va)
  | _ => True

/-- The device entries of all directories are as made, and all that was ever freed and is still
free lies in the range. No call allocates after it has freed, so a frame that a call hands to
`dealloc_frame` is free when the call ends. -/
structure Untouched (cfg : Config) (start size : ℕ) (k : Kernel) : Prop where
  devices : ∀ (i : ℕ) (p : Process), k.procs[i]? = some p → p.pd.MapsDevices cfg
  freed : ∀ f ∈ k.phys.free, InRange start size f

structure Guarded (cfg : Config) (start size : ℕ) (k : Kernel) : Prop where
  phys : k.phys.Within start size
  nodes : ∀ (n : ℕ) (x : NodeEntry), k.nodes[n]? = some x → InRange start size x.pa
  procs : ∀ (i : ℕ) (p : Process), k.procs[i]? = some p → p.pd.Within cfg start size

section
variable {cfg : Config} {files : FileSystem} {start size : ℕ} {k k₁ k' : Kernel} {c : Call} {pid : ℕ}
  {p q : Process}

theorem Guarded.put (h : Guarded cfg start size k) (hp : k.procs[pid]? = some p)
    (hq : q.pd.Within cfg start size) : Guarded cfg start size (k.put pid q) := by
  refine ⟨h.phys, h.nodes, fun i p' hp' => ?_⟩
  rcases put_get hp hp' with ⟨-, rfl⟩ | ⟨-, hp'⟩
  · exact hq
  · exact h.procs i p' hp'

theorem Guarded.append (h : Guarded cfg start size k) (hq : q.pd.Within cfg start size) :
    Guarded cfg start size { k with procs := k.procs ++ [q] } := by
  refine ⟨h.phys, h.nodes, fun i p' hp' => ?_⟩
  rcases append_get hp' with hp' | ⟨-, rfl⟩
  · exact h.procs i p' hp'
  · exact hq

theorem Guarded.phys_eq (h : Guarded cfg start size k) {m : PhysMem} (hm : m.Within start size) :
    Guarded cfg start size { k with phys := m } := ⟨hm, h.nodes, h.procs⟩

theorem Guarded.recount (h : Guarded cfg start size k) {nodes : List NodeEntry}
    (hs : SameFrames k.nodes nodes) : Guarded cfg start size { k with nodes := nodes } := by
  refine ⟨h.phys, fun n x hx => ?_, h.procs⟩
  have := hs n
  rw [hx, Option.map_some] at this
  obtain ⟨y, hy, he⟩ := Option.map_eq_some_iff.mp this.symm
  rw [← (Prod.mk.inj he).2]
  exact h.nodes n y hy

theorem Guarded.resolve {e e' : VMEntry} {va : UInt32} {pa : ℕ} (h : Guarded cfg start size k)
    (hres : k.resolve files e va = some (pa, e', k₁)) :
    InRange start size pa ∧ Guarded cfg start size k₁ := by
  rcases resolve_cases hres with ⟨-, -, m, ha, rfl⟩ | ⟨number, n, x, -, -, hx, rfl, -, rfl⟩ |
    ⟨number, m, -, -, ha, -, rfl⟩
  · obtain ⟨hf, hm⟩ := h.phys.alloc ha
    exact ⟨hf, h.phys_eq hm⟩
  · exact ⟨h.nodes n x hx, h.recount (sameFrames_modify _ _ _)⟩
  · obtain ⟨hf, hm⟩ := h.phys.alloc ha
    refine ⟨hf, hm.fill _ _, fun n x hx => ?_, h.procs⟩
    rcases List.mem_append.mp (List.mem_of_getElem? hx) with hx | hx
    · obtain ⟨i, hi⟩ := List.mem_iff_getElem?.mp hx
      exact h.nodes i x hi
    · rw [List.mem_singleton.mp hx]
      exact hf

theorem release_pd {e : VMEntry} {physical : Bool} (h : k.release pid p e physical = some k') :
    ∃ q, q.pd = (p.pd.unmapAll k.phys e.pages physical).1 ∧
      k'.procs = k.procs.set pid q ∧ k'.nodes = k.nodes ∧
      k'.phys = (p.pd.unmapAll k.phys e.pages physical).2 := by
  rcases release_cases h with ⟨-, rfl⟩ | ⟨-, -, rfl⟩ | ⟨-, -, n, number, -, -, rfl⟩
  · exact ⟨p.unmapped k.phys e physical, rfl, rfl, rfl, rfl⟩
  · exact ⟨(p.unmapped k.phys e physical).stopped, rfl, rfl, rfl, rfl⟩
  · exact ⟨p.unmapped k.phys e physical, rfl, rfl, rfl, rfl⟩

theorem Guarded.release {e : VMEntry} {physical : Bool} (h : Guarded cfg start size k)
    (hp : k.procs[pid]? = some q) (hd : p.pd.Within cfg start size)
    (hr : k.release pid p e physical = some k')
    (hdev : ∀ va ∈ e.pages, ¬ DevicePage cfg (pageOf va)) : Guarded cfg start size k' := by
  obtain ⟨q', hq', hprocs, hnodes, hphys⟩ := release_pd hr
  obtain ⟨hd', hm'⟩ := hd.unmapAll h.phys hdev physical
  have hput := h.put (q := q') hp (hq' ▸ hd')
  refine ⟨hphys ▸ hm', fun n x hx => h.nodes n x (hnodes ▸ hx), fun i p' hp' => ?_⟩
  exact hput.procs i p' (by rwa [hprocs] at hp')

theorem Guarded.munmap {addr len : UInt32} (h : Guarded cfg start size k)
    (hp : k.procs[pid]? = some p) (hc : AvoidsDevices cfg k (.munmap pid addr len))
    (hm : k.munmap cfg pid p addr = some k') : Guarded cfg start size k' := by
  have hd := h.procs pid p hp
  rcases munmap_cases hm with rfl | ⟨front, e, back, hs, htake, -, hcases⟩
  · exact h
  have hcut : Process.pd { p with entryList := front ++ back } |>.Within cfg start size := hd
  rcases hcases with ⟨hpriv, hr⟩ | ⟨-, -, rfl⟩ | ⟨-, n, x, hn, -, hr⟩
  · refine h.release hp hcut hr (hc p hp hs e _ htake fun hsh => ?_)
    rw [hpriv] at hsh
    cases hsh
  · exact h.put hp hd
  · refine (h.recount (sameFrames_modify _ _ _)).release hp hcut hr (hc p hp hs e _ htake fun _ => ?_)
    rw [hn]
    exact fun hnull => by cases hnull

theorem PageDir.MapsDevices.get {d : PageDir} {g : Page} (h : d.MapsDevices cfg) (hg : DevicePage cfg g) :
    ∃ f, d.lookup g = some ⟨f, false⟩ := by
  rcases hg with rfl | rfl
  · exact ⟨_, h.ioAPIC⟩
  · exact ⟨_, h.localAPIC⟩

theorem devicePage_user {va : UInt32} (h : DevicePage cfg (pageOf va)) : ¬ framedown va < 0x80000000 := by
  rw [← addressOf_pageOf_eq]
  rcases h with h | h
  · rw [h, addressOf_pageOf cfg.io_aligned]
    exact UInt32.not_lt.mpr cfg.io_user
  · rw [h, addressOf_pageOf cfg.local_aligned]
    exact UInt32.not_lt.mpr cfg.local_user

end
end MMapKernel.Vmm
