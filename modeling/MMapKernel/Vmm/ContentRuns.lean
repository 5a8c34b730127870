import MMapKernel.Vmm.Content
import MMapKernel.Vmm.SharingRuns

/-!
# File contents along runs

One equivalence for all expectations, and what it says of shared mappings with read permission, of
private ones, and of mappings without read permission.
-/

open Transition
namespace MMapKernel.Vmm

section Steps
variable {cfg : Config} {files : FileSystem} {k k' : Kernel} {os : List (VMEntry × UInt32)} {pid : ℕ}
  {p : Process} {expect : Expectation} {x y : Tracked} {c : Call}

structure Serves (expect : Expectation) (cfg : Config) (files : FileSystem) (x : Tracked) (c : Call)
    (y : Tracked) : Prop where
  kept : Kept files y
  shows : Shows expect x.1 → Supplies expect cfg files x c → Shows expect y.1
  supplies : Shows expect y.1 → Supplies expect cfg files x c

theorem spawn_serves (h : Kept files (k, os)) (hk : k.spawn cfg = some k') :
    Serves expect cfg files (k, os) .spawn (k', os) := by
  obtain ⟨d, m, hd, rfl⟩ := spawn_cases hk
  have hgrow := Grows.makePd h.free hd
  have hk₁ := h.grow hgrow
  have hnone : ∀ g f, d.lookup g ≠ some ⟨f, true⟩ := fun g f hf => by
    cases (PageDir.makePd_spec hd).1 g _ hf
  refine ⟨⟨hk₁.free, hk₁.linked, hk₁.length, hk₁.nodes, fun p hp g f hf => ?_⟩, fun hs _ => ?_,
    fun _ => trivial⟩
  · rcases List.mem_append.mp hp with hp | hp
    · exact hk₁.pages p hp g f hf
    · rw [List.mem_singleton.mp hp] at hf
      exact absurd hf (hnone g f)
  · intro p hp g f e b hf he hb i hi
    rcases List.mem_append.mp hp with hp | hp
    · exact hs.grow h hgrow p hp g f e b hf he hb i hi
    · rw [List.mem_singleton.mp hp] at hf
      exact absurd hf (hnone g f)

theorem mmap_serves {a : MmapArgs} (h : Kept files (k, os)) (hp : k.procs[pid]? = some p) :
    Serves expect cfg files (k, os) (.mmap pid a) (k.mmap cfg pid p a, os) := by
  have hmem := List.mem_of_getElem? hp
  have hput : ∀ va es, Vmm.mmap cfg p.entryList a = .mapped va es →
      k.mmap cfg pid p a = k.put pid { p with entryList := es } := by
    intro va es hm
    simp [Kernel.mmap, hm]
  have hsupplies : Shows expect (k.mmap cfg pid p a) → Supplies expect cfg files (k, os) (.mmap pid a) := by
    intro hs q va es hq hm g f e b hf he _ hb i hi
    cases hp.symm.trans hq
    have hnew : (k.mmap cfg pid p a).procs[pid]? = some { p with entryList := es } := by
      have hlt := (List.getElem?_eq_some_iff.mp hp).1
      simp [hput va es hm, Kernel.put, hlt]
    have hshow := hs _ (List.mem_of_getElem? hnew) g f e b hf he hb i hi
    rw [hput va es hm] at hshow
    exact hshow
  rcases mmap_cases cfg k pid p a with hk | ⟨-, hk⟩ | ⟨va, es, hm, hk⟩
  · exact ⟨hk.symm ▸ h, fun hs _ => hk.symm ▸ hs, hsupplies⟩
  · rw [hk] at hsupplies ⊢
    obtain ⟨hkept, hshows⟩ := stopped_kept expect h hp
    exact ⟨hkept, fun hs _ => hshows hs, hsupplies⟩
  · rw [hk] at hsupplies ⊢
    refine ⟨h.put (h.pages p hmem), fun hs hg => hs.put fun g f e b hf he hb i hi => ?_, hsupplies⟩
    by_cases hsame : p.entryList.find? (fun e => e.holds (addressOf g)) = some e
    · exact hs p hmem g f e b hf hsame hb i hi
    · exact hg p va es hp hm g f e b hf he hsame hb i hi

theorem pageFault_serves {va : UInt32} (hexp : ∀ e x, expect { e with node := x } = expect e)
    (h : Kept files (k, os)) (hp : k.procs[pid]? = some p)
    (hk : k.pageFault files pid p va = some k') :
    Serves expect cfg files (k, os) (.pageFault pid va) (k', os ++ k.origins (.pageFault pid va)) := by
  have hoff : k.faulting pid va = none → k' = k.put pid p.stopped →
      Serves expect cfg files (k, os) (.pageFault pid va) (k', os ++ k.origins (.pageFault pid va)) := by
    rintro hnone rfl
    obtain ⟨hkept, hshows⟩ := stopped_kept expect h hp
    have horigins : k.origins (.pageFault pid va) = [] := by simp [Kernel.origins, hnone]
    rw [horigins, List.append_nil]
    refine ⟨hkept, fun hs _ => hshows hs, fun _ e b he => ?_⟩
    rw [hnone] at he
    cases he
  by_cases hlow : framedown va < 0x80000000
  · rw [pageFault_low hlow] at hk
    exact hoff (by simp [Kernel.faulting, hlow]) (Option.some.inj hk).symm
  rcases pageFault_cases hk with ⟨hout, hk'⟩ |
    ⟨front, e, back, pa, e', k₁, pd, m, hes, hfind, -, hres, hmap, rfl⟩
  · exact hoff (by simp [Kernel.faulting, hlow, hp, hout.resolve_left hlow]) hk'
  · have hfault := faulting_eq hp hlow hfind
    have horigins : k.origins (.pageFault pid va) = if k.founds e then [(e, framedown va)] else [] := by
      simp [Kernel.origins, hfault]
    obtain ⟨hkept, hshows, hsupplies⟩ := mapped_kept hexp h hp hes hfind hres hmap
    rw [horigins]
    refine ⟨hkept, fun hs hg => hshows hs fun b => hg e b hfault, fun hs a b ha => ?_⟩
    cases hfault.symm.trans ha
    exact hsupplies hs b

theorem tracked_serves (hexp : ∀ e x, expect { e with node := x } = expect e) (h : Kept files x)
    (hstep : trackedStep cfg files x c = some y) : Serves expect cfg files x c y := by
  obtain ⟨k, os⟩ := x
  obtain ⟨htouch, hstep⟩ := Option.ite_none_right_eq_some.mp hstep
  obtain ⟨k', hk, rfl⟩ := Option.map_eq_some_iff.mp hstep
  have hcase := step_cases hk
  cases c with
  | spawn =>
    have hserves : Serves expect cfg files (k, os) .spawn (k', os) := spawn_serves h hcase
    simpa [Kernel.origins] using hserves
  | mmap pid a =>
    obtain ⟨p, hp, -, rfl⟩ := hcase
    have hserves : Serves expect cfg files (k, os) (.mmap pid a) (k.mmap cfg pid p a, os) :=
      mmap_serves h hp
    simpa [Kernel.origins] using hserves
  | pageFault pid va =>
    obtain ⟨p, hp, -, -, hk'⟩ := hcase
    exact pageFault_serves hexp h hp hk'
  | munmap | fork | exit | kill | tick | destroy => cases htouch

theorem shows_iff_supplied (hexp : ∀ e x, expect { e with node := x } = expect e) (hk : Booted k)
    (cs : List Call) :
    Always (trackedStep cfg files) (fun x => Shows expect x.1) (k, []) cs ↔
      Throughout (trackedStep cfg files) (Supplies expect cfg files) (k, []) cs := by
  refine always_iff_throughout (I := fun x => Kept files x ∧ Shows expect x.1) (fun x hx => hx.2) ?_ ?_
    ⟨kept_booted hk, shows_booted hk⟩ cs
  · intro x c y hx hstep hg
    have hserves := tracked_serves hexp hx.1 hstep
    exact ⟨hserves.kept, hserves.shows hx.2 hg⟩
  · intro x c y hx hstep hy
    exact (tracked_serves hexp hx.1 hstep).supplies hy

end Steps

def fileByte (files : FileSystem) (number : ℕ) (e : VMEntry) (va : UInt32) (i : ℕ) : UInt8 :=
  ((files number)[e.offset.toNat + (va.toNat - e.startingAddress.toNat) + i]?).getD 0

def sharedBytes (files : FileSystem) : Expectation := fun e =>
  if e.isShared ∧ e.prot &&& 2 = 2 then e.file.map fun number => fileByte files number e else none

theorem pageContent_eq_fileByte {files : FileSystem} {e : VMEntry} {number : ℕ} {va : UInt32}
    (hprot : e.prot &&& 2 = 2) (hin : e.holds va)
    (hwrap : e.offset.toNat + (va.toNat - e.startingAddress.toNat) < 2 ^ 32) :
    pageContent files e number va = fileByte files number e va := by
  funext i
  have hlo := (VMEntry.holds_iff.mp hin).1
  have hoff : (e.offset + va - e.startingAddress).toNat =
      e.offset.toNat + (va.toNat - e.startingAddress.toNat) := by
    have hs := e.startingAddress.toNat_lt
    rw [UInt32.toNat_sub, UInt32.toNat_add]
    omega
  simp only [pageContent, hprot, if_true, hoff, fileByte]

section Supplied
variable {files : FileSystem} {x : Tracked} {e : VMEntry} {number : ℕ} {va : UInt32}

theorem first_fault_supplied (hfile : e.sharedFile = some number) (hnew : x.1.findNode number = none)
    (hprot : e.prot &&& 2 = 2) (hin : e.holds va)
    (hwrap : e.offset.toNat + (va.toNat - e.startingAddress.toNat) < 2 ^ 32) :
    supplied files x e va = fileByte files number e va := by
  unfold supplied
  rw [hfile]
  dsimp only
  rw [hnew]
  exact pageContent_eq_fileByte hprot hin hwrap

theorem later_fault_supplied {n : ℕ} {e₀ : VMEntry} {va₀ : UInt32} (hfile : e.sharedFile = some number)
    (hn : x.1.findNode number = some n) (horigin : x.2[n]? = some (e₀, va₀))
    (hprot : e₀.prot &&& 2 = 2) (hin : e₀.holds va₀)
    (hplace : e₀.offset.toNat + (va₀.toNat - e₀.startingAddress.toNat) =
      e.offset.toNat + (va.toNat - e.startingAddress.toNat))
    (hwrap : e.offset.toNat + (va.toNat - e.startingAddress.toNat) < 2 ^ 32) :
    supplied files x e va = fileByte files number e va := by
  unfold supplied
  rw [hfile]
  dsimp only
  rw [hn]
  dsimp only
  rw [horigin]
  dsimp only
  rw [pageContent_eq_fileByte hprot hin (hplace ▸ hwrap)]
  funext i
  rw [fileByte, fileByte, hplace]

end Supplied

/-- From boot on, every touched page of a shared mapping with read permission shows the bytes of its
file exactly if every fault on such a page is supplied with them. -/
theorem shared_pages_show_file_iff (cfg : Config) (files : FileSystem) {k : Kernel} (hk : Booted k)
    (cs : List Call) :
    Always (trackedStep cfg files) (fun x => Shows (sharedBytes files) x.1) (k, []) cs ↔
      Throughout (trackedStep cfg files) (Supplies (sharedBytes files) cfg files) (k, []) cs :=
  shows_iff_supplied (fun _ _ => rfl) hk cs

def stripes : FileSystem := fun n => if n = 5 then List.replicate 4096 1 ++ [2] else []

def touchTwoPages : List Call :=
  [.spawn, .mmap 0 twoSharedPages, .pageFault 0 0x80000000, .pageFault 0 0x80001000]

theorem shared_pages_show_file_iff_stripes :
    Always (trackedStep qemu stripes) (fun x => Shows (sharedBytes stripes) x.1) (bootKernel, [])
        touchTwoPages ↔
      Throughout (trackedStep qemu stripes) (Supplies (sharedBytes stripes) qemu stripes)
        (bootKernel, []) touchTwoPages :=
  shared_pages_show_file_iff qemu stripes bootKernel_booted touchTwoPages

def Tracked.view (x : Tracked) : List (List VMEntry × Option Pte × Option Pte) :=
  x.1.procs.map fun p =>
    (p.entryList, p.pd.lookup (pageOf 0x80000000), p.pd.lookup (pageOf 0x80001000))

/-- The second page of the mapping shows the first page of the file. -/
theorem second_page_shows_first :
    ¬ Always (trackedStep qemu stripes) (fun x => Shows (sharedBytes stripes) x.1) (bootKernel, [])
      touchTwoPages := by
  intro h
  have hrun : (run (trackedStep qemu stripes) (fun _ _ => true) (bootKernel, []) touchTwoPages).map
      (fun x => (x.view, x.1.phys.bytes 0x102000 0)) =
        some ([([touchedEntry], some ⟨0x102000, true⟩, some ⟨0x102000, true⟩)], 1) := by
    decide +kernel
  obtain ⟨x, hx, hview⟩ := Option.map_eq_some_iff.mp hrun
  obtain ⟨hprocs, hbyte⟩ := Prod.mk.inj hview
  obtain ⟨p, hp, hpv⟩ := List.map_eq_singleton_iff.mp hprocs
  simp only [Prod.mk.injEq] at hpv
  have hshow := h.last hx p (by simp [hp]) (pageOf 0x80001000) 0x102000 touchedEntry
    (fileByte stripes 5 touchedEntry) hpv.2.2 (by rw [hpv.1]; decide) rfl 0 (by decide)
  rw [hbyte] at hshow
  exact absurd hshow (by decide +kernel)

def readableBytes (files : FileSystem) : Expectation := fun e =>
  if e.prot &&& 2 = 2 then e.file.map fun number => fileByte files number e else none

def VMEntry.filePlace (e : VMEntry) (g : Page) : ℕ :=
  e.offset.toNat + ((addressOf g).toNat - e.startingAddress.toNat)

/-- The process has touched page `g` of a mapping of the file with read permission. -/
structure ReadablePage (p : Process) (e : VMEntry) (number : ℕ) (g : Page) (f : ℕ) : Prop where
  found : p.entryList.find? (fun e => e.holds (addressOf g)) = some e
  file : e.file = some number
  readable : e.prot &&& 2 = 2
  present : p.pd.lookup g = some ⟨f, true⟩

/-- Touched pages of readable mappings show their file, so a private and a shared page of one place
in a file show the same. -/
structure SameFile (files : FileSystem) (k : Kernel) : Prop where
  shows : Shows (readableBytes files) k
  agree : ∀ p₁ ∈ k.procs, ∀ p₂ ∈ k.procs, ∀ e₁ e₂ number g₁ g₂ f₁ f₂,
    ReadablePage p₁ e₁ number g₁ f₁ → ReadablePage p₂ e₂ number g₂ f₂ →
    e₁.isShared = false → e₂.isShared = true → e₁.filePlace g₁ = e₂.filePlace g₂ →
    ∀ i < 4096, k.phys.bytes f₁ i = k.phys.bytes f₂ i

theorem Shows.readable {files : FileSystem} {k : Kernel} (h : Shows (readableBytes files) k)
    {p : Process} (hp : p ∈ k.procs) {e : VMEntry} {number f : ℕ} {g : Page}
    (hpage : ReadablePage p e number g f) {i : ℕ} (hi : i < 4096) :
    k.phys.bytes f i = ((files number)[e.filePlace g + i]?).getD 0 := by
  have hexp : readableBytes files e = some (fileByte files number e) := by
    rw [readableBytes, if_pos hpage.readable, hpage.file, Option.map_some]
  exact h p hp g f e _ hpage.present hpage.found hexp i hi

theorem sameFile_iff {files : FileSystem} {k : Kernel} :
    SameFile files k ↔ Shows (readableBytes files) k := by
  refine ⟨SameFile.shows, fun h => ⟨h, ?_⟩⟩
  intro p₁ hp₁ p₂ hp₂ e₁ e₂ number g₁ g₂ f₁ f₂ h₁ h₂ _ _ hplace i hi
  calc k.phys.bytes f₁ i
      = ((files number)[e₁.filePlace g₁ + i]?).getD 0 := h.readable hp₁ h₁ hi
    _ = ((files number)[e₂.filePlace g₂ + i]?).getD 0 := by rw [hplace]
    _ = k.phys.bytes f₂ i := (h.readable hp₂ h₂ hi).symm

/-- From boot on, private and shared mappings with read permission show the same file exactly if every
fault on such a page is supplied with the bytes of the file. A private page is supplied with zeros. -/
theorem private_shows_file_iff (cfg : Config) (files : FileSystem) {k : Kernel} (hk : Booted k)
    (cs : List Call) :
    Always (trackedStep cfg files) (fun x => SameFile files x.1) (k, []) cs ↔
      Throughout (trackedStep cfg files) (Supplies (readableBytes files) cfg files) (k, []) cs := by
  simp only [sameFile_iff]
  exact shows_iff_supplied (fun _ _ => rfl) hk cs

def privatePage : MmapArgs :=
  { addr := 0, length := 4096, prot := 2, flags := 0, fd := .node 5, offset := 0, word := .null }

def touchPrivate : List Call := [.spawn, .mmap 0 privatePage, .pageFault 0 0x80000000]

theorem private_shows_file_iff_stripes :
    Always (trackedStep qemu stripes) (fun x => SameFile stripes x.1) (bootKernel, []) touchPrivate ↔
      Throughout (trackedStep qemu stripes) (Supplies (readableBytes stripes) qemu stripes)
        (bootKernel, []) touchPrivate :=
  private_shows_file_iff qemu stripes bootKernel_booted touchPrivate

theorem private_page_shows_zeros :
    ¬ Always (trackedStep qemu stripes) (fun x => SameFile stripes x.1) (bootKernel, [])
      touchPrivate := by
  intro h
  have hrun : (run (trackedStep qemu stripes) (fun _ _ => true) (bootKernel, []) touchPrivate).map
      (fun x => (x.view, x.1.phys.bytes 0x102000 0)) =
        some ([([privatePage.newEntry (some 5) 0x80000000], some ⟨0x102000, true⟩, none)], 0) := by
    decide +kernel
  obtain ⟨x, hx, hview⟩ := Option.map_eq_some_iff.mp hrun
  obtain ⟨hprocs, hbyte⟩ := Prod.mk.inj hview
  obtain ⟨p, hp, hpv⟩ := List.map_eq_singleton_iff.mp hprocs
  simp only [Prod.mk.injEq] at hpv
  have hpage : ReadablePage p (privatePage.newEntry (some 5) 0x80000000) 5 (pageOf 0x80000000) 0x102000 :=
    ⟨by rw [hpv.1]; decide, rfl, by decide, hpv.2.1⟩
  have hshow := (h.last hx).shows.readable (by simp [hp]) hpage (i := 0) (by decide)
  rw [hbyte] at hshow
  exact absurd hshow (by decide +kernel)

end MMapKernel.Vmm
