import MMapKernel.Vmm.ContentRuns

/-!
# Two contents of one file

Two machines take the same calls, and one file differs between them. Nothing but the bytes of frames
can tell the machines apart: with the bytes blanked out, every step is the step of one blank machine.
So a page without read permission hides the file in both runs or it shows what is in it.
-/

open Transition
namespace MMapKernel.Vmm

def PhysMem.blank (m : PhysMem) : PhysMem := { m with bytes := fun _ _ => 0 }

def Kernel.blank (k : Kernel) : Kernel := { k with phys := k.phys.blank }

def Tracked.blank (x : Tracked) : Tracked := (x.1.blank, x.2)

def noFiles : FileSystem := fun _ => []

section Blank
variable {m : PhysMem} {k : Kernel}

theorem blank_fill_zero (f : ℕ) : m.blank.fill f (fun _ => 0) = m.blank := by
  simp [PhysMem.fill, PhysMem.blank]

theorem fill_blank (f : ℕ) (c : ℕ → UInt8) : (m.fill f c).blank = m.blank := rfl

theorem allocFrame_blank : m.blank.allocFrame = m.allocFrame.map fun r => (r.1, r.2.blank) := by
  obtain ⟨free, avail, limit, bytes⟩ := m
  cases free with
  | cons f rest => simp [PhysMem.allocFrame, PhysMem.blank, PhysMem.fill]
  | nil =>
    by_cases h : avail = limit
    · simp [PhysMem.allocFrame, PhysMem.blank, h]
    · simp [PhysMem.allocFrame, PhysMem.blank, PhysMem.fill, h]

theorem install_blank (d : PageDir) (va : UInt32) (pte : Pte) :
    d.install m.blank va pte = (d.install m va pte).map fun r => (r.1, r.2.blank) := by
  simp only [PageDir.install]
  cases d.tables.get (pageOf va).1 with
  | some pt => rfl
  | none =>
    simp only [allocFrame_blank]
    cases m.allocFrame <;> rfl

theorem makePd_blank (cfg : Config) :
    PageDir.makePd cfg m.blank = (PageDir.makePd cfg m).map fun r => (r.1, r.2.blank) := by
  simp only [PageDir.makePd, allocFrame_blank]
  cases m.allocFrame with
  | none => rfl
  | some r =>
    obtain ⟨f, m₁⟩ := r
    simp only [Option.map_some, PageDir.map, install_blank]
    cases PageDir.install ⟨f, Sparse.empty⟩ m₁ cfg.ioAPIC ⟨cfg.ioAPIC.toNat, false⟩ with
    | none => rfl
    | some r => simp only [Option.map_some, install_blank]

theorem spawn_blank (cfg : Config) : k.blank.spawn cfg = (k.spawn cfg).map Kernel.blank := by
  simp only [Kernel.spawn, Kernel.blank, makePd_blank, Option.map_map]
  rfl

theorem mmap_blank (cfg : Config) (pid : ℕ) (p : Process) (a : MmapArgs) :
    k.blank.mmap cfg pid p a = (k.mmap cfg pid p a).blank := by
  unfold Kernel.mmap
  cases Vmm.mmap cfg p.entryList a <;> rfl

theorem pageContent_noFiles (e : VMEntry) (number : ℕ) (va : UInt32) :
    pageContent noFiles e number va = fun _ => 0 := by
  funext i
  simp [pageContent, noFiles]

theorem resolve_blank (files : FileSystem) (e : VMEntry) (va : UInt32) :
    k.blank.resolve noFiles e va =
      (k.resolve files e va).map fun r => (r.1, r.2.1, r.2.2.blank) := by
  have hfind : ∀ number, k.blank.findNode number = k.findNode number := fun _ => rfl
  simp only [Kernel.resolve]
  cases e.sharedFile with
  | none =>
    simp only [Kernel.blank, allocFrame_blank, Option.map_map]
    rfl
  | some number =>
    simp only [hfind]
    cases k.findNode number with
    | some n =>
      simp only [Kernel.blank, Option.map_map]
      rfl
    | none =>
      simp only [Kernel.blank, allocFrame_blank, Option.map_map, pageContent_noFiles]
      congr 1
      funext r
      simp only [Function.comp, blank_fill_zero, fill_blank]

theorem pageFault_blank (files : FileSystem) (pid : ℕ) (p : Process) (va : UInt32) :
    k.blank.pageFault noFiles pid p va = (k.pageFault files pid p va).map Kernel.blank := by
  simp only [Kernel.pageFault]
  by_cases hlow : framedown va < 0x80000000
  · simp only [hlow, if_true]
    rfl
  simp only [hlow, if_false]
  cases p.entryList.find? fun e => e.holds (framedown va) with
  | none => rfl
  | some e =>
    simp only [resolve_blank files]
    cases k.resolve files e (framedown va) with
    | none => rfl
    | some r =>
      obtain ⟨pa, e', k₁⟩ := r
      have hphys : k₁.blank.phys = k₁.phys.blank := rfl
      simp only [Option.map_some, PageDir.userMap, hphys, install_blank]
      cases p.pd.install k₁.phys (framedown va) ⟨pa, true⟩ <;> rfl

theorem step_blank {cfg : Config} {c : Call} (files : FileSystem) (hc : c.touching = true) :
    k.blank.step cfg noFiles c = (k.step cfg files c).map Kernel.blank := by
  have hprocs : k.blank.procs = k.procs := rfl
  cases c with
  | spawn => exact spawn_blank cfg
  | mmap pid a =>
    simp only [Kernel.step, Call.pid, hprocs]
    cases k.procs[pid]? with
    | none => rfl
    | some p =>
      simp only [Option.bind_some, Kernel.stepOn, mmap_blank]
      split <;> rfl
  | pageFault pid va =>
    simp only [Kernel.step, Call.pid, hprocs]
    cases k.procs[pid]? with
    | none => rfl
    | some p =>
      simp only [Option.bind_some, Kernel.stepOn, pageFault_blank files]
      split <;> rfl
  | munmap | fork | exit | kill | tick | destroy => cases hc

theorem trackedStep_blank {cfg : Config} (files : FileSystem) (x : Tracked) (c : Call) :
    trackedStep cfg noFiles x.blank c = (trackedStep cfg files x c).map Tracked.blank := by
  unfold trackedStep
  by_cases hc : c.touching = true
  · simp only [hc, if_true, Tracked.blank, step_blank files hc, Option.map_map]
    rfl
  · simp only [hc, Bool.false_eq_true, if_false]
    rfl

theorem trackedStep_alike (cfg : Config) (files₁ files₂ : FileSystem) {x₁ x₂ : Tracked} (c : Call)
    (h : x₁.blank = x₂.blank) :
    (trackedStep cfg files₁ x₁ c).map Tracked.blank = (trackedStep cfg files₂ x₂ c).map Tracked.blank := by
  rw [← trackedStep_blank, ← trackedStep_blank, h]

end Blank

def withContent (files : FileSystem) (number : ℕ) (content : List UInt8) : FileSystem :=
  Function.update files number content

def pairStep (cfg : Config) (files₁ files₂ : FileSystem) (x : Tracked × Tracked) (c : Call) :
    Option (Tracked × Tracked) :=
  (trackedStep cfg files₁ x.1 c).bind fun y₁ => (trackedStep cfg files₂ x.2 c).map fun y₂ => (y₁, y₂)

def hiddenBytes (number : ℕ) : Expectation := fun e =>
  if e.prot &&& 2 = 0 ∧ e.file = some number then some fun _ _ => 0 else none

/-- The process has touched page `g` of a mapping of the file without read permission. -/
structure HiddenPage (p : Process) (e : VMEntry) (number : ℕ) (g : Page) (f : ℕ) : Prop where
  found : p.entryList.find? (fun e => e.holds (addressOf g)) = some e
  file : e.file = some number
  hidden : e.prot &&& 2 = 0
  present : p.pd.lookup g = some ⟨f, true⟩

def SeesNothing (number : ℕ) (x : Tracked × Tracked) : Prop :=
  ∀ (pid : ℕ) (p₁ p₂ : Process), x.1.1.procs[pid]? = some p₁ → x.2.1.procs[pid]? = some p₂ →
    ∀ e₁ e₂ g f₁ f₂, HiddenPage p₁ e₁ number g f₁ → HiddenPage p₂ e₂ number g f₂ →
    ∀ i < 4096, x.1.1.phys.bytes f₁ i = x.2.1.phys.bytes f₂ i ∧ x.1.1.phys.bytes f₁ i = 0

def BothHide (number : ℕ) (cfg : Config) (files₁ files₂ : FileSystem) (x : Tracked × Tracked)
    (c : Call) : Prop :=
  Supplies (hiddenBytes number) cfg files₁ x.1 c ∧ Supplies (hiddenBytes number) cfg files₂ x.2 c

section Pairs
variable {cfg : Config} {files₁ files₂ : FileSystem} {number : ℕ} {x y : Tracked × Tracked} {c : Call}
  {k k₁ k₂ : Kernel} {os₁ os₂ : List (VMEntry × UInt32)} {p : Process} {e : VMEntry} {g : Page} {f : ℕ}

theorem pairStep_cases (h : pairStep cfg files₁ files₂ x c = some y) :
    trackedStep cfg files₁ x.1 c = some y.1 ∧ trackedStep cfg files₂ x.2 c = some y.2 := by
  obtain ⟨y₁, h₁, h⟩ := Option.bind_eq_some_iff.mp h
  obtain ⟨y₂, h₂, rfl⟩ := Option.map_eq_some_iff.mp h
  exact ⟨h₁, h₂⟩

theorem pairStep_eq_none_iff (hx : x.1.blank = x.2.blank) :
    pairStep cfg files₁ files₂ x c = none ↔ trackedStep cfg files₁ x.1 c = none := by
  have halike := trackedStep_alike cfg files₁ files₂ c hx
  unfold pairStep
  cases h₁ : trackedStep cfg files₁ x.1 c with
  | none => simp
  | some y₁ =>
    rw [h₁, Option.map_some] at halike
    obtain ⟨y₂, h₂, -⟩ := Option.map_eq_some_iff.mp halike.symm
    simp [h₂]

theorem alike_step (hx : x.1.blank = x.2.blank) (h : pairStep cfg files₁ files₂ x c = some y) :
    y.1.blank = y.2.blank := by
  obtain ⟨h₁, h₂⟩ := pairStep_cases h
  have halike := trackedStep_alike cfg files₁ files₂ c hx
  rw [h₁, h₂] at halike
  exact Option.some.inj halike

theorem procs_alike (hx : x.1.blank = x.2.blank) : x.1.1.procs = x.2.1.procs := by
  have hprocs : x.1.blank.1.procs = x.2.blank.1.procs := by rw [hx]
  exact hprocs

theorem Shows.hidden (h : Shows (hiddenBytes number) k) (hp : p ∈ k.procs)
    (hpage : HiddenPage p e number g f) {i : ℕ} (hi : i < 4096) : k.phys.bytes f i = 0 := by
  have hexp : hiddenBytes number e = some fun _ _ => 0 := if_pos ⟨hpage.hidden, hpage.file⟩
  exact h p hp g f e _ hpage.present hpage.found hexp i hi

theorem seesNothing_of_shows (h₁ : Shows (hiddenBytes number) x.1.1)
    (h₂ : Shows (hiddenBytes number) x.2.1) : SeesNothing number x := by
  intro pid p₁ p₂ hp₁ hp₂ e₁ e₂ g f₁ f₂ hpage₁ hpage₂ i hi
  have hzero₁ := h₁.hidden (List.mem_of_getElem? hp₁) hpage₁ hi
  have hzero₂ := h₂.hidden (List.mem_of_getElem? hp₂) hpage₂ hi
  exact ⟨hzero₁.trans hzero₂.symm, hzero₁⟩

theorem shows_of_seesNothing (hx : x.1.blank = x.2.blank) (h : SeesNothing number x) :
    Shows (hiddenBytes number) x.1.1 ∧ Shows (hiddenBytes number) x.2.1 := by
  have hprocs := procs_alike hx
  have hboth : ∀ p ∈ x.1.1.procs, ∀ g f e b, p.pd.lookup g = some ⟨f, true⟩ →
      p.entryList.find? (fun e => e.holds (addressOf g)) = some e → hiddenBytes number e = some b →
      ∀ i < 4096, x.1.1.phys.bytes f i = b (addressOf g) i ∧ x.2.1.phys.bytes f i = b (addressOf g) i := by
    intro p hp g f e b hf he hb i hi
    obtain ⟨⟨hhidden, hfile⟩, hb⟩ := Option.ite_none_right_eq_some.mp hb
    obtain ⟨pid, hpid⟩ := List.mem_iff_getElem?.mp hp
    have hpage : HiddenPage p e number g f := ⟨he, hfile, hhidden, hf⟩
    obtain ⟨hsame, hzero⟩ := h pid p p hpid (hprocs ▸ hpid) e e g f f hpage hpage i hi
    rw [← hsame, hzero, ← Option.some.inj hb]
    exact ⟨rfl, rfl⟩
  constructor
  · intro p hp g f e b hf he hb i hi
    exact (hboth p hp g f e b hf he hb i hi).1
  · intro p hp g f e b hf he hb i hi
    exact (hboth p (hprocs.symm ▸ hp) g f e b hf he hb i hi).2

structure Veiled (number : ℕ) (files₁ files₂ : FileSystem) (x : Tracked × Tracked) : Prop where
  alike : x.1.blank = x.2.blank
  kept₁ : Kept files₁ x.1
  kept₂ : Kept files₂ x.2
  shows₁ : Shows (hiddenBytes number) x.1.1
  shows₂ : Shows (hiddenBytes number) x.2.1

theorem veiled_booted (hk : Booted k) : Veiled number files₁ files₂ ((k, []), (k, [])) :=
  ⟨rfl, kept_booted hk, kept_booted hk, shows_booted hk, shows_booted hk⟩

theorem veiled_step (h : Veiled number files₁ files₂ x) (hstep : pairStep cfg files₁ files₂ x c = some y)
    (hg : BothHide number cfg files₁ files₂ x c) : Veiled number files₁ files₂ y := by
  obtain ⟨h₁, h₂⟩ := pairStep_cases hstep
  have hserves₁ : Serves (hiddenBytes number) cfg files₁ x.1 c y.1 :=
    tracked_serves (fun _ _ => rfl) h.kept₁ h₁
  have hserves₂ : Serves (hiddenBytes number) cfg files₂ x.2 c y.2 :=
    tracked_serves (fun _ _ => rfl) h.kept₂ h₂
  exact ⟨alike_step h.alike hstep, hserves₁.kept, hserves₂.kept, hserves₁.shows h.shows₁ hg.1,
    hserves₂.shows h.shows₂ hg.2⟩

theorem veiled_break (h : Veiled number files₁ files₂ x) (hstep : pairStep cfg files₁ files₂ x c = some y)
    (hy : SeesNothing number y) : BothHide number cfg files₁ files₂ x c := by
  obtain ⟨h₁, h₂⟩ := pairStep_cases hstep
  obtain ⟨hshows₁, hshows₂⟩ := shows_of_seesNothing (alike_step h.alike hstep) hy
  exact ⟨(tracked_serves (fun _ _ => rfl) h.kept₁ h₁).supplies hshows₁,
    (tracked_serves (fun _ _ => rfl) h.kept₂ h₂).supplies hshows₂⟩

end Pairs

/-- From boot on, with any two contents of a file: a touched page of a mapping without read permission
shows zeros in both runs exactly if every fault on such a page is supplied with zeros in both. -/
theorem no_permission_shows_nothing_iff (cfg : Config) (files : FileSystem) (number : ℕ)
    (content₁ content₂ : List UInt8) {k : Kernel} (hk : Booted k) (cs : List Call) :
    let files₁ := withContent files number content₁
    let files₂ := withContent files number content₂
    Always (pairStep cfg files₁ files₂) (SeesNothing number) ((k, []), (k, [])) cs ↔
      Throughout (pairStep cfg files₁ files₂) (BothHide number cfg files₁ files₂) ((k, []), (k, [])) cs :=
  always_iff_throughout (I := Veiled number _ _) (fun _ h => seesNothing_of_shows h.shows₁ h.shows₂)
    (fun _ _ _ => veiled_step) (fun _ _ _ => veiled_break) (veiled_booted hk) cs

def hiddenPage : MmapArgs :=
  { addr := 0, length := 4096, prot := 0, flags := 1, fd := .node 5, offset := 0, word := .null }

def touchHidden : List Call :=
  [.spawn, .spawn, .mmap 0 { hiddenPage with prot := 2 }, .mmap 1 hiddenPage, .pageFault 0 0x80000000,
    .pageFault 1 0x80000000]

theorem no_permission_shows_nothing_iff_touched :
    let files₁ := withContent noFiles 5 [1]
    let files₂ := withContent noFiles 5 [2]
    Always (pairStep qemu files₁ files₂) (SeesNothing 5) ((bootKernel, []), (bootKernel, [])) touchHidden ↔
      Throughout (pairStep qemu files₁ files₂) (BothHide 5 qemu files₁ files₂)
        ((bootKernel, []), (bootKernel, [])) touchHidden :=
  no_permission_shows_nothing_iff qemu noFiles 5 [1] [2] bootKernel_booted touchHidden

def hiddenEntry : VMEntry := { hiddenPage.newEntry (some 5) 0x80000000 with node := .set 0 }

def secondView (x : Tracked) : Option (List VMEntry × Option Pte × UInt8) :=
  (x.1.procs[1]?).map fun p =>
    (p.entryList, p.pd.lookup (pageOf 0x80000000), x.1.phys.bytes 0x104000 0)

/-- The second process sees the first byte of the file. -/
theorem no_permission_shows_file :
    let files₁ := withContent noFiles 5 [1]
    let files₂ := withContent noFiles 5 [2]
    ¬ Always (pairStep qemu files₁ files₂) (SeesNothing 5) ((bootKernel, []), (bootKernel, []))
      touchHidden := by
  intro files₁ files₂ h
  have hrun : (run (pairStep qemu files₁ files₂) (fun _ _ => true) ((bootKernel, []), (bootKernel, []))
      touchHidden).map (fun x => [secondView x.1, secondView x.2]) =
        some [some ([hiddenEntry], some ⟨0x104000, true⟩, 1),
          some ([hiddenEntry], some ⟨0x104000, true⟩, 2)] := by
    decide +kernel
  obtain ⟨x, hx, hview⟩ := Option.map_eq_some_iff.mp hrun
  simp only [List.cons.injEq, and_true] at hview
  obtain ⟨hview₁, hview₂⟩ := hview
  obtain ⟨p₁, hp₁, hv₁⟩ := Option.map_eq_some_iff.mp hview₁
  obtain ⟨p₂, hp₂, hv₂⟩ := Option.map_eq_some_iff.mp hview₂
  simp only [Prod.mk.injEq] at hv₁ hv₂
  have hpage₁ : HiddenPage p₁ hiddenEntry 5 (pageOf 0x80000000) 0x104000 :=
    ⟨by rw [hv₁.1]; decide, rfl, by decide, hv₁.2.1⟩
  have hpage₂ : HiddenPage p₂ hiddenEntry 5 (pageOf 0x80000000) 0x104000 :=
    ⟨by rw [hv₂.1]; decide, rfl, by decide, hv₂.2.1⟩
  have hsees := (h.last hx 1 p₁ p₂ hp₁ hp₂ _ _ _ _ _ hpage₁ hpage₂ 0 (by decide)).1
  rw [hv₁.2.2, hv₂.2.2] at hsees
  exact absurd hsees (by decide)

end MMapKernel.Vmm
