import MMapKernel.Vmm.Drawing
import MMapKernel.Vmm.EntryCopy
import MMapKernel.Vmm.KernelSteps

/-!
# The address space of a forked process

The frames of the child are drawn from the allocator one after the other. Frames that were not
available before keep their contents, those of the parent among them, so each copy is made from
what the parent's frame held at the start.
-/

open Transition
namespace MMapKernel.Vmm

namespace PageDir
open PhysMem
variable {m₀ m m' : PhysMem} {parent child d d' : PageDir}

def ownFrames (d : PageDir) : List ℕ := d.structureFrames ++ d.userFrames

/-- The child's directory while it is filled; `m₀` is the memory when `fork` begins. -/
structure Copying (m₀ : PhysMem) (parent d : PageDir) (m : PhysMem) : Prop where
  draws : Draws m₀ m
  ledger : Ledger m d.ownFrames
  fresh : ∀ f ∈ d.ownFrames, m₀.Available f
  content : ∀ a pte, d.lookup a = some pte → pte.user = true →
    ∃ q, parent.lookup a = some q ∧ m.bytes pte.frame = m₀.bytes q.frame

theorem pages_perm_of_lookup_eq (h : ∀ a, d'.lookup a = d.lookup a) : d'.pages.Perm d.pages := by
  refine (List.perm_ext_iff_of_nodup (pages_nodup d') (pages_nodup d)).mpr fun x => ?_
  rw [mem_pages, mem_pages, h]

theorem mem_userFrames {a : Page} {pte : Pte} (h : d.lookup a = some pte) (hu : pte.user = true) :
    pte.frame ∈ d.userFrames :=
  List.mem_map.mpr ⟨(a, pte), List.mem_filter.mpr ⟨mem_pages.mpr h, hu⟩, rfl⟩

theorem Copying.congr (h : Copying m₀ parent d m) (hl : ∀ a, d'.lookup a = d.lookup a)
    (hs : d'.structureFrames.Perm d.structureFrames) : Copying m₀ parent d' m := by
  have hp : d'.ownFrames.Perm d.ownFrames :=
    hs.append (((pages_perm_of_lookup_eq hl).filter _).map _)
  refine ⟨h.draws, h.ledger.perm hp.symm, fun f hf => h.fresh f (hp.mem_iff.mp hf), ?_⟩
  intro a pte hpte
  exact h.content a pte ((hl a).symm.trans hpte)

theorem Copying.alloc {f : ℕ} (h : Copying m₀ parent d m) (ha : m.allocFrame = some (f, m')) :
    m₀.Available f ∧ Draws m₀ m' ∧ Ledger m' (f :: d.ownFrames) ∧
      ∀ a pte, d.lookup a = some pte → pte.user = true →
        pte.frame ≠ f ∧ m'.bytes pte.frame = m.bytes pte.frame := by
  obtain ⟨hf, hdraws, -⟩ := draws_alloc h.draws.whole ha
  have hledger := h.ledger.alloc ha
  refine ⟨h.draws.fewer f hf, h.draws.trans hdraws, hledger, fun a pte hpte hu => ?_⟩
  have hmem : pte.frame ∈ d.ownFrames := List.mem_append_right _ (mem_userFrames hpte hu)
  exact ⟨fun heq => (List.nodup_cons.mp hledger.used_nodup).1 (heq ▸ hmem),
    hdraws.kept _ (h.ledger.unavailable hmem)⟩

theorem Copying.newTable {f : ℕ} (h : Copying m₀ parent d m) (ha : m.allocFrame = some (f, m'))
    (hl : ∀ a, d'.lookup a = d.lookup a) (hs : d'.structureFrames.Perm (f :: d.structureFrames)) :
    Copying m₀ parent d' m' := by
  obtain ⟨hf, hdraws, hledger, hkept⟩ := h.alloc ha
  have hp : d'.ownFrames.Perm (f :: d.ownFrames) :=
    hs.append (((pages_perm_of_lookup_eq hl).filter _).map _)
  refine ⟨hdraws, hledger.perm hp.symm, fun g hg => ?_, fun a pte hpte hu => ?_⟩
  · rcases List.mem_cons.mp (hp.mem_iff.mp hg) with rfl | hg
    · exact hf
    · exact h.fresh g hg
  · rw [hl] at hpte
    obtain ⟨q, hq, hbytes⟩ := h.content a pte hpte hu
    exact ⟨q, hq, (hkept a pte hpte hu).2.trans hbytes⟩

theorem Copying.newPage {f : ℕ} {a : Page} {q : Pte} (h : Copying m₀ parent d m)
    (ha : m.allocFrame = some (f, m')) (hnone : d.lookup a = none) (hq : parent.lookup a = some q)
    (hqf : ¬m₀.Available q.frame)
    (hl : ∀ b, d'.lookup b = if b = a then some ⟨f, true⟩ else d.lookup b)
    (hs : d'.structureFrames.Perm d.structureFrames) :
    Copying m₀ parent d' (m'.fill f (m'.bytes q.frame)) := by
  obtain ⟨hf, hdraws, hledger, hkept⟩ := h.alloc ha
  have hpages : d'.pages.Perm ((a, ⟨f, true⟩) :: d.pages) := by
    refine (pages_perm_of_lookup hl).trans (List.Perm.cons _ (List.Perm.of_eq ?_))
    refine List.filter_eq_self.mpr fun x hx => ?_
    have hx := mem_pages.mp hx
    simp only [ne_eq, decide_not, Bool.not_eq_true', decide_eq_false_iff_not]
    rintro rfl
    rw [hnone] at hx
    cases hx
  have huser : d'.userFrames.Perm (f :: d.userFrames) := (hpages.filter _).map _
  have hp : d'.ownFrames.Perm (f :: d.ownFrames) :=
    (hs.append huser).trans List.perm_middle
  refine ⟨hdraws.fill hf _, (hledger.perm hp.symm).fill _ _, fun g hg => ?_, fun b pte hpte hu => ?_⟩
  · rcases List.mem_cons.mp (hp.mem_iff.mp hg) with rfl | hg
    · exact hf
    · exact h.fresh g hg
  · rw [hl] at hpte
    split at hpte
    case isTrue hb =>
      cases hpte
      refine ⟨q, hb ▸ hq, ?_⟩
      simp only [PhysMem.fill, Function.update_self]
      exact hdraws.kept _ hqf
    case isFalse hb =>
      obtain ⟨hne, hsame⟩ := hkept b pte hpte hu
      obtain ⟨q', hq', hbytes⟩ := h.content b pte hpte hu
      refine ⟨q', hq', ?_⟩
      simp only [PhysMem.fill, Function.update_of_ne hne]
      exact hsame.trans hbytes

/-- The directory with the table at `i` as the inner loop has filled it so far. -/
def withTable (d : PageDir) (i : Fin 1024) (pt : PageTable) (ptes : Sparse 1024 Pte) : PageDir :=
  { d with tables := d.tables.set i { pt with ptes := ptes } }

theorem withTable_structure (d : PageDir) (i : Fin 1024) (pt : PageTable) (ptes ptes' : Sparse 1024 Pte) :
    (d.withTable i pt ptes').structureFrames.Perm (d.withTable i pt ptes).structureFrames := by
  have h := (Sparse.entries_set d.tables i { pt with ptes := ptes }).map fun t => t.2.frame
  have h' := (Sparse.entries_set d.tables i { pt with ptes := ptes' }).map fun t => t.2.frame
  exact List.Perm.cons _ (h'.trans h.symm)

theorem copyPage_copying {i : Fin 1024} {pt : PageTable} {c c' : Sparse 1024 Pte × PhysMem}
    {e : Fin 1024 × Pte} (h : copyPage c e = some c') (hq : parent.lookup (i, e.1) = some e.2)
    (hqf : ¬m₀.Available e.2.frame) (hc : Copying m₀ parent (d.withTable i pt c.1) c.2) :
    Copying m₀ parent (d.withTable i pt c'.1) c'.2 := by
  rcases copyPage_cases h with ⟨-, rfl⟩ | ⟨f, m, hg, ha, rfl⟩
  · exact hc
  · refine hc.newPage ha ?_ hq hqf (fun b => ?_) (withTable_structure d i pt _ _)
    · rw [withTable, lookup_setTable, if_pos rfl, hg]
    · rw [withTable, withTable, lookup_setTable, lookup_setTable]
      obtain ⟨b₁, b₂⟩ := b
      by_cases h₁ : b₁ = i <;> by_cases h₂ : b₂ = e.1 <;> simp [h₁, h₂, Sparse.get_set_of_ne]

theorem copyTable_copying {c c' : PageDir × PhysMem} {e : Fin 1024 × PageTable}
    (h : copyTable c e = some c') (he : e ∈ parent.tables.entries)
    (hqf : ∀ a q, parent.lookup a = some q → ¬m₀.Available q.frame)
    (hc : Copying m₀ parent c.1 c.2) : Copying m₀ parent c'.1 c'.2 := by
  obtain ⟨pt, m, ptes, hpt, hfold, hc'⟩ := copyTable_cases h
  have hstart : Copying m₀ parent (c.1.withTable e.1 pt pt.ptes) m := by
    rcases hpt with ⟨ht, rfl⟩ | ⟨ht, hempty, ha⟩
    · refine hc.congr (fun a => ?_) (structure_setTable _ ht rfl)
      rw [withTable, lookup_setTable]
      split
      case isTrue ha => rw [lookup, ha, ht, Option.bind_some]
      case isFalse => rfl
    · refine hc.newTable ha (fun a => ?_) (structure_newTable _ ht)
      rw [withTable, lookup_setTable, hempty]
      split
      case isTrue ha => rw [lookup, ha, ht, Sparse.get_empty, Option.bind_none]
      case isFalse => rfl
  rw [hc']
  refine foldlM_keeps (I := fun s => Copying m₀ parent (c.1.withTable e.1 pt s.1) s.2) hfold hstart ?_
  intro x hx s s' hs hstep
  have hq : parent.lookup (e.1, x.1) = some x.2 := by
    rw [lookup, Sparse.get_eq_some.mpr he, Option.bind_some, Sparse.get_eq_some.mpr hx]
  exact copyPage_copying hstep hq (hqf _ _ hq) hs

theorem copyTable_keeps {c c' : PageDir × PhysMem} {e : Fin 1024 × PageTable}
    (h : copyTable c e = some c') (he : e ∈ parent.tables.entries) {a : Page}
    (ha : (c.1.lookup a).isSome) : (c'.1.lookup a).isSome := by
  obtain ⟨pte, hpte⟩ := Option.isSome_iff_exists.mp ha
  have hcopied : Copied parent c.1 c'.1 :=
    copyTable_copied h he ⟨fun _ _ h => h, fun _ _ h => Or.inl h⟩
  rw [hcopied.keeps a pte hpte]
  rfl

theorem copyTable_complete {c c' : PageDir × PhysMem} {e : Fin 1024 × PageTable}
    (h : copyTable c e = some c') {x : Fin 1024 × Pte} (hx : x ∈ e.2.ptes.entries) :
    (c'.1.lookup (e.1, x.1)).isSome := by
  obtain ⟨pt, m, ptes, -, hfold, hc'⟩ := copyTable_cases h
  have hall := foldlM_brings (Q := fun x s => (s.1.get x.1).isSome) hfold
    (fun x _ s s' hstep => ?_) fun x _ y _ s s' hstep hx => ?_
  · rw [hc', lookup_setTable, if_pos rfl]
    exact hall x hx
  · rcases copyPage_cases hstep with ⟨hg, rfl⟩ | ⟨f, m, -, -, rfl⟩
    · exact Option.isSome_iff_ne_none.mpr hg
    · simp
  · rcases copyPage_cases hstep with ⟨-, rfl⟩ | ⟨f, m, hg, -, rfl⟩
    · exact hx
    · by_cases hxy : x.1 = y.1
      · simp [hxy]
      · rw [Sparse.get_set_of_ne _ _ hxy]
        exact hx

theorem copyUser_complete {child d : PageDir} (h : parent.copyUser child m = some (d, m')) {a : Page}
    (ha : (512 : Fin 1024) ≤ a.1) (hp : (parent.lookup a).isSome) : (d.lookup a).isSome := by
  obtain ⟨pte, hpte⟩ := Option.isSome_iff_exists.mp hp
  obtain ⟨pt, ht, hx⟩ := Option.bind_eq_some_iff.mp hpte
  have he : (a.1, pt) ∈ parent.tables.entries.filter fun e => (512 : Fin 1024) ≤ e.1 :=
    List.mem_filter.mpr ⟨Sparse.get_eq_some.mp ht, by simpa using ha⟩
  have hall := foldlM_brings
    (Q := fun e s => ∀ x ∈ e.2.ptes.entries, (s.1.lookup (e.1, x.1)).isSome) h
    (fun e _ s s' hstep x hx => copyTable_complete hstep hx)
    (fun e _ y hy s s' hstep hall x hx =>
      copyTable_keeps hstep (List.mem_of_mem_filter hy) (hall x hx))
  exact hall _ he _ (Sparse.get_eq_some.mp hx)

theorem copyUser_copying {child d : PageDir} (h : parent.copyUser child m = some (d, m'))
    (hqf : ∀ a q, parent.lookup a = some q → ¬m₀.Available q.frame)
    (hc : Copying m₀ parent child m) : Copying m₀ parent d m' :=
  foldlM_keeps (I := fun s => Copying m₀ parent s.1 s.2) h hc fun _ he _ _ hs hstep =>
    copyTable_copying hstep (List.mem_of_mem_filter he) hqf hs

theorem copyPage_returns {c : Sparse 1024 Pte × PhysMem} (e : Fin 1024 × Pte) (hw : c.2.Whole)
    (hroom : 1 ≤ c.2.room) :
    ∃ c', copyPage c e = some c' ∧ c'.2.Whole ∧ c.2.room ≤ c'.2.room + 1 := by
  unfold copyPage
  cases hg : c.1.get e.1 with
  | some pte => exact ⟨c, rfl, hw, Nat.le_succ _⟩
  | none =>
    obtain ⟨⟨f, m⟩, ha⟩ := alloc_of_room hroom
    obtain ⟨-, hdraws, hleft⟩ := draws_alloc hw ha
    rw [ha]
    exact ⟨_, rfl, ⟨hdraws.whole.bound, hdraws.whole.frames⟩, hleft.le⟩

theorem copyTable_returns {c : PageDir × PhysMem} (e : Fin 1024 × PageTable) (hw : c.2.Whole)
    (hroom : e.2.ptes.entries.length + 1 ≤ c.2.room) :
    ∃ c', copyTable c e = some c' ∧ c'.2.Whole ∧ c.2.room ≤ c'.2.room + (e.2.ptes.entries.length + 1) := by
  have hinner : ∀ (pt : PageTable) (m : PhysMem), m.Whole → e.2.ptes.entries.length ≤ m.room →
      ∃ s, e.2.ptes.entries.foldlM copyPage (pt.ptes, m) = some s ∧ s.2.Whole ∧
        m.room ≤ s.2.room + e.2.ptes.entries.length := by
    intro pt m hm hlen
    have hfold := foldlM_returns (f := copyPage) (l := e.2.ptes.entries) (b := (pt.ptes, m))
      (I := fun s => s.2.Whole) (fun _ => 1) (fun s => s.2.room)
      (fun x _ s hs hs1 => copyPage_returns x hs hs1) hm (by simpa using hlen)
    simpa using hfold
  unfold copyTable
  cases ht : c.1.tables.get e.1 with
  | some pt =>
    obtain ⟨s, hs, hsw, hleft⟩ := hinner pt c.2 hw (by omega)
    exact ⟨_, by simp only [hs]; rfl, hsw, by dsimp only; omega⟩
  | none =>
    obtain ⟨⟨f, m⟩, ha⟩ := alloc_of_room (by omega : 0 < c.2.room)
    obtain ⟨-, hdraws, hone⟩ := draws_alloc hw ha
    obtain ⟨s, hs, hsw, hleft⟩ := hinner ⟨f, Sparse.empty⟩ m hdraws.whole (by omega)
    exact ⟨_, by simp only [ha, Option.map_some, hs]; rfl, hsw, by dsimp only; omega⟩

def copyCost (d : PageDir) : ℕ :=
  ((d.tables.entries.filter fun e => (512 : Fin 1024) ≤ e.1).map fun e =>
    e.2.ptes.entries.length + 1).sum

theorem copyUser_returns (parent child : PageDir) (hw : m.Whole) (hroom : parent.copyCost ≤ m.room) :
    ∃ r, parent.copyUser child m = some r := by
  obtain ⟨r, hr, -⟩ := foldlM_returns (f := copyTable) (b := (child, m)) (I := fun s => s.2.Whole)
    (fun e => e.2.ptes.entries.length + 1) (fun s => s.2.room)
    (fun e _ s hs hs1 => copyTable_returns e hs hs1) hw hroom
  exact ⟨r, hr⟩

def devicePage (cfg : Config) (a : Page) : Option Pte :=
  if a = pageOf cfg.localAPIC then some ⟨cfg.localAPIC.toNat, false⟩
  else if a = pageOf cfg.ioAPIC then some ⟨cfg.ioAPIC.toNat, false⟩
  else none

theorem makePd_lookup {cfg : Config} {d : PageDir} (h : makePd cfg m = some (d, m')) (a : Page) :
    d.lookup a = devicePage cfg a := by
  obtain ⟨f, m₁, d₁, m₂, ha, hio, hlocal⟩ := makePd_cases h
  rw [(install_spec hlocal).1, (install_spec hio).1]
  rfl

theorem devicePage_user {cfg : Config} {a : Page} {pte : Pte} (h : devicePage cfg a = some pte) :
    pte.user = false := by
  unfold devicePage at h
  split at h
  case isTrue =>
    cases h
    rfl
  case isFalse =>
    split at h
    case isTrue =>
      cases h
      rfl
    case isFalse => cases h

theorem install_draws {va : UInt32} {pte : Pte} (hw : m.Whole) (h : d.install m va pte = some (d', m')) :
    Draws m m' ∧ ∀ f ∈ d'.structureFrames, f ∈ d.structureFrames ∨ m.Available f := by
  rcases (install_spec h).2 with ⟨rfl, hp⟩ | ⟨t, ha, hp⟩
  · exact ⟨.refl hw, fun f hf => Or.inl (hp.mem_iff.mp hf)⟩
  · obtain ⟨ht, hdraws, -⟩ := draws_alloc hw ha
    refine ⟨hdraws, fun f hf => ?_⟩
    rcases List.mem_cons.mp (hp.mem_iff.mp hf) with rfl | hf
    · exact Or.inr ht
    · exact Or.inl hf

theorem makePd_copying {cfg : Config} {d : PageDir} (hw : m.Whole) (hl : Ledger m [])
    (h : makePd cfg m = some (d, m')) : Copying m parent d m' := by
  obtain ⟨f, m₁, d₁, m₂, ha, hio, hlocal⟩ := makePd_cases h
  obtain ⟨hf, hdraws, -⟩ := draws_alloc hw ha
  obtain ⟨hdraws₁, hfresh₁⟩ := install_draws hdraws.whole hio
  obtain ⟨hdraws₂, hfresh₂⟩ := install_draws hdraws₁.whole hlocal
  have hto₁ := hdraws.trans hdraws₁
  have huser : ∀ a pte, d.lookup a = some pte → pte.user ≠ true := fun a pte hpte => by
    rw [makePd_lookup h] at hpte
    simp [devicePage_user hpte]
  have hown : d.ownFrames = d.structureFrames := by
    have hnone : d.userFrames = [] := by
      rw [userFrames, List.map_eq_nil_iff, List.filter_eq_nil_iff]
      exact fun x hx => huser x.1 x.2 (mem_pages.mp hx)
    rw [ownFrames, hnone, List.append_nil]
  refine ⟨hto₁.trans hdraws₂, ?_, fun g hg => ?_, fun a pte hpte hu => absurd hu (huser a pte hpte)⟩
  · rw [hown]
    simpa using (makePd_spec h).2.2 [] hl
  · rw [hown] at hg
    rcases hfresh₂ g hg with hg | hg
    · rcases hfresh₁ g hg with hg | hg
      · have hg : g = f := by simpa [structureFrames] using hg
        exact hg ▸ hf
      · exact hdraws.fewer g hg
    · exact hto₁.fewer g hg

theorem install_returns (d : PageDir) (va : UInt32) (pte : Pte) (hw : m.Whole) (hroom : 1 ≤ m.room) :
    ∃ d' m', d.install m va pte = some (d', m') ∧ m'.Whole ∧ m.room ≤ m'.room + 1 := by
  unfold install
  dsimp only
  cases ht : d.tables.get (pageOf va).1 with
  | some pt => exact ⟨_, _, rfl, hw, Nat.le_succ _⟩
  | none =>
    obtain ⟨⟨f, m'⟩, ha⟩ := alloc_of_room hroom
    obtain ⟨-, hdraws, hleft⟩ := draws_alloc hw ha
    exact ⟨_, m', by simp only [ha]; rfl, hdraws.whole, hleft.le⟩

theorem makePd_returns (cfg : Config) (hw : m.Whole) (hroom : 3 ≤ m.room) :
    ∃ d m', makePd cfg m = some (d, m') ∧ m'.Whole ∧ m.room ≤ m'.room + 3 := by
  obtain ⟨⟨f, m₁⟩, ha⟩ := alloc_of_room (by omega : 0 < m.room)
  obtain ⟨-, hdraws, hleft⟩ := draws_alloc hw ha
  obtain ⟨d₁, m₂, hio, hw₂, hleft₂⟩ := install_returns ⟨f, Sparse.empty⟩ cfg.ioAPIC
    ⟨cfg.ioAPIC.toNat, false⟩ hdraws.whole (by omega)
  obtain ⟨d, m', hlocal, hw', hleft'⟩ := install_returns d₁ cfg.localAPIC
    ⟨cfg.localAPIC.toNat, false⟩ hw₂ (by omega)
  refine ⟨d, m', ?_, hw', by omega⟩
  simp only [makePd, ha, map, hio]
  exact hlocal

def refersTo (d : PageDir) : List ℕ := d.structureFrames ++ d.pages.map fun x => x.2.frame

theorem mem_refersTo {a : Page} {q : Pte} (h : d.lookup a = some q) : q.frame ∈ d.refersTo :=
  List.mem_append_right _ (List.mem_map.mpr ⟨(a, q), mem_pages.mpr h, rfl⟩)

end PageDir

/-- What the loop of `fork` over the new list can follow in a table of `n` nodes. -/
def VMEntry.Followed (n : ℕ) (e : VMEntry) : Prop :=
  e.node.value = .null ∨ ∃ i < n, e.node.value = .entry i

theorem adjustAll_returns {f : UInt32 → UInt32} {es : List VMEntry} {nodes : List NodeEntry}
    (h : ∀ e ∈ es, e.Followed nodes.length) : ∃ nodes', adjustAll f nodes es = some nodes' := by
  induction es generalizing nodes with
  | nil => exact ⟨nodes, rfl⟩
  | cons e es ih =>
    have hrest := fun x hx => h x (List.mem_cons_of_mem e hx)
    obtain ⟨nodes', hn, hlen⟩ : ∃ nodes', adjust f nodes e = some nodes' ∧
        nodes'.length = nodes.length := by
      unfold adjust
      rcases h e List.mem_cons_self with hv | ⟨i, hi, hv⟩
      · exact ⟨nodes, by rw [hv], rfl⟩
      · exact ⟨nodes.modify i (count f), by simp only [hv, if_pos hi], List.length_modify _ _ _⟩
    obtain ⟨nodes'', hr⟩ := ih (hlen ▸ hrest)
    refine ⟨nodes'', ?_⟩
    rw [adjustAll, List.foldlM_cons, hn]
    exact hr

/-- The user half of a child beside that of its parent. `m` is the memory before, `m'` after. -/
structure SpaceCopied (cfg : Config) (m m' : PhysMem) (parent child : PageDir) : Prop where
  present : ∀ a, (512 : Fin 1024) ≤ a.1 → PageDir.devicePage cfg a = none →
    ((child.lookup a).isSome ↔ (parent.lookup a).isSome)
  copied : ∀ a q pte, PageDir.devicePage cfg a = none → parent.lookup a = some q →
    child.lookup a = some pte → pte.user = true ∧ m.Available pte.frame ∧
      m'.bytes pte.frame = m.bytes q.frame
  devices : ∀ a, PageDir.devicePage cfg a ≠ none → child.lookup a = PageDir.devicePage cfg a
  distinct : child.ownFrames.Nodup
  apart : ∀ f ∈ child.ownFrames, m.Available f ∧ f ∉ parent.refersTo
  kept : ∀ f ∈ parent.refersTo, m'.bytes f = m.bytes f

theorem spaceCopied {cfg : Config} {m m₁ m' : PhysMem} {parent d child : PageDir} (hw : m.Whole)
    (hl : Ledger m []) (hfree : ∀ f ∈ parent.refersTo, ¬m.Available f)
    (hd : PageDir.makePd cfg m = some (d, m₁)) (hcopy : parent.copyUser d m₁ = some (child, m')) :
    SpaceCopied cfg m m' parent child := by
  have hdevice := PageDir.makePd_lookup hd
  have hcopied := (PageDir.copyUser_spec hcopy).1
  have hend : PageDir.Copying m parent child m' :=
    PageDir.copyUser_copying hcopy (fun a q hq => hfree _ (PageDir.mem_refersTo hq))
      (PageDir.makePd_copying hw hl hd)
  have horigin : ∀ a pte, PageDir.devicePage cfg a = none → child.lookup a = some pte →
      pte.user = true ∧ (parent.lookup a).isSome := fun a pte ha hpte => by
    rcases hcopied.origin a pte hpte with h | ⟨-, hu, hp⟩
    · rw [hdevice, ha] at h
      cases h
    · exact ⟨hu, hp⟩
  constructor
  case present =>
    intro a hhigh ha
    constructor
    · intro hc
      obtain ⟨pte, hpte⟩ := Option.isSome_iff_exists.mp hc
      exact (horigin a pte ha hpte).2
    · exact PageDir.copyUser_complete hcopy hhigh
  case copied =>
    intro a q pte ha hq hpte
    have hu := (horigin a pte ha hpte).1
    obtain ⟨q', hq', hbytes⟩ := hend.content a pte hpte hu
    rw [hq] at hq'
    cases hq'
    exact ⟨hu, hend.fresh _ (List.mem_append_right _ (PageDir.mem_userFrames hpte hu)), hbytes⟩
  case devices =>
    intro a ha
    obtain ⟨pte, hpte⟩ := Option.ne_none_iff_exists'.mp ha
    rw [hpte]
    exact hcopied.keeps a pte ((hdevice a).trans hpte)
  case distinct => exact hend.ledger.used_nodup
  case apart => exact fun f hf => ⟨hend.fresh f hf, fun hp => hfree f hp (hend.fresh f hf)⟩
  case kept => exact fun f hf => hend.draws.kept f (hfree f hf)

/-- For every process, list of entries and directory whose frames the allocator does not have to
give: with enough frames `fork` returns, and then the child has exactly the parent's pages beside its
device pages, each in a frame of its own with the parent's bytes, and the same entries in nodes of
its own; nothing of the parent changes. -/
theorem fork_copies_space (cfg : Config) (k : Kernel) (pid : ℕ) (p : Process)
    (hp : k.procs[pid]? = some p) (hw : k.phys.Whole) (hl : Ledger k.phys [])
    (hfree : ∀ f ∈ p.pd.refersTo, ¬k.phys.Available f)
    (hnodes : ∀ e ∈ p.entryList, e.Followed k.nodes.length) :
    (p.pd.copyCost + 3 ≤ k.phys.room → ∃ k', k.fork cfg pid p true = some k') ∧
    ∀ k', k.fork cfg pid p true = some k' → k'.procs[pid]? = some p ∧
      ∃ child, k'.procs = k.procs ++ [child] ∧ SpaceCopied cfg k.phys k'.phys p.pd child.pd ∧
        child.entryList = p.entryList ∧
        ∀ (s : EntryNodes) head l, s.Holds head l p.entryList →
          ∃ head' t l', s.copyList l.length head = some (head', t) ∧
            t.Holds head' l' child.entryList ∧ t.Holds head l p.entryList ∧ l.Disjoint l' := by
  constructor
  · intro hroom
    obtain ⟨d, m, hd, hm, hleft⟩ := PageDir.makePd_returns cfg hw (by omega)
    obtain ⟨⟨child, m'⟩, hcopy⟩ := PageDir.copyUser_returns p.pd d hm (by omega)
    obtain ⟨nodes, hn⟩ := adjustAll_returns (f := (· + 1)) hnodes
    apply Option.isSome_iff_exists.mp
    simp [Kernel.fork, hd, hcopy, hn]
  · intro k' h
    obtain ⟨hslot, -⟩ | ⟨-, d, m, child, m', nodes, hd, hcopy, -, rfl⟩ := fork_cases h
    · cases hslot
    have hlt := (List.getElem?_eq_some_iff.mp hp).1
    refine ⟨(List.getElem?_append_left hlt).trans hp, _, rfl, spaceCopied hw hl hfree hd hcopy, rfl, ?_⟩
    intro s head l hs
    obtain ⟨head', t, l', ht, hl', hnew, hold⟩ := EntryNodes.copyList_spec hs le_rfl
    refine ⟨head', t, l', ht, hl', hs.congr fun a ha => hold a (hs.mem_lt ha), fun a ha ha' => ?_⟩
    have h₁ := hs.mem_lt ha
    have h₂ := hnew a ha'
    omega

def overIoAPIC : MmapArgs :=
  { addr := 0xFEBFF000, length := 8192, prot := 2, flags := 2, fd := .negative, offset := 0, word := .null }

def onePage : Process where
  pd := ⟨0x100000, Sparse.empty.set 512 ⟨0x101000, Sparse.empty.set 0 ⟨0x102000, true⟩⟩⟩
  entryList := []
  status := .live
  killFlag := false

def onePageKernel : Kernel :=
  { bootKernel with procs := [onePage], phys := { bootKernel.phys with avail := 0x103000 } }

theorem fork_copies_space_one_page : ∃ k' child, onePageKernel.fork qemu 0 onePage true = some k' ∧
    k'.procs = [onePage, child] ∧
    SpaceCopied qemu onePageKernel.phys k'.phys onePage.pd child.pd := by
  have hrefers : onePage.pd.refersTo = [0x100000, 0x101000, 0x102000] := by decide
  have hfree : ∀ f ∈ onePage.pd.refersTo, ¬onePageKernel.phys.Available f := by
    rw [hrefers]
    simp [PhysMem.Available, onePageKernel, bootKernel]
  have hl : Ledger onePageKernel.phys [] := ⟨by simp [onePageKernel, bootKernel], by
    simp [onePageKernel, bootKernel]⟩
  obtain ⟨hreturns, hcopies⟩ := fork_copies_space qemu onePageKernel 0 onePage rfl
    ⟨by decide, by decide⟩ hl hfree (by simp [onePage])
  obtain ⟨k', hk'⟩ := hreturns (by decide)
  obtain ⟨-, child, hprocs, hspace, -⟩ := hcopies k' hk'
  exact ⟨k', child, hk', hprocs, hspace⟩

/-- In a run from boot a process touches the page of the I/O APIC, which the handler then maps for it;
the page is not a user page of the child. And a child has device pages where its parent has none. -/
theorem fork_keeps_device_pages :
    (∃ k p k' child, Reachable (kernels qemu fun _ => []) k ∧ k.procs[0]? = some p ∧
      k.fork qemu 0 p true = some k' ∧ k'.procs[1]? = some child ∧
      p.pd.lookup (pageOf qemu.ioAPIC) = some ⟨0x102000, true⟩ ∧
      child.pd.lookup (pageOf qemu.ioAPIC) = some ⟨0xFEC00000, false⟩) ∧
    ∃ k' child, onePageKernel.fork qemu 0 onePage true = some k' ∧ k'.procs[1]? = some child ∧
      onePage.pd.lookup (pageOf qemu.ioAPIC) = none ∧
      child.pd.lookup (pageOf qemu.ioAPIC) = some ⟨0xFEC00000, false⟩ := by
  constructor
  · have hrun : ((bootKernel.run qemu (fun _ => [])
        [.spawn, .mmap 0 overIoAPIC, .pageFault 0 0xFEC00000]).bind fun k =>
          (k.procs[0]?).bind fun p => (k.fork qemu 0 p true).bind fun k' => (k'.procs[1]?).map fun child =>
            (p.pd.lookup (pageOf qemu.ioAPIC), child.pd.lookup (pageOf qemu.ioAPIC))) =
        some (some ⟨0x102000, true⟩, some ⟨0xFEC00000, false⟩) := by decide +kernel
    obtain ⟨k, hk, hrun⟩ := Option.bind_eq_some_iff.mp hrun
    obtain ⟨p, hp, hrun⟩ := Option.bind_eq_some_iff.mp hrun
    obtain ⟨k', hk', hrun⟩ := Option.bind_eq_some_iff.mp hrun
    obtain ⟨child, hchild, hpages⟩ := Option.map_eq_some_iff.mp hrun
    obtain ⟨hparent, hown⟩ := Prod.mk.inj hpages
    exact ⟨k, p, k', child, run_reachable hk, hp, hk', hchild, hparent, hown⟩
  · have hfork : ((onePageKernel.fork qemu 0 onePage true).bind fun k' => (k'.procs[1]?).map fun child =>
        child.pd.lookup (pageOf qemu.ioAPIC)) = some (some ⟨0xFEC00000, false⟩) := by decide +kernel
    obtain ⟨k', hk', hfork⟩ := Option.bind_eq_some_iff.mp hfork
    obtain ⟨child, hchild, hown⟩ := Option.map_eq_some_iff.mp hfork
    exact ⟨k', child, hk', hchild, by decide, hown⟩

end MMapKernel.Vmm
