import MMapKernel.Vmm.Kernel

/-!
# The pages of a directory

A directory is a finite map from pages to entries, together with the frames of its own
structure. The operations are specified by the map they leave (`lookup`) and by a rule for
ledgers: which frames move between the allocator and the directory.
-/

namespace MMapKernel.Vmm

theorem foldlM_keeps {α β : Type*} {f : β → α → Option β} {I : β → Prop} {l : List α} {b b' : β}
    (h : l.foldlM f b = some b') (hb : I b)
    (step : ∀ a ∈ l, ∀ c c', I c → f c a = some c' → I c') : I b' := by
  induction l generalizing b with
  | nil =>
    cases h
    exact hb
  | cons a l ih =>
    rw [List.foldlM_cons] at h
    obtain ⟨c, hc, h⟩ := Option.bind_eq_some_iff.mp h
    exact ih h (step a List.mem_cons_self b c hb hc) fun x hx => step x (List.mem_cons_of_mem a hx)

namespace PageDir

def pages (d : PageDir) : List (Page × Pte) :=
  d.tables.entries.flatMap fun t => t.2.ptes.entries.map fun e => ((t.1, e.1), e.2)

def structureFrames (d : PageDir) : List ℕ := d.frame :: d.tables.entries.map fun t => t.2.frame

theorem mem_pages {d : PageDir} {x : Page × Pte} : x ∈ d.pages ↔ d.lookup x.1 = some x.2 := by
  obtain ⟨⟨i, j⟩, pte⟩ := x
  simp only [pages, lookup, List.mem_flatMap, List.mem_map, Option.bind_eq_some_iff,
    Sparse.get_eq_some]
  constructor
  · rintro ⟨t, ht, e, he, heq⟩
    cases heq
    exact ⟨t.2, ht, he⟩
  · rintro ⟨t, ht, he⟩
    exact ⟨(i, t), ht, (j, pte), he, rfl⟩

theorem pages_nodup (d : PageDir) : d.pages.Nodup := by
  refine List.nodup_flatMap.mpr ⟨fun t _ => ?_, ?_⟩
  · apply (Sparse.entries_nodup _).map
    rintro ⟨a, b⟩ ⟨a', b'⟩ h
    cases h
    rfl
  · refine List.Pairwise.imp ?_ d.tables.sorted
    intro a b hab x hxa hxb
    obtain ⟨e, -, rfl⟩ := List.mem_map.mp hxa
    obtain ⟨e', -, he'⟩ := List.mem_map.mp hxb
    have h1 : b.1 = a.1 := congrArg (fun x => x.1.1) he'
    exact absurd hab (h1 ▸ lt_irrefl _)

theorem pages_perm_of_lookup {d d' : PageDir} {g : Page} {pte : Pte}
    (h : ∀ a, d'.lookup a = if a = g then some pte else d.lookup a) :
    d'.pages.Perm ((g, pte) :: d.pages.filter fun x => x.1 ≠ g) := by
  refine (List.perm_ext_iff_of_nodup (pages_nodup d') ?_).mpr fun x => ?_
  · refine List.nodup_cons.mpr ⟨fun hm => ?_, (pages_nodup d).filter _⟩
    simpa using List.of_mem_filter hm
  · rw [mem_pages, h, List.mem_cons, List.mem_filter, mem_pages]
    obtain ⟨a, q⟩ := x
    by_cases hag : a = g
    · subst hag
      simp [eq_comm]
    · simp [hag]

theorem pages_erased_of_lookup {d d' : PageDir} {P : Page → Prop} [DecidablePred P]
    (h : ∀ a, d'.lookup a = if P a then none else d.lookup a) :
    d'.pages.Perm (d.pages.filter fun x => ¬ P x.1) := by
  refine (List.perm_ext_iff_of_nodup (pages_nodup d') ((pages_nodup d).filter _)).mpr fun x => ?_
  rw [mem_pages, h, List.mem_filter, mem_pages]
  by_cases hP : P x.1 <;> simp [hP]

theorem pages_of_lookup {d : PageDir} {g : Page} {pte : Pte} (h : d.lookup g = some pte) :
    d.pages.Perm ((g, pte) :: d.pages.filter fun x => x.1 ≠ g) :=
  pages_perm_of_lookup fun a => by
    split
    · rename_i ha
      rw [ha, h]
    · rfl

theorem lookup_setTable (d : PageDir) (i : Fin 1024) (pt : PageTable) (a : Page) :
    lookup { d with tables := d.tables.set i pt } a =
      if a.1 = i then pt.ptes.get a.2 else d.lookup a := by
  unfold lookup
  split
  · rename_i ha
    rw [ha, Sparse.get_set_self, Option.bind_some]
  · rename_i ha
    rw [Sparse.get_set_of_ne _ _ ha]

theorem structure_setTable {d : PageDir} {i : Fin 1024} {pt : PageTable} (pt' : PageTable)
    (ht : d.tables.get i = some pt) (hf : pt'.frame = pt.frame) :
    (structureFrames { d with tables := d.tables.set i pt' }).Perm d.structureFrames := by
  have hnew := (Sparse.entries_set d.tables i pt').map fun t => t.2.frame
  have hold := (Sparse.entries_erase ht).map fun t => t.2.frame
  rw [List.map_cons] at hnew hold
  rw [hf] at hnew
  exact (hnew.trans hold.symm).cons _

theorem structure_newTable {d : PageDir} {i : Fin 1024} (pt : PageTable)
    (ht : d.tables.get i = none) :
    (structureFrames { d with tables := d.tables.set i pt }).Perm (pt.frame :: d.structureFrames) := by
  have hnew := (Sparse.entries_set d.tables i pt).map fun t => t.2.frame
  rw [Sparse.erase_of_get_none ht, List.map_cons] at hnew
  exact (hnew.cons _).trans (List.Perm.swap _ _ _)

theorem install_spec {d d' : PageDir} {m m' : PhysMem} {va : UInt32} {pte : Pte}
    (h : d.install m va pte = some (d', m')) :
    (∀ a, d'.lookup a = if a = pageOf va then some pte else d.lookup a) ∧
    ((m' = m ∧ d'.structureFrames.Perm d.structureFrames) ∨
      ∃ t, m.allocFrame = some (t, m') ∧ d'.structureFrames.Perm (t :: d.structureFrames)) := by
  unfold install at h
  generalize pageOf va = g at h ⊢
  obtain ⟨i, j⟩ := g
  dsimp only at h
  cases ht : d.tables.get i with
  | none =>
    rw [ht] at h
    cases hm : m.allocFrame with
    | none => simp [hm] at h
    | some r =>
      obtain ⟨t, m₁⟩ := r
      simp only [hm, Option.some.injEq, Prod.mk.injEq] at h
      obtain ⟨rfl, rfl⟩ := h
      refine ⟨?_, Or.inr ⟨t, rfl, structure_newTable _ ht⟩⟩
      rintro ⟨a, b⟩
      rw [lookup_setTable]
      by_cases ha : a = i <;> by_cases hb : b = j <;>
        simp [ha, hb, lookup, ht, Sparse.get_set_of_ne]
  | some pt =>
    simp only [ht, Option.some.injEq, Prod.mk.injEq] at h
    obtain ⟨rfl, rfl⟩ := h
    refine ⟨?_, Or.inl ⟨rfl, structure_setTable _ ht rfl⟩⟩
    rintro ⟨a, b⟩
    rw [lookup_setTable]
    by_cases ha : a = i <;> by_cases hb : b = j <;>
      simp [ha, hb, lookup, ht, Sparse.get_set_of_ne]

theorem install_ledger {d d' : PageDir} {m m' : PhysMem} {va : UInt32} {pte : Pte} {used : List ℕ}
    (h : d.install m va pte = some (d', m')) (hl : Ledger m (d.structureFrames ++ used)) :
    Ledger m' (d'.structureFrames ++ used) := by
  rcases (install_spec h).2 with ⟨rfl, hp⟩ | ⟨t, ha, hp⟩
  · exact hl.perm (hp.symm.append_right used)
  · exact (hl.alloc ha).perm (hp.symm.append_right used)

theorem clear_spec (d : PageDir) (g : Page) :
    (∀ a, (d.clear g).lookup a = if a = g then none else d.lookup a) ∧
    (d.clear g).structureFrames.Perm d.structureFrames := by
  obtain ⟨i, j⟩ := g
  cases ht : d.tables.get i with
  | none =>
    simp only [clear, ht]
    refine ⟨?_, List.Perm.refl _⟩
    rintro ⟨a, b⟩
    by_cases ha : a = i <;> simp [ha, lookup, ht]
  | some pt =>
    simp only [clear, ht]
    refine ⟨?_, structure_setTable _ ht rfl⟩
    rintro ⟨a, b⟩
    rw [lookup_setTable]
    by_cases ha : a = i <;> by_cases hb : b = j <;>
      simp [ha, hb, lookup, ht, Sparse.get_erase_of_ne]

theorem unmap_lookup (d : PageDir) (m : PhysMem) (va : UInt32) (physical : Bool) (a : Page) :
    (d.unmap m va physical).1.lookup a = if a = pageOf va then none else d.lookup a := by
  unfold unmap
  split
  · rename_i h
    split
    · rename_i ha
      rw [ha, h]
    · rfl
  · exact (clear_spec d (pageOf va)).1 a

theorem unmap_structure (d : PageDir) (m : PhysMem) (va : UInt32) (physical : Bool) :
    (d.unmap m va physical).1.structureFrames.Perm d.structureFrames := by
  unfold unmap
  split
  · exact List.Perm.refl _
  · exact (clear_spec d (pageOf va)).2

theorem unmapAll_lookup (d : PageDir) (m : PhysMem) (vas : List UInt32) (physical : Bool) (a : Page) :
    (d.unmapAll m vas physical).1.lookup a = if a ∈ vas.map pageOf then none else d.lookup a := by
  induction vas generalizing d m with
  | nil => simp [unmapAll]
  | cons va vas ih =>
    change (unmapAll (d.unmap m va physical).1 (d.unmap m va physical).2 vas physical).1.lookup a = _
    rw [ih, unmap_lookup]
    by_cases h₁ : a = pageOf va <;> by_cases h₂ : a ∈ vas.map pageOf <;> simp [h₁, h₂]

theorem unmapAll_structure (d : PageDir) (m : PhysMem) (vas : List UInt32) (physical : Bool) :
    (d.unmapAll m vas physical).1.structureFrames.Perm d.structureFrames := by
  induction vas generalizing d m with
  | nil => exact List.Perm.refl _
  | cons va vas ih =>
    exact (ih (d.unmap m va physical).1 (d.unmap m va physical).2).trans
      (unmap_structure d m va physical)

theorem unmapAll_keep (d : PageDir) (m : PhysMem) (vas : List UInt32) :
    (d.unmapAll m vas false).2 = m := by
  induction vas generalizing d m with
  | nil => rfl
  | cons va vas ih =>
    change (unmapAll (d.unmap m va false).1 (d.unmap m va false).2 vas false).2 = m
    rw [ih]
    unfold unmap
    split <;> rfl

def framesAt (d : PageDir) (vas : List UInt32) : List ℕ :=
  (d.pages.filter fun x => x.1 ∈ vas.map pageOf).map fun x => x.2.frame

theorem unmapAll_ledger {d : PageDir} {m : PhysMem} {vas : List UInt32} {used : List ℕ}
    (h : Ledger m (d.framesAt vas ++ used)) : Ledger (d.unmapAll m vas true).2 used := by
  induction vas generalizing d m with
  | nil => simpa [framesAt, unmapAll] using h
  | cons va vas ih =>
    change Ledger (unmapAll (d.unmap m va true).1 (d.unmap m va true).2 vas true).2 used
    apply ih
    have hrest : ((d.unmap m va true).1.framesAt vas).Perm
        ((d.pages.filter fun x => x.1 ∈ vas.map pageOf ∧ x.1 ≠ pageOf va).map fun x => x.2.frame) := by
      have hp := pages_erased_of_lookup (P := fun a => a = pageOf va) (unmap_lookup d m va true)
      apply ((hp.filter _).map _).trans
      rw [List.filter_filter]
      simp
    cases hl : d.lookup (pageOf va) with
    | none =>
      have hnone : ∀ x ∈ d.pages, x.1 ≠ pageOf va := by
        intro x hx he
        rw [mem_pages, he, hl] at hx
        cases hx
      have hsame : (d.unmap m va true).2 = m := by simp [unmap, hl]
      rw [hsame]
      refine h.perm (List.Perm.append_right used (List.Perm.trans ?_ hrest.symm))
      refine List.Perm.of_eq (congrArg _ (List.filter_congr fun x hx => ?_))
      simp [hnone x hx]
    | some pte =>
      have hfree : (d.unmap m va true).2 = m.deallocFrame pte.frame := by simp [unmap, hl]
      rw [hfree]
      refine (h.perm ?_).dealloc
      have hp := ((pages_of_lookup hl).filter fun x => x.1 ∈ (va :: vas).map pageOf).map
        fun x => x.2.frame
      rw [List.filter_cons_of_pos (by simp), List.filter_filter, List.map_cons] at hp
      refine (hp.append_right used).trans (List.Perm.cons _ (List.Perm.append_right used ?_))
      refine List.Perm.trans (List.Perm.of_eq (congrArg _ (List.filter_congr fun x _ => ?_))) hrest.symm
      by_cases hx : x.1 = pageOf va <;> simp [hx]

theorem makePd_cases {cfg : Config} {m m' : PhysMem} {d : PageDir}
    (h : makePd cfg m = some (d, m')) :
    ∃ f m₁ d₁ m₂, m.allocFrame = some (f, m₁) ∧
      map ⟨f, Sparse.empty⟩ m₁ cfg.ioAPIC cfg.ioAPIC.toNat = some (d₁, m₂) ∧
      d₁.map m₂ cfg.localAPIC cfg.localAPIC.toNat = some (d, m') := by
  unfold makePd at h
  split at h
  case h_1 => cases h
  case h_2 f m₁ ha =>
    split at h
    case h_1 => cases h
    case h_2 d₁ m₂ hio => exact ⟨f, m₁, d₁, m₂, ha, hio, h⟩

theorem makePd_spec {cfg : Config} {m m' : PhysMem} {d : PageDir}
    (h : makePd cfg m = some (d, m')) :
    (∀ a pte, d.lookup a = some pte → pte.user = false) ∧
    (∀ a, (d.lookup a).isSome ↔ a = pageOf cfg.ioAPIC ∨ a = pageOf cfg.localAPIC) ∧
    ∀ used, Ledger m used → Ledger m' (d.structureFrames ++ used) := by
  obtain ⟨f, m₁, d₁, m₂, ha, hio, hlocal⟩ := makePd_cases h
  have hlook₁ := (install_spec hio).1
  have hlook := (install_spec hlocal).1
  have hnone : ∀ a, lookup ⟨f, Sparse.empty⟩ a = none := fun a => by simp [lookup]
  refine ⟨fun a pte hpte => ?_, fun a => ?_, fun used hu => ?_⟩
  · rw [hlook, hlook₁, hnone] at hpte
    split at hpte
    · cases hpte
      rfl
    · split at hpte
      · cases hpte
        rfl
      · cases hpte
  · rw [hlook, hlook₁, hnone]
    split
    · simp [*]
    · split <;> simp [*]
  · have hf : Ledger m₁ (structureFrames ⟨f, Sparse.empty⟩ ++ used) := hu.alloc ha
    exact install_ledger hlocal (install_ledger hio hf)

def tableFrames (ptes : Sparse 1024 Pte) : List ℕ :=
  (ptes.entries.filter fun e => e.2.user).map fun e => e.2.frame

def userFrames (d : PageDir) : List ℕ := (d.pages.filter fun x => x.2.user).map fun x => x.2.frame

theorem userFrames_eq (d : PageDir) :
    d.userFrames = d.tables.entries.flatMap fun t => tableFrames t.2.ptes := by
  simp only [userFrames, pages, tableFrames, List.filter_flatMap, List.map_flatMap, List.filter_map,
    List.map_map, Function.comp_def]

theorem userFrames_setTable (d : PageDir) (i : Fin 1024) (pt : PageTable) :
    (userFrames { d with tables := d.tables.set i pt }).Perm
      (tableFrames pt.ptes ++ (d.tables.erase i).entries.flatMap fun t => tableFrames t.2.ptes) := by
  rw [userFrames_eq]
  exact (Sparse.entries_set d.tables i pt).flatMap_right _

theorem userFrames_erase {d : PageDir} {i : Fin 1024} {pt : PageTable}
    (ht : d.tables.get i = some pt) :
    d.userFrames.Perm
      (tableFrames pt.ptes ++ (d.tables.erase i).entries.flatMap fun t => tableFrames t.2.ptes) := by
  rw [userFrames_eq]
  exact (Sparse.entries_erase ht).flatMap_right _

theorem copyPage_cases {c c' : Sparse 1024 Pte × PhysMem} {e : Fin 1024 × Pte}
    (h : copyPage c e = some c') :
    (c.1.get e.1 ≠ none ∧ c' = c) ∨ ∃ f m, c.1.get e.1 = none ∧ c.2.allocFrame = some (f, m) ∧
      c' = (c.1.set e.1 ⟨f, true⟩, m.fill f (m.bytes e.2.frame)) := by
  unfold copyPage at h
  split at h
  case h_1 hg =>
    cases h
    exact .inl ⟨by simp [hg], rfl⟩
  case h_2 hg =>
    split at h
    case h_1 => cases h
    case h_2 f m ha =>
      cases h
      exact .inr ⟨f, m, hg, ha, rfl⟩

theorem copyPage_ledger {c c' : Sparse 1024 Pte × PhysMem} {e : Fin 1024 × Pte} {used : List ℕ}
    (h : copyPage c e = some c') (hl : Ledger c.2 (tableFrames c.1 ++ used)) :
    Ledger c'.2 (tableFrames c'.1 ++ used) := by
  rcases copyPage_cases h with ⟨-, rfl⟩ | ⟨f, m, hg, ha, rfl⟩
  · exact hl
  · have hp := ((Sparse.entries_set c.1 e.1 ⟨f, true⟩).filter fun e => e.2.user).map
      fun e => e.2.frame
    rw [Sparse.erase_of_get_none hg, List.filter_cons_of_pos rfl, List.map_cons] at hp
    exact ((hl.alloc ha).fill _ _).perm (hp.symm.append_right used)

/-- What the inner loop of `fork` leaves in a table: the child's own entries, and user
entries where the parent has one and the child had none. -/
structure TableCopied (parent child ptes : Sparse 1024 Pte) : Prop where
  keeps : ∀ j pte, child.get j = some pte → ptes.get j = some pte
  origin : ∀ j pte, ptes.get j = some pte →
    child.get j = some pte ∨ (child.get j = none ∧ pte.user = true ∧ (parent.get j).isSome)

theorem copyPage_copied {parent child : Sparse 1024 Pte} {c c' : Sparse 1024 Pte × PhysMem}
    {e : Fin 1024 × Pte} (h : copyPage c e = some c') (he : e ∈ parent.entries)
    (hc : TableCopied parent child c.1) : TableCopied parent child c'.1 := by
  rcases copyPage_cases h with ⟨-, rfl⟩ | ⟨f, m, hg, -, rfl⟩
  · exact hc
  · have hchild : child.get e.1 = none := by
      cases hcg : child.get e.1 with
      | none => rfl
      | some q => exact absurd (hc.keeps _ _ hcg) (by simp [hg])
    refine ⟨fun j pte hj => ?_, fun j pte hj => ?_⟩
    · have hne : j ≠ e.1 := by
        rintro rfl
        rw [hchild] at hj
        cases hj
      rw [Sparse.get_set_of_ne _ _ hne]
      exact hc.keeps j pte hj
    · by_cases hje : j = e.1
      · subst hje
        rw [Sparse.get_set_self] at hj
        cases hj
        exact Or.inr ⟨hchild, rfl, Option.isSome_iff_exists.mpr ⟨e.2, Sparse.get_eq_some.mpr he⟩⟩
      · rw [Sparse.get_set_of_ne _ _ hje] at hj
        exact hc.origin j pte hj

structure Copied (parent child d : PageDir) : Prop where
  keeps : ∀ a pte, child.lookup a = some pte → d.lookup a = some pte
  origin : ∀ a pte, d.lookup a = some pte →
    child.lookup a = some pte ∨
      (child.lookup a = none ∧ pte.user = true ∧ (parent.lookup a).isSome)

theorem copyTable_cases {c c' : PageDir × PhysMem} {e : Fin 1024 × PageTable}
    (h : copyTable c e = some c') :
    ∃ pt m ptes, ((c.1.tables.get e.1 = some pt ∧ m = c.2) ∨
        (c.1.tables.get e.1 = none ∧ pt.ptes = Sparse.empty ∧
          c.2.allocFrame = some (pt.frame, m))) ∧
      e.2.ptes.entries.foldlM copyPage (pt.ptes, m) = some (ptes, c'.2) ∧
      c'.1 = { c.1 with tables := c.1.tables.set e.1 { pt with ptes := ptes } } := by
  unfold copyTable at h
  dsimp only at h
  split at h
  · cases h
  · rename_i pt m hchild
    split at h
    · cases h
    · rename_i ptes m' hfold
      cases h
      refine ⟨pt, m, ptes, ?_, hfold, rfl⟩
      cases ht : c.1.tables.get e.1 with
      | some pt' =>
        simp only [ht, Option.some.injEq, Prod.mk.injEq] at hchild
        exact Or.inl ⟨hchild.1 ▸ rfl, hchild.2.symm⟩
      | none =>
        simp only [ht, Option.map_eq_some_iff, Prod.mk.injEq] at hchild
        obtain ⟨r, hr, rfl, rfl⟩ := hchild
        exact Or.inr ⟨rfl, rfl, hr⟩

theorem copyTable_ledger {c c' : PageDir × PhysMem} {e : Fin 1024 × PageTable} {used : List ℕ}
    (h : copyTable c e = some c') (hl : Ledger c.2 (c.1.structureFrames ++ c.1.userFrames ++ used)) :
    Ledger c'.2 (c'.1.structureFrames ++ c'.1.userFrames ++ used) := by
  obtain ⟨pt, m, ptes, hpt, hfold, hc'⟩ := copyTable_cases h
  have hturn : ∀ X, Ledger m (tableFrames pt.ptes ++ X) → Ledger c'.2 (tableFrames ptes ++ X) :=
    fun X hX => foldlM_keeps (I := fun s => Ledger s.2 (tableFrames s.1 ++ X)) hfold hX
      fun _ _ _ _ hs hstep => copyPage_ledger hstep hs
  rw [hc']
  have hnew := userFrames_setTable c.1 e.1 { pt with ptes := ptes }
  generalize hrest : (c.1.tables.erase e.1).entries.flatMap (fun t => tableFrames t.2.ptes) = rest
    at hnew
  -- the frames apart from those of the table being filled
  suffices hgoal : ∀ S, structureFrames { c.1 with
      tables := c.1.tables.set e.1 { pt with ptes := ptes } } |>.Perm S →
      Ledger m (tableFrames pt.ptes ++ (S ++ rest ++ used)) → Ledger c'.2 (S ++ userFrames { c.1 with
      tables := c.1.tables.set e.1 { pt with ptes := ptes } } ++ used) by
    rcases hpt with ⟨ht, rfl⟩ | ⟨ht, hempty, ha⟩
    · have hold := userFrames_erase ht
      rw [hrest] at hold
      have hs := structure_setTable { pt with ptes := ptes } ht rfl
      refine (hgoal _ hs (hl.perm ?_)).perm ((hs.symm.append_right _).append_right _)
      exact List.perm_iff_count.mpr fun f => by
        simp only [List.count_append, hold.count_eq]
        omega
    · have hs := structure_newTable { pt with ptes := ptes } ht
      rw [Sparse.erase_of_get_none ht, ← userFrames_eq] at hrest
      refine (hgoal _ hs ((hl.alloc ha).perm ?_)).perm ((hs.symm.append_right _).append_right _)
      simp [hempty, tableFrames, hrest]
  intro S _ hm
  refine (hturn _ hm).perm (List.perm_iff_count.mpr fun f => ?_)
  simp only [List.count_append, hnew.count_eq]
  omega

theorem copyTable_copied {parent child : PageDir} {c c' : PageDir × PhysMem}
    {e : Fin 1024 × PageTable} (h : copyTable c e = some c') (he : e ∈ parent.tables.entries)
    (hc : Copied parent child c.1) : Copied parent child c'.1 := by
  obtain ⟨pt, m, ptes, hpt, hfold, hc'⟩ := copyTable_cases h
  have hin : ∀ j, c.1.lookup (e.1, j) = pt.ptes.get j := by
    intro j
    rcases hpt with ⟨ht, -⟩ | ⟨ht, hempty, -⟩
    · simp [lookup, ht]
    · simp [lookup, ht, hempty]
  have hparent : ∀ j, parent.lookup (e.1, j) = e.2.ptes.get j := fun j => by
    simp [lookup, Sparse.get_eq_some.mpr he]
  have hcopied : TableCopied e.2.ptes pt.ptes ptes := by
    refine foldlM_keeps (I := fun s => TableCopied e.2.ptes pt.ptes s.1) hfold
      ⟨fun _ _ h => h, fun _ _ h => Or.inl h⟩ fun a ha s s' hs hstep => ?_
    exact copyPage_copied hstep ha hs
  rw [hc']
  refine ⟨fun a pte ha => ?_, fun a pte ha => ?_⟩
  · rw [lookup_setTable]
    split
    · rename_i hi
      have := hc.keeps a pte ha
      rw [show a = (e.1, a.2) from Prod.ext hi rfl, hin] at this
      exact hcopied.keeps _ _ this
    · exact hc.keeps a pte ha
  · rw [lookup_setTable] at ha
    split at ha
    · rename_i hi
      have haa : a = (e.1, a.2) := Prod.ext hi rfl
      rcases hcopied.origin _ _ ha with h | ⟨h, hu, hp⟩
      · rw [← hin, ← haa] at h
        exact hc.origin a pte h
      · rw [← hin, ← haa] at h
        rw [← hparent, ← haa] at hp
        refine Or.inr ⟨?_, hu, hp⟩
        cases hchild : child.lookup a with
        | none => rfl
        | some q => exact absurd (hc.keeps _ _ hchild) (by simp [h])
    · exact hc.origin a pte ha

theorem copyUser_spec {parent child d : PageDir} {m m' : PhysMem}
    (h : parent.copyUser child m = some (d, m')) :
    Copied parent child d ∧
    ∀ used, Ledger m (child.structureFrames ++ child.userFrames ++ used) →
      Ledger m' (d.structureFrames ++ d.userFrames ++ used) := by
  unfold copyUser at h
  constructor
  · refine foldlM_keeps (I := fun s => Copied parent child s.1) h
      ⟨fun _ _ h => h, fun _ _ h => Or.inl h⟩ fun e he s s' hs hstep => ?_
    exact copyTable_copied hstep (List.mem_of_mem_filter he) hs
  · intro used hl
    exact foldlM_keeps (I := fun s => Ledger s.2 (s.1.structureFrames ++ s.1.userFrames ++ used)) h hl
      fun _ _ _ _ hs hstep => copyTable_ledger hstep hs

theorem deallocAll_ledger {m : PhysMem} {fs used : List ℕ} (h : Ledger m (fs ++ used)) :
    Ledger (fs.foldl PhysMem.deallocFrame m) used := by
  induction fs generalizing m with
  | nil => exact h
  | cons f fs ih => exact ih h.dealloc

def deletedFrames (cfg : Config) (e : Fin 1024 × PageTable) : List ℕ :=
  (e.2.ptes.entries.filter fun x => ¬ isSpecial cfg (addressOf (e.1, x.1))).map fun x => x.2.frame

theorem deleteTable_eq (cfg : Config) (m : PhysMem) (e : Fin 1024 × PageTable) :
    deleteTable cfg m e.1 e.2 = (deletedFrames cfg e ++ [e.2.frame]).foldl PhysMem.deallocFrame m := by
  have hfold : ∀ (l : List (Fin 1024 × Pte)) (m : PhysMem),
      l.foldl (fun m x => if isSpecial cfg (addressOf (e.1, x.1)) then m else
        m.deallocFrame x.2.frame) m =
      ((l.filter fun x => ¬ isSpecial cfg (addressOf (e.1, x.1))).map fun x => x.2.frame).foldl
        PhysMem.deallocFrame m := by
    intro l
    induction l with
    | nil => intro m; rfl
    | cons x l ih =>
      intro m
      rw [List.foldl_cons, ih, List.filter_cons]
      by_cases hx : isSpecial cfg (addressOf (e.1, x.1)) = true <;> simp [hx]
  unfold deleteTable
  dsimp only
  rw [hfold, List.foldl_append]
  rfl

def freedFrames (cfg : Config) (d : PageDir) : List ℕ :=
  ((d.tables.entries.filter fun e => (512 : Fin 1024) ≤ e.1).flatMap fun e =>
    deletedFrames cfg e ++ [e.2.frame]) ++ [d.frame]

theorem deletePd_eq (cfg : Config) (d : PageDir) (m : PhysMem) :
    d.deletePd cfg m = (d.freedFrames cfg).foldl PhysMem.deallocFrame m := by
  have hfold : ∀ (l : List (Fin 1024 × PageTable)) (m : PhysMem),
      l.foldl (fun m e => deleteTable cfg m e.1 e.2) m =
        (l.flatMap fun e => deletedFrames cfg e ++ [e.2.frame]).foldl PhysMem.deallocFrame m := by
    intro l
    induction l with
    | nil => intro m; rfl
    | cons e l ih =>
      intro m
      rw [List.foldl_cons, ih, List.flatMap_cons, List.foldl_append, deleteTable_eq]
  unfold deletePd freedFrames
  dsimp only
  rw [hfold, List.foldl_append]
  rfl

theorem pages_deletedFrames (cfg : Config) (d : PageDir) :
    ((d.pages.filter fun x => ¬ isSpecial cfg (addressOf x.1)).map fun x => x.2.frame) =
      d.tables.entries.flatMap (deletedFrames cfg) := by
  simp only [pages, List.filter_flatMap, List.map_flatMap, List.filter_map, List.map_map,
    Function.comp_def]
  rfl

theorem freedFrames_perm (cfg : Config) (d : PageDir) :
    (d.freedFrames cfg).Perm (d.frame ::
      (d.tables.entries.filter fun e => (512 : Fin 1024) ≤ e.1).map (fun e => e.2.frame) ++
      (d.tables.entries.filter fun e => (512 : Fin 1024) ≤ e.1).flatMap (deletedFrames cfg)) := by
  generalize hl : (d.tables.entries.filter fun e => (512 : Fin 1024) ≤ e.1) = l
  have hp := List.map_append_flatMap_perm l (fun e => e.2.frame) (deletedFrames cfg)
  have hcomm : (l.flatMap fun e => deletedFrames cfg e ++ [e.2.frame]).Perm
      (l.flatMap fun e => e.2.frame :: deletedFrames cfg e) :=
    List.Perm.flatMap_left _ fun e _ => List.perm_append_singleton _ _
  unfold freedFrames
  rw [hl]
  refine (List.perm_append_singleton _ _).trans (List.Perm.cons _ ?_)
  exact hcomm.trans hp.symm

theorem deletePd_ledger {cfg : Config} {d : PageDir} {m : PhysMem} {used : List ℕ}
    (h : Ledger m (d.structureFrames ++
      ((d.pages.filter fun x => ¬ isSpecial cfg (addressOf x.1)).map fun x => x.2.frame) ++ used)) :
    Ledger (d.deletePd cfg m) used := by
  rw [pages_deletedFrames] at h
  rw [deletePd_eq]
  refine deallocAll_ledger (h.forget ?_)
  -- tables of the kernel half are not freed
  apply List.Subperm.trans ((freedFrames_perm cfg d).append_right used).subperm
  refine List.Sublist.subperm (List.Sublist.append_right ?_ used)
  exact (List.Sublist.cons_cons _ (List.filter_sublist.map _)).append
    (List.Sublist.flatMap List.filter_sublist _)

end PageDir
end MMapKernel.Vmm
