import MMapKernel.Vmm.Account
import MMapKernel.Vmm.Devices

/-!
# The life of an address space

`make_pd`, the changes of single pages, and the two ways to give the frames back. Each operation
has a rule for the account of the frames that the address space holds.

The directory here has both halves: `make_pd` copies the entries of `shared` that cover memory,
and the tables behind them stay shared, so they are never freed with a directory.
-/

open Transition
namespace MMapKernel.Vmm

instance (cfg : Config) : DecidablePred (DevicePage cfg) := fun g =>
  inferInstanceAs (Decidable (g = pageOf cfg.ioAPIC ∨ g = pageOf cfg.localAPIC))

namespace PageDir

def sharedEntries (memSize : UInt32) : ℕ := ((memSize + 0x400000 - 1) / 0x400000).toNat

def makeFrom (cfg : Config) (memSize : UInt32) (shared : PageDir) (m : PhysMem) :
    Option (PageDir × PhysMem) :=
  match m.allocFrame with
  | none => none
  | some (f, m) =>
    match map ⟨f, shared.tables.filter fun i => i < sharedEntries memSize⟩ m cfg.ioAPIC
        cfg.ioAPIC.toNat with
    | none => none
    | some (d, m) => d.map m cfg.localAPIC cfg.localAPIC.toNat

theorem makeFrom_nothing (cfg : Config) (memSize : UInt32) (f : ℕ) (m : PhysMem) :
    makeFrom cfg memSize ⟨f, Sparse.empty⟩ m = makePd cfg m := rfl

def ownTables (d : PageDir) : List (Fin 1024 × PageTable) :=
  d.tables.entries.filter fun e => (512 : Fin 1024) ≤ e.1

def dataPages (cfg : Config) (d : PageDir) : List (Page × Pte) :=
  d.pages.filter fun x => (512 : Fin 1024) ≤ x.1.1 ∧ ¬ DevicePage cfg x.1

def dataFrames (cfg : Config) (d : PageDir) : List ℕ := (d.dataPages cfg).map fun x => x.2.frame

def held (cfg : Config) (d : PageDir) : List ℕ :=
  d.frame :: d.ownTables.map (fun e => e.2.frame) ++ d.dataFrames cfg

section
variable {cfg : Config} {d d' : PageDir} {m m' : PhysMem} {va : UInt32} {g : Page} {pte : Pte}

theorem ownTables_set {i : Fin 1024} {pt : PageTable} (pt' : PageTable) (hi : (512 : Fin 1024) ≤ i)
    (ht : d.tables.get i = some pt) (hf : pt'.frame = pt.frame) :
    ((ownTables { d with tables := d.tables.set i pt' }).map fun e => e.2.frame).Perm
      (d.ownTables.map fun e => e.2.frame) := by
  have hnew := ((Sparse.entries_set d.tables i pt').filter fun e => (512 : Fin 1024) ≤ e.1).map
    fun e => e.2.frame
  have hold := ((Sparse.entries_erase ht).filter fun e => (512 : Fin 1024) ≤ e.1).map
    fun e => e.2.frame
  rw [List.filter_cons_of_pos (by simpa using hi), List.map_cons] at hnew hold
  rw [hf] at hnew
  exact hnew.trans hold.symm

theorem ownTables_new {i : Fin 1024} (pt : PageTable) (hi : (512 : Fin 1024) ≤ i)
    (ht : d.tables.get i = none) :
    ((ownTables { d with tables := d.tables.set i pt }).map fun e => e.2.frame).Perm
      (pt.frame :: d.ownTables.map fun e => e.2.frame) := by
  have hnew := ((Sparse.entries_set d.tables i pt).filter fun e => (512 : Fin 1024) ≤ e.1).map
    fun e => e.2.frame
  rwa [Sparse.erase_of_get_none ht, List.filter_cons_of_pos (by simpa using hi), List.map_cons] at hnew

theorem install_ownTables (hg : (512 : Fin 1024) ≤ (pageOf va).1)
    (h : d.install m va pte = some (d', m')) :
    d'.frame = d.frame ∧
    ((m' = m ∧ (d'.ownTables.map fun e => e.2.frame).Perm (d.ownTables.map fun e => e.2.frame)) ∨
      ∃ t, m.allocFrame = some (t, m') ∧
        (d'.ownTables.map fun e => e.2.frame).Perm (t :: d.ownTables.map fun e => e.2.frame)) := by
  unfold install at h
  dsimp only at h
  split at h
  case h_1 ht =>
    split at h
    case h_1 => cases h
    case h_2 t m₁ ha =>
      cases h
      exact ⟨rfl, .inr ⟨t, ha, ownTables_new _ hg ht⟩⟩
  case h_2 pt ht =>
    cases h
    exact ⟨rfl, .inl ⟨rfl, ownTables_set _ hg ht rfl⟩⟩

theorem mem_dataPages {x : Page × Pte} :
    x ∈ d.dataPages cfg ↔ d.lookup x.1 = some x.2 ∧ (512 : Fin 1024) ≤ x.1.1 ∧ ¬ DevicePage cfg x.1 := by
  rw [dataPages, List.mem_filter, mem_pages, decide_eq_true_eq]

theorem dataPages_nodup (cfg : Config) (d : PageDir) : (d.dataPages cfg).Nodup :=
  (pages_nodup d).filter _

theorem dataPages_device (hlook : ∀ a, d'.lookup a = if a = g then some pte else d.lookup a)
    (hg : DevicePage cfg g) : (d'.dataPages cfg).Perm (d.dataPages cfg) := by
  refine (List.perm_ext_iff_of_nodup (dataPages_nodup _ _) (dataPages_nodup _ _)).mpr fun x => ?_
  rw [mem_dataPages, mem_dataPages, hlook]
  by_cases hx : x.1 = g
  · simp [hx, hg]
  · rw [if_neg hx]

theorem dataPages_store (hlook : ∀ a, d'.lookup a = if a = g then some pte else d.lookup a)
    (h512 : (512 : Fin 1024) ≤ g.1) (hg : ¬ DevicePage cfg g) (hnone : d.lookup g = none) :
    (d'.dataPages cfg).Perm ((g, pte) :: d.dataPages cfg) := by
  have hout : (g, pte) ∉ d.dataPages cfg := by
    rw [mem_dataPages, hnone]
    exact fun h => by cases h.1
  refine (List.perm_ext_iff_of_nodup (dataPages_nodup _ _)
    (List.nodup_cons.mpr ⟨hout, dataPages_nodup _ _⟩)).mpr fun x => ?_
  obtain ⟨a, q⟩ := x
  rw [List.mem_cons, mem_dataPages, mem_dataPages, hlook]
  by_cases ha : a = g
  · subst ha
    simp [hnone, h512, hg, eq_comm]
  · simp [ha]

theorem dataPages_clear (hlook : ∀ a, d'.lookup a = if a = g then none else d.lookup a)
    (h512 : (512 : Fin 1024) ≤ g.1) (hg : ¬ DevicePage cfg g) (hsome : d.lookup g = some pte) :
    (d.dataPages cfg).Perm ((g, pte) :: d'.dataPages cfg) := by
  refine dataPages_store (fun a => ?_) h512 hg ?_
  · rw [hlook]
    split
    case isTrue ha => rw [ha, hsome]
    case isFalse => rfl
  · rw [hlook, if_pos rfl]

theorem tableData (cfg : Config) (e : Fin 1024 × PageTable) :
    (((e.2.ptes.entries.map fun x => ((e.1, x.1), x.2)).filter fun x =>
      (512 : Fin 1024) ≤ x.1.1 ∧ ¬ DevicePage cfg x.1).map fun x => x.2.frame) =
      if (512 : Fin 1024) ≤ e.1 then deletedFrames cfg e else [] := by
  rw [List.filter_map, List.map_map]
  split
  case isTrue h512 =>
    refine congrArg (List.map _) (List.filter_congr fun x _ => ?_)
    simp only [Function.comp_apply, decide_eq_decide]
    rw [isSpecial_iff h512]
    exact and_iff_right h512
  case isFalse h512 =>
    rw [List.filter_eq_nil_iff.mpr, List.map_nil]
    intro x _
    simp only [Function.comp_apply, decide_eq_true_eq]
    exact fun h => h512 h.1

theorem ownTables_flatMap (cfg : Config) (d : PageDir) :
    d.ownTables.flatMap (deletedFrames cfg) = d.dataFrames cfg := by
  unfold dataFrames dataPages pages ownTables
  generalize d.tables.entries = l
  induction l with
  | nil => rfl
  | cons e l ih =>
    rw [List.flatMap_cons, List.filter_append, List.map_append, ← ih, tableData]
    by_cases h512 : (512 : Fin 1024) ≤ e.1
    · rw [if_pos h512, List.filter_cons_of_pos (by rw [decide_eq_true_eq]; exact h512),
        List.flatMap_cons]
    · rw [if_neg h512, List.filter_cons_of_neg (by rw [decide_eq_true_eq]; exact h512), List.nil_append]

theorem freedFrames_held (cfg : Config) (d : PageDir) : (d.freedFrames cfg).Perm (d.held cfg) := by
  rw [held, ← ownTables_flatMap]
  exact freedFrames_perm cfg d

end
end PageDir

namespace PageDir

def containsSpecial (cfg : Config) (pdi : Fin 1024) : Bool :=
  (List.finRange 1024).any fun pti => isSpecial cfg (addressOf (pdi, pti))

def deletePrivatePage (cfg : Config) (pdi : Fin 1024) (s : Sparse 1024 Pte × PhysMem)
    (e : Fin 1024 × Pte) : Sparse 1024 Pte × PhysMem :=
  if isSpecial cfg (addressOf (pdi, e.1)) then s else (s.1.erase e.1, s.2.deallocFrame e.2.frame)

def deletePrivateTable (cfg : Config) (s : PageDir × PhysMem) (e : Fin 1024 × PageTable) :
    PageDir × PhysMem :=
  let (ptes, m) := e.2.ptes.entries.foldl (deletePrivatePage cfg e.1) (e.2.ptes, s.2)
  if containsSpecial cfg e.1 then
    ({ s.1 with tables := s.1.tables.set e.1 { e.2 with ptes := ptes } }, m)
  else ({ s.1 with tables := s.1.tables.erase e.1 }, m.deallocFrame e.2.frame)

def deletePrivate (cfg : Config) (d : PageDir) (m : PhysMem) : PageDir × PhysMem :=
  d.ownTables.foldl (deletePrivateTable cfg) (d, m)

def plainTables (cfg : Config) (d : PageDir) : List (Fin 1024 × PageTable) :=
  d.ownTables.filter fun e => e.1 ≠ (pageOf cfg.ioAPIC).1 ∧ e.1 ≠ (pageOf cfg.localAPIC).1

section
variable {cfg : Config} {d : PageDir} {m : PhysMem}

theorem containsSpecial_iff (cfg : Config) {i : Fin 1024} (h512 : (512 : Fin 1024) ≤ i) :
    containsSpecial cfg i = true ↔ i = (pageOf cfg.ioAPIC).1 ∨ i = (pageOf cfg.localAPIC).1 := by
  have hpage : ∀ j, isSpecial cfg (addressOf (i, j)) = true ↔ DevicePage cfg (i, j) := fun j =>
    isSpecial_iff h512
  simp only [containsSpecial, List.any_eq_true, List.mem_finRange, true_and, hpage, DevicePage]
  constructor
  · rintro ⟨j, h | h⟩
    · exact .inl (congrArg Prod.fst h)
    · exact .inr (congrArg Prod.fst h)
  · rintro (h | h)
    · exact ⟨(pageOf cfg.ioAPIC).2, .inl (Prod.ext h rfl)⟩
    · exact ⟨(pageOf cfg.localAPIC).2, .inr (Prod.ext h rfl)⟩

theorem deletePrivatePage_fold (cfg : Config) (i : Fin 1024) (l : List (Fin 1024 × Pte))
    (ptes : Sparse 1024 Pte) (m : PhysMem) :
    (∀ j, (l.foldl (deletePrivatePage cfg i) (ptes, m)).1.get j =
      if j ∈ l.map Prod.fst ∧ isSpecial cfg (addressOf (i, j)) = false then none else ptes.get j) ∧
    (l.foldl (deletePrivatePage cfg i) (ptes, m)).2 =
      ((l.filter fun x => ¬ isSpecial cfg (addressOf (i, x.1))).map fun x => x.2.frame).foldl
        PhysMem.deallocFrame m := by
  induction l generalizing ptes m with
  | nil => simp
  | cons e l ih =>
    rw [List.foldl_cons]
    by_cases he : isSpecial cfg (addressOf (i, e.1)) = true
    · have hturn : deletePrivatePage cfg i (ptes, m) e = (ptes, m) := by simp [deletePrivatePage, he]
      rw [hturn]
      refine ⟨fun j => ?_, ?_⟩
      · rw [(ih ptes m).1]
        refine if_congr ?_ rfl rfl
        rw [List.map_cons, List.mem_cons]
        by_cases hj : j = e.1
        · simp [hj, he]
        · simp [hj]
      · rw [(ih ptes m).2]
        simp [he]
    · have hturn : deletePrivatePage cfg i (ptes, m) e =
          (ptes.erase e.1, m.deallocFrame e.2.frame) := by simp [deletePrivatePage, he]
      rw [hturn]
      rw [Bool.not_eq_true] at he
      refine ⟨fun j => ?_, ?_⟩
      · rw [(ih _ _).1]
        by_cases hj : j = e.1
        · subst hj
          simp [he]
        · rw [Sparse.get_erase_of_ne _ hj]
          refine if_congr ?_ rfl rfl
          rw [List.map_cons, List.mem_cons]
          simp [hj]
      · rw [(ih _ _).2]
        simp [he]

def deletedPrivate (cfg : Config) (e : Fin 1024 × PageTable) : List ℕ :=
  deletedFrames cfg e ++ if containsSpecial cfg e.1 then [] else [e.2.frame]

theorem deletePrivateTable_frames (cfg : Config) (s : PageDir × PhysMem) (e : Fin 1024 × PageTable) :
    (deletePrivateTable cfg s e).2 = (deletedPrivate cfg e).foldl PhysMem.deallocFrame s.2 := by
  have hfold := (deletePrivatePage_fold cfg e.1 e.2.ptes.entries e.2.ptes s.2).2
  unfold deletePrivateTable deletedPrivate
  dsimp only
  rw [List.foldl_append]
  split
  case isTrue => exact hfold
  case isFalse => exact congrArg (fun m => m.deallocFrame e.2.frame) hfold

theorem deletePrivateTable_lookup (cfg : Config) (s : PageDir × PhysMem) {e : Fin 1024 × PageTable}
    (he : s.1.tables.get e.1 = some e.2) (g : Page) :
    (deletePrivateTable cfg s e).1.lookup g =
      if g.1 = e.1 ∧ isSpecial cfg (addressOf g) = false then none else s.1.lookup g := by
  have hfold := (deletePrivatePage_fold cfg e.1 e.2.ptes.entries e.2.ptes s.2).1
  unfold deletePrivateTable
  dsimp only
  split
  case isTrue =>
    rw [lookup_setTable]
    by_cases hg : g.1 = e.1
    · have hpage : (e.1, g.2) = g := Prod.ext hg.symm rfl
      have hlook : s.1.lookup g = e.2.ptes.get g.2 := by rw [lookup, hg, he, Option.bind_some]
      rw [if_pos hg, hfold, hpage, hlook]
      by_cases hmem : g.2 ∈ e.2.ptes.entries.map Prod.fst
      · simp [hmem, hg]
      · have hnone : e.2.ptes.get g.2 = none :=
          Sparse.get_eq_none.mpr fun x hx hxg => hmem (hxg ▸ List.mem_map_of_mem hx)
        simp [hnone]
    · simp [hg]
  case isFalse hplain =>
    by_cases hg : g.1 = e.1
    · have hspecial : isSpecial cfg (addressOf g) = false := by
        simp only [containsSpecial, List.any_eq_true, List.mem_finRange, true_and, not_exists,
          Bool.not_eq_true] at hplain
        have := hplain g.2
        rwa [show (e.1, g.2) = g from Prod.ext hg.symm rfl] at this
      simp [hg, hspecial, lookup]
    · simp [hg, lookup, Sparse.get_erase_of_ne]

theorem deletePrivateTable_get (cfg : Config) (s : PageDir × PhysMem) (e : Fin 1024 × PageTable)
    {i : Fin 1024} (hi : i ≠ e.1) :
    (deletePrivateTable cfg s e).1.tables.get i = s.1.tables.get i := by
  unfold deletePrivateTable
  dsimp only
  split
  case isTrue => exact Sparse.get_set_of_ne _ _ hi
  case isFalse => exact Sparse.get_erase_of_ne _ hi

theorem deletePrivate_fold (cfg : Config) {l : List (Fin 1024 × PageTable)} {s : PageDir × PhysMem}
    (hl : l.Pairwise fun a b => a.1 < b.1) (hs : ∀ e ∈ l, s.1.tables.get e.1 = some e.2) :
    (∀ g, (l.foldl (deletePrivateTable cfg) s).1.lookup g =
      if g.1 ∈ l.map Prod.fst ∧ isSpecial cfg (addressOf g) = false then none else s.1.lookup g) ∧
    (l.foldl (deletePrivateTable cfg) s).2 =
      (l.flatMap (deletedPrivate cfg)).foldl PhysMem.deallocFrame s.2 := by
  induction l generalizing s with
  | nil => simp
  | cons e l ih =>
    obtain ⟨hlt, hl⟩ := List.pairwise_cons.mp hl
    rw [List.forall_mem_cons] at hs
    have hnext : ∀ x ∈ l, (deletePrivateTable cfg s e).1.tables.get x.1 = some x.2 := fun x hx => by
      rw [deletePrivateTable_get cfg s e (ne_of_gt (hlt x hx))]
      exact hs.2 x hx
    obtain ⟨hlook, hframes⟩ := ih hl hnext
    rw [List.foldl_cons]
    refine ⟨fun g => ?_, ?_⟩
    · rw [hlook, deletePrivateTable_lookup cfg s hs.1]
      simp only [List.map_cons, List.mem_cons]
      by_cases hin : g.1 ∈ l.map Prod.fst ∧ isSpecial cfg (addressOf g) = false
      · rw [if_pos hin, if_pos ⟨.inr hin.1, hin.2⟩]
      · rw [if_neg hin]
        refine if_congr ⟨fun h => ⟨.inl h.1, h.2⟩, fun h => ⟨?_, h.2⟩⟩ rfl rfl
        exact h.1.resolve_right fun hg => hin ⟨hg, h.2⟩
    · rw [hframes, deletePrivateTable_frames, List.flatMap_cons, List.foldl_append]

theorem deletePrivate_lookup (cfg : Config) (d : PageDir) (m : PhysMem) (g : Page) :
    (d.deletePrivate cfg m).1.lookup g =
      if (512 : Fin 1024) ≤ g.1 ∧ ¬ DevicePage cfg g then none else d.lookup g := by
  have hfold := (deletePrivate_fold cfg (l := d.ownTables) (s := (d, m))
    (d.tables.sorted.sublist List.filter_sublist)
    fun e he => Sparse.get_eq_some.mpr (List.mem_of_mem_filter he)).1 g
  rw [deletePrivate, hfold]
  by_cases h512 : (512 : Fin 1024) ≤ g.1
  · simp only [← isSpecial_iff h512, Bool.not_eq_true]
    by_cases hmem : g.1 ∈ d.ownTables.map Prod.fst
    · simp only [hmem, h512, true_and]
    · -- the table is not present
      have hnone : d.tables.get g.1 = none := by
        refine Sparse.get_eq_none.mpr fun e he hg => hmem ?_
        rw [← hg]
        refine List.mem_map_of_mem (List.mem_filter.mpr ⟨he, ?_⟩)
        rw [decide_eq_true_eq, hg]
        exact h512
      simp [lookup, hnone]
  · have hmem : g.1 ∉ d.ownTables.map Prod.fst := by
      intro hmem
      obtain ⟨e, he, hg⟩ := List.mem_map.mp hmem
      exact h512 (hg ▸ of_decide_eq_true (List.mem_filter.mp he).2)
    simp [hmem, h512]

theorem deletedPrivate_perm (cfg : Config) (d : PageDir) :
    (d.ownTables.flatMap (deletedPrivate cfg)).Perm
      (d.dataFrames cfg ++ (d.plainTables cfg).map fun e => e.2.frame) := by
  have hplain : (d.plainTables cfg).map (fun e => e.2.frame) =
      d.ownTables.flatMap fun e => if containsSpecial cfg e.1 then [] else [e.2.frame] := by
    have hall : ∀ e ∈ d.ownTables, (512 : Fin 1024) ≤ e.1 := fun e he =>
      of_decide_eq_true (List.mem_filter.mp he).2
    unfold plainTables
    generalize d.ownTables = l at hall
    induction l with
    | nil => rfl
    | cons e l ih =>
      rw [List.forall_mem_cons] at hall
      have hiff := containsSpecial_iff cfg hall.1
      rw [List.flatMap_cons, ← ih hall.2]
      by_cases he : containsSpecial cfg e.1 = true
      · rw [List.filter_cons_of_neg (by simpa [not_or, imp_iff_not_or] using hiff.mp he), if_pos he]
        rfl
      · rw [List.filter_cons_of_pos (by simpa [not_or] using fun h => he (hiff.mpr h)), if_neg he]
        rfl
  rw [hplain, ← ownTables_flatMap]
  exact (List.flatMap_append_perm _ _ _).symm

theorem deletePrivate_frames (cfg : Config) (d : PageDir) (m : PhysMem) :
    (d.deletePrivate cfg m).2 =
      (d.ownTables.flatMap (deletedPrivate cfg)).foldl PhysMem.deallocFrame m :=
  (deletePrivate_fold cfg (l := d.ownTables) (s := (d, m))
    (d.tables.sorted.sublist List.filter_sublist)
    fun _ he => Sparse.get_eq_some.mpr (List.mem_of_mem_filter he)).2

end
end PageDir

inductive Change where
  | userMap (va : UInt32)
  | unmap (va : UInt32)

def Change.va : Change → UInt32
  | .userMap va | .unmap va => va

def PageDir.change (d : PageDir) (m : PhysMem) : Change → Option (PageDir × PhysMem)
  | .userMap va => m.allocFrame.bind fun r => d.userMap r.2 va r.1
  | .unmap va => some (d.unmap m va true)

/-- The changes go to pages of the user half that are no device pages, and a frame is mapped only
at a page that has none. -/
structure Proper (cfg : Config) (d : PageDir) (c : Change) : Prop where
  user : 0x80000000 ≤ c.va
  device : ¬ DevicePage cfg (pageOf c.va)
  unmapped : ∀ va, c = .userMap va → d.lookup (pageOf va) = none

def addressSpaces (cfg : Config) (memSize : UInt32) (shared : PageDir) (m₀ : PhysMem) :
    System (PageDir × PhysMem) Change where
  init s := PageDir.makeFrom cfg memSize shared m₀ = some s
  step s c t := Proper cfg s.1 c ∧ s.1.change s.2 c = some t

section
variable {cfg : Config} {memSize : UInt32} {shared d d' : PageDir} {start : ℕ} {base : Set ℕ}
  {m m' : PhysMem} {va : UInt32} {pte : Pte} {rest : List ℕ}

theorem pageOf_user (h : 0x80000000 ≤ va) : (512 : Fin 1024) ≤ (pageOf va).1 := by
  have hva : 2147483648 ≤ va.toNat := by simpa [UInt32.le_iff_toNat_le] using h
  rw [Fin.le_def]
  change 512 ≤ va.toNat / 2 ^ 22
  omega

theorem Account.mapDevice (h : Account start base m (d.held cfg)) (hva : 0x80000000 ≤ va)
    (hdev : DevicePage cfg (pageOf va)) (hi : d.install m va pte = some (d', m')) :
    Account start base m' (d'.held cfg) := by
  have hdata := (PageDir.dataPages_device (PageDir.install_spec hi).1 hdev).map
    fun x => x.2.frame
  obtain ⟨hframe, hcases⟩ := PageDir.install_ownTables (pageOf_user hva) hi
  rcases hcases with ⟨rfl, hp⟩ | ⟨t, ha, hp⟩
  · apply h.perm
    rw [PageDir.held, PageDir.held, hframe]
    exact ((hp.symm.cons _).append hdata.symm)
  · apply (h.alloc ha).perm
    rw [PageDir.held, PageDir.held, hframe]
    exact (List.Perm.swap _ _ _).trans (((hp.symm.append hdata.symm)).cons _)

theorem Account.mapPage (h : Account start base m (pte.frame :: d.held cfg)) (hva : 0x80000000 ≤ va)
    (hdev : ¬ DevicePage cfg (pageOf va)) (hnone : d.lookup (pageOf va) = none)
    (hi : d.install m va pte = some (d', m')) : Account start base m' (d'.held cfg) := by
  have hdata := (PageDir.dataPages_store (PageDir.install_spec hi).1 (pageOf_user hva) hdev hnone).map
    fun x => x.2.frame
  obtain ⟨hframe, hcases⟩ := PageDir.install_ownTables (pageOf_user hva) hi
  rw [List.map_cons] at hdata
  rcases hcases with ⟨rfl, hp⟩ | ⟨t, ha, hp⟩
  · apply h.perm
    rw [PageDir.held, PageDir.held, hframe]
    refine (List.Perm.swap _ _ _).trans (List.Perm.cons _ ?_)
    exact List.perm_middle.symm.trans (hp.symm.append hdata.symm)
  · apply (h.alloc ha).perm
    rw [PageDir.held, PageDir.held, hframe]
    have hfront : (t :: pte.frame :: d.frame :: (d.ownTables.map fun e => e.2.frame) ++
        d.dataFrames cfg).Perm (d.frame :: (t :: d.ownTables.map fun e => e.2.frame) ++
        pte.frame :: d.dataFrames cfg) := by
      refine List.perm_iff_count.mpr fun f => ?_
      simp only [List.cons_append, List.count_cons, List.count_append]
      omega
    exact hfront.trans ((hp.symm.cons _).append hdata.symm)

theorem held_clear {g : Page} (h512 : (512 : Fin 1024) ≤ g.1) (hdev : ¬ DevicePage cfg g)
    (hsome : d.lookup g = some pte) : (d.held cfg).Perm (pte.frame :: (d.clear g).held cfg) := by
  have hdata := (PageDir.dataPages_clear (PageDir.clear_spec d g).1 h512 hdev hsome).map
    fun x => x.2.frame
  rw [List.map_cons] at hdata
  have hframe : (d.clear g).frame = d.frame ∧
      ((d.clear g).ownTables.map fun e => e.2.frame).Perm (d.ownTables.map fun e => e.2.frame) := by
    unfold PageDir.clear
    split
    case h_1 => exact ⟨rfl, List.Perm.refl _⟩
    case h_2 pt ht => exact ⟨rfl, PageDir.ownTables_set _ h512 ht rfl⟩
  rw [PageDir.held, PageDir.held, hframe.1]
  apply ((hframe.2.symm.cons _).append hdata).trans
  exact List.perm_middle

theorem sharedEntries_le (h : memSize ≤ 0x80000000) : PageDir.sharedEntries memSize ≤ 512 := by
  have hsize : memSize.toNat ≤ 2147483648 := by simpa [UInt32.le_iff_toNat_le] using h
  simp only [PageDir.sharedEntries, UInt32.toNat_div, UInt32.toNat_sub, UInt32.toNat_add,
    UInt32.reduceToNat]
  omega

theorem held_shared (cfg : Config) (h : memSize ≤ 0x80000000) (shared : PageDir) (f : ℕ) :
    PageDir.held cfg ⟨f, shared.tables.filter fun i => i < PageDir.sharedEntries memSize⟩ = [f] := by
  have hbelow : ∀ i : Fin 1024, i.val < PageDir.sharedEntries memSize → ¬ (512 : Fin 1024) ≤ i := by
    intro i hi h512
    have hle := sharedEntries_le h
    have : 512 ≤ i.val := h512
    omega
  generalize hd : (⟨f, shared.tables.filter fun i => i < PageDir.sharedEntries memSize⟩ : PageDir) = d
  have hget : ∀ i, (512 : Fin 1024) ≤ i → d.tables.get i = none := by
    intro i h512
    rw [← hd, Sparse.get_filter, if_neg]
    simpa using fun hi => hbelow i hi h512
  have hown : d.ownTables = [] := by
    refine List.filter_eq_nil_iff.mpr fun e he => ?_
    intro h512
    have hnone := hget e.1 (of_decide_eq_true h512)
    rw [Sparse.get_eq_some.mpr he] at hnone
    cases hnone
  have hdata : d.dataPages cfg = [] := by
    refine List.eq_nil_iff_forall_not_mem.mpr fun x hx => ?_
    obtain ⟨hlook, h512, -⟩ := PageDir.mem_dataPages.mp hx
    rw [PageDir.lookup, hget _ h512] at hlook
    cases hlook
  rw [PageDir.held, PageDir.dataFrames, hown, hdata, ← hd]
  rfl

theorem Account.makeFrom (h : Account start base m []) (hmem : memSize ≤ 0x80000000)
    (hmake : PageDir.makeFrom cfg memSize shared m = some (d, m')) :
    Account start base m' (d.held cfg) := by
  unfold PageDir.makeFrom at hmake
  split at hmake
  case h_1 => cases hmake
  case h_2 f m₁ ha =>
    split at hmake
    case h_1 => cases hmake
    case h_2 d₁ m₂ hio =>
      have h₁ := h.alloc ha
      rw [← held_shared cfg hmem shared f] at h₁
      exact (h₁.mapDevice cfg.io_user (.inl rfl) hio).mapDevice cfg.local_user (.inr rfl) hmake

theorem Account.change {c : Change} (h : Account start base m (d.held cfg)) (hc : Proper cfg d c)
    (hs : d.change m c = some (d', m')) : Account start base m' (d'.held cfg) := by
  cases c with
  | userMap va =>
    obtain ⟨⟨f, m₁⟩, ha, hmap⟩ := Option.bind_eq_some_iff.mp hs
    exact (h.alloc ha).mapPage hc.user hc.device (hc.unmapped va rfl) hmap
  | unmap va =>
    have hgoal : Account start base (d.unmap m va true).2 ((d.unmap m va true).1.held cfg) := by
      unfold PageDir.unmap
      split
      case h_1 => exact h
      case h_2 pte hsome =>
        exact (h.perm (held_clear (pageOf_user hc.user) hc.device hsome)).dealloc
    have he : d.unmap m va true = (d', m') := Option.some.inj hs
    rwa [he] at hgoal

end

theorem addressSpaces_account (cfg : Config) {memSize : UInt32} (shared : PageDir) {start : ℕ}
    {m₀ : PhysMem} (hmem : memSize ≤ 0x80000000) (hm : Sound start m₀) :
    (addressSpaces cfg memSize shared m₀).Inductive fun s =>
      Account start (outstanding start m₀) s.2 (s.1.held cfg) where
  init _ hs := hm.account.makeFrom hmem hs
  step _ _ _ hs h := hs.change h.1 h.2

/-- After any changes to a directory that `make_pd` has built: `delete_pd` frees every frame the
address space holds once and no other, and what is outstanding then is what was before;
`delete_private` frees the data frames and the tables without a device page, unmaps the data pages
and changes no other translation. -/
theorem address_space_returns_frames (cfg : Config) {memSize : UInt32} (shared : PageDir) {start : ℕ}
    {m₀ : PhysMem} (hmem : memSize ≤ 0x80000000) (hm : Sound start m₀) {d : PageDir} {m : PhysMem}
    (h : Reachable (addressSpaces cfg memSize shared m₀) (d, m)) :
    (outstanding start m = outstanding start m₀ ∪ {f | f ∈ d.held cfg} ∧
      ∃ freed : List ℕ, d.deletePd cfg m = freed.foldl PhysMem.deallocFrame m ∧ freed.Perm (d.held cfg) ∧
        freed.Nodup ∧ outstanding start (d.deletePd cfg m) = outstanding start m₀) ∧
    (∃ freed : List ℕ, (d.deletePrivate cfg m).2 = freed.foldl PhysMem.deallocFrame m ∧
      freed.Perm (d.dataFrames cfg ++ (d.plainTables cfg).map fun e => e.2.frame) ∧ freed.Nodup) ∧
    ∀ g, (d.deletePrivate cfg m).1.lookup g =
      if (512 : Fin 1024) ≤ g.1 ∧ ¬ DevicePage cfg g then none else d.lookup g := by
  have hacc : Account start (outstanding start m₀) m (d.held cfg) :=
    h.invariant (addressSpaces_account cfg shared hmem hm)
  have hall := PageDir.freedFrames_held cfg d
  have hpriv := PageDir.deletedPrivate_perm cfg d
  refine ⟨⟨hacc.exact, d.freedFrames cfg, d.deletePd_eq cfg m, hall, hall.nodup_iff.mpr hacc.once, ?_⟩,
    ⟨_, d.deletePrivate_frames cfg m, hpriv, hpriv.nodup_iff.mpr ?_⟩, d.deletePrivate_lookup cfg m⟩
  · rw [PageDir.deletePd_eq]
    have hfrom : Account start (outstanding start m₀) m (d.freedFrames cfg ++ []) := by
      rw [List.append_nil]
      exact hacc.perm hall.symm
    simpa using hfrom.deallocAll.exact
  · -- these are some of the frames that are held
    have hsome : ((d.plainTables cfg).map (fun e => e.2.frame) ++ d.dataFrames cfg).Sublist (d.held cfg) :=
      ((List.filter_sublist.map _).append_right _).trans (List.sublist_cons_self _ _)
    exact List.perm_append_comm.nodup_iff.mp (hacc.once.sublist hsome)

def sharedTable : PageDir := ⟨0x1000, Sparse.empty.set 0 ⟨0x2000, Sparse.empty.set 1 ⟨0x1000, false⟩⟩⟩

theorem bootKernel_sound : Sound 0x100000 bootKernel.phys :=
  ⟨le_rfl, by decide, by simp [bootKernel], by simp [bootKernel]⟩

theorem one_page_returned :
    ∃ d m, ((PageDir.makeFrom qemu 0x8000000 sharedTable bootKernel.phys).bind fun s =>
        s.1.change s.2 (.userMap 0x80000000)) = some (d, m) ∧
      outstanding 0x100000 (d.deletePd qemu m) = outstanding 0x100000 bootKernel.phys := by
  have hsome : ((PageDir.makeFrom qemu 0x8000000 sharedTable bootKernel.phys).bind fun s =>
      s.1.change s.2 (.userMap 0x80000000)).isSome := by decide +kernel
  have hfree : (PageDir.makeFrom qemu 0x8000000 sharedTable bootKernel.phys).all fun s =>
      (s.1.lookup (pageOf 0x80000000)).isNone := by decide +kernel
  obtain ⟨⟨d, m⟩, hdm⟩ := Option.isSome_iff_exists.mp hsome
  refine ⟨d, m, hdm, ?_⟩
  obtain ⟨s, hs, hstep⟩ := Option.bind_eq_some_iff.mp hdm
  rw [hs, Option.all_some, Option.isNone_iff_eq_none] at hfree
  have hproper : Proper qemu s.1 (.userMap 0x80000000) := by
    refine ⟨by decide, by decide, fun va hva => ?_⟩
    cases hva
    exact hfree
  have hreach : Reachable (addressSpaces qemu 0x8000000 sharedTable bootKernel.phys) (d, m) :=
    .next (.start hs) ⟨hproper, hstep⟩
  obtain ⟨⟨-, freed, -, -, -, hout⟩, -⟩ :=
    address_space_returns_frames qemu sharedTable (by decide) bootKernel_sound hreach
  exact hout

end MMapKernel.Vmm
