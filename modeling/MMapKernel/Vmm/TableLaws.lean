import MMapKernel.Vmm.Translation

/-!
# The laws of `user_map` and `unmap`

A new table is attached while it is empty, so no page is translated through it, and an entry of a table
concerns one page of one directory. For this the frames have to be apart: a table of a user half has no
second use, and a directory or a frame that is mapped at a user address is not a table of a kernel half.
-/

namespace MMapKernel.Vmm

variable {m m' : FrameMemory} {D : Set UInt32} {pd pa p t w : UInt32} {i : Fin 1024} {g : Page}

section
variable {f : UInt32} (h : Apart m D) (hpd : pd ∈ D) (hi : 512 ≤ i) (hnone : tableAt m.words pd i = none)
  (hf : offset f = 0)

theorem notMem_of_table (h : Apart m D) {d : UInt32} (hd : d ∈ D) {j : Fin 1024}
    (ht : tableAt m.words d j = some t) : t ∉ D := fun hmem =>
  (mem_userTable_or_kernelTable hd ht).elim (fun hu => (h.own t hu).1 hmem) (h.dirs t hmem)

include hf in
theorem tableAt_attach {d : UInt32} {j : Fin 1024} : tableAt (m.setWord pd i (f ||| 7)).words d j =
    if d = pd ∧ j = i then some f else tableAt m.words d j := by
  by_cases hd : d = pd
  · subst hd
    by_cases hj : j = i
    · subst hj
      have hpresent : (m.setWord d j (f ||| 7)).words d j &&& 1 ≠ 0 := by
        rw [FrameMemory.setWord_at]
        exact or_seven_present f
      rw [tableAt_of_present hpresent, FrameMemory.setWord_at, frameOf_or_seven hf, if_pos ⟨rfl, rfl⟩]
    · rw [if_neg fun hand => hj hand.2, tableAt, FrameMemory.setWord_other m _ hj]
      rfl
  · rw [if_neg fun hand => hd hand.1, tableAt, FrameMemory.setWord_frame m i _ hd]
    rfl

include h hpd hnone hf in
theorem lookup_attach (hdir : f ∉ D) (hzero : m.words f = fun _ => 0) {d : UInt32} (hd : d ∈ D) (g : Page) :
    lookup (m.setWord pd i (f ||| 7)).words d g = lookup m.words d g := by
  have htable : tableAt (m.setWord pd i (f ||| 7)).words d g.1 =
      if d = pd ∧ g.1 = i then some f else tableAt m.words d g.1 := tableAt_attach hf
  by_cases hat : d = pd ∧ g.1 = i
  · have hfpd : f ≠ pd := fun he => hdir (he ▸ hpd)
    rw [if_pos hat] at htable
    have hold : tableAt m.words d g.1 = none := by
      rw [hat.1, hat.2]
      exact hnone
    rw [lookup_of_table htable, FrameMemory.setWord_frame m i _ hfpd, hzero, lookup_of_no_table hold]
    exact if_pos (UInt32.zero_and)
  · rw [if_neg hat] at htable
    cases ht : tableAt m.words d g.1 with
    | none => rw [lookup_of_no_table (htable.trans ht), lookup_of_no_table ht]
    | some t =>
      have hne : t ≠ pd := fun he => notMem_of_table h hd ht (he ▸ hpd)
      rw [lookup_of_table (htable.trans ht), lookup_of_table ht, FrameMemory.setWord_frame m i _ hne]

include hf in
theorem UserTable.of_attach (ht : UserTable (m.setWord pd i (f ||| 7)).words D t) :
    UserTable m.words D t ∨ t = f := by
  obtain ⟨d, hd, j, hj, ht⟩ := ht
  rw [tableAt_attach hf] at ht
  split at ht
  case isTrue => exact .inr (Option.some.inj ht).symm
  case isFalse => exact .inl ⟨d, hd, j, hj, ht⟩

include hi hf in
theorem KernelTable.of_attach (ht : KernelTable (m.setWord pd i (f ||| 7)).words D t) :
    KernelTable m.words D t := by
  obtain ⟨d, hd, j, hj, ht⟩ := ht
  have hne : j ≠ i := (hj.trans_le hi).ne
  rw [tableAt_attach hf, if_neg fun hand : d = pd ∧ j = i => hne hand.2] at ht
  exact ⟨d, hd, j, hj, ht⟩

include h hpd hi hnone hf in
theorem Apart.attach (hzero : m.words f = fun _ => 0) (hdir : f ∉ D) (huser : ¬ UserTable m.words D f)
    (hkernel : ¬ KernelTable m.words D f) (hdata : ¬ UserData m.words D f) (hfree : ¬ m.IsFree f) :
    Apart (m.setWord pd i (f ||| 7)) D := by
  have hlookup := fun d (hd : d ∈ D) g => lookup_attach h hpd hnone hf hdir hzero hd g
  have hi0 : i ≠ 0 := fun he => absurd (he ▸ hi) (by decide)
  have hnewKernel : ∀ t, KernelTable (m.setWord pd i (f ||| 7)).words D t → KernelTable m.words D t :=
    fun t ht => ht.of_attach hi hf
  have hnewData : ∀ p, UserData (m.setWord pd i (f ||| 7)).words D p → UserData m.words D p := by
    rintro p ⟨d, hd, g, hg, pte, hpte, hp⟩
    rw [hlookup d hd g] at hpte
    exact ⟨d, hd, g, hg, pte, hpte, hp⟩
  constructor
  · constructor
    · intro d hd d' hd' j j' hj hj' t ht ht'
      rw [tableAt_attach hf] at ht ht'
      split at ht <;> split at ht'
      · rename_i hat hat'
        exact ⟨hat.1.trans hat'.1.symm, hat.2.trans hat'.2.symm⟩
      · cases ht
        exact absurd ⟨d', hd', j', hj', ht'⟩ huser
      · cases ht'
        exact absurd ⟨d, hd, j, hj, ht⟩ huser
      · exact h.one d hd d' hd' j j' hj hj' t ht ht'
    · intro t ht
      have hstill : ∀ p, ¬ m.IsFree p → ¬ (m.setWord pd i (f ||| 7)).IsFree p := fun p hp hp' =>
        hp (hp'.of_setWord (.inl hi0))
      rcases ht.of_attach hf with hold | rfl
      · obtain ⟨h1, h2, h3, h4⟩ := h.own t hold
        exact ⟨h1, mt (hnewKernel t) h2, mt (hnewData t) h3, hstill t h4⟩
      · exact ⟨hdir, mt (hnewKernel t) hkernel, mt (hnewData t) hdata, hstill t hfree⟩
  · intro d hd
    exact mt (hnewKernel d) (h.dirs d hd)
  · intro p hp
    obtain ⟨h1, h2⟩ := h.data p (hnewData p hp)
    exact ⟨h1, mt (hnewKernel p) h2⟩

end

section
variable (h : Apart m D) (hpd : pd ∈ D) {j : Fin 1024} (hi : 512 ≤ i) (ht : tableAt m.words pd i = some t)

include h hpd hi ht

theorem tableAt_setEntry {d : UInt32} (hd : d ∈ D) (k : Fin 1024) :
    tableAt (m.setWord t j w).words d k = tableAt m.words d k := by
  have hne : d ≠ t := fun he => (h.own t ⟨pd, hpd, i, hi, ht⟩).1 (he ▸ hd)
  rw [tableAt, FrameMemory.setWord_frame m j w hne]
  rfl

theorem lookup_setEntry : lookup (m.setWord t j w).words pd (i, j) = if w &&& 1 = 0 then none else some w := by
  have htable : tableAt (m.setWord t j w).words pd i = some t :=
    (tableAt_setEntry h hpd hi ht hpd i).trans ht
  rw [lookup_of_table htable, FrameMemory.setWord_at]

theorem lookup_setEntry_other {d : UInt32} (hd : d ∈ D) {g : Page} (hne : (d, g) ≠ (pd, (i, j))) :
    lookup (m.setWord t j w).words d g = lookup m.words d g := by
  have htable := tableAt_setEntry (j := j) (w := w) h hpd hi ht hd g.1
  cases hg : tableAt m.words d g.1 with
  | none => rw [lookup_of_no_table (htable.trans hg), lookup_of_no_table hg]
  | some t' =>
    rw [lookup_of_table (htable.trans hg), lookup_of_table hg]
    by_cases hsame : t' = t
    · rw [hsame] at hg
      have hj : g.2 ≠ j := by
        intro hgj
        rcases lt_or_ge g.1 512 with hlow | hhigh
        · exact (h.own t ⟨pd, hpd, i, hi, ht⟩).2.1 ⟨d, hd, g.1, hlow, hg⟩
        · obtain ⟨hdpd, hgi⟩ := h.one d hd pd hpd g.1 i hhigh hi t hg ht
          exact hne (Prod.ext hdpd (Prod.ext hgi hgj))
      rw [hsame, FrameMemory.setWord_other m w hj]
    · rw [FrameMemory.setWord_frame m j w hsame]

theorem userTable_setEntry : UserTable (m.setWord t j w).words D p ↔ UserTable m.words D p :=
  exists_congr fun d => and_congr_right fun hd => exists_congr fun k => by
    rw [tableAt_setEntry h hpd hi ht hd k]

theorem kernelTable_setEntry : KernelTable (m.setWord t j w).words D p ↔ KernelTable m.words D p :=
  exists_congr fun d => and_congr_right fun hd => exists_congr fun k => by
    rw [tableAt_setEntry h hpd hi ht hd k]

theorem Apart.setEntry (hw : w &&& 1 ≠ 0 → frameOf w ∉ D ∧ ¬ UserTable m.words D (frameOf w) ∧
    ¬ KernelTable m.words D (frameOf w)) : Apart (m.setWord t j w) D := by
  have hown := h.own t ⟨pd, hpd, i, hi, ht⟩
  have huser := fun p => userTable_setEntry (j := j) (w := w) (p := p) h hpd hi ht
  have hkernel := fun p => kernelTable_setEntry (j := j) (w := w) (p := p) h hpd hi ht
  have hdata : ∀ p, UserData (m.setWord t j w).words D p →
      UserData m.words D p ∨ w &&& 1 ≠ 0 ∧ p = frameOf w := by
    rintro p ⟨d, hd, g, hg, pte, hpte, hp⟩
    by_cases hat : (d, g) = (pd, (i, j))
    · obtain ⟨rfl, rfl⟩ := Prod.mk.injEq .. ▸ hat
      rw [lookup_setEntry h hpd hi ht] at hpte
      split at hpte
      case isTrue => cases hpte
      case isFalse hpresent =>
        cases hpte
        exact .inr ⟨hpresent, hp.symm⟩
    · rw [lookup_setEntry_other h hpd hi ht hd hat] at hpte
      exact .inl ⟨d, hd, g, hg, pte, hpte, hp⟩
  constructor
  · constructor
    · intro d hd d' hd' k k' hk hk' p hp hp'
      rw [tableAt_setEntry h hpd hi ht hd] at hp
      rw [tableAt_setEntry h hpd hi ht hd'] at hp'
      exact h.one d hd d' hd' k k' hk hk' p hp hp'
    · intro p hp
      rw [huser] at hp
      obtain ⟨h1, h2, h3, h4⟩ := h.own p hp
      refine ⟨h1, mt (hkernel p).mp h2, fun hd => ?_, fun hfree => h4 (hfree.of_setWord (.inr hown.2.2.2))⟩
      rcases hdata p hd with hold | ⟨hpresent, rfl⟩
      · exact h3 hold
      · exact (hw hpresent).2.1 hp
  · intro d hd
    exact mt (hkernel d).mp (h.dirs d hd)
  · intro p hp
    rw [hkernel]
    rcases hdata p hp with hold | ⟨hpresent, rfl⟩
    · exact h.data p hold
    · exact ⟨(hw hpresent).1, (hw hpresent).2.2⟩

end

theorem or_seven_frame (h : DataFrame m D pa) : frameOf (pa ||| 7) ∉ D ∧
    ¬ UserTable m.words D (frameOf (pa ||| 7)) ∧ ¬ KernelTable m.words D (frameOf (pa ||| 7)) := by
  rw [frameOf_or_seven h.aligned]
  exact ⟨h.notDir, h.notUser, h.notKernel⟩

theorem Apart.grow {f : UInt32} {m₁ : FrameMemory} (h : Apart m D) (hpd : pd ∈ D) (hi : 512 ≤ i)
    (hnone : tableAt m.words pd i = none) (hpa : DataFrame m D pa) (hfresh : Fresh m D pa)
    (halloc : m.allocFrame = .ok (f, m₁)) :
    Apart (m₁.setWord pd i (f ||| 7)) D ∧ DataFrame (m₁.setWord pd i (f ||| 7)) D pa ∧
      tableAt (m₁.setWord pd i (f ||| 7)).words pd i = some f ∧
      ∀ d ∈ D, ∀ g, lookup (m₁.setWord pd i (f ||| 7)).words d g = lookup m.words d g := by
  obtain ⟨hfpa, hdir, huser, hkernel, hdata, hfree⟩ := hfresh f m₁ halloc
  obtain ⟨hwords, -, hf, -⟩ := FrameMemory.allocFrame_cases halloc
  have hsame : SameTables m.words m₁.words D := by
    rw [hwords]
    exact sameTables_update hdir huser hkernel _
  have h₁ : Apart m₁ D := h.of_same hsame fun t ht hfree => (h.own t ht).2.2.2 (hfree.of_alloc halloc)
  have hnone₁ : tableAt m₁.words pd i = none := (hsame.tableAt_eq hpd i).trans hnone
  have hzero : m₁.words f = fun _ => 0 := by rw [hwords, Function.update_self]
  refine ⟨h₁.attach hpd hi hnone₁ hf hzero hdir (mt hsame.userTable_iff.mp huser)
    (mt hsame.kernelTable_iff.mp hkernel) (mt hsame.userData_iff.mp hdata) hfree, ?_, ?_, fun d hd g => ?_⟩
  · refine ⟨hpa.aligned, hpa.notDir, fun hu => ?_, fun hk => ?_⟩
    · rcases hu.of_attach hf with hold | hnew
      · exact hpa.notUser (hsame.userTable_iff.mp hold)
      · exact hfpa hnew.symm
    · exact hpa.notKernel (hsame.kernelTable_iff.mp (hk.of_attach hi hf))
  · rw [tableAt_attach hf, if_pos ⟨rfl, rfl⟩]
  · rw [lookup_attach h₁ hpd hnone₁ hf hdir hzero hd g, hsame.lookup_eq hd]

theorem userMap_spec {va : UInt32} (h : Apart m D) (hpd : pd ∈ D) (hva : 512 ≤ (pageOf va).1)
    (hpa : DataFrame m D pa) (hfresh : Fresh m D pa) (hmap : m.userMap pd va pa = .ok m') :
    lookup m'.words pd (pageOf va) = some (pa ||| 7) ∧
    (∀ d ∈ D, ∀ g, (d, g) ≠ (pd, pageOf va) → lookup m'.words d g = lookup m.words d g) ∧ Apart m' D := by
  have hpresent := or_seven_present pa
  simp only [FrameMemory.userMap, FrameMemory.install] at hmap
  split at hmap
  case isTrue habsent =>
    split at hmap
    case h_1 => cases hmap
    case h_2 f m₁ halloc =>
      cases hmap
      obtain ⟨hapart, hdata, htable, hsame⟩ :=
        h.grow hpd hva (tableAt_of_absent habsent) hpa hfresh halloc
      obtain ⟨-, -, hf, -⟩ := FrameMemory.allocFrame_cases halloc
      rw [frameOf_or_seven hf]
      refine ⟨?_, fun d hd g hne => ?_, ?_⟩
      · rw [lookup_setEntry hapart hpd hva htable, if_neg hpresent]
      · rw [lookup_setEntry_other (j := (pageOf va).2) hapart hpd hva htable hd hne, hsame d hd]
      · exact hapart.setEntry hpd hva htable fun _ => or_seven_frame hdata
  case isFalse hpde =>
    cases hmap
    have htable := tableAt_of_present hpde
    refine ⟨?_, fun d hd g hne => ?_, ?_⟩
    · rw [lookup_setEntry h hpd hva htable, if_neg hpresent]
    · exact lookup_setEntry_other (j := (pageOf va).2) h hpd hva htable hd hne
    · exact h.setEntry hpd hva htable fun _ => or_seven_frame hpa

def Deallocated (m m' : FrameMemory) (p : UInt32) : Prop :=
  m'.firstFree = p ∧ m'.words p 0 = m.firstFree

theorem unmap_absent {va : UInt32} (h : lookup m.words pd (pageOf va) = none) (physical : Bool) :
    m.unmap pd va physical = .ok m := by
  simp only [FrameMemory.unmap]
  split
  case isTrue => rfl
  case isFalse hpde =>
    rw [lookup_of_table (tableAt_of_present hpde)] at h
    split at h
    case isTrue hpte => exact if_pos hpte
    case isFalse => cases h

theorem unmap_present {va pte : UInt32} (h : lookup m.words pd (pageOf va) = some pte) (physical : Bool) :
    ∃ t, tableAt m.words pd (pageOf va).1 = some t ∧ m.unmap pd va physical =
      if physical then (m.setWord t (pageOf va).2 0).deallocFrame (frameOf pte)
      else .ok (m.setWord t (pageOf va).2 0) := by
  by_cases hpde : m.words pd (pageOf va).1 &&& 1 = 0
  · rw [lookup_of_no_table (tableAt_of_absent hpde)] at h
    cases h
  · refine ⟨_, tableAt_of_present hpde, ?_⟩
    rw [lookup_of_table (tableAt_of_present hpde)] at h
    split at h
    case isTrue => cases h
    case isFalse hpte =>
      cases h
      simp only [FrameMemory.unmap, if_neg hpde, if_neg hpte]

theorem Apart.dealloc (h : Apart m D) (hp : offset p = 0) (hdir : p ∉ D) (huser : ¬ UserTable m.words D p)
    (hkernel : ¬ KernelTable m.words D p) : ∃ m', m.deallocFrame p = .ok m' ∧ Deallocated m m' p ∧
      (∀ d ∈ D, ∀ g, lookup m'.words d g = lookup m.words d g) ∧ Apart m' D := by
  obtain ⟨m', hok, hfirst, -, -, hwords⟩ := m.deallocFrame_eq_ok hp
  have hsame : SameTables m.words m'.words D := by
    rw [hwords]
    exact sameTables_update hdir huser hkernel _
  refine ⟨m', hok, ⟨hfirst, ?_⟩, fun d hd g => hsame.lookup_eq hd g, h.of_same hsame fun t ht hfree => ?_⟩
  · rw [hwords, Function.update_self, Function.update_self]
  · rcases hfree.of_dealloc hp hok with hold | rfl
    · exact (h.own t ht).2.2.2 hold
    · exact huser ht

theorem unmap_spec {va : UInt32} (h : Apart m D) (hpd : pd ∈ D) (hva : 512 ≤ (pageOf va).1)
    (physical : Bool) : ∃ m', m.unmap pd va physical = .ok m' ∧ lookup m'.words pd (pageOf va) = none ∧
      (∀ d ∈ D, ∀ g, (d, g) ≠ (pd, pageOf va) → lookup m'.words d g = lookup m.words d g) ∧
      (∀ pte, lookup m.words pd (pageOf va) = some pte → physical → Deallocated m m' (frameOf pte)) ∧
      (lookup m.words pd (pageOf va) = none ∨ physical = false → m'.firstFree = m.firstFree) ∧
      Apart m' D := by
  cases hfound : lookup m.words pd (pageOf va) with
  | none =>
    exact ⟨m, unmap_absent hfound physical, hfound, fun _ _ _ _ => rfl, nofun, fun _ => rfl, h⟩
  | some pte =>
    obtain ⟨t, htable, hunmap⟩ := unmap_present hfound physical
    have hzero : (0 : UInt32) &&& 1 = 0 := UInt32.zero_and
    have hcleared : Apart (m.setWord t (pageOf va).2 0) D :=
      h.setEntry hpd hva htable fun hne => absurd hzero hne
    have hgone : lookup (m.setWord t (pageOf va).2 0).words pd (pageOf va) = none :=
      (lookup_setEntry (j := (pageOf va).2) h hpd hva htable).trans (if_pos hzero)
    have hrest : ∀ d ∈ D, ∀ g, (d, g) ≠ (pd, pageOf va) →
        lookup (m.setWord t (pageOf va).2 0).words d g = lookup m.words d g := fun d hd g hne =>
      lookup_setEntry_other (j := (pageOf va).2) h hpd hva htable hd hne
    cases physical with
    | false => exact ⟨_, hunmap, hgone, hrest, nofun, fun _ => rfl, hcleared⟩
    | true =>
      have hdata : UserData m.words D (frameOf pte) := ⟨pd, hpd, _, hva, pte, hfound, rfl⟩
      obtain ⟨hdir, hkernel⟩ := h.data _ hdata
      have huser : ¬ UserTable m.words D (frameOf pte) := fun hu => (h.own _ hu).2.2.1 hdata
      obtain ⟨m', hok, hback, hsame, hapart⟩ := hcleared.dealloc (offset_frameOf pte) hdir
        (mt (userTable_setEntry h hpd hva htable).mp huser)
        (mt (kernelTable_setEntry h hpd hva htable).mp hkernel)
      refine ⟨m', hunmap.trans hok, (hsame pd hpd _).trans hgone, fun d hd g hne => ?_, ?_, nofun, hapart⟩
      · exact (hsame d hd g).trans (hrest d hd g hne)
      · rintro _ ⟨⟩ -
        exact hback

theorem user_page {va : UInt32} (h : 0x80000000 ≤ va) : 512 ≤ (pageOf va).1 := by
  rw [UInt32.le_iff_toNat_le] at h
  have hlt := va.toNat_lt
  have hbase : UInt32.toNat 0x80000000 = 512 * 2 ^ 22 := rfl
  have hpdi : ((pageOf va).1 : ℕ) = va.toNat / 2 ^ 22 := rfl
  rw [Fin.le_def, hpdi]
  change 512 ≤ va.toNat / 2 ^ 22
  omega

/-- For all directories whose tables and user frames are apart: `user_map` gives the page the frame with
the flags 7, and `unmap` takes it away and gives the frame back exactly if it is asked to and the page
was present; no other page of any of the directories changes, and the frames are apart again. -/
theorem page_table_laws (m : FrameMemory) (D : Set UInt32) (h : Apart m D) (pd : UInt32) (hpd : pd ∈ D)
    (va : UInt32) (hva : 0x80000000 ≤ va) :
    (∀ pa m', DataFrame m D pa → Fresh m D pa → m.userMap pd va pa = .ok m' →
      lookup m'.words pd (pageOf va) = some (pa ||| 7) ∧
      (∀ d ∈ D, ∀ g, (d, g) ≠ (pd, pageOf va) → lookup m'.words d g = lookup m.words d g) ∧
      Apart m' D) ∧
    ∀ physical, ∃ m', m.unmap pd va physical = .ok m' ∧ lookup m'.words pd (pageOf va) = none ∧
      (∀ d ∈ D, ∀ g, (d, g) ≠ (pd, pageOf va) → lookup m'.words d g = lookup m.words d g) ∧
      (∀ pte, lookup m.words pd (pageOf va) = some pte → physical → Deallocated m m' (frameOf pte)) ∧
      (lookup m.words pd (pageOf va) = none ∨ physical = false → m'.firstFree = m.firstFree) ∧
      Apart m' D :=
  ⟨fun _ _ hpa hfresh hmap => userMap_spec h hpd (user_page hva) hpa hfresh hmap,
    unmap_spec h hpd (user_page hva)⟩

def withDirectory (words : UInt32 → Content) : FrameMemory := ⟨words, 0, 0x601000, 0x602000⟩

def recursive : FrameMemory := withDirectory fun p i => if p = 0x600000 ∧ i = 0 then 0x600003 else 0

def exposed : FrameMemory := withDirectory fun p i =>
  if i = 0 then
    if p = 0x600000 then 0x603003
    else if p = 0x604000 then 0x603007
    else if p = 0x603000 then 0x5003
    else 0
  else if p = 0x600000 ∧ i = 512 then 0x604007
  else 0

def holds (r : Except FramePanic FrameMemory) (test : FrameMemory → Bool) : Bool :=
  match r with
  | .ok m => test m
  | .error _ => false

theorem exists_of_holds {r : Except FramePanic FrameMemory} (test : FrameMemory → Bool)
    (h : holds r test) : ∃ m, r = .ok m ∧ test m := by
  cases r with
  | ok m => exact ⟨m, rfl, h⟩
  | error e => cases h

theorem withDirectory_alloc {words : UInt32 → Content}
    (h : (withDirectory words).allocFrame = .ok (p, m')) : p = 0x601000 ∧ ∀ f, ¬ m'.IsFree f := by
  obtain ⟨-, hlimit, -, ⟨hfirst, hzero, -⟩ | ⟨hfirst, hp, -, havail⟩⟩ := FrameMemory.allocFrame_cases h
  · exact absurd hfirst.symm hzero
  · refine ⟨hp, fun f hfree => ?_⟩
    rcases hfree with hlist | ⟨k, -, hbelow⟩
    · have hnone : FrameMemory.pointer m'.firstFree = none := by
        rw [hfirst]
        rfl
      rw [hnone] at hlist
      exact hlist.rec_on_next (P := fun _ => False) nofun fun _ _ _ hfalse _ => hfalse
    · have hend : (0x601000 : UInt32) + FRAME_SIZE + UInt32.ofNat (4096 * 0) = 0x602000 := by decide
      apply hbelow 0 (Nat.zero_le k)
      rw [havail, hlimit]
      exact hend

theorem distinct_of_none (pd : UInt32) (h : ∀ i : Fin 1024, 512 ≤ i → tableAt m.words pd i = none) :
    Distinct m {pd} ∧ ∀ t, ¬ UserTable m.words {pd} t ∧ ¬ UserData m.words {pd} t := by
  have huser : ∀ t, ¬ UserTable m.words {pd} t := by
    rintro t ⟨d, rfl, i, hi, ht⟩
    rw [h i hi] at ht
    cases ht
  have hdata : ∀ p, ¬ UserData m.words {pd} p := by
    rintro p ⟨d, rfl, g, hg, pte, hpte, -⟩
    rw [lookup_of_no_table (h g.1 hg)] at hpte
    cases hpte
  refine ⟨⟨fun d hd _ _ i _ hi _ t ht _ => ?_, fun t ht => absurd ht (huser t)⟩, fun t => ⟨huser t, hdata t⟩⟩
  exact absurd ⟨d, hd, i, hi, ht⟩ (huser t)

theorem withDirectory_fresh {words : UInt32 → Content}
    (h : ∀ i : Fin 1024, 512 ≤ i → tableAt words 0x600000 i = none)
    (hkernel : ¬ KernelTable words {0x600000} 0x601000) (hpa : pa ≠ 0x601000) :
    Fresh (withDirectory words) {0x600000} pa := by
  intro p m' halloc
  obtain ⟨rfl, hfree⟩ := withDirectory_alloc halloc
  obtain ⟨-, hnone⟩ := distinct_of_none (m := withDirectory words) _ h
  exact ⟨hpa.symm, by decide, (hnone _).1, hkernel, (hnone _).2, hfree _⟩

theorem blank_table (i : Fin 1024) : tableAt (fun _ _ => 0) 0x600000 i = none :=
  tableAt_of_absent UInt32.zero_and

theorem blank_kernelTable (t : UInt32) : ¬ KernelTable (fun _ _ => 0) {0x600000} t := by
  rintro ⟨_, rfl, i, -, ht⟩
  rw [blank_table] at ht
  cases ht

theorem blank_apart : Apart (withDirectory fun _ _ => 0) {0x600000} := by
  obtain ⟨hdistinct, hnone⟩ :=
    distinct_of_none (m := withDirectory fun _ _ => 0) 0x600000 fun i _ => blank_table i
  exact ⟨hdistinct, fun d _ => blank_kernelTable d, fun p hp => absurd hp (hnone p).2⟩

theorem blank_dataFrame : DataFrame (withDirectory fun _ _ => 0) {0x600000} 0x500000 := by
  obtain ⟨-, hnone⟩ :=
    distinct_of_none (m := withDirectory fun _ _ => 0) 0x600000 fun i _ => blank_table i
  exact ⟨by decide, by decide, (hnone _).1, blank_kernelTable _⟩

theorem blank_page_mapped : ∃ m' m'', (withDirectory fun _ _ => 0).userMap 0x600000 0x80000000 0x500000 = .ok m' ∧
    lookup m'.words 0x600000 (pageOf 0x80000000) = some 0x500007 ∧
    m'.unmap 0x600000 0x80000000 true = .ok m'' ∧ Deallocated m' m'' 0x500000 ∧ Apart m'' {0x600000} := by
  have hfresh : Fresh (withDirectory fun _ _ => 0) {0x600000} 0x500000 :=
    withDirectory_fresh (fun i _ => blank_table i) (blank_kernelTable _) (by decide)
  obtain ⟨m', hmap, -⟩ := exists_of_holds
    (r := (withDirectory fun _ _ => 0).userMap 0x600000 0x80000000 0x500000) (fun _ => true) rfl
  obtain ⟨hpage, -, hapart⟩ := (page_table_laws _ _ blank_apart 0x600000 rfl 0x80000000 (by decide)).1
    0x500000 m' blank_dataFrame hfresh hmap
  obtain ⟨m'', hunmap, -, -, hback, -, hapart'⟩ :=
    (page_table_laws m' _ hapart 0x600000 rfl 0x80000000 (by decide)).2 true
  exact ⟨m', m'', hmap, hpage, hunmap, hback _ hpage rfl, hapart'⟩

theorem recursive_table {i : Fin 1024} (h : tableAt recursive.words 0x600000 i = some t) :
    i = 0 ∧ t = 0x600000 := by
  by_cases hi : i = 0
  · subst hi
    exact ⟨rfl, (Option.some.inj h).symm⟩
  · have hword : recursive.words 0x600000 i = 0 := if_neg fun hand => hi hand.2
    rw [tableAt_of_absent (by rw [hword]; exact UInt32.zero_and)] at h
    cases h

theorem recursive_user {i : Fin 1024} (hi : 512 ≤ i) : tableAt recursive.words 0x600000 i = none := by
  refine Option.eq_none_iff_forall_ne_some.mpr fun t ht => ?_
  obtain ⟨rfl, -⟩ := recursive_table ht
  exact absurd hi (by decide)

theorem recursive_kernelTable (h : KernelTable recursive.words {0x600000} t) : t = 0x600000 := by
  obtain ⟨_, rfl, i, -, ht⟩ := h
  exact (recursive_table ht).2

theorem exposed_table : ∀ i : Fin 1024, tableAt exposed.words 0x600000 i =
    if i = 0 then some 0x603000 else if i = 512 then some 0x604000 else none := by
  decide +kernel

theorem exposed_entry : ∀ j : Fin 1024, exposed.words 0x604000 j = if j = 0 then 0x603007 else 0 := by
  decide +kernel

theorem exposed_userTable (h : UserTable exposed.words {0x600000} t) : t = 0x604000 := by
  obtain ⟨_, rfl, i, hi, ht⟩ := h
  rw [exposed_table, if_neg (by rintro rfl; exact absurd hi (by decide))] at ht
  split at ht
  case isTrue => exact (Option.some.inj ht).symm
  case isFalse => cases ht

theorem exposed_kernelTable (h : KernelTable exposed.words {0x600000} t) : t = 0x603000 := by
  obtain ⟨_, rfl, i, hi, ht⟩ := h
  rw [exposed_table] at ht
  split at ht
  case isTrue => exact (Option.some.inj ht).symm
  case isFalse =>
    rw [if_neg (by rintro rfl; exact absurd hi (by decide))] at ht
    cases ht

theorem exposed_userData (h : UserData exposed.words {0x600000} p) : p = 0x603000 := by
  obtain ⟨_, rfl, g, hg, pte, hpte, rfl⟩ := h
  cases ht : tableAt exposed.words 0x600000 g.1 with
  | none =>
    rw [lookup_of_no_table ht] at hpte
    cases hpte
  | some t =>
    rw [lookup_of_table ht, exposed_userTable ⟨_, rfl, g.1, hg, ht⟩, exposed_entry] at hpte
    by_cases hj : g.2 = 0
    · rw [if_pos hj] at hpte
      rw [← Option.some.inj hpte]
      rfl
    · rw [if_neg hj] at hpte
      cases hpte

theorem exposed_free (h : exposed.IsFree t) : t = 0x601000 := by
  rcases h with hlist | ⟨k, rfl, hbelow⟩
  · exact absurd (hlist.rec_on_next (P := fun _ => False) nofun fun _ _ _ hfalse _ => hfalse) id
  · cases k with
    | zero => rfl
    | succ k => exact absurd (by decide +kernel) (hbelow 1 (Nat.succ_le_succ (Nat.zero_le k)))

theorem exposed_distinct : Distinct exposed {0x600000} where
  one d hd d' hd' i i' hi hi' t ht ht' := by
    obtain rfl : d = 0x600000 := hd
    obtain rfl : d' = 0x600000 := hd'
    rw [exposed_table, if_neg (by rintro rfl; exact absurd hi (by decide))] at ht
    rw [exposed_table, if_neg (by rintro rfl; exact absurd hi' (by decide))] at ht'
    split at ht
    case isFalse => cases ht
    case isTrue hat =>
      split at ht'
      case isFalse => cases ht'
      case isTrue hat' => exact ⟨rfl, hat.trans hat'.symm⟩
  own t ht := by
    obtain rfl := exposed_userTable ht
    refine ⟨by decide, fun hk => ?_, fun hd => ?_, fun hf => ?_⟩
    · exact absurd (exposed_kernelTable hk) (by decide)
    · exact absurd (exposed_userData hd) (by decide)
    · exact absurd (exposed_free hf) (by decide)

/-- A new table in a directory that is a table itself shows as a page, and a frame that is given back
while it is a table of a kernel half loses its first entry. -/
theorem page_tables_interfere :
    (¬ ∀ m D pd va pa m', Distinct m D → pd ∈ D → 0x80000000 ≤ va → DataFrame m D pa → Fresh m D pa →
      m.userMap pd va pa = .ok m' →
      ∀ d ∈ D, ∀ g, (d, g) ≠ (pd, pageOf va) → lookup m'.words d g = lookup m.words d g) ∧
    ¬ ∀ m D pd va m', Distinct m D → pd ∈ D → 0x80000000 ≤ va → m.unmap pd va true = .ok m' →
      ∀ d ∈ D, ∀ g, (d, g) ≠ (pd, pageOf va) → lookup m'.words d g = lookup m.words d g := by
  constructor
  · intro h
    obtain ⟨hdistinct, hnone⟩ :=
      distinct_of_none (m := recursive) 0x600000 fun i hi => recursive_user hi
    have hdata : DataFrame recursive {0x600000} 0x500000 :=
      ⟨by decide, by decide, (hnone _).1, fun hk => absurd (recursive_kernelTable hk) (by decide)⟩
    have hfresh : Fresh recursive {0x600000} 0x500000 := withDirectory_fresh (fun i hi => recursive_user hi)
      (fun hk => absurd (recursive_kernelTable hk) (by decide)) (by decide)
    obtain ⟨m', hmap, htest⟩ := exists_of_holds (r := recursive.userMap 0x600000 0x80000000 0x500000)
      (fun m' => lookup m'.words 0x600000 (0, 512) == some 0x601007) (by decide +kernel)
    have hsame := h recursive {0x600000} 0x600000 0x80000000 0x500000 m' hdistinct rfl (by decide) hdata
      hfresh hmap 0x600000 rfl (0, 512) (by decide +kernel)
    rw [beq_iff_eq.mp htest] at hsame
    exact absurd hsame (by decide +kernel)
  · intro h
    obtain ⟨m', hunmap, htest⟩ := exists_of_holds (r := exposed.unmap 0x600000 0x80000000 true)
      (fun m' => lookup m'.words 0x600000 (0, 0) == none) (by decide +kernel)
    have hsame := h exposed {0x600000} 0x600000 0x80000000 m' exposed_distinct rfl (by decide) hunmap
      0x600000 rfl (0, 0) (by decide +kernel)
    rw [beq_iff_eq.mp htest] at hsame
    exact absurd hsame (by decide +kernel)

end MMapKernel.Vmm
