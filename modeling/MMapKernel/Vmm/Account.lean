import MMapKernel.Vmm.PhysMem

/-!
# Outstanding frames

The frames that are outstanding are those the allocator has handed out and not got back. An
`Account` says which of them have been taken since some earlier moment, exactly: where a `Ledger`
allows frames to be forgotten, an account does not, so at its end nothing has leaked.
-/

namespace MMapKernel.Vmm

/-- A frame of the range that begins at `start` and has been handed out at least once. -/
structure HandedOut (start avail f : ℕ) : Prop where
  lower : start ≤ f
  upper : f < avail
  whole : (f - start) % 4096 = 0

def outstanding (start : ℕ) (m : PhysMem) : Set ℕ := {f | HandedOut start m.avail f ∧ f ∉ m.free}

structure Sound (start : ℕ) (m : PhysMem) : Prop where
  lower : start ≤ m.avail
  whole : (m.avail - start) % 4096 = 0
  nodup : m.free.Nodup
  free : ∀ f ∈ m.free, HandedOut start m.avail f

/-- Apart from the frames of `base`, exactly those of the list are outstanding. -/
structure Account (start : ℕ) (base : Set ℕ) (m : PhysMem) (taken : List ℕ) : Prop extends
    Sound start m where
  once : taken.Nodup
  apart : ∀ f ∈ taken, f ∉ base
  exact : outstanding start m = base ∪ {f | f ∈ taken}

theorem Sound.account {start : ℕ} {m : PhysMem} (h : Sound start m) :
    Account start (outstanding start m) m [] :=
  ⟨h, List.nodup_nil, by simp, by simp⟩

namespace Account
variable {start : ℕ} {base : Set ℕ} {m m' : PhysMem} {taken taken' : List ℕ} {f : ℕ}

theorem perm (h : Account start base m taken) (hp : taken.Perm taken') : Account start base m taken' where
  toSound := h.toSound
  once := hp.nodup_iff.mp h.once
  apart f hf := h.apart f (hp.mem_iff.mpr hf)
  exact := by simpa only [hp.mem_iff] using h.exact

theorem alloc_outstanding (h : Sound start m) (ha : m.allocFrame = some (f, m')) :
    Sound start m' ∧ f ∉ outstanding start m ∧
    outstanding start m' = insert f (outstanding start m) := by
  have hlower := h.lower
  have hwhole := h.whole
  have hnodup := h.nodup
  have hfree := h.free
  unfold PhysMem.allocFrame at ha
  split at ha
  case h_1 p rest hlist =>
    cases ha
    rw [hlist] at hnodup hfree
    rw [List.nodup_cons] at hnodup
    rw [List.forall_mem_cons] at hfree
    refine ⟨⟨hlower, hwhole, hnodup.2, hfree.2⟩, fun hf => hf.2 (by simp [hlist]), ?_⟩
    ext g
    by_cases hg : g = f
    · subst hg
      simp [outstanding, PhysMem.fill, hfree.1, hnodup.1]
    · simp [outstanding, PhysMem.fill, hlist, hg]
  case h_2 hlist =>
    split at ha
    case isTrue => cases ha
    case isFalse =>
      cases ha
      -- the one new frame of the longer range
      have hnext : ∀ g, HandedOut start (m.avail + 4096) g ↔ g = m.avail ∨ HandedOut start m.avail g := by
        intro g
        constructor
        · intro hg
          have hgl := hg.lower
          have hgu := hg.upper
          have hgw := hg.whole
          by_cases hlt : g < m.avail
          · exact .inr ⟨hgl, hlt, hgw⟩
          · exact .inl (by omega)
        · rintro (rfl | hg)
          · exact ⟨hlower, by omega, hwhole⟩
          · exact ⟨hg.lower, hg.upper.trans (by omega), hg.whole⟩
      refine ⟨⟨?_, ?_, ?_, ?_⟩, fun hf => absurd hf.1.upper (lt_irrefl _), ?_⟩
      · exact hlower.trans (Nat.le_add_right _ _)
      · change (m.avail + 4096 - start) % 4096 = 0
        omega
      · simp [PhysMem.fill, hlist]
      · simp [PhysMem.fill, hlist]
      · ext g
        simp [outstanding, PhysMem.fill, hlist, hnext]

theorem alloc (h : Account start base m taken) (ha : m.allocFrame = some (f, m')) :
    Account start base m' (f :: taken) := by
  obtain ⟨hsound, hnew, hout⟩ := alloc_outstanding h.toSound ha
  rw [h.exact] at hnew
  refine ⟨hsound, List.nodup_cons.mpr ⟨fun hf => hnew (.inr hf), h.once⟩, ?_, ?_⟩
  · exact List.forall_mem_cons.mpr ⟨fun hf => hnew (.inl hf), h.apart⟩
  · rw [hout, h.exact]
    ext g
    simp only [Set.mem_insert_iff, Set.mem_union, Set.mem_ofPred_eq, List.mem_cons]
    tauto

theorem dealloc (h : Account start base m (f :: taken)) :
    Account start base (m.deallocFrame f) taken := by
  have honce := List.nodup_cons.mp h.once
  have hf : f ∈ outstanding start m := by
    rw [h.exact]
    exact .inr List.mem_cons_self
  refine ⟨⟨h.lower, h.whole, List.nodup_cons.mpr ⟨hf.2, h.nodup⟩, ?_⟩, honce.2, ?_, ?_⟩
  · exact List.forall_mem_cons.mpr ⟨hf.1, h.free⟩
  · exact fun g hg => h.apart g (List.mem_cons_of_mem _ hg)
  · have hout : outstanding start (m.deallocFrame f) = outstanding start m \ {f} := by
      ext g
      simp only [outstanding, PhysMem.deallocFrame, List.mem_cons, not_or, Set.mem_sdiff,
        Set.mem_ofPred_eq, Set.mem_singleton_iff]
      tauto
    rw [hout, h.exact]
    ext g
    have happart := h.apart f List.mem_cons_self
    by_cases hg : g = f
    · subst hg
      simp [happart, honce.1]
    · simp [hg]

theorem deallocAll {fs : List ℕ} (h : Account start base m (fs ++ taken)) :
    Account start base (fs.foldl PhysMem.deallocFrame m) taken := by
  induction fs generalizing m with
  | nil => exact h
  | cons f fs ih => exact ih h.dealloc

end Account

end MMapKernel.Vmm
