import MMapKernel.Vmm.Pages

/-!
# Drawing frames

How far the allocator has got: which frames it can still give, and how many. A run that only
allocates draws from these, and every frame outside keeps its contents.
-/

namespace MMapKernel.Vmm

namespace PhysMem
variable {m m' m'' : PhysMem} {f : ℕ}

def Available (m : PhysMem) (f : ℕ) : Prop := f ∈ m.free ∨ m.avail ≤ f ∧ f < m.limit

def room (m : PhysMem) : ℕ := m.free.length + (m.limit - m.avail) / 4096

structure Whole (m : PhysMem) : Prop where
  bound : m.avail ≤ m.limit
  frames : (m.limit - m.avail) % 4096 = 0

/-- `m'` comes from `m` by taking frames out and writing to these. -/
structure Draws (m m' : PhysMem) : Prop where
  whole : m'.Whole
  fewer : ∀ g, m'.Available g → m.Available g
  kept : ∀ g, ¬m.Available g → m'.bytes g = m.bytes g

theorem Draws.refl (h : m.Whole) : Draws m m := ⟨h, fun _ h => h, fun _ _ => rfl⟩

theorem Draws.trans (h : Draws m m') (h' : Draws m' m'') : Draws m m'' :=
  ⟨h'.whole, fun g hg => h.fewer g (h'.fewer g hg),
    fun g hg => (h'.kept g fun hg' => hg (h.fewer g hg')).trans (h.kept g hg)⟩

theorem Draws.fill (h : Draws m m') (hf : m.Available f) (c : ℕ → UInt8) : Draws m (m'.fill f c) :=
  ⟨⟨h.whole.bound, h.whole.frames⟩, h.fewer, fun g hg => by
    have hne : g ≠ f := fun heq => hg (heq ▸ hf)
    simp only [PhysMem.fill, Function.update_of_ne hne]
    exact h.kept g hg⟩

theorem draws_alloc (hm : m.Whole) (ha : m.allocFrame = some (f, m')) :
    m.Available f ∧ Draws m m' ∧ m.room = m'.room + 1 := by
  have hb := hm.bound
  have hw := hm.frames
  unfold allocFrame at ha
  split at ha
  case h_1 rest hfree =>
    cases ha
    have hf : m.Available f := Or.inl (by simp [hfree])
    have hstep : Draws m { m with free := rest } :=
      ⟨⟨hb, hw⟩, fun g hg => hg.imp_left fun hg => by simp [hfree, hg], fun _ _ => rfl⟩
    refine ⟨hf, hstep.fill hf _, ?_⟩
    simp only [room, hfree, PhysMem.fill, List.length_cons]
    omega
  case h_2 hfree =>
    split at ha
    case isTrue => cases ha
    case isFalse hne =>
      cases ha
      have hlt : m.avail + 4096 ≤ m.limit := by omega
      have hf : m.Available m.avail := Or.inr ⟨le_rfl, by omega⟩
      have hstep : Draws m { m with free := [], avail := m.avail + 4096 } := by
        refine ⟨⟨hlt, by dsimp only; omega⟩, fun g hg => Or.inr ?_, fun _ _ => rfl⟩
        obtain ⟨hle, hlim⟩ := hg.resolve_left List.not_mem_nil
        dsimp only at hle hlim
        omega
      refine ⟨hf, ⟨⟨hlt, hstep.whole.frames⟩, fun g hg => hstep.fewer g ?_, (hstep.fill hf _).kept⟩, ?_⟩
      · simpa [Available, PhysMem.fill, hfree] using hg
      · simp only [room, hfree, PhysMem.fill, List.length_nil]
        omega

theorem alloc_of_room (h : 0 < m.room) : ∃ r, m.allocFrame = some r := by
  unfold allocFrame
  split
  case h_1 => exact ⟨_, rfl⟩
  case h_2 hfree =>
    have hne : m.avail ≠ m.limit := by
      intro heq
      simp [room, hfree, heq] at h
    exact ⟨_, if_neg hne⟩

end PhysMem

theorem Ledger.unavailable {m : PhysMem} {used : List ℕ} {f : ℕ} (h : Ledger m used) (hf : f ∈ used) :
    ¬m.Available f := by
  rintro (hfree | ⟨havail, -⟩)
  · exact h.notMem_free hf hfree
  · have := h.below f (List.mem_append_right _ hf)
    omega

section Loops
variable {α β : Type*} {f : β → α → Option β} {l : List α} {b b' : β}

theorem foldlM_brings {Q : α → β → Prop} (h : l.foldlM f b = some b')
    (brings : ∀ a ∈ l, ∀ c c', f c a = some c' → Q a c')
    (keeps : ∀ a ∈ l, ∀ x ∈ l, ∀ c c', f c x = some c' → Q a c → Q a c') : ∀ a ∈ l, Q a b' := by
  induction l generalizing b with
  | nil => simp
  | cons x l ih =>
    rw [List.foldlM_cons] at h
    obtain ⟨c, hc, hrest⟩ := Option.bind_eq_some_iff.mp h
    intro a ha
    rcases List.mem_cons.mp ha with rfl | ha
    · have hfirst : Q a c := brings a List.mem_cons_self b c hc
      refine foldlM_keeps (I := Q a) hrest hfirst fun x hx c c' hq hstep => ?_
      exact keeps a List.mem_cons_self x (List.mem_cons_of_mem a hx) c c' hstep hq
    · refine ih hrest (fun a ha => brings a (List.mem_cons_of_mem x ha)) (fun a ha y hy => ?_) a ha
      exact keeps a (List.mem_cons_of_mem x ha) y (List.mem_cons_of_mem x hy)

theorem foldlM_returns {I : β → Prop} (cost : α → ℕ) (room : β → ℕ)
    (turn : ∀ a ∈ l, ∀ c, I c → cost a ≤ room c → ∃ c', f c a = some c' ∧ I c' ∧ room c ≤ room c' + cost a)
    (hb : I b) (hroom : (l.map cost).sum ≤ room b) :
    ∃ b', l.foldlM f b = some b' ∧ I b' ∧ room b ≤ room b' + (l.map cost).sum := by
  induction l generalizing b with
  | nil => exact ⟨b, rfl, hb, by simp⟩
  | cons a l ih =>
    rw [List.map_cons, List.sum_cons] at hroom ⊢
    obtain ⟨c, hc, hI, hleft⟩ := turn a List.mem_cons_self b hb (by omega)
    obtain ⟨b', hb', hI', hleft'⟩ :=
      ih (fun a ha => turn a (List.mem_cons_of_mem _ ha)) hI (by omega)
    refine ⟨b', ?_, hI', by omega⟩
    rw [List.foldlM_cons, hc]
    exact hb'

end Loops

end MMapKernel.Vmm
