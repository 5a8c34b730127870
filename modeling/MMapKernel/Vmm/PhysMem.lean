import Mathlib

/-!
# The frame allocator, and ledgers of frames in use

`kernel/physmem.cc` hands out frames from a free list and, when that is empty, from the
range `[avail, limit)`. A frame is named by its physical address. The free list is given
as the sequence of its frames; the link word that `dealloc_frame` stores in a free frame is
not kept, since `alloc_frame` clears the frame before it hands it out.

A `Ledger` is a list of frames that are in use: they are pairwise distinct, none of them
is free, and all lie below `avail`. The rules say how a ledger follows the two calls.
-/

namespace MMapKernel.Vmm

structure PhysMem where
  free : List ℕ
  avail : ℕ
  limit : ℕ
  bytes : ℕ → ℕ → UInt8

namespace PhysMem

def fill (m : PhysMem) (p : ℕ) (content : ℕ → UInt8) : PhysMem :=
  { m with bytes := Function.update m.bytes p content }

def allocFrame (m : PhysMem) : Option (ℕ × PhysMem) :=
  match m.free with
  | p :: rest => some (p, { m with free := rest }.fill p fun _ => 0)
  | [] =>
    if m.avail = m.limit then none
    else some (m.avail, { m with avail := m.avail + 4096 }.fill m.avail fun _ => 0)

def deallocFrame (m : PhysMem) (p : ℕ) : PhysMem := { m with free := p :: m.free }

end PhysMem

structure Ledger (m : PhysMem) (used : List ℕ) : Prop where
  nodup : (m.free ++ used).Nodup
  below : ∀ f ∈ m.free ++ used, f < m.avail

namespace Ledger
variable {m m' : PhysMem} {used used' : List ℕ} {f : ℕ}

theorem perm (h : Ledger m used) (hp : used.Perm used') : Ledger m used' :=
  ⟨(hp.append_left m.free).nodup_iff.mp h.nodup,
    fun g hg => h.below g ((hp.append_left m.free).mem_iff.mpr hg)⟩

theorem forget (h : Ledger m used) (hs : used'.Subperm used) : Ledger m used' := by
  obtain ⟨l, hl, hsub⟩ := hs
  have hsub' : (m.free ++ l).Sublist (m.free ++ used) := hsub.append_left m.free
  exact (Ledger.mk (h.nodup.sublist hsub') fun g hg => h.below g (hsub'.subset hg)).perm hl

theorem fill (h : Ledger m used) (p : ℕ) (c : ℕ → UInt8) : Ledger (m.fill p c) used :=
  ⟨h.nodup, h.below⟩

theorem alloc (h : Ledger m used) (ha : m.allocFrame = some (f, m')) : Ledger m' (f :: used) := by
  unfold PhysMem.allocFrame at ha
  split at ha
  · rename_i p rest hfree
    cases ha
    have hnd := h.nodup
    have hb := h.below
    rw [hfree] at hnd hb
    refine (show Ledger { m with free := rest } (f :: used) from ⟨?_, ?_⟩).fill _ _
    · exact (List.perm_middle.nodup_iff).mpr hnd
    · intro g hg
      exact hb g (List.perm_middle.mem_iff.mp hg)
  · rename_i hfree
    split at ha
    · cases ha
    · cases ha
      have hnd := h.nodup
      have hb := h.below
      rw [hfree] at hnd hb
      refine (show Ledger { m with avail := m.avail + 4096 } (m.avail :: used) from ⟨?_, ?_⟩).fill _ _
      · simp only [hfree]
        refine List.nodup_cons.mpr ⟨fun hm => ?_, hnd⟩
        exact lt_irrefl _ (hb _ hm)
      · intro g hg
        simp only [hfree, List.nil_append, List.mem_cons] at hg hb ⊢
        rcases hg with rfl | hg
        · omega
        · have := hb g hg
          omega

theorem dealloc (h : Ledger m (f :: used)) : Ledger (m.deallocFrame f) used :=
  ⟨(List.perm_middle.nodup_iff).mp h.nodup, fun g hg => h.below g (List.perm_middle.mem_iff.mpr hg)⟩

theorem notMem_free (h : Ledger m used) (hf : f ∈ used) : f ∉ m.free := fun hm =>
  (List.nodup_append.mp h.nodup).2.2 f hm f hf rfl

theorem used_nodup (h : Ledger m used) : used.Nodup := (List.nodup_append.mp h.nodup).2.1

theorem free_nodup (h : Ledger m used) : m.free.Nodup := (List.nodup_append.mp h.nodup).1

end Ledger
end MMapKernel.Vmm
