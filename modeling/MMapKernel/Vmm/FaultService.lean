import MMapKernel.Vmm.KernelSteps

/-!
# `mmap` and the fault handler

The handler rounds the faulting address down and looks for an entry that holds the result;
`mmap` rounds the length only. They agree about an entry that starts on a page boundary and ends
below the top of the address space: every address of its region is then served, for as long as
the entry is in the list.
-/

open Transition
namespace MMapKernel.Vmm

structure VMEntry.Whole (e : VMEntry) : Prop extends e.Aligned where
  user : 0x80000000 ≤ e.startingAddress.toNat
  below : e.finish < 2 ^ 32

/-- Same start and size; the handler changes the `node` of an entry, but not these. -/
def VMEntry.SameRegion (e e' : VMEntry) : Prop :=
  e'.startingAddress = e.startingAddress ∧ e'.size = e.size

namespace VMEntry
variable {e e' : VMEntry}

theorem SameRegion.refl (e : VMEntry) : e.SameRegion e := ⟨rfl, rfl⟩

theorem SameRegion.whole (h : e.SameRegion e') (he : e.Whole) : e'.Whole where
  start := h.1 ▸ he.start
  size := h.2 ▸ he.size
  user := h.1 ▸ he.user
  below := by
    rw [finish, h.1, h.2]
    exact he.below

theorem Whole.stop_toNat (h : e.Whole) : e.stop.toNat = e.finish := by
  rw [stop, UInt32.toNat_add]
  exact Nat.mod_eq_of_lt h.below

end VMEntry

theorem search_start (size : UInt32) (front : List VMEntry) (prev : VMEntry) (rest : List VMEntry)
    (va : UInt32) :
    (search size front prev rest va).1 = va ∨
    ∃ p t, [p, t] <:+: prev :: rest ∧ (search size front prev rest va).1 = p.stop := by
  induction rest generalizing front prev va with
  | nil => exact .inl rfl
  | cons temp rest ih =>
    have htail : ∀ p t, [p, t] <:+: temp :: rest → [p, t] <:+: prev :: temp :: rest := fun p t h =>
      pair_infix_cons.mpr (.inr h)
    unfold search
    split
    case isTrue =>
      rcases ih (front ++ [prev]) temp va with h | ⟨p, t, hpt, h⟩
      · exact .inl h
      · exact .inr ⟨p, t, htail p t hpt, h⟩
    case isFalse =>
      split
      case isTrue => exact .inl rfl
      case isFalse =>
        have hhead : [prev, temp] <:+: prev :: temp :: rest := pair_infix_cons.mpr (.inl ⟨rfl, rfl⟩)
        dsimp only
        split
        case isTrue => exact .inr ⟨prev, temp, hhead, rfl⟩
        case isFalse =>
          rcases ih (front ++ [prev]) temp prev.stop with h | ⟨p, t, hpt, h⟩
          · exact .inr ⟨prev, temp, hhead, h⟩
          · exact .inr ⟨p, t, htail p t hpt, h⟩

theorem place_start (es : List VMEntry) (size va : UInt32) :
    (place es size va).1 = va ∨ ∃ p t, [p, t] <:+: es ∧ (place es size va).1 = p.stop := by
  cases es with
  | nil => exact .inl rfl
  | cons prev rest => exact search_start size [] prev rest va

theorem frameup_toNat {len : UInt32} (h : len ≤ 0xFFFFF000) :
    (frameup len).toNat = (len.toNat + 4095) / 4096 * 4096 := by
  rw [UInt32.le_iff_toNat_le] at h
  change len.toNat ≤ 4294963200 at h
  have hsum : (len + 4096 - 1).toNat = len.toNat + 4095 := by
    rw [UInt32.toNat_sub, UInt32.toNat_add]
    change (2 ^ 32 - 1 + (len.toNat + 4096) % 2 ^ 32) % 2 ^ 32 = _
    omega
  rw [frameup, framedown_toNat, hsum]

/-- A request that the code and the claim of the handler treat alike: the hint is on a page
boundary, rounding the length up does not wrap, and no address the loop may come to is so high
that the region would reach the top. -/
structure StraightRequest (es : List VMEntry) (a : MmapArgs) : Prop where
  aligned : a.hint.toNat % 4096 = 0
  length : a.length ≤ 0xFFFFF000
  top : a.hint.toNat + a.size.toNat < 2 ^ 32
  ends : ∀ p t, [p, t] <:+: es → p.finish + a.size.toNat < 2 ^ 32

theorem StraightRequest.length_le {es : List VMEntry} {a : MmapArgs} (h : StraightRequest es a) :
    a.length.toNat ≤ a.size.toNat := by
  rw [MmapArgs.size, frameup_toNat h.length]
  omega

theorem StraightRequest.whole {cfg : Config} {es es' : List VMEntry} {a : MmapArgs} {va : UInt32}
    (h : StraightRequest es a) (hes : ∀ e ∈ es, e.Whole) (hm : mmap cfg es a = .mapped va es')
    (file : Option ℕ) : (a.newEntry file va).Whole := by
  obtain ⟨hs, hva, -, -⟩ := mmap_mapped hm
  have huser : 0x80000000 ≤ a.hint.toNat := by
    simp only [isSpecial, Bool.or_eq_false_iff, decide_eq_false_iff_not, UInt32.lt_iff_toNat_lt] at hs
    exact not_lt.mp hs.1.1
  have hstart : va.toNat % 4096 = 0 ∧ 0x80000000 ≤ va.toNat ∧ va.toNat + a.size.toNat < 2 ^ 32 := by
    rcases place_start es a.size a.hint with hkeep | ⟨p, t, hpt, hmove⟩
    · rw [hva, hkeep]
      exact ⟨h.aligned, huser, h.top⟩
    · have hp := hes p (hpt.subset (by simp))
      have hend := h.ends p t hpt
      have hpos := hp.user
      rw [hva, hmove]
      refine ⟨hp.toAligned.stop, ?_, ?_⟩
      · rw [hp.stop_toNat]
        exact hpos.trans (Nat.le_add_right _ _)
      · rw [hp.stop_toNat]
        exact hend
  exact ⟨⟨hstart.1, frameup_aligned _⟩, hstart.2.1, hstart.2.2⟩

def regions (es : List VMEntry) : List (UInt32 × UInt32) := es.map fun e => (e.startingAddress, e.size)

section
variable {cfg : Config} {files : FileSystem} {k k' : Kernel} {c : Call} {pid i : ℕ} {p p' q : Process}

theorem put_get (hp : k.procs[pid]? = some p) (h : (k.put pid q).procs[i]? = some p') :
    (i = pid ∧ p' = q) ∨ (i ≠ pid ∧ k.procs[i]? = some p') := by
  have hlt := (List.getElem?_eq_some_iff.mp hp).1
  by_cases hi : i = pid
  · subst hi
    rw [Kernel.put, List.getElem?_set_self hlt, Option.some.injEq] at h
    exact .inl ⟨rfl, h.symm⟩
  · rw [Kernel.put, List.getElem?_set_ne (Ne.symm hi)] at h
    exact .inr ⟨hi, h⟩

theorem append_get {x : Process} (h : (k.procs ++ [x])[i]? = some p') :
    k.procs[i]? = some p' ∨ (k.procs[i]? = none ∧ p' = x) := by
  rcases Nat.lt_trichotomy i k.procs.length with hi | hi | hi
  · rw [List.getElem?_append_left hi] at h
    exact .inl h
  · rw [List.getElem?_append_right hi.ge, hi, Nat.sub_self, List.getElem?_cons_zero,
      Option.some.injEq] at h
    exact .inr ⟨List.getElem?_eq_none hi.ge, h.symm⟩
  · rw [List.getElem?_eq_none (by simp; omega)] at h
    cases h

end

def later (cfg : Config) (files : FileSystem) (k : Kernel) : System Kernel Call where
  init := (· = k)
  step := (kernels cfg files).step

end MMapKernel.Vmm
