import MMapKernel.UserHeap.InRange

/-!
# The bytes that `realloc` copies

`memcpy` stores byte by byte into words of the array. As long as source and target lie in the array
it returns, and where the two ranges do not meet, the target holds what the source held. Into the
payload of a taken block it can copy anything: the heap stays well formed.
-/

open BoundaryTag
namespace MMapKernel.UserHeap
open Heap (WellFormed Untouched)

section
variable {w w' x : ℤ} {j k : ℕ}

theorem byteOf_congr (h : w % 2 ^ 32 = w' % 2 ^ 32) (hj : j < 4) : byteOf w j = byteOf w' j := by
  unfold byteOf
  interval_cases j
  · omega
  · omega
  · omega
  · omega

theorem byteOf_setByte_self (hj : j < 4) (h0 : 0 ≤ x) (hx : x < 256) : byteOf (setByte w j x) j = x := by
  rw [setByte, byteOf_congr (Int.bmod_emod ..) hj]
  unfold byteOf
  interval_cases j
  · omega
  · omega
  · omega
  · omega

theorem byteOf_setByte_ne (hj : j < 4) (hk : k < 4) (hne : k ≠ j) (h0 : 0 ≤ x) (hx : x < 256) :
    byteOf (setByte w j x) k = byteOf w k := by
  rw [setByte, byteOf_congr (Int.bmod_emod ..) hk]
  unfold byteOf
  interval_cases j <;> interval_cases k <;> omega

end

def byte (h : Heap) (a : ℕ) : ℤ := byteOf (h.array (wordOf h a)) (byteIn h a)

def putByte (h : Heap) (a : ℕ) (x : ℤ) : Heap :=
  h.store (wordOf h a) (setByte (h.array (wordOf h a)) (byteIn h a) x)

def InArray (h : Heap) (a : ℕ) : Prop := 0 ≤ wordOf h a ∧ wordOf h a < h.len

variable {h : Heap} {a a' dst src n i : ℕ} {x k : ℤ}

theorem byteIn_lt (h : Heap) (a : ℕ) : byteIn h a < 4 := by
  unfold byteIn
  omega

theorem byte_range (h : Heap) (a : ℕ) : 0 ≤ byte h a ∧ byte h a < 256 := by
  unfold byte byteOf
  omega

theorem byte_congr {g : Heap} (hbase : g.base = h.base)
    (hw : g.array (wordOf h a) = h.array (wordOf h a)) : byte g a = byte h a := by
  simp only [byte, wordOf, byteIn, hbase] at hw ⊢
  rw [hw]

theorem loadByte_ok (ha : InArray h a) : loadByte h a = .ok (byte h a) := by
  rw [loadByte, get_ok ha.1 ha.2]
  rfl

theorem storeByte_ok (ha : InArray h a) (x : ℤ) : storeByte h a x = .ok (putByte h a x) := by
  rw [storeByte, get_ok ha.1 ha.2, ok_bind, set_ok ha.1 ha.2]
  rfl

theorem putByte_self (h0 : 0 ≤ x) (hx : x < 256) : byte (putByte h a x) a = x := by
  change byteOf (Function.update h.array (wordOf h a) _ (wordOf h a)) (byteIn h a) = x
  rw [Function.update_self]
  exact byteOf_setByte_self (byteIn_lt h a) h0 hx

theorem putByte_word (hk : k ≠ wordOf h a) (x : ℤ) : (putByte h a x).array k = h.array k :=
  Function.update_of_ne hk _ _

theorem putByte_ne (hne : a' ≠ a) (h0 : 0 ≤ x) (hx : x < 256) : byte (putByte h a x) a' = byte h a' := by
  by_cases hw : wordOf h a' = wordOf h a
  · change byteOf (Function.update h.array (wordOf h a) _ (wordOf h a')) (byteIn h a') = _
    rw [hw, Function.update_self, byte, hw]
    refine byteOf_setByte_ne (byteIn_lt h a) (byteIn_lt h a') (fun hb => hne ?_) h0 hx
    unfold wordOf at hw
    unfold byteIn at hb
    omega
  · exact byte_congr rfl (putByte_word hw x)

def copied (h : Heap) (dst src : ℕ) : ℕ → Heap
  | 0 => h
  | n + 1 => copied (putByte h dst (byte h src)) (dst + 1) (src + 1) n

@[simp] theorem copied_base (h : Heap) (dst src n : ℕ) : (copied h dst src n).base = h.base := by
  induction n generalizing h dst src with
  | zero => rfl
  | succ n ih => exact ih _ _ _

@[simp] theorem copied_len (h : Heap) (dst src n : ℕ) : (copied h dst src n).len = h.len := by
  induction n generalizing h dst src with
  | zero => rfl
  | succ n ih => exact ih _ _ _

theorem shift_succ {P : ℕ → Prop} (hP : ∀ i < n + 1, P (a + i)) : P a ∧ ∀ i < n, P (a + 1 + i) :=
  ⟨hP 0 n.succ_pos, fun i hi => by
    rw [Nat.add_assoc, Nat.add_comm 1]
    exact hP (i + 1) (Nat.succ_lt_succ hi)⟩

theorem memcpy_ok (hdst : ∀ i < n, InArray h (dst + i)) (hsrc : ∀ i < n, InArray h (src + i)) :
    memcpy h dst src n = .ok (copied h dst src n) := by
  induction n generalizing h dst src with
  | zero => rfl
  | succ n ih =>
    obtain ⟨hd, hdst⟩ := shift_succ hdst
    obtain ⟨hs, hsrc⟩ := shift_succ hsrc
    rw [memcpy, loadByte_ok hs, ok_bind, storeByte_ok hd, ok_bind]
    exact ih hdst hsrc

theorem copied_word (hk : ∀ i < n, k ≠ wordOf h (dst + i)) :
    (copied h dst src n).array k = h.array k := by
  induction n generalizing h dst src with
  | zero => rfl
  | succ n ih =>
    obtain ⟨hd, hk⟩ := shift_succ (P := fun a => k ≠ wordOf h a) hk
    exact (ih (h := putByte h dst _) hk).trans (putByte_word hd _)

theorem copied_frame (ha : ∀ i < n, a ≠ dst + i) : byte (copied h dst src n) a = byte h a := by
  induction n generalizing h dst src with
  | zero => rfl
  | succ n ih =>
    obtain ⟨hd, ha⟩ := shift_succ (P := fun b => a ≠ b) ha
    obtain ⟨h0, hlt⟩ := byte_range h src
    exact (ih ha).trans (putByte_ne hd h0 hlt)

theorem copied_byte (hapart : ∀ i < n, ∀ j < n, src + i ≠ dst + j) (hi : i < n) :
    byte (copied h dst src n) (dst + i) = byte h (src + i) := by
  induction n generalizing h dst src i with
  | zero => exact absurd hi (Nat.not_lt_zero i)
  | succ n ih =>
    obtain ⟨h0, hlt⟩ := byte_range h src
    have hsrc : src + i ≠ dst := hapart i hi 0 n.succ_pos
    rw [copied]
    cases i with
    | zero =>
      rw [Nat.add_zero, copied_frame fun j _ => by omega]
      exact putByte_self h0 hlt
    | succ i =>
      rw [← Nat.add_assoc, Nat.add_right_comm dst, ih (fun i hi j hj => ?_) (Nat.lt_of_succ_lt_succ hi),
        Nat.add_assoc src, Nat.add_comm 1 i]
      · exact putByte_ne hsrc h0 hlt
      · have := hapart (i + 1) (Nat.succ_lt_succ hi) (j + 1) (Nat.succ_lt_succ hj)
        omega

theorem copied_wellFormed {bs : List Block} {fl : List ℤ} {b : Block} (hw : WellFormed h bs fl)
    (hb : b ∈ bs) (hbf : b.free = false)
    (hin : ∀ i < n, b.start < wordOf h (dst + i) ∧ wordOf h (dst + i) < b.stop - 1) :
    WellFormed (copied h dst src n) bs fl := by
  induction n generalizing h dst src with
  | zero => exact hw
  | succ n ih =>
    obtain ⟨⟨hlo, hhi⟩, hin⟩ :=
      shift_succ (P := fun a => b.start < wordOf h a ∧ wordOf h a < b.stop - 1) hin
    exact ih (hw.store hb hbf hlo hhi _) hin

end MMapKernel.UserHeap
