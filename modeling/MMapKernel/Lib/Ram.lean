import Mathlib

/-!
# Byte memory with a 32-bit address space

A memory is the bytes it holds and the bytes that have been stored, in order. Stores of
several bytes go through consecutive addresses. Each operation comes with the bytes it
leaves in its range, the frame around the range and the addresses it stores to. A copy is taken
not to wrap around.
-/

structure Ram where
  byte : UInt32 → UInt8
  log : List (UInt32 × UInt8)

namespace Ram

def stored (r : Ram) : List UInt32 := r.log.map Prod.fst

def store (r : Ram) (a : UInt32) (x : UInt8) : Ram where
  byte := Function.update r.byte a x
  log := r.log ++ [(a, x)]

def storeBytes (r : Ram) (a : UInt32) : List UInt8 → Ram
  | [] => r
  | x :: xs => storeBytes (r.store a x) (a + 1) xs

def copy (r : Ram) (dst src : UInt32) : ℕ → Ram
  | 0 => r
  | n + 1 => copy (r.store dst (r.byte src)) (dst + 1) (src + 1) n

def load (r : Ram) (a : UInt32) (n : ℕ) : List UInt8 :=
  (List.range n).map fun i => r.byte (a + UInt32.ofNat i)

def range (p : UInt32) (n : ℕ) : List UInt32 := (List.range n).map fun i => p + UInt32.ofNat i

def In (p : UInt32) (n : ℕ) (a : UInt32) : Prop := p.toNat ≤ a.toNat ∧ a.toNat < p.toNat + n

variable {r : Ram} {a p dst src : UInt32} {n i : ℕ} {x : UInt8} {xs : List UInt8}

theorem toNat_succ (h : p.toNat + (n + 1) ≤ 2 ^ 32) (hn : 0 < n) : (p + 1).toNat = p.toNat + 1 := by
  rw [UInt32.toNat_add, UInt32.toNat_one]
  omega

theorem toNat_offset (h : p.toNat + i < 2 ^ 32) : (p + UInt32.ofNat i).toNat = p.toNat + i := by
  rw [UInt32.toNat_add, UInt32.toNat_ofNat']
  omega

theorem offset_succ (p : UInt32) (i : ℕ) : p + UInt32.ofNat (i + 1) = p + 1 + UInt32.ofNat i := by
  rw [UInt32.ofNat_add, UInt32.add_assoc]
  congr 1
  exact UInt32.add_comm _ _

theorem range_zero (p : UInt32) : range p 0 = [] := rfl

theorem range_succ (p : UInt32) (n : ℕ) : range p (n + 1) = p :: range (p + 1) n := by
  unfold range
  rw [List.range_succ_eq_map, List.map_cons, List.map_map]
  exact congrArg₂ _ (by simp) (List.map_congr_left fun i _ => offset_succ p i)

theorem In.ne_of_lt {b : UInt32} (h : ¬In p n b) (ha : In p n a) : b ≠ a := fun he => h (he ▸ ha)

theorem mem_range (h : p.toNat + n ≤ 2 ^ 32) (ha : a ∈ range p n) : In p n a := by
  obtain ⟨i, hi, rfl⟩ := List.mem_map.mp ha
  rw [List.mem_range] at hi
  unfold In
  rw [toNat_offset (by omega)]
  omega

theorem In.mem_range (ha : In p n a) : a ∈ range p n := by
  obtain ⟨hlow, hhigh⟩ := ha
  refine List.mem_map.mpr ⟨a.toNat - p.toNat, List.mem_range.mpr (by omega), ?_⟩
  have hlt := a.toNat_lt
  exact UInt32.toNat_inj.mp ((toNat_offset (by omega)).trans (by omega))

@[simp] theorem store_self (r : Ram) (a : UInt32) (x : UInt8) : (r.store a x).byte a = x := by
  simp [store]

theorem store_ne (r : Ram) (x : UInt8) (h : a ≠ p) : (r.store p x).byte a = r.byte a :=
  Function.update_of_ne h _ _

@[simp] theorem store_stored (r : Ram) (a : UInt32) (x : UInt8) :
    (r.store a x).stored = r.stored ++ [a] := List.map_append

theorem storeBytes_stored (r : Ram) (p : UInt32) (xs : List UInt8) :
    (r.storeBytes p xs).stored = r.stored ++ range p xs.length := by
  induction xs generalizing r p with
  | nil => simp [storeBytes, range_zero]
  | cons x xs ih => rw [storeBytes, ih, store_stored, List.length_cons, range_succ,
      List.append_assoc, List.singleton_append]

theorem storeBytes_of_notMem (ha : a ∉ range p xs.length) : (r.storeBytes p xs).byte a = r.byte a := by
  induction xs generalizing r p with
  | nil => rfl
  | cons x xs ih =>
    rw [List.length_cons, range_succ, List.mem_cons, not_or] at ha
    rw [storeBytes, ih ha.2, store_ne r x ha.1]

theorem notMem_range_succ (h : n < 2 ^ 32) : p ∉ range (p + 1) n := by
  intro hp
  obtain ⟨i, hi, hpi⟩ := List.mem_map.mp hp
  rw [List.mem_range] at hi
  have hzero : (p + UInt32.ofNat (i + 1)).toNat = p.toNat := by rw [offset_succ, hpi]
  rw [UInt32.toNat_add, UInt32.toNat_ofNat'] at hzero
  have := p.toNat_lt
  omega

theorem storeBytes_getElem (h : xs.length ≤ 2 ^ 32) (hi : i < xs.length) :
    (r.storeBytes p xs).byte (p + UInt32.ofNat i) = xs[i] := by
  induction xs generalizing r p i with
  | nil => exact absurd hi (by simp)
  | cons x xs ih =>
    rw [List.length_cons] at h hi
    rw [storeBytes]
    cases i with
    | zero =>
      have hz : p + UInt32.ofNat 0 = p := by simp
      rw [hz, storeBytes_of_notMem (notMem_range_succ (by omega))]
      simp
    | succ i =>
      rw [offset_succ, ih (by omega) (by omega)]
      rfl

theorem storeBytes_frame (h : p.toNat + xs.length ≤ 2 ^ 32) (ha : ¬In p xs.length a) :
    (r.storeBytes p xs).byte a = r.byte a :=
  storeBytes_of_notMem fun hm => ha (mem_range h hm)

theorem storeBytes_append (r : Ram) (p : UInt32) (xs ys : List UInt8) :
    r.storeBytes p (xs ++ ys) = (r.storeBytes p xs).storeBytes (p + UInt32.ofNat xs.length) ys := by
  induction xs generalizing r p with
  | nil => simp [storeBytes]
  | cons x xs ih =>
    rw [List.cons_append, storeBytes, ih, storeBytes, List.length_cons, offset_succ]

theorem load_storeBytes (h : xs.length ≤ 2 ^ 32) : (r.storeBytes p xs).load p xs.length = xs := by
  refine List.ext_getElem (by simp [load]) fun i _ hi => ?_
  simp only [load, List.getElem_map, List.getElem_range]
  exact storeBytes_getElem h hi

theorem load_succ (r : Ram) (p : UInt32) (n : ℕ) : r.load p (n + 1) = r.byte p :: r.load (p + 1) n := by
  unfold load
  rw [List.range_succ_eq_map, List.map_cons, List.map_map]
  refine congrArg₂ _ (by simp) (List.map_congr_left fun i _ => ?_)
  exact congrArg r.byte (offset_succ p i)

theorem load_congr {r' : Ram} (h : p.toNat + n ≤ 2 ^ 32)
    (hb : ∀ a, In p n a → r'.byte a = r.byte a) : r'.load p n = r.load p n := by
  refine List.map_congr_left fun i hi => hb _ ?_
  rw [List.mem_range] at hi
  unfold In
  rw [toNat_offset (by omega)]
  omega

theorem copy_stored (r : Ram) (dst src : UInt32) (n : ℕ) :
    (r.copy dst src n).stored = r.stored ++ range dst n := by
  induction n generalizing r dst src with
  | zero => simp [copy, range_zero]
  | succ n ih => rw [copy, ih, store_stored, range_succ, List.append_assoc, List.singleton_append]

theorem copy_frame (h : dst.toNat + n ≤ 2 ^ 32) (ha : ¬In dst n a) :
    (r.copy dst src n).byte a = r.byte a := by
  induction n generalizing r dst src with
  | zero => rfl
  | succ n ih =>
    have hne : a ≠ dst := fun he => ha (he ▸ ⟨le_rfl, by omega⟩)
    rw [copy]
    cases n with
    | zero => exact store_ne r _ hne
    | succ n =>
      have hp := toNat_succ h (by omega)
      rw [ih (by omega), store_ne r _ hne]
      rintro ⟨h₁, h₂⟩
      exact ha ⟨by omega, by omega⟩

theorem copy_byte (h : dst.toNat + n ≤ 2 ^ 32) (hsrc : src.toNat + n ≤ dst.toNat) (hi : i < n) :
    (r.copy dst src n).byte (dst + UInt32.ofNat i) = r.byte (src + UInt32.ofNat i) := by
  induction n generalizing r dst src i with
  | zero => exact absurd hi (by simp)
  | succ n ih =>
    have hdst := dst.toNat_lt
    have hs : (src + 1).toNat = src.toNat + 1 := by
      rw [UInt32.toNat_add, UInt32.toNat_one]
      omega
    rw [copy]
    cases i with
    | zero =>
      have hz : ∀ q : UInt32, q + UInt32.ofNat 0 = q := fun q => by simp
      rw [hz, hz]
      cases n with
      | zero => simp [copy]
      | succ n =>
        have hp := toNat_succ h (by omega)
        rw [copy_frame (by omega) (by rintro ⟨h₁, -⟩; omega)]
        simp
    | succ i =>
      have hp := toNat_succ h (by omega)
      have hne : src + 1 + UInt32.ofNat i ≠ dst := fun hd => by
        have := congrArg UInt32.toNat hd
        rw [toNat_offset (by omega)] at this
        omega
      rw [offset_succ, offset_succ, ih (by omega) (by omega) (by omega), store_ne r _ hne]

def replay (byte : UInt32 → UInt8) (log : List (UInt32 × UInt8)) : UInt32 → UInt8 :=
  log.foldl (fun f w => Function.update f w.1 w.2) byte

variable {byte : UInt32 → UInt8} {log : List (UInt32 × UInt8)} {w : UInt32 × UInt8}

theorem replay_of_notMem (h : a ∉ log.map Prod.fst) : replay byte log a = byte a := by
  induction log generalizing byte with
  | nil => rfl
  | cons w log ih =>
    rw [List.map_cons, List.mem_cons, not_or] at h
    exact (ih h.2).trans (Function.update_of_ne h.1 _ _)

theorem replay_of_nodup (h : (log.map Prod.fst).Nodup) (hw : w ∈ log) : replay byte log w.1 = w.2 := by
  induction log generalizing byte with
  | nil => cases hw
  | cons v log ih =>
    rw [List.map_cons, List.nodup_cons] at h
    rcases List.mem_cons.mp hw with rfl | hw
    · exact (replay_of_notMem h.1).trans (Function.update_self _ _ _)
    · exact ih h.2 hw

def Logged (byte : UInt32 → UInt8) (r : Ram) : Prop := r.byte = replay byte r.log

theorem Logged.store (h : Logged byte r) (a : UInt32) (x : UInt8) : Logged byte (r.store a x) := by
  unfold Logged replay at *
  simp only [Ram.store, List.foldl_append, List.foldl_cons, List.foldl_nil, h]

theorem Logged.storeBytes (h : Logged byte r) (p : UInt32) (xs : List UInt8) :
    Logged byte (r.storeBytes p xs) := by
  induction xs generalizing r p with
  | nil => exact h
  | cons x xs ih => exact ih (h.store p x) (p + 1)

theorem Logged.copy (h : Logged byte r) (dst src : UInt32) (n : ℕ) : Logged byte (r.copy dst src n) := by
  induction n generalizing r dst src with
  | zero => exact h
  | succ n ih => exact ih (h.store dst _) (dst + 1) (src + 1)

end Ram
