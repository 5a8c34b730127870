import Mathlib

/-!
# How many hold a thing

Finitely many holders each hold one thing or nothing. `count` is the number of those that hold a
given thing; the rules say how it follows when a holder comes, goes or takes hold of something else.
-/

namespace Holders

variable {H A : Type*} [DecidableEq H] [DecidableEq A]

def count (live : Finset H) (holds : H → Option A) (a : A) : ℕ :=
  (live.filter fun h => holds h = some a).card

def one (x : Option A) (a : A) : ℕ := if x = some a then 1 else 0

@[simp] theorem one_none (a : A) : one none a = 0 := rfl

@[simp] theorem one_some_self (a : A) : one (some a) a = 1 := if_pos rfl

theorem one_of_ne {x : Option A} {a : A} (h : x ≠ some a) : one x a = 0 := if_neg h

variable {live : Finset H} {holds : H → Option A} {h : H} {x : Option A} {a : A}

omit [DecidableEq H] in
theorem count_empty (holds : H → Option A) (a : A) : count ∅ holds a = 0 := rfl

omit [DecidableEq H] in
theorem count_pos (hh : h ∈ live) (ha : holds h = some a) : 0 < count live holds a :=
  Finset.card_pos.mpr ⟨h, Finset.mem_filter.mpr ⟨hh, ha⟩⟩

omit [DecidableEq H] in
theorem one_le_count (hh : h ∈ live) : one (holds h) a ≤ count live holds a := by
  by_cases ha : holds h = some a
  · rw [ha, one_some_self]
    exact count_pos hh ha
  · rw [one_of_ne ha]
    exact Nat.zero_le _

theorem count_update_of_notMem (hh : h ∉ live) (x : Option A) :
    count live (Function.update holds h x) a = count live holds a := by
  unfold count
  congr 1
  refine Finset.filter_congr fun h' hh' => ?_
  have hne : h' ≠ h := fun he => hh (he ▸ hh')
  rw [Function.update_of_ne hne]

theorem count_insert (hh : h ∉ live) :
    count (insert h live) (Function.update holds h x) a = count live holds a + one x a := by
  have hrest : count live (Function.update holds h x) a = count live holds a :=
    count_update_of_notMem hh x
  unfold count at hrest ⊢
  rw [Finset.filter_insert, Function.update_self]
  by_cases hx : x = some a
  · rw [if_pos hx, Finset.card_insert_of_notMem fun hm => hh (Finset.mem_filter.mp hm).1, hrest, hx,
      one_some_self]
  · rw [if_neg hx, hrest, one_of_ne hx, Nat.add_zero]

theorem count_erase (hh : h ∈ live) :
    count (live.erase h) holds a + one (holds h) a = count live holds a := by
  have hins : count (insert h (live.erase h)) (Function.update holds h (holds h)) a =
      count (live.erase h) holds a + one (holds h) a := count_insert (Finset.notMem_erase h live)
  rw [Finset.insert_erase hh, Function.update_eq_self] at hins
  exact hins.symm

theorem count_update (hh : h ∈ live) :
    count live (Function.update holds h x) a + one (holds h) a = count live holds a + one x a := by
  have hins : count (insert h (live.erase h)) (Function.update holds h x) a =
      count (live.erase h) holds a + one x a := count_insert (Finset.notMem_erase h live)
  rw [Finset.insert_erase hh] at hins
  rw [hins, ← count_erase hh]
  omega

end Holders
