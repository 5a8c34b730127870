import Mathlib

/-!
# Items in places

A relation between items and the places they are in, and what is left of "no item is in two
places" when an item is taken out of a place or put into one.
-/

namespace Places

variable {ι π : Type*} {A : ι → π → Prop} {x y : ι} {p q r : π}

def Exclusive (A : ι → π → Prop) : Prop := ∀ ⦃x p q⦄, A x p → A x q → p = q

def Nowhere (A : ι → π → Prop) (x : ι) : Prop := ∀ p, ¬A x p

def added (A : ι → π → Prop) (x : ι) (p : π) : ι → π → Prop :=
  fun y q => A y q ∨ (y = x ∧ q = p)

def removed (A : ι → π → Prop) (x : ι) (p : π) : ι → π → Prop :=
  fun y q => A y q ∧ ¬(y = x ∧ q = p)

def moved (A : ι → π → Prop) (x : ι) (p q : π) : ι → π → Prop := added (removed A x p) x q

theorem added_self : added A x p x p := Or.inr ⟨rfl, rfl⟩

theorem added_of_ne (h : y ≠ x) : added A x p y q ↔ A y q := by
  simp [added, h]

theorem removed_of_ne (h : y ≠ x) : removed A x p y q ↔ A y q := by
  simp [removed, h]

theorem moved_of_ne (h : y ≠ x) : moved A x p q y r ↔ A y r := by
  rw [moved, added_of_ne h, removed_of_ne h]

namespace Exclusive

theorem nowhere_removed (hA : Exclusive A) (h : A x p) : Nowhere (removed A x p) x := by
  intro q hq
  exact hq.2 ⟨rfl, hA hq.1 h⟩

theorem removed (hA : Exclusive A) : Exclusive (removed A x p) :=
  fun _ _ _ h h' => hA h.1 h'.1

theorem added (hA : Exclusive A) (hx : Nowhere A x) : Exclusive (added A x p) := by
  intro y q r hq hr
  rcases hq with hq | ⟨rfl, rfl⟩
  · rcases hr with hr | ⟨rfl, rfl⟩
    · exact hA hq hr
    · exact absurd hq (hx q)
  · rcases hr with hr | ⟨-, rfl⟩
    · exact absurd hr (hx r)
    · rfl

theorem moved (hA : Exclusive A) (h : A x p) : Exclusive (moved A x p q) :=
  hA.removed.added (hA.nowhere_removed h)

theorem moved_self (hA : Exclusive A) (h : A x p) : Places.moved A x p q x r ↔ r = q := by
  constructor
  · intro hr
    exact hA.moved h hr added_self
  · rintro rfl
    exact added_self

end Exclusive

end Places
