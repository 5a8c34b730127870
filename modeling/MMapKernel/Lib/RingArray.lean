import Mathlib

/-!
# A queue in a ring

The items of a queue lie one behind the other in an array of `N` slots, and go on at slot 0 behind the
last one.
-/

namespace RingArray

variable {T : Type*} {N h : ℕ} {data : ℕ → T} {items : List T} {a : T}

def Holds (N : ℕ) (data : ℕ → T) (h : ℕ) (items : List T) : Prop :=
  ∀ k t, items[k]? = some t → data ((h + k) % N) = t

theorem Holds.nil : Holds N data h [] := fun _ _ hk => by cases hk

theorem slot_ne {k n : ℕ} (hk : k < n) (hn : n < N) : (h + k) % N ≠ (h + n) % N := by
  intro he
  have hdvd : N ∣ h + n - (h + k) := (Nat.modEq_iff_dvd' (by omega)).mp he
  have hle := Nat.le_of_dvd (by omega) hdvd
  omega

theorem Holds.push (hh : Holds N data h items) (hroom : items.length < N) :
    Holds N (Function.update data ((h + items.length) % N) a) h (items ++ [a]) := by
  intro k t hk
  rcases Nat.lt_or_ge k items.length with hlt | hge
  · rw [List.getElem?_append_left hlt] at hk
    rw [Function.update_of_ne (slot_ne hlt hroom)]
    exact hh k t hk
  · obtain ⟨hlast, -⟩ := List.getElem?_eq_some_iff.mp hk
    rw [List.length_append, List.length_singleton] at hlast
    obtain rfl : k = items.length := by omega
    rw [List.getElem?_concat_length] at hk
    rw [Function.update_self, Option.some.inj hk]

theorem Holds.first (hh : Holds N data h (a :: items)) : data (h % N) = a := hh 0 a rfl

theorem Holds.pop (hh : Holds N data h (a :: items)) : Holds N data (h + 1) items := by
  intro k t hk
  rw [Nat.add_assoc, Nat.add_comm 1]
  exact hh (k + 1) t hk

theorem Holds.mod (hh : Holds N data h items) : Holds N data (h % N) items := by
  intro k t hk
  rw [Nat.mod_add_mod]
  exact hh k t hk

end RingArray
