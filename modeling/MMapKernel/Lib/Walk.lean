import Mathlib

/-!
# Iterated partial functions

A loop without input is a partial function on its state, `none` being the exit. Where there are only
finitely many states, it runs forever exactly if it comes back to one of them; where a measure falls
with every turn, it ends.
-/

namespace Walk

variable {α : Type*} {f : α → Option α} {a b : α} {m n : ℕ}

def after (f : α → Option α) : ℕ → α → Option α
  | 0, a => some a
  | n + 1, a => (f a).bind (after f n)

def Ends (f : α → Option α) (a : α) : Prop := ∃ n, after f n a = none

def Returns (f : α → Option α) (a : α) : Prop :=
  ∃ m n b, m < n ∧ after f m a = some b ∧ after f n a = some b

theorem after_add (m n : ℕ) (a : α) : after f (m + n) a = (after f m a).bind (after f n) := by
  induction m generalizing a with
  | zero => rw [Nat.zero_add, after, Option.bind_some]
  | succ m ih =>
    rw [Nat.succ_add, after, after]
    cases f a with
    | none => rfl
    | some b => exact ih b

theorem after_one (f : α → Option α) : after f 1 = f := by
  funext a
  exact Option.bind_fun_some (f a)

theorem after_succ (n : ℕ) (a : α) : after f (n + 1) a = (after f n a).bind f := by
  rw [after_add, after_one]

theorem after_eq_none_of_le (h : after f m a = none) (hmn : m ≤ n) : after f n a = none := by
  obtain ⟨k, rfl⟩ := Nat.exists_eq_add_of_le hmn
  rw [after_add, h, Option.bind_none]

theorem after_cycle (h : after f n b = some b) (k : ℕ) : after f (k * n) b = some b := by
  induction k with
  | zero => rw [Nat.zero_mul, after]
  | succ k ih => rw [Nat.succ_mul, after_add, ih, Option.bind_some, h]

theorem Returns.not_ends (h : Returns f a) : ¬ Ends f a := by
  obtain ⟨m, n, b, hmn, hm, hn⟩ := h
  obtain ⟨d, rfl⟩ := Nat.exists_eq_add_of_lt hmn
  have hround : after f (d + 1) b = some b := by
    rwa [Nat.add_assoc, after_add, hm, Option.bind_some] at hn
  rintro ⟨k, hk⟩
  have hlate : after f (m + k * (d + 1)) a = some b := by
    rw [after_add, hm, Option.bind_some, after_cycle hround]
  have hle : k ≤ m + k * (d + 1) := (Nat.le_mul_of_pos_right k d.succ_pos).trans (Nat.le_add_left _ m)
  rw [after_eq_none_of_le hk hle] at hlate
  cases hlate

theorem returns_of_not_ends [Finite α] (h : ¬ Ends f a) : Returns f a := by
  have hgoes : ∀ n, ∃ b, after f n a = some b := by
    intro n
    exact Option.ne_none_iff_exists'.mp fun hn => h ⟨n, hn⟩
  choose g hg using hgoes
  obtain ⟨m, n, hne, heq⟩ := Finite.exists_ne_map_eq_of_infinite g
  rcases lt_or_gt_of_ne hne with hlt | hlt
  · exact ⟨m, n, g m, hlt, hg m, by rw [hg n, heq]⟩
  · exact ⟨n, m, g n, hlt, hg n, by rw [hg m, heq]⟩

theorem ends_iff_not_returns [Finite α] : Ends f a ↔ ¬ Returns f a :=
  ⟨fun he hr => hr.not_ends he, fun hr => by_contra fun he => hr (returns_of_not_ends he)⟩

end Walk
