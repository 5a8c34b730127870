import MMapKernel.Lib.Transition

/-!
# Endless runs and fairness

Nothing need happen at a given time. Fairness says that what can be done again and again is done again
and again; what a fair step leads to is then bound to come.
-/

namespace Transition

variable {σ ι : Type*} {S : System σ ι}

structure Path (S : System σ ι) where
  state : ℕ → σ
  label : ℕ → Option ι
  next : ∀ n, (label n = none ∧ state (n + 1) = state n) ∨
    ∃ i, label n = some i ∧ S.step (state n) i (state (n + 1))

namespace Path

def Fair (x : Path S) (can : σ → Prop) (does : ι → Prop) : Prop :=
  (∀ n, ∃ m ≥ n, can (x.state m)) → ∀ n, ∃ m ≥ n, ∃ i, x.label m = some i ∧ does i

variable {x : Path S} {P Q : σ → Prop} {n : ℕ}

theorem lasts (hkeep : ∀ s i t, P s → S.step s i t → P t ∨ Q t) (hP : P (x.state n))
    (hQ : ∀ m ≥ n, ¬ Q (x.state m)) : ∀ m ≥ n, P (x.state m) := by
  intro m hm
  induction m, hm using Nat.le_induction with
  | base => exact hP
  | succ m hm ih =>
    rcases x.next m with ⟨-, hsame⟩ | ⟨i, -, hstep⟩
    · rw [hsame]
      exact ih
    · exact (hkeep _ i _ ih hstep).resolve_right (hQ (m + 1) (by omega))

/-- If the fair steps lead from `P` to `Q`, all others keep `P`, and they can be made again and again
while `P` holds, then `Q` comes after `P`. -/
theorem reaches {can : σ → Prop} {does : ι → Prop} (hfair : x.Fair can does)
    (hkeep : ∀ s i t, P s → S.step s i t → P t ∨ Q t)
    (hdoes : ∀ s i t, P s → does i → S.step s i t → Q t)
    (hcan : (∀ m ≥ n, P (x.state m)) → ∀ m, ∃ m' ≥ m, can (x.state m')) (hP : P (x.state n)) :
    ∃ m ≥ n, Q (x.state m) := by
  by_contra hnone
  push Not at hnone
  have hlasts := lasts hkeep hP hnone
  obtain ⟨m, hm, i, hi, hdo⟩ := hfair (hcan hlasts) n
  rcases x.next m with ⟨hlabel, -⟩ | ⟨i', hlabel, hstep⟩
  · rw [hi] at hlabel
    cases hlabel
  · rw [hi] at hlabel
    cases hlabel
    exact hnone (m + 1) (by omega) (hdoes _ i _ (hlasts m hm) hdo hstep)

end Path

end Transition
