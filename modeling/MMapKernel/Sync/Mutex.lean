import MMapKernel.Sync.Tokens

/-!
# A semaphore as a lock

A semaphore with one token guards the shared data: an assertion about the data for each place behind its
`down`, and one for when no thread is there. The rule for the calls is proved once; what is left to a
program is that each of its own steps leads from one assertion to the next.
-/

namespace MMapKernel.Sync

variable {ι Q P σ C : Type} [DecidableEq ι] [DecidableEq Q] {prog : P → Instr Q P σ C} {q : Q} {W : P → ℕ}
  {A : P → σ → Prop} {R : σ → Prop} {s t : State ι Q P σ} {i : ι} {c : C}

/-- The calls of a program fit the assertions: `R` is what `down` finds and `up` leaves, and other calls are
made outside. -/
structure Guards (prog : P → Instr Q P σ C) (q : Q) (W : P → ℕ) (A : P → σ → Prop) (R : σ → Prop) : Prop where
  enter : ∀ p p' x, prog p = .down q p' → R x → A p' x
  leave : ∀ p p' x, prog p = .up q p' → A p x → R x
  down : ∀ p q' p', prog p = .down q' p' → W p = 0
  up : ∀ p q' p', prog p = .up q' p' → q' ≠ q → W p = 0

structure Guarded (W : P → ℕ) (A : P → σ → Prop) (R : σ → Prop) (V : ι → View Q P) (x : σ) : Prop where
  inside : ∀ k p, V k = .here p → 0 < W p → A p x
  outside : (∀ k p, V k = .here p → W p = 0) → R x

namespace Guarded
variable {V : ι → View Q P} {x x' : σ} {p p' p'' : P} {next : ι}

omit [DecidableEq Q] in
theorem apart (h : Guarded W A R V x) (hi : ∀ p, V i = .here p → W p = 0) {v : View Q P}
    (hv : ∀ p, v = .here p → W p = 0) : Guarded W A R (Function.update V i v) x := by
  constructor
  · intro k p hk hW
    by_cases hki : k = i
    · rw [hki, Function.update_self] at hk
      exact absurd hW (by rw [hv p hk]; exact Nat.lt_irrefl 0)
    · rw [Function.update_of_ne hki] at hk
      exact h.inside k p hk hW
  · intro hall
    refine h.outside fun k p hk => ?_
    by_cases hki : k = i
    · exact hi p (hki ▸ hk)
    · exact hall k p (by rwa [Function.update_of_ne hki])

omit [DecidableEq ι] [DecidableEq Q] in
theorem zero_here (hi : V i = .here p) (hp : W p = 0) (p₀ : P) (h : V i = .here p₀) : W p₀ = 0 := by
  rw [hi] at h
  cases h
  exact hp

omit [DecidableEq Q] in
theorem only (hW : 0 < W p') (hA : A p' x') (hrest : ∀ k p, k ≠ i → V k = .here p → W p = 0) :
    Guarded W A R (Function.update V i (.here p')) x' := by
  constructor
  · intro k p hk hp
    by_cases hki : k = i
    · rw [hki, Function.update_self] at hk
      cases hk
      exact hA
    · rw [Function.update_of_ne hki] at hk
      exact absurd hp (by rw [hrest k p hki hk]; exact Nat.lt_irrefl 0)
  · intro hall
    have hzero := hall i p' (Function.update_self ..)
    exact absurd hW (by rw [hzero]; exact Nat.lt_irrefl 0)

omit [DecidableEq Q] in
theorem left (hR : R x) (hrest : ∀ k p, k ≠ i → V k = .here p → W p = 0) (hW : W p' = 0) :
    Guarded W A R (Function.update V i (.here p')) x := by
  refine ⟨fun k p hk hp => ?_, fun _ => hR⟩
  have hzero : W p = 0 := by
    by_cases hki : k = i
    · rw [hki, Function.update_self] at hk
      cases hk
      exact hW
    · rw [Function.update_of_ne hki] at hk
      exact hrest k p hki hk
  exact absurd hp (by rw [hzero]; exact Nat.lt_irrefl 0)

section
variable [Fintype ι]

omit [DecidableEq ι] in
theorem rest_zero (hone : total W q s = 1) (hi : views s i = .here p) (hp : 0 < W p) (k : ι) (p' : P)
    (hki : k ≠ i) (hk : views s k = .here p') : W p' = 0 := by
  by_contra hpos
  refine hki (eq_of_tokens hone.le ?_ ?_)
  · rw [tokens_here hk]
    exact Nat.pos_of_ne_zero hpos
  · rw [tokens_here hi]
    exact hp

omit [DecidableEq ι] in
theorem le_one (hone : total W q s = 1) (hi : views s i = .here p) : W p ≤ 1 := by
  have hle := tokens_le_held W q s i
  rw [tokens_here hi] at hle
  rw [total] at hone
  omega

omit [DecidableEq ι] in
theorem all_zero (hone : total W q s = 1) (hcount : 0 < (s.sem q).count) (k : ι) (p : P)
    (hk : views s k = .here p) : W p = 0 := by
  have hle := tokens_le_held W q s k
  rw [tokens_here hk] at hle
  rw [UInt64.lt_iff_toNat_lt, UInt64.toNat_zero] at hcount
  rw [total] at hone
  omega

theorem step (h : Guarded W A R (views s) s.shared) (ho : Orderly prog s) (hc : Counts prog q W)
    (hg : Guards prog q W A R) (hone : total W q s = 1) (hmoves : Moves prog s i c t)
    (hact : ∀ p p' f, views s i = .here p → prog p = .act f → f s.shared c = some (t.shared, p') →
      W p' = W p ∧ (0 < W p → A p s.shared → A p' t.shared) ∧ (W p = 0 → t.shared = s.shared)) :
    Guarded W A R (views t) t.shared := by
  cases hmoves with
  | stay hv hx =>
    rw [hv, hx]
    exact h
  | @act p p' f hi hf hx hv =>
    rw [hv]
    obtain ⟨hW, hinside, houtside⟩ := hact p p' f hi hf hx
    rcases Nat.eq_zero_or_pos (W p) with hzero | hpos
    · rw [houtside hzero]
      exact h.apart (zero_here hi hzero) (by rintro _ ⟨⟩; rw [hW, hzero])
    · exact only (hW ▸ hpos) (hinside hpos (h.inside i p hi hpos)) (rest_zero hone hi hpos)
  | @take p p' q' hi hdown hcount hv hx =>
    rw [hv, hx]
    have hp := hg.down p q' p' hdown
    have hp' := hc.down p q' p' hdown
    by_cases hq : q' = q
    · subst hq
      have hnone := all_zero hone hcount
      rw [if_pos rfl] at hp'
      exact only (by omega) (hg.enter p p' _ hdown (h.outside hnone)) fun k p _ hk => hnone k p hk
    · rw [if_neg hq] at hp'
      exact h.apart (zero_here hi hp) (by rintro _ ⟨⟩; omega)
  | @block p p' q' hi hdown hv hx =>
    rw [hv, hx]
    have hp := hg.down p q' p' hdown
    exact h.apart (zero_here hi hp) nofun
  | @release p p' q' hi hup hv hx =>
    rw [hv, hx]
    have hp' := hc.up p q' p' hup
    by_cases hq : q' = q
    · subst hq
      have hle := le_one hone hi
      rw [if_pos rfl] at hp'
      exact left (hg.leave p p' _ hup (h.inside i p hi (by omega))) (rest_zero hone hi (by omega)) (by omega)
    · have hp := hg.up p q' p' hup hq
      exact h.apart (zero_here hi hp) (by rintro _ ⟨⟩; omega)
  | @wake p p' p'' q' next hi hup hne hnext hv hx =>
    rw [hv, hx]
    have hp' := hc.up p q' p' hup
    obtain ⟨p₀, hdown⟩ := target_view ho hnext
    have hp₀ := hg.down p₀ q' p'' hdown
    have hp'' := hc.down p₀ q' p'' hdown
    by_cases hq : q' = q
    · subst hq
      have hle := le_one hone hi
      rw [if_pos rfl] at hp' hp''
      have hR := hg.leave p p' _ hup (h.inside i p hi (by omega))
      rw [Function.update_comm hne]
      refine only (by omega) (hg.enter p₀ p'' _ hdown hR) fun k p₁ _ hk => ?_
      by_cases hki : k = i
      · rw [hki, Function.update_self] at hk
        cases hk
        omega
      · rw [Function.update_of_ne hki] at hk
        exact rest_zero hone hi (by omega) k p₁ hki hk
    · have hp := hg.up p q' p' hup hq
      rw [if_neg hq] at hp' hp''
      refine (h.apart (i := next) (by rintro _ hn; rw [hnext] at hn; cases hn) (v := .here p'')
        (by rintro _ ⟨⟩; omega)).apart ?_ (by rintro _ ⟨⟩; omega)
      rintro _ hp₁
      rw [Function.update_of_ne hne.symm, hi] at hp₁
      cases hp₁
      exact hp

end
end Guarded

end MMapKernel.Sync
