import MMapKernel.Sync.Semaphore

/-!
# Queues that agree with the threads, and tokens that are conserved

A call of `down` takes a token and a call of `up` gives one away, to the semaphore or to the thread that
it wakes. How many tokens of a semaphore a thread has is a function of its place in its program, so their
number is that in the semaphore and a sum over the threads.
-/

namespace MMapKernel.Sync
open Transition

variable {ι Q P σ C : Type} [DecidableEq ι] [DecidableEq Q] {prog : P → Instr Q P σ C}
  {s t : State ι Q P σ} {i : ι} {c : C} {q : Q} {W : P → ℕ}

structure Orderly (prog : P → Instr Q P σ C) (s : State ι Q P σ) : Prop where
  lock : ∀ q i p, s.phase i = .blocking q p → (s.sem q).lock = true
  blocker : ∀ q i i' p p', s.phase i = .blocking q p → s.phase i' = .blocking q p' → i = i'
  nodup : ∀ q, (s.sem q).waiting.Nodup
  mem : ∀ q i, i ∈ (s.sem q).waiting ↔ ∃ p, s.phase i = .waiting q p
  empty : ∀ q, 0 < (s.sem q).count → (s.sem q).waiting = []
  zero : ∀ q i p, s.phase i = .blocking q p → (s.sem q).count = 0
  target : ∀ i q p, s.phase i = .blocking q p ∨ s.phase i = .waiting q p → ∃ p₀, prog p₀ = .down q p

omit [DecidableEq Q] in
theorem Orderly.start {place : ι → P} (hphase : ∀ i, s.phase i = .running (place i))
    (hsem : ∀ q, (s.sem q).waiting = []) : Orderly prog s := by
  constructor <;> grind

omit [DecidableEq ι] [DecidableEq Q] in
theorem Orderly.removed (h : Orderly prog s) {next : ι} {rest : List ι}
    (hw : (s.sem q).waiting = next :: rest) : ∃ p, s.phase next = .waiting q p :=
  (h.mem q next).mp (by rw [hw]; exact List.mem_cons_self)

theorem Orderly.step (h : Orderly prog s) (hstep : Step prog s i c t) : Orderly prog t := by
  have hremoved : ∀ q next rest, (s.sem q).waiting = next :: rest → ∃ p, s.phase next = .waiting q p :=
    fun _ _ _ hw => h.removed hw
  obtain ⟨hlock, hblocker, hnodup, hmem, hempty, hzero, htarget⟩ := h
  cases hstep with
  | act hp hf hr =>
    constructor <;> simp only [State.goTo_phase, State.goTo_sem] <;> grind [Function.update_apply]
  | take hp hdown hfree hcount =>
    constructor <;> simp only [State.goTo_phase, State.goTo_sem, State.setSem_phase, State.setSem_sem] <;>
      grind [Function.update_apply]
  | block hp hdown hfree hcount =>
    constructor <;> simp only [State.goTo_phase, State.goTo_sem, State.setSem_phase, State.setSem_sem] <;>
      grind [Function.update_apply]
  | add hp =>
    constructor <;> simp only [State.goTo_phase, State.goTo_sem, State.setSem_phase, State.setSem_sem,
      Semaphore.add] <;> grind [Function.update_apply]
  | release hp hup hfree hw =>
    constructor <;> simp only [State.goTo_phase, State.goTo_sem, State.setSem_phase, State.setSem_sem] <;>
      grind [Function.update_apply]
  | @wake p p' q next rest hp hup hfree hw =>
    obtain ⟨place, hnext⟩ := hremoved q next rest hw
    rw [hnext, Phase.removed]
    constructor <;> simp only [State.goTo_phase, State.goTo_sem, State.setSem_phase, State.setSem_sem] <;>
      grind [Function.update_apply]
  | schedule hp =>
    constructor <;> simp only [State.goTo_phase, State.goTo_sem] <;> grind [Function.update_apply]

/-- A lock that is taken is that of a thread that blocks, and a thread that has been taken out of a queue
is about to be scheduled. -/
structure Served (s : State ι Q P σ) : Prop where
  lock : ∀ q, (s.sem q).lock = true → ∃ i p, s.phase i = .blocking q p
  woken : ∀ j p, s.phase j = .woken p → ∃ i p', s.phase i = .waking j p'

omit [DecidableEq ι] [DecidableEq Q] in
theorem Served.start {place : ι → P} (hphase : ∀ i, s.phase i = .running (place i))
    (hsem : ∀ q, (s.sem q).lock = false) : Served s := by
  constructor <;> grind

omit [DecidableEq ι] [DecidableEq Q] in
theorem Served.keep (h : Served s) (hlock : ∀ q, (t.sem q).lock = true → (s.sem q).lock = true)
    (hblocking : ∀ q k p, (t.sem q).lock = true → s.phase k = .blocking q p → t.phase k = .blocking q p)
    (hwoken : ∀ j p, t.phase j = .woken p → s.phase j = .woken p)
    (hwaking : ∀ j k p p', t.phase j = .woken p → s.phase k = .waking j p' → t.phase k = .waking j p') :
    Served t := by
  constructor
  · intro q hq
    obtain ⟨k, p, hk⟩ := h.lock q (hlock q hq)
    exact ⟨k, p, hblocking q k p hq hk⟩
  · intro j p hj
    obtain ⟨k, p', hk⟩ := h.woken j p (hwoken j p hj)
    exact ⟨k, p', hwaking j k p p' hj hk⟩

theorem Served.step (h : Served s) (ho : Orderly prog s) (hstep : Step prog s i c t) : Served t := by
  cases hstep with
  | act hp =>
    apply h.keep <;> simp only [State.goTo_phase, State.goTo_sem] <;> grind [Function.update_apply]
  | take hp =>
    apply h.keep <;> simp only [State.goTo_phase, State.goTo_sem, State.setSem_phase, State.setSem_sem] <;>
      grind [Function.update_apply]
  | @block p p' q hp =>
    obtain ⟨hlock, hwoken⟩ := h
    constructor <;> simp only [State.goTo_phase, State.goTo_sem, State.setSem_phase, State.setSem_sem]
    · intro q' hq'
      by_cases hqq : q = q'
      · exact ⟨i, p', by grind [Function.update_apply]⟩
      · obtain ⟨k, place, hk⟩ := hlock q' (by grind [Function.update_apply])
        exact ⟨k, place, by grind [Function.update_apply]⟩
    · intro j p hj
      obtain ⟨k, place, hk⟩ := hwoken j p (by grind [Function.update_apply])
      exact ⟨k, place, by grind [Function.update_apply]⟩
  | add hp =>
    apply h.keep <;> simp only [State.goTo_phase, State.goTo_sem, State.setSem_phase, State.setSem_sem,
      Semaphore.add] <;> grind [Function.update_apply]
  | release hp =>
    apply h.keep <;> simp only [State.goTo_phase, State.goTo_sem, State.setSem_phase, State.setSem_sem] <;>
      grind [Function.update_apply]
  | @wake p p' q next rest hp hup hfree hw =>
    obtain ⟨place, hnext⟩ := ho.removed hw
    obtain ⟨hlock, hwoken⟩ := h
    rw [hnext, Phase.removed]
    constructor <;> simp only [State.goTo_phase, State.goTo_sem, State.setSem_phase, State.setSem_sem]
    · intro q hq
      obtain ⟨k, place, hk⟩ := hlock q (by grind [Function.update_apply])
      exact ⟨k, place, by grind [Function.update_apply]⟩
    · intro j p hj
      by_cases hj' : j = next
      · exact ⟨i, p', by grind [Function.update_apply]⟩
      · obtain ⟨k, place, hk⟩ := hwoken j p (by grind [Function.update_apply])
        exact ⟨k, place, by grind [Function.update_apply]⟩
  | schedule hp =>
    apply h.keep <;> simp only [State.goTo_phase, State.goTo_sem] <;>
      grind [Function.update_apply, Phase.scheduled_ne_woken]

inductive View (Q P : Type) where
  | here (p : P)
  | pending (q : Q) (p : P)

def Phase.view : Phase ι Q P → View Q P
  | .running p => .here p
  | .blocking q p => .pending q p
  | .waiting q p => .pending q p
  | .woken p => .here p
  | .waking _ p => .here p

def views (s : State ι Q P σ) (k : ι) : View Q P := (s.phase k).view

inductive Moves (prog : P → Instr Q P σ C) (s : State ι Q P σ) (i : ι) (c : C) (t : State ι Q P σ) : Prop
  | stay : views t = views s → t.shared = s.shared → Moves prog s i c t
  | act {p p' : P} {f : σ → C → Option (σ × P)} : views s i = .here p → prog p = .act f →
      f s.shared c = some (t.shared, p') → views t = Function.update (views s) i (.here p') →
      Moves prog s i c t
  | take {p p' : P} {q : Q} : views s i = .here p → prog p = .down q p' → 0 < (s.sem q).count →
      views t = Function.update (views s) i (.here p') → t.shared = s.shared → Moves prog s i c t
  | block {p p' : P} {q : Q} : views s i = .here p → prog p = .down q p' →
      views t = Function.update (views s) i (.pending q p') → t.shared = s.shared → Moves prog s i c t
  | release {p p' : P} {q : Q} : views s i = .here p → prog p = .up q p' →
      views t = Function.update (views s) i (.here p') → t.shared = s.shared → Moves prog s i c t
  | wake {p p' p'' : P} {q : Q} {next : ι} : views s i = .here p → prog p = .up q p' → next ≠ i →
      views s next = .pending q p'' →
      views t = Function.update (Function.update (views s) next (.here p'')) i (.here p') →
      t.shared = s.shared → Moves prog s i c t

omit [DecidableEq Q] in
theorem views_goTo (s : State ι Q P σ) (i : ι) (φ : Phase ι Q P) :
    views (s.goTo i φ) = Function.update (views s) i φ.view :=
  funext (Function.apply_update (fun _ => Phase.view) s.phase i φ)

omit [DecidableEq ι] [DecidableEq Q] in
theorem views_running {p : P} (h : s.phase i = .running p) : views s i = .here p := by
  rw [views, h]
  rfl

omit [DecidableEq ι] [DecidableEq Q] in
theorem target_view (ho : Orderly prog s) {p : P} (h : views s i = .pending q p) :
    ∃ p₀, prog p₀ = .down q p := by
  unfold views at h
  apply ho.target i q p
  cases hφ : s.phase i <;> rw [hφ] at h <;> cases h
  · exact .inl rfl
  · exact .inr rfl

theorem step_moves (ho : Orderly prog s) (hstep : Step prog s i c t) : Moves prog s i c t := by
  cases hstep with
  | act hp hf hr => exact .act (views_running hp) hf hr (views_goTo _ i _)
  | take hp hdown hfree hcount => exact .take (views_running hp) hdown hcount (views_goTo _ i _) rfl
  | block hp hdown hfree hcount => exact .block (views_running hp) hdown (views_goTo _ i _) rfl
  | @add p q hp =>
    refine .stay ((views_goTo _ i _).trans (Function.update_eq_self_iff.mpr ?_)) rfl
    rw [show views (s.setSem q ((s.sem q).add i)) i = (s.phase i).view from rfl, hp]
    rfl
  | release hp hup hfree hw => exact .release (views_running hp) hup (views_goTo _ i _) rfl
  | @wake p p' q next rest hp hup hfree hw =>
    obtain ⟨place, hnext⟩ := ho.removed hw
    have hne : next ≠ i := by
      rintro rfl
      rw [hp] at hnext
      cases hnext
    have hplace : views s next = .pending q place := by
      rw [views, hnext]
      rfl
    refine .wake (views_running hp) hup hne hplace ?_ rfl
    rw [views_goTo, views_goTo, hnext]
    rfl
  | @schedule p next hp =>
    refine .stay ?_ rfl
    have hview : (s.phase next).scheduled.view = views s next := by
      rw [views]
      cases s.phase next <;> rfl
    rw [views_goTo, views_goTo, hview, Function.update_eq_self, Function.update_eq_self_iff, views, hp]
    rfl

/-- The tokens of a thread with `W p` of them at the place `p`; one that has not been through `down` yet
does not have the token that it gets there. -/
def Phase.tokens (W : P → ℕ) (q : Q) : Phase ι Q P → ℕ
  | .running p => W p
  | .blocking q' p => W p - if q' = q then 1 else 0
  | .waiting q' p => W p - if q' = q then 1 else 0
  | .woken p => W p
  | .waking _ p => W p

omit [DecidableEq ι] in
theorem tokens_here {p : P} (h : views s i = .here p) : (s.phase i).tokens W q = W p := by
  unfold views at h
  cases hφ : s.phase i <;> rw [hφ] at h <;> cases h <;> rfl

omit [DecidableEq ι] in
theorem tokens_pending {q' : Q} {p : P} (h : views s i = .pending q' p) :
    (s.phase i).tokens W q = W p - if q' = q then 1 else 0 := by
  unfold views at h
  cases hφ : s.phase i <;> rw [hφ] at h <;> cases h <;> rfl

structure Counts (prog : P → Instr Q P σ C) (q : Q) (W : P → ℕ) : Prop where
  down : ∀ p q' p', prog p = .down q' p' → W p' = W p + if q' = q then 1 else 0
  up : ∀ p q' p', prog p = .up q' p' → W p = W p' + if q' = q then 1 else 0

omit [DecidableEq ι] in
theorem tokens_scheduled (W : P → ℕ) (q : Q) (φ : Phase ι Q P) : φ.scheduled.tokens W q = φ.tokens W q := by
  cases φ <;> rfl

section
variable [Fintype ι]

def held (W : P → ℕ) (q : Q) (s : State ι Q P σ) : ℕ := ∑ i, (s.phase i).tokens W q

def total (W : P → ℕ) (q : Q) (s : State ι Q P σ) : ℕ := (s.sem q).count.toNat + held W q s

omit [DecidableEq Q] in
theorem sum_update (f : Phase ι Q P → ℕ) (phase : ι → Phase ι Q P) (i : ι) (φ : Phase ι Q P) :
    ∑ k, f (Function.update phase i φ k) + f (phase i) = ∑ k, f (phase k) + f φ := by
  have hrest : ∑ k ∈ Finset.univ.erase i, f (Function.update phase i φ k) =
      ∑ k ∈ Finset.univ.erase i, f (phase k) := by
    refine Finset.sum_congr rfl fun k hk => ?_
    rw [Function.update_of_ne (Finset.ne_of_mem_erase hk)]
  have hnew := Finset.add_sum_erase Finset.univ (fun k => f (Function.update phase i φ k)) (Finset.mem_univ i)
  have hold := Finset.add_sum_erase Finset.univ (fun k => f (phase k)) (Finset.mem_univ i)
  simp only [Function.update_self] at hnew
  omega

theorem held_goTo (W : P → ℕ) (q : Q) (s : State ι Q P σ) (i : ι) (φ : Phase ι Q P) :
    held W q (s.goTo i φ) + (s.phase i).tokens W q = held W q s + φ.tokens W q :=
  sum_update (Phase.tokens W q) s.phase i φ

omit [DecidableEq ι] in
theorem tokens_le_held (W : P → ℕ) (q : Q) (s : State ι Q P σ) (i : ι) :
    (s.phase i).tokens W q ≤ held W q s :=
  Finset.single_le_sum (f := fun k => (s.phase k).tokens W q) (fun _ _ => Nat.zero_le _) (Finset.mem_univ i)

omit [DecidableEq ι] [Fintype ι] in
theorem target_tokens (ho : Orderly prog s) (hc : Counts prog q W) {q' : Q} {p : P}
    (h : s.phase i = .blocking q' p ∨ s.phase i = .waiting q' p) : (if q' = q then 1 else 0) ≤ W p := by
  obtain ⟨p₀, hdown⟩ := ho.target i q' p h
  have := hc.down p₀ q' p hdown
  omega

theorem total_move {q' : Q} {sem : Semaphore ι} {φ : Phase ι Q P}
    (h : φ.tokens W q + (if q' = q then sem.count.toNat else 0) =
      (s.phase i).tokens W q + if q' = q then (s.sem q').count.toNat else 0) :
    total W q ((s.setSem q' sem).goTo i φ) = total W q s := by
  have hheld := held_goTo W q (s.setSem q' sem) i φ
  have hsame : held W q (s.setSem q' sem) = held W q s := rfl
  rw [State.setSem_phase, hsame] at hheld
  rw [total, total, State.goTo_sem, State.setSem_sem]
  by_cases hq : q' = q
  · subst hq
    rw [if_pos rfl, if_pos rfl] at h
    rw [Function.update_self]
    omega
  · rw [if_neg hq, if_neg hq] at h
    rw [Function.update_of_ne (Ne.symm hq)]
    omega

theorem total_act {shared : σ} {p p' : P} (hp : s.phase i = .running p) :
    total W q ({ s with shared := shared }.goTo i (.running p')) + W p = total W q s + W p' := by
  have hheld := held_goTo W q { s with shared := shared } i (.running p')
  have hsame : held W q { s with shared := shared } = held W q s := rfl
  rw [show ({ s with shared := shared } : State ι Q P σ).phase = s.phase from rfl, hp, hsame] at hheld
  change (s.sem q).count.toNat + held W q _ + W p = (s.sem q).count.toNat + held W q s + W p'
  simp only [Phase.tokens] at hheld
  omega

theorem total_wake (ho : Orderly prog s) (hc : Counts prog q W) {q' : Q} {p p' : P} {next : ι} {rest : List ι}
    (hp : s.phase i = .running p) (hup : prog p = .up q' p') (hw : (s.sem q').waiting = next :: rest) :
    total W q (((s.setSem q' ((s.sem q').setWaiting rest)).goTo next (s.phase next).removed).goTo i
      (.waking next p')) = total W q s := by
  obtain ⟨place, hnext⟩ := ho.removed hw
  have hW := hc.up p q' p' hup
  have htarget := target_tokens ho hc (.inr hnext)
  have hne : i ≠ next := by
    rintro rfl
    rw [hp] at hnext
    cases hnext
  have hcount : ((s.setSem q' ((s.sem q').setWaiting rest)).sem q).count = (s.sem q).count := by
    rw [State.setSem_sem]
    by_cases hq : q = q'
    · rw [hq, Function.update_self, Semaphore.setWaiting_count]
    · rw [Function.update_of_ne hq]
  have hfirst := held_goTo W q (s.setSem q' ((s.sem q').setWaiting rest)) next (.woken place)
  have hsecond := held_goTo W q ((s.setSem q' ((s.sem q').setWaiting rest)).goTo next (.woken place)) i
    (.waking next p')
  have hsame : held W q (s.setSem q' ((s.sem q').setWaiting rest)) = held W q s := rfl
  rw [State.setSem_phase, hnext, hsame] at hfirst
  rw [State.goTo_phase, Function.update_of_ne hne, State.setSem_phase, hp] at hsecond
  simp only [Phase.tokens] at hfirst hsecond
  rw [hnext, Phase.removed, total, total, State.goTo_sem, State.goTo_sem, hcount]
  omega

theorem total_schedule {next : ι} {p : P} (hp : s.phase i = .waking next p) :
    total W q ((s.goTo next (s.phase next).scheduled).goTo i (.running p)) = total W q s := by
  have hnext := held_goTo W q s next (s.phase next).scheduled
  have hi := held_goTo W q (s.goTo next (s.phase next).scheduled) i (.running p)
  have hstill : ((s.goTo next (s.phase next).scheduled).phase i).tokens W q = W p := by
    rw [State.goTo_phase]
    by_cases he : i = next
    · rw [← he, Function.update_self, tokens_scheduled, hp]
      rfl
    · rw [Function.update_of_ne he, hp]
      rfl
  rw [tokens_scheduled] at hnext
  rw [hstill] at hi
  change (s.sem q).count.toNat + held W q _ = (s.sem q).count.toNat + held W q s
  simp only [Phase.tokens] at hi
  omega

theorem total_step (ho : Orderly prog s) (hstep : Step prog s i c t) :
    (t.shared = s.shared ∧ ∀ (q : Q) (W : P → ℕ), Counts prog q W → total W q s < 2 ^ 64 →
      total W q t = total W q s) ∨
    ∃ p p' f, s.phase i = .running p ∧ prog p = .act f ∧ f s.shared c = some (t.shared, p') ∧
      ∀ (q : Q) (W : P → ℕ), total W q t + W p = total W q s + W p' := by
  cases hstep with
  | @act p p' f shared hp hf hr => exact .inr ⟨p, p', f, hp, hf, hr, fun q W => total_act hp⟩
  | @take p p' q' hp hdown hfree hcount =>
    refine .inl ⟨rfl, fun q W hc _ => total_move ?_⟩
    have hW := hc.down p q' p' hdown
    have hone : (1 : UInt64) ≤ (s.sem q').count := by
      rw [UInt64.le_iff_toNat_le]
      exact UInt64.lt_iff_toNat_lt.mp hcount
    rw [UInt64.lt_iff_toNat_lt, UInt64.toNat_zero] at hcount
    rw [hp, Phase.tokens, Phase.tokens, hW, Semaphore.setCount_count, UInt64.toNat_sub_of_le _ _ hone,
      UInt64.toNat_one]
    split <;> omega
  | @block p p' q' hp hdown hfree hcount =>
    refine .inl ⟨rfl, fun q W hc _ => total_move ?_⟩
    have hW := hc.down p q' p' hdown
    rw [hp, Phase.tokens, Phase.tokens, hW, Semaphore.setLock_count]
    split <;> omega
  | @add p q' hp =>
    refine .inl ⟨rfl, fun q W _ _ => total_move ?_⟩
    rw [hp]
    rfl
  | @release p p' q' hp hup hfree hw =>
    refine .inl ⟨rfl, fun q W hc hmax => total_move ?_⟩
    have hW := hc.up p q' p' hup
    have hle := tokens_le_held W q s i
    rw [hp, Phase.tokens] at hle
    rw [hp, Phase.tokens, Phase.tokens, Semaphore.setCount_count]
    rw [total] at hmax
    split
    case isTrue hq =>
      subst hq
      rw [if_pos rfl] at hW
      rw [UInt64.toNat_add, UInt64.toNat_one, Nat.mod_eq_of_lt (by omega)]
      omega
    case isFalse hq =>
      rw [if_neg hq] at hW
      omega
  | wake hp hup hfree hw => exact .inl ⟨rfl, fun q W hc _ => total_wake ho hc hp hup hw⟩
  | schedule hp => exact .inl ⟨rfl, fun q W _ _ => total_schedule hp⟩

omit [DecidableEq ι] in
theorem tokens_add_le_held (W : P → ℕ) (q : Q) (s : State ι Q P σ) {k : ι} (h : i ≠ k) :
    (s.phase i).tokens W q + (s.phase k).tokens W q ≤ held W q s := by
  classical
  rw [← Finset.sum_pair (f := fun k => (s.phase k).tokens W q) h]
  exact Finset.sum_le_sum_of_subset (Finset.subset_univ _)

omit [DecidableEq ι] in
theorem eq_of_tokens (h : total W q s ≤ 1) {k : ι} (hi : 0 < (s.phase i).tokens W q)
    (hk : 0 < (s.phase k).tokens W q) : i = k := by
  by_contra hne
  have hle := tokens_add_le_held W q s hne
  rw [total] at h
  omega

omit [DecidableEq ι] in
theorem exists_tokens (h : 0 < held W q s) : ∃ k, 0 < (s.phase k).tokens W q := by
  by_contra hnone
  have hzero : held W q s = 0 :=
    Finset.sum_eq_zero fun k _ => Nat.eq_zero_of_not_pos fun hk => hnone ⟨k, hk⟩
  omega

end

def threads (prog : P → Instr Q P σ C) (start : State ι Q P σ → Prop) : System (State ι Q P σ) (ι × C) where
  init := start
  step s i t := s.step prog i.1 i.2 = some t

end MMapKernel.Sync
