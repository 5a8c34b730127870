import MMapKernel.Sync.Tokens

/-!
# Futures: `kernel/future.h`

One thread calls `set`, the others call `get`, each as often as it likes. The semaphore `go` has one
token, which `set` gives away and every `get` that takes it passes on; a `get` that finds `isReady` does
without it.
-/

namespace MMapKernel.Sync
open Transition

inductive FuturePlace (T : Type) where
  | idle
  | test
  | downGo
  | upGo
  | read
  | returned (value : T)
  | assert
  | storeT
  | storeReady
  | upSet
  | finished

structure FutureData (T : Type) where
  t : T
  isReady : Bool

variable {T : Type}

def futureProg (v : T) : FuturePlace T → Instr Unit (FuturePlace T) (FutureData T) Unit
  | .idle => .act fun x _ => some (x, .test)
  | .test => .act fun x _ => some (x, if x.isReady then .read else .downGo)
  | .downGo => .down () .upGo
  | .upGo => .up () .read
  | .read => .act fun x _ => some (x, .returned x.t)
  | .returned _ => .act fun x _ => some (x, .test)
  | .assert => .act fun x _ => if x.isReady then none else some (x, .storeT)
  | .storeT => .act fun x _ => some ({ x with t := v }, .storeReady)
  | .storeReady => .act fun x _ => some ({ x with isReady := true }, .upSet)
  | .upSet => .up () .finished
  | .finished => .act fun _ _ => none

abbrev FutureState (ι T : Type) := State ι Unit (FuturePlace T) (FutureData T)

variable {ι : Type} [DecidableEq ι]

def futureStart (setter : ι) (t : T) : FutureState ι T where
  sem _ := Semaphore.new 0
  phase i := .running (if i = setter then .assert else .idle)
  shared := ⟨t, false⟩

def future (v : T) (setter : ι) : System (FutureState ι T) (ι × Unit) :=
  threads (futureProg v) fun s => ∃ t, s = futureStart setter t

/-- The token that `set` still has to give away, and that of a `get` between its two calls. -/
def owed : FuturePlace T → ℕ
  | .assert => 1
  | .storeT => 1
  | .storeReady => 1
  | .upSet => 1
  | .upGo => 1
  | _ => 0

theorem counts_future (v : T) : Counts (futureProg v) () owed where
  down p q p' h := by
    cases p <;> cases h
    rfl
  up p q p' h := by
    cases p <;> cases h <;> rfl

def stage : View Unit (FuturePlace T) → ℕ
  | .here .assert => 0
  | .here .storeT => 1
  | .here .storeReady => 2
  | .here .upSet => 3
  | _ => 4

def SetPlace : FuturePlace T → Prop
  | .assert => True
  | .storeT => True
  | .storeReady => True
  | .upSet => True
  | .finished => True
  | _ => False

def PastGo : FuturePlace T → Prop
  | .read => True
  | .returned _ => True
  | _ => False

variable {v : T} {setter : ι} {s t : FutureState ι T} {i : ι}

theorem future_act {p p' : FuturePlace T} {f : FutureData T → Unit → Option (FutureData T × FuturePlace T)}
    {x x' : FutureData T} (hf : futureProg v p = .act f) (hx : f x () = some (x', p')) :
    (p' = .test ∧ x' = x ∧ (p = .idle ∨ ∃ w, p = .returned w)) ∨
    (p = .test ∧ x' = x ∧ p' = if x.isReady then .read else .downGo) ∨
    (p = .read ∧ x' = x ∧ p' = .returned x.t) ∨
    (p = .assert ∧ x.isReady = false ∧ x' = x ∧ p' = .storeT) ∨
    (p = .storeT ∧ x' = { x with t := v } ∧ p' = .storeReady) ∨
    (p = .storeReady ∧ x' = { x with isReady := true } ∧ p' = .upSet) := by
  cases p <;> cases hf <;> simp at hx <;> grind

structure FutureFits (v : T) (setter : ι) (V : ι → View Unit (FuturePlace T)) (x : FutureData T) : Prop where
  sets : ∀ k p, V k = .here p → (SetPlace p ↔ k = setter)
  pending : ∀ k q p, V k = .pending q p → k ≠ setter ∧ p = .upGo
  ready : x.isReady = true ↔ 3 ≤ stage (V setter)
  stored : 2 ≤ stage (V setter) → x.t = v
  past : ∀ k p, V k = .here p → PastGo p → 3 ≤ stage (V setter)
  result : ∀ k w, V k = .here (.returned w) → w = v

namespace FutureFits
variable {V : ι → View Unit (FuturePlace T)} {x x' : FutureData T} {p p' : FuturePlace T}

theorem act (h : FutureFits v setter V x) (hi : V i = .here p)
    {f : FutureData T → Unit → Option (FutureData T × FuturePlace T)} (hf : futureProg v p = .act f)
    (hx : f x () = some (x', p')) : FutureFits v setter (Function.update V i (.here p')) x' := by
  obtain ⟨hsets, hpending, hready, hstored, hpast, hresult⟩ := h
  have hplace := hsets i p hi
  rcases future_act hf hx with ⟨rfl, rfl, rfl | ⟨w, rfl⟩⟩ | ⟨rfl, rfl, rfl⟩ | ⟨rfl, rfl, rfl⟩ |
    ⟨rfl, hnot, rfl, rfl⟩ | ⟨rfl, rfl, rfl⟩ | ⟨rfl, rfl, rfl⟩
  · constructor <;> grind [Function.update_apply, SetPlace, PastGo, stage]
  · constructor <;> grind [Function.update_apply, SetPlace, PastGo, stage]
  · constructor <;> grind [Function.update_apply, SetPlace, PastGo, stage]
  · constructor <;> grind [Function.update_apply, SetPlace, PastGo, stage]
  · constructor <;> grind [Function.update_apply, SetPlace, PastGo, stage]
  · constructor <;> grind [Function.update_apply, SetPlace, PastGo, stage]
  · constructor <;> grind [Function.update_apply, SetPlace, PastGo, stage]

theorem down (h : FutureFits v setter V x) (hi : V i = .here p) (hp : futureProg v p = .down () p') :
    FutureFits v setter (Function.update V i (.here p')) x ∧
      FutureFits v setter (Function.update V i (.pending () p')) x := by
  obtain ⟨hsets, hpending, hready, hstored, hpast, hresult⟩ := h
  have hplace := hsets i p hi
  cases p <;> cases hp
  constructor
  · constructor <;> grind [Function.update_apply, SetPlace, PastGo, stage]
  · constructor <;> grind [Function.update_apply, SetPlace, PastGo, stage]

theorem up (h : FutureFits v setter V x) (hi : V i = .here p) (hp : futureProg v p = .up () p')
    (hget : p = .upGo → 3 ≤ stage (V setter)) : FutureFits v setter (Function.update V i (.here p')) x := by
  obtain ⟨hsets, hpending, hready, hstored, hpast, hresult⟩ := h
  have hplace := hsets i p hi
  cases p <;> cases hp
  · constructor <;> grind [Function.update_apply, SetPlace, PastGo, stage]
  · constructor <;> grind [Function.update_apply, SetPlace, PastGo, stage]

theorem woken (h : FutureFits v setter V x) (hi : V i = .pending () p) :
    FutureFits v setter (Function.update V i (.here p)) x ∧ Function.update V i (.here p) setter = V setter := by
  obtain ⟨hsets, hpending, hready, hstored, hpast, hresult⟩ := h
  obtain ⟨hne, rfl⟩ := hpending i () p hi
  constructor
  · constructor <;> grind [Function.update_apply, SetPlace, PastGo, stage]
  · exact Function.update_of_ne hne.symm ..

end FutureFits

section
variable [Fintype ι]

structure FutureInv (v : T) (setter : ι) (s : FutureState ι T) : Prop where
  orderly : Orderly (futureProg v) s
  served : Served s
  one : total owed () s = 1
  fits : FutureFits v setter (views s) s.shared

namespace FutureInv

omit [DecidableEq ι] in
theorem eq_setter (h : FutureInv v setter s) (hi : 0 < (s.phase i).tokens owed ())
    (hstage : stage (views s setter) < 4) : i = setter := by
  apply eq_of_tokens h.one.le hi
  cases hv : views s setter with
  | pending q p => exact absurd rfl (h.fits.pending setter q p hv).1
  | here p =>
    rw [tokens_here hv]
    rw [hv] at hstage
    cases p <;> first | exact Nat.one_pos | exact absurd hstage (Nat.lt_irrefl 4)

omit [DecidableEq ι] in
theorem stage_upGo (h : FutureInv v setter s) (hi : views s i = .here .upGo) : 3 ≤ stage (views s setter) := by
  by_contra hstage
  have hget : 0 < (s.phase i).tokens owed () := by
    rw [tokens_here hi]
    exact Nat.one_pos
  exact (h.fits.sets i _ hi).mpr (h.eq_setter hget (by omega))

theorem total_step (h : FutureInv v setter s) (hstep : Step (futureProg v) s i () t) : total owed () t = 1 := by
  have hone := h.one
  rcases Sync.total_step h.orderly hstep with ⟨-, hsame⟩ | ⟨p, p', f, hp, hf, hx, hact⟩
  · rw [hsame () owed (counts_future v) (by omega), hone]
  · have hdiff := hact () owed
    have hequal : owed p' = owed p := by
      rcases future_act hf hx with ⟨rfl, -, rfl | ⟨w, rfl⟩⟩ | ⟨rfl, -, rfl⟩ | ⟨rfl, -, rfl⟩ |
        ⟨rfl, -, -, rfl⟩ | ⟨rfl, -, rfl⟩ | ⟨rfl, -, rfl⟩
      case inr.inl => split <;> rfl
      all_goals rfl
    omega

theorem step (h : FutureInv v setter s) (hstep : Step (futureProg v) s i () t) : FutureInv v setter t := by
  refine ⟨h.orderly.step hstep, h.served.step h.orderly hstep, h.total_step hstep, ?_⟩
  cases step_moves h.orderly hstep with
  | stay hv hx =>
    rw [hv, hx]
    exact h.fits
  | act hi hf hx hv =>
    rw [hv]
    exact h.fits.act hi hf hx
  | take hi hdown _ hv hx =>
    rw [hv, hx]
    exact (h.fits.down hi hdown).1
  | block hi hdown hv hx =>
    rw [hv, hx]
    exact (h.fits.down hi hdown).2
  | release hi hup hv hx =>
    rw [hv, hx]
    exact h.fits.up hi hup fun hp => h.stage_upGo (hp ▸ hi)
  | @wake p p' p'' q next hi hup hne hnext hv hx =>
    rw [hv, hx]
    obtain ⟨hfits, hsetter⟩ := h.fits.woken hnext
    refine hfits.up (by rwa [Function.update_of_ne hne.symm]) hup fun hp => ?_
    rw [hsetter]
    exact h.stage_upGo (hp ▸ hi)

theorem start (setter : ι) (t₀ : T) : FutureInv v setter (futureStart setter t₀) where
  orderly := Orderly.start (fun _ => rfl) fun _ => rfl
  served := Served.start (fun _ => rfl) fun _ => rfl
  one := by
    have hheld : held owed () (futureStart setter t₀) = ∑ i, if i = setter then 1 else 0 := by
      refine Finset.sum_congr rfl fun i _ => ?_
      change owed (if i = setter then FuturePlace.assert else .idle) = _
      split <;> rfl
    rw [Finset.sum_ite_eq' Finset.univ setter fun _ => 1, if_pos (Finset.mem_univ setter)] at hheld
    rw [total, hheld]
    rfl
  fits := by
    have hviews : ∀ k, views (futureStart setter t₀) k = .here (if k = setter then .assert else .idle) :=
      fun _ => rfl
    have hsetter : views (futureStart setter t₀) setter = .here .assert := by rw [hviews, if_pos rfl]
    constructor <;> grind [SetPlace, PastGo, stage, futureStart]

omit [DecidableEq ι] in
theorem owes (h : FutureInv v setter s) (hset : views s setter = .here .finished) {k : ι}
    (hk : k ∈ (s.sem ()).waiting ∨ ∃ p, s.phase k = .blocking () p) :
    ∃ j, j ≠ setter ∧ j ≠ k ∧ views s j = .here .upGo := by
  have hone := h.one
  have hcount : (s.sem ()).count.toNat = 0 := by
    rcases hk with hqueue | ⟨p, hp⟩
    · by_contra hpos
      have hempty := h.orderly.empty () (UInt64.lt_iff_toNat_lt.mpr (Nat.pos_of_ne_zero hpos))
      rw [hempty] at hqueue
      cases hqueue
    · rw [h.orderly.zero () k p hp]
      rfl
  have hpending : ∃ p, views s k = .pending () p := by
    rcases hk with hqueue | ⟨p, hp⟩
    · obtain ⟨p, hp⟩ := (h.orderly.mem () k).mp hqueue
      exact ⟨p, by rw [views, hp]; rfl⟩
    · exact ⟨p, by rw [views, hp]; rfl⟩
  rw [total, hcount] at hone
  obtain ⟨j, hj⟩ := exists_tokens (W := owed) (q := ()) (s := s) (by omega)
  cases hv : views s j with
  | pending q p =>
    obtain ⟨-, rfl⟩ := h.fits.pending j q p hv
    rw [tokens_pending hv] at hj
    exact absurd hj (Nat.lt_irrefl 0)
  | here p =>
    rw [tokens_here hv] at hj
    have hup : p = .upGo := by
      by_contra hne
      have hset' : SetPlace p := by
        cases p <;> trivial
      rw [(h.fits.sets j p hv).mp hset', hset] at hv
      cases hv
      exact absurd hj (Nat.lt_irrefl 0)
    rw [hup] at hv
    obtain ⟨p', hp'⟩ := hpending
    refine ⟨j, fun he => ?_, fun he => ?_, hv⟩
    · rw [he, hset] at hv
      cases hv
    · rw [he, hp'] at hv
      cases hv

end FutureInv

theorem futureInv_of_reachable (hs : Reachable (future v setter) s) : FutureInv v setter s := by
  induction hs with
  | start h =>
    obtain ⟨t₀, rfl⟩ := h
    exact .start setter t₀
  | next _ hstep ih => exact ih.step (step_cases hstep)

/-- In every interleaving of one `set` and any number of calls of `get`: a `get` that has returned has
the value, which had been stored; the assertion of `set` holds; when `set` has called `up`, a `get`
waits only while another one owes its `up`; and who has been taken out of the queue is about to be
scheduled. -/
theorem future_delivers (v : T) (setter : ι) (s : FutureState ι T) (hs : Reachable (future v setter) s) :
    (∀ k w, views s k = .here (.returned w) → w = v ∧ 2 ≤ stage (views s setter)) ∧
    (views s setter = .here .assert → s.shared.isReady = false) ∧
    (views s setter = .here .finished → ∀ k, k ∈ (s.sem ()).waiting ∨ (∃ p, s.phase k = .blocking () p) →
      ∃ j, j ≠ setter ∧ j ≠ k ∧ views s j = .here .upGo) ∧
    ∀ k p, s.phase k = .woken p → ∃ j p', s.phase j = .waking k p' := by
  have h := futureInv_of_reachable hs
  refine ⟨fun k w hk => ⟨h.fits.result k w hk, ?_⟩, fun hassert => ?_, fun hset k hk => h.owes hset hk,
    h.served.woken⟩
  · have := h.fits.past k _ hk trivial
    omega
  · rw [← Bool.not_eq_true, h.fits.ready, hassert]
    exact nofun

end

def waitingGet : List (Bool × Unit) :=
  List.replicate 4 (true, ()) ++ List.replicate 5 (false, ()) ++ List.replicate 2 (true, ())

def hasReturned (s : FutureState Bool UInt32) : Bool :=
  match s.phase true with
  | .running (.returned w) => w == 7
  | _ => false

theorem waiting_get_returns : ∃ s, Reachable (future (7 : UInt32) false) s ∧
    views s true = .here (.returned 7) ∧ 2 ≤ stage (views s false) := by
  have hrun : (run (fun s i => s.step (futureProg 7) i.1 i.2) (fun _ _ => true) (futureStart false 0)
      waitingGet).any hasReturned := by decide +kernel
  obtain ⟨s, hs, hreturned⟩ := (Option.any_eq_true _ _).mp hrun
  have hreach : Reachable (future (7 : UInt32) false) s :=
    run_reachable (fun _ _ _ _ hstep => hstep) (.start ⟨0, rfl⟩) hs
  have hview : views s true = .here (.returned 7) := by
    unfold hasReturned at hreturned
    split at hreturned
    case h_1 w hw =>
      rw [views, hw, beq_iff_eq.mp hreturned]
      rfl
    case h_2 => cases hreturned
  exact ⟨s, hreach, hview, ((future_delivers 7 false s hreach).1 true 7 hview).2⟩

end MMapKernel.Sync
