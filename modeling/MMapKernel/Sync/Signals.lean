import MMapKernel.Sync.Condition

/-!
# No signal is missed

A thread that has given up the lock in `wait` is in the queue, or its block handler has still to compare
the epochs. The handler puts it into the queue only if no `notify` came in between, so a `notify` finds
it in the queue or makes the handler schedule it.
-/

namespace MMapKernel.Sync
open Transition

def WaitPhase.due : WaitPhase → ℕ
  | .released _ => 1
  | .queued => 1
  | .passing => 1
  | _ => 0

structure CondInv (s : Condition) : Prop where
  ok : s.Ok
  old : ∀ k oldEpoch, s.phase k = .released oldEpoch → oldEpoch ≤ s.epoch
  fresh : ∀ j limit n, s.phase j = .notifying limit n → ∀ k oldEpoch, s.phase k = .released oldEpoch →
    oldEpoch < s.epoch
  turns : ∀ j limit n, s.phase j = .notifying limit n → n.toNat + s.queue.length ≤ 2 ^ 32
  counts : ∀ k, s.waits k = s.wakes k + (s.phase k).due

variable {s t u : Condition} {i j k : Tcb} {c : Call} {w : ℕ}

theorem length_le {l : List Tcb} (h : l.Nodup) : l.length ≤ 2 ^ 32 := by
  have hnodup : (l.map fun a => a.address.toFin).Nodup := by
    refine h.map fun a b hab => ?_
    cases a
    cases b
    cases UInt32.toFin_inj.mp hab
    rfl
  have hle := hnodup.length_le_card
  rw [List.length_map, Fintype.card_fin] at hle
  exact hle

theorem lt_succ {a e : UInt64} (h : a ≤ e) (hwrap : e + 1 ≠ 0) : a < e + 1 := by
  have hmax := e.toNat_lt
  have hne : (e + 1).toNat ≠ 0 := fun hzero => hwrap (UInt64.toNat_inj.mp hzero)
  rw [UInt64.le_iff_toNat_le] at h
  rw [UInt64.toNat_add, UInt64.toNat_one] at hne
  rw [UInt64.lt_iff_toNat_lt, UInt64.toNat_add, UInt64.toNat_one]
  omega

theorem CondInv.start : CondInv .start := by
  refine ⟨⟨?_, ?_, ?_⟩, ?_, ?_, ?_, ?_⟩ <;> grind [Condition.start, WaitPhase.due]

theorem CondInv.bump {limit : UInt64} (h : CondInv s) (hwrap : NoWrap s (i, .notify limit))
    (hi : s.phase i = .outside) (k : Tcb) (oldEpoch : UInt64) (hk : s.phase k = .released oldEpoch) :
    oldEpoch < s.epoch + 1 :=
  lt_succ (h.old k oldEpoch hk) fun hzero => hwrap limit rfl hi hzero k oldEpoch hk

theorem CondInv.step (h : CondInv s) (hwrap : NoWrap s (i, c)) (hstep : s.Steps i c t) : CondInv t := by
  have hlen := length_le h.ok.nodup
  have hok := h.ok.step hstep
  have ⟨⟨hnodup, hmem, hholder⟩, hold, hfresh, hturns, hcounts⟩ := h
  cases hstep with
  | lock hi hfree => refine ⟨hok, ?_, ?_, ?_, ?_⟩ <;> simp only [Condition.setLock] <;> grind
  | unlock hi hlock => refine ⟨hok, ?_, ?_, ?_, ?_⟩ <;> simp only [Condition.setLock] <;> grind
  | wait hi hlock =>
    refine ⟨hok, ?_, ?_, ?_, ?_⟩ <;> simp only [Condition.setLock, Condition.count, Condition.goTo] <;>
      grind [Function.update_apply, WaitPhase.due]
  | @notify limit hi hlock =>
    have hlater := h.bump hwrap hi
    refine ⟨hok, ?_, ?_, ?turns, ?_⟩ <;> simp only [Condition.nextEpoch, Condition.goTo]
    case turns =>
      intro j limit' n hj
      by_cases hji : j = i
      · rw [hji, Function.update_self] at hj
        cases hj
        rw [UInt64.toNat_zero, Nat.zero_add]
        exact hlen
      · rw [Function.update_of_ne hji] at hj
        exact hturns j limit' n hj
    all_goals grind [Function.update_apply, WaitPhase.due, UInt64.le_of_lt]
  | add hi hfree =>
    refine ⟨hok, ?_, ?_, ?_, ?_⟩ <;> simp only [Condition.setQueue, Condition.goTo] <;>
      grind [Function.update_apply, WaitPhase.due]
  | pass hi hfree hlt =>
    refine ⟨hok, ?_, ?_, ?_, ?_⟩ <;> simp only [Condition.goTo] <;> grind [Function.update_apply, WaitPhase.due]
  | self hi =>
    refine ⟨hok, ?_, ?_, ?_, ?_⟩ <;> simp only [Condition.schedule] <;> grind [Function.update_apply, WaitPhase.due]
  | relock hi hfree =>
    refine ⟨hok, ?_, ?_, ?_, ?_⟩ <;> simp only [Condition.setLock, Condition.goTo] <;>
      grind [Function.update_apply, WaitPhase.due]
  | @remove _ limit n next rest hi hn hq =>
    have hnext := h.ok.next_queued hq
    have hsucc : (n + 1).toNat = n.toNat + 1 := by
      have hmax := limit.toNat_lt
      rw [UInt64.lt_iff_toNat_lt] at hn
      rw [UInt64.toNat_add, UInt64.toNat_one, Nat.mod_eq_of_lt (by omega)]
    refine ⟨hok, ?_, ?_, ?_, ?_⟩ <;> simp only [Condition.setQueue, Condition.schedule, Condition.goTo] <;>
      grind [Function.update_apply, WaitPhase.due]
  | done hi hend =>
    refine ⟨hok, ?_, ?_, ?_, ?_⟩ <;> simp only [Condition.goTo] <;> grind [Function.update_apply, WaitPhase.due]

/-- The thread has been scheduled for its `w`-th wait, or it only needs its own block handler. -/
def Coming (s : Condition) (k : Tcb) (w : ℕ) : Prop :=
  w ≤ s.wakes k ∨ (s.waits k = w ∧
    (s.phase k = .passing ∨ ∃ oldEpoch, s.phase k = .released oldEpoch ∧ oldEpoch < s.epoch))

structure Called (s : Condition) (j k : Tcb) (w : ℕ) : Prop where
  waits : s.waits k = w
  head : s.queue.head? = some k
  loop : ∃ limit, 0 < limit ∧ s.phase j = .notifying limit 0

theorem Coming.step (h : Coming s k w) (hs : CondInv s) (hwrap : NoWrap s (i, c)) (hstep : s.Steps i c t) :
    Coming t k w := by
  have hmem := hs.ok.mem
  have hcounts := hs.counts
  cases hstep with
  | lock hi hfree => exact h
  | unlock hi hlock => exact h
  | wait hi hlock =>
    simp only [Coming, Condition.setLock, Condition.count, Condition.goTo] at h ⊢
    grind [Function.update_apply, WaitPhase.due]
  | @notify limit hi hlock =>
    have hlater := hs.bump hwrap hi
    simp only [Coming, Condition.nextEpoch, Condition.goTo] at h ⊢
    grind [Function.update_apply]
  | add hi hfree =>
    simp only [Coming, Condition.setQueue, Condition.goTo] at h ⊢
    grind [Function.update_apply]
  | pass hi hfree hlt =>
    simp only [Coming, Condition.goTo] at h ⊢
    grind [Function.update_apply]
  | self hi =>
    simp only [Coming, Condition.schedule] at h ⊢
    grind [Function.update_apply, WaitPhase.due]
  | relock hi hfree =>
    simp only [Coming, Condition.setLock, Condition.goTo] at h ⊢
    grind [Function.update_apply]
  | @remove _ limit n next rest hi hn hq =>
    have hnext := hs.ok.next_queued hq
    simp only [Coming, Condition.setQueue, Condition.schedule, Condition.goTo] at h ⊢
    grind [Function.update_apply]
  | done hi hend =>
    simp only [Coming, Condition.goTo] at h ⊢
    grind [Function.update_apply]

theorem Called.own (h : Called s j k w) (hs : CondInv s) (hstep : s.Steps j c t) : w ≤ t.wakes k := by
  obtain ⟨hwaits, hhead, limit, hlimit, hj⟩ := h
  cases hstep with
  | @remove _ limit' n next rest hi hn hq =>
    rw [hq] at hhead
    obtain rfl : next = k := Option.some.inj hhead
    have hphase := hs.ok.next_queued hq
    have hcount := hs.counts next
    rw [hphase, WaitPhase.due] at hcount
    rw [Condition.goTo_wakes, Condition.schedule_wakes, Condition.setQueue_wakes, Function.update_self]
    omega
  | @done _ limit' n hi hend =>
    rw [hj] at hi
    cases hi
    rw [hend hlimit] at hhead
    cases hhead
  | _ => grind

theorem Called.step (h : Called s j k w) (hs : CondInv s) (hstep : s.Steps i c t) :
    Called t j k w ∨ w ≤ t.wakes k := by
  by_cases hij : i = j
  · subst hij
    exact .inr (h.own hs hstep)
  obtain ⟨hwaits, hhead, limit, hlimit, hj⟩ := h
  have hlock := hs.ok.holder j limit 0 hj
  have hother : s.lock ≠ some i := by
    rw [hlock]
    rintro ⟨⟩
    exact hij rfl
  cases hstep with
  | lock hi hfree => exact absurd (hlock.symm.trans hfree) nofun
  | unlock hi hlock' => exact absurd hlock' hother
  | wait hi hlock' => exact absurd hlock' hother
  | notify hi hlock' => exact absurd hlock' hother
  | add hi hfree => exact absurd (hlock.symm.trans hfree) nofun
  | pass hi hfree => exact absurd (hlock.symm.trans hfree) nofun
  | relock hi hfree => exact absurd (hlock.symm.trans hfree) nofun
  | remove hi => exact absurd (hs.ok.holder i _ _ hi) hother
  | done hi => exact absurd (hs.ok.holder i _ _ hi) hother
  | self hi =>
    refine .inl ⟨hwaits, hhead, limit, hlimit, ?_⟩
    rw [Condition.schedule_phase, Function.update_of_ne (Ne.symm hij)]
    exact hj

abbrev signals : System Condition (Tcb × Call) := condition.restrict NoWrap

def Fair (x : Path signals) : Prop :=
  ∀ i, x.Fair (fun s => ∃ t, s.goOn i = some t) fun l => l.1 = i

/-- In every fair run in which the lock is free again and again, the thread is scheduled at some time for
its `w`-th wait. -/
def Delivered (s : Condition) (k : Tcb) (w : ℕ) : Prop :=
  ∀ x : Path signals, x.state 0 = s → Fair x → (∀ n, ∃ m ≥ n, (x.state m).lock = none) →
    ∃ m, w ≤ (x.state m).wakes k

theorem signals_step {l : Tcb × Call} (h : signals.step s l t) : NoWrap s l ∧ s.Steps l.1 l.2 t :=
  ⟨h.1, Condition.step_cases h.2⟩

structure Handled (s : Condition) (k : Tcb) (w : ℕ) : Prop where
  inv : CondInv s
  coming : Coming s k w

theorem Handled.step {l : Tcb × Call} (h : Handled s k w) (hstep : signals.step s l t) : Handled t k w := by
  obtain ⟨hwrap, hsteps⟩ := signals_step hstep
  exact ⟨h.inv.step hwrap hsteps, h.coming.step h.inv hwrap hsteps⟩

theorem Handled.released (h : Handled s k w) (hnot : ¬ (w ≤ s.wakes k ∨ s.phase k = .passing)) :
    ∃ oldEpoch, s.phase k = .released oldEpoch ∧ oldEpoch < s.epoch := by
  rcases h.coming with hdone | ⟨-, hphase | hreleased⟩
  · exact absurd (.inl hdone) hnot
  · exact absurd (.inr hphase) hnot
  · exact hreleased

theorem passing_step (hk : s.phase k = .passing) (hs : CondInv s) (hstep : s.Steps i c t) :
    t.phase k = .passing ∨ t.phase k = .scheduled := by
  have hmem := hs.ok.mem
  cases hstep <;> simp only [Condition.setLock, Condition.count, Condition.nextEpoch, Condition.setQueue,
    Condition.schedule, Condition.goTo] <;> grind [Function.update_apply]

theorem passing_self (hk : s.phase k = .passing) (hstep : s.Steps k c t) : t = s.schedule k := by
  cases hstep <;> grind

theorem released_pass {oldEpoch : UInt64} (hk : s.phase k = .released oldEpoch) (hlt : oldEpoch < s.epoch)
    (hstep : s.Steps k c t) : t = s.goTo k .passing := by
  cases hstep <;> grind

section
variable {x : Path signals} {n : ℕ}

theorem passing_delivered (hfair : Fair x) (h : Handled (x.state n) k w) (hk : (x.state n).phase k = .passing) :
    ∃ m ≥ n, w ≤ (x.state m).wakes k := by
  refine Path.reaches (P := fun s => Handled s k w ∧ s.phase k = .passing) (Q := fun s => w ≤ s.wakes k)
    (hfair k) ?_ ?_ ?_ ⟨h, hk⟩
  · rintro s l t ⟨hs, hpassing⟩ hstep
    have ht := hs.step hstep
    rcases ht.coming with hdone | ⟨-, hphase | ⟨oldEpoch, hreleased, -⟩⟩
    · exact .inr hdone
    · exact .inl ⟨ht, hphase⟩
    · rcases passing_step hpassing hs.inv (signals_step hstep).2 with hphase | hphase
      · rw [hphase] at hreleased
        cases hreleased
      · rw [hphase] at hreleased
        cases hreleased
  · rintro s l t ⟨hs, hpassing⟩ rfl hstep
    have hcount := hs.inv.counts l.1
    rw [hpassing, WaitPhase.due] at hcount
    have hwaits : w ≤ s.waits l.1 := by
      rcases hs.coming with hdone | ⟨hw, -⟩
      · omega
      · exact hw.ge
    rw [passing_self hpassing (signals_step hstep).2, Condition.schedule_wakes, Function.update_self, ← hcount]
    exact hwaits
  · intro hlasts m
    refine ⟨max m n, le_max_left m n, (x.state (max m n)).schedule k, ?_⟩
    rw [Condition.goOn, (hlasts (max m n) (le_max_right m n)).2]

theorem released_passes (hfair : Fair x) (hfree : ∀ n, ∃ m ≥ n, (x.state m).lock = none)
    (h : Handled (x.state n) k w) : ∃ m ≥ n, w ≤ (x.state m).wakes k ∨
      (Handled (x.state m) k w ∧ (x.state m).phase k = .passing) := by
  by_cases hdone : w ≤ (x.state n).wakes k ∨ (x.state n).phase k = .passing
  · exact ⟨n, le_rfl, hdone.imp_right fun hk => ⟨h, hk⟩⟩
  refine Path.reaches (P := fun s => Handled s k w ∧ ¬ (w ≤ s.wakes k ∨ s.phase k = .passing))
    (Q := fun s => w ≤ s.wakes k ∨ (Handled s k w ∧ s.phase k = .passing)) (hfair k) ?_ ?_ ?_ ⟨h, hdone⟩
  · rintro s l t ⟨hs, -⟩ hstep
    have ht := hs.step hstep
    by_cases hdone : w ≤ t.wakes k ∨ t.phase k = .passing
    · exact .inr (hdone.imp_right fun hk => ⟨ht, hk⟩)
    · exact .inl ⟨ht, hdone⟩
  · rintro s l t ⟨hs, hnot⟩ rfl hstep
    obtain ⟨oldEpoch, hreleased, hlt⟩ := hs.released hnot
    have ht := hs.step hstep
    refine .inr ⟨ht, ?_⟩
    rw [released_pass hreleased hlt (signals_step hstep).2, Condition.goTo_phase, Function.update_self]
  · intro hlasts m
    obtain ⟨m', hm', hlock⟩ := hfree (max m n)
    obtain ⟨hs, hnot⟩ := hlasts m' (by omega)
    obtain ⟨oldEpoch, hreleased, hlt⟩ := hs.released hnot
    refine ⟨m', by omega, (x.state m').goTo k .passing, ?_⟩
    have hne : (x.state m').epoch ≠ oldEpoch := by
      rintro rfl
      exact absurd hlt (UInt64.lt_irrefl _)
    rw [Condition.goOn, hreleased]
    simp only [if_pos hlock, if_neg hne, if_pos hlt]

end

theorem Handled.delivered (h : Handled s k w) : Delivered s k w := by
  rintro x rfl hfair hfree
  obtain ⟨m, -, hdone | ⟨hm, hk⟩⟩ := released_passes hfair hfree h
  · exact ⟨m, hdone⟩
  · obtain ⟨m', -, hdone⟩ := passing_delivered hfair hm hk
    exact ⟨m', hdone⟩

theorem Called.delivered (h : Called s j k w) (hs : CondInv s) : Delivered s k w := by
  rintro x rfl hfair -
  have hcomes : ∃ m ≥ 0, w ≤ (x.state m).wakes k := by
    refine Path.reaches (P := fun s => CondInv s ∧ Called s j k w) (Q := fun s => w ≤ s.wakes k) (hfair j)
      ?_ ?_ ?_ ⟨hs, h⟩
    · rintro s l t ⟨hs, hcalled⟩ hstep
      obtain ⟨hwrap, hsteps⟩ := signals_step hstep
      exact (hcalled.step hs hsteps).imp_left fun ht => ⟨hs.step hwrap hsteps, ht⟩
    · rintro s l t ⟨hs, hcalled⟩ rfl hstep
      exact hcalled.own hs (signals_step hstep).2
    · intro hlasts m
      obtain ⟨limit, hlimit, hj⟩ := (hlasts m (Nat.zero_le m)).2.loop
      refine ⟨m, le_rfl, ?_⟩
      simp only [Condition.goOn, hj, if_pos hlimit]
      cases (x.state m).queue with
      | nil => exact ⟨_, rfl⟩
      | cons next rest => exact ⟨_, rfl⟩
  obtain ⟨m, -, hdone⟩ := hcomes
  exact ⟨m, hdone⟩

theorem CondInv.coming (h : CondInv s) (hk : s.phase k ≠ .queued)
    (hreleased : ∀ oldEpoch, s.phase k = .released oldEpoch → oldEpoch < s.epoch) : Coming s k (s.waits k) := by
  have hcount := h.counts k
  cases hphase : s.phase k with
  | queued => exact absurd hphase hk
  | passing => exact .inr ⟨rfl, .inl hphase⟩
  | released oldEpoch => exact .inr ⟨rfl, .inr ⟨oldEpoch, hphase, hreleased oldEpoch hphase⟩⟩
  | _ =>
    rw [hphase] at hcount
    exact .inl hcount.le

theorem CondInv.notifyAll {n : UInt64} (h : CondInv s) (hj : s.phase j = .notifying (~~~0) n)
    (hstep : s.Steps j c t) (hout : t.phase j = .outside) (k : Tcb) : Handled t k (t.waits k) := by
  have hwrap : NoWrap s (j, c) := by
    intro limit _ hi
    rw [hj] at hi
    cases hi
  have ht := h.step hwrap hstep
  have hturns := h.turns j _ n hj
  have hlt : n < ~~~0 := by
    have hmax : (~~~0 : UInt64).toNat = 2 ^ 64 - 1 := by decide
    rw [UInt64.lt_iff_toNat_lt, hmax]
    omega
  refine ⟨ht, ht.coming ?_ ?_⟩
  · rw [Ne, ← ht.ok.mem k]
    cases hstep with
    | done hi hend =>
      rw [hj] at hi
      cases hi
      rw [Condition.goTo_queue, hend hlt]
      exact List.not_mem_nil
    | remove hi =>
      rw [Condition.goTo_phase, Function.update_self] at hout
      cases hout
    | _ => grind
  · intro oldEpoch hk
    have hfresh := h.fresh j _ n hj k oldEpoch
    cases hstep with
    | done hi hend =>
      rw [Condition.goTo_phase] at hk
      apply hfresh
      by_cases hkj : k = j
      · rw [hkj, Function.update_self] at hk
        cases hk
      · rwa [Function.update_of_ne hkj] at hk
    | remove hi =>
      rw [Condition.goTo_phase, Function.update_self] at hout
      cases hout
    | _ => grind

theorem CondInv.notify {limit : UInt64} (h : CondInv s) (hlimit : 0 < limit)
    (hwrap : NoWrap s (j, .notify limit)) (hj : s.phase j = .outside) (hstep : s.Steps j (.notify limit) t)
    (hk : s.wakes k < s.waits k) : ∃ k, s.wakes k < s.waits k ∧ Delivered t k (s.waits k) := by
  have ht := h.step hwrap hstep
  cases hstep with
  | @notify _ hi hlock =>
    cases hq : s.queue with
    | cons next rest =>
      have hphase := h.ok.next_queued hq
      have hcount := h.counts next
      rw [hphase, WaitPhase.due] at hcount
      refine ⟨next, by omega, Called.delivered (j := j) ⟨rfl, ?_, limit, hlimit, ?_⟩ ht⟩
      · rw [Condition.goTo_queue, Condition.nextEpoch_queue, hq]
        rfl
      · rw [Condition.goTo_phase, Function.update_self]
    | nil =>
      have hcount := h.counts k
      have hkj : k ≠ j := by
        rintro rfl
        rw [hj] at hcount
        exact absurd hcount hk.ne'
      refine ⟨k, hk, Handled.delivered ⟨ht, ht.coming ?_ ?_⟩⟩
      · rw [Ne, ← ht.ok.mem k, Condition.goTo_queue, Condition.nextEpoch_queue, hq]
        exact List.not_mem_nil
      · intro oldEpoch hreleased
        rw [Condition.goTo_phase, Function.update_of_ne hkj] at hreleased
        exact h.bump hwrap hj k oldEpoch hreleased
  | _ => grind

end MMapKernel.Sync
