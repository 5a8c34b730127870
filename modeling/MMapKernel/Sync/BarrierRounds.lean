import MMapKernel.Sync.Barrier

/-!
# No round leaks

Who is behind `lock` and not in `wait` has the lock, so between two of its steps no other call changes
the numbers. A round is complete with the call that finds `count` at 0, and a call that waits goes on
when more rounds are complete than when it entered.
-/

namespace MMapKernel.Sync
open Transition

namespace Condition
variable {s t : Condition} {i k : Tcb} {c : Call}

theorem Steps.others (hs : s.Ok) (h : s.Steps i c t) (hk : k ≠ i) : (s.lock = some k → t.lock = some k) ∧
    (t.phase k = s.phase k ∨ (s.phase k = .queued ∧ t.phase k = .scheduled)) := by
  cases h with
  | remove hi hn hq =>
    have hnext := hs.next_queued hq
    simp only [setQueue, schedule, goTo]
    grind [Function.update_apply]
  | _ =>
    simp only [setLock, count, nextEpoch, setQueue, schedule, goTo]
    grind [Function.update_apply]

theorem behind_outside {p q : BarrierPlace} (h : s.phase i = .outside) : s.behind i p q = p := by
  rw [behind, h]

theorem behind_still {p q : BarrierPlace} (h : s.phase i ≠ .outside) : s.behind i p q = q := by
  cases hi : s.phase i with
  | outside => exact absurd hi h
  | _ => rw [behind, hi]

theorem behind_of {P : BarrierPlace → Prop} {p q : BarrierPlace} (hp : P p) (hq : P q) : P (s.behind i p q) := by
  unfold behind
  split
  · exact hp
  · exact hq

theorem spurious_ok (hs : s.Ok) (h : s.spurious i = some t) : t.Ok := by
  obtain ⟨hnodup, hmem, hholder⟩ := hs
  unfold spurious at h
  split at h
  case h_2 hi =>
    cases h
    constructor <;> simp only [setQueue, goTo] <;>
      grind [Function.update_apply, hnodup.mem_erase_iff, hnodup.erase]
  case h_4 => cases h
  all_goals
    cases h
    constructor <;> simp only [goTo] <;> grind [Function.update_apply]

theorem spurious_frame (h : s.spurious i = some t) : t.lock = s.lock ∧ t.phase i = .scheduled ∧
    ∀ k, k ≠ i → t.phase k = s.phase k := by
  unfold spurious at h
  split at h
  case h_4 => cases h
  all_goals
    cases h
    exact ⟨rfl, Function.update_self .., fun k hk => Function.update_of_ne hk ..⟩

end Condition

def BarrierPlace.Has : BarrierPlace → Prop
  | .outside => False
  | .waiting _ _ => False
  | _ => True

def BarrierPlace.Fits : BarrierPlace → WaitPhase → Prop
  | .notifying _ _, φ => ∃ limit n, φ = .notifying limit n
  | .waiting _ _, φ => (∃ oldEpoch, φ = .released oldEpoch) ∨ φ = .queued ∨ φ = .passing ∨ φ = .scheduled
  | _, φ => φ = .outside

variable {N : UInt32} {s t : ReusableBarrier} {i j k : Tcb} {c : Condition} {a : Call} {p : BarrierPlace}

theorem BarrierPlace.Fits.scheduled (h : p.Fits .queued) : p.Fits .scheduled := by
  cases p with
  | waiting t r => exact .inr (.inr (.inr rfl))
  | notifying t r =>
    obtain ⟨limit, n, hφ⟩ := h
    cases hφ
  | _ => cases h

structure Control (s : ReusableBarrier) : Prop where
  ok : s.newEpoch.Ok
  has : ∀ i, (s.place i).Has → s.newEpoch.lock = some i
  fits : ∀ i, (s.place i).Fits (s.newEpoch.phase i)

namespace Control

theorem alone (h : Control s) (hi : (s.place i).Has) (hj : (s.place j).Has) : i = j := by
  have hlock := h.has i hi
  rw [h.has j hj] at hlock
  exact (Option.some.inj hlock).symm

theorem goTo (hok : s.newEpoch.Ok) (hhas : p.Has → s.newEpoch.lock = some i)
    (hfits : p.Fits (s.newEpoch.phase i))
    (hothers : ∀ k, k ≠ i → ((s.place k).Has → s.newEpoch.lock = some k) ∧ (s.place k).Fits (s.newEpoch.phase k)) :
    Control (s.goTo i p) where
  ok := hok
  has := (Function.forall_update_iff s.place fun k p => p.Has → s.newEpoch.lock = some k).mpr
    ⟨hhas, fun k hki => (hothers k hki).1⟩
  fits := (Function.forall_update_iff s.place fun k p => p.Fits (s.newEpoch.phase k)).mpr
    ⟨hfits, fun k hki => (hothers k hki).2⟩

theorem moved (h : Control s) (hc : s.newEpoch.Steps i a c) (hhas : p.Has → c.lock = some i)
    (hfits : p.Fits (c.phase i)) : Control ((s.setCondition c).goTo i p) := by
  apply goTo (h.ok.step hc) hhas hfits
  intro k hki
  obtain ⟨hlock, hphase⟩ := hc.others h.ok hki
  refine ⟨fun hk => hlock (h.has k hk), ?_⟩
  have hk := h.fits k
  change (s.place k).Fits (c.phase k)
  rcases hphase with hsame | ⟨hqueued, hscheduled⟩
  · rw [hsame]
    exact hk
  · rw [hqueued] at hk
    rw [hscheduled]
    exact hk.scheduled

theorem went (h : Control s) (hi : (s.place i).Has) (hphase : s.newEpoch.phase i = .outside)
    (hfits : p.Fits .outside) : Control (s.goTo i p) := by
  apply goTo h.ok (fun _ => h.has i hi)
  · rw [hphase]
    exact hfits
  · intro k _
    exact ⟨h.has k, h.fits k⟩

theorem loop {t : UInt64} {r : ℕ} (h : Control s) (hi : s.place i = .notifying t r)
    (hc : s.newEpoch.goOn i = some c) :
    Control ((s.setCondition c).goTo i (c.behind i (.unlock t r) (.notifying t r))) := by
  have hphase := h.fits i
  have hlock := h.has i
  rw [hi] at hphase hlock
  obtain ⟨limit, n, hphase⟩ := hphase
  have hsteps : s.newEpoch.Steps i .lock c := Condition.goOn_cases hc
  cases hsteps with
  | @remove _ limit n next rest hn hnl hq =>
    have hnext : ((((s.newEpoch.setQueue rest).schedule next).goTo i (.notifying limit (n + 1)))).phase i =
        .notifying limit (n + 1) := Function.update_self ..
    rw [Condition.behind_still (by rw [hnext]; exact nofun)]
    exact h.moved (a := .lock) (.remove hn hnl hq) (fun _ => hlock trivial) ⟨_, _, hnext⟩
  | done hn hend =>
    have hout : (s.newEpoch.goTo i .outside).phase i = .outside := Function.update_self ..
    rw [Condition.behind_outside hout]
    exact h.moved (a := .lock) (.done hn hend) (fun _ => hlock trivial) hout
  | _ => grind

theorem wake {t : UInt64} {r : ℕ} (h : Control s) (hi : s.place i = .waiting t r)
    (hc : s.newEpoch.goOn i = some c) :
    Control ((s.setCondition c).goTo i (c.behind i (.test t r) (.waiting t r))) := by
  have hphase := h.fits i
  rw [hi] at hphase
  have hsteps : s.newEpoch.Steps i .lock c := Condition.goOn_cases hc
  cases hsteps with
  | add hw hfree =>
    have hnext : ((s.newEpoch.setQueue (s.newEpoch.queue ++ [i])).goTo i .queued).phase i = .queued :=
      Function.update_self ..
    rw [Condition.behind_still (by rw [hnext]; exact nofun)]
    exact h.moved (a := .lock) (.add hw hfree) nofun (.inr (.inl hnext))
  | pass hw hfree hlt =>
    have hnext : (s.newEpoch.goTo i .passing).phase i = .passing := Function.update_self ..
    rw [Condition.behind_still (by rw [hnext]; exact nofun)]
    exact h.moved (a := .lock) (.pass hw hfree hlt) nofun (.inr (.inr (.inl hnext)))
  | self hw =>
    have hnext : (s.newEpoch.schedule i).phase i = .scheduled := Function.update_self ..
    rw [Condition.behind_still (by rw [hnext]; exact nofun)]
    exact h.moved (a := .lock) (.self hw) nofun (.inr (.inr (.inr hnext)))
  | relock hw hfree =>
    have hout : ((s.newEpoch.setLock (some i)).goTo i .outside).phase i = .outside := Function.update_self ..
    rw [Condition.behind_outside hout]
    exact h.moved (a := .lock) (.relock hw hfree) (fun _ => rfl) hout
  | _ => grind [BarrierPlace.Fits]

theorem step (h : Control s) (hstep : BarrierStep N s i t) : Control t := by
  have hphase := h.fits i
  have hhas := h.has i
  cases hstep with
  | @spurious t r c hi hc =>
    obtain ⟨hlock, hi', hothers⟩ := Condition.spurious_frame hc
    refine ⟨Condition.spurious_ok h.ok hc, fun k hk => hlock.trans (h.has k hk), fun k => ?_⟩
    change (s.place k).Fits (c.phase k)
    by_cases hki : k = i
    · rw [hki, hi, hi']
      exact .inr (.inr (.inr rfl))
    · rw [hothers k hki]
      exact h.fits k
  | lock hi hc =>
    rw [hi] at hphase
    have hsteps := Condition.call_cases hphase hc
    obtain ⟨-, hc⟩ := Option.ite_none_right_eq_some.mp hc
    cases hc
    exact h.moved hsteps (fun _ => rfl) hphase
  | enter hi =>
    rw [hi] at hphase
    have hdecrement : Control s.decrement := ⟨h.ok, h.has, h.fits⟩
    exact hdecrement.went (by rw [ReusableBarrier.decrement, hi]; trivial) hphase rfl
  | last hi =>
    rw [hi] at hphase
    have hnext : Control (s.nextRound N) := ⟨h.ok, h.has, h.fits⟩
    exact hnext.went (by rw [ReusableBarrier.nextRound, hi]; trivial) hphase rfl
  | more hi =>
    rw [hi] at hphase
    exact h.went (by rw [hi]; trivial) hphase rfl
  | notifyAll hi hc =>
    rw [hi] at hphase
    have hsteps := Condition.call_cases hphase hc
    obtain ⟨hlock, hc⟩ := Option.ite_none_right_eq_some.mp hc
    cases hc
    exact h.moved hsteps (fun _ => hlock) ⟨_, _, Function.update_self ..⟩
  | loop hi hc => exact h.loop hi hc
  | wait hi hle hc =>
    rw [hi] at hphase
    have hsteps := Condition.call_cases hphase hc
    obtain ⟨hlock, hc⟩ := Option.ite_none_right_eq_some.mp hc
    cases hc
    exact h.moved hsteps nofun (.inl ⟨_, Function.update_self ..⟩)
  | pass hi =>
    rw [hi] at hphase
    exact h.went (by rw [hi]; trivial) hphase rfl
  | wake hi hc => exact h.wake hi hc
  | unlock hi hc =>
    rw [hi] at hphase
    have hsteps := Condition.call_cases hphase hc
    obtain ⟨hlock, hc⟩ := Option.ite_none_right_eq_some.mp hc
    cases hc
    exact h.moved hsteps nofun hphase

end Control

def BarrierPlace.Knows (rounds : ℕ) : BarrierPlace → Prop
  | .outside => True
  | .enter => True
  | .branch t r => t.toNat = r % 2 ^ 64 ∧ r = rounds
  | .notifyAll t r => t.toNat = r % 2 ^ 64 ∧ r < rounds
  | .notifying t r => t.toNat = r % 2 ^ 64 ∧ r < rounds
  | .test t r => t.toNat = r % 2 ^ 64 ∧ r ≤ rounds
  | .waiting t r => t.toNat = r % 2 ^ 64 ∧ r ≤ rounds
  | .unlock t r => t.toNat = r % 2 ^ 64 ∧ r < rounds

structure Numbers (N : UInt32) (s : ReusableBarrier) : Prop where
  epoch : s.epoch.toNat = s.rounds % 2 ^ 64
  entries : s.entries + s.count.toNat = N.toNat * (s.rounds + 1)
  full : ∀ r < s.rounds, s.entered r = N.toNat
  now : s.entered s.rounds + s.count.toNat = N.toNat
  later : ∀ r > s.rounds, s.entered r = 0
  zero : s.count = 0 → ∃ i t r, s.place i = .branch t r
  knows : ∀ i, (s.place i).Knows s.rounds

theorem BarrierPlace.Knows.next {rounds : ℕ} (h : p.Knows rounds) (hp : ∀ t r, p ≠ .branch t r) :
    p.Knows (rounds + 1) := by
  cases p with
  | outside => trivial
  | enter => trivial
  | branch t r => exact absurd rfl (hp t r)
  | notifyAll t r => exact ⟨h.1, Nat.lt_succ_of_lt h.2⟩
  | notifying t r => exact ⟨h.1, Nat.lt_succ_of_lt h.2⟩
  | test t r => exact ⟨h.1, Nat.le_succ_of_le h.2⟩
  | waiting t r => exact ⟨h.1, Nat.le_succ_of_le h.2⟩
  | unlock t r => exact ⟨h.1, Nat.lt_succ_of_lt h.2⟩

namespace Numbers

theorem knows_goTo {rounds : ℕ} (hp : p.Knows rounds) (h : ∀ k, k ≠ i → (s.place k).Knows rounds) :
    ∀ k, ((s.goTo i p).place k).Knows rounds :=
  (Function.forall_update_iff s.place fun _ p => p.Knows rounds).mpr ⟨hp, h⟩

theorem moved (h : Numbers N s) (c : Condition) (hi : ∀ t r, s.place i ≠ .branch t r)
    (hp : p.Knows s.rounds) : Numbers N ((s.setCondition c).goTo i p) := by
  refine ⟨h.epoch, h.entries, h.full, h.now, h.later, fun hzero => ?_, ?_⟩
  · obtain ⟨k, t, r, hk⟩ := h.zero hzero
    have hki : k ≠ i := by
      rintro rfl
      exact hi t r hk
    exact ⟨k, t, r, (Function.update_of_ne hki ..).trans hk⟩
  · exact knows_goTo hp fun k _ => h.knows k

theorem enter (h : Numbers N s) (hcount : s.count ≠ 0) :
    Numbers N (s.decrement.goTo i (.branch s.epoch s.rounds)) := by
  have hpos : 0 < s.count.toNat := Nat.pos_of_ne_zero fun hzero => hcount (UInt32.toNat_inj.mp hzero)
  have hone : (1 : UInt32) ≤ s.count := UInt32.le_iff_toNat_le.mpr hpos
  have hpred : (s.count - 1).toNat = s.count.toNat - 1 := by
    rw [UInt32.toNat_sub_of_le _ _ hone, UInt32.toNat_one]
  have hentries := h.entries
  have hnow := h.now
  refine ⟨h.epoch, ?_, fun r hr => ?_, ?_, fun r hr => ?_, fun _ => ⟨i, s.epoch, s.rounds, ?_⟩, ?_⟩
  · change s.entries + 1 + (s.count - 1).toNat = N.toNat * (s.rounds + 1)
    omega
  · exact (Function.update_of_ne hr.ne ..).trans (h.full r hr)
  · change Function.update s.entered s.rounds (s.entered s.rounds + 1) s.rounds + (s.count - 1).toNat = N.toNat
    rw [Function.update_self]
    omega
  · exact (Function.update_of_ne hr.ne' ..).trans (h.later r hr)
  · exact Function.update_self ..
  · have hbranch : (BarrierPlace.branch s.epoch s.rounds).Knows s.rounds := ⟨h.epoch, rfl⟩
    exact knows_goTo hbranch fun k _ => h.knows k

theorem last {t : UInt64} {r : ℕ} (h : Numbers N s) (hs : Control s) (hN : N ≠ 0)
    (hi : s.place i = .branch t r) (hcount : s.count = 0) :
    Numbers N ((s.nextRound N).goTo i (.notifyAll t r)) := by
  have hepoch := h.epoch
  have hentries := h.entries
  have hnow := h.now
  have hknows := h.knows i
  rw [hi] at hknows
  obtain ⟨ht, rfl⟩ := hknows
  rw [hcount, UInt32.toNat_zero, Nat.add_zero] at hentries hnow
  refine ⟨?_, ?_, fun r hr => ?_, ?_, fun r hr => ?_, fun hzero => absurd hzero hN, ?_⟩
  · change (s.epoch + 1).toNat = (s.rounds + 1) % 2 ^ 64
    rw [UInt64.toNat_add, UInt64.toNat_one, hepoch]
    omega
  · change s.entries + N.toNat = N.toNat * (s.rounds + 1 + 1)
    rw [hentries, Nat.mul_succ N.toNat (s.rounds + 1)]
  · change r < s.rounds + 1 at hr
    rcases Nat.lt_succ_iff_lt_or_eq.mp hr with hlt | rfl
    · exact h.full r hlt
    · exact hnow
  · change s.entered (s.rounds + 1) + N.toNat = N.toNat
    rw [h.later (s.rounds + 1) (Nat.lt_succ_self _), Nat.zero_add]
  · exact h.later r (Nat.lt_of_succ_lt hr)
  · have hnotify : (BarrierPlace.notifyAll t s.rounds).Knows (s.rounds + 1) := ⟨ht, Nat.lt_succ_self _⟩
    refine knows_goTo hnotify fun k hki => ?_
    refine (h.knows k).next fun t' r' hk => hki ?_
    exact hs.alone (by rw [hk]; trivial) (by rw [hi]; trivial)

theorem more {t : UInt64} {r : ℕ} (h : Numbers N s) (hi : s.place i = .branch t r) (hcount : s.count ≠ 0) :
    Numbers N (s.goTo i (.test t r)) := by
  have hknows := h.knows i
  rw [hi] at hknows
  refine ⟨h.epoch, h.entries, h.full, h.now, h.later, fun hzero => absurd hzero hcount, ?_⟩
  have htest : (BarrierPlace.test t r).Knows s.rounds := ⟨hknows.1, hknows.2.le⟩
  exact knows_goTo htest fun k _ => h.knows k

theorem later_round {t : UInt64} {r : ℕ} (h : Numbers N s) (ht : t.toNat = r % 2 ^ 64) (hr : r ≤ s.rounds)
    (hlt : ¬ s.epoch ≤ t) : r < s.rounds := by
  apply lt_of_le_of_ne hr
  rintro rfl
  rw [UInt64.le_iff_toNat_le, h.epoch, ht] at hlt
  exact hlt le_rfl

theorem step (h : Numbers N s) (hs : Control s) (hN : N ≠ 0) (hstep : BarrierStep N s i t) : Numbers N t := by
  have hknows := h.knows i
  cases hstep with
  | spurious hi hc => exact ⟨h.epoch, h.entries, h.full, h.now, h.later, h.zero, h.knows⟩
  | enter hi hcount => exact h.enter hcount
  | last hi hcount => exact h.last hs hN hi hcount
  | more hi hcount => exact h.more hi hcount
  | lock hi hc => exact h.moved _ (by rw [hi]; exact nofun) trivial
  | notifyAll hi hc =>
    rw [hi] at hknows
    exact h.moved _ (by rw [hi]; exact nofun) hknows
  | loop hi hc =>
    rw [hi] at hknows
    exact h.moved _ (by rw [hi]; exact nofun) (Condition.behind_of hknows hknows)
  | wait hi hle hc =>
    rw [hi] at hknows
    exact h.moved _ (by rw [hi]; exact nofun) hknows
  | pass hi hle =>
    rw [hi] at hknows
    have hlater := h.later_round hknows.1 hknows.2 hle
    exact h.moved s.newEpoch (by rw [hi]; exact nofun) ⟨hknows.1, hlater⟩
  | wake hi hc =>
    rw [hi] at hknows
    exact h.moved _ (by rw [hi]; exact nofun) (Condition.behind_of hknows hknows)
  | unlock hi hc => exact h.moved _ (by rw [hi]; exact nofun) trivial

end Numbers

structure BarrierInv (N : UInt32) (s : ReusableBarrier) : Prop where
  control : Control s
  numbers : Numbers N s

theorem BarrierInv.start (hN : N ≠ 0) : BarrierInv N (.start N) := by
  refine ⟨⟨?_, ?_, fun _ => rfl⟩, ⟨rfl, ?_, ?_, ?_, fun _ _ => rfl, fun hzero => absurd hzero hN, fun _ => trivial⟩⟩
  · constructor <;> grind [ReusableBarrier.start, Condition.start]
  · intro i hi
    cases hi
  · change 0 + N.toNat = N.toNat * (0 + 1)
    omega
  · intro r hr
    cases hr
  · change 0 + N.toNat = N.toNat
    omega

theorem barrierInv_of_reachable (hN : N ≠ 0) (hs : Reachable (barrier N) s) : BarrierInv N s := by
  induction hs with
  | start h =>
    obtain rfl := h
    exact .start hN
  | next _ hstep ih =>
    have hcases := ReusableBarrier.step_cases hstep
    exact ⟨ih.control.step hcases, ih.numbers.step ih.control hN hcases⟩

/-- The barrier for `N >= 1` calls, in every interleaving and with spurious wakeups: `epoch` is the number of
complete rounds as far as it has bits for it; while the lock is free, the entries are `N` for each
complete round and `N - count` of the next; the assertion holds; and a call that has entered in a round
returns when `N` calls have, in a later epoch unless the epoch has wrapped. -/
theorem no_round_leaks (N : UInt32) (hN : 1 ≤ N) (s : ReusableBarrier) (hs : Reachable (barrier N) s) :
    s.epoch.toNat = s.rounds % 2 ^ 64 ∧
    (s.newEpoch.lock = none → s.entries = N.toNat * s.rounds + (N.toNat - s.count.toNat) ∧
      1 ≤ s.count ∧ s.count ≤ N) ∧
    (∀ i, s.place i = .enter → s.count ≠ 0) ∧
    ∀ i t r, s.place i = .unlock t r → t.toNat = r % 2 ^ 64 ∧ r < s.rounds ∧ s.entered r = N.toNat ∧
      (s.rounds < 2 ^ 64 → t < s.epoch) := by
  have hne : N ≠ 0 := by
    rintro rfl
    exact absurd hN (by decide)
  obtain ⟨hcontrol, hnumbers⟩ := barrierInv_of_reachable hne hs
  have hentries := hnumbers.entries
  have hnow := hnumbers.now
  refine ⟨hnumbers.epoch, fun hfree => ⟨?_, ?_, ?_⟩, fun i hi hzero => ?_, fun i t r hi => ?_⟩
  · rw [Nat.mul_succ] at hentries
    omega
  · refine UInt32.le_iff_toNat_le.mpr (Nat.pos_of_ne_zero fun hzero => ?_)
    obtain ⟨i, t, r, hi⟩ := hnumbers.zero (UInt32.toNat_inj.mp hzero)
    have hlock := hcontrol.has i (by rw [hi]; trivial)
    rw [hfree] at hlock
    cases hlock
  · exact UInt32.le_iff_toNat_le.mpr (by omega)
  · obtain ⟨j, t, r, hj⟩ := hnumbers.zero hzero
    have hij := hcontrol.alone (i := i) (j := j) (by rw [hi]; trivial) (by rw [hj]; trivial)
    rw [← hij, hi] at hj
    cases hj
  · have hknows := hnumbers.knows i
    rw [hi] at hknows
    obtain ⟨ht, hr⟩ := hknows
    refine ⟨ht, hr, hnumbers.full r hr, fun hsmall => ?_⟩
    rw [UInt64.lt_iff_toNat_lt, ht, hnumbers.epoch, Nat.mod_eq_of_lt hsmall, Nat.mod_eq_of_lt (hr.trans hsmall)]
    exact hr

def oneRound : List (Tcb × Bool) :=
  List.replicate 4 (waiter, false) ++ List.replicate 6 (notifier, false) ++ List.replicate 4 (waiter, false)

def isThrough (s : ReusableBarrier) : Bool :=
  match s.place waiter with
  | .unlock _ r => r == 0 && s.rounds == 1
  | _ => false

theorem waiter_is_through : ∃ s t, Reachable (barrier 2) s ∧ s.place waiter = .unlock t 0 ∧ s.entered 0 = 2 ∧
    t < s.epoch := by
  have hrun : (run (fun s i => s.step 2 i.1 i.2) (fun _ _ => true) (.start 2) oneRound).any isThrough := by
    decide +kernel
  obtain ⟨s, hs, hthrough⟩ := (Option.any_eq_true _ _).mp hrun
  have hreach : Reachable (barrier 2) s := run_reachable (fun _ _ _ _ hstep => hstep) (.start rfl) hs
  unfold isThrough at hthrough
  split at hthrough
  case h_2 => cases hthrough
  case h_1 t r hplace =>
    obtain ⟨hr, hrounds⟩ := (Bool.and_eq_true _ _).mp hthrough
    obtain rfl : r = 0 := beq_iff_eq.mp hr
    have hsmall : s.rounds < 2 ^ 64 := by
      rw [beq_iff_eq.mp hrounds]
      decide
    obtain ⟨-, -, hentered, hlater⟩ := (no_round_leaks 2 (by decide) s hreach).2.2.2 waiter t 0 hplace
    exact ⟨s, t, hreach, hplace, hentered, hlater hsmall⟩

/-- A thread calls `sync` on a barrier for one call, and nobody else does. -/
structure Alone (s : ReusableBarrier) (i : Tcb) (p : BarrierPlace) (lock : Option Tcb) (φ : WaitPhase)
    (count : UInt32) (rounds : ℕ) : Prop where
  place : s.place i = p
  lock : s.newEpoch.lock = lock
  phase : s.newEpoch.phase i = φ
  queue : s.newEpoch.queue = []
  count : s.count = count
  rounds : s.rounds = rounds

namespace Alone
variable {u : UInt64} {m r : ℕ}

theorem takes (h : Alone s i .outside none .outside 1 m) :
    ∃ t, s.go 1 i = some t ∧ Alone t i .enter (some i) .outside 1 m := by
  refine ⟨(s.setCondition (s.newEpoch.setLock (some i))).goTo i .enter, ?_,
    ⟨Function.update_self .., rfl, h.phase, h.queue, h.count, h.rounds⟩⟩
  rw [ReusableBarrier.go, h.place]
  simp only [Condition.call, if_pos h.lock, Option.map_some]

theorem counts (h : Alone s i .enter (some i) .outside 1 m) :
    ∃ t, s.go 1 i = some t ∧ ∃ u, Alone t i (.branch u m) (some i) .outside 0 m := by
  refine ⟨s.decrement.goTo i (.branch s.epoch s.rounds), ?_, s.epoch,
    ⟨?_, h.lock, h.phase, h.queue, ?_, h.rounds⟩⟩
  · rw [ReusableBarrier.go, h.place]
    exact if_neg (by rw [h.count]; decide)
  · rw [← h.rounds]
    exact Function.update_self ..
  · change s.count - 1 = 0
    rw [h.count]
    rfl

theorem completes (h : Alone s i (.branch u r) (some i) .outside 0 m) :
    ∃ t, s.go 1 i = some t ∧ Alone t i (.notifyAll u r) (some i) .outside 1 (m + 1) := by
  refine ⟨(s.nextRound 1).goTo i (.notifyAll u r), ?_,
    ⟨Function.update_self .., h.lock, h.phase, h.queue, rfl, congrArg Nat.succ h.rounds⟩⟩
  rw [ReusableBarrier.go, h.place]
  exact if_pos h.count

theorem notifies (h : Alone s i (.notifyAll u r) (some i) .outside 1 m) :
    ∃ t, s.go 1 i = some t ∧ Alone t i (.notifying u r) (some i) (.notifying (~~~0) 0) 1 m := by
  refine ⟨(s.setCondition (s.newEpoch.nextEpoch.goTo i (.notifying (~~~0) 0))).goTo i (.notifying u r), ?_,
    ⟨Function.update_self .., h.lock, Function.update_self .., h.queue, h.count, h.rounds⟩⟩
  rw [ReusableBarrier.go, h.place]
  simp only [Call.notifyAll, Condition.call, if_pos h.lock, Option.map_some]

theorem finds_none (h : Alone s i (.notifying u r) (some i) (.notifying (~~~0) 0) 1 m) :
    ∃ t, s.go 1 i = some t ∧ Alone t i (.unlock u r) (some i) .outside 1 m := by
  have hout : (s.newEpoch.goTo i .outside).phase i = .outside := Function.update_self ..
  refine ⟨(s.setCondition (s.newEpoch.goTo i .outside)).goTo i (.unlock u r), ?_,
    ⟨Function.update_self .., h.lock, hout, h.queue, h.count, h.rounds⟩⟩
  have hzero : (0 : UInt64) < ~~~0 := by decide
  rw [ReusableBarrier.go, h.place]
  simp only [Condition.goOn, h.phase, if_pos hzero, h.queue, Option.map_some, Condition.behind_outside hout]

theorem gives (h : Alone s i (.unlock u r) (some i) .outside 1 m) :
    ∃ t, s.go 1 i = some t ∧ Alone t i .outside none .outside 1 m := by
  refine ⟨(s.setCondition (s.newEpoch.setLock none)).goTo i .outside, ?_,
    ⟨Function.update_self .., rfl, h.phase, h.queue, h.count, h.rounds⟩⟩
  rw [ReusableBarrier.go, h.place]
  simp only [Condition.call, if_pos h.lock, Option.map_some]

theorem sync (h : Alone s i .outside none .outside 1 m) (hs : Reachable (barrier 1) s) :
    ∃ t, Reachable (barrier 1) t ∧ Alone t i .outside none .outside 1 (m + 1) := by
  have hgo : ∀ {s t : ReusableBarrier}, Reachable (barrier 1) s → s.go 1 i = some t → Reachable (barrier 1) t :=
    fun hs hstep => hs.next (i := (i, false)) hstep
  obtain ⟨s₁, h₁, ha₁⟩ := h.takes
  obtain ⟨s₂, h₂, u, ha₂⟩ := ha₁.counts
  obtain ⟨s₃, h₃, ha₃⟩ := ha₂.completes
  obtain ⟨s₄, h₄, ha₄⟩ := ha₃.notifies
  obtain ⟨s₅, h₅, ha₅⟩ := ha₄.finds_none
  obtain ⟨s₆, h₆, ha₆⟩ := ha₅.gives
  exact ⟨s₆, hgo (hgo (hgo (hgo (hgo (hgo hs h₁) h₂) h₃) h₄) h₅) h₆, ha₆⟩

end Alone

theorem rounds_reachable (m : ℕ) :
    ∃ s, Reachable (barrier 1) s ∧ Alone s waiter .outside none .outside 1 m := by
  induction m with
  | zero => exact ⟨.start 1, .start rfl, ⟨rfl, rfl, rfl, rfl, rfl, rfl⟩⟩
  | succ m ih =>
    obtain ⟨s, hs, halone⟩ := ih
    exact halone.sync hs

theorem epoch_wrap_loses_rounds : ¬ ∀ N s, 1 ≤ N → Reachable (barrier N) s → s.newEpoch.lock = none →
    s.entries = N.toNat * s.epoch.toNat + (N.toNat - s.count.toNat) := by
  intro h
  obtain ⟨s, hs, halone⟩ := rounds_reachable (2 ^ 64)
  have hentries := h 1 s (by decide) hs halone.lock
  have hinv := (barrierInv_of_reachable (by decide) hs).numbers
  have hall := hinv.entries
  rw [hinv.epoch, halone.rounds, halone.count] at hentries
  rw [halone.rounds, halone.count] at hall
  have hone : (1 : UInt32).toNat = 1 := rfl
  rw [hone] at hall hentries
  omega

end MMapKernel.Sync
