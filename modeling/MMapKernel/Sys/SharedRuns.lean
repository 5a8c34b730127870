import MMapKernel.Sys.SharedCounts

/-!
# Runs of shared pointers

The counters are right in every run, so an object goes with its last handle. What never goes is a
`FatPointer` without an object: it is not counted, and the decrement that would free it is skipped.
-/

open Transition
namespace MMapKernel.Sys

variable {H T : Type} [DecidableEq H] [DecidableEq T]

namespace SharedState

def holders (s : SharedState H T) : ℕ → ℕ := Holders.count s.live s.fatPointer

def Sound (s : SharedState H T) : Prop := Counted s.mem s.holders

def MakesNull (s : SharedState H T) : SharedOp H T → Prop
  | .construct _ it => it = none
  | .default _ => True
  | .assignRaw h rhs => rhs = none ∧ ∀ a f, s.mem.fat (s.fatPointer h) = .ok (a, f) → f.pointer ≠ none
  | .copy _ _ | .move _ _ | .destroy _ | .assignCopy _ _ | .assignMove _ _ => False

structure Follows (s : SharedState H T) (op : SharedOp H T) (t : SharedState H T) : Prop where
  sound : t.Sound
  made : none ∈ t.mem.made ↔ none ∈ s.mem.made ∨ s.MakesNull op

variable {s t : SharedState H T} {op : SharedOp H T}

omit [DecidableEq T] in
theorem holders_begin {h : H} (hh : h ∉ s.live) (x : Option ℕ) (a : ℕ) :
    (s.begin h x).holders a = s.holders a + Holders.one x a := Holders.count_insert hh

omit [DecidableEq T] in
theorem holders_set {h : H} (hh : h ∈ s.live) (x : Option ℕ) (a : ℕ) :
    (s.set h x).holders a + Holders.one (s.fatPointer h) a = s.holders a + Holders.one x a :=
  Holders.count_update hh

omit [DecidableEq H] [DecidableEq T] in
theorem one_le_holders {h : H} (hh : h ∈ s.live) (a : ℕ) :
    Holders.one (s.fatPointer h) a ≤ s.holders a := Holders.one_le_count hh

omit [DecidableEq H] in
theorem Sound.fat (hs : s.Sound) {h : H} {a : ℕ} (hh : h ∈ s.live) (ha : s.fatPointer h = some a) :
    ∃ f, s.mem.fats a = some f := hs.held a (Holders.count_pos hh ha)

section Operations
variable (hs : s.Sound) {h rhs : H} {it : Option T}
include hs

theorem construct_follows (hh : h ∉ s.live) :
    ∃ t, s.apply (.construct h it) = .ok t ∧ Follows s (.construct h it) t := by
  obtain ⟨m, hm, hmade, hc⟩ := hs.construct it
  have ha : (s.mem.make it).1 = s.mem.made.length := rfl
  refine ⟨{ s.begin h (some s.mem.made.length) with mem := m }, ?_, hc.congr fun a => ?_, ?_⟩
  · simp only [apply, ha, hm, Except.map]
  · exact holders_begin hh _ a
  · simp [hmade, MakesNull, eq_comm]

theorem default_follows (hh : h ∉ s.live) :
    ∃ t, s.apply (.default h) = .ok t ∧ Follows s (.default h) t := by
  refine ⟨_, rfl, ?_, by simp [SharedMem.make, MakesNull]⟩
  have hgrow := hs.grow (c := 0) none (by simp)
  have hmem : { (s.mem.make none).2 with
      counters := Function.update s.mem.counters s.mem.made.length (some 0) } = (s.mem.make none).2 :=
    rfl
  rw [hmem] at hgrow
  exact hgrow.congr fun a => holders_begin hh _ a

theorem copy_follows (hh : h ∉ s.live) (hr : rhs ∈ s.live) :
    s.apply (.copy h rhs) = .error .movedFrom ∨
      ∃ t, s.apply (.copy h rhs) = .ok t ∧ Follows s (.copy h rhs) t := by
  cases hx : s.fatPointer rhs with
  | none => exact .inl (by simp [apply, hx, SharedMem.incrementCounter, SharedMem.fat, Except.bind, Except.map])
  | some a =>
    right
    obtain ⟨m, hm, hmade, hc⟩ := hs.increment (Holders.count_pos hr hx)
    refine ⟨{ s.begin h (some a) with mem := m }, ?_, hc.congr fun a => ?_, ?_⟩
    · simp only [apply, hx, hm, Except.map]
    · exact holders_begin hh _ a
    · simp [hmade, MakesNull]

theorem move_follows (hh : h ∉ s.live) (hr : rhs ∈ s.live) :
    ∃ t, s.apply (.move h rhs) = .ok t ∧ Follows s (.move h rhs) t := by
  have hne : rhs ≠ h := fun he => hh (he ▸ hr)
  refine ⟨_, rfl, hs.congr fun a => ?_, by simp [MakesNull, begin, set]⟩
  have hset := holders_set (s := s.begin h (s.fatPointer rhs)) (Finset.mem_insert_of_mem hr) none a
  rw [holders_begin hh] at hset
  simp only [begin, Function.update_of_ne hne, Holders.one_none] at hset ⊢
  omega

theorem destroy_follows (hh : h ∈ s.live) :
    ∃ t, s.apply (.destroy h) = .ok t ∧ Follows s (.destroy h) t := by
  obtain ⟨m, hm, hmade, hc⟩ := hs.decrement (one_le_holders hh)
  refine ⟨{ s with live := s.live.erase h, mem := m }, ?_, hc.congr fun a => ?_, ?_⟩
  · simp only [apply, hm, Except.map]
  · have herase : Holders.count (s.live.erase h) s.fatPointer a + Holders.one (s.fatPointer h) a =
      s.holders a := Holders.count_erase hh
    simp only [holders] at herase ⊢
    omega
  · simp [hmade, MakesNull]

theorem assignCopy_follows (hh : h ∈ s.live) (hr : rhs ∈ s.live) :
    s.apply (.assignCopy h rhs) = .error .movedFrom ∨
      ∃ t, s.apply (.assignCopy h rhs) = .ok t ∧ Follows s (.assignCopy h rhs) t := by
  by_cases heq : s.fatPointer h = s.fatPointer rhs
  · exact .inr ⟨s, by simp [apply, heq], hs, by simp [MakesNull]⟩
  have hbody : s.apply (.assignCopy h rhs) = (s.mem.decrementCounter (s.fatPointer h)).bind fun m =>
      (m.incrementCounter (s.fatPointer rhs)).map fun m =>
        { s.set h (s.fatPointer rhs) with mem := m } := if_neg heq
  rw [hbody]
  -- the old target goes before the new one is counted
  obtain ⟨m, hm, hmade, hc⟩ := hs.decrement (one_le_holders hh)
  cases hx : s.fatPointer rhs with
  | none =>
    left
    simp [hm, SharedMem.incrementCounter, SharedMem.fat, Except.bind, Except.map]
  | some a =>
    right
    have hne : s.fatPointer h ≠ some a := hx ▸ heq
    have hpos : 0 < s.holders a - Holders.one (s.fatPointer h) a := by
      rw [Holders.one_of_ne hne, Nat.sub_zero]
      exact Holders.count_pos hr hx
    obtain ⟨m', hm', hmade', hc'⟩ := hc.increment hpos
    refine ⟨{ s.set h (some a) with mem := m' }, ?_, hc'.congr fun b => ?_, ?_⟩
    · simp only [hm, Except.bind, hm', Except.map]
    · have hset := holders_set hh (some a) b
      have hle := one_le_holders hh b
      simp only [holders] at hset hle ⊢
      omega
    · simp [hmade', hmade, MakesNull]

theorem assignMove_follows (hh : h ∈ s.live) (hr : rhs ∈ s.live) :
    ∃ t, s.apply (.assignMove h rhs) = .ok t ∧ Follows s (.assignMove h rhs) t := by
  obtain ⟨m, hm, hmade, hc⟩ := hs.decrement (one_le_holders hh)
  refine ⟨{ (s.set h (s.fatPointer rhs)).set rhs none with mem := m }, ?_, hc.congr fun a => ?_, ?_⟩
  · simp only [apply, hm, Except.map]
  · have hset := holders_set hh (s.fatPointer rhs) a
    have hset' := holders_set (s := s.set h (s.fatPointer rhs)) hr none a
    have hrhs : (s.set h (s.fatPointer rhs)).fatPointer rhs = s.fatPointer rhs := by
      by_cases hne : rhs = h
      · simp [set, hne]
      · simp [set, hne]
    rw [hrhs, Holders.one_none] at hset'
    have hle := one_le_holders hh a
    simp only [holders] at hset hset' hle ⊢
    omega
  · simp [hmade, MakesNull]

theorem assignRaw_follows (hh : h ∈ s.live) :
    s.apply (.assignRaw h it) = .error .movedFrom ∨
      ∃ t, s.apply (.assignRaw h it) = .ok t ∧ Follows s (.assignRaw h it) t := by
  cases hx : s.fatPointer h with
  | none => exact .inl (by simp [apply, hx, SharedMem.fat, Except.bind])
  | some a =>
    right
    obtain ⟨f, hf⟩ := hs.fat hh hx
    by_cases hp : f.pointer = it
    · refine ⟨s, ?_, hs, ?_⟩
      · simp only [apply, hx, Counted.fat_eq hf, Except.bind, if_pos hp]
      · simp [MakesNull, hx, Counted.fat_eq hf, hp]
    · obtain ⟨m, hm, hmade, hc⟩ := hs.decrement (one_le_holders hh)
      obtain ⟨m', hm', hmade', hc'⟩ := hc.construct it
      have ha : (m.make it).1 = m.made.length := rfl
      refine ⟨{ s.set h (some m.made.length) with mem := m' }, ?_, hc'.congr fun b => ?_, ?_⟩
      · rw [hx] at hm
        simp only [apply, hx, Counted.fat_eq hf, Except.bind, if_neg hp, hm, ha, hm', Except.map]
      · have hset := holders_set hh (some m.made.length) b
        have hle := one_le_holders hh b
        simp only [holders] at hset hle ⊢
        omega
      · have hobject : it = none → f.pointer ≠ none := fun hit => hit ▸ hp
        simp only [hmade', hmade, MakesNull, hx, Counted.fat_eq hf, List.mem_append,
          List.mem_singleton]
        refine or_congr_right ⟨fun hit => ⟨hit.symm, ?_⟩, fun hit => hit.1.symm⟩
        rintro _ _ ⟨⟩
        exact hobject hit.symm

end Operations

theorem step_follows (hs : s.Sound) (op : SharedOp H T) :
    (∃ t, s.step op = .ok t ∧ Follows s op t) ∨ s.step op = .error .movedFrom ∨
      s.step op = .error .notAHandle := by
  by_cases hl : op.Legal s.live
  · have hstep : s.step op = s.apply op := if_pos hl
    rw [hstep]
    cases op with
    | construct h it => exact .inl (construct_follows hs hl)
    | default h => exact .inl (default_follows hs hl)
    | copy h rhs => exact (copy_follows hs hl.1 hl.2).elim (fun he => .inr (.inl he)) .inl
    | move h rhs => exact .inl (move_follows hs hl.1 hl.2)
    | destroy h => exact .inl (destroy_follows hs hl)
    | assignRaw h it => exact (assignRaw_follows hs hl).elim (fun he => .inr (.inl he)) .inl
    | assignCopy h rhs => exact (assignCopy_follows hs hl.1 hl.2).elim (fun he => .inr (.inl he)) .inl
    | assignMove h rhs => exact .inl (assignMove_follows hs hl.1 hl.2)
  · exact .inr (.inr (if_neg hl))

theorem next_follows (hs : s.Sound) (h : s.next op = some t) : Follows s op t := by
  have hstep : s.step op = .ok t := by
    cases hop : s.step op with
    | error => simp [next, hop, Except.toOption] at h
    | ok t' => simpa [next, hop, Except.toOption] using h
  rcases step_follows hs op with ⟨t', ht', hf⟩ | he | he
  · rw [hstep] at ht'
    cases ht'
    exact hf
  · rw [hstep] at he
    cases he
  · rw [hstep] at he
    cases he

omit [DecidableEq H] in
theorem start_sound : (start : SharedState H T).Sound where
  own := nofun
  freed := nofun
  held a ha := by simp [holders, start, Holders.count_empty] at ha
  deletions o := by simp [start, gone]

end SharedState

theorem sharedRuns_sound :
    (sharedRuns : System (SharedState H T) (SharedOp H T)).Inductive SharedState.Sound where
  init := by
    rintro s rfl
    exact SharedState.start_sound
  step _ _ _ hs h := (SharedState.next_follows hs h).sound

theorem Counted.deleted_once {m : SharedMem T} {n : ℕ → ℕ} {a : ℕ} {o : T} (h : Counted m n)
    (ha : m.made[a]? = some (some o)) (hone : ∀ b, m.made[b]? = some (some o) → b = a) :
    m.deleted.count o = if n a = 0 then 1 else 0 := by
  have hlt : a < m.made.length := (List.getElem?_eq_some_iff.mp ha).1
  have hgone : gone m.made n o = if n a = 0 then {a} else ∅ := by
    ext b
    by_cases hb : b = a
    · subst hb
      have hget := (List.getElem?_eq_some_iff.mp ha).2
      by_cases hz : n b = 0
      · simp [gone, hlt, hz, hget]
      · simp [gone, hz]
    · have hother : m.made[b]? ≠ some (some o) := fun hm => hb (hone b hm)
      by_cases hz : n a = 0
      · simp only [gone, hz, if_true, Finset.mem_filter, Finset.mem_singleton, hother, hb]
        tauto
      · simp only [gone, hz, if_false, Finset.mem_filter, hother]
        simp
  rw [h.deletions, hgone]
  split
  case isTrue => exact Finset.card_singleton a
  case isFalse => exact Finset.card_empty

/-- In every run: the counter of a `FatPointer` with an object is the number of its live handles, no
live handle refers to a freed one, an object that was given to one `FatPointer` only has been deleted
once if no handle on that one is left and is not deleted otherwise, and no operation follows a freed
block. -/
theorem shared_handles_counted {H T : Type} [DecidableEq H] [DecidableEq T] {s : SharedState H T}
    (h : Reachable sharedRuns s) :
    (∀ a f, s.mem.fats a = some f → f.pointer ≠ none →
      s.mem.counters f.counter = some (s.holders a : ℤ)) ∧
    (∀ h ∈ s.live, ∀ a, s.fatPointer h = some a → s.mem.fats a ≠ none) ∧
    (∀ a o, s.mem.made[a]? = some (some o) → (∀ b, s.mem.made[b]? = some (some o) → b = a) →
      s.mem.deleted.count o = if s.holders a = 0 then 1 else 0) ∧
    ∀ op, s.step op ≠ .error .freed := by
  have hs : s.Sound := h.invariant sharedRuns_sound
  refine ⟨fun a f hf hp => ?_, fun h hh a ha => ?_, fun a o ha hone => hs.deleted_once ha hone,
    fun op => ?_⟩
  · obtain ⟨hown, -, c, hc, hcount⟩ := hs.own a f hf
    rw [hown, hc, (hcount hp).1]
  · obtain ⟨f, hf⟩ := hs.fat hh ha
    simp [hf]
  · rcases SharedState.step_follows hs op with ⟨t, ht, -⟩ | he | he
    · simp [ht]
    · simp [he]
    · simp [he]

theorem shared_handles_counted_after_copy : ∃ s : SharedState ℕ ℕ, Reachable sharedRuns s ∧
    s.mem.deleted = [5] ∧ s.mem.counters 0 = some (s.holders 0 : ℤ) := by
  obtain ⟨s, hrun, hf, hdel⟩ : ∃ s : SharedState ℕ ℕ, run SharedState.next (fun _ _ => true) .start
      [.construct 0 (some 7), .copy 1 0, .construct 2 (some 5), .assignCopy 2 1, .destroy 0] = some s ∧
      s.mem.fats 0 = some ⟨some 7, 0⟩ ∧ s.mem.deleted = [5] := ⟨_, rfl, rfl, rfl⟩
  have hstart : Reachable sharedRuns (.start : SharedState ℕ ℕ) := .start rfl
  have hreach : Reachable sharedRuns s := run_reachable (fun _ _ _ _ h => h) hstart hrun
  exact ⟨s, hreach, hdel, (shared_handles_counted hreach).1 0 _ hf (by simp)⟩

/-- Two handles are given the same raw pointer. -/
theorem shared_object_deleted_twice :
    ∃ s : SharedState ℕ ℕ, Reachable sharedRuns s ∧ s.mem.deleted.count 7 = 2 := by
  obtain ⟨s, hrun, hdel⟩ : ∃ s : SharedState ℕ ℕ, run SharedState.next (fun _ _ => true) .start
      [.construct 0 (some 7), .construct 1 (some 5), .assignRaw 1 (some 7), .destroy 0, .destroy 1] =
        some s ∧ s.mem.deleted.count 7 = 2 := ⟨_, rfl, rfl⟩
  have hstart : Reachable sharedRuns (.start : SharedState ℕ ℕ) := .start rfl
  exact ⟨s, run_reachable (fun _ _ _ _ h => h) hstart hrun, hdel⟩

theorem run_made {ops : List (SharedOp H T)} {s t : SharedState H T} (hs : s.Sound)
    (h : run SharedState.next (fun _ _ => true) s ops = some t) : t.Sound ∧
      (none ∈ t.mem.made ↔ none ∈ s.mem.made ∨
        ¬ Throughout SharedState.next (fun s op => ¬ s.MakesNull op) s ops) := by
  induction ops generalizing s with
  | nil =>
    cases h
    exact ⟨hs, by simp [Throughout]⟩
  | cons op ops ih =>
    obtain ⟨u, hu, hrest⟩ := Option.bind_eq_some_iff.mp h
    have hf := SharedState.next_follows hs hu
    obtain ⟨ht, hmade⟩ := ih hf.sound hrest
    refine ⟨ht, ?_⟩
    rw [hmade, hf.made]
    simp only [Throughout, hu, Option.some.injEq, forall_eq']
    tauto

/-- Once a run has destroyed all its handles, every `FatPointer` and every counter is freed exactly if
no operation of the run made a `FatPointer` for a null object. -/
theorem shared_blocks_freed_iff {H T : Type} [DecidableEq H] [DecidableEq T] (ops : List (SharedOp H T))
    (s : SharedState H T) (hrun : run SharedState.next (fun _ _ => true) .start ops = some s)
    (hend : s.live = ∅) :
    (∀ a < s.mem.made.length, s.mem.fats a = none ∧ s.mem.counters a = none) ↔
      Throughout SharedState.next (fun s op => ¬ s.MakesNull op) .start ops := by
  obtain ⟨hs, hmade⟩ := run_made SharedState.start_sound hrun
  have hnone : none ∈ s.mem.made ↔
      ¬ Throughout SharedState.next (fun s op => ¬ s.MakesNull op) .start ops := by
    simpa [SharedState.start] using hmade
  rw [← not_iff_not, ← hnone]
  constructor
  · intro h
    push Not at h
    obtain ⟨a, ha, hblock⟩ := h
    cases hf : s.mem.fats a with
    | none => exact absurd (hs.freed a ha hf).1 (hblock hf)
    | some f =>
      obtain ⟨-, hobject, c, -, hcount⟩ := hs.own a f hf
      cases hp : f.pointer with
      | none => exact List.mem_of_getElem? (hp ▸ hobject)
      | some o =>
        -- an object would have a handle
        have hzero : s.holders a = 0 := by simp [SharedState.holders, hend, Holders.count_empty]
        have hpos := (hcount (by simp [hp])).2
        omega
  · intro hmem h
    obtain ⟨a, ha⟩ := List.mem_iff_getElem?.mp hmem
    have hlt : a < s.mem.made.length := (List.getElem?_eq_some_iff.mp ha).1
    exact (hs.freed a hlt (h a hlt).1).2 ha

theorem shared_blocks_freed_after_copy : ∃ s : SharedState ℕ ℕ,
    (∀ a < s.mem.made.length, s.mem.fats a = none ∧ s.mem.counters a = none) ∧ s.mem.made.length = 1 := by
  obtain ⟨s, hrun, hend, hlen⟩ : ∃ s : SharedState ℕ ℕ, run SharedState.next (fun _ _ => true) .start
      [.construct 0 (some 7), .copy 1 0, .destroy 0, .destroy 1] = some s ∧ s.live = ∅ ∧
        s.mem.made.length = 1 := ⟨_, rfl, by decide, rfl⟩
  refine ⟨s, (shared_blocks_freed_iff _ s hrun hend).mpr ?_, hlen⟩
  simp [Throughout, SharedState.MakesNull]

theorem shared_null_leaks : ∃ s : SharedState ℕ ℕ,
    run SharedState.next (fun _ _ => true) .start [.default 0, .destroy 0] = some s ∧ s.live = ∅ ∧
      s.mem.fats 0 ≠ none ∧ s.mem.counters 0 ≠ none :=
  ⟨_, rfl, by decide, by decide, by decide⟩

end MMapKernel.Sys
