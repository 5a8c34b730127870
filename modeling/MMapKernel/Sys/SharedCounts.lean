import MMapKernel.Sys.SharedPtr

/-!
# The counters of shared pointers

`Counted` relates the blocks to the number of handles on each `FatPointer`. Each of the two counting
functions and each allocation changes both sides alike; an operation is a sequence of these, and the
handles are counted after each.
-/

open Transition
namespace MMapKernel.Sys

variable {H T : Type} [DecidableEq H] [DecidableEq T]

def gone (made : List (Option T)) (n : ℕ → ℕ) (o : T) : Finset ℕ :=
  (Finset.range made.length).filter fun a => made[a]? = some (some o) ∧ n a = 0

structure Counted (m : SharedMem T) (n : ℕ → ℕ) : Prop where
  own : ∀ a f, m.fats a = some f → f.counter = a ∧ m.made[a]? = some f.pointer ∧
    ∃ c, m.counters a = some c ∧ (f.pointer ≠ none → c = n a ∧ 0 < n a)
  freed : ∀ a < m.made.length, m.fats a = none → m.counters a = none ∧ m.made[a]? ≠ some none
  held : ∀ a, 0 < n a → ∃ f, m.fats a = some f
  deletions : ∀ o, m.deleted.count o = (gone m.made n o).card

theorem gone_congr {made : List (Option T)} {n n' : ℕ → ℕ} {o : T}
    (h : ∀ a, made[a]? = some (some o) → (n' a = 0 ↔ n a = 0)) : gone made n' o = gone made n o :=
  Finset.filter_congr fun a _ => and_congr_right (h a)

theorem gone_release {made : List (Option T)} {n n' : ℕ → ℕ} {a : ℕ} {o : T}
    (ha : made[a]? = some (some o)) (hn : ∀ b, b ≠ a → n' b = n b) (hzero : n' a = 0)
    (hpos : 0 < n a) (o' : T) :
    (gone made n' o').card = (gone made n o').card + if o = o' then 1 else 0 := by
  have hlt : a < made.length := (List.getElem?_eq_some_iff.mp ha).1
  by_cases ho : o = o'
  · subst ho
    have hins : gone made n' o = insert a (gone made n o) := by
      ext b
      by_cases hb : b = a
      · subst hb
        have hget := (List.getElem?_eq_some_iff.mp ha).2
        simp [gone, hzero, hlt, hget]
      · simp [gone, hb, hn b hb]
    have hnot : a ∉ gone made n o := by simp [gone, hpos.ne']
    rw [hins, Finset.card_insert_of_notMem hnot, if_pos rfl]
  · rw [if_neg ho, gone_congr, Nat.add_zero]
    intro b hb
    have hne : b ≠ a := by
      rintro rfl
      rw [ha] at hb
      exact ho (Option.some.inj (Option.some.inj hb))
    rw [hn b hne]

namespace Counted
variable {m : SharedMem T} {n n' : ℕ → ℕ} {a : ℕ} {f : FatPointer T} {o : T}

theorem congr (h : Counted m n) (hn : ∀ a, n' a = n a) : Counted m n' := by
  rwa [funext hn]

theorem lt_length (h : Counted m n) (hf : m.fats a = some f) : a < m.made.length :=
  (List.getElem?_eq_some_iff.mp (h.own a f hf).2.1).1

theorem fresh (h : Counted m n) : n m.made.length = 0 := by
  by_contra hne
  obtain ⟨f, hf⟩ := h.held _ (Nat.pos_of_ne_zero hne)
  exact lt_irrefl _ (h.lt_length hf)

theorem held_of_eq (h : Counted m n) (hf : m.fats a = some f) (hn : ∀ b, b ≠ a → n' b = n b) :
    ∀ b, 0 < n' b → ∃ g, m.fats b = some g := by
  intro b hb
  by_cases hne : b = a
  · exact ⟨f, hne ▸ hf⟩
  · rw [hn b hne] at hb
    exact h.held b hb

theorem uncounted (h : Counted m n) (hf : m.fats a = some f) (hp : f.pointer = none)
    (hn : ∀ b, b ≠ a → n' b = n b) : Counted m n' where
  own b g hg := by
    obtain ⟨hown, hmade, c, hc, hcount⟩ := h.own b g hg
    refine ⟨hown, hmade, c, hc, fun hpg => ?_⟩
    have hne : b ≠ a := by
      rintro rfl
      rw [hf] at hg
      cases hg
      exact hpg hp
    rw [hn b hne]
    exact hcount hpg
  freed := h.freed
  held := h.held_of_eq hf hn
  deletions o := by
    rw [h.deletions, gone_congr]
    intro b hb
    have hne : b ≠ a := by
      rintro rfl
      rw [(h.own b f hf).2.1, hp] at hb
      cases hb
    rw [hn b hne]

theorem recount (h : Counted m n) (hf : m.fats a = some f) (hn : ∀ b, b ≠ a → n' b = n b)
    (hpos : 0 < n a) (hpos' : 0 < n' a) :
    Counted { m with counters := Function.update m.counters f.counter (some (n' a : ℤ)) } n' where
  own b g hg := by
    obtain ⟨hown, hmade, c, hc, hcount⟩ := h.own b g hg
    refine ⟨hown, hmade, ?_⟩
    rw [(h.own a f hf).1]
    by_cases hne : b = a
    · subst hne
      exact ⟨n' b, by simp, fun _ => ⟨rfl, hpos'⟩⟩
    · simp only [Function.update_of_ne hne, hn b hne]
      exact ⟨c, hc, hcount⟩
  freed b hb hnone := by
    have hne : b ≠ f.counter := by
      rw [(h.own a f hf).1]
      rintro rfl
      rw [hf] at hnone
      cases hnone
    simp only [Function.update_of_ne hne]
    exact h.freed b hb hnone
  held := h.held_of_eq hf hn
  deletions o := by
    rw [h.deletions, gone_congr]
    intro b _
    by_cases hne : b = a
    · rw [hne]
      omega
    · rw [hn b hne]

theorem release {c : ℤ} (h : Counted m n) (hf : m.fats a = some f) (hp : f.pointer = some o)
    (hn : ∀ b, b ≠ a → n' b = n b) (hpos : 0 < n a) (hzero : n' a = 0) :
    Counted (SharedMem.free { m with counters := Function.update m.counters f.counter (some c) } a f o)
      n' where
  own b g hg := by
    have hne : b ≠ a := by
      rintro rfl
      simp [SharedMem.free] at hg
    simp only [SharedMem.free, Function.update_of_ne hne] at hg
    obtain ⟨hown, hmade, c, hc, hcount⟩ := h.own b g hg
    refine ⟨hown, hmade, ?_⟩
    simp only [SharedMem.free, (h.own a f hf).1, Function.update_of_ne hne, hn b hne]
    exact ⟨c, hc, hcount⟩
  freed b hb hnone := by
    simp only [SharedMem.free, (h.own a f hf).1] at hnone hb ⊢
    by_cases hne : b = a
    · subst hne
      refine ⟨by simp, fun hnull => ?_⟩
      rw [(h.own b f hf).2.1, hp] at hnull
      cases hnull
    · rw [Function.update_of_ne hne] at hnone
      rw [Function.update_of_ne hne, Function.update_of_ne hne]
      exact h.freed b hb hnone
  held b hb := by
    have hne : b ≠ a := by
      rintro rfl
      omega
    rw [hn b hne] at hb
    obtain ⟨g, hg⟩ := h.held b hb
    exact ⟨g, by simp [SharedMem.free, hne, hg]⟩
  deletions o' := by
    have hmade : m.made[a]? = some (some o) := by rw [(h.own a f hf).2.1, hp]
    simp only [SharedMem.free]
    rw [gone_release hmade hn hzero hpos, ← h.deletions o', List.count_cons]
    simp

theorem grow {c : ℤ} (h : Counted m n) (it : Option T) (hc : it ≠ none → c = 1) :
    Counted { (m.make it).2 with counters := Function.update m.counters m.made.length (some c) }
      (fun a => n a + Holders.one (some m.made.length) a) where
  own b g hg := by
    by_cases hb : b = m.made.length
    · subst hb
      simp only [SharedMem.make, Function.update_self, Option.some.injEq] at hg
      subst hg
      refine ⟨rfl, by simp [SharedMem.make], c, by simp, fun hp => ?_⟩
      rw [h.fresh, Holders.one_some_self]
      exact ⟨by simpa using hc hp, by omega⟩
    · simp only [SharedMem.make, Function.update_of_ne hb] at hg ⊢
      obtain ⟨hown, hmade, hcount⟩ := h.own b g hg
      rw [Holders.one_of_ne (by simpa using Ne.symm hb), Nat.add_zero,
        List.getElem?_append_left (h.lt_length hg)]
      exact ⟨hown, hmade, hcount⟩
  freed b hb hnone := by
    by_cases hne : b = m.made.length
    · subst hne
      simp [SharedMem.make] at hnone
    · simp only [SharedMem.make, Function.update_of_ne hne, List.length_append,
        List.length_singleton] at hnone hb ⊢
      have hlt : b < m.made.length := by omega
      rw [List.getElem?_append_left hlt]
      exact h.freed b hlt hnone
  held b hb := by
    by_cases hne : b = m.made.length
    · subst hne
      exact ⟨⟨it, m.made.length⟩, by simp [SharedMem.make]⟩
    · rw [Holders.one_of_ne (by simpa using Ne.symm hne), Nat.add_zero] at hb
      obtain ⟨g, hg⟩ := h.held b hb
      exact ⟨g, by simp [SharedMem.make, hne, hg]⟩
  deletions o := by
    simp only [SharedMem.make]
    rw [h.deletions]
    congr 1
    ext b
    by_cases hb : b = m.made.length
    · subst hb
      simp [gone]
    · have hlt : b < m.made.length + 1 ↔ b < m.made.length := by omega
      have hone := Holders.one_of_ne (a := b) (x := some m.made.length) (by simpa using Ne.symm hb)
      by_cases hin : b < m.made.length
      · simp [gone, hlt, hin, hone]
      · simp [gone, hlt, hin]

omit [DecidableEq T] in
theorem fat_eq (hf : m.fats a = some f) : m.fat (some a) = .ok (a, f) := by
  simp [SharedMem.fat, hf]

omit [DecidableEq T] in
theorem addFetch_eq {c : ℕ} {v : ℤ} (hc : m.counters c = some v) (d : ℤ) :
    m.addFetch c d =
      .ok (v + d, { m with counters := Function.update m.counters c (some (v + d)) }) := by
  simp [SharedMem.addFetch, hc]

omit [DecidableEq T] in
theorem decrement_null (hf : m.fats a = some f) (hp : f.pointer = none) :
    m.decrementCounter (some a) = .ok m := by
  simp [SharedMem.decrementCounter, fat_eq hf, hp, Except.bind]

omit [DecidableEq T] in
theorem decrement_object {v : ℤ} (hf : m.fats a = some f) (hp : f.pointer = some o)
    (hc : m.counters f.counter = some v) :
    m.decrementCounter (some a) = .ok
      (if v + -1 = 0 then
        SharedMem.free { m with counters := Function.update m.counters f.counter (some (v + -1)) } a f o
      else { m with counters := Function.update m.counters f.counter (some (v + -1)) }) := by
  simp only [SharedMem.decrementCounter, fat_eq hf, Except.bind, hp, addFetch_eq hc, Except.map]

omit [DecidableEq T] in
theorem increment_null (hf : m.fats a = some f) (hp : f.pointer = none) :
    m.incrementCounter (some a) = .ok m := by
  simp [SharedMem.incrementCounter, fat_eq hf, hp, Except.bind]

omit [DecidableEq T] in
theorem increment_object {v : ℤ} (hf : m.fats a = some f) (hp : f.pointer = some o)
    (hc : m.counters f.counter = some v) :
    m.incrementCounter (some a) =
      .ok { m with counters := Function.update m.counters f.counter (some (v + 1)) } := by
  simp only [SharedMem.incrementCounter, fat_eq hf, Except.bind, hp, addFetch_eq hc, Except.map]

theorem decrement (h : Counted m n) {x : Option ℕ} (hx : ∀ a, Holders.one x a ≤ n a) :
    ∃ m', m.decrementCounter x = .ok m' ∧ m'.made = m.made ∧
      Counted m' fun a => n a - Holders.one x a := by
  cases x with
  | none => exact ⟨m, rfl, rfl, h.congr fun a => by simp⟩
  | some a =>
    have hpos : 0 < n a := by simpa [Nat.one_le_iff_ne_zero, Nat.pos_iff_ne_zero] using hx a
    have hoff : ∀ b, b ≠ a → n b - Holders.one (some a) b = n b := fun b hb => by
      rw [Holders.one_of_ne (by simpa using Ne.symm hb), Nat.sub_zero]
    have hat : n a - Holders.one (some a) a = n a - 1 := by rw [Holders.one_some_self]
    obtain ⟨f, hf⟩ := h.held a hpos
    cases hp : f.pointer with
    | none => exact ⟨m, decrement_null hf hp, rfl, h.uncounted hf hp hoff⟩
    | some o =>
      obtain ⟨hown, -, c, hc, hcount⟩ := h.own a f hf
      have hc : m.counters f.counter = some (n a : ℤ) := by rw [hown, hc, (hcount (by simp [hp])).1]
      refine ⟨_, decrement_object hf hp hc, ?_, ?_⟩
      · split
        case isTrue => rfl
        case isFalse => rfl
      · split
        case isTrue hzero =>
          have hlast : n a - Holders.one (some a) a = 0 := by omega
          exact h.release hf hp hoff hpos hlast
        case isFalse hne =>
          have hcast : (n a : ℤ) + -1 = ((n a - Holders.one (some a) a : ℕ) : ℤ) := by omega
          rw [hcast]
          exact h.recount hf hoff hpos (by omega)

theorem increment (h : Counted m n) (hpos : 0 < n a) :
    ∃ m', m.incrementCounter (some a) = .ok m' ∧ m'.made = m.made ∧
      Counted m' fun b => n b + Holders.one (some a) b := by
  have hoff : ∀ b, b ≠ a → n b + Holders.one (some a) b = n b := fun b hb => by
    rw [Holders.one_of_ne (by simpa using Ne.symm hb), Nat.add_zero]
  obtain ⟨f, hf⟩ := h.held a hpos
  cases hp : f.pointer with
  | none => exact ⟨m, increment_null hf hp, rfl, h.uncounted hf hp hoff⟩
  | some o =>
    obtain ⟨hown, -, c, hc, hcount⟩ := h.own a f hf
    have hc : m.counters f.counter = some (n a : ℤ) := by rw [hown, hc, (hcount (by simp [hp])).1]
    refine ⟨_, increment_object hf hp hc, rfl, ?_⟩
    have hcast : (n a : ℤ) + 1 = ((n a + Holders.one (some a) a : ℕ) : ℤ) := by
      rw [Holders.one_some_self]
      rfl
    rw [hcast]
    exact h.recount hf hoff hpos (by omega)

theorem construct (h : Counted m n) (it : Option T) :
    ∃ m', (m.make it).2.incrementCounter (some m.made.length) = .ok m' ∧ m'.made = m.made ++ [it] ∧
      Counted m' fun b => n b + Holders.one (some m.made.length) b := by
  have hf : (m.make it).2.fats m.made.length = some ⟨it, m.made.length⟩ := by simp [SharedMem.make]
  cases it with
  | none => exact ⟨_, increment_null hf rfl, rfl, h.grow (c := 0) none (by simp)⟩
  | some o =>
    refine ⟨_, increment_object hf rfl (v := 0) (by simp [SharedMem.make]), rfl, ?_⟩
    simpa [SharedMem.make] using h.grow (c := 1) (some o) (by simp)

end Counted
end MMapKernel.Sys
