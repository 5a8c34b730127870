import Mathlib

/-!
# Flags and owners

Each thing has a flag that says whether it is taken, and each owner a list of the things that it has. A
thing is taken by setting a clear flag and given back by clearing it, so no thing is in two lists, or
twice in one.
-/

namespace Owners

variable {C L : Type*} [DecidableEq C] [DecidableEq L] {taken : L → Bool} {held : C → List L} {c : C} {l : L}
  {ls : List L}

structure Owned (taken : L → Bool) (held : C → List L) : Prop where
  flag : ∀ c, ∀ l ∈ held c, taken l = true
  nodup : ∀ c, (held c).Nodup
  alone : ∀ c c', ∀ l ∈ held c, l ∈ held c' → c = c'

namespace Owned

omit [DecidableEq L] in
theorem nodup_update (h : Owned taken held) (hls : ls.Nodup) (d : C) : (Function.update held c ls d).Nodup :=
  (Function.forall_update_iff held fun _ ls => ls.Nodup).mpr ⟨hls, fun d _ => h.nodup d⟩ d

omit [DecidableEq L] in
theorem perm (h : Owned taken held) (hls : ls.Perm (held c)) : Owned taken (Function.update held c ls) := by
  have hmem : ∀ d x, x ∈ Function.update held c ls d ↔ x ∈ held d := by
    intro d x
    by_cases hd : d = c
    · rw [hd, Function.update_self]
      exact hls.mem_iff
    · rw [Function.update_of_ne hd]
  constructor
  · intro d x hx
    exact h.flag d x ((hmem d x).mp hx)
  · exact h.nodup_update (hls.nodup_iff.mpr (h.nodup c))
  · intro d d' x hx hx'
    exact h.alone d d' x ((hmem d x).mp hx) ((hmem d' x).mp hx')

theorem take (h : Owned taken held) (hfree : taken l = false) (hls : ls.Perm (l :: held c)) :
    Owned (Function.update taken l true) (Function.update held c ls) := by
  have hnone : ∀ d, l ∉ held d := by
    intro d hl
    rw [h.flag d l hl] at hfree
    cases hfree
  have hmem : ∀ d x, x ∈ Function.update held c ls d ↔ (d = c ∧ x = l) ∨ x ∈ held d := by
    intro d x
    by_cases hd : d = c
    · subst hd
      rw [Function.update_self, hls.mem_iff, List.mem_cons]
      simp only [true_and]
    · simp only [Function.update_of_ne hd, hd, false_and, false_or]
  constructor
  · intro d x hx
    rcases (hmem d x).mp hx with ⟨-, rfl⟩ | hx
    · exact Function.update_self ..
    · by_cases hxl : x = l
      · rw [hxl, Function.update_self]
      · rw [Function.update_of_ne hxl]
        exact h.flag d x hx
  · exact h.nodup_update (hls.nodup_iff.mpr (List.nodup_cons.mpr ⟨hnone c, h.nodup c⟩))
  · intro d d' x hx hx'
    rcases (hmem d x).mp hx with ⟨rfl, rfl⟩ | hold
    · rcases (hmem d' x).mp hx' with ⟨rfl, -⟩ | hold'
      · rfl
      · exact absurd hold' (hnone d')
    · rcases (hmem d' x).mp hx' with ⟨rfl, rfl⟩ | hold'
      · exact absurd hold (hnone d)
      · exact h.alone d d' x hold hold'

theorem drop (h : Owned taken held) (hls : (held c).Perm (l :: ls)) :
    Owned (Function.update taken l false) (Function.update held c ls) := by
  have hnodup := List.nodup_cons.mp (hls.nodup_iff.mp (h.nodup c))
  have hl : l ∈ held c := hls.mem_iff.mpr List.mem_cons_self
  have hmem : ∀ d x, x ∈ Function.update held c ls d → x ∈ held d ∧ x ≠ l := by
    intro d x hx
    by_cases hd : d = c
    · subst hd
      rw [Function.update_self] at hx
      refine ⟨hls.mem_iff.mpr (List.mem_cons_of_mem l hx), ?_⟩
      rintro rfl
      exact hnodup.1 hx
    · rw [Function.update_of_ne hd] at hx
      refine ⟨hx, ?_⟩
      rintro rfl
      exact hd (h.alone d c x hx hl)
  constructor
  · intro d x hx
    obtain ⟨hx, hxl⟩ := hmem d x hx
    rw [Function.update_of_ne hxl]
    exact h.flag d x hx
  · exact h.nodup_update hnodup.2
  · intro d d' x hx hx'
    exact h.alone d d' x (hmem d x hx).1 (hmem d' x hx').1

end Owned

end Owners
