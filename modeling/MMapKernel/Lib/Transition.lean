import Mathlib

/-!
# Labelled transition systems and their invariants

A system is a set of initial states and a labelled step relation. `restrict` keeps the
steps whose label meets a condition in the state it is taken from, so the reachable
states of a restricted system are those of the runs all of whose steps meet it.
-/

namespace Transition

structure System (σ ι : Type*) where
  init : σ → Prop
  step : σ → ι → σ → Prop

variable {σ ι : Type*}

inductive Reachable (S : System σ ι) : σ → Prop
  | start {s : σ} : S.init s → Reachable S s
  | next {s t : σ} {i : ι} : Reachable S s → S.step s i t → Reachable S t

namespace System

def restrict (S : System σ ι) (G : σ → ι → Prop) : System σ ι where
  init := S.init
  step s i t := G s i ∧ S.step s i t

/-- `I` holds initially and every step from a state with `I` keeps it. -/
structure Inductive (S : System σ ι) (I : σ → Prop) : Prop where
  init : ∀ s, S.init s → I s
  step : ∀ s i t, I s → S.step s i t → I t

end System

theorem Reachable.invariant {S : System σ ι} {I : σ → Prop} (hI : S.Inductive I) {s : σ}
    (hs : Reachable S s) : I s := by
  induction hs with
  | start h => exact hI.init _ h
  | next _ h ih => exact hI.step _ _ _ ih h

theorem Reachable.of_restrict {S : System σ ι} {G : σ → ι → Prop} {s : σ}
    (hs : Reachable (S.restrict G) s) : Reachable S s := by
  induction hs with
  | start h => exact .start h
  | next _ h ih => exact .next ih h.2

def System.Leads (S : System σ ι) : σ → σ → Prop :=
  Relation.ReflTransGen fun s t => ∃ i, S.step s i t

theorem System.Leads.keeps {S : System σ ι} {I : σ → Prop} {s t : σ} (h : S.Leads s t)
    (hI : ∀ s i t, I s → S.step s i t → I t) (hs : I s) : I t := by
  induction h with
  | refl => exact hs
  | tail _ hstep ih =>
    obtain ⟨i, hi⟩ := hstep
    exact hI _ i _ ih hi

def run (f : σ → ι → Option σ) (test : σ → ι → Bool) : σ → List ι → Option σ
  | s, [] => some s
  | s, i :: is => if test s i then (f s i).bind fun t => run f test t is else none

theorem run_reachable {S : System σ ι} {f : σ → ι → Option σ} {test : σ → ι → Bool}
    (hf : ∀ s i t, test s i → f s i = some t → S.step s i t) {is : List ι} {s t : σ}
    (hs : Reachable S s) (h : run f test s is = some t) : Reachable S t := by
  induction is generalizing s with
  | nil =>
    cases h
    exact hs
  | cons i is ih =>
    simp only [run, Option.ite_none_right_eq_some, Option.bind_eq_some_iff] at h
    obtain ⟨hi, u, hu, hrest⟩ := h
    exact ih (hs.next (hf s i u hi hu)) hrest

theorem run_append {f : σ → ι → Option σ} {test : σ → ι → Bool} {is : List ι} {s t : σ}
    (h : run f test s is = some t) (js : List ι) : run f test s (is ++ js) = run f test t js := by
  induction is generalizing s with
  | nil =>
    cases h
    rfl
  | cons i is ih =>
    simp only [run, Option.ite_none_right_eq_some, Option.bind_eq_some_iff] at h
    obtain ⟨hi, u, hu, hrest⟩ := h
    rw [List.cons_append, run, if_pos hi, hu, Option.bind_some, ih hrest]

/-- `P` holds in every state that the steps of a list come to, the first one included. -/
def Always (f : σ → ι → Option σ) (P : σ → Prop) : σ → List ι → Prop
  | s, [] => P s
  | s, i :: is => P s ∧ ∀ t, f s i = some t → Always f P t is

def Throughout (f : σ → ι → Option σ) (G : σ → ι → Prop) : σ → List ι → Prop
  | _, [] => True
  | s, i :: is => ∀ t, f s i = some t → G s i ∧ Throughout f G t is

theorem Always.last {f : σ → ι → Option σ} {P : σ → Prop} {is : List ι} {s t : σ}
    (h : Always f P s is) (hrun : run f (fun _ _ => true) s is = some t) : P t := by
  induction is generalizing s with
  | nil =>
    cases hrun
    exact h
  | cons i is ih =>
    obtain ⟨u, hu, hrest⟩ := Option.bind_eq_some_iff.mp hrun
    exact ih (h.2 u hu) hrest

theorem throughout_congr {f : σ → ι → Option σ} {I : σ → Prop} {G G' : σ → ι → Prop}
    (hkeep : ∀ s i t, I s → f s i = some t → I t)
    (hiff : ∀ s i t, I s → f s i = some t → (G s i ↔ G' s i)) {s : σ} (hs : I s) (is : List ι) :
    Throughout f G s is ↔ Throughout f G' s is := by
  induction is generalizing s with
  | nil => exact Iff.rfl
  | cons i is ih =>
    refine forall₂_congr fun t ht => ?_
    rw [hiff s i t hs ht, ih (hkeep s i t hs ht)]

/-- If the steps that meet `G` keep an invariant that gives `P`, and the other steps end in a state
without `P`, then `P` holds along exactly the runs whose steps all meet `G`. -/
theorem always_iff_throughout {f : σ → ι → Option σ} {I P : σ → Prop} {G : σ → ι → Prop}
    (hP : ∀ s, I s → P s) (hkeep : ∀ s i t, I s → f s i = some t → G s i → I t)
    (hbreak : ∀ s i t, I s → f s i = some t → P t → G s i) {s : σ} (hs : I s) (is : List ι) :
    Always f P s is ↔ Throughout f G s is := by
  induction is generalizing s with
  | nil => exact iff_of_true (hP s hs) trivial
  | cons i is ih =>
    constructor
    · intro h t ht
      have hPt : P t := by
        have := h.2 t ht
        cases is with
        | nil => exact this
        | cons => exact this.1
      have hg := hbreak s i t hs ht hPt
      exact ⟨hg, (ih (hkeep s i t hs ht hg)).mp (h.2 t ht)⟩
    · intro h
      refine ⟨hP s hs, fun t ht => ?_⟩
      obtain ⟨hg, hrest⟩ := h t ht
      exact (ih (hkeep s i t hs ht hg)).mpr hrest

end Transition
