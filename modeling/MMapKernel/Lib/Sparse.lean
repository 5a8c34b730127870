import Mathlib

/-!
# Arrays of optional entries

`Sparse n α` is an array of length `n` of which only the occupied slots are listed, in the
order of their indices. A loop over all slots that skips the empty ones is a fold over
`entries`. Every update is described by the slot it erases and the slot it writes, so
`entries_set` and `entries_erase` reduce questions about the listed entries to lists.
-/

structure Sparse (n : ℕ) (α : Type*) where
  entries : List (Fin n × α)
  sorted : entries.Pairwise fun a b => a.1 < b.1

namespace Sparse
variable {n : ℕ} {α : Type*}

instance [DecidableEq α] : DecidableEq (Sparse n α) := fun a b =>
  decidable_of_iff (a.entries = b.entries) ⟨fun h => by cases a; cases b; cases h; rfl, fun h => h ▸ rfl⟩

def empty : Sparse n α := ⟨[], List.Pairwise.nil⟩

def get (m : Sparse n α) (i : Fin n) : Option α := (m.entries.find? fun e => e.1 = i).map Prod.snd

def erase (m : Sparse n α) (i : Fin n) : Sparse n α :=
  ⟨m.entries.filter fun e => e.1 ≠ i, m.sorted.sublist List.filter_sublist⟩

def set (m : Sparse n α) (i : Fin n) (a : α) : Sparse n α where
  entries := (m.entries.filter fun e => e.1 < i) ++ (i, a) :: (m.entries.filter fun e => i < e.1)
  sorted := by
    refine List.pairwise_append.mpr ⟨m.sorted.sublist List.filter_sublist,
      List.pairwise_cons.mpr ⟨fun e he => ?_, m.sorted.sublist List.filter_sublist⟩,
      fun e he f hf => ?_⟩
    · exact of_decide_eq_true (List.mem_filter.mp he).2
    · have he := of_decide_eq_true (List.mem_filter.mp he).2
      rcases List.mem_cons.mp hf with rfl | hf
      · exact he
      · exact he.trans (of_decide_eq_true (List.mem_filter.mp hf).2)

def filter (m : Sparse n α) (test : Fin n → Bool) : Sparse n α :=
  ⟨m.entries.filter fun e => test e.1, m.sorted.sublist List.filter_sublist⟩

theorem key_unique {m : Sparse n α} {e f : Fin n × α} (he : e ∈ m.entries) (hf : f ∈ m.entries)
    (h : e.1 = f.1) : e = f := by
  by_contra hne
  obtain ⟨l, r, hl⟩ := List.append_of_mem he
  have hs := m.sorted
  rw [hl] at hf hs
  obtain ⟨-, hr, hcross⟩ := List.pairwise_append.mp hs
  rcases List.mem_append.mp hf with hf | hf
  · exact absurd h (ne_of_gt (hcross f hf e List.mem_cons_self))
  · rcases List.mem_cons.mp hf with hf | hf
    · exact hne hf.symm
    · exact absurd h (ne_of_lt ((List.pairwise_cons.mp hr).1 f hf))

theorem get_eq_some {m : Sparse n α} {i : Fin n} {a : α} :
    m.get i = some a ↔ (i, a) ∈ m.entries := by
  unfold get
  constructor
  · intro h
    obtain ⟨e, he, rfl⟩ := Option.map_eq_some_iff.mp h
    have hi : e.1 = i := by simpa using List.find?_some he
    rw [← hi]
    exact List.mem_of_find?_eq_some he
  · intro h
    cases hf : m.entries.find? fun e => e.1 = i with
    | none => simpa using List.find?_eq_none.mp hf _ h
    | some e =>
      have hi : e.1 = i := by simpa using List.find?_some hf
      have := key_unique (List.mem_of_find?_eq_some hf) h hi
      rw [this]
      rfl

theorem get_eq_none {m : Sparse n α} {i : Fin n} : m.get i = none ↔ ∀ e ∈ m.entries, e.1 ≠ i := by
  simp [get]

theorem entries_nodup (m : Sparse n α) : m.entries.Nodup := by
  refine List.Pairwise.imp ?_ m.sorted
  rintro a b hab rfl
  exact lt_irrefl _ hab

@[simp] theorem entries_empty : (empty : Sparse n α).entries = [] := rfl

@[simp] theorem get_empty (i : Fin n) : (empty : Sparse n α).get i = none := rfl

theorem mem_erase {m : Sparse n α} {i : Fin n} {e : Fin n × α} :
    e ∈ (m.erase i).entries ↔ e ∈ m.entries ∧ e.1 ≠ i := by
  simp [erase]

theorem mem_set {m : Sparse n α} {i : Fin n} {a : α} {e : Fin n × α} :
    e ∈ (m.set i a).entries ↔ e = (i, a) ∨ e ∈ (m.erase i).entries := by
  simp only [set, erase, List.mem_append, List.mem_filter, List.mem_cons, decide_eq_true_eq]
  constructor
  · rintro (⟨h, hlt⟩ | rfl | ⟨h, hlt⟩)
    · exact Or.inr ⟨h, ne_of_lt hlt⟩
    · exact Or.inl rfl
    · exact Or.inr ⟨h, ne_of_gt hlt⟩
  · rintro (rfl | ⟨h, hne⟩)
    · exact Or.inr (Or.inl rfl)
    · rcases lt_or_gt_of_ne hne with hlt | hlt
      · exact Or.inl ⟨h, hlt⟩
      · exact Or.inr (Or.inr ⟨h, hlt⟩)

theorem entries_set (m : Sparse n α) (i : Fin n) (a : α) :
    (m.set i a).entries.Perm ((i, a) :: (m.erase i).entries) := by
  refine (List.perm_ext_iff_of_nodup (entries_nodup _) ?_).mpr fun e => ?_
  · refine List.nodup_cons.mpr ⟨fun h => (mem_erase.mp h).2 rfl, entries_nodup _⟩
  · rw [mem_set, List.mem_cons]

theorem entries_erase {m : Sparse n α} {i : Fin n} {a : α} (h : m.get i = some a) :
    m.entries.Perm ((i, a) :: (m.erase i).entries) := by
  refine (List.perm_ext_iff_of_nodup (entries_nodup _) ?_).mpr fun e => ?_
  · refine List.nodup_cons.mpr ⟨fun h => (mem_erase.mp h).2 rfl, entries_nodup _⟩
  · rw [List.mem_cons, mem_erase]
    constructor
    · intro he
      by_cases hi : e.1 = i
      · exact Or.inl (key_unique he (get_eq_some.mp h) hi)
      · exact Or.inr ⟨he, hi⟩
    · rintro (rfl | he)
      · exact get_eq_some.mp h
      · exact he.1

theorem erase_of_get_none {m : Sparse n α} {i : Fin n} (h : m.get i = none) :
    (m.erase i).entries = m.entries := by
  refine List.filter_eq_self.mpr fun e he => ?_
  simpa using get_eq_none.mp h e he

@[simp] theorem get_set_self (m : Sparse n α) (i : Fin n) (a : α) : (m.set i a).get i = some a :=
  get_eq_some.mpr (mem_set.mpr (Or.inl rfl))

theorem get_erase_of_ne (m : Sparse n α) {i j : Fin n} (h : j ≠ i) : (m.erase i).get j = m.get j := by
  refine Option.ext fun a => ?_
  rw [get_eq_some, get_eq_some, mem_erase]
  exact ⟨fun h => h.1, fun h' => ⟨h', h⟩⟩

@[simp] theorem get_erase_self (m : Sparse n α) (i : Fin n) : (m.erase i).get i = none :=
  get_eq_none.mpr fun _ he => (mem_erase.mp he).2

theorem get_set_of_ne (m : Sparse n α) {i j : Fin n} (a : α) (h : j ≠ i) :
    (m.set i a).get j = m.get j := by
  rw [← get_erase_of_ne m h]
  refine Option.ext fun b => ?_
  rw [get_eq_some, get_eq_some, mem_set]
  refine ⟨fun h' => h'.resolve_left fun he => ?_, Or.inr⟩
  cases he
  exact h rfl

theorem get_filter (m : Sparse n α) (test : Fin n → Bool) (i : Fin n) :
    (m.filter test).get i = if test i then m.get i else none := by
  refine Option.ext fun a => ?_
  rw [get_eq_some]
  simp only [filter, List.mem_filter]
  split
  case isTrue h =>
    rw [get_eq_some]
    exact and_iff_left h
  case isFalse h =>
    exact ⟨fun hm => absurd hm.2 h, fun hm => by cases hm⟩

end Sparse
